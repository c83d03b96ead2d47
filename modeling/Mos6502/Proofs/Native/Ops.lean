import Mos6502.Proofs.Native.Safe

/-! What the host code of a record names: a countdown comes first or not at all, whatever else is
asked of the engine is asked for the instruction of the record, and the last record of a block does
not run on behind its end. -/
namespace Mos6502

/-- What the micro-operation asks of the engine, it asks for the instruction at `a`. -/
def Uop.Names (a : Addr) : Uop → Prop
  | countdown .. => False
  | observe x | interpret x | interpretIfDecimal x | interpretIfIrq x | retireScratch x
  | retireScratchY x | retire _ x | undefined _ x => x = a
  | raw opcode operand =>
    Native.isUnraw opcode = false ∧ (Native.stopsRun opcode = true → operand = a)
  | _ => True

def HostOp.Names (a : Addr) : HostOp → Prop
  | uop u => u.Names a
  | modifyChecked opcode operand => (Uop.raw opcode operand).Names a
  | nop | trap => True

namespace Outcome

/-- All that the outcome asks of the engine is about the instruction at `a`. -/
def About (a : Addr) : Outcome → Prop
  | stale x | bounce x | leave x _ | charge x _ | observe x => x = a
  | illegal _ => False
  | next | jump _ => True

end Outcome

namespace Native

def Ends {M : Type} [GuestMemory M] (op : HostOp) : Prop :=
  ∀ c d : Core M, ¬ Continues (execOp op c).1 (execOp op c).2 d

theorem Leaves.addr_eq {op : HostOp} {addr a : Addr} (h : Leaves op addr) (names : op.Names a) :
    addr = a := by
  rcases h with ⟨opcode, rfl⟩ | ⟨opcode, is, stops⟩
  · exact names
  · unfold raw? at is
    split at is
    · cases is
      exact names.2 stops
    · cases is
      exact names.2 stops
    · cases is

/-- A host instruction asks the engine for what it names. -/
theorem Explained.about {M : Type} {op : HostOp} {c d : Core M} {out : Outcome} {a : Addr}
    (h : Explained op c out d) (names : op.Names a ∨ ∃ n, op = .uop (.countdown a n)) :
    out.About a := by
  cases out with
  | next | jump => trivial
  | stale pc =>
    obtain ⟨u, x, rfl, retires, _⟩ := h
    rcases names with names | ⟨n, is⟩
    · rcases retires with ⟨y, rfl⟩ | rfl | rfl <;> exact names
    · rcases retires with ⟨y, rfl⟩ | rfl | rfl <;> cases is
  | bounce addr =>
    obtain ⟨⟨u, rfl, asks⟩, _⟩ := h
    rcases names with names | ⟨n, is⟩
    · rcases asks with rfl | rfl | rfl <;> exact names
    · rcases asks with rfl | rfl | rfl <;> cases is
  | leave addr why =>
    rcases names with names | ⟨n, rfl⟩
    · exact h.1.addr_eq names
    · rcases h.1 with ⟨opcode, is⟩ | ⟨opcode, is, _⟩ <;> cases is
  | charge addr cycles =>
    obtain ⟨rfl, _⟩ := h
    rcases names with names | ⟨n, is⟩
    · exact names.elim
    · cases is
      rfl
  | observe addr =>
    obtain ⟨rfl, _⟩ := h
    rcases names with names | ⟨n, is⟩
    · exact names
    · cases is
  | illegal mnemonic =>
    obtain ⟨opcode, operand, is, unraw⟩ := h.1
    rcases names with names | ⟨n, rfl⟩
    · have raw : isUnraw opcode = false := by
        unfold raw? at is
        split at is
        · cases is
          exact names.1
        · cases is
          exact names.1
        · cases is
      rw [raw] at unraw
      cases unraw
    · cases is

theorem byte_of_stopsRun {opcode : UInt8} (stops : stopsRun opcode = true) :
    opcode = 0x02 ∨ opcode = 0x12 ∨ opcode = 0xF2 := by
  revert stops
  apply forall_byte (p := fun opcode =>
    stopsRun opcode = true → opcode = 0x02 ∨ opcode = 0x12 ∨ opcode = 0xF2)
  decide +kernel

end Native

namespace Instruction

theorem needsInterpreter_rti {M : Type} [GuestMemory M] (m : M) {i : Instruction}
    (is : i.operation.mnemonic = .rti) : i.needsInterpreter m = true := by
  have mode : ∀ opcode, (operationOf opcode).mnemonic = .rti →
      (operationOf opcode).mode = .implied := by
    apply Native.forall_byte (p := fun opcode => (operationOf opcode).mnemonic = .rti →
      (operationOf opcode).mode = .implied)
    decide +kernel
  have bare : i.operation.mode = .implied := mode i.opcode is
  unfold needsInterpreter
  rw [bare, is]
  rfl

theorem operand_of_stopsRun {i : Instruction} (stops : Native.stopsRun i.opcode = true) :
    i.operand = i.addr := by
  unfold operand operation
  rcases Native.byte_of_stopsRun stops with is | is | is <;> rw [is] <;> rfl

theorem names_mainUops (i : Instruction) (translated : i.operation.mnemonic ≠ .rti) {u : Uop}
    (mem : u ∈ i.mainUops) : u.Names i.addr := by
  cases inMain_of_mem mem with
  | raw direct =>
    refine ⟨?_, operand_of_stopsRun⟩
    change (operationOf i.opcode).mnemonic ∉ _ at direct
    change (operationOf i.opcode).mnemonic ≠ _ at translated
    unfold Native.isUnraw
    cases named : (operationOf i.opcode).mnemonic with
    | brk | jmp | jsr | rts | unknown => simp [named] at direct
    | rti => exact absurd named translated
    | _ => rfl
  | pushFlags | mask => exact ⟨rfl, fun stops => nomatch stops⟩
  | undefined => rfl
  | _ => trivial

theorem names_bodyUops (o : LoweringOptions) (i : Instruction)
    (translated : i.operation.mnemonic ≠ .rti) {u : Uop} (mem : u ∈ i.bodyUops o) :
    u.Names i.addr := by
  rcases mem_bodyUops mem with mode | retire | before | main | after
  · cases inMode_of_mem mode <;> trivial
  · cases inRetire_of_mem retire <;> trivial
  · cases inBefore_of_mem before <;> trivial
  · exact i.names_mainUops translated main
  · cases inAfter_of_mem after <;> trivial

end Instruction

namespace Record

open Native

variable {M : Type} [GuestMemory M] {m : M} {o : LoweringOptions} {k : Known}

theorem names_lower (m : M) (o : LoweringOptions) (a : Addr) {u : Uop}
    (mem : u ∈ (lower m o a).uopList) : u.Names a := by
  unfold uopList lower at mem
  simp only [List.map_map, Function.comp_def, List.map_id', List.mem_append] at mem
  rcases mem with mem | mem
  · rw [Instruction.observe_of_mem mem]
    rfl
  · split at mem
    · rw [List.mem_singleton.mp mem]
      rfl
    · next translated =>
      refine (Instruction.fetch m a).names_bodyUops o ?_ mem
      intro is
      exact translated (Instruction.needsInterpreter_rti m is)

theorem Known.names_rewrite (k : Known) {a : Addr} {u : Uop} (names : u.Names a) :
    (k.rewrite u).Names a := by
  cases u with
  | raw opcode operand =>
    rcases k.rewrite_raw opcode operand with h | ⟨_, _, h⟩ | ⟨_, _, h⟩ | ⟨v, h, _⟩
    · rw [h]
      exact names
    · rw [h]
      trivial
    · rw [h]
      trivial
    · rw [h]
      trivial
  | _ => exact names

theorem names_ofUop (m : M) {a : Addr} {u : Uop} (names : u.Names a) :
    (HostOp.ofUop m u).Names a := by
  cases u with
  | raw opcode operand =>
    have stored : Native.stopsRun opcode = true → storedOperand opcode operand = a := by
      intro stops
      rw [← names.2 stops]
      rcases byte_of_stopsRun stops with rfl | rfl | rfl <;> rfl
    unfold HostOp.ofUop
    dsimp only
    split <;> exact ⟨names.1, stored⟩
  | _ => exact names

theorem names_rewritten (m : M) (o : LoweringOptions) (k : Known) {r : Record} {u : Uop}
    (mem : u ∈ (lower m o r.addr).uopList.map k.rewrite ++ closingUops (lower m o r.addr) r) :
    u.Names r.addr := by
  rcases List.mem_append.mp mem with mem | mem
  · obtain ⟨v, hv, rfl⟩ := List.mem_map.mp mem
    exact k.names_rewrite (names_lower m o r.addr hv)
  · unfold closingUops at mem
    split at mem
    · cases mem
    · rw [List.mem_singleton.mp mem]
      trivial

theorem names_placed {r : Record} {post : List Record} {ps : List Placed}
    (names : ∀ p ∈ ps, p.uop.Names r.addr) {op : HostOp}
    (mem : op ∈ ps.flatMap (Placed.ops m) ++ onwardOps r post) : op.Names r.addr := by
  rcases List.mem_append.mp mem with mem | mem
  · obtain ⟨p, hp, mem⟩ := List.mem_flatMap.mp mem
    rcases List.mem_cons.mp mem with rfl | pad
    · exact names_ofUop m (names p hp)
    · cases List.eq_of_mem_replicate pad
      trivial
  · unfold onwardOps at mem
    split at mem
    · cases List.mem_singleton.mp mem
      trivial
    · cases mem

theorem Lowered.ops_tail {r : Record} (h : Lowered m o k r) (post : List Record) :
    ∃ tail, (∀ op ∈ tail, op.Names r.addr) ∧
      ((∃ total, r.runTotal = some total ∧
          r.ops m ++ onwardOps r post = .uop (.countdown r.addr total) :: tail) ∨
        r.startsRun = false ∧ r.ops m ++ onwardOps r post = tail) := by
  by_cases runs : r.startsRun = true
  · obtain ⟨total, size, rest, ht, uops⟩ := h.uops_head runs
    have front : r.uopList = .countdown r.addr total :: rest.map (·.uop) := by
      rw [uopList, uops]
      rfl
    have all := h.uops
    rw [front, headUops, ht] at all
    have same : rest.map (·.uop) = (lower m o r.addr).uopList.map k.rewrite
        ++ closingUops (lower m o r.addr) r := (List.cons.inj all).2
    refine ⟨List.replicate (size - (emit m (.countdown r.addr total)).length) .nop
      ++ (rest.flatMap (Placed.ops m) ++ onwardOps r post), ?_, .inl ⟨total, ht, ?_⟩⟩
    · intro op mem
      rcases List.mem_append.mp mem with pad | mem
      · cases List.eq_of_mem_replicate pad
        trivial
      · refine names_placed (fun p hp => names_rewritten m o k ?_) mem
        rw [← same]
        exact List.mem_map.mpr ⟨p, hp, rfl⟩
    · simp only [ops, uops, List.flatMap_cons, Placed.ops, List.cons_append, List.append_assoc]
      rfl
  · have quiet : r.startsRun = false := by simpa using runs
    have unrun : r.runTotal = none := by simpa [startsRun] using quiet
    have all := h.uops
    simp only [headUops, unrun, List.nil_append] at all
    refine ⟨r.ops m ++ onwardOps r post, ?_, .inr ⟨quiet, rfl⟩⟩
    intro op mem
    refine names_placed (fun p hp => names_rewritten m o k ?_) mem
    rw [← all]
    exact List.mem_map.mpr ⟨p, hp, rfl⟩

theorem stored_of_mem_ops {r : Record} {post : List Record} {op : HostOp}
    (mem : op ∈ r.ops m ++ onwardOps r post) : op.Stored ∧ op ≠ .trap := by
  rcases List.mem_append.mp mem with mem | mem
  · obtain ⟨p, _, mem⟩ := List.mem_flatMap.mp mem
    rcases List.mem_cons.mp mem with rfl | pad
    · refine ⟨HostOp.stored_ofUop m p.uop, ?_⟩
      cases p.uop with
      | raw opcode operand =>
        unfold HostOp.ofUop
        dsimp only
        split <;> exact HostOp.noConfusion
      | _ => exact HostOp.noConfusion
    · cases List.eq_of_mem_replicate pad
      exact ⟨trivial, HostOp.noConfusion⟩
  · unfold onwardOps at mem
    split at mem
    · cases List.mem_singleton.mp mem
      exact ⟨HostOp.stored_ofUop m (.jump r.addrAfter), HostOp.noConfusion⟩
    · cases mem

theorem Lowered.op_cases {r : Record} (h : Lowered m o k r) {post : List Record} {op : HostOp}
    (mem : op ∈ r.ops m ++ onwardOps r post) :
    op = .nop ∨ (∃ total, op = .uop (.countdown r.addr total)) ∨
      (∃ u ∈ (lower m o r.addr).uopList, op = HostOp.ofUop m (k.rewrite u)) ∨
      op = .uop (.jump r.addrAfter) ∧ (lower m o r.addr).endsBlock = false := by
  rcases List.mem_append.mp mem with mem | onward
  · obtain ⟨p, among, mem⟩ := List.mem_flatMap.mp mem
    rcases List.mem_cons.mp mem with rfl | padding
    · have listed : p.uop ∈ r.uopList := List.mem_map_of_mem among
      rw [h.uops, List.mem_append, List.mem_append] at listed
      rcases listed with (head | body) | closing
      · unfold headUops at head
        split at head
        · rw [List.mem_singleton.mp head]
          exact .inr (.inl ⟨_, rfl⟩)
        · cases head
      · obtain ⟨u, body, is⟩ := List.mem_map.mp body
        exact .inr (.inr (.inl ⟨u, body, by rw [is]⟩))
      · unfold closingUops at closing
        split at closing
        · cases closing
        · next differ =>
          rw [List.mem_singleton.mp closing]
          refine .inr (.inr (.inr ⟨rfl, ?_⟩))
          cases own : (lower m o r.addr).endsBlock with
          | false => rfl
          | true => exact absurd (own.trans (h.ends own).symm) differ
    · exact .inl (List.eq_of_mem_replicate padding)
  · unfold onwardOps at onward
    split at onward
    · next last =>
      refine .inr (.inr (.inr ⟨List.mem_singleton.mp onward, ?_⟩))
      cases own : (lower m o r.addr).endsBlock with
      | false => rfl
      | true =>
        rw [h.ends own] at last
        simp at last
    · cases onward

theorem mem_ops {r : Record} {u : Uop} (mem : u ∈ r.uopList) : HostOp.ofUop m u ∈ r.ops m := by
  obtain ⟨p, hp, rfl⟩ := List.mem_map.mp mem
  exact List.mem_flatMap.mpr ⟨p, hp, by simp [Placed.ops]⟩

theorem ends_jump (target : Addr) : Ends (M := M) (.uop (.jump target)) := by
  intro c d next
  cases next

theorem ofUop_stop (m : M) (k : Known) {opcode : UInt8} (operand : UInt16)
    (stops : stopsRun opcode = true) :
    HostOp.ofUop m (k.rewrite (.raw opcode operand)) = .uop (.raw opcode operand) := by
  rcases byte_of_stopsRun stops with rfl | rfl | rfl <;> rfl

theorem ends_bodyUops (m : M) (o : LoweringOptions) (k : Known) {i : Instruction}
    (translated : i.needsInterpreter m = false) (always : i.operation.branch = .always) :
    ∃ us u, i.bodyUops o = us ++ [u] ∧ Ends (M := M) (HostOp.ofUop m (k.rewrite u)) := by
  have main : i.afterUops o = [] ∧ ∃ us u, i.mainUops = us ++ [u] ∧
      Ends (M := M) (HostOp.ofUop m (k.rewrite u)) := by
    have leaves : ∀ u : Uop, HostOp.ofUop m (k.rewrite u) = .uop u →
        (∀ c d : Core M, ¬ Continues (exec u c).1 (exec u c).2 d) →
        Ends (M := M) (HostOp.ofUop m (k.rewrite u)) := by
      intro u same stays
      rw [same]
      exact stays
    unfold Instruction.mainUops Instruction.afterUops
    unfold Operation.branch at always
    cases hm : i.operation.mnemonic with
    | brk => exact ⟨rfl, [_, _, _, _], .jumpScratch, rfl, leaves _ rfl fun _ _ next => nomatch next⟩
    | jmp =>
      refine ⟨rfl, [], ?_⟩
      dsimp only
      split <;> exact ⟨_, rfl, leaves _ rfl fun _ _ next => nomatch next⟩
    | jsr | rts | unknown => exact ⟨rfl, [], _, rfl, leaves _ rfl fun _ _ next => nomatch next⟩
    | rti =>
      rw [Instruction.needsInterpreter_rti m hm] at translated
      cases translated
    | exit | debugBreak | crash =>
      have named : (operationOf i.opcode).mnemonic = _ := hm
      have stops : stopsRun i.opcode = true := by rw [stopsRun, named]
      refine ⟨rfl, [], _, rfl, leaves _ (ofUop_stop m k i.operand stops) fun c d next => ?_⟩
      simp only [exec, raw, named] at next
      cases next
    | _ => rw [hm] at always; cases always
  obtain ⟨none, us, u, split, ends⟩ := main
  refine ⟨i.modeUops o ++ i.retireUops o ++ i.beforeUops ++ us, u, ?_, ends⟩
  unfold Instruction.bodyUops
  simp only [none, split, List.append_nil, List.append_assoc]

theorem ends_lower (m : M) (o : LoweringOptions) (a : Addr) (k : Known)
    (ends : (lower m o a).endsBlock = true) :
    ∃ us u, (lower m o a).uopList = us ++ [u] ∧
      Ends (M := M) (HostOp.ofUop m (k.rewrite u)) := by
  rw [uopList_lower]
  cases interpreted : (Instruction.fetch m a).needsInterpreter m with
  | true => exact ⟨_, .interpret a, rfl, fun _ _ next => nomatch next⟩
  | false =>
    have always : (Instruction.fetch m a).operation.branch = .always := by
      change ((Instruction.fetch m a).needsInterpreter m
        || (Instruction.fetch m a).operation.branch == .always) = true at ends
      rw [interpreted, Bool.false_or] at ends
      exact beq_iff_eq.mp ends
    obtain ⟨us, u, split, ends⟩ := ends_bodyUops m o k interpreted always
    refine ⟨(Instruction.fetch m a).observeUops o ++ us, u, ?_, ends⟩
    rw [if_neg Bool.false_ne_true, split, List.append_assoc]

/-- The last record of a block leaves it, or jumps on. -/
theorem Lowered.uopList_ends {r : Record} (h : Lowered m o k r) (closed : r.endsBlock = true) :
    ∃ us u, r.uopList = us ++ [u] ∧ Ends (M := M) (HostOp.ofUop m u) ∧
      (u = .jump r.addrAfter ∨ (lower m o r.addr).endsBlock = true) := by
  rw [h.uops]
  unfold closingUops
  cases own : (lower m o r.addr).endsBlock with
  | true =>
    obtain ⟨us, u, split, ends⟩ := ends_lower m o r.addr k own
    refine ⟨r.headUops ++ us.map k.rewrite, k.rewrite u, ?_, ends, .inr rfl⟩
    rw [if_pos closed.symm, split, List.map_append, List.append_nil, List.append_assoc]
    rfl
  | false =>
    refine ⟨r.headUops ++ (lower m o r.addr).uopList.map k.rewrite, .jump r.addrAfter, ?_,
      ends_jump r.addrAfter, .inl rfl⟩
    rw [closed, if_neg Bool.false_ne_true]

theorem Lowered.ends_of_last {r : Record} (h : Lowered m o k r) :
    ∃ op ∈ r.ops m ++ onwardOps r [], Ends (M := M) op := by
  cases closed : r.endsBlock with
  | false => exact ⟨.uop (.jump r.addrAfter), by simp [onwardOps, closed], ends_jump _⟩
  | true =>
    obtain ⟨us, u, split, ends, _⟩ := h.uopList_ends closed
    exact ⟨_, List.mem_append_left _ (mem_ops (split ▸ List.mem_append_right us (.head _))), ends⟩

end Record

end Mos6502
