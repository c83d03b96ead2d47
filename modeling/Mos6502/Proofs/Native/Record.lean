import Mos6502.Proofs.Native.Flow

/-! A record from its first host instruction to its last: whatever the instruction is, the host
code does what the interpreter does. -/
namespace Mos6502

namespace Instruction

open Interpreter Mos6502.Core

variable {σ : Type} {i : Instruction} {o : LoweringOptions} {last : Bool} {k : Record.Known}
  {cpu : Cpu} {mem : PagedMemory σ} {ops : List HostOp} (m : PagedMemory σ)

theorem jmp_of_indirect (indirect : i.operation.mode = .indirect) : i.operation.mnemonic = .jmp := by
  revert indirect
  change (operationOf i.opcode).mode = .indirect → (operationOf i.opcode).mnemonic = .jmp
  apply Native.forall_byte (p := fun opcode => (operationOf opcode).mode = .indirect →
    (operationOf opcode).mnemonic = .jmp)
  decide +kernel

theorem ne_rti_of_translated (translated : i.needsInterpreter m = false) :
    i.operation.mnemonic ≠ .rti := by
  intro returns
  have implied : i.operation.mode = .implied := (mode_of_bare (i := i) (by rw [returns]; decide)).1
  unfold needsInterpreter at translated
  rw [implied] at translated
  simp [returns] at translated

theorem needsInterpreter_congr (i : Instruction) (pages : m.pages = mem.pages) :
    i.needsInterpreter m = i.needsInterpreter mem := by
  have same : ∀ a, m.kindAt a = mem.kindAt a := PagedMemory.kindAt_congr pages
  have reads : ∀ a, GuestMemory.readsDevice m a = GuestMemory.readsDevice mem a :=
    fun a => congrArg (· == PageKind.device) (same a)
  have writes : ∀ a, GuestMemory.writesDevice m a = GuestMemory.writesDevice mem a :=
    fun a => congrArg (· == PageKind.device) (same a)
  unfold needsInterpreter rangeNeedsInterpreter
  simp only [reads, writes]

theorem runs_body (holds : k.Holds cpu) (suits : i.Suits cpu mem) (pages : m.pages = mem.pages)
    (translated : i.needsInterpreter m = false)
    (rest : (i.task o last (bare cpu mem)).GoesOn ops) :
    (i.task o last (bare cpu mem)).Runs
      ((i.bodyUops o).map (HostOp.ofUop m ∘ k.rewrite) ++ ops) (bare cpu mem) := by
  have parts : i.bodyUops o
      = (i.modeUops o ++ i.retireUops o) ++ (i.beforeUops ++ i.mainUops ++ i.afterUops o) := by
    simp only [bodyUops, List.append_assoc]
  rw [parts, List.map_append, List.append_assoc]
  have here : i.needsInterpreter mem = false := (i.needsInterpreter_congr m pages).symm.trans translated
  have native : i.sums = false → (i.task o last (bare cpu mem)).bounced = false :=
    fun other => native_of_sums here fun sums => Bool.noConfusion (sums.symm.trans other)
  refine i.runs_pointed o m k cpu mem ?_
  intro scratch budget pointed
  by_cases indirect : i.operation.mode = .indirect
  · have jumps := jmp_of_indirect indirect
    exact runs_jmp m jumps (native (by simp [sums, jumps])) pointed rfl
  obtain ⟨r, ⟨m₁⟩, found⟩ : ∃ r b, i.resolved cpu mem = (r, b) := ⟨_, _, rfl⟩
  have still : (i.operation.mode = .indexedIndirect ∨ i.operation.mode = .indirectIndexed →
      mem.kindAt 0 ≠ .device) → m₁ = mem := by
    intro plain
    have kept := i.resolved_memory cpu indirect plain
    rw [found] at kept
    exact congrArg DeviceBus.memory kept
  rw [found] at pointed ⊢
  by_cases reads : i.operation.mnemonic ∈ readers
  · refine runs_reader m reads here pointed found ?_ holds rest
    intro sums decimal
    exact still fun pointer => suits.pointer (by simp [pointsTwice, sums, decimal, pointer])
  by_cases stores : i.operation.memUse = .write
  · have other : i.sums = false := by
      rw [← Bool.not_eq_true, i.sums_iff]
      rintro (hm | hm) <;> exact reads (by rw [hm]; decide)
    exact runs_store m stores (native other) pointed found holds rest
  -- Nothing else has a pointer in page zero.
  obtain rfl : mem = m₁ := (still fun pointer =>
    absurd (reads_or_stores_of_pointer pointer) (not_or.mpr ⟨reads, stores⟩)).symm
  cases hm : i.operation.mnemonic with
  | adc | sbc | and | ora | eor | alr | bit | cmp | cpx | cpy | lda | ldx | ldy =>
    exact absurd (by rw [hm]; decide) reads
  | nop => exact runs_nop m hm (native (by simp [sums, hm])) pointed found rest
  | sta | stx | sty | sax =>
    refine absurd ?_ stores
    unfold Operation.memUse
    rw [hm]
    rfl
  | asl | lsr | rol | ror | slo | inc | dec =>
    have modifies : i.operation.memUse = .readWrite := by
      unfold Operation.memUse
      rw [hm]
      rfl
    by_cases accumulator : i.operation.mode = .accumulator
    · exact runs_accumulator m accumulator (native (by simp [sums, hm])) pointed found rest
    · exact runs_modify m modifies accumulator pages suits.change (native (by simp [sums, hm])) pointed
        found rest
  | inx | iny | dex | dey | tax | tay | txa | tya | tsx | txs | clc | sec | clv | cli | sei | cld
  | sed => exact runs_register m (by rw [hm]; decide) (native (by simp [sums, hm])) pointed found rest
  | pha =>
    exact runs_push m (.inl hm) (suits.stack (by simp [usesStack, hm])) (native (by simp [sums, hm]))
      pointed found rest
  | php =>
    exact runs_push m (.inr hm) (suits.stack (by simp [usesStack, hm])) (native (by simp [sums, hm]))
      pointed found rest
  | pla => exact runs_pull m (.inl hm) suits.stack (native (by simp [sums, hm])) pointed found rest
  | plp => exact runs_pull m (.inr hm) suits.stack (native (by simp [sums, hm])) pointed found rest
  | bcc | bcs | bne | beq | bpl | bmi | bvc | bvs =>
    have branches : i.operation.branch = .conditional := by
      unfold Operation.branch
      rw [hm]
      rfl
    exact runs_branch m branches (native (by simp [sums, hm])) pointed found rest
  | jmp => exact runs_jmp m hm (native (by simp [sums, hm])) pointed found
  | jsr =>
    exact runs_jsr m hm (suits.stack (by simp [usesStack, hm])) (native (by simp [sums, hm])) pointed
      found
  | rts =>
    exact runs_rts m hm (suits.stack (by simp [usesStack, hm])) (native (by simp [sums, hm])) pointed
      found
  | brk =>
    exact runs_brk m hm (suits.stack (by simp [usesStack, hm])) (native (by simp [sums, hm])) pointed
      found
  | exit | debugBreak | crash | unknown =>
    exact runs_exit m (by rw [hm]; decide) pointed found
  | rti => exact absurd hm (ne_rti_of_translated m translated)

end Instruction

namespace Record

open Native Mos6502.Core

variable {σ : Type} {m : PagedMemory σ} {o : LoweringOptions} {k : Known} {r : Record}

def headCycles (r : Record) : Nat :=
  (r.runTotal.getD 0).toNat

/-- What the host code of the record is for, from the core that it begins on. -/
def task (m : PagedMemory σ) (o : LoweringOptions) (r : Record) (post : List Record)
    (c : Core (PagedMemory σ)) : Task σ :=
  (r.instruction m).task o post.isEmpty
    ⟨{ c.cpu with budget := c.cpu.budget - r.headCycles }, c.bus⟩

theorem Lowered.addrAfter (h : Lowered m o k r) :
    r.addrAfter = r.addr + (r.instruction m).operation.len.toUInt16 := by
  unfold Record.addrAfter
  rw [h.len]
  rfl

theorem Lowered.maxCycles_eq (h : Lowered m o k r) :
    r.maxCycles = (r.instruction m).maxCycles o :=
  h.maxCycles

theorem Lowered.branch_eq (h : Lowered m o k r) :
    r.branch = (r.instruction m).operation.branch :=
  h.branch

variable {cpu : Cpu} {mem : PagedMemory σ} {t : Task σ} {ops : List HostOp}

/-- A record that runs on is done behind its body; the last one jumps to where it runs on. -/
theorem Lowered.runs_ending (h : Lowered m o k r) {post : List Record}
    (ends : r.endsBlock = true → post = []) (final : post = [] → t.last = true)
    (next : t.next = r.addrAfter) {d : Core (PagedMemory σ)} (reached : t.Reached t.next d) :
    t.Runs ((closingUops (lower m o r.addr) r).map (HostOp.ofUop m) ++ onwardOps r post) d := by
  rw [next] at reached
  have jump : post = [] → ∀ ops, t.Runs (.uop (.jump r.addrAfter) :: ops) d :=
    fun last ops => Task.runs_jump rfl reached (.inr (final last))
  have stop : t.Runs [] d := by
    change t.Reached t.next d
    rw [next]
    exact reached
  unfold closingUops
  by_cases same : (lower m o r.addr).endsBlock = r.endsBlock
  · rw [if_pos same, List.map_nil, List.nil_append]
    unfold onwardOps
    split
    · next onward =>
      refine jump ?_ []
      cases post with
      | nil => rfl
      | cons => simp at onward
    · exact stop
  · rw [if_neg same]
    refine jump (ends ?_) _
    cases he : r.endsBlock with
    | true => rfl
    | false =>
      cases hl : (lower m o r.addr).endsBlock with
      | true => exact absurd ((h.ends hl).symm.trans he) Bool.noConfusion
      | false => exact absurd (hl.trans he.symm) same

theorem runs_lowered (a : Addr) (holds : k.Holds cpu)
    (suits : (Instruction.fetch m a).Suits cpu mem) (pages : m.pages = mem.pages) {last : Bool}
    (rest : ((Instruction.fetch m a).task o last (bare cpu mem)).GoesOn ops) :
    ((Instruction.fetch m a).task o last (bare cpu mem)).Runs
      ((lower m o a).uopList.map (HostOp.ofUop m ∘ k.rewrite) ++ ops) (bare cpu mem) := by
  rw [uopList_lower]
  generalize hi : Instruction.fetch m a = i at suits rest ⊢
  have here : i.addr = a := by rw [← hi]; rfl
  have body : ∀ {cpu : Cpu}, k.Holds cpu → i.Suits cpu mem →
      (i.task o last (bare cpu mem)).GoesOn ops →
      (i.task o last (bare cpu mem)).Runs
        ((if i.needsInterpreter m then [.interpret a] else i.bodyUops o).map
          (HostOp.ofUop m ∘ k.rewrite) ++ ops) (bare cpu mem) := by
    intro cpu holds suits rest
    cases translated : i.needsInterpreter m with
    | true =>
      have there : i.needsInterpreter mem = true := (i.needsInterpreter_congr m pages).symm.trans translated
      have bounced : (i.task o last (bare cpu mem)).bounced = true := by
        change (i.needsInterpreter mem || (i.sums && cpu.decimal)) = true
        rw [there, Bool.true_or]
      have free : (i.task o last (bare cpu mem)).early = 0 := by
        change i.early o _ = 0
        unfold Instruction.early
        rw [show i.needsInterpreter (i.task o last (bare cpu mem)).start.memory = true from there,
          Bool.not_true, Bool.and_false]
        rfl
      rw [if_pos rfl, ← here]
      refine Task.runs_bounce rfl ⟨rfl, ?_⟩ (Task.price_bounced bounced)
      rw [free]
      exact (Int.add_zero _).symm
    | false => exact i.runs_body m holds suits pages translated rest
  rw [List.map_append, List.append_assoc]
  unfold Instruction.observeUops
  cases o.debug with
  | false => exact body holds suits rest
  | true =>
    refine ⟨⟨rfl, rfl, rfl⟩, ?_⟩
    intro d goes
    cases goes with
    | unobserved => exact body holds suits rest
    -- The program counter is not part of what the instruction starts from.
    | observed =>
      have moved : k.Holds { cpu with pc := i.addr } := ⟨holds.a, holds.x, holds.y, holds.carry⟩
      exact body moved ⟨suits.stack, suits.change, suits.pointer⟩ rest

theorem Lowered.runs (h : Lowered m o k r) {post : List Record}
    (ends : r.endsBlock = true → post = []) {c : Core (PagedMemory σ)} (fits : c.bus.Fits)
    (suits : (r.instruction m).Suits c.cpu c.bus.memory) (pages : m.pages = c.bus.memory.pages)
    (holds : k.Holds c.cpu) :
    (task m o r post c).Runs (r.ops m ++ onwardOps r post) c := by
  refine Task.runs_of_strip fits ?_
  refine (h.along_ops (fun _ => trivial) _ c.strip).mpr ?_
  generalize ho : (closingUops (lower m o r.addr) r).map (HostOp.ofUop m) ++ onwardOps r post = ops
  -- The task starts behind the countdown.
  have body : (task m o r post c).Runs
      ((lower m o r.addr).uopList.map (HostOp.ofUop m ∘ k.rewrite) ++ ops)
      (bare { c.cpu with budget := c.cpu.budget - r.headCycles } c.bus.memory) := by
    have holds : k.Holds { c.cpu with budget := c.cpu.budget - r.headCycles } :=
      ⟨holds.a, holds.x, holds.y, holds.carry⟩
    refine runs_lowered r.addr holds ⟨suits.stack, suits.change, suits.pointer⟩ pages ?_
    intro d reached
    rw [← ho]
    have final : post = [] → (task m o r post c).last = true := by
      rintro rfl
      rfl
    have next : (task m o r post c).next = r.addrAfter := h.addrAfter.symm
    exact h.runs_ending ends final next reached
  cases total : r.runTotal with
  | none =>
    have free : r.headCycles = 0 := by
      unfold headCycles
      rw [total]
      rfl
    have same : c.cpu.budget - (r.headCycles : Int) = c.cpu.budget := by
      rw [free]
      exact Int.sub_zero _
    rw [same] at body
    unfold headUops
    rw [total]
    exact body
  | some total' =>
    have charged : r.headCycles = total'.toNat := by
      unfold headCycles
      rw [total]
      rfl
    rw [charged] at body
    unfold headUops
    rw [total]
    refine ⟨⟨rfl, rfl, ?_⟩, ?_⟩
    · change c.cpu.budget = c.cpu.budget - (r.headCycles : Int) + (total'.toNat : Int)
      rw [charged, Int.sub_add_cancel]
    · rintro _ ⟨⟩
      exact body

end Record

end Mos6502
