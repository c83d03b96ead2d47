import Mos6502.Proofs.Machine.Price
import Mos6502.Proofs.Native.Known
import Mos6502.Proofs.Native.Ops
import Mos6502.Proofs.Native.Refunds

/-! A lowered instruction by itself. Its micro-operations, executed in order on any processor and any
memory, do what one step of the interpreter does. -/
namespace Mos6502

def Outcome.staysInside : Outcome → Bool
  | .next | .stale _ | .observe _ => true
  | _ => false

namespace Native

section Exec

variable {M : Type} [GuestMemory M]

/-- The micro-operations in order, up to the one that ends the instruction. -/
def execAll [PlainLoad M] : List Uop → Exec M Outcome
  | [] => return .next
  | u :: us => do
    let outcome ← exec u
    if outcome.staysInside then execAll us else return outcome

theorem execAll_inside {u : Uop} {us : List Uop} {c : Core M}
    (inside : (exec u c).1.staysInside = true) :
    execAll (u :: us) c = execAll us (exec u c).2 := by
  obtain ⟨⟨out, d⟩, done⟩ : ∃ p, exec u c = p := ⟨_, rfl⟩
  rw [done] at inside ⊢
  rw [execAll, bind_run done, if_pos inside]

theorem execAll_ends {u : Uop} {us : List Uop} {c : Core M}
    (ends : (exec u c).1.staysInside = false) : execAll (u :: us) c = exec u c := by
  obtain ⟨⟨out, d⟩, done⟩ : ∃ p, exec u c = p := ⟨_, rfl⟩
  rw [done] at ends ⊢
  rw [execAll, bind_run done, if_neg (by rw [ends]; exact Bool.false_ne_true)]
  rfl

omit [GuestMemory M] in
theorem continues_inside {out : Outcome} (inside : out.staysInside = true) (c : Core M) :
    Continues out c c := by
  cases out with
  | next => exact .next c
  | stale pc => exact .stale pc c
  | observe a => exact .unobserved a c
  | _ => cases inside

/-- The list is executed to its end, or up to a micro-operation that ends it. -/
theorem Along.execAll {S : Core M → Outcome → Core M → Prop} {Q : Core M → Prop} {us : List Uop}
    {c : Core M} (h : Along S Q (us.map .uop) c) :
    (execAll us c).1 = .next ∧ Q (execAll us c).2 ∨
      (execAll us c).1.staysInside = false ∧ ∃ u ∈ us, ∃ d, exec u d = execAll us c ∧
        S d (execAll us c).1 (execAll us c).2 := by
  induction us generalizing c with
  | nil => exact .inl ⟨rfl, h⟩
  | cons u us ih =>
    obtain ⟨here, rest⟩ := h
    change S c (exec u c).1 (exec u c).2 at here
    cases inside : (exec u c).1.staysInside with
    | true =>
      rw [execAll_inside inside]
      rcases ih (rest _ (continues_inside inside _)) with done | ⟨ends, v, mem, d, left⟩
      · exact .inl done
      · exact .inr ⟨ends, v, .tail _ mem, d, left⟩
    | false =>
      rw [execAll_ends inside]
      exact .inr ⟨inside, u, .head _, c, rfl, here⟩

theorem execAll_leaves {us : List Uop} {u : Uop}
    (leaves : ∀ c : Core M, (exec u c).1.staysInside = false) (c : Core M) :
    (execAll (us ++ [u]) c).1.staysInside = false := by
  induction us generalizing c with
  | nil =>
    rw [List.nil_append, execAll_ends (leaves c)]
    exact leaves c
  | cons v us ih =>
    rw [List.cons_append]
    cases inside : (exec v c).1.staysInside with
    | true =>
      rw [execAll_inside inside]
      exact ih _
    | false =>
      rw [execAll_ends inside]
      exact inside

end Exec

end Native

namespace Instruction

open Native

variable {M : Type} [GuestMemory M] {i : Instruction} {o : LoweringOptions}

/-- Where an opcode reads or writes, it says so by its mode; else its operand has two bytes. -/
theorem modes_of_raw (opcode : UInt8) :
    ((operationOf opcode).mnemonic ∈ readers →
      (operationOf opcode).mode = .immediate ∨ (operationOf opcode).mode ∈ storeModes) ∧
    ((operationOf opcode).mnemonic = .nop → (operationOf opcode).mode ≠ .implied →
      (operationOf opcode).mode = .immediate ∨ (operationOf opcode).mode ∈ storeModes) ∧
    ((operationOf opcode).branch = .conditional ∨ stopsRun opcode = true →
      operandWidth opcode = 2) := by
  apply forall_byte (p := fun opcode => ((operationOf opcode).mnemonic ∈ readers →
      (operationOf opcode).mode = .immediate ∨ (operationOf opcode).mode ∈ storeModes) ∧
    ((operationOf opcode).mnemonic = .nop → (operationOf opcode).mode ≠ .implied →
      (operationOf opcode).mode = .immediate ∨ (operationOf opcode).mode ∈ storeModes) ∧
    ((operationOf opcode).branch = .conditional ∨ stopsRun opcode = true →
      operandWidth opcode = 2))
  decide +kernel

theorem raw_stored (i : Instruction) :
    (raw i.opcode (storedOperand i.opcode i.operand) false : Exec M Outcome)
      = raw i.opcode i.operand false := by
  obtain ⟨reads, skips, wide⟩ := modes_of_raw i.opcode
  have writes := mode_of_writes i.opcode
  have addr : (operationOf i.opcode).mode ∈ storeModes → operandAddr (operationOf i.opcode).mode
      (storedOperand i.opcode i.operand) = operandAddr (operationOf i.opcode).mode i.operand :=
    fun mode => funext (operandAddr_stored i mode)
  have loads : (operationOf i.opcode).mode = .immediate ∨ (operationOf i.opcode).mode ∈ storeModes →
      (loadOperand (operationOf i.opcode).mode (storedOperand i.opcode i.operand) : Exec M UInt8)
        = loadOperand (operationOf i.opcode).mode i.operand := by
    intro mode
    unfold loadOperand
    split
    · next immediate =>
      have points : i.Points (storedOperand i.opcode i.operand) .powerOn
          (operandAddr .immediate i.operand .powerOn) :=
        points_stored (.inl immediate) fun _ =>
          congrArg (fun mode => operandAddr mode i.operand .powerOn) immediate
      rw [points.value immediate, Record.toUInt8_operand immediate]
    · next memory => rw [addr (mode.resolve_left memory)]
  have whole : (operationOf i.opcode).branch = .conditional ∨ stopsRun i.opcode = true →
      storedOperand i.opcode i.operand = i.operand := by
    intro both
    simp [storedOperand, wide both]
  unfold stopsRun Operation.branch at whole
  unfold Operation.memUse at writes
  unfold raw modifyOperand
  dsimp only
  generalize operationOf i.opcode = op at *
  cases hm : op.mnemonic with
  | adc | sbc | and | ora | eor | alr | bit | cmp | cpx | cpy | lda | ldx | ldy =>
    rw [loads (reads (by rw [hm]; decide))]
  | nop =>
    dsimp only
    split
    · next reads => rw [loads (skips hm reads.1)]
    · rfl
  | sta | stx | sty | sax =>
    have stores := (writes (by rw [hm]; rfl)).resolve_right fun modifies => by
      rw [hm] at modifies
      cases modifies.2
    rw [addr stores]
  | asl | lsr | rol | ror | slo | inc | dec =>
    dsimp only
    split
    · rfl
    · next memory =>
      rw [addr ((writes (by rw [hm]; rfl)).resolve_right fun modifies => memory modifies.1)]
  | bcc | bcs | beq | bne | bmi | bpl | bvc | bvs | exit | debugBreak | crash =>
    rw [whole (by rw [hm]; decide)]
  | _ => rfl

theorem bodyUops_leaves (always : i.operation.branch = .always) (other : i.operation.mnemonic ≠ .rti) :
    ∃ us u, i.bodyUops o = us ++ [u] ∧ ∀ c : Core M, (exec u c).1.staysInside = false := by
  have main : i.afterUops o = [] ∧ ∃ us u, i.mainUops = us ++ [u] ∧
      ∀ c : Core M, (exec u c).1.staysInside = false := by
    unfold mainUops afterUops
    unfold Operation.branch at always
    cases hm : i.operation.mnemonic with
    | brk => exact ⟨rfl, [_, _, _, _], .jumpScratch, rfl, fun _ => rfl⟩
    | jmp =>
      refine ⟨rfl, [], ?_⟩
      dsimp only
      split <;> exact ⟨_, rfl, fun _ => rfl⟩
    | jsr | rts | unknown => exact ⟨rfl, [], _, rfl, fun _ => rfl⟩
    | rti => exact absurd hm other
    | exit | debugBreak | crash =>
      refine ⟨rfl, [], _, rfl, fun c => ?_⟩
      change (raw i.opcode i.operand false c).1.staysInside = false
      have named : (operationOf i.opcode).mnemonic = _ := hm
      unfold raw
      rw [named]
      rfl
    | _ => rw [hm] at always; cases always
  obtain ⟨after, us, u, main, leaves⟩ := main
  refine ⟨i.modeUops o ++ i.retireUops o ++ i.beforeUops ++ us, u, ?_, leaves⟩
  unfold bodyUops
  rw [after, main, List.append_nil, List.append_assoc _ us]

open Mos6502.Core

variable {σ : Type} {m mem : PagedMemory σ}

theorem plain_of_translated (translated : i.needsInterpreter m = false)
    (mode : i.operation.mode = .absolute ∨ i.operation.mode = .absoluteX)
    (modifies : i.operation.memUse = .readWrite) (cpu : Cpu) :
    m.kindAt (operandAddr i.operation.mode i.operand cpu) ≠ .device := by
  have ends : m.kindAt i.operand ≠ .device ∧ m.kindAt i.rangeEnd ≠ .device := by
    have range : i.rangeNeedsInterpreter m = false := by
      unfold needsInterpreter at translated
      rcases mode with mode | mode <;> rw [mode] at translated <;> exact translated
    unfold rangeNeedsInterpreter at range
    rw [modifies] at range
    change (_ || (true && ((m.kindAt i.operand == .device) || (m.kindAt i.rangeEnd == .device))) || _)
      = false at range
    simp only [Bool.or_eq_false_iff, Bool.true_and, beq_eq_false_iff_ne] at range
    exact range.1.2
  unfold rangeEnd at ends
  rcases mode with mode | mode
  · rw [mode]
    exact ends.1
  · rw [mode] at ends ⊢
    rw [if_neg AddrMode.noConfusion] at ends
    change m.kindAt (i.operand + cpu.x.toUInt16) ≠ _
    rcases PagedMemory.highByte_indexed i.operand cpu.x with page | page
    · rw [PagedMemory.kindAt_of_page page]
      exact ends.1
    · rw [PagedMemory.kindAt_of_page page]
      exact ends.2

theorem execOp_raw (translated : i.needsInterpreter m = false) (pages : mem.pages = m.pages)
    (cpu : Cpu) :
    execOp (HostOp.ofUop m (.raw i.opcode i.operand)) (bare cpu mem)
      = exec (.raw i.opcode i.operand) (bare cpu mem) := by
  unfold HostOp.ofUop
  dsimp only
  cases checks : HostOp.needsCheck m i.opcode i.operand with
  | false => exact congrFun i.raw_stored (bare cpu mem)
  | true =>
    have modifies : i.operation.memUse = .readWrite ∧
        (i.operation.mode = .absolute ∨ i.operation.mode = .absoluteX) := by
      unfold HostOp.needsCheck at checks
      dsimp only at checks
      rw [operationOf_opcode, Bool.and_eq_true, beq_iff_eq] at checks
      refine ⟨checks.1, ?_⟩
      cases mode : i.operation.mode <;> rw [mode] at checks <;> simp at checks ⊢
    obtain ⟨modifies, mode⟩ := modifies
    have memory : i.operation.mode ≠ .accumulator := by
      rcases mode with mode | mode <;> rw [mode] <;> exact AddrMode.noConfusion
    have store : i.operation.mode ∈ storeModes := by
      rcases mode with mode | mode <;> rw [mode] <;> decide
    have plain := plain_of_translated translated mode modifies cpu
    rw [← PagedMemory.kindAt_congr pages] at plain
    have stored := raw_modify mem modifies memory (operandAddr_stored i store cpu) true
    have straight := raw_modify mem modifies memory
      (Eq.refl (operandAddr i.operation.mode i.operand cpu)) false
    refine stored.trans (Eq.trans ?_ straight.symm)
    rw [PagedMemory.deviceRead_of_plain plain]
    simp only [if_true, Bool.false_eq_true, if_false, PagedMemory.deviceWrite_same plain]

theorem execOp_uopList {o : LoweringOptions} {a : Addr} {u : Uop}
    (translated : (Instruction.fetch m a).needsInterpreter m = false)
    (among : u ∈ (lower m o a).uopList) (pages : mem.pages = m.pages) (cpu : Cpu) :
    execOp (HostOp.ofUop m u) (bare cpu mem) = exec u (bare cpu mem) := by
  have around := (Instruction.fetch m a).auxiliary_around o (u := u)
  have auxiliary : u.isAuxiliary = true →
      execOp (HostOp.ofUop m u) (bare cpu mem) = exec u (bare cpu mem) := by
    intro other
    cases u with
    | raw => cases other
    | _ => rfl
  rw [Record.uopList_lower, translated] at among
  simp only [bodyUops, Bool.false_eq_true, if_false, List.mem_append] at among
  rcases among with among | (((among | among) | among) | among) | among
  · exact auxiliary (around (.inl among))
  · exact auxiliary (around (.inr (.inl among)))
  · exact auxiliary (around (.inr (.inr (.inl among))))
  · exact auxiliary (around (.inr (.inr (.inr (.inl among)))))
  · have main := execOp_raw translated pages cpu
    cases inMain_of_mem among with
    | raw => exact main
    | _ => rfl
  · exact auxiliary (around (.inr (.inr (.inr (.inr among)))))

end Instruction

namespace Task

open Native Mos6502.Core

variable {σ : Type} {m : PagedMemory σ} {t : Task σ}

/-- Host code and micro-operations execute the same task. -/
theorem runs_uops {us : List Uop} {cpu : Cpu} {mem : PagedMemory σ} (pages : mem.pages = m.pages)
    (same : ∀ u ∈ us, ∀ cpu (mem : PagedMemory σ), mem.pages = m.pages →
      execOp (HostOp.ofUop m u) (bare cpu mem) = exec u (bare cpu mem))
    (h : t.Runs (us.map (HostOp.ofUop m)) (bare cpu mem)) :
    t.Runs (us.map .uop) (bare cpu mem) := by
  induction us generalizing cpu mem with
  | nil => exact h
  | cons u us ih =>
    rw [List.forall_mem_cons] at same
    have first := same.1 cpu mem pages
    obtain ⟨here, rest⟩ := h
    rw [first] at here rest
    refine ⟨here, fun d goes => ?_⟩
    change Continues (exec u (bare cpu mem)).1 (exec u (bare cpu mem)).2 d at goes
    -- A bare core stays one.
    have strips := (execOp_strip (.uop u)
      (c := ⟨cpu, ⟨mem, .empty, GuestMemory.deviceFrom mem⟩⟩) rfl).2
    have kept : (exec u (bare cpu mem)).2.bus.memory.pages = mem.pages :=
      (framed_exec u (bare cpu mem)).pages
    have bus : d.bus = (bare d.cpu d.bus.memory).bus := by
      have after : (exec u (bare cpu mem)).2 = Core.strip _ := congrArg Prod.snd strips
      rw [goes.bus, after]
      rfl
    have is : d = bare d.cpu d.bus.memory := congrArg (Core.mk d.cpu) bus
    have pages' : d.bus.memory.pages = m.pages := by
      rw [goes.bus]
      exact kept.trans pages
    rw [is]
    rw [is] at goes
    exact ih pages' same.2 (rest _ goes)

end Task

/-- The interpreter has completed the instruction, too. It is at `pc`, with the same processor as far
as the program sees it and the same memory, and took the cycles that were not given back. -/
structure Completes {σ : Type} (o : LoweringOptions) (r : Record) (start : Cpu)
    (done : (Step × Cpu) × DeviceBus (PagedMemory σ)) (pc : Addr) (d : Core (PagedMemory σ)) :
    Prop where
  completes : done.1.1.exit = none
  guest : { d.cpu.guest with pc } = done.1.2.guest
  memory : d.bus.memory = done.2.memory
  cycles : o.exactTimings = true →
    (r.maxCycles.toNat : Int) - (d.cpu.budget - start.budget) = done.1.1.cycles

/-- The micro-operations of the record end as the interpreter does with `done`, both from the
processor `start` and the memory `m`. -/
inductive Simulates {σ : Type} (o : LoweringOptions) (r : Record) (start : Cpu) (m : PagedMemory σ)
    (done : (Step × Cpu) × DeviceBus (PagedMemory σ)) : Outcome → Core (PagedMemory σ) → Prop
  | falls {d : Core (PagedMemory σ)} (onward : r.endsBlock = false)
    (completes : Completes o r start done r.addrAfter d) : Simulates o r start m done .next d
  | jumps {pc : Addr} {d : Core (PagedMemory σ)} (completes : Completes o r start done pc d) :
    Simulates o r start m done (.jump pc) d
  | stops {why : Stop} {d : Core (PagedMemory σ)} (exit : done.1.1.exit = some why)
    (guest : { d.cpu.guest with pc := r.addr } = { start.guest with pc := r.addr })
    (memory : d.bus.memory = m) (left : done.1.2 = { start with pc := r.addr })
    (kept : done.2.memory = m) : Simulates o r start m done (.leave r.addr why) d

namespace Native

open Mos6502.Core

variable {σ : Type} {m : PagedMemory σ} {pc : Addr} {cpu : Cpu} {o : LoweringOptions}

theorem endsBlock_of_next (translated : (Instruction.fetch m pc).needsInterpreter m = false)
    {c : Core (PagedMemory σ)} (falls : (execAll (lower m o pc).uopList c).1 = .next) :
    (lower m o pc).endsBlock = false := by
  change ((Instruction.fetch m pc).needsInterpreter m
    || (Instruction.fetch m pc).operation.branch == .always) = false
  rw [translated, Bool.false_or, beq_eq_false_iff_ne]
  intro always
  obtain ⟨us, u, body, leaves⟩ := Instruction.bodyUops_leaves (M := PagedMemory σ) (o := o) always
    (Instruction.ne_rti_of_translated m translated)
  have ends : (execAll (lower m o pc).uopList c).1.staysInside = false := by
    rw [Record.uopList_lower, translated, if_neg Bool.false_ne_true, body, ← List.append_assoc]
    exact execAll_leaves leaves c
  rw [falls] at ends
  cases ends

theorem runs_uopList (low : m.LowPlain)
    (translated : (Instruction.fetch m pc).needsInterpreter m = false) (cpu : Cpu)
    (blocks : BlockMap) :
    ((Instruction.fetch m pc).task o true (bare cpu m)).Runs ((lower m o pc).uopList.map .uop)
      ⟨cpu, ⟨m, blocks, GuestMemory.deviceFrom m⟩⟩ := by
  refine Task.runs_of_strip rfl ?_
  have host : ((Instruction.fetch m pc).task o true (bare cpu m)).Runs
      ((lower m o pc).uopList.map (HostOp.ofUop m ∘ ({} : Record.Known).rewrite) ++ []) (bare cpu m) :=
    Record.runs_lowered pc (Record.holds_unknown cpu) (Instruction.suits_of_lowPlain _ cpu low) rfl
      fun _ reached => reached
  have unknown : ({} : Record.Known).rewrite = id := funext Record.Known.rewrite_unknown
  rw [unknown, List.append_nil] at host
  exact Task.runs_uops (m := m) rfl
    (fun u among cpu mem pages => Instruction.execOp_uopList translated among pages cpu) host

/-- Only preparation looks at the decimal flag and at the interrupt line: that of a sum or a
difference, and that of what may clear the interrupt mask. -/
theorem mnemonic_of_asks {u : Uop} {a : Addr}
    (translated : ∀ a, .interpret a ∉ (lower m o pc).uopList)
    (among : u ∈ (lower m o pc).uopList) (asks : Asks u a) :
    u = .interpretIfDecimal a ∧ (Instruction.fetch m pc).operation.mnemonic ∈ [.adc, .sbc] ∨
      u = .interpretIfIrq a ∧ (Instruction.fetch m pc).operation.mnemonic ∈ [.cli, .plp] := by
  have heard : (HostOp.uop u).asks = true := by rcases asks with rfl | rfl | rfl <;> rfl
  have listed : u ∈ (Instruction.fetch m pc).beforeUops ∨ u = .interpret pc := by
    rw [Record.uopList_lower] at among
    rcases List.mem_append.mp among with shown | among
    · exact absurd heard (HostOp.silent_of_plain (Record.plain_observeUops o _)
        (List.mem_map_of_mem shown))
    · split at among
      · exact .inr (List.mem_singleton.mp among)
      · exact .inl (Instruction.mem_beforeUops_of_asks o _ among heard)
  rcases listed with listed | is
  · unfold Instruction.beforeUops at listed
    rcases asks with rfl | rfl | rfl
    · exact absurd among (translated a)
    · refine .inl ⟨rfl, ?_⟩
      cases hm : (Instruction.fetch m pc).operation.mnemonic <;> rw [hm] at listed <;>
        simp at listed ⊢
    · refine .inr ⟨rfl, ?_⟩
      cases hm : (Instruction.fetch m pc).operation.mnemonic <;> rw [hm] at listed <;>
        simp at listed ⊢
  · exact absurd (is ▸ among) (translated pc)

theorem performed_eq_step (code : (Machine.mk { cpu with pc } m).Plain) :
    ((Instruction.fetch m pc).task o true (bare cpu m)).performed
      = seen (Interpreter.step { cpu with pc } ⟨m⟩) := by
  rw [code.step_eq, ← Interpreter.perform_guest]
  rfl

theorem completes_of_reached (code : (Machine.mk { cpu with pc } m).Plain)
    (native : ((Instruction.fetch m pc).task o true (bare cpu m)).bounced = false) {a : Addr}
    {d : Core (PagedMemory σ)}
    (reached : ((Instruction.fetch m pc).task o true (bare cpu m)).Reached a d) :
    Completes o (lower m o pc) cpu (Interpreter.step { cpu with pc } ⟨m⟩) a d := by
  obtain ⟨_, exit, lands, _, budget⟩ := reached
  rw [Instruction.price_native native] at budget
  rw [performed_eq_step code] at exit lands budget
  refine ⟨exit, congrArg Machine.cpu lands, congrArg Machine.memory lands, fun timed => ?_⟩
  rw [if_pos timed] at budget
  change d.cpu.budget + (Interpreter.step { cpu with pc } (⟨m⟩ : DeviceBus _)).1.1.cycles
    = cpu.budget + (lower m o pc).maxCycles.toNat at budget
  omega

theorem needless_of_translated (translated : ∀ a, .interpret a ∉ (lower m o pc).uopList) :
    (Instruction.fetch m pc).needsInterpreter m = false := by
  cases needs : (Instruction.fetch m pc).needsInterpreter m with
  | false => rfl
  | true =>
    refine absurd ?_ (translated pc)
    rw [Record.uopList_lower, needs]
    exact List.mem_append_right _ (.head _)

theorem native_of_binary (needless : (Instruction.fetch m pc).needsInterpreter m = false)
    (binary : (operationOf (lower m o pc).opcode).mnemonic ∈ [.adc, .sbc] → cpu.decimal = false) :
    ((Instruction.fetch m pc).task o true (bare cpu m)).bounced = false := by
  refine Instruction.native_of_sums needless fun sums => binary ?_
  have named := (Instruction.fetch m pc).sums_iff.mp sums
  exact named.elim (· ▸ .head _) (· ▸ .tail _ (.head _))

/-- Whoever asks sees the decimal flag and the interrupt line as they were at the start. -/
theorem not_bounces (translated : ∀ a, .interpret a ∉ (lower m o pc).uopList)
    (binary : (operationOf (lower m o pc).opcode).mnemonic ∈ [.adc, .sbc] → cpu.decimal = false)
    (unheld : (operationOf (lower m o pc).opcode).mnemonic ∈ [.cli, .plp] → cpu.irq = false)
    {u : Uop} (among : u ∈ (lower m o pc).uopList) {a : Addr} {c d : Core (PagedMemory σ)}
    (same : (d.machine pc).cpu = { cpu.guest with pc }) : exec u c ≠ (.bounce a, d) := by
  intro here
  have framed := framed_exec u c
  rw [here] at framed
  obtain ⟨⟨_, is, asks⟩, rfl⟩ := framed.explained
  cases is
  rcases mnemonic_of_asks translated among asks with ⟨rfl, sums⟩ | ⟨rfl, clears⟩
  · have decimal : d.cpu.decimal = false :=
      (congrArg (fun c : Cpu => c.decimal) same).trans (binary sums)
    change (if d.cpu.decimal then Outcome.bounce a else .next, d) = _ at here
    rw [decimal] at here
    cases here
  · have irq : d.cpu.irq = false := (congrArg (fun c : Cpu => c.irq) same).trans (unheld clears)
    change (if d.cpu.irq then Outcome.bounce a else .next, d) = _ at here
    rw [irq] at here
    cases here

theorem stops_of_leave (code : (Machine.mk { cpu with pc } m).Plain) {why : Stop}
    {d : Core (PagedMemory σ)}
    (untouched : ((Instruction.fetch m pc).task o true (bare cpu m)).Untouched 0 d)
    (exit : ((Instruction.fetch m pc).task o true (bare cpu m)).performed.1.1.exit = some why) :
    Simulates o (lower m o pc) cpu m (Interpreter.step { cpu with pc } ⟨m⟩) (.leave pc why) d := by
  rw [performed_eq_step code] at exit
  have exit : (Interpreter.step { cpu with pc } (⟨m⟩ : DeviceBus (PagedMemory σ))).1.1.exit
    = some why := exit
  have step := exit
  rw [code.step_eq] at step
  obtain ⟨left, kept, _⟩ := Machine.perform_exit step
  rw [← code.step_eq] at left kept
  have same := untouched.lands
  have stops : Simulates o (lower m o pc) cpu m _ (.leave (lower m o pc).addr why) d :=
    .stops exit (congrArg Machine.cpu same) (congrArg Machine.memory same) left
      (congrArg DeviceBus.memory kept)
  exact stops

/-- The micro-operations that an instruction is lowered to do what one step of the interpreter does,
unless they leave it to the interpreter. -/
theorem lowering_simulates (o : LoweringOptions) (cpu : Cpu) (blocks : BlockMap) (low : m.LowPlain)
    (code : (Machine.mk { cpu with pc } m).Plain)
    (translated : ∀ a, .interpret a ∉ (lower m o pc).uopList)
    (binary : (operationOf (lower m o pc).opcode).mnemonic ∈ [.adc, .sbc] → cpu.decimal = false)
    (unheld : (operationOf (lower m o pc).opcode).mnemonic ∈ [.cli, .plp] → cpu.irq = false) :
    Simulates o (lower m o pc) cpu m (Interpreter.step { cpu with pc } ⟨m⟩)
      (execAll (lower m o pc).uopList ⟨cpu, ⟨m, blocks, GuestMemory.deviceFrom m⟩⟩).1
      (execAll (lower m o pc).uopList ⟨cpu, ⟨m, blocks, GuestMemory.deviceFrom m⟩⟩).2 := by
  have needless := needless_of_translated translated
  have native := native_of_binary needless binary
  have runs := runs_uopList (o := o) low needless cpu blocks
  generalize (⟨cpu, ⟨m, blocks, GuestMemory.deviceFrom m⟩⟩ : Core (PagedMemory σ)) = start at runs
  rcases runs.execAll with ⟨falls, reached⟩ | ⟨ends, u, among, c, here, meets⟩
  · rw [falls]
    exact .falls (endsBlock_of_next needless falls) (completes_of_reached code native reached)
  · generalize execAll (lower m o pc).uopList start = ran at ends here meets
    obtain ⟨out, d⟩ := ran
    cases out with
    | next | stale | observe => cases ends
    | illegal => exact meets.elim
    | jump => exact .jumps (completes_of_reached code native meets.1)
    | charge a n =>
      have framed := framed_exec u c
      rw [here] at framed
      have named := Record.names_lower m o pc among
      cases framed.explained.1
      exact named.elim
    | bounce a =>
      obtain ⟨_, untouched, _⟩ := meets
      have same := congrArg Machine.cpu untouched.lands
      exact absurd here (not_bounces translated binary unheld among same)
    | leave a why =>
      obtain ⟨rfl, untouched, exit⟩ := meets
      exact stops_of_leave code untouched exit

def indexing : PagedMemory Unit :=
  .load .blank 0x200 [0x7D, 0xF0, 0x12]

def indexed : Cpu :=
  { Cpu.powerOn with x := 0x10 }

/-- The sum leaves its page: it takes the five cycles that it costs at worst. -/
theorem lowering_simulates_indexing :
    (lower indexing { exactTimings := true } 0x200).uopList = [.refundX 0x12F0,
        .interpretIfDecimal 0x200, .carryIn, .raw 0x7D 0x12F0, .carryOut, .overflowOut] ∧
      (lower indexing { exactTimings := true } 0x200).maxCycles = 5 ∧
      (Interpreter.step { indexed with pc := 0x200 }
        (⟨indexing⟩ : DeviceBus (PagedMemory Unit))).1.1.cycles = 5 ∧
      Simulates { exactTimings := true } (lower indexing { exactTimings := true } 0x200) indexed
        indexing (Interpreter.step { indexed with pc := 0x200 } ⟨indexing⟩)
        (execAll (lower indexing { exactTimings := true } 0x200).uopList
          ⟨indexed, ⟨indexing, .empty, GuestMemory.deviceFrom indexing⟩⟩).1
        (execAll (lower indexing { exactTimings := true } 0x200).uopList
          ⟨indexed, ⟨indexing, .empty, GuestMemory.deviceFrom indexing⟩⟩).2 := by
  have uops : (lower indexing { exactTimings := true } 0x200).uopList = [.refundX 0x12F0,
      .interpretIfDecimal 0x200, .carryIn, .raw 0x7D 0x12F0, .carryOut, .overflowOut] := by
    decide +kernel
  have translated : ∀ a, .interpret a ∉ (lower indexing { exactTimings := true } 0x200).uopList := by
    intro a
    rw [uops]
    simp
  have low : indexing.LowPlain := PagedMemory.lowPlain_load_blank _ _
  have code : (Machine.mk { indexed with pc := 0x200 } indexing).Plain := by decide +kernel
  have binary : indexed.decimal = false := by decide +kernel
  have unheld : indexed.irq = false := rfl
  refine ⟨uops, by decide +kernel, by decide +kernel, ?_⟩
  exact lowering_simulates { exactTimings := true } indexed .empty low code translated
    (fun _ => binary) fun _ => unheld

end Native

end Mos6502
