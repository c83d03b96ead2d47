import Mos6502.Proofs.Native.Main

/-! Instructions with a memory operand: those that read it, store to it or change it do natively
what they do in the interpreter. -/
namespace Mos6502.Instruction

open Interpreter Mos6502.Core

variable {σ : Type} {i : Instruction} {o : LoweringOptions} {last : Bool} {k : Record.Known}
  {cpu : Cpu} {mem m₁ : PagedMemory σ} {r : Resolved} {scratch : Addr} {budget : Int}
  {ops : List HostOp} (m : PagedMemory σ)

def ownOps (m : PagedMemory σ) (o : LoweringOptions) (k : Record.Known) (i : Instruction) :
    List HostOp :=
  (i.beforeUops ++ i.mainUops ++ i.afterUops o).map (HostOp.ofUop m ∘ k.rewrite)

theorem resolve_start (i : Instruction) (o : LoweringOptions) (last : Bool) (cpu : Cpu)
    (mem : PagedMemory σ) :
    resolve (operationOf i.opcode).mode (i.task o last (bare cpu mem)).start.cpu i.low i.high
        ((i.task o last (bare cpu mem)).start.cpu.pc + (operationOf i.opcode).len.toUInt16)
        (⟨mem⟩ : DeviceBus (PagedMemory σ))
      = i.resolved cpu mem := by
  unfold resolved
  change resolve (operationOf i.opcode).mode _ i.low i.high _ _
    = resolve (operationOf i.opcode).mode cpu i.low i.high _ _
  cases (operationOf i.opcode).mode <;> rfl

/-- What is left of the cycles charged, once the operand is found, are those that the instruction
costs. -/
theorem Pointed.accounts (pointed : i.Pointed o cpu r scratch budget)
    (straight : i.operation.mode ≠ .relative) :
    budget + (i.operation.cycles.toNat + (if o.exactTimings then indexPenalty i.operation r else 0) : Nat)
      = cpu.budget + (i.maxCycles o).toNat := by
  by_cases mode : i.operation.mode ∈ indexedModes
  · exact pointed.spent mode
  · rw [pointed.unspent mode, i.maxCycles_plain o mode straight, indexPenalty_plain r mode, ite_self]
    rfl

theorem price_native (native : (i.task o last (bare cpu mem)).bounced = false) :
    (i.task o last (bare cpu mem)).price
      = if o.exactTimings then ((i.task o last (bare cpu mem)).performed.1.1.cycles : Int)
        else i.operation.cycles.toNat := by
  have native : i.bounced (i.task o last (bare cpu mem)).start = false := native
  change i.price o _ = _
  unfold price
  rw [early_native native, native, Bool.or_false]
  split
  · exact Int.sub_zero _
  · rfl

theorem reached_at {cpu' final : Cpu} {m' : PagedMemory σ} {pc : Addr} {cycles : Nat}
    (native : (i.task o last (bare cpu mem)).bounced = false)
    (performed : (i.task o last (bare cpu mem)).performed = (done cpu' pc cycles, ⟨m'⟩))
    (same : ∀ pc, { cpu' with pc } = { final.guest with pc })
    (quiet : cpu.interruptDue = false → final.interruptDue = false)
    (budget : final.budget + (if o.exactTimings then (cycles : Int) else i.operation.cycles.toNat)
      = cpu.budget + (i.maxCycles o).toNat) :
    (i.task o last (bare cpu mem)).Reached pc (bare final m') where
  native := native
  completes := by rw [performed]; rfl
  lands := by
    rw [performed]
    exact congrArg (Machine.mk · m') (same _).symm
  quiet := quiet
  budget := by
    rw [price_native native, performed]
    exact budget

theorem reached_done {cpu' final : Cpu} {m' : PagedMemory σ} {pc : Addr}
    (native : (i.task o last (bare cpu mem)).bounced = false)
    (pointed : i.Pointed o cpu r scratch budget) (straight : i.operation.mode ≠ .relative)
    (performed : (i.task o last (bare cpu mem)).performed
      = (done cpu' pc (i.operation.cycles.toNat + indexPenalty i.operation r), ⟨m'⟩))
    (same : ∀ pc, { cpu' with pc } = { final.guest with pc }) (kept : final.budget = budget)
    (quiet : cpu.interruptDue = false → final.interruptDue = false) :
    (i.task o last (bare cpu mem)).Reached pc (bare final m') := by
  refine reached_at native performed same quiet ?_
  rw [kept, ← pointed.accounts straight]
  split <;> rfl

theorem resolved_memory (i : Instruction) (cpu : Cpu) (direct : i.operation.mode ≠ .indirect)
    (plain : i.operation.mode = .indexedIndirect ∨ i.operation.mode = .indirectIndexed →
      mem.kindAt 0 ≠ .device) :
    (i.resolved cpu mem).2 = ⟨mem⟩ := by
  have pointer : mem.kindAt 0 ≠ .device → ∀ v : UInt8,
      (Bus.fetchPointer v.toUInt16 (⟨mem⟩ : DeviceBus (PagedMemory σ))).2 = ⟨mem⟩ := by
    intro plain v
    have page : highByte (nextInPage v.toUInt16) = 0 := by
      apply Native.forall_byte (p := fun v => highByte (nextInPage v.toUInt16) = 0)
      decide +kernel
    have here : ∀ {a : Addr}, highByte a = 0 → mem.kindAt a ≠ .device := by
      intro a page
      rw [PagedMemory.kindAt_of_page (b := 0) page]
      exact plain
    have first := here (Native.highByte_toUInt16 v)
    have second := here page
    change DeviceBus.mk ((mem.deviceRead v.toUInt16).2.deviceRead (nextInPage v.toUInt16)).2 = _
    rw [PagedMemory.deviceRead_of_plain first, PagedMemory.deviceRead_of_plain second]
  unfold resolved
  cases hm : i.operation.mode with
  | indirect => exact absurd hm direct
  | indexedIndirect => exact pointer (plain (.inl hm)) (i.low + cpu.x)
  | indirectIndexed => exact pointer (plain (.inr hm)) i.low
  | _ => rfl

theorem reads_or_stores_of_pointer
    (pointer : i.operation.mode = .indexedIndirect ∨ i.operation.mode = .indirectIndexed) :
    i.operation.mnemonic ∈ readers ∨ i.operation.memUse = .write := by
  revert pointer
  change (operationOf i.opcode).mode = .indexedIndirect ∨
    (operationOf i.opcode).mode = .indirectIndexed →
      (operationOf i.opcode).mnemonic ∈ readers ∨ (operationOf i.opcode).memUse = .write
  apply Native.forall_byte (p := fun opcode => (operationOf opcode).mode = .indexedIndirect ∨
    (operationOf opcode).mode = .indirectIndexed →
      (operationOf opcode).mnemonic ∈ readers ∨ (operationOf opcode).memUse = .write)
  decide +kernel

variable (o last) in
theorem performed_reader (reads : i.operation.mnemonic ∈ readers)
    (found : i.resolved cpu mem = (r, ⟨m₁⟩)) :
    (i.task o last (bare cpu mem)).performed
      = (done (readEffect i.operation.mnemonic (i.task o last (bare cpu mem)).start.cpu
            (i.fetchOperand r.effective ⟨m₁⟩).1) (i.addr + i.operation.len.toUInt16)
          (i.operation.cycles.toNat + indexPenalty i.operation r),
        (i.fetchOperand r.effective ⟨m₁⟩).2) := by
  have start := (resolve_start i o last cpu mem).trans found
  change perform i.opcode i.low i.high _ (⟨mem⟩ : DeviceBus (PagedMemory σ)) = _
  unfold perform
  rw [bind_run start]
  change (operationOf i.opcode).mnemonic ∈ readers at reads
  change _ = (done (readEffect (operationOf i.opcode).mnemonic _ _) _ _, _)
  dsimp only
  cases hm : (operationOf i.opcode).mnemonic with
  | adc | sbc | and | ora | eor | alr | bit | cmp | cpx | cpy | lda | ldx | ldy => rfl
  | _ => simp [readers, hm] at reads

theorem mode_of_operand (opcode : UInt8)
    (uses : (operationOf opcode).memUse ≠ .none) :
    (operationOf opcode).mode = .immediate ∨ (operationOf opcode).mode ∈ Native.storeModes ∨
      (operationOf opcode).mode = .accumulator ∧ (operationOf opcode).memUse = .readWrite ∨
        (operationOf opcode).mode = .implied ∧ (operationOf opcode).mnemonic = .nop := by
  revert uses
  apply Native.forall_byte (p := fun opcode => (operationOf opcode).memUse ≠ .none →
    (operationOf opcode).mode = .immediate ∨ (operationOf opcode).mode ∈ Native.storeModes ∨
      (operationOf opcode).mode = .accumulator ∧ (operationOf opcode).memUse = .readWrite ∨
        (operationOf opcode).mode = .implied ∧ (operationOf opcode).mnemonic = .nop)
  decide +kernel

theorem mode_of_reader (reads : i.operation.mnemonic ∈ readers) :
    i.operation.mode = .immediate ∨ i.operation.mode ∈ Native.storeModes := by
  have uses : i.operation.memUse = .read ∧ i.operation.mnemonic ≠ .nop := by
    unfold Operation.memUse
    cases hm : i.operation.mnemonic <;> simp [readers, hm, Mnemonic.memUse] at reads ⊢
  have used : (operationOf i.opcode).memUse ≠ .none := by
    rw [show (operationOf i.opcode).memUse = _ from uses.1]
    exact MemUse.noConfusion
  rcases mode_of_operand i.opcode used with h | h | ⟨_, h⟩ | ⟨_, h⟩
  · exact .inl h
  · exact .inr h
  · rw [show (operationOf i.opcode).memUse = _ from uses.1] at h
    cases h
  · exact absurd h uses.2

theorem addTo_binary {c : Cpu} (binary : c.decimal = false) (v : UInt8) :
    addTo c v = { c with
      a := (Alu.add c.a v c.carry).result, carry := (Alu.add c.a v c.carry).carry
      overflow := (Alu.add c.a v c.carry).overflow }.withZN (Alu.add c.a v c.carry).result :=
  if_neg fun is => Bool.false_ne_true (binary.symm.trans is)

theorem subtractFrom_binary {c : Cpu} (binary : c.decimal = false) (v : UInt8) :
    subtractFrom c v = { c with
      a := (Alu.sub c.a v !c.carry).result, carry := !(Alu.sub c.a v !c.carry).carry
      overflow := (Alu.sub c.a v !c.carry).overflow }.withZN (Alu.sub c.a v !c.carry).result := by
  unfold subtractFrom
  dsimp only
  rw [if_neg fun is => Bool.false_ne_true (binary.symm.trans is)]

theorem compare_borrow (c : Cpu) (register v : UInt8) :
    Interpreter.compare c register v = { c with carry := !decide (register < v) }.withZN (register - v) := by
  have order : decide (v ≤ register) = !decide (register < v) := by
    rw [← decide_not]
    exact decide_eq_decide.mpr UInt8.not_lt.symm
  unfold Interpreter.compare
  rw [order]

theorem not_relative (mode : i.operation.mode = .immediate ∨ i.operation.mode ∈ Native.storeModes) :
    i.operation.mode ≠ .relative := by
  intro relative
  rw [relative] at mode
  simp [Native.storeModes] at mode

theorem fetchOperand_zero (zero : i.loadsZero = true) (ea : Addr)
    (b : DeviceBus (PagedMemory σ)) : i.fetchOperand ea b = (0, b) := by
  unfold loadsZero at zero
  simp only [Bool.and_eq_true, beq_iff_eq] at zero
  unfold fetchOperand
  rw [if_pos zero.1, zero.2]
  rfl

/-- Only a decimal sum asks the interpreter behind its addressing mode. -/
theorem native_of_sums (translated : i.needsInterpreter mem = false)
    (binary : i.sums = true → cpu.decimal = false) :
    (i.task o last (bare cpu mem)).bounced = false := by
  change (i.needsInterpreter mem || (i.sums && cpu.decimal)) = false
  rw [translated, Bool.false_or]
  cases adds : i.sums with
  | true => exact binary adds
  | false => rfl

/-- What the addressing mode has given back is the part of the charge that a decimal sum does not
cost. -/
theorem early_decimal (sums : i.sums = true) (decimal : cpu.decimal = true)
    (translated : i.needsInterpreter mem = false) (pointed : i.Pointed o cpu r scratch budget)
    (straight : i.operation.mode ≠ .relative)
    (cycles : (i.task o last (bare cpu mem)).performed.1.1.cycles
      = i.operation.cycles.toNat + indexPenalty i.operation r) :
    budget = cpu.budget + (i.task o last (bare cpu mem)).early := by
  have accounts := pointed.accounts straight
  change budget = cpu.budget + i.early o (i.task o last (bare cpu mem)).start
  unfold early
  rw [show i.needsInterpreter (i.task o last (bare cpu mem)).start.memory = false from translated,
    show (i.task o last (bare cpu mem)).start.cpu.decimal = true from decimal, sums,
    show (i.performed (i.task o last (bare cpu mem)).start).1.1.cycles = _ from cycles]
  cases timed : o.exactTimings with
  | true =>
    rw [timed, if_pos rfl] at accounts
    change budget = cpu.budget + (((i.maxCycles o).toNat : Int) - _)
    omega
  | false =>
    rw [timed, if_neg Bool.false_ne_true, i.maxCycles_untimed timed] at accounts
    change budget = cpu.budget + 0
    omega

theorem runs_decimal (sums : i.sums = true) (decimal : cpu.decimal = true)
    (translated : i.needsInterpreter mem = false) (pointed : i.Pointed o cpu r scratch budget)
    (straight : i.operation.mode ≠ .relative)
    (cycles : (i.task o last (bare cpu mem)).performed.1.1.cycles
      = i.operation.cycles.toNat + indexPenalty i.operation r) (ops : List HostOp) :
    (i.task o last (bare cpu mem)).Runs (.uop (.interpretIfDecimal i.addr) :: ops)
      (bare { cpu with scratch, budget } mem) := by
  have asks : Native.exec (.interpretIfDecimal i.addr) (bare { cpu with scratch, budget } mem)
      = (.bounce i.addr, bare { cpu with scratch, budget } mem) :=
    Prod.ext (if_pos decimal) rfl
  have bounced : (i.task o last (bare cpu mem)).bounced = true := by
    change (i.needsInterpreter mem || (i.sums && cpu.decimal)) = true
    rw [sums, decimal, Bool.and_self, Bool.or_true]
  have given := early_decimal sums decimal translated pointed straight cycles
  exact Task.runs_bounce asks ⟨rfl, given⟩ (Task.price_bounced bounced)

theorem runs_reader (reads : i.operation.mnemonic ∈ readers)
    (translated : i.needsInterpreter mem = false)
    (pointed : i.Pointed o cpu r scratch budget) (found : i.resolved cpu mem = (r, ⟨m₁⟩))
    (still : i.sums = true → cpu.decimal = true → m₁ = mem) (holds : k.Holds cpu)
    (rest : (i.task o last (bare cpu mem)).GoesOn ops) :
    (i.task o last (bare cpu mem)).Runs (i.ownOps m o k ++ ops)
      (bare { cpu with scratch, budget } m₁) := by
  have mode := mode_of_reader reads
  have straight := not_relative mode
  have performed := performed_reader o last reads found
  have main : ∀ carry : Bool, (i.operation.mnemonic = .adc → carry = cpu.carry) →
      (i.operation.mnemonic = .sbc → carry = !cpu.carry) →
      Native.execOp (HostOp.ofUop m (k.rewrite (.raw i.opcode i.operand)))
          (bare { cpu with scratch, budget, hostCarry := carry } m₁)
        = (.next, bare (Native.readEffect i.operation.mnemonic
            (i.fetchOperand r.effective ⟨m₁⟩).1 { cpu with scratch, budget, hostCarry := carry })
            (i.fetchOperand r.effective ⟨m₁⟩).2.memory) := by
    intro carry adds borrows
    have holds : k.Holds { cpu with scratch, budget, hostCarry := carry } :=
      ⟨holds.a, holds.x, holds.y, holds.carry⟩
    exact main_reader m reads holds adds borrows mode pointed.operand
  have ends : ∀ {final : Cpu} {m' : PagedMemory σ}, (i.sums = true → cpu.decimal = false) →
      (i.fetchOperand r.effective (⟨m₁⟩ : DeviceBus (PagedMemory σ))).2.memory = m' →
      (∀ pc, { readEffect i.operation.mnemonic (i.task o last (bare cpu mem)).start.cpu
        (i.fetchOperand r.effective (⟨m₁⟩ : DeviceBus (PagedMemory σ))).1 with pc }
          = { final.guest with pc }) →
      final.budget = budget → (final.irq = cpu.irq ∧ final.other = cpu.other) →
      (i.task o last (bare cpu mem)).Runs ops (bare final m') := by
    rintro final _ binary rfl same kept ⟨irq, other⟩
    have native : (i.task o last (bare cpu mem)).bounced = false := native_of_sums translated binary
    refine rest _ (reached_done native pointed straight performed same kept ?_)
    unfold Cpu.interruptDue Cpu.masked
    rw [irq, other]
    exact id
  have plain := main cpu.hostCarry
  have bounces : i.sums = true → cpu.decimal = true → ∀ ops : List HostOp,
      (i.task o last (bare cpu mem)).Runs (.uop (.interpretIfDecimal i.addr) :: ops)
        (bare { cpu with scratch, budget } m₁) := by
    intro sums decimal ops
    rw [still sums decimal]
    exact runs_decimal sums decimal translated pointed straight
      (congrArg (·.1.1.cycles) performed) ops
  have passes : cpu.decimal = false → Native.exec (.interpretIfDecimal i.addr)
      (bare { cpu with scratch, budget } m₁) = (.next, bare { cpu with scratch, budget } m₁) :=
    fun binary => Prod.ext (if_neg fun is => Bool.false_ne_true (binary.symm.trans is)) rfl
  unfold ownOps beforeUops mainUops afterUops
  cases hm : i.operation.mnemonic with
  | adc =>
    rw [hm] at main ends
    cases decimal : cpu.decimal with
    | true => exact bounces (by simp [sums, hm]) decimal _
    | false =>
      refine Task.runs_next (passes decimal) ?_
      refine Task.runs_next (d := bare { cpu with scratch, budget, hostCarry := cpu.carry } m₁) rfl ?_
      refine Task.runs_next (main cpu.carry (fun _ => rfl) (by simp)) ?_
      refine Task.runs_next rfl (Task.runs_next rfl (ends (fun _ => decimal) rfl ?_ rfl ⟨rfl, rfl⟩))
      intro pc
      exact congrArg (fun c : Cpu => { c with pc })
        (addTo_binary (c := { cpu.guest with pc := i.addr }) decimal _)
  | sbc =>
    rw [hm] at main ends
    cases decimal : cpu.decimal with
    | true => exact bounces (by simp [sums, hm]) decimal _
    | false =>
      refine Task.runs_next (passes decimal) ?_
      refine Task.runs_next (d := bare { cpu with scratch, budget, hostCarry := !cpu.carry } m₁) rfl ?_
      refine Task.runs_next (main (!cpu.carry) (by simp) (fun _ => rfl)) ?_
      refine Task.runs_next rfl (Task.runs_next rfl (ends (fun _ => decimal) rfl ?_ rfl ⟨rfl, rfl⟩))
      intro pc
      exact congrArg (fun c : Cpu => { c with pc })
        (subtractFrom_binary (c := { cpu.guest with pc := i.addr }) decimal _)
  | and | ora | eor | bit =>
    have binary : i.sums = true → cpu.decimal = false := by simp [sums, hm]
    rw [hm] at plain ends
    exact Task.runs_next (plain (by simp) (by simp)) (ends binary rfl (fun _ => rfl) rfl ⟨rfl, rfl⟩)
  | alr =>
    have binary : i.sums = true → cpu.decimal = false := by simp [sums, hm]
    rw [hm] at plain ends
    refine Task.runs_next (plain (by simp) (by simp)) (Task.runs_next rfl ?_)
    exact ends binary rfl (fun _ => rfl) rfl ⟨rfl, rfl⟩
  | cmp | cpx | cpy =>
    have binary : i.sums = true → cpu.decimal = false := by simp [sums, hm]
    rw [hm] at plain ends
    refine Task.runs_next (plain (by simp) (by simp)) (Task.runs_next rfl ?_)
    refine ends binary rfl (fun pc => ?_) rfl ⟨rfl, rfl⟩
    exact congrArg (fun c : Cpu => { c with pc }) (compare_borrow { cpu.guest with pc := i.addr } _ _)
  | lda | ldx | ldy =>
    have binary : i.sums = true → cpu.decimal = false := by simp [sums, hm]
    rw [hm] at plain ends
    cases zero : i.loadsZero with
    | true =>
      refine Task.runs_next rfl (ends binary ?_ ?_ rfl ⟨rfl, rfl⟩)
      · rw [fetchOperand_zero zero]
      · intro pc
        rw [fetchOperand_zero zero]
        generalize (0 : UInt8) = v
        rfl
    | false =>
      refine Task.runs_next (plain (by simp) (by simp)) (Task.runs_next rfl ?_)
      exact ends binary rfl (fun _ => rfl) rfl ⟨rfl, rfl⟩
  | _ => simp [readers, hm] at reads

theorem mode_of_nop (idle : i.operation.mnemonic = .nop) :
    i.operation.memUse = .read ∧ (i.operation.mode = .immediate ∨ i.operation.mode = .implied ∨
      i.operation.mode ∈ Native.storeModes) := by
  have uses : i.operation.memUse = .read := by
    unfold Operation.memUse
    rw [idle]
    rfl
  have used : (operationOf i.opcode).memUse ≠ .none := by
    rw [show (operationOf i.opcode).memUse = _ from uses]
    exact MemUse.noConfusion
  refine ⟨uses, ?_⟩
  rcases mode_of_operand i.opcode used with h | h | ⟨_, h⟩ | ⟨h, _⟩
  · exact .inl h
  · exact .inr (.inr h)
  · rw [show (operationOf i.opcode).memUse = _ from uses] at h
    cases h
  · exact .inr (.inl h)

variable (o last) in
theorem performed_nop (idle : i.operation.mnemonic = .nop)
    (found : i.resolved cpu mem = (r, ⟨mem⟩)) :
    (i.task o last (bare cpu mem)).performed
      = (done (i.task o last (bare cpu mem)).start.cpu (i.addr + i.operation.len.toUInt16)
          (i.operation.cycles.toNat + indexPenalty i.operation r),
        ⟨if i.operation.mode ≠ .implied ∧ i.operation.mode ≠ .immediate then
          (mem.deviceRead r.effective).2 else mem⟩) := by
  have start := (resolve_start i o last cpu mem).trans found
  change perform i.opcode i.low i.high _ (⟨mem⟩ : DeviceBus (PagedMemory σ)) = _
  unfold perform
  rw [bind_run start, operationOf_opcode, idle]
  dsimp only
  by_cases reads : i.operation.mode ≠ .implied ∧ i.operation.mode ≠ .immediate
  · rw [if_pos reads, if_pos reads, if_neg reads.2]
    rfl
  · rw [if_neg reads, if_neg reads]
    rfl

variable (mem) in
theorem main_nop (idle : i.operation.mnemonic = .nop) {ea : Addr}
    (there : i.operation.mode ∈ Native.storeModes →
      Native.operandAddr i.operation.mode i.operand cpu = ea) :
    Native.execOp (HostOp.ofUop m (k.rewrite (.raw i.opcode i.operand))) (bare cpu mem)
      = (.next, bare cpu
        (if i.operation.mode ≠ .implied ∧ i.operation.mode ≠ .immediate then
          (mem.deviceRead ea).2 else mem)) := by
  obtain ⟨uses, mode⟩ := mode_of_nop idle
  have other : (operationOf i.opcode).mnemonic ∉ [.adc, .sbc, .sta, .stx, .sty] := by
    rw [operationOf_opcode, idle]
    decide
  have plain : (operationOf i.opcode).memUse ≠ .readWrite := by
    rw [operationOf_opcode, uses]
    exact MemUse.noConfusion
  rw [rewrite_other k other, ofUop_raw m i.operand plain]
  change Native.raw i.opcode (storedOperand i.opcode i.operand) false _ = _
  unfold Native.raw
  rw [operationOf_opcode, idle]
  dsimp only
  by_cases reads : i.operation.mode ≠ .implied ∧ i.operation.mode ≠ .immediate
  · have store : i.operation.mode ∈ Native.storeModes :=
      (mode.resolve_left reads.2).resolve_left reads.1
    have loaded := loadOperand_bare mem (points_stored (.inr store) there)
    unfold fetchOperand at loaded
    rw [if_neg reads.2] at loaded
    rw [if_pos reads, if_pos reads, bind_run loaded]
    rfl
  · rw [if_neg reads, if_neg reads]
    rfl

theorem runs_nop (idle : i.operation.mnemonic = .nop)
    (native : (i.task o last (bare cpu mem)).bounced = false)
    (pointed : i.Pointed o cpu r scratch budget) (found : i.resolved cpu mem = (r, ⟨mem⟩))
    (rest : (i.task o last (bare cpu mem)).GoesOn ops) :
    (i.task o last (bare cpu mem)).Runs (i.ownOps m o k ++ ops)
      (bare { cpu with scratch, budget } mem) := by
  have straight : i.operation.mode ≠ .relative := by
    intro relative
    have mode := (mode_of_nop idle).2
    rw [relative] at mode
    simp [Native.storeModes] at mode
  have there : i.operation.mode ∈ Native.storeModes → Native.operandAddr i.operation.mode i.operand
      { cpu with scratch, budget } = r.effective := pointed.operand
  have main := main_nop mem m (k := k) idle there
  have uops : i.beforeUops ++ i.mainUops ++ i.afterUops o = [.raw i.opcode i.operand] := by
    simp [beforeUops, mainUops, afterUops, idle]
  unfold ownOps
  rw [uops]
  refine Task.runs_next main (rest _ ?_)
  exact reached_done native pointed straight (performed_nop o last idle found) (fun _ => rfl) rfl id

variable (o last) in
theorem performed_store (stores : i.operation.memUse = .write)
    (found : i.resolved cpu mem = (r, ⟨m₁⟩)) :
    (i.task o last (bare cpu mem)).performed
      = (done (i.task o last (bare cpu mem)).start.cpu (i.addr + i.operation.len.toUInt16)
          (i.operation.cycles.toNat + indexPenalty i.operation r),
        ⟨m₁.deviceWrite r.effective (storedByte i.operation.mnemonic cpu)⟩) := by
  have start := (resolve_start i o last cpu mem).trans found
  change perform i.opcode i.low i.high _ (⟨mem⟩ : DeviceBus (PagedMemory σ)) = _
  unfold perform
  rw [bind_run start]
  change Mnemonic.memUse (operationOf i.opcode).mnemonic = _ at stores
  change _ = (_, DeviceBus.mk (m₁.deviceWrite r.effective
    (storedByte (operationOf i.opcode).mnemonic _)))
  dsimp only
  cases hm : (operationOf i.opcode).mnemonic with
  | sta | stx | sty | sax => rfl
  | _ => rw [hm] at stores; cases stores

theorem runs_store (stores : i.operation.memUse = .write)
    (native : (i.task o last (bare cpu mem)).bounced = false)
    (pointed : i.Pointed o cpu r scratch budget) (found : i.resolved cpu mem = (r, ⟨m₁⟩))
    (holds : k.Holds cpu)
    (rest : (i.task o last (bare cpu mem)).GoesOn ops) :
    (i.task o last (bare cpu mem)).Runs (i.ownOps m o k ++ ops)
      (bare { cpu with scratch, budget } m₁) := by
  have mode : i.operation.mode ∈ Native.storeModes := by
    have write : (operationOf i.opcode).memUse = .write := stores
    exact Native.storeModes_of_writes (by rw [write]; rfl) (Native.memory_of_write write)
  have straight := not_relative (.inr mode)
  have holds : k.Holds { cpu with scratch, budget } := ⟨holds.a, holds.x, holds.y, holds.carry⟩
  have main := main_store m₁ m stores holds mode (pointed.operand mode)
  have performed := performed_store o last stores found
  have uops : i.beforeUops ++ i.mainUops ++ i.afterUops o = [.raw i.opcode i.operand] := by
    unfold Operation.memUse at stores
    unfold beforeUops mainUops afterUops
    cases hm : i.operation.mnemonic with
    | sta | stx | sty | sax => rfl
    | _ => rw [hm] at stores; cases stores
  unfold ownOps
  rw [uops]
  refine Task.runs_next main (rest _ ?_)
  refine reached_done native pointed straight ?_ (fun _ => rfl) rfl id
  rw [performed]
  unfold storedByte
  rfl

theorem mnemonic_of_modifies (modifies : i.operation.memUse = .readWrite) :
    i.operation.mnemonic ∈ [.asl, .lsr, .rol, .ror, .slo, .inc, .dec] := by
  unfold Operation.memUse at modifies
  cases hm : i.operation.mnemonic with
  | asl | lsr | rol | ror | slo | inc | dec => decide
  | _ => rw [hm] at modifies; cases modifies

variable (o last) in
theorem performed_accumulator (accumulator : i.operation.mode = .accumulator)
    (found : i.resolved cpu mem = (r, ⟨mem⟩)) :
    (i.task o last (bare cpu mem)).performed
      = (done { (modify i.operation.mnemonic (i.task o last (bare cpu mem)).start.cpu cpu.a).2 with
            a := (modify i.operation.mnemonic (i.task o last (bare cpu mem)).start.cpu cpu.a).1 }
          (i.addr + i.operation.len.toUInt16)
          (i.operation.cycles.toNat + indexPenalty i.operation r), ⟨mem⟩) := by
  have start := (resolve_start i o last cpu mem).trans found
  have named : i.operation.mnemonic ∈ _ := Native.mnemonic_of_accumulator accumulator
  change perform i.opcode i.low i.high _ (⟨mem⟩ : DeviceBus (PagedMemory σ)) = _
  unfold perform
  rw [bind_run start, operationOf_opcode]
  cases hm : i.operation.mnemonic with
  | asl | lsr | rol | ror =>
    dsimp only
    rw [if_pos accumulator]
    rfl
  | _ => simp [hm] at named

variable (mem) in
theorem main_accumulator (accumulator : i.operation.mode = .accumulator) (c : Cpu) :
    Native.execOp (HostOp.ofUop m (k.rewrite (.raw i.opcode i.operand))) (bare c mem)
      = (.next, bare { (Native.modify i.operation.mnemonic c.a c).2 with
          a := (Native.modify i.operation.mnemonic c.a c).1 } mem) := by
  have named : i.operation.mnemonic ∈ _ := Native.mnemonic_of_accumulator accumulator
  have raw : ∀ (v : UInt16) (checked : Bool), Native.raw i.opcode v checked (bare c mem)
      = (.next, bare { (Native.modify i.operation.mnemonic c.a c).2 with
          a := (Native.modify i.operation.mnemonic c.a c).1 } mem) := by
    intro v checked
    unfold Native.raw
    rw [operationOf_opcode]
    cases hm : i.operation.mnemonic with
    | asl | lsr | rol | ror =>
      dsimp only
      rw [if_pos accumulator]
      rfl
    | _ => simp [hm] at named
  have other : (operationOf i.opcode).mnemonic ∉ [.adc, .sbc, .sta, .stx, .sty] := by
    rw [operationOf_opcode]
    cases hm : i.operation.mnemonic with
    | asl | lsr | rol | ror => decide
    | _ => simp [hm] at named
  rw [rewrite_other k other]
  unfold HostOp.ofUop
  dsimp only
  split
  · exact raw _ true
  · exact raw _ false

theorem runs_accumulator (accumulator : i.operation.mode = .accumulator)
    (native : (i.task o last (bare cpu mem)).bounced = false)
    (pointed : i.Pointed o cpu r scratch budget) (found : i.resolved cpu mem = (r, ⟨mem⟩))
    (rest : (i.task o last (bare cpu mem)).GoesOn ops) :
    (i.task o last (bare cpu mem)).Runs (i.ownOps m o k ++ ops)
      (bare { cpu with scratch, budget } mem) := by
  have straight : i.operation.mode ≠ .relative := by rw [accumulator]; exact AddrMode.noConfusion
  have named : i.operation.mnemonic ∈ _ := Native.mnemonic_of_accumulator accumulator
  have performed := performed_accumulator o last accumulator found
  have main := main_accumulator mem m (k := k) accumulator
  unfold ownOps beforeUops mainUops afterUops
  cases hm : i.operation.mnemonic with
  | asl | lsr =>
    rw [hm] at performed main
    refine Task.runs_next (main _) (Task.runs_next rfl ?_)
    exact rest _ (reached_done native pointed straight performed (fun _ => rfl) rfl id)
  | rol | ror =>
    rw [hm] at performed main
    rw [if_pos accumulator]
    refine Task.runs_next rfl (Task.runs_next (main _) ?_)
    refine Task.runs_next rfl (Task.runs_next rfl ?_)
    exact rest _ (reached_done native pointed straight performed (fun _ => rfl) rfl id)
  | _ => simp [hm] at named

/-- What a change in place makes of the processor; one mnemonic goes on to the accumulator. -/
def changed (mnemonic : Mnemonic) (c : Cpu) (v : UInt8) : Cpu :=
  let done := modify mnemonic c v
  if mnemonic = .slo then loadA done.2 (done.2.a ||| done.1) else done.2

theorem changed_of_ne {mnemonic : Mnemonic} (other : mnemonic ≠ .slo) (c : Cpu) (v : UInt8) :
    changed mnemonic c v = (modify mnemonic c v).2 :=
  if_neg other

theorem modified_of_ne (op : Operation) (other : op.mnemonic ≠ .slo) (c : Cpu) (v : UInt8) :
    Native.modified op v c = (Native.modify op.mnemonic v c).2 :=
  if_neg other

variable (o last) in
theorem performed_modify (modifies : i.operation.memUse = .readWrite)
    (memory : i.operation.mode ≠ .accumulator) (found : i.resolved cpu mem = (r, ⟨mem⟩))
    {v : UInt8} {m₁ : PagedMemory σ} (read : mem.deviceRead r.effective = (v, m₁)) :
    (i.task o last (bare cpu mem)).performed
      = (done (changed i.operation.mnemonic (i.task o last (bare cpu mem)).start.cpu v)
          (i.addr + i.operation.len.toUInt16)
          (i.operation.cycles.toNat + indexPenalty i.operation r),
        ⟨(m₁.deviceWrite r.effective v).deviceWrite r.effective
          (modify i.operation.mnemonic (i.task o last (bare cpu mem)).start.cpu v).1⟩) := by
  have start := (resolve_start i o last cpu mem).trans found
  have named := mnemonic_of_modifies modifies
  have fetched : (Bus.fetch r.effective : StateM (DeviceBus (PagedMemory σ)) UInt8) ⟨mem⟩
      = (v, ⟨m₁⟩) := by
    change ((mem.deviceRead r.effective).1, DeviceBus.mk (mem.deviceRead r.effective).2) = _
    rw [read]
  change perform i.opcode i.low i.high _ (⟨mem⟩ : DeviceBus (PagedMemory σ)) = _
  unfold perform changed
  rw [bind_run start, operationOf_opcode]
  simp only [List.mem_cons, List.not_mem_nil, or_false] at named
  rcases named with hm | hm | hm | hm | hm | hm | hm <;>
  · rw [hm]
    dsimp only
    rw [if_neg memory, bind_run fetched]
    generalize modify _ (i.task o last (bare cpu mem)).start.cpu v = result
    rfl

theorem Pointed.zeroPageX {b : DeviceBus (PagedMemory σ)} (pointed : i.Pointed o cpu r scratch budget)
    (found : i.resolved cpu mem = (r, b)) (indexed : i.operation.mode = .zeroPageX) :
    highByte scratch = 0 := by
  have there := pointed.operand (by rw [indexed]; decide)
  rw [indexed] at there
  change scratch = r.effective at there
  have effective : (i.resolved cpu mem).1.effective = (i.low + cpu.x).toUInt16 := by
    unfold resolved
    rw [indexed]
    rfl
  rw [found] at effective
  rw [there, effective]
  exact Native.highByte_toUInt16 _

theorem runs_modify (modifies : i.operation.memUse = .readWrite)
    (memory : i.operation.mode ≠ .accumulator) (pages : m.pages = mem.pages)
    (first : i.changesPageZero = true → mem.kindAt 0 ≠ .device)
    (native : (i.task o last (bare cpu mem)).bounced = false)
    (pointed : i.Pointed o cpu r scratch budget) (found : i.resolved cpu mem = (r, ⟨mem⟩))
    (rest : (i.task o last (bare cpu mem)).GoesOn ops) :
    (i.task o last (bare cpu mem)).Runs (i.ownOps m o k ++ ops)
      (bare { cpu with scratch, budget } mem) := by
  have named := mnemonic_of_modifies modifies
  have mode := mode_of_modifies modifies memory
  have straight := not_relative (.inr mode)
  obtain ⟨v, m₁, read⟩ : ∃ v m₁, mem.deviceRead r.effective = (v, m₁) := ⟨_, _, rfl⟩
  have performed := performed_modify o last modifies memory found read
  have main : ∀ carry, Native.execOp (HostOp.ofUop m (k.rewrite (.raw i.opcode i.operand)))
        (bare { cpu with scratch, budget, hostCarry := carry } mem)
      = (.next, bare (Native.modified i.operation v { cpu with scratch, budget, hostCarry := carry })
          ((m₁.deviceWrite r.effective v).deviceWrite r.effective
            (Native.modify i.operation.mnemonic v
              { cpu with scratch, budget, hostCarry := carry }).1)) := by
    intro carry
    generalize hc : { cpu with scratch, budget, hostCarry := carry } = c
    have there : Native.operandAddr i.operation.mode i.operand c = r.effective := by
      rw [← hc]
      exact pointed.operand mode
    have zero : i.operation.mode = .zeroPageX → highByte c.scratch = 0 := by
      rw [← hc]
      exact pointed.zeroPageX found
    have done := main_modify m (k := k) modifies memory pages first zero there
    rw [read] at done
    exact done
  unfold ownOps beforeUops mainUops afterUops
  cases hm : i.operation.mnemonic with
  | asl | lsr =>
    rw [changed_of_ne (by rw [hm]; decide), hm] at performed
    simp only [modified_of_ne i.operation (by rw [hm]; decide), hm] at main
    refine Task.runs_next (main _) (Task.runs_next rfl ?_)
    exact rest _ (reached_done native pointed straight performed (fun _ => rfl) rfl id)
  | rol | ror =>
    rw [changed_of_ne (by rw [hm]; decide), hm] at performed
    simp only [modified_of_ne i.operation (by rw [hm]; decide), hm] at main
    rw [if_neg memory]
    refine Task.runs_next rfl (Task.runs_next (main _) (Task.runs_next rfl ?_))
    exact rest _ (reached_done native pointed straight performed (fun _ => rfl) rfl id)
  | slo =>
    unfold changed at performed
    unfold Native.modified at main
    rw [hm, if_pos rfl] at performed
    simp only [hm] at main
    refine Task.runs_next (main _) (Task.runs_next rfl ?_)
    exact rest _ (reached_done native pointed straight performed (fun _ => rfl) rfl id)
  | inc | dec =>
    rw [changed_of_ne (by rw [hm]; decide), hm] at performed
    simp only [modified_of_ne i.operation (by rw [hm]; decide), hm] at main
    refine Task.runs_next (main _) ?_
    exact rest _ (reached_done native pointed straight performed (fun _ => rfl) rfl id)
  | _ => simp [hm] at named

end Mos6502.Instruction
