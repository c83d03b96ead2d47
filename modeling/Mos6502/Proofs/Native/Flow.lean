import Mos6502.Proofs.Native.Ops
import Mos6502.Proofs.Native.Reads

/-! Instructions without a memory operand: registers and flags, the stack, and whatever leaves the
sequential path. -/
namespace Mos6502

namespace Native

open Mos6502.Core

variable {σ : Type} {m : PagedMemory σ}

theorem plain_stackAddr (stack : m.kindAt 0x0100 ≠ .device) (s : UInt8) :
    m.kindAt (stackAddr s) ≠ .device := by
  have page : highByte (stackAddr s) = highByte 0x0100 := by
    rw [highByte_stackAddr]
    rfl
  rw [PagedMemory.kindAt_of_page page]
  exact stack

theorem push_bare (cpu : Cpu) (stack : m.kindAt 0x0100 ≠ .device) (v : UInt8) :
    push v (bare cpu m)
      = ((), bare { cpu with s := cpu.s - 1 } (m.deviceWrite (stackAddr cpu.s) v)) := by
  rw [PagedMemory.deviceWrite_of_plain (plain_stackAddr stack cpu.s)]
  rfl

theorem pushWord_bare (cpu : Cpu) (stack : m.kindAt 0x0100 ≠ .device) (w : UInt16) :
    exec (.pushWord w) (bare cpu m)
      = (.next, bare { cpu with s := cpu.s - 1 - 1 }
        ((m.deviceWrite (stackAddr cpu.s) (highByte w)).deviceWrite (stackAddr (cpu.s - 1))
          (lowByte w))) := by
  have still := stack
  rw [← PagedMemory.kindAt_congr (m.pages_deviceWrite (stackAddr cpu.s) (highByte w))] at still
  change (push (highByte w) >>= _ : Exec (PagedMemory σ) Outcome) _ = _
  rw [bind_run (push_bare cpu stack _), bind_run (push_bare _ still _)]
  rfl

end Native

namespace Interpreter

variable {σ : Type} {m : PagedMemory σ}

theorem read_stack (stack : m.kindAt 0x0100 ≠ .device) (s : UInt8) :
    Bus.read (⟨m⟩ : DeviceBus (PagedMemory σ)) (stackAddr s)
      = (m.ram.get (stackAddr s), ⟨m⟩) := by
  change ((m.deviceRead (stackAddr s)).1, DeviceBus.mk (m.deviceRead (stackAddr s)).2) = _
  rw [PagedMemory.deviceRead_of_plain (Native.plain_stackAddr stack s)]

theorem pull_device (stack : m.kindAt 0x0100 ≠ .device) (cpu : Cpu) :
    pull cpu (⟨m⟩ : DeviceBus (PagedMemory σ))
      = ((m.ram.get (stackAddr (cpu.s + 1)), { cpu with s := cpu.s + 1 }), ⟨m⟩) :=
  pull_of_read rfl (read_stack stack _)

theorem pullWord_device (stack : m.kindAt 0x0100 ≠ .device) (cpu : Cpu) :
    pullWord cpu (⟨m⟩ : DeviceBus (PagedMemory σ))
      = ((word (m.ram.get (stackAddr (cpu.s + 1))) (m.ram.get (stackAddr (cpu.s + 1 + 1))),
          { cpu with s := cpu.s + 1 + 1 }), ⟨m⟩) :=
  pullWord_of_reads rfl (read_stack stack _) rfl (read_stack stack _)

end Interpreter

namespace Instruction

open Interpreter Mos6502.Core

variable {σ : Type} {i : Instruction} {o : LoweringOptions} {last : Bool} {k : Record.Known}
  {cpu : Cpu} {mem m₁ : PagedMemory σ} {r : Resolved} {scratch : Addr} {budget : Int}
  {ops : List HostOp} (m : PagedMemory σ)

def registerOnly : List Mnemonic :=
  [.inx, .iny, .dex, .dey, .tax, .tay, .txa, .tya, .tsx, .txs, .clc, .sec, .clv, .cli, .sei, .cld,
    .sed]

def bareMnemonics : List Mnemonic :=
  registerOnly ++ [.pha, .php, .pla, .plp, .rts, .rti, .brk, .exit, .debugBreak, .crash, .unknown]

theorem mode_of_bare (bare : i.operation.mnemonic ∈ bareMnemonics) :
    i.operation.mode = .implied ∧ i.operation.memUse = .none := by
  revert bare
  change (operationOf i.opcode).mnemonic ∈ bareMnemonics → (operationOf i.opcode).mode = .implied ∧
    (operationOf i.opcode).memUse = .none
  apply Native.forall_byte (p := fun opcode => (operationOf opcode).mnemonic ∈ bareMnemonics →
    (operationOf opcode).mode = .implied ∧ (operationOf opcode).memUse = .none)
  decide +kernel

theorem not_relative_of_implied (implied : i.operation.mode = .implied) :
    i.operation.mode ≠ .relative := by
  rw [implied]
  exact AddrMode.noConfusion

theorem execOp_bare (bare : i.operation.memUse = .none) :
    Native.execOp (M := PagedMemory σ) (HostOp.ofUop m (k.rewrite (.raw i.opcode i.operand)))
      = Native.raw i.opcode (storedOperand i.opcode i.operand) false := by
  have plain : (operationOf i.opcode).memUse ≠ .readWrite := by
    rw [operationOf_opcode, bare]
    exact MemUse.noConfusion
  rw [rewrite_of_memUse k (.inl bare), ofUop_raw m i.operand plain]
  rfl

theorem runs_unlessIrq (native : (i.task o last (bare cpu mem)).bounced = false)
    (kept : budget = cpu.budget) (cycles : (i.task o last (bare cpu mem)).performed.1.1.cycles
      = i.operation.cycles.toNat)
    (rest : cpu.irq = false →
      (i.task o last (bare cpu mem)).Runs ops (bare { cpu with scratch, budget } mem)) :
    (i.task o last (bare cpu mem)).Runs (.uop (.interpretIfIrq i.addr) :: ops)
      (bare { cpu with scratch, budget } mem) := by
  have free : (i.task o last (bare cpu mem)).early = 0 := early_native native o
  by_cases held : cpu.irq = true
  · refine Task.runs_bounce (d := bare { cpu with scratch, budget } mem) ?_ ⟨rfl, ?_⟩ ?_
    · exact Prod.ext (if_pos held) rfl
    · rw [free]
      exact kept.trans (Int.add_zero _).symm
    · rw [price_native native, free, cycles, ite_self]
      exact (Int.sub_zero _).symm
  · refine Task.runs_next (d := bare { cpu with scratch, budget } mem) ?_ (rest (by simpa using held))
    exact Prod.ext (if_neg held) rfl

theorem masked_setDecimal (c : Cpu) (on : Bool) : (c.setDecimal on).masked = c.masked := by
  have kept : ∀ v, anyBit (v ||| flagD) flagI = anyBit v flagI ∧
      anyBit (v &&& ~~~flagD) flagI = anyBit v flagI := by
    apply Native.forall_byte (p := fun v => anyBit (v ||| flagD) flagI = anyBit v flagI ∧
      anyBit (v &&& ~~~flagD) flagI = anyBit v flagI)
    decide +kernel
  cases on with
  | true => exact (kept c.other).1
  | false => exact (kept c.other).2

theorem masked_setMasked (c : Cpu) : (c.setMasked true).masked = true := by
  change anyBit (c.other ||| flagI) flagI = true
  apply Native.forall_byte (p := fun v => anyBit (v ||| flagI) flagI = true)
  decide +kernel

variable (o last) in
theorem performed_register (touches : i.operation.mnemonic ∈ registerOnly)
    (found : i.resolved cpu mem = (r, ⟨mem⟩)) :
    (i.task o last (bare cpu mem)).performed
      = (done (impliedEffect i.operation.mnemonic (i.task o last (bare cpu mem)).start.cpu)
          (i.addr + i.operation.len.toUInt16)
          (i.operation.cycles.toNat + indexPenalty i.operation r), ⟨mem⟩) := by
  have start := (resolve_start i o last cpu mem).trans found
  change perform i.opcode i.low i.high _ (⟨mem⟩ : DeviceBus (PagedMemory σ)) = _
  unfold perform
  rw [bind_run start, operationOf_opcode]
  dsimp only
  cases hm : i.operation.mnemonic with
  | inx | iny | dex | dey | tax | tay | txa | tya | tsx | txs | clc | sec | clv | cli | sei | cld
  | sed => rfl
  | _ => simp [registerOnly, hm] at touches

theorem raw_register (touches : i.operation.mnemonic ∈ registerOnly) (v : UInt16)
    (checked : Bool) (c : Cpu) :
    Native.raw i.opcode v checked (bare c mem)
      = (.next, bare (Native.impliedEffect i.operation.mnemonic c) mem) := by
  unfold Native.raw
  rw [operationOf_opcode]
  dsimp only
  cases hm : i.operation.mnemonic with
  | inx | iny | dex | dey | tax | tay | txa | tya | tsx | txs | clc | sec | clv | cli | sei | cld
  | sed => rfl
  | _ => simp [registerOnly, hm] at touches

theorem runs_register (touches : i.operation.mnemonic ∈ registerOnly)
    (native : (i.task o last (bare cpu mem)).bounced = false)
    (pointed : i.Pointed o cpu r scratch budget) (found : i.resolved cpu mem = (r, ⟨mem⟩))
    (rest : (i.task o last (bare cpu mem)).GoesOn ops) :
    (i.task o last (bare cpu mem)).Runs (i.ownOps m o k ++ ops)
      (bare { cpu with scratch, budget } mem) := by
  obtain ⟨implied, plain⟩ := mode_of_bare (List.mem_append_left _ touches)
  have unindexed : i.operation.mode ∉ indexedModes := by simp [implied, indexedModes]
  have straight := not_relative_of_implied implied
  have performed := performed_register o last touches found
  have main : Native.execOp (HostOp.ofUop m (k.rewrite (.raw i.opcode i.operand)))
        (bare { cpu with scratch, budget } mem)
      = (.next, bare (Native.impliedEffect i.operation.mnemonic { cpu with scratch, budget }) mem) := by
    rw [execOp_bare m plain]
    exact raw_register touches _ false _
  unfold ownOps beforeUops mainUops afterUops
  cases hm : i.operation.mnemonic with
  | inx | iny | dex | dey | txs | clc | sec | clv =>
    rw [hm] at performed main
    exact Task.runs_next main (rest _ (reached_done native pointed straight performed (fun _ => rfl) rfl id))
  | tax | tay | txa | tya | tsx =>
    rw [hm] at performed main
    refine Task.runs_next main (Task.runs_next rfl ?_)
    exact rest _ (reached_done native pointed straight performed (fun _ => rfl) rfl id)
  | sei =>
    rw [hm] at performed main
    refine Task.runs_next main (rest _ (reached_done native pointed straight performed (fun _ => rfl) rfl ?_))
    intro _
    change (cpu.irq && !(Cpu.setMasked { cpu with scratch, budget } true).masked) = false
    rw [masked_setMasked, Bool.not_true, Bool.and_false]
  | sed =>
    rw [hm] at performed main
    refine Task.runs_next main (rest _ (reached_done native pointed straight performed (fun _ => rfl) rfl ?_))
    change _ → (cpu.irq && !(Cpu.setDecimal { cpu with scratch, budget } true).masked) = false
    rw [masked_setDecimal]
    exact id
  | cld =>
    rw [hm] at performed main
    refine Task.runs_next main (rest _ (reached_done native pointed straight performed (fun _ => rfl) rfl ?_))
    change _ → (cpu.irq && !(Cpu.setDecimal { cpu with scratch, budget } false).masked) = false
    rw [masked_setDecimal]
    exact id
  | cli =>
    rw [hm] at performed main
    refine runs_unlessIrq native (pointed.unspent unindexed) ?_ ?_
    · rw [performed, indexPenalty_plain r unindexed]
      rfl
    intro quiet
    refine Task.runs_next main (rest _ (reached_done native pointed straight performed (fun _ => rfl) rfl ?_))
    intro _
    change (cpu.irq && !(Cpu.setMasked { cpu with scratch, budget } false).masked) = false
    rw [quiet, Bool.false_and]
  | _ => simp [registerOnly, hm] at touches

theorem runs_push (pushes : i.operation.mnemonic = .pha ∨ i.operation.mnemonic = .php)
    (stack : mem.kindAt 0x0100 ≠ .device) (native : (i.task o last (bare cpu mem)).bounced = false)
    (pointed : i.Pointed o cpu r scratch budget)
    (found : i.resolved cpu mem = (r, ⟨mem⟩))
    (rest : (i.task o last (bare cpu mem)).GoesOn ops) :
    (i.task o last (bare cpu mem)).Runs (i.ownOps m o k ++ ops)
      (bare { cpu with scratch, budget } mem) := by
  have start := (resolve_start i o last cpu mem).trans found
  obtain ⟨implied, plain⟩ : i.operation.mode = .implied ∧ i.operation.memUse = .none := by
    apply mode_of_bare
    rcases pushes with hm | hm <;> rw [hm] <;> decide
  have straight := not_relative_of_implied implied
  have push : ∀ v : UInt8, (i.task o last (bare cpu mem)).performed
        = (done { (i.task o last (bare cpu mem)).start.cpu with s := cpu.s - 1 }
            (i.addr + i.operation.len.toUInt16)
            (i.operation.cycles.toNat + indexPenalty i.operation r),
          ⟨mem.deviceWrite (stackAddr cpu.s) v⟩) →
      Native.raw i.opcode (storedOperand i.opcode i.operand) false (bare { cpu with scratch, budget } mem)
        = (.next, (Native.push v (bare { cpu with scratch, budget } mem)).2) →
      (i.task o last (bare cpu mem)).Runs
        (HostOp.ofUop m (k.rewrite (.raw i.opcode i.operand)) :: ops)
        (bare { cpu with scratch, budget } mem) := by
    intro v performed raw
    rw [Native.push_bare _ stack, ← execOp_bare m (k := k) plain] at raw
    exact Task.runs_next raw (rest _ (reached_done native pointed straight performed (fun _ => rfl) rfl id))
  unfold ownOps beforeUops mainUops afterUops
  rcases pushes with hm | hm
  · rw [hm]
    refine push cpu.a ?_ ?_
    · change perform i.opcode i.low i.high _ (⟨mem⟩ : DeviceBus (PagedMemory σ)) = _
      unfold perform
      rw [bind_run start, operationOf_opcode, hm]
      rfl
    · unfold Native.raw
      rw [operationOf_opcode, hm]
      rfl
  · rw [hm]
    refine push cpu.pushedFlags ?_ ?_
    · change perform i.opcode i.low i.high _ (⟨mem⟩ : DeviceBus (PagedMemory σ)) = _
      unfold perform
      rw [bind_run start, operationOf_opcode, hm]
      rfl
    · unfold Native.raw
      rw [operationOf_opcode, hm]
      rfl

theorem runs_pull (pulls : i.operation.mnemonic = .pla ∨ i.operation.mnemonic = .plp)
    (stack : i.usesStack cpu = true → mem.kindAt 0x0100 ≠ .device)
    (native : (i.task o last (bare cpu mem)).bounced = false)
    (pointed : i.Pointed o cpu r scratch budget)
    (found : i.resolved cpu mem = (r, ⟨mem⟩))
    (rest : (i.task o last (bare cpu mem)).GoesOn ops) :
    (i.task o last (bare cpu mem)).Runs (i.ownOps m o k ++ ops)
      (bare { cpu with scratch, budget } mem) := by
  have start := (resolve_start i o last cpu mem).trans found
  obtain ⟨implied, plain⟩ : i.operation.mode = .implied ∧ i.operation.memUse = .none := by
    apply mode_of_bare
    rcases pulls with hm | hm <;> rw [hm] <;> decide
  have unindexed : i.operation.mode ∉ indexedModes := by simp [implied, indexedModes]
  have straight := not_relative_of_implied implied
  have pulled := fun used => pull_device (stack used) (i.task o last (bare cpu mem)).start.cpu
  unfold ownOps beforeUops mainUops afterUops
  rcases pulls with hm | hm
  · have pulled := pulled (by simp [usesStack, hm])
    have performed : (i.task o last (bare cpu mem)).performed = (done (loadA
        { (i.task o last (bare cpu mem)).start.cpu with s := cpu.s + 1 }
          (mem.ram.get (stackAddr (cpu.s + 1)))) (i.addr + i.operation.len.toUInt16)
            (i.operation.cycles.toNat + indexPenalty i.operation r), ⟨mem⟩) := by
      change perform i.opcode i.low i.high _ (⟨mem⟩ : DeviceBus (PagedMemory σ)) = _
      unfold perform
      rw [bind_run start, operationOf_opcode, hm]
      dsimp only
      rw [bind_run pulled]
      rfl
    have raw : Native.execOp (HostOp.ofUop m (k.rewrite (.raw i.opcode i.operand)))
        (bare { cpu with scratch, budget } mem)
          = (.next, bare { cpu with
            scratch, budget, s := cpu.s + 1, a := mem.ram.get (stackAddr (cpu.s + 1)) } mem) := by
      rw [execOp_bare m plain]
      unfold Native.raw
      rw [operationOf_opcode, hm]
      rfl
    rw [hm]
    refine Task.runs_next raw (Task.runs_next rfl ?_)
    exact rest _ (reached_done native pointed straight performed (fun _ => rfl) rfl id)
  · have cycles : (i.task o last (bare cpu mem)).performed.1.1.cycles = i.operation.cycles.toNat := by
      change (perform i.opcode i.low i.high _ (⟨mem⟩ : DeviceBus (PagedMemory σ))).1.1.cycles = _
      unfold perform
      rw [bind_run start, operationOf_opcode, hm]
      change i.operation.cycles.toNat + indexPenalty i.operation r = _
      rw [indexPenalty_plain r unindexed]
      rfl
    rw [hm]
    refine runs_unlessIrq native (pointed.unspent unindexed) cycles ?_
    intro quiet
    have pulled := pulled (by simp [usesStack, hm, quiet])
    have performed : (i.task o last (bare cpu mem)).performed = (done (Cpu.withFlags
        { (i.task o last (bare cpu mem)).start.cpu with s := cpu.s + 1 }
          (mem.ram.get (stackAddr (cpu.s + 1)))) (i.addr + i.operation.len.toUInt16)
            (i.operation.cycles.toNat + indexPenalty i.operation r), ⟨mem⟩) := by
      change perform i.opcode i.low i.high _ (⟨mem⟩ : DeviceBus (PagedMemory σ)) = _
      unfold perform
      rw [bind_run start, operationOf_opcode, hm]
      dsimp only
      rw [bind_run pulled]
      rfl
    have raw : Native.execOp (HostOp.ofUop m (k.rewrite (.raw i.opcode i.operand)))
        (bare { cpu with scratch, budget } mem)
          = (.next, bare (Cpu.withFlags { cpu with scratch, budget, s := cpu.s + 1 }
            (mem.ram.get (stackAddr (cpu.s + 1)))) mem) := by
      rw [execOp_bare m plain]
      unfold Native.raw
      rw [operationOf_opcode, hm]
      rfl
    refine Task.runs_next raw ?_
    refine rest _ (reached_done native pointed straight performed (fun _ => rfl) rfl ?_)
    intro _
    exact Bool.and_eq_false_imp.mpr fun held => absurd (quiet.symm.trans held) Bool.false_ne_true

theorem runs_exit (stops : i.operation.mnemonic ∈ [.exit, .debugBreak, .crash, .unknown])
    (pointed : i.Pointed o cpu r scratch budget) (found : i.resolved cpu mem = (r, ⟨mem⟩)) :
    (i.task o last (bare cpu mem)).Runs (i.ownOps m o k ++ ops)
      (bare { cpu with scratch, budget } mem) := by
  have start := (resolve_start i o last cpu mem).trans found
  have bare_stops : ∀ n ∈ [.exit, .debugBreak, .crash, .unknown], n ∈ bareMnemonics := by decide
  have implied := (mode_of_bare (bare_stops _ stops)).1
  have untouched : (i.task o last (bare cpu mem)).Untouched 0 (bare { cpu with scratch, budget } mem) :=
    ⟨rfl, (pointed.unspent (by simp [implied, indexedModes])).trans (Int.add_zero _).symm⟩
  have leave : ∀ {op : HostOp} (why : Stop),
      Native.execOp op (bare { cpu with scratch, budget } mem)
        = (.leave i.addr why, bare { cpu with scratch, budget } mem) →
      (i.task o last (bare cpu mem)).performed.1.1.exit = some why →
      (i.task o last (bare cpu mem)).Runs (op :: ops) (bare { cpu with scratch, budget } mem) :=
    fun _ ends exit => Task.runs_stop ends ⟨rfl, untouched, exit⟩ fun _ goes => by cases goes
  have address : i.operand = i.addr := by simp only [operand, implied]
  have raw : ∀ {why : Stop}, Native.stopsRun i.opcode = true →
      Native.raw i.opcode i.operand false (bare { cpu with scratch, budget } mem)
        = (.leave i.addr why, bare { cpu with scratch, budget } mem) →
      Native.execOp (HostOp.ofUop m (k.rewrite (.raw i.opcode i.operand)))
        (bare { cpu with scratch, budget } mem)
          = (.leave i.addr why, bare { cpu with scratch, budget } mem) := by
    intro why stops ends
    rw [Record.ofUop_stop m k i.operand stops]
    exact ends
  unfold ownOps beforeUops mainUops afterUops
  simp only [List.mem_cons, List.not_mem_nil, or_false] at stops
  rcases stops with hm | hm | hm | hm
  · rw [hm]
    refine leave .exit (raw (by rw [Native.stopsRun, operationOf_opcode, hm]) ?_) ?_
    · unfold Native.raw
      rw [operationOf_opcode, hm, address]
      rfl
    · change (perform i.opcode i.low i.high _ (⟨mem⟩ : DeviceBus (PagedMemory σ))).1.1.exit = _
      unfold perform
      rw [bind_run start, operationOf_opcode, hm]
      rfl
  · rw [hm]
    refine leave .debugBreak (raw (by rw [Native.stopsRun, operationOf_opcode, hm]) ?_) ?_
    · unfold Native.raw
      rw [operationOf_opcode, hm, address]
      rfl
    · change (perform i.opcode i.low i.high _ (⟨mem⟩ : DeviceBus (PagedMemory σ))).1.1.exit = _
      unfold perform
      rw [bind_run start, operationOf_opcode, hm]
      rfl
  · rw [hm]
    refine leave .crash (raw (by rw [Native.stopsRun, operationOf_opcode, hm]) ?_) ?_
    · unfold Native.raw
      rw [operationOf_opcode, hm, address]
      rfl
    · change (perform i.opcode i.low i.high _ (⟨mem⟩ : DeviceBus (PagedMemory σ))).1.1.exit = _
      unfold perform
      rw [bind_run start, operationOf_opcode, hm]
      rfl
  · rw [hm]
    refine leave (.undefined i.opcode) rfl ?_
    change (perform i.opcode i.low i.high _ (⟨mem⟩ : DeviceBus (PagedMemory σ))).1.1.exit = _
    unfold perform
    rw [bind_run start, operationOf_opcode, hm]
    rfl

theorem facts_of_branch (branches : i.operation.branch = .conditional) :
    i.operation.mode = .relative ∧ i.operation.memUse = .none ∧ i.operation.cycles = 2 ∧
      operandWidth i.opcode = 2 := by
  revert branches
  change (operationOf i.opcode).branch = .conditional → (operationOf i.opcode).mode = .relative ∧
    (operationOf i.opcode).memUse = .none ∧ (operationOf i.opcode).cycles = 2 ∧
      operandWidth i.opcode = 2
  apply Native.forall_byte (p := fun opcode => (operationOf opcode).branch = .conditional →
    (operationOf opcode).mode = .relative ∧ (operationOf opcode).memUse = .none ∧
      (operationOf opcode).cycles = 2 ∧ operandWidth opcode = 2)
  decide +kernel

theorem len_branch (branches : i.operation.branch = .conditional) : i.operation.len = 2 := by
  unfold Operation.len
  rw [(facts_of_branch branches).1]
  rfl

theorem resolved_branch (branches : i.operation.branch = .conditional) (cpu : Cpu)
    (mem : PagedMemory σ) : (i.resolved cpu mem).1.effective = i.operand := by
  have len : i.addr + i.operation.len.toUInt16 = i.addr + 2 := by
    rw [len_branch branches]
    rfl
  unfold resolved
  simp only [(facts_of_branch branches).1, operand, len]
  rfl

theorem maxCycles_branch (branches : i.operation.branch = .conditional)
    (exact : o.exactTimings = true) :
    (i.maxCycles o).toNat = 2 + branchPenalty (i.addr + 2) i.operand := by
  obtain ⟨relative, _, cycles, _⟩ := facts_of_branch branches
  unfold maxCycles branchPenalty
  rw [relative, exact, cycles]
  by_cases page : highByte (i.addr + 2) = highByte i.operand
  · simp [page, (samePage_iff _ _).mpr page]
  · have leaves : samePage (i.addr + 2) i.operand = false := by
      rw [← Bool.not_eq_true]
      exact fun same => page ((samePage_iff _ _).mp same)
    simp [page, leaves]

variable (o last) in
theorem performed_branch (branches : i.operation.branch = .conditional)
    (found : i.resolved cpu mem = (r, ⟨mem⟩)) :
    (i.task o last (bare cpu mem)).performed
      = (if branchTaken i.operation.mnemonic (i.task o last (bare cpu mem)).start.cpu then
          done (i.task o last (bare cpu mem)).start.cpu r.effective
            (i.operation.cycles.toNat + indexPenalty i.operation r
              + branchPenalty (i.addr + i.operation.len.toUInt16) r.effective)
        else done (i.task o last (bare cpu mem)).start.cpu (i.addr + i.operation.len.toUInt16)
          (i.operation.cycles.toNat + indexPenalty i.operation r), ⟨mem⟩) := by
  have start := (resolve_start i o last cpu mem).trans found
  change perform i.opcode i.low i.high _ (⟨mem⟩ : DeviceBus (PagedMemory σ)) = _
  unfold perform
  rw [bind_run start, operationOf_opcode]
  unfold Operation.branch at branches
  dsimp only
  cases hm : i.operation.mnemonic with
  | bcc | bcs | bne | beq | bpl | bmi | bvc | bvs =>
    dsimp only
    split <;> rfl
  | _ => rw [hm] at branches; cases branches

theorem raw_branch (branches : i.operation.branch = .conditional) (v : UInt16) (c : Cpu) :
    Native.raw i.opcode v false (bare c mem)
      = (if Native.branchTaken i.operation.mnemonic c then .jump v else .next, bare c mem) := by
  unfold Native.raw
  rw [operationOf_opcode]
  unfold Operation.branch at branches
  dsimp only
  cases hm : i.operation.mnemonic with
  | bcc | bcs | bne | beq | bpl | bmi | bvc | bvs => rfl
  | _ => rw [hm] at branches; cases branches

theorem runs_decided (branches : i.operation.branch = .conditional)
    (native : (i.task o last (bare cpu mem)).bounced = false)
    (found : i.resolved cpu mem = (r, ⟨mem⟩))
    {c : Cpu} (same : ∀ pc, { cpu.guest with pc } = { c.guest with pc })
    (kept : c.budget = cpu.budget)
    (flag : Native.branchTaken i.operation.mnemonic c = branchTaken i.operation.mnemonic cpu)
    (rest : (i.task o last (bare cpu mem)).GoesOn ops) :
    (i.task o last (bare cpu mem)).Runs
      ((.raw i.opcode i.operand :: if o.exactTimings then [.refund (i.maxCycles o - 2)] else []).map
        (HostOp.ofUop m ∘ k.rewrite) ++ ops) (bare c mem) := by
  obtain ⟨relative, plain, cycles, width⟩ := facts_of_branch branches
  have behind : i.addr + i.operation.len.toUInt16 = i.addr + 2 := by
    rw [len_branch branches]
    rfl
  have target : r.effective = i.operand := by
    have there := resolved_branch branches cpu mem
    rw [found] at there
    exact there
  have penalty : indexPenalty i.operation r = 0 :=
    indexPenalty_plain r (by simp [relative, indexedModes])
  have performed := performed_branch o last branches found
  rw [target, behind, cycles, penalty] at performed
  have start : branchTaken i.operation.mnemonic (i.task o last (bare cpu mem)).start.cpu
      = branchTaken i.operation.mnemonic cpu := branchTaken_guest i.operation.mnemonic cpu
  have quiet : cpu.interruptDue = false → c.interruptDue = false := by
    have due := congrArg Cpu.interruptDue (same 0)
    change cpu.interruptDue = c.interruptDue at due
    rw [due]
    exact id
  have main : Native.execOp (HostOp.ofUop m (k.rewrite (.raw i.opcode i.operand))) (bare c mem)
      = (if branchTaken i.operation.mnemonic cpu then .jump i.operand else .next, bare c mem) := by
    have stored : storedOperand i.opcode i.operand = i.operand := by simp [storedOperand, width]
    rw [execOp_bare m plain, stored, raw_branch branches, flag]
  rw [start] at performed
  cases taken : branchTaken i.operation.mnemonic cpu with
  | true =>
    rw [taken, if_pos rfl] at main performed
    refine Task.runs_jump main (reached_at native performed (fun pc => same pc) quiet ?_) (.inl ?_)
    · cases timed : o.exactTimings with
      | true =>
        rw [kept, maxCycles_branch branches timed]
        rfl
      | false =>
        rw [kept, i.maxCycles_untimed timed]
        rfl
    · change i.operation.branch ≠ .never
      rw [branches]
      exact Branching.noConfusion
  | false =>
    rw [taken, if_neg Bool.false_ne_true] at main performed
    refine Task.runs_next main ?_
    have next : (i.task o last (bare cpu mem)).next = i.addr + 2 := behind
    cases timed : o.exactTimings with
    | true =>
      refine Task.runs_next rfl (rest _ ?_)
      rw [next]
      refine reached_at native performed (fun pc => same pc) quiet ?_
      rw [timed, if_pos rfl]
      have whole := maxCycles_branch branches timed
      have back : (i.maxCycles o - 2).toNat = branchPenalty (i.addr + 2) i.operand := by
        have two : (2 : UInt8) ≤ i.maxCycles o := by
          rw [UInt8.le_iff_toNat_le, whole]
          exact Nat.le_add_right 2 _
        rw [UInt8.toNat_sub_of_le _ _ two, whole]
        exact Nat.add_sub_cancel_left 2 _
      change c.budget + (i.maxCycles o - 2).toNat + (2 : Int) = _
      rw [kept, whole, back]
      omega
    | false =>
      refine rest _ ?_
      rw [next]
      refine reached_at native performed (fun pc => same pc) quiet ?_
      rw [timed, kept, i.maxCycles_untimed timed]
      rfl

theorem runs_branch (branches : i.operation.branch = .conditional)
    (native : (i.task o last (bare cpu mem)).bounced = false)
    (pointed : i.Pointed o cpu r scratch budget) (found : i.resolved cpu mem = (r, ⟨mem⟩))
    (rest : (i.task o last (bare cpu mem)).GoesOn ops) :
    (i.task o last (bare cpu mem)).Runs (i.ownOps m o k ++ ops)
      (bare { cpu with scratch, budget } mem) := by
  have kept : budget = cpu.budget := by
    refine pointed.unspent ?_
    rw [(facts_of_branch branches).1]
    decide
  have decided : ∀ {c : Cpu}, (∀ pc, { cpu.guest with pc } = { c.guest with pc }) →
      c.budget = cpu.budget →
      Native.branchTaken i.operation.mnemonic c = branchTaken i.operation.mnemonic cpu →
      (i.task o last (bare cpu mem)).Runs
        ((.raw i.opcode i.operand :: if o.exactTimings then [.refund (i.maxCycles o - 2)] else []).map
          (HostOp.ofUop m ∘ k.rewrite) ++ ops) (bare c mem) :=
    fun same kept flag => runs_decided m branches native found same kept flag rest
  have conditional := branches
  unfold Operation.branch at conditional
  unfold ownOps beforeUops mainUops afterUops
  cases hm : i.operation.mnemonic with
  | bcc | bcs | bvc | bvs =>
    rw [hm] at decided
    exact Task.runs_next rfl (decided (fun _ => rfl) kept rfl)
  | bne | beq | bpl | bmi =>
    rw [hm] at decided
    exact decided (fun _ => rfl) kept rfl
  | _ => rw [hm] at conditional; cases conditional

theorem mode_of_jump (opcode : UInt8) :
    ((operationOf opcode).mnemonic = .jmp →
      (operationOf opcode).mode = .absolute ∨ (operationOf opcode).mode = .indirect) ∧
    ((operationOf opcode).mnemonic = .jsr → (operationOf opcode).mode = .absolute) := by
  apply Native.forall_byte (p := fun opcode => ((operationOf opcode).mnemonic = .jmp →
      (operationOf opcode).mode = .absolute ∨ (operationOf opcode).mode = .indirect) ∧
    ((operationOf opcode).mnemonic = .jsr → (operationOf opcode).mode = .absolute))
  decide +kernel

theorem effective_of_absolute (absolute : i.operation.mode = .absolute)
    {b : DeviceBus (PagedMemory σ)} (found : i.resolved cpu mem = (r, b)) :
    r.effective = i.operand := by
  have there : (i.resolved cpu mem).1.effective = i.operand := by
    unfold resolved operand
    rw [absolute]
    rfl
  rw [found] at there
  exact there

theorem runs_jmp (jumps : i.operation.mnemonic = .jmp)
    (native : (i.task o last (bare cpu mem)).bounced = false)
    (pointed : i.Pointed o cpu r scratch budget) (found : i.resolved cpu mem = (r, ⟨m₁⟩)) :
    (i.task o last (bare cpu mem)).Runs (i.ownOps m o k ++ ops)
      (bare { cpu with scratch, budget } m₁) := by
  have start := (resolve_start i o last cpu mem).trans found
  have leaves : (i.task o last (bare cpu mem)).instr.operation.branch ≠ .never := by
    change Mnemonic.branch i.operation.mnemonic ≠ .never
    rw [jumps]
    decide
  have performed : (i.task o last (bare cpu mem)).performed
      = (done (i.task o last (bare cpu mem)).start.cpu r.effective
          (i.operation.cycles.toNat + indexPenalty i.operation r), ⟨m₁⟩) := by
    change perform i.opcode i.low i.high _ (⟨mem⟩ : DeviceBus (PagedMemory σ)) = _
    unfold perform
    rw [bind_run start, operationOf_opcode, jumps]
    rfl
  have reached : i.operation.mode ≠ .relative →
      (i.task o last (bare cpu mem)).Reached r.effective (bare { cpu with scratch, budget } m₁) :=
    fun straight => reached_done native pointed straight performed (fun _ => rfl) rfl id
  unfold ownOps beforeUops mainUops
  rw [jumps]
  dsimp only
  rcases (mode_of_jump i.opcode).1 jumps with mode | mode
  · have absolute : i.operation.mode = .absolute := mode
    rw [if_neg (by rw [absolute]; decide)]
    have reached := reached (by rw [absolute]; decide)
    rw [effective_of_absolute absolute found] at reached
    exact Task.runs_jump rfl reached (.inl leaves)
  · have indirect : i.operation.mode = .indirect := mode
    rw [if_pos indirect]
    have reached := reached (by rw [indirect]; decide)
    rw [← pointed.through indirect] at reached
    exact Task.runs_jump rfl reached (.inl leaves)

theorem runs_jsr (calls : i.operation.mnemonic = .jsr) (stack : mem.kindAt 0x0100 ≠ .device)
    (native : (i.task o last (bare cpu mem)).bounced = false)
    (pointed : i.Pointed o cpu r scratch budget) (found : i.resolved cpu mem = (r, ⟨mem⟩)) :
    (i.task o last (bare cpu mem)).Runs (i.ownOps m o k ++ ops)
      (bare { cpu with scratch, budget } mem) := by
  have start := (resolve_start i o last cpu mem).trans found
  have absolute : i.operation.mode = .absolute := (mode_of_jump i.opcode).2 calls
  have leaves : (i.task o last (bare cpu mem)).instr.operation.branch ≠ .never := by
    change Mnemonic.branch i.operation.mnemonic ≠ .never
    rw [calls]
    decide
  have performed : (i.task o last (bare cpu mem)).performed
      = (done { (i.task o last (bare cpu mem)).start.cpu with s := cpu.s - 1 - 1 } r.effective
          (i.operation.cycles.toNat + indexPenalty i.operation r),
        ⟨(mem.deviceWrite (stackAddr cpu.s) (highByte (i.addr + 2))).deviceWrite
          (stackAddr (cpu.s - 1)) (lowByte (i.addr + 2))⟩) := by
    change perform i.opcode i.low i.high _ (⟨mem⟩ : DeviceBus (PagedMemory σ)) = _
    unfold perform
    rw [bind_run start, operationOf_opcode, calls]
    rfl
  rw [effective_of_absolute absolute found] at performed
  unfold ownOps beforeUops mainUops
  rw [calls]
  refine Task.runs_next (Native.pushWord_bare _ stack (i.addr + 2)) ?_
  refine Task.runs_jump rfl ?_ (.inl leaves)
  exact reached_done native pointed (by rw [absolute]; decide) performed (fun _ => rfl) rfl id

theorem runs_rts (returns : i.operation.mnemonic = .rts) (stack : mem.kindAt 0x0100 ≠ .device)
    (native : (i.task o last (bare cpu mem)).bounced = false)
    (pointed : i.Pointed o cpu r scratch budget) (found : i.resolved cpu mem = (r, ⟨mem⟩)) :
    (i.task o last (bare cpu mem)).Runs (i.ownOps m o k ++ ops)
      (bare { cpu with scratch, budget } mem) := by
  have start := (resolve_start i o last cpu mem).trans found
  have implied := (mode_of_bare (i := i) (by rw [returns]; decide)).1
  have leaves : (i.task o last (bare cpu mem)).instr.operation.branch ≠ .never := by
    change Mnemonic.branch i.operation.mnemonic ≠ .never
    rw [returns]
    decide
  have performed : (i.task o last (bare cpu mem)).performed
      = (done { (i.task o last (bare cpu mem)).start.cpu with s := cpu.s + 1 + 1 }
          (word (mem.ram.get (stackAddr (cpu.s + 1))) (mem.ram.get (stackAddr (cpu.s + 1 + 1))) + 1)
          (i.operation.cycles.toNat + indexPenalty i.operation r), ⟨mem⟩) := by
    change perform i.opcode i.low i.high _ (⟨mem⟩ : DeviceBus (PagedMemory σ)) = _
    unfold perform
    rw [bind_run start, operationOf_opcode, returns]
    dsimp only
    rw [bind_run (pullWord_device stack _)]
    rfl
  unfold ownOps beforeUops mainUops
  rw [returns]
  refine Task.runs_next rfl (Task.runs_next rfl (Task.runs_jump rfl ?_ (.inl leaves)))
  exact reached_done native pointed (not_relative_of_implied implied) performed (fun _ => rfl) rfl id

variable (o last) in
theorem performed_brk (breaks : i.operation.mnemonic = .brk)
    (found : i.resolved cpu mem = (r, ⟨mem⟩)) {pushed saved : PagedMemory σ}
    (word : (mem.deviceWrite (stackAddr cpu.s) (highByte (i.addr + 2))).deviceWrite
      (stackAddr (cpu.s - 1)) (lowByte (i.addr + 2)) = pushed)
    (flags : pushed.deviceWrite (stackAddr (cpu.s - 1 - 1)) cpu.pushedFlags = saved) :
    (i.task o last (bare cpu mem)).performed
      = (done (Cpu.setMasked { (i.task o last (bare cpu mem)).start.cpu with
            s := cpu.s - 1 - 1 - 1 } true)
          (Bus.fetchPointer vectorIrq (⟨saved⟩ : DeviceBus (PagedMemory σ))).1
          (i.operation.cycles.toNat + indexPenalty i.operation r),
        (Bus.fetchPointer vectorIrq (⟨saved⟩ : DeviceBus (PagedMemory σ))).2) := by
  have start := (resolve_start i o last cpu mem).trans found
  have pushes : pushWord (i.task o last (bare cpu mem)).start.cpu
      ((i.task o last (bare cpu mem)).start.cpu.pc + 2) (⟨mem⟩ : DeviceBus (PagedMemory σ))
        = ({ (i.task o last (bare cpu mem)).start.cpu with s := cpu.s - 1 - 1 }, ⟨pushed⟩) := by
    rw [← word]
    rfl
  have saves : push { (i.task o last (bare cpu mem)).start.cpu with s := cpu.s - 1 - 1 }
      cpu.pushedFlags (⟨pushed⟩ : DeviceBus (PagedMemory σ))
        = ({ (i.task o last (bare cpu mem)).start.cpu with s := cpu.s - 1 - 1 - 1 }, ⟨saved⟩) := by
    rw [← flags]
    rfl
  change perform i.opcode i.low i.high _ (⟨mem⟩ : DeviceBus (PagedMemory σ)) = _
  unfold perform
  rw [bind_run start, operationOf_opcode, breaks]
  dsimp only
  rw [bind_run pushes]
  exact bind_run saves

theorem execOp_php (c : Cpu) (stack : mem.kindAt 0x0100 ≠ .device) :
    Native.execOp (HostOp.ofUop m (k.rewrite (.raw 0x08 0))) (bare c mem)
      = (.next, bare { c with s := c.s - 1 } (mem.deviceWrite (stackAddr c.s) c.pushedFlags)) := by
  have plain : Native.execOp (M := PagedMemory σ) (HostOp.ofUop m (k.rewrite (.raw 0x08 0)))
      = Native.raw 0x08 0 false := execOp_bare m (i := ⟨0, 0x08, 0, 0⟩) rfl
  have named : (operationOf 0x08).mnemonic = .php := by decide
  have raw : Native.raw 0x08 0 false (bare c mem)
      = (.next, (Native.push c.pushedFlags (bare c mem)).2) := by
    unfold Native.raw
    rw [named]
    rfl
  rw [plain, raw, Native.push_bare c stack]

theorem execOp_sei (c : Cpu) :
    Native.execOp (HostOp.ofUop m (k.rewrite (.raw 0x78 0))) (bare c mem)
      = (.next, bare (c.setMasked true) mem) := by
  have plain : Native.execOp (M := PagedMemory σ) (HostOp.ofUop m (k.rewrite (.raw 0x78 0)))
      = Native.raw 0x78 0 false := execOp_bare m (i := ⟨0, 0x78, 0, 0⟩) rfl
  have named : (operationOf 0x78).mnemonic = .sei := by decide
  rw [plain]
  unfold Native.raw
  rw [named]
  rfl

theorem runs_brk (breaks : i.operation.mnemonic = .brk) (stack : mem.kindAt 0x0100 ≠ .device)
    (native : (i.task o last (bare cpu mem)).bounced = false)
    (pointed : i.Pointed o cpu r scratch budget) (found : i.resolved cpu mem = (r, ⟨mem⟩)) :
    (i.task o last (bare cpu mem)).Runs (i.ownOps m o k ++ ops)
      (bare { cpu with scratch, budget } mem) := by
  have implied := (mode_of_bare (i := i) (by rw [breaks]; decide)).1
  have leaves : (i.task o last (bare cpu mem)).instr.operation.branch ≠ .never := by
    change Mnemonic.branch i.operation.mnemonic ≠ .never
    rw [breaks]
    decide
  have word := Native.pushWord_bare { cpu with scratch, budget } stack (i.addr + 2)
  generalize hp : (mem.deviceWrite (stackAddr cpu.s) (highByte (i.addr + 2))).deviceWrite
    (stackAddr (cpu.s - 1)) (lowByte (i.addr + 2)) = pushed at word
  have plain : pushed.kindAt 0x0100 ≠ .device := by
    have pages : pushed.pages = mem.pages := by
      rw [← hp, PagedMemory.pages_deviceWrite, PagedMemory.pages_deviceWrite]
    rw [PagedMemory.kindAt_congr pages]
    exact stack
  have flags := execOp_php m (k := k) { cpu with scratch, budget, s := cpu.s - 1 - 1 } plain
  generalize hq : pushed.deviceWrite (stackAddr (cpu.s - 1 - 1))
    { cpu with scratch, budget, s := cpu.s - 1 - 1 }.pushedFlags = saved at flags
  have mask : Native.execOp (HostOp.ofUop m (k.rewrite (.raw 0x78 0)))
      (bare { cpu with scratch, budget, s := cpu.s - 1 - 1 - 1 } saved) = _ := execOp_sei m _
  unfold ownOps beforeUops mainUops
  rw [breaks]
  refine Task.runs_next word (Task.runs_next flags (Task.runs_next mask ?_))
  refine Task.runs_next (Native.follow_bare _ saved vectorIrq) (Task.runs_jump rfl ?_ (.inl leaves))
  refine reached_done native pointed (not_relative_of_implied implied)
    (performed_brk o last breaks found hp hq) (fun _ => rfl) rfl ?_
  intro _
  change (cpu.irq && !(Cpu.setMasked { cpu with scratch, budget } true).masked) = false
  rw [masked_setMasked, Bool.not_true, Bool.and_false]

end Instruction

end Mos6502
