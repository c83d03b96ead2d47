import Mos6502.Proofs.Block.Shape
import Mos6502.Proofs.Native.Bare
import Mos6502.Proofs.Native.Safe

/-! What the host code of an instruction is for: from where it starts it does what the interpreter
does with the instruction, or it leaves before anything has happened. -/
namespace Mos6502

namespace Instruction

variable {σ : Type}

/-- The only instructions that look at the decimal flag. -/
def sums (i : Instruction) : Bool :=
  i.operation.mnemonic == .adc || i.operation.mnemonic == .sbc

theorem sums_iff (i : Instruction) :
    i.sums = true ↔ i.operation.mnemonic = .adc ∨ i.operation.mnemonic = .sbc := by
  simp [sums]

/-- Compiled code pushes and pulls without looking for a device. While the interrupt line is held a
pull of the flags is left to the interpreter. -/
def usesStack (i : Instruction) (cpu : Cpu) : Bool :=
  [Mnemonic.pha, .php, .pla, .plp, .jsr, .rts, .brk].contains i.operation.mnemonic
    && !(i.operation.mnemonic == .plp && cpu.irq)

/-- Compiled code does not write back the old value of what it changes in page zero. -/
def changesPageZero (i : Instruction) : Bool :=
  i.operation.memUse == .readWrite
    && (i.operation.mode == .zeroPage || i.operation.mode == .zeroPageX)

/-- Compiled code reads the pointer of a decimal sum, which the interpreter then reads again. -/
def pointsTwice (i : Instruction) (cpu : Cpu) : Bool :=
  i.sums && cpu.decimal
    && (i.operation.mode == .indexedIndirect || i.operation.mode == .indirectIndexed)

/-- What compiled code takes for granted of pages 0 and 1: they are no devices where it would reach
them in another way than the interpreter. -/
structure Suits (i : Instruction) (cpu : Cpu) (m : PagedMemory σ) : Prop where
  stack : i.usesStack cpu = true → m.kindAt 0x0100 ≠ .device
  change : i.changesPageZero = true → m.kindAt 0 ≠ .device
  pointer : i.pointsTwice cpu = true → m.kindAt 0 ≠ .device

theorem suits_of_lowPlain (i : Instruction) (cpu : Cpu) {m : PagedMemory σ} (low : m.LowPlain) :
    i.Suits cpu m :=
  ⟨fun _ => low _ (by decide), fun _ => low _ (by decide), fun _ => low _ (by decide)⟩

def performed (i : Instruction) (s : Machine σ) : (Step × Cpu) × DeviceBus (PagedMemory σ) :=
  Interpreter.perform i.opcode i.low i.high s.cpu ⟨s.memory⟩

/-- Compiled code has no cycles of its own for the instruction: the interpreter tells them. -/
def bounced (i : Instruction) (s : Machine σ) : Bool :=
  i.needsInterpreter s.memory || i.sums && s.cpu.decimal

/-- The cycle that a decimal sum has given back by the time that the interpreter takes over. Compiled
code looks at the decimal flag only behind the addressing mode, and what that gives back for staying
on the page is not charged again. -/
def early (i : Instruction) (o : LoweringOptions) (s : Machine σ) : Int :=
  if o.exactTimings && (i.sums && s.cpu.decimal) && !i.needsInterpreter s.memory then
    (i.maxCycles o).toNat - (i.performed s).1.1.cycles
  else
    0

def price (i : Instruction) (o : LoweringOptions) (s : Machine σ) : Int :=
  if o.exactTimings || i.bounced s then
    (i.performed s).1.1.cycles - i.early o s
  else
    i.operation.cycles.toNat

theorem early_native {i : Instruction} {s : Machine σ} (native : i.bounced s = false)
    (o : LoweringOptions) : i.early o s = 0 := by
  obtain ⟨_, binary⟩ := Bool.or_eq_false_iff.mp native
  unfold early
  rw [binary, Bool.and_false, Bool.false_and]
  rfl

end Instruction

/-- An instruction to be executed natively, from the machine that `start` is. -/
structure Task (σ : Type) where
  instr : Instruction
  options : LoweringOptions
  last : Bool
  start : Machine σ
  /-- The budget once the run of the instruction is charged. -/
  budget : Int

def Instruction.task {σ : Type} (i : Instruction) (o : LoweringOptions) (last : Bool)
    (c : Core (PagedMemory σ)) : Task σ :=
  ⟨i, o, last, c.machine i.addr, c.cpu.budget⟩

namespace Task

variable {σ : Type}

def performed (t : Task σ) : (Step × Cpu) × DeviceBus (PagedMemory σ) :=
  t.instr.performed t.start

def bounced (t : Task σ) : Bool :=
  t.instr.bounced t.start

def early (t : Task σ) : Int :=
  t.instr.early t.options t.start

def price (t : Task σ) : Int :=
  t.instr.price t.options t.start

def next (t : Task σ) : Addr :=
  t.instr.addr + t.instr.operation.len.toUInt16

/-- The instruction is done and `pc` is next. Of the cycles charged for it, those that it did not
take are given back. -/
structure Reached (t : Task σ) (pc : Addr) (d : Core (PagedMemory σ)) : Prop where
  native : t.bounced = false
  completes : t.performed.1.1.exit = none
  lands : d.machine pc = ⟨t.performed.1.2, t.performed.2.memory⟩
  quiet : t.start.cpu.interruptDue = false → d.cpu.interruptDue = false
  budget : d.cpu.budget + t.price = t.budget + (t.instr.maxCycles t.options).toNat

/-- Nothing has happened so far that the program sees, and so many cycles are given back. -/
structure Untouched (t : Task σ) (given : Int) (d : Core (PagedMemory σ)) : Prop where
  lands : d.machine t.instr.addr = t.start
  budget : d.cpu.budget = t.budget + given

def Meets (t : Task σ) : Outcome → Core (PagedMemory σ) → Prop
  | .next, _ | .stale _, _ => True
  | .jump pc, d =>
    t.Reached pc d ∧ (t.instr.operation.branch ≠ .never ∨ t.last = true)
  | .bounce a, d =>
    a = t.instr.addr ∧ t.Untouched t.early d ∧ t.price = t.performed.1.1.cycles - t.early
  | .observe a, d => a = t.instr.addr ∧ d.machine a = t.start ∧ d.cpu.budget = t.budget
  | .leave a why, d =>
    a = t.instr.addr ∧ t.Untouched 0 d ∧ t.performed.1.1.exit = some why
  | .charge a cycles, d =>
    a = t.instr.addr ∧ d.machine a = t.start ∧ d.cpu.budget = t.budget + cycles.toNat
  | .illegal _, _ => False

abbrev Runs (t : Task σ) : List HostOp → Core (PagedMemory σ) → Prop :=
  Native.Along (fun _ => t.Meets) (t.Reached t.next)

abbrev GoesOn (t : Task σ) (ops : List HostOp) : Prop :=
  ∀ d, t.Reached t.next d → t.Runs ops d

theorem runs_of_strip {t : Task σ} {ops : List HostOp} {c : Core (PagedMemory σ)}
    (fits : c.bus.Fits) (h : t.Runs ops c.strip) : t.Runs ops c := by
  refine Native.Along.of_strip h fits ?_ fun _ reached => ⟨reached.1, reached.2, reached.3, reached.4, reached.5⟩
  intro _ out d meets
  cases out with
  | next | stale => trivial
  | illegal => exact meets
  | jump =>
    obtain ⟨reached, leaves⟩ := meets
    exact ⟨⟨reached.1, reached.2, reached.3, reached.4, reached.5⟩, leaves⟩
  | bounce =>
    obtain ⟨addr, untouched, price⟩ := meets
    exact ⟨addr, ⟨untouched.1, untouched.2⟩, price⟩
  | leave =>
    obtain ⟨addr, untouched, exit⟩ := meets
    exact ⟨addr, ⟨untouched.1, untouched.2⟩, exit⟩
  | charge | observe => exact meets

theorem runs_next {t : Task σ} {op : HostOp} {ops : List HostOp} {c d : Core (PagedMemory σ)}
    (ends : Native.execOp op c = (.next, d)) (rest : t.Runs ops d) : t.Runs (op :: ops) c :=
  (Native.along_next ends).mpr ⟨trivial, rest⟩

theorem runs_stop {t : Task σ} {op : HostOp} {ops : List HostOp} {c d : Core (PagedMemory σ)}
    {out : Outcome} (ends : Native.execOp op c = (out, d)) (meets : t.Meets out d)
    (stops : ∀ d', ¬ Native.Continues out d d') : t.Runs (op :: ops) c := by
  refine ⟨?_, ?_⟩
  · rw [ends]
    exact meets
  · rw [ends]
    exact fun d' goes => absurd goes (stops d')

theorem runs_jump {t : Task σ} {op : HostOp} {ops : List HostOp} {c d : Core (PagedMemory σ)}
    {pc : Addr} (ends : Native.execOp op c = (.jump pc, d)) (reached : t.Reached pc d)
    (leaves : t.instr.operation.branch ≠ .never ∨ t.last = true) : t.Runs (op :: ops) c :=
  runs_stop ends ⟨reached, leaves⟩ fun _ goes => nomatch goes

theorem runs_bounce {t : Task σ} {op : HostOp} {ops : List HostOp} {c d : Core (PagedMemory σ)}
    (ends : Native.execOp op c = (.bounce t.instr.addr, d)) (untouched : t.Untouched t.early d)
    (price : t.price = t.performed.1.1.cycles - t.early) : t.Runs (op :: ops) c :=
  runs_stop ends ⟨rfl, untouched, price⟩ fun _ goes => nomatch goes

theorem price_exact {t : Task σ} (native : t.bounced = false) (timed : t.options.exactTimings = true) :
    t.price = t.performed.1.1.cycles := by
  have free : t.instr.early t.options t.start = 0 := Instruction.early_native native t.options
  unfold price Instruction.price
  rw [timed, Bool.true_or, if_pos rfl, free]
  exact Int.sub_zero _

theorem price_bounced {t : Task σ} (bounced : t.bounced = true) :
    t.price = t.performed.1.1.cycles - t.early := by
  have bounced : t.instr.bounced t.start = true := bounced
  unfold price Instruction.price
  rw [bounced, Bool.or_true]
  rfl

end Task

end Mos6502
