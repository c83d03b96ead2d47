import Mos6502.Bus
import Mos6502.Cpu.Alu
import Mos6502.Cpu.OpcodeTable

/-! The reference processor: one instruction at a time, on any bus, with the cycles of the
hardware. Compiled code calls it for what it cannot translate. -/
namespace Mos6502

/-- Why an instruction stopped instead of completing. -/
inductive Stop where
  | exit | debugBreak | crash | undefined (opcode : UInt8)
  deriving DecidableEq

structure Step where
  /-- Cycles taken, penalties included; none on an exit. -/
  cycles : Nat
  exit : Option Stop
  deriving DecidableEq

namespace Interpreter

def interruptCycles : Nat := 7

open Bus

variable {B : Type} [Bus B]

def push (cpu : Cpu) (v : UInt8) : StateM B Cpu := do
  store (stackAddr cpu.s) v
  return { cpu with s := cpu.s - 1 }

def pull (cpu : Cpu) : StateM B (UInt8 × Cpu) := do
  let cpu := { cpu with s := cpu.s + 1 }
  let v ← fetch (stackAddr cpu.s)
  return (v, cpu)

/-- High byte first. -/
def pushWord (cpu : Cpu) (w : UInt16) : StateM B Cpu := do
  let cpu ← push cpu (highByte w)
  push cpu (lowByte w)

def pullWord (cpu : Cpu) : StateM B (UInt16 × Cpu) := do
  let (lo, cpu) ← pull cpu
  let (hi, cpu) ← pull cpu
  return (word lo hi, cpu)

def interrupt (cpu : Cpu) : StateM B (Nat × Cpu) := do
  let cpu ← pushWord cpu cpu.pc
  let cpu ← push cpu ((cpu.flags &&& ~~~flagB) ||| flagBit5)
  let cpu := cpu.setMasked true
  let lo ← fetch vectorIrq
  let hi ← fetch (vectorIrq + 1)
  return (interruptCycles, { cpu with pc := word lo hi })

structure Resolved where
  /-- The address before indexing, where crossing a page costs a cycle. -/
  base : Addr
  effective : Addr

def resolve (mode : AddrMode) (cpu : Cpu) (low high : UInt8) (next : Addr) :
    StateM B Resolved := do
  match mode with
  | .implied | .accumulator | .immediate => return ⟨0, 0⟩
  | .zeroPage => return ⟨0, low.toUInt16⟩
  | .zeroPageX => return ⟨0, (low + cpu.x).toUInt16⟩
  | .zeroPageY => return ⟨0, (low + cpu.y).toUInt16⟩
  | .absolute => return ⟨0, word low high⟩
  | .absoluteX => return ⟨word low high, word low high + cpu.x.toUInt16⟩
  | .absoluteY => return ⟨word low high, word low high + cpu.y.toUInt16⟩
  | .indirect => return ⟨0, ← fetchPointer (word low high)⟩
  | .indexedIndirect => return ⟨0, ← fetchPointer (low + cpu.x).toUInt16⟩
  | .indirectIndexed =>
    let base ← fetchPointer low.toUInt16
    return ⟨base, base + cpu.y.toUInt16⟩
  | .relative => return ⟨0, next + signExtend low⟩

/-- A read past the end of a page takes one more cycle. -/
def indexPenalty (op : Operation) (r : Resolved) : Nat :=
  match op.memUse, op.mode with
  | .read, .absoluteX | .read, .absoluteY | .read, .indirectIndexed =>
    if samePage r.base r.effective then 0 else 1
  | _, _ => 0

def addTo (cpu : Cpu) (m : UInt8) : Cpu :=
  if cpu.decimal then
    let sum := Alu.addDecimal cpu.a m cpu.carry
    { cpu with
      a := sum.result, carry := sum.carry, overflow := sum.overflow
      zero := sum.zero, negative := sum.negative }
  else
    let sum := Alu.add cpu.a m cpu.carry
    { cpu with a := sum.result, carry := sum.carry, overflow := sum.overflow }.withZN sum.result

def subtractFrom (cpu : Cpu) (m : UInt8) : Cpu :=
  let difference := Alu.sub cpu.a m !cpu.carry
  let result := if cpu.decimal then Alu.subDecimal cpu.a m !cpu.carry else difference.result
  { cpu with
    a := result, carry := !difference.carry
    overflow := difference.overflow }.withZN difference.result

def compare (cpu : Cpu) (register m : UInt8) : Cpu :=
  { cpu with carry := m ≤ register }.withZN (register - m)

def loadA (cpu : Cpu) (v : UInt8) : Cpu :=
  { cpu with a := v }.withZN v

def loadX (cpu : Cpu) (v : UInt8) : Cpu :=
  { cpu with x := v }.withZN v

def loadY (cpu : Cpu) (v : UInt8) : Cpu :=
  { cpu with y := v }.withZN v

def readEffect (mnemonic : Mnemonic) (cpu : Cpu) (m : UInt8) : Cpu :=
  match mnemonic with
  | .adc => addTo cpu m
  | .sbc => subtractFrom cpu m
  | .and => loadA cpu (cpu.a &&& m)
  | .ora => loadA cpu (cpu.a ||| m)
  | .eor => loadA cpu (cpu.a ^^^ m)
  | .alr =>
    let shifted := Alu.shiftRight (cpu.a &&& m)
    loadA { cpu with carry := shifted.carry } shifted.result
  | .bit =>
    { cpu with
      zero := cpu.a &&& m == 0, negative := anyBit m 0x80, overflow := anyBit m 0x40 }
  | .cmp => compare cpu cpu.a m
  | .cpx => compare cpu cpu.x m
  | .cpy => compare cpu cpu.y m
  | .lda => loadA cpu m
  | .ldx => loadX cpu m
  | .ldy => loadY cpu m
  | _ => cpu

def storedByte (mnemonic : Mnemonic) (cpu : Cpu) : UInt8 :=
  match mnemonic with
  | .sta => cpu.a
  | .stx => cpu.x
  | .sty => cpu.y
  | _ => cpu.a &&& cpu.x

def modify (mnemonic : Mnemonic) (cpu : Cpu) (v : UInt8) : UInt8 × Cpu :=
  match mnemonic with
  | .inc => (v + 1, cpu.withZN (v + 1))
  | .dec => (v - 1, cpu.withZN (v - 1))
  | _ =>
    let shifted := Alu.shift mnemonic v cpu.carry
    (shifted.result, { cpu with carry := shifted.carry }.withZN shifted.result)

def impliedEffect (mnemonic : Mnemonic) (cpu : Cpu) : Cpu :=
  match mnemonic with
  | .inx => loadX cpu (cpu.x + 1)
  | .iny => loadY cpu (cpu.y + 1)
  | .dex => loadX cpu (cpu.x - 1)
  | .dey => loadY cpu (cpu.y - 1)
  | .tax => loadX cpu cpu.a
  | .tay => loadY cpu cpu.a
  | .txa => loadA cpu cpu.x
  | .tya => loadA cpu cpu.y
  | .tsx => loadX cpu cpu.s
  | .txs => { cpu with s := cpu.x }
  | .clc => { cpu with carry := false }
  | .sec => { cpu with carry := true }
  | .clv => { cpu with overflow := false }
  | .cli => cpu.setMasked false
  | .sei => cpu.setMasked true
  | .cld => cpu.setDecimal false
  | .sed => cpu.setDecimal true
  | _ => cpu

def branchTaken (mnemonic : Mnemonic) (cpu : Cpu) : Bool :=
  match mnemonic with
  | .bcc => !cpu.carry
  | .bcs => cpu.carry
  | .bne => !cpu.zero
  | .beq => cpu.zero
  | .bpl => !cpu.negative
  | .bmi => cpu.negative
  | .bvc => !cpu.overflow
  | _ => cpu.overflow

/-- A taken branch costs a cycle, and another one when it leaves the page. -/
def branchPenalty (next target : Addr) : Nat :=
  if samePage next target then 1 else 2

def done (cpu : Cpu) (pc : Addr) (cycles : Nat) : Step × Cpu :=
  (⟨cycles, none⟩, { cpu with pc })

/-- Execute an instruction at `cpu.pc` whose bytes have been read. On an exit the processor is
left as it was. -/
def perform (opcode low high : UInt8) (cpu : Cpu) : StateM B (Step × Cpu) := do
  let op := operationOf opcode
  let next := cpu.pc + op.len.toUInt16
  let r ← resolve op.mode cpu low high next
  let ea := r.effective
  let cycles := op.cycles.toNat + indexPenalty op r
  let operand : StateM B UInt8 := if op.mode = .immediate then pure low else fetch ea
  match op.mnemonic with
  | .adc | .sbc | .and | .ora | .eor | .alr | .bit | .cmp | .cpx | .cpy | .lda | .ldx | .ldy =>
    let m ← operand
    return done (readEffect op.mnemonic cpu m) next cycles
  | .nop =>
    if op.mode ≠ .implied ∧ op.mode ≠ .immediate then
      let _ ← operand
    return done cpu next cycles
  | .sta | .stx | .sty | .sax =>
    store ea (storedByte op.mnemonic cpu)
    return done cpu next cycles
  | .asl | .lsr | .rol | .ror | .slo | .inc | .dec =>
    if op.mode = .accumulator then
      let (v, cpu) := modify op.mnemonic cpu cpu.a
      return done { cpu with a := v } next cycles
    else
      let v ← fetch ea
      store ea v
      let (v, cpu) := modify op.mnemonic cpu v
      store ea v
      let cpu := if op.mnemonic = .slo then loadA cpu (cpu.a ||| v) else cpu
      return done cpu next cycles
  | .pha =>
    let cpu ← push cpu cpu.a
    return done cpu next cycles
  | .php =>
    let cpu ← push cpu cpu.pushedFlags
    return done cpu next cycles
  | .pla =>
    let (v, cpu) ← pull cpu
    return done (loadA cpu v) next cycles
  | .plp =>
    let (p, cpu) ← pull cpu
    return done (cpu.withFlags p) next cycles
  | .bcc | .bcs | .bne | .beq | .bpl | .bmi | .bvc | .bvs =>
    if branchTaken op.mnemonic cpu then
      return done cpu ea (cycles + branchPenalty next ea)
    else
      return done cpu next cycles
  | .jmp => return done cpu ea cycles
  | .jsr =>
    let cpu ← pushWord cpu (cpu.pc + 2)
    return done cpu ea cycles
  | .rts =>
    let (pc, cpu) ← pullWord cpu
    return done cpu (pc + 1) cycles
  | .rti =>
    let (p, cpu) ← pull cpu
    let (pc, cpu) ← pullWord (cpu.withFlags p)
    return done cpu pc cycles
  | .brk =>
    let cpu ← pushWord cpu (cpu.pc + 2)
    let cpu ← push cpu cpu.pushedFlags
    let pc ← fetchPointer vectorIrq
    return done (cpu.setMasked true) pc cycles
  | .exit => return (⟨0, some .exit⟩, cpu)
  | .debugBreak => return (⟨0, some .debugBreak⟩, cpu)
  | .crash => return (⟨0, some .crash⟩, cpu)
  | .unknown => return (⟨0, some (.undefined opcode)⟩, cpu)
  | _ => return done (impliedEffect op.mnemonic cpu) next cycles

/-- Execute the instruction at `cpu.pc`. Operand bytes are read only as far as it has any. -/
def step (cpu : Cpu) : StateM B (Step × Cpu) := do
  let opcode ← fetch cpu.pc
  let len := (operationOf opcode).len
  let low ← if 2 ≤ len then fetch (cpu.pc + 1) else pure 0
  let high ← if 3 ≤ len then fetch (cpu.pc + 2) else pure 0
  perform opcode low high cpu

structure Stretch where
  instructions : Nat
  cycles : Nat
  exit : Option Step

/-- At most `n` more instructions after `sofar`, ending after one that does not complete. -/
def stepsAfter (sofar : Stretch) (cpu : Cpu) : Nat → StateM B (Stretch × Cpu)
  | 0 => return (sofar, cpu)
  | n + 1 => do
    let (step, cpu) ← step cpu
    let sofar : Stretch :=
      { instructions := sofar.instructions + 1
        cycles := sofar.cycles + step.cycles
        exit := if step.exit.isSome then some step else none }
    if step.exit.isSome then
      return (sofar, cpu)
    else
      stepsAfter sofar cpu n

def steps (cpu : Cpu) (n : Nat) : StateM B (Stretch × Cpu) :=
  stepsAfter ⟨0, 0, none⟩ cpu n

end Interpreter

end Mos6502
