import Mos6502.Cpu.Alu
import Mos6502.Cpu.OpcodeTable
import Mos6502.Engine.CodeBus
import Mos6502.HostCode.HostOp
import Mos6502.Interpreter

/-! What compiled code does, one micro-operation at a time. Micro-operations work on the
registers, on plain memory for the stack, and on the bus for everything else; what they cannot
decide alone they ask of the engine. -/
namespace Mos6502

inductive Outcome where
  | next
  | jump (target : Addr)
  /-- The instruction at `pc` retired a block, perhaps the running one. -/
  | stale (pc : Addr)
  | bounce (addr : Addr)
  | leave (addr : Addr) (why : Stop)
  | charge (addr : Addr) (cycles : UInt32)
  | observe (addr : Addr)
  | illegal (mnemonic : Mnemonic)
  deriving DecidableEq

structure Core (M : Type) where
  cpu : Cpu
  bus : CodeBus M

namespace Native

variable {M : Type} [GuestMemory M] [PlainLoad M]

abbrev Exec (M : Type) := StateM (Core M)

def getCpu : Exec M Cpu :=
  fun ⟨cpu, bus⟩ => (cpu, ⟨cpu, bus⟩)

def onCpu (f : Cpu → Cpu) : Exec M Unit :=
  fun ⟨cpu, bus⟩ => ((), ⟨f cpu, bus⟩)

def load (a : Addr) : Exec M UInt8 :=
  fun ⟨cpu, bus⟩ =>
    let (v, bus) := bus.load a
    (v, ⟨cpu, bus⟩)

def put (a : Addr) (v : UInt8) : Exec M Unit :=
  fun ⟨cpu, bus⟩ => ((), ⟨cpu, bus.put a v⟩)

/-- A push neither retires code nor reaches a device. -/
def push (v : UInt8) : Exec M Unit :=
  fun ⟨cpu, ⟨memory, blocks, deviceFrom⟩⟩ =>
    ((), ⟨{ cpu with s := cpu.s - 1 },
      ⟨GuestMemory.write memory (stackAddr cpu.s) v, blocks, deviceFrom⟩⟩)

def pull : Exec M UInt8 :=
  fun ⟨cpu, ⟨memory, blocks, deviceFrom⟩⟩ =>
    let s := cpu.s + 1
    let (v, memory) := PlainLoad.load memory (stackAddr s)
    (v, ⟨{ cpu with s }, ⟨memory, blocks, deviceFrom⟩⟩)

def loadPointer (a : Addr) : Exec M UInt16 := do
  let lo ← load a
  let hi ← load (nextInPage a)
  return word lo hi

def retire (a pc : Addr) : Exec M Outcome :=
  fun ⟨cpu, bus⟩ =>
    let outcome := if bus.blocks.isCovered a then .stale pc else .next
    (outcome, ⟨cpu, bus.retire a⟩)

def refundSamePage (base : Addr) (index : UInt8) (c : Cpu) : Cpu :=
  if samePage base (base + index.toUInt16) then { c with budget := c.budget + 1 } else c

/-- A sum or difference with its flags left in the host carry and overflow. -/
def takeSum (sum : Alu.Sum) (c : Cpu) : Cpu :=
  { c with a := sum.result, hostCarry := sum.carry, hostOverflow := sum.overflow }.withZN sum.result

def takeA (v : UInt8) (c : Cpu) : Cpu :=
  { c with a := v }.withZN v

def compare (register m : UInt8) (c : Cpu) : Cpu :=
  { c with hostCarry := register < m }.withZN (register - m)

/-- The processor after a raw opcode that only reads its operand `m`. Flags that have a
micro-operation of their own are left alone. -/
def readEffect (mnemonic : Mnemonic) (m : UInt8) (c : Cpu) : Cpu :=
  match mnemonic with
  | .adc => takeSum (Alu.add c.a m c.hostCarry) c
  | .sbc => takeSum (Alu.sub c.a m c.hostCarry) c
  | .and => takeA (c.a &&& m) c
  | .ora => takeA (c.a ||| m) c
  | .eor => takeA (c.a ^^^ m) c
  | .alr =>
    let shifted := Alu.shiftRight (c.a &&& m)
    takeA shifted.result { c with hostCarry := shifted.carry }
  | .bit =>
    { c with zero := c.a &&& m == 0, negative := anyBit m 0x80, overflow := anyBit m 0x40 }
  | .cmp => compare c.a m c
  | .cpx => compare c.x m c
  | .cpy => compare c.y m c
  | .lda => { c with a := m }
  | .ldx => { c with x := m }
  | .ldy => { c with y := m }
  | _ => c

def modify (mnemonic : Mnemonic) (v : UInt8) (c : Cpu) : UInt8 × Cpu :=
  match mnemonic with
  | .inc => (v + 1, c.withZN (v + 1))
  | .dec => (v - 1, c.withZN (v - 1))
  | _ =>
    let shifted := Alu.shift mnemonic v c.hostCarry
    (shifted.result, { c with hostCarry := shifted.carry }.withZN shifted.result)

def impliedEffect (mnemonic : Mnemonic) (c : Cpu) : Cpu :=
  match mnemonic with
  | .inx => { c with x := c.x + 1 }.withZN (c.x + 1)
  | .iny => { c with y := c.y + 1 }.withZN (c.y + 1)
  | .dex => { c with x := c.x - 1 }.withZN (c.x - 1)
  | .dey => { c with y := c.y - 1 }.withZN (c.y - 1)
  | .tax => { c with x := c.a }
  | .tay => { c with y := c.a }
  | .txa => { c with a := c.x }
  | .tya => { c with a := c.y }
  | .tsx => { c with x := c.s }
  | .txs => { c with s := c.x }
  | .clc => { c with carry := false }
  | .sec => { c with carry := true }
  | .clv => { c with overflow := false }
  | .cli => c.setMasked false
  | .sei => c.setMasked true
  | .cld => c.setDecimal false
  | .sed => c.setDecimal true
  | _ => c

def branchTaken (mnemonic : Mnemonic) (c : Cpu) : Bool :=
  match mnemonic with
  | .bcc => !c.hostCarry
  | .bcs => c.hostCarry
  | .beq => c.zero
  | .bne => !c.zero
  | .bmi => c.negative
  | .bpl => !c.negative
  | .bvc => !c.hostOverflow
  | _ => c.hostOverflow

def operandAddr (mode : AddrMode) (operand : UInt16) (c : Cpu) : Addr :=
  match mode with
  | .zeroPageX | .zeroPageY | .indexedIndirect => c.scratch
  | .absoluteX => operand + c.x.toUInt16
  | .absoluteY => operand + c.y.toUInt16
  | .indirectIndexed => c.scratch + c.y.toUInt16
  | _ => operand

def loadOperand (mode : AddrMode) (operand : UInt16) : Exec M UInt8 := do
  if mode = .immediate then
    return operand.toUInt8
  else
    load (operandAddr mode operand (← getCpu))

/-- Read, modify, write. With `checked` the old value is written back first. -/
def modifyOperand (op : Operation) (operand : UInt16) (checked : Bool) : Exec M Unit := do
  let ea := operandAddr op.mode operand (← getCpu)
  let v ← load ea
  let (result, cpu) := modify op.mnemonic v (← getCpu)
  onCpu fun _ => cpu
  if checked then
    put ea v
  put ea result
  if op.mnemonic = .slo then
    onCpu fun c => takeA (c.a ||| result) c

def raw (opcode : UInt8) (operand : UInt16) (checked : Bool) : Exec M Outcome := do
  let op := operationOf opcode
  match op.mnemonic with
  | .adc | .sbc | .and | .ora | .eor | .alr | .bit | .cmp | .cpx | .cpy | .lda | .ldx | .ldy =>
    let m ← loadOperand op.mode operand
    onCpu (readEffect op.mnemonic m)
    return .next
  | .nop =>
    if op.mode ≠ .implied ∧ op.mode ≠ .immediate then
      let _ ← loadOperand op.mode operand
    return .next
  | .sta | .stx | .sty | .sax =>
    let cpu ← getCpu
    put (operandAddr op.mode operand cpu) (Interpreter.storedByte op.mnemonic cpu)
    return .next
  | .asl | .lsr | .rol | .ror | .slo | .inc | .dec =>
    if op.mode = .accumulator then
      onCpu fun c =>
        let (result, c) := modify op.mnemonic c.a c
        { c with a := result }
    else
      modifyOperand op operand checked
    return .next
  | .pha =>
    push (← getCpu).a
    return .next
  | .php =>
    push (← getCpu).pushedFlags
    return .next
  | .pla =>
    let v ← pull
    onCpu fun c => { c with a := v }
    return .next
  | .plp =>
    let p ← pull
    onCpu (·.withFlags p)
    return .next
  | .bcc | .bcs | .beq | .bne | .bmi | .bpl | .bvc | .bvs =>
    return if branchTaken op.mnemonic (← getCpu) then .jump operand else .next
  | .exit => return .leave operand .exit
  | .debugBreak => return .leave operand .debugBreak
  | .crash => return .leave operand .crash
  | .brk | .jmp | .jsr | .rts | .rti | .unknown => return .illegal op.mnemonic
  | _ =>
    onCpu (impliedEffect op.mnemonic)
    return .next

def thenNext (f : Cpu → Cpu) : Exec M Outcome := do
  onCpu f
  return .next

def exec (u : Uop) : Exec M Outcome := do
  match u with
  | .countdown addr cycles => return .charge addr cycles
  | .observe addr => return .observe addr
  | .interpret addr => return .bounce addr
  | .interpretIfDecimal addr => return if (← getCpu).decimal then .bounce addr else .next
  | .interpretIfIrq addr => return if (← getCpu).irq then .bounce addr else .next
  | .refundX base => thenNext fun c => refundSamePage base c.x c
  | .refundY base => thenNext fun c => refundSamePage base c.y c
  | .refundScratchY => thenNext fun c => refundSamePage c.scratch c.y c
  | .refund cycles => thenNext fun c => { c with budget := c.budget + cycles.toNat }
  | .addConst value => thenNext fun c => takeSum (Alu.add c.a value false) c
  | .subConst value => thenNext fun c => takeSum (Alu.sub c.a value false) c
  | .testA => thenNext fun c => c.withZN c.a
  | .testX => thenNext fun c => c.withZN c.x
  | .testY => thenNext fun c => c.withZN c.y
  | .incrScratch => thenNext fun c => { c with scratch := c.scratch + 1 }
  | .jumpScratch => return .jump (← getCpu).scratch
  | .clearA => thenNext fun c => { c with a := 0 }.withZN 0
  | .clearX => thenNext fun c => { c with x := 0 }.withZN 0
  | .clearY => thenNext fun c => { c with y := 0 }.withZN 0
  | .carryIn => thenNext fun c => { c with hostCarry := c.carry }
  | .borrowIn => thenNext fun c => { c with hostCarry := !c.carry }
  | .overflowIn => thenNext fun c => { c with hostOverflow := c.overflow }
  | .carryOut => thenNext fun c => { c with carry := c.hostCarry }
  | .borrowOut => thenNext fun c => { c with carry := !c.hostCarry }
  | .overflowOut => thenNext fun c => { c with overflow := c.hostOverflow }
  | .pointX base => thenNext fun c => { c with scratch := base + c.x.toUInt16 }
  | .pointY base => thenNext fun c => { c with scratch := base + c.y.toUInt16 }
  | .follow addr =>
    let pointer ← loadPointer addr
    thenNext fun c => { c with scratch := pointer }
  | .followScratch =>
    let pointer ← loadPointer (← getCpu).scratch
    thenNext fun c => { c with scratch := pointer }
  | .pointZeroX base => thenNext fun c => { c with scratch := (base + c.x).toUInt16 }
  | .pointZeroY base => thenNext fun c => { c with scratch := (base + c.y).toUInt16 }
  | .pullScratch =>
    let lo ← pull
    let hi ← pull
    thenNext fun c => { c with scratch := word lo hi }
  | .pushWord value =>
    push (highByte value)
    push (lowByte value)
    return .next
  | .storeConst addr value =>
    put addr value
    return .next
  | .retire addr pc => retire addr pc
  | .retireScratch pc => retire (← getCpu).scratch pc
  | .retireScratchY pc =>
    let cpu ← getCpu
    retire (cpu.scratch + cpu.y.toUInt16) pc
  | .jump target => return .jump target
  | .raw opcode operand => raw opcode operand false
  | .undefined opcode addr => return .leave addr (.undefined opcode)

/-- A host instruction; padding does nothing, and traps are not executed. -/
def execOp : HostOp → Exec M Outcome
  | .uop u => exec u
  | .modifyChecked opcode operand => raw opcode operand true
  | .nop | .trap => return .next

end Native

end Mos6502
