import Mos6502.Cpu.OpcodeTable
import Mos6502.Memory.Basic
import Mos6502.Record.Basic

/-! From an instruction in guest memory to its micro-operations: an optional observer call, the
addressing mode, the retirement of code that a store may hit, preparation, the main body and the
flags after it. An instruction that has no static translation becomes one interpreter call. -/
namespace Mos6502

structure LoweringOptions where
  debug : Bool := false
  exactTimings : Bool := false
  zeroPageCode : Bool := false

structure Instruction where
  addr : Addr
  opcode : UInt8
  low : UInt8
  high : UInt8

namespace Instruction

def fetch {M : Type} [GuestMemory M] (m : M) (addr : Addr) : Instruction where
  addr := addr
  opcode := GuestMemory.read m addr
  low := GuestMemory.read m (addr + 1)
  high := GuestMemory.read m (addr + 2)

def operation (i : Instruction) : Operation :=
  operationOf i.opcode

/-- Immediate value, address or branch target, or else the address of the instruction. -/
def operand (i : Instruction) : UInt16 :=
  match i.operation.mode with
  | .immediate | .zeroPage => i.low.toUInt16
  | .relative => i.addr + 2 + signExtend i.low
  | .absolute | .absoluteX | .absoluteY | .indirect => word i.low i.high
  | _ => i.addr

/-- Indexing can leave the page: from its first byte it cannot. -/
def mayCrossPage (i : Instruction) : Bool :=
  match i.operation.mode with
  | .absolute | .absoluteX | .absoluteY => lowByte i.operand != 0
  | _ => true

def rangeEnd (i : Instruction) : Addr :=
  if i.operation.mode = .absolute then i.operand else i.operand + 0xFF

/-- An absolute operand goes past the last address, or begins or ends at a device. -/
def rangeNeedsInterpreter {M : Type} [GuestMemory M] (m : M) (i : Instruction) : Bool :=
  let first := i.operand
  let last := i.rangeEnd
  decide (last < first)
    || (i.operation.memUse.reads
      && (GuestMemory.readsDevice m first || GuestMemory.readsDevice m last))
    || (i.operation.memUse.writes
      && (GuestMemory.writesDevice m first || GuestMemory.writesDevice m last))

/-- No static translation. A return from interrupt lands anywhere, so it is never translated. -/
def needsInterpreter {M : Type} [GuestMemory M] (m : M) (i : Instruction) : Bool :=
  match i.operation.mode with
  | .absolute | .absoluteX | .absoluteY => i.rangeNeedsInterpreter m
  | _ => i.operation.mnemonic == .rti

def maxCycles (o : LoweringOptions) (i : Instruction) : UInt8 :=
  let penalty : UInt8 :=
    if !o.exactTimings then 0
    else match i.operation.mode with
      | .absoluteX | .absoluteY | .indirectIndexed =>
        if i.operation.memUse = .read ∧ i.mayCrossPage then 1 else 0
      | .relative => if highByte (i.addr + 2) ≠ highByte i.operand then 2 else 1
      | _ => 0
  i.operation.cycles + penalty

def refundsCrossing (o : LoweringOptions) (i : Instruction) : Bool :=
  o.exactTimings && i.operation.memUse == .read && i.mayCrossPage

def observeUops (o : LoweringOptions) (i : Instruction) : List Uop :=
  if o.debug then [.observe i.addr] else []

def modeUops (o : LoweringOptions) (i : Instruction) : List Uop :=
  match i.operation.mode with
  | .zeroPageX => [.pointZeroX i.low]
  | .zeroPageY => [.pointZeroY i.low]
  | .absoluteX => if i.refundsCrossing o then [.refundX i.operand] else []
  | .absoluteY => if i.refundsCrossing o then [.refundY i.operand] else []
  | .indirect => [.follow i.operand]
  | .indexedIndirect => [.pointZeroX i.low, .followScratch]
  | .indirectIndexed =>
    .follow i.low.toUInt16 :: if i.refundsCrossing o then [.refundScratchY] else []
  | _ => []

/-- Code at the address about to be written is retired first. Page zero is exempt unless code
there is asked for. -/
def retireUops (o : LoweringOptions) (i : Instruction) : List Uop :=
  if i.operation.memUse.writes then
    match i.operation.mode with
    | .absolute => [.retire i.operand i.addr]
    | .absoluteX => [.pointX i.operand, .retireScratch i.addr]
    | .absoluteY => [.pointY i.operand, .retireScratch i.addr]
    | .indexedIndirect => [.retireScratch i.addr]
    | .indirectIndexed => [.retireScratchY i.addr]
    | .zeroPage => if o.zeroPageCode then [.retire i.operand i.addr] else []
    | .zeroPageX | .zeroPageY => if o.zeroPageCode then [.retireScratch i.addr] else []
    | _ => []
  else
    []

def beforeUops (i : Instruction) : List Uop :=
  match i.operation.mnemonic with
  | .adc => [.interpretIfDecimal i.addr, .carryIn]
  | .bcc | .bcs | .rol | .ror => [.carryIn]
  | .bvc | .bvs => [.overflowIn]
  | .cli | .plp => [.interpretIfIrq i.addr]
  | .jsr => [.pushWord (i.addr + 2)]
  | .rts => [.pullScratch, .incrScratch]
  | .sbc => [.interpretIfDecimal i.addr, .borrowIn]
  | _ => []

/-- A load of zero sets its flags at once. -/
def loadsZero (i : Instruction) : Bool :=
  i.operation.mode == .immediate && i.low == 0

def mainUops (i : Instruction) : List Uop :=
  match i.operation.mnemonic with
  | .brk =>
    [.pushWord (i.addr + 2), .raw 0x08 0, .raw 0x78 0, .follow vectorIrq, .jumpScratch]
  | .jmp => if i.operation.mode = .indirect then [.jumpScratch] else [.jump i.operand]
  | .jsr => [.jump i.operand]
  | .lda => if i.loadsZero then [.clearA] else [.raw i.opcode i.operand]
  | .ldx => if i.loadsZero then [.clearX] else [.raw i.opcode i.operand]
  | .ldy => if i.loadsZero then [.clearY] else [.raw i.opcode i.operand]
  | .rts => [.jumpScratch]
  | .unknown => [.undefined i.opcode i.addr]
  | _ => [.raw i.opcode i.operand]

def afterUops (o : LoweringOptions) (i : Instruction) : List Uop :=
  match i.operation.mnemonic with
  | .adc => [.carryOut, .overflowOut]
  | .alr | .asl | .lsr | .slo => [.carryOut]
  -- Only reached when the branch is not taken.
  | .bcc | .bcs | .beq | .bmi | .bne | .bpl | .bvc | .bvs =>
    if o.exactTimings then [.refund (i.maxCycles o - 2)] else []
  | .cmp | .cpx | .cpy => [.borrowOut]
  | .lda => if i.loadsZero then [] else [.testA]
  | .txa | .tya | .pla => [.testA]
  | .ldx => if i.loadsZero then [] else [.testX]
  | .tax | .tsx => [.testX]
  | .ldy => if i.loadsZero then [] else [.testY]
  | .tay => [.testY]
  | .rol | .ror => .carryOut :: if i.operation.mode = .accumulator then [.testA] else []
  | .sbc => [.borrowOut, .overflowOut]
  | _ => []

def bodyUops (o : LoweringOptions) (i : Instruction) : List Uop :=
  i.modeUops o ++ i.retireUops o ++ i.beforeUops ++ i.mainUops ++ i.afterUops o

end Instruction

def lower {M : Type} [GuestMemory M] (m : M) (o : LoweringOptions) (addr : Addr) : Record :=
  let i := Instruction.fetch m addr
  let interpreted := i.needsInterpreter m
  let body := if interpreted then [.interpret addr] else i.bodyUops o
  { addr
    opcode := i.opcode
    operand := i.operand
    len := i.operation.len
    maxCycles := i.maxCycles o
    branch := i.operation.branch
    endsBlock := interpreted || i.operation.branch == .always
    uops := (i.observeUops o ++ body).map (⟨·, 0⟩) }

end Mos6502
