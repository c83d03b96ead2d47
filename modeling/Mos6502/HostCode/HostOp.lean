import Mos6502.Cpu.OpcodeTable
import Mos6502.Memory.Basic
import Mos6502.Uop.Basic

/-! Host instructions and their bytes: one tag byte, then the operands, low byte first.
A raw opcode keeps only the operand bytes that its addressing mode needs. -/
namespace Mos6502

/-- The byte that pads re-emitted code to its old length. -/
def padByte : UInt8 := 0x90

def trapByte : UInt8 := 0xCC

inductive HostOp where
  | uop (u : Uop)
  /-- Read-modify-write where memory may be more than RAM: the old value is written back before
  the new one. -/
  | modifyChecked (opcode : UInt8) (operand : UInt16)
  | nop
  | trap
  deriving DecidableEq

/-- Operand bytes behind a raw opcode. One that stops the run keeps its own address, a branch
its target. -/
def operandWidth (opcode : UInt8) : Nat :=
  let op := operationOf opcode
  match op.mnemonic, op.mode with
  | .exit, _ | .debugBreak, _ | .crash, _ | _, .relative => 2
  | _, _ => op.len.toNat - 1

def wordCode (w : UInt16) : List UInt8 :=
  [lowByte w, highByte w]

def longCode (n : UInt32) : List UInt8 :=
  [n.toUInt8, (n >>> 8).toUInt8, (n >>> 16).toUInt8, (n >>> 24).toUInt8]

def operandCode (opcode : UInt8) (operand : UInt16) : List UInt8 :=
  match operandWidth opcode with
  | 0 => []
  | 1 => [lowByte operand]
  | _ => wordCode operand

def storedOperand (opcode : UInt8) (operand : UInt16) : UInt16 :=
  match operandWidth opcode with
  | 0 => 0
  | 1 => (lowByte operand).toUInt16
  | _ => operand

def Uop.code : Uop → List UInt8
  | countdown addr cycles =>
    if cycles ≤ 0xFF then 0x01 :: wordCode addr ++ [cycles.toUInt8]
    else 0x02 :: wordCode addr ++ longCode cycles
  | observe addr => 0x03 :: wordCode addr
  | interpret addr => 0x04 :: wordCode addr
  | refundX base => 0x05 :: wordCode base
  | refundY base => 0x06 :: wordCode base
  | refundScratchY => [0x07]
  | refund cycles => [0x08, cycles]
  | addConst value => [0x09, value]
  | subConst value => [0x0A, value]
  | interpretIfDecimal addr => 0x0B :: wordCode addr
  | interpretIfIrq addr => 0x0C :: wordCode addr
  | testA => [0x0D]
  | testX => [0x0E]
  | testY => [0x0F]
  | incrScratch => [0x10]
  | jumpScratch => [0x11]
  | clearA => [0x12]
  | clearX => [0x13]
  | clearY => [0x14]
  | carryIn => [0x15]
  | borrowIn => [0x16]
  | overflowIn => [0x17]
  | carryOut => [0x18]
  | borrowOut => [0x19]
  | overflowOut => [0x1A]
  | pointX base => 0x1B :: wordCode base
  | pointY base => 0x1C :: wordCode base
  | follow addr => 0x1D :: wordCode addr
  | followScratch => [0x1E]
  | pointZeroX base => [0x1F, base]
  | pointZeroY base => [0x20, base]
  | pullScratch => [0x21]
  | pushWord value => 0x22 :: wordCode value
  | storeConst addr value => 0x23 :: wordCode addr ++ [value]
  | retire addr pc => 0x24 :: wordCode addr ++ wordCode pc
  | retireScratch pc => 0x25 :: wordCode pc
  | retireScratchY pc => 0x26 :: wordCode pc
  | jump target => 0x27 :: wordCode target
  | raw byte operand => 0x28 :: byte :: operandCode byte operand
  | undefined byte addr => 0x2A :: byte :: wordCode addr

def jumpSize : Nat := 3

namespace HostOp

def code : HostOp → List UInt8
  | uop u => u.code
  | modifyChecked opcode operand => 0x29 :: opcode :: operandCode opcode operand
  | nop => [padByte]
  | trap => [trapByte]

/-- A read-modify-write opcode whose operand may reach more than RAM. -/
def needsCheck {M : Type} [GuestMemory M] (m : M) (opcode : UInt8) (operand : UInt16) : Bool :=
  let op := operationOf opcode
  op.memUse == .readWrite && match op.mode with
    | .absolute => !GuestMemory.isPlainRam m operand
    | .absoluteX =>
      !GuestMemory.isPlainRam m operand || !GuestMemory.isPlainRam m (operand + 0xFF)
    | _ => false

def ofUop {M : Type} [GuestMemory M] (m : M) : Uop → HostOp
  | .raw byte operand =>
    let stored := storedOperand byte operand
    if needsCheck m byte operand then modifyChecked byte stored else uop (.raw byte stored)
  | u => uop u

end HostOp

def emit {M : Type} [GuestMemory M] (m : M) (u : Uop) : List UInt8 :=
  (HostOp.ofUop m u).code

end Mos6502
