import Mos6502.Word

/-! Micro-operations: what an instruction is lowered to.
Addressing modes leave the effective address in the scratch word, arithmetic works on a carry and
an overflow of its own, and `raw` is the main body of an instruction that has no other form. -/
namespace Mos6502

inductive Uop where
  /-- Charge `cycles`, or leave before `addr` when the budget does not cover them. -/
  | countdown (addr : Addr) (cycles : UInt32)
  | observe (addr : Addr)
  | interpret (addr : Addr)
  | interpretIfDecimal (addr : Addr)
  /-- The same while the interrupt line is held, masked or not. -/
  | interpretIfIrq (addr : Addr)
  /-- Give a cycle back when base + X stays on the page. -/
  | refundX (base : Addr)
  | refundY (base : Addr)
  | refundScratchY
  | refund (cycles : UInt8)
  | addConst (value : UInt8)
  | subConst (value : UInt8)
  | testA
  | testX
  | testY
  | clearA
  | clearX
  | clearY
  /-- The carry flag becomes the host carry. -/
  | carryIn
  /-- The carry flag becomes the host carry inverted, as a borrow. -/
  | borrowIn
  | overflowIn
  /-- The host carry becomes the carry flag. -/
  | carryOut
  | borrowOut
  | overflowOut
  | pointX (base : Addr)
  | pointY (base : Addr)
  /-- Scratch = base + X within page zero. -/
  | pointZeroX (base : UInt8)
  | pointZeroY (base : UInt8)
  | follow (addr : Addr)
  | followScratch
  | incrScratch
  | jumpScratch
  | pullScratch
  | pushWord (value : UInt16)
  | storeConst (addr : Addr) (value : UInt8)
  /-- Retire compiled code at an address that the instruction at `pc` is about to write. -/
  | retire (addr pc : Addr)
  | retireScratch (pc : Addr)
  | retireScratchY (pc : Addr)
  | jump (target : Addr)
  | raw (opcode : UInt8) (operand : UInt16)
  | undefined (opcode : UInt8) (addr : Addr)
  deriving DecidableEq

def Uop.isCountdown : Uop → Bool
  | countdown .. => true
  | _ => false

end Mos6502
