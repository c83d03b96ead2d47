import Mos6502.Cpu.Opcode
import Mos6502.Cpu.State

/-! Arithmetic on bytes: sums and differences with their flags, the decimal forms, shifts. -/
namespace Mos6502.Alu

structure Sum where
  result : UInt8
  carry : Bool
  overflow : Bool
  deriving DecidableEq

def add (a m : UInt8) (carry : Bool) : Sum :=
  let wide := a.toUInt16 + m.toUInt16 + carry.toUInt16
  let result := wide.toUInt8
  { result
    carry := wide > 0xFF
    overflow := anyBit ((a ^^^ result) &&& (m ^^^ result)) 0x80 }

/-- The carry of a difference is its borrow. -/
def sub (a m : UInt8) (borrow : Bool) : Sum :=
  let result := a - m - borrow.toUInt8
  { result
    carry := a.toNat < m.toNat + borrow.toNat
    overflow := anyBit ((a ^^^ m) &&& (a ^^^ result)) 0x80 }

/-- A decimal sum: zero comes from the binary sum, sign and overflow from the high digit
before it is corrected. -/
structure DecimalSum where
  result : UInt8
  carry : Bool
  overflow : Bool
  zero : Bool
  negative : Bool
  deriving DecidableEq

def addDecimal (a m : UInt8) (carry : Bool) : DecimalSum :=
  let a := a.toUInt16
  let m := m.toUInt16
  let c := carry.toUInt16
  let low := (a &&& 0x0F) + (m &&& 0x0F) + c
  let low := if low > 9 then low + 6 else low
  let high := (a >>> 4) + (m >>> 4) + (low > 0x0F : Bool).toUInt16
  let corrected := if high > 9 then high + 6 else high
  { result := ((corrected <<< 4) ||| (low &&& 0x0F)).toUInt8
    carry := corrected > 0x0F
    overflow := ((a ^^^ m) &&& 0x80 == 0) && ((a ^^^ (high <<< 4)) &&& 0x80 != 0)
    zero := (a + m + c) &&& 0xFF == 0
    negative := high &&& 0x08 != 0 }

/-- The digits of a decimal difference; its flags are those of the binary one. -/
def subDecimal (a m : UInt8) (borrow : Bool) : UInt8 :=
  let lowBorrows := (a &&& 0x0F) < (m &&& 0x0F) + borrow.toUInt8
  let low := (a &&& 0x0F) - (m &&& 0x0F) - borrow.toUInt8
  let low := if lowBorrows then low - 6 else low
  let highBorrows := (a >>> 4) < (m >>> 4) + (lowBorrows : Bool).toUInt8
  let high := (a >>> 4) - (m >>> 4) - (lowBorrows : Bool).toUInt8
  let high := if highBorrows then high - 6 else high
  (high <<< 4) ||| (low &&& 0x0F)

structure Shifted where
  result : UInt8
  carry : Bool
  deriving DecidableEq

def shiftLeft (v : UInt8) : Shifted :=
  ⟨v <<< 1, anyBit v 0x80⟩

def shiftRight (v : UInt8) : Shifted :=
  ⟨v >>> 1, anyBit v 0x01⟩

def rotateLeft (v : UInt8) (carry : Bool) : Shifted :=
  ⟨v <<< 1 ||| carry.toUInt8, anyBit v 0x80⟩

def rotateRight (v : UInt8) (carry : Bool) : Shifted :=
  ⟨v >>> 1 ||| carry.toUInt8 <<< 7, anyBit v 0x01⟩

/-- The shift that a mnemonic performs; every other mnemonic rotates right. -/
def shift (m : Mnemonic) (v : UInt8) (carry : Bool) : Shifted :=
  match m with
  | .asl | .slo => shiftLeft v
  | .lsr => shiftRight v
  | .rol => rotateLeft v carry
  | _ => rotateRight v carry

end Mos6502.Alu
