/-! Hexadecimal text, lowercase, as messages show addresses and bytes. -/
namespace Mos6502.Text

def hexDigits (width n : Nat) : String :=
  let digits := Nat.toDigits 16 n
  String.ofList (List.replicate (width - digits.length) '0' ++ digits)

def hexByte (b : UInt8) : String :=
  hexDigits 2 b.toNat

/-- An opcode or an immediate value: two digits. -/
def hex2 (b : UInt8) : String :=
  "0x" ++ hexByte b

def hex4 (a : UInt16) : String :=
  "0x" ++ hexDigits 4 a.toNat

/-- A host offset: as many digits as it needs. -/
def hexOffset (n : Nat) : String :=
  "0x" ++ hexDigits 1 n

def hexBytes (bs : List UInt8) : String :=
  String.join (bs.map hexByte)

end Mos6502.Text
