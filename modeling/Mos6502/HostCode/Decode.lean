import Mos6502.Error
import Mos6502.HostCode.HostOp

/-! Reading host instructions back. The tag fixes the layout of the bytes behind it. -/
namespace Mos6502

/-- The operands behind a tag, and the instruction they make. -/
inductive Layout where
  | bare (i : HostOp)
  | byte (f : UInt8 → Uop)
  | word (f : UInt16 → Uop)
  | wordByte (f : UInt16 → UInt8 → Uop)
  | wordWord (f : UInt16 → UInt16 → Uop)
  | wordLong (f : UInt16 → UInt32 → Uop)
  | byteWord (f : UInt8 → UInt16 → Uop)
  | raw (f : UInt8 → UInt16 → HostOp)

def layoutOf (tag : UInt8) : Option Layout :=
  match tag with
  | 0x90 => some (.bare .nop)
  | 0xCC => some (.bare .trap)
  | 0x01 => some (.wordByte fun addr cycles => .countdown addr cycles.toUInt32)
  | 0x02 => some (.wordLong .countdown)
  | 0x03 => some (.word .observe)
  | 0x04 => some (.word .interpret)
  | 0x05 => some (.word .refundX)
  | 0x06 => some (.word .refundY)
  | 0x07 => some (.bare (.uop .refundScratchY))
  | 0x08 => some (.byte .refund)
  | 0x09 => some (.byte .addConst)
  | 0x0A => some (.byte .subConst)
  | 0x0B => some (.word .interpretIfDecimal)
  | 0x0C => some (.word .interpretIfIrq)
  | 0x0D => some (.bare (.uop .testA))
  | 0x0E => some (.bare (.uop .testX))
  | 0x0F => some (.bare (.uop .testY))
  | 0x10 => some (.bare (.uop .incrScratch))
  | 0x11 => some (.bare (.uop .jumpScratch))
  | 0x12 => some (.bare (.uop .clearA))
  | 0x13 => some (.bare (.uop .clearX))
  | 0x14 => some (.bare (.uop .clearY))
  | 0x15 => some (.bare (.uop .carryIn))
  | 0x16 => some (.bare (.uop .borrowIn))
  | 0x17 => some (.bare (.uop .overflowIn))
  | 0x18 => some (.bare (.uop .carryOut))
  | 0x19 => some (.bare (.uop .borrowOut))
  | 0x1A => some (.bare (.uop .overflowOut))
  | 0x1B => some (.word .pointX)
  | 0x1C => some (.word .pointY)
  | 0x1D => some (.word .follow)
  | 0x1E => some (.bare (.uop .followScratch))
  | 0x1F => some (.byte .pointZeroX)
  | 0x20 => some (.byte .pointZeroY)
  | 0x21 => some (.bare (.uop .pullScratch))
  | 0x22 => some (.word .pushWord)
  | 0x23 => some (.wordByte .storeConst)
  | 0x24 => some (.wordWord .retire)
  | 0x25 => some (.word .retireScratch)
  | 0x26 => some (.word .retireScratchY)
  | 0x27 => some (.word .jump)
  | 0x28 => some (.raw fun byte operand => .uop (.raw byte operand))
  | 0x29 => some (.raw .modifyChecked)
  | 0x2A => some (.byteWord .undefined)
  | _ => none

def longOf (b0 b1 b2 b3 : UInt8) : UInt32 :=
  b0.toUInt32 ||| b1.toUInt32 <<< 8 ||| b2.toUInt32 <<< 16 ||| b3.toUInt32 <<< 24

def Layout.read (layout : Layout) (bytes : List UInt8) : Option (HostOp × Nat) :=
  match layout, bytes with
  | bare i, _ => some (i, 1)
  | byte f, b :: _ => some (.uop (f b), 2)
  | word f, lo :: hi :: _ => some (.uop (f (Mos6502.word lo hi)), 3)
  | wordByte f, lo :: hi :: b :: _ => some (.uop (f (Mos6502.word lo hi) b), 4)
  | wordWord f, lo :: hi :: lo' :: hi' :: _ =>
    some (.uop (f (Mos6502.word lo hi) (Mos6502.word lo' hi')), 5)
  | wordLong f, lo :: hi :: b0 :: b1 :: b2 :: b3 :: _ =>
    some (.uop (f (Mos6502.word lo hi) (longOf b0 b1 b2 b3)), 7)
  | byteWord f, b :: lo :: hi :: _ => some (.uop (f b (Mos6502.word lo hi)), 4)
  | raw f, opcode :: rest =>
    match operandWidth opcode, rest with
    | 0, _ => some (f opcode 0, 2)
    | 1, lo :: _ => some (f opcode lo.toUInt16, 3)
    | _ + 2, lo :: hi :: _ => some (f opcode (Mos6502.word lo hi), 4)
    | _, _ => none
  | _, _ => none

/-- The instruction at the front of `bytes` and its length, if the bytes hold one. -/
def decode (bytes : List UInt8) : Option (HostOp × Nat) :=
  match bytes with
  | [] => none
  | tag :: rest => (layoutOf tag).bind (·.read rest)

def maxOpLen : Nat := 7

def decodeAt (offset : Nat) (bytes : List UInt8) : Except EngineError (HostOp × Nat) :=
  match decode bytes with
  | some found => .ok found
  | none => .error (.strayTrap offset)

structure Listed where
  offset : Nat
  len : Nat
  op : HostOp

/-- At most the given number of instructions from `offset` to the one that reaches `stop`. The
bytes at an offset are `bytesAt` it; the first that hold no instruction end the listing. -/
def listing (bytesAt : Nat → List UInt8) (stop : Nat) :
    Nat → Nat → List (Except EngineError Listed)
  | 0, _ => []
  | n + 1, offset =>
    match decodeAt offset (bytesAt offset) with
    | .error e => [.error e]
    | .ok (op, len) =>
      .ok ⟨offset, len, op⟩ ::
        if stop ≤ offset + len then [] else listing bytesAt stop n (offset + len)

end Mos6502
