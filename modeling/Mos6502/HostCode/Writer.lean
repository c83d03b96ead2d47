import Mos6502.Error

/-! A write cursor over a stretch of host code. `base` is the arena offset of its first byte, so
the cursor always names an arena offset too. -/
namespace Mos6502

structure CodeWriter where
  bytes : Array UInt8
  pos : Nat
  base : UInt32

namespace CodeWriter

def capacity (b : CodeWriter) : Nat :=
  b.bytes.size

def remaining (b : CodeWriter) : Nat :=
  b.capacity - b.pos

def hostOffset (b : CodeWriter) : Except Fault Nat :=
  let offset := b.base.toNat + b.pos
  if offset < UInt32.size then .ok offset else .error .offsetOverflow

def seek (b : CodeWriter) (pos : Nat) : Except Fault CodeWriter :=
  if pos ≤ b.capacity then .ok { b with pos } else .error .cursorPastEnd

/-- The failure to write past the end names the offset of the cursor. -/
def overflow (b : CodeWriter) : Fault :=
  match b.hostOffset with
  | .ok offset => .bufferOverflow offset
  | .error fault => fault

/-- Write one byte; a full buffer stays as it is. -/
def push (b : CodeWriter) (v : UInt8) : Except Fault CodeWriter :=
  if b.pos < b.capacity then
    .ok { b with bytes := b.bytes.setIfInBounds b.pos v, pos := b.pos + 1 }
  else
    .error b.overflow

def pushAll (b : CodeWriter) : List UInt8 → CodeWriter × Except Fault Unit
  | [] => (b, .ok ())
  | v :: vs =>
    match b.push v with
    | .ok b => b.pushAll vs
    | .error fault => (b, .error fault)

def written (b : CodeWriter) : List UInt8 :=
  b.bytes.toList.take b.pos

/-- Copy in what was written to another buffer, or nothing. -/
def append (b : CodeWriter) (other : CodeWriter) : Except Fault CodeWriter :=
  if other.pos ≤ b.remaining then
    .ok (b.pushAll other.written).1
  else
    .error b.overflow

def fillRest (b : CodeWriter) (v : UInt8) : CodeWriter :=
  (b.pushAll (List.replicate b.remaining v)).1

end CodeWriter

end Mos6502
