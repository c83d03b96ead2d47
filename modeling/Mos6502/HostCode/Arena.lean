import Mos6502.HostCode.Writer
import Mos6502.HostCode.Decode

/-! The arena that holds all host code. Space is given out in windows at a cursor that only
advances; when it runs out everything is dropped at once and the generation goes up. -/
namespace Mos6502

/-- The bytes past `code` are traps. -/
structure Arena where
  capacity : Nat
  code : Array UInt8
  cursor : Nat
  generation : Nat

namespace Arena

def ofSize (size : Nat) : Arena :=
  ⟨size, #[], 0, 0⟩

def space (a : Arena) : Nat :=
  a.capacity - a.cursor

def byte? (a : Arena) (i : Nat) : Option UInt8 :=
  if i < a.capacity then some (a.code.getD i trapByte) else none

def slice (a : Arena) (i : Nat) : Nat → List UInt8
  | 0 => []
  | n + 1 =>
    match a.byte? i with
    | some b => b :: a.slice (i + 1) n
    | none => []

def opBytes (a : Arena) (i : Nat) : List UInt8 :=
  a.slice i maxOpLen

def decodeAt (a : Arena) (offset : Nat) : Except EngineError (HostOp × Nat) :=
  Mos6502.decodeAt offset (a.opBytes offset)

def setByte (a : Arena) (i : Nat) (v : UInt8) : Arena :=
  if i < a.code.size then
    { a with code := a.code.setIfInBounds i v }
  else if i < a.capacity then
    { a with code := (a.code ++ Array.replicate (i - a.code.size) trapByte).push v }
  else
    a

def write (a : Arena) (i : Nat) : List UInt8 → Arena
  | [] => a
  | v :: vs => (a.setByte i v).write (i + 1) vs

/-- Overwrite `n` bytes from `i` on with traps; bytes past `code` are traps already. -/
def trap (a : Arena) (i : Nat) : Nat → Arena
  | 0 => a
  | n + 1 => if i < a.code.size then (a.setByte i trapByte).trap (i + 1) n else a

def window (a : Arena) (size : Nat) : Except Fault CodeWriter :=
  if size ≤ a.space then
    .ok ⟨(a.slice a.cursor size).toArray, 0, UInt32.ofNat a.cursor⟩
  else
    .error (.windowTooLarge size)

/-- A writer over `len` bytes from `offset` on, used or not. -/
def patch (a : Arena) (offset : UInt32) (len : Nat) : Except Fault CodeWriter :=
  if offset.toNat + len ≤ a.capacity then
    .ok ⟨(a.slice offset.toNat len).toArray, 0, offset⟩
  else
    .error .patchPastEnd

def store (a : Arena) (b : CodeWriter) : Arena :=
  a.write b.base.toNat b.bytes.toList

/-- Fill a window of `size` bytes at the cursor: `code`, then traps. -/
def fillWindow (a : Arena) (size : Nat) (code : List UInt8) : Except Fault Arena :=
  if a.space < size then
    .error (.windowTooLarge size)
  else if size < code.length then
    .error (.bufferOverflow (a.cursor + size))
  else
    .ok ((a.write a.cursor code).trap (a.cursor + code.length) (size - code.length))

def replace (a : Arena) (offset len : Nat) (code : List UInt8) : Except Fault Arena :=
  if a.capacity < offset + len then
    .error .patchPastEnd
  else if len < code.length then
    .error (.bufferOverflow (offset + len))
  else
    .ok (a.write offset (code ++ List.replicate (len - code.length) padByte))

def advance (a : Arena) (used : Nat) : Except Fault Arena :=
  if used ≤ a.space then .ok { a with cursor := a.cursor + used } else .error .advancePastEnd

def clear (a : Arena) : Arena :=
  { a.trap 0 a.cursor with cursor := 0, generation := a.generation + 1 }

end Arena

end Mos6502
