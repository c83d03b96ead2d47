import Mos6502.Translator.Basic

/-! From records to host code. A record goes into the window whole or not at all: where it does
not fit, the block is cut and jumps on to the address of that record. -/
namespace Mos6502

variable {M : Type} [GuestMemory M]

def Record.code (m : M) (r : Record) : List UInt8 :=
  r.uops.flatMap fun p => emit m p.uop

def Record.placeAt (m : M) (hostOffset : Nat) (r : Record) : Record :=
  { r with
    uops := r.uops.map fun p => { p with hostSize := (emit m p.uop).length }
    hostOffset := some hostOffset }

structure Emission where
  kept : List Record
  code : List UInt8
  cutAt : Option Addr

namespace Emission

def maxRecordLen : Nat := 128

/-- The jump to a record that did not fit. Room for it was left by the record before. -/
def cut (m : M) (hostOffset room : Nat) (r : Record) : Except Fault Emission := do
  let _ ← r.pushFront (.jump r.addr)
  let code := emit m (.jump r.addr)
  if room < code.length then
    throw (.bufferOverflow hostOffset)
  return { kept := [], code, cutAt := some r.addr }

/-- Emit records one after the other at `hostOffset`, where `room` bytes are left. A record that
does not end the block leaves room for a jump. -/
def ofRecords (m : M) (hostOffset room : Nat) (first : Bool) :
    List Record → Except Fault Emission
  | [] => return { kept := [], code := [], cutAt := none }
  | r :: rs => do
    let code := r.code m
    if maxRecordLen < code.length then
      throw (.bufferOverflow (hostOffset + maxRecordLen))
    let needed := code.length + if r.endsBlock then 0 else jumpSize
    if needed ≤ room then
      let rest ← ofRecords m (hostOffset + code.length) (room - code.length) false rs
      return { rest with kept := r.placeAt m hostOffset :: rest.kept, code := code ++ rest.code }
    else if first then
      throw (.instructionTooLong r.addr)
    else
      cut m hostOffset room r

end Emission

end Mos6502
