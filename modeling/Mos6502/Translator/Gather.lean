import Mos6502.Record.Countdown
import Mos6502.Translator.Basic

/-! Which instructions a block takes in. It goes on until an instruction that always leaves, an
existing block start, or a limit; then it jumps to where it stopped. -/
namespace Mos6502

def Record.startRun (r : Record) : Except Fault Record :=
  { r with runTotal := some 0 }.pushFront (.countdown r.addr 0)

def Record.close (r : Record) : Except Fault Record := do
  let r ← r.push (.jump r.addrAfter)
  return { r with endsBlock := true }

namespace TranslatorSettings

def maxRecords : Nat := 256

variable {M : Type} [GuestMemory M]

/-- The records from `addr` on, `room` of them at most. Each one that follows a conditional
branch starts a run, because the branch may go there. -/
def gatherFrom (s : TranslatorSettings) (notes : AddrTable AddrNote) (m : M) (addr : Addr)
    (startsRun : Bool) : Nat → Except Fault (List Record)
  | 0 => return []
  | room + 1 => do
    let r := lower m s.options addr
    let r ← if startsRun then r.startRun else pure r
    if r.endsBlock then
      return [r]
    else if (notes.get r.addrAfter).isStart || room == 0 then
      return [← r.close]
    else
      let rest ← s.gatherFrom notes m r.addrAfter (r.branch == .conditional) room
      return r :: rest

def gather (s : TranslatorSettings) (notes : AddrTable AddrNote) (m : M) (start : Addr) :
    Except Fault (List Record) := do
  let records ← s.gatherFrom notes m start true (min maxRecords s.maxOps)
  if records.getLast?.any (·.addrAfter == start) then
    throw (.noProgress start)
  return records

end TranslatorSettings

end Mos6502
