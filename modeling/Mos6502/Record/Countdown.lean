import Mos6502.Record.Basic

/-! Countdown runs. A run starts at a record with a countdown and reaches to the next such
record; its head charges the cycles of the whole run. -/
namespace Mos6502.Record

def restOfRun : List Record → UInt32
  | [] => 0
  | r :: rs => if r.startsRun then 0 else r.maxCycles.toUInt32 + restOfRun rs

def checkHead (r : Record) : Except Fault Unit :=
  if !r.startsRun then
    .ok ()
  else if r.uops.length < 2 then
    .error (.runWithoutBody r.addr)
  else if !(r.uops.head?.any (·.uop.isCountdown)) then
    .error (.runWithoutCountdown r.addr)
  else
    .ok ()

def setTotal (r : Record) (total : UInt32) : Record :=
  { r.setCountdown total with runTotal := some total }

def setTotals : List Record → List Record
  | [] => []
  | r :: rs =>
    let r := if r.startsRun then r.setTotal (r.maxCycles.toUInt32 + restOfRun rs) else r
    r :: setTotals rs

/-- Charge every run at its head. The first record has to start a run, and every head needs a
countdown with a body after it. -/
def chargeRuns (records : List Record) : Except Fault (List Record) := do
  if records.head?.any (!·.startsRun) then
    throw .recordOutsideRun
  records.forM checkHead
  return setTotals records

end Mos6502.Record
