import Mos6502.Record.Countdown

/-! The checks that a finished block of records has to pass: it starts a run, every countdown
carries the cycles of its run, and the last record alone ends the block. -/
namespace Mos6502.Record

def checkRun (head : Record) (total : UInt32) : Except Fault Unit :=
  let found := head.uopList.head?
  let charged := match found with
    | some (.countdown _ cycles) => cycles == total
    | _ => false
  if !charged then
    .error (.wrongCountdown head.addr total found)
  else if head.runTotal ≠ some total then
    .error (.wrongTotal head.addr head.runTotal total)
  else
    .ok ()

def checkRuns : List Record → Except Fault Unit
  | [] => .ok ()
  | r :: rs => do
    if r.startsRun then
      checkRun r (r.maxCycles.toUInt32 + restOfRun rs)
    checkRuns rs

def checkEnds (index : Nat) : List Record → Except Fault Unit
  | [] => .ok ()
  | r :: rs => do
    if r.endsBlock ≠ rs.isEmpty then
      throw (.misplacedEnd index r.addr r.endsBlock)
    checkEnds (index + 1) rs

def checkBlock (records : List Record) : Except Fault Unit := do
  match records with
  | [] => throw .emptyBlock
  | first :: _ =>
    if !first.startsRun then
      throw (.blockOutsideRun first.addr)
    checkRuns records
    checkEnds 0 records

end Mos6502.Record
