import Mos6502.Cpu.Opcode
import Mos6502.Error

/-! A record is one guest instruction with the micro-operations it was lowered to.
The optimiser may replace micro-operations; the host offset and the total of a countdown run are
filled in as the block takes shape. -/
namespace Mos6502

structure Placed where
  uop : Uop
  hostSize : Nat := 0
  deriving DecidableEq

structure Record where
  addr : Addr
  opcode : UInt8
  /-- Immediate value, address or branch target. -/
  operand : UInt16 := 0
  len : UInt8 := 1
  maxCycles : UInt8 := 0
  branch : Branching := .never
  endsBlock : Bool := false
  uops : List Placed := []
  hostOffset : Option Nat := none
  runTotal : Option UInt32 := none
  deriving DecidableEq

namespace Record

def maxUops : Nat := 16

def push (r : Record) (u : Uop) : Except Fault Record :=
  if r.uops.length < maxUops then
    .ok { r with uops := r.uops ++ [⟨u, 0⟩] }
  else
    .error (.recordFull r.addr)

def pushFront (r : Record) (u : Uop) : Except Fault Record :=
  if r.uops.length < maxUops then
    .ok { r with uops := ⟨u, 0⟩ :: r.uops }
  else
    .error (.recordFull r.addr)

def keepUops (r : Record) (n : Nat) : Record :=
  { r with uops := r.uops.take n }

def addrAfter (r : Record) : Addr :=
  r.addr + r.len.toUInt16

def uopList (r : Record) : List Uop :=
  r.uops.map (·.uop)

def hostSize (r : Record) : Nat :=
  (r.uops.map (·.hostSize)).foldr (· + ·) 0

def startsRun (r : Record) : Bool :=
  r.runTotal.isSome

def countdown? (r : Record) : Option Placed :=
  if r.startsRun then r.uops.head?.filter (·.uop.isCountdown) else none

def setCountdown (r : Record) (cycles : UInt32) : Record :=
  match r.uops with
  | ⟨.countdown addr _, hostSize⟩ :: rest =>
    { r with uops := ⟨.countdown addr cycles, hostSize⟩ :: rest }
  | _ => r

end Record

end Mos6502
