import Mos6502.Cpu.OpcodeTable
import Mos6502.Record.Basic

/-! Rewriting with known values. Walking a block in order, an immediate sum with a known carry
needs no carry, and a store of a known register needs no register. Nothing is known on entry. -/
namespace Mos6502.Record

structure Known where
  a : Option UInt8 := none
  x : Option UInt8 := none
  y : Option UInt8 := none
  carry : Option Bool := none
  deriving DecidableEq

namespace Known

/-- A simpler micro-operation that does the same while the values hold. -/
def rewrite (k : Known) (u : Uop) : Uop :=
  match u with
  | .raw opcode operand =>
    if opcode = 0x69 then
      if k.carry = some false then .addConst operand.toUInt8 else u
    else if opcode = 0xE9 then
      if k.carry = some true then .subConst operand.toUInt8 else u
    else if opcode = 0x84 ∨ opcode = 0x8C then
      k.y.elim u (.storeConst operand)
    else if opcode = 0x85 ∨ opcode = 0x8D then
      k.a.elim u (.storeConst operand)
    else if opcode = 0x86 ∨ opcode = 0x8E then
      k.x.elim u (.storeConst operand)
    else
      u
  | _ => u

def forget (k : Known) (opcode : UInt8) : Known :=
  let op := operationOf opcode
  let k := match op.register with
    | .a => { k with a := none }
    | .x => { k with x := none }
    | .y => { k with y := none }
    | .none => k
  if op.mnemonic.touchesCarry then { k with carry := none } else k

def learn (k : Known) (opcode : UInt8) (operand : UInt16) : Known :=
  if opcode = 0x18 then { k with carry := some false }
  else if opcode = 0x38 then { k with carry := some true }
  else if opcode = 0xA0 then { k with y := some operand.toUInt8 }
  else if opcode = 0xA2 then { k with x := some operand.toUInt8 }
  else if opcode = 0xA9 then { k with a := some operand.toUInt8 }
  else k

end Known

def rewrite (k : Known) (r : Record) : Record :=
  { r with uops := r.uops.map fun p => { p with uop := k.rewrite p.uop } }

def peepholeFrom (k : Known) : List Record → List Record
  | [] => []
  | r :: rs => r.rewrite k :: peepholeFrom ((k.forget r.opcode).learn r.opcode r.operand) rs

def peephole (records : List Record) : List Record :=
  peepholeFrom {} records

end Mos6502.Record
