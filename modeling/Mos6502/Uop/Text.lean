import Mos6502.Text.Hex
import Mos6502.Uop.Basic

/-! Micro-operations as text: a name with its fields in order, or a short form. -/
namespace Mos6502.Uop

def name : Uop → String
  | countdown .. => "Countdown"
  | observe _ => "Debug"
  | interpret _ => "Interp"
  | refundX _ => "AbxCheckPageCrossing"
  | refundY _ => "AbyCheckPageCrossing"
  | refundScratchY => "IdyCheckPageCrossing"
  | refund _ => "AddCycles"
  | addConst _ => "AddImm"
  | subConst _ => "SubImm"
  | interpretIfDecimal _ => "CheckBcd"
  | interpretIfIrq _ => "CheckPendingIrq"
  | testA => "FlagA"
  | testX => "FlagX"
  | testY => "FlagY"
  | incrScratch => "IncScratch"
  | jumpScratch => "JmpScratch"
  | clearA => "LdaZero"
  | clearX => "LdxZero"
  | clearY => "LdyZero"
  | carryIn => "LoadCarry"
  | borrowIn => "LoadCarryInv"
  | overflowIn => "LoadOverflow"
  | carryOut => "SaveCarry"
  | borrowOut => "SaveCarryInv"
  | overflowOut => "SaveOverflow"
  | pointX _ => "ModeAbx"
  | pointY _ => "ModeAby"
  | follow _ => "ModeInd"
  | followScratch => "ModeIndScratch"
  | pointZeroX _ => "ModeZpx"
  | pointZeroY _ => "ModeZpy"
  | pullScratch => "Pull16"
  | pushWord _ => "Push16"
  | storeConst .. => "StoreImm"
  | retire .. => "WriteInvAbs"
  | retireScratch _ => "WriteInvScratch"
  | retireScratchY _ => "WriteInvScratchY"
  | jump _ => "Jmp"
  | raw .. => "Opcode"
  | undefined .. => "Undefined"

def fields : Uop → List (String × Nat)
  | countdown addr cycles => [("addr", addr.toNat), ("cycles", cycles.toNat)]
  | observe addr | interpret addr | interpretIfDecimal addr | interpretIfIrq addr | follow addr =>
    [("addr", addr.toNat)]
  | refundX base | refundY base | pointX base | pointY base =>
    [("base", base.toNat)]
  | refund cycles => [("cycles", cycles.toNat)]
  | addConst value | subConst value => [("value", value.toNat)]
  | pointZeroX base | pointZeroY base => [("base", base.toNat)]
  | pushWord value => [("value", value.toNat)]
  | storeConst addr value => [("addr", addr.toNat), ("value", value.toNat)]
  | retire addr pc => [("addr", addr.toNat), ("pc", pc.toNat)]
  | retireScratch pc | retireScratchY pc => [("pc", pc.toNat)]
  | jump target => [("target", target.toNat)]
  | raw byte operand => [("opcode", byte.toNat), ("operand", operand.toNat)]
  | undefined byte addr => [("opcode", byte.toNat), ("addr", addr.toNat)]
  | _ => []

def toStructureText (u : Uop) : String :=
  match u.fields with
  | [] => u.name
  | fields =>
    let parts := fields.map fun (field, value) => field ++ ": " ++ toString value
    u.name ++ " \x7b " ++ ", ".intercalate parts ++ " \x7d"

/-- The micro-operations a listing is full of have a short form. -/
def toText (u : Uop) : String :=
  match u with
  | countdown addr cycles => "countdown(" ++ Text.hex4 addr ++ ", " ++ toString cycles ++ ")"
  | observe addr => "debug(" ++ Text.hex4 addr ++ ")"
  | interpret addr => "interp(" ++ Text.hex4 addr ++ ")"
  | jump target => "jmp(" ++ Text.hex4 target ++ ")"
  | raw byte operand => "op" ++ Text.hexByte byte ++ "(" ++ Text.hex4 operand ++ ")"
  | storeConst addr value => "stoa_imm(" ++ Text.hex4 addr ++ ", " ++ Text.hex2 value ++ ")"
  | other => other.toStructureText

end Mos6502.Uop
