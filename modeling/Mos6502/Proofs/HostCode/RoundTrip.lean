import Mos6502.HostCode.Decode

/-! Decoding undoes encoding: the bytes of a host instruction are read back as that instruction,
whatever comes behind them. -/
namespace Mos6502

theorem word_lowByte_highByte (w : UInt16) : word (lowByte w) (highByte w) = w := by
  apply UInt16.toNat.inj
  have hw := w.toNat_lt
  simp only [word, lowByte, highByte, UInt16.toNat_or, UInt16.toNat_shiftLeft,
    UInt8.toNat_toUInt16, UInt16.toNat_toUInt8, UInt16.toNat_shiftRight]
  have high : w.toNat >>> 8 % 2 ^ 8 = w.toNat / 2 ^ 8 := by
    rw [Nat.shiftRight_eq_div_pow]
    omega
  have shifted : (w.toNat / 2 ^ 8) <<< 8 % 2 ^ 16 = (w.toNat / 2 ^ 8) <<< 8 := by
    rw [Nat.shiftLeft_eq]
    omega
  have small : w.toNat % 2 ^ 8 < 2 ^ 8 := by omega
  change ((w.toNat >>> 8 % 2 ^ 8) <<< 8 % 2 ^ 16 ||| w.toNat % 2 ^ 8) = w.toNat
  rw [high, shifted, ← Nat.shiftLeft_add_eq_or_of_lt small, Nat.shiftLeft_eq]
  omega

theorem longOf_bytes (n : UInt32) :
    longOf n.toUInt8 (n >>> 8).toUInt8 (n >>> 16).toUInt8 (n >>> 24).toUInt8 = n := by
  apply UInt32.toNat.inj
  have hn := n.toNat_lt
  simp only [longOf, UInt32.toNat_or, UInt32.toNat_shiftLeft, UInt8.toNat_toUInt32,
    UInt32.toNat_toUInt8, UInt32.toNat_shiftRight]
  change (((n.toNat % 2 ^ 8 ||| (n.toNat >>> 8 % 2 ^ 8) <<< 8 % 2 ^ 32)
    ||| (n.toNat >>> 16 % 2 ^ 8) <<< 16 % 2 ^ 32)
    ||| (n.toNat >>> 24 % 2 ^ 8) <<< 24 % 2 ^ 32) = n.toNat
  simp only [Nat.shiftRight_eq_div_pow]
  have b1 : ((n.toNat / 2 ^ 8 % 2 ^ 8) <<< 8) % 2 ^ 32 = (n.toNat / 2 ^ 8 % 2 ^ 8) <<< 8 := by
    rw [Nat.shiftLeft_eq]; omega
  have b2 : ((n.toNat / 2 ^ 16 % 2 ^ 8) <<< 16) % 2 ^ 32 = (n.toNat / 2 ^ 16 % 2 ^ 8) <<< 16 := by
    rw [Nat.shiftLeft_eq]; omega
  have b3 : ((n.toNat / 2 ^ 24 % 2 ^ 8) <<< 24) % 2 ^ 32 = (n.toNat / 2 ^ 24 % 2 ^ 8) <<< 24 := by
    rw [Nat.shiftLeft_eq]; omega
  have s0 : n.toNat % 2 ^ 8 < 2 ^ 8 := by omega
  rw [b1, b2, b3, Nat.or_comm (n.toNat % 2 ^ 8), ← Nat.shiftLeft_add_eq_or_of_lt s0]
  have s1 : (n.toNat / 2 ^ 8 % 2 ^ 8) <<< 8 + n.toNat % 2 ^ 8 < 2 ^ 16 := by
    rw [Nat.shiftLeft_eq]; omega
  rw [Nat.or_comm _ ((n.toNat / 2 ^ 16 % 2 ^ 8) <<< 16), ← Nat.shiftLeft_add_eq_or_of_lt s1]
  have s2 : (n.toNat / 2 ^ 16 % 2 ^ 8) <<< 16
      + ((n.toNat / 2 ^ 8 % 2 ^ 8) <<< 8 + n.toNat % 2 ^ 8) < 2 ^ 24 := by
    simp only [Nat.shiftLeft_eq]; omega
  rw [Nat.or_comm _ ((n.toNat / 2 ^ 24 % 2 ^ 8) <<< 24), ← Nat.shiftLeft_add_eq_or_of_lt s2]
  simp only [Nat.shiftLeft_eq]
  omega

theorem toUInt8_toUInt32_of_le {n : UInt32} (small : n ≤ 0xFF) : n.toUInt8.toUInt32 = n := by
  apply UInt32.toNat.inj
  have h : n.toNat ≤ 255 := small
  simp only [UInt8.toNat_toUInt32, UInt32.toNat_toUInt8]
  omega

namespace HostOp

/-- A raw operand holds no more than its encoding keeps. -/
def Stored : HostOp → Prop
  | uop (.raw opcode operand) | modifyChecked opcode operand =>
    storedOperand opcode operand = operand
  | _ => True

theorem storedOperand_idem (opcode : UInt8) (operand : UInt16) :
    storedOperand opcode (storedOperand opcode operand) = storedOperand opcode operand := by
  unfold storedOperand
  cases operandWidth opcode with
  | zero => rfl
  | succ n =>
    cases n with
    | zero =>
      apply UInt16.toNat.inj
      have h := (lowByte operand).toNat_lt
      change (lowByte (lowByte operand).toUInt16).toUInt16.toNat = (lowByte operand).toUInt16.toNat
      simp only [lowByte, UInt8.toNat_toUInt16, UInt16.toNat_toUInt8]
      omega
    | succ n => rfl

theorem stored_ofUop {M : Type} [GuestMemory M] (m : M) (u : Uop) : (ofUop m u).Stored := by
  cases u with
  | raw opcode operand =>
    unfold ofUop
    dsimp only
    split
    · exact storedOperand_idem opcode operand
    · exact storedOperand_idem opcode operand
  | _ => trivial

theorem read_raw (f : UInt8 → UInt16 → HostOp) {opcode : UInt8} {operand : UInt16}
    (stored : storedOperand opcode operand = operand) (rest : List UInt8) :
    (Layout.raw f).read (opcode :: (operandCode opcode operand ++ rest))
      = some (f opcode operand, 2 + (operandCode opcode operand).length) := by
  unfold storedOperand at stored
  unfold operandCode
  cases hw : operandWidth opcode with
  | zero =>
    rw [hw] at stored
    simp only [Layout.read, hw, ← stored]
    rfl
  | succ n =>
    rw [hw] at stored
    cases n with
    | zero =>
      simp only [Layout.read, hw, List.cons_append]
      rw [show (lowByte operand).toUInt16 = operand from stored]
      rfl
    | succ n =>
      simp only [Layout.read, hw, wordCode, List.cons_append]
      rw [word_lowByte_highByte]
      rfl

theorem decode_uop {u : Uop} (stored : (uop u).Stored) (rest : List UInt8) :
    decode (u.code ++ rest) = some (uop u, u.code.length) := by
  cases u with
  | countdown addr cycles =>
    by_cases small : cycles ≤ 0xFF
    · simp only [Uop.code, if_pos small]
      change some (uop (.countdown (word (lowByte addr) (highByte addr)) cycles.toUInt8.toUInt32), 4)
        = some (uop (.countdown addr cycles), 4)
      rw [word_lowByte_highByte, toUInt8_toUInt32_of_le small]
    · simp only [Uop.code, if_neg small]
      change some (uop (.countdown (word (lowByte addr) (highByte addr))
          (longOf cycles.toUInt8 (cycles >>> 8).toUInt8 (cycles >>> 16).toUInt8
            (cycles >>> 24).toUInt8)), 7) = some (uop (.countdown addr cycles), 7)
      rw [word_lowByte_highByte, longOf_bytes]
  | observe a | interpret a | interpretIfDecimal a | interpretIfIrq a | refundX a | refundY a
  | pointX a | pointY a | follow a | pushWord a | retireScratch a | retireScratchY a | jump a =>
    simp only [Uop.code, wordCode, List.cons_append, List.nil_append, decode, layoutOf,
      Option.bind_some, Layout.read, word_lowByte_highByte, List.length_cons, List.length_nil]
  | storeConst a v =>
    simp only [Uop.code, wordCode, List.cons_append, List.nil_append, decode, layoutOf,
      Option.bind_some, Layout.read, word_lowByte_highByte, List.length_cons, List.length_nil]
  | retire a pc =>
    simp only [Uop.code, wordCode, List.cons_append, List.nil_append, decode, layoutOf,
      Option.bind_some, Layout.read, word_lowByte_highByte, List.length_cons, List.length_nil]
  | undefined b a =>
    simp only [Uop.code, wordCode, List.cons_append, List.nil_append, decode, layoutOf,
      Option.bind_some, Layout.read, word_lowByte_highByte, List.length_cons, List.length_nil]
  | raw byte operand =>
    simp only [Uop.code, List.cons_append, decode, layoutOf, Option.bind_some]
    rw [read_raw _ stored]
    simp only [List.length_cons, Option.some.injEq, Prod.mk.injEq, true_and]
    omega
  | refund c | addConst c | subConst c | pointZeroX c | pointZeroY c => rfl
  | refundScratchY | testA | testX | testY | clearA | clearX | clearY | carryIn | borrowIn
  | overflowIn | carryOut | borrowOut | overflowOut | followScratch | incrScratch | jumpScratch
  | pullScratch => rfl

theorem decode_code {op : HostOp} (stored : op.Stored) (rest : List UInt8) :
    decode (op.code ++ rest) = some (op, op.code.length) := by
  cases op with
  | uop u => exact decode_uop stored rest
  | modifyChecked opcode operand =>
    simp only [code, List.cons_append, decode, layoutOf, Option.bind_some]
    rw [read_raw _ stored]
    simp only [List.length_cons, Option.some.injEq, Prod.mk.injEq, true_and]
    omega
  | nop => rfl
  | trap => rfl

theorem code_length_pos (op : HostOp) : 0 < op.code.length := by
  cases op with
  | uop u =>
    cases u with
    | countdown a c => simp only [code, Uop.code]; split <;> simp
    | _ => simp [code, Uop.code]
  | _ => simp [code]

theorem code_length_le (op : HostOp) : op.code.length ≤ maxOpLen := by
  have operands : ∀ b v, (operandCode b v).length ≤ 2 := by
    intro b v
    unfold operandCode
    split <;> simp [wordCode]
  cases op with
  | uop u =>
    cases u with
    | countdown a c => simp only [code, Uop.code]; split <;> simp [maxOpLen, wordCode, longCode]
    | raw b v =>
      have short := operands b v
      simp only [code, Uop.code, maxOpLen, List.length_cons]
      omega
    | _ => simp [code, Uop.code, maxOpLen, wordCode]
  | modifyChecked b v =>
    have short := operands b v
    simp only [code, maxOpLen, List.length_cons]
    omega
  | _ => simp [code, maxOpLen]

end HostOp

end Mos6502
