import Mathlib.Data.List.Forall2
import Mos6502.HostCode.Writer
import Mos6502.Memory.Paged
import Mos6502.Proofs.HostCode.RoundTrip

/-! Emission into a buffer, read back. What was written one instruction after the other is listed
again as those instructions, no cut instruction is mistaken for a shorter one, and over arbitrary
bytes the decoder looks at nothing but the bytes of the instruction it finds. -/
namespace Mos6502

variable {M : Type} [GuestMemory M]

namespace CodeWriter

def emit (m : M) (b : CodeWriter) (u : Uop) : Except Fault (CodeWriter × Nat) :=
  match b.pushAll (Mos6502.emit m u) with
  | (after, .ok ()) => .ok (after, after.pos - b.pos)
  | (_, .error fault) => .error fault

def emitAll (m : M) (b : CodeWriter) : List Uop → Except Fault (CodeWriter × List Nat)
  | [] => .ok (b, [])
  | u :: us => do
    let (b, len) ← b.emit m u
    let (b, lens) ← b.emitAll m us
    return (b, len :: lens)

structure Gets (b : CodeWriter) (code : List UInt8) (after : CodeWriter) : Prop where
  bytes : after.bytes.toList =
    b.bytes.toList.take b.pos ++ code ++ b.bytes.toList.drop (b.pos + code.length)
  pos : after.pos = b.pos + code.length
  base : after.base = b.base

theorem Gets.refl (b : CodeWriter) : b.Gets [] b :=
  ⟨by simp, rfl, rfl⟩

theorem Gets.trans {b mid after : CodeWriter} {xs ys : List UInt8} (first : b.Gets xs mid)
    (room : xs.length ≤ b.remaining) (second : mid.Gets ys after) :
    b.Gets (xs ++ ys) after where
  bytes := by
    have before : (b.bytes.toList.take b.pos ++ xs).length = b.pos + xs.length ∨ xs = [] := by
      cases xs with
      | nil => exact .inr rfl
      | cons x xs =>
        refine .inl ?_
        simp only [remaining, capacity, List.length_cons] at room
        simp only [List.length_append, List.length_take, Array.length_toList, List.length_cons]
        omega
    rcases before with len | rfl
    · have kept : mid.bytes.toList.take (b.pos + xs.length) = b.bytes.toList.take b.pos ++ xs := by
        rw [first.bytes, ← len, List.take_left]
      have later : mid.bytes.toList.drop (b.pos + xs.length + ys.length)
          = b.bytes.toList.drop (b.pos + xs.length + ys.length) := by
        rw [first.bytes, ← List.drop_drop, ← len, List.drop_left, len, List.drop_drop]
      rw [second.bytes, first.pos, kept, later, List.length_append]
      simp only [List.append_assoc, Nat.add_assoc]
    · have same : mid.bytes.toList = b.bytes.toList := by simpa using first.bytes
      have here : mid.pos = b.pos := first.pos
      rw [second.bytes, same, here, List.nil_append]
  pos := by
    rw [second.pos, first.pos, List.length_append, Nat.add_assoc]
  base := second.base.trans first.base

theorem Gets.remaining {b after : CodeWriter} {code : List UInt8} (h : b.Gets code after)
    (room : code.length ≤ b.remaining) : after.remaining = b.remaining - code.length := by
  have size : after.bytes.size = b.bytes.size := by
    have len := congrArg List.length h.bytes
    simp only [CodeWriter.remaining, capacity] at room
    simp only [Array.length_toList, List.length_append, List.length_take, List.length_drop] at len
    omega
  simp only [CodeWriter.remaining, capacity, size, h.pos]
  omega

theorem push_gets {b : CodeWriter} (room : 0 < b.remaining) (v : UInt8) :
    ∃ after, b.push v = .ok after ∧ b.Gets [v] after := by
  have inside : b.pos < b.bytes.size := by
    simp only [CodeWriter.remaining, capacity] at room
    omega
  refine ⟨_, if_pos inside, ?_, rfl, rfl⟩
  rw [Array.toList_setIfInBounds, List.set_eq_take_append_cons_drop, Array.length_toList,
    if_pos inside]
  simp

theorem pushAll_gets {b : CodeWriter} {code : List UInt8} (room : code.length ≤ b.remaining) :
    ∃ after, b.pushAll code = (after, .ok ()) ∧ b.Gets code after := by
  induction code generalizing b with
  | nil => exact ⟨b, rfl, .refl b⟩
  | cons v vs ih =>
    rw [List.length_cons] at room
    have one : [v].length ≤ b.remaining := by rw [List.length_singleton]; omega
    obtain ⟨mid, pushed, first⟩ := push_gets one v
    obtain ⟨after, rest, second⟩ := ih (b := mid) (by
      rw [first.remaining one, List.length_singleton]
      omega)
    exact ⟨after, by rw [pushAll, pushed]; exact rest, first.trans one second⟩

theorem emit_gets (m : M) {b : CodeWriter} {u : Uop}
    (room : (Mos6502.emit m u).length ≤ b.remaining) :
    ∃ after, b.emit m u = .ok (after, (Mos6502.emit m u).length) ∧
      b.Gets (Mos6502.emit m u) after := by
  obtain ⟨after, pushed, gets⟩ := pushAll_gets room
  refine ⟨after, ?_, gets⟩
  simp only [emit, pushed, gets.pos, Nat.add_sub_cancel_left]

theorem emitAll_gets (m : M) {b : CodeWriter} {us : List Uop}
    (room : (us.flatMap (Mos6502.emit m)).length ≤ b.remaining) :
    ∃ after, b.emitAll m us = .ok (after, us.map fun u => (Mos6502.emit m u).length) ∧
      b.Gets (us.flatMap (Mos6502.emit m)) after := by
  induction us generalizing b with
  | nil => exact ⟨b, rfl, .refl b⟩
  | cons u us ih =>
    rw [List.flatMap_cons, List.length_append] at room
    have one : (Mos6502.emit m u).length ≤ b.remaining := by omega
    obtain ⟨mid, done, first⟩ := emit_gets m one
    obtain ⟨after, rest, second⟩ := ih (b := mid) (by rw [first.remaining one]; omega)
    refine ⟨after, ?_, first.trans one second⟩
    rw [emitAll, done]
    change (do let (b, lens) ← mid.emitAll m us; return (b, _ :: lens)) = _
    rw [rest]
    rfl

end CodeWriter

def decodeIn (bytes : List UInt8) (offset : Nat) : Except EngineError (HostOp × Nat) :=
  decodeAt offset (bytes.drop offset)

theorem Layout.read_local {layout : Layout} {bytes : List UInt8} {op : HostOp} {n : Nat}
    (h : layout.read bytes = some (op, n)) :
    ∃ k, n = k + 1 ∧ k ≤ bytes.length ∧
      ∀ rest, layout.read (bytes.take k ++ rest) = some (op, n) := by
  revert h
  fun_cases Layout.read layout bytes
  all_goals intro h
  all_goals cases h
  case case1 => exact ⟨0, rfl, by simp, fun _ => rfl⟩
  case case2 => exact ⟨1, rfl, by simp, fun _ => rfl⟩
  case case3 => exact ⟨2, rfl, by simp, fun _ => rfl⟩
  case case4 => exact ⟨3, rfl, by simp, fun _ => rfl⟩
  case case5 => exact ⟨4, rfl, by simp, fun _ => rfl⟩
  case case6 => exact ⟨6, rfl, by simp, fun _ => rfl⟩
  case case7 => exact ⟨3, rfl, by simp, fun _ => rfl⟩
  -- a raw opcode: its width says how much of the rest is read
  case case8 width => exact ⟨1, rfl, by simp, fun _ => by simp [read, width]⟩
  case case9 width => exact ⟨2, rfl, by simp, fun _ => by simp [read, width]⟩
  case case10 width => exact ⟨3, rfl, by simp, fun _ => by simp [read, width]⟩

/-- What is decoded has a length within the bytes, and only those bytes matter. -/
theorem decode_local {bytes : List UInt8} {op : HostOp} {n : Nat}
    (h : decode bytes = some (op, n)) :
    1 ≤ n ∧ n ≤ bytes.length ∧ ∀ rest, decode (bytes.take n ++ rest) = some (op, n) := by
  cases bytes with
  | nil => cases h
  | cons tag operands =>
    obtain ⟨layout, known, read⟩ := Option.bind_eq_some_iff.mp h
    obtain ⟨k, rfl, inside, same⟩ := layout.read_local read
    refine ⟨by omega, by rw [List.length_cons]; omega, ?_⟩
    intro rest
    rw [List.take_succ_cons, List.cons_append]
    change (layoutOf tag).bind (·.read (operands.take k ++ rest)) = _
    rw [known]
    exact same rest

theorem decodeAt_ok {offset : Nat} {bytes : List UInt8} {op : HostOp} {n : Nat} :
    decodeAt offset bytes = .ok (op, n) ↔ decode bytes = some (op, n) := by
  unfold decodeAt
  split <;> simp_all

/-- An instruction that was cut short holds no instruction at all. -/
theorem HostOp.decode_take_code {op : HostOp} (stored : op.Stored) {k : Nat}
    (short : k < op.code.length) : decode (op.code.take k) = none := by
  cases found : decode (op.code.take k) with
  | none => rfl
  | some result =>
    obtain ⟨other, n⟩ := result
    obtain ⟨_, inside, same⟩ := decode_local found
    -- the instruction found in the front part would be found in the whole as well
    have whole := same (op.code.drop n)
    rw [List.length_take] at inside
    rw [List.take_take, Nat.min_eq_left (by omega), List.take_append_drop] at whole
    have full := decode_code stored []
    rw [List.append_nil, whole] at full
    cases full
    omega

namespace HostOp

/-- A read-modify-write opcode with an absolute operand, or an indexed one, that may reach
something other than RAM. -/
def MayLeaveRam (m : M) (opcode : UInt8) (operand : UInt16) : Prop :=
  (operationOf opcode).memUse = .readWrite ∧
    ((operationOf opcode).mode = .absolute ∧ ¬ GuestMemory.isPlainRam m operand ∨
      (operationOf opcode).mode = .absoluteX ∧
        (¬ GuestMemory.isPlainRam m operand ∨ ¬ GuestMemory.isPlainRam m (operand + 0xFF)))

/-- The host instruction is the micro-operation itself. A raw operand keeps the bytes that its
opcode stores, and only an opcode that may leave RAM writes the old value back first. -/
def Renders (m : M) : Uop → HostOp → Prop
  | .raw opcode operand, op =>
    ∃ stored : UInt16, stored.toNat = operand.toNat % Nat.pow 256 (operandWidth opcode) ∧
      (op = modifyChecked opcode stored ∧ MayLeaveRam m opcode operand ∨
        op = uop (.raw opcode stored) ∧ ¬ MayLeaveRam m opcode operand)
  | u, op => op = uop u

theorem storedOperand_toNat (opcode : UInt8) (operand : UInt16) :
    (storedOperand opcode operand).toNat = operand.toNat % Nat.pow 256 (operandWidth opcode) := by
  have small := operand.toNat_lt
  unfold storedOperand
  split
  · next none =>
    rw [none]
    exact (Nat.mod_one operand.toNat).symm
  · next one => rw [one]; simp [lowByte]
  · next notNone notOne =>
    have wide : 2 ≤ operandWidth opcode := by
      have h₀ : operandWidth opcode ≠ 0 := notNone
      have h₁ : operandWidth opcode ≠ 1 := notOne
      omega
    have fits : Nat.pow 256 2 ≤ Nat.pow 256 (operandWidth opcode) :=
      Nat.pow_le_pow_right (by decide) wide
    rw [Nat.mod_eq_of_lt (Nat.lt_of_lt_of_le small fits)]

theorem needsCheck_iff (m : M) (opcode : UInt8) (operand : UInt16) :
    needsCheck m opcode operand = true ↔ MayLeaveRam m opcode operand := by
  unfold needsCheck MayLeaveRam
  generalize operationOf opcode = operation
  obtain ⟨mnemonic, mode, cycles⟩ := operation
  cases mode <;> simp

theorem renders_ofUop (m : M) (u : Uop) : Renders m u (ofUop m u) := by
  cases u with
  | raw opcode operand =>
    refine ⟨storedOperand opcode operand, storedOperand_toNat opcode operand, ?_⟩
    rw [← needsCheck_iff]
    by_cases check : needsCheck m opcode operand
    · exact .inl ⟨if_pos check, check⟩
    · exact .inr ⟨if_neg check, check⟩
  | _ => rfl

end HostOp

def laidOut (m : M) (offset : Nat) : List Uop → List Listed
  | [] => []
  | u :: us =>
    ⟨offset, (emit m u).length, HostOp.ofUop m u⟩ :: laidOut m (offset + (emit m u).length) us

theorem laidOut_len (m : M) (offset : Nat) (us : List Uop) :
    (laidOut m offset us).map Listed.len = us.map fun u => (emit m u).length := by
  induction us generalizing offset with
  | nil => rfl
  | cons u us ih => simp [laidOut, ih]

theorem laidOut_op (m : M) (offset : Nat) (us : List Uop) :
    List.Forall₂ (HostOp.Renders m) us ((laidOut m offset us).map Listed.op) := by
  induction us generalizing offset with
  | nil => exact .nil
  | cons u us ih => exact .cons (HostOp.renders_ofUop m u) (ih _)

theorem decodeIn_emit (m : M) (u : Uop) (before rest : List UInt8) :
    decodeIn (before ++ (emit m u ++ rest)) before.length
      = .ok (HostOp.ofUop m u, (emit m u).length) := by
  rw [decodeIn, List.drop_left, decodeAt_ok]
  exact HostOp.decode_code (HostOp.stored_ofUop m u) rest

theorem emit_length_pos (m : M) (u : Uop) : 0 < (emit m u).length :=
  (HostOp.ofUop m u).code_length_pos

theorem listing_emitted (m : M) {us : List Uop} (some : us ≠ []) {n : Nat} (enough : us.length ≤ n)
    (before rest : List UInt8) :
    listing (fun i => (before ++ (us.flatMap (emit m) ++ rest)).drop i)
        (before.length + (us.flatMap (emit m)).length) n before.length
      = (laidOut m before.length us).map .ok := by
  induction us generalizing before n with
  | nil => exact absurd rfl some
  | cons u us ih =>
    obtain ⟨n, rfl⟩ : ∃ k, n = k + 1 := ⟨n - 1, by rw [List.length_cons] at enough; omega⟩
    have first := decodeIn_emit m u before (us.flatMap (emit m) ++ rest)
    rw [decodeIn] at first
    rw [listing, List.flatMap_cons, List.append_assoc, first]
    simp only [laidOut, List.map_cons, List.length_append]
    congr 1
    cases us with
    | nil => simp [laidOut]
    | cons v vs =>
      have more : ¬ before.length + ((emit m u).length + ((v :: vs).flatMap (emit m)).length)
          ≤ before.length + (emit m u).length := by
        have pos := emit_length_pos m v
        rw [List.flatMap_cons, List.length_append]
        omega
      have tail := ih (by simp) (n := n) (by simpa using enough) (before ++ emit m u)
      simp only [List.append_assoc, List.length_append, Nat.add_assoc] at tail ⊢
      rw [if_neg (by simpa only [Nat.add_assoc] using more), tail]

/-- Emission and decoding agree in three ways. A list of micro-operations written back to back
into a buffer with room for them is listed as one host instruction each, of the length that was
answered; an instruction cut short is a stray trap at its offset; and over any bytes the decoder
stops at the offset or finds an instruction within them that no other byte takes part in. -/
theorem emission_reads_back (m : M) :
    (∀ (b : CodeWriter) (us : List Uop), (us.flatMap (emit m)).length ≤ b.remaining →
      ∃ (after : CodeWriter) (lens : List Nat) (listed : List Listed),
        b.emitAll m us = .ok (after, lens) ∧ b.Gets (us.flatMap (emit m)) after ∧
        lens = us.map (fun u => (emit m u).length) ∧
        (∀ n, us ≠ [] → us.length ≤ n →
          listing after.bytes.toList.drop after.pos n b.pos = listed.map .ok) ∧
        listed.map Listed.len = lens ∧
        List.Forall₂ (HostOp.Renders m) us (listed.map Listed.op)) ∧
    (∀ (before : List UInt8) (u : Uop) (k : Nat), k < (emit m u).length →
      decodeIn (before ++ (emit m u).take k) before.length
        = .error (.strayTrap before.length)) ∧
    (∀ (bytes : List UInt8) (offset : Nat),
      decodeIn bytes offset = .error (.strayTrap offset) ∨
      ∃ op n, decodeIn bytes offset = .ok (op, n) ∧ 1 ≤ n ∧ offset + n ≤ bytes.length ∧
        ∀ (others : List UInt8) (place : Nat),
          (others.drop place).take n = (bytes.drop offset).take n →
          decodeIn others place = .ok (op, n)) := by
  refine ⟨?_, ?_, ?_⟩
  · intro b us room
    obtain ⟨after, done, gets⟩ := CodeWriter.emitAll_gets m room
    refine ⟨after, _, laidOut m b.pos us, done, gets, rfl, ?_,
      laidOut_len m _ us, laidOut_op m _ us⟩
    intro n some enough
    have before : (b.bytes.toList.take b.pos).length = b.pos := by
      obtain ⟨u, us, rfl⟩ := List.exists_cons_of_ne_nil some
      have pos := emit_length_pos m u
      rw [List.flatMap_cons, List.length_append] at room
      simp only [CodeWriter.remaining, CodeWriter.capacity] at room
      rw [List.length_take, Array.length_toList]
      omega
    have shown := listing_emitted m some enough (b.bytes.toList.take b.pos)
      (b.bytes.toList.drop (b.pos + (us.flatMap (emit m)).length))
    rw [before] at shown
    rw [gets.bytes, gets.pos, List.append_assoc]
    exact shown
  · intro before u k short
    have none : decode ((emit m u).take k) = none :=
      HostOp.decode_take_code (HostOp.stored_ofUop m u) short
    rw [decodeIn, List.drop_left, decodeAt, none]
  · intro bytes offset
    cases found : decode (bytes.drop offset) with
    | none => exact .inl (by rw [decodeIn, decodeAt, found])
    | some result =>
      obtain ⟨op, n⟩ := result
      obtain ⟨pos, inside, same⟩ := decode_local found
      rw [List.length_drop] at inside
      refine .inr ⟨op, n, decodeAt_ok.mpr found, pos, by omega, ?_⟩
      intro others place agree
      refine decodeAt_ok.mpr ?_
      rw [← List.take_append_drop n (others.drop place), agree]
      exact same _

/-- A long countdown, an increment of a device register and a load in a buffer that has bytes
before them. -/
theorem emission_reads_back_device :
    ∃ (after : CodeWriter) (listed : List Listed),
      CodeWriter.emitAll ((PagedMemory.blank : PagedMemory Unit).markPages 0xC000 0xC0FF .device)
          ⟨Array.replicate 20 0, 2, 0⟩
          [.countdown 0x1000 300, .raw 0xEE 0xC000, .raw 0xA9 0x1234]
        = .ok (after, [7, 4, 3]) ∧
      after.pos = 16 ∧
      listing after.bytes.toList.drop after.pos 3 2 = listed.map .ok ∧
      listed.map Listed.len = [7, 4, 3] := by
  obtain ⟨after, lens, listed, done, gets, sizes, shown, lengths, _⟩ :=
    (emission_reads_back
        ((PagedMemory.blank : PagedMemory Unit).markPages 0xC000 0xC0FF .device)).1
      ⟨Array.replicate 20 0, 2, 0⟩ [.countdown 0x1000 300, .raw 0xEE 0xC000, .raw 0xA9 0x1234]
      (by decide +kernel)
  have counted : lens = [7, 4, 3] := sizes.trans (by decide +kernel)
  subst counted
  exact ⟨after, listed, done, gets.pos.trans (by decide +kernel), shown 3 (by simp) (by simp),
    lengths⟩

end Mos6502
