import Mos6502.HostCode.Arena
import Mos6502.Proofs.HostCode.RoundTrip

/-! What an arena holds. Each operation changes the bytes of its own stretch and no others, and an
instruction whose bytes stand at an offset is decoded there. -/
namespace Mos6502.Arena

def Holds (a : Arena) (i : Nat) (bytes : List UInt8) : Prop :=
  ∀ j, (h : j < bytes.length) → a.byte? (i + j) = some bytes[j]

theorem holds_nil (a : Arena) (i : Nat) : a.Holds i [] := by
  intro j h
  cases h

theorem holds_cons {a : Arena} {i : Nat} {v : UInt8} {vs : List UInt8} :
    a.Holds i (v :: vs) ↔ a.byte? i = some v ∧ a.Holds (i + 1) vs := by
  constructor
  · intro h
    refine ⟨h 0 (by simp), ?_⟩
    intro j hj
    have next := h (j + 1) (by simpa using hj)
    rwa [List.getElem_cons_succ, ← Nat.add_assoc, Nat.add_right_comm] at next
  · rintro ⟨first, rest⟩ j hj
    cases j with
    | zero => exact first
    | succ j =>
      have next := rest j (by simpa using hj)
      rwa [List.getElem_cons_succ, ← Nat.add_assoc, Nat.add_right_comm]

theorem holds_append {a : Arena} {i : Nat} {xs ys : List UInt8} :
    a.Holds i (xs ++ ys) ↔ a.Holds i xs ∧ a.Holds (i + xs.length) ys := by
  induction xs generalizing i with
  | nil => simp [holds_nil]
  | cons x xs ih =>
    rw [List.cons_append, holds_cons, holds_cons, ih, List.length_cons, and_assoc,
      Nat.add_assoc, Nat.add_comm 1]

theorem Holds.of_same {a b : Arena} {i : Nat} {bytes : List UInt8} (h : a.Holds i bytes)
    (same : ∀ j, i ≤ j → j < i + bytes.length → b.byte? j = a.byte? j) : b.Holds i bytes := by
  intro j hj
  rw [same (i + j) (Nat.le_add_right i j) (by omega)]
  exact h j hj

theorem byte?_setByte (a : Arena) (i j : Nat) (v : UInt8) :
    (a.setByte i v).byte? j = if i = j ∧ j < a.capacity then some v else a.byte? j := by
  unfold setByte
  split
  · next old =>
    by_cases same : i = j
    · subst same
      by_cases inside : i < a.capacity <;> simp [byte?, old, inside]
    · simp [byte?, same]
  · next new =>
    split
    · next fits =>
      have len : (a.code ++ Array.replicate (i - a.code.size) trapByte).size = i := by
        simp only [Array.size_append, Array.size_replicate]
        omega
      simp only [byte?, Array.getD_eq_getD_getElem?, Array.getElem?_push, len]
      by_cases same : j = i
      · subst same
        by_cases inside : j < a.capacity <;> simp [inside]
      · have other : ¬ i = j := fun h => same h.symm
        simp only [same, other, if_false, false_and]
        by_cases inside : j < a.code.size
        · rw [Array.getElem?_append_left inside]
        · rw [Array.getElem?_append_right (Nat.le_of_not_lt inside),
            Array.getElem?_replicate, Array.getElem?_eq_none (Nat.le_of_not_lt inside)]
          split
          · split <;> rfl
          · rfl
    · next outside =>
      have no : ¬ (i = j ∧ j < a.capacity) := by
        rintro ⟨rfl, h⟩
        exact outside h
      rw [if_neg no]

@[simp] theorem capacity_setByte (a : Arena) (i : Nat) (v : UInt8) :
    (a.setByte i v).capacity = a.capacity := by
  unfold setByte
  split
  · rfl
  · split <;> rfl

@[simp] theorem cursor_setByte (a : Arena) (i : Nat) (v : UInt8) :
    (a.setByte i v).cursor = a.cursor := by
  unfold setByte
  split
  · rfl
  · split <;> rfl

@[simp] theorem generation_setByte (a : Arena) (i : Nat) (v : UInt8) :
    (a.setByte i v).generation = a.generation := by
  unfold setByte
  split
  · rfl
  · split <;> rfl

theorem write_fields (a : Arena) (i : Nat) (vs : List UInt8) :
    (a.write i vs).capacity = a.capacity ∧ (a.write i vs).cursor = a.cursor ∧
      (a.write i vs).generation = a.generation := by
  induction vs generalizing a i with
  | nil => exact ⟨rfl, rfl, rfl⟩
  | cons v vs ih =>
    obtain ⟨h₁, h₂, h₃⟩ := ih (a.setByte i v) (i + 1)
    exact ⟨h₁.trans (by simp), h₂.trans (by simp), h₃.trans (by simp)⟩

theorem byte?_write_of_lt (a : Arena) {i j : Nat} (vs : List UInt8) (h : j < i) :
    (a.write i vs).byte? j = a.byte? j := by
  induction vs generalizing a i with
  | nil => rfl
  | cons v vs ih =>
    rw [write, ih (a.setByte i v) (by omega), byte?_setByte, if_neg (by omega)]

theorem byte?_write_of_ge (a : Arena) {i j : Nat} (vs : List UInt8) (h : i + vs.length ≤ j) :
    (a.write i vs).byte? j = a.byte? j := by
  induction vs generalizing a i with
  | nil => rfl
  | cons v vs ih =>
    rw [List.length_cons] at h
    rw [write, ih (a.setByte i v) (by omega), byte?_setByte, if_neg (by omega)]

theorem holds_write (a : Arena) (i : Nat) (vs : List UInt8) (fits : i + vs.length ≤ a.capacity) :
    (a.write i vs).Holds i vs := by
  induction vs generalizing a i with
  | nil => exact holds_nil _ _
  | cons v vs ih =>
    rw [List.length_cons] at fits
    have rest := ih (a.setByte i v) (i + 1) (by rw [capacity_setByte]; omega)
    refine holds_cons.mpr ⟨?_, rest⟩
    rw [write, byte?_write_of_lt _ _ (Nat.lt_succ_self i), byte?_setByte, if_pos ⟨rfl, by omega⟩]

theorem trap_fields (a : Arena) (i n : Nat) :
    (a.trap i n).capacity = a.capacity ∧ (a.trap i n).cursor = a.cursor ∧
      (a.trap i n).generation = a.generation := by
  induction n generalizing a i with
  | zero => exact ⟨rfl, rfl, rfl⟩
  | succ n ih =>
    rw [trap]
    split
    · obtain ⟨h₁, h₂, h₃⟩ := ih (a.setByte i trapByte) (i + 1)
      exact ⟨h₁.trans (by simp), h₂.trans (by simp), h₃.trans (by simp)⟩
    · exact ⟨rfl, rfl, rfl⟩

theorem byte?_trap_of_lt (a : Arena) {i j : Nat} (n : Nat) (h : j < i) :
    (a.trap i n).byte? j = a.byte? j := by
  induction n generalizing a i with
  | zero => rfl
  | succ n ih =>
    rw [trap]
    split
    · rw [ih (a.setByte i trapByte) (by omega), byte?_setByte, if_neg (by omega)]
    · rfl

theorem byte?_trap (a : Arena) (i n j : Nat) :
    (a.trap i n).byte? j
      = if i ≤ j ∧ j < i + n ∧ j < a.capacity then some trapByte else a.byte? j := by
  induction n generalizing a i with
  | zero => exact (if_neg (by omega)).symm
  | succ n ih =>
    rw [trap]
    split
    · rw [ih (a.setByte i trapByte) (i + 1), byte?_setByte, capacity_setByte]
      by_cases here : i = j
      · rw [if_neg (by omega)]
        by_cases inside : j < a.capacity
        · rw [if_pos ⟨here, inside⟩, if_pos (by omega)]
        · rw [if_neg (fun h => inside h.2), if_neg (fun h => inside h.2.2)]
      · rw [if_neg (c := i = j ∧ j < a.capacity) (fun h => here h.1)]
        by_cases there : i ≤ j ∧ j < i + (n + 1) ∧ j < a.capacity
        · rw [if_pos there, if_pos (by omega)]
        · rw [if_neg there, if_neg (by omega)]
    · next unused =>
      split
      · next there =>
        rw [byte?, if_pos there.2.2, Array.getD_eq_getD_getElem?,
          Array.getElem?_eq_none (by omega)]
        rfl
      · rfl

def Trapped (a : Arena) (i : Nat) : Prop :=
  ∀ j, i ≤ j → j < a.capacity → a.byte? j = some trapByte

theorem trapped_iff_holds {a : Arena} {i : Nat} :
    a.Trapped i ↔ a.Holds i (List.replicate (a.capacity - i) trapByte) := by
  constructor
  · intro traps j inside
    rw [List.length_replicate] at inside
    rw [traps (i + j) (by omega) (by omega), List.getElem_replicate]
  · intro holds j above inside
    have here := holds (j - i) (by rw [List.length_replicate]; omega)
    rwa [List.getElem_replicate, Nat.add_sub_cancel' above] at here

theorem trapped_ofSize (size : Nat) : (ofSize size).Trapped 0 := by
  intro j _ inside
  unfold byte?
  rw [if_pos inside]
  rfl

theorem trapped_clear {a : Arena} (traps : a.Trapped a.cursor) : a.clear.Trapped 0 := by
  intro j _ inside
  have inside : j < a.capacity := (a.trap_fields 0 a.cursor).1 ▸ inside
  change (a.trap 0 a.cursor).byte? j = some trapByte
  rw [byte?_trap]
  split
  · rfl
  · exact traps j (by omega) inside

theorem slice_of_holds {a : Arena} {i : Nat} {bytes : List UInt8} (h : a.Holds i bytes) (n : Nat)
    (enough : bytes.length ≤ n) : ∃ rest, a.slice i n = bytes ++ rest := by
  induction bytes generalizing i n with
  | nil => exact ⟨a.slice i n, rfl⟩
  | cons v vs ih =>
    cases n with
    | zero => cases enough
    | succ n =>
      obtain ⟨first, behind⟩ := holds_cons.mp h
      obtain ⟨rest, hr⟩ := ih behind n (by simpa using enough)
      exact ⟨rest, by rw [slice, first]; simp [hr]⟩

theorem decodeAt_of_holds {a : Arena} {i : Nat} {op : HostOp} (stored : op.Stored)
    (h : a.Holds i op.code) : a.decodeAt i = .ok (op, op.code.length) := by
  obtain ⟨rest, hr⟩ := slice_of_holds h maxOpLen (HostOp.code_length_le op)
  unfold Arena.decodeAt Mos6502.decodeAt opBytes
  rw [hr, HostOp.decode_code stored rest]

theorem fillWindow_spec {a b : Arena} {size : Nat} {code : List UInt8}
    (h : a.fillWindow size code = .ok b) :
    size ≤ a.space ∧ code.length ≤ size ∧ b.capacity = a.capacity ∧ b.cursor = a.cursor ∧
      b.generation = a.generation ∧ (∀ j < a.cursor, b.byte? j = a.byte? j) ∧
      (a.cursor + code.length ≤ a.capacity → b.Holds a.cursor code) := by
  unfold fillWindow at h
  split at h
  · cases h
  · next room =>
    split at h
    · cases h
    · next fits =>
      cases h
      obtain ⟨t₁, t₂, t₃⟩ :=
        trap_fields (a.write a.cursor code) (a.cursor + code.length) (size - code.length)
      obtain ⟨w₁, w₂, w₃⟩ := write_fields a a.cursor code
      refine ⟨Nat.le_of_not_lt room, Nat.le_of_not_lt fits, t₁.trans w₁, t₂.trans w₂,
        t₃.trans w₃, ?_, ?_⟩
      · intro j hj
        rw [byte?_trap_of_lt _ _ (by omega), byte?_write_of_lt _ _ hj]
      · intro inside
        refine (holds_write a a.cursor code inside).of_same ?_
        intro j _ hj
        exact byte?_trap_of_lt _ _ hj

theorem fillWindow_trapped {a b : Arena} {size : Nat} {code : List UInt8}
    (h : a.fillWindow size code = .ok b) (traps : a.Trapped a.cursor) :
    b.Trapped (a.cursor + code.length) := by
  obtain ⟨_, _, capacity, _⟩ := fillWindow_spec h
  unfold fillWindow at h
  split at h
  · cases h
  · split at h
    · cases h
    · cases h
      intro j above inside
      rw [capacity] at inside
      rw [byte?_trap]
      split
      · rfl
      · rw [byte?_write_of_ge _ _ above]
        exact traps j (by omega) inside

theorem replace_spec {a b : Arena} {offset len : Nat} {code : List UInt8}
    (h : a.replace offset len code = .ok b) :
    code.length ≤ len ∧ b.capacity = a.capacity ∧ b.cursor = a.cursor ∧
      b.generation = a.generation ∧
      (∀ j, j < offset ∨ offset + len ≤ j → b.byte? j = a.byte? j) ∧
      b.Holds offset (code ++ List.replicate (len - code.length) padByte) := by
  unfold replace at h
  split at h
  · cases h
  · next inside =>
    split at h
    · cases h
    · next fits =>
      cases h
      have size : (code ++ List.replicate (len - code.length) padByte).length = len := by
        rw [List.length_append, List.length_replicate]
        omega
      obtain ⟨w₁, w₂, w₃⟩ :=
        write_fields a offset (code ++ List.replicate (len - code.length) padByte)
      refine ⟨Nat.le_of_not_lt fits, w₁, w₂, w₃, ?_, holds_write _ _ _ (by omega)⟩
      rintro j (below | above)
      · exact byte?_write_of_lt _ _ below
      · exact byte?_write_of_ge _ _ (by omega)

theorem advance_spec {a b : Arena} {used : Nat} (h : a.advance used = .ok b) :
    used ≤ a.space ∧ b = { a with cursor := a.cursor + used } := by
  unfold advance at h
  split at h
  · next room => cases h; exact ⟨room, rfl⟩
  · cases h

end Mos6502.Arena
