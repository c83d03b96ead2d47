import Mos6502.Translator.Basic

/-! Forgetting a range, address by address. An address that is forgotten takes the block that covers
it along, and that block may start anywhere; rows of the other addresses stay. -/
namespace Mos6502

/-- The range from `a` on is `a` and the range behind it, also where it goes around. -/
theorem distance_lt_succ_iff (a x : Addr) (n : Nat) :
    distance a x < n + 1 ↔ x = a ∨ distance (a + 1) x < n := by
  by_cases same : x = a
  · simp [same, distance_self]
  · have far : 1 ≤ distance a x :=
      Nat.pos_of_ne_zero fun zero => same ((distance_eq_zero_iff a x).mp zero)
    have next : distance (a + 1) x = distance a x - 1 := distance_add (n := 1) far
    simp only [same, false_or]
    omega

namespace CodeTables

variable {t : CodeTables} {a s x : Addr} {n : Nat}

theorem eq_of_rows {u : CodeTables} (notes : ∀ x, t.notes.get x = u.notes.get x)
    (ptrs : ∀ x, t.blocks.ptr? x = u.blocks.ptr? x)
    (entries : ∀ x, t.blocks.entryAt? x = u.blocks.entryAt? x) : t = u := by
  obtain ⟨notes₁, ⟨ptrs₁, entries₁⟩⟩ := t
  obtain ⟨notes₂, ⟨ptrs₂, entries₂⟩⟩ := u
  have same_notes : notes₁ = notes₂ := AddrTable.ext notes
  have same_ptrs : ptrs₁ = ptrs₂ := AddrTable.ext ptrs
  have same_entries : entries₁ = entries₂ := AddrTable.ext entries
  simp [same_notes, same_ptrs, same_entries]

theorem note_forget (t : CodeTables) (a x : Addr) :
    (t.forget a).notes.get x = if a = x then {} else t.notes.get x := by
  simp [forget, AddrTable.get_set]

theorem ptr?_forget (t : CodeTables) (a x : Addr) :
    (t.forget a).blocks.ptr? x = if a = x then none else t.blocks.ptr? x := by
  have kept := t.blocks.ptr?_retire a x
  unfold BlockMap.ptr? at kept
  simp [forget, BlockMap.ptr?, BlockMap.dropEntry, BlockMap.uncover, AddrTable.get_set, kept]

theorem owner?_forget (t : CodeTables) (a x : Addr) :
    (t.forget a).blocks.owner? x = if a = x then none else t.blocks.owner? x := by
  rw [BlockMap.owner?, ptr?_forget]
  split <;> rfl

theorem entryAt?_forget (t : CodeTables) (a s : Addr) :
    (t.forget a).blocks.entryAt? s =
      if a = s ∨ t.blocks.owner? a = some s then none else t.blocks.entryAt? s := by
  have retired := t.blocks.entryAt?_retire a s
  unfold BlockMap.entryAt? at retired
  by_cases same : a = s
  · simp [forget, BlockMap.entryAt?, BlockMap.dropEntry, same]
  · simp [forget, BlockMap.entryAt?, BlockMap.dropEntry, BlockMap.uncover, AddrTable.get_set, same,
      retired]

/-! The range as a whole. -/

theorem note_forgetFrom (t : CodeTables) (a : Addr) (n : Nat) (x : Addr) :
    (t.forgetFrom a n).notes.get x = if distance a x < n then {} else t.notes.get x := by
  induction n generalizing t a with
  | zero => simp [forgetFrom]
  | succ n ih =>
    rw [forgetFrom, ih, note_forget]
    simp only [distance_lt_succ_iff]
    by_cases same : a = x
    · simp [same]
    · simp [same, Ne.symm same]

theorem ptr?_forgetFrom (t : CodeTables) (a : Addr) (n : Nat) (x : Addr) :
    (t.forgetFrom a n).blocks.ptr? x = if distance a x < n then none else t.blocks.ptr? x := by
  induction n generalizing t a with
  | zero => simp [forgetFrom]
  | succ n ih =>
    rw [forgetFrom, ih, ptr?_forget]
    simp only [distance_lt_succ_iff]
    by_cases same : a = x
    · simp [same]
    · simp [same, Ne.symm same]

/-- Forgetting `n` addresses from `a` on drops the entry at `s`: it lies in the range, or an address
of the range points at its block. -/
def Drops (t : CodeTables) (a : Addr) (n : Nat) (s : Addr) : Prop :=
  distance a s < n ∨ ∃ x, distance a x < n ∧ t.blocks.owner? x = some s

theorem drops_succ : t.Drops a (n + 1) s ↔
    (a = s ∨ t.blocks.owner? a = some s) ∨ (t.forget a).Drops (a + 1) n s := by
  unfold Drops
  simp only [distance_lt_succ_iff, owner?_forget, eq_comm (a := s)]
  constructor
  · rintro ((here | behind) | ⟨x, rfl | behind, owner⟩)
    · exact .inl (.inl here)
    · exact .inr (.inl behind)
    · exact .inl (.inr owner)
    · by_cases same : a = x
      · exact .inl (.inr (same ▸ owner))
      · exact .inr (.inr ⟨x, behind, by rw [if_neg same, owner]⟩)
  · rintro ((here | owner) | behind | ⟨x, behind, owner⟩)
    · exact .inl (.inl here)
    · exact .inr ⟨a, .inl rfl, owner⟩
    · exact .inl (.inr behind)
    · split at owner
      · cases owner
      · exact .inr ⟨x, .inr behind, owner⟩

theorem entryAt?_forgetFrom (t : CodeTables) (a : Addr) (n : Nat) (s : Addr) {e : Nat} :
    (t.forgetFrom a n).blocks.entryAt? s = some e ↔
      t.blocks.entryAt? s = some e ∧ ¬ t.Drops a n s := by
  induction n generalizing t a with
  | zero => simp [forgetFrom, Drops]
  | succ n ih =>
    rw [forgetFrom, ih, entryAt?_forget, drops_succ]
    split <;> simp_all

theorem entryAt?_forgetFrom_of_drops (h : t.Drops a n s) :
    (t.forgetFrom a n).blocks.entryAt? s = none := by
  rw [Option.eq_none_iff_forall_ne_some]
  intro e live
  exact ((t.entryAt?_forgetFrom a n s).mp live).2 h

theorem entryAt?_forgetFrom_of_not_drops (h : ¬ t.Drops a n s) :
    (t.forgetFrom a n).blocks.entryAt? s = t.blocks.entryAt? s := by
  ext e
  simp [entryAt?_forgetFrom, h]

structure Blank (t : CodeTables) (x : Addr) : Prop where
  ptr : t.blocks.ptr? x = none
  entry : t.blocks.entryAt? x = none
  note : t.notes.get x = {}

theorem blank_forgetFrom (t : CodeTables) (inside : distance a x < n) :
    (t.forgetFrom a n).Blank x where
  ptr := by rw [ptr?_forgetFrom, if_pos inside]
  entry := entryAt?_forgetFrom_of_drops (.inl inside)
  note := by rw [note_forgetFrom, if_pos inside]

theorem Blank.owner (h : t.Blank x) : t.blocks.owner? x = none := by
  rw [BlockMap.owner?, h.ptr]
  rfl

theorem forgetFrom_of_blank (blank : ∀ x, distance a x < n → t.Blank x) :
    t.forgetFrom a n = t := by
  apply eq_of_rows
  · intro x
    rw [note_forgetFrom]
    split
    · next inside => exact (blank x inside).note.symm
    · rfl
  · intro x
    rw [ptr?_forgetFrom]
    split
    · next inside => exact (blank x inside).ptr.symm
    · rfl
  · intro s
    by_cases inside : distance a s < n
    · rw [entryAt?_forgetFrom_of_drops (.inl inside), (blank s inside).entry]
    · apply entryAt?_forgetFrom_of_not_drops
      rintro (here | ⟨x, inside, owner⟩)
      · exact inside here
      · rw [(blank x inside).owner] at owner
        cases owner

theorem forgetFrom_twice (t : CodeTables) (a : Addr) (n : Nat) :
    (t.forgetFrom a n).forgetFrom a n = t.forgetFrom a n :=
  forgetFrom_of_blank fun _ inside => t.blank_forgetFrom inside

theorem forgetFrom_all (t : CodeTables) (a : Addr) :
    t.forgetFrom a 65536 = ⟨.filled {}, .empty⟩ := by
  have blank : ∀ x, (t.forgetFrom a 65536).Blank x := fun x => t.blank_forgetFrom (distance_lt a x)
  apply eq_of_rows
  · intro x
    simp [(blank x).note]
  · intro x
    rw [(blank x).ptr]
    simp [BlockMap.ptr?, BlockMap.empty]
  · intro x
    rw [(blank x).entry]
    simp [BlockMap.entryAt?, BlockMap.empty]

end CodeTables

end Mos6502
