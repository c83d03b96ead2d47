import Mos6502.Proofs.Block.Live

/-! A block is known by its start, its entry and the generation of the arena. Offsets are given
out in growing order within a generation and every flush begins a new one, so whoever finds all
three again finds the block itself, live all the while and with the bytes it had. -/
namespace Mos6502

variable {M : Type} [GuestMemory M]

open Record

inductive TableEdit (M : Type) where
  | compile (m : M) (start : Addr)
  | retire (a : Addr)
  | forgetRange (start : Addr) (len : Nat)
  | flush

namespace TableEdit

def apply (t : Translator) (b : BlockMap) : TableEdit M → Except Fault (Translator × BlockMap)
  | compile m start => do
    let (_, t, b) ← t.compile b m start
    return (t, b)
  | retire a => return (t, b.retire a)
  | forgetRange start len => return t.forgetRange b start len
  | flush => return t.flush

def applyAll (t : Translator) (b : BlockMap) (edits : List (TableEdit M)) :
    Except Fault (Translator × BlockMap) :=
  edits.foldlM (fun tables edit => edit.apply tables.1 tables.2) (t, b)

end TableEdit

namespace Record

theorem Block.length_code_pos {m : M} {s : TranslatorSettings} {start : Addr} {offset : Nat}
    {rs : List Record} (h : Block m s start offset rs) :
    0 < (HostOp.codeAll (blockOps m rs)).length := by
  obtain ⟨r, rs, rfl⟩ := List.exists_cons_of_ne_nil h.nonempty
  obtain ⟨k, lowered⟩ := h.shape.lowered_of_mem (r := r) (by simp)
  obtain ⟨_, fits, _⟩ := h.placed
  have size := lowered.hostSize_pos fits
  rw [blockOps, HostOp.codeAll_append, List.length_append, length_ops fits]
  omega

end Record

def Image.size (i : Image M) : Nat :=
  (HostOp.codeAll i.ops).length

namespace Translator

variable {t t' t₁ : Translator} {b b' b₁ : BlockMap} {source : Addr → M} {start : Addr}

theorem Keeps.offset_lt {i : Image M} (h : t.Keeps b start i) : i.offset < t.arena.cursor := by
  have size := h.block.length_code_pos
  have inside := h.inside
  unfold Image.ops at inside
  omega

theorem Keeps.same_bytes {i : Image M} (h : t.Keeps b start i) (h' : t'.Keeps b' start i) {j : Nat}
    (low : i.offset ≤ j) (high : j < i.offset + i.size) :
    t'.arena.byte? j = t.arena.byte? j := by
  obtain ⟨n, rfl⟩ : ∃ n, j = i.offset + n := ⟨j - i.offset, by omega⟩
  have inside : n < (HostOp.codeAll i.ops).length := by
    unfold Image.size at high
    omega
  rw [h'.stored n inside, h.stored n inside]

/-- What later tables have in common with earlier ones of the same generation: an entry below the
earlier cursor was there already, and its block is kept. -/
structure Evolves (M : Type) [GuestMemory M] (t : Translator) (b : BlockMap) (t' : Translator)
    (b' : BlockMap) : Prop where
  generation : t.arena.generation ≤ t'.arena.generation
  cursor : t'.arena.generation = t.arena.generation → t.arena.cursor ≤ t'.arena.cursor
  entry : t'.arena.generation = t.arena.generation → ∀ s e, b'.entryAt? s = some e →
    e < t.arena.cursor → b.entryAt? s = some e
  keeps : t'.arena.generation = t.arena.generation → ∀ s (i : Image M), t.Keeps b s i →
    b'.entryAt? s = some i.offset → t'.Keeps b' s i

theorem Evolves.trans (h : Evolves M t b t₁ b₁) (h' : Evolves M t₁ b₁ t' b') :
    Evolves M t b t' b' := by
  have between : t'.arena.generation = t.arena.generation →
      t₁.arena.generation = t.arena.generation ∧ t'.arena.generation = t₁.arena.generation := by
    intro same
    have first := h.generation
    have second := h'.generation
    omega
  refine ⟨Nat.le_trans h.generation h'.generation, ?_, ?_, ?_⟩
  · intro same
    exact Nat.le_trans (h.cursor (between same).1) (h'.cursor (between same).2)
  · intro same s e live old
    have old' := Nat.lt_of_lt_of_le old (h.cursor (between same).1)
    exact h.entry (between same).1 s e (h'.entry (between same).2 s e live old') old
  · intro same s i keeps live
    have old := Nat.lt_of_lt_of_le keeps.offset_lt (h.cursor (between same).1)
    have there := h'.entry (between same).2 s _ live old
    exact h'.keeps (between same).2 s i (h.keeps (between same).1 s i keeps there) live

theorem evolves_of_shrinks {t' : Translator} (arena : t'.arena = t.arena)
    (notes : t'.notes = t.notes) (less : b.Shrinks b') : Evolves M t b t' b' where
  generation := Nat.le_of_eq (congrArg (·.generation) arena.symm)
  cursor _ := Nat.le_of_eq (congrArg (·.cursor) arena.symm)
  entry _ s e live _ := less.entry s e live
  keeps _ s i keeps _ := by
    refine keeps.of_kept ?_ ?_ ?_ ?_
    · intro x _
      rw [notes]
      exact ⟨less.ptr x, rfl, rfl, fun _ dead => less.entry_none dead, id⟩
    · exact fun x offset ptr => (less.ptr x).symm.trans ptr
    · exact Nat.le_of_eq (congrArg (·.cursor) arena.symm)
    · exact fun j _ => congrArg (·.byte? j) arena

theorem evolves_flush (t : Translator) (b : BlockMap) : Evolves M t b t.flush.1 t.flush.2 := by
  have next : t.flush.1.arena.generation = t.arena.generation + 1 := rfl
  have apart : t.flush.1.arena.generation ≠ t.arena.generation := by omega
  exact ⟨by omega, fun same => absurd same apart, fun same => absurd same apart,
    fun same => absurd same apart⟩

theorem evolves_forgetFrom (t : Translator) (b : BlockMap) (a : Addr) (n : Nat) :
    let tables := CodeTables.forgetFrom ⟨t.notes, b⟩ a n
    Evolves M t b { t with notes := tables.notes } tables.blocks where
  generation := Nat.le_refl _
  cursor _ := Nat.le_refl _
  entry _ s e live _ := (forgetFrom_spec ⟨t.notes, b⟩ a n).1 s e live
  keeps _ _ _ keeps live := keeps.forgetFrom a n live

theorem Adds.evolves {m : M} {rs : List Record} (h : Adds t b m start rs t' b') :
    Evolves M t b t' b' where
  generation := Nat.le_of_eq h.generation.symm
  cursor _ := by
    rw [h.cursor]
    exact Nat.le_add_right _ _
  entry _ s e live old := by
    by_cases same : s = start
    · rw [same, h.entry] at live
      cases live
      omega
    · have row := (h.frame s (h.live_outside live same)).entry
      exact (b.shrinks_retire start).entry s e (row.symm.trans live)
  keeps _ s i keeps live := by
    by_cases same : s = start
    · -- the block that was there would be entered at the cursor, but it lies before it
      have old := keeps.offset_lt
      rw [same, h.entry] at live
      have there := Option.some.inj live
      omega
    · exact h.keeps keeps live same

theorem evolves_makeRoom (t : Translator) (b : BlockMap) :
    Evolves M t b (t.makeRoom b).1 (t.makeRoom b).2 := by
  unfold makeRoom
  split
  · exact evolves_flush t b
  · exact evolves_of_shrinks rfl rfl (.refl b)

theorem Sound.evolves_compile {m : M} {entry : Nat} (h : t.Sound b source)
    (done : t.compile b m start = .ok (entry, t', b')) : Evolves M t b t' b' := by
  obtain ⟨_, rs, adds⟩ := compile_spec done h.makeRoom.room
  exact (evolves_makeRoom t b).trans adds.evolves

end Translator

namespace TableEdit

open Translator

variable {t t' : Translator} {b b' : BlockMap} {source : Addr → M}

theorem apply_sound {edit : TableEdit M} (h : t.Sound b source)
    (done : edit.apply t b = .ok (t', b')) :
    (∃ source' : Addr → M, t'.Sound b' source') ∧ Evolves M t b t' b' := by
  cases edit with
  | compile m start =>
    obtain ⟨⟨entry, t₁, b₁⟩, compiled, is⟩ := bind_eq_ok.mp done
    cases is
    exact ⟨⟨_, h.compile compiled⟩, h.evolves_compile compiled⟩
  | retire a =>
    cases done
    exact ⟨⟨_, h.retire a⟩, evolves_of_shrinks rfl rfl (b.shrinks_retire a)⟩
  | forgetRange start len =>
    cases done
    exact ⟨⟨_, h.forgetRange start len⟩, evolves_forgetFrom t b start (min len 65536)⟩
  | flush =>
    cases done
    exact ⟨⟨_, h.flush⟩, evolves_flush t b⟩

theorem applyAll_sound {edits : List (TableEdit M)} (h : t.Sound b source)
    (done : applyAll t b edits = .ok (t', b')) :
    (∃ source' : Addr → M, t'.Sound b' source') ∧ Evolves M t b t' b' := by
  induction edits generalizing t b source with
  | nil =>
    cases done
    exact ⟨⟨source, h⟩, evolves_of_shrinks rfl rfl (.refl _)⟩
  | cons edit edits ih =>
    rw [applyAll, List.foldlM_cons] at done
    obtain ⟨⟨t₁, b₁⟩, first, rest⟩ := bind_eq_ok.mp done
    obtain ⟨⟨source₁, sound⟩, step⟩ := apply_sound h first
    obtain ⟨later, steps⟩ := ih sound rest
    exact ⟨later, step.trans steps⟩

end TableEdit

namespace Translator

variable {t t' t₁ : Translator} {b b' b₁ : BlockMap} {source : Addr → M} {s : Addr} {entry size : Nat}

/-- The block at `s` is what it was: as live, in the same place, with the same guest addresses and
the same host bytes. -/
structure Unchanged (s : Addr) (entry size : Nat) (t : Translator) (b : BlockMap)
    (t' : Translator) (b' : BlockMap) : Prop where
  generation : t'.arena.generation = t.arena.generation
  live : b'.entryAt? s = some entry
  addrs : ∀ x, b'.LiveAt s x ↔ b.LiveAt s x
  bytes : ∀ j, entry ≤ j → j < entry + size → t'.arena.byte? j = t.arena.byte? j

/-- Between two moments with the same entry and generation, at any third moment. -/
theorem Keeps.unchanged {i : Image M} (h : t.Keeps b s i) (live : b.entryAt? s = some i.offset)
    (before : Evolves M t b t₁ b₁) (behind : Evolves M t₁ b₁ t' b')
    (generation : t'.arena.generation = t.arena.generation)
    (still : b'.entryAt? s = some i.offset) :
    t₁.Keeps b₁ s i ∧ Unchanged s i.offset i.size t b t₁ b₁ := by
  have first := before.generation
  have second := behind.generation
  have same : t₁.arena.generation = t.arena.generation := by omega
  have old := Nat.lt_of_lt_of_le h.offset_lt (before.cursor same)
  have there := behind.entry (by omega) s _ still old
  have keeps := before.keeps same s i h there
  refine ⟨keeps, same, there, ?_, fun j low high => h.same_bytes keeps low high⟩
  intro x
  rw [keeps.liveAt_iff there, h.liveAt_iff live]

/-- A compile within the generation that leaves the block its entry is of another start, and has
no address in common with the block. -/
theorem Sound.compile_apart {m : M} {start : Addr} {e : Nat} (h : t.Sound b source)
    (done : t.compile b m start = .ok (e, t', b')) (live : b'.entryAt? s = some entry)
    (generation : t'.arena.generation = t.arena.generation) (old : entry < t.arena.cursor) :
    start ≠ s ∧ ∀ x, b'.LiveAt start x → ¬ b'.LiveAt s x := by
  have other : start ≠ s := by
    rintro rfl
    obtain ⟨at_cursor, rs, adds⟩ := compile_spec done h.makeRoom.room
    have room := (evolves_makeRoom (M := M) t b).cursor (adds.generation.symm.trans generation)
    rw [adds.entry] at live
    have there := Option.some.inj live
    omega
  refine ⟨other, ?_⟩
  rintro x ⟨_, _, ptr, _⟩ ⟨_, _, ptr', _⟩
  rw [ptr] at ptr'
  cases ptr'
  exact other rfl

/-- There is one block at `s`, compiled from the memory that the start was last compiled from, and
it is there before and behind every one of the operations. No compile among them is of the same
start or of an address of the block. -/
def Lasts (t : Translator) (b : BlockMap) (source : Addr → M) (edits : List (TableEdit M))
    (s : Addr) (entry : Nat) : Prop :=
  ∃ i : Image M, i.memory = source s ∧ i.offset = entry ∧ t.Keeps b s i ∧
    ∀ before behind, edits = before ++ behind → ∃ t₁ b₁,
      TableEdit.applyAll t b before = .ok (t₁, b₁) ∧ Unchanged s entry i.size t b t₁ b₁ ∧
      ∀ m start rest, behind = .compile m start :: rest → ∃ e t₂ b₂,
        t₁.compile b₁ m start = .ok (e, t₂, b₂) ∧ start ≠ s ∧
        ∀ x, b₂.LiveAt start x → ¬ b.LiveAt s x

/-- What is found again under the same start, entry and generation is the block that was there. -/
theorem Sound.lasts (h : t.Sound b source) {edits : List (TableEdit M)}
    (done : TableEdit.applyAll t b edits = .ok (t', b')) (live : b.entryAt? s = some entry)
    (still : b'.entryAt? s = some entry)
    (generation : t'.arena.generation = t.arena.generation) : t.Lasts b source edits s entry := by
  obtain ⟨i, memory, rfl, _, keeps⟩ := h.live s entry live
  refine ⟨i, memory, rfl, keeps, ?_⟩
  rintro before behind rfl
  rw [TableEdit.applyAll, List.foldlM_append] at done
  obtain ⟨⟨t₁, b₁⟩, first, second⟩ := bind_eq_ok.mp done
  obtain ⟨⟨source₁, sound⟩, evolves⟩ := TableEdit.applyAll_sound h first
  have later := (TableEdit.applyAll_sound sound second).2
  obtain ⟨keeps₁, same⟩ := keeps.unchanged live evolves later generation still
  refine ⟨t₁, b₁, first, same, ?_⟩
  rintro m start rest rfl
  rw [List.foldlM_cons] at second
  obtain ⟨⟨t₂, b₂⟩, applied, second⟩ := bind_eq_ok.mp second
  obtain ⟨⟨source₂, sound₂⟩, evolves₂⟩ := TableEdit.apply_sound sound applied
  have later₂ := (TableEdit.applyAll_sound sound₂ second).2
  obtain ⟨keeps₂, same₂⟩ := keeps.unchanged live (evolves.trans evolves₂) later₂ generation still
  obtain ⟨⟨e, t₃, b₃⟩, compiled, is⟩ := bind_eq_ok.mp applied
  cases is
  obtain ⟨other, apart⟩ := sound.compile_apart compiled same₂.live
    (same₂.generation.trans same.generation.symm) keeps₁.offset_lt
  refine ⟨e, _, _, compiled, other, ?_⟩
  intro x new kept
  exact apart x new ((same₂.addrs x).mpr kept)

end Translator

end Mos6502
