import Mos6502.Proofs.Block.History
import Mos6502.Proofs.Block.ReadBack

/-! Forgetting a range of addresses. Blocks that reach into the range die as a whole; nothing else
changes outside of it. -/
namespace Mos6502

variable {M : Type} [GuestMemory M]

open Record

namespace Translator

variable {t t' : Translator} {b b' : BlockMap} {start a : Addr} {len entry : Nat} {m : M}

/-- Every live block is kept as it was compiled, under whatever settings. -/
structure Lasting (M : Type) [GuestMemory M] (t : Translator) (b : BlockMap) : Prop where
  behind : ∀ x p, b.ptr? x = some p → p.hostOffset < t.arena.cursor
  live : ∀ s entry, b.entryAt? s = some entry → ∃ i : Image M, i.offset = entry ∧ t.Keeps b s i

theorem lasting_empty (t : Translator) : t.Lasting M .empty where
  behind x p ptr := by simp [BlockMap.ptr?, BlockMap.empty] at ptr
  live s entry live := by simp [BlockMap.entryAt?, BlockMap.empty] at live

theorem Lasting.shrinks (h : t.Lasting M b) (less : b.Shrinks b') : t.Lasting M b' where
  behind x p ptr := h.behind x p ((less.ptr x).symm.trans ptr)
  live s entry live := by
    obtain ⟨i, offset, keeps⟩ := h.live s entry (less.entry s entry live)
    exact ⟨i, offset, keeps.shrinks less⟩

theorem Lasting.makeRoom (h : t.Lasting M b) : (t.makeRoom b).1.Lasting M (t.makeRoom b).2 := by
  unfold Translator.makeRoom
  split
  · exact lasting_empty _
  · exact h

theorem Lasting.adds {rs : List Record} (h : t.Lasting M b) (adds : Adds t b m start rs t' b') :
    t'.Lasting M b' where
  behind := adds.behind h.behind
  live s entry live := by
    rcases adds.live_cases h.behind live with ⟨rfl, at_cursor, keeps⟩ | ⟨_, before, kept⟩
    · exact ⟨_, at_cursor, keeps⟩
    · obtain ⟨i, offset, keeps⟩ := h.live s entry before
      exact ⟨i, offset, kept i keeps⟩

theorem Lasting.forgetRange (h : t.Lasting M b) (start : Addr) (len : Nat) :
    (t.forgetRange b start len).1.Lasting M (t.forgetRange b start len).2 where
  behind := behind_forgetFrom h.behind start (min len 65536)
  live s entry live := by
    have before := (forgetFrom_spec ⟨t.notes, b⟩ start (min len 65536)).1 s entry live
    obtain ⟨i, offset, keeps⟩ := h.live s entry before
    exact ⟨i, offset, keeps.forgetFrom start (min len 65536) live⟩

theorem Lasting.setZeroPageCode (h : t.Lasting M b) (on : Bool) :
    (t.setZeroPageCode on).Lasting M b where
  behind := h.behind
  live s entry live := by
    obtain ⟨i, offset, keeps⟩ := h.live s entry live
    exact ⟨i, offset, keeps.of_kept (fun x _ => (CodeTables.SameRow.refl _ x).kept s)
      (fun _ _ ptr => ptr) (Nat.le_refl _) fun _ _ => rfl⟩

theorem Arises.lasting (h : Arises M t b) : t.Lasting M b := by
  induction h with
  | create _ _ => exact lasting_empty _
  | compile before done ih =>
    have made := before.ready.makeRoom
    obtain ⟨_, rs, adds⟩ := compile_spec done (made _).room
    exact ih.makeRoom.adds adds
  | retire _ a ih => exact ih.shrinks (BlockMap.shrinks_retire _ a)
  | forgetRange _ start len ih => exact ih.forgetRange start len
  | flush _ _ => exact lasting_empty _
  | setZeroPageCode _ on ih => exact ih.setZeroPageCode on

theorem Lasting.describes (h : t.Lasting M b) {s : Addr} (live : (b.entryAt? s).isSome = true) :
    ∃ (m : M) (rs : List Record), t.Describes b m s rs := by
  obtain ⟨entry, live⟩ := Option.isSome_iff_exists.mp live
  obtain ⟨i, rfl, keeps⟩ := h.live s entry live
  exact ⟨i.memory, i.records, keeps.describes live⟩

theorem Describes.owner {rs : List Record} (h : t.Describes b m start rs) {x : Addr}
    (covered : ∃ r ∈ rs, r.Covers x) : b.owner? x = some start := by
  obtain ⟨r, mem, covers⟩ := covered
  obtain ⟨offset, _, _, ptr⟩ := h.ptr r mem
  simp [BlockMap.owner?, ptr x covers]

def InRange (start : Addr) (len : Nat) (x : Addr) : Prop :=
  distance start x < min len 65536

structure Forgets (M : Type) [GuestMemory M] (t : Translator) (b : BlockMap) (start : Addr)
    (len : Nat) (t' : Translator) (b' : BlockMap) : Prop where
  inside : ∀ x, InRange start len x → b'.ptr? x = none ∧ b'.entryAt? x = none ∧ t'.note x = {}
  /-- A live block with a byte in the range dies, wherever it starts. -/
  blocks : ∀ s, (b.entryAt? s).isSome → ∃ (m : M) (rs : List Record), t.Describes b m s rs ∧
    ((∃ x, InRange start len x ∧ ∃ r ∈ rs, r.Covers x) → b'.entryAt? s = none)
  /-- Stale pointers take the block along that has started there since. -/
  named : ∀ x s, InRange start len x → b.owner? x = some s → b'.entryAt? s = none
  outside : ∀ x, ¬ InRange start len x → b'.ptr? x = b.ptr? x ∧ t'.note x = t.note x
  entry : ∀ s, ¬ InRange start len s → b'.entryAt? s = b.entryAt? s ∨
    b'.entryAt? s = none ∧ ∃ x, InRange start len x ∧ b.owner? x = some s
  again : t'.forgetRange b' start len = (t', b')
  all : 65536 ≤ len → t'.notes = t.flush.1.notes ∧ b' = t.flush.2
  rest : t'.arena = t.arena ∧ t'.settings = t.settings ∧ t'.counts = t.counts

theorem forgets_range (h : t.Lasting M b) (start : Addr) (len : Nat) :
    Forgets M t b start len (t.forgetRange b start len).1 (t.forgetRange b start len).2 where
  inside x inside := by
    have blank := CodeTables.blank_forgetFrom ⟨t.notes, b⟩ inside
    exact ⟨blank.ptr, blank.entry, blank.note⟩
  blocks s live := by
    obtain ⟨m, rs, described⟩ := h.describes live
    refine ⟨m, rs, described, ?_⟩
    rintro ⟨x, inside, covered⟩
    exact CodeTables.entryAt?_forgetFrom_of_drops (.inr ⟨x, inside, described.owner covered⟩)
  named x s inside owner :=
    CodeTables.entryAt?_forgetFrom_of_drops (.inr ⟨x, inside, owner⟩)
  outside x outside :=
    ⟨(CodeTables.ptr?_forgetFrom ⟨t.notes, b⟩ start _ x).trans (if_neg outside),
      (CodeTables.note_forgetFrom ⟨t.notes, b⟩ start _ x).trans (if_neg outside)⟩
  entry s outside := by
    by_cases drops : CodeTables.Drops ⟨t.notes, b⟩ start (min len 65536) s
    · right
      refine ⟨CodeTables.entryAt?_forgetFrom_of_drops drops, ?_⟩
      rcases drops with inside | named
      · exact absurd inside outside
      · exact named
    · exact .inl (CodeTables.entryAt?_forgetFrom_of_not_drops drops)
  again := by
    have twice := CodeTables.forgetFrom_twice ⟨t.notes, b⟩ start (min len 65536)
    simp only [forgetRange, twice]
  all long := by
    have every : min len 65536 = 65536 := Nat.min_eq_right long
    simp [forgetRange, every, CodeTables.forgetFrom_all, flush]
  rest := ⟨rfl, rfl, rfl⟩

/-- From whatever operations have led to, forgetting a range forgets exactly that range. -/
theorem Arises.forgets (h : Arises M t b) (start : Addr) (len : Nat) :
    Forgets M t b start len (t.forgetRange b start len).1 (t.forgetRange b start len).2 :=
  forgets_range h.lasting start len

/-- The second byte of the first instruction takes the whole block along; the other bytes of that
instruction still point at it. -/
theorem forgets_second_byte :
    narrow.validate = .ok () ∧ ∃ t b,
      (ofConfig narrow 0xFFFF).compile .empty incrementing 0 = .ok (0, t, b) ∧
      Forgets (PagedMemory Unit) t b 1 1 (t.forgetRange b 1 1).1 (t.forgetRange b 1 1).2 ∧
      b.entryAt? 0 = some 0 ∧ b.owner? 1 = some 0 ∧
      (t.forgetRange b 1 1).2.entryAt? 0 = none ∧ (t.forgetRange b 1 1).2.owner? 1 = none ∧
      (t.forgetRange b 1 1).2.owner? 2 = some 0 := by
  have valid : narrow.validate = .ok () := by decide +kernel
  have shown : ((ofConfig narrow 0xFFFF).compile .empty incrementing 0).toOption.map (fun out =>
      out.1 == 0 && out.2.2.entryAt? 0 == some 0 && out.2.2.owner? 1 == some 0 &&
        (out.2.1.forgetRange out.2.2 1 1).2.entryAt? 0 == none &&
        (out.2.1.forgetRange out.2.2 1 1).2.owner? 1 == none &&
        (out.2.1.forgetRange out.2.2 1 1).2.owner? 2 == some 0) = some true := by
    decide +kernel
  obtain ⟨⟨e, t, b⟩, done, facts⟩ := exists_ok_of_map shown
  simp only [Bool.and_eq_true, beq_iff_eq] at facts
  obtain ⟨⟨⟨⟨⟨rfl, entry⟩, owner⟩, dead⟩, clear⟩, stale⟩ := facts
  have arises := Arises.compile (.create valid 0xFFFF) done
  exact ⟨valid, t, b, done, arises.forgets 1 1, entry, owner, dead, clear, stale⟩

end Translator

end Mos6502
