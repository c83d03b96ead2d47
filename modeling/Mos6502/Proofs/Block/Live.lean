import Mos6502.Proofs.Block.Compiled
import Mos6502.Proofs.Block.Forgetting

/-! What stays of a block once it is compiled, and the invariant of the tables: all this stays of
every live block. A compile kills the blocks that it overlaps, those that it starts inside of by
retiring them and those that start inside of it by dropping their entries. -/
namespace Mos6502

def recompiled {M : Type} (source : Addr → M) (start : Addr) (m : M) : Addr → M :=
  fun a => if a = start then m else source a

theorem recompiled_self {M : Type} (source : Addr → M) (start : Addr) (m : M) :
    recompiled source start m start = m := if_pos rfl

theorem recompiled_of_ne {M : Type} (source : Addr → M) {start s : Addr} (m : M)
    (other : s ≠ start) :
    recompiled source start m s = source s := if_neg other

variable {M : Type} [GuestMemory M] {m : M} {o : LoweringOptions} {k : Record.Known}

namespace Instruction

theorem mainUops_ne_nil (i : Instruction) : i.mainUops ≠ [] := by
  unfold mainUops
  split <;> try split
  all_goals exact List.cons_ne_nil _ _

theorem bodyUops_ne_nil (o : LoweringOptions) (i : Instruction) : i.bodyUops o ≠ [] := by
  simp [bodyUops, i.mainUops_ne_nil]

end Instruction

namespace Record

theorem lower_uopList_ne_nil (m : M) (o : LoweringOptions) (a : Addr) :
    (lower m o a).uopList ≠ [] := by
  simp only [lower, uopList]
  split <;> simp [Instruction.bodyUops_ne_nil]

theorem Lowered.uops_ne_nil {r : Record} (h : Lowered m o k r) : r.uops ≠ [] := by
  intro none
  have empty : r.uopList = [] := by rw [uopList, none]; rfl
  rw [h.uops, List.append_eq_nil_iff, List.append_eq_nil_iff, List.map_eq_nil_iff] at empty
  exact lower_uopList_ne_nil m o r.addr empty.1.2

theorem Lowered.hostSize_pos {r : Record} (h : Lowered m o k r)
    (fits : ∀ p ∈ r.uops, (emit m p.uop).length ≤ p.hostSize) : 0 < r.hostSize := by
  obtain ⟨p, ps, uops⟩ := List.exists_cons_of_ne_nil h.uops_ne_nil
  have first := fits p (by simp [uops])
  have pos := (HostOp.ofUop m p.uop).code_length_pos
  have sizes : r.hostSize = p.hostSize + (ps.map (·.hostSize)).sum := by
    simp [hostSize_eq_sum, uops]
  unfold emit at first
  omega

theorem PlacedAt.split {offset : Nat} {pre post : List Record} {r : Record}
    (h : PlacedAt m offset (pre ++ r :: post)) :
    PlacedAt m offset pre ∧ PlacedAt m (offset + (pre.map hostSize).sum) (r :: post) := by
  induction pre generalizing offset with
  | nil => exact ⟨trivial, h⟩
  | cons p pre ih =>
    obtain ⟨at_offset, fits, rest⟩ := h
    obtain ⟨before, behind⟩ := ih rest
    refine ⟨⟨at_offset, fits, before⟩, ?_⟩
    rw [List.map_cons, List.sum_cons, ← Nat.add_assoc]
    exact behind

theorem blockOps_split (m : M) (pre : List Record) (r : Record) (post : List Record) :
    blockOps m (pre ++ r :: post)
      = pre.flatMap (ops m) ++ (r.ops m ++ (onwardOps r post ++ blockOps m post)) := by
  induction pre with
  | nil => rfl
  | cons p pre ih =>
    have between : onwardOps p (pre ++ r :: post) = [] := by
      cases pre <;> rfl
    rw [List.cons_append, blockOps, between, List.nil_append, ih, List.flatMap_cons,
      List.append_assoc]

end Record

open Record

namespace BlockMap

/-- The address is a byte of the live block at `s`. Pointers that lie before its entry were left
by an older block of the same start. -/
def LiveAt (b : BlockMap) (s x : Addr) : Prop :=
  ∃ offset entry, b.ptr? x = some ⟨s, offset⟩ ∧ b.entryAt? s = some entry ∧ entry ≤ offset

structure Shrinks (b c : BlockMap) : Prop where
  ptr : ∀ x, c.ptr? x = b.ptr? x
  entry : ∀ s e, c.entryAt? s = some e → b.entryAt? s = some e

theorem Shrinks.refl (b : BlockMap) : b.Shrinks b :=
  ⟨fun _ => rfl, fun _ _ h => h⟩

theorem Shrinks.trans {b c d : BlockMap} (h : b.Shrinks c) (h' : c.Shrinks d) : b.Shrinks d :=
  ⟨fun x => (h'.ptr x).trans (h.ptr x), fun s e live => h.entry s e (h'.entry s e live)⟩

theorem shrinks_retire (b : BlockMap) (a : Addr) : b.Shrinks (b.retire a) where
  ptr := b.ptr?_retire a
  entry s e live := by
    rw [entryAt?_retire] at live
    split at live
    · cases live
    · exact live

theorem Shrinks.entry_none {b c : BlockMap} (h : b.Shrinks c) {s : Addr}
    (dead : b.entryAt? s = none) : c.entryAt? s = none := by
  cases live : c.entryAt? s with
  | none => rfl
  | some e => rw [h.entry s e live] at dead; cases dead

theorem Shrinks.liveAt {b c : BlockMap} (h : b.Shrinks c) {s x : Addr} (live : c.LiveAt s x) :
    b.LiveAt s x := by
  obtain ⟨offset, entry, ptr, live, order⟩ := live
  exact ⟨offset, entry, (h.ptr x).symm.trans ptr, h.entry s entry live, order⟩

theorem not_liveAt_retire (b : BlockMap) (a s : Addr) : ¬ (b.retire a).LiveAt s a := by
  rintro ⟨offset, entry, ptr, live, _⟩
  rw [ptr?_retire] at ptr
  have owner : b.owner? a = some s := by
    rw [owner?, ptr]
    rfl
  rw [b.entryAt?_retire_owner owner] at live
  cases live

end BlockMap

structure Image (M : Type) where
  memory : M
  settings : TranslatorSettings
  offset : Nat
  records : List Record

namespace Image

def ops (i : Image M) : List HostOp :=
  blockOps i.memory i.records

def Covers (i : Image M) (x : Addr) : Prop :=
  ∃ r ∈ i.records, r.Covers x

end Image

namespace TranslatorSettings

/-- Code compiled under `compiled` serves under `now`: only the tracking of page zero may have
been turned off. -/
def Serves (compiled now : TranslatorSettings) : Prop :=
  ∃ tracked, (now.options.zeroPageCode = true → tracked = true) ∧
    compiled = { now with options := { now.options with zeroPageCode := tracked } }

theorem Serves.refl (s : TranslatorSettings) : s.Serves s :=
  ⟨s.options.zeroPageCode, id, rfl⟩

end TranslatorSettings

namespace Translator

/-- What stays of a block, live or retired, until its addresses are compiled anew or forgotten. -/
structure Keeps (t : Translator) (b : BlockMap) (start : Addr) (i : Image M) : Prop where
  block : Block i.memory i.settings start i.offset i.records
  shown : CodeTables.ShowsAll ⟨t.notes, b⟩ start i.records
  stored : t.arena.Holds i.offset (HostOp.codeAll i.ops)
  inside : i.offset + (HostOp.codeAll i.ops).length ≤ t.arena.cursor
  /-- Pointers that an earlier compile at `start` left lie before the block. -/
  older : ∀ x offset, b.ptr? x = some ⟨start, offset⟩ → ¬ i.Covers x → offset < i.offset

/-- The invariant of tables and arena. `source` is the memory that each start was last compiled
from. -/
structure Sound (t : Translator) (b : BlockMap) (source : Addr → M) : Prop where
  room : t.arena.cursor ≤ t.arena.capacity
  behind : ∀ x p, b.ptr? x = some p → p.hostOffset < t.arena.cursor
  live : ∀ s entry, b.entryAt? s = some entry →
    ∃ i : Image M, i.memory = source s ∧ i.offset = entry ∧ i.settings.Serves t.settings ∧
      t.Keeps b s i

variable {t t' : Translator} {b b' : BlockMap} {start : Addr} {i : Image M}

theorem Keeps.of_kept (h : t.Keeps b start i)
    (kept : ∀ x, i.Covers x → CodeTables.KeptRow start ⟨t.notes, b⟩ ⟨t'.notes, b'⟩ x)
    (older : ∀ x offset, b'.ptr? x = some ⟨start, offset⟩ → b.ptr? x = some ⟨start, offset⟩)
    (cursor : t.arena.cursor ≤ t'.arena.cursor)
    (bytes : ∀ j < t.arena.cursor, t'.arena.byte? j = t.arena.byte? j) :
    t'.Keeps b' start i where
  block := h.block
  shown := h.shown.of_kept kept
  stored := h.stored.of_same fun j _ below => bytes j (Nat.lt_of_lt_of_le below h.inside)
  inside := Nat.le_trans h.inside cursor
  older x offset ptr outside := h.older x offset (older x offset ptr) outside

theorem Keeps.ptr_of_covers (h : t.Keeps b start i) {x : Addr} (covered : i.Covers x) :
    ∃ offset, b.ptr? x = some ⟨start, offset⟩ := by
  obtain ⟨r, mem, hx⟩ := covered
  obtain ⟨cycles, row⟩ := h.shown.of_mem mem
  obtain ⟨offset, _, ptr⟩ := row.ptr x hx
  exact ⟨offset, ptr⟩

theorem Keeps.inside_of_covers (h : t.Keeps b start i) {x : Addr} (covered : i.Covers x)
    (other : x ≠ start) : b.entryAt? x = none ∧ (t.note x).isStart = false := by
  obtain ⟨r, mem, hx⟩ := covered
  obtain ⟨cycles, row⟩ := h.shown.of_mem mem
  exact row.inside x hx other

theorem Keeps.owner_of_covers (h : t.Keeps b start i) {x : Addr} (covered : i.Covers x) :
    b.owner? x = some start := by
  obtain ⟨offset, ptr⟩ := h.ptr_of_covers covered
  rw [BlockMap.owner?, ptr]
  rfl

theorem Keeps.liveAt_iff (h : t.Keeps b start i) (live : b.entryAt? start = some i.offset)
    (x : Addr) : b.LiveAt start x ↔ i.Covers x := by
  constructor
  · rintro ⟨offset, entry, ptr, live', order⟩
    rw [live] at live'
    cases live'
    by_cases covered : i.Covers x
    · exact covered
    · exact absurd (h.older x offset ptr covered) (Nat.not_lt.mpr order)
  · rintro ⟨r, mem, covered⟩
    obtain ⟨cycles, row⟩ := h.shown.of_mem mem
    obtain ⟨offset, at_offset, ptr⟩ := row.ptr x covered
    obtain ⟨pre, post, split⟩ := List.append_of_mem mem
    have placed := h.block.placed
    rw [split] at placed
    have there := placed.split.2.1
    rw [at_offset] at there
    cases there
    exact ⟨_, _, ptr, live, Nat.le_add_right _ _⟩

/-! Each operation on the tables keeps the invariant. -/

variable {source : Addr → M}

theorem sound_ofConfig (c : Config) (deviceFrom : Addr) (source : Addr → M) :
    (ofConfig c deviceFrom).Sound .empty source where
  room := Nat.zero_le _
  behind x p ptr := by simp [BlockMap.ptr?, BlockMap.empty] at ptr
  live s entry live := by simp [BlockMap.entryAt?, BlockMap.empty] at live

theorem Sound.flush (_ : t.Sound b source) : t.flush.1.Sound t.flush.2 source where
  room := Nat.zero_le _
  behind x p ptr := by simp [Translator.flush, BlockMap.ptr?, BlockMap.empty] at ptr
  live s entry live := by simp [Translator.flush, BlockMap.entryAt?, BlockMap.empty] at live

theorem Sound.makeRoom (h : t.Sound b source) :
    (t.makeRoom b).1.Sound (t.makeRoom b).2 source := by
  unfold Translator.makeRoom
  split
  · exact h.flush
  · exact h

theorem Keeps.shrinks (h : t.Keeps b start i) (less : b.Shrinks b') : t.Keeps b' start i := by
  refine h.of_kept ?_ ?_ (Nat.le_refl _) fun _ _ => rfl
  · intro x _
    exact ⟨less.ptr x, rfl, rfl, fun _ dead => less.entry_none dead, id⟩
  · intro x offset ptr
    exact (less.ptr x).symm.trans ptr

theorem Sound.shrinks (h : t.Sound b source) (less : b.Shrinks b') : t.Sound b' source where
  room := h.room
  behind x p ptr := h.behind x p ((less.ptr x).symm.trans ptr)
  live s entry live := by
    obtain ⟨i, memory, offset, serves, keeps⟩ := h.live s entry (less.entry s entry live)
    exact ⟨i, memory, offset, serves, keeps.shrinks less⟩

theorem Sound.retire (h : t.Sound b source) (a : Addr) : t.Sound (b.retire a) source :=
  h.shrinks (b.shrinks_retire a)

theorem forgetFrom_spec (tables : CodeTables) (a : Addr) (n : Nat) :
    (∀ s e, (tables.forgetFrom a n).blocks.entryAt? s = some e →
      tables.blocks.entryAt? s = some e) ∧
      ∀ s x, (tables.forgetFrom a n).blocks.LiveAt s x →
        tables.blocks.LiveAt s x ∧ ¬ distance a x < n := by
  refine ⟨fun s e live => ((tables.entryAt?_forgetFrom a n s).mp live).1, ?_⟩
  rintro s x ⟨offset, entry, ptr, live, order⟩
  rw [CodeTables.ptr?_forgetFrom] at ptr
  split at ptr
  · cases ptr
  · next outside =>
    exact ⟨⟨offset, entry, ptr, ((tables.entryAt?_forgetFrom a n s).mp live).1, order⟩, outside⟩

theorem Keeps.forgetFrom {entry : Nat} (h : t.Keeps b start i) (a : Addr) (n : Nat)
    (live : (CodeTables.forgetFrom ⟨t.notes, b⟩ a n).blocks.entryAt? start = some entry) :
    let tables := CodeTables.forgetFrom ⟨t.notes, b⟩ a n
    Translator.Keeps { t with notes := tables.notes } tables.blocks start i := by
  obtain ⟨_, kept⟩ := (CodeTables.entryAt?_forgetFrom ⟨t.notes, b⟩ a n start).mp live
  have outside : ∀ x, i.Covers x → ¬ distance a x < n :=
    fun x covered inside => kept (.inr ⟨x, inside, h.owner_of_covers covered⟩)
  refine h.of_kept ?_ ?_ (Nat.le_refl _) fun _ _ => rfl
  · intro x covered
    have note := CodeTables.note_forgetFrom ⟨t.notes, b⟩ a n x
    rw [if_neg (outside x covered)] at note
    constructor
    · rw [CodeTables.ptr?_forgetFrom, if_neg (outside x covered)]
    · exact congrArg AddrNote.opcode note
    · exact congrArg AddrNote.fixup note
    · intro _ dead
      rw [Option.eq_none_iff_forall_ne_some]
      intro e alive
      have before := (forgetFrom_spec ⟨t.notes, b⟩ a n).1 x e alive
      rw [dead] at before
      cases before
    · exact (congrArg AddrNote.isStart note).trans
  · intro x offset ptr
    rw [CodeTables.ptr?_forgetFrom] at ptr
    split at ptr
    · cases ptr
    · exact ptr

theorem behind_forgetFrom {limit : Nat}
    (behind : ∀ x p, b.ptr? x = some p → p.hostOffset < limit) (a : Addr) (n : Nat) (x : Addr)
    (p : CodePtr)
    (ptr : (CodeTables.forgetFrom ⟨t.notes, b⟩ a n).blocks.ptr? x = some p) :
    p.hostOffset < limit := by
  rw [CodeTables.ptr?_forgetFrom] at ptr
  split at ptr
  · cases ptr
  · exact behind x p ptr

/-- Forgetting an address retires its block first, so the rows of live blocks stay. -/
theorem Sound.forgetFrom (h : t.Sound b source) (a : Addr) (n : Nat) :
    let tables := CodeTables.forgetFrom ⟨t.notes, b⟩ a n
    Translator.Sound { t with notes := tables.notes } tables.blocks source where
  room := h.room
  behind := behind_forgetFrom h.behind a n
  live s entry live := by
    have before := (forgetFrom_spec ⟨t.notes, b⟩ a n).1 s entry live
    obtain ⟨i, memory, offset, serves, keeps⟩ := h.live s entry before
    exact ⟨i, memory, offset, serves, keeps.forgetFrom a n live⟩

theorem Sound.forgetRange (h : t.Sound b source) (start : Addr) (len : Nat) :
    (t.forgetRange b start len).1.Sound (t.forgetRange b start len).2 source :=
  h.forgetFrom start (min len 65536)

theorem Sound.setZeroPageCode_off (h : t.Sound b source) :
    (t.setZeroPageCode false).Sound b source where
  room := h.room
  behind := h.behind
  live s entry live := by
    obtain ⟨i, memory, offset, ⟨tracked, _, compiled⟩, keeps⟩ := h.live s entry live
    refine ⟨i, memory, offset, ⟨tracked, ?_, compiled⟩, keeps.of_kept ?_ ?_ (Nat.le_refl _) ?_⟩
    · intro contra
      cases contra
    · exact fun x _ => (CodeTables.SameRow.refl _ x).kept s
    · exact fun x offset ptr => ptr
    · exact fun _ _ => rfl

theorem Sound.setZeroPageCode_on (_ : t.Sound b source) :
    (t.setZeroPageCode true).flush.1.Sound (t.setZeroPageCode true).flush.2 source where
  room := Nat.zero_le _
  behind x p ptr := by simp [Translator.flush, BlockMap.ptr?, BlockMap.empty] at ptr
  live s entry live := by simp [Translator.flush, BlockMap.entryAt?, BlockMap.empty] at live

theorem Adds.ptr_cases {rs : List Record} (h : Adds t b m start rs t' b') {x : Addr}
    {p : CodePtr} (ptr : b'.ptr? x = some p) :
    (distance start x < span rs ∧ p.block = start ∧ t.arena.cursor ≤ p.hostOffset ∧
        p.hostOffset < t'.arena.cursor) ∨
      (¬ distance start x < span rs ∧ b.ptr? x = some p) := by
  by_cases inside : distance start x < span rs
  · left
    obtain ⟨r, mem, covered⟩ := (h.block.covers_iff x).mpr inside
    obtain ⟨cycles, row⟩ := h.shown.of_mem mem
    obtain ⟨offset, at_offset, ptr'⟩ := row.ptr x covered
    rw [show b'.ptr? x = _ from ptr'] at ptr
    cases ptr
    obtain ⟨pre, post, rfl⟩ := List.append_of_mem mem
    obtain ⟨before, there, fits, _⟩ := h.block.placed.split
    obtain ⟨k, lowered⟩ := h.block.shape.lowered_of_mem mem
    have size := lowered.hostSize_pos fits
    rw [at_offset] at there
    cases there
    have cursor := h.cursor
    rw [blockOps_split, HostOp.codeAll_append, HostOp.codeAll_append, List.length_append,
      List.length_append, length_codeAll before, length_ops fits] at cursor
    exact ⟨inside, rfl, Nat.le_add_right _ _, by change _ + _ < _; omega⟩
  · right
    have row := (h.frame x inside).ptr
    rw [show b'.ptr? x = some p from ptr] at row
    exact ⟨inside, ((b.ptr?_retire start x).symm.trans row.symm)⟩

/-- Two blocks with a common byte: one starts inside of the other. -/
theorem distance_lt_or_lt {a s x : Addr} {m n : Nat} (hm : distance a x < m)
    (hn : distance s x < n) : distance a s < m ∨ distance s a < n := by
  rcases Nat.le_total (distance s x) (distance a x) with le | le
  · left
    have between := distance_between le
    omega
  · right
    have between := distance_between le
    omega

theorem Adds.live_outside {rs : List Record} {s : Addr} {entry : Nat}
    (h : Adds t b m start rs t' b') (live : b'.entryAt? s = some entry) (other : s ≠ start) :
    ¬ distance start s < span rs := by
  intro inside
  obtain ⟨r, mem, covered⟩ := (h.block.covers_iff s).mpr inside
  obtain ⟨cycles, row⟩ := h.shown.of_mem mem
  have gone := (row.inside s covered other).1
  rw [show b'.entryAt? s = _ from live] at gone
  cases gone

/-- A block that outlives a compile has no byte in common with the new block. -/
theorem Adds.apart {rs : List Record} {s : Addr} {entry : Nat} (h : Adds t b m start rs t' b')
    (keeps : t.Keeps (b.retire start) s i) (live : b'.entryAt? s = some entry)
    (other : s ≠ start) {x : Addr} (covered : i.Covers x) : ¬ distance start x < span rs := by
  intro inside
  have outside := h.live_outside live other
  rcases distance_lt_or_lt inside ((keeps.block.covers_iff x).mp covered) with near | near
  · exact outside near
  · have owner := keeps.owner_of_covers ((keeps.block.covers_iff start).mpr near)
    rw [BlockMap.owner?_retire] at owner
    have gone := b.entryAt?_retire_owner owner
    have row := (h.frame s outside).entry
    rw [show b'.entryAt? s = _ from live] at row
    rw [show (b.retire start).entryAt? s = _ from row.symm] at gone
    cases gone

theorem Adds.keeps {rs : List Record} {s : Addr} {entry : Nat} (h : Adds t b m start rs t' b')
    (keeps : t.Keeps b s i) (live : b'.entryAt? s = some entry) (other : s ≠ start) :
    t'.Keeps b' s i := by
  have keeps := keeps.shrinks (b.shrinks_retire start)
  have cursor := h.cursor
  refine keeps.of_kept ?_ ?_ (by omega) h.below
  · intro x covered
    exact (h.frame x (h.apart keeps live other covered)).kept s
  · intro x offset ptr
    rcases h.ptr_cases ptr with ⟨_, block, _⟩ | ⟨_, old⟩
    · exact absurd block other
    · exact (b.ptr?_retire start x).trans old

theorem Adds.behind {rs : List Record} (h : Adds t b m start rs t' b')
    (before : ∀ x p, b.ptr? x = some p → p.hostOffset < t.arena.cursor) (x : Addr) (p : CodePtr)
    (ptr : b'.ptr? x = some p) : p.hostOffset < t'.arena.cursor := by
  rcases h.ptr_cases ptr with ⟨_, _, _, below⟩ | ⟨_, old⟩
  · exact below
  · have below := before x p old
    have cursor := h.cursor
    omega

/-- A live block is the new one, or an older one that is kept as it was. -/
theorem Adds.live_cases {rs : List Record} {s : Addr} {entry : Nat} (h : Adds t b m start rs t' b')
    (before : ∀ x p, b.ptr? x = some p → p.hostOffset < t.arena.cursor)
    (live : b'.entryAt? s = some entry) :
    (s = start ∧ t.arena.cursor = entry ∧
        t'.Keeps b' start ⟨m, t.settings, t.arena.cursor, rs⟩) ∨
      (s ≠ start ∧ b.entryAt? s = some entry ∧ ∀ i : Image M, t.Keeps b s i → t'.Keeps b' s i) := by
  by_cases same : s = start
  · left
    subst same
    refine ⟨rfl, Option.some.inj (h.entry.symm.trans live), h.block, h.shown, h.stored,
      Nat.le_of_eq h.cursor.symm, ?_⟩
    intro x offset ptr outside
    rcases h.ptr_cases ptr with ⟨inside, _⟩ | ⟨_, old⟩
    · exact absurd ((h.block.covers_iff x).mpr inside) outside
    · exact before x _ old
  · right
    have survived : (b.retire start).entryAt? s = some entry :=
      (h.frame s (h.live_outside live same)).entry.symm.trans live
    exact ⟨same, (b.shrinks_retire start).entry s entry survived,
      fun _ keeps => h.keeps keeps live same⟩

theorem Sound.adds {rs : List Record} (h : t.Sound b source)
    (adds : Adds t b m start rs t' b') :
    t'.Sound b' (recompiled source start m) where
  room := adds.room
  behind := adds.behind h.behind
  live s entry live := by
    rcases adds.live_cases h.behind live with ⟨rfl, at_cursor, keeps⟩ | ⟨other, before, kept⟩
    · rw [recompiled_self]
      refine ⟨_, rfl, at_cursor, ?_, keeps⟩
      rw [adds.settings]
      exact .refl _
    · rw [recompiled_of_ne source m other]
      obtain ⟨i, memory, offset, serves, keeps⟩ := h.live s entry before
      exact ⟨i, memory, offset, adds.settings ▸ serves, kept i keeps⟩

theorem Sound.compile {entry : Nat} (h : t.Sound b source)
    (done : t.compile b m start = .ok (entry, t', b')) :
    t'.Sound b' (recompiled source start m) := by
  have made := h.makeRoom
  obtain ⟨_, rs, adds⟩ := compile_spec done made.room
  exact made.adds adds

/-! What a compile leaves as it was. -/

theorem makeRoom_spec (t : Translator) (b : BlockMap) :
    (t.makeRoom b).1.settings = t.settings ∧
      (t.makeRoom b).1.arena.capacity = t.arena.capacity ∧
      (∀ s e, (t.makeRoom b).2.entryAt? s = some e → b.entryAt? s = some e) ∧
      ∀ s x, (t.makeRoom b).2.LiveAt s x → b.LiveAt s x := by
  unfold Translator.makeRoom
  split
  · refine ⟨rfl, (t.arena.trap_fields 0 t.arena.cursor).1, ?_, ?_⟩
    · intro s e live
      simp [Translator.flush, BlockMap.entryAt?, BlockMap.empty] at live
    · rintro s x ⟨offset, entry, ptr, _⟩
      simp [Translator.flush, BlockMap.ptr?, BlockMap.empty] at ptr
  · exact ⟨rfl, rfl, fun _ _ h => h, fun _ _ h => h⟩

structure Compiles (t : Translator) (b : BlockMap) (start : Addr) (entry : Nat) (t' : Translator)
    (b' : BlockMap) : Prop where
  settings : t'.settings = t.settings
  capacity : t'.arena.capacity = t.arena.capacity
  entry : b'.entryAt? start = some entry
  others : ∀ s e, s ≠ start → b'.entryAt? s = some e → b.entryAt? s = some e
  bytes : ∀ s x, s ≠ start → b'.LiveAt s x → b.LiveAt s x

theorem Sound.compiles {entry : Nat} (h : t.Sound b source)
    (done : t.compile b m start = .ok (entry, t', b')) : Compiles t b start entry t' b' := by
  have made := h.makeRoom
  obtain ⟨same, size, entries, bytes⟩ := makeRoom_spec t b
  obtain ⟨rfl, rs, adds⟩ := compile_spec done made.room
  have others : ∀ s e, s ≠ start → b'.entryAt? s = some e →
      (t.makeRoom b).2.entryAt? s = some e := by
    intro s e other live
    have row := (adds.frame s (adds.live_outside live other)).entry
    refine ((t.makeRoom b).2.shrinks_retire start).entry s e ?_
    exact row.symm.trans live
  refine ⟨adds.settings.trans same, adds.capacity.trans size, adds.entry, ?_, ?_⟩
  · intro s e other live
    exact entries s e (others s e other live)
  · rintro s x other ⟨offset, entry, ptr, live, order⟩
    refine bytes s x ⟨offset, entry, ?_, others s entry other live, order⟩
    rcases adds.ptr_cases ptr with ⟨_, block, _⟩ | ⟨_, old⟩
    · exact absurd block other
    · exact old

end Translator

end Mos6502
