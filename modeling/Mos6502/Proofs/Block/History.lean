import Mos6502.Proofs.Block.Lifetime
import Mos6502.Proofs.Block.ReadBack

/-! The tables after any history of compiles, retirements and flushes: the live blocks are chains
of instructions with no byte in common, and the tables describe each of them byte by byte. -/
namespace Mos6502

variable {M : Type} [GuestMemory M]

open Record

namespace Translator

/-- Tables that a history of operations leads to. Memory may change in any way between two
compiles; `source` is the memory that each start was last compiled from. -/
inductive Reached : Translator → BlockMap → (Addr → M) → Prop
  | create (c : Config) (deviceFrom : Addr) (source : Addr → M) :
    Reached (ofConfig c deviceFrom) .empty source
  | compile {t t' : Translator} {b b' : BlockMap} {source : Addr → M} {start : Addr} {m : M}
      {entry : Nat} (before : Reached t b source)
      (done : t.compile b m start = .ok (entry, t', b')) :
    Reached t' b' (recompiled source start m)
  | retire {t : Translator} {b : BlockMap} {source : Addr → M} (before : Reached t b source)
      (a : Addr) : Reached t (b.retire a) source
  | forgetRange {t : Translator} {b : BlockMap} {source : Addr → M} (before : Reached t b source)
      (start : Addr) (len : Nat) :
    Reached (t.forgetRange b start len).1 (t.forgetRange b start len).2 source
  | flush {t : Translator} {b : BlockMap} {source : Addr → M} (before : Reached t b source) :
    Reached t.flush.1 t.flush.2 source

theorem Reached.applyAll {t t' : Translator} {b b' : BlockMap} {source : Addr → M}
    {edits : List (TableEdit M)} (h : Reached t b source)
    (done : TableEdit.applyAll t b edits = .ok (t', b')) :
    ∃ source' : Addr → M, Reached t' b' source' := by
  induction edits generalizing t b source with
  | nil =>
    cases done
    exact ⟨source, h⟩
  | cons edit edits ih =>
    rw [TableEdit.applyAll, List.foldlM_cons] at done
    obtain ⟨⟨t₁, b₁⟩, first, rest⟩ := bind_eq_ok.mp done
    cases edit with
    | compile m start =>
      obtain ⟨⟨entry, t₂, b₂⟩, compiled, is⟩ := bind_eq_ok.mp first
      cases is
      exact ih (h.compile compiled) rest
    | retire a =>
      cases first
      exact ih (h.retire a) rest
    | forgetRange start len =>
      cases first
      exact ih (h.forgetRange start len) rest
    | flush =>
      cases first
      exact ih h.flush rest

theorem Reached.sound {t : Translator} {b : BlockMap} {source : Addr → M}
    (h : Reached t b source) : t.Sound b source := by
  induction h with
  | create c deviceFrom source => exact sound_ofConfig c deviceFrom source
  | compile _ done ih => exact ih.compile done
  | retire _ a ih => exact ih.retire a
  | forgetRange _ start len ih => exact ih.forgetRange start len
  | flush _ ih => exact ih.flush

/-- The live block at `start` is the instructions `rs`, all that it was compiled to, read from `m`. -/
structure Describes (t : Translator) (b : BlockMap) (m : M) (start : Addr) (rs : List Record) :
    Prop where
  nonempty : rs ≠ []
  chain : Contiguous start rs
  short : span rs ≤ 768
  /-- No byte of the block belongs to none of them. -/
  whole : ∀ x, b.LiveAt start x ↔ ∃ r ∈ rs, r.Covers x
  entry : b.entryAt? start = rs.head?.bind (·.hostOffset)
  /-- From the entry on, one behind the other, with the jump that closes a block that was cut. -/
  stored : ∃ entry, b.entryAt? start = some entry ∧ PlacedAt m entry rs ∧
    t.arena.Holds entry (HostOp.codeAll (blockOps m rs))
  instruction : ∀ r ∈ rs, r.opcode = GuestMemory.read m r.addr ∧
    r.len = (operationOf r.opcode).len
  ptr : ∀ r ∈ rs, ∃ offset, t.arena.Holds offset (HostOp.codeAll (r.ops m)) ∧
    r.hostOffset = some offset ∧ ∀ x, r.Covers x → b.ptr? x = some ⟨start, offset⟩
  first : ∀ r ∈ rs, (t.note r.addr).opcode = some r.opcode ∧ (t.note r.addr).fixup.isSome
  others : ∀ r ∈ rs, ∀ x, r.Covers x → x ≠ r.addr →
    (t.note x).opcode = none ∧ (t.note x).fixup = none
  inside : ∀ r ∈ rs, ∀ x, r.Covers x → x ≠ start →
    b.entryAt? x = none ∧ (t.note x).isStart = false

/-- The live blocks as chains of instructions: they share no byte, and retiring an address kills
the one that covers it. -/
structure Chained (t : Translator) (b : BlockMap) (source : Addr → M)
    (chain : Addr → List Record) : Prop where
  described : ∀ s, (b.entryAt? s).isSome → Describes t b (source s) s (chain s)
  disjoint : ∀ s s' x, (b.entryAt? s).isSome → (b.entryAt? s').isSome →
    (∃ r ∈ chain s, r.Covers x) → (∃ r ∈ chain s', r.Covers x) → s = s'
  retired : ∀ a s, ((b.retire a).entryAt? s).isSome → ¬ ∃ r ∈ chain s, r.Covers a

variable {t : Translator} {b : BlockMap} {start : Addr} {i : Image M}

theorem Keeps.stored_record (h : t.Keeps b start i) {r : Record} (mem : r ∈ i.records) :
    ∃ offset, r.hostOffset = some offset ∧
      t.arena.Holds offset (HostOp.codeAll (r.ops i.memory)) := by
  obtain ⟨pre, post, split⟩ := List.append_of_mem mem
  have placed := h.block.placed
  have stored := h.stored
  rw [split] at placed
  rw [Image.ops, split, blockOps_split, HostOp.codeAll_append, HostOp.codeAll_append,
    Arena.holds_append, Arena.holds_append] at stored
  obtain ⟨before, there, _⟩ := placed.split
  rw [length_codeAll before] at stored
  exact ⟨_, there, stored.2.1⟩

theorem Keeps.describes (h : t.Keeps b start i) (live : b.entryAt? start = some i.offset) :
    Describes t b i.memory start i.records where
  nonempty := h.block.nonempty
  chain := h.block.shape.contiguous
  short := h.block.span_le
  whole := h.liveAt_iff live
  entry := live.trans h.block.head_offset.symm
  stored := ⟨i.offset, live, h.block.placed, h.stored⟩
  instruction r mem := by
    obtain ⟨k, lowered⟩ := h.block.shape.lowered_of_mem mem
    exact ⟨lowered.opcode_eq, lowered.len_eq⟩
  ptr r mem := by
    obtain ⟨offset, there, holds⟩ := h.stored_record mem
    obtain ⟨cycles, row⟩ := h.shown.of_mem mem
    refine ⟨offset, holds, there, ?_⟩
    intro x covered
    obtain ⟨offset', there', ptr⟩ := row.ptr x covered
    rw [there] at there'
    cases there'
    exact ptr
  first r mem := by
    obtain ⟨k, lowered⟩ := h.block.shape.lowered_of_mem mem
    obtain ⟨cycles, row⟩ := h.shown.of_mem mem
    refine ⟨(row.opcode _ lowered.covers_self).trans (if_pos rfl), ?_⟩
    have fixup := (row.fixup _ lowered.covers_self).trans (if_pos rfl)
    rw [show (t.note r.addr).fixup = some cycles from fixup]
    rfl
  others r mem x covered other := by
    obtain ⟨cycles, row⟩ := h.shown.of_mem mem
    exact ⟨(row.opcode x covered).trans (if_neg other), (row.fixup x covered).trans (if_neg other)⟩
  inside r mem x covered other := h.inside_of_covers ⟨r, mem, covered⟩ other

/-- After any history the tables describe every live block byte by byte. -/
theorem Reached.chained {source : Addr → M} (h : Reached t b source) :
    ∃ chain : Addr → List Record, Chained t b source chain := by
  have image : ∀ s, ∃ i : Image M, (b.entryAt? s).isSome →
      i.memory = source s ∧ b.entryAt? s = some i.offset ∧ t.Keeps b s i := by
    intro s
    cases live : b.entryAt? s with
    | none => exact ⟨⟨source s, t.settings, 0, []⟩, by simp⟩
    | some entry =>
      obtain ⟨i, memory, offset, _, keeps⟩ := h.sound.live s entry live
      exact ⟨i, fun _ => ⟨memory, by rw [offset], keeps⟩⟩
  obtain ⟨images, at_live⟩ := Classical.axiomOfChoice image
  refine ⟨fun s => (images s).records, ?_, ?_, ?_⟩
  · intro s live
    obtain ⟨memory, entry, keeps⟩ := at_live s live
    exact memory ▸ keeps.describes entry
  · intro s s' x live live' covered covered'
    have owner := (at_live s live).2.2.owner_of_covers covered
    have owner' := (at_live s' live').2.2.owner_of_covers covered'
    rw [owner] at owner'
    exact Option.some.inj owner'
  · intro a s live covered
    have before : (b.entryAt? s).isSome := by
      rw [BlockMap.entryAt?_retire] at live
      split at live
      · cases live
      · exact live
    have owner := (at_live s before).2.2.owner_of_covers covered
    rw [b.entryAt?_retire_owner owner] at live
    cases live

def stepping : Config :=
  { narrow with maxOps := 3, arenaSize := 1024 }

/-- The second block starts inside of an instruction of the first one. The third runs over both of
their starts, inside of an instruction of its own. -/
def overlapping : List (TableEdit (PagedMemory Unit)) :=
  [.compile incrementing 2, .compile incrementing 3, .compile incrementing 1, .compile .blank 10]

/-- The last two blocks are left. The third covers the starts of the other two, up to where the fourth
one starts; behind that there is a pointer of the second. -/
theorem chained_overlapping : ∃ t b, ∃ (source : Addr → PagedMemory Unit),
    TableEdit.applyAll (ofConfig stepping 0xFFFF) .empty overlapping = .ok (t, b) ∧
      b.entryAt? 1 = some 74 ∧ b.entryAt? 10 = some 111 ∧ b.entryAt? 2 = none ∧
      b.entryAt? 3 = none ∧ b.owner? 11 = some 3 ∧
      ∃ chain, Chained t b source chain ∧ ∀ x ∈ [2, 3, 9], ∃ r ∈ chain 1, r.Covers x := by
  have shown : (TableEdit.applyAll (ofConfig stepping 0xFFFF) .empty overlapping).toOption.map
      (fun out => out.2.entryAt? 1 == some 74 && out.2.entryAt? 10 == some 111 &&
        out.2.entryAt? 2 == none && out.2.entryAt? 3 == none && out.2.owner? 11 == some 3 &&
        out.2.ptr? 2 == some ⟨1, 74⟩ && out.2.ptr? 3 == some ⟨1, 74⟩ &&
        out.2.ptr? 9 == some ⟨1, 98⟩) = some true := by
    decide +kernel
  obtain ⟨⟨t, b⟩, done, facts⟩ := exists_ok_of_map shown
  simp only [Bool.and_eq_true, beq_iff_eq] at facts
  obtain ⟨⟨⟨⟨⟨⟨⟨third, fourth⟩, first⟩, second⟩, stale⟩, ptr₂⟩, ptr₃⟩, ptr₉⟩ := facts
  obtain ⟨source, reached⟩ :=
    (Reached.create stepping 0xFFFF fun _ => PagedMemory.blank).applyAll done
  obtain ⟨chain, chained⟩ := reached.chained
  refine ⟨t, b, source, done, third, fourth, first, second, stale, chain, chained, ?_⟩
  have live : (b.entryAt? 1).isSome := by
    rw [third]
    rfl
  intro x inside
  refine ((chained.described 1 live).whole x).mp ?_
  rcases (by simpa using inside : x = 2 ∨ x = 3 ∨ x = 9) with rfl | rfl | rfl
  · exact ⟨74, 74, ptr₂, third, by decide⟩
  · exact ⟨74, 74, ptr₃, third, by decide⟩
  · exact ⟨98, 74, ptr₉, third, by decide⟩

end Translator

end Mos6502
