import Mos6502.Proofs.Block.Tables

/-! One compile, and what stays of a compiled block for as long as nothing is compiled over it:
its rows in the tables, its host code in the arena, and that no pointer of an older block of the
same start lies behind its entry. -/
namespace Mos6502

variable {M : Type} [GuestMemory M] {m : M} {o : LoweringOptions} {k : Record.Known}

theorem Operation.len_bounds (op : Operation) : 1 ≤ op.len.toNat ∧ op.len.toNat ≤ 3 := by
  unfold Operation.len
  cases op.mode <;> decide

namespace Record

theorem Lowered.len_eq {r : Record} (h : Lowered m o k r) : r.len = (operationOf r.opcode).len := by
  rw [h.len, h.opcode]
  rfl

theorem Lowered.len_bounds {r : Record} (h : Lowered m o k r) :
    1 ≤ r.len.toNat ∧ r.len.toNat ≤ 3 := by
  rw [h.len_eq]
  exact (operationOf r.opcode).len_bounds

theorem Lowered.opcode_eq {r : Record} (h : Lowered m o k r) :
    r.opcode = GuestMemory.read m r.addr := h.opcode

theorem Lowered.covers_self {r : Record} (h : Lowered m o k r) : r.Covers r.addr := by
  unfold Covers
  rw [distance_self]
  exact h.len_bounds.1

theorem IsBlock.span_le {tracked runs : Bool} {a : Addr} {rs : List Record}
    (h : IsBlock m o tracked k runs a rs) : span rs ≤ 3 * rs.length := by
  induction rs generalizing k runs a with
  | nil => exact Nat.le_refl 0
  | cons r rs ih =>
    have here := h.2.1.len_bounds.2
    have rest := ih h.2.2.2.2
    rw [span_cons, List.length_cons]
    omega

theorem IsBlock.lowered_of_mem {tracked runs : Bool} {a : Addr} {rs : List Record} {r : Record}
    (h : IsBlock m o tracked k runs a rs) (mem : r ∈ rs) : ∃ k, Lowered m o k r := by
  induction rs generalizing k runs a with
  | nil => cases mem
  | cons r' rs ih =>
    rcases List.mem_cons.mp mem with rfl | mem
    · exact ⟨k, h.2.1⟩
    · exact ih h.2.2.2.2 mem

def knownAfter (tracked : Bool) (k : Known) (rs : List Record) : Known :=
  rs.foldl (Known.after tracked) k

theorem IsBlock.split {tracked runs : Bool} {a : Addr} {pre post : List Record} {r : Record}
    (h : IsBlock m o tracked k runs a (pre ++ r :: post)) :
    IsBlock m o tracked (knownAfter tracked k pre) r.startsRun r.addr (r :: post) := by
  induction pre generalizing k runs a with
  | nil =>
    obtain ⟨_, lowered, _, rest⟩ := h
    exact ⟨rfl, lowered, rfl, rest⟩
  | cons p pre ih => exact ih h.2.2.2.2

theorem Charged.split {pre post : List Record} {r : Record} (h : Charged (pre ++ r :: post)) :
    r.startsRun = true → r.runTotal = some (r.maxCycles.toUInt32 + restOfRun post) := by
  induction pre with
  | nil => exact h.1
  | cons p pre ih => exact ih h.2

namespace Block

variable {s : TranslatorSettings} {start : Addr} {offset : Nat} {rs : List Record}

theorem span_le (h : Block m s start offset rs) : span rs ≤ 768 := by
  have len := h.shape.span_le
  have short : rs.length ≤ 256 := h.short
  omega

theorem covers_iff (h : Block m s start offset rs) (x : Addr) :
    (∃ r ∈ rs, r.Covers x) ↔ distance start x < span rs := by
  have len := h.span_le
  exact h.shape.contiguous.covers_iff (by omega) x

theorem covers_start (h : Block m s start offset rs) : ∃ r ∈ rs, r.Covers start := by
  obtain ⟨r, rs', rfl⟩ := List.exists_cons_of_ne_nil h.nonempty
  obtain ⟨addr, lowered, _⟩ := h.shape
  exact ⟨r, by simp, addr ▸ lowered.covers_self⟩

theorem head_offset (h : Block m s start offset rs) : rs.head?.bind (·.hostOffset) = some offset := by
  obtain ⟨r, rs', rfl⟩ := List.exists_cons_of_ne_nil h.nonempty
  exact h.placed.1

theorem restOfRun_eq_zero (h : Block m s start offset rs) : restOfRun rs = 0 := by
  obtain ⟨r, rs', rfl⟩ := List.exists_cons_of_ne_nil h.nonempty
  have runs : r.startsRun = true := h.shape.2.2.1
  rw [restOfRun, if_pos runs]

end Block

end Record

open Record

theorem CodeTables.noteBlock_spec {s : TranslatorSettings} {start : Addr} {offset entry : Nat}
    {rs : List Record} {t u : CodeTables} (block : Block m s start offset rs)
    (h : t.noteBlock start rs = .ok (entry, u)) :
    entry = offset ∧ u.ShowsAll start rs ∧ u.blocks.entryAt? start = some offset ∧
      ∀ x, ¬ distance start x < span rs → SameRow t u x := by
  unfold noteBlock at h
  obtain ⟨done, noted, h⟩ := bind_eq_ok.mp h
  simp only [block.head_offset] at h
  obtain ⟨blocks, given, done_eq⟩ := bind_eq_ok.mp h
  cases done_eq
  have len := block.span_le
  have short : rs.length ≤ 256 := block.short
  obtain ⟨shown, frame, _⟩ := Noting.foldlM_spec noted block.shape.contiguous (by omega) (by omega)
    block.charged block.restOfRun_eq_zero.symm
  unfold BlockMap.giveEntry at given
  split at given
  · cases given
  · cases given
    refine ⟨rfl, shown.of_kept fun x _ => ⟨rfl, rfl, rfl, ?_, id⟩, ?_, ?_⟩
    · intro other gone
      simpa [BlockMap.entryAt?, AddrTable.get_set, Ne.symm other] using gone
    · simp [BlockMap.entryAt?]
    · intro x outside
      have other : start ≠ x := by
        rintro rfl
        exact outside ((block.covers_iff _).mp block.covers_start)
      have row := frame x outside
      refine ⟨row.ptr, ?_, row.opcode, row.fixup, row.isStart⟩
      simpa [BlockMap.entryAt?, AddrTable.get_set, other] using row.entry

namespace Translator

variable {t t' : Translator} {b b' : BlockMap} {start : Addr} {entry : Nat} {rs : List Record}

/-- What compiling the block `rs` at `start` makes of the tables and the arena. -/
structure Adds (t : Translator) (b : BlockMap) (m : M) (start : Addr) (rs : List Record)
    (t' : Translator) (b' : BlockMap) : Prop where
  block : Block m t.settings start t.arena.cursor rs
  settings : t'.settings = t.settings
  shown : CodeTables.ShowsAll ⟨t'.notes, b'⟩ start rs
  entry : b'.entryAt? start = some t.arena.cursor
  frame : ∀ x, ¬ distance start x < span rs →
    CodeTables.SameRow ⟨t.notes, b.retire start⟩ ⟨t'.notes, b'⟩ x
  stored : t'.arena.Holds t.arena.cursor (HostOp.codeAll (blockOps m rs))
  cursor : t'.arena.cursor = t.arena.cursor + (HostOp.codeAll (blockOps m rs)).length
  room : t'.arena.cursor ≤ t'.arena.capacity
  generation : t'.arena.generation = t.arena.generation
  capacity : t'.arena.capacity = t.arena.capacity
  below : ∀ j < t.arena.cursor, t'.arena.byte? j = t.arena.byte? j

theorem sameRow_markStart (notes : AddrTable AddrNote) (b : BlockMap) {start x : Addr}
    (other : start ≠ x) :
    CodeTables.SameRow ⟨notes, b⟩ ⟨notes.update start AddrNote.markStart, b⟩ x := by
  constructor <;> simp [AddrTable.get_update, other]

theorem sameRow_markContinuation (notes : AddrTable AddrNote) (b : BlockMap) (cutAt : Option Addr)
    (x : Addr) :
    CodeTables.SameRow ⟨notes, b⟩
      ⟨match cutAt with
        | none => notes
        | some a => notes.update a AddrNote.markContinuation, b⟩ x := by
  cases cutAt with
  | none => exact .refl _ x
  | some a =>
    by_cases here : a = x
    · constructor <;> simp [AddrTable.get_update, AddrNote.markContinuation, here]
    · constructor <;> simp [AddrTable.get_update, here]

/-- A compile makes room, lays out the block and notes it. -/
theorem compile_eq_ok (h : t.compile b m start = .ok (entry, t', b')) :
    ∃ e, (t.makeRoom b).1.settings.layOut ((t.makeRoom b).1.notes.update start AddrNote.markStart)
        (t.makeRoom b).1.arena m start = .ok (e, t'.arena) ∧
      CodeTables.noteBlock start e.kept
        ⟨match e.cutAt with
          | none => (t.makeRoom b).1.notes.update start AddrNote.markStart
          | some a => ((t.makeRoom b).1.notes.update start AddrNote.markStart).update a
            AddrNote.markContinuation, (t.makeRoom b).2.retire start⟩
        = .ok (entry, ⟨t'.notes, b'⟩) ∧
      t'.settings = (t.makeRoom b).1.settings ∧
      t'.counts = (t.makeRoom b).1.counts.count e.cutAt.isSome := by
  unfold compile at h
  generalize t.makeRoom b = made at h
  obtain ⟨⟨settings, notes, counts, arena⟩, b₁⟩ := made
  dsimp only at h ⊢
  obtain ⟨⟨emission, arena'⟩, laid, h⟩ := bind_eq_ok.mp h
  obtain ⟨⟨entry', ⟨notes', blocks'⟩⟩, noted, h⟩ := bind_eq_ok.mp h
  cases h
  exact ⟨emission, laid, noted, rfl, rfl⟩

theorem compile_spec (h : t.compile b m start = .ok (entry, t', b'))
    (inside : (t.makeRoom b).1.arena.cursor ≤ (t.makeRoom b).1.arena.capacity) :
    entry = (t.makeRoom b).1.arena.cursor ∧
      ∃ rs, Adds (t.makeRoom b).1 (t.makeRoom b).2 m start rs t' b' := by
  obtain ⟨emission, laid, noted, settings, _⟩ := compile_eq_ok h
  obtain ⟨block, capacity, generation, cursor, room, below, stored, _⟩ :=
    TranslatorSettings.layOut_spec laid inside
  obtain ⟨rfl, shown, entry, frame⟩ := CodeTables.noteBlock_spec block noted
  refine ⟨rfl, emission.kept, block, settings, shown, entry, ?_, stored, cursor, room, generation,
    capacity, below⟩
  intro x outside
  have other : start ≠ x := by
    rintro rfl
    exact outside ((block.covers_iff _).mp block.covers_start)
  exact ((sameRow_markStart _ _ other).trans
    (sameRow_markContinuation _ _ emission.cutAt x)).trans (frame x outside)

end Translator

end Mos6502
