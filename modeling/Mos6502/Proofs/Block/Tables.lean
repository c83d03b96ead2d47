import Mos6502.Proofs.Block.Layout

/-! What the tables show of a block. A compile writes a row for every byte of its records and
leaves the rows of all other addresses as they were. -/
namespace Mos6502

namespace Record

def Covers (r : Record) (x : Addr) : Prop :=
  distance r.addr x < r.len.toNat

instance (r : Record) (x : Addr) : Decidable (r.Covers x) :=
  inferInstanceAs (Decidable (_ < _))

def Contiguous : Addr → List Record → Prop
  | _, [] => True
  | a, r :: rs => r.addr = a ∧ Contiguous r.addrAfter rs

def span (rs : List Record) : Nat :=
  (rs.map (·.len.toNat)).sum

theorem span_cons (r : Record) (rs : List Record) : span (r :: rs) = r.len.toNat + span rs := rfl

theorem IsBlock.contiguous {M : Type} [GuestMemory M] {m : M} {o : LoweringOptions}
    {tracked runs : Bool} {k : Known} {a : Addr} {rs : List Record}
    (h : IsBlock m o tracked k runs a rs) : Contiguous a rs := by
  induction rs generalizing k runs a with
  | nil => trivial
  | cons r rs ih => exact ⟨h.1, ih h.2.2.2.2⟩

theorem Contiguous.addrAfter_last {a : Addr} {pre : List Record} {r : Record}
    (h : Contiguous a (pre ++ [r])) : r.addrAfter = a + UInt16.ofNat (span (pre ++ [r])) := by
  induction pre generalizing a with
  | nil =>
    obtain ⟨rfl, _⟩ := h
    simp [addrAfter, span]
  | cons p pre ih =>
    obtain ⟨rfl, rest⟩ := h
    rw [List.cons_append, span_cons, UInt16.ofNat_add, ih rest, addrAfter]
    simp [UInt16.add_assoc]

theorem Contiguous.covers_iff {a : Addr} {rs : List Record} (h : Contiguous a rs)
    (short : span rs ≤ 65536) (x : Addr) :
    (∃ r ∈ rs, r.Covers x) ↔ distance a x < span rs := by
  induction rs generalizing a with
  | nil => simp [span]
  | cons r rs ih =>
    obtain ⟨rfl, rest⟩ := h
    rw [span_cons] at short ⊢
    have step := ih rest (by omega)
    have bound := distance_lt r.addr x
    simp only [List.mem_cons, exists_eq_or_imp, step]
    unfold Covers
    by_cases near : distance r.addr x < r.len.toNat
    · have far := distance_add_of_lt near
      unfold addrAfter
      omega
    · have closer := distance_add (Nat.le_of_not_lt near)
      unfold addrAfter
      omega

end Record

namespace Instruction

theorem cycles_bounds (i : Instruction) :
    2 ≤ i.operation.cycles.toNat ∧ i.operation.cycles.toNat < 9 := by
  change 2 ≤ (operationOf i.opcode).cycles.toNat ∧ (operationOf i.opcode).cycles.toNat < 9
  apply forall_opcode (p := fun opcode =>
    2 ≤ (operationOf opcode).cycles.toNat ∧ (operationOf opcode).cycles.toNat < 9)
  decide +kernel

theorem two_le_maxCycles (o : LoweringOptions) (i : Instruction) :
    2 ≤ (i.maxCycles o).toNat := by
  have bounds := i.cycles_bounds
  have more : ∀ penalty : UInt8, penalty.toNat ≤ 2 → 2 ≤ (i.operation.cycles + penalty).toNat := by
    intro penalty small
    rw [UInt8.toNat_add]
    omega
  unfold maxCycles
  refine more _ ?_
  split
  · decide
  · split
    · split <;> decide
    · split <;> decide
    · split <;> decide
    · split <;> decide
    · decide

end Instruction

namespace Record

theorem restOfRun_toNat_le (rs : List Record) (few : rs.length ≤ 65536) :
    (restOfRun rs).toNat ≤ 255 * rs.length := by
  rw [toNat_restOfRun few]
  exact restCycles_le rs

theorem toNat_owed (r : Record) {rs : List Record} (few : rs.length ≤ 65535) :
    (r.maxCycles.toUInt32 + restOfRun rs).toNat = r.maxCycles.toNat + (restOfRun rs).toNat := by
  have rest := restOfRun_toNat_le rs (by omega)
  have here := r.maxCycles.toNat_lt
  rw [UInt32.toNat_add, UInt8.toNat_toUInt32]
  omega

theorem owed_ne_zero {M : Type} [GuestMemory M] {m : M} {o : LoweringOptions} {k : Known}
    {r : Record} (h : Lowered m o k r) {rs : List Record} (few : rs.length ≤ 65535) :
    r.maxCycles.toUInt32 + restOfRun rs ≠ 0 := by
  intro free
  have owed := toNat_owed r few
  have here := (Instruction.fetch m r.addr).two_le_maxCycles o
  rw [free, h.maxCycles] at owed
  change 0 = ((Instruction.fetch m r.addr).maxCycles o).toNat + _ at owed
  omega

/-- Charging the cycles of a run one by one never passes below zero. -/
theorem used_le_total (r : Record) (rs : List Record) (few : rs.length ≤ 65535) :
    r.maxCycles.toUInt32 ≤ r.maxCycles.toUInt32 + restOfRun rs := by
  rw [UInt32.le_iff_toNat_le, toNat_owed r few, UInt8.toNat_toUInt32]
  exact Nat.le_add_right _ _

end Record

open Record

namespace CodeTables

/-- The tables say of every byte of `r` that it belongs to the block at `start`. `cycles` is what
leaving the block before `r` gives back. -/
structure Shows (t : CodeTables) (start : Addr) (cycles : UInt32) (r : Record) : Prop where
  ptr : ∀ x, r.Covers x →
    ∃ offset, r.hostOffset = some offset ∧ t.blocks.ptr? x = some ⟨start, offset⟩
  opcode : ∀ x, r.Covers x →
    (t.notes.get x).opcode = if x = r.addr then some r.opcode else none
  fixup : ∀ x, r.Covers x → (t.notes.get x).fixup = if x = r.addr then some cycles else none
  inside : ∀ x, r.Covers x → x ≠ start →
    t.blocks.entryAt? x = none ∧ (t.notes.get x).isStart = false

def ShowsAll (t : CodeTables) (start : Addr) : List Record → Prop
  | [] => True
  | r :: rs => t.Shows start (r.maxCycles.toUInt32 + restOfRun rs) r ∧ t.ShowsAll start rs

/-- At `x` the tables agree on everything but continuation marks. -/
structure SameRow (t u : CodeTables) (x : Addr) : Prop where
  ptr : u.blocks.ptr? x = t.blocks.ptr? x
  entry : u.blocks.entryAt? x = t.blocks.entryAt? x
  opcode : (u.notes.get x).opcode = (t.notes.get x).opcode
  fixup : (u.notes.get x).fixup = (t.notes.get x).fixup
  isStart : (u.notes.get x).isStart = (t.notes.get x).isStart

theorem SameRow.refl (t : CodeTables) (x : Addr) : SameRow t t x :=
  ⟨rfl, rfl, rfl, rfl, rfl⟩

theorem SameRow.trans {t u v : CodeTables} {x : Addr} (h : SameRow t u x) (h' : SameRow u v x) :
    SameRow t v x where
  ptr := h'.ptr.trans h.ptr
  entry := h'.entry.trans h.entry
  opcode := h'.opcode.trans h.opcode
  fixup := h'.fixup.trans h.fixup
  isStart := h'.isStart.trans h.isStart

/-- What the tables showed at `x` of the block at `start` is still there; entries and start marks
may be gone. -/
structure KeptRow (start : Addr) (t u : CodeTables) (x : Addr) : Prop where
  ptr : u.blocks.ptr? x = t.blocks.ptr? x
  opcode : (u.notes.get x).opcode = (t.notes.get x).opcode
  fixup : (u.notes.get x).fixup = (t.notes.get x).fixup
  entry : x ≠ start → t.blocks.entryAt? x = none → u.blocks.entryAt? x = none
  isStart : (t.notes.get x).isStart = false → (u.notes.get x).isStart = false

theorem SameRow.kept {t u : CodeTables} {x : Addr} (h : SameRow t u x) (start : Addr) :
    KeptRow start t u x where
  ptr := h.ptr
  opcode := h.opcode
  fixup := h.fixup
  entry _ gone := h.entry.trans gone
  isStart clear := h.isStart.trans clear

theorem Shows.of_kept {t u : CodeTables} {start : Addr} {cycles : UInt32} {r : Record}
    (h : t.Shows start cycles r) (kept : ∀ x, r.Covers x → KeptRow start t u x) :
    u.Shows start cycles r where
  ptr x hx := by rw [(kept x hx).ptr]; exact h.ptr x hx
  opcode x hx := by rw [(kept x hx).opcode]; exact h.opcode x hx
  fixup x hx := by rw [(kept x hx).fixup]; exact h.fixup x hx
  inside x hx other :=
    ⟨(kept x hx).entry other (h.inside x hx other).1, (kept x hx).isStart (h.inside x hx other).2⟩

theorem ShowsAll.of_kept {t u : CodeTables} {start : Addr} {rs : List Record}
    (h : t.ShowsAll start rs) (kept : ∀ x, (∃ r ∈ rs, r.Covers x) → KeptRow start t u x) :
    u.ShowsAll start rs := by
  induction rs with
  | nil => trivial
  | cons r rs ih =>
    refine ⟨h.1.of_kept fun x hx => kept x ⟨r, by simp, hx⟩, ih h.2 ?_⟩
    rintro x ⟨r', hr, hx⟩
    exact kept x ⟨r', by simp [hr], hx⟩

theorem ShowsAll.of_mem {t : CodeTables} {start : Addr} {rs : List Record} {r : Record}
    (h : t.ShowsAll start rs) (mem : r ∈ rs) : ∃ cycles, t.Shows start cycles r := by
  induction rs with
  | nil => cases mem
  | cons r' rs ih =>
    rcases List.mem_cons.mp mem with rfl | mem
    · exact ⟨_, h.1⟩
    · exact ih h.2 mem

theorem ShowsAll.split {t : CodeTables} {start : Addr} {pre post : List Record} {r : Record}
    (h : t.ShowsAll start (pre ++ r :: post)) :
    t.Shows start (r.maxCycles.toUInt32 + restOfRun post) r := by
  induction pre with
  | nil => exact h.1
  | cons p pre ih => exact ih h.2

theorem coverBytes_row (start : Addr) (r : Record) (offset : Nat) (cycles : UInt32)
    (t : CodeTables) (n : Nat) (small : n ≤ 65536) (x : Addr) :
    let u := (List.range n).foldl (coverByte start r offset cycles) t
    (distance r.addr x < n →
      u.blocks.ptr? x = some ⟨start, offset⟩ ∧
      u.blocks.entryAt? x = (if x = start then t.blocks.entryAt? x else none) ∧
      (u.notes.get x).opcode = (if x = r.addr then some r.opcode else none) ∧
      (u.notes.get x).fixup = (if x = r.addr then some cycles else none) ∧
      (u.notes.get x).isStart = ((t.notes.get x).isStart && x == start)) ∧
    (¬ distance r.addr x < n → SameRow t u x) := by
  induction n with
  | zero => exact ⟨fun h => absurd h (Nat.not_lt_zero _), fun _ => .refl t x⟩
  | succ n ih =>
    obtain ⟨covered, other⟩ := ih (by omega)
    dsimp only
    rw [List.range_succ, List.foldl_append, List.foldl_cons, List.foldl_nil]
    generalize (List.range n).foldl (coverByte start r offset cycles) t = u at covered other
    have at_n := add_ofNat_eq_iff r.addr x (i := n) (by omega)
    by_cases here : distance r.addr x = n
    · -- The row of this byte is written now.
      have same : r.addr + UInt16.ofNat n = x := at_n.mpr here
      have row := other (by omega)
      have first : (n = 0) ↔ x = r.addr := by
        rw [← here]
        exact distance_eq_zero_iff r.addr x
      refine ⟨fun _ => ⟨?_, ?_, ?_, ?_, ?_⟩, fun outside => absurd here (by omega)⟩
      · simp only [coverByte, same, BlockMap.ptr?, BlockMap.cover, BlockMap.dropEntry]
        split <;> simp
      · simp only [coverByte, same, BlockMap.entryAt?, BlockMap.cover, BlockMap.dropEntry]
        split
        · exact row.entry
        · simp
      · simp only [coverByte, same, AddrTable.get_update, if_true, first]
      · simp only [coverByte, same, AddrTable.get_update, if_true, first]
      · simp only [coverByte, same, AddrTable.get_update, if_true, row.isStart]
    · have ne : ¬ r.addr + UInt16.ofNat n = x := fun contra => here (at_n.mp contra)
      have row : SameRow u (coverByte start r offset cycles u n) x := by
        constructor
        · simp only [coverByte, BlockMap.ptr?, BlockMap.cover, BlockMap.dropEntry]
          split <;> simp [AddrTable.get_set, ne]
        · simp only [coverByte, BlockMap.entryAt?, BlockMap.cover, BlockMap.dropEntry]
          split <;> simp [AddrTable.get_set, ne]
        · simp only [coverByte, AddrTable.get_update, if_neg ne]
        · simp only [coverByte, AddrTable.get_update, if_neg ne]
        · simp only [coverByte, AddrTable.get_update, if_neg ne]
      constructor
      · intro near
        obtain ⟨h₁, h₂, h₃, h₄, h₅⟩ := covered (by omega)
        exact ⟨row.ptr.trans h₁, row.entry.trans h₂, row.opcode.trans h₃, row.fixup.trans h₄,
          row.isStart.trans h₅⟩
      · intro far
        exact (other (by omega)).trans row

theorem shows_coverRecord (start : Addr) {r : Record} {offset : Nat}
    (placed : r.hostOffset = some offset) (cycles : UInt32) (t : CodeTables) :
    (t.coverRecord start r offset cycles).Shows start cycles r := by
  have small : r.len.toNat ≤ 65536 := by
    have := r.len.toNat_lt
    omega
  have row := fun x => (coverBytes_row start r offset cycles t r.len.toNat small x).1
  constructor
  · intro x hx
    exact ⟨offset, placed, (row x hx).1⟩
  · intro x hx
    exact (row x hx).2.2.1
  · intro x hx
    exact (row x hx).2.2.2.1
  · intro x hx other
    refine ⟨(row x hx).2.1.trans (if_neg other), (row x hx).2.2.2.2.trans ?_⟩
    simp [other]

theorem coverRecord_outside (start : Addr) (r : Record) (offset : Nat) (cycles : UInt32)
    (t : CodeTables) {x : Addr} (outside : ¬ r.Covers x) :
    SameRow t (t.coverRecord start r offset cycles) x := by
  have small : r.len.toNat ≤ 65536 := by
    have := r.len.toNat_lt
    omega
  exact (coverBytes_row start r offset cycles t r.len.toNat small x).2 outside

theorem entryAt?_coverRecord_start (start : Addr) (r : Record) (offset : Nat) (cycles : UInt32)
    (t : CodeTables) :
    (t.coverRecord start r offset cycles).blocks.entryAt? start = t.blocks.entryAt? start := by
  by_cases inside : r.Covers start
  · have small : r.len.toNat ≤ 65536 := by
      have := r.len.toNat_lt
      omega
    have row := ((coverBytes_row start r offset cycles t r.len.toNat small start).1 inside).2.1
    exact row.trans (if_pos rfl)
  · exact (coverRecord_outside start r offset cycles t inside).entry

end CodeTables

namespace Noting

/-- Going through the records of a block: the rows of its bytes are written, all others stay. -/
theorem foldlM_spec {start a : Addr} {rs : List Record} {c d : Noting}
    (h : rs.foldlM (Noting.record start) c = .ok d) (chain : Contiguous a rs)
    (short : span rs ≤ 65536) (few : rs.length ≤ 65536) (charged : Charged rs)
    (carried : c.cycles = restOfRun rs) :
    d.tables.ShowsAll start rs ∧
      (∀ x, ¬ distance a x < span rs → CodeTables.SameRow c.tables d.tables x) ∧
      d.tables.blocks.entryAt? start = c.tables.blocks.entryAt? start := by
  induction rs generalizing a c with
  | nil =>
    cases h
    exact ⟨trivial, fun x _ => .refl _ x, rfl⟩
  | cons r rs ih =>
    obtain ⟨rfl, chain⟩ := chain
    obtain ⟨total, charged⟩ := charged
    rw [List.foldlM_cons] at h
    obtain ⟨c₁, first, rest⟩ := bind_eq_ok.mp h
    rw [span_cons] at short
    rw [List.length_cons] at few
    have cycles : r.runTotal.getD c.cycles = r.maxCycles.toUInt32 + restOfRun rs := by
      cases ht : r.runTotal with
      | none =>
        have quiet : r.startsRun = false := by simp [startsRun, ht]
        rw [Option.getD_none, carried, restOfRun, quiet]
        rfl
      | some sum =>
        have starts : r.startsRun = true := by simp [startsRun, ht]
        rw [Option.getD_some]
        exact Option.some.inj (ht.symm.trans (total starts))
    unfold Noting.record at first
    dsimp only at first
    rw [cycles] at first
    cases ho : r.hostOffset with
    | none => rw [ho] at first; cases first
    | some offset =>
      rw [ho] at first
      cases first
      have left : (if r.maxCycles.toUInt32 ≤ r.maxCycles.toUInt32 + restOfRun rs then
          r.maxCycles.toUInt32 + restOfRun rs - r.maxCycles.toUInt32 else 0) = restOfRun rs := by
        rw [if_pos (used_le_total r rs (by omega)), UInt32.add_comm, UInt32.add_sub_cancel]
      obtain ⟨shown, frame, entry⟩ := ih rest chain (by omega) (by omega) charged left
      have bound := fun x => distance_lt r.addr x
      refine ⟨⟨?_, shown⟩, ?_, ?_⟩
      · refine (CodeTables.shows_coverRecord start ho _ c.tables).of_kept ?_
        intro x hx
        refine (frame x ?_).kept start
        have far := distance_add_of_lt (show distance r.addr x < r.len.toNat from hx)
        unfold addrAfter
        omega
      · intro x outside
        rw [span_cons] at outside
        have beyond : ¬ r.Covers x := by
          unfold Covers
          omega
        refine (CodeTables.coverRecord_outside start r offset _ c.tables beyond).trans (frame x ?_)
        have closer := distance_add (show r.len.toNat ≤ distance r.addr x by omega)
        unfold addrAfter
        omega
      · rw [entry]
        exact CodeTables.entryAt?_coverRecord_start start r offset _ c.tables

end Noting

end Mos6502
