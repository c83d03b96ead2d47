import Mos6502.Proofs.Block.Total
import Mos6502.Proofs.HostCode.Emission
import Mos6502.Proofs.Native.Ops

/-! A compiled block, read back from the arena. Decoded one behind the other from the entry on, the
host instructions are those of the records that were planned, as far as these were kept; behind them
there are only traps. -/
namespace Mos6502

variable {M : Type} [GuestMemory M] {m : M} {o : LoweringOptions} {k : Record.Known}

namespace Arena

inductive Reads (a : Arena) : Nat → List HostOp → Nat → Prop
  | done (i : Nat) : Reads a i [] i
  | next {i n j : Nat} {op : HostOp} {ops : List HostOp} (here : a.decodeAt i = .ok (op, n))
    (rest : Reads a (i + n) ops j) : Reads a i (op :: ops) j

theorem reads_of_holds {a : Arena} {i : Nat} {ops : List HostOp} (stored : ∀ op ∈ ops, op.Stored)
    (h : a.Holds i (HostOp.codeAll ops)) : a.Reads i ops (i + (HostOp.codeAll ops).length) := by
  induction ops generalizing i with
  | nil => exact .done i
  | cons op ops ih =>
    rw [List.forall_mem_cons] at stored
    rw [HostOp.codeAll_cons] at h ⊢
    obtain ⟨here, behind⟩ := holds_append.mp h
    rw [List.length_append, ← Nat.add_assoc]
    exact .next (decodeAt_of_holds stored.1 here) (ih stored.2 behind)

end Arena

namespace Record

/-- What is read back of a record with `behind` kept behind it. Where a block was cut, a countdown
charges what is left of its run, and padding fills what it took before. -/
inductive ReadAs (m : M) (cut : Bool) (behind : List Record) (r : Record) : List HostOp → Prop
  | whole {ops : List HostOp} (uncharged : cut = false ∨ r.startsRun = false)
    (renders : List.Forall₂ (HostOp.Renders m) r.uopList ops) : ReadAs m cut behind r ops
  | recharged {total left : UInt32} {us : List Uop} {ops : List HostOp} (short : cut = true)
    (uops : r.uopList = .countdown r.addr total :: us)
    (owed : left = r.maxCycles.toUInt32 + restOfRun behind) (less : left ≤ total)
    (renders : List.Forall₂ (HostOp.Renders m) us ops) :
    ReadAs m cut behind r (.uop (.countdown r.addr left) ::
      List.replicate ((Uop.countdown r.addr total).code.length
        - (Uop.countdown r.addr left).code.length) .nop ++ ops)

/-- The records of the block at `start`, read back one behind the other. Each begins where the
tables say. -/
inductive AllRead (m : M) (cut : Bool) (a : Arena) (b : BlockMap) (start : Addr) :
    Nat → List Record → Nat → Prop
  | done (i : Nat) : AllRead m cut a b start i [] i
  | next {i j k : Nat} {r : Record} {rs : List Record} {ops : List HostOp}
    (ptr : b.ptr? r.addr = some ⟨start, i⟩) (here : r.ReadAs m cut rs ops)
    (reads : a.Reads i ops j) (rest : AllRead m cut a b start j rs k) :
    AllRead m cut a b start i (r :: rs) k

theorem renders_map (m : M) (us : List Uop) :
    List.Forall₂ (HostOp.Renders m) us (us.map (HostOp.ofUop m)) := by
  induction us with
  | nil => exact .nil
  | cons u us ih => exact .cons (HostOp.renders_ofUop m u) ih

theorem ops_placed (m : M) (ps : List Placed) :
    (ps.map fun p => { p with hostSize := (emit m p.uop).length }).flatMap (Placed.ops m)
      = (ps.map (·.uop)).map (HostOp.ofUop m) := by
  induction ps with
  | nil => rfl
  | cons p ps ih =>
    rw [List.map_cons, List.flatMap_cons, ih, Placed.ops, Nat.sub_self]
    rfl

theorem readAs_placeAt (m : M) (offset : Nat) (behind : List Record) (r : Record) {cut : Bool}
    (uncharged : cut = false ∨ r.startsRun = false) :
    r.ReadAs m cut behind ((r.placeAt m offset).ops m) := by
  have ops : (r.placeAt m offset).ops m = r.uopList.map (HostOp.ofUop m) := ops_placed m r.uops
  rw [ops]
  exact .whole uncharged (renders_map m r.uopList)

theorem readAs_withTotal (m : M) (offset : Nat) {r : Record} (lowered : Lowered m o k r)
    {rs behind : List Record}
    (charged : r.startsRun = true → r.runTotal = some (r.maxCycles.toUInt32 + restOfRun rs))
    (less : r.maxCycles.toUInt32 + restOfRun behind ≤ r.maxCycles.toUInt32 + restOfRun rs) :
    r.ReadAs m true behind (((r.placeAt m offset).withTotal (restOfRun behind)).ops m) := by
  by_cases starts : r.startsRun = true
  · obtain ⟨total, size, tail, is, uops⟩ := lowered.uops_head starts
    have sum := charged starts
    rw [is, Option.some.injEq] at sum
    have ops : ((r.placeAt m offset).withTotal (restOfRun behind)).ops m
        = .uop (.countdown r.addr (r.maxCycles.toUInt32 + restOfRun behind)) ::
          List.replicate ((Uop.countdown r.addr total).code.length
            - (Uop.countdown r.addr (r.maxCycles.toUInt32 + restOfRun behind)).code.length) .nop
          ++ (tail.map (·.uop)).map (HostOp.ofUop m) := by
      rw [← ops_placed m tail]
      unfold withTotal
      rw [if_pos (show (r.placeAt m offset).startsRun = true from starts)]
      simp only [setTotal, setCountdown, placeAt, uops, List.map_cons, ops, List.flatMap_cons]
      rfl
    rw [ops]
    refine .recharged rfl ?_ rfl (sum ▸ less) (renders_map m _)
    rw [uopList, uops]
    rfl
  · have same : (r.placeAt m offset).withTotal (restOfRun behind) = r.placeAt m offset :=
      if_neg starts
    rw [same]
    exact readAs_placeAt m offset behind r (.inr (Bool.eq_false_iff.mpr starts))

theorem allRead_cons {cut : Bool} {a : Arena} {b : BlockMap} {start : Addr} {offset j : Nat}
    {r : Record} {rs : List Record} {rest : List HostOp} (r' : Record) (addr : r'.addr = r.addr)
    (ptr : b.ptr? r'.addr = some ⟨start, offset⟩) (here : r.ReadAs m cut rs (r'.ops m))
    (holds : a.Holds offset (HostOp.codeAll (r'.ops m ++ rest)))
    (behind : a.Holds (offset + (HostOp.codeAll (r'.ops m)).length) (HostOp.codeAll rest) →
      AllRead m cut a b start (offset + (HostOp.codeAll (r'.ops m)).length) rs j) :
    AllRead m cut a b start offset (r :: rs) j := by
  rw [HostOp.codeAll_append, Arena.holds_append] at holds
  refine .next (addr ▸ ptr) here (Arena.reads_of_holds ?_ holds.1) (behind holds.2)
  exact fun op mem => (stored_of_mem_ops (List.mem_append_left (onwardOps r' []) mem)).1

def PointedAt (b : BlockMap) (start : Addr) (rs : List Record) : Prop :=
  ∀ r ∈ rs, ∀ i, r.hostOffset = some i → b.ptr? r.addr = some ⟨start, i⟩

theorem allRead_placeFrom {a : Arena} {b : BlockMap} {start : Addr} {offset : Nat}
    {rs : List Record} (ptrs : PointedAt b start (placeFrom m offset rs))
    (holds : a.Holds offset (HostOp.codeAll ((placeFrom m offset rs).flatMap (ops m)))) :
    AllRead m false a b start offset rs
      (offset + (HostOp.codeAll ((placeFrom m offset rs).flatMap (ops m))).length) := by
  induction rs generalizing offset with
  | nil => exact .done offset
  | cons r rs ih =>
    obtain ⟨here, ptrs⟩ := List.forall_mem_cons.mp ptrs
    rw [placeFrom, List.flatMap_cons] at holds ⊢
    refine allRead_cons (r.placeAt m offset) rfl (here offset rfl)
      (readAs_placeAt m offset rs r (.inl rfl)) holds fun rest => ?_
    rw [HostOp.codeAll_append, List.length_append, ← Nat.add_assoc]
    rw [codeAll_ops_placeAt] at rest ⊢
    exact ih ptrs rest

theorem allRead_setTotals {tracked runs : Bool} {a : Arena} {b : BlockMap} {start first : Addr}
    {offset : Nat} {rs : List Record} (shape : IsBlock m o tracked k runs first rs)
    (charged : Charged rs) (few : rs.length ≤ 65535) {n : Nat}
    (placed : PlacedAt m offset (setTotals (placeFrom m offset (rs.take n))))
    (ptrs : PointedAt b start (setTotals (placeFrom m offset (rs.take n))))
    (holds : a.Holds offset
      (HostOp.codeAll ((setTotals (placeFrom m offset (rs.take n))).flatMap (ops m)))) :
    AllRead m true a b start offset (rs.take n) (offset
      + (HostOp.codeAll ((setTotals (placeFrom m offset (rs.take n))).flatMap (ops m))).length) := by
  induction rs generalizing k runs first offset n with
  | nil =>
    rw [List.take_nil]
    exact .done offset
  | cons r rs ih =>
    cases n with
    | zero => exact .done offset
    | succ n =>
      obtain ⟨_, lowered, _, _, shape⟩ := shape
      rw [List.length_cons] at few
      rw [List.take_succ_cons, placeFrom, setTotals_cons, restOfRun_placeFrom] at placed ptrs holds ⊢
      obtain ⟨at_offset, fits, placed⟩ := placed
      obtain ⟨here, ptrs⟩ := List.forall_mem_cons.mp ptrs
      obtain ⟨addr, _⟩ := withTotal_fields (r.placeAt m offset) (restOfRun (rs.take n))
      rw [List.flatMap_cons] at holds ⊢
      have size : (HostOp.codeAll
          (((r.placeAt m offset).withTotal (restOfRun (rs.take n))).ops m)).length
          = (r.code m).length := by
        rw [length_ops fits, hostSize_withTotal, hostSize_placeAt]
      refine allRead_cons ((r.placeAt m offset).withTotal (restOfRun (rs.take n))) addr
        (here offset at_offset) (readAs_withTotal m offset lowered charged.1 (owed_take_le r (by omega) n))
        holds fun rest => ?_
      rw [HostOp.codeAll_append, List.length_append, ← Nat.add_assoc]
      rw [size] at rest ⊢
      rw [hostSize_withTotal, hostSize_placeAt] at placed
      exact ih shape charged.2 (by omega) placed ptrs rest

end Record

open Record

namespace CodeTables

theorem notes_coverBytes (start : Addr) (r : Record) (offset : Nat) (cycles : UInt32)
    (t : CodeTables) {n : Nat} (small : n ≤ 65536) {x : Addr} (outside : ¬ distance r.addr x < n) :
    ((List.range n).foldl (coverByte start r offset cycles) t).notes.get x = t.notes.get x := by
  induction n with
  | zero => rfl
  | succ n ih =>
    have other : ¬ r.addr + UInt16.ofNat n = x := by
      intro here
      have := (add_ofNat_eq_iff r.addr x (by omega)).mp here
      omega
    rw [List.range_succ, List.foldl_append, List.foldl_cons, List.foldl_nil]
    change (AddrTable.update _ _ _).get x = _
    rw [AddrTable.get_update, if_neg other]
    exact ih (by omega) (by omega)

end CodeTables

theorem Noting.notes_foldlM {start : Addr} {rs : List Record} {c d : Noting}
    (h : rs.foldlM (Noting.record start) c = .ok d) {x : Addr} (outside : ∀ r ∈ rs, ¬ r.Covers x) :
    d.tables.notes.get x = c.tables.notes.get x := by
  induction rs generalizing c with
  | nil => cases h; rfl
  | cons r rs ih =>
    rw [List.foldlM_cons] at h
    obtain ⟨c₁, first, rest⟩ := bind_eq_ok.mp h
    obtain ⟨here, outside⟩ := List.forall_mem_cons.mp outside
    rw [ih rest outside]
    unfold Noting.record at first
    dsimp only at first
    split at first
    · cases first
    · cases first
      have small := r.len.toNat_lt
      exact CodeTables.notes_coverBytes start r _ _ c.tables (by omega) here

theorem CodeTables.notes_noteBlock {start : Addr} {entry : Nat} {rs : List Record}
    {t u : CodeTables} (h : t.noteBlock start rs = .ok (entry, u)) {x : Addr}
    (outside : ∀ r ∈ rs, ¬ r.Covers x) : u.notes.get x = t.notes.get x := by
  unfold noteBlock at h
  obtain ⟨done, noted, h⟩ := bind_eq_ok.mp h
  have same := Noting.notes_foldlM noted outside
  split at h
  · cases h
    exact same
  · obtain ⟨blocks, _, is⟩ := bind_eq_ok.mp h
    cases is
    exact same

namespace Translator

def plan (t : Translator) (b : BlockMap) (m : M) (start : Addr) : Except Fault (List Record) :=
  let t := (t.makeRoom b).1
  t.settings.recordsOf (t.notes.update start AddrNote.markStart) m start

structure WholeBlock (m : M) (o : LoweringOptions) (start : Addr) (entry : Nat) (rs : List Record)
    (a : Arena) (b : BlockMap) : Prop where
  reads : AllRead m false a b start entry rs a.cursor
  leaves : ∃ last us u, rs.getLast? = some last ∧ last.uopList = us ++ [u] ∧
    Native.Ends (M := M) (HostOp.ofUop m u) ∧
      (u = .jump last.addrAfter ∨ (lower m o last.addr).endsBlock = true)

/-- The first records are there, and a jump to what would come next. A block that starts there
carries on. -/
structure CutBlock (m : M) (start : Addr) (entry : Nat) (kept : List Record) (t : Translator)
    (b : BlockMap) : Prop where
  reads : ∃ last i, kept.getLast? = some last ∧ AllRead m true t.arena b start entry kept i ∧
    t.arena.Reads i [.uop (.jump last.addrAfter)] t.arena.cursor ∧
    (t.note last.addrAfter).isContinuation = true

/-- What a compile that planned the records `rs` leaves in the arena. -/
structure Writes (t : Translator) (m : M) (start : Addr) (rs : List Record) (entry : Nat)
    (t' : Translator) (b' : BlockMap) : Prop where
  entered : b'.entryAt? start = some entry
  block : WholeBlock m t.settings.options start entry rs t'.arena b' ∨
    ∃ n, 0 < n ∧ n < rs.length ∧ CutBlock m start entry (rs.take n) t' b'
  traps : t'.arena.Trapped t'.arena.cursor
  /-- Older code stays, unless everything was dropped. -/
  older : (t'.counts.flushes = t.counts.flushes ∧ entry = t.arena.cursor ∧
      ∀ j < t.arena.cursor, t'.arena.byte? j = t.arena.byte? j) ∨
    t'.counts.flushes = t.counts.flushes + 1 ∧ entry = 0

structure Ready (t : Translator) : Prop where
  sized : t.Sized
  room : t.arena.cursor ≤ t.arena.capacity
  traps : t.arena.Trapped t.arena.cursor

variable {t t' : Translator} {b b' : BlockMap} {start : Addr} {entry : Nat}

theorem Ready.flush (h : t.Ready) : t.flush.1.Ready where
  sized := h.sized.of_same rfl (t.arena.trap_fields 0 t.arena.cursor).1
  room := Nat.zero_le _
  traps := Arena.trapped_clear h.traps

theorem Ready.makeRoom (h : t.Ready) (b : BlockMap) : (t.makeRoom b).1.Ready := by
  unfold Translator.makeRoom
  split
  · exact h.flush
  · exact h

theorem makeRoom_cases (t : Translator) (b : BlockMap) :
    ((t.makeRoom b).1.counts.flushes = t.counts.flushes ∧ (t.makeRoom b).1.arena = t.arena) ∨
      (t.makeRoom b).1.counts.flushes = t.counts.flushes + 1 ∧
        (t.makeRoom b).1.arena.cursor = 0 := by
  unfold Translator.makeRoom
  split
  · exact .inr ⟨rfl, rfl⟩
  · exact .inl ⟨rfl, rfl⟩

/-- The jump of a block that was cut leads to an address that the block does not cover. -/
theorem not_covered_onward {s : TranslatorSettings} {offset : Nat} {rs : List Record} {next : Addr}
    (block : Block m s start offset rs) (onwards : onward rs = [.uop (.jump next)]) :
    ∀ r ∈ rs, ¬ r.Covers next := by
  intro r mem covers
  obtain ⟨last, is_last⟩ := Option.isSome_iff_exists.mp
    (List.getLast?_isSome.mpr block.nonempty)
  have after := addrAfter_of_onward is_last onwards
  obtain ⟨pre, split⟩ := List.getLast?_eq_some_iff.mp is_last
  have chain := block.shape.contiguous
  rw [split] at chain
  have there := chain.addrAfter_last
  rw [after, ← split] at there
  have short := block.span_le
  have far := (add_ofNat_eq_iff start next (by omega)).mp there.symm
  have near := (block.covers_iff next).mp ⟨r, mem, covers⟩
  omega

theorem pointedAt_of_shown {s : TranslatorSettings} {offset : Nat} {rs : List Record}
    {tables : CodeTables} (block : Block m s start offset rs) (shown : tables.ShowsAll start rs) :
    PointedAt tables.blocks start rs := by
  intro r mem i place
  obtain ⟨k, lowered⟩ := block.shape.lowered_of_mem mem
  obtain ⟨cycles, row⟩ := shown.of_mem mem
  obtain ⟨offset, here, ptr⟩ := row.ptr _ lowered.covers_self
  rw [place] at here
  cases here
  exact ptr

theorem leaves_of_endsAtLast {tracked runs : Bool} {rs : List Record} {first : Addr}
    (shape : IsBlock m o tracked k runs first rs) (ends : EndsAtLast rs) (some_record : rs ≠ []) :
    ∃ last us u, rs.getLast? = some last ∧ last.uopList = us ++ [u] ∧
      Native.Ends (M := M) (HostOp.ofUop m u) ∧
        (u = .jump last.addrAfter ∨ (lower m o last.addr).endsBlock = true) := by
  induction rs generalizing k runs first with
  | nil => exact absurd rfl some_record
  | cons r rs ih =>
    obtain ⟨_, lowered, _, _, shape⟩ := shape
    obtain ⟨closed, ends⟩ := ends
    cases rs with
    | nil =>
      obtain ⟨us, u, split, leaves⟩ := lowered.uopList_ends closed
      exact ⟨r, us, u, rfl, split, leaves⟩
    | cons r' rs =>
      obtain ⟨last, us, u, is_last, leaves⟩ := ih shape ends (List.cons_ne_nil r' rs)
      exact ⟨last, us, u, by rw [List.getLast?_cons_cons, is_last], leaves⟩

theorem Ready.compile (h : t.Ready) (b : BlockMap) (m : M) (start : Addr) :
    ∃ rs entry t' b', t.plan b m start = .ok rs ∧ t.compile b m start = .ok (entry, t', b') ∧
      t.Writes m start rs entry t' b' := by
  obtain ⟨⟨entry, t', b'⟩, done⟩ := h.sized.compile_ok b m start
  obtain ⟨e, laid, noted, _, counts⟩ := compile_eq_ok done
  have made := h.makeRoom b
  have options := (makeRoom_spec t b).1
  obtain ⟨rs, n, c, d, found, pos, within, _, _, ending⟩ := TranslatorSettings.layOut_eq_ok laid
  obtain ⟨block, _, _, cursor, _, below, stored, traps⟩ :=
    TranslatorSettings.layOut_spec laid made.room
  obtain ⟨rfl, shown, entered, _⟩ := CodeTables.noteBlock_spec block noted
  obtain ⟨some_record, shape, charged, short, ends⟩ := TranslatorSettings.recordsOf_spec found
  have ptrs := pointedAt_of_shown block shown
  rw [blockOps_eq] at cursor stored
  refine ⟨rs, _, t', b', found, done, entered, ?_, traps made.traps, ?_⟩
  · rcases ending with ⟨_, _, kept, _⟩ | ⟨next, inside, cut, onwards, kept, _⟩
    · left
      have none : onward e.kept = [] := by rw [kept, onward_placeFrom, ends.onward]
      rw [none, List.append_nil, kept] at cursor stored
      rw [kept] at ptrs
      refine ⟨?_, options ▸ leaves_of_endsAtLast shape ends some_record⟩
      rw [cursor]
      exact allRead_placeFrom ptrs stored
    · -- The jump of the cut stands behind the records that were kept.
      right
      have onwards' : onward e.kept = [.uop (.jump next)] := by
        rw [kept, onward_setTotals, onward_placeFrom, onwards]
      have placed := block.placed
      have uncovered := CodeTables.notes_noteBlock noted (not_covered_onward block onwards')
      rw [cut] at uncovered
      rw [onwards', HostOp.codeAll_append] at cursor stored
      obtain ⟨records, jump⟩ := Arena.holds_append.mp stored
      rw [kept] at placed ptrs records jump cursor
      have reads := allRead_setTotals shape charged (Nat.le_trans short (by decide)) placed ptrs
        records
      obtain ⟨last, is_last⟩ := Option.isSome_iff_exists.mp
        (List.getLast?_isSome.mpr (show rs.take n ≠ [] by
          rw [← List.length_pos_iff, List.length_take]
          omega))
      have after := addrAfter_of_onward is_last onwards
      refine ⟨n, pos, inside, last, _, is_last, reads, ?_, ?_⟩
      · rw [after, cursor, List.length_append, ← Nat.add_assoc]
        refine Arena.reads_of_holds ?_ jump
        simp only [List.mem_singleton]
        rintro _ rfl
        exact HostOp.stored_ofUop m (.jump next)
      · rw [after]
        change (t'.notes.get next).isContinuation = true
        rw [uncovered]
        simp [AddrTable.get_update, AddrNote.markContinuation]
  · rw [counts]
    rcases makeRoom_cases t b with ⟨flushes, arena⟩ | ⟨flushes, empty⟩
    · rw [arena] at below ⊢
      exact .inl ⟨flushes, rfl, below⟩
    · exact .inr ⟨flushes, empty⟩

theorem Ready.compiled (h : t.Ready) (done : t.compile b m start = .ok (entry, t', b')) :
    t'.Ready := by
  have made := h.makeRoom b
  obtain ⟨e, laid, _, settings, _⟩ := compile_eq_ok done
  obtain ⟨_, capacity, _, _, room, _, _, traps⟩ := TranslatorSettings.layOut_spec laid made.room
  exact ⟨made.sized.of_same settings capacity, room, traps made.traps⟩

theorem ready_ofConfig {c : Config} (valid : c.validate = .ok ()) (deviceFrom : Addr) :
    (ofConfig c deviceFrom).Ready :=
  ⟨sized_ofConfig valid deviceFrom, Nat.zero_le _, Arena.trapped_ofSize c.arenaSize⟩

theorem Ready.setZeroPageCode (h : t.Ready) (on : Bool) : (t.setZeroPageCode on).Ready :=
  ⟨⟨h.sized.window, h.sized.inside, h.sized.offsets, h.sized.some_op⟩, h.room, h.traps⟩

/-- Translators and tables that operations lead to from a configuration that is accepted. Each
compile may find another memory. -/
inductive Arises (M : Type) [GuestMemory M] : Translator → BlockMap → Prop
  | create {c : Config} (valid : c.validate = .ok ()) (deviceFrom : Addr) :
    Arises M (ofConfig c deviceFrom) .empty
  | compile {t t' : Translator} {b b' : BlockMap} {m : M} {start : Addr} {entry : Nat}
    (before : Arises M t b) (done : t.compile b m start = .ok (entry, t', b')) : Arises M t' b'
  | retire {t : Translator} {b : BlockMap} (before : Arises M t b) (a : Addr) :
    Arises M t (b.retire a)
  | forgetRange {t : Translator} {b : BlockMap} (before : Arises M t b) (start : Addr) (len : Nat) :
    Arises M (t.forgetRange b start len).1 (t.forgetRange b start len).2
  | flush {t : Translator} {b : BlockMap} (before : Arises M t b) : Arises M t.flush.1 t.flush.2
  | setZeroPageCode {t : Translator} {b : BlockMap} (before : Arises M t b) (on : Bool) :
    Arises M (t.setZeroPageCode on) b

theorem Arises.ready (h : Arises M t b) : t.Ready := by
  induction h with
  | create valid deviceFrom => exact ready_ofConfig valid deviceFrom
  | compile _ done ih => exact ih.compiled done
  | retire _ _ ih => exact ih
  | forgetRange _ _ _ ih => exact ⟨ih.sized.of_same rfl rfl, ih.room, ih.traps⟩
  | flush _ ih => exact ih.flush
  | setZeroPageCode _ on ih => exact ih.setZeroPageCode on

/-- Whatever went before, a compile succeeds, and what it planned is read back from the arena. -/
theorem Arises.reads_back (h : Arises M t b) (m : M) (start : Addr) :
    ∃ rs entry t' b', t.plan b m start = .ok rs ∧ t.compile b m start = .ok (entry, t', b') ∧
      t.Writes m start rs entry t' b' :=
  h.ready.compile b m start

def incrementing : PagedMemory Unit :=
  { PagedMemory.blank with ram := .filled 0xFE }

/-- The window does not hold as many of them as a block may have. -/
def narrow : Config where
  maxOps := 37
  windowSize := 256
  arenaSize := 256

/-- What is left of the run fits a countdown that is three bytes shorter. -/
theorem reads_back_cut :
    narrow.validate = .ok () ∧ ∃ rs entry t b,
      (ofConfig narrow 0xFFFF).plan .empty incrementing 0 = .ok rs ∧
      (ofConfig narrow 0xFFFF).compile .empty incrementing 0 = .ok (entry, t, b) ∧
      (ofConfig narrow 0xFFFF).Writes incrementing 0 rs entry t b ∧ t.counts.truncated = 1 ∧
      t.arena.slice entry 7 = [0x01, 0x00, 0x00, 168, padByte, padByte, padByte] := by
  have valid : narrow.validate = .ok () := by decide +kernel
  have cut : (((ofConfig narrow 0xFFFF).compile .empty incrementing 0).map fun out =>
      (out.2.1.counts.truncated, out.2.1.arena.slice out.1 7)).toOption
      = some (1, [0x01, 0x00, 0x00, 168, padByte, padByte, padByte]) := by
    decide +kernel
  obtain ⟨rs, entry, t, b, planned, done, writes⟩ :=
    Arises.reads_back (.create valid 0xFFFF) incrementing 0
  rw [done] at cut
  obtain ⟨truncated, code⟩ := Prod.mk.inj (Option.some.inj cut)
  exact ⟨valid, rs, entry, t, b, planned, done, writes, truncated, code⟩

end Translator

end Mos6502
