import Mos6502.Proofs.Block.Total

/-! Charging the runs of a block is exact, and cutting a charged list makes no run dearer, so that
code which is there already can be charged anew in place. The checks of a finished block agree. -/
namespace Mos6502

namespace Record

structure Chargeable (rs : List Record) : Prop where
  first : ∃ r rest, rs = r :: rest ∧ r.startsRun = true
  heads : ∀ r ∈ rs, r.startsRun = true → r.Headed

/-- Each run head has got the cycles of its run, and nothing else has changed. -/
structure Charges (rs out : List Record) : Prop where
  length : out.length = rs.length
  heads : ∀ (i : Nat) (r : Record), rs[i]? = some r → r.startsRun = true →
    ∃ r', out[i]? = some r' ∧ r.IsCharged (UInt32.ofNat (runCycles (rs.drop i))) r'
  others : ∀ (i : Nat) (r : Record), rs[i]? = some r → r.startsRun = false → out[i]? = some r

theorem drop_of_getElem? {rs : List Record} {i : Nat} {r : Record} (place : rs[i]? = some r) :
    rs.drop i = r :: rs.drop (i + 1) := by
  obtain ⟨inside, rfl⟩ := List.getElem?_eq_some_iff.mp place
  exact List.drop_eq_getElem_cons inside

theorem charges_setTotals {rs : List Record} (heads : ∀ r ∈ rs, r.startsRun = true → r.Headed) :
    Charges rs (setTotals rs) where
  length := length_setTotals rs
  heads i r place starts := by
    have headed := heads r (List.mem_of_getElem? place) starts
    refine ⟨_, by rw [getElem?_setTotals, place]; rfl, ?_⟩
    simp only [withTotal, starts, if_true, owed_eq_ofNat, drop_of_getElem? place]
    exact headed.isCharged _
  others i r place runs_on := by
    simp [getElem?_setTotals, place, withTotal, runs_on]

theorem Charges.total {rs out : List Record} (h : Charges rs out) {i : Nat} {r : Record}
    {total : UInt32} (place : out[i]? = some r) (is : r.runTotal = some total) :
    total = UInt32.ofNat (runCycles (rs.drop i)) := by
  have inside : i < rs.length := by
    rw [← h.length]
    exact (List.getElem?_eq_some_iff.mp place).1
  obtain ⟨r₀, before⟩ : ∃ r₀, rs[i]? = some r₀ := ⟨_, List.getElem?_eq_getElem inside⟩
  cases starts : r₀.startsRun with
  | true =>
    obtain ⟨r', after, addr, cycles, size, rest, _, rfl⟩ := h.heads i r₀ before starts
    rw [place] at after
    cases after
    exact (Option.some.inj is).symm
  | false =>
    have after := h.others i r₀ before starts
    rw [place] at after
    cases after
    simp [startsRun, is] at starts

theorem Chargeable.first_starts {rs : List Record} (h : Chargeable rs) :
    ∀ r ∈ rs.head?, r.startsRun = true := by
  obtain ⟨r, rest, rfl, starts⟩ := h.first
  simpa using starts

theorem Chargeable.chargeRuns {rs : List Record} (h : Chargeable rs) :
    chargeRuns rs = .ok (Record.setTotals rs) :=
  chargeRuns_ok h.first_starts h.heads

theorem Chargeable.take {rs : List Record} (h : Chargeable rs) {n : Nat} (pos : 0 < n) :
    Chargeable (rs.take n) where
  first := by
    obtain ⟨r, rest, rfl, starts⟩ := h.first
    exact ⟨r, rest.take (n - 1), List.take_cons pos, starts⟩
  heads r mem := h.heads r (List.mem_of_mem_take mem)

theorem head_of_mem_setTotals {rs : List Record} {r : Record} (mem : r ∈ setTotals rs)
    (starts : r.startsRun = true) :
    ∃ r₀ ∈ rs, ∃ total, r₀.startsRun = true ∧ r = r₀.setTotal total := by
  induction rs with
  | nil => cases mem
  | cons r₁ rs ih =>
    rw [setTotals_cons] at mem
    rcases List.mem_cons.mp mem with rfl | mem
    · rw [(withTotal_fields r₁ _).2.2.2.2.2.2.2.2] at starts
      exact ⟨r₁, List.mem_cons_self, _, starts, if_pos starts⟩
    · obtain ⟨r₀, old, found⟩ := ih mem
      exact ⟨r₀, List.mem_cons_of_mem _ old, found⟩

theorem Chargeable.setTotals {rs : List Record} (h : Chargeable rs) :
    Chargeable (Record.setTotals rs) where
  first := by
    obtain ⟨r, rest, rfl, starts⟩ := h.first
    exact ⟨_, _, setTotals_cons r rest, (withTotal_fields r _).2.2.2.2.2.2.2.2.trans starts⟩
  heads r mem starts := by
    obtain ⟨r₀, old, total, starts₀, rfl⟩ := head_of_mem_setTotals mem starts
    exact (h.heads r₀ old starts₀).setTotal total

theorem Chargeable.carriesTotal {rs : List Record} (h : Chargeable rs) :
    ∀ r ∈ Record.setTotals rs, r.startsRun = true → r.CarriesTotal := by
  intro r mem starts
  obtain ⟨r₀, old, total, starts₀, rfl⟩ := head_of_mem_setTotals mem starts
  obtain ⟨addr, cycles, size, rest, _, charged⟩ := (h.heads r₀ old starts₀).isCharged total
  rw [charged]
  exact ⟨addr, total, size, rest, rfl, rfl⟩

structure ChargesWell (rs out : List Record) : Prop where
  charged : chargeRuns rs = .ok out
  exactly : Charges rs out
  again : chargeRuns out = .ok out
  /-- Totals have 32 bits, which hold the cycles of any run of up to 16843009 records. -/
  cut : ∀ n, 0 < n → ∃ short, chargeRuns (out.take n) = .ok short ∧
    chargeRuns (rs.take n) = .ok short ∧
    ∀ (i : Nat) (r r' : Record) (total total' : UInt32), short[i]? = some r → out[i]? = some r' →
      r.runTotal = some total → r'.runTotal = some total' →
      runCycles (rs.drop i) < UInt32.size → total ≤ total'
  cheaper : ∀ n i, runCycles ((rs.take n).drop i) ≤ runCycles (rs.drop i)
  accepted : checkBlock out = .ok () ↔
    ∀ (i : Nat) (r : Record), out[i]? = some r → (r.endsBlock = true ↔ i + 1 = out.length)

theorem runCycles_drop_take_le (rs : List Record) (n i : Nat) :
    runCycles ((rs.take n).drop i) ≤ runCycles (rs.drop i) := by
  rw [List.drop_take]
  exact runCycles_take_le _ _

theorem Chargeable.charges {rs : List Record} (h : Chargeable rs) :
    ChargesWell rs (Record.setTotals rs) where
  charged := h.chargeRuns
  exactly := charges_setTotals h.heads
  again := by rw [h.setTotals.chargeRuns, setTotals_setTotals]
  cut n pos := by
    refine ⟨Record.setTotals (rs.take n), ?_, (h.take pos).chargeRuns, ?_⟩
    · rw [(h.setTotals.take pos).chargeRuns, setTotals_take_setTotals]
    · intro i r r' total total' place place' is is' fits
      have less := runCycles_drop_take_le rs n i
      rw [(charges_setTotals (h.take pos).heads).total place is,
        (charges_setTotals h.heads).total place' is', UInt32.le_iff_toNat_le,
        UInt32.toNat_ofNat_of_lt' (Nat.lt_of_le_of_lt less fits), UInt32.toNat_ofNat_of_lt' fits]
      exact less
  cheaper := runCycles_drop_take_le rs
  accepted := by
    rw [← endsAtLast_iff]
    refine checkBlock_iff ?_ h.setTotals.first_starts
      (checkRuns_ok h.carriesTotal (charged_setTotals rs))
    obtain ⟨r, rest, is, _⟩ := h.setTotals.first
    rw [is]
    exact List.cons_ne_nil r rest

end Record

open Record

theorem TranslatorSettings.gather_chargeable {M : Type} [GuestMemory M] (s : TranslatorSettings)
    (notes : AddrTable AddrNote) (m : M) (start : Addr) (some_op : 0 < s.maxOps) :
    ∃ rs, s.gather notes m start = .ok rs ∧ Chargeable rs ∧ rs.length ≤ maxRecords ∧
      EndsAtLast rs := by
  obtain ⟨rs, found, gathered, more⟩ := s.gather_ok notes m start some_op
  obtain ⟨shape, short⟩ := gather_isBlock found
  refine ⟨rs, found, ⟨?_, shape.headed⟩, short, gathered.ends⟩
  obtain ⟨r, rest, rfl⟩ := List.exists_cons_of_ne_nil more
  exact ⟨r, rest, rfl, shape.first_starts r rfl⟩

/-- Charging is exact, can be repeated and cut short, and agrees with the checks of a finished
block; and every block that is gathered passes. -/
theorem runs_charged :
    (∀ rs, Chargeable rs → ∃ out, ChargesWell rs out) ∧
      ∀ {M : Type} [GuestMemory M] (m : M) (c : Config) (deviceFrom : Addr)
        (notes : AddrTable AddrNote) (start : Addr),
        ∃ rs out, (Translator.ofConfig c deviceFrom).settings.gather notes m start = .ok rs ∧
          Chargeable rs ∧ (∀ i, runCycles (rs.drop i) < UInt32.size) ∧
          chargeRuns rs = .ok out ∧ checkBlock out = .ok () := by
  constructor
  · intro rs h
    exact ⟨_, h.charges⟩
  · intro M _ m c deviceFrom notes start
    obtain ⟨rs, found, chargeable, short, ends⟩ :=
      (Translator.ofConfig c deviceFrom).settings.gather_chargeable notes m start
        (Nat.le_max_right _ _)
    refine ⟨rs, _, found, chargeable, ?_, chargeable.charges.charged, ?_⟩
    · intro i
      have most := runCycles_le (rs.drop i)
      have fewer : (rs.drop i).length ≤ rs.length := by simp
      have limit : TranslatorSettings.maxRecords = 256 := rfl
      have size : UInt32.size = 4294967296 := rfl
      omega
    · exact chargeable.charges.accepted.mpr ((endsAtLast_iff _).mp ends.setTotals)

def twoRuns : List Record :=
  [{ addr := 0, opcode := 0xEA, maxCycles := 2, runTotal := some 0,
     uops := [⟨.countdown 0 0, 0⟩, ⟨.raw 0xEA 0, 0⟩] },
   { addr := 1, opcode := 0xD0, len := 2, maxCycles := 4, branch := .conditional,
     uops := [⟨.raw 0xD0 3, 0⟩] },
   { addr := 3, opcode := 0x02, maxCycles := 2, endsBlock := true, runTotal := some 0,
     uops := [⟨.countdown 3 0, 0⟩, ⟨.interpret 3, 0⟩] }]

theorem runs_charged_two :
    Chargeable twoRuns ∧ ∃ out, ChargesWell twoRuns out ∧
      out.map (·.runTotal) = [some 6, none, some 2] ∧ checkBlock out = .ok () := by
  have chargeable : Chargeable twoRuns := by
    refine ⟨⟨_, _, rfl, rfl⟩, ?_⟩
    intro r mem starts
    simp only [twoRuns, List.mem_cons, List.not_mem_nil, or_false] at mem
    rcases mem with rfl | rfl | rfl
    · exact ⟨_, _, _, _, rfl, List.cons_ne_nil _ _⟩
    · cases starts
    · exact ⟨_, _, _, _, rfl, List.cons_ne_nil _ _⟩
  obtain ⟨out, well⟩ := runs_charged.1 twoRuns chargeable
  have is := chargeRuns_eq_ok well.charged
  subst is
  exact ⟨chargeable, _, well, by decide, rfl⟩

end Mos6502
