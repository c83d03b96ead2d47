import Mathlib.Algebra.GroupWithZero.Nat
import Mos6502.Proofs.Block.Stages

/-! What charging makes of a list of records. A run reaches from its head to the next head; its
head gets the cycles of the run, and nothing else changes. -/
namespace Mos6502.Record

/-- The cycles of the records before the next run head. -/
def restCycles (rs : List Record) : Nat :=
  ((rs.takeWhile (!·.startsRun)).map (·.maxCycles.toNat)).sum

/-- The cycles of the run that the first record heads. -/
def runCycles : List Record → Nat
  | [] => 0
  | r :: rs => r.maxCycles.toNat + restCycles rs

theorem restCycles_cons (r : Record) (rs : List Record) :
    restCycles (r :: rs) = if r.startsRun then 0 else runCycles (r :: rs) := by
  unfold restCycles
  rw [List.takeWhile_cons]
  cases r.startsRun <;> simp [runCycles, restCycles]

theorem restCycles_le (rs : List Record) : restCycles rs ≤ 255 * rs.length := by
  induction rs with
  | nil => simp [restCycles]
  | cons r rs ih =>
    have here := r.maxCycles.toNat_lt
    rw [restCycles_cons, List.length_cons]
    split
    · omega
    · simp only [runCycles]
      omega

theorem restCycles_take_le (rs : List Record) (n : Nat) :
    restCycles (rs.take n) ≤ restCycles rs := by
  induction rs generalizing n with
  | nil => simp
  | cons r rs ih =>
    cases n with
    | zero => simp [restCycles]
    | succ n =>
      rw [List.take_succ_cons, restCycles_cons, restCycles_cons]
      split
      · exact Nat.le_refl 0
      · exact Nat.add_le_add_left (ih n) _

theorem runCycles_le (rs : List Record) : runCycles rs ≤ 255 * rs.length := by
  cases rs with
  | nil => simp [runCycles]
  | cons r rs =>
    have here := r.maxCycles.toNat_lt
    have rest := restCycles_le rs
    simp only [runCycles, List.length_cons]
    omega

theorem runCycles_take_le (rs : List Record) (n : Nat) : runCycles (rs.take n) ≤ runCycles rs := by
  cases rs with
  | nil => simp
  | cons r rs =>
    cases n with
    | zero => simp [runCycles]
    | succ n => exact Nat.add_le_add_left (restCycles_take_le rs n) _

theorem restOfRun_eq_ofNat (rs : List Record) : restOfRun rs = UInt32.ofNat (restCycles rs) := by
  induction rs with
  | nil => rfl
  | cons r rs ih =>
    rw [restOfRun, restCycles_cons, ih]
    split
    · rfl
    · simp [runCycles, UInt32.ofNat_add]

theorem toNat_restOfRun {rs : List Record} (few : rs.length ≤ 65536) :
    (restOfRun rs).toNat = restCycles rs := by
  have fits := restCycles_le rs
  rw [restOfRun_eq_ofNat]
  apply UInt32.toNat_ofNat_of_lt'
  simp only [UInt32.size]
  omega

theorem owed_eq_ofNat (r : Record) (rs : List Record) :
    r.maxCycles.toUInt32 + restOfRun rs = UInt32.ofNat (runCycles (r :: rs)) := by
  simp [restOfRun_eq_ofNat, runCycles, UInt32.ofNat_add]

/-! One record. -/

def Headed (r : Record) : Prop :=
  ∃ addr cycles size rest, r.uops = ⟨.countdown addr cycles, size⟩ :: rest ∧ rest ≠ []

theorem Headed.checkHead_ok {r : Record} (h : r.startsRun = true → r.Headed) :
    r.checkHead = .ok () := by
  unfold checkHead
  by_cases runs : r.startsRun = true
  · obtain ⟨addr, cycles, size, rest, uops, body⟩ := h runs
    obtain ⟨p, ps, rfl⟩ := List.exists_cons_of_ne_nil body
    simp [runs, uops, Uop.isCountdown]
  · simp [runs]

def IsCharged (r : Record) (total : UInt32) (r' : Record) : Prop :=
  ∃ addr cycles size rest, r.uops = ⟨.countdown addr cycles, size⟩ :: rest ∧
    r' = { r with uops := ⟨.countdown addr total, size⟩ :: rest, runTotal := some total }

theorem Headed.isCharged {r : Record} (h : r.Headed) (total : UInt32) :
    r.IsCharged total (r.setTotal total) := by
  obtain ⟨addr, cycles, size, rest, uops, _⟩ := h
  exact ⟨addr, cycles, size, rest, uops, setTotal_of_uops uops total⟩

theorem Headed.setTotal {r : Record} (h : r.Headed) (total : UInt32) :
    (r.setTotal total).Headed := by
  obtain ⟨addr, cycles, size, rest, uops, body⟩ := h
  rw [setTotal_of_uops uops]
  exact ⟨addr, total, size, rest, rfl, body⟩

theorem setTotal_setTotal (r : Record) (total total' : UInt32) :
    (r.setTotal total).setTotal total' = r.setTotal total' := by
  cases uops : r.uops with
  | nil => simp [Record.setTotal, setCountdown, uops]
  | cons p rest =>
    obtain ⟨u, size⟩ := p
    cases u <;> simp [Record.setTotal, setCountdown, uops]

theorem withTotal_withTotal (r : Record) (rest rest' : UInt32) :
    (r.withTotal rest).withTotal rest' = r.withTotal rest' := by
  obtain ⟨_, _, _, _, cycles, _, _, _, runs⟩ := withTotal_fields r rest
  by_cases starts : r.startsRun = true
  · rw [withTotal, runs, cycles]
    simp only [withTotal, starts, if_true, setTotal_setTotal]
  · simp [withTotal, starts]

/-! The whole list. -/

theorem getElem?_setTotals (rs : List Record) (i : Nat) :
    (setTotals rs)[i]? = rs[i]?.map (·.withTotal (restOfRun (rs.drop (i + 1)))) := by
  induction rs generalizing i with
  | nil => rfl
  | cons r rs ih =>
    rw [setTotals_cons]
    cases i with
    | zero => rfl
    | succ i => simpa using ih i

theorem restOfRun_take_setTotals (rs : List Record) (n : Nat) :
    restOfRun ((setTotals rs).take n) = restOfRun (rs.take n) := by
  induction rs generalizing n with
  | nil => rfl
  | cons r rs ih =>
    cases n with
    | zero => rfl
    | succ n =>
      obtain ⟨_, _, _, _, cycles, _, _, _, runs⟩ := withTotal_fields r (restOfRun rs)
      rw [setTotals_cons, List.take_succ_cons, List.take_succ_cons, restOfRun, restOfRun, runs,
        cycles, ih]

/-- What is left of a charged list is charged as if it had not been. -/
theorem setTotals_take_setTotals (rs : List Record) (n : Nat) :
    setTotals ((setTotals rs).take n) = setTotals (rs.take n) := by
  induction rs generalizing n with
  | nil => rfl
  | cons r rs ih =>
    cases n with
    | zero => rfl
    | succ n =>
      rw [setTotals_cons, List.take_succ_cons, List.take_succ_cons, setTotals_cons, setTotals_cons,
        restOfRun_take_setTotals, withTotal_withTotal, ih]

theorem setTotals_setTotals (rs : List Record) : setTotals (setTotals rs) = setTotals rs := by
  have all := setTotals_take_setTotals rs rs.length
  rwa [List.take_length, List.take_of_length_le (Nat.le_of_eq (length_setTotals rs))] at all

theorem chargeRuns_ok {rs : List Record} (first : ∀ r ∈ rs.head?, r.startsRun = true)
    (heads : ∀ r ∈ rs, r.startsRun = true → r.Headed) :
    chargeRuns rs = .ok (setTotals rs) := by
  have starts : rs.head?.any (!·.startsRun) = false := by
    cases rs with
    | nil => rfl
    | cons r rs => simpa using first
  have checks : rs.forM checkHead = .ok () := by
    clear first starts
    induction rs with
    | nil => rfl
    | cons r rs ih =>
      rw [List.forall_mem_cons] at heads
      change (checkHead r >>= fun _ => rs.forM checkHead) = .ok ()
      rw [Headed.checkHead_ok heads.1]
      exact ih heads.2
  unfold chargeRuns
  rw [starts, checks]
  rfl

def CarriesTotal (r : Record) : Prop :=
  ∃ addr total size rest, r.runTotal = some total ∧ r.uops = ⟨.countdown addr total, size⟩ :: rest

theorem checkRuns_ok {rs : List Record}
    (heads : ∀ r ∈ rs, r.startsRun = true → r.CarriesTotal) (charged : Charged rs) :
    checkRuns rs = .ok () := by
  induction rs with
  | nil => rfl
  | cons r rs ih =>
    rw [List.forall_mem_cons] at heads
    have rest := ih heads.2 charged.2
    unfold checkRuns
    dsimp only
    split
    · next starts =>
      have total := charged.1 starts
      obtain ⟨addr, total', size, body, same, uops⟩ := heads.1 starts
      rw [total] at same
      cases same
      have head : r.checkRun (r.maxCycles.toUInt32 + restOfRun rs) = .ok () := by
        simp [checkRun, uopList, uops, total]
      rw [head]
      exact rest
    · exact rest

theorem EndsAtLast.checkEnds_ok {rs : List Record} (h : EndsAtLast rs) (i : Nat) :
    checkEnds i rs = .ok () := by
  induction rs generalizing i with
  | nil => rfl
  | cons r rs ih =>
    unfold checkEnds
    rw [h.1]
    simpa using ih h.2 (i + 1)

theorem endsAtLast_iff (rs : List Record) :
    EndsAtLast rs ↔ ∀ i r, rs[i]? = some r → (r.endsBlock = true ↔ i + 1 = rs.length) := by
  induction rs with
  | nil => simp [EndsAtLast]
  | cons r rs ih =>
    have last : r.endsBlock = rs.isEmpty ↔ (r.endsBlock = true ↔ 0 + 1 = (r :: rs).length) := by
      cases rs <;> simp
    rw [EndsAtLast, ih, last]
    constructor
    · rintro ⟨here, rest⟩ i r' place
      cases i with
      | zero =>
        cases place
        exact here
      | succ i => simpa using rest i r' place
    · intro all
      exact ⟨all 0 r rfl, fun i r' place => by simpa using all (i + 1) r' place⟩

/-- Whether a block passes depends on the ends alone once its runs are charged. -/
theorem checkBlock_iff {rs : List Record} (more : rs ≠ [])
    (first : ∀ r ∈ rs.head?, r.startsRun = true) (runs : checkRuns rs = .ok ()) :
    checkBlock rs = .ok () ↔ EndsAtLast rs := by
  refine ⟨endsAtLast_of_checkBlock, ?_⟩
  intro ends
  have last := ends.checkEnds_ok 0
  obtain ⟨r, rs, rfl⟩ := List.exists_cons_of_ne_nil more
  have starts : r.startsRun = true := by simpa using first
  unfold checkBlock
  dsimp only
  rw [starts, runs, last]
  rfl

end Mos6502.Record
