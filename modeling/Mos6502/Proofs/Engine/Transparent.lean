import Mos6502.Proofs.Engine.Refinement

/-! How a run is cut into blocks and into slices does not show. Runs that go on until the guest stops
by itself end at the first instruction of the machine that does so, and have spent the price of all
before it, whatever was compiled on the way and wherever the budget ran out. -/
namespace Mos6502

variable {σ ω ω' : Type}

namespace Machine

/-- After `n` steps the machine is, for the first time, at an instruction that stops it. -/
structure Quits (start : Machine σ) (n : Nat) (why : Stop) : Prop where
  goes : ∀ m ∈ start.visits n, m.report.exit = none
  quiet : (start.after n).cpu.interruptDue = false
  exit : (start.after n).report.exit = some why

variable {start : Machine σ} {n n' : Nat} {why why' : Stop}

theorem Quits.not_before (h : start.Quits n why) (h' : start.Quits n' why') : ¬ n < n' := by
  intro before
  have goes := h'.goes _ (mem_visits before h.quiet)
  rw [h.exit] at goes
  cases goes

theorem Quits.unique (h : start.Quits n why) (h' : start.Quits n' why') : n = n' ∧ why = why' := by
  have same : n = n' :=
    Nat.le_antisymm (Nat.not_lt.mp (h'.not_before h)) (Nat.not_lt.mp (h.not_before h'))
  subst same
  exact ⟨rfl, Option.some.inj (h.exit.symm.trans h'.exit)⟩

theorem Quits.behind {k : Nat} (h : (start.after k).Quits n why)
    (goes : ∀ m ∈ start.visits k, m.report.exit = none) : start.Quits (k + n) why where
  goes m mem := by
    rw [visits_add, List.mem_append] at mem
    exact mem.elim (goes m) (h.goes m)
  quiet := by
    rw [after_add]
    exact h.quiet
  exit := by
    rw [after_add]
    exact h.exit

end Machine

namespace Stopped

/-- The guest came from `start` to where it stopped by itself, and that cost `spent`. -/
def Completes (s : Stopped (PagedMemory σ) ω) (start : Machine σ) (timed : Bool) (spent : Int) : Prop :=
  ∃ n why, start.Quits n why ∧ s.engine.machine = start.after n ∧
    s.result = why.result (start.after n).cpu.pc ∧ spent = start.spent timed n

structure Alike (s : Stopped (PagedMemory σ) ω) (spent : Int) (s' : Stopped (PagedMemory σ) ω')
    (spent' : Int) : Prop where
  result : s.result = s'.result
  machine : s.engine.machine = s'.engine.machine
  spent : spent = spent'

variable {s : Stopped (PagedMemory σ) ω} {s' : Stopped (PagedMemory σ) ω'} {start : Machine σ}
  {timed : Bool} {spent spent' : Int}

theorem Completes.alike (h : s.Completes start timed spent) (h' : s'.Completes start timed spent') :
    s.Alike spent s' spent' := by
  obtain ⟨n, why, quits, lands, result, paid⟩ := h
  obtain ⟨n', why', quits', lands', result', paid'⟩ := h'
  obtain ⟨rfl, rfl⟩ := quits.unique quits'
  exact ⟨result.trans result'.symm, lands.trans lands'.symm, paid.trans paid'.symm⟩

theorem Completes.behind {k : Nat} (h : s.Completes (start.after k) timed spent)
    (goes : ∀ m ∈ start.visits k, m.report.exit = none) :
    s.Completes start timed (start.spent timed k + spent) := by
  obtain ⟨n, why, quits, lands, result, paid⟩ := h
  refine ⟨k + n, why, quits.behind goes, ?_, ?_, ?_⟩
  · rw [start.after_add]
    exact lands
  · rw [start.after_add]
    exact result
  · rw [start.spent_add, paid]

theorem EndsAfter.completes_of {budget : Int} {seen : List (Machine σ)} {n : Nat}
    (h : s.EndsAfter start timed budget seen n) (unasked : s.engine.haltRequest = 0)
    (unwatched : ¬ s.engine.MayStop) (ends : s.result ≠ .ok .countdown) :
    s.Completes start timed (budget - s.engine.cpu.budget) := by
  have spent := h.spent
  cases h.reason with
  | exit _ quiet is reports =>
    exact ⟨n, _, ⟨h.completes, quiet, reports⟩, h.lands, is, by omega⟩
  | countdown is => exact absurd is ends
  | observed _ may => exact absurd may unwatched
  | asked asked => exact absurd unasked asked

end Stopped

namespace Engine

variable {e e₁ e₂ : Engine (PagedMemory σ) ω} {source : Addr → PagedMemory σ} {fuel : Nat}
  {s : Stopped (PagedMemory σ) ω}

theorem History.completes (history : History referenceRunner (.idle e) source fun _ => False)
    (low : e.memory.LowPlain) (unasked : e.haltRequest = 0) (unwatched : ¬ e.MayStop)
    (ok : e.run fuel = .ok (.stopped s)) (ends : s.result ≠ .ok .countdown)
    (cacheable : ∀ m ∈ e.executed fuel, m.Cacheable e.tracksZeroPage) :
    s.Completes e.machine e.timed (e.cpu.budget - s.engine.cpu.budget) := by
  obtain ⟨n, stretch⟩ := history.endsAfter low ok cacheable
  have host := sameHost_run ok
  refine stretch.completes_of (host.haltRequest.trans unasked) ?_ ends
  unfold MayStop
  rw [host.observer]
  exact unwatched

/-- However two new engines lay their code out in blocks, in an arena of whatever size, with whatever
passes and observers that stop nothing, the same program comes to the same, cycles included. -/
theorem partition_invisible {memory : PagedMemory σ} {config₁ config₂ : Config} {host₁ : ω}
    {host₂ : ω'} {cpu : Cpu} {observer₁ : Option (Observer ω)} {observer₂ : Option (Observer ω')}
    {e₁ : Engine (PagedMemory σ) ω} {e₂ : Engine (PagedMemory σ) ω'} {pc : Addr}
    {budget₁ budget₂ : Int} {fuel₁ fuel₂ : Nat} {s₁ : Stopped (PagedMemory σ) ω}
    {s₂ : Stopped (PagedMemory σ) ω'}
    (made₁ : fresh memory config₁ host₁ cpu observer₁ = .ok e₁)
    (made₂ : fresh memory config₂ host₂ cpu observer₂ = .ok e₂)
    (timings : config₁.exactTimings = config₂.exactTimings)
    (zeroPage : config₁.zeroPageCode = config₂.zeroPageCode)
    (low : memory.LowPlain) (unwatched₁ : ¬ e₁.MayStop) (unwatched₂ : ¬ e₂.MayStop)
    (ok₁ : (e₁.aim pc budget₁).run fuel₁ = .ok (.stopped s₁))
    (ok₂ : (e₂.aim pc budget₂).run fuel₂ = .ok (.stopped s₂))
    (ends₁ : s₁.result ≠ .ok .countdown) (ends₂ : s₂.result ≠ .ok .countdown)
    (cacheable₁ : ∀ m ∈ (e₁.aim pc budget₁).executed fuel₁, m.Cacheable config₁.zeroPageCode)
    (cacheable₂ : ∀ m ∈ (e₂.aim pc budget₂).executed fuel₂, m.Cacheable config₁.zeroPageCode) :
    s₁.Alike (budget₁ - s₁.engine.cpu.budget) s₂ (budget₂ - s₂.engine.cpu.budget) := by
  have is₁ := isNew_of_fresh made₁
  have is₂ := isNew_of_fresh made₂
  rw [← is₁.tracks] at cacheable₁
  rw [zeroPage, ← is₂.tracks] at cacheable₂
  have done₁ : s₁.Completes (e₁.core.machine pc) e₁.timed (budget₁ - s₁.engine.cpu.budget) :=
    ((is₁.history fun _ => memory).aim pc budget₁).completes (is₁.memory ▸ low) is₁.unasked
      unwatched₁ ok₁ ends₁ cacheable₁
  have done₂ : s₂.Completes (e₂.core.machine pc) e₂.timed (budget₂ - s₂.engine.cpu.budget) :=
    ((is₂.history fun _ => memory).aim pc budget₂).completes (is₂.memory ▸ low) is₂.unasked
      unwatched₂ ok₂ ends₂ cacheable₂
  rw [is₁.machine, is₁.timed, timings] at done₁
  rw [is₂.machine, is₂.timed] at done₂
  exact done₁.alike done₂

def paired : Config :=
  { zeroPageCode := true, windowSize := 300, arenaSize := 1000, maxOps := 2, optimizations := .none }

theorem paired_overwrites :
    ∃ e s, fresh overwriting paired () .powerOn none = .ok e ∧ Overwrites e s :=
  exists_overwrites (by decide +kernel)

theorem exit_ne_countdown : (.ok .exit : Except EngineError Halt) ≠ .ok .countdown := by
  intro same
  exact absurd (Except.ok.inj same) (by decide)

theorem Overwrites.not_countdown {e : Engine (PagedMemory Unit) Unit}
    {s : Stopped (PagedMemory Unit) Unit} (h : Overwrites e s) : s.result ≠ .ok .countdown := by
  rw [h.result]
  exact exit_ne_countdown

theorem not_mayStop_of_none {e : Engine (PagedMemory σ) ω} (none : e.observer = none) :
    ¬ e.MayStop := by
  rintro ⟨observer, is, _⟩
  rw [none] at is
  cases is

/-- One block overwrites itself, or the first of two the second. -/
theorem partition_invisible_overwriting : ∃ e₁ e₂ s₁ s₂,
    fresh overwriting tight () .powerOn none = .ok e₁ ∧
      fresh overwriting paired () .powerOn none = .ok e₂ ∧ Overwrites e₁ s₁ ∧ Overwrites e₂ s₂ ∧
      s₁.Alike (100 - s₁.engine.cpu.budget) s₂ (100 - s₂.engine.cpu.budget) := by
  obtain ⟨e₁, s₁, made₁, runs₁⟩ := tight_overwrites
  obtain ⟨e₂, s₂, made₂, runs₂⟩ := paired_overwrites
  have is₁ := isNew_of_fresh made₁
  have is₂ := isNew_of_fresh made₂
  refine ⟨e₁, e₂, s₁, s₂, made₁, made₂, runs₁, runs₂, ?_⟩
  exact partition_invisible made₁ made₂ rfl rfl (PagedMemory.lowPlain_load_blank _ _)
    (not_mayStop_of_none is₁.observer) (not_mayStop_of_none is₂.observer) runs₁.run runs₂.run
    runs₁.not_countdown runs₂.not_countdown (fun m mem => is₁.tracks ▸ (runs₁.executed m mem).1)
    fun m mem => is₂.tracks ▸ (runs₂.executed m mem).1

/-- From the current program counter, slice after slice with whatever budgets, until one ends in
something other than a countdown. In between the host leaves the engine alone, or looks at the
processor and writes back what it found. `ms` is what is executed in all, and `spent` what that costs. -/
inductive Sliced : Engine (PagedMemory σ) ω → List (Machine σ) → Int → Stopped (PagedMemory σ) ω → Prop
  | last {e : Engine (PagedMemory σ) ω} {budget : Int} {fuel : Nat} {s : Stopped (PagedMemory σ) ω}
    (ok : (e.aim e.cpu.pc budget).run fuel = .ok (.stopped s)) (ends : s.result ≠ .ok .countdown) :
    Sliced e ((e.aim e.cpu.pc budget).executed fuel) (budget - s.engine.cpu.budget) s
  | more {e e' : Engine (PagedMemory σ) ω} {budget spent : Int} {fuel : Nat}
    {s s' : Stopped (PagedMemory σ) ω} {ms : List (Machine σ)}
    (ok : (e.aim e.cpu.pc budget).run fuel = .ok (.stopped s)) (paused : s.result = .ok .countdown)
    (between : e' = s.engine ∨ ∃ f, f s.engine.cpu = s.engine.cpu ∧ e' = s.engine.modifyCpu f)
    (rest : Sliced e' ms spent s') :
    Sliced e ((e.aim e.cpu.pc budget).executed fuel ++ ms) (budget - s.engine.cpu.budget + spent) s'

theorem modifyCpu_same {f : Cpu → Cpu} (same : f e.cpu = e.cpu) : e.modifyCpu f = e.setPause none := by
  have cpu : f e.core.cpu = e.core.cpu := same
  unfold modifyCpu
  rw [mapCpu_eq, cpu]

theorem History.between {e' : Engine (PagedMemory σ) ω}
    (history : History referenceRunner (.idle e) source fun _ => False)
    (between : e' = e ∨ ∃ f, f e.cpu = e.cpu ∧ e' = e.modifyCpu f) :
    History referenceRunner (.idle e') source (fun _ => False) ∧
      (e' = e ∨ e' = e.setPause none) := by
  rcases between with rfl | ⟨f, same, rfl⟩
  · exact ⟨history, .inl rfl⟩
  · exact ⟨history.modifyCpu f, .inr (modifyCpu_same same)⟩

theorem Sliced.completes {ms : List (Machine σ)} {spent : Int} (sliced : Sliced e ms spent s)
    (history : History referenceRunner (.idle e) source fun _ => False)
    (low : e.memory.LowPlain) (unasked : e.haltRequest = 0) (unwatched : ¬ e.MayStop)
    (cacheable : ∀ m ∈ ms, m.Cacheable e.tracksZeroPage) : s.Completes e.machine e.timed spent := by
  induction sliced generalizing source with
  | @last e budget fuel s ok ends =>
    exact (history.aim e.cpu.pc budget).completes low unasked unwatched ok ends cacheable
  | @more e e' budget spent fuel s s' ms ok paused between rest ih =>
    have here := fun m mem => cacheable m (List.mem_append_left _ mem)
    have there := fun m mem => cacheable m (List.mem_append_right _ mem)
    have history' := history.aim e.cpu.pc budget
    obtain ⟨n, stretch⟩ := history'.endsAfter low ok here
    obtain ⟨settings, pages⟩ := history'.setup_run low ok
    have host := sameHost_run ok
    obtain ⟨source', after⟩ := history'.run ok
    obtain ⟨after, is⟩ := after.between between
    -- Neither the pause nor the budget is part of the machine.
    have same : e'.machine = s.engine.machine ∧ e'.memory = s.engine.memory ∧
        e'.haltRequest = s.engine.haltRequest ∧ e'.observer = s.engine.observer ∧
        e'.translator = s.engine.translator := by
      rcases is with rfl | rfl <;> exact ⟨rfl, rfl, rfl, rfl, rfl⟩
    obtain ⟨machine, memory, request, observer, translator⟩ := same
    have timed : e'.timed = e.timed :=
      (congrArg (·.settings.options.exactTimings) translator).trans
        (congrArg (·.options.exactTimings) settings)
    have tracks : e'.tracksZeroPage = e.tracksZeroPage :=
      (congrArg (·.settings.options.zeroPageCode) translator).trans
        (congrArg (·.options.zeroPageCode) settings)
    have done := ih after (low.of_pages (memory ▸ pages)) (request.trans (host.haltRequest.trans unasked))
      (by unfold MayStop; rw [observer, host.observer]; exact unwatched) (tracks ▸ there)
    have lands : s.engine.machine = e.machine.after n := stretch.lands
    rw [machine, lands, timed] at done
    have paid : budget - s.engine.cpu.budget = e.machine.spent e.timed n := by
      have paid : s.engine.cpu.budget + e.machine.spent e.timed n = budget := stretch.spent
      omega
    rw [paid]
    exact done.behind stretch.completes

/-- Slices come to what one run comes to, for the same cycles in all, wherever the budget of a slice
runs out and whether or not the next goes on in place. After a change of registers the next run does
what it does on an engine that is new. -/
theorem History.slices_invisible (history : History referenceRunner (.idle e) source fun _ => False)
    (low : e.memory.LowPlain) (unasked : e.haltRequest = 0) (unwatched : ¬ e.MayStop) :
    (∀ {pc budget fuel s ms spent s'}, (e.aim pc budget).run fuel = .ok (.stopped s) →
      s.result ≠ .ok .countdown → Sliced (e.aim pc budget) ms spent s' →
      (∀ m ∈ (e.aim pc budget).executed fuel, m.Cacheable e.tracksZeroPage) →
      (∀ m ∈ ms, m.Cacheable e.tracksZeroPage) →
      s.Alike (budget - s.engine.cpu.budget) s' spent) ∧
    (∀ {change : Cpu → Cpu} {config : Config} {host : ω} {new : Engine (PagedMemory σ) ω}
      {pc budget budget' fuel fuel' s s'},
      fresh e.memory config host (change e.cpu) none = .ok new →
      config.exactTimings = e.timed → config.zeroPageCode = e.tracksZeroPage →
      ((e.modifyCpu change).aim pc budget).run fuel = .ok (.stopped s) →
      (new.aim pc budget').run fuel' = .ok (.stopped s') →
      s.result ≠ .ok .countdown → s'.result ≠ .ok .countdown →
      (∀ m ∈ ((e.modifyCpu change).aim pc budget).executed fuel, m.Cacheable e.tracksZeroPage) →
      (∀ m ∈ (new.aim pc budget').executed fuel', m.Cacheable e.tracksZeroPage) →
      s.Alike (budget - s.engine.cpu.budget) s' (budget' - s'.engine.cpu.budget)) := by
  refine ⟨?_, ?_⟩
  · intro pc budget fuel s ms spent s' ok ends sliced cacheable cacheable'
    have aimed := history.aim pc budget
    exact (aimed.completes low unasked unwatched ok ends cacheable).alike
      (sliced.completes aimed low unasked unwatched cacheable')
  · intro change config host new pc budget budget' fuel fuel' s s' made timings zeroPage ok ok' ends
      ends' cacheable cacheable'
    have is := isNew_of_fresh made
    rw [← zeroPage, ← is.tracks] at cacheable'
    have done : s.Completes (Core.machine ⟨change e.cpu, e.core.bus⟩ pc) e.timed
        (budget - s.engine.cpu.budget) :=
      ((history.modifyCpu change).aim pc budget).completes low unasked unwatched ok ends cacheable
    have done' : s'.Completes (new.core.machine pc) new.timed (budget' - s'.engine.cpu.budget) :=
      ((is.history fun _ => e.memory).aim pc budget').completes (is.memory ▸ low) is.unasked
        (not_mayStop_of_none is.observer) ok' ends' cacheable'
    rw [is.machine, is.timed, timings] at done'
    exact done.alike done'

def pauses (e : Engine (PagedMemory Unit) Unit) : Bool :=
  match (e.aim 0 5).run 20 with
  | .ok (.stopped ⟨e', .ok reason⟩) =>
    reason == .countdown && e'.cpu.pc == 4 && e'.paused.isSome &&
      decide (∀ m ∈ (e.aim 0 5).executed 20, m.Cacheable e.tracksZeroPage) &&
      match (e'.aim 4 50).run 20 with
      | .ok (.stopped ⟨_, .ok reason⟩) => reason == .exit &&
        decide (∀ m ∈ (e'.aim 4 50).executed 20, m.Cacheable e.tracksZeroPage)
      | _ => false
  | _ => false

theorem sliced_of_pauses {e : Engine (PagedMemory Unit) Unit} (h : pauses e = true) :
    ∃ ms spent s, Sliced (e.aim 0 100) ms spent s ∧ ∀ m ∈ ms, m.Cacheable e.tracksZeroPage := by
  unfold pauses at h
  split at h
  · next e' reason run =>
    simp only [Bool.and_eq_true, beq_iff_eq, decide_eq_true_eq] at h
    obtain ⟨⟨⟨⟨rfl, pc⟩, _⟩, first⟩, h⟩ := h
    split at h
    · next e'' reason' run' =>
      simp only [Bool.and_eq_true, beq_iff_eq, decide_eq_true_eq] at h
      obtain ⟨rfl, second⟩ := h
      rw [← pc] at run' second
      have rest : Sliced e' _ _ _ := .last run' exit_ne_countdown
      refine ⟨_, _, _, .more (e := e.aim 0 100) run rfl (.inl rfl) rest, ?_⟩
      intro m mem
      exact (List.mem_append.mp mem).elim (first m) (second m)
    · cases h
  · cases h

def loadX (c : Cpu) : Cpu :=
  { c with x := 7 }

theorem fresh_modifyCpu {memory : PagedMemory σ} {config : Config} {host : ω} {cpu : Cpu}
    (made : fresh memory config host cpu none = .ok e) (change : Cpu → Cpu) :
    fresh memory config host (change cpu) none = .ok (e.modifyCpu change) := by
  unfold fresh create at made ⊢
  split at made
  · cases made
  · cases made
    rfl

theorem slices_invisible_overwriting :
    ∃ e s ms spent s', fresh overwriting paired () .powerOn none = .ok e ∧ Overwrites e s ∧
      Sliced (e.aim 0 100) ms spent s' ∧ s.Alike (100 - s.engine.cpu.budget) s' spent ∧
      ∃ new s₁ s₂, fresh overwriting tight () (loadX .powerOn) none = .ok new ∧
        Overwrites (e.modifyCpu loadX) s₁ ∧ Overwrites new s₂ ∧
        s₁.Alike (100 - s₁.engine.cpu.budget) s₂ (100 - s₂.engine.cpu.budget) := by
  have facts : (fresh overwriting paired () .powerOn none).toOption.map pauses = some true := by
    decide +kernel
  obtain ⟨e, s, made, runs⟩ := paired_overwrites
  obtain ⟨changed, s₁, made₁, runs₁⟩ : ∃ e s,
      fresh overwriting paired () (loadX .powerOn) none = .ok e ∧ Overwrites e s :=
    exists_overwrites (by decide +kernel)
  obtain ⟨new, s₂, made₂, runs₂⟩ : ∃ e s,
      fresh overwriting tight () (loadX .powerOn) none = .ok e ∧ Overwrites e s :=
    exists_overwrites (by decide +kernel)
  cases made₁.symm.trans (fresh_modifyCpu made loadX)
  rw [made] at facts
  obtain ⟨ms, spent, s', sliced, cacheable⟩ := sliced_of_pauses (Option.some.inj facts)
  have is := isNew_of_fresh made
  have low : e.memory.LowPlain := is.memory ▸ PagedMemory.lowPlain_load_blank _ _
  obtain ⟨slices, changes⟩ := (is.history fun _ => overwriting).slices_invisible low is.unasked
    (not_mayStop_of_none is.observer)
  refine ⟨e, s, ms, spent, s', made, runs, sliced, ?_, new, s₁, s₂, made₂, runs₁, runs₂, ?_⟩
  · exact slices runs.run runs.not_countdown sliced (fun m mem => (runs.executed m mem).1) cacheable
  · have made₂' : fresh e.memory tight () (loadX e.cpu) none = .ok new := by
      rw [is.memory, is.cpu]
      exact made₂
    refine changes made₂' is.timed.symm is.tracks.symm runs₁.run runs₂.run runs₁.not_countdown
      runs₂.not_countdown (fun m mem => (runs₁.executed m mem).1) fun m mem => ?_
    · have here : m.Cacheable tight.zeroPageCode :=
        (isNew_of_fresh made₂).tracks ▸ (runs₂.executed m mem).1
      rw [is.tracks]
      exact here

end Engine

end Mos6502
