import Mos6502.Proofs.Engine.WholeRun

/-! Whatever was compiled, retired and paused before, a run is a stretch of the reference machine:
it ends where the machine is after some steps, and with exact timings it has spent the cycles of
that stretch. -/
namespace Mos6502

variable {σ ω : Type}

theorem Stop.result_inj {why why' : Stop} {a a' : Addr} (same : why.result a = why'.result a') :
    why = why' := by
  cases why <;> cases why' <;> cases same <;> rfl

namespace Engine

variable {e : Engine (PagedMemory σ) ω} {source : Addr → PagedMemory σ}
  {fuel : Nat} {s : Stopped (PagedMemory σ) ω}

theorem sameHost_run (ok : e.run fuel = .ok (.stopped s)) : e.SameHost s.engine := by
  obtain ⟨f, start, run⟩ := bind_eq_ok.mp ok
  exact (sameHost_start start).trans (Frame.sameHost_run run)

def fresh (memory : PagedMemory σ) (config : Config) (host : ω) (cpu : Cpu)
    (observer : Option (Observer ω)) : Except EngineError (Engine (PagedMemory σ) ω) :=
  (create memory config referenceRunner host).map fun e =>
    (e.modifyCpu fun _ => cpu).setObserver observer

structure IsNew (e : Engine (PagedMemory σ) ω) (memory : PagedMemory σ) (config : Config) (cpu : Cpu)
    (observer : Option (Observer ω)) : Prop where
  history : ∀ source, History referenceRunner (.idle e) source fun _ => False
  cpu : e.cpu = cpu
  memory : e.memory = memory
  unasked : e.haltRequest = 0
  observer : e.observer = observer
  timed : e.timed = config.exactTimings
  tracks : e.tracksZeroPage = config.zeroPageCode

theorem isNew_of_fresh {memory : PagedMemory σ} {config : Config} {host : ω} {cpu : Cpu}
    {observer : Option (Observer ω)} (made : fresh memory config host cpu observer = .ok e) :
    e.IsNew memory config cpu observer := by
  unfold fresh at made
  cases created : create memory config referenceRunner host with
  | error problem => rw [created] at made; cases made
  | ok e₀ =>
    have history (source) := History.create created source
    rw [created] at made
    cases made
    unfold create at created
    split at created
    · cases created
    · cases created
      exact ⟨fun source => ((history source).modifyCpu _).setObserver _, rfl, rfl, rfl, rfl, rfl,
        rfl⟩

theorem IsNew.machine {memory : PagedMemory σ} {config : Config} {cpu : Cpu}
    {observer : Option (Observer ω)} (h : e.IsNew memory config cpu observer) (pc : Addr) :
    e.core.machine pc = ⟨{ cpu.guest with pc }, memory⟩ := by
  rw [← h.cpu, ← h.memory]
  rfl

/-- A run refines the machine: in some number of steps that comes to the same registers, flags,
memory and device, and where the run stopped by itself, the interpreter reports that exit there. -/
theorem History.refines (history : History referenceRunner (.idle e) source fun _ => False)
    (low : e.memory.LowPlain) (unasked : e.haltRequest = 0) (pc : Addr) (budget : Int)
    (ok : (e.aim pc budget).run fuel = .ok (.stopped s))
    (cacheable : ∀ m ∈ (e.aim pc budget).executed fuel, m.Cacheable e.tracksZeroPage) :
    ∃ n, s.engine.machine = (e.core.machine pc).after n ∧
      ∀ why addr, s.result = why.result addr →
        s.result = why.result s.engine.cpu.pc ∧ s.engine.machine.report.exit = some why := by
  obtain ⟨n, ends⟩ := (history.aim pc budget).endsAfter low ok cacheable
  refine ⟨n, ends.lands, ?_⟩
  intro why addr is
  have still : s.engine.haltRequest = 0 := (sameHost_run ok).haltRequest.trans unasked
  obtain ⟨_, why', result, exit⟩ := ends.reason.exits (Stopped.held_of_exit is still)
  cases Stop.result_inj (is.symm.trans result)
  have lands : s.engine.machine = (e.core.machine pc).after n := ends.lands
  have there : ((e.core.machine pc).after n).cpu.pc = s.engine.cpu.pc := by
    rw [← lands]
    rfl
  rw [lands]
  exact ⟨there ▸ result, exit⟩

/-- The program runs to its exit: four instructions, of 2, 3, 2 and no cycles. -/
structure Overwrites (e : Engine (PagedMemory Unit) Unit) (s : Stopped (PagedMemory Unit) Unit) :
    Prop where
  run : (e.aim 0 100).run 20 = .ok (.stopped s)
  result : s.result = .ok .exit
  budget : s.engine.cpu.budget = 93
  executed : ∀ m ∈ (e.aim 0 100).executed 20, m.Cacheable e.tracksZeroPage ∧ ¬ m.SumsDecimals

def overwrites (e : Engine (PagedMemory Unit) Unit) : Bool :=
  match (e.aim 0 100).run 20 with
  | .ok (.stopped ⟨e', .ok reason⟩) =>
    reason == .exit && e'.cpu.budget == 93 &&
      decide (∀ m ∈ (e.aim 0 100).executed 20, m.Cacheable e.tracksZeroPage ∧ ¬ m.SumsDecimals)
  | _ => false

theorem overwrites_of_eq {e : Engine (PagedMemory Unit) Unit} (h : overwrites e = true) :
    ∃ s, Overwrites e s := by
  unfold overwrites at h
  split at h
  · next e' reason run =>
    simp only [Bool.and_eq_true, beq_iff_eq, decide_eq_true_eq] at h
    obtain ⟨⟨rfl, budget⟩, executed⟩ := h
    exact ⟨_, run, rfl, budget, executed⟩
  · cases h

theorem exists_overwrites {config : Config} {cpu : Cpu}
    (facts : (fresh overwriting config () cpu none).toOption.map overwrites = some true) :
    ∃ e s, fresh overwriting config () cpu none = .ok e ∧ Overwrites e s := by
  obtain ⟨e, made, facts⟩ := exists_ok_of_map facts
  obtain ⟨s, done⟩ := overwrites_of_eq facts
  exact ⟨e, s, made, done⟩

theorem tight_overwrites :
    ∃ e s, fresh overwriting tight () .powerOn none = .ok e ∧ Overwrites e s :=
  exists_overwrites (by decide +kernel)

/-- The run goes through the code that it has overwritten, to the exit behind it. -/
theorem refines_overwriting :
    ∃ (e : Engine (PagedMemory Unit) Unit) (s : Stopped (PagedMemory Unit) Unit) (n : Nat),
      fresh overwriting tight () .powerOn none = .ok e ∧
        (e.aim 0 100).run 20 = .ok (.stopped s) ∧
        s.engine.machine = (e.core.machine 0).after n ∧
        s.engine.machine.report.exit = some .exit := by
  obtain ⟨e, s, made, run, result, _, cacheable⟩ := tight_overwrites
  have is := isNew_of_fresh made
  have low : e.memory.LowPlain := is.memory ▸ PagedMemory.lowPlain_load_blank _ _
  obtain ⟨n, lands, exits⟩ := (is.history fun _ => overwriting).refines low is.unasked 0 100 run
    fun m mem => (cacheable m mem).1
  exact ⟨e, s, n, made, run, lands, (exits .exit 0 result).2⟩

/-- With exact timings a run spends the cycles that the interpreter reports of the instructions
executed, and those of every interrupt taken. -/
theorem History.spends_cycles (history : History referenceRunner (.idle e) source fun _ => False)
    (low : e.memory.LowPlain) (timed : e.timed = true) (pc : Addr) (budget : Int)
    (ok : (e.aim pc budget).run fuel = .ok (.stopped s))
    (cacheable : ∀ m ∈ (e.aim pc budget).executed fuel, m.Cacheable e.tracksZeroPage)
    (binary : ∀ m ∈ (e.aim pc budget).executed fuel, ¬ m.SumsDecimals) :
    ∃ n, s.engine.machine = (e.core.machine pc).after n ∧
      (e.aim pc budget).executed fuel = (e.core.machine pc).visits n
        ++ (if s.held then [] else [s.engine.machine]) ∧
      budget - s.engine.cpu.budget
        = ((((e.aim pc budget).executed fuel).map (·.report.cycles)).sum
          + Interpreter.interruptCycles * (e.core.machine pc).interrupts n : Nat) := by
  obtain ⟨n, ends⟩ := (history.aim pc budget).endsAfter low ok cacheable
  have lands : s.engine.machine = (e.core.machine pc).after n := ends.lands
  have executed : (e.aim pc budget).executed fuel = (e.core.machine pc).visits n
      ++ (if s.held then [] else [s.engine.machine]) := by
    unfold Engine.executed
    rw [ok, lands]
    exact ends.executed
  refine ⟨n, lands, executed, ?_⟩
  rw [executed] at cacheable binary ⊢
  have spent : budget - s.engine.cpu.budget = ((e.core.machine pc).cycles n : Nat) := by
    have spent : s.engine.cpu.budget + (e.core.machine pc).spent e.timed n = budget := ends.spent
    rw [timed, Machine.spent_exact (fun m mem => cacheable m (List.mem_append_left _ mem))
      fun m mem => binary m (List.mem_append_left _ mem)] at spent
    omega
  -- What stopped the run by itself takes no cycles.
  have last : ((if s.held then [] else [s.engine.machine]).map (·.report.cycles)).sum = 0 := by
    cases held : s.held with
    | true => rfl
    | false =>
      rw [held, if_neg Bool.false_ne_true] at cacheable
      obtain ⟨_, why, _, exit⟩ := ends.reason.exits held
      have exit : s.engine.machine.report.exit = some why := lands ▸ exit
      have here := cacheable _ (List.mem_append_right _ (List.mem_singleton_self _))
      simp [Machine.cycles_of_exit here exit]
  rw [spent, List.map_append, List.sum_append, last]
  rfl

theorem spends_cycles_overwriting :
    ∃ (e : Engine (PagedMemory Unit) Unit) (s : Stopped (PagedMemory Unit) Unit),
      fresh overwriting tight () .powerOn none = .ok e ∧
        (e.aim 0 100).run 20 = .ok (.stopped s) ∧ s.engine.cpu.budget = 93 ∧
        ∃ n, s.engine.machine = (e.core.machine 0).after n ∧
          100 - s.engine.cpu.budget = ((((e.aim 0 100).executed 20).map (·.report.cycles)).sum
            + Interpreter.interruptCycles * (e.core.machine 0).interrupts n : Nat) := by
  obtain ⟨e, s, made, run, _, budget, cacheable⟩ := tight_overwrites
  have is := isNew_of_fresh made
  have low : e.memory.LowPlain := is.memory ▸ PagedMemory.lowPlain_load_blank _ _
  obtain ⟨n, lands, _, spent⟩ := (is.history fun _ => overwriting).spends_cycles low is.timed 0 100 run
    (fun m mem => (cacheable m mem).1) fun m mem => (cacheable m mem).2
  exact ⟨e, s, made, run, budget, n, lands, spent⟩

end Engine

end Mos6502
