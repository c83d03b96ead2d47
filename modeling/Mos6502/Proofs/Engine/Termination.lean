import Mos6502.Proofs.Engine.Solvent
import Mos6502.Proofs.Engine.Visits

/-! Every run comes to an end. Each instruction is started with less left than the one before, and
has few host instructions. Nothing is asked of memory, which may contradict all compiled code. -/
namespace Mos6502

open Record
open HostOp (refunds)

namespace Frame

variable {σ ω : Type} {f f' : Frame (PagedMemory σ) ω} {source : Addr → PagedMemory σ}
  {g g' : Spot (PagedMemory σ)}

def effort (f : Frame (PagedMemory σ) ω) (g : Spot (PagedMemory σ)) : Nat :=
  64 * (f.worth g).toNat + if f.wayOut? = none then g.todo.length else 63

theorem Stands.effort_bounds (h : f.Stands g) :
    64 * (f.worth g).toNat < f.effort g ∧ f.effort g < 64 * ((f.worth g).toNat + 1) := by
  have most : g.todo.length ≤ 49 := h.inside.length_todo
  have some_op := List.length_pos_iff.mpr h.inside.more
  unfold effort
  split <;> omega

theorem Solvent.effort_lt (h : f.Solvent g) (h' : f'.Solvent g') (pays : f.Pays g f' g') :
    f'.effort g' < f.effort g := by
  have here := h.effort_bounds
  have there := h'.effort_bounds
  cases pays with
  | within stays begun shorter worth =>
    have stays' : f'.wayOut? = none := by
      cases out : f'.wayOut? with
      | none => rfl
      | some p => exact absurd (h'.wayOut_some out).2.1 begun
    unfold effort
    rw [if_pos stays, if_pos stays']
    omega
  | leaves out stays' worth =>
    have most : g'.todo.length ≤ 49 := h'.inside.length_todo
    unfold effort
    rw [if_neg out, if_pos stays', worth]
    omega
  | lands funded worth => omega

theorem Solvent.stops (h : f.Solvent g) (charges : f.engine.runner.Charges)
    (orderly : Phase.Orderly (.running f) source) {fuel : Nat} (enough : f.effort g ≤ fuel) :
    ∃ s, f.run fuel = .ok (.stopped s) := by
  induction fuel generalizing f g source with
  | zero =>
    have some_effort := h.effort_bounds
    omega
  | succ fuel ih =>
    obtain ⟨p, step, _, source', after⟩ := step_goes orderly
    unfold run
    rw [step]
    cases p with
    | stopped s => exact ⟨s, rfl⟩
    | running f' =>
      obtain ⟨g', solvent, pays⟩ := h.step charges orderly step
      have less := h.effort_lt solvent pays
      refine ih solvent ?_ after (by omega)
      rw [(sameHost_step step).runner]
      exact charges

/-- What is left of the budget in front of the instruction at `a`, with what the tables give back
there unless its countdown is still to come. -/
def level (f : Frame (PagedMemory σ) ω) (a : Addr) : Int :=
  f.engine.cpu.budget +
    if f.engine.startsRunAt f.pos.ip then 0
    else ((f.engine.translator.note a).fixup.getD 0).toNat

def levels (f : Frame (PagedMemory σ) ω) : Nat → List Int
  | 0 => []
  | fuel + 1 =>
    (f.started?.map f.level).toList ++
      match f.step with
      | .ok (.running f') => f'.levels fuel
      | _ => []

theorem Stands.level_eq (h : f.Stands g) (begins : g.done = []) :
    f.level g.record.addr = f.worth g := by
  have charged := Spot.charged_of_begins begins
  unfold level
  rw [h.ip, h.startsRunAt begins, h.fixup]
  cases heads : g.record.startsRun with
  | true =>
    rw [heads] at charged
    rw [worth_of_uncharged charged]
    exact Int.add_zero _
  | false =>
    rw [heads] at charged
    rw [worth_of_charged charged, begins]
    exact congrArg (f.engine.cpu.budget + ·) (Int.sub_zero _).symm

/-- Every instruction is started on a lower level than the one before. What is begun within an
instruction is below where the frame stands. -/
theorem Solvent.levels_fall (h : f.Solvent g) (charges : f.engine.runner.Charges)
    (orderly : Phase.Orderly (.running f) source) (fuel : Nat) :
    (f.levels fuel).Pairwise (· > ·) ∧ ∀ l ∈ f.levels fuel,
      l ≤ f.worth g ∧ (g.done ≠ [] → l < f.worth g) := by
  induction fuel generalizing f g source with
  | zero => exact ⟨.nil, fun _ none => nomatch none⟩
  | succ fuel ih =>
    obtain ⟨p, step, _, source', after⟩ := step_goes orderly
    obtain ⟨later, is_later⟩ : ∃ later, later = match f.step with
        | .ok (.running f') => f'.levels fuel
        | _ => [] := ⟨_, rfl⟩
    -- What is begun later is worth less, unless the frame only leaves a retired block.
    have falling : later.Pairwise (· > ·) ∧
        ∀ l ∈ later, l ≤ f.worth g ∧ (f.wayOut? = none → l < f.worth g) := by
      rw [is_later, step]
      cases p with
      | stopped s => exact ⟨.nil, fun _ none => nomatch none⟩
      | running f' =>
        obtain ⟨g', solvent, pays⟩ := h.step charges orderly step
        obtain ⟨falls, bounded⟩ := ih solvent ((sameHost_step step).runner.symm ▸ charges) after
        refine ⟨falls, fun l mem => ?_⟩
        obtain ⟨most, inside⟩ := bounded l mem
        cases pays with
        | within _ begun _ worth =>
          have below := Int.lt_of_lt_of_le (inside begun) worth
          exact ⟨Int.le_of_lt below, fun _ => below⟩
        | leaves out _ worth => exact ⟨worth ▸ most, fun stays => absurd stays out⟩
        | lands _ worth =>
          have below := Int.lt_of_le_of_lt most worth
          exact ⟨Int.le_of_lt below, fun _ => below⟩
    have levels : f.levels (fuel + 1) = (f.started?.map f.level).toList ++ later := by
      rw [is_later]
      rfl
    rw [levels]
    obtain ⟨falls, bounded⟩ := falling
    cases stays : f.wayOut? with
    | some p =>
      obtain ⟨_, begins, _⟩ := h.wayOut_some stays
      rw [started_leaving (by simp [stays])]
      exact ⟨falls, fun l mem => ⟨(bounded l mem).1, fun begun => absurd begins begun⟩⟩
    | none =>
      by_cases begins : g.done = []
      · rw [h.started_begins begins stays, Option.map_some, h.level_eq begins]
        refine ⟨.cons (fun l mem => (bounded l mem).2 stays) falls, ?_⟩
        rw [Option.toList_some, List.singleton_append, List.forall_mem_cons]
        exact ⟨⟨Int.le_refl _, fun begun => absurd begins begun⟩,
          fun l mem => ⟨(bounded l mem).1, fun begun => absurd begins begun⟩⟩
      · rw [h.started_within begins]
        exact ⟨falls, fun l mem => ⟨(bounded l mem).1, fun _ => (bounded l mem).2 stays⟩⟩

theorem Stands.countdownAt (h : f.Stands g) (begins : g.done = [])
    (heads : g.record.startsRun = true) :
    f.engine.translator.countdownAt? f.pos.ip
        = some (g.record.addr, g.record.maxCycles.toUInt32 + restOfRun g.post) ∧
      0 < g.record.maxCycles.toUInt32 + restOfRun g.post := by
  obtain ⟨rest, todo⟩ := h.todo_head begins heads
  have owed := owed_ne_zero h.inside.lowered (Nat.le_trans h.inside.few (by decide))
  refine ⟨?_, UInt32.pos_iff_ne_zero.mpr owed⟩
  unfold Translator.countdownAt?
  rw [h.decode todo]

end Frame

namespace Engine

variable {σ ω : Type} {e₀ e : Engine (PagedMemory σ) ω} {source : Addr → PagedMemory σ}

/-- Every block that can be entered, and every pause that a run can go on from, is at the countdown
of its instruction, which charges something. -/
structure CountsDown (e : Engine (PagedMemory σ) ω) : Prop where
  entries : ∀ start entry, e.blocks.entryAt? start = some entry →
    ∃ cycles, e.translator.countdownAt? entry = some (start, cycles) ∧ 0 < cycles
  pauses : ∀ pos, e.validPause? = some pos →
    ∃ cycles, e.translator.countdownAt? pos.ip = some (e.cpu.pc, cycles) ∧ 0 < cycles

theorem Consistent.countsDown (h : e.Consistent source) : e.CountsDown where
  entries start entry live := by
    have unpaused : (e.setPause none).Consistent source := h.of_same rfl rfl (.inr rfl)
    obtain ⟨i, keeps, same, begins⟩ := unpaused.begins rfl ⟨entry, start, entry⟩
      (((e.setPause none).isIntact_iff _).mpr live)
    have offset : entry = i.offset := Option.some.inj (live.symm.trans same)
    obtain ⟨r, post, records⟩ := List.exists_cons_of_ne_nil keeps.block.nonempty
    have shape := keeps.block.shape
    rw [records] at shape
    obtain ⟨counts, positive⟩ := (begins [] r post records offset).countdownAt rfl shape.2.2.1
    have first : r.addr = start := shape.1
    exact ⟨_, first ▸ counts, positive⟩
  pauses pos valid := by
    obtain ⟨g, begun, pc, heads⟩ := h.resume valid
    obtain ⟨counts, positive⟩ := begun.countdownAt begun.begins heads
    exact ⟨_, pc ▸ counts, positive⟩

def levels (e : Engine (PagedMemory σ) ω) (fuel : Nat) : List Int :=
  match e.start with
  | .ok f => f.levels fuel
  | .error _ => []

theorem answered_budget_le (e : Engine (PagedMemory σ) ω) :
    e.answered.cpu.budget ≤ e.cpu.budget := by
  unfold answered
  split
  · exact answerIrq_budget_le e
  · exact Int.le_refl _

theorem start_solvent (h : e.Consistent source) {f : Frame (PagedMemory σ) ω}
    (ok : e.start = .ok f) : ∃ g, f.Solvent g ∧ f.worth g ≤ e.cpu.budget := by
  obtain ⟨_, g, begun, _, heads⟩ := h.start ok
  obtain ⟨solvent, worth⟩ := begun.solvent heads
  refine ⟨g, solvent, ?_⟩
  rw [worth, (h.start_core ok).1]
  exact e.answered_budget_le

theorem continueRun_stops (h : Phase.Orderly (.idle e) source) (charges : e.runner.Charges) :
    ∃ s, e.continueRun = .ok (.stopped s) := by
  have consistent : e.Consistent source := h.2.1
  obtain ⟨f, start⟩ := consistent.start_ok
  obtain ⟨g, solvent, worth⟩ := start_solvent consistent start
  have effort := solvent.effort_bounds
  have enough : f.effort g ≤ fuelFor e.cpu.budget := by
    unfold fuelFor
    omega
  have charges : f.engine.runner.Charges := (sameHost_start start).runner.symm ▸ charges
  unfold continueRun run
  rw [start]
  exact solvent.stops charges (orderly_start h start) enough

theorem levels_fall (h : Phase.Orderly (.idle e) source) (charges : e.runner.Charges) (fuel : Nat) :
    (e.levels fuel).Pairwise (· > ·) := by
  have consistent : e.Consistent source := h.2.1
  obtain ⟨f, start⟩ := consistent.start_ok
  obtain ⟨g, solvent, _⟩ := start_solvent consistent start
  have charges : f.engine.runner.Charges := (sameHost_start start).runner.symm ▸ charges
  unfold levels
  rw [start]
  exact (solvent.levels_fall charges (orderly_start h start) fuel).1

theorem Reaches.solvent {f : Frame (PagedMemory σ) ω} (h : e₀.Reaches (.running f) source)
    (initially : ∀ source, Phase.Orderly (.idle e₀) source) (charges : e₀.runner.Charges) :
    ∃ g, f.Solvent g := by
  generalize is : Phase.running f = phase at h
  induction h generalizing f with
  | here | act | stop => cases is
  | start before ok =>
    cases is
    obtain ⟨_, consistent, _⟩ := before.orderly initially
    exact (start_solvent consistent ok).imp fun g solvent => solvent.1
  | @stay f₀ _ _ before ok ih =>
    cases is
    obtain ⟨g, solvent⟩ := ih rfl
    obtain ⟨onBus, consistent, _⟩ := before.orderly initially
    have charges : f₀.engine.runner.Charges := before.runner.symm ▸ charges
    exact (solvent.stay charges consistent onBus ok).imp fun g' there => there.1
  | @go f₀ _ _ _ _ _ before ok located ih =>
    cases is
    obtain ⟨g, solvent⟩ := ih rfl
    have charges : f₀.engine.runner.Charges := before.runner.symm ▸ charges
    exact (solvent.go charges (before.orderly initially) ok located).imp fun g' there => there.1
  | signal _ haltRequest ih =>
    cases is
    obtain ⟨g, solvent⟩ := ih rfl
    exact ⟨g, solvent.toStands.signal haltRequest, solvent.funded⟩

/-- Whatever it is aimed at, a run returns within the host instructions that its budget allows, and
starts every instruction on a lower level than the one before. -/
structure Terminates (e : Engine (PagedMemory σ) ω) : Prop where
  returns : ∀ pc cycles, ∃ s, e.execute pc cycles = .ok (.stopped s)
  continues : ∃ s, e.continueRun = .ok (.stopped s)
  falls : ∀ pc cycles fuel, ((e.aim pc cycles).levels fuel).Pairwise (· > ·)

end Engine

variable {σ ω : Type}

structure Frame.Terminates (f : Frame (PagedMemory σ) ω) : Prop where
  returns : ∃ fuel s, f.run fuel = .ok (.stopped s)
  falls : ∀ fuel, (f.levels fuel).Pairwise (· > ·)

def Phase.Terminates : Phase (PagedMemory σ) ω → Prop
  | .idle e => e.Terminates
  | .running f => f.Terminates

namespace Engine

variable {e₀ : Engine (PagedMemory σ) ω} {source : Addr → PagedMemory σ}

/-- Every run with a budget comes to an end. Whatever an engine can come to, its blocks and pauses
begin with a countdown, and no instruction is for nothing, whichever way it is executed. -/
theorem execution_terminates {config : Config} {memory : PagedMemory σ}
    {runner : InstructionRunner (PagedMemory σ) ω} {host : ω}
    (made : create memory config runner host = .ok e₀) (onBus : runner.OnBus)
    (charges : runner.Charges) {phase : Phase (PagedMemory σ) ω}
    (reached : e₀.Reaches phase source) : phase.engine.CountsDown ∧ phase.Terminates := by
  have initially := orderly_create onBus made
  have charges₀ : e₀.runner.Charges := (runner_create made).symm ▸ charges
  have charges' : phase.engine.runner.Charges := reached.runner.symm ▸ charges₀
  have orderly := reached.orderly initially
  refine ⟨Consistent.countsDown orderly.2.1, ?_⟩
  cases phase with
  | idle e =>
    have aimed : ∀ pc cycles, (e.aim pc cycles).runner.Charges := by
      intro pc cycles
      rw [aim, mapCpu_eq]
      exact charges'
    refine ⟨fun pc cycles => ?_, continueRun_stops orderly charges', fun pc cycles fuel => ?_⟩
    · exact continueRun_stops (orderly_act orderly (.aim pc cycles)) (aimed pc cycles)
    · exact levels_fall (orderly_act orderly (.aim pc cycles)) (aimed pc cycles) fuel
  | running f =>
    obtain ⟨g, solvent⟩ := reached.solvent initially charges₀
    refine ⟨⟨f.effort g, solvent.stops charges' orderly (Nat.le_refl _)⟩, fun fuel => ?_⟩
    exact (solvent.levels_fall charges' orderly fuel).1

/-- A chain of returns from interrupt, each to itself and each left to the interpreter, has cycles
for three of them. -/
theorem execution_terminates_returning : ∃ (e₀ : Engine (PagedMemory Unit) Unit)
    (s : Stopped (PagedMemory Unit) Unit),
    create (PagedMemory.blank.load 0 [0x40]) { arenaSize := 256, windowSize := 256 }
        referenceRunner () = .ok e₀ ∧
      e₀.CountsDown ∧ e₀.execute 0 20 = .ok (.stopped s) ∧
      (e₀.aim 0 20).levels 7 = [20, 14, 8, 2] ∧
      ∀ fuel, ((e₀.aim 0 20).levels fuel).Pairwise (· > ·) := by
  have facts : ((create (PagedMemory.blank.load 0 [0x40]) { arenaSize := 256, windowSize := 256 }
      referenceRunner ()).toOption.map fun e : Engine (PagedMemory Unit) Unit =>
        (e.aim 0 20).levels 7) = some [20, 14, 8, 2] := by
    decide +kernel
  obtain ⟨e₀, made, facts⟩ := exists_ok_of_map facts
  have reached : e₀.Reaches (.idle e₀) fun _ => .blank := .here _
  obtain ⟨counts, terminates⟩ :=
    execution_terminates made referenceRunner_onBus referenceRunner_charges reached
  have terminates : e₀.Terminates := terminates
  obtain ⟨s, returns⟩ := terminates.returns 0 20
  exact ⟨e₀, s, made, counts, returns, facts, terminates.falls 0 20⟩

end Engine

end Mos6502
