import Mos6502.Proofs.Engine.Resume
import Mos6502.Proofs.Engine.Visits

/-! A whole run is a stretch of steps of the machine. It starts every instruction of the stretch in
order, stops in front of the one behind it, and spends what the stretch costs. -/
namespace Mos6502

open Record

variable {σ ω : Type}

namespace Stopped

inductive Reason (s : Stopped (PagedMemory σ) ω) (last : Machine σ) : Prop
  | exit {why : Stop} (unasked : s.engine.haltRequest = 0) (quiet : last.cpu.interruptDue = false)
    (is : s.result = why.result last.cpu.pc) (reports : last.report.exit = some why)
  | countdown (is : s.result = .ok .countdown)
  | observed (is : s.result = .ok .externalHalt) (may : s.engine.MayStop)
  | asked (asked : s.engine.haltRequest ≠ 0)

/-- The machine comes from `start` to where the run stopped in `n` steps. `seen` is what the run
started, and `budget` what it had to spend. -/
structure EndsAfter (s : Stopped (PagedMemory σ) ω) (start : Machine σ) (timed : Bool)
    (budget : Int) (seen : List (Machine σ)) (n : Nat) : Prop where
  lands : s.engine.machine = start.after n
  seen : seen = start.visits n ++ [start.after n]
  completes : ∀ m ∈ start.visits n, m.report.exit = none
  spent : s.engine.cpu.budget + start.spent timed n = budget
  reason : s.Reason (start.after n)

variable {s : Stopped (PagedMemory σ) ω} {last cur next : Machine σ} {timed : Bool}
  {budget budget' : Int} {seen : List (Machine σ)} {k n : Nat}

theorem held_of_exit {why : Stop} {pc : Addr} (is : s.result = why.result pc)
    (unasked : s.engine.haltRequest = 0) : s.held = false := by
  unfold held
  rw [is, unasked]
  cases why <;> rfl

theorem Reason.exits (h : s.Reason last) (free : s.held = false) :
    last.cpu.interruptDue = false ∧
      ∃ why, s.result = why.result last.cpu.pc ∧ last.report.exit = some why := by
  unfold held at free
  obtain ⟨unasked, free⟩ := Bool.or_eq_false_iff.mp free
  cases h with
  | exit _ quiet is reports => exact ⟨quiet, _, is, reports⟩
  | countdown is => rw [is] at free; cases free
  | observed is => rw [is] at free; cases free
  | asked asked => exact absurd (by simpa using unasked) asked

theorem mem_executed_cons {m : Machine σ} (mem : m ∈ s.executed seen) :
    m ∈ s.executed (cur :: seen) := by
  unfold executed at mem ⊢
  split
  · next held =>
    rw [if_pos held] at mem
    have more : seen ≠ [] := by
      rintro rfl
      cases mem
    rw [List.dropLast_cons_of_ne_nil more]
    exact List.mem_cons_of_mem _ mem
  · next free =>
    rw [if_neg free] at mem
    exact List.mem_cons_of_mem _ mem

theorem EndsAfter.executed (h : s.EndsAfter cur timed budget seen n) :
    s.executed seen = cur.visits n ++ if s.held then [] else [cur.after n] := by
  unfold Stopped.executed
  rw [h.seen]
  split
  · rw [List.dropLast_concat, List.append_nil]
  · rfl

theorem EndsAfter.mem_executed (h : s.EndsAfter next timed budget seen n) :
    cur ∈ s.executed (cur :: seen) := by
  have more : seen ≠ [] := by
    rw [h.seen]
    simp
  unfold Stopped.executed
  rw [List.dropLast_cons_of_ne_nil more]
  split <;> exact List.mem_cons_self

theorem endsAfter_zero (lands : s.engine.machine = cur) (seen_eq : seen = [cur])
    (unspent : s.engine.cpu.budget = budget) (reason : s.Reason cur) :
    s.EndsAfter cur timed budget seen 0 where
  lands := lands
  seen := seen_eq
  completes _ none := absurd none List.not_mem_nil
  spent := (Int.add_zero _).trans unspent
  reason := reason

theorem EndsAfter.passed (h : s.EndsAfter next timed budget' seen n) (passes : cur.Passes k next)
    (paid : budget' + cur.spent timed k = budget) :
    s.EndsAfter cur timed budget (cur :: seen) (k + n) := by
  have there : cur.after (k + n) = next.after n := by rw [cur.after_add, passes.after]
  refine ⟨h.lands.trans there.symm, ?_, ?_, ?_, there ▸ h.reason⟩
  · rw [cur.visits_add, passes.visits, passes.after, there, h.seen]
    rfl
  · intro m mem
    rw [cur.visits_add, passes.visits, passes.after] at mem
    rcases List.mem_cons.mp mem with rfl | mem
    · exact passes.completes
    · exact h.completes m mem
  · have spent := h.spent
    rw [cur.spent_add, passes.after]
    omega

theorem EndsAfter.interrupted (h : s.EndsAfter cur.step.2 timed budget' seen n)
    (due : cur.cpu.interruptDue = true) (paid : budget' + Interpreter.interruptCycles = budget) :
    s.EndsAfter cur timed budget seen (1 + n) := by
  have there : cur.after (1 + n) = cur.step.2.after n := cur.after_add 1 n
  obtain ⟨none, once⟩ := Machine.interrupt_one due
  have visits : cur.visits (1 + n) = cur.step.2.visits n := by
    rw [cur.visits_add, none]
    rfl
  refine ⟨h.lands.trans there.symm, ?_, ?_, ?_, there ▸ h.reason⟩
  · rw [visits, there, h.seen]
  · rw [visits]
    exact h.completes
  · have spent := h.spent
    have taken : cur.spent timed 1 = Interpreter.interruptCycles := by
      unfold Machine.spent
      rw [none, once]
      rfl
    rw [cur.spent_add, taken]
    change s.engine.cpu.budget + (_ + cur.step.2.spent timed n) = budget
    omega

end Stopped

namespace Frame

variable {f : Frame (PagedMemory σ) ω} {source : Addr → PagedMemory σ}
  {g : Spot (PagedMemory σ)} {c : Core (PagedMemory σ)}

def begun (g : Spot (PagedMemory σ)) (c : Core (PagedMemory σ)) : List (Machine σ) :=
  if g.done = [] then [] else [c.machine g.record.addr]

/-- What the run has started of the instruction in progress, once the next host instruction is
executed. -/
def underWay (f : Frame (PagedMemory σ) ω) (g : Spot (PagedMemory σ)) (c : Core (PagedMemory σ)) :
    List (Machine σ) :=
  begun g c ++ (f.started?.map f.engine.core.machine).toList

inductive Moves (f : Frame (PagedMemory σ) ω) (g : Spot (PagedMemory σ)) (c : Core (PagedMemory σ))
    (g' : Spot (PagedMemory σ)) (c' : Core (PagedMemory σ)) : Prop
  | still (seen : f.underWay g c = begun g' c')
    (lands : c'.machine g'.record.addr = c.machine g.record.addr)
    (unspent : g'.unspent c' = g.unspent c)
  | passes (seen : f.underWay g c = [c.machine g.record.addr]) (fresh : begun g' c' = [])
    (passes : (c.machine g.record.addr).Cacheable f.engine.tracksZeroPage → ∃ n,
      (c.machine g.record.addr).Passes n (c'.machine g'.record.addr) ∧
        g'.unspent c' + (c.machine g.record.addr).spent f.engine.timed n = g.unspent c)

theorem begun_nil (begins : g.done = []) : begun g c = [] :=
  if_pos begins

theorem begun_cons (more : g.done ≠ []) : begun g c = [c.machine g.record.addr] :=
  if_neg more

theorem At.underWay_stays (h : f.At source g) (works : f.Works g c) (stays : f.wayOut? = none) :
    f.underWay g c = [c.machine g.record.addr] := by
  unfold underWay
  by_cases begins : g.done = []
  · rw [begun_nil begins, h.started_begins begins stays, works.begins begins]
    rfl
  · rw [begun_cons begins, h.started_within begins]
    rfl

theorem underWay_leaving (begins : g.done = []) (dead : f.wayOut? ≠ none) : f.underWay g c = [] := by
  unfold underWay
  rw [begun_nil begins, started_leaving dead]
  rfl

/-- How a step that does not stop comes to the frame `f'`, at work at `g'` on the core `c'`. -/
inductive Steps (f f' : Frame (PagedMemory σ) ω) (source : Addr → PagedMemory σ)
    (g : Spot (PagedMemory σ)) (c : Core (PagedMemory σ)) :
    (Addr → PagedMemory σ) → Spot (PagedMemory σ) → Core (PagedMemory σ) → Prop
  | within (turn : f.turn = .ok (.stay f')) (stays : f.wayOut? = none) (begun : g.next.done ≠ [])
    (record : g.next.record = g.record) (unspent : g.next.unspent c = g.unspent c) :
    Steps f f' source g c source g.next c
  | next (turn : f.turn = .ok (.stay f')) (stays : f.wayOut? = none) (begins : g.next.done = [])
    (passes : (c.machine g.record.addr).Cacheable f.engine.tracksZeroPage →
      (c.machine g.record.addr).Passes 1 (f'.engine.core.machine g.next.record.addr) ∧
        g.next.unspent f'.engine.core + (c.machine g.record.addr).spent f.engine.timed 1
          = g.unspent c) : Steps f f' source g c source g.next f'.engine.core
  | enters {e : Engine (PagedMemory σ) ω} {target : Addr} {source' : Addr → PagedMemory σ}
    {g' : Spot (PagedMemory σ)} (turn : f.turn = .ok (.go e target))
    (turns : f.Turns source g c (.go e target)) (fresh : f'.Fresh source' e target g') :
    Steps f f' source g c source' g' f'.engine.core

theorem At.steps (h : f.At source g) (works : f.Works g c)
    (runner : f.engine.runner = referenceRunner) {f' : Frame (PagedMemory σ) ω}
    (step : f.step = .ok (.running f')) :
    ∃ source' g' c', f'.At source' g' ∧ f'.Works g' c' ∧ f.Steps f' source g c source' g' c' ∧
      f'.engine.translator.settings = f.engine.translator.settings ∧
      f'.engine.memory.pages = f.engine.memory.pages := by
  have onBus : f.engine.runner.OnBus := runner ▸ referenceRunner_onBus
  rcases turn_of_running step with turn | ⟨e, target, pos, e', turn, located, rfl⟩
  · have program := sameProgram_turn onBus turn
    have settings := congrArg (·.settings) program.translator
    cases h.turns works runner turn with
    | within stays there works' begun record unspent =>
      exact ⟨source, g.next, c, there, works', .within turn stays begun record unspent, settings,
        program.pages⟩
    | next stays there works' begins passes =>
      exact ⟨source, g.next, _, there, works', .next turn stays begins passes, settings,
        program.pages⟩
  · have turns := h.turns works runner turn
    have program := sameProgram_turn onBus turn
    have settings := congrArg (·.settings) program.translator
    have memory : e'.memory = e.memory := Engine.locate_memory located
    rcases h.turn_spec onBus turn with ⟨_, is, _⟩ | ⟨coherent, unpaused⟩
    · cases is
    · obtain ⟨g', fresh⟩ := coherent.enters unpaused turns.arrives located
      exact ⟨_, g', _, fresh.there, fresh.works, .enters turn turns fresh,
        fresh.settings.trans settings, memory ▸ program.pages⟩

theorem Steps.moves {f' : Frame (PagedMemory σ) ω} {source' : Addr → PagedMemory σ}
    {g' : Spot (PagedMemory σ)} {c' : Core (PagedMemory σ)}
    (steps : f.Steps f' source g c source' g' c') (h : f.At source g) (works : f.Works g c) :
    f.Moves g c g' c' := by
  cases steps with
  | within _ stays begun record unspent =>
    refine .still ?_ ?_ unspent
    · rw [h.underWay_stays works stays, begun_cons begun, record]
    · rw [record]
  | next _ stays begins passes =>
    refine .passes (h.underWay_stays works stays) (begun_nil begins) ?_
    exact fun cacheable => ⟨1, passes cacheable⟩
  | enters _ turns fresh =>
    have machine := fresh.machine
    have unspent := fresh.unspent
    cases turns with
    | back begins dead _ same budget =>
      refine .still ?_ ?_ (unspent.trans budget)
      · rw [underWay_leaving begins dead, begun_nil fresh.begins]
      · rw [fresh.addr]
        exact machine.trans (same _)
    | goes stays _ passes =>
      refine .passes (h.underWay_stays works stays) (begun_nil fresh.begins) ?_
      intro cacheable
      obtain ⟨n, passes, paid⟩ := passes cacheable
      rw [← machine, ← fresh.addr] at passes
      exact ⟨n, passes, unspent ▸ paid⟩

/-- Every step of a run stays at an instruction, or passes it as the machine does. -/
theorem At.moves (h : f.At source g) (works : f.Works g c)
    (runner : f.engine.runner = referenceRunner) {f' : Frame (PagedMemory σ) ω}
    (step : f.step = .ok (.running f')) :
    ∃ source' g' c', f'.At source' g' ∧ f'.Works g' c' ∧ f.Moves g c g' c' ∧
      f'.engine.translator.settings = f.engine.translator.settings ∧
      f'.engine.memory.pages = f.engine.memory.pages := by
  obtain ⟨source', g', c', there, works', steps, same⟩ := h.steps works runner step
  exact ⟨source', g', c', there, works', steps.moves h works, same⟩

theorem At.stops (h : f.At source g) (works : f.Works g c)
    (runner : f.engine.runner = referenceRunner) (unasked : f.engine.haltRequest = 0)
    {s : Stopped (PagedMemory σ) ω} (step : f.step = .ok (.stopped s))
    (cacheable : ∀ m ∈ s.executed (f.underWay g c), m.Cacheable f.engine.tracksZeroPage) :
    s.EndsAfter (c.machine g.record.addr) f.engine.timed (g.unspent c) (f.underWay g c) 0 := by
  have turn := turn_of_stopped step
  have host := sameSetup_turn turn
  have same : s.engine.haltRequest = 0 := host.haltRequest.trans unasked
  cases h.turns works runner turn with
  | @exits e why stays unpaused stops =>
    have seen := h.underWay_stays works stays
    have free := Stopped.held_of_exit (s := ⟨e, why.result g.record.addr⟩) rfl same
    obtain ⟨lands, reports, budget⟩ := stops (cacheable _ (by
      unfold Stopped.executed
      rw [free, seen, if_neg Bool.false_ne_true]
      exact List.mem_singleton_self _))
    exact Stopped.endsAfter_zero lands seen budget (.exit same works.quiet rfl reports)
  | held stays result _ lands budget =>
    refine Stopped.endsAfter_zero lands (h.underWay_stays works stays) budget ?_
    rcases result with countdown | ⟨observed, may⟩ | asked
    · exact .countdown countdown
    · exact .observed observed (by
        unfold Engine.MayStop at may ⊢
        rw [show s.engine.observer = f.engine.observer from host.observer]
        exact may)
    · exact absurd unasked asked

/-- A run that stops is a stretch of the machine, from the instruction in progress on. -/
theorem At.endsAfter (h : f.At source g) (works : f.Works g c)
    (runner : f.engine.runner = referenceRunner) (unasked : f.engine.haltRequest = 0) {fuel : Nat}
    {s : Stopped (PagedMemory σ) ω} (run : f.run fuel = .ok (.stopped s))
    (cacheable : ∀ m ∈ s.executed (begun g c ++ f.visits fuel),
      m.Cacheable f.engine.tracksZeroPage) :
    ∃ n, s.EndsAfter (c.machine g.record.addr) f.engine.timed (g.unspent c)
      (begun g c ++ f.visits fuel) n := by
  induction fuel generalizing f source g c with
  | zero => cases run
  | succ fuel ih =>
    unfold visits at cacheable ⊢
    rw [← List.append_assoc, ← underWay] at cacheable ⊢
    obtain ⟨_, fuel_eq, stopped | ⟨f', step, rest⟩⟩ := run_cases run
    · rw [stopped] at cacheable ⊢
      dsimp only at cacheable ⊢
      rw [List.append_nil] at cacheable ⊢
      exact ⟨0, h.stops works runner unasked stopped cacheable⟩
    · cases fuel_eq
      have host := sameHost_step step
      obtain ⟨source', g', c', there, works', moves, settings, _⟩ := h.moves works runner step
      have zeroPage : f'.engine.tracksZeroPage = f.engine.tracksZeroPage :=
        congrArg (·.options.zeroPageCode) settings
      have timed : f'.engine.timed = f.engine.timed := congrArg (·.options.exactTimings) settings
      have ih := ih there works' (host.runner.trans runner) (host.haltRequest.trans unasked) rest
      rw [step] at cacheable ⊢
      dsimp only at cacheable ⊢
      rw [zeroPage, timed] at ih
      cases moves with
      | still seen lands unspent =>
        rw [seen] at cacheable ⊢
        obtain ⟨n, ends⟩ := ih cacheable
        rw [lands, unspent] at ends
        exact ⟨n, ends⟩
      | passes seen fresh passes =>
        rw [seen, List.singleton_append] at cacheable ⊢
        rw [fresh, List.nil_append] at ih
        obtain ⟨n, ends⟩ := ih fun m mem => cacheable m (Stopped.mem_executed_cons mem)
        obtain ⟨k, passes, paid⟩ := passes (cacheable _ ends.mem_executed)
        exact ⟨k + n, ends.passed passes paid⟩

theorem At.setup_run (h : f.At source g) (works : f.Works g c)
    (runner : f.engine.runner = referenceRunner) {fuel : Nat} {s : Stopped (PagedMemory σ) ω}
    (run : f.run fuel = .ok (.stopped s)) :
    s.engine.translator.settings = f.engine.translator.settings ∧
      s.engine.memory.pages = f.engine.memory.pages := by
  have onBus : f.engine.runner.OnBus := runner ▸ referenceRunner_onBus
  induction fuel generalizing f source g c with
  | zero => cases run
  | succ fuel ih =>
    obtain ⟨_, fuel_eq, stopped | ⟨f', step, rest⟩⟩ := run_cases run
    · have same := sameProgram_turn onBus (turn_of_stopped stopped)
      exact ⟨congrArg (·.settings) same.translator, same.pages⟩
    · cases fuel_eq
      obtain ⟨source', g', c', there, works', _, settings, pages⟩ := h.moves works runner step
      have runner' := (sameHost_step step).runner.trans runner
      obtain ⟨settings', pages'⟩ := ih there works' runner' rest (runner' ▸ referenceRunner_onBus)
      exact ⟨settings'.trans settings, pages'.trans pages⟩

theorem Fresh.asked {e : Engine (PagedMemory σ) ω} {target : Addr} (h : f.Fresh source e target g)
    (stays : f.leaveAt = none) (asked : f.engine.haltRequest ≠ 0) (timed : Bool) {fuel : Nat}
    {s : Stopped (PagedMemory σ) ω} (run : f.run fuel = .ok (.stopped s)) :
    s.EndsAfter (e.core.machine target) timed e.cpu.budget (f.visits fuel) 0 := by
  have step := h.there.step_asked stays h.begins h.heads asked
  have stays : f.wayOut? = none := by
    unfold wayOut?
    rw [stays]
    rfl
  obtain ⟨m, rfl, stopped | ⟨f', running, _⟩⟩ := run_cases run
  · rw [step] at stopped
    cases stopped
    have there : f.engine.core.machine g.record.addr = e.core.machine target := by
      rw [h.addr]
      exact h.machine
    have unspent := h.there.unspent_eq (c := f.engine.core)
    rw [if_pos h.heads, Int.add_zero, h.unspent] at unspent
    rw [Engine.mapCpu_eq]
    refine Stopped.endsAfter_zero there ?_ unspent.symm (.asked asked)
    unfold visits
    rw [step, h.there.started_begins h.begins stays, ← there]
    rfl
  · rw [step] at running
    cases running

end Frame

namespace Engine

variable {e : Engine (PagedMemory σ) ω} {source : Addr → PagedMemory σ}

theorem History.endsAfter (history : History referenceRunner (.idle e) source fun _ => False)
    (low : e.memory.LowPlain) {fuel : Nat} {s : Stopped (PagedMemory σ) ω}
    (ok : e.run fuel = .ok (.stopped s))
    (cacheable : ∀ m ∈ e.executed fuel, m.Cacheable e.tracksZeroPage) :
    ∃ n, s.EndsAfter e.machine e.timed e.cpu.budget (e.visits fuel) n := by
  have coherent : e.Coherent source fun _ => False := history.stands referenceRunner_onBus
  unfold executed at cacheable
  rw [ok] at cacheable
  dsimp only at cacheable
  obtain ⟨f, start, run⟩ := bind_eq_ok.mp ok
  obtain ⟨g, fresh⟩ := coherent.fresh_start (history.inProgress low) low start
  have host := sameHost_start start
  have runner : f.engine.runner = referenceRunner := host.runner.trans history.runner_eq
  have settings : f.engine.translator.settings = e.translator.settings :=
    fresh.settings.trans (congrArg (·.settings) e.sameProgram_answered.translator)
  have timed : f.engine.timed = e.timed := congrArg (·.options.exactTimings) settings
  have zeroPage : f.engine.tracksZeroPage = e.tracksZeroPage :=
    congrArg (·.options.zeroPageCode) settings
  have seen : e.visits fuel = f.visits fuel := by
    unfold visits
    rw [start]
  rw [seen] at cacheable ⊢
  obtain ⟨n, ends⟩ : ∃ n, s.EndsAfter e.answered.machine e.timed e.answered.cpu.budget
      (f.visits fuel) n := by
    by_cases unasked : f.engine.haltRequest = 0
    · have begun : Frame.begun g f.engine.core ++ f.visits fuel = f.visits fuel := by
        rw [Frame.begun_nil fresh.begins, List.nil_append]
      rw [← zeroPage] at cacheable
      obtain ⟨n, ends⟩ := fresh.there.endsAfter fresh.works runner unasked run
        (by rw [begun]; exact cacheable)
      rw [begun, fresh.addr, fresh.machine, fresh.unspent, timed] at ends
      exact ⟨n, ends⟩
    · exact ⟨0, fresh.asked (start_leaveAt start) unasked e.timed run⟩
  unfold Engine.answered at ends
  cases due : e.cpu.interruptDue with
  | false =>
    rw [due, if_neg Bool.false_ne_true] at ends
    exact ⟨n, ends⟩
  | true =>
    rw [due, if_pos rfl] at ends
    obtain ⟨lands, paid, _, _⟩ := answerIrq_due coherent.fits due
    have ends : s.EndsAfter e.answerIrq.machine e.timed e.answerIrq.cpu.budget (f.visits fuel) n :=
      ends
    rw [lands] at ends
    exact ⟨1 + n, ends.interrupted due paid⟩

theorem History.setup_run (history : History referenceRunner (.idle e) source fun _ => False)
    (low : e.memory.LowPlain) {fuel : Nat} {s : Stopped (PagedMemory σ) ω}
    (ok : e.run fuel = .ok (.stopped s)) :
    s.engine.translator.settings = e.translator.settings ∧
      s.engine.memory.pages = e.memory.pages := by
  have coherent : e.Coherent source fun _ => False := history.stands referenceRunner_onBus
  obtain ⟨f, start, run⟩ := bind_eq_ok.mp ok
  obtain ⟨g, fresh⟩ := coherent.fresh_start (history.inProgress low) low start
  have runner : f.engine.runner = referenceRunner :=
    (sameHost_start start).runner.trans history.runner_eq
  obtain ⟨settings, pages⟩ := fresh.there.setup_run fresh.works runner run
  refine ⟨settings.trans (fresh.settings.trans ?_), pages.trans (start_pages start)⟩
  exact congrArg (·.settings) e.sameProgram_answered.translator

end Engine

end Mos6502
