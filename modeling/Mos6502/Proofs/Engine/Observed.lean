import Mos6502.Proofs.Engine.Refinement
import Mos6502.Proofs.Native.Shown

/-! What an observer is shown. Every instruction that a run executes is shown to it once, in order,
with the registers and flags that the machine has in front of the instruction. -/
namespace Mos6502

open Record

variable {σ ω : Type}

namespace Observer

def see (observer : Observer ω) (host : ω) (shown : List (Addr × Cpu)) : ω :=
  shown.foldl (fun host seen => (observer host seen.1 seen.2).2) host

def recorded (observer : Observer ω) : Observer (ω × List (Addr × Cpu)) :=
  fun (host, log) a cpu =>
    let (stop, host) := observer host a cpu
    (stop, host, log ++ [(a, cpu)])

def NeverStops (observer : Observer ω) : Prop :=
  ∀ host a cpu, (observer host a cpu).1 = false

theorem see_append (observer : Observer ω) (host : ω) (shown shown' : List (Addr × Cpu)) :
    observer.see host (shown ++ shown') = observer.see (observer.see host shown) shown' :=
  List.foldl_append

theorem see_recorded (observer : Observer ω) (host : ω) (log shown : List (Addr × Cpu)) :
    observer.recorded.see (host, log) shown = (observer.see host shown, log ++ shown) := by
  induction shown generalizing host log with
  | nil => exact congrArg (host, ·) (List.append_nil log).symm
  | cons seen shown ih =>
    refine (ih (observer host seen.1 seen.2).2 (log ++ [seen])).trans ?_
    rw [List.append_assoc]
    rfl

end Observer

def Outcome.shows (out : Outcome) (cpu : Cpu) : List (Addr × Cpu) :=
  match out with
  | .observe a => [(a, { cpu with pc := a })]
  | _ => []

def guestView (seen : Addr × Cpu) : Addr × Cpu :=
  (seen.1, seen.2.guest)

def Machine.view (m : Machine σ) : Addr × Cpu :=
  (m.cpu.pc, m.cpu)

theorem Stopped.executed_append {s : Stopped (PagedMemory σ) ω} {seen seen' : List (Machine σ)}
    (more : seen' ≠ []) : s.executed (seen ++ seen') = seen ++ s.executed seen' := by
  unfold executed
  split
  · exact List.dropLast_append_of_ne_nil more
  · rfl

namespace Engine

/-- An observer is shown every instruction, and the run is held up by nothing but its budget. -/
structure Watched (e : Engine (PagedMemory σ) ω) (observer : Observer ω) : Prop where
  runner : e.runner = referenceRunner
  never : observer.NeverStops
  installed : e.observer = some observer
  debug : e.translator.settings.options.debug = true
  unasked : e.haltRequest = 0

variable {e e' : Engine (PagedMemory σ) ω} {observer : Observer ω}

theorem Watched.of_same (h : e.Watched observer) (host : e.SameHost e')
    (settings : e'.translator.settings = e.translator.settings) : e'.Watched observer where
  runner := host.runner.trans h.runner
  never := h.never
  installed := host.observer.trans h.installed
  debug := settings ▸ h.debug
  unasked := host.haltRequest.trans h.unasked

theorem Watched.not_mayStop (h : e.Watched observer) : ¬ e.MayStop := by
  rintro ⟨other, is, host, a, cpu, stops⟩
  cases is.symm.trans h.installed
  rw [h.never] at stops
  cases stops

theorem host_answerIrq (e : Engine (PagedMemory σ) ω) : e.answerIrq.host = e.host := by
  cases due : e.cpu.interruptDue with
  | false => rw [answerIrq_quiet due]
  | true => rw [answerIrq_eq due rfl]

theorem host_leaveAt {left : Engine (PagedMemory σ) ω} {addr : Addr}
    (ok : e.leaveAt addr = .ok left) : left.host = e.host := by
  obtain ⟨budget, _, rfl⟩ := leaveAt_eq_ok ok
  rw [mapCpu_eq]

theorem host_locate {target : Addr} {pos : Position} (ok : e.locate target = .ok (pos, e')) :
    e'.host = e.host := by
  unfold locate at ok
  split at ok
  · cases ok
    rfl
  · obtain ⟨⟨cpu, bus⟩, translator, runner, observer, host, paused, haltRequest⟩ := e
    dsimp only at ok
    split at ok
    · cases ok
    · cases ok
      rfl

theorem host_bounce (runner : e.runner = referenceRunner) {addr : Addr}
    {t : Turn (PagedMemory σ) ω} (ok : e.bounce addr = .ok t) : t.engine.host = e.host := by
  obtain ⟨left, left_at, step, cpu, bus, host, ran, out⟩ := bounce_eq_ok ok
  rw [(sameSetup_leaveAt left_at).runner, runner] at ran
  have same : left.host = host := congrArg (·.2.2) ran
  rw [host_leaveAt left_at] at same
  rcases out with ⟨why, _, rfl⟩ | ⟨_, after, is, rfl⟩
  · exact same.symm
  · exact ((congrArg Engine.host is).trans (host_answerIrq _)).trans same.symm

theorem host_start {f : Frame (PagedMemory σ) ω} (ok : e.start = .ok f) :
    f.engine.host = e.host := by
  have answered : e.answered.host = e.host := by
    unfold answered
    split
    · exact e.host_answerIrq
    · rfl
  rcases start_cases (fun _ => e.memory) ok with ⟨_, _, rfl, _⟩ | ⟨_, _, _, located, rfl, _⟩
  · exact answered
  · exact (host_locate located).trans answered

end Engine

namespace Frame

/-- Only where the observer is shown an instruction does the host change. -/
theorem host_follow {e : Engine (PagedMemory σ) ω} {observer : Observer ω}
    (watched : e.Watched observer) {pos : Position} {len : Nat} {leaveAt : Option LeavePoint}
    {out : Outcome} {t : Turn (PagedMemory σ) ω} (ok : follow e pos len leaveAt out = .ok t) :
    t.engine.host = observer.see e.host (out.shows e.cpu) := by
  cases out with
  | next | jump | stale =>
    cases ok
    rfl
  | bounce addr => exact Engine.host_bounce watched.runner ok
  | leave addr why =>
    obtain ⟨left, left_at, done⟩ := bind_eq_ok.mp ok
    cases done
    exact Engine.host_leaveAt left_at
  | charge addr cycles =>
    cases ok
    obtain ⟨⟨cpu, bus⟩, translator, runner, _, host, paused, haltRequest⟩ := e
    unfold charge
    split
    · rfl
    · split <;> rfl
  | observe addr =>
    change observe e pos len leaveAt addr = .ok t at ok
    have never := watched.never e.host addr { e.cpu with pc := addr }
    obtain ⟨⟨cpu, bus⟩, translator, runner, _, host, paused, haltRequest⟩ := e
    cases watched.installed
    unfold observe at ok
    dsimp only [Engine.mapCpu, Engine.cpu] at ok never
    rw [never] at ok
    cases ok
    rfl
  | illegal => cases ok

/-- What the observer has been told of the instruction in front of which the machine is `m`. -/
def told (g : Spot (PagedMemory σ)) (m : Machine σ) : List (Addr × Cpu) :=
  if g.shown then [m.view] else []

/-- What it has been told by the end of a turn: all of an instruction that is done. -/
def toldAfter (g : Spot (PagedMemory σ)) (m : Machine σ) :
    Turn (PagedMemory σ) ω → List (Addr × Cpu)
  | .stay _ => if g.next.done = [] then [m.view] else told g.next m
  | .go _ _ => [m.view]
  | .stop s => if s.held then [] else [m.view]

variable {f f' : Frame (PagedMemory σ) ω} {source : Addr → PagedMemory σ}
  {g : Spot (PagedMemory σ)} {c : Core (PagedMemory σ)} {observer : Observer ω}

theorem told_nil (m : Machine σ) (begins : g.done = []) : told g m = [] := by
  unfold told Spot.shown
  rw [begins]
  rfl

theorem told_shown (m : Machine σ) (shown : g.shown = true) : told g m = [m.view] :=
  if_pos shown

theorem told_unshown (m : Machine σ) (unshown : g.shown = false) : told g m = [] :=
  if_neg (Bool.eq_false_iff.mp unshown)

theorem shown_nil (begins : g.done = []) : g.shown = false := by
  unfold Spot.shown
  rw [begins]
  rfl

theorem toldAfter_shown (m : Machine σ) {start : Addr} (h : g.Inside start) {op : HostOp}
    {rest : List HostOp} (todo : g.todo = op :: rest) (goes : ¬ Native.Ends (M := PagedMemory σ) op)
    (shown : (g.shown || op.observes) = true) : toldAfter g m (.stay f') = [m.view] := by
  unfold toldAfter
  rcases h.next_cases todo goes with ⟨_, is⟩ | ⟨_, _, _, _, is⟩
  · rw [is, if_neg (by simp)]
    refine told_shown m ?_
    unfold Spot.shown at shown ⊢
    rw [List.any_append, List.any_cons, List.any_nil, Bool.or_false]
    exact shown
  · rw [is]
    rfl

theorem toldAfter_unshown (m : Machine σ) {op : HostOp} {rest : List HostOp}
    (todo : g.todo = op :: rest) (more : rest ≠ []) (unshown : g.shown = false)
    (silent : op.observes = false) : toldAfter g m (.stay f') = [] := by
  unfold toldAfter
  rw [Spot.next_within todo more, if_neg (by simp)]
  refine told_unshown m ?_
  unfold Spot.shown at unshown ⊢
  rw [List.any_append, unshown, List.any_cons, silent]
  rfl

theorem toldAfter_exit (m : Machine σ) {s : Stopped (PagedMemory σ) ω} {why : Stop} {addr : Addr}
    (is : s.result = why.result addr) (unasked : s.engine.haltRequest = 0) :
    toldAfter g m (.stop s) = [m.view] :=
  if_neg (Bool.eq_false_iff.mp (Stopped.held_of_exit is unasked))

theorem follow_of_leads {e : Engine (PagedMemory σ) ω} {pos : Position} {len : Nat}
    {leaveAt : Option LeavePoint} {op : HostOp} {c : Core (PagedMemory σ)}
    {t : Turn (PagedMemory σ) ω} (leads : op.leads = true)
    (ok : follow e pos len leaveAt (Native.execOp op c).1 = .ok t) :
    (∃ f', t = .stay f') ∨ ∃ s, t = .stop s ∧ s.held = true := by
  cases op with
  | nop =>
    cases ok
    exact .inl ⟨_, rfl⟩
  | uop u =>
    cases u with
    | countdown addr cycles =>
      cases ok
      unfold charge
      split
      · next asked =>
        refine .inr ⟨_, rfl, ?_⟩
        unfold Stopped.held
        rw [Engine.mapCpu_eq, bne_iff_ne.mpr asked]
        rfl
      · split
        · exact .inr ⟨_, rfl, Bool.or_true _⟩
        · exact .inl ⟨_, rfl⟩
    | _ => cases leads
  | _ => cases leads

/-- An instruction is shown by the time that anything comes of it. -/
theorem At.shows_turn (h : f.At source g) (works : f.Works g c) (watched : f.engine.Watched observer)
    (stays : f.wayOut? = none) {t : Turn (PagedMemory σ) ω} (ok : f.turn = .ok t) :
    ∃ shown, t.engine.host = observer.see f.engine.host shown ∧
      told g (c.machine g.record.addr) ++ shown.map guestView
        = toldAfter g (c.machine g.record.addr) t := by
  obtain ⟨op, rest, todo⟩ := List.exists_cons_of_ne_nil h.inside.more
  have unasked : t.engine.haltRequest = 0 := (sameSetup_turn ok).haltRequest.trans watched.unasked
  have debug : g.image.settings.options.debug = true := by
    obtain ⟨_, _, compiled⟩ := h.serves
    rw [compiled]
    exact watched.debug
  rw [h.turn_running stays todo] at ok
  obtain ⟨ran, is_ran⟩ : ∃ e : Engine (PagedMemory σ) ω,
    e = { f.engine with core := (Native.execOp op f.engine.core).2 } := ⟨_, rfl⟩
  rw [← is_ran] at ok
  have core : ran.core = (Native.execOp op f.engine.core).2 := by rw [is_ran]
  have same : ran.host = f.engine.host := by rw [is_ran]
  have watched : ran.Watched observer := by
    rw [is_ran]
    exact watched.of_same ⟨rfl, rfl, rfl⟩ rfl
  have explained := (Native.framed_execOp op f.engine.core).explained
  refine ⟨_, same ▸ host_follow watched ok, ?_⟩
  have silent : op.observes = false →
      ((Native.execOp op f.engine.core).1.shows ran.cpu).map guestView = [] := by
    intro silent
    generalize (Native.execOp op f.engine.core).1 = out at explained
    cases out with
    | observe addr =>
      rw [explained.1] at silent
      cases silent
    | _ => rfl
  rcases h.inside.shown_cases debug todo with
    ⟨leads, unshown, more⟩ | ⟨rfl, unshown⟩ | ⟨quiet, shown⟩
  · rw [told_unshown _ unshown, silent (HostOp.observes_of_leads leads)]
    rcases follow_of_leads leads ok with ⟨f', rfl⟩ | ⟨s, rfl, held⟩
    · exact (toldAfter_unshown _ todo more unshown (HostOp.observes_of_leads leads)).symm
    · exact (if_pos held).symm
  · have meets : (g.task c).Meets (.observe g.record.addr) f.engine.core := by
      have runs := works.runs
      rw [todo] at runs
      exact runs.1
    have view : guestView (g.record.addr, { f.engine.core.cpu with pc := g.record.addr })
        = (c.machine g.record.addr).view := congrArg Machine.view meets.2.1
    have cpu : ran.cpu = f.engine.core.cpu := congrArg Core.cpu core
    rw [told_unshown _ unshown]
    change [guestView (g.record.addr, { ran.cpu with pc := g.record.addr })] = _
    rw [cpu, view]
    cases follow_spec ok with
    | stay goes =>
      rw [core] at goes
      exact (toldAfter_shown _ h.inside todo (fun ends => ends _ _ goes) (Bool.or_true _)).symm
    | observed _ _ stops => exact absurd stops watched.not_mayStop
    | bounce is | jump is | leave is | halt is | pause is => cases is
  · rw [told_shown _ shown, silent quiet, List.append_nil]
    cases follow_spec ok with
    | stay goes =>
      rw [core] at goes
      exact (toldAfter_shown _ h.inside todo (fun ends => ends _ _ goes) (by rw [shown]; rfl)).symm
    | jump => rfl
    | bounce _ bounced =>
      obtain ⟨_, _, _, _, _, _, _, ⟨why, _, rfl⟩ | ⟨_, _, _, rfl⟩⟩ := Engine.bounce_eq_ok bounced
      · exact (toldAfter_exit _ rfl unasked).symm
      · rfl
    | leave => exact (toldAfter_exit _ rfl unasked).symm
    | halt _ asked => exact absurd watched.unasked asked
    | pause is =>
      rw [is] at explained
      obtain ⟨rfl, _⟩ := explained
      rw [shown_nil (h.at_countdown todo).2.1] at shown
      cases shown
    | observed _ _ stops => exact absurd stops watched.not_mayStop

theorem At.host_leaving (h : f.At source g) {p : LeavePoint} (out : f.wayOut? = some p)
    {t : Turn (PagedMemory σ) ω} (ok : f.turn = .ok t) : t.engine.host = f.engine.host := by
  rw [h.turn_leaving out] at ok
  unfold leaveStale at ok
  split at ok
  · cases ok
    rfl
  · obtain ⟨_, _, done⟩ := bind_eq_ok.mp ok
    cases done
    dsimp only [Turn.engine]
    rw [Engine.mapCpu_eq]

/-- A step of a run finishes at most the instruction in progress, and that has been shown by then. -/
theorem At.shows_step (h : f.At source g) (works : f.Works g c) (watched : f.engine.Watched observer)
    (step : f.step = .ok (.running f')) :
    ∃ source' g' c' shown finished, f'.At source' g' ∧ f'.Works g' c' ∧
      f'.engine.host = observer.see f.engine.host shown ∧
      f.underWay g c = finished ++ begun g' c' ∧
      told g (c.machine g.record.addr) ++ shown.map guestView
        = finished.map Machine.view ++ told g' (c'.machine g'.record.addr) := by
  have runner := watched.runner
  rcases turn_of_running step with turn | ⟨e, target, pos, e', turn, located, rfl⟩
  · cases h.turns works runner turn with
    | within stays there works' begun record =>
      obtain ⟨shown, host, told⟩ := h.shows_turn works watched stays turn
      refine ⟨source, g.next, c, shown, [], there, works', host, ?_, ?_⟩
      · rw [h.underWay_stays works stays, begun_cons begun, record]
        rfl
      · rw [told, record]
        exact if_neg begun
    | next stays there works' begins =>
      obtain ⟨shown, host, told⟩ := h.shows_turn works watched stays turn
      refine ⟨source, g.next, _, shown, [c.machine g.record.addr], there, works', host, ?_, ?_⟩
      · rw [h.underWay_stays works stays, begun_nil begins]
        rfl
      · rw [told, told_nil _ begins]
        exact if_pos begins
  · have turns := h.turns works runner turn
    have same : e'.host = e.host := Engine.host_locate located
    rcases h.turn_spec (runner ▸ referenceRunner_onBus) turn with ⟨_, is, _⟩ | ⟨coherent, unpaused⟩
    · cases is
    · obtain ⟨g', fresh⟩ := coherent.enters unpaused turns.arrives located
      have quiet := told_nil (g := g') (e'.core.machine g'.record.addr) fresh.begins
      cases turns with
      | back begins dead =>
        obtain ⟨p, out⟩ := Option.ne_none_iff_exists'.mp dead
        refine ⟨_, g', _, [], [], fresh.there, fresh.works, ?_, ?_, ?_⟩
        · exact same.trans (h.host_leaving out turn)
        · rw [underWay_leaving begins dead, begun_nil fresh.begins]
          rfl
        · rw [told_nil _ begins, quiet]
          rfl
      | goes stays =>
        obtain ⟨shown, host, told⟩ := h.shows_turn works watched stays turn
        refine ⟨_, g', _, shown, [c.machine g.record.addr], fresh.there, fresh.works, ?_, ?_, ?_⟩
        · exact same.trans host
        · rw [h.underWay_stays works stays, begun_nil fresh.begins]
          rfl
        · rw [told, quiet]
          rfl

theorem At.shows_stop (h : f.At source g) (works : f.Works g c) (watched : f.engine.Watched observer)
    {s : Stopped (PagedMemory σ) ω} (step : f.step = .ok (.stopped s)) :
    ∃ shown, s.engine.host = observer.see f.engine.host shown ∧ f.underWay g c ≠ [] ∧
      told g (c.machine g.record.addr) ++ shown.map guestView
        = (s.executed (f.underWay g c)).map Machine.view := by
  have turn := turn_of_stopped step
  have stays : f.wayOut? = none := by
    cases h.turns works watched.runner turn with
    | exits stays | held stays => exact stays
  obtain ⟨shown, host, told⟩ := h.shows_turn works watched stays turn
  have seen := h.underWay_stays works stays
  refine ⟨shown, host, by rw [seen]; simp, ?_⟩
  rw [told, seen]
  unfold toldAfter Stopped.executed
  dsimp only
  split <;> rfl

/-- Every instruction of a run is shown once, in order. -/
theorem At.shows_run (h : f.At source g) (works : f.Works g c) (watched : f.engine.Watched observer)
    {fuel : Nat} {s : Stopped (PagedMemory σ) ω} (run : f.run fuel = .ok (.stopped s)) :
    ∃ shown, s.engine.host = observer.see f.engine.host shown ∧
      begun g c ++ f.visits fuel ≠ [] ∧
      told g (c.machine g.record.addr) ++ shown.map guestView
        = (s.executed (begun g c ++ f.visits fuel)).map Machine.view := by
  induction fuel generalizing f source g c with
  | zero => cases run
  | succ fuel ih =>
    unfold visits
    rw [← List.append_assoc, ← underWay]
    obtain ⟨_, fuel_eq, stopped | ⟨f', step, rest⟩⟩ := run_cases run
    · rw [stopped]
      dsimp only
      rw [List.append_nil]
      exact h.shows_stop works watched stopped
    · cases fuel_eq
      obtain ⟨source', g', c', there, works', _, settings, _⟩ := h.moves works watched.runner step
      have watched' := watched.of_same (sameHost_step step) settings
      obtain ⟨_, _, _, shown, finished, there, works', host, seen, told⟩ :=
        h.shows_step works watched step
      obtain ⟨shown', host', more, told'⟩ := ih there works' watched' rest
      rw [step]
      dsimp only
      rw [seen, List.append_assoc]
      refine ⟨shown ++ shown', ?_, List.append_ne_nil_of_right_ne_nil _ more, ?_⟩
      · rw [Observer.see_append, ← host]
        exact host'
      · rw [Stopped.executed_append more, List.map_append, List.map_append, ← told', ← List.append_assoc,
          told, List.append_assoc]

end Frame

namespace Machine

def hold (m : Machine σ) (held : Bool) : Machine σ :=
  { m with cpu := { m.cpu with irq := held } }

/-- The machine after stretches of so many steps, each with the line held so. -/
def afterAll (m : Machine σ) : List (Bool × Nat) → Machine σ
  | [] => m
  | (held, n) :: rest => ((m.hold held).after n).afterAll rest

def trace (m : Machine σ) : List (Bool × Nat) → List (Machine σ)
  | [] => []
  | (held, n) :: rest => (m.hold held).visits n ++ ((m.hold held).after n).trace rest

theorem afterAll_append (m : Machine σ) (stretches stretches' : List (Bool × Nat)) :
    m.afterAll (stretches ++ stretches') = (m.afterAll stretches).afterAll stretches' := by
  induction stretches generalizing m with
  | nil => rfl
  | cons stretch rest ih => exact ih _

theorem trace_append (m : Machine σ) (stretches stretches' : List (Bool × Nat)) :
    m.trace (stretches ++ stretches') = m.trace stretches ++ (m.afterAll stretches).trace stretches' := by
  induction stretches generalizing m with
  | nil => rfl
  | cons stretch rest ih =>
    refine (congrArg (_ ++ ·) (ih _)).trans ?_
    exact (List.append_assoc _ _ _).symm

end Machine

/-- The machine comes from `start` to where the run stopped. The instructions `seen` on the way are
those that it executes, with the one that stopped the run if one did. -/
structure Stopped.Traces (s : Stopped (PagedMemory σ) ω) (start : Machine σ)
    (stretches : List (Bool × Nat)) (seen : List (Addr × Cpu)) : Prop where
  lands : s.engine.machine = start.afterAll stretches
  completes : ∀ m ∈ start.trace stretches, m.report.exit = none
  ends : s.result = .ok .countdown ∧ seen = (start.trace stretches).map Machine.view ∨
    ∃ why, s.result = why.result s.engine.cpu.pc ∧ s.engine.cpu.interruptDue = false ∧
      s.engine.machine.report.exit = some why ∧
      seen = (start.trace stretches ++ [s.engine.machine]).map Machine.view

namespace Stopped

variable {s s' : Stopped (PagedMemory σ) ω} {start : Machine σ} {stretches stretches' : List (Bool × Nat)}
  {seen seen' : List (Addr × Cpu)}

theorem Traces.told (h : s.Traces start stretches seen) (paused : s.result = .ok .countdown) :
    seen = (start.trace stretches).map Machine.view := by
  rcases h.ends with ⟨_, told⟩ | ⟨why, is, _⟩
  · exact told
  · rw [paused] at is
    cases why <;> cases is

theorem Traces.append (h : s.Traces start stretches seen) (paused : s.result = .ok .countdown)
    (h' : s'.Traces s.engine.machine stretches' seen') :
    s'.Traces start (stretches ++ stretches') (seen ++ seen') := by
  obtain ⟨lands, completes, ends⟩ := h'
  rw [h.lands] at lands completes ends
  rw [h.told paused]
  refine ⟨?_, ?_, ?_⟩
  · rw [start.afterAll_append, lands]
  · intro m mem
    rw [start.trace_append] at mem
    exact (List.mem_append.mp mem).elim (h.completes m) (completes m)
  · rw [start.trace_append, List.append_assoc, List.map_append, List.map_append]
    rcases ends with ⟨countdown, rfl⟩ | ⟨why, is, quiet, exit, rfl⟩
    · exact .inl ⟨countdown, rfl⟩
    · exact .inr ⟨why, is, quiet, exit, rfl⟩

end Stopped

namespace Engine

variable {e : Engine (PagedMemory σ) ω} {observer : Observer ω} {source : Addr → PagedMemory σ}
  {fuel : Nat} {s : Stopped (PagedMemory σ) ω}

theorem History.shows (history : History referenceRunner (.idle e) source fun _ => False)
    (low : e.memory.LowPlain) (watched : e.Watched observer) (ok : e.run fuel = .ok (.stopped s)) :
    ∃ shown, s.engine.host = observer.see e.host shown ∧
      shown.map guestView = (e.executed fuel).map Machine.view := by
  have coherent : e.Coherent source fun _ => False := history.stands referenceRunner_onBus
  unfold executed visits
  rw [ok]
  obtain ⟨f, start, run⟩ := bind_eq_ok.mp ok
  rw [start]
  dsimp only
  obtain ⟨g, fresh⟩ := coherent.fresh_start (history.inProgress low) low start
  have settings : f.engine.translator.settings = e.translator.settings :=
    fresh.settings.trans (congrArg (·.settings) e.sameProgram_answered.translator)
  obtain ⟨shown, host, _, told⟩ :=
    fresh.there.shows_run fresh.works (watched.of_same (sameHost_start start) settings) run
  rw [Frame.told_nil _ fresh.begins, Frame.begun_nil fresh.begins] at told
  exact ⟨shown, host_start start ▸ host, told⟩

def resume (e : Engine (PagedMemory σ) ω) (held : Bool) (budget : Int) : Engine (PagedMemory σ) ω :=
  (e.holdIrq held).aim e.cpu.pc budget

theorem Watched.resume (h : e.Watched observer) (held : Bool) (budget : Int) :
    (e.resume held budget).Watched observer :=
  h.of_same ⟨rfl, rfl, rfl⟩ rfl

/-- Slice after slice, each but the last one out of budget at its end. `lines` is how the interrupt
line was held, and `ms` what was executed in all. -/
inductive Resumed :
    Engine (PagedMemory σ) ω → List Bool → List (Machine σ) → Stopped (PagedMemory σ) ω → Prop
  | last {e : Engine (PagedMemory σ) ω} {held : Bool} {budget : Int} {fuel : Nat}
    {s : Stopped (PagedMemory σ) ω} (ok : (e.resume held budget).run fuel = .ok (.stopped s)) :
    Resumed e [held] ((e.resume held budget).executed fuel) s
  | more {e : Engine (PagedMemory σ) ω} {held : Bool} {budget : Int} {fuel : Nat}
    {s s' : Stopped (PagedMemory σ) ω} {lines : List Bool} {ms : List (Machine σ)}
    (ok : (e.resume held budget).run fuel = .ok (.stopped s)) (paused : s.result = .ok .countdown)
    (rest : Resumed s.engine lines ms s') :
    Resumed e (held :: lines) ((e.resume held budget).executed fuel ++ ms) s'

theorem History.shows_resume (history : History referenceRunner (.idle e) source fun _ => False)
    (low : e.memory.LowPlain) (watched : e.Watched observer) {held : Bool} {budget : Int}
    (ok : (e.resume held budget).run fuel = .ok (.stopped s))
    (cacheable : ∀ m ∈ (e.resume held budget).executed fuel, m.Cacheable e.tracksZeroPage) :
    ∃ n shown, s.engine.host = observer.see e.host shown ∧
      s.Traces e.machine [(held, n)] (shown.map guestView) := by
  have history : History referenceRunner (.idle (e.resume held budget)) source fun _ => False :=
    (history.holdIrq held).aim e.cpu.pc budget
  have watched := watched.resume held budget
  obtain ⟨n, stretch⟩ := history.endsAfter low ok cacheable
  obtain ⟨shown, host, told⟩ := history.shows low watched ok
  have lands : s.engine.machine = (e.machine.hold held).after n := stretch.lands
  have executed : (e.resume held budget).executed fuel
      = (e.machine.hold held).visits n ++ if s.held then [] else [s.engine.machine] := by
    unfold Engine.executed
    rw [ok, lands]
    exact stretch.executed
  have trace : e.machine.trace [(held, n)] = (e.machine.hold held).visits n := List.append_nil _
  refine ⟨n, shown, host, lands, trace ▸ stretch.completes, ?_⟩
  rw [told, executed, trace]
  have same := sameHost_run ok
  cases stretch.reason with
  | @exit why unasked quiet is reports =>
    have free : s.held = false := Stopped.held_of_exit is unasked
    have last : (e.resume held budget).machine.after n = s.engine.machine := lands.symm
    rw [last] at quiet is reports
    rw [free, if_neg Bool.false_ne_true]
    exact .inr ⟨why, is, quiet, reports, rfl⟩
  | countdown is =>
    have held : s.held = true := by
      unfold Stopped.held
      rw [is]
      exact Bool.or_true _
    rw [held, if_pos rfl, List.append_nil]
    exact .inl ⟨is, rfl⟩
  | observed _ may =>
    exact absurd may (watched.of_same same (history.setup_run low ok).1).not_mayStop
  | asked asked => exact absurd (same.haltRequest.trans watched.unasked) asked

theorem Resumed.traces {lines : List Bool} {ms : List (Machine σ)} (resumed : e.Resumed lines ms s)
    (history : History referenceRunner (.idle e) source fun _ => False) (low : e.memory.LowPlain)
    (watched : e.Watched observer) (cacheable : ∀ m ∈ ms, m.Cacheable e.tracksZeroPage) :
    ∃ stretches shown, stretches.map Prod.fst = lines ∧
      s.engine.host = observer.see e.host shown ∧
      s.Traces e.machine stretches (shown.map guestView) := by
  induction resumed generalizing source with
  | @last e held budget fuel s ok =>
    obtain ⟨n, shown, host, traces⟩ := history.shows_resume low watched ok cacheable
    exact ⟨_, shown, rfl, host, traces⟩
  | @more e held budget fuel s s' lines ms ok paused rest ih =>
    obtain ⟨n, shown, host, traces⟩ :=
      history.shows_resume low watched ok fun m mem => cacheable m (List.mem_append_left _ mem)
    have sliced : History referenceRunner (.idle (e.resume held budget)) source fun _ => False :=
      (history.holdIrq held).aim e.cpu.pc budget
    obtain ⟨settings, pages⟩ := sliced.setup_run low ok
    obtain ⟨source', after⟩ := sliced.run ok
    have watched := (watched.resume held budget).of_same (sameHost_run ok) settings
    have tracks : s.engine.tracksZeroPage = e.tracksZeroPage :=
      congrArg (·.options.zeroPageCode) settings
    have there : ∀ m ∈ ms, m.Cacheable s.engine.tracksZeroPage := by
      rw [tracks]
      exact fun m mem => cacheable m (List.mem_append_right _ mem)
    obtain ⟨stretches, shown', rfl, host', traces'⟩ :=
      ih after (low.of_pages pages) watched there
    refine ⟨(held, n) :: stretches, shown ++ shown', rfl, ?_, ?_⟩
    · rw [Observer.see_append, ← host]
      exact host'
    · rw [List.map_append]
      exact traces.append paused traces'

theorem watched_of_fresh {memory : PagedMemory σ} {config : Config} {host : ω} {cpu : Cpu}
    (made : fresh memory config host cpu (some observer) = .ok e) (debug : config.debug = true)
    (never : observer.NeverStops) : e.Watched observer := by
  have is := isNew_of_fresh made
  refine ⟨(is.history fun _ => memory).runner_eq, never, is.observer, ?_, is.unasked⟩
  unfold fresh create at made
  split at made
  · cases made
  · cases made
    exact debug

theorem host_of_fresh {memory : PagedMemory σ} {config : Config} {host : ω} {cpu : Cpu}
    {observer : Option (Observer ω)} (made : fresh memory config host cpu observer = .ok e) :
    e.host = host := by
  unfold fresh create at made
  split at made
  · cases made
  · cases made
    rfl

/-- The observer of a new engine is shown the instructions that the machine executes, the one that
stops the run included: each once, in order, and with the registers and flags in front of it. -/
theorem fresh_traces {memory : PagedMemory σ} {config : Config} {host : ω} {cpu : Cpu}
    {e : Engine (PagedMemory σ) (ω × List (Addr × Cpu))} {lines : List Bool} {ms : List (Machine σ)}
    {s : Stopped (PagedMemory σ) (ω × List (Addr × Cpu))}
    (made : fresh memory config (host, []) cpu (some observer.recorded) = .ok e)
    (debug : config.debug = true) (never : observer.NeverStops) (low : memory.LowPlain)
    (resumed : e.Resumed lines ms s) (cacheable : ∀ m ∈ ms, m.Cacheable config.zeroPageCode) :
    ∃ stretches, stretches.map Prod.fst = lines ∧
      s.Traces ⟨cpu.guest, memory⟩ stretches (s.engine.host.2.map guestView) := by
  have is := isNew_of_fresh made
  have watched := watched_of_fresh made debug fun host => never host.1
  rw [← is.tracks] at cacheable
  obtain ⟨stretches, shown, held, host, traces⟩ :=
    resumed.traces (is.history fun _ => memory) (is.memory ▸ low) watched cacheable
  have log : s.engine.host.2 = shown := by
    rw [host, host_of_fresh made, Observer.see_recorded]
    rfl
  have machine : e.machine = ⟨cpu.guest, memory⟩ := by
    rw [← is.cpu, ← is.memory]
    rfl
  rw [log, ← machine]
  exact ⟨stretches, held, traces⟩

def patient : Observer Unit :=
  fun host _ _ => (false, host)

def attended : Config :=
  { tight with maxOps := 2, debug := true }

def masked : Cpu :=
  Cpu.powerOn.setMasked true

def showsOn (e : Engine (PagedMemory Unit) (Unit × List (Addr × Cpu))) : Bool :=
  match (e.resume false 5).run 40 with
  | .ok (.stopped ⟨e', .ok reason⟩) =>
    reason == .countdown &&
      decide (∀ m ∈ (e.resume false 5).executed 40, m.Cacheable attended.zeroPageCode) &&
      match (e'.resume true 50).run 60 with
      | .ok (.stopped ⟨e'', .ok reason⟩) =>
        reason == .exit && e''.host.2.map Prod.fst == [0, 2, 4, 5] &&
          decide (∀ m ∈ (e'.resume true 50).executed 60, m.Cacheable attended.zeroPageCode)
      | _ => false
  | _ => false

theorem resumed_of_showsOn {e : Engine (PagedMemory Unit) (Unit × List (Addr × Cpu))}
    (h : showsOn e = true) : ∃ ms s, e.Resumed [false, true] ms s ∧ s.result = .ok .exit ∧
      s.engine.host.2.map Prod.fst = [0, 2, 4, 5] ∧
      ∀ m ∈ ms, m.Cacheable attended.zeroPageCode := by
  unfold showsOn at h
  split at h
  · next e' reason run =>
    simp only [Bool.and_eq_true, beq_iff_eq, decide_eq_true_eq] at h
    obtain ⟨⟨rfl, first⟩, h⟩ := h
    split at h
    · next e'' reason' run' =>
      simp only [Bool.and_eq_true, beq_iff_eq, decide_eq_true_eq] at h
      obtain ⟨⟨rfl, log⟩, second⟩ := h
      have rest : e'.Resumed _ _ _ := .last run'
      refine ⟨_, _, .more run rfl rest, rfl, log, ?_⟩
      intro m mem
      exact (List.mem_append.mp mem).elim (first m) (second m)
    · cases h
  · cases h

theorem fresh_traces_overwriting : ∃ e ms s,
    fresh overwriting attended ((), []) masked (some patient.recorded) = .ok e ∧
      e.Resumed [false, true] ms s ∧ s.result = .ok .exit ∧
      s.engine.host.2.map Prod.fst = [0, 2, 4, 5] ∧
      ∃ stretches, stretches.map Prod.fst = [false, true] ∧
        s.Traces ⟨masked.guest, overwriting⟩ stretches (s.engine.host.2.map guestView) := by
  have facts : (fresh overwriting attended ((), []) masked (some patient.recorded)).toOption.map
      showsOn = some true := by
    decide +kernel
  obtain ⟨e, made, facts⟩ := exists_ok_of_map facts
  obtain ⟨ms, s, resumed, exit, log, cacheable⟩ := resumed_of_showsOn facts
  refine ⟨e, ms, s, made, resumed, exit, log, ?_⟩
  exact fresh_traces made rfl (fun _ _ _ => rfl) (PagedMemory.lowPlain_load_blank _ _) resumed
    cacheable

end Engine

end Mos6502
