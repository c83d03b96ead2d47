import Mos6502.Engine.Control
import Mos6502.Proofs.Engine.History

/-! No check of the translator ever fails, and host code never runs astray. What a run comes to is
decided by guest code, the host and the budget alone, whatever the host does between two runs and
whatever becomes of memory. -/
namespace Mos6502

def EngineError.FromGuest : EngineError → Prop
  | undefinedOpcode .. | deliberateFault _ => True
  | strayTrap _ | invalidConfig _ => False

section Clean

variable {M ω : Type}

def Stopped.Clean (s : Stopped M ω) : Prop :=
  ∀ problem, s.result = .error problem → problem.FromGuest

def Turn.Clean : Turn M ω → Prop
  | .stop s => s.Clean
  | .stay _ | .go _ _ => True

def Progress.Clean : Progress M ω → Prop
  | .stopped s => s.Clean
  | .running _ => True

theorem Stopped.clean_of_stop (e : Engine M ω) (addr : Addr) (why : Stop) :
    Stopped.Clean ⟨e, why.result addr⟩ := by
  intro problem is
  cases why <;> cases is <;> trivial

theorem Stopped.clean_of_ok (e : Engine M ω) (reason : Halt) : Stopped.Clean ⟨e, .ok reason⟩ :=
  fun _ is => nomatch is

end Clean

section Turn

variable {M ω : Type} {e : Engine M ω}

theorem Engine.leaveAt_ok {addr : Addr}
    (refund : ∀ budget, ∃ left, e.translator.refund addr budget = .ok left) :
    ∃ left, e.leaveAt addr = .ok left := by
  obtain ⟨budget, ok⟩ := refund e.cpu.budget
  exact ⟨_, bind_eq_ok.mpr ⟨budget, ok, rfl⟩⟩

variable [GuestMemory M]

theorem Engine.bounce_ok {addr : Addr}
    (refund : ∀ budget, ∃ left, e.translator.refund addr budget = .ok left) :
    ∃ t, e.bounce addr = .ok t := by
  obtain ⟨left, ok⟩ := e.leaveAt_ok refund
  unfold Engine.bounce
  rw [ok]
  dsimp only [bind, Except.bind]
  split <;> exact ⟨_, rfl⟩

theorem Engine.bounce_clean {addr : Addr} {t : Turn M ω} (ok : e.bounce addr = .ok t) :
    t.Clean := by
  obtain ⟨_, _, _, _, _, _, _, ⟨why, _, rfl⟩ | ⟨_, _, _, rfl⟩⟩ := Engine.bounce_eq_ok ok
  · exact Stopped.clean_of_stop _ addr why
  · trivial

theorem Frame.follow_ok {pos : Position} {len : Nat} {leaveAt : Option LeavePoint} {out : Outcome}
    {a : Addr} (about : out.About a)
    (refund : ∀ budget, ∃ left, e.translator.refund a budget = .ok left) :
    ∃ t, Frame.follow e pos len leaveAt out = .ok t := by
  cases out with
  | next | jump | stale | charge => exact ⟨_, rfl⟩
  | bounce addr =>
    cases about
    exact Engine.bounce_ok refund
  | leave addr why =>
    cases about
    obtain ⟨left, ok⟩ := Engine.leaveAt_ok refund
    exact ⟨_, bind_eq_ok.mpr ⟨left, ok, rfl⟩⟩
  | observe addr =>
    cases about
    obtain ⟨⟨cpu, bus⟩, translator, runner, observer, host, paused, haltRequest⟩ := e
    change ∃ t, Frame.observe _ pos len leaveAt a = .ok t
    unfold Frame.observe
    cases observer with
    | none => exact ⟨_, rfl⟩
    | some observer =>
      dsimp only [Engine.mapCpu]
      split
      · obtain ⟨budget, ok⟩ := refund cpu.budget
        exact ⟨_, bind_eq_ok.mpr ⟨_, bind_eq_ok.mpr ⟨budget, ok, rfl⟩, rfl⟩⟩
      · exact ⟨_, rfl⟩
  | illegal mnemonic => exact about.elim

theorem Frame.Followed.clean {pos : Position} {len : Nat} {leaveAt : Option LeavePoint}
    {out : Outcome} {t : Turn M ω} (h : Followed e pos len leaveAt out t) : t.Clean := by
  cases h with
  | stay | jump => trivial
  | bounce _ ran => exact Engine.bounce_clean ran
  | leave => exact Stopped.clean_of_stop _ _ _
  | halt | pause | observed => exact Stopped.clean_of_ok _ _

end Turn

variable {σ ω : Type}

namespace Frame

variable {f : Frame (PagedMemory σ) ω} {source : Addr → PagedMemory σ} {g : Spot (PagedMemory σ)}

theorem Stands.turn_ok (h : f.Stands g) : ∃ t, f.turn = .ok t ∧ t.Clean := by
  have refund : ∀ budget, ∃ left, f.engine.translator.refund g.record.addr budget = .ok left :=
    fun budget => ⟨_, h.refund_eq budget⟩
  cases stays : f.wayOut? with
  | some p =>
    rw [h.turn_leaving stays]
    unfold leaveStale
    split
    · exact ⟨_, rfl, trivial⟩
    · rw [h.refund_eq]
      exact ⟨_, rfl, trivial⟩
  | none =>
    obtain ⟨op, rest, todo⟩ := List.exists_cons_of_ne_nil h.inside.more
    rw [h.turn_running stays todo]
    refine (follow_ok (h.about todo) ?_).imp fun t ok => ⟨ok, (follow_spec ok).clean⟩
    exact refund

end Frame

def Phase.Orderly (phase : Phase (PagedMemory σ) ω) (source : Addr → PagedMemory σ) : Prop :=
  phase.engine.runner.OnBus ∧ phase.engine.Consistent source ∧
    match phase with
    | .idle _ => True
    | .running f => ∃ g, f.Stands g

def Progress.phase {M : Type} : Progress M ω → Phase M ω
  | .running f => .running f
  | .stopped s => .idle s.engine

/-- The run neither faults nor fails by itself, and can be gone on from. -/
def Goes (out : Except Fault (Progress (PagedMemory σ) ω)) : Prop :=
  ∃ p, out = .ok p ∧ p.Clean ∧ ∃ source, p.phase.Orderly source

variable {source : Addr → PagedMemory σ}

namespace Frame

variable {f : Frame (PagedMemory σ) ω}

theorem orderly_turn (h : Phase.Orderly (.running f) source) {t : Turn (PagedMemory σ) ω}
    (ok : f.turn = .ok t) :
    match t with
    | .stay f' => Phase.Orderly (.running f') source
    | .go e _ => Phase.Orderly (.idle e) source ∧ e.paused = none
    | .stop s => Phase.Orderly (.idle s.engine) source := by
  obtain ⟨onBus, consistent, g, stands⟩ := h
  have runner : t.engine.runner = f.engine.runner := (sameSetup_turn ok).runner
  have onBus' : t.engine.runner.OnBus := runner ▸ onBus
  rcases stands.turn_spec consistent onBus ok with ⟨f', rfl, advances, consistent'⟩ | rests
  · exact ⟨onBus', consistent', _, advances.there⟩
  · cases t with
    | stay f' => exact rests.elim
    | go e target => exact ⟨⟨onBus', rests.1, trivial⟩, rests.2⟩
    | stop s => exact ⟨onBus', rests, trivial⟩

theorem orderly_locate {e : Engine (PagedMemory σ) ω} (h : Phase.Orderly (.idle e) source)
    (unpaused : e.paused = none) {target : Addr} {pos : Position} {e' : Engine (PagedMemory σ) ω}
    (ok : e.locate target = .ok (pos, e')) :
    Phase.Orderly (.running ⟨e', pos, none⟩) (e.located source target) := by
  obtain ⟨onBus, consistent, _⟩ := h
  obtain ⟨g, begun, _⟩ := Engine.Consistent.enter consistent unpaused ok
  have runner : e'.runner = e.runner := (Engine.sameHost_locate ok).runner
  have onBus : e.runner.OnBus := onBus
  exact ⟨show e'.runner.OnBus from runner ▸ onBus, (consistent.locate unpaused ok).1, g,
    begun.toStands⟩

theorem step_goes (h : Phase.Orderly (.running f) source) : Goes f.step := by
  have ⟨_, _, g, stands⟩ := h
  obtain ⟨t, turn, clean⟩ := stands.turn_ok
  have after := orderly_turn h turn
  unfold step
  rw [turn]
  cases t with
  | stay f' => exact ⟨_, rfl, trivial, source, after⟩
  | stop s => exact ⟨_, rfl, clean, source, after⟩
  | go e target =>
    obtain ⟨orderly, unpaused⟩ := after
    obtain ⟨⟨pos, e'⟩, located⟩ := orderly.2.1.locate_ok target
    change Goes (do let (pos, e) ← e.locate target; return .running ⟨e, pos, none⟩)
    have located : e.locate target = .ok (pos, e') := located
    rw [located]
    exact ⟨_, rfl, trivial, _, orderly_locate orderly unpaused located⟩

theorem run_goes (h : Phase.Orderly (.running f) source) (fuel : Nat) : Goes (f.run fuel) := by
  induction fuel generalizing f source with
  | zero => exact ⟨_, rfl, trivial, source, h⟩
  | succ fuel ih =>
    obtain ⟨p, step, clean, source', after⟩ := step_goes h
    unfold run
    rw [step]
    cases p with
    | stopped s => exact ⟨_, rfl, clean, source', after⟩
    | running f' => exact ih after

end Frame

namespace Engine

variable {e : Engine (PagedMemory σ) ω}

theorem orderly_start (h : Phase.Orderly (.idle e) source) {f : Frame (PagedMemory σ) ω}
    (ok : e.start = .ok f) : Phase.Orderly (.running f) (e.started source) := by
  obtain ⟨onBus, consistent, _⟩ := h
  obtain ⟨consistent', g, begun, _⟩ := Consistent.start consistent ok
  have runner : f.engine.runner = e.runner := (sameHost_start ok).runner
  have onBus : e.runner.OnBus := onBus
  exact ⟨show f.engine.runner.OnBus from runner ▸ onBus, consistent', g, begun.toStands⟩

theorem Consistent.start_ok (h : e.Consistent source) : ∃ f, e.start = .ok f := by
  unfold Engine.start
  dsimp only
  rw [← Engine.answered]
  cases e.answered.validPause? with
  | some pos => exact ⟨_, rfl⟩
  | none =>
    have unpaused : (e.answered.setPause none).Consistent source :=
      h.answered.of_same rfl rfl (.inr rfl)
    obtain ⟨out, located⟩ := unpaused.locate_ok e.answered.cpu.pc
    exact ⟨_, bind_eq_ok.mpr ⟨out, located, rfl⟩⟩

theorem run_goes (h : Phase.Orderly (.idle e) source) (fuel : Nat) : Goes (e.run fuel) := by
  obtain ⟨f, start⟩ : ∃ f, e.start = .ok f := Consistent.start_ok h.2.1
  unfold Engine.run
  rw [start]
  exact Frame.run_goes (orderly_start h start) fuel

end Engine

end Mos6502
