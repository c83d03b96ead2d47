import Mos6502.Proofs.Engine.Resume
import Mos6502.Proofs.Engine.Slices

/-! A halt that was asked for stops a run at its first host instruction, the countdown that every
run begins with. `enter` takes one of the reasons for its own: it goes on from a slice that gives
`countdown`, whoever asked for it. -/
namespace Mos6502.Engine

variable {σ ω : Type} {e₀ e : Engine (PagedMemory σ) ω} {source : Addr → PagedMemory σ}

/-- The run stops at its first host instruction and gives the reasons asked for. Processor, memory
and host are as before, but for an interrupt that was pending. -/
structure HaltsAtOnce (e : Engine (PagedMemory σ) ω) (s : Stopped (PagedMemory σ) ω) : Prop where
  runs : ∀ fuel, e.run (fuel + 1) = .ok (.stopped s)
  result : s.result = .ok (Halt.ofBits e.haltRequest)
  cpu : s.engine.cpu = e.answered.cpu
  memory : s.engine.memory = e.answered.memory
  quiet : e.cpu.interruptDue = false → s.engine.cpu = e.cpu ∧ s.engine.memory = e.memory
  host : s.engine.host = e.host
  haltRequest : s.engine.haltRequest = e.haltRequest

theorem host_answered (e : Engine (PagedMemory σ) ω) : e.answered.host = e.host := by
  obtain ⟨⟨cpu, bus⟩, translator, runner, observer, host, paused, haltRequest⟩ := e
  unfold answered answerIrq
  dsimp only
  generalize Interpreter.interrupt cpu bus = done
  obtain ⟨⟨cycles, after⟩, bus'⟩ := done
  split
  · split <;> rfl
  · rfl

theorem Consistent.start_host (h : e.Consistent source) {f : Frame (PagedMemory σ) ω}
    (ok : e.start = .ok f) : f.engine.host = e.host := by
  rcases start_cases source ok with ⟨_, _, rfl, _⟩ | ⟨_, _, _, located, rfl, _⟩
  · exact e.host_answered
  · have unpaused : (e.answered.setPause none).Consistent source :=
      h.answered.of_same rfl rfl (.inr rfl)
    exact (unpaused.locate rfl located).2.host.trans e.host_answered

theorem Consistent.haltsAtOnce (h : e.Consistent source) (asked : e.haltRequest ≠ 0) :
    ∃ s, e.HaltsAtOnce s := by
  obtain ⟨f, start⟩ := h.start_ok
  obtain ⟨_, g, begun, pc, heads⟩ := h.start start
  obtain ⟨cpu, memory⟩ := h.start_core start
  have request : f.engine.haltRequest = e.haltRequest := (sameHost_start start).haltRequest
  have step := begun.step_asked (start_leaveAt start) begun.begins heads (request ▸ asked)
  -- The countdown is that of the instruction that the run begins at.
  have there : ({ f.engine.cpu with pc := g.record.addr } : Cpu) = e.answered.cpu := by
    rw [pc, cpu]
  rw [mapCpu_eq] at step
  refine ⟨⟨{ f.engine with core := ⟨{ f.engine.cpu with pc := g.record.addr }, f.engine.core.bus⟩ },
    .ok (Halt.ofBits f.engine.haltRequest)⟩, ⟨?_, by rw [request], there, memory, ?_,
    h.start_host start, request⟩⟩
  · intro fuel
    unfold run
    rw [start]
    change f.run (fuel + 1) = _
    unfold Frame.run
    rw [step]
    rfl
  · intro quiet
    rw [answered_of_quiet quiet] at there memory
    exact ⟨there, memory⟩

theorem HaltsAtOnce.continueRun {s : Stopped (PagedMemory σ) ω} (h : e.HaltsAtOnce s) :
    e.continueRun = .ok (.stopped s) := by
  have some_fuel : fuelFor e.cpu.budget = fuelFor e.cpu.budget - 1 + 1 := by
    unfold fuelFor
    omega
  unfold Engine.continueRun
  rw [some_fuel]
  exact h.runs _

structure HeldInSlice (e : Engine (PagedMemory σ) ω) (s : Stopped (PagedMemory σ) ω) : Prop where
  result : s.result = .ok (Halt.ofBits e.haltRequest)
  cpu : s.engine.cpu = { e.cpu with budget := sliceCycles }
  memory : s.engine.memory = e.memory
  host : s.engine.host = e.host
  haltRequest : s.engine.haltRequest = e.haltRequest

theorem HeldInSlice.trans {s s' : Stopped (PagedMemory σ) ω} (h : e.HeldInSlice s)
    (h' : s.engine.HeldInSlice s') : e.HeldInSlice s' where
  result := h.haltRequest ▸ h'.result
  cpu := h'.cpu.trans (by rw [h.cpu])
  memory := h'.memory.trans h.memory
  host := h'.host.trans h.host
  haltRequest := h'.haltRequest.trans h.haltRequest

theorem slice_eq (e : Engine (PagedMemory σ) ω) :
    e.slice = { e with core := ⟨{ e.cpu with budget := sliceCycles }, e.core.bus⟩ } :=
  e.mapCpu_eq _

theorem HaltsAtOnce.heldInSlice {s : Stopped (PagedMemory σ) ω} (h : e.slice.HaltsAtOnce s)
    (quiet : e.cpu.interruptDue = false) : e.HeldInSlice s := by
  obtain ⟨_, result, _, _, kept, host, haltRequest⟩ := h
  rw [slice_eq] at result kept host haltRequest
  obtain ⟨cpu, memory⟩ := kept quiet
  exact ⟨result, cpu, memory, host, haltRequest⟩

theorem slice_halts (h : Phase.Orderly (.idle e) source) (asked : e.haltRequest ≠ 0) :
    ∃ s source', e.slice.continueRun = .ok (.stopped s) ∧ e.slice.HaltsAtOnce s ∧
      Phase.Orderly (.idle s.engine) source' := by
  have aimed : e.slice = e.aim e.cpu.pc sliceCycles := e.slice_eq_aim
  have orderly : Phase.Orderly (.idle e.slice) source := aimed ▸ orderly_act h (.aim _ _)
  obtain ⟨s, halts⟩ : ∃ s, e.slice.HaltsAtOnce s := Consistent.haltsAtOnce orderly.2.1 asked
  have stops := halts.continueRun
  obtain ⟨p, ran, _, source', after⟩ := run_goes orderly (fuelFor e.slice.cpu.budget)
  cases ran.symm.trans stops
  exact ⟨s, source', stops, halts, after⟩

theorem runSlices_succ {s : Stopped (PagedMemory σ) ω} {reason : Halt}
    (ran : e.slice.continueRun = .ok (.stopped s)) (result : s.result = .ok reason) (n : Nat) :
    e.runSlices (n + 1) =
      if reason = .countdown then s.engine.runSlices n else .ok (.stopped s) := by
  obtain ⟨e', _⟩ := s
  cases result
  rw [runSlices, ← slice, ran]
  rfl

theorem runSlices_held (h : Phase.Orderly (.idle e) source) (asked : e.haltRequest ≠ 0)
    (only : Halt.ofBits e.haltRequest = .countdown) (quiet : e.cpu.interruptDue = false) (n : Nat) :
    ∃ s, e.runSlices (n + 1) = .ok (.stopped s) ∧ e.HeldInSlice s := by
  induction n generalizing e source with
  | zero =>
    obtain ⟨s, _, ran, halts, _⟩ := slice_halts h asked
    have held := halts.heldInSlice quiet
    refine ⟨s, ?_, held⟩
    rw [runSlices_succ ran held.result, if_pos only]
    have result : s.result = .ok .countdown := only ▸ held.result
    obtain ⟨e', _⟩ := s
    cases result
    rfl
  | succ n ih =>
    obtain ⟨s, source', ran, halts, after⟩ := slice_halts h asked
    have held := halts.heldInSlice quiet
    have still := held.haltRequest
    have quiet' : s.engine.cpu.interruptDue = false := by
      rw [held.cpu]
      exact quiet
    obtain ⟨s', rest, held'⟩ := ih after (still ▸ asked) (still ▸ only) quiet'
    refine ⟨s', ?_, held.trans held'⟩
    rw [runSlices_succ ran held.result, if_pos only]
    exact rest

def poweredOn (e : Engine (PagedMemory σ) ω) (vector : Addr) : Engine (PagedMemory σ) ω :=
  e.modifyCpu fun _ => { Cpu.powerOn with pc := GuestMemory.readWord e.memory vector }

theorem haltRequest_poweredOn (e : Engine (PagedMemory σ) ω) (vector : Addr) :
    (e.poweredOn vector).haltRequest = e.haltRequest :=
  rfl

theorem quiet_poweredOn (e : Engine (PagedMemory σ) ω) (vector : Addr) :
    (e.poweredOn vector).cpu.interruptDue = false :=
  rfl

theorem orderly_poweredOn (h : Phase.Orderly (.idle e) source) (vector : Addr) :
    Phase.Orderly (.idle (e.poweredOn vector)) source :=
  orderly_act h (.modifyCpu _)

/-- However many slices it is given, `enter` uses them up without running anything: the result
`countdown` says that there was none left. -/
def EntersForever (e : Engine (PagedMemory σ) ω) (vector : Addr) : Prop :=
  ∀ n, ∃ s, e.enter vector (n + 1) = .ok (.stopped s) ∧ (e.poweredOn vector).HeldInSlice s ∧
    s.result = .ok .countdown

theorem entersForever_of_asked (h : Phase.Orderly (.idle e) source)
    (only : Halt.ofBits e.haltRequest = .countdown) (vector : Addr) : e.EntersForever vector := by
  have asked : e.haltRequest ≠ 0 := by
    intro unasked
    rw [unasked] at only
    exact absurd only (by decide)
  have same := e.haltRequest_poweredOn vector
  intro n
  obtain ⟨s, ran, held⟩ := runSlices_held (orderly_poweredOn h vector) (same ▸ asked) (same ▸ only)
    (e.quiet_poweredOn vector) n
  exact ⟨s, ran, held, held.result.trans (by rw [same, only])⟩

/-- Whatever an engine can come to, a run of it stops with the reasons asked for before its first
instruction. So does `enter`, in its first slice, unless `countdown` is all that is asked for. -/
theorem halts_when_asked {config : Config} {memory : PagedMemory σ}
    {runner : InstructionRunner (PagedMemory σ) ω} {host : ω}
    (made : create memory config runner host = .ok e₀) (onBus : runner.OnBus)
    (reached : e₀.Reaches (.idle e) source) (asked : e.haltRequest ≠ 0) :
    (∀ pc cycles, ∃ s, e.execute pc cycles = .ok (.stopped s) ∧ (e.aim pc cycles).HaltsAtOnce s) ∧
      (∃ s, e.continueRun = .ok (.stopped s) ∧ e.HaltsAtOnce s) ∧
      (Halt.ofBits e.haltRequest ≠ .countdown → ∀ vector, ∃ s,
        (e.poweredOn vector).slice.HaltsAtOnce s ∧ ∀ n, e.enter vector (n + 1) = .ok (.stopped s)) ∧
      (Halt.ofBits e.haltRequest = .countdown → ∀ vector, e.EntersForever vector) := by
  have orderly := reached.orderly (orderly_create onBus made)
  refine ⟨?_, ?_, ?_, fun only vector => entersForever_of_asked orderly only vector⟩
  · intro pc cycles
    have aimed : Phase.Orderly (.idle (e.aim pc cycles)) source := orderly_act orderly (.aim pc cycles)
    obtain ⟨s, halts⟩ : ∃ s, (e.aim pc cycles).HaltsAtOnce s :=
      Consistent.haltsAtOnce aimed.2.1 asked
    exact ⟨s, halts.continueRun, halts⟩
  · obtain ⟨s, halts⟩ := Consistent.haltsAtOnce orderly.2.1 asked
    exact ⟨s, halts.continueRun, halts⟩
  · intro other vector
    have same := e.haltRequest_poweredOn vector
    obtain ⟨s, _, ran, halts, _⟩ := slice_halts (orderly_poweredOn orderly vector) (same ▸ asked)
    refine ⟨s, halts, fun n => ?_⟩
    have held := halts.heldInSlice (e.quiet_poweredOn vector)
    have reasons := held.result
    rw [same] at reasons
    change (e.poweredOn vector).runSlices (n + 1) = _
    rw [runSlices_succ ran reasons, if_neg other]

theorem create_ok {config : Config} (memory : PagedMemory σ) (valid : config.validate = .ok ())
    (runner : InstructionRunner (PagedMemory σ) ω) (host : ω) :
    ∃ e₀, create memory config runner host = .ok e₀ := by
  unfold create
  rw [valid]
  exact ⟨_, rfl⟩

theorem haltRequest_create {config : Config} {memory : PagedMemory σ}
    {runner : InstructionRunner (PagedMemory σ) ω} {host : ω}
    (made : create memory config runner host = .ok e) : e.haltRequest = 0 := by
  unfold create at made
  split at made
  · cases made
  · cases made
    rfl

/-- Two reasons at once, for code that is not compiled yet. -/
theorem halts_when_asked_twofold : ∃ (e₀ : Engine (PagedMemory Unit) Unit)
    (s s' : Stopped (PagedMemory Unit) Unit),
    create .blank { arenaSize := 256, windowSize := 256 } referenceRunner () = .ok e₀ ∧
      ((e₀.requestHalt 1).requestHalt 8).execute 0 20 = .ok (.stopped s) ∧
      s.result = .ok (Halt.exit.union .externalHalt) ∧
      ((e₀.requestHalt 1).requestHalt 8).enter 0xFFFC 1 = .ok (.stopped s') ∧
      s'.result = .ok (Halt.exit.union .externalHalt) := by
  obtain ⟨e₀, made⟩ := create_ok (.blank : PagedMemory Unit) (rfl : Config.validate
    { arenaSize := 256, windowSize := 256 } = .ok ()) referenceRunner ()
  have asked : ((e₀.requestHalt 1).requestHalt 8).haltRequest = 9 := by
    change (e₀.haltRequest ||| 1) ||| 8 = 9
    rw [haltRequest_create made]
    rfl
  have reached : e₀.Reaches (.idle ((e₀.requestHalt 1).requestHalt 8)) fun _ => .blank :=
    (Reaches.here _).act (.ask _)
  obtain ⟨executes, _, enters, _⟩ := halts_when_asked made referenceRunner_onBus reached
    (by rw [asked]; decide)
  obtain ⟨s, ran, halts⟩ := executes 0 20
  obtain ⟨s', halts', ran'⟩ := enters (by rw [asked]; decide) 0xFFFC
  have result : s.result = .ok (Halt.ofBits 9) := by
    rw [← asked]
    exact halts.result
  have result' : s'.result = .ok (Halt.ofBits 9) := by
    rw [← asked]
    exact halts'.result
  exact ⟨e₀, s, s', made, ran, result, ran' 0, result'⟩

/-- Asked for `countdown`, `enter` never comes back. -/
theorem enters_forever_on_countdown : ∃ e₀ : Engine (PagedMemory Unit) Unit,
    create .blank { arenaSize := 256, windowSize := 256 } referenceRunner () = .ok e₀ ∧
      (e₀.requestHalt Halt.countdown.bits).EntersForever 0xFFFC := by
  obtain ⟨e₀, made⟩ := create_ok (.blank : PagedMemory Unit) (rfl : Config.validate
    { arenaSize := 256, windowSize := 256 } = .ok ()) referenceRunner ()
  have only : Halt.ofBits (e₀.requestHalt Halt.countdown.bits).haltRequest = .countdown := by
    change Halt.ofBits (e₀.haltRequest ||| 4) = _
    rw [haltRequest_create made]
    rfl
  have orderly : Phase.Orderly (.idle (e₀.requestHalt Halt.countdown.bits)) fun _ => .blank :=
    orderly_act (orderly_create referenceRunner_onBus made _) (.ask _)
  exact ⟨e₀, made, entersForever_of_asked orderly only 0xFFFC⟩

end Mos6502.Engine
