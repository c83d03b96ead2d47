import Mos6502.Proofs.Engine.NoFault

/-! Everything that an engine can come to. Between two runs the host does as it likes; memory may
become anything and need not be reported. No run fails by itself from any of it. -/
namespace Mos6502

inductive Act (M ω : Type) where
  | aim (pc : Addr) (cycles : Int)
  | modifyCpu (f : Cpu → Cpu)
  | holdIrq (held : Bool)
  | setObserver (observer : Option (Observer ω))
  | ask (haltRequest : UInt32)
  | poke (a : Addr) (v : UInt8)
  | modifyMemory (f : M → M)
  | retire (a : Addr)
  | forgetRange (start : Addr) (len : Nat)
  | setTracksZeroPage (on : Bool)

def Act.apply {M ω : Type} [GuestMemory M] (e : Engine M ω) : Act M ω → Engine M ω
  | aim pc cycles => e.aim pc cycles
  | modifyCpu f => e.modifyCpu f
  | holdIrq held => e.holdIrq held
  | setObserver observer => e.setObserver observer
  | ask haltRequest => { e with haltRequest }
  | poke a v => e.poke a v
  | modifyMemory f => e.modifyMemory f
  | retire a => e.retire a
  | forgetRange start len => e.forgetRange start len
  | setTracksZeroPage on => e.setTracksZeroPage on

variable {σ ω : Type}

/-- All that an engine can come to, turn by turn. `source` is the memory that each start was last
compiled from. -/
inductive Engine.Reaches (e₀ : Engine (PagedMemory σ) ω) :
    Phase (PagedMemory σ) ω → (Addr → PagedMemory σ) → Prop
  | here (source : Addr → PagedMemory σ) : Reaches e₀ (.idle e₀) source
  | act {e : Engine (PagedMemory σ) ω} {source : Addr → PagedMemory σ}
    (before : Reaches e₀ (.idle e) source) (a : Act (PagedMemory σ) ω) :
    Reaches e₀ (.idle (a.apply e)) source
  | start {e : Engine (PagedMemory σ) ω} {f : Frame (PagedMemory σ) ω}
    {source : Addr → PagedMemory σ} (before : Reaches e₀ (.idle e) source) (ok : e.start = .ok f) :
    Reaches e₀ (.running f) (e.started source)
  | stay {f f' : Frame (PagedMemory σ) ω} {source : Addr → PagedMemory σ}
    (before : Reaches e₀ (.running f) source) (ok : f.turn = .ok (.stay f')) :
    Reaches e₀ (.running f') source
  | go {f : Frame (PagedMemory σ) ω} {e e' : Engine (PagedMemory σ) ω} {target : Addr}
    {pos : Position} {source : Addr → PagedMemory σ} (before : Reaches e₀ (.running f) source)
    (ok : f.turn = .ok (.go e target)) (located : e.locate target = .ok (pos, e')) :
    Reaches e₀ (.running ⟨e', pos, none⟩) (e.located source target)
  | stop {f : Frame (PagedMemory σ) ω} {s : Stopped (PagedMemory σ) ω}
    {source : Addr → PagedMemory σ} (before : Reaches e₀ (.running f) source)
    (ok : f.turn = .ok (.stop s)) : Reaches e₀ (.idle s.engine) source
  | signal {f : Frame (PagedMemory σ) ω} {source : Addr → PagedMemory σ}
    (before : Reaches e₀ (.running f) source) (haltRequest : UInt32) :
    Reaches e₀ (.running { f with engine := { f.engine with haltRequest } }) source

variable {e : Engine (PagedMemory σ) ω} {source : Addr → PagedMemory σ}

theorem Act.runner_apply (a : Act (PagedMemory σ) ω) (e : Engine (PagedMemory σ) ω) :
    (a.apply e).runner = e.runner := by
  obtain ⟨⟨cpu, bus⟩, translator, runner, observer, host, paused, haltRequest⟩ := e
  cases a with
  | setTracksZeroPage on =>
    unfold Act.apply
    dsimp only
    unfold Engine.setTracksZeroPage
    split
    · rfl
    · split <;> rfl
  | _ => rfl

theorem Act.consistent {source : Addr → PagedMemory σ} (h : e.Consistent source)
    (a : Act (PagedMemory σ) ω) : (a.apply e).Consistent source := by
  cases a with
  | aim pc cycles => exact h.mapCpu fun c => { c with pc, budget := cycles }
  | modifyCpu f => exact (h.mapCpu f).of_same rfl rfl (.inr rfl)
  | holdIrq held => exact h.mapCpu fun c => { c with irq := held }
  | setObserver observer => exact h.of_same rfl rfl (.inl rfl)
  | ask haltRequest => exact h.of_same rfl rfl (.inl rfl)
  | poke a v => exact h.poke a v
  | modifyMemory f => exact h.modifyMemory f
  | retire a => exact h.retire a
  | forgetRange start len => exact h.forgetRange start len
  | setTracksZeroPage on => exact h.setTracksZeroPage on

namespace Engine

theorem runner_create {memory : PagedMemory σ} {config : Config}
    {runner : InstructionRunner (PagedMemory σ) ω} {host : ω}
    (ok : create memory config runner host = .ok e) : e.runner = runner := by
  unfold create at ok
  split at ok
  · cases ok
  · cases ok
    rfl

theorem orderly_create {memory : PagedMemory σ} {config : Config}
    {runner : InstructionRunner (PagedMemory σ) ω} {host : ω} (onBus : runner.OnBus)
    (ok : create memory config runner host = .ok e) (source : Addr → PagedMemory σ) :
    Phase.Orderly (.idle e) source := by
  refine ⟨?_, consistent_create ok source, trivial⟩
  change e.runner.OnBus
  rw [runner_create ok]
  exact onBus

theorem orderly_act (h : Phase.Orderly (.idle e) source) (a : Act (PagedMemory σ) ω) :
    Phase.Orderly (.idle (a.apply e)) source := by
  obtain ⟨onBus, consistent, _⟩ := h
  refine ⟨?_, a.consistent consistent, trivial⟩
  change (a.apply e).runner.OnBus
  rw [a.runner_apply]
  exact onBus

theorem Reaches.runner {e₀ : Engine (PagedMemory σ) ω} {phase : Phase (PagedMemory σ) ω}
    (h : e₀.Reaches phase source) : phase.engine.runner = e₀.runner := by
  induction h with
  | here => rfl
  | @act e _ _ a ih => exact (a.runner_apply e).trans ih
  | start _ ok ih => exact (sameHost_start ok).runner.trans ih
  | stay _ ok ih => exact (Frame.sameSetup_turn ok).runner.trans ih
  | go _ ok located ih =>
    exact (sameHost_locate located).runner.trans ((Frame.sameSetup_turn ok).runner.trans ih)
  | stop _ ok ih => exact (Frame.sameSetup_turn ok).runner.trans ih
  | signal _ _ ih => exact ih

theorem Reaches.orderly {e₀ : Engine (PagedMemory σ) ω} {phase : Phase (PagedMemory σ) ω}
    (h : e₀.Reaches phase source) (initially : ∀ source, Phase.Orderly (.idle e₀) source) :
    phase.Orderly source := by
  induction h with
  | here source => exact initially source
  | act _ a ih => exact orderly_act ih a
  | start _ ok ih => exact orderly_start ih ok
  | stay _ ok ih => exact Frame.orderly_turn ih ok
  | go _ ok located ih =>
    obtain ⟨orderly, unpaused⟩ := Frame.orderly_turn ih ok
    exact Frame.orderly_locate orderly unpaused located
  | stop _ ok ih => exact Frame.orderly_turn ih ok
  | signal _ haltRequest ih =>
    obtain ⟨onBus, consistent, g, stands⟩ := ih
    exact ⟨onBus, consistent.of_same rfl rfl (.inl rfl), g, stands.signal haltRequest⟩

/-- Reported edits of memory are edits. -/
theorem History.reaches {runner : InstructionRunner (PagedMemory σ) ω}
    {phase : Phase (PagedMemory σ) ω} {dirty : Addr → Prop} (h : History runner phase source dirty)
    (onBus : runner.OnBus) :
    ∃ e₀, (∀ source, Phase.Orderly (.idle e₀) source) ∧ e₀.Reaches phase source := by
  induction h with
  | create ok source => exact ⟨_, orderly_create onBus ok, .here source⟩
  | start _ _ ok ih => exact ih.imp fun _ h => ⟨h.1, h.2.start ok⟩
  | stay _ ok ih => exact ih.imp fun _ h => ⟨h.1, h.2.stay ok⟩
  | go _ ok located ih => exact ih.imp fun _ h => ⟨h.1, h.2.go ok located⟩
  | stop _ ok ih => exact ih.imp fun _ h => ⟨h.1, h.2.stop ok⟩
  | signal _ haltRequest ih => exact ih.imp fun _ h => ⟨h.1, h.2.signal haltRequest⟩
  | request _ haltRequest ih => exact ih.imp fun _ h => ⟨h.1, h.2.act (.ask haltRequest)⟩
  | aim _ pc cycles ih => exact ih.imp fun _ h => ⟨h.1, h.2.act (.aim pc cycles)⟩
  | modifyCpu _ f ih => exact ih.imp fun _ h => ⟨h.1, h.2.act (.modifyCpu f)⟩
  | holdIrq _ held ih => exact ih.imp fun _ h => ⟨h.1, h.2.act (.holdIrq held)⟩
  | setObserver _ observer ih => exact ih.imp fun _ h => ⟨h.1, h.2.act (.setObserver observer)⟩
  | poke _ a v ih => exact ih.imp fun _ h => ⟨h.1, h.2.act (.poke a v)⟩
  | modifyMemory _ f _ ih => exact ih.imp fun _ h => ⟨h.1, h.2.act (.modifyMemory f)⟩
  | retire _ a ih => exact ih.imp fun _ h => ⟨h.1, h.2.act (.retire a)⟩
  | forgetRange _ start len ih => exact ih.imp fun _ h => ⟨h.1, h.2.act (.forgetRange start len)⟩
  | setTracksZeroPage _ on ih => exact ih.imp fun _ h => ⟨h.1, h.2.act (.setTracksZeroPage on)⟩

theorem History.orderly {runner : InstructionRunner (PagedMemory σ) ω}
    {phase : Phase (PagedMemory σ) ω} {dirty : Addr → Prop} (h : History runner phase source dirty)
    (onBus : runner.OnBus) : phase.Orderly source := by
  obtain ⟨e₀, initially, reached⟩ := h.reaches onBus
  exact reached.orderly initially

/-! Whole runs are chains of turns. -/

theorem Reaches.step {e₀ : Engine (PagedMemory σ) ω} {f f' : Frame (PagedMemory σ) ω}
    (h : e₀.Reaches (.running f) source) (ok : f.step = .ok (.running f')) :
    ∃ source', e₀.Reaches (.running f') source' := by
  rcases Frame.turn_of_running ok with turn | ⟨_, _, _, _, turn, located, rfl⟩
  · exact ⟨source, h.stay turn⟩
  · exact ⟨_, h.go turn located⟩

theorem Reaches.last {e₀ : Engine (PagedMemory σ) ω} {f : Frame (PagedMemory σ) ω}
    {s : Stopped (PagedMemory σ) ω} (h : e₀.Reaches (.running f) source) {fuel : Nat}
    (ok : f.run fuel = .ok (.stopped s)) :
    ∃ f' source', e₀.Reaches (.running f') source' ∧ f'.turn = .ok (.stop s) := by
  obtain ⟨f', ⟨source', there⟩, turn⟩ := Frame.run_last
    (P := fun f => ∃ source, e₀.Reaches (.running f) source)
    (fun ⟨_, before⟩ step => before.step step) ⟨source, h⟩ ok
  exact ⟨f', source', there, turn⟩

theorem Reaches.runFrame {e₀ : Engine (PagedMemory σ) ω} {f : Frame (PagedMemory σ) ω}
    {s : Stopped (PagedMemory σ) ω} (h : e₀.Reaches (.running f) source) {fuel : Nat}
    (ok : f.run fuel = .ok (.stopped s)) : ∃ source', e₀.Reaches (.idle s.engine) source' := by
  obtain ⟨f', source', there, turn⟩ := h.last ok
  exact ⟨source', there.stop turn⟩

theorem Reaches.run {e₀ : Engine (PagedMemory σ) ω} {s : Stopped (PagedMemory σ) ω}
    (h : e₀.Reaches (.idle e) source) {fuel : Nat} (ok : e.run fuel = .ok (.stopped s)) :
    ∃ source', e₀.Reaches (.idle s.engine) source' := by
  obtain ⟨f, start, rest⟩ := bind_eq_ok.mp ok
  exact (h.start start).runFrame rest

theorem runSlices_goes (h : Phase.Orderly (.idle e) source) (n : Nat) : Goes (e.runSlices n) := by
  induction n generalizing e source with
  | zero => exact ⟨_, rfl, Stopped.clean_of_ok _ _, source, h⟩
  | succ n ih =>
    have slice : Phase.Orderly (.idle (e.aim e.cpu.pc sliceCycles)) source :=
      orderly_act h (.aim e.cpu.pc sliceCycles)
    obtain ⟨p, run, clean, source', after⟩ := run_goes slice (fuelFor _)
    unfold runSlices continueRun
    rw [slice_eq_aim, run]
    cases p with
    | running f => exact ⟨_, rfl, clean, source', after⟩
    | stopped s =>
      obtain ⟨e', result⟩ := s
      cases result with
      | error problem => exact ⟨_, rfl, clean, source', after⟩
      | ok reason =>
        change Goes (if reason = .countdown then e'.runSlices n else _)
        split
        · exact ih after
        · exact ⟨_, rfl, clean, source', after⟩

end Engine

/-- The run neither faults nor fails by itself. -/
def Unfailing {M : Type} (out : Except Fault (Progress M ω)) : Prop :=
  ∃ p, out = .ok p ∧ p.Clean

theorem Goes.unfailing {out : Except Fault (Progress (PagedMemory σ) ω)} (h : Goes out) :
    Unfailing out := by
  obtain ⟨p, ok, clean, _⟩ := h
  exact ⟨p, ok, clean⟩

def Phase.Unfailing {M : Type} [GuestMemory M] : Phase M ω → Prop
  | .idle e => (∀ fuel, Mos6502.Unfailing (e.run fuel)) ∧
      (∀ pc cycles, Mos6502.Unfailing (e.execute pc cycles)) ∧
      ∀ vector slices, Mos6502.Unfailing (e.enter vector slices)
  | .running f => ∀ fuel, Mos6502.Unfailing (f.run fuel)

theorem Phase.Orderly.unfailing {phase : Phase (PagedMemory σ) ω} (h : phase.Orderly source) :
    phase.Unfailing := by
  cases phase with
  | idle e =>
    refine ⟨fun fuel => (Engine.run_goes h fuel).unfailing, ?_, ?_⟩
    · intro pc cycles
      exact (Engine.run_goes (Engine.orderly_act h (.aim pc cycles)) _).unfailing
    · intro vector slices
      have on := Engine.orderly_act h
        (.modifyCpu fun _ => { Cpu.powerOn with pc := GuestMemory.readWord e.memory vector })
      exact (Engine.runSlices_goes on slices).unfailing
  | running f => exact fun fuel => (Frame.run_goes h fuel).unfailing

/-- With a valid configuration an engine is made, and nothing it can come to fails by itself. -/
theorem Engine.never_fails {config : Config} (valid : config.validate = .ok ())
    {runner : InstructionRunner (PagedMemory σ) ω} (onBus : runner.OnBus)
    (memory : PagedMemory σ) (host : ω) :
    ∃ e₀, create memory config runner host = .ok e₀ ∧
      ∀ phase source, e₀.Reaches phase source → phase.Unfailing := by
  obtain ⟨e₀, made⟩ : ∃ e₀, create memory config runner host = .ok e₀ := by
    unfold create
    rw [valid]
    exact ⟨_, rfl⟩
  refine ⟨e₀, made, fun phase source reached => ?_⟩
  exact (reached.orderly (orderly_create onBus made)).unfailing

def Engine.pausesAtOnce (e : Engine (PagedMemory Unit) Unit) : Bool :=
  match (e.aim 0 5).run 1 with
  | .ok (.stopped ⟨_, .ok reason⟩) => reason == .countdown
  | _ => false

theorem Engine.exists_paused {e : Engine (PagedMemory Unit) Unit} (h : e.pausesAtOnce = true) :
    ∃ s, (e.aim 0 5).run 1 = .ok (.stopped s) ∧ s.result = .ok .countdown := by
  unfold pausesAtOnce at h
  split at h
  · next e' reason run =>
    cases show reason = .countdown by simpa using h
    exact ⟨_, run, rfl⟩
  · cases h

/-- Memory has become a device behind the back of a run that has paused in it. -/
theorem Engine.never_fails_unreported : ∃ (e₀ : Engine (PagedMemory Unit) Unit)
    (s : Stopped (PagedMemory Unit) Unit),
    create .blank { arenaSize := 256, windowSize := 256 } referenceRunner () = .ok e₀ ∧
      (e₀.aim 0 5).run 1 = .ok (.stopped s) ∧ s.result = .ok .countdown ∧
      ∀ fuel, Mos6502.Unfailing
        ((s.engine.modifyMemory fun m => m.markPages 0 0xFFFF .device).run fuel) := by
  have valid : Config.validate { arenaSize := 256, windowSize := 256 } = .ok () := rfl
  obtain ⟨e₀, made, unfailing⟩ :=
    never_fails valid referenceRunner_onBus (.blank : PagedMemory Unit) ()
  have facts : ((create (.blank : PagedMemory Unit) { arenaSize := 256, windowSize := 256 }
      referenceRunner ()).toOption.map pausesAtOnce) = some true := by
    decide +kernel
  rw [made] at facts
  obtain ⟨s, run, result⟩ := exists_paused (Option.some.inj facts)
  obtain ⟨source, paused⟩ := ((Reaches.here fun _ => .blank).act (.aim 0 5)).run run
  refine ⟨e₀, s, made, run, result, ?_⟩
  exact (unfailing _ source (paused.act (.modifyMemory fun m => m.markPages 0 0xFFFF .device))).1

end Mos6502
