import Mos6502.Proofs.Block.History
import Mos6502.Proofs.Engine.Start

/-! Stale code never runs. Whatever runs and host operations come before, between any two host
instructions every live block agrees with memory, and the block that a frame starts an
instruction of is live. -/
namespace Mos6502

open Record

variable {σ ω : Type}

inductive Phase (M ω : Type) where
  | idle (e : Engine M ω)
  | running (f : Frame M ω)

def Phase.engine {M : Type} : Phase M ω → Engine M ω
  | .idle e => e
  | .running f => f.engine

namespace Engine

/-- What an engine with the runner can come to, step by step. `source` is the memory that each
start was last compiled from; `dirty` are the bytes that the host has edited directly and not
reported yet, and no run starts before it has. The page map never changes. -/
inductive History (runner : InstructionRunner (PagedMemory σ) ω) :
    Phase (PagedMemory σ) ω → (Addr → PagedMemory σ) → (Addr → Prop) → Prop
  | create {memory : PagedMemory σ} {config : Config} {host : ω} {e : Engine (PagedMemory σ) ω}
    (ok : create memory config runner host = .ok e) (source : Addr → PagedMemory σ) :
    History runner (.idle e) source fun _ => False
  | start {e : Engine (PagedMemory σ) ω} {f : Frame (PagedMemory σ) ω}
    {source : Addr → PagedMemory σ} {dirty : Addr → Prop}
    (before : History runner (.idle e) source dirty) (clean : ∀ a, ¬ dirty a)
    (ok : e.start = .ok f) : History runner (.running f) (e.started source) fun _ => False
  | stay {f f' : Frame (PagedMemory σ) ω} {source : Addr → PagedMemory σ} {dirty : Addr → Prop}
    (before : History runner (.running f) source dirty) (ok : f.turn = .ok (.stay f')) :
    History runner (.running f') source dirty
  | go {f : Frame (PagedMemory σ) ω} {e e' : Engine (PagedMemory σ) ω} {target : Addr}
    {pos : Position} {source : Addr → PagedMemory σ} {dirty : Addr → Prop}
    (before : History runner (.running f) source dirty) (ok : f.turn = .ok (.go e target))
    (located : e.locate target = .ok (pos, e')) :
    History runner (.running ⟨e', pos, none⟩) (e.located source target) dirty
  | stop {f : Frame (PagedMemory σ) ω} {s : Stopped (PagedMemory σ) ω}
    {source : Addr → PagedMemory σ} {dirty : Addr → Prop}
    (before : History runner (.running f) source dirty) (ok : f.turn = .ok (.stop s)) :
    History runner (.idle s.engine) source dirty
  | signal {f : Frame (PagedMemory σ) ω} {source : Addr → PagedMemory σ} {dirty : Addr → Prop}
    (before : History runner (.running f) source dirty) (haltRequest : UInt32) :
    History runner (.running { f with engine := { f.engine with haltRequest } }) source dirty
  | request {e : Engine (PagedMemory σ) ω} {source : Addr → PagedMemory σ} {dirty : Addr → Prop}
    (before : History runner (.idle e) source dirty) (haltRequest : UInt32) :
    History runner (.idle { e with haltRequest }) source dirty
  | aim {e : Engine (PagedMemory σ) ω} {source : Addr → PagedMemory σ} {dirty : Addr → Prop}
    (before : History runner (.idle e) source dirty) (pc : Addr) (cycles : Int) :
    History runner (.idle (e.aim pc cycles)) source dirty
  | modifyCpu {e : Engine (PagedMemory σ) ω} {source : Addr → PagedMemory σ} {dirty : Addr → Prop}
    (before : History runner (.idle e) source dirty) (f : Cpu → Cpu) :
    History runner (.idle (e.modifyCpu f)) source dirty
  | holdIrq {e : Engine (PagedMemory σ) ω} {source : Addr → PagedMemory σ} {dirty : Addr → Prop}
    (before : History runner (.idle e) source dirty) (held : Bool) :
    History runner (.idle (e.holdIrq held)) source dirty
  | setObserver {e : Engine (PagedMemory σ) ω} {source : Addr → PagedMemory σ}
    {dirty : Addr → Prop} (before : History runner (.idle e) source dirty)
    (observer : Option (Observer ω)) : History runner (.idle (e.setObserver observer)) source dirty
  | poke {e : Engine (PagedMemory σ) ω} {source : Addr → PagedMemory σ} {dirty : Addr → Prop}
    (before : History runner (.idle e) source dirty) (a : Addr) (v : UInt8) :
    History runner (.idle (e.poke a v)) source dirty
  | modifyMemory {e : Engine (PagedMemory σ) ω} {source : Addr → PagedMemory σ}
    {dirty : Addr → Prop} (before : History runner (.idle e) source dirty)
    (f : PagedMemory σ → PagedMemory σ) (pages : (f e.memory).pages = e.memory.pages) :
    History runner (.idle (e.modifyMemory f)) source fun x =>
      dirty x ∨ (f e.memory).ram.get x ≠ e.memory.ram.get x
  | retire {e : Engine (PagedMemory σ) ω} {source : Addr → PagedMemory σ} {dirty : Addr → Prop}
    (before : History runner (.idle e) source dirty) (a : Addr) :
    History runner (.idle (e.retire a)) source fun x => dirty x ∧ x ≠ a
  | forgetRange {e : Engine (PagedMemory σ) ω} {source : Addr → PagedMemory σ}
    {dirty : Addr → Prop} (before : History runner (.idle e) source dirty) (start : Addr)
    (len : Nat) :
    History runner (.idle (e.forgetRange start len)) source fun x =>
      dirty x ∧ ¬ distance start x < min len 65536
  | setTracksZeroPage {e : Engine (PagedMemory σ) ω} {source : Addr → PagedMemory σ}
    {dirty : Addr → Prop} (before : History runner (.idle e) source dirty) (on : Bool) :
    History runner (.idle (e.setTracksZeroPage on)) source dirty

variable {runner : InstructionRunner (PagedMemory σ) ω} {phase : Phase (PagedMemory σ) ω}
  {source : Addr → PagedMemory σ} {dirty : Addr → Prop}

theorem History.runner_eq (h : History runner phase source dirty) :
    phase.engine.runner = runner := by
  induction h with
  | create ok _ =>
    unfold Engine.create at ok
    split at ok
    · cases ok
    · cases ok
      rfl
  | start _ _ ok ih => exact (sameHost_start ok).runner.trans ih
  | go _ ok located ih =>
    exact (sameHost_locate located).runner.trans ((Frame.sameSetup_turn ok).runner.trans ih)
  | stay _ ok ih | stop _ ok ih => exact (Frame.sameSetup_turn ok).runner.trans ih
  | setTracksZeroPage _ on ih =>
    refine Eq.trans ?_ ih
    dsimp only [Phase.engine]
    unfold Engine.setTracksZeroPage
    split
    · rfl
    · split <;> rfl
  | signal _ _ ih | request _ _ ih | aim _ _ _ ih | modifyCpu _ _ ih | holdIrq _ _ ih
  | setObserver _ _ ih | poke _ _ _ ih | modifyMemory _ _ _ ih | retire _ _ ih
  | forgetRange _ _ _ ih => exact ih

/-- Between runs the engine is coherent, and in a run every frame stands at its place. -/
theorem History.stands (h : History runner phase source dirty) (onBus : runner.OnBus) :
    match phase with
    | .idle e => e.Coherent source dirty
    | .running f => (∀ a, ¬ dirty a) ∧ ∃ g, f.At source g := by
  induction h with
  | create ok source => exact coherent_create ok source
  | start before clean ok ih =>
    have clean : Coherent _ _ fun _ => False := ih.weaken clean
    obtain ⟨_, g, begun, _⟩ := clean.toConsistent.start ok
    exact ⟨fun _ => id, g, begun.isAt (clean.start ok)⟩
  | stay before ok ih =>
    obtain ⟨clean, g, there⟩ := ih
    rcases there.turn_spec (before.runner_eq ▸ onBus) ok with ⟨f', is, _, next⟩ | settles
    · cases is
      exact ⟨clean, _, next⟩
    · exact settles.elim
  | go before ok located ih =>
    obtain ⟨clean, g, there⟩ := ih
    rcases there.turn_spec (before.runner_eq ▸ onBus) ok with ⟨f', is, _⟩ | ⟨coherent, unpaused⟩
    · cases is
    · obtain ⟨g', begun, _⟩ := coherent.toConsistent.enter unpaused located
      exact ⟨clean, g', begun.isAt (coherent.locate unpaused located).1⟩
  | stop before ok ih =>
    obtain ⟨clean, g, there⟩ := ih
    rcases there.turn_spec (before.runner_eq ▸ onBus) ok with ⟨f', is, _⟩ | settles
    · cases is
    · have settles : Coherent _ _ fun _ => False := settles
      exact settles.weaken fun _ => False.elim
  | signal before haltRequest ih =>
    obtain ⟨clean, g, there⟩ := ih
    exact ⟨clean, g, there.signal haltRequest⟩
  | request _ _ ih => exact ih.of_same rfl rfl (.inl rfl)
  | aim _ pc cycles ih => exact ih.mapCpu _
  | modifyCpu _ f ih => exact (ih.mapCpu f).of_same rfl rfl (.inr rfl)
  | holdIrq _ held ih => exact ih.mapCpu _
  | setObserver _ _ ih => exact ih.of_same rfl rfl (.inl rfl)
  | poke _ a v ih => exact ih.poke a v
  | modifyMemory _ f pages ih => exact ih.modifyMemory f pages
  | retire _ a ih => exact ih.retire a
  | forgetRange _ start len ih => exact ih.forgetRange start len
  | setTracksZeroPage _ on ih => exact ih.setTracksZeroPage on

/-! Whole runs are histories. -/

theorem History.step {f f' : Frame (PagedMemory σ) ω}
    (h : History runner (.running f) source fun _ => False) (ok : f.step = .ok (.running f')) :
    ∃ source', History runner (.running f') source' fun _ => False := by
  rcases Frame.turn_of_running ok with turn | ⟨_, _, _, _, turn, located, rfl⟩
  · exact ⟨source, h.stay turn⟩
  · exact ⟨_, h.go turn located⟩

theorem History.last {f : Frame (PagedMemory σ) ω} {s : Stopped (PagedMemory σ) ω}
    (h : History runner (.running f) source fun _ => False) {fuel : Nat}
    (ok : f.run fuel = .ok (.stopped s)) :
    ∃ f' source', (History runner (.running f') source' fun _ => False) ∧
      f'.turn = .ok (.stop s) := by
  obtain ⟨f', ⟨source', there⟩, turn⟩ := Frame.run_last
    (P := fun f => ∃ source, History runner (.running f) source fun _ => False)
    (fun ⟨_, before⟩ step => before.step step) ⟨source, h⟩ ok
  exact ⟨f', source', there, turn⟩

theorem History.runFrame {f : Frame (PagedMemory σ) ω} {s : Stopped (PagedMemory σ) ω}
    (h : History runner (.running f) source fun _ => False) {fuel : Nat}
    (ok : f.run fuel = .ok (.stopped s)) :
    ∃ source', History runner (.idle s.engine) source' fun _ => False := by
  obtain ⟨f', source', there, turn⟩ := h.last ok
  exact ⟨source', there.stop turn⟩

theorem History.stepsOn {f f' : Frame (PagedMemory σ) ω}
    (h : History runner (.running f) source fun _ => False) {fuel : Nat}
    (ok : f.run fuel = .ok (.running f')) :
    ∃ source', History runner (.running f') source' fun _ => False := by
  induction fuel generalizing f source with
  | zero =>
    cases ok
    exact ⟨source, h⟩
  | succ fuel ih =>
    unfold Frame.run at ok
    cases step : f.step with
    | error fault => rw [step] at ok; cases ok
    | ok p =>
      rw [step] at ok
      cases p with
      | stopped s => cases ok
      | running f₁ =>
        obtain ⟨source₁, there⟩ := h.step step
        exact ih there ok

theorem History.run {e : Engine (PagedMemory σ) ω} {s : Stopped (PagedMemory σ) ω}
    (h : History runner (.idle e) source fun _ => False) {fuel : Nat}
    (ok : e.run fuel = .ok (.stopped s)) :
    ∃ source', History runner (.idle s.engine) source' fun _ => False := by
  obtain ⟨f, start, rest⟩ := bind_eq_ok.mp ok
  exact (h.start (fun _ => id) start).runFrame rest

theorem History.execute {e : Engine (PagedMemory σ) ω} {s : Stopped (PagedMemory σ) ω}
    (h : History runner (.idle e) source fun _ => False) {pc : Addr} {cycles : Int}
    (ok : e.execute pc cycles = .ok (.stopped s)) :
    ∃ source', History runner (.idle s.engine) source' fun _ => False :=
  (h.aim pc cycles).run ok

theorem slice_eq_aim {M : Type} (e : Engine M ω) :
    e.mapCpu (fun c => { c with budget := sliceCycles }) = e.aim e.cpu.pc sliceCycles := by
  obtain ⟨⟨cpu, bus⟩, translator, runner, observer, host, paused, haltRequest⟩ := e
  rfl

theorem History.runSlices {e : Engine (PagedMemory σ) ω} {s : Stopped (PagedMemory σ) ω}
    (h : History runner (.idle e) source fun _ => False) {n : Nat}
    (ok : e.runSlices n = .ok (.stopped s)) :
    ∃ source', History runner (.idle s.engine) source' fun _ => False := by
  induction n generalizing e source with
  | zero => cases ok; exact ⟨source, h⟩
  | succ n ih =>
    unfold Engine.runSlices at ok
    rw [slice_eq_aim] at ok
    obtain ⟨out, run, ok⟩ := bind_eq_ok.mp ok
    cases out with
    | running f => cases ok
    | stopped s' =>
      obtain ⟨e', result⟩ := s'
      obtain ⟨source', after⟩ := (h.aim e.cpu.pc sliceCycles).run run
      cases result with
      | error problem => cases ok; exact ⟨source', after⟩
      | ok reason =>
        dsimp only at ok
        split at ok
        · exact ih after ok
        · cases ok; exact ⟨source', after⟩

theorem History.enter {e : Engine (PagedMemory σ) ω} {s : Stopped (PagedMemory σ) ω}
    (h : History runner (.idle e) source fun _ => False) {vector : Addr} {slices : Nat}
    (ok : e.enter vector slices = .ok (.stopped s)) :
    ∃ source', History runner (.idle s.engine) source' fun _ => False :=
  (h.modifyCpu _).runSlices ok

/-- All bytes of a live block, where stores are tracked, are as they were compiled, but for dirty
ones. -/
def Agrees (e : Engine (PagedMemory σ) ω) (source : Addr → PagedMemory σ) (dirty : Addr → Prop) :
    Prop :=
  ∀ s, (e.blocks.entryAt? s).isSome → ∃ rs, e.translator.Describes e.blocks (source s) s rs ∧
    ∀ x, (∃ r ∈ rs, r.Covers x) → Tracked e.tracksZeroPage x → ¬ dirty x →
      GuestMemory.read e.memory x = GuestMemory.read (source s) x

theorem Coherent.agrees {e : Engine (PagedMemory σ) ω} (h : e.Coherent source dirty) :
    e.Agrees source dirty := by
  intro s live
  obtain ⟨entry, live⟩ := Option.isSome_iff_exists.mp live
  obtain ⟨i, memory, offset, _, keeps⟩ := h.sound.live s entry live
  rw [← offset] at live
  refine ⟨i.records, memory ▸ keeps.describes live, ?_⟩
  intro x covered tracked clean
  exact h.fresh s x tracked ((keeps.liveAt_iff live x).mpr covered) clean

end Engine

namespace Frame

structure Starts (f : Frame (PagedMemory σ) ω) (a : Addr) : Prop where
  stays : f.wayOut? = none
  ptr : f.engine.blocks.ptr? a = some ⟨f.pos.block, f.pos.ip⟩
  noted : (f.engine.translator.note a).opcode.isSome = true

instance (f : Frame (PagedMemory σ) ω) (a : Addr) : Decidable (f.Starts a) :=
  decidable_of_iff (f.wayOut? = none ∧ f.engine.blocks.ptr? a = some ⟨f.pos.block, f.pos.ip⟩ ∧
      (f.engine.translator.note a).opcode.isSome = true)
    ⟨fun ⟨stays, ptr, noted⟩ => ⟨stays, ptr, noted⟩, fun h => ⟨h.stays, h.ptr, h.noted⟩⟩

/-- The frame is in the host code of an instruction. It starts one only of a live block, and
leaves only where one begins. -/
structure OnLiveCode (f : Frame (PagedMemory σ) ω) : Prop where
  inside : ∃ a offset, f.engine.blocks.ptr? a = some ⟨f.pos.block, offset⟩ ∧
    (f.engine.translator.note a).opcode.isSome = true ∧ offset ≤ f.pos.ip
  live : ∀ a, f.Starts a → f.engine.blocks.entryAt? f.pos.block = some f.pos.entry
  leaves : ∀ p, f.wayOut? = some p →
    f.engine.blocks.ptr? p.pc = some ⟨f.pos.block, f.pos.ip⟩ ∧
      (f.engine.translator.note p.pc).opcode.isSome = true

variable {f : Frame (PagedMemory σ) ω} {source : Addr → PagedMemory σ}
  {g : Spot (PagedMemory σ)}

theorem Stands.starts (h : f.Stands g) {a : Addr} (starts : f.Starts a) :
    a = g.record.addr ∧ g.done = [] := by
  have ptr := starts.ptr
  rw [h.ip] at ptr
  exact h.inside.begins_of_ptr h.keeps ptr starts.noted

theorem At.onLiveCode (h : f.At source g) : f.OnLiveCode where
  inside := by
    refine ⟨_, _, h.ptr, ?_, ?_⟩
    · rw [h.opcode]
      rfl
    · rw [h.ip]
      exact Nat.le_add_right _ _
  live a starts := by
    obtain ⟨_, begins⟩ := h.starts starts
    rcases h.wayOut_none starts.stays with ⟨live, _⟩ | ⟨_, begun, _⟩
    · exact (f.engine.isIntact_iff f.pos).mp live
    · exact absurd begins begun
  leaves p out := by
    obtain ⟨_, begins, rfl⟩ := h.wayOut_some out
    have ip : g.ip = g.entry := by simp [Spot.ip, begins]
    rw [h.ip, ip, h.opcode]
    exact ⟨h.ptr, rfl⟩

end Frame

namespace Engine

variable {runner : InstructionRunner (PagedMemory σ) ω} {phase : Phase (PagedMemory σ) ω}
  {source : Addr → PagedMemory σ} {dirty : Addr → Prop}

/-- Stale code never runs. -/
theorem History.never_stale (h : History runner phase source dirty) (onBus : runner.OnBus) :
    phase.engine.Agrees source dirty ∧
      ∀ f, phase = .running f → (∀ a, ¬ dirty a) ∧ f.OnLiveCode := by
  have stands := h.stands onBus
  cases phase with
  | idle e =>
    refine ⟨Coherent.agrees stands, ?_⟩
    intro f is
    cases is
  | running f =>
    obtain ⟨clean, g, there⟩ := stands
    refine ⟨(there.coherent.weaken fun _ => False.elim).agrees, ?_⟩
    intro f is
    cases is
    exact ⟨clean, there.onLiveCode⟩

/-- The program stores a no-operation over the break behind the store, in its own block, and the
exit behind that. -/
def overwriting : PagedMemory Unit :=
  .load .blank 0 [0xA9, 0xEA, 0x85, 0x04, 0x00, 0x02]

def tight : Config :=
  { zeroPageCode := true, windowSize := 256, arenaSize := 256 }

/-- The program runs to its exit. The host puts the break back and starts it again; `behind` is the
frame behind the store, and `next` the one after that. -/
structure RunsAgain (e : Engine (PagedMemory Unit) Unit) (s : Stopped (PagedMemory Unit) Unit)
    (first behind next : Frame (PagedMemory Unit) Unit) : Prop where
  run : (e.aim 0 100).run 20 = .ok (.stopped s)
  again : ((s.engine.poke 4 0).aim 0 100).start = .ok first
  store : first.run 5 = .ok (.running behind)
  leaves : behind.step = .ok (.running next)
  begins : first.Starts 0 ∧ first.engine.peek 4 = 0
  finished : behind.engine.peek 4 = 0xEA
  dead : behind.pos.block = 0 ∧ behind.engine.blocks.entryAt? 0 = none
  out : behind.wayOut?.map (·.pc) = some 4
  goesOn : next.Starts 4
  live : next.engine.blocks.entryAt? 4 = some 0
  ptrs : next.engine.blocks.ptr? 4 = some ⟨4, 0⟩ ∧ next.engine.blocks.ptr? 5 = some ⟨4, 6⟩

def runsAgain (e : Engine (PagedMemory Unit) Unit) : Bool :=
  match (e.aim 0 100).run 20 with
  | .ok (.stopped s) =>
    match ((s.engine.poke 4 0).aim 0 100).start with
    | .ok first =>
      match first.run 5 with
      | .ok (.running behind) =>
        match behind.step with
        | .ok (.running next) =>
          decide (first.Starts 0) && first.engine.peek 4 == 0 && behind.engine.peek 4 == 0xEA &&
            behind.pos.block == 0 && behind.engine.blocks.entryAt? 0 == none &&
            behind.wayOut?.map (·.pc) == some 4 && decide (next.Starts 4) &&
            next.engine.blocks.entryAt? 4 == some 0 && next.engine.blocks.ptr? 4 == some ⟨4, 0⟩ &&
            next.engine.blocks.ptr? 5 == some ⟨4, 6⟩
        | _ => false
      | _ => false
    | _ => false
  | _ => false

theorem exists_runsAgain {e : Engine (PagedMemory Unit) Unit} (h : e.runsAgain = true) :
    ∃ s first behind next, RunsAgain e s first behind next := by
  unfold runsAgain at h
  split at h
  · next s run =>
    split at h
    · next first again =>
      split at h
      · next behind store =>
        split at h
        · next next leaves =>
          simp only [Bool.and_eq_true, beq_iff_eq, decide_eq_true_eq] at h
          obtain ⟨⟨⟨⟨⟨⟨⟨⟨⟨begins, old⟩, finished⟩, block⟩, dead⟩, out⟩, goesOn⟩, live⟩, ptr⟩, exit⟩ := h
          exact ⟨s, first, behind, next, run, again, store, leaves, ⟨begins, old⟩, finished,
            ⟨block, dead⟩, out, goesOn, live, ptr, exit⟩
        · cases h
      · cases h
    · cases h
  · cases h

/-- Behind the store the block is dead and the frame on its way out. The next frame starts the block
of the new byte, and all of that block agrees with memory. -/
theorem never_stale_overwriting :
    ∃ e s first behind next, create overwriting tight referenceRunner () = .ok e ∧
      RunsAgain e s first behind next ∧ first.OnLiveCode ∧ behind.OnLiveCode ∧ next.OnLiveCode ∧
      ∃ source, next.engine.Agrees source (fun _ => False) ∧ next.engine.blocks.LiveAt 4 4 ∧
        next.engine.blocks.LiveAt 4 5 := by
  have facts : (create overwriting tight referenceRunner ()).toOption.map runsAgain = some true := by
    decide +kernel
  obtain ⟨e, created, facts⟩ := exists_ok_of_map facts
  obtain ⟨s, first, behind, next, runs⟩ := exists_runsAgain facts
  obtain ⟨source₁, ended⟩ := ((History.create created fun _ => overwriting).aim 0 100).run runs.run
  have begun := ((ended.poke 4 0).aim 0 100).start (fun _ => id) runs.again
  obtain ⟨source₂, stored⟩ := begun.stepsOn runs.store
  obtain ⟨source, left⟩ := stored.step runs.leaves
  obtain ⟨_, on_first⟩ := begun.never_stale referenceRunner_onBus
  obtain ⟨_, on_behind⟩ := stored.never_stale referenceRunner_onBus
  obtain ⟨agrees, on_next⟩ := left.never_stale referenceRunner_onBus
  obtain ⟨ptr, exit⟩ := runs.ptrs
  exact ⟨e, s, first, behind, next, created, runs, (on_first first rfl).2, (on_behind behind rfl).2,
    (on_next next rfl).2, source, agrees, ⟨0, 0, ptr, runs.live, Nat.zero_le _⟩,
    ⟨6, 0, exit, runs.live, Nat.zero_le _⟩⟩

end Engine

end Mos6502
