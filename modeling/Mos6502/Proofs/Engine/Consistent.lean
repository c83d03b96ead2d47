import Mos6502.Engine.Control
import Mos6502.Proofs.Block.Total
import Mos6502.Proofs.Bus.Program
import Mos6502.Proofs.Engine.Turn

/-! Between any two host instructions the tables, the arena and the pause agree with each other,
whatever became of memory: a live block is where its entry says, and a run paused at a countdown. -/
namespace Mos6502

namespace Native.Explained

variable {M : Type} {op : HostOp} {c d : Core M} {out : Outcome}

/-- Only a store that hits code changes the tables. -/
theorem blocks (h : Explained op c out d) (kept : ∀ pc, out ≠ .stale pc) :
    d.bus.blocks = c.bus.blocks := by
  cases out with
  | next | jump | leave | illegal => exact h.2
  | stale pc => exact absurd rfl (kept pc)
  | charge | observe | bounce => rw [h.2]

theorem shrinks (h : Explained op c out d) : c.bus.blocks.Shrinks d.bus.blocks := by
  cases out with
  | stale pc =>
    obtain ⟨_, a, _, _, blocks⟩ := h
    rw [blocks]
    exact c.bus.blocks.shrinks_retire a
  | _ =>
    rw [h.blocks fun _ => Outcome.noConfusion]
    exact .refl _

end Native.Explained

namespace CodeBus

variable {M : Type} [GuestMemory M]

theorem shrinks_run {α : Type} (p : BusProgram α) (b : CodeBus M) :
    b.blocks.Shrinks (p.run b).2.blocks := by
  refine p.run_keeps (I := fun d : CodeBus M => b.blocks.Shrinks d.blocks) ?_ ?_ (.refl _)
  · rintro ⟨memory, blocks, deviceFrom⟩ a kept
    change b.blocks.Shrinks (CodeBus.load ⟨memory, blocks, deviceFrom⟩ a).2.blocks
    unfold CodeBus.load
    dsimp only
    split <;> exact kept
  · rintro ⟨memory, blocks, deviceFrom⟩ a v kept
    refine kept.trans ?_
    change blocks.Shrinks (CodeBus.put ⟨memory, blocks.retire a, deviceFrom⟩ a v).blocks
    unfold CodeBus.put
    dsimp only
    split <;> exact blocks.shrinks_retire a

theorem shrinks_uniform {α : Type} {x : (B : Type) → [Bus B] → StateM B α} (h : Uniform x)
    (b : CodeBus M) : b.blocks.Shrinks (x (CodeBus M) b).2.blocks := by
  obtain ⟨p, same⟩ := h
  rw [same]
  exact shrinks_run p b

end CodeBus

/-- The runner acts on the bus by reads and writes alone. -/
def InstructionRunner.OnBus {M ω : Type} [GuestMemory M] (runner : InstructionRunner M ω) :
    Prop :=
  ∀ host cpu, ∃ p : BusProgram ((Step × Cpu) × ω), ∀ bus,
    runner host cpu bus = ((p.run bus).1.1, (p.run bus).2, (p.run bus).1.2)

theorem referenceRunner_onBus {M ω : Type} [GuestMemory M] :
    (referenceRunner : InstructionRunner M ω).OnBus := by
  intro host cpu
  obtain ⟨p, same⟩ := Interpreter.uniform_step cpu
  refine ⟨p.bind fun done => .done (done, host), ?_⟩
  intro bus
  rw [BusProgram.run_bind, ← same]
  rfl

namespace Engine

variable {M ω : Type} [GuestMemory M]

structure PausesWell (e : Engine M ω) (p : Pause) : Prop where
  covered : e.blocks.LiveAt p.pos.block p.pc
  ptr : e.blocks.ptr? p.pc = some ⟨p.pos.block, p.pos.ip⟩
  noted : (e.translator.note p.pc).opcode.isSome = true
  starts : e.startsRunAt p.pos.ip = true

/-- Tables, arena and pause agree. `source` is the memory that each start was last compiled from. -/
structure Consistent (e : Engine M ω) (source : Addr → M) : Prop where
  sound : e.translator.Sound e.blocks source
  sized : e.translator.Sized
  pause : ∀ p, e.paused = some p → e.isIntact p.pos = true → e.PausesWell p

variable {e e' : Engine M ω} {source : Addr → M}

omit [GuestMemory M] in
theorem isIntact_iff (e : Engine M ω) (pos : Position) :
    e.isIntact pos = true ↔ e.blocks.entryAt? pos.block = some pos.entry := by
  simp [isIntact]

theorem Consistent.of_shrinks (h : e.Consistent source) (less : e.blocks.Shrinks e'.blocks)
    (translator : e'.translator = e.translator)
    (paused : e'.paused = e.paused ∨ e'.paused = none) : e'.Consistent source where
  sound := translator ▸ h.sound.shrinks less
  sized := translator ▸ h.sized
  pause p is intact := by
    rcases paused with same | gone
    · -- Entries only disappear, so a pause that is intact now was intact before.
      have live := (isIntact_iff e' p.pos).mp intact
      have before := (isIntact_iff e p.pos).mpr (less.entry _ _ live)
      obtain ⟨⟨offset, entry, ptr, was, order⟩, here, noted, starts⟩ :=
        h.pause p (same.symm.trans is) before
      rw [(isIntact_iff e p.pos).mp before] at was
      cases was
      refine ⟨⟨offset, _, (less.ptr _).trans ptr, live, order⟩, (less.ptr _).trans here, ?_, ?_⟩
      · rw [translator]
        exact noted
      · unfold startsRunAt at starts ⊢
        rw [translator]
        exact starts
    · rw [gone] at is
      cases is

theorem Consistent.of_same (h : e.Consistent source) (blocks : e'.blocks = e.blocks)
    (translator : e'.translator = e.translator)
    (paused : e'.paused = e.paused ∨ e'.paused = none) : e'.Consistent source :=
  h.of_shrinks (blocks ▸ .refl _) translator paused

theorem consistent_create {memory : M} {config : Config} {runner : InstructionRunner M ω}
    {host : ω} (h : create memory config runner host = .ok e) (source : Addr → M) :
    e.Consistent source := by
  unfold create at h
  split at h
  · cases h
  · next valid =>
    cases h
    exact ⟨Translator.sound_ofConfig _ _ source, Translator.sized_ofConfig valid _,
      fun p is => nomatch is⟩

theorem Consistent.mapCpu (h : e.Consistent source) (f : Cpu → Cpu) :
    (e.mapCpu f).Consistent source := by
  rw [mapCpu_eq]
  exact h.of_same rfl rfl (.inl rfl)

theorem Consistent.setPause {p : Pause} (h : e.Consistent source)
    (place : e.isIntact p.pos = true → e.PausesWell p) :
    (e.setPause (some p)).Consistent source where
  sound := h.sound
  sized := h.sized
  pause q is live := by
    cases is
    obtain ⟨covered, ptr, noted, starts⟩ := place live
    exact ⟨covered, ptr, noted, starts⟩

theorem Consistent.answerIrq (h : e.Consistent source) : e.answerIrq.Consistent source := by
  obtain ⟨⟨cpu, bus⟩, translator, runner, observer, host, paused, haltRequest⟩ := e
  have less : bus.blocks.Shrinks (Interpreter.interrupt cpu bus).2.blocks :=
    CodeBus.shrinks_uniform (Interpreter.uniform_interrupt cpu) bus
  unfold Engine.answerIrq
  dsimp only
  generalize Interpreter.interrupt cpu bus = done at less
  obtain ⟨⟨cycles, after⟩, bus'⟩ := done
  split
  · exact h.of_shrinks less rfl (.inl rfl)
  · exact h

theorem answerIrq_paused (e : Engine M ω) : e.answerIrq.paused = e.paused := by
  obtain ⟨⟨cpu, bus⟩, translator, runner, observer, host, paused, haltRequest⟩ := e
  unfold Engine.answerIrq
  dsimp only
  generalize Interpreter.interrupt cpu bus = done
  obtain ⟨⟨cycles, after⟩, bus'⟩ := done
  split <;> rfl

def located (e : Engine M ω) (source : Addr → M) (target : Addr) : Addr → M :=
  if (e.blocks.entryAt? target).isSome then source else recompiled source target e.memory

structure Locates (e : Engine M ω) (target : Addr) (pos : Position) (e' : Engine M ω) : Prop where
  pos : ∃ entry, pos = ⟨entry, target, entry⟩ ∧ e'.blocks.entryAt? target = some entry
  cpu : e'.cpu = e.cpu
  memory : e'.memory = e.memory
  settings : e'.translator.settings = e.translator.settings
  runner : e'.runner = e.runner
  observer : e'.observer = e.observer
  host : e'.host = e.host
  paused : e'.paused = e.paused
  haltRequest : e'.haltRequest = e.haltRequest

theorem Consistent.locate {target : Addr} {pos : Position} (h : e.Consistent source)
    (unpaused : e.paused = none) (done : e.locate target = .ok (pos, e')) :
    e'.Consistent (e.located source target) ∧ e.Locates target pos e' := by
  unfold Engine.locate at done
  unfold Engine.located
  cases live : e.blocks.entryAt? target with
  | some entry =>
    rw [live] at done
    cases done
    exact ⟨h, ⟨entry, rfl, live⟩, rfl, rfl, rfl, rfl, rfl, rfl, rfl, rfl⟩
  | none =>
    obtain ⟨⟨cpu, ⟨memory, blocks, deviceFrom⟩⟩, translator, runner, observer, host, paused,
      haltRequest⟩ := e
    rw [live] at done
    dsimp only at done
    split at done
    · cases done
    · next entry translator' blocks' compiled =>
      cases done
      have compiles := h.sound.compiles compiled
      refine ⟨⟨h.sound.compile compiled, h.sized.of_same compiles.settings compiles.capacity, ?_⟩,
        ⟨entry, rfl, compiles.entry⟩, rfl, rfl, compiles.settings, rfl, rfl, rfl, rfl, rfl⟩
      intro p is
      rw [show paused = none from unpaused] at is
      cases is

theorem Consistent.locate_ok (h : e.Consistent source) (target : Addr) :
    ∃ out, e.locate target = .ok out := by
  obtain ⟨⟨cpu, ⟨memory, blocks, deviceFrom⟩⟩, translator, runner, observer, host, paused,
    haltRequest⟩ := e
  obtain ⟨⟨entry, translator', blocks'⟩, compiled⟩ := h.sized.compile_ok blocks memory target
  unfold Engine.locate
  split
  · exact ⟨_, rfl⟩
  · dsimp only
    rw [compiled]
    exact ⟨_, rfl⟩

theorem Consistent.leaveAt {addr : Addr} {left : Engine M ω} (h : e.Consistent source)
    (ok : e.leaveAt addr = .ok left) : left.Consistent source := by
  obtain ⟨budget, _, rfl⟩ := leaveAt_eq_ok ok
  exact h.mapCpu _

/-! What a host does between runs. -/

theorem Consistent.retire (h : e.Consistent source) (a : Addr) : (e.retire a).Consistent source :=
  h.of_shrinks (e.blocks.shrinks_retire a) rfl (.inl rfl)

theorem Consistent.poke (h : e.Consistent source) (a : Addr) (v : UInt8) :
    (e.poke a v).Consistent source :=
  h.of_shrinks (e.blocks.shrinks_retire a) rfl (.inl rfl)

theorem Consistent.modifyMemory (h : e.Consistent source) (f : M → M) :
    (e.modifyMemory f).Consistent source :=
  h.of_same rfl rfl (.inl rfl)

theorem Consistent.forgetRange (h : e.Consistent source) (start : Addr) (len : Nat) :
    (e.forgetRange start len).Consistent source where
  sound := h.sound.forgetRange start len
  sized := h.sized.of_same rfl rfl
  pause _ is := nomatch is

theorem Consistent.setTracksZeroPage (h : e.Consistent source) (on : Bool) :
    (e.setTracksZeroPage on).Consistent source := by
  obtain ⟨⟨cpu, ⟨memory, blocks, deviceFrom⟩⟩, translator, runner, observer, host, paused,
    haltRequest⟩ := e
  have sized := h.sized
  unfold Engine.setTracksZeroPage
  split
  · exact h
  · cases on with
    | true =>
      have capacity : translator.flush.1.arena.capacity = translator.arena.capacity :=
        (translator.arena.trap_fields 0 translator.arena.cursor).1
      refine ⟨h.sound.setZeroPageCode_on, ⟨sized.window, ?_, ?_, sized.some_op⟩, fun p is => nomatch is⟩
      · exact capacity ▸ sized.inside
      · exact capacity ▸ sized.offsets
    | false =>
      refine ⟨h.sound.setZeroPageCode_off, ⟨sized.window, sized.inside, sized.offsets, sized.some_op⟩, ?_⟩
      intro p is intact
      obtain ⟨covered, ptr, noted, starts⟩ := h.pause p is intact
      exact ⟨covered, ptr, noted, starts⟩

end Engine

end Mos6502
