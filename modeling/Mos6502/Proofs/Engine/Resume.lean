import Mos6502.Proofs.Engine.History
import Mos6502.Proofs.Engine.Outcome

/-! Every frame is at work on an instruction, and every run that paused goes on in front of one.
What the peephole knew there still holds, since the host drops the pause whenever it changes a
register. -/
namespace Mos6502

open Record

variable {σ ω : Type}

namespace Engine

structure SameProgram (e e' : Engine (PagedMemory σ) ω) : Prop where
  translator : e'.translator = e.translator
  pages : e'.memory.pages = e.memory.pages

theorem sameProgram_answerIrq (e : Engine (PagedMemory σ) ω) : e.SameProgram e.answerIrq :=
  ⟨e.sameSetup_answerIrq.translator, (e.follows_answerIrq false).pages⟩

end Engine

namespace Frame

theorem sameProgram_turn {f : Frame (PagedMemory σ) ω} {t : Turn (PagedMemory σ) ω}
    (onBus : f.engine.runner.OnBus) (h : f.turn = .ok t) : f.engine.SameProgram t.engine := by
  refine ⟨(sameSetup_turn h).translator, ?_⟩
  unfold turn at h
  split at h
  · unfold leaveStale at h
    split at h
    · cases h
      rfl
    · obtain ⟨_, _, done⟩ := bind_eq_ok.mp h
      cases done
      dsimp only [Turn.engine]
      rw [Engine.mapCpu_eq]
      rfl
  · obtain ⟨⟨core, translator, runner, observer, host, paused, haltRequest⟩, pos, leaveAt⟩ := f
    unfold executeOp at h
    dsimp only at h ⊢
    split at h
    · cases h
      rfl
    · cases h
      rfl
    · next op len _ _ =>
      refine (Followed.follows ?_ (follow_spec h) false).pages.trans
        (Native.framed_execOp op core).pages
      exact onBus

variable {f : Frame (PagedMemory σ) ω} {source : Addr → PagedMemory σ} {g : Spot (PagedMemory σ)}
  {c : Core (PagedMemory σ)}

theorem Turns.arrives {e : Engine (PagedMemory σ) ω} {target : Addr}
    (h : f.Turns source g c (.go e target)) : e.Arrives := by
  cases h with
  | back _ _ arrives => exact arrives
  | goes _ arrives => exact arrives

theorem Works.signal (h : f.Works g c) (haltRequest : UInt32) :
    Frame.Works { f with engine := { f.engine with haltRequest } } g c :=
  ⟨h.low, h.quiet, h.known, h.runs, h.begins, h.faithful⟩

/-- The frame is in front of an instruction at `target`, where the engine `e` was to go on. -/
structure Fresh (f : Frame (PagedMemory σ) ω) (source : Addr → PagedMemory σ)
    (e : Engine (PagedMemory σ) ω) (target : Addr) (g : Spot (PagedMemory σ)) : Prop where
  there : f.At source g
  works : f.Works g f.engine.core
  begins : g.done = []
  heads : g.record.startsRun = true
  addr : g.record.addr = target
  machine : f.engine.core.machine target = e.core.machine target
  unspent : g.unspent f.engine.core = e.cpu.budget
  settings : f.engine.translator.settings = e.translator.settings

end Frame

namespace Engine

variable {e e' : Engine (PagedMemory σ) ω} {source : Addr → PagedMemory σ}
  {dirty : Addr → Prop} {p : Pause} {g : Spot (PagedMemory σ)}

theorem Coherent.enters (h : e.Coherent source fun _ => False) (unpaused : e.paused = none)
    (arrives : e.Arrives) {target : Addr} {pos : Position} (done : e.locate target = .ok (pos, e')) :
    ∃ g, Frame.Fresh ⟨e', pos, none⟩ (e.located source target) e target g := by
  obtain ⟨coherent, located⟩ := h.locate unpaused done
  obtain ⟨g, begun, first, addr⟩ := h.toConsistent.enter unpaused done
  have there := begun.isAt coherent
  have low : e'.memory.LowPlain := by
    rw [located.memory]
    exact arrives.low
  have quiet : e'.cpu.interruptDue = false := by
    rw [located.cpu]
    exact arrives.quiet
  have known : g.known.Holds e'.cpu := by
    unfold Spot.known
    rw [first]
    exact holds_unknown _
  have starts : g.record.startsRun = true := by
    have shape := begun.inside.block.shape
    rw [begun.inside.records, first] at shape
    exact shape.2.2.1
  refine ⟨g, there, there.works begun.begins low quiet known, begun.begins, starts, addr, ?_, ?_,
    located.settings⟩
  · unfold Core.machine
    rw [show e'.core.cpu = e.core.cpu from located.cpu,
      show e'.core.bus.memory = e.core.bus.memory from located.memory]
  · rw [there.unspent_eq, if_pos starts, Int.add_zero, ← located.cpu]
    rfl

theorem PausedAt.of_shrinks (h : e.PausedAt source p g) (blocks : e.blocks.Shrinks e'.blocks)
    (translator : e'.translator = e.translator) (known : g.known.Holds e'.cpu) :
    e'.PausedAt source p g where
  inside := h.inside
  begins := h.begins
  keeps := by
    rw [translator]
    exact h.keeps.shrinks blocks
  offset := h.offset
  memory := h.memory
  serves := by
    rw [translator]
    exact h.serves
  ip := h.ip
  addr := h.addr
  known := known

/-- A run that paused goes on at the place it paused at, with what was known there. -/
theorem PausedAt.resumes (h : e.PausedAt source p g) (live : e.isIntact p.pos = true) :
    Frame.Begins ⟨e.setPause none, p.pos, none⟩ source g where
  unpaused := rfl
  inside := h.inside
  keeps := h.keeps
  offset := h.offset
  ip := h.ip
  standing := .intact live rfl
  begins := h.begins
  live := live
  memory := h.memory
  serves := h.serves

/-- Whatever registers and host a pause finds, it stands in front of an instruction. -/
def Pauses (e : Engine (PagedMemory σ) ω) (source : Addr → PagedMemory σ) : Prop :=
  ∀ p, e.paused = some p → e.isIntact p.pos = true → ∃ g, e.PausedAt source p g

theorem pauses_of_none (unpaused : e.paused = none) : e.Pauses source := by
  intro p is
  rw [unpaused] at is
  cases is

theorem Pauses.of_shrinks (h : e.Pauses source) (blocks : e.blocks.Shrinks e'.blocks)
    (translator : e'.translator = e.translator) (paused : e'.paused = e.paused)
    (known : ∀ k : Known, k.Holds e.cpu → k.Holds e'.cpu) : e'.Pauses source := by
  intro p is live
  have before : e.isIntact p.pos = true :=
    (e.isIntact_iff _).mpr (blocks.entry _ _ ((e'.isIntact_iff _).mp live))
  obtain ⟨g, there⟩ := h p (paused.symm.trans is) before
  exact ⟨g, there.of_shrinks blocks translator (known _ there.known)⟩

theorem answered_of_quiet (quiet : e.cpu.interruptDue = false) : e.answered = e := by
  unfold answered
  rw [quiet]
  rfl

theorem answered_quiet (e : Engine (PagedMemory σ) ω) :
    e.answered.cpu.interruptDue = false := by
  unfold answered
  cases due : e.cpu.interruptDue with
  | true =>
    rw [if_pos rfl]
    exact quiet_answerIrq e
  | false =>
    rw [if_neg Bool.false_ne_true]
    exact due

theorem sameProgram_answered (e : Engine (PagedMemory σ) ω) : e.SameProgram e.answered := by
  unfold answered
  split
  · have same := sameProgram_answerIrq e
    exact ⟨same.translator, same.pages⟩
  · exact ⟨rfl, rfl⟩

theorem locate_memory {target : Addr} {pos : Position} (h : e.locate target = .ok (pos, e')) :
    e'.memory = e.memory := by
  unfold locate at h
  split at h
  · cases h
    rfl
  · obtain ⟨⟨cpu, bus⟩, translator, runner, observer, host, paused, haltRequest⟩ := e
    dsimp only at h
    split at h
    · cases h
    · cases h
      rfl

theorem start_pages {f : Frame (PagedMemory σ) ω} (h : e.start = .ok f) :
    f.engine.memory.pages = e.memory.pages := by
  have answered := e.sameProgram_answered.pages
  rcases start_cases (fun _ => e.memory) h with ⟨_, _, rfl, _⟩ | ⟨_, _, _, located, rfl, _⟩
  · exact answered
  · dsimp only
    rw [locate_memory located]
    exact answered

theorem Coherent.fresh_start (h : e.Coherent source fun _ => False) (pauses : e.Pauses source)
    (low : e.memory.LowPlain) {f : Frame (PagedMemory σ) ω} (ok : e.start = .ok f) :
    ∃ g, f.Fresh (e.started source) e.answered e.answered.cpu.pc g := by
  have coherent := h.answered
  have quiet := e.answered_quiet
  have low : e.answered.memory.LowPlain := low.of_pages e.sameProgram_answered.pages
  have pauses : e.answered.Pauses source := by
    unfold Engine.answered
    split
    · exact pauses_of_none rfl
    · exact pauses
  rcases start_cases source ok with
    ⟨pos, valid, rfl, same⟩ | ⟨pos, e', _, located, rfl, same⟩
  · rw [same]
    unfold validPause? at valid
    split at valid
    · cases valid
    · next p paused =>
      split at valid
      · next still =>
        obtain ⟨pc, _, intact⟩ := still
        cases valid
        obtain ⟨g, place⟩ := pauses p paused intact
        have begun := place.resumes intact
        have there := begun.isAt (coherent.of_same rfl rfl (.inr rfl))
        have starts : g.record.startsRun = true := by
          rw [← there.startsRunAt place.begins, ← place.ip]
          exact (coherent.pause p paused intact).starts
        refine ⟨g, there, there.works place.begins low quiet place.known, place.begins, starts,
          place.addr.trans pc, rfl, ?_, rfl⟩
        rw [there.unspent_eq, if_pos starts]
        exact Int.add_zero _
      · cases valid
  · rw [same]
    have unpaused : (e.answered.setPause none).Coherent source fun _ => False :=
      coherent.of_same rfl rfl (.inr rfl)
    obtain ⟨g, fresh⟩ := unpaused.enters rfl ⟨low, quiet⟩ located
    exact ⟨g, fresh.there, fresh.works, fresh.begins, fresh.heads, fresh.addr, fresh.machine,
      fresh.unspent, fresh.settings⟩

def Phase.InProgress : Phase (PagedMemory σ) ω → (Addr → PagedMemory σ) → Prop
  | .idle e, source => e.Pauses source
  | .running f, source => ∃ g c, f.At source g ∧ f.Works g c

variable {phase : Phase (PagedMemory σ) ω}

theorem memory_setTracksZeroPage (e : Engine (PagedMemory σ) ω) (on : Bool) :
    (e.setTracksZeroPage on).memory = e.memory := by
  unfold Engine.setTracksZeroPage
  split
  · rfl
  · split <;> rfl

theorem Pauses.setTracksZeroPage (h : e.Pauses source) (on : Bool) :
    (e.setTracksZeroPage on).Pauses source := by
  obtain ⟨⟨cpu, ⟨memory, blocks, deviceFrom⟩⟩, translator, runner, observer, host, paused,
    haltRequest⟩ := e
  unfold Engine.setTracksZeroPage
  split
  · exact h
  · cases on with
    | true => exact pauses_of_none rfl
    | false =>
      intro p is live
      obtain ⟨g, there⟩ := h p is live
      refine ⟨g, there.inside, there.begins, ?_, there.offset, there.memory, ?_, there.ip,
        there.addr, there.known⟩
      · refine there.keeps.of_kept ?_ ?_ (Nat.le_refl _) fun _ _ => rfl
        · exact fun x _ => (CodeTables.SameRow.refl _ x).kept _
        · exact fun x offset ptr => ptr
      · obtain ⟨tracked, _, compiled⟩ := there.serves
        refine ⟨tracked, ?_, compiled⟩
        intro contra
        cases contra

/-- With pages zero and one in plain memory, whatever comes before. -/
theorem History.inProgress (h : History referenceRunner phase source dirty)
    (low : phase.engine.memory.LowPlain) : Phase.InProgress phase source := by
  induction h with
  | create ok =>
    unfold Engine.create at ok
    split at ok
    · cases ok
    · cases ok
      exact pauses_of_none rfl
  | start before clean ok ih =>
    have coherent : Coherent _ _ fun _ => False :=
      (before.stands referenceRunner_onBus).weaken clean
    have low := low.of_pages (start_pages ok).symm
    obtain ⟨g, fresh⟩ := coherent.fresh_start (ih low) low ok
    exact ⟨g, _, fresh.there, fresh.works⟩
  | stay before ok ih =>
    have runner := before.runner_eq
    have same := Frame.sameProgram_turn (runner ▸ referenceRunner_onBus) ok
    obtain ⟨g, c, there, works⟩ := ih (low.of_pages same.pages.symm)
    cases there.turns works runner ok with
    | within _ there works => exact ⟨_, _, there, works⟩
    | next _ there works => exact ⟨_, _, there, works⟩
  | go before ok located ih =>
    have runner := before.runner_eq
    have same := Frame.sameProgram_turn (runner ▸ referenceRunner_onBus) ok
    have before_low := low
    rw [Phase.engine, locate_memory located] at before_low
    obtain ⟨g, c, there, works⟩ := ih (before_low.of_pages same.pages.symm)
    have arrives : Arrives _ := (there.turns works runner ok).arrives
    rcases there.turn_spec (runner ▸ referenceRunner_onBus) ok with ⟨_, is, _⟩ | ⟨coherent, unpaused⟩
    · cases is
    · obtain ⟨g', fresh⟩ := coherent.enters unpaused arrives located
      exact ⟨g', _, fresh.there, fresh.works⟩
  | stop before ok ih =>
    have runner := before.runner_eq
    have same := Frame.sameProgram_turn (runner ▸ referenceRunner_onBus) ok
    obtain ⟨g, c, there, works⟩ := ih (low.of_pages same.pages.symm)
    cases there.turns works runner ok with
    | exits _ unpaused => exact pauses_of_none unpaused
    | held _ _ paused => exact fun p is _ => ⟨g, paused p is⟩
  | signal before haltRequest ih =>
    obtain ⟨g, c, there, works⟩ := ih low
    exact ⟨g, c, there.signal haltRequest, works.signal haltRequest⟩
  | request _ _ ih | setObserver _ _ ih =>
    exact Pauses.of_shrinks (ih low) (.refl _) rfl rfl fun _ => id
  | aim _ pc cycles ih =>
    exact Pauses.of_shrinks (ih low) (.refl _) rfl rfl fun _ k => ⟨k.a, k.x, k.y, k.carry⟩
  | holdIrq _ held ih =>
    exact Pauses.of_shrinks (ih low) (.refl _) rfl rfl fun _ k => ⟨k.a, k.x, k.y, k.carry⟩
  | modifyCpu => exact pauses_of_none rfl
  | @poke e _ _ _ a v ih =>
    have low : e.memory.LowPlain := low.of_pages (e.memory.pages_write a v).symm
    exact Pauses.of_shrinks (ih low) (e.blocks.shrinks_retire a) rfl rfl fun _ => id
  | modifyMemory _ f pages ih =>
    exact Pauses.of_shrinks (ih (low.of_pages pages.symm)) (.refl _) rfl rfl fun _ => id
  | @retire e _ _ _ a ih =>
    exact Pauses.of_shrinks (ih low) (e.blocks.shrinks_retire a) rfl rfl fun _ => id
  | forgetRange => exact pauses_of_none rfl
  | @setTracksZeroPage e _ _ _ on ih =>
    have low : (e.setTracksZeroPage on).memory.LowPlain := low
    rw [memory_setTracksZeroPage] at low
    exact Pauses.setTracksZeroPage (ih low) on

end Engine

end Mos6502
