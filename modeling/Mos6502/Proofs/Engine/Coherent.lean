import Mos6502.Proofs.Engine.Consistent
import Mos6502.Proofs.Native.Safe

/-! Between any two host instructions the live blocks agree with memory: every byte of a live block
whose stores are tracked still is what it was compiled from. -/
namespace Mos6502

namespace CodeBus

variable {σ : Type}

/-- What may have become of a bus: blocks died, and only bytes that no live block relies on
changed. -/
structure Follows (zeroPage : Bool) (b d : CodeBus (PagedMemory σ)) : Prop where
  shrinks : b.blocks.Shrinks d.blocks
  threshold : d.deviceFrom = b.deviceFrom
  pages : d.memory.pages = b.memory.pages
  kept : ∀ s x, Tracked zeroPage x → d.blocks.LiveAt s x →
    d.memory.ram.get x = b.memory.ram.get x

variable {zeroPage : Bool} {b c d : CodeBus (PagedMemory σ)}

theorem Follows.refl (b : CodeBus (PagedMemory σ)) : b.Follows zeroPage b :=
  ⟨.refl _, rfl, rfl, fun _ _ _ _ => rfl⟩

theorem Follows.trans (h : b.Follows zeroPage c) (h' : c.Follows zeroPage d) :
    b.Follows zeroPage d where
  shrinks := h.shrinks.trans h'.shrinks
  threshold := h'.threshold.trans h.threshold
  pages := h'.pages.trans h.pages
  kept s x tracked live :=
    (h'.kept s x tracked live).trans (h.kept s x tracked (h'.shrinks.liveAt live))

theorem follows_read (b : CodeBus (PagedMemory σ)) (a : Addr) :
    b.Follows zeroPage (Bus.read b a).2 := by
  obtain ⟨memory, blocks, deviceFrom⟩ := b
  change Follows zeroPage _ (CodeBus.load ⟨memory, blocks, deviceFrom⟩ a).2
  unfold CodeBus.load
  dsimp only
  split
  · refine ⟨.refl _, rfl, memory.pages_deviceRead a, ?_⟩
    intro s x _ _
    exact congrArg (·.get x) (memory.ram_deviceRead a)
  · exact .refl _

theorem follows_write (b : CodeBus (PagedMemory σ)) (a : Addr) (v : UInt8) :
    b.Follows zeroPage (Bus.write b a v) := by
  obtain ⟨memory, blocks, deviceFrom⟩ := b
  change Follows zeroPage _ (CodeBus.put ⟨memory, blocks.retire a, deviceFrom⟩ a v)
  have other : ∀ {s x}, (blocks.retire a).LiveAt s x → a ≠ x := by
    rintro s _ live rfl
    exact BlockMap.not_liveAt_retire blocks a s live
  unfold CodeBus.put
  dsimp only
  split
  · refine ⟨blocks.shrinks_retire a, rfl, memory.pages_deviceWrite a v, ?_⟩
    intro s x _ live
    exact PagedMemory.get_deviceWrite_of_ne (other live)
  · refine ⟨blocks.shrinks_retire a, rfl, memory.pages_write a v, ?_⟩
    intro s x _ live
    exact PagedMemory.get_write_of_ne (other live)

theorem follows_run {α : Type} (p : BusProgram α) (b : CodeBus (PagedMemory σ)) :
    b.Follows zeroPage (p.run b).2 :=
  p.run_keeps (fun d a h => h.trans (follows_read d a))
    (fun d a v h => h.trans (follows_write d a v)) (.refl b)

theorem follows_uniform {α : Type} {x : (B : Type) → [Bus B] → StateM B α} (h : Uniform x)
    (b : CodeBus (PagedMemory σ)) : b.Follows zeroPage (x (CodeBus (PagedMemory σ)) b).2 := by
  obtain ⟨p, same⟩ := h
  rw [same]
  exact follows_run p b

theorem follows_execOp {op : HostOp} {c : Core (PagedMemory σ)}
    (safe : Native.SafeStep zeroPage c (Native.execOp op c).2) :
    c.bus.Follows zeroPage (Native.execOp op c).2.bus := by
  have framed := Native.framed_execOp op c
  exact ⟨framed.explained.shrinks, framed.threshold, framed.pages, safe⟩

end CodeBus

namespace Engine

variable {σ ω : Type}

/-- The live blocks agree with memory but for bytes that the host has edited and not yet retired. -/
structure Coherent (e : Engine (PagedMemory σ) ω) (source : Addr → PagedMemory σ)
    (dirty : Addr → Prop) : Prop extends e.Consistent source where
  fits : e.core.bus.Fits
  pages : ∀ s, (e.blocks.entryAt? s).isSome → (source s).pages = e.memory.pages
  fresh : ∀ s x, Tracked e.tracksZeroPage x → e.blocks.LiveAt s x → ¬ dirty x →
    e.memory.ram.get x = (source s).ram.get x

variable {e e' : Engine (PagedMemory σ) ω} {source : Addr → PagedMemory σ} {dirty : Addr → Prop}

theorem Coherent.of_follows (h : e.Coherent source dirty) (consistent : e'.Consistent source)
    (follows : e.core.bus.Follows e.tracksZeroPage e'.core.bus)
    (translator : e'.translator = e.translator) : e'.Coherent source dirty where
  toConsistent := consistent
  fits := h.fits.of_pages follows.threshold follows.pages
  pages s live := by
    refine (h.pages s ?_).trans follows.pages.symm
    obtain ⟨entry, live⟩ := Option.isSome_iff_exists.mp live
    exact Option.isSome_iff_exists.mpr ⟨entry, follows.shrinks.entry s entry live⟩
  fresh s x tracked live clean := by
    unfold tracksZeroPage at tracked
    rw [translator] at tracked
    exact (follows.kept s x tracked live).trans
      (h.fresh s x tracked (follows.shrinks.liveAt live) clean)

theorem Coherent.of_same (h : e.Coherent source dirty) (bus : e'.core.bus = e.core.bus)
    (translator : e'.translator = e.translator)
    (paused : e'.paused = e.paused ∨ e'.paused = none) : e'.Coherent source dirty :=
  h.of_follows (h.toConsistent.of_same (congrArg (·.blocks) bus) translator paused)
    (bus ▸ .refl _) translator

theorem coherent_create {memory : PagedMemory σ} {config : Config}
    {runner : InstructionRunner (PagedMemory σ) ω} {host : ω}
    (h : create memory config runner host = .ok e) (source : Addr → PagedMemory σ) :
    e.Coherent source dirty := by
  have consistent := consistent_create h source
  unfold create at h
  split at h
  · cases h
  · cases h
    refine ⟨consistent, rfl, ?_, ?_⟩
    · intro s live
      simp [blocks, BlockMap.entryAt?, BlockMap.empty] at live
    · rintro s x _ ⟨_, _, ptr, _⟩
      simp [blocks, BlockMap.ptr?, BlockMap.empty] at ptr

theorem follows_answerIrq (e : Engine (PagedMemory σ) ω) (zeroPage : Bool) :
    e.core.bus.Follows zeroPage e.answerIrq.core.bus := by
  obtain ⟨⟨cpu, bus⟩, translator, runner, observer, host, paused, haltRequest⟩ := e
  have follows : bus.Follows zeroPage (Interpreter.interrupt cpu bus).2 :=
    CodeBus.follows_uniform (Interpreter.uniform_interrupt cpu) bus
  unfold Engine.answerIrq
  dsimp only
  generalize Interpreter.interrupt cpu bus = done at follows
  obtain ⟨⟨cycles, after⟩, bus'⟩ := done
  split
  · exact follows
  · exact .refl _

theorem Coherent.answerIrq (h : e.Coherent source dirty) : e.answerIrq.Coherent source dirty :=
  h.of_follows h.toConsistent.answerIrq (e.follows_answerIrq _) e.sameSetup_answerIrq.translator

theorem Coherent.locate {target : Addr} {pos : Position} (h : e.Coherent source dirty)
    (unpaused : e.paused = none) (done : e.locate target = .ok (pos, e')) :
    e'.Coherent (e.located source target) dirty ∧ e.Locates target pos e' := by
  obtain ⟨consistent, located⟩ := h.toConsistent.locate unpaused done
  refine ⟨?_, located⟩
  unfold Engine.locate at done
  unfold Engine.located at consistent ⊢
  cases live : e.blocks.entryAt? target with
  | some entry =>
    rw [live] at done
    cases done
    exact h
  | none =>
    rw [live] at consistent
    obtain ⟨⟨cpu, ⟨memory, blocks, deviceFrom⟩⟩, translator, runner, observer, host, paused,
      haltRequest⟩ := e
    rw [live] at done
    dsimp only at done
    split at done
    · cases done
    · next entry translator' blocks' compiled =>
      cases done
      have compiles := h.sound.compiles compiled
      refine ⟨consistent, h.fits, ?_, ?_⟩
      · intro s live'
        by_cases same : s = target
        · subst same
          rw [if_neg (by simp), recompiled_self]
          rfl
        · rw [if_neg (by simp), recompiled_of_ne source _ same]
          refine h.pages s ?_
          obtain ⟨e, live'⟩ := Option.isSome_iff_exists.mp live'
          exact Option.isSome_iff_exists.mpr ⟨e, compiles.others s e same live'⟩
      · intro s x tracked live' clean
        by_cases same : s = target
        · subst same
          rw [if_neg (by simp), recompiled_self]
          rfl
        · rw [if_neg (by simp), recompiled_of_ne source _ same]
          refine h.fresh s x ?_ (compiles.bytes s x same live') clean
          have option : translator'.settings = translator.settings := compiles.settings
          simp only [tracksZeroPage, option] at tracked ⊢
          exact tracked

/-! What a host does between runs. -/

theorem Coherent.retire (h : e.Coherent source dirty) (a : Addr) :
    (e.retire a).Coherent source fun x => dirty x ∧ x ≠ a := by
  have follows : e.core.bus.Follows e.tracksZeroPage (e.core.bus.retire a) :=
    ⟨e.blocks.shrinks_retire a, rfl, rfl, fun _ _ _ _ => rfl⟩
  have kept := h.of_follows (h.toConsistent.retire a) follows rfl
  refine ⟨kept.toConsistent, kept.fits, kept.pages, ?_⟩
  intro s x tracked live clean
  refine kept.fresh s x tracked live fun bad => clean ⟨bad, ?_⟩
  rintro rfl
  exact BlockMap.not_liveAt_retire e.blocks x s live

theorem Coherent.poke (h : e.Coherent source dirty) (a : Addr) (v : UInt8) :
    (e.poke a v).Coherent source dirty := by
  refine h.of_follows (h.toConsistent.poke a v) ?_ rfl
  refine ⟨e.blocks.shrinks_retire a, rfl, e.memory.pages_write a v, ?_⟩
  intro s x _ live
  refine PagedMemory.get_write_of_ne ?_
  rintro rfl
  exact BlockMap.not_liveAt_retire e.blocks a s live

theorem Coherent.modifyMemory (h : e.Coherent source dirty) (f : PagedMemory σ → PagedMemory σ)
    (pages : (f e.memory).pages = e.memory.pages) :
    (e.modifyMemory f).Coherent source fun x =>
      dirty x ∨ (f e.memory).ram.get x ≠ e.memory.ram.get x := by
  refine ⟨h.toConsistent.modifyMemory f, h.fits.of_pages rfl pages, ?_, ?_⟩
  · intro s live
    exact (h.pages s live).trans pages.symm
  · intro s x tracked live clean
    have same : (f e.memory).ram.get x = e.memory.ram.get x := by
      by_cases same : (f e.memory).ram.get x = e.memory.ram.get x
      · exact same
      · exact absurd (.inr same) clean
    exact same.trans (h.fresh s x tracked live fun bad => clean (.inl bad))

theorem Coherent.weaken {wider : Addr → Prop} (h : e.Coherent source dirty)
    (weaker : ∀ x, dirty x → wider x) : e.Coherent source wider where
  toConsistent := h.toConsistent
  fits := h.fits
  pages := h.pages
  fresh s x tracked live clean := h.fresh s x tracked live fun bad => clean (weaker x bad)

theorem Coherent.forgetRange (h : e.Coherent source dirty) (start : Addr) (len : Nat) :
    (e.forgetRange start len).Coherent source fun x =>
      dirty x ∧ ¬ distance start x < min len 65536 := by
  obtain ⟨entries, bytes⟩ :=
    Translator.forgetFrom_spec ⟨e.translator.notes, e.blocks⟩ start (min len 65536)
  refine ⟨h.toConsistent.forgetRange start len, h.fits, ?_, ?_⟩
  · intro s live
    obtain ⟨e, live⟩ := Option.isSome_iff_exists.mp live
    exact h.pages s (Option.isSome_iff_exists.mpr ⟨e, entries s e live⟩)
  · intro s x tracked live clean
    obtain ⟨live, outside⟩ := bytes s x live
    exact h.fresh s x tracked live fun bad => clean ⟨bad, outside⟩

theorem Coherent.setTracksZeroPage (h : e.Coherent source dirty) (on : Bool) :
    (e.setTracksZeroPage on).Coherent source dirty := by
  have consistent := h.toConsistent.setTracksZeroPage on
  obtain ⟨⟨cpu, ⟨memory, blocks, deviceFrom⟩⟩, translator, runner, observer, host, paused,
    haltRequest⟩ := e
  unfold Engine.setTracksZeroPage at consistent ⊢
  split
  · exact h
  · next change =>
    rw [if_neg change] at consistent
    cases on with
    | true =>
      refine ⟨consistent, h.fits, ?_, ?_⟩
      · intro s live
        simp [mapCode, Engine.setPause, Engine.blocks, Translator.flush, BlockMap.entryAt?,
          BlockMap.empty] at live
      · rintro s x _ ⟨_, _, ptr, _⟩
        simp [mapCode, Engine.setPause, Engine.blocks, Translator.flush, BlockMap.ptr?,
          BlockMap.empty] at ptr
    | false =>
      refine ⟨consistent, h.fits, h.pages, ?_⟩
      intro s x tracked live clean
      refine h.fresh s x ⟨tracked.1, fun low => ?_⟩ live clean
      cases tracked.2 low

end Engine

end Mos6502
