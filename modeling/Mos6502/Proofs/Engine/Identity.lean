import Mos6502.Proofs.Block.History
import Mos6502.Proofs.Block.Lifetime
import Mos6502.Proofs.Engine.Reach

/-! The engine remembers blocks in two places: a pause says where to go on, and a frame says which
block it is in. Neither is ever taken for another block. A pause that is still valid is at the
countdown it was made at, and a frame finds its block gone exactly when a store has retired it. -/
namespace Mos6502

open Record Translator

namespace Native

variable {σ : Type}

def retired? (op : HostOp) (c : Cpu) : Option Addr :=
  match op with
  | .uop (.retire a _) => some a
  | .uop (.retireScratch _) => some c.scratch
  | .uop (.retireScratchY _) => some (c.scratch + c.y.toUInt16)
  | _ => none

theorem blocks_execOp (op : HostOp) (c : Core (PagedMemory σ)) :
    (execOp op c).2.bus.blocks
      = (retired? op c.cpu).elim c.bus.blocks c.bus.blocks.retire := by
  have explained := (framed_execOp op c).explained
  have unless_stale : (∀ pc, (execOp op c).1 ≠ .stale pc) → retired? op c.cpu = none →
      (execOp op c).2.bus.blocks = (retired? op c.cpu).elim c.bus.blocks c.bus.blocks.retire := by
    intro kept none
    rw [none]
    exact explained.blocks kept
  cases op with
  | uop u =>
    cases u with
    | retire | retireScratch | retireScratchY => rfl
    | _ =>
      refine unless_stale ?_ rfl
      intro pc is
      rw [is] at explained
      obtain ⟨u, a, same, retires, _⟩ := explained
      cases same
      rcases retires with ⟨_, is⟩ | is | is <;> cases is
  | _ =>
    refine unless_stale ?_ rfl
    intro pc is
    rw [is] at explained
    obtain ⟨u, a, same, _⟩ := explained
    cases same

end Native

/-! What a host does, and what else could be done to the tables behind the back of the engine. -/

/-- An act of the host, or an operation on the tables that leaves the pause alone. -/
inductive Change (M ω : Type) where
  | act (a : Act M ω)
  | edit (x : TableEdit M)

namespace Change

variable {M ω : Type} [GuestMemory M]

def apply (e : Engine M ω) : Change M ω → Except Fault (Engine M ω)
  | act a => return a.apply e
  | edit x => do
    let (translator, blocks) ← x.apply e.translator e.blocks
    return e.mapCode fun _ _ => (translator, blocks)

def applyAll (e : Engine M ω) (changes : List (Change M ω)) : Except Fault (Engine M ω) :=
  changes.foldlM apply e

structure Leads (e e' : Engine M ω) : Prop where
  sound : ∃ source : Addr → M, e'.translator.Sound e'.blocks source
  evolves : Evolves M e.translator e.blocks e'.translator e'.blocks
  paused : e'.paused = e.paused ∨ e'.paused = none

variable {e e' e₁ : Engine M ω} {source : Addr → M}

theorem Leads.trans (h : Leads e e₁) (h' : Leads e₁ e') : Leads e e' where
  sound := h'.sound
  evolves := h.evolves.trans h'.evolves
  paused := by
    rcases h'.paused with same | gone
    · rw [same]
      exact h.paused
    · exact .inr gone

theorem leads_of_shrinks (h : e.translator.Sound e.blocks source)
    (less : e.blocks.Shrinks e'.blocks) (translator : e'.translator = e.translator)
    (paused : e'.paused = e.paused ∨ e'.paused = none) : Leads e e' where
  sound := ⟨source, translator ▸ h.shrinks less⟩
  evolves := evolves_of_shrinks (congrArg (·.arena) translator) (congrArg (·.notes) translator) less
  paused := paused

theorem leads_act (h : e.translator.Sound e.blocks source) (a : Act M ω) :
    Leads e (a.apply e) := by
  cases a with
  | aim | holdIrq | setObserver | ask | modifyMemory =>
    exact leads_of_shrinks h (.refl _) rfl (.inl rfl)
  | modifyCpu => exact leads_of_shrinks h (.refl _) rfl (.inr rfl)
  | poke a v => exact leads_of_shrinks h (e.blocks.shrinks_retire a) rfl (.inl rfl)
  | retire a => exact leads_of_shrinks h (e.blocks.shrinks_retire a) rfl (.inl rfl)
  | forgetRange start len =>
    exact ⟨⟨source, h.forgetRange start len⟩,
      evolves_forgetFrom e.translator e.blocks start (min len 65536), .inr rfl⟩
  | setTracksZeroPage on =>
    obtain ⟨⟨cpu, ⟨memory, blocks, deviceFrom⟩⟩, translator, runner, observer, host, paused,
      haltRequest⟩ := e
    unfold Act.apply
    dsimp only
    unfold Engine.setTracksZeroPage
    split
    · exact leads_of_shrinks h (.refl _) rfl (.inl rfl)
    · have same : Evolves M translator blocks (translator.setZeroPageCode on) blocks :=
        evolves_of_shrinks rfl rfl (.refl blocks)
      cases on with
      | true => exact ⟨⟨source, h.setZeroPageCode_on⟩, same.trans (evolves_flush _ _), .inr rfl⟩
      | false => exact ⟨⟨source, h.setZeroPageCode_off⟩, same, .inl rfl⟩

theorem leads_apply {change : Change M ω} (h : e.translator.Sound e.blocks source)
    (done : change.apply e = .ok e') : Leads e e' := by
  cases change with
  | act a =>
    cases done
    exact leads_act h a
  | edit x =>
    obtain ⟨⟨translator, blocks⟩, applied, is⟩ := bind_eq_ok.mp done
    cases is
    obtain ⟨sound, evolves⟩ := TableEdit.apply_sound h applied
    exact ⟨sound, evolves, .inl rfl⟩

theorem leads_applyAll {changes : List (Change M ω)} (h : e.translator.Sound e.blocks source)
    (done : applyAll e changes = .ok e') : Leads e e' := by
  induction changes generalizing e source with
  | nil =>
    cases done
    exact leads_of_shrinks h (.refl _) rfl (.inl rfl)
  | cons change changes ih =>
    rw [applyAll, List.foldlM_cons] at done
    obtain ⟨e₁, first, rest⟩ := bind_eq_ok.mp done
    have step := leads_apply h first
    obtain ⟨source₁, sound⟩ := step.sound
    exact step.trans (ih sound rest)

end Change

/-! The pause. -/

theorem Engine.validPause?_eq_some {M ω : Type} [GuestMemory M] {e : Engine M ω} {pos : Position}
    (valid : e.validPause? = some pos) :
    ∃ p, e.paused = some p ∧ p.pc = e.cpu.pc ∧ p.generation = e.translator.arena.generation ∧
      e.isIntact p.pos = true ∧ p.pos = pos := by
  unfold Engine.validPause? at valid
  split at valid
  · cases valid
  · next p paused =>
    split at valid
    · next still => exact ⟨p, paused, still.1, still.2.1, still.2.2, Option.some.inj valid⟩
    · cases valid

namespace Frame

variable {σ ω : Type} {f f' f₀ : Frame (PagedMemory σ) ω} {source : Addr → PagedMemory σ}
  {g : Spot (PagedMemory σ)}

structure PausesAt (f : Frame (PagedMemory σ) ω) (g : Spot (PagedMemory σ))
    (s : Stopped (PagedMemory σ) ω) (p : Pause) : Prop where
  result : s.result = .ok .countdown
  pause : p = ⟨g.record.addr, f.pos, f.engine.translator.arena.generation⟩
  live : f.engine.isIntact f.pos = true
  begins : g.done = []
  heads : g.record.startsRun = true
  translator : s.engine.translator = f.engine.translator
  blocks : s.engine.blocks = f.engine.blocks

theorem Stands.pauses (h : f.Stands g) {s : Stopped (PagedMemory σ) ω}
    (ok : f.turn = .ok (.stop s)) {p : Pause} (paused : s.engine.paused = some p) :
    f.PausesAt g s p := by
  cases stays : f.wayOut? with
  | some leave =>
    rw [h.turn_leaving stays] at ok
    unfold leaveStale at ok
    split at ok
    · cases ok
    · obtain ⟨_, _, done⟩ := bind_eq_ok.mp ok
      cases done
  | none =>
    obtain ⟨op, rest, todo⟩ := List.exists_cons_of_ne_nil h.inside.more
    rw [h.turn_running stays todo] at ok
    -- every other way to stop leaves no pause
    have only : s.engine.paused = none → f.PausesAt g s p := by
      intro none
      rw [none] at paused
      cases paused
    cases Frame.follow_spec ok with
    | bounce is bounced =>
      obtain ⟨left, left_at, step, cpu, bus, host, ran, ⟨why, _, done⟩ | ⟨_, _, _, done⟩⟩ :=
        Engine.bounce_eq_ok bounced
      · cases done
        exact only ((Engine.leaveAt_same left_at).2.trans h.unpaused)
      · cases done
    | leave is left_at => exact only ((Engine.leaveAt_same left_at).2.trans h.unpaused)
    | halt is asked => exact only (by rw [Engine.mapCpu_eq]; exact h.unpaused)
    | observed shown is _ _ _ same _ left_at =>
      exact only ((Engine.leaveAt_same left_at).2.trans (same.trans h.unpaused))
    | @pause addr cycles is =>
      have explained := (Native.framed_execOp op f.engine.core).explained
      rw [is] at explained
      obtain ⟨rfl, same⟩ := explained
      obtain ⟨addr_eq, begins, heads, _⟩ := h.at_countdown todo
      have live : f.engine.isIntact f.pos = true := by
        rcases h.wayOut_none stays with ⟨live, _⟩ | ⟨_, begun, _⟩
        · exact live
        · exact absurd begins begun
      rw [Engine.mapCpu_eq] at paused
      cases paused
      refine ⟨rfl, by rw [addr_eq], live, begins, heads, by rw [Engine.mapCpu_eq]; rfl, ?_⟩
      rw [Engine.mapCpu_eq]
      exact congrArg (·.bus.blocks) same

/-- What a pause that is still valid says, whatever was done to the engine since. -/
structure GoesOn (f : Frame (PagedMemory σ) ω) (s : Stopped (PagedMemory σ) ω)
    (changes : List (Change (PagedMemory σ) ω)) (e : Engine (PagedMemory σ) ω)
    (pos : Position) : Prop where
  result : s.result = .ok .countdown
  saved : pos = f.pos
  decoded : ∃ cycles len,
    e.translator.arena.decodeAt pos.ip = .ok (.uop (.countdown e.cpu.pc cycles), len)
  block : ∃ i : Image (PagedMemory σ), i.offset = pos.entry ∧
    f.engine.translator.Keeps f.engine.blocks pos.block i ∧
    pos.entry ≤ pos.ip ∧ pos.ip < pos.entry + i.size ∧
    ∀ before behind, changes = before ++ behind → ∃ e₁,
      Change.applyAll s.engine before = .ok e₁ ∧
      Unchanged pos.block pos.entry i.size f.engine.translator f.engine.blocks
        e₁.translator e₁.blocks

theorem goesOn (h : Phase.Orderly (.running f) source) {s : Stopped (PagedMemory σ) ω}
    (ok : f.turn = .ok (.stop s)) {changes : List (Change (PagedMemory σ) ω)}
    {e : Engine (PagedMemory σ) ω} (done : Change.applyAll s.engine changes = .ok e)
    {pos : Position} (valid : e.validPause? = some pos) : f.GoesOn s changes e pos := by
  obtain ⟨p, kept, pc, generation, intact, rfl⟩ := e.validPause?_eq_some valid
  obtain ⟨_, stopped, _⟩ : Phase.Orderly (.idle s.engine) source := orderly_turn h ok
  have sound : s.engine.translator.Sound s.engine.blocks source := stopped.sound
  obtain ⟨_, _, g, stands⟩ := h
  have paused : s.engine.paused = some p := by
    rcases (Change.leads_applyAll sound done).paused with same | gone
    · exact same.symm.trans kept
    · rw [gone] at kept
      cases kept
  obtain ⟨result, rfl, live, begins, heads, translator, blocks⟩ := stands.pauses ok paused
  have entered : f.engine.blocks.entryAt? f.pos.block = some g.image.offset := by
    rw [stands.offset]
    exact (f.engine.isIntact_iff f.pos).mp live
  have still : e.blocks.entryAt? f.pos.block = some g.image.offset := by
    rw [stands.offset]
    exact (e.isIntact_iff f.pos).mp intact
  have same : ∀ before behind, changes = before ++ behind → ∃ e₁,
      Change.applyAll s.engine before = .ok e₁ ∧
      e₁.translator.Keeps e₁.blocks f.pos.block g.image ∧
      Unchanged f.pos.block g.image.offset g.image.size f.engine.translator f.engine.blocks
        e₁.translator e₁.blocks := by
    rintro before behind rfl
    rw [Change.applyAll, List.foldlM_append] at done
    obtain ⟨e₁, first, second⟩ := bind_eq_ok.mp done
    have leads := Change.leads_applyAll sound first
    obtain ⟨source₁, sound₁⟩ := leads.sound
    have evolves := leads.evolves
    rw [translator, blocks] at evolves
    exact ⟨e₁, first, stands.keeps.unchanged entered evolves
      (Change.leads_applyAll sound₁ second).evolves generation.symm still⟩
  obtain ⟨rest, todo⟩ := stands.todo_head begins heads
  refine ⟨result, rfl, ?_, g.image, stands.offset, stands.keeps, ?_, ?_, ?_⟩
  · obtain ⟨e₁, first, keeps, _⟩ := same changes [] (by simp)
    cases done.symm.trans first
    rw [stands.ip, ← pc]
    exact ⟨_, _, stands.inside.decode keeps.stored todo⟩
  · rw [stands.ip, ← stands.offset]
    unfold Spot.ip Spot.entry
    omega
  · have below := stands.inside.ip_le_end
    have pos := Spot.codeAll_length_pos stands.inside.more
    rw [stands.ip, ← stands.offset]
    unfold Image.size
    omega
  · intro before behind split
    obtain ⟨e₁, first, _, unchanged⟩ := same before behind split
    rw [← stands.offset]
    exact ⟨e₁, first, unchanged⟩

/-! The running block. -/

def retires? (f : Frame (PagedMemory σ) ω) : Option Addr :=
  match f.wayOut?, f.engine.translator.arena.decodeAt f.pos.ip with
  | none, .ok (op, _) => Native.retired? op f.engine.cpu
  | _, _ => none

/-- `f` is come to from `f₀` within the block, over host instructions that retired the addresses. -/
inductive Within (f₀ : Frame (PagedMemory σ) ω) : Frame (PagedMemory σ) ω → List Addr → Prop
  | here : Within f₀ f₀ []
  | stay {f f' : Frame (PagedMemory σ) ω} {retired : List Addr} (before : Within f₀ f retired)
    (ok : f.turn = .ok (.stay f')) : Within f₀ f' (retired ++ f.retires?.toList)
  | signal {f : Frame (PagedMemory σ) ω} {retired : List Addr} (before : Within f₀ f retired)
    (haltRequest : UInt32) : Within f₀ { f with engine := { f.engine with haltRequest } } retired

theorem Advances.blocks (h : f.Stands g) (advances : f.Advances g f') :
    f'.engine.blocks = f.retires?.elim f.engine.blocks f.engine.blocks.retire := by
  obtain ⟨op, rest, todo, goes⟩ := advances.goes
  have retires : f.retires? = Native.retired? op f.engine.cpu := by
    unfold retires?
    rw [advances.stays, h.decode todo]
  rw [retires, Engine.blocks, goes.bus, Native.blocks_execOp]
  rfl

structure Retired (f₀ f : Frame (PagedMemory σ) ω) (retired : List Addr) : Prop where
  block : f.pos.block = f₀.pos.block
  entry : f.pos.entry = f₀.pos.entry
  ptr : ∀ x, f.engine.blocks.ptr? x = f₀.engine.blocks.ptr? x
  live : f.engine.blocks.entryAt? f₀.pos.block =
    if ∃ a ∈ retired, f₀.engine.blocks.owner? a = some f₀.pos.block then none
    else f₀.engine.blocks.entryAt? f₀.pos.block

theorem Retired.stay {retired : List Addr} (before : Retired f₀ f retired) (h : f.Stands g)
    (advances : f.Advances g f') : Retired f₀ f' (retired ++ f.retires?.toList) := by
  have blocks := advances.blocks h
  have offset : f'.pos.entry = f.pos.entry := by
    rw [← h.offset, ← advances.there.offset, g.image_next]
  refine ⟨advances.block.trans before.block, offset.trans before.entry, ?_, ?_⟩
  · intro x
    rw [blocks, ← before.ptr]
    cases f.retires? with
    | none => rfl
    | some a => exact f.engine.blocks.ptr?_retire a x
  · rw [blocks]
    cases retires : f.retires? with
    | none =>
      simp only [Option.elim_none, Option.toList_none, List.append_nil]
      exact before.live
    | some a =>
      have owner : f.engine.blocks.owner? a = f₀.engine.blocks.owner? a := by
        rw [BlockMap.owner?, BlockMap.owner?, before.ptr]
      simp only [Option.elim_some, Option.toList_some, BlockMap.entryAt?_retire, owner, before.live,
        List.mem_append, List.mem_singleton, or_and_right, exists_or, exists_eq_left]
      by_cases now : f₀.engine.blocks.owner? a = some f₀.pos.block
      · simp [now]
      · simp [now]

theorem Within.retired {retired : List Addr} (h : Within f₀ f retired)
    (orderly : Phase.Orderly (.running f₀) source) :
    Phase.Orderly (.running f) source ∧ Retired f₀ f retired := by
  induction h with
  | here => exact ⟨orderly, rfl, rfl, fun _ => rfl, by simp⟩
  | stay before ok ih =>
    obtain ⟨there, retired⟩ := ih
    obtain ⟨onBus, consistent, g, stands⟩ := there
    rcases stands.turn_spec consistent onBus ok with ⟨f', is, advances, _⟩ | rests
    · cases is
      exact ⟨orderly_turn ⟨onBus, consistent, g, stands⟩ ok, retired.stay stands advances⟩
    · exact rests.elim
  | signal before haltRequest ih =>
    obtain ⟨⟨onBus, consistent, g, stands⟩, retired⟩ := ih
    exact ⟨⟨onBus, consistent.of_same rfl rfl (.inl rfl), g, stands.signal haltRequest⟩,
      retired.block, retired.entry, retired.ptr, retired.live⟩

/-- The running block is found gone exactly when an address that leads to it was retired. -/
theorem Retired.stale_iff {retired : List Addr} (h : Retired f₀ f retired)
    (live : f₀.engine.isIntact f₀.pos = true) :
    f.engine.isIntact f.pos = false ↔
      ∃ a ∈ retired, f₀.engine.blocks.owner? a = some f₀.pos.block := by
  have entered := (f₀.engine.isIntact_iff f₀.pos).mp live
  have now := h.live
  rw [entered] at now
  rw [← Bool.not_eq_true, Engine.isIntact_iff, h.block, h.entry, now]
  split
  · next gone => simp [gone]
  · next stays => simp [stays]

end Frame

namespace Engine

variable {σ ω : Type}

inductive Enters (e₀ : Engine (PagedMemory σ) ω) : Frame (PagedMemory σ) ω → Prop
  | start {e : Engine (PagedMemory σ) ω} {f : Frame (PagedMemory σ) ω}
    {source : Addr → PagedMemory σ} (before : e₀.Reaches (.idle e) source) (ok : e.start = .ok f) :
    Enters e₀ f
  | go {f : Frame (PagedMemory σ) ω} {e e' : Engine (PagedMemory σ) ω} {target : Addr}
    {pos : Position} {source : Addr → PagedMemory σ} (before : e₀.Reaches (.running f) source)
    (ok : f.turn = .ok (.go e target)) (located : e.locate target = .ok (pos, e')) :
    Enters e₀ ⟨e', pos, none⟩

theorem Enters.intact {e₀ : Engine (PagedMemory σ) ω} {f : Frame (PagedMemory σ) ω}
    (h : e₀.Enters f) (initially : ∀ source, Phase.Orderly (.idle e₀) source) :
    (∃ source, Phase.Orderly (.running f) source) ∧ f.engine.isIntact f.pos = true := by
  cases h with
  | start before ok =>
    have orderly := before.orderly initially
    obtain ⟨_, g, begun, _⟩ := Consistent.start orderly.2.1 ok
    exact ⟨⟨_, orderly_start orderly ok⟩, begun.live⟩
  | go before ok located =>
    obtain ⟨orderly, unpaused⟩ := Frame.orderly_turn (before.orderly initially) ok
    obtain ⟨g, begun, _⟩ := Consistent.enter orderly.2.1 unpaused located
    exact ⟨⟨_, Frame.orderly_locate orderly unpaused located⟩, begun.live⟩

/-- Blocks are not mistaken for one another. Whatever is done to the tables, a start that has the
same entry in the same generation has the same block. So a pause that is still valid is at the
countdown in front of the program counter, in the block it was made in, and a block that is being
executed is found gone if and only if an address that leads to it was retired. -/
theorem remembers_blocks {config : Config} {memory : PagedMemory σ}
    {runner : InstructionRunner (PagedMemory σ) ω} {host : ω} {e₀ : Engine (PagedMemory σ) ω}
    (made : create memory config runner host = .ok e₀) (onBus : runner.OnBus) :
    (∀ (t t' : Translator) (b b' : BlockMap) (source : Addr → PagedMemory σ)
        (edits : List (TableEdit (PagedMemory σ))) (s : Addr) (entry : Nat),
      Reached t b source → TableEdit.applyAll t b edits = .ok (t', b') →
      b.entryAt? s = some entry → b'.entryAt? s = some entry →
      t'.arena.generation = t.arena.generation → t.Lasts b source edits s entry) ∧
    (∀ (f : Frame (PagedMemory σ) ω) (source : Addr → PagedMemory σ)
        (s : Stopped (PagedMemory σ) ω) (changes : List (Change (PagedMemory σ) ω))
        (e : Engine (PagedMemory σ) ω) (pos : Position),
      e₀.Reaches (.running f) source → f.turn = .ok (.stop s) →
      Change.applyAll s.engine changes = .ok e → e.validPause? = some pos →
      f.GoesOn s changes e pos) ∧
    (∀ (f₀ f : Frame (PagedMemory σ) ω) (retired : List Addr),
      e₀.Enters f₀ → f₀.Within f retired →
      f.pos.block = f₀.pos.block ∧ f.pos.entry = f₀.pos.entry ∧
        (f.engine.isIntact f.pos = false ↔
          ∃ a ∈ retired, f₀.engine.blocks.owner? a = some f₀.pos.block)) := by
  have initially := orderly_create onBus made
  refine ⟨?_, ?_, ?_⟩
  · intro t t' b b' source edits s entry reached done live still generation
    exact reached.sound.lasts done live still generation
  · intro f source s changes e pos reached stopped done valid
    exact Frame.goesOn (reached.orderly initially) stopped done valid
  · intro f₀ f retired entered within
    obtain ⟨⟨source, orderly⟩, live⟩ := entered.intact initially
    have run := (within.retired orderly).2
    exact ⟨run.block, run.entry, run.stale_iff live⟩

/-- Other code is retired and compiled while a run is paused, and the line is raised. -/
def elsewhere : List (Change (PagedMemory Unit) Unit) :=
  [.act (.retire 0x1000), .edit (.compile .blank 0x2000), .act (.holdIrq true)]

def pausesElsewhere (e : Engine (PagedMemory Unit) Unit) : Bool :=
  match e.start with
  | .error _ => false
  | .ok f =>
    match f.turn with
    | .ok (.stop s) =>
      match Change.applyAll s.engine elsewhere with
      | .ok e => e.validPause?.isSome
      | .error _ => false
    | _ => false

theorem exists_pausesElsewhere {e : Engine (PagedMemory Unit) Unit}
    (h : e.pausesElsewhere = true) :
    ∃ f s e' pos, e.start = .ok f ∧ f.turn = .ok (.stop s) ∧
      Change.applyAll s.engine elsewhere = .ok e' ∧ e'.validPause? = some pos := by
  unfold pausesElsewhere at h
  split at h
  · cases h
  · next f start =>
    split at h
    · next s turn =>
      split at h
      · next e' done =>
        obtain ⟨pos, valid⟩ := Option.isSome_iff_exists.mp h
        exact ⟨f, s, e', pos, start, turn, done, valid⟩
      · cases h
    · cases h

theorem remembers_blocks_elsewhere : ∃ (e₀ e : Engine (PagedMemory Unit) Unit)
    (f : Frame (PagedMemory Unit) Unit) (s : Stopped (PagedMemory Unit) Unit) (pos : Position),
    create .blank { arenaSize := 1024, windowSize := 256 } referenceRunner () = .ok e₀ ∧
      (e₀.aim 0 5).start = .ok f ∧ f.turn = .ok (.stop s) ∧
      Change.applyAll s.engine elsewhere = .ok e ∧ e.validPause? = some pos ∧
      f.GoesOn s elsewhere e pos := by
  have facts : ((create (.blank : PagedMemory Unit) { arenaSize := 1024, windowSize := 256 }
      referenceRunner ()).toOption.map fun e => (e.aim 0 5).pausesElsewhere) = some true := by
    decide +kernel
  obtain ⟨e₀, made, facts⟩ := exists_ok_of_map facts
  obtain ⟨f, s, e, pos, start, turn, done, valid⟩ :=
    exists_pausesElsewhere facts
  have running := ((Reaches.here fun _ => .blank).act (.aim 0 5)).start start
  exact ⟨e₀, e, f, s, pos, made, start, turn, done, valid,
    (remembers_blocks made referenceRunner_onBus).2.1 f _ s _ e pos running turn done valid⟩

end Engine

end Mos6502
