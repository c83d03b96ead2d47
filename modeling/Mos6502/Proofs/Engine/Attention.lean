import Mos6502.Proofs.Engine.Reach
import Mos6502.Proofs.Engine.Resume
import Mos6502.Proofs.Engine.Visits
import Mos6502.Proofs.Native.Attentive

/-! No interrupt waits for an instruction. Compiled code never asks for interrupts: where it would
clear the mask while the line is held, it leaves the instruction to the interpreter, behind which
the interrupt is taken. So nothing is due at any instruction, whatever became of memory. -/
namespace Mos6502

open Record

theorem Native.Continues.heeds {M : Type} {out : Outcome} {c d : Core M}
    (h : Native.Continues out c d) : c.cpu.Heeds d.cpu := by
  cases h with
  | next | stale | unobserved => exact .refl _
  | charge | observed => exact ⟨rfl, fun _ was => was⟩

namespace Engine

variable {M ω : Type}

theorem heeds_leaveAt {e left : Engine M ω} {addr : Addr} (ok : e.leaveAt addr = .ok left) :
    e.cpu.Heeds left.cpu := by
  obtain ⟨budget, _, rfl⟩ := leaveAt_eq_ok ok
  rw [mapCpu_eq]
  exact ⟨rfl, fun _ was => was⟩

/-- The runner is given the instruction at `addr` with no interrupt due, and leaves `e'` behind. -/
def Interprets (e : Engine M ω) (addr : Addr) (step : Step) (e' : Engine M ω) : Prop :=
  ∃ left, e.leaveAt addr = .ok left ∧ left.cpu.interruptDue = false ∧ ∃ cpu bus host,
    left.runner left.host left.core.cpu left.core.bus = ((step, cpu), bus, host) ∧
      e' = { left with core := ⟨cpu, bus⟩, host }

end Engine

def InstructionRunner.ExitsQuietly {M ω : Type} (runner : InstructionRunner M ω) : Prop :=
  ∀ host cpu bus why, (runner host cpu bus).1.1.exit = some why → cpu.interruptDue = false →
    (runner host cpu bus).1.2.interruptDue = false

namespace Frame

variable {σ ω : Type}

inductive Heeded (f : Frame (PagedMemory σ) ω) : Turn (PagedMemory σ) ω → Prop
  | compiled {t : Turn (PagedMemory σ) ω} (heeds : f.engine.cpu.Heeds t.engine.cpu) : Heeded f t
  | completed {addr : Addr} {step : Step} {e' after : Engine (PagedMemory σ) ω}
    (interprets : f.engine.Interprets addr step e') (completes : step.exit = none)
    (is : after = (e'.mapCpu fun c => { c with budget := c.budget - step.cycles }).answerIrq) :
    Heeded f (.go after after.cpu.pc)
  | exited {addr : Addr} {step : Step} {e' : Engine (PagedMemory σ) ω} {why : Stop}
    (interprets : f.engine.Interprets addr step e') (exits : step.exit = some why) :
    Heeded f (.stop ⟨e', why.result addr⟩)

variable {f : Frame (PagedMemory σ) ω} {source : Addr → PagedMemory σ} {g : Spot (PagedMemory σ)}

theorem Heeded.quiet {t : Turn (PagedMemory σ) ω} (h : f.Heeded t)
    (was : f.engine.cpu.interruptDue = false) (exits : f.engine.runner.ExitsQuietly ∨ ∀ s, t ≠ .stop s) :
    t.engine.cpu.interruptDue = false := by
  cases h with
  | compiled heeds => exact heeds.quiet was
  | completed interprets completes is =>
    dsimp only [Turn.engine]
    rw [is]
    exact Engine.quiet_answerIrq _
  | exited interprets exit =>
    obtain ⟨left, left_at, quiet, cpu, bus, host, ran, rfl⟩ := interprets
    have quietly := exits.resolve_right fun going => going _ rfl
    have after := quietly left.host left.core.cpu left.core.bus
    rw [← (Engine.sameSetup_leaveAt left_at).runner, ran] at after
    exact after _ exit quiet

/-- The frame stands at its place, nothing is due, and what is left of the instruction is
attentive. -/
structure Attends (f : Frame (PagedMemory σ) ω) (g : Spot (PagedMemory σ)) : Prop
    extends f.Stands g where
  quiet : f.engine.cpu.interruptDue = false
  attentive : Native.Attentive g.todo f.engine.core

theorem Begins.attends (h : f.Begins source g) (quiet : f.engine.cpu.interruptDue = false) :
    f.Attends g where
  toStands := h.toStands
  quiet := quiet
  attentive := by
    have code := h.inside.code
    rw [h.begins, List.nil_append] at code
    rw [← code]
    exact h.inside.lowered.attentive g.post f.engine.core

theorem Followed.heeded {e : Engine (PagedMemory σ) ω} {pos : Position} {len : Nat}
    {leaveAt : Option LeavePoint} {out : Outcome} {t : Turn (PagedMemory σ) ω}
    (h : Followed e pos len leaveAt out t) (native : ∀ addr, out ≠ .bounce addr) :
    e.cpu.Heeds t.engine.cpu := by
  cases h with
  | stay goes e' core =>
    dsimp only [Turn.engine, Engine.cpu]
    rw [core]
    exact goes.heeds
  | jump => exact .refl _
  | bounce is => exact absurd is (native _)
  | leave _ left_at => exact Engine.heeds_leaveAt left_at
  | halt | pause =>
    dsimp only [Turn.engine]
    rw [Engine.mapCpu_eq]
    exact ⟨rfl, fun _ was => was⟩
  | observed shown _ _ core _ _ _ left_at =>
    have after := Engine.heeds_leaveAt left_at
    rw [Engine.cpu, core] at after
    exact ⟨after.irq, after.masked⟩

theorem Attends.heeded (h : f.Attends g) {t : Turn (PagedMemory σ) ω} (ok : f.turn = .ok t) :
    f.Heeded t := by
  cases stays : f.wayOut? with
  | some p =>
    refine .compiled ?_
    rw [h.turn_leaving stays] at ok
    unfold leaveStale at ok
    split at ok
    · cases ok
      exact .refl _
    · obtain ⟨_, _, done⟩ := bind_eq_ok.mp ok
      cases done
      dsimp only [Turn.engine]
      rw [Engine.mapCpu_eq]
      exact ⟨rfl, fun _ was => was⟩
  | none =>
    obtain ⟨op, rest, todo⟩ := List.exists_cons_of_ne_nil h.inside.more
    rw [h.turn_running stays todo] at ok
    have followed := follow_spec ok
    have attentive := h.attentive
    rw [todo] at attentive
    have here : f.engine.cpu.Heeds (Native.execOp op f.engine.core).2.cpu := attentive.1
    by_cases bounces : ∃ addr, (Native.execOp op f.engine.core).1 = .bounce addr
    · obtain ⟨addr, bounces⟩ := bounces
      -- Nothing has happened in the instruction that is left to the interpreter.
      have explained := (Native.framed_execOp op f.engine.core).explained
      rw [bounces] at explained ok
      have ran : f.engine.bounce addr = .ok t := by
        rw [explained.2] at ok
        exact ok
      obtain ⟨left, left_at, step, cpu, bus, host, ran, out⟩ := Engine.bounce_eq_ok ran
      have interprets : f.engine.Interprets addr step { left with core := ⟨cpu, bus⟩, host } :=
        ⟨left, left_at, (Engine.heeds_leaveAt left_at).quiet h.quiet, cpu, bus, host, ran, rfl⟩
      rcases out with ⟨why, exits, rfl⟩ | ⟨completes, after, is, rfl⟩
      · exact .exited interprets exits
      · exact .completed interprets completes is
    · have native := followed.heeded fun addr is => bounces ⟨addr, is⟩
      exact .compiled (here.trans native)

theorem Attends.stay (h : f.Attends g) {f' : Frame (PagedMemory σ) ω}
    (consistent : f.engine.Consistent source) (onBus : f.engine.runner.OnBus)
    (ok : f.turn = .ok (.stay f')) : f'.Attends g.next := by
  rcases h.toStands.turn_spec consistent onBus ok with ⟨_, is, advances, _⟩ | rests
  · cases is
    refine ⟨advances.there, ?_, ?_⟩
    · exact (h.heeded ok).quiet h.quiet (.inr fun _ => nofun)
    · exact advances.along_next h.toStands (fun lowered post c => lowered.attentive post c)
        h.attentive
  · exact rests.elim

def StopsWith (f : Frame (PagedMemory σ) ω) (cpu : Cpu) (memory : PagedMemory σ) : Prop :=
  ∀ s, f.turn = .ok (.stop s) → s.engine.cpu = cpu ∧ s.engine.memory = memory

theorem Stands.stopsWith (h : f.Stands g) (begins : g.done = []) (heads : g.record.startsRun = true)
    (stays : f.wayOut? = none) :
    f.StopsWith { f.engine.cpu with pc := g.record.addr } f.engine.memory := by
  intro s stop
  obtain ⟨len, turn⟩ := h.turn_head stays begins heads
  rw [turn] at stop
  unfold charge at stop
  split at stop
  · cases stop
    rw [Engine.mapCpu_eq]
    exact ⟨rfl, rfl⟩
  · split at stop
    · cases stop
      rw [Engine.mapCpu_eq]
      exact ⟨rfl, rfl⟩
    · cases stop

end Frame

def Phase.Attends {σ ω : Type} : Phase (PagedMemory σ) ω → Prop
  | .idle _ => True
  | .running f => ∃ g, f.Attends g

namespace Engine

variable {σ ω : Type} {e₀ e : Engine (PagedMemory σ) ω} {source : Addr → PagedMemory σ}
  {phase : Phase (PagedMemory σ) ω}

theorem Reaches.attends (h : e₀.Reaches phase source)
    (initially : ∀ source, Phase.Orderly (.idle e₀) source) : phase.Attends := by
  induction h with
  | here | act | stop => trivial
  | start before ok =>
    have consistent := (before.orderly initially).2.1
    obtain ⟨_, g, begun, _⟩ := Consistent.start consistent ok
    refine ⟨g, begun.attends ?_⟩
    rw [(Consistent.start_core consistent ok).1]
    exact answered_quiet _
  | stay before ok ih =>
    obtain ⟨g, attends⟩ := ih
    obtain ⟨onBus, consistent, _⟩ := before.orderly initially
    exact ⟨g.next, attends.stay consistent onBus ok⟩
  | go before ok located ih =>
    obtain ⟨g, attends⟩ := ih
    obtain ⟨⟨_, consistent, _⟩, unpaused⟩ := Frame.orderly_turn (before.orderly initially) ok
    obtain ⟨g', begun, _⟩ := Consistent.enter consistent unpaused located
    have quiet := (attends.heeded ok).quiet attends.quiet (.inr fun _ => nofun)
    refine ⟨g', begun.attends ?_⟩
    rw [(Consistent.locate consistent unpaused located).2.cpu]
    exact quiet
  | signal _ haltRequest ih =>
    obtain ⟨g, attends⟩ := ih
    exact ⟨g, attends.toStands.signal haltRequest, attends.quiet, attends.attentive⟩

theorem Reaches.quiet_visits {f : Frame (PagedMemory σ) ω} (h : e₀.Reaches (.running f) source)
    (initially : ∀ source, Phase.Orderly (.idle e₀) source) (fuel : Nat) :
    ∀ m ∈ f.visits fuel, m.cpu.interruptDue = false := by
  induction fuel generalizing f source with
  | zero => exact fun _ none => nomatch none
  | succ fuel ih =>
    obtain ⟨g, attends⟩ := h.attends initially
    intro m mem
    unfold Frame.visits at mem
    rcases List.mem_append.mp mem with here | later
    · obtain ⟨a, _, rfl⟩ := Option.map_eq_some_iff.mp (Option.mem_toList.mp here)
      exact attends.quiet
    · split at later
      · next f' step =>
        obtain ⟨source', there⟩ := h.step step
        exact ih there m later
      · cases later

/-- A run takes a pending interrupt first. It starts no instruction with one due, and leaves none
due when it returns. -/
structure Responds (e : Engine (PagedMemory σ) ω) : Prop where
  starts : ∃ f, e.start = .ok f ∧ f.engine.cpu = e.answered.cpu ∧
    f.engine.memory = e.answered.memory ∧ f.StopsWith e.answered.cpu e.answered.memory
  visits : ∀ fuel, ∀ m ∈ e.visits fuel, m.cpu.interruptDue = false
  returns : e.runner.ExitsQuietly → ∀ fuel s, e.run fuel = .ok (.stopped s) →
    s.engine.cpu.interruptDue = false

theorem Reaches.responds (h : e₀.Reaches (.idle e) source)
    (initially : ∀ source, Phase.Orderly (.idle e₀) source) : e.Responds := by
  have consistent : e.Consistent source := (h.orderly initially).2.1
  obtain ⟨f, start⟩ := consistent.start_ok
  obtain ⟨cpu, memory⟩ := consistent.start_core start
  obtain ⟨_, g, begun, addr, heads⟩ := consistent.start start
  have running := h.start start
  refine ⟨⟨f, start, cpu, memory, ?_⟩, ?_, ?_⟩
  · have stays : f.wayOut? = none := by
      unfold Frame.wayOut?
      rw [start_leaveAt start]
      rfl
    have stops := begun.stopsWith begun.begins heads stays
    rw [addr, cpu, memory] at stops
    exact stops
  · intro fuel
    unfold Engine.visits
    rw [start]
    exact running.quiet_visits initially fuel
  · intro quietly fuel s run
    obtain ⟨f₁, start₁, ran⟩ := bind_eq_ok.mp run
    cases start.symm.trans start₁
    obtain ⟨f', source', there, turn⟩ := running.last ran
    obtain ⟨g', attends⟩ := there.attends initially
    refine (attends.heeded turn).quiet attends.quiet (.inl ?_)
    have same : f'.engine.runner = e.runner := there.runner.trans h.runner.symm
    rw [same]
    exact quietly

end Engine

/-- Nothing is due while the frame runs. What its turn lets through is taken within the turn, and
if the run ends where the turn leads to, it ends with what the interrupt has done. -/
structure Frame.Responds {σ ω : Type} (f : Frame (PagedMemory σ) ω) : Prop where
  quiet : f.engine.cpu.interruptDue = false
  heeded : ∀ t, f.turn = .ok t → f.Heeded t
  enters : ∀ e target pos e', f.turn = .ok (.go e target) → e.locate target = .ok (pos, e') →
    Frame.StopsWith ⟨e', pos, none⟩ { e.cpu with pc := target } e.memory

def Phase.Responds {σ ω : Type} : Phase (PagedMemory σ) ω → Prop
  | .idle e => e.Responds
  | .running f => f.Responds

namespace Engine

variable {σ ω : Type} {e₀ : Engine (PagedMemory σ) ω} {source : Addr → PagedMemory σ}

theorem Reaches.respondsFrame {f : Frame (PagedMemory σ) ω} (h : e₀.Reaches (.running f) source)
    (initially : ∀ source, Phase.Orderly (.idle e₀) source) : f.Responds := by
  obtain ⟨g, attends⟩ := h.attends initially
  refine ⟨attends.quiet, fun t ok => attends.heeded ok, ?_⟩
  intro e target pos e' turn located
  obtain ⟨⟨_, consistent, _⟩, unpaused⟩ := Frame.orderly_turn (h.orderly initially) turn
  obtain ⟨g', begun, first, addr⟩ := Consistent.enter consistent unpaused located
  have same := (Consistent.locate consistent unpaused located).2
  have shape := begun.inside.block.shape
  rw [begun.inside.records, first] at shape
  have stops := begun.stopsWith begun.begins shape.2.2.1 rfl
  rw [addr] at stops
  change Frame.StopsWith ⟨e', pos, none⟩ { e'.cpu with pc := target } e'.memory at stops
  rw [same.cpu, same.memory] at stops
  exact stops

/-- No interrupt waits. Whatever an engine can come to, a run takes a pending interrupt before it
starts an instruction, and an instruction that lets one through is followed by it at once. -/
theorem interrupts_never_wait {config : Config} {memory : PagedMemory σ}
    {runner : InstructionRunner (PagedMemory σ) ω} {host : ω} (made :
      create memory config runner host = .ok e₀) (onBus : runner.OnBus)
    {phase : Phase (PagedMemory σ) ω} (reached : e₀.Reaches phase source) : phase.Responds := by
  have initially := orderly_create onBus made
  cases phase with
  | idle e => exact reached.responds initially
  | running f => exact reached.respondsFrame initially

end Engine

theorem referenceRunner_exitsQuietly {M ω : Type} [GuestMemory M] :
    (referenceRunner : InstructionRunner M ω).ExitsQuietly := by
  intro host cpu bus why exit quiet
  have same : (Interpreter.step cpu bus).1.2 = cpu := Machine.step_exit exit
  change (Interpreter.step cpu bus).1.2.interruptDue = false
  rw [same]
  exact quiet

namespace Engine

def held (e : Engine (PagedMemory Unit) Unit) : Engine (PagedMemory Unit) Unit :=
  ((e.modifyCpu (·.setMasked true)).holdIrq true).aim 0 10

def takesHeld (e : Engine (PagedMemory Unit) Unit) : Bool :=
  match e.held.start with
  | .error _ => false
  | .ok f =>
    match f.turn with
    | .ok (.stay f) =>
      match f.turn with
      | .ok (.go e _) => f.engine.cpu.s == 0 && e.cpu.s == 0xFD
      | _ => false
    | _ => false

theorem exists_takesHeld {e : Engine (PagedMemory Unit) Unit} (h : e.takesHeld = true) :
    ∃ f f' e' target, e.held.start = .ok f ∧ f.turn = .ok (.stay f') ∧
      f'.turn = .ok (.go e' target) ∧ f'.engine.cpu.s = 0 ∧ e'.cpu.s = 0xFD := by
  unfold takesHeld at h
  split at h
  · cases h
  · next f start =>
    split at h
    · next f' first =>
      split at h
      · next e' target second =>
        simp only [Bool.and_eq_true, beq_iff_eq] at h
        exact ⟨f, f', e', target, start, first, second, h⟩
      · cases h
    · cases h

/-- The mask is cleared while the line is held: three bytes are pushed within the same turn. -/
theorem interrupts_never_wait_unmasking : ∃ (e₀ e : Engine (PagedMemory Unit) Unit)
    (f : Frame (PagedMemory Unit) Unit) (target : Addr),
    create (PagedMemory.blank.load 0 [0x58]) { arenaSize := 256, windowSize := 256 }
        referenceRunner () = .ok e₀ ∧
      (∃ source, e₀.Reaches (.running f) source) ∧ f.turn = .ok (.go e target) ∧
      f.engine.cpu.s = 0 ∧ e.cpu.s = 0xFD ∧ e.cpu.interruptDue = false ∧ f.Responds ∧
      ∀ fuel s, e₀.held.run fuel = .ok (.stopped s) → s.engine.cpu.interruptDue = false := by
  have facts : ((create (PagedMemory.blank.load 0 [0x58]) { arenaSize := 256, windowSize := 256 }
      referenceRunner ()).toOption.map takesHeld) = some true := by
    decide +kernel
  obtain ⟨e₀, made, facts⟩ := exists_ok_of_map facts
  obtain ⟨f₀, f, e, target, start, first, second, before, after⟩ :=
    exists_takesHeld facts
  have created : e₀.Reaches (.idle e₀) fun _ => .blank := .here _
  have masked := (created.act (.modifyCpu (·.setMasked true))).act (.holdIrq true)
  have held := masked.act (.aim 0 10)
  have running := (held.start start).stay first
  have responds : f.Responds := interrupts_never_wait made referenceRunner_onBus running
  have quiet := (responds.heeded _ second).quiet responds.quiet (.inr fun _ => nofun)
  have idle : e₀.held.Responds := interrupts_never_wait made referenceRunner_onBus held
  have runner : e₀.held.runner = referenceRunner := held.runner.trans (runner_create made)
  refine ⟨e₀, e, f, target, made, ⟨_, running⟩, second, before, after, quiet, responds, ?_⟩
  refine idle.returns ?_
  rw [runner]
  exact referenceRunner_exitsQuietly

end Engine

end Mos6502
