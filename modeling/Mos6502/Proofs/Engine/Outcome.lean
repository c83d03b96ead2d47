import Mos6502.Proofs.Engine.Turn
import Mos6502.Proofs.Engine.Works

/-! All that a turn can come to while an instruction is in progress. -/
namespace Mos6502

open Record

variable {σ ω : Type}

namespace Engine

def timed (e : Engine (PagedMemory σ) ω) : Bool :=
  e.translator.settings.options.exactTimings

def machine (e : Engine (PagedMemory σ) ω) : Machine σ :=
  e.core.machine e.cpu.pc

/-- A run that goes on at an address of the program is at a machine where nothing is due. -/
structure Arrives (e : Engine (PagedMemory σ) ω) : Prop where
  low : e.memory.LowPlain
  quiet : e.cpu.interruptDue = false

theorem answerIrq_quiet {e : Engine (PagedMemory σ) ω} (quiet : e.cpu.interruptDue = false) :
    e.answerIrq = e := by
  obtain ⟨⟨cpu, bus⟩, translator, runner, observer, host, paused, haltRequest⟩ := e
  unfold answerIrq
  dsimp only
  generalize Interpreter.interrupt cpu bus = done
  obtain ⟨⟨n, after⟩, bus'⟩ := done
  exact if_neg fun due => Bool.false_ne_true (quiet.symm.trans due)

theorem quiet_answerIrq (e : Engine (PagedMemory σ) ω) : e.answerIrq.cpu.interruptDue = false := by
  cases due : e.cpu.interruptDue with
  | false =>
    rw [answerIrq_quiet due]
    exact due
  | true =>
    have quiet := Machine.quiet_interrupt e.cpu e.core.bus
    generalize taken : Interpreter.interrupt e.cpu e.core.bus = done at quiet
    obtain ⟨⟨n, after⟩, bus⟩ := done
    rw [answerIrq_eq due taken]
    exact quiet

theorem answerIrq_due {e : Engine (PagedMemory σ) ω} (fits : e.core.bus.Fits)
    (due : e.cpu.interruptDue = true) :
    e.answerIrq.machine = e.machine.step.2 ∧
      e.answerIrq.cpu.budget + Interpreter.interruptCycles = e.cpu.budget ∧
      e.answerIrq.cpu.interruptDue = false ∧ e.answerIrq.memory.pages = e.memory.pages := by
  obtain ⟨⟨⟨n, after⟩, bus⟩, taken⟩ : ∃ done, Interpreter.interrupt e.cpu e.core.bus = done :=
    ⟨_, rfl⟩
  have device := CodeBus.uniform_onDevice (Interpreter.uniform_interrupt e.cpu) fits
  have guest := Interpreter.interrupt_guest e.cpu (⟨e.memory⟩ : DeviceBus (PagedMemory σ))
  have follows : e.core.bus.Follows false (Interpreter.interrupt e.cpu e.core.bus).2 :=
    CodeBus.follows_uniform (Interpreter.uniform_interrupt e.cpu) e.core.bus
  have quiet := Machine.quiet_interrupt e.cpu e.core.bus
  have here : e.machine = ⟨e.cpu.guest, e.memory⟩ := rfl
  have step : (Machine.step (⟨e.cpu.guest, e.memory⟩ : Machine σ)).2 = ⟨after.guest, bus.memory⟩ := by
    have due : (⟨e.cpu.guest, e.memory⟩ : Machine σ).cpu.interruptDue = true := due
    have device : Interpreter.interrupt e.cpu (⟨e.memory⟩ : DeviceBus (PagedMemory σ)) = _ := device
    rw [Machine.step_due due, guest, device, taken]
    rfl
  have paid := answerIrq_budget due
  rw [taken] at follows quiet
  rw [answerIrq_eq due taken] at paid ⊢
  rw [here, step]
  exact ⟨rfl, paid, quiet, follows.pages⟩

theorem report_onBus {cpu : Cpu} {bus : CodeBus (PagedMemory σ)} (fits : bus.Fits) :
    Machine.report (⟨cpu.guest, bus.memory⟩ : Machine σ) = (Interpreter.step cpu bus).1.1 := by
  have device := CodeBus.uniform_onDevice (Interpreter.uniform_step cpu) fits
  have guest := Interpreter.step_guest cpu (⟨bus.memory⟩ : DeviceBus (PagedMemory σ))
  unfold Machine.report
  rw [guest, device]
  rfl

/-- The interpreter on the bus of an engine is a step of the machine. -/
theorem step_onBus {cpu : Cpu} {bus : CodeBus (PagedMemory σ)} (fits : bus.Fits)
    (quiet : cpu.interruptDue = false) {step : Step} {after : Cpu} {bus' : CodeBus (PagedMemory σ)}
    (ran : Interpreter.step cpu bus = ((step, after), bus')) :
    Machine.step (⟨cpu.guest, bus.memory⟩ : Machine σ) = (step, ⟨after.guest, bus'.memory⟩) ∧
      Machine.report (⟨cpu.guest, bus.memory⟩ : Machine σ) = step ∧
      after.budget = cpu.budget ∧ bus'.Fits ∧ bus'.memory.pages = bus.memory.pages := by
  have device := CodeBus.uniform_onDevice (Interpreter.uniform_step cpu) fits
  have guest := Interpreter.step_guest cpu (⟨bus.memory⟩ : DeviceBus (PagedMemory σ))
  have follows : bus.Follows false (Interpreter.step cpu bus).2 :=
    CodeBus.follows_uniform (Interpreter.uniform_step cpu) bus
  have budget := Interpreter.step_budget cpu bus
  rw [ran] at device follows budget
  have quiet : (⟨cpu.guest, bus.memory⟩ : Machine σ).cpu.interruptDue = false := quiet
  refine ⟨?_, ?_, budget, fits.of_pages follows.threshold follows.pages, follows.pages⟩
  · rw [Machine.step_quiet quiet, guest, device]
    rfl
  · rw [report_onBus fits, ran]

/-- Behind a step that completes, a pending interrupt is taken as a step of its own. -/
theorem answerIrq_passes {s : Machine σ} {e : Engine (PagedMemory σ) ω} (fits : e.core.bus.Fits)
    (low : e.memory.LowPlain) (quiet : s.cpu.interruptDue = false)
    (completes : s.report.exit = none) (here : s.step.2 = e.machine) :
    ∃ n, e.answerIrq.Arrives ∧ s.Passes n e.answerIrq.machine ∧
      s.interrupts n = (if s.step.2.cpu.interruptDue then 1 else 0) ∧
      e.answerIrq.cpu.budget + Interpreter.interruptCycles * s.interrupts n = e.cpu.budget := by
  have asked : s.step.2.cpu.interruptDue = e.cpu.interruptDue := by
    rw [here]
    rfl
  cases due : e.cpu.interruptDue with
  | false =>
    obtain ⟨passes, none⟩ := Machine.passes_one quiet completes
    rw [here] at passes
    rw [answerIrq_quiet due, asked, due]
    refine ⟨1, ⟨low, due⟩, passes, none, ?_⟩
    rw [none]
    exact Int.add_zero _
  | true =>
    obtain ⟨lands, less, quiet', pages⟩ := answerIrq_due fits due
    obtain ⟨passes, once⟩ := Machine.passes_two quiet completes (asked.trans due)
    rw [here, ← lands] at passes
    rw [asked, due]
    refine ⟨2, ⟨low.of_pages pages, quiet'⟩, passes, once, ?_⟩
    rw [once]
    exact less

theorem bounce_machine {e : Engine (PagedMemory σ) ω} {addr : Addr} {out : Turn (PagedMemory σ) ω}
    (fits : e.core.bus.Fits) (low : e.memory.LowPlain) (runner : e.runner = referenceRunner)
    (quiet : e.cpu.interruptDue = false) (ok : e.bounce addr = .ok out) :
    ∃ budget, e.translator.refund addr e.cpu.budget = .ok budget ∧
      ((∃ e' why, out = .stop ⟨e', why.result addr⟩ ∧ e'.paused = e.paused ∧
          (e.core.machine addr).report.exit = some why ∧
          e'.machine = (e.core.machine addr).step.2 ∧ e'.cpu.budget = budget) ∨
        ∃ e' n, out = .go e' e'.cpu.pc ∧ e'.Arrives ∧ (e.core.machine addr).Passes n e'.machine ∧
          (e.core.machine addr).interrupts n
            = (if (e.core.machine addr).step.2.cpu.interruptDue then 1 else 0) ∧
          e'.cpu.budget + (e.core.machine addr).report.cycles
            + Interpreter.interruptCycles * (e.core.machine addr).interrupts n = budget) := by
  obtain ⟨left, left_at, step, after, bus, host, ran, out⟩ := bounce_eq_ok ok
  obtain ⟨budget, refund, is⟩ := leaveAt_eq_ok left_at
  refine ⟨budget, refund, ?_⟩
  rw [mapCpu_eq] at is
  -- The core that the interpreter is called on is the machine in front of the instruction.
  obtain ⟨cpu, here⟩ : ∃ cpu : Cpu, cpu = { e.core.cpu with budget, pc := addr } := ⟨_, rfl⟩
  have core : left.core = ⟨cpu, e.core.bus⟩ := by rw [is, here]
  have paused : left.paused = e.paused := by rw [is]
  have machine : e.core.machine addr = ⟨cpu.guest, e.core.bus.memory⟩ := by rw [here]; rfl
  have quiet : cpu.interruptDue = false := by rw [here]; exact quiet
  have full : cpu.budget = budget := by rw [here]
  have ran : referenceRunner left.host cpu e.core.bus = ((step, after), bus, host) := by
    rw [← ran, core, is]
    dsimp only
    rw [runner]
  have interpreted : Interpreter.step cpu e.core.bus = ((step, after), bus) :=
    Prod.ext (congrArg (·.1) ran) (congrArg (·.2.1) ran)
  obtain ⟨steps, report, spent, fits', pages⟩ := step_onBus fits quiet interpreted
  have low : bus.memory.LowPlain := low.of_pages pages
  rw [machine]
  rcases out with ⟨why, exit, rfl⟩ | ⟨completed, e', answered, rfl⟩
  · refine .inl ⟨_, why, rfl, paused, ?_, ?_, spent.trans full⟩
    · rw [report]
      exact exit
    · rw [steps]
      rfl
  · right
    have completes : (Machine.report (⟨cpu.guest, e.core.bus.memory⟩ : Machine σ)).exit = none := by
      rw [report]
      exact completed
    obtain ⟨e₁, is₁⟩ : ∃ e₁ : Engine (PagedMemory σ) ω, e₁ = { left with
      core := ⟨{ after with budget := after.budget - step.cycles }, bus⟩, host } := ⟨_, rfl⟩
    have core₁ : e₁.core = ⟨{ after with budget := after.budget - step.cycles }, bus⟩ := by rw [is₁]
    have budget₁ : e₁.cpu.budget + step.cycles = budget := by
      rw [Engine.cpu, core₁]
      change after.budget - (step.cycles : Int) + step.cycles = budget
      rw [Int.sub_add_cancel, spent, full]
    have machine₁ : (Machine.step (⟨cpu.guest, e.core.bus.memory⟩ : Machine σ)).2 = e₁.machine := by
      unfold Engine.machine Engine.cpu
      rw [steps, core₁]
      rfl
    have low₁ : e₁.memory.LowPlain := by
      rw [Engine.memory, core₁]
      exact low
    have fits₁ : e₁.core.bus.Fits := by
      rw [core₁]
      exact fits'
    rw [← is₁] at answered
    obtain ⟨n, arrives, passes, once, left₁⟩ :=
      answerIrq_passes fits₁ low₁ quiet completes machine₁
    rw [← answered] at arrives passes left₁
    refine ⟨e', n, rfl, arrives, passes, once, ?_⟩
    rw [report]
    omega

structure PausedAt (e : Engine (PagedMemory σ) ω) (source : Addr → PagedMemory σ) (p : Pause)
    (g : Spot (PagedMemory σ)) : Prop where
  inside : g.Inside p.pos.block
  begins : g.done = []
  keeps : e.translator.Keeps e.blocks p.pos.block g.image
  offset : g.image.offset = p.pos.entry
  memory : g.image.memory = source p.pos.block
  serves : g.image.settings.Serves e.translator.settings
  ip : p.pos.ip = g.ip
  addr : g.record.addr = p.pc
  known : g.known.Holds e.cpu

end Engine

namespace Frame

/-- All that can follow while the frame is at work on an instruction. What the machine has done by
then is told for an instruction that compiled code may stand for. -/
inductive Turns (f : Frame (PagedMemory σ) ω) (source : Addr → PagedMemory σ)
    (g : Spot (PagedMemory σ)) (c : Core (PagedMemory σ)) : Turn (PagedMemory σ) ω → Prop
  | back {e : Engine (PagedMemory σ) ω} (begins : g.done = []) (dead : f.wayOut? ≠ none)
    (arrives : e.Arrives) (same : ∀ pc, e.core.machine pc = c.machine pc)
    (budget : e.cpu.budget = g.unspent c) : Turns f source g c (.go e g.record.addr)
  | within {f' : Frame (PagedMemory σ) ω} (stays : f.wayOut? = none) (there : f'.At source g.next)
    (works : f'.Works g.next c) (begun : g.next.done ≠ []) (record : g.next.record = g.record)
    (unspent : g.next.unspent c = g.unspent c) : Turns f source g c (.stay f')
  | next {f' : Frame (PagedMemory σ) ω} (stays : f.wayOut? = none) (there : f'.At source g.next)
    (works : f'.Works g.next f'.engine.core) (begins : g.next.done = [])
    (passes : (c.machine g.record.addr).Cacheable f.engine.tracksZeroPage →
      (c.machine g.record.addr).Passes 1 (f'.engine.core.machine g.next.record.addr) ∧
        g.next.unspent f'.engine.core + (c.machine g.record.addr).spent f.engine.timed 1
          = g.unspent c) : Turns f source g c (.stay f')
  | goes {e : Engine (PagedMemory σ) ω} {target : Addr} (stays : f.wayOut? = none)
    (arrives : e.Arrives)
    (passes : (c.machine g.record.addr).Cacheable f.engine.tracksZeroPage → ∃ n,
      (c.machine g.record.addr).Passes n (e.core.machine target) ∧
        e.cpu.budget + (c.machine g.record.addr).spent f.engine.timed n = g.unspent c) :
    Turns f source g c (.go e target)
  | exits {e : Engine (PagedMemory σ) ω} {why : Stop} (stays : f.wayOut? = none)
    (unpaused : e.paused = none)
    (stops : (c.machine g.record.addr).Cacheable f.engine.tracksZeroPage →
      e.machine = c.machine g.record.addr ∧ (c.machine g.record.addr).report.exit = some why ∧
        e.cpu.budget = g.unspent c) :
    Turns f source g c (.stop ⟨e, why.result g.record.addr⟩)
  | held {s : Stopped (PagedMemory σ) ω} (stays : f.wayOut? = none)
    (result : s.result = .ok .countdown ∨ s.result = .ok .externalHalt ∧ f.engine.MayStop ∨
      f.engine.haltRequest ≠ 0)
    (paused : ∀ p, s.engine.paused = some p → s.engine.PausedAt source p g)
    (lands : s.engine.machine = c.machine g.record.addr)
    (budget : s.engine.cpu.budget = g.unspent c) : Turns f source g c (.stop s)

variable {f : Frame (PagedMemory σ) ω} {source : Addr → PagedMemory σ}
  {g : Spot (PagedMemory σ)} {c : Core (PagedMemory σ)}

theorem At.timed_eq (h : f.At source g) :
    (g.task c).options.exactTimings = f.engine.timed := by
  obtain ⟨_, _, compiled⟩ := h.serves
  change g.image.settings.options.exactTimings = _
  rw [compiled]
  rfl

theorem At.owed_eq (h : f.At source g) :
    g.owed = ((g.task c).instr.maxCycles (g.task c).options).toNat + (restOfRun g.post).toNat := by
  rw [h.inside.owed_eq, h.inside.lowered.maxCycles_eq]
  rfl

/-- With all of its run charged at the head, the budget in front of an instruction that heads a run
is the one before it is charged. -/
theorem At.unspent_eq (h : f.At source g) :
    g.unspent c = c.cpu.budget + if g.record.startsRun then 0 else (g.owed : Int) := by
  have charged := h.keeps.block.charged
  rw [h.inside.records] at charged
  have head := Record.headCycles_eq charged.split
  unfold Spot.unspent
  change c.cpu.budget - (g.record.headCycles : Int) + (g.owed : Int) = _
  rw [head]
  unfold Spot.owed
  split
  · rw [Int.sub_add_cancel, Int.add_zero]
  · exact congrArg (· + _) (Int.sub_zero _)

theorem At.rest_eq_zero (h : f.At source g)
    (leaves : (g.task c).instr.operation.branch ≠ .never ∨ (g.task c).last = true) :
    restOfRun g.post = 0 := by
  cases behind : g.post with
  | nil => rfl
  | cons r post =>
    have branches : (g.task c).instr.operation.branch ≠ .never := by
      refine leaves.resolve_right ?_
      change ¬ g.post.isEmpty = true
      rw [behind]
      exact Bool.false_ne_true
    have branch := h.inside.lowered.branch_eq
    have shape := h.inside.shape.2.2.2
    rw [behind] at shape
    have starts : r.startsRun = true := by
      rw [shape.2.2.2.1, beq_iff_eq, branch]
      cases kind : (g.record.instruction g.image.memory).operation.branch with
      | never => exact absurd kind branches
      | conditional => rfl
      | always =>
        have ends : (lower g.image.memory g.image.settings.options g.record.addr).endsBlock = true := by
          change (_ || _ == Branching.always) = true
          rw [show (Instruction.fetch g.image.memory g.record.addr).operation.branch = _ from kind]
          exact Bool.or_true _
        cases shape.1 (h.inside.lowered.ends ends)
    unfold restOfRun
    rw [if_pos starts]

theorem At.refund (h : f.At source g) {budget budget' : Int}
    (ok : f.engine.translator.refund g.record.addr budget = .ok budget') :
    budget' = budget + g.owed :=
  (Except.ok.inj ((h.refund_eq budget).symm.trans ok)).symm

theorem At.turns_back (h : f.At source g) (works : f.Works g c) {p : LeavePoint}
    (out : f.wayOut? = some p) {t : Turn (PagedMemory σ) ω} (ok : f.turn = .ok t) :
    f.Turns source g c t := by
  have begins := (h.wayOut_some out).2.1
  have core := works.begins begins
  have dead : f.wayOut? ≠ none := by rw [out]; exact Option.some_ne_none p
  have unspent := h.unspent_eq (c := c)
  have quiet : f.engine.cpu.interruptDue = false := by
    have quiet := works.quiet
    rw [core] at quiet
    exact quiet
  have here : c.cpu.budget = f.engine.cpu.budget := by rw [core]; rfl
  rw [here] at unspent
  rw [h.turn_leaving out] at ok
  unfold Frame.leaveStale at ok
  rw [h.startsRunAt begins] at ok
  cases runs : g.record.startsRun with
  | true =>
    rw [runs] at ok unspent
    cases ok
    refine .back begins dead ⟨works.low, quiet⟩ (fun pc => by rw [core]) ?_
    rw [unspent]
    exact (Int.add_zero _).symm
  | false =>
    rw [runs] at ok unspent
    obtain ⟨budget, refund, done⟩ := bind_eq_ok.mp ok
    cases done
    rw [Engine.mapCpu_eq]
    refine .back begins dead ⟨works.low, quiet⟩ (fun pc => by rw [core]; rfl) ?_
    rw [unspent]
    exact h.refund refund

/-- What is known behind an instruction holds of the processor that it leaves behind. -/
theorem At.known_next (h : f.At source g) (works : f.Works g c) {pc : Addr}
    {d : Core (PagedMemory σ)} (reached : (g.task c).Reached pc d) :
    (g.known.after g.image.settings.tracks g.record).Holds d.cpu := by
  have start : g.known.Holds (g.task c).start.cpu :=
    ⟨works.known.a, works.known.x, works.known.y, works.known.carry⟩
  have untracked : g.image.settings.tracks = false → g.known = {} := by
    intro off
    unfold Spot.known
    rw [off]
    exact knownAfter_untracked g.pre
  have after : (g.known.after g.image.settings.tracks g.record).Holds (g.task c).performed.1.2 :=
    start.after h.inside.lowered g.image.settings.tracks untracked
  have lands : { d.cpu.guest with pc } = (g.task c).performed.1.2 :=
    congrArg Machine.cpu reached.lands
  rw [← lands] at after
  exact ⟨after.a, after.x, after.y, after.carry⟩

theorem Works.reached_next (works : f.Works g c) (inside : g.Inside f.pos.block) {op : HostOp}
    (todo : g.todo = [op]) {d : Core (PagedMemory σ)}
    (goes : Native.Continues (Native.execOp op f.engine.core).1 (Native.execOp op f.engine.core).2 d)
    {r : Record} {post : List Record} (behind : g.post = r :: post) :
    (g.task c).Reached r.addr d := by
  have addr : (g.task c).next = r.addr := by
    rw [inside.addr_next behind]
    exact inside.lowered.addrAfter.symm
  have runs := works.runs
  rw [todo] at runs
  rw [← addr]
  exact runs.2 d goes

theorem At.unspent_next (h : f.At source g) {f' : Frame (PagedMemory σ) ω} {r : Record}
    {post : List Record} (behind : g.post = r :: post)
    (is : g.next = Spot.begin g.image (g.pre ++ [g.record]) r post) (there : f'.At source g.next)
    (reached : (g.task c).Reached r.addr f'.engine.core) :
    g.next.unspent f'.engine.core + (g.task c).price = g.unspent c := by
  have here := there.unspent_eq (c := f'.engine.core)
  have spent := reached.budget
  have owed := h.owed_eq (c := c)
  have record : g.next.record = r ∧ g.next.post = post := by
    rw [is]
    exact ⟨rfl, rfl⟩
  have rest_owed : (restOfRun g.post).toNat = if r.startsRun then 0 else g.next.owed := by
    rw [behind]
    unfold restOfRun Spot.owed
    rw [record.1, record.2]
    split <;> rfl
  have unspent : g.unspent c = (g.task c).budget + g.owed := rfl
  rw [here, unspent, owed, rest_owed, record.1]
  split
  · rw [Nat.add_zero, Int.add_zero]
    exact spent
  · rw [Int.natCast_add, ← Int.add_assoc, ← spent]
    omega

theorem At.turns_stay (h : f.At source g) (works : f.Works g c) (stays : f.wayOut? = none)
    {op : HostOp} {rest : List HostOp} (todo : g.todo = op :: rest) {d : Core (PagedMemory σ)}
    (goes : Native.Continues (Native.execOp op f.engine.core).1 (Native.execOp op f.engine.core).2 d)
    {e : Engine (PagedMemory σ) ω} (core : e.core = d)
    (translator : e.translator = f.engine.translator) {pos : Position}
    {leaveAt : Option LeavePoint} (there : Frame.At ⟨e, pos, leaveAt⟩ source g.next) :
    f.Turns source g c (.stay ⟨e, pos, leaveAt⟩) := by
  have runs_on : ¬ Native.Ends (M := PagedMemory σ) op := fun ends => ends _ _ goes
  have low : e.memory.LowPlain := by
    refine works.low.of_pages (there.pages.symm.trans ?_)
    rw [g.image_next]
    exact h.pages
  rcases h.inside.next_cases todo runs_on with ⟨_, is⟩ | ⟨rfl, r, post, behind, is⟩
  · have begun : g.next.done ≠ [] := by
      rw [is]
      simp
    have left : (g.task c).Runs rest e.core := by
      have runs := works.runs
      rw [todo] at runs
      rw [core]
      exact runs.2 d goes
    refine .within stays there ⟨low, works.quiet, ?_, ?_, fun none => absurd none begun, ?_⟩ begun ?_ ?_
    · rw [is]
      exact works.known
    · rw [is]
      exact left
    · intro _
      rw [is]
      change (c.machine g.record.addr).Cacheable e.tracksZeroPage → (g.task c).Faithful
      rw [Engine.tracksZeroPage, translator]
      exact works.faithful stays
    · rw [is]
    · rw [is]
      rfl
  · have reached : (g.task c).Reached r.addr e.core :=
      core ▸ works.reached_next h.inside todo goes behind
    have known : g.next.known.Holds e.cpu := by
      rw [is]
      have known := h.known_next works reached
      unfold Spot.known Spot.begin
      dsimp only
      rw [knownAfter, List.foldl_append]
      exact known
    have begins : g.next.done = [] := by
      rw [is]
      rfl
    have record : g.next.record = r := by
      rw [is]
      rfl
    refine .next stays there (there.works begins low (reached.quiet works.quiet) known) begins ?_
    intro cacheable
    obtain ⟨passes, price⟩ := (works.faithful stays cacheable).passes works.quiet reached
    rw [h.timed_eq] at price
    have here : (c.machine g.record.addr).spent f.engine.timed 1 = (g.task c).price := price
    rw [record, here]
    exact ⟨passes, h.unspent_next behind is there reached⟩

theorem At.turns_jump (h : f.At source g) (works : f.Works g c) (stays : f.wayOut? = none)
    {e : Engine (PagedMemory σ) ω} {target : Addr} (low : e.memory.LowPlain)
    (meets : (g.task c).Meets (.jump target) e.core) : f.Turns source g c (.go e target) := by
  obtain ⟨reached, leaves⟩ := meets
  refine .goes stays ⟨low, reached.quiet works.quiet⟩ ?_
  intro cacheable
  obtain ⟨passes, price⟩ := (works.faithful stays cacheable).passes works.quiet reached
  refine ⟨1, passes, ?_⟩
  have owed := h.owed_eq (c := c)
  have rest := h.rest_eq_zero leaves
  rw [h.timed_eq] at price
  have here : (c.machine g.record.addr).spent f.engine.timed 1 = (g.task c).price := price
  have unspent : g.unspent c = (g.task c).budget + g.owed := rfl
  rw [rest] at owed
  rw [here, unspent, owed]
  exact reached.budget

/-- What the interpreter makes of an instruction that is left to it. All that is charged from the
instruction on is given back, and what its own host code has given back stays given. -/
theorem At.bounced (h : f.At source g) (works : f.Works g c) {e : Engine (PagedMemory σ) ω}
    {addr : Addr} (low : e.memory.LowPlain) (fits : e.core.bus.Fits)
    (translator : e.translator = f.engine.translator) (runner : e.runner = referenceRunner)
    (meets : (g.task c).Meets (.bounce addr) e.core) {t : Turn (PagedMemory σ) ω}
    (ok : e.bounce addr = .ok t) :
    (∃ e' why, t = .stop ⟨e', why.result g.record.addr⟩ ∧ e'.paused = e.paused ∧
        (c.machine g.record.addr).report.exit = some why ∧
        e'.machine = (c.machine g.record.addr).step.2 ∧
        e'.cpu.budget = g.unspent c + (g.task c).early) ∨
      ∃ e' n, t = .go e' e'.cpu.pc ∧ e'.Arrives ∧
        (c.machine g.record.addr).Passes n e'.machine ∧
        (c.machine g.record.addr).interrupts n
          = (if (c.machine g.record.addr).step.2.cpu.interruptDue then 1 else 0) ∧
        e'.cpu.budget + (c.machine g.record.addr).report.cycles
          + Interpreter.interruptCycles * (c.machine g.record.addr).interrupts n
            = g.unspent c + (g.task c).early := by
  obtain ⟨rfl, untouched, _⟩ := meets
  have lands : e.core.machine g.record.addr = c.machine g.record.addr := untouched.lands
  have quiet : e.cpu.interruptDue = false := by
    have quiet : (c.machine g.record.addr).cpu.interruptDue = false := works.quiet
    rw [← lands] at quiet
    exact quiet
  have addr : (g.task c).instr.addr = g.record.addr := rfl
  obtain ⟨budget, refund, out⟩ := Engine.bounce_machine fits low runner quiet ok
  rw [translator, addr] at refund
  have full : budget = g.unspent c + (g.task c).early := by
    have early : e.cpu.budget = (g.task c).budget + (g.task c).early := untouched.budget
    have unspent : g.unspent c = (g.task c).budget + g.owed := rfl
    rw [h.refund refund, early, unspent]
    omega
  rw [addr, lands, full] at out
  exact out

theorem At.turns_bounce (h : f.At source g) (works : f.Works g c) (stays : f.wayOut? = none)
    {e : Engine (PagedMemory σ) ω} {addr : Addr} (low : e.memory.LowPlain) (fits : e.core.bus.Fits)
    (translator : e.translator = f.engine.translator) (unpaused : e.paused = none)
    (runner : e.runner = referenceRunner) (meets : (g.task c).Meets (.bounce addr) e.core)
    {t : Turn (PagedMemory σ) ω} (ok : e.bounce addr = .ok t) : f.Turns source g c t := by
  have price := meets.2.2
  rcases h.bounced works low fits translator runner meets ok with
    ⟨e', why, rfl, paused, exit, stopped, spent⟩ | ⟨e', n, rfl, arrives, passes, _, spent⟩
  · refine .exits stays (paused.trans unpaused) ?_
    intro cacheable
    have report := (works.faithful stays cacheable).report_eq
    refine ⟨?_, exit, ?_⟩
    · have quiet : (c.machine g.record.addr).cpu.interruptDue = false := works.quiet
      rw [stopped, Machine.step_quiet quiet, cacheable.plain.step_eq]
      unfold Machine.report at exit
      rw [cacheable.plain.step_eq] at exit
      obtain ⟨cpu, bus, _⟩ := Machine.perform_exit exit
      dsimp only
      rw [cpu, bus]
    · -- A sum does not stop a run, so nothing was given back early.
      have exit : (g.task c).performed.1.1.exit = some why := by
        rw [← report]
        exact exit
      have other : (g.task c).instr.sums = false := by
        cases sums : (g.task c).instr.sums with
        | false => rfl
        | true =>
          have completes : (g.task c).performed.1.1.exit = none :=
            Instruction.completes_of_sums sums _
          rw [exit] at completes
          cases completes
      have free : (g.task c).early = 0 :=
        Instruction.early_binary (by rw [other, Bool.false_and]) _
      rw [spent, free]
      exact Int.add_zero _
  · refine .goes stays arrives ?_
    intro cacheable
    have faithful := works.faithful stays cacheable
    have report : (c.machine g.record.addr).report = (g.task c).performed.1.1 := faithful.report_eq
    have same : (c.machine g.record.addr).price f.engine.timed = (g.task c).price := by
      rw [← h.timed_eq (c := c)]
      exact faithful.price_eq
    refine ⟨n, passes, ?_⟩
    rw [passes.spent_eq, same, price]
    rw [report] at spent
    omega

theorem At.leaveAt_unspent (h : f.At source g) {e left : Engine (PagedMemory σ) ω}
    (translator : e.translator = f.engine.translator) (left_at : e.leaveAt g.record.addr = .ok left)
    (lands : e.core.machine g.record.addr = c.machine g.record.addr) :
    left.machine = c.machine g.record.addr ∧ left.cpu.budget = e.cpu.budget + g.owed ∧
      left.paused = e.paused := by
  obtain ⟨budget, refund, rfl⟩ := Engine.leaveAt_eq_ok left_at
  rw [translator] at refund
  rw [Engine.mapCpu_eq]
  exact ⟨lands, h.refund refund, rfl⟩

theorem At.turns_leave (h : f.At source g) (works : f.Works g c) (stays : f.wayOut? = none)
    {e left : Engine (PagedMemory σ) ω} {addr : Addr} {why : Stop}
    (translator : e.translator = f.engine.translator) (unpaused : e.paused = none)
    (meets : (g.task c).Meets (.leave addr why) e.core) (left_at : e.leaveAt addr = .ok left) :
    f.Turns source g c (.stop ⟨left, why.result addr⟩) := by
  obtain ⟨rfl, untouched, exit⟩ := meets
  obtain ⟨lands, budget, paused⟩ := h.leaveAt_unspent translator left_at untouched.lands
  refine .exits stays (paused.trans unpaused) ?_
  intro cacheable
  refine ⟨lands, ?_, ?_⟩
  · have step : Interpreter.step (c.machine g.record.addr).cpu
        (⟨(c.machine g.record.addr).memory⟩ : DeviceBus (PagedMemory σ)) = (g.task c).performed :=
      (works.faithful stays cacheable).step
    unfold Machine.report
    rw [step]
    exact exit
  · rw [budget]
    exact congrArg (· + (g.owed : Int)) (untouched.budget.trans (Int.add_zero _))

theorem At.turns_observed (h : f.At source g) (stays : f.wayOut? = none)
    {e left : Engine (PagedMemory σ) ω} {addr : Addr} (stops : f.engine.MayStop)
    (translator : e.translator = f.engine.translator) (unpaused : e.paused = none)
    (meets : (g.task c).Meets (.observe addr) e.core) (left_at : e.leaveAt addr = .ok left) :
    f.Turns source g c (.stop ⟨left, .ok .externalHalt⟩) := by
  obtain ⟨rfl, here, charged⟩ := meets
  obtain ⟨lands, budget, paused⟩ := h.leaveAt_unspent translator left_at here
  refine .held stays (.inr (.inl ⟨rfl, stops⟩)) ?_ lands ?_
  · intro p is
    rw [paused, unpaused] at is
    cases is
  · rw [budget]
    exact congrArg (· + (g.owed : Int)) charged

theorem At.turns_pause (h : f.At source g) (works : f.Works g c) (stays : f.wayOut? = none)
    {addr : Addr} {cycles : UInt32} {rest : List HostOp}
    (todo : g.todo = .uop (.countdown addr cycles) :: rest) {e : Engine (PagedMemory σ) ω}
    (core : e.core = f.engine.core) (translator : e.translator = f.engine.translator)
    (meets : (g.task c).Meets (.charge addr cycles) e.core) (generation : Nat) :
    f.Turns source g c (.stop ⟨(e.setPause (some ⟨addr, f.pos, generation⟩)).mapCpu
      fun c => { c with pc := addr }, .ok .countdown⟩) := by
  obtain ⟨is_addr, begins, _, charges⟩ := h.at_countdown todo
  obtain ⟨_, here, charged⟩ := meets
  have blocks : e.blocks = f.engine.blocks := by
    rw [Engine.blocks, core]
    rfl
  rw [Engine.mapCpu_eq]
  refine .held stays (.inl rfl) ?_ here ?_
  · intro p is
    cases is
    refine ⟨h.inside, begins, ?_, h.offset, h.memory, ?_, h.ip, is_addr.symm, ?_⟩
    · change e.translator.Keeps e.blocks _ _
      rw [translator, blocks]
      exact h.keeps
    · change g.image.settings.Serves e.translator.settings
      rw [translator]
      exact h.serves
    · have known := works.known
      rw [works.begins begins, ← core] at known
      exact ⟨known.a, known.x, known.y, known.carry⟩
  · change e.core.cpu.budget = _
    rw [charged, charges]
    rfl

theorem At.turns (h : f.At source g) (works : f.Works g c)
    (runner : f.engine.runner = referenceRunner) {t : Turn (PagedMemory σ) ω}
    (ok : f.turn = .ok t) : f.Turns source g c t := by
  cases stays : f.wayOut? with
  | some p => exact h.turns_back works stays ok
  | none =>
    obtain ⟨op, rest, todo⟩ := List.exists_cons_of_ne_nil h.inside.more
    have advances := h.turn_spec (runner ▸ referenceRunner_onBus) ok
    rw [h.turn_running stays todo] at ok
    have framed := Native.framed_execOp op f.engine.core
    have meets : (g.task c).Meets (Native.execOp op f.engine.core).1
        (Native.execOp op f.engine.core).2 := by
      have runs := works.runs
      rw [todo] at runs
      exact runs.1
    obtain ⟨ran, is_ran⟩ : ∃ e : Engine (PagedMemory σ) ω,
      e = { f.engine with core := (Native.execOp op f.engine.core).2 } := ⟨_, rfl⟩
    rw [← is_ran] at ok
    have core : ran.core = (Native.execOp op f.engine.core).2 := by rw [is_ran]
    have translator : ran.translator = f.engine.translator := by rw [is_ran]
    have unpaused : ran.paused = none := by rw [is_ran]; exact h.unpaused
    have same_runner : ran.runner = referenceRunner := by rw [is_ran]; exact runner
    have low : ran.memory.LowPlain := by
      rw [Engine.memory, core]
      exact works.low.of_pages framed.pages
    have fits : ran.core.bus.Fits := by
      rw [core]
      exact h.coherent.fits.of_pages framed.threshold framed.pages
    have followed := Frame.follow_spec ok
    rw [← core] at meets
    cases followed with
    | stay goes e' is_core same paused host =>
      rw [core] at goes
      rcases advances with ⟨f', is, _, there⟩ | settles
      · cases is
        exact h.turns_stay works stays todo goes is_core (same.trans translator) there
      · exact settles.elim
    | jump is =>
      rw [is] at meets
      exact h.turns_jump works stays low meets
    | bounce is bounced =>
      rw [is] at meets
      exact h.turns_bounce works stays low fits translator unpaused same_runner meets bounced
    | leave is left_at =>
      rw [is] at meets
      exact h.turns_leave works stays translator unpaused meets left_at
    | @halt addr cycles is asked =>
      have explained := framed.explained
      rw [is] at explained meets
      obtain ⟨rfl, _⟩ := explained
      obtain ⟨_, here, charged⟩ := meets
      rw [Engine.mapCpu_eq]
      refine .held stays (.inr (.inr ?_)) ?_ here ?_
      · rw [is_ran] at asked
        exact asked
      · intro p paused
        rw [show ran.paused = some p from paused] at unpaused
        cases unpaused
      · change ran.core.cpu.budget = _
        rw [charged, (h.at_countdown todo).2.2.2]
        rfl
    | @observed addr left shown is stops is_core same paused host left_at =>
      rw [is] at meets
      have meets : (g.task c).Meets (.observe addr) shown.core := by
        obtain ⟨here, lands, charged⟩ := meets
        rw [is_core]
        exact ⟨here, lands, charged⟩
      have stops : f.engine.MayStop := by
        rw [is_ran] at stops
        exact stops
      exact h.turns_observed stays stops (same.trans translator) (paused.trans unpaused) meets
        left_at
    | @pause addr cycles is =>
      have explained := framed.explained
      rw [is] at explained meets
      obtain ⟨rfl, kept⟩ := explained
      exact h.turns_pause works stays todo (core.trans kept) translator meets _

end Frame

end Mos6502
