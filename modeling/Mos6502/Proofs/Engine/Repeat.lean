import Mos6502.Proofs.Engine.Attention
import Mos6502.Proofs.Engine.Bounce
import Mos6502.Proofs.Engine.Identity
import Mos6502.Proofs.Engine.Termination
import Mos6502.Proofs.Native.Stops

/-! A run that stops by itself has not begun to execute what stops it. It leaves the machine as it
was in front of that instruction, with the cycles charged for it given back, so that the next run
comes to the same end. -/
namespace Mos6502

open Record
open HostOp (refunds)

variable {σ ω : Type}

theorem HostOp.retired?_eq_none {op : HostOp} (keeps : op.retires = false) (c : Cpu) :
    Native.retired? op c = none := by
  cases op with
  | uop u =>
    cases u with
    | retire | retireScratch | retireScratchY => cases keeps
    | _ => rfl
  | _ => rfl

/-- Where the interpreter is called and the run stops, it has reported an exit of that instruction. -/
theorem Engine.exits_of_bounce {e : Engine (PagedMemory σ) ω} {addr : Addr}
    {s : Stopped (PagedMemory σ) ω} (fits : e.core.bus.Fits) (runner : e.runner = referenceRunner)
    (ok : e.bounce addr = .ok (.stop s)) :
    s.engine.cpu.pc = addr ∧ ∃ why, (e.core.machine addr).report.exit = some why := by
  obtain ⟨left, left_at, step, after, bus, host, called, ⟨why, exit, is⟩ | ⟨_, _, _, is⟩⟩ :=
    Engine.bounce_eq_ok ok
  · cases is
    obtain ⟨budget, _, rfl⟩ := Engine.leaveAt_eq_ok left_at
    rw [Engine.mapCpu_eq] at called
    obtain ⟨cpu, is_cpu⟩ : ∃ cpu : Cpu, cpu = { e.core.cpu with budget, pc := addr } := ⟨_, rfl⟩
    have called : e.runner e.host { e.core.cpu with budget, pc := addr } e.core.bus
        = ((step, after), bus, host) := called
    rw [runner, ← is_cpu] at called
    have interpreted : Interpreter.step cpu e.core.bus = ((step, after), bus) :=
      Prod.ext (congrArg (·.1) called) (congrArg (·.2.1) called)
    have exits : (Interpreter.step cpu e.core.bus).1.1.exit = some why := by
      rw [interpreted]
      exact exit
    have unmoved := Machine.step_exit exits
    rw [interpreted] at unmoved
    have unmoved : after = cpu := unmoved
    have machine : e.core.machine addr = ⟨cpu.guest, e.core.bus.memory⟩ := by
      rw [is_cpu]
      rfl
    rw [machine, Engine.report_onBus fits]
    refine ⟨?_, why, exits⟩
    change after.pc = addr
    rw [unmoved, is_cpu]
  · cases is

namespace Frame

variable {f f' f₀ : Frame (PagedMemory σ) ω} {source : Addr → PagedMemory σ}
  {g : Spot (PagedMemory σ)} {why : Stop} {t : Turn (PagedMemory σ) ω}

namespace Stands

theorem last_of_stop (h : f.Stands g) (stops : stopOf? g.record.opcode = some why) :
    g.post = [] ∧ g.owed = 2 ∧ refunds (g.done ++ g.todo) = 0 := by
  have lowered := h.inside.lowered
  have ends := lowered.ends (lowered.ends_of_stop stops)
  have last : g.post = [] := h.inside.shape.2.2.2.1 ends
  have cycles := lowered.maxCycles_of_stop stops
  have refunds := h.inside.refunds_le
  rw [cycles] at refunds
  refine ⟨last, ?_, Nat.le_zero.mp (Nat.le_of_add_le_add_right refunds)⟩
  rw [Spot.owed, cycles, last]
  rfl

theorem idles (h : f.Stands g) (stops : stopOf? g.record.opcode = some why) {op : HostOp}
    (mem : op ∈ g.done ++ g.todo) : op.Idles (PagedMemory σ) g.record.addr why := by
  rw [← h.inside.code] at mem
  exact h.inside.lowered.idles stops mem

theorem stays_of_begun (h : f.Stands g) (begun : g.done ≠ []) : f.wayOut? = none := by
  cases out : f.wayOut? with
  | none => rfl
  | some p => exact absurd (h.wayOut_some out).2.1 begun

end Stands

theorem Advances.idle (h : f.Stands g) (advances : f.Advances g f')
    (stops : stopOf? g.record.opcode = some why) :
    g.next.record = g.record ∧ g.next.done ≠ [] ∧
      (∀ pc, f'.engine.core.machine pc = f.engine.core.machine pc) ∧ f'.worth g.next = f.worth g := by
  obtain ⟨op, rest, todo, goes⟩ := advances.goes
  obtain ⟨last, owed, free⟩ := h.last_of_stop stops
  have mem : op ∈ g.done ++ g.todo := by simp [todo]
  have idles := h.idles stops mem
  have is : g.next = { g with done := g.done ++ [op], todo := rest } := by
    rcases h.inside.next_cases todo (fun ends => ends _ _ goes) with ⟨_, is⟩ | ⟨_, r, post, behind, _⟩
    · exact is
    · rw [last] at behind
      cases behind
  rw [todo, ← List.singleton_append, ← List.append_assoc, HostOp.refunds_append] at free
  have after : f'.worth g.next = f'.engine.cpu.budget + 2 := by
    have charged : g.next.charged = true := Spot.charged_of_begun (by simp [is])
    have none : refunds (g.done ++ [op]) = 0 := by omega
    rw [worth_of_charged charged, is, none]
    exact congrArg (f'.engine.cpu.budget + ·) (congrArg (fun n : Nat => (n : Int) - 0) owed)
  refine ⟨by rw [is], by simp [is], ?_⟩
  rw [after]
  rw [idles.still] at goes
  obtain ⟨d, core⟩ : ∃ d, d = f'.engine.core := ⟨_, rfl⟩
  have budget : f'.engine.cpu.budget = d.cpu.budget := by rw [core]; rfl
  rw [budget, ← core]
  rw [← core] at goes
  cases charged : g.charged with
  | false =>
    obtain ⟨begins, heads⟩ := Spot.charged_eq_false.mp charged
    obtain ⟨_, head⟩ := h.todo_head begins heads
    cases (List.cons.inj (todo.symm.trans head)).1
    cases goes
    refine ⟨fun _ => rfl, ?_⟩
    rw [worth_of_uncharged charged]
    change f.engine.cpu.budget - (g.owed : Int) + 2 = _
    rw [owed]
    exact Int.sub_add_cancel _ _
  | true =>
    have none : refunds g.done = 0 := by
      rw [HostOp.refunds_append] at free
      omega
    rw [worth_of_charged charged, owed, none]
    rcases idles.ends with ⟨n, rfl⟩ | rfl | next | leaves
    · obtain ⟨_, begins, heads, _⟩ := h.at_countdown todo
      rw [Spot.charged_eq_false.mpr ⟨begins, heads⟩] at charged
      cases charged
    · cases goes <;> exact ⟨fun _ => rfl, rfl⟩
    · rw [next] at goes
      cases goes
      exact ⟨fun _ => rfl, rfl⟩
    · rw [leaves] at goes
      cases goes

inductive Idling (f : Frame (PagedMemory σ) ω) (g : Spot (PagedMemory σ)) (why : Stop) :
    Turn (PagedMemory σ) ω → Prop
  | stay (f' : Frame (PagedMemory σ) ω) : Idling f g why (.stay f')
  | leaves {s : Stopped (PagedMemory σ) ω} (result : s.result = why.result g.record.addr)
    (machine : s.engine.machine = f.engine.core.machine g.record.addr)
    (budget : s.engine.cpu.budget = f.worth g) (paused : s.engine.paused = f.engine.paused) :
    Idling f g why (.stop s)
  | asked {s : Stopped (PagedMemory σ) ω} (asked : f.engine.haltRequest ≠ 0) (charges : f.Charges) :
    Idling f g why (.stop s)
  | countdown {s : Stopped (PagedMemory σ) ω} (result : s.result = .ok .countdown)
    (short : f.worth g < 2) : Idling f g why (.stop s)
  | observed {s : Stopped (PagedMemory σ) ω} (result : s.result = .ok .externalHalt)
    (may : f.engine.MayStop) : Idling f g why (.stop s)

theorem Stands.idling (h : f.Stands g) (stays : f.wayOut? = none)
    (stops : stopOf? g.record.opcode = some why) (ok : f.turn = .ok t) : f.Idling g why t := by
  obtain ⟨_, owed, free⟩ := h.last_of_stop stops
  cases charged : g.charged with
  | false =>
    obtain ⟨begins, heads⟩ := Spot.charged_eq_false.mp charged
    obtain ⟨len, turn⟩ := h.turn_head stays begins heads
    rw [turn] at ok
    cases ok
    unfold charge
    split
    · next asked =>
      refine .asked asked ⟨stays, ?_⟩
      rw [h.ip, h.startsRunAt begins]
      exact heads
    · split
      · next short =>
        refine .countdown rfl ?_
        rw [worth_of_uncharged charged]
        change f.engine.cpu.budget - (g.owed : Int) < 0 at short
        rw [owed] at short
        omega
      · exact .stay _
  | true =>
    obtain ⟨op, rest, todo⟩ := List.exists_cons_of_ne_nil h.inside.more
    have mem : op ∈ g.done ++ g.todo := by simp [todo]
    have idles := h.idles stops mem
    rw [h.turn_running stays todo, idles.still] at ok
    rcases idles.ends with ⟨n, rfl⟩ | rfl | next | leaves
    · obtain ⟨_, begins, heads, _⟩ := h.at_countdown todo
      rw [Spot.charged_eq_false.mpr ⟨begins, heads⟩] at charged
      cases charged
    · cases follow_spec ok with
      | stay => exact .stay _
      | observed _ _ may => exact .observed rfl may
      | jump is | bounce is | leave is | halt is | pause is => cases is
    · rw [next] at ok
      cases ok
      exact .stay _
    · rw [leaves] at ok
      obtain ⟨left, left_at, done⟩ := bind_eq_ok.mp ok
      cases done
      obtain ⟨budget, refund, rfl⟩ := Engine.leaveAt_eq_ok left_at
      have given : budget = f.engine.cpu.budget + g.owed :=
        (Except.ok.inj ((h.refund_eq _).symm.trans refund)).symm
      have none : refunds g.done = 0 := by
        rw [HostOp.refunds_append] at free
        omega
      rw [Engine.mapCpu_eq]
      refine .leaves rfl rfl ?_ rfl
      rw [worth_of_charged charged, none]
      exact given.trans (congrArg (f.engine.cpu.budget + ·) (Int.sub_zero _).symm)

/-- `f₀` is at the beginning of the instruction that `f` is in, and no code was retired since. If it
is one that stops the run, nothing has happened yet. -/
structure Began (f₀ f : Frame (PagedMemory σ) ω) (g : Spot (PagedMemory σ)) : Prop where
  within : f₀.Within f []
  starts : f₀.Starts g.record.addr
  idle : ∀ why, stopOf? g.record.opcode = some why →
    (∀ pc, f.engine.core.machine pc = f₀.engine.core.machine pc) ∧
      f.worth g = f₀.level g.record.addr

/-- A frame that has retired no code in its instruction is in its block still, where it began. -/
def Traced (f : Frame (PagedMemory σ) ω) (g : Spot (PagedMemory σ)) : Prop :=
  f.wayOut? = none → (∀ op ∈ g.done, op.retires = false) →
    f.engine.isIntact f.pos = true ∧ ∃ f₀, Began f₀ f g

theorem Stands.traced (h : f.Stands g) (begins : g.done = []) : f.Traced g := by
  intro stays _
  have live : f.engine.isIntact f.pos = true := by
    rcases h.wayOut_none stays with ⟨live, _⟩ | ⟨_, begun, _⟩
    · exact live
    · exact absurd begins begun
  have ip : g.ip = g.entry := by simp [Spot.ip, begins]
  refine ⟨live, f, .here, ⟨stays, ?_, ?_⟩, fun _ _ => ⟨fun _ => rfl, (h.level_eq begins).symm⟩⟩
  · rw [h.ip, ip]
    exact h.ptr
  · rw [h.opcode]
    rfl

theorem Traced.stay (traced : f.Traced g) (h : f.Stands g) (advances : f.Advances g f')
    (turn : f.turn = .ok (.stay f')) : f'.Traced g.next := by
  by_cases begins : g.next.done = []
  · exact advances.there.traced begins
  · intro _ keeps
    obtain ⟨op, rest, todo, goes⟩ := advances.goes
    have is : g.next = { g with done := g.done ++ [op], todo := rest } := by
      rcases h.inside.next_cases todo (fun ends => ends _ _ goes) with ⟨_, is⟩ | ⟨_, r, post, _, is⟩
      · exact is
      · rw [is] at begins
        exact absurd rfl begins
    have record : g.next.record = g.record := by rw [is]
    rw [is, List.forall_mem_append, List.forall_mem_singleton] at keeps
    obtain ⟨live, f₀, began⟩ := traced advances.stays keeps.1
    have none : f.retires? = none := by
      unfold retires?
      rw [advances.stays, h.decode todo]
      exact HostOp.retired?_eq_none keeps.2 _
    have blocks := advances.blocks h
    have within := began.within.stay turn
    have entry : f'.pos.entry = f.pos.entry := by
      rw [← h.offset, ← advances.there.offset, g.image_next]
    rw [none] at blocks within
    refine ⟨?_, f₀, within, record ▸ began.starts, ?_⟩
    · rw [Engine.isIntact_iff, blocks, advances.block, entry]
      exact (f.engine.isIntact_iff f.pos).mp live
    · rw [record]
      intro why stops
      obtain ⟨machine, worth⟩ := began.idle why stops
      obtain ⟨_, _, machine', worth'⟩ := advances.idle h stops
      exact ⟨fun pc => (machine' pc).trans (machine pc), worth'.trans worth⟩

theorem Traced.signal (traced : f.Traced g) (haltRequest : UInt32) :
    Frame.Traced { f with engine := { f.engine with haltRequest } } g := by
  intro stays keeps
  obtain ⟨live, f₀, began⟩ := traced stays keeps
  exact ⟨live, f₀, began.within.signal haltRequest, began.starts, began.idle⟩

theorem At.opcode_eq (h : f.At source g) (live : f.engine.isIntact f.pos = true)
    (tracked : Tracked f.engine.tracksZeroPage g.record.addr) :
    f.engine.memory.ram.get g.record.addr = g.record.opcode := by
  have entry : f.engine.blocks.entryAt? f.pos.block = some g.image.offset := by
    rw [h.offset]
    exact (f.engine.isIntact_iff f.pos).mp live
  have covered : f.engine.blocks.LiveAt f.pos.block g.record.addr :=
    (h.keeps.liveAt_iff entry _).mpr ⟨g.record, h.inside.mem, h.inside.lowered.covers_self⟩
  rw [h.inside.lowered.opcode, h.coherent.fresh _ _ tracked covered id, ← h.memory]
  rfl

theorem At.stop_of_bounce (h : f.At source g) (stays : f.wayOut? = none) (traced : f.Traced g)
    (runner : f.engine.runner = referenceRunner) {op : HostOp} {rest : List HostOp}
    (todo : g.todo = op :: rest) (asks : op.asks = true) {s : Stopped (PagedMemory σ) ω}
    (ran : f.engine.bounce g.record.addr = .ok (.stop s))
    (cacheable : s.engine.machine.Cacheable s.engine.tracksZeroPage) :
    ∃ why, stopOf? g.record.opcode = some why := by
  have onBus : f.engine.runner.OnBus := runner ▸ referenceRunner_onBus
  have pages := (Engine.follows_bounce onBus ran false).pages
  have translator : s.engine.translator = f.engine.translator :=
    (Engine.sameSetup_bounce ran).translator
  have keeps : ∀ op ∈ g.done, op.retires = false := by
    intro op' mem
    have code := h.inside.code
    have among : op ∈ g.record.ops g.image.memory ++ onwardOps g.record g.post := by
      rw [code, todo]
      simp
    refine h.inside.lowered.keeps_of_asks among asks ?_
    rw [code]
    exact List.mem_append_left _ mem
  have live := (traced stays keeps).1
  obtain ⟨here, why, exits⟩ := Engine.exits_of_bounce h.coherent.fits runner ran
  have first : s.engine.memory.kindAt s.engine.cpu.pc ≠ .device ∧
      Tracked s.engine.tracksZeroPage s.engine.cpu.pc := cacheable.first
  rw [here, Engine.tracksZeroPage, translator] at first
  have plain : f.engine.memory.kindAt g.record.addr ≠ .device := by
    have same : s.engine.memory.pages = f.engine.memory.pages := pages
    unfold PagedMemory.kindAt at first ⊢
    rw [← same]
    exact first.1
  have opcode : (f.engine.core.machine g.record.addr).opcode = g.record.opcode :=
    h.opcode_eq live first.2
  rw [Machine.report_stop plain, opcode] at exits
  exact ⟨why, exits⟩

/-- Where a run stops by itself, it was in the host code of an instruction that stops it: what is
left to the interpreter is none. -/
theorem At.stop_of_exit (h : f.At source g) (stays : f.wayOut? = none) (traced : f.Traced g)
    (runner : f.engine.runner = referenceRunner) {s : Stopped (PagedMemory σ) ω}
    (ok : f.turn = .ok (.stop s)) {addr : Addr} (result : s.result = why.result addr)
    (unasked : f.Charges → f.engine.haltRequest = 0)
    (cacheable : s.engine.machine.Cacheable s.engine.tracksZeroPage) :
    ∃ why, stopOf? g.record.opcode = some why := by
  obtain ⟨op, rest, todo⟩ := List.exists_cons_of_ne_nil h.inside.more
  have mem : op ∈ g.record.ops g.image.memory ++ onwardOps g.record g.post := by
    rw [h.inside.code, todo]
    simp
  have explained := (Native.framed_execOp op f.engine.core).explained
  have about := h.about todo
  rw [h.turn_running stays todo] at ok
  cases follow_spec ok with
  | leave is =>
    rw [is] at explained
    exact h.inside.lowered.stop_of_leaves mem (Native.Leaves.leaves explained.1)
  | bounce is ran =>
    rw [is] at explained about
    obtain ⟨⟨u, rfl, asks⟩, same⟩ := explained
    cases about
    rw [same] at ran
    refine h.stop_of_bounce stays traced runner todo ?_ ran cacheable
    rcases asks with rfl | rfl | rfl <;> rfl
  | halt is asked =>
    rw [is] at explained
    obtain ⟨rfl, _⟩ := explained
    obtain ⟨_, begins, heads, _⟩ := h.at_countdown todo
    refine absurd (unasked ⟨stays, ?_⟩) asked
    rw [h.ip, h.startsRunAt begins]
    exact heads
  | pause => cases why <;> cases result
  | observed => cases why <;> cases result

end Frame

namespace Engine

variable {runner : InstructionRunner (PagedMemory σ) ω} {phase : Phase (PagedMemory σ) ω}
  {source : Addr → PagedMemory σ} {dirty : Addr → Prop}

theorem History.traced {f : Frame (PagedMemory σ) ω}
    (h : History runner (.running f) source dirty) (onBus : runner.OnBus) :
    ∃ g, f.At source g ∧ f.Traced g := by
  generalize is : Phase.running f = phase at h
  induction h generalizing f with
  | start before clean ok =>
    cases is
    have coherent : Coherent _ _ fun _ => False := Coherent.weaken (before.stands onBus) clean
    obtain ⟨_, g, begun, _⟩ := coherent.toConsistent.start ok
    exact ⟨g, begun.isAt (coherent.start ok), begun.toStands.traced begun.begins⟩
  | stay before ok ih =>
    cases is
    obtain ⟨g, there, traced⟩ := ih rfl
    have onBus := before.runner_eq ▸ onBus
    rcases there.toStands.turn_spec there.coherent.toConsistent onBus ok with
      ⟨_, is, advances, _⟩ | rests
    · cases is
      rcases there.turn_spec onBus ok with ⟨_, is, _, next⟩ | settles
      · cases is
        exact ⟨g.next, next, traced.stay there.toStands advances ok⟩
      · exact settles.elim
    · exact rests.elim
  | go before ok located =>
    cases is
    obtain ⟨_, g, there⟩ := before.stands onBus
    rcases there.turn_spec (before.runner_eq ▸ onBus) ok with ⟨_, is, _⟩ | ⟨coherent, unpaused⟩
    · cases is
    · obtain ⟨g', begun, _⟩ := coherent.toConsistent.enter unpaused located
      exact ⟨g', begun.isAt (coherent.locate unpaused located).1, begun.toStands.traced begun.begins⟩
  | signal _ haltRequest ih =>
    cases is
    obtain ⟨g, there, traced⟩ := ih rfl
    exact ⟨g, there.signal haltRequest, traced.signal haltRequest⟩
  | _ => cases is

/-- The engine is in front of an instruction that stops the run, and nothing else would stop it. -/
structure Halting (e : Engine (PagedMemory σ) ω) (why : Stop) : Prop where
  history : ∃ source, History referenceRunner (.idle e) source fun _ => False
  quiet : e.cpu.interruptDue = false
  unasked : e.haltRequest = 0
  unwatched : ¬ e.MayStop
  funded : 2 ≤ e.cpu.budget
  cacheable : e.machine.Cacheable e.tracksZeroPage
  stops : stopOf? e.machine.opcode = some why

structure Unmoved (e : Engine (PagedMemory σ) ω) (s : Stopped (PagedMemory σ) ω) : Prop
    extends e.SameHost s.engine where
  machine : s.engine.machine = e.machine
  budget : s.engine.cpu.budget = e.cpu.budget
  settings : s.engine.translator.settings = e.translator.settings

theorem Unmoved.quiet {e : Engine (PagedMemory σ) ω} {s : Stopped (PagedMemory σ) ω}
    (h : e.Unmoved s) : s.engine.cpu.interruptDue = e.cpu.interruptDue :=
  congrArg (fun m : Machine σ => m.cpu.interruptDue) h.machine

end Engine

structure Frame.Lingers (f : Frame (PagedMemory σ) ω) (source : Addr → PagedMemory σ)
    (g : Spot (PagedMemory σ)) (e : Engine (PagedMemory σ) ω) (why : Stop) : Prop
    extends f.At source g where
  stays : f.wayOut? = none
  stops : stopOf? g.record.opcode = some why
  addr : g.record.addr = e.cpu.pc
  machine : f.engine.core.machine e.cpu.pc = e.machine
  worth : f.worth g = e.cpu.budget
  host : e.SameHost f.engine
  settings : f.engine.translator.settings = e.translator.settings

namespace Frame.Lingers

variable {f f' : Frame (PagedMemory σ) ω} {source : Addr → PagedMemory σ}
  {g : Spot (PagedMemory σ)} {e : Engine (PagedMemory σ) ω} {why : Stop}
  {s : Stopped (PagedMemory σ) ω}

theorem stay (h : f.Lingers source g e why) (onBus : f.engine.runner.OnBus)
    (ok : f.turn = .ok (.stay f')) : f'.Lingers source g.next e why := by
  have same := sameSetup_turn ok
  rcases h.toStands.turn_spec h.coherent.toConsistent onBus ok with ⟨_, is, advances, _⟩ | rests
  · cases is
    rcases h.toAt.turn_spec onBus ok with ⟨_, is, _, there⟩ | settles
    · cases is
      obtain ⟨record, begun, machine, worth⟩ := advances.idle h.toStands h.stops
      exact {
        there with
        stays := there.toStands.stays_of_begun begun
        stops := record ▸ h.stops
        addr := record ▸ h.addr
        machine := (machine _).trans h.machine
        worth := worth.trans h.worth
        host := h.host.trans same.toSameHost
        settings := (congrArg (·.settings) same.translator).trans h.settings }
    · exact settles.elim
  · exact rests.elim

theorem stop (h : f.Lingers source g e why) (halting : e.Halting why)
    (ok : f.turn = .ok (.stop s)) : s.result = why.result e.cpu.pc ∧ e.Unmoved s := by
  have kept := sameSetup_turn ok
  cases h.toStands.idling h.stays h.stops ok with
  | leaves result machine budget =>
    rw [h.addr] at result machine
    exact ⟨result, h.host.trans kept.toSameHost, machine.trans h.machine, budget.trans h.worth,
      (congrArg (·.settings) kept.translator).trans h.settings⟩
  | asked asked => exact absurd (h.host.haltRequest.trans halting.unasked) asked
  | countdown _ short =>
    rw [h.worth] at short
    exact absurd halting.funded (Int.not_le.mpr short)
  | observed _ may =>
    unfold Engine.MayStop at may
    rw [h.host.observer] at may
    exact absurd may halting.unwatched

theorem run (h : f.Lingers source g e why) (halting : e.Halting why)
    (onBus : f.engine.runner.OnBus) {fuel : Nat} (ok : f.run fuel = .ok (.stopped s)) :
    s.result = why.result e.cpu.pc ∧ e.Unmoved s := by
  obtain ⟨f', ⟨⟨g', lingers⟩, _⟩, turn⟩ := run_last
    (P := fun f => (∃ g, f.Lingers source g e why) ∧ f.engine.runner.OnBus)
    (by
      rintro f f' ⟨⟨g, h⟩, onBus⟩ step
      rcases turn_of_running step with turn | ⟨_, _, _, _, turn, _, _⟩
      · exact ⟨⟨_, h.stay onBus turn⟩, (sameSetup_turn turn).runner ▸ onBus⟩
      · cases h.toStands.idling h.stays h.stops turn) ⟨⟨g, h⟩, onBus⟩ ok
  exact lingers.stop halting turn

end Frame.Lingers

namespace Engine

variable {e : Engine (PagedMemory σ) ω} {why : Stop}

theorem start_settings {source : Addr → PagedMemory σ} (h : e.Consistent source)
    (quiet : e.cpu.interruptDue = false) {f : Frame (PagedMemory σ) ω} (ok : e.start = .ok f) :
    f.engine.translator.settings = e.translator.settings := by
  have same := answered_of_quiet quiet
  rcases start_cases source ok with ⟨_, _, rfl, _⟩ | ⟨_, _, _, located, rfl, _⟩
  · rw [same]
    rfl
  · rw [same] at located
    have unpaused : (e.setPause none).Consistent source := h.of_same rfl rfl (.inr rfl)
    exact (unpaused.locate rfl located).2.settings

theorem Halting.start (h : e.Halting why) {f : Frame (PagedMemory σ) ω} (ok : e.start = .ok f) :
    ∃ source g, f.Lingers source g e why := by
  obtain ⟨source, history⟩ := h.history
  have coherent : e.Coherent source fun _ => False := history.stands referenceRunner_onBus
  obtain ⟨_, g, begun, addr, heads⟩ := coherent.toConsistent.start ok
  obtain ⟨cpu, memory⟩ := coherent.toConsistent.start_core ok
  have settings := start_settings coherent.toConsistent h.quiet ok
  rw [answered_of_quiet h.quiet] at addr cpu memory
  have there := begun.isAt (coherent.start ok)
  have opcode := there.opcode_eq begun.live (by
    rw [addr, Engine.tracksZeroPage, settings]
    exact h.cacheable.first.2)
  rw [addr] at opcode
  refine ⟨_, g, there, ?_, ?_, addr, ?_, ?_, sameHost_start ok, settings⟩
  · unfold Frame.wayOut?
    rw [start_leaveAt ok]
    rfl
  · rw [← opcode, memory]
    exact h.stops
  · unfold Engine.machine Core.machine
    rw [show f.engine.core.cpu = e.core.cpu from cpu,
      show f.engine.core.bus.memory = e.core.bus.memory from memory]
  · rw [(begun.solvent heads).2, cpu]

/-- A run from there comes back to where it was. -/
theorem Halting.continueRun (h : e.Halting why) :
    ∃ s, e.continueRun = .ok (.stopped s) ∧ s.result = why.result e.cpu.pc ∧ e.Unmoved s ∧
      s.engine.Halting why := by
  obtain ⟨source, history⟩ := h.history
  have runner : e.runner = referenceRunner := history.runner_eq
  obtain ⟨s, ok⟩ := continueRun_stops (history.orderly referenceRunner_onBus)
    (runner ▸ referenceRunner_charges)
  obtain ⟨f, start, run⟩ := bind_eq_ok.mp ok
  obtain ⟨_, g, lingers⟩ := h.start start
  have onBus : f.engine.runner.OnBus := by
    rw [(sameHost_start start).runner, runner]
    exact referenceRunner_onBus
  obtain ⟨result, unmoved⟩ := lingers.run h onBus run
  refine ⟨s, ok, result, unmoved, history.run ok, ?_, ?_, ?_, ?_, ?_, ?_⟩
  · exact unmoved.quiet.trans h.quiet
  · exact unmoved.haltRequest.trans h.unasked
  · unfold MayStop
    rw [unmoved.observer]
    exact h.unwatched
  · rw [unmoved.budget]
    exact h.funded
  · rw [unmoved.machine, tracksZeroPage, unmoved.settings]
    exact h.cacheable
  · rw [unmoved.machine]
    exact h.stops

def continueRuns {M : Type} [GuestMemory M] (e : Engine M ω) : Nat → Except Fault (Progress M ω)
  | 0 => e.continueRun
  | more + 1 => do
    match ← e.continueRun with
    | .stopped s => s.engine.continueRuns more
    | running => return running

theorem Halting.continueRuns (h : e.Halting why) (more : Nat) :
    ∃ s, e.continueRuns more = .ok (.stopped s) ∧ s.result = why.result e.cpu.pc ∧ e.Unmoved s := by
  induction more generalizing e with
  | zero =>
    obtain ⟨s, ok, result, unmoved, _⟩ := h.continueRun
    exact ⟨s, ok, result, unmoved⟩
  | succ more ih =>
    obtain ⟨s, ok, _, unmoved, again⟩ := h.continueRun
    obtain ⟨s', ok', result', unmoved'⟩ := ih again
    have pc : s.engine.cpu.pc = e.cpu.pc := congrArg (·.cpu.pc) unmoved.machine
    refine ⟨s', ?_, pc ▸ result', ?_⟩
    · unfold Engine.continueRuns
      rw [ok]
      exact ok'
    · exact ⟨unmoved.toSameHost.trans unmoved'.toSameHost, unmoved'.machine.trans unmoved.machine,
        unmoved'.budget.trans unmoved.budget, unmoved'.settings.trans unmoved.settings⟩

end Engine

/-- The run has stopped in front of the instruction that it came to in `f₀`. Nothing has happened
since but that what was charged for the rest of its run of cycles was given back. -/
structure Stopped.Restores (s : Stopped (PagedMemory σ) ω) (f₀ : Frame (PagedMemory σ) ω) : Prop where
  starts : f₀.Starts s.engine.cpu.pc
  machine : s.engine.machine = f₀.engine.core.machine s.engine.cpu.pc
  budget : s.engine.cpu.budget = f₀.level s.engine.cpu.pc
  rest : f₀.level s.engine.cpu.pc
    = f₀.engine.cpu.budget + if f₀.engine.startsRunAt f₀.pos.ip then 0 else 2

namespace Frame

variable {f f₀ : Frame (PagedMemory σ) ω} {source : Addr → PagedMemory σ}
  {g : Spot (PagedMemory σ)} {why : Stop} {s : Stopped (PagedMemory σ) ω}

theorem Within.translator {retired : List Addr} (h : Within f₀ f retired) :
    f.engine.translator = f₀.engine.translator := by
  induction h with
  | here => rfl
  | stay _ ok ih => exact (sameSetup_turn ok).translator.trans ih
  | signal _ _ ih => exact ih

/-- A turn that ends the run with an exit has come to nothing since the instruction began. -/
theorem At.restores (h : f.At source g) (traced : f.Traced g)
    (runner : f.engine.runner = referenceRunner) (ok : f.turn = .ok (.stop s)) {addr : Addr}
    (result : s.result = why.result addr) (unasked : f.Charges → f.engine.haltRequest = 0)
    (cacheable : s.engine.machine.Cacheable s.engine.tracksZeroPage) :
    s.result = why.result s.engine.cpu.pc ∧ s.engine.machine.report.exit = some why ∧
      ∃ f₀, f₀.Within f [] ∧ s.Restores f₀ := by
  have stays : f.wayOut? = none := by
    cases out : f.wayOut? with
    | none => rfl
    | some p =>
      rw [h.turn_leaving out] at ok
      unfold leaveStale at ok
      split at ok
      · cases ok
      · obtain ⟨_, _, done⟩ := bind_eq_ok.mp ok
        cases done
  obtain ⟨why', stops⟩ := h.stop_of_exit stays traced runner ok result unasked cacheable
  have keeps : ∀ op ∈ g.done, op.retires = false := fun op mem =>
    (h.idles stops (List.mem_append_left _ mem)).keeps
  obtain ⟨live, f₀, began⟩ := traced stays keeps
  obtain ⟨machine₀, worth₀⟩ := began.idle why' stops
  obtain ⟨_, owed, _⟩ := h.last_of_stop stops
  cases h.toStands.idling stays stops ok with
  | leaves left machine budget =>
    have pc : s.engine.cpu.pc = g.record.addr := congrArg (·.cpu.pc) machine
    cases Stop.result_inj (left.symm.trans result)
    have plain := cacheable.first.1
    have tracked : Tracked s.engine.tracksZeroPage s.engine.cpu.pc := cacheable.first.2
    have translator : s.engine.translator = f.engine.translator := (sameSetup_turn ok).translator
    rw [pc, Engine.tracksZeroPage, translator] at tracked
    have opcode : s.engine.machine.opcode = g.record.opcode := by
      rw [machine]
      exact h.opcode_eq live tracked
    refine ⟨pc ▸ left, ?_, f₀, began.within, pc ▸ began.starts, ?_, ?_, ?_⟩
    · rw [Machine.report_stop plain, opcode]
      exact stops
    · rw [pc, ← machine₀]
      exact machine
    · rw [pc, ← worth₀]
      exact budget
    · have fixup := h.fixup
      rw [began.within.translator] at fixup
      rw [pc, level, fixup]
      split
      · rfl
      · exact congrArg (fun n : Nat => f₀.engine.cpu.budget + n) owed
  | asked asked charges => exact absurd (unasked charges) asked
  | countdown left =>
    rw [left] at result
    cases why <;> cases result
  | observed left =>
    rw [left] at result
    cases why <;> cases result

end Frame

namespace Engine

/-- Exits and faults of the guest are atomic, and come again. A run that ends in one is in front of
the instruction that the machine would exit at, with all as it was when the run came to it, and as
many runs from there as one likes end in the same way and change nothing. -/
theorem History.exits_repeat {f : Frame (PagedMemory σ) ω} {source : Addr → PagedMemory σ}
    {s : Stopped (PagedMemory σ) ω} {why : Stop} {addr : Addr}
    (history : History referenceRunner (.running f) source fun _ => False)
    (ok : f.turn = .ok (.stop s)) (result : s.result = why.result addr)
    (unasked : f.Charges → f.engine.haltRequest = 0)
    (cacheable : s.engine.machine.Cacheable s.engine.tracksZeroPage) :
    s.result = why.result s.engine.cpu.pc ∧ s.engine.machine.report.exit = some why ∧
      (∃ f₀, f₀.Within f [] ∧ s.Restores f₀) ∧
      (¬ s.engine.MayStop → 2 ≤ s.engine.cpu.budget → ∀ more, ∃ s',
        Engine.continueRuns { s.engine with haltRequest := 0 } more = .ok (.stopped s') ∧
          s'.result = s.result ∧ s'.engine.machine = s.engine.machine ∧
          s'.engine.cpu.budget = s.engine.cpu.budget) := by
  obtain ⟨g, there, traced⟩ := history.traced referenceRunner_onBus
  obtain ⟨same, exits, restores⟩ :=
    there.restores traced history.runner_eq ok result unasked cacheable
  refine ⟨same, exits, restores, fun unwatched funded more => ?_⟩
  obtain ⟨e₀, initially, reached⟩ := history.reaches referenceRunner_onBus
  obtain ⟨_, attends⟩ := reached.attends initially
  have quietly : f.engine.runner.ExitsQuietly := by
    rw [show f.engine.runner = referenceRunner from history.runner_eq]
    exact referenceRunner_exitsQuietly
  rw [Machine.report_stop cacheable.first.1] at exits
  have halting : Halting { s.engine with haltRequest := 0 } why := {
    history := ⟨source, (history.stop ok).request 0⟩
    quiet := (attends.heeded ok).quiet attends.quiet (.inl quietly)
    unasked := rfl
    unwatched := unwatched
    funded := funded
    cacheable := cacheable
    stops := exits }
  obtain ⟨s', runs, again, unmoved⟩ := halting.continueRuns more
  exact ⟨s', runs, again.trans same.symm, unmoved.machine, unmoved.budget⟩

def exitsBehind (e : Engine (PagedMemory Unit) Unit) : Bool :=
  match (e.aim 0 100).run 20 with
  | .ok (.stopped ⟨e', .ok reason⟩) =>
    reason == .exit && e'.cpu.pc == 5 && e'.cpu.budget == 93 &&
      decide (e'.machine.Cacheable e'.tracksZeroPage)
  | _ => false

theorem exists_exitsBehind {e : Engine (PagedMemory Unit) Unit} (h : e.exitsBehind = true) :
    ∃ s, (e.aim 0 100).run 20 = .ok (.stopped s) ∧ s.result = .ok .exit ∧ s.engine.cpu.pc = 5 ∧
      s.engine.cpu.budget = 93 ∧ s.engine.machine.Cacheable s.engine.tracksZeroPage := by
  unfold exitsBehind at h
  split at h
  · next e' reason run =>
    simp only [Bool.and_eq_true, beq_iff_eq, decide_eq_true_eq] at h
    obtain ⟨⟨⟨rfl, pc⟩, budget⟩, cacheable⟩ := h
    exact ⟨_, run, rfl, pc, budget, cacheable⟩
  · cases h

/-- The exit was charged with the instruction in front of it, which the program had stored there. -/
theorem exits_repeat_behind : ∃ (e : Engine (PagedMemory Unit) Unit)
    (s : Stopped (PagedMemory Unit) Unit),
    fresh overwriting tight () .powerOn none = .ok e ∧ (e.aim 0 100).run 20 = .ok (.stopped s) ∧
      s.result = .ok .exit ∧ s.engine.cpu.pc = 5 ∧ s.engine.cpu.budget = 93 ∧
      (∃ f f₀ : Frame (PagedMemory Unit) Unit, f₀.Within f [] ∧ s.Restores f₀) ∧
      ∀ more, ∃ s', continueRuns { s.engine with haltRequest := 0 } more = .ok (.stopped s') ∧
        s'.result = .ok .exit ∧ s'.engine.machine = s.engine.machine ∧
        s'.engine.cpu.budget = 93 := by
  have facts : (fresh overwriting tight () .powerOn none).toOption.map exitsBehind = some true := by
    decide +kernel
  obtain ⟨e, made, facts⟩ := exists_ok_of_map facts
  obtain ⟨s, run, result, pc, budget, cacheable⟩ := exists_exitsBehind facts
  have is := isNew_of_fresh made
  have host := sameHost_run run
  obtain ⟨f₁, start, ran⟩ := bind_eq_ok.mp run
  have running := ((is.history fun _ => overwriting).aim 0 100).start (fun _ => id) start
  obtain ⟨f, source, there, turn⟩ := running.last ran
  have still : f.engine.haltRequest = s.engine.haltRequest :=
    (Frame.sameSetup_turn turn).haltRequest.symm
  have unasked : s.engine.haltRequest = 0 := host.haltRequest.trans is.unasked
  have unwatched : ¬ s.engine.MayStop := by
    intro ⟨observer, set, _⟩
    cases (host.observer.trans is.observer).symm.trans set
  have exit : s.result = Stop.exit.result 5 := result
  obtain ⟨_, _, ⟨f₀, within, restores⟩, again⟩ :=
    there.exits_repeat turn exit (fun _ => still.trans unasked) cacheable
  refine ⟨e, s, made, run, result, pc, budget, ⟨f, f₀, within, restores⟩, fun more => ?_⟩
  obtain ⟨s', runs, result', machine, budget'⟩ := again unwatched (by omega) more
  exact ⟨s', runs, result'.trans result, machine, budget'.trans budget⟩

/-- A no-operation, and an exit that the host is to overwrite with another one. -/
def waiting : PagedMemory Unit :=
  .load .blank 0 [0xEA, 0x02, 0x02]

structure Moves (e : Engine (PagedMemory Unit) Unit) (s₁ s₂ s₃ : Stopped (PagedMemory Unit) Unit) :
    Prop where
  first : (e.aim 0 100).run 20 = .ok (.stopped s₁)
  stale : ((s₁.engine.modifyMemory fun m => m.load 1 [0xEA]).aim 0 100).run 20 = .ok (.stopped s₂)
  again : s₂.engine.continueRun = .ok (.stopped s₃)
  results : s₂.result = .ok .exit ∧ s₃.result = .ok .exit
  pcs : s₂.engine.cpu.pc = 1 ∧ s₃.engine.cpu.pc = 2
  budgets : s₂.engine.cpu.budget = 98 ∧ s₃.engine.cpu.budget = 96
  cacheable : s₂.engine.machine.Cacheable s₂.engine.tracksZeroPage

def moves (e : Engine (PagedMemory Unit) Unit) : Bool :=
  match (e.aim 0 100).run 20 with
  | .ok (.stopped s₁) =>
    match ((s₁.engine.modifyMemory fun m => m.load 1 [0xEA]).aim 0 100).run 20 with
    | .ok (.stopped ⟨e₂, .ok reason₂⟩) =>
      match e₂.continueRun with
      | .ok (.stopped ⟨e₃, .ok reason₃⟩) =>
        reason₂ == .exit && reason₃ == .exit && e₂.cpu.pc == 1 && e₃.cpu.pc == 2 &&
          e₂.cpu.budget == 98 && e₃.cpu.budget == 96 &&
          decide (e₂.machine.Cacheable e₂.tracksZeroPage)
      | _ => false
    | _ => false
  | _ => false

theorem exists_moves {e : Engine (PagedMemory Unit) Unit} (h : e.moves = true) :
    ∃ s₁ s₂ s₃, e.Moves s₁ s₂ s₃ := by
  unfold moves at h
  split at h
  · next s₁ first =>
    split at h
    · next e₂ reason₂ stale =>
      split at h
      · next e₃ reason₃ again =>
        simp only [Bool.and_eq_true, beq_iff_eq, decide_eq_true_eq] at h
        obtain ⟨⟨⟨⟨⟨⟨rfl, rfl⟩, pc₂⟩, pc₃⟩, budget₂⟩, budget₃⟩, cacheable⟩ := h
        exact ⟨s₁, _, _, first, stale, again, ⟨rfl, rfl⟩, ⟨pc₂, pc₃⟩, ⟨budget₂, budget₃⟩, cacheable⟩
      · cases h
    · cases h
  · cases h

/-- Where the host has not retired the code that it overwrote, an exit of the old code does not come
again: the next run goes on to the exit of the new code. -/
theorem exit_moves_unreported : ∃ (e : Engine (PagedMemory Unit) Unit)
    (s₁ s₂ s₃ : Stopped (PagedMemory Unit) Unit),
    fresh waiting tight () .powerOn none = .ok e ∧ e.Moves s₁ s₂ s₃ ∧
      s₂.engine.haltRequest = 0 ∧ ¬ s₂.engine.MayStop ∧ 2 ≤ s₂.engine.cpu.budget ∧
      s₃.engine.cpu.pc ≠ s₂.engine.cpu.pc ∧ s₃.engine.cpu.budget ≠ s₂.engine.cpu.budget := by
  have facts : (fresh waiting tight () .powerOn none).toOption.map moves = some true := by
    decide +kernel
  obtain ⟨e, made, facts⟩ := exists_ok_of_map facts
  obtain ⟨s₁, s₂, s₃, moves⟩ := exists_moves facts
  have is := isNew_of_fresh made
  have first := sameHost_run moves.first
  have stale := sameHost_run moves.stale
  have unasked : s₂.engine.haltRequest = 0 :=
    stale.haltRequest.trans (first.haltRequest.trans is.unasked)
  have unobserved : s₂.engine.observer = none :=
    stale.observer.trans (first.observer.trans is.observer)
  obtain ⟨pc₂, pc₃⟩ := moves.pcs
  obtain ⟨budget₂, budget₃⟩ := moves.budgets
  refine ⟨e, s₁, s₂, s₃, made, moves, unasked, ?_, ?_, ?_, ?_⟩
  · intro ⟨observer, set, _⟩
    cases unobserved.symm.trans set
  · rw [budget₂]
    decide
  · rw [pc₂, pc₃]
    decide
  · rw [budget₂, budget₃]
    decide

end Engine

end Mos6502
