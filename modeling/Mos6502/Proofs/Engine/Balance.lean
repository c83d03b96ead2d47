import Mathlib.Algebra.Order.BigOperators.Group.List
import Mos6502.Proofs.Engine.Bounce
import Mos6502.Proofs.Engine.Slices
import Mos6502.Proofs.Engine.Termination
import Mos6502.Proofs.Engine.WholeRun

/-! The balance of a run. What is charged for an instruction is the worst that it may take, so what
is given back of it is never more than was charged, and what the interpreter takes is never more
than was given back. -/
namespace Mos6502

open Record

variable {σ ω : Type}

namespace Instruction

open Interpreter Mos6502.Core

variable {i : Instruction} {o : LoweringOptions} {s : Machine σ}

theorem branch_of_relative (mode : i.operation.mode = .relative) :
    i.operation.branch = .conditional := by
  revert mode
  apply Native.forall_byte (p := fun opcode => (operationOf opcode).mode = .relative →
    (operationOf opcode).branch = .conditional)
  decide +kernel

theorem cycles_le_maxCycles (timed : o.exactTimings = true) (here : s.cpu.pc = i.addr) :
    (i.performed s).1.1.cycles ≤ (i.maxCycles o).toNat := by
  have most : (i.performed s).1.1.cycles
      ≤ i.operation.cycles.toNat + indexPenalty i.operation (i.resolved s.cpu s.memory).1
        + if i.operation.branch = .conditional then
            branchPenalty (i.addr + i.operation.len.toUInt16)
              (i.resolved s.cpu s.memory).1.effective
          else 0 := by
    rw [← here]
    exact perform_cycles_le (by unfold resolved; rw [here]; rfl)
  by_cases branches : i.operation.branch = .conditional
  · obtain ⟨relative, _, two, _⟩ := facts_of_branch branches
    have plain : i.operation.mode ∉ indexedModes := by simp [relative, indexedModes]
    rw [if_pos branches, indexPenalty_plain _ plain, resolved_branch branches, two,
      len_branch branches] at most
    rw [maxCycles_branch branches timed]
    exact most
  · rw [if_neg branches, Nat.add_zero] at most
    by_cases mode : i.operation.mode ∈ indexedModes
    · have stays := fun first => samePage_resolved mode first s.cpu s.memory
      have spent := spent_indexed (o := o) mode stays 0
      rw [timed, if_pos rfl] at spent
      split at spent
      · split at spent <;> omega
      · omega
    · rw [indexPenalty_plain _ mode] at most
      rw [i.maxCycles_plain o mode fun relative => branches (branch_of_relative relative)]
      exact most

theorem price_le_maxCycles (timed : o.exactTimings = true) (here : s.cpu.pc = i.addr) :
    i.price o s ≤ (i.maxCycles o).toNat := by
  have most := cycles_le_maxCycles timed here
  unfold price
  rw [timed, Bool.true_or, if_pos rfl, i.early_eq o here]
  split <;> omega

theorem price_nonneg (timed : o.exactTimings = true) (here : s.cpu.pc = i.addr)
    (completes : (i.performed s).1.1.exit = none) : 0 ≤ i.price o s := by
  have table := i.cycles_bounds.1
  have least : i.operation.cycles.toNat ≤ (i.performed s).1.1.cycles := perform_cycles completes
  unfold price
  rw [timed, Bool.true_or, if_pos rfl, i.early_eq o here]
  split <;> omega

end Instruction

namespace Machine

variable {s : Machine σ} {zeroPage : Bool}

theorem price_nonneg (cacheable : s.Cacheable zeroPage) (completes : s.report.exit = none) :
    0 ≤ s.price true := by
  unfold report at completes
  rw [cacheable.plain.step_eq] at completes
  exact Instruction.price_nonneg rfl rfl completes

theorem spent_nonneg {n : Nat} (cacheable : ∀ m ∈ s.visits n, m.Cacheable zeroPage)
    (completes : ∀ m ∈ s.visits n, m.report.exit = none) : 0 ≤ s.spent true n := by
  refine Int.add_nonneg (List.sum_nonneg ?_) (Int.natCast_nonneg _)
  intro price mem
  obtain ⟨m, visited, rfl⟩ := List.mem_map.mp mem
  exact price_nonneg (cacheable m visited) (completes m visited)

end Machine

namespace Spot

variable {M : Type}

def dues (g : Spot M) : Nat :=
  if g.charged then g.owed else 0

theorem dues_head {g : Spot M} (begins : g.done = []) (heads : g.record.startsRun = true) :
    g.dues = 0 := by
  unfold dues
  rw [charged_eq_false.mpr ⟨begins, heads⟩]
  rfl

theorem dues_begun {g : Spot M} (begun : g.done ≠ []) : g.dues = g.owed := by
  unfold dues
  rw [charged_of_begun begun]
  rfl

variable [GuestMemory M] {g : Spot M}

theorem owed_next (begun : g.next.done ≠ []) : g.next.owed = g.owed := by
  unfold next at begun ⊢
  split at begun
  · rfl
  · exact absurd rfl begun
  · rfl

theorem dues_next (more : g.todo ≠ []) (begins : g.next.done = []) :
    g.next.dues = (restOfRun g.post).toNat := by
  unfold next at begins ⊢
  split at begins
  · next todo => exact absurd todo more
  · next r post todo behind =>
    rw [behind]
    unfold dues
    rw [charged_of_begins rfl, restOfRun]
    cases starts : r.startsRun with
    | true => simp [begin, starts]
    | false => simp [begin, starts, owed]
  · simp at begins

end Spot

namespace Frame

variable {f f' : Frame (PagedMemory σ) ω} {source source' : Addr → PagedMemory σ}
  {g g' : Spot (PagedMemory σ)} {c c' : Core (PagedMemory σ)} {s : Stopped (PagedMemory σ) ω}

/-- The frame is at work with exact timings and no interrupt to come, and the budget in front of the
instruction covers what is charged from it on. -/
structure Covers (f : Frame (PagedMemory σ) ω) (g : Spot (PagedMemory σ))
    (c : Core (PagedMemory σ)) : Prop where
  timed : f.engine.timed = true
  unheld : (c.machine g.record.addr).cpu.irq = false
  paid : g.dues ≤ g.unspent c

theorem Covers.owed_le (covers : f.Covers g c) (h : f.At source g) (works : f.Works g c)
    (stays : f.wayOut? = none) {t : Turn (PagedMemory σ) ω} (ok : f.turn = .ok t)
    (goes : ∀ s, t ≠ .stop s) : g.owed ≤ g.unspent c := by
  have paid := covers.paid
  unfold Spot.dues at paid
  cases charged : g.charged with
  | true =>
    rw [charged] at paid
    exact paid
  | false =>
    obtain ⟨begins, heads⟩ := Spot.charged_eq_false.mp charged
    obtain ⟨len, turn⟩ := h.turn_head stays begins heads
    have unspent := h.unspent_eq (c := c)
    rw [if_pos heads, Int.add_zero, works.begins begins] at unspent
    rw [turn] at ok
    cases ok
    unfold charge at goes
    split at goes
    · exact absurd rfl (goes _)
    · split at goes
      · exact absurd rfl (goes _)
      · next covered =>
        rw [works.begins begins, unspent]
        exact Int.sub_nonneg.mp (Int.not_lt.mp covered)

theorem Covers.spent_le (covers : f.Covers g c) (h : f.At source g) (works : f.Works g c)
    (stays : f.wayOut? = none)
    (cacheable : (c.machine g.record.addr).Cacheable f.engine.tracksZeroPage) {n : Nat}
    {next : Machine σ} (passes : (c.machine g.record.addr).Passes n next) :
    (c.machine g.record.addr).spent f.engine.timed n + (restOfRun g.post).toNat ≤ g.owed := by
  have price := (works.faithful stays cacheable).price_eq
  rw [h.timed_eq] at price
  have most : (g.task c).price ≤ ((g.task c).instr.maxCycles (g.task c).options).toNat :=
    Instruction.price_le_maxCycles (h.timed_eq.trans covers.timed) rfl
  have none := (Machine.interrupts_low covers.unheld n).2
  have here : (c.machine g.record.addr).price f.engine.timed = (g.task c).price := price
  rw [passes.spent_eq, none, here, h.owed_eq (c := c)]
  omega

/-- What is charged stays covered, from one instruction to the next. -/
theorem Steps.covers (steps : f.Steps f' source g c source' g' c') (h : f.At source g)
    (works : f.Works g c) (settings : f'.engine.timed = f.engine.timed) (covers : f.Covers g c)
    (cacheable : f.wayOut? = none → g'.done = [] →
      (c.machine g.record.addr).Cacheable f.engine.tracksZeroPage) : f'.Covers g' c' := by
  have timed := settings.trans covers.timed
  cases steps with
  | within turn stays begun record unspent =>
    refine ⟨timed, record ▸ covers.unheld, ?_⟩
    have owed := covers.owed_le h works stays turn fun _ is => nomatch is
    rw [Spot.dues_begun begun, Spot.owed_next begun, unspent]
    exact owed
  | next turn stays begins passes =>
    have cacheable := cacheable stays begins
    obtain ⟨passes, paid⟩ := passes cacheable
    have owed := covers.owed_le h works stays turn fun _ is => nomatch is
    have spent := covers.spent_le h works stays cacheable passes
    refine ⟨timed, ?_, ?_⟩
    · rw [← passes.after]
      exact (Machine.interrupts_low covers.unheld 1).1
    · rw [Spot.dues_next h.inside.more begins]
      omega
  | enters turn turns fresh =>
    have unspent := fresh.unspent
    have machine := fresh.machine
    rw [← fresh.addr] at machine
    cases turns with
    | back begins dead _ same budget =>
      refine ⟨timed, ?_, ?_⟩
      · rw [machine, fresh.addr, same]
        exact covers.unheld
      · rw [Spot.dues_head fresh.begins fresh.heads, unspent, budget]
        exact Int.le_trans (Int.natCast_nonneg _) covers.paid
    | goes stays _ passes =>
      have cacheable := cacheable stays fresh.begins
      obtain ⟨n, passes, paid⟩ := passes cacheable
      have owed := covers.owed_le h works stays turn fun _ is => nomatch is
      have spent := covers.spent_le h works stays cacheable passes
      refine ⟨timed, ?_, ?_⟩
      · rw [machine, fresh.addr, ← passes.after]
        exact (Machine.interrupts_low covers.unheld n).1
      · rw [Spot.dues_head fresh.begins fresh.heads, unspent]
        omega

/-- What a run has passed it has executed, for it has started something behind it. -/
theorem At.cacheable_passed (h : f.At source g) (works : f.Works g c)
    (runner : f.engine.runner = referenceRunner) (unasked : f.engine.haltRequest = 0) {fuel : Nat}
    (run : f.run fuel = .ok (.stopped s)) (fresh : begun g c = []) {passed : Machine σ}
    (cacheable : ∀ m ∈ s.executed (passed :: f.visits fuel),
      m.Cacheable f.engine.tracksZeroPage) :
    passed.Cacheable f.engine.tracksZeroPage ∧
      ∀ m ∈ s.executed (begun g c ++ f.visits fuel), m.Cacheable f.engine.tracksZeroPage := by
  have later : ∀ m ∈ s.executed (begun g c ++ f.visits fuel),
      m.Cacheable f.engine.tracksZeroPage := by
    rw [fresh, List.nil_append]
    exact fun m mem => cacheable m (Stopped.mem_executed_cons mem)
  obtain ⟨n, ends⟩ := h.endsAfter works runner unasked run later
  rw [fresh, List.nil_append] at ends
  exact ⟨cacheable _ ends.mem_executed, later⟩

theorem Covers.run (covers : f.Covers g c) (h : f.At source g) (works : f.Works g c)
    (runner : f.engine.runner = referenceRunner) (unasked : f.engine.haltRequest = 0) {fuel : Nat}
    (run : f.run fuel = .ok (.stopped s))
    (cacheable : ∀ m ∈ s.executed (begun g c ++ f.visits fuel),
      m.Cacheable f.engine.tracksZeroPage) : 0 ≤ s.engine.cpu.budget := by
  induction fuel generalizing f source g c with
  | zero => cases run
  | succ fuel ih =>
    unfold visits at cacheable
    rw [← List.append_assoc, ← underWay] at cacheable
    obtain ⟨_, fuel_eq, stopped | ⟨f', step, rest⟩⟩ := run_cases run
    · rw [stopped] at cacheable
      dsimp only at cacheable
      rw [List.append_nil] at cacheable
      have spent := (h.stops works runner unasked stopped cacheable).spent
      have paid := covers.paid
      have none : (c.machine g.record.addr).spent f.engine.timed 0 = 0 := rfl
      omega
    · cases fuel_eq
      have host := sameHost_step step
      obtain ⟨source', g', c', there, works', steps, settings, _⟩ := h.steps works runner step
      have zeroPage : f'.engine.tracksZeroPage = f.engine.tracksZeroPage :=
        congrArg (·.options.zeroPageCode) settings
      have timed : f'.engine.timed = f.engine.timed := congrArg (·.options.exactTimings) settings
      have runner' := host.runner.trans runner
      have unasked' := host.haltRequest.trans unasked
      rw [step] at cacheable
      dsimp only at cacheable
      have started := h.underWay_stays works
      cases steps.moves h works with
      | still seen =>
        have next := steps.covers h works timed covers (by
          intro stays begins
          rw [started stays, begun_nil begins] at seen
          cases seen)
        rw [seen, ← zeroPage] at cacheable
        exact ih next there works' runner' unasked' rest cacheable
      | passes seen fresh _ =>
        rw [seen, List.singleton_append, ← zeroPage] at cacheable
        obtain ⟨here, later⟩ :=
          there.cacheable_passed works' runner' unasked' rest fresh cacheable
        have next := steps.covers h works timed covers fun _ _ => zeroPage ▸ here
        exact ih next there works' runner' unasked' rest later

end Frame

namespace Engine

/-- The engine is in front of a run of cycles of a live block that its budget does not cover. -/
structure ShortOf (e : Engine (PagedMemory σ) ω) (block : Addr) (offset : Nat) (cycles : UInt32) :
    Prop where
  live : (e.blocks.entryAt? block).isSome
  ptr : e.blocks.ptr? e.cpu.pc = some ⟨block, offset⟩
  counts : e.translator.countdownAt? offset = some (e.cpu.pc, cycles)
  fixup : (e.translator.note e.cpu.pc).fixup = some cycles
  short : e.cpu.budget < cycles.toNat

end Engine

theorem Frame.FallsShort.shortOf {f : Frame (PagedMemory σ) ω} {g : Spot (PagedMemory σ)}
    {s : Stopped (PagedMemory σ) ω} (falls : f.FallsShort g s) (h : f.Stands g) :
    s.engine.ShortOf f.pos.block f.pos.ip (g.record.maxCycles.toUInt32 + restOfRun g.post) := by
  have pc : s.engine.cpu.pc = g.record.addr := by rw [falls.cpu]
  have ip : f.pos.ip = g.entry := by
    rw [h.ip]
    simp [Spot.ip, falls.begins]
  refine ⟨?_, ?_, ?_, ?_, ?_⟩
  · rcases h.wayOut_none falls.stays with ⟨live, _⟩ | ⟨_, begun, _⟩
    · rw [falls.blocks, (f.engine.isIntact_iff f.pos).mp live]
      rfl
    · exact absurd falls.begins begun
  · rw [falls.blocks, pc, ip]
    exact h.ptr
  · rw [falls.translator, pc]
    exact (h.countdownAt falls.begins falls.heads).1
  · rw [falls.translator, pc]
    exact h.fixup
  · rw [falls.cpu]
    exact falls.short

namespace Engine

variable {e : Engine (PagedMemory σ) ω} {source : Addr → PagedMemory σ} {fuel : Nat}
  {s : Stopped (PagedMemory σ) ω}

theorem History.budget_nonneg
    (history : History referenceRunner (.idle e) source fun _ => False)
    (low : e.memory.LowPlain) (timed : e.timed = true) (unheld : e.cpu.irq = false)
    (unasked : e.haltRequest = 0) (funded : 0 ≤ e.cpu.budget)
    (ok : e.run fuel = .ok (.stopped s))
    (cacheable : ∀ m ∈ e.executed fuel, m.Cacheable e.tracksZeroPage) :
    0 ≤ s.engine.cpu.budget := by
  have coherent : e.Coherent source fun _ => False := history.stands referenceRunner_onBus
  have quiet : e.cpu.interruptDue = false := by
    unfold Cpu.interruptDue
    rw [unheld, Bool.false_and]
  obtain ⟨f, start, run⟩ := bind_eq_ok.mp ok
  rw [executed_of_run ok, visits, start] at cacheable
  dsimp only at cacheable
  obtain ⟨g, fresh⟩ := coherent.fresh_start (history.inProgress low) low start
  rw [answered_of_quiet quiet] at fresh
  have host := sameHost_start start
  have zeroPage : f.engine.tracksZeroPage = e.tracksZeroPage :=
    congrArg (·.options.zeroPageCode) fresh.settings
  have exact_timings : f.engine.timed = e.timed :=
    congrArg (·.options.exactTimings) fresh.settings
  have covers : f.Covers g f.engine.core := by
    refine ⟨exact_timings.trans timed, ?_, ?_⟩
    · rw [fresh.addr, fresh.machine]
      exact unheld
    · rw [Spot.dues_head fresh.begins fresh.heads, fresh.unspent]
      exact funded
  refine covers.run fresh.there fresh.works (host.runner.trans history.runner_eq)
    (host.haltRequest.trans unasked) run ?_
  rw [Frame.begun_nil fresh.begins, List.nil_append, zeroPage]
  exact cacheable

theorem History.shortOf (history : History referenceRunner (.idle e) source fun _ => False)
    (unasked : e.haltRequest = 0) (ok : e.run fuel = .ok (.stopped s))
    (out : s.result = .ok .countdown) :
    ∃ block offset cycles, s.engine.ShortOf block offset cycles := by
  obtain ⟨f, start, run⟩ := bind_eq_ok.mp ok
  obtain ⟨f', source', there, turn⟩ := (history.start (fun _ => id) start).last run
  obtain ⟨_, g, at_g⟩ := there.stands referenceRunner_onBus
  have still : f'.engine.haltRequest = s.engine.haltRequest :=
    (Frame.sameSetup_turn turn).haltRequest.symm
  have unasked : s.engine.haltRequest = 0 := (sameHost_run ok).haltRequest.trans unasked
  have falls := at_g.toStands.fallsShort (still.trans unasked) turn out
  exact ⟨_, _, _, falls.shortOf at_g.toStands⟩

/-- The budget is neither overdrawn nor refunded beyond what was there. A run with exact timings and
no interrupt to come returns with some of it left, and where it ends for want of cycles, it is in
front of a run of cycles that costs more than that, with nothing of it executed. -/
theorem History.balances (history : History referenceRunner (.idle e) source fun _ => False)
    (low : e.memory.LowPlain) (timed : e.timed = true) (unheld : e.cpu.irq = false)
    (unasked : e.haltRequest = 0) {pc : Addr} {budget : Int} (funded : 0 ≤ budget)
    (cacheable : ∀ m ∈ (e.aim pc budget).executed (fuelFor budget),
      m.Cacheable e.tracksZeroPage) :
    ∃ s, e.execute pc budget = .ok (.stopped s) ∧
      0 ≤ s.engine.cpu.budget ∧ s.engine.cpu.budget ≤ budget ∧
      (s.result = .ok .countdown → ∃ block offset cycles n,
        s.engine.ShortOf block offset cycles ∧
          s.engine.machine = (e.core.machine pc).after n ∧
          (e.aim pc budget).executed (fuelFor budget) = (e.core.machine pc).visits n) := by
  have aimed := history.aim pc budget
  have charges : e.runner.Charges :=
    (show e.runner = referenceRunner from history.runner_eq) ▸ referenceRunner_charges
  obtain ⟨s, ok⟩ := continueRun_stops (aimed.orderly referenceRunner_onBus) charges
  have run : (e.aim pc budget).run (fuelFor budget) = .ok (.stopped s) := ok
  obtain ⟨n, ends⟩ := aimed.endsAfter low run cacheable
  have executed := executed_of_run run
  rw [ends.executed] at executed
  refine ⟨s, ok, aimed.budget_nonneg low timed unheld unasked funded run cacheable, ?_, ?_⟩
  · have spent := ends.spent
    rw [show (e.aim pc budget).timed = true from timed] at spent
    have cost : 0 ≤ (e.aim pc budget).machine.spent true n := by
      refine Machine.spent_nonneg (fun m mem => cacheable m ?_) ends.completes
      rw [executed]
      exact List.mem_append_left _ mem
    have full : (e.aim pc budget).cpu.budget = budget := rfl
    omega
  · intro out
    obtain ⟨block, offset, cycles, short⟩ := aimed.shortOf unasked run out
    refine ⟨block, offset, cycles, n, short, ends.lands, ?_⟩
    have held : s.held = true := by
      unfold Stopped.held
      rw [out]
      exact Bool.or_true _
    rw [executed, held]
    exact List.append_nil _

/-- A sum in decimal mode, left to the interpreter, and a return from interrupt to the beginning. -/
def circling : PagedMemory Unit :=
  .load .blank 0 [0xF8, 0x69, 0x01, 0x40]

structure Circles (e : Engine (PagedMemory Unit) Unit) (s : Stopped (PagedMemory Unit) Unit) :
    Prop where
  run : e.execute 0 25 = .ok (.stopped s)
  result : s.result = .ok .countdown
  budget : s.engine.cpu.budget = 5
  executed : ((e.aim 0 25).executed (fuelFor 25)).length = 6 ∧
    ∀ m ∈ (e.aim 0 25).executed (fuelFor 25), m.Cacheable e.tracksZeroPage

def circles (e : Engine (PagedMemory Unit) Unit) : Bool :=
  match e.execute 0 25 with
  | .ok (.stopped ⟨e', .ok reason⟩) =>
    reason == .countdown && e'.cpu.budget == 5 &&
      decide (((e.aim 0 25).executed (fuelFor 25)).length = 6 ∧
        ∀ m ∈ (e.aim 0 25).executed (fuelFor 25), m.Cacheable e.tracksZeroPage)
  | _ => false

theorem exists_circles {e : Engine (PagedMemory Unit) Unit} (h : e.circles = true) :
    ∃ s, e.Circles s := by
  unfold circles at h
  split at h
  · next e' reason run =>
    simp only [Bool.and_eq_true, beq_iff_eq, decide_eq_true_eq] at h
    obtain ⟨⟨rfl, budget⟩, executed⟩ := h
    exact ⟨_, run, rfl, budget, executed⟩
  · cases h

theorem balances_circling : ∃ (e : Engine (PagedMemory Unit) Unit)
    (s : Stopped (PagedMemory Unit) Unit) (block : Addr) (offset : Nat) (cycles : UInt32) (n : Nat),
    fresh circling tight () .powerOn none = .ok e ∧ e.Circles s ∧ 0 ≤ s.engine.cpu.budget ∧
      s.engine.cpu.budget ≤ 25 ∧ s.engine.ShortOf block offset cycles ∧
      s.engine.machine = (e.core.machine 0).after n ∧ ((e.core.machine 0).visits n).length = 6 := by
  have facts : (fresh circling tight () .powerOn none).toOption.map circles = some true := by
    decide +kernel
  obtain ⟨e, made, facts⟩ := exists_ok_of_map facts
  obtain ⟨s, circles⟩ := exists_circles facts
  have is := isNew_of_fresh made
  have low : e.memory.LowPlain := is.memory ▸ PagedMemory.lowPlain_load_blank _ _
  have unheld : e.cpu.irq = false := by rw [is.cpu]; rfl
  obtain ⟨s', ok, least, most, short⟩ := (is.history fun _ => circling).balances low is.timed
    unheld is.unasked (by decide) circles.executed.2
  cases circles.run.symm.trans ok
  obtain ⟨block, offset, cycles, n, short, lands, executed⟩ := short circles.result
  have six := circles.executed.1
  rw [executed] at six
  exact ⟨e, s, block, offset, cycles, n, made, circles, least, most, short, lands, six⟩

/-- A return from interrupt to itself, which the host is to overwrite with an instruction that takes
a cycle more. -/
def returning : PagedMemory Unit :=
  .load .blank 0 [0x40]

def overwritten (e : Engine (PagedMemory Unit) Unit) : Engine (PagedMemory Unit) Unit :=
  e.modifyMemory fun m => m.load 0 [0xFE, 0x00, 0x30]

structure Overdraws (e : Engine (PagedMemory Unit) Unit) (s₁ s₂ : Stopped (PagedMemory Unit) Unit) :
    Prop where
  first : e.execute 0 6 = .ok (.stopped s₁)
  stale : s₁.engine.overwritten.execute 0 6 = .ok (.stopped s₂)
  executed : ∀ m ∈ (s₁.engine.overwritten.aim 0 6).executed (fuelFor 6),
    m.Cacheable e.tracksZeroPage
  unheld : s₁.engine.cpu.irq = false
  budget : s₂.engine.cpu.budget = -1

def overdraws (e : Engine (PagedMemory Unit) Unit) : Bool :=
  match e.execute 0 6 with
  | .ok (.stopped s₁) =>
    match s₁.engine.overwritten.execute 0 6 with
    | .ok (.stopped s₂) =>
      !s₁.engine.cpu.irq && s₂.engine.cpu.budget == -1 &&
        decide (∀ m ∈ (s₁.engine.overwritten.aim 0 6).executed (fuelFor 6),
          m.Cacheable e.tracksZeroPage)
    | _ => false
  | _ => false

theorem exists_overdraws {e : Engine (PagedMemory Unit) Unit} (h : e.overdraws = true) :
    ∃ s₁ s₂, e.Overdraws s₁ s₂ := by
  unfold overdraws at h
  split at h
  · next s₁ first =>
    split at h
    · next s₂ stale =>
      simp only [Bool.and_eq_true, Bool.not_eq_true', beq_iff_eq, decide_eq_true_eq] at h
      obtain ⟨⟨unheld, budget⟩, executed⟩ := h
      exact ⟨s₁, s₂, first, stale, executed, unheld, budget⟩
    · cases h
  · cases h

/-- Where the host has not retired the code that it overwrote, the interpreter takes more than was
charged for the old code, and more than there is. -/
theorem overdrawn_unreported : ∃ (e : Engine (PagedMemory Unit) Unit)
    (s₁ s₂ : Stopped (PagedMemory Unit) Unit),
    fresh returning tight () .powerOn none = .ok e ∧ e.Overdraws s₁ s₂ ∧ e.timed = true ∧
      e.memory.LowPlain ∧ s₁.engine.haltRequest = 0 ∧ s₂.engine.cpu.budget < 0 := by
  have facts : (fresh returning tight () .powerOn none).toOption.map overdraws = some true := by
    decide +kernel
  obtain ⟨e, made, facts⟩ := exists_ok_of_map facts
  obtain ⟨s₁, s₂, overdraws⟩ := exists_overdraws facts
  have is := isNew_of_fresh made
  refine ⟨e, s₁, s₂, made, overdraws, is.timed, ?_, ?_, ?_⟩
  · exact is.memory ▸ PagedMemory.lowPlain_load_blank _ _
  · exact (sameHost_run overdraws.first).haltRequest.trans is.unasked
  · rw [overdraws.budget]
    decide

end Engine

end Mos6502
