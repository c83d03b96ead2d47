import Mos6502.Proofs.Engine.Refinement

/-! What an instruction costs that compiled code leaves to the interpreter. From it on the run of
cycles is given back, and the interpreter's cycles are taken instead. A decimal sum that is indexed
within a page has had a cycle back by then, and keeps it. -/
namespace Mos6502

open Record

variable {σ ω : Type}

namespace Instruction

open Interpreter Mos6502.Core

/-- A decimal sum whose page check has given a cycle back before the decimal flag is looked at. -/
def keepsRefund (i : Instruction) (o : LoweringOptions) (s : Machine σ) : Bool :=
  i.sums && s.cpu.decimal && !i.needsInterpreter s.memory && i.refundsCrossing o &&
    indexedModes.contains i.operation.mode &&
      samePage (i.resolved s.cpu s.memory).1.base (i.resolved s.cpu s.memory).1.effective

theorem cycles_of_sums {i : Instruction} (sums : i.sums = true) {s : Machine σ}
    (here : s.cpu.pc = i.addr) :
    (i.performed s).1.1.cycles
      = i.operation.cycles.toNat + indexPenalty i.operation (i.resolved s.cpu s.memory).1 := by
  have named : (operationOf i.opcode).mnemonic = .adc ∨ (operationOf i.opcode).mnemonic = .sbc :=
    i.sums_iff.mp sums
  unfold performed perform resolved
  rw [here]
  rcases named with named | named <;>
  · rw [named]
    rfl

theorem samePage_resolved {i : Instruction} (indexed : i.operation.mode ∈ indexedModes)
    (first : i.mayCrossPage = false) (cpu : Cpu) (m : PagedMemory σ) :
    samePage (i.resolved cpu m).1.base (i.resolved cpu m).1.effective = true := by
  unfold mayCrossPage operand at first
  unfold resolved
  simp only [indexedModes, List.mem_cons, List.not_mem_nil, or_false] at indexed
  rcases indexed with mode | mode | mode
  · rw [mode] at first ⊢
    have first : lowByte (word i.low i.high) = 0 := by simpa using first
    exact samePage_index first cpu.x
  · rw [mode] at first ⊢
    have first : lowByte (word i.low i.high) = 0 := by simpa using first
    exact samePage_index first cpu.y
  · rw [mode] at first
    cases first

theorem early_eq (i : Instruction) (o : LoweringOptions) {s : Machine σ} (here : s.cpu.pc = i.addr) :
    i.early o s = if i.keepsRefund o s then 1 else 0 := by
  unfold early keepsRefund
  cases timed : o.exactTimings with
  | false => simp [refundsCrossing, timed]
  | true =>
    cases sums : i.sums with
    | false => simp
    | true =>
      rw [cycles_of_sums sums here]
      cases s.cpu.decimal with
      | false => simp
      | true =>
        cases i.needsInterpreter s.memory with
        | true => simp
        | false =>
          by_cases mode : i.operation.mode ∈ indexedModes
          · have stays := fun first => samePage_resolved mode first s.cpu s.memory
            have spent := spent_indexed (o := o) mode stays 0
            rw [timed, if_pos rfl] at spent
            have listed : indexedModes.contains i.operation.mode = true := by simpa using mode
            rw [listed]
            cases refunds : i.refundsCrossing o with
            | false =>
              rw [refunds] at spent
              simp at spent ⊢
              omega
            | true =>
              rw [refunds] at spent
              cases page : samePage (i.resolved s.cpu s.memory).1.base
                  (i.resolved s.cpu s.memory).1.effective <;>
              · rw [page] at spent
                simp at spent ⊢
                omega
          · have reads : i.operation.mnemonic ∈ readers := by
              rcases i.sums_iff.mp sums with named | named <;> simp [readers, named]
            have straight := not_relative (mode_of_reader reads)
            have listed : indexedModes.contains i.operation.mode = false := by simpa using mode
            rw [i.maxCycles_plain o mode straight, indexPenalty_plain _ mode, listed]
            simp

end Instruction

namespace Frame

def stays? (f : Frame (PagedMemory σ) ω) : Nat → Option (Frame (PagedMemory σ) ω)
  | 0 => some f
  | n + 1 =>
    match f.turn with
    | .ok (.stay f') => f'.stays? n
    | _ => none

def Charges (f : Frame (PagedMemory σ) ω) : Prop :=
  f.wayOut? = none ∧ f.engine.startsRunAt f.pos.ip = true

def Bounces (f : Frame (PagedMemory σ) ω) (addr : Addr) : Prop :=
  f.wayOut? = none ∧ ∃ op len, f.engine.translator.arena.decodeAt f.pos.ip = .ok (op, len) ∧
    (Native.execOp op f.engine.core).1 = .bounce addr

def compiled (f : Frame (PagedMemory σ) ω) (source : Addr → PagedMemory σ) (s : Machine σ) :
    Instruction :=
  .fetch (source f.pos.block) s.cpu.pc

variable {f f' : Frame (PagedMemory σ) ω} {source : Addr → PagedMemory σ}
  {g : Spot (PagedMemory σ)} {c : Core (PagedMemory σ)}

theorem stays?_succ {n : Nat} (stays : f.stays? (n + 1) = some f') :
    ∃ f₁, f.turn = .ok (.stay f₁) ∧ f₁.stays? n = some f' := by
  unfold stays? at stays
  split at stays
  · next f₁ turn => exact ⟨f₁, turn, stays⟩
  · cases stays

theorem step_stay (turn : f.turn = .ok (.stay f')) : f.step = .ok (.running f') := by
  unfold step
  rw [turn]
  rfl

theorem visits_succ (turn : f.turn = .ok (.stay f')) (n : Nat) :
    f.visits (n + 1) = (f.started?.map f.engine.core.machine).toList ++ f'.visits n := by
  rw [visits, step_stay turn]

theorem visits_one (f : Frame (PagedMemory σ) ω) :
    f.visits 1 = (f.started?.map f.engine.core.machine).toList := by
  unfold visits
  split
  · exact List.append_nil _
  · exact List.append_nil _

theorem visits_stays {n : Nat} (stays : f.stays? n = some f') (k : Nat) :
    f.visits (n + k) = f.visits n ++ f'.visits k := by
  induction n generalizing f with
  | zero =>
    cases stays
    rw [Nat.zero_add]
    rfl
  | succ n ih =>
    obtain ⟨f₁, turn, rest⟩ := stays?_succ stays
    rw [Nat.succ_add, visits_succ turn, visits_succ turn, ih rest, List.append_assoc]

theorem Stands.begins_of_charges (h : f.Stands g) (charges : f.Charges) :
    g.done = [] ∧ g.record.startsRun = true := by
  obtain ⟨op, rest, todo⟩ := List.exists_cons_of_ne_nil h.inside.more
  have heads := charges.2
  unfold Engine.startsRunAt at heads
  rw [h.decode todo] at heads
  cases op with
  | uop u =>
    cases u with
    | countdown addr cycles =>
      obtain ⟨_, begins, runs, _⟩ := h.at_countdown todo
      exact ⟨begins, runs⟩
    | _ => cases heads
  | _ => cases heads

theorem At.stay_cases (h : f.At source g) (works : f.Works g c)
    (runner : f.engine.runner = referenceRunner) (turn : f.turn = .ok (.stay f')) :
    f.wayOut? = none ∧ f'.pos.block = f.pos.block ∧ f'.At source g.next ∧
      (f'.Works g.next c ∧ begun g.next c = [c.machine g.record.addr] ∧
          g.next.unspent c = g.unspent c ∨
        f'.Works g.next f'.engine.core ∧ begun g.next f'.engine.core = [] ∧
          (g.task c).bounced = false ∧
          g.next.unspent f'.engine.core + (g.task c).price = g.unspent c) := by
  have onBus : f.engine.runner.OnBus := runner ▸ referenceRunner_onBus
  rcases h.toStands.turn_spec h.coherent.toConsistent onBus turn with ⟨_, is, advances, _⟩ | rests
  · cases is
    cases h.turns works runner turn with
    | within stays there works' begun record unspent =>
      refine ⟨stays, advances.block, there, .inl ⟨works', ?_, unspent⟩⟩
      rw [begun_cons begun, record]
    | next stays there works' begins _ =>
      obtain ⟨op, rest, todo, goes⟩ := advances.goes
      rcases h.inside.next_cases todo (fun ends => ends _ _ goes) with
        ⟨_, is⟩ | ⟨rfl, r, post, behind, is⟩
      · rw [is] at begins
        simp at begins
      · have reached := works.reached_next h.inside todo goes behind
        exact ⟨stays, advances.block, there, .inr ⟨works', begun_nil begins, reached.native,
          h.unspent_next behind is there reached⟩⟩
  · exact rests.elim

theorem At.stays (h : f.At source g) (works : f.Works g c)
    (runner : f.engine.runner = referenceRunner) (timed : f.engine.timed = true) {n : Nat}
    (stays : f.stays? n = some f') :
    ∃ g' c' earlier, f'.At source g' ∧ f'.Works g' c' ∧ f'.pos.block = f.pos.block ∧
      f'.engine.runner = referenceRunner ∧ f'.engine.timed = true ∧
      begun g c ++ f.visits n = earlier ++ begun g' c' ∧
      g'.unspent c' + (earlier.map fun s => ((f.compiled source s).performed s).1.1.cycles).sum
        = g.unspent c := by
  induction n generalizing f g c with
  | zero =>
    cases stays
    exact ⟨g, c, [], h, works, rfl, runner, timed, List.append_nil _, Int.add_zero _⟩
  | succ n ih =>
    obtain ⟨f₁, turn, rest⟩ := stays?_succ stays
    have setup := sameSetup_turn turn
    have runner₁ : f₁.engine.runner = referenceRunner := setup.runner.trans runner
    have timed₁ : f₁.engine.timed = true := by
      unfold Engine.timed at timed ⊢
      rw [show f₁.engine.translator = f.engine.translator from setup.translator]
      exact timed
    obtain ⟨stay, block, there, works_on⟩ := h.stay_cases works runner turn
    have compiled : f₁.compiled source = f.compiled source := by
      unfold Frame.compiled
      rw [block]
    rw [visits_succ turn, ← List.append_assoc, ← underWay, h.underWay_stays works stay]
    rcases works_on with ⟨works₁, seen, unspent⟩ | ⟨works₁, seen, native, paid⟩
    · obtain ⟨g', c', earlier, there', works', block', runner', timed', visits, left⟩ :=
        ih there works₁ runner₁ timed₁ rest
      rw [seen] at visits
      rw [compiled, unspent] at left
      exact ⟨g', c', earlier, there', works', block'.trans block, runner', timed', visits, left⟩
    · obtain ⟨g', c', earlier, there', works', block', runner', timed', visits, left⟩ :=
        ih there works₁ runner₁ timed₁ rest
      rw [seen, List.nil_append] at visits
      rw [compiled] at left
      refine ⟨g', c', c.machine g.record.addr :: earlier, there', works', block'.trans block,
        runner', timed', by rw [visits]; rfl, ?_⟩
      have exact : (g.task c).options.exactTimings = true := h.timed_eq.trans timed
      have price := Task.price_exact native exact
      have here : ((f.compiled source (c.machine g.record.addr)).performed
          (c.machine g.record.addr)).1.1.cycles = (g.task c).performed.1.1.cycles := by
        unfold Frame.compiled
        rw [← h.memory]
        rfl
      rw [List.map_cons, List.sum_cons, here]
      omega

theorem At.bounces (h : f.At source g) (works : f.Works g c)
    (runner : f.engine.runner = referenceRunner) {addr target : Addr} (bounces : f.Bounces addr)
    {e : Engine (PagedMemory σ) ω} (turn : f.turn = .ok (.go e target)) :
    g.record.addr = addr ∧
      e.cpu.budget + (c.machine g.record.addr).report.cycles
        + (if (c.machine g.record.addr).step.2.cpu.interruptDue then Interpreter.interruptCycles
            else 0 : Nat) = g.unspent c + (g.task c).early := by
  obtain ⟨stay, op, len, decoded, outcome⟩ := bounces
  obtain ⟨op', rest, todo⟩ := List.exists_cons_of_ne_nil h.inside.more
  cases (h.decode todo).symm.trans decoded
  rw [h.turn_running stay todo, outcome] at turn
  have framed := Native.framed_execOp op f.engine.core
  have meets : (g.task c).Meets (.bounce addr) (Native.execOp op f.engine.core).2 := by
    have runs := works.runs
    rw [todo] at runs
    rw [← outcome]
    exact runs.1
  have low : (Native.execOp op f.engine.core).2.bus.memory.LowPlain := works.low.of_pages framed.pages
  have fits : (Native.execOp op f.engine.core).2.bus.Fits :=
    h.coherent.fits.of_pages framed.threshold framed.pages
  refine ⟨meets.1.symm, ?_⟩
  have out := h.bounced (e := { f.engine with core := (Native.execOp op f.engine.core).2 }) works low
    fits rfl runner meets turn
  rcases out with ⟨_, _, is, _⟩ | ⟨e', n, is, _, _, times, paid⟩
  · cases is
  · cases is
    rw [times] at paid
    rw [← paid]
    split <;> simp

end Frame

namespace Engine

open Mos6502.Frame

/-- From the countdown that charged a run up to an instruction of it that is left to the interpreter,
the budget falls by the cycles of every instruction before it, the cycles that the interpreter takes,
and those of the interrupt behind it. A decimal sum that is indexed within its page has a cycle too
many left. -/
theorem History.bounce_budget {f₀ f : Frame (PagedMemory σ) ω} {source : Addr → PagedMemory σ}
    (history : History referenceRunner (.running f₀) source fun _ => False)
    (low : f₀.engine.memory.LowPlain) (timed : f₀.engine.timed = true) (charges : f₀.Charges)
    {n : Nat} (stays : f₀.stays? n = some f) {addr target : Addr} (bounces : f.Bounces addr)
    {e : Engine (PagedMemory σ) ω} (turn : f.turn = .ok (.go e target)) :
    ∃ earlier s, f₀.visits (n + 1) = earlier ++ [s] ∧ s.cpu.pc = addr ∧
      e.cpu.budget = f₀.engine.cpu.budget
        - (earlier.map fun s => ((f₀.compiled source s).performed s).1.1.cycles).sum
        - s.report.cycles
        - (if s.step.2.cpu.interruptDue then Interpreter.interruptCycles else 0 : Nat)
        + (if (f₀.compiled source s).keepsRefund { exactTimings := true } s then 1 else 0) := by
  obtain ⟨g₀, c₀, there₀, works₀⟩ : ∃ g c, f₀.At source g ∧ f₀.Works g c := history.inProgress low
  have runner₀ : f₀.engine.runner = referenceRunner := history.runner_eq
  obtain ⟨begins, heads⟩ := there₀.begins_of_charges charges
  obtain ⟨g, c, earlier, there, works, block, runner, timed, visits, left⟩ :=
    there₀.stays works₀ runner₀ timed stays
  have full : g₀.unspent c₀ = f₀.engine.cpu.budget := by
    rw [there₀.unspent_eq, if_pos heads, Int.add_zero, works₀.begins begins]
    rfl
  rw [begun_nil begins, List.nil_append] at visits
  obtain ⟨here, paid⟩ := there.bounces works runner bounces turn
  refine ⟨earlier, c.machine g.record.addr, ?_, here, ?_⟩
  · rw [visits_stays stays, visits, visits_one, List.append_assoc, ← underWay,
      there.underWay_stays works bounces.1]
  · have early : (g.task c).early = if (f₀.compiled source (c.machine g.record.addr)).keepsRefund
        { exactTimings := true } (c.machine g.record.addr) then 1 else 0 := by
      have timed : (g.task c).options.exactTimings = true := there.timed_eq.trans timed
      have instr : (g.task c).instr = f₀.compiled source (c.machine g.record.addr) := by
        unfold Frame.compiled
        rw [← block, ← there.memory]
        rfl
      unfold Task.early
      rw [Instruction.early_eq _ _ rfl, instr]
      unfold Instruction.keepsRefund Instruction.refundsCrossing
      rw [timed]
      rfl
    rw [early] at paid
    omega

def adding : PagedMemory Unit :=
  PagedMemory.blank.load 0 [0xF8, 0x7D, 0x05, 0x20, 0x02]

/-- A hundred cycles are five less behind the set flag, which takes two, and the sum, which takes
four. -/
def bouncesAdding (e : Engine (PagedMemory Unit) Unit) : Bool :=
  match (e.aim 0 100).start with
  | .ok f₀ =>
    match f₀.stays? 3 with
    | some f =>
      match f.engine.translator.arena.decodeAt f.pos.ip, f.turn with
      | .ok (op, _), .ok (.go e' _) =>
        f₀.engine.timed && f₀.wayOut?.isNone && f₀.engine.startsRunAt f₀.pos.ip &&
          f.wayOut?.isNone && (Native.execOp op f.engine.core).1 == .bounce 1 &&
          f₀.engine.cpu.budget == 100 && e'.cpu.budget == 95 &&
          (f₀.visits 4).map (·.report.cycles) == [2, 4]
      | _, _ => false
    | none => false
  | .error _ => false

theorem exists_bounce {e : Engine (PagedMemory Unit) Unit} (h : e.bouncesAdding = true) :
    ∃ f₀ f e' target, (e.aim 0 100).start = .ok f₀ ∧ f₀.stays? 3 = some f ∧
      f.turn = .ok (.go e' target) ∧ f₀.engine.timed = true ∧ f₀.Charges ∧ f.Bounces 1 ∧
      f₀.engine.cpu.budget = 100 ∧ e'.cpu.budget = 95 ∧
      (f₀.visits 4).map (·.report.cycles) = [2, 4] := by
  unfold bouncesAdding at h
  split at h
  · next f₀ start =>
    split at h
    · next f stays =>
      split at h
      · next op len e' target decoded turn =>
        simp only [Bool.and_eq_true, beq_iff_eq, Option.isNone_iff_eq_none] at h
        obtain ⟨⟨⟨⟨⟨⟨⟨timed, first⟩, heads⟩, stay⟩, bounces⟩, full⟩, left⟩, cycles⟩ := h
        exact ⟨f₀, f, e', target, start, stays, turn, timed, ⟨first, heads⟩,
          ⟨stay, op, len, decoded, bounces⟩, full, left, cycles⟩
      · cases h
    · cases h
  · cases h

theorem bounce_budget_adding : ∃ (e₀ : Engine (PagedMemory Unit) Unit)
    (f₀ : Frame (PagedMemory Unit) Unit) (e : Engine (PagedMemory Unit) Unit)
    (source : Addr → PagedMemory Unit) (earlier : List (Machine Unit)) (s : Machine Unit),
    fresh adding tight () .powerOn none = .ok e₀ ∧ (e₀.aim 0 100).start = .ok f₀ ∧
      f₀.engine.cpu.budget = 100 ∧ e.cpu.budget = 95 ∧
      f₀.visits 4 = earlier ++ [s] ∧ (f₀.visits 4).map (·.report.cycles) = [2, 4] ∧
      e.cpu.budget = f₀.engine.cpu.budget
        - (earlier.map fun s => ((f₀.compiled source s).performed s).1.1.cycles).sum
        - s.report.cycles
        - (if s.step.2.cpu.interruptDue then Interpreter.interruptCycles else 0 : Nat)
        + (if (f₀.compiled source s).keepsRefund { exactTimings := true } s then 1 else 0) := by
  have facts : (fresh adding tight () .powerOn none).toOption.map bouncesAdding = some true := by
    decide +kernel
  obtain ⟨e₀, made, facts⟩ := exists_ok_of_map facts
  obtain ⟨f₀, f, e, target, start, stays, turn, timed, charges, bounces, full, left, cycles⟩ :=
    exists_bounce facts
  have is := isNew_of_fresh made
  have low : (e₀.aim 0 100).memory.LowPlain := is.memory ▸ PagedMemory.lowPlain_load_blank _ _
  have running := ((is.history fun _ => adding).aim 0 100).start (fun _ => id) start
  obtain ⟨earlier, s, visits, _, budget⟩ := running.bounce_budget
    (low.of_pages (start_pages start)) timed charges stays bounces turn
  exact ⟨e₀, f₀, e, _, earlier, s, made, start, full, left, visits, cycles, budget⟩

end Engine

end Mos6502
