import Mos6502.Proofs.Engine.Outcome
import Mos6502.Proofs.Engine.Reach
import Mos6502.Proofs.Native.Refunds

/-! What a run has left. With what is charged already for the rest of the run of cycles, the budget
gets less with every instruction by more than all its refunds: whether it is executed natively, left
to the interpreter, or the last one of a block that it has retired. -/
namespace Mos6502

open Record
open HostOp (refunds)

/-- On a step that completes the runner reports two cycles or more, as every instruction takes, and
leaves the budget alone or lowers it. -/
def InstructionRunner.Charges {M ω : Type} (runner : InstructionRunner M ω) : Prop :=
  ∀ host cpu bus, (runner host cpu bus).1.1.exit = none →
    2 ≤ (runner host cpu bus).1.1.cycles ∧ (runner host cpu bus).1.2.budget ≤ cpu.budget

theorem referenceRunner_charges {M ω : Type} [GuestMemory M] :
    (referenceRunner : InstructionRunner M ω).Charges := by
  intro host cpu bus completes
  have cycles : 2 ≤ (Interpreter.step cpu bus).1.1.cycles :=
    Interpreter.two_le_step_cycles completes
  have budget : (Interpreter.step cpu bus).1.2.budget = cpu.budget := Interpreter.step_budget cpu bus
  exact ⟨cycles, Int.le_of_eq budget⟩

theorem Native.Continues.budget {M : Type} {out : Outcome} {c d : Core M}
    (h : Native.Continues out c d) (uncounted : ∀ addr cycles, out ≠ .charge addr cycles) :
    d.cpu.budget = c.cpu.budget := by
  cases h with
  | charge => exact absurd rfl (uncounted _ _)
  | next | stale | unobserved | observed => rfl

theorem Engine.answerIrq_budget_le {σ ω : Type} (e : Engine (PagedMemory σ) ω) :
    e.answerIrq.cpu.budget ≤ e.cpu.budget := by
  cases due : e.cpu.interruptDue with
  | true => exact Int.le.intro _ (answerIrq_budget due)
  | false => exact Int.le_of_eq (congrArg (·.cpu.budget) (answerIrq_quiet due))

namespace Spot

variable {M : Type} {g : Spot M} {start : Addr}

def charged (g : Spot M) : Bool :=
  !g.done.isEmpty || !g.record.startsRun

/-- What is charged and not used yet, but for refunds. -/
def pending (g : Spot M) : Int :=
  if g.charged then g.owed - refunds g.done else 0

theorem charged_eq_false : g.charged = false ↔ g.done = [] ∧ g.record.startsRun = true := by
  simp [charged]

theorem charged_of_begun (begun : g.done ≠ []) : g.charged = true := by
  simp [charged, begun]

theorem charged_of_begins (begins : g.done = []) : g.charged = !g.record.startsRun := by
  simp [charged, begins]

variable [GuestMemory M]

theorem Inside.refunds_le (h : g.Inside start) :
    refunds (g.done ++ g.todo) + 2 ≤ g.record.maxCycles.toNat := by
  rw [← h.code]
  exact h.lowered.refunds_le g.post

theorem Inside.refunds_of_asks (h : g.Inside start) {op : HostOp} (mem : op ∈ g.todo)
    (asks : op.asks = true) : refunds g.done ≤ 1 := by
  have all : refunds (g.record.ops g.image.memory ++ onwardOps g.record g.post) ≤ 1 := by
    refine h.lowered.refunds_of_asks ?_ asks
    rw [h.code]
    exact List.mem_append_right _ mem
  rw [h.code, HostOp.refunds_append] at all
  omega

theorem Inside.length_todo (h : g.Inside start) : g.todo.length ≤ maxHostOps := by
  have all := h.lowered.length_ops_le (h.block.snug g.record h.mem) g.post
  rw [h.code, List.length_append] at all
  omega

theorem pending_begin {i : Image M} {pre post : List Record} {r : Record} :
    (begin i pre r post).pending = (restOfRun (r :: post)).toNat := by
  have charged : (begin i pre r post).charged = !r.startsRun := rfl
  unfold pending
  rw [charged, restOfRun]
  cases r.startsRun with
  | true => rfl
  | false => exact Int.sub_zero _

end Spot

namespace Frame

variable {σ ω : Type}

/-- What is left of the budget, with what is charged already for the rest of the run. -/
def worth (f : Frame (PagedMemory σ) ω) (g : Spot (PagedMemory σ)) : Int :=
  f.engine.cpu.budget + g.pending

theorem worth_of_charged {f : Frame (PagedMemory σ) ω} {g : Spot (PagedMemory σ)}
    (charged : g.charged = true) :
    f.worth g = f.engine.cpu.budget + (g.owed - refunds g.done) := by
  unfold worth Spot.pending
  rw [charged, if_pos rfl]

theorem worth_of_uncharged {f : Frame (PagedMemory σ) ω} {g : Spot (PagedMemory σ)}
    (uncharged : g.charged = false) : f.worth g = f.engine.cpu.budget := by
  unfold worth Spot.pending
  rw [uncharged]
  exact Int.add_zero _

/-- The frame stands at its place, and what is charged was there to be charged. -/
structure Solvent (f : Frame (PagedMemory σ) ω) (g : Spot (PagedMemory σ)) : Prop
    extends f.Stands g where
  funded : g.charged = true → 0 ≤ f.engine.cpu.budget

variable {f f' : Frame (PagedMemory σ) ω} {source : Addr → PagedMemory σ}
  {g g' : Spot (PagedMemory σ)} {t : Turn (PagedMemory σ) ω}

inductive Spends (f : Frame (PagedMemory σ) ω) (g : Spot (PagedMemory σ)) :
    Turn (PagedMemory σ) ω → Prop
  | stay {f' : Frame (PagedMemory σ) ω} {op : HostOp} {rest : List HostOp}
    (todo : g.todo = op :: rest) (funded : 0 ≤ f'.engine.cpu.budget)
    (paid : f'.engine.cpu.budget + g.owed - refunds (g.done ++ [op]) ≤ f.worth g) :
    Spends f g (.stay f')
  | go {e : Engine (PagedMemory σ) ω} {target : Addr} (funded : 0 < f.worth g)
    (paid : e.cpu.budget < f.worth g) : Spends f g (.go e target)
  | stop {s : Stopped (PagedMemory σ) ω} : Spends f g (.stop s)

theorem Solvent.refunds_le (h : f.Solvent g) {op : HostOp} {rest : List HostOp}
    (todo : g.todo = op :: rest) : refunds (g.done ++ [op]) + 2 ≤ g.record.maxCycles.toNat := by
  have all := h.inside.refunds_le
  rw [todo, HostOp.refunds_append, HostOp.refunds_cons] at all
  rw [HostOp.refunds_append, HostOp.refunds_cons, HostOp.refunds_nil]
  omega

theorem Solvent.spends_head (h : f.Solvent g) (stays : f.wayOut? = none)
    (uncharged : g.charged = false) (ok : f.turn = .ok t) : f.Spends g t := by
  obtain ⟨begins, heads⟩ := Spot.charged_eq_false.mp uncharged
  obtain ⟨rest, todo⟩ := h.todo_head begins heads
  obtain ⟨len, turn⟩ := h.turn_head stays begins heads
  rw [turn] at ok
  cases ok
  unfold charge
  split
  · exact .stop
  · split
    · exact .stop
    · next covered =>
      have left : (f.engine.mapCpu fun c => { c with budget := c.budget - (g.owed : Int) }).cpu.budget
          = f.engine.cpu.budget - g.owed := by
        rw [Engine.mapCpu_eq]
        rfl
      have free : refunds (g.done ++ [.uop (.countdown g.record.addr
          (g.record.maxCycles.toUInt32 + restOfRun g.post))]) = 0 := by
        rw [begins]
        rfl
      refine .stay todo ?_ ?_
      · exact Int.not_lt.mp (left ▸ covered)
      · rw [free, worth_of_uncharged uncharged]
        change (f.engine.mapCpu fun c => { c with budget := c.budget - (g.owed : Int) }).cpu.budget
          + _ - _ ≤ _
        rw [left]
        simp

/-- What the interpreter takes is more than the refund that its instruction may have had. -/
theorem Solvent.bounce (h : f.Solvent g) (charged : g.charged = true)
    (charges : f.engine.runner.Charges) {op : HostOp} (mem : op ∈ g.todo) (asks : op.asks = true)
    (ok : f.engine.bounce g.record.addr = .ok t) : f.Spends g t := by
  obtain ⟨left, left_at, step, cpu, bus, host, ran, out⟩ := Engine.bounce_eq_ok ok
  obtain ⟨budget, refund, is⟩ := Engine.leaveAt_eq_ok left_at
  have given : left.cpu.budget = f.engine.cpu.budget + g.owed := by
    rw [h.refund_eq] at refund
    cases refund
    rw [is, Engine.mapCpu_eq]
    rfl
  rcases out with ⟨why, _, rfl⟩ | ⟨completes, after, rfl, rfl⟩
  · exact .stop
  · have took := charges left.host left.core.cpu left.core.bus
    rw [← (Engine.sameSetup_leaveAt left_at).runner, ran] at took
    obtain ⟨cycles, lower⟩ := took completes
    have lower : cpu.budget ≤ left.cpu.budget := lower
    have cycles : 2 ≤ step.cycles := cycles
    have answered := Engine.answerIrq_budget_le { left with
      core := ⟨{ cpu with budget := cpu.budget - step.cycles }, bus⟩, host }
    have spent : Engine.cpu { left with
        core := ⟨{ cpu with budget := cpu.budget - step.cycles }, bus⟩, host }
        = { cpu with budget := cpu.budget - step.cycles } := rfl
    rw [spent] at answered
    dsimp only at answered
    -- A read may have had its refund in front of the question whether sums are decimal.
    have few := h.inside.refunds_of_asks mem asks
    have owed := h.inside.owed_eq
    have least := h.inside.refunds_le
    have funded := h.funded charged
    have worth := worth_of_charged (f := f) charged
    rw [HostOp.refunds_append] at least
    refine .go ?_ ?_ <;> omega

theorem Solvent.spends_charged (h : f.Solvent g) (charges : f.engine.runner.Charges)
    (stays : f.wayOut? = none) (charged : g.charged = true) (ok : f.turn = .ok t) :
    f.Spends g t := by
  obtain ⟨op, rest, todo⟩ := List.exists_cons_of_ne_nil h.inside.more
  have mem : op ∈ g.todo := by simp [todo]
  have about := h.about todo
  have explained := (Native.framed_execOp op f.engine.core).explained
  have spares := Native.spares_execOp op f.engine.core
  have least := h.refunds_le todo
  have owed := h.inside.owed_eq
  have funded := h.funded charged
  have worth := worth_of_charged (f := f) charged
  have given : refunds (g.done ++ [op]) = refunds g.done + op.refunded := by
    rw [HostOp.refunds_append, HostOp.refunds_cons, HostOp.refunds_nil, Nat.add_zero]
  have before : f.engine.core.cpu.budget = f.engine.cpu.budget := rfl
  have uncounted : ∀ addr cycles, (Native.execOp op f.engine.core).1 ≠ .charge addr cycles := by
    intro addr cycles counts
    rw [counts] at explained
    obtain ⟨rfl, _⟩ := explained
    obtain ⟨_, begins, heads, _⟩ := h.at_countdown todo
    rw [Spot.charged_eq_false.mpr ⟨begins, heads⟩] at charged
    cases charged
  have spent := spares.spent
  have refunded := spares.refunded
  rw [h.turn_running stays todo] at ok
  cases follow_spec ok with
  | stay goes e' core =>
    have same : e'.cpu.budget = (Native.execOp op f.engine.core).2.cpu.budget := by
      unfold Engine.cpu
      rw [core]
      exact goes.budget uncounted
    refine .stay todo ?_ ?_
    · change 0 ≤ e'.cpu.budget
      omega
    · change e'.cpu.budget + _ - _ ≤ _
      omega
  | jump =>
    refine .go ?_ ?_
    · omega
    · change (Native.execOp op f.engine.core).2.cpu.budget < _
      omega
  | bounce is ran =>
    rw [is] at explained about
    obtain ⟨⟨u, rfl, asks⟩, same⟩ := explained
    cases about
    rw [same] at ran
    refine h.bounce charged charges mem ?_ ran
    rcases asks with rfl | rfl | rfl <;> rfl
  | leave | halt | pause | observed => exact .stop

theorem Solvent.spends (h : f.Solvent g) (charges : f.engine.runner.Charges)
    (stays : f.wayOut? = none) (ok : f.turn = .ok t) : f.Spends g t := by
  cases charged : g.charged with
  | true => exact h.spends_charged charges stays charged ok
  | false => exact h.spends_head stays charged ok

inductive Pays (f : Frame (PagedMemory σ) ω) (g : Spot (PagedMemory σ))
    (f' : Frame (PagedMemory σ) ω) (g' : Spot (PagedMemory σ)) : Prop
  | within (stays : f.wayOut? = none) (begun : g'.done ≠ [])
    (shorter : g'.todo.length < g.todo.length) (worth : f'.worth g' ≤ f.worth g)
  | leaves (out : f.wayOut? ≠ none) (stays : f'.wayOut? = none) (worth : f'.worth g' = f.worth g)
  | lands (funded : 0 < f.worth g) (worth : f'.worth g' < f.worth g)

theorem Solvent.stay (h : f.Solvent g) (charges : f.engine.runner.Charges)
    (consistent : f.engine.Consistent source) (onBus : f.engine.runner.OnBus)
    (ok : f.turn = .ok (.stay f')) : ∃ g', f'.Solvent g' ∧ f.Pays g f' g' := by
  rcases h.turn_spec consistent onBus ok with ⟨_, is, advances, _⟩ | rests
  · cases is
    cases h.spends charges advances.stays ok with
    | @stay _ op rest todo funded paid =>
      refine ⟨g.next, ⟨advances.there, fun _ => funded⟩, ?_⟩
      obtain ⟨op', rest', todo', goes⟩ := advances.goes
      cases todo.symm.trans todo'
      have least := h.refunds_le todo
      have owed := h.inside.owed_eq
      rcases h.inside.next_cases todo (fun ends => ends _ _ goes) with
        ⟨_, is⟩ | ⟨_, r, post, behind, is⟩
      · rw [is]
        refine .within advances.stays (by simp) (by simp [todo]) ?_
        have pending : f'.worth { g with done := g.done ++ [op], todo := rest }
            = f'.engine.cpu.budget + (g.owed - refunds (g.done ++ [op])) :=
          worth_of_charged (Spot.charged_of_begun (by simp))
        omega
      · rw [is]
        have pending : f'.worth (Spot.begin g.image (g.pre ++ [g.record]) r post)
            = f'.engine.cpu.budget + (restOfRun g.post).toNat := by
          rw [worth, Spot.pending_begin, behind]
        refine .lands ?_ ?_ <;> omega
  · exact rests.elim

theorem Begins.solvent (h : f.Begins source g) (heads : g.record.startsRun = true) :
    f.Solvent g ∧ f.worth g = f.engine.cpu.budget := by
  have uncharged : g.charged = false := Spot.charged_eq_false.mpr ⟨h.begins, heads⟩
  refine ⟨⟨h.toStands, fun charged => ?_⟩, worth_of_uncharged uncharged⟩
  rw [uncharged] at charged
  cases charged

/-- Leaving a retired block gives back just what is pending. -/
theorem Stands.leave_worth (h : f.Stands g) {p : LeavePoint} (out : f.wayOut? = some p)
    {e : Engine (PagedMemory σ) ω} {target : Addr} (ok : f.turn = .ok (.go e target)) :
    e.cpu.budget = f.worth g := by
  obtain ⟨_, begins, _⟩ := h.wayOut_some out
  have charged := Spot.charged_of_begins begins
  rw [h.turn_leaving out] at ok
  unfold leaveStale at ok
  rw [h.startsRunAt begins] at ok
  cases heads : g.record.startsRun with
  | true =>
    rw [heads] at ok charged
    cases ok
    exact (worth_of_uncharged charged).symm
  | false =>
    rw [heads] at ok charged
    obtain ⟨budget, refund, done⟩ := bind_eq_ok.mp ok
    cases done
    rw [h.refund_eq] at refund
    cases refund
    rw [worth_of_charged charged, begins, Engine.mapCpu_eq]
    exact congrArg (f.engine.cpu.budget + ·) (Int.sub_zero _).symm

theorem Solvent.go (h : f.Solvent g) (charges : f.engine.runner.Charges)
    (orderly : Phase.Orderly (.running f) source) {e e' : Engine (PagedMemory σ) ω} {target : Addr}
    {pos : Position} (ok : f.turn = .ok (.go e target)) (located : e.locate target = .ok (pos, e')) :
    ∃ g', Frame.Solvent ⟨e', pos, none⟩ g' ∧ f.Pays g ⟨e', pos, none⟩ g' := by
  obtain ⟨⟨_, after, _⟩, unpaused⟩ := orderly_turn orderly ok
  obtain ⟨g', begun, first, _⟩ := Engine.Consistent.enter after unpaused located
  have shape := begun.inside.block.shape
  rw [begun.inside.records, first] at shape
  obtain ⟨solvent, worth⟩ := begun.solvent shape.2.2.1
  have same : e'.cpu = e.cpu := (Engine.Consistent.locate after unpaused located).2.cpu
  rw [same] at worth
  refine ⟨g', solvent, ?_⟩
  cases stays : f.wayOut? with
  | some p =>
    have kept := h.leave_worth stays ok
    exact .leaves (by simp [stays]) rfl (worth.trans kept)
  | none =>
    cases h.spends charges stays ok with
    | go funded paid => exact .lands funded (worth ▸ paid)

theorem Solvent.step (h : f.Solvent g) (charges : f.engine.runner.Charges)
    (orderly : Phase.Orderly (.running f) source) (ok : f.step = .ok (.running f')) :
    ∃ g', f'.Solvent g' ∧ f.Pays g f' g' := by
  rcases turn_of_running ok with turn | ⟨_, _, _, _, turn, located, rfl⟩
  · exact h.stay charges orderly.2.1 orderly.1 turn
  · exact h.go charges orderly turn located

end Frame

end Mos6502
