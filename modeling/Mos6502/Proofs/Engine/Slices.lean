import Mos6502.Proofs.Block.Costs
import Mos6502.Proofs.Engine.Reach
import Mos6502.Proofs.Engine.Visits

/-! Countdowns, tables and instructions agree on what a run of cycles costs, and no run costs more
than a slice has: a slice that ends for want of cycles has executed an instruction. -/
namespace Mos6502

open Record

variable {σ ω : Type}

namespace Frame

variable {f : Frame (PagedMemory σ) ω} {g : Spot (PagedMemory σ)} {source : Addr → PagedMemory σ}
  {s : Stopped (PagedMemory σ) ω}

theorem Stands.owed_le (h : f.Stands g) :
    (g.record.maxCycles.toUInt32 + restOfRun g.post).toNat ≤ 65280 := by
  have few := h.inside.few
  have here := g.record.maxCycles.toNat_lt
  have rest := restOfRun_toNat_le g.post (by omega)
  rw [toNat_owed _ (by omega)]
  omega

/-- The run is held up at the head of a run of cycles that the budget does not cover. -/
structure FallsShort (f : Frame (PagedMemory σ) ω) (g : Spot (PagedMemory σ))
    (s : Stopped (PagedMemory σ) ω) : Prop where
  stays : f.wayOut? = none
  begins : g.done = []
  heads : g.record.startsRun = true
  short : f.engine.cpu.budget < (g.record.maxCycles.toUInt32 + restOfRun g.post).toNat
  translator : s.engine.translator = f.engine.translator
  blocks : s.engine.blocks = f.engine.blocks
  cpu : s.engine.cpu = { f.engine.cpu with pc := g.record.addr }

theorem Stands.fallsShort_of_head (h : f.Stands g) (stays : f.wayOut? = none)
    (begins : g.done = []) (heads : g.record.startsRun = true) (unasked : f.engine.haltRequest = 0)
    (ok : f.turn = .ok (.stop s)) : f.FallsShort g s := by
  obtain ⟨len, turn⟩ := h.turn_head stays begins heads
  rw [turn] at ok
  unfold charge at ok
  rw [if_neg (not_not_intro unasked)] at ok
  split at ok
  · next short =>
    cases ok
    exact ⟨stays, begins, heads, Int.lt_of_sub_neg short, rfl, rfl, rfl⟩
  · cases ok

theorem Stands.fallsShort (h : f.Stands g) (unasked : f.engine.haltRequest = 0)
    (ok : f.turn = .ok (.stop s)) (out : s.result = .ok .countdown) : f.FallsShort g s := by
  have ended : ∀ (why : Stop) (addr : Addr), why.result addr ≠ .ok .countdown := by
    intro why addr
    cases why <;> exact fun is => nomatch is
  cases stays : f.wayOut? with
  | some p =>
    rw [h.turn_leaving stays] at ok
    unfold leaveStale at ok
    split at ok
    · cases ok
    · obtain ⟨_, _, done⟩ := bind_eq_ok.mp ok
      cases done
  | none =>
    obtain ⟨op, rest, todo⟩ := List.exists_cons_of_ne_nil h.inside.more
    have turn := ok
    rw [h.turn_running stays todo] at turn
    cases follow_spec turn with
    | bounce _ ran =>
      obtain ⟨_, _, _, _, _, _, _, ⟨why, _, is⟩ | ⟨_, _, _, is⟩⟩ := Engine.bounce_eq_ok ran
      · cases is
        exact absurd out (ended why _)
      · cases is
    | leave => exact absurd out (ended _ _)
    | halt _ asked => exact absurd unasked asked
    | observed => cases out
    | pause is =>
      have explained := (Native.framed_execOp op f.engine.core).explained
      rw [is] at explained
      obtain ⟨rfl, _⟩ := explained
      obtain ⟨_, begins, heads, _⟩ := h.at_countdown todo
      exact h.fallsShort_of_head stays begins heads unasked ok

theorem visits_of_countdown (h : Phase.Orderly (.running f) source)
    (unasked : f.engine.haltRequest = 0) {fuel : Nat} (ok : f.run fuel = .ok (.stopped s))
    (out : s.result = .ok .countdown) : f.visits fuel ≠ [] := by
  induction fuel generalizing f source with
  | zero => cases ok
  | succ fuel ih =>
    have ⟨_, _, g, stands⟩ := h
    obtain ⟨_, same, stopped | ⟨f', step, rest⟩⟩ := run_cases ok
    · unfold visits
      have short := stands.fallsShort unasked (turn_of_stopped stopped) out
      rw [stands.started_begins short.begins short.stays]
      exact List.cons_ne_nil _ _
    · cases same
      obtain ⟨p, stepped, _, source', after⟩ := step_goes h
      cases step.symm.trans stepped
      have more := ih after ((sameHost_step step).haltRequest.trans unasked) rest
      unfold visits
      rw [step]
      exact fun none => more (List.append_eq_nil_iff.mp none).2

/-- A frame with the cycles for the run that it begins executes an instruction before it ends for
want of cycles. -/
theorem executed_of_covered (h : Phase.Orderly (.running f) source) (stands : f.Stands g)
    (begins : g.done = []) (heads : g.record.startsRun = true) (stays : f.wayOut? = none)
    (unasked : f.engine.haltRequest = 0)
    (covered : ¬ f.engine.cpu.budget
      - ((g.record.maxCycles.toUInt32 + restOfRun g.post).toNat : Int) < 0)
    {fuel : Nat} (ok : f.run fuel = .ok (.stopped s)) (out : s.result = .ok .countdown) :
    s.executed (f.visits fuel) ≠ [] := by
  obtain ⟨len, turn⟩ := stands.turn_head stays begins heads
  unfold charge at turn
  rw [if_neg (not_not_intro unasked), if_neg covered] at turn
  have after := orderly_turn h turn
  obtain ⟨n, rfl, stopped | ⟨f', step, rest⟩⟩ := run_cases ok
  · unfold Frame.step at stopped
    rw [turn] at stopped
    cases stopped
  · have seen : f.visits (n + 1) = f.engine.core.machine g.record.addr :: f'.visits n := by
      rw [visits, step, stands.started_begins begins stays]
      rfl
    -- What is started last is held back, so the first one counts only with another behind it.
    have more : f'.visits n ≠ [] := by
      have host := (sameHost_step step).haltRequest.trans unasked
      unfold Frame.step at step
      rw [turn] at step
      cases step
      exact visits_of_countdown after host rest out
    have held : s.held = true := by
      unfold Stopped.held
      rw [out]
      exact Bool.or_true _
    unfold Stopped.executed
    rw [held, if_pos rfl, seen, List.dropLast_cons_of_ne_nil more]
    exact List.cons_ne_nil _ _

end Frame

namespace Engine

variable {e : Engine (PagedMemory σ) ω} {source : Addr → PagedMemory σ}

theorem answered_budget (e : Engine (PagedMemory σ) ω) :
    e.cpu.budget - Interpreter.interruptCycles ≤ e.answered.cpu.budget := by
  unfold answered
  cases due : e.cpu.interruptDue with
  | false =>
    rw [if_neg Bool.false_ne_true]
    exact Int.sub_le_self _ (Int.natCast_nonneg _)
  | true =>
    rw [if_pos rfl, ← answerIrq_budget due, Int.add_sub_cancel]
    exact Int.le_refl _

def slice (e : Engine (PagedMemory σ) ω) : Engine (PagedMemory σ) ω :=
  e.mapCpu fun c => { c with budget := sliceCycles }

theorem slice_executes (h : Phase.Orderly (.idle e) source) (unasked : e.haltRequest = 0)
    {fuel : Nat} {s : Stopped (PagedMemory σ) ω} (ok : e.slice.run fuel = .ok (.stopped s))
    (out : s.result = .ok .countdown) : e.slice.executed fuel ≠ [] := by
  have aimed : e.slice = e.aim e.cpu.pc sliceCycles := e.slice_eq_aim
  have orderly : Phase.Orderly (.idle e.slice) source := aimed ▸ orderly_act h (.aim _ _)
  obtain ⟨f, start, run⟩ := bind_eq_ok.mp ok
  have consistent : e.slice.Consistent source := orderly.2.1
  obtain ⟨_, g, begun, _, heads⟩ := Consistent.start consistent start
  have stays : f.wayOut? = none := by
    unfold Frame.wayOut?
    rw [start_leaveAt start]
    rfl
  have still : f.engine.haltRequest = 0 := by
    rw [(sameHost_start start).haltRequest, aimed, aim, mapCpu_eq]
    exact unasked
  have covered : ¬ f.engine.cpu.budget
      - ((g.record.maxCycles.toUInt32 + restOfRun g.post).toNat : Int) < 0 := by
    have full : e.slice.cpu.budget = sliceCycles := by
      rw [aimed, aim, mapCpu_eq]
      rfl
    have left := answered_budget e.slice
    have owed := begun.owed_le
    have slice : sliceCycles = 100000 := rfl
    have irq : (Interpreter.interruptCycles : Int) = 7 := rfl
    rw [(consistent.start_core start).1]
    omega
  unfold executed visits
  rw [ok, start]
  exact Frame.executed_of_covered (orderly_start orderly start) begun.toStands begun.begins heads
    stays still covered run out

/-- In every state that an engine can come to, what the tables give back at an instruction of a
live block is what its run still costs, and the countdown at the head of a run charges just that.
Hence no slice is spent on nothing. -/
theorem countdowns_agree {config : Config} {memory : PagedMemory σ}
    {runner : InstructionRunner (PagedMemory σ) ω} {host : ω} {e₀ : Engine (PagedMemory σ) ω}
    (made : create memory config runner host = .ok e₀) (onBus : runner.OnBus)
    {phase : Phase (PagedMemory σ) ω} {source : Addr → PagedMemory σ}
    (reached : e₀.Reaches phase source) :
    (∀ start, (phase.engine.blocks.entryAt? start).isSome → ∃ is,
        phase.engine.translator.PricesAll phase.engine.blocks (source start) start is) ∧
      ∀ e, phase = .idle e → e.haltRequest = 0 → ∀ fuel s, e.slice.run fuel = .ok (.stopped s) →
        s.result = .ok .countdown → e.slice.executed fuel ≠ [] := by
  have orderly := reached.orderly (orderly_create onBus made)
  refine ⟨?_, ?_⟩
  · intro start live
    obtain ⟨entry, live⟩ := Option.isSome_iff_exists.mp live
    obtain ⟨i, memory, offset, serves, keeps⟩ := orderly.2.1.sound.live start entry live
    rw [← offset] at live
    rw [← memory]
    exact ⟨_, keeps.pricesAll live serves⟩
  · rintro e rfl unasked fuel s ok out
    exact slice_executes orderly unasked ok out

def spendthrift : InstructionRunner (PagedMemory Unit) Unit :=
  fun host cpu bus => ((⟨0, none⟩, { cpu with budget := 0, pc := 0 }), bus, host)

theorem spendthrift_onBus : spendthrift.OnBus := by
  intro host cpu
  exact ⟨.done ((⟨0, none⟩, { cpu with budget := 0, pc := 0 }), host), fun _ => rfl⟩

/-- A load, a branch that is not taken, and a return from interrupt, which has a run of its own. -/
def branching : PagedMemory Unit :=
  PagedMemory.blank.load 0 [0xA9, 0x00, 0xD0, 0x00, 0x40]

def spendsAll (e : Engine (PagedMemory Unit) Unit) : Bool :=
  match e.slice.run 7 with
  | .ok (.stopped ⟨e', .ok reason⟩) =>
    e.haltRequest == 0 && reason == .countdown && (e'.blocks.entryAt? 0).isSome
  | _ => false

theorem exists_spent {e : Engine (PagedMemory Unit) Unit} (h : e.spendsAll = true) :
    ∃ s, e.haltRequest = 0 ∧ e.slice.run 7 = .ok (.stopped s) ∧ s.result = .ok .countdown ∧
      (s.engine.blocks.entryAt? 0).isSome := by
  unfold spendsAll at h
  split at h
  · next e' reason run =>
    simp only [Bool.and_eq_true, beq_iff_eq] at h
    obtain ⟨⟨unasked, rfl⟩, live⟩ := h
    exact ⟨_, unasked, run, rfl, live⟩
  · cases h

theorem countdowns_agree_branching : ∃ (e₀ : Engine (PagedMemory Unit) Unit)
    (s : Stopped (PagedMemory Unit) Unit) (source : Addr → PagedMemory Unit)
    (is : List Instruction),
    create branching { arenaSize := 512, windowSize := 256 } spendthrift () = .ok e₀ ∧
      e₀.slice.run 7 = .ok (.stopped s) ∧ s.result = .ok .countdown ∧
      e₀.slice.executed 7 ≠ [] ∧
      s.engine.translator.PricesAll s.engine.blocks (source 0) 0 is := by
  have facts : ((create branching { arenaSize := 512, windowSize := 256 }
      spendthrift ()).toOption.map spendsAll) = some true := by
    decide +kernel
  obtain ⟨e₀, made, facts⟩ := exists_ok_of_map facts
  obtain ⟨s, unasked, run, result, live⟩ := exists_spent facts
  have here : e₀.Reaches (.idle e₀) fun _ => branching := .here _
  have executes := (countdowns_agree made spendthrift_onBus here).2 e₀ rfl unasked 7 s run result
  have aimed : e₀.slice = e₀.aim e₀.cpu.pc sliceCycles := e₀.slice_eq_aim
  obtain ⟨source, paused⟩ := (here.act (.aim e₀.cpu.pc sliceCycles)).run (aimed ▸ run)
  obtain ⟨is, prices⟩ := (countdowns_agree made spendthrift_onBus paused).1 0 live
  exact ⟨e₀, s, source, is, made, run, result, executes, prices⟩

end Engine

end Mos6502
