import Mos6502.Engine.Run
import Mos6502.Proofs.Machine.Guest
import Mos6502.Proofs.Native.Along

/-! All that one turn of a frame can come to, spelled out once. -/
namespace Mos6502

namespace Engine

variable {M ω : Type}

structure SameHost (e e' : Engine M ω) : Prop where
  runner : e'.runner = e.runner
  observer : e'.observer = e.observer
  haltRequest : e'.haltRequest = e.haltRequest

theorem SameHost.trans {e₁ e₂ e₃ : Engine M ω} (h : e₁.SameHost e₂)
    (h' : e₂.SameHost e₃) : e₁.SameHost e₃ :=
  ⟨h'.runner.trans h.runner, h'.observer.trans h.observer, h'.haltRequest.trans h.haltRequest⟩

structure SameSetup (e e' : Engine M ω) : Prop extends e.SameHost e' where
  translator : e'.translator = e.translator

theorem SameSetup.refl (e : Engine M ω) : e.SameSetup e :=
  ⟨⟨rfl, rfl, rfl⟩, rfl⟩

theorem SameSetup.trans {e₁ e₂ e₃ : Engine M ω} (h : e₁.SameSetup e₂)
    (h' : e₂.SameSetup e₃) : e₁.SameSetup e₃ :=
  ⟨h.toSameHost.trans h'.toSameHost, h'.translator.trans h.translator⟩

theorem mapCpu_eq (e : Engine M ω) (f : Cpu → Cpu) :
    e.mapCpu f = { e with core := ⟨f e.core.cpu, e.core.bus⟩ } := by
  obtain ⟨⟨cpu, bus⟩, translator, runner, observer, host, paused, haltRequest⟩ := e
  rfl

/-- There is an observer, and something that it would stop at. -/
def MayStop (e : Engine M ω) : Prop :=
  ∃ observer, e.observer = some observer ∧ ∃ host a cpu, (observer host a cpu).1 = true

theorem leaveAt_eq_ok {e e' : Engine M ω} {addr : Addr}
    (h : e.leaveAt addr = .ok e') :
    ∃ budget, e.translator.refund addr e.cpu.budget = .ok budget ∧
      e' = e.mapCpu fun c => { c with budget, pc := addr } := by
  unfold Engine.leaveAt at h
  obtain ⟨budget, refund, done⟩ := bind_eq_ok.mp h
  cases done
  exact ⟨budget, refund, rfl⟩

theorem bounce_eq_ok [GuestMemory M] {e : Engine M ω} {addr : Addr} {out : Turn M ω}
    (h : e.bounce addr = .ok out) :
    ∃ left, e.leaveAt addr = .ok left ∧ ∃ step cpu bus host,
      left.runner left.host left.core.cpu left.core.bus = ((step, cpu), bus, host) ∧
      ((∃ why, step.exit = some why ∧
          out = .stop ⟨{ left with core := ⟨cpu, bus⟩, host }, why.result addr⟩) ∨
        step.exit = none ∧ ∃ after : Engine M ω,
          after = answerIrq { left with
            core := ⟨{ cpu with budget := cpu.budget - step.cycles }, bus⟩, host } ∧
          out = .go after after.cpu.pc) := by
  unfold Engine.bounce at h
  obtain ⟨left, leave, h⟩ := bind_eq_ok.mp h
  refine ⟨left, leave, ?_⟩
  obtain ⟨⟨cpu, bus⟩, translator, runner, observer, host, paused, haltRequest⟩ := left
  dsimp only at h ⊢
  generalize runner host cpu bus = ran at h
  obtain ⟨⟨step, cpu'⟩, bus', host'⟩ := ran
  refine ⟨step, cpu', bus', host', rfl, ?_⟩
  dsimp only at h
  cases exit : step.exit with
  | some why =>
    rw [exit] at h
    cases h
    exact .inl ⟨why, rfl, rfl⟩
  | none =>
    rw [exit] at h
    cases h
    exact .inr ⟨rfl, _, rfl, rfl⟩

end Engine

namespace Frame

variable {M ω : Type}

def leaveAfter (leaveAt : Option LeavePoint) (e : Engine M ω) (pos : Position) (out : Outcome) :
    Option LeavePoint :=
  match out with
  | .stale pc => if e.isIntact pos then leaveAt else (e.wayOut? pc pos).or leaveAt
  | _ => leaveAt

/-- All that can follow on a host instruction that ended so and left the engine `e` behind. -/
inductive Followed [GuestMemory M] (e : Engine M ω) (pos : Position) (len : Nat)
    (leaveAt : Option LeavePoint) (out : Outcome) : Turn M ω → Prop
  | stay {d : Core M} (goes : Native.Continues out e.core d) (e' : Engine M ω)
    (core : e'.core = d) (translator : e'.translator = e.translator) (paused : e'.paused = e.paused)
    (host : e.SameHost e') :
    Followed e pos len leaveAt out (.stay ⟨e', { pos with ip := pos.ip + len },
      leaveAfter leaveAt e' { pos with ip := pos.ip + len } out⟩)
  | jump {target : Addr} (is : out = .jump target) : Followed e pos len leaveAt out (.go e target)
  | bounce {addr : Addr} {t : Turn M ω} (is : out = .bounce addr) (ran : e.bounce addr = .ok t) :
    Followed e pos len leaveAt out t
  | leave {addr : Addr} {why : Stop} {left : Engine M ω} (is : out = .leave addr why)
    (left_at : e.leaveAt addr = .ok left) :
    Followed e pos len leaveAt out (.stop ⟨left, why.result addr⟩)
  | halt {addr : Addr} {cycles : UInt32} (is : out = .charge addr cycles)
    (asked : e.haltRequest ≠ 0) :
    Followed e pos len leaveAt out
      (.stop ⟨e.mapCpu fun c => { c with pc := addr }, .ok (Halt.ofBits e.haltRequest)⟩)
  | pause {addr : Addr} {cycles : UInt32} (is : out = .charge addr cycles) :
    Followed e pos len leaveAt out
      (.stop ⟨(e.setPause (some ⟨addr, pos, e.translator.arena.generation⟩)).mapCpu
        fun c => { c with pc := addr }, .ok .countdown⟩)
  | observed {addr : Addr} {left : Engine M ω} (shown : Engine M ω) (is : out = .observe addr)
    (stops : e.MayStop)
    (core : shown.core = ⟨{ e.core.cpu with pc := addr }, e.core.bus⟩)
    (translator : shown.translator = e.translator) (paused : shown.paused = e.paused)
    (host : e.SameHost shown) (left_at : shown.leaveAt addr = .ok left) :
    Followed e pos len leaveAt out (.stop ⟨left, .ok .externalHalt⟩)

theorem follow_spec [GuestMemory M] {e : Engine M ω} {pos : Position} {len : Nat}
    {leaveAt : Option LeavePoint} {out : Outcome} {t : Turn M ω}
    (h : follow e pos len leaveAt out = .ok t) : Followed e pos len leaveAt out t := by
  cases out with
  | next => cases h; exact .stay (.next _) e rfl rfl rfl ⟨rfl, rfl, rfl⟩
  | jump target => cases h; exact .jump rfl
  | stale pc => cases h; exact .stay (.stale pc _) e rfl rfl rfl ⟨rfl, rfl, rfl⟩
  | bounce addr => exact .bounce rfl h
  | leave addr why =>
    obtain ⟨left, left_at, done⟩ := bind_eq_ok.mp h
    cases done
    exact .leave rfl left_at
  | charge addr cycles =>
    unfold follow at h
    dsimp only at h
    cases h
    unfold charge
    split
    · next asked => exact .halt rfl asked
    · split
      · exact .pause rfl
      · obtain ⟨⟨cpu, bus⟩, translator, runner, observer, host, paused, haltRequest⟩ := e
        exact .stay (.charge addr cycles _) _ rfl rfl rfl ⟨rfl, rfl, rfl⟩
  | observe addr =>
    change observe e pos len leaveAt addr = .ok t at h
    obtain ⟨⟨cpu, bus⟩, translator, runner, observer, host, paused, haltRequest⟩ := e
    unfold observe at h
    cases observer with
    | none => cases h; exact .stay (.unobserved addr _) _ rfl rfl rfl ⟨rfl, rfl, rfl⟩
    | some observer =>
      dsimp only [Engine.mapCpu] at h
      generalize sees : observer host addr _ = seen at h
      obtain ⟨stop, host'⟩ := seen
      cases stop with
      | true =>
        obtain ⟨left, left_at, done⟩ := bind_eq_ok.mp h
        cases done
        exact .observed ⟨⟨{ cpu with pc := addr }, bus⟩, translator, runner, some observer, host',
          paused, haltRequest⟩ rfl ⟨observer, rfl, _, _, _, congrArg Prod.fst sees⟩ rfl rfl rfl
          ⟨rfl, rfl, rfl⟩ left_at
      | false => cases h; exact .stay (.observed addr _) _ rfl rfl rfl ⟨rfl, rfl, rfl⟩
  | illegal mnemonic => cases h

end Frame

def Turn.engine {M ω : Type} : Turn M ω → Engine M ω
  | .stay f => f.engine
  | .go e _ => e
  | .stop s => s.engine

namespace Engine

variable {M ω : Type}

theorem sameSetup_mapCpu (e : Engine M ω) (f : Cpu → Cpu) : e.SameSetup (e.mapCpu f) := by
  rw [mapCpu_eq]
  exact ⟨⟨rfl, rfl, rfl⟩, rfl⟩

theorem sameSetup_leaveAt {e left : Engine M ω} {addr : Addr} (h : e.leaveAt addr = .ok left) :
    e.SameSetup left := by
  obtain ⟨_, _, rfl⟩ := leaveAt_eq_ok h
  exact e.sameSetup_mapCpu _

theorem sameSetup_answerIrq [GuestMemory M] (e : Engine M ω) : e.SameSetup e.answerIrq := by
  obtain ⟨⟨cpu, bus⟩, translator, runner, observer, host, paused, haltRequest⟩ := e
  unfold answerIrq
  dsimp only
  generalize Interpreter.interrupt cpu bus = done
  obtain ⟨⟨cycles, after⟩, bus'⟩ := done
  split <;> exact ⟨⟨rfl, rfl, rfl⟩, rfl⟩

theorem answerIrq_eq [GuestMemory M] {e : Engine M ω} (due : e.cpu.interruptDue = true) {n : Nat}
    {after : Cpu} {bus : CodeBus M}
    (taken : Interpreter.interrupt e.cpu e.core.bus = ((n, after), bus)) :
    e.answerIrq = { e with core := ⟨{ after with budget := after.budget - n }, bus⟩ } := by
  obtain ⟨⟨cpu, bus₀⟩, translator, runner, observer, host, paused, haltRequest⟩ := e
  have taken : Interpreter.interrupt cpu bus₀ = ((n, after), bus) := taken
  unfold answerIrq
  dsimp only
  rw [taken]
  exact if_pos due

theorem answerIrq_budget [GuestMemory M] {e : Engine M ω} (due : e.cpu.interruptDue = true) :
    e.answerIrq.cpu.budget + Interpreter.interruptCycles = e.cpu.budget := by
  obtain ⟨⟨⟨n, after⟩, bus⟩, taken⟩ : ∃ done, Interpreter.interrupt e.cpu e.core.bus = done :=
    ⟨_, rfl⟩
  have budget := Interpreter.interrupt_budget e.cpu e.core.bus
  have cycles := Interpreter.interrupt_cycles e.cpu e.core.bus
  rw [taken] at budget cycles
  rw [answerIrq_eq due taken]
  change after.budget - (n : Int) + Interpreter.interruptCycles = e.cpu.budget
  rw [← budget, ← cycles, Int.sub_add_cancel]

theorem sameHost_locate [GuestMemory M] {e e' : Engine M ω} {target : Addr} {pos : Position}
    (h : e.locate target = .ok (pos, e')) : e.SameHost e' := by
  unfold locate at h
  split at h
  · cases h
    exact ⟨rfl, rfl, rfl⟩
  · obtain ⟨⟨cpu, bus⟩, translator, runner, observer, host, paused, haltRequest⟩ := e
    dsimp only at h
    split at h
    · cases h
    · cases h
      exact ⟨rfl, rfl, rfl⟩

theorem sameHost_start [GuestMemory M] {e : Engine M ω} {f : Frame M ω}
    (h : e.start = .ok f) : e.SameHost f.engine := by
  unfold start at h
  have answered : e.SameHost (if e.cpu.interruptDue then e.answerIrq.setPause none else e) := by
    split
    · have same := sameSetup_answerIrq e
      exact ⟨same.runner, same.observer, same.haltRequest⟩
    · exact ⟨rfl, rfl, rfl⟩
  generalize (if e.cpu.interruptDue then e.answerIrq.setPause none else e) = e₁ at h answered
  dsimp only at h
  split at h
  · cases h
    exact ⟨answered.runner, answered.observer, answered.haltRequest⟩
  · obtain ⟨⟨pos, e₂⟩, located, done⟩ := bind_eq_ok.mp h
    cases done
    have same := sameHost_locate located
    exact answered.trans ⟨same.runner, same.observer, same.haltRequest⟩

theorem sameSetup_bounce [GuestMemory M] {e : Engine M ω} {addr : Addr} {out : Turn M ω}
    (h : e.bounce addr = .ok out) : e.SameSetup out.engine := by
  obtain ⟨left, left_at, step, cpu, bus, host, _, out⟩ := bounce_eq_ok h
  refine (sameSetup_leaveAt left_at).trans ?_
  rcases out with ⟨why, _, rfl⟩ | ⟨_, after, rfl, rfl⟩
  · exact ⟨⟨rfl, rfl, rfl⟩, rfl⟩
  · dsimp only [Turn.engine]
    have same := sameSetup_answerIrq { left with
      core := ⟨{ cpu with budget := cpu.budget - step.cycles }, bus⟩, host }
    exact ⟨⟨same.runner, same.observer, same.haltRequest⟩, same.translator⟩

end Engine

namespace Frame

variable {M ω : Type} [GuestMemory M]

theorem Followed.sameSetup {e : Engine M ω} {pos : Position} {len : Nat}
    {leaveAt : Option LeavePoint} {out : Outcome} {t : Turn M ω}
    (h : Followed e pos len leaveAt out t) : e.SameSetup t.engine := by
  cases h with
  | stay _ _ _ translator _ host => exact ⟨host, translator⟩
  | jump => exact .refl e
  | bounce _ ran => exact Engine.sameSetup_bounce ran
  | leave _ left_at => exact Engine.sameSetup_leaveAt left_at
  | halt =>
    dsimp only [Turn.engine]
    exact e.sameSetup_mapCpu _
  | pause =>
    dsimp only [Turn.engine]
    rw [Engine.mapCpu_eq]
    exact ⟨⟨rfl, rfl, rfl⟩, rfl⟩
  | observed _ _ _ _ translator _ host left_at =>
    exact Engine.SameSetup.trans ⟨host, translator⟩ (Engine.sameSetup_leaveAt left_at)

theorem sameSetup_turn {f : Frame M ω} {t : Turn M ω} (h : f.turn = .ok t) :
    f.engine.SameSetup t.engine := by
  unfold turn at h
  split at h
  · unfold leaveStale at h
    split at h
    · cases h
      exact .refl _
    · obtain ⟨_, _, done⟩ := bind_eq_ok.mp h
      cases done
      dsimp only [Turn.engine]
      exact f.engine.sameSetup_mapCpu _
  · obtain ⟨e, pos, leaveAt⟩ := f
    unfold executeOp at h
    dsimp only at h ⊢
    split at h
    · cases h
      exact .refl _
    · cases h
      exact .refl _
    · have same := (follow_spec h).sameSetup
      exact ⟨⟨same.runner, same.observer, same.haltRequest⟩, same.translator⟩

/-- A step is a turn, and entering a block where the turn goes on at a guest address. -/
theorem step_cases {f : Frame M ω} {p : Progress M ω} (h : f.step = .ok p) :
    (∃ f', f.turn = .ok (.stay f') ∧ p = .running f') ∨
      (∃ e target pos e', f.turn = .ok (.go e target) ∧ e.locate target = .ok (pos, e') ∧
        p = .running ⟨e', pos, none⟩) ∨
      ∃ s, f.turn = .ok (.stop s) ∧ p = .stopped s := by
  obtain ⟨out, turn, h⟩ := bind_eq_ok.mp h
  cases out with
  | stay f' => cases h; exact .inl ⟨f', turn, rfl⟩
  | go e target =>
    obtain ⟨⟨pos, e'⟩, located, done⟩ := bind_eq_ok.mp h
    cases done
    exact .inr (.inl ⟨e, target, pos, e', turn, located, rfl⟩)
  | stop s => cases h; exact .inr (.inr ⟨s, turn, rfl⟩)

theorem turn_of_stopped {f : Frame M ω} {s : Stopped M ω} (h : f.step = .ok (.stopped s)) :
    f.turn = .ok (.stop s) := by
  rcases step_cases h with ⟨_, _, is⟩ | ⟨_, _, _, _, _, _, is⟩ | ⟨_, turn, is⟩
  · cases is
  · cases is
  · cases is
    exact turn

theorem turn_of_running {f f' : Frame M ω} (h : f.step = .ok (.running f')) :
    f.turn = .ok (.stay f') ∨
      ∃ e target pos e', f.turn = .ok (.go e target) ∧ e.locate target = .ok (pos, e') ∧
        f' = ⟨e', pos, none⟩ := by
  rcases step_cases h with ⟨_, turn, is⟩ | ⟨e, target, pos, e', turn, located, is⟩ | ⟨_, _, is⟩
  · cases is
    exact .inl turn
  · cases is
    exact .inr ⟨e, target, pos, e', turn, located, rfl⟩
  · cases is

theorem run_cases {f : Frame M ω} {fuel : Nat} {s : Stopped M ω}
    (h : f.run fuel = .ok (.stopped s)) :
    ∃ n, fuel = n + 1 ∧
      (f.step = .ok (.stopped s) ∨ ∃ f', f.step = .ok (.running f') ∧ f'.run n = .ok (.stopped s)) := by
  cases fuel with
  | zero => cases h
  | succ n =>
    refine ⟨n, rfl, ?_⟩
    unfold run at h
    cases step : f.step with
    | error fault => rw [step] at h; cases h
    | ok p =>
      rw [step] at h
      cases p with
      | stopped s' => cases h; exact .inl rfl
      | running f' => exact .inr ⟨f', rfl, h⟩

theorem sameHost_step {f f' : Frame M ω} (step : f.step = .ok (.running f')) :
    f.engine.SameHost f'.engine := by
  rcases turn_of_running step with turn | ⟨e, target, pos, e', turn, located, rfl⟩
  · exact (sameSetup_turn turn).toSameHost
  · exact (sameSetup_turn turn).toSameHost.trans (Engine.sameHost_locate located)

/-- A run that stops has come to a frame whose turn stops it. What every step on the way keeps holds
there. -/
theorem run_last {P : Frame M ω → Prop} (keeps : ∀ {f f'}, P f → f.step = .ok (.running f') → P f')
    {f : Frame M ω} (first : P f) {fuel : Nat} {s : Stopped M ω}
    (run : f.run fuel = .ok (.stopped s)) : ∃ f', P f' ∧ f'.turn = .ok (.stop s) := by
  induction fuel generalizing f with
  | zero => cases run
  | succ fuel ih =>
    obtain ⟨_, same, stopped | ⟨f', step, rest⟩⟩ := run_cases run
    · exact ⟨f, first, turn_of_stopped stopped⟩
    · cases same
      exact ih (keeps first step) rest

theorem sameHost_run {f : Frame M ω} {fuel : Nat} {s : Stopped M ω}
    (run : f.run fuel = .ok (.stopped s)) : f.engine.SameHost s.engine := by
  obtain ⟨f', same, turn⟩ := run_last (P := fun f' => f.engine.SameHost f'.engine)
    (fun same step => same.trans (sameHost_step step)) ⟨rfl, rfl, rfl⟩ run
  exact same.trans (sameSetup_turn turn).toSameHost

end Frame

end Mos6502
