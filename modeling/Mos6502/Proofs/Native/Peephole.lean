import Mathlib.Data.List.Forall2
import Mos6502.Proofs.Block.Stages
import Mos6502.Proofs.Engine.Turn
import Mos6502.Proofs.Native.Known
import Mos6502.Proofs.Native.Refunds

/-! The peephole does not show. From any frame, a list of lowered instructions comes to the same
whether or not its micro-operations are rewritten with what is known of registers and carry. -/
namespace Mos6502

namespace Frame

variable {M ω : Type} [GuestMemory M]

def turnOn (f : Frame M ω) (u : Uop) (len : Nat) : Except Fault (Turn M ω) :=
  match f.wayOut? with
  | some p => leaveStale f.engine p.ip p.pc
  | none =>
    let (outcome, e) := onCore f.engine (Native.exec u)
    follow e f.pos len f.leaveAt outcome

/-- The micro-operations in order, up to the first that does not go on to the next one. Positions
count micro-operations. -/
def execUops (f : Frame M ω) : List Uop → Except Fault (Turn M ω)
  | [] => .ok (.stay f)
  | u :: us =>
    match f.turnOn u 1 with
    | .ok (.stay f) => f.execUops us
    | left => left

/-- A turn of a run is a turn at the micro-operation that its position holds. -/
theorem turn_eq_turnOn {f : Frame M ω} {u : Uop} {len : Nat}
    (holds : f.engine.translator.arena.decodeAt f.pos.ip = .ok (.uop u, len)) :
    f.turn = f.turnOn u len := by
  obtain ⟨e, pos, leaveAt⟩ := f
  have here : e.translator.arena.decodeAt pos.ip = .ok (.uop u, len) := holds
  unfold turn turnOn executeOp
  dsimp only
  rw [here]
  rfl

theorem turnOn_stay {f f' : Frame M ω} {u : Uop} {len : Nat}
    (stays : f.turnOn u len = .ok (.stay f')) :
    Native.Continues (Native.exec u f.engine.core).1 (Native.exec u f.engine.core).2
      f'.engine.core := by
  unfold turnOn at stays
  split at stays
  · unfold leaveStale at stays
    split at stays
    · cases stays
    · obtain ⟨_, _, done⟩ := bind_eq_ok.mp stays
      cases done
  · obtain ⟨⟨core, translator, runner, observer, host, paused, haltRequest⟩, pos, leaveAt⟩ := f
    have followed := follow_spec stays
    generalize turned : Turn.stay f' = t at followed
    cases followed with
    | stay goes e' core =>
      cases turned
      rw [← core] at goes
      exact goes
    | bounce is ran =>
      obtain ⟨_, _, _, _, _, _, _, out⟩ := Engine.bounce_eq_ok ran
      rcases out with ⟨_, _, out⟩ | ⟨_, _, _, out⟩ <;> cases turned.trans out
    | jump | leave | halt | pause | observed => cases turned

theorem execUops_append (f : Frame M ω) (us vs : List Uop) :
    f.execUops (us ++ vs) = match f.execUops us with
      | .ok (.stay f) => f.execUops vs
      | left => left := by
  induction us generalizing f with
  | nil => rfl
  | cons u us ih =>
    simp only [List.cons_append, execUops]
    split
    · exact ih _
    · next left leaves =>
      split
      · next f' stays => exact absurd stays (leaves f')
      · rfl

theorem execUops_stay_append {f f' : Frame M ω} {us vs : List Uop} :
    f.execUops (us ++ vs) = .ok (.stay f') ↔
      ∃ f₁, f.execUops us = .ok (.stay f₁) ∧ f₁.execUops vs = .ok (.stay f') := by
  rw [execUops_append]
  constructor
  · intro stays
    split at stays
    · next f₁ here => exact ⟨f₁, here, stays⟩
    · next left leaves => exact absurd stays (leaves f')
  · rintro ⟨f₁, here, stays⟩
    rw [here]
    exact stays

theorem execUops_stay_cons {f f' : Frame M ω} {u : Uop} {us : List Uop} :
    f.execUops (u :: us) = .ok (.stay f') ↔
      ∃ f₁, f.turnOn u 1 = .ok (.stay f₁) ∧ f₁.execUops us = .ok (.stay f') := by
  rw [execUops]
  constructor
  · intro stays
    split at stays
    · next f₁ here => exact ⟨f₁, here, stays⟩
    · next left leaves => exact absurd stays (leaves f')
  · rintro ⟨f₁, here, stays⟩
    rw [here]
    exact stays

/-- One micro-operation may stand for another wherever the two do the same when it is reached. -/
theorem execUops_replace {f : Frame M ω} {pre post : List Uop} {u v : Uop}
    (same : ∀ f₁, f.execUops pre = .ok (.stay f₁) →
      Native.exec u f₁.engine.core = Native.exec v f₁.engine.core) :
    f.execUops (pre ++ u :: post) = f.execUops (pre ++ v :: post) := by
  rw [execUops_append, execUops_append]
  split
  · next f₁ reached =>
    have turns : f₁.turnOn u 1 = f₁.turnOn v 1 := by
      have same := same f₁ reached
      obtain ⟨⟨core, translator, runner, observer, host, paused, haltRequest⟩, pos, leaveAt⟩ := f₁
      have same : Native.exec u core = Native.exec v core := same
      unfold turnOn onCore
      dsimp only
      rw [same]
    rw [execUops, execUops, turns]
  · rfl

end Frame

namespace Uop

def register : Uop → Register
  | addConst _ | subConst _ | clearA => .a
  | clearX => .x
  | clearY => .y
  | raw opcode _ => (operationOf opcode).register
  | _ => .none

/-- The micro-operation changes the carry flag; the host carry is another matter. -/
def touchesCarry : Uop → Bool
  | carryOut | borrowOut => true
  | raw opcode _ => (operationOf opcode).mnemonic.touchesCarry
  | _ => false

/-- The micro-operation changes nothing that an instruction of this kind does not. -/
def within (op : Operation) (u : Uop) : Bool :=
  (u.register == .none || u.register == op.register) &&
    (!u.touchesCarry || op.mnemonic.touchesCarry)

theorem within_raw (op : Operation) (opcode : UInt8) (operand : UInt16) :
    (raw opcode operand).within op =
      (((operationOf opcode).register == .none || (operationOf opcode).register == op.register) &&
        (!(operationOf opcode).mnemonic.touchesCarry || op.mnemonic.touchesCarry)) :=
  rfl

end Uop

namespace Native

open Register (Spares)

theorem readEffect_spares (n : Mnemonic) (v : UInt8) (c : Cpu) :
    n.register.Spares n.touchesCarry c (readEffect n v c) := by
  cases n <;> constructor <;> intro h <;> first | exact absurd rfl h | rfl

theorem impliedEffect_spares (n : Mnemonic) (c : Cpu) :
    n.register.Spares n.touchesCarry c (impliedEffect n c) := by
  cases n <;> constructor <;> intro h <;> first | exact absurd rfl h | (cases h <;> rfl) | rfl

theorem modified_spares (op : Operation) (v : UInt8) (c : Cpu) :
    op.mnemonic.register.Spares op.mnemonic.touchesCarry c (modified op v c) := by
  obtain ⟨n, mode, cycles⟩ := op
  cases n <;> constructor <;> intro h <;> first | exact absurd rfl h | (cases h <;> rfl) | rfl

variable {M : Type} [GuestMemory M]

theorem modifyOperand_cpu (op : Operation) (operand : UInt16) (checked : Bool) (c : Core M) :
    ∃ v, (modifyOperand op operand checked c).2.cpu = modified op v c.cpu := by
  obtain ⟨cpu, bus⟩ := c
  refine ⟨(load (operandAddr op.mode operand cpu) (⟨cpu, bus⟩ : Core M)).1, ?_⟩
  unfold modifyOperand modified
  rw [bind_run (show getCpu (⟨cpu, bus⟩ : Core M) = (cpu, ⟨cpu, bus⟩) from rfl)]
  dsimp only
  rw [bind_run (show load (operandAddr op.mode operand cpu) (⟨cpu, bus⟩ : Core M)
    = (_, ⟨cpu, (bus.load (operandAddr op.mode operand cpu)).2⟩) from rfl)]
  cases checked <;> by_cases slo : op.mnemonic = .slo <;> simp only [slo, if_true, if_false] <;> rfl

theorem loadOperand_cpu (mode : AddrMode) (operand : UInt16) (c : Core M) :
    (loadOperand mode operand c).2.cpu = c.cpu := by
  unfold loadOperand
  split <;> rfl

theorem raw_spares (opcode : UInt8) (operand : UInt16) (checked : Bool) (c : Core M) :
    (operationOf opcode).register.Spares (operationOf opcode).mnemonic.touchesCarry c.cpu
      (raw opcode operand checked c).2.cpu := by
  have shifts : (operationOf opcode).mode = .accumulator → _ := mnemonic_of_accumulator
  unfold raw Operation.register
  dsimp only
  generalize operationOf opcode = op at shifts ⊢
  by_cases accumulator : op.mode = .accumulator
  · have named := shifts accumulator
    simp only [List.mem_cons, List.not_mem_nil, or_false] at named
    rcases named with hm | hm | hm | hm <;>
    · rw [hm]
      dsimp only
      rw [if_pos accumulator, if_pos accumulator]
      constructor <;> intro h <;> first | exact absurd rfl h | cases h | rfl
  · rw [if_neg accumulator]
    obtain ⟨⟨v, d⟩, loaded⟩ : ∃ p, loadOperand op.mode operand c = p := ⟨_, rfl⟩
    have same : d.cpu = c.cpu := by
      rw [← loadOperand_cpu op.mode operand c, loaded]
    cases hm : op.mnemonic with
    | adc | sbc | and | ora | eor | alr | bit | cmp | cpx | cpy | lda | ldx | ldy =>
      have done := readEffect_spares op.mnemonic v d.cpu
      rw [hm] at done
      dsimp only
      rw [bind_run loaded, ← same]
      exact done
    | asl | lsr | rol | ror | slo | inc | dec =>
      dsimp only
      rw [if_neg accumulator]
      obtain ⟨v, done⟩ := modifyOperand_cpu op operand checked c
      have spares := modified_spares op v c.cpu
      rw [← done, hm] at spares
      exact spares
    | nop =>
      dsimp only
      split
      · rw [bind_run loaded, ← same]
        exact .refl _
      · exact .refl _
    | bcc | bcs | beq | bne | bmi | bpl | bvc | bvs => exact .refl _
    | exit | debugBreak | crash | brk | jmp | jsr | rts | rti | unknown => exact .refl _
    | sta | stx | sty | sax | pha | php => constructor <;> intro h <;> rfl
    | pla | plp => constructor <;> intro h <;> first | exact absurd rfl h | (cases h <;> rfl) | rfl
    | _ =>
      have done := impliedEffect_spares op.mnemonic c.cpu
      rw [hm] at done
      exact done

theorem exec_spares (u : Uop) (c : Core M) :
    u.register.Spares u.touchesCarry c.cpu (exec u c).2.cpu := by
  have samePage : ∀ (base : Addr) (index : UInt8),
      Register.none.Spares false c.cpu (refundSamePage base index c.cpu) := by
    intro base index
    unfold refundSamePage
    split <;> exact ⟨fun _ => rfl, fun _ => rfl, fun _ => rfl, fun _ => rfl⟩
  cases u with
  | refundX base => exact samePage base c.cpu.x
  | refundY base => exact samePage base c.cpu.y
  | refundScratchY => exact samePage c.cpu.scratch c.cpu.y
  | raw opcode operand => exact raw_spares opcode operand false c
  | addConst | subConst | clearA | clearX | clearY | carryOut | borrowOut =>
    constructor <;> intro h <;> first | exact absurd rfl h | (cases h <;> rfl) | rfl
  | _ => exact ⟨fun _ => rfl, fun _ => rfl, fun _ => rfl, fun _ => rfl⟩

theorem exec_addConst {c : Core M} (clear : c.cpu.hostCarry = false) (operand : UInt16) :
    exec (.addConst operand.toUInt8) c = exec (.raw 0x69 operand) c := by
  obtain ⟨cpu, bus⟩ := c
  change (Outcome.next, (⟨takeSum (Alu.add cpu.a operand.toUInt8 false) cpu, bus⟩ : Core M))
    = (.next, ⟨takeSum (Alu.add cpu.a operand.toUInt8 cpu.hostCarry) cpu, bus⟩)
  rw [clear]

theorem exec_subConst {c : Core M} (clear : c.cpu.hostCarry = false) (operand : UInt16) :
    exec (.subConst operand.toUInt8) c = exec (.raw 0xE9 operand) c := by
  obtain ⟨cpu, bus⟩ := c
  change (Outcome.next, (⟨takeSum (Alu.sub cpu.a operand.toUInt8 false) cpu, bus⟩ : Core M))
    = (.next, ⟨takeSum (Alu.sub cpu.a operand.toUInt8 cpu.hostCarry) cpu, bus⟩)
  rw [clear]

theorem exec_storeConst {c : Core M} {opcode : UInt8} {v : UInt8} (operand : UInt16)
    (stored : (opcode = 0x84 ∨ opcode = 0x8C) ∧ c.cpu.y = v ∨
      (opcode = 0x85 ∨ opcode = 0x8D) ∧ c.cpu.a = v ∨
      (opcode = 0x86 ∨ opcode = 0x8E) ∧ c.cpu.x = v) :
    exec (.storeConst operand v) c = exec (.raw opcode operand) c := by
  rcases stored with ⟨rfl | rfl, rfl⟩ | ⟨rfl | rfl, rfl⟩ | ⟨rfl | rfl, rfl⟩ <;> rfl

omit [GuestMemory M] in
theorem Continues.of_next {c d : Core M} (h : Continues .next c d) : d = c := by
  cases h
  rfl

omit [GuestMemory M] in
theorem Continues.spares {out : Outcome} {c d : Core M} (h : Continues out c d) :
    Register.none.Spares false c.cpu d.cpu := by
  cases h <;> exact ⟨fun _ => rfl, fun _ => rfl, fun _ => rfl, fun _ => rfl⟩

end Native

namespace Frame

variable {M ω : Type} [GuestMemory M] {f f' : Frame M ω} {us : List Uop}

/-- Where the list is left behind, nothing has changed but what an instruction of its kind may. -/
theorem execUops_spares {op : Operation} (within : us.all (·.within op) = true)
    (stays : f.execUops us = .ok (.stay f')) :
    op.register.Spares op.mnemonic.touchesCarry f.engine.cpu f'.engine.cpu := by
  induction us generalizing f with
  | nil => cases stays; exact .refl _
  | cons u us ih =>
    obtain ⟨f₁, here, rest⟩ := execUops_stay_cons.mp stays
    rw [List.all_cons, Bool.and_eq_true] at within
    obtain ⟨first, within⟩ := within
    simp only [Uop.within, Bool.and_eq_true, Bool.or_eq_true, beq_iff_eq, Bool.not_eq_true'] at first
    have step := (Native.exec_spares u f.engine.core).trans
      ((turnOn_stay here).spares.mono (.inl rfl) nofun)
    refine (step.mono first.1 fun touched => first.2.resolve_left ?_).trans (ih within rest)
    rw [touched]
    exact Bool.noConfusion

end Frame

namespace Instruction

theorem within_ahead (o : LoweringOptions) (i : Instruction) (op : Operation) :
    (i.observeUops o ++ i.modeUops o ++ i.retireUops o ++ i.beforeUops).all (·.within op) = true := by
  rw [List.all_eq_true]
  intro u mem
  simp only [List.mem_append] at mem
  rcases mem with ((observe | mode) | retire) | before
  · rw [observe_of_mem observe]
    rfl
  · cases inMode_of_mem mode <;> rfl
  · cases inRetire_of_mem retire <;> rfl
  · cases inBefore_of_mem before <;> rfl

/-- Nothing but what an instruction may change is changed by what it is lowered to. -/
theorem within_bodyUops (o : LoweringOptions) (i : Instruction) :
    (i.bodyUops o).all (·.within i.operation) = true := by
  have ahead := i.within_ahead o i.operation
  simp only [List.all_append, Bool.and_eq_true] at ahead
  obtain ⟨⟨⟨_, mode⟩, retire⟩, before⟩ := ahead
  have self : (Uop.raw i.opcode i.operand).within i.operation = true := by
    change ((_ || i.operation.register == i.operation.register)
      && (!i.operation.mnemonic.touchesCarry || i.operation.mnemonic.touchesCarry)) = true
    rw [BEq.rfl, Bool.or_true, Bool.not_or_self]
    rfl
  have main : i.mainUops.all (·.within i.operation) = true := by
    have loads : i.loadsZero = true → i.operation.register = i.operation.mnemonic.register := by
      intro zero
      unfold Operation.register
      simp only [loadsZero, Bool.and_eq_true, beq_iff_eq] at zero
      rw [zero.1]
      rfl
    unfold mainUops
    cases hm : i.operation.mnemonic with
    | brk =>
      have idle : ∀ opcode ∈ [0x08, 0x78], (operationOf opcode).register = .none ∧
          (operationOf opcode).mnemonic.touchesCarry = false := by
        decide +kernel
      simp only [List.mem_cons, List.not_mem_nil, or_false, forall_eq_or_imp, forall_eq] at idle
      obtain ⟨⟨php, kept⟩, sei, kept'⟩ := idle
      simp only [List.all_cons, Uop.within_raw, php, kept, sei, kept']
      rfl
    | lda | ldx | ldy =>
      dsimp only
      split
      · next zero =>
        simp only [Uop.within, loads zero, hm]
        rfl
      · simp [self]
    | jmp => dsimp only; split <;> rfl
    | jsr | rts | unknown => rfl
    | _ => simp [self]
  have after : (i.afterUops o).all (·.within i.operation) = true := by
    unfold afterUops
    cases hm : i.operation.mnemonic <;> dsimp only <;> (try split) <;>
      simp only [Uop.within, hm] <;> rfl
  simp only [bodyUops, List.all_append, mode, retire, before, main, after, Bool.and_true]

theorem bodyUops_flag (o : LoweringOptions) {i : Instruction} {n : Mnemonic} (flag : n ∈ [.clc, .sec])
    (named : i.operation = ⟨n, .implied, 2⟩) : i.bodyUops o = [.raw i.opcode i.operand] := by
  simp only [List.mem_cons, List.not_mem_nil, or_false] at flag
  unfold bodyUops modeUops retireUops beforeUops mainUops afterUops Operation.memUse
  rw [named]
  rcases flag with rfl | rfl <;> rfl

theorem bodyUops_load (o : LoweringOptions) {i : Instruction} {n : Mnemonic} (clear test : Uop)
    (load : (n, clear, test) ∈ [(.lda, .clearA, .testA), (.ldx, .clearX, .testX),
      (.ldy, .clearY, .testY)]) (named : i.operation = ⟨n, .immediate, 2⟩) :
    i.bodyUops o = if i.loadsZero then [clear] else [.raw i.opcode i.operand, test] := by
  simp only [List.mem_cons, List.not_mem_nil, or_false, Prod.mk.injEq] at load
  unfold bodyUops modeUops retireUops beforeUops mainUops afterUops Operation.memUse
  rw [named]
  rcases load with ⟨rfl, rfl, rfl⟩ | ⟨rfl, rfl, rfl⟩ | ⟨rfl, rfl, rfl⟩ <;> cases i.loadsZero <;> rfl

end Instruction

namespace Frame

variable {M ω : Type} [GuestMemory M] {f f' : Frame M ω} {us : List Uop} {i : Instruction}

def idle : Operation :=
  ⟨.nop, .implied, 2⟩

theorem execUops_idle (idles : us.all (·.within idle) = true)
    (stays : f.execUops us = .ok (.stay f')) :
    Register.none.Spares false f.engine.cpu f'.engine.cpu :=
  execUops_spares idles stays

theorem execUops_first {u : Uop} (idles : us.all (·.within idle) = true)
    (stays : f.execUops (u :: us) = .ok (.stay f')) :
    Register.none.Spares false (Native.exec u f.engine.core).2.cpu f'.engine.cpu := by
  obtain ⟨f₁, here, rest⟩ := execUops_stay_cons.mp stays
  exact (turnOn_stay here).spares.trans (execUops_idle idles rest)

open Record (Known)

theorem execUops_learn {k : Known} {o : LoweringOptions} (holds : k.Holds f'.engine.cpu)
    (stays : f.execUops (i.bodyUops o) = .ok (.stay f')) :
    (k.learn i.opcode i.operand).Holds f'.engine.cpu := by
  have byte : ∀ {opcode : UInt8} {op : Operation}, i.opcode = opcode → operationOf opcode = op →
      i.operation = op := by
    rintro _ _ rfl rfl
    rfl
  have zero : ∀ {n : Mnemonic}, i.operation = ⟨n, .immediate, 2⟩ → i.loadsZero = true →
      i.operand.toUInt8 = 0 := by
    intro n named zero
    rw [Record.toUInt8_operand (by rw [named])]
    simpa [Instruction.loadsZero, named] using zero
  unfold Known.learn
  split
  · next is =>
    rw [Instruction.bodyUops_flag (n := .clc) o (by decide) (byte is (by decide)), is] at stays
    refine ⟨holds.a, holds.x, holds.y, ?_⟩
    rintro v ⟨⟩
    exact (execUops_first rfl stays).carry rfl
  split
  · next is =>
    rw [Instruction.bodyUops_flag (n := .sec) o (by decide) (byte is (by decide)), is] at stays
    refine ⟨holds.a, holds.x, holds.y, ?_⟩
    rintro v ⟨⟩
    exact (execUops_first rfl stays).carry rfl
  split
  · next is =>
    have named : i.operation = ⟨.ldy, .immediate, 2⟩ := byte is (by decide)
    rw [Instruction.bodyUops_load o .clearY .testY (by decide) named, is] at stays
    refine ⟨holds.a, holds.x, ?_, holds.carry⟩
    rintro v ⟨⟩
    split at stays
    · next loads =>
      rw [zero named loads]
      exact (execUops_first rfl stays).y nofun
    · exact (execUops_first rfl stays).y nofun
  split
  · next is =>
    have named : i.operation = ⟨.ldx, .immediate, 2⟩ := byte is (by decide)
    rw [Instruction.bodyUops_load o .clearX .testX (by decide) named, is] at stays
    refine ⟨holds.a, ?_, holds.y, holds.carry⟩
    rintro v ⟨⟩
    split at stays
    · next loads =>
      rw [zero named loads]
      exact (execUops_first rfl stays).x nofun
    · exact (execUops_first rfl stays).x nofun
  split
  · next is =>
    have named : i.operation = ⟨.lda, .immediate, 2⟩ := byte is (by decide)
    rw [Instruction.bodyUops_load o .clearA .testA (by decide) named, is] at stays
    refine ⟨?_, holds.x, holds.y, holds.carry⟩
    rintro v ⟨⟩
    split at stays
    · next loads =>
      rw [zero named loads]
      exact (execUops_first rfl stays).a nofun
    · exact (execUops_first rfl stays).a nofun
  · exact holds

theorem execUops_carryIn (stays : f.execUops [.carryIn] = .ok (.stay f')) :
    f'.engine.cpu.hostCarry = f'.engine.cpu.carry := by
  obtain ⟨f₁, here, done⟩ := execUops_stay_cons.mp stays
  cases done
  rw [Engine.cpu, (turnOn_stay here).of_next]
  rfl

theorem execUops_borrowIn (stays : f.execUops [.borrowIn] = .ok (.stay f')) :
    f'.engine.cpu.hostCarry = !f'.engine.cpu.carry := by
  obtain ⟨f₁, here, done⟩ := execUops_stay_cons.mp stays
  cases done
  rw [Engine.cpu, (turnOn_stay here).of_next]
  rfl

/-- Once an instruction is prepared, its main body and what the peephole makes of it do the same. -/
theorem exec_rewrite {k : Known} (holds : k.Holds f.engine.cpu) {pre : List Uop}
    (idles : (pre ++ i.beforeUops).all (·.within idle) = true)
    (stays : f.execUops (pre ++ i.beforeUops) = .ok (.stay f')) :
    Native.exec (k.rewrite (.raw i.opcode i.operand)) f'.engine.core
      = Native.exec (.raw i.opcode i.operand) f'.engine.core := by
  have spares := execUops_idle idles stays
  have known : k.Holds f'.engine.cpu :=
    ⟨fun v is => (spares.a nofun).trans (holds.a v is), fun v is => (spares.x nofun).trans (holds.x v is),
      fun v is => (spares.y nofun).trans (holds.y v is),
      fun v is => (spares.carry rfl).trans (holds.carry v is)⟩
  obtain ⟨f₁, _, prepared⟩ := execUops_stay_append.mp stays
  rcases k.rewrite_raw i.opcode i.operand with h | ⟨is, sure, h⟩ | ⟨is, sure, h⟩ | ⟨v, h, stores⟩
  · rw [h]
  · have carried : i.beforeUops = [.interpretIfDecimal i.addr, .carryIn] := by
      unfold Instruction.beforeUops Instruction.operation
      rw [is]
      rfl
    rw [carried] at prepared
    obtain ⟨f₂, _, carried⟩ := execUops_stay_cons.mp prepared
    have carry := (execUops_carryIn carried).trans (known.carry false sure)
    rw [h, is]
    exact Native.exec_addConst carry i.operand
  · have borrowed : i.beforeUops = [.interpretIfDecimal i.addr, .borrowIn] := by
      unfold Instruction.beforeUops Instruction.operation
      rw [is]
      rfl
    rw [borrowed] at prepared
    obtain ⟨f₂, _, borrowed⟩ := execUops_stay_cons.mp prepared
    have borrow := (execUops_borrowIn borrowed).trans (congrArg _ (known.carry true sure))
    rw [h, is]
    exact Native.exec_subConst borrow i.operand
  · rw [h]
    refine Native.exec_storeConst i.operand ?_
    rcases stores with ⟨is, y⟩ | ⟨is, a⟩ | ⟨is, x⟩
    · exact .inl ⟨is, known.y v y⟩
    · exact .inr (.inl ⟨is, known.a v a⟩)
    · exact .inr (.inr ⟨is, known.x v x⟩)

end Frame

theorem Instruction.map_mainUops (k : Record.Known) (i : Instruction) :
    i.mainUops.map k.rewrite = i.mainUops ∨ i.mainUops = [.raw i.opcode i.operand] := by
  unfold mainUops
  cases i.operation.mnemonic <;> dsimp only <;> (try split) <;> first | exact .inl rfl | exact .inr rfl

namespace Record

open Mos6502.Frame (idle)

variable {N : Type} [GuestMemory N] {m : N} {o : LoweringOptions} {k : Known} {r : Record}

theorem map_rewrite_auxiliary {us : List Uop} (auxiliary : ∀ u ∈ us, u.isAuxiliary = true) :
    us.map k.rewrite = us := by
  have same : ∀ u ∈ us, k.rewrite u = u := by
    intro u mem
    have auxiliary := auxiliary u mem
    cases u with
    | raw => cases auxiliary
    | _ => rfl
  exact (List.map_congr_left same).trans (List.map_id us)

theorem Lowered.uops_unknown (h : Lowered m o {} r) :
    r.uopList = r.headUops ++ (lower m o r.addr).uopList ++ closingUops (lower m o r.addr) r := by
  have unknown : ({} : Known).rewrite = id := funext Known.rewrite_unknown
  have uops := h.uops
  rw [unknown, List.map_id] at uops
  exact uops

theorem Lowered.uops_interpreted (h : Lowered m o {} r)
    (interpreted : (r.instruction m).needsInterpreter m = true) :
    r.uopList = r.headUops ++ ((r.instruction m).observeUops o ++ [.interpret r.addr])
      ++ closingUops (lower m o r.addr) r := by
  rw [h.uops_unknown, uopList_lower]
  change _ ++ (_ ++ if (r.instruction m).needsInterpreter m then _ else _) ++ _ = _
  rw [interpreted]
  rfl

theorem Lowered.uops_translated (h : Lowered m o {} r)
    (translated : (r.instruction m).needsInterpreter m = false) :
    r.uopList = r.headUops ++ (r.instruction m).observeUops o ++ (r.instruction m).modeUops o
      ++ (r.instruction m).retireUops o ++ (r.instruction m).beforeUops
      ++ ((r.instruction m).mainUops
        ++ ((r.instruction m).afterUops o ++ closingUops (lower m o r.addr) r)) := by
  have body : (lower m o r.addr).uopList = (r.instruction m).observeUops o
      ++ (r.instruction m).bodyUops o := by
    rw [uopList_lower]
    change _ ++ (if (r.instruction m).needsInterpreter m then _ else _) = _
    rw [translated]
    rfl
  rw [h.uops_unknown, body]
  simp only [Instruction.bodyUops, List.append_assoc]

theorem within_headUops (r : Record) (op : Operation) : r.headUops.all (·.within op) = true := by
  unfold headUops
  split <;> rfl

variable {M ω : Type} [GuestMemory M] {f f' : Frame M ω}

/-- A record comes to the same, rewritten with values that hold where it begins. -/
theorem Lowered.execUops_rewrite (h : Lowered m o {} r) (holds : k.Holds f.engine.cpu) :
    f.execUops (r.rewrite k).uopList = f.execUops r.uopList := by
  rw [uopList_rewrite]
  have closing := map_closingUops k (lower m o r.addr) r
  have around := fun u => (r.instruction m).auxiliary_around o (u := u)
  have observe := map_rewrite_auxiliary (k := k) fun u mem => around u (.inl mem)
  cases translated : (r.instruction m).needsInterpreter m with
  | true =>
    rw [h.uops_interpreted translated]
    simp only [List.map_append, map_headUops, closing, observe]
    rfl
  | false =>
    have mode := map_rewrite_auxiliary (k := k) fun u mem => around u (.inr (.inl mem))
    have retire := map_rewrite_auxiliary (k := k) fun u mem => around u (.inr (.inr (.inl mem)))
    have before := map_rewrite_auxiliary (k := k)
      fun u mem => around u (.inr (.inr (.inr (.inl mem))))
    have after := map_rewrite_auxiliary (k := k)
      fun u mem => around u (.inr (.inr (.inr (.inr mem))))
    rw [h.uops_translated translated]
    simp only [List.map_append, map_headUops, closing, observe, mode, retire, before, after]
    rcases (r.instruction m).map_mainUops k with same | main
    · rw [same]
    · rw [main]
      refine Frame.execUops_replace fun f₁ reached => Frame.exec_rewrite holds ?_ reached
      have ahead := (r.instruction m).within_ahead o idle
      simp only [List.all_append, Bool.and_eq_true] at ahead ⊢
      obtain ⟨⟨⟨observe, mode⟩, retire⟩, before⟩ := ahead
      exact ⟨⟨⟨⟨r.within_headUops idle, observe⟩, mode⟩, retire⟩, before⟩

theorem Lowered.execUops_known (h : Lowered m o {} r) (holds : k.Holds f.engine.cpu)
    (stays : f.execUops r.uopList = .ok (.stay f')) :
    ((k.forget r.opcode).learn r.opcode r.operand).Holds f'.engine.cpu := by
  have opcode : r.opcode = (r.instruction m).opcode := h.opcode
  have operand : r.operand = (r.instruction m).operand := h.operand
  rw [opcode, operand]
  rw [h.uops_unknown, uopList_lower] at stays
  obtain ⟨f₃, stays, closed⟩ := Frame.execUops_stay_append.mp stays
  have done : f' = f₃ := by
    unfold closingUops at closed
    split at closed
    · cases closed
      rfl
    · obtain ⟨_, jumped, _⟩ := Frame.execUops_stay_cons.mp closed
      exact nomatch Frame.turnOn_stay jumped
  rw [done]
  obtain ⟨f₁, begun, stays⟩ := Frame.execUops_stay_append.mp stays
  obtain ⟨f₂, shown, stays⟩ := Frame.execUops_stay_append.mp stays
  have ahead := (r.instruction m).within_ahead o (r.instruction m).operation
  simp only [List.all_append, Bool.and_eq_true] at ahead
  have prepared := (Frame.execUops_spares (r.within_headUops _) begun).trans
    (Frame.execUops_spares ahead.1.1.1 shown)
  change f₂.execUops (if (r.instruction m).needsInterpreter m then _ else _) = _ at stays
  split at stays
  · obtain ⟨_, bounced, _⟩ := Frame.execUops_stay_cons.mp stays
    exact nomatch Frame.turnOn_stay bounced
  · have spares := prepared.trans
      (Frame.execUops_spares ((r.instruction m).within_bodyUops o) stays)
    exact Frame.execUops_learn (holds.forget spares) stays

/-- Consecutive instructions from `a` on as they are lowered, some of them behind a countdown and
the last one perhaps closed with a jump. -/
def IsListing (m : N) (o : LoweringOptions) : Addr → List Record → Prop
  | _, [] => True
  | a, r :: rs => r.addr = a ∧ Lowered m o {} r ∧ IsListing m o r.addrAfter rs

/-- All that the peephole changes of a record are raw opcodes among its micro-operations. -/
def Retouched (r r' : Record) : Prop :=
  ∃ uops, r' = { r with uops } ∧
    List.Forall₂ (fun p p' => p'.hostSize = p.hostSize ∧
      (p'.uop = p.uop ∨ ∃ opcode operand, p.uop = .raw opcode operand)) r.uops uops

theorem retouched_rewrite (k : Known) (r : Record) : Retouched r (r.rewrite k) := by
  refine ⟨_, rfl, ?_⟩
  rw [List.forall₂_map_right_iff, List.forall₂_same]
  intro p _
  refine ⟨rfl, ?_⟩
  cases h : p.uop with
  | raw opcode operand => exact .inr ⟨opcode, operand, rfl⟩
  | _ => exact .inl rfl

theorem retouched_peepholeFrom (k : Known) (rs : List Record) :
    List.Forall₂ Retouched rs (peepholeFrom k rs) := by
  induction rs generalizing k with
  | nil => exact .nil
  | cons r rs ih => exact .cons (retouched_rewrite k r) (ih _)

theorem execUops_peepholeFrom {rs : List Record} {a : Addr} (listing : IsListing m o a rs)
    (holds : k.Holds f.engine.cpu) :
    f.execUops ((peepholeFrom k rs).flatMap uopList) = f.execUops (rs.flatMap uopList) := by
  induction rs generalizing k a f with
  | nil => rfl
  | cons r rs ih =>
    obtain ⟨_, lowered, rest⟩ := listing
    rw [peepholeFrom, List.flatMap_cons, List.flatMap_cons, Frame.execUops_append,
      Frame.execUops_append, lowered.execUops_rewrite holds]
    split
    · next f' stays => exact ih rest (lowered.execUops_known holds stays)
    · rfl

/-- Nothing shows of the peephole: from any frame, a listing executes as it did before, to the same
frame or to the same way out, and the records are the same but for rewritten raw opcodes. -/
theorem peephole_sound {rs : List Record} {a : Addr} (listing : IsListing m o a rs) (f : Frame M ω) :
    f.execUops ((peephole rs).flatMap uopList) = f.execUops (rs.flatMap uopList) ∧
      List.Forall₂ Retouched rs (peephole rs) :=
  ⟨execUops_peepholeFrom listing (holds_unknown f.engine.cpu), retouched_peepholeFrom {} rs⟩

theorem IsBlock.isListing {runs : Bool} {a : Addr} {rs : List Record}
    (block : IsBlock m o false {} runs a rs) : IsListing m o a rs := by
  induction rs generalizing runs a with
  | nil => trivial
  | cons r rs ih =>
    obtain ⟨addr, lowered, _, _, rest⟩ := block
    exact ⟨addr, lowered, ih rest⟩

/-- The program adds to a number that it has stored, its carry cleared. -/
def summing : PagedMemory Unit :=
  .load .blank 0x200 [0x18, 0xA9, 0x07, 0x85, 0x10, 0x69, 0x01, 0x02]

/-- The block of the program is rewritten at its store and at its sum. -/
theorem peephole_sound_summing : ∃ rs,
    (TranslatorSettings.mk {} 8 .all 256 0xFFFF).gatherFrom (.filled {}) summing 0x200 true 8
        = .ok rs ∧
      rs.flatMap uopList = [.countdown 0x200 0, .raw 0x18 0x200, .raw 0xA9 7, .testA, .raw 0x85 0x10,
        .interpretIfDecimal 0x205, .carryIn, .raw 0x69 1, .carryOut, .overflowOut,
        .raw 0x02 0x207] ∧
      (peephole rs).flatMap uopList = [.countdown 0x200 0, .raw 0x18 0x200, .raw 0xA9 7, .testA,
        .storeConst 0x10 7, .interpretIfDecimal 0x205, .carryIn, .addConst 1, .carryOut, .overflowOut,
        .raw 0x02 0x207] ∧
      ∀ f : Frame (PagedMemory Unit) Unit,
        f.execUops ((peephole rs).flatMap uopList) = f.execUops (rs.flatMap uopList) := by
  have facts : ((TranslatorSettings.mk {} 8 .all 256 0xFFFF).gatherFrom (.filled {}) summing 0x200
      true 8).toOption.map (fun rs => (rs.flatMap uopList, (peephole rs).flatMap uopList))
      = some ([.countdown 0x200 0, .raw 0x18 0x200, .raw 0xA9 7, .testA, .raw 0x85 0x10,
          .interpretIfDecimal 0x205, .carryIn, .raw 0x69 1, .carryOut, .overflowOut, .raw 0x02 0x207],
        [.countdown 0x200 0, .raw 0x18 0x200, .raw 0xA9 7, .testA, .storeConst 0x10 7,
          .interpretIfDecimal 0x205, .carryIn, .addConst 1, .carryOut, .overflowOut,
          .raw 0x02 0x207]) := by
    decide +kernel
  generalize gathered : (TranslatorSettings.mk {} 8 .all 256 0xFFFF).gatherFrom (.filled {}) summing
    0x200 true 8 = found at facts
  cases found with
  | error fault => cases facts
  | ok rs =>
    obtain ⟨before, after⟩ := Prod.mk.inj (Option.some.inj facts)
    refine ⟨rs, rfl, before, after, fun f => ?_⟩
    exact (peephole_sound (TranslatorSettings.gatherFrom_isBlock gathered).1.isListing f).1

end Record

end Mos6502
