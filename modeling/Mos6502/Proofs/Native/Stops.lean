import Mos6502.Proofs.Machine.Fetch
import Mos6502.Proofs.Native.Refunds

/-! Instructions that compiled code does not finish. One that stops the run is told by its opcode
alone, and does nothing but leave, behind what every record begins with. One that is left to the
interpreter has retired no code by then. -/
namespace Mos6502

open Record

def stopOf? (opcode : UInt8) : Option Stop :=
  match (operationOf opcode).mnemonic with
  | .exit => some .exit
  | .debugBreak => some .debugBreak
  | .crash => some .crash
  | .unknown => some (.undefined opcode)
  | _ => none

theorem facts_of_stop {opcode : UInt8} {why : Stop} (stops : stopOf? opcode = some why) :
    (operationOf opcode).mode = .implied ∧ (operationOf opcode).cycles = 2 ∧
      (operationOf opcode).branch = .always ∧ (operationOf opcode).mnemonic ≠ .rti := by
  have listed : (stopOf? opcode).isSome = true := by
    rw [stops]
    rfl
  revert listed
  apply forall_opcode (p := fun opcode => (stopOf? opcode).isSome = true →
    (operationOf opcode).mode = .implied ∧ (operationOf opcode).cycles = 2 ∧
      (operationOf opcode).branch = .always ∧ (operationOf opcode).mnemonic ≠ .rti)
  decide +kernel

theorem Interpreter.perform_stop {B : Type} [Bus B] (opcode low high : UInt8) (cpu : Cpu)
    (bus : B) : (perform opcode low high cpu bus).1.1.exit = stopOf? opcode := by
  unfold perform stopOf?
  obtain ⟨⟨r, bus'⟩, hr⟩ : ∃ p, (resolve (operationOf opcode).mode cpu low high
    (cpu.pc + (operationOf opcode).len.toUInt16) : StateM B Resolved) bus = p := ⟨_, rfl⟩
  rw [bind_run hr]
  dsimp only
  cases (operationOf opcode).mnemonic with
  | nop | asl | lsr | rol | ror | slo | inc | dec | bcc | bcs | bne | beq | bpl | bmi | bvc | bvs =>
    dsimp only
    split <;> rfl
  | _ => rfl

theorem Machine.report_stop {σ : Type} {s : Machine σ}
    (first : s.memory.kindAt s.cpu.pc ≠ .device) : s.report.exit = stopOf? s.opcode := by
  have read : (Bus.fetch s.cpu.pc : StateM (DeviceBus (PagedMemory σ)) UInt8) ⟨s.memory⟩
      = (s.opcode, ⟨s.memory⟩) := by
    change ((s.memory.deviceRead _).1, DeviceBus.mk (s.memory.deviceRead _).2) = _
    rw [PagedMemory.deviceRead_of_plain first]
    rfl
  unfold report Interpreter.step
  rw [bind_run read]
  dsimp only
  split <;> split <;> exact Interpreter.perform_stop _ _ _ _ _

namespace HostOp

def retires : HostOp → Bool
  | uop (.retire _ _) | uop (.retireScratch _) | uop (.retireScratchY _) => true
  | _ => false

def leaves : HostOp → Bool
  | uop (.undefined _ _) => true
  | uop (.raw opcode _) | modifyChecked opcode _ => Native.stopsRun opcode
  | _ => false

theorem ofUop_same {M : Type} [GuestMemory M] (m : M) (k : Known) (u : Uop) :
    (ofUop m (k.rewrite u)).retires = (uop u).retires ∧
      ((ofUop m (k.rewrite u)).leaves = true → (uop u).leaves = true) := by
  cases u with
  | raw opcode operand =>
    rcases k.rewrite_raw opcode operand with is | ⟨_, _, is⟩ | ⟨_, _, is⟩ | ⟨_, is, _⟩ <;> rw [is]
    · unfold ofUop
      dsimp only
      split <;> exact ⟨rfl, id⟩
    all_goals exact ⟨rfl, nofun⟩
  | _ => exact ⟨rfl, id⟩

/-- Whatever is executed before it, the host instruction leaves the core as it is. It takes part in
an instruction at `addr` that stops the run so. -/
structure Idles (M : Type) [GuestMemory M] (op : HostOp) (addr : Addr) (why : Stop) : Prop where
  keeps : op.retires = false
  still : ∀ c : Core M, (Native.execOp op c).2 = c
  ends : (∃ n, op = .uop (.countdown addr n)) ∨ op = .uop (.observe addr) ∨
    (∀ c : Core M, (Native.execOp op c).1 = .next) ∨
    ∀ c : Core M, (Native.execOp op c).1 = .leave addr why

end HostOp

namespace Instruction

variable {i : Instruction} {why : Stop}

theorem bodyUops_of_stop {M : Type} [GuestMemory M] (m : M) (o : LoweringOptions) (k : Known)
    (stops : stopOf? i.opcode = some why) :
    ∃ u, i.bodyUops o = [u] ∧ (HostOp.ofUop m (k.rewrite u)).Idles M i.addr why := by
  have mode := (facts_of_stop stops).1
  have mode : i.operation.mode = .implied := mode
  have address : i.operand = i.addr := by simp only [operand, mode]
  have raw : Native.stopsRun i.opcode = true →
      (∀ c : Core M, Native.raw i.opcode i.addr false c = (.leave i.addr why, c)) →
      (HostOp.ofUop m (k.rewrite (.raw i.opcode i.operand))).Idles M i.addr why := by
    intro halts leaves
    rw [Record.ofUop_stop m k i.operand halts, address]
    exact ⟨rfl, fun c => congrArg (·.2) (leaves c),
      .inr (.inr (.inr fun c => congrArg (·.1) (leaves c)))⟩
  unfold bodyUops modeUops retireUops beforeUops mainUops afterUops Operation.memUse
  rw [mode]
  unfold stopOf? at stops
  cases named : i.operation.mnemonic with
  | exit | debugBreak | crash =>
    have named : (operationOf i.opcode).mnemonic = _ := named
    rw [named] at stops
    cases stops
    refine ⟨_, rfl, raw (by rw [Native.stopsRun, named]) fun c => ?_⟩
    simp only [Native.raw, named]
    rfl
  | unknown =>
    have named : (operationOf i.opcode).mnemonic = _ := named
    rw [named] at stops
    cases stops
    exact ⟨_, rfl, rfl, fun _ => rfl, .inr (.inr (.inr fun _ => rfl))⟩
  | _ =>
    have named : (operationOf i.opcode).mnemonic = _ := named
    rw [named] at stops
    cases stops

theorem keeps_bodyUops (o : LoweringOptions) (reads : i.operation.memUse.writes = false) {u : Uop}
    (mem : u ∈ i.bodyUops o) : (HostOp.uop u).retires = false := by
  rcases mem_bodyUops mem with mode | retire | before | main | after
  · cases inMode_of_mem mode <;> rfl
  · rw [writes_of_mem retire] at reads
    cases reads
  · cases inBefore_of_mem before <;> rfl
  · cases inMain_of_mem main <;> rfl
  · cases inAfter_of_mem after <;> rfl

theorem reads_of_asks {u : Uop} (mem : u ∈ i.beforeUops) (asks : (HostOp.uop u).asks = true) :
    i.operation.memUse.writes = false := by
  unfold Operation.memUse
  cases named : i.operation.mnemonic with
  | adc | sbc | cli | plp => rfl
  | _ =>
    have silent : (i.beforeUops.map HostOp.uop).any HostOp.asks = false := by
      unfold beforeUops
      rw [named]
      rfl
    exact absurd asks (List.any_eq_false.mp silent _ (List.mem_map_of_mem mem))

theorem stop_of_leaves (o : LoweringOptions) {u : Uop} (mem : u ∈ i.bodyUops o)
    (leaves : (HostOp.uop u).leaves = true) : ∃ why, stopOf? i.opcode = some why := by
  rcases mem_bodyUops mem with mode | retire | before | main | after
  · cases inMode_of_mem mode <;> cases leaves
  · cases inRetire_of_mem retire <;> cases leaves
  · cases inBefore_of_mem before <;> cases leaves
  · cases inMain_of_mem main with
    | raw =>
      have halts : Native.stopsRun i.opcode = true := leaves
      unfold Native.stopsRun at halts
      unfold stopOf?
      cases named : (operationOf i.opcode).mnemonic with
      | exit | debugBreak | crash => exact ⟨_, rfl⟩
      | _ => rw [named] at halts; cases halts
    | undefined unknown =>
      have named : (operationOf i.opcode).mnemonic = .unknown := unknown
      unfold stopOf?
      rw [named]
      exact ⟨_, rfl⟩
    | _ => cases leaves
  · cases inAfter_of_mem after <;> cases leaves

end Instruction

namespace Record

variable {M : Type} [GuestMemory M] {m : M} {o : LoweringOptions} {k : Known} {r : Record}
  {why : Stop}

theorem Lowered.ends_of_stop (h : Lowered m o k r) (stops : stopOf? r.opcode = some why) :
    (lower m o r.addr).endsBlock = true := by
  rw [h.opcode] at stops
  have always : (Instruction.fetch m r.addr).operation.branch = .always := (facts_of_stop stops).2.2.1
  change (_ || (Instruction.fetch m r.addr).operation.branch == .always) = true
  rw [always]
  exact Bool.or_true _

theorem Lowered.maxCycles_of_stop (h : Lowered m o k r) (stops : stopOf? r.opcode = some why) :
    r.maxCycles = 2 := by
  rw [h.opcode] at stops
  obtain ⟨mode, cycles, _⟩ := facts_of_stop stops
  have mode : (Instruction.fetch m r.addr).operation.mode = .implied := mode
  have cycles : (Instruction.fetch m r.addr).operation.cycles = 2 := cycles
  rw [h.maxCycles]
  change (Instruction.fetch m r.addr).maxCycles o = 2
  unfold Instruction.maxCycles
  rw [mode, cycles]
  split <;> rfl

/-- No host instruction of a record that stops the run does anything. -/
theorem Lowered.idles (h : Lowered m o k r) (stops : stopOf? r.opcode = some why)
    {post : List Record} {op : HostOp} (mem : op ∈ r.ops m ++ onwardOps r post) :
    op.Idles M r.addr why := by
  rcases h.op_cases mem with rfl | ⟨total, rfl⟩ | ⟨u, body, rfl⟩ | ⟨_, open_end⟩
  · exact ⟨rfl, fun _ => rfl, .inr (.inr (.inl fun _ => rfl))⟩
  · exact ⟨rfl, fun _ => rfl, .inl ⟨total, rfl⟩⟩
  · rw [h.opcode] at stops
    obtain ⟨mode, _, _, other⟩ := facts_of_stop stops
    have mode : (Instruction.fetch m r.addr).operation.mode = .implied := mode
    have translated : (Instruction.fetch m r.addr).needsInterpreter m = false := by
      unfold Instruction.needsInterpreter
      rw [mode]
      exact beq_false_of_ne other
    obtain ⟨stop, is, idles⟩ := Instruction.bodyUops_of_stop m o k stops
    rw [uopList_lower, translated, if_neg Bool.false_ne_true, is] at body
    rcases List.mem_append.mp body with shown | left
    · rw [Instruction.observe_of_mem shown]
      exact ⟨rfl, fun _ => rfl, .inr (.inl rfl)⟩
    · rw [List.mem_singleton.mp left]
      exact idles
  · rw [h.ends_of_stop stops] at open_end
    cases open_end

/-- The host code of an instruction that may be left to the interpreter retires no code. -/
theorem Lowered.keeps_of_asks (h : Lowered m o k r) {post : List Record} {op : HostOp}
    (mem : op ∈ r.ops m ++ onwardOps r post) (asks : op.asks = true) {op' : HostOp}
    (mem' : op' ∈ r.ops m ++ onwardOps r post) : op'.retires = false := by
  have whole : ∀ u ∈ (lower m o r.addr).uopList, (HostOp.uop u).retires = false := by
    obtain ⟨u, body, asks⟩ := h.exists_asks mem asks
    intro v among
    rw [uopList_lower] at body among
    rcases List.mem_append.mp among with shown | among
    · rw [Instruction.observe_of_mem shown]
      rfl
    · split at among
      · rw [List.mem_singleton.mp among]
        rfl
      · next translated =>
        rw [if_neg translated] at body
        refine Instruction.keeps_bodyUops o ?_ among
        rcases List.mem_append.mp body with shown | body
        · rw [Instruction.observe_of_mem shown] at asks
          cases asks
        · exact Instruction.reads_of_asks (Instruction.mem_beforeUops_of_asks o _ body asks) asks
  rcases h.op_cases mem' with rfl | ⟨_, rfl⟩ | ⟨u, body, rfl⟩ | ⟨rfl, _⟩
  · rfl
  · rfl
  · rw [(HostOp.ofUop_same m k u).1]
    exact whole u body
  · rfl

theorem Lowered.stop_of_leaves (h : Lowered m o k r) {post : List Record} {op : HostOp}
    (mem : op ∈ r.ops m ++ onwardOps r post) (leaves : op.leaves = true) :
    ∃ why, stopOf? r.opcode = some why := by
  rcases h.op_cases mem with rfl | ⟨_, rfl⟩ | ⟨u, body, rfl⟩ | ⟨rfl, _⟩
  · cases leaves
  · cases leaves
  · have leaves := (HostOp.ofUop_same m k u).2 leaves
    rw [uopList_lower] at body
    rw [h.opcode]
    rcases List.mem_append.mp body with shown | body
    · rw [Instruction.observe_of_mem shown] at leaves
      cases leaves
    · split at body
      · cases List.mem_singleton.mp body
        cases leaves
      · exact Instruction.stop_of_leaves o body leaves
  · cases leaves

end Record

theorem Native.Leaves.leaves {op : HostOp} {addr : Addr} (h : Native.Leaves op addr) :
    op.leaves = true := by
  rcases h with ⟨opcode, rfl⟩ | ⟨opcode, is, halts⟩
  · rfl
  · unfold Native.raw? at is
    split at is <;> cases is <;> exact halts

end Mos6502
