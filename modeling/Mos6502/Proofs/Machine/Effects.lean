import Mos6502.Proofs.Bus.Program
import Mos6502.Proofs.Machine.Returns
import Mos6502.Proofs.Native.Known

/-! What an instruction may change. A mnemonic writes to its operand or pushes, and never both; so
its tables say all the bytes that the interpreter may write, as they say the registers. -/
namespace Mos6502

def Mnemonic.pushes : Mnemonic → Nat
  | .pha | .php => 1
  | .jsr => 2
  | .brk => 3
  | _ => 0

namespace Operation

/-- Where an instruction may write, from the stack pointer `s` and with its operand at `effective`. -/
def reach (op : Operation) (s : UInt8) (effective : Addr) : List Addr :=
  match op.memUse with
  | .none | .read => (List.range op.mnemonic.pushes).map (stackBelow s)
  | .write | .readWrite => if op.mode = .accumulator then [] else [effective]

variable {op : Operation} {s : UInt8} {effective : Addr}

theorem effective_mem_reach (writes : op.mnemonic.memUse.writes = true)
    (memory : op.mode ≠ .accumulator) : effective ∈ op.reach s effective := by
  unfold reach memUse
  cases uses : op.mnemonic.memUse with
  | none | read => rw [uses] at writes; cases writes
  | write | readWrite => simp [memory]

theorem stackBelow_mem_reach {i : Nat} (inside : i < op.mnemonic.pushes) :
    stackBelow s i ∈ op.reach s effective := by
  have pushed := List.mem_map_of_mem (f := stackBelow s) (List.mem_range.mpr inside)
  unfold reach memUse
  cases named : op.mnemonic with
  | pha | php | jsr | brk =>
    rw [named] at pushed
    exact pushed
  | _ =>
    rw [named] at inside
    exact absurd inside (Nat.not_lt_zero i)

end Operation

namespace Instruction

variable {B : Type} [Bus B]

def effective (i : Instruction) (cpu : Cpu) (bus : B) : Addr :=
  (Interpreter.resolve i.operation.mode cpu i.low i.high (i.addr + i.operation.len.toUInt16)
    bus).1.effective

def reach (i : Instruction) (cpu : Cpu) (bus : B) : List Addr :=
  i.operation.reach cpu.s (i.effective cpu bus)

end Instruction

section Keeping

variable {α β B : Type} [Bus B] {I : B → Prop} {W : List Addr}

/-- Every read keeps it, and every write at one of these addresses. -/
structure Kept (I : B → Prop) (W : List Addr) : Prop where
  read : ∀ {b : B} (a : Addr), I b → I (Bus.read b a).2
  write : ∀ {b : B} {a : Addr} (v : UInt8), a ∈ W → I b → I (Bus.write b a v)

def Keeps (I : B → Prop) (x : StateM B α) : Prop :=
  ∀ b, I b → I (x b).2

namespace Keeps

omit [Bus B] in
theorem pure (v : α) : Keeps I (Pure.pure v) :=
  fun _ h => h

omit [Bus B] in
theorem bind {x : StateM B α} {f : α → StateM B β} (hx : Keeps I x) (hf : ∀ v, Keeps I (f v)) :
    Keeps I (x >>= f) :=
  fun b h => hf _ _ (hx b h)

end Keeps

namespace Kept

theorem fetch (kept : Kept I W) (a : Addr) : Keeps I (Bus.fetch a) :=
  fun _ h => kept.read a h

theorem store (kept : Kept I W) {a : Addr} (here : a ∈ W) (v : UInt8) : Keeps I (Bus.store a v) :=
  fun _ h => kept.write v here h

theorem fetchPointer (kept : Kept I W) (a : Addr) : Keeps I (Bus.fetchPointer a) :=
  .bind (kept.fetch _) fun _ => .bind (kept.fetch _) fun _ => .pure _

theorem pull (kept : Kept I W) (cpu : Cpu) : Keeps I (Interpreter.pull cpu) :=
  .bind (kept.fetch _) fun _ => .pure _

theorem pullWord (kept : Kept I W) (cpu : Cpu) : Keeps I (Interpreter.pullWord cpu) :=
  .bind (kept.pull _) fun _ => .bind (kept.pull _) fun _ => .pure _

theorem push (kept : Kept I W) {cpu : Cpu} (here : stackAddr cpu.s ∈ W) (v : UInt8)
    {f : Cpu → StateM B β} (rest : Keeps I (f { cpu with s := cpu.s - 1 })) :
    Keeps I (Interpreter.push cpu v >>= f) :=
  fun _ h => rest _ (kept.write v here h)

theorem pushWord (kept : Kept I W) {cpu : Cpu} (high : stackBelow cpu.s 0 ∈ W)
    (low : stackBelow cpu.s 1 ∈ W) (w : UInt16) {f : Cpu → StateM B β}
    (rest : Keeps I (f { cpu with s := cpu.s - 1 - 1 })) :
    Keeps I (Interpreter.pushWord cpu w >>= f) := by
  rw [stackBelow_zero] at high
  rw [stackBelow_one] at low
  exact fun _ h => rest _ (kept.write _ low (kept.write _ high h))

theorem resolve (kept : Kept I W) (mode : AddrMode) (cpu : Cpu) (low high : UInt8) (next : Addr) :
    Keeps I (Interpreter.resolve mode cpu low high next) := by
  cases mode with
  | indirect | indexedIndirect | indirectIndexed =>
    exact .bind (kept.fetchPointer _) fun _ => .pure _
  | _ => exact .pure _

end Kept

namespace Interpreter

theorem perform_keeps {opcode low high : UInt8} {cpu : Cpu} {bus : B}
    (kept : Kept I ((operationOf opcode).reach cpu.s
      (resolve (operationOf opcode).mode cpu low high (cpu.pc + (operationOf opcode).len.toUInt16)
        bus).1.effective))
    (h : I bus) : I (perform opcode low high cpu bus).2 := by
  have looked := kept.resolve (operationOf opcode).mode cpu low high
    (cpu.pc + (operationOf opcode).len.toUInt16) bus h
  have stores : (operationOf opcode).memUse = .write → _ := Native.memory_of_write
  unfold perform
  obtain ⟨⟨r, bus'⟩, hr⟩ : ∃ p, (resolve (operationOf opcode).mode cpu low high
    (cpu.pc + (operationOf opcode).len.toUInt16) : StateM B Resolved) bus = p := ⟨_, rfl⟩
  rw [hr] at kept looked
  rw [bind_run hr]
  generalize operationOf opcode = op at kept stores ⊢
  unfold Operation.memUse at stores
  have here : op.mnemonic.memUse.writes = true → op.mode ≠ .accumulator →
      r.effective ∈ op.reach cpu.s r.effective := Operation.effective_mem_reach
  have below : ∀ i < op.mnemonic.pushes, stackBelow cpu.s i ∈ op.reach cpu.s r.effective :=
    fun _ => Operation.stackBelow_mem_reach
  generalize op.reach cpu.s r.effective = W at kept here below
  have operand : Keeps I (if op.mode = .immediate then Pure.pure low else Bus.fetch r.effective) := by
    split
    · exact .pure _
    · exact kept.fetch _
  refine (?_ : Keeps I _) bus' looked
  dsimp only
  cases named : op.mnemonic with
  | adc | sbc | and | ora | eor | alr | bit | cmp | cpx | cpy | lda | ldx | ldy =>
    exact .bind operand fun _ => .pure _
  | nop =>
    dsimp only
    split
    · exact .bind operand fun _ => .pure _
    · exact .pure _
  | sta | stx | sty | sax =>
    rw [named] at here stores
    exact .bind (kept.store (here rfl (stores rfl)) _) fun _ => .pure _
  | asl | lsr | rol | ror | slo | inc | dec =>
    rw [named] at here
    dsimp only
    split
    · exact .pure _
    · next memory =>
      exact .bind (kept.fetch _) fun _ => .bind (kept.store (here rfl memory) _) fun _ =>
        .bind (kept.store (here rfl memory) _) fun _ => .pure _
  | pha | php =>
    rw [named] at below
    exact kept.push (stackBelow_zero cpu.s ▸ below 0 (by decide)) _ (.pure _)
  | pla | plp => exact .bind (kept.pull _) fun _ => .pure _
  | bcc | bcs | bne | beq | bpl | bmi | bvc | bvs =>
    dsimp only
    split <;> exact .pure _
  | jsr =>
    rw [named] at below
    exact kept.pushWord (below 0 (by decide)) (below 1 (by decide)) _ (.pure _)
  | rts => exact .bind (kept.pullWord _) fun _ => .pure _
  | rti => exact .bind (kept.pull _) fun _ => .bind (kept.pullWord _) fun _ => .pure _
  | brk =>
    rw [named] at below
    exact kept.pushWord (below 0 (by decide)) (below 1 (by decide)) _
      (kept.push (stackBelow_two cpu.s ▸ below 2 (by decide)) _
        (.bind (kept.fetchPointer _) fun _ => .pure _))
  | _ => exact .pure _

theorem perform_falls {opcode : UInt8} (never : (operationOf opcode).branch = .never)
    (low high : UInt8) (cpu : Cpu) (bus : B) :
    (perform opcode low high cpu bus).1.1.exit = none ∧
      (perform opcode low high cpu bus).1.2.pc = cpu.pc + (operationOf opcode).len.toUInt16 := by
  unfold perform
  obtain ⟨⟨r, bus'⟩, hr⟩ : ∃ p, (resolve (operationOf opcode).mode cpu low high
    (cpu.pc + (operationOf opcode).len.toUInt16) : StateM B Resolved) bus = p := ⟨_, rfl⟩
  rw [bind_run hr]
  unfold Operation.branch at never
  dsimp only
  cases named : (operationOf opcode).mnemonic with
  | brk | jmp | jsr | rti | rts | exit | debugBreak | crash | unknown | bcc | bcs | bne | beq | bpl
  | bmi | bvc | bvs =>
    rw [named] at never
    cases never
  | nop | asl | lsr | rol | ror | slo | inc | dec =>
    dsimp only
    split <;> exact ⟨rfl, rfl⟩
  | _ => exact ⟨rfl, rfl⟩

def fetchIf (has : Bool) (a : Addr) : StateM B UInt8 :=
  if has then Bus.fetch a else pure 0

/-- The instruction at an address, its operand bytes read only as far as it has any. -/
def fetchInstruction (pc : Addr) : StateM B Instruction := do
  let opcode ← Bus.fetch pc
  let low ← fetchIf (2 ≤ (operationOf opcode).len) (pc + 1)
  let high ← fetchIf (3 ≤ (operationOf opcode).len) (pc + 2)
  return ⟨pc, opcode, low, high⟩

theorem step_eq_perform {cpu : Cpu} {bus bus' : B} {i : Instruction}
    (found : fetchInstruction cpu.pc bus = (i, bus')) :
    i.addr = cpu.pc ∧ step cpu bus = perform i.opcode i.low i.high cpu bus' := by
  unfold fetchInstruction fetchIf at found
  unfold step
  obtain ⟨⟨opcode, bus₁⟩, h₁⟩ : ∃ p, (Bus.fetch cpu.pc : StateM B UInt8) bus = p := ⟨_, rfl⟩
  rw [bind_run h₁] at found ⊢
  by_cases two : 2 ≤ (operationOf opcode).len <;>
    by_cases three : 3 ≤ (operationOf opcode).len <;>
    · simp only [two, three, decide_true, decide_false, if_true, if_false, Bool.false_eq_true]
        at found ⊢
      cases found
      exact ⟨rfl, rfl⟩

theorem fetchIf_keeps (kept : Kept I W) (has : Bool) (a : Addr) : Keeps I (fetchIf has a) := by
  cases has with
  | true => exact kept.fetch a
  | false => exact .pure 0

theorem fetchInstruction_keeps (kept : Kept I W) (pc : Addr) : Keeps I (fetchInstruction pc) :=
  .bind (kept.fetch _) fun _ => .bind (fetchIf_keeps kept _ _) fun _ =>
    .bind (fetchIf_keeps kept _ _) fun _ => .pure _

theorem step_keeps {cpu : Cpu} {bus bus' : B} {i : Instruction}
    (found : fetchInstruction cpu.pc bus = (i, bus'))
    (kept : Kept I (i.reach cpu bus')) (h : I bus) :
    I (step cpu bus).2 := by
  have fetched := fetchInstruction_keeps kept cpu.pc bus h
  obtain ⟨addr, performs⟩ := step_eq_perform found
  rw [found] at fetched
  unfold Instruction.reach Instruction.effective at kept
  rw [addr] at kept
  rw [performs]
  exact perform_keeps kept fetched

end Interpreter

end Keeping

theorem Uniform.recorded {α B : Type} [Bus B] {x : (B : Type) → [Bus B] → StateM B α} (h : Uniform x)
    (r : Recorded B) : x B r.bus = ((x (Recorded B) r).1, (x (Recorded B) r).2.bus) := by
  obtain ⟨p, runs⟩ := h
  rw [runs, runs]
  exact p.run_map (I := fun _ => True) (φ := Recorded.bus) (fun _ _ _ => ⟨trivial, rfl⟩)
    (fun _ _ _ _ => ⟨trivial, rfl⟩) trivial

namespace Interpreter

variable {B : Type} [Bus B]

theorem uniform_fetchIf (has : Bool) (a : Addr) :
    Uniform fun B _ => (fetchIf has a : StateM B UInt8) := by
  cases has with
  | true => exact .fetch a
  | false => exact .pure 0

theorem uniform_fetchInstruction (pc : Addr) :
    Uniform fun B _ => (fetchInstruction pc : StateM B Instruction) :=
  .bind (.fetch _) fun _ => .bind (uniform_fetchIf _ _) fun _ => .bind (uniform_fetchIf _ _) fun _ =>
    .pure _

/-- What the tables say of the step: `i` is the instruction at the program counter, and `reach` are
the addresses that it may write. -/
structure Tabled (i : Instruction) (reach : List Addr) (cpu : Cpu) (bus : B) : Prop where
  registers : i.operation.register.Spares i.operation.mnemonic.touchesCarry cpu (step cpu bus).1.2
  writes : ∀ a v, .write a v ∈ (step cpu (⟨bus, #[]⟩ : Recorded B)).2.accesses → a ∈ reach
  falls : i.operation.branch = .never → (step cpu bus).1.1.exit = none ∧
    (step cpu bus).1.2.pc = cpu.pc + i.operation.len.toUInt16

theorem kept_recorded (W : List Addr) :
    Kept (fun r : Recorded B => ∀ a v, .write a v ∈ r.accesses → a ∈ W) W where
  read a h := by
    intro x v written
    have old := (Array.mem_push.mp written).resolve_right Access.noConfusion
    exact h x v old
  write v here h := by
    intro x w written
    rcases Array.mem_push.mp written with old | new
    · exact h x w old
    · cases new
      exact here

theorem step_tabled {cpu : Cpu} {bus bus' : B} {i : Instruction}
    (found : fetchInstruction cpu.pc bus = (i, bus')) :
    Tabled i (i.reach cpu bus') cpu bus := by
  obtain ⟨addr, performs⟩ := step_eq_perform found
  refine ⟨?_, ?_, ?_⟩
  · rw [performs]
    exact perform_spares _ _ _ _ _
  · have fetched := (uniform_fetchInstruction cpu.pc).recorded (⟨bus, #[]⟩ : Recorded B)
    obtain ⟨⟨i', r⟩, found'⟩ : ∃ p, (fetchInstruction cpu.pc : StateM (Recorded B) Instruction)
      ⟨bus, #[]⟩ = p := ⟨_, rfl⟩
    rw [found', found] at fetched
    obtain ⟨rfl, rfl⟩ := Prod.mk.inj fetched
    have looked := (uniform_resolve i.operation.mode cpu i.low i.high
      (i.addr + i.operation.len.toUInt16)).recorded r
    have same : i.reach cpu r.bus = i.reach cpu r := by
      unfold Instruction.reach Instruction.effective
      rw [looked]
    rw [same]
    exact step_keeps found' (kept_recorded _) nofun
  · intro never
    rw [performs]
    exact perform_falls never _ _ _ _

end Interpreter

variable {σ : Type}

/-- From one core to the other nothing has changed but what the tables name, and of memory nothing
outside of `reach`. -/
structure Operation.Confines (op : Operation) (reach : List Addr) (c d : Core (PagedMemory σ)) :
    Prop where
  registers : op.register.Spares op.mnemonic.touchesCarry c.cpu d.cpu
  memory : ∀ x, x ∉ reach → d.bus.memory.ram.get x = c.bus.memory.ram.get x

namespace Operation.Confines

variable {op : Operation} {reach : List Addr} {c d e : Core (PagedMemory σ)}

theorem refl : op.Confines reach c c :=
  ⟨.refl _, fun _ _ => rfl⟩

theorem trans (h : op.Confines reach c d) (h' : op.Confines reach d e) : op.Confines reach c e :=
  ⟨h.registers.trans h'.registers, fun x outside =>
    (h'.memory x outside).trans (h.memory x outside)⟩

end Operation.Confines

namespace Interpreter

theorem kept_codeBus (W : List Addr) (v : Addr → UInt8) :
    Kept (fun b : CodeBus (PagedMemory σ) => ∀ x, x ∉ W → b.memory.ram.get x = v x) W where
  read {b} a h x outside :=
    (Native.WritesIn.load (W := (· ∈ W)) a ⟨.powerOn, b⟩ x outside).trans (h x outside)
  write {b a} v here h x outside :=
    (Native.WritesIn.put (W := (· ∈ W)) here v ⟨.powerOn, b.retire a⟩ x outside).trans (h x outside)

theorem step_confines {cpu : Cpu} {b b' : CodeBus (PagedMemory σ)} {i : Instruction}
    (found : fetchInstruction cpu.pc b = (i, b')) :
    i.operation.Confines (i.reach cpu b') ⟨cpu, b⟩ ⟨(step cpu b).1.2, (step cpu b).2⟩ :=
  ⟨(step_tabled found).registers, step_keeps found (kept_codeBus _ _) fun _ _ => rfl⟩

end Interpreter

end Mos6502
