import Mos6502.Proofs.Block.Live
import Mos6502.Proofs.Native.Along
import Mos6502.Proofs.Native.Parts

/-! Compiled code retires what it overwrites. In the host code of an instruction every store is
either to an address that the instruction retired first, or into the stack, or, when code in page
zero is not tracked, into page zero. -/
namespace Mos6502

/-- Stores to the address have to retire the code there. -/
def Tracked (zeroPage : Bool) (x : Addr) : Prop :=
  highByte x ≠ 1 ∧ (highByte x = 0 → zeroPage = true)

namespace Native

variable {σ α β : Type}

/-- No byte of a live block changed, where stores are tracked. -/
def SafeStep (zeroPage : Bool) (c d : Core (PagedMemory σ)) : Prop :=
  ∀ s x, Tracked zeroPage x → d.bus.blocks.LiveAt s x →
    d.bus.memory.ram.get x = c.bus.memory.ram.get x

abbrev Safe (zeroPage : Bool) : List HostOp → Core (PagedMemory σ) → Prop :=
  Along (fun c _ d => SafeStep zeroPage c d) fun _ => True

def WritesIn (W : Addr → Prop) (x : Exec (PagedMemory σ) α) : Prop :=
  ∀ c a, ¬ W a → (x c).2.bus.memory.ram.get a = c.bus.memory.ram.get a

namespace WritesIn

variable {W : Addr → Prop}

theorem pure (v : α) : WritesIn W (Pure.pure v : Exec (PagedMemory σ) α) :=
  fun _ _ _ => rfl

theorem bind {x : Exec (PagedMemory σ) α} {f : α → Exec (PagedMemory σ) β} (hx : WritesIn W x)
    (hf : ∀ v, WritesIn W (f v)) : WritesIn W (x >>= f) :=
  fun c a ha => (hf _ (x c).2 a ha).trans (hx c a ha)

theorem getCpu : WritesIn (σ := σ) W Native.getCpu :=
  fun _ _ _ => rfl

theorem onCpu (f : Cpu → Cpu) : WritesIn (σ := σ) W (Native.onCpu f) :=
  fun _ _ _ => rfl

theorem thenNext (f : Cpu → Cpu) : WritesIn (σ := σ) W (Native.thenNext f) :=
  fun _ _ _ => rfl

theorem load (a : Addr) : WritesIn (σ := σ) W (Native.load a) := by
  rintro ⟨cpu, memory, blocks, deviceFrom⟩ x _
  simp only [Native.load, CodeBus.load]
  split
  · exact congrArg (·.get x) (memory.ram_deviceRead a)
  · rfl

theorem put {a : Addr} (h : W a) (v : UInt8) : WritesIn (σ := σ) W (Native.put a v) := by
  rintro ⟨cpu, memory, blocks, deviceFrom⟩ x hx
  have other : a ≠ x := by
    rintro rfl
    exact hx h
  simp only [Native.put, CodeBus.put]
  split
  · exact PagedMemory.get_deviceWrite_of_ne other
  · exact PagedMemory.get_write_of_ne other

theorem pull : WritesIn (σ := σ) W Native.pull :=
  fun _ _ _ => rfl

theorem loadPointer (a : Addr) : WritesIn (σ := σ) W (Native.loadPointer a) :=
  .bind (load a) fun _ => .bind (load _) fun _ => .pure _

theorem loadOperand (mode : AddrMode) (operand : UInt16) :
    WritesIn (σ := σ) W (Native.loadOperand mode operand) := by
  unfold Native.loadOperand
  split
  · exact .pure _
  · exact .bind getCpu fun _ => load _

end WritesIn

def PageOne (a : Addr) : Prop :=
  highByte a = 1

theorem forall_byte {p : UInt8 → Prop} (all : ∀ i : Fin 256, p (UInt8.ofNat i.val)) (v : UInt8) :
    p v :=
  forall_opcode all v

theorem highByte_stackAddr (s : UInt8) : highByte (stackAddr s) = 1 := by
  apply forall_byte (p := fun s => highByte (stackAddr s) = 1)
  decide +kernel

theorem highByte_toUInt16 (v : UInt8) : highByte v.toUInt16 = 0 := by
  apply forall_byte (p := fun v => highByte v.toUInt16 = 0)
  decide +kernel

theorem WritesIn.push (v : UInt8) : WritesIn (σ := σ) PageOne (Native.push v) := by
  rintro ⟨cpu, memory, blocks, deviceFrom⟩ x hx
  have other : stackAddr cpu.s ≠ x := by
    rintro rfl
    exact hx (highByte_stackAddr cpu.s)
  exact PagedMemory.get_write_of_ne other

def storeModes : List AddrMode :=
  [.zeroPage, .zeroPageX, .zeroPageY, .absolute, .absoluteX, .absoluteY, .indexedIndirect,
    .indirectIndexed]

theorem mode_of_writes (opcode : UInt8) (writes : (operationOf opcode).memUse.writes = true) :
    (operationOf opcode).mode ∈ storeModes ∨
      (operationOf opcode).mode = .accumulator ∧ (operationOf opcode).memUse = .readWrite := by
  revert writes
  apply forall_byte (p := fun opcode => (operationOf opcode).memUse.writes = true →
    (operationOf opcode).mode ∈ storeModes ∨
      (operationOf opcode).mode = .accumulator ∧ (operationOf opcode).memUse = .readWrite)
  decide +kernel

theorem storeModes_of_writes {opcode : UInt8} (writes : (operationOf opcode).memUse.writes = true)
    (memory : (operationOf opcode).mode ≠ .accumulator) : (operationOf opcode).mode ∈ storeModes :=
  (mode_of_writes opcode writes).resolve_right fun acc => memory acc.1

theorem mnemonic_of_accumulator {opcode : UInt8}
    (accumulator : (operationOf opcode).mode = .accumulator) :
    (operationOf opcode).mnemonic ∈ [.asl, .lsr, .rol, .ror] := by
  revert accumulator
  apply forall_byte (p := fun opcode => (operationOf opcode).mode = .accumulator →
    (operationOf opcode).mnemonic ∈ [.asl, .lsr, .rol, .ror])
  decide +kernel

theorem refundsCrossing_of_writes {i : Instruction} {o : LoweringOptions}
    (writes : i.operation.memUse.writes = true) : i.refundsCrossing o = false := by
  unfold Instruction.refundsCrossing
  cases hu : i.operation.memUse with
  | read => rw [hu] at writes; cases writes
  | _ => simp

theorem memory_of_store {mode : AddrMode} (store : mode ∈ storeModes) : mode ≠ .accumulator := by
  rintro rfl
  simp [storeModes] at store

theorem memory_of_write {opcode : UInt8} (write : (operationOf opcode).memUse = .write) :
    (operationOf opcode).mode ≠ .accumulator := by
  rcases mode_of_writes opcode (by rw [write]; rfl) with store | ⟨_, both⟩
  · exact memory_of_store store
  · exact MemUse.noConfusion (write.symm.trans both)

/-- Only stores can write outside of the stack. -/
theorem writesIn_raw {opcode : UInt8} (operand : UInt16) (checked : Bool)
    (quiet : (operationOf opcode).memUse.writes = false ∨
      (operationOf opcode).mode = .accumulator) :
    WritesIn (σ := σ) PageOne (raw opcode operand checked) := by
  unfold raw
  dsimp only
  unfold Operation.memUse at quiet
  cases hm : (operationOf opcode).mnemonic with
  | adc | sbc | and | ora | eor | alr | bit | cmp | cpx | cpy | lda | ldx | ldy =>
    exact .bind (.loadOperand _ _) fun _ => .bind (.onCpu _) fun _ => .pure _
  | nop =>
    dsimp only
    split
    · exact .bind (.loadOperand _ _) fun _ => .pure _
    · exact .pure _
  | sta | stx | sty | sax =>
    have write : (operationOf opcode).memUse = .write := by
      unfold Operation.memUse
      rw [hm]
      rfl
    rw [hm] at quiet
    exact absurd (quiet.resolve_left (by decide)) (memory_of_write write)
  | asl | lsr | rol | ror | slo | inc | dec =>
    rw [hm] at quiet
    rcases quiet with contra | acc
    · cases contra
    · rw [if_pos acc]
      exact .bind (.onCpu _) fun _ => .pure _
  | pha | php => exact .bind .getCpu fun _ => .bind (.push _) fun _ => .pure _
  | pla | plp => exact .bind .pull fun _ => .bind (.onCpu _) fun _ => .pure _
  | bcc | bcs | beq | bne | bmi | bpl | bvc | bvs =>
    refine .bind .getCpu fun _ => ?_
    split <;> exact .pure _
  | exit | debugBreak | crash | brk | jmp | jsr | rts | rti | unknown => exact .pure _
  | _ => exact .bind (.onCpu _) fun _ => .pure _

def Quiet : Uop → Prop
  | .storeConst .. => False
  | .raw opcode _ =>
    (operationOf opcode).memUse.writes = false ∨ (operationOf opcode).mode = .accumulator
  | _ => True

theorem writesIn_exec {u : Uop} (quiet : Quiet u) : WritesIn (σ := σ) PageOne (exec u) := by
  cases u with
  | raw opcode operand => exact writesIn_raw operand false quiet
  | storeConst => exact quiet.elim
  | pushWord => exact .bind (.push _) fun _ => .bind (.push _) fun _ => .pure _
  | follow => exact .bind (.loadPointer _) fun _ => .thenNext _
  | followScratch => exact .bind .getCpu fun _ => .bind (.loadPointer _) fun _ => .thenNext _
  | pullScratch => exact .bind .pull fun _ => .bind .pull fun _ => .thenNext _
  | retire | retireScratch | retireScratchY => exact fun _ _ _ => rfl
  | _ => exact fun _ _ _ => rfl

theorem writesIn_ofUop (m : PagedMemory σ) {u : Uop} (quiet : Quiet u) :
    WritesIn (σ := σ) PageOne (execOp (HostOp.ofUop m u)) := by
  cases u with
  | raw opcode operand =>
    unfold HostOp.ofUop
    dsimp only
    split
    · exact writesIn_raw _ true quiet
    · exact writesIn_raw _ false quiet
  | _ => exact writesIn_exec quiet

theorem safeStep_of_writesIn {x : Exec (PagedMemory σ) α} (h : WritesIn PageOne x)
    (zeroPage : Bool) (c : Core (PagedMemory σ)) : SafeStep zeroPage c (x c).2 :=
  fun _ a tracked _ => h c a tracked.1

variable {zeroPage : Bool}

theorem safe_append {xs ys : List HostOp}
    (quiet : ∀ op ∈ xs, WritesIn (σ := σ) PageOne (execOp op))
    (rest : ∀ d, Safe (σ := σ) zeroPage ys d) (c : Core (PagedMemory σ)) :
    Safe zeroPage (xs ++ ys) c :=
  along_append (fun op mem c => safeStep_of_writesIn (quiet op mem) zeroPage c) rest c

end Native

namespace Record.Known

theorem rewrite_raw (k : Known) (opcode : UInt8) (operand : UInt16) :
    k.rewrite (.raw opcode operand) = .raw opcode operand ∨
      (opcode = 0x69 ∧ k.carry = some false ∧
        k.rewrite (.raw opcode operand) = .addConst operand.toUInt8) ∨
      (opcode = 0xE9 ∧ k.carry = some true ∧
        k.rewrite (.raw opcode operand) = .subConst operand.toUInt8) ∨
      ∃ v, k.rewrite (.raw opcode operand) = .storeConst operand v ∧
        ((opcode = 0x84 ∨ opcode = 0x8C) ∧ k.y = some v ∨
          (opcode = 0x85 ∨ opcode = 0x8D) ∧ k.a = some v ∨
          (opcode = 0x86 ∨ opcode = 0x8E) ∧ k.x = some v) := by
  simp only [rewrite]
  split
  · next add =>
    split
    · next known => exact .inr (.inl ⟨add, known, rfl⟩)
    · exact .inl rfl
  · split
    · next sub =>
      split
      · next known => exact .inr (.inr (.inl ⟨sub, known, rfl⟩))
      · exact .inl rfl
    · split
      · next store =>
        cases known : k.y with
        | none => exact .inl rfl
        | some v => exact .inr (.inr (.inr ⟨v, rfl, .inl ⟨store, rfl⟩⟩))
      · split
        · next store =>
          cases known : k.a with
          | none => exact .inl rfl
          | some v => exact .inr (.inr (.inr ⟨v, rfl, .inr (.inl ⟨store, rfl⟩)⟩))
        · split
          · next store =>
            cases known : k.x with
            | none => exact .inl rfl
            | some v => exact .inr (.inr (.inr ⟨v, rfl, .inr (.inr ⟨store, rfl⟩)⟩))
          · exact .inl rfl

end Record.Known

namespace Native

variable {σ : Type} {zeroPage : Bool}

theorem Quiet.rewrite {u : Uop} (quiet : Quiet u) (k : Record.Known) : Quiet (k.rewrite u) := by
  cases u with
  | raw opcode operand =>
    rcases k.rewrite_raw opcode operand with h | ⟨_, _, h⟩ | ⟨_, _, h⟩ | ⟨v, h, stores⟩
    · rw [h]; exact quiet
    · rw [h]; trivial
    · rw [h]; trivial
    · have loud : ∀ opcode, opcode = 0x84 ∨ opcode = 0x8C ∨ opcode = 0x85 ∨ opcode = 0x8D ∨
          opcode = 0x86 ∨ opcode = 0x8E → ¬ Quiet (.raw opcode operand) := by
        rintro _ (rfl | rfl | rfl | rfl | rfl | rfl) <;>
        · rintro (writes | acc)
          · exact absurd writes (by decide +kernel)
          · exact absurd acc (by decide +kernel)
      refine absurd quiet (loud opcode ?_)
      rcases stores with ⟨h | h, _⟩ | ⟨h | h, _⟩ | ⟨h | h, _⟩ <;> simp [h]
  | storeConst => exact quiet
  | _ => trivial

end Native

/-- Neither a raw opcode nor what the peephole makes of a store. -/
def Uop.isAuxiliary : Uop → Bool
  | raw .. | storeConst .. => false
  | _ => true

namespace Instruction

open Native

theorem auxiliary_around (o : LoweringOptions) (i : Instruction) {u : Uop}
    (mem : u ∈ i.observeUops o ∨ u ∈ i.modeUops o ∨ u ∈ i.retireUops o ∨ u ∈ i.beforeUops ∨
      u ∈ i.afterUops o) : u.isAuxiliary = true := by
  rcases mem with mem | mem | mem | mem | mem
  · rw [observe_of_mem mem]
    rfl
  · cases inMode_of_mem mem <;> rfl
  · cases inRetire_of_mem mem <;> rfl
  · cases inBefore_of_mem mem <;> rfl
  · cases inAfter_of_mem mem <;> rfl

theorem quiet_around (o : LoweringOptions) (i : Instruction) {u : Uop}
    (mem : u ∈ i.observeUops o ∨ u ∈ i.modeUops o ∨ u ∈ i.retireUops o ∨ u ∈ i.beforeUops ∨
      u ∈ i.afterUops o) : Quiet u := by
  have auxiliary := i.auxiliary_around o mem
  cases u with
  | storeConst | raw => cases auxiliary
  | _ => trivial

theorem quiet_main (i : Instruction) (quiet : Quiet (.raw i.opcode i.operand)) {u : Uop}
    (mem : u ∈ i.mainUops) : Quiet u := by
  cases inMain_of_mem mem with
  | raw => exact quiet
  | pushFlags | mask => exact .inl (by decide +kernel)
  | _ => trivial

end Instruction

namespace Native

variable {σ : Type} {zeroPage : Bool}

theorem writesIn_modify (op : Operation) (ea : Addr) (checked : Bool) :
    WritesIn (σ := σ) (· = ea) (do
      let v ← Native.load ea
      let (result, cpu) := modify op.mnemonic v (← Native.getCpu)
      Native.onCpu fun _ => cpu
      if checked then
        Native.put ea v
      Native.put ea result
      if op.mnemonic = .slo then
        Native.onCpu fun c => takeA (c.a ||| result) c) := by
  have put : ∀ v, WritesIn (σ := σ) (· = ea) (Native.put ea v) := WritesIn.put rfl
  refine .bind (.load _) fun v => .bind .getCpu fun cpu => ?_
  obtain ⟨result, after⟩ := modify op.mnemonic v cpu
  refine .bind (.onCpu _) fun _ => ?_
  have last : WritesIn (σ := σ) (· = ea)
      (if op.mnemonic = .slo then Native.onCpu fun c => takeA (c.a ||| result) c
      else Pure.pure ()) := by
    split
    · exact .onCpu _
    · exact .pure _
  dsimp only
  split
  · exact .bind (put v) fun _ => .bind (put result) fun _ => last
  · exact .bind (put result) fun _ => last

theorem get_raw_of_ne {opcode : UInt8} (writes : (operationOf opcode).memUse.writes = true)
    (mode : (operationOf opcode).mode ∈ storeModes) (operand : UInt16) (checked : Bool)
    (c : Core (PagedMemory σ)) {x : Addr}
    (other : x ≠ operandAddr (operationOf opcode).mode operand c.cpu) :
    (raw opcode operand checked c).2.bus.memory.ram.get x = c.bus.memory.ram.get x := by
  have memory := memory_of_store mode
  unfold raw
  unfold Operation.memUse at writes
  dsimp only
  cases hm : (operationOf opcode).mnemonic with
  | sta | stx | sty | sax =>
    exact WritesIn.put (σ := σ)
      (W := (· = operandAddr (operationOf opcode).mode operand c.cpu)) rfl _ c x other
  | asl | lsr | rol | ror | slo | inc | dec =>
    simp only [if_neg memory]
    exact writesIn_modify (operationOf opcode)
      (operandAddr (operationOf opcode).mode operand c.cpu) checked c x other
  | _ => rw [hm] at writes; cases writes

theorem operandWidth_of_mode (opcode : UInt8) :
    ((operationOf opcode).mode ∈ [.absolute, .absoluteX, .absoluteY] → operandWidth opcode = 2) ∧
      ((operationOf opcode).mode = .zeroPage → operandWidth opcode = 1) := by
  apply forall_byte (p := fun opcode =>
    ((operationOf opcode).mode ∈ [.absolute, .absoluteX, .absoluteY] → operandWidth opcode = 2) ∧
      ((operationOf opcode).mode = .zeroPage → operandWidth opcode = 1))
  decide +kernel

/-- What is stored of an operand is enough to find it. -/
theorem operandAddr_stored (i : Instruction) (mode : i.operation.mode ∈ storeModes) (cpu : Cpu) :
    operandAddr i.operation.mode (storedOperand i.opcode i.operand) cpu
      = operandAddr i.operation.mode i.operand cpu := by
  obtain ⟨wide, narrow⟩ := operandWidth_of_mode i.opcode
  change operandAddr (operationOf i.opcode).mode _ cpu = operandAddr (operationOf i.opcode).mode _ cpu
  change (operationOf i.opcode).mode ∈ storeModes at mode
  cases hm : (operationOf i.opcode).mode with
  | zeroPage =>
    have low : i.operand = i.low.toUInt16 := by
      simp only [Instruction.operand, Instruction.operation, hm]
    simp [operandAddr, storedOperand, narrow hm, low, lowByte]
  | absolute | absoluteX | absoluteY =>
    have width : operandWidth i.opcode = 2 := wide (by simp [hm])
    simp only [operandAddr, storedOperand, width]
  | zeroPageX | zeroPageY | indexedIndirect | indirectIndexed => rfl
  | _ => rw [hm] at mode; simp [storeModes] at mode

end Native

/-- The stores that can become a store of a constant have their address in their operand. -/
theorem Instruction.operandAddr_of_direct {k : Record.Known} {v : UInt8} (i : Instruction)
    (stores : (i.opcode = 0x84 ∨ i.opcode = 0x8C) ∧ k.y = some v ∨
      (i.opcode = 0x85 ∨ i.opcode = 0x8D) ∧ k.a = some v ∨
      (i.opcode = 0x86 ∨ i.opcode = 0x8E) ∧ k.x = some v) (cpu : Cpu) :
    Native.operandAddr i.operation.mode i.operand cpu = i.operand := by
  have modes : ∀ opcode, opcode = 0x84 ∨ opcode = 0x8C ∨ opcode = 0x85 ∨ opcode = 0x8D ∨
      opcode = 0x86 ∨ opcode = 0x8E →
      (operationOf opcode).mode = .zeroPage ∨ (operationOf opcode).mode = .absolute := by
    rintro _ (rfl | rfl | rfl | rfl | rfl | rfl) <;> decide +kernel
  have mode := modes i.opcode
    (by rcases stores with ⟨h | h, _⟩ | ⟨h | h, _⟩ | ⟨h | h, _⟩ <;> simp [h])
  unfold Instruction.operation
  rcases mode with h | h <;> rw [h] <;> rfl

namespace Native

variable {σ : Type} {zeroPage : Bool}

theorem get_main_of_ne (m : PagedMemory σ) (k : Record.Known) (i : Instruction)
    (writes : i.operation.memUse.writes = true) (mode : i.operation.mode ∈ storeModes)
    (c : Core (PagedMemory σ)) {x : Addr}
    (other : x ≠ operandAddr i.operation.mode i.operand c.cpu) :
    (execOp (HostOp.ofUop m (k.rewrite (.raw i.opcode i.operand))) c).2.bus.memory.ram.get x
      = c.bus.memory.ram.get x := by
  rcases k.rewrite_raw i.opcode i.operand with h | ⟨_, _, h⟩ | ⟨_, _, h⟩ | ⟨v, h, stores⟩
  · rw [← operandAddr_stored i mode] at other
    rw [h]
    unfold HostOp.ofUop
    dsimp only
    split
    · exact get_raw_of_ne writes mode _ true c other
    · exact get_raw_of_ne writes mode _ false c other
  · rw [h]; rfl
  · rw [h]; rfl
  · have direct := i.operandAddr_of_direct stores c.cpu
    rw [direct] at other
    rw [h]
    exact WritesIn.put (σ := σ) (W := (· = i.operand)) rfl v c x other

theorem tame_main (m : PagedMemory σ) (k : Record.Known) (opcode : UInt8) (operand : UInt16) :
    Tame (σ := σ) (Direct (HostOp.ofUop m (k.rewrite (.raw opcode operand))))
      (execOp (HostOp.ofUop m (k.rewrite (.raw opcode operand)))) := by
  rcases k.rewrite_raw opcode operand with h | ⟨_, _, h⟩ | ⟨_, _, h⟩ | ⟨v, h, _⟩
  · rw [h]
    unfold HostOp.ofUop
    dsimp only
    split
    · exact tame_raw rfl true
    · exact tame_raw rfl false
  · rw [h]; exact tame_thenNext _ _
  · rw [h]; exact tame_thenNext _ _
  · rw [h]; exact .bind (.put _ _) fun _ _ => .pure trivial

theorem safe_main (m : PagedMemory σ) (k : Record.Known) (i : Instruction)
    (writes : i.operation.memUse.writes = true) (mode : i.operation.mode ∈ storeModes)
    {rest : List HostOp} (after : ∀ d, Safe (σ := σ) zeroPage rest d) (c : Core (PagedMemory σ))
    (free : Tracked zeroPage (operandAddr i.operation.mode i.operand c.cpu) →
      ∀ s, ¬ c.bus.blocks.LiveAt s (operandAddr i.operation.mode i.operand c.cpu)) :
    Safe zeroPage (HostOp.ofUop m (k.rewrite (.raw i.opcode i.operand)) :: rest) c := by
  refine ⟨?_, fun d _ => after d⟩
  intro s x tracked live
  rw [(tame_main m k i.opcode i.operand c).2.1] at live
  apply get_main_of_ne m k i writes mode c
  rintro rfl
  exact free tracked s live

/-- After the retirement of an address, nothing live is there. -/
theorem safe_retire {op : HostOp} {ops : List HostOp} {c : Core (PagedMemory σ)} (a pc : Addr)
    (is : execOp op c = retire a pc c)
    (rest : Safe zeroPage ops ⟨c.cpu, c.bus.retire a⟩) : Safe zeroPage (op :: ops) c := by
  obtain ⟨cpu, bus⟩ := c
  refine ⟨?_, ?_⟩
  · rw [is]
    exact fun _ _ _ _ => rfl
  · rw [is]
    intro d next
    simp only [retire] at next
    split at next
    · cases next; exact rest
    · cases next; exact rest

theorem safe_next {op : HostOp} {ops : List HostOp} {c d : Core (PagedMemory σ)}
    (is : execOp op c = (.next, d)) (ram : d.bus.memory.ram = c.bus.memory.ram)
    (rest : Safe zeroPage ops d) : Safe zeroPage (op :: ops) c :=
  (along_next is).mpr ⟨fun _ x _ _ => congrArg (·.get x) ram, rest⟩

/-- Between the retirement and the store an instruction at most fetches the carry. -/
theorem safe_before_main (m : PagedMemory σ) (k : Record.Known) (i : Instruction)
    (writes : i.operation.memUse.writes = true) (mode : i.operation.mode ∈ storeModes)
    {rest : List HostOp} (after : ∀ d, Safe (σ := σ) zeroPage rest d) (c : Core (PagedMemory σ))
    (free : Tracked zeroPage (operandAddr i.operation.mode i.operand c.cpu) →
      ∀ s, ¬ c.bus.blocks.LiveAt s (operandAddr i.operation.mode i.operand c.cpu)) :
    Safe zeroPage ((i.beforeUops ++ i.mainUops).map (HostOp.ofUop m ∘ k.rewrite) ++ rest) c := by
  unfold Instruction.beforeUops Instruction.mainUops
  have main := safe_main m k i writes mode after
  unfold Operation.memUse at writes
  cases hm : i.operation.mnemonic with
  | rol | ror =>
    exact safe_next (d := ⟨{ c.cpu with hostCarry := c.cpu.carry }, c.bus⟩) rfl rfl (main _ free)
  | sta | stx | sty | sax | asl | lsr | inc | dec | slo => exact main c free
  | _ => rw [hm] at writes; cases writes

theorem safe_store (m : PagedMemory σ) (k : Record.Known) (o : LoweringOptions) (i : Instruction)
    (tracks : zeroPage = true → o.zeroPageCode = true)
    (writes : i.operation.memUse.writes = true) (mode : i.operation.mode ∈ storeModes)
    {rest : List HostOp} (after : ∀ d, Safe (σ := σ) zeroPage rest d) (c : Core (PagedMemory σ)) :
    Safe zeroPage ((i.modeUops o ++ i.retireUops o ++ (i.beforeUops ++ i.mainUops)).map
      (HostOp.ofUop m ∘ k.rewrite) ++ rest) c := by
  have main := safe_before_main m k i writes mode after
  have retired : ∀ {op : HostOp} {d : Core (PagedMemory σ)} (a : Addr),
      execOp op d = retire a i.addr d → operandAddr i.operation.mode i.operand d.cpu = a →
      Safe zeroPage (op :: ((i.beforeUops ++ i.mainUops).map (HostOp.ofUop m ∘ k.rewrite) ++ rest))
        d := by
    intro op d a is there
    refine safe_retire a i.addr is (main _ ?_)
    rw [there]
    exact fun _ => BlockMap.not_liveAt_retire _ _
  -- Nothing in page zero is retired while code there is not tracked.
  have untracked : ∀ {d : Core (PagedMemory σ)}, o.zeroPageCode = false →
      highByte (operandAddr i.operation.mode i.operand d.cpu) = 0 →
      Safe zeroPage ((i.beforeUops ++ i.mainUops).map (HostOp.ofUop m ∘ k.rewrite) ++ rest) d := by
    intro d off low
    refine main d fun tracked => ?_
    have on := tracks (tracked.2 low)
    rw [off] at on
    cases on
  unfold Instruction.modeUops Instruction.retireUops
  rw [if_pos writes, refundsCrossing_of_writes writes]
  cases hm : i.operation.mode with
  | zeroPage =>
    rw [hm] at retired untracked
    cases ho : o.zeroPageCode with
    | true => exact retired i.operand rfl rfl
    | false =>
      refine untracked ho ?_
      simp only [operandAddr, Instruction.operand, hm]
      exact highByte_toUInt16 i.low
  | zeroPageX =>
    rw [hm] at retired untracked
    refine safe_next (d := ⟨{ c.cpu with scratch := (i.low + c.cpu.x).toUInt16 }, c.bus⟩)
      rfl rfl ?_
    cases ho : o.zeroPageCode with
    | true => exact retired (i.low + c.cpu.x).toUInt16 rfl rfl
    | false => exact untracked ho (highByte_toUInt16 _)
  | zeroPageY =>
    rw [hm] at retired untracked
    refine safe_next (d := ⟨{ c.cpu with scratch := (i.low + c.cpu.y).toUInt16 }, c.bus⟩)
      rfl rfl ?_
    cases ho : o.zeroPageCode with
    | true => exact retired (i.low + c.cpu.y).toUInt16 rfl rfl
    | false => exact untracked ho (highByte_toUInt16 _)
  | absolute =>
    rw [hm] at retired
    exact retired i.operand rfl rfl
  | absoluteX =>
    rw [hm] at retired
    refine safe_next (d := ⟨{ c.cpu with scratch := i.operand + c.cpu.x.toUInt16 }, c.bus⟩)
      rfl rfl ?_
    exact retired (i.operand + c.cpu.x.toUInt16) rfl rfl
  | absoluteY =>
    rw [hm] at retired
    refine safe_next (d := ⟨{ c.cpu with scratch := i.operand + c.cpu.y.toUInt16 }, c.bus⟩)
      rfl rfl ?_
    exact retired (i.operand + c.cpu.y.toUInt16) rfl rfl
  | indexedIndirect =>
    rw [hm] at retired
    refine ⟨safeStep_of_writesIn (writesIn_exec (u := .pointZeroX i.low) trivial) zeroPage c, ?_⟩
    intro d₁ _
    refine ⟨safeStep_of_writesIn (writesIn_exec (u := .followScratch) trivial) zeroPage d₁, ?_⟩
    intro d₂ _
    exact retired d₂.cpu.scratch rfl rfl
  | indirectIndexed =>
    rw [hm] at retired
    refine ⟨safeStep_of_writesIn (writesIn_exec (u := .follow i.low.toUInt16) trivial) zeroPage c, ?_⟩
    intro d _
    exact retired (d.cpu.scratch + d.cpu.y.toUInt16) rfl rfl
  | _ => rw [hm] at mode; simp [storeModes] at mode

end Native

namespace Record

open Native

variable {σ : Type} {m : PagedMemory σ} {o : LoweringOptions} {k : Known}

theorem Lowered.along_ops {r : Record} (h : Lowered m o k r)
    {S : Core (PagedMemory σ) → Outcome → Core (PagedMemory σ) → Prop}
    {Q : Core (PagedMemory σ) → Prop} (quiet : ∀ c, S c .next c) (rest : List HostOp)
    (c : Core (PagedMemory σ)) :
    Along S Q (r.ops m ++ rest) c ↔
      Along S Q (r.headUops.map (HostOp.ofUop m) ++
        ((lower m o r.addr).uopList.map (HostOp.ofUop m ∘ k.rewrite) ++
          ((closingUops (lower m o r.addr) r).map (HostOp.ofUop m) ++ rest))) c := by
  have uops : r.uops.map (fun p => HostOp.ofUop m p.uop) = r.uopList.map (HostOp.ofUop m) := by
    simp [uopList, Function.comp_def]
  unfold ops
  rw [along_placed quiet, uops, h.uops]
  simp only [List.map_append, List.map_map, List.append_assoc]

/-- The host code of an instruction is its body between micro-operations that change nothing. -/
theorem Lowered.along_of_body {r : Record} (h : Lowered m o k r)
    {S : Core (PagedMemory σ) → Outcome → Core (PagedMemory σ) → Prop} (idle : ∀ c out, S c out c)
    (body : ∀ rest, (∀ c, Along S (fun _ => True) rest c) → ∀ c, Along S (fun _ => True)
      (((Instruction.fetch m r.addr).bodyUops o).map (HostOp.ofUop m ∘ k.rewrite) ++ rest) c)
    (post : List Record) (c : Core (PagedMemory σ)) :
    Along S (fun _ => True) (r.ops m ++ onwardOps r post) c := by
  refine (h.along_ops (fun c => idle c .next) _ c).mpr ?_
  have nothing : ∀ c : Core (PagedMemory σ), Along S (fun _ => True) [] c := fun _ => trivial
  have onward : ∀ c : Core (PagedMemory σ), Along S (fun _ => True) (onwardOps r post) c := by
    intro c
    rw [← List.append_nil (onwardOps r post)]
    refine along_append (fun op mem c => ?_) nothing c
    unfold onwardOps at mem
    split at mem
    · rw [List.mem_singleton.mp mem]
      exact idle c _
    · cases mem
  have ending : ∀ c : Core (PagedMemory σ), Along S (fun _ => True)
      ((closingUops (lower m o r.addr) r).map (HostOp.ofUop m) ++ onwardOps r post) c := by
    refine along_append (fun op mem c => ?_) onward
    obtain ⟨u, among, rfl⟩ := List.mem_map.mp mem
    unfold closingUops at among
    split at among
    · cases among
    · rw [List.mem_singleton.mp among]
      exact idle c _
  refine along_append (fun op mem c => ?_) (fun c => ?_) c
  · obtain ⟨u, among, rfl⟩ := List.mem_map.mp mem
    unfold headUops at among
    cases total : r.runTotal with
    | none => rw [total] at among; cases among
    | some total' =>
      rw [total] at among
      rw [List.mem_singleton.mp among]
      exact idle c _
  · rw [uopList_lower, List.map_append, List.append_assoc]
    refine along_append (fun op mem c => ?_) (fun c => ?_) c
    · obtain ⟨u, among, rfl⟩ := List.mem_map.mp mem
      rw [Instruction.observe_of_mem among]
      exact idle c _
    · split
      · refine along_append (fun op mem c => ?_) ending c
        obtain ⟨u, among, rfl⟩ := List.mem_map.mp mem
        rw [List.mem_singleton.mp among]
        exact idle c _
      · exact body _ ending c

theorem safe_body {zeroPage : Bool} (m : PagedMemory σ) (k : Known) (i : Instruction)
    (tracks : zeroPage = true → o.zeroPageCode = true) {rest : List HostOp}
    (after : ∀ c, Safe (σ := σ) zeroPage rest c) (c : Core (PagedMemory σ)) :
    Safe zeroPage ((i.bodyUops o).map (HostOp.ofUop m ∘ k.rewrite) ++ rest) c := by
  have rewritten : ∀ {us : List Uop} {op : HostOp}, (∀ u ∈ us, Quiet u) →
      op ∈ us.map (HostOp.ofUop m ∘ k.rewrite) → WritesIn (σ := σ) PageOne (execOp op) := by
    intro us op quiet mem
    obtain ⟨u, hu, rfl⟩ := List.mem_map.mp mem
    exact writesIn_ofUop m ((quiet u hu).rewrite k)
  have behind : ∀ d : Core (PagedMemory σ), Safe zeroPage
      ((i.afterUops o).map (HostOp.ofUop m ∘ k.rewrite) ++ rest) d := by
    intro d
    refine safe_append (fun op mem => rewritten (fun u hu => ?_) mem) after d
    exact i.quiet_around o (.inr (.inr (.inr (.inr hu))))
  have parts : i.bodyUops o
      = i.modeUops o ++ i.retireUops o ++ (i.beforeUops ++ i.mainUops) ++ i.afterUops o := by
    simp only [Instruction.bodyUops, List.append_assoc]
  rw [parts, List.map_append, List.append_assoc]
  by_cases quiet : Quiet (.raw i.opcode i.operand)
  · refine safe_append (fun op mem => rewritten (fun u hu => ?_) mem) behind c
    simp only [List.mem_append] at hu
    rcases hu with (hu | hu) | hu | hu
    · exact i.quiet_around o (.inr (.inl hu))
    · exact i.quiet_around o (.inr (.inr (.inl hu)))
    · exact i.quiet_around o (.inr (.inr (.inr (.inl hu))))
    · exact i.quiet_main quiet hu
  · have writes : i.operation.memUse.writes = true := by
      cases hw : (operationOf i.opcode).memUse.writes with
      | true => exact hw
      | false => exact absurd (.inl hw) quiet
    have mode : i.operation.mode ∈ storeModes :=
      storeModes_of_writes writes fun acc => quiet (.inr acc)
    exact safe_store m k o i tracks writes mode behind c

theorem Lowered.safe {r : Record} {zeroPage : Bool} (h : Lowered m o k r)
    (tracks : zeroPage = true → o.zeroPageCode = true) (post : List Record)
    (c : Core (PagedMemory σ)) : Safe zeroPage (r.ops m ++ onwardOps r post) c :=
  h.along_of_body (fun _ _ _ _ _ _ => rfl)
    (fun _ after c => safe_body m k (Instruction.fetch m r.addr) tracks after c) post c

end Record

end Mos6502
