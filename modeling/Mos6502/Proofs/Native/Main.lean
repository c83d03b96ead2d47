import Mos6502.Proofs.Native.Operand

/-! The main body of an instruction. However the peephole has rewritten it and however its operand
is stored, it does what the raw opcode does; an old value that is not written back was there. -/
namespace Mos6502

structure Record.Known.Holds (k : Record.Known) (c : Cpu) : Prop where
  a : ∀ v, k.a = some v → c.a = v
  x : ∀ v, k.x = some v → c.x = v
  y : ∀ v, k.y = some v → c.y = v
  carry : ∀ v, k.carry = some v → c.carry = v

namespace Native

open Mos6502.Core

variable {σ : Type}

def modified (op : Operation) (v : UInt8) (c : Cpu) : Cpu :=
  let done := modify op.mnemonic v c
  if op.mnemonic = .slo then takeA (done.2.a ||| done.1) done.2 else done.2

theorem modifyOperand_bare (op : Operation) (operand : UInt16) (checked : Bool) (cpu : Cpu)
    (m : PagedMemory σ) {ea : Addr} (there : operandAddr op.mode operand cpu = ea) :
    modifyOperand op operand checked (bare cpu m)
      = ((), bare (modified op (m.deviceRead ea).1 cpu)
          ((if checked then (m.deviceRead ea).2.deviceWrite ea (m.deviceRead ea).1
            else (m.deviceRead ea).2).deviceWrite ea
              (modify op.mnemonic (m.deviceRead ea).1 cpu).1)) := by
  unfold modifyOperand modified
  rw [bind_run (show getCpu (bare cpu m) = (cpu, bare cpu m) from rfl), there]
  dsimp only
  rw [bind_run (load_bare cpu m ea)]
  generalize m.deviceRead ea = found
  obtain ⟨v, m⟩ := found
  dsimp only
  rw [bind_run (show getCpu (bare cpu m) = (cpu, bare cpu m) from rfl)]
  generalize modify op.mnemonic v cpu = done
  obtain ⟨result, after⟩ := done
  dsimp only
  rw [bind_run (show onCpu (fun _ => after) (bare cpu m) = ((), bare after m) from rfl)]
  cases checked with
  | true =>
    simp only [if_true]
    rw [bind_run (put_bare after m ea v), bind_run (put_bare after _ ea result)]
    split <;> rfl
  | false =>
    simp only [Bool.false_eq_true, if_false]
    rw [bind_run (put_bare after m ea result)]
    split <;> rfl

theorem modes_of_readWrite (opcode : UInt8) (modifies : (operationOf opcode).memUse = .readWrite) :
    (operationOf opcode).mode ∈ [.accumulator, .zeroPage, .zeroPageX, .absolute, .absoluteX] := by
  revert modifies
  apply forall_byte (p := fun opcode => (operationOf opcode).memUse = .readWrite →
    (operationOf opcode).mode ∈ [.accumulator, .zeroPage, .zeroPageX, .absolute, .absoluteX])
  decide +kernel

end Native

namespace Instruction

open Native Mos6502.Core

variable {σ : Type} {i : Instruction} {k : Record.Known} {cpu : Cpu} {mem : PagedMemory σ}
  (m : PagedMemory σ)

def fetchOperand (i : Instruction) (ea : Addr) : StateM (DeviceBus (PagedMemory σ)) UInt8 :=
  if i.operation.mode = .immediate then pure i.low else Bus.fetch ea

/-- The stored operand still is the immediate value, or leads to the address `ea`. -/
structure Points (i : Instruction) (v : UInt16) (cpu : Cpu) (ea : Addr) : Prop where
  value : i.operation.mode = .immediate → v.toUInt8 = i.low
  addr : i.operation.mode ≠ .immediate → operandAddr i.operation.mode v cpu = ea

theorem points_stored (mode : i.operation.mode = .immediate ∨ i.operation.mode ∈ storeModes)
    {ea : Addr} (there : i.operation.mode ∈ storeModes →
      operandAddr i.operation.mode i.operand cpu = ea) :
    i.Points (storedOperand i.opcode i.operand) cpu ea := by
  have width : ∀ opcode, (operationOf opcode).mode = .immediate → operandWidth opcode = 1 := by
    apply forall_byte (p := fun opcode => (operationOf opcode).mode = .immediate →
      operandWidth opcode = 1)
    decide +kernel
  constructor
  · intro immediate
    simp [storedOperand, width i.opcode immediate, operand, immediate, lowByte]
  · intro memory
    have store := mode.resolve_left memory
    rw [operandAddr_stored i store cpu]
    exact there store

variable (mem) in
theorem loadOperand_bare {v : UInt16} {ea : Addr} (points : i.Points v cpu ea) :
    loadOperand i.operation.mode v (bare cpu mem)
      = ((i.fetchOperand ea ⟨mem⟩).1, bare cpu (i.fetchOperand ea ⟨mem⟩).2.memory) := by
  unfold loadOperand fetchOperand
  by_cases immediate : i.operation.mode = .immediate
  · rw [if_pos immediate, if_pos immediate, points.value immediate]
    rfl
  · rw [if_neg immediate, if_neg immediate]
    rw [bind_run (show getCpu (bare cpu mem) = (cpu, bare cpu mem) from rfl),
      points.addr immediate]
    exact load_bare cpu mem ea

def readers : List Mnemonic :=
  [.adc, .sbc, .and, .ora, .eor, .alr, .bit, .cmp, .cpx, .cpy, .lda, .ldx, .ldy]

theorem raw_reader (reads : i.operation.mnemonic ∈ readers) {v : UInt16} {ea : Addr}
    (points : i.Points v cpu ea) (checked : Bool) :
    raw i.opcode v checked (bare cpu mem)
      = (.next, bare (readEffect i.operation.mnemonic (i.fetchOperand ea ⟨mem⟩).1 cpu)
          (i.fetchOperand ea ⟨mem⟩).2.memory) := by
  have loaded := loadOperand_bare mem points
  unfold raw
  change (operationOf i.opcode).mnemonic ∈ readers at reads
  change loadOperand (operationOf i.opcode).mode v (bare cpu mem) = _ at loaded
  change _ = (Outcome.next, bare (readEffect (operationOf i.opcode).mnemonic _ cpu) _)
  dsimp only
  cases hm : (operationOf i.opcode).mnemonic with
  | adc | sbc | and | ora | eor | alr | bit | cmp | cpx | cpy | lda | ldx | ldy =>
    dsimp only
    rw [bind_run loaded]
    rfl
  | _ => simp [readers, hm] at reads

theorem rewrite_other (k : Record.Known) {opcode : UInt8}
    (other : (operationOf opcode).mnemonic ∉ [.adc, .sbc, .sta, .stx, .sty]) (operand : UInt16) :
    k.rewrite (.raw opcode operand) = .raw opcode operand := by
  rcases k.rewrite_raw opcode operand with h | ⟨is, _⟩ | ⟨is, _⟩ | ⟨_, _, known⟩
  · exact h
  · rw [is] at other
    exact absurd other (by decide +kernel)
  · rw [is] at other
    exact absurd other (by decide +kernel)
  · rcases known with ⟨is | is, _⟩ | ⟨is | is, _⟩ | ⟨is | is, _⟩ <;>
    · rw [is] at other
      exact absurd other (by decide +kernel)

/-- The peephole leaves alone what does not read or store an operand. -/
theorem rewrite_of_memUse (k : Record.Known) {opcode : UInt8}
    (uses : (operationOf opcode).memUse = .none ∨ (operationOf opcode).memUse = .readWrite)
    (operand : UInt16) : k.rewrite (.raw opcode operand) = .raw opcode operand := by
  refine rewrite_other k ?_ operand
  intro contra
  unfold Operation.memUse at uses
  simp only [List.mem_cons, List.not_mem_nil, or_false] at contra
  rcases contra with h | h | h | h | h <;>
  · rw [h] at uses
    rcases uses with uses | uses <;> cases uses

theorem ofUop_raw {opcode : UInt8} (operand : UInt16)
    (stores : (operationOf opcode).memUse ≠ .readWrite) :
    HostOp.ofUop m (.raw opcode operand) = .uop (.raw opcode (storedOperand opcode operand)) := by
  unfold HostOp.ofUop HostOp.needsCheck
  simp [stores]

theorem main_reader (reads : i.operation.mnemonic ∈ readers) (holds : k.Holds cpu)
    (adds : i.operation.mnemonic = .adc → cpu.hostCarry = cpu.carry)
    (borrows : i.operation.mnemonic = .sbc → cpu.hostCarry = !cpu.carry) {ea : Addr}
    (mode : i.operation.mode = .immediate ∨ i.operation.mode ∈ storeModes)
    (there : i.operation.mode ∈ storeModes → operandAddr i.operation.mode i.operand cpu = ea) :
    execOp (HostOp.ofUop m (k.rewrite (.raw i.opcode i.operand))) (bare cpu mem)
      = (.next, bare (readEffect i.operation.mnemonic (i.fetchOperand ea ⟨mem⟩).1 cpu)
          (i.fetchOperand ea ⟨mem⟩).2.memory) := by
  rcases k.rewrite_raw i.opcode i.operand with h | ⟨is, known, h⟩ | ⟨is, known, h⟩ | ⟨v, h, stores⟩
  · have plain : i.operation.memUse ≠ .readWrite := by
      unfold Operation.memUse
      intro modifies
      cases hm : i.operation.mnemonic with
      | asl | lsr | rol | ror | inc | dec | slo => simp [readers, hm] at reads
      | _ => rw [hm] at modifies; cases modifies
    rw [h, ofUop_raw m i.operand plain]
    exact raw_reader reads (points_stored mode there) false
  · have op : i.operation = ⟨.adc, .immediate, 2⟩ := by
      unfold operation
      rw [is]
      rfl
    have carry := (adds (by rw [op])).trans (holds.carry false known)
    have value : i.operand.toUInt8 = i.low := by simp [operand, op]
    rw [h, value]
    change (Outcome.next, bare (takeSum (Alu.add cpu.a i.low false) cpu) mem) = _
    unfold fetchOperand
    rw [op, ← carry]
    rfl
  · have op : i.operation = ⟨.sbc, .immediate, 2⟩ := by
      unfold operation
      rw [is]
      rfl
    have carry := (borrows (by rw [op])).trans (congrArg _ (holds.carry true known))
    have value : i.operand.toUInt8 = i.low := by simp [operand, op]
    rw [h, value]
    change (Outcome.next, bare (takeSum (Alu.sub cpu.a i.low false) cpu) mem) = _
    unfold fetchOperand
    rw [op, show false = cpu.hostCarry from carry.symm]
    rfl
  · have loud : ∀ opcode, opcode = 0x84 ∨ opcode = 0x8C ∨ opcode = 0x85 ∨ opcode = 0x8D ∨
        opcode = 0x86 ∨ opcode = 0x8E → (operationOf opcode).mnemonic ∉ readers := by
      rintro _ (rfl | rfl | rfl | rfl | rfl | rfl) <;> decide +kernel
    refine absurd reads (loud i.opcode ?_)
    rcases stores with ⟨h | h, _⟩ | ⟨h | h, _⟩ | ⟨h | h, _⟩ <;> simp [h]

variable (mem) in
theorem main_store (stores : i.operation.memUse = .write) (holds : k.Holds cpu) {ea : Addr}
    (mode : i.operation.mode ∈ storeModes)
    (there : operandAddr i.operation.mode i.operand cpu = ea) :
    execOp (HostOp.ofUop m (k.rewrite (.raw i.opcode i.operand))) (bare cpu mem)
      = (.next, bare cpu
          (mem.deviceWrite ea (Interpreter.storedByte i.operation.mnemonic cpu))) := by
  have constant : ∀ {mnemonic : Mnemonic} {v : UInt8}, i.operation.mnemonic = mnemonic →
      (i.operation.mode = .zeroPage ∨ i.operation.mode = .absolute) →
      v = Interpreter.storedByte mnemonic cpu →
      execOp (.uop (.storeConst i.operand v)) (bare cpu mem)
        = (.next, bare cpu
            (mem.deviceWrite ea (Interpreter.storedByte i.operation.mnemonic cpu))) := by
    intro mnemonic v is direct value
    have same : i.operand = ea := by
      rw [← there]
      rcases direct with direct | direct <;> rw [direct] <;> rfl
    rw [is, ← value, ← same]
    change (put i.operand v >>= _ : Exec (PagedMemory σ) Outcome) _ = _
    rw [bind_run (put_bare cpu mem i.operand v)]
    rfl
  have op : ∀ {opcode : UInt8} (mnemonic : Mnemonic), i.opcode = opcode →
      (operationOf opcode).mnemonic = mnemonic ∧
        ((operationOf opcode).mode = .zeroPage ∨ (operationOf opcode).mode = .absolute) →
      i.operation.mnemonic = mnemonic ∧
        (i.operation.mode = .zeroPage ∨ i.operation.mode = .absolute) := by
    intro opcode mnemonic is facts
    unfold operation
    rw [is]
    exact facts
  rcases k.rewrite_raw i.opcode i.operand with h | ⟨is, _, h⟩ | ⟨is, _, h⟩ | ⟨v, h, known⟩
  · rw [h, ofUop_raw m i.operand (by rw [show (operationOf i.opcode).memUse = _ from stores]; exact MemUse.noConfusion)]
    have points : i.Points (storedOperand i.opcode i.operand) cpu ea :=
      points_stored (.inr mode) fun _ => there
    have memory : i.operation.mode ≠ .immediate := by
      intro immediate
      rw [immediate] at mode
      simp [storeModes] at mode
    change raw i.opcode (storedOperand i.opcode i.operand) false (bare cpu mem) = _
    unfold raw
    unfold Operation.memUse at stores
    have place : operandAddr (operationOf i.opcode).mode (storedOperand i.opcode i.operand) cpu = ea :=
      points.addr memory
    have named : i.operation.mnemonic = (operationOf i.opcode).mnemonic := rfl
    rw [named] at stores ⊢
    dsimp only
    cases hm : (operationOf i.opcode).mnemonic with
    | sta | stx | sty | sax =>
      dsimp only
      rw [bind_run (show getCpu (bare cpu mem) = (cpu, bare cpu mem) from rfl), place,
        bind_run (put_bare cpu mem ea _)]
      rfl
    | _ => rw [hm] at stores; cases stores
  · unfold operation at stores
    rw [is] at stores
    exact absurd stores (by decide +kernel)
  · unfold operation at stores
    rw [is] at stores
    exact absurd stores (by decide +kernel)
  · rw [h]
    rcases known with ⟨is | is, known⟩ | ⟨is | is, known⟩ | ⟨is | is, known⟩
    · obtain ⟨named, direct⟩ := op .sty is (by decide +kernel)
      exact constant named direct (holds.y v known).symm
    · obtain ⟨named, direct⟩ := op .sty is (by decide +kernel)
      exact constant named direct (holds.y v known).symm
    · obtain ⟨named, direct⟩ := op .sta is (by decide +kernel)
      exact constant named direct (holds.a v known).symm
    · obtain ⟨named, direct⟩ := op .sta is (by decide +kernel)
      exact constant named direct (holds.a v known).symm
    · obtain ⟨named, direct⟩ := op .stx is (by decide +kernel)
      exact constant named direct (holds.x v known).symm
    · obtain ⟨named, direct⟩ := op .stx is (by decide +kernel)
      exact constant named direct (holds.x v known).symm

variable (mem) in
theorem raw_modify (modifies : i.operation.memUse = .readWrite)
    (memory : i.operation.mode ≠ .accumulator) {v : UInt16} {ea : Addr}
    (there : operandAddr i.operation.mode v cpu = ea) (checked : Bool) :
    raw i.opcode v checked (bare cpu mem)
      = (.next, bare (modified i.operation (mem.deviceRead ea).1 cpu)
          ((if checked then (mem.deviceRead ea).2.deviceWrite ea (mem.deviceRead ea).1
            else (mem.deviceRead ea).2).deviceWrite ea
              (modify i.operation.mnemonic (mem.deviceRead ea).1 cpu).1)) := by
  have done := modifyOperand_bare i.operation v checked cpu mem there
  unfold raw
  unfold Operation.memUse at modifies
  change modifyOperand (operationOf i.opcode) v checked _ = _ at done
  change (operationOf i.opcode).mode ≠ _ at memory
  change Mnemonic.memUse (operationOf i.opcode).mnemonic = _ at modifies
  dsimp only
  cases hm : (operationOf i.opcode).mnemonic with
  | asl | lsr | rol | ror | slo | inc | dec =>
    dsimp only
    rw [if_neg memory, bind_run done]
    unfold operation
    rw [hm]
    rfl
  | _ => rw [hm] at modifies; cases modifies

theorem mode_of_modifies (modifies : i.operation.memUse = .readWrite)
    (memory : i.operation.mode ≠ .accumulator) : i.operation.mode ∈ storeModes := by
  have writes : (operationOf i.opcode).memUse.writes = true := by
    rw [show (operationOf i.opcode).memUse = _ from modifies]
    rfl
  exact storeModes_of_writes writes memory

theorem operationOf_opcode (i : Instruction) : operationOf i.opcode = i.operation := rfl

/-- An absolute operand that needs no check is RAM wherever it is indexed to. In page zero there is
no check. -/
theorem plain_of_unchecked (modifies : i.operation.memUse = .readWrite)
    (memory : i.operation.mode ≠ .accumulator) (pages : m.pages = mem.pages)
    (first : i.changesPageZero = true → mem.kindAt 0 ≠ .device)
    (zero : i.operation.mode = .zeroPageX → highByte cpu.scratch = 0)
    (unchecked : HostOp.needsCheck m i.opcode i.operand = false) :
    mem.kindAt (operandAddr i.operation.mode i.operand cpu) ≠ .device := by
  have modes : i.operation.mode ∈ [.accumulator, .zeroPage, .zeroPageX, .absolute, .absoluteX] :=
    modes_of_readWrite i.opcode modifies
  have ram : ∀ {a b : Addr}, GuestMemory.isPlainRam m a = true → highByte b = highByte a →
      mem.kindAt b ≠ .device := by
    intro a b plain page device
    rw [PagedMemory.kindAt_of_page page, ← PagedMemory.kindAt_congr pages] at device
    change (m.kindAt a == .ram) = true at plain
    rw [device] at plain
    cases plain
  unfold HostOp.needsCheck at unchecked
  dsimp only at unchecked
  rw [operationOf_opcode, modifies] at unchecked
  simp only [List.mem_cons, List.not_mem_nil, or_false] at modes
  rcases modes with mode | mode | mode | mode | mode
  · exact absurd mode memory
  · have page : i.operand = i.low.toUInt16 := by simp only [operand, mode]
    rw [mode]
    change mem.kindAt i.operand ≠ .device
    rw [page, PagedMemory.kindAt_of_page (b := 0) (highByte_toUInt16 i.low)]
    exact first (by simp [changesPageZero, modifies, mode])
  · rw [mode]
    change mem.kindAt cpu.scratch ≠ .device
    rw [PagedMemory.kindAt_of_page (b := 0) (zero mode)]
    exact first (by simp [changesPageZero, modifies, mode])
  · rw [mode] at unchecked ⊢
    exact ram (a := i.operand) (by simpa using unchecked) rfl
  · rw [mode] at unchecked ⊢
    have both : GuestMemory.isPlainRam m i.operand = true ∧
        GuestMemory.isPlainRam m (i.operand + 0xFF) = true := by simpa using unchecked
    rcases PagedMemory.highByte_indexed i.operand cpu.x with page | page
    · exact ram both.1 page
    · exact ram both.2 page

variable (mem) in
theorem main_change (modifies : i.operation.memUse = .readWrite)
    (memory : i.operation.mode ≠ .accumulator) {ea : Addr}
    (there : operandAddr i.operation.mode i.operand cpu = ea) :
    execOp (HostOp.ofUop m (k.rewrite (.raw i.opcode i.operand))) (bare cpu mem)
      = (.next, bare (modified i.operation (mem.deviceRead ea).1 cpu)
          ((if HostOp.needsCheck m i.opcode i.operand then
              (mem.deviceRead ea).2.deviceWrite ea (mem.deviceRead ea).1
            else (mem.deviceRead ea).2).deviceWrite ea
              (modify i.operation.mnemonic (mem.deviceRead ea).1 cpu).1)) := by
  have store := mode_of_modifies modifies memory
  have stored : operandAddr i.operation.mode (storedOperand i.opcode i.operand) cpu = ea :=
    (operandAddr_stored i store cpu).trans there
  rw [rewrite_of_memUse k (.inr modifies)]
  unfold HostOp.ofUop
  dsimp only
  cases HostOp.needsCheck m i.opcode i.operand with
  | true => exact raw_modify mem modifies memory stored true
  | false => exact raw_modify mem modifies memory stored false

theorem main_modify (modifies : i.operation.memUse = .readWrite)
    (memory : i.operation.mode ≠ .accumulator) (pages : m.pages = mem.pages)
    (first : i.changesPageZero = true → mem.kindAt 0 ≠ .device)
    (zero : i.operation.mode = .zeroPageX → highByte cpu.scratch = 0) {ea : Addr}
    (there : operandAddr i.operation.mode i.operand cpu = ea) :
    execOp (HostOp.ofUop m (k.rewrite (.raw i.opcode i.operand))) (bare cpu mem)
      = (.next, bare (modified i.operation (mem.deviceRead ea).1 cpu)
          (((mem.deviceRead ea).2.deviceWrite ea (mem.deviceRead ea).1).deviceWrite ea
            (modify i.operation.mnemonic (mem.deviceRead ea).1 cpu).1)) := by
  have done := main_change mem m (k := k) modifies memory there
  cases checks : HostOp.needsCheck m i.opcode i.operand with
  | true =>
    rw [checks, if_pos rfl] at done
    exact done
  | false =>
    have plain := plain_of_unchecked m modifies memory pages first zero checks
    rw [there] at plain
    rw [checks, if_neg Bool.false_ne_true, PagedMemory.deviceRead_of_plain plain] at done
    rw [PagedMemory.deviceRead_of_plain plain, PagedMemory.deviceWrite_same plain]
    exact done

end Instruction

end Mos6502
