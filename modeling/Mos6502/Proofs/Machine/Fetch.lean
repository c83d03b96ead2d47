import Mos6502.Proofs.Block.Compiled
import Mos6502.Proofs.Machine.Steps
import Mos6502.Proofs.Native.Safe

/-! Instructions in ordinary memory: no byte of them is in a device page, and a store to any of them
retires the code compiled from it. -/
namespace Mos6502

instance (zeroPage : Bool) (x : Addr) : Decidable (Tracked zeroPage x) :=
  inferInstanceAs (Decidable (_ ∧ _))

namespace Interpreter

/-- Where the bytes of the instruction are read from memory as it stands, a step performs them. -/
theorem step_of_reads {B : Type} [Bus B] {cpu : Cpu} {bus : B} (v : Addr → UInt8)
    (reads : ∀ j < (operationOf (v cpu.pc)).len.toNat,
      Bus.read bus (cpu.pc + UInt16.ofNat j) = (v (cpu.pc + UInt16.ofNat j), bus)) :
    step cpu bus = perform (v cpu.pc) (v (cpu.pc + 1)) (v (cpu.pc + 2)) cpu bus := by
  have first := reads 0 (operationOf (v cpu.pc)).len_bounds.1
  rw [show cpu.pc + UInt16.ofNat 0 = cpu.pc from UInt16.add_zero _] at first
  have first : (Bus.fetch cpu.pc : StateM B UInt8) bus = (v cpu.pc, bus) := first
  rw [perform_operands]
  unfold step
  rw [bind_run first]
  dsimp only
  change (if 2 ≤ (operationOf (v cpu.pc)).len then _ else _ : StateM B (Step × Cpu)) _ = _
  by_cases two : 2 ≤ (operationOf (v cpu.pc)).len
  · have second : (Bus.fetch (cpu.pc + 1) : StateM B UInt8) bus = (v (cpu.pc + 1), bus) :=
      reads 1 (UInt8.le_iff_toNat_le.mp two)
    rw [if_pos two, if_pos two, bind_run second]
    change (if 3 ≤ (operationOf (v cpu.pc)).len then _ else _ : StateM B (Step × Cpu)) _ = _
    by_cases three : 3 ≤ (operationOf (v cpu.pc)).len
    · have third : (Bus.fetch (cpu.pc + 2) : StateM B UInt8) bus = (v (cpu.pc + 2), bus) :=
        reads 2 (UInt8.le_iff_toNat_le.mp three)
      rw [if_pos three, if_pos three, bind_run third]
    · rw [if_neg three, if_neg three]
      rfl
  · have short : ¬ 3 ≤ (operationOf (v cpu.pc)).len := fun three =>
      two (UInt8.le_trans (by decide) three)
    rw [if_neg two, if_neg two, if_neg short]
    change (if 3 ≤ (operationOf (v cpu.pc)).len then _ else _ : StateM B (Step × Cpu)) _ = _
    rw [if_neg short]
    rfl

end Interpreter

namespace Machine

variable {σ : Type}

def opcode (s : Machine σ) : UInt8 :=
  s.memory.ram.get s.cpu.pc

/-- No byte of the instruction at the program counter is in a device page. -/
def Plain (s : Machine σ) : Prop :=
  ∀ j < (operationOf s.opcode).len.toNat,
    s.memory.kindAt (s.cpu.pc + UInt16.ofNat j) ≠ .device

instance (s : Machine σ) : Decidable s.Plain :=
  inferInstanceAs (Decidable (∀ j < _, _))

/-- Compiled code may stand for the instruction at the program counter. -/
def Cacheable (zeroPage : Bool) (s : Machine σ) : Prop :=
  ∀ j < (operationOf s.opcode).len.toNat,
    s.memory.kindAt (s.cpu.pc + UInt16.ofNat j) ≠ .device ∧
      Tracked zeroPage (s.cpu.pc + UInt16.ofNat j)

instance (zeroPage : Bool) (s : Machine σ) : Decidable (s.Cacheable zeroPage) :=
  inferInstanceAs (Decidable (∀ j < _, _))

def SumsDecimals (s : Machine σ) : Prop :=
  ((operationOf s.opcode).mnemonic = .adc ∨ (operationOf s.opcode).mnemonic = .sbc) ∧
    s.cpu.decimal = true

instance (s : Machine σ) : Decidable s.SumsDecimals :=
  inferInstanceAs (Decidable ((_ ∨ _) ∧ _))

variable {s : Machine σ} {zeroPage : Bool}

theorem Cacheable.plain (h : s.Cacheable zeroPage) : s.Plain :=
  fun j inside => (h j inside).1

theorem Cacheable.first (h : s.Cacheable zeroPage) :
    s.memory.kindAt s.cpu.pc ≠ .device ∧ Tracked zeroPage s.cpu.pc := by
  have first := h 0 (operationOf s.opcode).len_bounds.1
  rwa [show s.cpu.pc + UInt16.ofNat 0 = s.cpu.pc from UInt16.add_zero _] at first

theorem Plain.step_eq (h : s.Plain) :
    Interpreter.step s.cpu (⟨s.memory⟩ : DeviceBus (PagedMemory σ))
      = Interpreter.perform s.opcode (s.memory.ram.get (s.cpu.pc + 1))
          (s.memory.ram.get (s.cpu.pc + 2)) s.cpu ⟨s.memory⟩ := by
  refine Interpreter.step_of_reads s.memory.ram.get fun j inside => ?_
  change ((s.memory.deviceRead _).1, DeviceBus.mk (s.memory.deviceRead _).2) = _
  rw [PagedMemory.deviceRead_of_plain (h j inside)]

theorem perform_congr {B : Type} [Bus B] {opcode low high low' high' : UInt8} (cpu : Cpu)
    (second : 2 ≤ (operationOf opcode).len → low = low')
    (third : 3 ≤ (operationOf opcode).len → high = high') :
    (Interpreter.perform opcode low high cpu : StateM B (Step × Cpu))
      = Interpreter.perform opcode low' high' cpu := by
  rw [Interpreter.perform_operands opcode low, Interpreter.perform_operands opcode low']
  congr 1
  · split
    · next two => exact second two
    · rfl
  · split
    · next three => exact third three
    · rfl

theorem perform_exit {B : Type} [Bus B] {opcode low high : UInt8} {cpu : Cpu} {bus : B} {why : Stop}
    (exit : (Interpreter.perform opcode low high cpu bus).1.1.exit = some why) :
    (Interpreter.perform opcode low high cpu bus).1.2 = cpu ∧
      (Interpreter.perform opcode low high cpu bus).2 = bus ∧
      (Interpreter.perform opcode low high cpu bus).1.1.cycles = 0 := by
  have bare : ∀ opcode, (operationOf opcode).mnemonic ∈ [.exit, .debugBreak, .crash, .unknown] →
      (operationOf opcode).mode = .implied := by
    apply forall_opcode (p := fun opcode =>
      (operationOf opcode).mnemonic ∈ [.exit, .debugBreak, .crash, .unknown] →
        (operationOf opcode).mode = .implied)
    decide +kernel
  have bare := bare opcode
  revert exit
  unfold Interpreter.perform
  obtain ⟨⟨r, bus'⟩, hr⟩ : ∃ p, (Interpreter.resolve (operationOf opcode).mode cpu low high
    (cpu.pc + (operationOf opcode).len.toUInt16) : StateM B Interpreter.Resolved) bus = p := ⟨_, rfl⟩
  rw [bind_run hr]
  dsimp only
  cases hm : (operationOf opcode).mnemonic with
  | exit | debugBreak | crash | unknown =>
    have implied := bare (by rw [hm]; decide)
    rw [implied] at hr
    cases hr
    exact fun _ => ⟨rfl, rfl, rfl⟩
  | nop | asl | lsr | rol | ror | slo | inc | dec | bcc | bcs | bne | beq | bpl | bmi | bvc | bvs =>
    dsimp only
    split <;> exact fun exit => nomatch exit
  | _ => exact fun exit => nomatch exit

theorem step_exit {B : Type} [Bus B] {cpu : Cpu} {bus : B} {why : Stop}
    (exit : (Interpreter.step cpu bus).1.1.exit = some why) : (Interpreter.step cpu bus).1.2 = cpu := by
  obtain ⟨opcode, low, high, bus', is⟩ := Interpreter.step_performs cpu bus
  rw [is] at exit ⊢
  exact (perform_exit exit).1

end Machine

end Mos6502
