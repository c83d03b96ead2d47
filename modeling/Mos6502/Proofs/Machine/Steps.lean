import Mathlib.Algebra.GroupWithZero.Nat
import Mos6502.Proofs.Bus.Program
import Mos6502.Proofs.Machine.Guest
import Mos6502.Proofs.Memory.Paged

/-! The reference machine: the interpreter alone, on memory that is reached by device accesses
only. It takes a pending interrupt, or else executes the instruction at the program counter. -/
namespace Mos6502

structure Machine (σ : Type) where
  cpu : Cpu
  memory : PagedMemory σ

namespace Machine

variable {σ : Type}

def step (s : Machine σ) : Step × Machine σ :=
  if s.cpu.interruptDue then
    let done := Interpreter.interrupt s.cpu (⟨s.memory⟩ : DeviceBus (PagedMemory σ))
    (⟨done.1.1, none⟩, ⟨done.1.2, done.2.memory⟩)
  else
    let done := Interpreter.step s.cpu (⟨s.memory⟩ : DeviceBus (PagedMemory σ))
    (done.1.1, ⟨done.1.2, done.2.memory⟩)

def after (s : Machine σ) : Nat → Machine σ
  | 0 => s
  | n + 1 => (s.after n).step.2

def report (s : Machine σ) : Step :=
  (Interpreter.step s.cpu (⟨s.memory⟩ : DeviceBus (PagedMemory σ))).1.1

/-- The states in which the first steps execute an instruction. -/
def visits (s : Machine σ) : Nat → List (Machine σ)
  | 0 => []
  | n + 1 => s.visits n ++ if (s.after n).cpu.interruptDue then [] else [s.after n]

def interrupts (s : Machine σ) : Nat → Nat
  | 0 => 0
  | n + 1 => s.interrupts n + if (s.after n).cpu.interruptDue then 1 else 0

/-- The cycles of the first steps: those that the interpreter reports of the instructions executed,
and those of every interrupt taken. -/
def cycles (s : Machine σ) (n : Nat) : Nat :=
  ((s.visits n).map (·.report.cycles)).sum + Interpreter.interruptCycles * s.interrupts n

theorem after_add (s : Machine σ) (m n : Nat) : s.after (m + n) = (s.after m).after n := by
  induction n with
  | zero => rfl
  | succ n ih => exact congrArg (·.step.2) ih

theorem visits_add (s : Machine σ) (m n : Nat) :
    s.visits (m + n) = s.visits m ++ (s.after m).visits n := by
  induction n with
  | zero => exact (List.append_nil _).symm
  | succ n ih =>
    rw [← Nat.add_assoc, visits, visits, ih, after_add, List.append_assoc]

theorem interrupts_add (s : Machine σ) (m n : Nat) :
    s.interrupts (m + n) = s.interrupts m + (s.after m).interrupts n := by
  induction n with
  | zero => rfl
  | succ n ih => rw [← Nat.add_assoc, interrupts, interrupts, ih, after_add, Nat.add_assoc]

theorem step_due {s : Machine σ} (due : s.cpu.interruptDue = true) :
    s.step = let done := Interpreter.interrupt s.cpu (⟨s.memory⟩ : DeviceBus (PagedMemory σ))
      (⟨done.1.1, none⟩, ⟨done.1.2, done.2.memory⟩) :=
  if_pos due

theorem step_quiet {s : Machine σ} (quiet : s.cpu.interruptDue = false) :
    s.step = let done := Interpreter.step s.cpu (⟨s.memory⟩ : DeviceBus (PagedMemory σ))
      (done.1.1, ⟨done.1.2, done.2.memory⟩) :=
  if_neg (by rw [quiet]; exact Bool.false_ne_true)

theorem interrupts_low {s : Machine σ} (low : s.cpu.irq = false) (n : Nat) :
    (s.after n).cpu.irq = false ∧ s.interrupts n = 0 := by
  induction n with
  | zero => exact ⟨low, rfl⟩
  | succ n ih =>
    obtain ⟨still, none⟩ := ih
    have quiet : (s.after n).cpu.interruptDue = false := by
      unfold Cpu.interruptDue
      rw [still, Bool.false_and]
    refine ⟨?_, ?_⟩
    · rw [after, step_quiet quiet]
      exact (Interpreter.step_irq _ _).trans still
    · rw [interrupts, none, quiet]
      rfl

/-- In its next steps the machine executes one instruction that does not stop it, takes the interrupt
behind it if one is due, and becomes `s'`. -/
structure Passes (s : Machine σ) (n : Nat) (s' : Machine σ) : Prop where
  after : s.after n = s'
  visits : s.visits n = [s]
  completes : s.report.exit = none

theorem passes_one {s : Machine σ} (quiet : s.cpu.interruptDue = false)
    (completes : s.report.exit = none) : s.Passes 1 s.step.2 ∧ s.interrupts 1 = 0 := by
  refine ⟨⟨rfl, ?_, completes⟩, ?_⟩
  · change [] ++ (if s.cpu.interruptDue then [] else [s]) = _
    rw [quiet]
    rfl
  · change 0 + (if s.cpu.interruptDue then 1 else 0) = 0
    rw [quiet]
    rfl

theorem interrupt_one {s : Machine σ} (due : s.cpu.interruptDue = true) :
    s.visits 1 = [] ∧ s.interrupts 1 = 1 := by
  refine ⟨?_, ?_⟩
  · change [] ++ (if s.cpu.interruptDue then [] else [s]) = _
    rw [due]
    rfl
  · change 0 + (if s.cpu.interruptDue then 1 else 0) = 1
    rw [due]
    rfl

theorem passes_two {s : Machine σ} (quiet : s.cpu.interruptDue = false)
    (completes : s.report.exit = none) (due : s.step.2.cpu.interruptDue = true) :
    s.Passes 2 s.step.2.step.2 ∧ s.interrupts 2 = 1 := by
  obtain ⟨one, none⟩ := passes_one quiet completes
  obtain ⟨skipped, once⟩ := interrupt_one due
  refine ⟨⟨rfl, ?_, completes⟩, ?_⟩
  · rw [s.visits_add 1 1, one.visits, one.after, skipped, List.append_nil]
  · rw [s.interrupts_add 1 1, none, one.after, once]

theorem mem_visits {s : Machine σ} {k n : Nat} (before : k < n)
    (quiet : (s.after k).cpu.interruptDue = false) : s.after k ∈ s.visits n := by
  induction n with
  | zero => cases before
  | succ n ih =>
    rw [visits, List.mem_append]
    rcases Nat.lt_succ_iff_lt_or_eq.mp before with earlier | rfl
    · exact .inl (ih earlier)
    · rw [quiet]
      exact .inr (List.mem_singleton_self _)

theorem quiet_interrupt {B : Type} [Bus B] (cpu : Cpu) (bus : B) :
    (Interpreter.interrupt cpu bus).1.2.interruptDue = false := by
  have masked : anyBit (cpu.other ||| flagI) flagI = true := by
    apply forall_opcode (p := fun other => anyBit (other ||| flagI) flagI = true)
    decide +kernel
  change (cpu.irq && !anyBit (cpu.other ||| flagI) flagI) = false
  rw [masked, Bool.not_true, Bool.and_false]

end Machine

namespace CodeBus

variable {σ : Type}

/-- What only reads and writes does the same on the bus of an engine as on its memory alone. -/
theorem run_onDevice {α : Type} (p : BusProgram α) {b : CodeBus (PagedMemory σ)} (fits : b.Fits) :
    p.run (⟨b.memory⟩ : DeviceBus (PagedMemory σ)) = ((p.run b).1, ⟨(p.run b).2.memory⟩) := by
  refine p.run_map (I := Fits) (φ := fun b => (⟨b.memory⟩ : DeviceBus (PagedMemory σ)))
    ?_ ?_ fits
  · intro b a fits
    change (b.load a).2.Fits ∧ _ = ((b.load a).1, DeviceBus.mk (b.load a).2.memory)
    rw [load_eq fits]
    exact ⟨fits.of_pages rfl (b.memory.pages_deviceRead a), rfl⟩
  · intro b a v fits
    have fits : (b.retire a).Fits := fits
    change ((b.retire a).put a v).Fits ∧ _ = DeviceBus.mk ((b.retire a).put a v).memory
    rw [put_eq fits]
    exact ⟨fits.of_pages rfl (b.memory.pages_deviceWrite a v), rfl⟩

theorem uniform_onDevice {α : Type} {x : (B : Type) → [Bus B] → StateM B α} (h : Uniform x)
    {b : CodeBus (PagedMemory σ)} (fits : b.Fits) :
    x (DeviceBus (PagedMemory σ)) ⟨b.memory⟩ = ((x (CodeBus (PagedMemory σ)) b).1,
      ⟨(x (CodeBus (PagedMemory σ)) b).2.memory⟩) := by
  obtain ⟨p, same⟩ := h
  rw [same, same]
  exact run_onDevice p fits

end CodeBus

end Mos6502
