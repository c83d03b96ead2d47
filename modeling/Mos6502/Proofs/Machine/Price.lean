import Mathlib.Algebra.Ring.Int.Defs
import Mos6502.Proofs.Machine.Fetch
import Mos6502.Proofs.Native.Task

/-! What an engine charges for the instructions of the machine. With exact timings that is what the
interpreter reports, but for decimal sums that stay on their page. -/
namespace Mos6502

namespace Instruction

variable {σ : Type}

def trim (i : Instruction) : Instruction :=
  { i with
    low := if 2 ≤ i.operation.len then i.low else 0
    high := if 3 ≤ i.operation.len then i.high else 0 }

theorem operand_trim (i : Instruction) : i.trim.operand = i.operand := by
  have same : i.trim.operation = i.operation := rfl
  unfold operand
  rw [same]
  cases mode : i.operation.mode <;> simp [trim, Operation.len, mode, AddrMode.len]

theorem performed_trim (i : Instruction) (s : Machine σ) : i.trim.performed s = i.performed s :=
  congrFun (Interpreter.perform_operands i.opcode i.low i.high s.cpu).symm _

theorem mayCrossPage_trim (i : Instruction) : i.trim.mayCrossPage = i.mayCrossPage := by
  unfold mayCrossPage
  rw [i.operand_trim]
  rfl

theorem maxCycles_trim (i : Instruction) (o : LoweringOptions) :
    i.trim.maxCycles o = i.maxCycles o := by
  unfold maxCycles
  rw [i.mayCrossPage_trim, i.operand_trim]
  rfl

theorem needsInterpreter_trim (i : Instruction) (m : PagedMemory σ) :
    i.trim.needsInterpreter m = i.needsInterpreter m := by
  unfold needsInterpreter rangeNeedsInterpreter rangeEnd
  rw [i.operand_trim]
  rfl

theorem price_trim (i : Instruction) (o : LoweringOptions) (s : Machine σ) :
    i.trim.price o s = i.price o s := by
  unfold price early bounced
  rw [i.performed_trim, i.maxCycles_trim, i.needsInterpreter_trim]
  rfl

theorem completes_of_sums {i : Instruction} (sums : i.sums = true) (s : Machine σ) :
    (i.performed s).1.1.exit = none := by
  have named : (operationOf i.opcode).mnemonic = .adc ∨ (operationOf i.opcode).mnemonic = .sbc :=
    i.sums_iff.mp sums
  unfold performed Interpreter.perform
  rcases named with named | named <;>
  · rw [named]
    rfl

theorem early_binary {i : Instruction} {s : Machine σ} (binary : (i.sums && s.cpu.decimal) = false)
    (o : LoweringOptions) : i.early o s = 0 := by
  unfold early
  rw [binary, Bool.and_false, Bool.false_and]
  rfl

end Instruction

namespace Machine

variable {σ : Type}

def instruction (s : Machine σ) : Instruction :=
  .fetch s.memory s.cpu.pc

/-- What an engine charges for the instruction at the program counter. -/
def price (timed : Bool) (s : Machine σ) : Int :=
  s.instruction.price { exactTimings := timed } s

/-- What an engine charges for the first steps: the price of every instruction executed, and the
cycles of every interrupt taken. -/
def spent (timed : Bool) (s : Machine σ) (n : Nat) : Int :=
  ((s.visits n).map (·.price timed)).sum + Interpreter.interruptCycles * s.interrupts n

theorem spent_add (timed : Bool) (s : Machine σ) (m n : Nat) :
    s.spent timed (m + n) = s.spent timed m + (s.after m).spent timed n := by
  unfold spent
  rw [visits_add, interrupts_add, List.map_append, List.sum_append, Int.natCast_add, Int.mul_add]
  omega

theorem Passes.spent_eq {s s' : Machine σ} {n : Nat} (h : s.Passes n s') (timed : Bool) :
    s.spent timed n = s.price timed + Interpreter.interruptCycles * s.interrupts n := by
  unfold spent
  rw [h.visits]
  simp

/-- The price of a binary instruction is what the interpreter reports, with exact timings. -/
theorem price_exact {s : Machine σ} {zeroPage : Bool} (cacheable : s.Cacheable zeroPage)
    (binary : ¬ s.SumsDecimals) : s.price true = s.report.cycles := by
  have free : (s.instruction.sums && s.cpu.decimal) = false := by
    cases sums : s.instruction.sums with
    | false => rfl
    | true =>
      cases decimal : s.cpu.decimal with
      | false => rfl
      | true => exact absurd ⟨s.instruction.sums_iff.mp sums, decimal⟩ binary
  unfold price Instruction.price
  rw [Instruction.early_binary free]
  unfold report
  rw [cacheable.plain.step_eq]
  exact Int.sub_zero _

theorem spent_exact {s : Machine σ} {n : Nat} {zeroPage : Bool}
    (cacheable : ∀ m ∈ s.visits n, m.Cacheable zeroPage) (binary : ∀ m ∈ s.visits n, ¬ m.SumsDecimals) :
    s.spent true n = s.cycles n := by
  have prices : ((s.visits n).map (·.price true)).sum
      = (((s.visits n).map (·.report.cycles)).sum : Nat) := by
    generalize s.visits n = visits at cacheable binary
    induction visits with
    | nil => rfl
    | cons m rest ih =>
      have rest := ih (fun m mem => cacheable m (.tail _ mem)) fun m mem => binary m (.tail _ mem)
      have here := price_exact (cacheable m (.head _)) (binary m (.head _))
      rw [List.map_cons, List.sum_cons, List.map_cons, List.sum_cons, Int.natCast_add, here, rest]
  unfold spent cycles
  rw [prices, Int.natCast_add, Int.natCast_mul]

theorem cycles_of_exit {s : Machine σ} {zeroPage : Bool} (cacheable : s.Cacheable zeroPage)
    {why : Stop} (exit : s.report.exit = some why) : s.report.cycles = 0 := by
  unfold report at exit ⊢
  rw [cacheable.plain.step_eq] at exit ⊢
  exact (perform_exit exit).2.2

end Machine

end Mos6502
