import Mos6502.Interpreter

/-! The part of the processor that a program sees. The interpreter neither reads nor changes the
rest of it, nor does it read operand bytes that the instruction does not have. -/
namespace Mos6502

/-- The processor as the program sees it: what only compiled code and the budget use is blanked. -/
def Cpu.guest (c : Cpu) : Cpu :=
  { c with scratch := 0, hostCarry := false, hostOverflow := false, budget := 0 }

def seen {α B : Type} (p : (α × Cpu) × B) : (α × Cpu) × B :=
  ((p.1.1, p.1.2.guest), p.2)

theorem bind_run {α β B : Type} {x : StateM B α} {f : α → StateM B β} {b b' : B} {v : α}
    (h : x b = (v, b')) : (x >>= f) b = f v b' := by
  change (let p := x b; f p.1 p.2) = f v b'
  rw [h]

namespace Interpreter

variable {B : Type} [Bus B]

theorem resolve_guest (mode : AddrMode) (cpu : Cpu) (low high : UInt8) (next : Addr) :
    (resolve mode cpu.guest low high next : StateM B Resolved) = resolve mode cpu low high next := by
  cases mode <;> rfl

theorem readEffect_guest (mnemonic : Mnemonic) (cpu : Cpu) (m : UInt8) :
    readEffect mnemonic cpu.guest m = (readEffect mnemonic cpu m).guest := by
  cases mnemonic with
  | adc =>
    change addTo cpu.guest m = (addTo cpu m).guest
    unfold addTo
    change (if cpu.decimal then _ else _) = _
    split <;> rfl
  | sbc => rfl
  | _ => rfl

theorem modify_guest (mnemonic : Mnemonic) (cpu : Cpu) (v : UInt8) :
    modify mnemonic cpu.guest v
      = ((modify mnemonic cpu v).1, (modify mnemonic cpu v).2.guest) := by
  cases mnemonic <;> rfl

theorem branchTaken_guest (mnemonic : Mnemonic) (cpu : Cpu) :
    branchTaken mnemonic cpu.guest = branchTaken mnemonic cpu := by
  cases mnemonic <;> rfl

theorem perform_guest (opcode low high : UInt8) (cpu : Cpu) (bus : B) :
    perform opcode low high cpu.guest bus = seen (perform opcode low high cpu bus) := by
  unfold perform
  rw [resolve_guest]
  change (resolve (operationOf opcode).mode cpu low high
    (cpu.pc + (operationOf opcode).len.toUInt16) >>= _ : StateM B (Step × Cpu)) bus = _
  obtain ⟨⟨r, bus'⟩, hr⟩ : ∃ p, (resolve (operationOf opcode).mode cpu low high
    (cpu.pc + (operationOf opcode).len.toUInt16) : StateM B Resolved) bus = p := ⟨_, rfl⟩
  rw [bind_run hr, bind_run hr]
  dsimp only
  cases (operationOf opcode).mnemonic with
  | adc | sbc | and | ora | eor | alr | bit | cmp | cpx | cpy | lda | ldx | ldy =>
    simp only [readEffect_guest]
    rfl
  | nop =>
    dsimp only
    split <;> rfl
  | asl | lsr | rol | ror | slo | inc | dec =>
    simp only [modify_guest]
    split <;> rfl
  | bcc | bcs | bne | beq | bpl | bmi | bvc | bvs =>
    simp only [branchTaken_guest]
    split <;> rfl
  | _ => rfl

theorem step_guest (cpu : Cpu) (bus : B) : step cpu.guest bus = seen (step cpu bus) := by
  unfold step
  change (Bus.fetch cpu.pc >>= _ : StateM B (Step × Cpu)) bus
    = seen ((Bus.fetch cpu.pc >>= _ : StateM B (Step × Cpu)) bus)
  obtain ⟨⟨opcode, bus₁⟩, h₁⟩ : ∃ p, Bus.read bus cpu.pc = p := ⟨_, rfl⟩
  rw [bind_run h₁, bind_run h₁]
  dsimp only
  split <;> split <;> exact perform_guest _ _ _ cpu _

theorem perform_budget (opcode low high : UInt8) (cpu : Cpu) (bus : B) :
    (perform opcode low high cpu bus).1.2.budget = cpu.budget := by
  have adds : ∀ m, (addTo cpu m).budget = cpu.budget := by
    intro m
    unfold addTo
    split <;> rfl
  unfold perform
  obtain ⟨⟨r, bus'⟩, hr⟩ : ∃ p, (resolve (operationOf opcode).mode cpu low high
    (cpu.pc + (operationOf opcode).len.toUInt16) : StateM B Resolved) bus = p := ⟨_, rfl⟩
  rw [bind_run hr]
  dsimp only
  cases (operationOf opcode).mnemonic with
  | adc => exact adds _
  | nop | asl | lsr | rol | ror | slo | inc | dec | bcc | bcs | bne | beq | bpl | bmi | bvc | bvs =>
    dsimp only
    split <;> rfl
  | _ => rfl

theorem perform_irq (opcode low high : UInt8) (cpu : Cpu) (bus : B) :
    (perform opcode low high cpu bus).1.2.irq = cpu.irq := by
  have adds : ∀ m, (addTo cpu m).irq = cpu.irq := by
    intro m
    unfold addTo
    split <;> rfl
  unfold perform
  obtain ⟨⟨r, bus'⟩, hr⟩ : ∃ p, (resolve (operationOf opcode).mode cpu low high
    (cpu.pc + (operationOf opcode).len.toUInt16) : StateM B Resolved) bus = p := ⟨_, rfl⟩
  rw [bind_run hr]
  dsimp only
  cases (operationOf opcode).mnemonic with
  | adc => exact adds _
  | nop | asl | lsr | rol | ror | slo | inc | dec | bcc | bcs | bne | beq | bpl | bmi | bvc | bvs =>
    dsimp only
    split <;> rfl
  | _ => rfl

theorem perform_cycles {opcode low high : UInt8} {cpu : Cpu} {bus : B}
    (completes : (perform opcode low high cpu bus).1.1.exit = none) :
    (operationOf opcode).cycles.toNat ≤ (perform opcode low high cpu bus).1.1.cycles := by
  unfold perform at completes ⊢
  obtain ⟨⟨r, bus'⟩, hr⟩ : ∃ p, (resolve (operationOf opcode).mode cpu low high
    (cpu.pc + (operationOf opcode).len.toUInt16) : StateM B Resolved) bus = p := ⟨_, rfl⟩
  rw [bind_run hr] at completes ⊢
  dsimp only at completes ⊢
  have least := Nat.le_add_right (operationOf opcode).cycles.toNat (indexPenalty (operationOf opcode) r)
  cases named : (operationOf opcode).mnemonic with
  | exit | debugBreak | crash | unknown =>
    rw [named] at completes
    cases completes
  | bcc | bcs | bne | beq | bpl | bmi | bvc | bvs =>
    dsimp only
    split
    · exact Nat.le_trans least (Nat.le_add_right _ _)
    · exact least
  | nop | asl | lsr | rol | ror | slo | inc | dec =>
    dsimp only
    split <;> exact least
  | _ => exact least

/-- Beyond the cycles of the table there are the page of an index and a branch that is taken. -/
theorem perform_cycles_le {opcode low high : UInt8} {cpu : Cpu} {bus bus' : B} {r : Resolved}
    (found : (resolve (operationOf opcode).mode cpu low high
      (cpu.pc + (operationOf opcode).len.toUInt16) : StateM B Resolved) bus = (r, bus')) :
    (perform opcode low high cpu bus).1.1.cycles
      ≤ (operationOf opcode).cycles.toNat + indexPenalty (operationOf opcode) r
        + if (operationOf opcode).branch = .conditional then
            branchPenalty (cpu.pc + (operationOf opcode).len.toUInt16) r.effective
          else 0 := by
  unfold perform Operation.branch
  rw [bind_run found]
  dsimp only
  have within := Nat.le_add_right
    ((operationOf opcode).cycles.toNat + indexPenalty (operationOf opcode) r)
  cases (operationOf opcode).mnemonic with
  | exit | debugBreak | crash | unknown => exact Nat.zero_le _
  | bcc | bcs | bne | beq | bpl | bmi | bvc | bvs =>
    dsimp only
    split
    · exact Nat.le_refl _
    · exact within _
  | nop | asl | lsr | rol | ror | slo | inc | dec =>
    dsimp only
    split <;> exact within _
  | _ => exact within _

/-- A step reads an instruction, and performs it on the processor as it is. -/
theorem step_performs (cpu : Cpu) (bus : B) :
    ∃ opcode low high bus', step cpu bus = perform opcode low high cpu bus' := by
  unfold step
  obtain ⟨⟨opcode, bus₁⟩, h₁⟩ : ∃ p, Bus.read bus cpu.pc = p := ⟨_, rfl⟩
  rw [bind_run h₁]
  dsimp only
  split <;> split <;> exact ⟨_, _, _, _, rfl⟩

theorem step_budget (cpu : Cpu) (bus : B) : (step cpu bus).1.2.budget = cpu.budget := by
  obtain ⟨opcode, low, high, bus', is⟩ := step_performs cpu bus
  rw [is]
  exact perform_budget opcode low high cpu bus'

theorem step_irq (cpu : Cpu) (bus : B) : (step cpu bus).1.2.irq = cpu.irq := by
  obtain ⟨opcode, low, high, bus', is⟩ := step_performs cpu bus
  rw [is]
  exact perform_irq opcode low high cpu bus'

theorem two_le_step_cycles {cpu : Cpu} {bus : B} (completes : (step cpu bus).1.1.exit = none) :
    2 ≤ (step cpu bus).1.1.cycles := by
  obtain ⟨opcode, low, high, bus', is⟩ := step_performs cpu bus
  rw [is] at completes ⊢
  have least : 2 ≤ (operationOf opcode).cycles.toNat := by
    apply forall_opcode (p := fun opcode => 2 ≤ (operationOf opcode).cycles.toNat)
    decide +kernel
  exact Nat.le_trans least (perform_cycles completes)

theorem interrupt_guest (cpu : Cpu) (bus : B) :
    interrupt cpu.guest bus = seen (interrupt cpu bus) := rfl

theorem interrupt_cycles (cpu : Cpu) (bus : B) : (interrupt cpu bus).1.1 = interruptCycles := rfl

theorem interrupt_budget (cpu : Cpu) (bus : B) :
    (interrupt cpu bus).1.2.budget = cpu.budget := rfl

theorem pull_of_read {cpu : Cpu} {bus : B} {s : UInt8} {v : UInt8} (next : cpu.s + 1 = s)
    (read : Bus.read bus (stackAddr s) = (v, bus)) :
    pull cpu bus = ((v, { cpu with s }), bus) := by
  subst next
  change (((Bus.read bus (stackAddr (cpu.s + 1))).1, { cpu with s := cpu.s + 1 }),
    (Bus.read bus (stackAddr (cpu.s + 1))).2) = _
  rw [read]

theorem pullWord_of_reads {cpu : Cpu} {bus : B} {s t : UInt8} {lo hi : UInt8}
    (next : cpu.s + 1 = s) (low : Bus.read bus (stackAddr s) = (lo, bus))
    (next' : s + 1 = t) (high : Bus.read bus (stackAddr t) = (hi, bus)) :
    pullWord cpu bus = ((word lo hi, { cpu with s := t }), bus) := by
  have second : pull { cpu with s } bus = ((hi, { cpu with s := t }), bus) :=
    pull_of_read next' high
  unfold pullWord
  rw [bind_run (pull_of_read next low)]
  dsimp only
  rw [bind_run second]
  rfl

theorem resolve_operands (mode : AddrMode) (cpu : Cpu) (low high : UInt8) (next : Addr) :
    (resolve mode cpu low high next : StateM B Resolved)
      = resolve mode cpu (if 2 ≤ mode.len then low else 0) (if 3 ≤ mode.len then high else 0)
          next := by
  cases mode <;> rfl

theorem perform_operands (opcode low high : UInt8) (cpu : Cpu) :
    (perform opcode low high cpu : StateM B (Step × Cpu))
      = perform opcode (if 2 ≤ (operationOf opcode).len then low else 0)
          (if 3 ≤ (operationOf opcode).len then high else 0) cpu := by
  unfold perform Operation.len
  dsimp only
  rw [resolve_operands]
  by_cases mode : (operationOf opcode).mode = .immediate
  · simp only [mode, AddrMode.len]
    simp
  · simp only [if_neg mode]

end Interpreter

end Mos6502
