import Mos6502.Proofs.Native.Record

/-! What the peephole knows is so. An instruction keeps every value that is not forgotten with it,
and sets those that are learnt. -/
namespace Mos6502

/-- Registers and carry agree, but for the register `r` and, if it is touched, the carry. -/
structure Register.Spares (r : Register) (touched : Bool) (c d : Cpu) : Prop where
  a : r ≠ .a → d.a = c.a
  x : r ≠ .x → d.x = c.x
  y : r ≠ .y → d.y = c.y
  carry : touched = false → d.carry = c.carry

namespace Register.Spares

variable {r r' : Register} {touched touched' : Bool} {c d : Cpu}

theorem refl (c : Cpu) : r.Spares touched c c :=
  ⟨fun _ => rfl, fun _ => rfl, fun _ => rfl, fun _ => rfl⟩

theorem trans {c₁ c₂ c₃ : Cpu} (h : r.Spares touched c₁ c₂) (h' : r.Spares touched c₂ c₃) :
    r.Spares touched c₁ c₃ where
  a other := (h'.a other).trans (h.a other)
  x other := (h'.x other).trans (h.x other)
  y other := (h'.y other).trans (h.y other)
  carry kept := (h'.carry kept).trans (h.carry kept)

theorem mono (h : r.Spares touched c d) (register : r = .none ∨ r = r')
    (carry : touched = true → touched' = true) : r'.Spares touched' c d := by
  have other : ∀ {q : Register}, q ≠ .none → r' ≠ q → r ≠ q := by
    rintro q named other rfl
    rcases register with rfl | rfl
    · exact named rfl
    · exact other rfl
  refine ⟨fun ne => h.a (other nofun ne), fun ne => h.x (other nofun ne),
    fun ne => h.y (other nofun ne), fun kept => h.carry ?_⟩
  cases touched with
  | true => rw [carry rfl] at kept; cases kept
  | false => rfl

end Register.Spares

namespace Interpreter

theorem addTo_spares (c : Cpu) (v : UInt8) : Register.a.Spares true c (addTo c v) := by
  unfold addTo
  split <;> constructor <;> intro h <;> first | exact absurd rfl h | cases h | rfl

theorem readEffect_spares (n : Mnemonic) (c : Cpu) (v : UInt8) :
    n.register.Spares n.touchesCarry c (readEffect n c v) := by
  cases n with
  | adc => exact addTo_spares c v
  | _ => constructor <;> intro h <;> first | exact absurd rfl h | (cases h <;> rfl) | rfl

theorem impliedEffect_spares (n : Mnemonic) (c : Cpu) :
    n.register.Spares n.touchesCarry c (impliedEffect n c) := by
  cases n with
  | cli | sei | cld | sed => constructor <;> intro h <;> rfl
  | _ => constructor <;> intro h <;> first | exact absurd rfl h | (cases h <;> rfl) | rfl

theorem modify_spares (n : Mnemonic) (modifies : n.memUse = .readWrite) (c : Cpu) (v : UInt8) :
    Register.none.Spares n.touchesCarry c (modify n c v).2 := by
  cases n with
  | inc | dec => constructor <;> intro h <;> rfl
  | asl | lsr | rol | ror | slo =>
    constructor <;> intro h <;> first | exact absurd rfl h | cases h | rfl
  | _ => cases modifies

variable {B : Type} [Bus B]

theorem perform_spares (opcode low high : UInt8) (cpu : Cpu) (bus : B) :
    (operationOf opcode).register.Spares (operationOf opcode).mnemonic.touchesCarry cpu
      (perform opcode low high cpu bus).1.2 := by
  have spares : ∀ {r : Register} {touched : Bool} {c d : Cpu} {pc : Addr}, r.Spares touched c d →
      r.Spares touched c { d with pc } := fun h => ⟨h.a, h.x, h.y, h.carry⟩
  have shifts : (operationOf opcode).mode = .accumulator → _ := Native.mnemonic_of_accumulator
  unfold perform Operation.register
  obtain ⟨⟨r, bus'⟩, hr⟩ : ∃ p, (resolve (operationOf opcode).mode cpu low high
    (cpu.pc + (operationOf opcode).len.toUInt16) : StateM B Resolved) bus = p := ⟨_, rfl⟩
  rw [bind_run hr]
  dsimp only
  generalize operationOf opcode = op at shifts
  by_cases accumulator : op.mode = .accumulator
  · have named := shifts accumulator
    simp only [List.mem_cons, List.not_mem_nil, or_false] at named
    rcases named with hm | hm | hm | hm <;>
    · rw [hm]
      dsimp only
      rw [if_pos accumulator, if_pos accumulator]
      constructor <;> intro h <;> first | exact absurd rfl h | cases h | rfl
  · rw [if_neg accumulator]
    cases hm : op.mnemonic with
    | adc | sbc | and | ora | eor | alr | bit | cmp | cpx | cpy | lda | ldx | ldy =>
      exact spares (readEffect_spares _ cpu _)
    | inx | iny | dex | dey | tax | tay | txa | tya | tsx | txs | clc | sec | clv | cli | sei | cld
    | sed => exact spares (impliedEffect_spares _ cpu)
    | asl | lsr | rol | ror | inc | dec =>
      dsimp only
      rw [if_neg accumulator]
      exact spares (modify_spares _ rfl cpu _)
    | slo =>
      dsimp only
      rw [if_neg accumulator]
      constructor <;> intro h <;> first | exact absurd rfl h | cases h | rfl
    | nop =>
      dsimp only
      split <;> constructor <;> intro h <;> rfl
    | bcc | bcs | bne | beq | bpl | bmi | bvc | bvs =>
      dsimp only
      split <;> constructor <;> intro h <;> rfl
    | _ => constructor <;> intro h <;> first | exact absurd rfl h | (cases h <;> rfl) | rfl

end Interpreter

namespace Record

open Interpreter

variable {B : Type} [Bus B] {k : Known} {c d : Cpu}

theorem holds_unknown (c : Cpu) : ({} : Known).Holds c := by
  constructor <;> intro v known <;> cases known

theorem Known.Holds.forget (h : k.Holds c) {opcode : UInt8}
    (spares : (operationOf opcode).register.Spares (operationOf opcode).mnemonic.touchesCarry c d) :
    (k.forget opcode).Holds d := by
  unfold Known.forget
  dsimp only
  generalize (operationOf opcode).mnemonic.touchesCarry = touched at spares ⊢
  generalize (operationOf opcode).register = r at spares ⊢
  constructor
  · intro v known
    cases r <;> cases touched <;>
      first | exact (spares.a Register.noConfusion).trans (h.a v known) | cases known
  · intro v known
    cases r <;> cases touched <;>
      first | exact (spares.x Register.noConfusion).trans (h.x v known) | cases known
  · intro v known
    cases r <;> cases touched <;>
      first | exact (spares.y Register.noConfusion).trans (h.y v known) | cases known
  · intro v known
    cases r <;> cases touched <;>
      first | exact (spares.carry rfl).trans (h.carry v known) | cases known

theorem toUInt8_operand {i : Instruction} (immediate : i.operation.mode = .immediate) :
    i.operand.toUInt8 = i.low := by
  unfold Instruction.operand
  rw [immediate]
  exact UInt8.toUInt8_toUInt16 i.low

theorem Known.Holds.learn (i : Instruction) {cpu : Cpu} {bus : B}
    (h : k.Holds (perform i.opcode i.low i.high cpu bus).1.2) :
    (k.learn i.opcode i.operand).Holds (perform i.opcode i.low i.high cpu bus).1.2 := by
  have load : ∀ {n : Mnemonic}, i.operation = ⟨n, .immediate, 2⟩ → n ∈ [.lda, .ldx, .ldy] →
      (perform i.opcode i.low i.high cpu bus).1.2 = { readEffect n cpu i.low with pc := cpu.pc + 2 } := by
    intro n is loads
    have named : operationOf i.opcode = ⟨n, .immediate, 2⟩ := is
    unfold perform
    rw [named]
    simp only [List.mem_cons, List.not_mem_nil, or_false] at loads
    rcases loads with rfl | rfl | rfl <;> rfl
  have value : ∀ {n : Mnemonic}, i.operation = ⟨n, .immediate, 2⟩ → i.operand.toUInt8 = i.low := by
    intro n is
    exact toUInt8_operand (by rw [is])
  have byte : ∀ {opcode : UInt8} {op : Operation}, i.opcode = opcode → operationOf opcode = op →
      i.operation = op := by
    rintro _ _ rfl rfl
    rfl
  unfold Known.learn
  split
  · next is =>
    have named : operationOf i.opcode = ⟨.clc, .implied, 2⟩ := byte is (by decide)
    refine ⟨h.a, h.x, h.y, ?_⟩
    rintro v ⟨⟩
    unfold perform
    rw [named]
    rfl
  · split
    · next is =>
      have named : operationOf i.opcode = ⟨.sec, .implied, 2⟩ := byte is (by decide)
      refine ⟨h.a, h.x, h.y, ?_⟩
      rintro v ⟨⟩
      unfold perform
      rw [named]
      rfl
    · split
      · next is =>
        have named : i.operation = ⟨.ldy, .immediate, 2⟩ := byte is (by decide)
        refine ⟨h.a, h.x, ?_, h.carry⟩
        rintro v ⟨⟩
        rw [value named, load named (by decide)]
        rfl
      · split
        · next is =>
          have named : i.operation = ⟨.ldx, .immediate, 2⟩ := byte is (by decide)
          refine ⟨h.a, ?_, h.y, h.carry⟩
          rintro v ⟨⟩
          rw [value named, load named (by decide)]
          rfl
        · split
          · next is =>
            have named : i.operation = ⟨.lda, .immediate, 2⟩ := byte is (by decide)
            refine ⟨?_, h.x, h.y, h.carry⟩
            rintro v ⟨⟩
            rw [value named, load named (by decide)]
            rfl
          · exact h

variable {σ : Type} {m : PagedMemory σ} {o : LoweringOptions} {r : Record}

/-- What is known behind a record is so once its instruction is executed. -/
theorem Known.Holds.after (h : k.Holds c) (lowered : Lowered m o k r) (tracked : Bool)
    (untracked : tracked = false → k = {}) {bus : B} :
    (k.after tracked r).Holds
      (perform (r.instruction m).opcode (r.instruction m).low (r.instruction m).high c bus).1.2 := by
  unfold Known.after
  cases tracked with
  | false =>
    rw [untracked rfl]
    exact holds_unknown _
  | true =>
    have opcode : r.opcode = (r.instruction m).opcode := lowered.opcode
    have operand : r.operand = (r.instruction m).operand := lowered.operand
    rw [if_pos rfl, opcode, operand]
    exact (h.forget (perform_spares _ _ _ c bus)).learn (r.instruction m)

theorem knownAfter_untracked (rs : List Record) : knownAfter false {} rs = {} := by
  induction rs with
  | nil => rfl
  | cons r rs ih => exact ih

end Record

end Mos6502
