import Mos6502.Interpreter

/-! The interpreter touches its bus by single accesses only: on every bus it runs one and the same
program of reads and writes. What holds of the accesses of a bus then holds of the interpreter. -/
namespace Mos6502

inductive BusProgram (α : Type) where
  | done (v : α)
  | read (a : Addr) (k : UInt8 → BusProgram α)
  | write (a : Addr) (v : UInt8) (k : BusProgram α)

namespace BusProgram

variable {α β B : Type} [Bus B]

def run : BusProgram α → StateM B α
  | done v => pure v
  | read a k => do
    let v ← Bus.fetch a
    (k v).run
  | write a v k => do
    Bus.store a v
    k.run

def bind (f : α → BusProgram β) : BusProgram α → BusProgram β
  | done v => f v
  | read a k => read a fun v => (k v).bind f
  | write a v k => write a v (k.bind f)

theorem run_bind (f : α → BusProgram β) (p : BusProgram α) :
    ((p.bind f).run : StateM B β) = p.run >>= fun v => (f v).run := by
  induction p with
  | done v => rfl
  | read a k ih =>
    funext b
    exact congrFun (ih (Bus.read b a).1) (Bus.read b a).2
  | write a v k ih =>
    funext b
    exact congrFun ih (Bus.write b a v)

theorem run_keeps {I : B → Prop} (reads : ∀ b a, I b → I (Bus.read b a).2)
    (writes : ∀ b a v, I b → I (Bus.write b a v)) (p : BusProgram α) {b : B} (h : I b) :
    I (p.run b).2 := by
  induction p generalizing b with
  | done v => exact h
  | read a k ih => exact ih _ (reads b a h)
  | write a v k ih => exact ih (writes b a v h)

theorem run_map {C : Type} [Bus C] {I : B → Prop} {φ : B → C}
    (reads : ∀ b a, I b → I (Bus.read b a).2 ∧
      Bus.read (φ b) a = ((Bus.read b a).1, φ (Bus.read b a).2))
    (writes : ∀ b a v, I b → I (Bus.write b a v) ∧
      Bus.write (φ b) a v = φ (Bus.write b a v)) (p : BusProgram α) {b : B} (h : I b) :
    p.run (φ b) = ((p.run b).1, φ (p.run b).2) := by
  induction p generalizing b with
  | done v => rfl
  | read a k ih =>
    obtain ⟨kept, same⟩ := reads b a h
    change (k (Bus.read (φ b) a).1).run (Bus.read (φ b) a).2 = _
    rw [same]
    exact ih _ kept
  | write a v k ih =>
    obtain ⟨kept, same⟩ := writes b a v h
    change k.run (Bus.write (φ b) a v) = _
    rw [same]
    exact ih kept

end BusProgram

/-- On every bus the computation runs the same program. -/
def Uniform {α : Type} (x : (B : Type) → [Bus B] → StateM B α) : Prop :=
  ∃ p : BusProgram α, ∀ (B : Type) [Bus B], x B = p.run

namespace Uniform

variable {α β : Type}

theorem pure (v : α) : Uniform fun B _ => (Pure.pure v : StateM B α) :=
  ⟨.done v, fun _ _ => rfl⟩

theorem fetch (a : Addr) : Uniform fun B _ => (Bus.fetch a : StateM B UInt8) :=
  ⟨.read a .done, fun _ _ => rfl⟩

theorem store (a : Addr) (v : UInt8) : Uniform fun B _ => (Bus.store a v : StateM B Unit) :=
  ⟨.write a v (.done ()), fun _ _ => rfl⟩

theorem bind {x : (B : Type) → [Bus B] → StateM B α} {f : α → (B : Type) → [Bus B] → StateM B β}
    (hx : Uniform x) (hf : ∀ v, Uniform (f v)) : Uniform fun B _ => x B >>= fun v => f v B := by
  obtain ⟨p, hp⟩ := hx
  obtain ⟨q, hq⟩ := Classical.axiomOfChoice hf
  refine ⟨p.bind q, ?_⟩
  intro B _
  have rest : (fun v => f v B) = fun v => (q v).run := funext fun v => hq v B
  rw [BusProgram.run_bind, ← hp, ← rest]

end Uniform

namespace Interpreter

theorem uniform_push (cpu : Cpu) (v : UInt8) : Uniform fun B _ => (push cpu v : StateM B Cpu) :=
  .bind (.store _ _) fun _ => .pure _

theorem uniform_pull (cpu : Cpu) : Uniform fun B _ => (pull cpu : StateM B (UInt8 × Cpu)) :=
  .bind (.fetch _) fun _ => .pure _

theorem uniform_pushWord (cpu : Cpu) (w : UInt16) :
    Uniform fun B _ => (pushWord cpu w : StateM B Cpu) :=
  .bind (uniform_push _ _) fun _ => uniform_push _ _

theorem uniform_pullWord (cpu : Cpu) :
    Uniform fun B _ => (pullWord cpu : StateM B (UInt16 × Cpu)) :=
  .bind (uniform_pull _) fun _ => .bind (uniform_pull _) fun _ => .pure _

theorem uniform_fetchPointer (a : Addr) :
    Uniform fun B _ => (Bus.fetchPointer a : StateM B UInt16) :=
  .bind (.fetch _) fun _ => .bind (.fetch _) fun _ => .pure _

theorem uniform_interrupt (cpu : Cpu) :
    Uniform fun B _ => (interrupt cpu : StateM B (Nat × Cpu)) :=
  .bind (uniform_pushWord _ _) fun _ => .bind (uniform_push _ _) fun _ =>
    .bind (.fetch _) fun _ => .bind (.fetch _) fun _ => .pure _

theorem uniform_resolve (mode : AddrMode) (cpu : Cpu) (low high : UInt8) (next : Addr) :
    Uniform fun B _ => (resolve mode cpu low high next : StateM B Resolved) := by
  cases mode with
  | indirect | indexedIndirect | indirectIndexed =>
    exact .bind (uniform_fetchPointer _) fun _ => .pure _
  | _ => exact .pure _

theorem uniform_perform (opcode low high : UInt8) (cpu : Cpu) :
    Uniform fun B _ => (perform opcode low high cpu : StateM B (Step × Cpu)) := by
  unfold perform
  refine .bind (uniform_resolve _ _ _ _ _) fun r => ?_
  have operand : Uniform fun B _ =>
      (if (operationOf opcode).mode = .immediate then Pure.pure low
        else Bus.fetch r.effective : StateM B UInt8) := by
    split
    · exact .pure _
    · exact .fetch _
  dsimp only
  cases (operationOf opcode).mnemonic with
  | adc | sbc | and | ora | eor | alr | bit | cmp | cpx | cpy | lda | ldx | ldy =>
    exact .bind operand fun _ => .pure _
  | nop =>
    dsimp only
    split
    · exact .bind operand fun _ => .pure _
    · exact .pure _
  | sta | stx | sty | sax => exact .bind (.store _ _) fun _ => .pure _
  | asl | lsr | rol | ror | slo | inc | dec =>
    dsimp only
    split
    · exact .pure _
    · exact .bind (.fetch _) fun _ => .bind (.store _ _) fun _ => .bind (.store _ _) fun _ => .pure _
  | pha | php => exact .bind (uniform_push _ _) fun _ => .pure _
  | pla | plp => exact .bind (uniform_pull _) fun _ => .pure _
  | bcc | bcs | bne | beq | bpl | bmi | bvc | bvs =>
    dsimp only
    split <;> exact .pure _
  | jsr => exact .bind (uniform_pushWord _ _) fun _ => .pure _
  | rts => exact .bind (uniform_pullWord _) fun _ => .pure _
  | rti => exact .bind (uniform_pull _) fun _ => .bind (uniform_pullWord _) fun _ => .pure _
  | brk =>
    exact .bind (uniform_pushWord _ _) fun _ => .bind (uniform_push _ _) fun _ =>
      .bind (uniform_fetchPointer _) fun _ => .pure _
  | _ => exact .pure _

theorem uniform_step (cpu : Cpu) : Uniform fun B _ => (step cpu : StateM B (Step × Cpu)) := by
  unfold step
  refine .bind (.fetch _) fun opcode => ?_
  dsimp only
  have last : ∀ low, Uniform fun B _ =>
      (if 3 ≤ (operationOf opcode).len then do
        let high ← Bus.fetch (cpu.pc + 2)
        perform opcode low high cpu
      else do
        let high ← Pure.pure 0
        perform opcode low high cpu : StateM B (Step × Cpu)) := by
    intro low
    split
    · exact .bind (.fetch _) fun high => uniform_perform opcode low high cpu
    · exact .bind (.pure _) fun high => uniform_perform opcode low high cpu
  split
  · exact .bind (.fetch _) last
  · exact .bind (.pure _) last

end Interpreter

end Mos6502
