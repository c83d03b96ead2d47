import Mos6502.Proofs.Native.Spares

/-! Compiled code does not ask for interrupts. While the interrupt line is held, the host code of no
instruction clears the interrupt mask: the two instructions that do are left to the interpreter. -/
namespace Mos6502

open Record

/-- The interrupt line is as it was, and while it is held nothing gets unmasked. -/
structure Cpu.Heeds (c d : Cpu) : Prop where
  irq : d.irq = c.irq
  masked : c.irq = true → c.masked = true → d.masked = true

namespace Cpu.Heeds

theorem refl (c : Cpu) : c.Heeds c :=
  ⟨rfl, fun _ was => was⟩

theorem trans {c₁ c₂ c₃ : Cpu} (h : c₁.Heeds c₂) (h' : c₂.Heeds c₃) : c₁.Heeds c₃ where
  irq := h'.irq.trans h.irq
  masked held was := h'.masked (h.irq.trans held) (h.masked held was)

theorem quiet {c d : Cpu} (h : c.Heeds d) (was : c.interruptDue = false) :
    d.interruptDue = false := by
  unfold interruptDue at was ⊢
  rw [h.irq]
  cases held : c.irq with
  | false => rfl
  | true =>
    rw [held] at was
    have masked : c.masked = true := by simpa using was
    rw [h.masked held masked]
    rfl

end Cpu.Heeds

theorem Spares.heeds {unmasks : Bool} {refund : Nat} {c d : Cpu} (h : Spares unmasks refund c d)
    (keeps : unmasks = false ∨ c.irq = false) : c.Heeds d where
  irq := h.irq
  masked held was := by
    refine h.masked (keeps.resolve_right ?_) was
    rw [held]
    exact Bool.noConfusion

namespace HostOp

variable {M : Type} [GuestMemory M]

theorem unmasks_ofUop (m : M) (u : Uop) : (ofUop m u).unmasks = (uop u).unmasks := by
  cases u with
  | raw opcode operand =>
    unfold ofUop
    dsimp only
    split <;> rfl
  | _ => rfl

theorem unmasks_of_auxiliary {u : Uop} (auxiliary : u.isAuxiliary = true) :
    (uop u).unmasks = false := by
  cases u with
  | raw => cases auxiliary
  | _ => rfl

theorem unmasks_rewrite (k : Known) {u : Uop} (keeps : (uop u).unmasks = false) :
    (uop (k.rewrite u)).unmasks = false := by
  cases u with
  | raw opcode operand =>
    rcases k.rewrite_raw opcode operand with is | ⟨_, _, is⟩ | ⟨_, _, is⟩ | ⟨_, is, _⟩
    · rw [is]
      exact keeps
    all_goals
      rw [is]
      rfl
  | _ => rfl

end HostOp

namespace Instruction

def unmasks (i : Instruction) : Bool :=
  i.operation.mnemonic == .cli || i.operation.mnemonic == .plp

theorem unmasks_bodyUops (o : LoweringOptions) {i : Instruction} (keeps : i.unmasks = false)
    {u : Uop} (mem : u ∈ i.bodyUops o) : (HostOp.uop u).unmasks = false := by
  have around := i.auxiliary_around o (u := u)
  rcases mem_bodyUops mem with mode | retire | before | main | after
  · exact HostOp.unmasks_of_auxiliary (around (.inr (.inl mode)))
  · exact HostOp.unmasks_of_auxiliary (around (.inr (.inr (.inl retire))))
  · exact HostOp.unmasks_of_auxiliary (around (.inr (.inr (.inr (.inl before)))))
  · cases inMain_of_mem main with
    | raw => exact keeps
    | _ => rfl
  · exact HostOp.unmasks_of_auxiliary (around (.inr (.inr (.inr (.inr after)))))

/-- What clears the mask is left to the interpreter while the interrupt line is held. -/
theorem bodyUops_of_unmasks (o : LoweringOptions) {i : Instruction} (unmasks : i.unmasks = true) :
    i.bodyUops o = [.interpretIfIrq i.addr, .raw i.opcode i.operand] := by
  have facts : ∀ opcode, ((operationOf opcode).mnemonic = .cli ∨ (operationOf opcode).mnemonic = .plp) →
      (operationOf opcode).mode = .implied := by
    apply Native.forall_byte (p := fun opcode =>
      ((operationOf opcode).mnemonic = .cli ∨ (operationOf opcode).mnemonic = .plp) →
        (operationOf opcode).mode = .implied)
    decide +kernel
  have named : i.operation.mnemonic = .cli ∨ i.operation.mnemonic = .plp := by
    simpa [Instruction.unmasks] using unmasks
  have mode : i.operation.mode = .implied := facts i.opcode named
  unfold bodyUops modeUops retireUops beforeUops mainUops afterUops Operation.memUse
  rcases named with named | named <;>
  · rw [mode, named]
    rfl

end Instruction

namespace Native

variable {σ : Type}

/-- While the interrupt line is held, no instruction executed unmasks anything. -/
abbrev Attentive : List HostOp → Core (PagedMemory σ) → Prop :=
  Along (fun c _ d => c.cpu.Heeds d.cpu) fun _ => True

theorem attentive_guarded {u : Uop} {addr : Addr} (m : PagedMemory σ) (k : Known)
    {rest : List HostOp} (after : ∀ d, Attentive (σ := σ) rest d) (c : Core (PagedMemory σ)) :
    Attentive (HostOp.ofUop m (k.rewrite (.interpretIfIrq addr)) :: HostOp.ofUop m (k.rewrite u)
      :: rest) c := by
  have looks : execOp (HostOp.ofUop m (k.rewrite (.interpretIfIrq addr))) c
      = (if c.cpu.irq then .bounce addr else .next, c) := rfl
  refine ⟨?_, ?_⟩
  · rw [looks]
    exact .refl _
  · rw [looks]
    intro d goes
    cases held : c.cpu.irq with
    | true =>
      rw [held] at goes
      cases goes
    | false =>
      rw [held] at goes
      cases goes
      exact ⟨(spares_execOp _ c).heeds (.inr held), fun d _ => after d⟩

end Native

namespace Record

open Native

variable {σ : Type} {m : PagedMemory σ} {o : LoweringOptions} {k : Known}

theorem attentive_body (m : PagedMemory σ) (k : Known) (i : Instruction) {rest : List HostOp}
    (after : ∀ c, Attentive (σ := σ) rest c) (c : Core (PagedMemory σ)) :
    Attentive ((i.bodyUops o).map (HostOp.ofUop m ∘ k.rewrite) ++ rest) c := by
  cases unmasks : i.unmasks with
  | true =>
    rw [i.bodyUops_of_unmasks o unmasks]
    exact attentive_guarded m k after c
  | false =>
    refine along_append (fun op mem c => (spares_execOp op c).heeds (.inl ?_)) after c
    obtain ⟨u, among, rfl⟩ := List.mem_map.mp mem
    exact (HostOp.unmasks_ofUop m _).trans
      (HostOp.unmasks_rewrite k (i.unmasks_bodyUops o unmasks among))

theorem Lowered.attentive {r : Record} (h : Lowered m o k r) (post : List Record)
    (c : Core (PagedMemory σ)) : Attentive (r.ops m ++ onwardOps r post) c :=
  h.along_of_body (fun c _ => .refl c.cpu)
    (fun _ after c => attentive_body m k (Instruction.fetch m r.addr) after c) post c

end Record

end Mos6502
