import Mos6502.Proofs.Native.Safe

/-! What a host instruction leaves of the interrupt line, the interrupt mask and the budget. Only
two instructions let interrupts through that were masked, and what a host instruction gives back of
the budget can be told from the instruction. -/
namespace Mos6502

namespace HostOp

def refunded : HostOp → Nat
  | uop (.refundX _) | uop (.refundY _) | uop .refundScratchY => 1
  | uop (.refund cycles) => cycles.toNat
  | _ => 0

def unmasks (op : HostOp) : Bool :=
  match Native.raw? op with
  | some (opcode, _) =>
    (operationOf opcode).mnemonic == .cli || (operationOf opcode).mnemonic == .plp
  | none => false

end HostOp

/-- Nothing is done to the interrupt line, nothing to the mask unless `unmasks`, and at most `refund`
cycles are given back. -/
structure Spares (unmasks : Bool) (refund : Nat) (c d : Cpu) : Prop where
  irq : d.irq = c.irq
  masked : unmasks = false → c.masked = true → d.masked = true
  spent : c.budget ≤ d.budget
  refunded : d.budget ≤ c.budget + refund

namespace Spares

variable {unmasks : Bool} {refund : Nat} {c d : Cpu}

theorem of_same (irq : d.irq = c.irq) (other : d.other = c.other) (budget : d.budget = c.budget) :
    Spares unmasks 0 c d where
  irq := irq
  masked _ was := by
    unfold Cpu.masked at was ⊢
    rw [other]
    exact was
  spent := Int.le_of_eq budget.symm
  refunded := by omega

theorem refl (c : Cpu) : Spares unmasks 0 c c :=
  of_same rfl rfl rfl

theorem trans {c₁ c₂ c₃ : Cpu} (h : Spares unmasks 0 c₁ c₂) (h' : Spares unmasks 0 c₂ c₃) :
    Spares unmasks 0 c₁ c₃ where
  irq := h'.irq.trans h.irq
  masked keeps was := h'.masked keeps (h.masked keeps was)
  spent := Int.le_trans h.spent h'.spent
  refunded := by
    have first := h.refunded
    have second := h'.refunded
    omega

end Spares

theorem Cpu.masked_setMasked (c : Cpu) : (c.setMasked true).masked = true := by
  change anyBit (c.other ||| flagI) flagI = true
  apply forall_opcode (p := fun other => anyBit (other ||| flagI) flagI = true)
  decide +kernel

theorem Cpu.masked_setDecimal (c : Cpu) (on : Bool) : (c.setDecimal on).masked = c.masked := by
  cases on with
  | true =>
    change anyBit (c.other ||| flagD) flagI = anyBit c.other flagI
    apply forall_opcode (p := fun other => anyBit (other ||| flagD) flagI = anyBit other flagI)
    decide +kernel
  | false =>
    change anyBit (c.other &&& ~~~flagD) flagI = anyBit c.other flagI
    apply forall_opcode (p := fun other => anyBit (other &&& ~~~flagD) flagI = anyBit other flagI)
    decide +kernel

namespace Native

variable {unmasks : Bool}

theorem spares_readEffect (mnemonic : Mnemonic) (m : UInt8) (c : Cpu) :
    Spares unmasks 0 c (readEffect mnemonic m c) := by
  cases mnemonic <;> exact .of_same rfl rfl rfl

theorem spares_modify (mnemonic : Mnemonic) (v : UInt8) (c : Cpu) :
    Spares unmasks 0 c (modify mnemonic v c).2 := by
  cases mnemonic <;> exact .of_same rfl rfl rfl

theorem spares_impliedEffect (mnemonic : Mnemonic) (c : Cpu) :
    Spares (mnemonic == .cli || mnemonic == .plp) 0 c (impliedEffect mnemonic c) := by
  have budget : ∀ d : Cpu, d.budget = c.budget → d.budget ≤ c.budget + (0 : Nat) := by
    intro d same
    omega
  cases mnemonic with
  | cli => exact ⟨rfl, nofun, Int.le_refl _, budget _ rfl⟩
  | sei => exact ⟨rfl, fun _ _ => c.masked_setMasked, Int.le_refl _, budget _ rfl⟩
  | cld => exact ⟨rfl, fun _ was => (c.masked_setDecimal _).trans was, Int.le_refl _, budget _ rfl⟩
  | sed => exact ⟨rfl, fun _ was => (c.masked_setDecimal _).trans was, Int.le_refl _, budget _ rfl⟩
  | _ => exact .of_same rfl rfl rfl

variable {M α β : Type} {start : Cpu}

/-- However far the processor `start` has been spared, the computation spares it, and its value is
such. -/
def Sparing (unmasks : Bool) (start : Cpu) (P : α → Prop) (x : Exec M α) : Prop :=
  ∀ c, Spares unmasks 0 start c.cpu → P (x c).1 ∧ Spares unmasks 0 start (x c).2.cpu

namespace Sparing

variable {P : α → Prop} {R : β → Prop}

theorem pure {v : α} (h : P v) : Sparing (M := M) unmasks start P (Pure.pure v) :=
  fun _ spares => ⟨h, spares⟩

theorem bind {x : Exec M α} {f : α → Exec M β} (hx : Sparing unmasks start P x)
    (hf : ∀ v, P v → Sparing unmasks start R (f v)) : Sparing unmasks start R (x >>= f) := by
  intro c spares
  obtain ⟨value, between⟩ := hx c spares
  exact hf _ value (x c).2 between

theorem getCpu : Sparing (M := M) unmasks start (Spares unmasks 0 start) Native.getCpu :=
  fun _ spares => ⟨spares, spares⟩

theorem onCpu {f : Cpu → Cpu} (h : ∀ c, Spares unmasks 0 start c → Spares unmasks 0 start (f c)) :
    Sparing (M := M) unmasks start (fun _ => True) (Native.onCpu f) :=
  fun _ spares => ⟨trivial, h _ spares⟩

theorem thenNext {f : Cpu → Cpu} (h : ∀ c, Spares unmasks 0 c (f c)) :
    Sparing (M := M) unmasks start (fun _ => True) (Native.thenNext f) :=
  .bind (onCpu fun c spares => spares.trans (h c)) fun _ _ => .pure trivial

variable [GuestMemory M]

theorem load (a : Addr) : Sparing (M := M) unmasks start (fun _ => True) (Native.load a) :=
  fun _ spares => ⟨trivial, spares⟩

theorem put (a : Addr) (v : UInt8) :
    Sparing (M := M) unmasks start (fun _ => True) (Native.put a v) :=
  fun _ spares => ⟨trivial, spares⟩

theorem push (v : UInt8) : Sparing (M := M) unmasks start (fun _ => True) (Native.push v) :=
  fun _ spares => ⟨trivial, spares.trans (.of_same rfl rfl rfl)⟩

theorem pull : Sparing (M := M) unmasks start (fun _ => True) Native.pull :=
  fun _ spares => ⟨trivial, spares.trans (.of_same rfl rfl rfl)⟩

theorem loadPointer (a : Addr) :
    Sparing (M := M) unmasks start (fun _ => True) (Native.loadPointer a) :=
  .bind (load a) fun _ _ => .bind (load _) fun _ _ => .pure trivial

theorem loadOperand (mode : AddrMode) (operand : UInt16) :
    Sparing (M := M) unmasks start (fun _ => True) (Native.loadOperand mode operand) := by
  unfold Native.loadOperand
  split
  · exact .pure trivial
  · exact .bind getCpu fun _ _ => load _

theorem modifyOperand (op : Operation) (operand : UInt16) (checked : Bool) :
    Sparing (M := M) unmasks start (fun _ => True) (Native.modifyOperand op operand checked) := by
  unfold Native.modifyOperand
  refine .bind getCpu fun _ _ => .bind (load _) fun v _ => .bind getCpu fun cpu spared => ?_
  have after := spared.trans (spares_modify op.mnemonic v cpu)
  generalize modify op.mnemonic v cpu = modified at after
  obtain ⟨result, cpu'⟩ := modified
  refine .bind (onCpu fun _ _ => after) fun _ _ => ?_
  have last : Sparing (M := M) unmasks start (fun _ => True)
      (if op.mnemonic = .slo then Native.onCpu fun c => takeA (c.a ||| result) c
      else Pure.pure ()) := by
    split
    · exact onCpu fun _ spares => spares.trans (.of_same rfl rfl rfl)
    · exact .pure trivial
  dsimp only
  split
  · exact .bind (put _ _) fun _ _ => .bind (put _ _) fun _ _ => last
  · exact .bind (put _ _) fun _ _ => last

theorem raw (opcode : UInt8) (operand : UInt16) (checked : Bool) :
    Sparing (M := M) ((operationOf opcode).mnemonic == .cli || (operationOf opcode).mnemonic == .plp)
      start (fun _ => True) (Native.raw opcode operand checked) := by
  unfold Native.raw
  dsimp only
  have implied := spares_impliedEffect (operationOf opcode).mnemonic
  cases hm : (operationOf opcode).mnemonic with
  | adc | sbc | and | ora | eor | alr | bit | cmp | cpx | cpy | lda | ldx | ldy =>
    exact .bind (loadOperand _ _) fun m _ =>
      .bind (onCpu fun c spares => spares.trans (spares_readEffect _ m c)) fun _ _ => .pure trivial
  | nop =>
    dsimp only
    split
    · exact .bind (loadOperand _ _) fun _ _ => .pure trivial
    · exact .pure trivial
  | sta | stx | sty | sax =>
    exact .bind getCpu fun _ _ => .bind (put _ _) fun _ _ => .pure trivial
  | asl | lsr | rol | ror | slo | inc | dec =>
    dsimp only
    split
    · refine .bind (onCpu fun c spares => spares.trans ?_) fun _ _ => .pure trivial
      have modified : Spares false 0 c (modify (operationOf opcode).mnemonic c.a c).2 :=
        spares_modify (operationOf opcode).mnemonic c.a c
      rw [hm] at modified
      exact modified.trans (.of_same rfl rfl rfl)
    · exact .bind (modifyOperand _ _ _) fun _ _ => .pure trivial
  | pha | php => exact .bind getCpu fun _ _ => .bind (push _) fun _ _ => .pure trivial
  | pla =>
    exact .bind pull fun _ _ =>
      .bind (onCpu fun _ spares => spares.trans (.of_same rfl rfl rfl)) fun _ _ => .pure trivial
  | plp =>
    refine .bind pull fun p _ => .bind (onCpu fun c spares => spares.trans ?_) fun _ _ => .pure trivial
    exact ⟨rfl, nofun, Int.le_refl _, Int.le_of_eq (Int.add_zero _).symm⟩
  | bcc | bcs | beq | bne | bmi | bpl | bvc | bvs => exact .bind getCpu fun _ _ => .pure trivial
  | exit | debugBreak | crash | brk | jmp | jsr | rts | rti | unknown => exact .pure trivial
  | _ =>
    rw [hm] at implied
    exact .bind (onCpu fun c spares => spares.trans (implied c)) fun _ _ => .pure trivial

end Sparing

theorem Sparing.spares {P : α → Prop} {x : Exec M α} {c : Core M}
    (h : Sparing unmasks c.cpu P x) : Spares unmasks 0 c.cpu (x c).2.cpu :=
  (h c (.refl c.cpu)).2

theorem spares_refundSamePage (base : Addr) (index : UInt8) (c : Cpu) :
    Spares unmasks 1 c (refundSamePage base index c) := by
  unfold refundSamePage
  split
  · exact ⟨rfl, fun _ was => was, Int.le_add_one (Int.le_refl _), Int.le_refl _⟩
  · exact ⟨rfl, fun _ was => was, Int.le_refl _, Int.le_add_one (Int.le_refl _)⟩

variable [GuestMemory M]

theorem spares_exec (u : Uop) (c : Core M) :
    Spares (HostOp.unmasks (.uop u)) (HostOp.refunded (.uop u)) c.cpu (exec u c).2.cpu := by
  cases u with
  | refundX base => exact spares_refundSamePage base c.cpu.x c.cpu
  | refundY base => exact spares_refundSamePage base c.cpu.y c.cpu
  | refundScratchY => exact spares_refundSamePage c.cpu.scratch c.cpu.y c.cpu
  | refund cycles =>
    exact ⟨rfl, fun _ was => was, Int.le_add_of_nonneg_right (Int.natCast_nonneg _), Int.le_refl _⟩
  | raw opcode operand => exact (Sparing.raw opcode operand false).spares
  | follow a =>
    have sparing : Sparing (M := M) false c.cpu (fun _ => True) (exec (.follow a)) :=
      .bind (.loadPointer _) fun _ _ => .thenNext fun _ => .of_same rfl rfl rfl
    exact sparing.spares
  | followScratch =>
    have sparing : Sparing (M := M) false c.cpu (fun _ => True) (exec .followScratch) :=
      .bind .getCpu fun _ _ => .bind (.loadPointer _) fun _ _ =>
        .thenNext fun _ => .of_same rfl rfl rfl
    exact sparing.spares
  | pullScratch =>
    have sparing : Sparing (M := M) false c.cpu (fun _ => True) (exec .pullScratch) :=
      .bind .pull fun _ _ => .bind .pull fun _ _ => .thenNext fun _ => .of_same rfl rfl rfl
    exact sparing.spares
  | pushWord w =>
    have sparing : Sparing (M := M) false c.cpu (fun _ => True) (exec (.pushWord w)) :=
      .bind (.push _) fun _ _ => .bind (.push _) fun _ _ => .pure trivial
    exact sparing.spares
  | _ => exact .of_same rfl rfl rfl

theorem spares_execOp (op : HostOp) (c : Core M) :
    Spares op.unmasks op.refunded c.cpu (execOp op c).2.cpu := by
  cases op with
  | uop u => exact spares_exec u c
  | modifyChecked opcode operand => exact (Sparing.raw opcode operand true).spares
  | nop | trap => exact .refl _

end Native

end Mos6502
