import Mos6502.Proofs.Block.Total
import Mos6502.Proofs.Native.Ops
import Mos6502.Proofs.Native.Spares

/-! What an instruction can give back. Its host code is short, and refunds two cycles less than its
record charges, or fewer. Where it asks for the interpreter, it refunds one cycle at most. -/
namespace Mos6502

open Record

namespace HostOp

def asks : HostOp → Bool
  | uop (.interpret _) | uop (.interpretIfDecimal _) | uop (.interpretIfIrq _) => true
  | _ => false

def refunds (ops : List HostOp) : Nat :=
  (ops.map refunded).sum

@[simp] theorem refunds_nil : refunds [] = 0 := rfl

@[simp] theorem refunds_cons (op : HostOp) (ops : List HostOp) :
    refunds (op :: ops) = op.refunded + refunds ops := rfl

@[simp] theorem refunds_append (xs ys : List HostOp) :
    refunds (xs ++ ys) = refunds xs + refunds ys := by
  unfold refunds
  rw [List.map_append, List.sum_append]

theorem refunds_eq_zero {ops : List HostOp} (none : ∀ op ∈ ops, op.refunded = 0) :
    refunds ops = 0 := by
  induction ops with
  | nil => rfl
  | cons op ops ih =>
    rw [List.forall_mem_cons] at none
    rw [refunds_cons, none.1, ih none.2]

def plain (op : HostOp) : Bool :=
  op.refunded == 0 && !op.asks

theorem refunds_of_plain {ops : List HostOp} (all : ops.all plain = true) : refunds ops = 0 := by
  refine refunds_eq_zero fun op mem => ?_
  have here := List.all_eq_true.mp all op mem
  simp only [plain, Bool.and_eq_true, beq_iff_eq] at here
  exact here.1

theorem silent_of_plain {ops : List HostOp} (all : ops.all plain = true) {op : HostOp}
    (mem : op ∈ ops) : ¬ op.asks = true := by
  have here := List.all_eq_true.mp all op mem
  simp only [plain, Bool.and_eq_true, Bool.not_eq_true'] at here
  simp [here.2]

variable {M : Type} [GuestMemory M]

theorem ofUop_alike (m : M) (u : Uop) :
    (ofUop m u).refunded = (uop u).refunded ∧ (ofUop m u).asks = (uop u).asks := by
  cases u with
  | raw opcode operand =>
    unfold ofUop
    dsimp only
    split <;> exact ⟨rfl, rfl⟩
  | _ => exact ⟨rfl, rfl⟩

theorem rewrite_alike (k : Known) (u : Uop) :
    (uop (k.rewrite u)).refunded = (uop u).refunded ∧
      (uop (k.rewrite u)).asks = (uop u).asks := by
  cases u with
  | raw opcode operand =>
    rcases k.rewrite_raw opcode operand with is | ⟨_, _, is⟩ | ⟨_, _, is⟩ | ⟨_, is, _⟩ <;> rw [is]
    all_goals exact ⟨rfl, rfl⟩
  | _ => exact ⟨rfl, rfl⟩

theorem refunds_rewrite (k : Known) (us : List Uop) :
    refunds ((us.map k.rewrite).map uop) = refunds (us.map uop) := by
  induction us with
  | nil => rfl
  | cons u us ih => simp only [List.map_cons, refunds_cons, (rewrite_alike k u).1, ih]

theorem refunds_placed (m : M) (ps : List Placed) :
    refunds (ps.flatMap (Placed.ops m)) = refunds ((ps.map (·.uop)).map uop) := by
  induction ps with
  | nil => rfl
  | cons p ps ih =>
    have padding : refunds (List.replicate (p.hostSize - (emit m p.uop).length) nop) = 0 := by
      refine refunds_eq_zero fun op mem => ?_
      rw [List.eq_of_mem_replicate mem]
      rfl
    rw [List.flatMap_cons, refunds_append, ih, Placed.ops, refunds_cons, padding, (ofUop_alike m p.uop).1]
    rfl

end HostOp

open HostOp (refunds)

namespace Instruction

variable (o : LoweringOptions) (i : Instruction)

/-- Only a read that may leave its page gives a cycle back for its addressing mode. -/
theorem refunds_modeUops : refunds ((i.modeUops o).map .uop) = 0 ∨
    refunds ((i.modeUops o).map .uop) = 1 ∧ i.operation.mode ≠ .relative ∧
      3 ≤ (i.maxCycles o).toNat := by
  have bounds := i.cycles_bounds
  have crossing : i.refundsCrossing o = true → i.operation.mode = .absoluteX ∨
      i.operation.mode = .absoluteY ∨ i.operation.mode = .indirectIndexed →
      3 ≤ (i.maxCycles o).toNat := by
    intro crosses mode
    simp only [refundsCrossing, Bool.and_eq_true, beq_iff_eq] at crosses
    obtain ⟨⟨exact_timings, reads⟩, leaves⟩ := crosses
    have penalty : i.maxCycles o = i.operation.cycles + 1 := by
      unfold maxCycles
      rcases mode with mode | mode | mode <;> simp [exact_timings, reads, leaves, mode]
    rw [penalty, UInt8.toNat_add]
    change 3 ≤ (i.operation.cycles.toNat + 1) % 256
    omega
  unfold modeUops
  split
  case h_3 | h_4 | h_7 =>
    next mode =>
      split
      · next crosses =>
        refine .inr ⟨rfl, ?_, crossing crosses (by simp [mode])⟩
        rw [mode]
        exact nofun
      · exact .inl rfl
  all_goals exact .inl rfl

theorem refunds_afterUops : refunds ((i.afterUops o).map .uop) = 0 ∨
    refunds ((i.afterUops o).map .uop) = (i.maxCycles o).toNat - 2 ∧
      i.operation.mode = .relative ∧ ∀ u ∈ i.beforeUops, (HostOp.uop u).asks = false := by
  have relative : i.operation.branch = .conditional → i.operation.mode = .relative := by
    change (operationOf i.opcode).branch = .conditional → (operationOf i.opcode).mode = .relative
    apply forall_opcode (p := fun opcode =>
      (operationOf opcode).branch = .conditional → (operationOf opcode).mode = .relative)
    decide +kernel
  have two : 2 ≤ i.maxCycles o := UInt8.le_iff_toNat_le.mpr (i.two_le_maxCycles o)
  unfold Operation.branch at relative
  unfold afterUops beforeUops
  cases named : i.operation.mnemonic with
  | bcc | bcs | beq | bmi | bne | bpl | bvc | bvs =>
    dsimp only
    split
    · refine .inr ⟨UInt8.toNat_sub_of_le _ _ two, relative (by rw [named]; rfl), ?_⟩
      simp [HostOp.asks]
    · exact .inl rfl
  | lda | ldx | ldy | rol | ror =>
    dsimp only
    split <;> exact .inl rfl
  | _ => exact .inl rfl

theorem plain_retireUops : ((i.retireUops o).map HostOp.uop).all HostOp.plain = true := by
  rw [List.all_map, List.all_eq_true]
  intro u mem
  cases inRetire_of_mem mem <;> rfl

theorem refunds_beforeUops : refunds (i.beforeUops.map .uop) = 0 := by
  refine HostOp.refunds_eq_zero fun op mem => ?_
  obtain ⟨u, among, rfl⟩ := List.mem_map.mp mem
  cases inBefore_of_mem among <;> rfl

theorem plain_mainUops : (i.mainUops.map HostOp.uop).all HostOp.plain = true := by
  rw [List.all_map, List.all_eq_true]
  intro u mem
  cases inMain_of_mem mem <;> rfl

theorem mem_beforeUops_of_asks {u : Uop} (mem : u ∈ i.bodyUops o)
    (asks : (HostOp.uop u).asks = true) : u ∈ i.beforeUops := by
  rcases mem_bodyUops mem with mode | retire | before | main | after
  · cases inMode_of_mem mode <;> cases asks
  · cases inRetire_of_mem retire <;> cases asks
  · exact before
  · cases inMain_of_mem main <;> cases asks
  · cases inAfter_of_mem after <;> cases asks

theorem refunds_bodyUops_eq : refunds ((i.bodyUops o).map .uop)
    = refunds ((i.modeUops o).map .uop) + refunds ((i.afterUops o).map .uop) := by
  have retire := HostOp.refunds_of_plain (i.plain_retireUops o)
  have main := HostOp.refunds_of_plain i.plain_mainUops
  simp only [bodyUops, List.map_append, HostOp.refunds_append, retire, i.refunds_beforeUops, main,
    Nat.add_zero]

/-- What an instruction gives back is two cycles less than its cost at worst, or fewer. -/
theorem refunds_bodyUops : refunds ((i.bodyUops o).map .uop) + 2 ≤ (i.maxCycles o).toNat := by
  have two := i.two_le_maxCycles o
  rw [i.refunds_bodyUops_eq o]
  rcases i.refunds_modeUops o with quiet | ⟨one, other, three⟩
  · rcases i.refunds_afterUops o with quiet' | ⟨rest, _⟩ <;> omega
  · rcases i.refunds_afterUops o with quiet | ⟨_, relative, _⟩
    · omega
    · exact absurd relative other

theorem refunds_bodyUops_of_asks {u : Uop} (mem : u ∈ i.bodyUops o)
    (asks : (HostOp.uop u).asks = true) : refunds ((i.bodyUops o).map .uop) ≤ 1 := by
  rw [i.refunds_bodyUops_eq o]
  rcases i.refunds_afterUops o with quiet | ⟨_, _, silent⟩
  · rcases i.refunds_modeUops o with quiet' | ⟨one, _⟩ <;> omega
  · rw [silent u (i.mem_beforeUops_of_asks o mem asks)] at asks
    cases asks

end Instruction

namespace Record

open HostOp (uop)

variable {M : Type} [GuestMemory M] {m : M} {o : LoweringOptions} {k : Known} {r : Record}

theorem plain_observeUops (o : LoweringOptions) (i : Instruction) :
    ((i.observeUops o).map uop).all HostOp.plain = true := by
  unfold Instruction.observeUops
  split <;> rfl

theorem refunds_uopList_lower (m : M) (o : LoweringOptions) (a : Addr) :
    refunds ((lower m o a).uopList.map uop) =
      if (Instruction.fetch m a).needsInterpreter m then 0
      else refunds (((Instruction.fetch m a).bodyUops o).map uop) := by
  have observe := HostOp.refunds_of_plain (plain_observeUops o (Instruction.fetch m a))
  rw [uopList_lower, List.map_append, HostOp.refunds_append, observe, Nat.zero_add]
  split <;> rfl

theorem refunds_lower (m : M) (o : LoweringOptions) (a : Addr) :
    refunds ((lower m o a).uopList.map uop) + 2 ≤ (lower m o a).maxCycles.toNat := by
  change _ ≤ ((Instruction.fetch m a).maxCycles o).toNat
  rw [refunds_uopList_lower]
  split
  · exact (Instruction.fetch m a).two_le_maxCycles o
  · exact (Instruction.fetch m a).refunds_bodyUops o

theorem refunds_lower_of_asks {a : Addr} {u : Uop} (mem : u ∈ (lower m o a).uopList)
    (asks : (uop u).asks = true) : refunds ((lower m o a).uopList.map uop) ≤ 1 := by
  rw [refunds_uopList_lower]
  rw [uopList_lower] at mem
  split
  · exact Nat.zero_le 1
  · next translated =>
    rw [if_neg translated] at mem
    rcases List.mem_append.mp mem with observe | body
    · exact absurd asks
        (HostOp.silent_of_plain (plain_observeUops o _) (List.mem_map_of_mem observe))
    · exact (Instruction.fetch m a).refunds_bodyUops_of_asks o body asks

theorem plain_headUops (r : Record) : (r.headUops.map uop).all HostOp.plain = true := by
  unfold headUops
  split <;> rfl

theorem plain_closingUops (l r : Record) :
    ((closingUops l r).map uop).all HostOp.plain = true := by
  unfold closingUops
  split <;> rfl

theorem plain_onwardOps (r : Record) (post : List Record) :
    (onwardOps r post).all HostOp.plain = true := by
  unfold onwardOps
  split <;> rfl

theorem Lowered.refunds_ops (h : Lowered m o k r) (post : List Record) :
    refunds (r.ops m ++ onwardOps r post) = refunds ((lower m o r.addr).uopList.map uop) := by
  have head := HostOp.refunds_of_plain r.plain_headUops
  have closing := HostOp.refunds_of_plain (plain_closingUops (lower m o r.addr) r)
  have onward := HostOp.refunds_of_plain (plain_onwardOps r post)
  rw [HostOp.refunds_append, onward, Record.ops, HostOp.refunds_placed]
  change refunds (r.uopList.map uop) + 0 = _
  simp only [h.uops, List.map_append, HostOp.refunds_append, head, closing, HostOp.refunds_rewrite,
    Nat.zero_add, Nat.add_zero]

theorem Lowered.refunds_le (h : Lowered m o k r) (post : List Record) :
    refunds (r.ops m ++ onwardOps r post) + 2 ≤ r.maxCycles.toNat := by
  rw [h.refunds_ops post, h.maxCycles]
  exact refunds_lower m o r.addr

theorem Lowered.exists_asks (h : Lowered m o k r) {post : List Record} {op : HostOp}
    (mem : op ∈ r.ops m ++ onwardOps r post) (asks : op.asks = true) :
    ∃ u ∈ (lower m o r.addr).uopList, (uop u).asks = true := by
  rcases h.op_cases mem with rfl | ⟨_, rfl⟩ | ⟨u, body, rfl⟩ | ⟨rfl, _⟩
  · cases asks
  · cases asks
  · rw [(HostOp.ofUop_alike m _).2, (HostOp.rewrite_alike k u).2] at asks
    exact ⟨u, body, asks⟩
  · cases asks

theorem Lowered.refunds_of_asks (h : Lowered m o k r) {post : List Record} {op : HostOp}
    (mem : op ∈ r.ops m ++ onwardOps r post) (asks : op.asks = true) :
    refunds (r.ops m ++ onwardOps r post) ≤ 1 := by
  obtain ⟨u, body, asks⟩ := h.exists_asks mem asks
  rw [h.refunds_ops post]
  exact refunds_lower_of_asks body asks

/-- Most host instructions of a record: padding behind each of its micro-operations, and the jump of
a block that was cut behind it. -/
def maxHostOps : Nat :=
  (maxLowered + 2) * (maxPadding + 1) + 1

theorem Lowered.length_uops (h : Lowered m o k r) : r.uops.length ≤ maxLowered + 2 := by
  have lowered := length_lower m o r.addr
  have head : r.headUops.length ≤ 1 := by
    unfold headUops
    split <;> simp
  have closing : (closingUops (lower m o r.addr) r).length ≤ 1 := by
    unfold closingUops
    split <;> simp
  have all : r.uops.length = r.uopList.length := (List.length_map _).symm
  rw [all, h.uops, List.length_append, List.length_append, List.length_map, uopList, List.length_map]
  omega

theorem length_placed {ps : List Placed}
    (snug : ∀ p ∈ ps, p.hostSize ≤ (emit m p.uop).length + maxPadding) :
    (ps.flatMap (Placed.ops m)).length ≤ ps.length * (maxPadding + 1) := by
  induction ps with
  | nil => exact Nat.zero_le _
  | cons p ps ih =>
    rw [List.forall_mem_cons] at snug
    have rest := ih snug.2
    have here := snug.1
    rw [List.flatMap_cons, List.length_append, Placed.ops, List.length_cons, List.length_replicate,
      List.length_cons, Nat.succ_mul]
    omega

theorem Lowered.length_ops_le (h : Lowered m o k r)
    (snug : ∀ p ∈ r.uops, p.hostSize ≤ (emit m p.uop).length + maxPadding) (post : List Record) :
    (r.ops m ++ onwardOps r post).length ≤ maxHostOps := by
  have own : (r.ops m).length ≤ r.uops.length * (maxPadding + 1) := length_placed snug
  have most := Nat.mul_le_mul_right (maxPadding + 1) h.length_uops
  have onward : (onwardOps r post).length ≤ 1 := by
    unfold onwardOps
    split <;> simp
  rw [List.length_append]
  unfold maxHostOps
  omega

end Record

end Mos6502
