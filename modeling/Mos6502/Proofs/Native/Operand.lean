import Mos6502.Proofs.Native.Task

/-! The addressing mode in host code: it leads to the address that the interpreter resolves, and
gives back the cycle that was charged for a page that is not left. -/
namespace Mos6502

theorem and_high (x : UInt16) : x &&& (0xFF00 : UInt16) = x >>> (8 : UInt16) <<< (8 : UInt16) := by
  have mask : ∀ i < 16, (0xFF00#16).getLsbD i = decide (8 ≤ i) := by decide
  apply UInt16.toBitVec_inj.mp
  ext i inside
  simp only [UInt16.toBitVec_and, UInt16.toBitVec_shiftLeft, UInt16.toBitVec_shiftRight,
    UInt16.toBitVec_ofNat, ← BitVec.getLsbD_eq_getElem, BitVec.getLsbD_and]
  change (x.toBitVec.getLsbD i && (0xFF00#16).getLsbD i) = (x.toBitVec >>> 8 <<< 8).getLsbD i
  rw [mask i inside, BitVec.getLsbD_shiftLeft, BitVec.getLsbD_ushiftRight]
  by_cases low : i < 8
  · simp [low]
  · have high : 8 ≤ i := Nat.le_of_not_lt low
    simp [low, inside, high]

theorem and_high_eq_zero (x : UInt16) : x &&& (0xFF00 : UInt16) = 0 ↔ highByte x = 0 := by
  have small := x.toNat_lt
  rw [and_high, ← UInt16.toNat_inj, ← UInt8.toNat_inj, PagedMemory.toNat_highByte,
    UInt16.toNat_shiftLeft, UInt16.toNat_shiftRight, Nat.shiftRight_eq_div_pow,
    Nat.shiftLeft_eq]
  change x.toNat / 256 * 256 % 65536 = 0 ↔ x.toNat / 256 = 0
  omega

theorem samePage_iff (a b : Addr) : samePage a b = true ↔ highByte a = highByte b := by
  have parts : highByte (a ^^^ b) = highByte a ^^^ highByte b := by
    simp [highByte, UInt16.shiftRight_xor]
  unfold samePage
  rw [beq_iff_eq, and_high_eq_zero, parts, UInt8.xor_eq_zero_iff]

theorem samePage_index {base : Addr} (first : lowByte base = 0) (index : UInt8) :
    samePage base (base + index.toUInt16) = true := by
  have hb := base.toNat_lt
  have hi := index.toNat_lt
  rw [← UInt8.toNat_inj] at first
  have first : base.toNat % 256 = 0 := by simpa [lowByte] using first
  rw [samePage_iff, ← UInt8.toNat_inj, PagedMemory.toNat_highByte, PagedMemory.toNat_highByte,
    UInt16.toNat_add, UInt8.toNat_toUInt16]
  omega

namespace Native

theorem refundSamePage_eq (base : Addr) (index : UInt8) (c : Cpu) :
    refundSamePage base index c = { c with
      budget := c.budget + if samePage base (base + index.toUInt16) then 1 else 0 } := by
  unfold refundSamePage
  split
  · rfl
  · rw [Int.add_zero]

end Native

namespace Instruction

open Interpreter Native Mos6502.Core

variable {σ : Type}

/-- Modes whose index may cost a cycle. -/
def indexedModes : List AddrMode :=
  [.absoluteX, .absoluteY, .indirectIndexed]

/-- The cycles charged for an instruction that is no branch: one more where one may be given
back. -/
theorem maxCycles_indexed (i : Instruction) (o : LoweringOptions)
    (mode : i.operation.mode ∈ indexedModes) :
    (i.maxCycles o).toNat = i.operation.cycles.toNat + if i.refundsCrossing o then 1 else 0 := by
  have small := i.cycles_bounds.2
  have more : (i.operation.cycles + 1).toNat = i.operation.cycles.toNat + 1 := by
    rw [UInt8.toNat_add]
    change (i.operation.cycles.toNat + 1) % 256 = _
    omega
  unfold maxCycles refundsCrossing
  cases o.exactTimings with
  | false => simp
  | true =>
    simp only [indexedModes, List.mem_cons, List.not_mem_nil, or_false] at mode
    rcases mode with mode | mode | mode <;>
    · simp only [mode, Bool.not_true, Bool.false_eq_true, if_false, Bool.true_and, Bool.and_eq_true,
        beq_iff_eq]
      split
      · exact more
      · simp

theorem maxCycles_plain (i : Instruction) (o : LoweringOptions)
    (mode : i.operation.mode ∉ indexedModes) (straight : i.operation.mode ≠ .relative) :
    (i.maxCycles o).toNat = i.operation.cycles.toNat := by
  unfold maxCycles
  cases o.exactTimings with
  | false => simp
  | true =>
    cases hm : i.operation.mode with
    | relative => exact absurd hm straight
    | absoluteX | absoluteY | indirectIndexed => simp [indexedModes, hm] at mode
    | _ => simp

theorem maxCycles_untimed (i : Instruction) {o : LoweringOptions} (untimed : o.exactTimings = false) :
    i.maxCycles o = i.operation.cycles := by
  unfold maxCycles
  rw [untimed]
  exact UInt8.add_zero _

theorem indexPenalty_indexed {op : Operation} (r : Resolved) (mode : op.mode ∈ indexedModes) :
    indexPenalty op r = if op.memUse = .read ∧ samePage r.base r.effective = false then 1 else 0 := by
  unfold indexPenalty
  simp only [indexedModes, List.mem_cons, List.not_mem_nil, or_false] at mode
  rcases mode with mode | mode | mode <;>
  · rw [mode]
    cases op.memUse with
    | read => cases samePage r.base r.effective <;> simp
    | _ => simp

theorem indexPenalty_plain {op : Operation} (r : Resolved) (mode : op.mode ∉ indexedModes) :
    indexPenalty op r = 0 := by
  unfold indexPenalty
  split
  · next hm => simp [indexedModes, hm] at mode
  · next hm => simp [indexedModes, hm] at mode
  · next hm => simp [indexedModes, hm] at mode
  · rfl

def resolved (i : Instruction) (cpu : Cpu) (m : PagedMemory σ) :
    Resolved × DeviceBus (PagedMemory σ) :=
  resolve i.operation.mode cpu i.low i.high (i.addr + i.operation.len.toUInt16) ⟨m⟩

/-- The scratch word and the budget once the operand is found. -/
structure Pointed (i : Instruction) (o : LoweringOptions) (cpu : Cpu) (r : Resolved)
    (scratch : Addr) (budget : Int) : Prop where
  operand : i.operation.mode ∈ storeModes →
    operandAddr i.operation.mode i.operand { cpu with scratch } = r.effective
  through : i.operation.mode = .indirect → scratch = r.effective
  unspent : i.operation.mode ∉ indexedModes → budget = cpu.budget
  spent : i.operation.mode ∈ indexedModes →
    budget + (i.operation.cycles.toNat + (if o.exactTimings then indexPenalty i.operation r else 0) : Nat)
      = cpu.budget + (i.maxCycles o).toNat

/-- Of the cycle that indexing may cost, what is left is what it does cost. -/
theorem spent_indexed {i : Instruction} {o : LoweringOptions}
    (mode : i.operation.mode ∈ indexedModes) {r : Resolved}
    (stays : i.mayCrossPage = false → samePage r.base r.effective = true) (budget : Int) :
    budget + (if i.refundsCrossing o = true then if samePage r.base r.effective then 1 else 0
        else 0 : Int)
      + (i.operation.cycles.toNat + (if o.exactTimings then indexPenalty i.operation r else 0) : Nat)
      = budget + (i.maxCycles o).toNat := by
  rw [i.maxCycles_indexed o mode, indexPenalty_indexed r mode]
  unfold refundsCrossing
  cases o.exactTimings with
  | false => simp
  | true =>
    rw [Bool.true_and, if_pos rfl]
    by_cases reads : i.operation.memUse = .read
    · cases crosses : i.mayCrossPage with
      | false => simp [reads, stays crosses]
      | true =>
        cases samePage r.base r.effective <;>
        · simp [reads]
          try omega
    · simp [reads]

theorem Pointed.plain {i : Instruction} {o : LoweringOptions} {cpu : Cpu} {r : Resolved}
    {scratch : Addr} (mode : i.operation.mode ∉ indexedModes)
    (operand : i.operation.mode ∈ storeModes →
      operandAddr i.operation.mode i.operand { cpu with scratch } = r.effective)
    (through : i.operation.mode = .indirect → scratch = r.effective) :
    i.Pointed o cpu r scratch cpu.budget :=
  ⟨operand, through, fun _ => rfl, fun indexed => absurd indexed mode⟩

theorem Pointed.indexed {i : Instruction} {o : LoweringOptions} {cpu : Cpu} {r : Resolved}
    {scratch : Addr} {budget : Int} (mode : i.operation.mode ∈ indexedModes)
    (operand : operandAddr i.operation.mode i.operand { cpu with scratch } = r.effective)
    (stays : i.mayCrossPage = false → samePage r.base r.effective = true)
    (refunded : budget = cpu.budget + if i.refundsCrossing o = true then
      if samePage r.base r.effective then 1 else 0 else 0) :
    i.Pointed o cpu r scratch budget := by
  refine ⟨fun _ => operand, ?_, fun plain => absurd mode plain, ?_⟩
  · intro through
    rw [through] at mode
    simp [indexedModes] at mode
  · intro _
    rw [refunded]
    exact spent_indexed mode stays cpu.budget

theorem writes_of_refundsCrossing {i : Instruction} {o : LoweringOptions}
    (refunds : i.refundsCrossing o = true) : i.operation.memUse.writes = false := by
  cases writes : i.operation.memUse.writes with
  | false => rfl
  | true =>
    rw [refundsCrossing_of_writes writes] at refunds
    cases refunds

section Pointing

variable (i : Instruction) (o : LoweringOptions) (m : PagedMemory σ) (k : Record.Known)
  {t : Task σ} {ops : List HostOp} (cpu : Cpu) (mem : PagedMemory σ)

theorem runs_retire (a : Addr) (on : Bool) (rest : t.Runs ops (bare cpu mem)) :
    t.Runs ((if on then [Uop.retire a i.addr] else []).map (HostOp.ofUop m ∘ k.rewrite) ++ ops)
      (bare cpu mem) := by
  cases on with
  | true => exact Task.runs_next (retire_bare cpu mem a i.addr) rest
  | false => exact rest

theorem runs_retireScratch (on : Bool) (rest : t.Runs ops (bare cpu mem)) :
    t.Runs ((if on then [Uop.retireScratch i.addr] else []).map (HostOp.ofUop m ∘ k.rewrite)
      ++ ops) (bare cpu mem) := by
  cases on with
  | true => exact Task.runs_next (retire_bare cpu mem cpu.scratch i.addr) rest
  | false => exact rest

theorem runs_absolute (mode : i.operation.mode ∈ [.absoluteX, .absoluteY]) (index : UInt8)
    (found : i.resolved cpu mem = (⟨i.operand, i.operand + index.toUInt16⟩, ⟨mem⟩))
    (operand : ∀ c : Cpu, operandAddr i.operation.mode i.operand { cpu with scratch := c.scratch }
      = i.operand + index.toUInt16) (refund point : Uop)
    (refunds : execOp (HostOp.ofUop m (k.rewrite refund)) (bare cpu mem)
      = (.next, bare (refundSamePage i.operand index cpu) mem))
    (points : execOp (HostOp.ofUop m (k.rewrite point)) (bare cpu mem)
      = (.next, bare { cpu with scratch := i.operand + index.toUInt16 } mem))
    (rest : ∀ scratch budget, i.Pointed o cpu (i.resolved cpu mem).1 scratch budget →
      t.Runs ops (bare { cpu with scratch, budget } (i.resolved cpu mem).2.memory)) :
    t.Runs (((if i.refundsCrossing o then [refund] else [])
      ++ if i.operation.memUse.writes then [point, .retireScratch i.addr] else []).map
        (HostOp.ofUop m ∘ k.rewrite) ++ ops) (bare cpu mem) := by
  rw [found] at rest
  have pointed : ∀ scratch budget, budget = cpu.budget + (if i.refundsCrossing o = true then
      if samePage i.operand (i.operand + index.toUInt16) then 1 else 0 else 0) →
      i.Pointed o cpu ⟨i.operand, i.operand + index.toUInt16⟩ scratch budget := by
    intro scratch budget refunded
    refine .indexed ?_ (operand { cpu with scratch }) ?_ refunded
    · simp only [List.mem_cons, List.not_mem_nil, or_false] at mode
      rcases mode with mode | mode <;> simp [indexedModes, mode]
    · intro first
      refine samePage_index ?_ index
      simp only [List.mem_cons, List.not_mem_nil, or_false] at mode
      rcases mode with mode | mode <;> simpa [mayCrossPage, mode] using first
  cases crosses : i.refundsCrossing o with
  | true =>
    rw [writes_of_refundsCrossing crosses]
    have here := rest cpu.scratch _ (pointed cpu.scratch _ rfl)
    rw [if_pos crosses] at here
    refine Task.runs_next ?_ here
    exact refunds.trans (by rw [refundSamePage_eq])
  | false =>
    have unrefunded : cpu.budget = cpu.budget + (if i.refundsCrossing o = true then
        if samePage i.operand (i.operand + index.toUInt16) then 1 else 0 else 0) := by
      simp [crosses]
    cases i.operation.memUse.writes with
    | true =>
      have here := rest (i.operand + index.toUInt16) cpu.budget (pointed _ _ unrefunded)
      exact Task.runs_next points (i.runs_retireScratch m k _ mem true here)
    | false => exact rest cpu.scratch cpu.budget (pointed _ _ unrefunded)

theorem runs_zeroPage (mode : i.operation.mode ∈ [.zeroPageX, .zeroPageY]) (index : UInt8)
    (found : ∃ base, i.resolved cpu mem = (⟨base, (i.low + index).toUInt16⟩, ⟨mem⟩)) (point : Uop)
    (points : execOp (HostOp.ofUop m (k.rewrite point)) (bare cpu mem)
      = (.next, bare { cpu with scratch := (i.low + index).toUInt16 } mem))
    (rest : ∀ scratch budget, i.Pointed o cpu (i.resolved cpu mem).1 scratch budget →
      t.Runs ops (bare { cpu with scratch, budget } (i.resolved cpu mem).2.memory)) :
    t.Runs (([point] ++ if i.operation.memUse.writes then
        if o.zeroPageCode then [Uop.retireScratch i.addr] else [] else []).map
          (HostOp.ofUop m ∘ k.rewrite) ++ ops) (bare cpu mem) := by
  obtain ⟨base, found⟩ := found
  rw [found] at rest
  simp only [List.mem_cons, List.not_mem_nil, or_false] at mode
  have unindexed : i.operation.mode ∉ indexedModes := by
    rcases mode with mode | mode <;> simp [indexedModes, mode]
  have direct : i.operation.mode ≠ .indirect := by
    rcases mode with mode | mode <;> simp [mode]
  have operand : operandAddr i.operation.mode i.operand
      { cpu with scratch := (i.low + index).toUInt16 } = (i.low + index).toUInt16 := by
    rcases mode with mode | mode <;> rw [mode] <;> rfl
  have here := rest (i.low + index).toUInt16 cpu.budget
    (.plain unindexed (fun _ => operand) fun indirect => absurd indirect direct)
  refine Task.runs_next points ?_
  cases i.operation.memUse.writes with
  | true => exact i.runs_retireScratch m k _ mem o.zeroPageCode here
  | false => exact here

theorem runs_indirectIndexed (mode : i.operation.mode = .indirectIndexed)
    (rest : ∀ scratch budget, i.Pointed o cpu (i.resolved cpu mem).1 scratch budget →
      t.Runs ops (bare { cpu with scratch, budget } (i.resolved cpu mem).2.memory)) :
    t.Runs (((Uop.follow i.low.toUInt16 :: if i.refundsCrossing o then [.refundScratchY] else [])
      ++ if i.operation.memUse.writes then [Uop.retireScratchY i.addr] else []).map
        (HostOp.ofUop m ∘ k.rewrite) ++ ops) (bare cpu mem) := by
  have found : i.resolved cpu mem = resolve i.operation.mode cpu i.low i.high
      (i.addr + i.operation.len.toUInt16) ⟨mem⟩ := rfl
  have here := rest (i.resolved cpu mem).1.base (cpu.budget + if i.refundsCrossing o = true then
      if samePage (i.resolved cpu mem).1.base (i.resolved cpu mem).1.effective then 1 else 0
      else 0)
    (.indexed (by simp [indexedModes, mode]) (by rw [found, mode]; rfl)
      (by simp [mayCrossPage, mode]) rfl)
  rw [found, mode] at here
  refine Task.runs_next (follow_bare cpu mem i.low.toUInt16) ?_
  cases refunds : i.refundsCrossing o with
  | true =>
    rw [writes_of_refundsCrossing refunds]
    rw [if_pos refunds] at here
    refine Task.runs_next ?_ here
    change (Outcome.next, bare (refundSamePage _ _ _) _) = _
    rw [refundSamePage_eq]
    rfl
  | false =>
    rw [refunds] at here
    have same : cpu.budget + 0 = cpu.budget := Int.add_zero _
    simp only [Bool.false_eq_true, if_false, same] at here
    cases i.operation.memUse.writes with
    | true => exact Task.runs_next (retire_bare _ _ _ i.addr) here
    | false => exact here

/-- The host code of the addressing mode points at what the interpreter resolves. -/
theorem runs_pointed
    (rest : ∀ scratch budget, i.Pointed o cpu (i.resolved cpu mem).1 scratch budget →
      t.Runs ops (bare { cpu with scratch, budget } (i.resolved cpu mem).2.memory)) :
    t.Runs ((i.modeUops o ++ i.retireUops o).map (HostOp.ofUop m ∘ k.rewrite) ++ ops)
      (bare cpu mem) := by
  have found : i.resolved cpu mem = resolve i.operation.mode cpu i.low i.high
      (i.addr + i.operation.len.toUInt16) ⟨mem⟩ := rfl
  unfold modeUops retireUops
  cases hm : i.operation.mode with
  | implied | accumulator | immediate | relative =>
    have stays := rest cpu.scratch cpu.budget
      (.plain (by simp [indexedModes, hm]) (by simp [storeModes, hm]) (by simp [hm]))
    rw [found, hm] at stays
    cases i.operation.memUse.writes <;> exact stays
  | zeroPage =>
    have here := rest cpu.scratch cpu.budget
      (.plain (by simp [indexedModes, hm]) ?_ (by simp [hm]))
    · rw [found, hm] at here
      cases i.operation.memUse.writes with
      | true => exact i.runs_retire m k cpu mem i.operand o.zeroPageCode here
      | false => exact here
    · rw [found, hm]
      intro _
      simp only [operandAddr, operand, hm]
      rfl
  | absolute =>
    have here := rest cpu.scratch cpu.budget
      (.plain (by simp [indexedModes, hm]) ?_ (by simp [hm]))
    · rw [found, hm] at here
      exact i.runs_retire m k cpu mem i.operand i.operation.memUse.writes here
    · rw [found, hm]
      intro _
      simp only [operandAddr, operand, hm]
      rfl
  | zeroPageX =>
    exact i.runs_zeroPage o m k cpu mem (by simp [hm]) cpu.x ⟨_, by rw [found, hm]; rfl⟩
      (.pointZeroX i.low) rfl rest
  | zeroPageY =>
    exact i.runs_zeroPage o m k cpu mem (by simp [hm]) cpu.y ⟨_, by rw [found, hm]; rfl⟩
      (.pointZeroY i.low) rfl rest
  | indirect =>
    have here := rest (i.resolved cpu mem).1.effective cpu.budget
      (.plain (by simp [indexedModes, hm]) (by simp [storeModes, hm]) fun _ => rfl)
    rw [found, hm] at here
    have pointer : i.operand = word i.low i.high := by simp only [operand, hm]
    rw [pointer]
    cases i.operation.memUse.writes <;>
    · exact Task.runs_next (follow_bare cpu mem (word i.low i.high)) here
  | indexedIndirect =>
    have here := rest (i.resolved cpu mem).1.effective cpu.budget
      (.plain (by simp [indexedModes, hm]) (fun _ => by rw [found, hm]; rfl) (by simp [hm]))
    rw [found, hm] at here
    refine Task.runs_next (d := bare { cpu with scratch := (i.low + cpu.x).toUInt16 } mem) rfl ?_
    -- Following the scratch word is following the address in it.
    refine Task.runs_next (follow_bare { cpu with scratch := (i.low + cpu.x).toUInt16 } mem
      (i.low + cpu.x).toUInt16) ?_
    exact i.runs_retireScratch m k _ _ i.operation.memUse.writes here
  | absoluteX =>
    have base : i.operand = word i.low i.high := by simp only [operand, hm]
    exact i.runs_absolute o m k cpu mem (by simp [hm]) cpu.x (by rw [found, hm, base]; rfl)
      (fun c => by rw [hm]; rfl) (.refundX i.operand) (.pointX i.operand) rfl rfl rest
  | absoluteY =>
    have base : i.operand = word i.low i.high := by simp only [operand, hm]
    exact i.runs_absolute o m k cpu mem (by simp [hm]) cpu.y (by rw [found, hm, base]; rfl)
      (fun c => by rw [hm]; rfl) (.refundY i.operand) (.pointY i.operand) rfl rfl rest
  | indirectIndexed => exact i.runs_indirectIndexed o m k cpu mem hm rest

end Pointing

end Instruction

end Mos6502
