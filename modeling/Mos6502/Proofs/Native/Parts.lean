import Mos6502.Lowering

/-! What an instruction is lowered to, part by part. Each part holds micro-operations of a few kinds
only, whatever the instruction; so a property of all of them is read off the kinds. -/
namespace Mos6502

namespace Uop

inductive InMode : Uop → Prop
  | refundX (base : Addr) : InMode (.refundX base)
  | refundY (base : Addr) : InMode (.refundY base)
  | refundScratchY : InMode .refundScratchY
  | pointZeroX (base : UInt8) : InMode (.pointZeroX base)
  | pointZeroY (base : UInt8) : InMode (.pointZeroY base)
  | follow (addr : Addr) : InMode (.follow addr)
  | followScratch : InMode .followScratch

inductive InRetire (pc : Addr) : Uop → Prop
  | pointX (base : Addr) : InRetire pc (.pointX base)
  | pointY (base : Addr) : InRetire pc (.pointY base)
  | retire (addr : Addr) : InRetire pc (.retire addr pc)
  | retireScratch : InRetire pc (.retireScratch pc)
  | retireScratchY : InRetire pc (.retireScratchY pc)

inductive InBefore (i : Instruction) : Uop → Prop
  | interpretIfDecimal : InBefore i (.interpretIfDecimal i.addr)
  | interpretIfIrq : InBefore i (.interpretIfIrq i.addr)
  | carryIn : InBefore i .carryIn
  | borrowIn : InBefore i .borrowIn
  | overflowIn : InBefore i .overflowIn
  | pushWord (call : i.operation.mnemonic = .jsr) (w : UInt16) : InBefore i (.pushWord w)
  | pullScratch : InBefore i .pullScratch
  | incrScratch : InBefore i .incrScratch

/-- It is of the main body of the instruction. A break has raw opcodes of its own in it. -/
inductive InMain (i : Instruction) : Uop → Prop
  | raw (direct : i.operation.mnemonic ∉ [.brk, .jmp, .jsr, .rts, .unknown]) :
    InMain i (.raw i.opcode i.operand)
  | pushFlags : InMain i (.raw 0x08 0)
  | mask : InMain i (.raw 0x78 0)
  | pushWord (w : UInt16) : InMain i (.pushWord w)
  | follow (addr : Addr) : InMain i (.follow addr)
  | jump (target : Addr) : InMain i (.jump target)
  | jumpScratch : InMain i .jumpScratch
  | clearA : InMain i .clearA
  | clearX : InMain i .clearX
  | clearY : InMain i .clearY
  | undefined (unknown : i.operation.mnemonic = .unknown) : InMain i (.undefined i.opcode i.addr)

/-- It settles the flags, or gives back what a branch was charged for being taken. -/
inductive InAfter : Uop → Prop
  | carryOut : InAfter .carryOut
  | overflowOut : InAfter .overflowOut
  | borrowOut : InAfter .borrowOut
  | testA : InAfter .testA
  | testX : InAfter .testX
  | testY : InAfter .testY
  | refund (cycles : UInt8) : InAfter (.refund cycles)

end Uop

namespace Instruction

variable {o : LoweringOptions} {i : Instruction} {u : Uop}

theorem observe_of_mem (mem : u ∈ i.observeUops o) : u = .observe i.addr := by
  unfold observeUops at mem
  split at mem
  · exact List.mem_singleton.mp mem
  · cases mem

theorem inMode_of_mem (mem : u ∈ i.modeUops o) : u.InMode := by
  unfold modeUops at mem
  split at mem <;> (try split at mem) <;> simp at mem
  all_goals first
    | (subst mem; constructor)
    | (rcases mem with rfl | rfl <;> constructor)

theorem inRetire_of_mem (mem : u ∈ i.retireUops o) : u.InRetire i.addr := by
  unfold retireUops at mem
  split at mem
  · split at mem <;> (try split at mem) <;> simp at mem
    all_goals first
      | (subst mem; constructor)
      | (rcases mem with rfl | rfl <;> constructor)
  · cases mem

theorem writes_of_mem (mem : u ∈ i.retireUops o) : i.operation.memUse.writes = true := by
  unfold retireUops at mem
  split at mem
  · assumption
  · cases mem

theorem inBefore_of_mem (mem : u ∈ i.beforeUops) : u.InBefore i := by
  unfold beforeUops at mem
  split at mem <;> simp at mem
  all_goals first
    | (subst mem; constructor; done)
    | (subst mem; exact .pushWord ‹_› _)
    | (rcases mem with rfl | rfl <;> constructor)

theorem inMain_of_mem (mem : u ∈ i.mainUops) : u.InMain i := by
  unfold mainUops at mem
  cases named : i.operation.mnemonic with
  | brk =>
    rw [named] at mem
    simp only [List.mem_cons, List.not_mem_nil, or_false] at mem
    rcases mem with rfl | rfl | rfl | rfl | rfl <;> constructor
  | jmp | jsr | rts =>
    rw [named] at mem
    dsimp only at mem
    try split at mem
    all_goals
      cases List.mem_singleton.mp mem
      constructor
  | unknown =>
    rw [named] at mem
    cases List.mem_singleton.mp mem
    exact .undefined named
  | lda | ldx | ldy =>
    rw [named] at mem
    dsimp only at mem
    split at mem
    · cases List.mem_singleton.mp mem
      constructor
    · cases List.mem_singleton.mp mem
      exact .raw (by rw [named]; decide)
  | _ =>
    rw [named] at mem
    cases List.mem_singleton.mp mem
    exact .raw (by rw [named]; decide)

theorem inAfter_of_mem (mem : u ∈ i.afterUops o) : u.InAfter := by
  unfold afterUops at mem
  split at mem <;> (try split at mem) <;> simp at mem
  all_goals first
    | (subst mem; constructor)
    | (rcases mem with rfl | rfl <;> constructor)

/-- The parts of an instruction that is translated. -/
theorem mem_bodyUops (mem : u ∈ i.bodyUops o) :
    u ∈ i.modeUops o ∨ u ∈ i.retireUops o ∨ u ∈ i.beforeUops ∨ u ∈ i.mainUops ∨
      u ∈ i.afterUops o := by
  simpa [bodyUops, or_assoc] using mem

end Instruction

namespace Record

theorem uopList_lower {M : Type} [GuestMemory M] (m : M) (o : LoweringOptions) (a : Addr) :
    (lower m o a).uopList = (Instruction.fetch m a).observeUops o ++
      if (Instruction.fetch m a).needsInterpreter m then [.interpret a]
      else (Instruction.fetch m a).bodyUops o := by
  unfold lower uopList
  rw [List.map_map]
  exact List.map_id _

end Record

end Mos6502
