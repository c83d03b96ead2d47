import Mos6502.Memory.Watched
import Mos6502.Proofs.Memory.Paged
import Mos6502.Proofs.Native.Parts

/-! Which accesses to absolute addresses are left to the interpreter. Of the addresses that an
operand can reach only the first and the last are asked for devices. Between them lies at most one
page boundary, so devices that fill whole pages are always found; a single register is not. -/
namespace Mos6502

variable {M : Type} [GuestMemory M]

namespace Instruction

def HasRange (i : Instruction) : Prop :=
  i.operation.mode = .absolute ∨ i.operation.mode = .absoluteX ∨ i.operation.mode = .absoluteY

instance (i : Instruction) : Decidable i.HasRange :=
  inferInstanceAs (Decidable (_ ∨ _))

def MayAccess (i : Instruction) (x : Addr) : Prop :=
  distance i.operand x ≤ if i.operation.mode = .absolute then 0 else 0xFF

instance (i : Instruction) (x : Addr) : Decidable (i.MayAccess x) :=
  inferInstanceAs (Decidable (_ ≤ _))

def Wraps (i : Instruction) : Prop :=
  i.operation.mode ≠ .absolute ∧ 0xFFFF < i.operand.toNat + 0xFF

instance (i : Instruction) : Decidable i.Wraps :=
  inferInstanceAs (Decidable (_ ∧ _))

def HitsDevice (m : M) (i : Instruction) (x : Addr) : Prop :=
  (i.operation.memUse.reads = true ∧ GuestMemory.readsDevice m x = true) ∨
    (i.operation.memUse.writes = true ∧ GuestMemory.writesDevice m x = true)

instance (m : M) (i : Instruction) (x : Addr) : Decidable (i.HitsDevice m x) :=
  inferInstanceAs (Decidable (_ ∨ _))

variable {m : M} {o : LoweringOptions} {i : Instruction} {x : Addr}

theorem mayAccess_operand (i : Instruction) : i.MayAccess i.operand := by
  unfold MayAccess
  rw [distance_self]
  exact Nat.zero_le _

theorem mayAccess_rangeEnd (i : Instruction) : i.MayAccess i.rangeEnd := by
  unfold MayAccess rangeEnd
  split
  · exact Nat.le_of_eq (distance_self i.operand)
  · have far : distance i.operand (i.operand + 0xFF) = 0xFF :=
      (add_ofNat_eq_iff i.operand _ (i := 0xFF) (by decide)).mp rfl
    exact Nat.le_of_eq far

theorem rangeEnd_lt_iff (i : Instruction) : i.rangeEnd < i.operand ↔ i.Wraps := by
  have inside := i.operand.toNat_lt
  unfold rangeEnd Wraps
  by_cases mode : i.operation.mode = .absolute
  · simp [mode, UInt16.lt_irrefl]
  · rw [if_neg mode, UInt16.lt_iff_toNat_lt, UInt16.toNat_add]
    change (i.operand.toNat + 255) % 65536 < _ ↔ _
    simp only [ne_eq, mode, not_false_eq_true, true_and]
    omega

theorem needsInterpreter_iff (ranged : i.HasRange) :
    i.needsInterpreter m = true ↔
      i.Wraps ∨ i.HitsDevice m i.operand ∨ i.HitsDevice m i.rangeEnd := by
  have asks : i.needsInterpreter m = i.rangeNeedsInterpreter m := by
    unfold needsInterpreter
    rcases ranged with mode | mode | mode <;> rw [mode]
  rw [asks, ← rangeEnd_lt_iff]
  simp only [rangeNeedsInterpreter, HitsDevice, Bool.or_eq_true, Bool.and_eq_true,
    decide_eq_true_eq]
  constructor
  · rintro ((wraps | ⟨reads, first | last⟩) | ⟨writes, first | last⟩)
    · exact .inl wraps
    · exact .inr (.inl (.inl ⟨reads, first⟩))
    · exact .inr (.inr (.inl ⟨reads, last⟩))
    · exact .inr (.inl (.inr ⟨writes, first⟩))
    · exact .inr (.inr (.inr ⟨writes, last⟩))
  · rintro (wraps | (⟨reads, first⟩ | ⟨writes, first⟩) | (⟨reads, last⟩ | ⟨writes, last⟩))
    · exact .inl (.inl wraps)
    · exact .inl (.inr ⟨reads, .inl first⟩)
    · exact .inr ⟨writes, .inl first⟩
    · exact .inl (.inr ⟨reads, .inr last⟩)
    · exact .inr ⟨writes, .inr last⟩

theorem interpret_not_mem_bodyUops (i : Instruction) (o : LoweringOptions) (a : Addr) :
    .interpret a ∉ i.bodyUops o := by
  intro mem
  rcases mem_bodyUops mem with mem | mem | mem | mem | mem
  · cases inMode_of_mem mem
  · cases inRetire_of_mem mem
  · cases inBefore_of_mem mem
  · cases inMain_of_mem mem
  · cases inAfter_of_mem mem

end Instruction

namespace Record

/-- The interpreter executes the instruction, after it has been shown, and the block ends. -/
def FallsBack (o : LoweringOptions) (r : Record) : Prop :=
  r.uopList = (if o.debug then [.observe r.addr] else []) ++ [.interpret r.addr] ∧
    r.endsBlock = true

instance (o : LoweringOptions) (r : Record) : Decidable (r.FallsBack o) :=
  inferInstanceAs (Decidable (_ ∧ _))

variable {m : M} {o : LoweringOptions} {pc : Addr}

theorem fallsBack_lower (needs : (Instruction.fetch m pc).needsInterpreter m = true) :
    (lower m o pc).FallsBack o := by
  refine ⟨?_, by simp [lower, needs]⟩
  rw [uopList_lower, if_pos needs]
  rfl

theorem translated_lower (translated : (Instruction.fetch m pc).needsInterpreter m = false)
    (a : Addr) : .interpret a ∉ (lower m o pc).uopList := by
  intro mem
  rw [uopList_lower, translated, if_neg Bool.false_ne_true] at mem
  rcases List.mem_append.mp mem with mem | mem
  · cases Instruction.observe_of_mem mem
  · exact Instruction.interpret_not_mem_bodyUops _ o a mem

theorem fallsBack_lower_iff :
    (lower m o pc).FallsBack o ↔ (Instruction.fetch m pc).needsInterpreter m = true := by
  refine ⟨?_, fallsBack_lower⟩
  rintro ⟨uops, _⟩
  cases needs : (Instruction.fetch m pc).needsInterpreter m with
  | true => rfl
  | false =>
    refine absurd ?_ (translated_lower (o := o) needs (lower m o pc).addr)
    simp [uops]

end Record

def WholePages (m : M) : Prop :=
  ∀ a b, highByte a = highByte b → GuestMemory.readsDevice m a = GuestMemory.readsDevice m b ∧
    GuestMemory.writesDevice m a = GuestMemory.writesDevice m b

theorem PagedMemory.wholePages {σ : Type} (m : PagedMemory σ) : WholePages m := by
  intro a b same
  have kind : m.kindAt a = m.kindAt b := kindAt_of_page same
  constructor
  · exact congrArg (· == PageKind.device) kind
  · exact congrArg (· == PageKind.device) kind

namespace Instruction

variable {m : M} {i : Instruction} {x : Addr}

theorem highByte_of_mayAccess (access : i.MayAccess x) :
    highByte x = highByte i.operand ∨ highByte x = highByte i.rangeEnd := by
  unfold MayAccess at access
  unfold rangeEnd
  by_cases mode : i.operation.mode = .absolute
  · rw [if_pos mode] at access
    exact .inl (congrArg highByte ((distance_eq_zero_iff _ _).mp (Nat.le_zero.mp access)))
  · rw [if_neg mode] at access ⊢
    have small : distance i.operand x < 256 := by omega
    have there : x = i.operand + (UInt8.ofNat (distance i.operand x)).toUInt16 := by
      apply UInt16.toNat_inj.mp
      have hx := x.toNat_lt
      have hi := i.operand.toNat_lt
      rw [UInt16.toNat_add, UInt8.toNat_toUInt16, UInt8.toNat_ofNat_of_lt' small, distance_eq]
      omega
    rw [there]
    exact PagedMemory.highByte_indexed i.operand _

theorem HitsDevice.of_page {y : Addr} (hits : i.HitsDevice m x) (pages : WholePages m)
    (same : highByte x = highByte y) : i.HitsDevice m y := by
  obtain ⟨reads, writes⟩ := pages x y same
  unfold HitsDevice at hits ⊢
  rwa [← reads, ← writes]

end Instruction

/-- How an instruction with an absolute operand is lowered, with the devices where they are. -/
structure FallsBackWell (m : M) (o : LoweringOptions) (pc : Addr) (i : Instruction) : Prop where
  exactly : (lower m o pc).FallsBack o ↔
    i.Wraps ∨ i.HitsDevice m i.operand ∨ i.HitsDevice m i.rangeEnd
  /-- No interpreter is called without a reason. -/
  translated : ¬ i.Wraps → (∀ x, i.MayAccess x → ¬ i.HitsDevice m x) →
    ∀ a, .interpret a ∉ (lower m o pc).uopList
  /-- No device is overlooked that has pages to itself. -/
  pages : WholePages m →
    ((lower m o pc).FallsBack o ↔ i.Wraps ∨ ∃ x, i.MayAccess x ∧ i.HitsDevice m x)

/-- Devices are looked for at the two ends of the range and nowhere between. -/
theorem falls_back_at_ends (m : M) (o : LoweringOptions) (pc : Addr)
    (ranged : (Instruction.fetch m pc).HasRange) :
    FallsBackWell m o pc (Instruction.fetch m pc) := by
  generalize is : Instruction.fetch m pc = i at ranged
  have asked := Instruction.needsInterpreter_iff (m := m) ranged
  have exactly : (lower m o pc).FallsBack o ↔
      i.Wraps ∨ i.HitsDevice m i.operand ∨ i.HitsDevice m i.rangeEnd := by
    rw [Record.fallsBack_lower_iff, is, asked]
  refine ⟨exactly, ?_, ?_⟩
  · intro stays plain
    apply Record.translated_lower
    rw [is, Bool.eq_false_iff, ne_eq, asked]
    rintro (wraps | first | last)
    · exact stays wraps
    · exact plain _ i.mayAccess_operand first
    · exact plain _ i.mayAccess_rangeEnd last
  · intro pages
    rw [exactly]
    constructor
    · rintro (wraps | first | last)
      · exact .inl wraps
      · exact .inr ⟨_, i.mayAccess_operand, first⟩
      · exact .inr ⟨_, i.mayAccess_rangeEnd, last⟩
    · rintro (wraps | ⟨x, access, hits⟩)
      · exact .inl wraps
      · rcases Instruction.highByte_of_mayAccess access with page | page
        · exact .inr (.inl (hits.of_page pages page))
        · exact .inr (.inr (hits.of_page pages page))

/-- A load from $1FF0 + X; page $20 is a device. -/
def nearDevice : PagedMemory Unit :=
  (PagedMemory.blank.markPages 0x2000 0x20FF .device).load 0x1000 [0xBD, 0xF0, 0x1F]

theorem falls_back_near_device :
    (Instruction.fetch nearDevice 0x1000).HasRange ∧
      FallsBackWell nearDevice {} 0x1000 (Instruction.fetch nearDevice 0x1000) ∧
      (lower nearDevice {} 0x1000).FallsBack {} := by
  have ranged : (Instruction.fetch nearDevice 0x1000).HasRange := by decide +kernel
  exact ⟨ranged, falls_back_at_ends nearDevice {} 0x1000 ranged, by decide +kernel⟩

/-- A load from $2000 + X; the one register of a device is at $2010. -/
def oneRegister : WatchedMemory :=
  { WatchedMemory.blank.load 0x1000 [0xBD, 0x00, 0x20] with
    readRanges := [⟨0x2010, 0x2010⟩], readsFrom := 0x2010 }

/-- The register is in range, and is read as plain memory. -/
theorem register_overlooked :
    ¬ (Instruction.fetch oneRegister 0x1000).Wraps ∧
      (Instruction.fetch oneRegister 0x1000).MayAccess 0x2010 ∧
      (Instruction.fetch oneRegister 0x1000).HitsDevice oneRegister 0x2010 ∧
      (lower oneRegister {} 0x1000).uopList = [.raw 0xBD 0x2000, .testA] ∧
      (lower oneRegister {} 0x1000).endsBlock = false := by
  decide +kernel

end Mos6502
