import Mos6502.AddrTable
import Mos6502.Error

/-! Which compiled block covers each guest address, and where blocks are entered.
A block dies by losing its entry, so it may be retired while its own code runs; the pointers of
dead blocks stay until something is compiled over them. -/
namespace Mos6502

structure CodePtr where
  block : Addr
  hostOffset : Nat
  deriving DecidableEq

structure BlockMap where
  ptrs : AddrTable (Option CodePtr)
  entries : AddrTable (Option Nat)

namespace BlockMap

def empty : BlockMap :=
  ⟨.filled none, .filled none⟩

def ptr? (c : BlockMap) (a : Addr) : Option CodePtr :=
  c.ptrs.get a

/-- Where to enter the block that starts at `a`, if one is live. -/
def entryAt? (c : BlockMap) (a : Addr) : Option Nat :=
  c.entries.get a

def cover (c : BlockMap) (a : Addr) (p : CodePtr) : BlockMap :=
  { c with ptrs := c.ptrs.set a (some p) }

def uncover (c : BlockMap) (a : Addr) : BlockMap :=
  { c with ptrs := c.ptrs.set a none }

def isCovered (c : BlockMap) (a : Addr) : Bool :=
  (c.ptr? a).isSome

/-- The host offset that no block can have. -/
def reservedOffset : Nat := 0xFFFFFFFF

def giveEntry (c : BlockMap) (a : Addr) (hostOffset : Nat) : Except Fault BlockMap :=
  if hostOffset = reservedOffset then .error .reservedEntry
  else .ok { c with entries := c.entries.set a (some hostOffset) }

def dropEntry (c : BlockMap) (a : Addr) : BlockMap :=
  { c with entries := c.entries.set a none }

/-- The block that covers `a`, dead or alive. -/
def owner? (c : BlockMap) (a : Addr) : Option Addr :=
  (c.ptr? a).map (·.block)

def retire (c : BlockMap) (a : Addr) : BlockMap :=
  match c.owner? a with
  | some block => c.dropEntry block
  | none => c

def blockStarts (c : BlockMap) : List Addr :=
  c.entries.addrsWhere Option.isSome

@[simp] theorem ptr?_retire (c : BlockMap) (a b : Addr) : (c.retire a).ptr? b = c.ptr? b := by
  unfold retire
  cases c.owner? a with
  | none => rfl
  | some block => rfl

theorem entryAt?_retire (c : BlockMap) (a b : Addr) :
    (c.retire a).entryAt? b = if c.owner? a = some b then none else c.entryAt? b := by
  unfold retire
  cases c.owner? a with
  | none => simp
  | some block =>
    by_cases same : block = b
    · simp [dropEntry, entryAt?, same]
    · simp [dropEntry, entryAt?, AddrTable.get_set, same]

theorem owner?_retire (c : BlockMap) (a b : Addr) : (c.retire a).owner? b = c.owner? b := by
  unfold retire
  cases c.owner? a with
  | none => rfl
  | some block => rfl

theorem entryAt?_retire_owner (c : BlockMap) {a block : Addr} (h : c.owner? a = some block) :
    (c.retire a).entryAt? block = none := by
  simp [retire, h, dropEntry, entryAt?]

end BlockMap

end Mos6502
