/-! What a host chooses when it creates an engine. -/
namespace Mos6502

structure Optimizations where
  bits : UInt32
  deriving DecidableEq

namespace Optimizations

def none : Optimizations := ⟨0⟩
def peephole : Optimizations := ⟨1⟩
def all : Optimizations := ⟨1⟩

/-- The passes `o` are all enabled; the empty set is not a pass. -/
def contains (s o : Optimizations) : Bool :=
  (s.bits &&& o.bits == o.bits) && o.bits != 0

def union (s o : Optimizations) : Optimizations :=
  ⟨s.bits ||| o.bits⟩

def inter (s o : Optimizations) : Optimizations :=
  ⟨s.bits &&& o.bits⟩

end Optimizations

structure Config where
  /-- Most guest instructions in one block; less than one counts as one. -/
  maxOps : Nat := 65536
  /-- Stores to page zero retire code there. -/
  zeroPageCode : Bool := false
  exactTimings : Bool := true
  debug : Bool := false
  optimizations : Optimizations := .all
  arenaSize : Nat := 16777216
  /-- Bytes set aside for one compile. -/
  windowSize : Nat := 4096

inductive ConfigProblem where
  | windowTooSmall (window minimum : Nat)
  | arenaTooSmall (arena window : Nat)
  | arenaTooLarge (arena : Nat)
  deriving DecidableEq

def ConfigProblem.message : ConfigProblem → String
  | windowTooSmall window minimum =>
    s!"compile_window_size {window} is below the minimum of {minimum}"
  | arenaTooSmall arena window =>
    s!"code_arena_size {arena} cannot hold a compile window of {window}"
  | arenaTooLarge arena =>
    s!"code_arena_size {arena} does not fit a 32-bit host offset"

namespace Config

/-- One fully expanded instruction and a jump fit a window of this size. -/
def minWindowSize : Nat := 256

def maxHostOffset : Nat := 0xFFFFFFFF

def blockLimit (c : Config) : Nat :=
  max c.maxOps 1

def validate (c : Config) : Except ConfigProblem Unit :=
  if c.windowSize < minWindowSize then
    .error (.windowTooSmall c.windowSize minWindowSize)
  else if c.arenaSize < c.windowSize then
    .error (.arenaTooSmall c.arenaSize c.windowSize)
  else if maxHostOffset < c.arenaSize then
    .error (.arenaTooLarge c.arenaSize)
  else
    .ok ()

theorem validate_eq_ok_iff (c : Config) :
    c.validate = .ok () ↔
      minWindowSize ≤ c.windowSize ∧ c.windowSize ≤ c.arenaSize ∧ c.arenaSize ≤ maxHostOffset := by
  unfold validate
  split
  · next small => exact ⟨(nomatch ·), fun h => absurd small (Nat.not_lt.mpr h.1)⟩
  · next room =>
    split
    · next short => exact ⟨(nomatch ·), fun h => absurd short (Nat.not_lt.mpr h.2.1)⟩
    · next fits =>
      split
      · next large => exact ⟨(nomatch ·), fun h => absurd large (Nat.not_lt.mpr h.2.2)⟩
      · next offsets =>
        exact ⟨fun _ => ⟨Nat.not_lt.mp room, Nat.not_lt.mp fits, Nat.not_lt.mp offsets⟩,
          fun _ => rfl⟩

end Config

end Mos6502
