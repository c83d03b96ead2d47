/-! Why a run handed control back. Several reasons can hold at once. -/
namespace Mos6502

structure Halt where
  bits : UInt32
  deriving DecidableEq

namespace Halt

def none : Halt := ⟨0⟩
def exit : Halt := ⟨1⟩
def debugBreak : Halt := ⟨2⟩
/-- The budget ran out at a countdown. -/
def countdown : Halt := ⟨4⟩
def externalHalt : Halt := ⟨8⟩

def all : Halt := ⟨15⟩

def ofBits (bits : UInt32) : Halt :=
  ⟨bits &&& all.bits⟩

def union (h o : Halt) : Halt :=
  ⟨h.bits ||| o.bits⟩

def inter (h o : Halt) : Halt :=
  ⟨h.bits &&& o.bits⟩

def complement (h : Halt) : Halt :=
  ofBits (~~~h.bits)

def isEmpty (h : Halt) : Bool :=
  h.bits == 0

def contains (h o : Halt) : Bool :=
  h.bits &&& o.bits == o.bits

def intersects (h o : Halt) : Bool :=
  h.bits &&& o.bits != 0

/-- The guest itself asked to stop. -/
def isDeliberate (h : Halt) : Bool :=
  h.intersects (exit.union debugBreak)

def names (h : Halt) : List String :=
  ([(exit, "EXIT"), (debugBreak, "DEBUG_BREAK"), (countdown, "COUNTDOWN"),
    (externalHalt, "EXTERNAL_HALT")].filter fun (r, _) => h.contains r).map (·.2)

def toText (h : Halt) : String :=
  "|".intercalate h.names

end Halt

end Mos6502
