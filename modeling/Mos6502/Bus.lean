import Mos6502.Memory.Basic

/-! A bus is what an instruction reads from and writes to. -/
namespace Mos6502

class Bus (B : Type) where
  read : B → Addr → UInt8 × B
  write : B → Addr → UInt8 → B

namespace Bus

variable {B : Type} [Bus B]

def fetch (a : Addr) : StateM B UInt8 :=
  fun bus => read bus a

def store (a : Addr) (v : UInt8) : StateM B Unit :=
  fun bus => ((), write bus a v)

/-- The word at `a`; its high byte comes from the same page. -/
def fetchPointer (a : Addr) : StateM B UInt16 := do
  let lo ← fetch a
  let hi ← fetch (nextInPage a)
  return word lo hi

end Bus

structure DeviceBus (M : Type) where
  memory : M

instance {M : Type} [GuestMemory M] : Bus (DeviceBus M) where
  read b a :=
    let (v, m) := GuestMemory.deviceRead b.memory a
    (v, ⟨m⟩)
  write b a v := ⟨GuestMemory.deviceWrite b.memory a v⟩

inductive Access where
  | read (addr : Addr) (value : UInt8)
  | write (addr : Addr) (value : UInt8)
  deriving DecidableEq

structure Recorded (B : Type) where
  bus : B
  accesses : Array Access

instance {B : Type} [Bus B] : Bus (Recorded B) where
  read r a :=
    let (v, bus) := Bus.read r.bus a
    (v, ⟨bus, r.accesses.push (.read a v)⟩)
  write r a v := ⟨Bus.write r.bus a v, r.accesses.push (.write a v)⟩

end Mos6502
