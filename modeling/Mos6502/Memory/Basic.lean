import Mos6502.AddrTable

/-! Guest memory as the compiler, compiled code and the interpreter see it.
Plain accesses have no effect besides the store itself; device accesses are the path with
side effects. The predicates only decide how an access is translated. -/
namespace Mos6502

class GuestMemory (M : Type) where
  read : M → Addr → UInt8
  /-- A plain write; memory may drop it. -/
  write : M → Addr → UInt8 → M
  deviceRead : M → Addr → UInt8 × M
  deviceWrite : M → Addr → UInt8 → M
  /-- A read at the address must be a device read. -/
  readsDevice : M → Addr → Bool
  writesDevice : M → Addr → Bool
  /-- The lowest address where `readsDevice` may hold. -/
  readsDeviceFrom : M → Addr
  writesDeviceFrom : M → Addr
  /-- Plain memory for a whole run: neither write-protected nor a device. -/
  isPlainRam : M → Addr → Bool

/-- A plain read by running code. Only a memory that keeps its reads is another one behind it. -/
class PlainLoad (M : Type) where
  load : M → Addr → UInt8 × M

instance (priority := low) {M : Type} [GuestMemory M] : PlainLoad M where
  load m a := (GuestMemory.read m a, m)

def GuestMemory.deviceFrom {M : Type} [GuestMemory M] (m : M) : Addr :=
  min (readsDeviceFrom m) (writesDeviceFrom m)

def GuestMemory.readWord {M : Type} [GuestMemory M] (m : M) (a : Addr) : UInt16 :=
  word (read m a) (read m (a + 1))

end Mos6502
