import Mos6502.BlockMap
import Mos6502.Bus
import Mos6502.Memory.Basic

/-! Guest memory with the code compiled from it. A write on this bus retires the code it hits. -/
namespace Mos6502

structure CodeBus (M : Type) where
  memory : M
  blocks : BlockMap
  /-- Accesses from here on are device accesses. -/
  deviceFrom : Addr

namespace CodeBus

variable {M : Type} [GuestMemory M] [PlainLoad M]

def load (b : CodeBus M) (a : Addr) : UInt8 × CodeBus M :=
  let ⟨memory, blocks, deviceFrom⟩ := b
  if deviceFrom ≤ a then
    let (v, memory) := GuestMemory.deviceRead memory a
    (v, ⟨memory, blocks, deviceFrom⟩)
  else
    let (v, memory) := PlainLoad.load memory a
    (v, ⟨memory, blocks, deviceFrom⟩)

/-- A store that retires nothing. -/
def put (b : CodeBus M) (a : Addr) (v : UInt8) : CodeBus M :=
  let ⟨memory, blocks, deviceFrom⟩ := b
  if deviceFrom ≤ a then
    ⟨GuestMemory.deviceWrite memory a v, blocks, deviceFrom⟩
  else
    ⟨GuestMemory.write memory a v, blocks, deviceFrom⟩

def retire (b : CodeBus M) (a : Addr) : CodeBus M :=
  let ⟨memory, blocks, deviceFrom⟩ := b
  ⟨memory, blocks.retire a, deviceFrom⟩

instance : Bus (CodeBus M) where
  read := load
  write b a v := (b.retire a).put a v

end CodeBus

end Mos6502
