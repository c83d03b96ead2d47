import Mos6502.Memory.Basic

/-! Plain memory with freely chosen device ranges and thresholds.
Device accesses behave as plain ones, so it shows how accesses are translated and nothing else;
writes can be recorded. -/
namespace Mos6502

structure AddrRange where
  lo : Addr
  hi : Addr

def AddrRange.contains (r : AddrRange) (a : Addr) : Bool :=
  r.lo ≤ a && a ≤ r.hi

structure WatchedMemory where
  ram : Ram
  readRanges : List AddrRange
  writeRanges : List AddrRange
  /-- Where memory is not always plain RAM. -/
  otherRanges : List AddrRange
  readsFrom : Addr
  writesFrom : Addr
  logging : Bool
  writes : Array (Addr × UInt8)

namespace WatchedMemory

def blank : WatchedMemory where
  ram := .filled 0
  readRanges := []
  writeRanges := []
  otherRanges := []
  readsFrom := 0xFFFF
  writesFrom := 0xFFFF
  logging := false
  writes := #[]

def load (m : WatchedMemory) (a : Addr) (bytes : List UInt8) : WatchedMemory :=
  { m with ram := m.ram.setFrom a bytes }

def drainLog (m : WatchedMemory) : WatchedMemory :=
  { m with writes := #[] }

def write (m : WatchedMemory) (a : Addr) (v : UInt8) : WatchedMemory :=
  { m with
    ram := m.ram.set a v
    writes := if m.logging then m.writes.push (a, v) else m.writes }

instance : GuestMemory WatchedMemory where
  read m a := m.ram.get a
  write := write
  deviceRead m a := (m.ram.get a, m)
  deviceWrite := write
  readsDevice m a := m.readRanges.any (·.contains a)
  writesDevice m a := m.writeRanges.any (·.contains a)
  readsDeviceFrom := readsFrom
  writesDeviceFrom := writesFrom
  isPlainRam m a := !m.otherRanges.any (·.contains a)

end WatchedMemory

end Mos6502
