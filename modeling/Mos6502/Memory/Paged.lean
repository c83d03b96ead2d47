import Mos6502.Memory.Basic

/-! Flat memory whose 256 pages are RAM, ROM or a device.
Device accesses go to the device that is attached, or to the stored bytes without one; a log
records them until it is drained. -/
namespace Mos6502

inductive PageKind where
  | ram
  | rom
  | device
  deriving DecidableEq

def PageKind.name : PageKind → String
  | ram => "Ram" | rom => "Rom" | device => "Io"

structure Device (σ : Type) where
  state : σ
  onRead : σ → Addr → UInt8 × σ
  onWrite : σ → Addr → UInt8 → σ

structure PagedMemory (σ : Type) where
  ram : Ram
  pages : Vector PageKind 256
  device : Option (Device σ)
  logging : Bool
  reads : Array Addr
  writes : Array (Addr × UInt8)

namespace PagedMemory

variable {σ : Type}

def blank : PagedMemory σ where
  ram := .filled 0
  pages := Vector.replicate 256 .ram
  device := none
  logging := false
  reads := #[]
  writes := #[]

def kindAt (m : PagedMemory σ) (a : Addr) : PageKind :=
  have inside : (highByte a).toNat < 256 := (highByte a).toNat_lt
  m.pages[(highByte a).toNat]

def markPages (m : PagedMemory σ) (first last : Addr) (kind : PageKind) : PagedMemory σ :=
  { m with
    pages := m.pages.mapFinIdx fun i old _ =>
      if (highByte first).toNat ≤ i && i ≤ (highByte last).toNat then kind else old }

/-- Store bytes whatever the pages are, as a program image is loaded. -/
def load (m : PagedMemory σ) (a : Addr) (bytes : List UInt8) : PagedMemory σ :=
  { m with ram := m.ram.setFrom a bytes }

def loadVector (m : PagedMemory σ) (a target : Addr) : PagedMemory σ :=
  m.load a [lowByte target, highByte target]

def attach (m : PagedMemory σ) (device : Option (Device σ)) : PagedMemory σ :=
  { m with device := device }

def withLog (m : PagedMemory σ) : PagedMemory σ :=
  { m with logging := true }

def drainLog (m : PagedMemory σ) : PagedMemory σ :=
  { m with reads := #[], writes := #[] }

def write (m : PagedMemory σ) (a : Addr) (v : UInt8) : PagedMemory σ :=
  if m.kindAt a = .rom then m else { m with ram := m.ram.set a v }

def logRead (m : PagedMemory σ) (a : Addr) : PagedMemory σ :=
  if m.logging then { m with reads := m.reads.push a } else m

def logWrite (m : PagedMemory σ) (a : Addr) (v : UInt8) : PagedMemory σ :=
  if m.logging then { m with writes := m.writes.push (a, v) } else m

def deviceRead (m : PagedMemory σ) (a : Addr) : UInt8 × PagedMemory σ :=
  if m.kindAt a = .device then
    let m := m.logRead a
    match m.device with
    | some d =>
      let (v, state) := d.onRead d.state a
      (v, { m with device := some { d with state } })
    | none => (m.ram.get a, m)
  else
    (m.ram.get a, m)

def deviceWrite (m : PagedMemory σ) (a : Addr) (v : UInt8) : PagedMemory σ :=
  if m.kindAt a = .device then
    let m := m.logWrite a v
    match m.device with
    | some d => { m with device := some { d with state := d.onWrite d.state a v } }
    | none => { m with ram := m.ram.set a v }
  else
    m.write a v

/-- The first address of the first device page, or the last address of all. -/
def firstDevice (m : PagedMemory σ) : Addr :=
  match (List.range 256).find? fun i => m.pages[i]? == some .device with
  | some i => UInt16.ofNat i <<< 8
  | none => 0xFFFF

instance : GuestMemory (PagedMemory σ) where
  read m a := m.ram.get a
  write := write
  deviceRead := deviceRead
  deviceWrite := deviceWrite
  readsDevice m a := m.kindAt a == .device
  writesDevice m a := m.kindAt a == .device
  readsDeviceFrom := firstDevice
  writesDeviceFrom := firstDevice
  isPlainRam m a := m.kindAt a == .ram

end PagedMemory

end Mos6502
