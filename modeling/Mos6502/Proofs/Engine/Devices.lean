import Mos6502.Proofs.Block.Stages
import Mos6502.Proofs.Engine.Works

/-! Device accesses of compiled code. Memory comes with its devices, and these see every access to
their pages in order; so compiled code that leaves memory as the interpreter does has made the same
accesses. It does on every page map, unless it reaches a device in page 0 or 1 past the checks. -/
namespace Mos6502

namespace Core

variable {σ : Type}

def interpreted (c : Core (PagedMemory σ)) (pc : Addr) : PagedMemory σ :=
  (Interpreter.step { c.cpu with pc } c.bus).2.memory

/-- What becomes of memory does not depend on the compiled code that the bus knows of. -/
theorem interpreted_eq {c : Core (PagedMemory σ)} (fits : c.bus.Fits) (pc : Addr) :
    c.interpreted pc = (Interpreter.step (c.machine pc).cpu
      (⟨(c.machine pc).memory⟩ : DeviceBus (PagedMemory σ))).2.memory := by
  have device := CodeBus.uniform_onDevice (Interpreter.uniform_step { c.cpu with pc }) fits
  have guest := Interpreter.step_guest { c.cpu with pc } (⟨c.bus.memory⟩ : DeviceBus (PagedMemory σ))
  rw [device] at guest
  exact (congrArg (·.2.memory) guest).symm

end Core

namespace Record

open Native Mos6502.Core

variable {σ : Type} {m : PagedMemory σ} {o : LoweringOptions} {k : Known} {r : Record}

/-- A host instruction may end so, where the interpreter leaves memory as `after`. What it hands to
the interpreter is done there. -/
def Agrees (after : PagedMemory σ) : Outcome → Core (PagedMemory σ) → Prop
  | .jump _, d | .leave .., d => d.bus.memory = after
  | .bounce a, d => d.interpreted a = after
  | .illegal _, _ => False
  | .next, _ | .stale _, _ | .charge .., _ | .observe _, _ => True

theorem agrees_of_meets {t : Task σ} (faithful : t.Faithful) {out : Outcome}
    {d : Core (PagedMemory σ)} (fits : d.bus.Fits) (meets : t.Meets out d) :
    Agrees t.performed.2.memory out d := by
  cases out with
  | next | stale | charge | observe => trivial
  | illegal => exact meets
  | jump => exact congrArg Machine.memory meets.1.lands
  | bounce a =>
    obtain ⟨rfl, untouched, _⟩ := meets
    change d.interpreted t.instr.addr = t.performed.2.memory
    rw [interpreted_eq fits, untouched.lands, faithful.step]
  | leave a why =>
    obtain ⟨_, untouched, exit⟩ := meets
    have kept : t.performed.2 = ⟨t.start.memory⟩ := (Machine.perform_exit exit).2.1
    rw [kept]
    exact congrArg Machine.memory untouched.lands

/-- The host code of an instruction reads from devices, writes to them and stores what the
interpreter does, on the same bus and from the same registers. -/
theorem Lowered.accesses_agree (h : Lowered m o k r) {post : List Record}
    (ends : r.endsBlock = true → post = []) {c : Core (PagedMemory σ)} (fits : c.bus.Fits)
    (pages : m.pages = c.bus.memory.pages) (holds : k.Holds c.cpu)
    (plain : (c.machine r.addr).Plain)
    (bytes : ∀ j < r.len.toNat, c.bus.memory.ram.get (r.addr + UInt16.ofNat j)
      = m.ram.get (r.addr + UInt16.ofNat j))
    (suits : (r.instruction m).Suits c.cpu c.bus.memory) :
    Along (fun _ => Agrees (c.interpreted r.addr)) (fun d => d.bus.memory = c.interpreted r.addr)
      (r.ops m ++ onwardOps r post) c := by
  have faithful : (task m o r post c).Faithful := h.faithful plain bytes
  have after : c.interpreted r.addr = (task m o r post c).performed.2.memory := by
    rw [interpreted_eq fits, ← faithful.step]
    rfl
  rw [after]
  refine (h.runs ends fits suits pages holds).of_fits fits ?_ ?_
  · exact fun _ _ _ fits meets => agrees_of_meets faithful fits meets
  · exact fun _ _ reached => congrArg Machine.memory reached.lands

/-- A device that keeps what is done to it, and reads as the low byte of the address. -/
def echo : Device (List Access) where
  state := []
  onRead done a := (lowByte a, done ++ [.read a (lowByte a)])
  onWrite done a v := done ++ [.write a v]

def pointing : PagedMemory (List Access) :=
  (((PagedMemory.blank.markPages 0 0xFF .device).markPages 0x1100 0x11FF .device).attach
    (some echo)).load 0x0200 [0x91, 0x10]

def points : Core (PagedMemory (List Access)) :=
  ⟨{ Cpu.powerOn with a := 7, y := 5 }, ⟨pointing, .empty, GuestMemory.deviceFrom pointing⟩⟩

/-- Two reads in page zero, then the write. -/
theorem accesses_agree_pointing :
    (points.interpreted 0x0200).device.map (·.state)
        = some [.read 0x10 0x10, .read 0x11 0x11, .write 0x1115 7] ∧
      Along (fun _ => Agrees (points.interpreted 0x0200))
        (fun d => d.bus.memory = points.interpreted 0x0200)
        ((lower pointing {} 0x0200).ops pointing ++ onwardOps (lower pointing {} 0x0200) [])
        points := by
  -- The record stays opaque: to unify the statements would be to run its host code.
  obtain ⟨r, is⟩ : ∃ r, r = lower pointing {} 0x0200 := ⟨_, rfl⟩
  have lowered : Lowered pointing {} {} r := is ▸ lowered_lower pointing {} 0x0200
  have addr : r.addr = 0x0200 := by rw [is]; rfl
  have plain : (points.machine r.addr).Plain := by
    rw [addr]
    decide +kernel
  have suits : (r.instruction pointing).Suits points.cpu pointing := by
    rw [is]
    refine ⟨fun used => absurd used ?_, fun change => absurd change ?_, fun twice => absurd twice ?_⟩ <;>
      decide +kernel
  rw [← is]
  refine ⟨by decide +kernel, ?_⟩
  rw [← addr]
  exact lowered.accesses_agree (c := points) (fun _ => rfl) rfl rfl (holds_unknown points.cpu) plain
    (fun _ _ => rfl) suits

/-- An increment of a byte on a device, which compiled code does not give the old value first. -/
def counting : PagedMemory Unit :=
  (PagedMemory.blank.markPages 0 0xFF .device).withLog.load 0x0200 [0xE6, 0x10]

example :
    (execOp (HostOp.ofUop counting (.raw 0xE6 0x10))
        (bare Cpu.powerOn counting)).2.bus.memory.writes = #[(0x10, 1)] ∧
      ((bare Cpu.powerOn counting).interpreted 0x0200).writes = #[(0x10, 0), (0x10, 1)] := by
  decide +kernel

end Record

end Mos6502
