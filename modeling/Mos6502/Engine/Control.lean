import Mos6502.Engine.Run

/-! What a host does with an engine: start runs, ask for halts, drive the interrupt line, and
change registers, memory and options between runs. -/
namespace Mos6502.Engine

variable {M ω : Type} [GuestMemory M]

def continueRun (e : Engine M ω) : Except Fault (Progress M ω) :=
  e.run (fuelFor e.cpu.budget)

def aim (e : Engine M ω) (pc : Addr) (cycles : Int) : Engine M ω :=
  e.mapCpu fun c => { c with pc, budget := cycles }

def execute (e : Engine M ω) (pc : Addr) (cycles : Int) : Except Fault (Progress M ω) :=
  (e.aim pc cycles).continueRun

def sliceCycles : Int := 100000

/-- Run slice after slice, `n` of them at most, until the guest stops by itself. -/
def runSlices (e : Engine M ω) : Nat → Except Fault (Progress M ω)
  | 0 => return .stopped ⟨e, .ok .countdown⟩
  | n + 1 => do
    match ← (e.mapCpu fun c => { c with budget := sliceCycles }).continueRun with
    | .stopped ⟨e, .ok reason⟩ =>
      if reason = .countdown then e.runSlices n else return .stopped ⟨e, .ok reason⟩
    | other => return other

/-- Power on, go through the vector at `vector` and run for at most `slices` slices. -/
def enter (e : Engine M ω) (vector : Addr) (slices : Nat) : Except Fault (Progress M ω) :=
  let pc := GuestMemory.readWord e.memory vector
  ((e.mapCpu fun _ => { Cpu.powerOn with pc }).setPause none).runSlices slices

def requestHalt (e : Engine M ω) (bits : UInt32) : Engine M ω :=
  { e with haltRequest := e.haltRequest ||| bits }

def withdrawHalt (e : Engine M ω) (bits : UInt32) : Engine M ω :=
  { e with haltRequest := e.haltRequest &&& ~~~bits }

def holdIrq (e : Engine M ω) (held : Bool) : Engine M ω :=
  e.mapCpu fun c => { c with irq := held }

def setObserver (e : Engine M ω) (observer : Option (Observer ω)) : Engine M ω :=
  { e with observer }

/-- Change registers, flags or the budget. The next run does not go on in place. -/
def modifyCpu (e : Engine M ω) (f : Cpu → Cpu) : Engine M ω :=
  (e.mapCpu f).setPause none

/-- Change memory behind the back of compiled code, which has to be retired separately. -/
def modifyMemory (e : Engine M ω) (f : M → M) : Engine M ω :=
  e.mapBus fun ⟨memory, blocks, deviceFrom⟩ => ⟨f memory, blocks, deviceFrom⟩

def retire (e : Engine M ω) (a : Addr) : Engine M ω :=
  e.mapBus (·.retire a)

def mapCode (e : Engine M ω) (f : Translator → BlockMap → Translator × BlockMap) :
    Engine M ω :=
  let ⟨⟨cpu, ⟨memory, blocks, deviceFrom⟩⟩, translator, runner, observer, host, paused,
    haltRequest⟩ := e
  let (translator, blocks) := f translator blocks
  ⟨⟨cpu, ⟨memory, blocks, deviceFrom⟩⟩, translator, runner, observer, host, paused, haltRequest⟩

def forgetRange (e : Engine M ω) (start : Addr) (len : Nat) : Engine M ω :=
  (e.mapCode fun t blocks => t.forgetRange blocks start len).setPause none

def poke (e : Engine M ω) (a : Addr) (v : UInt8) : Engine M ω :=
  (e.retire a).modifyMemory fun m => GuestMemory.write m a v

def peek (e : Engine M ω) (a : Addr) : UInt8 :=
  GuestMemory.read e.memory a

def tracksZeroPage (e : Engine M ω) : Bool :=
  e.translator.settings.options.zeroPageCode

/-- Track stores to page zero as writes to code. Turning this on drops every block. -/
def setTracksZeroPage (e : Engine M ω) (on : Bool) : Engine M ω :=
  if on = e.tracksZeroPage then
    e
  else if on then
    (e.mapCode fun t _ => (t.setZeroPageCode on).flush).setPause none
  else
    e.mapCode fun t blocks => (t.setZeroPageCode on, blocks)

end Mos6502.Engine
