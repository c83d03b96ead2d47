import Mos6502.Engine.Native
import Mos6502.Halt
import Mos6502.Translator.Compile

/-! The engine: a processor, its memory, the code compiled so far, and what the host supplies. -/
namespace Mos6502

structure Position where
  ip : Nat
  /-- The address the block was entered at. -/
  block : Addr
  /-- The host offset the block was entered at. -/
  entry : Nat
  deriving DecidableEq

/-- Where a run stopped for want of cycles, so that the next one can go on in place. -/
structure Pause where
  pc : Addr
  pos : Position
  generation : Nat
  deriving DecidableEq

/-- Executes the one instruction at the program counter, on the state `ω` of the host. -/
abbrev InstructionRunner (M ω : Type) :=
  ω → Cpu → CodeBus M → (Step × Cpu) × CodeBus M × ω

/-- Sees an instruction about to be executed; true stops the run before it. -/
abbrev Observer (ω : Type) :=
  ω → Addr → Cpu → Bool × ω

structure Engine (M ω : Type) where
  core : Core M
  translator : Translator
  runner : InstructionRunner M ω
  observer : Option (Observer ω)
  /-- What the runner and the observer keep between calls. -/
  host : ω
  paused : Option Pause
  haltRequest : UInt32

def referenceRunner {M ω : Type} [GuestMemory M] : InstructionRunner M ω :=
  fun host cpu bus =>
    let (done, bus) := Interpreter.step cpu bus
    (done, bus, host)

namespace Engine

variable {M ω : Type} [GuestMemory M]

def create (memory : M) (config : Config) (runner : InstructionRunner M ω) (host : ω) :
    Except EngineError (Engine M ω) :=
  match config.validate with
  | .error problem => .error (.invalidConfig problem.message)
  | .ok () =>
    let deviceFrom := GuestMemory.deviceFrom memory
    .ok {
      core := ⟨.powerOn, ⟨memory, .empty, deviceFrom⟩⟩
      translator := .ofConfig config deviceFrom
      runner
      observer := none
      host
      paused := none
      haltRequest := 0 }

def cpu (e : Engine M ω) : Cpu :=
  e.core.cpu

def memory (e : Engine M ω) : M :=
  e.core.bus.memory

def blocks (e : Engine M ω) : BlockMap :=
  e.core.bus.blocks

def mapCpu (e : Engine M ω) (f : Cpu → Cpu) : Engine M ω :=
  let ⟨⟨cpu, bus⟩, translator, runner, observer, host, paused, haltRequest⟩ := e
  ⟨⟨f cpu, bus⟩, translator, runner, observer, host, paused, haltRequest⟩

def mapBus (e : Engine M ω) (f : CodeBus M → CodeBus M) : Engine M ω :=
  let ⟨⟨cpu, bus⟩, translator, runner, observer, host, paused, haltRequest⟩ := e
  ⟨⟨cpu, f bus⟩, translator, runner, observer, host, paused, haltRequest⟩

def setPause (e : Engine M ω) (paused : Option Pause) : Engine M ω :=
  { e with paused }

end Engine

end Mos6502
