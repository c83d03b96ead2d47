import Mos6502.Cpu.Opcode
import Mos6502.Uop.Text

/-! What can go wrong: errors that a caller gets back, and faults, which are failed checks of
the translator's own invariants. -/
namespace Mos6502

inductive EngineError where
  | undefinedOpcode (opcode : UInt8) (addr : Addr)
  | deliberateFault (addr : Addr)
  /-- Host code ran into bytes that no block put there. -/
  | strayTrap (offset : Nat)
  | invalidConfig (reason : String)
  deriving DecidableEq

namespace EngineError

def name : EngineError → String
  | undefinedOpcode .. => "UndefinedOpcode"
  | deliberateFault _ => "DeliberateFault"
  | strayTrap _ => "StrayTrap"
  | invalidConfig _ => "InvalidConfig"

def message : EngineError → String
  | undefinedOpcode opcode addr =>
    "undefined opcode " ++ Text.hex2 opcode ++ " at " ++ Text.hex4 addr
  | deliberateFault addr => "deliberate fault at " ++ Text.hex4 addr
  | strayTrap offset => "stray trap at host offset " ++ Text.hexOffset offset
  | invalidConfig reason => "invalid configuration: " ++ reason

end EngineError

inductive Fault where
  | recordFull (addr : Addr)
  | runWithoutBody (addr : Addr)
  | runWithoutCountdown (addr : Addr)
  | recordOutsideRun
  | emptyBlock
  | blockOutsideRun (addr : Addr)
  | wrongCountdown (addr : Addr) (total : UInt32) (found : Option Uop)
  | wrongTotal (addr : Addr) (recorded : Option UInt32) (total : UInt32)
  | misplacedEnd (index : Nat) (addr : Addr) (endsBlock : Bool)
  | bufferOverflow (offset : Nat)
  | offsetOverflow
  | cursorPastEnd
  | windowTooLarge (size : Nat)
  | patchPastEnd
  | advancePastEnd
  /-- The largest host offset is no entry. -/
  | reservedEntry
  | noProgress (start : Addr)
  | instructionTooLong (addr : Addr)
  | notEmitted (addr : Addr)
  | noFixup (addr : Addr)
  | zeroFixup (addr : Addr)
  | rawOpcode (mnemonic : Mnemonic)
  deriving DecidableEq

namespace Fault

def optionText (value : Option String) : String :=
  match value with
  | some text => "Some(" ++ text ++ ")"
  | none => "None"

def message : Fault → Option String
  | recordFull addr => some ("uop list full at " ++ Text.hex4 addr)
  | runWithoutBody addr => some ("countdown run at " ++ Text.hex4 addr ++ " has no body")
  | runWithoutCountdown addr =>
    some ("countdown run at " ++ Text.hex4 addr ++ " does not start with a countdown")
  | recordOutsideRun => some "first instruction of a block must start a countdown run"
  | emptyBlock => some "Verification failed: empty block"
  | blockOutsideRun addr =>
    some ("Verification failed: block at " ++ Text.hex4 addr
      ++ " does not start a countdown run")
  | wrongCountdown addr total found =>
    some ("Verification failed: run at " ++ Text.hex4 addr ++ " expects countdown of "
      ++ toString total ++ ", found " ++ optionText (found.map Uop.toStructureText))
  | wrongTotal addr recorded total =>
    some ("Verification failed: run at " ++ Text.hex4 addr ++ " records total "
      ++ optionText (recorded.map toString) ++ ", expected " ++ toString total)
  | misplacedEnd index addr endsBlock =>
    some ("Verification failed: record " ++ toString index ++ " at " ++ Text.hex4 addr
      ++ " has ends_block=" ++ toString endsBlock)
  | bufferOverflow offset => some ("code buffer overflow at " ++ Text.hexOffset offset)
  | windowTooLarge size => some ("arena window of " ++ toString size ++ " bytes does not fit")
  | noProgress start => some ("block at " ++ Text.hex4 start ++ " made no forward progress")
  | instructionTooLong addr =>
    some ("first instruction at " ++ Text.hex4 addr ++ " does not fit a compile window")
  | notEmitted addr => some ("committing unemitted instruction at " ++ Text.hex4 addr)
  | noFixup addr => some ("no cycle fixup recorded for " ++ Text.hex4 addr)
  | zeroFixup addr => some ("zero cycle fixup at " ++ Text.hex4 addr)
  | rawOpcode mnemonic => some (mnemonic.name ++ " is never emitted as a raw opcode")
  | offsetOverflow | cursorPastEnd | patchPastEnd | advancePastEnd | reservedEntry => none

end Fault

theorem bind_eq_ok {ε α β : Type} {x : Except ε α} {f : α → Except ε β} {b : β} :
    x >>= f = .ok b ↔ ∃ a, x = .ok a ∧ f a = .ok b := by
  cases x with
  | error e =>
    constructor
    · intro h; cases h
    · rintro ⟨a, h, _⟩; cases h
  | ok a =>
    constructor
    · intro h; exact ⟨a, rfl, h⟩
    · rintro ⟨_, h, hb⟩; cases h; exact hb

theorem exists_ok_of_map {ε α β : Type} {x : Except ε α} {f : α → β} {b : β}
    (h : x.toOption.map f = some b) : ∃ a, x = .ok a ∧ f a = b := by
  cases x with
  | error e => cases h
  | ok a => exact ⟨a, rfl, Option.some.inj h⟩

end Mos6502
