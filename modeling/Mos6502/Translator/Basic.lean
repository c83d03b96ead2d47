import Mos6502.BlockMap
import Mos6502.Config
import Mos6502.Lowering
import Mos6502.HostCode.Arena

/-! What a translator holds: its options, the arena, and notes on each guest address. -/
namespace Mos6502

structure AddrNote where
  /-- The opcode compiled here, on the first byte of an instruction. -/
  opcode : Option UInt8 := none
  /-- Cycles to give back when a countdown run is left before this instruction. -/
  fixup : Option UInt32 := none
  isStart : Bool := false
  /-- A compile ran out of space here; the next block carries on. -/
  isContinuation : Bool := false
  deriving DecidableEq

structure CompileCounts where
  compiled : Nat := 0
  truncated : Nat := 0
  flushes : Nat := 0

structure TranslatorSettings where
  options : LoweringOptions
  maxOps : Nat
  optimizations : Optimizations
  windowSize : Nat
  /-- Accesses to computed addresses from here on are device accesses. -/
  deviceFrom : Addr

structure Translator where
  settings : TranslatorSettings
  notes : AddrTable AddrNote
  counts : CompileCounts
  arena : Arena

/-- The tables of both the translator and the blocks: all that is kept per address. -/
structure CodeTables where
  notes : AddrTable AddrNote
  blocks : BlockMap

namespace CodeTables

/-- Forget all that is known of one address, after retiring the block that covers it. -/
def forget (t : CodeTables) (a : Addr) : CodeTables where
  notes := t.notes.set a {}
  blocks := ((t.blocks.retire a).uncover a).dropEntry a

def forgetFrom (t : CodeTables) (a : Addr) : Nat → CodeTables
  | 0 => t
  | n + 1 => (t.forget a).forgetFrom (a + 1) n

end CodeTables

namespace Translator

def ofConfig (c : Config) (deviceFrom : Addr) : Translator where
  settings :=
    { options :=
        { debug := c.debug, exactTimings := c.exactTimings, zeroPageCode := c.zeroPageCode }
      maxOps := c.blockLimit
      optimizations := c.optimizations
      windowSize := c.windowSize
      deviceFrom }
  notes := .filled {}
  counts := {}
  arena := .ofSize c.arenaSize

def note (t : Translator) (a : Addr) : AddrNote :=
  t.notes.get a

/-- The budget after the rest of a run, from `pc` on, is given back. -/
def refund (t : Translator) (pc : Addr) (budget : Int) : Except Fault Int :=
  match (t.note pc).fixup with
  | none => .error (.noFixup pc)
  | some cycles => if cycles = 0 then .error (.zeroFixup pc) else .ok (budget + cycles.toNat)

/-- Only blocks compiled from now on change. -/
def setZeroPageCode (t : Translator) (on : Bool) : Translator :=
  { t with
    settings := { t.settings with options := { t.settings.options with zeroPageCode := on } } }

def flush (t : Translator) : Translator × BlockMap :=
  ({ t with
      arena := t.arena.clear
      notes := .filled {}
      counts := { t.counts with flushes := t.counts.flushes + 1 } },
    .empty)

def forgetRange (t : Translator) (blocks : BlockMap) (start : Addr) (len : Nat) :
    Translator × BlockMap :=
  let ⟨settings, notes, counts, arena⟩ := t
  let tables := CodeTables.forgetFrom ⟨notes, blocks⟩ start (min len 65536)
  (⟨settings, tables.notes, counts, arena⟩, tables.blocks)

end Translator

end Mos6502
