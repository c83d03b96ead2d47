import Mos6502.Record.Check
import Mos6502.Record.Peephole
import Mos6502.Translator.Gather
import Mos6502.Translator.Emit

/-! Compiling one block: find its records, charge its runs, check and optimise it, emit it, and
note for every address what covers it. -/
namespace Mos6502

/-- Where a compile leaves the tables while it goes through its records. -/
structure Noting where
  tables : CodeTables
  cycles : UInt32

namespace CodeTables

def coverByte (start : Addr) (r : Record) (hostOffset : Nat) (cycles : UInt32)
    (t : CodeTables) (i : Nat) : CodeTables :=
  let a := r.addr + UInt16.ofNat i
  let blocks := t.blocks.cover a ⟨start, hostOffset⟩
  { blocks := if a = start then blocks else blocks.dropEntry a
    notes := t.notes.update a fun note =>
      { opcode := if i = 0 then some r.opcode else none
        fixup := if i = 0 then some cycles else none
        isStart := note.isStart && a == start
        isContinuation := false } }

def coverRecord (start : Addr) (r : Record) (hostOffset : Nat) (cycles : UInt32)
    (t : CodeTables) : CodeTables :=
  (List.range r.len.toNat).foldl (coverByte start r hostOffset cycles) t

end CodeTables

namespace Noting

def record (start : Addr) (c : Noting) (r : Record) : Except Fault Noting :=
  let cycles := r.runTotal.getD c.cycles
  match r.hostOffset with
  | none => .error (.notEmitted r.addr)
  | some hostOffset =>
    let used := r.maxCycles.toUInt32
    .ok {
      tables := c.tables.coverRecord start r hostOffset cycles
      cycles := if used ≤ cycles then cycles - used else 0 }

end Noting

namespace AddrNote

/-- A block starts here, unless it carries on one that was cut. -/
def markStart (n : AddrNote) : AddrNote :=
  { n with isStart := !n.isContinuation }

def markContinuation (n : AddrNote) : AddrNote :=
  { n with isContinuation := true }

end AddrNote

def CompileCounts.count (s : CompileCounts) (cut : Bool) : CompileCounts :=
  { s with compiled := s.compiled + 1, truncated := s.truncated + if cut then 1 else 0 }

/-- The runs of a block that was cut are shorter: rewrite their countdowns in place. -/
def Arena.recharge {M : Type} [GuestMemory M] (m : M) (arena : Arena) :
    List Record → Except Fault Arena
  | [] => return arena
  | r :: rs => do
    let arena ← match r.hostOffset, r.countdown? with
      | some hostOffset, some head => arena.replace hostOffset head.hostSize (emit m head.uop)
      | _, _ => pure arena
    arena.recharge m rs

def CodeTables.noteBlock (start : Addr) (records : List Record) (tables : CodeTables) :
    Except Fault (Nat × CodeTables) := do
  let done ← records.foldlM (Noting.record start) { tables, cycles := 0 }
  match records.head?.bind (·.hostOffset) with
  | none => return (0, done.tables)
  | some entry =>
    let ⟨notes, blocks⟩ := done.tables
    return (entry, ⟨notes, ← blocks.giveEntry start entry⟩)

namespace TranslatorSettings

/-- The finished records of a block: found, charged, checked and optimised. -/
def recordsOf {M : Type} [GuestMemory M] (s : TranslatorSettings) (notes : AddrTable AddrNote)
    (m : M) (start : Addr) : Except Fault (List Record) := do
  let records ← s.gather notes m start
  let records ← Record.chargeRuns records
  Record.checkBlock records
  return if s.optimizations.contains .peephole then Record.peephole records else records

/-- Emit the block at `start` at the cursor of the arena. When it is cut, the runs that are left
are charged anew. -/
def layOut {M : Type} [GuestMemory M] (s : TranslatorSettings) (notes : AddrTable AddrNote)
    (arena : Arena) (m : M) (start : Addr) : Except Fault (Emission × Arena) := do
  let window := min arena.space s.windowSize
  let records ← s.recordsOf notes m start
  let emission ← Emission.ofRecords m arena.cursor window true records
  let arena ← arena.fillWindow window emission.code
  let (kept, arena) ← match emission.cutAt with
    | none => pure (emission.kept, arena)
    | some _ =>
      let kept ← Record.chargeRuns emission.kept
      pure (kept, ← arena.recharge m kept)
  return ({ emission with kept }, ← arena.advance emission.code.length)

end TranslatorSettings

namespace Translator

/-- Drop everything when less than the smallest window is left. -/
def makeRoom (t : Translator) (blocks : BlockMap) : Translator × BlockMap :=
  if min t.arena.space t.settings.windowSize < Config.minWindowSize then t.flush else (t, blocks)

def compile {M : Type} [GuestMemory M] (t : Translator) (blocks : BlockMap) (m : M)
    (start : Addr) : Except Fault (Nat × Translator × BlockMap) := do
  let (⟨settings, notes, counts, arena⟩, blocks) := t.makeRoom blocks
  -- A jump into the middle of a block splits it.
  let blocks := blocks.retire start
  let notes := notes.update start AddrNote.markStart
  let (emission, arena) ← settings.layOut notes arena m start
  let notes := match emission.cutAt with
    | none => notes
    | some a => notes.update a AddrNote.markContinuation
  let (entry, ⟨notes, blocks⟩) ← CodeTables.noteBlock start emission.kept ⟨notes, blocks⟩
  return (entry, ⟨settings, notes, counts.count emission.cutAt.isSome, arena⟩, blocks)

end Translator

end Mos6502
