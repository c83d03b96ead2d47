import Mos6502.Proofs.Engine.Standing
import Mos6502.Proofs.Machine.Price
import Mos6502.Proofs.Native.Known

/-! The instruction in progress. What is left of its host code executes it, and the budget in front
of it is known from what is charged for its run. -/
namespace Mos6502

open Record

namespace Spot

variable {σ : Type}

def task (g : Spot (PagedMemory σ)) (c : Core (PagedMemory σ)) : Task σ :=
  g.record.task g.image.memory g.image.settings.options g.post c

/-- The cycles charged for the instruction and those behind it in its run. -/
def owed {M : Type} (g : Spot M) : Nat :=
  (g.record.maxCycles.toUInt32 + restOfRun g.post).toNat

/-- The budget in front of the instruction, with nothing charged from it on. -/
def unspent (g : Spot (PagedMemory σ)) (c : Core (PagedMemory σ)) : Int :=
  (g.task c).budget + g.owed

theorem Inside.owed_eq {M : Type} [GuestMemory M] {g : Spot M} {start : Addr}
    (h : g.Inside start) : g.owed = g.record.maxCycles.toNat + (restOfRun g.post).toNat :=
  toNat_owed g.record (Nat.le_trans h.few (by decide))

end Spot

namespace Record

theorem headCycles_eq {r : Record} {rs : List Record}
    (charged : r.startsRun = true → r.runTotal = some (r.maxCycles.toUInt32 + restOfRun rs)) :
    r.headCycles = if r.startsRun then (r.maxCycles.toUInt32 + restOfRun rs).toNat else 0 := by
  unfold headCycles
  cases runs : r.startsRun with
  | true =>
    rw [charged runs]
    rfl
  | false =>
    have none : r.runTotal = none := by simpa [startsRun] using runs
    rw [none]
    rfl

end Record

namespace Task

variable {σ : Type}

structure Faithful (t : Task σ) : Prop where
  trim : t.instr.trim = t.start.instruction.trim
  step : Interpreter.step t.start.cpu (⟨t.start.memory⟩ : DeviceBus (PagedMemory σ)) = t.performed

variable {t : Task σ}

theorem Faithful.step_eq (h : t.Faithful) (quiet : t.start.cpu.interruptDue = false) :
    t.start.step = (t.performed.1.1, ⟨t.performed.1.2, t.performed.2.memory⟩) := by
  rw [Machine.step_quiet quiet, h.step]

theorem Faithful.report_eq (h : t.Faithful) : t.start.report = t.performed.1.1 :=
  congrArg (·.1.1) h.step

theorem Faithful.price_eq (h : t.Faithful) : t.start.price t.options.exactTimings = t.price := by
  have same : t.start.price t.options.exactTimings = t.start.instruction.price t.options t.start := rfl
  rw [same, ← Instruction.price_trim, ← h.trim, Instruction.price_trim]
  rfl

/-- A task that is done is a step of the machine. -/
theorem Faithful.passes (h : t.Faithful) (quiet : t.start.cpu.interruptDue = false) {pc : Addr}
    {d : Core (PagedMemory σ)} (reached : t.Reached pc d) :
    t.start.Passes 1 (d.machine pc) ∧ t.start.spent t.options.exactTimings 1 = t.price := by
  have completes : t.start.report.exit = none := by
    rw [h.report_eq]
    exact reached.completes
  obtain ⟨passes, interrupts⟩ := Machine.passes_one quiet completes
  refine ⟨?_, ?_⟩
  · rw [reached.lands]
    have there := h.step_eq quiet
    rw [there] at passes
    exact passes
  · rw [passes.spent_eq, interrupts, h.price_eq]
    exact Int.add_zero _

end Task

namespace Record

variable {σ : Type} {m : PagedMemory σ} {o : LoweringOptions} {k : Known} {r : Record}

/-- The instruction is faithful while its bytes are those that it was compiled from, and in no
device. -/
theorem Lowered.faithful (h : Lowered m o k r) {post : List Record} {c : Core (PagedMemory σ)}
    (plain : (c.machine r.addr).Plain)
    (bytes : ∀ j < r.len.toNat, c.bus.memory.ram.get (r.addr + UInt16.ofNat j)
      = m.ram.get (r.addr + UInt16.ofNat j)) :
    (task m o r post c).Faithful := by
  have start : (task m o r post c).start = c.machine r.addr := rfl
  have opcode : (c.machine r.addr).opcode = (r.instruction m).opcode := by
    have first := bytes 0 h.len_bounds.1
    rw [show r.addr + UInt16.ofNat 0 = r.addr from UInt16.add_zero _] at first
    exact first
  have len : (operationOf (c.machine r.addr).opcode).len = r.len := by
    rw [opcode]
    exact h.len.symm
  generalize hs : c.machine r.addr = s at plain opcode len start
  have addr : s.cpu.pc = r.addr := by rw [← hs]; rfl
  have byte : ∀ j < (operationOf s.opcode).len.toNat,
      s.memory.ram.get (s.cpu.pc + UInt16.ofNat j) = m.ram.get (r.addr + UInt16.ofNat j) := by
    intro j inside
    rw [len] at inside
    rw [← hs]
    exact bytes j inside
  have second : 2 ≤ (operationOf s.opcode).len →
      s.memory.ram.get (s.cpu.pc + 1) = m.ram.get (r.addr + 1) :=
    fun two => byte 1 (UInt8.le_iff_toNat_le.mp two)
  have third : 3 ≤ (operationOf s.opcode).len →
      s.memory.ram.get (s.cpu.pc + 2) = m.ram.get (r.addr + 2) :=
    fun three => byte 2 (UInt8.le_iff_toNat_le.mp three)
  constructor
  · rw [start]
    change Instruction.trim ⟨r.addr, (r.instruction m).opcode, _, _⟩
      = Instruction.trim ⟨s.cpu.pc, s.opcode, _, _⟩
    rw [addr] at second third ⊢
    rw [← opcode]
    unfold Instruction.trim Instruction.operation
    congr 1
    · split
      · next two => exact (second two).symm
      · rfl
    · split
      · next three => exact (third three).symm
      · rfl
  · rw [start, plain.step_eq]
    unfold Task.performed
    rw [start]
    change _ = Interpreter.perform (r.instruction m).opcode _ _ _ _
    rw [← opcode]
    exact congrFun (Machine.perform_congr s.cpu second third) _

end Record

namespace Frame

variable {σ ω : Type}

/-- The frame is at work on an instruction that was begun on the core `c`. -/
structure Works (f : Frame (PagedMemory σ) ω) (g : Spot (PagedMemory σ))
    (c : Core (PagedMemory σ)) : Prop where
  low : f.engine.memory.LowPlain
  quiet : c.cpu.interruptDue = false
  known : g.known.Holds c.cpu
  runs : (g.task c).Runs g.todo f.engine.core
  begins : g.done = [] → c = f.engine.core
  faithful : f.wayOut? = none → (c.machine g.record.addr).Cacheable f.engine.tracksZeroPage →
    (g.task c).Faithful

variable {f : Frame (PagedMemory σ) ω} {source : Addr → PagedMemory σ}
  {g : Spot (PagedMemory σ)}

theorem At.faithful (h : f.At source g) (begins : g.done = []) (stays : f.wayOut? = none)
    (cacheable : (f.engine.core.machine g.record.addr).Cacheable f.engine.tracksZeroPage) :
    (g.task f.engine.core).Faithful := by
  have live : f.engine.blocks.entryAt? f.pos.block = some g.image.offset := by
    rcases h.wayOut_none stays with ⟨live, _⟩ | ⟨_, begun, _⟩
    · rw [h.offset]
      exact (f.engine.isIntact_iff f.pos).mp live
    · exact absurd begins begun
  have agrees : ∀ j < g.record.len.toNat, Tracked f.engine.tracksZeroPage
      (g.record.addr + UInt16.ofNat j) →
      f.engine.memory.ram.get (g.record.addr + UInt16.ofNat j)
        = g.image.memory.ram.get (g.record.addr + UInt16.ofNat j) := by
    intro j inside tracked
    have covers : g.record.Covers (g.record.addr + UInt16.ofNat j) := by
      unfold Record.Covers
      have short := h.inside.lowered.len_bounds.2
      rw [(add_ofNat_eq_iff _ _ (by omega)).mp rfl]
      exact inside
    rw [h.memory]
    exact h.coherent.fresh _ _ tracked
      ((h.keeps.liveAt_iff live _).mpr ⟨g.record, h.inside.mem, covers⟩) id
  have opcode : (f.engine.core.machine g.record.addr).opcode
      = (g.record.instruction g.image.memory).opcode := by
    have same := agrees 0 h.inside.lowered.len_bounds.1 (cacheable 0 (Operation.len_bounds _).1).2
    rw [show g.record.addr + UInt16.ofNat 0 = g.record.addr from UInt16.add_zero _] at same
    exact same
  have len : (operationOf (f.engine.core.machine g.record.addr).opcode).len = g.record.len := by
    rw [opcode]
    exact h.inside.lowered.len.symm
  refine h.inside.lowered.faithful cacheable.plain ?_
  intro j inside
  refine agrees j inside ?_
  rw [← len] at inside
  exact (cacheable j inside).2

theorem At.works (h : f.At source g) (begins : g.done = []) (low : f.engine.memory.LowPlain)
    (quiet : f.engine.cpu.interruptDue = false) (known : g.known.Holds f.engine.cpu) :
    f.Works g f.engine.core where
  low := low
  quiet := quiet
  known := known
  runs := by
    have code := h.inside.code
    rw [begins, List.nil_append] at code
    rw [← code]
    have suits := (g.record.instruction g.image.memory).suits_of_lowPlain f.engine.cpu low
    exact h.inside.lowered.runs h.inside.shape.2.2.2.1 h.coherent.fits suits h.pages known
  begins _ := rfl
  faithful stays := h.faithful begins stays

end Frame

end Mos6502
