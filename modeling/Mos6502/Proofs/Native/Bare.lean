import Mos6502.Proofs.Machine.Steps
import Mos6502.Proofs.Native.Along

/-! Compiled code apart from the tables. A host instruction does to the processor and to memory
what it does on a bare core, which has no tables and reaches memory by device accesses alone. -/
namespace Mos6502

def Outcome.uncovered : Outcome → Outcome
  | .stale _ => .next
  | out => out

namespace Core

variable {σ : Type}

def bare (cpu : Cpu) (m : PagedMemory σ) : Core (PagedMemory σ) :=
  ⟨cpu, ⟨m, .empty, 0⟩⟩

def strip (c : Core (PagedMemory σ)) : Core (PagedMemory σ) :=
  bare c.cpu c.bus.memory

def machine (c : Core (PagedMemory σ)) (pc : Addr) : Machine σ :=
  ⟨{ c.cpu.guest with pc }, c.bus.memory⟩

end Core

namespace Native

open Mos6502.Core

variable {σ α β : Type}

theorem load_bare (cpu : Cpu) (m : PagedMemory σ) (a : Addr) :
    load a (bare cpu m) = ((m.deviceRead a).1, bare cpu (m.deviceRead a).2) := by
  have low : (0 : Addr) ≤ a := UInt16.zero_le
  unfold bare load CodeBus.load
  dsimp only
  rw [if_pos low]
  rfl

theorem put_bare (cpu : Cpu) (m : PagedMemory σ) (a : Addr) (v : UInt8) :
    put a v (bare cpu m) = ((), bare cpu (m.deviceWrite a v)) := by
  have low : (0 : Addr) ≤ a := UInt16.zero_le
  unfold bare put CodeBus.put
  dsimp only
  rw [if_pos low]
  rfl

theorem retire_empty {M : Type} (cpu : Cpu) (memory : M) (deviceFrom a pc : Addr) :
    retire a pc ⟨cpu, ⟨memory, .empty, deviceFrom⟩⟩
      = (.next, ⟨cpu, ⟨memory, .empty, deviceFrom⟩⟩) := by
  have none : BlockMap.empty.ptr? a = none := AddrTable.get_filled _ _
  unfold retire CodeBus.retire BlockMap.retire BlockMap.isCovered BlockMap.owner?
  dsimp only
  rw [none]
  rfl

theorem retire_bare (cpu : Cpu) (m : PagedMemory σ) (a pc : Addr) :
    retire a pc (bare cpu m) = (.next, bare cpu m) :=
  retire_empty cpu m 0 a pc

theorem loadPointer_bare (cpu : Cpu) (m : PagedMemory σ) (a : Addr) :
    loadPointer a (bare cpu m)
      = ((Bus.fetchPointer a (⟨m⟩ : DeviceBus (PagedMemory σ))).1,
        bare cpu (Bus.fetchPointer a (⟨m⟩ : DeviceBus (PagedMemory σ))).2.memory) := by
  unfold loadPointer
  rw [bind_run (load_bare cpu m a), bind_run (load_bare cpu _ (nextInPage a))]
  rfl

theorem follow_bare (cpu : Cpu) (m : PagedMemory σ) (a : Addr) :
    exec (.follow a) (bare cpu m)
      = (.next, bare { cpu with
        scratch := (Bus.fetchPointer a (⟨m⟩ : DeviceBus (PagedMemory σ))).1 }
        (Bus.fetchPointer a (⟨m⟩ : DeviceBus (PagedMemory σ))).2.memory) := by
  change (loadPointer a >>= _ : Exec (PagedMemory σ) Outcome) _ = _
  rw [bind_run (loadPointer_bare cpu m a)]
  rfl

def Strips (x : Exec (PagedMemory σ) α) : Prop :=
  ∀ c, c.bus.Fits → (x c).2.bus.Fits ∧ x c.strip = ((x c).1, (x c).2.strip)

namespace Strips

theorem pure (v : α) : Strips (Pure.pure v : Exec (PagedMemory σ) α) :=
  fun _ fits => ⟨fits, rfl⟩

theorem bind {x : Exec (PagedMemory σ) α} {f : α → Exec (PagedMemory σ) β} (hx : Strips x)
    (hf : ∀ v, Strips (f v)) : Strips (x >>= f) := by
  intro c fits
  obtain ⟨fits, same⟩ := hx c fits
  rw [bind_run same]
  exact hf (x c).1 (x c).2 fits

theorem getCpu : Strips (σ := σ) Native.getCpu :=
  fun _ fits => ⟨fits, rfl⟩

theorem onCpu (f : Cpu → Cpu) : Strips (σ := σ) (Native.onCpu f) :=
  fun _ fits => ⟨fits, rfl⟩

theorem thenNext (f : Cpu → Cpu) : Strips (σ := σ) (Native.thenNext f) :=
  fun _ fits => ⟨fits, rfl⟩

theorem load (a : Addr) : Strips (σ := σ) (Native.load a) := by
  rintro ⟨cpu, bus⟩ fits
  unfold strip
  rw [load_bare]
  change (bus.load a).2.Fits ∧ _ = ((bus.load a).1, bare cpu (bus.load a).2.memory)
  rw [CodeBus.load_eq fits]
  exact ⟨CodeBus.Fits.of_pages fits rfl (bus.memory.pages_deviceRead a), rfl⟩

theorem put (a : Addr) (v : UInt8) : Strips (σ := σ) (Native.put a v) := by
  rintro ⟨cpu, bus⟩ fits
  unfold strip
  rw [put_bare]
  change (bus.put a v).Fits ∧ _ = ((), bare cpu (bus.put a v).memory)
  rw [CodeBus.put_eq fits]
  exact ⟨CodeBus.Fits.of_pages fits rfl (bus.memory.pages_deviceWrite a v), rfl⟩

theorem push (v : UInt8) : Strips (σ := σ) (Native.push v) := by
  rintro ⟨cpu, ⟨memory, blocks, deviceFrom⟩⟩ fits
  exact ⟨CodeBus.Fits.of_pages fits rfl (memory.pages_write (stackAddr cpu.s) v), rfl⟩

theorem pull : Strips (σ := σ) Native.pull :=
  fun _ fits => ⟨fits, rfl⟩

theorem loadPointer (a : Addr) : Strips (σ := σ) (Native.loadPointer a) :=
  .bind (load a) fun _ => .bind (load _) fun _ => .pure _

theorem loadOperand (mode : AddrMode) (operand : UInt16) :
    Strips (σ := σ) (Native.loadOperand mode operand) := by
  unfold Native.loadOperand
  split
  · exact .pure _
  · exact .bind getCpu fun _ => load _

theorem modifyOperand (op : Operation) (operand : UInt16) (checked : Bool) :
    Strips (σ := σ) (Native.modifyOperand op operand checked) := by
  unfold Native.modifyOperand
  refine .bind getCpu fun _ => .bind (load _) fun v => .bind getCpu fun cpu => ?_
  obtain ⟨result, after⟩ := modify op.mnemonic v cpu
  refine .bind (onCpu _) fun _ => ?_
  have last : Strips (σ := σ)
      (if op.mnemonic = .slo then Native.onCpu fun c => takeA (c.a ||| result) c
      else Pure.pure ()) := by
    split
    · exact onCpu _
    · exact .pure _
  dsimp only
  split
  · exact .bind (put _ _) fun _ => .bind (put _ _) fun _ => last
  · exact .bind (put _ _) fun _ => last

theorem raw (opcode : UInt8) (operand : UInt16) (checked : Bool) :
    Strips (σ := σ) (Native.raw opcode operand checked) := by
  unfold Native.raw
  dsimp only
  cases (operationOf opcode).mnemonic with
  | adc | sbc | and | ora | eor | alr | bit | cmp | cpx | cpy | lda | ldx | ldy =>
    exact .bind (loadOperand _ _) fun _ => .bind (onCpu _) fun _ => .pure _
  | nop =>
    dsimp only
    split
    · exact .bind (loadOperand _ _) fun _ => .pure _
    · exact .pure _
  | sta | stx | sty | sax => exact .bind getCpu fun _ => .bind (put _ _) fun _ => .pure _
  | asl | lsr | rol | ror | slo | inc | dec =>
    dsimp only
    split
    · exact .bind (onCpu _) fun _ => .pure _
    · exact .bind (modifyOperand _ _ _) fun _ => .pure _
  | pha | php => exact .bind getCpu fun _ => .bind (push _) fun _ => .pure _
  | pla | plp => exact .bind pull fun _ => .bind (onCpu _) fun _ => .pure _
  | bcc | bcs | beq | bne | bmi | bpl | bvc | bvs => exact .bind getCpu fun _ => .pure _
  | exit | debugBreak | crash | brk | jmp | jsr | rts | rti | unknown => exact .pure _
  | _ => exact .bind (onCpu _) fun _ => .pure _

end Strips

theorem strip_retire (a pc : Addr) (c : Core (PagedMemory σ)) :
    retire a pc c.strip = ((retire a pc c).1.uncovered, (retire a pc c).2.strip) := by
  unfold strip
  rw [retire_bare]
  change _ = (Outcome.uncovered (if c.bus.blocks.isCovered a then .stale pc else .next), _)
  split <;> rfl

/-- The bare core is what is left of a core, and so is the outcome. -/
theorem execOp_strip (op : HostOp) {c : Core (PagedMemory σ)} (fits : c.bus.Fits) :
    (execOp op c).2.bus.Fits ∧
      execOp op c.strip = ((execOp op c).1.uncovered, (execOp op c).2.strip) := by
  have direct : ∀ {x : Exec (PagedMemory σ) Outcome}, Strips x → (x c).1.uncovered = (x c).1 →
      (x c).2.bus.Fits ∧ x c.strip = ((x c).1.uncovered, (x c).2.strip) := by
    intro x strips kept
    rw [kept]
    exact strips c fits
  have plain : ∀ {x : Exec (PagedMemory σ) Outcome}, Tame (Direct op) x →
      (x c).1.uncovered = (x c).1 := by
    intro x tame
    have direct := (tame c).1
    cases out : (x c).1 with
    | stale pc => rw [out] at direct; exact direct.elim
    | _ => rfl
  cases op with
  | modifyChecked opcode operand => exact direct (.raw _ _ _) (plain (tame_raw rfl _))
  | nop | trap => exact ⟨fits, rfl⟩
  | uop u =>
    cases u with
    | raw opcode operand => exact direct (.raw _ _ _) (plain (tame_raw rfl _))
    | retire a pc => exact ⟨fits, strip_retire a pc c⟩
    | retireScratch pc => exact ⟨fits, strip_retire c.cpu.scratch pc c⟩
    | retireScratchY pc => exact ⟨fits, strip_retire (c.cpu.scratch + c.cpu.y.toUInt16) pc c⟩
    | interpretIfDecimal a =>
      refine direct (.bind .getCpu fun _ => .pure _) ?_
      change Outcome.uncovered (if c.cpu.decimal then _ else _) = (if c.cpu.decimal then _ else _)
      split <;> rfl
    | interpretIfIrq a =>
      refine direct (.bind .getCpu fun _ => .pure _) ?_
      change Outcome.uncovered (if c.cpu.irq then _ else _) = (if c.cpu.irq then _ else _)
      split <;> rfl
    | follow a => exact direct (.bind (.loadPointer _) fun _ => .thenNext _) rfl
    | followScratch =>
      exact direct (.bind .getCpu fun _ => .bind (.loadPointer _) fun _ => .thenNext _) rfl
    | pullScratch =>
      exact direct (.bind .pull fun _ => .bind .pull fun _ => .thenNext _) rfl
    | pushWord w => exact direct (.bind (.push _) fun _ => .bind (.push _) fun _ => .pure _) rfl
    | storeConst a v => exact direct (.bind (.put _ _) fun _ => .pure _) rfl
    | _ => exact ⟨fits, rfl⟩

theorem Along.of_strip {S S' : Core (PagedMemory σ) → Outcome → Core (PagedMemory σ) → Prop}
    {Q Q' : Core (PagedMemory σ) → Prop} {ops : List HostOp} {c : Core (PagedMemory σ)}
    (h : Along S' Q' ops c.strip) (fits : c.bus.Fits)
    (steps : ∀ c out d, S' c.strip out.uncovered d.strip → S c out d)
    (ends : ∀ d, Q' d.strip → Q d) : Along S Q ops c := by
  induction ops generalizing c with
  | nil => exact ends c h
  | cons op ops ih =>
    obtain ⟨fits, same⟩ := execOp_strip op fits
    obtain ⟨here, rest⟩ := h
    rw [same] at here rest
    refine ⟨steps _ _ _ here, ?_⟩
    intro d goes
    have strips : Continues (execOp op c).1.uncovered (execOp op c).2.strip d.strip := by
      generalize (execOp op c).1 = out at goes
      generalize (execOp op c).2 = done at goes
      cases goes with
      | next => exact .next _
      | stale => exact .next _
      | charge addr cycles => exact .charge addr cycles _
      | unobserved addr => exact .unobserved addr _
      | observed addr => exact .observed addr _
    refine ih (rest _ strips) ?_
    rw [goes.bus]
    exact fits

theorem Along.of_fits {S S' : Core (PagedMemory σ) → Outcome → Core (PagedMemory σ) → Prop}
    {Q Q' : Core (PagedMemory σ) → Prop} {ops : List HostOp} {c : Core (PagedMemory σ)}
    (h : Along S Q ops c) (fits : c.bus.Fits)
    (steps : ∀ c out d, d.bus.Fits → S c out d → S' c out d)
    (ends : ∀ d, d.bus.Fits → Q d → Q' d) : Along S' Q' ops c := by
  induction ops generalizing c with
  | nil => exact ends c fits h
  | cons op ops ih =>
    obtain ⟨fits, _⟩ := execOp_strip op fits
    obtain ⟨here, rest⟩ := h
    refine ⟨steps _ _ _ fits here, fun d goes => ih (rest d goes) ?_⟩
    rw [goes.bus]
    exact fits

end Native

end Mos6502
