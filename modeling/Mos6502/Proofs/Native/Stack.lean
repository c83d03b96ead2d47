import Mos6502.Proofs.Machine.Returns
import Mos6502.Proofs.Native.Announced
import Mos6502.Proofs.Native.Simulation

/-! The pushes and pulls of compiled code. Calls, returns and breaks make the same ones in both
engines, byte by byte, and come back to where they left. -/
namespace Mos6502

namespace Access

def onStack (access : Access) : Bool :=
  highByte access.addr == 1

@[simp] theorem onStack_read (s v : UInt8) : (read (stackAddr s) v).onStack = true := by
  simp [onStack, addr, Native.highByte_stackAddr]

@[simp] theorem onStack_write (s v : UInt8) : (write (stackAddr s) v).onStack = true := by
  simp [onStack, addr, Native.highByte_stackAddr]

@[simp] theorem onStack_vector (v : UInt8) :
    (read vectorIrq v).onStack = false ∧ (read (nextInPage vectorIrq) v).onStack = false := by
  have elsewhere : highByte vectorIrq ≠ 1 ∧ highByte (nextInPage vectorIrq) ≠ 1 := by decide
  simp [onStack, addr, elsewhere]

end Access

namespace Native

section Exec

variable {M : Type} [GuestMemory M]

def accesses (us : List Uop) (c : Core M) : List Access :=
  (execAll us (c.recording [])).2.bus.memory.accesses

/-- The run makes these accesses, in order. On a memory that keeps them it is the same run. -/
def Makes (us : List Uop) (c : Core M) (as : List Access) : Prop :=
  execAll us (c.recording []) = ((execAll us c).1, (execAll us c).2.recording as)

theorem execAll_recording (us : List Uop) (c : Core M) (old : List Access) :
    ∃ new, execAll us (c.recording old)
      = ((execAll us c).1, (execAll us c).2.recording (old ++ new)) := by
  induction us generalizing c old with
  | nil => exact ⟨[], by rw [List.append_nil]; rfl⟩
  | cons u us ih =>
    obtain ⟨new, first, _⟩ := recorded_execOp (.uop u) c old
    have first : exec u (c.recording old)
        = ((exec u c).1, (exec u c).2.recording (old ++ new)) := first
    rw [execAll, bind_run first]
    cases inside : (exec u c).1.staysInside with
    | true =>
      obtain ⟨new', rest⟩ := ih (exec u c).2 (old ++ new)
      rw [if_pos rfl, execAll_inside inside, rest, List.append_assoc]
      exact ⟨_, rfl⟩
    | false =>
      rw [if_neg Bool.false_ne_true, execAll_ends inside]
      exact ⟨new, rfl⟩

theorem makes_accesses (us : List Uop) (c : Core M) : Makes us c (accesses us c) := by
  obtain ⟨as, same⟩ := execAll_recording us c []
  unfold Makes accesses
  rw [same]
  rfl

theorem accesses_jsr (w : UInt16) (target : Addr) (c : Core M) :
    accesses [.pushWord w, .jump target] c =
      [.write (stackAddr c.cpu.s) (highByte w), .write (stackAddr (c.cpu.s - 1)) (lowByte w)] := by
  obtain ⟨cpu, memory, blocks, deviceFrom⟩ := c
  rfl

theorem accesses_rts (c : Core M) :
    accesses [.pullScratch, .incrScratch, .jumpScratch] c =
      [.read (stackAddr (c.cpu.s + 1)) (GuestMemory.read c.bus.memory (stackAddr (c.cpu.s + 1))),
        .read (stackAddr (c.cpu.s + 1 + 1))
          (GuestMemory.read c.bus.memory (stackAddr (c.cpu.s + 1 + 1)))] := by
  obtain ⟨cpu, memory, blocks, deviceFrom⟩ := c
  rfl

theorem loadPointer_recording (a : Addr) (c : Core M) (old : List Access) :
    ∃ lo hi d, loadPointer a (c.recording old)
      = (word lo hi, Core.recording d (old ++ [.read a lo, .read (nextInPage a) hi])) := by
  refine ⟨(load a c).1, (load (nextInPage a) (load a c).2).1, (load (nextInPage a) (load a c).2).2, ?_⟩
  unfold loadPointer
  rw [bind_run (load_recording a c old), bind_run (load_recording (nextInPage a) _ _),
    List.append_assoc]
  rfl

theorem accesses_follow (a : Addr) (c : Core M) (old : List Access) :
    ∃ lo hi, (execAll [.follow a, .jumpScratch] (c.recording old)).2.bus.memory.accesses
      = old ++ [.read a lo, .read (nextInPage a) hi] := by
  obtain ⟨lo, hi, d, loads⟩ := loadPointer_recording a c old
  have follows : exec (.follow a) (c.recording old)
      = (.next, Core.recording ⟨{ d.cpu with scratch := word lo hi }, d.bus⟩
          (old ++ [.read a lo, .read (nextInPage a) hi])) := by
    change (loadPointer a >>= _ : Exec (Recording M) Outcome) _ = _
    rw [bind_run loads]
    rfl
  refine ⟨lo, hi, ?_⟩
  rw [execAll, bind_run follows]
  rfl

theorem accesses_brk (w : UInt16) (c : Core M) :
    ∃ lo hi, accesses [.pushWord w, .raw 0x08 0, .raw 0x78 0, .follow vectorIrq, .jumpScratch] c =
      [.write (stackAddr c.cpu.s) (highByte w), .write (stackAddr (c.cpu.s - 1)) (lowByte w),
        .write (stackAddr (c.cpu.s - 1 - 1)) c.cpu.pushedFlags,
        .read vectorIrq lo, .read (nextInPage vectorIrq) hi] := by
  obtain ⟨cpu, memory, blocks, deviceFrom⟩ := c
  exact accesses_follow vectorIrq
    (execAll [.pushWord w, .raw 0x08 0, .raw 0x78 0] ⟨cpu, memory, blocks, deviceFrom⟩).2 [_, _, _]

end Exec

end Native

namespace Interpreter

variable {B : Type} [Bus B]

/-- The accesses of an instruction, its own bytes aside. -/
def accesses (opcode low high : UInt8) (cpu : Cpu) (b : B) : List Access :=
  (perform opcode low high cpu (⟨b, #[]⟩ : Recorded B)).2.accesses.toList

def stackAccesses (opcode low high : UInt8) (cpu : Cpu) (b : B) : List Access :=
  (accesses opcode low high cpu b).filter Access.onStack

theorem accesses_jsr (low high : UInt8) (cpu : Cpu) (b : B) :
    accesses 0x20 low high cpu b =
      [.write (stackAddr cpu.s) (highByte (cpu.pc + 2)),
        .write (stackAddr (cpu.s - 1)) (lowByte (cpu.pc + 2))] := by
  unfold accesses
  rw [perform_jsr]
  rfl

theorem accesses_rts {b : B} {cpu : Cpu} {lo hi : UInt8} (low high : UInt8)
    (first : Bus.read b (stackAddr (cpu.s + 1)) = (lo, b))
    (second : Bus.read b (stackAddr (cpu.s + 1 + 1)) = (hi, b)) :
    accesses 0x60 low high cpu b =
      [.read (stackAddr (cpu.s + 1)) lo, .read (stackAddr (cpu.s + 1 + 1)) hi] := by
  have reads : accesses 0x60 low high cpu b
      = [.read (stackAddr (cpu.s + 1)) (Bus.read b (stackAddr (cpu.s + 1))).1,
        .read (stackAddr (cpu.s + 1 + 1))
          (Bus.read (Bus.read b (stackAddr (cpu.s + 1))).2 (stackAddr (cpu.s + 1 + 1))).1] := by
    unfold accesses
    rw [perform_rts]
    rfl
  rw [reads, first, second]

theorem accesses_brk (low high : UInt8) (cpu : Cpu) (b : B) :
    ∃ lo hi, accesses 0x00 low high cpu b =
      [.write (stackAddr cpu.s) (highByte (cpu.pc + 2)),
        .write (stackAddr (cpu.s - 1)) (lowByte (cpu.pc + 2)),
        .write (stackAddr (cpu.s - 1 - 1)) cpu.pushedFlags,
        .read vectorIrq lo, .read (nextInPage vectorIrq) hi] := by
  unfold accesses
  rw [perform_brk]
  exact ⟨_, _, rfl⟩

theorem stackAccesses_brk (low high : UInt8) (cpu : Cpu) (b : B) :
    stackAccesses 0x00 low high cpu b =
      [.write (stackAddr cpu.s) (highByte (cpu.pc + 2)),
        .write (stackAddr (cpu.s - 1)) (lowByte (cpu.pc + 2)),
        .write (stackAddr (cpu.s - 1 - 1)) cpu.pushedFlags] := by
  obtain ⟨lo, hi, made⟩ := accesses_brk low high cpu b
  unfold stackAccesses
  rw [made]
  simp

end Interpreter

namespace Instruction

variable {M : Type} [GuestMemory M] {i : Instruction}

theorem fetch_of_bytes {σ : Type} {m : PagedMemory σ} {pc : Addr} {opcode low high : UInt8}
    (first : m.ram.get pc = opcode) (second : m.ram.get (pc + 1) = low)
    (third : m.ram.get (pc + 2) = high) : fetch m pc = ⟨pc, opcode, low, high⟩ := by
  subst first second third
  rfl

theorem uops_of_brk (m : M) (o : LoweringOptions) (is : i.opcode = 0x00) :
    i.needsInterpreter m = false ∧ i.bodyUops o =
      [.pushWord (i.addr + 2), .raw 0x08 0, .raw 0x78 0, .follow vectorIrq, .jumpScratch] := by
  have op : i.operation = ⟨.brk, .implied, 7⟩ := by
    unfold operation
    rw [is]
    decide
  unfold needsInterpreter bodyUops modeUops retireUops beforeUops mainUops afterUops
  rw [op]
  exact ⟨rfl, rfl⟩

theorem uops_of_jsr (m : M) (o : LoweringOptions) (is : i.opcode = 0x20) :
    i.needsInterpreter m = false ∧
      i.bodyUops o = [.pushWord (i.addr + 2), .jump i.operand] := by
  have op : i.operation = ⟨.jsr, .absolute, 6⟩ := by
    unfold operation
    rw [is]
    decide
  have inside : ¬ i.operand < i.operand := UInt16.lt_irrefl _
  unfold needsInterpreter rangeNeedsInterpreter rangeEnd
  unfold bodyUops modeUops retireUops beforeUops mainUops afterUops
  rw [op]
  simp [inside, Operation.memUse, Mnemonic.memUse, MemUse.reads, MemUse.writes]

theorem uops_of_rts (m : M) (o : LoweringOptions) (is : i.opcode = 0x60) :
    i.needsInterpreter m = false ∧
      i.bodyUops o = [.pullScratch, .incrScratch, .jumpScratch] := by
  have op : i.operation = ⟨.rts, .implied, 6⟩ := by
    unfold operation
    rw [is]
    decide
  unfold needsInterpreter bodyUops modeUops retireUops beforeUops mainUops afterUops
  rw [op]
  exact ⟨rfl, rfl⟩

end Instruction

namespace Native

theorem accesses_lower {M : Type} [GuestMemory M] {m : M} {o : LoweringOptions} {pc : Addr}
    {us : List Uop} (lowers : (Instruction.fetch m pc).needsInterpreter m = false ∧
      (Instruction.fetch m pc).bodyUops o = us) (c : Core M) :
    accesses (lower m o pc).uopList c = accesses us c := by
  obtain ⟨translated, rfl⟩ := lowers
  rw [Record.uopList_lower, translated]
  unfold Instruction.observeUops
  split <;> rfl

variable {σ : Type} {b : CodeBus (PagedMemory σ)}

theorem stack_agrees (h : b.Ordinary) (cpu : Cpu) (m : PagedMemory σ) (o : LoweringOptions)
    {i : Instruction} (here : Instruction.fetch m cpu.pc = i) (call : i.opcode ∈ [0x00, 0x20, 0x60]) :
    ∃ as, Makes (lower m o cpu.pc).uopList ⟨cpu, b⟩ as ∧
      as.filter Access.onStack = Interpreter.stackAccesses i.opcode i.low i.high cpu b := by
  refine ⟨_, makes_accesses _ _, ?_⟩
  have own : i.addr = cpu.pc := here ▸ rfl
  subst here
  rcases (by simpa using call : _ ∨ _ ∨ _) with brk | jsr | rts
  · obtain ⟨lo, hi, compiled⟩ := accesses_brk (cpu.pc + 2) ⟨cpu, b⟩
    rw [accesses_lower (Instruction.uops_of_brk m o brk), brk, own, compiled,
      Interpreter.stackAccesses_brk]
    simp
  · rw [accesses_lower (Instruction.uops_of_jsr m o jsr), jsr, own, accesses_jsr,
      Interpreter.stackAccesses, Interpreter.accesses_jsr]
  · rw [accesses_lower (Instruction.uops_of_rts m o rts), rts, accesses_rts,
      Interpreter.stackAccesses, Interpreter.accesses_rts _ _ (h.read _) (h.read _)]
    rfl

end Native

open Interpreter in
/-- Interrupts, breaks and calls whose handler returns at once come back, with registers, flags and
all memory but the pushed bytes as they were; and compiled code leaves and comes back the same way. -/
theorem calls_come_back {σ : Type} {b : CodeBus (PagedMemory σ)} (h : b.Ordinary) (cpu : Cpu) :
    ((interrupt cpu b).2.memory.ram.get (interrupt cpu b).1.2.pc = 0x40 →
        ComesBack cpu b cpu.pc (cpu.flags ||| flagB ||| flagBit5) 3
          (step (interrupt cpu b).1.2 (interrupt cpu b).2)) ∧
      (b.memory.ram.get cpu.pc = 0x00 → (step cpu b).2.memory.ram.get (step cpu b).1.2.pc = 0x40 →
        ComesBack cpu b (cpu.pc + 2) (cpu.flags ||| flagB ||| flagBit5) 3
          (step (step cpu b).1.2 (step cpu b).2)) ∧
      (b.memory.ram.get cpu.pc = 0x20 → (step cpu b).2.memory.ram.get (step cpu b).1.2.pc = 0x60 →
        ComesBack cpu b (cpu.pc + 3) cpu.flags 2 (step (step cpu b).1.2 (step cpu b).2)) ∧
      ∀ (m : PagedMemory σ) (o : LoweringOptions) (i : Instruction),
        Instruction.fetch m cpu.pc = i → i.opcode ∈ [0x00, 0x20, 0x60] →
          ∃ as, Native.Makes (lower m o cpu.pc).uopList ⟨cpu, b⟩ as ∧
            as.filter Access.onStack = Interpreter.stackAccesses i.opcode i.low i.high cpu b :=
  ⟨interrupt_comes_back h, brk_comes_back h, jsr_comes_back h,
    fun m o _ here call => Native.stack_agrees h cpu m o here call⟩

/-- A handler at 0, where the vector of blank memory leads, and a routine at 0x0310, which the top of
the stack leads back from. -/
def calling : PagedMemory Unit :=
  (((PagedMemory.blank.load 0 [0x40]).load 0x0300 [0x20, 0x10, 0x03]).load 0x0310 [0x60]).load 0x0102
    [0x02, 0x03]

/-- The third byte pushed is at the other end of the page. -/
def shallow (pc : Addr) : Cpu :=
  { Cpu.powerOn with a := 7, s := 1, carry := true, pc }

open Interpreter in
theorem calls_come_back_shallow : ∃ b : CodeBus (PagedMemory Unit), b.Ordinary ∧
    b.memory = calling ∧
    (∃ cpu, cpu = shallow 0x0200 ∧
      ComesBack cpu b cpu.pc (cpu.flags ||| flagB ||| flagBit5) 3
        (step (interrupt cpu b).1.2 (interrupt cpu b).2) ∧
      ComesBack cpu b (cpu.pc + 2) (cpu.flags ||| flagB ||| flagBit5) 3
        (step (step cpu b).1.2 (step cpu b).2) ∧
      ∃ as, Native.Makes (lower b.memory {} cpu.pc).uopList ⟨cpu, b⟩ as ∧
        as.filter Access.onStack = [.write 0x0101 0x02, .write 0x0100 0x02, .write 0x01FF 0x31]) ∧
    (∃ cpu, cpu = shallow 0x0300 ∧
      ComesBack cpu b (cpu.pc + 3) cpu.flags 2 (step (step cpu b).1.2 (step cpu b).2) ∧
      ∃ as, Native.Makes (lower b.memory {} cpu.pc).uopList ⟨cpu, b⟩ as ∧
        as.filter Access.onStack = [.write 0x0101 0x03, .write 0x0100 0x02]) ∧
    ∃ cpu, cpu = shallow 0x0310 ∧
      ∃ as, Native.Makes (lower b.memory {} cpu.pc).uopList ⟨cpu, b⟩ as ∧
        as.filter Access.onStack = [.read 0x0102 0x02, .read 0x0103 0x03] := by
  obtain ⟨b, is⟩ : ∃ b : CodeBus (PagedMemory Unit), b = ⟨calling, .empty, 0⟩ := ⟨_, rfl⟩
  have ordinary : b.Ordinary := CodeBus.ordinary_of_pages (by rw [is]; rfl)
  obtain ⟨rti, brk, padding, next, jsr, low, high, rts, second, third, top, above⟩ :
      b.memory.ram.get 0 = 0x40 ∧ b.memory.ram.get 0x0200 = 0x00 ∧
      b.memory.ram.get 0x0201 = 0x00 ∧ b.memory.ram.get 0x0202 = 0x00 ∧
      b.memory.ram.get 0x0300 = 0x20 ∧ b.memory.ram.get 0x0301 = 0x10 ∧
      b.memory.ram.get 0x0302 = 0x03 ∧
      b.memory.ram.get 0x0310 = 0x60 ∧ b.memory.ram.get 0x0311 = 0x00 ∧
      b.memory.ram.get 0x0312 = 0x00 ∧ b.memory.ram.get 0x0102 = 0x02 ∧
      b.memory.ram.get 0x0103 = 0x03 := by
    rw [is]
    decide +kernel
  have handler : b.handler = 0 := by
    rw [is]
    simp [CodeBus.handler, vectorIrq, calling, PagedMemory.load, AddrTable.setFrom,
      AddrTable.get_set, PagedMemory.blank, word]
  have handled : ∀ s vs, (b.pushed s vs).memory.ram.get b.handler = 0x40 := by
    intro s vs
    rw [handler, ordinary.get_pushed_elsewhere s vs (by decide), rti]
  have routine : ∀ s vs, (b.pushed s vs).memory.ram.get (word 0x10 0x03) = 0x60 := by
    intro s vs
    rw [ordinary.get_pushed_elsewhere s vs (by decide)]
    exact rts
  refine ⟨b, ordinary, by rw [is], ⟨shallow 0x0200, rfl, ?_⟩, ⟨shallow 0x0300, rfl, ?_⟩,
    ⟨shallow 0x0310, rfl, ?_⟩⟩ <;> clear is
  · generalize starts : shallow 0x0200 = cpu
    obtain ⟨brk, padding, next⟩ : b.memory.ram.get cpu.pc = 0x00 ∧
        b.memory.ram.get (cpu.pc + 1) = 0x00 ∧ b.memory.ram.get (cpu.pc + 2) = 0x00 := by
      rw [← starts]
      exact ⟨brk, padding, next⟩
    obtain ⟨interrupted, broken, _, compiled⟩ := calls_come_back ordinary cpu
    obtain ⟨as, makes, stack⟩ :=
      compiled b.memory {} _ (Instruction.fetch_of_bytes brk padding next) (by simp)
    refine ⟨interrupted ?_, broken brk ?_, as, makes, ?_⟩
    · rw [interrupt_eq ordinary]
      exact handled _ _
    · rw [step_brk ordinary brk]
      exact handled _ _
    · rw [stack, stackAccesses_brk, ← starts]
      decide
  · generalize starts : shallow 0x0300 = cpu
    obtain ⟨jsr, low, high⟩ : b.memory.ram.get cpu.pc = 0x20 ∧
        b.memory.ram.get (cpu.pc + 1) = 0x10 ∧ b.memory.ram.get (cpu.pc + 2) = 0x03 := by
      rw [← starts]
      exact ⟨jsr, low, high⟩
    obtain ⟨_, _, called, compiled⟩ := calls_come_back ordinary cpu
    obtain ⟨as, makes, stack⟩ :=
      compiled b.memory {} _ (Instruction.fetch_of_bytes jsr low high) (by simp)
    refine ⟨called jsr ?_, as, makes, ?_⟩
    · rw [step_jsr ordinary jsr, low, high]
      exact routine _ _
    · rw [stack, stackAccesses, accesses_jsr, ← starts]
      decide
  · generalize starts : shallow 0x0310 = cpu
    obtain ⟨rts, second, third⟩ : b.memory.ram.get cpu.pc = 0x60 ∧
        b.memory.ram.get (cpu.pc + 1) = 0x00 ∧ b.memory.ram.get (cpu.pc + 2) = 0x00 := by
      rw [← starts]
      exact ⟨rts, second, third⟩
    obtain ⟨_, _, _, compiled⟩ := calls_come_back ordinary cpu
    obtain ⟨as, makes, stack⟩ :=
      compiled b.memory {} _ (Instruction.fetch_of_bytes rts second third) (by simp)
    refine ⟨as, makes, ?_⟩
    rw [stack, stackAccesses, accesses_rts 0 0 (ordinary.read _) (ordinary.read _), ← starts,
      show b.memory.ram.get (stackAddr ((shallow 0x0310).s + 1)) = 0x02 from top,
      show b.memory.ram.get (stackAddr ((shallow 0x0310).s + 1 + 1)) = 0x03 from above]
    decide

end Mos6502
