import Mathlib.Data.List.Basic
import Mos6502.Proofs.Native.Bare
import Mos6502.Proofs.Native.Safe

/-! Stores are announced. Whatever the host code of an instruction writes, an earlier host instruction
of the same pass has passed the address to the tables, for the instruction itself. Only what stays in
page zero is exempt, while code there is not tracked. -/
namespace Mos6502

namespace Access

def addr : Access → Addr
  | read a _ | write a _ => a

def written? : Access → Option Addr
  | read _ _ => none
  | write a _ => some a

end Access

/-- A memory that keeps the accesses made to it, in order. -/
structure Recording (M : Type) where
  memory : M
  accesses : List Access

namespace Recording

variable {M : Type} [GuestMemory M]

instance : GuestMemory (Recording M) where
  read m a := GuestMemory.read m.memory a
  write m a v := ⟨GuestMemory.write m.memory a v, m.accesses ++ [.write a v]⟩
  deviceRead m a :=
    let (v, memory) := GuestMemory.deviceRead m.memory a
    (v, ⟨memory, m.accesses ++ [.read a v]⟩)
  deviceWrite m a v := ⟨GuestMemory.deviceWrite m.memory a v, m.accesses ++ [.write a v]⟩
  readsDevice m a := GuestMemory.readsDevice m.memory a
  writesDevice m a := GuestMemory.writesDevice m.memory a
  readsDeviceFrom m := GuestMemory.readsDeviceFrom m.memory
  writesDeviceFrom m := GuestMemory.writesDeviceFrom m.memory
  isPlainRam m a := GuestMemory.isPlainRam m.memory a

instance : PlainLoad (Recording M) where
  load m a :=
    let v := GuestMemory.read m.memory a
    (v, ⟨m.memory, m.accesses ++ [.read a v]⟩)

end Recording

def Core.recording {M : Type} (c : Core M) (accesses : List Access) : Core (Recording M) :=
  ⟨c.cpu, ⟨⟨c.bus.memory, accesses⟩, c.bus.blocks, c.bus.deviceFrom⟩⟩

namespace HostOp

variable {M : Type} [GuestMemory M]

/-- The accesses of the host instruction, in order, devices and dropped writes included. -/
def accesses (op : HostOp) (c : Core M) : List Access :=
  (Native.execOp op (c.recording [])).2.bus.memory.accesses

def written (op : HostOp) (c : Core M) : List Addr :=
  (op.accesses c).filterMap Access.written?

end HostOp

namespace Native

variable {M : Type} [GuestMemory M] {α β : Type}

/-- From this core a computation does the same on a memory that keeps its accesses, and what it
writes is here. -/
def Recorded (W : List Addr) (c : Core M) (x : Exec (Recording M) α) (y : Exec M α) : Prop :=
  ∀ old, ∃ new, x (c.recording old) = ((y c).1, (y c).2.recording (old ++ new)) ∧
    ∀ a ∈ new.filterMap Access.written?, a ∈ W

theorem load_recording (a : Addr) (c : Core M) (old : List Access) :
    load a (c.recording old)
      = ((load a c).1, (load a c).2.recording (old ++ [.read a (load a c).1])) := by
  obtain ⟨cpu, memory, blocks, deviceFrom⟩ := c
  unfold Core.recording load CodeBus.load
  dsimp only
  by_cases device : deviceFrom ≤ a
  · simp only [if_pos device]
    rfl
  · simp only [if_neg device]
    rfl

namespace Recorded

variable {W : List Addr} {c : Core M}

omit [GuestMemory M] in
theorem pure (v : α) : Recorded W c (Pure.pure v) (Pure.pure v) :=
  fun old => ⟨[], by rw [List.append_nil]; rfl, by simp⟩

omit [GuestMemory M] in
theorem bind {x : Exec (Recording M) α} {y : Exec M α} {f : α → Exec (Recording M) β} {g : α → Exec M β}
    (first : Recorded W c x y) (rest : Recorded W (y c).2 (f (y c).1) (g (y c).1)) :
    Recorded W c (x >>= f) (y >>= g) := by
  intro old
  obtain ⟨new, same, here⟩ := first old
  obtain ⟨new', same', here'⟩ := rest (old ++ new)
  refine ⟨new ++ new', ?_, ?_⟩
  · rw [bind_run same, same', List.append_assoc]
    rfl
  · simp only [List.filterMap_append, List.mem_append]
    rintro a (old | new)
    · exact here a old
    · exact here' a new

omit [GuestMemory M] in
theorem getCpu : Recorded W c Native.getCpu Native.getCpu :=
  fun old => ⟨[], by rw [List.append_nil]; rfl, by simp⟩

omit [GuestMemory M] in
theorem onCpu (f : Cpu → Cpu) : Recorded W c (Native.onCpu f) (Native.onCpu f) :=
  fun old => ⟨[], by rw [List.append_nil]; rfl, by simp⟩

omit [GuestMemory M] in
theorem thenNext (f : Cpu → Cpu) : Recorded W c (Native.thenNext f) (Native.thenNext f) :=
  .bind (.onCpu f) (.pure _)

theorem load (a : Addr) : Recorded W c (Native.load a) (Native.load a) :=
  fun old => ⟨[.read a (Native.load a c).1], load_recording a c old, by simp [Access.written?]⟩

theorem put {a : Addr} (here : a ∈ W) (v : UInt8) :
    Recorded W c (Native.put a v) (Native.put a v) := by
  intro old
  refine ⟨[.write a v], ?_, by simpa [Access.written?] using here⟩
  obtain ⟨cpu, memory, blocks, deviceFrom⟩ := c
  unfold Core.recording Native.put CodeBus.put
  dsimp only
  by_cases device : deviceFrom ≤ a
  · simp only [if_pos device]
    rfl
  · simp only [if_neg device]
    rfl

theorem push (here : stackAddr c.cpu.s ∈ W) (v : UInt8) :
    Recorded W c (Native.push v) (Native.push v) :=
  fun _ => ⟨[.write (stackAddr c.cpu.s) v], rfl, by simpa [Access.written?] using here⟩

theorem pull : Recorded W c Native.pull Native.pull :=
  fun _ => ⟨[.read _ _], rfl, by simp [Access.written?]⟩

omit [GuestMemory M] in
theorem retire (a pc : Addr) : Recorded W c (Native.retire a pc) (Native.retire a pc) :=
  fun old => ⟨[], by rw [List.append_nil]; rfl, by simp⟩

theorem loadPointer (a : Addr) : Recorded W c (Native.loadPointer a) (Native.loadPointer a) :=
  .bind (.load a) (.bind (.load _) (.pure _))

theorem loadOperand (mode : AddrMode) (operand : UInt16) :
    Recorded W c (Native.loadOperand mode operand) (Native.loadOperand mode operand) := by
  unfold Native.loadOperand
  split
  · exact .pure _
  · exact .bind .getCpu (.load _)

theorem writeBack {a : Addr} (here : a ∈ W) (op : Operation) (checked : Bool) (v result : UInt8)
    (cpu : Cpu) : Recorded W c
      (do
        Native.onCpu fun _ => cpu
        if checked then
          Native.put a v
        Native.put a result
        if op.mnemonic = .slo then
          Native.onCpu fun c => takeA (c.a ||| result) c)
      (do
        Native.onCpu fun _ => cpu
        if checked then
          Native.put a v
        Native.put a result
        if op.mnemonic = .slo then
          Native.onCpu fun c => takeA (c.a ||| result) c) := by
  have last : ∀ d : Core M, Recorded W d
      (if op.mnemonic = .slo then Native.onCpu fun c => takeA (c.a ||| result) c else Pure.pure ())
      (if op.mnemonic = .slo then Native.onCpu fun c => takeA (c.a ||| result) c
        else Pure.pure ()) := by
    intro d
    split
    · exact .onCpu _
    · exact .pure _
  refine .bind (.onCpu _) ?_
  dsimp only
  split
  · exact .bind (.put here v) (.bind (.put here result) (last _))
  · exact .bind (.put here result) (last _)

theorem modifyOperand {op : Operation} {operand : UInt16}
    (here : operandAddr op.mode operand c.cpu ∈ W) (checked : Bool) :
    Recorded W c (Native.modifyOperand op operand checked)
      (Native.modifyOperand op operand checked) :=
  .bind .getCpu (.bind (.load _) (.bind .getCpu (.writeBack here op checked _ _ _)))

end Recorded

def rawTargets (opcode : UInt8) (operand : UInt16) (cpu : Cpu) : List Addr :=
  match (operationOf opcode).mnemonic with
  | .sta | .stx | .sty | .sax => [operandAddr (operationOf opcode).mode operand cpu]
  | .asl | .lsr | .rol | .ror | .slo | .inc | .dec =>
    if (operationOf opcode).mode = .accumulator then []
    else [operandAddr (operationOf opcode).mode operand cpu]
  | .pha | .php => [stackAddr cpu.s]
  | _ => []

theorem rawTargets_of_writes {opcode : UInt8} {operand : UInt16} {cpu : Cpu} {a : Addr}
    (writes : (operationOf opcode).memUse.writes = true)
    (target : a ∈ rawTargets opcode operand cpu) :
    (operationOf opcode).mode ≠ .accumulator ∧
      a = operandAddr (operationOf opcode).mode operand cpu := by
  have memory : (operationOf opcode).memUse = .write → _ := memory_of_write
  unfold rawTargets at target
  unfold Operation.memUse at writes memory
  revert writes memory target
  cases (operationOf opcode).mnemonic with
  | sta | stx | sty | sax =>
    exact fun _ target memory => ⟨memory rfl, List.mem_singleton.mp target⟩
  | asl | lsr | rol | ror | slo | inc | dec =>
    intro _ target _
    dsimp only at target
    split at target
    · cases target
    · next memory => exact ⟨memory, List.mem_singleton.mp target⟩
  | _ => exact fun writes => nomatch writes

def targets (cpu : Cpu) : HostOp → List Addr
  | .uop (.raw opcode operand) | .modifyChecked opcode operand => rawTargets opcode operand cpu
  | .uop (.storeConst a _) => [a]
  | .uop (.pushWord _) => [stackAddr cpu.s, stackAddr (cpu.s - 1)]
  | _ => []

theorem recorded_raw (opcode : UInt8) (operand : UInt16) (checked : Bool) (c : Core M) :
    Recorded (rawTargets opcode operand c.cpu) c (raw opcode operand checked)
      (raw opcode operand checked) := by
  unfold raw rawTargets
  dsimp only
  cases (operationOf opcode).mnemonic with
  | adc | sbc | and | ora | eor | alr | bit | cmp | cpx | cpy | lda | ldx | ldy =>
    exact .bind (.loadOperand _ _) (.bind (.onCpu _) (.pure _))
  | nop =>
    dsimp only
    split
    · exact .bind (.loadOperand _ _) (.pure _)
    · exact .pure _
  | sta | stx | sty | sax => exact .bind .getCpu (.bind (.put (.head _) _) (.pure _))
  | asl | lsr | rol | ror | slo | inc | dec =>
    dsimp only
    by_cases acc : (operationOf opcode).mode = .accumulator
    · simp only [if_pos acc]
      exact .bind (.onCpu _) (.pure _)
    · simp only [if_neg acc]
      exact .bind (.modifyOperand (.head _) _) (.pure _)
  | pha | php => exact .bind .getCpu (.bind (.push (.head _) _) (.pure _))
  | pla | plp => exact .bind .pull (.bind (.onCpu _) (.pure _))
  | bcc | bcs | beq | bne | bmi | bpl | bvc | bvs => exact .bind .getCpu (.pure _)
  | exit | debugBreak | crash | brk | jmp | jsr | rts | rti | unknown => exact .pure _
  | _ => exact .bind (.onCpu _) (.pure _)

theorem recorded_execOp (op : HostOp) (c : Core M) :
    Recorded (targets c.cpu op) c (execOp op) (execOp op) := by
  cases op with
  | nop | trap => exact .pure _
  | modifyChecked opcode operand => exact recorded_raw opcode operand true c
  | uop u =>
    cases u with
    | raw opcode operand => exact recorded_raw opcode operand false c
    | retire | retireScratch | retireScratchY => exact .retire _ _
    | storeConst => exact .bind (.put (.head _) _) (.pure _)
    | pushWord =>
      exact .bind (.push (.head _) _) (.bind (.push (.tail _ (.head _)) _) (.pure _))
    | follow => exact .bind (.loadPointer _) (.thenNext _)
    | followScratch => exact .bind .getCpu (.bind (.loadPointer _) (.thenNext _))
    | pullScratch => exact .bind .pull (.bind .pull (.thenNext _))
    | countdown | observe | interpret | jump | undefined => exact .pure _
    | interpretIfDecimal | interpretIfIrq | jumpScratch => exact .bind .getCpu (.pure _)
    | _ => exact .thenNext _

theorem mem_targets {op : HostOp} {c : Core M} {a : Addr} (written : a ∈ op.written c) :
    a ∈ targets c.cpu op := by
  obtain ⟨new, same, here⟩ := recorded_execOp op c []
  unfold HostOp.written HostOp.accesses at written
  rw [same] at written
  exact here a written

def Walks : List HostOp → Core M → Core M → Prop
  | [], c, d => c = d
  | op :: ops, c, e => ∃ d, Continues (execOp op c).1 (execOp op c).2 d ∧ Walks ops d e

theorem walks_append {xs ys : List HostOp} {c e : Core M} :
    Walks (xs ++ ys) c e ↔ ∃ d, Walks xs c d ∧ Walks ys d e := by
  induction xs generalizing c with
  | nil => simp [Walks]
  | cons op xs ih =>
    simp only [List.cons_append, Walks, ih]
    constructor
    · rintro ⟨b, goes, d, first, rest⟩
      exact ⟨d, ⟨b, goes, first⟩, rest⟩
    · rintro ⟨d, ⟨b, goes, first⟩, rest⟩
      exact ⟨b, goes, d, first, rest⟩

theorem walks_next {op : HostOp} {ops : List HostOp} {c d e : Core M}
    (ends : execOp op c = (.next, d)) (walks : Walks (op :: ops) c e) : Walks ops d e := by
  obtain ⟨b, goes, rest⟩ := walks
  rw [ends] at goes
  cases goes
  exact rest

/-- Whatever the tables hold, the host instruction passes them the address, for the instruction at
`pc`. -/
def Announces (op : HostOp) (cpu : Cpu) (a pc : Addr) : Prop :=
  ∀ bus : CodeBus M, execOp op ⟨cpu, bus⟩ = retire a pc ⟨cpu, bus⟩

def Announced (ops : List HostOp) (c d : Core M) (a pc : Addr) : Prop :=
  ∃ before op behind e, ops = before ++ op :: behind ∧ Walks before c e ∧
    Announces (M := M) op e.cpu a pc ∧ Walks (op :: behind) e d

end Native

namespace Instruction

open Native

variable {M : Type} [GuestMemory M] {i : Instruction}

theorem targets_around_of_ne_jsr (m : M) (k : Record.Known) (o : LoweringOptions) (cpu : Cpu)
    (other : i.operation.mnemonic ≠ .jsr) {u : Uop}
    (mem : u ∈ i.observeUops o ∨ u ∈ i.modeUops o ∨ u ∈ i.retireUops o ∨ u ∈ i.beforeUops ∨
      u ∈ i.afterUops o) : targets cpu (HostOp.ofUop m (k.rewrite u)) = [] := by
  rcases mem with mem | mem | mem | mem | mem
  · rw [observe_of_mem mem]
    rfl
  · cases inMode_of_mem mem <;> rfl
  · cases inRetire_of_mem mem <;> rfl
  · cases inBefore_of_mem mem with
    | pushWord call => exact absurd call other
    | _ => rfl
  · cases inAfter_of_mem mem <;> rfl

theorem targets_around (m : M) (k : Record.Known) (o : LoweringOptions) (cpu : Cpu)
    (writes : i.operation.memUse.writes = true) {u : Uop}
    (mem : u ∈ i.observeUops o ∨ u ∈ i.modeUops o ∨ u ∈ i.retireUops o ∨ u ∈ i.beforeUops ∨
      u ∈ i.afterUops o) : targets cpu (HostOp.ofUop m (k.rewrite u)) = [] := by
  refine targets_around_of_ne_jsr m k o cpu (fun call => ?_) mem
  unfold Operation.memUse at writes
  rw [call] at writes
  cases writes

theorem mainUops_of_writes (writes : i.operation.memUse.writes = true) :
    i.mainUops = [.raw i.opcode i.operand] := by
  unfold Operation.memUse at writes
  unfold mainUops
  revert writes
  cases i.operation.mnemonic with
  | sta | stx | sty | sax | asl | lsr | rol | ror | slo | inc | dec => exact fun _ => rfl
  | _ => exact fun writes => nomatch writes

theorem targets_main (m : M) (k : Record.Known) {cpu : Cpu} {a : Addr}
    (writes : i.operation.memUse.writes = true)
    (target : a ∈ targets cpu (HostOp.ofUop m (k.rewrite (.raw i.opcode i.operand)))) :
    i.operation.mode ∈ storeModes ∧ a = operandAddr i.operation.mode i.operand cpu := by
  have inMemory : i.operation.mode ≠ .accumulator → i.operation.mode ∈ storeModes :=
    storeModes_of_writes writes
  rcases k.rewrite_raw i.opcode i.operand with h | ⟨_, _, h⟩ | ⟨_, _, h⟩ | ⟨v, h, stores⟩
  · have stored : a ∈ rawTargets i.opcode (storedOperand i.opcode i.operand) cpu := by
      rw [h] at target
      unfold HostOp.ofUop at target
      dsimp only at target
      split at target <;> exact target
    obtain ⟨memory, is⟩ := rawTargets_of_writes writes stored
    exact ⟨inMemory memory, is.trans (operandAddr_stored i (inMemory memory) cpu)⟩
  · rw [h] at target
    cases target
  · rw [h] at target
    cases target
  · have direct := i.operandAddr_of_direct stores cpu
    rw [h] at target
    rw [direct]
    refine ⟨inMemory fun acc => ?_, List.mem_singleton.mp target⟩
    revert acc
    have modes : ∀ opcode, opcode = 0x84 ∨ opcode = 0x8C ∨ opcode = 0x85 ∨ opcode = 0x8D ∨
        opcode = 0x86 ∨ opcode = 0x8E → (operationOf opcode).mode ≠ .accumulator := by
      rintro _ (rfl | rfl | rfl | rfl | rfl | rfl) <;> decide +kernel
    exact modes i.opcode
      (by rcases stores with ⟨h | h, _⟩ | ⟨h | h, _⟩ | ⟨h | h, _⟩ <;> simp [h])

/-- The effective address is the same, and nothing but the carry is fetched before the store. -/
theorem operandAddr_before {m : M} {k : Record.Known} (writes : i.operation.memUse.writes = true)
    {c d : Core M} (walks : Walks (i.beforeUops.map (HostOp.ofUop m ∘ k.rewrite)) c d)
    (mode : AddrMode) (operand : UInt16) :
    operandAddr mode operand d.cpu = operandAddr mode operand c.cpu := by
  unfold Operation.memUse at writes
  unfold beforeUops at walks
  revert writes walks
  cases i.operation.mnemonic with
  | rol | ror =>
    intro _ walks
    obtain rfl := walks_next (d := ⟨{ c.cpu with hostCarry := c.cpu.carry }, c.bus⟩) rfl walks
    cases mode <;> rfl
  | sta | stx | sty | sax | asl | lsr | slo | inc | dec =>
    rintro _ rfl
    rfl
  | _ => exact fun writes => nomatch writes

theorem announced_last {m : M} {k : Record.Known} (writes : i.operation.memUse.writes = true)
    {lead : List HostOp} {op : HostOp} {c e d : Core M} (first : Walks lead c e)
    (announces : Announces (M := M) op e.cpu (operandAddr i.operation.mode i.operand e.cpu) i.addr)
    (rest : Walks (op :: i.beforeUops.map (HostOp.ofUop m ∘ k.rewrite)) e d) :
    Announced (lead ++ op :: i.beforeUops.map (HostOp.ofUop m ∘ k.rewrite)) c d
      (operandAddr i.operation.mode i.operand d.cpu) i.addr := by
  have same : operandAddr i.operation.mode i.operand d.cpu
      = operandAddr i.operation.mode i.operand e.cpu := by
    obtain ⟨b, goes, walks⟩ := rest
    rw [operandAddr_before writes walks]
    rw [show execOp op e = _ from announces e.bus] at goes
    simp only [retire] at goes
    split at goes <;> cases goes <;> rfl
  exact ⟨lead, op, _, e, rfl, first, same ▸ announces, rest⟩

/-- The announcement comes last of what is executed for the addressing mode. Page zero has none while
code there is not tracked. -/
theorem announces_retireUops (m : M) (k : Record.Known) (o : LoweringOptions)
    (writes : i.operation.memUse.writes = true) (mode : i.operation.mode ∈ storeModes) :
    (∃ us u, i.modeUops o ++ i.retireUops o = us ++ [u] ∧
        ∀ c e : Core M, Walks (us.map (HostOp.ofUop m ∘ k.rewrite)) c e →
          Announces (M := M) (HostOp.ofUop m (k.rewrite u)) e.cpu
            (operandAddr i.operation.mode i.operand e.cpu) i.addr) ∨
      o.zeroPageCode = false ∧ i.operation.mode.staysInPageZero = true ∧ i.retireUops o = [] ∧
        ∀ c e : Core M, Walks ((i.modeUops o).map (HostOp.ofUop m ∘ k.rewrite)) c e →
          highByte (operandAddr i.operation.mode i.operand e.cpu) = 0 := by
  unfold Instruction.modeUops Instruction.retireUops
  rw [if_pos writes, refundsCrossing_of_writes writes]
  cases hm : i.operation.mode with
  | zeroPage =>
    have low : i.operand = i.low.toUInt16 := by
      simp only [Instruction.operand, hm]
    cases o.zeroPageCode with
    | true => exact .inl ⟨[], _, rfl, fun _ _ _ _ => rfl⟩
    | false =>
      refine .inr ⟨rfl, rfl, rfl, fun c e walks => ?_⟩
      exact (congrArg highByte low).trans (highByte_toUInt16 i.low)
  | zeroPageX =>
    cases o.zeroPageCode with
    | true => exact .inl ⟨[_], _, rfl, fun _ _ _ _ => rfl⟩
    | false =>
      refine .inr ⟨rfl, rfl, rfl, fun c e walks => ?_⟩
      obtain rfl := walks_next (d := ⟨{ c.cpu with scratch := (i.low + c.cpu.x).toUInt16 }, c.bus⟩)
        rfl walks
      exact highByte_toUInt16 _
  | zeroPageY =>
    cases o.zeroPageCode with
    | true => exact .inl ⟨[_], _, rfl, fun _ _ _ _ => rfl⟩
    | false =>
      refine .inr ⟨rfl, rfl, rfl, fun c e walks => ?_⟩
      obtain rfl := walks_next (d := ⟨{ c.cpu with scratch := (i.low + c.cpu.y).toUInt16 }, c.bus⟩)
        rfl walks
      exact highByte_toUInt16 _
  | absolute => exact .inl ⟨[], _, rfl, fun _ _ _ _ => rfl⟩
  | absoluteX =>
    refine .inl ⟨[.pointX i.operand], .retireScratch i.addr, rfl, fun c e walks bus => ?_⟩
    obtain rfl := walks_next (d := ⟨{ c.cpu with scratch := i.operand + c.cpu.x.toUInt16 }, c.bus⟩)
      rfl walks
    rfl
  | absoluteY =>
    refine .inl ⟨[.pointY i.operand], .retireScratch i.addr, rfl, fun c e walks bus => ?_⟩
    obtain rfl := walks_next (d := ⟨{ c.cpu with scratch := i.operand + c.cpu.y.toUInt16 }, c.bus⟩)
      rfl walks
    rfl
  | indexedIndirect => exact .inl ⟨[_, _], _, rfl, fun _ _ _ _ => rfl⟩
  | indirectIndexed => exact .inl ⟨[_], _, rfl, fun _ _ _ _ => rfl⟩
  | _ => rw [hm] at mode; simp [storeModes] at mode

theorem announced_before {m : M} {k : Record.Known} (o : LoweringOptions)
    (writes : i.operation.memUse.writes = true) (mode : i.operation.mode ∈ storeModes)
    {c d : Core M} (walks : Walks ((i.observeUops o ++ (i.modeUops o ++ i.retireUops o)
      ++ i.beforeUops).map (HostOp.ofUop m ∘ k.rewrite)) c d) :
    Announced ((i.observeUops o ++ (i.modeUops o ++ i.retireUops o) ++ i.beforeUops).map
        (HostOp.ofUop m ∘ k.rewrite)) c d (operandAddr i.operation.mode i.operand d.cpu) i.addr ∨
      o.zeroPageCode = false ∧ i.operation.mode.staysInPageZero = true ∧
        highByte (operandAddr i.operation.mode i.operand d.cpu) = 0 := by
  rcases announces_retireUops m k o writes mode with
    ⟨us, u, split, announces⟩ | ⟨off, stays, none, low⟩
  · have parts : (i.observeUops o ++ (i.modeUops o ++ i.retireUops o) ++ i.beforeUops).map
        (HostOp.ofUop m ∘ k.rewrite)
        = (i.observeUops o).map (HostOp.ofUop m ∘ k.rewrite) ++ us.map (HostOp.ofUop m ∘ k.rewrite)
          ++ HostOp.ofUop m (k.rewrite u) :: i.beforeUops.map (HostOp.ofUop m ∘ k.rewrite) := by
      simp [split]
    rw [parts] at walks ⊢
    obtain ⟨e, first, rest⟩ := walks_append.mp walks
    obtain ⟨_, _, pointing⟩ := walks_append.mp first
    exact .inl (announced_last writes first (announces _ e pointing) rest)
  · rw [none, List.append_nil, List.map_append, List.map_append] at walks
    obtain ⟨e, first, rest⟩ := walks_append.mp walks
    obtain ⟨_, _, pointing⟩ := walks_append.mp first
    rw [operandAddr_before writes rest]
    exact .inr ⟨off, stays, low _ e pointing⟩

end Instruction

namespace Native

variable {M : Type} [GuestMemory M]

/-- Whatever an instruction writes was announced by an earlier host instruction of the same pass, for
the instruction itself. Exempt is what stays in page zero, while code there is not tracked. -/
theorem stores_announced (m : M) (o : LoweringOptions) (k : Record.Known) (pc : Addr)
    (writes : (Instruction.fetch m pc).operation.memUse.writes = true)
    (translated : ∀ a, .interpret a ∉ ((lower m o pc).rewrite k).uopList)
    {before behind : List HostOp} {op : HostOp}
    (split : ((lower m o pc).rewrite k).uopList.map (HostOp.ofUop m) = before ++ op :: behind)
    {c d : Core M} (walks : Walks before c d) {a : Addr} (written : a ∈ op.written d) :
    Announced before c d a pc ∨
      o.zeroPageCode = false ∧ (Instruction.fetch m pc).operation.mode.staysInPageZero = true ∧
        highByte a = 0 := by
  have own : (Instruction.fetch m pc).addr = pc := rfl
  generalize fetched : Instruction.fetch m pc = i at writes own ⊢
  have target := mem_targets written
  have idle : ∀ us : List Uop, (∀ u ∈ us, u ∈ i.observeUops o ∨ u ∈ i.modeUops o ∨
      u ∈ i.retireUops o ∨ u ∈ i.beforeUops ∨ u ∈ i.afterUops o) →
      op ∉ us.map (HostOp.ofUop m ∘ k.rewrite) := by
    intro us around among
    obtain ⟨u, mem, rfl⟩ := List.mem_map.mp among
    rw [Function.comp_apply, Instruction.targets_around m k o d.cpu writes (around u mem)] at target
    cases target
  have parts : ((lower m o pc).rewrite k).uopList.map (HostOp.ofUop m)
      = (i.observeUops o ++ (i.modeUops o ++ i.retireUops o) ++ i.beforeUops).map
          (HostOp.ofUop m ∘ k.rewrite)
        ++ HostOp.ofUop m (k.rewrite (.raw i.opcode i.operand))
          :: (i.afterUops o).map (HostOp.ofUop m ∘ k.rewrite) := by
    rw [Record.uopList_rewrite, Record.uopList_lower, fetched] at translated ⊢
    cases needs : i.needsInterpreter m with
    | true =>
      rw [needs] at translated
      exact absurd (by simp [Record.Known.rewrite]) (translated pc)
    | false =>
      rw [if_neg Bool.false_ne_true, Instruction.bodyUops, Instruction.mainUops_of_writes writes]
      simp
  have ahead := idle (i.observeUops o ++ (i.modeUops o ++ i.retireUops o) ++ i.beforeUops) (by
    intro u mem
    simp only [List.mem_append] at mem
    rcases mem with (shown | pointing | retiring) | preparing
    · exact .inl shown
    · exact .inr (.inl pointing)
    · exact .inr (.inr (.inl retiring))
    · exact .inr (.inr (.inr (.inl preparing))))
  have after := idle (i.afterUops o) fun u mem => .inr (.inr (.inr (.inr mem)))
  rw [parts, List.append_cons_inj_of_notMem ahead after] at split
  obtain ⟨rfl, rfl, rfl⟩ := split
  obtain ⟨mode, rfl⟩ := Instruction.targets_main m k writes target
  rw [← own]
  exact Instruction.announced_before o writes mode walks

/-- A rotation of a byte that is write-protected, by an index that leaves the page. -/
def rotating : PagedMemory Unit :=
  (PagedMemory.blank.markPages 0x1300 0x13FF .rom).load 0x200 [0x7E, 0xF0, 0x12]

def rotates (scratch : UInt16) : Core (PagedMemory Unit) :=
  ⟨{ Cpu.powerOn with x := 0x20, scratch }, ⟨rotating, .empty, GuestMemory.deviceFrom rotating⟩⟩

/-- The byte is written twice, at an address announced two host instructions before. -/
theorem stores_announced_rotating :
    ((lower rotating {} 0x200).rewrite {}).uopList.map (HostOp.ofUop rotating)
        = [.uop (.pointX 0x12F0), .uop (.retireScratch 0x200), .uop .carryIn]
          ++ .modifyChecked 0x7E 0x12F0 :: [.uop .carryOut] ∧
      (HostOp.modifyChecked 0x7E 0x12F0).written (rotates 0x1310) = [0x1310, 0x1310] ∧
      Announced [.uop (.pointX 0x12F0), .uop (.retireScratch 0x200), .uop .carryIn] (rotates 0)
        (rotates 0x1310) 0x1310 0x200 := by
  have split : ((lower rotating {} 0x200).rewrite {}).uopList.map (HostOp.ofUop rotating)
      = [.uop (.pointX 0x12F0), .uop (.retireScratch 0x200), .uop .carryIn]
        ++ .modifyChecked 0x7E 0x12F0 :: [.uop .carryOut] := by decide +kernel
  have written : (HostOp.modifyChecked 0x7E 0x12F0).written (rotates 0x1310)
      = [0x1310, 0x1310] := by decide +kernel
  have uops : ((lower rotating {} 0x200).rewrite {}).uopList
      = [.pointX 0x12F0, .retireScratch 0x200, .carryIn, .raw 0x7E 0x12F0, .carryOut] := by
    decide +kernel
  have translated : ∀ a, .interpret a ∉ ((lower rotating {} 0x200).rewrite {}).uopList := by
    intro a
    rw [uops]
    simp
  have walks : Walks [.uop (.pointX 0x12F0), .uop (.retireScratch 0x200), .uop .carryIn]
      (rotates 0) (rotates 0x1310) := by
    have retires : execOp (.uop (.retireScratch 0x200)) (rotates 0x1310)
        = (.next, rotates 0x1310) := retire_empty _ _ _ _ _
    refine ⟨rotates 0x1310, .next _, rotates 0x1310, ?_, rotates 0x1310, .next _, rfl⟩
    rw [retires]
    exact .next _
  have store : (0x1310 : Addr) ∈ (HostOp.modifyChecked 0x7E 0x12F0).written (rotates 0x1310) := by
    rw [written]
    exact .head _
  refine ⟨split, written, ?_⟩
  refine (stores_announced rotating {} {} 0x200 (by decide +kernel) translated split walks
    store).resolve_right fun exempt => ?_
  exact absurd exempt.2.1 (by decide +kernel)

end Native

end Mos6502
