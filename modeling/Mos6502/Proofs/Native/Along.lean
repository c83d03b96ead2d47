import Mos6502.Engine.Native
import Mos6502.Proofs.Block.Layout
import Mos6502.Proofs.Memory.Paged

/-! Straight-line execution of host instructions. `Along` says that a condition holds of every
instruction executed, up to the one that does not go on to the next. -/
namespace Mos6502.Native

section Along

variable {M : Type} [GuestMemory M]

/-- How the instruction behind one that ended so begins. The observer sees the address as the
program counter, if there is one. -/
inductive Continues : Outcome → Core M → Core M → Prop
  | next (c : Core M) : Continues .next c c
  | stale (pc : Addr) (c : Core M) : Continues (.stale pc) c c
  | charge (addr : Addr) (cycles : UInt32) (c : Core M) :
    Continues (.charge addr cycles) c
      ⟨{ c.cpu with budget := c.cpu.budget - cycles.toNat }, c.bus⟩
  | unobserved (addr : Addr) (c : Core M) : Continues (.observe addr) c c
  | observed (addr : Addr) (c : Core M) :
    Continues (.observe addr) c ⟨{ c.cpu with pc := addr }, c.bus⟩

omit [GuestMemory M] in
theorem Continues.bus {out : Outcome} {c d : Core M} (h : Continues out c d) : d.bus = c.bus := by
  cases h <;> rfl

/-- `S` holds of each instruction that is executed, and `Q` where they all are. -/
def Along (S : Core M → Outcome → Core M → Prop) (Q : Core M → Prop) :
    List HostOp → Core M → Prop
  | [], c => Q c
  | op :: ops, c =>
    S c (execOp op c).1 (execOp op c).2 ∧
      ∀ d, Continues (execOp op c).1 (execOp op c).2 d → Along S Q ops d

variable {S : Core M → Outcome → Core M → Prop} {Q : Core M → Prop}

theorem along_next {op : HostOp} {ops : List HostOp} {c d : Core M}
    (ends : execOp op c = (.next, d)) :
    Along S Q (op :: ops) c ↔ S c .next d ∧ Along S Q ops d := by
  simp only [Along, ends]
  constructor
  · rintro ⟨step, rest⟩
    exact ⟨step, rest d (.next d)⟩
  · rintro ⟨step, rest⟩
    refine ⟨step, ?_⟩
    rintro _ ⟨⟩
    exact rest

theorem along_nops (quiet : ∀ c, S c .next c) (n : Nat) (ops : List HostOp) (c : Core M) :
    Along S Q (List.replicate n .nop ++ ops) c ↔ Along S Q ops c := by
  induction n with
  | zero => rfl
  | succ n ih =>
    rw [List.replicate_succ, List.cons_append, along_next (d := c) rfl, ih]
    simp [quiet c]

theorem along_placed (quiet : ∀ c, S c .next c) (m : M) (ps : List Placed) (ops : List HostOp)
    (c : Core M) :
    Along S Q (ps.flatMap (Placed.ops m) ++ ops) c ↔
      Along S Q (ps.map (fun p => HostOp.ofUop m p.uop) ++ ops) c := by
  induction ps generalizing c with
  | nil => rfl
  | cons p ps ih =>
    simp only [List.flatMap_cons, List.map_cons, List.cons_append, Placed.ops,
      List.append_assoc, Along, along_nops quiet, ih]

theorem along_append {xs ys : List HostOp}
    (steps : ∀ op ∈ xs, ∀ c, S c (execOp op c).1 (execOp op c).2) (rest : ∀ c, Along S Q ys c)
    (c : Core M) : Along S Q (xs ++ ys) c := by
  induction xs generalizing c with
  | nil => exact rest c
  | cons op xs ih =>
    rw [List.forall_mem_cons] at steps
    exact ⟨steps.1 c, fun d _ => ih steps.2 d⟩

variable {S' : Core M → Outcome → Core M → Prop} {ops : List HostOp} {c : Core M}

theorem Along.imp (steps : ∀ op ∈ ops, ∀ c, S c (execOp op c).1 (execOp op c).2 →
      S' c (execOp op c).1 (execOp op c).2) (h : Along S Q ops c) : Along S' Q ops c := by
  induction ops generalizing c with
  | nil => exact h
  | cons op ops ih =>
    rw [List.forall_mem_cons] at steps
    exact ⟨steps.1 c h.1, fun d goes => ih steps.2 (h.2 d goes)⟩

/-- What each step relates to where it starts is related to where the list starts. -/
theorem Along.since {R : Core M → Core M → Prop} {P : Outcome → Prop}
    (trans : ∀ {c d e}, R c d → R d e → R c e)
    (onward : ∀ {out} {d e : Core M}, Continues out d e → R d e) {start : Core M}
    (so : R start c) (h : Along (fun d out e => R d e ∧ P out) (fun _ => True) ops c) :
    Along (fun _ out e => R start e ∧ P out) (R start) ops c := by
  induction ops generalizing c with
  | nil => exact so
  | cons op ops ih =>
    obtain ⟨⟨first, ends⟩, rest⟩ := h
    have here := trans so first
    exact ⟨⟨here, ends⟩, fun d goes => ih (trans here (onward goes)) (rest d goes)⟩

end Along

variable {σ α β : Type}

/-- The computation ends so, and leaves the tables and the page map as they are. -/
def Tame (P : α → Prop) (x : Exec (PagedMemory σ) α) : Prop :=
  ∀ c, P (x c).1 ∧ (x c).2.bus.blocks = c.bus.blocks ∧
    (x c).2.bus.deviceFrom = c.bus.deviceFrom ∧
    (x c).2.bus.memory.pages = c.bus.memory.pages

namespace Tame

variable {P : α → Prop} {R : β → Prop}

theorem pure {v : α} (h : P v) : Tame (σ := σ) P (Pure.pure v) :=
  fun _ => ⟨h, rfl, rfl, rfl⟩

theorem bind {x : Exec (PagedMemory σ) α} {f : α → Exec (PagedMemory σ) β} (hx : Tame P x)
    (hf : ∀ v, P v → Tame R (f v)) : Tame R (x >>= f) := by
  intro c
  obtain ⟨value, blocks, threshold, pages⟩ := hx c
  obtain ⟨value', blocks', threshold', pages'⟩ := hf _ value (x c).2
  exact ⟨value', blocks'.trans blocks, threshold'.trans threshold, pages'.trans pages⟩

theorem getCpu : Tame (σ := σ) (fun _ => True) Native.getCpu :=
  fun _ => ⟨trivial, rfl, rfl, rfl⟩

theorem onCpu (f : Cpu → Cpu) : Tame (σ := σ) (fun _ => True) (Native.onCpu f) :=
  fun _ => ⟨trivial, rfl, rfl, rfl⟩

theorem load (a : Addr) : Tame (σ := σ) (fun _ => True) (Native.load a) := by
  rintro ⟨cpu, memory, blocks, deviceFrom⟩
  simp only [Native.load, CodeBus.load]
  split
  · exact ⟨trivial, rfl, rfl, memory.pages_deviceRead a⟩
  · exact ⟨trivial, rfl, rfl, rfl⟩

theorem put (a : Addr) (v : UInt8) : Tame (σ := σ) (fun _ => True) (Native.put a v) := by
  rintro ⟨cpu, memory, blocks, deviceFrom⟩
  simp only [Native.put, CodeBus.put]
  split
  · exact ⟨trivial, rfl, rfl, memory.pages_deviceWrite a v⟩
  · exact ⟨trivial, rfl, rfl, memory.pages_write a v⟩

theorem push (v : UInt8) : Tame (σ := σ) (fun _ => True) (Native.push v) := by
  rintro ⟨cpu, memory, blocks, deviceFrom⟩
  exact ⟨trivial, rfl, rfl, memory.pages_write (stackAddr cpu.s) v⟩

theorem pull : Tame (σ := σ) (fun _ => True) Native.pull :=
  fun _ => ⟨trivial, rfl, rfl, rfl⟩

theorem loadPointer (a : Addr) : Tame (σ := σ) (fun _ => True) (Native.loadPointer a) :=
  .bind (load a) fun _ _ => .bind (load _) fun _ _ => .pure trivial

theorem loadOperand (mode : AddrMode) (operand : UInt16) :
    Tame (σ := σ) (fun _ => True) (Native.loadOperand mode operand) := by
  unfold Native.loadOperand
  split
  · exact .pure trivial
  · exact .bind getCpu fun _ _ => load _

theorem modifyOperand (op : Operation) (operand : UInt16) (checked : Bool) :
    Tame (σ := σ) (fun _ => True) (Native.modifyOperand op operand checked) := by
  unfold Native.modifyOperand
  refine .bind getCpu fun _ _ => .bind (load _) fun v _ => .bind getCpu fun cpu _ => ?_
  obtain ⟨result, after⟩ := modify op.mnemonic v cpu
  refine .bind (onCpu _) fun _ _ => ?_
  have last : Tame (σ := σ) (fun _ => True)
      (if op.mnemonic = .slo then Native.onCpu fun c => takeA (c.a ||| result) c
      else Pure.pure ()) := by
    split
    · exact onCpu _
    · exact .pure trivial
  dsimp only
  split
  · exact .bind (put _ _) fun _ _ => .bind (put _ _) fun _ _ => last
  · exact .bind (put _ _) fun _ _ => last

end Tame

def raw? : HostOp → Option (UInt8 × UInt16)
  | .uop (.raw opcode operand) | .modifyChecked opcode operand => some (opcode, operand)
  | _ => none

def isUnraw (opcode : UInt8) : Bool :=
  match (operationOf opcode).mnemonic with
  | .brk | .jmp | .jsr | .rts | .rti | .unknown => true
  | _ => false

def stopsRun (opcode : UInt8) : Bool :=
  match (operationOf opcode).mnemonic with
  | .exit | .debugBreak | .crash => true
  | _ => false

def Leaves (op : HostOp) (addr : Addr) : Prop :=
  (∃ opcode, op = .uop (.undefined opcode addr)) ∨
    ∃ opcode, raw? op = some (opcode, addr) ∧ stopsRun opcode = true

/-- Outcomes of a host instruction that asks nothing of the engine. -/
def Direct (op : HostOp) : Outcome → Prop
  | .next | .jump _ => True
  | .leave addr _ => Leaves op addr
  | .illegal _ => ∃ opcode operand, raw? op = some (opcode, operand) ∧
      isUnraw opcode = true
  | _ => False

theorem tame_raw {op : HostOp} {opcode : UInt8} {operand : UInt16}
    (is : raw? op = some (opcode, operand)) (checked : Bool) :
    Tame (σ := σ) (Direct op) (raw opcode operand checked) := by
  unfold raw
  dsimp only
  cases kind : (operationOf opcode).mnemonic with
  | adc | sbc | and | ora | eor | alr | bit | cmp | cpx | cpy | lda | ldx | ldy =>
    exact .bind (.loadOperand _ _) fun _ _ => .bind (.onCpu _) fun _ _ => .pure trivial
  | nop =>
    dsimp only
    split
    · exact .bind (.loadOperand _ _) fun _ _ => .pure trivial
    · exact .pure trivial
  | sta | stx | sty | sax =>
    exact .bind .getCpu fun _ _ => .bind (.put _ _) fun _ _ => .pure trivial
  | asl | lsr | rol | ror | slo | inc | dec =>
    dsimp only
    split
    · exact .bind (.onCpu _) fun _ _ => .pure trivial
    · exact .bind (.modifyOperand _ _ _) fun _ _ => .pure trivial
  | pha | php => exact .bind .getCpu fun _ _ => .bind (.push _) fun _ _ => .pure trivial
  | pla | plp => exact .bind .pull fun _ _ => .bind (.onCpu _) fun _ _ => .pure trivial
  | bcc | bcs | beq | bne | bmi | bpl | bvc | bvs =>
    refine .bind .getCpu fun _ _ => ?_
    split <;> exact .pure trivial
  | exit | debugBreak | crash => exact .pure (.inr ⟨opcode, is, by rw [stopsRun, kind]⟩)
  | brk | jmp | jsr | rts | rti | unknown =>
    exact .pure ⟨opcode, operand, is, by rw [isUnraw, kind]⟩
  | _ => exact .bind (.onCpu _) fun _ _ => .pure trivial

def Retires (u : Uop) (pc : Addr) : Prop :=
  (∃ a, u = .retire a pc) ∨ u = .retireScratch pc ∨ u = .retireScratchY pc

def Asks (u : Uop) (addr : Addr) : Prop :=
  u = .interpret addr ∨ u = .interpretIfDecimal addr ∨ u = .interpretIfIrq addr

/-- What an outcome says of the instruction, and what became of the tables. -/
def Explained {M : Type} (op : HostOp) (c : Core M) (out : Outcome) (d : Core M) : Prop :=
  match out with
  | .next | .jump _ | .leave .. | .illegal _ => Direct op out ∧ d.bus.blocks = c.bus.blocks
  | .stale pc => ∃ u a, op = .uop u ∧ Retires u pc ∧ d.bus.blocks = c.bus.blocks.retire a
  | .charge addr cycles => op = .uop (.countdown addr cycles) ∧ d = c
  | .observe addr => op = .uop (.observe addr) ∧ d = c
  | .bounce addr => (∃ u, op = .uop u ∧ Asks u addr) ∧ d = c

theorem Direct.explained {M : Type} {op : HostOp} {c d : Core M} {out : Outcome}
    (direct : Direct op out) (blocks : d.bus.blocks = c.bus.blocks) : Explained op c out d := by
  cases out with
  | next | jump | leave | illegal => exact ⟨direct, blocks⟩
  | _ => exact direct.elim

theorem retire_explained {M : Type} [GuestMemory M] {u : Uop} {pc : Addr} (retires : Retires u pc)
    (a : Addr) (c : Core M) : Explained (.uop u) c (retire a pc c).1 (retire a pc c).2 := by
  obtain ⟨cpu, bus⟩ := c
  cases covered : bus.blocks.isCovered a with
  | true =>
    have out : (retire a pc (⟨cpu, bus⟩ : Core M)).1 = .stale pc := by simp [retire, covered]
    rw [out]
    exact ⟨u, a, rfl, retires, rfl⟩
  | false =>
    have out : (retire a pc (⟨cpu, bus⟩ : Core M)).1 = .next := by simp [retire, covered]
    rw [out]
    have unowned : bus.blocks.ptr? a = none := by
      simpa [BlockMap.isCovered] using covered
    refine ⟨trivial, ?_⟩
    change bus.blocks.retire a = bus.blocks
    simp [BlockMap.retire, BlockMap.owner?, unowned]

/-- What one host instruction does to everything but registers and memory bytes. -/
structure Framed {σ : Type} (op : HostOp) (c : Core (PagedMemory σ)) (out : Outcome)
    (d : Core (PagedMemory σ)) : Prop where
  explained : Explained op c out d
  threshold : d.bus.deviceFrom = c.bus.deviceFrom
  pages : d.bus.memory.pages = c.bus.memory.pages

theorem Tame.framed {x : Exec (PagedMemory σ) Outcome} {op : HostOp} (h : Tame (Direct op) x)
    (c : Core (PagedMemory σ)) : Framed op c (x c).1 (x c).2 := by
  obtain ⟨direct, blocks, threshold, pages⟩ := h c
  exact ⟨direct.explained blocks, threshold, pages⟩

theorem tame_thenNext (op : HostOp) (f : Cpu → Cpu) : Tame (σ := σ) (Direct op) (thenNext f) :=
  .bind (.onCpu f) fun _ _ => .pure trivial

theorem framed_exec (u : Uop) (c : Core (PagedMemory σ)) :
    Framed (.uop u) c (exec u c).1 (exec u c).2 := by
  cases u with
  | countdown a n => exact ⟨⟨rfl, rfl⟩, rfl, rfl⟩
  | observe a => exact ⟨⟨rfl, rfl⟩, rfl, rfl⟩
  | interpret a => exact ⟨⟨⟨_, rfl, .inl rfl⟩, rfl⟩, rfl, rfl⟩
  | interpretIfDecimal a =>
    cases hd : c.cpu.decimal with
    | true =>
      have out : exec (.interpretIfDecimal a) c = (.bounce a, c) := by
        change (if c.cpu.decimal then Outcome.bounce a else .next, c) = _
        rw [hd]
        rfl
      rw [out]
      exact ⟨⟨⟨_, rfl, .inr (.inl rfl)⟩, rfl⟩, rfl, rfl⟩
    | false =>
      have out : exec (.interpretIfDecimal a) c = (.next, c) := by
        change (if c.cpu.decimal then Outcome.bounce a else .next, c) = _
        rw [hd]
        rfl
      rw [out]
      exact ⟨⟨trivial, rfl⟩, rfl, rfl⟩
  | interpretIfIrq a =>
    cases hd : c.cpu.irq with
    | true =>
      have out : exec (.interpretIfIrq a) c = (.bounce a, c) := by
        change (if c.cpu.irq then Outcome.bounce a else .next, c) = _
        rw [hd]
        rfl
      rw [out]
      exact ⟨⟨⟨_, rfl, .inr (.inr rfl)⟩, rfl⟩, rfl, rfl⟩
    | false =>
      have out : exec (.interpretIfIrq a) c = (.next, c) := by
        change (if c.cpu.irq then Outcome.bounce a else .next, c) = _
        rw [hd]
        rfl
      rw [out]
      exact ⟨⟨trivial, rfl⟩, rfl, rfl⟩
  | retire a pc => exact ⟨retire_explained (.inl ⟨a, rfl⟩) a c, rfl, rfl⟩
  | retireScratch pc => exact ⟨retire_explained (.inr (.inl rfl)) c.cpu.scratch c, rfl, rfl⟩
  | retireScratchY pc =>
    exact ⟨retire_explained (.inr (.inr rfl)) (c.cpu.scratch + c.cpu.y.toUInt16) c, rfl, rfl⟩
  | raw opcode operand => exact (tame_raw rfl false).framed c
  | follow a =>
    have tame : Tame (σ := σ) (Direct (.uop (.follow a))) (exec (.follow a)) :=
      .bind (.loadPointer _) fun _ _ => tame_thenNext _ _
    exact tame.framed c
  | followScratch =>
    have tame : Tame (σ := σ) (Direct (.uop .followScratch)) (exec .followScratch) :=
      .bind .getCpu fun _ _ => .bind (.loadPointer _) fun _ _ => tame_thenNext _ _
    exact tame.framed c
  | pullScratch =>
    have tame : Tame (σ := σ) (Direct (.uop .pullScratch)) (exec .pullScratch) :=
      .bind .pull fun _ _ => .bind .pull fun _ _ => tame_thenNext _ _
    exact tame.framed c
  | pushWord w =>
    have tame : Tame (σ := σ) (Direct (.uop (.pushWord w))) (exec (.pushWord w)) :=
      .bind (.push _) fun _ _ => .bind (.push _) fun _ _ => .pure trivial
    exact tame.framed c
  | storeConst a v =>
    have tame : Tame (σ := σ) (Direct (.uop (.storeConst a v))) (exec (.storeConst a v)) :=
      .bind (.put _ _) fun _ _ => .pure trivial
    exact tame.framed c
  | jump | jumpScratch => exact ⟨⟨trivial, rfl⟩, rfl, rfl⟩
  | undefined opcode addr => exact ⟨⟨.inl ⟨opcode, rfl⟩, rfl⟩, rfl, rfl⟩
  | refundX | refundY | refundScratchY | refund | addConst | subConst | testA | testX | testY
  | incrScratch | clearA | clearX | clearY | carryIn | borrowIn | overflowIn | carryOut
  | borrowOut | overflowOut | pointX | pointY | pointZeroX | pointZeroY =>
    exact (tame_thenNext _ _).framed c

theorem framed_execOp (op : HostOp) (c : Core (PagedMemory σ)) :
    Framed op c (execOp op c).1 (execOp op c).2 := by
  cases op with
  | uop u => exact framed_exec u c
  | modifyChecked opcode operand => exact (tame_raw rfl true).framed c
  | nop | trap => exact ⟨⟨trivial, rfl⟩, rfl, rfl⟩

end Mos6502.Native
