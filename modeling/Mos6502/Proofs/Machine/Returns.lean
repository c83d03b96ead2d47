import Mos6502.Proofs.HostCode.RoundTrip
import Mos6502.Proofs.Machine.Fetch

/-! Calls and interrupts come back to where they left: what is pushed is what is pulled, whatever
the stack pointer, around the end of its page included. -/
namespace Mos6502

namespace PagedMemory

variable {σ : Type} {m : PagedMemory σ} {a : Addr}

theorem get_write_of_ram (ram : m.kindAt a = .ram) (v : UInt8) (x : Addr) :
    (m.write a v).ram.get x = if a = x then v else m.ram.get x := by
  unfold write
  rw [if_neg (by rw [ram]; decide)]
  exact AddrTable.get_set m.ram a x v

end PagedMemory

theorem stackAddr_inj {s t : UInt8} (same : stackAddr s = stackAddr t) : s = t := by
  have low : ∀ s, lowByte (stackAddr s) = s := by
    apply Native.forall_byte (p := fun s => lowByte (stackAddr s) = s)
    decide +kernel
  rw [← low s, ← low t, same]

def stackBelow (s : UInt8) (i : Nat) : Addr :=
  stackAddr (s - UInt8.ofNat i)

@[simp] theorem stackBelow_zero (s : UInt8) : stackBelow s 0 = stackAddr s :=
  congrArg stackAddr (UInt8.sub_zero s)

theorem stackBelow_succ (s : UInt8) (i : Nat) : stackBelow s (i + 1) = stackBelow (s - 1) i := by
  have same : s - UInt8.ofNat (i + 1) = s - 1 - UInt8.ofNat i := by
    rw [← UInt8.toNat_inj]
    have hs := s.toNat_lt
    simp only [UInt8.toNat_sub, UInt8.toNat_ofNat', UInt8.reduceToNat]
    omega
  exact congrArg stackAddr same

theorem stackBelow_one (s : UInt8) : stackBelow s 1 = stackAddr (s - 1) :=
  (stackBelow_succ s 0).trans (stackBelow_zero _)

theorem stackBelow_two (s : UInt8) : stackBelow s 2 = stackAddr (s - 1 - 1) :=
  (stackBelow_succ s 1).trans (stackBelow_one _)

theorem stackBelow_inj {s : UInt8} {i j : Nat} (hi : i < 256) (hj : j < 256)
    (same : stackBelow s i = stackBelow s j) : i = j := by
  have below := congrArg UInt8.toNat (stackAddr_inj same)
  have hs := s.toNat_lt
  simp only [UInt8.toNat_sub, UInt8.toNat_ofNat'] at below
  omega

namespace CodeBus

variable {σ : Type}

/-- Page 1 is RAM, and no page is a device. -/
structure Ordinary (b : CodeBus (PagedMemory σ)) : Prop where
  stack : b.memory.kindAt 0x0100 = .ram
  plain : ∀ a, b.memory.kindAt a ≠ .device

variable {b : CodeBus (PagedMemory σ)}

theorem ordinary_of_pages (pages : b.memory.pages = (PagedMemory.blank : PagedMemory σ).pages) :
    b.Ordinary := by
  have ram : ∀ a, b.memory.kindAt a = .ram := by
    intro a
    rw [PagedMemory.kindAt_congr pages]
    simp [PagedMemory.kindAt, PagedMemory.blank]
  refine ⟨ram _, fun a => ?_⟩
  rw [ram]
  decide

theorem Ordinary.read (h : b.Ordinary) (a : Addr) : Bus.read b a = (b.memory.ram.get a, b) := by
  obtain ⟨memory, blocks, deviceFrom⟩ := b
  change CodeBus.load _ a = _
  unfold CodeBus.load
  dsimp only
  split
  · rw [show GuestMemory.deviceRead memory a = (memory.ram.get a, memory) from
      PagedMemory.deviceRead_of_plain (h.plain a)]
  · rfl

theorem Ordinary.fetch (h : b.Ordinary) (a : Addr) :
    (Bus.fetch a : StateM (CodeBus (PagedMemory σ)) UInt8) b = (b.memory.ram.get a, b) :=
  h.read a

theorem Ordinary.fetchPointer (h : b.Ordinary) (a : Addr) :
    (Bus.fetchPointer a : StateM (CodeBus (PagedMemory σ)) UInt16) b
      = (word (b.memory.ram.get a) (b.memory.ram.get (nextInPage a)), b) := by
  unfold Bus.fetchPointer
  rw [bind_run (h.fetch a), bind_run (h.fetch (nextInPage a))]
  rfl

theorem Ordinary.memory_write (h : b.Ordinary) (a : Addr) (v : UInt8) :
    (Bus.write b a v).memory = b.memory.write a v := by
  obtain ⟨memory, blocks, deviceFrom⟩ := b
  change (CodeBus.put ⟨memory, blocks.retire a, deviceFrom⟩ a v).memory = _
  unfold CodeBus.put
  dsimp only
  split
  · exact PagedMemory.deviceWrite_of_plain (h.plain a)
  · rfl

theorem Ordinary.write (h : b.Ordinary) (a : Addr) (v : UInt8) : (Bus.write b a v).Ordinary := by
  have pages : (Bus.write b a v).memory.pages = b.memory.pages := by
    rw [h.memory_write, PagedMemory.pages_write]
  refine ⟨?_, fun x => ?_⟩
  · rw [PagedMemory.kindAt_congr pages]
    exact h.stack
  · rw [PagedMemory.kindAt_congr pages]
    exact h.plain x

/-- The bytes pushed from the stack pointer `s` on, the first one first. -/
def pushed (b : CodeBus (PagedMemory σ)) (s : UInt8) : List UInt8 → CodeBus (PagedMemory σ)
  | [] => b
  | v :: vs => (Bus.write b (stackAddr s) v).pushed (s - 1) vs

theorem Ordinary.pushed (h : b.Ordinary) (s : UInt8) (vs : List UInt8) : (b.pushed s vs).Ordinary := by
  induction vs generalizing b s with
  | nil => exact h
  | cons v vs ih => exact ih (h.write _ _) _

theorem Ordinary.get_write (h : b.Ordinary) (s v : UInt8) (x : Addr) :
    (Bus.write b (stackAddr s) v).memory.ram.get x
      = if stackAddr s = x then v else b.memory.ram.get x := by
  have ram : b.memory.kindAt (stackAddr s) = .ram := by
    rw [← h.stack]
    exact PagedMemory.kindAt_of_page (Native.highByte_stackAddr s)
  rw [h.memory_write, PagedMemory.get_write_of_ram ram]

theorem Ordinary.get_pushed_of_ne (h : b.Ordinary) {s : UInt8} {vs : List UInt8} {x : Addr}
    (other : ∀ i < vs.length, x ≠ stackBelow s i) :
    (b.pushed s vs).memory.ram.get x = b.memory.ram.get x := by
  induction vs generalizing b s with
  | nil => rfl
  | cons v vs ih =>
    have first : stackAddr s ≠ x := by
      rw [← stackBelow_zero]
      exact (other 0 (Nat.succ_pos _)).symm
    have below : ∀ i < vs.length, x ≠ stackBelow (s - 1) i := by
      intro i inside
      rw [← stackBelow_succ]
      exact other (i + 1) (Nat.succ_lt_succ inside)
    rw [CodeBus.pushed, ih (h.write _ _) below, h.get_write, if_neg first]

theorem Ordinary.get_pushed_elsewhere (h : b.Ordinary) (s : UInt8) (vs : List UInt8) {x : Addr}
    (elsewhere : highByte x ≠ 1) : (b.pushed s vs).memory.ram.get x = b.memory.ram.get x := by
  apply h.get_pushed_of_ne
  intro i _ same
  rw [same] at elsewhere
  exact elsewhere (Native.highByte_stackAddr _)

def handler (b : CodeBus (PagedMemory σ)) : Addr :=
  word (b.memory.ram.get vectorIrq) (b.memory.ram.get (vectorIrq + 1))

theorem Ordinary.handler_pushed (h : b.Ordinary) (s : UInt8) (vs : List UInt8) :
    (b.pushed s vs).handler = b.handler := by
  unfold handler
  rw [h.get_pushed_elsewhere s vs (by decide), h.get_pushed_elsewhere s vs (by decide)]

/-- What was pushed is read back, as long as it is not more than the page holds. -/
theorem Ordinary.get_pushed (h : b.Ordinary) {s v : UInt8} {vs : List UInt8} {i : Nat}
    (fits : vs.length ≤ 256) (there : vs[i]? = some v) :
    (b.pushed s vs).memory.ram.get (stackBelow s i) = v := by
  induction vs generalizing b s i with
  | nil => cases there
  | cons w vs ih =>
    rw [CodeBus.pushed]
    cases i with
    | zero =>
      have above : ∀ i < vs.length, stackBelow s 0 ≠ stackBelow (s - 1) i := by
        intro i later same
        rw [← stackBelow_succ] at same
        have fits : i + 1 < 256 := Nat.lt_of_lt_of_le (Nat.succ_lt_succ later) fits
        exact absurd (stackBelow_inj (by decide) fits same) (Nat.succ_ne_zero i).symm
      rw [(h.write _ _).get_pushed_of_ne above, stackBelow_zero, h.get_write, if_pos rfl]
      exact Option.some.inj there
    | succ i =>
      rw [stackBelow_succ]
      exact ih (h.write _ _) (Nat.le_of_succ_le fits) there

theorem Ordinary.read_pushed (h : b.Ordinary) {s v : UInt8} {vs : List UInt8} {i : Nat}
    (fits : vs.length ≤ 256) (there : vs[i]? = some v) :
    Bus.read (b.pushed s vs) (stackBelow s i) = (v, b.pushed s vs) := by
  rw [(h.pushed s vs).read, h.get_pushed fits there]

end CodeBus

theorem Cpu.flags_withFlags (c : Cpu) (p : UInt8) :
    (c.withFlags p).flags = p ||| flagB ||| flagBit5 := by
  change (powerOn.withFlags p).flags = _
  apply Native.forall_byte (p := fun p => (powerOn.withFlags p).flags = p ||| flagB ||| flagBit5)
  decide +kernel

theorem forced_bits (p : UInt8) :
    ((p &&& ~~~flagB) ||| flagBit5) ||| flagB ||| flagBit5 = p ||| flagB ||| flagBit5 ∧
      (p ||| flagB ||| flagBit5) ||| flagB ||| flagBit5 = p ||| flagB ||| flagBit5 := by
  apply Native.forall_byte (p := fun p =>
    ((p &&& ~~~flagB) ||| flagBit5) ||| flagB ||| flagBit5 = p ||| flagB ||| flagBit5 ∧
      (p ||| flagB ||| flagBit5) ||| flagB ||| flagBit5 = p ||| flagB ||| flagBit5)
  decide +kernel

namespace Interpreter

section Perform

variable {B : Type} [Bus B]

theorem perform_brk (low high : UInt8) (cpu : Cpu) :
    (perform 0x00 low high cpu : StateM B (Step × Cpu)) = do
      let cpu ← pushWord cpu (cpu.pc + 2)
      let cpu ← push cpu cpu.pushedFlags
      let pc ← Bus.fetchPointer vectorIrq
      return done (cpu.setMasked true) pc 7 := by
  have op : operationOf 0x00 = ⟨.brk, .implied, 7⟩ := by decide
  unfold perform
  rw [op]
  rfl

theorem perform_jsr (low high : UInt8) (cpu : Cpu) :
    (perform 0x20 low high cpu : StateM B (Step × Cpu)) = do
      let cpu ← pushWord cpu (cpu.pc + 2)
      return done cpu (word low high) 6 := by
  have op : operationOf 0x20 = ⟨.jsr, .absolute, 6⟩ := by decide
  unfold perform
  rw [op]
  rfl

theorem perform_rti (low high : UInt8) (cpu : Cpu) :
    (perform 0x40 low high cpu : StateM B (Step × Cpu)) = do
      let (p, cpu) ← pull cpu
      let (pc, cpu) ← pullWord (cpu.withFlags p)
      return done cpu pc 6 := by
  have op : operationOf 0x40 = ⟨.rti, .implied, 6⟩ := by decide
  unfold perform
  rw [op]
  rfl

theorem perform_rts (low high : UInt8) (cpu : Cpu) :
    (perform 0x60 low high cpu : StateM B (Step × Cpu)) = do
      let (pc, cpu) ← pullWord cpu
      return done cpu (pc + 1) 6 := by
  have op : operationOf 0x60 = ⟨.rts, .implied, 6⟩ := by decide
  unfold perform
  rw [op]
  rfl

end Perform

variable {σ : Type} {b : CodeBus (PagedMemory σ)} {cpu cpu' : Cpu} {pc : Addr} {p : UInt8}

theorem step_eq (h : b.Ordinary) {opcode : UInt8} (here : b.memory.ram.get cpu.pc = opcode) :
    step cpu b = perform opcode (b.memory.ram.get (cpu.pc + 1)) (b.memory.ram.get (cpu.pc + 2))
      cpu b := by
  rw [← here]
  exact step_of_reads b.memory.ram.get fun _ _ => h.read _

/-- A call has come back to `pc`, and `depth` bytes of the stack are all that has changed. -/
structure ComesBack (cpu : Cpu) (b : CodeBus (PagedMemory σ)) (pc : Addr) (flags : UInt8)
    (depth : Nat) (out : (Step × Cpu) × CodeBus (PagedMemory σ)) : Prop where
  completes : out.1.1.exit = none
  a : out.1.2.a = cpu.a
  x : out.1.2.x = cpu.x
  y : out.1.2.y = cpu.y
  s : out.1.2.s = cpu.s
  pc : out.1.2.pc = pc
  flags : out.1.2.flags = flags
  memory : ∀ x, (∀ i < depth, x ≠ stackBelow cpu.s i) →
    out.2.memory.ram.get x = b.memory.ram.get x

theorem step_rti (h : b.Ordinary) (rti : b.memory.ram.get cpu.pc = 0x40) {s₁ s₂ s₃ lo hi : UInt8}
    (first : cpu.s + 1 = s₁) (flags : Bus.read b (stackAddr s₁) = (p, b))
    (second : s₁ + 1 = s₂) (low : Bus.read b (stackAddr s₂) = (lo, b))
    (third : s₂ + 1 = s₃) (high : Bus.read b (stackAddr s₃) = (hi, b)) :
    step cpu b = (done { cpu.withFlags p with s := s₃ } (word lo hi) 6, b) := by
  have back : pullWord ({ cpu with s := s₁ }.withFlags p) b
      = ((word lo hi, { cpu.withFlags p with s := s₃ }), b) :=
    pullWord_of_reads second low third high
  rw [step_eq h rti, perform_rti, bind_run (pull_of_read first flags)]
  dsimp only
  rw [bind_run back]
  rfl

/-- A handler that returns at once from behind what an interrupt or a break has pushed. -/
theorem rti_comes_back (h : b.Ordinary) (a : cpu'.a = cpu.a) (x : cpu'.x = cpu.x)
    (y : cpu'.y = cpu.y) (s : cpu'.s = cpu.s - 1 - 1 - 1)
    (rti : (b.pushed cpu.s [highByte pc, lowByte pc, p]).memory.ram.get cpu'.pc = 0x40) :
    ComesBack cpu b pc (p ||| flagB ||| flagBit5) 3
      (step cpu' (b.pushed cpu.s [highByte pc, lowByte pc, p])) := by
  have fits : [highByte pc, lowByte pc, p].length ≤ 256 := by simp
  have first : cpu'.s + 1 = cpu.s - 1 - 1 := by rw [s, UInt8.sub_add_cancel]
  have returns := step_rti (h.pushed _ _) rti first
    (stackBelow_two cpu.s ▸ h.read_pushed fits rfl) (UInt8.sub_add_cancel _ _)
    (stackBelow_one cpu.s ▸ h.read_pushed fits rfl) (UInt8.sub_add_cancel _ _)
    (stackBelow_zero cpu.s ▸ h.read_pushed fits rfl)
  rw [word_lowByte_highByte] at returns
  rw [returns]
  exact ⟨rfl, a, x, y, rfl, rfl, cpu'.flags_withFlags p, fun x outside => h.get_pushed_of_ne outside⟩

theorem pushWord_eq (cpu : Cpu) (w : UInt16) (b : CodeBus (PagedMemory σ)) :
    pushWord cpu w b
      = ({ cpu with s := cpu.s - 1 - 1 }, b.pushed cpu.s [highByte w, lowByte w]) :=
  rfl

theorem push_third (cpu : Cpu) (hi lo p : UInt8) (b : CodeBus (PagedMemory σ)) :
    push { cpu with s := cpu.s - 1 - 1 } p (b.pushed cpu.s [hi, lo])
      = ({ cpu with s := cpu.s - 1 - 1 - 1 }, b.pushed cpu.s [hi, lo, p]) :=
  rfl

theorem interrupt_eq (h : b.Ordinary) (cpu : Cpu) :
    interrupt cpu b = ((interruptCycles,
        { cpu.setMasked true with s := cpu.s - 1 - 1 - 1, pc := b.handler }),
      b.pushed cpu.s
        [highByte cpu.pc, lowByte cpu.pc, (cpu.flags &&& ~~~flagB) ||| flagBit5]) := by
  have saved := h.pushed cpu.s
    [highByte cpu.pc, lowByte cpu.pc, (cpu.flags &&& ~~~flagB) ||| flagBit5]
  have flags : ({ cpu with s := cpu.s - 1 - 1 } : Cpu).flags = cpu.flags := rfl
  unfold interrupt
  rw [bind_run (pushWord_eq cpu _ b), flags, bind_run (push_third cpu _ _ _ b),
    bind_run (saved.fetch _), bind_run (saved.fetch _), ← h.handler_pushed]
  rfl

theorem step_brk (h : b.Ordinary) (brk : b.memory.ram.get cpu.pc = 0x00) :
    step cpu b = (done { cpu.setMasked true with s := cpu.s - 1 - 1 - 1 } b.handler 7,
      b.pushed cpu.s [highByte (cpu.pc + 2), lowByte (cpu.pc + 2), cpu.pushedFlags]) := by
  have saved := h.pushed cpu.s [highByte (cpu.pc + 2), lowByte (cpu.pc + 2), cpu.pushedFlags]
  have flags : ({ cpu with s := cpu.s - 1 - 1 } : Cpu).pushedFlags = cpu.pushedFlags := rfl
  rw [step_eq h brk, perform_brk, bind_run (pushWord_eq cpu _ b), flags,
    bind_run (push_third cpu _ _ _ b), bind_run (saved.fetchPointer _), ← h.handler_pushed]
  rfl

theorem step_jsr (h : b.Ordinary) (jsr : b.memory.ram.get cpu.pc = 0x20) :
    step cpu b = (done { cpu with s := cpu.s - 1 - 1 }
        (word (b.memory.ram.get (cpu.pc + 1)) (b.memory.ram.get (cpu.pc + 2))) 6,
      b.pushed cpu.s [highByte (cpu.pc + 2), lowByte (cpu.pc + 2)]) := by
  rw [step_eq h jsr, perform_jsr, bind_run (pushWord_eq cpu _ b)]
  rfl

theorem step_rts (h : b.Ordinary) (rts : b.memory.ram.get cpu.pc = 0x60) {s t lo hi : UInt8}
    (first : cpu.s + 1 = s) (low : Bus.read b (stackAddr s) = (lo, b))
    (second : s + 1 = t) (high : Bus.read b (stackAddr t) = (hi, b)) :
    step cpu b = (done { cpu with s := t } (word lo hi + 1) 6, b) := by
  rw [step_eq h rts, perform_rts, bind_run (pullWord_of_reads first low second high)]
  rfl

theorem interrupt_comes_back (h : b.Ordinary)
    (rti : (interrupt cpu b).2.memory.ram.get (interrupt cpu b).1.2.pc = 0x40) :
    ComesBack cpu b cpu.pc (cpu.flags ||| flagB ||| flagBit5) 3
      (step (interrupt cpu b).1.2 (interrupt cpu b).2) := by
  rw [interrupt_eq h] at rti ⊢
  rw [← (forced_bits cpu.flags).1]
  exact rti_comes_back h rfl rfl rfl rfl rti

theorem brk_comes_back (h : b.Ordinary) (brk : b.memory.ram.get cpu.pc = 0x00)
    (rti : (step cpu b).2.memory.ram.get (step cpu b).1.2.pc = 0x40) :
    ComesBack cpu b (cpu.pc + 2) (cpu.flags ||| flagB ||| flagBit5) 3
      (step (step cpu b).1.2 (step cpu b).2) := by
  rw [step_brk h brk] at rti ⊢
  rw [← (forced_bits cpu.flags).2]
  exact rti_comes_back h rfl rfl rfl rfl rti

theorem jsr_comes_back (h : b.Ordinary) (jsr : b.memory.ram.get cpu.pc = 0x20)
    (rts : (step cpu b).2.memory.ram.get (step cpu b).1.2.pc = 0x60) :
    ComesBack cpu b (cpu.pc + 3) cpu.flags 2 (step (step cpu b).1.2 (step cpu b).2) := by
  rw [step_jsr h jsr] at rts ⊢
  have fits : [highByte (cpu.pc + 2), lowByte (cpu.pc + 2)].length ≤ 256 := by simp
  have returns := step_rts (h.pushed _ _) rts (UInt8.sub_add_cancel _ _)
    (stackBelow_one cpu.s ▸ h.read_pushed fits rfl) (UInt8.sub_add_cancel _ _)
    (stackBelow_zero cpu.s ▸ h.read_pushed fits rfl)
  have behind : word (lowByte (cpu.pc + 2)) (highByte (cpu.pc + 2)) + 1 = cpu.pc + 3 := by
    rw [word_lowByte_highByte, UInt16.add_assoc]
    rfl
  rw [behind] at returns
  rw [returns]
  exact ⟨rfl, rfl, rfl, rfl, rfl, rfl, rfl, fun x outside => h.get_pushed_of_ne outside⟩

end Interpreter

end Mos6502
