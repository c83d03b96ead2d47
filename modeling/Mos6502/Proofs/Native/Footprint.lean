import Mos6502.Proofs.Machine.Effects
import Mos6502.Proofs.Native.Announced
import Mos6502.Proofs.Native.Stack

/-! The bytes that compiled code may change. Every host instruction writes at its targets, and those
of an instruction are where the interpreter writes: at the effective address, which the host code has
found by then, or from the stack pointer on downwards. -/
namespace Mos6502

namespace Native

section Walks

variable {M : Type} [GuestMemory M] {S : Core M → Outcome → Core M → Prop} {Q : Core M → Prop}
  {c : Core M}

theorem along_walks {xs ys : List HostOp}
    (steps : ∀ op ∈ xs, ∀ c, S c (execOp op c).1 (execOp op c).2)
    (rest : ∀ d, Walks xs c d → Along S Q ys d) : Along S Q (xs ++ ys) c := by
  induction xs generalizing c with
  | nil => exact rest c rfl
  | cons op xs ih =>
    rw [List.forall_mem_cons] at steps
    exact ⟨steps.1 c, fun d goes => ih steps.2 fun e walks => rest e ⟨d, goes, walks⟩⟩

theorem walks_of_next {op : HostOp} {ops : List HostOp} {e : Core M}
    (ends : (execOp op c).1 = .next) (walks : Walks (op :: ops) c e) : Walks ops (execOp op c).2 e :=
  walks_next (Prod.ext ends rfl) walks

end Walks

variable {σ : Type} {W : List Addr}

theorem get_push_of_ne (v : UInt8) (c : Core (PagedMemory σ)) {x : Addr}
    (other : x ≠ stackAddr c.cpu.s) :
    (push v c).2.bus.memory.ram.get x = c.bus.memory.ram.get x := by
  obtain ⟨cpu, memory, blocks, deviceFrom⟩ := c
  exact PagedMemory.get_write_of_ne other.symm

theorem get_raw_of_notMem {opcode : UInt8} {operand : UInt16} (checked : Bool)
    {c : Core (PagedMemory σ)} {x : Addr} (outside : x ∉ rawTargets opcode operand c.cpu) :
    (raw opcode operand checked c).2.bus.memory.ram.get x = c.bus.memory.ram.get x := by
  have idle : ∀ {α : Type} {y : Exec (PagedMemory σ) α}, WritesIn (fun _ => False) y →
      (y c).2.bus.memory.ram.get x = c.bus.memory.ram.get x := fun h => h c x id
  unfold rawTargets at outside
  unfold raw
  dsimp only at outside ⊢
  cases named : (operationOf opcode).mnemonic with
  | adc | sbc | and | ora | eor | alr | bit | cmp | cpx | cpy | lda | ldx | ldy =>
    exact idle (.bind (.loadOperand _ _) fun _ => .bind (.onCpu _) fun _ => .pure _)
  | nop =>
    dsimp only
    split
    · exact idle (.bind (.loadOperand _ _) fun _ => .pure _)
    · rfl
  | sta | stx | sty | sax =>
    rw [named] at outside
    exact WritesIn.put (σ := σ) (W := (· ∈ [_])) (.head _) _ c x outside
  | asl | lsr | rol | ror | slo | inc | dec =>
    rw [named] at outside
    dsimp only at outside ⊢
    split
    · rfl
    · next memory =>
      rw [if_neg memory, List.mem_singleton] at outside
      exact writesIn_modify _ _ checked c x outside
  | pha | php =>
    rw [named] at outside
    exact get_push_of_ne _ c (List.ne_of_not_mem_cons outside)
  | pla | plp => exact idle (.bind .pull fun _ => .bind (.onCpu _) fun _ => .pure _)
  | bcc | bcs | beq | bne | bmi | bpl | bvc | bvs | exit | debugBreak | crash | brk | jmp | jsr | rts
  | rti | unknown => rfl
  | _ => exact idle (.bind (.onCpu _) fun _ => .pure _)

theorem get_execOp_of_notMem {op : HostOp} {c : Core (PagedMemory σ)} {x : Addr}
    (outside : x ∉ targets c.cpu op) :
    (execOp op c).2.bus.memory.ram.get x = c.bus.memory.ram.get x := by
  have idle : ∀ {u : Uop}, WritesIn (σ := σ) (fun _ => False) (exec u) →
      (exec u c).2.bus.memory.ram.get x = c.bus.memory.ram.get x := fun h => h c x id
  cases op with
  | nop | trap => rfl
  | modifyChecked opcode operand => exact get_raw_of_notMem true outside
  | uop u =>
    cases u with
    | raw opcode operand => exact get_raw_of_notMem false outside
    | storeConst a v => exact WritesIn.put (σ := σ) (W := (· ∈ [a])) (.head _) v c x outside
    | pushWord w =>
      change x ∉ [stackAddr c.cpu.s, stackAddr (c.cpu.s - 1)] at outside
      rw [List.mem_cons, not_or] at outside
      obtain ⟨high, low⟩ := outside
      exact (get_push_of_ne _ (push (highByte w) c).2 (List.ne_of_not_mem_cons low)).trans
        (get_push_of_ne _ c high)
    | follow => exact idle (.bind (.loadPointer _) fun _ => .thenNext _)
    | followScratch => exact idle (.bind .getCpu fun _ => .bind (.loadPointer _) fun _ => .thenNext _)
    | pullScratch => exact idle (.bind .pull fun _ => .bind .pull fun _ => .thenNext _)
    | retire | retireScratch | retireScratchY => rfl
    | _ => rfl

def KeepsOutside (W : List Addr) (c d : Core (PagedMemory σ)) : Prop :=
  ∀ x, x ∉ W → d.bus.memory.ram.get x = c.bus.memory.ram.get x

abbrev Writes (W : List Addr) : List HostOp → Core (PagedMemory σ) → Prop :=
  Along (fun c _ d => KeepsOutside W c d) fun _ => True

theorem keepsOutside_execOp {op : HostOp} {c : Core (PagedMemory σ)}
    (inside : ∀ a ∈ targets c.cpu op, a ∈ W) : KeepsOutside W c (execOp op c).2 :=
  fun _ outside => get_execOp_of_notMem fun target => outside (inside _ target)

theorem keepsOutside_of_idle {op : HostOp} (idle : ∀ cpu, targets cpu op = [])
    (c : Core (PagedMemory σ)) : KeepsOutside W c (execOp op c).2 :=
  keepsOutside_execOp fun a target => by
    rw [idle] at target
    cases target

theorem writes_of_idle {ops : List HostOp} (idle : ∀ op ∈ ops, ∀ cpu, targets cpu op = [])
    (c : Core (PagedMemory σ)) : Writes W ops c := by
  have done : ∀ d : Core (PagedMemory σ), Writes W [] d := fun _ => trivial
  rw [← List.append_nil ops]
  exact along_append (fun op mem => keepsOutside_of_idle (idle op mem)) done c

end Native

namespace Instruction

open Native

section Operand

variable {M : Type} [GuestMemory M] {i : Instruction} {o : LoweringOptions} {m : M}
  {k : Record.Known} {c d : Core M}

theorem walks_observeUops (walks : Walks ((i.observeUops o).map (HostOp.ofUop m ∘ k.rewrite)) c d) :
    ∃ pc, d = ⟨{ c.cpu with pc }, c.bus⟩ := by
  unfold observeUops at walks
  split at walks
  · obtain ⟨e, goes, rfl⟩ := walks
    cases goes with
    | unobserved => exact ⟨c.cpu.pc, rfl⟩
    | observed => exact ⟨_, rfl⟩
  · cases walks
    exact ⟨c.cpu.pc, rfl⟩

theorem operandAddr_modeUops (writes : i.operation.memUse.writes = true)
    (mode : i.operation.mode ∈ storeModes)
    (walks : Walks ((i.modeUops o).map (HostOp.ofUop m ∘ k.rewrite)) c d) :
    operandAddr i.operation.mode i.operand d.cpu = i.effective c.cpu c.bus := by
  obtain ⟨cpu, bus⟩ := c
  unfold modeUops at walks
  unfold effective operand
  rw [refundsCrossing_of_writes writes] at walks
  cases hm : i.operation.mode with
  | zeroPage | absolute | absoluteX | absoluteY =>
    rw [hm] at walks
    cases walks
    rfl
  | zeroPageX | zeroPageY =>
    rw [hm] at walks
    cases walks_of_next rfl walks
    rfl
  | indexedIndirect =>
    rw [hm] at walks
    cases walks_of_next rfl (walks_of_next rfl walks)
    rfl
  | indirectIndexed =>
    rw [hm] at walks
    cases walks_of_next rfl walks
    rfl
  | _ => rw [hm] at mode; simp [storeModes] at mode

theorem operandAddr_retireUops
    (walks : Walks ((i.retireUops o).map (HostOp.ofUop m ∘ k.rewrite)) c d) :
    operandAddr i.operation.mode i.operand d.cpu = operandAddr i.operation.mode i.operand c.cpu := by
  have retired : ∀ {u : Uop} {a : Addr} {c d : Core M}, exec u c = retire a i.addr c →
      Walks [.uop u] c d → d.cpu = c.cpu := by
    rintro u a c d is ⟨e, goes, rfl⟩
    change Continues (exec u c).1 (exec u c).2 e at goes
    rw [is] at goes
    simp only [retire] at goes
    split at goes <;> cases goes <;> rfl
  unfold retireUops at walks
  split at walks
  · cases hm : i.operation.mode with
    | absolute =>
      rw [hm] at walks
      rw [retired rfl walks]
    | absoluteX | absoluteY =>
      rw [hm] at walks
      rw [retired rfl (walks_of_next rfl walks)]
      rfl
    | indexedIndirect | indirectIndexed =>
      rw [hm] at walks
      rw [retired rfl walks]
    | zeroPage | zeroPageX | zeroPageY =>
      rw [hm] at walks
      dsimp only at walks
      split at walks
      · rw [retired rfl walks]
      · cases walks
        rfl
    | _ =>
      rw [hm] at walks
      cases walks
      rfl
  · cases walks
    rfl

/-- Up to the store the host code leads to the effective address. -/
theorem operandAddr_ahead (writes : i.operation.memUse.writes = true)
    (mode : i.operation.mode ∈ storeModes)
    (walks : Walks ((i.observeUops o ++ i.modeUops o ++ i.retireUops o ++ i.beforeUops).map
      (HostOp.ofUop m ∘ k.rewrite)) c d) :
    operandAddr i.operation.mode i.operand d.cpu = i.effective c.cpu c.bus := by
  simp only [List.map_append] at walks
  obtain ⟨c₃, walks, prepares⟩ := walks_append.mp walks
  obtain ⟨c₂, walks, retires⟩ := walks_append.mp walks
  obtain ⟨c₁, shows, finds⟩ := walks_append.mp walks
  obtain ⟨pc, rfl⟩ := walks_observeUops shows
  rw [operandAddr_before writes prepares, operandAddr_retireUops retires,
    operandAddr_modeUops writes mode finds]
  unfold effective
  cases i.operation.mode <;> rfl

theorem targets_main_of_idle (m : M) (k : Record.Known) (cpu : Cpu)
    (reads : i.operation.memUse.writes = false) (idle : i.operation.mnemonic.pushes = 0) {u : Uop}
    (mem : u ∈ i.mainUops) : targets cpu (HostOp.ofUop m (k.rewrite u)) = [] := by
  have raw : ∀ operand, rawTargets i.opcode operand cpu = [] := by
    intro operand
    unfold Operation.memUse operation at reads
    unfold operation at idle
    unfold rawTargets
    cases named : (operationOf i.opcode).mnemonic with
    | sta | stx | sty | sax | asl | lsr | rol | ror | slo | inc | dec =>
      rw [named] at reads
      cases reads
    | pha | php =>
      rw [named] at idle
      cases idle
    | _ => rfl
  have main : targets cpu (HostOp.ofUop m (k.rewrite (.raw i.opcode i.operand))) = [] := by
    rcases k.rewrite_raw i.opcode i.operand with is | ⟨_, _, is⟩ | ⟨_, _, is⟩ | ⟨_, _, stores⟩
    · rw [is]
      unfold HostOp.ofUop
      dsimp only
      split <;> exact raw _
    · rw [is]
      rfl
    · rw [is]
      rfl
    · have writes : ∀ opcode, opcode = 0x84 ∨ opcode = 0x8C ∨ opcode = 0x85 ∨ opcode = 0x8D ∨
          opcode = 0x86 ∨ opcode = 0x8E → (operationOf opcode).memUse.writes = true := by
        rintro _ (rfl | rfl | rfl | rfl | rfl | rfl) <;> decide +kernel
      have stored := writes i.opcode
        (by rcases stores with ⟨h | h, _⟩ | ⟨h | h, _⟩ | ⟨h | h, _⟩ <;> simp [h])
      exact absurd (reads.symm.trans stored) Bool.false_ne_true
  unfold mainUops at mem
  cases named : i.operation.mnemonic with
  | brk | jsr =>
    rw [named] at idle
    cases idle
  | jmp | lda | ldx | ldy =>
    rw [named] at mem
    dsimp only at mem
    split at mem <;> cases List.mem_singleton.mp mem <;> first | rfl | exact main
  | _ =>
    rw [named] at mem
    cases List.mem_singleton.mp mem
    first | rfl | exact main

end Operand

variable {σ : Type} {i : Instruction} {o : LoweringOptions}

theorem writes_store (m : PagedMemory σ) (k : Record.Known)
    (writes : i.operation.memUse.writes = true) (c : Core (PagedMemory σ)) :
    Writes (i.operation.reach c.cpu.s (i.effective c.cpu c.bus))
      ((i.observeUops o ++ i.bodyUops o).map (HostOp.ofUop m ∘ k.rewrite)) c := by
  have idle : ∀ us : List Uop, (∀ u ∈ us, u ∈ i.observeUops o ∨ u ∈ i.modeUops o ∨
      u ∈ i.retireUops o ∨ u ∈ i.beforeUops ∨ u ∈ i.afterUops o) →
      ∀ op ∈ us.map (HostOp.ofUop m ∘ k.rewrite), ∀ cpu, targets cpu op = [] := by
    intro us around op among cpu
    obtain ⟨u, mem, rfl⟩ := List.mem_map.mp among
    exact targets_around m k o cpu writes (around u mem)
  have parts : i.observeUops o ++ i.bodyUops o
      = (i.observeUops o ++ i.modeUops o ++ i.retireUops o ++ i.beforeUops)
        ++ .raw i.opcode i.operand :: i.afterUops o := by
    simp [bodyUops, mainUops_of_writes writes]
  rw [parts, List.map_append, List.map_cons]
  refine along_walks (fun op mem => keepsOutside_of_idle (idle _ (fun u mem => ?_) op mem))
    fun d walks => ⟨keepsOutside_execOp fun a target => ?_, fun e _ => ?_⟩
  · simp only [List.mem_append] at mem
    rcases mem with ((mem | mem) | mem) | mem <;> simp [mem]
  · obtain ⟨mode, rfl⟩ := targets_main m k writes target
    rw [operandAddr_ahead writes mode walks]
    exact Operation.effective_mem_reach writes (memory_of_store mode)
  · exact writes_of_idle (idle _ fun u mem => by simp [mem]) e

theorem writes_idle (m : PagedMemory σ) (k : Record.Known) {W : List Addr}
    (reads : i.operation.memUse.writes = false) (idle : i.operation.mnemonic.pushes = 0)
    (c : Core (PagedMemory σ)) :
    Writes W ((i.observeUops o ++ i.bodyUops o).map (HostOp.ofUop m ∘ k.rewrite)) c := by
  have other : i.operation.mnemonic ≠ .jsr := by
    intro call
    rw [call] at idle
    cases idle
  refine writes_of_idle (fun op among cpu => ?_) c
  obtain ⟨u, mem, rfl⟩ := List.mem_map.mp among
  have around := targets_around_of_ne_jsr m k o cpu other (u := u)
  rcases List.mem_append.mp mem with mem | mem
  · exact around (.inl mem)
  · rcases mem_bodyUops mem with mem | mem | mem | mem | mem
    · exact around (.inr (.inl mem))
    · exact around (.inr (.inr (.inl mem)))
    · exact around (.inr (.inr (.inr (.inl mem))))
    · exact targets_main_of_idle m k cpu reads idle mem
    · exact around (.inr (.inr (.inr (.inr mem))))

theorem opcode_of_pushes (pushes : i.operation.mnemonic.pushes ≠ 0) :
    i.opcode ∈ [0x08, 0x48] ∧ i.operation.mnemonic.pushes = 1 ∨
      i.opcode = 0x20 ∧ i.operation.mnemonic.pushes = 2 ∨
      i.opcode = 0x00 ∧ i.operation.mnemonic.pushes = 3 := by
  revert pushes
  unfold operation
  apply forall_byte (p := fun opcode => (operationOf opcode).mnemonic.pushes ≠ 0 →
    opcode ∈ [0x08, 0x48] ∧ (operationOf opcode).mnemonic.pushes = 1 ∨
      opcode = 0x20 ∧ (operationOf opcode).mnemonic.pushes = 2 ∨
      opcode = 0x00 ∧ (operationOf opcode).mnemonic.pushes = 3)
  decide +kernel

theorem ofUop_push (m : PagedMemory σ) (k : Record.Known) {opcode : UInt8}
    (pushes : opcode ∈ [0x08, 0x48, 0x78]) (operand : UInt16) :
    HostOp.ofUop m (k.rewrite (.raw opcode operand)) = .uop (.raw opcode 0) := by
  have facts : (operationOf opcode).mnemonic ∉ [.adc, .sbc, .sta, .stx, .sty] ∧
      (operationOf opcode).memUse ≠ .readWrite ∧ operandWidth opcode = 0 := by
    revert opcode
    decide +kernel
  rw [rewrite_other k facts.1, ofUop_raw m operand facts.2.1]
  simp [storedOperand, facts.2.2]

theorem uops_of_push (o : LoweringOptions) (pushes : i.opcode ∈ [0x08, 0x48]) :
    i.bodyUops o = [.raw i.opcode i.operand] := by
  have op : i.operation = ⟨.php, .implied, 3⟩ ∨ i.operation = ⟨.pha, .implied, 3⟩ := by
    unfold operation
    generalize i.opcode = opcode at pushes
    revert opcode
    decide +kernel
  unfold bodyUops modeUops retireUops beforeUops mainUops afterUops
  rcases op with op | op <;> rw [op] <;> rfl

theorem rawTargets_push {opcode : UInt8} (pushes : opcode ∈ [0x08, 0x48]) (cpu : Cpu) :
    rawTargets opcode 0 cpu = [stackAddr cpu.s] := by
  have named : (operationOf opcode).mnemonic = .php ∨ (operationOf opcode).mnemonic = .pha := by
    revert opcode
    decide +kernel
  unfold rawTargets
  rcases named with named | named <;> rw [named]

section Pushes

variable {W : List Addr} (m : PagedMemory σ) (k : Record.Known) {c : Core (PagedMemory σ)}

theorem writes_byte (push : i.opcode ∈ [0x08, 0x48]) (here : stackAddr c.cpu.s ∈ W) :
    Writes W ((i.bodyUops o).map (HostOp.ofUop m ∘ k.rewrite)) c := by
  have known : i.opcode ∈ [0x08, 0x48, 0x78] := by
    simp only [List.mem_cons, List.not_mem_nil, or_false] at push ⊢
    exact or_assoc.mp (.inl push)
  rw [uops_of_push o push, List.map_singleton, Function.comp_apply, ofUop_push m k known]
  refine ⟨keepsOutside_execOp fun a target => ?_, fun _ _ => trivial⟩
  change a ∈ rawTargets i.opcode 0 c.cpu at target
  rw [rawTargets_push push, List.mem_singleton] at target
  rwa [target]

theorem writes_pushWord {w : UInt16} {rest : List HostOp} (high : stackAddr c.cpu.s ∈ W)
    (low : stackAddr (c.cpu.s - 1) ∈ W)
    (after : ∀ d : Core (PagedMemory σ), d.cpu.s = c.cpu.s - 1 - 1 → Writes W rest d) :
    Writes W (.uop (.pushWord w) :: rest) c := by
  refine ⟨keepsOutside_execOp fun a target => ?_, fun d goes => after d ?_⟩
  · change a ∈ [stackAddr c.cpu.s, stackAddr (c.cpu.s - 1)] at target
    simp only [List.mem_cons, List.not_mem_nil, or_false] at target
    rcases target with rfl | rfl
    · exact high
    · exact low
  · cases goes
    rfl

theorem writes_call (jsr : i.opcode = 0x20) (high : stackAddr c.cpu.s ∈ W)
    (low : stackAddr (c.cpu.s - 1) ∈ W) :
    Writes W ((i.bodyUops o).map (HostOp.ofUop m ∘ k.rewrite)) c := by
  rw [(uops_of_jsr m o jsr).2]
  exact writes_pushWord high low fun d _ =>
    writes_of_idle (List.forall_mem_singleton.mpr fun _ => rfl) d

theorem writes_break (brk : i.opcode = 0x00) (high : stackAddr c.cpu.s ∈ W)
    (low : stackAddr (c.cpu.s - 1) ∈ W) (flags : stackAddr (c.cpu.s - 1 - 1) ∈ W) :
    Writes W ((i.bodyUops o).map (HostOp.ofUop m ∘ k.rewrite)) c := by
  have ops : (i.bodyUops o).map (HostOp.ofUop m ∘ k.rewrite) = [.uop (.pushWord (i.addr + 2)),
      .uop (.raw 0x08 0), .uop (.raw 0x78 0), .uop (.follow vectorIrq), .uop .jumpScratch] := by
    have php : HostOp.ofUop m (k.rewrite (.raw 0x08 0)) = .uop (.raw 0x08 0) :=
      ofUop_push m k (by decide) 0
    have sei : HostOp.ofUop m (k.rewrite (.raw 0x78 0)) = .uop (.raw 0x78 0) :=
      ofUop_push m k (by decide) 0
    rw [(uops_of_brk m o brk).2]
    simp only [List.map_cons, List.map_nil, Function.comp_apply, php, sei]
    rfl
  have idle : ∀ op ∈ [HostOp.uop (.raw 0x78 0), .uop (.follow vectorIrq), .uop .jumpScratch],
      ∀ cpu, targets cpu op = [] := by
    have sei : (operationOf 0x78).mnemonic = .sei := by decide +kernel
    simp [targets, rawTargets, sei]
  rw [ops]
  refine writes_pushWord high low fun d below => ⟨keepsOutside_execOp fun a target => ?_, fun e _ =>
    writes_of_idle idle e⟩
  change a ∈ rawTargets 0x08 0 d.cpu at target
  rw [rawTargets_push (by decide), List.mem_singleton, below] at target
  rwa [target]

end Pushes

theorem writes_push (m : PagedMemory σ) (k : Record.Known)
    (pushes : i.operation.mnemonic.pushes ≠ 0) (ea : Addr) (c : Core (PagedMemory σ)) :
    Writes (i.operation.reach c.cpu.s ea)
      ((i.observeUops o ++ i.bodyUops o).map (HostOp.ofUop m ∘ k.rewrite)) c := by
  have shown : ∀ op ∈ (i.observeUops o).map (HostOp.ofUop m ∘ k.rewrite),
      ∀ cpu, targets cpu op = [] := by
    intro op among cpu
    obtain ⟨u, mem, rfl⟩ := List.mem_map.mp among
    rw [observe_of_mem mem]
    rfl
  have below : ∀ n < i.operation.mnemonic.pushes,
      stackBelow c.cpu.s n ∈ i.operation.reach c.cpu.s ea :=
    fun _ => Operation.stackBelow_mem_reach
  rw [List.map_append]
  refine along_walks (fun op mem => keepsOutside_of_idle (shown op mem)) fun d walks => ?_
  obtain ⟨pc, rfl⟩ := walks_observeUops walks
  rcases opcode_of_pushes pushes with ⟨byte, count⟩ | ⟨jsr, count⟩ | ⟨brk, count⟩ <;>
    rw [count] at below
  · exact writes_byte m k byte (stackBelow_zero c.cpu.s ▸ below 0 (by decide))
  · exact writes_call m k jsr (stackBelow_zero c.cpu.s ▸ below 0 (by decide))
      (stackBelow_one c.cpu.s ▸ below 1 (by decide))
  · exact writes_break m k brk (stackBelow_zero c.cpu.s ▸ below 0 (by decide))
      (stackBelow_one c.cpu.s ▸ below 1 (by decide)) (stackBelow_two c.cpu.s ▸ below 2 (by decide))

end Instruction

namespace Native

variable {σ : Type}

theorem writes_lower (m : PagedMemory σ) (o : LoweringOptions) (k : Record.Known) (pc : Addr)
    (c : Core (PagedMemory σ)) :
    Writes ((Instruction.fetch m pc).reach c.cpu c.bus)
      (((lower m o pc).rewrite k).uopList.map (HostOp.ofUop m)) c := by
  rw [Record.uopList_rewrite, List.map_map, Record.uopList_lower]
  generalize Instruction.fetch m pc = i
  split
  · refine writes_of_idle (fun op among cpu => ?_) c
    obtain ⟨u, mem, rfl⟩ := List.mem_map.mp among
    rcases List.mem_append.mp mem with mem | mem
    · rw [Instruction.observe_of_mem mem]
      rfl
    · rw [List.mem_singleton.mp mem]
      rfl
  · cases writes : i.operation.memUse.writes with
    | true => exact Instruction.writes_store m k writes c
    | false =>
      by_cases pushes : i.operation.mnemonic.pushes = 0
      · exact Instruction.writes_idle m k writes pushes c
      · exact Instruction.writes_push m k pushes _ c

end Native

end Mos6502
