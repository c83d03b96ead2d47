import Mos6502.Proofs.Native.Footprint
import Mos6502.Proofs.Native.Peephole

/-! The tables hold of compiled code, too. Whatever the host code of an instruction has executed so
far, it has changed no register and no byte that the interpreter would not, and where control does
not branch it falls through or is handed to the interpreter. -/
namespace Mos6502

namespace Native

theorem ofUop_spares {M : Type} [GuestMemory M] (m : M) (u : Uop) (c : Core M) :
    u.register.Spares u.touchesCarry c.cpu (execOp (HostOp.ofUop m u) c).2.cpu := by
  cases u with
  | raw opcode operand =>
    unfold HostOp.ofUop
    dsimp only
    split
    · exact raw_spares opcode _ true c
    · exact raw_spares opcode _ false c
  | _ => exact exec_spares _ c

def Falls (pc : Addr) (out : Outcome) : Prop :=
  out.staysInside = true ∨ out = .bounce pc

theorem raw_next {M : Type} [GuestMemory M] {opcode : UInt8} (never : (operationOf opcode).branch = .never)
    (operand : UInt16) (checked : Bool) (c : Core M) : (raw opcode operand checked c).1 = .next := by
  unfold Operation.branch at never
  unfold raw
  dsimp only
  cases named : (operationOf opcode).mnemonic with
  | brk | jmp | jsr | rti | rts | exit | debugBreak | crash | unknown | bcc | bcs | bne | beq | bpl
  | bmi | bvc | bvs =>
    rw [named] at never
    cases never
  | nop | asl | lsr | rol | ror | slo | inc | dec =>
    dsimp only
    split <;> rfl
  | _ => rfl

end Native

namespace Uop

theorem within_rewrite (k : Record.Known) {op : Operation} {u : Uop} (h : u.within op = true) :
    (k.rewrite u).within op = true := by
  cases u with
  | raw opcode operand =>
    have sums : (operationOf 0x69).register = .a ∧ (operationOf 0xE9).register = .a := by
      decide +kernel
    rcases k.rewrite_raw opcode operand with is | ⟨rfl, _, is⟩ | ⟨rfl, _, is⟩ | ⟨_, is, _⟩
    · rwa [is]
    · rw [within_raw, sums.1] at h
      rw [is]
      exact Bool.and_eq_true_iff.mpr ⟨(Bool.and_eq_true_iff.mp h).1, rfl⟩
    · rw [within_raw, sums.2] at h
      rw [is]
      exact Bool.and_eq_true_iff.mpr ⟨(Bool.and_eq_true_iff.mp h).1, rfl⟩
    · rw [is]
      rfl
  | _ => exact h

end Uop

namespace Record

variable {M : Type} [GuestMemory M]

theorem within_lower (m : M) (o : LoweringOptions) (pc : Addr) {u : Uop}
    (among : u ∈ (lower m o pc).uopList) :
    u.within (Instruction.fetch m pc).operation = true := by
  rw [uopList_lower, List.mem_append] at among
  rcases among with shown | among
  · rw [Instruction.observe_of_mem shown]
    rfl
  · split at among
    · rw [List.mem_singleton.mp among]
      rfl
    · exact List.all_eq_true.mp (Instruction.within_bodyUops o _) u among

end Record

namespace Instruction

open Native

variable {M : Type} [GuestMemory M] {i : Instruction} {o : LoweringOptions}

theorem mainUops_of_never (never : i.operation.branch = .never) {u : Uop} (mem : u ∈ i.mainUops) :
    u = .raw i.opcode i.operand ∨ u ∈ [.clearA, .clearX, .clearY] := by
  unfold mainUops at mem
  unfold Operation.branch at never
  cases named : i.operation.mnemonic with
  | brk | jmp | jsr | rts | unknown => rw [named] at never; cases never
  | lda | ldx | ldy =>
    rw [named] at mem
    dsimp only at mem
    split at mem
    · exact .inr (by rw [List.mem_singleton.mp mem]; decide)
    · exact .inl (List.mem_singleton.mp mem)
  | _ =>
    rw [named] at mem
    exact .inl (List.mem_singleton.mp mem)

theorem falls_of_mem (m : M) (k : Record.Known) (never : i.operation.branch = .never) {u : Uop}
    (mem : u ∈ i.bodyUops o) (c : Core M) :
    Falls i.addr (execOp (HostOp.ofUop m (k.rewrite u)) c).1 := by
  have retires : ∀ a, Falls i.addr (retire a i.addr c).1 := by
    intro a
    unfold retire
    dsimp only
    split <;> exact .inl rfl
  have asks : ∀ b : Bool, Falls i.addr (if b then .bounce i.addr else .next) := by
    intro b
    cases b with
    | true => exact .inr rfl
    | false => exact .inl rfl
  rcases mem_bodyUops mem with mem | mem | mem | mem | mem
  · cases inMode_of_mem mem <;> exact .inl rfl
  · cases inRetire_of_mem mem with
    | pointX | pointY => exact .inl rfl
    | retire | retireScratch | retireScratchY => exact retires _
  · cases inBefore_of_mem mem with
    | interpretIfDecimal => exact asks c.cpu.decimal
    | interpretIfIrq => exact asks c.cpu.irq
    | _ => exact .inl rfl
  · rcases mainUops_of_never never mem with rfl | clears
    · rcases k.rewrite_raw i.opcode i.operand with is | ⟨_, _, is⟩ | ⟨_, _, is⟩ | ⟨_, is, _⟩ <;> rw [is]
      · unfold HostOp.ofUop
        dsimp only
        split <;> exact .inl (congrArg Outcome.staysInside (raw_next never _ _ c))
      all_goals exact .inl rfl
    · simp only [List.mem_cons, List.not_mem_nil, or_false] at clears
      rcases clears with rfl | rfl | rfl <;> exact .inl rfl
  · cases inAfter_of_mem mem <;> exact .inl rfl

end Instruction

namespace Native

variable {σ : Type} {op : Operation} {W : List Addr}

theorem Continues.confines {out : Outcome} {c d : Core (PagedMemory σ)} (h : Continues out c d) :
    op.Confines W c d :=
  ⟨h.spares.mono (.inl rfl) nofun, fun x _ => congrArg (·.memory.ram.get x) h.bus⟩

theorem falls_lower {M : Type} [GuestMemory M] (m : M) (o : LoweringOptions) (k : Record.Known)
    {pc : Addr} (never : (Instruction.fetch m pc).operation.branch = .never) {u : Uop}
    (among : u ∈ (lower m o pc).uopList) (c : Core M) :
    Falls pc (execOp (HostOp.ofUop m (k.rewrite u)) c).1 := by
  rw [Record.uopList_lower] at among
  rcases List.mem_append.mp among with mem | mem
  · rw [Instruction.observe_of_mem mem]
    exact .inl rfl
  · split at mem
    · rw [List.mem_singleton.mp mem]
      exact .inr rfl
    · exact Instruction.falls_of_mem m k never mem c

/-- What the tables say of the record `r`, lowered from `i` and executed from the core `c`: wherever
its host code stands and at its end no more has changed, and it goes on behind the instruction. -/
structure Tabled (m : PagedMemory σ) (i : Instruction) (r : Record) (c : Core (PagedMemory σ)) :
    Prop where
  runs : Along (fun _ out d => i.operation.Confines (i.reach c.cpu c.bus) c d ∧
      (i.operation.branch = .never → Falls i.addr out))
    (i.operation.Confines (i.reach c.cpu c.bus) c) (r.uopList.map (HostOp.ofUop m)) c
  onward : i.operation.branch = .never → .interpret i.addr ∈ r.uopList ∨
    r.endsBlock = false ∧ r.addrAfter = i.addr + i.operation.len.toUInt16

theorem lower_tabled (m : PagedMemory σ) (o : LoweringOptions) (k : Record.Known) (pc : Addr)
    (c : Core (PagedMemory σ)) :
    Tabled m (Instruction.fetch m pc) ((lower m o pc).rewrite k) c := by
  refine ⟨Along.since .trans Continues.confines .refl ((writes_lower m o k pc c).imp ?_), ?_⟩
  · intro op among d keeps
    rw [Record.uopList_rewrite, List.map_map] at among
    obtain ⟨u, mem, rfl⟩ := List.mem_map.mp among
    have within := Uop.within_rewrite k (Record.within_lower m o pc mem)
    simp only [Uop.within, Bool.and_eq_true, Bool.or_eq_true, beq_iff_eq, Bool.not_eq_true']
      at within
    refine ⟨⟨(ofUop_spares m (k.rewrite u) d).mono within.1 fun touched =>
      within.2.resolve_left ?_, keeps⟩, fun never => falls_lower m o k never mem d⟩
    rw [touched]
    exact Bool.noConfusion
  · intro never
    cases needs : (Instruction.fetch m pc).needsInterpreter m with
    | true =>
      rw [Record.uopList_rewrite, Record.uopList_lower, needs]
      exact .inl (List.mem_map_of_mem (List.mem_append_right _ (.head _)))
    | false =>
      refine .inr ⟨?_, rfl⟩
      change ((Instruction.fetch m pc).needsInterpreter m
        || (Instruction.fetch m pc).operation.branch == .always) = false
      rw [needs, never]
      rfl

end Native

open Interpreter in
/-- The effect tables hold of every instruction, on every bus and in compiled code, whatever the
peephole makes of it: a register or the carry that an instruction is not said to change is as it was,
nothing is written but what it stores or pushes, and without a branch it goes on behind itself. -/
theorem tables_sound {σ : Type} :
    (∀ {B : Type} [Bus B] (cpu : Cpu) (bus bus' : B) (i : Instruction),
        fetchInstruction cpu.pc bus = (i, bus') → Tabled i (i.reach cpu bus') cpu bus) ∧
      (∀ (cpu : Cpu) (b b' : CodeBus (PagedMemory σ)) (i : Instruction),
        fetchInstruction cpu.pc b = (i, b') →
          i.operation.Confines (i.reach cpu b') ⟨cpu, b⟩ ⟨(step cpu b).1.2, (step cpu b).2⟩) ∧
      ∀ (m : PagedMemory σ) (o : LoweringOptions) (k : Record.Known) (pc : Addr)
        (c : Core (PagedMemory σ)),
        Native.Tabled m (Instruction.fetch m pc) ((lower m o pc).rewrite k) c :=
  ⟨fun _ _ _ _ found => step_tabled found, fun _ _ _ _ found => step_confines found,
    Native.lower_tabled⟩

def shifting : PagedMemory Unit :=
  PagedMemory.blank.load 0x0200 [0x1E, 0xF0, 0x10]

def shifts : Cpu :=
  { Cpu.powerOn with x := 0x20, pc := 0x0200 }

open Interpreter in
theorem tables_sound_shifting : ∃ (b : CodeBus (PagedMemory Unit)) (i : Instruction),
    b.memory = shifting ∧ i = ⟨0x0200, 0x1E, 0xF0, 0x10⟩ ∧
    Tabled i [0x1110] shifts b ∧
    (step shifts b).1.1.exit = none ∧ (step shifts b).1.2.pc = 0x0203 ∧
    i.operation.Confines [0x1110] ⟨shifts, b⟩ ⟨(step shifts b).1.2, (step shifts b).2⟩ ∧
    Native.Tabled shifting i ((lower shifting {} 0x0200).rewrite {}) ⟨shifts, b⟩ := by
  obtain ⟨b, is⟩ : ∃ b : CodeBus (PagedMemory Unit), b = ⟨shifting, .empty, 0⟩ := ⟨_, rfl⟩
  obtain ⟨i, here⟩ : ∃ i : Instruction, i = ⟨0x0200, 0x1E, 0xF0, 0x10⟩ := ⟨_, rfl⟩
  have ordinary : b.Ordinary := CodeBus.ordinary_of_pages (by rw [is]; rfl)
  have bytes : shifting.ram.get 0x0200 = 0x1E ∧ shifting.ram.get 0x0201 = 0xF0 ∧
      shifting.ram.get 0x0202 = 0x10 := by
    decide +kernel
  have memory : b.memory = shifting := by rw [is]
  have found : fetchInstruction shifts.pc b = (i, b) := by
    have fetches : ∀ a, (fetchIf true a : StateM (CodeBus (PagedMemory Unit)) UInt8) b
        = (shifting.ram.get a, b) := by
      rw [← memory]
      exact ordinary.fetch
    have first : shifting.ram.get shifts.pc = 0x1E := bytes.1
    have len : (operationOf 0x1E).len = 3 := by decide
    have two : decide ((2 : UInt8) ≤ 3) = true ∧ decide ((3 : UInt8) ≤ 3) = true := by decide
    unfold fetchInstruction
    rw [bind_run (ordinary.fetch _), memory, first, len, two.1, two.2, bind_run (fetches _),
      bind_run (fetches _), here]
    change (Instruction.mk 0x0200 0x1E (shifting.ram.get 0x0201) (shifting.ram.get 0x0202), b) = _
    rw [bytes.2.1, bytes.2.2]
  have reach : i.reach shifts b = [0x1110] := by
    rw [here]
    rfl
  have fetched : Instruction.fetch shifting 0x0200 = i := by
    rw [here]
    change Instruction.mk 0x0200 (shifting.ram.get 0x0200) (shifting.ram.get 0x0201)
      (shifting.ram.get 0x0202) = _
    rw [bytes.1, bytes.2.1, bytes.2.2]
  obtain ⟨onBus, onMemory, compiled⟩ := @tables_sound Unit
  have tabled := onBus shifts b b i found
  have confines := onMemory shifts b b i found
  have native := compiled shifting {} {} 0x0200 ⟨shifts, b⟩
  rw [reach] at tabled confines
  rw [fetched] at native
  have never : i.operation.branch = .never := by
    rw [here]
    decide
  obtain ⟨completes, falls⟩ := tabled.falls never
  have lands : (step shifts b).1.2.pc = 0x0203 := by
    rw [falls, here]
    rfl
  exact ⟨b, i, memory, here, tabled, completes, lands, confines, native⟩

end Mos6502
