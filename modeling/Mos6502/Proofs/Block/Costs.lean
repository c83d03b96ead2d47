import Mos6502.Proofs.Block.History
import Mos6502.Proofs.Native.Ops

/-! What a live block costs, told from the instructions that it was compiled from. A run of cycles
starts at the first instruction and behind every conditional branch; the countdown there charges
what the table gives back at its address. -/
namespace Mos6502

namespace Instruction

def Consecutive : Addr → List Instruction → Prop
  | _, [] => True
  | a, i :: is => i.addr = a ∧ Consecutive (a + i.operation.len.toUInt16) is

def endsRun (i : Instruction) : Bool :=
  i.operation.branch == .conditional

def runStartsAfter (before : List Instruction) : Bool :=
  before.getLast?.all endsRun

/-- Cycles at worst from the first instruction to the end of its run. -/
def runCost (o : LoweringOptions) : List Instruction → Nat
  | [] => 0
  | i :: is => (i.maxCycles o).toNat + if i.endsRun then 0 else runCost o is

variable {o : LoweringOptions}

theorem runCost_le {most : Nat} {is : List Instruction}
    (bound : ∀ i ∈ is, (i.maxCycles o).toNat ≤ most) : runCost o is ≤ is.length * most := by
  induction is with
  | nil => exact Nat.zero_le _
  | cons i is ih =>
    have here := bound i List.mem_cons_self
    have rest := ih fun i mem => bound i (.tail _ mem)
    rw [List.length_cons, Nat.succ_mul]
    unfold runCost
    split <;> omega

end Instruction

namespace Record

open Instruction

variable {M : Type} [GuestMemory M] {m : M} {o : LoweringOptions} {k : Known} {tracked runs : Bool}
  {a : Addr} {rs pre post : List Record} {r : Record}

theorem IsBlock.consecutive (h : IsBlock m o tracked k runs a rs) :
    Consecutive a (rs.map (instruction m)) := by
  induction rs generalizing k runs a with
  | nil => trivial
  | cons r rs ih =>
    obtain ⟨rfl, lowered, _, _, rest⟩ := h
    refine ⟨rfl, ?_⟩
    have after : r.addrAfter = r.addr + (r.instruction m).operation.len.toUInt16 := by
      rw [addrAfter, lowered.len]
      rfl
    rw [← after]
    exact ih rest

theorem Lowered.endsRun_eq (h : Lowered m o k r) :
    (r.instruction m).endsRun = (r.branch == .conditional) := by
  rw [h.branch]
  rfl

theorem IsBlock.startsRun_eq (h : IsBlock m o tracked k true a (pre ++ r :: post)) :
    r.startsRun = runStartsAfter (pre.map (instruction m)) := by
  -- The flag that the block begins with stands for the record before it, if there is none.
  have general : ∀ {k runs a}, IsBlock m o tracked k runs a (pre ++ r :: post) →
      r.startsRun = ((pre.map (instruction m)).getLast?.map endsRun).getD runs := by
    clear h
    induction pre with
    | nil => exact fun h => h.2.2.1
    | cons p pre ih =>
      intro k runs a h
      rw [ih h.2.2.2.2, ← h.2.1.endsRun_eq, List.map_cons, List.getLast?_cons]
      cases (pre.map (instruction m)).getLast? <;> rfl
  rw [general h, runStartsAfter]
  cases (pre.map (instruction m)).getLast? <;> rfl

theorem IsBlock.restOfRun_eq (h : IsBlock m o tracked k runs a rs) (few : rs.length ≤ 65536) :
    (restOfRun rs).toNat = if runs then 0 else runCost o (rs.map (instruction m)) := by
  induction rs generalizing k runs a with
  | nil =>
    cases runs <;> rfl
  | cons r rs ih =>
    obtain ⟨_, lowered, starts, _, rest⟩ := h
    rw [List.length_cons] at few
    unfold restOfRun
    rw [starts]
    cases runs with
    | true => rfl
    | false =>
      rw [if_neg Bool.false_ne_true, if_neg Bool.false_ne_true, toNat_owed r (by omega),
        ih rest (by omega), lowered.maxCycles, ← lowered.endsRun_eq]
      rfl

end Record

open Instruction (Consecutive runCost runStartsAfter)

namespace Translator

def countdownAt? (t : Translator) (offset : Nat) : Option (Addr × UInt32) :=
  match t.arena.decodeAt offset with
  | .ok (.uop (.countdown addr cycles), _) => some (addr, cycles)
  | _ => none

/-- The rows and the host code of an instruction of the block at `start`, between those before and
those after it. -/
structure Prices (t : Translator) (b : BlockMap) (start : Addr) (before : List Instruction)
    (i : Instruction) (after : List Instruction) (offset : Nat) (cycles : UInt32) : Prop where
  ptr : b.ptr? i.addr = some ⟨start, offset⟩
  opcode : (t.note i.addr).opcode = some i.opcode
  fixup : (t.note i.addr).fixup = some cycles
  cost : cycles.toNat = runCost t.settings.options (i :: after)
  positive : 0 < cycles
  countdown : t.countdownAt? offset = if runStartsAfter before then some (i.addr, cycles) else none

/-- The live block at `start` consists of the instructions, which were read from `m`, and is
priced accordingly. -/
structure PricesAll {M : Type} [GuestMemory M] (t : Translator) (b : BlockMap) (m : M)
    (start : Addr) (is : List Instruction) : Prop where
  nonempty : is ≠ []
  consecutive : Consecutive start is
  fetched : ∀ i ∈ is, i = .fetch m i.addr
  whole : ∀ x, b.LiveAt start x ↔ ∃ i ∈ is, distance i.addr x < i.operation.len.toNat
  prices : ∀ before i after, is = before ++ i :: after →
    ∃ offset cycles, t.Prices b start before i after offset cycles
  bounded : ∀ most, (∀ i ∈ is, (i.maxCycles t.settings.options).toNat ≤ most) →
    ∀ before after, is = before ++ after → runCost t.settings.options after ≤ 256 * most

variable {M : Type} [GuestMemory M] {t : Translator} {b : BlockMap} {start : Addr} {i : Image M}

theorem Keeps.decode_first (h : t.Keeps b start i) {pre post : List Record} {r : Record}
    (split : i.records = pre ++ r :: post) :
    ∃ offset op, r.hostOffset = some offset ∧
      t.arena.decodeAt offset = .ok (op, op.code.length) ∧
      (r.startsRun = true ∧
          op = .uop (.countdown r.addr (r.maxCycles.toUInt32 + Record.restOfRun post)) ∨
        r.startsRun = false ∧ op.Names r.addr) := by
  have mem : r ∈ i.records := by rw [split]; simp
  have shape := h.block.shape
  have charged := h.block.charged
  rw [split] at shape charged
  have lowered := shape.split.2.1
  obtain ⟨offset, there, holds⟩ := h.stored_record mem
  obtain ⟨p, ps, uops⟩ := List.exists_cons_of_ne_nil lowered.uops_ne_nil
  obtain ⟨op, rest, ops⟩ : ∃ op rest, r.ops i.memory = op :: rest := by
    rw [Record.ops, uops, List.flatMap_cons, Placed.ops]
    exact ⟨_, _, rfl⟩
  have first : op ∈ r.ops i.memory ++ Record.onwardOps r post := by simp [ops]
  rw [ops, HostOp.codeAll_cons, Arena.holds_append] at holds
  refine ⟨offset, op, there, Arena.decodeAt_of_holds (Record.stored_of_mem_ops first).1 holds.1, ?_⟩
  obtain ⟨tail, names, ⟨total, runs, all⟩ | ⟨quiet, all⟩⟩ := lowered.ops_tail post
  · have starts : r.startsRun = true := by simp [Record.startsRun, runs]
    rw [charged.split starts] at runs
    cases runs
    rw [ops] at all
    exact .inl ⟨starts, (List.cons.inj all).1⟩
  · rw [ops] at all
    exact .inr ⟨quiet, names op (all ▸ List.mem_cons_self)⟩

theorem runCost_serves {compiled now : TranslatorSettings} (h : compiled.Serves now)
    (is : List Instruction) : runCost compiled.options is = runCost now.options is := by
  obtain ⟨_, _, rfl⟩ := h
  induction is with
  | nil => rfl
  | cons i is ih =>
    unfold runCost
    rw [ih]
    rfl

theorem Keeps.pricesAll (h : t.Keeps b start i) (live : b.entryAt? start = some i.offset)
    (serves : i.settings.Serves t.settings) :
    t.PricesAll b i.memory start (i.records.map (Record.instruction i.memory)) where
  nonempty := fun none => h.block.nonempty (List.map_eq_nil_iff.mp none)
  consecutive := h.block.shape.consecutive
  fetched x mem := by
    obtain ⟨r, _, rfl⟩ := List.mem_map.mp mem
    rfl
  whole x := by
    rw [h.liveAt_iff live]
    constructor
    · rintro ⟨r, mem, covers⟩
      obtain ⟨k, lowered⟩ := h.block.shape.lowered_of_mem mem
      refine ⟨_, List.mem_map.mpr ⟨r, mem, rfl⟩, ?_⟩
      unfold Record.Covers at covers
      rw [lowered.len] at covers
      exact covers
    · rintro ⟨_, among, covers⟩
      obtain ⟨r, mem, rfl⟩ := List.mem_map.mp among
      obtain ⟨k, lowered⟩ := h.block.shape.lowered_of_mem mem
      refine ⟨r, mem, ?_⟩
      unfold Record.Covers
      rw [lowered.len]
      exact covers
  prices before x after split := by
    obtain ⟨pre, rest, records, rfl, behind⟩ := List.map_eq_append_iff.mp split
    obtain ⟨r, post, rfl, rfl, rfl⟩ := List.map_eq_cons_iff.mp behind
    have mem : r ∈ i.records := by rw [records]; simp
    have short := h.block.short
    have shape := h.block.shape
    have shown := h.shown
    rw [records] at short shape shown
    rw [List.length_append, List.length_cons] at short
    change _ ≤ 256 at short
    have ⟨_, lowered, _, _, onward⟩ := shape.split
    have row := shown.split
    obtain ⟨offset, op, there, decoded, head⟩ := h.decode_first records
    obtain ⟨_, there', ptr⟩ := row.ptr _ lowered.covers_self
    cases there.symm.trans there'
    refine ⟨offset, _, ptr, ?_, (row.fixup _ lowered.covers_self).trans (if_pos rfl), ?_, ?_, ?_⟩
    · refine (row.opcode _ lowered.covers_self).trans ((if_pos rfl).trans ?_)
      rw [lowered.opcode]
      rfl
    · rw [Record.toNat_owed r (by omega), onward.restOfRun_eq (by omega), lowered.maxCycles,
        ← runCost_serves serves, ← lowered.endsRun_eq]
      rfl
    · exact UInt32.pos_iff_ne_zero.mpr (Record.owed_ne_zero lowered (by omega))
    · unfold countdownAt?
      rw [decoded, ← shape.startsRun_eq]
      rcases head with ⟨starts, rfl⟩ | ⟨quiet, names⟩
      · rw [starts]
        rfl
      · rw [quiet, if_neg Bool.false_ne_true]
        split
        · next addr cycles _ is =>
          cases is
          exact names.elim
        · rfl
  bounded most bound before after split := by
    have short := h.block.short
    change _ ≤ 256 at short
    have length := congrArg List.length split
    rw [List.length_map, List.length_append] at length
    have cost : runCost t.settings.options after ≤ after.length * most := by
      refine Instruction.runCost_le fun x mem => bound x ?_
      rw [split]
      exact List.mem_append_right _ mem
    exact Nat.le_trans cost (Nat.mul_le_mul_right _ (by omega))

end Translator

end Mos6502
