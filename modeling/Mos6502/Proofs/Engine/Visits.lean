import Mos6502.Proofs.Engine.History
import Mos6502.Proofs.Native.Bare

/-! The instructions that a run executes. They are told from the tables alone: an instruction is
started when the frame is at the host code that the pointer of its address leads to. -/
namespace Mos6502

open Record

variable {σ ω : Type}

namespace Frame

/-- Of `n` instructions from `a` on, the one whose host code the frame is at the beginning of. -/
def instructionHere? (f : Frame (PagedMemory σ) ω) : Nat → Addr → Option Addr
  | 0, _ => none
  | n + 1, a =>
    match (f.engine.translator.note a).opcode with
    | none => none
    | some opcode =>
      if f.engine.blocks.ptr? a = some ⟨f.pos.block, f.pos.ip⟩ then
        some a
      else
        f.instructionHere? n (a + (operationOf opcode).len.toUInt16)

def started? (f : Frame (PagedMemory σ) ω) : Option Addr :=
  if f.wayOut? = none then
    f.instructionHere? TranslatorSettings.maxRecords f.pos.block
  else
    none

/-- The machine in front of every instruction that is started in the next host instructions. -/
def visits (f : Frame (PagedMemory σ) ω) : Nat → List (Machine σ)
  | 0 => []
  | fuel + 1 =>
    (f.started?.map f.engine.core.machine).toList ++
      match f.step with
      | .ok (.running f') => f'.visits fuel
      | _ => []

variable {f : Frame (PagedMemory σ) ω} {g : Spot (PagedMemory σ)}

theorem starts_of_instructionHere? (stays : f.wayOut? = none) {n : Nat} {a b : Addr}
    (found : f.instructionHere? n a = some b) : f.Starts b := by
  induction n generalizing a with
  | zero => cases found
  | succ n ih =>
    unfold instructionHere? at found
    split at found
    · cases found
    · next opcode noted =>
      split at found
      · next ptr =>
        cases found
        exact ⟨stays, ptr, by rw [noted]; rfl⟩
      · exact ih found

theorem starts_of_started? {a : Addr} (started : f.started? = some a) : f.Starts a := by
  unfold started? at started
  split at started
  · next stays => exact starts_of_instructionHere? stays started
  · cases started

theorem Stands.instructionHere_begins (h : f.Stands g) (begins : g.done = [])
    (stays : f.wayOut? = none) {pre : List Record} {a : Addr} {n : Nat}
    (chain : Contiguous a (pre ++ g.record :: g.post)) (mem : ∀ r ∈ pre, r ∈ g.image.records)
    (room : pre.length < n) : f.instructionHere? n a = some g.record.addr := by
  have ip : g.ip = g.entry := by simp [Spot.ip, begins]
  induction pre generalizing a n with
  | nil =>
    obtain ⟨n, rfl⟩ := Nat.exists_eq_add_one_of_ne_zero (Nat.ne_of_gt room)
    obtain ⟨rfl, _⟩ := chain
    unfold instructionHere?
    rw [h.opcode]
    dsimp only
    rw [h.ip, ip, if_pos h.ptr]
  | cons r pre ih =>
    obtain ⟨n, rfl⟩ := Nat.exists_eq_add_one_of_ne_zero (Nat.ne_zero_of_lt room)
    obtain ⟨rfl, chain⟩ := chain
    obtain ⟨k, lowered⟩ := h.inside.block.shape.lowered_of_mem (mem r List.mem_cons_self)
    obtain ⟨_, row⟩ := h.keeps.shown.of_mem (mem r List.mem_cons_self)
    have noted : (f.engine.translator.note r.addr).opcode = some r.opcode :=
      (row.opcode _ lowered.covers_self).trans (if_pos rfl)
    unfold instructionHere?
    rw [noted]
    dsimp only
    split
    · next ptr =>
      have starts : f.Starts r.addr := ⟨stays, ptr, by rw [noted]; rfl⟩
      rw [(h.starts starts).1]
    · rw [← lowered.len_eq]
      exact ih chain (fun r mem' => mem r (.tail _ mem')) (Nat.lt_of_succ_lt_succ room)

theorem Stands.started_begins (h : f.Stands g) (begins : g.done = []) (stays : f.wayOut? = none) :
    f.started? = some g.record.addr := by
  have chain := h.keeps.block.shape.contiguous
  have short := h.keeps.block.short
  rw [h.inside.records] at chain short
  unfold started?
  rw [if_pos stays]
  refine h.instructionHere_begins begins stays chain ?_ ?_
  · intro r mem
    rw [h.inside.records]
    exact List.mem_append_left _ mem
  · rw [List.length_append, List.length_cons] at short
    omega

theorem Stands.started_within (h : f.Stands g) (begun : g.done ≠ []) : f.started? = none := by
  cases started : f.started? with
  | none => rfl
  | some a => exact absurd (h.starts (starts_of_started? started)).2 begun

theorem started_leaving (leaves : f.wayOut? ≠ none) : f.started? = none :=
  if_neg leaves

end Frame

namespace Stopped

/-- The run was stopped in front of an instruction that it had already started. -/
def held (s : Stopped (PagedMemory σ) ω) : Bool :=
  s.engine.haltRequest != 0 || match s.result with
    | .ok reason => reason == .countdown || reason == .externalHalt
    | .error _ => false

/-- Of the instructions that a run has started, those that it executed. -/
def executed (s : Stopped (PagedMemory σ) ω) (seen : List (Machine σ)) : List (Machine σ) :=
  if s.held then seen.dropLast else seen

end Stopped

namespace Engine

def visits (e : Engine (PagedMemory σ) ω) (fuel : Nat) : List (Machine σ) :=
  match e.start with
  | .ok f => f.visits fuel
  | .error _ => []

def executed (e : Engine (PagedMemory σ) ω) (fuel : Nat) : List (Machine σ) :=
  match e.run fuel with
  | .ok (.stopped s) => s.executed (e.visits fuel)
  | _ => e.visits fuel

theorem executed_of_run {e : Engine (PagedMemory σ) ω} {fuel : Nat}
    {s : Stopped (PagedMemory σ) ω} (ok : e.run fuel = .ok (.stopped s)) :
    e.executed fuel = s.executed (e.visits fuel) := by
  unfold executed
  rw [ok]

end Engine

end Mos6502
