import Mos6502.Proofs.Engine.Spot
import Mos6502.Proofs.Native.Refunds

/-! What the observer is shown. With it asked for, the host code of every instruction shows the
instruction once, behind its countdown and before anything else. -/
namespace Mos6502

open Record

def Uop.observes : Uop → Bool
  | observe _ => true
  | _ => false

namespace HostOp

def observes : HostOp → Bool
  | uop u => u.observes
  | _ => false

def leads : HostOp → Bool
  | uop (.countdown ..) | nop => true
  | _ => false

theorem observes_of_leads {op : HostOp} (leads : op.leads = true) : op.observes = false := by
  cases op with
  | uop u => cases u <;> first | rfl | cases leads
  | _ => rfl

theorem observes_ofUop {M : Type} [GuestMemory M] (m : M) (u : Uop) :
    (ofUop m u).observes = u.observes := by
  cases u with
  | raw opcode operand =>
    unfold ofUop
    dsimp only
    split <;> rfl
  | _ => rfl

end HostOp

namespace Record

theorem Known.observes_rewrite (k : Known) (u : Uop) : (k.rewrite u).observes = u.observes := by
  cases u with
  | raw opcode operand =>
    have silent : (Uop.raw opcode operand).observes = false := rfl
    rw [silent]
    rcases k.rewrite_raw opcode operand with is | ⟨_, _, is⟩ | ⟨_, _, is⟩ | ⟨_, is, _⟩ <;>
    · rw [is]
      rfl
  | _ => rfl

variable {M : Type} [GuestMemory M] {m : M} {o : LoweringOptions} {k : Known} {r : Record}

theorem unobserved_bodyUops (o : LoweringOptions) (i : Instruction) :
    (i.bodyUops o).any Uop.observes = false := by
  refine List.any_eq_false.mpr fun u mem => Bool.eq_false_iff.mp ?_
  rcases Instruction.mem_bodyUops mem with mode | retire | before | main | after
  · cases Instruction.inMode_of_mem mode <;> rfl
  · cases Instruction.inRetire_of_mem retire <;> rfl
  · cases Instruction.inBefore_of_mem before <;> rfl
  · cases Instruction.inMain_of_mem main <;> rfl
  · cases Instruction.inAfter_of_mem after <;> rfl

theorem Lowered.uopList_observed (h : Lowered m o k r) (debug : o.debug = true) :
    ∃ us, r.uopList = r.headUops ++ .observe r.addr :: us ∧ us.any Uop.observes = false := by
  have closing : (closingUops (lower m o r.addr) r).any Uop.observes = false := by
    unfold closingUops
    split <;> rfl
  have shows : (Instruction.fetch m r.addr).observeUops o = [.observe r.addr] := by
    unfold Instruction.observeUops
    rw [if_pos debug]
    rfl
  have same : Uop.observes ∘ k.rewrite = Uop.observes := funext k.observes_rewrite
  have body : (if (Instruction.fetch m r.addr).needsInterpreter m then [.interpret r.addr]
      else (Instruction.fetch m r.addr).bodyUops o).any Uop.observes = false := by
    split
    · rfl
    · exact unobserved_bodyUops o _
  have uops := h.uops
  rw [uopList_lower, shows, List.map_append, List.append_assoc, List.append_assoc, List.map_singleton,
    List.singleton_append] at uops
  refine ⟨_, uops, ?_⟩
  rw [List.any_append, List.any_map, same, body, closing]
  rfl

theorem Lowered.ops_observed (h : Lowered m o k r) (debug : o.debug = true) (post : List Record) :
    ∃ front tail, r.ops m ++ onwardOps r post = front ++ .uop (.observe r.addr) :: tail ∧
      (∀ op ∈ front, op.leads = true) ∧ ∀ op ∈ tail, op.observes = false := by
  obtain ⟨us, uops, silent⟩ := h.uopList_observed debug
  obtain ⟨head, body, split, is_head, is_body⟩ := List.map_eq_append_iff.mp uops
  obtain ⟨p, rest, rfl, is_p, is_rest⟩ := List.map_eq_cons_iff.mp is_body
  refine ⟨head.flatMap (Placed.ops m), List.replicate (p.hostSize - (emit m p.uop).length) .nop
    ++ rest.flatMap (Placed.ops m) ++ onwardOps r post, ?_, ?_, ?_⟩
  · unfold ops
    rw [split, List.flatMap_append, List.flatMap_cons, Placed.ops, is_p]
    simp only [List.append_assoc, List.cons_append]
    rfl
  · intro op mem
    obtain ⟨q, among, mem⟩ := List.mem_flatMap.mp mem
    have named : q.uop ∈ r.headUops := is_head ▸ List.mem_map_of_mem among
    unfold headUops at named
    split at named
    · rw [Placed.ops, List.mem_singleton.mp named] at mem
      rcases List.mem_cons.mp mem with rfl | pad
      · rfl
      · cases List.eq_of_mem_replicate pad
        rfl
    · cases named
  · intro op mem
    rcases List.mem_append.mp mem with mem | onward
    · rcases List.mem_append.mp mem with pad | mem
      · cases List.eq_of_mem_replicate pad
        rfl
      · obtain ⟨q, among, mem⟩ := List.mem_flatMap.mp mem
        rcases List.mem_cons.mp mem with rfl | pad
        · have named : q.uop ∈ us := is_rest ▸ List.mem_map_of_mem among
          rw [HostOp.observes_ofUop]
          exact Bool.eq_false_iff.mpr (List.any_eq_false.mp silent q.uop named)
        · cases List.eq_of_mem_replicate pad
          rfl
    · unfold onwardOps at onward
      split at onward
      · cases List.mem_singleton.mp onward
        rfl
      · cases onward

end Record

namespace Spot

variable {M : Type} [GuestMemory M] {g : Spot M} {start : Addr}

def shown (g : Spot M) : Bool :=
  g.done.any HostOp.observes

theorem Inside.shown_cases (h : g.Inside start) (debug : g.image.settings.options.debug = true)
    {op : HostOp} {rest : List HostOp} (todo : g.todo = op :: rest) :
    (op.leads = true ∧ g.shown = false ∧ rest ≠ []) ∨
      (op = .uop (.observe g.record.addr) ∧ g.shown = false) ∨
        op.observes = false ∧ g.shown = true := by
  obtain ⟨front, tail, code, leads, silent⟩ := h.lowered.ops_observed debug g.post
  rw [h.code, todo] at code
  have unshown : ∀ ops : List HostOp, (∀ op ∈ ops, op.leads = true) →
      ops.any HostOp.observes = false := by
    intro ops leads
    refine List.any_eq_false.mpr fun op mem => ?_
    exact Bool.eq_false_iff.mp (HostOp.observes_of_leads (leads op mem))
  unfold shown
  rcases List.append_eq_append_iff.mp code with ⟨mid, before, behind⟩ | ⟨mid, before, behind⟩
  · have done : g.done.any HostOp.observes = false :=
      unshown _ fun op mem => leads op (before ▸ List.mem_append_left _ mem)
    cases mid with
    | nil => exact .inr (.inl ⟨(List.cons.inj behind).1, done⟩)
    | cons first mid =>
      obtain ⟨rfl, rfl⟩ := List.cons.inj behind
      exact .inl ⟨leads op (before ▸ by simp), done, by simp⟩
  · cases mid with
    | nil =>
      rw [List.append_nil] at before
      exact .inr (.inl ⟨(List.cons.inj behind).1.symm, before ▸ unshown front leads⟩)
    | cons first mid =>
      obtain ⟨rfl, rfl⟩ := List.cons.inj behind
      refine .inr (.inr ⟨silent op (by simp), ?_⟩)
      rw [before, List.any_append, List.any_cons]
      exact Bool.or_true _

end Spot

end Mos6502
