import Mos6502.Proofs.Block.Costs
import Mos6502.Proofs.Engine.Coherent

/-! Where a run stands: in which block, at which of its records, and how far into the host code of
that record. A frame keeps to its block to the end of an instruction even when the instruction
retires the block, and then leaves it. -/
namespace Mos6502

open Record

/-- A place in the host code of one record of a block. -/
structure Spot (M : Type) where
  image : Image M
  pre : List Record
  record : Record
  post : List Record
  done : List HostOp
  todo : List HostOp

namespace Spot

variable {M : Type} [GuestMemory M]

def known (g : Spot M) : Known :=
  knownAfter g.image.settings.tracks {} g.pre

def entry (g : Spot M) : Nat :=
  g.image.offset + (g.pre.map hostSize).sum

def ip (g : Spot M) : Nat :=
  g.entry + (HostOp.codeAll g.done).length

def begin (i : Image M) (pre : List Record) (r : Record) (post : List Record) : Spot M :=
  ⟨i, pre, r, post, [], r.ops i.memory ++ onwardOps r post⟩

def next (g : Spot M) : Spot M :=
  match g.todo, g.post with
  | [], _ => g
  | [_], r :: post => begin g.image (g.pre ++ [g.record]) r post
  | op :: rest, _ => { g with done := g.done ++ [op], todo := rest }

/-- The instruction behind the record, if it belongs to the block. -/
def exit? (g : Spot M) : Option LeavePoint :=
  g.post.head?.map fun r => ⟨g.entry + g.record.hostSize, r.addr⟩

/-- The place is one of the block at `start`, with something left to execute. -/
structure Inside (g : Spot M) (start : Addr) : Prop where
  block : Block g.image.memory g.image.settings start g.image.offset g.image.records
  records : g.image.records = g.pre ++ g.record :: g.post
  code : g.record.ops g.image.memory ++ onwardOps g.record g.post = g.done ++ g.todo
  more : g.todo ≠ []
  going : ∀ op ∈ g.done, ¬ Native.Ends (M := M) op

variable {g : Spot M} {start : Addr}

namespace Inside

theorem shape (h : g.Inside start) :
    IsBlock g.image.memory g.image.settings.options g.image.settings.tracks g.known
      g.record.startsRun g.record.addr (g.record :: g.post) := by
  have shape := h.block.shape
  rw [h.records] at shape
  exact shape.split

theorem lowered (h : g.Inside start) :
    Lowered g.image.memory g.image.settings.options g.known g.record :=
  h.shape.2.1

theorem mem (h : g.Inside start) : g.record ∈ g.image.records := by
  rw [h.records]
  simp

theorem few (h : g.Inside start) : g.post.length ≤ 255 := by
  have short := h.block.short
  rw [h.records, List.length_append, List.length_cons] at short
  change _ ≤ 256 at short
  omega

theorem fits (h : g.Inside start) :
    ∀ p ∈ g.record.uops, (emit g.image.memory p.uop).length ≤ p.hostSize := by
  have placed := h.block.placed
  rw [h.records] at placed
  exact placed.split.2.2.1

theorem hostOffset (h : g.Inside start) : g.record.hostOffset = some g.entry := by
  have placed := h.block.placed
  rw [h.records] at placed
  exact placed.split.2.1

theorem length_ops (h : g.Inside start) :
    (HostOp.codeAll (g.record.ops g.image.memory)).length = g.record.hostSize :=
  Record.length_ops h.fits

theorem addr_next (h : g.Inside start) {r : Record} {post : List Record}
    (behind : g.post = r :: post) : r.addr = g.record.addrAfter := by
  have rest := h.shape.2.2.2.2
  rw [behind] at rest
  exact rest.1

theorem ops_eq (h : g.Inside start) :
    g.image.ops = g.pre.flatMap (ops g.image.memory)
      ++ (g.done ++ (g.todo ++ blockOps g.image.memory g.post)) := by
  rw [Image.ops, h.records, blockOps_split, ← List.append_assoc (g.record.ops _), h.code,
    List.append_assoc]

theorem length_before (h : g.Inside start) :
    (HostOp.codeAll (g.pre.flatMap (ops g.image.memory))).length = (g.pre.map hostSize).sum := by
  have placed := h.block.placed
  rw [h.records] at placed
  exact length_codeAll placed.split.1

theorem holds (h : g.Inside start) {arena : Arena}
    (stored : arena.Holds g.image.offset (HostOp.codeAll g.image.ops)) :
    arena.Holds g.ip (HostOp.codeAll g.todo) := by
  rw [h.ops_eq] at stored
  simp only [HostOp.codeAll_append, Arena.holds_append] at stored
  have here := stored.2.2.1
  rw [h.length_before] at here
  exact here

theorem ip_le_end (h : g.Inside start) :
    g.ip + (HostOp.codeAll g.todo).length ≤ g.image.offset + (HostOp.codeAll g.image.ops).length := by
  have before := h.length_before
  rw [h.ops_eq]
  simp only [HostOp.codeAll_append, List.length_append]
  unfold ip entry
  omega

theorem stored_of_mem (h : g.Inside start) {op : HostOp} (mem : op ∈ g.todo) :
    op.Stored ∧ op ≠ .trap := by
  have mem : op ∈ g.record.ops g.image.memory ++ onwardOps g.record g.post := by
    rw [h.code]
    exact List.mem_append_right _ mem
  exact stored_of_mem_ops mem

theorem decode (h : g.Inside start) {arena : Arena}
    (stored : arena.Holds g.image.offset (HostOp.codeAll g.image.ops)) {op : HostOp}
    {rest : List HostOp} (todo : g.todo = op :: rest) :
    arena.decodeAt g.ip = .ok (op, op.code.length) := by
  have holds := h.holds stored
  rw [todo, HostOp.codeAll_cons, Arena.holds_append] at holds
  exact Arena.decodeAt_of_holds (h.stored_of_mem (by simp [todo])).1 holds.1

/-- A countdown is the first host instruction of its record; all others name the instruction of
the record, if any. -/
theorem names (h : g.Inside start) {op : HostOp} (mem : op ∈ g.todo) :
    op.Names g.record.addr ∨
      ∃ rest total, g.todo = .uop (.countdown g.record.addr total) :: rest ∧ g.done = [] ∧
        op = .uop (.countdown g.record.addr total) ∧ g.record.runTotal = some total := by
  obtain ⟨tail, names, front⟩ := h.lowered.ops_tail g.post
  rcases front with ⟨total, runs, code⟩ | ⟨_, code⟩
  · rw [h.code] at code
    cases hd : g.done with
    | nil =>
      rw [hd, List.nil_append] at code
      rw [code] at mem
      rcases List.mem_cons.mp mem with rfl | mem
      · exact .inr ⟨tail, total, code, rfl, rfl, runs⟩
      · exact .inl (names op mem)
    | cons first rest =>
      rw [hd] at code
      have same := (List.cons.inj code).2
      refine .inl (names op ?_)
      rw [← same]
      exact List.mem_append_right _ mem
  · refine .inl (names op ?_)
    rw [← code, h.code]
    exact List.mem_append_right _ mem

theorem ends (h : g.Inside start) (last : g.post = []) :
    ∃ op ∈ g.todo, Native.Ends (M := M) op := by
  obtain ⟨op, mem, ends⟩ := h.lowered.ends_of_last
  rw [← last, h.code] at mem
  rcases List.mem_append.mp mem with before | behind
  · exact absurd ends (h.going op before)
  · exact ⟨op, behind, ends⟩

end Inside

theorem inside_begin {i : Image M} {pre post : List Record} {r : Record}
    (block : Block i.memory i.settings start i.offset i.records)
    (records : i.records = pre ++ r :: post) : (begin i pre r post).Inside start where
  block := block
  records := records
  code := rfl
  more := by
    obtain ⟨k, lowered⟩ := block.shape.lowered_of_mem (r := r) (by simp [records])
    obtain ⟨p, ps, uops⟩ := List.exists_cons_of_ne_nil lowered.uops_ne_nil
    simp [begin, ops, uops, Placed.ops]
  going op mem := by cases mem

theorem next_within {op : HostOp} {rest : List HostOp} (todo : g.todo = op :: rest)
    (more : rest ≠ []) : g.next = { g with done := g.done ++ [op], todo := rest } := by
  cases rest with
  | nil => exact absurd rfl more
  | cons op' rest =>
    unfold next
    rw [todo]

theorem next_last {op : HostOp} {r : Record} {post : List Record} (todo : g.todo = [op])
    (behind : g.post = r :: post) : g.next = begin g.image (g.pre ++ [g.record]) r post := by
  unfold next
  rw [todo, behind]

theorem Inside.entry_next (h : g.Inside start) {op : HostOp} {r : Record} {post : List Record}
    (todo : g.todo = [op]) (behind : g.post = r :: post) :
    g.entry + g.record.hostSize = g.ip + op.code.length := by
  have code := h.code
  have size := h.length_ops
  rw [behind, todo, show onwardOps g.record (r :: post) = [] from rfl, List.append_nil] at code
  rw [code, HostOp.codeAll_append, List.length_append, HostOp.codeAll_cons,
    HostOp.codeAll_nil, List.append_nil] at size
  unfold ip
  omega

theorem Inside.next_cases (h : g.Inside start) {op : HostOp} {rest : List HostOp}
    (todo : g.todo = op :: rest) (goes : ¬ Native.Ends (M := M) op) :
    rest ≠ [] ∧ g.next = { g with done := g.done ++ [op], todo := rest } ∨
      rest = [] ∧ ∃ r post, g.post = r :: post ∧
        g.next = begin g.image (g.pre ++ [g.record]) r post := by
  by_cases more : rest = []
  · subst more
    refine .inr ⟨rfl, ?_⟩
    cases behind : g.post with
    | nil =>
      obtain ⟨op', mem, ends⟩ := h.ends behind
      rw [todo] at mem
      rw [List.mem_singleton.mp mem] at ends
      exact absurd ends goes
    | cons r post => exact ⟨r, post, rfl, next_last todo behind⟩
  · exact .inl ⟨more, next_within todo more⟩

@[simp] theorem image_next (g : Spot M) : g.next.image = g.image := by
  unfold next
  split <;> rfl

theorem Inside.next (h : g.Inside start) {op : HostOp} {rest : List HostOp}
    (todo : g.todo = op :: rest) (goes : ¬ Native.Ends (M := M) op) :
    g.next.Inside start ∧ g.next.ip = g.ip + op.code.length := by
  rcases h.next_cases todo goes with ⟨more, is⟩ | ⟨rfl, r, post, behind, is⟩
  · rw [is]
    refine ⟨⟨h.block, h.records, ?_, more, ?_⟩, ?_⟩
    · rw [List.append_assoc, List.singleton_append, ← todo]
      exact h.code
    · intro op' mem
      rcases List.mem_append.mp mem with mem | mem
      · exact h.going op' mem
      · rw [List.mem_singleton.mp mem]
        exact goes
    · simp [ip, entry, Nat.add_assoc]
  · rw [is]
    have records : g.image.records = (g.pre ++ [g.record]) ++ r :: post := by
      rw [h.records, behind, List.append_assoc]
      rfl
    refine ⟨inside_begin h.block records, ?_⟩
    rw [← h.entry_next todo behind]
    simp [ip, entry, begin, Nat.add_assoc]

theorem codeAll_length_pos {ops : List HostOp} (more : ops ≠ []) :
    0 < (HostOp.codeAll ops).length := by
  obtain ⟨op, rest, rfl⟩ := List.exists_cons_of_ne_nil more
  have pos := op.code_length_pos
  rw [HostOp.codeAll_cons, List.length_append]
  omega

theorem Inside.ip_lt (h : g.Inside start) (behind : g.post ≠ []) :
    g.ip < g.entry + g.record.hostSize := by
  obtain ⟨r, post, behind⟩ := List.exists_cons_of_ne_nil behind
  have code := h.code
  have size := h.length_ops
  have pos := codeAll_length_pos h.more
  rw [behind, show onwardOps g.record (r :: post) = [] from rfl, List.append_nil] at code
  rw [code, HostOp.codeAll_append, List.length_append] at size
  unfold ip
  omega

theorem Inside.ip_next_le (h : g.Inside start) {op : HostOp} {rest : List HostOp}
    (todo : g.todo = op :: rest) (goes : ¬ Native.Ends (M := M) op) (behind : g.post ≠ []) :
    g.ip + op.code.length ≤ g.entry + g.record.hostSize := by
  obtain ⟨inside, ip⟩ := h.next todo goes
  rcases h.next_cases todo goes with ⟨_, is⟩ | ⟨rfl, r, post, is_post, _⟩
  · rw [is] at inside ip
    rw [← ip]
    exact Nat.le_of_lt (inside.ip_lt behind)
  · exact Nat.le_of_eq (h.entry_next todo is_post).symm

/-- Of records one behind the other, the one that begins at an offset is the one that the offset lies
in. -/
theorem record_of_offset {pre post pre' post' : List Record} {r s : Record} {ahead : Nat}
    (parts : pre ++ r :: post = pre' ++ s :: post') (pos : 0 < r.hostSize)
    (inside : post' ≠ [] → ahead < s.hostSize)
    (there : (pre.map hostSize).sum = (pre'.map hostSize).sum + ahead) : r = s ∧ ahead = 0 := by
  rcases List.append_eq_append_iff.mp parts with ⟨mid, before, rest⟩ | ⟨mid, before, rest⟩
  · cases mid with
    | nil =>
      rw [before, List.append_nil] at there
      exact ⟨(List.cons.inj rest).1, by omega⟩
    | cons r' mid =>
      obtain ⟨rfl, _⟩ := List.cons.inj rest
      rw [before] at there
      simp only [List.map_append, List.map_cons, List.sum_append, List.sum_cons] at there
      omega
  · cases mid with
    | nil =>
      rw [← List.append_nil pre', ← before] at there
      exact ⟨(List.cons.inj rest).1.symm, by omega⟩
    | cons s' mid =>
      obtain ⟨rfl, behind⟩ := List.cons.inj rest
      have near := inside (by simp [behind])
      rw [before] at there
      simp only [List.map_append, List.map_cons, List.sum_append, List.sum_cons] at there
      omega

theorem Inside.begins_of_ptr (h : g.Inside start) {t : Translator} {b : BlockMap}
    (keeps : t.Keeps b start g.image) {a : Addr} (ptr : b.ptr? a = some ⟨start, g.ip⟩)
    (noted : (t.note a).opcode.isSome = true) : a = g.record.addr ∧ g.done = [] := by
  have covered : g.image.Covers a := by
    by_cases covered : g.image.Covers a
    · exact covered
    · have older := keeps.older a g.ip ptr covered
      unfold ip entry at older
      omega
  obtain ⟨r, mem, covers⟩ := covered
  obtain ⟨cycles, row⟩ := keeps.shown.of_mem mem
  have first : a = r.addr := by
    have opcode : (t.note a).opcode = _ := row.opcode a covers
    rw [opcode] at noted
    by_cases first : a = r.addr
    · exact first
    · simp [first] at noted
  subst first
  obtain ⟨offset, at_offset, ptr'⟩ := row.ptr _ covers
  rw [show b.ptr? r.addr = _ from ptr'] at ptr
  cases ptr
  obtain ⟨pre, post, split⟩ := List.append_of_mem mem
  have there : g.ip = g.image.offset + (pre.map hostSize).sum := by
    have placed := keeps.block.placed
    rw [split] at placed
    exact Option.some.inj (at_offset.symm.trans placed.split.2.1)
  have parts := split.symm.trans h.records
  have pos : 0 < r.hostSize := by
    have placed := keeps.block.placed
    rw [split] at placed
    obtain ⟨k, lowered⟩ := keeps.block.shape.lowered_of_mem mem
    exact lowered.hostSize_pos placed.split.2.2.1
  have inside : g.post ≠ [] → (HostOp.codeAll g.done).length < g.record.hostSize := by
    intro behind
    have near := h.ip_lt behind
    unfold ip at near
    omega
  rw [ip, entry, Nat.add_assoc] at there
  obtain ⟨rfl, none⟩ := record_of_offset parts pos inside (Nat.add_left_cancel there).symm
  exact ⟨rfl, Classical.byContradiction fun begun => Nat.ne_of_gt (codeAll_length_pos begun) none⟩

end Spot

end Mos6502
