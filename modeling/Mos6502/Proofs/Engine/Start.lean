import Mos6502.Proofs.Engine.Standing

/-! Where frames come from: a block is entered at its first record, and a run that paused goes on
at the countdown it paused at. -/
namespace Mos6502

open Record

variable {σ ω : Type}

namespace Frame

structure Begins (f : Frame (PagedMemory σ) ω) (source : Addr → PagedMemory σ)
    (g : Spot (PagedMemory σ)) : Prop extends f.Stands g where
  begins : g.done = []
  live : f.engine.isIntact f.pos = true
  memory : g.image.memory = source f.pos.block
  serves : g.image.settings.Serves f.engine.translator.settings

variable {f : Frame (PagedMemory σ) ω} {source : Addr → PagedMemory σ} {g : Spot (PagedMemory σ)}

theorem Begins.isAt (h : f.Begins source g)
    (coherent : f.engine.Coherent source fun _ => False) : f.At source g where
  toStands := h.toStands
  coherent := coherent
  memory := h.memory
  pages := by
    rw [h.memory]
    refine coherent.pages _ ?_
    rw [(f.engine.isIntact_iff f.pos).mp h.live]
    rfl
  serves := h.serves
  safe := by
    have code := h.inside.code
    rw [h.begins, List.nil_append] at code
    rw [← code]
    exact h.serves.safe h.inside.lowered g.post f.engine.core

end Frame

namespace Engine

variable {e : Engine (PagedMemory σ) ω} {source : Addr → PagedMemory σ}

theorem Consistent.begins (h : e.Consistent source) (unpaused : e.paused = none)
    (pos : Position) (live : e.isIntact pos = true) :
    ∃ i : Image (PagedMemory σ), e.translator.Keeps e.blocks pos.block i ∧
      e.blocks.entryAt? pos.block = some i.offset ∧
      ∀ pre r post, i.records = pre ++ r :: post → pos.ip = i.offset + (pre.map hostSize).sum →
        Frame.Begins ⟨e, pos, none⟩ source (Spot.begin i pre r post) := by
  have is_live := live
  rw [isIntact_iff] at live
  obtain ⟨i, memory, offset, serves, keeps⟩ := h.sound.live _ _ live
  refine ⟨i, keeps, offset ▸ live, ?_⟩
  intro pre r post records ip
  have inside := Spot.inside_begin keeps.block records
  refine ⟨⟨unpaused, inside, keeps, offset, ?_, .intact is_live rfl⟩, rfl, is_live, memory, serves⟩
  simp [Spot.ip, Spot.entry, Spot.begin, ip]

theorem Consistent.enter (h : e.Consistent source) (unpaused : e.paused = none)
    {target : Addr} {pos : Position} {e' : Engine (PagedMemory σ) ω}
    (done : e.locate target = .ok (pos, e')) :
    ∃ g, Frame.Begins ⟨e', pos, none⟩ (e.located source target) g ∧ g.pre = [] ∧
      g.record.addr = target := by
  obtain ⟨consistent, located⟩ := h.locate unpaused done
  obtain ⟨entry, rfl, live⟩ := located.pos
  obtain ⟨i, keeps, same, begins⟩ := consistent.begins (located.paused.trans unpaused)
    ⟨entry, target, entry⟩ ((e'.isIntact_iff _).mpr live)
  rw [live] at same
  cases same
  obtain ⟨r, post, records⟩ := List.exists_cons_of_ne_nil keeps.block.nonempty
  have first := keeps.block.shape
  rw [records] at first
  exact ⟨_, begins [] r post records rfl, rfl, first.1⟩

theorem Consistent.resume (h : e.Consistent source) {pos : Position}
    (valid : e.validPause? = some pos) :
    ∃ g, Frame.Begins ⟨e.setPause none, pos, none⟩ source g ∧ g.record.addr = e.cpu.pc ∧
      g.record.startsRun = true := by
  unfold validPause? at valid
  split at valid
  · cases valid
  · next p paused =>
    split at valid
    · next still =>
      obtain ⟨pc, _, intact⟩ := still
      cases valid
      obtain ⟨covered, ptr, noted, starts⟩ := h.pause p paused intact
      have consistent : (e.setPause none).Consistent source := h.of_same rfl rfl (.inr rfl)
      obtain ⟨i, keeps, live, begins⟩ := consistent.begins rfl p.pos intact
      have keeps : e.translator.Keeps e.blocks p.pos.block i := keeps
      obtain ⟨r, mem, covers⟩ := (keeps.liveAt_iff live p.pc).mp covered
      obtain ⟨cycles, row⟩ := keeps.shown.of_mem mem
      obtain ⟨offset, there, ptr'⟩ := row.ptr _ covers
      rw [show e.blocks.ptr? p.pc = _ from ptr'] at ptr
      cases ptr
      have first : p.pc = r.addr := by
        by_cases first : p.pc = r.addr
        · exact first
        · rw [show (e.translator.note p.pc).opcode = _ from row.opcode _ covers,
            if_neg first] at noted
          cases noted
      obtain ⟨pre, post, records⟩ := List.append_of_mem mem
      have placed := keeps.block.placed
      rw [records] at placed
      have ip := Option.some.inj (there.symm.trans placed.split.2.1)
      have begun := begins pre r post records ip
      refine ⟨_, begun, first.symm.trans pc, ?_⟩
      rw [← begun.startsRunAt begun.begins, ← begun.ip]
      exact starts
    · cases valid

/-- The engine of a first frame, with a pending interrupt taken. -/
def answered (e : Engine (PagedMemory σ) ω) : Engine (PagedMemory σ) ω :=
  if e.cpu.interruptDue then e.answerIrq.setPause none else e

def started (e : Engine (PagedMemory σ) ω) (source : Addr → PagedMemory σ) :
    Addr → PagedMemory σ :=
  match e.answered.validPause? with
  | some _ => source
  | none => (e.answered.setPause none).located source e.answered.cpu.pc

theorem Consistent.answered (h : e.Consistent source) : e.answered.Consistent source := by
  unfold Engine.answered
  split
  · exact h.answerIrq.of_same rfl rfl (.inr rfl)
  · exact h

theorem Coherent.answered (h : e.Coherent source fun _ => False) :
    e.answered.Coherent source fun _ => False := by
  unfold Engine.answered
  split
  · exact h.answerIrq.of_same rfl rfl (.inr rfl)
  · exact h

/-- A run goes on in place, or enters the block at the program counter. -/
theorem start_cases (source : Addr → PagedMemory σ) {f : Frame (PagedMemory σ) ω}
    (ok : e.start = .ok f) :
    (∃ pos, e.answered.validPause? = some pos ∧ f = ⟨e.answered.setPause none, pos, none⟩ ∧
        e.started source = source) ∨
      ∃ pos e', e.answered.validPause? = none ∧
        (e.answered.setPause none).locate e.answered.cpu.pc = .ok (pos, e') ∧
        f = ⟨e', pos, none⟩ ∧
        e.started source = (e.answered.setPause none).located source e.answered.cpu.pc := by
  unfold Engine.start at ok
  change (match e.answered.validPause? with
    | some pos => pure ⟨e.answered.setPause none, pos, none⟩
    | none => _ : Except Fault (Frame (PagedMemory σ) ω)) = .ok f at ok
  unfold Engine.started
  cases valid : e.answered.validPause? with
  | some pos =>
    rw [valid] at ok
    cases ok
    exact .inl ⟨pos, rfl, rfl, rfl⟩
  | none =>
    rw [valid] at ok
    obtain ⟨⟨pos, e'⟩, located, done⟩ := bind_eq_ok.mp ok
    cases done
    exact .inr ⟨pos, e', rfl, located, rfl, rfl⟩

theorem Consistent.start_core (h : e.Consistent source) {f : Frame (PagedMemory σ) ω}
    (ok : e.start = .ok f) :
    f.engine.cpu = e.answered.cpu ∧ f.engine.memory = e.answered.memory := by
  rcases start_cases source ok with ⟨_, _, rfl, _⟩ | ⟨_, _, _, located, rfl, _⟩
  · exact ⟨rfl, rfl⟩
  · have unpaused : (e.answered.setPause none).Consistent source :=
      h.answered.of_same rfl rfl (.inr rfl)
    have same := (unpaused.locate rfl located).2
    exact ⟨same.cpu, same.memory⟩

theorem start_leaveAt {f : Frame (PagedMemory σ) ω} (ok : e.start = .ok f) : f.leaveAt = none := by
  rcases start_cases (fun _ => e.memory) ok with ⟨_, _, rfl, _⟩ | ⟨_, _, _, _, rfl, _⟩ <;> rfl

theorem Consistent.start (h : e.Consistent source) {f : Frame (PagedMemory σ) ω}
    (ok : e.start = .ok f) :
    f.engine.Consistent (e.started source) ∧ ∃ g, f.Begins (e.started source) g ∧
      g.record.addr = e.answered.cpu.pc ∧ g.record.startsRun = true := by
  rcases start_cases source ok with
    ⟨pos, valid, rfl, same⟩ | ⟨pos, e', _, located, rfl, same⟩
  · rw [same]
    exact ⟨h.answered.of_same rfl rfl (.inr rfl), h.answered.resume valid⟩
  · rw [same]
    have unpaused : (e.answered.setPause none).Consistent source :=
      h.answered.of_same rfl rfl (.inr rfl)
    obtain ⟨g, begun, first, addr⟩ := unpaused.enter rfl located
    have shape := begun.inside.block.shape
    rw [begun.inside.records, first] at shape
    exact ⟨(unpaused.locate rfl located).1, g, begun, addr, shape.2.2.1⟩

theorem Coherent.start (h : e.Coherent source fun _ => False) {f : Frame (PagedMemory σ) ω}
    (ok : e.start = .ok f) : f.engine.Coherent (e.started source) fun _ => False := by
  rcases start_cases source ok with
    ⟨pos, _, rfl, same⟩ | ⟨pos, e', _, located, rfl, same⟩
  · rw [same]
    exact h.answered.of_same rfl rfl (.inr rfl)
  · rw [same]
    have unpaused : (e.answered.setPause none).Coherent source fun _ => False :=
      h.answered.of_same rfl rfl (.inr rfl)
    exact (unpaused.locate rfl located).1

end Engine

end Mos6502
