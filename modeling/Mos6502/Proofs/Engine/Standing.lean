import Mos6502.Proofs.Engine.Spot
import Mos6502.Proofs.Engine.Turn

/-! A frame stands at a place of a block: the next host instruction is the one that was emitted
there, and behind it the frame stands at the next place. -/
namespace Mos6502

open Record

theorem TranslatorSettings.Serves.safe {σ : Type} {compiled now : TranslatorSettings}
    {m : PagedMemory σ} {k : Known} {r : Record} (h : compiled.Serves now)
    (lowered : Lowered m compiled.options k r) (post : List Record)
    (c : Core (PagedMemory σ)) :
    Native.Safe now.options.zeroPageCode (r.ops m ++ onwardOps r post) c := by
  obtain ⟨tracked, tracks, rfl⟩ := h
  exact lowered.safe tracks post c

namespace Frame

variable {σ ω : Type}

/-- The block is as it was entered, or it is dead and left behind the instruction in progress. -/
inductive Standing {M : Type} [GuestMemory M] (f : Frame M ω) (g : Spot M) : Prop
  | intact (live : f.engine.isIntact f.pos = true) (stays : f.leaveAt = none)
  | doomed (dead : f.engine.isIntact f.pos = false) (begun : g.done ≠ [])
    (leaves : f.leaveAt = g.exit?)
  | leaving (dead : f.engine.isIntact f.pos = false) (begins : g.done = [])
    (leaves : f.leaveAt = some ⟨g.ip, g.record.addr⟩)

/-- The frame stands at the place, whatever became of memory. -/
structure Stands (f : Frame (PagedMemory σ) ω) (g : Spot (PagedMemory σ)) : Prop where
  unpaused : f.engine.paused = none
  inside : g.Inside f.pos.block
  keeps : f.engine.translator.Keeps f.engine.blocks f.pos.block g.image
  offset : g.image.offset = f.pos.entry
  ip : f.pos.ip = g.ip
  standing : f.Standing g

/-- The frame stands at the place, and the live blocks agree with memory. -/
structure At (f : Frame (PagedMemory σ) ω) (source : Addr → PagedMemory σ)
    (g : Spot (PagedMemory σ)) : Prop extends f.Stands g where
  coherent : f.engine.Coherent source fun _ => False
  memory : g.image.memory = source f.pos.block
  pages : g.image.memory.pages = f.engine.memory.pages
  serves : g.image.settings.Serves f.engine.translator.settings
  safe : Native.Safe f.engine.tracksZeroPage g.todo f.engine.core

variable {f f' : Frame (PagedMemory σ) ω} {source : Addr → PagedMemory σ}
  {g : Spot (PagedMemory σ)}

namespace Stands

theorem row (h : f.Stands g) :
    CodeTables.Shows ⟨f.engine.translator.notes, f.engine.blocks⟩ f.pos.block
      (g.record.maxCycles.toUInt32 + restOfRun g.post) g.record := by
  have shown := h.keeps.shown
  rw [h.inside.records] at shown
  exact shown.split

theorem opcode (h : f.Stands g) :
    (f.engine.translator.note g.record.addr).opcode = some g.record.opcode :=
  (h.row.opcode _ h.inside.lowered.covers_self).trans (if_pos rfl)

theorem fixup (h : f.Stands g) :
    (f.engine.translator.note g.record.addr).fixup
      = some (g.record.maxCycles.toUInt32 + restOfRun g.post) :=
  (h.row.fixup _ h.inside.lowered.covers_self).trans (if_pos rfl)

theorem refund_eq (h : f.Stands g) (budget : Int) :
    f.engine.translator.refund g.record.addr budget
      = .ok (budget + (g.record.maxCycles.toUInt32 + restOfRun g.post).toNat) := by
  unfold Translator.refund
  rw [h.fixup]
  exact if_neg (Record.owed_ne_zero h.inside.lowered (Nat.le_trans h.inside.few (by decide)))

theorem ptr (h : f.Stands g) :
    f.engine.blocks.ptr? g.record.addr = some ⟨f.pos.block, g.entry⟩ := by
  obtain ⟨offset, there, ptr⟩ := h.row.ptr _ h.inside.lowered.covers_self
  rw [h.inside.hostOffset] at there
  cases there
  exact ptr

theorem wayOut_some (h : f.Stands g) {p : LeavePoint} (out : f.wayOut? = some p) :
    f.engine.isIntact f.pos = false ∧ g.done = [] ∧ p = ⟨g.ip, g.record.addr⟩ := by
  unfold Frame.wayOut? at out
  obtain ⟨leave, here⟩ := Option.filter_eq_some_iff.mp out
  cases h.standing with
  | intact _ stays => rw [stays] at leave; cases leave
  | leaving dead begins leaves =>
    rw [leaves] at leave
    cases leave
    exact ⟨dead, begins, rfl⟩
  | doomed dead begun leaves =>
    rw [leaves] at leave
    unfold Spot.exit? at leave
    cases behind : g.post with
    | nil => rw [behind] at leave; cases leave
    | cons r post =>
      rw [behind] at leave
      cases leave
      have before := h.inside.ip_lt (by simp [behind])
      rw [h.ip] at here
      have there : g.entry + g.record.hostSize = g.ip := by simpa using here
      omega

theorem wayOut_none (h : f.Stands g) (stays : f.wayOut? = none) :
    f.engine.isIntact f.pos = true ∧ f.leaveAt = none ∨
      f.engine.isIntact f.pos = false ∧ g.done ≠ [] ∧ f.leaveAt = g.exit? := by
  cases h.standing with
  | intact live stays => exact .inl ⟨live, stays⟩
  | doomed dead begun leaves => exact .inr ⟨dead, begun, leaves⟩
  | leaving dead begins leaves =>
    unfold Frame.wayOut? at stays
    rw [leaves, h.ip] at stays
    simp at stays

theorem decode (h : f.Stands g) {op : HostOp} {rest : List HostOp} (todo : g.todo = op :: rest) :
    f.engine.translator.arena.decodeAt f.pos.ip = .ok (op, op.code.length) := by
  rw [h.ip]
  exact h.inside.decode h.keeps.stored todo

theorem startsRunAt (h : f.Stands g) (begins : g.done = []) :
    f.engine.startsRunAt g.ip = g.record.startsRun := by
  obtain ⟨offset, op, there, decoded, head⟩ := h.keeps.decode_first h.inside.records
  cases h.inside.hostOffset.symm.trans there
  have ip : g.ip = g.entry := by simp [Spot.ip, begins]
  unfold Engine.startsRunAt
  rw [ip, decoded]
  rcases head with ⟨starts, rfl⟩ | ⟨quiet, names⟩
  · rw [starts]
    rfl
  · rw [quiet]
    cases op with
    | uop u =>
      cases u with
      | countdown => exact names.elim
      | _ => rfl
    | _ => rfl

theorem signal (h : f.Stands g) (haltRequest : UInt32) :
    Frame.Stands { f with engine := { f.engine with haltRequest } } g where
  unpaused := h.unpaused
  inside := h.inside
  keeps := h.keeps
  offset := h.offset
  ip := h.ip
  standing := by
    cases h.standing with
    | intact live stays => exact .intact live stays
    | doomed dead begun leaves => exact .doomed dead begun leaves
    | leaving dead begins leaves => exact .leaving dead begins leaves

theorem at_countdown (h : f.Stands g) {addr : Addr} {cycles : UInt32} {rest : List HostOp}
    (todo : g.todo = .uop (.countdown addr cycles) :: rest) :
    addr = g.record.addr ∧ g.done = [] ∧ g.record.startsRun = true ∧
      cycles = g.record.maxCycles.toUInt32 + restOfRun g.post := by
  have mem : .uop (.countdown addr cycles) ∈ g.todo := by simp [todo]
  rcases h.inside.names mem with
    named | ⟨_, total, _, begins, is, runs⟩
  · exact named.elim
  · cases is
    have starts : g.record.startsRun = true := by simp [Record.startsRun, runs]
    have charged := h.keeps.block.charged
    rw [h.inside.records] at charged
    rw [charged.split starts] at runs
    exact ⟨rfl, begins, starts, (Option.some.inj runs).symm⟩

theorem todo_head (h : f.Stands g) (begins : g.done = []) (heads : g.record.startsRun = true) :
    ∃ rest, g.todo = .uop (.countdown g.record.addr
      (g.record.maxCycles.toUInt32 + restOfRun g.post)) :: rest := by
  have code := h.inside.code
  rw [begins, List.nil_append] at code
  obtain ⟨rest, _, ⟨total, _, ops⟩ | ⟨quiet, _⟩⟩ := h.inside.lowered.ops_tail g.post
  · have todo := code.symm.trans ops
    obtain ⟨_, _, _, charges⟩ := h.at_countdown todo
    exact ⟨rest, charges ▸ todo⟩
  · rw [heads] at quiet
    cases quiet

theorem exit (h : f.Stands g) {e : Engine (PagedMemory σ) ω} {pos : Position}
    (translator : e.translator = f.engine.translator)
    (ptrs : ∀ x, e.blocks.ptr? x = f.engine.blocks.ptr? x) (block : pos.block = f.pos.block)
    (low : g.image.offset ≤ pos.ip) (high : g.post ≠ [] → pos.ip ≤ g.entry + g.record.hostSize) :
    e.wayOut? g.record.addr pos = g.exit? := by
  have after : g.record.addr + (operationOf g.record.opcode).len.toUInt16 = g.record.addrAfter := by
    rw [addrAfter, h.inside.lowered.len_eq]
  unfold Engine.wayOut?
  simp only [translator, h.opcode, Option.bind_eq_bind, Option.bind_some, after, ptrs, block]
  unfold Spot.exit?
  cases behind : g.post with
  | nil =>
    cases ptr : f.engine.blocks.ptr? g.record.addrAfter with
    | none => rfl
    | some p =>
      obtain ⟨owner, offset⟩ := p
      dsimp only [Option.bind_some]
      by_cases same : owner = f.pos.block
      · subst same
        have outside : ¬ g.image.Covers g.record.addrAfter := by
          intro covered
          have bound := (h.keeps.block.covers_iff _).mp covered
          have short := h.keeps.block.span_le
          have chain := h.keeps.block.shape.contiguous
          rw [h.inside.records, behind] at bound short chain
          have far := (add_ofNat_eq_iff _ _ (by omega)).mp chain.addrAfter_last.symm
          omega
        have older := h.keeps.older _ _ ptr outside
        rw [if_pos (.inr (by omega))]
        rfl
      · rw [if_pos (.inl same)]
        rfl
  | cons r post =>
    have mem : r ∈ g.image.records := by
      rw [h.inside.records, behind]
      simp
    have placed := h.keeps.block.placed
    rw [h.inside.records, behind] at placed
    have there : r.hostOffset = some (g.entry + g.record.hostSize) := placed.split.2.2.2.1
    obtain ⟨k, lowered⟩ := h.keeps.block.shape.lowered_of_mem mem
    obtain ⟨cycles, row⟩ := h.keeps.shown.of_mem mem
    obtain ⟨offset, at_offset, ptr⟩ := row.ptr _ lowered.covers_self
    rw [there] at at_offset
    cases at_offset
    have ptr : f.engine.blocks.ptr? r.addr = some ⟨f.pos.block, g.entry + g.record.hostSize⟩ := ptr
    have near := high (by simp [behind])
    rw [← h.inside.addr_next behind, ptr]
    simp [Nat.not_lt.mpr near]

theorem turn_leaving (h : f.Stands g) {p : LeavePoint} (out : f.wayOut? = some p) :
    f.turn = Frame.leaveStale f.engine g.ip g.record.addr := by
  obtain ⟨_, _, rfl⟩ := h.wayOut_some out
  unfold Frame.turn
  rw [out]

theorem turn_running (h : f.Stands g) (stays : f.wayOut? = none) {op : HostOp}
    {rest : List HostOp} (todo : g.todo = op :: rest) :
    f.turn = Frame.follow { f.engine with core := (Native.execOp op f.engine.core).2 } f.pos
      op.code.length f.leaveAt (Native.execOp op f.engine.core).1 := by
  have decode := h.decode todo
  have mem : op ∈ g.todo := by simp [todo]
  have real := (h.inside.stored_of_mem mem).2
  unfold Frame.turn
  rw [stays]
  obtain ⟨⟨core, translator, runner, observer, host, paused, haltRequest⟩, pos, leaveAt⟩ := f
  dsimp only at decode ⊢
  unfold Frame.executeOp
  dsimp only
  rw [decode]
  cases op with
  | trap => exact absurd rfl real
  | _ => rfl

theorem turn_head (h : f.Stands g) (stays : f.wayOut? = none) (begins : g.done = [])
    (heads : g.record.startsRun = true) :
    ∃ len, f.turn = .ok (Frame.charge f.engine f.pos len f.leaveAt g.record.addr
      (g.record.maxCycles.toUInt32 + restOfRun g.post)) := by
  obtain ⟨rest, todo⟩ := h.todo_head begins heads
  exact ⟨_, h.turn_running stays todo⟩

theorem step_asked (h : f.Stands g) (stays : f.leaveAt = none) (begins : g.done = [])
    (heads : g.record.startsRun = true) (asked : f.engine.haltRequest ≠ 0) :
    f.step = .ok (.stopped ⟨f.engine.mapCpu fun c => { c with pc := g.record.addr },
      .ok (Halt.ofBits f.engine.haltRequest)⟩) := by
  have stays : f.wayOut? = none := by
    unfold Frame.wayOut?
    rw [stays]
    rfl
  obtain ⟨len, turn⟩ := h.turn_head stays begins heads
  unfold Frame.charge at turn
  rw [if_pos asked] at turn
  unfold Frame.step
  rw [turn]
  rfl

theorem about (h : f.Stands g) {op : HostOp} {rest : List HostOp} (todo : g.todo = op :: rest) :
    (Native.execOp op f.engine.core).1.About g.record.addr := by
  have mem : op ∈ g.todo := by simp [todo]
  refine (Native.framed_execOp op f.engine.core).explained.about ?_
  exact (h.inside.names mem).imp_right fun ⟨_, total, _, _, is, _⟩ => ⟨total, is⟩

/-- Once the block is dead, the host instruction leaves the frame with the exit of its record: from now
on, or as it had it before. -/
theorem leaveAfter_dead (h : f.Stands g) (stays : f.wayOut? = none) {out : Outcome}
    {e : Engine (PagedMemory σ) ω} {ip : Nat} (dead : e.isIntact { f.pos with ip } = false)
    (kept : (∀ pc, out ≠ .stale pc) → e.blocks = f.engine.blocks)
    (exit : ∀ pc, out = .stale pc → e.wayOut? pc { f.pos with ip } = g.exit?) :
    leaveAfter f.leaveAt e { f.pos with ip } out = g.exit? := by
  have before := h.wayOut_none stays
  unfold leaveAfter
  cases out with
  | stale pc =>
    dsimp only
    rw [dead, if_neg Bool.false_ne_true, exit pc rfl]
    rcases before with ⟨_, none⟩ | ⟨_, _, there⟩
    · rw [none, Option.or_none]
    · rw [there, Option.or_self]
  | _ =>
    have same : e.blocks = f.engine.blocks := kept fun _ => Outcome.noConfusion
    rcases before with ⟨was, _⟩ | ⟨_, _, there⟩
    · have contra : e.isIntact { f.pos with ip } = true := by
        rw [Engine.isIntact_iff, same]
        exact (f.engine.isIntact_iff f.pos).mp was
      rw [dead] at contra
      cases contra
    · exact there

theorem standing_next (h : f.Stands g) (stays : f.wayOut? = none) {op : HostOp}
    {rest : List HostOp} (todo : g.todo = op :: rest) {d : Core (PagedMemory σ)}
    (goes : Native.Continues (Native.execOp op f.engine.core).1 (Native.execOp op f.engine.core).2 d)
    {e : Engine (PagedMemory σ) ω} (core : e.core = d)
    (translator : e.translator = f.engine.translator) :
    Standing ⟨e, { f.pos with ip := f.pos.ip + op.code.length },
      leaveAfter f.leaveAt e { f.pos with ip := f.pos.ip + op.code.length }
        (Native.execOp op f.engine.core).1⟩ g.next := by
  have runs_on : ¬ Native.Ends (M := PagedMemory σ) op := fun ends => ends _ _ goes
  obtain ⟨inside, ip⟩ := h.inside.next todo runs_on
  have explained := (Native.framed_execOp op f.engine.core).explained
  have about := h.about todo
  have blocks : e.blocks = (Native.execOp op f.engine.core).2.bus.blocks := by
    rw [← goes.bus]
    exact congrArg (·.bus.blocks) core
  have shrinks : f.engine.blocks.Shrinks e.blocks := by
    rw [blocks]
    exact explained.shrinks
  generalize (Native.execOp op f.engine.core).1 = out at goes explained about
  have exit : ∀ pc, out = .stale pc →
      e.wayOut? pc { f.pos with ip := f.pos.ip + op.code.length } = g.exit? := by
    rintro pc rfl
    rw [show pc = g.record.addr from about]
    refine h.exit translator shrinks.ptr rfl ?_ ?_
    · change g.image.offset ≤ f.pos.ip + op.code.length
      rw [h.ip]
      unfold Spot.ip Spot.entry
      omega
    · change g.post ≠ [] → f.pos.ip + op.code.length ≤ _
      rw [h.ip]
      exact h.inside.ip_next_le todo runs_on
  have before := h.wayOut_none stays
  cases live : e.isIntact { f.pos with ip := f.pos.ip + op.code.length } with
  | true =>
    refine .intact live ?_
    have entry := (e.isIntact_iff _).mp live
    have was : f.engine.isIntact f.pos = true :=
      (f.engine.isIntact_iff f.pos).mpr (shrinks.entry _ _ entry)
    have none : f.leaveAt = none := by
      rcases before with ⟨_, none⟩ | ⟨dead, _⟩
      · exact none
      · rw [was] at dead
        cases dead
    unfold leaveAfter
    cases out with
    | stale pc => exact (if_pos live).trans none
    | _ => exact none
  | false =>
    have leaves := h.leaveAfter_dead stays live (fun kept => blocks.trans (explained.blocks kept)) exit
    rcases h.inside.next_cases todo runs_on with ⟨_, is⟩ | ⟨rfl, r, post, behind, is⟩
    · refine .doomed live ?_ ?_
      · rw [is]
        simp
      · rw [is]
        exact leaves
    · refine .leaving live ?_ ?_
      · rw [is]
        rfl
      · rw [ip, ← h.inside.entry_next todo behind, is]
        change leaveAfter f.leaveAt e _ out = _
        rw [leaves, Spot.exit?, behind]
        rfl

theorem advance (h : f.Stands g) (stays : f.wayOut? = none) {op : HostOp}
    {rest : List HostOp} (todo : g.todo = op :: rest) {d : Core (PagedMemory σ)}
    (goes : Native.Continues (Native.execOp op f.engine.core).1 (Native.execOp op f.engine.core).2 d)
    {e : Engine (PagedMemory σ) ω} (core : e.core = d)
    (translator : e.translator = f.engine.translator) (unpaused : e.paused = none) :
    Stands ⟨e, { f.pos with ip := f.pos.ip + op.code.length },
      leaveAfter f.leaveAt e { f.pos with ip := f.pos.ip + op.code.length }
        (Native.execOp op f.engine.core).1⟩ g.next := by
  have runs_on : ¬ Native.Ends (M := PagedMemory σ) op := fun ends => ends _ _ goes
  obtain ⟨inside, ip⟩ := h.inside.next todo runs_on
  have less : f.engine.blocks.Shrinks e.blocks := by
    have less := (Native.framed_execOp op f.engine.core).explained.shrinks
    rw [← goes.bus, ← core] at less
    exact less
  refine ⟨unpaused, inside, ?_, ?_, ?_, h.standing_next stays todo goes core translator⟩
  · rw [g.image_next, translator]
    exact h.keeps.shrinks less
  · rw [g.image_next]
    exact h.offset
  · rw [ip, ← h.ip]

end Stands

structure Advances (f : Frame (PagedMemory σ) ω) (g : Spot (PagedMemory σ))
    (f' : Frame (PagedMemory σ) ω) : Prop where
  stays : f.wayOut? = none
  there : f'.Stands g.next
  goes : ∃ op rest, g.todo = op :: rest ∧
    Native.Continues (Native.execOp op f.engine.core).1 (Native.execOp op f.engine.core).2
      f'.engine.core
  translator : f'.engine.translator = f.engine.translator
  block : f'.pos.block = f.pos.block

/-- What holds along the host code of every record of the block holds along what is left of the
record that the frame goes on in. -/
theorem Advances.along_next {S : Core (PagedMemory σ) → Outcome → Core (PagedMemory σ) → Prop}
    (advances : f.Advances g f') (h : f.Stands g)
    (whole : ∀ {k r}, Lowered g.image.memory g.image.settings.options k r →
      ∀ post c, Native.Along S (fun _ => True) (r.ops g.image.memory ++ onwardOps r post) c)
    (along : Native.Along S (fun _ => True) g.todo f.engine.core) :
    Native.Along S (fun _ => True) g.next.todo f'.engine.core := by
  obtain ⟨op, rest, todo, goes⟩ := advances.goes
  have runs_on : ¬ Native.Ends (M := PagedMemory σ) op := fun ends => ends _ _ goes
  rw [todo] at along
  rcases h.inside.next_cases todo runs_on with ⟨_, is⟩ | ⟨_, r, post, _, is⟩
  · rw [is]
    exact along.2 _ goes
  · have inside := (h.inside.next todo runs_on).1
    rw [is] at inside ⊢
    exact whole inside.lowered post _

end Frame

namespace Turn

variable {σ ω : Type}

def Rests (source : Addr → PagedMemory σ) : Turn (PagedMemory σ) ω → Prop
  | .stay _ => False
  | .go e _ => e.Consistent source ∧ e.paused = none
  | .stop s => s.engine.Consistent source

def Settles (source : Addr → PagedMemory σ) : Turn (PagedMemory σ) ω → Prop
  | .stay _ => False
  | .go e _ => e.Coherent source (fun _ => False) ∧ e.paused = none
  | .stop s => s.engine.Coherent source fun _ => False

end Turn

namespace Engine

variable {σ ω : Type} {e e' : Engine (PagedMemory σ) ω} {source : Addr → PagedMemory σ}
  {dirty : Addr → Prop}

theorem Coherent.mapCpu (h : e.Coherent source dirty) (f : Cpu → Cpu) :
    (e.mapCpu f).Coherent source dirty := by
  rw [mapCpu_eq]
  exact h.of_same rfl rfl (.inl rfl)

theorem leaveAt_same {addr : Addr} {left : Engine (PagedMemory σ) ω}
    (ok : e.leaveAt addr = .ok left) : left.core.bus = e.core.bus ∧ left.paused = e.paused := by
  obtain ⟨budget, _, rfl⟩ := leaveAt_eq_ok ok
  rw [mapCpu_eq]
  exact ⟨rfl, rfl⟩

theorem follows_bounce {addr : Addr} {out : Turn (PagedMemory σ) ω} (onBus : e.runner.OnBus)
    (ok : e.bounce addr = .ok out) (zeroPage : Bool) :
    e.core.bus.Follows zeroPage out.engine.core.bus := by
  obtain ⟨left, left_at, step, cpu, bus, host, ran, out⟩ := bounce_eq_ok ok
  have same := (leaveAt_same left_at).1
  obtain ⟨p, program⟩ := onBus left.host left.core.cpu
  rw [(sameSetup_leaveAt left_at).runner, program] at ran
  have follows : left.core.bus.Follows zeroPage (p.run left.core.bus).2 :=
    CodeBus.follows_run p left.core.bus
  rw [show (p.run left.core.bus).2 = bus from congrArg (·.2.1) ran, same] at follows
  rcases out with ⟨why, _, rfl⟩ | ⟨_, after, rfl, rfl⟩
  · exact follows
  · have answered := follows_answerIrq { left with
      core := ⟨{ cpu with budget := cpu.budget - step.cycles }, bus⟩, host } zeroPage
    exact follows.trans answered

theorem Consistent.bounce {addr : Addr} {out : Turn (PagedMemory σ) ω}
    (h : e.Consistent source) (unpaused : e.paused = none) (onBus : e.runner.OnBus)
    (ok : e.bounce addr = .ok out) : out.Rests source := by
  obtain ⟨left, left_at, step, cpu, bus, host, ran, out⟩ := bounce_eq_ok ok
  have consistent := h.leaveAt left_at
  obtain ⟨p, program⟩ := onBus left.host left.core.cpu
  rw [(sameSetup_leaveAt left_at).runner, program] at ran
  have less : left.blocks.Shrinks (p.run left.core.bus).2.blocks := CodeBus.shrinks_run p left.core.bus
  rw [show (p.run left.core.bus).2 = bus from congrArg (·.2.1) ran] at less
  rcases out with ⟨why, _, rfl⟩ | ⟨_, after, rfl, rfl⟩
  · exact consistent.of_shrinks less rfl (.inl rfl)
  · refine ⟨Consistent.answerIrq (consistent.of_shrinks less rfl (.inl rfl)), ?_⟩
    exact (answerIrq_paused _).trans ((leaveAt_same left_at).2.trans unpaused)

end Engine

namespace Frame

variable {σ ω : Type} {f f' : Frame (PagedMemory σ) ω} {source : Addr → PagedMemory σ}
  {g : Spot (PagedMemory σ)}

theorem Stands.pausesWell (h : f.Stands g) {addr : Addr} {cycles : UInt32} {rest : List HostOp}
    (todo : g.todo = .uop (.countdown addr cycles) :: rest) {e : Engine (PagedMemory σ) ω}
    {generation : Nat} (blocks : e.blocks = f.engine.blocks)
    (translator : e.translator = f.engine.translator) (live : e.isIntact f.pos = true) :
    e.PausesWell ⟨addr, f.pos, generation⟩ := by
  obtain ⟨rfl, begins, runs, _⟩ := h.at_countdown todo
  have ip : f.pos.ip = g.entry := h.ip.trans (by simp [Spot.ip, begins])
  rw [Engine.isIntact_iff, blocks] at live
  refine ⟨⟨g.entry, f.pos.entry, ?_, ?_, ?_⟩, ?_, ?_, ?_⟩
  · rw [blocks]
    exact h.ptr
  · rw [blocks]
    exact live
  · rw [← h.offset]
    exact Nat.le_add_right _ _
  · rw [blocks, ip]
    exact h.ptr
  · rw [translator, h.opcode]
    rfl
  · rw [h.ip, ← runs, ← h.startsRunAt begins]
    rw [Engine.startsRunAt, translator]
    rfl

theorem Stands.turn_spec (h : f.Stands g) (consistent : f.engine.Consistent source)
    (onBus : f.engine.runner.OnBus) {out : Turn (PagedMemory σ) ω} (ok : f.turn = .ok out) :
    (∃ f', out = .stay f' ∧ f.Advances g f' ∧ f'.engine.Consistent source) ∨ out.Rests source := by
  cases stays : f.wayOut? with
  | some p =>
    right
    rw [h.turn_leaving stays] at ok
    unfold Frame.leaveStale at ok
    split at ok
    · cases ok
      exact ⟨consistent, h.unpaused⟩
    · obtain ⟨budget, _, done⟩ := bind_eq_ok.mp ok
      cases done
      refine ⟨consistent.mapCpu _, ?_⟩
      rw [Engine.mapCpu_eq]
      exact h.unpaused
  | none =>
    obtain ⟨op, rest, todo⟩ := List.exists_cons_of_ne_nil h.inside.more
    rw [h.turn_running stays todo] at ok
    have less := (Native.framed_execOp op f.engine.core).explained.shrinks
    have kept : Engine.Consistent { f.engine with core := (Native.execOp op f.engine.core).2 }
        source := consistent.of_shrinks less rfl (.inl rfl)
    obtain ⟨ran, is_ran⟩ : ∃ e : Engine (PagedMemory σ) ω,
      e = { f.engine with core := (Native.execOp op f.engine.core).2 } := ⟨_, rfl⟩
    rw [← is_ran] at ok kept
    have core : ran.core = (Native.execOp op f.engine.core).2 := by rw [is_ran]
    have translator : ran.translator = f.engine.translator := by rw [is_ran]
    have unpaused : ran.paused = none := by rw [is_ran]; exact h.unpaused
    have runner : ran.runner = f.engine.runner := by rw [is_ran]
    cases Frame.follow_spec ok with
    | stay goes e' is_core same paused host =>
      rw [core] at goes
      have translator' := same.trans translator
      have unpaused' := paused.trans unpaused
      have less' : ran.blocks.Shrinks e'.blocks := by
        rw [Engine.blocks, Engine.blocks, is_core, goes.bus, ← core]
        exact .refl _
      exact .inl ⟨_, rfl, ⟨stays, h.advance stays todo goes is_core translator' unpaused',
        ⟨op, rest, todo, is_core ▸ goes⟩, translator', rfl⟩, kept.of_shrinks less' same (.inl paused)⟩
    | jump is => exact .inr ⟨kept, unpaused⟩
    | bounce is bounced => exact .inr (kept.bounce unpaused (runner ▸ onBus) bounced)
    | leave is left_at => exact .inr (kept.leaveAt left_at)
    | @halt addr cycles is asked => exact .inr (kept.mapCpu fun c => { c with pc := addr })
    | observed shown is _ is_core same paused host left_at =>
      have blocks : shown.blocks = ran.blocks := by rw [Engine.blocks, is_core, Engine.blocks]
      exact .inr ((kept.of_same blocks same (.inl paused)).leaveAt left_at)
    | @pause at_addr cycles is =>
      have explained := (Native.framed_execOp op f.engine.core).explained
      rw [is] at explained
      obtain ⟨rfl, same⟩ := explained
      have blocks : ran.blocks = f.engine.blocks := by
        rw [Engine.blocks, core, same]
        rfl
      exact .inr ((kept.setPause (h.pausesWell todo blocks translator)).mapCpu
        fun c => { c with pc := at_addr })

theorem Followed.follows {e : Engine (PagedMemory σ) ω} {pos : Position} {len : Nat}
    {leaveAt : Option LeavePoint} {out : Outcome} {t : Turn (PagedMemory σ) ω}
    (onBus : e.runner.OnBus) (h : Followed e pos len leaveAt out t) (zeroPage : Bool) :
    e.core.bus.Follows zeroPage t.engine.core.bus := by
  cases h with
  | stay goes e' core =>
    dsimp only [Turn.engine]
    rw [core, goes.bus]
    exact .refl _
  | jump => exact .refl _
  | bounce _ ran => exact Engine.follows_bounce onBus ran zeroPage
  | leave _ left_at =>
    dsimp only [Turn.engine]
    rw [(Engine.leaveAt_same left_at).1]
    exact .refl _
  | halt | pause =>
    dsimp only [Turn.engine]
    rw [Engine.mapCpu_eq]
    exact .refl _
  | observed shown _ _ core _ _ _ left_at =>
    dsimp only [Turn.engine]
    rw [(Engine.leaveAt_same left_at).1, core]
    exact .refl _

namespace At

theorem signal (h : f.At source g) (haltRequest : UInt32) :
    Frame.At { f with engine := { f.engine with haltRequest } } source g where
  toStands := h.toStands.signal haltRequest
  coherent := h.coherent.of_same rfl rfl (.inl rfl)
  memory := h.memory
  pages := h.pages
  serves := h.serves
  safe := h.safe

theorem follows_turn (h : f.At source g) (onBus : f.engine.runner.OnBus)
    {out : Turn (PagedMemory σ) ω} (ok : f.turn = .ok out) :
    f.engine.core.bus.Follows f.engine.tracksZeroPage out.engine.core.bus := by
  cases stays : f.wayOut? with
  | some p =>
    rw [h.turn_leaving stays] at ok
    unfold Frame.leaveStale at ok
    split at ok
    · cases ok
      exact .refl _
    · obtain ⟨budget, _, done⟩ := bind_eq_ok.mp ok
      cases done
      dsimp only [Turn.engine]
      rw [Engine.mapCpu_eq]
      exact .refl _
  | none =>
    obtain ⟨op, rest, todo⟩ := List.exists_cons_of_ne_nil h.inside.more
    rw [h.turn_running stays todo] at ok
    have safe := h.safe
    rw [todo] at safe
    have ran : Engine.runner { f.engine with core := (Native.execOp op f.engine.core).2 }
        = f.engine.runner := rfl
    have follows := (Frame.follow_spec ok).follows (ran ▸ onBus) f.engine.tracksZeroPage
    exact (CodeBus.follows_execOp safe.1).trans follows

theorem safe_next (h : f.At source g) (advances : f.Advances g f') :
    Native.Safe f.engine.tracksZeroPage g.next.todo f'.engine.core :=
  advances.along_next h.toStands (fun lowered post c => h.serves.safe lowered post c) h.safe

theorem turn_spec (h : f.At source g) (onBus : f.engine.runner.OnBus)
    {out : Turn (PagedMemory σ) ω} (ok : f.turn = .ok out) :
    (∃ f', out = .stay f' ∧ f.wayOut? = none ∧ f'.At source g.next) ∨ out.Settles source := by
  have follows := h.follows_turn onBus ok
  have translator := (sameSetup_turn ok).translator
  rcases h.toStands.turn_spec h.coherent.toConsistent onBus ok with
    ⟨f', rfl, advances, consistent⟩ | rests
  · have same : f'.engine.tracksZeroPage = f.engine.tracksZeroPage := by
      rw [Engine.tracksZeroPage, advances.translator, Engine.tracksZeroPage]
    refine .inl ⟨f', rfl, advances.stays, advances.there,
      h.coherent.of_follows consistent follows advances.translator, ?_, ?_, ?_, ?_⟩
    · rw [g.image_next, advances.block]
      exact h.memory
    · rw [g.image_next, h.pages]
      exact follows.pages.symm
    · rw [g.image_next, advances.translator]
      exact h.serves
    · rw [same]
      exact h.safe_next advances
  · right
    cases out with
    | stay f' => exact rests.elim
    | go e target => exact ⟨h.coherent.of_follows rests.1 follows translator, rests.2⟩
    | stop s => exact h.coherent.of_follows rests follows translator

end At

end Frame

end Mos6502
