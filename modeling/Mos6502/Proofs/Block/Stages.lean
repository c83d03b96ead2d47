import Mos6502.Proofs.Block.Shape

/-! What the stages of a compile hand on: finding the records, charging their runs, and emitting
as many of them as fit. Each stage that succeeds keeps the shape of the block. -/
namespace Mos6502

variable {M : Type} [GuestMemory M] {m : M} {o : LoweringOptions} {k : Record.Known}

namespace Record

theorem lowered_lower (m : M) (o : LoweringOptions) (a : Addr) :
    Lowered m o {} (lower m o a) where
  opcode := rfl
  operand := rfl
  len := rfl
  maxCycles := rfl
  branch := rfl
  ends := id
  uops := by
    have unknown : ({} : Known).rewrite = id := funext Known.rewrite_unknown
    have heads : (lower m o a).headUops = [] := rfl
    have closing : closingUops (lower m o a) (lower m o a) = [] := if_pos rfl
    change (lower m o a).uopList = (lower m o a).headUops
      ++ (lower m o a).uopList.map ({} : Known).rewrite
      ++ closingUops (lower m o a) (lower m o a)
    rw [unknown, heads, closing, List.map_id, List.nil_append, List.append_nil]

theorem startRun_spec {a : Addr} {r : Record} (h : (lower m o a).startRun = .ok r) :
    r.addr = a ∧ Lowered m o {} r ∧ r.startsRun = true := by
  unfold startRun pushFront at h
  split at h
  · cases h
    refine ⟨rfl, ?_, rfl⟩
    refine (lowered_lower m o a).of_same rfl rfl rfl rfl rfl rfl rfl ?_
    intro body hb
    have bare : (lower m o a).uopList = body := hb
    change .countdown a 0 :: (lower m o a).uopList = .countdown a 0 :: body
    rw [bare]
  · cases h

theorem close_spec {r r' : Record} (h : r.close = .ok r') (lowered : Lowered m o k r)
    (open_end : r.endsBlock = false) :
    Lowered m o k r' ∧ r'.addr = r.addr ∧ r'.startsRun = r.startsRun := by
  unfold close at h
  obtain ⟨r₁, pushed, done⟩ := bind_eq_ok.mp h
  cases done
  unfold Record.push at pushed
  split at pushed
  · cases pushed
    refine ⟨?_, rfl, rfl⟩
    have runs_on : (lower m o r.addr).endsBlock = false := by
      cases he : (lower m o r.addr).endsBlock with
      | false => rfl
      | true => exact absurd (lowered.ends he) (by simp [open_end])
    have before := lowered.uops
    have nothing : closingUops (lower m o r.addr) r = [] := by
      simp [closingUops, runs_on, open_end]
    rw [nothing, List.append_nil] at before
    constructor
    · exact lowered.opcode
    · exact lowered.operand
    · exact lowered.len
    · exact lowered.maxCycles
    · exact lowered.branch
    · exact fun _ => rfl
    · simp only [uopList, List.map_append, List.map_cons, List.map_nil, closingUops, runs_on]
      rw [← uopList, before]
      rfl
  · cases pushed

end Record

namespace TranslatorSettings

def extend (s : TranslatorSettings) (notes : AddrTable AddrNote) (m : M) (r : Record)
    (room : Nat) : Except Fault (List Record) := do
  if r.endsBlock then
    return [r]
  else if (notes.get r.addrAfter).isStart || room == 0 then
    return [← r.close]
  else
    let rest ← s.gatherFrom notes m r.addrAfter (r.branch == .conditional) room
    return r :: rest

theorem gatherFrom_isBlock {s : TranslatorSettings} {notes : AddrTable AddrNote} {a : Addr}
    {runs : Bool} {room : Nat} {rs : List Record}
    (h : s.gatherFrom notes m a runs room = .ok rs) :
    Record.IsBlock m s.options false {} runs a rs ∧ rs.length ≤ room := by
  induction room generalizing a runs rs with
  | zero =>
    cases h
    exact ⟨trivial, Nat.le_refl 0⟩
  | succ room ih =>
    have first : ∃ r, (r.addr = a ∧ Record.Lowered m s.options {} r ∧ r.startsRun = runs) ∧
        s.extend notes m r room = .ok rs := by
      rw [gatherFrom] at h
      cases runs with
      | true =>
        obtain ⟨r, head, tail⟩ := bind_eq_ok.mp h
        obtain ⟨addr, lowered, starts⟩ := Record.startRun_spec head
        exact ⟨r, ⟨addr, lowered, starts⟩, tail⟩
      | false => exact ⟨_, ⟨rfl, Record.lowered_lower m s.options a, rfl⟩, h⟩
    obtain ⟨r, ⟨addr, lowered, starts⟩, tail⟩ := first
    unfold extend at tail
    by_cases ends : r.endsBlock = true
    · rw [if_pos ends] at tail
      cases tail
      exact ⟨⟨addr, lowered, starts, fun _ => rfl, trivial⟩, by simp⟩
    · rw [if_neg ends] at tail
      have open_end : r.endsBlock = false := by simpa using ends
      split at tail
      · obtain ⟨last, closed, done⟩ := bind_eq_ok.mp tail
        cases done
        obtain ⟨low, addr', starts'⟩ := Record.close_spec closed lowered open_end
        exact ⟨⟨addr'.trans addr, low, starts'.trans starts, fun _ => rfl, trivial⟩, by simp⟩
      · obtain ⟨rest, more, done⟩ := bind_eq_ok.mp tail
        cases done
        obtain ⟨shape, short⟩ := ih more
        refine ⟨⟨addr, lowered, starts, ?_, shape⟩, by simpa using short⟩
        intro contra
        exact absurd contra ends

theorem gather_isBlock {s : TranslatorSettings} {notes : AddrTable AddrNote} {start : Addr}
    {rs : List Record} (h : s.gather notes m start = .ok rs) :
    Record.IsBlock m s.options false {} true start rs ∧ rs.length ≤ maxRecords := by
  unfold gather at h
  obtain ⟨found, more, same⟩ := bind_eq_ok.mp h
  split at same
  · cases same
  · cases same
    obtain ⟨shape, short⟩ := gatherFrom_isBlock more
    exact ⟨shape, Nat.le_trans short (Nat.min_le_left _ _)⟩

end TranslatorSettings

namespace Record

theorem chargeRuns_eq_ok {rs out : List Record} (h : chargeRuns rs = .ok out) :
    out = setTotals rs := by
  unfold chargeRuns at h
  dsimp only at h
  split at h
  · cases h
  · obtain ⟨_, _, done⟩ := bind_eq_ok.mp h
    cases done
    rfl

/-- Every record but the last runs on, and the last one ends the block. -/
def EndsAtLast : List Record → Prop
  | [] => True
  | r :: rs => r.endsBlock = rs.isEmpty ∧ EndsAtLast rs

theorem endsAtLast_of_checkEnds {i : Nat} {rs : List Record} (h : checkEnds i rs = .ok ()) :
    EndsAtLast rs := by
  induction rs generalizing i with
  | nil => trivial
  | cons r rs ih =>
    unfold checkEnds at h
    dsimp only at h
    split at h
    · cases h
    · next agrees => exact ⟨by simpa using agrees, ih h⟩

theorem endsAtLast_of_checkBlock {rs : List Record} (h : checkBlock rs = .ok ()) :
    EndsAtLast rs := by
  unfold checkBlock at h
  split at h
  · cases h
  · dsimp only at h
    split at h
    · cases h
    · obtain ⟨_, _, ends⟩ := bind_eq_ok.mp h
      exact endsAtLast_of_checkEnds ends

theorem EndsAtLast.peepholeFrom {rs : List Record} (h : EndsAtLast rs) (k : Known) :
    EndsAtLast (peepholeFrom k rs) := by
  induction rs generalizing k with
  | nil => trivial
  | cons r rs ih =>
    refine ⟨?_, ih h.2 _⟩
    have ends := h.1
    cases rs with
    | nil => exact ends
    | cons r' rs => exact ends

theorem checkBlock_ne_nil {rs : List Record} (h : checkBlock rs = .ok ()) : rs ≠ [] := by
  rintro rfl
  cases h

end Record

namespace TranslatorSettings

def tracks (s : TranslatorSettings) : Bool :=
  s.optimizations.contains .peephole

theorem recordsOf_spec {s : TranslatorSettings} {notes : AddrTable AddrNote} {start : Addr}
    {rs : List Record} (h : s.recordsOf notes m start = .ok rs) :
    rs ≠ [] ∧ Record.IsBlock m s.options s.tracks {} true start rs ∧ Record.Charged rs ∧
      rs.length ≤ maxRecords ∧ Record.EndsAtLast rs := by
  unfold recordsOf at h
  obtain ⟨found, gathered, h⟩ := bind_eq_ok.mp h
  obtain ⟨charged, totals, h⟩ := bind_eq_ok.mp h
  obtain ⟨_, checked, done⟩ := bind_eq_ok.mp h
  obtain ⟨shape, short⟩ := gather_isBlock gathered
  have totals := Record.chargeRuns_eq_ok totals
  subst totals
  have shape := shape.setTotals
  have charged := Record.charged_setTotals found
  have len : (Record.setTotals found).length ≤ maxRecords := by
    rw [Record.length_setTotals]
    exact short
  have some_record := Record.checkBlock_ne_nil checked
  have ends := Record.endsAtLast_of_checkBlock checked
  cases done
  unfold tracks
  cases s.optimizations.contains .peephole with
  | false => exact ⟨some_record, shape, charged, len, ends⟩
  | true =>
    refine ⟨?_, shape.peepholeFrom {}, charged.peepholeFrom {}, ?_, ends.peepholeFrom {}⟩
    · cases hs : Record.setTotals found with
      | nil => exact absurd hs some_record
      | cons r rs => exact List.cons_ne_nil _ _
    · exact Nat.le_trans (Nat.le_of_eq (Record.length_peepholeFrom {} _)) len

end TranslatorSettings

end Mos6502
