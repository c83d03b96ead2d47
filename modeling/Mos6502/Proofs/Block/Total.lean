import Mos6502.Proofs.Block.Live

/-! A compile never fails. An instruction lowers to a few micro-operations, so every record has room
for a countdown and a jump, its host code fits the smallest window, and a window that runs out has
kept room for the jump onward. Countdowns only get shorter when a block is cut. -/
namespace Mos6502

variable {M : Type} [GuestMemory M] {m : M} {o : LoweringOptions} {k : Record.Known}

namespace Instruction

theorem length_modeUops (o : LoweringOptions) (i : Instruction) : (i.modeUops o).length ≤ 2 := by
  unfold modeUops
  split <;> (try split) <;> simp

theorem length_retireUops (o : LoweringOptions) (i : Instruction) :
    (i.retireUops o).length ≤ 2 := by
  unfold retireUops
  split
  · split <;> (try split) <;> simp
  · simp

/-- Only a break has more than one main micro-operation, and it has no others. -/
theorem length_around (o : LoweringOptions) (i : Instruction) :
    i.beforeUops.length + i.mainUops.length + (i.afterUops o).length ≤ 5 := by
  unfold beforeUops mainUops afterUops
  cases i.operation.mnemonic with
  | lda | ldx | ldy =>
    dsimp only
    split <;> simp
  | rol | ror | jmp =>
    dsimp only
    split <;> simp
  | bcc | bcs | beq | bmi | bne | bpl | bvc | bvs =>
    dsimp only
    split <;> simp
  | _ => simp

end Instruction

namespace Record

def maxLowered : Nat := 10

theorem length_lower (m : M) (o : LoweringOptions) (a : Addr) :
    (lower m o a).uops.length ≤ maxLowered := by
  unfold lower maxLowered
  generalize Instruction.fetch m a = i
  have shown : (i.observeUops o).length ≤ 1 := by
    unfold Instruction.observeUops
    split <;> simp
  have mode := i.length_modeUops o
  have retire := i.length_retireUops o
  have around := i.length_around o
  dsimp only
  rw [List.length_map, List.length_append]
  split
  · rw [List.length_singleton]
    omega
  · simp only [Instruction.bodyUops, List.length_append]
    omega

/-- With a countdown in front and a jump behind there is still room. -/
def Compact (r : Record) : Prop :=
  r.uops.length ≤ maxLowered + 2

theorem Compact.pushFront {r : Record} (compact : r.Compact) (u : Uop) :
    r.pushFront u = .ok { r with uops := ⟨u, 0⟩ :: r.uops } :=
  if_pos (Nat.lt_of_le_of_lt compact (by decide))

theorem Compact.push {r : Record} (compact : r.Compact) (u : Uop) :
    r.push u = .ok { r with uops := r.uops ++ [⟨u, 0⟩] } :=
  if_pos (Nat.lt_of_le_of_lt compact (by decide))

theorem length_uops_setTotal (r : Record) (total : UInt32) :
    (r.setTotal total).uops.length = r.uops.length := by
  unfold setTotal setCountdown
  split
  · next front => simp [front]
  · rfl

theorem compact_setTotals {rs : List Record} (compact : ∀ r ∈ rs, r.Compact) :
    ∀ r ∈ setTotals rs, r.Compact := by
  induction rs with
  | nil => exact compact
  | cons r rs ih =>
    rw [setTotals_cons]
    rw [List.forall_mem_cons] at compact ⊢
    refine ⟨?_, ih compact.2⟩
    unfold withTotal
    split
    · unfold Compact
      rw [length_uops_setTotal]
      exact compact.1
    · exact compact.1

theorem compact_peepholeFrom {rs : List Record} (compact : ∀ r ∈ rs, r.Compact) (k : Known) :
    ∀ r ∈ peepholeFrom k rs, r.Compact := by
  induction rs generalizing k with
  | nil => exact compact
  | cons r rs ih =>
    rw [List.forall_mem_cons] at compact
    rw [peepholeFrom, List.forall_mem_cons]
    refine ⟨?_, ih compact.2 _⟩
    unfold Compact
    rw [show (r.rewrite k).uops.length = r.uops.length from List.length_map _]
    exact compact.1

theorem Compact.length_code {r : Record} (compact : r.Compact) (m : M) :
    (r.code m).length ≤ 84 := by
  have each : ∀ ps : List Placed,
      (ps.flatMap fun p => emit m p.uop).length ≤ maxOpLen * ps.length := by
    intro ps
    induction ps with
    | nil => exact Nat.le_refl 0
    | cons p ps ih =>
      have first : (emit m p.uop).length ≤ maxOpLen := HostOp.code_length_le _
      rw [List.flatMap_cons, List.length_append, List.length_cons, Nat.mul_succ]
      omega
  have bytes := each r.uops
  unfold Compact maxLowered at compact
  unfold maxOpLen at bytes
  unfold code
  omega

end Record

namespace TranslatorSettings

open Record

variable {s : TranslatorSettings} {notes : AddrTable AddrNote}

structure Gathered (rs : List Record) (room : Nat) : Prop where
  some : 0 < room → rs ≠ []
  ends : EndsAtLast rs
  compact : ∀ r ∈ rs, r.Compact

theorem extend_ok {r : Record} {room : Nat} (few : r.uops.length ≤ maxLowered + 1)
    (rest : ∀ a runs, ∃ rs, s.gatherFrom notes m a runs room = .ok rs ∧ Gathered rs room) :
    ∃ rs, s.extend notes m r room = .ok rs ∧ Gathered rs (room + 1) := by
  have compact : r.Compact := Nat.le_succ_of_le few
  unfold extend
  by_cases ends : r.endsBlock = true
  · rw [if_pos ends]
    refine ⟨[r], rfl, fun _ => List.cons_ne_nil _ _, ⟨ends, trivial⟩, ?_⟩
    simpa using compact
  · have runs_on : r.endsBlock = false := by simpa using ends
    rw [if_neg ends]
    split
    · have closed : r.close = .ok { r with
          uops := r.uops ++ [⟨.jump r.addrAfter, 0⟩], endsBlock := true } := by
        unfold Record.close
        rw [compact.push]
        rfl
      rw [closed]
      refine ⟨[_], rfl, fun _ => List.cons_ne_nil _ _, ⟨rfl, trivial⟩, ?_⟩
      intro r' mem
      cases List.mem_singleton.mp mem
      unfold Compact
      rw [List.length_append]
      exact Nat.succ_le_succ few
    · next goes =>
      obtain ⟨rs, found, gathered⟩ := rest r.addrAfter (r.branch == .conditional)
      rw [found]
      have more : rs ≠ [] := by
        refine gathered.some (Nat.pos_of_ne_zero ?_)
        rintro rfl
        simp at goes
      refine ⟨r :: rs, rfl, fun _ => List.cons_ne_nil _ _, ⟨?_, gathered.ends⟩, ?_⟩
      · rw [runs_on]
        cases rs with
        | nil => exact absurd rfl more
        | cons => rfl
      · exact List.forall_mem_cons.mpr ⟨compact, gathered.compact⟩

theorem gatherFrom_ok (s : TranslatorSettings) (notes : AddrTable AddrNote) (m : M) (a : Addr)
    (runs : Bool) (room : Nat) :
    ∃ rs, s.gatherFrom notes m a runs room = .ok rs ∧ Gathered rs room := by
  induction room generalizing a runs with
  | zero => exact ⟨[], rfl, fun none => absurd none (Nat.lt_irrefl 0), trivial, by simp⟩
  | succ room ih =>
    have few := length_lower m s.options a
    rw [gatherFrom]
    cases runs with
    | false => exact extend_ok (Nat.le_succ_of_le few) ih
    | true =>
      have compact : Compact { lower m s.options a with runTotal := some 0 } :=
        Nat.le_add_right_of_le few
      have started := compact.pushFront (.countdown a 0)
      rw [if_pos rfl, Record.startRun]
      change ∃ rs, (Record.pushFront { lower m s.options a with runTotal := some 0 }
        (.countdown a 0) >>= fun r => s.extend notes m r room) = .ok rs ∧ _
      rw [started]
      exact extend_ok (Nat.succ_le_succ few) ih

/-- A block is too short to come around to where it started. -/
theorem gather_ok (s : TranslatorSettings) (notes : AddrTable AddrNote) (m : M) (start : Addr)
    (some_op : 0 < s.maxOps) :
    ∃ rs, s.gather notes m start = .ok rs ∧ Gathered rs (min maxRecords s.maxOps) ∧
      rs ≠ [] := by
  obtain ⟨rs, found, gathered⟩ := s.gatherFrom_ok notes m start true (min maxRecords s.maxOps)
  have more : rs ≠ [] := gathered.some (by
    have many : 0 < maxRecords := by decide
    omega)
  obtain ⟨shape, short⟩ := gatherFrom_isBlock found
  have far : rs.getLast?.any (·.addrAfter == start) = false := by
    obtain ⟨pre, r, rfl⟩ : ∃ pre r, rs = pre ++ [r] :=
      ⟨rs.dropLast, rs.getLast more, (List.dropLast_concat_getLast more).symm⟩
    have last := shape.contiguous.addrAfter_last
    have len := shape.span_le
    -- Records have three bytes at most.
    have room : (pre ++ [r]).length ≤ 256 := Nat.le_trans short (Nat.min_le_left _ _)
    obtain ⟨k, lowered⟩ := shape.lowered_of_mem (r := r) (by simp)
    have here := lowered.len_bounds.1
    have forward : 0 < span (pre ++ [r]) := by
      unfold span
      simp only [List.map_append, List.map_cons, List.sum_append, List.sum_cons]
      omega
    rw [List.getLast?_concat, Option.any_some, beq_eq_false_iff_ne, last]
    intro around
    have back := (add_ofNat_eq_iff start start (by omega)).mp around
    rw [distance_self] at back
    omega
  refine ⟨rs, ?_, gathered, more⟩
  unfold gather
  rw [found]
  change (if rs.getLast?.any (·.addrAfter == start) = true then _ else _) = _
  rw [far]
  rfl

end TranslatorSettings

namespace Record

theorem Lowered.headed {r : Record} (h : Lowered m o k r) (runs : r.startsRun = true) :
    r.Headed := by
  obtain ⟨total, size, rest, ht, uops⟩ := h.uops_head runs
  refine ⟨r.addr, total, size, rest, uops, ?_⟩
  rintro rfl
  have all := h.uops
  have front : r.uopList = r.headUops := by simp [uopList, uops, headUops, ht]
  rw [front, List.append_assoc] at all
  have none := List.self_eq_append_right.mp all
  rw [List.append_eq_nil_iff, List.map_eq_nil_iff] at none
  exact lower_uopList_ne_nil m o r.addr none.1

theorem IsBlock.headed {tracked runs : Bool} {a : Addr} {rs : List Record}
    (h : IsBlock m o tracked k runs a rs) : ∀ r ∈ rs, r.startsRun = true → r.Headed := by
  intro r mem
  obtain ⟨k, lowered⟩ := h.lowered_of_mem mem
  exact lowered.headed

theorem IsBlock.first_starts {tracked : Bool} {a : Addr} {rs : List Record}
    (h : IsBlock m o tracked k true a rs) : ∀ r ∈ rs.head?, r.startsRun = true := by
  cases rs with
  | nil => simp
  | cons r rs => simpa using h.2.2.1

theorem IsBlock.chargeRuns_ok {tracked : Bool} {a : Addr} {rs : List Record}
    (h : IsBlock m o tracked k true a rs) : chargeRuns rs = .ok (Record.setTotals rs) :=
  Record.chargeRuns_ok h.first_starts h.headed

theorem IsBlock.carriesTotal {tracked runs : Bool} {a : Addr} {rs : List Record}
    (h : IsBlock m o tracked k runs a rs) : ∀ r ∈ rs, r.startsRun = true → r.CarriesTotal := by
  intro r mem starts
  obtain ⟨k, lowered⟩ := h.lowered_of_mem mem
  obtain ⟨total, size, rest, runTotal, uops⟩ := lowered.uops_head starts
  exact ⟨r.addr, total, size, rest, runTotal, uops⟩

theorem checkBlock_ok {tracked : Bool} {a : Addr} {rs : List Record} (more : rs ≠ [])
    (shape : IsBlock m o tracked k true a rs) (charged : Charged rs) (ends : EndsAtLast rs) :
    checkBlock rs = .ok () :=
  (checkBlock_iff more shape.first_starts (checkRuns_ok shape.carriesTotal charged)).mpr ends

theorem EndsAtLast.setTotals {rs : List Record} (h : EndsAtLast rs) :
    EndsAtLast (setTotals rs) := by
  induction rs with
  | nil => trivial
  | cons r rs ih =>
    rw [setTotals_cons]
    refine ⟨?_, ih h.2⟩
    rw [(withTotal_fields r _).2.2.2.2.2.2.1, h.1]
    cases rs <;> rfl

end Record

namespace TranslatorSettings

open Record

theorem recordsOf_ok (s : TranslatorSettings) (notes : AddrTable AddrNote) (m : M) (start : Addr)
    (some_op : 0 < s.maxOps) :
    ∃ rs, s.recordsOf notes m start = .ok rs ∧ ∀ r ∈ rs, r.Compact := by
  obtain ⟨rs, found, gathered, more⟩ := s.gather_ok notes m start some_op
  have shape := (gather_isBlock found).1
  have some_total : setTotals rs ≠ [] := by
    intro none
    have len := congrArg List.length none
    rw [length_setTotals] at len
    exact more (List.length_eq_zero_iff.mp len)
  have checked := checkBlock_ok some_total shape.setTotals (charged_setTotals rs)
    gathered.ends.setTotals
  have compact := compact_setTotals gathered.compact
  unfold recordsOf
  rw [found]
  change ∃ rs', (Record.chargeRuns rs >>= _) = .ok rs' ∧ _
  rw [shape.chargeRuns_ok]
  change ∃ rs', (Record.checkBlock (setTotals rs) >>= _) = .ok rs' ∧ _
  rw [checked]
  refine ⟨_, rfl, ?_⟩
  split
  · exact compact_peepholeFrom compact {}
  · exact compact

end TranslatorSettings

/-- A record that runs on has left room for the jump to the one behind it. -/
theorem Emission.ofRecords_ok {rs : List Record} (ends : Record.EndsAtLast rs)
    (compact : ∀ r ∈ rs, r.Compact) (offset room : Nat) (first : Bool)
    (whole : first = true → 84 + jumpSize ≤ room)
    (kept : first = false → rs ≠ [] → jumpSize ≤ room) :
    ∃ e, Emission.ofRecords m offset room first rs = .ok e ∧ e.code.length ≤ room := by
  induction rs generalizing offset room first with
  | nil => exact ⟨_, rfl, Nat.zero_le _⟩
  | cons r rs ih =>
    rw [List.forall_mem_cons] at compact
    have len := compact.1.length_code m
    have fits : ¬ Emission.maxRecordLen < (r.code m).length := by
      unfold Emission.maxRecordLen
      omega
    unfold Emission.ofRecords
    dsimp only
    rw [if_neg fits]
    by_cases enough : (r.code m).length + (if r.endsBlock = true then 0 else jumpSize) ≤ room
    · rw [if_pos enough]
      have kept' : rs ≠ [] → jumpSize ≤ room - (r.code m).length := by
        intro more
        have runs_on : r.endsBlock = false := by
          rw [ends.1]
          simpa using more
        rw [runs_on, if_neg Bool.false_ne_true] at enough
        omega
      obtain ⟨rest, emitted, inside⟩ := ih ends.2 compact.2 (offset + (r.code m).length)
        (room - (r.code m).length) false (absurd · Bool.false_ne_true) fun _ => kept'
      rw [emitted]
      refine ⟨_, rfl, ?_⟩
      dsimp only
      rw [List.length_append]
      omega
    · rw [if_neg enough]
      have most : (if r.endsBlock = true then 0 else jumpSize) ≤ jumpSize := by
        split
        · exact Nat.zero_le _
        · exact Nat.le_refl _
      -- The first record fits, and every later one comes after one that kept room for the jump.
      cases first with
      | true =>
        have whole := whole rfl
        omega
      | false =>
        have left := kept rfl (List.cons_ne_nil _ _)
        have onward : Emission.cut m offset room r
            = .ok { kept := [], code := emit m (.jump r.addr), cutAt := some r.addr } := by
          unfold Emission.cut
          rw [compact.1.pushFront]
          exact if_neg (Nat.not_lt.mpr left)
        rw [if_neg Bool.false_ne_true, onward]
        exact ⟨_, rfl, left⟩

namespace Record

theorem length_countdown_le (m : M) (a : Addr) {c c' : UInt32} (less : c ≤ c') :
    (emit m (.countdown a c)).length ≤ (emit m (.countdown a c')).length := by
  rw [length_emit_countdown, length_emit_countdown]
  by_cases short : c ≤ 0xFF
  · rw [if_pos short]
    split <;> decide
  · have long : ¬ c' ≤ 0xFF := fun le => short (UInt32.le_trans less le)
    simp only [if_neg short, if_neg long, Nat.le_refl]

theorem owed_take_le (r : Record) {rs : List Record} (few : rs.length ≤ 65535) (n : Nat) :
    r.maxCycles.toUInt32 + restOfRun (rs.take n) ≤ r.maxCycles.toUInt32 + restOfRun rs := by
  have cut : (rs.take n).length ≤ 65535 := by
    have := List.length_take_le' n rs
    omega
  have less := restCycles_take_le rs n
  rw [UInt32.le_iff_toNat_le, toNat_owed r cut, toNat_owed r few, toNat_restOfRun (by omega),
    toNat_restOfRun (by omega)]
  omega

def HeadsFit (m : M) : List Record → Prop
  | [] => True
  | r :: rs =>
    (r.startsRun = true → ∀ p ∈ r.uops.head?,
      (emit m (.countdown r.addr (r.maxCycles.toUInt32 + restOfRun rs))).length ≤ p.hostSize) ∧
      HeadsFit m rs

theorem headsFit_take {tracked runs : Bool} {a : Addr} {rs : List Record}
    (shape : IsBlock m o tracked k runs a rs) (charged : Charged rs) (few : rs.length ≤ 65535)
    (offset n : Nat) : HeadsFit m (placeFrom m offset (rs.take n)) := by
  induction rs generalizing k runs a offset n with
  | nil =>
    rw [List.take_nil]
    trivial
  | cons r rs ih =>
    obtain ⟨_, lowered, _, _, shape⟩ := shape
    rw [List.length_cons] at few
    cases n with
    | zero => trivial
    | succ n =>
      refine ⟨?_, ih shape charged.2 (by omega) _ n⟩
      intro starts p front
      obtain ⟨total, size, rest, same, uops⟩ := lowered.uops_head starts
      rw [charged.1 starts] at same
      cases same
      simp only [Record.placeAt, uops, List.map_cons, List.head?_cons, Option.mem_some_iff] at front
      subst front
      rw [restOfRun_placeFrom]
      exact length_countdown_le m r.addr (owed_take_le r (by omega) n)

end Record

open Record

namespace Arena

theorem fillWindow_ok {a : Arena} {size : Nat} {code : List UInt8} (room : size ≤ a.space)
    (fits : code.length ≤ size) : ∃ b, a.fillWindow size code = .ok b := by
  unfold fillWindow
  rw [if_neg (Nat.not_lt.mpr room), if_neg (Nat.not_lt.mpr fits)]
  exact ⟨_, rfl⟩

theorem replace_ok {a : Arena} {offset len : Nat} {code : List UInt8}
    (inside : offset + len ≤ a.capacity) (fits : code.length ≤ len) :
    ∃ b, a.replace offset len code = .ok b := by
  unfold replace
  rw [if_neg (Nat.not_lt.mpr inside), if_neg (Nat.not_lt.mpr fits)]
  exact ⟨_, rfl⟩

theorem advance_ok {a : Arena} {used : Nat} (room : used ≤ a.space) :
    ∃ b, a.advance used = .ok b :=
  ⟨_, if_pos room⟩

theorem recharge_ok {a : Arena} {tracked runs : Bool} {start : Addr} {offset : Nat}
    {rs : List Record} (shape : IsBlock m o tracked k runs start rs) (placed : PlacedAt m offset rs)
    (room : offset + (rs.map hostSize).sum ≤ a.capacity) (fit : HeadsFit m rs) :
    ∃ b, a.recharge m (setTotals rs) = .ok b ∧ b.capacity = a.capacity ∧ b.cursor = a.cursor := by
  induction rs generalizing a k runs start offset with
  | nil => exact ⟨a, rfl, rfl, rfl⟩
  | cons r rs ih =>
    obtain ⟨_, lowered, _, _, shape⟩ := shape
    obtain ⟨at_offset, _, placed⟩ := placed
    rw [List.map_cons, List.sum_cons] at room
    rw [setTotals_cons, Arena.recharge]
    by_cases starts : r.startsRun = true
    · obtain ⟨total, size, rest, _, uops⟩ := lowered.uops_head starts
      have here := fit.1 starts ⟨_, size⟩ (by rw [uops]; rfl)
      have shape_r : r.withTotal (restOfRun rs)
          = { r with
              uops := ⟨.countdown r.addr (r.maxCycles.toUInt32 + restOfRun rs), size⟩ :: rest
              runTotal := some (r.maxCycles.toUInt32 + restOfRun rs) } := by
        rw [withTotal, if_pos starts]
        simp only [setTotal, setCountdown, uops]
      have inside : offset + size ≤ a.capacity := by
        have sizes : r.hostSize = size + (rest.map (·.hostSize)).sum := by
          simp [hostSize_eq_sum, uops]
        omega
      obtain ⟨b, patched⟩ := replace_ok inside here
      obtain ⟨_, capacity, cursor, _⟩ := replace_spec patched
      obtain ⟨c, more, capacity', cursor'⟩ := ih shape placed (a := b) (by omega) fit.2
      simp only [shape_r, at_offset, countdown?, startsRun, Option.isSome_some, if_true,
        List.head?_cons, Uop.isCountdown, Option.filter_some]
      rw [patched]
      exact ⟨c, more, capacity'.trans capacity, cursor'.trans cursor⟩
    · have same : r.withTotal (restOfRun rs) = r := if_neg starts
      have quiet : r.countdown? = none := if_neg starts
      rw [same, at_offset, quiet]
      exact ih shape placed (by omega) fit.2

theorem recharge_take_ok {a : Arena} {tracked runs : Bool} {start : Addr} {rs : List Record}
    (shape : IsBlock m o tracked k runs start rs) (charged : Charged rs) (few : rs.length ≤ 65535)
    {offset n : Nat} (room : offset + ((rs.take n).flatMap (Record.code m)).length ≤ a.capacity) :
    ∃ b, a.recharge m (setTotals (placeFrom m offset (rs.take n))) = .ok b ∧
      b.capacity = a.capacity ∧ b.cursor = a.cursor := by
  have placed := placedAt_placeFrom m offset (rs.take n)
  have sizes : ((placeFrom m offset (rs.take n)).map hostSize).sum
      = ((rs.take n).flatMap (Record.code m)).length := by
    rw [← length_codeAll placed, codeAll_placeFrom]
  exact recharge_ok ((shape.take n).placeFrom offset) placed (sizes ▸ room)
    (headsFit_take shape charged few offset n)

end Arena

/-- Everything that was gathered finds its place in a window of the smallest size or more. -/
theorem TranslatorSettings.layOut_ok {s : TranslatorSettings} (notes : AddrTable AddrNote)
    {a : Arena} (start : Addr) (some_op : 0 < s.maxOps)
    (wide : Config.minWindowSize ≤ min a.space s.windowSize) :
    ∃ out, s.layOut notes a m start = .ok out := by
  obtain ⟨rs, found, compact⟩ := s.recordsOf_ok notes m start some_op
  obtain ⟨some_record, shape, charged, short, ends⟩ := recordsOf_spec found
  have room : 84 + jumpSize ≤ min a.space s.windowSize := Nat.le_trans (by decide) wide
  obtain ⟨e, emitted, inside⟩ := Emission.ofRecords_ok (m := m) ends compact a.cursor _ true
    (fun _ => room) (absurd ·.symm Bool.false_ne_true)
  have space : e.code.length ≤ a.space := Nat.le_trans inside (Nat.min_le_left _ _)
  obtain ⟨b, filled⟩ := Arena.fillWindow_ok (Nat.min_le_left _ _) inside
  obtain ⟨_, _, capacity, cursor, _⟩ := Arena.fillWindow_spec filled
  obtain ⟨n, kept, _, ending⟩ := Emission.ofRecords_spec emitted
  unfold layOut
  rw [found]
  change ∃ out, (Emission.ofRecords m a.cursor (min a.space s.windowSize) true rs >>= _) = .ok out
  rw [emitted]
  change ∃ out, (a.fillWindow (min a.space s.windowSize) e.code >>= _) = .ok out
  rw [filled]
  rcases ending with ⟨uncut, _⟩ | ⟨next, _, cut, code⟩
  · have left : e.code.length ≤ b.space := by
      unfold Arena.space
      rw [capacity, cursor]
      exact space
    obtain ⟨c, advanced⟩ := Arena.advance_ok left
    simp only [uncut]
    change ∃ out, (b.advance e.code.length >>= _) = .ok out
    rw [advanced]
    exact ⟨_, rfl⟩
  · have few : rs.length ≤ 65535 := Nat.le_trans short (by decide)
    have bytes : ((rs.take n).flatMap (Record.code m)).length ≤ e.code.length := by
      rw [code, List.length_append]
      exact Nat.le_add_right _ _
    have within : a.cursor + ((rs.take n).flatMap (Record.code m)).length ≤ b.capacity := by
      unfold Arena.space at wide space
      unfold Config.minWindowSize at wide
      omega
    obtain ⟨c, patched, capacity', cursor'⟩ := Arena.recharge_take_ok shape charged few within
    have totals := ((shape.take n).placeFrom a.cursor).chargeRuns_ok
    rw [← kept] at patched totals
    have left : e.code.length ≤ c.space := by
      unfold Arena.space
      rw [capacity', cursor', capacity, cursor]
      exact space
    obtain ⟨d, advanced⟩ := Arena.advance_ok left
    simp only [cut]
    exact ⟨_, bind_eq_ok.mpr ⟨_, rfl, bind_eq_ok.mpr ⟨_, totals,
      bind_eq_ok.mpr ⟨c, patched, bind_eq_ok.mpr ⟨_, rfl, bind_eq_ok.mpr ⟨d, advanced, rfl⟩⟩⟩⟩⟩⟩

theorem Noting.foldlM_ok (start : Addr) {offset : Nat} {rs : List Record}
    (placed : PlacedAt m offset rs) (c : Noting) :
    ∃ d, rs.foldlM (Noting.record start) c = .ok d := by
  induction rs generalizing offset c with
  | nil => exact ⟨c, rfl⟩
  | cons r rs ih =>
    obtain ⟨at_offset, _, placed⟩ := placed
    rw [List.foldlM_cons]
    unfold Noting.record
    dsimp only
    rw [at_offset]
    exact ih placed _

theorem CodeTables.noteBlock_ok {s : TranslatorSettings} {start : Addr} {offset : Nat}
    {rs : List Record} (block : Block m s start offset rs)
    (below : offset < BlockMap.reservedOffset)
    (t : CodeTables) : ∃ out, t.noteBlock start rs = .ok out := by
  obtain ⟨d, noted⟩ := Noting.foldlM_ok start block.placed ⟨t, 0⟩
  unfold noteBlock
  rw [noted]
  simp only [block.head_offset]
  have given : d.tables.blocks.giveEntry start offset
      = .ok { d.tables.blocks with entries := d.tables.blocks.entries.set start (some offset) } :=
    if_neg (Nat.ne_of_lt below)
  exact ⟨_, bind_eq_ok.mpr ⟨_, rfl, bind_eq_ok.mpr ⟨_, given, rfl⟩⟩⟩

namespace Translator

structure Sized (t : Translator) : Prop where
  window : Config.minWindowSize ≤ t.settings.windowSize
  inside : t.settings.windowSize ≤ t.arena.capacity
  offsets : t.arena.capacity ≤ Config.maxHostOffset
  some_op : 0 < t.settings.maxOps

variable {t t' : Translator} {b : BlockMap}

theorem Sized.of_same (h : t.Sized) (settings : t'.settings = t.settings)
    (capacity : t'.arena.capacity = t.arena.capacity) : t'.Sized where
  window := settings ▸ h.window
  inside := by
    rw [settings, capacity]
    exact h.inside
  offsets := capacity ▸ h.offsets
  some_op := settings ▸ h.some_op

theorem sized_ofConfig {c : Config} (valid : c.validate = .ok ()) (deviceFrom : Addr) :
    (ofConfig c deviceFrom).Sized := by
  obtain ⟨window, inside, offsets⟩ := c.validate_eq_ok_iff.mp valid
  exact ⟨window, inside, offsets, Nat.le_max_right _ _⟩

theorem Sized.makeRoom (h : t.Sized) (b : BlockMap) :
    Config.minWindowSize
      ≤ min (t.makeRoom b).1.arena.space (t.makeRoom b).1.settings.windowSize := by
  have window := h.window
  have inside := h.inside
  unfold Translator.makeRoom
  split
  · have capacity : t.flush.1.arena.capacity = t.arena.capacity :=
      (t.arena.trap_fields 0 t.arena.cursor).1
    have space : t.flush.1.arena.space = t.flush.1.arena.capacity := rfl
    rw [space, capacity]
    exact Nat.le_min.mpr ⟨Nat.le_trans window inside, window⟩
  · next enough => exact Nat.le_of_not_lt enough

theorem Sized.compile_ok (h : t.Sized) (b : BlockMap) (m : M) (start : Addr) :
    ∃ out, t.compile b m start = .ok out := by
  have wide := h.makeRoom b
  obtain ⟨settings, capacity, _⟩ := makeRoom_spec t b
  have sized := h.of_same settings capacity
  unfold compile
  generalize t.makeRoom b = made at wide sized
  obtain ⟨⟨settings, notes, counts, arena⟩, blocks⟩ := made
  dsimp only at wide sized ⊢
  have offsets : arena.capacity ≤ BlockMap.reservedOffset := sized.offsets
  have room : Config.minWindowSize ≤ arena.capacity - arena.cursor :=
    Nat.le_trans wide (Nat.min_le_left _ _)
  have below : arena.cursor < arena.capacity := by
    unfold Config.minWindowSize at room
    omega
  obtain ⟨⟨emission, arena'⟩, laid⟩ := TranslatorSettings.layOut_ok (m := m)
    (notes.update start AddrNote.markStart) start sized.some_op wide
  obtain ⟨block, _⟩ := TranslatorSettings.layOut_spec laid (Nat.le_of_lt below)
  have noted := CodeTables.noteBlock_ok block (Nat.lt_of_lt_of_le below offsets)
  exact (noted _).elim fun _ noted =>
    ⟨_, bind_eq_ok.mpr ⟨_, laid, bind_eq_ok.mpr ⟨_, noted, rfl⟩⟩⟩

end Translator

end Mos6502
