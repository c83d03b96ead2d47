import Mathlib.Algebra.GroupWithZero.Nat
import Mos6502.Proofs.Block.Charging
import Mos6502.Proofs.HostCode.Contents

/-! Where the host code of a block stands. The records that fit lie one behind the other from the
cursor on; a countdown that got shorter is followed by padding, and a block that was cut ends with
a jump to the address it was cut at. -/
namespace Mos6502

variable {M : Type} [GuestMemory M] {m : M} {o : LoweringOptions} {k : Record.Known}

def HostOp.codeAll (ops : List HostOp) : List UInt8 :=
  ops.flatMap HostOp.code

@[simp] theorem HostOp.codeAll_nil : codeAll [] = [] := rfl

@[simp] theorem HostOp.codeAll_cons (op : HostOp) (ops : List HostOp) :
    codeAll (op :: ops) = op.code ++ codeAll ops := rfl

@[simp] theorem HostOp.codeAll_append (xs ys : List HostOp) :
    codeAll (xs ++ ys) = codeAll xs ++ codeAll ys := by
  simp [codeAll]

theorem HostOp.codeAll_replicate_nop (n : Nat) :
    codeAll (List.replicate n .nop) = List.replicate n padByte := by
  induction n with
  | zero => rfl
  | succ n ih => rw [List.replicate_succ, codeAll_cons, ih]; rfl

/-- A micro-operation in its place: its host instruction, then padding. -/
def Placed.ops (m : M) (p : Placed) : List HostOp :=
  HostOp.ofUop m p.uop :: List.replicate (p.hostSize - (emit m p.uop).length) .nop

theorem Placed.codeAll_ops (m : M) (p : Placed) :
    HostOp.codeAll (p.ops m)
      = emit m p.uop ++ List.replicate (p.hostSize - (emit m p.uop).length) padByte := by
  rw [Placed.ops, HostOp.codeAll_cons, HostOp.codeAll_replicate_nop]
  rfl

theorem Placed.length_ops {p : Placed} (fits : (emit m p.uop).length ≤ p.hostSize) :
    (HostOp.codeAll (p.ops m)).length = p.hostSize := by
  rw [Placed.codeAll_ops, List.length_append, List.length_replicate]
  omega

namespace Record

def ops (m : M) (r : Record) : List HostOp :=
  r.uops.flatMap (·.ops m)

def onwardOps (r : Record) (rs : List Record) : List HostOp :=
  if rs.isEmpty && !r.endsBlock then [.uop (.jump r.addrAfter)] else []

def blockOps (m : M) : List Record → List HostOp
  | [] => []
  | r :: rs => r.ops m ++ (onwardOps r rs ++ blockOps m rs)

theorem hostSize_eq_sum (r : Record) : r.hostSize = (r.uops.map (·.hostSize)).sum := rfl

theorem length_ops {r : Record}
    (fits : ∀ p ∈ r.uops, (emit m p.uop).length ≤ p.hostSize) :
    (HostOp.codeAll (r.ops m)).length = r.hostSize := by
  unfold ops
  rw [hostSize_eq_sum]
  generalize r.uops = ps at fits
  induction ps with
  | nil => rfl
  | cons p ps ih =>
    rw [List.flatMap_cons, HostOp.codeAll_append, List.length_append,
      Placed.length_ops (fits p (by simp)), ih fun q hq => fits q (by simp [hq]), List.map_cons,
      List.sum_cons]

theorem codeAll_ops_placeAt (m : M) (offset : Nat) (r : Record) :
    HostOp.codeAll ((r.placeAt m offset).ops m) = r.code m := by
  simp only [ops, Record.placeAt, code, List.flatMap_map]
  induction r.uops with
  | nil => rfl
  | cons p ps ih =>
    rw [List.flatMap_cons, List.flatMap_cons, HostOp.codeAll_append, ih, Placed.codeAll_ops]
    simp

theorem hostSize_placeAt (m : M) (offset : Nat) (r : Record) :
    (r.placeAt m offset).hostSize = (r.code m).length := by
  simp only [hostSize_eq_sum, Record.placeAt, code, List.map_map, List.length_flatMap]
  rfl

def placeFrom (m : M) : Nat → List Record → List Record
  | _, [] => []
  | offset, r :: rs => r.placeAt m offset :: placeFrom m (offset + (r.code m).length) rs

theorem placedAt_placeFrom (m : M) (offset : Nat) (rs : List Record) :
    PlacedAt m offset (placeFrom m offset rs) := by
  induction rs generalizing offset with
  | nil => trivial
  | cons r rs ih =>
    refine ⟨rfl, ?_, ?_⟩
    · intro p hp
      obtain ⟨q, _, rfl⟩ := List.mem_map.mp hp
      exact Nat.le_refl _
    · rw [hostSize_placeAt]
      exact ih _

theorem IsBlock.placeFrom {tracked runs : Bool} {a : Addr} {rs : List Record}
    (h : IsBlock m o tracked k runs a rs) (offset : Nat) :
    IsBlock m o tracked k runs a (placeFrom m offset rs) := by
  induction rs generalizing k runs a offset with
  | nil => trivial
  | cons r rs ih =>
    obtain ⟨addr, lowered, starts, ends, rest⟩ := h
    refine ⟨addr, lowered.placeAt m offset, starts, ?_, ih rest _⟩
    intro he
    rw [ends he]
    rfl

theorem restOfRun_placeFrom (m : M) (offset : Nat) (rs : List Record) :
    restOfRun (placeFrom m offset rs) = restOfRun rs := by
  induction rs generalizing offset with
  | nil => rfl
  | cons r rs ih =>
    change (if r.startsRun then 0 else r.maxCycles.toUInt32 + restOfRun (placeFrom m _ rs)) = _
    rw [ih]
    rfl

theorem Charged.placeFrom {rs : List Record} (h : Charged rs) (m : M) (offset : Nat) :
    Charged (placeFrom m offset rs) := by
  induction rs generalizing offset with
  | nil => trivial
  | cons r rs ih =>
    refine ⟨?_, ih h.2 _⟩
    intro runs
    have total := h.1 runs
    rw [restOfRun_placeFrom]
    exact total

@[simp] theorem length_placeFrom (m : M) (offset : Nat) (rs : List Record) :
    (placeFrom m offset rs).length = rs.length := by
  induction rs generalizing offset with
  | nil => rfl
  | cons r rs ih => rw [placeFrom, List.length_cons, List.length_cons, ih]

theorem codeAll_placeFrom (m : M) (offset : Nat) (rs : List Record) :
    HostOp.codeAll ((placeFrom m offset rs).flatMap (ops m)) = rs.flatMap (code m) := by
  induction rs generalizing offset with
  | nil => rfl
  | cons r rs ih =>
    rw [placeFrom, List.flatMap_cons, List.flatMap_cons, HostOp.codeAll_append, ih,
      codeAll_ops_placeAt]

def onward : List Record → List HostOp
  | [] => []
  | r :: rs => onwardOps r rs ++ onward rs

theorem blockOps_eq (m : M) (rs : List Record) :
    blockOps m rs = rs.flatMap (ops m) ++ onward rs := by
  induction rs with
  | nil => rfl
  | cons r rs ih =>
    rw [blockOps, ih, onward, List.flatMap_cons]
    cases rs with
    | nil => simp [onward]
    | cons r' rs => simp [onwardOps]

theorem EndsAtLast.onward {rs : List Record} (h : EndsAtLast rs) : onward rs = [] := by
  induction rs with
  | nil => rfl
  | cons r rs ih =>
    rw [Record.onward, ih h.2, onwardOps, h.1]
    cases rs.isEmpty <;> rfl

theorem onward_of_cut {tracked runs : Bool} {a : Addr} {kept : List Record} {next : Record}
    {more : List Record} (h : IsBlock m o tracked k runs a (kept ++ next :: more))
    (some_kept : kept ≠ []) : onward kept = [.uop (.jump next.addr)] := by
  induction kept generalizing k runs a with
  | nil => exact absurd rfl some_kept
  | cons r rs ih =>
    obtain ⟨_, _, _, ends, rest⟩ := h
    have runs_on : r.endsBlock = false := by
      cases he : r.endsBlock with
      | false => rfl
      | true => exact absurd (ends he) (by simp)
    cases rs with
    | nil =>
      have there : r.addrAfter = next.addr := rest.1.symm
      simp [onward, onwardOps, runs_on, there]
    | cons r' rs =>
      rw [onward, ih rest (List.cons_ne_nil _ _)]
      rfl

theorem onward_concat (rs : List Record) (r : Record) : onward (rs ++ [r]) = onwardOps r [] := by
  induction rs with
  | nil => exact List.append_nil _
  | cons p rs ih =>
    rw [List.cons_append, onward, ih, onwardOps]
    simp

theorem addrAfter_of_onward {rs : List Record} {r : Record} {a : Addr}
    (last : rs.getLast? = some r) (onwards : onward rs = [.uop (.jump a)]) : r.addrAfter = a := by
  obtain ⟨pre, rfl⟩ := List.getLast?_eq_some_iff.mp last
  rw [onward_concat, onwardOps] at onwards
  split at onwards
  · simpa using onwards
  · cases onwards

theorem onward_setTotals (rs : List Record) : onward (setTotals rs) = onward rs := by
  induction rs with
  | nil => rfl
  | cons r rs ih =>
    obtain ⟨f₁, _, _, f₄, _, _, f₇, _, _⟩ := withTotal_fields r (restOfRun rs)
    have empty : (setTotals rs).isEmpty = rs.isEmpty := by
      cases rs <;> rfl
    rw [setTotals_cons, onward, onward, ih]
    simp only [onwardOps, empty, f₇, addrAfter, f₁, f₄]

theorem onward_placeFrom (m : M) (offset : Nat) (rs : List Record) :
    onward (placeFrom m offset rs) = onward rs := by
  induction rs generalizing offset with
  | nil => rfl
  | cons r rs ih =>
    have empty : (placeFrom m (offset + (r.code m).length) rs).isEmpty = rs.isEmpty := by
      cases rs <;> rfl
    rw [placeFrom, onward, onward, ih]
    simp only [onwardOps, empty]
    rfl

theorem length_codeAll {offset : Nat} {rs : List Record} (placed : PlacedAt m offset rs) :
    (HostOp.codeAll (rs.flatMap (ops m))).length = (rs.map hostSize).sum := by
  induction rs generalizing offset with
  | nil => rfl
  | cons r rs ih =>
    obtain ⟨_, fits, rest⟩ := placed
    rw [List.flatMap_cons, HostOp.codeAll_append, List.length_append, length_ops fits, ih rest,
      List.map_cons, List.sum_cons]

theorem hostSize_withTotal (r : Record) (rest : UInt32) :
    (r.withTotal rest).hostSize = r.hostSize := by
  unfold withTotal setTotal setCountdown
  split
  · split
    · next uops => simp [hostSize_eq_sum, uops]
    · rfl
  · rfl

theorem hostSizes_setTotals (rs : List Record) :
    ((setTotals rs).map hostSize).sum = (rs.map hostSize).sum := by
  induction rs with
  | nil => rfl
  | cons r rs ih =>
    rw [setTotals_cons, List.map_cons, List.map_cons, List.sum_cons, List.sum_cons, ih,
      hostSize_withTotal]

theorem length_emit_countdown (m : M) (addr : Addr) (cycles : UInt32) :
    (emit m (.countdown addr cycles)).length = if cycles ≤ 0xFF then 4 else 7 := by
  change (if cycles ≤ 0xFF then 0x01 :: wordCode addr ++ [cycles.toUInt8]
    else 0x02 :: wordCode addr ++ longCode cycles).length = _
  split <;> rfl

/-- Most padding behind a micro-operation: what a countdown gets shorter by. -/
def maxPadding : Nat := 3

def Snug (m : M) (rs : List Record) : Prop :=
  ∀ r ∈ rs, ∀ p ∈ r.uops, p.hostSize ≤ (emit m p.uop).length + maxPadding

theorem hostSize_of_mem_placeFrom {offset : Nat} {rs : List Record} {r : Record}
    (mem : r ∈ placeFrom m offset rs) {p : Placed} (among : p ∈ r.uops) :
    p.hostSize = (emit m p.uop).length := by
  induction rs generalizing offset with
  | nil => cases mem
  | cons first rs ih =>
    rcases List.mem_cons.mp mem with rfl | mem
    · obtain ⟨q, _, rfl⟩ := List.mem_map.mp among
      rfl
    · exact ih mem

theorem snug_placeFrom (m : M) (offset : Nat) (rs : List Record) :
    Snug m (placeFrom m offset rs) := by
  intro r mem p among
  rw [hostSize_of_mem_placeFrom mem among]
  exact Nat.le_add_right _ _

/-- Only a countdown is ever replaced, and by another one. -/
theorem snug_setTotals {rs : List Record}
    (exact_fit : ∀ r ∈ rs, ∀ p ∈ r.uops, p.hostSize = (emit m p.uop).length) :
    Snug m (setTotals rs) := by
  induction rs with
  | nil => exact fun _ none => nomatch none
  | cons r rs ih =>
    rw [List.forall_mem_cons] at exact_fit
    obtain ⟨here, rest⟩ := exact_fit
    have kept : ∀ p ∈ r.uops, p.hostSize ≤ (emit m p.uop).length + maxPadding := by
      intro p among
      rw [here p among]
      exact Nat.le_add_right _ _
    rw [setTotals_cons, Snug, List.forall_mem_cons]
    refine ⟨?_, ih rest⟩
    unfold withTotal setTotal setCountdown
    split
    · split
      · next addr cycles size behind uops =>
        have old := here ⟨.countdown addr cycles, size⟩ (by simp [uops])
        dsimp only at old ⊢
        rw [List.forall_mem_cons]
        refine ⟨?_, fun p among => kept p (by simp [uops, among])⟩
        dsimp only
        rw [old, length_emit_countdown, length_emit_countdown]
        unfold maxPadding
        split <;> split <;> decide
      · exact kept
    · exact kept

/-- A block in its place: what a compile puts at a host offset. -/
structure Block (m : M) (s : TranslatorSettings) (start : Addr) (offset : Nat)
    (rs : List Record) : Prop where
  nonempty : rs ≠ []
  shape : IsBlock m s.options s.tracks {} true start rs
  charged : Charged rs
  placed : PlacedAt m offset rs
  short : rs.length ≤ TranslatorSettings.maxRecords
  snug : Snug m rs

end Record

open Record

theorem Emission.ofRecords_spec {offset room : Nat} {first : Bool} {rs : List Record}
    {e : Emission} (h : Emission.ofRecords m offset room first rs = .ok e) :
    ∃ n, e.kept = placeFrom m offset (rs.take n) ∧ (first = true → rs ≠ [] → 0 < n) ∧
      ((e.cutAt = none ∧ rs.length ≤ n ∧ e.code = (rs.take n).flatMap (Record.code m)) ∨
        ∃ r, rs[n]? = some r ∧ e.cutAt = some r.addr ∧
          e.code = (rs.take n).flatMap (Record.code m) ++ emit m (.jump r.addr)) := by
  induction rs generalizing offset room first e with
  | nil =>
    cases h
    exact ⟨0, rfl, fun _ contra => absurd rfl contra, .inl ⟨rfl, Nat.le_refl 0, rfl⟩⟩
  | cons r rs ih =>
    unfold Emission.ofRecords at h
    dsimp only at h
    generalize (if r.endsBlock = true then 0 else jumpSize) = room_behind at h
    split at h
    · cases h
    · split at h
      · obtain ⟨rest, tail, done⟩ := bind_eq_ok.mp h
        cases done
        obtain ⟨n, kept, _, ending⟩ := ih tail
        refine ⟨n + 1, ?_, fun _ _ => Nat.succ_pos n, ?_⟩
        · simp only [List.take_succ_cons, placeFrom, kept]
        · simp only [List.take_succ_cons, List.flatMap_cons, List.length_cons,
            List.getElem?_cons_succ]
          rcases ending with ⟨uncut, all, code⟩ | ⟨next, at_n, cut, code⟩
          · exact .inl ⟨uncut, Nat.succ_le_succ all, by rw [code]⟩
          · exact .inr ⟨next, at_n, cut, by rw [code, List.append_assoc]⟩
      · split at h
        · cases h
        · next later =>
          unfold Emission.cut at h
          obtain ⟨_, _, h⟩ := bind_eq_ok.mp h
          dsimp only at h
          split at h
          · cases h
          · cases h
            exact ⟨0, rfl, fun contra => absurd contra later, .inr ⟨r, rfl, rfl, rfl⟩⟩

theorem Arena.recharge_head {a b : Arena} {r : Record} {rs : List Record} {offset : Nat} {more : UInt32}
    (lowered : Lowered m o k r) (at_offset : r.hostOffset = some offset)
    (fits : ∀ p ∈ r.uops, (emit m p.uop).length ≤ p.hostSize)
    (old : a.Holds offset (HostOp.codeAll (r.ops m)))
    (h : a.recharge m (r.withTotal more :: rs) = .ok b) :
    ∃ c : Arena, c.recharge m rs = .ok b ∧ c.capacity = a.capacity ∧
      c.cursor = a.cursor ∧ c.generation = a.generation ∧
      (∀ j, j < offset ∨ offset + r.hostSize ≤ j → c.byte? j = a.byte? j) ∧
      (∀ p ∈ (r.withTotal more).uops, (emit m p.uop).length ≤ p.hostSize) ∧
      (r.withTotal more).hostSize = r.hostSize ∧
      c.Holds offset (HostOp.codeAll ((r.withTotal more).ops m)) := by
  rw [Arena.recharge] at h
  by_cases runs : r.startsRun = true
  · obtain ⟨total, size, rest, _, uops⟩ := lowered.uops_head runs
    have shape_r : r.withTotal more
        = { r with
            uops := ⟨.countdown r.addr (r.maxCycles.toUInt32 + more), size⟩ :: rest
            runTotal := some (r.maxCycles.toUInt32 + more) } := by
      rw [withTotal, if_pos runs]
      simp only [setTotal, setCountdown, uops]
    rw [shape_r] at h ⊢
    simp only [at_offset, countdown?, startsRun, Option.isSome_some, if_true, List.head?_cons,
      Uop.isCountdown, Option.filter_some] at h
    obtain ⟨c, patched, others⟩ := bind_eq_ok.mp h
    obtain ⟨small, cap, cur, gen, frame, holds⟩ := replace_spec patched
    have sizes : r.hostSize = size + (rest.map (·.hostSize)).sum := by
      simp [hostSize_eq_sum, uops]
    refine ⟨c, others, cap, cur, gen, ?_, ?_, ?_, ?_⟩
    · intro j hj
      exact frame j (by omega)
    · intro p hp
      rcases List.mem_cons.mp hp with rfl | hp
      · exact small
      · exact fits p (by simp [uops, hp])
    · rw [sizes]
      simp [hostSize_eq_sum]
    · simp only [ops, List.flatMap_cons, HostOp.codeAll_append] at old ⊢
      rw [uops, List.flatMap_cons, HostOp.codeAll_append, holds_append,
        Placed.length_ops (fits _ (by simp [uops]))] at old
      refine holds_append.mpr ⟨?_, ?_⟩
      · rw [Placed.codeAll_ops]
        exact holds
      · rw [Placed.length_ops small]
        exact old.2.of_same fun j low _ => frame j (.inr low)
  · have same : r.withTotal more = r := if_neg runs
    have quiet : r.countdown? = none := if_neg runs
    rw [same] at h ⊢
    simp only [at_offset, quiet] at h
    exact ⟨a, h, rfl, rfl, rfl, fun _ _ => rfl, fits, rfl, old⟩

/-- Patching the countdowns of a block in place. -/
theorem Arena.recharge_spec {a b : Arena} {tracked runs : Bool} {start : Addr} {offset : Nat}
    {rs : List Record} {behind : List UInt8} (shape : IsBlock m o tracked k runs start rs)
    (placed : PlacedAt m offset rs)
    (old : a.Holds offset (HostOp.codeAll (rs.flatMap (ops m)) ++ behind))
    (h : a.recharge m (setTotals rs) = .ok b) :
    b.capacity = a.capacity ∧ b.cursor = a.cursor ∧ b.generation = a.generation ∧
      (∀ j < offset, b.byte? j = a.byte? j) ∧ PlacedAt m offset (setTotals rs) ∧
      b.Holds offset (HostOp.codeAll ((setTotals rs).flatMap (ops m)) ++ behind) := by
  induction rs generalizing a k runs start offset with
  | nil =>
    cases h
    exact ⟨rfl, rfl, rfl, fun _ _ => rfl, trivial, old⟩
  | cons r rs ih =>
    obtain ⟨_, lowered, _, _, shape⟩ := shape
    obtain ⟨at_offset, fits, placed⟩ := placed
    rw [List.flatMap_cons, HostOp.codeAll_append, List.append_assoc, holds_append,
      length_ops fits] at old
    obtain ⟨old_head, old_rest⟩ := old
    rw [setTotals_cons] at h ⊢
    obtain ⟨c, more, cap, cur, gen, frame, fits', size', new_head⟩ :=
      recharge_head lowered at_offset fits old_head h
    obtain ⟨_, _, _, _, _, _, _, f₈, _⟩ := withTotal_fields r (restOfRun rs)
    have rest := ih shape placed
      (old_rest.of_same fun j low _ => frame j (.inr low)) more
    obtain ⟨cap', cur', gen', frame', placed', holds'⟩ := rest
    refine ⟨cap'.trans cap, cur'.trans cur, gen'.trans gen, ?_, ⟨f₈.trans at_offset, fits', ?_⟩, ?_⟩
    · intro j hj
      rw [frame' j (by omega), frame j (.inl hj)]
    · rw [size']
      exact placed'
    · rw [List.flatMap_cons, HostOp.codeAll_append, List.append_assoc, holds_append,
        length_ops fits', size']
      refine ⟨new_head.of_same ?_, holds'⟩
      intro j _ below
      rw [length_ops fits', size'] at below
      exact frame' j below

theorem Record.codeAll_setTotals {offset : Nat} {rs : List Record} (placed : PlacedAt m offset rs)
    (charged : PlacedAt m offset (setTotals rs)) :
    HostOp.codeAll (blockOps m (setTotals rs))
        = HostOp.codeAll ((setTotals rs).flatMap (ops m)) ++ HostOp.codeAll (onward rs) ∧
      (HostOp.codeAll (blockOps m (setTotals rs))).length
        = (HostOp.codeAll (rs.flatMap (ops m)) ++ HostOp.codeAll (onward rs)).length := by
  have parts : HostOp.codeAll (blockOps m (setTotals rs))
      = HostOp.codeAll ((setTotals rs).flatMap (ops m)) ++ HostOp.codeAll (onward rs) := by
    rw [blockOps_eq, onward_setTotals, HostOp.codeAll_append]
  refine ⟨parts, ?_⟩
  rw [parts, List.length_append, length_codeAll charged, hostSizes_setTotals, List.length_append,
    length_codeAll placed]

/-- What is laid out: the first `n` of the records that were found. A block that was cut has its runs
charged anew and jumps on to the record that did not fit. -/
theorem TranslatorSettings.layOut_eq_ok {s : TranslatorSettings} {notes : AddrTable AddrNote}
    {a b : Arena} {start : Addr} {e : Emission} (h : s.layOut notes a m start = .ok (e, b)) :
    ∃ rs n c d, s.recordsOf notes m start = .ok rs ∧ 0 < n ∧ n ≤ rs.length ∧
      a.fillWindow (min a.space s.windowSize) e.code = .ok c ∧
      d.advance e.code.length = .ok b ∧
      ((n = rs.length ∧ e.cutAt = none ∧ e.kept = placeFrom m a.cursor rs ∧
          e.code = rs.flatMap (Record.code m) ∧ d = c) ∨
        ∃ next, n < rs.length ∧ e.cutAt = some next ∧
          onward (rs.take n) = [.uop (.jump next)] ∧
          e.kept = setTotals (placeFrom m a.cursor (rs.take n)) ∧
          e.code = (rs.take n).flatMap (Record.code m) ++ emit m (.jump next) ∧
          c.recharge m e.kept = .ok d) := by
  unfold layOut at h
  obtain ⟨rs, found, h⟩ := bind_eq_ok.mp h
  obtain ⟨e₁, emitted, h⟩ := bind_eq_ok.mp h
  obtain ⟨c, filled, h⟩ := bind_eq_ok.mp h
  obtain ⟨some_record, shape, _⟩ := recordsOf_spec found
  obtain ⟨n, kept, first, ending⟩ := Emission.ofRecords_spec emitted
  rcases ending with ⟨uncut, all, code⟩ | ⟨next, at_n, cut, code⟩
  · simp only [uncut] at h
    obtain ⟨_, kept_all, h⟩ := bind_eq_ok.mp h
    cases kept_all
    obtain ⟨d, advanced, done⟩ := bind_eq_ok.mp h
    cases done
    have everything : rs.take n = rs := List.take_of_length_le all
    rw [everything] at kept code
    exact ⟨rs, rs.length, c, c, found, List.length_pos_iff.mpr some_record, Nat.le_refl _, filled,
      advanced, .inl ⟨rfl, rfl, kept, code, rfl⟩⟩
  · simp only [cut] at h
    obtain ⟨kept', recharged, h⟩ := bind_eq_ok.mp h
    obtain ⟨d, patched, h⟩ := bind_eq_ok.mp h
    obtain ⟨_, kept_some, h⟩ := bind_eq_ok.mp h
    cases kept_some
    obtain ⟨f, advanced, done⟩ := bind_eq_ok.mp h
    cases done
    have totals := chargeRuns_eq_ok recharged
    rw [kept] at totals
    obtain ⟨inside, rfl⟩ := List.getElem?_eq_some_iff.mp at_n
    have pos := first rfl some_record
    have whole : rs.take n ++ rs[n] :: rs.drop (n + 1) = rs := by
      rw [← List.drop_eq_getElem_cons inside, List.take_append_drop]
    have some_kept : rs.take n ≠ [] := by
      rw [← List.length_pos_iff, List.length_take]
      omega
    exact ⟨rs, n, c, d, found, pos, Nat.le_of_lt inside, filled, advanced,
      .inr ⟨_, inside, rfl, onward_of_cut (whole.symm ▸ shape) some_kept, totals, code, patched⟩⟩

theorem TranslatorSettings.layOut_spec {s : TranslatorSettings} {notes : AddrTable AddrNote}
    {a b : Arena} {start : Addr} {e : Emission} (h : s.layOut notes a m start = .ok (e, b))
    (inside : a.cursor ≤ a.capacity) :
    Block m s start a.cursor e.kept ∧ b.capacity = a.capacity ∧ b.generation = a.generation ∧
      b.cursor = a.cursor + (HostOp.codeAll (blockOps m e.kept)).length ∧
      b.cursor ≤ b.capacity ∧ (∀ j < a.cursor, b.byte? j = a.byte? j) ∧
      b.Holds a.cursor (HostOp.codeAll (blockOps m e.kept)) ∧
      (a.Trapped a.cursor → b.Trapped b.cursor) := by
  obtain ⟨rs, n, c, d, found, pos, within, filled, advanced, ending⟩ := layOut_eq_ok h
  obtain ⟨some_record, shape, charged, short, ends⟩ := recordsOf_spec found
  obtain ⟨room, small, cap, cur, gen, frame, holds⟩ := Arena.fillWindow_spec filled
  obtain ⟨used, rfl⟩ := Arena.advance_spec advanced
  have traps := Arena.fillWindow_trapped filled
  have space : a.space = a.capacity - a.cursor := rfl
  have used : e.code.length ≤ d.capacity - d.cursor := used
  have holds := holds (by omega)
  have some_kept : rs.take n ≠ [] := by
    rw [← List.length_pos_iff, List.length_take]
    omega
  have placed_ne : placeFrom m a.cursor (rs.take n) ≠ [] := by
    rw [← List.length_pos_iff, length_placeFrom]
    exact List.length_pos_iff.mpr some_kept
  have shape' := (shape.take n).placeFrom a.cursor
  have placed := placedAt_placeFrom m a.cursor (rs.take n)
  have short' : (rs.take n).length ≤ maxRecords :=
    Nat.le_trans (List.length_take_le' n rs) short
  rcases ending with ⟨rfl, uncut, kept, code, rfl⟩ | ⟨next, _, cut, onwards, kept, code, patched⟩
  · rw [List.take_length] at placed_ne shape' placed short'
    have ops : HostOp.codeAll (blockOps m e.kept) = e.code := by
      rw [kept, blockOps_eq, onward_placeFrom, ends.onward, List.append_nil, codeAll_placeFrom, code]
    rw [ops]
    rw [kept]
    refine ⟨⟨placed_ne, shape', charged.placeFrom m a.cursor, placed, ?_, snug_placeFrom m _ _⟩,
      cap, gen, congrArg (· + e.code.length) cur, ?_, frame, holds, ?_⟩
    · rw [length_placeFrom]
      exact short'
    · change d.cursor + e.code.length ≤ d.capacity
      omega
    · intro old
      change d.Trapped (d.cursor + e.code.length)
      rw [cur]
      exact traps old
  · rw [← onward_placeFrom m a.cursor] at onwards
    have jump : emit m (.jump next) = HostOp.codeAll [.uop (.jump next)] := rfl
    rw [jump, ← onwards, ← codeAll_placeFrom m a.cursor] at code
    rw [kept] at patched ⊢
    have recharged := fun behind (old : c.Holds a.cursor (HostOp.codeAll
        ((placeFrom m a.cursor (rs.take n)).flatMap (ops m)) ++ behind)) =>
      Arena.recharge_spec shape' placed old patched
    obtain ⟨cap', cur', gen', frame', placed', holds'⟩ := recharged _ (code ▸ holds)
    obtain ⟨ops, len⟩ := codeAll_setTotals placed placed'
    rw [← code] at len
    rw [len]
    have snug : Snug m (setTotals (placeFrom m a.cursor (rs.take n))) :=
      snug_setTotals fun _ mem _ among => hostSize_of_mem_placeFrom mem among
    refine ⟨⟨?_, shape'.setTotals, charged_setTotals _, placed', ?_, snug⟩, cap'.trans cap,
      gen'.trans gen, ?_, ?_, ?_, ?_, ?_⟩
    · rw [← List.length_pos_iff, length_setTotals]
      exact List.length_pos_iff.mpr placed_ne
    · rw [length_setTotals, length_placeFrom]
      exact short'
    · exact congrArg (· + e.code.length) (cur'.trans cur)
    · change d.cursor + e.code.length ≤ d.capacity
      omega
    · intro j hj
      exact (frame' j hj).trans (frame j hj)
    · rw [ops]
      exact holds'
    · intro old
      -- The traps stand behind the code, and recharging keeps what stands there.
      have behind := Arena.trapped_iff_holds.mp (traps old)
      have both := Arena.holds_append.mpr ⟨holds, behind⟩
      rw [code, List.append_assoc] at both
      obtain ⟨_, _, _, _, _, kept_traps⟩ := recharged _ both
      rw [← List.append_assoc, ← ops, Arena.holds_append] at kept_traps
      change d.Trapped (d.cursor + e.code.length)
      rw [Arena.trapped_iff_holds, cur', cur, cap']
      rw [len] at kept_traps
      simpa [code] using kept_traps.2

end Mos6502
