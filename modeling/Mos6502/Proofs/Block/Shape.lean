import Mos6502.Translator.Compile

/-! The shape of a block. Every stage of a compile hands on a chain of records: each is what the
instruction at its address is lowered to, perhaps rewritten with known values, behind a countdown
where a run starts and before a jump where the block would otherwise run on. -/
namespace Mos6502

namespace Record

def headUops (r : Record) : List Uop :=
  match r.runTotal with
  | some total => [.countdown r.addr total]
  | none => []

/-- The jump behind an instruction that ends its block without leaving it. -/
def closingUops (lowered r : Record) : List Uop :=
  if lowered.endsBlock = r.endsBlock then [] else [.jump r.addrAfter]

variable {M : Type} [GuestMemory M]

def instruction (m : M) (r : Record) : Instruction :=
  .fetch m r.addr

/-- The record is the lowered instruction at its address, rewritten with the values in `k`. -/
structure Lowered (m : M) (o : LoweringOptions) (k : Known) (r : Record) : Prop where
  opcode : r.opcode = (lower m o r.addr).opcode
  operand : r.operand = (lower m o r.addr).operand
  len : r.len = (lower m o r.addr).len
  maxCycles : r.maxCycles = (lower m o r.addr).maxCycles
  branch : r.branch = (lower m o r.addr).branch
  ends : (lower m o r.addr).endsBlock = true → r.endsBlock = true
  uops : r.uopList = r.headUops ++ (lower m o r.addr).uopList.map k.rewrite
    ++ closingUops (lower m o r.addr) r

def Known.after (tracked : Bool) (k : Known) (r : Record) : Known :=
  if tracked then (k.forget r.opcode).learn r.opcode r.operand else k

/-- A chain of lowered instructions from `a` on. A run starts at the first one if `runs` says so,
and behind every conditional branch. -/
def IsBlock (m : M) (o : LoweringOptions) (tracked : Bool) :
    Known → Bool → Addr → List Record → Prop
  | _, _, _, [] => True
  | k, runs, a, r :: rs =>
    r.addr = a ∧ Lowered m o k r ∧ r.startsRun = runs ∧ (r.endsBlock = true → rs = []) ∧
      IsBlock m o tracked (k.after tracked r) (r.branch == .conditional) r.addrAfter rs

def Charged : List Record → Prop
  | [] => True
  | r :: rs =>
    (r.startsRun = true → r.runTotal = some (r.maxCycles.toUInt32 + restOfRun rs)) ∧ Charged rs

/-- The records lie one behind the other from a host offset on, each micro-operation with room
for its host code. -/
def PlacedAt (m : M) : Nat → List Record → Prop
  | _, [] => True
  | offset, r :: rs =>
    r.hostOffset = some offset ∧ (∀ p ∈ r.uops, (emit m p.uop).length ≤ p.hostSize) ∧
      PlacedAt m (offset + r.hostSize) rs

@[simp] theorem Known.rewrite_unknown (u : Uop) : ({} : Known).rewrite u = u := by
  cases u <;> simp [Known.rewrite]

theorem uopList_rewrite (k : Known) (r : Record) :
    (r.rewrite k).uopList = r.uopList.map k.rewrite := by
  simp [uopList, rewrite]

theorem map_headUops (k : Known) (r : Record) : r.headUops.map k.rewrite = r.headUops := by
  unfold headUops
  cases r.runTotal <;> rfl

theorem map_closingUops (k : Known) (l r : Record) :
    (closingUops l r).map k.rewrite = closingUops l r := by
  unfold closingUops
  split <;> rfl

theorem startsRun_iff (r : Record) : r.startsRun = true ↔ ∃ total, r.runTotal = some total := by
  simp [startsRun, Option.isSome_iff_exists]

variable {m : M} {o : LoweringOptions} {k : Known}

theorem Lowered.rewrite {r : Record} (h : Lowered m o {} r) : Lowered m o k (r.rewrite k) where
  opcode := h.opcode
  operand := h.operand
  len := h.len
  maxCycles := h.maxCycles
  branch := h.branch
  ends := h.ends
  uops := by
    have unknown : ({} : Known).rewrite = id := funext Known.rewrite_unknown
    have heads : (r.rewrite k).headUops = r.headUops := rfl
    have closing : closingUops (lower m o r.addr) (r.rewrite k)
        = closingUops (lower m o r.addr) r := rfl
    change (r.rewrite k).uopList = (r.rewrite k).headUops
      ++ (lower m o r.addr).uopList.map k.rewrite ++ closingUops (lower m o r.addr) (r.rewrite k)
    rw [uopList_rewrite, h.uops, unknown, heads, closing]
    simp [map_headUops, map_closingUops]

/-- Only the total, the sizes and the host offset of a record change after it is lowered and
rewritten. -/
theorem Lowered.of_same {r r' : Record} (h : Lowered m o k r) (addr : r'.addr = r.addr)
    (opcode : r'.opcode = r.opcode) (operand : r'.operand = r.operand) (len : r'.len = r.len)
    (maxCycles : r'.maxCycles = r.maxCycles) (branch : r'.branch = r.branch)
    (ends : r'.endsBlock = r.endsBlock)
    (uops : ∀ body, r.uopList = r.headUops ++ body → r'.uopList = r'.headUops ++ body) :
    Lowered m o k r' where
  opcode := by rw [opcode, addr, h.opcode]
  operand := by rw [operand, addr, h.operand]
  len := by rw [len, addr, h.len]
  maxCycles := by rw [maxCycles, addr, h.maxCycles]
  branch := by rw [branch, addr, h.branch]
  ends := by rw [addr, ends]; exact h.ends
  uops := by
    have closing : closingUops (lower m o r.addr) r' = closingUops (lower m o r.addr) r := by
      simp only [closingUops, addrAfter, ends, addr, len]
    rw [List.append_assoc, addr, closing]
    exact uops _ (by rw [h.uops, List.append_assoc])

theorem Lowered.placeAt {r : Record} (h : Lowered m o k r) (m' : M) (offset : Nat) :
    Lowered m o k (r.placeAt m' offset) := by
  refine h.of_same rfl rfl rfl rfl rfl rfl rfl ?_
  intro body hb
  have same : (r.placeAt m' offset).uopList = r.uopList := by
    simp [uopList, Record.placeAt]
  rw [same, hb]
  rfl

theorem Lowered.uops_head {r : Record} (h : Lowered m o k r) (runs : r.startsRun = true) :
    ∃ total size rest, r.runTotal = some total ∧
      r.uops = ⟨.countdown r.addr total, size⟩ :: rest := by
  obtain ⟨total, ht⟩ := (startsRun_iff r).mp runs
  have front := h.uops
  simp only [headUops, ht, uopList, List.cons_append] at front
  cases hu : r.uops with
  | nil => simp [hu] at front
  | cons p rest =>
    rw [hu, List.map_cons] at front
    have first : p.uop = .countdown r.addr total := (List.cons.inj front).1
    exact ⟨total, p.hostSize, rest, ht, by rw [← first]⟩

theorem setTotal_of_uops {r : Record} {addr : Addr} {cycles : UInt32} {size : Nat}
    {rest : List Placed} (uops : r.uops = ⟨.countdown addr cycles, size⟩ :: rest) (total : UInt32) :
    r.setTotal total
      = { r with uops := ⟨.countdown addr total, size⟩ :: rest, runTotal := some total } := by
  simp only [Record.setTotal, setCountdown, uops]

theorem Lowered.setTotal {r : Record} (h : Lowered m o k r) (runs : r.startsRun = true)
    (total : UInt32) : Lowered m o k (r.setTotal total) := by
  obtain ⟨old, size, rest, ht, hu⟩ := h.uops_head runs
  rw [setTotal_of_uops hu]
  refine h.of_same rfl rfl rfl rfl rfl rfl rfl ?_
  intro body hb
  simp only [uopList, hu, headUops, ht, List.map_cons, List.singleton_append] at hb ⊢
  rw [(List.cons.inj hb).2]

theorem startsRun_setTotal (r : Record) (total : UInt32) : (r.setTotal total).startsRun = true :=
  rfl

/-! Each stage keeps the shape. -/

theorem IsBlock.peepholeFrom {runs : Bool} {a : Addr} {rs : List Record}
    (h : IsBlock m o false {} runs a rs) (k : Known) :
    IsBlock m o true k runs a (peepholeFrom k rs) := by
  induction rs generalizing k runs a with
  | nil => trivial
  | cons r rs ih =>
    obtain ⟨addr, lowered, starts, ends, rest⟩ := h
    refine ⟨addr, lowered.rewrite, starts, ?_, ?_⟩
    · intro he
      rw [ends he]
      rfl
    · exact ih rest _

theorem setTotal_fields (r : Record) (total : UInt32) :
    (r.setTotal total).addr = r.addr ∧ (r.setTotal total).opcode = r.opcode ∧
      (r.setTotal total).operand = r.operand ∧ (r.setTotal total).len = r.len ∧
      (r.setTotal total).maxCycles = r.maxCycles ∧ (r.setTotal total).branch = r.branch ∧
      (r.setTotal total).endsBlock = r.endsBlock ∧
      (r.setTotal total).hostOffset = r.hostOffset := by
  unfold Record.setTotal setCountdown
  split <;> simp

def withTotal (r : Record) (rest : UInt32) : Record :=
  if r.startsRun then r.setTotal (r.maxCycles.toUInt32 + rest) else r

theorem setTotals_cons (r : Record) (rs : List Record) :
    setTotals (r :: rs) = r.withTotal (restOfRun rs) :: setTotals rs := rfl

@[simp] theorem length_setTotals (rs : List Record) : (setTotals rs).length = rs.length := by
  induction rs with
  | nil => rfl
  | cons r rs ih => rw [setTotals_cons, List.length_cons, List.length_cons, ih]

theorem withTotal_fields (r : Record) (rest : UInt32) :
    (r.withTotal rest).addr = r.addr ∧ (r.withTotal rest).opcode = r.opcode ∧
      (r.withTotal rest).operand = r.operand ∧ (r.withTotal rest).len = r.len ∧
      (r.withTotal rest).maxCycles = r.maxCycles ∧ (r.withTotal rest).branch = r.branch ∧
      (r.withTotal rest).endsBlock = r.endsBlock ∧ (r.withTotal rest).hostOffset = r.hostOffset ∧
      (r.withTotal rest).startsRun = r.startsRun := by
  unfold withTotal
  split
  · next runs =>
    have f := setTotal_fields r (r.maxCycles.toUInt32 + rest)
    exact ⟨f.1, f.2.1, f.2.2.1, f.2.2.2.1, f.2.2.2.2.1, f.2.2.2.2.2.1, f.2.2.2.2.2.2.1,
      f.2.2.2.2.2.2.2, by rw [startsRun_setTotal, runs]⟩
  · simp

theorem Lowered.withTotal {r : Record} (h : Lowered m o k r) (rest : UInt32) :
    Lowered m o k (r.withTotal rest) := by
  unfold Record.withTotal
  split
  · next runs => exact h.setTotal runs _
  · exact h

theorem IsBlock.setTotals {tracked runs : Bool} {a : Addr} {rs : List Record}
    (h : IsBlock m o tracked k runs a rs) : IsBlock m o tracked k runs a (setTotals rs) := by
  induction rs generalizing k runs a with
  | nil => trivial
  | cons r rs ih =>
    obtain ⟨addr, lowered, starts, ends, rest⟩ := h
    obtain ⟨f₁, f₂, f₃, f₄, _, f₆, f₇, _, f₉⟩ := withTotal_fields r (restOfRun rs)
    rw [setTotals_cons]
    refine ⟨f₁.trans addr, lowered.withTotal _, f₉.trans starts, ?_, ?_⟩
    · intro he
      rw [f₇] at he
      rw [ends he]
      rfl
    · have same : (r.withTotal (restOfRun rs)).addrAfter = r.addrAfter := by
        simp only [addrAfter, f₁, f₄]
      rw [same, f₆]
      have known : Known.after tracked k (r.withTotal (restOfRun rs)) = k.after tracked r := by
        simp only [Known.after, f₂, f₃]
      rw [known]
      exact ih rest

theorem restOfRun_setTotals (rs : List Record) : restOfRun (setTotals rs) = restOfRun rs := by
  induction rs with
  | nil => rfl
  | cons r rs ih =>
    obtain ⟨_, _, _, _, f₅, _, _, _, f₉⟩ := withTotal_fields r (restOfRun rs)
    rw [setTotals_cons, restOfRun, restOfRun, f₉, f₅, ih]

theorem charged_setTotals (rs : List Record) : Charged (setTotals rs) := by
  induction rs with
  | nil => trivial
  | cons r rs ih =>
    obtain ⟨_, _, _, _, f₅, _, _, _, f₉⟩ := withTotal_fields r (restOfRun rs)
    rw [setTotals_cons]
    refine ⟨?_, ih⟩
    intro runs
    rw [f₅, restOfRun_setTotals]
    rw [f₉] at runs
    simp only [withTotal, if_pos runs]
    rfl

@[simp] theorem length_peepholeFrom (k : Known) (rs : List Record) :
    (peepholeFrom k rs).length = rs.length := by
  induction rs generalizing k with
  | nil => rfl
  | cons r rs ih => rw [peepholeFrom, List.length_cons, List.length_cons, ih]

theorem restOfRun_peepholeFrom (k : Known) (rs : List Record) :
    restOfRun (peepholeFrom k rs) = restOfRun rs := by
  induction rs generalizing k with
  | nil => rfl
  | cons r rs ih =>
    change (if r.startsRun then 0 else r.maxCycles.toUInt32 + restOfRun (peepholeFrom _ rs)) = _
    rw [ih]
    rfl

theorem Charged.peepholeFrom {rs : List Record} (h : Charged rs) (k : Known) :
    Charged (peepholeFrom k rs) := by
  induction rs generalizing k with
  | nil => trivial
  | cons r rs ih =>
    refine ⟨?_, ih h.2 _⟩
    intro runs
    have total := h.1 runs
    rw [restOfRun_peepholeFrom]
    exact total

theorem IsBlock.take {tracked runs : Bool} {a : Addr} {rs : List Record}
    (h : IsBlock m o tracked k runs a rs) (n : Nat) :
    IsBlock m o tracked k runs a (rs.take n) := by
  induction rs generalizing k runs a n with
  | nil => simp [IsBlock]
  | cons r rs ih =>
    cases n with
    | zero => trivial
    | succ n =>
      obtain ⟨addr, lowered, starts, ends, rest⟩ := h
      refine ⟨addr, lowered, starts, ?_, ih rest n⟩
      intro he
      simp [ends he]

end Record

end Mos6502
