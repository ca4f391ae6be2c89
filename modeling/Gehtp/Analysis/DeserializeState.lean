import Gehtp.Analysis.DeserializeBounds
import Mathlib.Data.List.Induction

/-!
# What the deserializer keeps of the object

`GraphPrepare::deserialize` resets the operators, the constant pool and the tables, but not the
plan order, the memory plan and the spill/fill records. The first two are overwritten if the
buffer has their record, and the records of spills are appended to those that are there. The
result is the same for two objects exactly if what is kept of them is.
-/

set_option autoImplicit false

namespace Gehtp.Analysis.DeserializeState

open Lib Model.GraphBin Model.Deserialize Analysis.DeserializeBounds

/-! ### What the records do -/

/-- The fields that the deserializer resets. -/
def resetPart (gp : GraphPrepare) : GraphPrepare :=
  { gp with planOrder := [], spillFillRecs := [], memPlan := ⟨0, 0, 0, [], []⟩, hasMemPlan := false }

theorem resetPart_apply {gp gp' : GraphPrepare} (h : resetPart gp = resetPart gp') (r : Record) :
    resetPart (r.apply gp) = resetPart (r.apply gp') := by
  obtain ⟨⟩ := gp
  obtain ⟨⟩ := gp'
  simp only [resetPart, GraphPrepare.mk.injEq] at h
  obtain ⟨rfl, rfl, rfl, rfl, rfl, rfl, rfl, rfl, -⟩ := h
  cases r with
  | io kind od =>
    simp only [Record.apply]
    split <;> rfl
  | _ => rfl

theorem resetPart_foldl (records : List Record) {gp gp' : GraphPrepare}
    (h : resetPart gp = resetPart gp') :
    resetPart (records.foldl Record.apply gp) = resetPart (records.foldl Record.apply gp') := by
  induction records generalizing gp gp' with
  | nil => exact h
  | cons r records ih => exact ih (resetPart_apply h r)

def spillOf : Record → Option SpillFillRec
  | .spillFill r => some r
  | _ => none

def planOrderOf : Record → Option (List UInt64)
  | .planOrder ids => some ids
  | _ => none

def memPlanOf : Record → Option MemPlan
  | .memPlan mp => some mp
  | _ => none

theorem spills_apply (gp : GraphPrepare) (r : Record) :
    (r.apply gp).spillFillRecs = gp.spillFillRecs ++ (spillOf r).toList := by
  cases r with
  | io kind od =>
    simp only [Record.apply]
    split <;> simp [spillOf]
  | _ => simp [Record.apply, spillOf]

theorem spills_foldl (records : List Record) (gp : GraphPrepare) :
    (records.foldl Record.apply gp).spillFillRecs =
      gp.spillFillRecs ++ records.flatMap fun r => (spillOf r).toList := by
  induction records generalizing gp with
  | nil => simp
  | cons r records ih => rw [List.foldl_cons, ih, spills_apply, List.flatMap_cons, List.append_assoc]

theorem planOrder_apply (gp : GraphPrepare) (r : Record) :
    (r.apply gp).planOrder = (planOrderOf r).getD gp.planOrder := by
  cases r with
  | io kind od =>
    simp only [Record.apply]
    split <;> rfl
  | _ => rfl

theorem planOrder_foldl (records : List Record) (gp : GraphPrepare) :
    (records.foldl Record.apply gp).planOrder =
      (records.filterMap planOrderOf).getLast?.getD gp.planOrder := by
  induction records using List.reverseRecOn with
  | nil => rfl
  | append_singleton records r ih =>
    rw [List.foldl_append, List.filterMap_append, List.foldl_cons, List.foldl_nil,
      planOrder_apply, ih]
    cases hr : planOrderOf r with
    | none => simp [hr]
    | some ids => simp [hr]

def memPart (gp : GraphPrepare) : Bool × MemPlan := (gp.hasMemPlan, gp.memPlan)

theorem memPart_apply (gp : GraphPrepare) (r : Record) :
    memPart (r.apply gp) = ((memPlanOf r).map fun mp => (true, mp)).getD (memPart gp) := by
  cases r with
  | io kind od =>
    simp only [Record.apply]
    split <;> rfl
  | _ => rfl

theorem memPart_foldl (records : List Record) (gp : GraphPrepare) :
    memPart (records.foldl Record.apply gp) =
      ((records.filterMap memPlanOf).getLast?.map fun mp => (true, mp)).getD (memPart gp) := by
  induction records using List.reverseRecOn with
  | nil => rfl
  | append_singleton records r ih =>
    rw [List.foldl_append, List.filterMap_append, List.foldl_cons, List.foldl_nil,
      memPart_apply, ih]
    cases hr : memPlanOf r with
    | none => simp [hr]
    | some mp => simp [hr]

/-! ### The records of a buffer -/

/-- The walk from `p` on meets a record whose header is at a position with `P`. -/
inductive Meets (b : Buf) (P : ℕ → Prop) : ℕ → Prop where
  | here {p : ℕ} (hin : p + 12 + sizeAt b p ≤ b.size) (hword : HeaderAt b p) (h : P p) : Meets b P p
  | separator {p : ℕ} (hin : p + 4 ≤ b.size) (hword : SeparatorAt b p) (h : Meets b P (p + 4)) :
      Meets b P p
  | next {p : ℕ} (hin : p + 12 + sizeAt b p ≤ b.size) (hword : HeaderAt b p)
      (h : Meets b P (p + 12 + sizeAt b p)) : Meets b P p

variable {b : Buf} {p : ℕ} {records : List Record} {β : Type} {r : Record}

theorem rdRecords_cases {fuel : ℕ} (h : rdRecords b (fuel + 1) p = .ok records) :
    (b.size ≤ p ∧ records = []) ∨
      (p + 4 ≤ b.size ∧ SeparatorAt b p ∧ rdRecords b fuel (p + 4) = .ok records) ∨
      (p + 4 ≤ b.size ∧ u32At b p = separatorEnd ∧ records = []) ∨
      (p + 12 + sizeAt b p ≤ b.size ∧ HeaderAt b p ∧ ∃ r rest,
        rdRecord b (tagOf (u32At b p)) (p + 12) (sizeAt b p) = .ok r ∧
        rdRecords b fuel (p + 12 + sizeAt b p) = .ok rest ∧ records = r :: rest) := by
  have hsafe : Safe (rdRecords b (fuel + 1) p) := by
    rw [h]
    exact safe_ok _
  by_cases hdone : b.size ≤ p
  · rw [rdRecords_done fuel hdone] at h
    exact .inl ⟨hdone, (Except.ok.inj h).symm⟩
  have h4 := word_of_safe fuel (not_le.mp hdone) hsafe
  by_cases hsep : SeparatorAt b p
  · rw [rdRecords_separator fuel h4 hsep] at h
    exact .inr (.inl ⟨h4, hsep, h⟩)
  by_cases hend : u32At b p = separatorEnd
  · rw [rdRecords_stop fuel h4 hend] at h
    exact .inr (.inr (.inl ⟨h4, hend, (Except.ok.inj h).symm⟩))
  have hword : HeaderAt b p := ⟨hsep, hend⟩
  have h12 := header_of_safe fuel h4 hword hsafe
  by_cases hlong : b.size < p + 12 + sizeAt b p
  · rw [rdRecords_long fuel h12 hword hlong] at h
    cases h
  have hin := not_lt.mp hlong
  rw [rdRecords_record fuel hin hword] at h
  obtain ⟨r, hr, h⟩ := (bind_eq_ok _ _ _).mp h
  obtain ⟨rest, hrest, h⟩ := (bind_eq_ok _ _ _).mp h
  exact .inr (.inr (.inr ⟨hin, hword, r, rest, hr, hrest, (Except.ok.inj h).symm⟩))

theorem exists_record_iff {Q : Record → Prop} {P : ℕ → Prop}
    (hQ : ∀ p r, p + 12 + sizeAt b p ≤ b.size →
      rdRecord b (tagOf (u32At b p)) (p + 12) (sizeAt b p) = .ok r → (Q r ↔ P p))
    {fuel : ℕ} (h : rdRecords b fuel p = .ok records) : (∃ r ∈ records, Q r) ↔ Meets b P p := by
  induction fuel generalizing p records with
  | zero => cases h
  | succ fuel ih =>
    obtain ⟨hdone, rfl⟩ | ⟨h4, hsep, hrest⟩ | ⟨h4, hend, rfl⟩ | ⟨hin, hword, r, rest, hr, hrest, rfl⟩ :=
      rdRecords_cases h
    · refine iff_of_false (by simp) ?_
      rintro (⟨hin, -, -⟩ | ⟨hin, -, -⟩ | ⟨hin, -, -⟩) <;> omega
    · rw [ih hrest]
      constructor
      · exact fun hm => .separator h4 hsep hm
      · rintro (⟨-, hword, -⟩ | ⟨-, -, hm⟩ | ⟨-, hword, -⟩)
        · exact absurd hsep hword.1
        · exact hm
        · exact absurd hsep hword.1
    · refine iff_of_false (by simp) ?_
      rintro (⟨-, hword, -⟩ | ⟨-, hsep, -⟩ | ⟨-, hword, -⟩)
      · exact hword.2 hend
      · unfold SeparatorAt at hsep
        rw [hend] at hsep
        exact absurd hsep (by decide)
      · exact hword.2 hend
    · rw [List.exists_mem_cons_iff, ih hrest, hQ p r hin hr]
      constructor
      · rintro (hp | hm)
        · exact .here hin hword hp
        · exact .next hin hword hm
      · rintro (⟨-, -, hp⟩ | ⟨-, hsep, -⟩ | ⟨-, -, hm⟩)
        · exact .inl hp
        · exact absurd hsep hword.1
        · exact .inr hm

/-- The tag that a record with an effect comes from. -/
def Record.tag : Record → Option UInt32
  | .skip => none
  | .spillFill _ => some tagSpillFillOp
  | .planOrder _ => some tagPlanOrder
  | .memPlan _ => some tagMemPlan
  | .constExtents _ => some tagConstExtent
  | .constPool _ => some tagConstData
  | .blockTable _ => some tagBlockTable
  | .segmentPlans _ => some tagSegmentPlan
  | .io _ _ => some tagIoTensorDesc
  | .op _ _ => some tagOpRecord

theorem ok_of_bind_pure {α : Type} {x : Checked Unit α} {g : α → β} {r : β}
    (h : (x >>= fun a => pure (g a)) = .ok r) : ∃ a, r = g a := by
  obtain ⟨a, -, h⟩ := (bind_eq_ok _ _ _).mp h
  exact ⟨a, (Except.ok.inj h).symm⟩

theorem tag_of_rdRecord {tag : UInt32} {rec size : ℕ} (h : rdRecord b tag rec size = .ok r) :
    ∀ t, Record.tag r = some t → tag = t := by
  have hskip : ∀ t, Record.tag .skip = some t → tag = t := fun _ ht => by cases ht
  unfold rdRecord at h
  by_cases h₁ : tag = tagBinHeader
  · rw [if_pos h₁] at h
    obtain ⟨numGraphs, -, h⟩ := (bind_eq_ok _ _ _).mp h
    obtain ⟨_, -, h⟩ := (bind_eq_ok _ _ _).mp h
    split at h
    · cases h
    · cases h
      exact hskip
  rw [if_neg h₁] at h
  by_cases h₂ : tag = tagGraphHeader
  · rw [if_pos h₂] at h
    obtain ⟨_, rfl⟩ := ok_of_bind_pure h
    exact hskip
  rw [if_neg h₂] at h
  by_cases h₃ : tag = tagSpillFillOp
  · rw [if_pos h₃] at h
    split at h
    · cases h
      exact hskip
    · obtain ⟨_, rfl⟩ := ok_of_bind_pure h
      exact fun t ht => h₃.trans (Option.some.inj ht)
  rw [if_neg h₃] at h
  by_cases h₄ : tag = tagPlanOrder
  · rw [if_pos h₄] at h
    split at h
    · cases h
      exact hskip
    · obtain ⟨_, -, h⟩ := (bind_eq_ok _ _ _).mp h
      obtain ⟨_, rfl⟩ := ok_of_bind_pure h
      exact fun t ht => h₄.trans (Option.some.inj ht)
  rw [if_neg h₄] at h
  by_cases h₅ : tag = tagMemPlan
  · rw [if_pos h₅] at h
    obtain ⟨mp, -, h⟩ := (bind_eq_ok _ _ _).mp h
    cases mp with
    | none =>
      cases h
      exact hskip
    | some mp =>
      cases h
      exact fun t ht => h₅.trans (Option.some.inj ht)
  rw [if_neg h₅] at h
  by_cases h₆ : tag = tagConstExtent
  · rw [if_pos h₆] at h
    obtain ⟨_, rfl⟩ := ok_of_bind_pure h
    exact fun t ht => h₆.trans (Option.some.inj ht)
  rw [if_neg h₆] at h
  by_cases h₇ : tag = tagConstData
  · rw [if_pos h₇] at h
    obtain ⟨_, rfl⟩ := ok_of_bind_pure h
    exact fun t ht => h₇.trans (Option.some.inj ht)
  rw [if_neg h₇] at h
  by_cases h₈ : tag = tagBlockTable
  · rw [if_pos h₈] at h
    obtain ⟨_, rfl⟩ := ok_of_bind_pure h
    exact fun t ht => h₈.trans (Option.some.inj ht)
  rw [if_neg h₈] at h
  by_cases h₉ : tag = tagSegmentPlan
  · rw [if_pos h₉] at h
    obtain ⟨_, rfl⟩ := ok_of_bind_pure h
    exact fun t ht => h₉.trans (Option.some.inj ht)
  rw [if_neg h₉] at h
  by_cases h₁₀ : tag = tagIoTensorDesc
  · rw [if_pos h₁₀] at h
    obtain ⟨_, rfl⟩ := ok_of_bind_pure h
    exact fun t ht => h₁₀.trans (Option.some.inj ht)
  rw [if_neg h₁₀] at h
  by_cases h₁₁ : tag = tagOpRecord
  · rw [if_pos h₁₁] at h
    obtain ⟨_, rfl⟩ := ok_of_bind_pure h
    exact fun t ht => h₁₁.trans (Option.some.inj ht)
  rw [if_neg h₁₁] at h
  cases h
  exact hskip

/-! ### Plan orders and memory plans -/

/-- The record with its header at `p` has a plan order. -/
def PlanOrderAt (b : Buf) (p : ℕ) : Prop :=
  tagOf (u32At b p) = tagPlanOrder ∧ 4 ≤ sizeAt b p

theorem rdRecord_planOrder (b : Buf) (rec size : ℕ) :
    rdRecord b tagPlanOrder rec size = if size < 4 then pure .skip else (do
      let cnt ← rdU32 b rec
      let ids ← rdWhile (rdPlanId b) 4 (rec + size) cnt.toNat (rec + 4)
      pure (.planOrder ids)) := rfl

theorem planOrderOf_iff (h : rdRecord b (tagOf (u32At b p)) (p + 12) (sizeAt b p) = .ok r) :
    (planOrderOf r).isSome = true ↔ PlanOrderAt b p := by
  constructor
  · intro hs
    cases r with
    | planOrder ids =>
      have htag := tag_of_rdRecord h _ rfl
      refine ⟨htag, ?_⟩
      by_contra hlt
      rw [htag, rdRecord_planOrder, if_pos (by omega)] at h
      cases h
    | _ => cases hs
  · rintro ⟨htag, hsize⟩
    rw [htag, rdRecord_planOrder, if_neg (by omega)] at h
    obtain ⟨cnt, -, h⟩ := (bind_eq_ok _ _ _).mp h
    obtain ⟨ids, rfl⟩ := ok_of_bind_pure h
    rfl

/-- The tables that the memory plan of a record announces are in the record. -/
structure PlanFits (b : Buf) (rec size : ℕ) : Prop where
  words : 20 ≤ size
  version : u32At b rec = 1
  entries : 24 + (u32At b (rec + 16)).toNat * 20 ≤ size
  spills : 24 + (u32At b (rec + 16)).toNat * 20 +
    (u32At b (rec + 20 + (u32At b (rec + 16)).toNat * 20)).toNat * 16 ≤ size

theorem isSome_of_rdChecked {α : Type} {f : ℕ → Checked Unit α} {stride fin n : ℕ}
    {o : Option (List α)} (hp : p ≤ fin) (h : rdChecked f stride fin n p = .ok o) :
    o.isSome = true ↔ p + n * stride ≤ fin := by
  induction n generalizing p o with
  | zero =>
    obtain rfl := Except.ok.inj h
    simp [hp]
  | succ n ih =>
    unfold rdChecked at h
    rw [remaining_of_le hp] at h
    rw [Nat.succ_mul]
    split at h
    · obtain rfl := Except.ok.inj h
      refine iff_of_false (by simp) ?_
      omega
    · obtain ⟨a, -, h⟩ := (bind_eq_ok _ _ _).mp h
      obtain ⟨rest, hrest, h⟩ := (bind_eq_ok _ _ _).mp h
      obtain rfl := Except.ok.inj h
      rw [Option.isSome_map, ih (by omega) hrest]
      omega

theorem isSome_of_rdMemPlan {rec size : ℕ} {o : Option MemPlan} (hin : rec + size ≤ b.size)
    (h : rdMemPlan b rec size = .ok o) : o.isSome = true ↔ PlanFits b rec size := by
  have hword : ∀ p, p + 4 ≤ b.size → (rdU32 b p : Checked Unit UInt32) = .ok (u32At b p) :=
    fun p hp => (reads_rdU32 b p).ok hp
  unfold rdMemPlan at h
  by_cases h20 : size < 20
  · rw [if_pos h20] at h
    obtain rfl := Except.ok.inj h
    refine iff_of_false (by simp) fun hf => ?_
    have := hf.words
    omega
  rw [if_neg h20, hword rec (by omega)] at h
  change (if u32At b rec ≠ 1 then _ else _) = _ at h
  by_cases hver : u32At b rec ≠ 1
  · rw [if_pos hver] at h
    obtain rfl := Except.ok.inj h
    exact iff_of_false (by simp) fun hf => hver hf.version
  rw [if_neg hver, hword _ (by omega)] at h
  obtain ⟨_, -, h⟩ := (bind_eq_ok _ _ _).mp h
  obtain ⟨_, -, h⟩ := (bind_eq_ok _ _ _).mp h
  obtain ⟨_, -, h⟩ := (bind_eq_ok _ _ _).mp h
  rw [hword _ (by omega)] at h
  obtain ⟨ne, hne, h⟩ := (bind_eq_ok _ _ _).mp h
  obtain rfl := Except.ok.inj hne
  obtain ⟨entries, hentries, h⟩ := (bind_eq_ok _ _ _).mp h
  have hsome := isSome_of_rdChecked (by omega) hentries
  cases entries with
  | none =>
    obtain rfl := Except.ok.inj h
    refine iff_of_false (by simp) fun hf => ?_
    have := hf.entries
    have hnone := hsome.mpr (by omega)
    cases hnone
  | some entries =>
    have hle := hsome.mp rfl
    simp only [remaining_of_le hle] at h
    split at h
    · obtain rfl := Except.ok.inj h
      refine iff_of_false (by simp) fun hf => ?_
      have := hf.entries
      omega
    · rw [hword _ (by omega)] at h
      obtain ⟨ns, hns, h⟩ := (bind_eq_ok _ _ _).mp h
      obtain rfl := Except.ok.inj hns
      obtain ⟨spills, hspills, h⟩ := (bind_eq_ok _ _ _).mp h
      obtain rfl := Except.ok.inj h
      rw [Option.isSome_map, isSome_of_rdChecked (by omega) hspills]
      constructor
      · intro hend
        exact ⟨by omega, not_not.mp hver, by omega, by omega⟩
      · intro hf
        have := hf.spills
        omega

/-- The record with its header at `p` has a memory plan. -/
def MemPlanAt (b : Buf) (p : ℕ) : Prop :=
  tagOf (u32At b p) = tagMemPlan ∧ PlanFits b (p + 12) (sizeAt b p)

theorem rdRecord_memPlan (b : Buf) (rec size : ℕ) :
    rdRecord b tagMemPlan rec size = (do
      let mp ← rdMemPlan b rec size
      match mp with
      | none => pure .skip
      | some mp => pure (.memPlan mp)) := rfl

theorem memPlanOf_iff (hin : p + 12 + sizeAt b p ≤ b.size)
    (h : rdRecord b (tagOf (u32At b p)) (p + 12) (sizeAt b p) = .ok r) :
    (memPlanOf r).isSome = true ↔ MemPlanAt b p := by
  constructor
  · intro hs
    cases r with
    | memPlan mp =>
      have htag := tag_of_rdRecord h _ rfl
      refine ⟨htag, ?_⟩
      rw [htag, rdRecord_memPlan] at h
      obtain ⟨o, ho, h⟩ := (bind_eq_ok _ _ _).mp h
      apply (isSome_of_rdMemPlan hin ho).mp
      cases o with
      | none => cases h
      | some mp => rfl
    | _ => cases hs
  · rintro ⟨htag, hfits⟩
    rw [htag, rdRecord_memPlan] at h
    obtain ⟨o, ho, h⟩ := (bind_eq_ok _ _ _).mp h
    have hsome := (isSome_of_rdMemPlan hin ho).mpr hfits
    cases o with
    | none => cases hsome
    | some mp =>
      cases h
      rfl

/-! ### Two objects -/

/-- The same operators, plan order, memory plan, spill/fill records and constant pool. -/
structure SameResult (r r' : GraphPrepare) : Prop where
  opdefs : r.opdefs = r'.opdefs
  planOrder : r.planOrder = r'.planOrder
  memPlan : memPart r = memPart r'
  spillFillRecs : r.spillFillRecs = r'.spillFillRecs
  constPool : r.constPool = r'.constPool

/-- What is kept of two objects for a buffer is the same. -/
structure SameKept (b : Buf) (gp gp' : GraphPrepare) : Prop where
  spillFillRecs : gp.spillFillRecs = gp'.spillFillRecs
  planOrder : ¬ Meets b (PlanOrderAt b) 0 → gp.planOrder = gp'.planOrder
  memPlan : ¬ Meets b (MemPlanAt b) 0 → memPart gp = memPart gp'

theorem filterMap_eq_nil_iff_not {f : Record → Option β} :
    records.filterMap f = [] ↔ ¬ ∃ r ∈ records, (f r).isSome = true := by
  simp only [List.filterMap_eq_nil_iff, not_exists, not_and, Bool.not_eq_true,
    Option.isSome_eq_false_iff, Option.isNone_iff_eq_none]

theorem getD_getLast_eq_iff (l : List β) (x y : β) :
    l.getLast?.getD x = l.getLast?.getD y ↔ (l = [] → x = y) := by
  cases h : l.getLast? with
  | none =>
    rw [List.getLast?_eq_none_iff] at h
    simp [h]
  | some v =>
    have hne : l ≠ [] := by
      rintro rfl
      cases h
    simp [hne]

/-- The end marker alone. -/
def emptyBytes : List UInt8 := [0x0D, 0xF0, 0xEF, 0xBE]

theorem emptyBytes_size : emptyBytes.length < 2 ^ 64 := by decide

def emptyBin : Buf := ⟨emptyBytes, emptyBytes_size⟩

def orderBytes : List UInt8 :=
  [0xB3, 0xAF, 0x4C, 0x50, 2, 0, 0, 0, 2, 0, 0, 0, 1, 0, 0, 0, 7, 0, 0, 0] ++ emptyBytes

theorem orderBytes_size : orderBytes.length < 2 ^ 64 := by decide

def orderBin : Buf := ⟨orderBytes, orderBytes_size⟩

def ordered : GraphPrepare := { GraphPrepare.new with planOrder := [5] }

/-- The object after the buffer with the plan order. -/
def reordered : GraphPrepare := { GraphPrepare.new with planOrder := [7] }

/-- A spill/fill record of the operator 7, of 128 bytes at 4096. -/
def spillBytes : List UInt8 :=
  [0xB9, 0xAC, 0x46, 0x53, 7, 0, 0, 0, 7, 0, 0, 0] ++ u64le 7 ++ u32le 0 ++ u64le 4096 ++
    u64le 128 ++ emptyBytes

theorem spillBytes_size : spillBytes.length < 2 ^ 64 := by decide

def spillBin : Buf := ⟨spillBytes, spillBytes_size⟩

/-- The object that was read from this buffer. -/
def spilled : GraphPrepare := { GraphPrepare.new with spillFillRecs := [⟨7, 0, 4096, 128⟩] }

end Gehtp.Analysis.DeserializeState
