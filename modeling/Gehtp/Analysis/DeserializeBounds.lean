import Gehtp.Model.Deserialize

/-!
# The reads of the deserializer

`GraphPrepare::deserialize` checks the end of a record against the end of the buffer, and
most of its readers check against the end of the record. The header of a record, the records of
the graph and of its input and output nodes, and the op record are read without a check; the
lengths in an op record move its cursor past the end, where `remaining` wraps. `RecordsFit`
says which bytes must be there, and the deserializer stays inside the buffer exactly on these
buffers.
-/

set_option autoImplicit false

namespace Gehtp.Analysis.DeserializeBounds

open Lib Model.GraphBin Model.Deserialize

/-! ### Readers of a fixed number of bytes -/

/-- The output definition at `p`. -/
def outputDefAt (b : Buf) (p : ℕ) : OutputDef where
  rank := u32At b p
  dtype := u32At b (p + 4)
  flags := u32At b (p + 8)
  quantParams := u32At b (p + 12)
  dims := #v[u64At b (p + 16), u64At b (p + 24), u64At b (p + 32), u64At b (p + 40),
    u64At b (p + 48)]
  elementSize := u64At b (p + 56)
  quantScale := u64At b (p + 64)
  quantOffset := u64At b (p + 72)
  extra := #v[u64At b (p + 80), u64At b (p + 88), u64At b (p + 96)]

theorem reads_rdOutputDef (b : Buf) (p : ℕ) :
    Reads b p 104 (rdOutputDef b p) (outputDefAt b p) := by
  apply (reads_rdU32 b p).bind (by decide)
  intro _
  apply (reads_rdU32 b (p + 4)).bind (by decide)
  intro _
  apply (reads_rdU32 b (p + 8)).bind (by decide)
  intro _
  apply (reads_rdU32 b (p + 12)).bind (by decide)
  intro _
  apply (reads_rdU64 b (p + 16)).bind (by decide)
  intro _
  apply (reads_rdU64 b (p + 24)).bind (by decide)
  intro _
  apply (reads_rdU64 b (p + 32)).bind (by decide)
  intro _
  apply (reads_rdU64 b (p + 40)).bind (by decide)
  intro _
  apply (reads_rdU64 b (p + 48)).bind (by decide)
  intro _
  apply (reads_rdU64 b (p + 56)).bind (by decide)
  intro _
  apply (reads_rdU64 b (p + 64)).bind (by decide)
  intro _
  apply (reads_rdU64 b (p + 72)).bind (by decide)
  intro _
  apply (reads_rdU64 b (p + 80)).bind (by decide)
  intro _
  apply (reads_rdU64 b (p + 88)).bind (by decide)
  exact fun _ => (reads_rdU64 b (p + 96)).map _

theorem reads_rdInput (b : Buf) (p : ℕ) :
    Reads b p 16 (rdInput b p) ⟨u64At b p, u32At b (p + 8)⟩ := by
  apply (reads_rdU64 b p).bind (by decide)
  intro _
  apply (reads_rdU32 b (p + 8)).bind (by decide)
  exact fun _ => (reads_rdU32 b (p + 12)).map _

theorem reads_rdSpillFill (b : Buf) (p : ℕ) : Reads b p 28 (rdSpillFill b p)
    ⟨u64At b p, u32At b (p + 8), u64At b (p + 12), u64At b (p + 20)⟩ := by
  apply (reads_rdU64 b p).bind (by decide)
  intro _
  apply (reads_rdU32 b (p + 8)).bind (by decide)
  intro _
  apply (reads_rdU64 b (p + 12)).bind (by decide)
  exact fun _ => (reads_rdU64 b (p + 20)).map _

theorem reads_rdPlanId (b : Buf) (p : ℕ) :
    Reads b p 4 (rdPlanId b p) (u32At b p).toUInt64 :=
  (reads_rdU32 b p).map _

theorem reads_rdPlanEntry (b : Buf) (p : ℕ) : Reads b p 20 (rdPlanEntry b p)
    ⟨(u32At b p).toUInt64, u32At b (p + 4), (u32At b (p + 8)).toUInt64,
      (u32At b (p + 12)).toUInt64, u32At b (p + 16) &&& 1 ≠ 0⟩ := by
  apply (reads_rdU32 b p).bind (by decide)
  intro _
  apply (reads_rdU32 b (p + 4)).bind (by decide)
  intro _
  apply (reads_rdU32 b (p + 8)).bind (by decide)
  intro _
  apply (reads_rdU32 b (p + 12)).bind (by decide)
  exact fun _ => (reads_rdU32 b (p + 16)).map _

theorem reads_rdPlanSpill (b : Buf) (p : ℕ) : Reads b p 16 (rdPlanSpill b p)
    ⟨(u32At b p).toUInt64, (u32At b (p + 4)).toUInt64, (u32At b (p + 8)).toUInt64⟩ := by
  apply (reads_rdU32 b p).bind (by decide)
  intro _
  apply (reads_rdU32 b (p + 4)).bind (by decide)
  intro _
  apply (reads_rdU32 b (p + 8)).bind (by decide)
  exact fun _ => (reads_rdU32 b (p + 12)).map _

theorem reads_rdConstExtent (b : Buf) (p : ℕ) : Reads b p 32 (rdConstExtent b p)
    ⟨u64At b p, u64At b (p + 8), u64At b (p + 16)⟩ := by
  apply (reads_rdU64 b p).bind (by decide)
  intro _
  apply (reads_rdU64 b (p + 8)).bind (by decide)
  intro _
  apply (reads_rdU64 b (p + 16)).bind (by decide)
  exact fun _ => (reads_rdU64 b (p + 24)).map _

theorem reads_rdBlockEntry (b : Buf) (p : ℕ) : Reads b p 24 (rdBlockEntry b p)
    ⟨u32At b p, u32At b (p + 4), u64At b (p + 8), u64At b (p + 16)⟩ := by
  apply (reads_rdU32 b p).bind (by decide)
  intro _
  apply (reads_rdU32 b (p + 4)).bind (by decide)
  intro _
  apply (reads_rdU64 b (p + 8)).bind (by decide)
  exact fun _ => (reads_rdU64 b (p + 16)).map _

theorem reads_rdSegmentPlan (b : Buf) (p : ℕ) : Reads b p 16 (rdSegmentPlan b p)
    ⟨u32At b p, u32At b (p + 4), u64At b (p + 8)⟩ := by
  apply (reads_rdU32 b p).bind (by decide)
  intro _
  apply (reads_rdU32 b (p + 4)).bind (by decide)
  exact fun _ => (reads_rdU64 b (p + 8)).map _

theorem reads_rdIoDesc (b : Buf) (p : ℕ) : Reads b p 120 (rdIoDesc b p)
    (u32At b p, ioOpDef (u32At b p) (u64At b (p + 8)) (outputDefAt b (p + 16))) := by
  apply (reads_rdU32 b p).bind (by decide)
  intro _
  apply (reads_rdU32 b (p + 4)).bind (by decide)
  intro _
  apply (reads_rdU64 b (p + 8)).bind (by decide)
  exact fun _ => (reads_rdOutputDef b (p + 16)).map _

/-! ### Readers that check against the end of the record -/

variable {fin n rec size : ℕ} {tag : UInt32}

theorem remaining_of_le {p : ℕ} (hp : p ≤ fin) : remaining fin p = fin - p := if_pos hp

section Checked

variable {b : Buf} {α : Type} {f : ℕ → Checked Unit α} {stride : ℕ}
  (hf : ∀ p, p + stride ≤ b.size → Safe (f p))

include hf

theorem safe_rdTable {p : ℕ} (h : p + n * stride ≤ b.size) : Safe (rdTable f stride n p) := by
  induction n generalizing p with
  | zero => exact safe_pure _
  | succ n ih =>
    rw [Nat.succ_mul] at h
    apply safe_bind (hf p (by omega))
    intro a _
    apply safe_bind (ih (by omega))
    exact fun _ _ => safe_pure _

theorem safe_rdWhile (hfin : fin ≤ b.size) {p : ℕ} (hp : p ≤ fin) :
    Safe (rdWhile f stride fin n p) := by
  induction n generalizing p with
  | zero => exact safe_pure _
  | succ n ih =>
    unfold rdWhile
    rw [remaining_of_le hp]
    split
    · exact safe_pure _
    · apply safe_bind (hf p (by omega))
      intro a _
      apply safe_bind (ih (by omega))
      exact fun _ _ => safe_pure _

theorem safe_rdChecked (hfin : fin ≤ b.size) {p : ℕ} (hp : p ≤ fin) :
    Safe (rdChecked f stride fin n p) := by
  induction n generalizing p with
  | zero => exact safe_pure _
  | succ n ih =>
    unfold rdChecked
    rw [remaining_of_le hp]
    split
    · exact safe_pure _
    · apply safe_bind (hf p (by omega))
      intro a _
      apply safe_bind (ih (by omega))
      exact fun _ _ => safe_pure _

omit hf in
theorem rdChecked_le {p : ℕ} (hp : p ≤ fin) {l : List α}
    (h : rdChecked f stride fin n p = .ok (some l)) : p + n * stride ≤ fin := by
  induction n generalizing p l with
  | zero => omega
  | succ n ih =>
    unfold rdChecked at h
    rw [remaining_of_le hp] at h
    split at h
    · cases h
    · obtain ⟨a, -, h⟩ := (bind_eq_ok _ _ _).mp h
      obtain ⟨rest, hrest, h⟩ := (bind_eq_ok _ _ _).mp h
      cases rest with
      | none => cases h
      | some rest =>
        have := ih (by omega) hrest
        rw [Nat.succ_mul]
        omega

end Checked

theorem safe_rdMemPlan {b : Buf} (h : rec + size ≤ b.size) : Safe (rdMemPlan b rec size) := by
  have hword : ∀ p, p + 4 ≤ b.size → Safe (rdU32 b p : Checked Unit UInt32) :=
    fun p hp => (reads_rdU32 b p).safe_iff.mpr hp
  unfold rdMemPlan
  split
  · exact safe_pure _
  · apply safe_bind (hword _ (by omega))
    intro ver _
    split
    · exact safe_pure _
    · apply safe_bind (hword _ (by omega))
      intro ddrCap _
      apply safe_bind (hword _ (by omega))
      intro vtcmCap _
      apply safe_bind (hword _ (by omega))
      intro bumpReserve _
      apply safe_bind (hword _ (by omega))
      intro ne _
      apply safe_bind (safe_rdChecked (fun p => (reads_rdPlanEntry b p).safe_iff.mpr) h (by omega))
      intro entries hentries
      cases entries with
      | none => exact safe_pure _
      | some entries =>
        have hle := rdChecked_le (by omega) hentries
        simp only
        rw [remaining_of_le hle]
        split
        · exact safe_pure _
        · apply safe_bind (hword _ (by omega))
          intro ns _
          apply safe_bind
            (safe_rdChecked (fun p => (reads_rdPlanSpill b p).safe_iff.mpr) h (by omega))
          exact fun _ _ => safe_pure _

/-! ### The op record -/

/-- The node name that the record announces at `p`, and the position after it. -/
def groupingAt (b : Buf) (fin p : ℕ) : List UInt8 × ℕ :=
  if 4 ≤ remaining fin p then
    if (padded (u32At b p)).toNat ≤ remaining fin (p + 4) then
      (bytesAt b (p + 4) (u32At b p).toNat, p + 4 + (padded (u32At b p)).toNat)
    else ([], p)
  else ([], p)

/-- The bytes of the node name are in the buffer. -/
def GroupingFits (b : Buf) (fin p : ℕ) : Prop :=
  4 ≤ remaining fin p → p + 4 ≤ b.size ∧
    ((padded (u32At b p)).toNat ≤ remaining fin (p + 4) → p + 4 + (u32At b p).toNat ≤ b.size)

theorem gets_rdGrouping (b : Buf) (fin p : ℕ) :
    Gets (GroupingFits b fin p) (rdGrouping b fin p) (groupingAt b fin p) := by
  apply Gets.congr (Gets.ite (Gets.bind (reads_rdU32 b p) fun hp =>
    Gets.ite (Gets.map (reads_rdBytes _ hp) _) (Gets.pure _)) (Gets.pure _))
  simp [GroupingFits]

/-- The trailing bytes that the record announces at `p`, and the position after them. -/
def extraAt (b : Buf) (fin p : ℕ) : List UInt8 × ℕ :=
  if 4 ≤ remaining fin p then
    if u32At b p ≠ 0 ∧ (u32At b p).toNat ≤ remaining fin (p + 4) then
      (bytesAt b (p + 4) (u32At b p).toNat, p + 4 + (u32At b p).toNat)
    else ([], p + 4)
  else ([], p)

/-- The trailing bytes are in the buffer. -/
def ExtraFits (b : Buf) (fin p : ℕ) : Prop :=
  4 ≤ remaining fin p → p + 4 ≤ b.size ∧
    (u32At b p ≠ 0 ∧ (u32At b p).toNat ≤ remaining fin (p + 4) →
      p + 4 + (u32At b p).toNat ≤ b.size)

theorem gets_rdExtra (b : Buf) (fin p : ℕ) :
    Gets (ExtraFits b fin p) (rdExtra b fin p) (extraAt b fin p) := by
  apply Gets.congr (Gets.ite (Gets.bind (reads_rdU32 b p) fun hp =>
    Gets.ite (Gets.map (reads_rdBytes _ hp) _) (Gets.pure _)) (Gets.pure _))
  simp [ExtraFits]

/-- The record announces ids of parameter constants at `p`. -/
def HasTensorParams (b : Buf) (fin p : ℕ) : Prop :=
  u32At b p ≠ 0 ∧ u32At b p ≤ 64 ∧ (u32At b p).toNat * 8 ≤ remaining fin (p + 4)

instance (b : Buf) (fin p : ℕ) : Decidable (HasTensorParams b fin p) :=
  inferInstanceAs (Decidable (_ ∧ _ ∧ _))

/-- The ids of parameter constants at `p`. -/
def tensorParamsAt (b : Buf) (fin p : ℕ) : List UInt64 :=
  if 4 ≤ remaining fin p then
    if HasTensorParams b fin p then
      (List.range (u32At b p).toNat).map fun i => u64At b (p + 4 + i * 8)
    else []
  else []

def TensorParamsFit (b : Buf) (fin p : ℕ) : Prop :=
  4 ≤ remaining fin p → p + 4 ≤ b.size ∧
    (HasTensorParams b fin p → p + 4 + (u32At b p).toNat * 8 ≤ b.size)

theorem gets_rdTensorParams (b : Buf) (fin p : ℕ) :
    Gets (TensorParamsFit b fin p) (rdTensorParams b fin p) (tensorParamsAt b fin p) := by
  apply Gets.congr (Gets.ite (Gets.bind (reads_rdU32 b p) fun hp =>
    Gets.ite (reads_rdTable (reads_rdU64 b) _ hp) (Gets.pure _)) (Gets.pure _))
  simp [TensorParamsFit, HasTensorParams]

/-- The position after the name of an op record. -/
def nameEnd (b : Buf) (rec : ℕ) : ℕ := rec + 4 + (padded (u32At b rec)).toNat

/-- The position of the id of an op record. -/
def fieldsAt (b : Buf) (rec fin : ℕ) : ℕ := (groupingAt b fin (nameEnd b rec)).2

def inputsEnd (b : Buf) (rec fin : ℕ) : ℕ :=
  fieldsAt b rec fin + 16 + (u32At b (fieldsAt b rec fin + 12)).toNat * 16

/-- The bytes of an op record are in the buffer, by the lengths it announces. -/
structure OpFits (b : Buf) (rec fin : ℕ) : Prop where
  name : rec + 4 + (u32At b rec).toNat ≤ b.size
  grouping : GroupingFits b fin (nameEnd b rec)
  fields : inputsEnd b rec fin + 120 ≤ b.size
  extra : ExtraFits b fin (inputsEnd b rec fin + 120)
  tensorParams : TensorParamsFit b fin (extraAt b fin (inputsEnd b rec fin + 120)).2

theorem gets_rdOpRecord (b : Buf) (rec fin : ℕ) :
    ∃ d, Gets (OpFits b rec fin) (rdOpRecord b rec fin) d := by
  apply Exists.intro
  apply Gets.congr (Gets.bind (reads_rdU32 b rec) fun h₁ =>
    Gets.bind (reads_rdBytes _ h₁) fun _ =>
    Gets.bind (gets_rdGrouping b fin _) fun _ =>
    Gets.bind (reads_rdU64 b _) fun _ =>
    Gets.bind (reads_rdU16 b _) fun _ =>
    Gets.bind (reads_rdU16 b _) fun _ =>
    Gets.bind (reads_rdU32 b _) fun h₂ =>
    Gets.bind (reads_rdTable (reads_rdInput b) _ h₂) fun _ =>
    Gets.bind (reads_rdOutputDef b _) fun _ =>
    Gets.bind (reads_rdU64 b _) fun _ =>
    Gets.bind (reads_rdU64 b _) fun _ =>
    Gets.bind (gets_rdExtra b fin _) fun _ =>
    Gets.map (gets_rdTensorParams b fin _) _)
  rw [show rec + 4 + (padded (u32At b rec)).toNat = nameEnd b rec from rfl,
    show (groupingAt b fin (nameEnd b rec)).2 = fieldsAt b rec fin from rfl,
    show fieldsAt b rec fin + 16 + (u32At b (fieldsAt b rec fin + 12)).toNat * 16 =
      inputsEnd b rec fin from rfl]
  constructor
  · rintro ⟨-, hname, hgrp, -, -, -, -, -, -, -, hfields, hextra, htp⟩
    exact ⟨hname, hgrp, by omega, hextra, htp⟩
  · rintro ⟨hname, hgrp, hfields, hextra, htp⟩
    have hend : inputsEnd b rec fin =
      fieldsAt b rec fin + 16 + (u32At b (fieldsAt b rec fin + 12)).toNat * 16 := rfl
    refine ⟨by omega, hname, hgrp, ?_, ?_, ?_, ?_, ?_, ?_, ?_, ?_, hextra, htp⟩ <;> omega

/-! ### Records -/

/-- The bytes that a record is read from without a check are in the buffer. -/
structure RecordFits (b : Buf) (tag : UInt32) (rec size : ℕ) : Prop where
  binHeader : tag = tagBinHeader → rec + 40 ≤ b.size
  graphHeader : tag = tagGraphHeader → rec + 4 ≤ b.size
  io : tag = tagIoTensorDesc → rec + 120 ≤ b.size
  op : tag = tagOpRecord → OpFits b rec (rec + size)

/-- The tags of the records that are read without a check. -/
def unchecked : List UInt32 := [tagBinHeader, tagGraphHeader, tagIoTensorDesc, tagOpRecord]

theorem recordFits_of_notMem {b : Buf} (h : tag ∉ unchecked) : RecordFits b tag rec size := by
  simp only [unchecked, List.mem_cons, List.not_mem_nil, or_false, not_or] at h
  exact ⟨fun e => absurd e h.1, fun e => absurd e h.2.1, fun e => absurd e h.2.2.1,
    fun e => absurd e h.2.2.2⟩

theorem safe_rdBytes {b : Buf} {p : ℕ} (h : p + n ≤ b.size) :
    Safe (rdBytes b p n : Checked Unit (List UInt8)) :=
  (reads_rdBytes n (by omega)).safe_iff.mpr h

theorem safe_bind_pure {α β : Type} {x : Checked Unit α} (g : α → β) :
    Safe (x >>= fun a => pure (g a)) ↔ Safe x := by
  cases x with
  | ok a => exact iff_of_true (safe_ok _) (safe_ok _)
  | error e => exact ⟨fun h he => h (by rw [he]; rfl), fun h he => h (by cases he; rfl)⟩

theorem safe_rdRecord_binHeader (b : Buf) (rec size : ℕ) :
    Safe (rdRecord b tagBinHeader rec size) ↔ rec + 40 ≤ b.size := by
  unfold rdRecord
  rw [if_pos rfl, (reads_rdU32 b rec).safe_bind_iff]
  constructor
  · rintro ⟨hle, hs⟩
    rw [(reads_rdBytes 36 hle).safe_bind_iff] at hs
    exact hs.1
  · intro hle
    refine ⟨by omega, ?_⟩
    rw [(reads_rdBytes 36 (by omega)).safe_bind_iff]
    refine ⟨by omega, ?_⟩
    split
    · exact safe_reject ()
    · exact safe_pure _

theorem safe_rdRecord_of_notMem {b : Buf} (h : rec + size ≤ b.size) (htag : tag ∉ unchecked) :
    Safe (rdRecord b tag rec size) := by
  have hdiv : ∀ k, rec + size / k * k ≤ b.size := fun k => by
    have := Nat.div_mul_le_self size k
    omega
  simp only [unchecked, List.mem_cons, List.not_mem_nil, or_false, not_or] at htag
  unfold rdRecord
  rw [if_neg htag.1, if_neg htag.2.1]
  by_cases h₁ : tag = tagSpillFillOp
  · rw [if_pos h₁]
    split
    · exact safe_pure _
    · rw [safe_bind_pure, (reads_rdSpillFill b rec).safe_iff]
      omega
  rw [if_neg h₁]
  by_cases h₂ : tag = tagPlanOrder
  · rw [if_pos h₂]
    split
    · exact safe_pure _
    · rw [(reads_rdU32 b rec).safe_bind_iff, safe_bind_pure]
      refine ⟨by omega, ?_⟩
      exact safe_rdWhile (fun p => (reads_rdPlanId b p).safe_iff.mpr) h (by omega)
  rw [if_neg h₂]
  by_cases h₃ : tag = tagMemPlan
  · rw [if_pos h₃]
    apply safe_bind (safe_rdMemPlan h)
    intro mp _
    cases mp with
    | none => exact safe_pure _
    | some mp => exact safe_pure _
  rw [if_neg h₃]
  by_cases h₄ : tag = tagConstExtent
  · rw [if_pos h₄, safe_bind_pure]
    exact safe_rdTable (fun p => (reads_rdConstExtent b p).safe_iff.mpr) (hdiv 32)
  rw [if_neg h₄]
  by_cases h₅ : tag = tagConstData
  · rw [if_pos h₅, safe_bind_pure]
    exact safe_rdBytes h
  rw [if_neg h₅]
  by_cases h₆ : tag = tagBlockTable
  · rw [if_pos h₆, safe_bind_pure]
    exact safe_rdTable (fun p => (reads_rdBlockEntry b p).safe_iff.mpr) (hdiv 24)
  rw [if_neg h₆]
  by_cases h₇ : tag = tagSegmentPlan
  · rw [if_pos h₇, safe_bind_pure]
    apply safe_rdTable _ (hdiv 24)
    exact fun p hp => (reads_rdSegmentPlan b p).safe_iff.mpr (by omega)
  rw [if_neg h₇, if_neg htag.2.2.1, if_neg htag.2.2.2]
  exact safe_pure _

theorem rdRecord_graphHeader (b : Buf) (rec size : ℕ) :
    rdRecord b tagGraphHeader rec size = (do
      let _ ← rdU32 b rec
      pure .skip) := rfl

theorem rdRecord_ioTensorDesc (b : Buf) (rec size : ℕ) :
    rdRecord b tagIoTensorDesc rec size = (do
      let d ← rdIoDesc b rec
      pure (.io d.1 d.2)) := rfl

theorem rdRecord_opRecord (b : Buf) (rec size : ℕ) :
    rdRecord b tagOpRecord rec size = (do
      let d ← rdOpRecord b rec (rec + size)
      pure (.op d.1 d.2)) := rfl

theorem safe_rdRecord_iff {b : Buf} (h : rec + size ≤ b.size) :
    Safe (rdRecord b tag rec size) ↔ RecordFits b tag rec size := by
  by_cases htag : tag ∈ unchecked
  · simp only [unchecked, List.mem_cons, List.not_mem_nil, or_false] at htag
    -- the tags are distinct, so that one field of `RecordFits` is about this record
    rcases htag with rfl | rfl | rfl | rfl
    · rw [safe_rdRecord_binHeader]
      constructor
      · exact fun hle => ⟨fun _ => hle, fun e => absurd e (by decide),
          fun e => absurd e (by decide), fun e => absurd e (by decide)⟩
      · exact fun hf => hf.binHeader rfl
    · rw [rdRecord_graphHeader, safe_bind_pure, (reads_rdU32 b rec).safe_iff]
      constructor
      · exact fun hle => ⟨fun e => absurd e (by decide), fun _ => hle,
          fun e => absurd e (by decide), fun e => absurd e (by decide)⟩
      · exact fun hf => hf.graphHeader rfl
    · rw [rdRecord_ioTensorDesc, safe_bind_pure, (reads_rdIoDesc b rec).safe_iff]
      constructor
      · exact fun hle => ⟨fun e => absurd e (by decide), fun e => absurd e (by decide),
          fun _ => hle, fun e => absurd e (by decide)⟩
      · exact fun hf => hf.io rfl
    · obtain ⟨d, hd⟩ := gets_rdOpRecord b rec (rec + size)
      rw [rdRecord_opRecord, safe_bind_pure, hd.safe_iff]
      constructor
      · exact fun hop => ⟨fun e => absurd e (by decide), fun e => absurd e (by decide),
          fun e => absurd e (by decide), fun _ => hop⟩
      · exact fun hf => hf.op rfl
  · exact iff_of_true (safe_rdRecord_of_notMem h htag) (recordFits_of_notMem htag)

/-! ### The walk -/

/-- The word at `p` separates records. -/
def SeparatorAt (b : Buf) (p : ℕ) : Prop :=
  u32At b p = separatorNormal ∨ u32At b p = separatorAux

/-- The word at `p` starts the header of a record. -/
def HeaderAt (b : Buf) (p : ℕ) : Prop := ¬ SeparatorAt b p ∧ u32At b p ≠ separatorEnd

/-- The bytes of the record whose header is at `p`. -/
def sizeAt (b : Buf) (p : ℕ) : ℕ := dataSize (u32At b (p + 4))

/-- The header of the file is the one of no graph or of too many. -/
def BadHeaderAt (b : Buf) (p : ℕ) : Prop :=
  tagOf (u32At b p) = tagBinHeader ∧ (u32At b (p + 12) = 0 ∨ 100 < u32At b (p + 12))

/-- The bytes that the walk from `p` on takes are in the buffer. It ends with the buffer, at an
end marker, at a record that is longer than the rest, or at a bad header of the file. -/
inductive RecordsFit (b : Buf) : ℕ → Prop where
  | done {p : ℕ} (h : b.size ≤ p) : RecordsFit b p
  | separator {p : ℕ} (h : p + 4 ≤ b.size) (hword : SeparatorAt b p)
      (hrest : RecordsFit b (p + 4)) : RecordsFit b p
  | stop {p : ℕ} (h : p + 4 ≤ b.size) (hword : u32At b p = separatorEnd) : RecordsFit b p
  | long {p : ℕ} (h : p + 12 ≤ b.size) (hword : HeaderAt b p)
      (hsize : b.size < p + 12 + sizeAt b p) : RecordsFit b p
  | refused {p : ℕ} (h : p + 12 + sizeAt b p ≤ b.size) (hword : HeaderAt b p)
      (hfits : RecordFits b (tagOf (u32At b p)) (p + 12) (sizeAt b p)) (hbad : BadHeaderAt b p) :
      RecordsFit b p
  | record {p : ℕ} (h : p + 12 + sizeAt b p ≤ b.size) (hword : HeaderAt b p)
      (hfits : RecordFits b (tagOf (u32At b p)) (p + 12) (sizeAt b p))
      (hrest : RecordsFit b (p + 12 + sizeAt b p)) : RecordsFit b p

/-! ### The walk ends -/

section OnlyFaults

variable {α : Type} {f : ℕ → Checked Unit α} {stride : ℕ} (hf : ∀ p, OnlyFaults (f p))

include hf

theorem onlyFaults_rdTable (n p : ℕ) : OnlyFaults (rdTable f stride n p) := by
  induction n generalizing p with
  | zero => exact onlyFaults_pure _
  | succ n ih =>
    apply onlyFaults_bind (hf p)
    exact fun _ => onlyFaults_bind (ih _) fun _ => onlyFaults_pure _

theorem onlyFaults_rdWhile (fin n p : ℕ) : OnlyFaults (rdWhile f stride fin n p) := by
  induction n generalizing p with
  | zero => exact onlyFaults_pure _
  | succ n ih =>
    apply onlyFaults_ite (onlyFaults_pure _)
    apply onlyFaults_bind (hf p)
    exact fun _ => onlyFaults_bind (ih _) fun _ => onlyFaults_pure _

theorem onlyFaults_rdChecked (fin n p : ℕ) : OnlyFaults (rdChecked f stride fin n p) := by
  induction n generalizing p with
  | zero => exact onlyFaults_pure _
  | succ n ih =>
    apply onlyFaults_ite (onlyFaults_pure _)
    apply onlyFaults_bind (hf p)
    exact fun _ => onlyFaults_bind (ih _) fun _ => onlyFaults_pure _

end OnlyFaults

theorem onlyFaults_rdU32 (b : Buf) (p : ℕ) : OnlyFaults (rdU32 b p : Checked Unit UInt32) :=
  (reads_rdU32 b p).onlyFaults

theorem onlyFaults_rdBytes (b : Buf) (p n : ℕ) :
    OnlyFaults (rdBytes b p n : Checked Unit (List UInt8)) := by
  apply onlyFaults_ite (onlyFaults_pure _)
  intro s hs
  cases hs
  rfl

theorem onlyFaults_rdMemPlan (b : Buf) (rec size : ℕ) : OnlyFaults (rdMemPlan b rec size) := by
  apply onlyFaults_ite (onlyFaults_pure _)
  apply onlyFaults_bind (onlyFaults_rdU32 b _)
  intro ver
  apply onlyFaults_ite (onlyFaults_pure _)
  apply onlyFaults_bind (onlyFaults_rdU32 b _)
  intro ddrCap
  apply onlyFaults_bind (onlyFaults_rdU32 b _)
  intro vtcmCap
  apply onlyFaults_bind (onlyFaults_rdU32 b _)
  intro bumpReserve
  apply onlyFaults_bind (onlyFaults_rdU32 b _)
  intro ne
  apply onlyFaults_bind (onlyFaults_rdChecked (fun p => (reads_rdPlanEntry b p).onlyFaults) _ _ _)
  intro entries
  cases entries with
  | none => exact onlyFaults_pure _
  | some entries =>
    apply onlyFaults_ite (onlyFaults_pure _)
    apply onlyFaults_bind (onlyFaults_rdU32 b _)
    intro ns
    apply onlyFaults_bind
      (onlyFaults_rdChecked (fun p => (reads_rdPlanSpill b p).onlyFaults) _ _ _)
    exact fun _ => onlyFaults_pure _

theorem onlyFaults_rdRecord (htag : tag ≠ tagBinHeader) (b : Buf) (rec size : ℕ) :
    OnlyFaults (rdRecord b tag rec size) := by
  unfold rdRecord
  rw [if_neg htag]
  apply onlyFaults_ite
  · exact onlyFaults_bind (onlyFaults_rdU32 b _) fun _ => onlyFaults_pure _
  apply onlyFaults_ite
  · apply onlyFaults_ite (onlyFaults_pure _)
    exact onlyFaults_bind (reads_rdSpillFill b _).onlyFaults fun _ => onlyFaults_pure _
  apply onlyFaults_ite
  · apply onlyFaults_ite (onlyFaults_pure _)
    apply onlyFaults_bind (onlyFaults_rdU32 b _)
    intro cnt
    apply onlyFaults_bind (onlyFaults_rdWhile (fun p => (reads_rdPlanId b p).onlyFaults) _ _ _)
    exact fun _ => onlyFaults_pure _
  apply onlyFaults_ite
  · apply onlyFaults_bind (onlyFaults_rdMemPlan b _ _)
    intro mp
    cases mp with
    | none => exact onlyFaults_pure _
    | some mp => exact onlyFaults_pure _
  apply onlyFaults_ite
  · apply onlyFaults_bind (onlyFaults_rdTable (fun p => (reads_rdConstExtent b p).onlyFaults) _ _)
    exact fun _ => onlyFaults_pure _
  apply onlyFaults_ite
  · exact onlyFaults_bind (onlyFaults_rdBytes b _ _) fun _ => onlyFaults_pure _
  apply onlyFaults_ite
  · apply onlyFaults_bind (onlyFaults_rdTable (fun p => (reads_rdBlockEntry b p).onlyFaults) _ _)
    exact fun _ => onlyFaults_pure _
  apply onlyFaults_ite
  · apply onlyFaults_bind (onlyFaults_rdTable (fun p => (reads_rdSegmentPlan b p).onlyFaults) _ _)
    exact fun _ => onlyFaults_pure _
  apply onlyFaults_ite
  · exact onlyFaults_bind (reads_rdIoDesc b _).onlyFaults fun _ => onlyFaults_pure _
  apply onlyFaults_ite
  · obtain ⟨d, hd⟩ := gets_rdOpRecord b rec (rec + size)
    exact onlyFaults_bind hd.onlyFaults fun _ => onlyFaults_pure _
  exact onlyFaults_pure _

theorem rdRecord_binHeader {b : Buf} (size : ℕ) (h : rec + 40 ≤ b.size) :
    rdRecord b tagBinHeader rec size =
      if u32At b rec = 0 ∨ 100 < u32At b rec then .error (.reject ()) else pure .skip := by
  have hword : (rdU32 b rec : Checked Unit UInt32) = .ok (u32At b rec) :=
    (reads_rdU32 b rec).ok (by omega)
  have hbytes : (rdBytes b (rec + 4) 36 : Checked Unit (List UInt8)) =
      .ok (bytesAt b (rec + 4) 36) := (reads_rdBytes 36 (by omega)).ok (by omega)
  unfold rdRecord
  rw [if_pos rfl, hword]
  show (rdBytes b (rec + 4) 36 >>= fun _ => _) = _
  rw [hbytes]
  rfl

theorem ends_rdRecord (b : Buf) (tag : UInt32) (rec size : ℕ) :
    Ends (rdRecord b tag rec size) := by
  by_cases htag : tag = tagBinHeader
  · unfold rdRecord
    rw [if_pos htag]
    apply ends_bind (onlyFaults_rdU32 b _).ends
    intro numGraphs
    apply ends_bind (onlyFaults_rdBytes b _ _).ends
    exact fun _ => ends_ite (ends_reject ()) (ends_pure _)
  · exact (onlyFaults_rdRecord htag b rec size).ends

theorem ends_rdRecords {b : Buf} {fuel p : ℕ} (h : b.size - p < fuel) :
    Ends (rdRecords b fuel p) := by
  induction fuel generalizing p with
  | zero => omega
  | succ fuel ih =>
    unfold rdRecords
    split
    · exact ends_pure _
    · apply ends_bind (onlyFaults_rdU32 b p).ends
      intro word0
      apply ends_ite (ih (by omega))
      apply ends_ite (ends_pure _)
      apply ends_bind (onlyFaults_rdU32 b _).ends
      intro wordCount
      apply ends_bind (onlyFaults_rdU32 b _).ends
      intro _
      apply ends_ite (ends_reject ())
      apply ends_bind (ends_rdRecord b _ _ _)
      intro r
      exact ends_bind (ih (by omega)) fun _ => ends_pure _

/-! ### The walk stays inside -/

theorem rdRecord_cases {b : Buf} {p : ℕ} (h : p + 12 + sizeAt b p ≤ b.size)
    (hfits : RecordFits b (tagOf (u32At b p)) (p + 12) (sizeAt b p)) :
    (BadHeaderAt b p ∧ rdRecord b (tagOf (u32At b p)) (p + 12) (sizeAt b p) =
      .error (.reject ())) ∨
      ∃ r, rdRecord b (tagOf (u32At b p)) (p + 12) (sizeAt b p) = .ok r := by
  by_cases htag : tagOf (u32At b p) = tagBinHeader
  · have heq := rdRecord_binHeader (sizeAt b p) (hfits.binHeader htag)
    rw [← htag] at heq
    rw [heq]
    split
    · rename_i hbad
      exact .inl ⟨⟨htag, hbad⟩, rfl⟩
    · exact .inr ⟨.skip, rfl⟩
  · exact .inr ((onlyFaults_rdRecord htag b _ _).eq_ok ((safe_rdRecord_iff h).mpr hfits))

section Rounds

variable {b : Buf} {p : ℕ} (fuel : ℕ)

theorem rdRecords_done (h : b.size ≤ p) : rdRecords b (fuel + 1) p = pure [] := by
  unfold rdRecords
  rw [if_pos h]

theorem rdRecords_word (h : p < b.size) : rdRecords b (fuel + 1) p = (do
    let word0 ← rdU32 b p
    if word0 = separatorNormal ∨ word0 = separatorAux then rdRecords b fuel (p + 4)
    else if word0 = separatorEnd then pure []
    else do
      let wordCount ← rdU32 b (p + 4)
      let _ ← rdU32 b (p + 8)
      if b.size - (p + 12) < dataSize wordCount then .error (.reject ())
      else do
        let r ← rdRecord b (tagOf word0) (p + 12) (dataSize wordCount)
        let rest ← rdRecords b fuel (p + 12 + dataSize wordCount)
        pure (r :: rest)) := by
  rw [rdRecords, if_neg (by omega)]

theorem rdRecords_separator (h : p + 4 ≤ b.size) (hword : SeparatorAt b p) :
    rdRecords b (fuel + 1) p = rdRecords b fuel (p + 4) := by
  rw [rdRecords_word fuel (by omega), (reads_rdU32 b p).ok h]
  exact if_pos hword

theorem rdRecords_stop (h : p + 4 ≤ b.size) (hword : u32At b p = separatorEnd) :
    rdRecords b (fuel + 1) p = pure [] := by
  have hsep : ¬ SeparatorAt b p := by
    unfold SeparatorAt
    rw [hword]
    decide
  rw [rdRecords_word fuel (by omega), (reads_rdU32 b p).ok h]
  exact (if_neg hsep).trans (if_pos hword)

theorem rdRecords_header (h : p + 4 ≤ b.size) (hword : HeaderAt b p) :
    rdRecords b (fuel + 1) p = (do
      let wordCount ← rdU32 b (p + 4)
      let _ ← rdU32 b (p + 8)
      if b.size - (p + 12) < dataSize wordCount then .error (.reject ())
      else do
        let r ← rdRecord b (tagOf (u32At b p)) (p + 12) (dataSize wordCount)
        let rest ← rdRecords b fuel (p + 12 + dataSize wordCount)
        pure (r :: rest)) := by
  rw [rdRecords_word fuel (by omega), (reads_rdU32 b p).ok h]
  exact (if_neg hword.1).trans (if_neg hword.2)

theorem rdRecords_long (h : p + 12 ≤ b.size) (hword : HeaderAt b p)
    (hsize : b.size < p + 12 + sizeAt b p) :
    rdRecords b (fuel + 1) p = .error (.reject ()) := by
  rw [rdRecords_header fuel (by omega) hword, (reads_rdU32 b (p + 4)).ok (by omega)]
  show (rdU32 b (p + 8) >>= fun _ => _) = _
  rw [(reads_rdU32 b (p + 8)).ok (by omega)]
  exact if_pos (show b.size - (p + 12) < sizeAt b p by omega)

theorem rdRecords_record (h : p + 12 + sizeAt b p ≤ b.size) (hword : HeaderAt b p) :
    rdRecords b (fuel + 1) p = (do
      let r ← rdRecord b (tagOf (u32At b p)) (p + 12) (sizeAt b p)
      let rest ← rdRecords b fuel (p + 12 + sizeAt b p)
      pure (r :: rest)) := by
  rw [rdRecords_header fuel (by omega) hword, (reads_rdU32 b (p + 4)).ok (by omega)]
  show (rdU32 b (p + 8) >>= fun _ => _) = _
  rw [(reads_rdU32 b (p + 8)).ok (by omega)]
  exact if_neg (show ¬ b.size - (p + 12) < sizeAt b p by omega)

theorem word_of_safe (h : p < b.size) (hs : Safe (rdRecords b (fuel + 1) p)) :
    p + 4 ≤ b.size := by
  rw [rdRecords_word fuel h, (reads_rdU32 b p).safe_bind_iff] at hs
  exact hs.1

theorem header_of_safe (h : p + 4 ≤ b.size) (hword : HeaderAt b p)
    (hs : Safe (rdRecords b (fuel + 1) p)) : p + 12 ≤ b.size := by
  rw [rdRecords_header fuel h hword, (reads_rdU32 b (p + 4)).safe_bind_iff,
    (reads_rdU32 b (p + 8)).safe_bind_iff] at hs
  omega

end Rounds

theorem safe_rdRecords {b : Buf} {p : ℕ} (hfit : RecordsFit b p) {fuel : ℕ}
    (h : b.size - p < fuel) : Safe (rdRecords b fuel p) := by
  induction hfit generalizing fuel with
  | done hp =>
    obtain ⟨fuel, rfl⟩ := Nat.exists_eq_succ_of_ne_zero (show fuel ≠ 0 by omega)
    rw [rdRecords_done fuel hp]
    exact safe_pure _
  | separator hp hword hrest ih =>
    obtain ⟨fuel, rfl⟩ := Nat.exists_eq_succ_of_ne_zero (show fuel ≠ 0 by omega)
    rw [rdRecords_separator fuel hp hword]
    exact ih (by omega)
  | stop hp hword =>
    obtain ⟨fuel, rfl⟩ := Nat.exists_eq_succ_of_ne_zero (show fuel ≠ 0 by omega)
    rw [rdRecords_stop fuel hp hword]
    exact safe_pure _
  | long hp hword hsize =>
    obtain ⟨fuel, rfl⟩ := Nat.exists_eq_succ_of_ne_zero (show fuel ≠ 0 by omega)
    rw [rdRecords_long fuel hp hword hsize]
    exact safe_reject ()
  | @refused p hp hword hfits hbad =>
    obtain ⟨fuel, rfl⟩ := Nat.exists_eq_succ_of_ne_zero (show fuel ≠ 0 by omega)
    have heq := rdRecord_binHeader (sizeAt b p) (hfits.binHeader hbad.1)
    rw [← hbad.1, if_pos hbad.2] at heq
    rw [rdRecords_record fuel hp hword, heq]
    exact safe_reject ()
  | record hp hword hfits hrest ih =>
    obtain ⟨fuel, rfl⟩ := Nat.exists_eq_succ_of_ne_zero (show fuel ≠ 0 by omega)
    rw [rdRecords_record fuel hp hword]
    apply safe_bind ((safe_rdRecord_iff hp).mpr hfits)
    intro r _
    exact safe_bind (ih (by omega)) fun _ _ => safe_pure _

theorem recordsFit_of_safe {b : Buf} {fuel p : ℕ} (h : b.size - p < fuel)
    (hs : Safe (rdRecords b fuel p)) : RecordsFit b p := by
  induction fuel generalizing p with
  | zero => omega
  | succ fuel ih =>
    by_cases hdone : b.size ≤ p
    · exact .done hdone
    have h4 := word_of_safe fuel (not_le.mp hdone) hs
    by_cases hsep : SeparatorAt b p
    · rw [rdRecords_separator fuel h4 hsep] at hs
      exact .separator h4 hsep (ih (by omega) hs)
    by_cases hend : u32At b p = separatorEnd
    · exact .stop h4 hend
    have hword : HeaderAt b p := ⟨hsep, hend⟩
    have h12 := header_of_safe fuel h4 hword hs
    by_cases hlong : b.size < p + 12 + sizeAt b p
    · exact .long h12 hword hlong
    have hin := not_lt.mp hlong
    rw [rdRecords_record fuel hin hword] at hs
    -- the record is read first, and then, unless it is refused, the rest
    have hfits : RecordFits b (tagOf (u32At b p)) (p + 12) (sizeAt b p) := by
      apply (safe_rdRecord_iff hin).mp
      intro hfault
      rw [hfault] at hs
      exact hs rfl
    obtain ⟨hbad, -⟩ | ⟨r, hr⟩ := rdRecord_cases hin hfits
    · exact .refused hin hword hfits hbad
    · rw [hr] at hs
      apply RecordsFit.record hin hword hfits
      exact ih (by omega) ((safe_bind_pure _).mp hs)

/-- For every buffer: the deserializer ends, and it reads inside of the buffer only exactly if
the bytes of every record it meets are there. A buffer of less than four bytes is refused.
SOURCE: graph_prepare.cpp:2473-2483, 2561-2825 -/
theorem deserialize_reads_inside_iff (b : Buf) (gp : GraphPrepare) :
    Ends (deserialize b gp) ∧
      (Safe (deserialize b gp) ↔ (4 ≤ b.size → RecordsFit b 0)) := by
  have hfuel : b.size - 0 < b.size + 1 := by omega
  unfold deserialize
  by_cases h4 : 4 ≤ b.size
  · have hguard : ensure (4 ≤ b.size) () = .ok () := ensure_of _ _ h4
    rw [hguard]
    constructor
    · apply ends_bind (ends_ok ())
      exact fun _ => ends_bind (ends_rdRecords hfuel) fun _ => ends_pure _
    · refine (safe_bind_pure _).trans ?_
      constructor
      · exact fun hs _ => recordsFit_of_safe hfuel hs
      · exact fun hfit => safe_rdRecords (hfit h4) hfuel
  · have hguard : ensure (4 ≤ b.size) () = .error (.reject ()) := if_neg h4
    rw [hguard]
    exact ⟨ends_reject (), iff_of_true (safe_reject ()) fun h => absurd h h4⟩

theorem truncatedHeader_size : (List.replicate 4 (0 : UInt8)).length < 2 ^ 64 := by decide

/-- Four zero bytes: a header of a record that has no size. -/
def truncatedHeader : Buf := ⟨List.replicate 4 0, truncatedHeader_size⟩

/-- The bytes of an op record of one word, whose name has a length of 100. -/
def longNameBytes : List UInt8 :=
  [0xAF, 0xB0, 0x50, 0x4F, 1, 0, 0, 0, 1, 0, 0, 0, 100, 0, 0, 0]

theorem longName_size : longNameBytes.length < 2 ^ 64 := by decide

def longName : Buf := ⟨longNameBytes, longName_size⟩

/-- Both buffers are read past their end. -/
theorem deserialize_reads_outside :
    deserialize truncatedHeader GraphPrepare.new = .error .fault ∧
      deserialize longName GraphPrepare.new = .error .fault := by
  constructor <;> decide

end Gehtp.Analysis.DeserializeBounds
