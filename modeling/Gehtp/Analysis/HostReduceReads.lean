import Mathlib.Data.List.Perm.Subperm
import Gehtp.Model.HostKernels

/-!
# What a reduction on the host combines

For a place of the output the kernel hands the coordinates of the output's axes, in order, to the axes
of the input that are kept. That is right if the output has no other axes in front of them. If the
axes of the output stand elsewhere, because a reduced axis keeps its size 1 or because the shape is
filled up in front, the right elements are combined exactly if the strides at the axes that are not of
size 1 come out the same.
-/

set_option autoImplicit false

namespace Gehtp.Analysis.HostReduceReads

open Lib Lib.RowMajor Lib.Axes Model.DeviceTensor Model.HostKernels

section Definitions

variable (op : ReduceOp)

/-- The sizes of the axes that are kept. -/
def keptDims : List ℕ := select false op.red op.inDims

/-- The sizes of the axes that are reduced. -/
def redDims : List ℕ := select true op.red op.inDims

/-- The place of the output that agrees with an element of the input on the axes that are kept. Axes of
size 1 in the output's shape do not matter for it. -/
def target (p : ℕ) : ℕ := lin (keptDims op) (select false op.red (coords op.inDims p))

/-- The shapes of the reduction: up to five axes, sizes of 32 bits as the loader has them, and an output
that has the sizes of the axes that are kept in order, with axes of size 1 anywhere: those that are
reduced and keep a size, or those that fill the shape up. -/
structure Shaped : Prop where
  rank : op.inDims.length ≤ 5
  outRank : op.outDims.length ≤ 5
  sizes : ∀ d ∈ op.inDims, d < 2 ^ 32
  kept : op.outDims.filter (· ≠ 1) = (keptDims op).filter (· ≠ 1)

/-- Every element of the input is combined into the place that agrees with it, once, and nothing else
is. Only an input without elements may have no buffer. -/
def Right : Prop :=
  ∀ hasBuffer, (hasBuffer = false → op.inDims.prod = 0) → ∀ i < op.outDims.prod,
    ∃ ps, op.elementsRead hasBuffer i = .ok ps ∧
      ps.Perm ((List.range op.inDims.prod).filter fun p => target op p = i)

/-- The strides at the output's axes that are not of size 1, as the kernel takes them, and as they are
for the axes of the input that these stand for. -/
def StridesAgree : Prop :=
  strideAt op.outDims (select false op.red (strides op.inDims)) =
    strideAt (keptDims op) (select false op.red (strides op.inDims))

instance : Decidable (StridesAgree op) := inferInstanceAs (Decidable (_ = _))

theorem length_red : op.red.length = op.inDims.length := by
  unfold ReduceOp.red
  split
  · exact List.length_replicate
  · exact List.length_replicate
  · rw [List.length_map, List.length_range]

end Definitions

/-! ### Places -/

section Places

variable {op : ReduceOp}

theorem dims_eq (h : Shaped op) : op.inDims.map u32 = op.inDims := by
  rw [List.map_congr_left fun d hd => u32_of_lt (h.sizes d hd), List.map_id']

theorem outDims_eq (h : Shaped op) : op.outDims.map u32 = op.outDims := by
  have hlt (d : ℕ) (hd : d ∈ op.outDims) : d < 2 ^ 32 := by
    by_cases hone : d = 1
    · rw [hone]
      decide
    · have hmem : d ∈ op.outDims.filter (· ≠ 1) := List.mem_filter.mpr ⟨hd, decide_eq_true hone⟩
      rw [h.kept] at hmem
      exact h.sizes d (mem_of_mem_select (List.mem_of_mem_filter hmem))
  rw [List.map_congr_left fun d hd => u32_of_lt (hlt d hd), List.map_id']

theorem inStrides_eq (h : Shaped op) : op.inStrides = strides op.inDims := by
  rw [ReduceOp.inStrides, pad5, dims_eq h, strides_append_ones, List.take_append_of_le_length]
  · exact List.take_of_length_le (length_strides _).le
  · exact (length_strides _).ge

theorem outDims_prod (h : Shaped op) : op.outDims.prod = (keptDims op).prod := by
  rw [← prod_filter_ne_one, h.kept, prod_filter_ne_one]

theorem lin_split {cs : List ℕ} (hcs : Within cs op.inDims) :
    lin op.inDims cs =
      dot (select false op.red (strides op.inDims)) (select false op.red cs) +
        dot (select true op.red (strides op.inDims)) (select true op.red cs) := by
  rw [← dot_strides]
  apply dot_select
  · rw [length_red, length_strides]
  · rw [hcs.length_eq, length_strides]

end Places

/-! ### What the kernel reads -/

section Reads

variable {op : ReduceOp} {i : ℕ}

theorem walk_take {ss cs : List ℕ} (h : walk ss i = .ok cs) (n : ℕ) :
    walk (ss.take n) i = .ok (cs.take n) := by
  induction ss generalizing i cs n with
  | nil =>
    cases h
    rw [List.take_nil]
    rfl
  | cons s ss ih =>
    cases n with
    | zero => rfl
    | succ n =>
      rw [walk] at h
      split at h
      · cases h
      · obtain ⟨cs', hcs', rfl⟩ := (map_eq_ok _ _ _).mp h
        rw [List.take_succ_cons, walk, if_neg ‹_›, ih hcs' n]
        rfl

theorem dot_take {ss cs : List ℕ} {n : ℕ} (h : min ss.length cs.length ≤ n) :
    dot ss (cs.take n) = dot ss cs := by
  induction ss generalizing cs n with
  | nil => rfl
  | cons s ss ih =>
    cases cs with
    | nil => rw [List.take_nil]
    | cons c cs =>
      rw [List.length_cons, List.length_cons] at h
      obtain ⟨n, rfl⟩ : ∃ k, n = k + 1 := ⟨n - 1, by omega⟩
      rw [List.take_succ_cons, dot_cons, dot_cons, ih (by omega)]

theorem base_eq (h : Shaped op) (hi : i < op.outDims.prod) :
    op.base i = .ok (dot (select false op.red (strides op.inDims)) (coords op.outDims i)) := by
  have hwalk : walk (strides op.outDims) i = .ok (coords op.outDims i) :=
    walk_strides (by omega) i
  have hlen : (strides op.outDims).length = op.outDims.length := length_strides _
  unfold ReduceOp.base
  simp only [inStrides_eq h, pad5, outDims_eq h, strides_append_ones]
  rw [List.take_append_of_le_length (by omega), walk_take hwalk]
  show Except.ok _ = _
  rw [dot_take (by rw [length_coords])]

theorem offset_eq (ds ss : List ℕ) (r : ℕ) :
    ReduceOp.offset ds ss r = dot ss (digits ds r) := by
  induction ds generalizing ss r with
  | nil =>
    cases ss with
    | nil => rfl
    | cons s ss => rfl
  | cons d ds ih =>
    cases ss with
    | nil => rfl
    | cons s ss => rw [ReduceOp.offset, digits, dot_cons, ih]

theorem elementsRead_eq (h : Shaped op) (hknown : op.isKnown = true)
    (hi : i < op.outDims.prod) :
    op.elementsRead true i = .ok ((List.range (redDims op).prod).map fun r =>
      dot (select false op.red (strides op.inDims)) (coords op.outDims i) +
        dot (select true op.red (strides op.inDims)) (digits (redDims op) r)) := by
  unfold ReduceOp.elementsRead
  rw [if_neg (by decide), if_pos hknown, base_eq h hi]
  simp only [dims_eq h, inStrides_eq h, offset_eq]
  rfl

/-- The same with the coordinates that agree with the place. -/
def agreeing (op : ReduceOp) (i r : ℕ) : List ℕ :=
  weave op.red (coords (keptDims op) i) (digits (redDims op) r)

theorem agreeing_spec (hi : i < (keptDims op).prod) {r : ℕ} (hr : r < (redDims op).prod) :
    Within (agreeing op i r) op.inDims ∧
      select false op.red (agreeing op i r) = coords (keptDims op) i ∧
      select true op.red (agreeing op i r) = digits (redDims op) r :=
  weave_spec (length_red op) (coords_within hi) (digits_within hr)

theorem agreeing_perm (hi : i < (keptDims op).prod) :
    ((List.range (redDims op).prod).map fun r => lin op.inDims (agreeing op i r)).Perm
      ((List.range op.inDims.prod).filter fun p => target op p = i) := by
  have hlen := length_red op
  rw [List.perm_ext_iff_of_nodup]
  · intro p
    rw [List.mem_map, List.mem_filter, List.mem_range, decide_eq_true_iff]
    constructor
    · rintro ⟨r, hr, rfl⟩
      obtain ⟨hin, hkept, -⟩ := agreeing_spec hi (List.mem_range.mp hr)
      refine ⟨lin_lt hin, ?_⟩
      rw [target, coords_lin hin, hkept, lin_coords hi]
    · rintro ⟨hp, htarget⟩
      have hcs := coords_within hp
      have hkept : select false op.red (coords op.inDims p) = coords (keptDims op) i := by
        rw [← htarget, target]
        exact (coords_lin (select_within false op.red hcs)).symm
      obtain ⟨hr, hdigits⟩ := digits_undigits (select_within true op.red hcs)
      refine ⟨_, List.mem_range.mpr hr, ?_⟩
      rw [agreeing, redDims, hdigits, ← hkept, weave_select (hlen.trans hcs.length_eq.symm),
        lin_coords hp]
  · apply (List.nodup_map_iff_inj_on List.nodup_range).mpr
    intro r hr r' hr' heq
    obtain ⟨hin, -, hdigits⟩ := agreeing_spec hi (List.mem_range.mp hr)
    obtain ⟨hin', -, hdigits'⟩ := agreeing_spec hi (List.mem_range.mp hr')
    have hsame := lin_injective hin hin' heq
    rw [hsame, hdigits'] at hdigits
    rw [← undigits_digits (List.mem_range.mp hr), ← undigits_digits (List.mem_range.mp hr'),
      hdigits]
  · exact List.nodup_range.filter _

theorem lin_agreeing (hi : i < (keptDims op).prod) {r : ℕ} (hr : r < (redDims op).prod) :
    lin op.inDims (agreeing op i r) =
      dot (select false op.red (strides op.inDims)) (coords (keptDims op) i) +
        dot (select true op.red (strides op.inDims)) (digits (redDims op) r) := by
  obtain ⟨hin, hkept, hdigits⟩ := agreeing_spec hi hr
  rw [lin_split hin, hkept, hdigits]

end Reads

/-! ### When the right elements are read -/

section Main

variable {op : ReduceOp}

theorem base_split (h : Shaped op) {i : ℕ} (hi : i < op.outDims.prod) :
    dot (select false op.red (strides op.inDims)) (coords op.outDims i) =
        dot (strideAt op.outDims (select false op.red (strides op.inDims)))
          (coords (op.outDims.filter (· ≠ 1)) i) ∧
      dot (select false op.red (strides op.inDims)) (coords (keptDims op) i) =
        dot (strideAt (keptDims op) (select false op.red (strides op.inDims)))
          (coords (op.outDims.filter (· ≠ 1)) i) := by
  constructor
  · exact dot_coords _ hi
  · rw [outDims_prod h] at hi
    rw [h.kept]
    exact dot_coords _ hi

theorem reads_of_agree (h : Shaped op) (hknown : op.isKnown = true) (hagree : StridesAgree op)
    {i : ℕ} (hi : i < op.outDims.prod) :
    ∃ ps, op.elementsRead true i = .ok ps ∧
      ps.Perm ((List.range op.inDims.prod).filter fun p => target op p = i) := by
  refine ⟨_, elementsRead_eq h hknown hi, ?_⟩
  have hi' : i < (keptDims op).prod := by
    rw [← outDims_prod h]
    exact hi
  obtain ⟨hout, hkept⟩ := base_split h hi
  have hagree' : strideAt op.outDims (select false op.red (strides op.inDims)) =
      strideAt (keptDims op) (select false op.red (strides op.inDims)) := hagree
  have hsame : ((List.range (redDims op).prod).map fun r =>
      dot (select false op.red (strides op.inDims)) (coords op.outDims i) +
        dot (select true op.red (strides op.inDims)) (digits (redDims op) r)) =
      (List.range (redDims op).prod).map fun r => lin op.inDims (agreeing op i r) := by
    apply List.map_congr_left
    intro r hr
    rw [lin_agreeing hi' (List.mem_range.mp hr), hout, hkept, hagree']
  rw [hsame]
  exact agreeing_perm hi'

theorem reads_of_empty (h : Shaped op) (hknown : op.isKnown = true) (hne : op.inDims.prod = 0)
    {i : ℕ} (hi : i < op.outDims.prod) : op.elementsRead true i = .ok [] := by
  have hprod := prod_select (length_red op)
  rw [hne] at hprod
  rw [outDims_prod h] at hi
  have hred : (redDims op).prod = 0 := (Nat.mul_eq_zero.mp hprod).resolve_left fun h0 => by
    rw [keptDims, h0] at hi
    exact Nat.not_lt_zero i hi
  rw [elementsRead_eq h hknown (by rw [outDims_prod h]; exact hi), hred]
  rfl

theorem right_known (h : Shaped op) (hknown : op.isKnown = true)
    (hfits : op.inDims.prod = 0 ∨ StridesAgree op) : Right op := by
  intro hasBuffer hnone i hi
  cases hasBuffer with
  | false =>
    refine ⟨[], rfl, ?_⟩
    rw [hnone rfl]
    exact List.Perm.refl _
  | true =>
    cases hfits with
    | inl hne =>
      refine ⟨[], reads_of_empty h hknown hne hi, ?_⟩
      rw [hne]
      exact List.Perm.refl _
    | inr hagree => exact reads_of_agree h hknown hagree hi

theorem agree_of_right (h : Shaped op) (hne : op.inDims.prod ≠ 0) (hknown : op.isKnown = true)
    (hright : Right op) : StridesAgree op := by
  have hlen := length_red op
  have hprod := prod_select hlen
  have hred : 0 < (redDims op).prod := Nat.pos_of_ne_zero fun h0 => by
    rw [redDims] at h0
    rw [h0, Nat.mul_zero] at hprod
    exact hne hprod.symm
  have hkept : (keptDims op).prod ≠ 0 := fun h0 => by
    rw [keptDims] at h0
    rw [h0, Nat.zero_mul] at hprod
    exact hne hprod.symm
  have hbig : ∀ d ∈ op.outDims.filter (· ≠ 1), 2 ≤ d := by
    intro d hd
    have hone : d ≠ 1 := of_decide_eq_true (List.mem_filter.mp hd).2
    have hzero : d ≠ 0 := fun h0 => by
      rw [h0] at hd
      have hprod0 : op.outDims.prod = 0 := List.prod_eq_zero (List.mem_filter.mp hd).1
      rw [outDims_prod h] at hprod0
      exact hkept hprod0
    omega
  apply eq_of_dot_eq hbig (length_strideAt _ _)
  · rw [length_strideAt, h.kept]
  intro cs hcs
  have hi : lin (op.outDims.filter (· ≠ 1)) cs < op.outDims.prod := by
    rw [← prod_filter_ne_one]
    exact lin_lt hcs
  generalize hplace : lin (op.outDims.filter (· ≠ 1)) cs = i at hi
  have hcoords : coords (op.outDims.filter (· ≠ 1)) i = cs := by rw [← hplace, coords_lin hcs]
  have hi' : i < (keptDims op).prod := by
    rw [← outDims_prod h]
    exact hi
  obtain ⟨hout, hkept'⟩ := base_split h hi
  obtain ⟨ps, hps, hperm⟩ := hright true (fun h0 => by cases h0) i hi
  rw [elementsRead_eq h hknown hi] at hps
  cases hps
  -- the smallest place of both sets
  have hfirst := hperm.mem_iff.mp (List.mem_map.mpr ⟨0, List.mem_range.mpr hred, rfl⟩)
  have hsecond := (agreeing_perm hi').mem_iff.mp
    (List.mem_map.mpr ⟨0, List.mem_range.mpr hred, rfl⟩)
  obtain ⟨r, hr, hr'⟩ := List.mem_map.mp ((agreeing_perm hi').mem_iff.mpr hfirst)
  obtain ⟨r₂, -, hr₂'⟩ := List.mem_map.mp (hperm.mem_iff.mpr hsecond)
  rw [lin_agreeing hi' (List.mem_range.mp hr), digits_zero, dot_zeros] at hr'
  rw [lin_agreeing hi' hred, digits_zero, dot_zeros] at hr₂'
  rw [hcoords] at hout hkept'
  omega

theorem right_unknown_iff (h : Shaped op) (hknown : op.isKnown = false) :
    Right op ↔ op.outDims.prod = 0 ∨ (redDims op).prod = 1 := by
  have hlen := length_red op
  have hprod : (keptDims op).prod * (redDims op).prod = op.inDims.prod := prod_select hlen
  have hread (i : ℕ) : op.elementsRead true i = .ok [i] := by
    unfold ReduceOp.elementsRead
    rw [if_neg (by decide), hknown]
    rfl
  by_cases hout : op.outDims.prod = 0
  · refine iff_of_true ?_ (.inl hout)
    intro hasBuffer _ i hi
    rw [hout] at hi
    exact absurd hi (Nat.not_lt_zero i)
  have hfirst : 0 < (keptDims op).prod := by
    rw [← outDims_prod h]
    exact Nat.pos_of_ne_zero hout
  constructor
  · intro hright
    obtain ⟨ps, hps, hperm⟩ := hright true (fun h0 => by cases h0) 0 (Nat.pos_of_ne_zero hout)
    rw [hread] at hps
    cases hps
    have hlength := ((agreeing_perm hfirst).trans hperm.symm).length_eq
    rw [List.length_map, List.length_range] at hlength
    exact .inr hlength
  · rintro (h0 | hone)
    · exact absurd h0 hout
    intro hasBuffer hnone i hi
    rw [hone, Nat.mul_one] at hprod
    have htrue : hasBuffer = true := by
      cases hasBuffer with
      | true => rfl
      | false =>
        have := hnone rfl
        omega
    rw [htrue]
    refine ⟨[i], hread i, ?_⟩
    rw [List.perm_ext_iff_of_nodup (List.nodup_singleton i) (List.nodup_range.filter _)]
    intro p
    rw [← outDims_prod h] at hprod
    rw [List.mem_singleton, List.mem_filter, List.mem_range, decide_eq_true_iff, ← hprod]
    have hsame (hp : p < op.outDims.prod) : target op p = p := by
      have hp' : p < op.inDims.prod := by omega
      rw [target, keptDims, lin_select_false hlen hone (coords_within hp'), lin_coords hp']
    constructor
    · rintro rfl
      exact ⟨hi, hsame hi⟩
    · rintro ⟨hp, htarget⟩
      rw [← htarget, hsame hp]

/-- The kernel combines the right elements exactly if the type is a known one and the strides agree or
there are no elements, or it is unknown and nothing is combined. -/
theorem host_reduce_iff (op : ReduceOp) (h : Shaped op) :
    Right op ↔ (op.isKnown = true ∧ (op.inDims.prod = 0 ∨ StridesAgree op)) ∨
      (op.isKnown = false ∧ (op.outDims.prod = 0 ∨ (redDims op).prod = 1)) := by
  cases hknown : op.isKnown with
  | true =>
    constructor
    · intro hright
      by_cases hne : op.inDims.prod = 0
      · exact .inl ⟨rfl, .inl hne⟩
      · exact .inl ⟨rfl, .inr (agree_of_right h hne hknown hright)⟩
    · rintro (⟨-, hfits⟩ | ⟨hfalse, -⟩)
      · exact right_known h hknown hfits
      · cases hfalse
  | false =>
    rw [right_unknown_iff h hknown]
    constructor
    · intro hnone
      exact .inr ⟨rfl, hnone⟩
    · rintro (⟨hfalse, -⟩ | ⟨-, hnone⟩)
      · cases hfalse
      · exact hnone

/-- A matrix reduced along its columns, which keep their size. -/
def rowSums : ReduceOp := ⟨"ReduceSum", some [-1], [2, 3], [2, 1]⟩

/-- A matrix reduced along its rows, which keep their size. -/
def columnSums : ReduceOp := ⟨"ReduceSum", some [0], [2, 3], [1, 3]⟩

theorem rowSums_shaped : Shaped rowSums := ⟨by decide, by decide, by decide, by decide⟩

theorem columnSums_shaped : Shaped columnSums := ⟨by decide, by decide, by decide, by decide⟩

/-- The sums over the last axis are right. -/
theorem rowSums_right : Right rowSums :=
  (host_reduce_iff rowSums rowSums_shaped).mpr (by decide)

/-- Along the rows every column is taken for the first one. -/
theorem columnSums_not_right : ¬ ∀ op : ReduceOp, Shaped op → Right op := by
  intro hall
  have hright := hall columnSums columnSums_shaped
  exact absurd (agree_of_right columnSums_shaped (by decide) (by decide) hright) (by decide)

end Main

end Gehtp.Analysis.HostReduceReads
