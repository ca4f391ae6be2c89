import Mathlib.Tactic.NormNum
import Gehtp.Model.HostKernels
import Gehtp.Analysis.BroadcastReads

/-!
# Rows of a split and of a softmax on the host

Both kernels take the tensor for rows that lie one behind the other. The width of a row is the size of
an axis, so the axes behind it must have size 1. A split takes the last axis that is not of size 1 for
the requested one and all segments for equal.
-/

set_option autoImplicit false

namespace Gehtp.Analysis.HostRows

open Lib Lib.RowMajor Model.DeviceTensor Model.HostKernels Analysis.BroadcastReads

section Definitions

variable (before after : List ℕ) (sizes : List ℕ) (k : ℕ)

/-- Segment `k` of a split of an axis into segments of these sizes. -/
def segment : SplitOp :=
  ⟨k, before ++ sizes.sum :: after, before ++ sizes.getD k 0 :: after⟩

/-- Where the segment begins on the axis. -/
def start : ℕ := (sizes.take k).sum

/-- The segment has the elements of its range of the axis, whatever the buffer held before. -/
def SplitRight : Prop :=
  ∀ (F : Type) (x old : List F), BufferOf x (segment before after sizes k).inDims →
    old.length = rounds (segment before after sizes k).outDims →
    ∃ out, (segment before after sizes k).execute x old = .ok out ∧
      ∀ c a d, Within c before → a < sizes.getD k 0 → Within d after →
        out[lin (segment before after sizes k).outDims (c ++ a :: d)]? =
          x[lin (segment before after sizes k).inDims (c ++ (start sizes k + a) :: d)]?

/-- A softmax along the axis of size `n`, counted from the front or, negative, from the end. -/
def along (negative : Bool) (n : ℕ) : SoftmaxOp :=
  ⟨some (if negative then -(after.length + 1 : ℤ) else before.length), before ++ n :: after⟩

/-- Every element of the output is the one of the softmax of the elements that differ in the
coordinate of the axis only. -/
def SoftmaxRight (negative : Bool) (n : ℕ) : Prop :=
  ∀ (F : Type) (ops : RowOps F) (x : List F), BufferOf x (along before after negative n).dims →
    ∃ out, (along before after negative n).execute ops x = .ok out ∧
      ∀ c a d, Within c before → a < n → Within d after →
        out[lin (before ++ n :: after) (c ++ a :: d)]? =
          (ops.softmaxRow ((List.range n).map fun a' =>
            x.getD (lin (before ++ n :: after) (c ++ a' :: d)) ops.zero))[a]?

end Definitions

theorem row_lt {r n i w : ℕ} (hr : r < n) (hi : i < w) : r * w + i < n * w :=
  calc r * w + i < r * w + w := Nat.add_lt_add_left hi _
    _ = (r + 1) * w := (Nat.succ_mul r w).symm
    _ ≤ n * w := Nat.mul_le_mul_right w hr

/-! ### The axis a split takes -/

section Axis

variable {dims : List ℕ}

theorem strippedRank_append_one (ds : List ℕ) : strippedRank (ds ++ [1]) = strippedRank ds := by
  unfold strippedRank
  rw [List.reverse_append]
  rfl

theorem strippedRank_append {d : ℕ} (hd : d ≠ 1) (ds : List ℕ) :
    strippedRank (ds ++ [d]) = ds.length + 1 := by
  have hstop : decide (d = 1) = false := decide_eq_false hd
  unfold strippedRank
  rw [List.reverse_append, List.reverse_singleton, List.singleton_append,
    List.dropWhile_cons_of_neg (by rw [hstop]; decide), List.length_cons, List.length_reverse]

theorem stripped_spec (ds : List ℕ) :
    (ds.take (strippedRank ds)).prod = ds.prod ∧
      (ds.take (strippedRank ds)).getLastD 1 = (ds.filter (· ≠ 1)).getLastD 1 := by
  induction ds using List.reverseRecOn with
  | nil => exact ⟨rfl, rfl⟩
  | append_singleton ds d ih =>
    by_cases hd : d = 1
    · have hle := (strippedRank_spec ds).1
      have hnone : [1].filter (fun d : ℕ => decide (d ≠ 1)) = [] := rfl
      rw [hd, strippedRank_append_one, List.take_append_of_le_length hle, List.filter_append, hnone,
        List.append_nil, List.prod_append, List.prod_singleton, Nat.mul_one]
      exact ih
    · have hkeep : [d].filter (fun d : ℕ => decide (d ≠ 1)) = [d] :=
        List.filter_cons_of_pos (decide_eq_true hd)
      have hall : (ds ++ [d]).take (ds.length + 1) = ds ++ [d] :=
        List.take_of_length_le (by rw [List.length_append, List.length_singleton])
      rw [strippedRank_append hd, hall, List.filter_append, hkeep, List.getLastD_concat,
        List.getLastD_concat]
      exact ⟨rfl, rfl⟩

variable {op : SplitOp}

theorem inAxisLen_spec (hne : op.inDims.prod ≠ 0) :
    op.inAxisLen = (op.inDims.filter (· ≠ 1)).getLastD 1 ∧ 0 < op.inAxisLen ∧
      op.outer * op.inAxisLen = op.inDims.prod := by
  obtain ⟨hprod, hlast⟩ := stripped_spec op.inDims
  have hdvd : op.stripped.getLastD 1 ∣ op.inDims.prod := by
    rw [SplitOp.stripped, ← hprod]
    rcases List.eq_nil_or_concat (op.inDims.take (strippedRank op.inDims)) with hnil | ⟨ds, d, hds⟩
    · rw [hnil]
      exact dvd_refl 1
    · rw [hds, List.concat_eq_append, List.getLastD_concat, List.prod_append, List.prod_singleton]
      exact dvd_mul_left d _
  have hpos : 0 < op.stripped.getLastD 1 := Nat.pos_of_dvd_of_pos hdvd (Nat.pos_of_ne_zero hne)
  have hlen : op.inAxisLen = op.stripped.getLastD 1 := if_neg hpos.ne'
  refine ⟨hlen.trans hlast, hlen ▸ hpos, ?_⟩
  have houter : op.outer = op.inDims.prod / op.inAxisLen := by
    unfold SplitOp.outer
    rw [SplitOp.stripped, hprod]
  rw [houter, hlen]
  exact Nat.div_mul_cancel hdvd

theorem one_lt_outer_iff (hne : op.inDims.prod ≠ 0) :
    1 < op.outer ↔ 1 < (op.inDims.filter (· ≠ 1)).length := by
  obtain ⟨hlen, hpos, hmul⟩ := inAxisLen_spec hne
  rw [← prod_filter_ne_one] at hmul hne
  rcases List.eq_nil_or_concat (op.inDims.filter (· ≠ 1)) with hnil | ⟨ds, d, hds⟩
  · rw [hnil] at hlen hmul ⊢
    rw [hlen] at hmul
    have hone : op.outer * 1 = 1 := hmul
    rw [List.length_nil]
    omega
  · rw [List.concat_eq_append] at hds
    rw [hds, List.prod_append, List.prod_singleton] at hmul hne
    rw [hds, List.getLastD_concat] at hlen
    rw [hlen] at hmul hpos
    have houter : op.outer = ds.prod := Nat.eq_of_mul_eq_mul_right hpos hmul
    rw [houter, hds, List.length_append, List.length_singleton]
    have hbig : ∀ e ∈ ds, 1 < e := by
      intro e he
      have hmem : e ∈ op.inDims.filter (· ≠ 1) := by
        rw [hds]
        exact List.mem_append_left _ he
      have hone : e ≠ 1 := of_decide_eq_true (List.mem_filter.mp hmem).2
      have hzero : e ≠ 0 := by
        rintro rfl
        exact hne (by rw [List.prod_eq_zero he, Nat.zero_mul])
      omega
    cases ds with
    | nil => exact iff_of_false (lt_irrefl 1) (lt_irrefl 1)
    | cons e es =>
      have he := hbig e List.mem_cons_self
      have hes : 0 < es.prod := Nat.pos_of_ne_zero fun h0 => by
        rw [List.prod_cons, h0, Nat.mul_zero, Nat.zero_mul] at hne
        exact hne rfl
      rw [List.prod_cons, List.length_cons]
      refine iff_of_true ?_ (by omega)
      exact Nat.lt_of_lt_of_le he (Nat.le_mul_of_pos_right e hes)

end Axis

/-! ### The rows of a split -/

section Copies

variable {op : SplitOp}

theorem mem_copies {c : ℕ × ℕ} :
    c ∈ op.copies ↔ ∃ o j, o < op.outer ∧ j < op.segLen ∧
      c = (o * op.segLen + j, o * op.inAxisLen + op.splitIndex * op.segLen + j) := by
  unfold SplitOp.copies
  simp only [List.mem_flatMap, List.mem_map, List.mem_range]
  constructor
  · rintro ⟨o, ho, j, hj, rfl⟩
    exact ⟨o, j, ho, hj, rfl⟩
  · rintro ⟨o, j, ho, hj, rfl⟩
    exact ⟨o, ho, j, hj, rfl⟩

theorem copies_fst : op.copies.map Prod.fst = List.range (op.outer * op.segLen) := by
  unfold SplitOp.copies
  induction op.outer with
  | zero =>
    rw [Nat.zero_mul]
    rfl
  | succ o ih =>
    have hrow : (fun j => o * op.segLen + j) = Prod.fst ∘ fun j =>
        (o * op.segLen + j, o * op.inAxisLen + op.splitIndex * op.segLen + j) := rfl
    rw [List.range_succ, List.flatMap_append, List.map_append, ih, List.flatMap_singleton,
      List.map_map, ← hrow, ← List.range_add, Nat.succ_mul]

theorem execute_spec (op : SplitOp) {F : Type} (x old : List F)
    (hold : op.outer * op.segLen ≤ old.length)
    (hx : ∀ o < op.outer, ∀ j < op.segLen,
      o * op.inAxisLen + op.splitIndex * op.segLen + j < x.length) :
    ∃ out, op.execute x old = .ok out ∧
      (∀ o < op.outer, ∀ j < op.segLen, out[o * op.segLen + j]? =
        x[o * op.inAxisLen + op.splitIndex * op.segLen + j]?) ∧
      ∀ i, op.outer * op.segLen ≤ i → out[i]? = old[i]? := by
  cases x with
  | nil =>
    have hnone : op.copies = [] := by
      rw [List.eq_nil_iff_forall_not_mem]
      intro c hc
      obtain ⟨o, j, ho, hj, -⟩ := mem_copies.mp hc
      exact absurd (hx o ho j hj) (Nat.not_lt_zero _)
    refine ⟨old, ?_, fun o ho j hj => absurd (hx o ho j hj) (Nat.not_lt_zero _), fun i _ => rfl⟩
    unfold SplitOp.execute
    rw [hnone]
    rfl
  | cons v xs =>
    have hinside (c : ℕ × ℕ) (hc : c ∈ op.copies) : c.2 < (v :: xs).length := by
      obtain ⟨o, j, ho, hj, rfl⟩ := mem_copies.mp hc
      exact hx o ho j hj
    have hdiff : (op.copies.map Prod.fst).Nodup := by
      rw [copies_fst]
      exact List.nodup_range
    have hcell (c : ℕ × ℕ) (hc : c ∈ op.copies) :
        ((entryAt (v :: xs) c.2).map fun v => (c.1, v) : Checked String (ℕ × F)) =
          .ok (c.1, (v :: xs).getD c.2 v) := by
      rw [map_eq_ok]
      refine ⟨_, ?_, rfl⟩
      rw [entryAt_eq_ok, List.getElem?_eq_getElem (hinside c hc),
        List.getD_eq_getElem _ _ (hinside c hc)]
    have hpos (c : ℕ × ℕ) (hc : c ∈ op.copies) : c.1 < old.length := by
      have hmem := List.mem_map_of_mem (f := Prod.fst) hc
      rw [copies_fst, List.mem_range] at hmem
      exact Nat.lt_of_lt_of_le hmem hold
    obtain ⟨out, hrun, -, hval, hrest⟩ := fillLoop_eq_ok Prod.fst _ hcell hpos hdiff
    refine ⟨out, hrun, ?_, ?_⟩
    · intro o ho j hj
      have hmem := mem_copies.mpr ⟨o, j, ho, hj, rfl⟩
      rw [hval _ hmem, List.getElem?_eq_getElem (hinside _ hmem),
        List.getD_eq_getElem _ _ (hinside _ hmem)]
    · intro i hi
      apply hrest
      rw [copies_fst, List.mem_range]
      omega

theorem execute_inv {F : Type} {x old out : List F} (hrun : op.execute x old = .ok out) :
    (∀ o < op.outer, ∀ j < op.segLen,
      o * op.inAxisLen + op.splitIndex * op.segLen + j < x.length ∧
        out[o * op.segLen + j]? = x[o * op.inAxisLen + op.splitIndex * op.segLen + j]?) ∧
      ∀ i, op.outer * op.segLen ≤ i → out[i]? = old[i]? := by
  have hround (c : ℕ × ℕ) (hc : c ∈ op.copies) : c.1 < old.length ∧ c.2 < x.length := by
    obtain ⟨w, hw, hlt⟩ := cell_of_fillLoop hrun hc
    obtain ⟨v, hv, rfl⟩ := (map_eq_ok _ _ _).mp hw
    rw [entryAt_eq_ok] at hv
    exact ⟨hlt, (List.getElem?_eq_some_iff.mp hv).1⟩
  have hx (o : ℕ) (ho : o < op.outer) (j : ℕ) (hj : j < op.segLen) :
      o * op.inAxisLen + op.splitIndex * op.segLen + j < x.length :=
    (hround _ (mem_copies.mpr ⟨o, j, ho, hj, rfl⟩)).2
  have hold : op.outer * op.segLen ≤ old.length := by
    by_contra hlt
    have hlast : old.length ∈ op.copies.map Prod.fst := by
      rw [copies_fst, List.mem_range]
      omega
    obtain ⟨c, hc, hfst⟩ := List.mem_map.mp hlast
    have := (hround c hc).1
    omega
  obtain ⟨out', hrun', hval, hrest⟩ := execute_spec op x old hold hx
  rw [hrun] at hrun'
  cases hrun'
  exact ⟨fun o ho j hj => ⟨hx o ho j hj, hval o ho j hj⟩, hrest⟩

end Copies

/-! ### When a segment is right -/

section Split

variable {before after sizes : List ℕ} {k : ℕ}

theorem start_add_le (sizes : List ℕ) (k : ℕ) : start sizes k + sizes.getD k 0 ≤ sizes.sum := by
  induction sizes generalizing k with
  | nil =>
    rw [start, List.take_nil]
    exact le_rfl
  | cons s sizes ih =>
    cases k with
    | zero =>
      rw [start, List.take_zero, List.getD_cons_zero, List.sum_cons, List.sum_nil, Nat.zero_add]
      exact Nat.le_add_right s _
    | succ k =>
      have hrest := ih k
      unfold start at hrest ⊢
      rw [List.take_succ_cons, List.sum_cons, List.sum_cons, List.getD_cons_succ]
      omega

theorem prod_axis (before after : List ℕ) (n : ℕ) :
    (before ++ n :: after).prod = before.prod * (n * after.prod) := by
  rw [List.prod_append, List.prod_cons]

theorem lin_axis {before c : List ℕ} (hc : Within c before) (n a : ℕ) (after d : List ℕ) :
    lin (before ++ n :: after) (c ++ a :: d) =
      lin before c * (n * after.prod) + (a * after.prod + lin after d) := by
  rw [lin_append hc.length_eq, List.prod_cons, lin_cons]

theorem rows_iff {F : Type} {x out : List F} :
    (∀ c a d, Within c before → a < sizes.getD k 0 → Within d after →
      out[lin (segment before after sizes k).outDims (c ++ a :: d)]? =
        x[lin (segment before after sizes k).inDims (c ++ (start sizes k + a) :: d)]?) ↔
    ∀ m < before.prod, ∀ j < sizes.getD k 0 * after.prod,
      out[m * (sizes.getD k 0 * after.prod) + j]? =
        x[m * (sizes.sum * after.prod) + (start sizes k * after.prod + j)]? := by
  unfold segment
  constructor
  · intro h m hm j hj
    have hafter : 0 < after.prod := Nat.pos_of_ne_zero fun h0 => by
      rw [h0, Nat.mul_zero] at hj
      exact Nat.not_lt_zero j hj
    have hc := coords_within hm
    have hd := coords_within (Nat.mod_lt j hafter)
    have hj' : j / after.prod < sizes.getD k 0 := (Nat.div_lt_iff_lt_mul hafter).mpr hj
    have hcell := h _ _ _ hc hj' hd
    rw [lin_axis hc, lin_axis hc, lin_coords hm, lin_coords (Nat.mod_lt j hafter), Nat.add_mul,
      Nat.add_assoc, Nat.mul_comm (j / after.prod), Nat.div_add_mod] at hcell
    exact hcell
  · intro h c a d hc ha hd
    have hcell := h _ (lin_lt hc) _ (row_lt ha (lin_lt hd))
    rw [lin_axis hc, lin_axis hc, hcell, Nat.add_mul, Nat.add_assoc]

theorem filter_last {before after : List ℕ} {n : ℕ} (hafter : after.filter (· ≠ 1) ≠ []) :
    ((before ++ n :: after).filter (· ≠ 1)).getLastD 1 ∈ after := by
  rcases List.eq_nil_or_concat (after.filter (· ≠ 1)) with hnil | ⟨ds, d, hds⟩
  · exact absurd hnil hafter
  · rw [List.concat_eq_append] at hds
    have hmem : d ∈ after.filter (· ≠ 1) := by
      rw [hds]
      exact List.mem_append_right _ (List.mem_singleton_self d)
    have hsplit : (n :: after).filter (· ≠ 1) = [n].filter (· ≠ 1) ++ after.filter (· ≠ 1) := by
      rw [← List.filter_append, List.singleton_append]
    rw [List.filter_append, hsplit, hds, ← List.append_assoc, ← List.append_assoc,
      List.getLastD_concat]
    exact List.mem_of_mem_filter hmem

theorem inAxisLen_dvd (hne : (segment before after sizes k).inDims.prod ≠ 0)
    (hafter : after.prod ≠ 1) : (segment before after sizes k).inAxisLen ∣ after.prod := by
  rw [(inAxisLen_spec hne).1]
  apply List.dvd_prod
  apply filter_last
  intro hnil
  rw [← prod_filter_ne_one, hnil] at hafter
  exact hafter rfl

theorem inAxisLen_inner (hne : (segment before after sizes k).inDims.prod ≠ 0)
    (hafter : after.prod = 1) (hsum : sizes.sum ≠ 1) :
    (segment before after sizes k).inAxisLen = sizes.sum := by
  have hones : ∀ d ∈ after, d = 1 := fun d hd => Nat.dvd_one.mp (hafter ▸ List.dvd_prod hd)
  have hnone : after.filter (· ≠ 1) = [] := by
    rw [List.filter_eq_nil_iff]
    intro d hd
    rw [hones d hd]
    decide
  rw [(inAxisLen_spec hne).1]
  unfold segment
  simp only
  rw [List.filter_append, filter_ne_cons hsum, hnone, List.getLastD_concat]

theorem rounds_of_ne {dims : List ℕ} (h : dims.prod ≠ 0) : rounds dims = dims.prod := if_neg h

theorem length_of_buffer {F : Type} {x : List F} {dims : List ℕ} (h : BufferOf x dims)
    (hne : dims.prod ≠ 0) : x.length = dims.prod := by
  cases h with
  | inl h => exact h
  | inr h => exact h.trans (rounds_of_ne hne)

theorem segLen_eq {op : SplitOp} (hne : op.inDims.prod ≠ 0) :
    op.segLen = rounds op.outDims / op.outer := by
  have houter : op.outer ≠ 0 := fun h0 => by
    have hmul := (inAxisLen_spec hne).2.2
    rw [h0, Nat.zero_mul] at hmul
    exact hne hmul.symm
  unfold SplitOp.segLen
  rw [if_neg houter]

theorem right_whole (hne : (segment before after sizes k).inDims.prod ≠ 0)
    (hwhole : sizes.getD k 0 = sizes.sum) (hk : k = 0) : SplitRight before after sizes k := by
  intro F x old hbuf hold
  have hx := length_of_buffer hbuf hne
  obtain ⟨-, hpos, hmul⟩ := inAxisLen_spec hne
  have hsame : (segment before after sizes k).outDims = (segment before after sizes k).inDims := by
    unfold segment
    rw [hwhole]
  rw [hsame, rounds_of_ne hne] at hold
  have hseg : (segment before after sizes k).segLen = (segment before after sizes k).inAxisLen := by
    have houter : 0 < (segment before after sizes k).outer := Nat.pos_of_ne_zero fun h0 => by
      rw [h0, Nat.zero_mul] at hmul
      exact hne hmul.symm
    rw [segLen_eq hne, hsame, rounds_of_ne hne, ← hmul, Nat.mul_div_cancel_left _ houter]
  have hindex : (segment before after sizes k).splitIndex = 0 := hk
  have hin {o j : ℕ} (ho : o < (segment before after sizes k).outer)
      (hj : j < (segment before after sizes k).inAxisLen) :
      o * (segment before after sizes k).inAxisLen + j < x.length := by
    rw [hx, ← hmul]
    exact row_lt ho hj
  obtain ⟨out, hrun, hrow, -⟩ := execute_spec (segment before after sizes k) x old
    (by rw [hseg, hmul, hold])
    (fun o ho j hj => by
      rw [hseg] at hj
      rw [hindex, Nat.zero_mul, Nat.add_zero]
      exact hin ho hj)
  have hall (i : ℕ) (hi : i < x.length) : out[i]? = x[i]? := by
    rw [hx, ← hmul] at hi
    have ho : i / (segment before after sizes k).inAxisLen < (segment before after sizes k).outer :=
      (Nat.div_lt_iff_lt_mul hpos).mpr hi
    have hcell := hrow _ ho _ (hseg ▸ Nat.mod_lt i hpos)
    rw [hseg, hindex, Nat.zero_mul, Nat.add_zero, Nat.div_add_mod'] at hcell
    exact hcell
  refine ⟨out, hrun, rows_iff.mpr ?_⟩
  intro m hm j hj
  have hstart : start sizes k = 0 := by
    have := start_add_le sizes k
    omega
  rw [hwhole] at hj ⊢
  rw [hstart, Nat.zero_mul, Nat.zero_add]
  apply hall
  rw [hx]
  unfold segment
  rw [prod_axis]
  exact row_lt hm hj

theorem right_inner (hne : (segment before after sizes k).inDims.prod ≠ 0)
    (hsize : 0 < sizes.getD k 0) (hpart : sizes.getD k 0 ≠ sizes.sum) (hafter : after.prod = 1)
    (hstart : k * sizes.getD k 0 = start sizes k) : SplitRight before after sizes k := by
  intro F x old hbuf hold
  have hx := length_of_buffer hbuf hne
  have hinside := start_add_le sizes k
  obtain ⟨-, -, hmul⟩ := inAxisLen_spec hne
  have hlen := inAxisLen_inner hne hafter (by omega)
  have hin : (segment before after sizes k).inDims.prod = before.prod * sizes.sum := by
    rw [segment, prod_axis, hafter, Nat.mul_one]
  have hout : (segment before after sizes k).outDims.prod = before.prod * sizes.getD k 0 := by
    rw [segment, prod_axis, hafter, Nat.mul_one]
  rw [hlen, hin] at hmul
  have houter : (segment before after sizes k).outer = before.prod :=
    Nat.eq_of_mul_eq_mul_right (by omega) hmul
  have hbefore : 0 < before.prod := Nat.pos_of_ne_zero fun h0 => by
    rw [hin, h0, Nat.zero_mul] at hne
    exact hne rfl
  have hrounds := rounds_of_ne (hout ▸ (Nat.mul_pos hbefore hsize).ne')
  have hseg : (segment before after sizes k).segLen = sizes.getD k 0 := by
    rw [segLen_eq hne, hrounds, hout, houter, Nat.mul_div_cancel_left _ hbefore]
  have hindex : (segment before after sizes k).splitIndex = k := rfl
  obtain ⟨out, hrun, hrow, -⟩ := execute_spec (segment before after sizes k) x old
    (by rw [houter, hseg, hold, hrounds, hout])
    (fun o ho j hj => by
      rw [hseg] at hj
      rw [houter] at ho
      rw [hlen, hindex, hseg, hstart, hx, hin, Nat.add_assoc]
      exact row_lt ho (by omega))
  refine ⟨out, hrun, rows_iff.mpr ?_⟩
  intro m hm j hj
  rw [hafter, Nat.mul_one] at hj ⊢
  have hcell := hrow m (houter ▸ hm) j (hseg ▸ hj)
  rw [hseg, hlen, hindex, hstart, Nat.add_assoc] at hcell
  rw [hcell, Nat.mul_one, Nat.mul_one]

/-- A segment without elements: with one row only the kernel copies one element nevertheless, which
has to be there. -/
theorem right_empty_iff (hne : (segment before after sizes k).inDims.prod ≠ 0)
    (hsize : sizes.getD k 0 = 0) : SplitRight before after sizes k ↔
      1 < ((segment before after sizes k).inDims.filter (· ≠ 1)).length ∨
        k < (segment before after sizes k).inDims.prod := by
  obtain ⟨-, hpos, hmul⟩ := inAxisLen_spec hne
  have hindex : (segment before after sizes k).splitIndex = k := rfl
  have hrounds : rounds (segment before after sizes k).outDims = 1 := by
    unfold rounds segment
    rw [if_pos (by rw [prod_axis, hsize, Nat.zero_mul, Nat.mul_zero])]
  have hseg := segLen_eq hne
  rw [hrounds] at hseg
  rw [← one_lt_outer_iff hne]
  have hnone {F : Type} {x out : List F} : ∀ m < before.prod, ∀ j < sizes.getD k 0 * after.prod,
      out[m * (sizes.getD k 0 * after.prod) + j]? =
        x[m * (sizes.sum * after.prod) + (start sizes k * after.prod + j)]? := by
    intro m _ j hj
    rw [hsize, Nat.zero_mul] at hj
    exact absurd hj (Nat.not_lt_zero j)
  by_cases houter : 1 < (segment before after sizes k).outer
  · refine iff_of_true ?_ (.inl houter)
    intro F x old _ hold
    rw [Nat.div_eq_of_lt houter] at hseg
    obtain ⟨out, hrun, -⟩ := execute_spec (segment before after sizes k) x old
      (by rw [hseg]; exact Nat.zero_le _)
      (fun o ho j hj => by
        rw [hseg] at hj
        exact absurd hj (Nat.not_lt_zero j))
    exact ⟨out, hrun, rows_iff.mpr hnone⟩
  · have hone : (segment before after sizes k).outer = 1 := by
      have hzero : (segment before after sizes k).outer ≠ 0 := fun h0 => by
        rw [h0, Nat.zero_mul] at hmul
        exact hne hmul.symm
      omega
    rw [hone, Nat.div_one] at hseg
    constructor
    · intro hright
      obtain ⟨out, hrun, -⟩ :=
        hright ℕ (List.replicate _ 0) [0] (.inl List.length_replicate) hrounds.symm
      have hmem : (0, k) ∈ (segment before after sizes k).copies :=
        mem_copies.mpr ⟨0, 0, by omega, by omega, by rw [hindex, hseg]; simp⟩
      obtain ⟨w, hw, -⟩ := cell_of_fillLoop hrun hmem
      obtain ⟨v, hv, -⟩ := (map_eq_ok _ _ _).mp hw
      rw [entryAt_eq_ok] at hv
      obtain ⟨hlt, -⟩ := List.getElem?_eq_some_iff.mp hv
      rw [List.length_replicate] at hlt
      exact .inr hlt
    · rintro (h | hk)
      · exact absurd h houter
      · intro F x old hbuf hold
        have hx := length_of_buffer hbuf hne
        obtain ⟨out, hrun, -⟩ := execute_spec (segment before after sizes k) x old
          (by rw [hone, hseg, hold, hrounds])
          (fun o ho j hj => by
            rw [hone] at ho
            rw [hseg] at hj
            obtain rfl : o = 0 := by omega
            obtain rfl : j = 0 := by omega
            rw [hindex, hseg, hx]
            omega)
        exact ⟨out, hrun, rows_iff.mpr hnone⟩

/-- A right segment that is not empty tells where the rows of the kernel lie: they fill the output, and
the first begins where the segment does. -/
theorem rows_of_right (hne : (segment before after sizes k).inDims.prod ≠ 0)
    (hsize : 0 < sizes.getD k 0) (hright : SplitRight before after sizes k) :
    ∃ g, 0 < g ∧ before.prod * (sizes.getD k 0 * after.prod) =
        (segment before after sizes k).outer * g ∧
      k * g = start sizes k * after.prod ∧
      (1 < (segment before after sizes k).outer → g < sizes.getD k 0 * after.prod →
        g = (segment before after sizes k).inAxisLen) := by
  have hin : (segment before after sizes k).inDims.prod =
      before.prod * (sizes.sum * after.prod) := prod_axis _ _ _
  have hout : (segment before after sizes k).outDims.prod =
      before.prod * (sizes.getD k 0 * after.prod) := prod_axis _ _ _
  have hindex : (segment before after sizes k).splitIndex = k := rfl
  have hbefore : 0 < before.prod := Nat.pos_of_ne_zero fun h0 => by
    rw [hin, h0, Nat.zero_mul] at hne
    exact hne rfl
  have hafter : 0 < after.prod := Nat.pos_of_ne_zero fun h0 => by
    rw [hin, h0, Nat.mul_zero, Nat.mul_zero] at hne
    exact hne rfl
  have hrow : 0 < sizes.getD k 0 * after.prod := Nat.mul_pos hsize hafter
  have hpos : 0 < before.prod * (sizes.getD k 0 * after.prod) := Nat.mul_pos hbefore hrow
  have hrounds := rounds_of_ne (hout ▸ hpos.ne')
  have hseg := segLen_eq hne
  rw [hrounds, hout] at hseg
  -- every place of the input holds its own number, and the buffer one that is no place
  generalize hn : (segment before after sizes k).inDims.prod = n at *
  obtain ⟨out, hrun, hcells⟩ := hright ℕ (List.range n)
    (List.replicate (rounds (segment before after sizes k).outDims) n)
    (.inl (List.length_range.trans hn.symm)) List.length_replicate
  obtain ⟨hcopy, hrest⟩ := execute_inv hrun
  rw [rows_iff] at hcells
  have hval {i v : ℕ} (h : (List.range n)[i]? = some v) : v = i ∧ i < n := by
    obtain ⟨hlt, heq⟩ := List.getElem?_eq_some_iff.mp h
    rw [List.getElem_range] at heq
    rw [List.length_range] at hlt
    exact ⟨heq.symm, hlt⟩
  have hself {i : ℕ} (h : i < n) : (List.range n)[i]? = some i := List.getElem?_range h
  have hfill : before.prod * (sizes.getD k 0 * after.prod) ≤
      (segment before after sizes k).outer * (segment before after sizes k).segLen := by
    by_contra hlt
    have hlast : (before.prod - 1) * (sizes.getD k 0 * after.prod) +
        (sizes.getD k 0 * after.prod - 1) = before.prod * (sizes.getD k 0 * after.prod) - 1 := by
      obtain ⟨q, hq⟩ : ∃ q, before.prod = q + 1 := ⟨before.prod - 1, by omega⟩
      rw [hq, Nat.add_sub_cancel, Nat.succ_mul]
      omega
    have hcell := hcells (before.prod - 1) (by omega) (sizes.getD k 0 * after.prod - 1) (by omega)
    have hold : (List.replicate (rounds (segment before after sizes k).outDims) n)[
        before.prod * (sizes.getD k 0 * after.prod) - 1]? = some n := by
      rw [List.getElem?_replicate, if_pos]
      rw [hrounds, hout]
      omega
    rw [hlast, hrest _ (by omega), hold] at hcell
    have hown := hval hcell.symm
    omega
  have hfull : before.prod * (sizes.getD k 0 * after.prod) =
      (segment before after sizes k).outer * (segment before after sizes k).segLen := by
    apply Nat.le_antisymm hfill
    rw [hseg]
    exact Nat.mul_div_le _ _
  have hg : 0 < (segment before after sizes k).segLen := Nat.pos_of_ne_zero fun h0 => by
    rw [h0, Nat.mul_zero] at hfull
    omega
  have houter : 0 < (segment before after sizes k).outer := Nat.pos_of_ne_zero fun h0 => by
    rw [h0, Nat.zero_mul] at hfull
    omega
  have hfirst : k * (segment before after sizes k).segLen = start sizes k * after.prod := by
    obtain ⟨hlt, hcell⟩ := hcopy 0 houter 0 hg
    have hwant := hcells 0 hbefore 0 hrow
    simp only [Nat.zero_mul, Nat.zero_add, Nat.add_zero, hindex] at hcell hwant hlt
    rw [List.length_range] at hlt
    rw [hcell, hself hlt] at hwant
    exact (hval hwant.symm).1
  refine ⟨_, hg, hfull, hfirst, ?_⟩
  intro hmore hshort
  obtain ⟨hlt, hcell⟩ := hcopy 1 hmore 0 hg
  have hwant := hcells 0 hbefore _ hshort
  simp only [Nat.zero_mul, Nat.zero_add, Nat.add_zero, Nat.one_mul, hindex] at hcell hwant hlt
  rw [List.length_range] at hlt
  rw [hcell, hself hlt] at hwant
  have hsame := (hval hwant.symm).1
  omega

theorem right_of_empty (h : (segment before after sizes k).inDims.prod = 0) :
    SplitRight before after sizes k := by
  intro F x old _ hold
  have hinside := start_add_le sizes k
  have houter : (segment before after sizes k).outer = 0 := by
    unfold SplitOp.outer SplitOp.stripped
    rw [(stripped_spec _).1, h, Nat.zero_div]
  obtain ⟨out, hrun, -⟩ := execute_spec (segment before after sizes k) x old
    (by rw [houter, Nat.zero_mul]; exact Nat.zero_le _)
    (fun o ho => by
      rw [houter] at ho
      exact absurd ho (Nat.not_lt_zero o))
  refine ⟨out, hrun, rows_iff.mpr ?_⟩
  intro m hm j hj
  have hafter : after.prod ≠ 0 := fun h0 => by
    rw [h0, Nat.mul_zero] at hj
    exact absurd hj (Nat.not_lt_zero j)
  have hsize : sizes.getD k 0 ≠ 0 := fun h0 => by
    rw [h0, Nat.zero_mul] at hj
    exact absurd hj (Nat.not_lt_zero j)
  rw [segment, prod_axis] at h
  rcases Nat.mul_eq_zero.mp h with h0 | h0
  · omega
  · rcases Nat.mul_eq_zero.mp h0 with h0 | h0
    · omega
    · exact absurd h0 hafter

theorem fits_of_right (hne : (segment before after sizes k).inDims.prod ≠ 0)
    (hsize : 0 < sizes.getD k 0) (hright : SplitRight before after sizes k) :
    k * sizes.getD k 0 = start sizes k ∧ (after.prod = 1 ∨ sizes.getD k 0 = sizes.sum) := by
  have hinside := start_add_le sizes k
  obtain ⟨g, hg, hfull, hfirst, hsecond⟩ := rows_of_right hne hsize hright
  obtain ⟨-, hpos, hmul⟩ := inAxisLen_spec hne
  have hin : (segment before after sizes k).inDims.prod =
      before.prod * (sizes.sum * after.prod) := prod_axis _ _ _
  have hbefore : 0 < before.prod := Nat.pos_of_ne_zero fun h0 => by
    rw [hin, h0, Nat.zero_mul] at hne
    exact hne rfl
  by_cases hwhole : sizes.getD k 0 = sizes.sum
  · refine ⟨?_, .inr hwhole⟩
    have hstart : start sizes k = 0 := by omega
    rw [hstart, Nat.zero_mul] at hfirst
    rcases Nat.mul_eq_zero.mp hfirst with hk | h0
    · rw [hstart, hk, Nat.zero_mul]
    · omega
  by_cases hafter : after.prod = 1
  · refine ⟨?_, .inl hafter⟩
    rw [inAxisLen_inner hne hafter (by omega), hin, hafter, Nat.mul_one] at hmul
    have houter := Nat.eq_of_mul_eq_mul_right (by omega) hmul
    rw [houter, hafter, Nat.mul_one] at hfull
    rw [Nat.eq_of_mul_eq_mul_left hbefore hfull, hfirst, hafter, Nat.mul_one]
  -- behind the axis there are more elements than one, which the kernel takes for rows
  · exfalso
    have hzero : 0 < after.prod := Nat.pos_of_ne_zero fun h0 => by
      rw [hin, h0, Nat.mul_zero, Nat.mul_zero] at hne
      exact hne rfl
    have hle := Nat.le_of_dvd hzero (inAxisLen_dvd hne hafter)
    rw [hin] at hmul
    have hshort : g < (segment before after sizes k).inAxisLen := by
      apply Nat.lt_of_mul_lt_mul_left (a := (segment before after sizes k).outer)
      rw [hmul, ← hfull]
      apply Nat.mul_lt_mul_of_pos_left _ hbefore
      exact Nat.mul_lt_mul_of_pos_right (by omega) hzero
    have hmore : 1 < (segment before after sizes k).outer := by
      apply Nat.lt_of_mul_lt_mul_right (a := (segment before after sizes k).inAxisLen)
      calc 1 * (segment before after sizes k).inAxisLen ≤ after.prod := by omega
        _ < sizes.sum * after.prod := (Nat.lt_mul_iff_one_lt_left hzero).mpr (by omega)
        _ ≤ before.prod * (sizes.sum * after.prod) := Nat.le_mul_of_pos_left _ hbefore
        _ = _ := hmul.symm
    have hrow : after.prod ≤ sizes.getD k 0 * after.prod := Nat.le_mul_of_pos_left _ hsize
    have := hsecond hmore (by omega)
    omega

/-- The kernel returns the requested range of the axis exactly if the tensor is empty; or the segment
is and there is more than one row or an element to copy; or the segments in front are together as long
as that many of its own size, and the axes behind have size 1 or the segment is the whole axis. -/
theorem splitRight_iff : SplitRight before after sizes k ↔
    (before ++ sizes.sum :: after).prod = 0 ∨
    (sizes.getD k 0 = 0 ∧ (1 < ((before ++ sizes.sum :: after).filter (· ≠ 1)).length ∨
      k < (before ++ sizes.sum :: after).prod)) ∨
    (0 < sizes.getD k 0 ∧ k * sizes.getD k 0 = start sizes k ∧
      (after.prod = 1 ∨ sizes.getD k 0 = sizes.sum)) := by
  by_cases hne : (segment before after sizes k).inDims.prod = 0
  · exact iff_of_true (right_of_empty hne) (.inl hne)
  · constructor
    · intro hright
      by_cases hsize : sizes.getD k 0 = 0
      · exact .inr (.inl ⟨hsize, (right_empty_iff hne hsize).mp hright⟩)
      · exact .inr (.inr ⟨by omega, fits_of_right hne (by omega) hright⟩)
    · rintro (h0 | ⟨hsize, h⟩ | ⟨hsize, hstart, h⟩)
      · exact absurd h0 hne
      · exact (right_empty_iff hne hsize).mpr h
      · have hinside := start_add_le sizes k
        by_cases hwhole : sizes.getD k 0 = sizes.sum
        · apply right_whole hne hwhole
          have hzero : k * sizes.getD k 0 = 0 := by omega
          rcases Nat.mul_eq_zero.mp hzero with hk | hs
          · exact hk
          · omega
        · exact right_inner hne hsize hwhole (h.resolve_right hwhole) hstart

end Split

/-! ### The rows of a softmax -/

section Softmax

variable {before after : List ℕ} {negative : Bool} {n : ℕ} {F : Type}

theorem mapM_of_ok {α β : Type} {f : α → Checked String β} {g : α → β} {l : List α}
    (h : ∀ a ∈ l, f a = .ok (g a)) : l.mapM f = .ok (l.map g) := by
  rw [mapM_eq_ok, List.forall₂_map_right_iff, List.forall₂_same]
  exact h

theorem length_softmaxRow (ops : RowOps F) (row : List F) :
    (ops.softmaxRow row).length = row.length := by
  cases row with
  | nil => rfl
  | cons v row =>
    unfold RowOps.softmaxRow
    simp only
    split
    · rw [List.length_map, List.length_map]
    · rw [List.length_map]

theorem getElem?_rows {α : Type} {rows : ℕ → List α} {w : ℕ} (hw : ∀ r, (rows r).length = w)
    {m r i : ℕ} (hr : r < m) (hi : i < w) :
    ((List.range m).map rows).flatten[r * w + i]? = (rows r)[i]? := by
  have hlen (m : ℕ) : ((List.range m).map rows).flatten.length = m * w := by
    induction m with
    | zero =>
      rw [Nat.zero_mul]
      rfl
    | succ m ih =>
      rw [List.range_succ, List.map_append, List.flatten_append, List.length_append, ih,
        List.map_singleton, List.flatten_singleton, hw, Nat.succ_mul]
  induction m with
  | zero => exact absurd hr (Nat.not_lt_zero r)
  | succ m ih =>
    rw [List.range_succ, List.map_append, List.flatten_append, List.map_singleton,
      List.flatten_singleton]
    by_cases hlast : r = m
    · rw [hlast, List.getElem?_append_right (by rw [hlen]; omega), hlen, Nat.add_sub_cancel_left]
    · have hr' : r < m := by omega
      rw [List.getElem?_append_left (by rw [hlen]; exact row_lt hr' hi)]
      exact ih hr'

theorem ax_eq : (along before after negative n).ax = before.length := by
  have hlen : (before ++ n :: after).length = before.length + after.length + 1 := by
    rw [List.length_append, List.length_cons]
    rfl
  have hfront (ax : ℤ) (hax : ax = if negative then -(after.length + 1 : ℤ) else before.length) :
      (if ax < 0 then ax + ((before ++ n :: after).length : ℤ) else ax) = before.length := by
    cases negative with
    | true =>
      rw [if_pos rfl] at hax
      rw [if_pos (by omega)]
      omega
    | false =>
      rw [if_neg (by decide)] at hax
      rw [if_neg (by omega)]
      exact hax
  unfold SoftmaxOp.ax along
  simp only [Option.getD_some, reduceCtorEq, false_and, if_false, hfront _ rfl]
  rw [if_neg (by omega)]

theorem rowW_eq : (along before after negative n).rowW = .ok (if n = 0 then 1 else n) := by
  have hsize : (along before after negative n).dims.getD before.length 0 = n := by
    have hlt : before.length < (before ++ n :: after).length := by
      rw [List.length_append, List.length_cons]
      omega
    unfold along
    rw [List.getD_eq_getElem _ _ hlt, List.getElem_append_right le_rfl]
    simp only [Nat.sub_self, List.getElem_cons_zero]
  have hdims : (along before after negative n).dims ≠ [] :=
    List.append_ne_nil_of_right_ne_nil _ (List.cons_ne_nil _ _)
  unfold SoftmaxOp.rowW
  rw [if_neg hdims, ax_eq, if_neg (by omega), Int.toNat_natCast]
  simp only [hsize]

theorem softmax_rows (ops : RowOps F) {x : List F} {w : ℕ}
    (hw : (along before after negative n).rowW = .ok w)
    (hx : x.length = rounds (along before after negative n).dims) (hne : x ≠ []) :
    ∃ out, (along before after negative n).execute ops x = .ok out ∧
      ∀ r < x.length / w, ∀ i < w, out[r * w + i]? =
        (ops.softmaxRow ((List.range w).map fun i => x.getD (r * w + i) ops.zero))[i]? := by
  have hrow (r : ℕ) (hr : r ∈ List.range (x.length / w)) :
      ((List.range w).mapM fun i => entryAt x (r * w + i) : Checked String (List F)) =
        .ok ((List.range w).map fun i => x.getD (r * w + i) ops.zero) := by
    apply mapM_of_ok
    intro i hi
    have hin : r * w + i < x.length :=
      Nat.lt_of_lt_of_le (row_lt (List.mem_range.mp hr) (List.mem_range.mp hi))
        (Nat.div_mul_le_self _ _)
    rw [entryAt_eq_ok, List.getElem?_eq_getElem hin, List.getD_eq_getElem _ _ hin]
  have hrows : ((List.range (x.length / w)).mapM fun r =>
      ((List.range w).mapM fun i => entryAt x (r * w + i)).map ops.softmaxRow :
        Checked String (List (List F))) =
      .ok ((List.range (x.length / w)).map fun r =>
        ops.softmaxRow ((List.range w).map fun i => x.getD (r * w + i) ops.zero)) := by
    apply mapM_of_ok
    intro r hr
    simp only [hrow r hr]
    rfl
  refine ⟨((List.range (x.length / w)).map fun r => ops.softmaxRow ((List.range w).map fun i =>
    x.getD (r * w + i) ops.zero)).flatten, ?_, ?_⟩
  · unfold SoftmaxOp.execute
    rw [if_neg hne, hw, ← hx]
    exact congrArg (Except.map List.flatten) hrows
  · intro r hr i hi
    apply getElem?_rows (fun r => ?_) hr hi
    rw [length_softmaxRow, List.length_map, List.length_range]

theorem rowW_of_ne (hne : (before ++ n :: after).prod ≠ 0) :
    (along before after negative n).rowW = .ok n := by
  have hn : n ≠ 0 := by
    rw [prod_axis] at hne
    exact Nat.ne_zero_of_mul_ne_zero_left (Nat.ne_zero_of_mul_ne_zero_right hne)
  rw [rowW_eq, if_neg hn]

theorem softmax_of_empty (h : (before ++ n :: after).prod = 0) :
    SoftmaxRight before after negative n := by
  intro F ops x hbuf
  have hran : ∃ out, (along before after negative n).execute ops x = .ok out := by
    by_cases hnil : x = []
    · exact ⟨_, if_pos hnil⟩
    · have hx : x.length = rounds (along before after negative n).dims :=
        hbuf.resolve_left fun h0 => hnil (List.length_eq_zero_iff.mp (h0.trans h))
      obtain ⟨out, hrun, -⟩ := softmax_rows ops rowW_eq hx hnil
      exact ⟨out, hrun⟩
  obtain ⟨out, hrun⟩ := hran
  refine ⟨out, hrun, ?_⟩
  intro c a d hc ha hd
  rw [prod_axis] at h
  have hbefore := hc.prod_pos
  have hafter := hd.prod_pos
  have hpos := Nat.mul_pos hbefore (Nat.mul_pos (Nat.zero_lt_of_lt ha) hafter)
  omega

theorem softmax_of_fits (hne : (before ++ n :: after).prod ≠ 0) (hfits : n = 1 ∨ after.prod = 1) :
    SoftmaxRight before after negative n := by
  intro F ops x hbuf
  have hx : x.length = (before ++ n :: after).prod := length_of_buffer hbuf hne
  have hsome : x ≠ [] := by
    rintro rfl
    exact hne hx.symm
  obtain ⟨out, hrun, hrow⟩ :=
    softmax_rows ops (rowW_of_ne hne) (hx.trans (rounds_of_ne hne).symm) hsome
  have hlen : x.length = before.prod * (n * after.prod) := hx.trans (prod_axis _ _ _)
  refine ⟨out, hrun, ?_⟩
  intro c a d hc ha hd
  have hlast := lin_lt hd
  have hn : 0 < n := Nat.zero_lt_of_lt ha
  rcases hfits with hone | hone
  · have ha' : a = 0 := by omega
    have hin := row_lt (lin_lt hc) (row_lt ha hlast)
    rw [← hlen, hone, ha', Nat.zero_mul, Nat.zero_add, Nat.one_mul] at hin
    have hcell := hrow _ (by rw [hone, Nat.div_one]; exact hin) 0 hn
    rw [hone, ha', lin_axis hc, Nat.zero_mul, Nat.zero_add, Nat.one_mul]
    rw [hone, Nat.mul_one, Nat.add_zero] at hcell
    rw [hcell]
    simp only [List.range_one, List.map_singleton, lin_axis hc, Nat.zero_mul, Nat.zero_add,
      Nat.one_mul, Nat.add_zero]
  · have hzero : lin after d = 0 := by omega
    have hr : lin before c < x.length / n := by
      rw [hlen, hone, Nat.mul_one, Nat.mul_div_cancel _ hn]
      exact lin_lt hc
    have hcell := hrow _ hr a ha
    simp only [lin_axis hc, hone, hzero, Nat.mul_one, Nat.add_zero]
    exact hcell

/-- The operations of a softmax on numbers so far apart that the exponential of their differences is 0,
as it is for floats. -/
def steps : RowOps ℚ where
  gt a b := decide (b < a)
  sub a b := a - b
  exp v := if v = 0 then 1 else 0
  zero := 0
  add a b := a + b
  div a b := a / b

theorem steps_exp_zero : steps.exp (steps.sub 0 0) = 1 := by
  norm_num [steps]

theorem steps_exp_far : steps.exp (steps.sub (-1000) 0) = 0 := by
  norm_num [steps]

theorem steps_add (a b : ℚ) : steps.add a b = a + b := rfl

theorem steps_div (a b : ℚ) : steps.div a b = a / b := rfl

theorem steps_gt (a b : ℚ) : steps.gt a b = decide (b < a) := rfl

theorem steps_far {row : List ℚ} (hrow : ∀ v ∈ row, v = -1000) (acc : ℚ) :
    (row.map fun w => steps.exp (steps.sub w 0)).foldl steps.add acc = acc ∧
      row.foldl (fun mx w => if steps.gt w mx then w else mx) 0 = 0 := by
  induction row generalizing acc with
  | nil => exact ⟨rfl, rfl⟩
  | cons v row ih =>
    obtain rfl := hrow v List.mem_cons_self
    have hrest := ih (fun w hw => hrow w (List.mem_cons_of_mem _ hw)) acc
    have hmax : (if steps.gt (-1000) 0 then (-1000 : ℚ) else 0) = 0 := by
      rw [steps_gt, if_neg (by norm_num)]
    rw [List.map_cons, List.foldl_cons, List.foldl_cons, steps_exp_far, steps_add, add_zero, hmax]
    exact hrest

theorem steps_one (row : List ℚ) (hrow : ∀ v ∈ row, v = -1000) :
    (steps.softmaxRow (0 :: row))[0]? = some 1 := by
  obtain ⟨hsum, hmax⟩ := steps_far hrow 1
  have hzero : steps.zero = 0 := rfl
  unfold RowOps.softmaxRow
  simp only [hmax, List.map_cons, List.foldl_cons, steps_exp_zero]
  rw [hzero, steps_add, zero_add, hsum, steps_gt, if_pos (by norm_num), List.getElem?_cons_zero,
    steps_div, div_one]

theorem steps_two (row : List ℚ) (hrow : ∀ v ∈ row, v = -1000) :
    (steps.softmaxRow (0 :: 0 :: row))[0]? = some (1 / 2) := by
  obtain ⟨hsum, hmax⟩ := steps_far hrow 2
  have hzero : steps.zero = 0 := rfl
  have hsame : (if steps.gt 0 0 then (0 : ℚ) else 0) = 0 := ite_self 0
  have htwo : (1 : ℚ) + 1 = 2 := by norm_num
  unfold RowOps.softmaxRow
  simp only [List.foldl_cons, hsame, hmax, List.map_cons, steps_exp_zero]
  rw [hzero, steps_add, steps_add, zero_add, htwo, hsum, steps_gt, if_pos (by norm_num),
    List.getElem?_cons_zero, steps_div]

/-- Elements of which the first two are the largest. -/
def twoFirst (n : ℕ) : List ℚ := (List.range n).map fun i => if i < 2 then 0 else -1000

theorem twoFirst_getD {n i : ℕ} (hi : i < n) :
    (twoFirst n).getD i 0 = if i < 2 then 0 else -1000 := by
  unfold twoFirst
  rw [List.getD_eq_getElem _ _ (by rw [List.length_map, List.length_range]; exact hi),
    List.getElem_map, List.getElem_range]

theorem map_range_succ {α : Type} (f : ℕ → α) (m : ℕ) :
    (List.range (m + 1)).map f = f 0 :: (List.range m).map fun i => f (i + 1) := by
  rw [List.range_succ_eq_map, List.map_cons, List.map_map]
  rfl

theorem fits_of_softmax (hne : (before ++ n :: after).prod ≠ 0)
    (hright : SoftmaxRight before after negative n) : n = 1 ∨ after.prod = 1 := by
  by_contra hboth
  obtain ⟨hn1, hafter1⟩ := not_or.mp hboth
  have hprod : (before ++ n :: after).prod = before.prod * (n * after.prod) := prod_axis _ _ _
  have hall := hne
  rw [hprod] at hne
  have hbefore : 0 < before.prod := Nat.pos_of_ne_zero (Nat.ne_zero_of_mul_ne_zero_left hne)
  have hrows := Nat.ne_zero_of_mul_ne_zero_right hne
  have hn : n ≠ 0 := Nat.ne_zero_of_mul_ne_zero_left hrows
  have hafter : after.prod ≠ 0 := Nat.ne_zero_of_mul_ne_zero_right hrows
  have hlen : (twoFirst (before.prod * (n * after.prod))).length =
      (before ++ n :: after).prod := by
    rw [twoFirst, List.length_map, List.length_range, ← hprod]
  have hsome : twoFirst (before.prod * (n * after.prod)) ≠ [] := by
    intro h0
    rw [h0] at hlen
    exact hall hlen.symm
  obtain ⟨out, hrun, hcells⟩ := hright ℚ steps _ (.inl hlen)
  obtain ⟨out', hrun', hkernel⟩ :=
    softmax_rows steps (rowW_of_ne hall) (hlen.trans (rounds_of_ne hall).symm) hsome
  rw [hrun] at hrun'
  cases hrun'
  have hwhole : n ≤ before.prod * (n * after.prod) :=
    calc n ≤ n * after.prod := Nat.le_mul_of_pos_right _ (Nat.pos_of_ne_zero hafter)
      _ ≤ before.prod * (n * after.prod) := Nat.le_mul_of_pos_left _ hbefore
  have hcode := hkernel 0 (by
    rw [hlen, hprod]
    exact Nat.div_pos hwhole (Nat.pos_of_ne_zero hn)) 0 (Nat.pos_of_ne_zero hn)
  have hc := coords_within hbefore
  have hd := coords_within (Nat.pos_of_ne_zero hafter)
  have hwant := hcells _ 0 _ hc (Nat.pos_of_ne_zero hn) hd
  have hzero : steps.zero = 0 := rfl
  simp only [lin_axis hc, lin_coords hbefore, lin_coords (Nat.pos_of_ne_zero hafter), Nat.zero_mul,
    Nat.zero_add, Nat.add_zero, hzero] at hcode hwant
  rw [hcode] at hwant
  obtain ⟨m, rfl⟩ : ∃ m, n = m + 2 := ⟨n - 2, by omega⟩
  -- the kernel's first row has both of the largest elements, the requested one only the first
  have hplace {i : ℕ} (hi : i < m + 2) : i * after.prod < before.prod * ((m + 2) * after.prod) :=
    calc i * after.prod < (m + 2) * after.prod :=
          Nat.mul_lt_mul_of_pos_right hi (Nat.pos_of_ne_zero hafter)
      _ ≤ before.prod * ((m + 2) * after.prod) := Nat.le_mul_of_pos_left _ hbefore
  have htwo := steps_two ((List.range m).map fun i =>
    (twoFirst (before.prod * ((m + 2) * after.prod))).getD (i + 1 + 1) 0) (by
      intro v hv
      obtain ⟨i, hi, rfl⟩ := List.mem_map.mp hv
      have := List.mem_range.mp hi
      rw [twoFirst_getD (by omega), if_neg (by omega)])
  have hone := steps_one ((List.range (m + 1)).map fun i =>
    (twoFirst (before.prod * ((m + 2) * after.prod))).getD ((i + 1) * after.prod) 0) (by
      intro v hv
      obtain ⟨i, hi, rfl⟩ := List.mem_map.mp hv
      have hlt := List.mem_range.mp hi
      have hpos : after.prod ≤ (i + 1) * after.prod := Nat.le_mul_of_pos_left _ (Nat.succ_pos i)
      rw [twoFirst_getD (hplace (by omega)), if_neg (by omega)])
  rw [map_range_succ, map_range_succ, twoFirst_getD (by omega), twoFirst_getD (by omega),
    map_range_succ, Nat.zero_mul, twoFirst_getD (by omega)] at hwant
  rw [if_pos (by decide), if_pos (by decide)] at hwant
  rw [htwo, hone, Option.some.injEq] at hwant
  norm_num at hwant

theorem softmaxRight_iff : SoftmaxRight before after negative n ↔
    (before ++ n :: after).prod = 0 ∨ n = 1 ∨ after.prod = 1 := by
  by_cases hne : (before ++ n :: after).prod = 0
  · exact iff_of_true (softmax_of_empty hne) (.inl hne)
  · constructor
    · intro hright
      exact .inr (fits_of_softmax hne hright)
    · rintro (h0 | hfits)
      · exact absurd h0 hne
      · exact softmax_of_fits hne hfits

end Softmax

/-- Segment `k` of a split of an axis, and a softmax along an axis counted from either end, each for
every shape: when the kernel honours the axis. -/
theorem host_rows_iff (before after sizes : List ℕ) (k : ℕ) (negative : Bool) (n : ℕ) :
    (SplitRight before after sizes k ↔
      (before ++ sizes.sum :: after).prod = 0 ∨
      (sizes.getD k 0 = 0 ∧ (1 < ((before ++ sizes.sum :: after).filter (· ≠ 1)).length ∨
        k < (before ++ sizes.sum :: after).prod)) ∨
      (0 < sizes.getD k 0 ∧ k * sizes.getD k 0 = start sizes k ∧
        (after.prod = 1 ∨ sizes.getD k 0 = sizes.sum))) ∧
    (SoftmaxRight before after negative n ↔
      (before ++ n :: after).prod = 0 ∨ n = 1 ∨ after.prod = 1) :=
  ⟨splitRight_iff, softmaxRight_iff⟩

/-- The upper row of a square comes out as its left column. -/
theorem upperRow_not_split : ¬ ((∀ before after sizes k, SplitRight before after sizes k) ∧
    ∀ before after negative n, SoftmaxRight before after negative n) := by
  intro hall
  have hright := hall.1 [] [2] [1, 1] 0
  have hfits := fits_of_right (by decide) (by decide) hright
  exact absurd hfits.2 (by decide)

end Gehtp.Analysis.HostRows
