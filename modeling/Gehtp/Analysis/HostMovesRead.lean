import Gehtp.Model.HostMoves
import Gehtp.Analysis.HostRows

/-!
# What the host's kernels move

Transpose and StridedSlice read the right element for every place of the output. What can go wrong is
an output without elements: for it the kernels compute one element nevertheless, and they divide by the
product of the sizes behind an axis. Concat joins inputs of fitting shapes in any axis. The broadcast
index is computed in 32-bit arithmetic; beyond `2 ^ 32` elements it repeats itself, which is right only
if the elements it reads do.
-/

set_option autoImplicit false

namespace Gehtp.Analysis.HostMovesRead

open Lib Lib.RowMajor Lib.Axes Model.DeviceTensor Model.HostKernels Model.HostMoves
  Analysis.BroadcastReads Analysis.HostRows

variable {i d c s inner e : ℕ} {cs ss es : List ℕ} {t : ℕ × ℕ × ℕ}

/-! ### Loops over the places of the output -/

section Loops

variable {α : Type} {f : ℕ → Checked String α} {n : ℕ}

theorem mapM_range (h : ∀ i < n, ∃ v, f i = .ok v) :
    ∃ out, (List.range n).mapM f = .ok out ∧ ∀ i < n, ∀ v, f i = .ok v → out[i]? = some v := by
  by_cases hn : n = 0
  · refine ⟨[], ?_, ?_⟩
    · rw [hn]
      rfl
    · intro i hi
      omega
  obtain ⟨v₀, -⟩ := h 0 (by omega)
  have : Nonempty α := ⟨v₀⟩
  choose! g hg using h
  refine ⟨(List.range n).map g, mapM_of_ok fun i hi => hg i (List.mem_range.mp hi), ?_⟩
  intro i hi v hv
  rw [hg i hi] at hv
  cases hv
  rw [List.getElem?_map, List.getElem?_range hi]
  rfl

theorem mapM_range_inv {out : List α} (h : (List.range n).mapM f = .ok out) (hi : i < n) :
    ∃ v, f i = .ok v := by
  rw [mapM_eq_ok, List.forall₂_iff_get] at h
  obtain ⟨hlen, hget⟩ := h
  have hget := hget i (by rw [List.length_range]; exact hi) (by
    rw [← hlen, List.length_range]
    exact hi)
  rw [List.get_eq_getElem, List.getElem_range] at hget
  exact ⟨_, hget⟩

theorem rounds_pos (dims : List ℕ) : 0 < rounds dims := by
  unfold rounds
  split <;> omega

end Loops

/-! ### The coordinates of the output -/

section Walk

variable {dims : List ℕ}

theorem walk_error (h : 0 ∈ dims.drop 1) (i : ℕ) : walk (strides dims) i = .error .fault := by
  cases dims with
  | nil => exact absurd h List.not_mem_nil
  | cons d ds =>
    have hzero : ds.prod = 0 := List.prod_eq_zero h
    rw [strides_cons, walk, if_pos hzero]

theorem walk_ok (h : 0 ∉ dims.drop 1) (i : ℕ) : walk (strides dims) i = .ok (coords dims i) := by
  cases dims with
  | nil => rfl
  | cons d ds =>
    have htail : 0 < ds.prod := Nat.pos_of_ne_zero fun h0 => h (List.prod_eq_zero_iff.mp h0)
    rw [strides_cons, walk, if_neg htail.ne', walk_strides htail]
    rfl

theorem map_u32_of {dims : List ℕ} (h : ∀ d ∈ dims, d < 2 ^ 32) : dims.map u32 = dims := by
  rw [List.map_congr_left fun d hd => u32_of_lt (h d hd), List.map_id']

theorem replicate_lt {k : ℕ} {dims : List ℕ} (h : ∀ d ∈ dims, d < 2 ^ 32) :
    ∀ d ∈ List.replicate k 1 ++ dims, d < 2 ^ 32 := by
  intro d hd
  rcases List.mem_append.mp hd with hd | hd
  · rw [List.eq_of_mem_replicate hd]
    decide
  · exact h d hd

theorem alignRight_eq {rank j : ℕ} {dims : List ℕ} (hle : j + dims.length ≤ rank)
    (hsizes : ∀ d ∈ dims, d < 2 ^ 32) :
    alignRight rank (List.replicate j 1 ++ dims) =
      List.replicate (rank - dims.length) 1 ++ dims := by
  have hcount : rank - (j + dims.length) + j = rank - dims.length := by omega
  unfold alignRight
  rw [map_u32_of (replicate_lt hsizes), List.length_append, List.length_replicate,
    ← List.append_assoc, ← List.replicate_add, hcount]
  apply List.take_of_length_le
  rw [List.length_append, List.length_replicate]
  omega

end Walk

/-! ### Transpose -/

/-- A transpose of a tensor of this shape: the permutation is given, or it is the reverse order and the
output has as many axes. Both shapes may be filled up in front. -/
structure Permutes (op : HostTranspose) (dims q : List ℕ) : Prop where
  rank : op.outDims.length ≤ 5
  axes : 0 < dims.length
  sizes : ∀ d ∈ dims, d < 2 ^ 32
  perm : q.Perm (List.range dims.length)
  inDims : ∃ j, op.inDims = List.replicate j 1 ++ dims ∧ op.inDims.length ≤ op.outDims.length
  outDims : ∃ k, op.outDims = List.replicate k 1 ++ pick q dims
  param : op.perm = some (q.map Int.ofNat) ∨
    (op.perm = none ∧ op.outDims.length = dims.length ∧ q = (List.range dims.length).reverse)

/-- Every element of the input is found at its coordinates in the new order. -/
def TransposeRight (op : HostTranspose) (dims q : List ℕ) : Prop :=
  ∀ (F : Type) (zero : F) (x : List F), BufferOf x op.inDims →
    ∃ out, op.execute zero x = .ok out ∧
      ∀ cs, Within cs dims → out[lin (pick q dims) (pick q cs)]? = x[lin dims cs]?

section Transpose

variable {op : HostTranspose} {dims q : List ℕ}

theorem prod_ones (k : ℕ) (dims : List ℕ) : (List.replicate k 1 ++ dims).prod = dims.prod := by
  rw [List.prod_append, prod_replicate_one, Nat.one_mul]

theorem rounds_ones (k : ℕ) (dims : List ℕ) : rounds (List.replicate k 1 ++ dims) = rounds dims := by
  unfold rounds
  rw [prod_ones]

/-- The permutation with axes in front that stay where they are. -/
def behind (k : ℕ) (q : List ℕ) : List ℕ := List.range k ++ q.map (· + k)

theorem Permutes.lead (h : Permutes op dims q) : ∃ k, op.outDims.length = k + dims.length ∧
    op.outDims = List.replicate k 1 ++ pick q dims := by
  obtain ⟨k, hk⟩ := h.outDims
  refine ⟨k, ?_, hk⟩
  rw [hk, List.length_append, List.length_replicate, length_pick, length_perm h.perm]

theorem Permutes.outSizes (h : Permutes op dims q) : ∀ d ∈ op.outDims, d < 2 ^ 32 := by
  obtain ⟨k, -, hout⟩ := h.lead
  rw [hout]
  apply replicate_lt
  intro d hd
  obtain ⟨a, ha, rfl⟩ := List.mem_map.mp hd
  have hlt := lt_of_mem_perm h.perm ha
  rw [List.getD_eq_getElem _ _ hlt]
  exact h.sizes _ (List.getElem_mem hlt)

variable {k : ℕ}

theorem axes_eq (h : Permutes op dims q) (hk : op.outDims.length = k + dims.length) :
    op.axes = .ok (behind k q) := by
  have hrank := h.rank
  have haxes := h.axes
  have hlen := length_perm h.perm
  unfold HostTranspose.axes behind
  rcases h.param with hparam | ⟨hparam, hsame, hq⟩
  · rw [hparam]
    simp only [List.length_map, hlen]
    rw [if_neg (by omega), show op.outDims.length - dims.length = k by omega]
    have hread : ((List.range dims.length).mapM fun d =>
        (entryAt (q.map Int.ofNat) d).map fun (a : ℤ) => u32 ((a % 2 ^ 32).toNat + k) :
          Checked String (List ℕ)) = .ok (q.map (· + k)) := by
      rw [mapM_eq_ok, List.forall₂_iff_get]
      refine ⟨by rw [List.length_map, List.length_range, hlen], ?_⟩
      intro d hd hd'
      have hdq : d < q.length := by
        rw [List.length_map] at hd'
        exact hd'
      have hlt : q[d] < dims.length := lt_of_mem_perm h.perm (List.getElem_mem hdq)
      have hword : ((q[d] : ℤ) % 2 ^ 32).toNat = q[d] := by
        rw [Int.emod_eq_of_lt (by omega) (by omega), Int.toNat_natCast]
      rw [List.get_eq_getElem, List.get_eq_getElem, List.getElem_range, List.getElem_map, map_eq_ok]
      refine ⟨(q[d] : ℤ), ?_, ?_⟩
      · rw [entryAt_eq_ok, List.getElem?_map, List.getElem?_eq_getElem hdq]
        rfl
      · rw [hword, u32_of_lt (by omega)]
    rw [hread]
    rfl
  · obtain rfl : k = 0 := by omega
    rw [hparam]
    simp only
    rw [hsame, hq, List.range_zero, List.nil_append]
    simp only [Nat.add_zero, List.map_id']

theorem transpose_address (h : Permutes op dims q) (hk : op.outDims.length = k + dims.length)
    (hdiv : 0 ∉ op.outDims.drop 1) (i : ℕ) :
    op.address i = .ok (dot (pick (behind k q) (strides (List.replicate k 1 ++ dims)))
      (coords op.outDims i)) := by
  obtain ⟨j, hin, hshort⟩ := h.inDims
  have halign : alignRight op.outDims.length op.inDims = List.replicate k 1 ++ dims := by
    rw [hin, List.length_append, List.length_replicate] at hshort
    rw [hin, alignRight_eq hshort h.sizes, hk, Nat.add_sub_cancel]
  have hread : (behind k q).mapM (entryAt (strides (List.replicate k 1 ++ dims))) =
      (.ok (pick (behind k q) (strides (List.replicate k 1 ++ dims))) :
        Checked String (List ℕ)) := by
    apply mapM_of_ok
    intro a ha
    have hlt : a < (strides (List.replicate k 1 ++ dims)).length := by
      rw [length_strides, List.length_append, List.length_replicate]
      exact lt_of_mem_perm (perm_pad h.perm k) ha
    rw [entryAt_eq_ok, List.getD_eq_getElem _ _ hlt, List.getElem?_eq_getElem]
  unfold HostTranspose.address
  rw [map_u32_of h.outSizes, walk_ok hdiv, axes_eq h hk, halign]
  show Except.map _ _ = _
  rw [hread]
  rfl

theorem transpose_place (h : Permutes op dims q) (hk : op.outDims.length = k + dims.length)
    (hout : op.outDims = List.replicate k 1 ++ pick q dims) (hdiv : 0 ∉ op.outDims.drop 1)
    (hcs : Within cs dims) : op.address (lin (pick q dims) (pick q cs)) = .ok (lin dims cs) := by
  have hpick := pick_within hcs fun a => lt_of_mem_perm h.perm
  have hcoords : coords op.outDims (lin (pick q dims) (pick q cs)) =
      List.replicate k 0 ++ pick q cs := by
    rw [hout, ← lin_pad k]
    exact coords_lin (pad_within k hpick)
  have hfront : pick (behind k q) (List.replicate k 0 ++ cs) = List.replicate k 0 ++ pick q cs := by
    have hpad := pick_pad q (List.replicate k 0) cs
    rw [List.length_replicate] at hpad
    exact hpad
  rw [transpose_address h hk hdiv, hcoords, ← hfront, dot_pick, dot_strides, lin_pad]
  · rw [length_strides, List.length_append, List.length_replicate]
    exact perm_pad h.perm k
  · rw [length_strides, List.length_append, List.length_append, List.length_replicate,
      List.length_replicate, hcs.length_eq]

/-- Only an input without elements has an empty buffer. -/
theorem prod_of_nil {F : Type} {dims : List ℕ} (h : BufferOf ([] : List F) dims) :
    dims.prod = 0 := by
  cases h with
  | inl h => exact h.symm
  | inr h => exact absurd h (Nat.ne_of_lt (rounds_pos dims))

theorem length_pos_of_rounds {F : Type} {x : List F} {dims : List ℕ} (h : BufferOf x dims)
    (hx : x ≠ []) : x.length = rounds dims := by
  cases h with
  | inr h => exact h
  | inl h =>
    have hne : dims.prod ≠ 0 := by
      rw [← h]
      exact fun h0 => hx (List.length_eq_zero_iff.mp h0)
    rw [h, rounds_of_ne hne]

/-- Without a zero divisor every element is moved. -/
theorem transpose_of_ok (h : Permutes op dims q) (hdiv : 0 ∉ op.outDims.drop 1) :
    TransposeRight op dims q := by
  intro F zero x hbuf
  obtain ⟨k, hk, hout⟩ := h.lead
  obtain ⟨j, hin, -⟩ := h.inDims
  have hprod : (pick q dims).prod = dims.prod := prod_pick h.perm
  have hrounds : rounds op.outDims = rounds dims := by
    rw [hout, rounds_ones, rounds, hprod, rounds]
  by_cases hx : x = []
  · refine ⟨_, if_pos hx, ?_⟩
    intro cs hcs
    have hzero : dims.prod = 0 := by
      rw [← prod_of_nil (hx ▸ hbuf), hin, prod_ones]
    have := hcs.prod_pos
    omega
  have hlen : x.length = rounds dims := by
    rw [length_pos_of_rounds hbuf hx, hin, rounds_ones]
  have hcell (i : ℕ) (hi : i < rounds op.outDims) : ∃ v, ((op.address i).bind fun src =>
      if src < rounds op.outDims then entryAt x src else .ok zero) = .ok v := by
    rw [transpose_address h hk hdiv]
    show ∃ v, (if _ < rounds op.outDims then entryAt x _ else Except.ok zero) = .ok v
    split
    · rename_i hlt
      rw [hrounds, ← hlen] at hlt
      exact ⟨_, (entryAt_eq_ok _ _ _).mpr (List.getElem?_eq_getElem hlt)⟩
    · exact ⟨zero, rfl⟩
  obtain ⟨out, hrun, hval⟩ := mapM_range hcell
  refine ⟨out, ?_, ?_⟩
  · unfold HostTranspose.execute
    rw [if_neg hx, hrun]
  · intro cs hcs
    have hsrc := lin_lt hcs
    have hdst := lin_lt (pick_within hcs fun a => lt_of_mem_perm h.perm)
    have hpos : rounds dims = dims.prod := rounds_of_ne (by omega)
    have hlt : lin dims cs < x.length := by omega
    rw [List.getElem?_eq_getElem hlt]
    apply hval _ (by omega)
    rw [transpose_place h hk hout hdiv hcs]
    show (if lin dims cs < rounds op.outDims then entryAt x _ else Except.ok zero) = .ok _
    rw [if_pos (by omega), entryAt_eq_ok, List.getElem?_eq_getElem hlt]

theorem buffer_ne_nil (dims : List ℕ) : List.replicate (rounds dims) 0 ≠ [] := by
  intro h0
  have hlen := congrArg List.length h0
  rw [List.length_replicate, List.length_nil] at hlen
  have := rounds_pos dims
  omega

theorem transpose_iff (h : Permutes op dims q) :
    TransposeRight op dims q ↔ 0 ∉ op.outDims.drop 1 := by
  constructor
  · intro hright hzero
    obtain ⟨out, hrun, -⟩ := hright ℕ 0 (List.replicate (rounds op.inDims) 0)
      (.inr List.length_replicate)
    unfold HostTranspose.execute at hrun
    rw [if_neg (buffer_ne_nil _)] at hrun
    obtain ⟨v, hv⟩ := mapM_range_inv hrun (rounds_pos op.outDims)
    unfold HostTranspose.address at hv
    rw [map_u32_of h.outSizes, walk_error hzero] at hv
    cases hv
  · exact transpose_of_ok h

end Transpose

/-! ### StridedSlice -/

/-- The range of an axis. -/
structure SliceRange where
  first : ℕ
  stop : ℕ
  step : ℕ
  deriving DecidableEq, Repr

namespace SliceRange

variable (r : SliceRange)

/-- How many coordinates are taken. -/
def count : ℕ := (r.stop - r.first + r.step - 1) / r.step

/-- The range lies in an axis of this size, and its numbers are those of a constant of 32 bits. -/
def FitsAxis (d : ℕ) : Prop :=
  r.first ≤ r.stop ∧ r.stop ≤ d ∧ 0 < r.step ∧ r.stop < 2 ^ 31 ∧ r.step < 2 ^ 31

end SliceRange

/-- A slice of a tensor of this shape. Both shapes may be filled up in front. -/
structure Slices (op : HostSlice) (dims : List ℕ) (rs : List SliceRange) : Prop where
  rank : op.outDims.length ≤ 5
  sizes : ∀ d ∈ dims, d < 2 ^ 32
  fits : List.Forall₂ SliceRange.FitsAxis rs dims
  ranges : op.ranges = rs.flatMap fun r => [(r.first : ℤ), (r.stop : ℤ), (r.step : ℤ)]
  inDims : ∃ j, op.inDims = List.replicate j 1 ++ dims ∧ op.inDims.length ≤ op.outDims.length
  outDims : ∃ k, op.outDims = List.replicate k 1 ++ rs.map SliceRange.count

/-- The coordinates that a cell of the slice is taken from. -/
def sliceAt (rs : List SliceRange) (cs : List ℕ) : List ℕ :=
  List.zipWith (fun r c => r.first + c * r.step) rs cs

/-- Every cell of the slice has its element. -/
def SliceRight (op : HostSlice) (dims : List ℕ) (rs : List SliceRange) : Prop :=
  ∀ (F : Type) (zero : F) (x : List F), BufferOf x op.inDims →
    ∃ out, op.execute zero x = .ok out ∧ ∀ cs, Within cs (rs.map SliceRange.count) →
      out[lin (rs.map SliceRange.count) cs]? = x[lin dims (sliceAt rs cs)]?

section Slice

variable {op : HostSlice} {dims : List ℕ} {rs : List SliceRange} {k : ℕ}

theorem lt_of_lt_count {r : SliceRange} (h : r.FitsAxis d) (hc : c < r.count) :
    r.first + c * r.step < r.stop := by
  obtain ⟨hfirst, -, hstep, -⟩ := h
  have hmul : (c + 1) * r.step ≤ r.stop - r.first + r.step - 1 :=
    (Nat.le_div_iff_mul_le hstep).mp hc
  rw [Nat.succ_mul] at hmul
  omega

theorem sliceAt_within (h : List.Forall₂ SliceRange.FitsAxis rs dims)
    (hcs : Within cs (rs.map SliceRange.count)) : Within (sliceAt rs cs) dims := by
  induction h generalizing cs with
  | nil =>
    cases hcs
    exact List.Forall₂.nil
  | cons hr _ ih =>
    cases hcs with
    | cons hc hcs =>
      apply List.Forall₂.cons _ (ih hcs)
      have := lt_of_lt_count hr hc
      exact Nat.lt_of_lt_of_le this hr.2.1

theorem ranges_at (rs : List SliceRange) {ax : ℕ} (hax : ax < rs.length) :
    (rs.flatMap fun r => [(r.first : ℤ), (r.stop : ℤ), (r.step : ℤ)])[ax * 3]? =
        some (rs[ax].first : ℤ) ∧
      (rs.flatMap fun r => [(r.first : ℤ), (r.stop : ℤ), (r.step : ℤ)])[ax * 3 + 1]? =
        some (rs[ax].stop : ℤ) ∧
      (rs.flatMap fun r => [(r.first : ℤ), (r.stop : ℤ), (r.step : ℤ)])[ax * 3 + 2]? =
        some (rs[ax].step : ℤ) := by
  induction rs generalizing ax with
  | nil => exact absurd hax (Nat.not_lt_zero ax)
  | cons r rs ih =>
    cases ax with
    | zero => exact ⟨rfl, rfl, rfl⟩
    | succ ax =>
      have hrest := ih (Nat.lt_of_succ_lt_succ hax)
      rw [Nat.succ_mul]
      exact hrest

theorem length_ranges (rs : List SliceRange) :
    (rs.flatMap fun r => [(r.first : ℤ), (r.stop : ℤ), (r.step : ℤ)]).length = rs.length * 3 := by
  induction rs with
  | nil => rfl
  | cons r rs ih =>
    rw [List.flatMap_cons, List.length_append, ih]
    show 3 + rs.length * 3 = (rs.length + 1) * 3
    omega

theorem Slices.lead (h : Slices op dims rs) : ∃ k, op.outDims.length = k + rs.length ∧
    op.outDims = List.replicate k 1 ++ rs.map SliceRange.count := by
  obtain ⟨k, hk⟩ := h.outDims
  refine ⟨k, ?_, hk⟩
  rw [hk, List.length_append, List.length_replicate, List.length_map]

theorem steps_eq (h : Slices op dims rs) (hk : op.outDims.length = k + rs.length) :
    op.steps = .ok (List.replicate k (0, 1) ++ rs.map fun r => ((r.first : ℤ), (r.step : ℤ))) := by
  have haxes : op.nAxes = rs.length := by
    unfold HostSlice.nAxes
    simp only [h.ranges, length_ranges]
    rw [if_pos ⟨Nat.mul_mod_left _ _, by omega⟩]
    omega
  have hread : ((List.range rs.length).mapM fun ax => do
      let b ← entryAt op.ranges (ax * 3)
      let _ ← entryAt op.ranges (ax * 3 + 1)
      let s ← entryAt op.ranges (ax * 3 + 2)
      .ok (b, if s = 0 then 1 else s) : Checked String (List (ℤ × ℤ))) =
      .ok (rs.map fun r => ((r.first : ℤ), (r.step : ℤ))) := by
    rw [mapM_eq_ok, List.forall₂_iff_get]
    refine ⟨by rw [List.length_map, List.length_range], ?_⟩
    intro ax hax hax'
    have hlt : ax < rs.length := by
      rw [List.length_range] at hax
      exact hax
    obtain ⟨hb, he, hs⟩ := ranges_at rs hlt
    have hfit := h.fits.get hlt (h.fits.length_eq ▸ hlt)
    have hpos : 0 < rs[ax].step := hfit.2.2.1
    have hstep : (rs[ax].step : ℤ) ≠ 0 := by omega
    rw [List.get_eq_getElem, List.get_eq_getElem, List.getElem_range, List.getElem_map, h.ranges]
    rw [bind_eq_ok]
    refine ⟨_, (entryAt_eq_ok _ _ _).mpr hb, ?_⟩
    rw [bind_eq_ok]
    refine ⟨_, (entryAt_eq_ok _ _ _).mpr he, ?_⟩
    rw [bind_eq_ok]
    refine ⟨_, (entryAt_eq_ok _ _ _).mpr hs, ?_⟩
    rw [if_neg hstep]
  unfold HostSlice.steps
  rw [haxes, hread, hk, Nat.add_sub_cancel]
  rfl

theorem sliceCoord_eq {b : ℕ} (hc : c < 2 ^ 31) (hb : b + c * s < 2 ^ 31) :
    sliceCoord b s c = .ok ((b + c * s : ℕ) : ℤ) := by
  have hcast : (c : ℤ).bmod (2 ^ 32) = c := by
    apply Int.bmod_eq_of_le <;> omega
  have hle : c * s ≤ b + c * s := Nat.le_add_left _ _
  have hmul : ((c * s : ℕ) : ℤ) = (c : ℤ) * s := Nat.cast_mul c s
  unfold sliceCoord InInt
  simp only [hcast]
  rw [← hmul, if_pos (by omega), ← Nat.cast_add]

theorem sliceOffset_lead (k : ℕ) (st : List (ℤ × ℤ)) (cs dims : List ℕ) :
    sliceOffset (List.replicate k (0, 1) ++ st) (List.replicate k 0 ++ cs)
        (strides (List.replicate k 1 ++ dims)) = sliceOffset st cs (strides dims) := by
  induction k with
  | zero => rfl
  | succ k ih =>
    have hzero : sliceCoord 0 1 0 = .ok 0 := by decide
    rw [List.replicate_succ, List.replicate_succ, List.replicate_succ, List.cons_append,
      List.cons_append, List.cons_append, strides_cons, sliceOffset, ih, hzero]
    show Except.map _ (sliceOffset st cs (strides dims)) = _
    cases sliceOffset st cs (strides dims) with
    | error e => rfl
    | ok z =>
      show Except.ok (0 * _ + z) = Except.ok z
      rw [Int.zero_mul, Int.zero_add]

theorem sliceOffset_eq (hlen : rs.length = dims.length) (hcs : cs.length = rs.length)
    (h : List.Forall₂ (fun r c => c < 2 ^ 31 ∧ SliceRange.first r + c * r.step < 2 ^ 31) rs cs) :
    sliceOffset (rs.map fun r => ((r.first : ℤ), (r.step : ℤ))) cs (strides dims) =
      .ok ((lin dims (sliceAt rs cs) : ℕ) : ℤ) := by
  induction h generalizing dims with
  | nil =>
    rw [List.length_eq_zero_iff.mp hlen.symm]
    rfl
  | @cons r c rs cs hc _ ih =>
    cases dims with
    | nil => exact absurd hlen (Nat.succ_ne_zero _)
    | cons d dims =>
      have hrest := ih (Nat.succ.inj hlen) (Nat.succ.inj hcs)
      rw [List.map_cons, strides_cons, sliceOffset, sliceCoord_eq hc.1 hc.2, hrest]
      show Except.ok (((r.first + c * r.step : ℕ) : ℤ) * (dims.prod : ℤ) +
        ((lin dims (sliceAt rs cs) : ℕ) : ℤ)) = _
      rw [← Nat.cast_mul, ← Nat.cast_add]
      rfl

theorem Slices.outSizes (h : Slices op dims rs) : ∀ d ∈ op.outDims, d < 2 ^ 32 := by
  obtain ⟨k, hout⟩ := h.outDims
  rw [hout]
  apply replicate_lt
  intro d hd
  obtain ⟨r, hr, rfl⟩ := List.mem_map.mp hd
  obtain ⟨i, hi, rfl⟩ := List.getElem_of_mem hr
  obtain ⟨-, -, hstep, hstop, hsmall⟩ := h.fits.get hi (h.fits.length_eq ▸ hi)
  have hle := Nat.div_le_self (rs[i].stop - rs[i].first + rs[i].step - 1) rs[i].step
  rw [List.get_eq_getElem] at hstop hsmall hstep
  unfold SliceRange.count
  dsimp only at hstop hsmall hstep
  omega

theorem slice_address (h : Slices op dims rs) (hk : op.outDims.length = k + rs.length)
    (hdiv : 0 ∉ op.outDims.drop 1) (hcoords : coords op.outDims i = List.replicate k 0 ++ cs)
    (hcs : List.Forall₂ (fun r c => c < 2 ^ 31 ∧ SliceRange.first r + c * r.step < 2 ^ 31) rs cs) :
    op.address i = .ok ((lin dims (sliceAt rs cs) : ℕ) : ℤ) := by
  obtain ⟨j, hin, hshort⟩ := h.inDims
  have hlen := h.fits.length_eq
  have halign : alignRight op.outDims.length op.inDims = List.replicate k 1 ++ dims := by
    rw [hin, List.length_append, List.length_replicate] at hshort
    rw [hin, alignRight_eq hshort h.sizes, hk, hlen, Nat.add_sub_cancel]
  unfold HostSlice.address
  rw [steps_eq h hk, map_u32_of h.outSizes, walk_ok hdiv, hcoords, halign]
  show sliceOffset _ _ _ = _
  rw [sliceOffset_lead, sliceOffset_eq hlen hcs.length_eq.symm hcs]

theorem slice_place (h : Slices op dims rs) (hk : op.outDims.length = k + rs.length)
    (hout : op.outDims = List.replicate k 1 ++ rs.map SliceRange.count)
    (hdiv : 0 ∉ op.outDims.drop 1) (hcs : Within cs (rs.map SliceRange.count)) :
    op.address (lin (rs.map SliceRange.count) cs) = .ok ((lin dims (sliceAt rs cs) : ℕ) : ℤ) := by
  have hcoords : coords op.outDims (lin (rs.map SliceRange.count) cs) =
      List.replicate k 0 ++ cs := by
    rw [hout, ← lin_pad k]
    exact coords_lin (pad_within k hcs)
  apply slice_address h hk hdiv hcoords
  have hlen := hcs.length_eq
  rw [List.length_map] at hlen
  rw [List.forall₂_iff_get]
  refine ⟨hlen.symm, ?_⟩
  intro a ha ha'
  have hfit := h.fits.get ha (h.fits.length_eq ▸ ha)
  have hlt := hcs.get ha' (by rw [List.length_map]; exact ha)
  rw [List.get_eq_getElem, List.get_eq_getElem, List.getElem_map] at hlt
  rw [List.get_eq_getElem, List.get_eq_getElem] at hfit
  rw [List.get_eq_getElem, List.get_eq_getElem]
  have hend := lt_of_lt_count hfit hlt
  have hmul : cs[a] ≤ cs[a] * rs[a].step := Nat.le_mul_of_pos_right _ hfit.2.2.1
  have hstop := hfit.2.2.2.1
  dsimp only at hend hstop ⊢
  omega

theorem slice_first (h : Slices op dims rs) (hdiv : 0 ∉ op.outDims.drop 1) :
    op.address 0 = .ok ((lin dims (rs.map SliceRange.first) : ℕ) : ℤ) := by
  obtain ⟨k, hk, hout⟩ := h.lead
  have hcoords : coords op.outDims 0 = List.replicate k 0 ++ List.replicate rs.length 0 := by
    rw [coords_zero, hk, List.replicate_add]
  have hzero : sliceAt rs (List.replicate rs.length 0) = rs.map SliceRange.first := by
    apply List.ext_getElem
    · rw [sliceAt, List.length_zipWith, List.length_replicate, List.length_map, Nat.min_self]
    · intro a ha ha'
      simp only [sliceAt, List.getElem_zipWith, List.getElem_replicate, List.getElem_map,
        Nat.zero_mul, Nat.add_zero]
  rw [slice_address h hk hdiv hcoords, hzero]
  rw [List.forall₂_iff_get]
  refine ⟨List.length_replicate.symm, ?_⟩
  intro a ha ha'
  have hfit := h.fits.get ha (h.fits.length_eq ▸ ha)
  rw [List.get_eq_getElem, List.get_eq_getElem] at hfit
  rw [List.get_eq_getElem, List.get_eq_getElem, List.getElem_replicate]
  obtain ⟨hfirst, -, -, hstop, -⟩ := hfit
  omega

/-- Without a zero divisor, and with the start inside, every element is copied. -/
theorem slice_of_ok (h : Slices op dims rs) (hdiv : 0 ∉ op.outDims.drop 1)
    (hfirst : lin dims (rs.map SliceRange.first) < rounds dims) : SliceRight op dims rs := by
  intro F zero x hbuf
  obtain ⟨k, hk, hout⟩ := h.lead
  obtain ⟨j, hin, -⟩ := h.inDims
  have hrounds : rounds op.outDims = rounds (rs.map SliceRange.count) := by
    rw [hout, rounds_ones]
  by_cases hx : x = []
  · refine ⟨_, if_pos hx, ?_⟩
    intro cs hcs
    have hzero : dims.prod = 0 := by
      rw [← prod_of_nil (hx ▸ hbuf), hin, prod_ones]
    have := (sliceAt_within h.fits hcs).prod_pos
    omega
  have hlen : x.length = rounds dims := by
    rw [length_pos_of_rounds hbuf hx, hin, rounds_ones]
  have hread {i p : ℕ} (hp : op.address i = .ok (p : ℤ)) (hlt : p < x.length) :
      ((op.address i).bind fun src =>
        if 0 ≤ src then entryAt x src.toNat else .error .fault) = .ok x[p] := by
    rw [hp]
    show (if (0 : ℤ) ≤ p then entryAt x (p : ℤ).toNat else Except.error Stop.fault) = _
    rw [if_pos (by omega), Int.toNat_natCast, entryAt_eq_ok, List.getElem?_eq_getElem hlt]
  have hplace {cs : List ℕ} (hcs : Within cs (rs.map SliceRange.count)) :
      lin dims (sliceAt rs cs) < x.length := by
    have hlt := lin_lt (sliceAt_within h.fits hcs)
    rw [hlen, rounds_of_ne (by omega)]
    exact hlt
  have hcell (i : ℕ) (hi : i < rounds op.outDims) : ∃ v, ((op.address i).bind fun src =>
      if 0 ≤ src then entryAt x src.toNat else .error .fault) = .ok v := by
    by_cases hne : (rs.map SliceRange.count).prod = 0
    · rw [hrounds, rounds, if_pos hne] at hi
      obtain rfl : i = 0 := by omega
      exact ⟨_, hread (slice_first h hdiv) (by omega)⟩
    · rw [hrounds, rounds_of_ne hne] at hi
      have hcs := coords_within hi
      have haddr := slice_place h hk hout hdiv hcs
      rw [lin_coords hi] at haddr
      exact ⟨_, hread haddr (hplace hcs)⟩
  obtain ⟨out, hrun, hval⟩ := mapM_range hcell
  refine ⟨out, ?_, ?_⟩
  · unfold HostSlice.execute
    rw [if_neg hx, hrun]
  · intro cs hcs
    have hdst := lin_lt hcs
    rw [List.getElem?_eq_getElem (hplace hcs)]
    apply hval
    · rw [hrounds, rounds_of_ne (by omega)]
      exact hdst
    · exact hread (slice_place h hk hout hdiv hcs) (hplace hcs)

theorem slice_iff (h : Slices op dims rs) : SliceRight op dims rs ↔
    0 ∉ op.outDims.drop 1 ∧ lin dims (rs.map SliceRange.first) < rounds dims := by
  constructor
  · intro hright
    obtain ⟨k, hk, -⟩ := h.lead
    obtain ⟨j, hin, -⟩ := h.inDims
    obtain ⟨out, hrun, -⟩ := hright ℕ 0 (List.replicate (rounds op.inDims) 0)
      (.inr List.length_replicate)
    unfold HostSlice.execute at hrun
    rw [if_neg (buffer_ne_nil _)] at hrun
    obtain ⟨v, hv⟩ := mapM_range_inv hrun (rounds_pos op.outDims)
    have hdiv : 0 ∉ op.outDims.drop 1 := by
      intro hzero
      unfold HostSlice.address at hv
      rw [steps_eq h hk, map_u32_of h.outSizes, walk_error hzero] at hv
      cases hv
    refine ⟨hdiv, ?_⟩
    rw [slice_first h hdiv] at hv
    replace hv : (if (0 : ℤ) ≤ (lin dims (rs.map SliceRange.first) : ℕ) then
        entryAt (List.replicate (rounds op.inDims) 0)
          ((lin dims (rs.map SliceRange.first) : ℕ) : ℤ).toNat
      else Except.error Stop.fault) = .ok v := hv
    rw [if_pos (by omega), Int.toNat_natCast, entryAt_eq_ok] at hv
    obtain ⟨hlt, -⟩ := List.getElem?_eq_some_iff.mp hv
    rw [List.length_replicate, hin, rounds_ones] at hlt
    exact hlt
  · rintro ⟨hdiv, hfirst⟩
    exact slice_of_ok h hdiv hfirst

end Slice

/-! ### Concat -/

/-- A concatenation of tensors that differ in the size of one axis only. The axis is counted from the
front or from the end; without one it is the last. -/
structure Joins (op : HostConcat) (before after sizes : List ℕ) : Prop where
  others : ∀ d ∈ before ++ after, d < 2 ^ 32
  inDims : op.inDims = sizes.map fun n => before ++ n :: after
  outDims : op.outDims = before ++ sizes.sum :: after
  axis : op.axis = some (before.length : ℤ) ∨ op.axis = some (-(after.length + 1 : ℤ)) ∨
    (op.axis = none ∧ after = [])

/-- Every element of every input is found behind those of the inputs in front. -/
def ConcatRight (op : HostConcat) (before after sizes : List ℕ) : Prop :=
  ∀ (F : Type) (xs : List (List F)) (old : List F), List.Forall₂ BufferOf xs op.inDims →
    old.length = rounds op.outDims →
    ∃ out, op.execute xs old = .ok out ∧ ∀ k x, xs[k]? = some x →
      ∀ c a d, Within c before → a < sizes.getD k 0 → Within d after →
        out[lin (before ++ sizes.sum :: after) (c ++ (start sizes k + a) :: d)]? =
          x[lin (before ++ sizes.getD k 0 :: after) (c ++ a :: d)]?

section Concat

variable {op : HostConcat} {before after sizes : List ℕ}

theorem getD_axis (before after : List ℕ) (n : ℕ) :
    (before ++ n :: after).getD before.length 1 = n := by
  rw [List.getD_append_right _ _ _ _ le_rfl, Nat.sub_self, List.getD_cons_zero]

theorem getD_other {before after : List ℕ} (n m : ℕ) (hd : d ≠ before.length) :
    (before ++ n :: after).getD d 1 = (before ++ m :: after).getD d 1 := by
  by_cases hlt : d < before.length
  · rw [List.getD_append _ _ _ _ hlt, List.getD_append _ _ _ _ hlt]
  · obtain ⟨e, he⟩ : ∃ e, d - before.length = e + 1 := ⟨d - before.length - 1, by omega⟩
    rw [List.getD_append_right _ _ _ _ (by omega), List.getD_append_right _ _ _ _ (by omega), he,
      List.getD_cons_succ, List.getD_cons_succ]

theorem fitsAt_axis (h : Joins op before after sizes) : op.fitsAt before.length = true := by
  unfold HostConcat.fitsAt
  rw [Bool.and_eq_true, List.all_eq_true, decide_eq_true_iff, h.inDims, h.outDims]
  constructor
  · intro dims hdims
    obtain ⟨n, -, rfl⟩ := List.mem_map.mp hdims
    rw [List.all_eq_true]
    intro d hd
    rw [List.mem_range, List.length_append, List.length_cons] at hd
    rw [Bool.or_eq_true, decide_eq_true_iff, decide_eq_true_iff]
    by_cases hax : d = before.length
    · exact .inl hax
    · right
      have hlt : (before ++ n :: after).getD d 1 < 2 ^ 32 := by
        by_cases hfront : d < before.length
        · rw [List.getD_append _ _ _ _ hfront, List.getD_eq_getElem _ _ hfront]
          exact h.others _ (List.mem_append_left _ (List.getElem_mem hfront))
        · obtain ⟨e, he⟩ : ∃ e, d - before.length = e + 1 := ⟨d - before.length - 1, by omega⟩
          have hback : e < after.length := by omega
          rw [List.getD_append_right _ _ _ _ (by omega), he, List.getD_cons_succ,
            List.getD_eq_getElem _ _ hback]
          exact h.others _ (List.mem_append_right _ (List.getElem_mem hback))
      have hlen : d < (before ++ sizes.sum :: after).length := by
        rw [List.length_append, List.length_cons]
        exact hd
      rw [u32_of_lt hlt, getD_other n sizes.sum hax, List.getD_eq_getElem _ _ hlen]
  · rw [List.map_map, getD_axis]
    congr 1
    conv_rhs => rw [← List.map_id sizes]
    apply List.map_congr_left
    intro n _
    exact getD_axis before after n

theorem concat_ax (h : Joins op before after sizes) : op.ax = before.length := by
  have hrank : op.outDims.length = before.length + after.length + 1 := by
    rw [h.outDims, List.length_append, List.length_cons]
    rfl
  have hgiven : op.axis.getD (-1) = before.length ∨
      op.axis.getD (-1) = -(after.length + 1 : ℤ) := by
    rcases h.axis with hax | hax | ⟨hax, hlast⟩
    · exact .inl (by rw [hax, Option.getD_some])
    · exact .inr (by rw [hax, Option.getD_some])
    · exact .inr (by rw [hax, hlast, Option.getD_none, List.length_nil]; rfl)
  have hfront : (if op.axis.getD (-1) < 0 then
      op.axis.getD (-1) + ((before.length + after.length + 1 : ℕ) : ℤ)
        else op.axis.getD (-1)) = before.length := by
    split <;> omega
  have hfirst : op.firstAxis = before.length := by
    unfold HostConcat.firstAxis
    simp only [hrank, hfront]
    rw [if_neg (by omega)]
  unfold HostConcat.ax
  rw [hfirst, Int.toNat_natCast, hrank, HostConcat.scanAxis, fitsAt_axis h]
  split <;> rfl

/-- The outermost coordinates, that on the axis and the innermost ones, of all cells of an input. -/
def cells (outer len inner : ℕ) : List (ℕ × ℕ × ℕ) :=
  List.product (List.range outer) (List.product (List.range len) (List.range inner))

theorem mem_cells {outer len : ℕ} :
    t ∈ cells outer len inner ↔ t.1 < outer ∧ t.2.1 < len ∧ t.2.2 < inner := by
  apply List.mem_product.trans
  apply and_congr List.mem_range
  apply List.mem_product.trans
  exact and_congr List.mem_range List.mem_range

theorem nodup_cells (outer len inner : ℕ) : (cells outer len inner).Nodup :=
  List.nodup_range.product (List.nodup_range.product List.nodup_range)

/-- The place of a cell in a tensor with `n` coordinates on the axis. -/
def cellAt (n inner : ℕ) (t : ℕ × ℕ × ℕ) : ℕ := t.1 * n * inner + t.2.1 * inner + t.2.2

theorem cellAt_lin (n inner outer : ℕ) (t : ℕ × ℕ × ℕ) :
    cellAt n inner t = lin [outer, n, inner] [t.1, t.2.1, t.2.2] := by
  rw [lin_cons, lin_cons, lin_single, List.prod_cons, List.prod_singleton, cellAt, Nat.mul_assoc,
    Nat.add_assoc]

theorem cellAt_lt {n outer : ℕ} (h₁ : t.1 < outer) (h₂ : t.2.1 < n) (h₃ : t.2.2 < inner) :
    cellAt n inner t < outer * (n * inner) := by
  have hin : Within [t.1, t.2.1, t.2.2] [outer, n, inner] :=
    List.Forall₂.cons h₁ (List.Forall₂.cons h₂ (List.Forall₂.cons h₃ List.Forall₂.nil))
  have hlt := lin_lt hin
  rw [List.prod_cons, List.prod_cons, List.prod_singleton] at hlt
  rw [cellAt_lin n inner outer]
  exact hlt

theorem cellAt_injective {n : ℕ} {u : ℕ × ℕ × ℕ} (h₂ : t.2.1 < n) (h₃ : t.2.2 < inner)
    (h₂' : u.2.1 < n) (h₃' : u.2.2 < inner) (h : cellAt n inner t = cellAt n inner u) : t = u := by
  have hin : Within [t.1, t.2.1, t.2.2] [t.1 + u.1 + 1, n, inner] :=
    List.Forall₂.cons (by omega) (List.Forall₂.cons h₂ (List.Forall₂.cons h₃ List.Forall₂.nil))
  have hin' : Within [u.1, u.2.1, u.2.2] [t.1 + u.1 + 1, n, inner] :=
    List.Forall₂.cons (by omega) (List.Forall₂.cons h₂' (List.Forall₂.cons h₃' List.Forall₂.nil))
  rw [cellAt_lin n inner (t.1 + u.1 + 1), cellAt_lin n inner (t.1 + u.1 + 1)] at h
  have heq := lin_injective hin hin' h
  obtain ⟨t₁, t₂, t₃⟩ := t
  obtain ⟨u₁, u₂, u₃⟩ := u
  cases heq
  rfl

theorem copies_eq (h : Joins op before after sizes) (off len : ℕ) :
    op.copies off len = (cells before.prod len after.prod).map fun t =>
      (cellAt sizes.sum after.prod (t.1, off + t.2.1, t.2.2), cellAt len after.prod t) := by
  have htake : (before ++ sizes.sum :: after).take before.length = before := List.take_left
  have hdrop : (before ++ sizes.sum :: after).drop (before.length + 1) = after :=
    List.drop_length_add_append 1
  unfold HostConcat.copies cells
  rw [concat_ax h, h.outDims, htake, hdrop, getD_axis]
  simp only [List.product, List.map_flatMap, List.map_map]
  rfl

variable {F : Type}

theorem copyInput_spec (h : Joins op before after sizes) {off len : ℕ} {x out : List F}
    (hoff : off + len ≤ sizes.sum) (hx : before.prod * (len * after.prod) ≤ x.length)
    (hout : before.prod * (sizes.sum * after.prod) ≤ out.length) (hne : x ≠ []) :
    ∃ out', fillLoop (ε := String) (fun c => (entryAt x c.2).map fun v => (c.1, v))
        (op.copies off len) out = .ok out' ∧ out'.length = out.length ∧
      (∀ o a j, o < before.prod → a < len → j < after.prod →
        out'[cellAt sizes.sum after.prod (o, off + a, j)]? =
          x[cellAt len after.prod (o, a, j)]?) ∧
      ∀ o a j, o < before.prod → a < off → j < after.prod →
        out'[cellAt sizes.sum after.prod (o, a, j)]? =
          out[cellAt sizes.sum after.prod (o, a, j)]? := by
  obtain ⟨v₀, xs, rfl⟩ := List.exists_cons_of_ne_nil hne
  generalize hxs : v₀ :: xs = x at hx ⊢
  rw [copies_eq h]
  have hread (c : ℕ × ℕ) (hc : c ∈ (cells before.prod len after.prod).map fun t =>
      (cellAt sizes.sum after.prod (t.1, off + t.2.1, t.2.2), cellAt len after.prod t)) :
      ((entryAt x c.2).map fun v => (c.1, v) : Checked String (ℕ × F)) =
        .ok (c.1, x.getD c.2 v₀) := by
    obtain ⟨t, ht, rfl⟩ := List.mem_map.mp hc
    obtain ⟨h₁, h₂, h₃⟩ := mem_cells.mp ht
    have hlt : cellAt len after.prod t < x.length :=
      Nat.lt_of_lt_of_le (cellAt_lt h₁ h₂ h₃) hx
    rw [map_eq_ok]
    refine ⟨_, ?_, rfl⟩
    rw [entryAt_eq_ok, List.getElem?_eq_getElem hlt, List.getD_eq_getElem _ _ hlt]
  have hpos (c : ℕ × ℕ) (hc : c ∈ (cells before.prod len after.prod).map fun t =>
      (cellAt sizes.sum after.prod (t.1, off + t.2.1, t.2.2), cellAt len after.prod t)) :
      c.1 < out.length := by
    obtain ⟨t, ht, rfl⟩ := List.mem_map.mp hc
    obtain ⟨h₁, h₂, h₃⟩ := mem_cells.mp ht
    exact Nat.lt_of_lt_of_le (cellAt_lt h₁ (show off + t.2.1 < sizes.sum by omega) h₃) hout
  have hdiff : (((cells before.prod len after.prod).map fun t =>
      (cellAt sizes.sum after.prod (t.1, off + t.2.1, t.2.2), cellAt len after.prod t)).map
        Prod.fst).Nodup := by
    rw [List.map_map]
    apply (List.nodup_map_iff_inj_on (nodup_cells _ _ _)).mpr
    intro t ht u hu heq
    obtain ⟨-, h₂, h₃⟩ := mem_cells.mp ht
    obtain ⟨-, h₂', h₃'⟩ := mem_cells.mp hu
    have hsame : (t.1, off + t.2.1, t.2.2) = (u.1, off + u.2.1, u.2.2) :=
      cellAt_injective (show off + t.2.1 < sizes.sum by omega) h₃
        (show off + u.2.1 < sizes.sum by omega) h₃' heq
    obtain ⟨t₁, t₂, t₃⟩ := t
    obtain ⟨u₁, u₂, u₃⟩ := u
    simp only [Prod.mk.injEq] at hsame ⊢
    omega
  obtain ⟨out', hrun, hlen, hval, hrest⟩ := fillLoop_eq_ok Prod.fst _ hread hpos hdiff
  refine ⟨out', hrun, hlen, ?_, ?_⟩
  · intro o a j ho ha hj
    have hmem := List.mem_map_of_mem (f := fun t : ℕ × ℕ × ℕ =>
      (cellAt sizes.sum after.prod (t.1, off + t.2.1, t.2.2), cellAt len after.prod t))
      (mem_cells.mpr ⟨ho, ha, hj⟩ : (o, a, j) ∈ cells before.prod len after.prod)
    have hlt : cellAt len after.prod (o, a, j) < x.length :=
      Nat.lt_of_lt_of_le (cellAt_lt ho ha hj) hx
    rw [hval _ hmem, List.getElem?_eq_getElem hlt, List.getD_eq_getElem _ _ hlt]
  · intro o a j ho ha hj
    apply hrest
    intro hmem
    obtain ⟨c, hc, heq⟩ := List.mem_map.mp hmem
    obtain ⟨t, ht, rfl⟩ := List.mem_map.mp hc
    obtain ⟨-, h₂, h₃⟩ := mem_cells.mp ht
    have hsame : (t.1, off + t.2.1, t.2.2) = (o, a, j) :=
      cellAt_injective (show off + t.2.1 < sizes.sum by omega) h₃
        (show a < sizes.sum by omega) hj heq
    simp only [Prod.mk.injEq] at hsame
    omega

theorem joinInputs_spec (h : Joins op before after sizes) (hbefore : 0 < before.prod)
    (hafter : 0 < after.prod) {rest : List ℕ} {xs : List (List F)} {off : ℕ} {out : List F}
    (hxs : List.Forall₂ (fun x n => BufferOf x (before ++ n :: after)) xs rest)
    (hoff : off + rest.sum ≤ sizes.sum)
    (hout : before.prod * (sizes.sum * after.prod) ≤ out.length) :
    ∃ out', op.joinInputs off ((rest.map fun n => before ++ n :: after).zip xs) out = .ok out' ∧
      (∀ k x, xs[k]? = some x → ∀ o a j, o < before.prod → a < rest.getD k 0 → j < after.prod →
        out'[cellAt sizes.sum after.prod (o, off + (start rest k + a), j)]? =
          x[cellAt (rest.getD k 0) after.prod (o, a, j)]?) ∧
      ∀ o a j, o < before.prod → a < off → j < after.prod →
        out'[cellAt sizes.sum after.prod (o, a, j)]? =
          out[cellAt sizes.sum after.prod (o, a, j)]? := by
  induction hxs generalizing off out with
  | nil =>
    refine ⟨out, rfl, ?_, fun _ _ _ _ _ _ => rfl⟩
    intro k x hx
    cases hx
  | @cons x n xs rest hbuf hxs ih =>
    rw [List.sum_cons] at hoff
    have hlen : op.inAxisLen (before ++ n :: after) = n := by
      unfold HostConcat.inAxisLen
      rw [concat_ax h, if_pos (by rw [List.length_append, List.length_cons]; omega), getD_axis]
    by_cases hx : x = []
    · -- an input without a buffer has no coordinates on the axis
      have hzero : n = 0 := by
        have hprod : (before ++ n :: after).prod = 0 := by
          rcases hbuf with hb | hb
          · rw [← hb, hx, List.length_nil]
          · have := rounds_pos (before ++ n :: after)
            rw [← hb, hx] at this
            exact absurd this (Nat.lt_irrefl 0)
        rw [prod_axis] at hprod
        rcases Nat.mul_eq_zero.mp hprod with h0 | h0
        · omega
        · rcases Nat.mul_eq_zero.mp h0 with h0 | h0
          · exact h0
          · omega
      obtain ⟨out', hrun, hcells, hkeep⟩ := ih (show off + rest.sum ≤ sizes.sum by omega) hout
      refine ⟨out', ?_, ?_, hkeep⟩
      · rw [List.map_cons, List.zip_cons_cons, HostConcat.joinInputs, if_pos hx]
        exact hrun
      · intro k y hy o a j ho ha hj
        cases k with
        | zero =>
          rw [List.getD_cons_zero, hzero] at ha
          exact absurd ha (Nat.not_lt_zero a)
        | succ k =>
          have hcell := hcells k y hy o a j ho ha hj
          unfold start at hcell ⊢
          rw [List.take_succ_cons, List.sum_cons, hzero, Nat.zero_add]
          exact hcell
    · have hcount : before.prod * (n * after.prod) ≤ x.length := by
        rw [length_pos_of_rounds hbuf hx, rounds, prod_axis]
        split <;> omega
      obtain ⟨out₁, hrun₁, hlen₁, hval₁, hkeep₁⟩ :=
        copyInput_spec h (show off + n ≤ sizes.sum by omega) hcount hout hx
      obtain ⟨out', hrun, hcells, hkeep⟩ :=
        ih (show off + n + rest.sum ≤ sizes.sum by omega) (hlen₁.symm ▸ hout)
      refine ⟨out', ?_, ?_, ?_⟩
      · rw [List.map_cons, List.zip_cons_cons, HostConcat.joinInputs, if_neg hx, hlen, hrun₁]
        exact hrun
      · intro k y hy o a j ho ha hj
        cases k with
        | zero =>
          cases hy
          rw [List.getD_cons_zero] at ha ⊢
          rw [start, List.take_zero, List.sum_nil, Nat.zero_add,
            hkeep o (off + a) j ho (by omega) hj]
          exact hval₁ o a j ho ha hj
        | succ k =>
          have hcell := hcells k y hy o a j ho ha hj
          unfold start at hcell ⊢
          rw [List.take_succ_cons, List.sum_cons, Nat.add_assoc n, ← Nat.add_assoc off]
          exact hcell
      · intro o a j ho ha hj
        rw [hkeep o a j ho (by omega) hj]
        exact hkeep₁ o a j ho ha hj

theorem joinInputs_none (h : Joins op before after sizes) (hnone : before.prod = 0 ∨ after.prod = 0)
    (inputs : List (List ℕ × List F)) (off : ℕ) (out : List F) :
    op.joinInputs off inputs out = .ok out := by
  have hcells (off len : ℕ) : op.copies off len = [] := by
    rw [copies_eq h, List.map_eq_nil_iff, List.eq_nil_iff_forall_not_mem]
    intro t ht
    obtain ⟨h₁, -, h₃⟩ := mem_cells.mp ht
    omega
  induction inputs generalizing off with
  | nil => rfl
  | cons input inputs ih =>
    obtain ⟨dims, src⟩ := input
    rw [HostConcat.joinInputs]
    split
    · exact ih off
    · rw [hcells]
      exact ih _

theorem cellAt_axis {c : List ℕ} (hc : Within c before) (n a : ℕ) (d : List ℕ) :
    lin (before ++ n :: after) (c ++ a :: d) =
      cellAt n after.prod (lin before c, a, lin after d) := by
  rw [lin_axis hc, cellAt, Nat.mul_assoc, Nat.add_assoc]

theorem concat_right (h : Joins op before after sizes) : ConcatRight op before after sizes := by
  intro F xs old hxs hold
  rw [h.inDims, List.forall₂_map_right_iff] at hxs
  unfold HostConcat.execute
  rw [h.inDims]
  by_cases hnone : before.prod = 0 ∨ after.prod = 0
  · refine ⟨old, joinInputs_none h hnone _ _ _, ?_⟩
    intro k x _ c a d hc _ hd
    have hbefore := hc.prod_pos
    have hafter := hd.prod_pos
    omega
  · obtain ⟨hbefore, hafter⟩ := not_or.mp hnone
    have hcount : before.prod * (sizes.sum * after.prod) ≤ old.length := by
      rw [hold, h.outDims, rounds, prod_axis]
      split <;> omega
    have hroom : 0 + sizes.sum ≤ sizes.sum := by omega
    obtain ⟨out, hrun, hcells, -⟩ := joinInputs_spec h (Nat.pos_of_ne_zero hbefore)
      (Nat.pos_of_ne_zero hafter) hxs hroom hcount
    refine ⟨out, hrun, ?_⟩
    intro k x hx c a d hc ha hd
    have hcell := hcells k x hx _ a _ (lin_lt hc) ha (lin_lt hd)
    rw [Nat.zero_add] at hcell
    rw [cellAt_axis hc, cellAt_axis hc, hcell]

end Concat

/-! ### Broadcasting -/

/-- The operand without the axes of size 1 in front. -/
def tight (ins : List ℕ) : List ℕ := ins.dropWhile (· = 1)

/-- After how many places of the output the places of the operand repeat themselves. -/
def period (ins outs : List ℕ) : ℕ := (outs.drop (outs.length - (tight ins).length)).prod

/-- The broadcast index is computed for every place, and it is the one of the element. -/
def BcRight (ins outs : List ℕ) : Prop :=
  ∀ i < rounds outs, ∃ p, inBc ins outs i = .ok p ∧
    (i < outs.prod → p = lin ins (source ins outs (coords outs i)))

section Walks

/-- What is left after the division by some strides. -/
def leftover (ss : List ℕ) (i : ℕ) : ℕ := ss.foldl (· % ·) i

theorem walk_zero (h : 0 ∈ ss) (i : ℕ) : walk ss i = .error .fault := by
  induction ss generalizing i with
  | nil => exact absurd h List.not_mem_nil
  | cons s ss ih =>
    rw [walk]
    by_cases hs : s = 0
    · rw [if_pos hs]
    · rw [if_neg hs, ih ((List.mem_cons.mp h).resolve_left (Ne.symm hs))]
      rfl

theorem walk_append (h : 0 ∉ ss) (ts : List ℕ) (i : ℕ) :
    ∃ cs, cs.length = ss.length ∧
      walk (ss ++ ts) i = (walk ts (leftover ss i)).map (cs ++ ·) := by
  induction ss generalizing i with
  | nil =>
    refine ⟨[], rfl, ?_⟩
    show walk ts i = (walk ts i).map id
    cases walk ts i <;> rfl
  | cons s ss ih =>
    rw [List.mem_cons, not_or] at h
    obtain ⟨cs, hlen, hwalk⟩ := ih h.2 (i % s)
    refine ⟨i / s :: cs, by rw [List.length_cons, List.length_cons, hlen], ?_⟩
    rw [List.cons_append, walk, if_neg (Ne.symm h.1), hwalk]
    show Except.map _ (Except.map _ (walk ts (leftover ss (i % s)))) =
      Except.map _ (walk ts (leftover ss (i % s)))
    cases walk ts (leftover ss (i % s)) <;> rfl

theorem leftover_multiples {p : ℕ} (h : ∀ s ∈ ss, p ∣ s) (i : ℕ) :
    leftover (ss ++ [p]) i = i % p := by
  induction ss generalizing i with
  | nil => rfl
  | cons s ss ih =>
    show leftover (ss ++ [p]) (i % s) = i % p
    rw [ih (fun t ht => h t (List.mem_cons_of_mem s ht)),
      Nat.mod_mod_of_dvd _ (h s List.mem_cons_self)]

theorem strides_append (front back : List ℕ) :
    strides (front ++ back) = (strides front).map (· * back.prod) ++ strides back := by
  induction front with
  | nil => rfl
  | cons d front ih =>
    rw [List.cons_append, strides_cons, strides_cons, List.map_cons, List.prod_append, ih]
    rfl

theorem strides_concat (ds : List ℕ) (d : ℕ) :
    ∃ ss, strides (ds ++ [d]) = ss ++ [1] := ⟨(strides ds).map (· * [d].prod), strides_append ds [d]⟩

theorem lt_of_mod_ne (hle : s ≤ 2 ^ 32) (hne : s % 2 ^ 32 ≠ 0) : s < 2 ^ 32 := by omega

theorem dvd_of_mem_strides {ds : List ℕ} (h : s ∈ strides ds) : s ∣ ds.prod := by
  induction ds with
  | nil => exact absurd h List.not_mem_nil
  | cons d ds ih =>
    rw [List.prod_cons]
    rw [strides_cons] at h
    rcases List.mem_cons.mp h with rfl | h
    · exact dvd_mul_left _ _
    · exact (ih h).trans (dvd_mul_left _ _)

theorem coords_drop {shape : List ℕ} (hi : i < shape.prod) (k : ℕ) :
    (coords shape i).drop k = coords (shape.drop k) (i % (shape.drop k).prod) := by
  induction shape generalizing i k with
  | nil =>
    rw [List.drop_nil]
    exact List.drop_nil
  | cons d ds ih =>
    cases k with
    | zero => rw [List.drop_zero, List.drop_zero, Nat.mod_eq_of_lt hi]
    | succ k =>
      rw [List.prod_cons] at hi
      have hpos : 0 < ds.prod := Nat.pos_of_mul_pos_left (Nat.zero_lt_of_lt hi)
      have hdvd : (ds.drop k).prod ∣ ds.prod := by
        conv_rhs => rw [← List.take_append_drop k ds, List.prod_append]
        exact dvd_mul_left _ _
      rw [coords_cons, List.drop_succ_cons, List.drop_succ_cons, ih (Nat.mod_lt i hpos),
        Nat.mod_mod_of_dvd _ hdvd]

end Walks

section Broadcast

variable {ins outs : List ℕ}

theorem tight_spec (ins : List ℕ) : ∃ t, ins = List.replicate t 1 ++ tight ins := by
  refine ⟨(ins.takeWhile (· = 1)).length, ?_⟩
  have hones : ins.takeWhile (· = 1) = List.replicate (ins.takeWhile (· = 1)).length 1 := by
    rw [List.eq_replicate_iff]
    refine ⟨rfl, fun d hd => ?_⟩
    exact of_decide_eq_true (List.mem_takeWhile_imp (p := fun d => decide (d = 1)) hd)
  rw [← hones, tight, List.takeWhile_append_dropWhile]

theorem tight_head (h : tight ins = e :: es) : e ≠ 1 := by
  induction ins with
  | nil => cases h
  | cons d ds ih =>
    by_cases hd : d = 1
    · subst hd
      exact ih h
    · have hstop : tight (d :: ds) = d :: ds :=
        List.dropWhile_cons_of_neg (fun htrue => hd (of_decide_eq_true htrue))
      rw [hstop] at h
      cases h
      exact hd

/-- The output's axes that the operand's remaining ones belong to. -/
def backOf (ins outs : List ℕ) : List ℕ := outs.drop (outs.length - (tight ins).length)

theorem tight_length_le (hb : Broadcasts ins outs) : (tight ins).length ≤ outs.length := by
  obtain ⟨t, ht⟩ := tight_spec ins
  have hlen := congrArg List.length ht
  rw [List.length_append, List.length_replicate] at hlen
  have := hb.length_le
  omega

theorem tight_fits (hb : Broadcasts ins outs) : List.Forall₂ Fits (tight ins) (backOf ins outs) := by
  obtain ⟨t, ht⟩ := tight_spec ins
  have hlen := congrArg List.length ht
  rw [List.length_append, List.length_replicate] at hlen
  have hle := hb.length_le
  have hdrop := List.forall₂_drop t hb.fits
  rw [List.drop_drop, show outs.length - ins.length + t = outs.length - (tight ins).length by omega]
    at hdrop
  conv at hdrop => rw [ht]
  rw [List.drop_left' List.length_replicate] at hdrop
  conv at hdrop => rw [← ht]
  exact hdrop

theorem tight_lin {f : ℕ → ℕ → ℕ} (hf : ∀ c, f 1 c = 0) (hb : Broadcasts ins outs)
    (hcs : cs.length = outs.length) :
    lin ins (List.zipWith f ins (cs.drop (outs.length - ins.length))) =
      lin (tight ins) (List.zipWith f (tight ins)
        (cs.drop (outs.length - (tight ins).length))) := by
  obtain ⟨t, ht⟩ := tight_spec ins
  have hlen := congrArg List.length ht
  rw [List.length_append, List.length_replicate] at hlen
  have hle := hb.length_le
  have hzeros (l : List ℕ) : List.zipWith f (List.replicate l.length 1) l =
      List.replicate l.length 0 := by
    induction l with
    | nil => rfl
    | cons c l ih =>
      rw [List.length_cons, List.replicate_succ, List.zipWith_cons_cons, ih, hf, List.replicate_succ]
  have htake : ((cs.drop (outs.length - ins.length)).take t).length = t := by
    rw [List.length_take, List.length_drop, hcs]
    omega
  have hzip : List.zipWith f (List.replicate t 1 ++ tight ins)
      ((cs.drop (outs.length - ins.length)).take t ++ (cs.drop (outs.length - ins.length)).drop t) =
      List.zipWith f (List.replicate t 1) ((cs.drop (outs.length - ins.length)).take t) ++
        List.zipWith f (tight ins) ((cs.drop (outs.length - ins.length)).drop t) :=
    List.zipWith_append (by rw [List.length_replicate, htake])
  have hfront := hzeros ((cs.drop (outs.length - ins.length)).take t)
  rw [htake] at hfront
  rw [List.take_append_drop, hfront, List.drop_drop,
    show outs.length - ins.length + t = outs.length - (tight ins).length by omega, ← ht] at hzip
  rw [hzip]
  conv_lhs => rw [ht]
  rw [lin_pad, ← ht]

theorem inBc_eq (hb : Broadcasts ins outs) (hins : ins ≠ []) (hsizes : ∀ d ∈ ins, d < 2 ^ 32)
    (i : ℕ) : inBc ins outs i = (walk ((strides outs).map u32) (u32 i)).map fun cs =>
      u32 (lin ins (List.zipWith bcCoord ins (cs.drop (outs.length - ins.length)))) := by
  have hle := hb.length_le
  have hself : ((List.range ins.length).map fun d => ins.getD (ins.length - outs.length + d) 1) =
      ins := by
    apply List.ext_getElem
    · rw [List.length_map, List.length_range]
    · intro d hd hd'
      rw [List.getElem_map, List.getElem_range, show ins.length - outs.length + d = d by omega,
        List.getD_eq_getElem _ _ hd']
  unfold inBc
  rw [if_neg hins]
  simp only [hself, map_u32_of hsizes, strides32_eq_map, address32_map_u32, dot_strides]

/-- The output's strides are those in front, each a multiple of the period, and those of the axes that
the operand's remaining ones belong to. -/
theorem strides_split (ins outs : List ℕ) :
    strides outs = (strides (outs.take (outs.length - (tight ins).length))).map
      (· * period ins outs) ++ strides (backOf ins outs) := by
  conv_lhs => rw [← List.take_append_drop (outs.length - (tight ins).length) outs]
  exact strides_append _ _

theorem bcCoord_eq_pin (h : Fits d e) (hc : c < e) : bcCoord d c = pin d c := by
  unfold bcCoord pin
  by_cases hone : d = 1
  · rw [if_neg (by omega), if_pos hone]
  · have hde := h.resolve_left hone
    by_cases hzero : d = 0
    · omega
    · rw [if_pos (by omega), if_neg hone]

theorem zipWith_bcCoord {ds : List ℕ} (h : List.Forall₂ Fits ds es) (hcs : Within cs es) :
    List.zipWith bcCoord ds cs = List.zipWith pin ds cs := by
  induction h generalizing cs with
  | nil => rfl
  | cons hd _ ih =>
    cases hcs with
    | cons hc hcs =>
      rw [List.zipWith_cons_cons, List.zipWith_cons_cons, bcCoord_eq_pin hd hc, ih hcs]

theorem prod_period (ins outs : List ℕ) :
    outs.prod = (outs.take (outs.length - (tight ins).length)).prod * period ins outs := by
  conv_lhs => rw [← List.take_append_drop (outs.length - (tight ins).length) outs]
  exact List.prod_append

theorem period_pos (hi : i < outs.prod) : 0 < period ins outs := by
  apply Nat.pos_of_ne_zero
  intro h0
  rw [prod_period ins outs, h0, Nat.mul_zero] at hi
  exact Nat.not_lt_zero i hi

theorem period_le (hfits : outs.prod ≤ 2 ^ 32 ∨ period ins outs ∣ 2 ^ 32) (hi : i < outs.prod) :
    period ins outs ≤ 2 ^ 32 := by
  cases hfits with
  | inl hsmall =>
    have hdvd : period ins outs ∣ outs.prod := by
      rw [prod_period ins outs]
      exact dvd_mul_left _ _
    exact (Nat.le_of_dvd (by omega) hdvd).trans hsmall
  | inr hdvd => exact Nat.le_of_dvd (by decide) hdvd

/-- What is left of a place after the axes in front: the place in the period, if the strides do not
become 0 and the numbers do not wrap or wrap at a multiple of the period. -/
theorem leftover_front (hdiv : ∀ s ∈ strides outs, s % 2 ^ 32 ≠ 0)
    (hfits : outs.prod ≤ 2 ^ 32 ∨ period ins outs ∣ 2 ^ 32) (hi : i < outs.prod) :
    leftover (((strides (outs.take (outs.length - (tight ins).length))).map
      (· * period ins outs)).map u32) (u32 i) = i % period ins outs := by
  have hprod := prod_period ins outs
  have hplace : u32 i % period ins outs = i % period ins outs := by
    unfold u32
    cases hfits with
    | inl hsmall => rw [Nat.mod_eq_of_lt (by omega : i < 2 ^ 32)]
    | inr hdvd => exact Nat.mod_mod_of_dvd i hdvd
  have hsplit := strides_split ins outs
  rcases List.eq_nil_or_concat (outs.take (outs.length - (tight ins).length)) with hnil | ⟨ds, d, hds⟩
  · rw [hnil] at hprod ⊢
    rw [List.prod_nil, Nat.one_mul] at hprod
    show u32 i = i % period ins outs
    rw [← hplace, ← hprod]
    have hlt : u32 i ≤ i := Nat.mod_le i _
    exact (Nat.mod_eq_of_lt (by omega)).symm
  · rw [List.concat_eq_append] at hds
    obtain ⟨ss, hss⟩ := strides_concat ds d
    rw [hds, hss] at hsplit ⊢
    have hlast : u32 (1 * period ins outs) = period ins outs := by
      have hmem : 1 * period ins outs ∈ strides outs := by
        rw [hsplit]
        apply List.mem_append_left
        exact List.mem_map_of_mem (List.mem_append_right _ (List.mem_singleton_self 1))
      have hne := hdiv _ hmem
      rw [Nat.one_mul] at hne ⊢
      exact u32_of_lt (lt_of_mod_ne (period_le hfits hi) hne)
    rw [List.map_append, List.map_append, List.map_singleton, List.map_singleton, hlast,
      leftover_multiples, hplace]
    intro s hs
    obtain ⟨t, ht, rfl⟩ := List.mem_map.mp hs
    obtain ⟨a, ha, rfl⟩ := List.mem_map.mp ht
    have hmem : a * period ins outs ∈ strides outs := by
      rw [hsplit]
      apply List.mem_append_left
      exact List.mem_map_of_mem (List.mem_append_left _ ha)
    cases hfits with
    | inl hsmall =>
      have hle := Nat.le_of_dvd (by omega) (dvd_of_mem_strides hmem)
      rw [u32_of_lt (lt_of_mod_ne (hle.trans hsmall) (hdiv _ hmem))]
      exact dvd_mul_left _ _
    | inr hdvd => exact (Nat.dvd_mod_iff hdvd).mpr (dvd_mul_left _ _)

/-- The place of the operand's element, for a place in the period. -/
def placeIn (ins outs : List ℕ) (r : ℕ) : ℕ :=
  lin (tight ins) (List.zipWith pin (tight ins) (coords (backOf ins outs) r))

theorem source_eq (hb : Broadcasts ins outs) (hi : i < outs.prod) :
    lin ins (source ins outs (coords outs i)) = placeIn ins outs (i % period ins outs) := by
  rw [source, tight_lin (fun c => if_pos rfl) hb (length_coords outs i), coords_drop hi]
  rfl

/-- What is read, if the strides do not become 0 and the numbers wrap at a multiple of the period at
most. -/
theorem inBc_value (hb : Broadcasts ins outs) (hins : ins ≠ []) (hsizes : ∀ d ∈ ins, d < 2 ^ 32)
    (hdiv : ∀ s ∈ strides outs, s % 2 ^ 32 ≠ 0)
    (hfits : outs.prod ≤ 2 ^ 32 ∨ period ins outs ∣ 2 ^ 32) (hi : i < outs.prod) :
    inBc ins outs i = .ok (placeIn ins outs (i % period ins outs)) := by
  have hpos : 0 < period ins outs := period_pos hi
  have hback0 : 0 < (backOf ins outs).prod := hpos
  have hle := period_le hfits hi
  have hsplit := strides_split ins outs
  have hback : (strides (backOf ins outs)).map u32 = strides (backOf ins outs) := by
    apply map_u32_of
    intro s hs
    have hmem : s ∈ strides outs := by
      rw [hsplit]
      exact List.mem_append_right _ hs
    have hdvd : s ≤ period ins outs := Nat.le_of_dvd hpos (dvd_of_mem_strides hs)
    exact lt_of_mod_ne (hdvd.trans hle) (hdiv s hmem)
  have hzero : 0 ∉ ((strides (outs.take (outs.length - (tight ins).length))).map
      (· * period ins outs)).map u32 := by
    intro hmem
    obtain ⟨s, hs, h0⟩ := List.mem_map.mp hmem
    have hmem' : s ∈ strides outs := by
      rw [hsplit]
      exact List.mem_append_left _ hs
    exact hdiv s hmem' h0
  obtain ⟨cs, hcs, hwalk⟩ := walk_append hzero ((strides (backOf ins outs)).map u32) (u32 i)
  rw [leftover_front hdiv hfits hi, hback, walk_strides hback0] at hwalk
  have htight := tight_length_le hb
  have hcs' : cs.length = outs.length - (tight ins).length := by
    rw [hcs, List.length_map, List.length_map, length_strides, List.length_take]
    omega
  have hlen : (cs ++ coords (backOf ins outs) (i % period ins outs)).length = outs.length := by
    rw [List.length_append, hcs', length_coords, backOf, List.length_drop]
    omega
  have hin : Within (coords (backOf ins outs) (i % period ins outs)) (backOf ins outs) :=
    coords_within (Nat.mod_lt i hpos)
  have hfit := tight_fits hb
  have hlt := lin_lt (pinned_within hfit hin)
  have hsmall := (prod_le hfit hpos).2
  have hperiod : (backOf ins outs).prod = period ins outs := rfl
  rw [inBc_eq hb hins hsizes, hsplit, List.map_append, hback, hwalk]
  show Except.ok (u32 (lin ins (List.zipWith bcCoord ins
    ((cs ++ coords (backOf ins outs) (i % period ins outs)).drop _)))) = _
  rw [tight_lin (fun c => if_neg (Nat.lt_irrefl 1)) hb hlen, List.drop_left' hcs',
    zipWith_bcCoord hfit hin, u32_of_lt (by omega)]
  rfl

theorem placeIn_cons (hb : Broadcasts ins outs) (htight : tight ins = e :: es) :
    ∃ bs, backOf ins outs = e :: bs ∧ List.Forall₂ Fits es bs ∧
      ∀ r, placeIn ins outs r =
        r / bs.prod * es.prod + lin es (List.zipWith pin es (coords bs (r % bs.prod))) := by
  have hfit := tight_fits hb
  have hne := tight_head htight
  rw [htight] at hfit
  obtain ⟨b, bs, hhead, hrest, hback⟩ := List.forall₂_cons_left_iff.mp hfit
  have hsame : e = b := hhead.resolve_left hne
  subst hsame
  refine ⟨bs, hback, hrest, ?_⟩
  intro r
  rw [placeIn, htight, hback, coords_cons, List.zipWith_cons_cons, lin_cons, pin, if_neg hne]

theorem dvd_of_right (hb : Broadcasts ins outs) (hins : ins ≠ [])
    (hsizes : ∀ d ∈ ins, d < 2 ^ 32) (hright : BcRight ins outs) (hbig : 2 ^ 32 < outs.prod) :
    period ins outs ∣ 2 ^ 32 := by
  by_contra hnot
  have hrounds : rounds outs = outs.prod := rounds_of_ne (by omega)
  have hread {i : ℕ} (hi : i < outs.prod) :
      inBc ins outs i = .ok (placeIn ins outs (i % period ins outs)) := by
    obtain ⟨p, hp, hval⟩ := hright i (by rw [hrounds]; exact hi)
    rw [hp, hval hi, source_eq hb hi]
  have hwrap (i : ℕ) (hi : i + 2 ^ 32 < outs.prod) :
      placeIn ins outs (i % period ins outs) =
        placeIn ins outs ((i + 2 ^ 32) % period ins outs) := by
    have hfirst := hread (show i < outs.prod by omega)
    have hsecond := hread hi
    have hword : u32 (i + 2 ^ 32) = u32 i := Nat.add_mod_right i _
    rw [inBc_eq hb hins hsizes] at hfirst hsecond
    rw [hword, hfirst] at hsecond
    exact Except.ok.inj hsecond
  have hpos : 0 < period ins outs := period_pos (show 0 < outs.prod by omega)
  cases htight : tight ins with
  | nil =>
    have hone : period ins outs = 1 := by
      unfold period
      rw [htight, List.length_nil, Nat.sub_zero, List.drop_length, List.prod_nil]
    rw [hone] at hnot
    exact hnot (one_dvd _)
  | cons e es =>
    obtain ⟨bs, hback, hfit, hplace⟩ := placeIn_cons hb htight
    have hperiod : period ins outs = e * bs.prod := by
      show (backOf ins outs).prod = _
      rw [hback, List.prod_cons]
    have hbs : 0 < bs.prod := Nat.pos_of_mul_pos_left (hperiod ▸ hpos)
    have he : 2 ≤ e := by
      have hone := tight_head htight
      have hzero : 0 < e := Nat.pos_of_mul_pos_right (hperiod ▸ hpos)
      omega
    have hes := (prod_le hfit hbs).1
    have hinner (r : ℕ) : lin es (List.zipWith pin es (coords bs (r % bs.prod))) < es.prod :=
      lin_lt (pinned_within hfit (coords_within (Nat.mod_lt r hbs)))
    have hrest : 2 ^ 32 % period ins outs ≠ 0 := fun h0 => hnot (Nat.dvd_of_mod_eq_zero h0)
    have hlt := Nat.mod_lt (2 ^ 32) hpos
    -- place 2 ^ 32 reads the first element, so its coordinate in the first axis is 0
    have hzero : 2 ^ 32 % period ins outs < bs.prod := by
      have hsame := hwrap 0 (by omega)
      rw [Nat.zero_add, Nat.zero_mod] at hsame
      by_contra hge
      have hquot : 1 ≤ 2 ^ 32 % period ins outs / bs.prod :=
        (Nat.one_le_div_iff hbs).mpr (by omega)
      have hmul := Nat.mul_le_mul_right es.prod hquot
      have hfirst := hinner 0
      rw [hplace, hplace, Nat.zero_div, Nat.zero_mul, Nat.zero_add] at hsame
      omega
    -- the first place with coordinate 1 then wraps to one with coordinate 0
    have hsum := Nat.div_add_mod (2 ^ 32) (period ins outs)
    generalize hρ : 2 ^ 32 % period ins outs = ρ at *
    generalize hq : 2 ^ 32 / period ins outs = q at *
    have hlast : bs.prod < period ins outs := by
      rw [hperiod]
      exact (Nat.lt_mul_iff_one_lt_left hbs).mpr (by omega)
    have hroom : period ins outs * q + period ins outs ≤ outs.prod := by
      rw [prod_period ins outs] at hbig ⊢
      have hmore : q < (outs.take (outs.length - (tight ins).length)).prod := by
        apply Nat.lt_of_mul_lt_mul_right (a := period ins outs)
        rw [Nat.mul_comm q]
        omega
      calc period ins outs * q + period ins outs = (q + 1) * period ins outs := by
            rw [Nat.succ_mul, Nat.mul_comm]
        _ ≤ _ := Nat.mul_le_mul_right _ hmore
    have hsame := hwrap (bs.prod - ρ) (by omega)
    have hleft : (bs.prod - ρ) % period ins outs = bs.prod - ρ := Nat.mod_eq_of_lt (by omega)
    have hright' : (bs.prod - ρ + 2 ^ 32) % period ins outs = bs.prod := by
      rw [show bs.prod - ρ + 2 ^ 32 = bs.prod + period ins outs * q by omega,
        Nat.add_mul_mod_self_left, Nat.mod_eq_of_lt hlast]
    rw [hleft, hright', hplace, hplace, Nat.div_eq_of_lt (by omega), Nat.div_self hbs, Nat.zero_mul,
      Nat.zero_add, Nat.one_mul] at hsame
    have hfirst := hinner (bs.prod - ρ)
    omega

/-- The broadcast index is right exactly if no stride becomes 0 and there are at most `2 ^ 32` places
or the period divides that number. -/
theorem bc_iff (hb : Broadcasts ins outs) (hins : ins ≠ []) (hsizes : ∀ d ∈ ins, d < 2 ^ 32) :
    BcRight ins outs ↔ (∀ s ∈ strides outs, s % 2 ^ 32 ≠ 0) ∧
      (outs.prod ≤ 2 ^ 32 ∨ period ins outs ∣ 2 ^ 32) := by
  constructor
  · intro hright
    refine ⟨?_, ?_⟩
    · intro s hs h0
      obtain ⟨p, hp, -⟩ := hright 0 (rounds_pos outs)
      have hzero : 0 ∈ (strides outs).map u32 := List.mem_map.mpr ⟨s, hs, h0⟩
      rw [inBc_eq hb hins hsizes, walk_zero hzero] at hp
      cases hp
    · by_cases hsmall : outs.prod ≤ 2 ^ 32
      · exact .inl hsmall
      · exact .inr (dvd_of_right hb hins hsizes hright (Nat.lt_of_not_le hsmall))
  · rintro ⟨hdiv, hfits⟩ i hi
    by_cases hne : outs.prod = 0
    · have hzero : 0 ∉ (strides outs).map u32 := by
        intro hmem
        obtain ⟨s, hs, h0⟩ := List.mem_map.mp hmem
        exact hdiv s hs h0
      obtain ⟨cs, -, hwalk⟩ := walk_append hzero [] (u32 i)
      rw [List.append_nil] at hwalk
      rw [inBc_eq hb hins hsizes, hwalk]
      refine ⟨_, rfl, ?_⟩
      intro hlt
      omega
    · rw [rounds_of_ne hne] at hi
      refine ⟨_, inBc_value hb hins hsizes hdiv hfits hi, ?_⟩
      intro _
      exact (source_eq hb hi).symm

end Broadcast

/-- Transpose, StridedSlice, Concat and the broadcast index, each for every shape: when the right
elements are read. -/
theorem host_moves_iff (t : HostTranspose) (tdims q : List ℕ) (ht : Permutes t tdims q)
    (s : HostSlice) (sdims : List ℕ) (rs : List SliceRange) (hs : Slices s sdims rs)
    (j : HostConcat) (before after sizes : List ℕ) (hj : Joins j before after sizes)
    (ins outs : List ℕ) (hb : Broadcasts ins outs) (hins : ins ≠ [])
    (hsizes : ∀ d ∈ ins, d < 2 ^ 32) :
    (TransposeRight t tdims q ↔ 0 ∉ t.outDims.drop 1) ∧
    (SliceRight s sdims rs ↔
      0 ∉ s.outDims.drop 1 ∧ lin sdims (rs.map SliceRange.first) < rounds sdims) ∧
    ConcatRight j before after sizes ∧
    (BcRight ins outs ↔ (∀ d ∈ strides outs, d % 2 ^ 32 ≠ 0) ∧
      (outs.prod ≤ 2 ^ 32 ∨ period ins outs ∣ 2 ^ 32)) :=
  ⟨transpose_iff ht, slice_iff hs, concat_right hj, bc_iff hb hins hsizes⟩

def swapped : HostTranspose := ⟨some [1, 0], [2, 3], [3, 2]⟩

def everySecond : HostSlice := ⟨[0, 3, 2], [3], [2]⟩

def joined : HostConcat := ⟨some 0, [[1], [2]], [3]⟩

theorem swapped_permutes : Permutes swapped [2, 3] [1, 0] where
  rank := by decide
  axes := by decide
  sizes := by decide
  perm := by decide
  inDims := ⟨0, rfl, by decide⟩
  outDims := ⟨0, rfl⟩
  param := .inl rfl

theorem everySecond_slices : Slices everySecond [3] [⟨0, 3, 2⟩] where
  rank := by decide
  sizes := by decide
  fits := List.Forall₂.cons ⟨by decide, by decide, by decide, by decide, by decide⟩ List.Forall₂.nil
  ranges := rfl
  inDims := ⟨0, rfl, by decide⟩
  outDims := ⟨0, rfl⟩

theorem joined_joins : Joins joined [] [] [1, 2] where
  others := by decide
  inDims := rfl
  outDims := rfl
  axis := .inl rfl

theorem single_broadcasts : Broadcasts [1] [2] where
  length_le := by decide
  fits := List.Forall₂.cons (.inl rfl) List.Forall₂.nil

/-- One right move of each kind. -/
theorem small_moves : TransposeRight swapped [2, 3] [1, 0] ∧
    SliceRight everySecond [3] [⟨0, 3, 2⟩] ∧ ConcatRight joined [] [] [1, 2] ∧ BcRight [1] [2] := by
  have h := host_moves_iff swapped [2, 3] [1, 0] swapped_permutes everySecond [3] [⟨0, 3, 2⟩]
    everySecond_slices joined [] [] [1, 2] joined_joins [1] [2] single_broadcasts (by decide)
    (by decide)
  exact ⟨h.1.mpr (by decide), h.2.1.mpr (by decide), h.2.2.1, h.2.2.2.mpr (by decide)⟩

/-- With `2 ^ 32` elements behind the first axis the kernel divides by 0. -/
theorem square_not_read : ¬ ((∀ t dims q, Permutes t dims q → TransposeRight t dims q) ∧
    (∀ s dims rs, Slices s dims rs → SliceRight s dims rs) ∧
    (∀ j before after sizes, Joins j before after sizes → ConcatRight j before after sizes) ∧
    ∀ ins outs, Broadcasts ins outs → ins ≠ [] → (∀ d ∈ ins, d < 2 ^ 32) → BcRight ins outs) := by
  intro hall
  have hb : Broadcasts [1, 65536, 65536] [1, 65536, 65536] :=
    ⟨le_rfl, List.Forall₂.cons (.inr rfl) (List.Forall₂.cons (.inr rfl)
      (List.Forall₂.cons (.inr rfl) List.Forall₂.nil))⟩
  obtain ⟨p, hp, -⟩ := hall.2.2.2 _ _ hb (by decide) (by decide) 0 (rounds_pos _)
  rw [inBc_eq hb (by decide) (by decide), walk_zero (by decide)] at hp
  cases hp

end Gehtp.Analysis.HostMovesRead
