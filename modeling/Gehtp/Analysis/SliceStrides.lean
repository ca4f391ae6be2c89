import Gehtp.Model.StridedSliceOp

/-!
# The strides of a slice

The device reads the right elements if the strides it derives from its arguments are those of the
input. From four axes on they are: leaving whole axes of size 1 out moves no cell. Up to three axes
the arguments repeat a size instead of leaving an axis out, and the strides are those of another
shape. The ranges are passed by their offset, and ranges at offset 0 count as missing.
-/

set_option autoImplicit false

namespace Gehtp.Analysis.SliceStrides

open Lib Lib.RowMajor Model.OpGraph Model.DeviceTensor Model.StridedSliceOp

/-! ### What a slice is -/

/-- The number of cells a triple takes. -/
def count (t : Triple) : ℕ := (t.e.toNat - t.b.toNat + t.s.toNat - 1) / t.s.toNat

def cells (ts : List Triple) : List ℕ := ts.map count

theorem cells_cons (t : Triple) (ts : List Triple) : cells (t :: ts) = count t :: cells ts := rfl

def sel (t : Triple) (c : ℕ) : ℕ := t.b.toNat + c * t.s.toNat

def place (ts : List Triple) (cs : List ℕ) : List ℕ := List.zipWith sel ts cs

/-- A triple of 32-bit numbers that stays inside an axis, with a positive stride. -/
structure InRange (t : Triple) (d : ℕ) : Prop where
  b_nonneg : 0 ≤ t.b
  e_nonneg : 0 ≤ t.e
  s_pos : 0 < t.s
  b_le : t.b ≤ d
  e_le : t.e ≤ d
  b_lt : t.b < 2 ^ 31
  e_lt : t.e < 2 ^ 31
  s_lt : t.s < 2 ^ 31

variable {t : Triple} {d c : ℕ}

theorem InRange.sel_lt (h : InRange t d) (hc : c < count t) : sel t c < d := by
  have hs : 0 < t.s.toNat := by
    have := h.s_pos
    omega
  have hmul : (c + 1) * t.s.toNat ≤ t.e.toNat - t.b.toNat + t.s.toNat - 1 :=
    (Nat.le_div_iff_mul_le hs).mp hc
  rw [Nat.succ_mul] at hmul
  have := h.e_le
  unfold sel
  omega

theorem InRange.count_le (h : InRange t d) : count t ≤ d := by
  have hs : 0 < t.s.toNat := by
    have := h.s_pos
    omega
  have := h.e_le
  have hspan : t.e.toNat - t.b.toNat ≤ d := by omega
  refine (Nat.lt_succ_iff.mp ((Nat.div_lt_iff_lt_mul hs).mpr ?_))
  have hmul : d + t.s.toNat ≤ d * t.s.toNat + t.s.toNat :=
    Nat.add_le_add_right (Nat.le_mul_of_pos_right d hs) _
  rw [Nat.succ_mul]
  omega

variable {ts : List Triple} {ds cs : List ℕ}

theorem place_within (h : List.Forall₂ InRange ts ds) (hcs : Within cs (cells ts)) :
    Within (place ts cs) ds := by
  induction h generalizing cs with
  | nil =>
    cases hcs
    exact List.Forall₂.nil
  | cons ht _ ih =>
    cases hcs with
    | cons hc hcs => exact List.Forall₂.cons (ht.sel_lt hc) (ih hcs)

theorem prod_cells_le (h : List.Forall₂ InRange ts ds) : (cells ts).prod ≤ ds.prod := by
  induction h with
  | nil => exact Nat.le_refl 1
  | cons ht _ ih =>
    rw [cells_cons, List.prod_cons, List.prod_cons]
    exact Nat.mul_le_mul ht.count_le ih

/-! ### The device -/

theorem asU32_eq {z : ℤ} (h0 : 0 ≤ z) (hlt : z < 2 ^ 31) : asU32 z = z.toNat := by
  unfold asU32
  omega

theorem InRange.axis_eq (h : InRange t d) (d' : ℕ) :
    t.axis d' = ⟨t.b.toNat, t.e.toNat, t.s.toNat, d'⟩ := by
  rw [Triple.axis, asU32_eq h.b_nonneg h.b_lt, asU32_eq h.e_nonneg h.e_lt,
    asU32_eq h.s_pos.le h.s_lt]

theorem InRange.fixed_axis (h : InRange t d) (d' : ℕ) :
    (t.axis d').fixed = ⟨t.b.toNat, t.e.toNat, t.s.toNat, d'⟩ := by
  have hs : t.s.toNat ≠ 0 := by
    have := h.s_pos
    omega
  rw [h.axis_eq, Axis.fixed, if_neg hs]

theorem InRange.taken (h : InRange t d) (d' : ℕ) : (t.axis d').fixed.taken = count t := by
  have hb := h.b_lt
  have he := h.e_lt
  have hs := h.s_lt
  rw [h.fixed_axis]
  show u32 ((if t.b.toNat < t.e.toNat then t.e.toNat - t.b.toNat else 0) + t.s.toNat - 1) /
    t.s.toNat = _
  rw [count]
  congr 1
  by_cases hlt : t.b.toNat < t.e.toNat
  · rw [if_pos hlt, u32_of_lt (by omega)]
  · rw [if_neg hlt, u32_of_lt (by omega)]
    omega

def axesOf (ts : List Triple) (dd : List ℕ) : List Axis :=
  List.zipWith (fun t d => ⟨t.b.toNat, t.e.toNat, t.s.toNat, d⟩) ts dd

theorem axesOf_cons (t : Triple) (ts : List Triple) (d : ℕ) (dd : List ℕ) :
    axesOf (t :: ts) (d :: dd) = ⟨t.b.toNat, t.e.toNat, t.s.toNat, d⟩ :: axesOf ts dd := rfl

variable {dd : List ℕ}

theorem map_fixed (h : List.Forall₂ InRange ts ds) (dd : List ℕ) :
    (List.zipWith Triple.axis ts dd).map Axis.fixed = axesOf ts dd := by
  induction h generalizing dd with
  | nil => rfl
  | cons ht _ ih =>
    cases dd with
    | nil => rfl
    | cons d' dd => rw [List.zipWith_cons_cons, List.map_cons, ht.fixed_axis, ih, axesOf_cons]

theorem zipWith_axis (h : List.Forall₂ InRange ts ds) (dd : List ℕ) :
    List.zipWith Triple.axis ts dd = axesOf ts dd := by
  induction h generalizing dd with
  | nil => rfl
  | cons ht _ ih =>
    cases dd with
    | nil => rfl
    | cons d' dd => rw [List.zipWith_cons_cons, ht.axis_eq, ih, axesOf_cons]

theorem map_taken (h : List.Forall₂ InRange ts ds) (hlen : dd.length = ts.length) :
    (axesOf ts dd).map Axis.taken = cells ts := by
  induction h generalizing dd with
  | nil => rfl
  | cons ht _ ih =>
    cases dd with
    | nil => exact absurd hlen (Nat.succ_ne_zero _).symm
    | cons d' dd =>
      rw [axesOf_cons, List.map_cons, ← ht.fixed_axis d', ht.taken, ih (Nat.succ.inj hlen)]
      rfl

theorem map_d (ts : List Triple) (hlen : dd.length = ts.length) :
    (axesOf ts dd).map Axis.d = dd := by
  induction ts generalizing dd with
  | nil => exact (List.length_eq_zero_iff.mp hlen).symm
  | cons t ts ih =>
    cases dd with
    | nil => rfl
    | cons d' dd =>
      rw [axesOf_cons, List.map_cons, ih (Nat.succ.inj hlen)]

theorem selected_axesOf (ts : List Triple) (hlen : dd.length = ts.length) (cs : List ℕ) :
    selected (axesOf ts dd) cs = place ts cs := by
  induction ts generalizing dd cs with
  | nil => rfl
  | cons t ts ih =>
    cases dd with
    | nil => exact absurd hlen (Nat.succ_ne_zero _).symm
    | cons d' dd =>
      cases cs with
      | nil => rfl
      | cons c cs =>
        have htail := ih (Nat.succ.inj hlen) cs
        rw [selected] at htail
        rw [selected, axesOf_cons, List.zipWith_cons_cons, htail]
        rfl

/-- Where the device reads the element for a place of the output. -/
def readAt (ts : List Triple) (dd : List ℕ) (i : ℕ) : ℕ :=
  address32 (strides32 dd) (place ts (coords (cells ts) i))

theorem sliceAddress_eq (h : List.Forall₂ InRange ts ds) (hlen : dd.length = ts.length)
    (hlt : (cells ts).prod < 2 ^ 32) {i : ℕ} (hi : i < (cells ts).prod) :
    sliceAddress (axesOf ts dd) i = .ok (readAt ts dd i) := by
  have hpos : 0 < (cells ts).prod := Nat.zero_lt_of_lt hi
  have hwalk : walk (strides32 (cells ts)) i = .ok (coords (cells ts) i) := by
    rw [strides32_eq hpos hlt, walk_strides hpos]
  rw [sliceAddress, map_taken h hlen, map_d ts hlen, hwalk]
  show Except.ok (address32 (strides32 dd) (selected (axesOf ts dd) _)) = _
  rw [selected_axesOf ts hlen]
  rfl

theorem sliceAddress_onlyFaults (axes : List Axis) (i : ℕ) : OnlyFaults (sliceAddress axes i) :=
  onlyFaults_bind (walk_onlyFaults _ i) fun _ => onlyFaults_pure _

/-- The output holds at every place the element of the input that the triples name. -/
def Copied (ds : List ℕ) (ts : List Triple) (x : Tensor) (y : List UInt16) : Prop :=
  y.length = (cells ts).prod ∧
  ∀ cs, Within cs (cells ts) → y[lin (cells ts) cs]? = x.data[lin ds (place ts cs)]?

/-- The run ends in an error message or in the right output, whatever the input holds. -/
def Slices (ds : List ℕ) (ts : List Triple) (run : Tensor → (ℕ → UInt16) →
    Checked String (List UInt16)) : Prop :=
  ∀ x : Tensor, x.count = ds.prod → ∀ old, (∃ e, run x old = .error (.reject e)) ∨
    ∃ y, run x old = .ok y ∧ Copied ds ts x y

/-- The device's strides give each cell that is taken its own place. -/
def Placed (ds : List ℕ) (ts : List Triple) (dd : List ℕ) : Prop :=
  ∀ cs, Within cs (cells ts) → address32 (strides32 dd) (place ts cs) = lin ds (place ts cs)

theorem copied_nil (hzero : (cells ts).prod = 0) (x : Tensor) : Copied ds ts x [] := by
  refine ⟨hzero.symm, fun cs hcs => ?_⟩
  have := hcs.prod_pos
  omega

section Exec

variable {axes : List Axis} (h : List.Forall₂ InRange ts ds) (hlen : dd.length = ts.length)
  (hrk : ts.length ≤ 3) (haxes : axes.take ts.length = List.zipWith Triple.axis ts dd)

include h hrk haxes in
theorem execSlice_eq (hpos : 1 ≤ ts.length) (n : ℕ) (x : Tensor) (old : ℕ → UInt16) :
    execSlice ⟨n, ts.length, axes⟩ x old =
      fillLoop (copyCell (sliceAddress (axesOf ts dd)) x) (List.range n) (tempGet old (n * 2)) := by
  rw [execSlice, if_neg (by
    show ¬(ts.length < 1 ∨ 3 < ts.length)
    omega)]
  show fillLoop (copyCell (sliceAddress ((axes.take ts.length).map Axis.fixed)) x) _ _ = _
  rw [haxes, map_fixed h]

include h hlen hrk haxes in
theorem execSlice_iff (hpos : 1 ≤ ts.length) (hN : 2 * ds.prod < 2 ^ 32) :
    Slices ds ts (execSlice ⟨(cells ts).prod, ts.length, axes⟩) ↔ Placed ds ts dd := by
  have hle := prod_cells_le h
  have haddr : ∀ i < (cells ts).prod, sliceAddress (axesOf ts dd) i = .ok (readAt ts dd i) :=
    fun i hi => sliceAddress_eq h hlen (by omega) hi
  have hcopy := copy_iff (y := tempGet (fun _ => 0) ((cells ts).prod * 2)) hN
    (t := fun i => lin ds (place ts (coords (cells ts) i))) haddr
    (fun i hi => lin_lt (place_within h (coords_within hi)))
    (by rw [length_tempGet_of_lt _ (by omega)])
  constructor
  · intro hslices cs hcs
    refine Eq.trans ?_ (hcopy.mp ?_ (lin (cells ts) cs) (lin_lt hcs) |>.trans ?_)
    · rw [readAt, coords_lin hcs]
    · intro x hx
      have hrun := hslices x hx fun _ => 0
      rw [execSlice_eq h hrk haxes hpos] at hrun
      obtain ⟨e, he⟩ | ⟨y, hy, -, hval⟩ := hrun
      · cases copy_onlyFaults (sliceAddress_onlyFaults (axesOf ts dd)) _ he
      · refine ⟨y, hy, fun i hi => ?_⟩
        rw [← hval (coords (cells ts) i) (coords_within hi), lin_coords hi]
    · rw [coords_lin hcs]
  · intro hplaced x hx old
    rw [execSlice_eq h hrk haxes hpos]
    obtain ⟨y, hy, hylen, hval⟩ := copy_runs (x := x)
      (y := tempGet old ((cells ts).prod * 2)) (n := (cells ts).prod)
      (fun i hi => sliceAddress_eq h hlen (by omega) hi)
      (fun i hi => by
        have hcs := coords_within hi
        rw [readAt, hplaced _ hcs, hx]
        exact lin_lt (place_within h hcs))
      (by rw [length_tempGet_of_lt _ (by omega)])
    refine Or.inr ⟨y, hy, ?_, fun cs hcs => ?_⟩
    · rw [hylen, length_tempGet_of_lt _ (by omega)]
    · rw [hval _ (lin_lt hcs), readAt, coords_lin hcs, hplaced cs hcs]

end Exec

/-! ### Up to three axes -/

/-- The strides that the device derives up to three axes. -/
def deviceStrides : List ℕ → List ℕ
  | [d0, d1] => if d1 = 1 then [1, 1] else [d0, 1]
  | [d0, d1, d2] =>
    if d2 ≠ 1 then [d1 * d2, d2, 1] else if d1 = 1 then [d0, d0, 1] else [d0 * d1, d1, 1]
  | ds => strides ds

theorem strippedRank_one (a : ℕ) : strippedRank [a] = if a = 1 then 0 else 1 := by
  by_cases ha : a = 1 <;> simp [strippedRank, ha]

theorem strippedRank_two (a b : ℕ) :
    strippedRank [a, b] = if b = 1 then strippedRank [a] else 2 := by
  by_cases hb : b = 1 <;> simp [strippedRank, hb]

theorem strippedRank_three (a b c : ℕ) :
    strippedRank [a, b, c] = if c = 1 then strippedRank [a, b] else 3 := by
  by_cases hc : c = 1 <;> simp [strippedRank, hc]

theorem sliceDims_one (a : ℕ) : sliceDims [a] = [1, 1, u32 a] := by
  unfold sliceDims
  rw [strippedRank_one]
  by_cases ha : a = 1
  · subst ha
    rfl
  · simp [ha]

theorem sliceDims_two (a b : ℕ) :
    sliceDims [a, b] = if b = 1 then [1, 1, u32 a] else [u32 b, u32 a, u32 b] := by
  unfold sliceDims
  rw [strippedRank_two, strippedRank_one]
  by_cases hb : b = 1
  · by_cases ha : a = 1
    · subst ha hb
      rfl
    · simp [ha, hb]
  · simp [hb, u32]

theorem sliceDims_three (a b c : ℕ) :
    sliceDims [a, b, c] = if c = 1 then sliceDims [a, b] else [u32 a, u32 b, u32 c] := by
  by_cases hc : c = 1
  · rw [if_pos hc]
    unfold sliceDims
    rw [strippedRank_three, if_pos hc, strippedRank_two, strippedRank_one]
    by_cases hb : b = 1
    · by_cases ha : a = 1
      · subst ha hb hc
        rfl
      · simp [ha, hb]
    · simp [hb, u32]
  · unfold sliceDims
    rw [strippedRank_three, if_neg hc]
    simp [hc, u32]

theorem strides32_sliceDims {shape : List ℕ} (hpos : 1 ≤ shape.length) (hlen : shape.length ≤ 3) :
    strides32 ((sliceDims shape).take shape.length) = (deviceStrides shape).map u32 := by
  cases shape with
  | nil => exact absurd hpos (by decide)
  | cons a rest =>
    cases rest with
    | nil =>
      rw [sliceDims_one]
      rfl
    | cons b rest =>
      cases rest with
      | nil =>
        rw [sliceDims_two]
        by_cases hb : b = 1 <;> simp [deviceStrides, strides32, hb]
      | cons c rest =>
        obtain rfl : rest = [] := by
          apply List.length_eq_zero_iff.mp
          rw [List.length_cons, List.length_cons, List.length_cons] at hlen
          omega
        rw [sliceDims_three, sliceDims_two]
        by_cases hc : c = 1
        · by_cases hb : b = 1 <;> simp [deviceStrides, strides32, hb, hc, Nat.mul_comm]
        · simp [deviceStrides, strides32, hc, Nat.mul_comm]

theorem strides32_sliceDims_padded {shape : List ℕ} {k : ℕ} (hlen : shape.length ≤ 3)
    (hk : k < shape.length) (hones : ∀ d ∈ shape.take k, d = 1) :
    strides32 ((sliceDims shape).take (shape.length - k)) =
      (deviceStrides (shape.drop k)).map u32 := by
  cases k with
  | zero => exact strides32_sliceDims hk hlen
  | succ k =>
    cases shape with
    | nil => exact absurd hk (Nat.not_lt_zero _)
    | cons a rest =>
      cases rest with
      | nil => exact absurd (Nat.lt_of_succ_lt_succ hk) (Nat.not_lt_zero _)
      | cons b rest =>
        obtain rfl : a = 1 := hones a List.mem_cons_self
        cases rest with
        | nil =>
          obtain rfl : k = 0 := Nat.lt_one_iff.mp (Nat.lt_of_succ_lt_succ hk)
          rw [sliceDims_two]
          by_cases hb : b = 1 <;> simp [deviceStrides, strides32, strides, hb]
        | cons c rest =>
          obtain rfl : rest = [] := by
            apply List.length_eq_zero_iff.mp
            rw [List.length_cons, List.length_cons, List.length_cons] at hlen
            omega
          cases k with
          | zero =>
            rw [sliceDims_three, sliceDims_two]
            by_cases hc : c = 1
            · by_cases hb : b = 1 <;> simp [deviceStrides, strides32, hb, hc]
            · simp [deviceStrides, strides32, hc]
          | succ k =>
            have hk' : k + 2 < 3 := hk
            obtain rfl : k = 0 := by omega
            obtain rfl : b = 1 := hones b (by simp)
            rw [sliceDims_three, sliceDims_two]
            by_cases hc : c = 1 <;> simp [deviceStrides, strides32, strides, hc]

/-- The strides of the device and those of the input give every cell that is taken the same place,
up to multiples of `2 ^ 32`: a matrix is taken for one of as many columns as it has rows, and a
stack of columns for one of matrices. -/
def StridesFit : List ℕ → List Triple → Prop
  | [d0, d1], [t0, _] => d1 = 1 ∨ ∀ c < count t0, Nat.ModEq (2 ^ 32) (sel t0 c * d0) (sel t0 c * d1)
  | [d0, d1, d2], [t0, t1, _] => d2 ≠ 1 ∨ ∀ c0 < count t0, ∀ c1 < count t1,
      Nat.ModEq (2 ^ 32) (sel t0 c0 * (d0 * d1) + sel t1 c1 * d1) (sel t0 c0 * d1 + sel t1 c1)
  | _, _ => True

section Fit

variable {t0 t1 t2 : Triple} {d0 d1 d2 : ℕ}

theorem place_mod_iff (hr : List.Forall₂ InRange ts ds) (hlt : ds.prod < 2 ^ 32)
    (hdd : strides32 dd = (deviceStrides ds).map u32) (hcs : Within cs (cells ts)) :
    address32 (strides32 dd) (place ts cs) = lin ds (place ts cs) ↔
      Nat.ModEq (2 ^ 32) (dot (deviceStrides ds) (place ts cs)) (dot (strides ds) (place ts cs)) := by
  have hlin : lin ds (place ts cs) < 2 ^ 32 := (lin_lt (place_within hr hcs)).trans hlt
  rw [hdd, address32_map_u32, dot_strides]
  conv_lhs => rw [← u32_of_lt hlin]
  exact Iff.rfl

theorem InRange.sel_one (h : InRange t 1) (hc : c < count t) : sel t c = 0 :=
  Nat.lt_one_iff.mp (h.sel_lt hc)

theorem placed_two (hpos1 : 0 < count t1) :
    (∀ cs, Within cs (cells [t0, t1]) → Nat.ModEq (2 ^ 32)
      (dot (deviceStrides [d0, d1]) (place [t0, t1] cs)) (dot (strides [d0, d1]) (place [t0, t1] cs))) ↔
      StridesFit [d0, d1] [t0, t1] := by
  by_cases hd : d1 = 1
  · constructor
    · intro _
      exact Or.inl hd
    · intro _ cs _
      rw [deviceStrides, if_pos hd, strides, strides, strides, List.prod_cons, List.prod_nil, hd,
        Nat.mul_one]
  · have hone : ∀ c0 c1, Nat.ModEq (2 ^ 32)
        (dot (deviceStrides [d0, d1]) (place [t0, t1] [c0, c1]))
        (dot (strides [d0, d1]) (place [t0, t1] [c0, c1])) ↔
        Nat.ModEq (2 ^ 32) (sel t0 c0 * d0) (sel t0 c0 * d1) := by
      intro c0 c1
      rw [deviceStrides, if_neg hd]
      show Nat.ModEq (2 ^ 32) (sel t0 c0 * d0 + (sel t1 c1 * 1 + 0))
        (sel t0 c0 * (d1 * 1) + (sel t1 c1 * 1 + 0)) ↔ _
      rw [Nat.mul_one d1]
      exact Nat.ModEq.add_iff_right rfl
    constructor
    · intro h
      refine Or.inr fun c0 hc0 => (hone c0 0).mp (h [c0, 0] ?_)
      exact List.Forall₂.cons hc0 (List.Forall₂.cons hpos1 List.Forall₂.nil)
    · intro h cs hcs
      cases hcs with
      | cons hc0 hcs =>
        cases hcs with
        | cons hc1 hcs =>
          cases hcs
          exact (hone _ _).mpr ((h.resolve_left hd) _ hc0)

theorem placed_three (hr1 : InRange t1 d1) (hr2 : InRange t2 d2) (hpos2 : 0 < count t2) :
    (∀ cs, Within cs (cells [t0, t1, t2]) → Nat.ModEq (2 ^ 32)
      (dot (deviceStrides [d0, d1, d2]) (place [t0, t1, t2] cs))
      (dot (strides [d0, d1, d2]) (place [t0, t1, t2] cs))) ↔
      StridesFit [d0, d1, d2] [t0, t1, t2] := by
  by_cases hd : d2 = 1
  · have hone : ∀ c0 c1 c2, c1 < count t1 → c2 < count t2 → (Nat.ModEq (2 ^ 32)
        (dot (deviceStrides [d0, d1, d2]) (place [t0, t1, t2] [c0, c1, c2]))
        (dot (strides [d0, d1, d2]) (place [t0, t1, t2] [c0, c1, c2])) ↔
        Nat.ModEq (2 ^ 32) (sel t0 c0 * (d0 * d1) + sel t1 c1 * d1)
          (sel t0 c0 * d1 + sel t1 c1)) := by
      intro c0 c1 c2 hc1 hc2
      have hlast : sel t2 c2 = 0 := (hd ▸ hr2).sel_one hc2
      have hright : dot (strides [d0, d1, d2]) (place [t0, t1, t2] [c0, c1, c2]) =
          sel t0 c0 * d1 + sel t1 c1 := by
        show sel t0 c0 * (d1 * (d2 * 1)) + (sel t1 c1 * (d2 * 1) + (sel t2 c2 * 1 + 0)) = _
        rw [hlast, hd, Nat.mul_one, Nat.mul_one, Nat.mul_one, Nat.add_zero]
      have hleft : dot (deviceStrides [d0, d1, d2]) (place [t0, t1, t2] [c0, c1, c2]) =
          sel t0 c0 * (d0 * d1) + sel t1 c1 * d1 := by
        rw [deviceStrides, if_neg (not_not.mpr hd)]
        by_cases hd1 : d1 = 1
        · rw [if_pos hd1]
          show sel t0 c0 * d0 + (sel t1 c1 * d0 + (sel t2 c2 * 1 + 0)) = _
          have hmid : sel t1 c1 = 0 := (hd1 ▸ hr1).sel_one hc1
          rw [hlast, hmid, hd1, Nat.mul_one d0, Nat.zero_mul, Nat.zero_mul]
        · rw [if_neg hd1]
          show sel t0 c0 * (d0 * d1) + (sel t1 c1 * d1 + (sel t2 c2 * 1 + 0)) = _
          rw [hlast, Nat.zero_mul, Nat.add_zero]
      rw [hleft, hright]
    constructor
    · intro h
      refine Or.inr fun c0 hc0 c1 hc1 => (hone c0 c1 0 hc1 hpos2).mp (h [c0, c1, 0] ?_)
      exact List.Forall₂.cons hc0 (List.Forall₂.cons hc1 (List.Forall₂.cons hpos2 List.Forall₂.nil))
    · intro h cs hcs
      cases hcs with
      | cons hc0 hcs =>
        cases hcs with
        | cons hc1 hcs =>
          cases hcs with
          | cons hc2 hcs =>
            cases hcs
            exact (hone _ _ _ hc1 hc2).mpr ((h.resolve_left (not_not.mpr hd)) _ hc0 _ hc1)
  · constructor
    · intro _
      exact Or.inl hd
    · intro _ cs _
      rw [deviceStrides, if_pos hd]
      show Nat.ModEq _ _ (dot [d1 * (d2 * 1), d2 * 1, 1] _)
      rw [Nat.mul_one]

theorem placed_iff_fit (hr : List.Forall₂ InRange ts ds) (hpos : 1 ≤ ds.length)
    (hlen : ds.length ≤ 3) (hcells : 0 < (cells ts).prod) (hlt : ds.prod < 2 ^ 32)
    (hdd : strides32 dd = (deviceStrides ds).map u32) : Placed ds ts dd ↔ StridesFit ds ts := by
  have hmod : Placed ds ts dd ↔ ∀ cs, Within cs (cells ts) → Nat.ModEq (2 ^ 32)
      (dot (deviceStrides ds) (place ts cs)) (dot (strides ds) (place ts cs)) :=
    forall₂_congr fun cs hcs => place_mod_iff hr hlt hdd hcs
  rw [hmod]
  have hcount : ∀ t ∈ ts, 0 < count t := by
    intro t ht
    apply Nat.pos_of_ne_zero
    intro h0
    have hzero : (cells ts).prod = 0 := List.prod_eq_zero (List.mem_map.mpr ⟨t, ht, h0⟩)
    omega
  cases hr with
  | nil => exact absurd hpos (by decide)
  | @cons t0 d0 ts ds hr0 hr =>
    cases hr with
    | nil => exact ⟨fun _ => trivial, fun _ cs _ => rfl⟩
    | @cons t1 d1 ts ds hr1 hr =>
      cases hr with
      | nil => exact placed_two (hcount t1 (by simp))
      | @cons t2 d2 ts ds hr2 hr =>
        cases hr with
        | nil => exact placed_three hr1 hr2 (hcount t2 (by simp))
        | @cons t3 d3 ts ds _ _ =>
          have hlen' : ds.length + 1 + 1 + 1 + 1 ≤ 3 := hlen
          omega

end Fit

/-! ### The ranges in the pool -/

/-- The ranges are in the constant pool, and the operator knows where. -/
structure Stored (pool : List ℤ) (e : ExtraStridedSlice) (rs : List Triple) : Prop where
  rank : e.rank = rs.length
  room : e.rangesOffset + 12 * rs.length ≤ 4 * pool.length
  entry : ∀ ax (h : ax < rs.length), pool[e.rangesOffset / 4 + ax * 3]? = some rs[ax].b ∧
    pool[e.rangesOffset / 4 + ax * 3 + 1]? = some rs[ax].e ∧
    pool[e.rangesOffset / 4 + ax * 3 + 2]? = some rs[ax].s

section Pool

variable {pool : List ℤ} {past : ℕ → ℤ} {e : ExtraStridedSlice} {rs : List Triple}

theorem poolWord_eq {i : ℕ} {z : ℤ} (h : pool[i]? = some z) : poolWord pool past i = z := by
  rw [poolWord, List.getD_eq_getElem?_getD, h]
  rfl

theorem Stored.triple_eq (h : Stored pool e rs) {ax : ℕ} (hax : ax < rs.length) :
    tripleAt pool past e.rangesOffset ax = rs[ax] := by
  obtain ⟨hb, he, hs⟩ := h.entry ax hax
  rw [tripleAt, poolWord_eq hb, poolWord_eq he, poolWord_eq hs]

theorem Stored.map_triples (past : ℕ → ℤ) (h : Stored pool e rs) :
    (List.range rs.length).map (tripleAt pool past e.rangesOffset) = rs := by
  apply List.ext_getElem
  · rw [List.length_map, List.length_range]
  · intro i hi hi'
    rw [List.getElem_map, List.getElem_range, h.triple_eq hi']

theorem Stored.have_ranges (h : Stored pool e rs) :
    haveRanges pool e = decide (e.rangesOffset ≠ 0) := by
  have := h.room
  have := h.rank
  unfold haveRanges
  rw [decide_eq_decide]
  constructor
  · exact fun hr => hr.1
  · exact fun hr => ⟨hr, by omega⟩

theorem length_sliceDims (shape : List ℕ) : (sliceDims shape).length = 3 := by
  unfold sliceDims
  simp only
  split
  · rfl
  · split
    · rfl
    · rfl

theorem shortSlice_take (h : Stored pool e rs) (hlen : rs.length ≤ 3) (hoff : e.rangesOffset ≠ 0)
    (shape : List ℕ) (n : ℕ) :
    (shortSlice pool past shape e n).axes.take rs.length =
      List.zipWith Triple.axis rs ((sliceDims shape).take rs.length) := by
  have hrank := h.rank
  have htriples : (List.range 3).map (fun i =>
      if haveRanges pool e then
        tripleAt pool past e.rangesOffset (0 + i) else ⟨0, 0, 1⟩) =
      (List.range 3).map (tripleAt pool past e.rangesOffset) := by
    apply List.map_congr_left
    intro i _
    rw [if_pos (by rw [h.have_ranges]; exact decide_eq_true hoff), Nat.zero_add]
  unfold shortSlice
  rw [if_neg (by omega : ¬e.rank = 4)]
  simp only
  rw [htriples, List.take_zipWith, ← List.map_take, List.take_range, Nat.min_eq_left hlen,
    h.map_triples past]

end Pool

/-! ### Four or five axes -/

section Fold

theorem foldAxes_cons_drop {extra : ℕ} (hd : foldable t d ∧ 0 < extra) :
    foldAxes extra (t :: ts) (d :: ds) = foldAxes (extra - 1) ts ds := if_pos hd

theorem foldAxes_cons_stay {extra : ℕ} (hd : ¬(foldable t d ∧ 0 < extra)) :
    foldAxes extra (t :: ts) (d :: ds) = t.axis d :: foldAxes extra ts ds := if_neg hd

theorem foldable_spec (hf : foldable t d) : d = 1 ∧ t.b.toNat = 0 ∧ t.s.toNat = 1 ∧ count t ≤ 1 := by
  obtain ⟨hd, hb, he, hs⟩ := of_decide_eq_true hf
  refine ⟨hd, by omega, by omega, ?_⟩
  have hs' : t.s.toNat = 1 := by omega
  rw [count, hs', Nat.div_one]
  omega

theorem foldAxes_spec (h : List.Forall₂ InRange ts ds) (extra : ℕ) :
    ∃ ts' ds', foldAxes extra ts ds = axesOf ts' ds' ∧ List.Forall₂ InRange ts' ds' ∧
      ds'.prod = ds.prod ∧ (0 < (cells ts).prod → (cells ts').prod = (cells ts).prod) ∧
      ∀ cs, Within cs (cells ts) → ∃ cs', Within cs' (cells ts') ∧
        lin (cells ts') cs' = lin (cells ts) cs ∧
        lin ds' (place ts' cs') = lin ds (place ts cs) := by
  induction h generalizing extra with
  | nil =>
    exact ⟨[], [], rfl, List.Forall₂.nil, rfl, fun _ => rfl, fun cs hcs => ⟨cs, hcs, rfl, rfl⟩⟩
  | @cons t d ts ds ht _ ih =>
    by_cases hf : foldable t d ∧ 0 < extra
    · obtain ⟨hd, hb, hs, hcount⟩ := foldable_spec hf.1
      obtain ⟨ts', ds', heq, hr, hprod, hcells, hplace⟩ := ih (extra - 1)
      refine ⟨ts', ds', by rw [foldAxes_cons_drop hf, heq], hr, ?_, ?_, ?_⟩
      · rw [hprod, List.prod_cons, hd, Nat.one_mul]
      · intro hpos
        rw [cells_cons, List.prod_cons] at hpos ⊢
        have hone : count t = 1 := by
          have := Nat.pos_of_mul_pos_right hpos
          omega
        rw [hone, Nat.one_mul] at hpos ⊢
        exact hcells hpos
      · intro cs hcs
        cases hcs with
        | @cons c _ cs _ hc hcs =>
          obtain ⟨cs', hwithin, hlin, hread⟩ := hplace cs hcs
          have hone : count t = 1 := by omega
          refine ⟨cs', hwithin, ?_, ?_⟩
          · rw [hlin]
            show lin (cells ts) cs = lin (count t :: cells ts) (c :: cs)
            rw [hone, lin_one_cons _ _ _ (by omega)]
          · rw [hread]
            show lin ds (place ts cs) = lin (d :: ds) (sel t c :: place ts cs)
            rw [hd, lin_one_cons _ _ _ (by
              rw [sel, hb, hs]
              omega)]
    · obtain ⟨ts', ds', heq, hr, hprod, hcells, hplace⟩ := ih extra
      refine ⟨t :: ts', d :: ds', ?_, List.Forall₂.cons ht hr, ?_, ?_, ?_⟩
      · rw [foldAxes_cons_stay hf, heq, ht.axis_eq, axesOf_cons]
      · rw [List.prod_cons, List.prod_cons, hprod]
      · intro hpos
        rw [cells_cons, List.prod_cons] at hpos
        show count t * (cells ts').prod = count t * (cells ts).prod
        rw [hcells (Nat.pos_of_mul_pos_left hpos)]
      · intro cs hcs
        cases hcs with
        | @cons c _ cs _ hc hcs =>
          obtain ⟨cs', hwithin, hlin, hread⟩ := hplace cs hcs
          have hwithin_cs : Within cs (cells ts) := hcs
          have hpos := hwithin_cs.prod_pos
          refine ⟨c :: cs', List.Forall₂.cons hc hwithin, ?_, ?_⟩
          · show lin (count t :: cells ts') (c :: cs') = lin (count t :: cells ts) (c :: cs)
            rw [lin_cons, lin_cons, hlin, hcells hpos]
          · show lin (d :: ds') (sel t c :: place ts' cs') = lin (d :: ds) (sel t c :: place ts cs)
            rw [lin_cons, lin_cons, hread, hprod]

theorem placed_self (h : List.Forall₂ InRange ts ds) (hlt : ds.prod < 2 ^ 32) :
    Placed ds ts ds := by
  intro cs hcs
  have hplace := place_within h hcs
  rw [strides32_eq hplace.prod_pos hlt, address32_strides hplace hlt]

theorem execSlice_zero {args : SliceArgs} (hn : args.nOut = 0) (hzero : (cells ts).prod = 0) :
    Slices ds ts (execSlice args) := by
  intro x _ old
  rw [execSlice]
  by_cases hrk : args.rk < 1 ∨ 3 < args.rk
  · rw [if_pos hrk]
    exact Or.inl ⟨_, rfl⟩
  · rw [if_neg hrk, hn]
    exact Or.inr ⟨[], rfl, copied_nil hzero x⟩

theorem foldSlice_spec (h : List.Forall₂ InRange ts ds) (hN : 2 * ds.prod < 2 ^ 32) (n : ℕ) :
    (∃ e, foldSlice ts ds n = .error (.reject e)) ∨
    ∃ args, foldSlice ts ds n = .ok args ∧ (0 < (cells ts).prod → n = (cells ts).prod) ∧
      (n = (cells ts).prod → Slices ds ts (execSlice args)) := by
  unfold foldSlice
  by_cases hs : ∃ t ∈ ts, t.s ≤ 0
  · rw [if_pos hs]
    exact Or.inl ⟨_, rfl⟩
  rw [if_neg hs]
  obtain ⟨ts', ds', heq, hr, hprod, hcells, hplace⟩ := foldAxes_spec h (ds.length - 3)
  have hlen : ds'.length = ts'.length := hr.length_eq.symm
  have hle := prod_cells_le hr
  have hrank : (axesOf ts' ds').length = ts'.length := by
    rw [axesOf, List.length_zipWith, hlen, Nat.min_self]
  simp only [heq, hrank, map_taken hr hlen]
  by_cases hrk : 3 < ts'.length
  · rw [if_pos hrk]
    exact Or.inl ⟨_, rfl⟩
  rw [if_neg hrk]
  by_cases hn : (cells ts').prod % 2 ^ 64 ≠ n
  · rw [if_pos hn]
    exact Or.inl ⟨_, rfl⟩
  rw [if_neg hn]
  rw [not_not, Nat.mod_eq_of_lt (by omega)] at hn
  refine Or.inr ⟨_, rfl, fun hpos => by rw [← hn, hcells hpos], fun heqn => ?_⟩
  by_cases hzero : (cells ts).prod = 0
  · exact execSlice_zero (heqn.trans hzero) hzero
  by_cases hempty : ts'.length < 1
  · intro x _ old
    rw [execSlice, if_pos (Or.inl hempty)]
    exact Or.inl ⟨_, rfl⟩
  have htake : (axesOf ts' ds' ++ List.replicate (3 - ts'.length) (Axis.mk 0 0 1 1)).take ts'.length =
      List.zipWith Triple.axis ts' ds' := by
    rw [List.take_left' hrank, zipWith_axis hr]
  have hslices := (execSlice_iff hr hlen (Nat.le_of_not_lt hrk) htake (Nat.le_of_not_lt hempty)
    (by rw [hprod]; exact hN)).mpr (placed_self hr (by omega))
  rw [← hn]
  intro x hx old
  obtain ⟨e, he⟩ | ⟨y, hy, hylen, hval⟩ := hslices x (by rw [hprod]; exact hx) old
  · exact Or.inl ⟨e, he⟩
  · refine Or.inr ⟨y, hy, ?_, fun cs hcs => ?_⟩
    · rw [hylen, hcells (Nat.pos_of_ne_zero hzero)]
    · obtain ⟨cs', hwithin, hlin, hread⟩ := hplace cs hcs
      rw [← hlin, hval cs' hwithin, hread]

end Fold

/-! ### The whole operator -/

section Whole

variable (pool : List ℤ) (past : ℕ → ℤ) {src out : OutputDef} {e : ExtraStridedSlice}
  {rs : List Triple}

/-- The number of axes in front that have no triple. -/
def front (src : OutputDef) (rs : List Triple) : ℕ := src.shape.length - rs.length

/-- There is a triple for every axis, or the ranges are not the first constant and the axes in front
are of size 1. -/
def PerAxis (src : OutputDef) (e : ExtraStridedSlice) (rs : List Triple) : Prop :=
  rs.length = src.shape.length ∨ rs.length < src.shape.length ∧ e.rangesOffset ≠ 0 ∧
    ∀ d ∈ src.shape.take (front src rs), d = 1

/-- When the operator slices right: from four axes on; for an empty output; and up to three axes if
the strides fit, or, with the ranges at offset 0, if there is one axis only and it is copied from its
first cell on. -/
def SliceFits (src : OutputDef) (e : ExtraStridedSlice) (rs : List Triple) : Prop :=
  3 < src.rank ∨ rs = [] ∨ (cells rs).prod = 0 ∨
    if e.rangesOffset = 0 then ∃ t, rs = [t] ∧ t.b = 0 ∧ (t.s = 1 ∨ count t = 1)
    else StridesFit (src.shape.drop (front src rs)) rs

theorem PerAxis.length_le (h : PerAxis src e rs) : rs.length ≤ src.shape.length := by
  cases h with
  | inl h => exact h.le
  | inr h => exact h.1.le

theorem PerAxis.ones (h : PerAxis src e rs) : ∀ d ∈ src.shape.take (front src rs), d = 1 := by
  cases h with
  | inl h =>
    intro d hd
    rw [front, h, Nat.sub_self] at hd
    exact absurd hd List.not_mem_nil
  | inr h => exact h.2.2

theorem PerAxis.length_drop (h : PerAxis src e rs) :
    (src.shape.drop (front src rs)).length = rs.length := by
  have := h.length_le
  rw [List.length_drop, front]
  omega

theorem slices_of_emit {ds : List ℕ} {ts : List Triple} {args : SliceArgs}
    (h : opStridedSlice pool past (some src) e out = .ok args) :
    Slices ds ts (stridedSlice pool past (some src) e out) ↔ Slices ds ts (execSlice args) := by
  have hrun : stridedSlice pool past (some src) e out = execSlice args := by
    funext x old
    rw [stridedSlice, h]
    rfl
  rw [hrun]

theorem slices_of_reject {ds : List ℕ} {ts : List Triple} {msg : String}
    (h : opStridedSlice pool past (some src) e out = .error (.reject msg)) :
    Slices ds ts (stridedSlice pool past (some src) e out) := by
  intro x _ old
  refine Or.inl ⟨msg, ?_⟩
  rw [stridedSlice, h]
  rfl

theorem opStridedSlice_short (e : ExtraStridedSlice) (out : OutputDef) (h : src.rank ≤ 3) :
    opStridedSlice pool past (some src) e out =
      .ok (shortSlice pool past src.shape e (u32 (elemsOf out))) := if_pos h

theorem opStridedSlice_long (e : ExtraStridedSlice) (out : OutputDef) (h : ¬src.rank ≤ 3) :
    opStridedSlice pool past (some src) e out =
      longSlice pool past src e (u32 (elemsOf out)) := if_neg h

section Short

variable (hrank : src.rank ≤ 3) (hst : Stored pool e rs) (hlen : src.shape.length ≤ 3)
  (hper : PerAxis src e rs) (hr : List.Forall₂ InRange rs (src.shape.drop (front src rs)))
  (hout : elemsOf out = (cells rs).prod) (hN : 2 * (src.shape.drop (front src rs)).prod < 2 ^ 32)

include hst hlen hper hr hout hN in
theorem shortSlice_eq : shortSlice pool past src.shape e (u32 (elemsOf out)) =
    ⟨(cells rs).prod, rs.length, (shortSlice pool past src.shape e (u32 (elemsOf out))).axes⟩ := by
  have hle := prod_cells_le hr
  have hlen' := hper.length_le
  have hrk := hst.rank
  have hn : u32 (elemsOf out) = (cells rs).prod := by rw [hout, u32_of_lt (by omega)]
  show SliceArgs.mk (u32 (elemsOf out)) (if 4 ≤ e.rank then 3 else e.rank)
    (shortSlice pool past src.shape e (u32 (elemsOf out))).axes = _
  rw [if_neg (by omega), hn, hrk]

include hrank hst hlen hper hr hout hN in
theorem short_iff (hoff : e.rangesOffset ≠ 0) (hne : rs ≠ []) (hcells : 0 < (cells rs).prod) :
    Slices (src.shape.drop (front src rs)) rs (stridedSlice pool past (some src) e out) ↔
      StridesFit (src.shape.drop (front src rs)) rs := by
  have hlen' := hper.length_le
  have hpos : 0 < rs.length := List.length_pos_of_ne_nil hne
  have hdrop := hper.length_drop
  have hdd : ((sliceDims src.shape).take rs.length).length = rs.length := by
    rw [List.length_take, length_sliceDims]
    omega
  have hstrides : strides32 ((sliceDims src.shape).take rs.length) =
      (deviceStrides (src.shape.drop (front src rs))).map u32 := by
    have hfront : src.shape.length - front src rs = rs.length := by
      rw [front]
      omega
    rw [← hfront]
    apply strides32_sliceDims_padded hlen _ hper.ones
    rw [front]
    omega
  rw [slices_of_emit pool past (opStridedSlice_short pool past e out hrank),
    shortSlice_eq pool past hst hlen hper hr hout hN,
    execSlice_iff hr hdd (by omega) (shortSlice_take hst (by omega) hoff _ _) hpos hN,
    placed_iff_fit hr (by omega) (by omega) hcells (by omega) hstrides]

/-! The ranges at offset 0 -/

theorem shortSlice_axes_zero (hoff : e.rangesOffset = 0) (shape : List ℕ) (n : ℕ) :
    (shortSlice pool past shape e n).axes =
      (sliceDims shape).map fun d => Axis.mk 0 0 1 d := by
  have hhave : haveRanges pool e = false := decide_eq_false fun h => h.1 hoff
  have htriples : (List.range 3).map (fun i =>
      if haveRanges pool e then tripleAt pool past e.rangesOffset
        ((if e.rank = 4 then 1 else 0) + i) else ⟨0, 0, 1⟩) =
      [Triple.mk 0 0 1, Triple.mk 0 0 1, Triple.mk 0 0 1] := by
    rw [hhave]
    rfl
  unfold shortSlice
  simp only
  rw [htriples]
  obtain ⟨a, b, c, habc⟩ := List.length_eq_three.mp (length_sliceDims shape)
  rw [habc]
  rfl

theorem copied_single (d : ℕ) (t : Triple) (x : Tensor) (y : List UInt16) :
    Copied [d] [t] x y ↔ y.length = count t ∧ ∀ i < count t, y[i]? = x.data[sel t i]? := by
  have hcells : (cells [t]).prod = count t := Nat.mul_one _
  have hlin : ∀ c, lin (cells [t]) [c] = c := fun c => lin_single (count t) c
  have hplace : ∀ c, lin [d] (place [t] [c]) = sel t c := fun c => lin_single d (sel t c)
  unfold Copied
  rw [hcells]
  apply and_congr_right
  intro _
  constructor
  · intro h i hi
    have hcell := h [i] (List.Forall₂.cons hi List.Forall₂.nil)
    rw [hlin, hplace] at hcell
    exact hcell
  · intro h cs hcs
    cases hcs with
    | cons hc hcs =>
      cases hcs
      rw [hlin, hplace]
      exact h _ hc

theorem first_cells_iff {t : Triple} {d : ℕ} (h : InRange t d) (hcells : 0 < count t) :
    (∀ i < count t, i = sel t i) ↔ t.b = 0 ∧ (t.s = 1 ∨ count t = 1) := by
  have hb := h.b_nonneg
  have hs := h.s_pos
  constructor
  · intro hsel
    have h0 := hsel 0 hcells
    unfold sel at h0 hsel
    refine ⟨by omega, ?_⟩
    by_cases hone : count t = 1
    · exact Or.inr hone
    · have h1 := hsel 1 (by omega)
      exact Or.inl (by omega)
  · intro hfirst i hi
    unfold sel
    cases hfirst.2 with
    | inl hone =>
      rw [hfirst.1, hone]
      show i = 0 + i * 1
      omega
    | inr hone =>
      obtain rfl : i = 0 := by omega
      omega

theorem sliceAddress_one (d : ℕ) {i : ℕ} (hi : i < 2 ^ 32) :
    sliceAddress [Axis.mk 0 0 1 d] i = .ok i := by
  have haddr : address32 [1] [0 + i * 1] = i := by
    show u32 ((0 + i * 1) * 1 + 0) = i
    rw [Nat.mul_one, Nat.zero_add, Nat.mul_one, Nat.add_zero, u32_of_lt hi]
  have hwalk : walk [1] i = .ok [i] := by
    show Except.ok [i / 1] = _
    rw [Nat.div_one]
  show (walk [1] i >>= _) = _
  rw [hwalk]
  show Except.ok (address32 [1] [0 + i * 1]) = _
  rw [haddr]

theorem taken_zero (d : ℕ) : (Axis.mk 0 0 1 d).taken = 0 := by
  rw [Axis.taken, if_neg (Nat.lt_irrefl 0)]
  show u32 0 / 1 = 0
  rfl

theorem sliceAddress_many {dd : List ℕ} (hmany : 2 ≤ dd.length) (i : ℕ) :
    sliceAddress (dd.map fun d => Axis.mk 0 0 1 d) i = .error .fault := by
  cases dd with
  | nil => exact absurd hmany (by decide)
  | cons d dd =>
    cases dd with
    | nil => exact absurd (Nat.le_of_succ_le_succ hmany) (Nat.not_succ_le_zero 0)
    | cons d' dd =>
      have htaken : ((d :: d' :: dd).map fun d => Axis.mk 0 0 1 d).map Axis.taken =
          0 :: 0 :: dd.map fun _ => 0 := by
        rw [List.map_map]
        exact List.map_congr_left (l := d :: d' :: dd) (g := fun _ => 0) fun d _ => taken_zero d
      have hzero : ∃ ss, strides32 (0 :: 0 :: dd.map fun _ => 0) = 0 :: ss := by
        rw [strides32_eq_map, strides_cons, List.prod_cons, Nat.zero_mul]
        exact ⟨_, rfl⟩
      obtain ⟨ss, hss⟩ := hzero
      rw [sliceAddress, htaken, hss]
      rfl

include hrank hst hlen hper hr hout hN in
theorem exec_zero_eq (hoff : e.rangesOffset = 0) (hpos : 1 ≤ rs.length) (x : Tensor)
    (old : ℕ → UInt16) :
    stridedSlice pool past (some src) e out x old =
      fillLoop (copyCell (sliceAddress (((sliceDims src.shape).take rs.length).map
        fun d => Axis.mk 0 0 1 d)) x) (List.range (cells rs).prod)
        (tempGet old ((cells rs).prod * 2)) := by
  have hlen' := hper.length_le
  rw [stridedSlice, opStridedSlice_short pool past e out hrank,
    shortSlice_eq pool past hst hlen hper hr hout hN]
  show execSlice _ x old = _
  rw [execSlice, if_neg (by
    show ¬(rs.length < 1 ∨ 3 < rs.length)
    omega)]
  simp only
  rw [shortSlice_axes_zero pool past hoff, ← List.map_take, List.map_map]
  rfl

include hrank hst hlen hper hr hout hN in
theorem zero_one_iff (hoff : e.rangesOffset = 0) {t : Triple} (hone : rs = [t])
    (hcells : 0 < (cells rs).prod) :
    Slices (src.shape.drop (front src rs)) rs (stridedSlice pool past (some src) e out) ↔
      t.b = 0 ∧ (t.s = 1 ∨ count t = 1) := by
  have hle := prod_cells_le hr
  have hrun := exec_zero_eq pool past hrank hst hlen hper hr hout hN hoff (by rw [hone]; rfl)
  subst hone
  have hshape : src.shape.length = 1 := by
    cases hper with
    | inl h => exact h.symm
    | inr h => exact absurd hoff h.2.1
  obtain ⟨d, hd⟩ := List.length_eq_one_iff.mp hshape
  have hdrop : src.shape.drop (front src [t]) = [d] := by
    rw [front, hshape, hd]
    rfl
  rw [hdrop] at hN hle ⊢
  have hcount : (cells [t]).prod = count t := Nat.mul_one _
  rw [hcount] at hrun hcells hle
  have haxes : ((sliceDims src.shape).take [t].length).map (fun d => Axis.mk 0 0 1 d) =
      [Axis.mk 0 0 1 1] := by
    rw [hd, sliceDims_one]
    rfl
  rw [haxes] at hrun
  -- the device copies the cells from the first one on
  have haddr : ∀ i < count t, sliceAddress [Axis.mk 0 0 1 1] i = .ok i := fun i hi =>
    sliceAddress_one 1 (by omega)
  have hr0 : InRange t d := by
    rw [hdrop] at hr
    cases hr with
    | cons ht _ => exact ht
  have hsel : ∀ i < count t, sel t i < [d].prod := fun i hi => by
    rw [List.prod_cons, List.prod_nil, Nat.mul_one]
    exact hr0.sel_lt hi
  have hcopy := fun old => copy_iff (y := tempGet old (count t * 2)) hN (a := fun i => i) haddr hsel
    (by rw [length_tempGet_of_lt _ (by omega)])
  have hslices : Slices [d] [t] (stridedSlice pool past (some src) e out) ↔
      ∀ i < count t, i = sel t i := by
    constructor
    · intro h
      apply (hcopy fun _ => 0).mp
      intro x hx
      have hend := h x hx fun _ => 0
      rw [hrun] at hend
      obtain ⟨msg, hmsg⟩ | ⟨y, hy, hval⟩ := hend
      · cases copy_onlyFaults (sliceAddress_onlyFaults _) _ hmsg
      · exact ⟨y, hy, ((copied_single d t x y).mp hval).2⟩
    · intro h x hx old
      obtain ⟨y, hy, hval⟩ := (hcopy old).mpr h x hx
      rw [hrun]
      refine Or.inr ⟨y, hy, (copied_single d t x y).mpr ⟨?_, hval⟩⟩
      rw [length_of_fillLoop hy, length_tempGet_of_lt _ (by omega)]
  rw [hslices]
  exact first_cells_iff hr0 hcells

include hrank hst hlen hper hr hout hN in
theorem zero_many (hoff : e.rangesOffset = 0) (hmany : 2 ≤ rs.length)
    (hcells : 0 < (cells rs).prod) :
    ¬Slices (src.shape.drop (front src rs)) rs (stridedSlice pool past (some src) e out) := by
  intro h
  have hlen' := hper.length_le
  have hdd : 2 ≤ ((sliceDims src.shape).take rs.length).length := by
    rw [List.length_take, length_sliceDims]
    omega
  have hrun := h (Tensor.indicator _ hN 0) (count_indicator hN 0) fun _ => 0
  rw [exec_zero_eq pool past hrank hst hlen hper hr hout hN hoff (by omega)] at hrun
  obtain ⟨msg, hmsg⟩ | ⟨y, hy, -⟩ := hrun
  · cases copy_onlyFaults (fun i => by
      rw [sliceAddress_many hdd]
      intro s hs
      cases hs
      rfl) _ hmsg
  · obtain ⟨-, hread⟩ := copy_inv hy
    obtain ⟨a, ha, -⟩ := hread 0 hcells
    rw [sliceAddress_many hdd] at ha
    cases ha

end Short

section Long

def whole (d : ℕ) : Triple := ⟨0, d, 1⟩

theorem count_whole (d : ℕ) : count (whole d) = d := by
  show ((d : ℤ).toNat - 0 + 1 - 1) / 1 = d
  rw [Nat.div_one]
  omega

theorem cells_whole (ds : List ℕ) : cells (ds.map whole) = ds := by
  rw [cells, List.map_map]
  refine (List.map_congr_left fun d _ => count_whole d).trans ?_
  rw [List.map_id']

theorem whole_inRange {ds : List ℕ} (hlt : ∀ d ∈ ds, d < 2 ^ 31) :
    List.Forall₂ InRange (ds.map whole) ds := by
  induction ds with
  | nil => exact List.Forall₂.nil
  | cons d ds ih =>
    have hd := hlt d List.mem_cons_self
    have hwhole : InRange (whole d) d :=
      ⟨le_rfl, Int.natCast_nonneg d, Int.one_pos, Int.natCast_nonneg d, le_rfl, by
        show (0 : ℤ) < 2 ^ 31
        decide, by
        show (d : ℤ) < 2 ^ 31
        omega, by
        show (1 : ℤ) < 2 ^ 31
        decide⟩
    exact List.Forall₂.cons hwhole (ih fun e he => hlt e (List.mem_cons_of_mem d he))

theorem place_whole {ds cs : List ℕ} (hcs : Within cs ds) : place (ds.map whole) cs = cs := by
  induction hcs with
  | nil => rfl
  | @cons c d cs ds _ _ ih =>
    show sel (whole d) c :: place (ds.map whole) cs = c :: cs
    rw [ih]
    show (0 + c * 1) :: cs = c :: cs
    rw [Nat.zero_add, Nat.mul_one]

theorem InRange.sel_all {t : Triple} {d c : ℕ} (h : InRange t d) (hall : count t = d)
    (hc : c < count t) : sel t c = c := by
  have hs := h.s_pos
  have hlast := h.sel_lt (Nat.sub_one_lt (Nat.ne_of_gt (Nat.zero_lt_of_lt hc)))
  unfold sel at hlast ⊢
  by_cases hone : d = 1
  · obtain rfl : c = 0 := by omega
    omega
  · have hmul : count t - 1 ≤ (count t - 1) * t.s.toNat :=
      Nat.le_mul_of_pos_right _ (by omega)
    have hb : t.b.toNat = 0 := by omega
    have hstride : t.s.toNat = 1 := by
      by_contra hne
      have htwo : (count t - 1) * 2 ≤ (count t - 1) * t.s.toNat :=
        Nat.mul_le_mul_left _ (by omega)
      omega
    rw [hb, hstride, Nat.zero_add, Nat.mul_one]

theorem place_of_all {ts : List Triple} {ds cs : List ℕ} (h : List.Forall₂ InRange ts ds)
    (hall : (cells ts).prod = ds.prod) (hcs : Within cs (cells ts)) :
    cells ts = ds ∧ place ts cs = cs := by
  induction h generalizing cs with
  | nil =>
    cases hcs
    exact ⟨rfl, rfl⟩
  | @cons t d ts ds ht hr ih =>
    cases hcs with
    | @cons c _ cs _ hc hcs =>
      have hcs' : Within cs (cells ts) := hcs
      have hpos := hcs'.prod_pos
      rw [cells_cons, List.prod_cons, List.prod_cons] at hall
      have hle := ht.count_le
      have hle' := prod_cells_le hr
      -- both factors are at most those of the shape, so both are equal
      have hcount : count t = d := by
        by_contra hne
        have : count t * (cells ts).prod < d * ds.prod :=
          Nat.mul_lt_mul_of_lt_of_le (by omega) hle' (by omega)
        omega
      rw [hcount] at hall
      obtain ⟨hcells, hplace⟩ := ih (Nat.eq_of_mul_eq_mul_left (by omega) hall) hcs'
      constructor
      · rw [cells_cons, hcount, hcells]
      · show sel t c :: place ts cs = c :: cs
        rw [hplace, ht.sel_all hcount hc]

theorem longSlice_cases (src : OutputDef) (e : ExtraStridedSlice) (n : ℕ) :
    (∃ msg, longSlice pool past src e n = .error (.reject msg)) ∨
      ∃ args, longSlice pool past src e n = .ok args ∧ args.nOut = n := by
  unfold longSlice foldSlice
  split
  · exact Or.inl ⟨_, rfl⟩
  split
  · exact Or.inl ⟨_, rfl⟩
  simp only
  split
  · exact Or.inl ⟨_, rfl⟩
  split
  · exact Or.inl ⟨_, rfl⟩
  split
  · exact Or.inl ⟨_, rfl⟩
  split
  · exact Or.inl ⟨_, rfl⟩
  · exact Or.inr ⟨_, rfl, rfl⟩

theorem longSlice_eq (n : ℕ) (hshape : src.shape.map u32 = src.shape)
    (hrk : e.rank = rs.length) :
    (∃ msg, longSlice pool past src e n = .error (.reject msg)) ∨
      longSlice pool past src e n = foldSlice ((List.range rs.length).map
        (longTriple pool past e src.shape)) (src.shape.drop (front src rs)) n := by
  unfold longSlice
  by_cases hbig : 5 < src.rank ∨ 5 < e.rank
  · rw [if_pos hbig]
    exact Or.inl ⟨_, rfl⟩
  rw [if_neg hbig]
  by_cases hfew : e.rank = 0 ∨ src.rank < e.rank
  · rw [if_pos hfew]
    exact Or.inl ⟨_, rfl⟩
  rw [if_neg hfew, hshape]
  obtain ⟨j, hj, -⟩ := dropOnes_eq_drop e.rank src.shape
  simp only [hj]
  by_cases hlen : (src.shape.drop j).length ≠ e.rank
  · rw [if_pos hlen]
    exact Or.inl ⟨_, rfl⟩
  rw [if_neg hlen]
  have hlen' : src.shape.length - j = rs.length := by
    rw [← List.length_drop]
    omega
  have hfront : front src rs = j := by
    rw [front]
    omega
  rw [hfront, List.length_drop, hlen']
  exact Or.inr rfl

variable (hrank : ¬src.rank ≤ 3) (hst : Stored pool e rs) (hper : PerAxis src e rs)
  (hr : List.Forall₂ InRange rs (src.shape.drop (front src rs)))
  (hout : elemsOf out = (cells rs).prod) (hN : 2 * (src.shape.drop (front src rs)).prod < 2 ^ 32)

include hrank hst hper hr hout hN in
theorem long_slices :
    Slices (src.shape.drop (front src rs)) rs (stridedSlice pool past (some src) e out) := by
  have hle := prod_cells_le hr
  have hn : u32 (elemsOf out) = (cells rs).prod := by rw [hout, u32_of_lt (by omega)]
  have hlong := opStridedSlice_long pool past e out hrank
  rw [hn] at hlong
  by_cases hzero : (cells rs).prod = 0
  · obtain ⟨msg, hmsg⟩ | ⟨args, hargs, hnOut⟩ :=
      longSlice_cases pool past src e (cells rs).prod
    · exact slices_of_reject pool past (hlong.trans hmsg)
    · rw [slices_of_emit pool past (hlong.trans hargs)]
      exact execSlice_zero (hnOut.trans hzero) hzero
  have hprod := prod_drop_ones hper.ones
  have hshape : src.shape.map u32 = src.shape := map_u32_eq (by omega) (by omega)
  obtain ⟨msg, hmsg⟩ | heq := longSlice_eq pool past (cells rs).prod hshape hst.rank
  · exact slices_of_reject pool past (hlong.trans hmsg)
  rw [heq] at hlong
  by_cases hoff : e.rangesOffset = 0
  · -- no ranges: whole axes, and as many cells as there are
    have hfront : front src rs = 0 := by
      cases hper with
      | inl h => rw [front, h, Nat.sub_self]
      | inr h => exact absurd hoff h.2.1
    rw [hfront, List.drop_zero] at hlong hr hN ⊢
    have hlen : rs.length = src.shape.length := by
      have := hper.length_drop
      rw [hfront, List.drop_zero] at this
      exact this.symm
    have hsmall : ∀ d ∈ src.shape, d < 2 ^ 31 := fun d hd => by
      have := le_prod_of_mem (by omega) hd
      omega
    have htriples : (List.range rs.length).map (longTriple pool past e src.shape) =
        src.shape.map whole := by
      rw [hlen]
      apply List.ext_getElem
      · rw [List.length_map, List.length_map, List.length_range]
      · intro i hi hi'
        rw [List.length_map] at hi'
        have hhave : ¬(haveRanges pool e ∧ i < e.rank) := fun h =>
          (of_decide_eq_true h.1).1 hoff
        rw [List.getElem_map, List.getElem_range, List.getElem_map, longTriple, if_neg hhave,
          asI32, List.getD_eq_getElem _ _ hi', if_pos (hsmall _ (List.getElem_mem hi'))]
        rfl
    rw [htriples] at hlong
    have hwhole := whole_inRange hsmall
    obtain ⟨msg, hmsg⟩ | ⟨args, hargs, hall, hslices⟩ := foldSlice_spec hwhole hN (cells rs).prod
    · exact slices_of_reject pool past (hlong.trans hmsg)
    · rw [slices_of_emit pool past (hlong.trans hargs)]
      rw [cells_whole] at hall hslices
      have hprods : (cells rs).prod = src.shape.prod := hall (by omega)
      intro x hx old
      obtain ⟨msg, hmsg⟩ | ⟨y, hy, hylen, hval⟩ := hslices hprods x hx old
      · exact Or.inl ⟨msg, hmsg⟩
      · rw [cells_whole] at hylen hval
        refine Or.inr ⟨y, hy, by rw [hylen, hprods], fun cs hcs => ?_⟩
        obtain ⟨hcells, hplace⟩ := place_of_all hr hprods hcs
        rw [hcells] at hcs ⊢
        rw [hval cs hcs, place_whole hcs, hplace]
  · have htriples : (List.range rs.length).map (longTriple pool past e src.shape) = rs := by
      refine (List.map_congr_left fun ax hax => ?_).trans (hst.map_triples past)
      have hhave : haveRanges pool e ∧ ax < e.rank := by
        rw [hst.have_ranges, hst.rank]
        exact ⟨decide_eq_true hoff, List.mem_range.mp hax⟩
      exact if_pos hhave
    rw [htriples] at hlong
    obtain ⟨msg, hmsg⟩ | ⟨args, hargs, -, hslices⟩ := foldSlice_spec hr hN (cells rs).prod
    · exact slices_of_reject pool past (hlong.trans hmsg)
    · rw [slices_of_emit pool past (hlong.trans hargs)]
      exact hslices rfl

end Long

end Whole

/-! ### The second row of a matrix -/

/-- One other constant, then the ranges of the second row of a matrix with three columns. -/
def rowPool : List ℤ := [0, 1, 2, 1, 0, 3, 1]

def secondRow : List Triple := [⟨1, 2, 1⟩, ⟨0, 3, 1⟩]

theorem secondRow_stored : Stored rowPool ⟨2, 4⟩ secondRow where
  rank := rfl
  room := by decide
  entry := by decide

theorem secondRow_inRange {rows : ℕ} (h : 2 ≤ rows) :
    List.Forall₂ InRange secondRow [rows, 3] := by
  apply List.Forall₂.cons
  · exact ⟨by decide, by decide, by decide, by
      show (1 : ℤ) ≤ rows
      omega, by
      show (2 : ℤ) ≤ rows
      omega, by decide, by decide, by decide⟩
  · apply List.Forall₂.cons _ List.Forall₂.nil
    exact ⟨by decide, by decide, by decide, by decide, by decide, by decide, by decide, by decide⟩

end Gehtp.Analysis.SliceStrides
