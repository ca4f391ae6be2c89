import Gehtp.Model.Tiler

/-!
# When the tiles of the tilers are right

The tiles of an output lie one after the other along each cut axis. They are not empty, lie in the
output and divide it exactly if the rounded up pieces in front of the last one leave something of the
axis for it.
-/

set_option autoImplicit false

namespace Gehtp.Analysis.TilerGrids

open Lib.Cuts Model.OpGraph Model.Tiler

section Definitions

/-- The size of the tile `k` along an axis. -/
def dimAt (tiles : List TileInfo) (k a : ℕ) : ℕ :=
  (tiles[k]?.map fun t => t.shape.dims.getD a 0).getD 0

/-- Where the tile `k` starts along an axis: behind the tiles above it or to its left. The rows of the
grid cut the axis `ra`, its columns the next one. -/
def start (tiles : List TileInfo) (ra cols k a : ℕ) : ℕ :=
  if a = ra then offset (fun i => dimAt tiles (i * cols + k % cols) a) (k / cols)
  else if a = ra + 1 then offset (fun j => dimAt tiles (k / cols * cols + j) a) (k % cols)
  else 0

/-- The tiles are not empty and lie in the output, and every place of it is in exactly one of them. -/
structure Tiled (shape : List ℕ) (ra cols : ℕ) (tiles : List TileInfo) : Prop where
  rank : ∀ t ∈ tiles, t.shape.rank = shape.length
  nonempty : ∀ k < tiles.length, ∀ a < shape.length, 0 < dimAt tiles k a
  inside : ∀ k < tiles.length, ∀ a < shape.length,
    start tiles ra cols k a + dimAt tiles k a ≤ shape.getD a 0
  exact : ∀ x : ℕ → ℕ, (∀ a < shape.length, x a < shape.getD a 0) →
    ∃! k, k < tiles.length ∧ ∀ a < shape.length,
      start tiles ra cols k a ≤ x a ∧ x a < start tiles ra cols k a + dimAt tiles k a

/-- What is subtracted for the last piece of an axis is no more than its size. -/
def NoUnderflow (size count : ℕ) : Prop := (count - 1) * pieceSize size count % W ≤ size

/-- An axis that is not cut. -/
def Whole (d : ℕ) : Prop := 0 < d ∧ d < W

/-- An axis that is cut into `count` pieces: the sum for the rounding up stays below `2 ^ 32`, and the
pieces in front of the last one are together smaller than the axis. -/
def AxisFits (d count : ℕ) : Prop :=
  d + count - 1 < W ∧ (count - 1) * ((d + count - 1) / count) < d

instance (d : ℕ) : Decidable (Whole d) := inferInstanceAs (Decidable (_ ∧ _))

instance (d count : ℕ) : Decidable (AxisFits d count) := inferInstanceAs (Decidable (_ ∧ _))

variable (od : Option OutputDef) (config : TilingConfig)

/-- The dimensions of the output; without a definition those that are assumed. -/
def convShape : List ℕ := (od.map OutputDef.shape).getD [1, 224, 224, 32]

def matMulShape : List ℕ := (od.map OutputDef.shape).getD [1, 1]

/-- No size of a tile is computed by a subtraction that goes below zero, and the tiles divide the
output. -/
def ConvRight : Prop :=
  NoUnderflow (convDims od).2.1 (convRows config) ∧
    NoUnderflow (convDims od).2.2.1 (convCols config) ∧
    Tiled (convShape od) 1 (convCols config) (convTilerGenerateTiles od config)

def MatMulRight : Prop :=
  NoUnderflow (matMulDims od).1 (matMulRows config) ∧
    NoUnderflow (matMulDims od).2 (matMulCols config) ∧
    Tiled (matMulShape od) 0 (matMulCols config) (matMulTilerGenerateTiles od config)

/-- The output has four axes, and the counts suit its height and its width. -/
def ConvFits : Prop :=
  ∃ n h w c, convShape od = [n, h, w, c] ∧ Whole n ∧ AxisFits h (convRows config) ∧
    AxisFits w (convCols config) ∧ Whole c

/-- The output has two axes that the counts suit. -/
def MatMulFits : Prop :=
  ∃ m n, matMulShape od = [m, n] ∧ AxisFits m (matMulRows config) ∧ AxisFits n (matMulCols config)

end Definitions

/-! ### One axis -/

section Axis

variable {s count i : ℕ}

theorem pieceSize_eq (h : s + count - 1 < W) : pieceSize s count = (s + count - 1) / count := by
  rw [pieceSize, Nat.mod_eq_of_lt h]

theorem pieceSize_of_wrap (hs : s < W) (hc : count < W) (h : W ≤ s + count - 1) :
    pieceSize s count = 0 := by
  have hmod : (s + count - 1) % W = s + count - 1 - W := by
    rw [Nat.mod_eq_sub_mod h, Nat.mod_eq_of_lt (by omega)]
  rw [pieceSize, hmod]
  exact Nat.div_eq_of_lt (by omega)

theorem front_lt (h : s + count - 1 < W) : (count - 1) * pieceSize s count < W := by
  have hle : pieceSize s count * count ≤ s + count - 1 := by
    rw [pieceSize_eq h]
    exact Nat.div_mul_le_self _ _
  have hmul : (count - 1) * pieceSize s count ≤ count * pieceSize s count :=
    Nat.mul_le_mul_right _ (Nat.sub_le count 1)
  rw [Nat.mul_comm count] at hmul
  omega

theorem extent_of_lt (hi : i < count - 1) : extent s count i = pieceSize s count := by
  rw [extent, if_neg (by omega)]

theorem extent_last (hs : s < W) (h : s + count - 1 < W)
    (hle : (count - 1) * pieceSize s count ≤ s) :
    extent s count (count - 1) = s - (count - 1) * pieceSize s count := by
  rw [extent, if_pos rfl, Nat.mod_eq_of_lt (front_lt h),
    show W + s - (count - 1) * pieceSize s count = s - (count - 1) * pieceSize s count + W by omega,
    Nat.add_mod_right, Nat.mod_eq_of_lt (by omega)]

theorem offset_last (hc : 0 < count) :
    offset (extent s count) count =
      (count - 1) * pieceSize s count + extent s count (count - 1) := by
  obtain ⟨c, rfl⟩ : ∃ c, count = c + 1 := ⟨count - 1, by omega⟩
  rw [offset, Nat.add_sub_cancel]
  congr 1
  exact offset_const fun i hi => extent_of_lt (by omega)

theorem AxisFits.pieces (hc : 0 < count) (h : AxisFits s count) :
    NoUnderflow s count ∧ (∀ i < count, 0 < extent s count i) ∧
      offset (extent s count) count = s := by
  obtain ⟨hsum, hfront⟩ := h
  rw [← pieceSize_eq hsum] at hfront
  have hs : s < W := by omega
  have hlast := extent_last hs hsum hfront.le
  have hpos : 0 < pieceSize s count := by
    rw [pieceSize_eq hsum]
    exact Nat.div_pos (by omega) hc
  refine ⟨?_, fun i hi => ?_, ?_⟩
  · rw [NoUnderflow, Nat.mod_eq_of_lt (front_lt hsum)]
    exact hfront.le
  · by_cases heq : i = count - 1
    · rw [heq, hlast]
      omega
    · rw [extent_of_lt (by omega)]
      exact hpos
  · rw [offset_last hc, hlast]
    omega

theorem axisFits_of_pieces {d : ℕ} (hc : 0 < count) (hcW : count < W)
    (hunder : NoUnderflow (d % W) count) (hpos : ∀ i < count, 0 < extent (d % W) count i)
    (hcover : d ≤ offset (extent (d % W) count) count) : AxisFits d count := by
  have hs : d % W < W := Nat.mod_lt d (by decide)
  have hsum : d % W + count - 1 < W := by
    by_contra hwrap
    -- then the first piece is not the last one, and it is empty
    have hfirst := hpos 0 hc
    rw [extent_of_lt (by omega), pieceSize_of_wrap hs hcW (Nat.le_of_not_lt hwrap)] at hfirst
    exact absurd hfirst (Nat.lt_irrefl 0)
  rw [NoUnderflow, Nat.mod_eq_of_lt (front_lt hsum)] at hunder
  have hlast := extent_last hs hsum hunder
  have hlastPos := hpos (count - 1) (by omega)
  rw [offset_last hc, hlast] at hcover
  have hd : d % W = d := Nat.mod_eq_of_lt (by omega)
  rw [hd] at hsum hlast hlastPos
  refine ⟨hsum, ?_⟩
  rw [← pieceSize_eq hsum]
  omega

end Axis

/-! ### The grid -/

section Grid

variable {F B : List ℕ} {H D ht wt : ℕ}

/-- The tiles of an output with the cut axes `H` and `D`, from its dimensions modulo `2 ^ 32`. -/
def tilesOf (F B : List ℕ) (H D ht wt : ℕ) : List TileInfo :=
  tileGrid (F.map (· % W)) (B.map (· % W)) (H % W) (D % W) ht wt

theorem getD_cell (x y a : ℕ) (ha : a < (F ++ H :: D :: B).length) :
    (F.map (· % W) ++ x :: y :: B.map (· % W)).getD a 0 =
      if a = F.length then x else if a = F.length + 1 then y
      else (F ++ H :: D :: B).getD a 0 % W := by
  by_cases hfront : a < F.length
  · rw [if_neg (by omega), if_neg (by omega), List.getD_append _ _ _ _ (by rwa [List.length_map]),
      List.getD_append _ _ _ _ hfront, List.getD_eq_getElem _ _ (by rwa [List.length_map]),
      List.getD_eq_getElem _ _ hfront, List.getElem_map]
  · obtain ⟨b, rfl⟩ : ∃ b, a = F.length + b := ⟨a - F.length, by omega⟩
    rw [List.getD_append_right _ _ _ _ (by rw [List.length_map]; omega),
      List.getD_append_right _ _ _ _ (by omega), List.length_map, Nat.add_sub_cancel_left]
    cases b with
    | zero =>
      rw [if_pos (Nat.add_zero _)]
      rfl
    | succ b =>
      rw [if_neg (by omega)]
      cases b with
      | zero =>
        rw [if_pos rfl]
        rfl
      | succ b =>
        have hb : b < B.length := by
          rw [List.length_append, List.length_cons, List.length_cons] at ha
          omega
        rw [if_neg (by omega)]
        show (B.map (· % W)).getD b 0 = B.getD b 0 % W
        rw [List.getD_eq_getElem _ _ (by rwa [List.length_map]), List.getD_eq_getElem _ _ hb,
          List.getElem_map]

theorem dimAt_cell {i j a : ℕ} (hi : i < ht) (hj : j < wt) (ha : a < (F ++ H :: D :: B).length) :
    dimAt (tilesOf F B H D ht wt) (i * wt + j) a =
      if a = F.length then extent (H % W) ht i else if a = F.length + 1 then extent (D % W) wt j
      else (F ++ H :: D :: B).getD a 0 % W := by
  rw [dimAt, tilesOf, tileGrid, grid_getElem? hi hj, Option.map_some, Option.getD_some]
  exact getD_cell _ _ a ha

theorem start_cell {i j a : ℕ} (hi : i < ht) (hj : j < wt) (ha : a < (F ++ H :: D :: B).length) :
    start (tilesOf F B H D ht wt) F.length wt (i * wt + j) a =
      if a = F.length then offset (extent (H % W) ht) i
      else if a = F.length + 1 then offset (extent (D % W) wt) j else 0 := by
  obtain ⟨hrow, hcol⟩ := cell_row_col (i := i) hj
  rw [start, hrow, hcol]
  split_ifs with hfront hback
  · refine offset_congr fun i' hi' => ?_
    rw [dimAt_cell (hi'.trans hi) hj ha, if_pos hfront]
  · refine offset_congr fun j' hj' => ?_
    rw [dimAt_cell hi (hj'.trans hj) ha, if_neg hfront, if_pos hback]
  · rfl

theorem length_tilesOf : (tilesOf F B H D ht wt).length = ht * wt := length_grid

theorem exists_cell {k : ℕ} (hk : k < (tilesOf F B H D ht wt).length) :
    ∃ i < ht, ∃ j < wt, k = i * wt + j := by
  rw [length_tilesOf] at hk
  obtain ⟨hi, hj, heq⟩ := row_col hk
  exact ⟨_, hi, _, hj, heq⟩

theorem cell_lt_length {i j : ℕ} (hi : i < ht) (hj : j < wt) :
    i * wt + j < (tilesOf F B H D ht wt).length := by
  rw [length_tilesOf]
  exact cell_lt hi hj

theorem getD_rows : (F ++ H :: D :: B).getD F.length 0 = H := by
  rw [List.getD_append_right _ _ _ _ (Nat.le_refl _), Nat.sub_self]
  rfl

theorem getD_cols : (F ++ H :: D :: B).getD (F.length + 1) 0 = D := by
  rw [List.getD_append_right _ _ _ _ (Nat.le_add_right _ 1), Nat.add_sub_cancel_left]
  rfl

theorem rows_lt : F.length < (F ++ H :: D :: B).length := by
  rw [List.length_append, List.length_cons]
  omega

theorem cols_lt : F.length + 1 < (F ++ H :: D :: B).length := by
  rw [List.length_append, List.length_cons, List.length_cons]
  omega

/-- The uncut axes of the output. -/
def WholeOthers (F B : List ℕ) (H D : ℕ) : Prop :=
  ∀ a < (F ++ H :: D :: B).length, a ≠ F.length → a ≠ F.length + 1 →
    Whole ((F ++ H :: D :: B).getD a 0)

theorem tiled_of_fits (hht : 0 < ht) (hwt : 0 < wt) (hrows : AxisFits H ht)
    (hcols : AxisFits D wt) (hothers : WholeOthers F B H D) :
    Tiled (F ++ H :: D :: B) F.length wt (tilesOf F B H D ht wt) := by
  obtain ⟨-, hposH, hsumH⟩ := hrows.pieces hht
  obtain ⟨-, hposD, hsumD⟩ := hcols.pieces hwt
  have hH : H % W = H := Nat.mod_eq_of_lt (by have := hrows.1; omega)
  have hD : D % W = D := Nat.mod_eq_of_lt (by have := hcols.1; omega)
  constructor
  · intro t ht
    obtain ⟨i, -, j, -, rfl⟩ := mem_grid.mp ht
    simp only [List.length_map, List.length_append, List.length_cons]
    omega
  · intro k hk a ha
    obtain ⟨i, hi, j, hj, rfl⟩ := exists_cell hk
    rw [dimAt_cell hi hj ha, hH, hD]
    split_ifs with hfront hback
    · exact hposH i hi
    · exact hposD j hj
    · have hwhole := hothers a ha hfront hback
      rw [Nat.mod_eq_of_lt hwhole.2]
      exact hwhole.1
  · intro k hk a ha
    obtain ⟨i, hi, j, hj, rfl⟩ := exists_cell hk
    rw [dimAt_cell hi hj ha, start_cell hi hj ha, hH, hD]
    split_ifs with hfront hback
    · rw [hfront, getD_rows]
      exact (end_le hi).trans hsumH.le
    · rw [hback, getD_cols]
      exact (end_le hj).trans hsumD.le
    · rw [Nat.zero_add]
      exact Nat.mod_le _ _
  · intro x hx
    have hxH := hx F.length rows_lt
    have hxD := hx (F.length + 1) cols_lt
    rw [getD_rows, ← hsumH] at hxH
    rw [getD_cols, ← hsumD] at hxD
    obtain ⟨i, hi, hini⟩ := exists_piece hxH
    obtain ⟨j, hj, hinj⟩ := exists_piece hxD
    refine ⟨i * wt + j, ⟨cell_lt_length hi hj, fun a ha => ?_⟩, ?_⟩
    · rw [dimAt_cell hi hj ha, start_cell hi hj ha, hH, hD]
      split_ifs with hfront hback
      · rw [hfront]
        exact hini
      · rw [hback]
        exact hinj
      · rw [Nat.zero_add, Nat.mod_eq_of_lt (hothers a ha hfront hback).2]
        exact ⟨Nat.zero_le _, hx a ha⟩
    · rintro k ⟨hk, hin⟩
      obtain ⟨i', hi', j', hj', rfl⟩ := exists_cell hk
      have hrow := hin F.length rows_lt
      have hcol := hin (F.length + 1) cols_lt
      rw [dimAt_cell hi' hj' rows_lt, start_cell hi' hj' rows_lt, if_pos rfl, if_pos rfl, hH]
        at hrow
      rw [dimAt_cell hi' hj' cols_lt, start_cell hi' hj' cols_lt, if_neg (by omega), if_pos rfl,
        if_neg (by omega), if_pos rfl, hD] at hcol
      rw [piece_unique hrow hini, piece_unique hcol hinj]

theorem fits_of_tiled (hht : 0 < ht) (hhtW : ht < W) (hwt : 0 < wt) (hwtW : wt < W)
    (hunderH : NoUnderflow (H % W) ht) (hunderD : NoUnderflow (D % W) wt)
    (h : Tiled (F ++ H :: D :: B) F.length wt (tilesOf F B H D ht wt)) :
    AxisFits H ht ∧ AxisFits D wt ∧ WholeOthers F B H D := by
  have hdim (a : ℕ) (ha : a < (F ++ H :: D :: B).length) :
      0 < (F ++ H :: D :: B).getD a 0 := by
    have hfirst : 0 < (tilesOf F B H D ht wt).length := by
      rw [length_tilesOf]
      exact Nat.mul_pos hht hwt
    have hpos := h.nonempty 0 hfirst a ha
    have hin := h.inside 0 hfirst a ha
    omega
  -- the last place of an axis is in a tile
  have hlast (a : ℕ) (ha : a < (F ++ H :: D :: B).length) : ∃ i < ht, ∃ j < wt,
      (F ++ H :: D :: B).getD a 0 - 1 < start (tilesOf F B H D ht wt) F.length wt (i * wt + j) a +
        dimAt (tilesOf F B H D ht wt) (i * wt + j) a := by
    obtain ⟨k, ⟨hk, hin⟩, -⟩ := h.exact
      (fun b => if b = a then (F ++ H :: D :: B).getD a 0 - 1 else 0) fun b hb => by
        have hposb := hdim b hb
        split_ifs with hba
        · rw [← hba]
          omega
        · exact hposb
    obtain ⟨i, hi, j, hj, rfl⟩ := exists_cell hk
    have hend := (hin a ha).2
    rw [if_pos rfl] at hend
    exact ⟨i, hi, j, hj, hend⟩
  refine ⟨axisFits_of_pieces hht hhtW hunderH (fun i hi => ?_) ?_,
    axisFits_of_pieces hwt hwtW hunderD (fun j hj => ?_) ?_, fun a ha hfront hback => ?_⟩
  · have hpos := h.nonempty _ (cell_lt_length hi hwt) F.length rows_lt
    rwa [dimAt_cell hi hwt rows_lt, if_pos rfl] at hpos
  · obtain ⟨i, hi, j, hj, hend⟩ := hlast F.length rows_lt
    rw [dimAt_cell hi hj rows_lt, start_cell hi hj rows_lt, if_pos rfl, if_pos rfl, getD_rows]
      at hend
    have hle := end_le (e := extent (H % W) ht) hi
    omega
  · have hpos := h.nonempty _ (cell_lt_length hht hj) (F.length + 1) cols_lt
    rwa [dimAt_cell hht hj cols_lt, if_neg (by omega), if_pos rfl] at hpos
  · obtain ⟨i, hi, j, hj, hend⟩ := hlast (F.length + 1) cols_lt
    rw [dimAt_cell hi hj cols_lt, start_cell hi hj cols_lt, if_neg (by omega), if_pos rfl,
      if_neg (by omega), if_pos rfl, getD_cols] at hend
    have hle := end_le (e := extent (D % W) wt) hj
    omega
  · obtain ⟨i, hi, j, hj, hend⟩ := hlast a ha
    rw [dimAt_cell hi hj ha, start_cell hi hj ha, if_neg hfront, if_neg hback, if_neg hfront,
      if_neg hback, Nat.zero_add] at hend
    have hmod := Nat.mod_lt ((F ++ H :: D :: B).getD a 0) (show 0 < W by decide)
    exact ⟨hdim a ha, by omega⟩

theorem tilesOf_right_iff (hht : 0 < ht) (hhtW : ht < W) (hwt : 0 < wt) (hwtW : wt < W) :
    NoUnderflow (H % W) ht ∧ NoUnderflow (D % W) wt ∧
        Tiled (F ++ H :: D :: B) F.length wt (tilesOf F B H D ht wt) ↔
      AxisFits H ht ∧ AxisFits D wt ∧ WholeOthers F B H D := by
  constructor
  · rintro ⟨hunderH, hunderD, htiled⟩
    exact fits_of_tiled hht hhtW hwt hwtW hunderH hunderD htiled
  · rintro ⟨hrows, hcols, hothers⟩
    have hH : H % W = H := Nat.mod_eq_of_lt (by have := hrows.1; omega)
    have hD : D % W = D := Nat.mod_eq_of_lt (by have := hcols.1; omega)
    rw [hH, hD]
    exact ⟨(hrows.pieces hht).1, (hcols.pieces hwt).1,
      tiled_of_fits hht hwt hrows hcols hothers⟩

end Grid

/-! ### The two tilers -/

section Main

variable {od : Option OutputDef} {config : TilingConfig}

theorem countOr_bounds (x : UInt32) {d : ℕ} (hd : 0 < d ∧ d < W) :
    0 < countOr x d ∧ countOr x d < W := by
  unfold countOr
  split_ifs with hx
  · exact ⟨hx, x.toNat_lt⟩
  · exact hd

theorem Tiled.length_eq {shape front back : List ℕ} {ra rows cols ht wt : ℕ} (hht : 0 < ht)
    (hwt : 0 < wt) (h : Tiled shape ra wt (tileGrid front back rows cols ht wt)) :
    shape.length = front.length + back.length + 2 :=
  (h.rank _ (mem_grid.mpr ⟨0, hht, 0, hwt, rfl⟩)).symm

theorem dim_of_shape {od : OutputDef} {l : List ℕ} (h : od.shape = l) {i d : ℕ}
    (hd : l[i]? = some d) : dim32 od i = d % W := by
  have hlt : i < od.rank := by
    have hlen := (List.getElem?_eq_some_iff.mp hd).1
    rw [← h, OutputDef.shape, List.length_take] at hlen
    omega
  rw [← h, OutputDef.shape, List.getElem?_take_of_lt hlt] at hd
  rw [dim32, List.getD_eq_getElem?_getD, hd, Option.getD_some]

theorem rank_of_shape (od : OutputDef) : od.shape.length ≤ od.rank := by
  rw [OutputDef.shape, List.length_take]
  exact Nat.min_le_left _ _

theorem convDims_eq {n h w c : ℕ} (hshape : convShape od = [n, h, w, c]) :
    convDims od = (n % W, h % W, w % W, c % W) := by
  cases od with
  | none =>
    cases hshape
    rfl
  | some od =>
    have hlist : od.shape = [n, h, w, c] := hshape
    have hrank : 4 ≤ od.rank := by
      have hle := rank_of_shape od
      rwa [hlist] at hle
    show (if 4 ≤ od.rank then _ else _) = _
    rw [if_pos hrank, dim_of_shape hlist (i := 0) rfl, dim_of_shape hlist (i := 1) rfl,
      dim_of_shape hlist (i := 2) rfl, dim_of_shape hlist (i := 3) rfl]

theorem matMulDims_eq {m n : ℕ} (hshape : matMulShape od = [m, n]) :
    matMulDims od = (m % W, n % W) := by
  cases od with
  | none =>
    cases hshape
    rfl
  | some od =>
    have hlist : od.shape = [m, n] := hshape
    have hrank : 2 ≤ od.rank := by
      have hle := rank_of_shape od
      rwa [hlist] at hle
    show (if 2 ≤ od.rank then _ else _) = _
    rw [if_pos hrank, dim_of_shape hlist (i := 0) rfl, dim_of_shape hlist (i := 1) rfl]

theorem convRows_bounds (config : TilingConfig) : 0 < convRows config ∧ convRows config < W :=
  countOr_bounds _ (by decide)

theorem convCols_bounds (config : TilingConfig) : 0 < convCols config ∧ convCols config < W :=
  countOr_bounds _ (by decide)

theorem matMulRows_bounds (config : TilingConfig) : 0 < matMulRows config ∧ matMulRows config < W :=
  countOr_bounds _ (by decide)

theorem matMulCols_bounds (config : TilingConfig) : 0 < matMulCols config ∧ matMulCols config < W :=
  countOr_bounds _ (by decide)

theorem convRight_of_shape {n h w c : ℕ} (hshape : convShape od = [n, h, w, c]) :
    ConvRight od config ↔ Whole n ∧ AxisFits h (convRows config) ∧
      AxisFits w (convCols config) ∧ Whole c := by
  have hiff := tilesOf_right_iff (F := [n]) (B := [c]) (H := h) (D := w)
    (convRows_bounds config).1 (convRows_bounds config).2 (convCols_bounds config).1
    (convCols_bounds config).2
  have hothers : WholeOthers [n] [c] h w ↔ Whole n ∧ Whole c := by
    constructor
    · intro hall
      exact ⟨hall 0 (show 0 < 4 by decide) (show 0 ≠ 1 by decide) (show 0 ≠ 2 by decide),
        hall 3 (show 3 < 4 by decide) (show 3 ≠ 1 by decide) (show 3 ≠ 2 by decide)⟩
    · rintro ⟨hn, hc⟩ a ha hrow hcol
      have hcases : a = 0 ∨ a = 3 := by
        have ha' : a < 4 := ha
        have hrow' : a ≠ 1 := hrow
        have hcol' : a ≠ 2 := hcol
        omega
      obtain rfl | rfl := hcases
      · exact hn
      · exact hc
  rw [hothers] at hiff
  unfold ConvRight convTilerGenerateTiles
  rw [hshape, convDims_eq hshape]
  exact hiff.trans (by tauto)

theorem matMulRight_of_shape {m n : ℕ} (hshape : matMulShape od = [m, n]) :
    MatMulRight od config ↔ AxisFits m (matMulRows config) ∧ AxisFits n (matMulCols config) := by
  have hiff := tilesOf_right_iff (F := []) (B := []) (H := m) (D := n)
    (matMulRows_bounds config).1 (matMulRows_bounds config).2 (matMulCols_bounds config).1
    (matMulCols_bounds config).2
  have hothers : WholeOthers [] [] m n := by
    intro a ha hrow hcol
    have ha' : a < 2 := ha
    have hrow' : a ≠ 0 := hrow
    have hcol' : a ≠ 1 := hcol
    omega
  unfold MatMulRight matMulTilerGenerateTiles
  rw [hshape, matMulDims_eq hshape]
  exact hiff.trans (by tauto)

theorem conv_right_iff : ConvRight od config ↔ ConvFits od config := by
  constructor
  · intro hright
    have hlen : (convShape od).length = 4 :=
      hright.2.2.length_eq (convRows_bounds config).1 (convCols_bounds config).1
    obtain ⟨n, h, w, c, hshape⟩ := List.length_eq_four.mp hlen
    exact ⟨n, h, w, c, hshape, (convRight_of_shape hshape).mp hright⟩
  · rintro ⟨n, h, w, c, hshape, hfits⟩
    exact (convRight_of_shape hshape).mpr hfits

theorem matMul_right_iff : MatMulRight od config ↔ MatMulFits od config := by
  constructor
  · intro hright
    have hlen : (matMulShape od).length = 2 :=
      hright.2.2.length_eq (matMulRows_bounds config).1 (matMulCols_bounds config).1
    obtain ⟨m, n, hshape⟩ := List.length_eq_two.mp hlen
    exact ⟨m, n, hshape, (matMulRight_of_shape hshape).mp hright⟩
  · rintro ⟨m, n, hshape, hfits⟩
    exact (matMulRight_of_shape hshape).mpr hfits

/-- For every output and all counts: the tiles of each tiler are not empty, lie in the output, are
disjoint and cover it, and no size underflows, exactly if the output has the axes of the tiler and the
counts suit them. -/
theorem tilers_right_iff (od : Option OutputDef) (config : TilingConfig) :
    (ConvRight od config ↔ ConvFits od config) ∧ (MatMulRight od config ↔ MatMulFits od config) :=
  ⟨conv_right_iff, matMul_right_iff⟩

/-- An output of height 5 in four pieces: after three pieces of 2 nothing is left, and the last one
has the size `2 ^ 32 - 1`. -/
def heightFive : OutputDef := { OutputDef.five 1 5 8 16 0 with rank := 4 }

/-- So the pieces do not tile the output. -/
theorem heightFive_not_right : ¬ConvRight (some heightFive) ⟨1, 4⟩ := by
  intro hright
  have hfits := (convRight_of_shape (n := 1) (h := 5) (w := 8) (c := 16) rfl).mp hright
  exact absurd hfits.2.1 (by decide)

end Main

end Gehtp.Analysis.TilerGrids
