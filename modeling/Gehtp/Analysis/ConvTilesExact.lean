import Gehtp.Model.ConvTiling

/-!
# The tiles of a convolution

If the rounded up sizes stay below `2 ^ 32` and the windows below `2 ^ 63`, the tiles divide the output
exactly and the window of a tile holds every element of the input that its outputs read. Otherwise a
loop does not end or takes places twice, or a window is not defined.
-/

set_option autoImplicit false

namespace Gehtp.Analysis.ConvTilesExact

open Lib Lib.Strips Model.ConvTiling

/-- The tile has the output element in row `y`, column `x` and channel `c`. -/
def Contains (t : ConvTileDesc) (y x c : ℕ) : Prop :=
  Has (t.co0, t.coN) c ∧ Has (t.outY0, t.outH) y ∧ Has (t.outX0, t.outW) x

instance (t : ConvTileDesc) (y x c : ℕ) : Decidable (Contains t y x c) :=
  inferInstanceAs (Decidable (_ ∧ _))

/-- Every element of the output is in one tile, and the window of a tile holds the elements of the
input that its outputs read: for an output at `y` and a place `i` of the kernel the one at
`y * stride + i - padding`, if the input has it. -/
structure Tiled (a : ConvArgs) (tiles : List ConvTileDesc) : Prop where
  exact : ∀ y x c, (tiles.countP fun t => Contains t y x c) =
    if y < a.outH.toNat ∧ x < a.outW.toNat ∧ c < a.cout.toNat then 1 else 0
  window : ∀ t ∈ tiles, ∀ y x c, Contains t y x c → ∀ i < a.kh.toNat, ∀ j < a.kw.toNat,
    ∀ r < a.inH.toNat, ∀ q < a.inW.toNat,
      r + a.phBegin.toNat = y * strideH a + i → q + a.pwBegin.toNat = x * strideW a + j →
        Has (t.inY0, t.inH) r ∧ Has (t.inX0, t.inW) q

/-- The loop over a range of `o` places in strips of `t` does not wrap around. -/
def NoWrap (o t : ℕ) : Prop := (o + t - 1) / t * t < 2 ^ 32

/-- The windows of the strips of a range are computed without an overflow: the start of the last strip
times the stride, the strip that is the longest, and the end of the last window. -/
def NoOverflow (o t s p k : ℕ) : Prop :=
  (o - 1) / t * t * s < 2 ^ 63 ∧ (min t o - 1) * s < 2 ^ 63 ∧ (o - 1) * s + k < 2 ^ 63 + p

/-- What the sizes have to fulfil. -/
def Fits (a : ConvArgs) : Prop :=
  a.outH.toNat = 0 ∨ a.outW.toNat = 0 ∨ a.cout.toNat = 0 ∨
    NoWrap a.outH.toNat (tileRows a) ∧ NoWrap a.outW.toNat (tileCols a) ∧
      NoWrap a.cout.toNat (coStep a) ∧
      NoOverflow a.outH.toNat (tileRows a) (strideH a) a.phBegin.toNat a.kh.toNat ∧
      NoOverflow a.outW.toNat (tileCols a) (strideW a) a.pwBegin.toNat a.kw.toNat

instance (a : ConvArgs) : Decidable (Fits a) := by
  unfold Fits NoWrap NoOverflow
  infer_instance

/-! ### Windows -/

section Halo

variable {start size s p k inD : ℕ}

/-- The window of a strip is defined if its products and its end are 64-bit numbers. -/
def Defined (start size s p k : ℕ) : Prop :=
  start * s < 2 ^ 63 ∧ (size - 1) * s < 2 ^ 63 ∧ start * s + (size - 1) * s + k < 2 ^ 63 + p

def window (start size s p k inD : ℕ) : ℕ × ℕ :=
  let r0 : ℤ := max ((start * s : ℤ) - p) 0
  let r1 : ℤ := min ((start * s : ℤ) - p + ((size - 1 : ℕ) : ℤ) * s + k) inD
  (toU32 r0, toU32 (max (r1 - r0) 0))

theorem i64_eq_ok {z z' : ℤ} : i64 z = .ok z' ↔ (-2 ^ 63 ≤ z ∧ z < 2 ^ 63) ∧ z' = z := by
  unfold i64
  split_ifs with h
  · constructor
    · intro heq
      cases heq
      exact ⟨h, rfl⟩
    · rintro ⟨-, rfl⟩
      rfl
  · constructor
    · intro heq
      cases heq
    · rintro ⟨h', -⟩
      exact absurd h' h

theorem halo_eq_ok (hp : p < 2 ^ 32) {r : ℕ × ℕ} :
    halo start size s p k inD = .ok r ↔ Defined start size s p k ∧ r = window start size s p k inD := by
  have hspan := Int.natCast_mul (size - 1) s
  have hfirst := Int.natCast_mul start s
  unfold halo Defined
  simp only [bind_eq_ok, i64_eq_ok]
  constructor
  · rintro ⟨_, ⟨h1, rfl⟩, _, ⟨h2, rfl⟩, _, ⟨h3, rfl⟩, _, ⟨h4, rfl⟩, _, ⟨h5, rfl⟩, h⟩
    cases h
    exact ⟨⟨by omega, by omega, by omega⟩, rfl⟩
  · rintro ⟨⟨h1, h2, h3⟩, rfl⟩
    exact ⟨_, ⟨by omega, rfl⟩, _, ⟨by omega, rfl⟩, _, ⟨by omega, rfl⟩, _, ⟨by omega, rfl⟩, _,
      ⟨by omega, rfl⟩, rfl⟩

theorem window_has (hin : inD < 2 ^ 32) {y i r : ℕ} (hy : Has (start, size) y) (hi : i < k)
    (hr : r < inD) (hread : r + p = y * s + i) : Has (window start size s p k inD) r := by
  obtain ⟨hlow, hhigh⟩ := hy
  have hstart : start * s ≤ y * s := Nat.mul_le_mul_right s hlow
  have hend : y * s ≤ start * s + (size - 1) * s := by
    rw [← Nat.add_mul]
    exact Nat.mul_le_mul_right s (by omega)
  have hspan := Int.natCast_mul (size - 1) s
  have hfirst := Int.natCast_mul start s
  simp only [Has, window, toU32, ← hspan, ← hfirst]
  omega

end Halo

/-! ### Conditions on the strips -/

section Strips

variable {o t s p k : ℕ}

theorem defined_iff (ho : 0 < o) (ht : 0 < t) :
    (∀ r ∈ regular t o, Defined r.1 r.2 s p k) ↔ NoOverflow o t s p k := by
  constructor
  · intro hall
    have hfirst := hall _ (first_mem ho ht)
    have hlast := hall _ (last_mem ho ht)
    have hle : (o - 1) / t * t ≤ o - 1 := Nat.div_mul_le_self _ _
    refine ⟨hlast.1, hfirst.2.1, ?_⟩
    have hend := hlast.2.2
    rw [← Nat.add_mul] at hend
    rw [show o - 1 = (o - 1) / t * t + (o - (o - 1) / t * t - 1) by omega]
    exact hend
  · rintro ⟨hstart, hsize, hend⟩ r hr
    obtain ⟨hle, hmin, hpos, hin⟩ := of_mem_regular ht hr
    have hmul : r.1 * s ≤ (o - 1) / t * t * s := Nat.mul_le_mul_right s hle
    have hmul' : (r.2 - 1) * s ≤ (min t o - 1) * s := Nat.mul_le_mul_right s (by omega)
    have hmul'' : (r.1 + (r.2 - 1)) * s ≤ (o - 1) * s := Nat.mul_le_mul_right s (by omega)
    rw [Nat.add_mul] at hmul''
    exact ⟨by omega, by omega, by omega⟩

end Strips

/-! ### All tiles -/

section Tiles

variable {a : ConvArgs} {tiles : List ConvTileDesc} {fuel : ℕ}

/-- The tile of three strips, if its windows are defined. -/
def tileAt (a : ConvArgs) (c y x : ℕ × ℕ) : ConvTileDesc :=
  let rows := window y.1 y.2 (strideH a) a.phBegin.toNat a.kh.toNat a.inH.toNat
  let cols := window x.1 x.2 (strideW a) a.pwBegin.toNat a.kw.toNat a.inW.toNat
  { outY0 := y.1, outX0 := x.1, outH := y.2, outW := x.2
    inY0 := rows.1, inX0 := cols.1, inH := rows.2, inW := cols.2
    kh := a.kh.toNat, kw := a.kw.toNat, sh := strideH a, sw := strideW a
    phBegin := a.phBegin.toNat, pwBegin := a.pwBegin.toNat
    ci := a.cin.toNat, co := a.cout.toNat, co0 := c.1, coN := c.2, blockRef := 0 }

/-- The windows of the rows and of the columns of a tile are defined. -/
def DefinedAt (a : ConvArgs) (y x : ℕ × ℕ) : Prop :=
  Defined y.1 y.2 (strideH a) a.phBegin.toNat a.kh.toNat ∧
    Defined x.1 x.2 (strideW a) a.pwBegin.toNat a.kw.toNat

/-- The tiles of strips of channels, of rows and of columns. -/
def tilesOf (a : ConvArgs) (cs ys xs : List (ℕ × ℕ)) : List ConvTileDesc :=
  cs.flatMap fun c => ys.flatMap fun y => xs.flatMap fun x => [tileAt a c y x]

theorem tileOf_eq_ok {c y x : ℕ × ℕ} {t : ConvTileDesc} :
    tileOf a c y x = .ok t ↔ DefinedAt a y x ∧ t = tileAt a c y x := by
  unfold tileOf
  simp only [bind_eq_ok, halo_eq_ok (UInt32.toNat_lt _)]
  constructor
  · rintro ⟨_, ⟨hrows, rfl⟩, _, ⟨hcols, rfl⟩, h⟩
    cases h
    exact ⟨⟨hrows, hcols⟩, rfl⟩
  · rintro ⟨⟨hrows, hcols⟩, rfl⟩
    exact ⟨_, ⟨hrows, rfl⟩, _, ⟨hcols, rfl⟩, rfl⟩

theorem contains_tileAt {c y x : ℕ × ℕ} {y' x' c' : ℕ} :
    Contains (tileAt a c y x) y' x' c' ↔ Has c c' ∧ Has y y' ∧ Has x x' := Iff.rfl

theorem countP_tilesOf (cs ys xs : List (ℕ × ℕ)) (y x c : ℕ) :
    ((tilesOf a cs ys xs).countP fun t => Contains t y x c) =
      hits cs c * (hits ys y * hits xs x) := by
  have hone (c' y' x' : ℕ × ℕ) : ([tileAt a c' y' x'].countP fun t => Contains t y x c) =
      if decide (Has x' x) = true then if Has c' c ∧ Has y' y then 1 else 0 else 0 := by
    rw [List.countP_singleton]
    simp only [decide_eq_true_iff, contains_tileAt]
    split_ifs <;> tauto
  have hrow (c' y' : ℕ × ℕ) :
      ((xs.flatMap fun x' => [tileAt a c' y' x']).countP fun t => Contains t y x c) =
        if decide (Has y' y) = true then if Has c' c then hits xs x else 0 else 0 := by
    rw [countP_flatMap fun x' _ => hone c' y' x', ← hits]
    simp only [decide_eq_true_iff]
    split_ifs <;> simp_all
  have hchannel (c' : ℕ × ℕ) :
      ((ys.flatMap fun y' => xs.flatMap fun x' => [tileAt a c' y' x']).countP
        fun t => Contains t y x c) =
        if decide (Has c' c) = true then hits ys y * hits xs x else 0 := by
    rw [countP_flatMap fun y' _ => hrow c' y', ← hits]
    simp only [decide_eq_true_iff]
    split_ifs
    · rfl
    · rw [Nat.mul_zero]
  rw [tilesOf, countP_flatMap fun c' _ => hchannel c', ← hits]

theorem mem_tilesOf {cs ys xs : List (ℕ × ℕ)} {t : ConvTileDesc} :
    t ∈ tilesOf a cs ys xs ↔ ∃ c ∈ cs, ∃ y ∈ ys, ∃ x ∈ xs, t = tileAt a c y x := by
  simp only [tilesOf, List.mem_flatMap, List.mem_singleton]

/-- The strips of columns that a loop of this fuel goes through. -/
def columnStrips (a : ConvArgs) (fuel : ℕ) : Option (List (ℕ × ℕ)) :=
  strips W (tileCols a) a.outW.toNat fuel 0

def rowStrips (a : ConvArgs) (fuel : ℕ) : Option (List (ℕ × ℕ)) :=
  strips W (tileRows a) a.outH.toNat fuel 0

def channelStrips (a : ConvArgs) (fuel : ℕ) : Option (List (ℕ × ℕ)) :=
  strips W (coStep a) a.cout.toNat fuel 0

/-- The loop over the columns returns for a strip of rows. -/
def RowReturns (a : ConvArgs) (fuel : ℕ) (y : ℕ × ℕ) : Prop :=
  ∃ xs, columnStrips a fuel = some xs ∧ ∀ x ∈ xs, DefinedAt a y x

/-- The loop over the rows returns. -/
def ChannelReturns (a : ConvArgs) (fuel : ℕ) : Prop :=
  ∃ ys, rowStrips a fuel = some ys ∧ ∀ y ∈ ys, RowReturns a fuel y

theorem columnLoop_eq_ok {c y : ℕ × ℕ} {out : List ConvTileDesc} :
    columnLoop a fuel c y = .ok out ↔ RowReturns a fuel y ∧
      out = ((columnStrips a fuel).getD []).flatMap fun x => [tileAt a c y x] := by
  have hbody (x : ℕ × ℕ) (ts : List ConvTileDesc) :
      (tileOf a c y x).map ([·]) = .ok ts ↔ DefinedAt a y x ∧ ts = [tileAt a c y x] := by
    rw [map_eq_ok]
    constructor
    · rintro ⟨t, ht, rfl⟩
      obtain ⟨hdef, rfl⟩ := tileOf_eq_ok.mp ht
      exact ⟨hdef, rfl⟩
    · rintro ⟨hdef, rfl⟩
      exact ⟨_, tileOf_eq_ok.mpr ⟨hdef, rfl⟩, rfl⟩
  rw [columnLoop, forStrips_eq_ok_of hbody]
  constructor
  · rintro ⟨xs, hxs, hall, rfl⟩
    have hxs' : columnStrips a fuel = some xs := hxs
    exact ⟨⟨xs, hxs', hall⟩, by rw [hxs']; rfl⟩
  · rintro ⟨⟨xs, hxs, hall⟩, rfl⟩
    exact ⟨xs, hxs, hall, by rw [hxs]; rfl⟩

theorem rowLoop_eq_ok {c : ℕ × ℕ} {out : List ConvTileDesc} :
    rowLoop a fuel c = .ok out ↔ ChannelReturns a fuel ∧
      out = ((rowStrips a fuel).getD []).flatMap fun y =>
        ((columnStrips a fuel).getD []).flatMap fun x => [tileAt a c y x] := by
  rw [rowLoop, forStrips_eq_ok_of fun y out => columnLoop_eq_ok]
  constructor
  · rintro ⟨ys, hys, hall, rfl⟩
    have hys' : rowStrips a fuel = some ys := hys
    exact ⟨⟨ys, hys', hall⟩, by rw [hys']; rfl⟩
  · rintro ⟨⟨ys, hys, hall⟩, rfl⟩
    exact ⟨ys, hys, hall, by rw [hys]; rfl⟩

theorem computeConvTiles_eq_ok (hH : 0 < a.outH.toNat) (hW : 0 < a.outW.toNat) :
    computeConvTiles a fuel = .ok tiles ↔ ∃ cs, channelStrips a fuel = some cs ∧
      (∀ c ∈ cs, ChannelReturns a fuel) ∧
      tiles = tilesOf a cs ((rowStrips a fuel).getD []) ((columnStrips a fuel).getD []) := by
  rw [computeConvTiles, if_neg (by omega), forStrips_eq_ok_of fun c out => rowLoop_eq_ok]
  rfl

end Tiles

/-! ### When the tiles are right -/

section Main

variable {a : ConvArgs}

theorem tileRows_pos (hH : 0 < a.outH.toNat) : 0 < tileRows a := by
  unfold tileRows
  split_ifs <;> omega

theorem tileCols_pos (hW : 0 < a.outW.toNat) : 0 < tileCols a := by
  unfold tileCols
  split_ifs <;> omega

theorem coStep_pos (hc : 0 < a.cout.toNat) : 0 < coStep a := by
  unfold coStep
  split_ifs <;> omega

theorem tileRows_lt : tileRows a < 2 ^ 32 := by
  have h1 := a.tileH.toNat_lt
  have h2 := a.outH.toNat_lt
  unfold tileRows
  split_ifs <;> omega

theorem tileCols_lt : tileCols a < 2 ^ 32 := by
  have h1 := a.tileW.toNat_lt
  have h2 := a.outW.toNat_lt
  unfold tileCols
  split_ifs <;> omega

theorem coStep_lt : coStep a < 2 ^ 32 := by
  have h1 := a.coPerTile.toNat_lt
  have h2 := a.cout.toNat_lt
  unfold coStep
  split_ifs <;> omega

theorem regular_of_hits {t o fuel : ℕ} (ht : 0 < t) (htw : t < 2 ^ 32) (how : o < 2 ^ 32)
    {l : List (ℕ × ℕ)} (hl : strips W t o fuel 0 = some l) (hits_le : ∀ x < o, hits l x ≤ 1) :
    NoWrap o t ∧ l = regular t o := by
  have hfit : NoWrap o t := by
    by_contra hwrap
    obtain ⟨x, hx, htwo⟩ := exists_two_hits ht htw how (Nat.le_of_not_lt hwrap) hl
    have := hits_le x hx
    omega
  exact ⟨hfit, eq_regular ht hfit hl⟩

theorem fits_of_tiled {fuel : ℕ} {tiles : List ConvTileDesc}
    (hrun : computeConvTiles a fuel = .ok tiles) (htiled : Tiled a tiles) : Fits a := by
  by_cases hH : a.outH.toNat = 0
  · exact .inl hH
  by_cases hW : a.outW.toNat = 0
  · exact .inr (.inl hW)
  by_cases hC : a.cout.toNat = 0
  · exact .inr (.inr (.inl hC))
  have hH' : 0 < a.outH.toNat := Nat.pos_of_ne_zero hH
  have hW' : 0 < a.outW.toNat := Nat.pos_of_ne_zero hW
  have hC' : 0 < a.cout.toNat := Nat.pos_of_ne_zero hC
  obtain ⟨cs, hcs, hall, rfl⟩ := (computeConvTiles_eq_ok hH' hW').mp hrun
  -- every element of the output is in one strip of each axis
  have hone (y x c : ℕ) (hy : y < a.outH.toNat) (hx : x < a.outW.toNat) (hc : c < a.cout.toNat) :
      hits cs c = 1 ∧ hits ((rowStrips a fuel).getD []) y = 1 ∧
        hits ((columnStrips a fuel).getD []) x = 1 := by
    have hcount := htiled.exact y x c
    rw [countP_tilesOf, if_pos ⟨hy, hx, hc⟩] at hcount
    have hspace := Nat.eq_one_of_mul_eq_one_left hcount
    exact ⟨Nat.eq_one_of_mul_eq_one_right hcount, Nat.eq_one_of_mul_eq_one_right hspace,
      Nat.eq_one_of_mul_eq_one_left hspace⟩
  obtain ⟨hfitC, hregC⟩ := regular_of_hits (coStep_pos hC') coStep_lt a.cout.toNat_lt hcs
    fun c hc => (hone 0 0 c hH' hW' hc).1.le
  rw [hregC] at hall
  obtain ⟨ys, hys, hrows⟩ := hall _ (first_mem hC' (coStep_pos hC'))
  obtain ⟨hfitH, hregH⟩ := regular_of_hits (tileRows_pos hH') tileRows_lt a.outH.toNat_lt hys
    fun y hy => by
      have h := (hone y 0 0 hy hW' hC').2.1.le
      rw [hys] at h
      exact h
  rw [hregH] at hrows
  have hfirstH := first_mem hH' (tileRows_pos hH')
  obtain ⟨xs, hxs, hcols⟩ := hrows _ hfirstH
  obtain ⟨hfitW, hregW⟩ := regular_of_hits (tileCols_pos hW') tileCols_lt a.outW.toNat_lt hxs
    fun x hx => by
      have h := (hone 0 x 0 hH' hx hC').2.2.le
      rw [hxs] at h
      exact h
  rw [hregW] at hxs hcols
  have hoverH := (defined_iff hH' (tileRows_pos hH')).mp fun y hy => by
    obtain ⟨xs', hxs', hdef⟩ := hrows y hy
    rw [hxs] at hxs'
    cases hxs'
    exact (hdef _ (first_mem hW' (tileCols_pos hW'))).1
  have hoverW := (defined_iff hW' (tileCols_pos hW')).mp fun x hx => (hcols x hx).2
  exact .inr (.inr (.inr ⟨hfitH, hfitW, hfitC, hoverH, hoverW⟩))

theorem window_of_tile {c y x : ℕ × ℕ} {y' x' c' i j r q : ℕ}
    (hcont : Contains (tileAt a c y x) y' x' c') (hi : i < a.kh.toNat) (hj : j < a.kw.toNat)
    (hr : r < a.inH.toNat) (hq : q < a.inW.toNat)
    (hrow : r + a.phBegin.toNat = y' * strideH a + i)
    (hcol : q + a.pwBegin.toNat = x' * strideW a + j) :
    Has ((tileAt a c y x).inY0, (tileAt a c y x).inH) r ∧
      Has ((tileAt a c y x).inX0, (tileAt a c y x).inW) q :=
  ⟨window_has a.inH.toNat_lt hcont.2.1 hi hr hrow, window_has a.inW.toNat_lt hcont.2.2 hj hq hcol⟩

theorem tiled_regular (hH : 0 < a.outH.toNat) (hW : 0 < a.outW.toNat) (hC : 0 < a.cout.toNat) :
    Tiled a (tilesOf a (regular (coStep a) a.cout.toNat) (regular (tileRows a) a.outH.toNat)
      (regular (tileCols a) a.outW.toNat)) := by
  constructor
  · intro y x c
    rw [countP_tilesOf, hits_regular (coStep_pos hC), hits_regular (tileRows_pos hH),
      hits_regular (tileCols_pos hW)]
    split_ifs <;> tauto
  · intro t ht y x c hcont i hi j hj r hr q hq hrow hcol
    obtain ⟨c', -, y', -, x', -, rfl⟩ := mem_tilesOf.mp ht
    exact window_of_tile hcont hi hj hr hq hrow hcol

theorem tiled_nil (h : a.outH.toNat = 0 ∨ a.outW.toNat = 0 ∨ a.cout.toNat = 0) : Tiled a [] := by
  constructor
  · intro y x c
    rw [if_neg (by omega)]
    rfl
  · intro t ht
    cases ht

theorem tiled_of_fits (hfits : Fits a) :
    ∃ fuel tiles, computeConvTiles a fuel = .ok tiles ∧ Tiled a tiles := by
  by_cases hnone : a.outH.toNat = 0 ∨ a.outW.toNat = 0
  · refine ⟨0, [], ?_, tiled_nil (by tauto)⟩
    rw [computeConvTiles, if_pos hnone]
  have hH : 0 < a.outH.toNat := by omega
  have hW : 0 < a.outW.toNat := by omega
  by_cases hC : a.cout.toNat = 0
  · refine ⟨1, [], ?_, tiled_nil (.inr (.inr hC))⟩
    rw [computeConvTiles, if_neg hnone, forStrips, if_neg (by omega)]
  obtain h | h | h | ⟨hfitH, hfitW, hfitC, hoverH, hoverW⟩ := hfits
  · omega
  · omega
  · omega
  have hC' : 0 < a.cout.toNat := Nat.pos_of_ne_zero hC
  -- enough rounds for the longest of the three loops
  obtain ⟨nC, hnC⟩ : ∃ n, (a.cout.toNat + coStep a - 1) / coStep a = n := ⟨_, rfl⟩
  obtain ⟨nH, hnH⟩ : ∃ n, (a.outH.toNat + tileRows a - 1) / tileRows a = n := ⟨_, rfl⟩
  obtain ⟨nW, hnW⟩ : ∃ n, (a.outW.toNat + tileCols a - 1) / tileCols a = n := ⟨_, rfl⟩
  have hcs : channelStrips a (nC + nH + nW + 1) = some (regular (coStep a) a.cout.toNat) :=
    strips_of_fits (coStep_pos hC') hfitC (by omega)
  have hys : rowStrips a (nC + nH + nW + 1) = some (regular (tileRows a) a.outH.toNat) :=
    strips_of_fits (tileRows_pos hH) hfitH (by omega)
  have hxs : columnStrips a (nC + nH + nW + 1) = some (regular (tileCols a) a.outW.toNat) :=
    strips_of_fits (tileCols_pos hW) hfitW (by omega)
  have hdefH := (defined_iff hH (tileRows_pos hH)).mpr hoverH
  have hdefW := (defined_iff hW (tileCols_pos hW)).mpr hoverW
  refine ⟨_, _, (computeConvTiles_eq_ok hH hW).mpr ⟨_, hcs, ?_, rfl⟩, ?_⟩
  · intro c hc
    refine ⟨_, hys, fun y hy => ⟨_, hxs, fun x hx => ⟨hdefH y hy, hdefW x hx⟩⟩⟩
  · rw [hys, hxs]
    exact tiled_regular hH hW hC'

/-- The tiles divide the output exactly and their windows hold what their outputs read, exactly if the
sizes fit. -/
theorem conv_tiles_iff (a : ConvArgs) :
    (∃ fuel tiles, computeConvTiles a fuel = .ok tiles ∧ Tiled a tiles) ↔ Fits a := by
  constructor
  · rintro ⟨fuel, tiles, hrun, htiled⟩
    exact fits_of_tiled hrun htiled
  · exact tiled_of_fits

/-- A row of `2 ^ 32 - 1` outputs in two tiles: after the second one the counter is 0 again. -/
def endlessRow : ConvArgs where
  inH := 1
  inW := 4294967295
  cin := 1
  outH := 1
  outW := 4294967295
  cout := 1
  kh := 1
  kw := 1
  sh := 1
  sw := 1
  phBegin := 0
  pwBegin := 0
  tileH := 1
  tileW := 2147483648
  coPerTile := 0

/-- The loop over the columns does not end with the second tile. -/
theorem endlessRow_not_tiled :
    ¬ ∀ a : ConvArgs, ∃ fuel tiles, computeConvTiles a fuel = .ok tiles ∧ Tiled a tiles := by
  intro hall
  obtain ⟨fuel, tiles, hrun, htiled⟩ := hall endlessRow
  have hfits := fits_of_tiled hrun htiled
  exact absurd hfits (by decide)

end Main

end Gehtp.Analysis.ConvTilesExact
