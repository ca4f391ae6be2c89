import Gehtp.Analysis.ConvTilesExact
import Gehtp.Model.TilingRule

/-!
# The tiles of a matrix product

The tile shape is the first one of a sequence that fits the budget or is no larger than the alignment,
so the search for it ends. Its tiles divide the output exactly if the rounded up sizes stay below
`2 ^ 32`, and the report that they fit is right if the working set of the largest one does or one of
them is seen not to.
-/

set_option autoImplicit false

namespace Gehtp.Analysis.MatmulTiles

open Lib Lib.Strips Model.TilingRule
open Analysis.ConvTilesExact (NoWrap)

section Definitions

/-- The working set of a tile, not taken modulo anything. -/
def workingSet (mt nt k wbits : ℕ) : ℕ := mt * k * 2 + nt * k * wbits / 8 + mt * nt * 2

/-- The tile has the output in row `m` and column `n`. -/
def Contains (t : OutputTile) (m n : ℕ) : Prop := (t.m0 ≤ m ∧ m < t.m1) ∧ t.n0 ≤ n ∧ n < t.n1

instance (t : OutputTile) (m n : ℕ) : Decidable (Contains t m n) :=
  inferInstanceAs (Decidable (_ ∧ _))

variable (s : OpShape) (b : TileBudget)

/-- The working set of a tile of `h` rows and `w` columns. -/
def wsOf (h w : ℕ) : ℕ := workingSet h w s.K.toNat s.weightBits.toNat

def seenWs (h w : ℕ) : ℕ := matmulWs h w s.K.toNat s.weightBits.toNat

/-- The tiles are not empty and every output is in one of them. If the budget is reported to fit, the
working set of each of them is in the budget. -/
structure Sound (p : TilingPlan) : Prop where
  nonempty : ∀ t ∈ p.tiles, t.m0 < t.m1 ∧ t.n0 < t.n1
  exact : ∀ m n, (p.tiles.countP fun t => Contains t m n) =
    if m < s.M.toNat ∧ n < s.N.toNat then 1 else 0
  fits : p.fitsBudget = true → ∀ t ∈ p.tiles, wsOf s (t.m1 - t.m0) (t.n1 - t.n0) ≤
    b.vtcmTileSize.toNat

/-- `v` is the first of `o`, `o - a`, `o - 2 * a`, ... that is not above `a` or that fits. -/
def FirstFit (a o : ℕ) (fit : ℕ → Prop) (v : ℕ) : Prop :=
  ∃ i, v = o - i * a ∧ (v ≤ a ∨ fit v) ∧ ∀ j < i, a < o - j * a ∧ ¬fit (o - j * a)

/-- The sizes of the strips of a range: the last one may be smaller than the others. -/
def sizes (t o : ℕ) : List ℕ := if o % t = 0 then [t] else [t, o % t]

/-- The tiles are `mt` rows high and `nt` columns wide, by the working set as the code sees it. -/
def ShapeOf (mt nt : ℕ) : Prop :=
  FirstFit (alignOf b) s.N.toNat (fun w => seenWs s s.M.toNat w ≤ b.vtcmTileSize.toNat) nt ∧
    FirstFit (alignOf b) s.M.toNat (fun h => seenWs s h nt ≤ b.vtcmTileSize.toNat) mt

/-- The largest tile fits, or the code sees one that does not. -/
def Honest (mt nt : ℕ) : Prop :=
  wsOf s mt nt ≤ b.vtcmTileSize.toNat ∨
    ∃ h ∈ sizes mt s.M.toNat, ∃ w ∈ sizes nt s.N.toNat, b.vtcmTileSize.toNat < seenWs s h w

/-- What the sizes and the budget have to fulfil: there is no output, or there are an inner dimension
and a budget, neither loop over the tiles wraps around, and the working sets do not hide that they are
too large. -/
def Fits : Prop :=
  s.M.toNat = 0 ∨ s.N.toNat = 0 ∨
    s.K.toNat ≠ 0 ∧ b.vtcmTileSize.toNat ≠ 0 ∧ ∃ mt nt, ShapeOf s b mt nt ∧
      NoWrap s.M.toNat mt ∧ NoWrap s.N.toNat nt ∧ Honest s b mt nt

end Definitions

/-! ### The tile shape -/

section Shrink

variable {a o v v' : ℕ} {fit : ℕ → Prop}

theorem exists_firstFit (fit : ℕ → Prop) (ha : 0 < a) (o : ℕ) : ∃ v, FirstFit a o fit v := by
  induction o using Nat.strong_induction_on with
  | _ o ih =>
    by_cases hstop : o ≤ a ∨ fit o
    · refine ⟨o, 0, by omega, hstop, fun j hj => absurd hj (Nat.not_lt_zero j)⟩
    · rw [not_or, Nat.not_le] at hstop
      obtain ⟨v, i, hv, hend, hbefore⟩ := ih (o - a) (by omega)
      have hstep (j : ℕ) : o - (j + 1) * a = o - a - j * a := by
        rw [Nat.succ_mul, Nat.add_comm, Nat.sub_sub]
      refine ⟨v, i + 1, by rw [hstep, hv], hend, fun j hj => ?_⟩
      cases j with
      | zero =>
        rw [Nat.zero_mul, Nat.sub_zero]
        exact hstop
      | succ j =>
        rw [hstep]
        exact hbefore j (by omega)

theorem FirstFit.unique (h : FirstFit a o fit v) (h' : FirstFit a o fit v') : v = v' := by
  obtain ⟨i, rfl, hend, hbefore⟩ := h
  obtain ⟨i', rfl, hend', hbefore'⟩ := h'
  have hnot (j : ℕ) (hj : o - j * a ≤ a ∨ fit (o - j * a))
      (hj' : a < o - j * a ∧ ¬fit (o - j * a)) : False := by
    cases hj with
    | inl hle => omega
    | inr hfit => exact hj'.2 hfit
  have hle : i ≤ i' := Nat.le_of_not_lt fun hlt => hnot i' hend' (hbefore i' hlt)
  have hge : i' ≤ i := Nat.le_of_not_lt fun hlt => hnot i hend (hbefore' i hlt)
  rw [Nat.le_antisymm hle hge]

theorem FirstFit.bounds (h : FirstFit a o fit v) (ho : 0 < o) : 0 < v ∧ v ≤ o := by
  obtain ⟨i, rfl, -, hbefore⟩ := h
  refine ⟨?_, Nat.sub_le _ _⟩
  cases i with
  | zero => omega
  | succ i =>
    have hlast := (hbefore i (Nat.lt_succ_self i)).1
    rw [Nat.succ_mul]
    omega

variable {budget fuel : ℕ} {ws : ℕ → ℕ}

theorem shrink_mono (h : shrink a budget ws fuel o = .ok v) (k : ℕ) :
    shrink a budget ws (k + fuel) o = .ok v := by
  induction fuel generalizing o with
  | zero => cases h
  | succ fuel ih =>
    rw [show k + (fuel + 1) = k + fuel + 1 by omega, shrink]
    rw [shrink] at h
    by_cases hcond : a < o ∧ budget < ws o
    · rw [if_pos hcond] at h ⊢
      exact ih h
    · rw [if_neg hcond] at h ⊢
      exact h

theorem shrink_of_firstFit (h : FirstFit a o (fun v => ws v ≤ budget) v) :
    ∃ fuel, shrink a budget ws fuel o = .ok v := by
  obtain ⟨i, rfl, hend, hbefore⟩ := h
  refine ⟨i + 1, ?_⟩
  induction i generalizing o with
  | zero =>
    rw [Nat.zero_mul, Nat.sub_zero] at hend ⊢
    rw [shrink, if_neg (by omega)]
  | succ i ih =>
    have hstep (j : ℕ) : o - (j + 1) * a = o - a - j * a := by
      rw [Nat.succ_mul, Nat.add_comm, Nat.sub_sub]
    have hfirst := hbefore 0 (Nat.succ_pos i)
    rw [Nat.zero_mul, Nat.sub_zero, Nat.not_le] at hfirst
    rw [shrink, if_pos hfirst, down, if_pos hfirst.1, hstep]
    rw [hstep] at hend
    apply ih hend
    intro j hj
    have hj' := hbefore (j + 1) (by omega)
    rwa [hstep] at hj'

theorem firstFit_of_shrink (ha : 0 < a) (h : shrink a budget ws fuel o = .ok v) :
    FirstFit a o (fun v => ws v ≤ budget) v := by
  obtain ⟨v', hv'⟩ := exists_firstFit (fun v => ws v ≤ budget) ha o
  obtain ⟨fuel', hrun⟩ := shrink_of_firstFit hv'
  have hmore := shrink_mono hrun fuel
  rw [Nat.add_comm, shrink_mono h fuel'] at hmore
  cases hmore
  exact hv'

end Shrink

/-! ### Sizes of strips -/

section Sizes

variable {t o : ℕ}

theorem mem_sizes (ht : 0 < t) (hto : t ≤ o) (v : ℕ) :
    v ∈ sizes t o ↔ ∃ r ∈ regular t o, r.2 = v := by
  have hdiv := Nat.div_add_mod o t
  have hmod := Nat.mod_lt o ht
  rw [Nat.mul_comm] at hdiv
  constructor
  · intro hv
    have hcases : v = t ∨ o % t ≠ 0 ∧ v = o % t := by
      unfold sizes at hv
      split_ifs at hv with hzero
      · exact .inl (List.mem_singleton.mp hv)
      · cases List.mem_cons.mp hv with
        | inl heq => exact .inl heq
        | inr hmem => exact .inr ⟨hzero, List.mem_singleton.mp hmem⟩
    cases hcases with
    | inl heq => exact ⟨_, first_mem (by omega) ht, by rw [heq]; exact Nat.min_eq_left hto⟩
    | inr hlast =>
      obtain ⟨hne, rfl⟩ := hlast
      refine ⟨(o / t * t, min t (o - o / t * t)), ?_, ?_⟩
      · refine List.mem_map.mpr ⟨o / t, List.mem_range.mpr ?_, rfl⟩
        by_contra hge
        have hmul := Nat.mul_le_mul_right t (Nat.le_of_not_lt hge)
        have hcover := le_count_mul (o := o) ht
        omega
      · show min t (o - o / t * t) = o % t
        omega
  · rintro ⟨r, hr, rfl⟩
    obtain ⟨i, hi, rfl⟩ := List.mem_map.mp hr
    have hlt : i * t < o := mul_lt_of_lt_count ht (List.mem_range.mp hi)
    show min t (o - i * t) ∈ sizes t o
    by_cases hfull : (i + 1) * t ≤ o
    · rw [Nat.succ_mul] at hfull
      rw [Nat.min_eq_left (by omega)]
      unfold sizes
      split_ifs <;> exact List.mem_cons_self
    · have hlast : o / t = i := by
        apply Nat.le_antisymm
        · rw [Nat.succ_mul] at hfull
          exact Nat.le_of_lt_succ ((Nat.div_lt_iff_lt_mul ht).mpr (by rw [Nat.succ_mul]; omega))
        · exact (Nat.le_div_iff_mul_le ht).mpr hlt.le
      rw [hlast] at hdiv
      have hne : o % t ≠ 0 := by omega
      have hsize : min t (o - i * t) = o % t := by omega
      rw [hsize, sizes, if_neg hne]
      exact List.mem_cons_of_mem _ (List.mem_singleton_self _)

theorem end_of_regular (ht : 0 < t) (hfit : NoWrap o t) {r : ℕ × ℕ} (hr : r ∈ regular t o) :
    min o ((r.1 + t) % W) = r.1 + r.2 := by
  obtain ⟨i, hi, rfl⟩ := List.mem_map.mp hr
  have hlt : i * t < o := mul_lt_of_lt_count ht (List.mem_range.mp hi)
  have hle : (i + 1) * t ≤ (o + t - 1) / t * t :=
    Nat.mul_le_mul_right t (List.mem_range.mp hi)
  rw [Nat.succ_mul] at hle
  have hmod : (i * t + t) % W = i * t + t := Nat.mod_eq_of_lt (hle.trans_lt hfit)
  show min o ((i * t + t) % W) = i * t + min t (o - i * t)
  rw [hmod]
  omega

theorem end_of_wrap (ht : 0 < t) (hto : t ≤ o) (ho : o < 2 ^ 32) (hwrap : ¬NoWrap o t) :
    min o (((o - 1) / t * t + t) % W) ≤ (o - 1) / t * t := by
  have hcount : (o + t - 1) / t = (o - 1) / t + 1 := by
    rw [show o + t - 1 = o - 1 + t by omega, Nat.add_div_right _ ht]
  have hle : (o - 1) / t * t ≤ o - 1 := Nat.div_mul_le_self _ _
  unfold NoWrap at hwrap
  rw [hcount, Nat.succ_mul, Nat.not_lt] at hwrap
  have hmod : ((o - 1) / t * t + t) % 2 ^ 32 = (o - 1) / t * t + t - 2 ^ 32 := by
    rw [Nat.mod_eq_sub_mod hwrap, Nat.mod_eq_of_lt (by omega)]
  rw [W, hmod]
  omega

end Sizes

/-! ### The grid -/

section Grid

variable {s : OpShape} {b : TileBudget} {fuel mt nt : ℕ} {tiles : List OutputTile}

/-- The tiles of strips of rows and of columns. -/
def tilesOf (s : OpShape) (mt nt : ℕ) (ms ns : List (ℕ × ℕ)) : List OutputTile :=
  ms.flatMap fun m => ns.flatMap fun n => [tileAt s mt nt m.1 n.1]

theorem mem_tilesOf {ms ns : List (ℕ × ℕ)} {t : OutputTile} :
    t ∈ tilesOf s mt nt ms ns ↔ ∃ m ∈ ms, ∃ n ∈ ns, t = tileAt s mt nt m.1 n.1 := by
  simp only [tilesOf, List.mem_flatMap, List.mem_singleton]

theorem tileGrid_of_strips {ms ns : List (ℕ × ℕ)} (hms : strips W mt s.M.toNat fuel 0 = some ms)
    (hns : strips W nt s.N.toNat fuel 0 = some ns) :
    tileGrid s fuel mt nt = .ok (tilesOf s mt nt ms ns) := by
  have hcell (m n : ℕ × ℕ) (out : List OutputTile) :
      (.ok [tileAt s mt nt m.1 n.1] : Checked String _) = .ok out ↔
        True ∧ out = [tileAt s mt nt m.1 n.1] := by
    constructor
    · intro h
      cases h
      exact ⟨trivial, rfl⟩
    · rintro ⟨-, rfl⟩
      rfl
  have hrow (m : ℕ × ℕ) (out : List OutputTile) :
      forStrips W nt s.N.toNat (fun n => .ok [tileAt s mt nt m.1 n.1]) fuel 0 =
        (.ok out : Checked String _) ↔
          True ∧ out = ns.flatMap fun n => [tileAt s mt nt m.1 n.1] := by
    rw [forStrips_eq_ok_of (hcell m), hns]
    constructor
    · rintro ⟨l, hl, -, rfl⟩
      cases hl
      exact ⟨trivial, rfl⟩
    · rintro ⟨-, rfl⟩
      exact ⟨ns, rfl, fun _ _ => trivial, rfl⟩
  rw [tileGrid, forStrips_eq_ok_of hrow]
  exact ⟨ms, hms, fun _ _ => trivial, rfl⟩

theorem strips_of_tileGrid (hM : 0 < s.M.toNat) (h : tileGrid s fuel mt nt = .ok tiles) :
    ∃ ms ns, strips W mt s.M.toNat fuel 0 = some ms ∧ strips W nt s.N.toNat fuel 0 = some ns ∧
      tiles = tilesOf s mt nt ms ns := by
  have hrun := h
  rw [tileGrid, forStrips_eq_ok] at h
  obtain ⟨ms, hms, hall, -⟩ := h
  have hfirst : ∃ m, m ∈ ms := by
    cases fuel with
    | zero => cases hms
    | succ fuel =>
      rw [strips, if_pos hM] at hms
      obtain ⟨l, -, rfl⟩ := Option.map_eq_some_iff.mp hms
      exact ⟨_, List.mem_cons_self⟩
  obtain ⟨m, hm⟩ := hfirst
  obtain ⟨ns, hns, -⟩ := forStrips_eq_ok.mp (hall m hm)
  rw [tileGrid_of_strips hms hns] at hrun
  cases hrun
  exact ⟨ms, ns, hms, hns, rfl⟩

theorem maxWs_le {budget : ℕ} : maxWs tiles ≤ budget ↔ ∀ t ∈ tiles, t.workingSet ≤ budget := by
  have hfold (w : ℕ) : tiles.foldl (fun w t => max w t.workingSet) w ≤ budget ↔
      w ≤ budget ∧ ∀ t ∈ tiles, t.workingSet ≤ budget := by
    induction tiles generalizing w with
    | nil => simp
    | cons t tiles ih =>
      rw [List.foldl_cons, ih, List.forall_mem_cons, max_le_iff]
      exact and_assoc
  rw [maxWs, hfold]
  exact and_iff_right (Nat.zero_le budget)

theorem tileAt_regular (hmt : 0 < mt) (hnt : 0 < nt) (hfitM : NoWrap s.M.toNat mt)
    (hfitN : NoWrap s.N.toNat nt) {m n : ℕ × ℕ} (hm : m ∈ regular mt s.M.toNat)
    (hn : n ∈ regular nt s.N.toNat) :
    tileAt s mt nt m.1 n.1 = ⟨m.1, m.1 + m.2, n.1, n.1 + n.2, 0, 0, seenWs s m.2 n.2⟩ := by
  have hM := s.M.toNat_lt
  have hN := s.N.toNat_lt
  obtain ⟨-, -, -, hinM⟩ := of_mem_regular hmt hm
  obtain ⟨-, -, -, hinN⟩ := of_mem_regular hnt hn
  have hsize (x y : ℕ) (hy : y < 2 ^ 32) : (W + (x + y) - x) % W = y := by
    rw [show W + (x + y) - x = W + y by omega, Nat.add_mod_left]
    exact Nat.mod_eq_of_lt hy
  unfold tileAt
  rw [end_of_regular hmt hfitM hm, end_of_regular hnt hfitN hn]
  dsimp only
  rw [hsize _ _ (by omega), hsize _ _ (by omega)]
  rfl

theorem countP_regular (hmt : 0 < mt) (hnt : 0 < nt) (hfitM : NoWrap s.M.toNat mt)
    (hfitN : NoWrap s.N.toNat nt) (x y : ℕ) :
    ((tilesOf s mt nt (regular mt s.M.toNat) (regular nt s.N.toNat)).countP
      fun t => Contains t x y) =
      hits (regular mt s.M.toNat) x * hits (regular nt s.N.toNat) y := by
  have hone (m n : ℕ × ℕ) (hm : m ∈ regular mt s.M.toNat) (hn : n ∈ regular nt s.N.toNat) :
      ([tileAt s mt nt m.1 n.1].countP fun t => Contains t x y) =
        if decide (Has n y) = true then if Has m x then 1 else 0 else 0 := by
    rw [List.countP_singleton, tileAt_regular hmt hnt hfitM hfitN hm hn]
    have hiff : Contains ⟨m.1, m.1 + m.2, n.1, n.1 + n.2, 0, 0, seenWs s m.2 n.2⟩ x y ↔
        Has m x ∧ Has n y := Iff.rfl
    simp only [decide_eq_true_iff, hiff]
    split_ifs <;> tauto
  have hrow (m : ℕ × ℕ) (hm : m ∈ regular mt s.M.toNat) :
      (((regular nt s.N.toNat).flatMap fun n => [tileAt s mt nt m.1 n.1]).countP
        fun t => Contains t x y) =
        if decide (Has m x) = true then hits (regular nt s.N.toNat) y else 0 := by
    rw [countP_flatMap fun n hn => hone m n hm hn, ← hits]
    simp only [decide_eq_true_iff]
    split_ifs
    · exact Nat.mul_one _
    · exact Nat.mul_zero _
  rw [tilesOf, countP_flatMap hrow, ← hits]

end Grid

/-! ### When the tiles are right -/

section Main

variable {s : OpShape} {b : TileBudget} {fuel mt nt : ℕ} {tiles : List OutputTile}

theorem alignOf_pos (b : TileBudget) : 0 < alignOf b := by
  unfold alignOf
  split_ifs with h
  · exact h
  · decide

theorem wsOf_mono {h h' w w' : ℕ} (hh : h ≤ h') (hw : w ≤ w') : wsOf s h w ≤ wsOf s h' w' := by
  have hrows : h * s.K.toNat * 2 ≤ h' * s.K.toNat * 2 :=
    Nat.mul_le_mul_right 2 (Nat.mul_le_mul_right _ hh)
  have hcols : w * s.K.toNat * s.weightBits.toNat / 8 ≤ w' * s.K.toNat * s.weightBits.toNat / 8 :=
    Nat.div_le_div_right (Nat.mul_le_mul_right _ (Nat.mul_le_mul_right _ hw))
  have hout : h * w * 2 ≤ h' * w' * 2 := Nat.mul_le_mul_right 2 (Nat.mul_le_mul hh hw)
  exact Nat.add_le_add (Nat.add_le_add hrows hcols) hout

theorem wsOf_pos {h w : ℕ} (hh : 0 < h) (hw : 0 < w) : 0 < wsOf s h w := by
  have hout := Nat.mul_pos hh hw
  unfold wsOf workingSet
  omega

theorem tileCols_spec (hb : b.vtcmTileSize.toNat ≠ 0) (h : tileCols s b fuel = .ok nt) :
    FirstFit (alignOf b) s.N.toNat (fun w => seenWs s s.M.toNat w ≤ b.vtcmTileSize.toNat) nt := by
  rw [tileCols, if_pos (Nat.pos_of_ne_zero hb)] at h
  exact firstFit_of_shrink (alignOf_pos b) h

theorem tileRows_spec (hb : b.vtcmTileSize.toNat ≠ 0) (h : tileRows s b fuel nt = .ok mt) :
    FirstFit (alignOf b) s.M.toNat (fun h => seenWs s h nt ≤ b.vtcmTileSize.toNat) mt := by
  rw [tileRows, if_pos (Nat.pos_of_ne_zero hb)] at h
  exact firstFit_of_shrink (alignOf_pos b) h

theorem shape_of_fuel (hb : b.vtcmTileSize.toNat ≠ 0) (h : ShapeOf s b mt nt) :
    ∃ fuel, ∀ k, tileCols s b (k + fuel) = .ok nt ∧ tileRows s b (k + fuel) nt = .ok mt := by
  obtain ⟨hcols, hrows⟩ := h
  obtain ⟨f, hf⟩ := shrink_of_firstFit hcols
  obtain ⟨g, hg⟩ := shrink_of_firstFit hrows
  refine ⟨f + g, fun k => ⟨?_, ?_⟩⟩
  · rw [tileCols, if_pos (Nat.pos_of_ne_zero hb), show k + (f + g) = k + g + f by omega]
    exact shrink_mono hf (k + g)
  · rw [tileRows, if_pos (Nat.pos_of_ne_zero hb), show k + (f + g) = k + f + g by omega]
    exact shrink_mono hg (k + f)

/-- The code sees a tile that does not fit among those of the grid exactly if one of the sizes does
not. -/
theorem maxWs_regular (hmt : 0 < mt ∧ mt ≤ s.M.toNat) (hnt : 0 < nt ∧ nt ≤ s.N.toNat)
    (hfitM : NoWrap s.M.toNat mt) (hfitN : NoWrap s.N.toNat nt) (budget : ℕ) :
    maxWs (tilesOf s mt nt (regular mt s.M.toNat) (regular nt s.N.toNat)) ≤ budget ↔
      ∀ h ∈ sizes mt s.M.toNat, ∀ w ∈ sizes nt s.N.toNat, seenWs s h w ≤ budget := by
  rw [maxWs_le]
  constructor
  · intro hall h hh w hw
    obtain ⟨m, hm, rfl⟩ := (mem_sizes hmt.1 hmt.2 h).mp hh
    obtain ⟨n, hn, rfl⟩ := (mem_sizes hnt.1 hnt.2 w).mp hw
    have htile := hall _ (mem_tilesOf.mpr ⟨m, hm, n, hn, rfl⟩)
    rwa [tileAt_regular hmt.1 hnt.1 hfitM hfitN hm hn] at htile
  · intro hall t ht
    obtain ⟨m, hm, n, hn, rfl⟩ := mem_tilesOf.mp ht
    rw [tileAt_regular hmt.1 hnt.1 hfitM hfitN hm hn]
    exact hall _ ((mem_sizes hmt.1 hmt.2 _).mpr ⟨m, hm, rfl⟩) _
      ((mem_sizes hnt.1 hnt.2 _).mpr ⟨n, hn, rfl⟩)

theorem noWrap_of_nonempty (hmt : 0 < mt ∧ mt ≤ s.M.toNat) (hnt : 0 < nt ∧ nt ≤ s.N.toNat)
    {ms ns : List (ℕ × ℕ)} (hms : strips W mt s.M.toNat fuel 0 = some ms)
    (hns : strips W nt s.N.toNat fuel 0 = some ns)
    (hnonempty : ∀ t ∈ tilesOf s mt nt ms ns, t.m0 < t.m1 ∧ t.n0 < t.n1) :
    NoWrap s.M.toNat mt ∧ NoWrap s.N.toNat nt := by
  obtain ⟨ms', rfl⟩ := regular_append hmt.1 s.M.toNat_lt.le hms
  obtain ⟨ns', rfl⟩ := regular_append hnt.1 s.N.toNat_lt.le hns
  have hM : 0 < s.M.toNat := by omega
  have hN : 0 < s.N.toNat := by omega
  -- the last strip of the one axis, with the first one of the other
  constructor
  · by_contra hwrap
    have htile := hnonempty _ (mem_tilesOf.mpr ⟨_, List.mem_append_left ms' (last_mem hM hmt.1),
      _, List.mem_append_left ns' (first_mem hN hnt.1), rfl⟩)
    have hempty := end_of_wrap hmt.1 hmt.2 s.M.toNat_lt hwrap
    exact absurd htile.1 (Nat.not_lt.mpr hempty)
  · by_contra hwrap
    have htile := hnonempty _ (mem_tilesOf.mpr ⟨_, List.mem_append_left ms' (first_mem hM hmt.1),
      _, List.mem_append_left ns' (last_mem hN hnt.1), rfl⟩)
    have hempty := end_of_wrap hnt.1 hnt.2 s.N.toNat_lt hwrap
    exact absurd htile.2 (Nat.not_lt.mpr hempty)

theorem fits_of_sound {p : TilingPlan} (hrun : matmulTileShape s b fuel = .ok p)
    (hp : Sound s b p) : Fits s b := by
  by_cases hM : s.M.toNat = 0
  · exact .inl hM
  by_cases hN : s.N.toNat = 0
  · exact .inr (.inl hN)
  have hcount := hp.exact 0 0
  rw [if_pos (by omega)] at hcount
  have hK : s.K.toNat ≠ 0 := by
    intro hK
    rw [matmulTileShape, if_pos (.inr (.inr hK))] at hrun
    cases hrun
    exact absurd hcount (by decide)
  rw [matmulTileShape, if_neg (by tauto), bind_eq_ok] at hrun
  obtain ⟨nt, hcols, hrun⟩ := hrun
  rw [bind_eq_ok] at hrun
  obtain ⟨mt, hrows, hrun⟩ := hrun
  rw [bind_eq_ok] at hrun
  obtain ⟨tiles, hgrid, hrun⟩ := hrun
  cases hrun
  have hb : b.vtcmTileSize.toNat ≠ 0 := by
    intro hb
    obtain ⟨t, ht, -⟩ := List.countP_pos_iff.mp (hcount.symm ▸ Nat.one_pos)
    obtain ⟨hm, hn⟩ := hp.nonempty t ht
    have hle := hp.fits (decide_eq_true (.inl hb)) t ht
    have hpos := wsOf_pos (s := s) (Nat.sub_pos_of_lt hm) (Nat.sub_pos_of_lt hn)
    omega
  have hshape : ShapeOf s b mt nt := ⟨tileCols_spec hb hcols, tileRows_spec hb hrows⟩
  have hmt := hshape.2.bounds (Nat.pos_of_ne_zero hM)
  have hnt := hshape.1.bounds (Nat.pos_of_ne_zero hN)
  obtain ⟨ms, ns, hms, hns, rfl⟩ := strips_of_tileGrid (Nat.pos_of_ne_zero hM) hgrid
  obtain ⟨hfitM, hfitN⟩ := noWrap_of_nonempty hmt hnt hms hns hp.nonempty
  refine .inr (.inr ⟨hK, hb, mt, nt, hshape, hfitM, hfitN, ?_⟩)
  rw [eq_regular hmt.1 hfitM hms, eq_regular hnt.1 hfitN hns] at hp
  by_cases hseen : ∀ h ∈ sizes mt s.M.toNat, ∀ w ∈ sizes nt s.N.toNat,
      seenWs s h w ≤ b.vtcmTileSize.toNat
  · have hfirstM := first_mem (Nat.pos_of_ne_zero hM) hmt.1
    have hfirstN := first_mem (Nat.pos_of_ne_zero hN) hnt.1
    have hle := hp.fits (decide_eq_true (.inr ((maxWs_regular hmt hnt hfitM hfitN _).mpr hseen))) _
      (mem_tilesOf.mpr ⟨_, hfirstM, _, hfirstN, rfl⟩)
    rw [tileAt_regular hmt.1 hnt.1 hfitM hfitN hfirstM hfirstN] at hle
    dsimp only at hle
    rw [Nat.min_eq_left hmt.2, Nat.min_eq_left hnt.2, Nat.add_sub_cancel_left,
      Nat.add_sub_cancel_left] at hle
    exact .inl hle
  · push Not at hseen
    exact .inr hseen

theorem sound_regular (hb : b.vtcmTileSize.toNat ≠ 0) (hmt : 0 < mt ∧ mt ≤ s.M.toNat)
    (hnt : 0 < nt ∧ nt ≤ s.N.toNat) (hfitM : NoWrap s.M.toNat mt) (hfitN : NoWrap s.N.toNat nt)
    (hhonest : Honest s b mt nt) {p : TilingPlan}
    (htiles : p.tiles = tilesOf s mt nt (regular mt s.M.toNat) (regular nt s.N.toNat))
    (hfits : p.fitsBudget =
      decide (b.vtcmTileSize.toNat = 0 ∨ maxWs p.tiles ≤ b.vtcmTileSize.toNat)) :
    Sound s b p := by
  have htile (t : OutputTile) (ht : t ∈ p.tiles) : ∃ m ∈ regular mt s.M.toNat,
      ∃ n ∈ regular nt s.N.toNat,
        t = ⟨m.1, m.1 + m.2, n.1, n.1 + n.2, 0, 0, seenWs s m.2 n.2⟩ := by
    rw [htiles] at ht
    obtain ⟨m, hm, n, hn, rfl⟩ := mem_tilesOf.mp ht
    exact ⟨m, hm, n, hn, tileAt_regular hmt.1 hnt.1 hfitM hfitN hm hn⟩
  constructor
  · intro t ht
    obtain ⟨m, hm, n, hn, rfl⟩ := htile t ht
    have hm' := of_mem_regular hmt.1 hm
    have hn' := of_mem_regular hnt.1 hn
    exact ⟨Nat.lt_add_of_pos_right hm'.2.2.1, Nat.lt_add_of_pos_right hn'.2.2.1⟩
  · intro x y
    rw [htiles, countP_regular hmt.1 hnt.1 hfitM hfitN, hits_regular hmt.1, hits_regular hnt.1]
    split_ifs <;> tauto
  · intro hreport t ht
    rw [hfits, decide_eq_true_iff, or_iff_right hb, htiles,
      maxWs_regular hmt hnt hfitM hfitN] at hreport
    obtain ⟨m, hm, n, hn, rfl⟩ := htile t ht
    have hm' := of_mem_regular hmt.1 hm
    have hn' := of_mem_regular hnt.1 hn
    dsimp only
    rw [Nat.add_sub_cancel_left, Nat.add_sub_cancel_left]
    cases hhonest with
    | inl hle => exact (wsOf_mono (by omega) (by omega)).trans hle
    | inr hover =>
      obtain ⟨h, hh, w, hw, hlt⟩ := hover
      exact absurd (hreport h hh w hw) (Nat.not_le.mpr hlt)

theorem sound_nil (h : s.M.toNat = 0 ∨ s.N.toNat = 0) {p : TilingPlan} (hp : p.tiles = []) :
    Sound s b p := by
  constructor
  · intro t ht
    rw [hp] at ht
    cases ht
  · intro m n
    rw [hp, if_neg (by omega)]
    rfl
  · intro _ t ht
    rw [hp] at ht
    cases ht

theorem sound_of_fits (h : Fits s b) :
    ∃ fuel p, matmulTileShape s b fuel = .ok p ∧ Sound s b p := by
  by_cases hnone : s.M.toNat = 0 ∨ s.N.toNat = 0
  · exact ⟨0, _, by rw [matmulTileShape, if_pos (by tauto)], sound_nil hnone rfl⟩
  obtain h | h | ⟨hK, hb, mt, nt, hshape, hfitM, hfitN, hhonest⟩ := h
  · exact absurd (.inl h) hnone
  · exact absurd (.inr h) hnone
  rw [not_or] at hnone
  have hmt := hshape.2.bounds (Nat.pos_of_ne_zero hnone.1)
  have hnt := hshape.1.bounds (Nat.pos_of_ne_zero hnone.2)
  obtain ⟨f, hf⟩ := shape_of_fuel hb hshape
  -- enough rounds for the longer of the two loops as well
  obtain ⟨nM, hnM⟩ : ∃ n, (s.M.toNat + mt - 1) / mt = n := ⟨_, rfl⟩
  obtain ⟨nN, hnN⟩ : ∃ n, (s.N.toNat + nt - 1) / nt = n := ⟨_, rfl⟩
  have hms : strips W mt s.M.toNat (nM + nN + 1 + f) 0 = some (regular mt s.M.toNat) :=
    strips_of_fits hmt.1 hfitM (by omega)
  have hns : strips W nt s.N.toNat (nM + nN + 1 + f) 0 = some (regular nt s.N.toNat) :=
    strips_of_fits hnt.1 hfitN (by omega)
  obtain ⟨tiles, htiles⟩ :
      ∃ l, l = tilesOf s mt nt (regular mt s.M.toNat) (regular nt s.N.toNat) := ⟨_, rfl⟩
  have hgrid := tileGrid_of_strips hms hns
  rw [← htiles] at hgrid
  refine ⟨nM + nN + 1 + f, ⟨"matmul", decide (1 < tiles.length), tiles, maxWs tiles,
    decide (b.vtcmTileSize.toNat = 0 ∨ maxWs tiles ≤ b.vtcmTileSize.toNat)⟩, ?_,
    sound_regular hb hmt hnt hfitM hfitN hhonest htiles rfl⟩
  rw [matmulTileShape, if_neg (by tauto)]
  simp only [bind_eq_ok]
  exact ⟨nt, (hf _).1, mt, (hf _).2, tiles, hgrid, rfl⟩

/-- The search for a tile shape and the loops over the tiles end, the tiles divide the output exactly,
and they are in the budget if it is reported to fit, exactly if the sizes and the budget fit. -/
theorem matmul_tiles_iff (s : OpShape) (b : TileBudget) :
    (∃ fuel p, matmulTileShape s b fuel = .ok p ∧ Sound s b p) ↔ Fits s b := by
  constructor
  · rintro ⟨fuel, p, hrun, hp⟩
    exact fits_of_sound hrun hp
  · exact sound_of_fits

/-- A row of `2 ^ 32 - 1` outputs and the default budget of 3 MB. -/
def longRow : OpShape where
  M := 1
  N := 4294967295
  K := 1
  weightBits := 16

def defaultBudget : TileBudget where
  vtcmTileSize := 3145728
  align := 32

/-- The last tile ends where the column counter wraps, so the tiles do not cover the row. -/
theorem longRow_not_sound :
    ¬∀ s b, ∃ fuel p, matmulTileShape s b fuel = .ok p ∧ Sound s b p := by
  intro hall
  obtain ⟨fuel, p, hrun, hp⟩ := hall longRow defaultBudget
  obtain h | h | ⟨-, -, mt, nt, ⟨hcols, -⟩, -, hfitN, -⟩ := fits_of_sound hrun hp
  · exact absurd h (by decide)
  · exact absurd h (by decide)
  have hws (w : ℕ) (hw : w < 2 ^ 32) : seenWs longRow 1 w = 4 * w + 2 := by
    show ((1 * 1 * 2 % 2 ^ 64) + (w * 1 * 16 % 2 ^ 64 / 8) + (1 * w * 2 % 2 ^ 64)) % 2 ^ 64 = _
    omega
  -- 134193152 steps of 32 columns
  have hfirst : FirstFit 32 4294967295 (fun w => seenWs longRow 1 w ≤ 3145728) 786431 := by
    refine ⟨134193152, rfl, .inr ?_, fun j hj => ⟨by omega, ?_⟩⟩
    · show seenWs longRow 1 786431 ≤ 3145728
      rw [hws _ (by decide)]
      decide
    · show ¬seenWs longRow 1 (4294967295 - j * 32) ≤ 3145728
      rw [hws _ (by omega)]
      omega
  have heq : nt = 786431 := hcols.unique hfirst
  rw [heq] at hfitN
  have hlt : (4294967295 + 786431 - 1) / 786431 * 786431 < 2 ^ 32 := hfitN
  exact absurd hlt (by decide)

end Main

end Gehtp.Analysis.MatmulTiles
