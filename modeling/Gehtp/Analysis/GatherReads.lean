import Gehtp.Model.GatherOp

/-!
# What a gather reads

The device takes the place of an output element apart into five coordinates. With the axis moved to
where it is after the axes in front are gone, these are the coordinates of the output as long as
everything from the sixth size of the output on is 1. The indices' coordinates have to be among the
five, or the device reads past its array; an axis that is itself among those in front is replaced
by the first axis that stays.
-/

set_option autoImplicit false

namespace Gehtp.Analysis.GatherReads

open Lib Lib.RowMajor Model.OpGraph Model.DeviceTensor Model.GatherOp

/-! ### What is wanted -/

/-- The sizes of the output: those of the table with the axis replaced by the indices' sizes. -/
def outDims (table index : List ℕ) (a : ℕ) : List ℕ := table.take a ++ index ++ table.drop (a + 1)

/-- The row that an index names, if there is one. -/
def rowOf (size : ℕ) (r : ℤ) : Option ℕ :=
  let r' := if r < 0 then r + size else r
  if 0 ≤ r' ∧ r' < size then some r'.toNat else none

/-- The element for the coordinates before the axis, of the index, and behind the axis. -/
def gathered (table index : List ℕ) (a : ℕ) (t : Tensor) (is : List ℤ) (P K Q : List ℕ) : UInt16 :=
  (rowOf (table.getD a 1) (is.getD (lin index K) 0)).elim 0 fun row =>
    t.data.getD (lin table (P ++ row :: Q)) 0

variable {k row xrank : ℕ} {xd oc : List ℕ}

/-! ### Sizes and strides -/

section Sizes

variable {w : ℕ} {ds : List ℕ}

theorem le_prod_of_stride (hpos : 0 < ds.prod) {s : ℕ} (hs : s ∈ strides ds) : s ≤ ds.prod := by
  induction ds with
  | nil => exact absurd hs List.not_mem_nil
  | cons d ds ih =>
    obtain ⟨htail, hle⟩ := prod_tail_le hpos
    rw [strides_cons, List.mem_cons] at hs
    cases hs with
    | inl hs => exact hs ▸ hle
    | inr hs => exact (ih htail hs).trans hle

theorem two_pow_le (hw : 32 ≤ w) : 2 ^ 32 ≤ 2 ^ w := Nat.pow_le_pow_right (by decide) hw

theorem sizeStrides_eq (hw : 32 ≤ w) (hpos : 0 < ds.prod) (hlt : ds.prod < 2 ^ 32) :
    sizeStrides w ds = strides ds := by
  refine Eq.trans (List.map_congr_left fun s hs => ?_) (List.map_id _)
  have hle := le_prod_of_stride hpos hs
  have := two_pow_le hw
  exact Nat.mod_eq_of_lt (by omega)

theorem length_fiveDims (ds : List ℕ) : (fiveDims ds).length = 5 := by
  rw [fiveDims, List.length_take, List.length_append, List.length_replicate]
  omega

theorem fiveDims_short (h : ds.length ≤ 5) :
    fiveDims ds = ds ++ List.replicate (5 - ds.length) 1 := by
  rw [fiveDims, List.take_append, List.take_of_length_le h, List.take_replicate,
    Nat.min_eq_left (by omega)]

theorem fiveDims_long (h : 5 ≤ ds.length) : fiveDims ds = ds.take 5 := by
  rw [fiveDims, List.take_append_of_le_length h]

theorem take_fiveDims (hk : k ≤ ds.length) (h : ds.length ≤ 5) :
    (fiveDims ds).take k = ds.take k := by
  rw [fiveDims_short h, List.take_append_of_le_length hk]

theorem getD_fiveDims (hk : k < ds.length) (h : ds.length ≤ 5) :
    (fiveDims ds).getD k 1 = ds.getD k 1 := by
  rw [fiveDims_short h, List.getD_append _ _ _ _ hk]

theorem prod_fiveDims (ds : List ℕ) : (fiveDims ds).prod = (ds.take 5).prod := by
  cases Nat.le_total ds.length 5 with
  | inl h => rw [fiveDims_short h, List.prod_append, prod_replicate_one, Nat.mul_one,
      List.take_of_length_le h]
  | inr h => rw [fiveDims_long h]

theorem frame_eq {table index : List ℕ} {a : ℕ} (ht : table.length ≤ 5) (hx : index.length ≤ 5)
    (ha : a < table.length) :
    frame a index.length table.length (fiveDims table) (fiveDims index) =
      fiveDims (outDims table index a) := by
  rw [frame, take_fiveDims (by omega) ht, take_fiveDims (le_refl _) hx,
    take_fiveDims (le_refl _) ht, List.take_length, List.take_length, outDims]

theorem getD_zeros (cs : List ℕ) (k j : ℕ) : (cs ++ List.replicate k 0).getD j 0 = cs.getD j 0 := by
  cases Nat.lt_or_ge j cs.length with
  | inl h => exact List.getD_append _ _ _ _ h
  | inr h =>
    rw [List.getD_append_right _ _ _ _ h, List.getD_eq_default _ _ h]
    cases Nat.lt_or_ge (j - cs.length) k with
    | inl hk => exact List.getD_replicate _ hk
    | inr hk => exact List.getD_eq_default _ _ (by
        rw [List.length_replicate]
        exact hk)

theorem getD_replicate_zero (n i : ℕ) : (List.replicate n (0 : ℤ)).getD i 0 = 0 := by
  cases Nat.lt_or_ge i n with
  | inl h => exact List.getD_replicate _ h
  | inr h => exact List.getD_eq_default _ _ (by
      rw [List.length_replicate]
      exact h)

theorem getD_five (hne : ds ≠ []) (hones : ∀ d ∈ ds.drop 5, d = 1) (i j : ℕ) :
    (coords (fiveDims ds) i).getD j 0 = (coords ds i).getD j 0 := by
  cases Nat.le_total ds.length 5 with
  | inl h => rw [fiveDims_short h, coords_append_ones _ _ hne, getD_zeros]
  | inr h =>
    have hsplit : ds.take 5 ++ List.replicate (ds.length - 5) 1 = ds := by
      have hrest := List.eq_replicate_of_mem hones
      rw [List.length_drop] at hrest
      rw [← hrest, List.take_append_drop]
    have htake : ds.take 5 ≠ [] := by
      intro hnil
      have hlen := congrArg List.length hnil
      rw [List.length_take, List.length_nil] at hlen
      omega
    rw [fiveDims_long h]
    calc (coords (ds.take 5) i).getD j 0
        = (coords (ds.take 5) i ++ List.replicate (ds.length - 5) 0).getD j 0 :=
          (getD_zeros _ _ _).symm
      _ = (coords (ds.take 5 ++ List.replicate (ds.length - 5) 1) i).getD j 0 := by
          rw [coords_append_ones _ _ htake]
      _ = (coords ds i).getD j 0 := by rw [hsplit]

end Sizes

theorem tableRow_eq {size : ℕ} (h : size < 2 ^ 31) (r : ℤ) : tableRow size r = rowOf size r := by
  have hsize : (size : ℤ).bmod (2 ^ 32) = size := by
    apply Int.bmod_eq_of_le
    · omega
    · omega
  unfold tableRow rowOf
  rw [hsize]
  simp only
  by_cases hr : 0 ≤ (if r < 0 then r + size else r) ∧ (if r < 0 then r + size else r) < size
  · rw [if_pos hr, if_neg (by omega)]
  · rw [if_neg hr, if_pos (by omega)]

theorem rowOf_lt {size : ℕ} {r : ℤ} (h : rowOf size r = some row) : row < size := by
  unfold rowOf at h
  simp only at h
  by_cases hr : 0 ≤ (if r < 0 then r + size else r) ∧ (if r < 0 then r + size else r) < size
  · rw [if_pos hr] at h
    cases h
    omega
  · rw [if_neg hr] at h
    cases h

/-! ### One round -/

section Round

variable {w : ℕ} {table index : List ℕ} {a : ℕ} {t : Tensor} {is : List ℤ} {i : ℕ}

theorem indexCoords_eq (h : a + xrank ≤ oc.length) (hpos : ∀ k < xrank, xd.getD k 1 ≠ 0) :
    indexCoords a xrank xd oc =
      .ok ((List.range xrank).map fun k => oc.getD (a + k) 0 % xd.getD k 1) := by
  rw [indexCoords, mapM_eq_ok, List.forall₂_map_right_iff, List.forall₂_same]
  intro k hk
  rw [List.mem_range] at hk
  have hread : (entryAt oc (a + k) : Checked String ℕ) = .ok (oc.getD (a + k) 0) := by
    exact entryAt_getD (by omega) 0
  rw [hread]
  show (if xd.getD k 1 = 0 then _ else Except.ok (oc.getD (a + k) 0 % xd.getD k 1)) = _
  rw [if_neg (hpos k hk)]

theorem indexCoords_ne_ok (hx : 0 < xrank) (h : oc.length < a + xrank) (cs : List ℕ) :
    indexCoords a xrank xd oc ≠ .ok cs := by
  intro hrun
  rw [indexCoords, mapM_eq_ok, List.forall₂_iff_get] at hrun
  obtain ⟨hlen, hall⟩ := hrun
  rw [List.length_range] at hlen
  have hlast := hall (xrank - 1) (by rw [List.length_range]; omega) (by omega)
  rw [List.get_eq_getElem, List.getElem_range] at hlast
  replace hlast : (entryAt oc (a + (xrank - 1)) >>= _) = Except.ok _ := hlast
  rw [bind_eq_ok] at hlast
  obtain ⟨c, hc, -⟩ := hlast
  rw [entryAt_eq_ok] at hc
  have := (List.getElem?_eq_some_iff.mp hc).1
  omega

/-- The indices' coordinates, as the device has them. -/
def deviceIndex (index oc : List ℕ) (a : ℕ) : List ℕ :=
  (List.range index.length).map fun k => oc.getD (a + k) 0 % index.getD k 1

theorem deviceIndex_within (hpos : 0 < index.prod) : Within (deviceIndex index oc a) index := by
  apply List.forall₂_iff_get.mpr
  constructor
  · rw [deviceIndex, List.length_map, List.length_range]
  · intro k hk hk'
    have hne : index[k] ≠ 0 := fun hzero =>
      Nat.ne_of_gt hpos (List.prod_eq_zero (hzero ▸ List.getElem_mem hk'))
    simp only [deviceIndex, List.get_eq_getElem, List.getElem_map, List.getElem_range]
    rw [List.getD_eq_getElem _ _ hk']
    exact Nat.mod_lt _ (Nat.pos_of_ne_zero hne)

theorem deviceIndex_eq {K : List ℕ} (hK : Within K index)
    (hoc : ∀ k < index.length, oc.getD (a + k) 0 = K.getD k 0) : deviceIndex index oc a = K := by
  have hlen := hK.length_eq
  apply List.ext_getElem
  · rw [deviceIndex, List.length_map, List.length_range, hlen]
  · intro k hk hk'
    have hlt := hK.getD_lt (show k < index.length by omega)
    simp only [deviceIndex, List.getElem_map, List.getElem_range]
    rw [hoc k (by omega), List.getD_eq_getElem index 1 (by omega),
      ← List.getD_eq_getElem index 0 (by omega), Nat.mod_eq_of_lt hlt, List.getD_eq_getElem _ _ hk']

theorem tableCoords_eq {irank : ℕ} {P Q : List ℕ} (hx : 0 < xrank) (hoc : a ≤ oc.length)
    (hPlen : P.length = a) (hQlen : Q.length = irank - (a + 1))
    (hP : ∀ j < a, oc.getD j 0 = P.getD j 0)
    (hQ : ∀ j < Q.length, oc.getD (a + xrank + j) 0 = Q.getD j 0) :
    tableCoords a xrank irank row oc = P ++ row :: Q := by
  have hfront : oc.take a = P := by
    apply List.ext_getElem
    · rw [List.length_take, hPlen, Nat.min_eq_left hoc]
    · intro j hj hj'
      have heq := hP j (by omega)
      rw [List.getD_eq_getElem _ _ (by omega), List.getD_eq_getElem _ _ hj'] at heq
      rw [List.getElem_take, heq]
  have hback : (List.range' (a + 1) (irank - (a + 1))).map
      (fun d => oc.getD (d + xrank - 1) 0) = Q := by
    apply List.ext_getElem
    · rw [List.length_map, List.length_range', hQlen]
    · intro j hj hj'
      rw [List.getElem_map, List.getElem_range', ← List.getD_eq_getElem Q 0 hj', ← hQ j hj']
      congr 1
      omega
  rw [tableCoords, hfront, hback]

theorem dot_sizeStrides {ds cs : List ℕ} (hw : 32 ≤ w) (hlen : ds.length ≤ 5) (hcs : Within cs ds)
    (hlt : ds.prod < 2 ^ 32) :
    dot (sizeStrides w (fiveDims ds)) cs % 2 ^ w = lin ds cs := by
  have hprod : (fiveDims ds).prod = ds.prod := by
    rw [prod_fiveDims, List.take_of_length_le hlen]
  have hbound := lin_lt hcs
  have hpow := two_pow_le hw
  rw [sizeStrides_eq hw (by omega) (by omega), dot_strides, fiveDims_short hlen,
    lin_cut _ hcs.length_eq, Nat.mod_eq_of_lt (by omega)]

theorem prod_outDims (table index : List ℕ) (a : ℕ) :
    (outDims table index a).prod =
      (table.take a).prod * index.prod * (table.drop (a + 1)).prod := by
  rw [outDims, List.prod_append, List.prod_append]

theorem length_outDims (index : List ℕ) (ha : a < table.length) :
    (outDims table index a).length = a + index.length + (table.length - (a + 1)) := by
  rw [outDims, List.length_append, List.length_append, List.length_take, List.length_drop,
    Nat.min_eq_left (by omega)]

variable (hw : 32 ≤ w) (ht : table.length ≤ 5) (hx : index.length ≤ 5) (hx0 : 0 < index.length)
  (ha : a < table.length) (hroom : a + index.length ≤ 5)
  (hpos : 0 < (outDims table index a).prod) (hlt : (outDims table index a).prod < 2 ^ 32)
  (hsize : table.getD a 1 < 2 ^ 31) (his : is.length = index.prod)

def five (table index : List ℕ) (a i : ℕ) : List ℕ := coords (fiveDims (outDims table index a)) i

theorem length_five (i : ℕ) : (five table index a i).length = 5 := by
  rw [five, length_coords, length_fiveDims]

include hpos in
theorem prod_index_pos : 0 < index.prod := by
  rw [prod_outDims] at hpos
  exact Nat.pos_of_mul_pos_left (Nat.pos_of_mul_pos_right hpos)

include hpos in
theorem prod_index_le : index.prod ≤ (outDims table index a).prod := by
  apply Nat.le_of_dvd hpos
  rw [prod_outDims]
  exact Dvd.dvd.mul_right (Nat.dvd_mul_left _ _) _

include hpos in
theorem prod_five_pos : 0 < (fiveDims (outDims table index a)).prod ∧
    (fiveDims (outDims table index a)).prod ≤ (outDims table index a).prod := by
  rw [prod_fiveDims]
  have hdvd : ((outDims table index a).take 5).prod ∣ (outDims table index a).prod :=
    ⟨_, (List.prod_take_mul_prod_drop _ 5).symm⟩
  exact ⟨Nat.pos_of_dvd_of_pos hdvd hpos, Nat.le_of_dvd hpos hdvd⟩

include hw ht hx ha hpos hlt in
theorem walk_frame (i : ℕ) :
    walk (sizeStrides w (frame a index.length table.length (fiveDims table) (fiveDims index))) i =
      .ok (five table index a i) := by
  obtain ⟨hfive, hle⟩ := prod_five_pos hpos
  rw [frame_eq ht hx ha, sizeStrides_eq hw hfive (by omega), walk_strides hfive]
  rfl

include hw ht hx ha hroom hpos hlt hsize his in
theorem gatherCell_eq (i : ℕ) :
    gatherCell w a index.length table.length (fiveDims table) (fiveDims index) t is i =
      (rowOf (table.getD a 1)
        (is.getD (lin index (deviceIndex index (five table index a i) a)) 0)).elim (.ok (i, 0))
        fun row => (t.load (dot (sizeStrides w (fiveDims table))
          (tableCoords a index.length table.length row (five table index a i)) % 2 ^ w)).map
            fun v => (i, v) := by
  have hxpos := prod_index_pos hpos
  have hxle := prod_index_le hpos
  have hK : Within (deviceIndex index (five table index a i) a) index := deviceIndex_within hxpos
  have hcoords : indexCoords a index.length (fiveDims index) (five table index a i) =
      .ok (deviceIndex index (five table index a i) a) := by
    rw [indexCoords_eq (by rw [length_five]; exact hroom) (fun k hk => by
      rw [getD_fiveDims hk hx, List.getD_eq_getElem _ _ hk]
      exact fun hzero => Nat.ne_of_gt hxpos (List.prod_eq_zero (hzero ▸ List.getElem_mem hk)))]
    refine congrArg Except.ok (List.map_congr_left fun k hk => ?_)
    rw [getD_fiveDims (List.mem_range.mp hk) hx]
  have hread : (entryAt is (lin index (deviceIndex index (five table index a i) a)) :
      Checked String ℤ) =
      .ok (is.getD (lin index (deviceIndex index (five table index a i) a)) 0) := by
    have hbound := lin_lt hK
    exact entryAt_getD (by omega) 0
  rw [gatherCell, walk_frame hw ht hx ha hpos hlt]
  show (indexCoords a index.length (fiveDims index) (five table index a i) >>= _) = _
  rw [hcoords]
  show (entryAt is (dot (sizeStrides w (fiveDims index))
    (deviceIndex index (five table index a i) a) % 2 ^ w) >>= _) = _
  rw [dot_sizeStrides hw hx hK (by omega), hread]
  simp only [bind, Except.bind]
  rw [getD_fiveDims ha ht, tableRow_eq hsize]
  cases hrow : rowOf (table.getD a 1)
      (is.getD (lin index (deviceIndex index (five table index a i) a)) 0) with
  | none => rfl
  | some row => rfl

/-! ### All rounds -/

section Cells

variable {P K Q : List ℕ}

theorem cell_within (hP : Within P (table.take a)) (hK : Within K index)
    (hQ : Within Q (table.drop (a + 1))) : Within (P ++ K ++ Q) (outDims table index a) :=
  List.rel_append (List.rel_append hP hK) hQ

include ha in
theorem row_within (hP : Within P (table.take a)) (hQ : Within Q (table.drop (a + 1)))
    (hrow : row < table.getD a 1) : Within (P ++ row :: Q) table := by
  have hsplit : table.take a ++ table.getD a 1 :: table.drop (a + 1) = table := by
    rw [List.getD_eq_getElem _ _ ha, List.cons_getElem_drop_succ, List.take_append_drop]
  rw [← hsplit]
  exact List.rel_append hP (List.Forall₂.cons hrow hQ)

include ha in
theorem length_front (hP : Within P (table.take a)) : P.length = a := by
  rw [hP.length_eq, List.length_take, Nat.min_eq_left (by omega)]

include ha in
theorem split_within {cs : List ℕ} (hcs : Within cs (outDims table index a)) :
    Within (cs.take a) (table.take a) ∧ Within ((cs.drop a).take index.length) index ∧
      Within (cs.drop (a + index.length)) (table.drop (a + 1)) ∧
      cs.take a ++ (cs.drop a).take index.length ++ cs.drop (a + index.length) = cs := by
  have hlen : (table.take a).length = a := by
    rw [List.length_take, Nat.min_eq_left (by omega)]
  have hfront := List.forall₂_take a hcs
  have hrest := List.forall₂_drop a hcs
  rw [outDims, List.append_assoc, List.take_left' hlen] at hfront
  rw [outDims, List.append_assoc, List.drop_left' hlen] at hrest
  have hmid := List.forall₂_take index.length hrest
  have hback := List.forall₂_drop index.length hrest
  rw [List.take_left] at hmid
  rw [List.drop_left, List.drop_drop] at hback
  refine ⟨hfront, hmid, hback, ?_⟩
  rw [List.append_assoc, ← List.drop_drop, List.take_append_drop, List.take_append_drop]

include ha in
theorem split_append (hP : Within P (table.take a)) (hK : Within K index) :
    (P ++ K ++ Q).take a = P ∧ ((P ++ K ++ Q).drop a).take index.length = K ∧
      (P ++ K ++ Q).drop (a + index.length) = Q := by
  have hPlen := length_front ha hP
  have hKlen := hK.length_eq
  refine ⟨?_, ?_, ?_⟩
  · rw [List.append_assoc, List.take_left' hPlen]
  · rw [List.append_assoc, List.drop_left' hPlen, List.take_left' hKlen]
  · rw [← List.drop_drop, List.append_assoc, List.drop_left' hPlen, List.drop_left' hKlen]

include hw ht hx hx0 ha hroom hpos hlt hsize his in
theorem gatherCell_cell
    (hgood : table.getD a 1 = 0 ∨ ∀ d ∈ (outDims table index a).drop 5, d = 1)
    (hcount : t.count = table.prod) (hP : Within P (table.take a)) (hK : Within K index)
    (hQ : Within Q (table.drop (a + 1))) :
    gatherCell w a index.length table.length (fiveDims table) (fiveDims index) t is
        (lin (outDims table index a) (P ++ K ++ Q)) =
      .ok (lin (outDims table index a) (P ++ K ++ Q), gathered table index a t is P K Q) := by
  rw [gatherCell_eq hw ht hx ha hroom hpos hlt hsize his]
  cases hgood with
  | inl hzero =>
    have hnone : ∀ r, rowOf (table.getD a 1) r = none := by
      intro r
      cases hrow : rowOf (table.getD a 1) r with
      | none => rfl
      | some row =>
        have := rowOf_lt hrow
        omega
    rw [gathered, hnone, hnone]
    rfl
  | inr hones =>
    have hcs := cell_within hP hK hQ
    have hPlen := length_front ha hP
    have hKlen := hK.length_eq
    have hQlen : Q.length = table.length - (a + 1) := by
      rw [hQ.length_eq, List.length_drop]
    have hne : outDims table index a ≠ [] := by
      intro hnil
      have hlen := length_outDims index ha
      rw [hnil, List.length_nil] at hlen
      omega
    have hread : ∀ j, (five table index a (lin (outDims table index a) (P ++ K ++ Q))).getD j 0 =
        (P ++ (K ++ Q)).getD j 0 := by
      intro j
      rw [five, getD_five hne hones, coords_lin hcs, List.append_assoc]
    have hindex : deviceIndex index (five table index a (lin (outDims table index a)
        (P ++ K ++ Q))) a = K := by
      apply deviceIndex_eq hK
      intro k hk
      rw [hread, List.getD_append_right _ _ _ _ (by omega), hPlen, Nat.add_sub_cancel_left,
        List.getD_append _ _ _ _ (by omega)]
    have htable : ∀ row, tableCoords a index.length table.length row (five table index a
        (lin (outDims table index a) (P ++ K ++ Q))) = P ++ row :: Q := by
      intro row
      refine tableCoords_eq hx0 (by rw [length_five]; omega) hPlen hQlen (fun j hj => ?_)
        (fun j hj => ?_)
      · rw [hread, List.getD_append _ _ _ _ (by omega)]
      · rw [hread, List.getD_append_right _ _ _ _ (by omega),
          List.getD_append_right _ _ _ _ (by omega)]
        congr 1
        omega
    rw [hindex, gathered]
    cases hrow : rowOf (table.getD a 1) (is.getD (lin index K) 0) with
    | none => rfl
    | some row =>
      have hin := row_within ha hP hQ (rowOf_lt hrow)
      have hbound := lin_lt hin
      have hfits := t.fits
      have hload : t.load (lin table (P ++ row :: Q)) =
          .ok (t.data.getD (lin table (P ++ row :: Q)) 0) := by
        unfold Tensor.count at hcount
        exact entryAt_getD (by omega) 0
      unfold Tensor.count at hcount
      show (t.load _).map _ = _
      rw [htable, dot_sizeStrides hw ht hin (by omega), hload]
      rfl

end Cells

include hw ht hx hx0 ha hroom hpos hlt hsize his in
theorem compact_runs (old : ℕ → UInt16) (hfits : 2 * (outDims table index a).prod < 2 ^ 32)
    (hgood : table.getD a 1 = 0 ∨ ∀ d ∈ (outDims table index a).drop 5, d = 1)
    (hcount : t.count = table.prod) :
    ∃ y, fillLoop (gatherCell w a index.length table.length (fiveDims table) (fiveDims index) t is)
        (List.range (outDims table index a).prod) (tempGet old ((outDims table index a).prod * 2)) =
          .ok y ∧
      ∀ P K Q, Within P (table.take a) → Within K index → Within Q (table.drop (a + 1)) →
        y[lin (outDims table index a) (P ++ K ++ Q)]? = some (gathered table index a t is P K Q) := by
  obtain ⟨y, hrun, -, hval⟩ := fillLoop_range
    (gatherCell w a index.length table.length (fiveDims table) (fiveDims index) t is)
    (fun i => gathered table index a t is ((coords (outDims table index a) i).take a)
      (((coords (outDims table index a) i).drop a).take index.length)
      ((coords (outDims table index a) i).drop (a + index.length)))
    (fun i hi => by
      obtain ⟨hP, hK, hQ, hcs⟩ := split_within ha (coords_within hi)
      have hcell := gatherCell_cell hw ht hx hx0 ha hroom hpos hlt hsize his hgood hcount hP hK hQ
      rw [hcs, lin_coords hi] at hcell
      exact hcell)
    (length_tempGet_of_lt old hfits).ge
  refine ⟨y, hrun, fun P K Q hP hK hQ => ?_⟩
  have hcs := cell_within hP hK hQ
  obtain ⟨hfront, hmid, hback⟩ := split_append (Q := Q) ha hP hK
  rw [hval _ (lin_lt hcs), coords_lin hcs, hfront, hmid, hback]

/-! ### What the first row shows -/

def backCoords (table index oc : List ℕ) (a : ℕ) : List ℕ :=
  (List.range' (a + 1) (table.length - (a + 1))).map fun d => oc.getD (d + index.length - 1) 0

theorem length_backCoords (oc : List ℕ) :
    (backCoords table index oc a).length = table.length - (a + 1) := by
  rw [backCoords, List.length_map, List.length_range']

theorem getElem_backCoords {j : ℕ} (hx0 : 0 < index.length)
    (hj : j < (backCoords table index oc a).length) :
    (backCoords table index oc a)[j] = oc.getD (a + index.length + j) 0 := by
  simp only [backCoords, List.getElem_map, List.getElem_range']
  congr 1
  omega

theorem getD_five_lt {j : ℕ} (hpos : 0 < (outDims table index a).prod) (i : ℕ) (hj : 0 < j)
    (hj' : j < 5) (hlen : j < (outDims table index a).length) :
    (five table index a i).getD j 0 < (outDims table index a).getD j 0 := by
  have hlt := coords_getD_lt (prod_five_pos hpos).1 i hj (by rw [length_fiveDims]; exact hj')
  have hdim : (fiveDims (outDims table index a)).getD j 0 = (outDims table index a).getD j 0 := by
    cases Nat.le_total (outDims table index a).length 5 with
    | inl hshort => rw [fiveDims_short hshort, List.getD_append _ _ _ _ hlen]
    | inr hlong => rw [fiveDims_long hlong, List.getD_eq_getElem _ _ (by
        rw [List.length_take]
        omega), List.getElem_take, List.getD_eq_getElem _ _ hlen]
  rw [five, ← hdim]
  exact hlt

include hx0 ha hroom hpos in
theorem firstRow_within (hrow : 0 < table.getD a 1) (i : ℕ)
    (hfirst : 0 < a → (five table index a i).getD 0 0 < table.getD 0 1) :
    Within ((five table index a i).take a ++ 0 :: backCoords table index (five table index a i) a)
      table := by
  have hlen := length_outDims index ha
  apply row_within ha _ _ hrow
  · apply List.forall₂_iff_get.mpr
    constructor
    · rw [List.length_take, List.length_take, length_five]
      omega
    · intro j hj hj'
      rw [List.length_take] at hj hj'
      have hdim : (outDims table index a).getD j 0 = table[j] := by
        rw [outDims, List.append_assoc, List.getD_append _ _ _ _ (by
          rw [List.length_take]
          omega), List.getD_eq_getElem _ _ (by rw [List.length_take]; omega), List.getElem_take]
      rw [List.get_eq_getElem, List.get_eq_getElem, List.getElem_take, List.getElem_take,
        ← List.getD_eq_getElem (five table index a i) 0]
      cases Nat.eq_zero_or_pos j with
      | inl hzero =>
        subst hzero
        rw [← List.getD_eq_getElem table 1]
        exact hfirst (by omega)
      | inr hjpos =>
        rw [← hdim]
        exact getD_five_lt (j := j) hpos i hjpos (by omega) (by omega)
  · apply List.forall₂_iff_get.mpr
    constructor
    · rw [length_backCoords, List.length_drop]
    · intro j hj hj'
      rw [length_backCoords] at hj
      have hdim : (outDims table index a).getD (a + index.length + j) 0 = table[a + 1 + j] := by
        rw [outDims, List.getD_append_right _ _ _ _ (by
          rw [List.length_append, List.length_take]
          omega), List.length_append, List.length_take, Nat.min_eq_left (by omega),
          Nat.add_sub_cancel_left, List.getD_eq_getElem _ _ hj', List.getElem_drop]
      rw [List.get_eq_getElem, List.get_eq_getElem, getElem_backCoords hx0, List.getElem_drop,
        ← hdim]
      cases Nat.lt_or_ge (a + index.length + j) 5 with
      | inl hin =>
        exact getD_five_lt (j := a + index.length + j) hpos i (by omega) hin (by omega)
      | inr hout =>
        rw [List.getD_eq_default _ _ (by rw [length_five]; exact hout)]
        apply Nat.pos_of_ne_zero
        intro hzero
        apply Nat.ne_of_gt hpos
        apply List.prod_eq_zero
        rw [← hzero, List.getD_eq_getElem _ _ (by omega)]
        exact List.getElem_mem _

include hw ht hx ha hroom hpos hlt hsize in
theorem firstRow_place {N : ℕ} (hN : 2 * N < 2 ^ 32) (hcount : N = table.prod)
    (hrow : 0 < table.getD a 1) {i : ℕ} {Q : List ℕ}
    (hQ : backCoords table index (five table index a i) a = Q)
    (hin : Within ((five table index a i).take a ++ 0 :: Q) table)
    (hrun : gatherCell w a index.length table.length (fiveDims table) (fiveDims index)
      (Tensor.indicator N hN k) (List.replicate index.prod 0) i = .ok (i, 1)) :
    lin table ((five table index a i).take a ++ 0 :: Q) = k := by
  have hzero : rowOf (table.getD a 1) ((List.replicate index.prod (0 : ℤ)).getD
      (lin index (deviceIndex index (five table index a i) a)) 0) = some 0 := by
    rw [getD_replicate_zero, rowOf, if_pos (by omega)]
    rfl
  have hbound := lin_lt hin
  rw [gatherCell_eq hw ht hx ha hroom hpos hlt hsize List.length_replicate, hzero] at hrun
  have hcoords : tableCoords a index.length table.length 0 (five table index a i) =
      (five table index a i).take a ++ 0 :: Q := by
    rw [← hQ]
    rfl
  replace hrun : ((Tensor.indicator N hN k).load (dot (sizeStrides w (fiveDims table))
    (tableCoords a index.length table.length 0 (five table index a i)) % 2 ^ w)).map _ = _ := hrun
  rw [hcoords, dot_sizeStrides hw ht hin (by omega)] at hrun
  have hload : (Tensor.indicator N hN k).load (lin table ((five table index a i).take a ++ 0 :: Q)) =
      .ok ((Tensor.indicator N hN k).data.getD
        (lin table ((five table index a i).take a ++ 0 :: Q)) 0) := by
    have hlen := count_indicator hN k
    unfold Tensor.count at hlen
    exact entryAt_getD (by omega) 0
  rw [hload, getD_indicator hN (by omega)] at hrun
  by_contra hne
  rw [if_neg hne] at hrun
  cases hrun

include ha hroom in
theorem drop_outDims : (outDims table index a).drop 5 =
    (table.drop (a + 1)).drop (5 - (a + index.length)) := by
  have hfive : 5 = (table.take a ++ index).length + (5 - (a + index.length)) := by
    rw [List.length_append, List.length_take]
    omega
  rw [outDims, hfive, List.drop_length_add_append, List.length_append, List.length_take,
    Nat.min_eq_left (by omega)]
  congr 1
  omega

include hx0 ha hroom in
theorem firstRow_dvd (i : ℕ) : ((outDims table index a).drop 5).prod ∣ lin table
    ((five table index a i).take a ++ 0 :: backCoords table index (five table index a i) a) := by
  have hlen : (backCoords table index (five table index a i) a).length =
      (table.drop (a + 1)).length := by
    rw [length_backCoords, List.length_drop]
  generalize hQ : backCoords table index (five table index a i) a = Q at *
  generalize hm : 5 - (a + index.length) = m
  have hzeros : Q.drop m = List.replicate (Q.drop m).length 0 := by
    apply List.eq_replicate_of_mem
    intro c hc
    obtain ⟨j, hj, rfl⟩ := List.getElem_of_mem hc
    rw [List.getElem_drop]
    subst hQ
    rw [List.length_drop] at hj
    rw [getElem_backCoords hx0, List.getD_eq_default _ _ (by
      rw [length_five]
      omega)]
  have hdims : table = (table.take a ++ table.getD a 1 :: (table.drop (a + 1)).take m) ++
      (table.drop (a + 1)).drop m := by
    rw [List.append_assoc, List.cons_append, List.take_append_drop, List.getD_eq_getElem _ _ ha,
      List.cons_getElem_drop_succ, List.take_append_drop]
  have hcoords : (five table index a i).take a ++ 0 :: Q =
      ((five table index a i).take a ++ 0 :: Q.take m) ++ List.replicate (Q.drop m).length 0 := by
    rw [← hzeros, List.append_assoc, List.cons_append, List.take_append_drop]
  have hfront : ((five table index a i).take a ++ 0 :: Q.take m).length =
      (table.take a ++ table.getD a 1 :: (table.drop (a + 1)).take m).length := by
    rw [List.length_append, List.length_append, List.length_cons, List.length_cons,
      List.length_take, List.length_take, List.length_take, List.length_take, length_five, hlen]
    omega
  have happ := lin_append hfront ((table.drop (a + 1)).drop m)
    (List.replicate (Q.drop m).length 0)
  rw [← hdims, ← hcoords, lin_zeros, Nat.add_zero] at happ
  rw [happ, drop_outDims ha hroom, hm]
  exact Nat.dvd_mul_left _ _

end Round

/-! ### The axes in front -/

theorem dropOnes_head {ds rest : List ℕ} {d : ℕ} (h : dropOnes 1 ds = d :: rest) :
    rest = [] ∨ d ≠ 1 := by
  induction ds with
  | nil => cases h
  | cons e ds ih =>
    by_cases he : 1 < ds.length + 1 ∧ e = 1
    · rw [dropOnes, if_pos he] at h
      exact ih h
    · rw [dropOnes, if_neg he] at h
      obtain ⟨hd, hrest⟩ := List.cons.inj h
      rw [← hd, ← hrest]
      by_cases hone : e = 1
      · refine Or.inl (List.length_eq_zero_iff.mp ?_)
        by_contra hlen
        exact he ⟨by omega, hone⟩
      · exact Or.inr hone

theorem dropOnes_ne_nil {ds : List ℕ} (h : ds ≠ []) : dropOnes 1 ds ≠ [] := by
  induction ds with
  | nil => exact absurd rfl h
  | cons d ds ih =>
    by_cases hd : 1 < ds.length + 1 ∧ d = 1
    · rw [dropOnes, if_pos hd]
      apply ih
      intro hnil
      rw [hnil, List.length_nil] at hd
      omega
    · rw [dropOnes, if_neg hd]
      exact List.cons_ne_nil d ds

def dropped (ds : List ℕ) : ℕ := ds.length - (dropOnes 1 ds).length

theorem dropOnes_spec {ds : List ℕ} (h : ds ≠ []) :
    dropOnes 1 ds = ds.drop (dropped ds) ∧ (∀ d ∈ ds.take (dropped ds), d = 1) ∧
      dropped ds < ds.length ∧ (dropOnes 1 ds).length = ds.length - dropped ds := by
  obtain ⟨j, hj, hones⟩ := dropOnes_eq_drop 1 ds
  have hne := List.length_pos_of_ne_nil (dropOnes_ne_nil h)
  have hlen := congrArg List.length hj
  rw [List.length_drop] at hlen
  have hdropped : dropped ds = j := by
    unfold dropped
    omega
  rw [hdropped]
  exact ⟨hj, hones, by omega, hlen⟩

/-- The number of the axis afterwards; an axis that is dropped becomes the first one. -/
def movedAxis (table : List ℕ) (a : ℕ) : ℕ := if a < dropped table then 0 else a - dropped table

section Strip

variable {table index : List ℕ} {a : ℕ}

theorem shiftAxis_eq (ht : table ≠ []) (ha : a < table.length) :
    shiftAxis a table.length (dropOnes 1 table).length = movedAxis table a := by
  obtain ⟨-, -, hlt, hlen⟩ := dropOnes_spec ht
  rw [shiftAxis, movedAxis, hlen]
  by_cases hdrop : a < dropped table
  · rw [if_pos hdrop, if_pos (by omega)]
  · rw [if_neg hdrop, if_neg (by omega)]
    omega

theorem movedAxis_lt (ht : table ≠ []) (ha : a < table.length) :
    movedAxis table a < (dropOnes 1 table).length := by
  obtain ⟨-, -, hlt, hlen⟩ := dropOnes_spec ht
  unfold movedAxis
  split
  · omega
  · omega

theorem stays (ht : table ≠ []) (ha : dropped table ≤ a) :
    (table.take a).drop (dropped table) = (dropOnes 1 table).take (movedAxis table a) ∧
      table.getD a 1 = (dropOnes 1 table).getD (movedAxis table a) 1 ∧
      table.drop (a + 1) = (dropOnes 1 table).drop (movedAxis table a + 1) := by
  obtain ⟨heq, -, hlt, -⟩ := dropOnes_spec ht
  rw [heq, movedAxis, if_neg (by omega)]
  refine ⟨List.drop_take, ?_, ?_⟩
  · rw [List.getD_eq_getElem?_getD, List.getD_eq_getElem?_getD, List.getElem?_drop,
      Nat.add_sub_cancel' ha]
  · rw [List.drop_drop]
    congr 1
    omega

variable {P K Q : List ℕ}

/-- What the device works on: the coordinates without the axes in front. -/
structure Stripped (table index : List ℕ) (a : ℕ) (P K Q P' K' Q' : List ℕ) : Prop where
  front : Within P' ((dropOnes 1 table).take (movedAxis table a))
  mid : Within K' (dropOnes 1 index)
  back : Within Q' ((dropOnes 1 table).drop (movedAxis table a + 1))
  place : lin (outDims table index a) (P ++ K ++ Q) =
    lin (outDims (dropOnes 1 table) (dropOnes 1 index) (movedAxis table a)) (P' ++ K' ++ Q')
  value : ∀ t is, gathered table index a t is P K Q =
    gathered (dropOnes 1 table) (dropOnes 1 index) (movedAxis table a) t is P' K' Q'

theorem prod_dropOnes {ds : List ℕ} (h : ds ≠ []) : (dropOnes 1 ds).prod = ds.prod := by
  obtain ⟨heq, hones, -, -⟩ := dropOnes_spec h
  rw [heq, prod_drop_ones hones]

theorem strip_index (hx : index ≠ []) (hK : Within K index) :
    Within (K.drop (dropped index)) (dropOnes 1 index) ∧
      lin index K = lin (dropOnes 1 index) (K.drop (dropped index)) := by
  obtain ⟨heq, hones, -, -⟩ := dropOnes_spec hx
  rw [heq]
  exact ⟨List.forall₂_drop _ hK, lin_drop_ones hK hones⟩

theorem prod_stays (ht : table ≠ []) (hx : index ≠ []) (ha : dropped table ≤ a) :
    (outDims (dropOnes 1 table) (dropOnes 1 index) (movedAxis table a)).prod =
      (outDims table index a).prod := by
  obtain ⟨-, hones, -, -⟩ := dropOnes_spec ht
  obtain ⟨hfront, -, hback⟩ := stays ht ha
  rw [prod_outDims, prod_outDims, prod_dropOnes hx, ← hback, ← hfront, prod_drop_ones]
  intro d hd
  rw [List.take_take, Nat.min_eq_left ha] at hd
  exact hones d hd

theorem strip_stays (ht : table ≠ []) (hx : index ≠ []) (hlt : a < table.length)
    (ha : dropped table ≤ a)
    (hP : Within P (table.take a)) (hK : Within K index) (hQ : Within Q (table.drop (a + 1))) :
    Stripped table index a P K Q (P.drop (dropped table)) (K.drop (dropped index)) Q := by
  obtain ⟨heq, hones, -, -⟩ := dropOnes_spec ht
  obtain ⟨hfront, hrow, hback⟩ := stays ht ha
  obtain ⟨hmid, hlinK⟩ := strip_index hx hK
  have hP' : Within (P.drop (dropped table)) ((dropOnes 1 table).take (movedAxis table a)) := by
    rw [← hfront]
    exact List.forall₂_drop _ hP
  have hlinP : lin (table.take a) P =
      lin ((dropOnes 1 table).take (movedAxis table a)) (P.drop (dropped table)) := by
    rw [← hfront]
    apply lin_drop_ones hP
    intro d hd
    rw [List.take_take, Nat.min_eq_left ha] at hd
    exact hones d hd
  have hPlen := length_front hlt hP
  refine ⟨hP', hmid, hback ▸ hQ, ?_, fun t is => ?_⟩
  · rw [outDims, outDims, lin_append (by rw [List.length_append, List.length_append,
      hP.length_eq, hK.length_eq]), lin_append hP.length_eq, lin_append (by
      rw [List.length_append, List.length_append, hP'.length_eq, hmid.length_eq]),
      lin_append hP'.length_eq, hlinP, hlinK, hback, prod_dropOnes hx]
  · rw [gathered, gathered, ← hrow, ← hlinK]
    cases hr : rowOf (table.getD a 1) (is.getD (lin index K) 0) with
    | none => rfl
    | some row =>
      have hin := row_within hlt hP hQ (rowOf_lt hr)
      show t.data.getD (lin table (P ++ row :: Q)) 0 = t.data.getD _ 0
      rw [lin_drop_ones hin hones, heq, List.drop_append_of_le_length (by omega)]

theorem strip_unit (ht : table ≠ []) (hx : index ≠ []) (hlt : a < table.length)
    (ha : a < dropped table) (hunit : dropOnes 1 table = [1])
    (hP : Within P (table.take a)) (hK : Within K index) (hQ : Within Q (table.drop (a + 1))) :
    Stripped table index a P K Q [] (K.drop (dropped index)) [] := by
  obtain ⟨hmid, hlinK⟩ := strip_index hx hK
  have hprod : table.prod = 1 := by
    rw [← prod_dropOnes ht, hunit]
    rfl
  have hall : ∀ d ∈ table, d = 1 := fun d hd => Nat.dvd_one.mp (hprod ▸ List.dvd_prod hd)
  have hmoved : movedAxis table a = 0 := if_pos ha
  have hlinP : lin (table.take a) P = 0 := by
    have hlt := lin_lt hP
    rw [List.prod_eq_one fun d hd => hall d (List.mem_of_mem_take hd)] at hlt
    omega
  have hback : (table.drop (a + 1)).prod = 1 :=
    List.prod_eq_one fun d hd => hall d (List.mem_of_mem_drop hd)
  have hlinQ : lin (table.drop (a + 1)) Q = 0 := by
    have hlt := lin_lt hQ
    rw [hback] at hlt
    omega
  refine ⟨?_, hmid, ?_, ?_, fun t is => ?_⟩
  · rw [hmoved]
    exact List.Forall₂.nil
  · rw [hmoved, hunit]
    exact List.Forall₂.nil
  · rw [outDims, lin_append (by rw [List.length_append, List.length_append,
      hP.length_eq, hK.length_eq]), lin_append hP.length_eq, hlinP, hlinQ, hback, hlinK, hmoved,
      hunit, outDims, List.take_zero, List.drop_succ_cons, List.drop_zero, List.nil_append,
      List.nil_append, List.append_nil, List.append_nil]
    omega
  · have hone : table.getD a 1 = 1 := by
      rw [List.getD_eq_getElem _ _ hlt]
      exact hall _ (List.getElem_mem hlt)
    rw [gathered, gathered, ← hlinK, hmoved, hunit, hone]
    cases hr : rowOf 1 (is.getD (lin index K) 0) with
    | none =>
      show 0 = (rowOf 1 _).elim 0 _
      rw [hr]
      rfl
    | some row =>
      have hrow := rowOf_lt hr
      have hin : Within (P ++ row :: Q) table := row_within hlt hP hQ (by omega)
      have hfirst : row = 0 := by omega
      have hzero : lin table (P ++ row :: Q) = 0 := by
        have hplace := lin_lt hin
        omega
      show t.data.getD (lin table (P ++ row :: Q)) 0 = (rowOf 1 _).elim 0 _
      rw [hr, hzero, hfirst]
      rfl

end Strip

/-! ### Emission and execution -/

/-- A table and indices of at most five axes, and an axis of the table. The table is on the device.
-/
structure Gatherable (tbl idx out : OutputDef) (axis : ℤ) : Prop where
  table : 1 ≤ tbl.rank ∧ tbl.rank ≤ 5
  index : 1 ≤ idx.rank ∧ idx.rank ≤ 5
  low : -(tbl.rank : ℤ) ≤ axis
  high : axis < tbl.rank
  cells : out.shape.prod =
    (outDims tbl.shape idx.shape (wrapAxis axis tbl.rank).toNat).prod
  fits : 2 * tbl.shape.prod < 2 ^ 32

/-- The device refuses, or it ends with every output element as wanted. -/
def Gathers (w : ℕ) (tbl idx out : OutputDef) (extra param : Option ℤ) (a : ℕ) : Prop :=
  ∀ (t : Tensor) (is : List ℤ) (old : ℕ → UInt16), t.count = tbl.shape.prod →
    is.length = idx.shape.prod →
    (∃ e, gather w (some tbl) (some idx) extra param out t is old = .error (.reject e)) ∨
    ∃ y, gather w (some tbl) (some idx) extra param out t is old = .ok y ∧
      ∀ P K Q, Within P (tbl.shape.take a) → Within K idx.shape →
        Within Q (tbl.shape.drop (a + 1)) →
        y[lin (outDims tbl.shape idx.shape a) (P ++ K ++ Q)]? =
          some (gathered tbl.shape idx.shape a t is P K Q)

/-- An axis that is dropped belongs to a table of one element; any other leaves room for the
indices, and the output has no sizes behind the fifth unless the table has no rows. -/
def Roomy (table index : List ℕ) (a : ℕ) : Prop :=
  if a < dropped table then dropOnes 1 table = [1]
  else movedAxis table a + (dropOnes 1 index).length ≤ 5 ∧ (table.getD a 1 = 0 ∨
    ∀ d ∈ (outDims (dropOnes 1 table) (dropOnes 1 index) (movedAxis table a)).drop 5, d = 1)

theorem length_shape {od : OutputDef} (h : od.rank ≤ 5) : od.shape.length = od.rank := by
  rw [OutputDef.shape, List.length_take, Vector.length_toList, Nat.min_eq_left h]

section Device

variable {w : ℕ} {tbl idx out : OutputDef} {extra param : Option ℤ} {t : Tensor} {is : List ℤ}
  {old : ℕ → UInt16}

abbrev axisOf (tbl : OutputDef) (extra param : Option ℤ) : ℕ :=
  (wrapAxis (readAxis extra param) tbl.rank).toNat

variable (h : Gatherable tbl idx out (readAxis extra param))

include h in
theorem axisOf_lt : axisOf tbl extra param < tbl.shape.length := by
  have hlow := h.low
  have hhigh := h.high
  rw [length_shape h.table.2, axisOf, wrapAxis]
  split
  · omega
  · omega

include h in
theorem wrapAxis_eq :
    wrapAxis (readAxis extra param) tbl.rank = (axisOf tbl extra param : ℤ) := by
  have hlow := h.low
  rw [axisOf, wrapAxis]
  split
  · omega
  · omega

include h in
theorem table_ne_nil : tbl.shape ≠ [] := by
  apply List.ne_nil_of_length_pos
  rw [length_shape h.table.2]
  exact h.table.1

include h in
theorem index_ne_nil : idx.shape ≠ [] := by
  apply List.ne_nil_of_length_pos
  rw [length_shape h.index.2]
  exact h.index.1

include h in
theorem length_compact : (dropOnes 1 tbl.shape).length ≤ 5 ∧
    0 < (dropOnes 1 idx.shape).length ∧ (dropOnes 1 idx.shape).length ≤ 5 := by
  obtain ⟨-, -, -, htable⟩ := dropOnes_spec (table_ne_nil h)
  obtain ⟨-, -, -, hindex⟩ := dropOnes_spec (index_ne_nil h)
  have htlen := length_shape h.table.2
  have hxlen := length_shape h.index.2
  have hrank := h.table.2
  have hrank' := h.index.2
  have hne := List.length_pos_of_ne_nil (dropOnes_ne_nil (index_ne_nil h))
  exact ⟨by omega, hne, by omega⟩

include h in
theorem gather_eq :
    gather w (some tbl) (some idx) extra param out t is old =
      fillLoop (gatherCell w (movedAxis tbl.shape (axisOf tbl extra param))
        (dropOnes 1 idx.shape).length (dropOnes 1 tbl.shape).length
        ((fiveDims (dropOnes 1 tbl.shape)).map u32) ((fiveDims (dropOnes 1 idx.shape)).map u32)
        t is) (List.range (u32 (elemsOf out))) (tempGet old (u32 (elemsOf out) * 2)) := by
  obtain ⟨htlen, hx0, hxlen⟩ := length_compact h
  have hmoved := movedAxis_lt (table_ne_nil h) (axisOf_lt h)
  have haxis : shiftAxis (wrapAxis (readAxis extra param) tbl.rank) tbl.rank
      (dropOnes 1 tbl.shape).length = movedAxis tbl.shape (axisOf tbl extra param) := by
    rw [wrapAxis_eq h, ← length_shape h.table.2]
    exact shiftAxis_eq (table_ne_nil h) (axisOf_lt h)
  have hirank : compactRank (dropOnes 1 tbl.shape) = (dropOnes 1 tbl.shape).length :=
    if_neg (by omega)
  have hxrank : compactRank (dropOnes 1 idx.shape) = (dropOnes 1 idx.shape).length :=
    if_neg (by omega)
  rw [gather, opGather]
  simp only [gCompact, hirank, hxrank, haxis, bind, Except.bind, execGather]
  have hbyte : (2 : ℕ) ^ 8 = 256 := rfl
  have hword : (2 : ℕ) ^ 16 = 65536 := rfl
  rw [hbyte, hword]
  generalize hA : movedAxis tbl.shape (axisOf tbl extra param) = A at *
  generalize hX : (dropOnes 1 idx.shape).length = X at *
  generalize hI : (dropOnes 1 tbl.shape).length = I at *
  have h1 : (A + 256 * X + 65536 * I) % 256 = A := by omega
  have h2 : (A + 256 * X + 65536 * I) / 256 % 256 = X := by omega
  have h3 : (A + 256 * X + 65536 * I) / 65536 % 256 = I := by omega
  rw [h1, h2, h3, if_neg (by omega)]

theorem gatherCell_onlyFaults (axis xrank irank : ℕ) (td xd : List ℕ) (i : ℕ) :
    OnlyFaults (gatherCell w axis xrank irank td xd t is i) := by
  refine onlyFaults_bind (walk_onlyFaults _ _) fun oc => ?_
  refine onlyFaults_bind (onlyFaults_mapM (fun k => ?_) _) fun xc => ?_
  · refine onlyFaults_bind (onlyFaults_entryAt oc (axis + k)) fun c => ?_
    apply onlyFaults_ite
    · intro s hs
      cases hs
      rfl
    · exact onlyFaults_pure _
  · refine onlyFaults_bind (onlyFaults_entryAt is _) fun r => ?_
    cases tableRow (td.getD axis 1) r with
    | none => exact onlyFaults_pure _
    | some row => exact onlyFaults_map _ (onlyFaults_entryAt t.data _)

theorem gatherCell_place {axis irank : ℕ} {td : List ℕ} {i : ℕ} {c : ℕ × UInt16}
    (hrun : gatherCell w axis xrank irank td xd t is i = .ok c) : c.1 = i := by
  rw [gatherCell, bind_eq_ok] at hrun
  obtain ⟨oc, -, hrun⟩ := hrun
  rw [bind_eq_ok] at hrun
  obtain ⟨xc, -, hrun⟩ := hrun
  rw [bind_eq_ok] at hrun
  obtain ⟨r, -, hrun⟩ := hrun
  cases hrow : tableRow (td.getD axis 1) r with
  | none =>
    rw [hrow] at hrun
    cases hrun
    rfl
  | some row =>
    rw [hrow] at hrun
    simp only at hrun
    cases hload : t.load (dot (sizeStrides w td) (tableCoords axis xrank irank row oc) % 2 ^ w) with
    | error e =>
      rw [hload] at hrun
      cases hrun
    | ok v =>
      rw [hload] at hrun
      cases hrun
      rfl

include h in
theorem gathers_run (old : ℕ → UInt16) (hg : Gathers w tbl idx out extra param (axisOf tbl extra param))
    (ht : t.count = tbl.shape.prod) (his : is.length = idx.shape.prod) :
    ∃ y, fillLoop (gatherCell w (movedAxis tbl.shape (axisOf tbl extra param))
        (dropOnes 1 idx.shape).length (dropOnes 1 tbl.shape).length
        ((fiveDims (dropOnes 1 tbl.shape)).map u32) ((fiveDims (dropOnes 1 idx.shape)).map u32)
        t is) (List.range (u32 (elemsOf out))) (tempGet old (u32 (elemsOf out) * 2)) = .ok y ∧
      ∀ P K Q, Within P (tbl.shape.take (axisOf tbl extra param)) → Within K idx.shape →
        Within Q (tbl.shape.drop (axisOf tbl extra param + 1)) →
        y[lin (outDims tbl.shape idx.shape (axisOf tbl extra param)) (P ++ K ++ Q)]? =
          some (gathered tbl.shape idx.shape (axisOf tbl extra param) t is P K Q) := by
  cases hg t is old ht his with
  | inl hreject =>
    obtain ⟨e, he⟩ := hreject
    rw [gather_eq h] at he
    cases fillLoop_error he with
    | inl hfault => cases hfault
    | inr hround =>
      obtain ⟨i, -, hi⟩ := hround
      cases gatherCell_onlyFaults _ _ _ _ _ _ _ hi
  | inr hdone =>
    obtain ⟨y, hy, hval⟩ := hdone
    rw [gather_eq h] at hy
    exact ⟨y, hy, hval⟩

theorem sizes_fit (ha : axisOf tbl extra param < tbl.shape.length) (htable : 2 * tbl.shape.prod < 2 ^ 32)
    (hpos : 0 < (outDims tbl.shape idx.shape (axisOf tbl extra param)).prod)
    (hlt : 2 * (outDims tbl.shape idx.shape (axisOf tbl extra param)).prod < 2 ^ 32) :
    (∀ d ∈ tbl.shape, d < 2 ^ 31) ∧ ∀ d ∈ idx.shape, d < 2 ^ 31 := by
  have hsplit : tbl.shape.take (axisOf tbl extra param) ++ tbl.shape.getD (axisOf tbl extra param) 1 ::
      tbl.shape.drop (axisOf tbl extra param + 1) = tbl.shape := by
    rw [List.getD_eq_getElem _ _ ha, List.cons_getElem_drop_succ, List.take_append_drop]
  have hprod := prod_outDims tbl.shape idx.shape (axisOf tbl extra param)
  have hin : ∀ d ∈ outDims tbl.shape idx.shape (axisOf tbl extra param), d < 2 ^ 31 := by
    intro d hd
    have := le_prod_of_mem hpos hd
    omega
  refine ⟨fun d hd => ?_, fun d hd => hin d ?_⟩
  · rw [← hsplit, List.mem_append, List.mem_cons] at hd
    rcases hd with hd | rfl | hd
    · apply hin
      rw [outDims, List.mem_append, List.mem_append]
      exact Or.inl (Or.inl hd)
    · by_cases hzero : tbl.shape.getD (axisOf tbl extra param) 1 = 0
      · omega
      · have hfront : 0 < (tbl.shape.take (axisOf tbl extra param)).prod :=
          Nat.pos_of_mul_pos_right (Nat.pos_of_mul_pos_right (hprod ▸ hpos))
        have hback : 0 < (tbl.shape.drop (axisOf tbl extra param + 1)).prod :=
          Nat.pos_of_mul_pos_left (hprod ▸ hpos)
        have hcells : 0 < tbl.shape.prod := by
          rw [← hsplit, List.prod_append, List.prod_cons]
          exact Nat.mul_pos hfront (Nat.mul_pos (Nat.pos_of_ne_zero hzero) hback)
        have hle := le_prod_of_mem hcells (d := tbl.shape.getD (axisOf tbl extra param) 1) (by
          rw [List.getD_eq_getElem _ _ ha]
          exact List.getElem_mem ha)
        omega
    · apply hin
      rw [outDims, List.mem_append]
      exact Or.inr hd
  · rw [outDims, List.mem_append, List.mem_append]
    exact Or.inl (Or.inr hd)

theorem map_u32_five {ds : List ℕ} (hds : ds ≠ []) (hfit : ∀ d ∈ ds, d < 2 ^ 31) :
    (fiveDims (dropOnes 1 ds)).map u32 = fiveDims (dropOnes 1 ds) := by
  obtain ⟨heq, -, -, -⟩ := dropOnes_spec hds
  refine Eq.trans (List.map_congr_left fun d hd => ?_) (List.map_id _)
  have hmem := List.mem_of_mem_take hd
  rw [heq, List.mem_append] at hmem
  cases hmem with
  | inl hmem =>
    have := hfit d (List.mem_of_mem_drop hmem)
    exact u32_of_lt (by omega)
  | inr hmem =>
    rw [List.eq_of_mem_replicate hmem]
    rfl

theorem secondCell_lt {table index : List ℕ} {a : ℕ} (ht : table ≠ []) (ha : a < table.length)
    (hmoved : 0 < movedAxis table a)
    (hpos : 0 < (outDims (dropOnes 1 table) index (movedAxis table a)).prod) :
    (five (dropOnes 1 table) index (movedAxis table a) 1).getD 0 0 <
      (dropOnes 1 table).getD 0 1 := by
  have hlt := movedAxis_lt ht ha
  obtain ⟨d, rest, htable⟩ := List.exists_cons_of_ne_nil (dropOnes_ne_nil ht)
  obtain ⟨k, hk⟩ := Nat.exists_eq_succ_of_ne_zero (Nat.pos_iff_ne_zero.mp hmoved)
  rw [htable, hk] at hlt hpos ⊢
  have hd : d ≠ 1 := by
    cases dropOnes_head htable with
    | inl hnil =>
      rw [hnil, List.length_singleton] at hlt
      omega
    | inr hd => exact hd
  have hout : outDims (d :: rest) index (k + 1) = d :: outDims rest index k := rfl
  have hdpos : 0 < d := by
    rw [hout, List.prod_cons] at hpos
    exact Nat.pos_of_mul_pos_right hpos
  have hcell : (five (d :: rest) index (k + 1) 1).getD 0 0 ≤ 1 := by
    rw [five, hout, fiveDims, List.cons_append, List.take_succ_cons, coords_cons]
    exact Nat.div_le_self 1 _
  show (five (d :: rest) index (k + 1) 1).getD 0 0 < d
  omega

end Device

/-! ### The condition -/

section Condition

variable {w : ℕ} {tbl idx out : OutputDef} {extra param : Option ℤ}
  (h : Gatherable tbl idx out (readAxis extra param)) (hw : 32 ≤ w)
  (hpos : 0 < (outDims tbl.shape idx.shape (axisOf tbl extra param)).prod)
  (hlt : 2 * (outDims tbl.shape idx.shape (axisOf tbl extra param)).prod < 2 ^ 32)

include h hpos hlt in
theorem gather_loop (t : Tensor) (is : List ℤ) (old : ℕ → UInt16) :
    gather w (some tbl) (some idx) extra param out t is old =
      fillLoop (gatherCell w (movedAxis tbl.shape (axisOf tbl extra param))
        (dropOnes 1 idx.shape).length (dropOnes 1 tbl.shape).length
        (fiveDims (dropOnes 1 tbl.shape)) (fiveDims (dropOnes 1 idx.shape)) t is)
        (List.range (outDims tbl.shape idx.shape (axisOf tbl extra param)).prod)
        (tempGet old ((outDims tbl.shape idx.shape (axisOf tbl extra param)).prod * 2)) := by
  obtain ⟨htable, hindex⟩ := sizes_fit (axisOf_lt h) h.fits hpos hlt
  have hcells : out.shape.prod = (outDims tbl.shape idx.shape (axisOf tbl extra param)).prod :=
    h.cells
  rw [gather_eq h, map_u32_five (table_ne_nil h) htable, map_u32_five (index_ne_nil h) hindex,
    elemsOf_eq (by omega), hcells, u32_of_lt (by omega)]

include h hpos hlt in
theorem size_moved_lt :
    (dropOnes 1 tbl.shape).getD (movedAxis tbl.shape (axisOf tbl extra param)) 1 < 2 ^ 31 := by
  obtain ⟨htable, -⟩ := sizes_fit (axisOf_lt h) h.fits hpos hlt
  have hmoved := movedAxis_lt (table_ne_nil h) (axisOf_lt h)
  obtain ⟨heq, -, -, -⟩ := dropOnes_spec (table_ne_nil h)
  rw [List.getD_eq_getElem _ _ hmoved]
  apply htable
  apply List.mem_of_mem_drop
  rw [← heq]
  exact List.getElem_mem hmoved

include h hw hpos hlt in
theorem gathers_of_roomy (hroomy : Roomy tbl.shape idx.shape (axisOf tbl extra param)) :
    Gathers w tbl idx out extra param (axisOf tbl extra param) := by
  intro t is old ht his
  obtain ⟨htlen, hx0, hxlen⟩ := length_compact h
  have htne := table_ne_nil h
  have hxne := index_ne_nil h
  have ha := axisOf_lt h
  have hmoved := movedAxis_lt htne ha
  have hcount : t.count = (dropOnes 1 tbl.shape).prod := ht.trans (prod_dropOnes htne).symm
  have hislen : is.length = (dropOnes 1 idx.shape).prod := his.trans (prod_dropOnes hxne).symm
  have hsize := size_moved_lt h hpos hlt
  rw [gather_loop h hpos hlt]
  by_cases hdrop : axisOf tbl extra param < dropped tbl.shape
  · rw [Roomy, if_pos hdrop] at hroomy
    have hzero : movedAxis tbl.shape (axisOf tbl extra param) = 0 := if_pos hdrop
    have hout : outDims (dropOnes 1 tbl.shape) (dropOnes 1 idx.shape)
        (movedAxis tbl.shape (axisOf tbl extra param)) = dropOnes 1 idx.shape := by
      rw [hzero, hroomy, outDims, List.take_zero, List.nil_append, List.drop_succ_cons,
        List.drop_zero, List.append_nil]
    have hprod : (outDims (dropOnes 1 tbl.shape) (dropOnes 1 idx.shape)
        (movedAxis tbl.shape (axisOf tbl extra param))).prod =
        (outDims tbl.shape idx.shape (axisOf tbl extra param)).prod := by
      have hunit : tbl.shape.prod = 1 := by
        rw [← prod_dropOnes htne, hroomy]
        rfl
      have hall : ∀ d ∈ tbl.shape, d = 1 := fun d hd =>
        Nat.dvd_one.mp (hunit ▸ List.dvd_prod hd)
      rw [hout, prod_outDims, List.prod_eq_one fun d hd => hall d (List.mem_of_mem_take hd),
        List.prod_eq_one fun d hd => hall d (List.mem_of_mem_drop hd), prod_dropOnes hxne,
        Nat.one_mul, Nat.mul_one]
    obtain ⟨y, hy, hval⟩ := compact_runs hw htlen hxlen hx0 hmoved (by omega) (by omega) (by omega)
      hsize hislen old (by omega) (Or.inr (by
        rw [hout, List.drop_of_length_le hxlen]
        exact fun d hd => absurd hd List.not_mem_nil)) hcount
    rw [hprod] at hy
    refine Or.inr ⟨y, hy, fun P K Q hP hK hQ => ?_⟩
    have hs := strip_unit htne hxne ha hdrop hroomy hP hK hQ
    rw [hs.place, hs.value]
    exact hval _ _ _ hs.front hs.mid hs.back
  · rw [Roomy, if_neg hdrop] at hroomy
    obtain ⟨hroom, hgood⟩ := hroomy
    have hprod := prod_stays htne hxne (Nat.le_of_not_lt hdrop)
    obtain ⟨-, hrow, -⟩ := stays htne (Nat.le_of_not_lt hdrop)
    obtain ⟨y, hy, hval⟩ := compact_runs hw htlen hxlen hx0 hmoved hroom (by omega) (by omega)
      hsize hislen old (by omega) (hrow ▸ hgood) hcount
    rw [hprod] at hy
    refine Or.inr ⟨y, hy, fun P K Q hP hK hQ => ?_⟩
    have hs := strip_stays htne hxne ha (Nat.le_of_not_lt hdrop) hP hK hQ
    rw [hs.place, hs.value]
    exact hval _ _ _ hs.front hs.mid hs.back

theorem zeros_within {ds : List ℕ} (h : 0 < ds.prod) : Within (List.replicate ds.length 0) ds := by
  rw [← coords_zero]
  exact coords_within h

include h hpos hlt in
theorem firstRows (hg : Gathers w tbl idx out extra param (axisOf tbl extra param))
    (hrow : 0 < tbl.shape.getD (axisOf tbl extra param) 1) {i : ℕ}
    (hi : i < (tbl.shape.drop (axisOf tbl extra param + 1)).prod) :
    gatherCell w (movedAxis tbl.shape (axisOf tbl extra param))
        (dropOnes 1 idx.shape).length (dropOnes 1 tbl.shape).length
        (fiveDims (dropOnes 1 tbl.shape)) (fiveDims (dropOnes 1 idx.shape))
        (Tensor.indicator tbl.shape.prod h.fits i) (List.replicate idx.shape.prod 0) i =
      .ok (i, 1) := by
  have ha := axisOf_lt h
  obtain ⟨htable, hindex⟩ := sizes_fit ha h.fits hpos hlt
  have hcells : out.shape.prod = (outDims tbl.shape idx.shape (axisOf tbl extra param)).prod :=
    h.cells
  obtain ⟨y, hy, hval⟩ := gathers_run h (fun _ => 0) hg (count_indicator h.fits i)
    (List.length_replicate (a := (0 : ℤ)))
  rw [map_u32_five (table_ne_nil h) htable, map_u32_five (index_ne_nil h) hindex,
    elemsOf_eq (by omega), hcells, u32_of_lt (by omega)] at hy
  have hprod := prod_outDims tbl.shape idx.shape (axisOf tbl extra param)
  have hfront : 0 < (tbl.shape.take (axisOf tbl extra param)).prod :=
    Nat.pos_of_mul_pos_right (Nat.pos_of_mul_pos_right (hprod ▸ hpos))
  have hP := zeros_within hfront
  have hK := zeros_within (prod_index_pos hpos)
  have hQ := coords_within hi
  have hwant := hval _ _ _ hP hK hQ
  have hplace : lin (outDims tbl.shape idx.shape (axisOf tbl extra param))
      (List.replicate (tbl.shape.take (axisOf tbl extra param)).length 0 ++
        List.replicate idx.shape.length 0 ++
        coords (tbl.shape.drop (axisOf tbl extra param + 1)) i) = i := by
    rw [outDims, lin_append (by rw [List.length_append, List.length_append, hP.length_eq,
      hK.length_eq]), lin_append hP.length_eq, lin_zeros, lin_zeros, lin_coords hi]
    omega
  have hin := row_within ha hP hQ hrow
  have helement : lin tbl.shape
      (List.replicate (tbl.shape.take (axisOf tbl extra param)).length 0 ++
        0 :: coords (tbl.shape.drop (axisOf tbl extra param + 1)) i) = i := by
    have hsplit : tbl.shape.take (axisOf tbl extra param) ++
        tbl.shape.getD (axisOf tbl extra param) 1 :: tbl.shape.drop (axisOf tbl extra param + 1) =
        tbl.shape := by
      rw [List.getD_eq_getElem _ _ ha, List.cons_getElem_drop_succ, List.take_append_drop]
    have happ := lin_append hP.length_eq
      (tbl.shape.getD (axisOf tbl extra param) 1 :: tbl.shape.drop (axisOf tbl extra param + 1))
      (0 :: coords (tbl.shape.drop (axisOf tbl extra param + 1)) i)
    rw [hsplit, lin_zeros, lin_cons, lin_coords hi] at happ
    omega
  have hfirst : rowOf (tbl.shape.getD (axisOf tbl extra param) 1) 0 = some 0 := by
    rw [rowOf, if_pos (by omega)]
    rfl
  have hbound := lin_lt hin
  rw [hplace, gathered, getD_replicate_zero, hfirst] at hwant
  replace hwant : y[i]? = some ((Tensor.indicator tbl.shape.prod h.fits i).data.getD
    (lin tbl.shape (List.replicate (tbl.shape.take (axisOf tbl extra param)).length 0 ++
      0 :: coords (tbl.shape.drop (axisOf tbl extra param + 1)) i)) 0) := hwant
  rw [helement, getD_indicator h.fits (by omega), if_pos rfl] at hwant
  have hn : i < (outDims tbl.shape idx.shape (axisOf tbl extra param)).prod := by
    rw [← hplace]
    exact lin_lt (cell_within hP hK hQ)
  obtain ⟨-, hread⟩ := fillLoop_range_inv (fun j _ c hc => gatherCell_place hc) hy
  obtain ⟨v, hv, hyv⟩ := hread i hn
  rw [hwant] at hyv
  cases hyv
  exact hv

include h hw hpos hlt in
/-- A dropped axis is replaced by the first one that stays, so that one has to be of size 1. -/
theorem unit_of_gathers (hg : Gathers w tbl idx out extra param (axisOf tbl extra param))
    (hdrop : axisOf tbl extra param < dropped tbl.shape) : dropOnes 1 tbl.shape = [1] := by
  obtain ⟨htlen, hx0, hxlen⟩ := length_compact h
  have htne := table_ne_nil h
  have hxne := index_ne_nil h
  have ha := axisOf_lt h
  obtain ⟨-, hones, -, -⟩ := dropOnes_spec htne
  obtain ⟨d, rest, htable⟩ := List.exists_cons_of_ne_nil (dropOnes_ne_nil htne)
  by_contra hne
  have hd : d ≠ 1 := by
    cases dropOnes_head htable with
    | inl hnil =>
      rintro rfl
      exact hne (by rw [htable, hnil])
    | inr hd => exact hd
  -- the axis and those before it have size 1, so the rows behind it are the whole table
  have hsplit : tbl.shape.take (axisOf tbl extra param + 1) ++
      tbl.shape.drop (axisOf tbl extra param + 1) = tbl.shape := List.take_append_drop _ _
  have hback : (tbl.shape.drop (axisOf tbl extra param + 1)).prod = d * rest.prod := by
    rw [← List.prod_cons, ← htable, prod_dropOnes htne]
    exact prod_drop_ones fun e he => hones e (List.take_subset_take_left _ (by omega) he)
  have hrow : tbl.shape.getD (axisOf tbl extra param) 1 = 1 := by
    rw [List.getD_eq_getElem _ _ ha]
    apply hones
    rw [List.mem_take_iff_getElem]
    exact ⟨axisOf tbl extra param, by omega, rfl⟩
  have hcells := prod_outDims tbl.shape idx.shape (axisOf tbl extra param)
  have hdrest : 0 < d * rest.prod := hback ▸ Nat.pos_of_mul_pos_left (hcells ▸ hpos)
  have hrest : 0 < rest.prod := Nat.pos_of_mul_pos_left hdrest
  have hd2 : 2 ≤ d := by
    have := Nat.pos_of_mul_pos_right hdrest
    omega
  have hi : rest.prod < (tbl.shape.drop (axisOf tbl extra param + 1)).prod := by
    rw [hback]
    calc rest.prod < 2 * rest.prod := by omega
      _ ≤ d * rest.prod := Nat.mul_le_mul_right _ hd2
  have hrun := firstRows h hpos hlt hg (by omega) hi
  have hmoved : movedAxis tbl.shape (axisOf tbl extra param) = 0 := if_pos hdrop
  have hmovedlt := movedAxis_lt htne ha
  rw [hmoved, ← prod_dropOnes hxne] at hrun
  have hout : (outDims (dropOnes 1 tbl.shape) (dropOnes 1 idx.shape) 0).prod =
      (dropOnes 1 idx.shape).prod * rest.prod := by
    rw [prod_outDims, htable, List.take_zero, List.prod_nil, Nat.one_mul, List.drop_succ_cons,
      List.drop_zero]
  have hxpos : 0 < (dropOnes 1 idx.shape).prod := by
    rw [prod_dropOnes hxne]
    exact prod_index_pos hpos
  have hpos' : 0 < (outDims (dropOnes 1 tbl.shape) (dropOnes 1 idx.shape) 0).prod := by
    rw [hout]
    exact Nat.mul_pos hxpos hrest
  have hle : (outDims (dropOnes 1 tbl.shape) (dropOnes 1 idx.shape) 0).prod ≤
      (outDims tbl.shape idx.shape (axisOf tbl extra param)).prod := by
    rw [hout, hcells, hback, prod_dropOnes hxne]
    apply Nat.mul_le_mul
    · apply Nat.le_mul_of_pos_left
      exact Nat.pos_of_mul_pos_right (Nat.pos_of_mul_pos_right (hcells ▸ hpos))
    · exact Nat.le_mul_of_pos_left _ (by omega)
  have hsize := size_moved_lt h hpos hlt
  rw [hmoved] at hsize hmovedlt
  have hrow' : 0 < (dropOnes 1 tbl.shape).getD 0 1 := by
    rw [htable]
    exact Nat.pos_of_mul_pos_right hdrest
  have hin := firstRow_within hx0 hmovedlt (by omega) hpos' hrow' rest.prod
    (fun hzero => absurd hzero (lt_irrefl 0))
  have hplace := firstRow_place hw htlen hxlen hmovedlt (by omega) hpos' (by omega) hsize h.fits
    (prod_dropOnes htne).symm hrow' rfl hin hrun
  rw [htable, List.take_zero, List.nil_append] at hin hplace
  cases hin with
  | cons _ hQ =>
    rw [lin_cons, Nat.zero_mul, Nat.zero_add] at hplace
    exact absurd (lin_lt hQ) (by omega)

include h hw hpos hlt in
theorem room_of_gathers (hg : Gathers w tbl idx out extra param (axisOf tbl extra param))
    (hdrop : ¬axisOf tbl extra param < dropped tbl.shape) :
    movedAxis tbl.shape (axisOf tbl extra param) + (dropOnes 1 idx.shape).length ≤ 5 := by
  obtain ⟨htlen, hx0, hxlen⟩ := length_compact h
  have htne := table_ne_nil h
  have hmoved := movedAxis_lt htne (axisOf_lt h)
  have hprod := prod_stays htne (index_ne_nil h) (Nat.le_of_not_lt hdrop)
  by_contra hroom
  obtain ⟨htable, hindex⟩ := sizes_fit (axisOf_lt h) h.fits hpos hlt
  have hcells : out.shape.prod = (outDims tbl.shape idx.shape (axisOf tbl extra param)).prod :=
    h.cells
  obtain ⟨y, hy, -⟩ := gathers_run h (fun _ => 0) hg (count_indicator h.fits 0)
    (List.length_replicate (a := (0 : ℤ)))
  rw [map_u32_five htne htable, map_u32_five (index_ne_nil h) hindex, elemsOf_eq (by omega),
    hcells, u32_of_lt (by omega)] at hy
  obtain ⟨-, hread⟩ := fillLoop_range_inv (fun j _ c hc => gatherCell_place hc) hy
  obtain ⟨v, hv, -⟩ := hread 0 hpos
  rw [gatherCell, walk_frame hw htlen hxlen hmoved (by omega) (by omega)] at hv
  replace hv : (indexCoords _ _ _ (five _ _ _ 0) >>= _) = Except.ok (0, v) := hv
  rw [bind_eq_ok] at hv
  obtain ⟨cs, hcs, -⟩ := hv
  exact indexCoords_ne_ok hx0 (by rw [length_five]; omega) cs hcs

include h hw hpos hlt in
theorem ones_of_gathers (hg : Gathers w tbl idx out extra param (axisOf tbl extra param))
    (hdrop : ¬axisOf tbl extra param < dropped tbl.shape)
    (hrow : tbl.shape.getD (axisOf tbl extra param) 1 ≠ 0) :
    ∀ d ∈ (outDims (dropOnes 1 tbl.shape) (dropOnes 1 idx.shape)
      (movedAxis tbl.shape (axisOf tbl extra param))).drop 5, d = 1 := by
  have hroom := room_of_gathers h hw hpos hlt hg hdrop
  obtain ⟨htlen, hx0, hxlen⟩ := length_compact h
  have htne := table_ne_nil h
  have hxne := index_ne_nil h
  have ha := axisOf_lt h
  have hmovedlt := movedAxis_lt htne ha
  have hprod := prod_stays htne hxne (Nat.le_of_not_lt hdrop)
  obtain ⟨-, hrowEq, hback⟩ := stays htne (Nat.le_of_not_lt hdrop)
  have hsize := size_moved_lt h hpos hlt
  have hlost := drop_outDims hmovedlt hroom
  have hdvd : ((outDims (dropOnes 1 tbl.shape) (dropOnes 1 idx.shape)
      (movedAxis tbl.shape (axisOf tbl extra param))).drop 5).prod ∣ 1 := by
    by_cases hi : 1 < (tbl.shape.drop (axisOf tbl extra param + 1)).prod
    · have hrun := firstRows h hpos hlt hg (Nat.pos_of_ne_zero hrow) hi
      rw [← prod_dropOnes hxne] at hrun
      rw [hrowEq] at hrow
      have hin := firstRow_within hx0 hmovedlt hroom (by omega) (Nat.pos_of_ne_zero hrow) 1
        (fun hmoved => secondCell_lt htne ha hmoved (by omega))
      have hplace := firstRow_place hw htlen hxlen hmovedlt hroom (by omega) (by omega) hsize h.fits
        (prod_dropOnes htne).symm (Nat.pos_of_ne_zero hrow) rfl hin hrun
      have hdvd := firstRow_dvd hx0 hmovedlt hroom 1
      rw [hplace] at hdvd
      exact hdvd
    · have hone : (tbl.shape.drop (axisOf tbl extra param + 1)).prod = 1 := by
        have := Nat.pos_of_mul_pos_left (prod_outDims tbl.shape idx.shape _ ▸ hpos)
        omega
      have hdvd : ((tbl.shape.drop (axisOf tbl extra param + 1)).drop
          (5 - (movedAxis tbl.shape (axisOf tbl extra param) + (dropOnes 1 idx.shape).length))).prod ∣
          (tbl.shape.drop (axisOf tbl extra param + 1)).prod :=
        ⟨_, (List.prod_take_mul_prod_drop _ _).symm.trans (Nat.mul_comm _ _)⟩
      rw [hone] at hdvd
      rw [hlost, ← hback]
      exact hdvd
  exact fun d hd => Nat.dvd_one.mp ((List.dvd_prod hd).trans hdvd)

include h in
theorem fits_of_gathers
    (hpos : 0 < (outDims tbl.shape idx.shape (axisOf tbl extra param)).prod)
    (hg : Gathers w tbl idx out extra param (axisOf tbl extra param)) :
    2 * (outDims tbl.shape idx.shape (axisOf tbl extra param)).prod < 2 ^ 32 := by
  obtain ⟨y, hy, hval⟩ := gathers_run h (fun _ => 0) hg (count_indicator h.fits 0)
    (List.length_replicate (a := (0 : ℤ)))
  have hlen := length_lt_of_fill hy
  have hlast := coords_within (Nat.sub_one_lt (Nat.ne_of_gt hpos))
  obtain ⟨hP, hK, hQ, hcs⟩ := split_within (axisOf_lt h) hlast
  have hread := hval _ _ _ hP hK hQ
  rw [hcs, lin_coords (by omega)] at hread
  have := (List.getElem?_eq_some_iff.mp hread).1
  omega

end Condition

/-! ### Two tables -/

theorem rows_gatherable : Gatherable (OutputDef.matrix 3 2) (OutputDef.vector 2 0 4 0)
    (OutputDef.matrix 2 2) (readAxis (some 0) none) where
  table := by decide
  index := by decide
  low := by decide
  high := by decide
  cells := by decide
  fits := by decide

end Gehtp.Analysis.GatherReads
