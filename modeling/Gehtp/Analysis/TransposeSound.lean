import Gehtp.Model.TransposeOp

/-!
# A transpose moves every element to its place

Renumbering the axes leaves the layout of the input as it is, and the layout of the output too:
the axes that are dropped have size 1 in both. The device goes through the input in order; different
cells go to different places, so each cell of the output is written once, with the element whose
coordinates the permutation takes to it.
-/

set_option autoImplicit false

namespace Gehtp.Analysis.TransposeSound

open Lib Lib.RowMajor Model.OpGraph Model.DeviceTensor Model.TransposeOp

/-! ### The device -/

theorem unpackPerm_packPerm {np : List ℕ} (h : ∀ a ∈ np, a < 2 ^ 8) :
    unpackPerm (packPerm np) np.length = np := by
  unfold unpackPerm
  induction np with
  | nil => rfl
  | cons a np ih =>
    have ha : a < 2 ^ 8 := h a List.mem_cons_self
    rw [List.length_cons, List.range_succ_eq_map, List.map_cons, List.map_map]
    have hhead : packPerm (a :: np) / 2 ^ (8 * 0) % 2 ^ 8 = a := by
      rw [packPerm, Nat.mul_zero, Nat.pow_zero, Nat.div_one, Nat.add_mul_mod_self_left,
        Nat.mod_eq_of_lt ha]
    have htail : ∀ i, packPerm (a :: np) / 2 ^ (8 * (i + 1)) = packPerm np / 2 ^ (8 * i) := by
      intro i
      rw [packPerm, Nat.mul_add_one, Nat.pow_add, Nat.mul_comm (2 ^ (8 * i)),
        ← Nat.div_div_eq_div_mul, Nat.add_mul_div_left _ _ (Nat.two_pow_pos 8),
        Nat.div_eq_of_lt ha, Nat.zero_add]
    rw [hhead]
    congr 1
    refine Eq.trans (List.map_congr_left fun i _ => ?_)
      (ih fun b hb => h b (List.mem_cons_of_mem a hb))
    show packPerm (a :: np) / 2 ^ (8 * (i + 1)) % 2 ^ 8 = _
    rw [htail]

section Device

variable {nd np : List ℕ} {x : Tensor}

/-- The place in the output of the element at a place of the input. -/
def target (np nd : List ℕ) (t : ℕ) : ℕ := lin (pick np nd) (pick np (coords nd t))

theorem map_permDim (hperm : np.Perm (List.range nd.length)) :
    np.map (permDim nd) = pick np nd := by
  apply List.map_congr_left
  intro a ha
  have hlt := lt_of_mem_perm hperm ha
  rw [permDim, if_neg (by omega), List.getD_eq_getElem _ _ hlt, List.getD_eq_getElem _ _ hlt]

theorem permCoords_eq {ic p : List ℕ} (hp : ∀ a ∈ p, a < ic.length) :
    permCoords ic p = .ok (pick p ic) := by
  rw [permCoords, mapM_eq_ok, pick, List.forall₂_map_right_iff, List.forall₂_same]
  intro a ha
  rw [entryAt_eq_ok, List.getElem?_append_left (hp a ha), List.getD_eq_getElem _ _ (hp a ha),
    List.getElem?_eq_getElem]

theorem target_lt (hperm : np.Perm (List.range nd.length)) {t : ℕ} (ht : t < nd.prod) :
    target np nd t < nd.prod := by
  rw [← prod_pick hperm]
  exact lin_lt (pick_within (coords_within ht) fun a => lt_of_mem_perm hperm)

theorem target_injective (hperm : np.Perm (List.range nd.length)) {t t' : ℕ} (ht : t < nd.prod)
    (ht' : t' < nd.prod) (h : target np nd t = target np nd t') : t = t' := by
  have hin : ∀ a ∈ np, a < nd.length := fun a => lt_of_mem_perm hperm
  have hpick := lin_injective (pick_within (coords_within ht) hin)
    (pick_within (coords_within ht') hin) h
  have hcoords := pick_injective hperm (length_coords nd t) (length_coords nd t') hpick
  rw [← lin_coords ht, ← lin_coords ht', hcoords]

theorem Tensor.prod_lt (hx : x.count = nd.prod) : nd.prod < 2 ^ 31 := by
  have := x.fits
  unfold Tensor.count at hx
  omega

theorem transposeCell_eq (hperm : np.Perm (List.range nd.length)) (hx : x.count = nd.prod) {t : ℕ}
    (ht : t < nd.prod) :
    transposeCell nd np x t = .ok (target np nd t, x.data.getD t 0) := by
  have hlt := Tensor.prod_lt hx
  have hpos : 0 < nd.prod := Nat.zero_lt_of_lt ht
  have hout : (pick np nd).prod = nd.prod := prod_pick hperm
  have hwalk : walk (strides32 nd) (u32 t) = .ok (coords nd t) := by
    rw [strides32_eq hpos (by omega), walk_strides hpos, u32_of_lt (by omega)]
  have hpick : permCoords (coords nd t) np = .ok (pick np (coords nd t)) := by
    apply permCoords_eq
    intro a ha
    rw [length_coords]
    exact lt_of_mem_perm hperm ha
  have hload : x.load t = .ok (x.data.getD t 0) := by
    rw [Tensor.load, entryAt_eq_ok, List.getD_eq_getElem _ _ (by unfold Tensor.count at hx; omega),
      List.getElem?_eq_getElem]
  have haddr : address32 (strides32 (pick np nd)) (pick np (coords nd t)) = target np nd t := by
    rw [strides32_eq (by omega) (by omega)]
    exact address32_strides (pick_within (coords_within ht) fun a => lt_of_mem_perm hperm)
      (by omega)
  rw [transposeCell, hwalk]
  show (permCoords (coords nd t) np >>= _) = _
  rw [hpick]
  show (x.load t >>= _) = _
  rw [hload, map_permDim hperm, ← haddr]
  rfl

theorem execTransposeGen_moves (old : ℕ → UInt16) (hperm : np.Perm (List.range nd.length))
    (hrk : 2 ≤ nd.length) (hrk' : nd.length ≤ 4) (hx : x.count = nd.prod) :
    ∃ y, execTransposeGen ⟨nd.length, nd ++ List.replicate (4 - nd.length) 1, packPerm np⟩ x old =
      .ok y ∧ y.length = nd.prod ∧ ∀ t < nd.prod, y[target np nd t]? = x.data[t]? := by
  have hlt := Tensor.prod_lt hx
  have hbytes : ∀ a ∈ np, a < 2 ^ 8 := by
    intro a ha
    have := lt_of_mem_perm hperm ha
    omega
  have hlen : (tempGet old (nd.prod * 2)).length = nd.prod := length_tempGet_of_lt old (by omega)
  have hcell : ∀ t ∈ List.range nd.prod,
      transposeCell nd np x t = .ok (target np nd t, x.data.getD t 0) := fun t ht =>
    transposeCell_eq hperm hx (List.mem_range.mp ht)
  have hpos : ∀ t ∈ List.range nd.prod, target np nd t < (tempGet old (nd.prod * 2)).length := by
    intro t ht
    rw [hlen]
    exact target_lt hperm (List.mem_range.mp ht)
  have hdiff : ((List.range nd.prod).map (target np nd)).Nodup :=
    List.Nodup.map_on (fun t ht t' ht' h =>
      target_injective hperm (List.mem_range.mp ht) (List.mem_range.mp ht') h) List.nodup_range
  obtain ⟨y, hrun, hlen', hval, -⟩ := fillLoop_eq_ok _ _ hcell hpos hdiff
  refine ⟨y, ?_, hlen'.trans hlen, fun t ht => ?_⟩
  · rw [execTransposeGen, if_neg (by
      show ¬(nd.length < 2 ∨ 4 < nd.length)
      omega)]
    show fillLoop (transposeCell ((nd ++ _).take nd.length)
      (unpackPerm (packPerm np) nd.length) x) (List.range ((nd ++ _).take nd.length).prod)
      (tempGet old (((nd ++ _).take nd.length).prod * 2)) = _
    rw [List.take_left, ← length_perm hperm, unpackPerm_packPerm hbytes]
    exact hrun
  · rw [hval t (List.mem_range.mpr ht), List.getD_eq_getElem _ _ (by
      unfold Tensor.count at hx
      omega), List.getElem?_eq_getElem]

end Device

/-! ### The axes that stay -/

/-- The coordinates of the axes that stay. -/
def keptCoords (fold : Bool) (ds cs : List ℕ) : List ℕ := if fold then squeeze ds cs else cs

/-- The new number of an axis, if it stays. -/
def newAxis (fold : Bool) (ds : List ℕ) (a : ℕ) : Option ℕ := (keepFrom fold 0 ds).getD a none

section Kept

variable {fold : Bool} {d c : ℕ} {ds cs : List ℕ}

theorem keptDims_drop (hd : fold ∧ d = 1) : keptDims fold (d :: ds) = keptDims fold ds := by
  obtain ⟨rfl, rfl⟩ := hd
  rfl

theorem keptDims_stay (hd : ¬(fold ∧ d = 1)) :
    keptDims fold (d :: ds) = d :: keptDims fold ds := by
  apply List.filter_cons_of_pos
  cases fold with
  | false => rfl
  | true =>
    have hd' : d ≠ 1 := fun h => hd ⟨rfl, h⟩
    rw [decide_eq_false hd']
    rfl

theorem keptCoords_drop (hd : fold ∧ d = 1) :
    keptCoords fold (d :: ds) (c :: cs) = keptCoords fold ds cs := by
  obtain ⟨rfl, rfl⟩ := hd
  rfl

theorem keptCoords_stay (hd : ¬(fold ∧ d = 1)) :
    keptCoords fold (d :: ds) (c :: cs) = c :: keptCoords fold ds cs := by
  cases fold with
  | false => rfl
  | true => exact squeeze_cons (fun h => hd ⟨rfl, h⟩) ds c cs

theorem keptDims_false (ds : List ℕ) : keptDims false ds = ds :=
  List.filter_eq_self.mpr fun _ _ => rfl

theorem keptDims_true (ds : List ℕ) : keptDims true ds = ds.filter (· ≠ 1) :=
  List.filter_congr fun d _ => by simp

theorem prod_keptDims (fold : Bool) (ds : List ℕ) : (keptDims fold ds).prod = ds.prod := by
  cases fold with
  | false => rw [keptDims_false]
  | true => rw [keptDims_true, prod_filter_ne_one]

theorem lin_kept (fold : Bool) (h : Within cs ds) :
    lin (keptDims fold ds) (keptCoords fold ds cs) = lin ds cs := by
  cases fold with
  | false =>
    rw [keptDims_false]
    rfl
  | true =>
    rw [keptDims_true]
    exact lin_squeeze h

theorem kept_within (h : Within cs ds) : Within (keptCoords fold ds cs) (keptDims fold ds) := by
  cases fold with
  | false =>
    rw [keptDims_false]
    exact h
  | true =>
    rw [keptDims_true]
    exact squeeze_within h

@[simp] theorem length_keepFrom (fold : Bool) (k : ℕ) (ds : List ℕ) :
    (keepFrom fold k ds).length = ds.length := by
  induction ds generalizing k with
  | nil => rfl
  | cons d ds ih =>
    rw [keepFrom]
    split
    · rw [List.length_cons, ih, List.length_cons]
    · rw [List.length_cons, ih, List.length_cons]

theorem filterMap_keepFrom (fold : Bool) (k : ℕ) (ds : List ℕ) :
    (keepFrom fold k ds).filterMap id = List.range' k (keptDims fold ds).length := by
  induction ds generalizing k with
  | nil => rfl
  | cons d ds ih =>
    by_cases hd : fold ∧ d = 1
    · rw [keepFrom, if_pos hd, List.filterMap_cons_none rfl, ih, keptDims_drop hd]
    · rw [keepFrom, if_neg hd, List.filterMap_cons_some (f := id) (b := k) rfl, ih,
        keptDims_stay hd, List.length_cons, List.range'_succ]

theorem keepFrom_spec (fold : Bool) (h : Within cs ds) (k : ℕ) {a : ℕ} (ha : a < ds.length) :
    (∃ j, (keepFrom fold k ds).getD a none = some (k + j) ∧ ¬(fold ∧ ds.getD a 0 = 1) ∧
      (keptDims fold ds).getD j 0 = ds.getD a 0 ∧ (keptCoords fold ds cs).getD j 0 = cs.getD a 0) ∨
    ((keepFrom fold k ds).getD a none = none ∧ fold ∧ ds.getD a 0 = 1) := by
  induction h generalizing a k with
  | nil => exact absurd ha (Nat.not_lt_zero a)
  | @cons c d cs ds hc hcs ih =>
    by_cases hd : fold ∧ d = 1
    · rw [keepFrom, if_pos hd, keptDims_drop hd, keptCoords_drop hd]
      cases a with
      | zero => exact Or.inr ⟨rfl, hd⟩
      | succ a => exact ih k (Nat.lt_of_succ_lt_succ ha)
    · rw [keepFrom, if_neg hd, keptDims_stay hd, keptCoords_stay hd]
      cases a with
      | zero => exact Or.inl ⟨0, rfl, hd, rfl, rfl⟩
      | succ a =>
        obtain ⟨j, hj, hrest⟩ | hnone := ih (k + 1) (Nat.lt_of_succ_lt_succ ha)
        · refine Or.inl ⟨j + 1, ?_, hrest⟩
          rw [List.getD_cons_succ, hj]
          congr 1
          omega
        · exact Or.inr hnone

theorem kept_pick {perm : List ℕ} (h : Within cs ds) (hperm : ∀ a ∈ perm, a < ds.length) :
    keptDims fold (pick perm ds) = pick (perm.filterMap (newAxis fold ds)) (keptDims fold ds) ∧
    keptCoords fold (pick perm ds) (pick perm cs) =
      pick (perm.filterMap (newAxis fold ds)) (keptCoords fold ds cs) := by
  induction perm with
  | nil =>
    constructor
    · rfl
    · cases fold with
      | false => rfl
      | true => rfl
  | cons a perm ih =>
    obtain ⟨ihd, ihc⟩ := ih fun b hb => hperm b (List.mem_cons_of_mem a hb)
    rw [pick_cons, pick_cons]
    obtain ⟨j, hj, hstay, hdim, hcoord⟩ | ⟨hnone, hdrop⟩ :=
      keepFrom_spec fold h 0 (hperm a List.mem_cons_self)
    · rw [Nat.zero_add] at hj
      replace hj : newAxis fold ds a = some j := hj
      rw [keptDims_stay hstay, keptCoords_stay hstay, List.filterMap_cons_some hj, pick_cons,
        pick_cons, ihd, ihc, hdim, hcoord]
      exact ⟨rfl, rfl⟩
    · replace hnone : newAxis fold ds a = none := hnone
      rw [keptDims_drop hdrop, keptCoords_drop hdrop, List.filterMap_cons_none hnone]
      exact ⟨ihd, ihc⟩

theorem filterMap_newAxis_perm (fold : Bool) {perm : List ℕ}
    (hperm : perm.Perm (List.range ds.length)) :
    (perm.filterMap (newAxis fold ds)).Perm (List.range (keptDims fold ds).length) := by
  have hall : (List.range ds.length).filterMap (newAxis fold ds) =
      List.range (keptDims fold ds).length := by
    have hmap : (List.range ds.length).map (newAxis fold ds) = keepFrom fold 0 ds := by
      apply List.ext_getElem
      · rw [List.length_map, List.length_range, length_keepFrom]
      · intro i hi hi'
        rw [List.getElem_map, List.getElem_range, newAxis, List.getD_eq_getElem _ _ hi']
    calc (List.range ds.length).filterMap (newAxis fold ds)
        = ((List.range ds.length).map (newAxis fold ds)).filterMap id := by
          rw [List.filterMap_map]
          rfl
      _ = List.range (keptDims fold ds).length := by
          rw [hmap, filterMap_keepFrom, List.range_eq_range']
  rw [← hall]
  exact hperm.filterMap _

end Kept

/-! ### Emission -/

section Emission

theorem renumber_eq_some {keep : List (Option ℕ)} {np r : List ℕ} {perm : List ℕ}
    (hlt : ∀ a ∈ perm, a < keep.length)
    (h : renumber keep np (perm.map Int.ofNat) = some r) :
    ∃ rest, np ++ perm.filterMap (fun a => keep.getD a none) = r ++ rest := by
  induction perm generalizing np with
  | nil =>
    cases h
    exact ⟨[], rfl⟩
  | cons a perm ih =>
    have ha : a < keep.length := hlt a List.mem_cons_self
    have hkept : keptAxis keep (Int.ofNat a) = some (keep.getD a none) := by
      have hneg : ¬Int.ofNat a < 0 := Int.not_lt.mpr (Int.natCast_nonneg a)
      rw [keptAxis, if_neg hneg, List.getD_eq_getElem _ _ ha]
      exact List.getElem?_eq_getElem ha
    rw [List.map_cons, renumber] at h
    split at h
    · cases h
      exact ⟨_, rfl⟩
    · rw [hkept] at h
      have ih' : ∀ np', renumber keep np' (perm.map Int.ofNat) = some r →
          ∃ rest, np' ++ perm.filterMap (fun a => keep.getD a none) = r ++ rest :=
        fun np' => ih fun b hb => hlt b (List.mem_cons_of_mem a hb)
      cases hk : keep.getD a none with
      | none =>
        rw [hk] at h
        rw [List.filterMap_cons_none (f := fun a => keep.getD a none) hk]
        exact ih' np h
      | some k =>
        rw [hk] at h
        rw [List.filterMap_cons_some (f := fun a => keep.getD a none) hk]
        obtain ⟨rest, hrest⟩ := ih' (np ++ [k]) h
        exact ⟨rest, by rw [← hrest, List.append_assoc, List.singleton_append]⟩

variable {dims perm : List ℕ} {args : TransposeArgs}

theorem encode_eq_ok (hperm : perm.Perm (List.range perm.length))
    (h : encode dims (perm.map Int.ofNat) = .ok args) :
    ∃ fold j, (dims.drop j).length = perm.length ∧ (∀ d ∈ dims.take j, d = 1) ∧
      (keptDims fold (dims.drop j)).length ≤ 4 ∧
      args = ⟨(keptDims fold (dims.drop j)).length, keptDims fold (dims.drop j) ++
        List.replicate (4 - (keptDims fold (dims.drop j)).length) 1,
        packPerm (perm.filterMap (newAxis fold (dims.drop j)))⟩ := by
  obtain ⟨j, hj, hones⟩ := dropOnes_eq_drop perm.length dims
  unfold encode at h
  rw [List.length_map, hj] at h
  by_cases hlen : (dims.drop j).length = perm.length
  · rw [if_neg (by omega)] at h
    set fold := decide (4 < (dims.drop j).length)
    set ds := dims.drop j
    refine ⟨fold, j, hlen, hones, ?_⟩
    by_cases hrk : 4 < (keptDims fold ds).length
    · rw [if_pos hrk] at h
      cases h
    · rw [if_neg hrk] at h
      have hperm' : perm.Perm (List.range ds.length) := hlen ▸ hperm
      cases hnp : renumber (keepFrom fold 0 ds) [] (perm.map Int.ofNat) with
      | none =>
        rw [hnp] at h
        cases h
      | some np =>
        simp only [hnp] at h
        by_cases hnpl : np.length = (keptDims fold ds).length
        · obtain ⟨rest, hrest⟩ := renumber_eq_some (fun a ha => by
            rw [length_keepFrom]
            exact lt_of_mem_perm hperm' ha) hnp
          have hfull := length_perm (filterMap_newAxis_perm fold hperm')
          have heq : np = perm.filterMap (newAxis fold ds) := by
            have hrest' : perm.filterMap (newAxis fold ds) = np ++ rest := hrest
            rw [hrest', List.length_append] at hfull
            rw [hrest', List.length_eq_zero_iff.mp (by omega : rest.length = 0), List.append_nil]
          rw [if_neg (not_not.mpr hnpl), heq] at h
          cases h
          exact ⟨Nat.le_of_not_lt hrk, rfl⟩
        · rw [if_pos hnpl] at h
          cases h
  · rw [if_pos hlen] at h
    cases h

theorem encode_error {s : Stop String} {pv : List ℤ} (h : encode dims pv = .error s) :
    ∃ e, s = .reject e := by
  simp only [encode] at h
  split at h
  · cases h
    exact ⟨_, rfl⟩
  · split at h
    · cases h
      exact ⟨_, rfl⟩
    · split at h
      · cases h
        exact ⟨_, rfl⟩
      · split at h
        · cases h
          exact ⟨_, rfl⟩
        · cases h

theorem opTranspose_eq (src out : OutputDef) {perm : List ℕ} (hne : perm ≠ []) :
    (∃ e, opTranspose (some src) (some (perm.map Int.ofNat)) out = .error (.reject e)) ∨
    opTranspose (some src) (some (perm.map Int.ofNat)) out =
      encode (src.shape.map u32) (perm.map Int.ofNat) := by
  obtain ⟨a, perm, rfl⟩ := List.exists_cons_of_ne_nil hne
  rw [opTranspose]
  by_cases hrk : 5 < src.rank
  · rw [if_pos hrk]
    exact Or.inl ⟨_, rfl⟩
  · rw [if_neg hrk, List.map_cons, readPerm]
    by_cases hlen : 5 < (Int.ofNat a :: perm.map Int.ofNat).length
    · rw [if_pos hlen]
      exact Or.inl ⟨_, rfl⟩
    · rw [if_neg hlen]
      exact Or.inr rfl

end Emission

/-! ### The whole operator -/

section Whole

/-- The shape of the output: the axes in front that the permutation does not number have size 1 and
are left out. -/
def outShape (src : OutputDef) (perm : List ℕ) : List ℕ :=
  pick perm (src.shape.drop (src.shape.length - perm.length))

/-- The output `y` holds at every place the element of the input `x` that the permutation takes
there. -/
def Moved (src : OutputDef) (perm : List ℕ) (x : Tensor) (y : List UInt16) : Prop :=
  y.length = (outShape src perm).prod ∧
  ∀ o, Within o (outShape src perm) → ∃ c, Within c src.shape ∧
    pick perm (c.drop (src.shape.length - perm.length)) = o ∧
    y[lin (outShape src perm) o]? = x.data[lin src.shape c]?

variable {src : OutputDef} {perm : List ℕ} {x : Tensor}

theorem moved_of_kept {fold : Bool} {j : ℕ} {y : List UInt16}
    (hperm : perm.Perm (List.range perm.length))
    (hlen : (src.shape.drop j).length = perm.length) (hj : j ≤ src.shape.length)
    (hones : ∀ d ∈ src.shape.take j, d = 1)
    (hylen : y.length = (keptDims fold (src.shape.drop j)).prod)
    (hy : ∀ t < (keptDims fold (src.shape.drop j)).prod,
      y[target (perm.filterMap (newAxis fold (src.shape.drop j)))
        (keptDims fold (src.shape.drop j)) t]? = x.data[t]?) :
    Moved src perm x y := by
  have hfront : src.shape.length - perm.length = j := by
    rw [← hlen, List.length_drop]
    omega
  unfold Moved outShape
  rw [hfront]
  set ds := src.shape.drop j
  have hperm' : perm.Perm (List.range ds.length) := hlen ▸ hperm
  rw [prod_keptDims] at hylen hy
  refine ⟨by rw [hylen, prod_pick hperm'], fun o ho => ?_⟩
  -- the cell of the input, without and with the axes in front
  have hcs : Within (unpick perm o) ds := unpick_within hperm' ho
  have hback : pick perm (unpick perm o) = o :=
    pick_unpick hperm' (by rw [ho.length_eq, length_pick, hlen])
  have hc := within_front hj hones hcs
  have hdrop : (List.replicate j 0 ++ unpick perm o).drop j = unpick perm o :=
    List.drop_left' List.length_replicate
  refine ⟨_, hc, by rw [hdrop, hback], ?_⟩
  have hin : ∀ a ∈ perm, a < ds.length := fun a => lt_of_mem_perm hperm'
  have hlin := lin_kept fold hcs
  have hout := lin_kept fold (pick_within hcs hin)
  rw [(kept_pick hcs hin).1, (kept_pick hcs hin).2, hback] at hout
  have ht := hy (lin ds (unpick perm o)) (lin_lt hcs)
  rw [target, ← hlin, coords_lin (kept_within hcs), hout, hlin] at ht
  rw [lin_drop_ones hc hones, hdrop]
  exact ht

theorem moved_of_empty {j : ℕ} {y : List UInt16} (hperm : perm.Perm (List.range perm.length))
    (hlen : ((src.shape.map u32).drop j).length = perm.length) (hj : j ≤ src.shape.length)
    (hones : ∀ d ∈ (src.shape.map u32).take j, d = 1) (hzero : src.shape.prod = 0)
    (hylen : y.length = 0) : Moved src perm x y := by
  rw [List.length_drop, List.length_map] at hlen
  have hfront : src.shape.length - perm.length = j := by omega
  have hlen' : (src.shape.drop j).length = perm.length := by
    rw [List.length_drop]
    exact hlen
  have hout : (outShape src perm).prod = 0 := by
    rw [outShape, hfront, prod_pick (hlen' ▸ hperm)]
    apply List.prod_eq_zero
    have hmem : 0 ∈ src.shape.take j ++ src.shape.drop j := by
      rw [List.take_append_drop]
      exact List.prod_eq_zero_iff.mp hzero
    cases List.mem_append.mp hmem with
    | inl hfirst =>
      have h0 : u32 0 ∈ (src.shape.map u32).take j := by
        rw [← List.map_take]
        exact List.mem_map_of_mem hfirst
      exact absurd (hones _ h0) (by decide)
    | inr hrest => exact hrest
  refine ⟨hylen.trans hout.symm, fun o ho => ?_⟩
  have := ho.prod_pos
  omega

end Whole

end Gehtp.Analysis.TransposeSound
