import Gehtp.Model.AxisRows
import Gehtp.Analysis.HostRows

/-!
# CumulativeSum and Softmax along the requested axis

Both operators go through rows that lie one behind the other. The width of a row is the size of the
axis, or of the last axis if the axis is negative. So the rows are the elements along the requested
axis only if all axes behind it have size 1, or if there is nothing to combine at all.
-/

set_option autoImplicit false

namespace Gehtp.Analysis.AxisChains

open Lib Lib.RowMajor Model.OpGraph Model.DeviceTensor Model.AxisRows
open Analysis.HostRows (row_lt prod_axis lin_axis mapM_of_ok)

variable {F : Type} (ops : FloatOps F)

/-! ### One row -/

section Kernels

/-- Element `a` of the cumulative sum of a row: the elements in front of it, or with `reverse` behind
it, are added one after the other. -/
def cumsumAt (exclusive reverse : ℕ) (row : List UInt16) (a : ℕ) : UInt16 :=
  let passed := if reverse ≠ 0 then (row.drop (a + 1)).reverse else row.take a
  let acc := passed.foldl (fun acc h => ops.add acc (ops.widen h)) ops.zero
  ops.narrow (if exclusive ≠ 0 then acc else ops.add acc (ops.widen (row.getD a 0)))

/-- Element `a` of the softmax of a row, with the vector unit or without. -/
def softmaxAt (hvx : Bool) (row : List UInt16) (a : ℕ) : UInt16 :=
  if hvx then ops.narrow (ops.hvxSoftmax (row.map ops.widen) a)
  else
    let mx := row.tail.foldl (fun mx h => ops.max mx (ops.widen h)) (ops.widen (row.headD 0))
    let e := fun h => ops.exp (ops.sub (ops.widen h) mx)
    let sum := row.foldl (fun sum h => ops.add sum (e h)) ops.zero
    ops.narrow (ops.div (ops.widen (ops.narrow (e (row.getD a 0)))) sum)

/-- The `n` elements of a tensor at the places that `f` gives. -/
def gatherRow (x : Tensor) (n : ℕ) (f : ℕ → ℕ) : List UInt16 :=
  (List.range n).map fun i => x.data.getD (f i) 0

end Kernels

variable {a r i m : ℕ} {l : List ℕ}

section Rows

variable {x : Tensor} {n : ℕ} {f : ℕ → ℕ}

@[simp] theorem length_gatherRow : (gatherRow x n f).length = n := by
  rw [gatherRow, List.length_map, List.length_range]

theorem gatherRow_getD (ha : a < n) : (gatherRow x n f).getD a 0 = x.data.getD (f a) 0 := by
  rw [List.getD_eq_getElem _ _ (by rwa [length_gatherRow])]
  unfold gatherRow
  rw [List.getElem_map, List.getElem_range]

theorem take_gatherRow (ha : a ≤ n) :
    (gatherRow x n f).take a = (List.range a).map fun i => x.data.getD (f i) 0 := by
  rw [gatherRow, ← List.map_take, List.take_range, Nat.min_eq_left ha]

theorem passed_gatherRow (reverse : ℕ) (ha : a ≤ n) :
    (if reverse ≠ 0 then ((gatherRow x n f).drop (a + 1)).reverse else (gatherRow x n f).take a) =
      (if reverse ≠ 0 then ((List.range n).drop (a + 1)).reverse else List.range a).map fun i =>
        x.data.getD (f i) 0 := by
  split
  · rw [gatherRow, ← List.map_drop, List.map_reverse]
  · exact take_gatherRow ha

theorem gatherRow_congr {g : ℕ → ℕ} (h : ∀ i < n, f i = g i) : gatherRow x n f = gatherRow x n g := by
  apply List.map_congr_left
  intro i hi
  rw [h i (List.mem_range.mp hi)]

end Rows

/-! ### What the device computes -/

section Device

variable {x : Tensor} {rows w : ℕ} {y : List UInt16}

/-- Each row of `w` elements holds the results of the row of the input. -/
def RowsWritten (K : List UInt16 → ℕ → UInt16) (x : Tensor) (rows w : ℕ) (y : List UInt16) : Prop :=
  ∀ r < rows, ∀ i < w, y[r * w + i]? = some (K (gatherRow x w fun k => r * w + k) i)

theorem load_row (hcount : x.count = rows * w) (hr : r < rows) (hi : i < w) :
    x.load (r * w + i) = .ok (x.data.getD (r * w + i) 0) := by
  have hlt : r * w + i < x.data.length := by
    rw [show x.data.length = rows * w from hcount]
    exact row_lt hr hi
  rw [load_eq_ok, List.getD_eq_getElem _ _ hlt]
  exact List.getElem?_eq_getElem hlt

theorem u32_row (hcount : x.count = rows * w) (hr : r < rows) (hi : i < w) :
    u32 (r * w + i) = r * w + i := by
  have hfits := x.fits
  have hlt := row_lt hr hi
  rw [← hcount] at hlt
  unfold Tensor.count at hlt
  exact u32_of_lt (by omega)

theorem width_lt (hcount : x.count = rows * w) (hr : r < rows) : w < 2 ^ 31 := by
  have hfits := x.fits
  have hle : w ≤ rows * w := Nat.le_mul_of_pos_left w (Nat.zero_lt_of_lt hr)
  rw [← hcount] at hle
  unfold Tensor.count at hle
  omega

theorem order_spec {n : ℕ} (reverse : ℕ) (hn : n < 2 ^ 31) :
    (order reverse n).Perm (List.range n) := by
  unfold order
  rw [if_pos hn]
  split
  · exact List.reverse_perm _
  · exact List.Perm.refl _

theorem order_split {n : ℕ} (reverse : ℕ) (hn : n < 2 ^ 31) (ha : a < n) :
    ∃ todo, order reverse n =
      (if reverse ≠ 0 then ((List.range n).drop (a + 1)).reverse else List.range a) ++ a :: todo := by
  have hsplit : List.range n = List.range a ++ a :: (List.range n).drop (a + 1) := by
    have hcut := List.take_append_drop a (List.range n)
    rw [List.take_range, Nat.min_eq_left ha.le, List.drop_eq_getElem_cons (by rwa [List.length_range]),
      List.getElem_range] at hcut
    exact hcut.symm
  unfold order
  rw [if_pos hn]
  split
  · refine ⟨(List.range a).reverse, ?_⟩
    conv_lhs => rw [hsplit]
    rw [List.reverse_append, List.reverse_cons, List.append_assoc, List.singleton_append]
  · exact ⟨_, hsplit⟩

theorem diff_row (r w : ℕ) (l : List ℕ) (hl : l.Perm (List.range w)) :
    (l.map fun i => r * w + i).Nodup :=
  (List.nodup_map_iff fun _ _ h => Nat.add_left_cancel h).mpr (hl.nodup_iff.mpr List.nodup_range)

theorem not_mem_row {w j : ℕ} (hl : l.Perm (List.range w)) (hj : j < r * w ∨ (r + 1) * w ≤ j) :
    j ∉ l.map fun i => r * w + i := by
  intro hmem
  obtain ⟨i, hi, rfl⟩ := List.mem_map.mp hmem
  rw [hl.mem_iff, List.mem_range] at hi
  rw [Nat.succ_mul] at hj
  omega

theorem execCumsum_rows (args : CumsumArgs) (hcount : x.count = args.rows * args.n)
    (old : ℕ → UInt16) :
    ∃ y, execCumsum ops args x old = .ok y ∧
      RowsWritten (cumsumAt ops args.exclusive args.reverse) x args.rows args.n y := by
  have hfits := x.fits
  have hlen := length_tempGet_of_lt old (n := args.rows * args.n) (by
    rw [← hcount]
    exact hfits)
  obtain ⟨y, hrun, -, hval⟩ := rowLoop_eq_ok (m := args.rows) (w := args.n)
    (fun y r => (carryLoop (cumsumCell ops args.exclusive args.n x r)
      (order args.reverse args.n) ops.zero y).map Prod.snd)
    (fun r i => cumsumAt ops args.exclusive args.reverse
      (gatherRow x args.n fun k => r * args.n + k) i) hlen.ge (by
    intro r hr z hz
    have hn := width_lt hcount hr
    have hperm := order_spec args.reverse hn
    have hin (i : ℕ) (hi : i ∈ order args.reverse args.n) : i < args.n := by
      rwa [hperm.mem_iff, List.mem_range] at hi
    obtain ⟨z', hrow, hzlen, hcell, hrest⟩ := carryLoop_eq_ok (ε := String) (y := z)
      (cumsumCell ops args.exclusive args.n x r)
      (fun acc i => ops.add acc (ops.widen (x.data.getD (r * args.n + i) 0)))
      (fun i => r * args.n + i)
      (fun acc i => ops.narrow (if args.exclusive ≠ 0 then acc
        else ops.add acc (ops.widen (x.data.getD (r * args.n + i) 0)))) ops.zero
      (fun acc i hi => by
        rw [cumsumCell, u32_row hcount hr (hin i hi)]
        show (x.load (r * args.n + i) >>= _) = _
        rw [load_row hcount hr (hin i hi)]
        rfl)
      (fun i hi => by
        rw [hz, hlen]
        exact row_lt hr (hin i hi)) (diff_row r args.n _ hperm)
    refine ⟨z', ?_, hzlen, ?_, fun j hj => hrest j (not_mem_row hperm hj)⟩
    · show ((carryLoop _ _ _ _).map Prod.snd) = _
      rw [hrow]
      rfl
    · intro i hi
      obtain ⟨todo, hsplit⟩ := order_split args.reverse hn hi
      rw [hcell _ _ _ hsplit, cumsumAt, gatherRow_getD hi, passed_gatherRow args.reverse hi.le,
        List.foldl_map])
  exact ⟨y, hrun, hval⟩

theorem rowMax_row (hcount : x.count = rows * w) (hr : r < rows) (hw : 0 < w) :
    rowMax ops x r w = .ok ((gatherRow x w fun k => r * w + k).tail.foldl
      (fun mx h => ops.max mx (ops.widen h))
      (ops.widen ((gatherRow x w fun k => r * w + k).headD 0))) := by
  obtain ⟨v, rfl⟩ : ∃ v, w = v + 1 := ⟨w - 1, by omega⟩
  have hrow : gatherRow x (v + 1) (fun k => r * (v + 1) + k) = x.data.getD (r * (v + 1)) 0 ::
      (List.range' 1 v).map fun i => x.data.getD (r * (v + 1) + i) 0 := by
    unfold gatherRow
    rw [List.range_eq_range', List.range'_succ, List.map_cons]
    rfl
  have hfold (is : List ℕ) (his : ∀ i ∈ is, i < v + 1) (mx : F) :
      is.foldlM (fun mx i => (x.load (r * (v + 1) + i)).map fun h => ops.max mx (ops.widen h)) mx =
        (.ok ((is.map fun i => x.data.getD (r * (v + 1) + i) 0).foldl
          (fun mx h => ops.max mx (ops.widen h)) mx) : Checked String F) := by
    induction is generalizing mx with
    | nil => rfl
    | cons i is ih =>
      rw [List.foldlM_cons, load_row hcount hr (his i List.mem_cons_self)]
      exact ih (fun j hj => his j (List.mem_cons_of_mem i hj)) _
  have hhead := load_row hcount hr (Nat.succ_pos v)
  rw [Nat.add_zero] at hhead
  rw [rowMax, hhead, hrow]
  apply hfold
  intro i hi
  rw [List.mem_range'_1] at hi
  omega

theorem softmaxRow_row (hcount : x.count = rows * w) (hr : r < rows) (hw : 0 < w)
    {z : List UInt16} (hz : z.length = rows * w) :
    ∃ z', softmaxRow ops x w z r = .ok z' ∧ z'.length = z.length ∧
      (∀ i < w, z'[r * w + i]? = some (softmaxAt ops false (gatherRow x w fun k => r * w + k) i)) ∧
      ∀ j, j < r * w ∨ (r + 1) * w ≤ j → z'[j]? = z[j]? := by
  have hperm := List.Perm.refl (List.range w)
  have hmax := rowMax_row ops hcount hr hw
  generalize hmx : (gatherRow x w fun k => r * w + k).tail.foldl
      (fun mx h => ops.max mx (ops.widen h))
      (ops.widen ((gatherRow x w fun k => r * w + k).headD 0)) = mx at hmax
  have hin (i : ℕ) (hi : i ∈ List.range w) : r * w + i < z.length := by
    rw [hz]
    exact row_lt hr (List.mem_range.mp hi)
  obtain ⟨z₁, hexp, hlen₁, hcell₁, hrest₁⟩ := carryLoop_eq_ok (ε := String) (y := z)
    (expCell ops x r w mx)
    (fun sum i => ops.add sum (ops.exp (ops.sub (ops.widen (x.data.getD (r * w + i) 0)) mx)))
    (fun i => r * w + i)
    (fun _ i => ops.narrow (ops.exp (ops.sub (ops.widen (x.data.getD (r * w + i) 0)) mx))) ops.zero
    (fun acc i hi => by
      rw [expCell, load_row hcount hr (List.mem_range.mp hi)]
      rfl) hin (diff_row r w _ hperm)
  generalize hsum : (List.range w).foldl (fun sum i =>
    ops.add sum (ops.exp (ops.sub (ops.widen (x.data.getD (r * w + i) 0)) mx))) ops.zero = sum at hexp
  obtain ⟨z₂, hdiv, hlen₂, hcell₂, hrest₂⟩ := updateLoop_eq_ok (ε := String)
    (fun h => ops.narrow (ops.div (ops.widen h) sum))
    ((List.range w).map fun i => r * w + i) (y := z₁) (fun j hj => by
      obtain ⟨i, hi, rfl⟩ := List.mem_map.mp hj
      rw [hlen₁]
      exact hin i hi) (diff_row r w _ hperm)
  refine ⟨z₂, ?_, hlen₂.trans hlen₁, ?_, ?_⟩
  · rw [softmaxRow, hmax]
    show (carryLoop (expCell ops x r w mx) (List.range w) ops.zero z >>= _) = _
    rw [hexp]
    exact hdiv
  · intro i hi
    have hmem : i ∈ List.range w := List.mem_range.mpr hi
    obtain ⟨todo, hsplit⟩ := order_split 0 (width_lt hcount hr) hi
    unfold order at hsplit
    rw [if_neg (by decide), if_neg (by decide)] at hsplit
    rw [hcell₂ _ (List.mem_map_of_mem hmem), hcell₁ _ _ _ hsplit, Option.map_some, softmaxAt,
      if_neg (by decide)]
    dsimp only
    rw [hmx, gatherRow_getD hi, ← hsum]
    congr 2
    rw [gatherRow, List.foldl_map]
  · intro j hj
    have hout := not_mem_row hperm hj
    rw [hrest₂ j hout, hrest₁ j hout]

theorem softmaxRows_rows (hcount : x.count = rows * w) (hw : 0 < w) (old : ℕ → UInt16) :
    ∃ y, (List.range rows).foldlM (softmaxRow ops x w) (tempGet old (rows * w * 2)) = .ok y ∧
      RowsWritten (softmaxAt ops false) x rows w y := by
  have hlen := length_tempGet_of_lt old (n := rows * w) (by
    rw [← hcount]
    exact x.fits)
  obtain ⟨y, hrun, -, hval⟩ := rowLoop_eq_ok (softmaxRow ops x w)
    (fun r i => softmaxAt ops false (gatherRow x w fun k => r * w + k) i) hlen.ge
    fun r hr z hz => softmaxRow_row ops hcount hr hw (hz.trans hlen)
  exact ⟨y, hrun, hval⟩

theorem hvx_rows (hcount : x.count = rows * w) (hw : 0 < w) (old : ℕ → UInt16) :
    ∃ y, fillLoop (hvxCell ops x w) (List.range (rows * w)) (tempGet old (rows * w * 2)) = .ok y ∧
      RowsWritten (softmaxAt ops true) x rows w y := by
  have hlen := length_tempGet_of_lt old (n := rows * w) (by
    rw [← hcount]
    exact x.fits)
  obtain ⟨y, hrun, -, hval⟩ := fillLoop_range (hvxCell ops x w)
    (fun k => softmaxAt ops true (gatherRow x w fun i => k / w * w + i) (k % w))
    (fun k hk => by
      have hr : k / w < rows := (Nat.div_lt_iff_lt_mul hw).mpr hk
      rw [hvxCell, mapM_of_ok fun i hi => load_row hcount hr (List.mem_range.mp hi)]
      rfl) hlen.ge
  refine ⟨y, hrun, fun r hr i hi => ?_⟩
  have hdiv : (r * w + i) / w = r := by
    rw [Nat.mul_comm, Nat.mul_add_div hw, Nat.div_eq_of_lt hi, Nat.add_zero]
  have hmod : (r * w + i) % w = i := by
    rw [Nat.mul_comm, Nat.mul_add_mod, Nat.mod_eq_of_lt hi]
  rw [hval _ (row_lt hr hi), hdiv, hmod]

theorem execSoftmax_rows (scratch : Bool) (args : SoftmaxArgs)
    (hcount : x.count = args.rows * args.n) (hn : 0 < args.n) (old : ℕ → UInt16) :
    ∃ y hvx, execSoftmax ops scratch args x old = .ok y ∧ (hvx = true → args.n % 32 = 0) ∧
      RowsWritten (softmaxAt ops hvx) x args.rows args.n y := by
  unfold execSoftmax
  cases htakes : takesHvx scratch args.rows args.n with
  | true =>
    have hmul : args.n % 32 = 0 := by
      unfold takesHvx at htakes
      simp only [Bool.and_eq_true, decide_eq_true_eq] at htakes
      exact htakes.1.1.2
    obtain ⟨y, hrun, hrows⟩ := hvx_rows ops hcount hn old
    exact ⟨y, true, hrun, fun _ => hmul, hrows⟩
  | false =>
    obtain ⟨y, hrun, hrows⟩ := softmaxRows_rows ops hcount hn old
    exact ⟨y, false, hrun, fun h => absurd h (by decide), hrows⟩

end Device

/-! ### What is emitted -/

section Emission

variable {before after : List ℕ} {n : ℕ} {e : ExtraAxis} {out : OutputDef}

/-- The axis is requested by its number, or counted from the end. -/
def Requested (before after : List ℕ) (n : ℕ) (e : ExtraAxis) (out : OutputDef) : Prop :=
  out.rank ≤ 5 ∧ out.shape = before ++ n :: after ∧
    (e.axis = before.length ∨ e.axis = -(after.length + 1 : ℤ))

/-- The size of the axis that the emitters use. -/
def usedWidth (after : List ℕ) (n : ℕ) (e : ExtraAxis) : ℕ :=
  if e.axis < 0 then (n :: after).getLastD 0 else n

theorem used_axis (h : Requested before after n e out) :
    axisOf e.axis out.rank < out.rank ∧
      out.dims.toList[axisOf e.axis out.rank]? = some (usedWidth after n e) := by
  obtain ⟨hrank, hshape, haxis⟩ := h
  have hlen : out.rank = before.length + (after.length + 1) := by
    have hlen := congrArg List.length hshape
    unfold OutputDef.shape at hlen
    rw [List.length_take, Vector.length_toList, List.length_append, List.length_cons,
      Nat.min_eq_left hrank] at hlen
    exact hlen
  have hget (ax : ℕ) (hax : ax < out.rank) :
      out.dims.toList[ax]? = (before ++ n :: after)[ax]? := by
    rw [← hshape, OutputDef.shape, List.getElem?_take_of_lt hax]
  unfold usedWidth axisOf
  cases haxis with
  | inl hfront =>
    have hneg : ¬e.axis < 0 := by omega
    rw [if_neg hneg, if_neg hneg, hfront, Int.toNat_natCast]
    have hlt : before.length < out.rank := by omega
    refine ⟨hlt, ?_⟩
    rw [hget _ hlt, List.getElem?_append_right le_rfl, Nat.sub_self, List.getElem?_cons_zero]
  | inr hback =>
    have hneg : e.axis < 0 := by omega
    have hlast : u32 (out.rank + (2 ^ 32 - 1)) = out.rank - 1 := by
      unfold u32
      omega
    rw [if_pos hneg, if_pos hneg, hlast]
    refine ⟨by omega, ?_⟩
    have hne : n :: after ≠ [] := List.cons_ne_nil n after
    have hidx : out.rank - 1 - before.length = (n :: after).length - 1 := by
      rw [List.length_cons]
      omega
    rw [hget _ (by omega), List.getElem?_append_right (by omega), hidx, ← List.getLast?_eq_getElem?,
      List.getLast?_eq_some_getLast hne, List.getLastD_eq_getLast?, List.getLast?_eq_some_getLast hne]
    rfl

theorem usedWidth_dvd (h : Requested before after n e out) :
    usedWidth after n e ∣ out.shape.prod := by
  obtain ⟨hlt, hget⟩ := used_axis h
  apply List.dvd_prod
  have hmem : out.shape[axisOf e.axis out.rank]? = some (usedWidth after n e) := by
    rw [OutputDef.shape, List.getElem?_take_of_lt hlt]
    exact hget
  exact List.mem_of_getElem? hmem

theorem rowsOf_used (h : Requested before after n e out) (hfit : 2 * out.shape.prod < 2 ^ 32)
    (hw : usedWidth after n e ≠ 0) :
    rowsOf (elemsOf out) (usedWidth after n e) =
        .ok (out.shape.prod / usedWidth after n e) ∧
      out.shape.prod = out.shape.prod / usedWidth after n e * u32 (usedWidth after n e) ∧
      (out.shape.prod ≠ 0 → u32 (usedWidth after n e) = usedWidth after n e) := by
  have hdvd := usedWidth_dvd h
  have hle : out.shape.prod / usedWidth after n e ≤ out.shape.prod := Nat.div_le_self _ _
  have hwidth : out.shape.prod ≠ 0 → u32 (usedWidth after n e) = usedWidth after n e := by
    intro hne
    have := Nat.le_of_dvd (Nat.pos_of_ne_zero hne) hdvd
    exact u32_of_lt (by omega)
  refine ⟨?_, ?_, hwidth⟩
  · unfold rowsOf
    rw [if_neg hw, elemsOf_eq (by omega), u32_of_lt (by omega)]
  · by_cases hne : out.shape.prod = 0
    · rw [hne, Nat.zero_div, Nat.zero_mul]
    · rw [hwidth hne, Nat.div_mul_cancel hdvd]

variable {x : Tensor}

/-- The kernel sums rows as wide as the axis in use. -/
theorem cumsum_rows (h : Requested before after n e out) (hcount : x.count = out.shape.prod)
    (hw : usedWidth after n e ≠ 0) (old : ℕ → UInt16) :
    ∃ y, cumsum ops (some e) out x old = .ok y ∧
      RowsWritten (cumsumAt ops e.exclusive e.reverse) x (out.shape.prod / usedWidth after n e)
        (usedWidth after n e) y := by
  have hfit : 2 * out.shape.prod < 2 ^ 32 := by
    rw [← hcount]
    exact x.fits
  obtain ⟨hlt, hget⟩ := used_axis h
  obtain ⟨hrows, hmul, hwidth⟩ := rowsOf_used h hfit hw
  have hemit : opCumsum (some e) out = .ok ⟨out.shape.prod / usedWidth after n e,
      u32 (usedWidth after n e), axisOf e.axis out.rank, e.exclusive, e.reverse⟩ := by
    have hentry := (entryAt_eq_ok (ε := String) _ _ _).mpr hget
    unfold opCumsum readExtra
    rw [Option.getD_some, if_pos hlt]
    show (entryAt out.dims.toList _ >>= _) = _
    rw [hentry]
    show (rowsOf _ _ >>= _) = _
    rw [hrows]
    rfl
  obtain ⟨y, hrun, hval⟩ := execCumsum_rows ops (x := x) ⟨out.shape.prod / usedWidth after n e,
      u32 (usedWidth after n e), axisOf e.axis out.rank, e.exclusive, e.reverse⟩
    (hcount.trans hmul) old
  refine ⟨y, ?_, ?_⟩
  · unfold cumsum
    rw [hemit]
    exact hrun
  · by_cases hne : out.shape.prod = 0
    · intro r hr
      rw [hne, Nat.zero_div] at hr
      exact absurd hr (Nat.not_lt_zero r)
    · have hsame := hwidth hne
      dsimp only at hval
      rw [hsame] at hval
      exact hval

/-- So does softmax, with or without the vector unit. -/
theorem softmax_rows (scratch : Bool) (h : Requested before after n e out)
    (hcount : x.count = out.shape.prod) (hw : usedWidth after n e ≠ 0) (old : ℕ → UInt16) :
    ∃ y hvx, softmax ops scratch (some e) out x old = .ok y ∧
      (out.shape.prod ≠ 0 → hvx = true → usedWidth after n e % 32 = 0) ∧
      RowsWritten (softmaxAt ops hvx) x (out.shape.prod / usedWidth after n e)
        (usedWidth after n e) y := by
  have hfit : 2 * out.shape.prod < 2 ^ 32 := by
    rw [← hcount]
    exact x.fits
  obtain ⟨hlt, hget⟩ := used_axis h
  obtain ⟨hrows, hmul, hwidth⟩ := rowsOf_used h hfit hw
  have hemit : opSoftmax (some e) out = .ok ⟨out.shape.prod / usedWidth after n e,
      u32 (usedWidth after n e)⟩ := by
    have hentry := (entryAt_eq_ok (ε := String) _ _ _).mpr hget
    unfold opSoftmax readExtra
    rw [Option.getD_some, if_pos hlt]
    show (entryAt out.dims.toList _ >>= _) = _
    rw [hentry]
    show (rowsOf _ _ >>= _) = _
    rw [hrows]
    rfl
  have hsoft : softmax ops scratch (some e) out x old = execSoftmax ops scratch
      ⟨out.shape.prod / usedWidth after n e, u32 (usedWidth after n e)⟩ x old := by
    unfold softmax
    rw [hemit]
    rfl
  rw [hsoft]
  by_cases hne : out.shape.prod = 0
  · refine ⟨tempGet old (0 * u32 (usedWidth after n e) * 2), false, ?_, fun h0 => absurd hne h0,
      fun r hr => ?_⟩
    · unfold execSoftmax takesHvx
      rw [hne, Nat.zero_div]
      rfl
    · rw [hne, Nat.zero_div] at hr
      exact absurd hr (Nat.not_lt_zero r)
  · have hsame := hwidth hne
    rw [hsame] at hmul ⊢
    obtain ⟨y, hvx, hrun, hmod, hval⟩ := execSoftmax_rows ops scratch (x := x)
      ⟨out.shape.prod / usedWidth after n e, usedWidth after n e⟩ (hcount.trans hmul)
      (Nat.pos_of_ne_zero hw) old
    exact ⟨y, hvx, hrun, fun _ => hmod, hval⟩

theorem cumsum_fault (h : Requested before after n e out) (hw : usedWidth after n e = 0)
    (old : ℕ → UInt16) : cumsum ops (some e) out x old = .error .fault := by
  obtain ⟨hlt, hget⟩ := used_axis h
  rw [hw] at hget
  have hentry := (entryAt_eq_ok (ε := String) _ _ _).mpr hget
  unfold cumsum opCumsum readExtra
  rw [Option.getD_some, if_pos hlt]
  show ((entryAt out.dims.toList _ >>= _) >>= _) = _
  rw [hentry]
  rfl

theorem softmax_fault (scratch : Bool) (h : Requested before after n e out)
    (hw : usedWidth after n e = 0) (old : ℕ → UInt16) :
    softmax ops scratch (some e) out x old = .error .fault := by
  obtain ⟨hlt, hget⟩ := used_axis h
  rw [hw] at hget
  have hentry := (entryAt_eq_ok (ε := String) _ _ _).mpr hget
  unfold softmax opSoftmax readExtra
  rw [Option.getD_some, if_pos hlt]
  show ((entryAt out.dims.toList _ >>= _) >>= _) = _
  rw [hentry]
  rfl

end Emission

/-! ### Rows and chains -/

section Chains

variable {before after : List ℕ} {n w : ℕ} {x : Tensor} {y : List UInt16}

/-- Each place holds the result of the elements along the axis. -/
def ChainsWritten (K : List UInt16 → ℕ → UInt16) (before after : List ℕ) (n : ℕ) (x : Tensor)
    (y : List UInt16) : Prop :=
  ∀ c a d, Within c before → a < n → Within d after →
    y[lin (before ++ n :: after) (c ++ a :: d)]? =
      some (K (gatherRow x n fun i => lin (before ++ n :: after) (c ++ i :: d)) a)

/-- The rows are the elements along the axis if it is the last one that is not of size 1, or if rows
and chains have one element each. -/
theorem chains_of_rows {K : List UInt16 → ℕ → UInt16}
    (hrows : RowsWritten K x ((before ++ n :: after).prod / w) w y)
    (h : (before ++ n :: after).prod = 0 ∨ (w = 1 ∧ n = 1) ∨ (w = n ∧ after.prod = 1)) :
    ChainsWritten K before after n x y := by
  intro c a d hc ha hd
  have hcb := lin_lt hc
  have hda := lin_lt hd
  rw [prod_axis] at h hrows
  rcases h with hzero | ⟨rfl, rfl⟩ | ⟨rfl, hafter⟩
  · have hpos : 0 < before.prod * (n * after.prod) :=
      Nat.mul_pos (Nat.zero_lt_of_lt hcb)
        (Nat.mul_pos (Nat.zero_lt_of_lt ha) (Nat.zero_lt_of_lt hda))
    omega
  · have ha0 : a = 0 := by omega
    have hr := row_lt hcb hda
    rw [Nat.one_mul, Nat.div_one] at hrows
    have hcell := hrows _ hr 0 Nat.one_pos
    rw [ha0, lin_axis hc, Nat.one_mul, Nat.zero_mul, Nat.zero_add]
    rw [Nat.mul_one, Nat.add_zero] at hcell
    rw [hcell]
    congr 2
    apply gatherRow_congr
    intro i hi
    rw [lin_axis hc]
    have hi0 : i = 0 := by omega
    rw [hi0, Nat.one_mul, Nat.zero_mul, Nat.zero_add, Nat.add_zero]
  · have hd0 : lin after d = 0 := by omega
    have hw : 0 < w := Nat.zero_lt_of_lt ha
    rw [hafter, Nat.mul_one, Nat.mul_div_cancel _ hw] at hrows
    have hcell := hrows _ hcb a ha
    rw [lin_axis hc, hafter, hd0, Nat.mul_one, Nat.mul_one, Nat.add_zero, hcell]
    congr 2
    apply gatherRow_congr
    intro i _
    rw [lin_axis hc, hafter, hd0, Nat.mul_one, Nat.mul_one, Nat.add_zero]

/-- A family of kernels for rows of each length tells which places belong to the same row: for two
places there is an input with which the element at one of them shows whether the other is in its
row. -/
def Tells (S : ℕ → Set (List UInt16 → ℕ → UInt16)) : Prop :=
  ∃ (first : Bool) (mark : UInt16 → Prop), ∀ p q N, p < q → q < N → 2 * N < 2 ^ 32 →
    ∃ x : Tensor, x.count = N ∧ ∀ m (f : ℕ → ℕ) a, StrictMono f → (∀ i < m, f i < N) → a < m →
      f a = (if first then p else q) → ∀ K ∈ S m,
        (mark (K (gatherRow x m f) a) ↔ ∃ i < m, f i = if first then q else p)

theorem chain_place (n P o : ℕ) :
    o / (n * P) * (n * P) + (o / P % n * P + o % P) = o := by
  have hsplit : o / P / n * n + o / P % n = o / P := Nat.div_add_mod' _ _
  calc o / (n * P) * (n * P) + (o / P % n * P + o % P)
      = o / P / n * (n * P) + (o / P % n * P + o % P) := by rw [Nat.mul_comm n P, Nat.div_div_eq_div_mul]
    _ = (o / P / n * n + o / P % n) * P + o % P := by
      rw [Nat.add_mul, ← Nat.mul_assoc, Nat.add_assoc]
    _ = o := by rw [hsplit, Nat.div_add_mod']

theorem mem_chain {P o o' : ℕ} (hP : 0 < P) (hn : 0 < n) :
    (∃ i < n, o / (n * P) * (n * P) + (i * P + o % P) = o') ↔
      o' / (n * P) = o / (n * P) ∧ o' % P = o % P := by
  have hmod : o % P < P := Nat.mod_lt o hP
  constructor
  · rintro ⟨i, hi, rfl⟩
    have hlt : i * P + o % P < n * P := row_lt hi hmod
    refine ⟨?_, ?_⟩
    · rw [Nat.mul_comm (o / (n * P)), Nat.mul_add_div (Nat.mul_pos hn hP), Nat.div_eq_of_lt hlt,
        Nat.add_zero]
    · rw [← Nat.mul_assoc, ← Nat.add_assoc, ← Nat.add_mul, Nat.add_comm, Nat.add_mul_mod_self_right,
        Nat.mod_mod]
  · rintro ⟨hdiv, hrest⟩
    refine ⟨o' / P % n, Nat.mod_lt _ hn, ?_⟩
    rw [← hdiv, ← hrest]
    exact chain_place n P o'

theorem mem_row {o o' : ℕ} (hw : 0 < w) : (∃ i < w, o / w * w + i = o') ↔ o' / w = o / w := by
  constructor
  · rintro ⟨i, hi, rfl⟩
    rw [Nat.mul_comm, Nat.mul_add_div hw, Nat.div_eq_of_lt hi, Nat.add_zero]
  · intro hdiv
    exact ⟨o' % w, Nat.mod_lt _ hw, by rw [← hdiv, Nat.div_add_mod']⟩

theorem same_places {S : ℕ → Set (List UInt16 → ℕ → UInt16)} (hS : Tells S)
    (hfit : 2 * (before ++ n :: after).prod < 2 ^ 32) (hne : (before ++ n :: after).prod ≠ 0)
    (hw : 0 < w) (hdvd : w ∣ (before ++ n :: after).prod)
    (hboth : ∀ x : Tensor, x.count = (before ++ n :: after).prod → ∃ y, ∃ K ∈ S w, ∃ K' ∈ S n,
      RowsWritten K x ((before ++ n :: after).prod / w) w y ∧ ChainsWritten K' before after n x y)
    {p q : ℕ} (hpq : p < q) (hq : q < (before ++ n :: after).prod) :
    q / w = p / w ↔ q / (n * after.prod) = p / (n * after.prod) ∧ q % after.prod = p % after.prod := by
  obtain ⟨first, mark, htells⟩ := hS
  obtain ⟨x, hx, hmark⟩ := htells p q _ hpq hq hfit
  obtain ⟨y, K, hK, K', hK', hrows, hchains⟩ := hboth x hx
  generalize hN : (before ++ n :: after).prod = N at *
  have hmul : before.prod * (n * after.prod) = N := (prod_axis before after n).symm.trans hN
  have hnP : 0 < n * after.prod := Nat.pos_of_ne_zero fun h0 => by
    rw [h0, Nat.mul_zero] at hmul
    exact hne hmul.symm
  have hn : 0 < n := Nat.pos_of_mul_pos_right hnP
  have hP : 0 < after.prod := Nat.pos_of_mul_pos_left hnP
  -- both kernels look from the same place at the other one
  obtain ⟨o, o', ho, ho', hoN, hsym⟩ : ∃ o o', o = (if first then p else q) ∧
      o' = (if first then q else p) ∧ o < N ∧
      ((o' / w = o / w ↔ o' / (n * after.prod) = o / (n * after.prod) ∧
          o' % after.prod = o % after.prod) →
        (q / w = p / w ↔ q / (n * after.prod) = p / (n * after.prod) ∧
          q % after.prod = p % after.prod)) := by
    cases first with
    | true => exact ⟨p, q, rfl, rfl, hpq.trans hq, id⟩
    | false =>
      refine ⟨q, p, rfl, rfl, hq, fun h => ?_⟩
      rw [eq_comm, h, eq_comm, eq_comm (a := p % after.prod)]
  apply hsym
  have hrowPlace : o / w * w + o % w = o := Nat.div_add_mod' o w
  have hrow := hrows (o / w) ((Nat.div_lt_iff_lt_mul hw).mpr (by rwa [Nat.div_mul_cancel hdvd]))
    (o % w) (Nat.mod_lt o hw)
  have hrowMark := hmark w (fun k => o / w * w + k) (o % w)
    (fun i j hij => Nat.add_lt_add_left hij _)
    (fun i hi => by
      have hlt := row_lt ((Nat.div_lt_iff_lt_mul hw).mpr (by rwa [Nat.div_mul_cancel hdvd])) hi
        (r := o / w) (n := N / w)
      rwa [Nat.div_mul_cancel hdvd] at hlt)
    (Nat.mod_lt o hw) (hrowPlace.trans ho) K hK
  have hc : o / (n * after.prod) < before.prod := (Nat.div_lt_iff_lt_mul hnP).mpr (by rwa [hmul])
  have hd : o % after.prod < after.prod := Nat.mod_lt o hP
  have hwc := coords_within hc
  have hwd := coords_within hd
  have hplace (i : ℕ) : lin (before ++ n :: after)
      (coords before (o / (n * after.prod)) ++ i :: coords after (o % after.prod)) =
        o / (n * after.prod) * (n * after.prod) + (i * after.prod + o % after.prod) := by
    rw [lin_axis hwc, lin_coords hc, lin_coords hd]
  have hchain := hchains _ (o / after.prod % n) _ hwc (Nat.mod_lt _ hn) hwd
  have hfun : (fun i => lin (before ++ n :: after)
      (coords before (o / (n * after.prod)) ++ i :: coords after (o % after.prod))) =
        fun i => o / (n * after.prod) * (n * after.prod) + (i * after.prod + o % after.prod) :=
    funext hplace
  rw [hplace, hfun, chain_place] at hchain
  have hchainMark := hmark n
    (fun i => o / (n * after.prod) * (n * after.prod) + (i * after.prod + o % after.prod))
    (o / after.prod % n)
    (fun i j hij => by
      have := Nat.mul_lt_mul_of_pos_right hij hP
      show _ + (i * after.prod + _) < _ + (j * after.prod + _)
      omega)
    (fun i hi => by
      rw [← hmul]
      exact row_lt hc (row_lt hi hd))
    (Nat.mod_lt _ hn) ((chain_place n after.prod o).trans ho) K' hK'
  rw [hrowPlace, hchain] at hrow
  rw [← Option.some.inj hrow, ← ho', mem_row hw] at hrowMark
  rw [← ho', mem_chain hP hn] at hchainMark
  exact hrowMark.symm.trans hchainMark

theorem sizes_of_same {P N : ℕ} (hw : 0 < w) (hwN : w ≤ N) (hn : 0 < n) (hP : 0 < P)
    (hnN : n * P ≤ N)
    (h : ∀ p q, p < q → q < N → (q / w = p / w ↔ q / (n * P) = p / (n * P) ∧ q % P = p % P)) :
    (w = 1 ∧ n = 1) ∨ (w = n ∧ P = 1) := by
  by_cases hone : w = 1
  · by_cases hn1 : n = 1
    · exact .inl ⟨hone, hn1⟩
    · exfalso
      have hlt : P < n * P := (Nat.lt_mul_iff_one_lt_left hP).mpr (by omega)
      have hpair := (h 0 P hP (by omega)).mpr ⟨by rw [Nat.div_eq_of_lt hlt, Nat.zero_div],
        by rw [Nat.mod_self, Nat.zero_mod]⟩
      rw [hone, Nat.div_one, Nat.div_one] at hpair
      omega
  · have hfirst := (h 0 1 Nat.one_pos (by omega)).mp (by
      rw [Nat.div_eq_of_lt (by omega), Nat.zero_div])
    have hP1 : P = 1 := by
      rw [Nat.zero_mod] at hfirst
      exact Nat.dvd_one.mp (Nat.dvd_of_mod_eq_zero hfirst.2)
    rw [hP1, Nat.mul_one] at hfirst hnN h
    refine .inr ⟨?_, hP1⟩
    have hn1 : n ≠ 1 := by
      rintro rfl
      have := hfirst.1
      rw [Nat.div_one, Nat.div_one] at this
      omega
    rcases Nat.lt_trichotomy w n with hlt | heq | hgt
    · exfalso
      have hpair := (h 0 w hw (by omega)).mpr
        ⟨by rw [Nat.div_eq_of_lt hlt, Nat.zero_div], by rw [Nat.mod_one, Nat.mod_one]⟩
      rw [Nat.div_self hw, Nat.zero_div] at hpair
      omega
    · exact heq
    · exfalso
      have hpair := ((h 0 n hn (by omega)).mp (by rw [Nat.div_eq_of_lt hgt, Nat.zero_div])).1
      rw [Nat.div_self hn, Nat.zero_div] at hpair
      omega

end Chains

/-! ### Kernels that tell -/

section Laws

def num : ℕ → F
  | 0 => ops.zero
  | 1 => ops.widen 0x3C00
  | _ => ops.widen 0x4000

/-- What the proofs need of the floats: sums of zeros and ones; and that a softmax gives an element
that stands out alone three quarters at least, and one of two that stand out less. -/
structure FloatLaws : Prop where
  widen_zero : ops.widen 0 = ops.zero
  add_zero : ∀ k ≤ 2, ops.add (num ops k) ops.zero = num ops k
  add_one : ∀ k ≤ 1, ops.add (num ops k) (ops.widen 0x3C00) = num ops (k + 1)
  narrow_one_ne : ops.narrow (ops.widen 0x3C00) ≠ ops.narrow ops.zero
  max_low : ops.max (ops.widen 0xFBFF) (ops.widen 0xFBFF) = ops.widen 0xFBFF
  max_zero_low : ops.max ops.zero (ops.widen 0xFBFF) = ops.zero
  max_low_zero : ops.max (ops.widen 0xFBFF) ops.zero = ops.zero
  max_zero : ops.max ops.zero ops.zero = ops.zero
  exp_zero : ops.exp (ops.sub ops.zero ops.zero) = ops.widen 0x3C00
  exp_low : ops.exp (ops.sub (ops.widen 0xFBFF) ops.zero) = ops.zero
  narrow_one : ops.widen (ops.narrow (ops.widen 0x3C00)) = ops.widen 0x3C00
  div_one : 0x3A00 ≤ ops.narrow (ops.div (ops.widen 0x3C00) (ops.widen 0x3C00))
  div_two : ops.narrow (ops.div (ops.widen 0x3C00) (ops.widen 0x4000)) < 0x3A00
  hvx_one : ∀ m a, m % 32 = 0 → a < m → 0x3A00 ≤ ops.narrow (ops.hvxSoftmax
    ((List.range m).map fun i => if i = a then ops.zero else ops.widen 0xFBFF) a)
  hvx_two : ∀ m a b, m % 32 = 0 → a < m → b < m → a ≠ b → ops.narrow (ops.hvxSoftmax
    ((List.range m).map fun i => if i = a ∨ i = b then ops.zero else ops.widen 0xFBFF) a) < 0x3A00

variable {ops} (laws : FloatLaws ops)

include laws

theorem foldl_ones {α : Type} (hot : α → Bool) (val : α → F) (l : List α)
    (hval : ∀ i ∈ l, val i = if hot i then ops.widen 0x3C00 else ops.zero) (k : ℕ)
    (hk : k + l.countP hot ≤ 2) :
    l.foldl (fun acc i => ops.add acc (val i)) (num ops k) = num ops (k + l.countP hot) := by
  induction l generalizing k with
  | nil => rfl
  | cons i l ih =>
    have hrest : ∀ j ∈ l, val j = if hot j then ops.widen 0x3C00 else ops.zero :=
      fun j hj => hval j (List.mem_cons_of_mem i hj)
    rw [List.foldl_cons, hval i List.mem_cons_self]
    cases hi : hot i with
    | true =>
      rw [List.countP_cons_of_pos hi] at hk ⊢
      rw [if_pos rfl, laws.add_one k (by omega), ih hrest (k + 1) (by omega)]
      congr 1
      omega
    | false =>
      have hneg : ¬hot i = true := by
        rw [hi]
        decide
      rw [List.countP_cons_of_neg hneg] at hk ⊢
      rw [if_neg (by decide), laws.add_zero k (by omega)]
      exact ih hrest k hk

end Laws

section Telling

def twoValued (N : ℕ) (hN : 2 * N < 2 ^ 32) (hot : ℕ → Bool) (v u : UInt16) : Tensor where
  data := (List.range N).map fun i => if hot i then v else u
  fits := by
    rw [List.length_map, List.length_range]
    exact hN

variable {N : ℕ} (hN : 2 * N < 2 ^ 32) (hot : ℕ → Bool) (v u : UInt16)

theorem count_twoValued : (twoValued N hN hot v u).count = N := by
  show ((List.range N).map _).length = N
  rw [List.length_map, List.length_range]

theorem getD_twoValued (hi : i < N) :
    (twoValued N hN hot v u).data.getD i 0 = if hot i then v else u := by
  show ((List.range N).map _).getD i 0 = _
  rw [List.getD_eq_getElem _ _ (by rw [List.length_map, List.length_range]; exact hi),
    List.getElem_map, List.getElem_range]

theorem gatherRow_twoValued {f : ℕ → ℕ} (hf : ∀ i < m, f i < N) :
    gatherRow (twoValued N hN hot v u) m f = (List.range m).map fun i => if hot (f i) then v else u := by
  apply List.map_congr_left
  intro i hi
  exact getD_twoValued hN hot v u (hf i (List.mem_range.mp hi))

theorem countP_place {f : ℕ → ℕ} (hf : Function.Injective f) (hl : l.Nodup) (t : ℕ) :
    l.countP (fun i => decide (f i = t)) ≤ 1 ∧
      (0 < l.countP (fun i => decide (f i = t)) ↔ ∃ i ∈ l, f i = t) := by
  refine ⟨?_, ?_⟩
  · have hcount : l.countP (fun i => decide (f i = t)) = (l.map f).count t := by
      rw [List.count, List.countP_map]
      congr 1
    rw [hcount]
    exact List.nodup_iff_count_le_one.mp ((List.nodup_map_iff hf).mpr hl) t
  · rw [List.countP_pos_iff]
    constructor
    · rintro ⟨i, hi, ht⟩
      exact ⟨i, hi, of_decide_eq_true ht⟩
    · rintro ⟨i, hi, ht⟩
      exact ⟨i, hi, decide_eq_true ht⟩

theorem countP_or (P Q : ℕ → Bool) (h : ∀ i ∈ l, ¬(P i = true ∧ Q i = true)) :
    (l.countP fun i => P i || Q i) = l.countP P + l.countP Q := by
  induction l with
  | nil => rfl
  | cons i l ih =>
    have hi := h i List.mem_cons_self
    rw [List.countP_cons, List.countP_cons, List.countP_cons,
      ih fun j hj => h j (List.mem_cons_of_mem i hj)]
    cases hP : P i with
    | true =>
      cases hQ : Q i with
      | true => exact absurd ⟨hP, hQ⟩ hi
      | false =>
        simp only [Bool.or_false, if_true, Bool.false_eq_true, if_false]
        omega
    | false =>
      rw [Bool.false_or]
      simp only [Bool.false_eq_true, if_false]
      omega

variable {ops} (laws : FloatLaws ops)

include laws

theorem tells_cumsum (exclusive reverse : ℕ) :
    Tells fun _ => {cumsumAt ops exclusive reverse} := by
  refine ⟨decide (reverse ≠ 0), fun h => h = ops.narrow (ops.widen 0x3C00), ?_⟩
  intro p q N hpq hq hN
  have hpq' : p < N := hpq.trans hq
  generalize ht : (if decide (reverse ≠ 0) then q else p) = t
  refine ⟨twoValued N hN (fun i => decide (i = t)) 0x3C00 0, count_twoValued hN _ _ _, ?_⟩
  intro m f a hf hin ha hfa K hK
  obtain rfl : K = cumsumAt ops exclusive reverse := hK
  have hinj := hf.injective
  -- the places that are passed, and the one marked among them
  obtain ⟨passed, hpassed⟩ : ∃ l, l =
      if reverse ≠ 0 then ((List.range m).drop (a + 1)).reverse else List.range a := ⟨_, rfl⟩
  have hmem (i : ℕ) : i ∈ passed ↔ i < m ∧ if reverse ≠ 0 then a < i else i < a := by
    rw [hpassed]
    split
    · rw [List.mem_reverse, List.mem_drop_iff_getElem]
      constructor
      · rintro ⟨j, hj, rfl⟩
        rw [List.length_range] at hj
        rw [List.getElem_range]
        omega
      · rintro ⟨him, hai⟩
        refine ⟨i - (a + 1), by rw [List.length_range]; omega, ?_⟩
        rw [List.getElem_range]
        omega
    · rw [List.mem_range]
      omega
  have hnodup : passed.Nodup := by
    rw [hpassed]
    split
    · exact List.nodup_reverse.mpr (List.nodup_range.sublist (List.drop_sublist _ _))
    · exact List.nodup_range
  obtain ⟨hle, hpos⟩ := countP_place hinj hnodup t
  have hsame : (∃ i ∈ passed, f i = t) ↔ ∃ i < m, f i = t := by
    constructor
    · rintro ⟨i, hi, hit⟩
      exact ⟨i, ((hmem i).mp hi).1, hit⟩
    · rintro ⟨i, him, hit⟩
      refine ⟨i, (hmem i).mpr ⟨him, ?_⟩, hit⟩
      by_cases hrev : reverse = 0
      · rw [if_neg (not_not.mpr hrev)]
        rw [if_neg (by simp [hrev])] at hfa ht
        exact hf.lt_iff_lt.mp (by omega)
      · rw [if_pos hrev]
        rw [if_pos (by simp [hrev])] at hfa ht
        exact hf.lt_iff_lt.mp (by omega)
  have hown : ops.widen ((twoValued N hN (fun i => decide (i = t)) 0x3C00 0).data.getD (f a) 0) =
      ops.zero := by
    have hne : f a ≠ t := by
      rw [hfa, ← ht]
      split
      · exact hpq.ne
      · exact hpq.ne'
    rw [getD_twoValued hN _ _ _ (hin a ha), if_neg (by rw [decide_eq_true_eq]; exact hne)]
    exact laws.widen_zero
  have hacc : passed.foldl (fun acc i => ops.add acc (ops.widen
      ((twoValued N hN (fun i => decide (i = t)) 0x3C00 0).data.getD (f i) 0))) ops.zero =
        num ops (passed.countP fun i => decide (f i = t)) := by
    have hsum := foldl_ones laws (fun i => decide (f i = t)) (fun i => ops.widen
      ((twoValued N hN (fun i => decide (i = t)) 0x3C00 0).data.getD (f i) 0)) passed (by
        intro i hi
        rw [getD_twoValued hN _ _ _ (hin i ((hmem i).mp hi).1)]
        split
        · rfl
        · exact laws.widen_zero) 0 (by omega)
    rw [Nat.zero_add] at hsum
    exact hsum
  have hvalue : cumsumAt ops exclusive reverse
      (gatherRow (twoValued N hN (fun i => decide (i = t)) 0x3C00 0) m f) a =
        ops.narrow (num ops (passed.countP fun i => decide (f i = t))) := by
    rw [cumsumAt, passed_gatherRow reverse ha.le, gatherRow_getD ha, hown, List.foldl_map, ← hpassed,
      hacc, laws.add_zero _ (by omega), ite_self]
  show cumsumAt ops exclusive reverse _ a = _ ↔ _
  rw [hvalue, ← hsame, ← hpos]
  by_cases hzero : passed.countP (fun i => decide (f i = t)) = 0
  · rw [hzero]
    exact iff_of_false (Ne.symm laws.narrow_one_ne) (lt_irrefl 0)
  · have hone : passed.countP (fun i => decide (f i = t)) = 1 := by omega
    rw [hone]
    exact iff_of_true rfl Nat.one_pos

theorem foldl_max (l : List UInt16) (hl : ∀ h ∈ l, h = 0 ∨ h = 0xFBFF) (mx : F)
    (hmx : mx = ops.zero ∨ (mx = ops.widen 0xFBFF ∧ 0 ∈ l)) :
    l.foldl (fun mx h => ops.max mx (ops.widen h)) mx = ops.zero := by
  induction l generalizing mx with
  | nil =>
    cases hmx with
    | inl h => exact h
    | inr h => exact absurd h.2 List.not_mem_nil
  | cons h l ih =>
    rw [List.foldl_cons]
    apply ih fun h' hh' => hl h' (List.mem_cons_of_mem h hh')
    rcases hl h List.mem_cons_self with rfl | rfl
    · rw [laws.widen_zero]
      rcases hmx with rfl | ⟨rfl, -⟩
      · exact .inl laws.max_zero
      · exact .inl laws.max_low_zero
    · rcases hmx with rfl | ⟨rfl, hmem⟩
      · exact .inl laws.max_zero_low
      · refine .inr ⟨laws.max_low, ?_⟩
        exact (List.mem_cons.mp hmem).resolve_left (by decide)

theorem softmax_zeros (hot : ℕ → Bool) (ha : a < m) (hhot : hot a = true)
    (hcount : (List.range m).countP hot ≤ 2) :
    softmaxAt ops false ((List.range m).map fun i => if hot i then 0 else 0xFBFF) a =
      ops.narrow (ops.div (ops.widen 0x3C00) (num ops ((List.range m).countP hot))) := by
  have hrow : ∀ h ∈ (List.range m).map fun i => if hot i then (0 : UInt16) else 0xFBFF,
      h = 0 ∨ h = 0xFBFF := by
    intro h hh
    obtain ⟨i, -, rfl⟩ := List.mem_map.mp hh
    cases hot i with
    | true => exact .inl rfl
    | false => exact .inr rfl
  have hmem : (0 : UInt16) ∈ (List.range m).map fun i => if hot i then (0 : UInt16) else 0xFBFF :=
    List.mem_map.mpr ⟨a, List.mem_range.mpr ha, by rw [if_pos hhot]⟩
  have hget : ((List.range m).map fun i => if hot i then (0 : UInt16) else 0xFBFF).getD a 0 = 0 := by
    rw [List.getD_eq_getElem _ _ (by rwa [List.length_map, List.length_range]), List.getElem_map,
      List.getElem_range, if_pos hhot]
  have hmax : (((List.range m).map fun i => if hot i then (0 : UInt16) else 0xFBFF).tail).foldl
      (fun mx h => ops.max mx (ops.widen h)) (ops.widen
        (((List.range m).map fun i => if hot i then (0 : UInt16) else 0xFBFF).headD 0)) = ops.zero := by
    generalize (List.range m).map (fun i => if hot i then (0 : UInt16) else 0xFBFF) = row at hrow hmem
    cases row with
    | nil => exact absurd hmem List.not_mem_nil
    | cons h l =>
      apply foldl_max laws l fun h' hh' => hrow h' (List.mem_cons_of_mem h hh')
      rcases hrow h List.mem_cons_self with rfl | rfl
      · exact .inl laws.widen_zero
      · exact .inr ⟨rfl, (List.mem_cons.mp hmem).resolve_left (by decide)⟩
  have hexp (h : UInt16) (hh : h = 0 ∨ h = 0xFBFF) : ops.exp (ops.sub (ops.widen h) ops.zero) =
      if h = 0 then ops.widen 0x3C00 else ops.zero := by
    rcases hh with rfl | rfl
    · rw [if_pos rfl, laws.widen_zero]
      exact laws.exp_zero
    · rw [if_neg (by decide)]
      exact laws.exp_low
  have hsum := foldl_ones laws hot
    (fun i => ops.exp (ops.sub (ops.widen (if hot i then 0 else 0xFBFF)) ops.zero)) (List.range m)
    (by
      intro i _
      cases hot i with
      | true => exact hexp 0 (.inl rfl)
      | false => exact hexp 0xFBFF (.inr rfl)) 0 (by omega)
  rw [Nat.zero_add] at hsum
  unfold softmaxAt
  rw [if_neg (by decide)]
  dsimp only
  rw [hmax, hget, hexp 0 (.inl rfl), if_pos rfl, laws.narrow_one, List.foldl_map]
  congr 2

theorem tells_softmax :
    Tells fun m => {K | ∃ hvx, (hvx = true → m % 32 = 0) ∧ K = softmaxAt ops hvx} := by
  refine ⟨true, fun h => h < 0x3A00, ?_⟩
  intro p q N hpq hq hN
  refine ⟨twoValued N hN (fun i => decide (i = p) || decide (i = q)) 0 0xFBFF,
    count_twoValued hN _ _ _, ?_⟩
  rintro m f a hf hin ha hfa K ⟨hvx, hmod, rfl⟩
  rw [if_pos rfl] at hfa ⊢
  have hinj := hf.injective
  rw [gatherRow_twoValued hN _ _ _ hin]
  obtain ⟨hpone, hppos⟩ := countP_place hinj (List.nodup_range (n := m)) p
  obtain ⟨hqone, hqpos⟩ := countP_place hinj (List.nodup_range (n := m)) q
  have hpa : 0 < (List.range m).countP fun i => decide (f i = p) :=
    hppos.mpr ⟨a, List.mem_range.mpr ha, hfa⟩
  have hqmem : 0 < ((List.range m).countP fun i => decide (f i = q)) ↔ ∃ i < m, f i = q := by
    rw [hqpos]
    simp only [List.mem_range]
  have hsum : ((List.range m).countP fun i => decide (f i = p) || decide (f i = q)) =
      ((List.range m).countP fun i => decide (f i = p)) +
        (List.range m).countP fun i => decide (f i = q) := by
    exact countP_or _ _ (fun i _ h => hpq.ne ((of_decide_eq_true h.1).symm.trans
      (of_decide_eq_true h.2)))
  rw [← hqmem]
  cases hvx with
  | false =>
    have hhot : (fun i => decide (f i = p) || decide (f i = q)) a = true := by
      dsimp only
      rw [hfa, decide_eq_true rfl, Bool.true_or]
    rw [softmax_zeros laws (fun i => decide (f i = p) || decide (f i = q)) ha hhot (by omega), hsum]
    by_cases hzero : ((List.range m).countP fun i => decide (f i = q)) = 0
    · have hone : ((List.range m).countP fun i => decide (f i = p)) = 1 := by omega
      rw [hzero, hone]
      exact iff_of_false (UInt16.not_lt.mpr laws.div_one) (lt_irrefl 0)
    · have hone : ((List.range m).countP fun i => decide (f i = p)) = 1 := by omega
      have hone' : ((List.range m).countP fun i => decide (f i = q)) = 1 := by omega
      rw [hone, hone']
      exact iff_of_true laws.div_two Nat.one_pos
  | true =>
    have hwide : (((List.range m).map fun i =>
        if (decide (f i = p) || decide (f i = q)) = true then (0 : UInt16) else 0xFBFF).map
          ops.widen) = (List.range m).map fun i =>
            if f i = p ∨ f i = q then ops.zero else ops.widen 0xFBFF := by
      rw [List.map_map]
      apply List.map_congr_left
      intro i _
      show ops.widen (if (decide (f i = p) || decide (f i = q)) = true then 0 else 0xFBFF) = _
      simp only [Bool.or_eq_true, decide_eq_true_eq]
      split
      · exact laws.widen_zero
      · rfl
    have hfirst (i : ℕ) : f i = p ↔ i = a := ⟨fun h => hinj (h.trans hfa.symm), fun h => h ▸ hfa⟩
    rw [softmaxAt, if_pos rfl, hwide, hqmem]
    by_cases hq' : ∃ b < m, f b = q
    · obtain ⟨b, hb, hfb⟩ := hq'
      have hsecond (i : ℕ) : f i = q ↔ i = b := ⟨fun h => hinj (h.trans hfb.symm), fun h => h ▸ hfb⟩
      have hab : a ≠ b := by
        rintro rfl
        exact hpq.ne (hfa.symm.trans hfb)
      simp only [hfirst, hsecond]
      exact iff_of_true (laws.hvx_two m a b (hmod rfl) ha hb hab) ⟨b, hb, rfl⟩
    · have hnone : ∀ i ∈ List.range m, (if f i = p ∨ f i = q then ops.zero else ops.widen 0xFBFF) =
          if i = a then ops.zero else ops.widen 0xFBFF := by
        intro i hi
        have hne : ¬f i = q := fun h => hq' ⟨i, List.mem_range.mp hi, h⟩
        simp only [hne, or_false, hfirst]
      rw [List.map_congr_left hnone]
      exact iff_of_false (UInt16.not_lt.mpr (laws.hvx_one m a (hmod rfl) ha)) hq'

end Telling

/-! ### When the operators act along the axis -/

section Main

variable (before after : List ℕ) (n : ℕ) (e : ExtraAxis) (out : OutputDef)

/-- The cumulative sum of every input is taken along the axis. -/
def CumsumRight : Prop :=
  ∀ (x : Tensor) (old : ℕ → UInt16), x.count = out.shape.prod →
    ∃ y, cumsum ops (some e) out x old = .ok y ∧
      ChainsWritten (cumsumAt ops e.exclusive e.reverse) before after n x y

/-- The softmax of every input is taken along the axis, with the vector unit or without. -/
def SoftmaxRight : Prop :=
  ∀ (scratch : Bool) (x : Tensor) (old : ℕ → UInt16), x.count = out.shape.prod →
    ∃ y hvx, softmax ops scratch (some e) out x old = .ok y ∧ (hvx = true → n % 32 = 0) ∧
      ChainsWritten (softmaxAt ops hvx) before after n x y

/-- The rows are the elements along the axis: the size that is used is not 0, and either there are no
elements, or rows and chains have one each, or the size is the one of the axis with nothing behind. -/
def RowsAreChains : Prop :=
  usedWidth after n e ≠ 0 ∧ (out.shape.prod = 0 ∨ (usedWidth after n e = 1 ∧ n = 1) ∨
    (usedWidth after n e = n ∧ after.prod = 1))

variable {before after n e out}

theorem rows_are_chains {S : ℕ → Set (List UInt16 → ℕ → UInt16)} (hS : Tells S)
    (h : Requested before after n e out) (hfit : 2 * out.shape.prod < 2 ^ 32)
    (hw : usedWidth after n e ≠ 0)
    (hboth : out.shape.prod ≠ 0 → ∀ x : Tensor, x.count = out.shape.prod →
      ∃ y, ∃ K ∈ S (usedWidth after n e), ∃ K' ∈ S n,
        RowsWritten K x (out.shape.prod / usedWidth after n e) (usedWidth after n e) y ∧
          ChainsWritten K' before after n x y) : RowsAreChains after n e out := by
  refine ⟨hw, ?_⟩
  by_cases hne : out.shape.prod = 0
  · exact .inl hne
  · have hdvd := usedWidth_dvd h
    have hboth' := hboth hne
    have hshape := h.2.1
    rw [hshape] at hne hfit hdvd hboth'
    have hmul := prod_axis before after n
    have hpos := Nat.pos_of_ne_zero hne
    rw [hmul] at hpos
    have hnP := Nat.pos_of_mul_pos_left hpos
    refine .inr (sizes_of_same (Nat.pos_of_ne_zero hw) (Nat.le_of_dvd (hmul ▸ hpos) hdvd)
      (Nat.pos_of_mul_pos_right hnP) (Nat.pos_of_mul_pos_left hnP) ?_ fun p q hpq hq =>
        same_places hS hfit hne (Nat.pos_of_ne_zero hw) hdvd hboth' hpq hq)
    rw [hmul]
    exact Nat.le_mul_of_pos_left _ (Nat.pos_of_mul_pos_right hpos)

variable {ops}

theorem cumsumRight_iff (laws : FloatLaws ops) (h : Requested before after n e out)
    (hfit : 2 * out.shape.prod < 2 ^ 32) :
    CumsumRight ops before after n e out ↔ RowsAreChains after n e out := by
  constructor
  · intro hright
    have hw : usedWidth after n e ≠ 0 := by
      intro hw
      obtain ⟨y, hrun, -⟩ := hright (Tensor.indicator _ hfit 0) (fun _ => 0) (count_indicator hfit 0)
      rw [cumsum_fault ops h hw] at hrun
      cases hrun
    apply rows_are_chains (tells_cumsum laws e.exclusive e.reverse) h hfit hw
    intro _ x hx
    obtain ⟨y, hrun, hchains⟩ := hright x (fun _ => 0) hx
    obtain ⟨y', hrun', hrows⟩ := cumsum_rows ops h hx hw (fun _ => 0)
    rw [hrun] at hrun'
    cases hrun'
    exact ⟨y, _, rfl, _, rfl, hrows, hchains⟩
  · rintro ⟨hw, hsizes⟩ x old hx
    obtain ⟨y, hrun, hrows⟩ := cumsum_rows ops h hx hw old
    have hshape := h.2.1
    rw [hshape] at hrows hsizes
    exact ⟨y, hrun, chains_of_rows hrows hsizes⟩

theorem softmaxRight_iff (laws : FloatLaws ops) (h : Requested before after n e out)
    (hfit : 2 * out.shape.prod < 2 ^ 32) :
    SoftmaxRight ops before after n e out ↔ RowsAreChains after n e out := by
  constructor
  · intro hright
    have hw : usedWidth after n e ≠ 0 := by
      intro hw
      obtain ⟨y, hvx, hrun, -⟩ := hright true (Tensor.indicator _ hfit 0) (fun _ => 0)
        (count_indicator hfit 0)
      rw [softmax_fault ops true h hw] at hrun
      cases hrun
    apply rows_are_chains (tells_softmax laws) h hfit hw
    intro hne x hx
    obtain ⟨y, hvx, hrun, hmod, hchains⟩ := hright true x (fun _ => 0) hx
    obtain ⟨y', hvx', hrun', hmod', hrows⟩ := softmax_rows ops true h hx hw (fun _ => 0)
    rw [hrun] at hrun'
    cases hrun'
    exact ⟨y, _, ⟨hvx', hmod' hne, rfl⟩, _, ⟨hvx, hmod, rfl⟩, hrows, hchains⟩
  · rintro ⟨hw, hsizes⟩ scratch x old hx
    obtain ⟨y, hvx, hrun, hmod, hrows⟩ := softmax_rows ops scratch h hx hw old
    have hshape := h.2.1
    by_cases hne : out.shape.prod = 0
    · refine ⟨y, false, hrun, fun h0 => absurd h0 (by decide), ?_⟩
      rw [hshape] at hne
      have hnone : RowsWritten (softmaxAt ops false) x ((before ++ n :: after).prod / 1) 1 y := by
        intro r hr
        rw [hne, Nat.zero_div] at hr
        exact absurd hr (Nat.not_lt_zero r)
      exact chains_of_rows hnone (.inl hne)
    · have hmod' := hmod hne
      rcases hsizes with hzero | ⟨hone, hn⟩ | ⟨hsame, hP⟩
      · exact absurd hzero hne
      · refine ⟨y, hvx, hrun, fun ht => ?_, ?_⟩
        · have := hmod' ht
          omega
        · rw [hshape] at hrows
          exact chains_of_rows hrows (.inr (.inl ⟨hone, hn⟩))
      · refine ⟨y, hvx, hrun, fun ht => hsame ▸ hmod' ht, ?_⟩
        rw [hshape] at hrows
        exact chains_of_rows hrows (.inr (.inr ⟨hsame, hP⟩))

end Main

/-! ### Failing inputs -/

section Instance

/-- Integers in the place of floats: exact for 0, 1 and 2, with an exponential that is 0 except at 0
and the softmax of rows whose largest element is 0. -/
def integers : FloatOps ℤ where
  widen h := if h = 0 then 0 else if h = 0x3C00 then 1 else if h = 0x4000 then 2 else -65504
  narrow v := if v = 0 then 0 else if v = 1 then 0x3C00 else 0x4000
  zero := 0
  add := (· + ·)
  sub := (· - ·)
  div := (· / ·)
  max := max
  exp v := if v = 0 then 1 else 0
  hvxSoftmax row a := (if row.getD a 0 = 0 then 1 else 0) / (row.countP (· = 0) : ℕ)

theorem hvx_integers (hot : ℕ → Bool) (ha : a < m) (hhot : hot a = true) :
    integers.hvxSoftmax ((List.range m).map fun i =>
      if hot i then integers.zero else integers.widen 0xFBFF) a =
        1 / ((List.range m).countP hot : ℕ) := by
  have hlow : integers.widen 0xFBFF = -65504 := by decide
  have hget : ((List.range m).map fun i =>
      if hot i then integers.zero else integers.widen 0xFBFF).getD a 0 = 0 := by
    rw [List.getD_eq_getElem _ _ (by rwa [List.length_map, List.length_range]), List.getElem_map,
      List.getElem_range, if_pos hhot]
    rfl
  have hcount : ((List.range m).map fun i =>
      if hot i then integers.zero else integers.widen 0xFBFF).countP (· = 0) =
        (List.range m).countP hot := by
    rw [List.countP_map]
    apply List.countP_congr
    intro i _
    cases hi : hot i with
    | true => simp [integers, hi]
    | false =>
      simp only [Function.comp, hi, hlow]
      decide
  show (if List.getD _ a 0 = 0 then (1 : ℤ) else 0) / _ = _
  rw [hget, if_pos rfl, hcount]

theorem integers_laws : FloatLaws integers where
  widen_zero := by decide
  add_zero := by decide
  add_one := by decide
  narrow_one_ne := by decide
  max_low := by decide
  max_zero_low := by decide
  max_low_zero := by decide
  max_zero := by decide
  exp_zero := by decide
  exp_low := by decide
  narrow_one := by decide
  div_one := by decide
  div_two := by decide
  hvx_one := by
    intro m a _ ha
    obtain ⟨hle, hpos⟩ := countP_place (f := id) (fun _ _ h => h) (List.nodup_range (n := m)) a
    have hone : (List.range m).countP (fun i => decide (id i = a)) = 1 := by
      have := hpos.mpr ⟨a, List.mem_range.mpr ha, rfl⟩
      omega
    have hval := hvx_integers (fun i => decide (id i = a)) ha (decide_eq_true rfl)
    rw [hone] at hval
    simp only [id, decide_eq_true_eq] at hval
    rw [hval]
    decide
  hvx_two := by
    intro m a b _ ha hb hab
    obtain ⟨hle, hpos⟩ := countP_place (f := id) (fun _ _ h => h) (List.nodup_range (n := m)) a
    obtain ⟨hle', hpos'⟩ := countP_place (f := id) (fun _ _ h => h) (List.nodup_range (n := m)) b
    have hone := hpos.mpr ⟨a, List.mem_range.mpr ha, rfl⟩
    have hone' := hpos'.mpr ⟨b, List.mem_range.mpr hb, rfl⟩
    have hsum := countP_or (l := List.range m) (fun i => decide (id i = a))
      (fun i => decide (id i = b)) (fun i _ h => hab ((of_decide_eq_true h.1).symm.trans
        (of_decide_eq_true h.2)))
    have htwo : (List.range m).countP (fun i => decide (id i = a) || decide (id i = b)) = 2 := by
      omega
    have hval := hvx_integers (fun i => decide (id i = a) || decide (id i = b)) ha (by
      show (decide (a = a) || _) = true
      rw [decide_eq_true rfl, Bool.true_or])
    rw [htwo] at hval
    simp only [id, Bool.or_eq_true, decide_eq_true_eq] at hval
    rw [hval]
    decide

end Instance

end Gehtp.Analysis.AxisChains
