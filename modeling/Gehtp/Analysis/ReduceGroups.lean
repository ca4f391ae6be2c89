import Mathlib.Data.List.Perm.Subperm
import Gehtp.Lib.Projection
import Gehtp.Lib.RowLoops
import Gehtp.Model.DeviceReduce

/-!
# What a reduction on the device combines

The device combines the elements along one axis, the first one of the list. So the right elements are
combined if the other axes of the list have size 1. The axis is lost if its constant is the first one of
the pool or if it is negative, and an unknown type is taken for a sum; the axis is then a guess.
-/

set_option autoImplicit false

namespace Gehtp.Analysis.ReduceGroups

open Lib Lib.Axes Model.OpGraph Model.DeviceTensor Model.DeviceReduce

/-! ### What is wanted -/

section Definitions

variable {F : Type} (ops : FloatOps F) (node : ReduceNode)

/-- The axes to reduce, all words of the constant. -/
def wantedAxes : List ℤ :=
  (List.range (node.axes.size / 4)).map fun i =>
    (le32 node.pool (node.axes.offset + 4 * i)).toInt32.toInt

/-- Which axes are reduced; negative ones are counted from the end. -/
def mask : List Bool :=
  (List.range node.input.shape.length).map fun (d : ℕ) =>
    (wantedAxes node).any fun z => decide (z = d ∨ z + node.input.shape.length = d)

/-- The sizes of the axes that are kept. -/
def keptDims : List ℕ := select false (mask node) node.input.shape

/-- The place of the output that agrees with an element of the input on the axes that are kept. -/
def target (p : ℕ) : ℕ := project (mask node) node.input.shape p

/-- The reduction of the elements of a list. -/
def reduceOf (subtype : ℕ) (hs : List UInt16) : UInt16 :=
  ops.narrow (accFinish ops subtype hs.length
    (hs.foldl (fun acc h => accStep ops subtype acc (ops.widen h)) (accStart ops subtype)))

/-- A value is the reduction, of the type of the operator, of the elements of the input that agree with
a place of the output, each taken once. -/
def Reduces (x : Tensor) (i : ℕ) (v : UInt16) : Prop :=
  ∃ (subtype : ℕ) (ps : List ℕ), subtypeOf node.reduceType = some subtype ∧
    ps.Perm ((List.range node.input.shape.prod).filter fun p => target node p = i) ∧
    v = reduceOf ops subtype (ps.map fun p => x.data.getD p 0)

/-- An error is reported at emission, or what is emitted reduces the right elements at every place of
the output, whatever the input holds. -/
def Right (out : OutputDef) : Prop :=
  (∃ e, emit node out = .error (.reject e)) ∨
    ∃ args, emit node out = .ok args ∧ ∀ (x : Tensor) (old : ℕ → UInt16),
      x.count = node.input.shape.prod → ∃ y, execReduce ops args x old = .ok y ∧
        ∀ i < (keptDims node).prod, ∃ v, y[i]? = some v ∧ Reduces ops node x i v

/-- The reductions of a graph: one to five axes, and an input that fits a temp. -/
structure Shaped : Prop where
  rank : 1 ≤ node.input.rank ∧ node.input.rank ≤ 5
  fits : 2 * node.input.shape.prod < 2 ^ 32

/-! ### When it is right -/

/-- The axis in the record: the first word of the constant, unless the constant is empty, the first one
of the pool or outside of it. -/
def firstAxis : ℤ :=
  if 4 ≤ node.axes.size ∧ node.axes.offset ≠ 0 ∧
      node.axes.offset + node.axes.size ≤ node.pool.length then
    (le32 node.pool node.axes.offset).toInt32.toInt
  else node.axis.getD (-1)

/-- The axis that is reduced: the one in the record, or a guess. -/
def usedAxis : ℕ :=
  if 0 ≤ firstAxis node ∧ firstAxis node < 8 ∧ (subtypeOf node.reduceType).isSome then
    (firstAxis node).toNat
  else if 4 ≤ node.input.rank then 3 else node.input.rank - 1

/-- The axis is refused: it is too large, or it has four axes behind it. -/
def Refused : Prop :=
  node.input.rank ≤ usedAxis node ∨ (4 < node.input.rank ∧ usedAxis node = 0)

/-- The axes that are not of size 1 are reduced exactly if they are the used one. -/
def SameAxes : Prop :=
  ∀ a, node.input.shape.getD a 1 ≠ 1 → ((mask node).getD a false = true ↔ a = usedAxis node)

/-- The size of the used axis, none counting as 1, and the elements behind it. -/
def usedStep : ℕ :=
  (if u32 (node.input.shape.getD (usedAxis node) 1) = 0 then 1
    else u32 (node.input.shape.getD (usedAxis node) 1)) *
      (node.input.shape.drop (usedAxis node + 1)).prod

/-- An error is reported; or there are elements, the type is known and the axes are the same; or there
are no elements, neither in the input nor in the output, and the device accepts the sizes. -/
def RightWhen : Prop :=
  Refused node ∨
    (node.input.shape.prod ≠ 0 ∧ (subtypeOf node.reduceType).isSome ∧ SameAxes node) ∨
    (node.input.shape.prod = 0 ∧ (keptDims node).prod = 0 ∧ u32 (usedStep node) ≠ 0)

end Definitions

/-! ### What is emitted -/

section Emission

variable (node : ReduceNode)

theorem length_mask : (mask node).length = node.input.shape.length := by
  rw [mask, List.length_map, List.length_range]

theorem extract_axis : (extractAxisExtra node).axis = firstAxis node := by
  have hread : readParamU32 node.pool node.axes 4 =
      if 4 ≤ node.axes.size ∧ node.axes.offset ≠ 0 ∧
          node.axes.offset + node.axes.size ≤ node.pool.length then
        (List.range (min 4 (node.axes.size / 4))).map fun i =>
          le32 node.pool (node.axes.offset + 4 * i)
      else [] := by
    unfold readParamU32
    by_cases hsize : node.axes.size < 4
    · rw [if_pos hsize, if_neg (by omega)]
    · by_cases hbad : node.axes.offset = 0 ∨
          node.pool.length < node.axes.offset + node.axes.size
      · rw [if_neg hsize, if_pos hbad, if_neg (by omega)]
      · rw [if_neg hsize, if_neg hbad, if_pos (by omega)]
  unfold extractAxisExtra firstAxis
  dsimp only
  rw [hread]
  by_cases h : 4 ≤ node.axes.size ∧ node.axes.offset ≠ 0 ∧
      node.axes.offset + node.axes.size ≤ node.pool.length
  · obtain ⟨k, hk⟩ : ∃ k, min 4 (node.axes.size / 4) = k + 1 :=
      ⟨min 4 (node.axes.size / 4) - 1, by omega⟩
    rw [if_pos h, if_pos h, hk, List.range_succ_eq_map, List.map_cons, Nat.mul_zero, Nat.add_zero]
  · rw [if_neg h, if_neg h]

theorem subtypeOf_le {rt : String} {subtype : ℕ} (h : subtypeOf rt = some subtype) : subtype ≤ 3 := by
  unfold subtypeOf at h
  split at h
  · cases h
    decide
  · split at h
    · cases h
      decide
    · split at h
      · cases h
        decide
      · split at h
        · cases h
          decide
        · cases h

theorem restored_subtype :
    subtypeOf ((restoredType (extractAxisExtra node)).getD "ReduceSum") =
      some ((subtypeOf node.reduceType).getD 0) := by
  have hcode : (extractAxisExtra node).reduceType = (subtypeOf node.reduceType).getD 0xFFFFFFFF := rfl
  unfold restoredType
  rw [hcode]
  cases h : subtypeOf node.reduceType with
  | none => rfl
  | some subtype =>
    have hle := subtypeOf_le h
    rw [Option.getD_some, Option.getD_some]
    obtain rfl | rfl | rfl | rfl : subtype = 0 ∨ subtype = 1 ∨ subtype = 2 ∨ subtype = 3 := by omega
    all_goals rfl

theorem axis_used (hrank : 1 ≤ node.input.rank) :
    axisOf (some (extractAxisExtra node)) node.input.rank = usedAxis node := by
  have hcode : (extractAxisExtra node).reduceType = (subtypeOf node.reduceType).getD 0xFFFFFFFF := rfl
  have hknown : (extractAxisExtra node).reduceType ≤ 3 ↔ (subtypeOf node.reduceType).isSome := by
    rw [hcode]
    cases h : subtypeOf node.reduceType with
    | none => exact iff_of_false (by decide) (by decide)
    | some subtype => exact iff_of_true (subtypeOf_le h) rfl
  unfold axisOf extraOk usedAxis fallbackAxis
  dsimp only
  simp only [extract_axis, hknown, decide_eq_true_eq]
  split
  · rfl
  · split
    · rfl
    · rw [if_pos (by omega)]

theorem length_shape (h : node.input.rank ≤ 5) : node.input.shape.length = node.input.rank := by
  rw [OutputDef.shape, List.length_take, Vector.length_toList, Nat.min_eq_left h]

theorem u32_prod_map (l : List ℕ) : u32 (l.map u32).prod = u32 l.prod := by
  induction l with
  | nil => rfl
  | cons d ds ih =>
    rw [List.map_cons, List.prod_cons, List.prod_cons, u32_u32_mul, ← u32_mul_u32, ih, u32_mul_u32]

theorem window_eq {sizes : List ℕ} (h : sizes.length ≤ 4) :
    window sizes = sizes.map u32 ++ List.replicate (4 - sizes.length) 1 := by
  unfold window
  apply List.ext_getElem
  · rw [List.length_map, List.length_range, List.length_append, List.length_map,
      List.length_replicate]
    omega
  · intro i hi hi'
    rw [List.getElem_map, List.getElem_range, List.getElem_append]
    split
    · rename_i hlt
      rw [List.length_map] at hlt
      rw [List.getElem_map, List.getD_eq_getElem _ _ hlt]
    · rename_i hge
      rw [List.length_map] at hge
      rw [List.getElem_replicate, List.getD_eq_default _ _ (by omega)]
      rfl

theorem window_sizes (sizes : List ℕ) (h : sizes.length ≤ 4) {k : ℕ} (hk : k < 4) :
    (window sizes).getD k 1 = u32 (sizes.getD k 1) ∧
      u32 ((window sizes).drop (k + 1)).prod = u32 (sizes.drop (k + 1)).prod := by
  constructor
  · unfold window
    rw [List.getD_eq_getElem _ _ (by rwa [List.length_map, List.length_range]), List.getElem_map,
      List.getElem_range]
  · rw [window_eq h, List.drop_append, List.prod_append, List.drop_replicate, List.prod_replicate,
      Nat.one_pow, Nat.mul_one, ← List.map_drop, u32_prod_map]

/-- What is emitted if the axis is not refused. -/
structure Emitted (out : OutputDef) (args : ReduceArgs) : Prop where
  emits : emit node out = .ok args
  axis : args.axis < 4
  subtype : args.subtype = (subtypeOf node.reduceType).getD 0
  elements : args.n = u32 (elemsOf node.input)
  length : args.length = if u32 (node.input.shape.getD (usedAxis node) 1) = 0 then 1
    else u32 (node.input.shape.getD (usedAxis node) 1)
  inner : args.inner = u32 (node.input.shape.drop (usedAxis node + 1)).prod

variable {node}

theorem emit_eq (h : Shaped node) (out : OutputDef) :
    emit node out =
      if node.input.rank ≤ usedAxis node then
        .error (.reject "error: Reduce op %llu axis=%d 越界 (irank=%u, 拒发)")
      else if node.input.rank ≤ 4 then
        .ok ⟨u32 (elemsOf node.input), usedAxis node, (subtypeOf node.reduceType).getD 0,
          window node.input.shape⟩
      else if 4 < node.input.rank - usedAxis node then
        .error (.reject "error: Reduce op %llu axis=%d 后随维超窗 (irank=%u)")
      else .ok ⟨u32 (elemsOf node.input), 0, (subtypeOf node.reduceType).getD 0,
        window (node.input.shape.drop (usedAxis node))⟩ := by
  have hrank := h.rank.1
  unfold emit opReduce
  dsimp only [Option.map_some, Option.getD_some]
  rw [axis_used node hrank, restored_subtype]
  dsimp only
  simp only [show node.input.rank ≠ 0 by omega, ne_eq, not_false_eq_true, true_and]

theorem emit_refused (h : Shaped node) (href : Refused node) (out : OutputDef) :
    ∃ e, emit node out = .error (.reject e) := by
  have hrank := h.rank
  rw [emit_eq h]
  by_cases hout : node.input.rank ≤ usedAxis node
  · exact ⟨_, if_pos hout⟩
  · cases href with
    | inl hle => exact absurd hle hout
    | inr hzero => exact ⟨_, by rw [if_neg hout, if_neg (by omega), if_pos (by omega)]⟩

theorem emit_taken (h : Shaped node) (href : ¬Refused node) (out : OutputDef) :
    ∃ args, Emitted node out args := by
  have hrank := h.rank
  have hlen := length_shape node hrank.2
  unfold Refused at href
  have hemit := emit_eq h out
  rw [if_neg (by omega)] at hemit
  by_cases hsmall : node.input.rank ≤ 4
  · rw [if_pos hsmall] at hemit
    have hused : usedAxis node < 4 := by omega
    obtain ⟨hget, hdrop⟩ := window_sizes node.input.shape (by omega) hused
    refine ⟨_, hemit, ?_, rfl, rfl, ?_, hdrop⟩
    · show usedAxis node < 4
      omega
    · unfold ReduceArgs.length
      dsimp only
      rw [hget]
  · rw [if_neg hsmall, if_neg (by omega)] at hemit
    obtain ⟨hget, hdrop⟩ := window_sizes (node.input.shape.drop (usedAxis node))
      (by rw [List.length_drop]; omega) (Nat.zero_lt_succ 3)
    rw [List.drop_drop] at hdrop
    refine ⟨_, hemit, Nat.zero_lt_succ 3, rfl, rfl, ?_, hdrop⟩
    unfold ReduceArgs.length
    dsimp only
    rw [hget, List.getD_eq_getElem?_getD, List.getElem?_drop, Nat.add_zero,
      ← List.getD_eq_getElem?_getD]

end Emission

/-! ### What the device computes -/

section Kernel

/-- The places that are combined for a place of the output, `o` in front of the axis and `i` behind. -/
def chain (n P o i : ℕ) : List ℕ := (List.range n).map fun l => o * n * P + i + l * P

variable {n P o i : ℕ}

theorem chain_lt {m : ℕ} (ho : o < m) (hi : i < P) {p : ℕ} (hp : p ∈ chain n P o i) :
    p < m * (n * P) := by
  obtain ⟨l, hl, rfl⟩ := List.mem_map.mp hp
  rw [List.mem_range] at hl
  calc o * n * P + i + l * P < o * n * P + P + l * P := by omega
    _ = (o * n + (l + 1)) * P := by rw [Nat.add_mul, Nat.succ_mul]; omega
    _ ≤ (o * n + n) * P := Nat.mul_le_mul_right P (Nat.add_le_add_left hl _)
    _ = (o + 1) * (n * P) := by rw [← Nat.succ_mul, Nat.mul_assoc]
    _ ≤ m * (n * P) := Nat.mul_le_mul_right _ ho

theorem chain_nodup (hP : 0 < P) : (chain n P o i).Nodup := by
  apply (List.nodup_map_iff fun l l' h => ?_).mpr List.nodup_range
  exact Nat.eq_of_mul_eq_mul_right hP (Nat.add_left_cancel h)

theorem mem_chain {p : ℕ} (hn : 0 < n) (hi : i < P) :
    p ∈ chain n P o i ↔ p / (n * P) * P + p % P = o * P + i := by
  have hP : 0 < P := Nat.zero_lt_of_lt hi
  have hmod : p % P < P := Nat.mod_lt p hP
  constructor
  · intro hp
    obtain ⟨l, hl, rfl⟩ := List.mem_map.mp hp
    rw [List.mem_range] at hl
    have hplace : o * n * P + i + l * P = P * (n * o + l) + i := by
      rw [Nat.mul_comm o n, Nat.mul_comm (n * o), Nat.mul_comm l, Nat.mul_add]
      omega
    have hdiv : (P * (n * o + l) + i) / (n * P) = o := by
      rw [Nat.mul_comm n P, ← Nat.div_div_eq_div_mul, Nat.mul_add_div hP, Nat.div_eq_of_lt hi,
        Nat.add_zero, Nat.mul_add_div hn, Nat.div_eq_of_lt hl, Nat.add_zero]
    rw [hplace, hdiv, Nat.mul_add_mod, Nat.mod_eq_of_lt hi]
  · intro h
    have hfront : p / (n * P) = o := by
      have hdiv := congrArg (· / P) h
      rwa [Nat.mul_comm _ P, Nat.mul_comm o P, Nat.mul_add_div hP, Nat.mul_add_div hP,
        Nat.div_eq_of_lt hmod, Nat.div_eq_of_lt hi] at hdiv
    have hback : p % P = i := by
      rw [hfront] at h
      omega
    refine List.mem_map.mpr ⟨p / P % n, List.mem_range.mpr (Nat.mod_lt _ hn), ?_⟩
    rw [← hfront, ← hback, Nat.mul_comm n P, ← Nat.div_div_eq_div_mul]
    calc p / P / n * n * P + p % P + p / P % n * P
        = (p / P / n * n + p / P % n) * P + p % P := by rw [Nat.add_mul]; omega
      _ = p / P * P + p % P := by rw [Nat.div_add_mod']
      _ = p := Nat.div_add_mod' p P

variable {F : Type} (ops : FloatOps F) {x : Tensor}

theorem reduceCell_eq (subtype : ℕ) (hin : ∀ p ∈ chain n P o i, p < x.count) :
    reduceCell ops subtype n P x (o, i) =
      .ok (o * P + i, reduceOf ops subtype ((chain n P o i).map fun p => x.data.getD p 0)) := by
  have hfold := foldlM_of_ok (ε := String) (List.range n)
    (f := fun acc l => (x.load (o * n * P + i + l * P)).map fun h =>
      accStep ops subtype acc (ops.widen h))
    (g := fun acc l => accStep ops subtype acc (ops.widen (x.data.getD (o * n * P + i + l * P) 0)))
    (fun acc l hl => by
      have hlt := hin _ (List.mem_map_of_mem hl)
      have hload : x.load (o * n * P + i + l * P) = .ok (x.data.getD (o * n * P + i + l * P) 0) :=
        entryAt_getD hlt 0
      rw [hload]
      rfl) (accStart ops subtype)
  unfold reduceCell
  dsimp only
  rw [hfold]
  show (Except.ok _ : Checked String (ℕ × UInt16)) = _
  rw [reduceOf, List.length_map, chain, List.length_map, List.length_range, List.foldl_map,
    List.foldl_map]

theorem execReduce_chains {args : ReduceArgs} {m : ℕ} (haxis : args.axis < 4)
    (hsub : args.subtype ≤ 3) (hpos : 0 < args.length * args.inner) (hm : 0 < m)
    (hn : args.n = m * (args.length * args.inner)) (hcount : x.count = args.n) (old : ℕ → UInt16) :
    ∃ y, execReduce ops args x old = .ok y ∧ y.length = m * args.inner ∧
      ∀ o < m, ∀ i < args.inner, y[o * args.inner + i]? = some (reduceOf ops args.subtype
        ((chain args.length args.inner o i).map fun p => x.data.getD p 0)) := by
  have hfits : 2 * args.n < 2 ^ 32 := by
    rw [← hcount]
    exact x.fits
  have hstep : args.length * args.inner ≤ args.n := by
    rw [hn]
    exact Nat.le_mul_of_pos_left _ hm
  have hu32 : u32 (args.length * args.inner) = args.length * args.inner := u32_of_lt (by omega)
  have hlen : 0 < args.length := Nat.pos_of_mul_pos_right hpos
  have hinner : m * args.inner ≤ args.n := by
    rw [hn]
    exact Nat.mul_le_mul_left m (Nat.le_mul_of_pos_left _ hlen)
  have houter : args.n / (args.length * args.inner) = m := by
    rw [hn, Nat.mul_div_cancel _ hpos]
  have htemp := length_tempGet_of_lt old (n := m * args.inner) (by omega)
  have hbound (c : ℕ × ℕ)
      (hc : c ∈ (List.range m).flatMap fun o => (List.range args.inner).map fun i => (o, i)) :
      c.1 * args.inner + c.2 < m * args.inner := by
    rw [← List.mem_range, ← grid_places]
    exact List.mem_map_of_mem (f := fun c : ℕ × ℕ => c.1 * args.inner + c.2) hc
  have hcell : ∀ c ∈ (List.range m).flatMap fun o => (List.range args.inner).map fun i => (o, i),
      reduceCell ops args.subtype args.length args.inner x c =
        .ok (c.1 * args.inner + c.2, reduceOf ops args.subtype
          ((chain args.length args.inner c.1 c.2).map fun p => x.data.getD p 0)) := by
    rintro ⟨o, i⟩ hc
    rw [mem_grid] at hc
    apply reduceCell_eq
    intro p hp
    rw [hcount, hn]
    exact chain_lt hc.1 hc.2 hp
  obtain ⟨y, hrun, hylen, hval, -⟩ := fillLoop_eq_ok (y := tempGet old (m * args.inner * 2))
    (fun c : ℕ × ℕ => c.1 * args.inner + c.2) _ hcell
    (fun c hc => by
      rw [htemp]
      exact hbound c hc)
    (by
      rw [grid_places]
      exact List.nodup_range)
  refine ⟨y, ?_, hylen.trans htemp, fun o ho i hi => hval (o, i) (mem_grid.mpr ⟨ho, hi⟩)⟩
  unfold execReduce
  dsimp only
  rw [if_neg (by omega), if_neg (by omega), hu32, if_neg (by omega), houter, if_neg ?_]
  · exact hrun
  · rw [hn, Nat.mul_mod_left]
    exact not_not.mpr rfl

theorem execReduce_empty {args : ReduceArgs} (haxis : args.axis < 4) (hsub : args.subtype ≤ 3)
    (hn : args.n = 0) (old : ℕ → UInt16) :
    (execReduce ops args x old = .ok [] ∧ u32 (args.length * args.inner) ≠ 0) ∨
      (u32 (args.length * args.inner) = 0 ∧ ∀ y, execReduce ops args x old ≠ .ok y) := by
  unfold execReduce
  dsimp only
  rw [if_neg (by omega)]
  by_cases hstep : u32 (args.length * args.inner) = 0
  · refine .inr ⟨hstep, fun y hy => ?_⟩
    rw [if_pos hstep] at hy
    split at hy <;> cases hy
  · have hpos : args.length * args.inner ≠ 0 := fun h0 => hstep (by rw [h0]; rfl)
    refine .inl ⟨?_, hstep⟩
    rw [if_neg hpos, if_neg hstep, hn, Nat.zero_mod, if_neg (not_not.mpr rfl), Nat.zero_div]
    show Except.ok (tempGet old (0 * args.inner * 2)) = _
    rw [Nat.zero_mul]
    rfl

end Kernel

/-! ### Reductions that tell -/

section Laws

variable {F : Type} (ops : FloatOps F)

/-- What the proofs need of the floats: sums and comparisons of 0 with the largest and the smallest
half, and that a mean of less than `2 ^ 31` elements is not 0 if one of them is the largest half and the
others are 0. -/
structure FloatLaws : Prop where
  widen_zero : ops.widen 0 = ops.zero
  add_zero : ops.add ops.zero ops.zero = ops.zero
  zero_add : ops.add ops.zero (ops.widen 0x7BFF) = ops.widen 0x7BFF
  largest_add : ops.add (ops.widen 0x7BFF) ops.zero = ops.widen 0x7BFF
  lowest_lt : ops.lt ops.lowest ops.zero = true
  lowest_lt_largest : ops.lt ops.lowest (ops.widen 0x7BFF) = true
  lt_largest : ops.lt ops.zero (ops.widen 0x7BFF) = true
  largest_not_lt : ops.lt (ops.widen 0x7BFF) ops.zero = false
  zero_not_lt : ops.lt ops.zero ops.zero = false
  lt_highest : ops.lt ops.zero ops.highest = true
  smallest_lt_highest : ops.lt (ops.widen 0xFBFF) ops.highest = true
  smallest_lt : ops.lt (ops.widen 0xFBFF) ops.zero = true
  smallest_not_lt : ops.lt ops.zero (ops.widen 0xFBFF) = false
  narrow_largest : ops.narrow (ops.widen 0x7BFF) ≠ ops.narrow ops.zero
  narrow_smallest : ops.narrow (ops.widen 0xFBFF) ≠ ops.narrow ops.zero
  mean_largest : ∀ m n, 0 < m → m < 2 ^ 31 → 0 < n → n < 2 ^ 31 →
    ops.narrow (ops.div (ops.widen 0x7BFF) (ops.ofNat m)) ≠
      ops.narrow (ops.div ops.zero (ops.ofNat n))

/-- The element that shows among zeros: the smallest half for a minimum, otherwise the largest. -/
def mark (subtype : ℕ) : UInt16 := if subtype = 3 then 0xFBFF else 0x7BFF

variable {ops} (laws : FloatLaws ops)

include laws

theorem accStep_marks {subtype : ℕ} (hsub : subtype ≤ 3) :
    accStep ops subtype (accStart ops subtype) ops.zero = ops.zero ∧
      accStep ops subtype ops.zero ops.zero = ops.zero ∧
      accStep ops subtype (accStart ops subtype) (ops.widen (mark subtype)) =
        ops.widen (mark subtype) ∧
      accStep ops subtype ops.zero (ops.widen (mark subtype)) = ops.widen (mark subtype) ∧
      accStep ops subtype (ops.widen (mark subtype)) ops.zero = ops.widen (mark subtype) := by
  have hcases : subtype ≠ 2 ∧ subtype ≠ 3 ∨ subtype = 2 ∨ subtype = 3 := by omega
  unfold accStep accStart mark
  rcases hcases with ⟨h2, h3⟩ | rfl | rfl
  · simp only [if_neg h2, if_neg h3]
    exact ⟨laws.add_zero, laws.add_zero, laws.zero_add, laws.zero_add, laws.largest_add⟩
  · simp only [if_pos, laws.lowest_lt, laws.lowest_lt_largest, laws.lt_largest, laws.largest_not_lt,
      laws.zero_not_lt, if_neg (show ¬(2 : ℕ) = 3 by decide), Bool.false_eq_true, if_false, and_self]
  · simp only [if_pos, laws.lt_highest, laws.smallest_lt_highest, laws.smallest_lt,
      laws.smallest_not_lt, laws.zero_not_lt, if_neg (show ¬(3 : ℕ) = 2 by decide),
      Bool.false_eq_true, if_false, and_self]

theorem foldl_zeros {subtype : ℕ} {acc : F}
    (hacc : accStep ops subtype acc ops.zero = acc) (k : ℕ) :
    (List.replicate k (0 : UInt16)).foldl (fun acc h => accStep ops subtype acc (ops.widen h)) acc =
      acc := by
  induction k with
  | zero => rfl
  | succ k ih => rw [List.replicate_succ, List.foldl_cons, laws.widen_zero, hacc, ih]

theorem reduceOf_marks {subtype : ℕ} (hsub : subtype ≤ 3) (a b c : ℕ) (hab : a + 1 + b < 2 ^ 31)
    (hc : c + 1 < 2 ^ 31) :
    reduceOf ops subtype (List.replicate a 0 ++ mark subtype :: List.replicate b 0) ≠
      reduceOf ops subtype (List.replicate (c + 1) 0) := by
  obtain ⟨hstart, hzero, hstartMark, hzeroMark, hmark⟩ := accStep_marks laws hsub
  have hfront : ∃ acc, (List.replicate a (0 : UInt16)).foldl
      (fun acc h => accStep ops subtype acc (ops.widen h)) (accStart ops subtype) = acc ∧
        accStep ops subtype acc (ops.widen (mark subtype)) = ops.widen (mark subtype) := by
    cases a with
    | zero => exact ⟨_, rfl, hstartMark⟩
    | succ a =>
      rw [List.replicate_succ, List.foldl_cons, laws.widen_zero, hstart,
        foldl_zeros laws hzero]
      exact ⟨_, rfl, hzeroMark⟩
  obtain ⟨acc, hacc, hstep⟩ := hfront
  unfold reduceOf
  rw [List.foldl_append, hacc, List.foldl_cons, hstep, foldl_zeros laws hmark,
    List.replicate_succ, List.foldl_cons, laws.widen_zero, hstart, foldl_zeros laws hzero]
  rw [List.length_append, List.length_cons, List.length_cons, List.length_replicate,
    List.length_replicate, List.length_replicate]
  unfold accFinish mark
  split
  · rename_i hone
    rw [hone, if_neg (by decide)]
    exact laws.mean_largest _ _ (by omega) (by omega) (by omega) (by omega)
  · split
    · exact laws.narrow_smallest
    · exact laws.narrow_largest

theorem reduceOf_tells {subtype N : ℕ} (hsub : subtype ≤ 3) (hN : 2 * N < 2 ^ 32) {t : ℕ}
    (ht : t < N) :
    ∃ x : Tensor, x.count = N ∧ ∀ ps qs : List ℕ, ps.Nodup → (∀ p ∈ ps, p < N) → qs.Nodup →
      (∀ q ∈ qs, q < N) → t ∈ ps → qs ≠ [] → t ∉ qs →
        reduceOf ops subtype (ps.map fun p => x.data.getD p 0) ≠
          reduceOf ops subtype (qs.map fun q => x.data.getD q 0) := by
  refine ⟨⟨(List.range N).map fun i => if i = t then mark subtype else 0, by
    rw [List.length_map, List.length_range]
    exact hN⟩, by
      show ((List.range N).map _).length = N
      rw [List.length_map, List.length_range], ?_⟩
  dsimp only
  have hget (p : ℕ) (hp : p < N) :
      ((List.range N).map fun i => if i = t then mark subtype else 0).getD p 0 =
        if p = t then mark subtype else 0 := by
    rw [List.getD_eq_getElem _ _ (by rwa [List.length_map, List.length_range]), List.getElem_map,
      List.getElem_range]
  have hshort (l : List ℕ) (hl : l.Nodup) (hlN : ∀ p ∈ l, p < N) : l.length ≤ N := by
    have hle := (hl.subperm fun p hp => List.mem_range.mpr (hlN p hp)).length_le
    rwa [List.length_range] at hle
  have hzeros (l : List ℕ) (hlN : ∀ p ∈ l, p < N) (hl : t ∉ l) :
      (l.map fun p => ((List.range N).map fun i => if i = t then mark subtype else 0).getD p 0) =
        List.replicate l.length 0 := by
    rw [List.eq_replicate_iff, List.length_map]
    refine ⟨rfl, fun h hh => ?_⟩
    obtain ⟨p, hp, rfl⟩ := List.mem_map.mp hh
    rw [hget p (hlN p hp), if_neg]
    rintro rfl
    exact hl hp
  intro ps qs hps hpsN hqs hqsN htps hne htqs
  obtain ⟨front, back, rfl⟩ := List.append_of_mem htps
  obtain ⟨c, hc⟩ : ∃ c, qs.length = c + 1 :=
    ⟨qs.length - 1, by have := List.length_pos_iff.mpr hne; omega⟩
  have hnotin : t ∉ front ∧ t ∉ back := by
    rw [List.nodup_append', List.nodup_cons] at hps
    exact ⟨fun h => hps.2.2 h List.mem_cons_self, hps.2.1.1⟩
  have hlen := hshort _ hps hpsN
  have hlen' := hshort _ hqs hqsN
  rw [List.length_append, List.length_cons] at hlen
  rw [List.map_append, List.map_cons, hget t ht, if_pos rfl, hzeros qs hqsN htqs, hc,
    hzeros front (fun p hp => hpsN p (List.mem_append_left _ hp)) hnotin.1,
    hzeros back (fun p hp => hpsN p (List.mem_append_right _ (List.mem_cons_of_mem t hp))) hnotin.2]
  exact reduceOf_marks laws hsub _ _ _ (by omega) (by omega)

end Laws

/-! ### When the right elements are combined -/

section Main

variable {F : Type} {ops : FloatOps F} {node : ReduceNode}

theorem shape_split (h : Shaped node) (href : ¬Refused node) :
    node.input.shape = node.input.shape.take (usedAxis node) ++
        node.input.shape.getD (usedAxis node) 1 :: node.input.shape.drop (usedAxis node + 1) ∧
      (node.input.shape.take (usedAxis node)).length = usedAxis node ∧
      (node.input.shape.drop (usedAxis node + 1)).length =
        node.input.shape.length - (usedAxis node + 1) := by
  have hlen := length_shape node h.rank.2
  have hlt : usedAxis node < node.input.shape.length := by
    unfold Refused at href
    omega
  refine ⟨?_, ?_, List.length_drop⟩
  · rw [List.getD_eq_getElem _ _ hlt, ← List.drop_eq_getElem_cons hlt, List.take_append_drop]
  · rw [List.length_take, Nat.min_eq_left hlt.le]

def usedMask (node : ReduceNode) : List Bool :=
  oneAxis (usedAxis node) (node.input.shape.length - (usedAxis node + 1))

theorem length_usedMask (h : Shaped node) (href : ¬Refused node) :
    (usedMask node).length = node.input.shape.length := by
  have hlen := length_shape node h.rank.2
  unfold Refused at href
  rw [usedMask, length_oneAxis]
  omega

theorem sameAxes_iff : SameAxes node ↔
    ∀ a, node.input.shape.getD a 1 ≠ 1 →
      (mask node).getD a false = (usedMask node).getD a false := by
  unfold SameAxes usedMask
  constructor
  · intro h a ha
    rw [Bool.eq_iff_iff, h a ha, getD_oneAxis]
  · intro h a ha
    rw [h a ha, getD_oneAxis]

variable (ops) in
/-- What the device does with elements: each place of what it writes holds the reduction of the
elements that agree with it on the axes other than the used one. -/
theorem device_reduces (h : Shaped node) (href : ¬Refused node) (hne : node.input.shape.prod ≠ 0)
    {out : OutputDef} {args : ReduceArgs} (hargs : Emitted node out args) {x : Tensor}
    (hcount : x.count = node.input.shape.prod) (old : ℕ → UInt16) :
    ∃ y, execReduce ops args x old = .ok y ∧
      y.length = (select false (usedMask node) node.input.shape).prod ∧
      ∀ i < y.length, ∃ ps : List ℕ, ps.Nodup ∧ ps ≠ [] ∧
        (∀ p, p ∈ ps ↔ p < node.input.shape.prod ∧
          project (usedMask node) node.input.shape p = i) ∧
        y[i]? = some (reduceOf ops ((subtypeOf node.reduceType).getD 0)
          (ps.map fun p => x.data.getD p 0)) := by
  obtain ⟨hshape, hfront, hback⟩ := shape_split h href
  generalize hbefore : node.input.shape.take (usedAxis node) = before at hshape hfront
  generalize hafter : node.input.shape.drop (usedAxis node + 1) = after at hshape hback
  generalize hn : node.input.shape.getD (usedAxis node) 1 = n at hshape
  have hfits := h.fits
  have hprod : node.input.shape.prod = before.prod * (n * after.prod) := by
    rw [hshape, List.prod_append, List.prod_cons]
  rw [hprod] at hne hfits
  have hm : 0 < before.prod := Nat.pos_of_ne_zero fun h0 => hne (by rw [h0, Nat.zero_mul])
  have hstep : 0 < n * after.prod := Nat.pos_of_ne_zero fun h0 => hne (by rw [h0, Nat.mul_zero])
  have hnpos : 0 < n := Nat.pos_of_mul_pos_right hstep
  have hle : n * after.prod ≤ before.prod * (n * after.prod) := Nat.le_mul_of_pos_left _ hm
  have hnle : n ≤ n * after.prod := Nat.le_mul_of_pos_right n (Nat.pos_of_mul_pos_left hstep)
  have hPle : after.prod ≤ n * after.prod := Nat.le_mul_of_pos_left _ hnpos
  have hlength : args.length = n := by
    rw [hargs.length, hn, u32_of_lt (by omega), if_neg (by omega)]
  have hinner : args.inner = after.prod := by
    rw [hargs.inner, hafter, u32_of_lt (by omega)]
  have hsub : args.subtype ≤ 3 := by
    rw [hargs.subtype]
    cases hcase : subtypeOf node.reduceType with
    | none => decide
    | some subtype => exact subtypeOf_le hcase
  have helements : args.n = before.prod * (n * after.prod) := by
    rw [hargs.elements, elemsOf_eq (by omega), hprod, u32_of_lt (by omega)]
  obtain ⟨y, hrun, hlen, hval⟩ := execReduce_chains ops hargs.axis hsub
    (by rwa [hlength, hinner]) hm (by rw [hlength, hinner, helements])
    (hcount.trans (hprod.trans helements.symm)) old
  rw [hlength, hinner] at hval
  rw [hinner] at hlen
  have hbox : (select false (usedMask node) node.input.shape).prod = before.prod * after.prod := by
    rw [usedMask, hshape, List.length_append, List.length_cons, select_oneAxis n hfront (by omega),
      List.prod_append]
  refine ⟨y, hrun, hlen.trans hbox.symm, fun i hi => ?_⟩
  rw [hlen] at hi
  have hP : 0 < after.prod := Nat.pos_of_mul_pos_left hstep
  have hrow : i / after.prod < before.prod := (Nat.div_lt_iff_lt_mul hP).mpr hi
  have hcol : i % after.prod < after.prod := Nat.mod_lt i hP
  have hplace : i / after.prod * after.prod + i % after.prod = i := Nat.div_add_mod' i _
  have hcell := hval _ hrow _ hcol
  rw [hplace, hargs.subtype] at hcell
  refine ⟨chain n after.prod (i / after.prod) (i % after.prod), chain_nodup hP, ?_, fun p => ?_,
    hcell⟩
  · unfold chain
    rw [Ne, List.map_eq_nil_iff, List.range_eq_nil]
    exact hnpos.ne'
  · have hproject (hp : p < node.input.shape.prod) :
        project (usedMask node) node.input.shape p =
          p / (n * after.prod) * after.prod + p % after.prod := by
      rw [hshape] at hp
      rw [usedMask, hshape, List.length_append, List.length_cons, ← project_oneAxis hp, hfront]
      congr 2
      omega
    constructor
    · intro hp
      have hlt := chain_lt hrow hcol hp
      rw [← hprod] at hlt
      rw [mem_chain hnpos hcol, hplace] at hp
      exact ⟨hlt, (hproject hlt).trans hp⟩
    · rintro ⟨hlt, hp⟩
      rw [mem_chain hnpos hcol, hplace, ← hproject hlt]
      exact hp

theorem right_of_same (h : Shaped node) (hne : node.input.shape.prod ≠ 0)
    (hknown : (subtypeOf node.reduceType).isSome) (hsame : SameAxes node) (out : OutputDef) :
    Right ops node out := by
  by_cases href : Refused node
  · exact .inl (emit_refused h href out)
  · obtain ⟨args, hargs⟩ := emit_taken h href out
    refine .inr ⟨args, hargs.emits, fun x old hcount => ?_⟩
    obtain ⟨y, hrun, hlen, hval⟩ := device_reduces ops h href hne hargs hcount old
    have hagree := sameAxes_iff.mp hsame
    have hkept : (keptDims node).prod = y.length := by
      rw [hlen, keptDims, prod_select_congr (length_mask node) (length_usedMask h href) hagree]
    have htarget := (project_eq_iff (length_mask node) (length_usedMask h href) hne).mpr hagree
    refine ⟨y, hrun, fun i hi => ?_⟩
    rw [hkept] at hi
    obtain ⟨ps, hnodup, -, hmem, hcell⟩ := hval i hi
    obtain ⟨subtype, hsub⟩ := Option.isSome_iff_exists.mp hknown
    refine ⟨_, hcell, subtype, ps, hsub, ?_, by rw [hsub, Option.getD_some]⟩
    rw [List.perm_ext_iff_of_nodup hnodup (List.nodup_range.filter _)]
    intro p
    rw [hmem, List.mem_filter, List.mem_range, decide_eq_true_iff]
    apply and_congr_right
    intro hp
    rw [target, htarget p hp]

theorem same_of_right (laws : FloatLaws ops) (h : Shaped node) (href : ¬Refused node)
    (hne : node.input.shape.prod ≠ 0) {out : OutputDef} (hright : Right ops node out) :
    (subtypeOf node.reduceType).isSome ∧ SameAxes node := by
  obtain ⟨args, hargs⟩ := emit_taken h href out
  have hreads : ∀ x : Tensor, x.count = node.input.shape.prod →
      ∃ y, execReduce ops args x (fun _ => 0) = .ok y ∧
        ∀ i < (keptDims node).prod, ∃ v, y[i]? = some v ∧ Reduces ops node x i v := by
    rcases hright with ⟨e, he⟩ | ⟨args', hargs', hall⟩
    · rw [hargs.emits] at he
      cases he
    · rw [hargs.emits] at hargs'
      cases hargs'
      exact fun x hx => hall x _ hx
  -- the lists that are combined for the place that `p` lies over, as wanted and on the device
  have hlists (x : Tensor) (hcount : x.count = node.input.shape.prod) (p : ℕ)
      (hp : p < node.input.shape.prod) :
      ∃ (subtype : ℕ) (ps qs : List ℕ), subtypeOf node.reduceType = some subtype ∧ ps.Nodup ∧
        (∀ q, q ∈ ps ↔ q < node.input.shape.prod ∧ target node q = target node p) ∧ qs.Nodup ∧
        qs ≠ [] ∧ (∀ q, q ∈ qs ↔ q < node.input.shape.prod ∧
          project (usedMask node) node.input.shape q = target node p) ∧
        reduceOf ops subtype (ps.map fun q => x.data.getD q 0) =
          reduceOf ops subtype (qs.map fun q => x.data.getD q 0) := by
    obtain ⟨y, hrun, hcells⟩ := hreads x hcount
    obtain ⟨y', hrun', -, hval⟩ := device_reduces ops h href hne hargs hcount fun _ => 0
    rw [hrun] at hrun'
    cases hrun'
    obtain ⟨v, hv, subtype, ps, hsub, hperm, rfl⟩ := hcells (target node p) (project_lt hp)
    obtain ⟨qs, hnodup, hqs, hmem, hcell⟩ := hval _ (List.getElem?_eq_some_iff.mp hv).1
    rw [hv, hsub, Option.getD_some] at hcell
    refine ⟨subtype, ps, qs, hsub, hperm.nodup_iff.mpr (List.nodup_range.filter _), ?_, hnodup,
      hqs, hmem, Option.some.inj hcell⟩
    intro q
    rw [hperm.mem_iff, List.mem_filter, List.mem_range, decide_eq_true_iff]
  obtain ⟨subtype, -, -, hsub, -⟩ := hlists (Tensor.indicator _ h.fits 0) (count_indicator h.fits 0) 0
    (Nat.pos_of_ne_zero hne)
  refine ⟨by rw [hsub]; rfl, ?_⟩
  rw [sameAxes_iff]
  apply (project_eq_iff (length_mask node) (length_usedMask h href) hne).mp
  intro p hp
  by_contra hdiff
  obtain ⟨x, hcount, htells⟩ := reduceOf_tells laws (subtypeOf_le hsub) h.fits hp
  obtain ⟨subtype', ps, qs, hsub', hps, hpsmem, hqs, hqsne, hqsmem, heq⟩ := hlists x hcount p hp
  rw [hsub] at hsub'
  cases hsub'
  refine htells ps qs hps (fun q hq => ((hpsmem q).mp hq).1) hqs (fun q hq => ((hqsmem q).mp hq).1)
    ((hpsmem p).mpr ⟨hp, rfl⟩) hqsne (fun hmem => ?_) heq
  exact hdiff ((hqsmem p).mp hmem).2.symm

theorem right_empty_iff (h : Shaped node) (href : ¬Refused node) (hzero : node.input.shape.prod = 0)
    (out : OutputDef) :
    Right ops node out ↔ (keptDims node).prod = 0 ∧ u32 (usedStep node) ≠ 0 := by
  obtain ⟨args, hargs⟩ := emit_taken h href out
  have hsub : args.subtype ≤ 3 := by
    rw [hargs.subtype]
    cases hcase : subtypeOf node.reduceType with
    | none => decide
    | some subtype => exact subtypeOf_le hcase
  have hn : args.n = 0 := by
    rw [hargs.elements, elemsOf, hzero]
    rfl
  have hstep : u32 (args.length * args.inner) = u32 (usedStep node) := by
    rw [hargs.length, hargs.inner, u32_mul_u32, usedStep]
  constructor
  · rintro (⟨e, he⟩ | ⟨args', hargs', hall⟩)
    · rw [hargs.emits] at he
      cases he
    · rw [hargs.emits] at hargs'
      cases hargs'
      obtain ⟨y, hrun, hcells⟩ := hall (Tensor.indicator _ h.fits 0) (fun _ => 0)
        (count_indicator h.fits 0)
      rcases execReduce_empty ops (x := Tensor.indicator _ h.fits 0) hargs.axis hsub hn fun _ => 0 with
        ⟨hrun', haccept⟩ | ⟨-, hstop⟩
      · rw [hrun] at hrun'
        cases hrun'
        refine ⟨?_, hstep ▸ haccept⟩
        by_contra hpos
        obtain ⟨v, hv, -⟩ := hcells 0 (Nat.pos_of_ne_zero hpos)
        cases hv
      · exact absurd hrun (hstop y)
  · rintro ⟨hkept, haccept⟩
    refine .inr ⟨args, hargs.emits, fun x old _ => ?_⟩
    rcases execReduce_empty ops (x := x) hargs.axis hsub hn old with ⟨hrun, -⟩ | ⟨hbad, -⟩
    · refine ⟨[], hrun, fun i hi => ?_⟩
      rw [hkept] at hi
      exact absurd hi (Nat.not_lt_zero i)
    · rw [hstep] at hbad
      exact absurd hbad haccept

end Main

/-! ### Failing inputs -/

section Instance

/-- Integers in the place of floats, in units of the smallest half: exact for 0, 1 and the largest and
smallest halves. -/
def integers : FloatOps ℤ where
  widen h :=
    if h = 0x3C00 then 16777216 else if h = 0x7BFF then 1098974756864
    else if h = 0xFBFF then -1098974756864 else 0
  narrow v := if v = 0 then 0 else if v = 16777216 then 0x3C00 else if 0 < v then 0x7BFF else 0xFBFF
  ofNat n := n * 16777216
  zero := 0
  lowest := -10000000000000000000000
  highest := 10000000000000000000000
  add := (· + ·)
  div a b := a * 16777216 / b
  lt a b := decide (a < b)

theorem narrow_ne {v : ℤ} (hv : 0 < v) : integers.narrow v ≠ integers.narrow 0 := by
  show (if v = 0 then (0 : UInt16) else if v = 16777216 then 0x3C00 else if 0 < v then 0x7BFF
    else 0xFBFF) ≠ 0
  rw [if_neg hv.ne', if_pos hv]
  split <;> decide

theorem integers_laws : FloatLaws integers where
  widen_zero := by decide
  add_zero := by decide
  zero_add := by decide
  largest_add := by decide
  lowest_lt := by decide
  lowest_lt_largest := by decide
  lt_largest := by decide
  largest_not_lt := by decide
  zero_not_lt := by decide
  lt_highest := by decide
  smallest_lt_highest := by decide
  smallest_lt := by decide
  smallest_not_lt := by decide
  narrow_largest := by decide
  narrow_smallest := by decide
  mean_largest := by
    intro m n hm hm' hn _
    have hzero : integers.div integers.zero (integers.ofNat n) = 0 := by
      show (0 : ℤ) * 16777216 / (n * 16777216) = 0
      rw [Int.zero_mul, Int.zero_ediv]
    have hmean : 1 ≤ (1098974756864 : ℤ) * 16777216 / (m * 16777216) :=
      Int.le_ediv_of_mul_le (by omega) (by omega)
    rw [hzero]
    exact narrow_ne (Int.lt_of_lt_of_le Int.one_pos hmean)

/-- A sum over the last axis of a `2 × 2` matrix; the constant with the axis lies at offset 4. -/
def lastAxis : ReduceNode where
  pool := [0, 0, 0, 0, 4, 0, 0, 0]
  axes := ⟨4, 4⟩
  axis := none
  reduceType := "ReduceSum"
  keepDims := 0
  exclusive := 0
  reverse := 0
  input := OutputDef.five 1 1 1 2 2

def twoAxes : ReduceNode := { lastAxis with
  pool := [0, 0, 0, 0, 3, 0, 0, 0, 4, 0, 0, 0]
  axes := ⟨4, 8⟩ }

theorem lastAxis_shaped : Shaped lastAxis := ⟨by decide, by decide⟩

theorem twoAxes_shaped : Shaped twoAxes := ⟨by decide, by decide⟩

end Instance

end Gehtp.Analysis.ReduceGroups
