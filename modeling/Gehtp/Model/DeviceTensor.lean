import Mathlib.Algebra.BigOperators.Group.List.Lemmas
import Mathlib.Algebra.BigOperators.Ring.List
import Mathlib.Data.Nat.ModEq
import Gehtp.Lib.FillLoop
import Gehtp.Lib.RowMajor
import Gehtp.Model.OpGraph

/-!
# Tensors on the device

The kernels of `kernels/src/runtime/oplist_exec.c` read tensors of 16-bit elements from temps and
slots and write their result into a temp. The byte length of a temp and of a slot is a 32-bit
number, so a tensor that is on the device has less than `2 ^ 31` elements; a kernel that asks for
more bytes gets what is left of the number modulo `2 ^ 32`. Index arithmetic is 32-bit, too, where
the source does not cast. The compiler's shapes have 64-bit dimensions.
-/

set_option autoImplicit false

namespace Gehtp.Model.DeviceTensor

open Lib Lib.RowMajor Model.OpGraph

def u32 (x : ℕ) : ℕ := x % 2 ^ 32

theorem u32_of_lt {x : ℕ} (h : x < 2 ^ 32) : u32 x = x := Nat.mod_eq_of_lt h

theorem u32_lt (x : ℕ) : u32 x < 2 ^ 32 := Nat.mod_lt x (by decide)

@[simp] theorem u32_u32_mul (x y : ℕ) : u32 (u32 x * y) = u32 (x * y) := Nat.mod_mul_mod x y _

@[simp] theorem u32_mul_u32 (x y : ℕ) : u32 (x * u32 y) = u32 (x * y) := Nat.mul_mod_mod x y _

@[simp] theorem u32_u32 (x : ℕ) : u32 (u32 x) = u32 x := Nat.mod_mod x _

@[simp] theorem u32_one : u32 1 = 1 := rfl

/-- A tensor in a temp or a slot; its length in bytes fits 32 bits. -/
structure Tensor where
  data : List UInt16
  fits : 2 * data.length < 2 ^ 32

def Tensor.count (x : Tensor) : ℕ := x.data.length

/-- Read one element. -/
def Tensor.load (x : Tensor) (i : ℕ) : Checked String UInt16 := entryAt x.data i

/-- A round that copies one element of the input to a place of the output. -/
def copyCell (address : ℕ → Checked String ℕ) (x : Tensor) (i : ℕ) :
    Checked String (ℕ × UInt16) := do
  let a ← address i
  let v ← x.load a
  .ok (i, v)

theorem load_eq_ok (x : Tensor) (i : ℕ) (v : UInt16) : x.load i = .ok v ↔ x.data[i]? = some v :=
  entryAt_eq_ok x.data i v

variable {i N : ℕ} {shape : List ℕ}

theorem entryAt_getD {α : Type} {l : List α} (h : i < l.length) (d : α) :
    (entryAt l i : Checked String α) = .ok (l.getD i d) := by
  rw [entryAt_eq_ok, List.getD_eq_getElem _ _ h]
  exact List.getElem?_eq_getElem h

theorem getD_of_getElem? {l m : List UInt16} {j : ℕ} (h : l[i]? = m[j]?) :
    l.getD i 0 = m.getD j 0 := by
  rw [List.getD_eq_getElem?_getD, List.getD_eq_getElem?_getD, h]

/-- The output temp of so many bytes, with what was in memory before.
SOURCE: oplist_exec.c, temp_get -/
def tempGet (old : ℕ → UInt16) (bytes : ℕ) : List UInt16 := (List.range (u32 bytes / 2)).map old

theorem length_tempGet (old : ℕ → UInt16) (bytes : ℕ) :
    (tempGet old bytes).length = u32 bytes / 2 := by
  rw [tempGet, List.length_map, List.length_range]

theorem length_tempGet_of_lt (old : ℕ → UInt16) {n : ℕ} (h : 2 * n < 2 ^ 32) :
    (tempGet old (n * 2)).length = n := by
  rw [length_tempGet, u32_of_lt (by omega), Nat.mul_div_cancel n (by decide)]

theorem length_lt_of_fill {cell : ℕ → Checked String (ℕ × UInt16)} {rounds : List ℕ}
    {old : ℕ → UInt16} {bytes : ℕ} {y : List UInt16}
    (h : fillLoop cell rounds (tempGet old bytes) = .ok y) : y.length < 2 ^ 31 := by
  have hlt := u32_lt bytes
  rw [length_of_fillLoop h, length_tempGet]
  omega

section Copy

variable {address : ℕ → Checked String ℕ} {x : Tensor} {n : ℕ} {y y' : List UInt16}

theorem copy_runs {a : ℕ → ℕ} (haddr : ∀ i < n, address i = .ok (a i))
    (hload : ∀ i < n, a i < x.count) (hn : n ≤ y.length) :
    ∃ y', fillLoop (copyCell address x) (List.range n) y = .ok y' ∧ y'.length = y.length ∧
      ∀ i < n, y'[i]? = x.data[a i]? := by
  obtain ⟨y', hrun, hlen, hval⟩ := fillLoop_range (copyCell address x)
    (fun i => x.data.getD (a i) 0) (fun i hi => by
      have hget : x.load (a i) = .ok (x.data.getD (a i) 0) := by
        rw [load_eq_ok, List.getD_eq_getElem _ _ (hload i hi)]
        exact List.getElem?_eq_getElem (hload i hi)
      rw [copyCell, haddr i hi]
      show (x.load (a i) >>= _) = _
      rw [hget]
      rfl) hn
  refine ⟨y', hrun, hlen, fun i hi => ?_⟩
  rw [hval i hi, List.getD_eq_getElem _ _ (hload i hi)]
  exact (List.getElem?_eq_getElem (hload i hi)).symm

theorem copy_inv (h : fillLoop (copyCell address x) (List.range n) y = .ok y') :
    n ≤ y.length ∧
      ∀ i < n, ∃ a, address i = .ok a ∧ a < x.count ∧ y'[i]? = x.data[a]? := by
  have hcell : ∀ i w, copyCell address x i = .ok w →
      ∃ a, address i = .ok a ∧ x.data[a]? = some w.2 ∧ w.1 = i := by
    intro i w hw
    rw [copyCell, bind_eq_ok] at hw
    obtain ⟨a, ha, hw⟩ := hw
    rw [bind_eq_ok] at hw
    obtain ⟨v, hv, hw⟩ := hw
    cases hw
    exact ⟨a, ha, (load_eq_ok x a v).mp hv, rfl⟩
  obtain ⟨hn, hval⟩ := fillLoop_range_inv (fun i _ w hw => (hcell i w hw).choose_spec.2.2) h
  refine ⟨hn, fun i hi => ?_⟩
  obtain ⟨v, hv, hy⟩ := hval i hi
  obtain ⟨a, ha, hget, -⟩ := hcell i (i, v) hv
  exact ⟨a, ha, (List.getElem?_eq_some_iff.mp hget).1, hy.trans hget.symm⟩

/-- A tensor that is 0 but for one place. -/
def Tensor.indicator (N : ℕ) (hN : 2 * N < 2 ^ 32) (t : ℕ) : Tensor where
  data := (List.range N).map fun i => if i = t then 1 else 0
  fits := by
    rw [List.length_map, List.length_range]
    exact hN

theorem count_indicator (hN : 2 * N < 2 ^ 32) (t : ℕ) : (Tensor.indicator N hN t).count = N := by
  show ((List.range N).map _).length = N
  rw [List.length_map, List.length_range]

theorem getD_indicator (hN : 2 * N < 2 ^ 32) {t : ℕ} (hi : i < N) :
    (Tensor.indicator N hN t).data.getD i 0 = if i = t then 1 else 0 := by
  show ((List.range N).map _).getD i 0 = _
  rw [List.getD_eq_getElem _ _ (by rw [List.length_map, List.length_range]; exact hi),
    List.getElem_map, List.getElem_range]

theorem indicator_eq_one (hN : 2 * N < 2 ^ 32) {t : ℕ} (hi : i < N) :
    (Tensor.indicator N hN t).data[i]? = some 1 ↔ i = t := by
  have hget : (Tensor.indicator N hN t).data[i]? = some (if i = t then 1 else 0) := by
    show ((List.range N).map _)[i]? = _
    rw [List.getElem?_map, List.getElem?_range hi]
    rfl
  rw [hget]
  constructor
  · intro h
    by_contra hne
    rw [if_neg hne] at h
    exact absurd (Option.some.inj h) (by decide)
  · intro h
    rw [if_pos h]

/-- Such a kernel copies the elements at the places wanted, whatever the input holds, exactly if it
reads at these places. -/
theorem copy_iff (hN : 2 * N < 2 ^ 32) {a t : ℕ → ℕ} (haddr : ∀ i < n, address i = .ok (a i))
    (ht : ∀ i < n, t i < N) (hn : n ≤ y.length) :
    (∀ x : Tensor, x.count = N → ∃ y', fillLoop (copyCell address x) (List.range n) y = .ok y' ∧
      ∀ i < n, y'[i]? = x.data[t i]?) ↔ ∀ i < n, a i = t i := by
  constructor
  · intro h i hi
    obtain ⟨y', hrun, hval⟩ := h (Tensor.indicator N hN (t i)) (count_indicator hN (t i))
    obtain ⟨-, hread⟩ := copy_inv hrun
    obtain ⟨b, hb, hlt, hy⟩ := hread i hi
    rw [haddr i hi] at hb
    cases hb
    rw [count_indicator hN] at hlt
    rw [hval i hi, (indicator_eq_one hN (ht i hi)).mpr rfl] at hy
    exact (indicator_eq_one hN hlt).mp hy.symm
  · intro h x hx
    obtain ⟨y', hrun, -, hval⟩ := copy_runs haddr (fun i hi => by
      rw [h i hi, hx]
      exact ht i hi) hn
    exact ⟨y', hrun, fun i hi => by rw [hval i hi, h i hi]⟩

theorem copy_onlyFaults (haddr : ∀ i, OnlyFaults (address i)) :
    OnlyFaults (fillLoop (copyCell address x) (List.range n) y) := by
  intro s hs
  cases fillLoop_error hs with
  | inl hfault => exact hfault
  | inr hround =>
    obtain ⟨i, -, hi⟩ := hround
    refine onlyFaults_bind (haddr i) (fun a => ?_) s hi
    apply onlyFaults_bind
    · intro s hs
      unfold Tensor.load entryAt at hs
      split at hs
      · cases hs
      · cases hs
        rfl
    · intro v
      exact onlyFaults_pure _

end Copy

/-- The cells of a tensor of this shape, a 64-bit number. SOURCE: wtop_ops.hpp, elems_of -/
def elemsOf (od : OutputDef) : ℕ := od.shape.prod % 2 ^ 64

theorem elemsOf_eq {od : OutputDef} (h : od.shape.prod < 2 ^ 32) : elemsOf od = od.shape.prod :=
  Nat.mod_eq_of_lt (by omega)

/-- The number of axes without those of size 1 at the end.
SOURCE: op_strided_slice.cpp:48-49, oplist_exec.c:1884-1885 -/
def strippedRank (shape : List ℕ) : ℕ := (shape.reverse.dropWhile (· = 1)).length

/-- Drop axes of size 1 in front while there are more than `target` axes.
SOURCE: op_transpose.cpp:62-65, op_strided_slice.cpp:100-103, op_eltwise_binary.cpp:36-37 -/
def dropOnes (target : ℕ) : List ℕ → List ℕ
  | [] => []
  | d :: ds => if target < ds.length + 1 ∧ d = 1 then dropOnes target ds else d :: ds

theorem dropOnes_eq_drop (target : ℕ) (ds : List ℕ) :
    ∃ j, dropOnes target ds = ds.drop j ∧ ∀ d ∈ ds.take j, d = 1 := by
  induction ds with
  | nil => exact ⟨0, rfl, fun d hd => absurd hd List.not_mem_nil⟩
  | cons d ds ih =>
    by_cases hd : target < ds.length + 1 ∧ d = 1
    · obtain ⟨j, hj, hones⟩ := ih
      rw [dropOnes, if_pos hd]
      refine ⟨j + 1, hj, fun e he => ?_⟩
      rw [List.take_succ_cons, List.mem_cons] at he
      cases he with
      | inl he => exact he.trans hd.2
      | inr he => exact hones e he
    · rw [dropOnes, if_neg hd]
      exact ⟨0, rfl, fun e he => absurd he List.not_mem_nil⟩

/-! ### Index arithmetic -/

/-- The strides of a shape, computed from the last axis on in 32-bit arithmetic. -/
def strides32 : List ℕ → List ℕ
  | [] => []
  | [_] => [1]
  | _ :: d :: ds =>
    match strides32 (d :: ds) with
    | [] => []
    | s :: ss => u32 (s * d) :: s :: ss

/-- Divide what is left by one stride after the other. -/
def walk : List ℕ → ℕ → Checked String (List ℕ)
  | [], _ => .ok []
  | s :: ss, rem =>
    if s = 0 then .error .fault else (walk ss (rem % s)).map fun cs => rem / s :: cs

/-- The sum of the coordinates times the strides, in 32-bit arithmetic. -/
def address32 (strides cs : List ℕ) : ℕ := u32 (dot strides cs)

theorem strides32_eq_map (shape : List ℕ) : strides32 shape = (strides shape).map u32 := by
  induction shape with
  | nil => rfl
  | cons d ds ih =>
    cases ds with
    | nil => rfl
    | cons d' ds =>
      rw [strides_cons, List.map_cons] at ih
      rw [strides32, ih]
      show u32 (u32 ds.prod * d') :: u32 ds.prod :: (strides ds).map u32 = _
      rw [strides_cons, strides_cons, List.map_cons, List.map_cons, u32_u32_mul, List.prod_cons,
        Nat.mul_comm]

theorem prod_tail_le {d : ℕ} {ds : List ℕ} (h : 0 < (d :: ds).prod) :
    0 < ds.prod ∧ ds.prod ≤ (d :: ds).prod := by
  rw [List.prod_cons] at h ⊢
  have hd : 0 < d := Nat.pos_of_mul_pos_right h
  exact ⟨Nat.pos_of_mul_pos_left h, Nat.le_mul_of_pos_left _ hd⟩

theorem strides32_eq (hpos : 0 < shape.prod) (hlt : shape.prod < 2 ^ 32) :
    strides32 shape = strides shape := by
  rw [strides32_eq_map]
  induction shape with
  | nil => rfl
  | cons d ds ih =>
    obtain ⟨htail, hle⟩ := prod_tail_le hpos
    rw [strides_cons, List.map_cons, u32_of_lt (Nat.lt_of_le_of_lt hle hlt),
      ih htail (Nat.lt_of_le_of_lt hle hlt)]

theorem le_prod_of_mem (hpos : 0 < shape.prod) {d : ℕ} (hd : d ∈ shape) :
    d ≤ shape.prod := Nat.le_of_dvd hpos (List.dvd_prod hd)

theorem map_u32_eq (hpos : 0 < shape.prod) (hlt : shape.prod < 2 ^ 32) : shape.map u32 = shape := by
  induction shape with
  | nil => rfl
  | cons d ds ih =>
    obtain ⟨htail, hle⟩ := prod_tail_le hpos
    have hd : d ≤ (d :: ds).prod := by
      rw [List.prod_cons]
      exact Nat.le_mul_of_pos_right d htail
    rw [List.map_cons, u32_of_lt (by omega), ih htail (by omega)]

theorem prod_map_u32 (hlt : shape.prod < 2 ^ 32) : (shape.map u32).prod = shape.prod := by
  by_cases hpos : 0 < shape.prod
  · rw [map_u32_eq hpos hlt]
  · have hzero : 0 ∈ shape := List.prod_eq_zero_iff.mp (by omega)
    have hzero' : 0 ∈ shape.map u32 := List.mem_map.mpr ⟨0, hzero, rfl⟩
    rw [List.prod_eq_zero hzero', List.prod_eq_zero hzero]

theorem walk_strides (hpos : 0 < shape.prod) (i : ℕ) :
    walk (strides shape) i = .ok (coords shape i) := by
  induction shape generalizing i with
  | nil => rfl
  | cons d ds ih =>
    obtain ⟨htail, -⟩ := prod_tail_le hpos
    rw [strides_cons, walk, if_neg (by omega), ih htail]
    rfl

theorem walk_onlyFaults (strides : List ℕ) (i : ℕ) : OnlyFaults (walk strides i) := by
  induction strides generalizing i with
  | nil => exact onlyFaults_pure _
  | cons s ss ih =>
    rw [walk]
    split
    · intro e he
      cases he
      rfl
    · intro e he
      cases hrest : walk ss (i % s) with
      | error e' =>
        rw [hrest] at he
        cases he
        exact ih _ _ hrest
      | ok cs =>
        rw [hrest] at he
        cases he

theorem address32_map_u32 (ss cs : List ℕ) : address32 (ss.map u32) cs = u32 (dot ss cs) := by
  have hmod : Nat.ModEq (2 ^ 32) (dot (ss.map u32) cs) (dot ss cs) := by
    induction ss generalizing cs with
    | nil => rfl
    | cons s ss ih =>
      cases cs with
      | nil => rfl
      | cons c cs =>
        rw [List.map_cons, dot_cons, dot_cons]
        exact ((Nat.mod_modEq s (2 ^ 32)).mul_left c).add (ih cs)
  exact hmod

theorem address32_strides {cs : List ℕ} (hcs : Within cs shape) (hlt : shape.prod < 2 ^ 32) :
    address32 (strides shape) cs = lin shape cs := by
  rw [address32, dot_strides]
  exact u32_of_lt (Nat.lt_trans (lin_lt hcs) hlt)

end Gehtp.Model.DeviceTensor
