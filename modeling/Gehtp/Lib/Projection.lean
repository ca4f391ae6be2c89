import Gehtp.Lib.Axes

/-!
# Projecting a box along some of its axes

A mask marks the axes of a box that are given up. Each place of the box lies over a place of the box of
the other axes. Which place that is depends on the axes that are not of size 1 only, and the places
tell which of these axes are marked.
-/

set_option autoImplicit false

namespace Gehtp.Lib.Axes

open Lib.RowMajor

/-- The place of the other axes that a place of the box lies over. -/
def project (ms : List Bool) (shape : List ℕ) (p : ℕ) : ℕ :=
  lin (select false ms shape) (select false ms (coords shape p))

/-- One marked axis with `k` axes in front and `m` behind. -/
def oneAxis (k m : ℕ) : List Bool := List.replicate k false ++ true :: List.replicate m false

variable {ms ms' : List Bool} {shape cs : List ℕ}

theorem project_lt {p : ℕ} (h : p < shape.prod) :
    project ms shape p < (select false ms shape).prod :=
  lin_lt (select_within false ms (coords_within h))

/-! ### Axes that matter -/

theorem prod_select_congr (hlen : ms.length = shape.length) (hlen' : ms'.length = shape.length)
    (h : ∀ a, shape.getD a 1 ≠ 1 → ms.getD a false = ms'.getD a false) :
    (select false ms shape).prod = (select false ms' shape).prod := by
  induction shape generalizing ms ms' with
  | nil =>
    obtain rfl := List.length_eq_zero_iff.mp hlen
    obtain rfl := List.length_eq_zero_iff.mp hlen'
    rfl
  | cons d ds ih =>
    obtain ⟨m, ms, rfl⟩ := List.exists_cons_of_length_eq_add_one hlen
    obtain ⟨m', ms', rfl⟩ := List.exists_cons_of_length_eq_add_one hlen'
    have hrest := ih (Nat.succ.inj hlen) (Nat.succ.inj hlen') fun a ha => h (a + 1) ha
    by_cases hd : d = 1
    · have hdrop (b : Bool) (bs : List Bool) :
          (select false (b :: bs) (d :: ds)).prod = (select false bs ds).prod := by
        cases b with
        | false => rw [select_cons_of, List.prod_cons, hd, Nat.one_mul]
        | true => rw [select_cons_of_ne (by decide)]
      rw [hdrop, hdrop, hrest]
    · obtain rfl : m = m' := h 0 hd
      cases m with
      | false => rw [select_cons_of, select_cons_of, List.prod_cons, List.prod_cons, hrest]
      | true => rw [select_cons_of_ne (by decide), select_cons_of_ne (by decide), hrest]

theorem lin_select_congr (hlen : ms.length = shape.length) (hlen' : ms'.length = shape.length)
    (h : ∀ a, shape.getD a 1 ≠ 1 → ms.getD a false = ms'.getD a false) (hcs : Within cs shape) :
    lin (select false ms shape) (select false ms cs) =
      lin (select false ms' shape) (select false ms' cs) := by
  induction hcs generalizing ms ms' with
  | nil =>
    obtain rfl := List.length_eq_zero_iff.mp hlen
    obtain rfl := List.length_eq_zero_iff.mp hlen'
    rfl
  | @cons c d cs ds hc _ ih =>
    obtain ⟨m, ms, rfl⟩ := List.exists_cons_of_length_eq_add_one hlen
    obtain ⟨m', ms', rfl⟩ := List.exists_cons_of_length_eq_add_one hlen'
    have hrest := ih (Nat.succ.inj hlen) (Nat.succ.inj hlen') fun a ha => h (a + 1) ha
    by_cases hd : d = 1
    · subst hd
      have hdrop (b : Bool) (bs : List Bool) :
          lin (select false (b :: bs) (1 :: ds)) (select false (b :: bs) (c :: cs)) =
            lin (select false bs ds) (select false bs cs) := by
        cases b with
        | false => rw [select_cons_of, select_cons_of, lin_one_cons _ _ _ hc]
        | true => rw [select_cons_of_ne (by decide), select_cons_of_ne (by decide)]
      rw [hdrop, hdrop, hrest]
    · obtain rfl : m = m' := h 0 hd
      have hprod := prod_select_congr (Nat.succ.inj hlen) (Nat.succ.inj hlen') fun a ha => h (a + 1) ha
      cases m with
      | false =>
        rw [select_cons_of, select_cons_of, select_cons_of, select_cons_of, lin_cons, lin_cons, hprod,
          hrest]
      | true => rw [select_cons_of_ne (by decide), select_cons_of_ne (by decide),
          select_cons_of_ne (by decide), select_cons_of_ne (by decide), hrest]

/-- The cell with coordinate 1 on one axis and 0 on the others. -/
def unit : ℕ → ℕ → List ℕ
  | 0, _ => []
  | r + 1, 0 => 1 :: List.replicate r 0
  | r + 1, a + 1 => 0 :: unit r a

theorem select_zeros (ms : List Bool) (k : ℕ) :
    ∃ j, select false ms (List.replicate k 0) = List.replicate j 0 := by
  induction k generalizing ms with
  | zero => cases ms <;> exact ⟨0, rfl⟩
  | succ k ih =>
    cases ms with
    | nil => exact ⟨0, rfl⟩
    | cons m ms =>
      obtain ⟨j, hj⟩ := ih ms
      rw [List.replicate_succ]
      cases m with
      | false => exact ⟨j + 1, by rw [select_cons_of, hj, List.replicate_succ]⟩
      | true => exact ⟨j, by rw [select_cons_of_ne (by decide), hj]⟩

theorem zeros_within (hpos : ∀ d ∈ shape, 0 < d) : Within (List.replicate shape.length 0) shape := by
  induction shape with
  | nil => exact List.Forall₂.nil
  | cons d ds ih =>
    exact List.Forall₂.cons (hpos d List.mem_cons_self)
      (ih fun e he => hpos e (List.mem_cons_of_mem d he))

/-- The cell is one of the box if the axis has a second place; it lies over the first place exactly if
the axis is marked. -/
theorem unit_spec {a : ℕ} (hlen : ms.length = shape.length) (hpos : ∀ d ∈ shape, 0 < d)
    (ha : 1 < shape.getD a 1) :
    Within (unit shape.length a) shape ∧
      (lin (select false ms shape) (select false ms (unit shape.length a)) = 0 ↔
        ms.getD a false = true) := by
  induction shape generalizing ms a with
  | nil => exact absurd ha (Nat.lt_irrefl 1)
  | cons d ds ih =>
    obtain ⟨m, ms, rfl⟩ := List.exists_cons_of_length_eq_add_one hlen
    have hpos' : ∀ e ∈ ds, 0 < e := fun e he => hpos e (List.mem_cons_of_mem d he)
    cases a with
    | zero =>
      refine ⟨List.Forall₂.cons ha (zeros_within hpos'), ?_⟩
      obtain ⟨j, hj⟩ := select_zeros ms ds.length
      rw [List.length_cons, unit]
      cases m with
      | false =>
        have hprod : 0 < (select false ms ds).prod :=
          List.prod_pos_iff_forall_pos_nat.mpr fun e he => hpos' e (mem_of_mem_select he)
        rw [select_cons_of, select_cons_of, lin_cons, hj, lin_zeros, Nat.one_mul, Nat.add_zero]
        exact iff_of_false hprod.ne' Bool.false_ne_true
      | true =>
        rw [select_cons_of_ne (by decide), select_cons_of_ne (by decide), hj, lin_zeros]
        exact iff_of_true rfl rfl
    | succ a =>
      obtain ⟨hin, hzero⟩ := ih (Nat.succ.inj hlen) hpos' ha
      refine ⟨List.Forall₂.cons (hpos d List.mem_cons_self) hin, ?_⟩
      rw [List.length_cons, unit, List.getD_cons_succ, ← hzero]
      cases m with
      | false => rw [select_cons_of, select_cons_of, lin_cons, Nat.zero_mul, Nat.zero_add]
      | true => rw [select_cons_of_ne (by decide), select_cons_of_ne (by decide)]

/-- Two masks project a box that is not empty in the same way exactly if they agree on the axes that
are not of size 1. -/
theorem project_eq_iff (hlen : ms.length = shape.length) (hlen' : ms'.length = shape.length)
    (hne : shape.prod ≠ 0) :
    (∀ p < shape.prod, project ms shape p = project ms' shape p) ↔
      ∀ a, shape.getD a 1 ≠ 1 → ms.getD a false = ms'.getD a false := by
  have hpos := List.prod_pos_iff_forall_pos_nat.mp (Nat.pos_of_ne_zero hne)
  constructor
  · intro h a ha
    have hsize : 1 < shape.getD a 1 := by
      have hlt : a < shape.length := by
        by_contra hge
        exact ha (List.getD_eq_default shape 1 (by omega))
      have := hpos _ (List.getElem_mem hlt)
      rw [List.getD_eq_getElem _ _ hlt] at ha ⊢
      omega
    obtain ⟨hin, hzero⟩ := unit_spec hlen hpos hsize
    obtain ⟨-, hzero'⟩ := unit_spec hlen' hpos hsize
    have hplace := h _ (lin_lt hin)
    rw [project, project, coords_lin hin] at hplace
    rw [Bool.eq_iff_iff, ← hzero, ← hzero', hplace]
  · intro h p hp
    exact lin_select_congr hlen hlen' h (coords_within hp)

/-! ### One axis -/

theorem length_oneAxis (k m : ℕ) : (oneAxis k m).length = k + (m + 1) := by
  rw [oneAxis, List.length_append, List.length_cons, List.length_replicate, List.length_replicate]

theorem getD_oneAxis (k m a : ℕ) : (oneAxis k m).getD a false = true ↔ a = k := by
  unfold oneAxis
  induction k generalizing a with
  | zero =>
    cases a with
    | zero => exact iff_of_true rfl rfl
    | succ a =>
      rw [List.replicate_zero, List.nil_append, List.getD_cons_succ, List.getD_eq_getElem?_getD,
        List.getElem?_getD_replicate_default_eq]
      exact iff_of_false Bool.false_ne_true (Nat.succ_ne_zero a)
  | succ k ih =>
    rw [List.replicate_succ, List.cons_append]
    cases a with
    | zero => exact iff_of_false Bool.false_ne_true (Nat.succ_ne_zero k).symm
    | succ a => rw [List.getD_cons_succ, ih, Nat.succ_inj]

theorem select_append (b : Bool) {ms₁ : List Bool} {as₁ : List ℕ} (h : ms₁.length = as₁.length)
    (ms₂ : List Bool) (as₂ : List ℕ) :
    select b (ms₁ ++ ms₂) (as₁ ++ as₂) = select b ms₁ as₁ ++ select b ms₂ as₂ := by
  induction as₁ generalizing ms₁ with
  | nil =>
    obtain rfl := List.length_eq_zero_iff.mp h
    rfl
  | cons a as ih =>
    obtain ⟨m, ms, rfl⟩ := List.exists_cons_of_length_eq_add_one h
    have ih' := ih (Nat.succ.inj h)
    by_cases hm : m = b
    · subst hm
      rw [List.cons_append, List.cons_append, select_cons_of, select_cons_of, ih', List.cons_append]
    · rw [List.cons_append, List.cons_append, select_cons_of_ne hm, select_cons_of_ne hm, ih']

theorem select_all (as : List ℕ) : select false (List.replicate as.length false) as = as := by
  induction as with
  | nil => rfl
  | cons a as ih => rw [List.length_cons, List.replicate_succ, select_cons_of, ih]

theorem select_oneAxis {before after : List ℕ} (a : ℕ) {k m : ℕ} (hk : before.length = k)
    (hm : after.length = m) :
    select false (oneAxis k m) (before ++ a :: after) = before ++ after := by
  subst hk hm
  rw [oneAxis, select_append false (List.length_replicate), select_all,
    select_cons_of_ne (by decide), select_all]

theorem coords_append {s₁ s₂ : List ℕ} {i : ℕ} (h : i < (s₁ ++ s₂).prod) :
    coords (s₁ ++ s₂) i = coords s₁ (i / s₂.prod) ++ coords s₂ (i % s₂.prod) := by
  induction s₁ generalizing i with
  | nil =>
    rw [List.nil_append] at h
    rw [List.nil_append, coords_nil, List.nil_append, Nat.mod_eq_of_lt h]
  | cons d ds ih =>
    rw [List.cons_append, List.prod_cons] at h
    have hpos : 0 < (ds ++ s₂).prod := Nat.pos_of_mul_pos_left (Nat.zero_lt_of_lt h)
    rw [List.cons_append, coords_cons, coords_cons, List.cons_append, ih (Nat.mod_lt i hpos),
      List.prod_append, Nat.div_div_eq_div_mul, Nat.mul_comm s₂.prod, Nat.mod_mul_left_div_self,
      Nat.mod_mul_left_mod]

theorem project_oneAxis {before after : List ℕ} {n p : ℕ} (hp : p < (before ++ n :: after).prod) :
    project (oneAxis before.length after.length) (before ++ n :: after) p =
      p / (n * after.prod) * after.prod + p % after.prod := by
  have hprod := hp
  rw [List.prod_append, List.prod_cons] at hprod
  have hpos : 0 < n * after.prod := Nat.pos_of_mul_pos_left (Nat.zero_lt_of_lt hprod)
  have hfront : p / (n * after.prod) < before.prod := (Nat.div_lt_iff_lt_mul hpos).mpr hprod
  have hback : p % after.prod < after.prod := Nat.mod_lt p (Nat.pos_of_mul_pos_left hpos)
  rw [project, coords_append hp, coords_cons, List.prod_cons, Nat.mod_mul_left_mod,
    select_oneAxis n rfl rfl, select_oneAxis _ (length_coords _ _) (length_coords _ _),
    lin_append (length_coords _ _), lin_coords hfront, lin_coords hback]

end Gehtp.Lib.Axes
