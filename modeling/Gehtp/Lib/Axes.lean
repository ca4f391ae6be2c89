import Gehtp.Lib.RowMajor

/-!
# Separating axes

A mask separates the axes of a box into two groups. The place of a cell is a sum of what the
coordinates of the one group and of the other contribute, and the coordinates of both can be woven
together again. A number read digit by digit, the first digit running fastest, goes through the
coordinates of a group. Axes of size 1 contribute nothing, so that only the strides at the other ones
matter. Exchanging the axes does not change the sum.
-/

set_option autoImplicit false

namespace Gehtp.Lib.Axes

open Lib.RowMajor

/-- The entries at the axes that the mask puts into the group `b`. -/
def select (b : Bool) : List Bool → List ℕ → List ℕ
  | m :: ms, a :: as => if m = b then a :: select b ms as else select b ms as
  | _, _ => []

/-- Put the entries of the two groups back in order. -/
def weave : List Bool → List ℕ → List ℕ → List ℕ
  | [], _, _ => []
  | false :: ms, ks, rs => ks.headD 0 :: weave ms ks.tail rs
  | true :: ms, ks, rs => rs.headD 0 :: weave ms ks rs.tail

/-- The digits of a number, the first one running fastest. -/
def digits : List ℕ → ℕ → List ℕ
  | [], _ => []
  | d :: ds, r => r % d :: digits ds (r / d)

/-- The number of the digits. -/
def undigits : List ℕ → List ℕ → ℕ
  | d :: ds, c :: cs => c + d * undigits ds cs
  | _, _ => 0

/-- The strides at the axes that are not of size 1. -/
def strideAt : List ℕ → List ℕ → List ℕ
  | [], _ => []
  | d :: ds, ss => if d = 1 then strideAt ds ss.tail else ss.headD 0 :: strideAt ds ss.tail

/-! ### Groups -/

section Groups

variable {ms : List Bool} {as cs shape ks rs : List ℕ}

theorem select_cons_of (m : Bool) (ms : List Bool) (a : ℕ) (as : List ℕ) :
    select m (m :: ms) (a :: as) = a :: select m ms as := if_pos rfl

theorem select_cons_of_ne {b m : Bool} (h : m ≠ b) (ms : List Bool) (a : ℕ) (as : List ℕ) :
    select b (m :: ms) (a :: as) = select b ms as := if_neg h

theorem mem_of_mem_select {b : Bool} {a : ℕ} (h : a ∈ select b ms as) : a ∈ as := by
  induction as generalizing ms with
  | nil =>
    cases ms with
    | nil => cases h
    | cons m ms => cases h
  | cons a' as ih =>
    cases ms with
    | nil => cases h
    | cons m ms =>
      by_cases hm : m = b
      · subst hm
        rw [select_cons_of] at h
        cases h with
        | head => exact List.mem_cons_self
        | tail _ h => exact List.mem_cons_of_mem _ (ih h)
      · rw [select_cons_of_ne hm] at h
        exact List.mem_cons_of_mem _ (ih h)

theorem prod_select (hlen : ms.length = shape.length) :
    (select false ms shape).prod * (select true ms shape).prod = shape.prod := by
  induction shape generalizing ms with
  | nil =>
    cases ms with
    | nil => rfl
    | cons m ms => cases hlen
  | cons d ds ih =>
    obtain ⟨m, ms, rfl⟩ := List.exists_cons_of_length_eq_add_one hlen
    have ih' := ih (Nat.succ.inj hlen)
    cases m with
    | false =>
      rw [select_cons_of, select_cons_of_ne (by decide), List.prod_cons, List.prod_cons, ← ih',
        Nat.mul_assoc]
    | true =>
      rw [select_cons_of, select_cons_of_ne (by decide), List.prod_cons, List.prod_cons, ← ih',
        Nat.mul_left_comm]

theorem lin_select_false (hlen : ms.length = shape.length)
    (hones : (select true ms shape).prod = 1) (h : Within cs shape) :
    lin (select false ms shape) (select false ms cs) = lin shape cs := by
  induction h generalizing ms with
  | nil =>
    cases ms with
    | nil => rfl
    | cons m ms => cases hlen
  | @cons c d cs ds hc _ ih =>
    obtain ⟨m, ms, rfl⟩ := List.exists_cons_of_length_eq_add_one hlen
    have hlen' := Nat.succ.inj hlen
    cases m with
    | false =>
      rw [select_cons_of_ne (by decide)] at hones
      have hprod := prod_select hlen'
      rw [hones, Nat.mul_one] at hprod
      rw [select_cons_of, select_cons_of, lin_cons, lin_cons, hprod, ih hlen' hones]
    | true =>
      rw [select_cons_of, List.prod_cons] at hones
      have hd : d = 1 := Nat.eq_one_of_mul_eq_one_right hones
      have hrest := Nat.eq_one_of_mul_eq_one_left hones
      subst hd
      rw [select_cons_of_ne (by decide), select_cons_of_ne (by decide), lin_one_cons _ _ _ hc,
        ih hlen' hrest]

theorem dot_select (ss : List ℕ) (hlen : ms.length = ss.length) (hcs : cs.length = ss.length) :
    dot ss cs = dot (select false ms ss) (select false ms cs) +
      dot (select true ms ss) (select true ms cs) := by
  induction ss generalizing ms cs with
  | nil =>
    cases ms with
    | nil => rfl
    | cons m ms => cases hlen
  | cons s ss ih =>
    obtain ⟨m, ms, rfl⟩ := List.exists_cons_of_length_eq_add_one hlen
    obtain ⟨c, cs, rfl⟩ := List.exists_cons_of_length_eq_add_one hcs
    have ih' := ih (Nat.succ.inj hlen) (Nat.succ.inj hcs)
    cases m with
    | false =>
      rw [select_cons_of, select_cons_of, select_cons_of_ne (by decide),
        select_cons_of_ne (by decide), dot_cons, dot_cons, ih', Nat.add_assoc]
    | true =>
      rw [select_cons_of, select_cons_of, select_cons_of_ne (by decide),
        select_cons_of_ne (by decide), dot_cons, dot_cons, ih']
      omega

theorem select_within (b : Bool) (ms : List Bool) (h : Within cs shape) :
    Within (select b ms cs) (select b ms shape) := by
  induction h generalizing ms with
  | nil =>
    cases ms with
    | nil => exact List.Forall₂.nil
    | cons m ms => exact List.Forall₂.nil
  | @cons c d cs ds hc _ ih =>
    cases ms with
    | nil => exact List.Forall₂.nil
    | cons m ms =>
      by_cases hm : m = b
      · subst hm
        rw [select_cons_of, select_cons_of]
        exact List.Forall₂.cons hc (ih ms)
      · rw [select_cons_of_ne hm, select_cons_of_ne hm]
        exact ih ms

theorem weave_spec (hlen : ms.length = shape.length) (hk : Within ks (select false ms shape))
    (hr : Within rs (select true ms shape)) :
    Within (weave ms ks rs) shape ∧ select false ms (weave ms ks rs) = ks ∧
      select true ms (weave ms ks rs) = rs := by
  induction shape generalizing ms ks rs with
  | nil =>
    cases ms with
    | nil =>
      cases hk
      cases hr
      exact ⟨List.Forall₂.nil, rfl, rfl⟩
    | cons m ms => cases hlen
  | cons d ds ih =>
    obtain ⟨m, ms, rfl⟩ := List.exists_cons_of_length_eq_add_one hlen
    have hlen' := Nat.succ.inj hlen
    cases m with
    | false =>
      rw [select_cons_of] at hk
      rw [select_cons_of_ne (by decide)] at hr
      obtain ⟨k, ks, hlt, hk', rfl⟩ := List.forall₂_cons_right_iff.mp hk
      obtain ⟨hin, hfalse, htrue⟩ := ih hlen' hk' hr
      refine ⟨List.Forall₂.cons hlt hin, ?_, ?_⟩
      · rw [weave, select_cons_of, List.headD_cons, List.tail_cons, hfalse]
      · rw [weave, select_cons_of_ne (by decide), List.tail_cons, htrue]
    | true =>
      rw [select_cons_of_ne (by decide)] at hk
      rw [select_cons_of] at hr
      obtain ⟨r, rs, hlt, hr', rfl⟩ := List.forall₂_cons_right_iff.mp hr
      obtain ⟨hin, hfalse, htrue⟩ := ih hlen' hk hr'
      refine ⟨List.Forall₂.cons hlt hin, ?_, ?_⟩
      · rw [weave, select_cons_of_ne (by decide), List.tail_cons, hfalse]
      · rw [weave, select_cons_of, List.headD_cons, List.tail_cons, htrue]

theorem weave_select (hlen : ms.length = cs.length) :
    weave ms (select false ms cs) (select true ms cs) = cs := by
  induction cs generalizing ms with
  | nil =>
    cases ms with
    | nil => rfl
    | cons m ms => cases hlen
  | cons c cs ih =>
    obtain ⟨m, ms, rfl⟩ := List.exists_cons_of_length_eq_add_one hlen
    have ih' := ih (Nat.succ.inj hlen)
    cases m with
    | false =>
      rw [select_cons_of, select_cons_of_ne (by decide), weave, List.headD_cons, List.tail_cons, ih']
    | true =>
      rw [select_cons_of, select_cons_of_ne (by decide), weave, List.headD_cons, List.tail_cons, ih']

end Groups

/-! ### Digits -/

section Digits

variable {shape cs : List ℕ} {r : ℕ}

theorem digits_within (h : r < shape.prod) : Within (digits shape r) shape := by
  induction shape generalizing r with
  | nil => exact List.Forall₂.nil
  | cons d ds ih =>
    rw [List.prod_cons] at h
    have hd : 0 < d := Nat.pos_of_mul_pos_right (Nat.lt_of_le_of_lt (Nat.zero_le r) h)
    exact List.Forall₂.cons (Nat.mod_lt r hd) (ih (Nat.div_lt_of_lt_mul h))

theorem undigits_digits (h : r < shape.prod) : undigits shape (digits shape r) = r := by
  induction shape generalizing r with
  | nil =>
    rw [List.prod_nil] at h
    exact (Nat.lt_one_iff.mp h).symm
  | cons d ds ih =>
    rw [List.prod_cons] at h
    rw [digits, undigits, ih (Nat.div_lt_of_lt_mul h)]
    exact Nat.mod_add_div r d

theorem digits_undigits (h : Within cs shape) :
    undigits shape cs < shape.prod ∧ digits shape (undigits shape cs) = cs := by
  induction h with
  | nil => exact ⟨Nat.one_pos, rfl⟩
  | @cons c d cs ds hc _ ih =>
    obtain ⟨hlt, heq⟩ := ih
    have hd : 0 < d := Nat.lt_of_le_of_lt (Nat.zero_le c) hc
    constructor
    · rw [undigits, List.prod_cons]
      calc c + d * undigits ds cs < d + d * undigits ds cs := Nat.add_lt_add_right hc _
        _ = d * (undigits ds cs + 1) := by rw [Nat.mul_add, Nat.mul_one, Nat.add_comm]
        _ ≤ d * ds.prod := Nat.mul_le_mul_left d hlt
    · rw [undigits, digits, Nat.add_mul_mod_self_left, Nat.mod_eq_of_lt hc,
        Nat.add_mul_div_left _ _ hd, Nat.div_eq_of_lt hc, Nat.zero_add, heq]

theorem digits_zero (shape : List ℕ) : digits shape 0 = List.replicate shape.length 0 := by
  induction shape with
  | nil => rfl
  | cons d ds ih =>
    rw [digits, Nat.zero_mod, Nat.zero_div, ih]
    rfl

end Digits

/-! ### Strides that matter -/

section StrideAt

variable {shape ss : List ℕ} {i : ℕ}

theorem dot_zeros (ss : List ℕ) (k : ℕ) : dot ss (List.replicate k 0) = 0 := by
  induction k generalizing ss with
  | zero =>
    cases ss with
    | nil => rfl
    | cons s ss => rfl
  | succ k ih =>
    cases ss with
    | nil => rfl
    | cons s ss => rw [List.replicate_succ, dot_cons, Nat.zero_mul, Nat.zero_add, ih]

theorem length_strideAt (shape ss : List ℕ) :
    (strideAt shape ss).length = (shape.filter (· ≠ 1)).length := by
  induction shape generalizing ss with
  | nil => rfl
  | cons d ds ih =>
    by_cases hd : d = 1
    · subst hd
      rw [filter_ne_one, strideAt, if_pos rfl, ih]
    · rw [filter_ne_cons hd, strideAt, if_neg hd, List.length_cons, List.length_cons, ih]

theorem dot_coords (ss : List ℕ) (h : i < shape.prod) :
    dot ss (coords shape i) = dot (strideAt shape ss) (coords (shape.filter (· ≠ 1)) i) := by
  induction shape generalizing ss i with
  | nil =>
    cases ss with
    | nil => rfl
    | cons s ss => rfl
  | cons d ds ih =>
    have hds : 0 < ds.prod := by
      rw [List.prod_cons] at h
      exact Nat.pos_of_mul_pos_left (Nat.lt_of_le_of_lt (Nat.zero_le i) h)
    have ih' := ih ss.tail (Nat.mod_lt i hds)
    by_cases hd : d = 1
    · subst hd
      rw [List.prod_cons, Nat.one_mul] at h
      rw [Nat.mod_eq_of_lt h] at ih'
      rw [filter_ne_one, strideAt, if_pos rfl, coords_cons, Nat.div_eq_of_lt h,
        Nat.mod_eq_of_lt h, ← ih']
      cases ss with
      | nil => rfl
      | cons s ss => rw [dot_cons, Nat.zero_mul, Nat.zero_add, List.tail_cons]
    · rw [filter_ne_cons hd, strideAt, if_neg hd, coords_cons, coords_cons, dot_cons,
        prod_filter_ne_one, ← ih']
      cases ss with
      | nil => rw [List.headD_nil, Nat.mul_zero, Nat.zero_add, List.tail_nil, dot_nil, dot_nil]
      | cons s ss => rw [dot_cons, List.headD_cons, List.tail_cons]

theorem eq_of_dot_eq {ts : List ℕ} (hbig : ∀ d ∈ shape, 2 ≤ d) (hs : ss.length = shape.length)
    (ht : ts.length = shape.length)
    (heq : ∀ cs, Within cs shape → dot ss cs = dot ts cs) : ss = ts := by
  induction shape generalizing ss ts with
  | nil => rw [List.length_eq_zero_iff.mp hs, List.length_eq_zero_iff.mp ht]
  | cons d ds ih =>
    obtain ⟨s, ss, rfl⟩ := List.exists_cons_of_length_eq_add_one hs
    obtain ⟨t, ts, rfl⟩ := List.exists_cons_of_length_eq_add_one ht
    have hd : 2 ≤ d := hbig d List.mem_cons_self
    have htail : ∀ d ∈ ds, 2 ≤ d := fun d hd => hbig d (List.mem_cons_of_mem _ hd)
    have hzeros : Within (List.replicate ds.length 0) ds := by
      apply List.forall₂_iff_get.mpr
      refine ⟨List.length_replicate, fun i hi hi' => ?_⟩
      rw [List.get_eq_getElem, List.getElem_replicate]
      have := htail _ (List.get_mem ds ⟨i, hi'⟩)
      omega
    have hfirst := heq (1 :: List.replicate ds.length 0) (List.Forall₂.cons (by omega) hzeros)
    rw [dot_cons, dot_cons, dot_zeros, dot_zeros] at hfirst
    have hrest := ih htail (Nat.succ.inj hs) (Nat.succ.inj ht) fun cs hcs => by
      have h := heq (0 :: cs) (List.Forall₂.cons (by omega) hcs)
      rw [dot_cons, dot_cons] at h
      omega
    rw [hrest, show s = t by omega]

end StrideAt

/-! ### Exchanging axes -/

theorem dot_pick {p ss cs : List ℕ} (hp : p.Perm (List.range ss.length))
    (hcs : cs.length = ss.length) : dot (pick p ss) (pick p cs) = dot ss cs := by
  have hsum (q : List ℕ) : dot (pick q ss) (pick q cs) =
      (q.map fun a => cs.getD a 0 * ss.getD a 0).sum := by
    induction q with
    | nil => rfl
    | cons a q ih => rw [pick_cons, pick_cons, dot_cons, ih, List.map_cons, List.sum_cons]
  have hrange := hsum (List.range ss.length)
  have hcs' : pick (List.range ss.length) cs = cs := by
    rw [← hcs]
    exact pick_range cs
  rw [pick_range, hcs'] at hrange
  rw [hsum, (hp.map _).sum_eq, hrange]

theorem pick_pad (p front rest : List ℕ) :
    pick (List.range front.length ++ p.map (· + front.length)) (front ++ rest) =
      front ++ pick p rest := by
  have hfront : pick (List.range front.length) (front ++ rest) = front := by
    conv_rhs => rw [← pick_range front]
    apply List.map_congr_left
    intro a ha
    rw [List.getD_append _ _ _ _ (List.mem_range.mp ha)]
  have hrest : pick (p.map (· + front.length)) (front ++ rest) = pick p rest := by
    unfold pick
    rw [List.map_map]
    apply List.map_congr_left
    intro a _
    show (front ++ rest).getD (a + front.length) 0 = _
    rw [List.getD_append_right _ _ _ _ (Nat.le_add_left _ _), Nat.add_sub_cancel]
  rw [pick, List.map_append]
  exact congrArg₂ (· ++ ·) hfront hrest

theorem perm_pad {p : List ℕ} {n : ℕ} (hp : p.Perm (List.range n)) (k : ℕ) :
    (List.range k ++ p.map (· + k)).Perm (List.range (k + n)) := by
  have hmap : (List.range n).map (· + k) = (List.range n).map (k + ·) :=
    List.map_congr_left fun a _ => Nat.add_comm a k
  rw [List.range_add, ← hmap]
  exact (hp.map _).append_left _

end Gehtp.Lib.Axes
