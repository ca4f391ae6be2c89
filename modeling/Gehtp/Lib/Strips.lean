import Mathlib.Data.List.Nodup
import Mathlib.Data.List.GetD
import Mathlib.Algebra.Order.Ring.Nat
import Gehtp.Lib.Checked

/-!
# Loops over strips

A loop that goes through the range below `o` in steps of `t` and handles one strip of it in each
round, the last one cut off. The counter is a machine number, taken modulo `w`. If the rounded up range
is below `w`, every place of the range is in exactly one strip. Otherwise the counter wraps around
before it leaves the range, and if the loop ends at all, a place is in two strips.
-/

set_option autoImplicit false

namespace Gehtp.Lib.Strips

open Lib

variable {ε α β : Type}

/-- `for (x = x0; x < o; x += t)` with the strip from `x` of at most `t` places as the round's. -/
def forStrips (w t o : ℕ) (body : ℕ × ℕ → Checked ε (List α)) : ℕ → ℕ → Checked ε (List α)
  | 0, _ => .error .hang
  | fuel + 1, x =>
    if x < o then do
      let out ← body (x, min t (o - x))
      let rest ← forStrips w t o body fuel ((x + t) % w)
      .ok (out ++ rest)
    else .ok []

/-- The strips that the loop goes through, if it ends. -/
def strips (w t o : ℕ) : ℕ → ℕ → Option (List (ℕ × ℕ))
  | 0, _ => none
  | fuel + 1, x =>
    if x < o then (strips w t o fuel ((x + t) % w)).map ((x, min t (o - x)) :: ·) else some []

/-- The strips that the range is divided into. -/
def regular (t o : ℕ) : List (ℕ × ℕ) :=
  (List.range ((o + t - 1) / t)).map fun i => (i * t, min t (o - i * t))

/-- The strip has the place. -/
def Has (s : ℕ × ℕ) (x : ℕ) : Prop := s.1 ≤ x ∧ x < s.1 + s.2

instance (s : ℕ × ℕ) (x : ℕ) : Decidable (Has s x) := inferInstanceAs (Decidable (_ ∧ _))

/-- How many strips have the place. -/
def hits (l : List (ℕ × ℕ)) (x : ℕ) : ℕ := l.countP fun s => Has s x

/-- The result of a computation that returns one. -/
def okOr (d : α) : Checked ε α → α
  | .ok a => a
  | .error _ => d

section Loop

variable {w t o : ℕ} {body : ℕ × ℕ → Checked ε (List α)} {fuel x : ℕ}

theorem okOr_of_eq {y : Checked ε α} {a d : α} (h : y = .ok a) : okOr d y = a := by
  rw [h]
  rfl

theorem forStrips_eq_ok {out : List α} :
    forStrips w t o body fuel x = .ok out ↔ ∃ l, strips w t o fuel x = some l ∧
      (∀ s ∈ l, body s = .ok (okOr [] (body s))) ∧ out = l.flatMap fun s => okOr [] (body s) := by
  induction fuel generalizing x out with
  | zero =>
    constructor
    · intro h
      cases h
    · rintro ⟨l, hl, -⟩
      cases hl
  | succ fuel ih =>
    by_cases hx : x < o
    · rw [forStrips, if_pos hx, strips, if_pos hx, bind_eq_ok]
      simp only [bind_eq_ok, ih]
      constructor
      · rintro ⟨first, hfirst, rest, ⟨l, hl, hall, rfl⟩, hout⟩
        cases hout
        refine ⟨_, by rw [hl]; rfl, ?_, ?_⟩
        · rw [List.forall_mem_cons]
          exact ⟨by rw [okOr_of_eq hfirst]; exact hfirst, hall⟩
        · rw [List.flatMap_cons, okOr_of_eq hfirst]
      · rintro ⟨l', hl', hall, rfl⟩
        obtain ⟨l, hl, rfl⟩ := Option.map_eq_some_iff.mp hl'
        rw [List.forall_mem_cons] at hall
        exact ⟨_, hall.1, _, ⟨l, hl, hall.2, rfl⟩, by rw [List.flatMap_cons]⟩
    · rw [forStrips, if_neg hx, strips, if_neg hx]
      constructor
      · intro h
        cases h
        exact ⟨[], rfl, by simp, rfl⟩
      · rintro ⟨l, hl, -, rfl⟩
        cases hl
        rfl

theorem forStrips_eq_ok_of {P : ℕ × ℕ → Prop} {g : ℕ × ℕ → List α}
    (hbody : ∀ s out, body s = .ok out ↔ P s ∧ out = g s) {out : List α} :
    forStrips w t o body fuel x = .ok out ↔ ∃ l, strips w t o fuel x = some l ∧
      (∀ s ∈ l, P s) ∧ out = l.flatMap g := by
  rw [forStrips_eq_ok]
  constructor
  · rintro ⟨l, hl, hall, rfl⟩
    refine ⟨l, hl, fun s hs => ((hbody _ _).mp (hall s hs)).1, ?_⟩
    exact List.flatMap_congr fun s hs => ((hbody _ _).mp (hall s hs)).2
  · rintro ⟨l, hl, hall, rfl⟩
    have hok (s : ℕ × ℕ) (hs : s ∈ l) : body s = .ok (g s) := (hbody _ _).mpr ⟨hall s hs, rfl⟩
    refine ⟨l, hl, fun s hs => ?_, ?_⟩
    · rw [okOr_of_eq (hok s hs)]
      exact hok s hs
    · exact List.flatMap_congr fun s hs => (okOr_of_eq (hok s hs)).symm

theorem mul_lt_of_lt_count (ht : 0 < t) {i : ℕ} (hi : i < (o + t - 1) / t) : i * t < o := by
  have hle : (i + 1) * t ≤ o + t - 1 := (Nat.le_div_iff_mul_le ht).mp hi
  rw [Nat.succ_mul] at hle
  omega

theorem le_count_mul (ht : 0 < t) : o ≤ (o + t - 1) / t * t := by
  have hlt := Nat.lt_div_mul_add (a := o + t - 1) ht
  omega

theorem strips_run (ht : 0 < t) (how : o ≤ w) (fuel : ℕ) {j i : ℕ}
    (hn : i + j = (o + t - 1) / t) :
    strips w t o (j + fuel) (i * t % w) =
      (strips w t o fuel ((i + j) * t % w)).map
        (((List.range' i j).map fun i => (i * t, min t (o - i * t))) ++ ·) := by
  induction j generalizing i with
  | zero =>
    rw [Nat.zero_add, Nat.add_zero]
    exact Option.map_id'.symm
  | succ j ih =>
    have hx : i * t < o := mul_lt_of_lt_count ht (by omega)
    have hmod : i * t % w = i * t := Nat.mod_eq_of_lt (hx.trans_le how)
    have hnext : i * t + t = (i + 1) * t := (Nat.succ_mul i t).symm
    have hsum : i + 1 + j = i + (j + 1) := by omega
    rw [show j + 1 + fuel = j + fuel + 1 by omega, strips, hmod, if_pos hx, hnext,
      ih (by omega), hsum, Option.map_map, List.range'_succ, List.map_cons]
    rfl

/-- From the start of the range the loop goes through its strips, and then on from where the counter
is. -/
theorem strips_zero (ht : 0 < t) (how : o ≤ w) (fuel : ℕ) :
    strips w t o ((o + t - 1) / t + fuel) 0 =
      (strips w t o fuel ((o + t - 1) / t * t % w)).map (regular t o ++ ·) := by
  have hrun := strips_run ht how fuel (Nat.zero_add ((o + t - 1) / t))
  rw [Nat.zero_mul, Nat.zero_mod, Nat.zero_add] at hrun
  rw [hrun, regular, List.range_eq_range']

theorem strips_mono {l : List (ℕ × ℕ)} (h : strips w t o fuel x = some l) (k : ℕ) :
    strips w t o (k + fuel) x = some l := by
  induction fuel generalizing x l with
  | zero => cases h
  | succ fuel ih =>
    rw [show k + (fuel + 1) = k + fuel + 1 by omega, strips]
    rw [strips] at h
    by_cases hx : x < o
    · rw [if_pos hx] at h ⊢
      obtain ⟨l', hl', rfl⟩ := Option.map_eq_some_iff.mp h
      rw [ih hl']
      rfl
    · rw [if_neg hx] at h ⊢
      exact h

theorem strips_of_fits (ht : 0 < t) (hfit : (o + t - 1) / t * t < w)
    (hfuel : (o + t - 1) / t < fuel) : strips w t o fuel 0 = some (regular t o) := by
  have hle : o ≤ (o + t - 1) / t * t := le_count_mul ht
  obtain ⟨k, rfl⟩ : ∃ k, fuel = (o + t - 1) / t + (k + 1) :=
    ⟨fuel - (o + t - 1) / t - 1, by omega⟩
  rw [strips_zero ht (by omega), Nat.mod_eq_of_lt hfit, strips, if_neg (by omega), Option.map_some,
    List.append_nil]

theorem regular_append (ht : 0 < t) (how : o ≤ w) {l : List (ℕ × ℕ)}
    (h : strips w t o fuel 0 = some l) : ∃ l', l = regular t o ++ l' := by
  have hmore := strips_mono h ((o + t - 1) / t)
  rw [strips_zero ht how] at hmore
  obtain ⟨l', -, rfl⟩ := Option.map_eq_some_iff.mp hmore
  exact ⟨l', rfl⟩

theorem eq_regular (ht : 0 < t) (hfit : (o + t - 1) / t * t < w) {l : List (ℕ × ℕ)}
    (h : strips w t o fuel 0 = some l) : l = regular t o := by
  have hmore := strips_mono h ((o + t - 1) / t + 1)
  have hall : strips w t o ((o + t - 1) / t + 1 + fuel) 0 = some (regular t o) :=
    strips_of_fits ht hfit (by omega)
  rw [hall] at hmore
  cases hmore
  rfl

theorem of_mem_regular (ht : 0 < t) {r : ℕ × ℕ} (hr : r ∈ regular t o) :
    r.1 ≤ (o - 1) / t * t ∧ r.2 ≤ min t o ∧ 0 < r.2 ∧ r.1 + r.2 ≤ o := by
  obtain ⟨i, hi, rfl⟩ := List.mem_map.mp hr
  have hlt : i * t < o := mul_lt_of_lt_count ht (List.mem_range.mp hi)
  have hle : i ≤ (o - 1) / t := (Nat.le_div_iff_mul_le ht).mpr (by omega)
  have hmul : i * t ≤ (o - 1) / t * t := Nat.mul_le_mul_right t hle
  refine ⟨hmul, ?_, ?_, ?_⟩
  · show min t (o - i * t) ≤ min t o
    omega
  · show 0 < min t (o - i * t)
    omega
  · show i * t + min t (o - i * t) ≤ o
    omega

theorem first_mem (ho : 0 < o) (ht : 0 < t) : (0, min t o) ∈ regular t o := by
  refine List.mem_map.mpr ⟨0, List.mem_range.mpr (Nat.div_pos (by omega) ht), ?_⟩
  rw [Nat.zero_mul, Nat.sub_zero]

theorem last_mem (ho : 0 < o) (ht : 0 < t) :
    ((o - 1) / t * t, o - (o - 1) / t * t) ∈ regular t o := by
  have hle : (o - 1) / t * t ≤ o - 1 := Nat.div_mul_le_self _ _
  have hlt := Nat.lt_div_mul_add (a := o - 1) ht
  have hcount : (o + t - 1) / t = (o - 1) / t + 1 := by
    rw [show o + t - 1 = o - 1 + t by omega, Nat.add_div_right _ ht]
  refine List.mem_map.mpr ⟨(o - 1) / t, List.mem_range.mpr (by omega), ?_⟩
  rw [Nat.min_eq_right (by omega)]

theorem hits_regular (ht : 0 < t) (x : ℕ) :
    hits (regular t o) x = if x < o then 1 else 0 := by
  have hcount : hits (regular t o) x =
      (List.range ((o + t - 1) / t)).countP fun i => Has (i * t, min t (o - i * t)) x := by
    rw [hits, regular, List.countP_map]
    rfl
  rw [hcount]
  by_cases hx : x < o
  · have hin : x / t < (o + t - 1) / t := by
      rw [Nat.div_lt_iff_lt_mul ht]
      exact hx.trans_le (le_count_mul ht)
    have hiff (i : ℕ) (hi : i ∈ List.range ((o + t - 1) / t)) :
        (decide (Has (i * t, min t (o - i * t)) x) = true ↔ (i == x / t) = true) := by
      have hlt := mul_lt_of_lt_count ht (List.mem_range.mp hi)
      have hlow := Nat.le_div_iff_mul_le (x := i) (y := x) ht
      have hhigh := Nat.div_lt_iff_lt_mul (x := x) (y := i + 1) ht
      rw [Nat.succ_mul] at hhigh
      rw [decide_eq_true_iff, beq_iff_eq, Has]
      omega
    rw [if_pos hx, List.countP_congr hiff]
    exact List.count_eq_one_of_mem List.nodup_range (List.mem_range.mpr hin)
  · rw [if_neg hx, List.countP_eq_zero]
    intro i hi
    have hlt := mul_lt_of_lt_count ht (List.mem_range.mp hi)
    rw [decide_eq_true_iff, Has]
    omega

theorem exists_two_hits (ht : 0 < t) (htw : t < w) (how : o < w)
    (hwrap : w ≤ (o + t - 1) / t * t) {l : List (ℕ × ℕ)} (h : strips w t o fuel 0 = some l) :
    ∃ y, y < o ∧ 2 ≤ hits l y := by
  have hpos : 0 < o := by
    by_contra hzero
    rw [Nat.div_eq_of_lt (by omega)] at hwrap
    omega
  set n := (o + t - 1) / t with hn
  have hlt : n * t < o + t := by
    have hle : n * t ≤ o + t - 1 := Nat.div_mul_le_self _ _
    omega
  have hmod : n * t % w = n * t - w := by
    rw [Nat.mod_eq_sub_mod hwrap, Nat.mod_eq_of_lt (by omega)]
  have hmore := strips_mono h n
  rw [hn, strips_zero ht (by omega), ← hn, hmod] at hmore
  obtain ⟨l', hl', rfl⟩ := Option.map_eq_some_iff.mp hmore
  have hy : n * t - w < o := by omega
  refine ⟨n * t - w, hy, ?_⟩
  cases fuel with
  | zero => cases hl'
  | succ fuel =>
    rw [strips, if_pos hy] at hl'
    obtain ⟨l'', -, rfl⟩ := Option.map_eq_some_iff.mp hl'
    have hfirst : Has (n * t - w, min t (o - (n * t - w))) (n * t - w) :=
      ⟨Nat.le_refl _, by omega⟩
    have hregular := hits_regular (o := o) ht (n * t - w)
    rw [if_pos hy, hits] at hregular
    rw [hits, List.countP_append, List.countP_cons_of_pos (by simpa using hfirst), hregular]
    omega

end Loop

/-! ### Nested loops -/

section Product

/-- What a predicate counts in the results of the rounds, if it holds of the same number of results in
every round that another one selects, and of none elsewhere. -/
theorem countP_flatMap {l : List α} {f : α → List β} {p : α → Bool} {q : β → Bool} {n : ℕ}
    (h : ∀ a ∈ l, (f a).countP q = if p a then n else 0) :
    (l.flatMap f).countP q = l.countP p * n := by
  induction l with
  | nil => simp
  | cons a l ih =>
    rw [List.forall_mem_cons] at h
    rw [List.flatMap_cons, List.countP_append, ih h.2, h.1, List.countP_cons]
    split_ifs
    · rw [Nat.add_mul, Nat.one_mul, Nat.add_comm]
    · rw [Nat.zero_add, Nat.add_zero]

end Product

end Gehtp.Lib.Strips
