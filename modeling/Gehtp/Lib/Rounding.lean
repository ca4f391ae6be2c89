import Mathlib.Tactic.Ring

/-!
# Rounding to the nearest code

Codes are natural numbers, and each stands for a value. A code rounds a value if no other code is
nearer; of two codes that are equally near, the even one rounds it. If the values grow with the codes
there is one such code, and it is found from the two codes next to the value. The codes of a binary
format with an exponent above a fraction of `p` bits are of this kind: a shift to the right that rounds
its rest finds the code.
-/

set_option autoImplicit false

namespace Gehtp.Lib.Rounding

/-- How far two values are apart. -/
def gap (a b : ℕ) : ℕ := (a - b) + (b - a)

/-- The code `c` is nearest to `v`, and even if another one is as near. -/
structure NearestEven (val : ℕ → ℕ) (v c : ℕ) : Prop where
  near : ∀ d, gap v (val c) ≤ gap v (val d)
  even : ∀ d, d ≠ c → gap v (val d) = gap v (val c) → c % 2 = 0

section Codes

variable {val : ℕ → ℕ} {v c d : ℕ}

theorem not_lt_of_nearest (hval : StrictMono val) (hc : NearestEven val v c)
    (hd : NearestEven val v d) : ¬ c < d := by
  intro hlt
  have hgap : gap v (val c) = gap v (val d) := Nat.le_antisymm (hc.near d) (hd.near c)
  have hceven := hc.even d (by omega) hgap.symm
  have hdeven := hd.even c (by omega) hgap
  have hlow := hval (show c < c + 1 by omega)
  have hhigh := hval (show c + 1 < d by omega)
  have hnear := hc.near (c + 1)
  unfold gap at hgap hnear
  omega

theorem NearestEven.unique (hval : StrictMono val) (hc : NearestEven val v c)
    (hd : NearestEven val v d) : c = d := by
  have hcd := not_lt_of_nearest hval hc hd
  have hdc := not_lt_of_nearest hval hd hc
  omega

theorem nearestEven_self (hval : StrictMono val) (c : ℕ) : NearestEven val (val c) c := by
  refine ⟨fun d => ?_, fun d hne hgap => ?_⟩
  · unfold gap
    omega
  · have heq : val d = val c := by
      unfold gap at hgap
      omega
    exact absurd (hval.injective heq) hne

theorem nearestEven_low (hval : StrictMono val) (hlow : val c ≤ v)
    (hmid : 2 * v ≤ val c + val (c + 1)) (htie : 2 * v = val c + val (c + 1) → c % 2 = 0) :
    NearestEven val v c := by
  have hbelow (d : ℕ) (hd : d < c) : val d < val c := hval hd
  have habove (d : ℕ) (hd : c < d) : val (c + 1) ≤ val d := hval.monotone hd
  refine ⟨fun d => ?_, fun d hne hgap => ?_⟩
  · rcases Nat.lt_trichotomy d c with hd | rfl | hd
    · have := hbelow d hd
      unfold gap
      omega
    · exact Nat.le_refl _
    · have := habove d hd
      unfold gap
      omega
  · apply htie
    rcases Nat.lt_or_gt_of_ne hne with hd | hd
    · have := hbelow d hd
      unfold gap at hgap
      omega
    · have := habove d hd
      unfold gap at hgap
      omega

theorem nearestEven_high (hval : StrictMono val) (hhigh : v ≤ val (c + 1))
    (hmid : val c + val (c + 1) ≤ 2 * v) (htie : 2 * v = val c + val (c + 1) → c % 2 = 1) :
    NearestEven val v (c + 1) := by
  have hbelow (d : ℕ) (hd : d < c + 1) : val d ≤ val c := hval.monotone (by omega)
  have habove (d : ℕ) (hd : c + 1 < d) : val (c + 1) < val d := hval hd
  refine ⟨fun d => ?_, fun d hne hgap => ?_⟩
  · rcases Nat.lt_trichotomy d (c + 1) with hd | rfl | hd
    · have := hbelow d hd
      unfold gap
      omega
    · exact Nat.le_refl _
    · have := habove d hd
      unfold gap
      omega
  · have hodd : c % 2 = 1 := by
      apply htie
      rcases Nat.lt_or_gt_of_ne hne with hd | hd
      · have := hbelow d hd
        unfold gap at hgap
        omega
      · have := habove d hd
        unfold gap at hgap
        omega
    omega

end Codes

/-! ### Binary formats -/

/-- The value of a code with a fraction of `p` bits, in units of the smallest one. -/
def magnitude (p c : ℕ) : ℕ :=
  if c / 2 ^ p = 0 then c else (2 ^ p + c % 2 ^ p) * 2 ^ (c / 2 ^ p - 1)

theorem magnitude_run {p j m : ℕ} (hlow : j = 0 ∨ 2 ^ p ≤ m) (hhigh : m ≤ 2 * 2 ^ p) :
    magnitude p (j * 2 ^ p + m) = m * 2 ^ j := by
  have hpos := Nat.two_pow_pos p
  by_cases htop : m = 2 * 2 ^ p
  · have hdiv : (j * 2 ^ p + m) / 2 ^ p = j + 2 := by
      rw [htop, ← Nat.add_mul]
      exact Nat.mul_div_cancel _ hpos
    have hmod : (j * 2 ^ p + m) % 2 ^ p = 0 := by
      rw [htop, ← Nat.add_mul]
      exact Nat.mul_mod_left _ _
    rw [magnitude, hdiv, hmod, if_neg (by omega), htop, Nat.add_zero,
      show j + 2 - 1 = j + 1 by omega, Nat.pow_succ]
    ring
  by_cases hsmall : m < 2 ^ p
  · have hj : j = 0 := by omega
    have hdiv : (j * 2 ^ p + m) / 2 ^ p = 0 := by
      rw [hj, Nat.zero_mul, Nat.zero_add]
      exact Nat.div_eq_of_lt hsmall
    rw [magnitude, if_pos hdiv, hj]
    ring
  · obtain ⟨r, rfl⟩ : ∃ r, m = 2 ^ p + r := ⟨m - 2 ^ p, by omega⟩
    have hr : r < 2 ^ p := by omega
    have hcode : j * 2 ^ p + (2 ^ p + r) = 2 ^ p * (j + 1) + r := by ring
    rw [magnitude, hcode, Nat.mul_add_div hpos, Nat.div_eq_of_lt hr, Nat.mul_add_mod,
      Nat.mod_eq_of_lt hr, if_neg (by omega)]
    rfl

theorem exists_run (p c : ℕ) :
    ∃ j m, c = j * 2 ^ p + m ∧ (j = 0 ∨ 2 ^ p ≤ m) ∧ m < 2 * 2 ^ p := by
  have hpos := Nat.two_pow_pos p
  have hsplit : c = 2 ^ p * (c / 2 ^ p) + c % 2 ^ p := (Nat.div_add_mod _ _).symm
  have hmod := Nat.mod_lt c hpos
  cases hdiv : c / 2 ^ p with
  | zero =>
    refine ⟨0, c, by omega, .inl rfl, ?_⟩
    rw [hdiv, Nat.mul_zero] at hsplit
    omega
  | succ e =>
    refine ⟨e, 2 ^ p + c % 2 ^ p, ?_, .inr (by omega), by omega⟩
    rw [hdiv] at hsplit
    rw [← Nat.add_assoc, ← Nat.succ_mul, Nat.mul_comm]
    exact hsplit

theorem magnitude_strictMono (p : ℕ) : StrictMono (magnitude p) := by
  apply strictMono_nat_of_lt_succ
  intro c
  obtain ⟨j, m, rfl, hlow, hhigh⟩ := exists_run p c
  rw [Nat.add_assoc, magnitude_run hlow (by omega), magnitude_run (by omega) (by omega)]
  exact Nat.mul_lt_mul_of_pos_right (by omega) (Nat.two_pow_pos j)

/-- The values of a format in units that are `2 ^ s` times as small. -/
def scaled (p s c : ℕ) : ℕ := magnitude p c * 2 ^ s

theorem scaled_strictMono (p s : ℕ) : StrictMono (scaled p s) := by
  intro c d hlt
  exact Nat.mul_lt_mul_of_pos_right (magnitude_strictMono p hlt) (Nat.two_pow_pos s)

theorem scaled_run {p s j m : ℕ} (hlow : j = 0 ∨ 2 ^ p ≤ m) (hhigh : m ≤ 2 * 2 ^ p) :
    scaled p s (j * 2 ^ p + m) = m * 2 ^ (s + j) := by
  rw [scaled, magnitude_run hlow hhigh, Nat.add_comm, Nat.pow_add, Nat.mul_assoc]

/-! ### The shift that rounds -/

/-- Half of the unit and more rounds up, half of the unit only from an odd number. -/
def roundUp (q r half : ℕ) : ℕ := if half < r ∨ r = half ∧ q % 2 = 1 then 1 else 0

/-- A shift by `k` bits, rounded by the bits that are lost. -/
def roundShift (k v : ℕ) : ℕ := v / 2 ^ k + roundUp (v / 2 ^ k) (v % 2 ^ k) (2 ^ (k - 1))

theorem roundUp_le (q r half : ℕ) : roundUp q r half ≤ 1 := by
  unfold roundUp
  split
  · exact Nat.le_refl 1
  · exact Nat.zero_le 1

theorem roundShift_le {k v a : ℕ} (h : v < a * 2 ^ k) : roundShift k v ≤ a := by
  have hq : v / 2 ^ k < a := (Nat.div_lt_iff_lt_mul (Nat.two_pow_pos k)).mpr h
  have hup := roundUp_le (v / 2 ^ k) (v % 2 ^ k) (2 ^ (k - 1))
  unfold roundShift
  omega

theorem le_roundShift {k v a : ℕ} (h : a * 2 ^ k ≤ v) : a ≤ roundShift k v :=
  ((Nat.le_div_iff_mul_le (Nat.two_pow_pos k)).mpr h).trans (Nat.le_add_right _ _)

theorem roundShift_of_small {k v : ℕ} (h : v < 2 ^ (k - 1)) : roundShift k v = 0 := by
  have hle : 2 ^ (k - 1) ≤ 2 ^ k := Nat.pow_le_pow_right (by decide) (Nat.sub_le k 1)
  have hlt : v < 2 ^ k := h.trans_le hle
  rw [roundShift, Nat.div_eq_of_lt hlt, Nat.mod_eq_of_lt hlt, roundUp, if_neg (by omega)]

theorem roundShift_add {k : ℕ} (hk : 0 < k) (i v : ℕ) :
    roundShift (k + i) (v * 2 ^ i) = roundShift k v := by
  have hpos := Nat.two_pow_pos i
  have hdiv : v * 2 ^ i / 2 ^ (k + i) = v / 2 ^ k := by
    rw [Nat.pow_add, Nat.mul_div_mul_right _ _ hpos]
  have hmod : v * 2 ^ i % 2 ^ (k + i) = v % 2 ^ k * 2 ^ i := by
    rw [Nat.pow_add, Nat.mul_mod_mul_right]
  have hhalf : 2 ^ (k + i - 1) = 2 ^ (k - 1) * 2 ^ i := by
    rw [← Nat.pow_add]
    congr 1
    omega
  have hlt : 2 ^ (k - 1) * 2 ^ i < v % 2 ^ k * 2 ^ i ↔ 2 ^ (k - 1) < v % 2 ^ k :=
    Nat.mul_lt_mul_right hpos
  have heq : v % 2 ^ k * 2 ^ i = 2 ^ (k - 1) * 2 ^ i ↔ v % 2 ^ k = 2 ^ (k - 1) :=
    Nat.mul_right_cancel_iff hpos
  simp only [roundShift, roundUp, hdiv, hmod, hhalf, hlt, heq]

theorem roundShift_succ_lt {k v : ℕ} (hv : 2 * 2 ^ k ≤ v) :
    roundShift (k + 1) v < roundShift k v := by
  have hpos := Nat.two_pow_pos k
  have hq : 2 ≤ v / 2 ^ k := (Nat.le_div_iff_mul_le hpos).mpr hv
  have hdiv : v / 2 ^ (k + 1) = v / 2 ^ k / 2 := by rw [Nat.pow_succ, Nat.div_div_eq_div_mul]
  have hmod : v % 2 ^ (k + 1) = v % 2 ^ k + 2 ^ k * (v / 2 ^ k % 2) := by
    rw [Nat.pow_succ, Nat.mod_mul]
  have hrlt := Nat.mod_lt v hpos
  have hup := roundUp_le (v / 2 ^ k / 2) (v % 2 ^ (k + 1)) (2 ^ k)
  rw [roundShift, roundShift, hdiv, Nat.add_sub_cancel]
  -- from an even quotient nothing is carried
  by_cases heven : v / 2 ^ k % 2 = 0
  · rw [heven, Nat.mul_zero, Nat.add_zero] at hmod
    rw [hmod, roundUp, if_neg (by omega)]
    omega
  · omega

/-- A shift to the right finds the nearest code: in the run where the value lies, the code is the
rounded quotient. -/
theorem nearestEven_roundShift {p s j v : ℕ} (hp : 0 < p) (hs : 0 < s)
    (hlow : j = 0 ∨ 2 ^ p * 2 ^ (s + j) ≤ v) (hhigh : v < 2 * 2 ^ p * 2 ^ (s + j)) :
    NearestEven (scaled p s) v (j * 2 ^ p + roundShift (s + j) v) := by
  have hmono := scaled_strictMono p s
  obtain ⟨k, hk⟩ : ∃ k, s + j = k + 1 := ⟨s + j - 1, by omega⟩
  have hunit : 2 ^ (s + j) = 2 * 2 ^ k := by rw [hk, Nat.pow_succ, Nat.mul_comm]
  have hpos := Nat.two_pow_pos (s + j)
  set q := v / 2 ^ (s + j) with hq
  set r := v % 2 ^ (s + j) with hr
  have hv : v = q * 2 ^ (s + j) + r := by
    rw [hq, hr, Nat.mul_comm]
    exact (Nat.div_add_mod _ _).symm
  have hrlt : r < 2 ^ (s + j) := Nat.mod_lt _ hpos
  have hqlt : q < 2 * 2 ^ p := (Nat.div_lt_iff_lt_mul hpos).mpr hhigh
  have hqlow : j = 0 ∨ 2 ^ p ≤ q := by
    cases hlow with
    | inl hj => exact .inl hj
    | inr hle => exact .inr ((Nat.le_div_iff_mul_le hpos).mpr hle)
  have hcode : scaled p s (j * 2 ^ p + q) = q * 2 ^ (s + j) := scaled_run hqlow (by omega)
  have hnext : scaled p s (j * 2 ^ p + q + 1) = q * 2 ^ (s + j) + 2 ^ (s + j) := by
    rw [Nat.add_assoc, scaled_run (by omega) (by omega), Nat.succ_mul]
  have hparity : (j * 2 ^ p + q) % 2 = q % 2 := by
    obtain ⟨p', rfl⟩ : ∃ p', p = p' + 1 := ⟨p - 1, by omega⟩
    rw [Nat.pow_succ, ← Nat.mul_assoc]
    omega
  rw [roundShift, ← hq, ← hr, hk, Nat.add_sub_cancel]
  by_cases hup : 2 ^ k < r ∨ r = 2 ^ k ∧ q % 2 = 1
  · rw [roundUp, if_pos hup, ← Nat.add_assoc]
    apply nearestEven_high hmono
    · omega
    · omega
    · intro htie
      omega
  · rw [roundUp, if_neg hup, Nat.add_zero]
    apply nearestEven_low hmono
    · omega
    · omega
    · intro htie
      omega

end Gehtp.Lib.Rounding
