import Gehtp.Lib.Rounding
import Gehtp.Model.HalfFloat

/-!
# Which half a conversion returns

A pattern is a sign, an exponent field and a fraction. With the value of a pattern in units of the
smallest single, a half is the rounded one of IEEE 754 if its code is nearest among the codes of an
unbounded exponent, ties to even, and everything from the infinity on is the infinity. The emitter and
the device shift the fraction with its leading one and round by the lost bits. That is the nearest
half for every pattern, only the device takes a NaN for an infinity. Both undo the conversion to 32
bits, which is exact.
-/

set_option autoImplicit false

namespace Gehtp.Analysis.HalfRounding

open Lib Lib.Rounding Model.HalfFloat

/-! ### Patterns -/

def single (s E m : ℕ) : ℕ := s * 2 ^ 31 + E * 2 ^ 23 + m

def half (s e m : ℕ) : ℕ := s * 2 ^ 15 + e * 2 ^ 10 + m

/-- A pattern of 32 bits that is not a number. -/
def IsNaN (u : ℕ) : Prop := 0xFF * 2 ^ 23 < u % 2 ^ 31

/-- A pattern of 16 bits that is not a number. -/
def IsHalfNaN (h : ℕ) : Prop := 0x1F * 2 ^ 10 < h % 2 ^ 15

instance (u : ℕ) : Decidable (IsNaN u) := inferInstanceAs (Decidable (_ < _))

instance (h : ℕ) : Decidable (IsHalfNaN h) := inferInstanceAs (Decidable (_ < _))

/-- The half that IEEE 754 rounds a single to, ties to even: a NaN for a NaN, otherwise the sign is
kept and the nearest code is found as if there was no largest exponent. Codes from the infinity on are
the infinity. The unit of the halves is `2 ^ 125` units of the singles. -/
def IsHalfOf (u h : ℕ) : Prop :=
  if IsNaN u then h < 2 ^ 16 ∧ IsHalfNaN h
  else h / 2 ^ 15 = u / 2 ^ 31 ∧
    ∃ c, NearestEven (scaled 10 125) (magnitude 23 (u % 2 ^ 31)) c ∧ h % 2 ^ 15 = min c 0x7C00

section Fields

variable {s E m e : ℕ}

theorem exists_single {u : ℕ} (hu : u < 2 ^ 32) :
    ∃ s E m, u = single s E m ∧ s < 2 ∧ E < 256 ∧ m < 2 ^ 23 := by
  refine ⟨u / 2 ^ 31, u / 2 ^ 23 % 256, u % 2 ^ 23, ?_, by omega, by omega, by omega⟩
  unfold single
  omega

theorem exists_half {h : ℕ} (hh : h < 2 ^ 16) :
    ∃ s e m, h = half s e m ∧ s < 2 ∧ e < 32 ∧ m < 2 ^ 10 := by
  refine ⟨h / 2 ^ 15, h / 2 ^ 10 % 32, h % 2 ^ 10, ?_, by omega, by omega, by omega⟩
  unfold half
  omega

theorem signOf_single (hs : s < 2) (hE : E < 256) (hm : m < 2 ^ 23) :
    signOf (single s E m) = s * 2 ^ 15 := by
  have hshift : single s E m >>> 16 = s * 2 ^ 15 + (E * 2 ^ 7 + m / 2 ^ 16) := by
    rw [Nat.shiftRight_eq_div_pow]
    unfold single
    omega
  have hmask : (0x8000 : ℕ) = 2 ^ 16 - 2 ^ 15 := by decide
  rw [signOf, hshift, hmask, and_high_bits (by omega) (by decide)]
  omega

theorem expOf_single (hE : E < 256) (hm : m < 2 ^ 23) : expOf (single s E m) = E := by
  have hmask : (0xFF : ℕ) = 2 ^ 8 - 1 := by decide
  rw [expOf, hmask, Nat.and_two_pow_sub_one_eq_mod, Nat.shiftRight_eq_div_pow]
  unfold single
  omega

theorem mantOf_single (hm : m < 2 ^ 23) : mantOf (single s E m) = m := by
  have hmask : (0x7FFFFF : ℕ) = 2 ^ 23 - 1 := by decide
  rw [mantOf, hmask, Nat.and_two_pow_sub_one_eq_mod]
  unfold single
  omega

theorem lead_one (hm : m < 2 ^ 23) : m ||| 0x800000 = 2 ^ 23 + m := by
  have hor := lor_shiftLeft m 1 23 hm
  rw [Nat.one_mul, Nat.add_comm] at hor
  exact hor

theorem u16_sign {c : ℕ} (hs : s < 2) (hc : c < 2 ^ 15) :
    u16 (s * 2 ^ 15 ||| c) = s * 2 ^ 15 + c := by
  have hor := lor_shiftLeft c s 15 hc
  rw [Nat.shiftLeft_eq] at hor
  rw [Nat.or_comm, hor, u16]
  omega

theorem u16_sign_only (hs : s < 2) : u16 (s * 2 ^ 15) = s * 2 ^ 15 := by
  unfold u16
  omega

theorem single_div (hE : E < 256) (hm : m < 2 ^ 23) : single s E m / 2 ^ 31 = s := by
  unfold single
  omega

theorem single_mod (hE : E < 256) (hm : m < 2 ^ 23) :
    single s E m % 2 ^ 31 = E * 2 ^ 23 + m := by
  unfold single
  omega

theorem isNaN_single (hE : E < 256) (hm : m < 2 ^ 23) :
    IsNaN (single s E m) ↔ E = 255 ∧ m ≠ 0 := by
  rw [IsNaN, single_mod hE hm]
  omega

end Fields

/-! ### The rounded shift -/

theorem carry_eq_roundUp (q rem mid : ℕ) : carry q rem mid = roundUp q rem mid := by
  rw [carry, roundUp, Nat.and_one_is_mod]
  have hodd : q % 2 ≠ 0 ↔ q % 2 = 1 := Nat.mod_two_ne_zero
  simp only [hodd]

theorem shiftRne_eq {mant shift : ℕ} : shiftRne mant shift = roundShift shift mant := by
  rw [shiftRne, carry_eq_roundUp, Nat.one_shiftLeft, Nat.one_shiftLeft,
    Nat.and_two_pow_sub_one_eq_mod, Nat.shiftRight_eq_div_pow]
  rfl

/-! ### The nearest half -/

/-- The code of the half that a single with these fields is rounded to, if it is a number. -/
def roundedCode (E m : ℕ) : ℕ :=
  if E < 102 then 0
  else if E < 113 then roundShift (126 - E) (2 ^ 23 + m)
  else min ((E - 113) * 2 ^ 10 + roundShift 13 (2 ^ 23 + m)) 0x7C00

section Nearest

variable {s E m : ℕ}

theorem magnitude_single (hE : 0 < E) (hm : m < 2 ^ 23) :
    magnitude 23 (E * 2 ^ 23 + m) = (2 ^ 23 + m) * 2 ^ (E - 1) := by
  obtain ⟨j, rfl⟩ : ∃ j, E = j + 1 := ⟨E - 1, by omega⟩
  rw [Nat.succ_mul, Nat.add_assoc, magnitude_run (by omega) (by omega), Nat.add_sub_cancel]

theorem nearest_normal (hE : 113 ≤ E) (hm : m < 2 ^ 23) :
    NearestEven (scaled 10 125) (magnitude 23 (E * 2 ^ 23 + m))
      ((E - 113) * 2 ^ 10 + roundShift 13 (2 ^ 23 + m)) := by
  have hpos := Nat.two_pow_pos (E - 1)
  have hunit : 2 ^ (125 + (E - 113)) = 2 ^ 13 * 2 ^ (E - 1) := by
    rw [← Nat.pow_add]
    congr 1
    omega
  have hshift : roundShift (125 + (E - 113)) ((2 ^ 23 + m) * 2 ^ (E - 1)) =
      roundShift 13 (2 ^ 23 + m) := by
    rw [show 125 + (E - 113) = 13 + (E - 1) by omega]
    exact roundShift_add (by decide) _ _
  rw [magnitude_single (by omega) hm, ← hshift]
  apply nearestEven_roundShift (by decide) (by decide)
  · right
    rw [hunit, ← Nat.mul_assoc]
    exact Nat.mul_le_mul_right _ (by omega)
  · rw [hunit, ← Nat.mul_assoc]
    exact Nat.mul_lt_mul_of_pos_right (by omega) hpos

theorem nearest_subnormal (hlow : 0 < E) (hE : E < 113) (hm : m < 2 ^ 23) :
    NearestEven (scaled 10 125) (magnitude 23 (E * 2 ^ 23 + m))
      (roundShift (126 - E) (2 ^ 23 + m)) := by
  have hshift : roundShift 125 ((2 ^ 23 + m) * 2 ^ (E - 1)) =
      roundShift (126 - E) (2 ^ 23 + m) := by
    rw [show 125 = 126 - E + (E - 1) by omega, roundShift_add (by omega)]
  have hle : 2 ^ (E - 1) ≤ 2 ^ 111 := Nat.pow_le_pow_right (by decide) (by omega)
  have hbound : (2 ^ 23 + m) * 2 ^ (E - 1) < 2 * 2 ^ 10 * 2 ^ (125 + 0) :=
    (Nat.mul_le_mul_left _ hle).trans_lt (by omega)
  have hnear := nearestEven_roundShift (p := 10) (s := 125) (j := 0) (by decide) (by decide)
    (.inl rfl) hbound
  rw [Nat.zero_mul, Nat.zero_add, Nat.add_zero, hshift] at hnear
  rw [magnitude_single hlow hm]
  exact hnear

theorem nearest_zero (hE : E < 102) (hm : m < 2 ^ 23) :
    NearestEven (scaled 10 125) (magnitude 23 (E * 2 ^ 23 + m)) 0 := by
  have hbound : magnitude 23 (E * 2 ^ 23 + m) < 2 ^ 124 :=
    calc magnitude 23 (E * 2 ^ 23 + m)
      _ < magnitude 23 (102 * 2 ^ 23 + 0) := magnitude_strictMono 23 (by omega)
      _ = 2 ^ 124 := by rw [magnitude_single (by decide) (by decide)]; rfl
  have hnear := nearestEven_roundShift (p := 10) (s := 125) (j := 0)
    (v := magnitude 23 (E * 2 ^ 23 + m)) (by decide) (by decide) (.inl rfl) (by omega)
  rw [Nat.zero_mul, Nat.zero_add, Nat.add_zero, roundShift_of_small hbound] at hnear
  exact hnear

theorem roundShift_subnormal_le (hE : E < 113) (hm : m < 2 ^ 23) :
    roundShift (126 - E) (2 ^ 23 + m) ≤ 2 ^ 10 := by
  have hle : 2 ^ 14 ≤ 2 ^ (126 - E) := Nat.pow_le_pow_right (by decide) (by omega)
  apply roundShift_le
  omega

theorem roundShift_normal (hm : m < 2 ^ 23) :
    2 ^ 10 ≤ roundShift 13 (2 ^ 23 + m) ∧ roundShift 13 (2 ^ 23 + m) ≤ 2 ^ 11 :=
  ⟨le_roundShift (by omega), roundShift_le (by omega)⟩

theorem roundedCode_le (hm : m < 2 ^ 23) : roundedCode E m ≤ 0x7C00 := by
  unfold roundedCode
  split_ifs with hzero hsub
  · exact Nat.zero_le _
  · exact (roundShift_subnormal_le hsub hm).trans (by decide)
  · exact Nat.min_le_right _ _

theorem roundedCode_nearest (hm : m < 2 ^ 23) :
    ∃ c, NearestEven (scaled 10 125) (magnitude 23 (E * 2 ^ 23 + m)) c ∧
      roundedCode E m = min c 0x7C00 := by
  unfold roundedCode
  split_ifs with hzero hsub
  · exact ⟨0, nearest_zero hzero hm, rfl⟩
  · have hle := roundShift_subnormal_le hsub hm
    refine ⟨_, nearest_subnormal (by omega) hsub hm, ?_⟩
    exact (Nat.min_eq_left (by omega)).symm
  · exact ⟨_, nearest_normal (by omega) hm, rfl⟩

theorem isHalfOf_rounded (hE : E < 256) (hm : m < 2 ^ 23)
    (hnum : ¬ (E = 255 ∧ m ≠ 0)) :
    IsHalfOf (single s E m) (s * 2 ^ 15 + roundedCode E m) := by
  have hle := roundedCode_le (E := E) hm
  have hhigh : (s * 2 ^ 15 + roundedCode E m) / 2 ^ 15 = s := by omega
  have hlow : (s * 2 ^ 15 + roundedCode E m) % 2 ^ 15 = roundedCode E m := by omega
  rw [IsHalfOf, if_neg (by rw [isNaN_single hE hm]; exact hnum), hhigh, hlow, single_div hE hm,
    single_mod hE hm]
  exact ⟨rfl, roundedCode_nearest hm⟩

theorem IsHalfOf.unique {u h h' : ℕ} (hnum : ¬ IsNaN u) (hh : IsHalfOf u h)
    (hh' : IsHalfOf u h') : h = h' := by
  rw [IsHalfOf, if_neg hnum] at hh hh'
  obtain ⟨hsign, c, hc, hcode⟩ := hh
  obtain ⟨hsign', c', hc', hcode'⟩ := hh'
  have hcc : c = c' := hc.unique (scaled_strictMono 10 125) hc'
  rw [← hcc] at hcode'
  omega

end Nearest

/-! ### What the conversions return -/

section Conversions

variable {s E m : ℕ}

theorem roundedCode_zero (hE : E < 102) : roundedCode E m = 0 := if_pos hE

theorem roundedCode_subnormal (hlow : 102 ≤ E) (hE : E < 113) :
    roundedCode E m = roundShift (126 - E) (2 ^ 23 + m) := by
  rw [roundedCode, if_neg (by omega), if_pos hE]

theorem roundedCode_normal (hlow : 113 ≤ E) (hE : E < 143) (hm : m < 2 ^ 23) :
    roundedCode E m = (E - 113) * 2 ^ 10 + roundShift 13 (2 ^ 23 + m) := by
  have hle := (roundShift_normal hm).2
  rw [roundedCode, if_neg (by omega), if_neg (by omega)]
  exact Nat.min_eq_left (by omega)

theorem roundedCode_overflow (hE : 143 ≤ E) (hm : m < 2 ^ 23) : roundedCode E m = 0x7C00 := by
  have hle := (roundShift_normal hm).1
  rw [roundedCode, if_neg (by omega), if_neg (by omega)]
  exact Nat.min_eq_right (by omega)

theorem roundShift_lead (m : ℕ) :
    roundShift 13 (2 ^ 23 + m) =
      2 ^ 10 + (m / 2 ^ 13 + roundUp (m / 2 ^ 13) (m % 2 ^ 13) 0x1000) := by
  have hdiv : (2 ^ 23 + m) / 2 ^ 13 = 2 ^ 10 + m / 2 ^ 13 := by omega
  have hmod : (2 ^ 23 + m) % 2 ^ 13 = m % 2 ^ 13 := by omega
  have hparity : (2 ^ 10 + m / 2 ^ 13) % 2 = m / 2 ^ 13 % 2 := by omega
  rw [roundShift, hdiv, hmod, roundUp, hparity, Nat.add_assoc]
  rfl

theorem or_fields {e f : ℕ} (s : ℕ) (he : e < 32) (hf : f < 2 ^ 10) :
    s * 2 ^ 15 ||| e <<< 10 ||| f = half s e f := by
  have hlow := lor_shiftLeft f e 10 hf
  have hhigh := lor_shiftLeft (f + e * 2 ^ 10) s 15 (by omega)
  rw [Nat.shiftLeft_eq] at hhigh
  rw [Nat.or_assoc, Nat.or_comm (e <<< 10), hlow, Nat.or_comm, hhigh, half]
  omega

theorem u16_half {e f : ℕ} (hs : s < 2) (he : e < 32) (hf : f < 2 ^ 10) :
    u16 (half s e f) = half s e f := by
  unfold u16 half
  omega

theorem normalRne_eq (hs : s < 2) (hlow : 113 ≤ E) (hhigh : E < 143) (hm : m < 2 ^ 23) :
    u16 (normalRne (s * 2 ^ 15) m ((E : ℤ) - 127 + 15)) = s * 2 ^ 15 + roundedCode E m := by
  have hfrac : (m >>> 13) &&& 0x3FF = m / 2 ^ 13 := by
    have hmask : (0x3FF : ℕ) = 2 ^ 10 - 1 := by decide
    rw [hmask, Nat.and_two_pow_sub_one_eq_mod, Nat.shiftRight_eq_div_pow]
    omega
  have hrem : m &&& 0x1FFF = m % 2 ^ 13 := by
    have hmask : (0x1FFF : ℕ) = 2 ^ 13 - 1 := by decide
    rw [hmask, Nat.and_two_pow_sub_one_eq_mod]
  have hup := roundUp_le (m / 2 ^ 13) (m % 2 ^ 13) 0x1000
  have hexp : ((E : ℤ) - 127 + 15).toNat = E - 112 := by omega
  have hexp' : ((E : ℤ) - 127 + 15 + 1).toNat = E - 111 := by omega
  rw [roundedCode_normal hlow hhigh hm, roundShift_lead m]
  simp only [normalRne, hfrac, hrem, carry_eq_roundUp]
  by_cases hfull : m / 2 ^ 13 + roundUp (m / 2 ^ 13) (m % 2 ^ 13) 0x1000 = 0x400
  · rw [if_pos hfull, if_pos hfull, hfull]
    by_cases htop : 31 ≤ (E : ℤ) - 127 + 15 + 1
    · rw [if_pos htop, u16_sign hs (by decide)]
      omega
    · rw [if_neg htop, hexp', or_fields s (by omega) (by decide),
        u16_half hs (by omega) (by decide), half]
      omega
  · rw [if_neg hfull, if_neg hfull, if_neg (by omega), hexp, or_fields s (by omega) (by omega),
      u16_half hs (by omega) (by omega), half]
    omega

theorem subnormal_eq (hs : s < 2) (hE : E < 113) (hm : m < 2 ^ 23) :
    (if (E : ℤ) - 127 + 15 < -10 then u16 (s * 2 ^ 15)
      else u16 (s * 2 ^ 15 ||| roundShift (14 - ((E : ℤ) - 127 + 15)).toNat (2 ^ 23 + m))) =
      s * 2 ^ 15 + roundedCode E m := by
  by_cases hsmall : E < 102
  · rw [if_pos (by omega), u16_sign_only hs, roundedCode_zero hsmall, Nat.add_zero]
  · have hshift : (14 - ((E : ℤ) - 127 + 15)).toNat = 126 - E := by omega
    have hle := roundShift_subnormal_le hE hm
    rw [if_neg (by omega), hshift, u16_sign hs (by omega), roundedCode_subnormal (by omega) hE]

theorem f32ToF16Rne_single (hs : s < 2) (hE : E < 256) (hm : m < 2 ^ 23)
    (hnum : ¬ (E = 255 ∧ m ≠ 0)) :
    f32ToF16Rne (single s E m) = s * 2 ^ 15 + roundedCode E m := by
  simp only [f32ToF16Rne, signOf_single hs hE hm, expOf_single hE hm, mantOf_single hm,
    lead_one hm, shiftRne_eq]
  by_cases hinf : E = 255
  · rw [if_pos hinf, if_neg (by omega), Nat.or_zero, u16_sign hs (by decide),
      roundedCode_overflow (by omega) hm]
  rw [if_neg hinf]
  by_cases hzero : E = 0
  · rw [if_pos hzero, u16_sign_only hs, roundedCode_zero (by omega), Nat.add_zero]
  rw [if_neg hzero]
  by_cases hover : 143 ≤ E
  · rw [if_pos (by omega), u16_sign hs (by decide), roundedCode_overflow hover hm]
  rw [if_neg (by omega)]
  by_cases hnormal : 113 ≤ E
  · rw [if_neg (by omega)]
    exact normalRne_eq hs hnormal (by omega) hm
  rw [if_pos (by omega)]
  exact subnormal_eq hs (by omega) hm

theorem deviceNormal_eq (hs : s < 2) (hlow : 113 ≤ E) (hhigh : E < 143) (hm : m < 2 ^ 23) :
    u16 (deviceNormal (s * 2 ^ 15) m ((E : ℤ) - 127 + 15)) = s * 2 ^ 15 + roundedCode E m := by
  have hexp : ((E : ℤ) - 127 + 15).toNat = E - 112 := by omega
  have hfrac : m >>> 13 = m / 2 ^ 13 := Nat.shiftRight_eq_div_pow _ _
  have hbit : (m >>> 12) &&& 1 = m / 2 ^ 12 % 2 := by
    rw [Nat.and_one_is_mod, Nat.shiftRight_eq_div_pow]
  have hrest : m &&& 0xFFF = m % 2 ^ 12 := by
    have hmask : (0xFFF : ℕ) = 2 ^ 12 - 1 := by decide
    rw [hmask, Nat.and_two_pow_sub_one_eq_mod]
  have hparity : half s (E - 112) (m / 2 ^ 13) % 2 = m / 2 ^ 13 % 2 := by
    unfold half
    omega
  rw [roundedCode_normal hlow hhigh hm, roundShift_lead m, deviceNormal, hexp, hfrac,
    or_fields s (by omega) (by omega), hbit, hrest, Nat.and_one_is_mod, hparity, roundUp]
  -- the highest of the lost bits decides, then the others, then the parity
  by_cases hset : m / 2 ^ 12 % 2 = 0
  · rw [if_neg (by omega), if_neg (by omega), u16_half hs (by omega) (by omega), half]
    omega
  by_cases hup : m % 2 ^ 12 ≠ 0 ∨ m / 2 ^ 13 % 2 ≠ 0
  · rw [if_pos hset, if_pos hup, if_pos (by omega), u16, half]
    omega
  · rw [if_pos hset, if_neg hup, if_neg (by omega), u16, half]
    omega

theorem deviceF32ToF16_single (hs : s < 2) (hE : E < 256) (hm : m < 2 ^ 23) :
    deviceF32ToF16 (single s E m) = s * 2 ^ 15 + roundedCode E m := by
  simp only [deviceF32ToF16, signOf_single hs hE hm, expOf_single hE hm, mantOf_single hm,
    lead_one hm, shiftRne_eq]
  by_cases hinf : E = 255
  · rw [if_pos hinf, u16_sign hs (by decide), roundedCode_overflow (by omega) hm]
  rw [if_neg hinf]
  by_cases hover : 143 ≤ E
  · rw [if_pos (by omega), u16_sign hs (by decide), roundedCode_overflow hover hm]
  rw [if_neg (by omega)]
  by_cases hnormal : 113 ≤ E
  · rw [if_neg (by omega)]
    exact deviceNormal_eq hs hnormal (by omega) hm
  rw [if_pos (by omega)]
  exact subnormal_eq hs (by omega) hm

theorem f32ToF16Rne_nan (hs : s < 2) (hm : m < 2 ^ 23) (hnan : m ≠ 0) :
    f32ToF16Rne (single s 255 m) = s * 2 ^ 15 + 0x7E00 := by
  have hE : 255 < 256 := by decide
  simp only [f32ToF16Rne, signOf_single hs hE hm, expOf_single hE hm, mantOf_single hm]
  rw [if_pos trivial, if_pos hnan, Nat.or_assoc]
  exact u16_sign hs (by decide)

end Conversions

/-! ### The conversion to 32 bits -/

section Widen

variable {s e m : ℕ}

theorem bit_ten (hm : m < 2 ^ 11) : m &&& 0x400 ≠ 0 ↔ 2 ^ 10 ≤ m := by
  have hand : m &&& 0x400 = (m.testBit 10).toNat * 2 ^ 10 := Nat.and_two_pow m 10
  rw [hand, Nat.testBit_eq_decide_div_mod_eq]
  by_cases hbit : m / 2 ^ 10 % 2 = 1
  · rw [decide_eq_true hbit]
    simp
    omega
  · rw [decide_eq_false hbit]
    simp
    omega

theorem normalize_eq (step : ℤ) {k : ℕ} :
    ∀ {fuel m : ℕ} {e : ℤ}, k < fuel → 2 ^ 10 ≤ m * 2 ^ k → m * 2 ^ k < 2 ^ 11 →
      normalizeMant step fuel m e = some (m * 2 ^ k, e + k * step) := by
  induction k with
  | zero =>
    intro fuel m e hfuel hlow hhigh
    obtain ⟨fuel, rfl⟩ : ∃ f, fuel = f + 1 := ⟨fuel - 1, by omega⟩
    rw [normalizeMant, if_pos ((bit_ten (by omega)).mpr (by omega))]
    simp
  | succ k ih =>
    intro fuel m e hfuel hlow hhigh
    obtain ⟨fuel, rfl⟩ : ∃ f, fuel = f + 1 := ⟨fuel - 1, by omega⟩
    have hm : m * 2 ^ (k + 1) = m <<< 1 * 2 ^ k := by
      rw [Nat.shiftLeft_eq, Nat.pow_succ]
      ring
    have htwo : m * 2 ^ 1 ≤ m * 2 ^ (k + 1) :=
      Nat.mul_le_mul_left _ (Nat.pow_le_pow_right (by decide) (by omega))
    have hlt : m < 2 ^ 10 := by omega
    rw [normalizeMant, if_neg (by rw [bit_ten (by omega)]; omega), hm]
    rw [hm] at hlow hhigh
    rw [ih (by omega) hlow hhigh]
    congr 2
    push_cast
    ring

theorem exists_lead (hpos : 0 < m) (hm : m < 2 ^ 10) :
    ∃ k, 0 < k ∧ k < 11 ∧ 2 ^ 10 ≤ m * 2 ^ k ∧ m * 2 ^ k < 2 ^ 11 := by
  have hlog : m.log2 < 10 := (Nat.log2_lt (by omega)).mpr hm
  have hlow : 2 ^ m.log2 ≤ m := Nat.log2_self_le (by omega)
  have hhigh : m < 2 ^ (m.log2 + 1) := Nat.lt_log2_self
  refine ⟨10 - m.log2, by omega, by omega, ?_, ?_⟩
  · calc 2 ^ 10 = 2 ^ m.log2 * 2 ^ (10 - m.log2) := by
          rw [← Nat.pow_add]
          congr 1
          omega
      _ ≤ m * 2 ^ (10 - m.log2) := Nat.mul_le_mul_right _ hlow
  · calc m * 2 ^ (10 - m.log2)
      _ < 2 ^ (m.log2 + 1) * 2 ^ (10 - m.log2) :=
          Nat.mul_lt_mul_of_pos_right hhigh (Nat.two_pow_pos _)
      _ = 2 ^ 11 := by
          rw [← Nat.pow_add]
          congr 1
          omega

theorem or_single {E f : ℕ} (s : ℕ) (hE : E < 256) (hf : f < 2 ^ 10) :
    (s * 2 ^ 15) <<< 16 ||| E <<< 23 ||| f <<< 13 = single s E (f * 2 ^ 13) := by
  have hlow := lor_shiftLeft (f * 2 ^ 13) E 23 (by omega)
  have hhigh := lor_shiftLeft (f * 2 ^ 13 + E * 2 ^ 23) s 31 (by omega)
  have hsign : (s * 2 ^ 15) <<< 16 = s <<< 31 := by
    rw [Nat.shiftLeft_eq, Nat.shiftLeft_eq]
    omega
  rw [hsign, Nat.shiftLeft_eq f, Nat.or_assoc, Nat.or_comm (E <<< 23), hlow, Nat.or_comm, hhigh,
    single]
  omega

theorem half_sign (hs : s < 2) (he : e < 32) (hm : m < 2 ^ 10) :
    half s e m &&& 0x8000 = s * 2 ^ 15 := by
  have hmask : (0x8000 : ℕ) = 2 ^ 16 - 2 ^ 15 := by decide
  rw [hmask, and_high_bits (by unfold half; omega) (by decide)]
  unfold half
  omega

theorem half_exp (he : e < 32) (hm : m < 2 ^ 10) : (half s e m >>> 10) &&& 0x1F = e := by
  have hmask : (0x1F : ℕ) = 2 ^ 5 - 1 := by decide
  rw [hmask, Nat.and_two_pow_sub_one_eq_mod, Nat.shiftRight_eq_div_pow]
  unfold half
  omega

theorem half_frac (hm : m < 2 ^ 10) : half s e m &&& 0x3FF = m := by
  have hmask : (0x3FF : ℕ) = 2 ^ 10 - 1 := by decide
  rw [hmask, Nat.and_two_pow_sub_one_eq_mod]
  unfold half
  omega

variable {step : ℤ} {field : ℤ → ℤ}

theorem widen_finite (hfield : ∀ k : ℕ, field (-1 + k * step) = 113 - k) (hs : s < 2)
    (he : e < 31) (hm : m < 2 ^ 10) :
    ∃ E f, widen step field (half s e m) = some (single s E f) ∧ E < 255 ∧ f < 2 ^ 23 ∧
      magnitude 23 (E * 2 ^ 23 + f) = scaled 10 125 (e * 2 ^ 10 + m) := by
  simp only [widen, half_sign hs (show e < 32 by omega) hm, half_exp (show e < 32 by omega) hm,
    half_frac hm]
  by_cases hzero : e = 0
  · rw [if_pos hzero]
    by_cases hnone : m = 0
    · refine ⟨0, 0, ?_, by decide, by decide, ?_⟩
      · have hsign : s * 2 ^ 15 * 2 ^ 16 = single s 0 0 := by
          unfold single
          omega
        rw [if_pos hnone, Nat.shiftLeft_eq, hsign]
      · rw [hzero, hnone]
        simp [magnitude, scaled]
    · obtain ⟨k, hkpos, hk, hlow, hhigh⟩ := exists_lead (Nat.pos_of_ne_zero hnone) hm
      have hfrac : m * 2 ^ k &&& 0x3FF = m * 2 ^ k - 2 ^ 10 := by
        have hmask : (0x3FF : ℕ) = 2 ^ 10 - 1 := by decide
        rw [hmask, Nat.and_two_pow_sub_one_eq_mod]
        omega
      have hexp : (field (-1 + k * step)).toNat = 113 - k := by
        rw [hfield]
        omega
      refine ⟨113 - k, (m * 2 ^ k - 2 ^ 10) * 2 ^ 13, ?_, by omega, by omega, ?_⟩
      · rw [if_neg hnone, normalize_eq step hk hlow hhigh, Option.map_some]
        simp only [hfrac, hexp]
        rw [or_single s (by omega) (by omega)]
      · have hlead : 2 ^ 23 + (m * 2 ^ k - 2 ^ 10) * 2 ^ 13 = m * 2 ^ k * 2 ^ 13 := by omega
        have hsum : k + (13 + (113 - k - 1)) = 125 := by omega
        have hpow : 2 ^ k * (2 ^ 13 * 2 ^ (113 - k - 1)) = 2 ^ 125 := by
          rw [← Nat.pow_add, ← Nat.pow_add, hsum]
        have hrun := scaled_run (p := 10) (s := 125) (j := 0) (m := m) (.inl rfl) (by omega)
        rw [magnitude_single (by omega) (by omega), hlead, hzero, hrun, Nat.add_zero, Nat.mul_assoc,
          Nat.mul_assoc, hpow]
  · refine ⟨e + 112, m * 2 ^ 13, ?_, by omega, by omega, ?_⟩
    · rw [if_neg hzero, if_neg (by omega), or_single s (by omega) hm]
      congr 2
    · have hrun : scaled 10 125 ((e - 1) * 2 ^ 10 + (2 ^ 10 + m)) =
          (2 ^ 10 + m) * 2 ^ (125 + (e - 1)) := scaled_run (by omega) (by omega)
      have hcode : e * 2 ^ 10 + m = (e - 1) * 2 ^ 10 + (2 ^ 10 + m) := by omega
      have hpow : 2 ^ (125 + (e - 1)) = 2 ^ 13 * 2 ^ (e + 112 - 1) := by
        rw [← Nat.pow_add]
        congr 1
        omega
      rw [magnitude_single (by omega) (by omega), hcode, hrun, hpow, ← Nat.mul_assoc]
      congr 1
      omega

theorem widen_special (hs : s < 2) (hm : m < 2 ^ 10) :
    widen step field (half s 31 m) = some (single s 255 (m * 2 ^ 13)) := by
  have hexp : (0x7F800000 : ℕ) = 255 <<< 23 := by decide
  simp only [widen, half_sign hs (show 31 < 32 by decide) hm, half_exp (show 31 < 32 by decide) hm,
    half_frac hm]
  rw [if_neg (by decide), if_pos trivial, hexp, or_single s (by decide) hm]

end Widen

/-! ### Host and device -/

section Agreement

variable {s e m : ℕ}

theorem half_isNaN (he : e < 32) (hm : m < 2 ^ 10) :
    IsHalfNaN (half s e m) ↔ e = 31 ∧ m ≠ 0 := by
  unfold IsHalfNaN half
  omega

theorem isHalfOf_widened {E f : ℕ} (he : e < 31) (hm : m < 2 ^ 10) (hE : E < 255)
    (hf : f < 2 ^ 23) (hval : magnitude 23 (E * 2 ^ 23 + f) = scaled 10 125 (e * 2 ^ 10 + m)) :
    IsHalfOf (single s E f) (half s e m) := by
  have hnum : ¬ IsNaN (single s E f) := by
    rw [isNaN_single (by omega) hf]
    omega
  rw [IsHalfOf, if_neg hnum, single_div (by omega) hf, single_mod (by omega) hf, hval]
  refine ⟨?_, _, nearestEven_self (scaled_strictMono 10 125) _, ?_⟩
  · unfold half
    omega
  · unfold half
    omega

theorem narrow_widen {step : ℤ} {field : ℤ → ℤ} {narrow : ℕ → ℕ}
    (hfield : ∀ k : ℕ, field (-1 + k * step) = 113 - k)
    (hround : ∀ {s E m : ℕ}, s < 2 → E < 256 → m < 2 ^ 23 → ¬ (E = 255 ∧ m ≠ 0) →
      narrow (single s E m) = s * 2 ^ 15 + roundedCode E m)
    {h : ℕ} (hh : h < 2 ^ 16) (hnum : ¬ IsHalfNaN h) :
    (widen step field h).map narrow = some h := by
  obtain ⟨s, e, m, rfl, hs, he, hm⟩ := exists_half hh
  rw [half_isNaN he hm] at hnum
  by_cases htop : e = 31
  · have hzero : m = 0 := by omega
    rw [htop, hzero, widen_special hs (by decide), Option.map_some,
      hround hs (by decide) (by decide) (by decide), Nat.zero_mul,
      roundedCode_overflow (by decide) (by decide)]
    rfl
  · obtain ⟨E, f, hwide, hE, hf, hval⟩ := widen_finite hfield hs (show e < 31 by omega) hm
    have hfin : ¬ IsNaN (single s E f) := by
      rw [isNaN_single (by omega) hf]
      omega
    have hown := isHalfOf_widened (s := s) (by omega) hm hE hf hval
    have hcode := isHalfOf_rounded (s := s) (show E < 256 by omega) hf (by omega)
    rw [hwide, Option.map_some, hround hs (by omega) hf (by omega), hcode.unique hfin hown]

theorem f32ToF16Rne_right {u : ℕ} (hu : u < 2 ^ 32) : IsHalfOf u (f32ToF16Rne u) := by
  obtain ⟨s, E, m, rfl, hs, hE, hm⟩ := exists_single hu
  by_cases hnan : E = 255 ∧ m ≠ 0
  · rw [IsHalfOf, if_pos ((isNaN_single hE hm).mpr hnan), hnan.1, f32ToF16Rne_nan hs hm hnan.2]
    unfold IsHalfNaN
    omega
  · rw [f32ToF16Rne_single hs hE hm hnan]
    exact isHalfOf_rounded hE hm hnan

theorem deviceF32ToF16_eq_iff {u : ℕ} (hu : u < 2 ^ 32) :
    f32ToF16Rne u = deviceF32ToF16 u ↔ ¬ IsNaN u := by
  obtain ⟨s, E, m, rfl, hs, hE, hm⟩ := exists_single hu
  rw [isNaN_single hE hm, deviceF32ToF16_single hs hE hm]
  by_cases hnan : E = 255 ∧ m ≠ 0
  · rw [hnan.1, f32ToF16Rne_nan hs hm hnan.2, roundedCode_overflow (by decide) hm]
    omega
  · rw [f32ToF16Rne_single hs hE hm hnan]
    exact iff_of_true rfl hnan

theorem host_field (k : ℕ) : 114 + (-1 + (k : ℤ) * -1) = 113 - k := by omega

theorem device_field (k : ℕ) : 127 - 15 + 1 - (-1 + (k : ℤ) * 1) - 1 = 113 - k := by omega

/-- Emitter and device return the same half, the rounded one of IEEE 754, for every pattern of 32
bits but a NaN; and each takes every half that is not a NaN from 32 bits back to itself. -/
theorem half_conversions_iff (u : UInt32) (h : UInt16) (hnum : ¬ IsHalfNaN h.toNat) :
    ((f32ToF16Rne u.toNat = deviceF32ToF16 u.toNat ∧ IsHalfOf u.toNat (f32ToF16Rne u.toNat)) ↔
      ¬ IsNaN u.toNat) ∧
    (f16ToF32 h.toNat).map f32ToF16Rne = some h.toNat ∧
      (deviceF16ToF32 h.toNat).map deviceF32ToF16 = some h.toNat := by
  constructor
  · rw [deviceF32ToF16_eq_iff u.toNat_lt]
    exact and_iff_left (f32ToF16Rne_right u.toNat_lt)
  · refine ⟨narrow_widen host_field f32ToF16Rne_single h.toNat_lt hnum, ?_⟩
    apply narrow_widen device_field _ h.toNat_lt hnum
    intro s E m hs hE hm _
    exact deviceF32ToF16_single hs hE hm

/-- Both conversions of 1, and the smallest subnormal there and back. -/
theorem half_conversions_one :
    (f32ToF16Rne (0x3F800000 : UInt32).toNat = deviceF32ToF16 (0x3F800000 : UInt32).toNat ∧
      IsHalfOf (0x3F800000 : UInt32).toNat (f32ToF16Rne (0x3F800000 : UInt32).toNat)) ∧
    (f16ToF32 (0x0001 : UInt16).toNat).map f32ToF16Rne = some (0x0001 : UInt16).toNat ∧
      (deviceF16ToF32 (0x0001 : UInt16).toNat).map deviceF32ToF16 =
        some (0x0001 : UInt16).toNat := by
  have hone := half_conversions_iff 0x3F800000 0x0001 (by decide)
  exact ⟨hone.1.mpr (by decide), hone.2⟩

/-- Of the quiet NaN the emitter makes a NaN and the device an infinity. -/
theorem nan_lost :
    ¬ ((∀ u : UInt32, f32ToF16Rne u.toNat = deviceF32ToF16 u.toNat ∧
        IsHalfOf u.toNat (f32ToF16Rne u.toNat)) ∧
      ∀ h : UInt16, ¬ IsHalfNaN h.toNat →
        (f16ToF32 h.toNat).map f32ToF16Rne = some h.toNat ∧
          (deviceF16ToF32 h.toNat).map deviceF32ToF16 = some h.toNat) := by
  intro hall
  have hsame := (hall.1 0x7FC00000).1
  have hhost : f32ToF16Rne (0x7FC00000 : UInt32).toNat = 0x7E00 := by decide
  have hdevice : deviceF32ToF16 (0x7FC00000 : UInt32).toNat = 0x7C00 := by decide
  rw [hhost, hdevice] at hsame
  exact absurd hsame (by decide)

end Agreement

end Gehtp.Analysis.HalfRounding
