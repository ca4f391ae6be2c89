import Gehtp.Analysis.HalfRounding

/-!
# What constant folding does to halves

The constant folder rounds by the same rule from the exponent of the second binade on. Below that it
shifts by one bit too many, so that the halves of the lowest normal binade and the subnormal ones are
cut in half, and for the smallest exponents, zero included, the shift is by 32 and more. Only a few
patterns in between, which are rounded to zero or to the smallest half, come out right. A folded
operator that moves halves keeps their bytes exactly if all of them are in the upper binades, an
infinity, or the NaN that the folder writes.
-/

set_option autoImplicit false

namespace Gehtp.Analysis.ConstNarrow

open Lib Lib.Rounding Model.HalfFloat Analysis.HalfRounding

/-- The patterns that `narrow_f16` rounds right, by exponent and fraction. -/
def NarrowsRight (u : ℕ) : Prop :=
  let E := u / 2 ^ 23 % 2 ^ 8
  let m := u % 2 ^ 23
  114 ≤ E ∨ (96 ≤ E ∧ E ≤ 101) ∨ (E = 102 ∧ m = 0) ∨ (E = 103 ∧ 0 < m ∧ m < 2 ^ 22)

/-- The halves that survive: the upper binades, the infinities and the NaN with the highest bit of its
fraction alone. -/
def Survives (h : ℕ) : Prop :=
  let e := h / 2 ^ 10 % 2 ^ 5
  let m := h % 2 ^ 10
  2 ≤ e ∧ (e = 31 → m = 0 ∨ m = 2 ^ 9)

instance (u : ℕ) : Decidable (NarrowsRight u) := inferInstanceAs (Decidable (_ ∨ _))

instance (h : ℕ) : Decidable (Survives h) := inferInstanceAs (Decidable (_ ∧ _))

section Narrow

variable {s E m : ℕ}

theorem narrowsRight_single (hE : E < 256) (hm : m < 2 ^ 23) :
    NarrowsRight (single s E m) ↔
      114 ≤ E ∨ (96 ≤ E ∧ E ≤ 101) ∨ (E = 102 ∧ m = 0) ∨ (E = 103 ∧ 0 < m ∧ m < 2 ^ 22) := by
  have hexp : single s E m / 2 ^ 23 % 2 ^ 8 = E := by
    unfold single
    omega
  have hfrac : single s E m % 2 ^ 23 = m := by
    unfold single
    omega
  unfold NarrowsRight
  simp only [hexp, hfrac]

theorem narrowNormal_eq (hs : s < 2) (hlow : 114 ≤ E) (hhigh : E < 143) (hm : m < 2 ^ 23) :
    u16 (narrowNormal (s * 2 ^ 15) m E) = s * 2 ^ 15 + roundedCode E m := by
  have hfrac : m >>> 13 = m / 2 ^ 13 := Nat.shiftRight_eq_div_pow _ _
  have hrem : m &&& 0x1FFF = m % 2 ^ 13 := by
    have hmask : (0x1FFF : ℕ) = 2 ^ 13 - 1 := by decide
    rw [hmask, Nat.and_two_pow_sub_one_eq_mod]
  have hup := roundUp_le (m / 2 ^ 13) (m % 2 ^ 13) 0x1000
  rw [roundedCode_normal (by omega) hhigh hm, roundShift_lead m]
  simp only [narrowNormal, hfrac, hrem, carry_eq_roundUp]
  by_cases hfull : m / 2 ^ 13 + roundUp (m / 2 ^ 13) (m % 2 ^ 13) 0x1000 = 0x400
  · rw [if_pos hfull, if_pos hfull, hfull, or_fields s (by omega) (by decide),
      u16_half hs (by omega) (by decide), half]
    omega
  · rw [if_neg hfull, if_neg hfull, or_fields s (by omega) (by omega),
      u16_half hs (by omega) (by omega), half]
    omega

theorem narrowF16_high (hs : s < 2) (hlow : 114 ≤ E) (hE : E < 256) (hm : m < 2 ^ 23)
    (hnum : ¬ (E = 255 ∧ m ≠ 0)) :
    narrowF16 (single s E m) = some (s * 2 ^ 15 + roundedCode E m) := by
  simp only [narrowF16, signOf_single hs hE hm, expOf_single hE hm, mantOf_single hm]
  by_cases hinf : E = 255
  · rw [if_pos hinf, if_neg (by omega), Nat.or_zero, u16_sign hs (by decide),
      roundedCode_overflow (by omega) hm]
  rw [if_neg hinf]
  by_cases hover : 143 ≤ E
  · rw [if_pos (by omega), u16_sign hs (by decide), roundedCode_overflow hover hm]
  · rw [if_neg (by omega), if_pos (by omega), narrowNormal_eq hs hlow (by omega) hm]

theorem narrowF16_nan (hs : s < 2) (hm : m < 2 ^ 23) (hnan : m ≠ 0) :
    narrowF16 (single s 255 m) = some (s * 2 ^ 15 + 0x7E00) := by
  have hE : 255 < 256 := by decide
  simp only [narrowF16, signOf_single hs hE hm, expOf_single hE hm, mantOf_single hm]
  rw [if_pos trivial, if_pos hnan, Nat.or_assoc]
  exact congrArg some (u16_sign hs (by decide))

theorem narrowF16_low (hs : s < 2) (hlow : 96 ≤ E) (hE : E < 114) (hm : m < 2 ^ 23) :
    narrowF16 (single s E m) =
      some (s * 2 ^ 15 + min (roundShift (127 - E) (2 ^ 23 + m)) 0x3FF) := by
  have hE' : E < 256 := by omega
  have hshift : 13 + (127 - 14 - E + 1) = 127 - E := by omega
  have hclamp (c : ℕ) : (if 0x400 ≤ c then 0x3FF else c) = min c 0x3FF := by
    split_ifs <;> omega
  simp only [narrowF16, signOf_single hs hE' hm, expOf_single hE' hm, mantOf_single hm,
    narrowSubnormal, lead_one hm, shiftRne_eq, hclamp, hshift]
  rw [if_neg (by omega), if_neg (by omega), if_neg (by omega), if_neg (by omega), Option.map_some,
    u16_sign hs (by omega)]

theorem narrowF16_lowest (hs : s < 2) (hE : E < 96) (hm : m < 2 ^ 23) :
    narrowF16 (single s E m) = none := by
  have hE' : E < 256 := by omega
  simp only [narrowF16, signOf_single hs hE' hm, expOf_single hE' hm, mantOf_single hm,
    narrowSubnormal]
  rw [if_neg (by omega), if_neg (by omega), if_neg (by omega), if_pos (by omega)]
  rfl

theorem low_eq_iff (hlow : 96 ≤ E) (hE : E < 114) (hm : m < 2 ^ 23) :
    min (roundShift (127 - E) (2 ^ 23 + m)) 0x3FF = roundedCode E m ↔
      (96 ≤ E ∧ E ≤ 101) ∨ (E = 102 ∧ m = 0) ∨ (E = 103 ∧ 0 < m ∧ m < 2 ^ 22) := by
  by_cases hzero : E < 102
  · have hpow : 2 ^ 25 ≤ 2 ^ (127 - E - 1) := Nat.pow_le_pow_right (by decide) (by omega)
    rw [roundedCode_zero hzero, roundShift_of_small (by omega)]
    exact iff_of_true rfl (.inl ⟨hlow, by omega⟩)
  by_cases hquarter : E = 102
  · have hcode : roundShift 24 (2 ^ 23 + m) = if m = 0 then 0 else 1 := by
      unfold roundShift roundUp
      split_ifs <;> omega
    rw [hquarter, roundedCode_subnormal (by decide) (by decide), roundShift_of_small (by omega), hcode]
    split_ifs <;> omega
  by_cases hhalf : E = 103
  · have hcode : roundShift 23 (2 ^ 23 + m) = if m < 2 ^ 22 then 1 else 2 := by
      unfold roundShift roundUp
      split_ifs <;> omega
    have hcut : roundShift 24 (2 ^ 23 + m) = if m = 0 then 0 else 1 := by
      unfold roundShift roundUp
      split_ifs <;> omega
    rw [hhalf, roundedCode_subnormal (by decide) (by decide), hcode, hcut]
    split_ifs <;> omega
  have hcond : ¬ ((96 ≤ E ∧ E ≤ 101) ∨ (E = 102 ∧ m = 0) ∨ (E = 103 ∧ 0 < m ∧ m < 2 ^ 22)) := by
    omega
  refine iff_of_false ?_ hcond
  by_cases hnormal : E = 113
  · have hle := (roundShift_normal hm).1
    rw [hnormal, roundedCode_normal (by decide) (by decide) hm]
    omega
  · have hpow : 2 ^ (126 - E) ≤ 2 ^ 22 := Nat.pow_le_pow_right (by decide) (by omega)
    have hlt : roundShift (126 - E + 1) (2 ^ 23 + m) < roundShift (126 - E) (2 ^ 23 + m) :=
      roundShift_succ_lt (by omega)
    rw [show 126 - E + 1 = 127 - E by omega] at hlt
    rw [roundedCode_subnormal (by omega) (by omega)]
    omega

theorem narrow_right_iff {u : ℕ} (hu : u < 2 ^ 32) :
    (∃ h, narrowF16 u = some h ∧ IsHalfOf u h) ↔ NarrowsRight u := by
  obtain ⟨s, E, m, rfl, hs, hE, hm⟩ := exists_single hu
  rw [narrowsRight_single hE hm]
  by_cases hnan : E = 255 ∧ m ≠ 0
  · refine iff_of_true ⟨_, ?_, f32ToF16Rne_right hu⟩ (by omega)
    rw [hnan.1, f32ToF16Rne_nan hs hm hnan.2, narrowF16_nan hs hm hnan.2]
  have hcode := isHalfOf_rounded (s := s) hE hm hnan
  by_cases hhigh : 114 ≤ E
  · exact iff_of_true ⟨_, narrowF16_high hs hhigh hE hm hnan, hcode⟩ (.inl hhigh)
  by_cases hlowest : E < 96
  · rw [narrowF16_lowest hs hlowest hm]
    refine iff_of_false ?_ (by omega)
    rintro ⟨h, hnone, -⟩
    cases hnone
  have hnum : ¬ IsNaN (single s E m) := by
    rw [isNaN_single hE hm]
    exact hnan
  have hiff := low_eq_iff (by omega) (show E < 114 by omega) hm
  rw [narrowF16_low hs (by omega) (by omega) hm]
  constructor
  · rintro ⟨h, hsome, hright⟩
    cases hsome
    have heq := hright.unique hnum hcode
    exact .inr (hiff.mp (by omega))
  · intro hcond
    refine ⟨_, rfl, ?_⟩
    rw [hiff.mpr (by omega)]
    exact hcode

end Narrow

/-! ### Moving halves -/

section Moves

variable {s e m : ℕ}

theorem survives_half (he : e < 32) (hm : m < 2 ^ 10) :
    Survives (half s e m) ↔ 2 ≤ e ∧ (e = 31 → m = 0 ∨ m = 2 ^ 9) := by
  have hexp : half s e m / 2 ^ 10 % 2 ^ 5 = e := by
    unfold half
    omega
  have hfrac : half s e m % 2 ^ 10 = m := by
    unfold half
    omega
  unfold Survives
  simp only [hexp, hfrac]

theorem widened_exponent {E f : ℕ} (hm : m < 2 ^ 10) (hf : f < 2 ^ 23)
    (hval : magnitude 23 (E * 2 ^ 23 + f) = scaled 10 125 (e * 2 ^ 10 + m)) :
    114 ≤ E ↔ 2 ≤ e := by
  have hmono := magnitude_strictMono 23
  have hcodes := scaled_strictMono 10 125
  have hsame : magnitude 23 (114 * 2 ^ 23 + 0) = scaled 10 125 (2 * 2 ^ 10) := by
    rw [magnitude_single (by decide) (by decide),
      show 2 * 2 ^ 10 = 1 * 2 ^ 10 + 2 ^ 10 by decide, scaled_run (by decide) (by decide)]
    norm_num
  constructor
  · intro hE
    by_contra hlt
    have hlow := hcodes (show e * 2 ^ 10 + m < 2 * 2 ^ 10 by omega)
    have hhigh := hmono.monotone (show 114 * 2 ^ 23 + 0 ≤ E * 2 ^ 23 + f by omega)
    omega
  · intro he
    by_contra hlt
    have hlow := hmono (show E * 2 ^ 23 + f < 114 * 2 ^ 23 + 0 by omega)
    have hhigh := hcodes.monotone (show 2 * 2 ^ 10 ≤ e * 2 ^ 10 + m by omega)
    omega

/-- A half below the upper binades is not rounded right from 32 bits: its value is none of those that
are right by accident. -/
theorem not_narrowsRight_low {E f : ℕ} (hE : E < 255) (hm : m < 2 ^ 10) (hf : f < 2 ^ 23)
    (he : e < 2) (hval : magnitude 23 (E * 2 ^ 23 + f) = scaled 10 125 (e * 2 ^ 10 + m)) :
    ¬ NarrowsRight (single s E f) := by
  have hrun := scaled_run (p := 10) (s := 125) (j := 0) (m := e * 2 ^ 10 + m) (.inl rfl) (by omega)
  have hexp := widened_exponent hm hf hval
  rw [Nat.zero_mul, Nat.zero_add, Nat.add_zero] at hrun
  rw [narrowsRight_single (by omega) hf]
  rw [hrun] at hval
  -- the value is a multiple of `2 ^ 125`
  rintro (hE' | ⟨hlow, hhigh⟩ | ⟨hE', hf'⟩ | ⟨hE', hpos, hlt⟩)
  · omega
  · have hle : 2 ^ (E - 1) ≤ 2 ^ 100 := Nat.pow_le_pow_right (by decide) (by omega)
    have hbound : (2 ^ 23 + f) * 2 ^ (E - 1) ≤ (2 ^ 23 + f) * 2 ^ 100 := Nat.mul_le_mul_left _ hle
    have hone : (2 ^ 23 + f) * 1 ≤ (2 ^ 23 + f) * 2 ^ (E - 1) :=
      Nat.mul_le_mul_left _ (Nat.two_pow_pos _)
    rw [magnitude_single (by omega) hf] at hval
    omega
  · rw [hE', hf', magnitude_single (by decide) (by decide)] at hval
    omega
  · rw [hE', magnitude_single (by decide) hf] at hval
    omega

theorem f16ToF32_finite {s e m : ℕ} (hs : s < 2) (he : e < 31) (hm : m < 2 ^ 10) :
    ∃ E f, f16ToF32 (half s e m) = some (single s E f) ∧ E < 255 ∧ f < 2 ^ 23 ∧
      magnitude 23 (E * 2 ^ 23 + f) = scaled 10 125 (e * 2 ^ 10 + m) := by
  have hfield (k : ℕ) : (fun e : ℤ => 114 + e) (-1 + (k : ℤ) * -1) = 113 - k := host_field k
  exact widen_finite hfield hs he hm

theorem narrow_widen_iff {h : ℕ} (hh : h < 2 ^ 16) :
    ((f16ToF32 h).bind narrowF16 = some h) ↔ Survives h := by
  obtain ⟨s, e, m, rfl, hs, he, hm⟩ := exists_half hh
  rw [survives_half he hm]
  by_cases htop : e = 31
  · rw [htop, f16ToF32, widen_special hs hm, Option.bind_some]
    by_cases hinf : m = 0
    · rw [hinf, narrowF16_high hs (by decide) (by decide) (by decide) (by decide),
        Nat.zero_mul, roundedCode_overflow (by decide) (by decide)]
      exact iff_of_true rfl ⟨by decide, fun _ => .inl rfl⟩
    · rw [narrowF16_nan hs (by omega) (by omega), Option.some.injEq, half]
      omega
  obtain ⟨E, f, hwide, hE, hf, hval⟩ := f16ToF32_finite hs (show e < 31 by omega) hm
  have hown := isHalfOf_widened (s := s) (by omega) hm hE hf hval
  have hu : single s E f < 2 ^ 32 := by
    unfold single
    omega
  rw [hwide, Option.bind_some]
  by_cases hhigh : 2 ≤ e
  · have hnum : ¬ IsNaN (single s E f) := by
      rw [isNaN_single (by omega) hf]
      omega
    have hlow : 114 ≤ E := (widened_exponent hm hf hval).mpr hhigh
    have hcode := isHalfOf_rounded (s := s) (show E < 256 by omega) hf (by omega)
    rw [narrowF16_high hs hlow (by omega) hf (by omega), hcode.unique hnum hown]
    exact iff_of_true rfl ⟨hhigh, fun h => absurd h htop⟩
  · refine iff_of_false ?_ (fun h => hhigh h.1)
    intro hsome
    have hright := (narrow_right_iff hu).mp ⟨_, hsome, hown⟩
    exact not_narrowsRight_low hE hm hf (by omega) hval hright

end Moves

/-! ### Bytes -/

section Bytes

/-- The bytes of the half at place `i`. -/
def halfBytes (data : List UInt8) (i : ℕ) : List UInt8 :=
  [data.getD (2 * i) 0, data.getD (2 * i + 1) 0]

/-- The bytes that an operator that moves elements has to return. -/
def movedBytes (data : List UInt8) (moves : List ℕ) : List UInt8 :=
  moves.flatMap (halfBytes data)

variable {data : List UInt8}

theorem halfAt_lt (data : List UInt8) (i : ℕ) : halfAt data i < 2 ^ 16 := UInt16.toNat_lt _

theorem halfBytes_eq_iff {h i : ℕ} (hh : h < 2 ^ 16) :
    u16le (UInt16.ofNat h) = halfBytes data i ↔ h = halfAt data i := by
  have hback : (UInt16.ofNat h).toNat = h := UInt16.toNat_ofNat_of_lt hh
  constructor
  · intro heq
    have hlow : (UInt16.ofNat h).toUInt8 = data.getD (2 * i) 0 := (List.cons.inj heq).1
    have hhigh : (UInt16.ofNat h >>> 8).toUInt8 = data.getD (2 * i + 1) 0 :=
      (List.cons.inj (List.cons.inj heq).2).1
    rw [halfAt, ← hlow, ← hhigh, u16OfBytes_u16le, hback]
  · intro heq
    have hword : UInt16.ofNat h = u16OfBytes (data.getD (2 * i) 0) (data.getD (2 * i + 1) 0) := by
      rw [heq, halfAt, UInt16.ofNat_toNat]
    rw [hword, u16le_u16OfBytes, halfBytes]

theorem narrowF16_lt {u h : ℕ} (hsome : narrowF16 u = some h) : h < 2 ^ 16 := by
  have hcast (n : ℕ) : u16 n < 2 ^ 16 := Nat.mod_lt _ (by decide)
  unfold narrowF16 at hsome
  split_ifs at hsome
  on_goal 5 =>
    obtain ⟨n, -, rfl⟩ := Option.map_eq_some_iff.mp hsome
    exact hcast n
  all_goals
    cases hsome
    exact hcast _

theorem narrowOut_cons (u : ℕ) (us : List ℕ) :
    narrowOut (u :: us) = (narrowF16 u).bind fun h =>
      (narrowOut us).map fun bytes => u16le (UInt16.ofNat h) ++ bytes := by
  rw [narrowOut, narrowOut, List.mapM_cons]
  cases narrowF16 u with
  | none => rfl
  | some h =>
    cases List.mapM narrowF16 us with
    | none => rfl
    | some hs => rfl

theorem narrowOut_iff {g : ℕ → ℕ} (moves : List ℕ) :
    narrowOut (moves.map g) = some (movedBytes data moves) ↔
      ∀ i ∈ moves, narrowF16 (g i) = some (halfAt data i) := by
  induction moves with
  | nil => simp [narrowOut, movedBytes]
  | cons i moves ih =>
    rw [List.map_cons, narrowOut_cons, List.forall_mem_cons, ← ih, movedBytes, List.flatMap_cons]
    constructor
    · intro hsome
      obtain ⟨h, hh, hrest⟩ := Option.bind_eq_some_iff.mp hsome
      obtain ⟨bytes, hbytes, happ⟩ := Option.map_eq_some_iff.mp hrest
      obtain ⟨hhead, htail⟩ := List.append_inj happ rfl
      rw [(halfBytes_eq_iff (narrowF16_lt hh)).mp hhead] at hh
      rw [htail] at hbytes
      exact ⟨hh, hbytes⟩
    · rintro ⟨hh, hrest⟩
      have hhead : u16le (UInt16.ofNat (halfAt data i)) = halfBytes data i :=
        (halfBytes_eq_iff (narrowF16_lt hh)).mpr rfl
      rw [hh, Option.bind_some, hrest, Option.map_some, hhead]
      rfl

theorem widen_total {h : ℕ} (hh : h < 2 ^ 16) : ∃ u, f16ToF32 h = some u := by
  obtain ⟨s, e, m, rfl, hs, he, hm⟩ := exists_half hh
  by_cases htop : e = 31
  · rw [htop, f16ToF32, widen_special hs hm]
    exact ⟨_, rfl⟩
  · obtain ⟨E, f, hwide, -⟩ := f16ToF32_finite hs (show e < 31 by omega) hm
    exact ⟨_, hwide⟩

theorem mapM_total {α β : Type} {f : α → Option β} (l : List α) (h : ∀ x ∈ l, ∃ y, f x = some y) :
    ∃ ys, l.mapM f = some ys ∧ List.Forall₂ (fun x y => f x = some y) l ys := by
  induction l with
  | nil => exact ⟨[], rfl, .nil⟩
  | cons x l ih =>
    obtain ⟨y, hy⟩ := h x (List.mem_cons_self ..)
    obtain ⟨ys, hys, hall⟩ := ih fun x' hx' => h x' (List.mem_cons_of_mem _ hx')
    refine ⟨y :: ys, ?_, .cons hy hall⟩
    rw [List.mapM_cons, hy, hys]
    rfl

theorem widenConst_spec (data : List UInt8) :
    ∃ buf, widenConst data = some buf ∧
      ∀ i, i < data.length / 2 → f16ToF32 (halfAt data i) = some (buf.getD i 0) := by
  obtain ⟨buf, hbuf, hall⟩ := mapM_total (List.range (data.length / 2))
    (fun i _ => widen_total (halfAt_lt data i))
  refine ⟨buf, hbuf, ?_⟩
  intro i hi
  have hlen : (List.range (data.length / 2)).length = buf.length := hall.length_eq
  rw [List.length_range] at hlen
  have hget := hall.get (by rw [List.length_range]; exact hi) (show i < buf.length by omega)
  rw [List.get_eq_getElem, List.getElem_range] at hget
  rw [hget, List.getD_eq_getElem _ _ (by omega)]
  rfl

theorem foldMoved_iff {moves : List ℕ} (hmoves : ∀ i ∈ moves, i < data.length / 2) :
    foldMoved data moves = some (movedBytes data moves) ↔
      ∀ i ∈ moves, Survives (halfAt data i) := by
  obtain ⟨buf, hbuf, hat⟩ := widenConst_spec data
  rw [foldMoved, hbuf, Option.bind_some, narrowOut_iff]
  refine forall₂_congr fun i hi => ?_
  have hone := narrow_widen_iff (halfAt_lt data i)
  rw [hat i (hmoves i hi), Option.bind_some] at hone
  exact hone

end Bytes

/-- The constant folder returns the rounded half of IEEE 754 exactly for the patterns `NarrowsRight`
names, and folding an operator that moves halves returns the moved bytes exactly if every moved half
survives. -/
theorem narrow_f16_iff (u : UInt32) (data : List UInt8) (moves : List ℕ)
    (hmoves : ∀ i ∈ moves, i < data.length / 2) :
    ((∃ h, narrowF16 u.toNat = some h ∧ IsHalfOf u.toNat h) ↔ NarrowsRight u.toNat) ∧
      (foldMoved data moves = some (movedBytes data moves) ↔
        ∀ i ∈ moves, Survives (halfAt data i)) :=
  ⟨narrow_right_iff u.toNat_lt, foldMoved_iff hmoves⟩

/-- The constant 1 is narrowed right, and two f16 values are moved as they are. -/
theorem narrow_f16_one :
    (∃ h, narrowF16 (0x3F800000 : UInt32).toNat = some h ∧
      IsHalfOf (0x3F800000 : UInt32).toNat h) ∧
    foldMoved [0x00, 0x3C, 0x66, 0x2E] [1, 0] =
      some (movedBytes [0x00, 0x3C, 0x66, 0x2E] [1, 0]) := by
  have hone := narrow_f16_iff 0x3F800000 [0x00, 0x3C, 0x66, 0x2E] [1, 0] (by decide)
  exact ⟨hone.1.mpr (by decide), hone.2.mpr (by decide)⟩

/-- The smallest normal half is cut in half. -/
theorem lowest_binade_cut :
    ¬ ((∀ u : UInt32, ∃ h, narrowF16 u.toNat = some h ∧ IsHalfOf u.toNat h) ∧
      ∀ (data : List UInt8) (moves : List ℕ), (∀ i ∈ moves, i < data.length / 2) →
        foldMoved data moves = some (movedBytes data moves)) := by
  intro hall
  obtain ⟨h, hsome, hright⟩ := hall.1 0x38800000
  have hcut : narrowF16 (0x38800000 : UInt32).toNat = some 0x200 := by decide
  have hcode : f32ToF16Rne (0x38800000 : UInt32).toNat = 0x400 := by decide
  have hbest := f32ToF16Rne_right (UInt32.toNat_lt 0x38800000)
  rw [hcut, Option.some.injEq] at hsome
  rw [hcode] at hbest
  have heq := hright.unique (by decide) hbest
  omega

end Gehtp.Analysis.ConstNarrow
