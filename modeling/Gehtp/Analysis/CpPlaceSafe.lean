import Gehtp.Model.CpPlace
import Mathlib.Algebra.Order.Ring.Nat

/-!
# The addresses of a schedule

First fit tests a candidate against the end of the arena and against every segment placed before.
The sums of the test are of 64 bits, and a candidate so far up that its sum wraps can pass. The
same loop over unbounded sums never goes wrong; the one of the source goes the same way, and is
right, exactly when no segment that fits nowhere passes the test at a candidate that wraps. In the
DDR the addresses follow one another until their sum wraps.
-/

set_option autoImplicit false

namespace Gehtp.Analysis.CpPlaceSafe

open Lib Model.CpPlace

/-- A schedule as it is handed over: the addresses are not yet set, and a tensor is spilled at most
once. -/
structure Handed where
  n : ℕ
  m : ℕ → ℕ
  M : ℕ
  segs : Segments
  lg : List Ent
  size_lt : ∀ v, m v < 2 ^ 64
  M_lt : M < 2 ^ 64
  fresh : ∀ v i, (segs v i).vtcmOffset = 0
  spillOnce : ((lg.filter fun e => decide (e.k = LK.spill)).map Ent.v).Nodup

namespace Handed

/-- What `place_offsets` makes of it. -/
def placed (h : Handed) : Placement := placeOffsets h.n h.m h.M h.segs h.lg

/-- The segments that are placed. -/
def Active (h : Handed) (a : ℕ × Bool) : Prop := a.1 < h.n ∧ (h.segs a.1 a.2).active = true

def Spilled (h : Handed) (v : ℕ) : Prop := ∃ e ∈ h.lg, e.k = LK.spill ∧ e.v = v

def vtcm (h : Handed) (a : ℕ × Bool) : Span :=
  let S := h.placed.segments a.1 a.2
  ⟨S.vtcmOffset, S.vtcmOffset + h.m a.1⟩

def ddr (h : Handed) (v : ℕ) : Span :=
  let S := h.placed.segments v false
  ⟨S.ddrOffset, S.ddrOffset + h.m v⟩

end Handed

/-- Two segments are there in one slot. -/
def Meet (A B : CPSegment) : Prop := ∃ t, (A.s ≤ t ∧ t ≤ A.e) ∧ (B.s ≤ t ∧ t ≤ B.e)

def NoShared (a b : Span) : Prop := ∀ x, ¬ ((a.lo ≤ x ∧ x < a.hi) ∧ (b.lo ≤ x ∧ x < b.hi))

/-- What the addresses must satisfy. -/
structure Sound (h : Handed) : Prop where
  apart : ∀ a b, h.Active a → h.Active b → a ≠ b →
    (h.vtcm a).lo ≠ kUnplaced → (h.vtcm b).lo ≠ kUnplaced → Meet (h.segs a.1 a.2) (h.segs b.1 b.2) →
    NoShared (h.vtcm a) (h.vtcm b)
  within : ∀ a, h.Active a → (h.vtcm a).lo ≠ kUnplaced → (h.vtcm a).hi ≤ h.M
  ddrApart : ∀ v w, h.Spilled v → h.Spilled w → v ≠ w → NoShared (h.ddr v) (h.ddr w)
  filled : ∀ v, h.Spilled v → (h.segs v true).active = true → (h.segs v true).fillStart = true →
    (h.placed.segments v true).ddrOffset = (h.placed.segments v false).ddrOffset

/-! ### The condition -/

/-- The test with unbounded sums. -/
def fitsExactly (M : ℕ) (done : List Placed) (S : CPSegment) (sz off : ℕ) : Bool :=
  decide (off + sz ≤ M) && done.all fun q =>
    decide (S.e < q.s) || decide (q.e < S.s) || decide (off + sz ≤ q.off) ||
      decide (q.off + q.sz ≤ off)

/-- In the loop with unbounded sums, a segment that fits nowhere does not pass the test of the
source either; the last address of all counts as no place. -/
def NoFalseFit (M : ℕ) (m : ℕ → ℕ) (a : ℕ) : Placing → List (ℕ × Bool) → Prop
  | _, [] => True
  | st, seg :: rest =>
    ((∀ off ∈ candidates a st seg.1 seg.2,
        fitsExactly M st.done (st.segments seg.1 seg.2) (m seg.1) off = false) →
      ∀ off ∈ candidates a st seg.1 seg.2,
        fits M st.done (st.segments seg.1 seg.2) (m seg.1) off = true → off = kUnplaced) ∧
    NoFalseFit M m a (placeSegment (fitsExactly M) m a st seg) rest

def spilledBytes (m : ℕ → ℕ) : List Ent → ℕ
  | [] => 0
  | e :: lg => (if e.k = LK.spill then m e.v else 0) + spilledBytes m lg

/-- In front of every spill of some bytes, fewer than `2 ^ 64` bytes are spilled. -/
def DdrFits (m : ℕ → ℕ) (lg : List Ent) : Prop :=
  ∀ l e r, lg = l ++ e :: r → e.k = LK.spill → m e.v = 0 ∨ spilledBytes m l < 2 ^ 64

/-- No sum wraps where it matters. -/
def Handed.Unwrapped (h : Handed) : Prop :=
  NoFalseFit h.M h.m (alignment h.n h.m h.M) ⟨h.segs, [], 0, 0⟩ (placeOrder h.n h.m h.segs) ∧
    DdrFits h.m h.lg

/-! ### Alignment -/

theorem alignment_mem (n : ℕ) (m : ℕ → ℕ) (M : ℕ) :
    alignment n m M ∣ 128 ∧ ∀ v < n, alignment n m M ∣ m v := by
  unfold alignment
  cases hfind : [128, 64, 32, 16, 8, 4, 2].find? fun a => decide (a ≤ M) && !inflates n m a with
  | none => exact ⟨one_dvd _, fun v _ => one_dvd _⟩
  | some a =>
    have hmem := List.mem_of_find?_eq_some hfind
    have htest := List.find?_some hfind
    rw [Option.getD_some]
    constructor
    · have hall : ∀ x ∈ [128, 64, 32, 16, 8, 4, 2], x ∣ 128 := by decide
      exact hall a hmem
    · intro v hv
      rw [Bool.and_eq_true, Bool.not_eq_true'] at htest
      have hnot := htest.2
      rw [inflates, List.any_eq_false] at hnot
      have hzero := hnot v (List.mem_range.mpr hv)
      simp only [ne_eq, decide_eq_true_eq, not_not] at hzero
      exact Nat.dvd_of_mod_eq_zero hzero

theorem alignUp_of_dvd {a x : ℕ} (ha : a ∣ 128) (hx : a ∣ x) (hlt : x < 2 ^ 64) :
    alignUp x a = x := by
  have hpos : 0 < a := Nat.pos_of_dvd_of_pos ha (by decide)
  have hdvd : a ∣ 2 ^ 64 := ha.trans ⟨2 ^ 57, by decide⟩
  obtain ⟨k, rfl⟩ := hx
  obtain ⟨j, hj⟩ := hdvd
  have hk : k + 1 ≤ j := by
    rw [hj] at hlt
    exact Nat.lt_of_mul_lt_mul_left hlt
  have hle : a * k + a ≤ 2 ^ 64 := by
    rw [hj, ← Nat.mul_succ]
    exact Nat.mul_le_mul_left a hk
  have hwrap : u64 (a * k + a - 1) = a * k + (a - 1) := by
    rw [u64, Nat.mod_eq_of_lt (by omega)]
    omega
  rw [alignUp, hwrap, Nat.mul_add_div hpos, Nat.div_eq_of_lt (by omega), Nat.add_zero, Nat.mul_comm]

/-! ### One segment -/

/-- One of the two is over before the other starts, or ends below it. -/
def Clear (p q : Placed) : Prop :=
  (p.e < q.s ∨ q.e < p.s) ∨ (p.off + p.sz ≤ q.off ∨ q.off + q.sz ≤ p.off)

theorem Clear.symm {p q : Placed} (h : Clear p q) : Clear q p := Or.imp Or.symm Or.symm h

/-- The placed segments end inside the arena, and those that meet are apart. -/
structure Good (M : ℕ) (done : List Placed) : Prop where
  within : ∀ q ∈ done, q.off + q.sz ≤ M
  apart : done.Pairwise Clear

theorem candidates_sorted (a : ℕ) (st : Placing) (v : ℕ) (idx : Bool) :
    (candidates a st v idx).Pairwise (· ≤ ·) :=
  (List.pairwise_insertionSort (· ≤ ·) _).sublist (List.destutter_sublist _ _)

variable {done : List Placed} {sz off : ℕ} {l : List (ℕ × Bool)} {r : List Ent} {e : Ent}

theorem fits_eq {M : ℕ} (hM : M < 2 ^ 64) (hdone : ∀ q ∈ done, q.off + q.sz ≤ M) (S : CPSegment)
    (h : off + sz < 2 ^ 64) : fits M done S sz off = fitsExactly M done S sz off := by
  have hsum : u64 (off + sz) = off + sz := Nat.mod_eq_of_lt h
  unfold fits fitsExactly
  rw [hsum]
  congr 1
  apply Bool.eq_iff_iff.mpr
  simp only [List.all_eq_true]
  constructor
  · intro hall q hq
    have hq' := hall q hq
    have hend : u64 (q.off + q.sz) = q.off + q.sz := Nat.mod_eq_of_lt ((hdone q hq).trans_lt hM)
    rw [hend] at hq'
    simpa [or_assoc] using hq'
  · intro hall q hq
    have hq' := hall q hq
    have hend : u64 (q.off + q.sz) = q.off + q.sz := Nat.mod_eq_of_lt ((hdone q hq).trans_lt hM)
    rw [hend]
    simpa [or_assoc] using hq'

theorem le_of_fitsExactly {M : ℕ} {S : CPSegment} (h : fitsExactly M done S sz off = true) :
    off + sz ≤ M := by
  rw [fitsExactly, Bool.and_eq_true, decide_eq_true_eq] at h
  exact h.1

theorem Good.snoc {M : ℕ} (h : Good M done) {S : CPSegment}
    (hfit : fitsExactly M done S sz off = true) : Good M (done ++ [⟨S.s, S.e, off, sz⟩]) where
  within := by
    intro q hq
    obtain hq | hq := List.mem_append.mp hq
    · exact h.within q hq
    · obtain rfl := List.mem_singleton.mp hq
      exact le_of_fitsExactly hfit
  apart := by
    apply List.pairwise_append.mpr
    refine ⟨h.apart, List.pairwise_singleton _ _, ?_⟩
    intro p hp q hq
    obtain rfl := List.mem_singleton.mp hq
    rw [fitsExactly, Bool.and_eq_true, List.all_eq_true] at hfit
    have hp' := hfit.2 p hp
    simp only [Bool.or_eq_true, decide_eq_true_eq] at hp'
    obtain ((hbefore | hafter) | hbelow) | habove := hp'
    · exact Or.inl (Or.inr hbefore)
    · exact Or.inl (Or.inl hafter)
    · exact Or.inr (Or.inr hbelow)
    · exact Or.inr (Or.inl habove)

section Step

variable {M : ℕ} {m : ℕ → ℕ} {a : ℕ} {st : Placing} {seg : ℕ × Bool}

/-- The place that the test gives to a segment. -/
def placeOf (test : List Placed → CPSegment → ℕ → ℕ → Bool) (m : ℕ → ℕ) (a : ℕ) (st : Placing)
    (seg : ℕ × Bool) : ℕ :=
  ((candidates a st seg.1 seg.2).find? (test st.done (st.segments seg.1 seg.2) (m seg.1))).getD
    kUnplaced

theorem placeSegment_done (test : List Placed → CPSegment → ℕ → ℕ → Bool)
    (hsz : alignUp (m seg.1) a = m seg.1) :
    (placeSegment test m a st seg).done =
      if placeOf test m a st seg = kUnplaced then st.done
      else st.done ++ [⟨(st.segments seg.1 seg.2).s, (st.segments seg.1 seg.2).e,
        placeOf test m a st seg, m seg.1⟩] := by
  unfold placeSegment
  simp only [hsz]
  split
  · exact (if_pos ‹_›).symm
  · exact (if_neg ‹_›).symm

theorem prefix_done (test : List Placed → CPSegment → ℕ → ℕ → Bool) :
    st.done <+: (placeSegment test m a st seg).done := by
  unfold placeSegment
  simp only
  split
  · exact List.prefix_refl _
  · exact List.prefix_append _ _

theorem prefix_foldl_done (test : List Placed → CPSegment → ℕ → ℕ → Bool) (l : List (ℕ × Bool))
    (st : Placing) : st.done <+: (l.foldl (placeSegment test m a) st).done := by
  induction l generalizing st with
  | nil => exact List.prefix_refl _
  | cons seg l ih => exact (prefix_done test).trans (ih _)

theorem placeSegment_congr (test test' : List Placed → CPSegment → ℕ → ℕ → Bool)
    (hsz : alignUp (m seg.1) a = m seg.1) (h : placeOf test m a st seg = placeOf test' m a st seg) :
    placeSegment test m a st seg = placeSegment test' m a st seg := by
  unfold placeOf at h
  unfold placeSegment
  simp only [hsz, h]

theorem placeOf_exact (h : placeOf (fitsExactly M) m a st seg ≠ kUnplaced) :
    fitsExactly M st.done (st.segments seg.1 seg.2) (m seg.1)
      (placeOf (fitsExactly M) m a st seg) = true := by
  unfold placeOf at h ⊢
  cases hfind : (candidates a st seg.1 seg.2).find?
      (fitsExactly M st.done (st.segments seg.1 seg.2) (m seg.1)) with
  | none =>
    rw [hfind] at h
    exact absurd rfl h
  | some off => exact List.find?_some hfind

theorem placeOf_of_fit (hM : M < 2 ^ 64) (hdone : ∀ q ∈ st.done, q.off + q.sz ≤ M)
    (hfind : (candidates a st seg.1 seg.2).find?
      (fitsExactly M st.done (st.segments seg.1 seg.2) (m seg.1)) = some off) :
    placeOf (fits M) m a st seg = off := by
  have hoff := List.find?_some hfind
  have hle := le_of_fitsExactly hoff
  obtain ⟨-, l, r, hcands, hl⟩ := List.find?_eq_some_iff_append.mp hfind
  have hsorted := candidates_sorted a st seg.1 seg.2
  rw [hcands] at hsorted
  have hcode : (candidates a st seg.1 seg.2).find?
      (fits M st.done (st.segments seg.1 seg.2) (m seg.1)) = some off := by
    apply List.find?_eq_some_iff_append.mpr
    refine ⟨?_, l, r, hcands, ?_⟩
    · rw [fits_eq hM hdone _ (hle.trans_lt hM)]
      exact hoff
    · intro x hx
      have hxle := (List.pairwise_append.mp hsorted).2.2 x hx off List.mem_cons_self
      rw [fits_eq hM hdone _ (by omega)]
      exact hl x hx
  rw [placeOf, hcode, Option.getD_some]

theorem placeOf_eq (hM : M < 2 ^ 64) (hdone : ∀ q ∈ st.done, q.off + q.sz ≤ M)
    (h : (∀ off ∈ candidates a st seg.1 seg.2,
        fitsExactly M st.done (st.segments seg.1 seg.2) (m seg.1) off = false) →
      ∀ off ∈ candidates a st seg.1 seg.2,
        fits M st.done (st.segments seg.1 seg.2) (m seg.1) off = true → off = kUnplaced) :
    placeOf (fits M) m a st seg = placeOf (fitsExactly M) m a st seg := by
  cases hfind : (candidates a st seg.1 seg.2).find?
      (fitsExactly M st.done (st.segments seg.1 seg.2) (m seg.1)) with
  | some off =>
    rw [placeOf_of_fit hM hdone hfind, placeOf, hfind, Option.getD_some]
  | none =>
    have hnone : ∀ off ∈ candidates a st seg.1 seg.2,
        fitsExactly M st.done (st.segments seg.1 seg.2) (m seg.1) off = false := fun off hoff =>
      Bool.eq_false_iff.mpr (List.find?_eq_none.mp hfind off hoff)
    have hexact : placeOf (fitsExactly M) m a st seg = kUnplaced := by
      rw [placeOf, hfind, Option.getD_none]
    rw [hexact, placeOf]
    cases hcode : (candidates a st seg.1 seg.2).find?
        (fits M st.done (st.segments seg.1 seg.2) (m seg.1)) with
    | none => rfl
    | some off =>
      exact h hnone off (List.mem_of_find?_eq_some hcode) (List.find?_some hcode)

/-- The offsets are numbers of 64 bits. -/
def Bounded (st : Placing) : Prop := ∀ v i, (st.segments v i).vtcmOffset < 2 ^ 64

theorem u64_lt (x : ℕ) : u64 x < 2 ^ 64 := Nat.mod_lt _ (by decide)

theorem alignUp_lt (x a : ℕ) : alignUp x a < 2 ^ 64 :=
  (Nat.div_mul_le_self _ _).trans_lt (u64_lt _)

theorem candidates_lt (hM : M < 2 ^ 64) (hdone : ∀ q ∈ st.done, q.off + q.sz ≤ M)
    (hst : Bounded st) (h : off ∈ candidates a st seg.1 seg.2) : off < 2 ^ 64 := by
  have hmem := (List.destutter_sublist _ _).subset h
  rw [List.mem_insertionSort, List.mem_cons, List.mem_append, List.mem_flatMap] at hmem
  obtain rfl | hfirst | ⟨q, hq, hoff⟩ := hmem
  · decide
  · split at hfirst
    · obtain rfl := List.mem_singleton.mp hfirst
      exact hst _ _
    · cases hfirst
  · have hle := hdone q hq
    obtain rfl | hend := List.mem_cons.mp hoff
    · omega
    · obtain rfl := List.mem_singleton.mp hend
      exact alignUp_lt _ _

theorem placeOf_lt (test : List Placed → CPSegment → ℕ → ℕ → Bool) (hM : M < 2 ^ 64)
    (hdone : ∀ q ∈ st.done, q.off + q.sz ≤ M) (hst : Bounded st) :
    placeOf test m a st seg < 2 ^ 64 := by
  unfold placeOf
  cases hfind : (candidates a st seg.1 seg.2).find?
      (test st.done (st.segments seg.1 seg.2) (m seg.1)) with
  | none => decide
  | some off => exact candidates_lt hM hdone hst (List.mem_of_find?_eq_some hfind)

theorem no_false_fit (hM : M < 2 ^ 64) (hdone : ∀ q ∈ st.done, q.off + q.sz ≤ M) (hst : Bounded st)
    (hplace : placeOf (fits M) m a st seg ≠ kUnplaced →
      placeOf (fits M) m a st seg + m seg.1 ≤ M)
    (hnone : ∀ off ∈ candidates a st seg.1 seg.2,
      fitsExactly M st.done (st.segments seg.1 seg.2) (m seg.1) off = false) :
    ∀ off ∈ candidates a st seg.1 seg.2,
      fits M st.done (st.segments seg.1 seg.2) (m seg.1) off = true → off = kUnplaced := by
  intro off hoff hfit
  cases hfind : (candidates a st seg.1 seg.2).find?
      (fits M st.done (st.segments seg.1 seg.2) (m seg.1)) with
  | none => exact absurd hfit (List.find?_eq_none.mp hfind off hoff)
  | some x =>
    obtain ⟨hx, l, r, hcands, hl⟩ := List.find?_eq_some_iff_append.mp hfind
    have hxmem := List.mem_of_find?_eq_some hfind
    rw [placeOf, hfind, Option.getD_some] at hplace
    -- the place that was taken is the last address, and the candidate lies behind it
    have hlast : x = kUnplaced := by
      by_contra hne
      have hle := hplace hne
      rw [fits_eq hM hdone _ (hle.trans_lt hM), hnone x hxmem] at hx
      cases hx
    have hsorted := candidates_sorted a st seg.1 seg.2
    have hlt := candidates_lt hM hdone hst hoff
    rw [hcands] at hsorted hoff
    obtain hfront | hback := List.mem_append.mp hoff
    · have hfalse := hl off hfront
      rw [hfit] at hfalse
      cases hfalse
    · obtain rfl | hback := List.mem_cons.mp hback
      · exact hlast
      · have hle := (List.pairwise_cons.mp (List.pairwise_append.mp hsorted).2.1).1 off hback
        rw [hlast, kUnplaced] at hle
        rw [kUnplaced]
        omega

end Step

/-! ### All segments -/

theorem placeSegment_segments (test : List Placed → CPSegment → ℕ → ℕ → Bool) (m : ℕ → ℕ) (a : ℕ)
    (st : Placing) (seg : ℕ × Bool) (hsz : alignUp (m seg.1) a = m seg.1) :
    (placeSegment test m a st seg).segments = setSegment st.segments seg.1 seg.2 fun S =>
      { S with vtcmOffset := placeOf test m a st seg } := by
  unfold placeSegment
  simp only [hsz]
  split <;> rfl

theorem placeSegment_good {M : ℕ} {m : ℕ → ℕ} {a : ℕ} {st : Placing} {seg : ℕ × Bool}
    (hsz : alignUp (m seg.1) a = m seg.1) (h : Good M st.done) :
    Good M (placeSegment (fitsExactly M) m a st seg).done := by
  rw [placeSegment_done _ hsz]
  split
  · exact h
  · exact h.snoc (placeOf_exact ‹_›)

theorem placeSegment_bounded {M : ℕ} {m : ℕ → ℕ} {a : ℕ} {st : Placing} {seg : ℕ × Bool}
    (test : List Placed → CPSegment → ℕ → ℕ → Bool) (hM : M < 2 ^ 64)
    (hsz : alignUp (m seg.1) a = m seg.1) (h : Good M st.done) (hst : Bounded st) :
    Bounded (placeSegment test m a st seg) := by
  intro v i
  rw [placeSegment_segments test m a st seg hsz, setSegment]
  split
  · exact placeOf_lt test hM h.within hst
  · exact hst v i

theorem foldl_good {M : ℕ} {m : ℕ → ℕ} {a : ℕ} (hM : M < 2 ^ 64)
    (hsz : ∀ seg ∈ l, alignUp (m seg.1) a = m seg.1) {st : Placing} (h : Good M st.done)
    (hfalse : NoFalseFit M m a st l) : Good M (l.foldl (placeSegment (fits M) m a) st).done := by
  induction l generalizing st with
  | nil => exact h
  | cons seg l ih =>
    have hseg := hsz seg List.mem_cons_self
    rw [List.foldl_cons, placeSegment_congr _ _ hseg (placeOf_eq hM h.within hfalse.1)]
    exact ih (fun x hx => hsz x (List.mem_cons_of_mem _ hx)) (placeSegment_good hseg h) hfalse.2

theorem noFalseFit_of_within {M : ℕ} {m : ℕ → ℕ} {a : ℕ} (hM : M < 2 ^ 64)
    (hsz : ∀ seg ∈ l, alignUp (m seg.1) a = m seg.1) {st : Placing} (h : Good M st.done)
    (hst : Bounded st)
    (hend : ∀ q ∈ (l.foldl (placeSegment (fits M) m a) st).done, q.off + q.sz ≤ M) :
    NoFalseFit M m a st l := by
  induction l generalizing st with
  | nil => trivial
  | cons seg l ih =>
    have hseg := hsz seg List.mem_cons_self
    rw [List.foldl_cons] at hend
    have hplace : placeOf (fits M) m a st seg ≠ kUnplaced →
        placeOf (fits M) m a st seg + m seg.1 ≤ M := by
      intro hne
      have hdone := prefix_foldl_done (m := m) (a := a) (fits M) l (placeSegment (fits M) m a st seg)
      rw [placeSegment_done _ hseg, if_neg hne] at hdone
      exact hend _ (hdone.subset (List.mem_append_right _ (List.mem_singleton_self _)))
    have hfalse := no_false_fit hM h.within hst hplace
    rw [placeSegment_congr _ _ hseg (placeOf_eq hM h.within hfalse)] at hend
    exact ⟨hfalse, ih (fun x hx => hsz x (List.mem_cons_of_mem _ hx)) (placeSegment_good hseg h)
      (placeSegment_bounded (fitsExactly M) hM hseg h hst) hend⟩

/-! ### The segments placed -/

/-- The slots and the kind of a segment, without its addresses. -/
def shape (S : CPSegment) : ℕ × ℕ × Bool × Bool := (S.s, S.e, S.active, S.fillStart)

theorem placeSegment_shape (test : List Placed → CPSegment → ℕ → ℕ → Bool) (m : ℕ → ℕ) (a : ℕ)
    (st : Placing) (seg : ℕ × Bool) (hsz : alignUp (m seg.1) a = m seg.1) (v : ℕ) (i : Bool) :
    shape ((placeSegment test m a st seg).segments v i) = shape (st.segments v i) := by
  rw [placeSegment_segments test m a st seg hsz, setSegment]
  split <;> rfl

theorem foldl_shape (test : List Placed → CPSegment → ℕ → ℕ → Bool) {m : ℕ → ℕ} {a : ℕ}
    (hsz : ∀ seg ∈ l, alignUp (m seg.1) a = m seg.1) (st : Placing) (v : ℕ) (i : Bool) :
    shape ((l.foldl (placeSegment test m a) st).segments v i) = shape (st.segments v i) := by
  induction l generalizing st with
  | nil => rfl
  | cons seg l ih =>
    rw [List.foldl_cons, ih fun x hx => hsz x (List.mem_cons_of_mem _ hx)]
    exact placeSegment_shape test m a st seg (hsz seg List.mem_cons_self) v i

/-- The record of a segment that has a place. -/
def placedOf (m : ℕ → ℕ) (segs : Segments) (a : ℕ × Bool) : Option Placed :=
  let S := segs a.1 a.2
  if S.vtcmOffset = kUnplaced then none else some ⟨S.s, S.e, S.vtcmOffset, m a.1⟩

theorem foldl_done_eq (test : List Placed → CPSegment → ℕ → ℕ → Bool) {m : ℕ → ℕ} {a : ℕ}
    (segs : Segments) (l : List (ℕ × Bool)) (hsz : ∀ seg ∈ l, alignUp (m seg.1) a = m seg.1)
    (hnodup : l.Nodup) :
    (l.foldl (placeSegment test m a) ⟨segs, [], 0, 0⟩).done =
      l.filterMap (placedOf m (l.foldl (placeSegment test m a) ⟨segs, [], 0, 0⟩).segments) := by
  induction l using List.reverseRecOn with
  | nil => rfl
  | append_singleton l seg ih =>
    have hseg := hsz seg (List.mem_append_right _ (List.mem_singleton_self seg))
    obtain ⟨hl, -, hapart⟩ := List.nodup_append.mp hnodup
    have hrec := ih (fun x hx => hsz x (List.mem_append_left _ hx)) hl
    rw [List.foldl_concat]
    generalize hst : l.foldl (placeSegment test m a) ⟨segs, [], 0, 0⟩ = st at hrec ⊢
    have hsegs := placeSegment_segments test m a st seg hseg
    have hold : l.filterMap (placedOf m (placeSegment test m a st seg).segments) =
        l.filterMap (placedOf m st.segments) := by
      apply List.filterMap_congr
      intro x hx
      have hne : ¬ (x.1 = seg.1 ∧ x.2 = seg.2) := fun h =>
        hapart x hx seg (List.mem_singleton_self seg) (Prod.ext h.1 h.2)
      simp only [placedOf, hsegs, setSegment, if_neg hne]
    rw [List.filterMap_append, hold, ← hrec, placeSegment_done test hseg]
    have hnew : [seg].filterMap (placedOf m (placeSegment test m a st seg).segments) =
        if placeOf test m a st seg = kUnplaced then []
        else [⟨(st.segments seg.1 seg.2).s, (st.segments seg.1 seg.2).e,
          placeOf test m a st seg, m seg.1⟩] := by
      simp only [List.filterMap_cons, List.filterMap_nil, placedOf, hsegs, setSegment, and_self,
        if_true]
      by_cases hun : placeOf test m a st seg = kUnplaced
      · simp only [if_pos hun]
      · simp only [if_neg hun]
    rw [hnew]
    split
    · rw [List.append_nil]
    · rfl

theorem mem_placeOrder {n : ℕ} {m : ℕ → ℕ} {segs : Segments} {a : ℕ × Bool} :
    a ∈ placeOrder n m segs ↔ a.1 < n ∧ (segs a.1 a.2).active = true := by
  obtain ⟨v, i⟩ := a
  rw [placeOrder, List.mem_insertionSort, List.mem_filter, List.mem_flatMap]
  cases i <;> simp

theorem placeOrder_nodup (n : ℕ) (m : ℕ → ℕ) (segs : Segments) : (placeOrder n m segs).Nodup := by
  apply (List.perm_insertionSort _ _).nodup_iff.mpr
  apply List.Nodup.filter
  apply List.nodup_flatMap.mpr
  refine ⟨fun v _ => by simp, List.nodup_range.imp ?_⟩
  intro v w hne x hv hw
  simp only [List.mem_cons, List.not_mem_nil, or_false] at hv hw
  apply hne
  obtain rfl | rfl := hv <;> obtain h | h := hw <;> exact congrArg Prod.fst h

/-! ### The DDR -/

section Ddr

variable {m : ℕ → ℕ}

theorem spilledBytes_append (l r : List Ent) :
    spilledBytes m (l ++ r) = spilledBytes m l + spilledBytes m r := by
  induction l with
  | nil => rw [List.nil_append, spilledBytes, Nat.zero_add]
  | cons e l ih => rw [List.cons_append, spilledBytes, spilledBytes, ih, Nat.add_assoc]

theorem exists_spill {c : ℕ} : ∀ {l : List Ent}, c < spilledBytes m l →
    ∃ k e r, l = k ++ e :: r ∧ e.k = LK.spill ∧ spilledBytes m k ≤ c ∧
      c < spilledBytes m k + m e.v := by
  intro l
  induction l using List.reverseRecOn with
  | nil => exact fun h => absurd h (Nat.not_lt_zero c)
  | append_singleton l e ih =>
    intro h
    rw [spilledBytes_append] at h
    by_cases hc : c < spilledBytes m l
    · obtain ⟨k, f, r, rfl, hf, hle, hlt⟩ := ih hc
      exact ⟨k, f, r ++ [e], by rw [List.append_assoc, List.cons_append], hf, hle, hlt⟩
    · have hbytes : spilledBytes m [e] = if e.k = LK.spill then m e.v else 0 := rfl
      by_cases he : e.k = LK.spill
      · rw [hbytes, if_pos he] at h
        exact ⟨l, e, [], rfl, he, Nat.le_of_not_lt hc, h⟩
      · rw [hbytes, if_neg he] at h
        omega

theorem split_order {l l' r' : List Ent} {f : Ent} (h : l ++ e :: r = l' ++ f :: r') (hne : e ≠ f) :
    l ++ [e] <+: l' ∨ l' ++ [f] <+: l := by
  obtain ⟨as, rfl, hrest⟩ | ⟨as, rfl, hrest⟩ := List.append_eq_append_iff.mp h
  · cases as with
    | nil => exact absurd (List.cons_eq_cons.mp hrest).1 hne
    | cons x as =>
      rw [(List.cons_eq_cons.mp hrest).1]
      exact Or.inl ⟨as, by rw [List.append_assoc, List.cons_append, List.nil_append]⟩
  · cases as with
    | nil => exact absurd (List.cons_eq_cons.mp hrest).1 hne.symm
    | cons x as =>
      rw [(List.cons_eq_cons.mp hrest).1]
      exact Or.inr ⟨as, by rw [List.append_assoc, List.cons_append, List.nil_append]⟩

theorem u64_add (x y : ℕ) : u64 (u64 x + y) = u64 (x + y) := Nat.mod_add_mod x (2 ^ 64) y

theorem foldl_cur (lg : List Ent) (st : Arena) (x : ℕ) (h : st.cur = u64 x) :
    (lg.foldl (spillTo m) st).cur = u64 (x + spilledBytes m lg) := by
  induction lg generalizing st x with
  | nil => exact h
  | cons e lg ih =>
    rw [List.foldl_cons, spilledBytes, ← Nat.add_assoc]
    apply ih
    by_cases he : e.k = LK.spill
    · rw [if_pos he, spillTo, if_neg (not_not.mpr he), h]
      exact u64_add x (m e.v)
    · rw [if_neg he, spillTo, if_pos he, Nat.add_zero, h]

/-- The segments with a new DDR address in one of them. -/
def setDdr (segs : Segments) (v : ℕ) (idx : Bool) (c : ℕ) : Segments :=
  setSegment segs v idx fun S => { S with ddrOffset := c }

theorem setDdr_frame (segs : Segments) (v : ℕ) (idx : Bool) (c w : ℕ) (i : Bool) :
    shape (setDdr segs v idx c w i) = shape (segs w i) ∧
      (setDdr segs v idx c w i).vtcmOffset = (segs w i).vtcmOffset ∧
      (w ≠ v → (setDdr segs v idx c w i).ddrOffset = (segs w i).ddrOffset) := by
  unfold setDdr setSegment
  by_cases hself : w = v ∧ i = idx
  · rw [if_pos hself]
    exact ⟨rfl, rfl, fun hne => absurd hself.1 hne⟩
  · rw [if_neg hself]
    exact ⟨rfl, rfl, fun _ => rfl⟩

theorem spillTo_segments (st : Arena) (he : e.k = LK.spill) :
    (spillTo m st e).segments =
      if (st.segments e.v true).active && (st.segments e.v true).fillStart then
        setDdr (setDdr st.segments e.v false st.cur) e.v true st.cur
      else setDdr st.segments e.v false st.cur := by
  have hsecond : setDdr st.segments e.v false st.cur e.v true = st.segments e.v true :=
    if_neg fun h => Bool.noConfusion h.2
  unfold setDdr at hsecond
  rw [spillTo, if_neg (not_not.mpr he)]
  simp only [hsecond]
  rfl

theorem spillTo_frame (st : Arena) (e : Ent) (v : ℕ) (i : Bool) :
    shape ((spillTo m st e).segments v i) = shape (st.segments v i) ∧
      ((spillTo m st e).segments v i).vtcmOffset = (st.segments v i).vtcmOffset ∧
      ((e.k ≠ LK.spill ∨ v ≠ e.v) →
        ((spillTo m st e).segments v i).ddrOffset = (st.segments v i).ddrOffset) := by
  by_cases he : e.k = LK.spill
  · obtain ⟨hshape, hoff, hddr⟩ := setDdr_frame st.segments e.v false st.cur v i
    rw [spillTo_segments st he]
    split
    · obtain ⟨hshape', hoff', hddr'⟩ :=
        setDdr_frame (setDdr st.segments e.v false st.cur) e.v true st.cur v i
      refine ⟨hshape'.trans hshape, hoff'.trans hoff, fun h => ?_⟩
      have hne := h.resolve_left (not_not.mpr he)
      rw [hddr' hne, hddr hne]
    · exact ⟨hshape, hoff, fun h => hddr (h.resolve_left (not_not.mpr he))⟩
  · rw [spillTo, if_pos he]
    exact ⟨rfl, rfl, fun _ => rfl⟩

theorem foldl_spill_frame (lg : List Ent) (st : Arena) (v : ℕ) (i : Bool) :
    shape ((lg.foldl (spillTo m) st).segments v i) = shape (st.segments v i) ∧
      ((lg.foldl (spillTo m) st).segments v i).vtcmOffset = (st.segments v i).vtcmOffset ∧
      ((∀ e ∈ lg, e.k ≠ LK.spill ∨ v ≠ e.v) →
        ((lg.foldl (spillTo m) st).segments v i).ddrOffset = (st.segments v i).ddrOffset) := by
  induction lg generalizing st with
  | nil => exact ⟨rfl, rfl, fun _ => rfl⟩
  | cons e lg ih =>
    obtain ⟨hshape, hoff, hddr⟩ := spillTo_frame (m := m) st e v i
    obtain ⟨hshape', hoff', hddr'⟩ := ih (spillTo m st e)
    rw [List.foldl_cons]
    refine ⟨hshape'.trans hshape, hoff'.trans hoff, fun h => ?_⟩
    rw [hddr' fun f hf => h f (List.mem_cons_of_mem _ hf), hddr (h e List.mem_cons_self)]

theorem spillTo_self (st : Arena) (he : e.k = LK.spill) :
    ((spillTo m st e).segments e.v false).ddrOffset = st.cur ∧
      ((st.segments e.v true).active = true → (st.segments e.v true).fillStart = true →
        ((spillTo m st e).segments e.v true).ddrOffset = st.cur) := by
  rw [spillTo_segments st he]
  constructor
  · split
    · simp [setDdr, setSegment]
    · simp [setDdr, setSegment]
  · intro hactive hfill
    simp [setDdr, setSegment, hactive, hfill]

end Ddr

/-! ### A schedule handed over -/

namespace Handed

variable (h : Handed)

/-- The state after the segments are placed. -/
def layout : Placing :=
  (placeOrder h.n h.m h.segs).foldl (placeSegment (fits h.M) h.m (alignment h.n h.m h.M))
    ⟨h.segs, [], 0, 0⟩

theorem placed_segments :
    h.placed.segments = (h.lg.foldl (spillTo h.m) ⟨h.layout.segments, 0⟩).segments := rfl

theorem order_sizes : ∀ seg ∈ placeOrder h.n h.m h.segs,
    alignUp (h.m seg.1) (alignment h.n h.m h.M) = h.m seg.1 := by
  intro seg hseg
  obtain ⟨hone, hall⟩ := alignment_mem h.n h.m h.M
  exact alignUp_of_dvd hone (hall seg.1 (mem_placeOrder.mp hseg).1) (h.size_lt seg.1)

theorem placed_offset (v : ℕ) (i : Bool) :
    (h.placed.segments v i).vtcmOffset = (h.layout.segments v i).vtcmOffset := by
  rw [placed_segments, (foldl_spill_frame h.lg _ v i).2.1]

theorem layout_done : h.layout.done =
    (placeOrder h.n h.m h.segs).filterMap (placedOf h.m h.layout.segments) :=
  foldl_done_eq (fits h.M) h.segs _ h.order_sizes (placeOrder_nodup _ _ _)

theorem placedOf_eq {a : ℕ × Bool} (hne : (h.vtcm a).lo ≠ kUnplaced) :
    placedOf h.m h.layout.segments a =
      some ⟨(h.segs a.1 a.2).s, (h.segs a.1 a.2).e, (h.vtcm a).lo, h.m a.1⟩ := by
  have hoff : (h.layout.segments a.1 a.2).vtcmOffset = (h.vtcm a).lo :=
    (h.placed_offset a.1 a.2).symm
  have hshape : shape (h.layout.segments a.1 a.2) = shape (h.segs a.1 a.2) :=
    foldl_shape (fits h.M) h.order_sizes ⟨h.segs, [], 0, 0⟩ a.1 a.2
  simp only [shape, Prod.mk.injEq] at hshape
  unfold placedOf
  simp only [hoff, hshape.1, hshape.2.1]
  exact if_neg hne

theorem good_nil : Good h.M [] := ⟨fun _ hq => (List.not_mem_nil hq).elim, List.Pairwise.nil⟩

theorem bounded_start : Bounded ⟨h.segs, [], 0, 0⟩ := by
  intro v i
  rw [h.fresh v i]
  decide

theorem noFalseFit (hin : ∀ a, h.Active a → (h.vtcm a).lo ≠ kUnplaced → (h.vtcm a).hi ≤ h.M) :
    NoFalseFit h.M h.m (alignment h.n h.m h.M) ⟨h.segs, [], 0, 0⟩ (placeOrder h.n h.m h.segs) := by
  apply noFalseFit_of_within h.M_lt h.order_sizes h.good_nil h.bounded_start
  intro q hq
  have hq' : q ∈ h.layout.done := hq
  rw [layout_done] at hq'
  obtain ⟨a, ha, hrec⟩ := List.mem_filterMap.mp hq'
  have hne : (h.vtcm a).lo ≠ kUnplaced := by
    intro heq
    have hoff : (h.layout.segments a.1 a.2).vtcmOffset = kUnplaced := by
      rw [← h.placed_offset]
      exact heq
    rw [placedOf, if_pos hoff] at hrec
    cases hrec
  rw [h.placedOf_eq hne, Option.some.injEq] at hrec
  rw [← hrec]
  exact hin a (mem_placeOrder.mp ha) hne

theorem layout_good (hfalse : NoFalseFit h.M h.m (alignment h.n h.m h.M) ⟨h.segs, [], 0, 0⟩
    (placeOrder h.n h.m h.segs)) : Good h.M h.layout.done :=
  foldl_good h.M_lt h.order_sizes h.good_nil hfalse

theorem vtcm_within (hgood : Good h.M h.layout.done) {a : ℕ × Bool} (ha : h.Active a)
    (hne : (h.vtcm a).lo ≠ kUnplaced) : (h.vtcm a).hi ≤ h.M := by
  have hmem : (⟨(h.segs a.1 a.2).s, (h.segs a.1 a.2).e, (h.vtcm a).lo, h.m a.1⟩ : Placed) ∈
      h.layout.done := by
    rw [layout_done]
    exact List.mem_filterMap.mpr ⟨a, mem_placeOrder.mpr ha, h.placedOf_eq hne⟩
  exact hgood.within _ hmem

theorem vtcm_apart (hgood : Good h.M h.layout.done) {a b : ℕ × Bool} (ha : h.Active a)
    (hb : h.Active b) (hab : a ≠ b) (hane : (h.vtcm a).lo ≠ kUnplaced)
    (hbne : (h.vtcm b).lo ≠ kUnplaced) (hmeet : Meet (h.segs a.1 a.2) (h.segs b.1 b.2)) :
    NoShared (h.vtcm a) (h.vtcm b) := by
  have hpair := hgood.apart
  rw [layout_done, List.pairwise_filterMap] at hpair
  have : Std.Symm fun a a' => ∀ p, placedOf h.m h.layout.segments a = some p →
      ∀ q, placedOf h.m h.layout.segments a' = some q → Clear p q :=
    ⟨fun _ _ hxy q hq p hp => (hxy p hp q hq).symm⟩
  have hclear := hpair.forall (mem_placeOrder.mpr ha) (mem_placeOrder.mpr hb) hab _
    (h.placedOf_eq hane) _ (h.placedOf_eq hbne)
  obtain ⟨t, htA, htB⟩ := hmeet
  have hahi : (h.vtcm a).hi = (h.vtcm a).lo + h.m a.1 := rfl
  have hbhi : (h.vtcm b).hi = (h.vtcm b).lo + h.m b.1 := rfl
  intro x hx
  obtain htime | hspace := hclear
  · simp only at htime
    omega
  · simp only at hspace
    omega

theorem ddr_of_split {l : List Ent} (hlg : h.lg = l ++ e :: r) (he : e.k = LK.spill) :
    (h.placed.segments e.v false).ddrOffset = u64 (spilledBytes h.m l) ∧
      ((h.segs e.v true).active = true → (h.segs e.v true).fillStart = true →
        (h.placed.segments e.v true).ddrOffset = u64 (spilledBytes h.m l)) := by
  have hlater : ∀ f ∈ r, f.k ≠ LK.spill ∨ e.v ≠ f.v := by
    intro f hf
    by_contra hno
    rw [not_or, not_not, not_not] at hno
    have hnodup := h.spillOnce
    rw [hlg, List.filter_append, List.filter_cons, if_pos (decide_eq_true he), List.map_append,
      List.map_cons] at hnodup
    apply (List.nodup_cons.mp (List.nodup_append.mp hnodup).2.1).1
    rw [hno.2]
    exact List.mem_map_of_mem (List.mem_filter.mpr ⟨hf, decide_eq_true hno.1⟩)
  have hcur : (l.foldl (spillTo h.m) ⟨h.layout.segments, 0⟩).cur = u64 (spilledBytes h.m l) := by
    rw [foldl_cur l ⟨h.layout.segments, 0⟩ 0 rfl, Nat.zero_add]
  have hself := spillTo_self (m := h.m) (l.foldl (spillTo h.m) ⟨h.layout.segments, 0⟩) he
  have hshape : shape ((l.foldl (spillTo h.m) ⟨h.layout.segments, 0⟩).segments e.v true) =
      shape (h.segs e.v true) := by
    rw [(foldl_spill_frame l _ e.v true).1]
    exact foldl_shape (fits h.M) h.order_sizes ⟨h.segs, [], 0, 0⟩ e.v true
  simp only [shape, Prod.mk.injEq] at hshape
  rw [hcur, hshape.2.2.1, hshape.2.2.2] at hself
  rw [placed_segments, hlg, List.foldl_append, List.foldl_cons]
  refine ⟨?_, fun hactive hfill => ?_⟩
  · rw [(foldl_spill_frame r _ e.v false).2.2 hlater]
    exact hself.1
  · rw [(foldl_spill_frame r _ e.v true).2.2 hlater]
    exact hself.2 hactive hfill

theorem split_of_spilled {v : ℕ} (hv : h.Spilled v) :
    ∃ l e r, h.lg = l ++ e :: r ∧ e.k = LK.spill ∧ e.v = v := by
  obtain ⟨e, hmem, he, hev⟩ := hv
  obtain ⟨l, r, hlg⟩ := List.append_of_mem hmem
  exact ⟨l, e, r, hlg, he, hev⟩

theorem ddr_eq {l : List Ent} (hlg : h.lg = l ++ e :: r) (he : e.k = LK.spill) :
    h.ddr e.v = ⟨u64 (spilledBytes h.m l), u64 (spilledBytes h.m l) + h.m e.v⟩ := by
  unfold ddr
  simp only [(h.ddr_of_split hlg he).1]

theorem ddr_apart (hfits : DdrFits h.m h.lg) {v w : ℕ} (hv : h.Spilled v) (hw : h.Spilled w)
    (hne : v ≠ w) : NoShared (h.ddr v) (h.ddr w) := by
  obtain ⟨l, e, r, hlg, he, rfl⟩ := h.split_of_spilled hv
  obtain ⟨l', f, r', hlg', hf, rfl⟩ := h.split_of_spilled hw
  have hbytes : ∀ k (g : Ent), g.k = LK.spill →
      spilledBytes h.m (k ++ [g]) = spilledBytes h.m k + h.m g.v := by
    intro k g hg
    rw [spilledBytes_append, spilledBytes, if_pos hg, spilledBytes, Nat.add_zero]
  rw [h.ddr_eq hlg he, h.ddr_eq hlg' hf]
  obtain hzero | hlt := hfits l e r hlg he
  · intro x hx
    simp only [hzero] at hx
    omega
  obtain hzero | hlt' := hfits l' f r' hlg' hf
  · intro x hx
    simp only [hzero] at hx
    omega
  rw [u64, u64, Nat.mod_eq_of_lt hlt, Nat.mod_eq_of_lt hlt']
  -- one of the two stands in front of the other
  have horder := split_order (hlg.symm.trans hlg') fun h => hne (congrArg Ent.v h)
  intro x hx
  simp only at hx
  obtain ⟨k, hk⟩ | ⟨k, hk⟩ := horder
  · rw [← hk, spilledBytes_append, hbytes l e he] at hx
    omega
  · rw [← hk, spilledBytes_append, hbytes l' f hf] at hx
    omega

/-- Addresses that are apart never wrapped in front of a spill of some bytes: its first byte would
lie in an earlier spill. -/
theorem ddrFits (happart : ∀ v w, h.Spilled v → h.Spilled w → v ≠ w → NoShared (h.ddr v) (h.ddr w)) :
    DdrFits h.m h.lg := by
  intro l
  induction hlen : l.length using Nat.strong_induction_on generalizing l with
  | _ len ih =>
    intro e r hlg he
    by_contra hwrap
    rw [not_or, Nat.not_lt] at hwrap
    have hlow : u64 (spilledBytes h.m l) < spilledBytes h.m l := (u64_lt _).trans_le hwrap.2
    obtain ⟨k, f, t, rfl, hf, hle, hlt⟩ := exists_spill hlow
    have hlg' : h.lg = k ++ f :: (t ++ e :: r) := by
      rw [hlg, List.append_assoc, List.cons_append]
    have hshort : k.length < len := by
      rw [← hlen, List.length_append, List.length_cons]
      omega
    have hfit := (ih k.length hshort k rfl f _ hlg' hf).resolve_left (by omega)
    have hdiff : f.v ≠ e.v := by
      have hnodup := h.spillOnce
      rw [hlg', List.filter_append, List.filter_cons, if_pos (decide_eq_true hf), List.map_append,
        List.map_cons] at hnodup
      intro hv
      apply (List.nodup_cons.mp (List.nodup_append.mp hnodup).2.1).1
      rw [hv]
      apply List.mem_map_of_mem
      exact List.mem_filter.mpr
        ⟨List.mem_append_right _ List.mem_cons_self, decide_eq_true he⟩
    have hshared := happart f.v e.v ⟨f, hlg' ▸ by simp, hf, rfl⟩ ⟨e, hlg ▸ by simp, he, rfl⟩ hdiff
      (u64 (spilledBytes h.m (k ++ f :: t)))
    rw [h.ddr_eq hlg' hf, h.ddr_eq hlg he] at hshared
    apply hshared
    have hk : u64 (spilledBytes h.m k) = spilledBytes h.m k := Nat.mod_eq_of_lt hfit
    simp only [hk]
    omega

end Handed

/-- The addresses are right exactly when no sum wraps where it matters. -/
theorem placeOffsets_sound_iff (h : Handed) : Sound h ↔ h.Unwrapped := by
  constructor
  · intro hsound
    exact ⟨h.noFalseFit hsound.within, h.ddrFits hsound.ddrApart⟩
  · rintro ⟨hfalse, hddr⟩
    have hgood := h.layout_good hfalse
    constructor
    · intro a b ha hb hab hane hbne hmeet
      exact h.vtcm_apart hgood ha hb hab hane hbne hmeet
    · intro a ha hne
      exact h.vtcm_within hgood ha hne
    · intro v w hv hw hne
      exact h.ddr_apart hddr hv hw hne
    · intro v hv hactive hfill
      obtain ⟨l, e, r, hlg, he, rfl⟩ := h.split_of_spilled hv
      obtain ⟨hfirst, hsecond⟩ := h.ddr_of_split hlg he
      rw [hfirst, hsecond hactive hfill]

/-! ### An arena of half of the addresses -/

/-- Two tensors of `2 ^ 63` bytes that live in the same slots. -/
def bigSegments : Segments := fun v i => ⟨1, 2, decide (v < 2) && !i, false, false, 0, 0⟩

theorem big_lt : (2 ^ 63 : ℕ) < 2 ^ 64 := by decide

/-- They are handed over with an arena of `2 ^ 63` bytes. -/
def bigPair : Handed where
  n := 2
  m := fun _ => 2 ^ 63
  M := 2 ^ 63
  segs := bigSegments
  lg := []
  size_lt := fun _ => big_lt
  M_lt := big_lt
  fresh := fun _ _ => rfl
  spillOnce := List.nodup_nil

/-- The second one is placed behind the arena: the end of its range wraps to zero. -/
theorem bigPair_not_sound : ¬ Sound bigPair := by
  intro hsound
  have hoff : (bigPair.vtcm (1, false)).lo = 2 ^ 63 := by decide
  have hin := hsound.within (1, false) ⟨by decide, rfl⟩ (by rw [hoff]; decide)
  have hhi : (bigPair.vtcm (1, false)).hi = (bigPair.vtcm (1, false)).lo + 2 ^ 63 := rfl
  rw [hhi, hoff] at hin
  exact absurd hin (by decide)

end Gehtp.Analysis.CpPlaceSafe
