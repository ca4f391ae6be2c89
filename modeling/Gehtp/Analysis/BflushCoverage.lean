import Mathlib.Data.Finset.Basic
import Mathlib.Algebra.Order.Ring.Nat
import Gehtp.Model.Bflush

/-!
# What the directed flush covers

In units of granules the scan of `build_ranges` is `growRuns`: a granule extends the
newest range when it is as far behind the last granule as the range is long. For a
range of one granule that is the next granule; for a range of two granules it is the
one after the next, and then the range grows by a granule that is not dirty while the
dirty one stays outside. So a range of three granules misses a granule for good, and
`Gap` says which dirty sets lead there: behind an even number of consecutive granules
one is clean and the next one dirty. A block is moreover represented by the granule
of its first byte only.
-/

set_option autoImplicit false

namespace Gehtp.Analysis.BflushCoverage

open Model.Btrack Model.Bflush

/-! ### Consecutive granules -/

/-- The number of consecutive elements of `D` that end at `q`. -/
def stretch (D : Finset ℕ) : ℕ → ℕ
  | 0 => if 0 ∈ D then 1 else 0
  | q + 1 => if q + 1 ∈ D then stretch D q + 1 else 0

/-- Behind an even number of consecutive elements one is missing and the next one is
there. -/
def Gap (D : Finset ℕ) : Prop :=
  ∃ q, q ∈ D ∧ q + 1 ∉ D ∧ q + 2 ∈ D ∧ stretch D q % 2 = 0

variable {q x cap blk : ℕ}

theorem stretch_insert_of_lt {D : Finset ℕ} (h : x < q) : stretch (insert q D) x = stretch D x := by
  induction x with
  | zero =>
    have hne : (0 : ℕ) ≠ q := by omega
    simp [stretch, hne]
  | succ x ih =>
    have hne : x + 1 ≠ q := by omega
    simp [stretch, hne, ih (by omega)]

theorem stretch_eq_zero {D : Finset ℕ} (h : q ∉ D) : stretch D q = 0 := by
  cases q with
  | zero => simp [stretch, h]
  | succ q => simp [stretch, h]

theorem stretch_insert_succ {D : Finset ℕ} {m : ℕ} :
    stretch (insert (m + 1) D) (m + 1) = stretch D m + 1 := by
  simp [stretch, stretch_insert_of_lt (Nat.lt_succ_self m)]

theorem stretch_insert_far {D : Finset ℕ} (h : ∀ p, p + 1 = q → p ∉ D) :
    stretch (insert q D) q = 1 := by
  cases q with
  | zero => simp [stretch]
  | succ q => rw [stretch_insert_succ, stretch_eq_zero (h q rfl)]

theorem gap_insert {D : Finset ℕ} {m : ℕ} (hm : m ∈ D) (hmax : ∀ d ∈ D, d ≤ m) (hq : m < q) :
    Gap (insert q D) ↔ Gap D ∨ (q = m + 2 ∧ stretch D m % 2 = 0) := by
  constructor
  · rintro ⟨p, hp, hp1, hp2, hs⟩
    have hpD : p ∈ D := by
      rcases Finset.mem_insert.mp hp with rfl | hp
      · rcases Finset.mem_insert.mp hp2 with h | h
        · omega
        · have := hmax _ h
          omega
      · exact hp
    have hpq : p < q := (hmax p hpD).trans_lt hq
    rw [stretch_insert_of_lt hpq] at hs
    have hp1D : p + 1 ∉ D := fun h => hp1 (Finset.mem_insert_of_mem h)
    rcases Finset.mem_insert.mp hp2 with h | h
    · refine .inr ?_
      have hpm : p = m := by
        have h1 := hmax p hpD
        by_contra hne
        have hm1 : m = p + 1 := by omega
        exact hp1D (hm1 ▸ hm)
      exact ⟨by omega, hpm ▸ hs⟩
    · exact .inl ⟨p, hpD, hp1D, h, hs⟩
  · rintro (⟨p, hp, hp1, hp2, hs⟩ | ⟨rfl, hs⟩)
    · have := hmax _ hp2
      refine ⟨p, Finset.mem_insert_of_mem hp, ?_, Finset.mem_insert_of_mem hp2, ?_⟩
      · rw [Finset.mem_insert]
        rintro (h | h)
        · omega
        · exact hp1 h
      · rw [stretch_insert_of_lt (by omega)]
        exact hs
    · refine ⟨m, Finset.mem_insert_of_mem hm, ?_, Finset.mem_insert_self _ _, ?_⟩
      · rw [Finset.mem_insert]
        rintro (h | h)
        · omega
        · have := hmax _ h
          omega
      · rw [stretch_insert_of_lt (by omega)]
        exact hs

/-! ### The scan in granules -/

/-- The ranges of a scan as (first granule, number of granules), the newest one
first, and the granule last added. -/
abbrev Runs := List (ℕ × ℕ) × ℕ

/-- What the scan does with granule `q`. -/
def growRuns (r : Runs) (q : ℕ) : Runs :=
  match r.1 with
  | [] => ([(q, 1)], q)
  | (s, k) :: rest =>
    if q = r.2 then r
    else if q = r.2 + k then ((s, k + 1) :: rest, q)
    else ((q, 1) :: (s, k) :: rest, q)

/-- A granule lies in one of the ranges. -/
def Covers (l : List (ℕ × ℕ)) (x : ℕ) : Prop := ∃ p ∈ l, p.1 ≤ x ∧ x < p.1 + p.2

theorem covers_cons {p : ℕ × ℕ} {l : List (ℕ × ℕ)} :
    Covers (p :: l) x ↔ (p.1 ≤ x ∧ x < p.1 + p.2) ∨ Covers l x := by
  simp [Covers]

/-- So far nothing is missed: the ranges hold exactly the granules, and the newest
one has two granules when an even number of consecutive ones ends here. -/
structure Clean (D : Finset ℕ) (s k last : ℕ) (rest : List (ℕ × ℕ)) : Prop where
  noGap : ¬ Gap D
  len : (k = 1 ∧ stretch D last % 2 = 1) ∨ (k = 2 ∧ stretch D last % 2 = 0)
  ends : s + k = last + 1
  exact : ∀ x, Covers ((s, k) :: rest) x ↔ x ∈ D

/-- A granule is missed, and it stays missed: it is the last one and lies behind the
newest range, or it lies before the newest range and in no older one. -/
def Missed (D : Finset ℕ) (s k last : ℕ) (rest : List (ℕ × ℕ)) : Prop :=
  Gap D ∧ ((2 ≤ k ∧ s + k ≤ last) ∨ ∃ x ∈ D, x < s ∧ ¬ Covers rest x)

/-- The invariant of the scan over the granules `D`. -/
structure RunsInv (D : Finset ℕ) (s k last : ℕ) (rest : List (ℕ × ℕ)) : Prop where
  pos : 1 ≤ k
  mem : last ∈ D
  max : ∀ d ∈ D, d ≤ last
  start : s ≤ last
  short : s + k ≤ last + 1
  older : ∀ p ∈ rest, p.1 + p.2 ≤ s
  state : Clean D s k last rest ∨ Missed D s k last rest

theorem not_covers_of_ge {l : List (ℕ × ℕ)} {s : ℕ} (h : ∀ p ∈ l, p.1 + p.2 ≤ s) (hx : s ≤ x) :
    ¬ Covers l x := by
  rintro ⟨p, hp, -, hlt⟩
  have := h p hp
  omega

theorem runsInv_start (q : ℕ) : RunsInv {q} q 1 q [] where
  pos := le_rfl
  mem := Finset.mem_singleton_self q
  max := by
    intro d hd
    rw [Finset.mem_singleton.mp hd]
  start := le_rfl
  short := le_rfl
  older := by simp
  state := by
    refine .inl ⟨?_, .inl ⟨rfl, ?_⟩, rfl, ?_⟩
    · rintro ⟨p, hp, -, hp2, -⟩
      rw [Finset.mem_singleton] at hp hp2
      omega
    · have h := stretch_insert_far (D := ∅) (q := q) (by simp)
      simp only [insert_empty_eq] at h
      rw [h]
    · intro x
      simp only [Covers, List.mem_singleton, exists_eq_left, Finset.mem_singleton]
      omega

section Step

variable {D : Finset ℕ} {s k last : ℕ} {rest : List (ℕ × ℕ)}

theorem max_insert (h : RunsInv D s k last rest) (hq : last < q) : ∀ d ∈ insert q D, d ≤ q := by
  intro d hd
  rcases Finset.mem_insert.mp hd with rfl | hd
  · exact le_rfl
  · exact (h.max d hd).trans hq.le

theorem runsInv_merge (h : RunsInv D s k last rest) :
    RunsInv (insert (last + k) D) s (k + 1) (last + k) rest where
  pos := by omega
  mem := Finset.mem_insert_self _ _
  max := max_insert h (by have := h.pos; omega)
  start := by
    have := h.start
    omega
  short := by
    have := h.short
    have := h.pos
    omega
  older := h.older
  state := by
    have hpos := h.pos
    have hgap := gap_insert h.mem h.max (show last < last + k by omega)
    rcases h.state with hc | ⟨hg, hm⟩
    · rcases hc.len with ⟨rfl, hodd⟩ | ⟨rfl, heven⟩
      · -- the second granule of a range
        have hends := hc.ends
        refine .inl ⟨?_, .inr ⟨rfl, ?_⟩, by omega, ?_⟩
        · rw [hgap]
          rintro (hg | ⟨h2, -⟩)
          · exact hc.noGap hg
          · omega
        · rw [stretch_insert_succ]
          omega
        · intro x
          have hx := hc.exact x
          rw [covers_cons] at hx ⊢
          rw [Finset.mem_insert, ← hx]
          simp only
          constructor
          · rintro (h | h)
            · by_cases hlast : x = last + 1
              · exact .inl hlast
              · exact .inr (.inl (by omega))
            · exact .inr (.inr h)
          · rintro (rfl | h | h)
            · exact .inl (by omega)
            · exact .inl (by omega)
            · exact .inr h
      · -- the third one comes after a clean granule
        have hends := hc.ends
        refine .inr ⟨hgap.mpr (.inr ⟨rfl, heven⟩), .inl ⟨by omega, by omega⟩⟩
    · refine .inr ⟨hgap.mpr (.inl hg), ?_⟩
      rcases hm with ⟨hk, hend⟩ | ⟨x, hx, hxs, hcov⟩
      · exact .inl ⟨by omega, by omega⟩
      · exact .inr ⟨x, Finset.mem_insert_of_mem hx, hxs, hcov⟩

theorem runsInv_push (h : RunsInv D s k last rest) (hq : last < q) (hne : q ≠ last + k) :
    RunsInv (insert q D) q 1 q ((s, k) :: rest) where
  pos := le_rfl
  mem := Finset.mem_insert_self _ _
  max := max_insert h hq
  start := le_rfl
  short := le_rfl
  older := by
    have hshort := h.short
    have hstart := h.start
    intro p hp
    rcases List.mem_cons.mp hp with rfl | hp
    · exact hshort.trans hq
    · have := h.older p hp
      omega
  state := by
    have hgap := gap_insert h.mem h.max hq
    have hshort := h.short
    rcases h.state with hc | ⟨hg, hm⟩
    · have hends := hc.ends
      refine .inl ⟨?_, .inl ⟨rfl, ?_⟩, rfl, ?_⟩
      · rw [hgap]
        rintro (hg | ⟨rfl, heven⟩)
        · exact hc.noGap hg
        · rcases hc.len with ⟨-, hodd⟩ | ⟨rfl, -⟩
          · omega
          · exact hne rfl
      · -- a range of one granule is followed by a new one only after a pause
        by_cases hnext : q = last + 1
        · subst hnext
          rcases hc.len with ⟨rfl, -⟩ | ⟨-, heven⟩
          · exact absurd rfl hne
          · rw [stretch_insert_succ]
            omega
        · rw [stretch_insert_far]
          intro p hp hpD
          have := h.max p hpD
          omega
      · intro x
        rw [covers_cons, Finset.mem_insert, ← hc.exact x]
        simp only
        constructor
        · rintro (h | h)
          · exact .inl (by omega)
          · exact .inr h
        · rintro (rfl | h)
          · exact .inl (by omega)
          · exact .inr h
    · refine .inr ⟨hgap.mpr (.inl hg), .inr ?_⟩
      rcases hm with ⟨-, hend⟩ | ⟨x, hx, hxs, hcov⟩
      · refine ⟨last, Finset.mem_insert_of_mem h.mem, hq, ?_⟩
        refine not_covers_of_ge (s := last) (fun p hp => ?_) le_rfl
        rcases List.mem_cons.mp hp with rfl | hp
        · exact hend
        · exact (h.older p hp).trans h.start
      · have := h.start
        refine ⟨x, Finset.mem_insert_of_mem hx, by omega, ?_⟩
        rw [covers_cons]
        rintro (hin | hin)
        · simp only at hin
          omega
        · exact hcov hin

end Step

/-- The invariant of the scan, before the first granule included. -/
def ScanInv (D : Finset ℕ) (r : Runs) : Prop :=
  (D = ∅ ∧ r.1 = []) ∨ ∃ s k rest, r.1 = (s, k) :: rest ∧ RunsInv D s k r.2 rest

variable {r : Runs}

theorem growRuns_inv {D : Finset ℕ} (h : ScanInv D r) (hq : ∀ d ∈ D, d ≤ q) :
    ScanInv (insert q D) (growRuns r q) := by
  unfold growRuns
  rcases h with ⟨rfl, hr⟩ | ⟨s, k, rest, hr, h⟩
  · simp only [hr, insert_empty_eq]
    exact .inr ⟨q, 1, [], rfl, runsInv_start q⟩
  · simp only [hr]
    split
    · rename_i hsame
      rw [hsame, Finset.insert_eq_self.mpr h.mem]
      exact .inr ⟨s, k, rest, hr, h⟩
    · rename_i hne
      have hlt : r.2 < q := lt_of_le_of_ne (hq _ h.mem) (Ne.symm hne)
      split
      · rename_i hmerge
        rw [hmerge]
        exact .inr ⟨s, k + 1, rest, rfl, runsInv_merge h⟩
      · rename_i hpush
        exact .inr ⟨q, 1, (s, k) :: rest, rfl, runsInv_push h hlt hpush⟩

theorem foldl_growRuns_inv (qs : List ℕ) {D : Finset ℕ} (h : ScanInv D r)
    (hD : ∀ q ∈ qs, ∀ d ∈ D, d ≤ q) (hsorted : qs.Pairwise (· ≤ ·)) :
    ScanInv (qs.foldl (fun D q => insert q D) D) (qs.foldl growRuns r) := by
  induction qs generalizing D r with
  | nil => exact h
  | cons q qs ih =>
    rw [List.pairwise_cons] at hsorted
    apply ih (growRuns_inv h (hD q (by simp)))
    · intro p hp d hd
      rcases Finset.mem_insert.mp hd with rfl | hd
      · exact hsorted.1 p hp
      · exact hD p (by simp [hp]) d hd
    · exact hsorted.2

theorem mem_foldl_insert (qs : List ℕ) (D : Finset ℕ) (x : ℕ) :
    x ∈ qs.foldl (fun D q => insert q D) D ↔ x ∈ D ∨ x ∈ qs := by
  induction qs generalizing D with
  | nil => simp
  | cons q qs ih =>
    rw [List.foldl_cons, ih, Finset.mem_insert, List.mem_cons]
    tauto

theorem scanInv_covers {D : Finset ℕ} (h : ScanInv D r) :
    (Gap D → ∃ d ∈ D, ¬ Covers r.1 d) ∧ (¬ Gap D → ∀ x, Covers r.1 x ↔ x ∈ D) := by
  rcases h with ⟨rfl, hr⟩ | ⟨s, k, rest, hr, h⟩
  · rw [hr]
    constructor
    · rintro ⟨q, hq, -⟩
      simp at hq
    · intro _ x
      simp [Covers]
  rw [hr]
  rcases h.state with hc | ⟨hg, hm⟩
  · exact ⟨fun hg => absurd hg hc.noGap, fun _ => hc.exact⟩
  · refine ⟨fun _ => ?_, fun hno => absurd hg hno⟩
    rcases hm with ⟨-, hend⟩ | ⟨x, hx, hxs, hcov⟩
    · refine ⟨r.2, h.mem, not_covers_of_ge (fun p hp => ?_) le_rfl⟩
      rcases List.mem_cons.mp hp with rfl | hp
      · exact hend
      · exact (h.older p hp).trans h.start
    · refine ⟨x, hx, ?_⟩
      rw [covers_cons]
      rintro (hin | hin)
      · simp only at hin
        omega
      · exact hcov hin

/-! ### From granules to bytes -/

/-- The scan state of the source that stands for runs of granules. -/
structure Stands (gran : ℕ) (r : Runs) (st : Scan) : Prop where
  ranges : st.ranges = r.1.map fun p => (p.1 * gran, p.2 * gran)
  inRun : st.inRun = !r.1.isEmpty
  runStart : r.1 ≠ [] → st.runStart = r.2 * gran

/-- The newest range is no longer than the memory up to the last granule. -/
def Short (r : Runs) : Prop := ∀ p ∈ r.1.head?, p.2 ≤ r.2 + 1

theorem short_growRuns (h : Short r) (hq : r.1 ≠ [] → r.2 ≤ q) : Short (growRuns r q) := by
  unfold growRuns
  split
  · simp [Short]
  · rename_i s k rest hr
    have hk : k ≤ r.2 + 1 := h (s, k) (by simp [hr])
    have hle := hq (by simp [hr])
    split
    · exact h
    · split
      · rename_i hne hmerge
        intro p hp
        obtain rfl : (s, k + 1) = p := by simpa using hp
        simp only
        omega
      · simp [Short]

/-- In 64 bits the end of a range meets the next granule only when it does so as a
number. -/
theorem add_mod_eq_iff {gran last k : ℕ} (hg : 0 < gran) (hk : k ≤ last + 1) (hq : last < q)
    (hfit : (q + 1) * gran < 2 ^ 64) :
    q * gran = (last * gran + k * gran) % 2 ^ 64 ↔ q = last + k := by
  have hlast : last * gran < q * gran := Nat.mul_lt_mul_of_pos_right hq hg
  have hkg : k * gran ≤ (q + 1) * gran := Nat.mul_le_mul_right gran (by omega)
  have hqg : (q + 1) * gran = q * gran + gran := Nat.succ_mul q gran
  constructor
  · intro h
    have hlt : last * gran + k * gran < 2 ^ 64 := by omega
    rw [Nat.mod_eq_of_lt hlt, ← Nat.add_mul] at h
    exact Nat.eq_of_mul_eq_mul_right hg h
  · rintro rfl
    rw [← Nat.add_mul, Nat.mod_eq_of_lt (by omega)]

theorem scanStep_stands {gran : ℕ} {st st' : Scan} (hg : 0 < gran) (h : Stands gran r st)
    (hshort : Short r) (hq : r.1 ≠ [] → r.2 ≤ q) (hfit : (q + 1) * gran < 2 ^ 64)
    (hstep : scanStep gran cap st (q * gran) = some st') : Stands gran (growRuns r q) st' := by
  unfold scanStep at hstep
  unfold growRuns
  cases hr : r.1 with
  | nil =>
    have hin : st.inRun = false := by simp [h.inRun, hr]
    have hrs : st.ranges = [] := by simp [h.ranges, hr]
    rw [if_neg (by simp [hin])] at hstep
    simp only [hrs] at hstep
    split at hstep
    · simp at hstep
    · obtain rfl := Option.some.inj hstep
      exact ⟨by simp, rfl, fun _ => rfl⟩
  | cons p rest =>
    obtain ⟨s, k⟩ := p
    have hin : st.inRun = true := by simp [h.inRun, hr]
    have hrs : st.ranges = (s * gran, k * gran) :: rest.map fun p => (p.1 * gran, p.2 * gran) := by
      simp [h.ranges, hr]
    have hstart : st.runStart = r.2 * gran := h.runStart (by simp [hr])
    have hle : r.2 ≤ q := hq (by simp [hr])
    have hk : k ≤ r.2 + 1 := hshort (s, k) (by simp [hr])
    simp only [hin, hstart, hrs, true_and] at hstep
    simp only
    by_cases hsame : q = r.2
    · rw [if_pos (by rw [hsame])] at hstep
      obtain rfl := Option.some.inj hstep
      rw [if_pos hsame]
      exact h
    have hne : q * gran ≠ r.2 * gran := fun he => hsame (Nat.eq_of_mul_eq_mul_right hg he)
    have hiff := add_mod_eq_iff hg hk (show r.2 < q by omega) hfit
    rw [if_neg hne] at hstep
    rw [if_neg hsame]
    by_cases hmerge : q = r.2 + k
    · rw [if_pos (hiff.mpr hmerge)] at hstep
      obtain rfl := Option.some.inj hstep
      rw [if_pos hmerge]
      have hgrow : (k + 1) * gran ≤ (q + 1) * gran := Nat.mul_le_mul_right gran (by omega)
      have hsucc : (k + 1) * gran = k * gran + gran := Nat.succ_mul k gran
      have hmod : (k * gran + gran) % 2 ^ 64 = (k + 1) * gran := by
        rw [hsucc, Nat.mod_eq_of_lt (by omega)]
      refine ⟨?_, rfl, fun _ => rfl⟩
      simp only [hmod, List.map_cons]
    · rw [if_neg (fun he => hmerge (hiff.mp he))] at hstep
      split at hstep
      · simp at hstep
      · obtain rfl := Option.some.inj hstep
        rw [if_neg hmerge]
        exact ⟨by simp, rfl, fun _ => rfl⟩

/-- The dirty blocks of a snapshot that are blocks of the memory. -/
def dirtyBlocks (geo : Geometry) (snap : Snapshot) : List ℕ :=
  (setBlocks snap).filter fun blk => decide (blk < geo.nBlocks)

theorem mem_setBlocks {snap : Snapshot} :
    blk ∈ setBlocks snap ↔ blk / 64 < snap.nWords ∧ bitOf snap.words blk = true := by
  simp only [setBlocks, bitOf, List.mem_flatMap, List.mem_map, List.mem_filter, List.mem_range]
  constructor
  · rintro ⟨w, hw, bi, ⟨hbi, hbit⟩, rfl⟩
    have h1 : (w * 64 + bi) / 64 = w := by omega
    have h2 : (w * 64 + bi) % 64 = bi := by omega
    rw [h1, h2]
    exact ⟨hw, hbit⟩
  · rintro ⟨hw, hbit⟩
    exact ⟨blk / 64, hw, blk % 64, ⟨Nat.mod_lt _ (by decide), hbit⟩, by omega⟩

theorem setBlocks_sorted (snap : Snapshot) : (setBlocks snap).Pairwise (· < ·) := by
  unfold setBlocks
  refine List.pairwise_flatMap.mpr ⟨fun w _ => ?_, ?_⟩
  · refine List.pairwise_map.mpr ?_
    exact (List.pairwise_lt_range.filter _).imp fun h => by omega
  · refine List.pairwise_lt_range.imp fun {v w} hvw x hx y hy => ?_
    obtain ⟨i, hi, rfl⟩ := List.mem_map.mp hx
    obtain ⟨j, hj, rfl⟩ := List.mem_map.mp hy
    have := List.mem_range.mp (List.mem_filter.mp hi).1
    omega

theorem mem_dirtyBlocks {geo : Geometry} {snap : Snapshot} :
    blk ∈ dirtyBlocks geo snap ↔
      blk / 64 < snap.nWords ∧ bitOf snap.words blk = true ∧ blk < geo.nBlocks := by
  simp [dirtyBlocks, mem_setBlocks, and_assoc]

section Scan

variable (geo : Geometry) {gran : ℕ}

/-- The granule of the first byte of a block. -/
def granuleOf (gran blk : ℕ) : ℕ := blk * geo.blkBytes / gran

theorem block_lt (h : blk < geo.nBlocks) : blk * geo.blkBytes + 2 ^ 32 < 2 ^ 64 := by
  have hblk := geo.blk_lt
  have hn : geo.nBlocks < 2 ^ 32 := Nat.mod_lt _ (by decide)
  have hmul : blk * geo.blkBytes ≤ (2 ^ 32 - 2) * (2 ^ 32 - 1) :=
    Nat.mul_le_mul (by omega) (by omega)
  omega

theorem granule_fits (hg : 0 < gran) (hgran : gran < 2 ^ 32) (h : blk < geo.nBlocks) :
    (granuleOf geo gran blk + 1) * gran < 2 ^ 64 := by
  have hlt := block_lt geo h
  have hdiv := Nat.div_mul_le_self (blk * geo.blkBytes) gran
  have hsucc : (granuleOf geo gran blk + 1) * gran = blk * geo.blkBytes / gran * gran + gran :=
    Nat.succ_mul _ _
  omega

theorem granuleOf_mono {b c : ℕ} (h : b ≤ c) : granuleOf geo gran b ≤ granuleOf geo gran c :=
  Nat.div_le_div_right (Nat.mul_le_mul_right _ h)

theorem last_growRuns : (growRuns r q).1 ≠ [] ∧ (growRuns r q).2 = q := by
  unfold growRuns
  split
  · simp
  · rename_i hr
    split
    · rename_i hsame
      simp [hr, hsame]
    · split <;> simp

theorem scanBlocks_stands (hg : 0 < gran) (hgran : gran < 2 ^ 32) (blks : List ℕ) {st st' : Scan}
    (h : Stands gran r st) (hshort : Short r)
    (hlast : ∀ b ∈ blks, r.1 ≠ [] → r.2 ≤ granuleOf geo gran b) (hsorted : blks.Pairwise (· < ·))
    (hscan : scanBlocks geo gran geo.blkBytes cap st blks = some st') :
    Stands gran (((blks.filter fun b => decide (b < geo.nBlocks)).map
      (granuleOf geo gran)).foldl growRuns r) st' := by
  induction blks generalizing r st with
  | nil =>
    obtain rfl := Option.some.inj hscan
    exact h
  | cons b blks ih =>
    rw [List.pairwise_cons] at hsorted
    unfold scanBlocks at hscan
    by_cases hb : geo.nBlocks ≤ b
    · have hnone : (b :: blks).filter (fun b => decide (b < geo.nBlocks)) = [] := by
        refine List.filter_eq_nil_iff.mpr fun c hc => ?_
        rcases List.mem_cons.mp hc with rfl | hc
        · simpa using hb
        · have := hsorted.1 c hc
          simp only [decide_eq_true_eq]
          omega
      rw [if_pos hb] at hscan
      obtain rfl := Option.some.inj hscan
      rw [hnone]
      exact h
    · have hlt : b < geo.nBlocks := by omega
      have hwrap := block_lt geo hlt
      rw [if_neg hb, Nat.mod_eq_of_lt (by omega)] at hscan
      split at hscan
      · simp at hscan
      · rename_i st1 hstep
        have hq := hlast b (by simp)
        have hnext := scanStep_stands hg h hshort hq (granule_fits geo hg hgran hlt) hstep
        rw [List.filter_cons_of_pos (by simpa using hlt), List.map_cons, List.foldl_cons]
        apply ih hnext (short_growRuns hshort hq)
        · intro c hc _
          rw [last_growRuns.2]
          exact granuleOf_mono geo (hsorted.1 c hc).le
        · exact hsorted.2
        · exact hscan

end Scan

/-! ### The ranges of a snapshot -/

/-- The granules of the first bytes of the dirty blocks. -/
def dirtyGranules (geo : Geometry) (gran : ℕ) (snap : Snapshot) : Finset ℕ :=
  ((dirtyBlocks geo snap).map (granuleOf geo gran)).toFinset

/-- Every byte of a block lies in one of the byte ranges. -/
def BlockInRanges (geo : Geometry) (rs : List (ℕ × ℕ)) (blk : ℕ) : Prop :=
  ∀ x, blk * geo.blkBytes ≤ x → x < (blk + 1) * geo.blkBytes →
    ∃ p ∈ rs, p.1 ≤ x ∧ x < p.1 + p.2

/-- The dirty sets that the scan gets right: no granule that a dirty block touches
is free of first bytes of dirty blocks, and there is no gap behind an even number of
consecutive granules. -/
def FlushFits (geo : Geometry) (gran : ℕ) (snap : Snapshot) : Prop :=
  (∀ blk ∈ dirtyBlocks geo snap, ∀ x, blk * geo.blkBytes ≤ x → x < (blk + 1) * geo.blkBytes →
    x / gran ∈ dirtyGranules geo gran snap) ∧
  ¬ Gap (dirtyGranules geo gran snap)

theorem covers_map_iff {gran : ℕ} (hg : 0 < gran) (l : List (ℕ × ℕ)) (x : ℕ) :
    (∃ p ∈ (l.map fun p => (p.1 * gran, p.2 * gran)).reverse, p.1 ≤ x ∧ x < p.1 + p.2) ↔
      Covers l (x / gran) := by
  simp only [List.mem_reverse, List.mem_map, Covers]
  constructor
  · rintro ⟨_, ⟨p, hp, rfl⟩, hlo, hhi⟩
    refine ⟨p, hp, (Nat.le_div_iff_mul_le hg).mpr hlo, ?_⟩
    rw [Nat.div_lt_iff_lt_mul hg, Nat.add_mul]
    exact hhi
  · rintro ⟨p, hp, hlo, hhi⟩
    refine ⟨_, ⟨p, hp, rfl⟩, (Nat.le_div_iff_mul_le hg).mp hlo, ?_⟩
    rw [Nat.div_lt_iff_lt_mul hg, Nat.add_mul] at hhi
    exact hhi

theorem buildRanges_covers_iff (geo : Geometry) (snap : Snapshot) {gran : ℕ} (hg : 0 < gran)
    (hgran : gran < 2 ^ 32) {rs : List (ℕ × ℕ)}
    (hrun : buildRanges geo snap gran geo.blkBytes cap = some rs) :
    (∀ blk ∈ dirtyBlocks geo snap, BlockInRanges geo rs blk) ↔ FlushFits geo gran snap := by
  obtain ⟨st, hscan, rfl⟩ := Option.map_eq_some_iff.mp hrun
  have hstart : Stands gran ([], 0) ⟨[], 0, false⟩ := ⟨rfl, rfl, fun h => absurd rfl h⟩
  have hst := scanBlocks_stands geo hg hgran (setBlocks snap) hstart (by simp [Short])
    (by simp) (setBlocks_sorted snap) hscan
  -- the runs of granules behind the ranges, and their invariant
  have hinv : ScanInv (dirtyGranules geo gran snap)
      (((dirtyBlocks geo snap).map (granuleOf geo gran)).foldl growRuns ([], 0)) := by
    have hsorted : ((dirtyBlocks geo snap).map (granuleOf geo gran)).Pairwise (· ≤ ·) :=
      List.pairwise_map.mpr (((setBlocks_sorted snap).filter _).imp
        fun h => granuleOf_mono geo (Nat.le_of_lt h))
    have h := foldl_growRuns_inv _ (show ScanInv ∅ ([], 0) from .inl ⟨rfl, rfl⟩) (by simp) hsorted
    have hset : ((dirtyBlocks geo snap).map (granuleOf geo gran)).foldl
        (fun D q => insert q D) ∅ = dirtyGranules geo gran snap := by
      ext x
      rw [mem_foldl_insert]
      simp [dirtyGranules]
    rwa [hset] at h
  obtain ⟨hgap, hexact⟩ := scanInv_covers hinv
  rw [hst.ranges]
  unfold BlockInRanges FlushFits
  simp only [covers_map_iff hg]
  change (∀ blk ∈ dirtyBlocks geo snap, ∀ x, blk * geo.blkBytes ≤ x →
    x < (blk + 1) * geo.blkBytes →
      Covers (((dirtyBlocks geo snap).map (granuleOf geo gran)).foldl growRuns ([], 0)).1
        (x / gran)) ↔ _
  constructor
  · intro hcov
    have hno : ¬ Gap (dirtyGranules geo gran snap) := by
      intro hbad
      obtain ⟨d, hd, hmiss⟩ := hgap hbad
      obtain ⟨blk, hblk, rfl⟩ := List.mem_map.mp (List.mem_toFinset.mp hd)
      refine hmiss (hcov blk hblk (blk * geo.blkBytes) le_rfl ?_)
      rw [Nat.succ_mul]
      have := geo.blk_pos
      omega
    exact ⟨fun blk hblk x hlo hhi => (hexact hno _).mp (hcov blk hblk x hlo hhi), hno⟩
  · rintro ⟨htouch, hno⟩ blk hblk x hlo hhi
    exact (hexact hno _).mpr (htouch blk hblk x hlo hhi)

/-! ### The boundary -/

/-- Every byte of a block was flushed. -/
def BlockFlushed (geo : Geometry) (calls : List FlushCall) (blk : ℕ) : Prop :=
  ∀ x, blk * geo.blkBytes ≤ x → x < (blk + 1) * geo.blkBytes → ∃ c ∈ calls, reaches c x

/-- A block was dirty before and is not any more. -/
def Cleared (geo : Geometry) (bits bits' : Words) (blk : ℕ) : Prop :=
  blk < geo.nBlocks ∧ bitOf bits blk = true ∧ bitOf bits' blk = false

theorem getLsbD_foldl_andWord (l : List (ℕ × BitVec 64)) (bits : Words) (w i : ℕ) :
    (l.foldl andWord bits w).getLsbD i =
      ((bits w).getLsbD i && l.all fun p => decide (p.1 ≠ w) || p.2.getLsbD i) := by
  induction l generalizing bits with
  | nil => simp
  | cons p l ih =>
    rw [List.foldl_cons, ih, List.all_cons, andWord]
    by_cases hw : w = p.1
    · subst hw
      simp [Bool.and_assoc]
    · simp [hw, Ne.symm hw]

theorem cleared_iff (geo : Geometry) (bits : Words) (blk : ℕ) :
    Cleared geo bits (btClearAllFlushed geo bits (snapshotOf geo bits)) blk ↔
      blk ∈ dirtyBlocks geo (snapshotOf geo bits) := by
  have hi : blk % 64 < 64 := Nat.mod_lt _ (by decide)
  unfold Cleared btClearAllFlushed
  rw [mem_dirtyBlocks, if_pos (by rfl)]
  simp only [bitOf, snapshotOf, getLsbD_foldl_andWord]
  constructor
  · rintro ⟨hblk, hbit, hclr⟩
    refine ⟨?_, hbit, hblk⟩
    rw [hbit, Bool.true_and, List.all_eq_false] at hclr
    obtain ⟨p, hp, hfalse⟩ := hclr
    obtain ⟨w, hw, rfl⟩ := List.mem_map.mp hp
    have hwb : w = blk / 64 := by
      by_contra hne
      simp [hne] at hfalse
    rw [← hwb]
    exact List.mem_range.mp hw
  · rintro ⟨hw, hbit, hblk⟩
    refine ⟨hblk, hbit, ?_⟩
    rw [hbit, Bool.true_and, List.all_eq_false]
    refine ⟨(blk / 64, ~~~bits (blk / 64)), ?_, ?_⟩
    · exact List.mem_map.mpr ⟨blk / 64, List.mem_range.mpr hw, rfl⟩
    · simp [hi, hbit]

theorem blockFlushed_map_range {geo : Geometry} {rs : List (ℕ × ℕ)} :
    BlockFlushed geo (rs.map fun r => .range r.1 r.2) blk ↔ BlockInRanges geo rs blk := by
  simp [BlockFlushed, BlockInRanges, reaches]

theorem bfBoundary_directed {geo : Geometry} {cfg : Config} {found : Found} {bits : Words}
    (h : FlushCall.full ∉ (bfBoundary geo cfg found bits).calls) :
    ∃ rs, buildRanges geo (snapshotOf geo bits) cfg.decideGran geo.blkBytes bfMaxRanges = some rs ∧
      (bfBoundary geo cfg found bits).calls = rs.map (fun r => .range r.1 r.2) ∧
      (bfBoundary geo cfg found bits).bits =
        btClearAllFlushed geo bits (snapshotOf geo bits) := by
  have hblk : (if geo.blkBytes = 0 then 64 else geo.blkBytes) = geo.blkBytes :=
    if_neg (Nat.pos_iff_ne_zero.mp geo.blk_pos)
  cases hs : found.suspect with
  | true => simp [bfBoundary, hs, flushFull] at h
  | false =>
    cases ho : found.snapOk with
    | false => simp [bfBoundary, hs, ho, flushFull] at h
    | true =>
      cases ha : found.arraysOk with
      | false => simp [bfBoundary, hs, ho, ha, flushFor, flushFull] at h
      | true =>
        cases hrun : buildRanges geo (snapshotOf geo bits) cfg.decideGran geo.blkBytes
            bfMaxRanges with
        | none => simp [bfBoundary, hs, ho, ha, flushFor, hblk, hrun, flushFull] at h
        | some rs =>
          cases hd : directed cfg (estimate cfg geo.blkBytes rs) with
          | false => simp [bfBoundary, hs, ho, ha, flushFor, hblk, hrun, hd, flushFull] at h
          | true =>
            exact ⟨rs, rfl, by simp [bfBoundary, hs, ho, ha, flushFor, hblk, hrun, hd],
              by simp [bfBoundary, hs, ho]⟩

/-- For every geometry and every accepted granule size: the ranges built from a
snapshot cover all of its dirty blocks, and a boundary that does not flush the whole
cache has flushed every byte of every block it clears, exactly when the snapshot
fits. SOURCE: bflush.c:66-167, btrack.c:239-251 -/
theorem flush_covers_cleared_iff (geo : Geometry) (cfg : Config) :
    (∀ snap cap rs, buildRanges geo snap cfg.decideGran geo.blkBytes cap = some rs →
      ((∀ blk ∈ dirtyBlocks geo snap, BlockInRanges geo rs blk) ↔
        FlushFits geo cfg.decideGran snap)) ∧
    (∀ found bits, FlushCall.full ∉ (bfBoundary geo cfg found bits).calls →
      ((∀ blk, Cleared geo bits (bfBoundary geo cfg found bits).bits blk →
          BlockFlushed geo (bfBoundary geo cfg found bits).calls blk) ↔
        FlushFits geo cfg.decideGran (snapshotOf geo bits))) := by
  constructor
  · intro snap cap rs hrun
    exact buildRanges_covers_iff geo snap cfg.gran_pos cfg.gran_lt hrun
  · intro found bits hdir
    obtain ⟨rs, hrun, hcalls, hbits⟩ := bfBoundary_directed hdir
    rw [hcalls, hbits, ← buildRanges_covers_iff geo (snapshotOf geo bits) cfg.gran_pos
      cfg.gran_lt hrun]
    simp only [cleared_iff, blockFlushed_map_range]

/-- Eight blocks, two to a granule. -/
def eightBlocks : Geometry := ⟨16384, 2048, by decide, by decide, by decide, by decide⟩

def oneWord (w : BitVec 64) : Words := fun i => if i = 0 then w else 0

/-- Blocks 0 and 2 lie in two granules: both are flushed, without a full flush. -/
theorem flush_covers_two_granules :
    FlushCall.full ∉ (bfBoundary eightBlocks (bfCreate 1000000 1000) ⟨false, true, true⟩
        (oneWord 0b0101)).calls ∧
      ∀ blk, Cleared eightBlocks (oneWord 0b0101) (bfBoundary eightBlocks (bfCreate 1000000 1000)
          ⟨false, true, true⟩ (oneWord 0b0101)).bits blk →
        BlockFlushed eightBlocks (bfBoundary eightBlocks (bfCreate 1000000 1000)
          ⟨false, true, true⟩ (oneWord 0b0101)).calls blk := by
  have hdir : FlushCall.full ∉ (bfBoundary eightBlocks (bfCreate 1000000 1000)
      ⟨false, true, true⟩ (oneWord 0b0101)).calls := by decide
  have hD : dirtyGranules eightBlocks 4096 (snapshotOf eightBlocks (oneWord 0b0101)) = {0, 1} := by
    decide
  have hB : dirtyBlocks eightBlocks (snapshotOf eightBlocks (oneWord 0b0101)) = [0, 2] := by
    decide
  refine ⟨hdir, ((flush_covers_cleared_iff eightBlocks (bfCreate 1000000 1000)).2 _ _ hdir).mpr
    ⟨?_, ?_⟩⟩
  · intro blk hblk x hlo hhi
    rw [hB] at hblk
    change x / 4096 ∈ dirtyGranules eightBlocks 4096 (snapshotOf eightBlocks (oneWord 0b0101))
    change blk * 2048 ≤ x at hlo
    change x < (blk + 1) * 2048 at hhi
    rw [hD]
    simp only [List.mem_cons, List.not_mem_nil, or_false, Finset.mem_insert,
      Finset.mem_singleton] at hblk ⊢
    omega
  · rintro ⟨q, -, -, hq, -⟩
    change q + 2 ∈ dirtyGranules eightBlocks 4096 (snapshotOf eightBlocks (oneWord 0b0101)) at hq
    rw [hD] at hq
    simp at hq

/-- Blocks 0, 2 and 6 are dirty, in the granules 0, 1 and 3: the range of three
granules ends where block 6 begins, and the boundary clears it. -/
theorem flush_misses_block_six :
    buildRanges eightBlocks (snapshotOf eightBlocks (oneWord 0b1000101)) 4096 2048 bfMaxRanges =
        some [(0, 12288)] ∧
      FlushCall.full ∉ (bfBoundary eightBlocks (bfCreate 1000000 1000) ⟨false, true, true⟩
        (oneWord 0b1000101)).calls ∧
      Cleared eightBlocks (oneWord 0b1000101) (bfBoundary eightBlocks (bfCreate 1000000 1000)
        ⟨false, true, true⟩ (oneWord 0b1000101)).bits 6 ∧
      ¬ BlockFlushed eightBlocks (bfBoundary eightBlocks (bfCreate 1000000 1000)
        ⟨false, true, true⟩ (oneWord 0b1000101)).calls 6 := by
  have hcalls : (bfBoundary eightBlocks (bfCreate 1000000 1000) ⟨false, true, true⟩
      (oneWord 0b1000101)).calls = [.range 0 12288] := by decide
  refine ⟨by decide, by decide, ?_, fun h => ?_⟩
  · exact ⟨by decide, by decide, by decide⟩
  · rw [hcalls] at h
    obtain ⟨c, hc, hreach⟩ := h 12288 (by decide) (by decide)
    obtain rfl := List.mem_singleton.mp hc
    simp [reaches] at hreach

end Gehtp.Analysis.BflushCoverage
