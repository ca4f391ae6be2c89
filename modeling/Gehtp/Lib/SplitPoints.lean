import Mathlib.Data.List.Basic
import Mathlib.Data.List.Induction

/-!
# Cutting a sequence at split points

A dynamic program over split points: `cost i k` is the best known cost of cutting the first `i + 1`
elements of a sequence into `k` segments, and `back i k` is the last element of the segment before
the last one. Costs are of any type with an addition, a comparison and a cost that stands for
"impossible". Whatever the costs are, the entries of `back` point strictly backwards, so the
segments read back from the table tile the sequence; if they are ordered, no other cut costs less.
-/

set_option autoImplicit false

namespace Gehtp.Lib.SplitPoints

structure Costs (D : Type) where
  inf : D
  isInf : D → Bool
  add : D → D → D
  lt : D → D → Bool

structure Table (D : Type) where
  cost : ℕ → ℕ → D
  back : ℕ → ℕ → Option ℕ

variable {D : Type}

def Table.set (T : Table D) (i k : ℕ) (c : D) (j : Option ℕ) : Table D where
  cost a b := if a = i ∧ b = k then c else T.cost a b
  back a b := if a = i ∧ b = k then j else T.back a b

section Program

variable (C : Costs D) (segCost : ℕ → ℕ → D)

/-- One segment up to each element. -/
def base (n : ℕ) : Table D :=
  (List.range n).foldl (fun T i => T.set i 1 (segCost 0 i) none) ⟨fun _ _ => C.inf, fun _ _ => none⟩

/-- Try the segment from `j + 1` to `i` as the last one of `k`. -/
def relax (i k : ℕ) (T : Table D) (j : ℕ) : Table D :=
  if C.isInf (T.cost j (k - 1)) then T
  else
    let c := segCost (j + 1) i
    if C.isInf c then T
    else
      let total := C.add (T.cost j (k - 1)) c
      if C.lt total (T.cost i k) then T.set i k total (some j) else T

def fill (n kmax : ℕ) : Table D :=
  (List.range n).foldl (fun T i =>
    (List.range' 2 (kmax - 1)).foldl (fun T k =>
      (List.range i).reverse.foldl (relax C segCost i k) T) T) (base C segCost n)

/-- The number of segments of least cost, the smallest one of them. -/
def bestK (T : Table D) (n kmax : ℕ) : ℕ :=
  ((List.range' 2 (kmax - 1)).foldl (fun best k =>
    if C.lt (T.cost (n - 1) k) best.2 then (k, T.cost (n - 1) k) else best)
    (1, T.cost (n - 1) 1)).1

/-- The segments from the last one backwards, by their first and last element. -/
def walk (T : Table D) : ℕ → ℕ → List (ℕ × ℕ)
  | 0, _ => []
  | k + 1, i =>
    match T.back i (k + 1) with
    | none => [(0, i)]
    | some j => (j + 1, i) :: walk T k j

/-- The segments of the best cut of `n` elements into at most `kmax` segments. -/
def segments (n kmax : ℕ) : List (ℕ × ℕ) :=
  let T := fill C segCost n kmax
  (walk T (bestK C T n kmax) (n - 1)).reverse

end Program

/-- The elements of a segment. -/
def slice {α : Type} (l : List α) (seg : ℕ × ℕ) : List α := (l.take (seg.2 + 1)).drop seg.1

variable {α : Type} {l : List α} {i j k : ℕ}

theorem slice_ne_nil {seg : ℕ × ℕ} (h : seg.1 ≤ seg.2) (hlen : seg.2 < l.length) :
    slice l seg ≠ [] := by
  apply List.ne_nil_of_length_pos
  rw [slice, List.length_drop, List.length_take]
  omega

theorem take_append_slice (l : List α) (h : j < i) :
    l.take (j + 1) ++ slice l (j + 1, i) = l.take (i + 1) := by
  have hmin : min (j + 1) (i + 1) = j + 1 := Nat.min_eq_left (by omega)
  calc l.take (j + 1) ++ slice l (j + 1, i)
      = (l.take (i + 1)).take (j + 1) ++ (l.take (i + 1)).drop (j + 1) := by
        rw [List.take_take, hmin]
        rfl
    _ = l.take (i + 1) := List.take_append_drop _ _

/-- The entries of `back` point backwards, and one segment has none before it. -/
structure Backwards (T : Table D) : Prop where
  one : ∀ i, T.back i 1 = none
  lt : ∀ i k j, T.back i k = some j → j < i

theorem Backwards.set_one {T : Table D} (h : Backwards T) (i : ℕ) (c : D) :
    Backwards (T.set i 1 c none) where
  one a := by
    show (if a = i ∧ 1 = 1 then none else T.back a 1) = none
    rw [h.one a]
    exact ite_self none
  lt a b j hj := by
    have hj' : (if a = i ∧ b = 1 then none else T.back a b) = some j := hj
    split at hj'
    · cases hj'
    · exact h.lt a b j hj'

theorem Backwards.set {T : Table D} (h : Backwards T) (hk : 2 ≤ k) (hj : j < i) (c : D) :
    Backwards (T.set i k c (some j)) where
  one a := by
    show (if a = i ∧ 1 = k then some j else T.back a 1) = none
    rw [if_neg fun hk' => absurd hk'.2 (by omega), h.one a]
  lt a b j' hj' := by
    have hj'' : (if a = i ∧ b = k then some j else T.back a b) = some j' := hj'
    split at hj''
    · rename_i hab
      cases hj''
      rw [hab.1]
      exact hj
    · exact h.lt a b j' hj''

theorem foldl_keeps {β : Type} {P : β → Prop} {f : β → α → β} (hf : ∀ b, P b → ∀ a ∈ l, P (f b a))
    {b : β} (hb : P b) : P (l.foldl f b) :=
  List.foldlRecOn l f hb hf

theorem base_backwards (C : Costs D) (segCost : ℕ → ℕ → D) (n : ℕ) :
    Backwards (base C segCost n) := by
  apply foldl_keeps (P := Backwards)
  · intro T hT i _
    exact hT.set_one i _
  · refine ⟨fun _ => rfl, ?_⟩
    intro i k j h
    cases h

theorem Backwards.relax {C : Costs D} {segCost : ℕ → ℕ → D} {T : Table D} (h : Backwards T)
    (hk : 2 ≤ k) (hj : j < i) : Backwards (relax C segCost i k T j) := by
  unfold SplitPoints.relax
  split
  · exact h
  · dsimp only
    split
    · exact h
    · split
      · exact h.set hk hj _
      · exact h

theorem fill_backwards (C : Costs D) (segCost : ℕ → ℕ → D) (n kmax : ℕ) :
    Backwards (fill C segCost n kmax) := by
  apply foldl_keeps (P := Backwards)
  · intro T hT i _
    apply foldl_keeps (P := Backwards) _ hT
    intro T hT k hk
    apply foldl_keeps (P := Backwards) _ hT
    intro T hT j hj
    have hk2 : 2 ≤ k := (List.mem_range'_1.mp hk).1
    exact hT.relax hk2 (List.mem_range.mp (List.mem_reverse.mp hj))
  · exact base_backwards C segCost n

theorem one_le_bestK (C : Costs D) (T : Table D) (n kmax : ℕ) : 1 ≤ bestK C T n kmax := by
  apply foldl_keeps (P := fun best : ℕ × D => 1 ≤ best.1)
  · intro best hbest k hk
    have hk2 : 2 ≤ k := (List.mem_range'_1.mp hk).1
    split
    · show 1 ≤ k
      omega
    · exact hbest
  · exact Nat.le_refl 1

theorem bestK_le (C : Costs D) (T : Table D) (n : ℕ) {kmax : ℕ} (h : 1 ≤ kmax) :
    bestK C T n kmax ≤ kmax := by
  apply foldl_keeps (P := fun best : ℕ × D => best.1 ≤ kmax)
  · intro best hbest k hk
    have hkmax := (List.mem_range'_1.mp hk).2
    split
    · show k ≤ kmax
      omega
    · exact hbest
  · exact h

theorem length_walk_le (T : Table D) (k i : ℕ) : (walk T k i).length ≤ k := by
  induction k generalizing i with
  | zero => exact Nat.le_refl 0
  | succ k ih =>
    unfold walk
    split
    · exact Nat.succ_le_succ (Nat.zero_le k)
    · exact Nat.succ_le_succ (ih _)

theorem walk_tiles {T : Table D} (hT : Backwards T) (l : List α) (hk : 1 ≤ k) :
    ((walk T k i).reverse.map (slice l)).flatten = l.take (i + 1) := by
  induction k generalizing i with
  | zero => omega
  | succ k ih =>
    unfold walk
    cases hback : T.back i (k + 1) with
    | none =>
      show [slice l (0, i)].flatten = _
      rw [List.flatten_cons, List.flatten_nil, List.append_nil]
      rfl
    | some j =>
      have hji : j < i := hT.lt i (k + 1) j hback
      have hk1 : 1 ≤ k := by
        by_contra hk0
        have hzero : k = 0 := by omega
        subst hzero
        rw [hT.one i] at hback
        cases hback
      show (((j + 1, i) :: walk T k j).reverse.map (slice l)).flatten = _
      rw [List.reverse_cons, List.map_append, List.flatten_append, ih hk1]
      show l.take (j + 1) ++ (slice l (j + 1, i) ++ []) = _
      rw [List.append_nil, take_append_slice l hji]

theorem walk_ordered {T : Table D} (hT : Backwards T) {seg : ℕ × ℕ} (h : seg ∈ walk T k i) :
    seg.1 ≤ seg.2 ∧ seg.2 ≤ i := by
  induction k generalizing i with
  | zero => cases h
  | succ k ih =>
    unfold walk at h
    cases hback : T.back i (k + 1) with
    | none =>
      rw [hback] at h
      cases List.mem_singleton.mp h
      exact ⟨Nat.zero_le i, Nat.le_refl i⟩
    | some j =>
      rw [hback] at h
      have hji : j < i := hT.lt i (k + 1) j hback
      rcases List.mem_cons.mp h with hseg | hseg
      · subst hseg
        exact ⟨hji, Nat.le_refl i⟩
      · obtain ⟨hle, hj⟩ := ih hseg
        exact ⟨hle, by omega⟩

variable (C : Costs D) (segCost : ℕ → ℕ → D)

theorem segments_tile (l : List α) (kmax : ℕ) :
    ((segments C segCost l.length kmax).map (slice l)).flatten = l := by
  cases hl : l with
  | nil =>
    apply List.flatten_eq_nil_iff.mpr
    intro s hs
    obtain ⟨seg, -, rfl⟩ := List.mem_map.mp hs
    simp [slice]
  | cons a l' =>
    rw [← hl, segments, walk_tiles (fill_backwards C segCost _ kmax) l (one_le_bestK C _ _ kmax)]
    have hpos : 0 < l.length := by rw [hl]; exact Nat.succ_pos _
    rw [Nat.sub_add_cancel hpos, List.take_length]

theorem length_segments_le (n : ℕ) {kmax : ℕ} (h : 1 ≤ kmax) :
    (segments C segCost n kmax).length ≤ kmax := by
  rw [segments, List.length_reverse]
  exact Nat.le_trans (length_walk_le _ _ _) (bestK_le C _ n h)

theorem segments_ne_nil (hl : l ≠ []) (kmax : ℕ) {s : List α}
    (h : s ∈ (segments C segCost l.length kmax).map (slice l)) : s ≠ [] := by
  obtain ⟨seg, hseg, rfl⟩ := List.mem_map.mp h
  have hmem : seg ∈ walk _ _ (l.length - 1) := List.mem_reverse.mp hseg
  obtain ⟨hle, hlast⟩ := walk_ordered (fill_backwards C segCost _ kmax) hmem
  have hpos : 0 < l.length := List.length_pos_of_ne_nil hl
  exact slice_ne_nil hle (by omega)

/-! ### The least cost -/

/-- The comparison is a strict weak order in which nothing exceeds "impossible"; a sum grows with
its first part, and is impossible with either part. -/
structure Costs.Ordered (C : Costs D) : Prop where
  asymm : ∀ a b, C.lt a b = true → C.lt b a = false
  split : ∀ a b c, C.lt a c = true → C.lt a b = true ∨ C.lt b c = true
  inf_lt : ∀ a, C.lt C.inf a = false
  isInf_iff : ∀ a, C.isInf a = true ↔ C.lt a C.inf = false
  add_mono : ∀ a b c, C.lt b a = false → C.lt (C.add b c) (C.add a c) = false
  add_inf : ∀ a b, C.isInf a = true ∨ C.isInf b = true → C.isInf (C.add a b) = true

/-- The cost of a cut: the segments' costs, added in order. -/
def cutCost (C : Costs D) (cost : List α → D) : List (List α) → D
  | [] => C.inf
  | seg :: cut => cut.foldl (fun total seg => C.add total (cost seg)) (cost seg)

theorem cutCost_concat (C : Costs D) (cost : List α → D) {cut : List (List α)} (h : cut ≠ [])
    (seg : List α) : cutCost C cost (cut ++ [seg]) = C.add (cutCost C cost cut) (cost seg) := by
  cases cut with
  | nil => exact absurd rfl h
  | cons first cut => simp [cutCost]

section Least

variable {C : Costs D} {segCost : ℕ → ℕ → D} {T T' : Table D} {n kmax : ℕ} (hC : C.Ordered)

include hC in
theorem Costs.Ordered.refl (a : D) : C.lt a a = false := by
  by_contra h
  rw [Bool.not_eq_false] at h
  exact absurd h (Bool.eq_false_iff.mp (hC.asymm a a h))

include hC in
theorem Costs.Ordered.trans {a b c : D} (hab : C.lt b a = false) (hbc : C.lt c b = false) :
    C.lt c a = false := by
  by_contra h
  rw [Bool.not_eq_false] at h
  cases hC.split c b a h with
  | inl h => exact absurd h (Bool.eq_false_iff.mp hbc)
  | inr h => exact absurd h (Bool.eq_false_iff.mp hab)

include hC in
theorem Costs.Ordered.le_inf {a : D} (h : C.isInf a = true) (b : D) : C.lt a b = false := by
  by_contra hlt
  rw [Bool.not_eq_false] at hlt
  cases hC.split a C.inf b hlt with
  | inl h' => exact absurd h' (Bool.eq_false_iff.mp ((hC.isInf_iff a).mp h))
  | inr h' => exact absurd h' (Bool.eq_false_iff.mp (hC.inf_lt b))

/-- The cost up to `j`, and of the segment after it up to `i` as one more. -/
def sumAt (C : Costs D) (segCost : ℕ → ℕ → D) (T : Table D) (i k j : ℕ) : D :=
  C.add (T.cost j (k - 1)) (segCost (j + 1) i)

/-- Where an entry comes from, if it is not "impossible". -/
def Made (C : Costs D) (segCost : ℕ → ℕ → D) (T : Table D) (i k : ℕ) : Prop :=
  C.isInf (T.cost i k) = true ∨
    ∃ j < i, T.back i k = some j ∧ T.cost i k = sumAt C segCost T i k j

/-- An entry is the least one over all last segments. -/
structure Entry (C : Costs D) (segCost : ℕ → ℕ → D) (T : Table D) (i k : ℕ) : Prop where
  made : Made C segCost T i k
  le : ∀ j < i, C.lt (sumAt C segCost T i k j) (T.cost i k) = false

/-- The tables agree in all other entries. -/
def SameBut (P : ℕ → ℕ → Prop) (T T' : Table D) : Prop :=
  ∀ a b, ¬ P a b → T'.cost a b = T.cost a b ∧ T'.back a b = T.back a b

section SameBut

variable {P Q : ℕ → ℕ → Prop}

theorem SameBut.refl (P : ℕ → ℕ → Prop) (T : Table D) : SameBut P T T := fun _ _ _ => ⟨rfl, rfl⟩

theorem SameBut.trans {T'' : Table D} (h : SameBut P T T') (h' : SameBut P T' T'') :
    SameBut P T T'' :=
  fun a b hab => ⟨(h' a b hab).1.trans (h a b hab).1, (h' a b hab).2.trans (h a b hab).2⟩

theorem SameBut.mono (h : SameBut P T T') (hPQ : ∀ a b, P a b → Q a b) : SameBut Q T T' :=
  fun a b hab => h a b fun hp => hab (hPQ a b hp)

theorem SameBut.sumAt (h : SameBut P T T') (hP : ∀ a b, P a b → i ≤ a) (hj : j < i) :
    sumAt C segCost T' i k j = sumAt C segCost T i k j := by
  rw [SplitPoints.sumAt, (h j (k - 1) fun hp => Nat.not_le_of_lt hj (hP _ _ hp)).1]
  rfl

theorem Entry.congr (h : Entry C segCost T i k) (hsame : SameBut P T T')
    (hP : ∀ a b, P a b → i ≤ a ∧ ¬(a = i ∧ b = k)) : Entry C segCost T' i k := by
  have hsum : ∀ j < i, SplitPoints.sumAt C segCost T' i k j = SplitPoints.sumAt C segCost T i k j :=
    fun j hj => hsame.sumAt (fun a b hp => (hP a b hp).1) hj
  obtain ⟨hcost, hback⟩ := hsame i k fun hp => (hP i k hp).2 ⟨rfl, rfl⟩
  constructor
  · rw [Made, hcost, hback]
    refine h.made.imp_right ?_
    rintro ⟨j, hj, hb, heq⟩
    exact ⟨j, hj, hb, heq.trans (hsum j hj).symm⟩
  · intro j hj
    rw [hcost, hsum j hj]
    exact h.le j hj

end SameBut

include hC in
theorem relax_cases (segCost : ℕ → ℕ → D) (i k j : ℕ) (T : Table D) :
    (relax C segCost i k T j = T ∧ C.lt (sumAt C segCost T i k j) (T.cost i k) = false) ∨
      (relax C segCost i k T j = T.set i k (sumAt C segCost T i k j) (some j) ∧
        C.lt (sumAt C segCost T i k j) (T.cost i k) = true) := by
  unfold relax
  split
  · exact .inl ⟨rfl, hC.le_inf (hC.add_inf _ _ (.inl ‹_›)) _⟩
  · dsimp only
    split
    · exact .inl ⟨rfl, hC.le_inf (hC.add_inf _ _ (.inr ‹_›)) _⟩
    · split
      · exact .inr ⟨rfl, ‹_›⟩
      · exact .inl ⟨rfl, Bool.eq_false_iff.mpr ‹_›⟩

include hC in
/-- One round leaves the entry no greater than it was, and than the sum that the round looks at. -/
theorem relax_step (hj : j < i) (h : Made C segCost T i k) :
    let T' := relax C segCost i k T j
    SameBut (fun a b => a = i ∧ b = k) T T' ∧ Made C segCost T' i k ∧
      C.lt (T.cost i k) (T'.cost i k) = false ∧
        C.lt (sumAt C segCost T i k j) (T'.cost i k) = false := by
  intro T'
  rcases relax_cases hC segCost i k j T with ⟨heq, hle⟩ | ⟨heq, hlt⟩
  · have hT' : T' = T := heq
    rw [hT']
    exact ⟨SameBut.refl _ T, h, hC.refl _, hle⟩
  · have hT' : T' = T.set i k (sumAt C segCost T i k j) (some j) := heq
    have hcost : T'.cost i k = sumAt C segCost T i k j := by
      rw [hT']
      exact if_pos ⟨rfl, rfl⟩
    have hback : T'.back i k = some j := by
      rw [hT']
      exact if_pos ⟨rfl, rfl⟩
    have hsame : SameBut (fun a b => a = i ∧ b = k) T T' := by
      intro a b hab
      rw [hT']
      exact ⟨if_neg hab, if_neg hab⟩
    refine ⟨hsame, .inr ⟨j, hj, hback, ?_⟩, ?_, ?_⟩
    · rw [hcost, hsame.sumAt (fun _ _ hab => Nat.le_of_eq hab.1.symm) hj]
    · rw [hcost]
      exact hC.asymm _ _ hlt
    · rw [hcost]
      exact hC.refl _

include hC in
theorem relax_run {js : List ℕ} (hjs : ∀ j ∈ js, j < i) (h : Made C segCost T i k) :
    let T' := js.foldl (relax C segCost i k) T
    SameBut (fun a b => a = i ∧ b = k) T T' ∧ Made C segCost T' i k ∧
      C.lt (T.cost i k) (T'.cost i k) = false ∧
        ∀ j ∈ js, C.lt (sumAt C segCost T i k j) (T'.cost i k) = false := by
  induction js generalizing T with
  | nil => exact ⟨SameBut.refl _ T, h, hC.refl _, fun j hj => absurd hj List.not_mem_nil⟩
  | cons j js ih =>
    obtain ⟨hsame, hmade, hle, hsum⟩ := relax_step hC (hjs j List.mem_cons_self) h
    obtain ⟨hsame', hmade', hle', hsums⟩ := ih (fun x hx => hjs x (List.mem_cons_of_mem j hx)) hmade
    refine ⟨hsame.trans hsame', hmade', hC.trans hle' hle, ?_⟩
    intro j' hj'
    cases List.mem_cons.mp hj' with
    | inl heq =>
      subst heq
      exact hC.trans hle' hsum
    | inr hmem =>
      rw [← hsame.sumAt (fun _ _ hab => Nat.le_of_eq hab.1.symm) (hjs j' hj')]
      exact hsums j' hmem

include hC in
theorem row_run (segCost : ℕ → ℕ → D) {ks : List ℕ} (hks : ks.Nodup)
    (h : ∀ k ∈ ks, T.cost i k = C.inf) :
    let T' := ks.foldl (fun T k => (List.range i).reverse.foldl (relax C segCost i k) T) T
    SameBut (fun a b => a = i ∧ b ∈ ks) T T' ∧ ∀ k ∈ ks, Entry C segCost T' i k := by
  induction ks generalizing T with
  | nil => exact ⟨SameBut.refl _ T, fun k hk => absurd hk List.not_mem_nil⟩
  | cons k ks ih =>
    obtain ⟨hk, hks'⟩ := List.nodup_cons.mp hks
    have hmade : Made C segCost T i k := by
      refine .inl ((hC.isInf_iff _).mpr ?_)
      rw [h k List.mem_cons_self]
      exact hC.refl _
    have hjs : ∀ j ∈ (List.range i).reverse, j < i :=
      fun j hj => List.mem_range.mp (List.mem_reverse.mp hj)
    obtain ⟨hsame, hmade', -, hsums⟩ := relax_run hC hjs hmade
    have hfirst : Entry C segCost ((List.range i).reverse.foldl (relax C segCost i k) T) i k := by
      refine ⟨hmade', fun j hj => ?_⟩
      rw [hsame.sumAt (fun _ _ hab => Nat.le_of_eq hab.1.symm) hj]
      exact hsums j (List.mem_reverse.mpr (List.mem_range.mpr hj))
    obtain ⟨hframe, hentries⟩ := ih hks' fun k' hk' => by
      have hne : ¬(i = i ∧ k' = k) := fun heq => hk (heq.2 ▸ hk')
      rw [(hsame i k' hne).1, h k' (List.mem_cons_of_mem k hk')]
    refine ⟨?_, fun k' hk' => ?_⟩
    · apply SameBut.trans (hsame.mono _) (hframe.mono _)
      · exact fun a b hab => ⟨hab.1, hab.2 ▸ List.mem_cons_self⟩
      · exact fun a b hab => ⟨hab.1, List.mem_cons_of_mem k hab.2⟩
    · cases List.mem_cons.mp hk' with
      | inl heq =>
        subst heq
        exact hfirst.congr hframe fun a b hab =>
          ⟨Nat.le_of_eq hab.1.symm, fun h' => hk (h'.2 ▸ hab.2)⟩
      | inr hmem => exact hentries k' hmem

include hC in
theorem rows_run (segCost : ℕ → ℕ → D) {ks : List ℕ} (hks : ks.Nodup) {m : ℕ}
    (h : ∀ i < m, ∀ k ∈ ks, T.cost i k = C.inf) :
    let T' := (List.range m).foldl (fun T i =>
      ks.foldl (fun T k => (List.range i).reverse.foldl (relax C segCost i k) T) T) T
    SameBut (fun a b => a < m ∧ b ∈ ks) T T' ∧ ∀ i < m, ∀ k ∈ ks, Entry C segCost T' i k := by
  induction m with
  | zero => exact ⟨SameBut.refl _ T, fun i hi => absurd hi (Nat.not_lt_zero i)⟩
  | succ m ih =>
    obtain ⟨hframe, hentries⟩ := ih fun i hi => h i (Nat.lt_succ_of_lt hi)
    rw [List.range_succ, List.foldl_concat]
    obtain ⟨hframe', hentries'⟩ := row_run hC segCost hks fun k hk =>
      (hframe m k fun hmk => Nat.lt_irrefl m hmk.1).1.trans (h m (Nat.lt_succ_self m) k hk)
    refine ⟨?_, fun i hi k hk => ?_⟩
    · apply SameBut.trans (hframe.mono _) (hframe'.mono _)
      · exact fun a b hab => ⟨Nat.lt_succ_of_lt hab.1, hab.2⟩
      · exact fun a b hab => ⟨Nat.lt_succ_of_le (Nat.le_of_eq hab.1), hab.2⟩
    · rcases Nat.lt_succ_iff_lt_or_eq.mp hi with hlt | rfl
      · exact (hentries i hlt k hk).congr hframe' fun a b hab => ⟨by omega, fun h' => by omega⟩
      · exact hentries' k hk

theorem base_spec (C : Costs D) (segCost : ℕ → ℕ → D) (n a b : ℕ) :
    (base C segCost n).cost a b = if a < n ∧ b = 1 then segCost 0 a else C.inf := by
  induction n with
  | zero => exact (if_neg fun h => Nat.not_lt_zero a h.1).symm
  | succ n ih =>
    rw [base, List.range_succ, List.foldl_concat]
    show (if a = n ∧ b = 1 then segCost 0 n else (base C segCost n).cost a b) = _
    rw [ih]
    grind

/-- The table is full: its first column is the whole segments, and all others are least. -/
structure Filled (C : Costs D) (segCost : ℕ → ℕ → D) (T : Table D) (n kmax : ℕ) : Prop where
  back : Backwards T
  one : ∀ i < n, T.cost i 1 = segCost 0 i
  entry : ∀ i < n, ∀ k, 2 ≤ k → k ≤ kmax → Entry C segCost T i k

include hC in
theorem fill_filled (segCost : ℕ → ℕ → D) (n kmax : ℕ) :
    Filled C segCost (fill C segCost n kmax) n kmax := by
  have hcols : ∀ k ∈ List.range' 2 (kmax - 1), k ≠ 1 := by
    intro k hk
    have := (List.mem_range'_1.mp hk).1
    omega
  obtain ⟨hframe, hentries⟩ := rows_run hC segCost (T := base C segCost n) (m := n)
    (List.nodup_range' (s := 2) (n := kmax - 1)) fun i _ k hk => by
      rw [base_spec, if_neg fun h => hcols k hk h.2]
  refine ⟨fill_backwards C segCost n kmax, fun i hi => ?_, fun i hi k hk hkmax => ?_⟩
  · have hone := (hframe i 1 fun h => hcols 1 h.2 rfl).1
    rw [base_spec, if_pos ⟨hi, rfl⟩] at hone
    exact hone
  · exact hentries i hi k (List.mem_range'_1.mpr ⟨hk, by omega⟩)

variable {cost : List α → D}

include hC in
/-- No cut costs less than the entry of its length. -/
theorem Filled.le_cut (hT : Filled C segCost T l.length kmax)
    (hcost : ∀ a b, segCost a b = cost (slice l (a, b))) {cut : List (List α)} (hne : cut ≠ [])
    (hsegs : ∀ seg ∈ cut, seg ≠ []) (hk : cut.length ≤ kmax) (hi : i < l.length)
    (hflat : cut.flatten = l.take (i + 1)) :
    C.lt (cutCost C cost cut) (T.cost i cut.length) = false := by
  induction cut using List.reverseRecOn generalizing i with
  | nil => exact absurd rfl hne
  | append_singleton cut seg ih =>
    have hflat' : cut.flatten ++ seg = l.take (i + 1) := by simpa using hflat
    have hlen : cut.flatten.length + seg.length = i + 1 := by
      have := congrArg List.length hflat'
      rw [List.length_append, List.length_take] at this
      omega
    have hseg : 0 < seg.length := List.length_pos_of_ne_nil (hsegs seg (by simp))
    cases hcut : cut with
    | nil =>
      subst hcut
      have hone : T.cost i 1 = cost seg := by
        rw [hT.one i hi, hcost, slice, ← hflat']
        rfl
      show C.lt (cost seg) (T.cost i 1) = false
      rw [hone]
      exact hC.refl _
    | cons first rest =>
      have hcut' : cut ≠ [] := by simp [hcut]
      rw [← hcut, cutCost_concat C cost hcut', List.length_append, List.length_singleton]
      have hpos : 0 < cut.flatten.length := by
        have := List.length_pos_of_ne_nil (hsegs first (by simp [hcut]))
        rw [hcut, List.flatten_cons, List.length_append]
        omega
      -- the last segment starts after `j`
      obtain ⟨j, hj⟩ : ∃ j, cut.flatten.length = j + 1 := ⟨_, (Nat.sub_add_cancel hpos).symm⟩
      have hfront : cut.flatten = l.take (j + 1) := by
        have := congrArg (List.take (j + 1)) hflat'
        rwa [← hj, List.take_left, hj, List.take_take, Nat.min_eq_left (by omega)] at this
      have hlast : slice l (j + 1, i) = seg := by
        rw [slice, ← hflat', ← hj, List.drop_left]
      rw [List.length_append, List.length_singleton] at hk
      have hih := ih hcut' (fun s hs => hsegs s (by simp [hs])) (by omega) (by omega) hfront
      have hentry := hT.entry i hi (cut.length + 1) (by simp [hcut]) hk
      refine hC.trans (hentry.le j (by omega)) ?_
      rw [sumAt, Nat.add_sub_cancel, hcost, hlast]
      exact hC.add_mono _ _ _ hih

include hC in
/-- An entry that is not "impossible" is the cost of the cut that is read back from it. -/
theorem Filled.cost_walk (hT : Filled C segCost T l.length kmax)
    (hcost : ∀ a b, segCost a b = cost (slice l (a, b))) (hi : i < l.length) (h1 : 1 ≤ k)
    (hk : k ≤ kmax) (hfin : k = 1 ∨ C.isInf (T.cost i k) = false) :
    cutCost C cost ((walk T k i).reverse.map (slice l)) = T.cost i k := by
  induction k generalizing i with
  | zero => omega
  | succ k ih =>
    cases k with
    | zero =>
      rw [walk, hT.back.one i]
      exact (hcost 0 i).symm.trans (hT.one i hi).symm
    | succ k =>
      have hfin' : ¬ C.isInf (T.cost i (k + 2)) = true := by simpa using hfin
      obtain ⟨j, hj, hback, hsum⟩ := (hT.entry i hi (k + 2) (by omega) hk).made.resolve_left hfin'
      have hsum : T.cost i (k + 2) = C.add (T.cost j (k + 1)) (segCost (j + 1) i) := hsum
      have hfront : C.isInf (T.cost j (k + 1)) = false := by
        refine Bool.eq_false_iff.mpr fun h => hfin' ?_
        rw [hsum]
        exact hC.add_inf _ _ (.inl h)
      have hne : (walk T (k + 1) j).reverse.map (slice l) ≠ [] := by
        rw [walk]
        split <;> simp
      rw [walk, hback]
      show cutCost C cost (((j + 1, i) :: walk T (k + 1) j).reverse.map (slice l)) = _
      rw [List.reverse_cons, List.map_append, List.map_singleton, cutCost_concat C cost hne,
        ih (by omega) (by omega) (by omega) (.inr hfront), ← hcost, hsum]

include hC in
theorem bestK_run (cost : ℕ → D) (ks : List ℕ) (best : ℕ × D) (hbest : best.2 = cost best.1) :
    let best' := ks.foldl (fun best k => if C.lt (cost k) best.2 then (k, cost k) else best) best
    best'.2 = cost best'.1 ∧
      (best'.1 = best.1 ∨ best'.1 ∈ ks ∧ C.isInf (cost best'.1) = false) ∧
      C.lt best.2 best'.2 = false ∧ ∀ k ∈ ks, C.lt (cost k) best'.2 = false := by
  induction ks generalizing best with
  | nil => exact ⟨hbest, .inl rfl, hC.refl _, fun k hk => absurd hk List.not_mem_nil⟩
  | cons k ks ih =>
    rw [List.foldl_cons]
    split
    · rename_i hlt
      obtain ⟨hcost, hmem, hle, hall⟩ := ih (k, cost k) rfl
      refine ⟨hcost, .inr ?_, hC.trans hle (hC.asymm _ _ hlt), ?_⟩
      · rcases hmem with heq | ⟨hmem, hfin⟩
        · refine ⟨heq ▸ List.mem_cons_self, Bool.eq_false_iff.mpr fun h => ?_⟩
          rw [heq] at h
          exact absurd hlt (Bool.eq_false_iff.mp (hC.le_inf h _))
        · exact ⟨List.mem_cons_of_mem k hmem, hfin⟩
      · intro k' hk'
        cases List.mem_cons.mp hk' with
        | inl heq => exact heq ▸ hle
        | inr hk' => exact hall k' hk'
    · rename_i hlt
      obtain ⟨hcost, hmem, hle, hall⟩ := ih best hbest
      refine ⟨hcost, hmem.imp_right (And.imp_left (List.mem_cons_of_mem k)), hle, ?_⟩
      intro k' hk'
      cases List.mem_cons.mp hk' with
      | inl heq => exact heq ▸ hC.trans hle (Bool.eq_false_iff.mpr hlt)
      | inr hk' => exact hall k' hk'

include hC in
/-- No cut into at most `kmax` segments costs less than the one that is found. -/
theorem segments_least (hcost : ∀ a b, segCost a b = cost (slice l (a, b))) (hl : l ≠ [])
    {cut : List (List α)} (hflat : cut.flatten = l) (hsegs : ∀ seg ∈ cut, seg ≠ [])
    (hk : cut.length ≤ kmax) :
    C.lt (cutCost C cost cut)
      (cutCost C cost ((segments C segCost l.length kmax).map (slice l))) = false := by
  have hn : l.length - 1 < l.length := Nat.sub_lt (List.length_pos_of_ne_nil hl) Nat.one_pos
  have hne : cut ≠ [] := by
    rintro rfl
    exact hl hflat.symm
  have hcut : 1 ≤ cut.length := List.length_pos_of_ne_nil hne
  have hT := fill_filled hC segCost l.length kmax
  obtain ⟨hbest, hmem, hone, hall⟩ := bestK_run hC
    ((fill C segCost l.length kmax).cost (l.length - 1))
    (List.range' 2 (kmax - 1)) (1, (fill C segCost l.length kmax).cost (l.length - 1) 1) rfl
  rw [segments, hT.cost_walk hC hcost hn (one_le_bestK C _ _ _)]
  · refine hC.trans ?_ (hT.le_cut hC hcost hne hsegs hk hn ?_)
    · show C.lt _ (_ : D) = false
      rw [bestK, ← hbest]
      rcases Nat.lt_or_eq_of_le hcut with hlt | heq
      · exact hall _ (List.mem_range'_1.mpr ⟨hlt, by omega⟩)
      · exact heq ▸ hone
    · rw [Nat.sub_add_cancel (by omega), List.take_length]
      exact hflat
  · exact bestK_le C _ _ (Nat.le_trans hcut hk)
  · exact hmem.imp_right And.right

end Least

end Gehtp.Lib.SplitPoints
