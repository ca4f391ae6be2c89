import Mathlib.Algebra.Order.BigOperators.Group.List
import Mathlib.Tactic.Linarith
import Gehtp.Model.Sampler

/-!
# Nucleus sampling

The tokens of the nucleus go through a set, and the sorted probabilities are handed out in the order
in which the set gives the tokens back. Each token gets its own probability exactly if that order
goes from the most probable token to the least probable one. Drawing with 0 gives the token 0,
whether it is in the nucleus or not.
-/

set_option autoImplicit false

namespace Gehtp.Analysis.Nucleus

open Model.Sampler

/-! ### The nucleus -/

/-- The shortest beginning of the candidates whose sum reaches `top_p`, all of them if none does. -/
structure IsNucleus (probs : List ℚ) (topP : ℚ) (topK : ℕ) (l : List (ℚ × ℕ)) : Prop where
  pre : l <+: candidates probs topK
  reaches : topP ≤ (l.map Prod.fst).sum ∨ l = candidates probs topK
  shortest : ∀ k < l.length, ((l.take k).map Prod.fst).sum < topP

variable {probs : List ℚ} {topP r : ℚ} {topK : ℕ} {l l' : List (ℚ × ℕ)}

theorem IsNucleus.length_le (h : IsNucleus probs topP topK l) (h' : IsNucleus probs topP topK l') :
    l.length ≤ l'.length := by
  by_contra hlt
  have htake : l' = l.take l'.length := by
    rw [List.prefix_iff_eq_take.mp h.pre, List.take_take, Nat.min_eq_left (by omega)]
    exact List.prefix_iff_eq_take.mp h'.pre
  have hsum := h.shortest l'.length (by omega)
  rw [← htake] at hsum
  obtain hreach | hall := h'.reaches
  · exact absurd hreach (not_le.mpr hsum)
  · have hle := h.pre.length_le
    rw [← hall] at hle
    omega

theorem IsNucleus.unique (h : IsNucleus probs topP topK l) (h' : IsNucleus probs topP topK l') :
    l = l' := by
  rw [List.prefix_iff_eq_take.mp h.pre, List.prefix_iff_eq_take.mp h'.pre,
    (h.length_le h').antisymm (h'.length_le h)]

theorem cutoffIdx_spec (topP : ℚ) (l : List (ℚ × ℕ)) (cum : ℚ) (hcum : cum < topP) :
    (topP ≤ cum + ((l.take (cutoffIdx topP cum l)).map Prod.fst).sum ∨
      l.length ≤ cutoffIdx topP cum l) ∧
    ∀ k < cutoffIdx topP cum l, cum + ((l.take k).map Prod.fst).sum < topP := by
  induction l generalizing cum with
  | nil => exact ⟨Or.inr le_rfl, fun k hk => absurd hk (Nat.not_lt_zero k)⟩
  | cons e l ih =>
    rw [cutoffIdx]
    by_cases hreach : topP ≤ cum + e.1
    · rw [if_pos hreach]
      refine ⟨Or.inl (by simpa using hreach), fun k hk => ?_⟩
      obtain rfl : k = 0 := Nat.lt_one_iff.mp hk
      simpa using hcum
    · rw [if_neg hreach]
      obtain ⟨hend, hbefore⟩ := ih (cum + e.1) (not_le.mp hreach)
      constructor
      · rw [List.take_succ_cons, List.map_cons, List.sum_cons, List.length_cons, ← add_assoc]
        exact hend.imp_right Nat.succ_le_succ
      · intro k hk
        cases k with
        | zero => simpa using hcum
        | succ k =>
          rw [List.take_succ_cons, List.map_cons, List.sum_cons, ← add_assoc]
          exact hbefore k (Nat.lt_of_succ_lt_succ hk)

theorem kept_isNucleus (probs : List ℚ) (topK : ℕ) (htop : 0 < topP) :
    IsNucleus probs topP topK (kept probs topP topK) := by
  obtain ⟨hend, hbefore⟩ := cutoffIdx_spec topP (candidates probs topK) 0 htop
  refine ⟨List.take_prefix _ _, ?_, fun k hk => ?_⟩
  · rw [zero_add] at hend
    exact hend.imp_right List.take_of_length_le
  · rw [kept, List.length_take] at hk
    have hk' : k < cutoffIdx topP 0 (candidates probs topK) := by omega
    have hsum := hbefore k hk'
    rwa [zero_add, ← Nat.min_eq_left hk'.le, ← List.take_take] at hsum

/-! ### The candidates -/

theorem candidates_isPrefix (probs : List ℚ) (topK : ℕ) :
    candidates probs topK <+: candidates probs 0 := by
  rw [candidates, candidates]
  rw [if_neg (Nat.lt_irrefl 0)]
  split
  · exact List.take_prefix _ _
  · exact List.prefix_refl _

theorem candidates_perm (probs : List ℚ) : (candidates probs 0).Perm probs.zipIdx :=
  List.perm_insertionSort _ _

instance totalFst : Std.Total fun a b : ℚ × ℕ => b.1 ≤ a.1 := ⟨fun a b => le_total b.1 a.1⟩

instance transFst : IsTrans (ℚ × ℕ) fun a b => b.1 ≤ a.1 := ⟨fun _ _ _ hab hbc => hbc.trans hab⟩

theorem candidates_sorted (probs : List ℚ) :
    (candidates probs 0).Pairwise fun a b => b.1 ≤ a.1 :=
  List.pairwise_insertionSort _ _

theorem mem_candidates {p : ℚ} {t : ℕ} : (p, t) ∈ candidates probs 0 ↔ probs[t]? = some p := by
  rw [(candidates_perm probs).mem_iff, List.mem_zipIdx_iff_getElem?]

theorem candidates_nodup (probs : List ℚ) : ((candidates probs 0).map Prod.snd).Nodup := by
  rw [((candidates_perm probs).map Prod.snd).nodup_iff, List.zipIdx_map_snd]
  exact List.nodup_range'

theorem candidates_sum (probs : List ℚ) : ((candidates probs 0).map Prod.fst).sum = probs.sum := by
  rw [((candidates_perm probs).map Prod.fst).sum_eq, List.zipIdx_map_fst]

theorem kept_isPrefix (probs : List ℚ) (topP : ℚ) (topK : ℕ) :
    kept probs topP topK <+: candidates probs 0 :=
  (List.take_prefix _ _).trans (candidates_isPrefix probs topK)

/-! ### The probabilities of the nucleus -/

/-- Probabilities that sum to 1. -/
structure Distribution (probs : List ℚ) : Prop where
  nonneg : ∀ p ∈ probs, 0 ≤ p
  total : probs.sum = 1

theorem candidate_nonneg (h : Distribution probs) {e : ℚ × ℕ} (he : e ∈ candidates probs 0) :
    0 ≤ e.1 :=
  h.nonneg e.1 (List.mem_of_getElem? (mem_candidates.mp he))

theorem kept_getElem? {e : ℚ × ℕ} (he : e ∈ kept probs topP topK) : probs[e.2]? = some e.1 :=
  mem_candidates.mp ((kept_isPrefix probs topP topK).subset he)

theorem kept_nodup (probs : List ℚ) (topP : ℚ) (topK : ℕ) :
    ((kept probs topP topK).map Prod.snd).Nodup :=
  (candidates_nodup probs).sublist ((kept_isPrefix probs topP topK).sublist.map Prod.snd)

/-- Every token of the nucleus is possible: before the possible ones are over, their sum is not
reached. -/
theorem kept_pos (h : Distribution probs) (htop : 0 < topP) (htop' : topP ≤ 1) {e : ℚ × ℕ}
    (he : e ∈ kept probs topP topK) : 0 < e.1 := by
  obtain ⟨k, hk, rfl⟩ := List.getElem_of_mem he
  obtain ⟨rest, hrest⟩ := kept_isPrefix probs topP topK
  have hsum := (kept_isNucleus probs topK htop).shortest k hk
  by_contra hzero
  -- all that comes behind the token is at most 0 as well
  have hsplit : candidates probs 0 =
      (kept probs topP topK).take k ++ ((kept probs topP topK).drop k ++ rest) := by
    rw [← List.append_assoc, List.take_append_drop, hrest]
  have hsorted := candidates_sorted probs
  rw [hsplit, List.drop_eq_getElem_cons hk, List.cons_append, List.pairwise_append] at hsorted
  have htail : (((kept probs topP topK).drop k ++ rest).map Prod.fst).sum ≤ 0 := by
    refine (List.sum_le_card_nsmul _ 0 fun p hp => ?_).trans_eq (nsmul_zero _)
    obtain ⟨e', he', rfl⟩ := List.mem_map.mp hp
    rw [List.drop_eq_getElem_cons hk, List.cons_append, List.mem_cons] at he'
    obtain rfl | he' := he'
    · exact not_lt.mp hzero
    · exact ((List.pairwise_cons.mp hsorted.2.1).1 e' he').trans (not_lt.mp hzero)
  have hone : ((candidates probs 0).map Prod.fst).sum = 1 := (candidates_sum probs).trans h.total
  rw [hsplit, List.map_append, List.sum_append] at hone
  linarith

theorem kept_ne_nil (h : Distribution probs) (htop : 0 < topP) : kept probs topP topK ≠ [] := by
  intro hnil
  have hnucleus := kept_isNucleus probs topK htop
  rw [hnil] at hnucleus
  obtain hreach | hall := hnucleus.reaches
  · rw [List.map_nil, List.sum_nil] at hreach
    exact absurd hreach (not_le.mpr htop)
  · have hempty : candidates probs 0 = [] := by
      unfold candidates at hall
      rw [candidates, if_neg (Nat.lt_irrefl 0)]
      split at hall
      · next hpos => exact (List.take_eq_nil_iff.mp hall.symm).resolve_left (by omega)
      · exact hall.symm
    have hsum := (candidates_sum probs).trans h.total
    rw [hempty, List.map_nil, List.sum_nil] at hsum
    exact absurd hsum (by norm_num)

theorem kept_sum_pos (h : Distribution probs) (htop : 0 < topP) (htop' : topP ≤ 1) :
    0 < ((kept probs topP topK).map Prod.fst).sum := by
  apply List.sum_pos
  · intro p hp
    obtain ⟨e, he, rfl⟩ := List.mem_map.mp hp
    exact kept_pos h htop htop' he
  · simpa using kept_ne_nil h htop

/-! ### Handing out the probabilities -/

section Fill

variable {es : List (ℕ × ℚ)} {f : List ℚ}

theorem foldl_set_length (es : List (ℕ × ℚ)) (f : List ℚ) :
    (es.foldl (fun f e => f.set e.1 e.2) f).length = f.length := by
  induction es generalizing f with
  | nil => rfl
  | cons e es ih => rw [List.foldl_cons, ih, List.length_set]

theorem foldl_set_of_notMem {j : ℕ} (hj : j ∉ es.map Prod.fst) :
    (es.foldl (fun f e => f.set e.1 e.2) f)[j]? = f[j]? := by
  induction es generalizing f with
  | nil => rfl
  | cons e es ih =>
    rw [List.map_cons, List.mem_cons, not_or] at hj
    rw [List.foldl_cons, ih hj.2, List.getElem?_set_ne (Ne.symm hj.1)]

theorem foldl_set_of_mem (hnd : (es.map Prod.fst).Nodup) {e : ℕ × ℚ} (he : e ∈ es)
    (hlt : e.1 < f.length) : (es.foldl (fun f e => f.set e.1 e.2) f)[e.1]? = some e.2 := by
  induction es generalizing f with
  | nil => exact absurd he List.not_mem_nil
  | cons e' es ih =>
    rw [List.map_cons, List.nodup_cons] at hnd
    rw [List.foldl_cons]
    cases List.mem_cons.mp he with
    | inl heq => rw [heq, foldl_set_of_notMem hnd.1, List.getElem?_set_self (heq ▸ hlt)]
    | inr hmem => exact ih hnd.2 hmem (by rwa [List.length_set])

theorem foldl_set_sum (hnd : (es.map Prod.fst).Nodup) (hzero : ∀ e ∈ es, f[e.1]? = some 0) :
    (es.foldl (fun f e => f.set e.1 e.2) f).sum = f.sum + (es.map Prod.snd).sum := by
  induction es generalizing f with
  | nil => simp
  | cons e es ih =>
    rw [List.map_cons, List.nodup_cons] at hnd
    obtain ⟨hlt, hval⟩ := List.getElem?_eq_some_iff.mp (hzero e List.mem_cons_self)
    have hset : (f.set e.1 e.2).sum = f.sum + e.2 := by
      rw [List.sum_set', dif_pos hlt, hval, neg_zero, zero_add]
    have hrest : ∀ e' ∈ es, (f.set e.1 e.2)[e'.1]? = some 0 := by
      intro e' he'
      have hne : e.1 ≠ e'.1 := fun heq => hnd.1 (heq ▸ List.mem_map_of_mem he')
      rw [List.getElem?_set_ne hne]
      exact hzero e' (List.mem_cons_of_mem e he')
    rw [List.foldl_cons, ih hnd.2 hrest, hset, List.map_cons, List.sum_cons, add_assoc]

end Fill

/-! ### What the tokens get -/

/-- Each token of the nucleus gets its probability divided by the sum of the nucleus, every other
token gets 0. -/
def FilterRight (probs : List ℚ) (topP : ℚ) (topK : ℕ) (out : List ℚ) : Prop :=
  ∃ l, IsNucleus probs topP topK l ∧ out.length = probs.length ∧ ∀ (i : ℕ) (hi : i < probs.length),
    out[i]? = some (if i ∈ l.map Prod.snd then probs[i] / (l.map Prod.fst).sum else 0)

/-- The tokens come in the order of their probabilities, the greatest first. -/
def Descends (probs : List ℚ) (tokens : List ℕ) : Prop :=
  (tokens.map fun t => probs.getD t 0).Pairwise (· ≥ ·)

variable {order : SetOrder}

theorem allowed_perm (order : SetOrder) (probs : List ℚ) (topP : ℚ) (topK : ℕ) :
    (allowed order probs topP topK).Perm ((kept probs topP topK).map Prod.snd) := by
  have hperm := order.perm ((kept probs topP topK).map Prod.snd)
  rwa [(kept_nodup probs topP topK).dedup] at hperm

theorem kept_probs (probs : List ℚ) (topP : ℚ) (topK : ℕ) :
    ((kept probs topP topK).map Prod.snd).map (fun t => probs.getD t 0) =
      (kept probs topP topK).map Prod.fst := by
  rw [List.map_map]
  apply List.map_congr_left
  intro e he
  rw [Function.comp_apply, List.getD_eq_getElem?_getD, kept_getElem? he, Option.getD_some]

theorem descends_iff :
    Descends probs (allowed order probs topP topK) ↔
      (allowed order probs topP topK).map (fun t => probs.getD t 0) =
        (kept probs topP topK).map Prod.fst := by
  have hsorted : ((kept probs topP topK).map Prod.fst).Pairwise (· ≥ ·) := by
    rw [List.pairwise_map]
    exact (candidates_sorted probs).sublist (kept_isPrefix probs topP topK).sublist
  constructor
  · intro h
    have hperm := (allowed_perm order probs topP topK).map fun t => probs.getD t 0
    rw [kept_probs] at hperm
    exact hperm.eq_of_pairwise (fun a b _ _ hab hba => le_antisymm hba hab) h hsorted
  · intro h
    rw [Descends, h]
    exact hsorted

def given (order : SetOrder) (probs : List ℚ) (topP : ℚ) (topK : ℕ) : List (ℕ × ℚ) :=
  (allowed order probs topP topK).zip ((kept probs topP topK).map Prod.fst)

theorem allowed_length (order : SetOrder) (probs : List ℚ) (topP : ℚ) (topK : ℕ) :
    (allowed order probs topP topK).length = ((kept probs topP topK).map Prod.fst).length := by
  rw [(allowed_perm order probs topP topK).length_eq, List.length_map, List.length_map]

theorem given_tokens (order : SetOrder) (probs : List ℚ) (topP : ℚ) (topK : ℕ) :
    (given order probs topP topK).map Prod.fst = allowed order probs topP topK :=
  List.map_fst_zip (allowed_length order probs topP topK).le

theorem given_probs (order : SetOrder) (probs : List ℚ) (topP : ℚ) (topK : ℕ) :
    (given order probs topP topK).map Prod.snd = (kept probs topP topK).map Prod.fst :=
  List.map_snd_zip (allowed_length order probs topP topK).ge

theorem given_nodup (order : SetOrder) (probs : List ℚ) (topP : ℚ) (topK : ℕ) :
    ((given order probs topP topK).map Prod.fst).Nodup := by
  rw [given_tokens, (allowed_perm order probs topP topK).nodup_iff]
  exact kept_nodup probs topP topK

theorem mem_given (order : SetOrder) (probs : List ℚ) (topP : ℚ) (topK i : ℕ) :
    i ∈ (given order probs topP topK).map Prod.fst ↔ i ∈ (kept probs topP topK).map Prod.snd := by
  rw [given_tokens, (allowed_perm order probs topP topK).mem_iff]

theorem given_lt {e : ℕ × ℚ} (he : e ∈ given order probs topP topK) : e.1 < probs.length := by
  have hmem := (mem_given order probs topP topK e.1).mp (List.mem_map_of_mem he)
  obtain ⟨e', he', heq⟩ := List.mem_map.mp hmem
  rw [← heq]
  exact (List.getElem?_eq_some_iff.mp (kept_getElem? he')).1

theorem given_right_iff :
    (allowed order probs topP topK).map (fun t => probs.getD t 0) =
        (kept probs topP topK).map Prod.fst ↔
      ∀ e ∈ given order probs topP topK, probs[e.1]? = some e.2 := by
  rw [← given_tokens order probs topP topK, ← given_probs order probs topP topK, List.map_map]
  constructor
  · intro h e he
    have hval := List.map_inj_left.mp h e he
    have hlt := given_lt he
    rw [Function.comp_apply, List.getD_eq_getElem?_getD, List.getElem?_eq_getElem hlt,
      Option.getD_some] at hval
    rw [List.getElem?_eq_getElem hlt, hval]
  · intro h
    apply List.map_congr_left
    intro e he
    rw [Function.comp_apply, List.getD_eq_getElem?_getD, h e he, Option.getD_some]

theorem fill_sum (order : SetOrder) (probs : List ℚ) (topP : ℚ) (topK : ℕ) :
    (fill probs.length (allowed order probs topP topK) ((kept probs topP topK).map Prod.fst)).sum =
      ((kept probs topP topK).map Prod.fst).sum := by
  have hzero : ∀ e ∈ given order probs topP topK,
      (List.replicate probs.length (0 : ℚ))[e.1]? = some 0 := by
    intro e he
    rw [List.getElem?_replicate, if_pos (given_lt he)]
  have hsum := foldl_set_sum (given_nodup order probs topP topK) hzero
  rw [given_probs, List.sum_replicate, nsmul_zero, zero_add] at hsum
  exact hsum

/-- What the tokens have in the end, when there is something to cut. -/
structure Filtered (order : SetOrder) (probs : List ℚ) (topP : ℚ) (topK : ℕ) (out : List ℚ) :
    Prop where
  length : out.length = probs.length
  total : out.sum = 1
  own : ∀ e ∈ given order probs topP topK,
    out[e.1]? = some (e.2 / ((kept probs topP topK).map Prod.fst).sum)
  others : ∀ i < probs.length, i ∉ (kept probs topP topK).map Prod.snd → out[i]? = some 0

theorem filtered (order : SetOrder) (h : Distribution probs) (htop : 0 < topP) (htop' : topP ≤ 1)
    (hcut : ¬ (topK = 0 ∧ 1 ≤ topP)) :
    Filtered order probs topP topK (topKTopPFiltering order probs topP topK) := by
  have hpos : 0 < ((kept probs topP topK).map Prod.fst).sum := kept_sum_pos h htop htop'
  rw [topKTopPFiltering, if_neg hcut, normalise, fill_sum, if_pos hpos]
  constructor
  · rw [List.length_map, fill, foldl_set_length, List.length_replicate]
  · have hdiv : ∀ l : List ℚ, ∀ q : ℚ, (l.map (· / q)).sum = l.sum / q := by
      intro l q
      induction l with
      | nil => simp
      | cons x l ih => rw [List.map_cons, List.sum_cons, List.sum_cons, ih, add_div]
    rw [hdiv, fill_sum, div_self hpos.ne']
  · intro e he
    have hval := foldl_set_of_mem (f := List.replicate probs.length 0)
      (given_nodup order probs topP topK) he (by rw [List.length_replicate]; exact given_lt he)
    rw [List.getElem?_map]
    exact congrArg (Option.map _) hval
  · intro i hi hnot
    have hval := foldl_set_of_notMem (f := List.replicate probs.length 0)
      (mt (mem_given order probs topP topK i).mp hnot)
    rw [List.getElem?_replicate, if_pos hi] at hval
    rw [List.getElem?_map]
    refine (congrArg (Option.map _) hval).trans ?_
    rw [Option.map_some, zero_div]

theorem Filtered.right_iff {out : List ℚ} (h : Filtered order probs topP topK out)
    (hdist : Distribution probs) (htop : 0 < topP) (htop' : topP ≤ 1) :
    FilterRight probs topP topK out ↔ Descends probs (allowed order probs topP topK) := by
  have hpos : 0 < ((kept probs topP topK).map Prod.fst).sum := kept_sum_pos hdist htop htop'
  rw [descends_iff, given_right_iff]
  constructor
  · rintro ⟨l, hl, -, hcells⟩ e he
    obtain rfl := hl.unique (kept_isNucleus probs topK htop)
    have hlt := given_lt he
    have hin := (mem_given order probs topP topK e.1).mp (List.mem_map_of_mem he)
    have hcell := (h.own e he).symm.trans (hcells e.1 hlt)
    rw [if_pos hin, Option.some.injEq, div_left_inj' hpos.ne'] at hcell
    rw [List.getElem?_eq_getElem hlt, hcell]
  · intro hright
    refine ⟨kept probs topP topK, kept_isNucleus probs topK htop, h.length, fun i hi => ?_⟩
    by_cases hin : i ∈ (kept probs topP topK).map Prod.snd
    · obtain ⟨e, he, rfl⟩ := List.mem_map.mp ((mem_given order probs topP topK i).mpr hin)
      have hval := hright e he
      rw [List.getElem?_eq_getElem hi, Option.some.injEq] at hval
      rw [if_pos hin, h.own e he, hval]
    · rw [if_neg hin, h.others i hi hin]

theorem uncut_right (h : Distribution probs) : FilterRight probs 1 0 probs := by
  have hnucleus : IsNucleus probs 1 0 (kept probs 1 0) := kept_isNucleus probs 0 one_pos
  have htotal : ((candidates probs 0).map Prod.fst).sum = 1 := (candidates_sum probs).trans h.total
  obtain ⟨rest, hrest⟩ := kept_isPrefix probs 1 0
  have hnonneg : ∀ e ∈ rest, 0 ≤ e.1 := fun e he =>
    candidate_nonneg h (hrest ▸ List.mem_append_right _ he)
  have hsplit := htotal
  rw [← hrest, List.map_append, List.sum_append] at hsplit
  have hrest_nonneg : 0 ≤ (rest.map Prod.fst).sum := by
    apply List.sum_nonneg
    intro p hp
    obtain ⟨e, he, rfl⟩ := List.mem_map.mp hp
    exact hnonneg e he
  have hone : ((kept probs 1 0).map Prod.fst).sum = 1 := by
    obtain hreach | hall := hnucleus.reaches
    · linarith
    · rw [hall, htotal]
  refine ⟨kept probs 1 0, hnucleus, rfl, fun i hi => ?_⟩
  rw [List.getElem?_eq_getElem hi, hone, div_one]
  by_cases hin : i ∈ (kept probs 1 0).map Prod.snd
  · rw [if_pos hin]
  · rw [if_neg hin]
    have hmem : (probs[i], i) ∈ candidates probs 0 :=
      mem_candidates.mpr (List.getElem?_eq_getElem hi)
    rw [← hrest, List.mem_append] at hmem
    have htail : (probs[i], i) ∈ rest :=
      hmem.resolve_left fun hk => hin (List.mem_map.mpr ⟨_, hk, rfl⟩)
    have hle : probs[i] ≤ (rest.map Prod.fst).sum := by
      apply List.single_le_sum
      · intro p hp
        obtain ⟨e, he, rfl⟩ := List.mem_map.mp hp
        exact hnonneg e he
      · exact List.mem_map.mpr ⟨_, htail, rfl⟩
    have hzero : probs[i] = 0 := by
      have := h.nonneg _ (List.getElem_mem hi)
      linarith
    rw [hzero]

/-! ### Drawing a token -/

theorem sampleLoop_pos (ps : List ℚ) (cum : ℚ) (i : ℕ) (hr : cum < r) (hsum : r ≤ cum + ps.sum) :
    ∃ j p, sampleLoop r cum i ps = some (i + j, p) ∧ ps[j]? = some p ∧ 0 < p := by
  induction ps generalizing cum i with
  | nil =>
    rw [List.sum_nil, add_zero] at hsum
    exact absurd hr (not_lt.mpr hsum)
  | cons p ps ih =>
    rw [sampleLoop]
    by_cases hle : r ≤ cum + p
    · rw [if_pos hle]
      exact ⟨0, p, rfl, rfl, by linarith⟩
    · rw [if_neg hle]
      rw [List.sum_cons, ← add_assoc] at hsum
      obtain ⟨j, q, hrun, hget, hpos⟩ := ih (cum + p) (i + 1) (not_le.mp hle) hsum
      refine ⟨j + 1, q, ?_, hget, hpos⟩
      rw [hrun, Nat.add_right_comm, Nat.add_assoc]

theorem sampleProbs_pos {out : List ℚ} (htotal : out.sum = 1) (hr : 0 < r) (hr' : r < 1) :
    0 < out.getD (sampleProbs out r).1 0 := by
  obtain ⟨j, p, hrun, hget, hpos⟩ := sampleLoop_pos out 0 0 hr (by rw [zero_add, htotal]; exact hr'.le)
  rw [sampleProbs, hrun, Option.getD_some, List.getD_eq_getElem?_getD, Nat.zero_add, hget]
  exact hpos

theorem sampleProbs_zero {out : List ℚ} (hnonneg : ∀ p ∈ out, 0 ≤ p) (hne : out ≠ []) :
    (sampleProbs out 0).1 = 0 := by
  cases out with
  | nil => exact absurd rfl hne
  | cons p ps =>
    have hle : (0 : ℚ) ≤ 0 + p := by
      rw [zero_add]
      exact hnonneg p List.mem_cons_self
    rw [sampleProbs, sampleLoop, if_pos hle, Option.getD_some]

theorem sampled_pos_iff {out : List ℚ} (h : FilterRight probs topP topK out) (htotal : out.sum = 1)
    (hdist : Distribution probs) (htop : 0 < topP) (htop' : topP ≤ 1) (hr : 0 ≤ r) (hr' : r < 1) :
    0 < out.getD (sampleProbs out r).1 0 ↔
      0 < r ∨ 0 ∈ (kept probs topP topK).map Prod.snd := by
  obtain ⟨l, hl, hlen, hcells⟩ := h
  obtain rfl := hl.unique (kept_isNucleus probs topK htop)
  have hpos : 0 < ((kept probs topP topK).map Prod.fst).sum := kept_sum_pos hdist htop htop'
  obtain hlt | rfl := lt_or_eq_of_le hr
  · exact iff_of_true (sampleProbs_pos htotal hlt hr') (Or.inl hlt)
  · have hne : probs ≠ [] := by
      rintro rfl
      exact absurd hdist.total (by simp)
    have hfirst : 0 < probs.length := List.length_pos_iff.mpr hne
    have hnonneg : ∀ p ∈ out, 0 ≤ p := by
      intro p hp
      obtain ⟨i, hi, rfl⟩ := List.getElem_of_mem hp
      have hcell := hcells i (hlen ▸ hi)
      rw [List.getElem?_eq_getElem hi, Option.some.injEq] at hcell
      rw [hcell]
      split
      · exact div_nonneg (hdist.nonneg _ (List.getElem_mem _)) hpos.le
      · exact le_rfl
    rw [sampleProbs_zero hnonneg (by rintro rfl; exact absurd hlen (by simp [hfirst.ne])),
      List.getD_eq_getElem?_getD, hcells 0 hfirst, Option.getD_some]
    simp only [lt_irrefl, false_or]
    split
    · next hin =>
      obtain ⟨e, he, heq⟩ := List.mem_map.mp hin
      have hval := kept_getElem? he
      rw [heq, List.getElem?_eq_getElem hfirst, Option.some.injEq] at hval
      rw [hval]
      exact iff_of_true (div_pos (kept_pos hdist htop htop' he) hpos) hin
    · next hout => exact iff_of_false (lt_irrefl 0) hout

/-- The filter gives every token its probability, and a possible token is drawn, exactly if the set
of the nucleus is gone through from the most probable token to the least probable one, where there
is something to cut, and the number drawn is not 0, unless the token 0 is in the nucleus. -/
theorem nucleus_iff (order : SetOrder) (probs : List ℚ) (topP : ℚ) (topK : ℕ) (r : ℚ)
    (hdist : Distribution probs) (htop : 0 < topP) (htop' : topP ≤ 1) (hr : 0 ≤ r) (hr' : r < 1) :
    (FilterRight probs topP topK (topKTopPFiltering order probs topP topK) ∧
      0 < (topKTopPFiltering order probs topP topK).getD
        (sampleProbs (topKTopPFiltering order probs topP topK) r).1 0) ↔
    ∃ l, IsNucleus probs topP topK l ∧
      ((topK = 0 ∧ topP = 1) ∨ Descends probs (order.iterate (l.map Prod.snd))) ∧
      (0 < r ∨ 0 ∈ l.map Prod.snd) := by
  have hnucleus := kept_isNucleus probs topK htop
  have hcond : (∃ l, IsNucleus probs topP topK l ∧
      ((topK = 0 ∧ topP = 1) ∨ Descends probs (order.iterate (l.map Prod.snd))) ∧
      (0 < r ∨ 0 ∈ l.map Prod.snd)) ↔
      ((topK = 0 ∧ topP = 1) ∨ Descends probs (allowed order probs topP topK)) ∧
        (0 < r ∨ 0 ∈ (kept probs topP topK).map Prod.snd) := by
    constructor
    · rintro ⟨l, hl, hrest⟩
      obtain rfl := hl.unique hnucleus
      exact hrest
    · exact fun hrest => ⟨_, hnucleus, hrest⟩
  rw [hcond]
  by_cases hcut : topK = 0 ∧ 1 ≤ topP
  · obtain ⟨rfl, hle⟩ := hcut
    obtain rfl : topP = 1 := le_antisymm htop' hle
    have hout : topKTopPFiltering order probs 1 0 = probs := if_pos ⟨rfl, le_rfl⟩
    have hright := uncut_right hdist
    rw [hout, sampled_pos_iff hright hdist.total hdist htop htop' hr hr']
    simp [hright]
  · have hout := filtered order hdist htop htop' hcut
    have hnot : ¬ (topK = 0 ∧ topP = 1) := fun h => hcut ⟨h.1, h.2.ge⟩
    rw [← hout.right_iff hdist htop htop', or_iff_right hnot]
    exact and_congr_right fun hright => sampled_pos_iff hright hout.total hdist htop htop' hr hr'

/-- A set that gives its elements back in ascending order. -/
def ascending : SetOrder where
  iterate l := l.dedup.insertionSort (· ≤ ·)
  perm _ := List.perm_insertionSort _ _

/-- Four tokens, of which the first two make up four fifths. -/
theorem descending_right :
    let probs : List ℚ := [1 / 2, 3 / 10, 1 / 10, 1 / 10]
    FilterRight probs (7 / 10) 0 (topKTopPFiltering ascending probs (7 / 10) 0) ∧
      0 < (topKTopPFiltering ascending probs (7 / 10) 0).getD
        (sampleProbs (topKTopPFiltering ascending probs (7 / 10) 0) 0).1 0 := by
  intro probs
  have hkept : kept probs (7 / 10) 0 = [(1 / 2, 0), (3 / 10, 1)] := by
    decide +kernel
  refine (nucleus_iff ascending probs (7 / 10) 0 0 ⟨by decide +kernel, by decide +kernel⟩
    (by norm_num) (by norm_num) le_rfl one_pos).mpr ⟨[(1 / 2, 0), (3 / 10, 1)], ?_, Or.inr ?_, Or.inr ?_⟩
  · rw [← hkept]
    exact kept_isNucleus probs 0 (by norm_num)
  · unfold Descends
    decide +kernel
  · decide

/-- The tokens 3 and 1 make up four fifths, and the set gives them back as 1 and 3: each gets the
probability of the other. -/
theorem swapped_not_right :
    let probs : List ℚ := [1 / 10, 3 / 10, 1 / 10, 1 / 2]
    ¬ (FilterRight probs (7 / 10) 0 (topKTopPFiltering ascending probs (7 / 10) 0) ∧
      0 < (topKTopPFiltering ascending probs (7 / 10) 0).getD
        (sampleProbs (topKTopPFiltering ascending probs (7 / 10) 0) (1 / 2)).1 0) := by
  rintro probs ⟨hright, -⟩
  have hdist : Distribution probs := ⟨by decide +kernel, by decide +kernel⟩
  have hout : Filtered ascending probs (7 / 10) 0
      (topKTopPFiltering ascending probs (7 / 10) 0) :=
    filtered ascending hdist (by norm_num) (by norm_num) (by norm_num)
  rw [hout.right_iff hdist (by norm_num) (by norm_num)] at hright
  revert hright
  unfold Descends
  decide +kernel

end Gehtp.Analysis.Nucleus
