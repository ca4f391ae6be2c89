import Mathlib.Algebra.BigOperators.Group.List.Basic
import Mathlib.Algebra.Order.Ring.Nat
import Mathlib.Data.List.Perm.Subperm
import Gehtp.Lib.Sequences
import Gehtp.Model.McastOptimizer

/-!
# The members of merged multicast sends

A supercast is what its members make of it, taken in one after the other. The greedy pass compares
a send with the first member only, by a count that a repeated receiver distorts, and adds the
payloads in 64 bits. The result is right exactly when each send that joins fits the members the
pass does not look at.
-/

set_option autoImplicit false

namespace Gehtp.Analysis.McastGroups

open Lib.Keyed Model.McastOptimizer

/-! ### Receivers -/

section Receivers

/-- Two sets of receivers that one send may serve. -/
def Compatible (ra rb : List UInt32) : Prop := List.Disjoint ra rb ∨ ra ⊆ rb ∨ rb ⊆ ra

theorem mem_appendNew (x : UInt32) (xs ys : List UInt32) :
    x ∈ appendNew xs ys ↔ x ∈ xs ∨ x ∈ ys := by
  induction ys generalizing xs with
  | nil => simp [appendNew]
  | cons y ys ih =>
    have hstep : appendNew xs (y :: ys) = appendNew (if y ∈ xs then xs else xs ++ [y]) ys := rfl
    rw [hstep, ih, List.mem_cons]
    by_cases hy : y ∈ xs
    · rw [if_pos hy]
      constructor
      · rintro (h | h)
        · exact Or.inl h
        · exact Or.inr (Or.inr h)
      · rintro (h | rfl | h)
        · exact Or.inl h
        · exact Or.inl hy
        · exact Or.inr h
    · rw [if_neg hy, List.mem_append, List.mem_singleton, or_assoc]

/-- There are `2 ^ 32` receivers. -/
theorem length_le_of_nodup {l : List UInt32} (h : l.Nodup) : l.length ≤ 2 ^ 32 := by
  have hnodup : (l.map UInt32.toNat).Nodup := h.map fun _ _ => UInt32.toNat_inj.mp
  have hsub : l.map UInt32.toNat ⊆ List.range (2 ^ 32) := by
    intro x hx
    obtain ⟨r, -, rfl⟩ := List.mem_map.mp hx
    exact List.mem_range.mpr r.toNat_lt
  have hle := (List.subperm_of_subset hnodup hsub).length_le
  rwa [List.length_map, List.length_range] at hle

/-- Two counts of receivers that agree as `int`, the smaller one not zero. -/
theorem eq_of_bmod {m n : ℕ} (hle : m ≤ n) (hn : n ≤ 2 ^ 32) (hm : 0 < m)
    (h : Int.bmod m (2 ^ 32) = Int.bmod n (2 ^ 32)) : m = n := by
  have hmod := Int.bmod_eq_bmod_iff_bmod_sub_eq_zero.mp h
  have hdvd := Int.dvd_of_bmod_eq_zero hmod
  omega

/-- The count settles the matter for receivers that are listed once: it wraps only when every
receiver is meant. -/
theorem compatible_of_no_conflict {ra rb : List UInt32} (hrb : rb.Nodup)
    (h : receiversConflict ra rb = false) : Compatible ra rb := by
  have hset : ∀ r, r ∈ ra.dedup ↔ r ∈ ra := fun r => List.mem_dedup
  have hall : (rb.countP fun r => r ∈ ra.dedup) = rb.length → Compatible ra rb := by
    intro heq
    rw [List.countP_eq_length] at heq
    right; right
    intro r hr
    simpa [hset] using heq r hr
  have hle := List.countP_le_length (p := fun r => decide (r ∈ ra.dedup)) (l := rb)
  have hsub : (rb.filter fun r => r ∈ ra.dedup).Subperm ra.dedup := by
    apply List.subperm_of_subset (hrb.filter _)
    intro r hr
    simpa using (List.mem_filter.mp hr).2
  by_cases hzero : (rb.countP fun r => r ∈ ra.dedup) = 0
  · rw [List.countP_eq_zero] at hzero
    left
    intro r hra hr
    exact hzero r hr (by simpa [hset] using hra)
  have hpos := Nat.pos_of_ne_zero hzero
  unfold receiversConflict at h
  dsimp only at h
  split at h
  · rename_i hwrap
    have hdvd := Int.dvd_of_bmod_eq_zero hwrap
    have hlen := length_le_of_nodup hrb
    exact hall (by omega)
  split at h
  · rename_i _ heq
    exact hall (eq_of_bmod hle (length_le_of_nodup hrb) hpos heq)
  split at h
  · rename_i _ _ hcover
    -- as many common receivers as there are receivers of `ra`, none of them counted twice
    right; left
    have hcount := hsub.length_le
    rw [← List.countP_eq_length_filter] at hcount
    have hcommon := eq_of_bmod hcount (length_le_of_nodup ra.nodup_dedup) hpos hcover
    rw [List.countP_eq_length_filter] at hcommon
    have hperm := hsub.perm_of_length_le (Nat.le_of_eq hcommon.symm)
    intro r hr
    exact (List.mem_filter.mp (hperm.mem_iff.mpr ((hset r).mpr hr))).1
  · exact absurd h (by decide)

end Receivers

/-! ### The members of a supercast -/

section Members

/-- The sends that the loop of `absorb` takes in. -/
def members (limit : UInt64) (first : McSend) : SuperCast → List McSend → List McSend
  | _, [] => []
  | sc, s :: rest =>
    if joins limit first sc s then s :: members limit first (sc.merge s) rest
    else members limit first sc rest

def superOf : List McSend → SuperCast
  | [] => ⟨[], [], 0, 0⟩
  | s :: ms => ms.foldl SuperCast.merge (SuperCast.start s)

def payloads (sends : List McSend) : ℕ := (sends.map fun s => s.payloadSize.toNat).sum

variable (limit : UInt64) (first : McSend)

theorem absorb_fst (sc : SuperCast) (rest : List McSend) :
    (absorb limit first sc rest).1 = (members limit first sc rest).foldl SuperCast.merge sc := by
  induction rest generalizing sc with
  | nil => rfl
  | cons s rest ih =>
    unfold absorb members
    by_cases h : joins limit first sc s
    · rw [if_pos h, if_pos h, ih, List.foldl_cons]
    · rw [if_neg h, if_neg h]
      exact ih sc

theorem absorb_perm (sc : SuperCast) (rest : List McSend) :
    (members limit first sc rest ++ (absorb limit first sc rest).2).Perm rest := by
  induction rest generalizing sc with
  | nil => exact List.Perm.refl _
  | cons s rest ih =>
    unfold absorb members
    by_cases h : joins limit first sc s
    · rw [if_pos h, if_pos h, List.cons_append]
      exact (ih (sc.merge s)).cons s
    · rw [if_neg h, if_neg h]
      exact List.perm_middle.trans ((ih sc).cons s)

theorem merge_tags (sc : SuperCast) (ms : List McSend) :
    (ms.foldl SuperCast.merge sc).mcsendTags = sc.mcsendTags ++ ms.map McSend.tag := by
  induction ms generalizing sc with
  | nil => simp
  | cons m ms ih => rw [List.foldl_cons, ih, List.map_cons]; simp [SuperCast.merge]

theorem merge_sender (sc : SuperCast) (ms : List McSend) :
    (ms.foldl SuperCast.merge sc).senderNsp = sc.senderNsp := by
  induction ms generalizing sc with
  | nil => rfl
  | cons m ms ih => rw [List.foldl_cons, ih]; rfl

theorem mem_merge_mcids (sc : SuperCast) (ms : List McSend) (i : UInt32) :
    i ∈ (ms.foldl SuperCast.merge sc).mcids ↔ i ∈ sc.mcids ∨ ∃ m ∈ ms, i ∈ m.mcids := by
  induction ms generalizing sc with
  | nil => simp
  | cons m ms ih =>
    have hmerge : i ∈ (sc.merge m).mcids ↔ i ∈ sc.mcids ∨ i ∈ m.mcids := mem_appendNew i _ _
    rw [List.foldl_cons, ih, hmerge]
    simp [or_assoc]

theorem merge_payload (sc : SuperCast) (ms : List McSend) :
    (ms.foldl SuperCast.merge sc).totalPayload.toNat =
      (sc.totalPayload.toNat + payloads ms) % 2 ^ 64 := by
  induction ms generalizing sc with
  | nil => exact (Nat.mod_eq_of_lt sc.totalPayload.toNat_lt).symm
  | cons m ms ih =>
    have hmerge : (sc.merge m).totalPayload = sc.totalPayload + m.payloadSize := rfl
    have hsum : payloads (m :: ms) = m.payloadSize.toNat + payloads ms := List.sum_cons
    rw [List.foldl_cons, ih, hmerge, hsum, UInt64.toNat_add]
    omega

theorem canMerge_iff (a b : McSend) (p : UInt64) :
    canMerge limit a b p = true ↔
      a.senderNsp = b.senderNsp ∧ (limit = 0 ∨ p ≤ limit) ∧
        receiversConflict a.receivers b.receivers = false := by
  have hlimit : (0 < limit ∧ limit < p) ↔ ¬(limit = 0 ∨ p ≤ limit) := by
    rw [not_or, UInt64.not_le, UInt64.pos_iff_ne_zero]
  unfold canMerge
  by_cases hsender : a.senderNsp = b.senderNsp
  · rw [if_neg (not_not_intro hsender)]
    by_cases hp : limit = 0 ∨ p ≤ limit
    · rw [if_neg (fun h => hlimit.mp h hp)]
      simp [hsender, hp]
    · rw [if_pos (hlimit.mpr hp)]
      simp [hp]
  · simp [hsender]

theorem joins_sound {sc : SuperCast} {s : McSend} (h : joins limit first sc s = true) :
    first.senderNsp = s.senderNsp ∧ (limit = 0 ∨ (sc.merge s).totalPayload ≤ limit) ∧
      receiversConflict first.receivers s.receivers = false := by
  unfold joins at h
  rw [Bool.and_eq_true, canMerge_iff] at h
  exact h.2

theorem members_sender (sc : SuperCast) (rest : List McSend) :
    ∀ m ∈ members limit first sc rest, first.senderNsp = m.senderNsp := by
  induction rest generalizing sc with
  | nil => simp [members]
  | cons s rest ih =>
    intro m hm
    unfold members at hm
    by_cases h : joins limit first sc s
    · rw [if_pos h, List.mem_cons] at hm
      rcases hm with rfl | hm
      · exact (joins_sound limit first h).1
      · exact ih (sc.merge s) m hm
    · rw [if_neg h] at hm
      exact ih sc m hm

theorem members_fit (sc : SuperCast) (rest : List McSend)
    (hsc : limit = 0 ∨ sc.totalPayload ≤ limit ∨ members limit first sc rest ≠ []) :
    limit = 0 ∨
      ((members limit first sc rest).foldl SuperCast.merge sc).totalPayload ≤ limit := by
  induction rest generalizing sc with
  | nil => simpa [members] using hsc
  | cons s rest ih =>
    unfold members at hsc ⊢
    by_cases h : joins limit first sc s
    · rw [if_pos h, List.foldl_cons]
      apply ih
      rcases (joins_sound limit first h).2.1 with hzero | hle
      · exact Or.inl hzero
      · exact Or.inr (Or.inl hle)
    · rw [if_neg h] at hsc ⊢
      exact ih sc hsc

end Members

/-! ### Groups -/

section Groups

/-- The groups that the greedy pass forms, those of one send included. -/
def groupsOf (limit : UInt64) : ℕ → List McSend → List (List McSend)
  | 0, _ => []
  | _, [] => []
  | fuel + 1, s :: rest =>
    (s :: members limit s (SuperCast.start s) rest) ::
      groupsOf limit fuel (absorb limit s (SuperCast.start s) rest).2

variable (limit : UInt64)

theorem superOf_tags {g : List McSend} : (superOf g).mcsendTags = g.map McSend.tag := by
  cases g with
  | nil => rfl
  | cons s ms =>
    unfold superOf
    rw [merge_tags]
    rfl

theorem groupsOf_perm (fuel : ℕ) (left : List McSend) (hfuel : left.length ≤ fuel) :
    (groupsOf limit fuel left).flatten.Perm left := by
  induction fuel generalizing left with
  | zero =>
    have hnil : left = [] := List.eq_nil_of_length_eq_zero (Nat.le_zero.mp hfuel)
    subst hnil
    exact List.Perm.refl _
  | succ fuel ih =>
    cases left with
    | nil => exact List.Perm.refl _
    | cons s rest =>
      have hperm := absorb_perm limit s (SuperCast.start s) rest
      have hlen := hperm.length_eq
      rw [List.length_append] at hlen
      have hrec := ih (absorb limit s (SuperCast.start s) rest).2
        (by rw [List.length_cons] at hfuel; omega)
      unfold groupsOf
      rw [List.flatten_cons, List.cons_append]
      exact ((hrec.append_left _).trans hperm).cons s

theorem supercastsOf_eq (fuel : ℕ) (left : List McSend) :
    supercastsOf limit fuel left =
      ((groupsOf limit fuel left).filter fun g => 1 < g.length).map superOf := by
  induction fuel generalizing left with
  | zero => rfl
  | succ fuel ih =>
    cases left with
    | nil => rfl
    | cons s rest =>
      have hsuper : (absorb limit s (SuperCast.start s) rest).1 =
          superOf (s :: members limit s (SuperCast.start s) rest) := absorb_fst _ _ _ _
      unfold supercastsOf groupsOf
      dsimp only
      rw [hsuper, superOf_tags, List.length_map, ih]
      by_cases hlen : 1 < (s :: members limit s (SuperCast.start s) rest).length
      · rw [if_pos hlen, List.filter_cons_of_pos (by simpa using hlen), List.map_cons]
      · rw [if_neg hlen, List.filter_cons_of_neg (by simpa using hlen)]

end Groups

/-! ### The result -/

section Results

/-- The receivers of several sends, each one once. -/
def receiversOf (g : List McSend) : List UInt32 :=
  g.foldl (fun acc s => appendNew acc s.receivers) []

/-- The originals whose tags a supercast lists. -/
def sendsOf (sends : List McSend) (sc : SuperCast) : List McSend :=
  sc.mcsendTags.filterMap fun t => sends.find? fun s => s.tag == t

def tagsOf (scs : List SuperCast) : List UInt32 := (scs.map SuperCast.mcsendTags).flatten

/-- The originals whose tags no supercast lists. -/
def untaken (sends : List McSend) (scs : List SuperCast) : List McSend :=
  sends.filter fun s => !((tagsOf scs).contains s.tag)

theorem mem_receiversOf (g : List McSend) (r : UInt32) :
    r ∈ receiversOf g ↔ ∃ s ∈ g, r ∈ s.receivers := by
  have hfold : ∀ acc : List UInt32, r ∈ g.foldl (fun acc s => appendNew acc s.receivers) acc ↔
      r ∈ acc ∨ ∃ s ∈ g, r ∈ s.receivers := by
    induction g with
    | nil => simp
    | cons s g ih =>
      intro acc
      rw [List.foldl_cons, ih, mem_appendNew]
      simp [or_assoc]
  unfold receiversOf
  rw [hfold]
  simp

theorem collect_eq (tags : List UInt32) (left : List McSend) (receivers : List UInt32)
    (htags : tags.Nodup) (hleft : (left.map McSend.tag).Nodup) :
    collect tags left receivers =
      ((tags.filterMap fun t => left.find? fun s => s.tag == t).foldl
          (fun acc s => appendNew acc s.receivers) receivers,
        left.filter fun s => !(tags.contains s.tag)) := by
  induction tags generalizing left receivers with
  | nil => simp [collect]
  | cons t tags ih =>
    rw [List.nodup_cons] at htags
    have hfilter : (left.filter fun s => !(s.tag == t)).filter (fun s => !(tags.contains s.tag)) =
        left.filter fun s => !((t :: tags).contains s.tag) := by
      rw [List.filter_filter]
      congr 1
      funext s
      rw [List.contains_cons, Bool.not_or, Bool.and_comm]
    have hfind : ∀ u ∈ tags, (left.filter fun s => !(s.tag == t)).find? (fun s => s.tag == u) =
        left.find? fun s => s.tag == u := by
      intro u hu
      have hut : u ≠ t := fun h => htags.1 (h ▸ hu)
      exact find?_filter_key McSend.tag (fun v => !(v == t)) (by simpa using hut) left
    unfold collect
    cases hs : left.find? fun s => s.tag == t with
    | some s =>
      dsimp only
      rw [eraseP_key McSend.tag t hleft, ih _ _ htags.2 (hleft.sublist (List.filter_sublist.map _)),
        List.filterMap_congr hfind, hfilter]
      simp only [List.filterMap_cons, hs, List.foldl_cons]
    | none =>
      have hnone : left.filter (fun s => !(s.tag == t)) = left := by
        rw [List.filter_eq_self]
        intro s hsl
        simpa using List.find?_eq_none.mp hs s hsl
      rw [hnone] at hfilter
      dsimp only
      rw [ih _ _ htags.2 hleft, hfilter]
      simp only [List.filterMap_cons, hs]

theorem applyResults_eq (sends : List McSend) (scs : List SuperCast)
    (hscs : (tagsOf scs).Nodup) (hsends : (sends.map McSend.tag).Nodup) :
    applyResults sends scs =
      scs.map (fun sc => mergedSend sc (receiversOf (sendsOf sends sc))) ++ untaken sends scs := by
  induction scs generalizing sends with
  | nil => simp [applyResults, untaken, tagsOf]
  | cons sc scs ih =>
    have hsplit : tagsOf (sc :: scs) = sc.mcsendTags ++ tagsOf scs := rfl
    rw [hsplit, List.nodup_append'] at hscs
    obtain ⟨hsc, hrest, hdisj⟩ := hscs
    let left := sends.filter fun s => !(sc.mcsendTags.contains s.tag)
    have hfound : ∀ sc' ∈ scs, mergedSend sc' (receiversOf (sendsOf left sc')) =
        mergedSend sc' (receiversOf (sendsOf sends sc')) := by
      intro sc' hsc'
      have hlook : sendsOf left sc' = sendsOf sends sc' := by
        apply List.filterMap_congr
        intro t ht
        have hkept : t ∉ sc.mcsendTags := fun h =>
          hdisj h (List.mem_flatten.mpr ⟨_, List.mem_map_of_mem hsc', ht⟩)
        exact find?_filter_key McSend.tag (fun v => !(sc.mcsendTags.contains v))
          (by simpa using hkept) sends
      rw [hlook]
    have hrestTaken : untaken left scs = untaken sends (sc :: scs) := by
      unfold untaken
      rw [List.filter_filter, hsplit]
      congr 1
      funext s
      simp [Bool.and_comm]
    unfold applyResults
    dsimp only
    rw [collect_eq sc.mcsendTags sends [] hsc hsends]
    have hrec := ih left hrest (hsends.sublist (List.filter_sublist.map _))
    rw [List.map_cons, List.cons_append, ← hrestTaken, ← List.map_congr_left hfound]
    exact congrArg _ hrec

/-- The groups of several sends. -/
def bigGroups (limit : UInt64) (sends : List McSend) : List (List McSend) :=
  (groupsOf limit sends.length sends).filter fun g => 1 < g.length

variable (limit : UInt64) (sends : List McSend)

theorem buildLpInput_eq : buildLpInput limit sends = (bigGroups limit sends).map superOf :=
  supercastsOf_eq limit sends.length sends

theorem tagsOf_build :
    tagsOf (buildLpInput limit sends) = (bigGroups limit sends).flatten.map McSend.tag := by
  have htags : SuperCast.mcsendTags ∘ superOf = List.map McSend.tag := funext fun _ => superOf_tags
  unfold tagsOf
  rw [buildLpInput_eq, List.map_map, htags, List.map_flatten]

theorem groups_split :
    ∃ single : List (List McSend), (∀ g ∈ single, g.length ≤ 1) ∧
      ((bigGroups limit sends).flatten ++ single.flatten).Perm sends := by
  let groups := groupsOf limit sends.length sends
  refine ⟨groups.filter fun g => !(decide (1 < g.length)), ?_, ?_⟩
  · intro g hg
    simpa using (List.mem_filter.mp hg).2
  · rw [← List.flatten_append]
    have hsplit := (List.filter_append_perm (fun g : List McSend => decide (1 < g.length)) groups)
    exact hsplit.flatten.trans (groupsOf_perm limit sends.length sends (Nat.le_refl _))

variable (htags : (sends.map McSend.tag).Nodup)
include htags

theorem tagged_split :
    ((bigGroups limit sends).flatten.map McSend.tag).Nodup ∧ ∃ single : List (List McSend),
      ((bigGroups limit sends).flatten ++ single.flatten).Perm sends ∧
      ∀ s ∈ single.flatten, s.tag ∉ (bigGroups limit sends).flatten.map McSend.tag := by
  obtain ⟨single, -, hperm⟩ := groups_split limit sends
  have hall := (hperm.map McSend.tag).nodup_iff.mpr htags
  rw [List.map_append, List.nodup_append'] at hall
  exact ⟨hall.1, single, hperm, fun s hs h => hall.2.2 h (List.mem_map_of_mem hs)⟩

theorem tagsOf_build_nodup : (tagsOf (buildLpInput limit sends)).Nodup := by
  rw [tagsOf_build]
  exact (tagged_split limit sends htags).1

theorem sendsOf_superOf {g : List McSend} (hg : g ∈ bigGroups limit sends) :
    sendsOf sends (superOf g) = g := by
  obtain ⟨single, -, hperm⟩ := groups_split limit sends
  unfold sendsOf
  rw [superOf_tags]
  apply filterMap_find?_key McSend.tag htags
  intro s hs
  exact hperm.subset (List.mem_append_left _ (List.mem_flatten.mpr ⟨g, hg, hs⟩))

theorem untaken_perm :
    ((bigGroups limit sends).flatten ++ untaken sends (buildLpInput limit sends)).Perm sends := by
  obtain ⟨-, single, hperm, hsingles⟩ := tagged_split limit sends htags
  let free := fun s : McSend => !((tagsOf (buildLpInput limit sends)).contains s.tag)
  have htag : ∀ s, free s = true ↔ s.tag ∉ (bigGroups limit sends).flatten.map McSend.tag := by
    intro s
    rw [← tagsOf_build]
    simp [free]
  have hbig : (bigGroups limit sends).flatten.filter free = [] := by
    rw [List.filter_eq_nil_iff]
    intro s hs hfree
    exact (htag s).mp hfree (List.mem_map_of_mem hs)
  have hsingle : single.flatten.filter free = single.flatten := by
    rw [List.filter_eq_self]
    intro s hs
    exact (htag s).mpr (hsingles s hs)
  have hfilter := hperm.filter free
  rw [List.filter_append, hbig, hsingle, List.nil_append] at hfilter
  exact (hfilter.symm.append_left _).trans hperm

theorem optimize_eq :
    optimize limit sends =
      (bigGroups limit sends).map (fun g => mergedSend (superOf g) (receiversOf g)) ++
        untaken sends (buildLpInput limit sends) := by
  have hfound : ∀ g ∈ bigGroups limit sends,
      mergedSend (superOf g) (receiversOf (sendsOf sends (superOf g))) =
        mergedSend (superOf g) (receiversOf g) := by
    intro g hg
    rw [sendsOf_superOf limit sends htags hg]
  unfold optimize
  rw [applyResults_eq sends _ (tagsOf_build_nodup limit sends htags) htags]
  congr 1
  rw [buildLpInput_eq, List.map_map]
  exact List.map_congr_left hfound

end Results

/-! ### Right results -/

section Right

/-- A result takes the place of the sends of a group. -/
structure Gathers (limit : UInt64) (group : List McSend) (result : McSend) : Prop where
  sender : ∀ s ∈ group, result.senderNsp = s.senderNsp
  receivers : ∀ s ∈ group, s.receivers ⊆ result.receivers
  mcids : ∀ s ∈ group, s.mcids ⊆ result.mcids
  payload : result.payloadSize.toNat = payloads group
  fits : 1 < group.length → limit = 0 ∨ result.payloadSize ≤ limit
  compatible : group.Pairwise fun a b => Compatible a.receivers b.receivers

/-- Every send is in one group, and the results take the places of the groups. -/
def MergesInto (limit : UInt64) (sends : List McSend) (groups : List (List McSend)) : Prop :=
  groups.flatten.Perm sends ∧ List.Forall₂ (Gathers limit) groups (optimize limit sends)

/-- The originals that went into each result. -/
def partsOf (limit : UInt64) (sends : List McSend) : List (List McSend) :=
  (buildLpInput limit sends).map (sendsOf sends) ++
    (untaken sends (buildLpInput limit sends)).map fun s => [s]

/-- What the test for joining leaves open. -/
def JoinsWell (first : McSend) (others : List McSend) (s : McSend) : Prop :=
  (s.receivers.Nodup ∨ Compatible first.receivers s.receivers) ∧
    (∀ m ∈ others, Compatible m.receivers s.receivers) ∧
    payloads (first :: others) + s.payloadSize.toNat < 2 ^ 64

/-- Each send that joins a supercast, whose members are `first` and `others`, joins it well. -/
def AbsorbsWell (limit : UInt64) (first : McSend) :
    List McSend → SuperCast → List McSend → Prop
  | _, _, [] => True
  | others, sc, s :: rest =>
    if joins limit first sc s then
      JoinsWell first others s ∧ AbsorbsWell limit first (others ++ [s]) (sc.merge s) rest
    else AbsorbsWell limit first others sc rest

/-- Each send that joins any supercast joins it well. -/
def JoinsAllWell (limit : UInt64) : ℕ → List McSend → Prop
  | 0, _ => True
  | _, [] => True
  | fuel + 1, s :: rest =>
    AbsorbsWell limit s [] (SuperCast.start s) rest ∧
      JoinsAllWell limit fuel (absorb limit s (SuperCast.start s) rest).2

/-- The sum of a group fits into 64 bits and any two of its sends are compatible. -/
def Sound (group : List McSend) : Prop :=
  payloads group < 2 ^ 64 ∧ group.Pairwise fun a b => Compatible a.receivers b.receivers

theorem payloads_append (xs ys : List McSend) :
    payloads (xs ++ ys) = payloads xs + payloads ys := by
  unfold payloads
  rw [List.map_append, List.sum_append]

theorem Sound.of_append {xs ys : List McSend} (h : Sound (xs ++ ys)) : Sound xs := by
  refine ⟨?_, (List.pairwise_append.mp h.2).1⟩
  have hsum := h.1
  rw [payloads_append] at hsum
  omega

theorem sound_singleton (s : McSend) : Sound [s] := by
  refine ⟨?_, List.pairwise_singleton _ _⟩
  have hsum : payloads [s] = s.payloadSize.toNat := by simp [payloads]
  rw [hsum]
  exact s.payloadSize.toNat_lt

theorem joinsWell_iff {limit : UInt64} {first s : McSend} {others : List McSend} {sc : SuperCast}
    (hjoins : joins limit first sc s = true) (hsound : Sound (first :: others)) :
    JoinsWell first others s ↔ Sound (first :: others ++ [s]) := by
  have hsum : payloads (first :: others ++ [s]) =
      payloads (first :: others) + s.payloadSize.toNat := by
    rw [payloads_append]
    simp [payloads]
  have hfirst : s.receivers.Nodup ∨ Compatible first.receivers s.receivers ↔
      Compatible first.receivers s.receivers := by
    constructor
    · rintro (hnodup | h)
      · exact compatible_of_no_conflict hnodup (joins_sound limit first hjoins).2.2
      · exact h
    · exact Or.inr
  unfold JoinsWell Sound
  rw [hfirst, hsum, List.pairwise_append]
  simp only [List.mem_singleton, forall_eq, List.pairwise_singleton, List.forall_mem_cons]
  constructor
  · rintro ⟨hf, ho, hlt⟩
    exact ⟨hlt, hsound.2, trivial, hf, ho⟩
  · rintro ⟨hlt, -, -, hf, ho⟩
    exact ⟨hf, ho, hlt⟩

theorem absorbsWell_iff (limit : UInt64) (first : McSend) (others : List McSend) (sc : SuperCast)
    (rest : List McSend) (hsound : Sound (first :: others)) :
    AbsorbsWell limit first others sc rest ↔
      Sound (first :: others ++ members limit first sc rest) := by
  induction rest generalizing others sc with
  | nil => simpa [AbsorbsWell, members] using hsound
  | cons s rest ih =>
    unfold AbsorbsWell members
    by_cases hjoins : joins limit first sc s = true
    · have happend : first :: others ++ s :: members limit first (sc.merge s) rest =
          first :: others ++ [s] ++ members limit first (sc.merge s) rest := by simp
      rw [if_pos hjoins, if_pos hjoins, joinsWell_iff hjoins hsound, happend]
      constructor
      · rintro ⟨hlonger, hrest⟩
        exact (ih (others ++ [s]) (sc.merge s) hlonger).mp hrest
      · intro hall
        have hlonger : Sound (first :: others ++ [s]) := hall.of_append
        exact ⟨hlonger, (ih (others ++ [s]) (sc.merge s) hlonger).mpr hall⟩
    · rw [if_neg hjoins, if_neg hjoins]
      exact ih others sc hsound

theorem joinsAllWell_iff (limit : UInt64) (fuel : ℕ) (left : List McSend) :
    JoinsAllWell limit fuel left ↔ ∀ g ∈ groupsOf limit fuel left, Sound g := by
  induction fuel generalizing left with
  | zero => simp [JoinsAllWell, groupsOf]
  | succ fuel ih =>
    cases left with
    | nil => simp [JoinsAllWell, groupsOf]
    | cons s rest =>
      have hgroup := absorbsWell_iff limit s [] (SuperCast.start s) rest (sound_singleton s)
      unfold JoinsAllWell groupsOf
      rw [hgroup, ih, List.forall_mem_cons]
      rfl

theorem groupsOf_form {limit : UInt64} {fuel : ℕ} {left g : List McSend}
    (hg : g ∈ groupsOf limit fuel left) :
    ∃ s rest, g = s :: members limit s (SuperCast.start s) rest := by
  induction fuel generalizing left with
  | zero => simp [groupsOf] at hg
  | succ fuel ih =>
    cases left with
    | nil => simp [groupsOf] at hg
    | cons s rest =>
      unfold groupsOf at hg
      rw [List.mem_cons] at hg
      rcases hg with hg | hg
      · exact ⟨s, rest, hg⟩
      · exact ih hg

/-- The merged send of a group has the sender, the receivers and the channels of its members and
keeps the limit; its payload and the compatibility of its members are what may fail. -/
theorem gathers_merged_iff {limit : UInt64} {fuel : ℕ} {left g : List McSend}
    (hg : g ∈ groupsOf limit fuel left) :
    Gathers limit g (mergedSend (superOf g) (receiversOf g)) ↔ Sound g := by
  obtain ⟨s, rest, rfl⟩ := groupsOf_form hg
  let ms := members limit s (SuperCast.start s) rest
  have hpayload : (superOf (s :: ms)).totalPayload.toNat = payloads (s :: ms) % 2 ^ 64 :=
    merge_payload (SuperCast.start s) ms
  constructor
  · intro h
    have hsum : (superOf (s :: ms)).totalPayload.toNat = payloads (s :: ms) := h.payload
    refine ⟨?_, h.compatible⟩
    rw [← hsum]
    exact UInt64.toNat_lt _
  · intro hsound
    constructor
    · intro m hm
      have hsuper : (superOf (s :: ms)).senderNsp = s.senderNsp := merge_sender _ ms
      rcases List.mem_cons.mp hm with rfl | hm
      · exact hsuper
      · exact hsuper.trans (members_sender limit s _ rest m hm)
    · intro m hm r hr
      exact (mem_receiversOf _ r).mpr ⟨m, hm, hr⟩
    · intro m hm i hi
      apply (mem_merge_mcids (SuperCast.start s) ms i).mpr
      rcases List.mem_cons.mp hm with rfl | hm
      · exact Or.inl hi
      · exact Or.inr ⟨m, hm, hi⟩
    · exact hpayload.trans (Nat.mod_eq_of_lt hsound.1)
    · intro hlen
      apply members_fit limit s (SuperCast.start s) rest
      right; right
      intro hnil
      rw [hnil] at hlen
      exact absurd hlen (Nat.lt_irrefl 1)
    · exact hsound.2

theorem gathers_single (limit : UInt64) (s : McSend) : Gathers limit [s] s := by
  constructor
  · intro m hm
    rw [List.mem_singleton.mp hm]
  · intro m hm
    rw [List.mem_singleton.mp hm]
    exact List.Subset.refl _
  · intro m hm
    rw [List.mem_singleton.mp hm]
    exact List.Subset.refl _
  · simp [payloads]
  · intro hlen
    exact absurd hlen (Nat.lt_irrefl 1)
  · exact List.pairwise_singleton _ _

theorem forall₂_map_append {α β : Type} {R : α → β → Prop} {f : α → β} {g : β → α}
    (xs : List α) (ys : List β) (hys : ∀ y, R (g y) y) :
    List.Forall₂ R (xs ++ ys.map g) (xs.map f ++ ys) ↔ ∀ x ∈ xs, R x (f x) := by
  induction xs with
  | nil =>
    have hall : List.Forall₂ R (ys.map g) ys := by
      rw [List.forall₂_map_left_iff, List.forall₂_same]
      exact fun y _ => hys y
    simp [hall]
  | cons x xs ih =>
    rw [List.map_cons, List.cons_append, List.cons_append, List.forall₂_cons, ih,
      List.forall_mem_cons]

/-- The results take the places of the originals that went into them if and only if each send that
joins a supercast has no repeated receiver or is compatible with its first member, is compatible
with its other members, and leaves the sum of the payloads below `2 ^ 64`. -/
theorem merging_right_iff (limit : UInt64) (sends : List McSend)
    (htags : (sends.map McSend.tag).Nodup) :
    MergesInto limit sends (partsOf limit sends) ↔ JoinsAllWell limit sends.length sends := by
  have hfound : (buildLpInput limit sends).map (sendsOf sends) = bigGroups limit sends := by
    rw [buildLpInput_eq, List.map_map]
    exact (List.map_congr_left fun g hg => sendsOf_superOf limit sends htags hg).trans
      (List.map_id _)
  have hparts : partsOf limit sends =
      bigGroups limit sends ++ (untaken sends (buildLpInput limit sends)).map fun s => [s] := by
    unfold partsOf
    rw [hfound]
  have hperm : (partsOf limit sends).flatten.Perm sends := by
    rw [hparts, List.flatten_append, ← List.flatMap_def, List.flatMap_singleton']
    exact untaken_perm limit sends htags
  have hbig : (∀ g ∈ bigGroups limit sends, Sound g) ↔
      ∀ g ∈ groupsOf limit sends.length sends, Sound g := by
    constructor
    · intro h g hg
      by_cases hlen : 1 < g.length
      · exact h g (List.mem_filter.mpr ⟨hg, by simpa using hlen⟩)
      · obtain ⟨s, rest, rfl⟩ := groupsOf_form hg
        have hnil : members limit s (SuperCast.start s) rest = [] := by
          apply List.eq_nil_of_length_eq_zero
          rw [List.length_cons] at hlen
          omega
        rw [hnil]
        exact sound_singleton s
    · intro h g hg
      exact h g (List.mem_filter.mp hg).1
  unfold MergesInto
  rw [joinsAllWell_iff, ← hbig, optimize_eq limit sends htags, hparts,
    forall₂_map_append _ _ fun s => gathers_single limit s]
  rw [hparts] at hperm
  constructor
  · intro h g hg
    exact (gathers_merged_iff (List.mem_filter.mp hg).1).mp (h.2 g hg)
  · intro h
    exact ⟨hperm, fun g hg => (gathers_merged_iff (List.mem_filter.mp hg).1).mpr (h g hg)⟩

/-- A send to three receivers and a send to two of them become one. -/
theorem nested_pair_merged :
    ([⟨1, 0, 1, 8, [0], [1, 2, 3]⟩, ⟨2, 0, 1, 8, [0], [1, 2]⟩].map McSend.tag).Nodup ∧
      MergesInto 0 [⟨1, 0, 1, 8, [0], [1, 2, 3]⟩, ⟨2, 0, 1, 8, [0], [1, 2]⟩]
        (partsOf 0 [⟨1, 0, 1, 8, [0], [1, 2, 3]⟩, ⟨2, 0, 1, 8, [0], [1, 2]⟩]) := by
  have htags : ([⟨1, 0, 1, 8, [0], [1, 2, 3]⟩, ⟨2, 0, 1, 8, [0], [1, 2]⟩].map
      McSend.tag).Nodup := by decide
  refine ⟨htags, (merging_right_iff 0 _ htags).mpr ?_⟩
  refine ⟨⟨⟨Or.inl (by decide), by simp, by decide⟩, trivial⟩, trivial⟩

/-- Two sends that are both nested in the first one are put together, although their receivers
overlap in part. -/
theorem overlapping_pair_merged :
    ¬∃ groups, MergesInto 0 [⟨1, 0, 1, 8, [0], [1, 2, 3]⟩, ⟨2, 0, 1, 8, [0], [1, 2]⟩,
      ⟨3, 0, 1, 8, [0], [2, 3]⟩] groups := by
  rintro ⟨groups, hperm, hall⟩
  have hone : optimize 0 [⟨1, 0, 1, 8, [0], [1, 2, 3]⟩, ⟨2, 0, 1, 8, [0], [1, 2]⟩,
      ⟨3, 0, 1, 8, [0], [2, 3]⟩] = [⟨1, 0, 1, 24, [0], [1, 2, 3]⟩] := by decide
  rw [hone, List.forall₂_cons_right_iff] at hall
  obtain ⟨group, rest, hgroup, hrest, rfl⟩ := hall
  rw [List.forall₂_nil_right_iff] at hrest
  subst hrest
  rw [List.flatten_cons, List.flatten_nil, List.append_nil] at hperm
  have hsymm : ∀ {a b : McSend}, Compatible a.receivers b.receivers →
      Compatible b.receivers a.receivers := by
    rintro a b (hdisj | hsub | hsub)
    · exact Or.inl hdisj.symm
    · exact Or.inr (Or.inr hsub)
    · exact Or.inr (Or.inl hsub)
  have hpairs := (hperm.pairwise_iff hsymm).mp hgroup.compatible
  have hlast : Compatible [1, 2] [2, 3] :=
    (List.pairwise_cons.mp (List.pairwise_cons.mp hpairs).2).1 _ (List.mem_singleton_self _)
  rcases hlast with hdisj | hsub | hsub
  · exact hdisj (by decide : (2 : UInt32) ∈ [1, 2]) (by decide)
  · exact absurd (hsub (by decide : (1 : UInt32) ∈ [1, 2])) (by decide)
  · exact absurd (hsub (by decide : (3 : UInt32) ∈ [2, 3])) (by decide)

end Right

end Gehtp.Analysis.McastGroups
