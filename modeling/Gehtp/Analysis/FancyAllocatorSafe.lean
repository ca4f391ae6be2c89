import Mathlib.Algebra.Ring.Nat
import Mathlib.Algebra.BigOperators.Ring.List
import Mathlib.Algebra.Order.BigOperators.Group.List
import Gehtp.Model.FancyAllocator

/-!
# The lifetime allocator keeps live tensors apart

The loop places one block per group. `ArenaOk` is its invariant: the free ranges
and the blocks in use are pairwise apart, below the high-water mark and inside the
budget. A block stays in use until a group starts after its lifetime ended, so a
later group whose lifetime meets an earlier one finds the earlier block in use and
gets bytes apart from it. This is about blocks. The members of a group are laid
out inside its block one after the other, each rounded up to the alignment, while
the block was sized by rounding up the sum once. `StepFits` says of a group that gets
a block that the two agree, and that the end of a block above the high-water mark does
not wrap; of a group that is spilled it says nothing. When all steps of the loop meet
it, the placement is right and the validation passes. A step that does not meet it lays
a member out past the end of its block, or wraps.
-/

set_option autoImplicit false

namespace Gehtp.Analysis.FancyAllocatorSafe

open Lib Model.FancyAllocator

/-- Round up to a multiple of `a`, as natural numbers. -/
def roundUp (a v : ℕ) : ℕ := if v % a = 0 then v else v + (a - v % a)

def sizeSum (l : List AllocRequest) : ℕ := (l.map (·.size)).sum

/-- The sum of the rounded sizes of some requests. -/
def roundedSum (a : ℕ) (l : List AllocRequest) : ℕ := (l.map fun r => roundUp a r.size).sum

def life (r : AllocRequest) : ℕ × ℕ := (r.lifeBegin, r.lifeEnd)

/-- The order of lifetimes: by start, the longest first. -/
def Earlier (p q : ℕ × ℕ) : Prop := p.1 < q.1 ∨ (p.1 = q.1 ∧ q.2 < p.2)

instance (p q : ℕ × ℕ) : Decidable (Earlier p q) := inferInstanceAs (Decidable (_ ∨ _))

theorem le_roundUp (a v : ℕ) : v ≤ roundUp a v := by
  unfold roundUp
  split <;> omega

theorem alignUp_eq_roundUp {a v : ℕ} (h : roundUp a v < 2 ^ 64) : alignUp a v = roundUp a v := by
  unfold alignUp
  unfold roundUp at h ⊢
  simp only
  split
  · rfl
  · rename_i hm
    rw [if_neg hm] at h
    exact Nat.mod_eq_of_lt h

/-! ### Sorting and grouping -/

theorem before_total : Std.Total fun a b : AllocRequest => before a b = true := by
  refine ⟨fun a b => ?_⟩
  simp only [before]
  by_cases hb : a.lifeBegin = b.lifeBegin
  · by_cases he : a.lifeEnd = b.lifeEnd
    · simpa [hb, he] using Nat.le_total a.opId b.opId
    · simp only [hb, he, Ne.symm he, ne_eq, not_true_eq_false, if_false, not_false_eq_true, if_true,
        decide_eq_true_eq]
      omega
  · simp only [hb, Ne.symm hb, ne_eq, not_false_eq_true, if_true, decide_eq_true_eq]
    omega

theorem before_iff (a b : AllocRequest) : before a b = true ↔
    a.lifeBegin < b.lifeBegin ∨ (a.lifeBegin = b.lifeBegin ∧
      (b.lifeEnd < a.lifeEnd ∨ (a.lifeEnd = b.lifeEnd ∧ a.opId ≤ b.opId))) := by
  unfold before
  split
  · rw [decide_eq_true_eq]
    omega
  · split
    · rw [decide_eq_true_eq]
      omega
    · rw [decide_eq_true_eq]
      omega

theorem before_trans : IsTrans AllocRequest fun a b => before a b = true := by
  refine ⟨fun a b c hab hbc => ?_⟩
  rw [before_iff] at *
  omega

theorem sortRequests_sorted (reqs : List AllocRequest) :
    (sortRequests reqs).Pairwise fun a b => ¬ Earlier (life b) (life a) := by
  have := before_total
  have := before_trans
  refine (List.pairwise_insertionSort (fun a b => before a b = true) reqs).imp fun {a b} h => ?_
  rw [before_iff] at h
  simp only [Earlier, life]
  omega

theorem sortRequests_perm (reqs : List AllocRequest) : (sortRequests reqs).Perm reqs :=
  List.perm_insertionSort _ reqs

def groupLife (g : Group) : ℕ × ℕ := (g.lifeBegin, g.lifeEnd)

/-- What a group holds: requests of its lifetime, none of them empty, and the
64-bit sum of their sizes. -/
structure GroupOk (g : Group) : Prop where
  lifetime : ∀ r ∈ g.members, life r = groupLife g
  nonempty : ∀ r ∈ g.members, r.size ≠ 0
  total : g.totalSize = sizeSum g.members % 2 ^ 64
  inhabited : g.members ≠ []

/-- The requests of groups that are listed newest first. -/
def flat (gs : List Group) : List AllocRequest := gs.reverse.flatMap (·.members)

variable {r : AllocRequest} {g : Group} {need : ℕ}

theorem groupOk_single (h : r.size ≠ 0) :
    GroupOk ⟨r.lifeBegin, r.lifeEnd, [r], r.size⟩ where
  lifetime := by simp [life, groupLife]
  nonempty := by simpa using h
  total := by
    have := r.size_lt
    simp only [sizeSum, List.map_cons, List.map_nil, List.sum_cons, List.sum_nil]
    omega
  inhabited := by simp

theorem groupOk_join (hg : GroupOk g) (h : r.size ≠ 0) (hsame : groupLife g = life r) :
    GroupOk ⟨g.lifeBegin, g.lifeEnd, g.members ++ [r], (g.totalSize + r.size) % 2 ^ 64⟩ where
  lifetime := by
    intro y hy
    rcases List.mem_append.mp hy with hy | hy
    · exact hg.lifetime y hy
    · rw [List.mem_singleton.mp hy]
      exact hsame.symm
  nonempty := by
    intro y hy
    rcases List.mem_append.mp hy with hy | hy
    · exact hg.nonempty y hy
    · rw [List.mem_singleton.mp hy]
      exact h
  total := by
    have ht := hg.total
    simp only [sizeSum, List.map_append, List.sum_append, List.map_cons, List.map_nil,
      List.sum_cons, List.sum_nil] at ht ⊢
    omega
  inhabited := by simp

/-- The groups so far, newest first: well formed and with later and later
lifetimes. -/
structure GroupsOk (gs : List Group) : Prop where
  ok : ∀ g ∈ gs, GroupOk g
  sorted : gs.Pairwise fun a b => Earlier (groupLife b) (groupLife a)

theorem earlier_of_not {p q : ℕ × ℕ} (h : ¬ Earlier q p) (hne : p ≠ q) : Earlier p q := by
  unfold Earlier at *
  rcases p with ⟨p1, p2⟩
  rcases q with ⟨q1, q2⟩
  simp only [ne_eq, Prod.mk.injEq] at *
  omega

theorem earlier_trans_not {p q r : ℕ × ℕ} (h : Earlier p q) (h' : ¬ Earlier r q) :
    Earlier p r := by
  unfold Earlier at *
  omega

theorem groupStep_spec {gs : List Group} (h : GroupsOk gs)
    (hle : ∀ g ∈ gs, ¬ Earlier (life r) (groupLife g)) :
    GroupsOk (groupStep gs r) ∧
      (∀ g ∈ groupStep gs r, ¬ Earlier (life r) (groupLife g)) ∧
      flat (groupStep gs r) = flat gs ++ if r.size = 0 then [] else [r] := by
  unfold groupStep
  by_cases h0 : r.size = 0
  · simp only [h0, if_true, List.append_nil]
    exact ⟨h, hle, trivial⟩
  have hself : ¬ Earlier (life r) (life r) := by simp [Earlier]
  simp only [h0, if_false]
  cases gs with
  | nil =>
    refine ⟨⟨?_, by simp⟩, ?_, by simp [flat]⟩
    · intro g hg
      rw [List.mem_singleton.mp hg]
      exact groupOk_single h0
    · intro g hg
      rw [List.mem_singleton.mp hg]
      exact hself
  | cons g gs =>
    have hsorted := List.pairwise_cons.mp h.sorted
    by_cases hsame : g.lifeBegin = r.lifeBegin ∧ g.lifeEnd = r.lifeEnd
    · have hlife : groupLife g = life r := Prod.ext hsame.1 hsame.2
      simp only [if_pos hsame]
      refine ⟨⟨?_, ?_⟩, ?_, by simp [flat]⟩
      · intro x hx
        rcases List.mem_cons.mp hx with rfl | hx
        · exact groupOk_join (h.ok g (by simp)) h0 hlife
        · exact h.ok x (by simp [hx])
      · exact List.pairwise_cons.mpr ⟨hsorted.1, hsorted.2⟩
      · intro x hx
        rcases List.mem_cons.mp hx with rfl | hx
        · exact hle g (by simp)
        · exact hle x (by simp [hx])
    · have hne : groupLife g ≠ life r := fun he => hsame ⟨congrArg Prod.fst he, congrArg Prod.snd he⟩
      have hnew : Earlier (groupLife g) (life r) := earlier_of_not (hle g (by simp)) hne
      simp only [if_neg hsame]
      refine ⟨⟨?_, ?_⟩, ?_, by simp [flat]⟩
      · intro x hx
        rcases List.mem_cons.mp hx with rfl | hx
        · exact groupOk_single h0
        · exact h.ok x hx
      · refine List.pairwise_cons.mpr ⟨fun x hx => ?_, h.sorted⟩
        rcases List.mem_cons.mp hx with rfl | hx
        · exact hnew
        · exact earlier_trans_not (hsorted.1 x hx) (hle g (by simp))
      · intro x hx
        rcases List.mem_cons.mp hx with rfl | hx
        · exact hself
        · exact hle x hx

theorem foldl_groupStep_spec (rs : List AllocRequest) (gs : List Group) (h : GroupsOk gs)
    (hle : ∀ r ∈ rs, ∀ g ∈ gs, ¬ Earlier (life r) (groupLife g))
    (hrs : rs.Pairwise fun a b => ¬ Earlier (life b) (life a)) :
    GroupsOk (rs.foldl groupStep gs) ∧
      flat (rs.foldl groupStep gs) = flat gs ++ rs.filter fun r => !decide (r.size = 0) := by
  induction rs generalizing gs with
  | nil => exact ⟨h, by simp⟩
  | cons r rs ih =>
    rw [List.pairwise_cons] at hrs
    obtain ⟨hok, hlast, hflat⟩ := groupStep_spec h (hle r (by simp))
    have hnext := ih (groupStep gs r) hok
      (fun x hx g hg hxg => hlast g hg (by
        have := hrs.1 x hx
        unfold Earlier at *
        omega)) hrs.2
    refine ⟨hnext.1, ?_⟩
    rw [List.foldl_cons, hnext.2, hflat, List.append_assoc]
    congr 1
    by_cases h0 : r.size = 0 <;> simp [h0]

/-- The groups of a list of requests: well formed, with later and later lifetimes,
and together the requests that are not empty.
SOURCE: fancy_allocator.cpp:115-140 -/
theorem groupsOf_spec (reqs : List AllocRequest) :
    (∀ g ∈ groupsOf (sortRequests reqs), GroupOk g) ∧
      (groupsOf (sortRequests reqs)).Pairwise (fun a b => Earlier (groupLife a) (groupLife b)) ∧
      (groupsOf (sortRequests reqs)).flatMap (·.members) =
        (sortRequests reqs).filter fun r => !decide (r.size = 0) := by
  obtain ⟨hok, hflat⟩ := foldl_groupStep_spec (sortRequests reqs) [] ⟨by simp, by simp⟩
    (by simp) (sortRequests_sorted reqs)
  refine ⟨fun g hg => hok.ok g (List.mem_reverse.mp hg), List.pairwise_reverse.mpr hok.sorted, ?_⟩
  simpa [flat, groupsOf] using hflat

/-! ### The condition on a step -/

/-- The bytes of the block that a group asks for. SOURCE: fancy_allocator.cpp:152 -/
def needOf (a : ℕ) (g : Group) : ℕ := alignUp a g.totalSize

/-- A free range is long enough for the block, once the dead blocks are given back. -/
def FindsRange (a : ℕ) (ar : Arena) (g : Group) : Prop :=
  ((takeFit (needOf a g) (recycle ar g.lifeBegin).freeList).any fun p => decide (p.1 < 2 ^ 63)) =
    true

/-- The end of a block above the high-water mark passes the test of the budget. -/
def PassesBudget (budget a : ℕ) (ar : Arena) (g : Group) : Prop :=
  (ar.highWater + needOf a g) % 2 ^ 64 ≤ budget

/-- If the group gets a block, its members fill it as they are laid out, and if this is above the
high-water mark, its end does not wrap. -/
structure StepFits (budget a : ℕ) (ar : Arena) (g : Group) : Prop where
  layout : FindsRange a ar g ∨ PassesBudget budget a ar g → roundedSum a g.members = needOf a g
  top : ¬ FindsRange a ar g → PassesBudget budget a ar g → ar.highWater + needOf a g < 2 ^ 64

/-- Every step of the loop from `ar` on meets the condition in the arena in which it is taken. -/
def RunFits (budget a : ℕ) : Arena → List Group → Prop
  | _, [] => True
  | ar, g :: gs => StepFits budget a ar g ∧ RunFits budget a (placeGroup budget a ar g).2 gs

/-- Every step of the placement of the requests meets the condition. -/
def StepsFit (budget a : ℕ) (reqs : List AllocRequest) : Prop :=
  RunFits budget a ⟨[], [], 0⟩ (groupsOf (sortRequests reqs))

instance (a : ℕ) (ar : Arena) (g : Group) : Decidable (FindsRange a ar g) :=
  inferInstanceAs (Decidable (_ = true))

instance (budget a : ℕ) (ar : Arena) (g : Group) : Decidable (PassesBudget budget a ar g) :=
  inferInstanceAs (Decidable (_ ≤ _))

theorem stepFits_iff {budget a : ℕ} {ar : Arena} :
    StepFits budget a ar g ↔
      (FindsRange a ar g ∨ PassesBudget budget a ar g → roundedSum a g.members = needOf a g) ∧
        (¬ FindsRange a ar g → PassesBudget budget a ar g →
          ar.highWater + needOf a g < 2 ^ 64) :=
  ⟨fun h => ⟨h.layout, h.top⟩, fun h => ⟨h.1, h.2⟩⟩

instance (budget a : ℕ) (ar : Arena) (g : Group) : Decidable (StepFits budget a ar g) :=
  decidable_of_iff' _ stepFits_iff

instance decidableRunFits (budget a : ℕ) :
    (ar : Arena) → (gs : List Group) → Decidable (RunFits budget a ar gs)
  | _, [] => .isTrue trivial
  | ar, g :: gs =>
    have := decidableRunFits budget a (placeGroup budget a ar g).2 gs
    inferInstanceAs (Decidable (_ ∧ _))

instance (budget a : ℕ) (reqs : List AllocRequest) : Decidable (StepsFit budget a reqs) :=
  decidableRunFits budget a ⟨[], [], 0⟩ _

theorem roundUp_dvd {a : ℕ} (ha : 0 < a) (v : ℕ) : a ∣ roundUp a v ∧ roundUp a v < v + a := by
  have hmod := Nat.mod_lt v ha
  have hdiv := Nat.div_add_mod v a
  unfold roundUp
  split
  · exact ⟨Nat.dvd_of_mod_eq_zero ‹_›, by omega⟩
  · refine ⟨⟨v / a + 1, ?_⟩, by omega⟩
    rw [Nat.mul_add, Nat.mul_one]
    omega

theorem alignUp_eq_mod {a v : ℕ} (h : v < 2 ^ 64) : alignUp a v = roundUp a v % 2 ^ 64 := by
  unfold alignUp roundUp
  simp only
  split
  · exact (Nat.mod_eq_of_lt h).symm
  · rfl

/-- Members that do not fill the block as they are laid out are laid out past its end. -/
theorem past_end {a : ℕ} (ha : 0 < a) (ha64 : a < 2 ^ 64) (hg : GroupOk g)
    (hne : roundedSum a g.members ≠ needOf a g) :
    ∃ pre r, g.members = pre ++ [r] ∧ needOf a g < roundedSum a pre + r.size := by
  have htotal : g.totalSize < 2 ^ 64 := hg.total ▸ Nat.mod_lt _ (by decide)
  have hsum : g.totalSize ≤ roundedSum a g.members := by
    rw [hg.total]
    exact (Nat.mod_le _ _).trans (List.sum_le_sum fun r _ => le_roundUp a r.size)
  have hdvd : a ∣ roundedSum a g.members := by
    apply List.dvd_sum
    intro x hx
    obtain ⟨r, -, rfl⟩ := List.mem_map.mp hx
    exact (roundUp_dvd ha r.size).1
  obtain ⟨⟨d, hd⟩, hup⟩ := roundUp_dvd ha g.totalSize
  obtain ⟨c, hc⟩ := hdvd
  have hdc : d ≤ c := by
    by_contra hgt
    have := Nat.mul_le_mul_left a (show c + 1 ≤ d by omega)
    rw [Nat.mul_add, Nat.mul_one] at this
    omega
  -- the block is a whole number of units short, or it has wrapped
  have hshort : needOf a g + a ≤ roundedSum a g.members := by
    rw [needOf, alignUp_eq_mod htotal] at hne ⊢
    by_cases hwrap : roundUp a g.totalSize < 2 ^ 64
    · rw [Nat.mod_eq_of_lt hwrap, hc, hd] at hne
      rw [Nat.mod_eq_of_lt hwrap, hc, hd, ← Nat.mul_succ]
      apply Nat.mul_le_mul_left
      have : c ≠ d := fun heq => hne (by rw [heq])
      omega
    · have := Nat.mul_le_mul_left a hdc
      omega
  rcases List.eq_nil_or_concat g.members with hnil | ⟨pre, r, hmem⟩
  · exact absurd hnil hg.inhabited
  · rw [List.concat_eq_append] at hmem
    refine ⟨pre, r, hmem, ?_⟩
    have hlast : roundedSum a g.members = roundedSum a pre + roundUp a r.size := by
      rw [hmem]
      simp [roundedSum]
    have := (roundUp_dvd ha r.size).2
    omega

/-- A step that does not meet the condition gives a block to a group and lays a member out past its
end, or puts the end of the block past `2 ^ 64`. -/
theorem defect_of_not_stepFits {budget a : ℕ} {ar : Arena} (ha : 0 < a) (ha64 : a < 2 ^ 64)
    (hg : GroupOk g) (h : ¬ StepFits budget a ar g) :
    (FindsRange a ar g ∨ PassesBudget budget a ar g) ∧
      ((∃ pre r, g.members = pre ++ [r] ∧ needOf a g < roundedSum a pre + r.size) ∨
        2 ^ 64 ≤ ar.highWater + needOf a g) := by
  rw [stepFits_iff, Classical.not_and_iff_not_or_not] at h
  rcases h with hlayout | htop
  · obtain ⟨hblock, hne⟩ := Classical.not_imp.mp hlayout
    exact ⟨hblock, .inl (past_end ha ha64 hg hne)⟩
  · obtain ⟨-, hrest⟩ := Classical.not_imp.mp htop
    obtain ⟨hpass, hwrap⟩ := Classical.not_imp.mp hrest
    exact ⟨.inr hpass, .inr (Nat.le_of_not_lt hwrap)⟩

/-! ### The arena -/

theorem takeFit_eq_firstFit {l : List Span} (h : ∀ s ∈ l, s.lo ≤ s.hi ∧ s.hi < 2 ^ 64) :
    takeFit need l = firstFit need l := by
  induction l with
  | nil => rfl
  | cons s l ih =>
    have hs := h s (by simp)
    have hlen : (s.hi + 2 ^ 64 - s.lo) % 2 ^ 64 = s.hi - s.lo := by omega
    unfold takeFit firstFit
    rw [hlen, ih fun t ht => h t (by simp [ht])]
    split
    · have hmod : (s.lo + need) % 2 ^ 64 = s.lo + need := Nat.mod_eq_of_lt (by omega)
      rw [hmod]
    · rfl

def bytesOf (x : Live) : Span := ⟨x.off, x.off + x.size⟩

/-- The invariant of the arena: free ranges and blocks in use are apart and below
the high-water mark, which is in the budget. -/
structure ArenaOk (budget : ℕ) (ar : Arena) : Prop where
  spans : SpansBelow ar.highWater (ar.freeList ++ ar.active.map bytesOf)
  inBudget : ar.highWater ≤ budget

namespace ArenaOk

variable {budget : ℕ} {ar : Arena}

theorem span_eq (h : ArenaOk budget ar) (hb : budget < 2 ^ 64) {x : Live}
    (hx : x ∈ ar.active) : x.span = bytesOf x := by
  have hhi := h.spans.below (bytesOf x)
    (by simp only [List.mem_append, List.mem_map]; exact .inr ⟨x, hx, rfl⟩)
  have := h.inBudget
  simp only [Live.span, bytesOf] at *
  rw [Nat.mod_eq_of_lt (by omega)]

theorem recycle (h : ArenaOk budget ar) (hb : budget < 2 ^ 64) (lifeBegin : ℕ) :
    ArenaOk budget (recycle ar lifeBegin) where
  spans := by
    have hdead : (ar.active.filter fun x => decide (x.lifeEnd < lifeBegin)).map Live.span =
        (ar.active.filter fun x => decide (x.lifeEnd < lifeBegin)).map bytesOf :=
      List.map_congr_left fun x hx => h.span_eq hb (List.mem_filter.mp hx).1
    have hsplit := (List.filter_append_perm (fun x : Live => decide (x.lifeEnd < lifeBegin))
      ar.active).map bytesOf
    refine h.spans.perm ?_
    simp only [Model.FancyAllocator.recycle, hdead, List.append_assoc, ← List.map_append]
    exact hsplit.symm.append_left _
  inBudget := h.inBudget

end ArenaOk

/-- What placing a block of `need` bytes means: the invariant is kept, the blocks
of `ar` stay in use, and a block that is placed lies in the budget, is in use, and
is apart from the blocks of `ar`. -/
structure PlaceOk (budget need lifeEnd : ℕ) (ar : Arena) (p : Option ℕ × Arena) : Prop where
  ok : ArenaOk budget p.2
  stays : ∀ x ∈ ar.active, x ∈ p.2.active
  placed : ∀ y, p.1 = some y → y + need ≤ budget ∧ ⟨y, need, lifeEnd⟩ ∈ p.2.active ∧
    ∀ x ∈ ar.active, Span.Apart (bytesOf x) ⟨y, y + need⟩

theorem placeOk_take {budget lifeEnd y : ℕ} {ar ar' : Arena}
    (hspans : SpansBelow ar'.highWater (⟨y, y + need⟩ :: (ar'.freeList ++ ar.active.map bytesOf)))
    (hact : ar'.active = ar.active) (hb : ar'.highWater ≤ budget) :
    PlaceOk budget need lifeEnd ar (some y, ar'.take y need lifeEnd) where
  ok := by
    refine ⟨hspans.perm ?_, hb⟩
    simp only [Arena.take, hact, List.map_append, List.map_cons, List.map_nil, bytesOf,
      ← List.append_assoc]
    exact (List.perm_append_singleton _ _).symm
  stays := by
    intro x hx
    simp [Arena.take, hact, hx]
  placed := by
    intro z hz
    obtain rfl : y = z := Option.some.inj hz
    refine ⟨?_, by simp [Arena.take], fun x hx => ?_⟩
    · exact (hspans.below _ List.mem_cons_self).trans hb
    · refine Span.Apart.symm ((List.pairwise_cons.mp hspans.apart).1 _ ?_)
      exact List.mem_append_right _ (List.mem_map_of_mem hx)

/-- The bump keeps the invariant, if the end that passes the test does not wrap.
SOURCE: fancy_allocator.cpp:176-190 -/
theorem bump_spec {budget : ℕ} {ar : Arena} (lifeEnd : ℕ) (h : ArenaOk budget ar)
    (htop : (ar.highWater + need) % 2 ^ 64 ≤ budget → ar.highWater + need < 2 ^ 64) :
    PlaceOk budget need lifeEnd ar (bump budget need lifeEnd ar) := by
  unfold bump
  split
  · exact ⟨h, fun x hx => hx, by simp⟩
  · rename_i hpass
    have hlt := htop (by omega)
    rw [Nat.mod_eq_of_lt hlt] at hpass ⊢
    exact placeOk_take (h.spans.cons_top need) rfl (by simp only; omega)

/-- The placement of one block keeps the invariant; a block in use whose lifetime
reaches into the group's stays in use, and a placed block is apart from it.
SOURCE: fancy_allocator.cpp:151-205 -/
theorem placeGroup_spec {budget a : ℕ} {ar : Arena} (h : ArenaOk budget ar) (hb : budget < 2 ^ 64)
    (hfits : StepFits budget a ar g) :
    PlaceOk budget (needOf a g) g.lifeEnd (recycle ar g.lifeBegin) (placeGroup budget a ar g) := by
  have hrec := h.recycle hb g.lifeBegin
  have hfree : ∀ s ∈ (recycle ar g.lifeBegin).freeList, s.lo ≤ s.hi ∧ s.hi < 2 ^ 64 := by
    intro s hs
    have hmem : s ∈ (recycle ar g.lifeBegin).freeList ++
        (recycle ar g.lifeBegin).active.map bytesOf := List.mem_append_left _ hs
    have hle := hrec.spans.below s hmem
    have := hrec.inBudget
    exact ⟨hrec.spans.ordered s hmem, by omega⟩
  have hfirst : takeFit (needOf a g) (recycle ar g.lifeBegin).freeList = firstFit (needOf a g) _ :=
    takeFit_eq_firstFit hfree
  have htop := hfits.top
  unfold FindsRange at htop
  rw [hfirst] at htop
  unfold placeGroup
  simp only
  split
  · rename_i off fl hfit
    have hfit := hfirst.symm.trans hfit
    have hspans := firstFit_spansBelow _ hrec.spans hfit
    split
    · exact placeOk_take hspans rfl hrec.inBudget
    · rename_i hneg
      have hleft : ArenaOk budget { recycle ar g.lifeBegin with freeList := fl } :=
        ⟨hspans.tail, hrec.inBudget⟩
      have hbump := bump_spec g.lifeEnd hleft (htop (by simpa [hfit] using hneg))
      exact ⟨hbump.ok, hbump.stays, hbump.placed⟩
  · rename_i hnone
    exact bump_spec g.lifeEnd hrec (htop (by simp [hfirst.symm.trans hnone]))

/-- A group that gets a block has met one of the two tests. -/
theorem placed_of_placeGroup {budget a y : ℕ} {ar : Arena}
    (h : (placeGroup budget a ar g).1 = some y) :
    FindsRange a ar g ∨ PassesBudget budget a ar g := by
  have hbump : ∀ ar' : Arena, ar'.highWater = ar.highWater →
      (bump budget (needOf a g) g.lifeEnd ar').1 = some y → PassesBudget budget a ar g := by
    intro ar' hsame hy
    unfold bump at hy
    rw [hsame] at hy
    split at hy
    · cases hy
    · exact Nat.le_of_not_lt ‹_›
  unfold placeGroup at h
  simp only at h
  split at h
  · rename_i off fl hfit
    split at h
    · rename_i hpos
      left
      unfold FindsRange needOf
      rw [hfit]
      simpa using hpos
    · refine .inr (hbump _ ?_ h)
      rfl
  · refine .inr (hbump _ ?_ h)
    rfl

/-! ### A run over all groups -/

/-- The groups with the places of their blocks. -/
def placements (budget a : ℕ) : Arena → List Group → List (Group × Option ℕ)
  | _, [] => []
  | ar, g :: gs =>
    (g, (placeGroup budget a ar g).1) :: placements budget a (placeGroup budget a ar g).2 gs

theorem placements_map_fst (budget a : ℕ) (ar : Arena) (gs : List Group) :
    (placements budget a ar gs).map Prod.fst = gs := by
  induction gs generalizing ar with
  | nil => rfl
  | cons g gs ih => rw [placements, List.map_cons, ih]

/-- The block of a group at `y`. -/
def blockAt (a : ℕ) (g : Group) (y : ℕ) : Span := ⟨y, y + needOf a g⟩

/-- A later group that starts within the lifetime of an earlier one has its block
apart from the earlier one's. -/
def BlocksApart (a : ℕ) (p q : Group × Option ℕ) : Prop :=
  ∀ y z, p.2 = some y → q.2 = some z → q.1.lifeBegin ≤ p.1.lifeEnd →
    Span.Apart (blockAt a p.1 y) (blockAt a q.1 z)

/-- The run of the placement loop: blocks lie in the budget, and apart from each
other and from the blocks in use before as far as lifetimes meet. -/
theorem placements_spec {budget a : ℕ} (hb : budget < 2 ^ 64) (gs : List Group) {ar : Arena}
    (h : ArenaOk budget ar) (hfits : RunFits budget a ar gs)
    (hsorted : gs.Pairwise fun x y => x.lifeBegin ≤ y.lifeBegin) :
    (∀ p ∈ placements budget a ar gs, ∀ y, p.2 = some y →
      y + needOf a p.1 ≤ budget ∧ roundedSum a p.1.members = needOf a p.1) ∧
      (placements budget a ar gs).Pairwise (BlocksApart a) ∧
      ∀ p ∈ placements budget a ar gs, ∀ x ∈ ar.active, ∀ y, p.2 = some y →
        p.1.lifeBegin ≤ x.lifeEnd → Span.Apart (bytesOf x) (blockAt a p.1 y) := by
  induction gs generalizing ar with
  | nil => simp [placements]
  | cons g gs ih =>
    rw [List.pairwise_cons] at hsorted
    have hplace := placeGroup_spec h hb hfits.1
    obtain ⟨hin, hpair, hprev⟩ := ih hplace.ok hfits.2 hsorted.2
    have hstays : ∀ x ∈ ar.active, g.lifeBegin ≤ x.lifeEnd →
        x ∈ (recycle ar g.lifeBegin).active := by
      intro x hx hlife
      simp only [recycle, List.mem_filter, hx, true_and, Bool.not_eq_true', decide_eq_false_iff_not]
      omega
    -- the groups still to place start no earlier than `g`
    have hlater : ∀ p ∈ placements budget a (placeGroup budget a ar g).2 gs,
        g.lifeBegin ≤ p.1.lifeBegin := by
      intro p hp
      refine hsorted.1 p.1 ?_
      rw [← placements_map_fst budget a (placeGroup budget a ar g).2 gs]
      exact List.mem_map_of_mem hp
    refine ⟨?_, ?_, ?_⟩
    · intro p hp y hy
      rcases List.mem_cons.mp hp with rfl | hp
      · exact ⟨(hplace.placed y hy).1, hfits.1.layout (placed_of_placeGroup hy)⟩
      · exact hin p hp y hy
    · refine List.pairwise_cons.mpr ⟨fun q hq y z hy hz hlife => ?_, hpair⟩
      exact hprev q hq _ (hplace.placed y hy).2.1 z hz hlife
    · intro p hp x hx y hy hlife
      rcases List.mem_cons.mp hp with rfl | hp
      · exact (hplace.placed y hy).2.2 x (hstays x hx hlife)
      · exact hprev p hp x (hplace.stays x (hstays x hx ((hlater p hp).trans hlife))) y hy hlife

/-! ### From blocks to requests -/

/-- The results of a group beside the requests they are for. -/
def memberPairs (a : ℕ) : ℕ → List AllocRequest → List (AllocRequest × AllocResult)
  | _, [] => []
  | cur, r :: rest => (r, ⟨cur, false⟩) :: memberPairs a (cur + roundUp a r.size) rest

/-- All results of a group beside the requests they are for. -/
def groupPairs (a : ℕ) (p : Group × Option ℕ) : List (AllocRequest × AllocResult) :=
  match p.2 with
  | none => p.1.members.map fun r => (r, ⟨0, true⟩)
  | some off => memberPairs a off p.1.members

/-- The entry that a result makes in the map. -/
def entryOf (p : AllocRequest × AllocResult) : ℕ × AllocResult := (p.1.opId, p.2)

def bytesAt (p : AllocRequest × AllocResult) : Span := ⟨p.2.offset, p.2.offset + p.1.size⟩

theorem memberPairs_map_fst (a cur : ℕ) (l : List AllocRequest) :
    (memberPairs a cur l).map Prod.fst = l := by
  induction l generalizing cur with
  | nil => rfl
  | cons r l ih => rw [memberPairs, List.map_cons, ih]

theorem groupPairs_map_fst (a : ℕ) (p : Group × Option ℕ) :
    (groupPairs a p).map Prod.fst = p.1.members := by
  unfold groupPairs
  split
  · simp [Function.comp_def]
  · exact memberPairs_map_fst a _ _

theorem memberResults_eq {a cur : ℕ} {l : List AllocRequest}
    (h : cur + roundedSum a l < 2 ^ 64) :
    memberResults a cur l = (memberPairs a cur l).map entryOf := by
  induction l generalizing cur with
  | nil => rfl
  | cons r l ih =>
    simp only [roundedSum, List.map_cons, List.sum_cons] at h
    have hround : alignUp a r.size = roundUp a r.size := alignUp_eq_roundUp (by omega)
    have hmod : (cur + roundUp a r.size) % 2 ^ 64 = cur + roundUp a r.size :=
      Nat.mod_eq_of_lt (by omega)
    rw [memberResults, memberPairs, hround, hmod, ih (by simp only [roundedSum]; omega)]
    rfl

theorem memberPairs_spec (a cur : ℕ) (l : List AllocRequest) :
    (∀ p ∈ memberPairs a cur l, cur ≤ p.2.offset ∧
      p.2.offset + p.1.size ≤ cur + roundedSum a l) ∧
    (memberPairs a cur l).Pairwise fun p q => Span.Apart (bytesAt p) (bytesAt q) := by
  induction l generalizing cur with
  | nil => simp [memberPairs]
  | cons r l ih =>
    obtain ⟨hin, hpair⟩ := ih (cur + roundUp a r.size)
    have hle := le_roundUp a r.size
    have hsum : roundedSum a (r :: l) = roundUp a r.size + roundedSum a l := rfl
    constructor
    · intro p hp
      rcases List.mem_cons.mp hp with rfl | hp
      · simp only [hsum]
        omega
      · have := hin p hp
        rw [hsum]
        omega
    · refine List.pairwise_cons.mpr ⟨fun q hq => .inl ?_, hpair⟩
      have := (hin q hq).1
      simp only [bytesAt]
      omega

/-- The results of the whole run beside the requests they are for. -/
def allPairs (reqs : List AllocRequest) (budget a : ℕ) : List (AllocRequest × AllocResult) :=
  (placements budget a ⟨[], [], 0⟩ (groupsOf (sortRequests reqs))).flatMap (groupPairs a) ++
    ((sortRequests reqs).filter fun r => decide (r.size = 0)).map fun r => (r, ⟨0, false⟩)

theorem foldl_allocStep_allocs (budget a : ℕ) (gs : List Group) (st : AllocState) :
    (gs.foldl (allocStep budget a) st).allocs =
      store st.allocs ((placements budget a st.arena gs).flatMap
        fun p => groupResults a p.1 p.2) := by
  induction gs generalizing st with
  | nil => rfl
  | cons g gs ih =>
    rw [List.foldl_cons, ih, placements, List.flatMap_cons, store_append]
    rfl

theorem allPairs_perm (reqs : List AllocRequest) (budget a : ℕ) :
    ((allPairs reqs budget a).map Prod.fst).Perm reqs := by
  have hfst : ((placements budget a ⟨[], [], 0⟩ (groupsOf (sortRequests reqs))).flatMap
      (groupPairs a)).map Prod.fst = (groupsOf (sortRequests reqs)).flatMap (·.members) := by
    rw [List.map_flatMap]
    simp only [groupPairs_map_fst]
    rw [← List.flatMap_map, placements_map_fst]
  refine List.Perm.trans ?_ (sortRequests_perm reqs)
  rw [allPairs, List.map_append, hfst, (groupsOf_spec reqs).2.2, List.map_map]
  have hsplit := List.filter_append_perm (fun r : AllocRequest => decide (r.size = 0))
    (sortRequests reqs)
  simpa [Function.comp_def] using List.perm_append_comm.trans hsplit

theorem groupPairs_inside {a : ℕ} {p : Group × Option ℕ}
    (hfit : ∀ y, p.2 = some y → roundedSum a p.1.members = needOf a p.1) {m : AllocRequest × AllocResult}
    (hm : m ∈ groupPairs a p) (hs : m.2.spilled = false) :
    ∃ y, p.2 = some y ∧ y ≤ m.2.offset ∧ m.2.offset + m.1.size ≤ y + needOf a p.1 := by
  unfold groupPairs at hm
  split at hm
  · obtain ⟨r, -, rfl⟩ := List.mem_map.mp hm
    simp at hs
  · rename_i y hy
    refine ⟨y, hy, ?_⟩
    rw [← hfit y hy]
    exact (memberPairs_spec a y p.1.members).1 m hm

/-- A later request that is alive within the lifetime of an earlier one has bytes
apart from the earlier one's, when both are placed. -/
def PairApart (p q : AllocRequest × AllocResult) : Prop :=
  p.2.spilled = false → q.2.spilled = false → q.1.lifeBegin ≤ p.1.lifeEnd →
    Span.Apart (bytesAt p) (bytesAt q)

theorem groupPairs_pairwise (a : ℕ) (p : Group × Option ℕ) :
    (groupPairs a p).Pairwise PairApart := by
  unfold groupPairs
  split
  · refine List.pairwise_map.mpr (List.pairwise_of_forall fun x y hx => ?_)
    simp at hx
  · exact (memberPairs_spec a _ _).2.imp fun h _ _ _ => h

section Run

variable {reqs : List AllocRequest} {budget a : ℕ} (hb : budget < 2 ^ 64)
  (hfits : StepsFit budget a reqs)

include hb hfits

theorem placements_of_requests :
    (∀ p ∈ placements budget a ⟨[], [], 0⟩ (groupsOf (sortRequests reqs)),
      GroupOk p.1 ∧ ∀ y, p.2 = some y →
        y + needOf a p.1 ≤ budget ∧ roundedSum a p.1.members = needOf a p.1) ∧
    (placements budget a ⟨[], [], 0⟩ (groupsOf (sortRequests reqs))).Pairwise
      (BlocksApart a) := by
  obtain ⟨hok, hsorted, -⟩ := groupsOf_spec reqs
  have hstart : ArenaOk budget ⟨[], [], 0⟩ := ⟨SpansBelow.nil 0, Nat.zero_le _⟩
  have hbegin : (groupsOf (sortRequests reqs)).Pairwise fun x y => x.lifeBegin ≤ y.lifeBegin := by
    refine hsorted.imp fun {x y} h => ?_
    simp only [Earlier, groupLife] at h
    omega
  obtain ⟨hin, hpair, -⟩ := placements_spec hb _ hstart hfits hbegin
  refine ⟨fun p hp => ⟨?_, hin p hp⟩, hpair⟩
  apply hok
  rw [← placements_map_fst budget a ⟨[], [], 0⟩ (groupsOf (sortRequests reqs))]
  exact List.mem_map_of_mem hp

theorem allocMap_eq :
    allocMap reqs budget a = store (fun _ => none) ((allPairs reqs budget a).map entryOf) := by
  obtain ⟨hin, -⟩ := placements_of_requests hb hfits
  have hres : (placements budget a ⟨[], [], 0⟩ (groupsOf (sortRequests reqs))).flatMap
      (fun p => groupResults a p.1 p.2) =
      ((placements budget a ⟨[], [], 0⟩ (groupsOf (sortRequests reqs))).flatMap
        (groupPairs a)).map entryOf := by
    rw [List.map_flatMap]
    refine List.flatMap_congr fun p hp => ?_
    obtain ⟨-, hplaced⟩ := hin p hp
    rcases p with ⟨g, _ | y⟩
    · simp [groupPairs, groupResults, entryOf, Function.comp_def]
    · obtain ⟨hle, hround⟩ := hplaced y rfl
      refine memberResults_eq ?_
      rw [hround]
      exact hle.trans_lt hb
  unfold allocMap
  simp only
  rw [foldl_allocStep_allocs, hres, allPairs, List.map_append, store_append]
  congr 1
  simp [zeroResults, entryOf, Function.comp_def]

theorem allPairs_spec :
    (∀ m ∈ allPairs reqs budget a, m.2.spilled = false → m.2.offset + m.1.size ≤ budget) ∧
      (allPairs reqs budget a).Pairwise PairApart := by
  obtain ⟨hin, hpair⟩ := placements_of_requests hb hfits
  have hzero : ∀ m ∈ ((sortRequests reqs).filter fun r => decide (r.size = 0)).map
      (fun r => (r, (⟨0, false⟩ : AllocResult))), m.2.offset + m.1.size = 0 := by
    intro m hm
    obtain ⟨r, hr, rfl⟩ := List.mem_map.mp hm
    simpa using (List.mem_filter.mp hr).2
  constructor
  · intro m hm hs
    rcases List.mem_append.mp hm with hm | hm
    · obtain ⟨p, hp, hmp⟩ := List.mem_flatMap.mp hm
      obtain ⟨-, hplaced⟩ := hin p hp
      obtain ⟨y, hy, -, hhi⟩ := groupPairs_inside (fun y hy => (hplaced y hy).2) hmp hs
      exact hhi.trans (hplaced y hy).1
    · rw [hzero m hm]
      exact Nat.zero_le _
  · refine List.pairwise_append.mpr ⟨List.pairwise_flatMap.mpr ⟨?_, ?_⟩, ?_, ?_⟩
    · exact fun p _ => groupPairs_pairwise a p
    · refine List.Pairwise.imp_of_mem (fun {p q} hp hq hblocks => ?_) hpair
      intro m hm n hn hms hns hlife
      obtain ⟨y, hy, hlo, hhi⟩ := groupPairs_inside (fun y hy => ((hin p hp).2 y hy).2) hm hms
      obtain ⟨z, hz, hlo', hhi'⟩ := groupPairs_inside (fun y hy => ((hin q hq).2 y hy).2) hn hns
      have hmem : m.1 ∈ p.1.members := by
        rw [← groupPairs_map_fst a p]
        exact List.mem_map_of_mem hm
      have hmem' : n.1 ∈ q.1.members := by
        rw [← groupPairs_map_fst a q]
        exact List.mem_map_of_mem hn
      have hpl := (hin p hp).1.lifetime _ hmem
      have hql := (hin q hq).1.lifetime _ hmem'
      simp only [life, groupLife, Prod.mk.injEq] at hpl hql
      exact (hblocks y z hy hz (by omega)).mono hlo hhi hlo' hhi'
    · refine List.pairwise_of_forall_mem_list fun m hm n hn _ _ _ => .inl ?_
      have := hzero m hm
      simp only [bytesAt]
      omega
    · intro m _ n hn _ _ _
      refine .inr ?_
      have := hzero n hn
      simp only [bytesAt]
      omega

end Run

/-! ### The allocator -/

/-- A correct placement of the requests: each has a result, and the placed ones end
within the budget and share no byte while both are alive. -/
structure Placement (reqs : List AllocRequest) (budget : ℕ) (allocs : ℕ → Option AllocResult) :
    Prop where
  total : ∀ r ∈ reqs, ∃ x, allocs r.opId = some x
  inside : ∀ r ∈ reqs, ∀ x, allocs r.opId = some x → x.spilled = false →
    x.offset + r.size ≤ budget
  apart : ∀ r ∈ reqs, ∀ s ∈ reqs, r.opId ≠ s.opId → ∀ x y, allocs r.opId = some x →
    allocs s.opId = some y → x.spilled = false → y.spilled = false →
    r.lifeBegin ≤ s.lifeEnd → s.lifeBegin ≤ r.lifeEnd →
    x.offset + r.size ≤ y.offset ∨ y.offset + s.size ≤ x.offset

theorem placement_of_pairs {reqs : List AllocRequest} {budget : ℕ}
    {pairs : List (AllocRequest × AllocResult)} (hids : (reqs.map (·.opId)).Nodup)
    (hperm : (pairs.map Prod.fst).Perm reqs)
    (hin : ∀ m ∈ pairs, m.2.spilled = false → m.2.offset + m.1.size ≤ budget)
    (hpair : pairs.Pairwise PairApart) :
    Placement reqs budget (store (fun _ => none) (pairs.map entryOf)) := by
  have hkeys : ((pairs.map entryOf).map Prod.fst).Nodup := by
    have h := (hperm.map (·.opId)).nodup_iff.mpr hids
    simpa [entryOf, Function.comp_def] using h
  have hfind : ∀ r ∈ reqs, ∃ x, (r, x) ∈ pairs := by
    intro r hr
    obtain ⟨m, hm, rfl⟩ := List.mem_map.mp (hperm.mem_iff.mpr hr)
    exact ⟨m.2, hm⟩
  have hstore : ∀ r x, (r, x) ∈ pairs →
      store (fun _ => none) (pairs.map entryOf) r.opId = some x :=
    fun r x hm => store_of_mem _ _ hkeys _ _ (List.mem_map_of_mem (f := entryOf) hm)
  have hlook : ∀ r ∈ reqs, ∀ x, store (fun _ => none) (pairs.map entryOf) r.opId = some x →
      (r, x) ∈ pairs := by
    intro r hr x hx
    obtain ⟨y, hy⟩ := hfind r hr
    have := (hstore r y hy).symm.trans hx
    rwa [← Option.some.inj this]
  refine ⟨fun r hr => ?_, fun r hr x hx hs => ?_, ?_⟩
  · obtain ⟨x, hx⟩ := hfind r hr
    exact ⟨x, hstore r x hx⟩
  · exact hin _ (hlook r hr x hx) hs
  · intro r hr s hs hne x y hx hy hxs hys hrs hsr
    have hmr := hlook r hr x hx
    have hms := hlook s hs y hy
    have hne' : (r, x) ≠ (s, y) := fun h => hne (congrArg (fun p => p.1.opId) h)
    -- one of the two comes first in the run
    have hboth : PairApart (r, x) (s, y) ∨ PairApart (s, y) (r, x) := by
      have hsymm : Std.Symm fun p q => PairApart p q ∨ PairApart q p := ⟨fun _ _ h => h.symm⟩
      have hany : pairs.Pairwise fun p q => PairApart p q ∨ PairApart q p := hpair.imp .inl
      exact hany.forall hmr hms hne'
    rcases hboth with h | h
    · exact h hxs hys hsr
    · exact (h hys hxs hrs).symm

theorem mem_placedOf_singleton {allocs : ℕ → Option AllocResult} {p : Placed}
    (h : p ∈ placedOf allocs [r]) :
    ∃ x, allocs r.opId = some x ∧ x.spilled = false ∧
      p = ⟨x.offset, r.size, r.lifeBegin, r.lifeEnd⟩ := by
  obtain ⟨s, hs, hp⟩ := List.mem_filterMap.mp h
  obtain rfl := List.mem_singleton.mp hs
  split at hp
  · rename_i x hx
    split at hp
    · simp at hp
    · rename_i hno
      rw [not_or] at hno
      exact ⟨x, hx, Bool.eq_false_iff.mpr hno.1, (Option.some.inj hp).symm⟩
  · simp at hp

theorem validateNoOverlap_of_pairwise {l : List Placed}
    (h : l.Pairwise fun a b => conflict a b = false) : validateNoOverlap l = true := by
  induction l with
  | nil => rfl
  | cons a l ih =>
    rw [List.pairwise_cons] at h
    simp only [validateNoOverlap, Bool.and_eq_true, List.all_eq_true]
    exact ⟨fun b hb => by simp [h.1 b hb], ih h.2⟩

/-- A correct placement passes the validation. SOURCE: fancy_allocator.cpp:229-264 -/
theorem validate_of_placement {reqs : List AllocRequest} {budget : ℕ}
    {allocs : ℕ → Option AllocResult} (hb : budget < 2 ^ 64)
    (hids : (reqs.map (·.opId)).Nodup) (h : Placement reqs budget allocs) :
    validateNoOverlap (placedOf allocs (sortRequests reqs)) = true := by
  have hmem : ∀ r, r ∈ sortRequests reqs ↔ r ∈ reqs := fun r => (sortRequests_perm reqs).mem_iff
  have hne : (sortRequests reqs).Pairwise fun r s => r.opId ≠ s.opId := by
    have hsorted := (((sortRequests_perm reqs).map AllocRequest.opId).nodup_iff).mpr hids
    exact List.pairwise_map.mp hsorted
  refine validateNoOverlap_of_pairwise ?_
  unfold placedOf
  refine List.pairwise_filterMap.mpr (List.Pairwise.imp_of_mem ?_ hne)
  intro r s hr hs hrs p hp q hq
  have hpr : p ∈ placedOf allocs [r] := List.mem_filterMap.mpr ⟨r, by simp, hp⟩
  have hqs : q ∈ placedOf allocs [s] := List.mem_filterMap.mpr ⟨s, by simp, hq⟩
  obtain ⟨x, hx, hxs, rfl⟩ := mem_placedOf_singleton hpr
  obtain ⟨y, hy, hys, rfl⟩ := mem_placedOf_singleton hqs
  rw [hmem] at hr hs
  have hxin := h.inside _ hr x hx hxs
  have hyin := h.inside _ hs y hy hys
  have hapart := h.apart _ hr _ hs hrs x y hx hy hxs hys
  simp only [conflict, Bool.and_eq_false_iff, decide_eq_false_iff_not]
  rw [Nat.mod_eq_of_lt (by omega), Nat.mod_eq_of_lt (by omega)]
  by_cases hlife : r.lifeBegin < s.lifeEnd ∧ s.lifeBegin < r.lifeEnd
  · have := hapart hlife.1.le hlife.2.le
    exact .inr (by omega)
  · exact .inl hlife

section Allocator

variable {reqs : List AllocRequest} {budget alignment : ℕ}
  (hids : (reqs.map (·.opId)).Nodup) (hb : budget < 2 ^ 64)
  (hfits : StepsFit budget alignment reqs)

include hids hb hfits

theorem allocMap_placement : Placement reqs budget (allocMap reqs budget alignment) := by
  obtain ⟨hin, hpair⟩ := allPairs_spec hb hfits
  rw [allocMap_eq hb hfits]
  exact placement_of_pairs hids (allPairs_perm reqs budget alignment) hin hpair

theorem allocateWithLifetime_eq_allocMap :
    allocateWithLifetime reqs budget alignment = some (allocMap reqs budget alignment) := by
  have hplace := allocMap_placement hids hb hfits
  unfold allocateWithLifetime
  rw [if_pos (validate_of_placement hb hids hplace)]

/-- Requests with distinct ids, in whose placement every group that gets a block fills it as its
members are laid out, and no end of a block wraps: the allocator returns, and its result is a
correct placement. SOURCE: fancy_allocator.cpp:87-264 -/
theorem allocateWithLifetime_placement :
    ∃ allocs, allocateWithLifetime reqs budget alignment = some allocs ∧
      Placement reqs budget allocs :=
  ⟨_, allocateWithLifetime_eq_allocMap hids hb hfits, allocMap_placement hids hb hfits⟩

end Allocator

/-- Two tensors of one lifetime that fill their rounded sizes, a third one that dies before them and
leaves its bytes to a fourth, and two more that do not fill theirs, for which there is no room. -/
def fittingRequests : List AllocRequest :=
  [⟨1, 128, 0, 4, by decide⟩, ⟨2, 256, 0, 4, by decide⟩, ⟨3, 100, 1, 2, by decide⟩,
    ⟨4, 128, 3, 4, by decide⟩, ⟨5, 1, 4, 5, by decide⟩, ⟨6, 1, 4, 5, by decide⟩]

/-- The fourth tensor gets the bytes of the third one, and the last two are spilled. -/
theorem fittingRequests_placement :
    allocMap fittingRequests 512 128 4 = allocMap fittingRequests 512 128 3 ∧
      allocMap fittingRequests 512 128 6 = some ⟨0, true⟩ ∧
      ∃ allocs, allocateWithLifetime fittingRequests 512 128 = some allocs ∧
        Placement fittingRequests 512 allocs :=
  ⟨by decide, by decide, allocateWithLifetime_placement (by decide) (by decide) (by decide)⟩

/-- Two one-byte tensors of one lifetime share a block of 128 bytes, the second one
is put behind its end, and the next tensor's block starts there. -/
def sharedRequests : List AllocRequest :=
  [⟨1, 1, 0, 4, by decide⟩, ⟨2, 1, 0, 4, by decide⟩, ⟨3, 1, 1, 4, by decide⟩]

/-- Requests 2 and 3 get the same address, and the validation fails. -/
theorem sharedRequests_overlap :
    (sharedRequests.map (·.opId)).Nodup ∧
      allocMap sharedRequests 256 128 2 = some ⟨128, false⟩ ∧
      allocMap sharedRequests 256 128 3 = some ⟨128, false⟩ ∧
      allocateWithLifetime sharedRequests 256 128 = none ∧
      ¬ Placement sharedRequests 256 (allocMap sharedRequests 256 128) := by
  refine ⟨by decide, by decide, by decide, ?_, fun h => ?_⟩
  · have hfail : validateNoOverlap (placedOf (allocMap sharedRequests 256 128)
        (sortRequests sharedRequests)) = false := by decide
    simp [allocateWithLifetime, hfail]
  · have := h.apart ⟨2, 1, 0, 4, by decide⟩ (by decide) ⟨3, 1, 1, 4, by decide⟩ (by decide)
      (by decide) ⟨128, false⟩ ⟨128, false⟩ (by decide) (by decide) rfl rfl (by decide) (by decide)
    simp at this

end Gehtp.Analysis.FancyAllocatorSafe
