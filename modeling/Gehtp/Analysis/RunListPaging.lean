import Gehtp.Model.RunList
import Mathlib.Data.List.Sort

/-!
# When the paging steps are where they belong

The places of a spill and its fill are looked up in the tensors of the plan. But `schedule` does not
hand over the tensors it has collected, so every look-up fails: all spills come right after the first
step and all fills at the end, as far as an `int` counts the steps. That is right exactly if nothing
but the first step has to come before a spill, and nothing up to the end has to come after a fill.
-/

set_option autoImplicit false

namespace Gehtp.Analysis.RunListPaging

open Lib.Sequences Model.OpGraph Model.RunList

/-! ### What a run list should be -/

/-- The place of a step: an operator of the graph, or the spill or fill of a paging plan. -/
inductive Slot where
  | step (i : ℕ)
  | spill (k : ℕ)
  | fill (k : ℕ)
  deriving DecidableEq

def Slot.step? : Slot → Option ℕ
  | .step i => some i
  | .spill _ => none
  | .fill _ => none

/-- Each operator, each spill and each fill once. -/
def slots (n m : ℕ) : List Slot :=
  (List.range n).map .step ++ ((List.range m).map .spill ++ (List.range m).map .fill)

/-- The same step but for its record id. -/
def Renumbered (a b : ScheduledOp) : Prop := b = { a with recordId := b.recordId }

structure IsSpill (pl : CPSpillFillPlan) (op : ScheduledOp) : Prop where
  type : op.type = .dma
  stepName : op.stepName = "CpSpill"
  tensorId : op.tensorId = .ofNat pl.opId
  extras : op.extras = [pl.ddrOffset.toUInt32, pl.vtcmOffsetSpill.toUInt32, pl.size.toUInt32]

structure IsFill (pl : CPSpillFillPlan) (op : ScheduledOp) : Prop where
  type : op.type = .dma
  stepName : op.stepName = "CpFill"
  tensorId : op.tensorId = .ofNat pl.opId
  extras : op.extras = [pl.ddrOffset.toUInt32, pl.vtcmOffset.toUInt32, pl.size.toUInt32]

/-- The step of the run list is the one of the slot. -/
def IsRecord (gp : GraphPrepare) : Slot → ScheduledOp → Prop
  | .step i, op => ∃ x, gp.live[i]? = some x ∧ Renumbered (graphStep i (tensorInfo x.2)) op
  | .spill k, op => ∃ pl, gp.cpPlans[k]? = some pl ∧ IsSpill pl op
  | .fill k, op => ∃ pl, gp.cpPlans[k]? = some pl ∧ IsFill pl op

/-- The operator reads the paged tensor. -/
def Consumes (pl : CPSpillFillPlan) (x : ℕ × OpDef) : Prop :=
  ∃ conn ∈ x.2.inputs, conn.srcId = pl.opId

/-- The operator reads the tensor before it is spilled. -/
def ServedBefore (gp : GraphPrepare) (pl : CPSpillFillPlan) (x : ℕ × OpDef) : Prop :=
  Consumes pl x ∧ ∃ t ≤ pl.spillPosition, gp.cpTopo[t]? = some x.1

/-- The operator reads the refilled copy. -/
def ServedAfter (gp : GraphPrepare) (pl : CPSpillFillPlan) (x : ℕ × OpDef) : Prop :=
  Consumes pl x ∧ ∃ t ≥ pl.fillPosition, gp.cpTopo[t]? = some x.1

/-- The run list has each step of the graph, in their order, and a spill and a fill for each plan,
where they belong. -/
structure Paged (gp : GraphPrepare) (run : List Slot) (ops : List ScheduledOp) : Prop where
  once : run.Perm (slots gp.live.length gp.cpPlans.length)
  order : run.filterMap Slot.step? = List.range gp.live.length
  records : List.Forall₂ (IsRecord gp) run ops
  afterProducer : ∀ i x k pl, gp.live[i]? = some x → gp.cpPlans[k]? = some pl → x.1 = pl.opId →
    Before (.step i) (.spill k) run
  afterServed : ∀ i x k pl, gp.live[i]? = some x → gp.cpPlans[k]? = some pl →
    ServedBefore gp pl x → Before (.step i) (.spill k) run
  spillFill : ∀ k < gp.cpPlans.length, Before (.spill k) (.fill k) run
  beforeServed : ∀ i x k pl, gp.live[i]? = some x → gp.cpPlans[k]? = some pl →
    ServedAfter gp pl x → Before (.fill k) (.step i) run

/-- The result is a run list as it should be. -/
def WellPaged (gp : GraphPrepare) (result : Option (Scheduler × Plan)) : Prop :=
  ∃ st plan run, result = some (st, plan) ∧ Paged gp run plan.ops

/-- The tail of `n` steps: the number of them as an `int`, but not the head. -/
def tailOf (n : ℕ) : ℕ := if asInt n ≤ 0 then 1 else (asInt n).toNat

/-- Only the first step has to come before the spill, and nothing of the first `p` after the fill. -/
structure AtTheEnds (gp : GraphPrepare) (p : ℕ) (pl : CPSpillFillPlan) : Prop where
  size : pl.size ≠ 0
  first : ∀ i x, gp.live[i]? = some x → x.1 = pl.opId ∨ ServedBefore gp pl x → i = 0
  last : ∀ i x, gp.live[i]? = some x → ServedAfter gp pl x → p ≤ i

/-- There is nothing to page, or all of it at the ends. -/
def AllAtTheEnds (gp : GraphPrepare) : Prop :=
  gp.cpPlans = [] ∨
    (gp.cpActive = true ∧ gp.live ≠ [] ∧
      ∀ pl ∈ gp.cpPlans, AtTheEnds gp (tailOf gp.live.length) pl)

variable {pl : CPSpillFillPlan} {ops : List ScheduledOp}

/-! ### The insertions -/

section Insertions

variable {plan : Plan} {gp : GraphPrepare}

/-- The spill and the fill of a paging plan. -/
def Pages (pl : CPSpillFillPlan) (rec : ScheduledOp × ScheduledOp) : Prop :=
  IsSpill pl rec.1 ∧ IsFill pl rec.2

theorem one_le_tailOf (n : ℕ) : 1 ≤ tailOf n := by
  unfold tailOf
  split <;> omega

theorem asInt_le (n : ℕ) : asInt n ≤ n := by
  unfold asInt Int.bmod
  dsimp only
  split <;> omega

theorem tailOf_le {n : ℕ} (h : 0 < n) : tailOf n ≤ n := by
  have hle := asInt_le n
  unfold tailOf
  split <;> omega

/-- While an `int` counts the steps, the tail is behind all of them. -/
theorem tailOf_of_lt {n : ℕ} (h : 0 < n) (hlt : n < 2 ^ 31) : tailOf n = n := by
  have heq : asInt n = n := by
    apply Int.bmod_eq_of_le <;> omega
  rw [tailOf, heq, if_neg (by omega), Int.toNat_natCast]

theorem spillAt_of_no_tensors (h : plan.tensors = []) (pl : CPSpillFillPlan) :
    spillAt plan pl = 0 := by
  rw [spillAt, h]
  rfl

theorem fillAt_of_no_tensors (h : plan.tensors = []) (pl : CPSpillFillPlan) :
    (fillAt plan pl).toNat = tailOf plan.ops.length := by
  unfold fillAt tailOf
  rw [spillAt_of_no_tensors h, h]
  dsimp only [List.getElem?_nil]
  rw [if_pos (by decide : (-1 : ℤ) < 0)]
  split <;> simp

/-- The insertions of a spill and a fill, the latter at `p`. -/
def insertionsOf (p : ℕ) (rec : ScheduledOp × ScheduledOp) : List Insertion :=
  [⟨1, false, rec.1⟩, ⟨p, true, rec.2⟩]

variable (gp) in
theorem planInsertions_of_no_tensors (h : plan.tensors = []) (st : Scheduler)
    (hsize : pl.size ≠ 0) :
    ∃ rec, Pages pl rec ∧ (planInsertions plan gp st pl).2 =
      insertionsOf (tailOf plan.ops.length) rec := by
  unfold planInsertions
  rw [if_neg hsize, spillAt_of_no_tensors h, fillAt_of_no_tensors h]
  exact ⟨(_, _), ⟨⟨rfl, rfl, rfl, rfl⟩, ⟨rfl, rfl, rfl, rfl⟩⟩, rfl⟩

/-- The paging plans that move something. -/
def moving (pls : List CPSpillFillPlan) : List CPSpillFillPlan :=
  pls.filter fun pl => pl.size ≠ 0

theorem collectInsertions_cons (st : Scheduler) (pl : CPSpillFillPlan)
    (pls : List CPSpillFillPlan) :
    (collectInsertions plan gp st (pl :: pls)).2 = (planInsertions plan gp st pl).2 ++
      (collectInsertions plan gp (planInsertions plan gp st pl).1 pls).2 := rfl

variable (gp) in
theorem collectInsertions_of_no_tensors (h : plan.tensors = []) (st : Scheduler)
    (pls : List CPSpillFillPlan) :
    ∃ recs, List.Forall₂ Pages (moving pls) recs ∧
      (collectInsertions plan gp st pls).2 =
        recs.flatMap (insertionsOf (tailOf plan.ops.length)) := by
  induction pls generalizing st with
  | nil => exact ⟨[], List.Forall₂.nil, rfl⟩
  | cons pl pls ih =>
    obtain ⟨recs, hrecs, hins⟩ := ih (planInsertions plan gp st pl).1
    by_cases hsize : pl.size = 0
    · refine ⟨recs, ?_, ?_⟩
      · rw [moving, List.filter_cons_of_neg (by simpa using hsize)]
        exact hrecs
      · have hnone : (planInsertions plan gp st pl).2 = [] := by
          unfold planInsertions
          rw [if_pos hsize]
        rw [collectInsertions_cons, hins, hnone]
        rfl
    · obtain ⟨rec, hrec, hpl⟩ := planInsertions_of_no_tensors gp h st hsize
      refine ⟨rec :: recs, ?_, ?_⟩
      · rw [moving, List.filter_cons_of_pos (by simpa using hsize)]
        exact List.Forall₂.cons hrec hrecs
      · rw [collectInsertions_cons, hins, hpl]
        rfl

theorem insertAll_same {p : ℕ} {ins : List Insertion} (hpos : ∀ e ∈ ins, e.pos = p)
    (hp : p ≤ ops.length) (ins' : List Insertion) :
    insertAll ops (ins ++ ins') =
      insertAll (ops.take p ++ ((ins.map Insertion.op).reverse ++ ops.drop p)) ins' := by
  induction ins generalizing ops with
  | nil =>
    show insertAll ops ins' = insertAll (ops.take p ++ ops.drop p) ins'
    rw [List.take_append_drop]
  | cons e ins ih =>
    have he : e.pos = p := hpos e List.mem_cons_self
    have htake : (ops.take p).length = p := List.length_take_of_le hp
    have hlen : p ≤ (ops.take p ++ e.op :: ops.drop p).length := by
      rw [List.length_append, htake]
      exact Nat.le_add_right _ _
    show (if e.pos ≤ ops.length then
      insertAll (ops.take e.pos ++ e.op :: ops.drop e.pos) (ins ++ ins') else none) = _
    rw [he, if_pos hp, ih (fun e' he' => hpos e' (List.mem_cons_of_mem e he')) hlen,
      List.take_left' htake, List.drop_left' htake, List.map_cons, List.reverse_cons,
      List.append_assoc]
    rfl

theorem filter_insertionsOf (p : ℕ) (recs : List (ScheduledOp × ScheduledOp)) :
    (recs.flatMap (insertionsOf p)).filter (fun e => e.isFill) =
        recs.map (fun r => ⟨p, true, r.2⟩) ∧
      (recs.flatMap (insertionsOf p)).filter (fun e => !e.isFill) =
        recs.map fun r => ⟨1, false, r.1⟩ := by
  induction recs with
  | nil => exact ⟨rfl, rfl⟩
  | cons r recs ih =>
    rw [List.flatMap_cons, List.filter_append, List.filter_append, ih.1, ih.2]
    exact ⟨rfl, rfl⟩

theorem map_zipIdx_fst {α β : Type} (l : List α) (f : α → β) :
    l.map f = l.zipIdx.map fun x => f x.1 := by
  have h := congrArg (List.map f) (List.zipIdx_map_fst 0 l)
  rw [List.map_map] at h
  exact h.symm

theorem less_iff (a b : Insertion) : Insertion.less a b = true ↔
    a.pos > b.pos ∨ (a.pos = b.pos ∧ a.isFill = true ∧ b.isFill = false) := by
  unfold Insertion.less
  split
  · rename_i hne
    rw [decide_eq_true_iff]
    exact ⟨Or.inl, fun h => h.resolve_right fun h' => hne h'.1⟩
  · rename_i heq
    have heq := not_not.mp heq
    rw [Bool.and_eq_true, Bool.not_eq_true']
    exact ⟨fun h => Or.inr ⟨heq, h⟩, fun h => (h.resolve_left (by omega)).2⟩

/-- Sorted, the fills come first, as none of them stands in front of a spill. -/
theorem sorted_insertions (sort : StdSort Insertion.less) {p : ℕ} (hone : 1 ≤ p)
    (recs : List (ScheduledOp × ScheduledOp)) :
    ∃ spills fills : List ((ScheduledOp × ScheduledOp) × ℕ),
      spills.Perm recs.zipIdx ∧ fills.Perm recs.zipIdx ∧
      sort.sort (recs.flatMap (insertionsOf p)) =
        fills.map (fun r => ⟨p, true, r.1.2⟩) ++ spills.map fun r => ⟨1, false, r.1.1⟩ := by
  have hperm := sort.perm (recs.flatMap (insertionsOf p))
  have hkind : ∀ e ∈ sort.sort (recs.flatMap (insertionsOf p)),
      (e.isFill = true → e.pos = p) ∧ (e.isFill = false → e.pos = 1) := by
    intro e he
    obtain ⟨r, -, her⟩ := List.mem_flatMap.mp (hperm.subset he)
    rcases List.mem_cons.mp her with rfl | her
    · exact ⟨fun h => absurd h Bool.false_ne_true, fun _ => rfl⟩
    · cases List.mem_singleton.mp her
      exact ⟨fun _ => rfl, fun h => absurd h.symm Bool.false_ne_true⟩
  have hfirst : (sort.sort (recs.flatMap (insertionsOf p))).Pairwise
      fun a b => b.isFill = true → a.isFill = true := by
    apply (sort.sorted _).imp_of_mem
    intro a b ha hb hless hfill
    by_contra hspill
    have hspill : a.isFill = false := Bool.eq_false_iff.mpr hspill
    rw [← Bool.not_eq_true, less_iff, (hkind b hb).1 hfill, (hkind a ha).2 hspill] at hless
    apply hless
    rcases Nat.lt_or_eq_of_le hone with hlt | heq
    · exact Or.inl hlt
    · exact Or.inr ⟨heq.symm, hfill, hspill⟩
  have hfills := hperm.filter fun e => e.isFill
  have hspills := hperm.filter fun e => !e.isFill
  rw [(filter_insertionsOf p recs).1, map_zipIdx_fst] at hfills
  rw [(filter_insertionsOf p recs).2, map_zipIdx_fst] at hspills
  obtain ⟨fills, hfills', hfillsEq⟩ := exists_perm_of_perm_map hfills
  obtain ⟨spills, hspills', hspillsEq⟩ := exists_perm_of_perm_map hspills
  refine ⟨spills, fills, hspills', hfills', ?_⟩
  rw [← hfillsEq, ← hspillsEq, filter_append_filter_not hfirst]

/-- The steps with the spills after the first one and the fills behind the first `p`. -/
def atEnds (p : ℕ) (base : List ScheduledOp)
    (spills fills : List ((ScheduledOp × ScheduledOp) × ℕ)) : List ScheduledOp :=
  base.take 1 ++ (spills.map (fun r => r.1.1) ++
    ((base.take p).drop 1 ++ (fills.map (fun r => r.1.2) ++ base.drop p)))

theorem insertAll_sorted (sort : StdSort Insertion.less) {p : ℕ} (hone : 1 ≤ p)
    (hp : p ≤ ops.length) (recs : List (ScheduledOp × ScheduledOp)) :
    ∃ spills fills : List ((ScheduledOp × ScheduledOp) × ℕ),
      spills.Perm recs.zipIdx ∧ fills.Perm recs.zipIdx ∧
      insertAll ops (sort.sort (recs.flatMap (insertionsOf p))) =
        some (atEnds p ops spills fills) := by
  obtain ⟨spills, fills, hspills, hfills, hsort⟩ := sorted_insertions sort hone recs
  refine ⟨spills.reverse, fills.reverse, (List.reverse_perm _).trans hspills,
    (List.reverse_perm _).trans hfills, ?_⟩
  have htake : (ops.take p).length = p := List.length_take_of_le hp
  have hfront : 1 ≤ (ops.take p).length := htake.symm ▸ hone
  have hlen : 1 ≤ (ops.take p ++ ((fills.map fun r => r.1.2).reverse ++ ops.drop p)).length := by
    rw [List.length_append]
    omega
  have hfillsAt : ∀ e ∈ fills.map (fun r => (⟨p, true, r.1.2⟩ : Insertion)), e.pos = p := by
    intro e he
    obtain ⟨r, -, rfl⟩ := List.mem_map.mp he
    rfl
  have hspillsAt : ∀ e ∈ spills.map (fun r => (⟨1, false, r.1.1⟩ : Insertion)), e.pos = 1 := by
    intro e he
    obtain ⟨r, -, rfl⟩ := List.mem_map.mp he
    rfl
  have h := insertAll_same hspillsAt hlen []
  rw [List.append_nil] at h
  rw [hsort, insertAll_same hfillsAt hp, List.map_map]
  show insertAll (ops.take p ++ ((fills.map fun r => r.1.2).reverse ++ ops.drop p)) _ = _
  rw [h, List.take_append_of_le_length hfront, List.drop_append_of_le_length hfront,
    List.take_take, Nat.min_eq_left hone, List.map_map, ← List.map_reverse, ← List.map_reverse]
  rfl

end Insertions

variable {s : Slot}

/-! ### The records -/

section Records

variable {gp : GraphPrepare} {a b : ScheduledOp}

theorem Renumbered.symm (h : Renumbered a b) : Renumbered b a := by
  unfold Renumbered at h ⊢
  rw [h]

theorem Renumbered.trans {c : ScheduledOp} (h : Renumbered a b) (h' : Renumbered b c) :
    Renumbered a c := by
  unfold Renumbered at h h' ⊢
  rw [h', h]

theorem Renumbered.type (h : Renumbered a b) : b.type = a.type := by
  unfold Renumbered at h
  rw [h]

theorem IsRecord.renumbered (h : IsRecord gp s a) (hab : Renumbered a b) : IsRecord gp s b := by
  cases s with
  | step i =>
    obtain ⟨x, hx, hstep⟩ := h
    exact ⟨x, hx, hstep.trans hab⟩
  | spill k =>
    obtain ⟨pl, hpl, hspill⟩ := h
    unfold Renumbered at hab
    rw [hab]
    exact ⟨pl, hpl, hspill.type, hspill.stepName, hspill.tensorId, hspill.extras⟩
  | fill k =>
    obtain ⟨pl, hpl, hfill⟩ := h
    unfold Renumbered at hab
    rw [hab]
    exact ⟨pl, hpl, hfill.type, hfill.stepName, hfill.tensorId, hfill.extras⟩

theorem renumbered_renumber (ops : List ScheduledOp) :
    List.Forall₂ Renumbered ops (renumber ops) := by
  have hlen : (renumber ops).length = ops.length := List.length_mapIdx
  apply List.forall₂_iff_get.mpr
  refine ⟨hlen.symm, ?_⟩
  intro i h₁ h₂
  simp only [renumber, List.get_eq_getElem, List.getElem_mapIdx]
  rfl

theorem forall₂_renumber (run : List Slot) (ops : List ScheduledOp) :
    List.Forall₂ (IsRecord gp) run (renumber ops) ↔ List.Forall₂ (IsRecord gp) run ops := by
  have h := renumbered_renumber ops
  have hback : List.Forall₂ Renumbered (renumber ops) ops :=
    (h.imp fun _ _ hab => Renumbered.symm hab).flip
  have hkeep : ∀ s a b, IsRecord gp s a → Renumbered a b → IsRecord gp s b :=
    fun _ _ _ hs hab => hs.renumbered hab
  exact ⟨fun hrun => forall₂_comp hkeep hrun hback, fun hrun => forall₂_comp hkeep hrun h⟩

theorem basePlan_records (gp : GraphPrepare) (bestDense : Option (List ℕ)) :
    List.Forall₂ (IsRecord gp) ((List.range gp.live.length).map Slot.step)
      (basePlan gp bestDense).ops := by
  have hlen : (basePlan gp bestDense).ops.length = gp.live.length := by
    simp [basePlan]
  apply List.forall₂_iff_get.mpr
  refine ⟨by rw [List.length_map, List.length_range, hlen], ?_⟩
  intro i h₁ h₂
  have hi : i < gp.live.length := hlen ▸ h₂
  simp only [basePlan, List.get_eq_getElem, List.getElem_map, List.getElem_range,
    List.getElem_mapIdx]
  exact ⟨gp.live[i], List.getElem?_eq_getElem hi, rfl⟩

theorem basePlan_length (gp : GraphPrepare) (bestDense : Option (List ℕ)) :
    (basePlan gp bestDense).ops.length = gp.live.length := by
  have h := (basePlan_records gp bestDense).length_eq
  rw [List.length_map, List.length_range] at h
  exact h.symm

end Records

variable {run : List Slot}

/-! ### The paging steps at the ends -/

section Ends

variable {gp : GraphPrepare} {recs : List (ScheduledOp × ScheduledOp)}
  {zs : List ((ScheduledOp × ScheduledOp) × ℕ)}

/-- The run list that `schedule` makes: the spills after the first step, the fills behind the first
`p`. -/
def endsRun (n p : ℕ) (spills fills : List ℕ) : List Slot :=
  ((List.range n).map Slot.step).take 1 ++ (spills.map .spill ++
    ((((List.range n).map Slot.step).take p).drop 1 ++
      (fills.map .fill ++ ((List.range n).map Slot.step).drop p)))

theorem zipIdx_snd_perm (h : zs.Perm recs.zipIdx) :
    (zs.map Prod.snd).Perm (List.range recs.length) := by
  have hsnd := h.map Prod.snd
  rw [List.zipIdx_map_snd, ← List.range_eq_range'] at hsnd
  exact hsnd

/-- The first of the steps, the others up to `p` and those behind it are all of them. -/
theorem steps_split {α : Type} {p : ℕ} (hone : 1 ≤ p) (l : List α) :
    l.take 1 ++ ((l.take p).drop 1 ++ l.drop p) = l := by
  have hfirst : l.take 1 = (l.take p).take 1 := by rw [List.take_take, Nat.min_eq_left hone]
  rw [← List.append_assoc, hfirst, List.take_append_drop, List.take_append_drop]

theorem endsRun_perm {n p m : ℕ} {spills fills : List ℕ} (hone : 1 ≤ p)
    (hspills : spills.Perm (List.range m)) (hfills : fills.Perm (List.range m)) :
    (endsRun n p spills fills).Perm (slots n m) := by
  have hsteps := steps_split hone ((List.range n).map Slot.step)
  unfold endsRun slots
  generalize ((List.range n).map Slot.step).take 1 = a at hsteps ⊢
  generalize (((List.range n).map Slot.step).take p).drop 1 = b at hsteps ⊢
  generalize ((List.range n).map Slot.step).drop p = c at hsteps ⊢
  rw [← hsteps]
  have hpages := (hspills.map Slot.spill).append (hfills.map Slot.fill)
  have hmove : (spills.map Slot.spill ++ (b ++ (fills.map Slot.fill ++ c))).Perm
      (b ++ c ++ (spills.map Slot.spill ++ fills.map Slot.fill)) := by
    have hfill : (b ++ (fills.map Slot.fill ++ c)).Perm (b ++ (c ++ fills.map Slot.fill)) :=
      List.perm_append_comm.append_left b
    have hspill := List.perm_append_comm_assoc (spills.map Slot.spill) (b ++ c)
      (fills.map Slot.fill)
    rw [List.append_assoc b c] at hspill
    exact (hfill.append_left _).trans hspill
  have h := (hmove.trans (hpages.append_left _)).append_left a
  rwa [← List.append_assoc a (b ++ c)] at h

theorem endsRun_order {n p : ℕ} (hone : 1 ≤ p) (spills fills : List ℕ) :
    (endsRun n p spills fills).filterMap Slot.step? = List.range n := by
  have hnone : ∀ (l : List ℕ) (f : ℕ → Slot), (∀ k, (f k).step? = none) →
      (l.map f).filterMap Slot.step? = [] := by
    intro l f hf
    rw [List.filterMap_map]
    exact List.filterMap_eq_nil_iff.mpr fun k _ => hf k
  have hall : ((List.range n).map Slot.step).filterMap Slot.step? = List.range n := by
    rw [List.filterMap_map]
    exact List.filterMap_some
  unfold endsRun
  rw [List.filterMap_append, List.filterMap_append, List.filterMap_append, List.filterMap_append,
    hnone spills _ fun _ => rfl, hnone fills _ fun _ => rfl, List.nil_append, List.nil_append,
    ← List.filterMap_append, ← List.filterMap_append, steps_split hone, hall]

theorem records_of_zip {f : ℕ → Slot} {g : ScheduledOp × ScheduledOp → ScheduledOp}
    (hfg : ∀ k r, recs[k]? = some r → IsRecord gp (f k) (g r)) (h : zs.Perm recs.zipIdx) :
    List.Forall₂ (IsRecord gp) ((zs.map Prod.snd).map f) (zs.map fun r => g r.1) := by
  rw [List.map_map, List.forall₂_map_left_iff, List.forall₂_map_right_iff]
  apply List.forall₂_same.mpr
  rintro ⟨r, k⟩ hrk
  apply hfg k r
  exact List.mem_zipIdx_iff_getElem?.mp (h.subset hrk)

theorem paged_endsRun {p : ℕ} (hone : 1 ≤ p) (hends : ∀ pl ∈ gp.cpPlans, AtTheEnds gp p pl)
    (hlive : gp.live ≠ [])
    {spills fills : List ℕ} (hspills : spills.Perm (List.range gp.cpPlans.length))
    (hfills : fills.Perm (List.range gp.cpPlans.length))
    (hrecords : List.Forall₂ (IsRecord gp)
      (endsRun gp.live.length p spills fills) ops) :
    Paged gp (endsRun gp.live.length p spills fills) ops := by
  have hplan : ∀ {k pl}, gp.cpPlans[k]? = some pl → AtTheEnds gp p pl :=
    fun hk => hends _ (List.mem_of_getElem? hk)
  have hspill : ∀ {k pl}, gp.cpPlans[k]? = some pl → Slot.spill k ∈ spills.map Slot.spill := by
    intro k pl hk
    obtain ⟨hlt, -⟩ := List.getElem?_eq_some_iff.mp hk
    exact List.mem_map_of_mem (hspills.symm.subset (List.mem_range.mpr hlt))
  have hzero : Slot.step 0 ∈ ((List.range gp.live.length).map Slot.step).take 1 := by
    have hpos : 0 < gp.live.length := List.length_pos_of_ne_nil hlive
    obtain ⟨n, hn⟩ := Nat.exists_eq_succ_of_ne_zero (Nat.ne_of_gt hpos)
    rw [hn, List.range_succ_eq_map]
    exact List.mem_cons_self
  have hfill : ∀ {k pl}, gp.cpPlans[k]? = some pl → Slot.fill k ∈ fills.map Slot.fill := by
    intro k pl hk
    obtain ⟨hlt, -⟩ := List.getElem?_eq_some_iff.mp hk
    exact List.mem_map_of_mem (hfills.symm.subset (List.mem_range.mpr hlt))
  have hfirst : ∀ {k pl}, gp.cpPlans[k]? = some pl → Before (.step 0) (.spill k)
      (endsRun gp.live.length p spills fills) :=
    fun hk => Before.append hzero (List.mem_append_left _ (hspill hk))
  refine ⟨endsRun_perm hone hspills hfills, endsRun_order hone _ _, hrecords, ?_, ?_, ?_, ?_⟩
  · intro i x k pl hx hk hid
    rw [(hplan hk).first i x hx (Or.inl hid)]
    exact hfirst hk
  · intro i x k pl hx hk hserved
    rw [(hplan hk).first i x hx (Or.inr hserved)]
    exact hfirst hk
  · intro k hk
    have hk' := List.getElem?_eq_getElem hk
    apply Before.append_right (Before.append (hspill hk') _)
    exact List.mem_append_right _ (List.mem_append_left _ (hfill hk'))
  · intro i x k pl hx hk hserved
    have hi := (hplan hk).last i x hx hserved
    obtain ⟨hlt, -⟩ := List.getElem?_eq_some_iff.mp hx
    have hlater : Slot.step i ∈ ((List.range gp.live.length).map Slot.step).drop
        p := by
      apply List.mem_drop_iff_getElem.mpr
      refine ⟨i - p, ?_, ?_⟩
      · rw [List.length_map, List.length_range]
        omega
      · simp only [List.getElem_map, List.getElem_range, Nat.add_sub_cancel' hi]
    exact (((Before.append (hfill hk) hlater).append_right _).append_right _).append_right _

theorem exists_step_of_record {op : ScheduledOp} (h : IsRecord gp s op) (htype : op.type ≠ .dma) :
    ∃ i, s = .step i := by
  cases s with
  | step i => exact ⟨i, rfl⟩
  | spill k =>
    obtain ⟨_, -, hspill⟩ := h
    exact absurd hspill.type htype
  | fill k =>
    obtain ⟨_, -, hfill⟩ := h
    exact absurd hfill.type htype

theorem graphStep_type (i : ℕ) (t : TensorInfo) : (graphStep i t).type ≠ .dma := by
  unfold graphStep
  split <;> exact OpRecordType.noConfusion

theorem exists_spill_of_record {op : ScheduledOp} (h : IsRecord gp s op) (hop : IsSpill pl op) :
    ∃ k, s = .spill k := by
  cases s with
  | step i =>
    obtain ⟨x, -, hstep⟩ := h
    have htype : op.type = (graphStep i (tensorInfo x.2)).type := hstep.type
    exact absurd (htype.symm.trans hop.type) (graphStep_type i _)
  | spill k => exact ⟨k, rfl⟩
  | fill k =>
    obtain ⟨_, -, hfill⟩ := h
    exact absurd (hop.stepName.symm.trans hfill.stepName) (by decide)

theorem exists_fill_of_record {op : ScheduledOp} (h : IsRecord gp s op) (hop : IsFill pl op) :
    ∃ k, s = .fill k := by
  cases s with
  | step i =>
    obtain ⟨x, -, hstep⟩ := h
    have htype : op.type = (graphStep i (tensorInfo x.2)).type := hstep.type
    exact absurd (htype.symm.trans hop.type) (graphStep_type i _)
  | spill k =>
    obtain ⟨_, -, hspill⟩ := h
    exact absurd (hspill.stepName.symm.trans hop.stepName) (by decide)
  | fill k => exact ⟨k, rfl⟩

theorem filterMap_step_nil {l : List Slot} {f : ℕ → Slot} (hf : ∀ k, (f k).step? = none)
    (h : ∀ s ∈ l, ∃ k, s = f k) : l.filterMap Slot.step? = [] := by
  apply List.filterMap_eq_nil_iff.mpr
  intro s hs
  obtain ⟨k, rfl⟩ := h s hs
  exact hf k

theorem filterMap_step_length {l : List Slot} (h : ∀ s ∈ l, ∃ i, s = Slot.step i) :
    (l.filterMap Slot.step?).length = l.length := by
  induction l with
  | nil => rfl
  | cons s l ih =>
    obtain ⟨i, rfl⟩ := h s List.mem_cons_self
    have hl := ih fun s' hs' => h s' (List.mem_cons_of_mem _ hs')
    exact congrArg Nat.succ hl

/-- If the steps are where they belong, then with the spills after the first step and the fills at the
tail nothing else has to come before or after. -/
theorem ends_of_paged {a b c d e : List ScheduledOp} {p : ℕ}
    (h : Paged gp run (a ++ (b ++ (c ++ (d ++ e))))) (ha : a.length = 1) (hc : c.length = p - 1)
    (hac : ∀ op ∈ a ++ (c ++ e), op.type ≠ .dma) (hb : ∀ op ∈ b, ∃ pl, IsSpill pl op)
    (hd : ∀ op ∈ d, ∃ pl, IsFill pl op) {k : ℕ} (hpl : gp.cpPlans[k]? = some pl) {i : ℕ}
    {x : ℕ × OpDef} (hx : gp.live[i]? = some x) :
    (x.1 = pl.opId ∨ ServedBefore gp pl x → i = 0) ∧ (ServedAfter gp pl x → p ≤ i) := by
  obtain ⟨ra, r, hrun, hra, hr⟩ := exists_append_of_forall₂ h.records
  obtain ⟨rb, r', rfl, hrb, hr'⟩ := exists_append_of_forall₂ hr
  obtain ⟨rc, r'', rfl, hrc, hr''⟩ := exists_append_of_forall₂ hr'
  obtain ⟨rd, re, rfl, hrd, hre⟩ := exists_append_of_forall₂ hr''
  have hstepA : ∀ s ∈ ra, ∃ i, s = Slot.step i := by
    intro s hs
    obtain ⟨op, hop, hrec⟩ := exists_mem_of_forall₂ hra hs
    exact exists_step_of_record hrec (hac op (List.mem_append_left _ hop))
  have hstepC : ∀ s ∈ rc, ∃ i, s = Slot.step i := by
    intro s hs
    obtain ⟨op, hop, hrec⟩ := exists_mem_of_forall₂ hrc hs
    exact exists_step_of_record hrec (hac op (List.mem_append_right a (List.mem_append_left e hop)))
  have hstepE : ∀ s ∈ re, ∃ i, s = Slot.step i := by
    intro s hs
    obtain ⟨op, hop, hrec⟩ := exists_mem_of_forall₂ hre hs
    exact exists_step_of_record hrec (hac op (List.mem_append_right a (List.mem_append_right c hop)))
  have hspillB : ∀ s ∈ rb, ∃ k, s = Slot.spill k := by
    intro s hs
    obtain ⟨op, hop, hrec⟩ := exists_mem_of_forall₂ hrb hs
    obtain ⟨pl, hpl⟩ := hb op hop
    exact exists_spill_of_record hrec hpl
  have hfillD : ∀ s ∈ rd, ∃ k, s = Slot.fill k := by
    intro s hs
    obtain ⟨op, hop, hrec⟩ := exists_mem_of_forall₂ hrd hs
    obtain ⟨pl, hpl⟩ := hd op hop
    exact exists_fill_of_record hrec hpl
  have hsteps : (ra ++ rc).filterMap Slot.step? ++ re.filterMap Slot.step? =
      List.range gp.live.length := by
    rw [← h.order, hrun]
    simp only [List.filterMap_append, List.append_assoc]
    rw [filterMap_step_nil (f := .spill) (fun _ => rfl) hspillB,
      filterMap_step_nil (f := .fill) (fun _ => rfl) hfillD, List.nil_append, List.nil_append]
  -- the steps in front of the fills are the first `p`
  have hlate : ∀ j, Slot.step j ∈ re → p ≤ j := by
    intro j hj
    have hlen : p ≤ ((ra ++ rc).filterMap Slot.step?).length := by
      rw [filterMap_step_length fun s hs => (List.mem_append.mp hs).elim (hstepA s) (hstepC s),
        List.length_append, hra.length_eq, hrc.length_eq, ha, hc]
      omega
    have hmem : j ∈ re.filterMap Slot.step? := List.mem_filterMap.mpr ⟨_, hj, rfl⟩
    obtain ⟨n, hn⟩ := List.mem_iff_getElem?.mp hmem
    have hat := congrArg (·[((ra ++ rc).filterMap Slot.step?).length + n]?) hsteps
    simp only [List.getElem?_append_right (Nat.le_add_right _ _), Nat.add_sub_cancel_left, hn] at hat
    obtain ⟨_, hj⟩ := List.getElem?_eq_some_iff.mp hat.symm
    rw [List.getElem_range] at hj
    omega
  have hzero : ∀ j, Slot.step j ∈ ra → j = 0 := by
    intro j hj
    obtain ⟨s, rfl⟩ := List.length_eq_one_iff.mp (hra.length_eq.trans ha)
    cases List.mem_singleton.mp hj
    have horder := h.order
    rw [hrun] at horder
    have hhead : (List.range gp.live.length)[0]? = some j := by
      rw [← horder]
      rfl
    obtain ⟨_, hj⟩ := List.getElem?_eq_some_iff.mp hhead
    rw [List.getElem_range] at hj
    exact hj.symm
  constructor
  · intro hbefore
    have hb : Before (.step i) (.spill k) run := by
      rcases hbefore with hid | hserved
      · exact h.afterProducer i x k pl hx hpl hid
      · exact h.afterServed i x k pl hx hpl hserved
    rw [hrun, ← List.append_assoc] at hb
    have hmem : Slot.step i ∈ ra ++ rb := by
      apply hb.mem_left
      intro hcde
      rcases List.mem_append.mp hcde with hc | hde
      · obtain ⟨_, heq⟩ := hstepC _ hc
        cases heq
      rcases List.mem_append.mp hde with hd | he
      · obtain ⟨_, heq⟩ := hfillD _ hd
        cases heq
      · obtain ⟨_, heq⟩ := hstepE _ he
        cases heq
    rcases List.mem_append.mp hmem with hmem | hmem
    · exact hzero i hmem
    · obtain ⟨_, heq⟩ := hspillB _ hmem
      cases heq
  · intro hserved
    by_contra hlt
    have hb := h.beforeServed i x k pl hx hpl hserved
    rw [hrun, ← List.append_assoc, ← List.append_assoc] at hb
    have hmem : Slot.fill k ∈ ra ++ rb ++ rc := by
      apply hb.mem_left
      intro hde
      rcases List.mem_append.mp hde with hd | he
      · obtain ⟨_, heq⟩ := hfillD _ hd
        cases heq
      · exact hlt (hlate i he)
    rcases List.mem_append.mp hmem with hmem | hmem
    · rcases List.mem_append.mp hmem with hmem | hmem
      · obtain ⟨_, heq⟩ := hstepA _ hmem
        cases heq
      · obtain ⟨_, heq⟩ := hspillB _ hmem
        cases heq
    · obtain ⟨_, heq⟩ := hstepC _ hmem
      cases heq

theorem Paged.length_eq (h : Paged gp run ops) :
    ops.length = gp.live.length + 2 * gp.cpPlans.length := by
  have hlen := h.once.length_eq
  rw [h.records.length_eq] at hlen
  rw [hlen]
  simp only [slots, List.length_append, List.length_map, List.length_range]
  omega

theorem paged_renumber : Paged gp run (renumber ops) ↔ Paged gp run ops := by
  constructor
  · intro h
    exact { h with records := (forall₂_renumber run ops).mp h.records }
  · intro h
    exact { h with records := (forall₂_renumber run ops).mpr h.records }

/-- No step of the plan before the insertions is a DMA. -/
theorem basePlan_type (gp : GraphPrepare) (bestDense : Option (List ℕ)) {op : ScheduledOp}
    (h : op ∈ (basePlan gp bestDense).ops) : op.type ≠ .dma := by
  obtain ⟨i, hi, rfl⟩ := List.mem_mapIdx.mp h
  exact graphStep_type i _

theorem insertAll_nil {ins : List Insertion} (hpos : ∀ e ∈ ins, 1 ≤ e.pos)
    (h : insertAll [] ins = some ops) : ops = [] := by
  cases ins with
  | nil => exact (Option.some.inj h).symm
  | cons e ins =>
    unfold insertAll at h
    have he := hpos e List.mem_cons_self
    rw [if_neg fun hle => absurd (Nat.le_trans he hle) (by decide)] at h
    cases h

end Ends

section Schedule

variable (sort : StdSort Insertion.less) (st : Scheduler) (gp : GraphPrepare)
  (bestDense : Option (List ℕ))

theorem schedule_of_nothing (h : gp.cpActive = false ∨ gp.cpPlans = []) :
    schedule sort st gp bestDense = some (st, basePlan gp bestDense) := by
  unfold schedule applyCpSpillFill
  rcases h with h | h
  · rw [h]
    rfl
  · rw [h]
    cases gp.cpActive <;> rfl

theorem schedule_of_plans (hactive : gp.cpActive = true) (hplans : gp.cpPlans ≠ []) :
    ∃ st' recs, List.Forall₂ Pages (moving gp.cpPlans) recs ∧
      schedule sort st gp bestDense =
        (insertAll (basePlan gp bestDense).ops
          (sort.sort (recs.flatMap (insertionsOf (tailOf gp.live.length))))).map
          fun ops => (st', (basePlan gp bestDense).setOps (renumber ops)) := by
  obtain ⟨recs, hrecs, hins⟩ := collectInsertions_of_no_tensors gp
    (show (basePlan gp bestDense).tensors = [] from rfl) st gp.cpPlans
  rw [basePlan_length] at hins
  refine ⟨(collectInsertions (basePlan gp bestDense) gp st gp.cpPlans).1, recs, hrecs, ?_⟩
  have hempty : gp.cpPlans.isEmpty = false := List.isEmpty_eq_false_iff.mpr hplans
  unfold schedule applyCpSpillFill
  rw [hactive, hempty, ← hins]
  rfl

theorem paged_of_no_plans (h : gp.cpPlans = []) :
    Paged gp ((List.range gp.live.length).map .step) (basePlan gp bestDense).ops := by
  have hnone : ∀ {k : ℕ} {pl : CPSpillFillPlan}, gp.cpPlans[k]? ≠ some pl := by
    intro k pl hk
    rw [h] at hk
    cases hk
  refine ⟨?_, ?_, basePlan_records gp bestDense, ?_, ?_, ?_, ?_⟩
  · rw [h]
    show List.Perm _ ((List.range gp.live.length).map Slot.step ++ [])
    rw [List.append_nil]
  · rw [List.filterMap_map]
    exact List.filterMap_some
  · intro _ _ _ _ _ hk
    exact absurd hk hnone
  · intro _ _ _ _ _ hk
    exact absurd hk hnone
  · intro k hk
    rw [h] at hk
    exact absurd hk (Nat.not_lt_zero k)
  · intro _ _ _ _ _ hk
    exact absurd hk hnone

theorem pos_of_insertions {p : ℕ} (hone : 1 ≤ p) (recs : List (ScheduledOp × ScheduledOp))
    {e : Insertion} (h : e ∈ sort.sort (recs.flatMap (insertionsOf p))) : 1 ≤ e.pos := by
  obtain ⟨r, -, he⟩ := List.mem_flatMap.mp ((sort.perm _).subset h)
  rcases List.mem_cons.mp he with rfl | he
  · exact Nat.le_refl 1
  · cases List.mem_singleton.mp he
    exact hone

variable {sort st gp bestDense}

theorem size_ne_zero_of_length {recs : List (ScheduledOp × ScheduledOp)}
    (hrecs : List.Forall₂ Pages (moving gp.cpPlans) recs)
    (hlen : recs.length = gp.cpPlans.length) : ∀ pl ∈ gp.cpPlans, pl.size ≠ 0 := by
  have hall : (moving gp.cpPlans).length = gp.cpPlans.length := hrecs.length_eq.trans hlen
  intro pl hpl
  exact of_decide_eq_true (List.length_filter_eq_length_iff.mp hall pl hpl)

theorem pages_of_sizes {recs : List (ScheduledOp × ScheduledOp)}
    (hrecs : List.Forall₂ Pages (moving gp.cpPlans) recs)
    (hsizes : ∀ pl ∈ gp.cpPlans, pl.size ≠ 0) : List.Forall₂ Pages gp.cpPlans recs := by
  have hall : moving gp.cpPlans = gp.cpPlans :=
    List.filter_eq_self.mpr fun pl hpl => decide_eq_true (hsizes pl hpl)
  rwa [hall] at hrecs

theorem page_of_getElem {recs : List (ScheduledOp × ScheduledOp)} {pls : List CPSpillFillPlan}
    (hrecs : List.Forall₂ Pages pls recs) {k : ℕ} {r : ScheduledOp × ScheduledOp}
    (h : recs[k]? = some r) : ∃ pl, pls[k]? = some pl ∧ Pages pl r := by
  obtain ⟨hk, rfl⟩ := List.getElem?_eq_some_iff.mp h
  have hk' : k < pls.length := hrecs.length_eq ▸ hk
  exact ⟨pls[k], List.getElem?_eq_getElem hk', hrecs.get hk' hk⟩

section Inserted

variable {recs : List (ScheduledOp × ScheduledOp)}
  {spills fills : List ((ScheduledOp × ScheduledOp) × ℕ)}

theorem page_of_zip {pls : List CPSpillFillPlan} (hrecs : List.Forall₂ Pages pls recs)
    {zs : List ((ScheduledOp × ScheduledOp) × ℕ)} (h : zs.Perm recs.zipIdx)
    {r : (ScheduledOp × ScheduledOp) × ℕ} (hr : r ∈ zs) : ∃ pl, Pages pl r.1 := by
  obtain ⟨pl, -, hpage⟩ := page_of_getElem hrecs (List.mem_zipIdx_iff_getElem?.mp (h.subset hr))
  exact ⟨pl, hpage⟩

theorem atTheEnds_of_paged {p : ℕ} (hone : 1 ≤ p) (htail : p ≤ gp.live.length)
    (hrecs : List.Forall₂ Pages (moving gp.cpPlans) recs)
    (hspills : spills.Perm recs.zipIdx) (hfills : fills.Perm recs.zipIdx) (hlive : gp.live ≠ [])
    (h : Paged gp run (atEnds p (basePlan gp bestDense).ops spills fills)) :
    ∀ pl ∈ gp.cpPlans, AtTheEnds gp p pl := by
  have hbase := basePlan_length gp bestDense
  have hpos : 0 < gp.live.length := List.length_pos_of_ne_nil hlive
  have htake : ((basePlan gp bestDense).ops.take 1).length = 1 :=
    List.length_take_of_le (by omega)
  have hlen : recs.length = gp.cpPlans.length := by
    have hrun := h.length_eq
    have hs := hspills.length_eq
    have hf := hfills.length_eq
    simp only [atEnds, List.length_append, List.length_map, List.length_take, List.length_drop,
      List.length_zipIdx] at hrun hs hf
    omega
  have hsizes := size_ne_zero_of_length hrecs hlen
  have hb : ∀ op ∈ spills.map (fun r => r.1.1), ∃ pl, IsSpill pl op := by
    intro op hop
    obtain ⟨r, hr, rfl⟩ := List.mem_map.mp hop
    obtain ⟨pl, hpage⟩ := page_of_zip hrecs hspills hr
    exact ⟨pl, hpage.1⟩
  have hd : ∀ op ∈ fills.map (fun r => r.1.2), ∃ pl, IsFill pl op := by
    intro op hop
    obtain ⟨r, hr, rfl⟩ := List.mem_map.mp hop
    obtain ⟨pl, hpage⟩ := page_of_zip hrecs hfills hr
    exact ⟨pl, hpage.2⟩
  have hac : ∀ op ∈ (basePlan gp bestDense).ops.take 1 ++
      (((basePlan gp bestDense).ops.take p).drop 1 ++
        (basePlan gp bestDense).ops.drop p), op.type ≠ .dma := by
    intro op hop
    rw [steps_split hone] at hop
    exact basePlan_type gp bestDense hop
  have hmid : (((basePlan gp bestDense).ops.take p).drop 1).length =
      p - 1 := by
    rw [List.length_drop, List.length_take_of_le (hbase.symm ▸ htail)]
  intro pl hpl
  obtain ⟨k, hk⟩ := List.mem_iff_getElem?.mp hpl
  refine ⟨hsizes pl hpl, ?_, ?_⟩
  · intro i x hx
    exact (ends_of_paged h htake hmid hac hb hd hk hx).1
  · intro i x hx
    exact (ends_of_paged h htake hmid hac hb hd hk hx).2

theorem paged_of_atTheEnds {p : ℕ} (hone : 1 ≤ p)
    (hrecs : List.Forall₂ Pages (moving gp.cpPlans) recs)
    (hspills : spills.Perm recs.zipIdx) (hfills : fills.Perm recs.zipIdx) (hlive : gp.live ≠ [])
    (hends : ∀ pl ∈ gp.cpPlans, AtTheEnds gp p pl) :
    Paged gp (endsRun gp.live.length p (spills.map Prod.snd)
        (fills.map Prod.snd))
      (atEnds p (basePlan gp bestDense).ops spills fills) := by
  have hpages := pages_of_sizes hrecs fun pl hpl => (hends pl hpl).size
  have hbase := basePlan_records gp bestDense
  have hspill : List.Forall₂ (IsRecord gp) ((spills.map Prod.snd).map .spill)
      (spills.map fun r => r.1.1) := by
    apply records_of_zip _ hspills
    intro k r hr
    obtain ⟨pl, hpl, hpage⟩ := page_of_getElem hpages hr
    exact ⟨pl, hpl, hpage.1⟩
  have hfill : List.Forall₂ (IsRecord gp) ((fills.map Prod.snd).map .fill)
      (fills.map fun r => r.1.2) := by
    apply records_of_zip _ hfills
    intro k r hr
    obtain ⟨pl, hpl, hpage⟩ := page_of_getElem hpages hr
    exact ⟨pl, hpl, hpage.2⟩
  have hspills' := zipIdx_snd_perm hspills
  have hfills' := zipIdx_snd_perm hfills
  rw [← hpages.length_eq] at hspills' hfills'
  apply paged_endsRun hone hends hlive hspills' hfills'
  exact List.rel_append (List.forall₂_take 1 hbase) (List.rel_append hspill
    (List.rel_append (List.forall₂_drop 1 (List.forall₂_take _ hbase))
      (List.rel_append hfill (List.forall₂_drop _ hbase))))

end Inserted

variable (sort st gp bestDense)

theorem not_wellPaged_of_empty {recs : List (ScheduledOp × ScheduledOp)} {st' : Scheduler}
    (hplans : gp.cpPlans ≠ []) (hlive : gp.live = []) :
    ¬ WellPaged gp ((insertAll (basePlan gp bestDense).ops
      (sort.sort (recs.flatMap (insertionsOf (tailOf gp.live.length))))).map
        fun ops => (st', (basePlan gp bestDense).setOps (renumber ops))) := by
  rintro ⟨_, _, run, heq, hpaged⟩
  obtain ⟨ops, hins, hops⟩ := Option.map_eq_some_iff.mp heq
  cases hops
  have hnil : (basePlan gp bestDense).ops = [] := by
    apply List.eq_nil_of_length_eq_zero
    rw [basePlan_length, hlive]
    rfl
  rw [hnil] at hins
  have hzero := insertAll_nil (fun e he => pos_of_insertions sort (one_le_tailOf _) recs he) hins
  have hlen := (paged_renumber.mp hpaged).length_eq
  have hpos : 0 < gp.cpPlans.length := List.length_pos_of_ne_nil hplans
  rw [hzero] at hlen
  change 0 = _ at hlen
  omega

variable {sort st gp bestDense}

theorem allAtTheEnds_of_wellPaged (h : WellPaged gp (schedule sort st gp bestDense)) :
    AllAtTheEnds gp := by
  by_cases hplans : gp.cpPlans = []
  · exact Or.inl hplans
  cases hactive : gp.cpActive with
  | false =>
    rw [schedule_of_nothing sort st gp bestDense (Or.inl hactive)] at h
    obtain ⟨_, _, run, heq, hpaged⟩ := h
    cases heq
    have hlen := hpaged.length_eq
    have hpos : 0 < gp.cpPlans.length := List.length_pos_of_ne_nil hplans
    rw [basePlan_length] at hlen
    omega
  | true =>
    obtain ⟨st', recs, hrecs, hschedule⟩ := schedule_of_plans sort st gp bestDense hactive hplans
    rw [hschedule] at h
    by_cases hlive : gp.live = []
    · exact absurd h (not_wellPaged_of_empty sort gp bestDense hplans hlive)
    · have htail := tailOf_le (List.length_pos_of_ne_nil hlive)
      have hbase : tailOf gp.live.length ≤ (basePlan gp bestDense).ops.length := by
        rw [basePlan_length]
        exact htail
      obtain ⟨spills, fills, hspills, hfills, hins⟩ :=
        insertAll_sorted sort (one_le_tailOf _) hbase recs
      rw [hins] at h
      obtain ⟨_, _, run, heq, hpaged⟩ := h
      cases heq
      exact Or.inr ⟨hactive, hlive,
        atTheEnds_of_paged (one_le_tailOf _) htail hrecs hspills hfills hlive (paged_renumber.mp hpaged)⟩

theorem wellPaged_of_allAtTheEnds (h : AllAtTheEnds gp) :
    WellPaged gp (schedule sort st gp bestDense) := by
  by_cases hplans : gp.cpPlans = []
  · rw [schedule_of_nothing sort st gp bestDense (Or.inr hplans)]
    exact ⟨st, _, _, rfl, paged_of_no_plans gp bestDense hplans⟩
  obtain ⟨hactive, hlive, hends⟩ := h.resolve_left hplans
  obtain ⟨st', recs, hrecs, hschedule⟩ := schedule_of_plans sort st gp bestDense hactive hplans
  have htail := tailOf_le (List.length_pos_of_ne_nil hlive)
  have hbase : tailOf gp.live.length ≤ (basePlan gp bestDense).ops.length := by
    rw [basePlan_length]
    exact htail
  obtain ⟨spills, fills, hspills, hfills, hins⟩ :=
    insertAll_sorted sort (one_le_tailOf _) hbase recs
  rw [hschedule, hins]
  exact ⟨st', _, _, rfl,
    paged_renumber.mpr (paged_of_atTheEnds (one_le_tailOf _) hrecs hspills hfills hlive hends)⟩

variable (sort st gp bestDense)

/-- The run list is as it should be exactly if there is nothing to page, or if all of it belongs at
the ends. -/
theorem schedule_wellPaged_iff :
    WellPaged gp (schedule sort st gp bestDense) ↔ AllAtTheEnds gp :=
  ⟨allAtTheEnds_of_wellPaged, wellPaged_of_allAtTheEnds⟩

end Schedule

/-! ### A chain with a tensor that is paged -/

/-- `b` does not have to come before `a`. -/
def InsertedFirst (a b : Insertion) : Prop := Insertion.less b a = false

instance : DecidableRel InsertedFirst := fun _ _ => inferInstanceAs (Decidable (_ = _))

theorem insertedFirst_iff {a b : Insertion} : InsertedFirst a b ↔
    b.pos ≤ a.pos ∧ (b.pos = a.pos → b.isFill = true → a.isFill = true) := by
  unfold InsertedFirst
  rw [← Bool.not_eq_true, less_iff]
  constructor
  · intro h
    refine ⟨Nat.le_of_not_lt fun hlt => h (Or.inl hlt), fun heq hb => ?_⟩
    by_contra ha
    exact h (Or.inr ⟨heq, hb, Bool.eq_false_iff.mpr ha⟩)
  · rintro ⟨hle, hfill⟩ (hlt | ⟨heq, hb, ha⟩)
    · omega
    · rw [hfill heq hb] at ha
      cases ha

instance : Std.Total InsertedFirst where
  total a b := by
    rw [insertedFirst_iff, insertedFirst_iff]
    cases a.isFill <;> cases b.isFill <;> grind

instance : IsTrans Insertion InsertedFirst where
  trans a b c hab hbc := by
    rw [insertedFirst_iff] at hab hbc ⊢
    refine ⟨Nat.le_trans hbc.1 hab.1, fun heq hc => ?_⟩
    exact hab.2 (by omega) (hbc.2 (by omega) hc)

def sorted : StdSort Insertion.less where
  sort l := l.insertionSort InsertedFirst
  perm l := List.perm_insertionSort InsertedFirst l
  sorted l := List.pairwise_insertionSort InsertedFirst l

def op (opId : ℕ) (name : String) (inputs : List ℕ) : OpDef where
  opId := opId
  flags := 1
  nameTag := some name
  outputDef := OutputDef.vector 8 0 4 0
  inputs := inputs.map fun i => ⟨i, 0⟩
  consumers := []
  opData := []
  tensorParamIds := []

/-- The output of the second operator is spilled after the third one and filled for the fourth. -/
def paging : GraphPrepare where
  ops := .ofList [op 1 "Input" [], op 2 "Conv" [1], op 3 "Relu" [2], op 4 "Add" [2, 3]]
  ordering := [1, 2, 3, 4]
  cpActive := true
  cpPlans := [⟨2, 3, 0, 0, 4096, 32, 2⟩]
  cpTopo := [1, 2, 3, 4]
  vtcmAllocations _ := none

/-- The spill comes before the operator that makes the tensor, and the fill after the one that reads
it. -/
theorem paging_not_wellPaged :
    (schedule sorted .init paging none).map (fun r => r.2.ops.map ScheduledOp.stepName) =
        some ["Input", "CpSpill", "Conv", "Relu", "Add", "CpFill"] ∧
      ¬ WellPaged paging (schedule sorted .init paging none) := by
  refine ⟨by decide, fun h => ?_⟩
  rcases allAtTheEnds_of_wellPaged h with hnone | ⟨-, -, hends⟩
  · cases hnone
  · have hfirst := (hends ⟨2, 3, 0, 0, 4096, 32, 2⟩ (List.mem_singleton_self _)).first 1
      (2, op 2 "Conv" [1]) rfl (Or.inl rfl)
    cases hfirst

end Gehtp.Analysis.RunListPaging
