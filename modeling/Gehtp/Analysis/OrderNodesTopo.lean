import Gehtp.Model.DeadCode

/-!
# The execution order is topological, and it is stable

Without cycles the order is a permutation of the operators that are not dead, and each of them
stands after its sources. Found again from the same map it is the same order, so the second call
reports no change, and the fixpoint loop ends once its phases leave the map alone. The number of
changes is the number of operators as an `int`: an order of `2 ^ 31` operators is not kept.
-/

set_option autoImplicit false

namespace Gehtp.Analysis.OrderNodesTopo

open Lib Lib.Kahn Model.OpGraph Model.OrderNodes

/-- The operator `v` reads `u`, and neither is dead. -/
def Reads (g : OpdefMap) (u v : ℕ) : Prop := u ∈ nodes g ∧ v ∈ nodes g ∧ u ∈ sources g.ops v

/-- No operator reads itself, directly or through others. -/
def AcyclicGraph (g : OpdefMap) : Prop := ∀ v, ¬ Relation.TransGen (Reads g) v v

/-- Every operator that is not dead stands once in the order, after what it reads. -/
structure Ordered (g : OpdefMap) (ordering : List ℕ) : Prop where
  once : ∀ id ∈ nodes g, ordering.count id = 1
  topological : PrecededBy (Reads g) ordering

theorem nodes_nodup (g : OpdefMap) : (nodes g).Nodup := g.keys_nodup.filter _

theorem mem_adj {g : OpdefMap} {u v : ℕ} : v ∈ adj g u ↔ Reads g u v := by
  unfold adj edges Reads
  simp only [List.mem_map, List.mem_filter, List.mem_flatMap, decide_eq_true_eq]
  constructor
  · rintro ⟨e, ⟨⟨i, hi, src, ⟨hsrc, hnode⟩, rfl⟩, rfl⟩, rfl⟩
    exact ⟨hnode, hi, hsrc⟩
  · rintro ⟨hu, hv, hsrc⟩
    exact ⟨(u, v), ⟨⟨v, hv, u, ⟨hsrc, hu⟩, rfl⟩, rfl⟩, rfl⟩

theorem edge_eq_reads (g : OpdefMap) : DepthFirst.Edge (adj g) = Reads g := by
  funext u v
  exact propext mem_adj

section Order

variable {g : OpdefMap} (hacyclic : AcyclicGraph g)

include hacyclic

theorem topoSort_spec : (topoSort g).Perm (nodes g) ∧ PrecededBy (Reads g) (topoSort g) := by
  have hsearch : DepthFirst.Acyclic (adj g) := by
    unfold DepthFirst.Acyclic
    rw [edge_eq_reads]
    exact hacyclic
  obtain ⟨hperm, horder⟩ := DepthFirst.topoOrder_spec hsearch
    (fun u _ v hv => (mem_adj.mp hv).2.1) (nodes_nodup g)
  refine ⟨hperm, fun pre v post heq u hu => horder pre v post heq u ⟨hu.1, mem_adj.mpr hu⟩⟩

theorem ordered_topoSort : Ordered g (topoSort g) := by
  obtain ⟨hperm, horder⟩ := topoSort_spec hacyclic
  refine ⟨fun id hid => ?_, horder⟩
  rw [hperm.count_eq]
  exact List.count_eq_one_of_mem (nodes_nodup g) hid

end Order

/-! ### The loop -/

/-- The phases find nothing to change. -/
structure Quiet (ph : Phases) (g : OpdefMap) : Prop where
  dce : ph.removeDeadCode g = (0, g)
  cse : ph.commonSubexprEliminate g = (0, g)

/-- The loop comes from `s` to `t`. -/
def Comes (ph : Phases) : FixState → FixState → Prop :=
  Relation.ReflTransGen fun s t => fixRound ph s = .inl t

/-- The loop ends. -/
def Terminates (ph : Phases) (s : FixState) : Prop :=
  ∃ n t, runPhaseFixpoint ph n s = some t

theorem Terminates.of_comes {ph : Phases} {s t : FixState} (h : Comes ph s t)
    (ht : Terminates ph t) : Terminates ph s := by
  induction h using Relation.ReflTransGen.head_induction_on with
  | refl => exact ht
  | head hround _ ih =>
    obtain ⟨n, r, hr⟩ := ih
    refine ⟨n + 1, r, ?_⟩
    rw [runPhaseFixpoint, hround]
    exact hr

theorem terminates_of_quiet {ph : Phases} {s : FixState} (h : Quiet ph s.graph)
    (hstable : (orderNodes s.graph (orderNodes s.graph s.ordering).2).1 = 0) :
    Terminates ph s := by
  have hend : ∀ ordering, (orderNodes s.graph ordering).1 = 0 →
      Terminates ph ⟨s.graph, ordering⟩ := by
    intro ordering hzero
    refine ⟨1, ⟨s.graph, (orderNodes s.graph ordering).2⟩, ?_⟩
    simp [runPhaseFixpoint, fixRound, h.dce, h.cse, hzero]
  by_cases hzero : (orderNodes s.graph s.ordering).1 = 0
  · exact hend s.ordering hzero
  · obtain ⟨n, t, ht⟩ := hend _ hstable
    refine ⟨n + 1, t, ?_⟩
    have hround : fixRound ph s = .inl ⟨s.graph, (orderNodes s.graph s.ordering).2⟩ := by
      simp [fixRound, h.dce, hzero]
    rw [runPhaseFixpoint, hround]
    exact ht

/-! ### When the order is kept -/

/-- What is promised of the order: it is topological, the next call reports no change, and the
loop ends from wherever it comes to a map that the phases leave alone. -/
structure KeepsOrder (g : OpdefMap) (ordering : List ℕ) : Prop where
  ordered : Ordered g (orderNodes g ordering).2
  stable : orderNodes g (orderNodes g ordering).2 = (0, (orderNodes g ordering).2)
  ends : ∀ ph s, Comes ph s ⟨g, ordering⟩ → Quiet ph g → Terminates ph s

/-- The number of operators that are not dead is an `int`. -/
def Countable (g : OpdefMap) : Prop :=
  nodes g = [] ∨ (0 < (nodes g).length % 2 ^ 32 ∧ (nodes g).length % 2 ^ 32 < 2 ^ 31)

theorem toInt_pos_iff (n : ℕ) : 0 < toInt n ↔ 0 < n % 2 ^ 32 ∧ n % 2 ^ 32 < 2 ^ 31 := by
  unfold toInt
  split <;> omega

theorem orderNodes_nil {g : OpdefMap} (h : nodes g = []) (ordering : List ℕ) :
    orderNodes g ordering = (0, ordering) := if_pos h

theorem orderNodes_self (g : OpdefMap) : orderNodes g (topoSort g) = (0, topoSort g) := by
  unfold orderNodes
  split
  · rfl
  · simp

theorem orderNodes_kept {g : OpdefMap} (hnodes : nodes g ≠ [])
    (hpos : 0 < toInt (topoSort g).length) (ordering : List ℕ) :
    (orderNodes g ordering).2 = topoSort g := by
  unfold orderNodes
  rw [if_neg hnodes]
  by_cases heq : topoSort g = ordering
  · simp [heq]
  · simp only [heq, ne_eq, not_false_eq_true, if_true, if_pos hpos]

theorem ordered_and_stable {g : OpdefMap} (hacyclic : AcyclicGraph g) (h : Countable g)
    (ordering : List ℕ) : Ordered g (orderNodes g ordering).2 ∧
      orderNodes g (orderNodes g ordering).2 = (0, (orderNodes g ordering).2) := by
  by_cases hnone : nodes g = []
  · rw [orderNodes_nil hnone]
    refine ⟨⟨fun id hid => ?_, fun pre v post _ u hu => ?_⟩, orderNodes_nil hnone ordering⟩
    · rw [hnone] at hid
      exact absurd hid List.not_mem_nil
    · have hmem := hu.1
      rw [hnone] at hmem
      exact absurd hmem List.not_mem_nil
  · have hpos : 0 < toInt (topoSort g).length := by
      rw [toInt_pos_iff, (topoSort_spec hacyclic).1.length_eq]
      exact h.resolve_left hnone
    rw [orderNodes_kept hnone hpos]
    exact ⟨ordered_topoSort hacyclic, orderNodes_self g⟩

theorem keepsOrder_of_countable {g : OpdefMap} (hacyclic : AcyclicGraph g) (h : Countable g)
    (ordering : List ℕ) : KeepsOrder g ordering := by
  obtain ⟨hordered, hstable⟩ := ordered_and_stable hacyclic h ordering
  refine ⟨hordered, hstable, fun ph s hcomes hquiet => ?_⟩
  apply Terminates.of_comes hcomes
  exact terminates_of_quiet hquiet (congrArg Prod.fst hstable)

theorem orderNodes_lost {g : OpdefMap} (h : ¬ 0 < toInt (topoSort g).length)
    (ordering : List ℕ) : (orderNodes g ordering).2 = ordering := by
  unfold orderNodes
  by_cases hnodes : nodes g = []
  · rw [if_pos hnodes]
  · rw [if_neg hnodes]
    by_cases heq : topoSort g = ordering
    · simp [heq]
    · simp only [heq, ne_eq, not_false_eq_true, if_true, if_neg h]

theorem countable_of_ordered {g : OpdefMap} (hacyclic : AcyclicGraph g)
    (h : Ordered g (orderNodes g []).2) : Countable g := by
  by_contra hcount
  have hne : nodes g ≠ [] := fun hnil => hcount (.inl hnil)
  have hlost : ¬ 0 < toInt (topoSort g).length := by
    rw [toInt_pos_iff, (topoSort_spec hacyclic).1.length_eq]
    exact fun hpos => hcount (.inr hpos)
  obtain ⟨id, hid⟩ := List.exists_mem_of_ne_nil _ hne
  have honce := h.once id hid
  rw [orderNodes_lost hlost, List.count_nil] at honce
  cases honce

def sourceOp (id : ℕ) : OpDef := ⟨id, 1, none, .vector 1 0 4 0, [], [], [], []⟩

/-- An operator for every id below `n`. -/
def sourceOps (n : ℕ) : OpMap where
  getOpAt id := if id < n then some (sourceOp id) else none
  keyed := by
    intro i od h
    split at h
    · cases h
      rfl
    · cases h

def sourceGraph (n : ℕ) : OpdefMap := ⟨List.range n, sourceOps n, List.nodup_range⟩

theorem sourceGraph_nodes (n : ℕ) : nodes (sourceGraph n) = List.range n := by
  apply List.filter_eq_self.mpr
  intro id hid
  have hlt : id < n := List.mem_range.mp hid
  show notDead (sourceOps n) id = true
  have halive : (sourceOp id).isDead = false := by
    show Nat.testBit 1 2 = false
    decide
  simp [notDead, sourceOps, hlt, halive]

theorem sourceGraph_acyclic (n : ℕ) : AcyclicGraph (sourceGraph n) := by
  have hnone : ∀ u v, ¬ Reads (sourceGraph n) u v := by
    intro u v h
    have hsrc := h.2.2
    change u ∈ sources (sourceOps n) v at hsrc
    unfold sources sourceOps at hsrc
    by_cases hlt : v < n
    · simp [hlt, sourceOp] at hsrc
    · simp [hlt] at hsrc
  intro v h
  cases h with
  | single h => exact hnone _ _ h
  | tail _ h => exact hnone _ _ h

/-- With `2 ^ 31` operators the count is negative, and the order found is given up. -/
theorem manyOps_not_kept : ¬ ∀ ordering, KeepsOrder (sourceGraph (2 ^ 31)) ordering := by
  intro h
  have hcount := countable_of_ordered (sourceGraph_acyclic _) (h []).ordered
  unfold Countable at hcount
  rw [sourceGraph_nodes, List.length_range] at hcount
  rcases hcount with hnil | hpos
  · have hlen := congrArg List.length hnil
    rw [List.length_range] at hlen
    cases hlen
  · omega

/-- The order is topological, found again by the next call, and lets the fixpoint loop end exactly
if the number of operators that are not dead is an `int`. SOURCE: graph_prepare.cpp:1282-1297,
3200-3283 -/
theorem orderNodes_keepsOrder_iff {g : OpdefMap} (hacyclic : AcyclicGraph g) :
    (∀ ordering, KeepsOrder g ordering) ↔ Countable g :=
  ⟨fun h => countable_of_ordered hacyclic (h []).ordered,
    fun h ordering => keepsOrder_of_countable hacyclic h ordering⟩

/-- An operator that reads the given ones. -/
def reader (id : ℕ) (srcs : List ℕ) : OpDef :=
  ⟨id, 1, none, .vector 1 0 4 0, srcs.map fun src => ⟨src, 0⟩, [], [], []⟩

theorem diamond_nodup : [4, 3, 2, 1].Nodup := by decide

/-- Two operators read the first one, and the last one reads both; the map is walked backwards. -/
def diamond : OpdefMap where
  keys := [4, 3, 2, 1]
  ops := .ofList [reader 1 [], reader 2 [1], reader 3 [1], reader 4 [2, 3]]
  keys_nodup := diamond_nodup

theorem diamond_acyclic : AcyclicGraph diamond := by
  have hstep : ∀ v ∈ nodes diamond, ∀ u ∈ sources diamond.ops v, u < v := by decide
  have hlt : ∀ {u v}, Relation.TransGen (Reads diamond) u v → u < v := by
    intro u v h
    induction h with
    | single h => exact hstep _ h.2.1 _ h.2.2
    | tail _ h ih => exact lt_trans ih (hstep _ h.2.1 _ h.2.2)
  exact fun v h => lt_irrefl v (hlt h)

/-- The order found for the diamond is kept. -/
theorem diamond_keepsOrder : KeepsOrder diamond [] :=
  (orderNodes_keepsOrder_iff diamond_acyclic).mpr (.inr (by decide)) []

example : orderNodes diamond [] = (4, [1, 2, 3, 4]) := by decide

end Gehtp.Analysis.OrderNodesTopo
