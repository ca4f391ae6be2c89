import Gehtp.Model.StCutGraph

/-!
# Valid working orders

The sweep goes through the working order from its end and keeps the closure of all nodes that it
has passed. A node that is met when it is in the closure is one that a later node reaches, or the
same node again.
-/

set_option autoImplicit false

namespace Gehtp.Analysis.StCutOrder

open Lib.Closure Model.StCutGraph

/-! ### Paths of a snapshot -/

section Paths

/-- The tables of a snapshot of a graph: its slots are in the table and name nodes of the snapshot,
and the working tables have at least its nodes. -/
structure IsSnapshot (ctx : StCutContext) : Prop where
  slots : ∀ set ∈ ctx.snapAdd, ∀ rel ∈ set, rel < ctx.snapWeights.length
  nodes : ∀ set ∈ ctx.snapAdd, ∀ rel ∈ set,
    (ctx.snapWeights.getD rel noSlot).canon < ctx.snapFlags.length
  count : ctx.snapFlags.length ≤ ctx.nodeCount

/-- An add edge without the flag 4 to a node without the group flag 2. -/
def SnapEdge (ctx : StCutContext) (u v : ℕ) : Prop :=
  ∃ rel ∈ ctx.snapAdd.getD u [], (ctx.snapWeights.getD rel noSlot).flags &&& 4 = 0 ∧
    (ctx.snapWeights.getD rel noSlot).canon = v ∧ ctx.snapFlags.getD v 0 &&& 2 = 0

/-- A path of one edge or more. -/
abbrev SnapPath (ctx : StCutContext) : ℕ → ℕ → Prop := Relation.TransGen (SnapEdge ctx)

theorem IsSnapshot.canon_lt {ctx : StCutContext} (hsnap : IsSnapshot ctx) {u rel : ℕ}
    (hrel : rel ∈ ctx.snapAdd.getD u []) :
    (ctx.snapWeights.getD rel noSlot).canon < ctx.nodeCount := by
  rw [List.getD_eq_getElem?_getD] at hrel
  cases hset : ctx.snapAdd[u]? with
  | none =>
    rw [hset] at hrel
    exact absurd hrel List.not_mem_nil
  | some set =>
    rw [hset] at hrel
    exact Nat.lt_of_lt_of_le (hsnap.nodes set (List.mem_of_getElem? hset) rel hrel) hsnap.count

theorem closureNext_lt (ctx : StCutContext) (u v : ℕ) (hv : v ∈ closureNext ctx u) :
    v < ctx.nodeCount := by
  unfold closureNext at hv
  obtain ⟨rel, -, hrel⟩ := List.mem_filterMap.mp hv
  dsimp only at hrel
  split at hrel
  · cases hrel
  split at hrel
  · cases hrel
  split at hrel
  · cases hrel
  · cases hrel
    omega

theorem edge_iff {ctx : StCutContext} (hsnap : IsSnapshot ctx) (u v : ℕ) :
    Edge (closureNext ctx) u v ↔ SnapEdge ctx u v := by
  unfold Edge closureNext SnapEdge
  rw [List.mem_filterMap]
  constructor
  · rintro ⟨rel, hrel, heq⟩
    dsimp only at heq
    split at heq
    · cases heq
    rename_i hsoft
    split at heq
    · cases heq
    split at heq
    · cases heq
    rename_i _ hgroup
    cases heq
    rw [StCutSlot.crosses_iff, not_not] at hsoft
    exact ⟨rel, hrel, hsoft, rfl, not_not.mp hgroup⟩
  · rintro ⟨rel, hrel, hsoft, rfl, hgroup⟩
    have hnode := hsnap.canon_lt hrel
    refine ⟨rel, hrel, ?_⟩
    dsimp only
    have hcross : ¬(ctx.snapWeights.getD rel noSlot).crosses = true := by
      rw [StCutSlot.crosses_iff]
      exact not_not_intro hsoft
    rw [if_neg hcross, if_neg (Nat.not_le_of_lt hnode), if_neg (not_not_intro hgroup)]

theorem reaches_iff {ctx : StCutContext} (hsnap : IsSnapshot ctx) (u v : ℕ) :
    Reaches (closureNext ctx) u v ↔ u = v ∨ SnapPath ctx u v := by
  have hedge : Edge (closureNext ctx) = SnapEdge ctx := by
    funext u v
    exact propext (edge_iff hsnap u v)
  rw [Reaches, hedge, Relation.reflTransGen_iff_eq_or_transGen, eq_comm]

end Paths

/-! ### The sweep -/

section Sweep

variable {ctx : StCutContext}

/-- The sweep accepts the rest of the order if no node of it was visited and none is reached from a
node that the sweep meets before. -/
def Accepts (ctx : StCutContext) (vis order : List ℕ) : Prop :=
  (∀ id ∈ order, id ∉ vis) ∧ order.Pairwise fun a b => ¬Reaches (closureNext ctx) a b

theorem accepts_cons {vis vis' order : List ℕ} {id : ℕ}
    (hvis' : ∀ x, x ∈ vis' ↔ x ∈ vis ∨ Reaches (closureNext ctx) id x) (hid : id ∉ vis) :
    Accepts ctx vis (id :: order) ↔ Accepts ctx vis' order := by
  unfold Accepts
  rw [List.forall_mem_cons, List.pairwise_cons]
  constructor
  · rintro ⟨⟨-, hnew⟩, hreach, hpairs⟩
    refine ⟨?_, hpairs⟩
    intro x hx hmem
    rcases (hvis' x).mp hmem with hold | hpath
    · exact hnew x hx hold
    · exact hreach x hx hpath
  · rintro ⟨hnew, hpairs⟩
    refine ⟨⟨hid, ?_⟩, ?_, hpairs⟩
    · exact fun x hx hold => hnew x hx ((hvis' x).mpr (Or.inl hold))
    · exact fun x hx hpath => hnew x hx ((hvis' x).mpr (Or.inr hpath))

/-- The visited nodes have all their successors among them, so that the one set of visited nodes
stands for the closures of all nodes that the sweep has met. -/
theorem sweep_spec (order vis : List ℕ) (horder : ∀ id ∈ order, id < ctx.nodeCount)
    (hclosed : ClosedUpTo (closureNext ctx) vis []) :
    ∃ n ok, (∀ k, n ≤ k → sweep ctx k order vis = some ok) ∧
      (ok = true ↔ Accepts ctx vis order) := by
  induction order generalizing vis with
  | nil => exact ⟨0, true, fun _ _ => rfl, by simp [Accepts]⟩
  | cons id rest ih =>
    have hid : ¬ctx.nodeCount ≤ id := Nat.not_le_of_lt (horder id List.mem_cons_self)
    have hrest : ∀ x ∈ rest, x < ctx.nodeCount := fun x hx =>
      horder x (List.mem_cons_of_mem id hx)
    by_cases hvis : id ∈ vis
    · refine ⟨0, false, ?_, ?_⟩
      · intro k _
        unfold sweep
        rw [if_neg hid, if_pos hvis]
      · constructor
        · intro h
          cases h
        · intro h
          exact absurd hvis (h.1 id List.mem_cons_self)
    · have hnodes : ∀ u ∈ List.range ctx.nodeCount,
          closureNext ctx u ⊆ List.range ctx.nodeCount := fun u _ v hv =>
        List.mem_range.mpr (closureNext_lt ctx u v hv)
      have hstart : [id] ⊆ List.range ctx.nodeCount := by
        intro x hx
        rw [List.mem_singleton.mp hx, List.mem_range]
        omega
      obtain ⟨n, vis', hcollect⟩ := collect_terminates hnodes vis [id] hstart
      have hmem : ∀ x, x ∈ vis' ↔ x ∈ vis ∨ Reaches (closureNext ctx) id x := by
        intro x
        rw [mem_collect_iff hclosed (hcollect n (Nat.le_refl n)) x]
        simp
      have hup : ClosedUpTo (closureNext ctx) vis [id] := fun u hu v hv =>
        Or.inl ((hclosed u hu v hv).resolve_right List.not_mem_nil)
      have hclosed' := (collect_spec hup (hcollect n (Nat.le_refl n))).1
      obtain ⟨m, ok, hsweep, hok⟩ := ih vis' hrest hclosed'
      refine ⟨max n m, ok, ?_, hok.trans (accepts_cons hmem hvis).symm⟩
      intro k hk
      unfold sweep
      rw [if_neg hid, if_neg hvis, hcollect k (by omega)]
      exact hsweep k (by omega)

/-- The check of a working order ends, and it accepts the order if and only if no node is in it
twice and no node is reached from a later one. -/
theorem validateOrder_iff (hsnap : IsSnapshot ctx)
    (horder : ∀ id ∈ ctx.workingOrder, id < ctx.nodeCount) :
    ∃ n ok, (∀ k, n ≤ k → stcutValidateOrder ctx k = some ok) ∧
      (ok = true ↔ ctx.workingOrder.Nodup ∧
        ∀ i j (hi : i < ctx.workingOrder.length) (hj : j < ctx.workingOrder.length), i < j →
          ¬SnapPath ctx ctx.workingOrder[j] ctx.workingOrder[i]) := by
  have hempty : ClosedUpTo (closureNext ctx) [] [] := fun _ hu => absurd hu List.not_mem_nil
  obtain ⟨n, ok, hsweep, hok⟩ := sweep_spec ctx.workingOrder.reverse []
    (fun id hid => horder id (List.mem_reverse.mp hid)) hempty
  refine ⟨n, ok, hsweep, hok.trans ?_⟩
  have hpairs : Accepts ctx [] ctx.workingOrder.reverse ↔
      ctx.workingOrder.Pairwise fun a b => a ≠ b ∧ ¬SnapPath ctx b a := by
    unfold Accepts
    rw [List.pairwise_reverse]
    simp only [reaches_iff hsnap, not_or, ne_eq, eq_comm, List.not_mem_nil, not_false_eq_true,
      implies_true, true_and]
  have hpaths := @List.pairwise_iff_getElem _ (fun a b => ¬SnapPath ctx b a) ctx.workingOrder
  rw [hpairs, List.pairwise_and_iff, hpaths]
  exact Iff.rfl

/-- A snapshot of two nodes and an edge, with the producer first in the order. -/
def oneEdge : StCutContext where
  mode := 0
  nodeSlots := [0, 1]
  groupFlags := [0, 0]
  weightTable := []
  addSet := []
  subtractSet := []
  snapFlags := [0, 0]
  snapWeights := [⟨1, 1, 10, 0⟩, ⟨0, 0, stcutMaxWeight, 4⟩]
  snapAdd := [[0], [1]]
  markTable := [0, 0]
  workingOrder := [0, 1]
  freeWeightSlots := []

theorem oneEdge_no_edge (v : ℕ) : ¬SnapEdge oneEdge 1 v := by
  rintro ⟨rel, hrel, hflag, -⟩
  cases List.mem_singleton.mp hrel
  exact absurd hflag (by decide)

/-- The order is accepted, as nothing is reached from its last node. -/
theorem oneEdge_checked : ∃ n, ∀ k, n ≤ k → stcutValidateOrder oneEdge k = some true := by
  have hsnap : IsSnapshot oneEdge := ⟨by decide, by decide, by decide⟩
  obtain ⟨n, ok, hrun, hok⟩ := validateOrder_iff hsnap (by decide)
  have haccepted : ok = true := by
    refine hok.mpr ⟨by decide, fun i j hi hj hij hpath => ?_⟩
    have hlast : j < 2 := hj
    obtain ⟨rfl, rfl⟩ : j = 1 ∧ i = 0 := by omega
    obtain ⟨v, hedge, -⟩ := Relation.TransGen.head'_iff.mp hpath
    exact oneEdge_no_edge v hedge
  exact ⟨n, fun k hk => haccepted ▸ hrun k hk⟩

end Sweep

end Gehtp.Analysis.StCutOrder
