import Mathlib.Algebra.BigOperators.Group.Finset.Basic
import Gehtp.Model.DpSequencer

/-!
# When the sequence is a topological order

Kahn's algorithm gives a topological order of every acyclic graph. But the sequencer runs it on the
whole graph once for each group and appends the results, the other procedure keeps the order in which
the nodes are listed, and the external one returns nothing. So the sequence is right exactly if there
is nothing to order, or if there is one run, by Kahn's algorithm or on nodes that are listed in order.
-/

set_option autoImplicit false

namespace Gehtp.Analysis.DpSequencerOrder

open Lib Model.DpSequencer

/-! ### The statement -/

/-- An acyclic graph: ids are not used twice, predecessors and successors are the same edges, and
no edges lead back to where they started. -/
structure Dag (g : DPOpGraph) : Prop where
  nodup : g.ids.Nodup
  inGraph : ∀ u, ∀ v ∈ g.succ u, v ∈ g.ids
  mirrored : ∀ v ∈ g.ids, ∀ u, (g.pred v).count u = (g.succ u).count v
  acyclic : ∀ v, ¬ Relation.TransGen (fun u v => v ∈ g.succ u) v v

/-- Every operator once, and each after its producers. -/
def Sequenced (g : DPOpGraph) (l : List ℕ) : Prop :=
  l.Perm g.ids ∧ Kahn.PrecededBy (fun u v => v ∈ g.succ u) l

def onlyGroup (g : DPOpGraph) : List ℕ := g.groups.headD g.ids

/-- There is nothing to order, or there is one run that is not external, and it is Kahn's algorithm
or the nodes are listed in order. -/
def OneGoodRun (g : DPOpGraph) (external : Bool) (select : List ℕ → SequencerLevel) : Prop :=
  g.nodes = [] ∨ g.groups.length ≤ 1 ∧ (g.groups ≠ [] → external = false) ∧
    (select (onlyGroup g) = .lvf → Kahn.PrecededBy (fun u v => v ∈ g.succ u) g.ids)

/-! ### One run -/

variable {g : DPOpGraph}

theorem node_eq_none_of_notMem {u : ℕ} (hu : u ∉ g.ids) : g.node u = none := by
  apply List.find?_eq_none.mpr
  intro n hn heq
  apply hu
  rw [← of_decide_eq_true heq]
  exact List.mem_map_of_mem hn

theorem succ_eq_nil_of_notMem {u : ℕ} (hu : u ∉ g.ids) : g.succ u = [] := by
  unfold DPOpGraph.succ
  rw [node_eq_none_of_notMem hu]
  rfl

theorem pred_eq_nil_of_notMem {v : ℕ} (hv : v ∉ g.ids) : g.pred v = [] := by
  unfold DPOpGraph.pred
  rw [node_eq_none_of_notMem hv]
  rfl

theorem length_eq_sum_count {l xs : List ℕ} (hl : l.Nodup) (hxs : ∀ x ∈ xs, x ∈ l) :
    xs.length = (l.map fun u => xs.count u).sum := by
  have hsum : ∑ a ∈ l.toFinset, (xs : Multiset ℕ).count a = xs.length := by
    apply Multiset.sum_count_eq_card
    intro a ha
    exact List.mem_toFinset.mpr (hxs a (Multiset.mem_coe.mp ha))
  simp only [Multiset.coe_count] at hsum
  rw [List.sum_toFinset _ hl] at hsum
  exact hsum.symm

theorem pred_length (hg : Dag g) (v : ℕ) :
    (g.pred v).length = Kahn.pending g.ids g.succ [] v := by
  have hpending : Kahn.pending g.ids g.succ [] v = (g.ids.map fun u => (g.succ u).count v).sum := by
    unfold Kahn.pending
    rw [List.filter_eq_self.mpr]
    intro u _
    exact decide_eq_true List.not_mem_nil
  rw [hpending]
  by_cases hv : v ∈ g.ids
  · have hsub : ∀ u ∈ g.pred v, u ∈ g.ids := by
      intro u hu
      by_contra hnot
      have hpos := List.count_pos_iff.mpr hu
      rw [hg.mirrored v hv u, succ_eq_nil_of_notMem hnot] at hpos
      exact Nat.lt_irrefl 0 hpos
    rw [length_eq_sum_count hg.nodup hsub]
    simp only [hg.mirrored v hv]
  · rw [pred_eq_nil_of_notMem hv]
    symm
    apply List.sum_eq_zero
    intro n hn
    obtain ⟨u, -, rfl⟩ := List.mem_map.mp hn
    exact List.count_eq_zero.mpr fun hmem => hv (hg.inGraph u v hmem)

theorem runSvf_sequenced (hg : Dag g) : Sequenced g (runSvf g) := by
  have hinv : Kahn.Inv g.ids g.succ
      ⟨g.ids.filter fun id => (g.pred id).length = 0, fun id => (g.pred id).length, []⟩ := by
    refine ⟨?_, ?_, pred_length hg, ?_, Kahn.precededBy_nil _⟩
    · rw [List.append_nil]
      exact hg.nodup.filter _
    · intro v hv
      rw [List.append_nil] at hv
      exact (List.mem_filter.mp hv).1
    · intro v hv
      rw [List.append_nil] at hv
      exact of_decide_eq_true (List.mem_filter.mp hv).2
  have hstarted : Kahn.Started g.ids
      ⟨g.ids.filter fun id => (g.pred id).length = 0, fun id => (g.pred id).length, []⟩ := by
    intro v hv hzero
    rw [List.append_nil]
    exact List.mem_filter.mpr ⟨hv, decide_eq_true hzero⟩
  have hn : g.ids.length ≤ g.nodes.length := (List.length_map _).le
  have hend := (Kahn.drainLast_inv hg.nodup hg.inGraph g.nodes.length hinv hstarted).1
  have hall := Kahn.drainLast_all hg.nodup hg.inGraph hg.acyclic hinv hstarted hn
  refine ⟨?_, ?_⟩
  · apply (List.perm_ext_iff_of_nodup (List.nodup_append.mp hend.nodup).2.1 hg.nodup).mpr
    intro v
    exact ⟨fun hv => hend.inNodes v (List.mem_append_right _ hv), hall v⟩
  · intro pre v post heq u huv
    apply hend.ordered pre v post heq u
    refine ⟨?_, huv⟩
    by_contra hnot
    rw [succ_eq_nil_of_notMem hnot] at huv
    cases huv

theorem runLevel_perm (hg : Dag g) (level : SequencerLevel) : (runLevel g level).Perm g.ids := by
  cases level with
  | lvf => exact List.Perm.refl _
  | _ => exact (runSvf_sequenced hg).1

theorem runLevel_sequenced_iff (hg : Dag g) (level : SequencerLevel) :
    Sequenced g (runLevel g level)
      ↔ (level = .lvf → Kahn.PrecededBy (fun u v => v ∈ g.succ u) g.ids) := by
  cases level with
  | lvf => exact ⟨fun h _ => h.2, fun h => ⟨List.Perm.refl _, h rfl⟩⟩
  | _ => exact ⟨fun _ heq => absurd heq SequencerLevel.noConfusion, fun _ => runSvf_sequenced hg⟩

/-! ### All runs -/

variable {select : List ℕ → SequencerLevel}

theorem sequenceGroups_length (hg : Dag g) (groups : List (List ℕ)) (result : List ℕ) :
    (sequenceGroups g false select groups result).length
      = result.length + groups.length * g.ids.length := by
  induction groups generalizing result with
  | nil => simp [sequenceGroups]
  | cons group groups ih =>
    rw [sequenceGroups, if_neg Bool.false_ne_true, ih, List.length_append,
      (runLevel_perm hg _).length_eq, List.length_cons, Nat.succ_mul]
    omega

theorem sequenced_nil_iff : Sequenced g [] ↔ g.nodes = [] := by
  have hids : g.ids = [] ↔ g.nodes = [] := List.map_eq_nil_iff
  rw [← hids]
  constructor
  · intro h
    exact h.1.symm.eq_nil
  · intro h
    exact ⟨h ▸ List.Perm.refl _, Kahn.precededBy_nil _⟩

theorem sequence_of_groups_nil (external : Bool) (h : g.groups = []) (hn : g.nodes ≠ []) :
    Model.DpSequencer.sequence g external select = runLevel g (select (onlyGroup g)) := by
  unfold Model.DpSequencer.sequence onlyGroup
  rw [h, List.headD_nil, List.isEmpty_nil, Bool.true_and, if_pos]
  rw [List.isEmpty_eq_false_iff.mpr hn]
  rfl

theorem sequence_of_groups (external : Bool) {group : List ℕ} {groups : List (List ℕ)}
    (h : g.groups = group :: groups) :
    Model.DpSequencer.sequence g external select =
      sequenceGroups g external select (group :: groups) [] := by
  unfold Model.DpSequencer.sequence
  rw [h, List.isEmpty_cons, Bool.false_and, if_neg Bool.false_ne_true]

/-- The sequence is a topological order exactly if there is one good run. -/
theorem sequence_sequenced_iff (g : DPOpGraph) (external : Bool)
    (select : List ℕ → SequencerLevel) (hg : Dag g) :
    Sequenced g (Model.DpSequencer.sequence g external select) ↔
      OneGoodRun g external select := by
  unfold OneGoodRun
  by_cases hn : g.nodes = []
  · -- nothing to order: every run is empty
    refine iff_of_true ?_ (Or.inl hn)
    have hids : g.ids = [] := List.map_eq_nil_iff.mpr hn
    have hempty : Model.DpSequencer.sequence g external select = [] := by
      cases hgroups : g.groups with
      | nil =>
        unfold Model.DpSequencer.sequence
        rw [hgroups, hn]
        rfl
      | cons group groups =>
        rw [sequence_of_groups external hgroups]
        cases external with
        | true => rfl
        | false =>
          apply List.length_eq_zero_iff.mp
          rw [sequenceGroups_length hg, hids]
          rfl
    rw [hempty]
    exact sequenced_nil_iff.mpr hn
  · rw [or_iff_right hn]
    cases hgroups : g.groups with
    | nil =>
      rw [sequence_of_groups_nil external hgroups hn, runLevel_sequenced_iff hg]
      simp
    | cons group groups =>
      rw [sequence_of_groups external hgroups]
      cases external with
      | true =>
        refine iff_of_false (fun h => hn (sequenced_nil_iff.mp h)) fun h => ?_
        exact absurd (h.2.1 (List.cons_ne_nil _ _)) (by decide)
      | false =>
        cases groups with
        | nil =>
          have hone : onlyGroup g = group := by
            unfold onlyGroup
            rw [hgroups]
            rfl
          have hrun : sequenceGroups g false select [group] [] = runLevel g (select group) := rfl
          rw [hrun, runLevel_sequenced_iff hg, hone]
          simp
        | cons group' groups =>
          -- two runs have each operator twice
          refine iff_of_false (fun h => ?_) fun h => ?_
          · have hlen := h.1.length_eq
            rw [sequenceGroups_length hg] at hlen
            have hpos : 0 < g.ids.length := by
              apply List.length_pos_iff.mpr
              exact fun hids => hn (List.map_eq_nil_iff.mp hids)
            simp only [List.length_nil, List.length_cons, Nat.add_mul, Nat.zero_add] at hlen
            omega
          · have hle := h.1
            simp only [List.length_cons] at hle
            omega

/-! ### A chain of three -/

/-- A chain whose nodes are listed out of order, in one group or in two. -/
def chain (groups : List (List ℕ)) : DPOpGraph :=
  ⟨[⟨30, [20], []⟩, ⟨10, [], [20]⟩, ⟨20, [10], [30]⟩], groups⟩

theorem chain_succ_lt {u v : ℕ} (h : v ∈ (chain []).succ u) : u < v := by
  by_cases hu : u ∈ (chain []).ids
  · have hcases : u = 30 ∨ u = 10 ∨ u = 20 := by simpa [chain, DPOpGraph.ids] using hu
    rcases hcases with rfl | rfl | rfl
    · have hnil : (chain []).succ 30 = [] := by decide
      rw [hnil] at h
      cases h
    · have hsucc : (chain []).succ 10 = [20] := by decide
      rw [hsucc, List.mem_singleton] at h
      omega
    · have hsucc : (chain []).succ 20 = [30] := by decide
      rw [hsucc, List.mem_singleton] at h
      omega
  · rw [succ_eq_nil_of_notMem hu] at h
    cases h

theorem chain_acyclic (v : ℕ) :
    ¬ Relation.TransGen (fun u v => v ∈ (chain []).succ u) v v := by
  intro h
  have hlt : ∀ {a b}, Relation.TransGen (fun u v => v ∈ (chain []).succ u) a b → a < b := by
    intro a b hab
    induction hab with
    | single hab => exact chain_succ_lt hab
    | tail _ hbc ih => exact ih.trans (chain_succ_lt hbc)
  exact Nat.lt_irrefl v (hlt h)

theorem chain_dag (groups : List (List ℕ)) : Dag (chain groups) where
  nodup := by
    show (chain []).ids.Nodup
    decide
  inGraph u v hv := by
    by_cases hu : u ∈ (chain []).ids
    · have hall : ∀ u ∈ (chain []).ids, ∀ v ∈ (chain []).succ u, v ∈ (chain []).ids := by decide
      exact hall u hu v hv
    · have hnil : (chain groups).succ u = [] := succ_eq_nil_of_notMem hu
      rw [hnil] at hv
      cases hv
  mirrored v hv u := by
    have hv' : v ∈ (chain []).ids := hv
    by_cases hu : u ∈ (chain []).ids
    · have hall : ∀ v ∈ (chain []).ids, ∀ u ∈ (chain []).ids,
          ((chain []).pred v).count u = ((chain []).succ u).count v := by decide
      exact hall v hv' u hu
    · have hnil : (chain groups).succ u = [] := succ_eq_nil_of_notMem hu
      have hall : ∀ v ∈ (chain []).ids, ∀ u ∈ (chain []).pred v, u ∈ (chain []).ids := by decide
      rw [hnil, List.count_nil]
      exact List.count_eq_zero.mpr fun hmem => hu (hall v hv' u hmem)
  acyclic := chain_acyclic

/-- With one group the chain comes out as it is. -/
theorem chain_one_group : Dag (chain [[10, 20, 30]]) ∧
    Sequenced (chain [[10, 20, 30]])
      (Model.DpSequencer.sequence (chain [[10, 20, 30]]) false fun _ => .svf0) :=
  ⟨chain_dag _, (sequence_sequenced_iff _ false (fun _ => .svf0) (chain_dag _)).mpr
    (Or.inr ⟨by decide, fun _ => rfl, fun h => absurd h (by decide)⟩)⟩

/-- With two groups every operator comes twice. -/
theorem chain_two_groups : Dag (chain [[10], [20, 30]]) ∧
    Model.DpSequencer.sequence (chain [[10], [20, 30]]) false (fun _ => .svf0) =
      [10, 20, 30, 10, 20, 30] ∧
    ¬ Sequenced (chain [[10], [20, 30]])
      (Model.DpSequencer.sequence (chain [[10], [20, 30]]) false fun _ => .svf0) := by
  have hseq : Model.DpSequencer.sequence (chain [[10], [20, 30]]) false (fun _ => .svf0)
      = [10, 20, 30, 10, 20, 30] := by decide
  refine ⟨chain_dag _, hseq, fun h => ?_⟩
  have hlen := h.1.length_eq
  rw [hseq] at hlen
  exact absurd hlen (by decide)

end Gehtp.Analysis.DpSequencerOrder
