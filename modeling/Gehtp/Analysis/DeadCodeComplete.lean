import Gehtp.Analysis.OrderNodesTopo
import Gehtp.Analysis.PhasesTidy
import Mathlib.Data.Finset.Card

/-!
# What dead-code removal leaves

The pipeline ends with a round that deletes nothing: every operator that is left has a live consumer
in its list. If the lists name readers only, then following them from any operator leads to the
output node or, where there are cycles, to a cycle. The lists name the users of tensor parameters
too, which no input edge does. Folding a constant leaves the operator in the lists of its sources,
which it does not read any more; nothing is said of that.
-/

set_option autoImplicit false

namespace Gehtp.Analysis.DeadCodeComplete

open Lib Model.OpGraph Model.Cse Model.OrderNodes Model.PassManager Model.DeadCode
  Analysis.PassRewrites Analysis.PassPhase Analysis.PassComplete Analysis.ReaderLists
  Analysis.PhasesTidy

variable {params acyclic : Bool} {io : IoNodes}

/-! ### The loop and the pipeline -/

variable {n phase : ℕ} {s t : OptState} {g : PassGraph} {order : List ℕ}

theorem fixpoint_keeps (ph : Phases) (Inv : OpdefMap → Prop)
    (hdce : ∀ g, Inv g → Inv (ph.removeDeadCode g).2)
    (hcse : ∀ g, Inv g → Inv (ph.commonSubexprEliminate g).2) {s t : FixState}
    (hinv : Inv s.graph) (h : runPhaseFixpoint ph n s = some t) :
    ∃ g, Inv g ∧ (ph.removeDeadCode g).1 = 0 ∧
      (ph.commonSubexprEliminate (ph.removeDeadCode g).2).1 = 0 ∧
      t.graph = (ph.commonSubexprEliminate (ph.removeDeadCode g).2).2 := by
  induction n generalizing s with
  | zero => cases h
  | succ n ih =>
    unfold runPhaseFixpoint fixRound at h
    simp only at h
    by_cases hd : (ph.removeDeadCode s.graph).1 = 0
    · rw [if_neg (not_not.mpr hd)] at h
      by_cases ho : (orderNodes (ph.removeDeadCode s.graph).2 s.ordering).1 = 0
      · rw [if_neg (not_not.mpr ho)] at h
        by_cases hc : (ph.commonSubexprEliminate (ph.removeDeadCode s.graph).2).1 = 0
        · rw [if_neg (not_not.mpr hc)] at h
          cases h
          exact ⟨s.graph, hinv, hd, hc, rfl⟩
        · rw [if_pos hc] at h
          exact ih (hcse _ (hdce _ hinv)) h
      · rw [if_pos ho] at h
        exact ih (hdce _ hinv) h
    · rw [if_pos hd] at h
      exact ih (hdce _ hinv) h

theorem entries_eq {g : OpdefMap} (h : ∀ i, (g.ops.getOpAt i).isSome = true → i ∈ g.keys) :
    entries g = g.ops := by
  have hget : (entries g).getOpAt = g.ops.getOpAt := by
    funext i
    unfold entries
    simp only
    split
    · rfl
    · rename_i hno
      by_contra hne
      exact hno (h i (Option.isSome_iff_ne_none.mpr (Ne.symm hne)))
  cases hops : g.ops with
  | mk getOpAt keyed =>
    cases hent : entries g with
    | mk getOpAt' keyed' =>
      rw [hops, hent] at hget
      cases hget
      rfl

theorem clean_toMap {gp : PassGraph} (h : Tidy params acyclic io gp.getOpAt) :
    Clean params acyclic io (toMap gp) :=
  ⟨h, gp.covered⟩

theorem tidy_withMap (gp : PassGraph) {g : OpdefMap} (h : Clean params acyclic io g) :
    Tidy params acyclic io (withMap gp g).getOpAt := h.tidy.shrink (shrunk_entries g)

theorem fixpointInternal_spec (hsize : s.graph.keys.length < 2 ^ 31)
    (h : Tidy params acyclic io s.graph.getOpAt)
    (hrun : runPhaseFixpointInternal io n s = some t) :
    Tidy params acyclic io t.graph.getOpAt ∧ t.graph.keys.length ≤ s.graph.keys.length ∧
      ∀ id, Kept io t.graph.ops id := by
  unfold runPhaseFixpointInternal at hrun
  obtain ⟨r, hr, rfl⟩ := Option.map_eq_some_iff.mp hrun
  obtain ⟨g, ⟨hclean, hle⟩, hd, hc, hlast⟩ := fixpoint_keeps (phases io)
    (fun g => Clean params acyclic io g ∧ g.keys.length ≤ s.graph.keys.length)
    (fun g hg => ⟨clean_removeDeadCode hg.1, (removeDeadCode_le g).trans hg.2⟩)
    (fun g hg => ⟨clean_cse hg.1, (cse_le g).trans hg.2⟩) ⟨clean_toMap h, le_rfl⟩ hr
  obtain ⟨hsame, hkept⟩ := removeDeadCode_zero (hle.trans_lt hsize) hd
  have hdce : ((phases io).removeDeadCode g).2 = g := hsame
  rw [hdce] at hc hlast
  have hcse : ((phases io).commonSubexprEliminate g).2 = g := cse_zero (hle.trans_lt hsize) hc
  rw [hcse] at hlast
  rw [hlast]
  refine ⟨tidy_withMap s.graph hclean, hle, fun id => ?_⟩
  show Kept io (entries g) id
  rw [entries_eq hclean.covered]
  intro od hod
  exact hkept id (hclean.covered id (Option.isSome_iff_exists.mpr ⟨od, hod⟩)) od hod

/-! ### The loop ends -/

/-- A search that has a result from some bound on. -/
def Ends {α : Type} (f : ℕ → Option α) : Prop := ∃ n a, ∀ k, n ≤ k → f k = some a

theorem Ends.pure {α : Type} (a : α) : Ends fun _ => some a := ⟨0, a, fun _ _ => rfl⟩

theorem Ends.bind {α β : Type} {f : ℕ → Option α} {g : ℕ → α → Option β} (hf : Ends f)
    (hg : ∀ n a, f n = some a → Ends fun k => g k a) : Ends fun k => (f k).bind (g k) := by
  obtain ⟨n, a, hrun⟩ := hf
  obtain ⟨m, b, hrest⟩ := hg n a (hrun n le_rfl)
  refine ⟨max n m, b, fun k hk => ?_⟩
  show (f k).bind (g k) = some b
  rw [hrun k ((le_max_left n m).trans hk)]
  exact hrest k ((le_max_right n m).trans hk)

theorem runPhaseFixpoint_mono {ph : Phases} {k : ℕ} {s t : FixState}
    (h : runPhaseFixpoint ph n s = some t) (hk : n ≤ k) : runPhaseFixpoint ph k s = some t := by
  induction n generalizing k s with
  | zero => cases h
  | succ n ih =>
    obtain ⟨k, rfl⟩ := Nat.exists_eq_succ_of_ne_zero (Nat.ne_of_gt (Nat.lt_of_succ_le
      (Nat.le_trans (Nat.le_add_left 1 n) hk)))
    unfold runPhaseFixpoint at h ⊢
    split at h
    · exact ih h (Nat.le_of_succ_le_succ hk)
    · exact h

theorem acyclic_of_clean {g : OpdefMap} (h : Clean params true io g) :
    OrderNodesTopo.AcyclicGraph g := by
  obtain ⟨rank, hrank⟩ := h.tidy.ranked rfl
  have hstep : ∀ {u v}, OrderNodesTopo.Reads g u v → rank u < rank v := by
    rintro u v ⟨hu, -, hsrc⟩
    unfold sources at hsrc
    split at hsrc
    · cases hsrc
    · rename_i od hod
      obtain ⟨conn, hconn, rfl⟩ := List.mem_map.mp hsrc
      have hnode := (List.mem_filter.mp hu).2
      unfold notDead at hnode
      split at hnode
      · cases hnode
      · rename_i s hs
        exact hrank v od hod conn hconn s hs
  have hlt : ∀ {u v}, Relation.TransGen (OrderNodesTopo.Reads g) u v → rank u < rank v := by
    intro u v hpath
    induction hpath with
    | single hedge => exact hstep hedge
    | tail _ hedge ih => exact ih.trans (hstep hedge)
  exact fun v hpath => lt_irrefl _ (hlt hpath)

theorem countable_of_lt {g : OpdefMap} (h : g.keys.length < 2 ^ 31) :
    OrderNodesTopo.Countable g := by
  by_cases hnil : nodes g = []
  · exact Or.inl hnil
  · right
    have hle : (nodes g).length ≤ g.keys.length := List.length_filter_le _ _
    have hpos := List.length_pos_iff.mpr hnil
    omega

theorem terminates_of_clean {s : FixState} (h : Clean params true io s.graph)
    (hsmall : s.graph.keys.length < 2 ^ 31) : OrderNodesTopo.Terminates (phases io) s := by
  induction hlen : s.graph.keys.length using Nat.strong_induction_on generalizing s with
  | _ len ih =>
    by_cases hd : (removeDeadCode io s.graph).1 = 0
    · have hsame := (removeDeadCode_zero hsmall hd).1
      have hstable : ∀ ordering, orderNodes s.graph (orderNodes s.graph ordering).2 =
          (0, (orderNodes s.graph ordering).2) := fun ordering =>
        (OrderNodesTopo.ordered_and_stable (acyclic_of_clean h) (countable_of_lt hsmall) ordering).2
      have hdce : (phases io).removeDeadCode s.graph = (0, s.graph) := Prod.ext hd hsame
      by_cases hc : (cse io s.graph).1 = 0
      · apply OrderNodesTopo.terminates_of_quiet
        · exact ⟨hdce, Prod.ext hc (cse_zero hsmall hc)⟩
        · rw [hstable]
      · -- the order is settled, and the merge leaves fewer operators
        have hless : ∀ ordering, (orderNodes s.graph ordering).1 = 0 →
            OrderNodesTopo.Terminates (phases io) ⟨s.graph, ordering⟩ := by
          intro ordering hzero
          have hlt := cse_lt h hc
          obtain ⟨n, t, ht⟩ := ih _ (hlen ▸ hlt)
            (s := ⟨(cse io s.graph).2, (orderNodes s.graph ordering).2⟩) (clean_cse h)
            (hlt.trans hsmall) rfl
          refine ⟨n + 1, t, ?_⟩
          have hround : fixRound (phases io) ⟨s.graph, ordering⟩ =
              .inl ⟨(cse io s.graph).2, (orderNodes s.graph ordering).2⟩ := by
            unfold fixRound
            simp only [hdce, hzero, ne_eq, not_true_eq_false, if_false]
            exact if_pos hc
          rw [runPhaseFixpoint, hround]
          exact ht
        by_cases ho : (orderNodes s.graph s.ordering).1 = 0
        · exact hless s.ordering ho
        · obtain ⟨n, t, ht⟩ := hless (orderNodes s.graph s.ordering).2 (by rw [hstable])
          refine ⟨n + 1, t, ?_⟩
          have hround : fixRound (phases io) s =
              .inl ⟨s.graph, (orderNodes s.graph s.ordering).2⟩ := by
            unfold fixRound
            simp only [hdce, ne_eq, not_true_eq_false, if_false]
            exact if_pos ho
          rw [runPhaseFixpoint, hround]
          exact ht
    · have hlt := removeDeadCode_lt hd
      obtain ⟨n, t, ht⟩ := ih _ (hlen ▸ hlt)
        (s := ⟨(removeDeadCode io s.graph).2, s.ordering⟩) (clean_removeDeadCode h)
        (hlt.trans hsmall) rfl
      refine ⟨n + 1, t, ?_⟩
      have hround : fixRound (phases io) s =
          .inl ⟨(removeDeadCode io s.graph).2, s.ordering⟩ := by
        unfold fixRound
        exact if_pos hd
      rw [runPhaseFixpoint, hround]
      exact ht

theorem fixpointInternal_ends (h : Tidy params true io s.graph.getOpAt)
    (hsmall : s.graph.keys.length < 2 ^ 31) : Ends fun n => runPhaseFixpointInternal io n s := by
  obtain ⟨n, t, ht⟩ := terminates_of_clean (s := ⟨toMap s.graph, s.ordering⟩) (clean_toMap h) hsmall
  refine ⟨n, ⟨withMap s.graph t.graph, t.ordering⟩, fun k hk => ?_⟩
  show runPhaseFixpointInternal io k s = _
  unfold runPhaseFixpointInternal
  rw [runPhaseFixpoint_mono ht hk]
  rfl

/-! ### The phases of passes -/

theorem tidy_rewrite {kernels : Kernels} {switch : GraphPass → Bool} (hphase : phase ≠ 3000)
    {p : GraphPass} (hp : p ∈ activePasses (builtinPasses kernels switch) phase) {g' : PassGraph}
    {op : OpDef} (h : Tidy params acyclic io g.getOpAt) (hop : g.getOpAt op.opId = some op)
    (hlive : isLive op = true) (hrewrite : p.rewrite g op = some g') :
    Tidy params acyclic io g'.getOpAt := by
  obtain ⟨hfold, -⟩ | ⟨-, -, hr⟩ | ⟨-, r, -, -, hr⟩ := active_cases hp
  · exact absurd hfold hphase
  · rw [hr] at hrewrite
    obtain ⟨conn, src, hinputs, hconn, -, -, hcase⟩ := shapeFoldRewrite_cases hrewrite
    have hid := opId_eq hconn
    have hsrc : g.getOpAt src.opId = some src := hid ▸ hconn
    obtain ⟨-, rfl⟩ | ⟨-, rfl⟩ := hcase
    · exact tidy_rewireConsumers h hop hlive hsrc (hinputs ▸ List.mem_singleton_self conn) hid.symm
    · exact tidy_joined h (joined_mergeChain g op src) hop hlive hsrc hinputs hid.symm
  · rw [hr] at hrewrite
    obtain ⟨conn, src, hinputs, hconn, rfl⟩ := fusePair_eq hrewrite
    have hid := opId_eq hconn
    have hsrc : g.getOpAt src.opId = some src := hid ▸ hconn
    exact tidy_joined h (joined_fused r g op src) hop hlive hsrc hinputs hid.symm

/-- `const_fold` is off or finds nothing to fold. -/
def NoFold (kernels : Kernels) (switch : GraphPass → Bool) (g : PassGraph) : Prop :=
  switch (constFold kernels) = true → ∀ id op, g.getOpAt id = some op → isLive op = true →
    constFoldMatcher g op = false

section Pipeline

variable {kernels : Kernels} {switch : GraphPass → Bool}

theorem tidy_runPhase (hphase : phase ≠ 3000) {t : PhaseState} (h : Tidy params acyclic io g.getOpAt)
    (hrun : runPhase (builtinPasses kernels switch) phase order g n = some t) :
    Tidy params acyclic io t.graph.getOpAt := by
  unfold runPhase at hrun
  simp only at hrun
  split at hrun
  · cases hrun
    exact h
  · refine @Worklist.run_keeps _ _ _ _ (fun t : PhaseState => Tidy params acyclic io t.graph.getOpAt)
      (fun t a t' l ht hvisit => ?_) n _ _ _ h hrun
    obtain ⟨op, hop, hlive, htry, -⟩ := visitOp_some hvisit
    obtain ⟨p, hp, -, hrewrite⟩ := tryPasses_some htry
    exact tidy_rewrite hphase hp ht (opId_eq hop ▸ hop) hlive hrewrite

theorem active_constFold {p : GraphPass}
    (hp : p ∈ activePasses (builtinPasses kernels switch) 3000) :
    switch (constFold kernels) = true ∧ p.matcher = constFoldMatcher := by
  obtain ⟨hmem, htest⟩ := List.mem_filter.mp hp
  rw [Bool.and_eq_true, decide_eq_true_eq] at htest
  obtain ⟨q, hq, rfl⟩ := List.mem_map.mp hmem
  rw [List.mem_cons, List.mem_cons, List.mem_map] at hq
  obtain rfl | rfl | ⟨r, -, rfl⟩ := hq
  · exact ⟨htest.2, rfl⟩
  · exact absurd (show (10190 : ℕ) = 3000 from htest.1) (by decide)
  · exact absurd (show (12492 : ℕ) = 3000 from htest.1) (by decide)

theorem runPhase_noFold {t : PhaseState} (h : NoFold kernels switch g)
    (hrun : runPhase (builtinPasses kernels switch) 3000 order g n = some t) : t.graph = g := by
  unfold runPhase at hrun
  simp only at hrun
  split at hrun
  · cases hrun
    rfl
  · refine @Worklist.run_keeps _ _ _ _ (fun t : PhaseState => t.graph = g)
      (fun t a t' l ht hvisit => ?_) n _ _ _ rfl hrun
    exfalso
    obtain ⟨op, hop, hlive, htry, -⟩ := visitOp_some hvisit
    obtain ⟨p, hp, hmatch, -⟩ := tryPasses_some htry
    rw [ht] at hop hmatch
    obtain ⟨hon, hmatcher⟩ := active_constFold hp
    rw [hmatcher, h hon a op hop hlive] at hmatch
    cases hmatch

theorem runPhase_keys {t : PhaseState}
    (hrun : runPhase (builtinPasses kernels switch) phase order g n = some t) :
    t.graph.keys = g.keys := by
  unfold runPhase at hrun
  simp only at hrun
  split at hrun
  · cases hrun
    rfl
  · refine @Worklist.run_keeps _ _ _ _ (fun t : PhaseState => t.graph.keys = g.keys)
      (fun t a t' l ht hvisit => ?_) n _ _ _ rfl hrun
    obtain ⟨op, -, -, htry, -⟩ := visitOp_some hvisit
    obtain ⟨p, hp, -, hrewrite⟩ := tryPasses_some htry
    rw [← ht]
    obtain ⟨-, -, hr⟩ | ⟨-, -, hr⟩ | ⟨-, r, -, -, hr⟩ := active_cases hp
    · rw [hr] at hrewrite
      exact (foldOpToConst_eq hrewrite).1
    · rw [hr] at hrewrite
      obtain ⟨conn, src, -, -, -, -, hcase⟩ := shapeFoldRewrite_cases hrewrite
      obtain ⟨-, heq⟩ | ⟨-, heq⟩ := hcase
      · rw [heq]
        exact (SameData.of_rewireConsumers _ _ _).keys
      · rw [heq]
        exact (SameData.of_mergeChain _ _ _).keys
    · rw [hr] at hrewrite
      obtain ⟨conn, prod, -, -, heq⟩ := fusePair_eq hrewrite
      rw [heq]
      exact (joined_fused r t.graph op prod).data.keys

/-- What every stage of the pipeline keeps. -/
structure Ready (params acyclic : Bool) (io : IoNodes) (s : OptState) : Prop where
  tidy : Tidy params acyclic io s.graph.getOpAt
  small : s.graph.keys.length < 2 ^ 31

theorem ready_fixpointInternal (h : Ready params acyclic io s)
    (hrun : runPhaseFixpointInternal io n s = some t) : Ready params acyclic io t := by
  obtain ⟨htidy, hle, -⟩ := fixpointInternal_spec h.small h.tidy hrun
  exact ⟨htidy, hle.trans_lt h.small⟩

theorem ready_runPhase {p : PhaseState} (hphase : phase = 3000 → NoFold kernels switch s.graph)
    (h : Ready params acyclic io s)
    (hrun : runPhase (builtinPasses kernels switch) phase s.graph.keys s.graph n = some p) :
    Ready params acyclic io ⟨p.graph, s.ordering⟩ := by
  refine ⟨?_, (runPhase_keys hrun ▸ h.small : p.graph.keys.length < 2 ^ 31)⟩
  by_cases hfirst : phase = 3000
  · rw [hfirst] at hrun
    have hsame := runPhase_noFold (hphase hfirst) hrun
    exact hsame ▸ h.tidy
  · exact tidy_runPhase hfirst h.tidy hrun

theorem ready_phaseThenFixpoint (hphase : phase = 3000 → NoFold kernels switch s.graph)
    (h : Ready params acyclic io s)
    (hrun : phaseThenFixpoint (builtinPasses kernels switch) io n phase s = some t) :
    Ready params acyclic io t := by
  obtain ⟨p, hp, hrun⟩ := Option.bind_eq_some_iff.mp hrun
  have hready := ready_runPhase hphase h hp
  split at hrun
  · exact ready_fixpointInternal hready hrun
  · cases hrun
    exact hready

theorem phaseThenFixpoint_ends (hphase : phase = 3000 → NoFold kernels switch s.graph)
    (h : Ready params true io s) :
    Ends fun n => phaseThenFixpoint (builtinPasses kernels switch) io n phase s := by
  apply Ends.bind (runPhase_terminates kernels switch phase s.graph.keys s.graph)
  intro n p hp
  have hready := ready_runPhase hphase h hp
  by_cases htotal : p.total % 2 ^ 32 ≠ 0
  · simp only [if_pos htotal]
    exact fixpointInternal_ends hready.tidy hready.small
  · simp only [if_neg htotal]
    exact Ends.pure _

theorem ready_cse (h : Ready params acyclic io s) :
    Ready params acyclic io (if nodeCount s.graph ≤ 21101 then constPropAndCse io s else s) := by
  split
  · exact ⟨tidy_withMap s.graph (clean_cse (clean_toMap h.tidy)),
      (cse_le (toMap s.graph)).trans_lt h.small⟩
  · exact h

theorem eightPhases_ends (h : Ready params true io s) :
    Ends fun n => eightPhases io n s := by
  have hcse := ready_cse h
  unfold eightPhases
  simp only
  by_cases hcount : nodeCount s.graph ≤ 24999
  · simp only [if_pos hcount]
    apply Ends.bind (fixpointInternal_ends hcse.tidy hcse.small)
    intro n t ht
    have hready := ready_fixpointInternal hcse ht
    exact fixpointInternal_ends hready.tidy hready.small
  · simp only [if_neg hcount]
    exact fixpointInternal_ends hcse.tidy hcse.small

theorem eightPhases_spec (h : Ready params acyclic io s) (hrun : eightPhases io n s = some t) :
    Tidy params acyclic io t.graph.getOpAt ∧ ∀ id, Kept io t.graph.ops id := by
  obtain ⟨s', hs', hrun⟩ := Option.bind_eq_some_iff.mp hrun
  have hcse := ready_cse h
  have hready : Ready params acyclic io s' := by
    split at hs'
    · exact ready_fixpointInternal hcse hs'
    · cases hs'
      exact hcse
  obtain ⟨htidy, -, hkept⟩ := fixpointInternal_spec hready.small hready.tidy hrun
  exact ⟨htidy, hkept⟩

theorem pipeline_spec (h : Ready params acyclic io s) (hfold : NoFold kernels switch s.graph)
    (hrun : runOptimizePasses kernels switch io n s = some t) :
    Tidy params acyclic io t.graph.getOpAt ∧ ∀ id, Kept io t.graph.ops id := by
  unfold runOptimizePasses at hrun
  obtain ⟨s₁, hs₁, hrun⟩ := Option.bind_eq_some_iff.mp hrun
  obtain ⟨s₂, hs₂, hrun⟩ := Option.bind_eq_some_iff.mp hrun
  obtain ⟨s₃, hs₃, hrun⟩ := Option.bind_eq_some_iff.mp hrun
  have h₁ := ready_phaseThenFixpoint (fun _ => hfold) h hs₁
  have h₂ := ready_phaseThenFixpoint (fun heq => absurd heq (by decide)) h₁ hs₂
  have h₃ := ready_phaseThenFixpoint (fun heq => absurd heq (by decide)) h₂ hs₃
  exact eightPhases_spec h₃ hrun

theorem pipeline_ends (h : Ready params true io s) (hfold : NoFold kernels switch s.graph) :
    Ends fun n => runOptimizePasses kernels switch io n s := by
  unfold runOptimizePasses
  apply Ends.bind (phaseThenFixpoint_ends (fun _ => hfold) h)
  intro n₁ s₁ hs₁
  have h₁ := ready_phaseThenFixpoint (fun _ => hfold) h hs₁
  apply Ends.bind (phaseThenFixpoint_ends (fun heq => absurd heq (by decide)) h₁)
  intro n₂ s₂ hs₂
  have h₂ := ready_phaseThenFixpoint (fun heq => absurd heq (by decide)) h₁ hs₂
  apply Ends.bind (phaseThenFixpoint_ends (fun heq => absurd heq (by decide)) h₂)
  intro n₃ s₃ hs₃
  exact eightPhases_ends (ready_phaseThenFixpoint (fun heq => absurd heq (by decide)) h₂ hs₃)

end Pipeline

/-! ### Paths to the output -/

/-- A live operator reads `i` as an input. -/
def InputEdge (g : PassGraph) (i c : ℕ) : Prop :=
  ∃ oc, g.getOpAt c = some oc ∧ isAlive oc = true ∧ ∃ conn ∈ oc.inputs, conn.srcId = i

/-- A path of input edges, of one edge at least. -/
abbrev Path (g : PassGraph) : ℕ → ℕ → Prop := Relation.TransGen (InputEdge g)

/-- A cycle of readers can be reached from `i`. -/
def LeadsToCycle (g : PassGraph) (i : ℕ) : Prop :=
  ∃ c, Relation.ReflTransGen (InputEdge g) i c ∧ Path g c c

open Classical in
/-- The operators that paths from `i` lead to. -/
noncomputable def successors (g : PassGraph) (i : ℕ) : Finset ℕ := g.keys.toFinset.filter (Path g i)

/-- A reader that is on no cycle has fewer operators before it. -/
theorem successors_ssubset {g : PassGraph} {i c : ℕ} (hedge : InputEdge g i c)
    (hcycle : ¬ Path g c c) : successors g c ⊂ successors g i := by
  classical
  have hmem : ∀ j k, k ∈ successors g j ↔ k ∈ g.keys.toFinset ∧ Path g j k :=
    fun j k => Finset.mem_filter
  refine Finset.ssubset_iff_subset_ne.mpr ⟨fun k hk => ?_, fun heq => hcycle ?_⟩
  · obtain ⟨hkey, hpath⟩ := (hmem c k).mp hk
    exact (hmem i k).mpr ⟨hkey, Relation.TransGen.head hedge hpath⟩
  · obtain ⟨oc, hoc, -⟩ := id hedge
    have hkey := List.mem_toFinset.mpr (g.covered c (Option.isSome_iff_exists.mpr ⟨oc, hoc⟩))
    exact ((hmem c c).mp (heq ▸ (hmem i c).mpr ⟨hkey, Relation.TransGen.single hedge⟩)).2

/-- A graph with a topological numbering has no cycle. -/
theorem no_cycle (h : Tidy params true io g.getOpAt) (c : ℕ) : ¬ Path g c c := by
  obtain ⟨rank, hrank⟩ := h.ranked rfl
  have hlt : ∀ i od, g.getOpAt i = some od → ∀ c, Path g i c → rank i < rank c := by
    intro i od hod c hpath
    induction hpath with
    | single hedge =>
      obtain ⟨oc, hoc, -, conn, hconn, rfl⟩ := hedge
      exact hrank _ oc hoc conn hconn od hod
    | tail hpath hedge ih =>
      obtain ⟨ob, hob, -⟩ : ∃ ob, g.getOpAt _ = some ob ∧ True := by
        cases hpath with
        | single hedge' => exact ⟨_, hedge'.choose_spec.1, trivial⟩
        | tail _ hedge' => exact ⟨_, hedge'.choose_spec.1, trivial⟩
      obtain ⟨oc, hoc, -, conn, hconn, rfl⟩ := hedge
      exact ih.trans (hrank _ oc hoc conn hconn ob hob)
  intro hpath
  obtain ⟨b, -, oc, hoc, -⟩ := Relation.TransGen.tail'_iff.mp hpath
  exact lt_irrefl _ (hlt c oc hoc c hpath)

/-- Readers lead from `i` to the output node or, in a graph with cycles, to one of these. -/
def Serves (acyclic : Bool) (io : IoNodes) (g : PassGraph) (i : ℕ) : Prop :=
  Path g i io.outputNodeId ∨ (acyclic = false ∧ LeadsToCycle g i)

theorem Serves.head {i c : ℕ} (hedge : InputEdge g i c)
    (h : c = io.outputNodeId ∨ Serves acyclic io g c) : Serves acyclic io g i := by
  obtain rfl | hpath | ⟨hac, d, hcd, hdd⟩ := h
  · exact Or.inl (Relation.TransGen.single hedge)
  · exact Or.inl (Relation.TransGen.head hedge hpath)
  · exact Or.inr ⟨hac, d, Relation.ReflTransGen.head hedge hcd, hdd⟩

theorem exists_reader (h : Tidy params acyclic io g.getOpAt) (hkept : ∀ id, Kept io g.ops id) {i : ℕ}
    {od : OpDef} (hod : g.getOpAt i = some od) (halive : isAlive od = true)
    (hin : i ≠ io.inputNodeId) (hout : i ≠ io.outputNodeId) :
    ∃ c oc, g.getOpAt c = some oc ∧ isAlive oc = true ∧ c ≠ io.inputNodeId ∧
      (params = true → oc.isConst = false) ∧ Reads params oc i := by
  have hlive := hkept i od hod halive hout hin
  unfold hasLiveConsumer at hlive
  obtain ⟨c, hc, hcalive⟩ := List.any_eq_true.mp hlive
  obtain ⟨oc, hoc, hcalive⟩ := (Option.any_eq_true _ _).mp hcalive
  have hread := h.readers i od hod halive c hc oc hoc hcalive
  refine ⟨c, oc, hoc, hcalive, ?_, ?_, hread⟩
  · rintro rfl
    obtain ⟨hnil, hparams⟩ := h.source oc hoc
    obtain ⟨conn, hconn, -⟩ | ⟨hp, ht⟩ := hread
    · rw [hnil] at hconn
      cases hconn
    · rw [hparams hp] at ht
      cases ht
  · intro hp
    by_contra hconst
    obtain ⟨hnil, hparams⟩ := h.constants hp c oc hoc (Bool.not_eq_false _ ▸ hconst)
    obtain ⟨conn, hconn, -⟩ | ⟨-, ht⟩ := hread
    · rw [hnil] at hconn
      cases hconn
    · rw [hparams] at ht
      cases ht

theorem serves_of_kept (h : Tidy params acyclic io g.getOpAt) (hkept : ∀ id, Kept io g.ops id)
    {i : ℕ} {od : OpDef} (hod : g.getOpAt i = some od) (halive : isAlive od = true)
    (hin : i ≠ io.inputNodeId) (hconst : params = true → od.isConst = false) :
    i = io.outputNodeId ∨ Serves acyclic io g i := by
  induction hn : (successors g i).card using Nat.strong_induction_on generalizing i od with
  | _ n ih =>
    by_cases hout : i = io.outputNodeId
    · exact Or.inl hout
    · right
      obtain ⟨c, oc, hoc, hcalive, hcin, hcconst, hread⟩ :=
        exists_reader h hkept hod halive hin hout
      obtain ⟨conn, hconn, hsrc⟩ : ∃ conn ∈ oc.inputs, conn.srcId = i := by
        obtain hinput | ⟨hp, ht⟩ := hread
        · exact hinput
        · have hparam := h.parameters hp c oc hoc i ht od hod
          rw [hconst hp] at hparam
          cases hparam
      have hedge : InputEdge g i c := ⟨oc, hoc, hcalive, conn, hconn, hsrc⟩
      by_cases hcycle : Path g c c
      · cases hac : acyclic with
        | true => exact absurd hcycle (no_cycle (hac ▸ h) c)
        | false => exact Or.inr ⟨rfl, c, Relation.ReflTransGen.single hedge, hcycle⟩
      · have hless := Finset.card_lt_card (successors_ssubset hedge hcycle)
        exact Serves.head hedge (ih _ (hn ▸ hless) hoc hcalive hcin hcconst rfl)

instance (params : Bool) (od : OpDef) (s : ℕ) : Decidable (Reads params od s) :=
  inferInstanceAs (Decidable (_ ∨ _))

theorem tidy_graphOf {l : List OpDef} {h : (l.map (·.opId)).Nodup} (rank : ℕ → ℕ)
    (hreaders : ∀ od ∈ l, isAlive od = true → ∀ c ∈ od.consumers, ∀ oc ∈ l, oc.opId = c →
      isAlive oc = true → Reads true oc od.opId)
    (hrank : ∀ oc ∈ l, ∀ conn ∈ oc.inputs, rank conn.srcId < rank oc.opId)
    (hsource : ∀ od ∈ l, od.opId = io.inputNodeId → od.inputs = [] ∧ od.tensorParamIds = [])
    (hconst : ∀ od ∈ l, od.isConst = true → od.inputs = [] ∧ od.tensorParamIds = [])
    (hparams : ∀ oc ∈ l, ∀ t ∈ oc.tensorParamIds, ∀ pc ∈ l, pc.opId = t → pc.isConst = true) :
    Tidy true true io (graphOf l h).getOpAt := by
  constructor
  · intro s od hod halive c hc oc hoc hcalive
    obtain ⟨hmem, rfl⟩ := OpMap.mem_of_ofList hod
    obtain ⟨hcmem, hid⟩ := OpMap.mem_of_ofList hoc
    exact hreaders od hmem halive c hc oc hcmem hid hcalive
  · refine fun _ => ⟨rank, fun c oc hoc conn hconn _ _ => ?_⟩
    obtain ⟨hmem, rfl⟩ := OpMap.mem_of_ofList hoc
    exact hrank oc hmem conn hconn
  · intro od hod
    obtain ⟨hmem, hid⟩ := OpMap.mem_of_ofList hod
    obtain ⟨hnil, hnone⟩ := hsource od hmem hid
    exact ⟨hnil, fun _ => hnone⟩
  · intro _ i od hod
    exact hconst od (OpMap.mem_of_ofList hod).1
  · intro _ c oc hoc t ht pc hpc
    obtain ⟨hmem, hid⟩ := OpMap.mem_of_ofList hpc
    exact hparams oc (OpMap.mem_of_ofList hoc).1 t ht pc hmem hid

/-- An operator with the given flags and tensor parameters. -/
def paramOp (id flags : ℕ) (name : String) (inputs : List InputConn) (consumers params : List ℕ) :
    OpDef :=
  { linkOp id name 1 inputs consumers with flags := flags, tensorParamIds := params }

/-- The ranges `2` belong to the slice `3` without being an input; nobody reads `4`. -/
def slicedOps : List OpDef :=
  [paramOp 1 1 "Input" [] [3, 4] [], paramOp 2 3 "$Const" [] [3] [],
    paramOp 3 1 "StridedSlice" [⟨1, 0⟩] [5] [2], paramOp 4 1 "Relu" [⟨1, 0⟩] [] [],
    paramOp 5 1 "Output" [⟨3, 0⟩] [] []]

def slicedGraph : OptState where
  graph := graphOf slicedOps (by decide)
  ordering := []

theorem slicedGraph_noFold (kernels : Kernels) (switch : GraphPass → Bool) :
    NoFold kernels switch slicedGraph.graph := by
  intro _ id op hop _
  have hall : ∀ op ∈ slicedOps, constFoldMatcher slicedGraph.graph op = false := by decide
  exact hall op (OpMap.mem_of_ofList hop).1

/-- The operators `2` and `3` read each other and nobody else reads them. -/
def loopOps : List OpDef :=
  [paramOp 1 1 "Input" [] [4] [], paramOp 2 1 "Add" [⟨3, 0⟩] [3] [],
    paramOp 3 1 "Mul" [⟨2, 0⟩] [2] [], paramOp 4 1 "Output" [⟨1, 0⟩] [] []]

def loopGraph : OptState where
  graph := graphOf loopOps (by decide)
  ordering := []

/-- Two operators whose readers are none but `a` and `b`. -/
theorem no_path_out {g : PassGraph} {a b i c : ℕ}
    (hreads : (g.keys.all fun c => (g.getOpAt c).all fun oc => oc.inputs.all fun conn =>
      decide (conn.srcId = a ∨ conn.srcId = b → c = a ∨ c = b)) = true)
    (hi : i = a ∨ i = b) (hpath : Path g i c) : c = a ∨ c = b := by
  have hstep : ∀ i c, i = a ∨ i = b → InputEdge g i c → c = a ∨ c = b := by
    rintro i c hi ⟨oc, hoc, -, conn, hconn, rfl⟩
    have hall := List.all_eq_true.mp hreads c
      (g.covered c (Option.isSome_iff_exists.mpr ⟨oc, hoc⟩))
    rw [hoc, Option.all_some, List.all_eq_true] at hall
    exact of_decide_eq_true (hall conn hconn) hi
  induction hpath with
  | single hedge => exact hstep i _ hi hedge
  | tail _ hedge ih => exact hstep _ _ ih hedge

end Gehtp.Analysis.DeadCodeComplete
