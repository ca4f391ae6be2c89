import Gehtp.Analysis.PassRewrites
import Mathlib.Algebra.Order.BigOperators.Group.List
import Mathlib.Algebra.Order.Ring.Nat

/-!
# Phases that end, and what they leave

Every rewriting lowers a weight: an operator dies, becomes a constant, or gets the name of a fused
one. So each phase ends, in whatever order the operators are listed. The loop puts the neighbours
of a rewritten operator back, but not the operator itself, and not the other readers of its source:
when none of these newly matches, no live operator matches at the end.
-/

set_option autoImplicit false

namespace Gehtp.Analysis.PassPhase

open Lib Model.OpGraph Model.PassManager Analysis.PassRewrites

/-! ### The built-in passes -/

/-- What a built-in pass does. -/
inductive Builtin (kernels : Kernels) (switch : GraphPass → Bool) : GraphPass → Prop
  | constFold (p : GraphPass) (hphase : p.phase = 3000) (hmatcher : p.matcher = constFoldMatcher)
      (hrewrite : p.rewrite = constFoldRewrite kernels) : Builtin kernels switch p
  | shapeFold (p : GraphPass) (hphase : p.phase = 10190)
      (hmatcher : p.matcher = fun g op => decide (matchPattern g op ≠ .none))
      (hrewrite : p.rewrite = shapeFoldRewrite) : Builtin kernels switch p
  | fusion (p : GraphPass) (r : FusionRule) (hr : r ∈ kLegacyFusionRules) (hphase : p.phase = 12492)
      (hswitch : p.enabled = switch (fusionPass r)) (hmatcher : p.matcher = fusionMatch r)
      (hrewrite : p.rewrite = fusePair r) : Builtin kernels switch p

variable {kernels : Kernels} {switch : GraphPass → Bool} {p : GraphPass} {g g' : PassGraph}
  {op od : OpDef} {i : ℕ}

theorem builtin_of_mem (h : p ∈ builtinPasses kernels switch) : Builtin kernels switch p := by
  obtain ⟨q, hq, rfl⟩ := List.mem_map.mp h
  rw [List.mem_cons, List.mem_cons, List.mem_map] at hq
  obtain rfl | rfl | ⟨r, hr, rfl⟩ := hq
  · exact Builtin.constFold _ rfl rfl rfl
  · exact Builtin.shapeFold _ rfl rfl rfl
  · exact Builtin.fusion _ r hr rfl rfl rfl rfl

theorem rewrite_of_match (hp : Builtin kernels switch p) (h : p.matcher g op = true) :
    ∃ g', p.rewrite g op = some g' := by
  cases hp with
  | constFold _ hmatcher hrewrite =>
    rw [hmatcher] at h
    rw [hrewrite]
    exact constFold_of_match kernels h
  | shapeFold _ hmatcher hrewrite =>
    rw [hmatcher] at h
    rw [hrewrite]
    exact shapeFold_of_match (of_decide_eq_true h)
  | fusion r _ _ _ hmatcher hrewrite =>
    rw [hmatcher] at h
    rw [hrewrite]
    exact fusePair_of_match h

theorem tryPasses_some {l : List GraphPass} (h : tryPasses g op l = some g') :
    ∃ p ∈ l, p.matcher g op = true ∧ p.rewrite g op = some g' := by
  induction l with
  | nil => cases h
  | cons p l ih =>
    unfold tryPasses at h
    split at h
    · rename_i hmatch
      split at h
      · rename_i g'' hrewrite
        cases h
        exact ⟨p, List.mem_cons_self, hmatch, hrewrite⟩
      · obtain ⟨q, hq, hrest⟩ := ih h
        exact ⟨q, List.mem_cons_of_mem _ hq, hrest⟩
    · obtain ⟨q, hq, hrest⟩ := ih h
      exact ⟨q, List.mem_cons_of_mem _ hq, hrest⟩

theorem tryPasses_none {l : List GraphPass} (hl : ∀ p ∈ l, Builtin kernels switch p)
    (h : tryPasses g op l = none) : ∀ p ∈ l, p.matcher g op = false := by
  induction l with
  | nil => exact fun p hp => (List.not_mem_nil hp).elim
  | cons q l ih =>
    unfold tryPasses at h
    split at h
    · rename_i hmatch
      obtain ⟨g', hrewrite⟩ := rewrite_of_match (hl q List.mem_cons_self) hmatch
      rw [hrewrite] at h
      cases h
    · rename_i hmatch
      intro p hp
      obtain rfl | hp := List.mem_cons.mp hp
      · exact Bool.eq_false_iff.mpr hmatch
      · exact ih (fun x hx => hl x (List.mem_cons_of_mem _ hx)) h p hp

/-! ### The weight -/

/-- How often an operator can still be fused. -/
def fusions (name : Option String) : ℕ :=
  if name ∈ [some "Relu", some "Clamp", some "Gelu", some "Sigmoid"] then 2
  else if name = some "Add" then 1
  else 0

/-- How much can still happen to an operator. -/
def weightOf (od : OpDef) : ℕ :=
  if od.isDead || !od.isEnabled then 0
  else if od.isConst then 1
  else 2 + fusions od.nameTag

/-- How much can still happen to a graph. -/
def weight (g : PassGraph) : ℕ := (g.keys.map fun i => ((g.getOpAt i).map weightOf).getD 0).sum

theorem weightOf_congr {od' : OpDef} (hflags : od'.flags = od.flags)
    (hname : od'.nameTag = od.nameTag) : weightOf od' = weightOf od := by
  unfold weightOf OpDef.isDead OpDef.isEnabled OpDef.isConst
  rw [hflags, hname]

theorem testBit_setDead (flags i : ℕ) (hi : i ≠ 2) : (flags ||| 4).testBit i = flags.testBit i := by
  have hfour : Nat.testBit 4 i = false := by
    have h := Nat.testBit_two_pow (n := 2) (m := i)
    rw [decide_eq_false (Ne.symm hi)] at h
    exact h
  rw [Nat.testBit_or, hfour, Bool.or_false]

theorem isDead_of_flags {flags : ℕ} (h : od.flags = flags ||| 4) : od.isDead = true := by
  have hfour : Nat.testBit 4 2 = true := by decide
  rw [OpDef.isDead, h, Nat.testBit_or, hfour, Bool.or_true]

theorem weightOf_dead (h : od.isDead = true) : weightOf od = 0 := by
  unfold weightOf
  rw [h, Bool.true_or, if_pos rfl]

theorem weightOf_pos (hen : od.isEnabled = true) (hdead : od.isDead = false) : 0 < weightOf od := by
  unfold weightOf
  rw [hen, hdead, if_neg (by decide)]
  split <;> omega

theorem isLive_iff :
    isLive od = true ↔ od.isEnabled = true ∧ od.isDead = false ∧ od.isConst = false := by
  unfold isLive
  rw [Bool.and_eq_true, Bool.and_eq_true, Bool.not_eq_true', Bool.not_eq_true', and_assoc]

theorem weightOf_live (h : isLive od = true) : weightOf od = 2 + fusions od.nameTag := by
  obtain ⟨hen, hdead, hconst⟩ := isLive_iff.mp h
  unfold weightOf
  rw [hen, hdead, hconst, if_neg (by decide), if_neg (by decide)]

theorem weight_lt (hkeys : g'.keys = g.keys)
    (hsome : ∀ j, (g'.getOpAt j).isSome = (g.getOpAt j).isSome)
    (hle : ∀ j od od', g.getOpAt j = some od → g'.getOpAt j = some od' → weightOf od' ≤ weightOf od)
    {op' : OpDef} (hop : g.getOpAt i = some op) (hop' : g'.getOpAt i = some op')
    (hlt : weightOf op' < weightOf op) : weight g' < weight g := by
  unfold weight
  rw [hkeys]
  apply List.sum_lt_sum
  · intro j _
    cases hj : g.getOpAt j with
    | none =>
      have hnone : g'.getOpAt j = none := by
        rw [← Option.not_isSome_iff_eq_none, hsome, hj]
        exact Bool.false_ne_true
      rw [hnone]
    | some od =>
      obtain ⟨od', hj'⟩ := Option.isSome_iff_exists.mp ((hsome j).trans (hj ▸ rfl))
      rw [hj']
      exact hle j od od' hj hj'
  · refine ⟨i, g.covered i (by rw [PassGraph.getOpAt] at hop; rw [hop]; rfl), ?_⟩
    rw [hop, hop']
    exact hlt

theorem fused_fusions : ∀ r ∈ kLegacyFusionRules,
    r.consumer ≠ "" ∧ fusions (some r.fused) < fusions (some r.consumer) := by decide

theorem weightOf_le {od' : OpDef}
    (h : od'.isDead = true ∨ (od'.flags = od.flags ∧ od'.nameTag = od.nameTag)) :
    weightOf od' ≤ weightOf od := by
  obtain hdead | ⟨hflags, hname⟩ := h
  · rw [weightOf_dead hdead]
    exact Nat.zero_le _
  · exact (weightOf_congr hflags hname).le

theorem weight_rewireConsumers {prod : OpDef} (hop : g.getOpAt i = some op)
    (hlive : isLive op = true) : weight (rewireConsumers g op prod) < weight g := by
  have hid := opId_eq hop
  have hnew := getOpAt_rewireConsumers op prod hop
  obtain ⟨hen, hdead, -⟩ := isLive_iff.mp hlive
  apply weight_lt (SameData.of_rewireConsumers g op prod).keys (isSome_rewireConsumers g op prod)
    (fun j od od' hj hj' => ?_) hop hnew
  · rw [weightOf_dead (isDead_of_flags (if_pos hid.symm))]
    exact weightOf_pos hen hdead
  · rw [getOpAt_rewireConsumers op prod hj] at hj'
    cases hj'
    apply weightOf_le
    by_cases hj : j = op.opId
    · exact Or.inl (isDead_of_flags (if_pos hj))
    · exact Or.inr ⟨if_neg hj, rfl⟩

theorem weight_mergeChain {src : OpDef} (hsrc : g.getOpAt i = some src)
    (hen : src.isEnabled = true) (hdead : src.isDead = false) :
    weight (mergeChain g op src) < weight g := by
  have hid := opId_eq hsrc
  have hnew := getOpAt_mergeChain op src hsrc
  apply weight_lt (SameData.of_mergeChain g op src).keys (isSome_mergeChain g op src)
    (fun j od od' hj hj' => ?_) hsrc hnew
  · rw [weightOf_dead (isDead_of_flags (if_pos hid.symm))]
    exact weightOf_pos hen hdead
  · rw [getOpAt_mergeChain op src hj] at hj'
    cases hj'
    apply weightOf_le
    by_cases hj : j = src.opId
    · exact Or.inl (isDead_of_flags (if_pos hj))
    · exact Or.inr ⟨if_neg hj, rfl⟩

theorem getOpAt_fused {r : FusionRule} {g : PassGraph} {op prod : OpDef} {j : ℕ} {od : OpDef}
    (h : g.getOpAt j = some od) :
    (mergeChain (renamed r g op) op prod).getOpAt j = some { od with
      nameTag := if j = op.opId then some r.fused else od.nameTag
      flags := if j = prod.opId then od.flags ||| 4 else od.flags
      inputs := if j = op.opId then prod.inputs else od.inputs
      consumers := passedConsumers prod.opId op.opId j prod.inputs od.consumers } := by
  have hrenamed : (renamed r g op).getOpAt j =
      some { od with nameTag := if j = op.opId then some r.fused else od.nameTag } := by
    rw [renamed, getOpAt_modify, h]
    by_cases hj : j = op.opId
    · simp only [Option.map_some, if_pos hj]
      rfl
    · simp only [Option.map_some, if_neg hj]
  rw [getOpAt_mergeChain op prod hrenamed]

theorem isSome_fused (r : FusionRule) (g : PassGraph) (op prod : OpDef) (j : ℕ) :
    ((mergeChain (renamed r g op) op prod).getOpAt j).isSome = (g.getOpAt j).isSome := by
  rw [isSome_mergeChain, renamed, isSome_modify]

theorem weight_fused {r : FusionRule} (hr : r ∈ kLegacyFusionRules) {prod : OpDef}
    (hop : g.getOpAt i = some op) (hlive : isLive op = true) (hname : nameOf op = r.consumer) :
    weight (mergeChain (renamed r g op) op prod) < weight g := by
  have hid := opId_eq hop
  obtain ⟨hne, hless⟩ := fused_fusions r hr
  have htag : op.nameTag = some r.consumer := by
    unfold nameOf at hname
    cases hopt : op.nameTag with
    | none =>
      rw [hopt] at hname
      exact absurd hname.symm hne
    | some nm =>
      rw [hopt] at hname
      exact congrArg some hname
  have hnew := @getOpAt_fused r g op prod i op hop
  have hfall : weightOf { op with
      nameTag := if i = op.opId then some r.fused else op.nameTag
      flags := if i = prod.opId then op.flags ||| 4 else op.flags
      inputs := if i = op.opId then prod.inputs else op.inputs
      consumers := passedConsumers prod.opId op.opId i prod.inputs op.consumers } < weightOf op := by
    obtain ⟨hen, hdead, hconst⟩ := isLive_iff.mp hlive
    by_cases hprod : i = prod.opId
    · rw [weightOf_dead (isDead_of_flags (if_pos hprod))]
      exact weightOf_pos hen hdead
    · rw [if_neg hprod, if_pos hid.symm, weightOf_live hlive, htag]
      have hlive' : isLive { op with
          nameTag := some r.fused
          flags := op.flags
          inputs := if i = op.opId then prod.inputs else op.inputs
          consumers := passedConsumers prod.opId op.opId i prod.inputs op.consumers } = true :=
        isLive_iff.mpr ⟨hen, hdead, hconst⟩
      rw [weightOf_live hlive']
      exact Nat.add_lt_add_left hless 2
  apply weight_lt _ (isSome_fused r g op prod) (fun j od od' hj hj' => ?_) hop hnew hfall
  · exact ((SameData.of_modify g _ _ _).trans (SameData.of_mergeChain _ op prod)).keys
  · by_cases hjop : j = i
    · rw [hjop, hop] at hj
      rw [hjop, hnew] at hj'
      cases hj
      cases hj'
      exact hfall.le
    · have hjid : j ≠ op.opId := fun h => hjop (h.trans hid)
      rw [getOpAt_fused hj] at hj'
      cases hj'
      apply weightOf_le
      by_cases hprod : j = prod.opId
      · exact Or.inl (isDead_of_flags (if_pos hprod))
      · exact Or.inr ⟨if_neg hprod, if_neg hjid⟩

theorem weight_folded {data : List UInt8} (hop : g.getOpAt i = some op) (hlive : isLive op = true)
    (h : foldOpToConst g op data = some g') : weight g' < weight g := by
  obtain ⟨hkeys, hget, -⟩ := foldOpToConst_eq h
  have hid := opId_eq hop
  have hfall : weightOf (constOf op) < weightOf op := by
    rw [weightOf_live hlive]
    have hone : weightOf (constOf op) = 1 := by
      have hflags : Nat.testBit 3 2 = false ∧ Nat.testBit 3 0 = true ∧ Nat.testBit 3 1 = true := by
        decide
      unfold weightOf constOf OpDef.isDead OpDef.isEnabled OpDef.isConst
      simp only [hflags.1, hflags.2.1, hflags.2.2]
      decide
    omega
  have hnew : g'.getOpAt i = some (constOf op) := by
    rw [hget, hop, Option.map_some, if_pos hid.symm]
  apply weight_lt hkeys (fun j => by rw [hget, Option.isSome_map]) (fun j od od' hj hj' => ?_) hop
    hnew hfall
  by_cases hjop : j = i
  · rw [hjop, hop] at hj
    rw [hjop, hnew] at hj'
    cases hj
    cases hj'
    exact hfall.le
  · have hjid : j ≠ op.opId := fun h => hjop (h.trans hid)
    rw [hget, hj, Option.map_some, if_neg hjid] at hj'
    cases hj'
    exact le_rfl

theorem weight_rewrite (hp : Builtin kernels switch p) (hop : g.getOpAt i = some op)
    (hlive : isLive op = true) (hmatch : p.matcher g op = true) (h : p.rewrite g op = some g') :
    weight g' < weight g := by
  cases hp with
  | constFold _ _ hrewrite =>
    rw [hrewrite] at h
    exact weight_folded hop hlive h
  | shapeFold _ _ hrewrite =>
    rw [hrewrite] at h
    obtain ⟨conn, src, -, hsrc, -, hpat, ⟨-, rfl⟩ | ⟨hchain, rfl⟩⟩ := shapeFoldRewrite_cases h
    · exact weight_rewireConsumers hop hlive
    · rw [hchain] at hpat
      have hsource : src.isEnabled = true ∧ src.isDead = false := by
        unfold patternFrom at hpat
        split at hpat
        · cases hpat
        · rename_i hno
          simpa using hno
      exact weight_mergeChain hsrc hsource.1 hsource.2
  | fusion r hr _ _ hmatcher hrewrite =>
    rw [hmatcher] at hmatch
    rw [hrewrite] at h
    obtain ⟨conn, prod, -, -, rfl⟩ := fusePair_eq h
    exact weight_fused hr hop hlive (fusionMatch_source hmatch).1

/-! ### Termination -/

theorem mem_activePasses {phase : ℕ} (h : p ∈ activePasses (builtinPasses kernels switch) phase) :
    Builtin kernels switch p ∧ p.phase = phase ∧ p.enabled = true := by
  obtain ⟨hmem, htest⟩ := List.mem_filter.mp h
  rw [Bool.and_eq_true, decide_eq_true_eq] at htest
  exact ⟨builtin_of_mem hmem, htest⟩

theorem visitOp_some {active : List GraphPass} {s s' : PhaseState} {l : List ℕ}
    (h : visitOp active s i = some (s', l)) :
    ∃ op, s.graph.getOpAt i = some op ∧ isLive op = true ∧
      tryPasses s.graph op active = some s'.graph ∧ l = neighbours op := by
  unfold visitOp at h
  split at h
  · cases h
  · rename_i op hop
    split at h
    · obtain ⟨g', hg', heq⟩ := Option.map_eq_some_iff.mp h
      cases heq
      exact ⟨op, hop, ‹_›, hg', rfl⟩
    · cases h

theorem visitOp_weight {active : List GraphPass}
    (hactive : ∀ p ∈ active, Builtin kernels switch p) (s : PhaseState) (i : ℕ) (s' : PhaseState)
    (l : List ℕ) (h : visitOp active s i = some (s', l)) : weight s'.graph < weight s.graph := by
  obtain ⟨op, hop, hlive, htry, -⟩ := visitOp_some h
  obtain ⟨p, hp, hmatch, hrewrite⟩ := tryPasses_some htry
  exact weight_rewrite (hactive p hp) hop hlive hmatch hrewrite

theorem runPhase_terminates (kernels : Kernels) (switch : GraphPass → Bool) (phase : ℕ)
    (order : List ℕ) (g : PassGraph) :
    ∃ n s, ∀ k, n ≤ k → runPhase (builtinPasses kernels switch) phase order g k = some s := by
  unfold runPhase
  simp only
  split
  · exact ⟨0, ⟨g, 0⟩, fun _ _ => rfl⟩
  · exact Worklist.run_terminates (fun s : PhaseState => weight s.graph)
      (visitOp_weight fun p hp => (mem_activePasses hp).1) ⟨g, 0⟩ (seeds g order)

end Gehtp.Analysis.PassPhase
