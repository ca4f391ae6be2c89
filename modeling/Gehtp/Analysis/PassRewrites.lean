import Gehtp.Model.PassManager

/-!
# What a rewriting leaves

Each rewriting changes few fields of few operators. The lemmas here say for every operator of the
graph what it is afterwards: which are dead, what they read, and who is listed with them.
-/

set_option autoImplicit false

namespace Gehtp.Analysis.PassRewrites

open Model.OpGraph Model.Cse Model.PassManager

theorem getOpAt_modify (g : PassGraph) (i : ℕ) (f : OpDef → OpDef)
    (hf : ∀ od, (f od).opId = od.opId) (j : ℕ) :
    (g.modify i f hf).getOpAt j = (g.getOpAt j).map fun od => if j = i then f od else od := by
  show (if j = i then (g.ops.getOpAt j).map f else g.ops.getOpAt j) = _
  by_cases h : j = i
  · simp only [if_pos h]
    rfl
  · simp only [if_neg h, Option.map_id']
    rfl

theorem isSome_modify (g : PassGraph) (i : ℕ) (f : OpDef → OpDef)
    (hf : ∀ od, (f od).opId = od.opId) (j : ℕ) :
    ((g.modify i f hf).getOpAt j).isSome = (g.getOpAt j).isSome := by
  rw [getOpAt_modify, Option.isSome_map]

variable {g g' : PassGraph} {od op : OpDef} {j src : ℕ} {inputs : List InputConn}
  {consumers : List ℕ} {r : FusionRule}

theorem opId_eq {i : ℕ} (h : g.getOpAt i = some od) : od.opId = i :=
  g.ops.keyed i od h

/-- The same ids and the same constant data. -/
structure SameData (g g' : PassGraph) : Prop where
  keys : g'.keys = g.keys
  offset : g'.constDataOffset = g.constDataOffset
  size : g'.constDataSize = g.constDataSize
  pool : g'.constPool = g.constPool

namespace SameData

theorem refl (g : PassGraph) : SameData g g := ⟨rfl, rfl, rfl, rfl⟩

theorem trans {h k : PassGraph} (hgh : SameData g h) (hhk : SameData h k) : SameData g k :=
  ⟨hhk.keys.trans hgh.keys, hhk.offset.trans hgh.offset, hhk.size.trans hgh.size,
    hhk.pool.trans hgh.pool⟩

theorem of_modify (g : PassGraph) (i : ℕ) (f : OpDef → OpDef) (hf : ∀ od, (f od).opId = od.opId) :
    SameData g (g.modify i f hf) := ⟨rfl, rfl, rfl, rfl⟩

theorem of_foldl {α : Type} {f : PassGraph → α → PassGraph} (hf : ∀ g x, SameData g (f g x))
    (l : List α) (g : PassGraph) : SameData g (l.foldl f g) := by
  induction l generalizing g with
  | nil => exact refl g
  | cons x l ih => exact (hf g x).trans (ih _)

theorem of_redirect (b a : ℕ) (g : PassGraph) (c : ℕ) :
    SameData g (redirect b a g c) := by
  unfold redirect
  split
  · exact (of_modify g _ _ _).trans (of_modify _ _ _ _)
  · exact refl g

theorem of_passOn (src op : ℕ) (g : PassGraph) (conn : InputConn) :
    SameData g (passOn src op g conn) :=
  (of_modify g _ _ _).trans (of_modify _ _ _ _)

theorem of_rewireConsumers (g : PassGraph) (op prod : OpDef) :
    SameData g (rewireConsumers g op prod) :=
  ((of_modify g _ _ _).trans (of_foldl (of_redirect _ _) _ _)).trans (of_modify _ _ _ _)

theorem of_mergeChain (g : PassGraph) (op src : OpDef) :
    SameData g (mergeChain g op src) :=
  ((of_foldl (of_passOn _ _) _ g).trans (of_modify _ _ _ _)).trans (of_modify _ _ _ _)

end SameData

/-! ### A dropped operator -/

def presentConsumers (g : PassGraph) (op : OpDef) : List ℕ :=
  op.consumers.filter fun c => (g.getOpAt c).isSome

theorem redirectInput_twice (b a : ℕ) (l : List InputConn) :
    (l.map (redirectInput b a)).map (redirectInput b a) = l.map (redirectInput b a) := by
  rw [List.map_map]
  apply List.map_congr_left
  intro c _
  simp only [Function.comp, redirectInput]
  by_cases hb : c.srcId = b
  · simp only [if_pos hb]
    split <;> rfl
  · simp only [if_neg hb]

theorem isSome_redirect (b a : ℕ) (g : PassGraph) (cid j : ℕ) :
    ((redirect b a g cid).getOpAt j).isSome = (g.getOpAt j).isSome := by
  unfold redirect
  split
  · rw [isSome_modify, isSome_modify]
  · rfl

theorem getOpAt_redirect (b a : ℕ) (c : ℕ) (h : g.getOpAt j = some od) :
    (redirect b a g c).getOpAt j = some { od with
      inputs := if j = c then od.inputs.map (redirectInput b a) else od.inputs
      consumers := if j = a ∧ (g.getOpAt c).isSome = true then od.consumers ++ [c]
        else od.consumers } := by
  unfold redirect
  by_cases hc : (g.getOpAt c).isSome = true
  · rw [if_pos hc, getOpAt_modify, getOpAt_modify, h]
    have hpresent : (j = a ∧ (g.getOpAt c).isSome = true) = (j = a) := by
      rw [hc, and_iff_left rfl]
    simp only [hpresent]
    by_cases hjc : j = c
    · by_cases hja : j = a
      · simp only [Option.map_some, if_pos hjc, if_pos hja]
        rfl
      · simp only [Option.map_some, if_pos hjc, if_neg hja]
        rfl
    · by_cases hja : j = a
      · simp only [Option.map_some, if_neg hjc, if_pos hja]
        rfl
      · simp only [Option.map_some, if_neg hjc, if_neg hja]
  · have hjc : j ≠ c := by
      rintro rfl
      rw [h] at hc
      exact hc rfl
    rw [if_neg hc, h, if_neg hjc, if_neg fun hand => hc hand.2]

theorem getOpAt_foldl_redirect (b a : ℕ) (l : List ℕ) (h : g.getOpAt j = some od) :
    (l.foldl (redirect b a) g).getOpAt j = some { od with
      inputs := if j ∈ l then od.inputs.map (redirectInput b a) else od.inputs
      consumers := if j = a then od.consumers ++ l.filter (fun c => (g.getOpAt c).isSome)
        else od.consumers } := by
  induction l generalizing g od with
  | nil =>
    rw [List.foldl_nil, h]
    simp
  | cons c l ih =>
    rw [List.foldl_cons, ih (getOpAt_redirect b a c h)]
    simp only [isSome_redirect]
    have hinputs : (if j ∈ l then (if j = c then od.inputs.map (redirectInput b a)
          else od.inputs).map (redirectInput b a)
        else if j = c then od.inputs.map (redirectInput b a) else od.inputs) =
        if j ∈ c :: l then od.inputs.map (redirectInput b a) else od.inputs := by
      by_cases hjc : j = c
      · simp only [redirectInput_twice, ite_self, List.mem_cons, hjc, true_or, if_true]
      · simp only [List.mem_cons, hjc, false_or, if_false]
    have hconsumers : (if j = a then
          (if j = a ∧ (g.getOpAt c).isSome = true then od.consumers ++ [c] else od.consumers) ++
            l.filter (fun c => (g.getOpAt c).isSome)
        else if j = a ∧ (g.getOpAt c).isSome = true then od.consumers ++ [c] else od.consumers) =
        if j = a then od.consumers ++ (c :: l).filter (fun c => (g.getOpAt c).isSome)
        else od.consumers := by
      by_cases hja : j = a
      · by_cases hc : (g.getOpAt c).isSome = true
        · simp only [if_pos hja, if_pos (And.intro hja hc), List.append_assoc, List.cons_append,
            List.nil_append]
          rw [List.filter_cons, if_pos hc]
        · have hno : ¬ (j = a ∧ (g.getOpAt c).isSome = true) := fun hand => hc hand.2
          simp only [if_pos hja, if_neg hno]
          rw [List.filter_cons, if_neg hc]
      · simp only [hja, false_and, if_false]
    rw [hinputs, hconsumers]

theorem getOpAt_rewireConsumers (op prod : OpDef) (h : g.getOpAt j = some od) :
    (rewireConsumers g op prod).getOpAt j = some { od with
      flags := if j = op.opId then od.flags ||| 4 else od.flags
      inputs := if j ∈ op.consumers then od.inputs.map (redirectInput op.opId prod.opId)
        else od.inputs
      consumers := if j = prod.opId then
          od.consumers.filter (fun c => decide (c ≠ op.opId)) ++ presentConsumers g op
        else od.consumers } := by
  have hcut : (g.modify prod.opId (eraseConsumer op.opId) (eraseConsumer_opId op.opId)).getOpAt j =
      some (if j = prod.opId then eraseConsumer op.opId od else od) := by
    rw [getOpAt_modify, h]
    rfl
  have hfold := getOpAt_foldl_redirect op.opId prod.opId op.consumers hcut
  simp only [isSome_modify] at hfold
  unfold rewireConsumers
  rw [getOpAt_modify, hfold, Option.map_some]
  unfold presentConsumers
  by_cases hprod : j = prod.opId
  · by_cases hop : j = op.opId
    · simp only [if_pos hprod, if_pos hop]
      rfl
    · simp only [if_pos hprod, if_neg hop]
      rfl
  · by_cases hop : j = op.opId
    · simp only [if_neg hprod, if_pos hop]
      rfl
    · simp only [if_neg hprod, if_neg hop]

theorem isSome_rewireConsumers (g : PassGraph) (op prod : OpDef) (j : ℕ) :
    ((rewireConsumers g op prod).getOpAt j).isSome = (g.getOpAt j).isSome := by
  have hfold : ∀ (l : List ℕ) (h : PassGraph),
      ((l.foldl (redirect op.opId prod.opId) h).getOpAt j).isSome = (h.getOpAt j).isSome := by
    intro l
    induction l with
    | nil => exact fun _ => rfl
    | cons c l ih => exact fun h => (ih _).trans (isSome_redirect _ _ h c j)
  unfold rewireConsumers
  rw [isSome_modify, hfold, isSome_modify]

/-! ### A joined chain -/

/-- The consumers of `j` after its readers among `inputs` are passed on. -/
def passedConsumers (src op j : ℕ) (inputs : List InputConn) (consumers : List ℕ) : List ℕ :=
  inputs.foldl (fun l conn =>
    if conn.srcId = j then l.filter (fun c => decide (c ≠ src)) ++ [op] else l) consumers

theorem passedConsumers_cons (src op j : ℕ) (conn : InputConn) (inputs : List InputConn)
    (consumers : List ℕ) :
    passedConsumers src op j (conn :: inputs) consumers = passedConsumers src op j inputs
      (if conn.srcId = j then consumers.filter (fun c => decide (c ≠ src)) ++ [op]
        else consumers) := rfl

theorem isSome_passOn (src op : ℕ) (g : PassGraph) (conn : InputConn) (j : ℕ) :
    ((passOn src op g conn).getOpAt j).isSome = (g.getOpAt j).isSome := by
  unfold passOn
  rw [isSome_modify, isSome_modify]

theorem getOpAt_foldl_passOn (src op : ℕ) (inputs : List InputConn) (h : g.getOpAt j = some od) :
    (inputs.foldl (passOn src op) g).getOpAt j =
      some { od with consumers := passedConsumers src op j inputs od.consumers } := by
  induction inputs generalizing g od with
  | nil => exact h
  | cons conn inputs ih =>
    have hone : (passOn src op g conn).getOpAt j = some { od with
        consumers := if conn.srcId = j then
          od.consumers.filter (fun c => decide (c ≠ src)) ++ [op] else od.consumers } := by
      unfold passOn
      rw [getOpAt_modify, getOpAt_modify, h]
      by_cases hj : j = conn.srcId
      · simp only [Option.map_some, if_pos hj, if_pos hj.symm]
        rfl
      · simp only [Option.map_some, if_neg hj, if_neg (Ne.symm hj)]
    rw [List.foldl_cons, ih hone]
    rfl

theorem getOpAt_mergeChain (op src : OpDef) (h : g.getOpAt j = some od) :
    (mergeChain g op src).getOpAt j = some { od with
      flags := if j = src.opId then od.flags ||| 4 else od.flags
      inputs := if j = op.opId then src.inputs else od.inputs
      consumers := passedConsumers src.opId op.opId j src.inputs od.consumers } := by
  unfold mergeChain
  rw [getOpAt_modify, getOpAt_modify, getOpAt_foldl_passOn _ _ _ h]
  by_cases hsrc : j = src.opId
  · by_cases hop : j = op.opId
    · simp only [Option.map_some, if_pos hsrc, if_pos hop]
      rfl
    · simp only [Option.map_some, if_pos hsrc, if_neg hop]
      rfl
  · by_cases hop : j = op.opId
    · simp only [Option.map_some, if_neg hsrc, if_pos hop]
      rfl
    · simp only [Option.map_some, if_neg hsrc, if_neg hop]

theorem isSome_mergeChain (g : PassGraph) (op src : OpDef) (j : ℕ) :
    ((mergeChain g op src).getOpAt j).isSome = (g.getOpAt j).isSome := by
  have hfold : ∀ (l : List InputConn) (h : PassGraph),
      ((l.foldl (passOn src.opId op.opId) h).getOpAt j).isSome = (h.getOpAt j).isSome := by
    intro l
    induction l with
    | nil => exact fun _ => rfl
    | cons c l ih => exact fun h => (ih _).trans (isSome_passOn _ _ h c j)
  unfold mergeChain
  rw [isSome_modify, isSome_modify, hfold]

theorem mem_passedConsumers {op c : ℕ} (hc : c ≠ src) (h : c ∈ consumers) :
    c ∈ passedConsumers src op j inputs consumers := by
  induction inputs generalizing consumers with
  | nil => exact h
  | cons conn inputs ih =>
    rw [passedConsumers_cons]
    apply ih
    split
    · exact List.mem_append_left _ (List.mem_filter.mpr ⟨h, decide_eq_true hc⟩)
    · exact h

theorem op_mem_passedConsumers {op : ℕ} (hne : op ≠ src) (h : ∃ conn ∈ inputs, conn.srcId = j) :
    op ∈ passedConsumers src op j inputs consumers := by
  induction inputs generalizing consumers with
  | nil =>
    obtain ⟨conn, hmem, -⟩ := h
    cases hmem
  | cons conn inputs ih =>
    rw [passedConsumers_cons]
    by_cases hj : conn.srcId = j
    · apply mem_passedConsumers hne
      rw [if_pos hj]
      exact List.mem_append_right _ (List.mem_singleton_self op)
    · apply ih
      obtain ⟨conn', hmem, hj'⟩ := h
      obtain rfl | hmem := List.mem_cons.mp hmem
      · exact absurd hj' hj
      · exact ⟨conn', hmem, hj'⟩

theorem mem_of_mem_passedConsumers {op c : ℕ} (h : c ∈ passedConsumers src op j inputs consumers) :
    c ∈ consumers ∨ (c = op ∧ ∃ conn ∈ inputs, conn.srcId = j) := by
  induction inputs generalizing consumers with
  | nil => exact Or.inl h
  | cons conn inputs ih =>
    rw [passedConsumers_cons] at h
    obtain hmem | ⟨hop, conn', hconn', hj⟩ := ih h
    · split at hmem
      · rename_i hj
        obtain hmem | hmem := List.mem_append.mp hmem
        · exact Or.inl (List.mem_filter.mp hmem).1
        · exact Or.inr ⟨List.mem_singleton.mp hmem, conn, List.mem_cons_self, hj⟩
      · exact Or.inl hmem
    · exact Or.inr ⟨hop, conn', List.mem_cons_of_mem _ hconn', hj⟩

theorem passedConsumers_of_not_read {op : ℕ} (consumers : List ℕ)
    (h : ∀ conn ∈ inputs, conn.srcId ≠ j) :
    passedConsumers src op j inputs consumers = consumers := by
  induction inputs generalizing consumers with
  | nil => rfl
  | cons conn inputs ih =>
    rw [passedConsumers_cons, if_neg (h conn List.mem_cons_self)]
    exact ih _ fun c hc => h c (List.mem_cons_of_mem _ hc)

/-! ### A folded constant -/

theorem foldOpToConst_eq {data : List UInt8} (h : foldOpToConst g op data = some g') :
    g'.keys = g.keys ∧
      (∀ j, g'.getOpAt j = (g.getOpAt j).map fun od => if j = op.opId then constOf od else od) ∧
      ∀ j, j ≠ op.opId → g'.constDataSize j = g.constDataSize j := by
  unfold foldOpToConst at h
  split at h
  · cases h
    refine ⟨rfl, fun j => getOpAt_modify g op.opId constOf constOf_opId j, fun j hj => ?_⟩
    exact Function.update_of_ne hj _ _
  · cases h

theorem resultSize_pos (od : OutputDef) : 0 < resultSize od := by
  unfold resultSize
  apply Nat.mul_pos
  · split
    · exact Nat.one_pos
    · exact Nat.pos_of_ne_zero ‹_›
  · split
    · decide
    · rename_i h
      rw [not_or] at h
      exact Nat.pos_of_ne_zero h.1

/-! ### Matches are rewritten -/

theorem constFold_of_match (kernels : Kernels) (h : constFoldMatcher g op = true) :
    ∃ g', constFoldRewrite kernels g op = some g' := by
  have hlive : isLive op = true := by
    unfold constFoldMatcher at h
    simp only [Bool.and_eq_true] at h
    exact h.1.1.1.1
  have hdata : (List.range (resultSize op.outputDef)).map (kernels g op (foldInputs g op)) ≠ [] := by
    rw [Ne, List.map_eq_nil_iff, List.range_eq_nil]
    exact (resultSize_pos _).ne'
  unfold constFoldRewrite foldOpToConst
  rw [hlive, decide_eq_true hdata]
  exact ⟨_, rfl⟩

theorem matchPattern_source (h : matchPattern g op ≠ .none) :
    isLive op = true ∧ ∃ conn src, op.inputs = [conn] ∧ g.getOpAt conn.srcId = some src ∧
      matchPattern g op = patternFrom g op src ∧
      (isReshape op = true ∨ op.nameTag = some "Transpose") := by
  unfold matchPattern at h ⊢
  split at h
  · rename_i hlive
    rw [if_pos hlive]
    rw [Bool.and_eq_true, Bool.or_eq_true, decide_eq_true_eq] at hlive
    split at h
    · rename_i conn hinputs
      split at h
      · exact absurd rfl h
      · rename_i src hsrc
        refine ⟨hlive.1, conn, src, hinputs, hsrc, ?_, hlive.2⟩
        rfl
    · exact absurd rfl h
  · exact absurd rfl h

theorem matchPattern_eq {src : OpDef} {conn : InputConn} (hlive : isLive op = true)
    (hname : isReshape op = true ∨ op.nameTag = some "Transpose") (hinputs : op.inputs = [conn])
    (hsrc : g.getOpAt conn.srcId = some src) : matchPattern g op = patternFrom g op src := by
  unfold matchPattern
  rw [if_pos]
  · simp only [hinputs, hsrc]
  · rw [hlive, Bool.true_and, Bool.or_eq_true, decide_eq_true_eq]
    exact hname

theorem shapeFold_of_match (h : matchPattern g op ≠ .none) :
    ∃ g', shapeFoldRewrite g op = some g' := by
  obtain ⟨-, conn, src, hinputs, hsrc, -, -⟩ := matchPattern_source h
  unfold shapeFoldRewrite
  simp only [hinputs, hsrc]
  cases hp : matchPattern g op with
  | none => exact absurd hp h
  | identReshape => exact ⟨_, rfl⟩
  | reshapeChain => exact ⟨_, rfl⟩
  | identTranspose => exact ⟨_, rfl⟩

theorem shapeFoldRewrite_cases (h : shapeFoldRewrite g op = some g') :
    ∃ conn src, op.inputs = [conn] ∧ g.getOpAt conn.srcId = some src ∧ isLive op = true ∧
      matchPattern g op = patternFrom g op src ∧
      (((matchPattern g op = .identReshape ∨ matchPattern g op = .identTranspose) ∧
          g' = rewireConsumers g op src) ∨
        (matchPattern g op = .reshapeChain ∧ g' = mergeChain g op src)) := by
  have hne : matchPattern g op ≠ .none := by
    intro hnone
    unfold shapeFoldRewrite at h
    rw [hnone] at h
    split at h
    · cases h
    · split at h <;> cases h
  obtain ⟨hlive, conn, src, hinputs, hsrc, hpat, -⟩ := matchPattern_source hne
  refine ⟨conn, src, hinputs, hsrc, hlive, hpat, ?_⟩
  unfold shapeFoldRewrite at h
  simp only [hinputs, hsrc] at h
  cases hp : matchPattern g op with
  | none => exact absurd hp hne
  | identReshape =>
    rw [hp] at h
    cases h
    exact Or.inl ⟨Or.inl rfl, rfl⟩
  | reshapeChain =>
    rw [hp] at h
    cases h
    exact Or.inr ⟨rfl, rfl⟩
  | identTranspose =>
    rw [hp] at h
    cases h
    exact Or.inl ⟨Or.inr rfl, rfl⟩

theorem fusionMatch_source (h : fusionMatch r g op = true) :
    nameOf op = r.consumer ∧ ∃ conn prod, op.inputs = [conn] ∧ g.getOpAt conn.srcId = some prod ∧
      fusionProducer r prod = true := by
  unfold fusionMatch at h
  simp only [Bool.and_eq_true, decide_eq_true_eq] at h
  obtain ⟨⟨-, hname⟩, hsource⟩ := h
  refine ⟨hname, ?_⟩
  split at hsource
  · rename_i conn hinputs
    split at hsource
    · cases hsource
    · rename_i prod hprod
      exact ⟨conn, prod, hinputs, hprod, hsource⟩
  · cases hsource

theorem fusePair_of_match (h : fusionMatch r g op = true) : ∃ g', fusePair r g op = some g' := by
  obtain ⟨-, conn, prod, hinputs, hprod, -⟩ := fusionMatch_source h
  unfold fusePair
  simp only [hinputs, hprod]
  exact ⟨_, rfl⟩

theorem fusePair_eq (h : fusePair r g op = some g') :
    ∃ conn prod, op.inputs = [conn] ∧ g.getOpAt conn.srcId = some prod ∧
      g' = mergeChain (renamed r g op) op prod := by
  unfold fusePair at h
  split at h
  · rename_i conn hinputs
    split at h
    · cases h
    · rename_i prod hprod
      cases h
      exact ⟨conn, prod, hinputs, hprod, rfl⟩
  · cases h

end Gehtp.Analysis.PassRewrites
