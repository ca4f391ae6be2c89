import Gehtp.Analysis.PassComplete
import Gehtp.Model.DeadCode

/-!
# Consumer lists that name readers only

Dead code is found through the consumer lists. As long as every live consumer that a live operator
lists does read it, an operator that is kept is kept for a reader. The rewritings of shapes, the
fusions, the elimination of common subexpressions and the removal of dead code itself keep this. The
folding of constants does not: the sources of the folded operator still list it.
-/

set_option autoImplicit false

namespace Gehtp.Analysis.ReaderLists

open Model.OpGraph Model.Cse Model.OrderNodes Model.PassManager Model.DeadCode Analysis.PassRewrites
  Analysis.PassPhase Analysis.PassComplete

/-- The operator reads `s`: as an input or, where these count, as a tensor parameter. -/
def Reads (params : Bool) (od : OpDef) (s : ℕ) : Prop :=
  (∃ conn ∈ od.inputs, conn.srcId = s) ∨ (params = true ∧ s ∈ od.tensorParamIds)

/-- The lists name readers only, nothing enters the input node or a constant, tensor parameters are
constants, and, where this counts, the graph has a topological numbering. -/
structure Tidy (params acyclic : Bool) (io : IoNodes) (get : ℕ → Option OpDef) : Prop where
  readers : ∀ s od, get s = some od → isAlive od = true → ∀ c ∈ od.consumers, ∀ oc,
    get c = some oc → isAlive oc = true → Reads params oc s
  ranked : acyclic = true → ∃ rank : ℕ → ℕ, ∀ c oc, get c = some oc → ∀ conn ∈ oc.inputs, ∀ s,
    get conn.srcId = some s → rank conn.srcId < rank c
  source : ∀ od, get io.inputNodeId = some od →
    od.inputs = [] ∧ (params = true → od.tensorParamIds = [])
  constants : params = true → ∀ i od, get i = some od → od.isConst = true →
    od.inputs = [] ∧ od.tensorParamIds = []
  parameters : params = true → ∀ c oc, get c = some oc → ∀ t ∈ oc.tensorParamIds, ∀ pc,
    get t = some pc → pc.isConst = true

variable {params acyclic : Bool} {io : IoNodes}

/-! ### Less of a graph -/

/-- What is left of an operator reads the same and lists no more. -/
structure Worn (od od' : OpDef) : Prop where
  inputs : od'.inputs = od.inputs
  params : od'.tensorParamIds = od.tensorParamIds
  isConst : od'.isConst = od.isConst
  alive : isAlive od' = true → isAlive od = true
  consumers : ∀ c ∈ od'.consumers, c ∈ od.consumers

theorem Worn.refl (od : OpDef) : Worn od od := ⟨rfl, rfl, rfl, id, fun _ => id⟩

theorem Worn.trans {od od' od'' : OpDef} (h : Worn od od') (h' : Worn od' od'') : Worn od od'' :=
  ⟨h'.inputs.trans h.inputs, h'.params.trans h.params, h'.isConst.trans h.isConst,
    fun ha => h.alive (h'.alive ha), fun c hc => h.consumers c (h'.consumers c hc)⟩

theorem worn_setDead (od : OpDef) : Worn od (setDead od) where
  inputs := rfl
  params := rfl
  isConst := testBit_setDead od.flags 1 (by decide)
  alive := by
    intro h
    unfold isAlive at h
    have hflags : (setDead od).flags = od.flags ||| 4 := rfl
    rw [isDead_of_flags hflags, Bool.not_true, Bool.and_false] at h
    cases h
  consumers _ hc := hc

theorem worn_eraseConsumer (id : ℕ) (od : OpDef) : Worn od (eraseConsumer id od) :=
  ⟨rfl, rfl, rfl, fun h => h, fun _ hc => (List.mem_filter.mp hc).1⟩

/-- Every operator is one of the old ones, or what is left of it. -/
def Shrunk (get get' : ℕ → Option OpDef) : Prop :=
  ∀ j od', get' j = some od' → ∃ od, get j = some od ∧ Worn od od'

theorem Shrunk.refl (get : ℕ → Option OpDef) : Shrunk get get :=
  fun _ od h => ⟨od, h, Worn.refl od⟩

theorem Shrunk.trans {get get' get'' : ℕ → Option OpDef} (h : Shrunk get get')
    (h' : Shrunk get' get'') : Shrunk get get'' := by
  intro j od'' hod''
  obtain ⟨od', hod', hworn'⟩ := h' j od'' hod''
  obtain ⟨od, hod, hworn⟩ := h j od' hod'
  exact ⟨od, hod, hworn.trans hworn'⟩

/-- An update that wears one operator down shrinks the graph. -/
theorem shrunk_modify (ops : OpMap) (i : ℕ) {f : OpDef → OpDef} (hf : ∀ od, (f od).opId = od.opId)
    (hworn : ∀ od, Worn od (f od)) : Shrunk ops.getOpAt (ops.modify i f hf).getOpAt := by
  intro j od' h
  unfold OpMap.modify at h
  simp only at h
  split at h
  · obtain ⟨od, hod, rfl⟩ := Option.map_eq_some_iff.mp h
    exact ⟨od, hod, hworn od⟩
  · exact ⟨od', h, Worn.refl od'⟩

/-- So does removing operators. -/
theorem shrunk_eraseAll (ops : OpMap) (l : List ℕ) :
    Shrunk ops.getOpAt (ops.eraseAll l).getOpAt := by
  intro j od' h
  unfold OpMap.eraseAll at h
  simp only at h
  split at h
  · cases h
  · exact ⟨od', h, Worn.refl od'⟩

/-- So does a loop of such steps. -/
theorem shrunk_foldl {α : Type} {f : OpMap → α → OpMap}
    (hf : ∀ ops x, Shrunk ops.getOpAt (f ops x).getOpAt) (l : List α) (ops : OpMap) :
    Shrunk ops.getOpAt (l.foldl f ops).getOpAt := by
  induction l generalizing ops with
  | nil => exact Shrunk.refl _
  | cons x l ih => exact (hf ops x).trans (ih _)

/-- A deleted operator is gone, and its sources no longer list it. -/
theorem shrunk_deleteOp (ops : OpMap) (id : ℕ) :
    Shrunk ops.getOpAt (deleteOp ops id).getOpAt := by
  unfold deleteOp
  split
  · exact Shrunk.refl _
  · apply Shrunk.trans _ (shrunk_eraseAll _ _)
    apply shrunk_foldl
    intro ops' conn
    exact shrunk_modify ops' conn.srcId (eraseConsumer_opId id) (worn_eraseConsumer id)

/-- One visit of the sweep marks at most its operator. -/
theorem shrunk_sweepAt (s : Sweep) (id : ℕ) :
    Shrunk s.ops.getOpAt (sweepAt io s id).ops.getOpAt := by
  unfold sweepAt
  split
  · exact Shrunk.refl _
  · split
    · exact shrunk_modify s.ops id setDead_opId worn_setDead
    · exact Shrunk.refl _

/-- The whole sweep only marks. -/
theorem shrunk_sweep (g : OpdefMap) :
    Shrunk g.ops.getOpAt (sweep io g).ops.getOpAt := by
  have hfold : ∀ (l : List ℕ) (s : Sweep),
      Shrunk s.ops.getOpAt (l.foldl (sweepAt io) s).ops.getOpAt := by
    intro l
    induction l with
    | nil => exact fun s => Shrunk.refl _
    | cons id l ih => exact fun s => (shrunk_sweepAt s id).trans (ih _)
  exact hfold g.keys ⟨g.ops, []⟩

theorem shrunk_entries (g : OpdefMap) :
    Shrunk g.ops.getOpAt (entries g).getOpAt := by
  intro j od h
  unfold entries at h
  simp only at h
  split at h
  · exact ⟨od, h, Worn.refl od⟩
  · cases h

/-- A graph that shrinks stays tidy. -/
theorem Tidy.shrink {get get' : ℕ → Option OpDef} (h : Tidy params acyclic io get)
    (hs : Shrunk get get') : Tidy params acyclic io get' where
  readers := by
    intro s od' hod' halive c hc oc' hoc' hcalive
    obtain ⟨od, hod, hworn⟩ := hs s od' hod'
    obtain ⟨oc, hoc, hcworn⟩ := hs c oc' hoc'
    have hread := h.readers s od hod (hworn.alive halive) c (hworn.consumers c hc) oc hoc
      (hcworn.alive hcalive)
    unfold Reads at hread ⊢
    rwa [hcworn.inputs, hcworn.params]
  ranked := by
    intro hacyclic
    obtain ⟨rank, hrank⟩ := h.ranked hacyclic
    refine ⟨rank, fun c oc' hoc' conn hconn s' hs' => ?_⟩
    obtain ⟨oc, hoc, hcworn⟩ := hs c oc' hoc'
    obtain ⟨s, hsget, -⟩ := hs _ s' hs'
    exact hrank c oc hoc conn (hcworn.inputs ▸ hconn) s hsget
  source := by
    intro od' hod'
    obtain ⟨od, hod, hworn⟩ := hs _ od' hod'
    rw [hworn.inputs, hworn.params]
    exact h.source od hod
  constants := by
    intro hp i od' hod' hconst
    obtain ⟨od, hod, hworn⟩ := hs i od' hod'
    rw [hworn.inputs, hworn.params]
    exact h.constants hp i od hod (hworn.isConst ▸ hconst)
  parameters := by
    intro hp c oc' hoc' t ht pc' hpc'
    obtain ⟨oc, hoc, hcworn⟩ := hs c oc' hoc'
    obtain ⟨pc, hpc, hpworn⟩ := hs t pc' hpc'
    rw [hpworn.isConst]
    exact h.parameters hp c oc hoc t (hcworn.params ▸ ht) pc hpc

/-! ### A dropped operator -/

theorem isAlive_iff {od : OpDef} :
    isAlive od = true ↔ od.isEnabled = true ∧ od.isDead = false := by
  unfold isAlive
  rw [Bool.and_eq_true, Bool.not_eq_true']

/-- A live operator is alive; being live also excludes constants. -/
theorem isAlive_of_isLive {od : OpDef} (h : isLive od = true) : isAlive od = true := by
  obtain ⟨hen, hdead, -⟩ := isLive_iff.mp h
  exact isAlive_iff.mpr ⟨hen, hdead⟩

/-- Whoever reads another source still reads it after a redirection. -/
theorem reads_redirect (od : OpDef) {od' : OpDef} (b a : ℕ) {s : ℕ}
    (hparams : od'.tensorParamIds = od.tensorParamIds)
    (hinputs : od'.inputs = od.inputs ∨ od'.inputs = od.inputs.map (redirectInput b a))
    (hs : s ≠ b) (h : Reads params od s) : Reads params od' s := by
  obtain ⟨conn, hconn, rfl⟩ | hparam := h
  · left
    obtain hsame | hmap := hinputs
    · exact ⟨conn, hsame ▸ hconn, rfl⟩
    · refine ⟨conn, ?_, rfl⟩
      rw [hmap, List.mem_map]
      exact ⟨conn, hconn, if_neg hs⟩
  · exact Or.inr (hparams ▸ hparam)

/-- Whoever reads the source that is replaced reads the new one. -/
theorem reads_redirected (od : OpDef) {od' : OpDef} (b : ℕ) {a : ℕ}
    (hinputs : od'.inputs = od.inputs.map (redirectInput b a))
    (h : ∃ conn ∈ od.inputs, conn.srcId = b) : Reads params od' a := by
  obtain ⟨conn, hconn, hb⟩ := h
  left
  refine ⟨redirectInput b a conn, ?_, ?_⟩
  · rw [hinputs]
    exact List.mem_map_of_mem hconn
  · unfold redirectInput
    rw [if_pos hb]

/-- What is no constant is read as an input, not as a parameter. -/
theorem Tidy.input_of_reads {get : ℕ → Option OpDef} (h : Tidy params acyclic io get) {s c : ℕ}
    {od oc : OpDef} (hod : get s = some od) (hoc : get c = some oc) (hconst : od.isConst = false)
    (hread : Reads params oc s) : ∃ conn ∈ oc.inputs, conn.srcId = s := by
  obtain hinput | ⟨hp, ht⟩ := hread
  · exact hinput
  · rw [h.parameters hp c oc hoc s ht od hod] at hconst
    cases hconst

/-- Readers of a dropped operator read its source, which lists them now. -/
theorem tidy_rewireConsumers {g : PassGraph} {op prod : OpDef} {conn₀ : InputConn}
    (h : Tidy params acyclic io g.getOpAt) (hop : g.getOpAt op.opId = some op) (hlive : isLive op = true)
    (hprod : g.getOpAt prod.opId = some prod) (hmem : conn₀ ∈ op.inputs)
    (hread : conn₀.srcId = prod.opId) :
    Tidy params acyclic io (rewireConsumers g op prod).getOpAt := by
  have hback : ∀ j od', (rewireConsumers g op prod).getOpAt j = some od' → ∃ od,
      g.getOpAt j = some od ∧ od' = { od with
        flags := if j = op.opId then od.flags ||| 4 else od.flags
        inputs := if j ∈ op.consumers then od.inputs.map (redirectInput op.opId prod.opId)
          else od.inputs
        consumers := if j = prod.opId then
            od.consumers.filter (fun c => decide (c ≠ op.opId)) ++ presentConsumers g op
          else od.consumers } := by
    intro j od' hod'
    obtain ⟨od, hod⟩ := exists_before (isSome_rewireConsumers g op prod j) hod'
    rw [getOpAt_rewireConsumers op prod hod] at hod'
    exact ⟨od, hod, (Option.some.inj hod').symm⟩
  have halive : ∀ j od od', g.getOpAt j = some od →
      (rewireConsumers g op prod).getOpAt j = some od' → isAlive od' = true →
        j ≠ op.opId ∧ isAlive od = true := by
    intro j od od' hod hod' ha
    obtain ⟨hne, od₁, hod₁, halike, -⟩ := dropped_alive hod' (isAlive_iff.mp ha).2
    rw [hod] at hod₁
    cases hod₁
    refine ⟨hne, ?_⟩
    rwa [isAlive_iff, halike.isEnabled, halike.isDead, ← isAlive_iff] at ha
  have hnoconst : op.isConst = false := (isLive_iff.mp hlive).2.2
  constructor
  · intro s od' hod' hsalive c hc oc' hoc' hcalive
    obtain ⟨od, hod, hodeq⟩ := hback s od' hod'
    obtain ⟨oc, hoc, hoceq⟩ := hback c oc' hoc'
    obtain ⟨hsop, hsalive⟩ := halive s od od' hod hod' hsalive
    obtain ⟨hcop, hcalive⟩ := halive c oc oc' hoc hoc' hcalive
    have hkept : c ∈ od.consumers → Reads params oc' s := by
      intro hmem
      apply reads_redirect oc op.opId prod.opId (by rw [hoceq]) _ hsop
        (h.readers s od hod hsalive c hmem oc hoc hcalive)
      rw [hoceq]
      simp only
      split
      · exact Or.inr rfl
      · exact Or.inl rfl
    rw [hodeq] at hc
    simp only at hc
    split at hc
    · rename_i hsprod
      obtain hc | hc := List.mem_append.mp hc
      · exact hkept (List.mem_filter.mp hc).1
      · -- a reader of the dropped operator reads its source now
        have hcmem := (List.mem_filter.mp hc).1
        rw [hsprod]
        apply reads_redirected oc op.opId
        · rw [hoceq]
          exact if_pos hcmem
        · exact h.input_of_reads hop hoc hnoconst
            (h.readers op.opId op hop (isAlive_of_isLive hlive) c hcmem oc hoc hcalive)
    · exact hkept hc
  · intro hacyclic
    obtain ⟨rank, hrank⟩ := h.ranked hacyclic
    refine ⟨rank, fun c oc' hoc' conn' hconn' s' hs' => ?_⟩
    obtain ⟨oc, hoc, hoceq⟩ := hback c oc' hoc'
    obtain ⟨s, hs, -⟩ := hback _ s' hs'
    rw [hoceq] at hconn'
    simp only at hconn'
    split at hconn'
    · obtain ⟨conn, hconn, rfl⟩ := List.mem_map.mp hconn'
      by_cases hb : conn.srcId = op.opId
      · have hsource : (redirectInput op.opId prod.opId conn).srcId = prod.opId := by
          unfold redirectInput
          rw [if_pos hb]
        have hfirst := hrank c oc hoc conn hconn op (hb ▸ hop)
        have hsecond := hrank op.opId op hop conn₀ hmem prod (hread ▸ hprod)
        rw [hb] at hfirst
        rw [hread] at hsecond
        rw [hsource]
        exact hsecond.trans hfirst
      · have hsame : redirectInput op.opId prod.opId conn = conn := if_neg hb
        rw [hsame] at hs ⊢
        exact hrank c oc hoc conn hconn s hs
    · exact hrank c oc hoc conn' hconn' s hs
  · intro od' hod'
    obtain ⟨od, hod, rfl⟩ := hback _ od' hod'
    obtain ⟨hinputs, hparams⟩ := h.source od hod
    refine ⟨?_, hparams⟩
    simp only [hinputs, List.map_nil, ite_self]
  · intro hp i od' hod' hconst
    obtain ⟨od, hod, rfl⟩ := hback i od' hod'
    rw [isConst_of_flags rfl] at hconst
    obtain ⟨hinputs, hparams⟩ := h.constants hp i od hod hconst
    refine ⟨?_, hparams⟩
    simp only [hinputs, List.map_nil, ite_self]
  · intro hp c oc' hoc' t ht pc' hpc'
    obtain ⟨oc, hoc, rfl⟩ := hback c oc' hoc'
    obtain ⟨pc, hpc, rfl⟩ := hback t pc' hpc'
    rw [isConst_of_flags rfl]
    exact h.parameters hp c oc hoc t ht pc hpc

/-! ### A joined operator -/

/-- A joined operator reads what its source read, and stands in its place in the lists. -/
theorem tidy_joined {g g' : PassGraph} {op src : OpDef} {conn₀ : InputConn}
    (h : Tidy params acyclic io g.getOpAt) (hj : Joined g g' op src) (hop : g.getOpAt op.opId = some op)
    (hlive : isLive op = true) (hsrc : g.getOpAt src.opId = some src)
    (hinputs : op.inputs = [conn₀]) (hread : conn₀.srcId = src.opId) :
    Tidy params acyclic io g'.getOpAt := by
  have hconst : ∀ j od od', g.getOpAt j = some od → g'.getOpAt j = some od' →
      od'.isConst = od.isConst :=
    fun j od od' hod hod' => isConst_of_flags (hj.flags j od od' hod hod')
  have halive : ∀ j od od', g.getOpAt j = some od → g'.getOpAt j = some od' →
      isAlive od' = true → j ≠ src.opId ∧ isAlive od = true := by
    intro j od od' hod hod' ha
    have hne := hj.ne_of_alive hod hod' (isAlive_iff.mp ha).2
    have hflags := (hj.flags j od od' hod hod').trans (if_neg hne)
    refine ⟨hne, ?_⟩
    unfold isAlive OpDef.isEnabled OpDef.isDead at ha ⊢
    rwa [hflags] at ha
  have hother : ∀ j od od', g.getOpAt j = some od → g'.getOpAt j = some od' → j ≠ op.opId →
      od'.inputs = od.inputs :=
    fun j od od' hod hod' hne => (hj.inputs j od od' hod hod').trans (if_neg hne)
  constructor
  · intro s od' hod' hsalive c hc oc' hoc' hcalive
    obtain ⟨od, hod⟩ := exists_before (hj.present s) hod'
    obtain ⟨oc, hoc⟩ := exists_before (hj.present c) hoc'
    obtain ⟨hssrc, hsalive⟩ := halive s od od' hod hod' hsalive
    obtain ⟨hcsrc, hcalive⟩ := halive c oc oc' hoc hoc' hcalive
    rw [hj.consumers s od od' hod hod'] at hc
    obtain hmem | ⟨hcop, conn, hconn, hs⟩ := mem_of_mem_passedConsumers hc
    · have hbefore := h.readers s od hod hsalive c hmem oc hoc hcalive
      have hparams := hj.params c oc oc' hoc hoc'
      by_cases hcop : c = op.opId
      · -- the joined operator read its old source only
        obtain ⟨conn, hconn, hs⟩ | hparam := hbefore
        · rw [hcop, hop] at hoc
          cases hoc
          rw [hinputs, List.mem_singleton] at hconn
          exact absurd (hs.symm.trans (hconn ▸ hread)) hssrc
        · exact Or.inr (hparams ▸ hparam)
      · unfold Reads at hbefore ⊢
        rwa [hother c oc oc' hoc hoc' hcop, hparams]
    · left
      refine ⟨conn, ?_, hs⟩
      rw [hj.inputs c oc oc' hoc hoc', if_pos hcop]
      exact hconn
  · intro hacyclic
    obtain ⟨rank, hrank⟩ := h.ranked hacyclic
    refine ⟨rank, fun c oc' hoc' conn hconn s' hs' => ?_⟩
    obtain ⟨oc, hoc⟩ := exists_before (hj.present c) hoc'
    obtain ⟨s, hs⟩ := exists_before (hj.present _) hs'
    rw [hj.inputs c oc oc' hoc hoc'] at hconn
    split at hconn
    · rename_i hcop
      have hfirst := hrank src.opId src hsrc conn hconn s hs
      have hsecond := hrank op.opId op hop conn₀ (hinputs ▸ List.mem_singleton_self conn₀) src
        (hread ▸ hsrc)
      rw [hread] at hsecond
      rw [hcop]
      exact hfirst.trans hsecond
    · exact hrank c oc hoc conn hconn s hs
  · intro od' hod'
    obtain ⟨od, hod⟩ := exists_before (hj.present _) hod'
    obtain ⟨hnone, hparams⟩ := h.source od hod
    have hne : io.inputNodeId ≠ op.opId := by
      intro heq
      rw [heq, hop] at hod
      cases hod
      rw [hinputs] at hnone
      cases hnone
    rw [hother _ od od' hod hod' hne, hj.params _ od od' hod hod']
    exact ⟨hnone, hparams⟩
  · intro hp i od' hod' hcst
    obtain ⟨od, hod⟩ := exists_before (hj.present i) hod'
    rw [hconst i od od' hod hod'] at hcst
    have hne : i ≠ op.opId := by
      intro heq
      rw [heq, hop] at hod
      cases hod
      rw [(isLive_iff.mp hlive).2.2] at hcst
      cases hcst
    rw [hother i od od' hod hod' hne, hj.params i od od' hod hod']
    exact h.constants hp i od hod hcst
  · intro hp c oc' hoc' t ht pc' hpc'
    obtain ⟨oc, hoc⟩ := exists_before (hj.present c) hoc'
    obtain ⟨pc, hpc⟩ := exists_before (hj.present t) hpc'
    rw [hconst t pc pc' hpc hpc']
    exact h.parameters hp c oc hoc t (hj.params c oc oc' hoc hoc' ▸ ht) pc hpc

end Gehtp.Analysis.ReaderLists
