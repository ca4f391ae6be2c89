import Gehtp.Lib.Dataflow
import Gehtp.Analysis.DeadCodeComplete

/-!
# What dead-code removal preserves

As long as the live operators list all their live readers, an operator is deleted only after all
that read it, so those that are left have the values that they had. The input and the output node
stay.
-/

set_option autoImplicit false

namespace Gehtp.Analysis.DeadCodeSound

open Lib.Dataflow Model.OpGraph Model.OrderNodes Model.PassManager Model.DeadCode
  Analysis.PassPhase Analysis.ReaderLists Analysis.PhasesTidy Analysis.DeadCodeComplete

variable {params : Bool} {io : IoNodes} {get get' get'' : ℕ → Option OpDef} {id : ℕ}

def Alive (get : ℕ → Option OpDef) (i : ℕ) : Prop := ∃ od, get i = some od ∧ isAlive od = true

/-- Every live operator lists all live operators that read it. -/
def Listed (params : Bool) (get : ℕ → Option OpDef) : Prop :=
  ∀ s od, get s = some od → isAlive od = true → ∀ c oc, get c = some oc → isAlive oc = true →
    Reads params oc s → c ∈ od.consumers

/-- What a step of the removal keeps of the live operators. -/
structure Pruned (params : Bool) (io : IoNodes) (get get' : ℕ → Option OpDef) : Prop where
  listed : Listed params get'
  same : ∀ i od', get' i = some od' → isAlive od' = true → ∃ od, get i = some od ∧
    isAlive od = true ∧ od' = { od with consumers := od'.consumers }
  reads : ∀ c oc, get' c = some oc → isAlive oc = true → ∀ s, Reads params oc s → Alive get s →
    Alive get' s
  special : ∀ i, i = io.inputNodeId ∨ i = io.outputNodeId → Alive get i → Alive get' i

theorem Pruned.refl (h : Listed params get) : Pruned params io get get :=
  ⟨h, fun _ od hod ha => ⟨od, hod, ha, rfl⟩, fun _ _ _ _ _ _ hs => hs, fun _ _ hi => hi⟩

theorem Pruned.alive (h : Pruned params io get get') {i : ℕ} (hi : Alive get' i) : Alive get i := by
  obtain ⟨od', hod', ha⟩ := hi
  obtain ⟨od, hod, halive, -⟩ := h.same i od' hod' ha
  exact ⟨od, hod, halive⟩

theorem Pruned.trans (h : Pruned params io get get') (h' : Pruned params io get' get'') :
    Pruned params io get get'' where
  listed := h'.listed
  same := by
    intro i od'' hod'' ha''
    obtain ⟨od', hod', ha', heq'⟩ := h'.same i od'' hod'' ha''
    obtain ⟨od, hod, ha, heq⟩ := h.same i od' hod' ha'
    refine ⟨od, hod, ha, ?_⟩
    rw [heq', heq]
  reads := by
    intro c oc hoc hca s hread hs
    obtain ⟨oc', hoc', hca', heq⟩ := h'.same c oc hoc hca
    have hread' : Reads params oc' s := by
      rw [heq] at hread
      exact hread
    exact h'.reads c oc hoc hca s hread (h.reads c oc' hoc' hca' s hread' hs)
  special i hi hs := h'.special i hi (h.special i hi hs)

/-- A step that takes the operators `out` from the live ones, and ids that are not live from the
lists. -/
theorem Pruned.step (hl : Listed params get) (out : ℕ → Prop)
    (hback : ∀ i od', get' i = some od' → isAlive od' = true → ¬ out i ∧ ∃ od, get i = some od ∧
      isAlive od = true ∧ od' = { od with consumers := od'.consumers } ∧
        ∀ c ∈ od.consumers, Alive get c → c ∈ od'.consumers)
    (hkeep : ∀ i, ¬ out i → Alive get i → Alive get' i)
    (hout : ∀ s od, out s → get s = some od → s ≠ io.inputNodeId ∧ s ≠ io.outputNodeId ∧
      ∀ c ∈ od.consumers, ¬ Alive get c) : Pruned params io get get' := by
  have hreads : ∀ c oc', get' c = some oc' → isAlive oc' = true → ∀ s, Reads params oc' s →
      ∀ od, get s = some od → isAlive od = true → Alive get c ∧ c ∈ od.consumers := by
    intro c oc' hoc' hca' s hread od hod ha
    obtain ⟨-, oc, hoc, hca, heq, -⟩ := hback c oc' hoc' hca'
    rw [heq] at hread
    exact ⟨⟨oc, hoc, hca⟩, hl s od hod ha c oc hoc hca hread⟩
  refine ⟨?_, ?_, ?_, ?_⟩
  · intro s od' hod' ha' c oc' hoc' hca' hread
    obtain ⟨-, od, hod, ha, -, hlist⟩ := hback s od' hod' ha'
    obtain ⟨hc, hmem⟩ := hreads c oc' hoc' hca' s hread od hod ha
    exact hlist c hmem hc
  · intro i od' hod' ha'
    obtain ⟨-, od, hod, ha, heq, -⟩ := hback i od' hod' ha'
    exact ⟨od, hod, ha, heq⟩
  · rintro c oc' hoc' hca' s hread ⟨od, hod, ha⟩
    obtain ⟨hc, hmem⟩ := hreads c oc' hoc' hca' s hread od hod ha
    exact hkeep s (fun hs => (hout s od hs hod).2.2 c hmem hc) ⟨od, hod, ha⟩
  · rintro i hi ⟨od, hod, ha⟩
    refine hkeep i (fun hs => ?_) ⟨od, hod, ha⟩
    obtain ⟨hin, hout', -⟩ := hout i od hs hod
    exact hi.elim hin hout'

theorem not_alive_setDead (od : OpDef) : ¬ isAlive (setDead od) = true := by
  intro h
  have hdead := (isAlive_iff.mp h).2
  rw [isDead_of_flags rfl] at hdead
  cases hdead

theorem pruned_setDead (io : IoNodes) {ops : OpMap} {od : OpDef} (hl : Listed params ops.getOpAt)
    (hod : ops.getOpAt id = some od) (hin : id ≠ io.inputNodeId) (hout : id ≠ io.outputNodeId)
    (hdead : hasLiveConsumer ops od = false) :
    Pruned params io ops.getOpAt (ops.modify id setDead setDead_opId).getOpAt := by
  apply Pruned.step hl (· = id)
  · intro i od' hod' ha'
    rw [OpMap.modify] at hod'
    dsimp only at hod'
    split at hod'
    · obtain ⟨od'', -, rfl⟩ := Option.map_eq_some_iff.mp hod'
      exact absurd ha' (not_alive_setDead od'')
    · exact ⟨‹_›, od', hod', ha', rfl, fun _ hc _ => hc⟩
  · rintro i hi ⟨od', hod', ha'⟩
    exact ⟨od', (if_neg hi).trans hod', ha'⟩
  · rintro s od' rfl hod'
    cases hod.symm.trans hod'
    refine ⟨hin, hout, fun c hc hca => ?_⟩
    obtain ⟨oc, hoc, ha⟩ := hca
    rw [hasLiveConsumer, List.any_eq_false] at hdead
    apply hdead c hc
    rw [hoc]
    exact ha

theorem pruned_eraseConsumer {ops : OpMap} (hl : Listed params ops.getOpAt)
    (hid : ¬ Alive ops.getOpAt id) (s : ℕ) : Pruned params io ops.getOpAt
      (ops.modify s (eraseConsumer id) (eraseConsumer_opId id)).getOpAt := by
  apply Pruned.step hl fun _ => False
  · intro i od' hod' ha'
    rw [OpMap.modify] at hod'
    dsimp only at hod'
    refine ⟨not_false, ?_⟩
    split at hod'
    · obtain ⟨od, hod, rfl⟩ := Option.map_eq_some_iff.mp hod'
      refine ⟨od, hod, ha', rfl, fun c hc hca => List.mem_filter.mpr ⟨hc, decide_eq_true ?_⟩⟩
      exact fun heq => hid (heq ▸ hca)
    · exact ⟨od', hod', ha', rfl, fun _ hc _ => hc⟩
  · rintro i - ⟨od, hod, ha⟩
    rw [Alive, OpMap.modify]
    dsimp only
    split
    · exact ⟨eraseConsumer id od, by rw [hod]; rfl, ha⟩
    · exact ⟨od, hod, ha⟩
  · exact fun _ _ hs => hs.elim

theorem pruned_eraseAll {ops : OpMap} (hl : Listed params ops.getOpAt)
    (hid : ¬ Alive ops.getOpAt id) :
    Pruned params io ops.getOpAt (ops.eraseAll [id]).getOpAt := by
  apply Pruned.step hl fun _ => False
  · intro i od' hod' ha'
    rw [OpMap.eraseAll] at hod'
    dsimp only at hod'
    split at hod'
    · cases hod'
    · exact ⟨not_false, od', hod', ha', rfl, fun _ hc _ => hc⟩
  · rintro i - ⟨od, hod, ha⟩
    refine ⟨od, (if_neg ?_).trans hod, ha⟩
    rintro hi
    exact hid (List.mem_singleton.mp hi ▸ ⟨od, hod, ha⟩)
  · exact fun _ _ hs => hs.elim

/-- A fold of such steps, of which each one may rely on what is not live before it. -/
theorem pruned_foldl {α : Type} {f : OpMap → α → OpMap} (gone : α → ℕ)
    (hf : ∀ ops x, Listed params ops.getOpAt → ¬ Alive ops.getOpAt (gone x) →
      Pruned params io ops.getOpAt (f ops x).getOpAt) {l : List α} {ops : OpMap}
    (hl : Listed params ops.getOpAt) (hgone : ∀ x ∈ l, ¬ Alive ops.getOpAt (gone x)) :
    Pruned params io ops.getOpAt (l.foldl f ops).getOpAt := by
  induction l generalizing ops with
  | nil => exact Pruned.refl hl
  | cons x l ih =>
    have hx := hf ops x hl (hgone x List.mem_cons_self)
    exact hx.trans (ih hx.listed fun y hy hya => hgone y (List.mem_cons_of_mem x hy) (hx.alive hya))

theorem pruned_deleteOp {ops : OpMap} (hl : Listed params ops.getOpAt)
    (hid : ¬ Alive ops.getOpAt id) : Pruned params io ops.getOpAt (deleteOp ops id).getOpAt := by
  unfold deleteOp
  split
  · exact Pruned.refl hl
  · rename_i od _
    have hlists : Pruned params io ops.getOpAt (od.inputs.foldl (fun ops conn =>
        ops.modify conn.srcId (eraseConsumer id) (eraseConsumer_opId id)) ops).getOpAt :=
      pruned_foldl (fun _ => id) (fun _ conn hl hid => pruned_eraseConsumer hl hid conn.srcId) hl
        fun _ _ => hid
    exact hlists.trans (pruned_eraseAll hlists.listed fun h => hid (hlists.alive h))

/-- What is collected for deletion is not live any more. -/
theorem pruned_sweep (io : IoNodes) {l : List ℕ} {s : Sweep} (hl : Listed params s.ops.getOpAt)
    (hdel : ∀ i ∈ s.toDelete, ¬ Alive s.ops.getOpAt i) :
    let s' := l.foldl (sweepAt io) s
    Pruned params io s.ops.getOpAt s'.ops.getOpAt ∧
      ∀ i ∈ s'.toDelete, ¬ Alive s'.ops.getOpAt i := by
  induction l generalizing s with
  | nil => exact ⟨Pruned.refl hl, hdel⟩
  | cons i l ih =>
    rw [List.foldl_cons]
    unfold sweepAt
    split
    · exact ih hl hdel
    · rename_i od hod
      split
      · rename_i hcond
        simp only [Bool.and_eq_true, decide_eq_true_eq, Bool.not_eq_true'] at hcond
        have hstep := pruned_setDead io hl hod hcond.1.2 hcond.1.1.2 hcond.2
        have hgone : ∀ j ∈ s.toDelete ++ [i],
            ¬ Alive (s.ops.modify i setDead setDead_opId).getOpAt j := by
          intro j hj hja
          cases List.mem_append.mp hj with
          | inl hj => exact hdel j hj (hstep.alive hja)
          | inr hj =>
            cases List.mem_singleton.mp hj
            obtain ⟨od', hod', ha'⟩ := hja
            obtain ⟨od'', -, rfl⟩ := Option.map_eq_some_iff.mp ((if_pos rfl).symm.trans hod')
            exact not_alive_setDead od'' ha'
        obtain ⟨hrun, hdel'⟩ := ih (s := ⟨_, s.toDelete ++ [i]⟩) hstep.listed hgone
        exact ⟨hstep.trans hrun, hdel'⟩
      · exact ih hl hdel

theorem pruned_rounds (n : ℕ) {g : OpdefMap} (hl : Listed params g.ops.getOpAt) (count : ℕ) :
    Pruned params io g.ops.getOpAt (rounds io n g count).2.ops.getOpAt := by
  induction n generalizing g count with
  | zero => exact Pruned.refl hl
  | succ n ih =>
    obtain ⟨hsweep, hdel⟩ := pruned_sweep io (l := g.keys) (s := ⟨g.ops, []⟩) hl
      fun i hi => absurd hi List.not_mem_nil
    unfold rounds
    dsimp only
    split
    · exact hsweep
    · have hdelete : Pruned params io (sweep io g).ops.getOpAt
          ((sweep io g).toDelete.foldl deleteOp (sweep io g).ops).getOpAt :=
        pruned_foldl (fun i => i) (fun _ _ hl hi => pruned_deleteOp hl hi) hsweep.listed hdel
      exact hsweep.trans (hdelete.trans (ih (g := eraseKeys g _ _) hdelete.listed _))

/-- A live operator as a node: everything but its consumers is its label. -/
def nodeOf (params : Bool) (od : OpDef) : Node OpDef :=
  ⟨{ od with consumers := [] }, od.inputs.map (fun conn => (conn.srcId, conn.outIdx)) ++
    if params then od.tensorParamIds.map fun t => (t, 0) else []⟩

/-- The dataflow graph of the live operators. -/
def dataflow (params : Bool) (get : ℕ → Option OpDef) (i : ℕ) : Option (Node OpDef) :=
  ((get i).filter isAlive).map (nodeOf params)

theorem reads_of_mem {od : OpDef} {p : ℕ × ℕ} (h : p ∈ (nodeOf params od).args) :
    Reads params od p.1 := by
  cases List.mem_append.mp h with
  | inl h =>
    obtain ⟨conn, hconn, rfl⟩ := List.mem_map.mp h
    exact .inl ⟨conn, hconn, rfl⟩
  | inr h =>
    split at h
    · obtain ⟨t, ht, rfl⟩ := List.mem_map.mp h
      exact .inr ⟨‹_›, ht⟩
    · cases h

theorem dataflow_alive {i : ℕ} {od : OpDef} (hod : get i = some od) (ha : isAlive od = true) :
    dataflow params get i = some (nodeOf params od) := by
  rw [dataflow, hod, Option.filter_some_pos ha]
  rfl

theorem dataflow_none {i : ℕ} (h : ¬ Alive get i) : dataflow params get i = none := by
  rw [dataflow, Option.map_eq_none_iff, Option.filter_eq_none_iff]
  exact fun od hod ha => h ⟨od, hod, ha⟩

/-- Every live operator that is left has the value that it had, whatever the operators mean; and
the input and the output node are left. -/
theorem removeDeadCode_preserves {V : Type} (m : Meaning OpDef V) (params : Bool) (io : IoNodes)
    (g : OpdefMap) (hlisted : Listed params g.ops.getOpAt) :
    let g' := (removeDeadCode io g).2
    (∀ n i, Alive g'.ops.getOpAt i → value m (dataflow params g'.ops.getOpAt) n i =
      value m (dataflow params g.ops.getOpAt) n i) ∧
    ∀ i, i = io.inputNodeId ∨ i = io.outputNodeId → Alive g.ops.getOpAt i →
      Alive g'.ops.getOpAt i := by
  intro g'
  have h : Pruned params io g.ops.getOpAt g'.ops.getOpAt := pruned_rounds _ hlisted 0
  refine ⟨fun n i hi => ?_, h.special⟩
  apply @value_prune _ _ m _ _ fun i => Alive g.ops.getOpAt i ∧ ¬ Alive g'.ops.getOpAt i
  · intro j hj
    by_cases hj' : Alive g'.ops.getOpAt j
    · obtain ⟨od', hod', ha'⟩ := hj'
      obtain ⟨od, hod, ha, heq⟩ := h.same j od' hod' ha'
      rw [dataflow_alive hod' ha', dataflow_alive hod ha, heq]
      rfl
    · rw [dataflow_none hj', dataflow_none fun hg => hj ⟨hg, hj'⟩]
  · rintro c nd hc hnd p hp ⟨hsrc, hgone⟩
    have hcg : Alive g.ops.getOpAt c := by
      by_contra hno
      rw [dataflow_none hno] at hnd
      cases hnd
    obtain ⟨oc', hoc', hca'⟩ := not_not.mp fun hno => hc ⟨hcg, hno⟩
    obtain ⟨oc, hoc, hca, heq⟩ := h.same c oc' hoc' hca'
    rw [dataflow_alive hoc hca] at hnd
    cases hnd
    have hread : Reads params oc' p.1 := by
      rw [heq]
      exact reads_of_mem hp
    exact hgone (h.reads c oc' hoc' hca' p.1 hread hsrc)
  · exact fun hdeleted => hdeleted.2 hi

theorem sliced_listed : Listed true (toMap slicedGraph.graph).ops.getOpAt := by
  intro s od hod ha c oc hoc hca hread
  have hall : ∀ od ∈ slicedOps, isAlive od = true → ∀ oc ∈ slicedOps, isAlive oc = true →
      Reads true oc od.opId → oc.opId ∈ od.consumers := by decide
  obtain ⟨hmem, rfl⟩ := OpMap.mem_of_ofList hod
  obtain ⟨hcmem, rfl⟩ := OpMap.mem_of_ofList hoc
  exact hall od hmem ha oc hcmem hca hread

/-- An operator adds its id to its inputs. -/
def addIds : Meaning OpDef ℕ := ⟨fun od l => od.opId + (l.map Prod.fst).sum, fun i => i, 0⟩

/-- The operator `4` is deleted, and the output still has its value. -/
theorem sliced_preserves :
    (removeDeadCode ⟨1, 5⟩ (toMap slicedGraph.graph)).1 = 1 ∧
      value addIds (dataflow true
        (removeDeadCode ⟨1, 5⟩ (toMap slicedGraph.graph)).2.ops.getOpAt) 4 5 =
          value addIds (dataflow true (toMap slicedGraph.graph).ops.getOpAt) 4 5 := by
  obtain ⟨hvalues, hspecial⟩ := removeDeadCode_preserves addIds true ⟨1, 5⟩ _ sliced_listed
  exact ⟨by decide, hvalues 4 5 (hspecial 5 (.inr rfl) ⟨_, rfl, rfl⟩)⟩

end Gehtp.Analysis.DeadCodeSound
