import Gehtp.Analysis.CseSound
import Gehtp.Analysis.ReaderLists

/-!
# The lists after a merge and after a sweep

Merging an operator into another one hands its readers over, and removing dead code only takes
entries away, so both keep the lists of readers. A sweep that finds nothing changes nothing, and
then every operator that is left has a live consumer.
-/

set_option autoImplicit false

namespace Gehtp.Analysis.PhasesTidy

open Model.OpGraph Model.Cse Model.OrderNodes Model.DeadCode Analysis.CseSound Analysis.ReaderLists

variable {params acyclic : Bool} {io : IoNodes}

/-! ### Common subexpressions -/

/-- What is left of the other operators after `a` has taken the place of `b`. -/
structure Merged (b a : ℕ) (l : List ℕ) (od od' : OpDef) (j : ℕ) : Prop where
  flags : od'.flags = od.flags
  params : od'.tensorParamIds = od.tensorParamIds
  inputs : od'.inputs = if j ∈ l then od.inputs.map (redirectInput b a) else od.inputs
  consumers : ∀ c ∈ od'.consumers, c ∈ od.consumers ∨ (j = a ∧ c ∈ l)

namespace Merged

variable {b a j : ℕ} {l : List ℕ} {od od' : OpDef} (h : Merged b a l od od' j)
include h

theorem alive : isAlive od' = isAlive od := by
  unfold isAlive OpDef.isEnabled OpDef.isDead
  rw [h.flags]

theorem isConst : od'.isConst = od.isConst := by
  unfold OpDef.isConst
  rw [h.flags]

theorem inputs_nil (hnil : od.inputs = []) : od'.inputs = [] := by
  rw [h.inputs, hnil, List.map_nil, ite_self]

end Merged

theorem tidy_merged {get get' : ℕ → Option OpDef} (h : Tidy params acyclic io get) {a b : ℕ}
    {od existing : OpDef} (hb : get b = some od) (ha : get a = some existing)
    (hbalive : isAlive od = true) (hbconst : od.isConst = false)
    (hsame : existing.inputs = od.inputs)
    (hget : ∀ j oj', get' j = some oj' → j ≠ b ∧ ∃ oj, get j = some oj ∧
      Merged b a od.consumers oj oj' j) :
    Tidy params acyclic io get' := by
  constructor
  · intro s os' hos' hsalive c hc oc' hoc' hcalive
    obtain ⟨hsb, os, hos, hms⟩ := hget s os' hos'
    obtain ⟨-, oc, hoc, hmc⟩ := hget c oc' hoc'
    rw [hms.alive] at hsalive
    rw [hmc.alive] at hcalive
    obtain hmem | ⟨rfl, hmem⟩ := hms.consumers c hc
    · apply reads_redirect oc b a hmc.params _ hsb
        (h.readers s os hos hsalive c hmem oc hoc hcalive)
      rw [hmc.inputs]
      split
      · exact Or.inr rfl
      · exact Or.inl rfl
    · apply reads_redirected oc b
      · rw [hmc.inputs, if_pos hmem]
      · exact h.input_of_reads hb hoc hbconst
          (h.readers b od hb hbalive c hmem oc hoc hcalive)
  · intro hacyclic
    obtain ⟨rank, hrank⟩ := h.ranked hacyclic
    -- the operator that is kept takes the lower of the two places
    refine ⟨Function.update rank a (min (rank a) (rank b)), fun c oc' hoc' conn' hconn' s' hs' => ?_⟩
    obtain ⟨-, oc, hoc, hmc⟩ := hget c oc' hoc'
    obtain ⟨-, s, hs, -⟩ := hget _ s' hs'
    have hlow : ∀ i, Function.update rank a (min (rank a) (rank b)) i ≤ rank i := by
      intro i
      by_cases hi : i = a
      · rw [hi, Function.update_self]
        exact min_le_left _ _
      · rw [Function.update_of_ne hi]
    have hold : conn' ∈ oc.inputs → Function.update rank a (min (rank a) (rank b)) conn'.srcId <
        Function.update rank a (min (rank a) (rank b)) c := by
      intro hconn
      have hlt := hrank c oc hoc conn' hconn s hs
      by_cases hc : c = a
      · rw [hc] at hoc hlt ⊢
        rw [ha] at hoc
        cases hoc
        rw [Function.update_self]
        have hltb := hrank b od hb conn' (hsame ▸ hconn) s hs
        exact lt_min (lt_of_le_of_lt (hlow _) hlt) (lt_of_le_of_lt (hlow _) hltb)
      · rw [Function.update_of_ne hc]
        exact lt_of_le_of_lt (hlow _) hlt
    rw [hmc.inputs] at hconn'
    split at hconn'
    · obtain ⟨conn, hconn, rfl⟩ := List.mem_map.mp hconn'
      by_cases hsrc : conn.srcId = b
      · have hlt := hrank c oc hoc conn hconn od (hsrc ▸ hb)
        rw [hsrc] at hlt
        have hca : c ≠ a := by
          intro heq
          rw [heq, ha] at hoc
          cases hoc
          have hself := hrank b od hb conn (hsame ▸ hconn) od (hsrc ▸ hb)
          rw [hsrc] at hself
          exact lt_irrefl _ hself
        have hnew : (redirectInput b a conn).srcId = a := by
          unfold redirectInput
          rw [if_pos hsrc]
        rw [hnew, Function.update_self, Function.update_of_ne hca]
        exact lt_of_le_of_lt (min_le_right _ _) hlt
      · have hkept : redirectInput b a conn = conn := if_neg hsrc
        rw [hkept] at hold ⊢
        exact hold hconn
    · exact hold hconn'
  · intro oi' hoi'
    obtain ⟨-, oi, hoi, hm⟩ := hget _ oi' hoi'
    obtain ⟨hnil, hparams⟩ := h.source oi hoi
    rw [hm.params]
    exact ⟨hm.inputs_nil hnil, hparams⟩
  · intro hp i oi' hoi' hconst
    obtain ⟨-, oi, hoi, hm⟩ := hget i oi' hoi'
    rw [hm.isConst] at hconst
    obtain ⟨hnil, hparams⟩ := h.constants hp i oi hoi hconst
    rw [hm.params]
    exact ⟨hm.inputs_nil hnil, hparams⟩
  · intro hp c oc' hoc' t ht pc' hpc'
    obtain ⟨-, oc, hoc, hmc⟩ := hget c oc' hoc'
    obtain ⟨-, pc, hpc, hmp⟩ := hget t pc' hpc'
    rw [hmp.isConst]
    exact h.parameters hp c oc hoc t (hmc.params ▸ ht) pc hpc

/-- What holds after the entries `seen` have been visited. -/
structure WalkTidy (params acyclic : Bool) (io : IoNodes) (seen : List ℕ) (s : CseState) : Prop where
  tidy : Tidy params acyclic io (s.ops.eraseAll s.toRemove).getOpAt
  kept : ∀ sig a, s.cseMap sig = some a → a ∈ seen ∧ a ∉ s.toRemove
  removed : ∀ b ∈ s.toRemove, b ∈ seen

variable {ops : OpMap} {id : ℕ} {g : OpdefMap}

theorem getOpAt_eraseAll {l : List ℕ} {j : ℕ} {od : OpDef} :
    (ops.eraseAll l).getOpAt j = some od ↔ j ∉ l ∧ ops.getOpAt j = some od := by
  unfold OpMap.eraseAll
  simp only
  split
  · simp only [reduceCtorEq, false_iff, not_and]
    exact fun hno => absurd ‹j ∈ l› hno
  · simp only [*, not_false_eq_true, true_and]

/-- One visit keeps the lists tidy. -/
theorem WalkTidy.visit {cfg : CseConfig} {seen : List ℕ} {s : CseState}
    (h : WalkTidy params acyclic io seen s) (hid : id ∉ seen) :
    WalkTidy params acyclic io (seen ++ [id]) (visit cfg s id) := by
  unfold Model.Cse.visit
  split
  · rename_i od existing hm
    obtain ⟨hod, hcand, ⟨a, ha, hex⟩, hsame⟩ := mergeAt_eq_some.mp hm
    obtain ⟨haseen, hakept⟩ := h.kept _ a ha
    have hne : a ≠ id := fun heq => hid (heq ▸ haseen)
    have hida : existing.opId = a := s.ops.keyed a existing hex
    have hidb : od.opId = id := s.ops.keyed id od hod
    have hget : ∀ j, (supersede s od existing.opId).ops.getOpAt j =
        (s.ops.getOpAt j).map (redirected s.ops id a od.consumers j) := by
      intro j
      rw [supersede, hida, hidb]
      exact foldl_redirectConsumer hne od.consumers s.ops j
    have hremove : (supersede s od existing.opId).toRemove = s.toRemove ++ [id] := by
      rw [supersede, hidb]
    have hcand' := hcand
    simp only [candidate, Bool.and_eq_true, Bool.not_eq_true'] at hcand'
    obtain ⟨⟨⟨⟨⟨hen, hconst⟩, hdead⟩, -⟩, -⟩, -⟩ := hcand'
    refine ⟨?_, fun sig c hc => ?_, fun c hc => ?_⟩
    · apply tidy_merged h.tidy (getOpAt_eraseAll.mpr ⟨fun hr => hid (h.removed id hr), hod⟩)
        (getOpAt_eraseAll.mpr ⟨hakept, hex⟩) (isAlive_iff.mpr ⟨hen, hdead⟩) hconst hsame
      intro j oj' hoj'
      rw [getOpAt_eraseAll, hremove, hget, List.mem_append, List.mem_singleton, not_or] at hoj'
      obtain ⟨⟨hjr, hjid⟩, hoj'⟩ := hoj'
      obtain ⟨oj, hoj, rfl⟩ := Option.map_eq_some_iff.mp hoj'
      refine ⟨hjid, oj, getOpAt_eraseAll.mpr ⟨hjr, hoj⟩, rfl, rfl, rfl, fun c hc => ?_⟩
      unfold redirected at hc
      simp only at hc
      split at hc
      · rename_i hja
        obtain hc | hc := List.mem_append.mp hc
        · exact Or.inl hc
        · exact Or.inr ⟨hja, (List.mem_filter.mp hc).1⟩
      · exact Or.inl hc
    · obtain ⟨hcseen, hckept⟩ := h.kept sig c hc
      rw [hremove]
      refine ⟨List.mem_append_left _ hcseen, fun hr => ?_⟩
      obtain hr | hr := List.mem_append.mp hr
      · exact hckept hr
      · exact hid (List.mem_singleton.mp hr ▸ hcseen)
    · rw [hremove] at hc
      obtain hc | hc := List.mem_append.mp hc
      · exact List.mem_append_left _ (h.removed c hc)
      · exact List.mem_append_right _ hc
  · have hskip : WalkTidy params acyclic io (seen ++ [id]) s :=
      ⟨h.tidy, fun sig a ha => ⟨List.mem_append_left _ (h.kept sig a ha).1, (h.kept sig a ha).2⟩,
        fun b hb => List.mem_append_left _ (h.removed b hb)⟩
    unfold keep
    split
    · exact hskip
    · rename_i od hod
      split
      · refine ⟨h.tidy, fun sig a ha => ?_, hskip.removed⟩
        simp only at ha
        by_cases hsig : sig = computeSignature od
        · rw [hsig, Function.update_self, s.ops.keyed id od hod] at ha
          cases ha
          exact ⟨List.mem_append_right _ (List.mem_singleton_self id),
            fun hr => hid (h.removed id hr)⟩
        · rw [Function.update_of_ne hsig] at ha
          exact hskip.kept sig a ha
      · exact hskip

/-- So does the walk over all keys. -/
theorem walkTidy_walk (cfg : CseConfig) (h : Tidy params acyclic io ops.getOpAt) (pre : List ℕ)
    (hnodup : pre.Nodup) : WalkTidy params acyclic io pre (walk cfg ops pre) := by
  induction pre using List.reverseRecOn with
  | nil =>
    refine ⟨h.shrink (shrunk_eraseAll ops []), fun sig a ha => ?_, fun b hb => ?_⟩
    · cases ha
    · cases hb
  | append_singleton pre id ih =>
    rw [walk_concat]
    rw [List.nodup_append] at hnodup
    apply (ih hnodup.1).visit
    intro hmem
    exact hnodup.2.2 id hmem id (List.mem_singleton_self id) rfl

/-! ### The two phases -/

/-- The operator is no dead code. -/
def Kept (io : IoNodes) (ops : OpMap) (id : ℕ) : Prop :=
  ∀ od, ops.getOpAt id = some od → isAlive od = true → id ≠ io.outputNodeId →
    id ≠ io.inputNodeId → hasLiveConsumer ops od = true

variable (io) in
/-- The operator is kept or put down for deletion. -/
theorem sweepAt_cases (s : Sweep) (id : ℕ) :
    (sweepAt io s id = s ∧ Kept io s.ops id) ∨
      (sweepAt io s id).toDelete = s.toDelete ++ [id] := by
  unfold sweepAt Kept
  split
  · rename_i hnone
    left
    refine ⟨rfl, fun od hod => ?_⟩
    rw [hnone] at hod
    cases hod
  · rename_i od hod
    split
    · exact Or.inr rfl
    · rename_i hno
      left
      refine ⟨rfl, fun od' hod' halive hout hin => ?_⟩
      rw [hod] at hod'
      cases hod'
      by_contra hdead
      apply hno
      rw [Bool.and_eq_true, Bool.and_eq_true, Bool.and_eq_true, Bool.not_eq_true']
      exact ⟨⟨⟨halive, decide_eq_true hout⟩, decide_eq_true hin⟩, Bool.eq_false_iff.mpr hdead⟩

theorem foldl_sweepAt_nil {l : List ℕ} {s : Sweep}
    (h : (l.foldl (sweepAt io) s).toDelete = []) :
    l.foldl (sweepAt io) s = s ∧ ∀ id ∈ l, Kept io s.ops id := by
  induction l generalizing s with
  | nil => exact ⟨rfl, fun id hid => (List.not_mem_nil hid).elim⟩
  | cons id l ih =>
    rw [List.foldl_cons] at h ⊢
    obtain ⟨hsame, hall⟩ := ih h
    obtain ⟨hskip, hkept⟩ | hadd := sweepAt_cases io s id
    · rw [hskip] at hsame hall ⊢
      refine ⟨hsame, fun id' hid' => ?_⟩
      obtain rfl | hid' := List.mem_cons.mp hid'
      · exact hkept
      · exact hall id' hid'
    · rw [hsame, hadd] at h
      cases List.append_eq_nil_iff.mp h with
      | intro _ hnil => cases hnil

theorem mem_foldl_sweepAt {l : List ℕ} {s : Sweep} (h : id ∈ (l.foldl (sweepAt io) s).toDelete) :
    id ∈ s.toDelete ∨ id ∈ l := by
  induction l generalizing s with
  | nil => exact Or.inl h
  | cons x l ih =>
    obtain hmem | hmem := ih h
    · obtain ⟨hskip, -⟩ | hadd := sweepAt_cases io s x
      · rw [hskip] at hmem
        exact Or.inl hmem
      · rw [hadd] at hmem
        obtain hmem | hmem := List.mem_append.mp hmem
        · exact Or.inl hmem
        · exact Or.inr (List.mem_singleton.mp hmem ▸ List.mem_cons_self)
    · exact Or.inr (List.mem_cons_of_mem _ hmem)

/-- What both phases keep of a map. -/
structure Clean (params acyclic : Bool) (io : IoNodes) (g : OpdefMap) : Prop where
  tidy : Tidy params acyclic io g.ops.getOpAt
  covered : ∀ i, (g.ops.getOpAt i).isSome = true → i ∈ g.keys

theorem isSome_of_shrunk {get get' : ℕ → Option OpDef} (h : Shrunk get get') {i : ℕ}
    (hi : (get' i).isSome = true) : (get i).isSome = true := by
  obtain ⟨od', hod'⟩ := Option.isSome_iff_exists.mp hi
  obtain ⟨od, hod, -⟩ := h i od' hod'
  exact Option.isSome_iff_exists.mpr ⟨od, hod⟩

theorem deleteOp_self (ops : OpMap) (id : ℕ) : (deleteOp ops id).getOpAt id = none := by
  unfold deleteOp
  split
  · assumption
  · exact if_pos (List.mem_singleton_self id)

theorem foldl_deleteOp_none {l : List ℕ} (h : id ∈ l) :
    (l.foldl deleteOp ops).getOpAt id = none := by
  induction l generalizing ops with
  | nil => cases h
  | cons x l ih =>
    rw [List.foldl_cons]
    obtain rfl | h := List.mem_cons.mp h
    · by_contra hno
      have hsome := isSome_of_shrunk (shrunk_foldl shrunk_deleteOp l (deleteOp ops id))
        (Option.isSome_iff_ne_none.mpr hno)
      rw [deleteOp_self] at hsome
      cases hsome
    · exact ih h

theorem clean_eraseKeys (h : Clean params acyclic io g) {l : List ℕ}
    (htidy : Tidy params acyclic io ops.getOpAt)
    (hpresent : ∀ i, (ops.getOpAt i).isSome = true → (g.ops.getOpAt i).isSome = true)
    (hgone : ∀ i ∈ l, ops.getOpAt i = none) : Clean params acyclic io (eraseKeys g l ops) := by
  refine ⟨htidy, fun i hi => List.mem_filter.mpr ⟨h.covered i (hpresent i hi), ?_⟩⟩
  apply decide_eq_true
  intro hl
  have hi' : (ops.getOpAt i).isSome = true := hi
  rw [hgone i hl] at hi'
  cases hi'

theorem clean_rounds (n : ℕ) (h : Clean params acyclic io g) (count : ℕ) :
    Clean params acyclic io (rounds io n g count).2 := by
  induction n generalizing g count with
  | zero => exact h
  | succ n ih =>
    unfold rounds
    simp only
    split
    · exact ⟨h.tidy.shrink (shrunk_sweep g),
        fun i hi => h.covered i (isSome_of_shrunk (shrunk_sweep g) hi)⟩
    · have hshrunk : Shrunk g.ops.getOpAt
          ((sweep io g).toDelete.foldl deleteOp (sweep io g).ops).getOpAt :=
        (shrunk_sweep g).trans (shrunk_foldl shrunk_deleteOp _ _)
      apply ih
      apply clean_eraseKeys h (h.tidy.shrink hshrunk) (fun i => isSome_of_shrunk hshrunk)
      intro i hi
      exact foldl_deleteOp_none hi

theorem eraseKeys_le (g : OpdefMap) (l : List ℕ) (ops : OpMap) :
    (eraseKeys g l ops).keys.length ≤ g.keys.length := List.length_filter_le _ _

theorem eraseKeys_lt {l : List ℕ} (h : ∃ id ∈ l, id ∈ g.keys) :
    (eraseKeys g l ops).keys.length < g.keys.length := by
  obtain ⟨id, hl, hkeys⟩ := h
  apply List.length_filter_lt_length_iff_exists.mpr
  exact ⟨id, hkeys, by simpa using hl⟩

theorem rounds_le (n : ℕ) (g : OpdefMap) (count : ℕ) :
    (rounds io n g count).2.keys.length ≤ g.keys.length := by
  induction n generalizing g count with
  | zero => exact le_rfl
  | succ n ih =>
    unfold rounds
    simp only
    split
    · exact le_rfl
    · exact (ih _ _).trans (eraseKeys_le g _ _)

theorem sweep_in_keys (h : (sweep io g).toDelete ≠ []) :
    ∃ id ∈ (sweep io g).toDelete, id ∈ g.keys := by
  obtain ⟨id, hid⟩ := List.exists_mem_of_ne_nil _ h
  obtain hmem | hmem := mem_foldl_sweepAt hid
  · cases hmem
  · exact ⟨id, hid, hmem⟩

theorem toDelete_sublist (io : IoNodes) (l : List ℕ) (s : Sweep) :
    ∃ sub, (l.foldl (sweepAt io) s).toDelete = s.toDelete ++ sub ∧ sub.Sublist l := by
  induction l generalizing s with
  | nil => exact ⟨[], (List.append_nil _).symm, List.Sublist.refl _⟩
  | cons i l ih =>
    obtain ⟨sub, hsub, hle⟩ := ih (sweepAt io s i)
    rw [List.foldl_cons, hsub]
    rcases sweepAt_cases io s i with ⟨hsame, -⟩ | hadd
    · exact ⟨sub, by rw [hsame], hle.cons i⟩
    · exact ⟨i :: sub, by rw [hadd, List.append_assoc]; rfl, hle.cons_cons i⟩

theorem length_eraseKeys {l : List ℕ} (g : OpdefMap) (h : l.Sublist g.keys) (ops : OpMap) :
    l.length + (eraseKeys g l ops).keys.length = g.keys.length := by
  have hperm : (g.keys.filter fun i => decide (i ∈ l)).Perm l := by
    apply (List.perm_ext_iff_of_nodup (g.keys_nodup.filter _) (g.keys_nodup.sublist h)).mpr
    intro i
    rw [List.mem_filter, decide_eq_true_eq]
    exact and_iff_right_of_imp fun hi => h.subset hi
  rw [← hperm.length_eq, eraseKeys]
  simp only [decide_not]
  exact (List.length_eq_length_filter_add _).symm

/-- The deletions are counted right. -/
theorem rounds_count (io : IoNodes) (n : ℕ) (g : OpdefMap) (count : ℕ) :
    (rounds io n g count).1 + (rounds io n g count).2.keys.length = count + g.keys.length := by
  induction n generalizing g count with
  | zero => rfl
  | succ n ih =>
    unfold rounds
    dsimp only
    split
    · rfl
    · obtain ⟨sub, hsub, hle⟩ := toDelete_sublist io g.keys ⟨g.ops, []⟩
      have hsub' : (sweep io g).toDelete.Sublist g.keys := by
        rw [sweep, hsub]
        exact hle
      have hlen := length_eraseKeys g hsub' ((sweep io g).toDelete.foldl deleteOp (sweep io g).ops)
      rw [ih]
      omega

theorem toInt_of_lt {n : ℕ} (h : n < 2 ^ 31) : toInt n = n := by
  unfold toInt
  split <;> omega

theorem removeDeadCode_zero (hsize : g.keys.length < 2 ^ 31) (h : (removeDeadCode io g).1 = 0) :
    (removeDeadCode io g).2 = g ∧ ∀ id ∈ g.keys, Kept io g.ops id := by
  have hcount := rounds_count io (g.keys.length + 1) g 0
  unfold removeDeadCode at h ⊢
  simp only at h ⊢
  rw [toInt_of_lt (by omega)] at h
  unfold rounds at h hcount ⊢
  dsimp only at h hcount ⊢
  split at h
  · rename_i hnil
    obtain ⟨hsame, hkept⟩ := foldl_sweepAt_nil hnil
    rw [if_pos hnil]
    refine ⟨?_, hkept⟩
    have hops : (sweep io g).ops = g.ops := congrArg Sweep.ops hsame
    simp only [hops]
  · rename_i hsome
    rw [if_neg hsome] at hcount
    have hless : (eraseKeys g (sweep io g).toDelete
        ((sweep io g).toDelete.foldl deleteOp (sweep io g).ops)).keys.length < g.keys.length :=
      eraseKeys_lt (sweep_in_keys hsome)
    have hle := (@rounds_le io g.keys.length _ (0 + (sweep io g).toDelete.length)).trans_lt hless
    omega

/-- Dead-code removal keeps the lists tidy. -/
theorem clean_removeDeadCode (h : Clean params acyclic io g) :
    Clean params acyclic io (removeDeadCode io g).2 := clean_rounds _ h 0

theorem isSome_visit (cfg : CseConfig) (s : CseState) (id i : ℕ) :
    ((visit cfg s id).ops.getOpAt i).isSome = (s.ops.getOpAt i).isSome := by
  have hfold : ∀ (b a : ℕ) (l : List ℕ) (ops : OpMap),
      ((l.foldl (redirectConsumer b a) ops).getOpAt i).isSome = (ops.getOpAt i).isSome := by
    intro b a l
    induction l with
    | nil => exact fun _ => rfl
    | cons c l ih =>
      intro ops
      rw [List.foldl_cons, ih, redirectConsumer_getOpAt, Option.isSome_map]
  unfold Model.Cse.visit
  split
  · exact hfold _ _ _ _
  · unfold keep
    split
    · rfl
    · split <;> rfl

theorem isSome_walk (cfg : CseConfig) (ops : OpMap) (l : List ℕ) (i : ℕ) :
    ((walk cfg ops l).ops.getOpAt i).isSome = (ops.getOpAt i).isSome := by
  induction l using List.reverseRecOn with
  | nil => rfl
  | append_singleton l id ih => rw [walk_concat, isSome_visit, ih]

theorem keep_same (cfg : CseConfig) (s : CseState) (id : ℕ) :
    (keep cfg s id).ops = s.ops ∧ (keep cfg s id).toRemove = s.toRemove := by
  unfold keep
  split
  · exact ⟨rfl, rfl⟩
  · split <;> exact ⟨rfl, rfl⟩

theorem walk_nil {cfg : CseConfig} {l : List ℕ} (h : (walk cfg ops l).toRemove = []) :
    (walk cfg ops l).ops = ops := by
  induction l using List.reverseRecOn with
  | nil => rfl
  | append_singleton l id ih =>
    rw [walk_concat] at h ⊢
    unfold Model.Cse.visit at h ⊢
    cases hm : mergeAt cfg (walk cfg ops l) id with
    | none =>
      simp only [hm] at h ⊢
      rw [(keep_same cfg _ id).2] at h
      rw [(keep_same cfg _ id).1]
      exact ih h
    | some p =>
      simp only [hm, supersede] at h
      cases List.append_eq_nil_iff.mp h with
      | intro _ hnil => cases hnil

/-- So does the merging. -/
theorem clean_cse (h : Clean params acyclic io g) : Clean params acyclic io (cse io g).2 := by
  have hwalk := walkTidy_walk (cseConfig io g.keys) h.tidy g.keys g.keys_nodup
  refine clean_eraseKeys h hwalk.tidy (fun i hi => ?_) fun i hi => if_pos hi
  obtain ⟨od, hod⟩ := Option.isSome_iff_exists.mp hi
  obtain ⟨-, hod⟩ := getOpAt_eraseAll.mp hod
  rw [← isSome_walk (cseConfig io g.keys) g.ops g.keys]
  exact Option.isSome_iff_exists.mpr ⟨od, hod⟩

theorem toRemove_sublist (cfg : CseConfig) (ops : OpMap) (l : List ℕ) :
    (walk cfg ops l).toRemove.Sublist l := by
  induction l using List.reverseRecOn with
  | nil => exact List.Sublist.refl _
  | append_singleton l id ih =>
    rw [walk_concat]
    unfold Model.Cse.visit
    split
    · rename_i od existing hm
      have hid : od.opId = id := (walk cfg ops l).ops.keyed id od (mergeAt_eq_some.mp hm).1
      exact hid ▸ ih.append (List.Sublist.refl [od.opId])
    · rw [(keep_same cfg _ id).2]
      exact ih.trans (List.sublist_append_left l [id])

/-- Without a merge nothing has changed. -/
theorem cse_zero (hsize : g.keys.length < 2 ^ 31) (h : (cse io g).1 = 0) : (cse io g).2 = g := by
  have hnil : (walk (cseConfig io g.keys) g.ops g.keys).toRemove = [] := by
    have hle := (toRemove_sublist (cseConfig io g.keys) g.ops g.keys).length_le
    have hint : toInt (walk (cseConfig io g.keys) g.ops g.keys).toRemove.length = 0 := h
    rw [toInt_of_lt (by omega)] at hint
    exact List.length_eq_zero_iff.mp (Int.ofNat.inj hint)
  have hops : (commonSubexprEliminate (cseConfig io g.keys) g.ops false).ops = g.ops := by
    unfold commonSubexprEliminate
    simp only
    have hsame := walk_nil hnil
    rw [show (cseConfig io g.keys).keys = g.keys from rfl, hnil, hsame]
    unfold OpMap.eraseAll
    simp only [List.not_mem_nil, if_false]
  unfold cse eraseKeys
  simp only [hops, hnil, List.not_mem_nil, not_false_eq_true, decide_true, List.filter_true]

theorem removeDeadCode_le (g : OpdefMap) : (removeDeadCode io g).2.keys.length ≤ g.keys.length :=
  rounds_le _ g 0

theorem removeDeadCode_lt (h : (removeDeadCode io g).1 ≠ 0) :
    (removeDeadCode io g).2.keys.length < g.keys.length := by
  unfold removeDeadCode rounds at h ⊢
  simp only at h ⊢
  split at h
  · exact absurd rfl h
  · rename_i hsome
    rw [if_neg hsome]
    exact lt_of_le_of_lt (rounds_le _ _ _) (eraseKeys_lt (sweep_in_keys hsome))

theorem cse_le (g : OpdefMap) : (cse io g).2.keys.length ≤ g.keys.length := eraseKeys_le g _ _

theorem cse_lt (hg : Clean params acyclic io g) (h : (cse io g).1 ≠ 0) :
    (cse io g).2.keys.length < g.keys.length := by
  apply eraseKeys_lt
  have hwalk := walkTidy_walk (cseConfig io g.keys) hg.tidy g.keys g.keys_nodup
  have hsome : (walk (cseConfig io g.keys) g.ops g.keys).toRemove ≠ [] := by
    intro hnil
    apply h
    show toInt (walk (cseConfig io g.keys) g.ops g.keys).toRemove.length = 0
    rw [hnil]
    rfl
  obtain ⟨id, hid⟩ := List.exists_mem_of_ne_nil _ hsome
  exact ⟨id, hid, hwalk.removed id hid⟩

end Gehtp.Analysis.PhasesTidy
