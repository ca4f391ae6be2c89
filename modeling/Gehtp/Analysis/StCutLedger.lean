import Mathlib.Data.List.GetD
import Gehtp.Model.StCutGraph

/-!
# Undoing a trial cut

A trial cut connects nodes and removes edges, each call recorded in one ledger, and the ledger is
taken back from its end. The records of a weight undo what was recorded. The records of a pair name
the hosts of the two slots in the subtract sets the wrong way round, so that a pair is undone only
if it connects a node with itself.
-/

set_option autoImplicit false

namespace Gehtp.Analysis.StCutLedger

open Lib.SwapRemove Model.StCutGraph

/-! ### Tables -/

section Tables

theorem listRemove_perm (v : List ℕ) (x : ℕ) : (listRemove v x).Perm (v.erase x) := by
  unfold listRemove
  by_cases hx : x ∈ v
  · rw [if_pos hx]
    exact swapRemove_idxOf_perm 0 hx
  · rw [if_neg hx, List.erase_of_not_mem hx]

theorem grown_getD (sets : List (List ℕ)) (node n : ℕ) :
    (grown sets node).getD n [] = sets.getD n [] := by
  unfold grown
  by_cases h : sets.length ≤ node
  · rw [if_pos h]
    by_cases hn : n < sets.length
    · rw [List.getD_append _ _ _ _ hn]
    · have hge := Nat.le_of_not_lt hn
      rw [List.getD_append_right _ _ _ _ hge, List.getD_eq_default _ _ hge]
      simp only [List.getD_eq_getElem?_getD, List.getElem?_replicate]
      split <;> rfl
  · rw [if_neg h]

theorem lt_length_grown (sets : List (List ℕ)) (node : ℕ) : node < (grown sets node).length := by
  unfold grown
  split
  · rw [List.length_append, List.length_replicate]
    omega
  · omega

theorem length_le_grown (sets : List (List ℕ)) (node : ℕ) :
    sets.length ≤ (grown sets node).length := by
  unfold grown
  split
  · rw [List.length_append]
    exact Nat.le_add_right _ _
  · exact Nat.le_refl _

theorem getD_modify {sets : List (List ℕ)} {f : List ℕ → List ℕ} {node : ℕ}
    (hf : node < sets.length ∨ f [] = []) (n : ℕ) :
    (sets.modify node f).getD n [] =
      if n = node then f (sets.getD node []) else sets.getD n [] := by
  simp only [List.getD_eq_getElem?_getD, List.getElem?_modify]
  by_cases hn : n = node
  · subst hn
    rw [if_pos rfl]
    by_cases hlt : n < sets.length
    · simp [hlt]
    · simp [hlt, hf.resolve_left hlt]
  · rw [if_neg hn]
    cases sets[n]? with
    | none => rfl
    | some v => simp [Ne.symm hn]

theorem listRemove_nil (x : ℕ) : listRemove [] x = [] := rfl

variable (ctx : StCutContext) (node e n : ℕ)

@[simp] theorem adds_addPush :
    (stcutAddPush ctx node e).adds n =
      if n = node then ctx.adds node ++ [e] else ctx.adds n := by
  unfold stcutAddPush StCutContext.adds
  dsimp only
  rw [getD_modify (Or.inl (lt_length_grown ctx.addSet node)), grown_getD, grown_getD]

@[simp] theorem subs_addPush : (stcutAddPush ctx node e).subs n = ctx.subs n := rfl

@[simp] theorem adds_subPush : (stcutSubPush ctx node e).adds n = ctx.adds n := rfl

@[simp] theorem subs_subPush :
    (stcutSubPush ctx node e).subs n =
      if n = node then ctx.subs node ++ [e] else ctx.subs n := by
  unfold stcutSubPush StCutContext.subs
  dsimp only
  rw [getD_modify (Or.inl (lt_length_grown ctx.subtractSet node)), grown_getD, grown_getD]

@[simp] theorem adds_addRemove :
    (addRemove ctx node e).adds n =
      if n = node then listRemove (ctx.adds node) e else ctx.adds n :=
  getD_modify (f := fun v => listRemove v e) (Or.inr (listRemove_nil e)) n

@[simp] theorem subs_addRemove : (addRemove ctx node e).subs n = ctx.subs n := rfl

@[simp] theorem adds_subRemove : (subRemove ctx node e).adds n = ctx.adds n := rfl

@[simp] theorem subs_subRemove :
    (subRemove ctx node e).subs n =
      if n = node then listRemove (ctx.subs node) e else ctx.subs n :=
  getD_modify (f := fun v => listRemove v e) (Or.inr (listRemove_nil e)) n

theorem slot_setWeight (weight : UInt64) :
    (setWeight ctx e weight).slot n =
      if n = e ∧ e < ctx.weightTable.length then { ctx.slot e with weight := weight }
      else ctx.slot n := by
  unfold setWeight StCutContext.slot
  simp only [List.getD_eq_getElem?_getD, List.getElem?_modify]
  by_cases hn : n = e
  · subst hn
    by_cases hlt : n < ctx.weightTable.length
    · simp [hlt]
    · simp [hlt]
  · rw [if_neg (fun h => hn h.1)]
    cases ctx.weightTable[n]? with
    | none => rfl
    | some s => simp [Ne.symm hn]

end Tables

/-! ### Pairs -/

section Pairs

/-- Slot A of a pair that is linked: it names the successor and is in the sets of the edge; its
partner names the predecessor, has the flag 4, and is in the other two sets. -/
structure IsEdge (ctx : StCutContext) (a : ℕ) : Prop where
  partner : (ctx.slot (ctx.slot a).idx).idx = a
  soft : (ctx.slot a).crosses = false
  hard : (ctx.slot (ctx.slot a).idx).crosses = true
  addPred : a ∈ ctx.adds (ctx.peer a)
  subSucc : a ∈ ctx.subs (ctx.slot a).canon
  addSucc : (ctx.slot a).idx ∈ ctx.adds (ctx.slot a).canon
  subPred : (ctx.slot a).idx ∈ ctx.subs (ctx.peer a)

def InPair (ctx : StCutContext) (e : ℕ) : Prop :=
  (ctx.slot (ctx.slot e).idx).idx = e ∧ (IsEdge ctx e ∨ IsEdge ctx (ctx.slot e).idx)

def Linked (ctx : StCutContext) (e : ℕ) : Prop := ∃ n, e ∈ ctx.adds n ∨ e ∈ ctx.subs n

/-- The pair invariant of st_cut.hpp:239-243: the slots in the sets are those of linked pairs, each
in its places, and the free slots are not in the sets. -/
structure PairInvariant (ctx : StCutContext) : Prop where
  adds : ∀ n < ctx.addSet.length, ∀ e ∈ ctx.adds n,
    e < ctx.weightTable.length ∧ InPair ctx e ∧ ctx.peer e = n
  subs : ∀ n < ctx.subtractSet.length, ∀ e ∈ ctx.subs n,
    e < ctx.weightTable.length ∧ InPair ctx e ∧ (ctx.slot e).canon = n
  freeLt : ∀ e ∈ ctx.freeWeightSlots, e < ctx.weightTable.length
  freeNodup : ctx.freeWeightSlots.Nodup
  freeAdds : ∀ set ∈ ctx.addSet, ∀ e ∈ set, e ∉ ctx.freeWeightSlots
  freeSubs : ∀ set ∈ ctx.subtractSet, ∀ e ∈ set, e ∉ ctx.freeWeightSlots

/-- What the sets, the table and the free slots have to do with each other. -/
structure InUse (ctx : StCutContext) : Prop where
  linked : ∀ e, Linked ctx e → e < ctx.weightTable.length ∧ e ∉ ctx.freeWeightSlots
  freeLt : ∀ e ∈ ctx.freeWeightSlots, e < ctx.weightTable.length
  freeNodup : ctx.freeWeightSlots.Nodup

theorem exists_of_mem_getD {sets : List (List ℕ)} {n e : ℕ} (he : e ∈ sets.getD n []) :
    n < sets.length ∧ ∃ set ∈ sets, e ∈ set := by
  have hn : n < sets.length := by
    by_contra hge
    rw [List.getD_eq_default _ _ (Nat.le_of_not_lt hge)] at he
    exact absurd he List.not_mem_nil
  rw [List.getD_eq_getElem _ _ hn] at he
  exact ⟨hn, sets[n], List.getElem_mem hn, he⟩

theorem PairInvariant.inUse {ctx : StCutContext} (h : PairInvariant ctx) : InUse ctx := by
  refine ⟨?_, h.freeLt, h.freeNodup⟩
  rintro e ⟨n, hadd | hsub⟩
  · obtain ⟨hn, set, hset, he⟩ := exists_of_mem_getD hadd
    exact ⟨(h.adds n hn e hadd).1, h.freeAdds set hset e he⟩
  · obtain ⟨hn, set, hset, he⟩ := exists_of_mem_getD hsub
    exact ⟨(h.subs n hn e hsub).1, h.freeSubs set hset e he⟩

/-- The slots that the rest of the program may still put in a pair are not among these. -/
def Kept (ctx : StCutContext) (e : ℕ) : Prop :=
  e < ctx.weightTable.length ∧ e ∉ ctx.freeWeightSlots

/-- What a new pair changes. -/
structure IsNewPair (ctx ctx' : StCutContext) (a b src dst : ℕ) : Prop where
  sets : ctx'.addSet = ctx.addSet ∧ ctx'.subtractSet = ctx.subtractSet
  ne : a ≠ b
  first : Kept ctx' a ∧ (ctx'.slot a).canon = dst ∧ (ctx'.slot a).idx = b
  second : Kept ctx' b ∧ (ctx'.slot b).canon = src ∧ (ctx'.slot b).idx = a
  old : ∀ e, Kept ctx e → Kept ctx' e ∧ ctx'.slot e = ctx.slot e
  free : ctx'.freeWeightSlots.Nodup ∧ ∀ e ∈ ctx'.freeWeightSlots, e < ctx'.weightTable.length

theorem appendPair_isNewPair {ctx : StCutContext} (h : InUse ctx) (src dst : ℕ)
    (threshold : UInt64) :
    IsNewPair ctx (appendPair ctx src dst threshold).1 ctx.weightTable.length
      (ctx.weightTable.length + 1) src dst := by
  have hfree : ∀ k, ctx.weightTable.length ≤ k → k ∉ ctx.freeWeightSlots := fun k hk hmem =>
    absurd (h.freeLt k hmem) (Nat.not_lt_of_le hk)
  have hlen : (appendPair ctx src dst threshold).1.weightTable.length =
      ctx.weightTable.length + 2 := by simp [appendPair]
  constructor
  · exact ⟨rfl, rfl⟩
  · omega
  · refine ⟨⟨by omega, hfree _ (Nat.le_refl _)⟩, ?_⟩
    simp [appendPair, StCutContext.slot, List.getD_eq_getElem?_getD]
  · refine ⟨⟨by omega, hfree _ (Nat.le_succ _)⟩, ?_⟩
    simp [appendPair, StCutContext.slot, List.getD_eq_getElem?_getD]
  · rintro e ⟨hlt, hnot⟩
    refine ⟨⟨by omega, hnot⟩, ?_⟩
    exact List.getD_append _ _ _ _ hlt
  · refine ⟨h.freeNodup, fun e he => ?_⟩
    have hlt := h.freeLt e he
    omega

theorem newPair_isNewPair {ctx : StCutContext} (h : InUse ctx) (src dst : ℕ) (threshold : UInt64) :
    IsNewPair ctx (newPair ctx src dst threshold).1 (newPair ctx src dst threshold).2.1
      (newPair ctx src dst threshold).2.2 src dst := by
  unfold newPair
  split
  · rename_i a b free hfree
    split
    · have hnodup := h.freeNodup
      rw [hfree, List.nodup_cons, List.nodup_cons] at hnodup
      have hlt : ∀ e ∈ a :: b :: free, e < ctx.weightTable.length := fun e he =>
        h.freeLt e (hfree ▸ he)
      have ha := hlt a (by simp)
      have hb := hlt b (by simp)
      have hne : a ≠ b := fun heq => hnodup.1 (heq ▸ List.mem_cons_self)
      have hlen : ((ctx.weightTable.set a ⟨dst, b, threshold, 0⟩).set b
          ⟨src, a, stcutMaxWeight, ctx.mode ||| 4⟩).length = ctx.weightTable.length := by simp
      constructor
      · exact ⟨rfl, rfl⟩
      · exact hne
      · refine ⟨⟨by dsimp only; omega, fun hmem => hnodup.1 (List.mem_cons_of_mem b hmem)⟩, ?_⟩
        simp [StCutContext.slot, List.getD_eq_getElem?_getD, hne.symm, ha]
      · refine ⟨⟨by dsimp only; omega, hnodup.2.1⟩, ?_⟩
        simp [StCutContext.slot, List.getD_eq_getElem?_getD, hb]
      · rintro e ⟨hlt, hnot⟩
        rw [hfree, List.mem_cons, List.mem_cons, not_or, not_or] at hnot
        refine ⟨⟨by dsimp only; omega, hnot.2.2⟩, ?_⟩
        simp [StCutContext.slot, List.getD_eq_getElem?_getD, Ne.symm hnot.1, Ne.symm hnot.2.1]
      · refine ⟨hnodup.2.2, fun e he => ?_⟩
        have := hlt e (List.mem_cons_of_mem a (List.mem_cons_of_mem b he))
        dsimp only
        omega
    · exact appendPair_isNewPair h src dst threshold
  · exact appendPair_isNewPair h src dst threshold

theorem InPair.self {ctx : StCutContext} {e : ℕ} (h : InPair ctx e)
    (hself : (ctx.slot e).canon = ctx.peer e) :
    e ≠ (ctx.slot e).idx ∧ (e ∈ ctx.adds (ctx.peer e) ∧ (ctx.slot e).idx ∈ ctx.adds (ctx.peer e)) ∧
      e ∈ ctx.subs (ctx.peer e) ∧ (ctx.slot e).idx ∈ ctx.subs (ctx.peer e) := by
  obtain ⟨hback, hedge | hedge⟩ := h
  · have hne : e ≠ (ctx.slot e).idx := by
      intro heq
      have hsoft := hedge.soft
      rw [heq, hedge.hard] at hsoft
      cases hsoft
    exact ⟨hne, ⟨hedge.addPred, hself ▸ hedge.addSucc⟩, hself ▸ hedge.subSucc, hedge.subPred⟩
  · have hpeer : ctx.peer (ctx.slot e).idx = ctx.peer e := by
      unfold StCutContext.peer
      rw [hback]
      exact hself
    have hadd := hedge.addPred
    have hsub := hedge.subPred
    rw [hpeer] at hadd hsub
    rw [hback] at hsub
    have hne : e ≠ (ctx.slot e).idx := by
      intro heq
      have hhard := hedge.hard
      rw [hback, heq, hedge.soft] at hhard
      cases hhard
    have hadd' := hedge.addSucc
    rw [hback] at hadd'
    exact ⟨hne, ⟨hadd', hadd⟩, hsub, hedge.subSucc⟩

end Pairs

/-! ### Records -/

section Records

/-- The second context has what the first one has, up to the order of the sets. -/
structure Same (ctx ctx' : StCutContext) : Prop where
  adds : ∀ n, (ctx'.adds n).Perm (ctx.adds n)
  subs : ∀ n, (ctx'.subs n).Perm (ctx.subs n)
  slots : ∀ e, Kept ctx e → e < ctx'.weightTable.length ∧ ctx'.slot e = ctx.slot e
  addLen : ctx.addSet.length ≤ ctx'.addSet.length
  subLen : ctx.subtractSet.length ≤ ctx'.subtractSet.length

theorem Same.refl (ctx : StCutContext) : Same ctx ctx :=
  ⟨fun _ => .refl _, fun _ => .refl _, fun _ he => ⟨he.1, rfl⟩, Nat.le_refl _, Nat.le_refl _⟩

theorem undo_weight {ctx ctx' : StCutContext} {e : ℕ} (he : Kept ctx e) (w : UInt64)
    (hsame : Same (setWeight ctx e w) ctx') :
    Same ctx (replayRec ctx' ⟨e, (ctx.slot e).weight, 0⟩) := by
  have hlen : (setWeight ctx e w).weightTable.length = ctx.weightTable.length :=
    List.length_modify _ _ _
  have hkept : ∀ i, Kept ctx i → Kept (setWeight ctx e w) i := fun i hi => ⟨hlen ▸ hi.1, hi.2⟩
  have hreplay : replayRec ctx' ⟨e, (ctx.slot e).weight, 0⟩ =
      setWeight ctx' e (ctx.slot e).weight := by
    unfold replayRec
    rw [if_neg (Nat.not_le_of_lt (hsame.slots e (hkept e he)).1)]
    rfl
  rw [hreplay]
  refine ⟨hsame.adds, hsame.subs, ?_, hsame.addLen, hsame.subLen⟩
  intro i hi
  obtain ⟨hlt, hslot⟩ := hsame.slots i (hkept i hi)
  refine ⟨(List.length_modify _ _ _).symm ▸ hlt, ?_⟩
  rw [slot_setWeight] at hslot ⊢
  by_cases hie : i = e
  · subst hie
    rw [if_pos ⟨rfl, hi.1⟩] at hslot
    rw [if_pos ⟨rfl, hlt⟩, hslot]
  · rw [if_neg (fun h => hie h.1)] at hslot ⊢
    exact hslot

theorem Same.of_weight {ctx ctx' : StCutContext} {e : ℕ}
    (hsame : Same (setWeight ctx e (ctx.slot e).weight) ctx') : Same ctx ctx' := by
  have hlen : (setWeight ctx e (ctx.slot e).weight).weightTable.length = ctx.weightTable.length :=
    List.length_modify _ _ _
  refine ⟨hsame.adds, hsame.subs, ?_, hsame.addLen, hsame.subLen⟩
  intro i hi
  obtain ⟨hlt, hslot⟩ := hsame.slots i ⟨hlen.symm ▸ hi.1, hi.2⟩
  refine ⟨hlt, hslot.trans ?_⟩
  rw [slot_setWeight]
  split
  · rename_i h
    rw [h.1]
  · rfl

/-- Both slots of a pair go into the sets of one node. -/
def linkPair (ctx : StCutContext) (node a b : ℕ) : StCutContext :=
  stcutSubPush (stcutSubPush (stcutAddPush (stcutAddPush ctx node a) node b) node b) node a

/-- Both slots of a pair leave the sets of one node. -/
def unlinkPair (ctx : StCutContext) (node a b : ℕ) : StCutContext :=
  subRemove (subRemove (addRemove (addRemove ctx node a) node b) node b) node a

section Pair

variable (ctx : StCutContext) (node a b n : ℕ)

theorem adds_linkPair :
    (linkPair ctx node a b).adds n =
      if n = node then ctx.adds node ++ [a] ++ [b] else ctx.adds n := by
  simp only [linkPair, adds_subPush, adds_addPush, if_true]
  by_cases hn : n = node
  · rw [if_pos hn, if_pos hn]
  · rw [if_neg hn, if_neg hn, if_neg hn]

theorem subs_linkPair :
    (linkPair ctx node a b).subs n =
      if n = node then ctx.subs node ++ [b] ++ [a] else ctx.subs n := by
  simp only [linkPair, subs_subPush, subs_addPush, if_true]
  by_cases hn : n = node
  · rw [if_pos hn, if_pos hn]
  · rw [if_neg hn, if_neg hn, if_neg hn]

theorem adds_unlinkPair :
    (unlinkPair ctx node a b).adds n =
      if n = node then listRemove (listRemove (ctx.adds node) a) b else ctx.adds n := by
  simp only [unlinkPair, adds_subRemove, adds_addRemove, if_true]
  by_cases hn : n = node
  · rw [if_pos hn, if_pos hn]
  · rw [if_neg hn, if_neg hn, if_neg hn]

theorem subs_unlinkPair :
    (unlinkPair ctx node a b).subs n =
      if n = node then listRemove (listRemove (ctx.subs node) b) a else ctx.subs n := by
  simp only [unlinkPair, subs_subRemove, subs_addRemove, if_true]
  by_cases hn : n = node
  · rw [if_pos hn, if_pos hn]
  · rw [if_neg hn, if_neg hn, if_neg hn]

theorem lengths_linkPair :
    (ctx.addSet.length ≤ (linkPair ctx node a b).addSet.length ∧
      ctx.subtractSet.length ≤ (linkPair ctx node a b).subtractSet.length) ∧
    node < (linkPair ctx node a b).addSet.length ∧
      node < (linkPair ctx node a b).subtractSet.length := by
  have hgrown : ∀ (sets : List (List ℕ)) (f g : List ℕ → List ℕ),
      sets.length ≤ ((grown ((grown sets node).modify node f) node).modify node g).length ∧
        node < ((grown ((grown sets node).modify node f) node).modify node g).length := by
    intro sets f g
    rw [List.length_modify]
    have hinner := length_le_grown ((grown sets node).modify node f) node
    rw [List.length_modify] at hinner
    exact ⟨Nat.le_trans (length_le_grown sets node) hinner, lt_length_grown _ node⟩
  have hadd := hgrown ctx.addSet (· ++ [a]) (· ++ [b])
  have hsub := hgrown ctx.subtractSet (· ++ [b]) (· ++ [a])
  exact ⟨⟨hadd.1, hsub.1⟩, hadd.2, hsub.2⟩

theorem lengths_unlinkPair :
    (unlinkPair ctx node a b).addSet.length = ctx.addSet.length ∧
      (unlinkPair ctx node a b).subtractSet.length = ctx.subtractSet.length := by
  simp [unlinkPair, subRemove, addRemove]

variable {ctx node a b}

theorem replay_pair (ha : a < ctx.weightTable.length)
    (hfirst : (ctx.slot a).canon = node ∧ (ctx.slot a).idx = b) (hsecond : (ctx.slot b).canon = node)
    (hadd : node < ctx.addSet.length) (hsub : node < ctx.subtractSet.length) (value : UInt64) :
    replayRec ctx ⟨a, value, 2⟩ = unlinkPair ctx node a b := by
  have hadd' : node < (addRemove ctx node a).addSet.length := by simpa [addRemove] using hadd
  have hsub' : node < (addRemove (addRemove ctx node a) node b).subtractSet.length := hsub
  have hsub'' : node <
      (subRemove (addRemove (addRemove ctx node a) node b) node b).subtractSet.length := by
    simpa [subRemove, addRemove] using hsub
  unfold replayRec
  dsimp only
  rw [if_neg (Nat.not_le_of_lt ha), if_neg (by decide), if_pos rfl, hfirst.1, hfirst.2, hsecond,
    if_pos hadd, if_pos hadd', if_pos hsub', if_pos hsub'']
  rfl

theorem replay_removal (ha : a < ctx.weightTable.length)
    (hfirst : (ctx.slot a).canon = node ∧ (ctx.slot a).idx = b) (hsecond : (ctx.slot b).canon = node)
    (hadd : node < ctx.addSet.length) (hsub : node < ctx.subtractSet.length) (value : UInt64) :
    replayRec ctx ⟨a, value, 4⟩ = linkPair ctx node a b := by
  have hadd' : node < (stcutAddPush ctx node a).addSet.length := by
    simpa [stcutAddPush] using lt_length_grown ctx.addSet node
  have hsub' : node < (stcutAddPush (stcutAddPush ctx node a) node b).subtractSet.length := hsub
  have hsub'' : node < (stcutSubPush (stcutAddPush (stcutAddPush ctx node a) node b)
      node b).subtractSet.length := by
    simpa [stcutSubPush] using lt_length_grown _ node
  unfold replayRec
  dsimp only
  rw [if_neg (Nat.not_le_of_lt ha), if_neg (by decide), if_neg (by decide), if_neg (by decide),
    if_pos rfl, hfirst.1, hfirst.2, hsecond, if_pos hadd, if_pos hadd', if_pos hsub',
    if_pos hsub'']
  rfl

end Pair

theorem perm_of_removed {set set' : List ℕ} {a b : ℕ} (h : set'.Perm (set ++ [a] ++ [b])) :
    (listRemove (listRemove set' a) b).Perm set := by
  have hfront : (set ++ [a] ++ [b]).Perm (a :: b :: set) := by
    rw [List.append_assoc]
    exact List.perm_append_comm
  have hfirst : (listRemove set' a).Perm (b :: set) := by
    have herase := (h.trans hfront).erase a
    rw [List.erase_cons_head] at herase
    exact (listRemove_perm set' a).trans herase
  have hsecond := hfirst.erase b
  rw [List.erase_cons_head] at hsecond
  exact (listRemove_perm _ b).trans hsecond

theorem perm_of_added {set set' : List ℕ} {a b : ℕ} (hne : a ≠ b) (ha : a ∈ set) (hb : b ∈ set)
    (h : set'.Perm (listRemove (listRemove set a) b)) : (set' ++ [a] ++ [b]).Perm set := by
  have hfront : (set' ++ [a] ++ [b]).Perm (a :: b :: set') := by
    rw [List.append_assoc]
    exact List.perm_append_comm
  have hrest : set'.Perm ((set.erase a).erase b) :=
    (h.trans (listRemove_perm _ b)).trans ((listRemove_perm set a).erase b)
  have hb' : b ∈ set.erase a := (List.mem_erase_of_ne hne.symm).mpr hb
  have hback : (a :: b :: (set.erase a).erase b).Perm (a :: set.erase a) :=
    (List.perm_cons_erase hb').symm.cons a
  exact ((hfront.trans ((hrest.cons b).cons a)).trans hback).trans (List.perm_cons_erase ha).symm

/-- The sets of one node after the slots have been put in and taken out; those of the other nodes have
not changed. -/
theorem perm_undone {sets sets' : ℕ → List ℕ} {a b node n : ℕ}
    (h : (sets' n).Perm (if n = node then sets node ++ [a] ++ [b] else sets n)) :
    (if n = node then listRemove (listRemove (sets' node) a) b else sets' n).Perm (sets n) := by
  by_cases hn : n = node
  · subst hn
    rw [if_pos rfl] at h ⊢
    exact perm_of_removed h
  · rw [if_neg hn] at h ⊢
    exact h

theorem perm_restored {sets sets' : ℕ → List ℕ} {a b node n : ℕ} (hne : a ≠ b)
    (ha : a ∈ sets node) (hb : b ∈ sets node)
    (h : (sets' n).Perm (if n = node then listRemove (listRemove (sets node) a) b else sets n)) :
    (if n = node then sets' node ++ [a] ++ [b] else sets' n).Perm (sets n) := by
  by_cases hn : n = node
  · subst hn
    rw [if_pos rfl] at h ⊢
    exact perm_of_added hne ha hb h
  · rw [if_neg hn] at h ⊢
    exact h

theorem undo_pair {ctx paired ctx' : StCutContext} {a b node : ℕ}
    (hnew : IsNewPair ctx paired a b node node) (hsame : Same (linkPair paired node a b) ctx')
    (value : UInt64) : Same ctx (replayRec ctx' ⟨a, value, 2⟩) := by
  obtain ⟨hlt, hslot⟩ := hsame.slots a hnew.first.1
  obtain ⟨-, hslot'⟩ := hsame.slots b hnew.second.1
  have hold : ∀ n, paired.adds n = ctx.adds n ∧ paired.subs n = ctx.subs n := by
    intro n
    unfold StCutContext.adds StCutContext.subs
    rw [hnew.sets.1, hnew.sets.2]
    exact ⟨rfl, rfl⟩
  obtain ⟨hmono, haddLen, hsubLen⟩ := lengths_linkPair paired node a b
  rw [hnew.sets.1, hnew.sets.2] at hmono
  have hlen := lengths_unlinkPair ctx' node a b
  rw [replay_pair hlt (hslot ▸ hnew.first.2) (hslot' ▸ hnew.second.2.1)
    (Nat.lt_of_lt_of_le haddLen hsame.addLen) (Nat.lt_of_lt_of_le hsubLen hsame.subLen)]
  constructor
  · intro n
    have hn := hsame.adds n
    rw [adds_linkPair, (hold node).1, (hold n).1] at hn
    rw [adds_unlinkPair]
    exact perm_undone hn
  · intro n
    have hn := hsame.subs n
    rw [subs_linkPair, (hold node).2, (hold n).2] at hn
    rw [subs_unlinkPair]
    exact perm_undone hn
  · intro e he
    obtain ⟨hkept, hsl⟩ := hnew.old e he
    obtain ⟨helt, heslot⟩ := hsame.slots e hkept
    exact ⟨helt, heslot.trans hsl⟩
  · exact hlen.1 ▸ Nat.le_trans hmono.1 hsame.addLen
  · exact hlen.2 ▸ Nat.le_trans hmono.2 hsame.subLen

theorem removeEdge_self {ctx : StCutContext} {e : ℕ} (hself : (ctx.slot e).canon = ctx.peer e) :
    (stcutRemoveEdge ctx e).1 = unlinkPair ctx (ctx.peer e) e (ctx.slot e).idx := by
  unfold stcutRemoveEdge unlinkPair
  dsimp only
  rw [hself]
  rfl

theorem undo_removal {ctx ctx' : StCutContext} {e : ℕ} (hpair : InPair ctx e)
    (hself : (ctx.slot e).canon = ctx.peer e) (he : Kept ctx e)
    (hpartner : Kept ctx (ctx.slot e).idx)
    (hsame : Same (unlinkPair ctx (ctx.peer e) e (ctx.slot e).idx) ctx') (value : UInt64) :
    Same ctx (replayRec ctx' ⟨e, value, 4⟩) := by
  obtain ⟨hne, ⟨hadd, hadd'⟩, hsub, hsub'⟩ := hpair.self hself
  obtain ⟨hlt, hslot⟩ := hsame.slots e he
  obtain ⟨-, hslot'⟩ := hsame.slots (ctx.slot e).idx hpartner
  obtain ⟨haddEq, hsubEq⟩ := lengths_unlinkPair ctx (ctx.peer e) e (ctx.slot e).idx
  have haddLen := haddEq ▸ hsame.addLen
  have hsubLen := hsubEq ▸ hsame.subLen
  have hfirst : (ctx'.slot e).canon = ctx.peer e ∧ (ctx'.slot e).idx = (ctx.slot e).idx := by
    rw [hslot]
    exact ⟨hself, rfl⟩
  have hsecond : (ctx'.slot (ctx.slot e).idx).canon = ctx.peer e := by
    rw [hslot']
    rfl
  obtain ⟨hmono, -, -⟩ := lengths_linkPair ctx' (ctx.peer e) e (ctx.slot e).idx
  rw [replay_removal hlt hfirst hsecond (Nat.lt_of_lt_of_le (exists_of_mem_getD hadd).1 haddLen)
    (Nat.lt_of_lt_of_le (exists_of_mem_getD hsub).1 hsubLen)]
  constructor
  · intro n
    have hn := hsame.adds n
    rw [adds_unlinkPair] at hn
    rw [adds_linkPair]
    exact perm_restored hne hadd hadd' hn
  · intro n
    have hn := hsame.subs n
    rw [subs_unlinkPair] at hn
    rw [subs_linkPair]
    exact perm_restored hne.symm hsub' hsub hn
  · exact hsame.slots
  · exact Nat.le_trans haddLen hmono.1
  · exact Nat.le_trans hsubLen hmono.2

end Records

/-! ### Ledgers -/

section Ledgers

/-- A call that a trial cut records. -/
inductive Call where
  | connect (src dst : ℕ) (threshold : UInt64)
  | remove (slot : ℕ)
  deriving DecidableEq, Repr

/-- The context after a call, and what the call records. -/
def Call.run (ctx : StCutContext) : Call → StCutContext × List StCutReplayRec
  | .connect src dst threshold =>
    ((stcutConnectNodes ctx src dst threshold).1, (stcutConnectNodes ctx src dst threshold).2.2)
  | .remove slot => stcutRemoveEdge ctx slot

/-- The context after several calls, and the ledger that they share. -/
def record (ctx : StCutContext) : List Call → StCutContext × List StCutReplayRec
  | [] => (ctx, [])
  | c :: cs => ((record (c.run ctx).1 cs).1, (c.run ctx).2 ++ (record (c.run ctx).1 cs).2)

/-- The calls and then the replay of their ledger. -/
def undone (ctx : StCutContext) (calls : List Call) : StCutContext :=
  stcutReplayApply (record ctx calls).1 (record ctx calls).2

/-- Every set has its slots again, and every slot in a set its weight. -/
structure Restores (ctx ctx' : StCutContext) : Prop where
  adds : ∀ n, (ctx'.adds n).Perm (ctx.adds n)
  subs : ∀ n, (ctx'.subs n).Perm (ctx.subs n)
  weights : ∀ e, Linked ctx' e → (ctx'.slot e).weight = (ctx.slot e).weight

/-- A connection finds a slot and records the weight or does not change it, or it connects a node
with itself; a removal is one of a linked pair at one node. -/
def StepOk (ctx : StCutContext) : Call → Prop
  | .connect src dst threshold =>
    (∀ e, foundSlot ctx src dst = some e →
        threshold ≠ 0 ∨ (ctx.slot e).weight ≤ stcutMaxWeight) ∧
      (foundSlot ctx src dst = none → src = dst)
  | .remove slot => InPair ctx slot ∧ Linked ctx slot ∧ (ctx.slot slot).canon = ctx.peer slot

/-- Every call meets its condition when it is made. -/
def StepsOk : StCutContext → List Call → Prop
  | _, [] => True
  | ctx, c :: cs => StepOk ctx c ∧ StepsOk (c.run ctx).1 cs

theorem undone_cons (ctx : StCutContext) (c : Call) (cs : List Call) :
    undone ctx (c :: cs) = (c.run ctx).2.reverse.foldl replayRec (undone (c.run ctx).1 cs) := by
  have hrecord : undone ctx (c :: cs) = stcutReplayApply (record (c.run ctx).1 cs).1
      ((c.run ctx).2 ++ (record (c.run ctx).1 cs).2) := rfl
  rw [hrecord]
  unfold undone stcutReplayApply
  rw [List.reverse_append, List.foldl_append]

theorem mem_of_mem_listRemove {v : List ℕ} {x e : ℕ} (he : e ∈ listRemove v x) : e ∈ v :=
  List.mem_of_mem_erase ((listRemove_perm v x).subset he)

theorem connect_found {ctx : StCutContext} {src dst e : ℕ} (h : foundSlot ctx src dst = some e)
    (threshold : UInt64) :
    (Call.connect src dst threshold).run ctx =
      (setWeight ctx e (if stcutMaxWeight < threshold + (ctx.slot e).weight then stcutMaxWeight
        else threshold + (ctx.slot e).weight),
        if threshold ≠ 0 then [⟨e, (ctx.slot e).weight, 0⟩] else []) := by
  have hconnect : stcutConnectNodes ctx src dst threshold =
      (setWeight ctx e (if stcutMaxWeight < threshold + (ctx.slot e).weight then stcutMaxWeight
        else threshold + (ctx.slot e).weight), e,
        if threshold ≠ 0 then [⟨e, (ctx.slot e).weight, 0⟩] else []) := by
    unfold stcutConnectNodes
    rw [h]
  show ((stcutConnectNodes ctx src dst threshold).1, _) = _
  rw [hconnect]

theorem connect_self {ctx : StCutContext} {node : ℕ} (h : foundSlot ctx node node = none)
    (threshold : UInt64) :
    (Call.connect node node threshold).run ctx =
      (linkPair (newPair ctx node node threshold).1 node (newPair ctx node node threshold).2.1
        (newPair ctx node node threshold).2.2,
        [⟨(newPair ctx node node threshold).2.1, 0, 2⟩]) := by
  have hconnect : stcutConnectNodes ctx node node threshold =
      (linkPair (newPair ctx node node threshold).1 node (newPair ctx node node threshold).2.1
        (newPair ctx node node threshold).2.2, (newPair ctx node node threshold).2.1,
        [⟨(newPair ctx node node threshold).2.1, 0, 2⟩]) := by
    unfold stcutConnectNodes
    rw [h]
    rfl
  show ((stcutConnectNodes ctx node node threshold).1, _) = _
  rw [hconnect]

theorem inUse_setWeight {ctx : StCutContext} (h : InUse ctx) (e : ℕ) (w : UInt64) :
    InUse (setWeight ctx e w) := by
  have hlen : (setWeight ctx e w).weightTable.length = ctx.weightTable.length :=
    List.length_modify _ _ _
  constructor
  · intro i hi
    exact ⟨hlen.symm ▸ (h.linked i hi).1, (h.linked i hi).2⟩
  · exact fun i hi => hlen.symm ▸ h.freeLt i hi
  · exact h.freeNodup

theorem inUse_linkPair {ctx paired : StCutContext} (h : InUse ctx) {a b node : ℕ}
    (hnew : IsNewPair ctx paired a b node node) : InUse (linkPair paired node a b) := by
  have hmem : ∀ {set : List ℕ} {x y e : ℕ}, e ∈ set ++ [x] ++ [y] → e ∈ set ∨ e = x ∨ e = y := by
    intro set x y e he
    simpa [or_assoc] using he
  have hold : ∀ n, paired.adds n = ctx.adds n ∧ paired.subs n = ctx.subs n := by
    intro n
    unfold StCutContext.adds StCutContext.subs
    rw [hnew.sets.1, hnew.sets.2]
    exact ⟨rfl, rfl⟩
  have hkept : ∀ e, Linked ctx e ∨ e = a ∨ e = b → Kept paired e := by
    rintro e (hlinked | rfl | rfl)
    · exact (hnew.old e (h.linked e hlinked)).1
    · exact hnew.first.1
    · exact hnew.second.1
  refine ⟨?_, hnew.free.2, hnew.free.1⟩
  rintro e ⟨n, hadd | hsub⟩
  · apply hkept
    rw [adds_linkPair, (hold node).1, (hold n).1] at hadd
    split at hadd
    · exact (hmem hadd).imp_left fun he => ⟨node, Or.inl he⟩
    · exact Or.inl ⟨n, Or.inl hadd⟩
  · apply hkept
    rw [subs_linkPair, (hold node).2, (hold n).2] at hsub
    split at hsub
    · rcases hmem hsub with he | he | he
      · exact Or.inl ⟨node, Or.inr he⟩
      · exact Or.inr (Or.inr he)
      · exact Or.inr (Or.inl he)
    · exact Or.inl ⟨n, Or.inr hsub⟩

theorem inUse_unlinkPair {ctx : StCutContext} (h : InUse ctx) (node a b : ℕ) :
    InUse (unlinkPair ctx node a b) := by
  refine ⟨?_, h.freeLt, h.freeNodup⟩
  rintro e ⟨n, hadd | hsub⟩
  · apply h.linked
    rw [adds_unlinkPair] at hadd
    split at hadd
    · exact ⟨node, Or.inl (mem_of_mem_listRemove (mem_of_mem_listRemove hadd))⟩
    · exact ⟨n, Or.inl hadd⟩
  · apply h.linked
    rw [subs_unlinkPair] at hsub
    split at hsub
    · exact ⟨node, Or.inr (mem_of_mem_listRemove (mem_of_mem_listRemove hsub))⟩
    · exact ⟨n, Or.inr hsub⟩

/-- What one call does is undone by its own records, and the next call finds a context of the same
kind. -/
theorem step_undone {ctx : StCutContext} (hctx : InUse ctx) {c : Call} (hc : StepOk ctx c) :
    InUse (c.run ctx).1 ∧ ∀ ctx', Same (c.run ctx).1 ctx' →
      Same ctx ((c.run ctx).2.reverse.foldl replayRec ctx') := by
  cases c with
  | connect src dst threshold =>
    obtain ⟨hweight, hself⟩ := hc
    cases hfound : foundSlot ctx src dst with
    | some e =>
      have hmem : e ∈ ctx.adds src := List.mem_of_find?_eq_some hfound
      have hkept : Kept ctx e := hctx.linked e ⟨src, Or.inl hmem⟩
      rw [connect_found hfound]
      refine ⟨inUse_setWeight hctx e _, ?_⟩
      intro ctx' hsame
      by_cases hzero : threshold = 0
      · -- nothing is recorded, and the weight is what it was
        subst hzero
        have hle : ¬stcutMaxWeight < 0 + (ctx.slot e).weight := by
          rw [UInt64.zero_add, UInt64.not_lt]
          exact (hweight e hfound).resolve_left (fun h => h rfl)
        rw [if_neg hle, UInt64.zero_add] at hsame
        exact hsame.of_weight
      · rw [if_pos hzero]
        exact undo_weight hkept _ hsame
    | none =>
      have heq := hself hfound
      subst heq
      rw [connect_self hfound]
      have hnew := newPair_isNewPair hctx src src threshold
      exact ⟨inUse_linkPair hctx hnew, fun ctx' hsame => undo_pair hnew hsame 0⟩
  | remove slot =>
    obtain ⟨hpair, hlinked, hself⟩ := hc
    have hrun : (Call.remove slot).run ctx =
        (unlinkPair ctx (ctx.peer slot) slot (ctx.slot slot).idx, [⟨slot, 0, 4⟩]) :=
      Prod.ext (removeEdge_self hself) rfl
    have hpartner : Linked ctx (ctx.slot slot).idx :=
      ⟨ctx.peer slot, Or.inl (hpair.self hself).2.1.2⟩
    rw [hrun]
    exact ⟨inUse_unlinkPair hctx _ _ _, fun ctx' hsame => undo_removal hpair hself
      (hctx.linked slot hlinked) (hctx.linked _ hpartner) hsame 0⟩

theorem undone_same (calls : List Call) (ctx : StCutContext) (hctx : InUse ctx)
    (hsteps : StepsOk ctx calls) : Same ctx (undone ctx calls) := by
  induction calls generalizing ctx with
  | nil => exact Same.refl ctx
  | cons c cs ih =>
    obtain ⟨hnext, hundo⟩ := step_undone hctx hsteps.1
    rw [undone_cons]
    exact hundo _ (ih (c.run ctx).1 hnext hsteps.2)

/-- The replay of a ledger restores the sets and the weights if every connection found a slot and
recorded or kept its weight, or connected a node with itself, and every removal was one of a pair at
one node. -/
theorem ledger_undone (ctx : StCutContext) (hinv : PairInvariant ctx) (calls : List Call)
    (hsteps : StepsOk ctx calls) : Restores ctx (undone ctx calls) := by
  have hsame := undone_same calls ctx hinv.inUse hsteps
  refine ⟨hsame.adds, hsame.subs, ?_⟩
  rintro e ⟨n, hlinked⟩
  have hbefore : Linked ctx e := by
    rcases hlinked with hadd | hsub
    · exact ⟨n, Or.inl ((hsame.adds n).subset hadd)⟩
    · exact ⟨n, Or.inr ((hsame.subs n).subset hsub)⟩
  rw [(hsame.slots e (hinv.inUse.linked e hbefore)).2]

instance (ctx : StCutContext) (a : ℕ) : Decidable (IsEdge ctx a) :=
  decidable_of_iff
    ((ctx.slot (ctx.slot a).idx).idx = a ∧ (ctx.slot a).crosses = false ∧
      (ctx.slot (ctx.slot a).idx).crosses = true ∧ a ∈ ctx.adds (ctx.peer a) ∧
      a ∈ ctx.subs (ctx.slot a).canon ∧ (ctx.slot a).idx ∈ ctx.adds (ctx.slot a).canon ∧
      (ctx.slot a).idx ∈ ctx.subs (ctx.peer a))
    ⟨fun ⟨h1, h2, h3, h4, h5, h6, h7⟩ => ⟨h1, h2, h3, h4, h5, h6, h7⟩,
      fun h => ⟨h.partner, h.soft, h.hard, h.addPred, h.subSucc, h.addSucc, h.subPred⟩⟩

instance (ctx : StCutContext) (e : ℕ) : Decidable (InPair ctx e) :=
  inferInstanceAs (Decidable (_ ∧ (_ ∨ _)))

/-- Two nodes with the given slots and sets. -/
def twoNodes (weightTable : List StCutSlot) (addSet subtractSet : List (List ℕ)) : StCutContext where
  mode := 0
  nodeSlots := [0, 1]
  groupFlags := [0, 0]
  weightTable := weightTable
  addSet := addSet
  subtractSet := subtractSet
  snapFlags := []
  snapWeights := []
  snapAdd := []
  markTable := [0, 0]
  workingOrder := []
  freeWeightSlots := []

/-- The nodes are connected, first by a pair and then by its weight, and one with itself. -/
theorem weights_undone :
    PairInvariant (twoNodes [⟨1, 1, 10, 0⟩, ⟨0, 0, stcutMaxWeight, 4⟩] [[0], [1]] [[1], [0]]) ∧
      StepsOk (twoNodes [⟨1, 1, 10, 0⟩, ⟨0, 0, stcutMaxWeight, 4⟩] [[0], [1]] [[1], [0]])
        [.connect 0 1 5, .connect 0 0 7, .connect 0 1 stcutMaxWeight] ∧
      Restores (twoNodes [⟨1, 1, 10, 0⟩, ⟨0, 0, stcutMaxWeight, 4⟩] [[0], [1]] [[1], [0]])
        (undone (twoNodes [⟨1, 1, 10, 0⟩, ⟨0, 0, stcutMaxWeight, 4⟩] [[0], [1]] [[1], [0]])
          [.connect 0 1 5, .connect 0 0 7, .connect 0 1 stcutMaxWeight]) := by
  have hinv : PairInvariant
      (twoNodes [⟨1, 1, 10, 0⟩, ⟨0, 0, stcutMaxWeight, 4⟩] [[0], [1]] [[1], [0]]) :=
    ⟨by decide, by decide, by decide, by decide, by decide, by decide⟩
  have hsteps : StepsOk
      (twoNodes [⟨1, 1, 10, 0⟩, ⟨0, 0, stcutMaxWeight, 4⟩] [[0], [1]] [[1], [0]])
      [.connect 0 1 5, .connect 0 0 7, .connect 0 1 stcutMaxWeight] :=
    ⟨⟨fun _ _ => Or.inl (by decide), fun hnone => absurd hnone (by decide)⟩,
      ⟨fun _ _ => Or.inl (by decide), fun _ => rfl⟩,
      ⟨fun _ _ => Or.inl (by decide), fun hnone => absurd hnone (by decide)⟩, trivial⟩
  exact ⟨hinv, hsteps, ledger_undone _ hinv _ hsteps⟩

/-- After the replay the slots of a new pair are still in the subtract sets. -/
theorem new_pair_not_undone :
    ¬∀ (ctx : StCutContext) (calls : List Call), PairInvariant ctx →
      Restores ctx (undone ctx calls) := by
  intro h
  have hinv : PairInvariant (twoNodes [] [[], []] [[], []]) :=
    ⟨by decide, by decide, by decide, by decide, by decide, by decide⟩
  have hsub := ((h _ [.connect 0 1 10] hinv).subs 0).length_eq
  exact absurd hsub (by decide)

end Ledgers

end Gehtp.Analysis.StCutLedger
