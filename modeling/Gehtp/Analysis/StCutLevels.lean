import Mathlib.Algebra.Order.Ring.Nat
import Gehtp.Analysis.StCutLedger
import Gehtp.Lib.Levels

/-!
# Level marks

The wave of the cut scheduler puts a node in its queue when the first of its predecessors has a
level, and gives it a level when all of them have one. It takes the ready nodes out of the queue
only at the end of a layer, so that the places it has noted stay right while the queue grows. The
level of a node is the round in which it is settled.
-/

set_option autoImplicit false

namespace Gehtp.Analysis.StCutLevels

open Lib.Levels Lib.SwapRemove Model.StCutGraph

def markOf (w : Wave) (v : ℕ) : UInt16 := w.marks.getD v 0

variable {marks : List UInt16} {w : Wave} {target : ℕ → Prop} {k e : ℕ}

theorem getD_set {i : ℕ} (hi : i < marks.length) (m : UInt16) (v : ℕ) :
    (marks.set i m).getD v 0 = if v = i then m else marks.getD v 0 := by
  rw [List.getD_eq_getElem?_getD, List.getElem?_set, List.getD_eq_getElem?_getD]
  by_cases hv : v = i
  · subst hv
    rw [if_pos rfl, if_pos rfl, if_pos hi]
    rfl
  · rw [if_neg (Ne.symm hv), if_neg hv]

/-! ### The end of a layer -/

section Settle

theorem settle_foldl (level : ℕ) (l : List ℕ) (w : Wave) (hdesc : l.Pairwise (· > ·))
    (hplaces : ∀ i ∈ l, i < w.queueA.length) (hnodes : ∀ v ∈ w.queueA, v < w.marks.length) :
    w.queueA.Perm (l.map (w.queueA.getD · 0) ++ (l.foldl (settle level) w).queueA) ∧
      (l.foldl (settle level) w).marks.length = w.marks.length ∧
      ∀ v, markOf (l.foldl (settle level) w) v =
        if v ∈ l.map (w.queueA.getD · 0) then UInt16.ofNat level else markOf w v := by
  induction l generalizing w with
  | nil => exact ⟨.refl _, rfl, fun v => rfl⟩
  | cons i l ih =>
    rw [List.pairwise_cons] at hdesc
    have hi : i < w.queueA.length := hplaces i List.mem_cons_self
    have hperm := swapRemove_perm 0 hi
    have hnode : w.queueA.getD i 0 < w.marks.length := by
      rw [List.getD_eq_getElem _ _ hi]
      exact hnodes _ (List.getElem_mem hi)
    have hkeep : l.map ((settle level w i).queueA.getD · 0) = l.map (w.queueA.getD · 0) := by
      apply List.map_congr_left
      intro j hj
      exact getD_swapRemove 0 (hdesc.1 j hj) hi
    have hlen : (settle level w i).marks.length = w.marks.length := List.length_set
    obtain ⟨hqueue, hmarks, hmark⟩ := ih (settle level w i) hdesc.2
      (by
        intro j hj
        have hji := hdesc.1 j hj
        have hjlen : (settle level w i).queueA.length = w.queueA.length - 1 :=
          length_swapRemove 0 w.queueA i
        omega)
      (by
        intro v hv
        rw [hlen]
        exact hnodes v (List.mem_of_mem_eraseIdx (hperm.subset hv)))
    rw [hkeep] at hqueue hmark
    have hfirst : (w.queueA.getD i 0 :: (settle level w i).queueA).Perm w.queueA := by
      rw [List.getD_eq_getElem _ _ hi]
      exact (hperm.cons _).trans (List.getElem_cons_eraseIdx_perm hi)
    rw [List.foldl_cons, List.map_cons]
    refine ⟨hfirst.symm.trans (hqueue.cons _), hmarks.trans hlen, ?_⟩
    intro v
    have hone : markOf (settle level w i) v =
        if v = w.queueA.getD i 0 then UInt16.ofNat level else markOf w v := getD_set hnode _ v
    rw [hmark v, hone]
    by_cases hrest : v ∈ l.map (w.queueA.getD · 0)
    · rw [if_pos hrest, if_pos (List.mem_cons_of_mem _ hrest)]
    · rw [if_neg hrest]
      by_cases hv : v = w.queueA.getD i 0
      · rw [if_pos hv, if_pos (hv ▸ List.mem_cons_self)]
      · rw [if_neg hv, if_neg (by
          intro h
          exact (List.mem_cons.mp h).elim hv hrest)]

end Settle

/-! ### The growing queue -/

section Grow

/-- Some of the targets, those without a mark, are put at the end of the queue and marked. -/
def Grow (w w' : Wave) (target : ℕ → Prop) : Prop :=
  w'.marks.length = w.marks.length ∧ ∃ new : List ℕ, w'.queueA = w.queueA ++ new ∧ new.Nodup ∧
    (∀ v, v ∈ new ↔ v < w.marks.length ∧ markOf w v = 0 ∧ target v) ∧
    ∀ v, markOf w' v = if v ∈ new then 1 else markOf w v

theorem Grow.refl (w : Wave) : Grow w w fun _ => False :=
  ⟨rfl, [], (List.append_nil _).symm, List.nodup_nil, by simp, by simp⟩

theorem Grow.of_iff {w' : Wave} {target' : ℕ → Prop} (h : Grow w w' target)
    (heq : ∀ v, target v ↔ target' v) : Grow w w' target' := by
  have hsame : target = target' := funext fun v => propext (heq v)
  exact hsame ▸ h

theorem Grow.trans {w₁ w₂ : Wave} {target' : ℕ → Prop} (h : Grow w w₁ target)
    (h' : Grow w₁ w₂ target') : Grow w w₂ fun v => target v ∨ target' v := by
  obtain ⟨hlen, new, hqueue, hnodup, hmem, hmark⟩ := h
  obtain ⟨hlen', new', hqueue', hnodup', hmem', hmark'⟩ := h'
  have hunmarked : ∀ v, markOf w₁ v = 0 ↔ v ∉ new ∧ markOf w v = 0 := by
    intro v
    rw [hmark v]
    by_cases hv : v ∈ new
    · simp [hv]
    · simp [hv]
  have hdisj : ∀ v ∈ new, v ∉ new' := fun v hv hv' =>
    ((hunmarked v).mp ((hmem' v).mp hv').2.1).1 hv
  refine ⟨hlen'.trans hlen, new ++ new', ?_, ?_, ?_, ?_⟩
  · rw [hqueue', hqueue, List.append_assoc]
  · exact List.nodup_append'.mpr ⟨hnodup, hnodup', fun v hv hv' => hdisj v hv hv'⟩
  · intro v
    rw [List.mem_append, hmem' v, hunmarked v, hlen, hmem v]
    constructor
    · rintro (⟨hlt, hzero, htarget⟩ | ⟨hlt, ⟨-, hzero⟩, htarget⟩)
      · exact ⟨hlt, hzero, Or.inl htarget⟩
      · exact ⟨hlt, hzero, Or.inr htarget⟩
    · rintro ⟨hlt, hzero, htarget⟩
      by_cases hfirst : target v
      · exact Or.inl ⟨hlt, hzero, hfirst⟩
      · exact Or.inr ⟨hlt, ⟨fun hv => hfirst hv.2.2, hzero⟩, htarget.resolve_left hfirst⟩
  · intro v
    rw [hmark' v, hmark v]
    by_cases hv : v ∈ new
    · simp [hv]
    · simp [hv]

variable (ctx : StCutContext) (follows : StCutSlot → Bool)

theorem spread_grow (w : Wave) (s : ℕ) :
    Grow w (spread ctx follows w s) fun v =>
      follows (ctx.slot s) = true ∧ (ctx.slot s).canon = v := by
  unfold spread
  dsimp only
  by_cases hfollows : follows (ctx.slot s) = true
  · rw [if_neg (by simpa using hfollows)]
    by_cases hlen : w.marks.length ≤ (ctx.slot s).canon
    · rw [if_pos hlen]
      refine ⟨rfl, [], (List.append_nil _).symm, List.nodup_nil, ?_, by simp⟩
      intro v
      simp only [List.not_mem_nil, false_iff, not_and]
      rintro hlt - - rfl
      exact absurd hlt (Nat.not_lt_of_le hlen)
    · rw [if_neg hlen]
      by_cases hmark : w.marks.getD (ctx.slot s).canon 0 = 0
      · rw [if_neg (not_not_intro hmark)]
        refine ⟨List.length_set, [(ctx.slot s).canon], rfl, List.nodup_singleton _, ?_, ?_⟩
        · intro v
          rw [List.mem_singleton]
          constructor
          · rintro rfl
            exact ⟨Nat.lt_of_not_le hlen, hmark, hfollows, rfl⟩
          · rintro ⟨-, -, -, rfl⟩
            rfl
        · intro v
          have hset := getD_set (Nat.lt_of_not_le hlen) 1 v
          by_cases hv : v = (ctx.slot s).canon
          · rw [if_pos (List.mem_singleton.mpr hv)]
            exact hset.trans (if_pos hv)
          · rw [if_neg (fun h => hv (List.mem_singleton.mp h))]
            exact hset.trans (if_neg hv)
      · rw [if_pos hmark]
        refine ⟨rfl, [], (List.append_nil _).symm, List.nodup_nil, ?_, by simp⟩
        intro v
        simp only [List.not_mem_nil, false_iff, not_and]
        rintro - hzero - rfl
        exact absurd hzero hmark
  · rw [if_pos (by simpa using hfollows)]
    exact (Grow.refl w).of_iff fun v => by simp [hfollows]

theorem spread_foldl (slots : List ℕ) (w : Wave) :
    Grow w (slots.foldl (spread ctx follows) w) (fun v =>
      ∃ s ∈ slots, follows (ctx.slot s) = true ∧ (ctx.slot s).canon = v) ∧
    (slots.foldl (spread ctx follows) w).queueB = w.queueB := by
  induction slots generalizing w with
  | nil => exact ⟨(Grow.refl w).of_iff (by simp), rfl⟩
  | cons s slots ih =>
    obtain ⟨hgrow, hqueueB⟩ := ih (spread ctx follows w s)
    have hstep : (spread ctx follows w s).queueB = w.queueB := by
      unfold spread
      dsimp only
      split
      · rfl
      split
      · rfl
      split <;> rfl
    refine ⟨?_, hqueueB.trans hstep⟩
    exact ((spread_grow ctx follows w s).trans hgrow).of_iff (by simp)

end Grow

/-! ### One layer -/

section Layer

/-- The slots that a wave follows are the edges of a relation, seen from both ends. -/
structure Describes (ctx : StCutContext) (follows : StCutSlot → Bool) (R : ℕ → ℕ → Prop)
    (bound : ℕ) : Prop where
  adds : ∀ u v, R u v ↔
    ∃ s ∈ ctx.adds u, follows (ctx.slot s) = true ∧ (ctx.slot s).canon = v
  subs : ∀ u v, R u v ↔ ∃ s ∈ ctx.subs v, follows (ctx.slot s) = true ∧ ctx.peer s = u
  nodes : ∀ u v, R u v → u < bound ∧ v < bound

variable {ctx : StCutContext} {follows : StCutSlot → Bool} {R : ℕ → ℕ → Prop} {bound : ℕ}

theorem isReady_iff (hdesc : Describes ctx follows R bound) (hbound : bound ≤ marks.length)
    (v : ℕ) : isReady ctx follows marks v = true ↔ ∀ u, R u v → 1 < marks.getD u 0 := by
  unfold isReady
  rw [List.all_eq_true]
  simp only [Bool.or_eq_true, decide_eq_true_eq, Bool.not_eq_true']
  constructor
  · intro hall u hedge
    obtain ⟨s, hs, hfollows, rfl⟩ := (hdesc.subs u v).mp hedge
    have hlt := Nat.lt_of_lt_of_le (hdesc.nodes _ v hedge).1 hbound
    rcases hall s hs with (hout | hmark) | hnot
    · exact absurd hlt (Nat.not_lt_of_le hout)
    · exact hmark
    · rw [hfollows] at hnot
      cases hnot
  · intro hall s hs
    by_cases hfollows : follows (ctx.slot s) = true
    · exact Or.inl (Or.inr (hall _ ((hdesc.subs _ v).mpr ⟨s, hs, hfollows, rfl⟩)))
    · exact Or.inr (by simpa using hfollows)

theorem Grow.isReady_eq {w' : Wave} (h : Grow w w' target) (v : ℕ) :
    isReady ctx follows w'.marks v = isReady ctx follows w.marks v := by
  obtain ⟨hlen, new, -, -, hmem, hmark⟩ := h
  unfold isReady
  rw [hlen]
  congr 1
  funext s
  have hsame : (1 < w'.marks.getD (ctx.peer s) 0) ↔ (1 < w.marks.getD (ctx.peer s) 0) := by
    have heq := hmark (ctx.peer s)
    unfold markOf at heq hmem
    by_cases hnew : ctx.peer s ∈ new
    · rw [heq, if_pos hnew, ((hmem _).mp hnew).2.1]
      decide
    · rw [heq, if_neg hnew]
  rw [decide_eq_decide.mpr hsame]

theorem look_foldl (hdesc : Describes ctx follows R bound) (w : Wave) (hB : w.queueB = []) (n : ℕ)
    (hn : n ≤ w.queueA.length) :
    Grow w ((List.range n).foldl (look ctx follows) w) (fun v =>
      ∃ i < n, isReady ctx follows w.marks (w.queueA.getD i 0) = true ∧ R (w.queueA.getD i 0) v) ∧
    ((List.range n).foldl (look ctx follows) w).queueB =
      (List.range n).filter fun i => isReady ctx follows w.marks (w.queueA.getD i 0) := by
  induction n with
  | zero => exact ⟨(Grow.refl w).of_iff (by simp), hB⟩
  | succ n ih =>
    obtain ⟨hgrow, hqueueB⟩ := ih (Nat.le_of_succ_le hn)
    let w' := (List.range n).foldl (look ctx follows) w
    have hnode : w'.queueA.getD n 0 = w.queueA.getD n 0 := by
      obtain ⟨-, new, hqueue, -⟩ := hgrow
      rw [hqueue, List.getD_append _ _ _ _ hn]
    have hready : isReady ctx follows w'.marks (w'.queueA.getD n 0) =
        isReady ctx follows w.marks (w.queueA.getD n 0) := by
      rw [hnode]
      exact hgrow.isReady_eq _
    rw [List.range_succ, List.foldl_append, List.filter_append]
    show Grow w (look ctx follows w' n) _ ∧ (look ctx follows w' n).queueB = _
    unfold look
    dsimp only
    by_cases hr : isReady ctx follows w.marks (w.queueA.getD n 0) = true
    · rw [hready, if_pos hr, hnode]
      let noted : Wave := { w' with queueB := w'.queueB ++ [n] }
      obtain ⟨hspread, hspreadB⟩ := spread_foldl ctx follows (ctx.adds (w.queueA.getD n 0)) noted
      have hnoted : Grow w noted (fun v => ∃ i < n,
          isReady ctx follows w.marks (w.queueA.getD i 0) = true ∧ R (w.queueA.getD i 0) v) := hgrow
      constructor
      · apply (hnoted.trans hspread).of_iff
        intro v
        rw [← hdesc.adds, Nat.exists_lt_succ_right]
        exact or_congr_right (iff_and_self.mpr fun _ => hr)
      · rw [hspreadB, List.filter_cons, if_pos hr]
        exact congrArg (· ++ [n]) hqueueB
    · rw [hready, if_neg hr]
      constructor
      · apply hgrow.of_iff
        intro v
        rw [Nat.exists_lt_succ_right]
        exact (or_iff_left fun h => hr h.1).symm
      · rw [List.filter_cons, if_neg hr, List.filter_nil, List.append_nil]
        exact hqueueB

/-- What a layer does to the queue and the marks: the ready nodes leave the queue with the level,
and their successors without a mark come in. -/
theorem layer_spec (hdesc : Describes ctx follows R bound) (level : ℕ) (w : Wave)
    (hnodes : ∀ v ∈ w.queueA, v < w.marks.length) :
    ∃ picks new : List ℕ, (∀ v, v ∈ picks ↔
        v ∈ w.queueA ∧ isReady ctx follows w.marks v = true) ∧
      new.Nodup ∧ (∀ v, v ∈ new ↔ v < w.marks.length ∧ markOf w v = 0 ∧ ∃ u ∈ picks, R u v) ∧
      (w.queueA ++ new).Perm (picks ++ (layer ctx follows level w).queueA) ∧
      (layer ctx follows level w).marks.length = w.marks.length ∧
      ∀ v, markOf (layer ctx follows level w) v =
        if v ∈ picks then UInt16.ofNat level else if v ∈ new then 1 else markOf w v := by
  let start : Wave := { w with queueB := [] }
  let looked := (List.range w.queueA.length).foldl (look ctx follows) start
  obtain ⟨hgrow, hqueueB⟩ := look_foldl hdesc start rfl w.queueA.length (Nat.le_refl _)
  obtain ⟨hlen, new, hqueue, hnodup, hmem, hmark⟩ := hgrow
  have hplace : ∀ i < w.queueA.length, looked.queueA.getD i 0 = w.queueA.getD i 0 := by
    intro i hi
    show looked.queueA.getD i 0 = start.queueA.getD i 0
    rw [hqueue, List.getD_append _ _ _ _ hi]
  have hplaces : ∀ i ∈ looked.queueB.reverse, i < w.queueA.length := by
    intro i hi
    rw [List.mem_reverse, hqueueB, List.mem_filter, List.mem_range] at hi
    exact hi.1
  have hdown : looked.queueB.reverse.Pairwise (· > ·) := by
    rw [List.pairwise_reverse, hqueueB]
    exact List.pairwise_lt_range.filter _
  have hpick : ∀ v, v ∈ looked.queueB.reverse.map (looked.queueA.getD · 0) ↔
      v ∈ w.queueA ∧ isReady ctx follows w.marks v = true := by
    intro v
    rw [List.mem_map]
    constructor
    · rintro ⟨i, hi, rfl⟩
      have hlt := hplaces i hi
      rw [List.mem_reverse, hqueueB, List.mem_filter] at hi
      rw [hplace i hlt]
      refine ⟨?_, hi.2⟩
      rw [List.getD_eq_getElem _ _ hlt]
      exact List.getElem_mem hlt
    · rintro ⟨hv, hready⟩
      obtain ⟨i, hlt, rfl⟩ := List.getElem_of_mem hv
      have hget : w.queueA.getD i 0 = w.queueA[i] := List.getD_eq_getElem _ _ hlt
      refine ⟨i, ?_, (hplace i hlt).trans hget⟩
      rw [List.mem_reverse, hqueueB, List.mem_filter, List.mem_range]
      exact ⟨hlt, by rw [← hget] at hready; exact hready⟩
  have hnew : ∀ v, v ∈ new ↔ v < w.marks.length ∧ markOf w v = 0 ∧
      ∃ u ∈ looked.queueB.reverse.map (looked.queueA.getD · 0), R u v := by
    intro v
    rw [hmem v]
    apply and_congr_right
    intro _
    apply and_congr_right
    intro _
    constructor
    · rintro ⟨i, hi, hready, hedge⟩
      refine ⟨w.queueA.getD i 0, (hpick _).mpr ⟨?_, hready⟩, hedge⟩
      rw [List.getD_eq_getElem _ _ hi]
      exact List.getElem_mem hi
    · rintro ⟨u, hu, hedge⟩
      obtain ⟨hqueued, hready⟩ := (hpick u).mp hu
      obtain ⟨i, hi, rfl⟩ := List.getElem_of_mem hqueued
      have hget : w.queueA.getD i 0 = w.queueA[i] := List.getD_eq_getElem _ _ hi
      exact ⟨i, hi, hget.symm ▸ hready, hget.symm ▸ hedge⟩
  have hlookedNodes : ∀ v ∈ looked.queueA, v < looked.marks.length := by
    intro v hv
    rw [hqueue, List.mem_append] at hv
    rw [hlen]
    rcases hv with hold | hv
    · exact hnodes v hold
    · exact ((hmem v).mp hv).1
  obtain ⟨hperm, hsettled, hlevels⟩ := settle_foldl level looked.queueB.reverse looked hdown
    (by
      intro i hi
      rw [hqueue, List.length_append]
      exact Nat.lt_add_right _ (hplaces i hi)) hlookedNodes
  refine ⟨looked.queueB.reverse.map (looked.queueA.getD · 0), new, hpick, hnodup, hnew,
    hqueue ▸ hperm, hsettled.trans hlen, ?_⟩
  intro v
  exact (hlevels v).trans (by rw [hmark v]; rfl)

end Layer

/-! ### All layers -/

section Wave

/-- The wave after `k` layers: the marks are the rounds of the nodes that are settled, and the queue
has the seed and the successors of settled nodes, as far as they are not settled. -/
structure WaveInv (R : ℕ → ℕ → Prop) (seed bound k : ℕ) (w : Wave) : Prop where
  len : bound ≤ w.marks.length
  nodup : w.queueA.Nodup
  queue : ∀ v, v ∈ w.queueA ↔
    ¬Settled R seed k v ∧ (v = seed ∨ ∃ u, R u v ∧ Settled R seed k u)
  settled : ∀ v, 1 < markOf w v ↔ Settled R seed k v
  free : ∀ v, markOf w v = 0 ↔ ¬Settled R seed k v ∧ (v = seed ∨ v ∉ w.queueA)
  level : ∀ j < k, ∀ v, Settled R seed (j + 1) v → ¬Settled R seed j v →
    markOf w v = UInt16.ofNat (j + 2)

variable {ctx : StCutContext} {follows : StCutSlot → Bool} {R : ℕ → ℕ → Prop} {bound seed : ℕ}

theorem WaveInv.queue_lt (hdesc : Describes ctx follows R bound) (hseed : seed < bound)
    (h : WaveInv R seed bound k w) : ∀ v ∈ w.queueA, v < bound := by
  intro v hv
  rcases ((h.queue v).mp hv).2 with rfl | ⟨u, hedge, -⟩
  · exact hseed
  · exact (hdesc.nodes u v hedge).2

theorem waveInv_start (marks : List UInt16) (hlen : bound ≤ marks.length) :
    WaveInv R seed bound 0 ⟨marks.map fun _ => 0, [seed], []⟩ := by
  have hzero : ∀ v, markOf ⟨marks.map fun _ => (0 : UInt16), [seed], []⟩ v = 0 := by
    intro v
    unfold markOf
    rw [List.getD_eq_getElem?_getD, List.getElem?_map]
    cases marks[v]? <;> rfl
  constructor
  · rw [List.length_map]
    exact hlen
  · exact List.nodup_singleton seed
  · intro v
    simp [Settled]
  · intro v
    rw [hzero v]
    simp [Settled]
  · intro v
    rw [hzero v]
    simp [Settled, em]
  · intro j hj
    exact absurd hj (Nat.not_lt_zero j)

theorem WaveInv.ready_iff (hdesc : Describes ctx follows R bound) (h : WaveInv R seed bound k w)
    (v : ℕ) :
    v ∈ w.queueA ∧ isReady ctx follows w.marks v = true ↔
      Settled R seed (k + 1) v ∧ ¬Settled R seed k v := by
  have hready : isReady ctx follows w.marks v = true ↔ ∀ u, R u v → Settled R seed k u := by
    rw [isReady_iff hdesc h.len]
    exact forall_congr' fun u => imp_congr_right fun _ => h.settled u
  rw [h.queue v, hready]
  constructor
  · rintro ⟨⟨hnot, hwhy⟩, hpred⟩
    exact ⟨Or.inr ⟨hpred, hwhy.imp_right fun ⟨u, hedge, _⟩ => ⟨u, hedge⟩⟩, hnot⟩
  · rintro ⟨hold | ⟨hpred, hwhy⟩, hnot⟩
    · exact absurd hold hnot
    · exact ⟨⟨hnot, hwhy.imp_right fun ⟨u, hedge⟩ => ⟨u, hedge, hpred u hedge⟩⟩, hpred⟩

theorem waveInv_layer (hdesc : Describes ctx follows R bound) (hseed : seed < bound)
    (h : WaveInv R seed bound k w)
    (hfits : ∀ v, Settled R seed (k + 1) v → ¬Settled R seed k v → k + 2 < 2 ^ 16) :
    WaveInv R seed bound (k + 1) (layer ctx follows (k + 2) w) := by
  obtain ⟨picks, new, hpick, hnewNodup, hnew, hperm, hlen, hmark⟩ :=
    layer_spec hdesc (k + 2) w fun v hv => Nat.lt_of_lt_of_le (h.queue_lt hdesc hseed v hv) h.len
  have hround : ∀ v, v ∈ picks ↔ Settled R seed (k + 1) v ∧ ¬Settled R seed k v := fun v =>
    (hpick v).trans (h.ready_iff hdesc v)
  -- the seed has a predecessor only if nothing is settled, so it does not come in again
  have hseedNew : seed ∉ new := by
    intro hmem
    obtain ⟨u, hu, hedge⟩ := ((hnew seed).mp hmem).2.2
    exact ((hround u).mp hu).1.isSource u hedge
  have hfresh : ∀ v ∈ new, ¬Settled R seed (k + 1) v ∧ v ∉ w.queueA := by
    intro v hv
    obtain ⟨-, hzero, u, hu, hedge⟩ := (hnew v).mp hv
    obtain ⟨hnot, hfree⟩ := (h.free v).mp hzero
    have hqueue : v ∉ w.queueA := hfree.resolve_left fun heq => hseedNew (heq ▸ hv)
    refine ⟨?_, hqueue⟩
    rintro (hold | ⟨hpred, -⟩)
    · exact hnot hold
    · exact ((hround u).mp hu).2 (hpred u hedge)
  have hnodup : (picks ++ (layer ctx follows (k + 2) w).queueA).Nodup := by
    rw [← hperm.nodup_iff, List.nodup_append']
    exact ⟨h.nodup, hnewNodup, fun v hv hv' => (hfresh v hv').2 hv⟩
  rw [List.nodup_append'] at hnodup
  have hqueue : ∀ v, v ∈ (layer ctx follows (k + 2) w).queueA ↔
      (v ∈ w.queueA ∨ v ∈ new) ∧ v ∉ picks := by
    intro v
    have hmem := hperm.mem_iff (a := v)
    rw [List.mem_append, List.mem_append] at hmem
    rw [hmem]
    constructor
    · intro hv
      exact ⟨Or.inr hv, fun hp => hnodup.2.2 hp hv⟩
    · rintro ⟨hv, hp⟩
      exact hv.resolve_left hp
  have hqueue' : ∀ v, v ∈ (layer ctx follows (k + 2) w).queueA ↔
      ¬Settled R seed (k + 1) v ∧ (v = seed ∨ ∃ u, R u v ∧ Settled R seed (k + 1) u) := by
    intro v
    rw [hqueue v]
    constructor
    · rintro ⟨hold | hv, hp⟩
      · obtain ⟨hnot, hwhy⟩ := (h.queue v).mp hold
        refine ⟨fun hs => hp ((hround v).mpr ⟨hs, hnot⟩), ?_⟩
        exact hwhy.imp_right fun ⟨u, hedge, hu⟩ => ⟨u, hedge, Or.inl hu⟩
      · obtain ⟨u, hu, hedge⟩ := ((hnew v).mp hv).2.2
        exact ⟨(hfresh v hv).1, Or.inr ⟨u, hedge, ((hround u).mp hu).1⟩⟩
    · rintro ⟨hnot, hwhy⟩
      have hnotOld : ¬Settled R seed k v := fun hs => hnot (Or.inl hs)
      refine ⟨?_, fun hp => hnot ((hround v).mp hp).1⟩
      rcases hwhy with rfl | ⟨u, hedge, hu⟩
      · exact Or.inl ((h.queue v).mpr ⟨hnotOld, Or.inl rfl⟩)
      · by_cases hold : Settled R seed k u
        · exact Or.inl ((h.queue v).mpr ⟨hnotOld, Or.inr ⟨u, hedge, hold⟩⟩)
        · by_cases hv : v ∈ w.queueA
          · exact Or.inl hv
          · right
            refine (hnew v).mpr ⟨Nat.lt_of_lt_of_le (hdesc.nodes u v hedge).2 h.len, ?_,
              u, (hround u).mpr ⟨hu, hold⟩, hedge⟩
            exact (h.free v).mpr ⟨hnotOld, Or.inr hv⟩
  have hold : ∀ v, v ∉ picks → (Settled R seed k v ↔ Settled R seed (k + 1) v) := by
    intro v hp
    constructor
    · exact Or.inl
    · intro hs
      by_contra hnot
      exact hp ((hround v).mpr ⟨hs, hnot⟩)
  constructor
  · exact hlen ▸ h.len
  · exact hnodup.2.1
  · exact hqueue'
  · intro v
    rw [hmark v]
    by_cases hp : v ∈ picks
    · rw [if_pos hp]
      have hs := (hround v).mp hp
      refine iff_of_true ?_ hs.1
      rw [UInt16.lt_iff_toNat_lt, UInt16.toNat_ofNat_of_lt' (hfits v hs.1 hs.2)]
      exact Nat.succ_lt_succ (Nat.succ_pos k)
    · rw [if_neg hp]
      by_cases hv : v ∈ new
      · rw [if_pos hv]
        exact iff_of_false (by decide) (hfresh v hv).1
      · rw [if_neg hv, h.settled v]
        exact hold v hp
  · intro v
    rw [hmark v]
    by_cases hp : v ∈ picks
    · rw [if_pos hp]
      have hs := (hround v).mp hp
      refine iff_of_false ?_ fun hnot => hnot.1 hs.1
      rw [← UInt16.toNat_inj, UInt16.toNat_ofNat_of_lt' (hfits v hs.1 hs.2)]
      exact Nat.succ_ne_zero _
    · rw [if_neg hp]
      by_cases hv : v ∈ new
      · rw [if_pos hv]
        refine iff_of_false (by decide) ?_
        rintro ⟨-, rfl | hout⟩
        · exact hseedNew hv
        · exact hout ((hqueue v).mpr ⟨Or.inr hv, hp⟩)
      · rw [if_neg hv, h.free v, hold v hp, hqueue v]
        simp [hp, hv]
  · intro j hj v hs hnot
    rw [hmark v]
    rcases Nat.lt_succ_iff_lt_or_eq.mp hj with hlt | rfl
    · have hbefore : Settled R seed k v := hs.mono hlt
      have hp : v ∉ picks := fun hp => ((hround v).mp hp).2 hbefore
      have hv : v ∉ new := fun hv => (hfresh v hv).1 (Or.inl hbefore)
      rw [if_neg hp, if_neg hv]
      exact h.level j hlt v hs hnot
    · rw [if_pos ((hround v).mpr ⟨hs, hnot⟩)]

theorem WaveInv.next_of_empty (h : WaveInv R seed bound k w) (hempty : w.queueA = []) :
    WaveInv R seed bound (k + 1) w := by
  have hsame : ∀ v, Settled R seed (k + 1) v ↔ Settled R seed k v := by
    intro v
    constructor
    · rintro (hs | ⟨hpred, hwhy⟩)
      · exact hs
      · by_contra hnot
        have hmem := (h.queue v).mpr
          ⟨hnot, hwhy.imp_right fun ⟨u, hedge⟩ => ⟨u, hedge, hpred u hedge⟩⟩
        rw [hempty] at hmem
        exact List.not_mem_nil hmem
    · exact Or.inl
  refine ⟨h.len, h.nodup, ?_, ?_, ?_, ?_⟩
  · intro v
    simp only [hsame]
    exact h.queue v
  · intro v
    rw [hsame]
    exact h.settled v
  · intro v
    rw [hsame]
    exact h.free v
  · intro j hj v hs hnot
    rcases Nat.lt_succ_iff_lt_or_eq.mp hj with hlt | rfl
    · exact h.level j hlt v hs hnot
    · exact absurd ((hsame v).mp hs) hnot

theorem waveInv_layers (hdesc : Describes ctx follows R bound) (hseed : seed < bound)
    (hfits : ∀ k v, Settled R seed (k + 1) v → ¬Settled R seed k v → k + 2 < 2 ^ 16) (left k : ℕ)
    (h : WaveInv R seed bound k w) :
    WaveInv R seed bound (k + left) (layers ctx follows left (k + 2) w) := by
  induction left generalizing k w with
  | zero => exact h
  | succ left ih =>
    unfold layers
    by_cases hempty : w.queueA = []
    · rw [if_pos hempty]
      have hmany : ∀ n, WaveInv R seed bound (k + n) w := by
        intro n
        induction n with
        | zero => exact h
        | succ n ihn => exact ihn.next_of_empty hempty
      exact hmany (left + 1)
    · rw [if_neg hempty]
      have hnext := ih (k + 1) (waveInv_layer hdesc hseed h (hfits k))
      rw [Nat.add_right_comm k 2 1, Nat.add_comm left 1, ← Nat.add_assoc]
      exact hnext

end Wave

/-! ### Both waves -/

section Marks

/-- The nodes with a level are those behind which only the seed begins, and the level is the length
of the longest walk from the seed, counted from 2. -/
structure MarksLevels (R : ℕ → ℕ → Prop) (seed bound : ℕ) (marks : List UInt16) : Prop where
  marked : ∀ v < bound, 2 ≤ (marks.getD v 0).toNat ↔ IsSource R seed ∧ RootedAt R seed v
  level : ∀ v < bound, 2 ≤ (marks.getD v 0).toNat →
    ∃ d, (marks.getD v 0).toNat = 2 + d ∧ IsGreatest {n | Walk R n seed v} d

variable {ctx : StCutContext} {follows : StCutSlot → Bool} {R : ℕ → ℕ → Prop} {bound seed : ℕ}

theorem levelMarks_spec (hdesc : Describes ctx follows R bound) (hacyclic : Acyclic R)
    (hfits : ∀ n u v, Walk R n u v → n + 2 < 2 ^ 16) (hseed : seed < bound)
    (hadd : bound ≤ ctx.addSet.length) (hlen : bound ≤ marks.length) :
    MarksLevels R seed bound (levelMarks ctx follows seed marks (bound + 2)) := by
  have hwalks : ∀ n u v, Walk R n u v → n < 2 ^ 16 := fun n u v hwalk =>
    Nat.lt_of_le_of_lt (Nat.le_add_right n 2) (hfits n u v hwalk)
  have hlevels : ∀ k v, Settled R seed (k + 1) v → ¬Settled R seed k v → k + 2 < 2 ^ 16 :=
    fun k v hs hnot => hfits k seed v (isGreatest_of_settled hwalks hs hnot).1
  have hinv := waveInv_layers hdesc hseed hlevels (bound + 2) 0 (waveInv_start marks hlen)
  rw [Nat.zero_add] at hinv
  unfold levelMarks
  rw [if_neg (Nat.not_le_of_lt (Nat.lt_of_lt_of_le hseed hadd))]
  let w := layers ctx follows (bound + 2) 2 ⟨marks.map fun _ => 0, [seed], []⟩
  have hbig : ∀ v, 2 ≤ (w.marks.getD v 0).toNat ↔ Settled R seed (bound + 2) v := by
    intro v
    rw [← hinv.settled v, UInt16.lt_iff_toNat_lt]
    rfl
  constructor
  · intro v hv
    rw [hbig v, settled_iff hwalks]
    constructor
    · exact fun h => ⟨h.1, h.2.1⟩
    · intro h
      refine ⟨h.1, h.2, fun n hwalk => ?_⟩
      have hlt := hwalk.lt_of_acyclic hacyclic hdesc.nodes hv
      omega
  · intro v _ hmarked
    obtain ⟨k, hk, hs, hnot⟩ := exists_round ((hbig v).mp hmarked)
    refine ⟨k, ?_, isGreatest_of_settled hwalks hs hnot⟩
    have hmark : w.marks.getD v 0 = UInt16.ofNat (k + 2) := hinv.level k hk v hs hnot
    rw [hmark, UInt16.toNat_ofNat_of_lt' (hlevels k v hs hnot), Nat.add_comm]

open Analysis.StCutLedger

/-- A slot without the flag 4 leads from one node to the other. -/
def SoftEdge (ctx : StCutContext) (u v : ℕ) : Prop :=
  ∃ a ∈ ctx.adds u, (ctx.slot a).crosses = false ∧ (ctx.slot a).canon = v

theorem InPair.isEdge (h : InPair ctx e) (hsoft : (ctx.slot e).crosses = false) : IsEdge ctx e := by
  rcases h.2 with hedge | hedge
  · exact hedge
  · have hhard := hedge.hard
    rw [h.1, hsoft] at hhard
    cases hhard

theorem InPair.isEdge_partner (h : InPair ctx e) (hhard : (ctx.slot e).crosses = true) :
    IsEdge ctx (ctx.slot e).idx := by
  rcases h.2 with hedge | hedge
  · have hsoft := hedge.soft
    rw [hhard] at hsoft
    cases hsoft
  · exact hedge

theorem PairInvariant.of_adds (hinv : PairInvariant ctx) {n : ℕ} (he : e ∈ ctx.adds n) :
    InPair ctx e ∧ ctx.peer e = n :=
  (hinv.adds n (exists_of_mem_getD he).1 e he).2

theorem PairInvariant.of_subs (hinv : PairInvariant ctx) {n : ℕ} (he : e ∈ ctx.subs n) :
    InPair ctx e ∧ (ctx.slot e).canon = n :=
  (hinv.subs n (exists_of_mem_getD he).1 e he).2

theorem softEdge_lt (hinv : PairInvariant ctx) {u v : ℕ} (h : SoftEdge ctx u v) :
    u < ctx.addSet.length ∧ v < ctx.addSet.length := by
  obtain ⟨a, ha, hsoft, rfl⟩ := h
  have hedge := InPair.isEdge (PairInvariant.of_adds hinv ha).1 hsoft
  exact ⟨(exists_of_mem_getD ha).1, (exists_of_mem_getD hedge.addSucc).1⟩

theorem describes_soft (hinv : PairInvariant ctx) (hadd : ctx.addSet.length = ctx.nodeCount) :
    Describes ctx (fun s => !s.crosses) (SoftEdge ctx) ctx.nodeCount := by
  constructor
  · intro u v
    simp only [Bool.not_eq_true']
    exact Iff.rfl
  · intro u v
    simp only [Bool.not_eq_true']
    constructor
    · rintro ⟨a, ha, hsoft, rfl⟩
      obtain ⟨hpair, hpeer⟩ := PairInvariant.of_adds hinv ha
      exact ⟨a, (InPair.isEdge hpair hsoft).subSucc, hsoft, hpeer⟩
    · rintro ⟨s, hs, hsoft, rfl⟩
      obtain ⟨hpair, hcanon⟩ := PairInvariant.of_subs hinv hs
      exact ⟨s, (InPair.isEdge hpair hsoft).addPred, hsoft, hcanon⟩
  · intro u v h
    rw [← hadd]
    exact softEdge_lt hinv h

theorem describes_hard (hinv : PairInvariant ctx) (hadd : ctx.addSet.length = ctx.nodeCount) :
    Describes ctx (fun s => s.crosses) (fun u v => SoftEdge ctx v u) ctx.nodeCount := by
  -- slot B of a pair with slot A
  have hpartner : ∀ {a : ℕ}, InPair ctx a → ctx.peer (ctx.slot a).idx = (ctx.slot a).canon := by
    intro a hpair
    unfold StCutContext.peer
    rw [hpair.1]
  constructor
  · intro u v
    constructor
    · rintro ⟨a, ha, hsoft, rfl⟩
      obtain ⟨hpair, hpeer⟩ := PairInvariant.of_adds hinv ha
      have hedge := InPair.isEdge hpair hsoft
      exact ⟨(ctx.slot a).idx, hedge.addSucc, hedge.hard, hpeer⟩
    · rintro ⟨s, hs, hhard, rfl⟩
      obtain ⟨hpair, hpeer⟩ := PairInvariant.of_adds hinv hs
      have hedge := InPair.isEdge_partner hpair hhard
      exact ⟨(ctx.slot s).idx, hpartner hpair ▸ hedge.addPred, hedge.soft, hpeer⟩
  · intro u v
    constructor
    · rintro ⟨a, ha, hsoft, rfl⟩
      obtain ⟨hpair, hpeer⟩ := PairInvariant.of_adds hinv ha
      have hedge := InPair.isEdge hpair hsoft
      exact ⟨(ctx.slot a).idx, hpeer ▸ hedge.subPred, hedge.hard, hpartner hpair⟩
    · rintro ⟨s, hs, hhard, rfl⟩
      obtain ⟨hpair, hcanon⟩ := PairInvariant.of_subs hinv hs
      have hedge := InPair.isEdge_partner hpair hhard
      refine ⟨(ctx.slot s).idx, ?_, hedge.soft, rfl⟩
      rw [← hcanon, ← hpartner hpair]
      exact hedge.addPred
  · intro u v h
    rw [← hadd]
    exact (softEdge_lt hinv h).symm

/-- Both waves mark the levels of their relation. -/
theorem marks_levels (hinv : PairInvariant ctx) (hadd : ctx.addSet.length = ctx.nodeCount)
    (hmarks : ctx.nodeCount ≤ ctx.markTable.length) (hacyclic : Acyclic (SoftEdge ctx))
    (hfits : ∀ n u v, Walk (SoftEdge ctx) n u v → n + 2 < 2 ^ 16) (hseed : seed < ctx.nodeCount) :
    MarksLevels (SoftEdge ctx) seed ctx.nodeCount
        (stcutMarkLevels ctx seed (ctx.nodeCount + 2)).markTable ∧
      ∀ marks : List UInt16, ctx.nodeCount ≤ marks.length →
        MarksLevels (fun u v => SoftEdge ctx v u) seed ctx.nodeCount
          (stcutLevelMarkBfs ctx seed marks (ctx.nodeCount + 2)) := by
  constructor
  · exact levelMarks_spec (describes_soft hinv hadd) hacyclic hfits hseed (Nat.le_of_eq hadd.symm)
      hmarks
  · intro marks hlen
    exact levelMarks_spec (describes_hard hinv hadd) hacyclic.swap
      (fun n u v hwalk => hfits n v u (walk_swap.mp hwalk)) hseed (Nat.le_of_eq hadd.symm) hlen

def oneArc : StCutContext :=
  twoNodes [⟨1, 1, 10, 0⟩, ⟨0, 0, stcutMaxWeight, 4⟩] [[0], [1]] [[1], [0]]

theorem oneArc_softEdge {u v : ℕ} (h : SoftEdge oneArc u v) : u = 0 ∧ v = 1 := by
  obtain ⟨a, ha, hsoft, hcanon⟩ := h
  have hu : u < 2 := (exists_of_mem_getD ha).1
  have hall : ∀ n < 2, ∀ e ∈ oneArc.adds n, (oneArc.slot e).crosses = false →
      n = 0 ∧ (oneArc.slot e).canon = 1 := by decide
  have hend := hall u hu a ha hsoft
  exact ⟨hend.1, hcanon.symm.trans hend.2⟩

/-- From either end of the arc: the first wave along it, the second against it. -/
theorem oneArc_levels :
    MarksLevels (SoftEdge oneArc) 0 oneArc.nodeCount
        (stcutMarkLevels oneArc 0 (oneArc.nodeCount + 2)).markTable ∧
      MarksLevels (fun u v => SoftEdge oneArc v u) 1 oneArc.nodeCount
        (stcutLevelMarkBfs oneArc 1 [0, 0] (oneArc.nodeCount + 2)) := by
  have hinv : PairInvariant oneArc :=
    ⟨by decide, by decide, by decide, by decide, by decide, by decide⟩
  have hacyclic : Acyclic (SoftEdge oneArc) := by
    intro v hpath
    obtain ⟨w, hfirst, -⟩ := Relation.TransGen.head'_iff.mp hpath
    obtain ⟨x, -, hlast⟩ := Relation.TransGen.tail'_iff.mp hpath
    have hzero := (oneArc_softEdge hfirst).1
    have hone := (oneArc_softEdge hlast).2
    omega
  have hfits : ∀ n u v, Walk (SoftEdge oneArc) n u v → n + 2 < 2 ^ 16 := by
    intro n u v hwalk
    rcases Nat.lt_or_ge n 2 with hn | hn
    · omega
    · obtain ⟨n, rfl⟩ := Nat.exists_eq_add_of_le' hn
      obtain ⟨w, ⟨x, -, hbefore⟩, hlast⟩ := hwalk
      have hone := (oneArc_softEdge hbefore).2
      have hzero := (oneArc_softEdge hlast).1
      omega
  have hmarks : ∀ seed < oneArc.nodeCount, _ := fun seed hseed =>
    marks_levels hinv rfl (Nat.le_refl _) hacyclic hfits hseed
  exact ⟨(hmarks 0 (by decide)).1, (hmarks 1 (by decide)).2 [0, 0] (by decide)⟩

end Marks

end Gehtp.Analysis.StCutLevels
