import Mathlib.Order.WellFoundedSet
import Gehtp.Lib.Kahn

/-!
# Kahn's algorithm with a queue

The same algorithm with the ready nodes in a queue. The order of the ready nodes does not matter to
the invariant, so it is kept as it is with a stack. If the graph has no cycle and every node without
predecessors is ready at the start, every node gets finished.
-/

set_option autoImplicit false

namespace Gehtp.Lib.Kahn

variable {α : Type} [DecidableEq α]

/-- Count down one successor; one that is ready now goes to the end of the queue. -/
def releaseLast (p : List α × (α → ℕ)) (s : α) : List α × (α → ℕ) :=
  if p.2 s = 1 then (p.1 ++ [s], Function.update p.2 s 0)
  else (p.1, Function.update p.2 s (p.2 s - 1))

/-- Finish the node `v`, the rest of the queue being `rest`. -/
def visitLast (succ : α → List α) (w : Work α) (v : α) (rest : List α) : Work α :=
  let p := (succ v).foldl releaseLast (rest, w.indeg)
  ⟨p.1, p.2, w.done ++ [v]⟩

/-- Finish up to `n` nodes. -/
def drainLast (succ : α → List α) : ℕ → Work α → Work α
  | 0, w => w
  | n + 1, w =>
    match w.ready with
    | [] => w
    | v :: rest => drainLast succ n (visitLast succ w v rest)

/-! ### The order of the ready nodes -/

theorem releaseLast_perm {p q : List α × (α → ℕ)} (hready : p.1.Perm q.1) (hcount : p.2 = q.2)
    (s : α) : (releaseLast p s).1.Perm (release q s).1 ∧ (releaseLast p s).2 = (release q s).2 := by
  unfold releaseLast release
  rw [hcount]
  split
  · refine ⟨?_, rfl⟩
    exact (List.perm_append_singleton s p.1).trans (hready.cons s)
  · exact ⟨hready, rfl⟩

theorem foldl_releaseLast_perm (l : List α) {p q : List α × (α → ℕ)} (hready : p.1.Perm q.1)
    (hcount : p.2 = q.2) :
    (l.foldl releaseLast p).1.Perm (l.foldl release q).1 ∧
      (l.foldl releaseLast p).2 = (l.foldl release q).2 := by
  induction l generalizing p q with
  | nil => exact ⟨hready, hcount⟩
  | cons s l ih =>
    obtain ⟨hr, hc⟩ := releaseLast_perm hready hcount s
    exact ih hr hc

variable {nodes : List α} {succ : α → List α}

theorem Inv.of_perm {w w' : Work α} (h : Inv nodes succ w) (hready : w'.ready.Perm w.ready)
    (hcount : w'.indeg = w.indeg) (hdone : w'.done = w.done) : Inv nodes succ w' := by
  have hperm : (w'.ready ++ w'.done).Perm (w.ready ++ w.done) := by
    rw [hdone]
    exact hready.append_right w.done
  refine ⟨hperm.nodup_iff.mpr h.nodup, ?_, ?_, ?_, ?_⟩
  · intro v hv
    exact h.inNodes v (hperm.mem_iff.mp hv)
  · intro v
    rw [hcount, hdone]
    exact h.counts v
  · intro v hv
    rw [hcount]
    exact h.zero v (hperm.mem_iff.mp hv)
  · rw [hdone]
    exact h.ordered

theorem visitLast_inv (hnodes : nodes.Nodup) (hsucc : ∀ u, ∀ v ∈ succ u, v ∈ nodes) {w : Work α}
    (h : Inv nodes succ w) {v : α} {rest : List α} (hready : w.ready = v :: rest) :
    Inv nodes succ (visitLast succ w v rest) := by
  obtain ⟨hperm, hcount⟩ := foldl_releaseLast_perm (succ v)
    (List.Perm.refl (rest, w.indeg).1) (rfl : (rest, w.indeg).2 = (rest, w.indeg).2)
  exact (visit_inv hnodes hsucc h hready).of_perm hperm hcount rfl

/-! ### Nobody is forgotten -/

/-- Every node without a count is ready or done. -/
def Started (nodes : List α) (w : Work α) : Prop :=
  ∀ v ∈ nodes, w.indeg v = 0 → v ∈ w.ready ++ w.done

theorem foldl_releaseLast_started (done l : List α) (p : List α × (α → ℕ))
    (h : ∀ v ∈ nodes, p.2 v = 0 → v ∈ p.1 ++ done) :
    ∀ v ∈ nodes, (l.foldl releaseLast p).2 v = 0 → v ∈ (l.foldl releaseLast p).1 ++ done := by
  induction l generalizing p with
  | nil => exact h
  | cons s l ih =>
    apply ih
    intro v hv hzero
    unfold releaseLast at hzero ⊢
    split at hzero
    · rename_i hone
      dsimp only at hzero
      rw [if_pos hone]
      by_cases hvs : v = s
      · rw [hvs]
        simp
      · rw [Function.update_of_ne hvs] at hzero
        have hold := h v hv hzero
        simp only [List.mem_append] at hold ⊢
        exact hold.imp_left Or.inl
    · rename_i hone
      dsimp only at hzero
      rw [if_neg hone]
      by_cases hvs : v = s
      · subst hvs
        rw [Function.update_self] at hzero
        exact h v hv (by omega)
      · rw [Function.update_of_ne hvs] at hzero
        exact h v hv hzero

theorem visitLast_started {w : Work α} (h : Started nodes w) {v : α} {rest : List α}
    (hready : w.ready = v :: rest) : Started nodes (visitLast succ w v rest) := by
  apply foldl_releaseLast_started
  intro u hu hzero
  have hold := h u hu hzero
  rw [hready, List.mem_append, List.mem_cons] at hold
  show u ∈ rest ++ (w.done ++ [v])
  rw [List.mem_append, List.mem_append, List.mem_singleton]
  rcases hold with (huv | hrest) | hdone
  · exact Or.inr (Or.inr huv)
  · exact Or.inl hrest
  · exact Or.inr (Or.inl hdone)

theorem drainLast_inv (hnodes : nodes.Nodup) (hsucc : ∀ u, ∀ v ∈ succ u, v ∈ nodes) (n : ℕ)
    {w : Work α} (h : Inv nodes succ w) (hs : Started nodes w) :
    Inv nodes succ (drainLast succ n w) ∧ Started nodes (drainLast succ n w) := by
  induction n generalizing w with
  | zero => exact ⟨h, hs⟩
  | succ n ih =>
    unfold drainLast
    split
    · exact ⟨h, hs⟩
    · rename_i v rest hready
      exact ih (visitLast_inv hnodes hsucc h hready) (visitLast_started hs hready)

theorem drainLast_ready (succ : α → List α) (n : ℕ) (w : Work α) :
    (drainLast succ n w).ready = [] ∨ (drainLast succ n w).done.length = w.done.length + n := by
  induction n generalizing w with
  | zero => exact .inr rfl
  | succ n ih =>
    unfold drainLast
    split
    · rename_i hready
      exact .inl hready
    · rename_i v rest hready
      cases ih (visitLast succ w v rest) with
      | inl hnil => exact .inl hnil
      | inr hlen =>
        refine .inr ?_
        rw [hlen, visitLast, List.length_append, List.length_singleton]
        omega

theorem pending_eq_zero {done : List α} {v : α}
    (h : ∀ u ∈ nodes, v ∈ succ u → u ∈ done) : pending nodes succ done v = 0 := by
  unfold pending
  apply List.sum_eq_zero
  intro n hn
  obtain ⟨u, hu, rfl⟩ := List.mem_map.mp hn
  obtain ⟨hunode, hudone⟩ := List.mem_filter.mp hu
  apply List.count_eq_zero.mpr
  intro hv
  exact of_decide_eq_true hudone (h u hunode hv)

theorem drainLast_all (hnodes : nodes.Nodup) (hsucc : ∀ u, ∀ v ∈ succ u, v ∈ nodes)
    (hacyclic : ∀ v, ¬ Relation.TransGen (fun u v => v ∈ succ u) v v) {w : Work α}
    (h : Inv nodes succ w) (hs : Started nodes w) {n : ℕ} (hn : nodes.length ≤ n) :
    ∀ v ∈ nodes, v ∈ (drainLast succ n w).done := by
  obtain ⟨hinv, hstarted⟩ := drainLast_inv hnodes hsucc n h hs
  have hlength := (List.subperm_of_subset hinv.nodup hinv.inNodes).length_le
  have hempty : (drainLast succ n w).ready = [] := by
    cases drainLast_ready succ n w with
    | inl hnil => exact hnil
    | inr hlen =>
      rw [List.length_append, hlen] at hlength
      apply List.length_eq_zero_iff.mp
      omega
  have horder : IsStrictOrder α (Relation.TransGen fun u v => v ∈ succ u) :=
    { irrefl := hacyclic, trans := fun _ _ _ => Relation.TransGen.trans }
  have hwf : ({v | v ∈ nodes} : Set α).WellFoundedOn (Relation.TransGen fun u v => v ∈ succ u) :=
    (List.finite_toSet nodes).wellFoundedOn
  intro v hv
  -- by induction along the edges: all predecessors are done, so the count is 0
  apply hwf.induction (x := v) hv
  intro y hy ih
  have hzero : (drainLast succ n w).indeg y = 0 := by
    rw [hinv.counts]
    apply pending_eq_zero
    intro u hu huy
    exact ih u hu (Relation.TransGen.single huy)
  have hmem := hstarted y hy hzero
  rw [hempty, List.nil_append] at hmem
  exact hmem

end Gehtp.Lib.Kahn
