import Mathlib.Algebra.Order.Ring.Nat
import Mathlib.Algebra.Order.BigOperators.Group.List
import Mathlib.Data.List.Nodup

/-!
# Kahn's algorithm with a stack

Nodes wait until all their predecessors are done. `drain` takes the node on top of
the stack of ready nodes, appends it to the list of finished ones and counts down the
in-degrees of its successors; a node whose count reaches 0 goes on the stack. If the
counts are those of the successor lists, every finished node stands after all its
predecessors, whatever the stack order and whether or not all nodes get finished.
-/

set_option autoImplicit false

namespace Gehtp.Lib.Kahn

variable {α : Type} [DecidableEq α]

/-- The ready nodes, the top of the stack first, the counts, and the finished nodes in
the order in which they were finished. -/
structure Work (α : Type) where
  ready : List α
  indeg : α → ℕ
  done : List α

/-- Count down one successor. A count of 0 belongs to no waiting node. -/
def release (p : List α × (α → ℕ)) (s : α) : List α × (α → ℕ) :=
  if p.2 s = 1 then (s :: p.1, Function.update p.2 s 0)
  else (p.1, Function.update p.2 s (p.2 s - 1))

/-- Finish the node `v`, the rest of the stack being `rest`. -/
def visit (succ : α → List α) (w : Work α) (v : α) (rest : List α) : Work α :=
  let p := (succ v).foldl release (rest, w.indeg)
  ⟨p.1, p.2, w.done ++ [v]⟩

/-- Finish up to `n` nodes. -/
def drain (succ : α → List α) : ℕ → Work α → Work α
  | 0, w => w
  | n + 1, w =>
    match w.ready with
    | [] => w
    | v :: rest => drain succ n (visit succ w v rest)

/-- Every element of a list that has a predecessor stands after it. -/
def PrecededBy (pred : α → α → Prop) (l : List α) : Prop :=
  ∀ pre v post, l = pre ++ v :: post → ∀ u, pred u v → u ∈ pre

omit [DecidableEq α] in
theorem precededBy_nil (pred : α → α → Prop) : PrecededBy pred [] := by
  intro pre v post h
  simp at h

omit [DecidableEq α] in
theorem concat_eq_append_cons {l pre post : List α} {v x : α} (h : l ++ [v] = pre ++ x :: post) :
    (x = v ∧ pre = l) ∨ ∃ post', l = pre ++ x :: post' := by
  rcases List.eq_nil_or_concat post with rfl | ⟨post', y, rfl⟩
  · obtain ⟨rfl, hx⟩ := List.append_inj' h rfl
    exact .inl ⟨by simpa using hx.symm, rfl⟩
  · have heq : l ++ [v] = (pre ++ x :: post') ++ [y] := by simpa using h
    exact .inr ⟨post', (List.append_inj' heq rfl).1⟩

omit [DecidableEq α] in
theorem PrecededBy.concat {pred : α → α → Prop} {l : List α} (h : PrecededBy pred l) {v : α}
    (hv : ∀ u, pred u v → u ∈ l) : PrecededBy pred (l ++ [v]) := by
  intro pre x post heq u hu
  rcases concat_eq_append_cons heq with ⟨rfl, rfl⟩ | ⟨post', hl⟩
  · exact hv u hu
  · exact h pre x post' hl u hu

omit [DecidableEq α] in
theorem PrecededBy.reverse {pred : α → α → Prop} {l : List α} (hnd : l.Nodup)
    (hin : ∀ u v, pred u v → u ∈ l) (h : PrecededBy (fun v u => pred u v) l) :
    PrecededBy pred l.reverse := by
  intro pre v post heq u hu
  obtain ⟨a, b, rfl⟩ := List.append_of_mem (hin u v hu)
  have hv : v ∈ a := h a u b rfl v hu
  -- `v` stands once, so it is not in the part up to `u` of the reverse
  have hnot : v ∉ b.reverse ++ [u] := by
    intro hmem
    refine List.disjoint_of_nodup_append hnd hv ?_
    rw [List.mem_append, List.mem_reverse, List.mem_singleton] at hmem
    exact hmem.elim (List.mem_cons_of_mem u) fun heq => heq ▸ List.mem_cons_self
  rw [List.reverse_append, List.reverse_cons] at heq
  obtain ⟨c, rfl, -⟩ | ⟨c, hc, hrest⟩ := List.append_eq_append_iff.mp heq
  · exact List.mem_append_left c (List.mem_append_right _ (List.mem_singleton_self u))
  · cases c with
    | nil =>
      rw [List.append_nil] at hc
      rw [← hc]
      exact List.mem_append_right _ (List.mem_singleton_self u)
    | cons x c =>
      obtain rfl := (List.cons_eq_cons.mp hrest).1
      rw [hc] at hnot
      exact absurd (List.mem_append_right pre List.mem_cons_self) hnot

/-- The number of edges into `v` from nodes that are not done. -/
def pending (nodes : List α) (succ : α → List α) (done : List α) (v : α) : ℕ :=
  ((nodes.filter fun u => decide (u ∉ done)).map fun u => (succ u).count v).sum

/-- The invariant of the work on `nodes`. -/
structure Inv (nodes : List α) (succ : α → List α) (w : Work α) : Prop where
  nodup : (w.ready ++ w.done).Nodup
  inNodes : ∀ v ∈ w.ready ++ w.done, v ∈ nodes
  counts : ∀ v, w.indeg v = pending nodes succ w.done v
  zero : ∀ v ∈ w.ready ++ w.done, w.indeg v = 0
  ordered : PrecededBy (fun u v => u ∈ nodes ∧ v ∈ succ u) w.done

section Visit

variable {nodes : List α} {succ : α → List α}

/-- Counting down a list of successors keeps the stack free of repetitions and of
nodes with a count, and lowers each count by the number of its occurrences. -/
theorem foldl_release (done l : List α) (p : List α × (α → ℕ)) (hl : ∀ s ∈ l, s ∈ nodes)
    (hnd : (p.1 ++ done).Nodup) (hin : ∀ v ∈ p.1 ++ done, v ∈ nodes)
    (hz : ∀ v ∈ p.1 ++ done, p.2 v = 0) :
    ((l.foldl release p).1 ++ done).Nodup ∧ (∀ v ∈ (l.foldl release p).1 ++ done, v ∈ nodes) ∧
      (∀ v ∈ (l.foldl release p).1 ++ done, (l.foldl release p).2 v = 0) ∧
      ∀ v, (l.foldl release p).2 v = p.2 v - l.count v := by
  induction l generalizing p with
  | nil => exact ⟨hnd, hin, hz, by simp⟩
  | cons s l ih =>
    have hcount : ∀ v, (release p s).2 v = p.2 v - [s].count v := by
      intro v
      unfold release
      by_cases hv : v = s
      · subst hv
        split <;> simp_all
      · split <;> simp [Function.update_of_ne hv, Ne.symm hv]
    have hstep : ((release p s).1 ++ done).Nodup ∧ (∀ v ∈ (release p s).1 ++ done, v ∈ nodes) ∧
        ∀ v ∈ (release p s).1 ++ done, (release p s).2 v = 0 := by
      have hkeep : ∀ v ∈ p.1 ++ done, (release p s).2 v = 0 := by
        intro v hv
        rw [hcount v, hz v hv, Nat.zero_sub]
      by_cases hone : p.2 s = 1
      · have hnew : s ∉ p.1 ++ done := fun hs => by
          have := hz s hs
          omega
        have hready : (release p s).1 = s :: p.1 := by simp [release, hone]
        rw [hready]
        refine ⟨List.nodup_cons.mpr ⟨hnew, hnd⟩, fun v hv => ?_, fun v hv => ?_⟩
        · rcases List.mem_cons.mp hv with rfl | hv
          · exact hl v (by simp)
          · exact hin v hv
        · rcases List.mem_cons.mp hv with rfl | hv
          · rw [hcount, hone]
            simp
          · exact hkeep v hv
      · have hready : (release p s).1 = p.1 := by simp [release, hone]
        rw [hready]
        exact ⟨hnd, hin, hkeep⟩
    obtain ⟨h1, h2, h3, h4⟩ := ih (release p s) (fun x hx => hl x (by simp [hx])) hstep.1 hstep.2.1
      hstep.2.2
    refine ⟨h1, h2, h3, fun v => ?_⟩
    rw [List.foldl_cons, h4, hcount, Nat.sub_sub]
    congr 1
    simp only [List.count_cons, List.count_nil]
    omega

theorem pending_concat (hnodes : nodes.Nodup) {done : List α} {v : α} (hv : v ∈ nodes)
    (hnew : v ∉ done) (x : α) :
    pending nodes succ (done ++ [v]) x = pending nodes succ done x - (succ v).count x := by
  have hperm : (nodes.filter fun u => decide (u ∉ done)).Perm
      (v :: nodes.filter fun u => decide (u ∉ done ++ [v])) := by
    refine (List.perm_ext_iff_of_nodup (hnodes.filter _) ?_).mpr fun u => ?_
    · refine List.nodup_cons.mpr ⟨?_, hnodes.filter _⟩
      simp
    · simp only [List.mem_filter, List.mem_cons, decide_eq_true_eq, List.mem_append, not_or]
      constructor
      · rintro ⟨hu, hd⟩
        by_cases huv : u = v
        · exact .inl huv
        · exact .inr ⟨hu, hd, huv, by simp⟩
      · rintro (rfl | ⟨hu, hd, -⟩)
        · exact ⟨hv, hnew⟩
        · exact ⟨hu, hd⟩
  have hsum := (hperm.map fun u => (succ u).count x).sum_eq
  unfold pending
  rw [hsum, List.map_cons, List.sum_cons, Nat.add_sub_cancel_left]

theorem visit_inv (hnodes : nodes.Nodup) (hsucc : ∀ u, ∀ v ∈ succ u, v ∈ nodes) {w : Work α}
    (h : Inv nodes succ w) {v : α} {rest : List α} (hready : w.ready = v :: rest) :
    Inv nodes succ (visit succ w v rest) := by
  have hmove : (rest ++ (w.done ++ [v])).Perm (w.ready ++ w.done) := by
    rw [hready, ← List.append_assoc]
    exact List.perm_append_singleton _ _
  have hv : v ∈ nodes := h.inNodes v (by simp [hready])
  have hnew : v ∉ w.done := by
    have := h.nodup
    rw [hready, List.cons_append, List.nodup_cons] at this
    exact fun hd => this.1 (List.mem_append_right _ hd)
  obtain ⟨hnd, hin, hz, hcount⟩ := foldl_release (w.done ++ [v]) (succ v) (rest, w.indeg)
    (hsucc v) (hmove.nodup_iff.mpr h.nodup) (fun x hx => h.inNodes x (hmove.mem_iff.mp hx))
    (fun x hx => h.zero x (hmove.mem_iff.mp hx))
  refine ⟨hnd, hin, fun x => ?_, hz, h.ordered.concat ?_⟩
  · show ((succ v).foldl release (rest, w.indeg)).2 x = pending nodes succ (w.done ++ [v]) x
    rw [hcount, pending_concat hnodes hv hnew, ← h.counts]
  · -- a count of 0 means that no predecessor is still waiting
    rintro u ⟨hu, huv⟩
    by_contra hnot
    have hzero : pending nodes succ w.done v = 0 := by
      rw [← h.counts]
      exact h.zero v (by simp [hready])
    have hmem : (succ u).count v ∈
        (nodes.filter fun u => decide (u ∉ w.done)).map fun u => (succ u).count v :=
      List.mem_map.mpr ⟨u, List.mem_filter.mpr ⟨hu, by simpa using hnot⟩, rfl⟩
    have hle := List.single_le_sum (fun _ _ => Nat.zero_le _) _ hmem
    have hpos : 0 < (succ u).count v := List.count_pos_iff.mpr huv
    unfold pending at hzero
    omega

theorem drain_inv (hnodes : nodes.Nodup) (hsucc : ∀ u, ∀ v ∈ succ u, v ∈ nodes) (n : ℕ)
    {w : Work α} (h : Inv nodes succ w) : Inv nodes succ (drain succ n w) := by
  induction n generalizing w with
  | zero => exact h
  | succ n ih =>
    unfold drain
    split
    · exact h
    · rename_i v rest hready
      exact ih (visit_inv hnodes hsucc h hready)

end Visit

end Gehtp.Lib.Kahn
