import Gehtp.Lib.Kahn
import Mathlib.Data.List.Chain
import Mathlib.Data.List.Flatten

/-!
# Depth-first search with a stack

The search visits every node once. A node stays on the stack with the successors that are left to
look at, and is finished when there are none. The stack is a path, so without cycles no successor
of the node on top is on the stack, and a node is finished after all its successors. The finished
nodes in reverse are a topological order.
-/

set_option autoImplicit false

namespace Gehtp.Lib.DepthFirst

open Lib.Kahn

variable {α : Type} [DecidableEq α]

/-- The visited nodes, the stack with the top first, and the finished nodes. -/
structure Search (α : Type) where
  visited : List α
  stack : List (α × List α)
  post : List α

/-- Look at the next successor of the node on top. -/
def step (succ : α → List α) (s : Search α) : Search α :=
  match s.stack with
  | [] => s
  | (v, []) :: rest => ⟨s.visited, rest, s.post ++ [v]⟩
  | (v, w :: ws) :: rest =>
    if w ∈ s.visited then ⟨s.visited, (v, ws) :: rest, s.post⟩
    else ⟨s.visited ++ [w], (w, succ w) :: (v, ws) :: rest, s.post⟩

/-- Search from `v`, unless it has been visited. -/
def startAt (succ : α → List α) (rounds : ℕ) (s : Search α) (v : α) : Search α :=
  if v ∈ s.visited then s
  else (step succ)^[rounds] ⟨s.visited ++ [v], (v, succ v) :: s.stack, s.post⟩

/-- The nodes with their successors, one after the other. -/
def entries (succ : α → List α) (l : List α) : List α := l.flatMap fun v => v :: succ v

/-- Search from every node. No more rounds than nodes and edges are needed. -/
def search (succ : α → List α) (nodes : List α) : Search α :=
  nodes.foldl (startAt succ (entries succ nodes).length) ⟨[], [], []⟩

/-- The order in which the nodes are finished, in reverse. -/
def topoOrder (succ : α → List α) (nodes : List α) : List α := (search succ nodes).post.reverse

/-! ### The invariant -/

/-- There is an edge from `u` to `v`. -/
def Edge (succ : α → List α) (u v : α) : Prop := v ∈ succ u

/-- No path leads back to its start. -/
def Acyclic (succ : α → List α) : Prop := ∀ v, ¬ Relation.TransGen (Edge succ) v v

/-- The nodes on the stack. -/
def Search.onStack (s : Search α) : List α := s.stack.map Prod.fst

structure Inv (nodes : List α) (succ : α → List α) (s : Search α) : Prop where
  seen : ∀ v, v ∈ s.visited ↔ v ∈ s.onStack ∨ v ∈ s.post
  nodup : (s.onStack ++ s.post).Nodup
  inNodes : ∀ v ∈ s.visited, v ∈ nodes
  sub : ∀ e ∈ s.stack, ∀ w ∈ e.2, Edge succ e.1 w
  left : ∀ e ∈ s.stack, ∀ w, Edge succ e.1 w → w ∈ e.2 ∨ w ∈ s.visited
  path : s.onStack.IsChain fun v u => Edge succ u v
  ordered : PrecededBy (fun w v => Edge succ v w) s.post

section Steps

variable {nodes : List α} {succ : α → List α}

omit [DecidableEq α] in
theorem reaches_top {v : α} {l : List α} (h : (v :: l).IsChain fun v u => Edge succ u v) :
    ∀ u ∈ l, Relation.TransGen (Edge succ) u v := by
  have hchain : (v :: l).IsChain fun v u => Relation.TransGen (Edge succ) u v :=
    h.imp fun _ _ he => .single he
  have htrans : IsTrans α fun v u => Relation.TransGen (Edge succ) u v :=
    ⟨fun _ _ _ hba hcb => hcb.trans hba⟩
  exact (List.pairwise_cons.mp hchain.pairwise).1

theorem Inv.pop (hacyclic : Acyclic succ) {visited post : List α} {v : α}
    {rest : List (α × List α)} (h : Inv nodes succ ⟨visited, (v, []) :: rest, post⟩) :
    Inv nodes succ ⟨visited, rest, post ++ [v]⟩ := by
  have hdone : ∀ w, Edge succ v w → w ∈ post := by
    intro w hw
    have hseen : w ∈ visited := (h.left (v, []) List.mem_cons_self w hw).resolve_left
      List.not_mem_nil
    refine ((h.seen w).mp hseen).resolve_left fun hopen => ?_
    -- a successor on the stack would close a cycle
    cases List.mem_cons.mp hopen with
    | inl heq =>
      subst heq
      exact hacyclic w (.single hw)
    | inr hbelow => exact hacyclic v ((reaches_top h.path w hbelow).head hw)
  refine ⟨?_, ?_, h.inNodes, ?_, ?_, ?_, h.ordered.concat hdone⟩
  · intro u
    have hseen := h.seen u
    simp only [Search.onStack, List.map_cons, List.mem_cons, List.mem_append] at hseen ⊢
    tauto
  · have hnd := h.nodup
    simp only [Search.onStack, List.map_cons, List.cons_append] at hnd ⊢
    rw [← List.append_assoc]
    exact (List.perm_append_singleton v _).nodup_iff.mpr hnd
  · exact fun e he => h.sub e (List.mem_cons_of_mem _ he)
  · exact fun e he => h.left e (List.mem_cons_of_mem _ he)
  · exact h.path.tail

omit [DecidableEq α] in
theorem Inv.skip (above : List (α × List α)) {visited post ws : List α} {v w : α}
    {rest : List (α × List α)} (h : Inv nodes succ ⟨visited, above ++ (v, w :: ws) :: rest, post⟩)
    (hw : w ∈ visited) :
    Inv nodes succ ⟨visited, above ++ (v, ws) :: rest, post⟩ := by
  have hsame : (above ++ (v, ws) :: rest).map Prod.fst =
      (above ++ (v, w :: ws) :: rest).map Prod.fst := by
    rw [List.map_append, List.map_append, List.map_cons, List.map_cons]
  -- the entries are the same ones, up to the successor that is passed over
  have hentry : ∀ e ∈ above ++ (v, ws) :: rest, ∃ e' ∈ above ++ (v, w :: ws) :: rest,
      e'.1 = e.1 ∧ e.2 ⊆ e'.2 ∧ ∀ u ∈ e'.2, u ∈ e.2 ∨ u = w := by
    intro e he
    rcases List.mem_append.mp he with he | he
    · exact ⟨e, List.mem_append_left _ he, rfl, fun _ hu => hu, fun _ hu => .inl hu⟩
    · cases he with
      | head =>
        refine ⟨(v, w :: ws), List.mem_append_right _ List.mem_cons_self, rfl,
          fun u hu => List.mem_cons_of_mem w hu, fun u hu => ?_⟩
        exact (List.mem_cons.mp hu).symm
      | tail _ he =>
        exact ⟨e, List.mem_append_right _ (List.mem_cons_of_mem _ he), rfl, fun _ hu => hu,
          fun _ hu => .inl hu⟩
  refine ⟨?_, ?_, h.inNodes, ?_, ?_, ?_, h.ordered⟩
  · intro u
    rw [Search.onStack, hsame]
    exact h.seen u
  · rw [Search.onStack, hsame]
    exact h.nodup
  · intro e he u hu
    obtain ⟨e', he', hfst, hsub, -⟩ := hentry e he
    exact hfst ▸ h.sub e' he' u (hsub hu)
  · intro e he u hu
    obtain ⟨e', he', hfst, -, hsub⟩ := hentry e he
    rcases h.left e' he' u (hfst ▸ hu) with hleft | hseen
    · rcases hsub u hleft with hu' | rfl
      · exact .inl hu'
      · exact .inr hw
    · exact .inr hseen
  · rw [Search.onStack, hsame]
    exact h.path

theorem Inv.push {s : Search α} (h : Inv nodes succ s) {w : α} (hw : w ∉ s.visited)
    (hnodes : w ∈ nodes) (hpath : (w :: s.onStack).IsChain fun v u => Edge succ u v) :
    Inv nodes succ ⟨s.visited ++ [w], (w, succ w) :: s.stack, s.post⟩ := by
  have hnew : w ∉ s.onStack ++ s.post := by
    intro hmem
    exact hw ((h.seen w).mpr (List.mem_append.mp hmem))
  refine ⟨?_, List.nodup_cons.mpr ⟨hnew, h.nodup⟩, ?_, ?_, ?_, hpath, h.ordered⟩
  · intro u
    have hseen := h.seen u
    simp only [Search.onStack, List.map_cons, List.mem_cons, List.mem_append] at hseen ⊢
    tauto
  · intro u hu
    cases List.mem_append.mp hu with
    | inl hu => exact h.inNodes u hu
    | inr hu => exact List.mem_singleton.mp hu ▸ hnodes
  · intro e he
    cases he with
    | head => exact fun u hu => hu
    | tail _ he => exact h.sub e he
  · intro e he u hu
    cases he with
    | head => exact .inl hu
    | tail _ he => exact (h.left e he u hu).imp_right (List.mem_append_left [w])

theorem step_inv (hacyclic : Acyclic succ) (hclosed : ∀ u ∈ nodes, ∀ v ∈ succ u, v ∈ nodes)
    {s : Search α} (h : Inv nodes succ s) : Inv nodes succ (step succ s) := by
  obtain ⟨visited, stack, post⟩ := s
  cases stack with
  | nil => exact h
  | cons e rest =>
    obtain ⟨v, left⟩ := e
    cases left with
    | nil => exact h.pop hacyclic
    | cons w ws =>
      show Inv nodes succ (if w ∈ visited then _ else _)
      have hedge : Edge succ v w := h.sub (v, w :: ws) List.mem_cons_self w List.mem_cons_self
      by_cases hw : w ∈ visited
      · rw [if_pos hw]
        exact Inv.skip [] h hw
      · rw [if_neg hw]
        have hv : v ∈ nodes := h.inNodes v ((h.seen v).mpr (.inl List.mem_cons_self))
        have hpush := h.push hw (hclosed v hv w hedge) (h.path.cons_cons hedge)
        exact Inv.skip [(w, succ w)] hpush
          (List.mem_append_right visited (List.mem_singleton_self w))

theorem steps_inv (hacyclic : Acyclic succ) (hclosed : ∀ u ∈ nodes, ∀ v ∈ succ u, v ∈ nodes)
    (n : ℕ) {s : Search α} (h : Inv nodes succ s) : Inv nodes succ ((step succ)^[n] s) := by
  induction n generalizing s with
  | zero => exact h
  | succ n ih => exact ih (step_inv hacyclic hclosed h)

theorem step_visited {s : Search α} {u : α} (h : u ∈ s.visited) : u ∈ (step succ s).visited := by
  unfold step
  split
  · exact h
  · exact h
  · split
    · exact h
    · exact List.mem_append_left _ h

theorem steps_visited (n : ℕ) {s : Search α} {u : α} (h : u ∈ s.visited) :
    u ∈ ((step succ)^[n] s).visited := by
  induction n generalizing s with
  | zero => exact h
  | succ n ih => exact ih (step_visited h)

/-! ### The number of rounds -/

/-- The nodes that have not been visited. -/
def unvisited (nodes visited : List α) : List α := nodes.filter fun v => decide (v ∉ visited)

/-- What is left to look at. -/
def Search.work (nodes : List α) (succ : α → List α) (s : Search α) : ℕ :=
  (s.stack.flatMap fun e => e.1 :: e.2).length + (entries succ (unvisited nodes s.visited)).length

theorem entries_visit (succ : α → List α) (visited : List α) {l : List α} {w : α} (hw : w ∉ visited) :
    (entries succ (unvisited l (visited ++ [w]))).length ≤
        (entries succ (unvisited l visited)).length ∧
      (w ∈ l → (entries succ (unvisited l (visited ++ [w]))).length + (1 + (succ w).length) ≤
        (entries succ (unvisited l visited)).length) := by
  induction l with
  | nil => exact ⟨le_refl _, fun h => absurd h List.not_mem_nil⟩
  | cons v l ih =>
    unfold unvisited entries at *
    by_cases hv : v ∈ visited
    · rw [List.filter_cons_of_neg (by simp [hv]), List.filter_cons_of_neg (by simp [hv])]
      refine ⟨ih.1, fun hmem => ?_⟩
      cases List.mem_cons.mp hmem with
      | inl heq => exact absurd (heq ▸ hv) hw
      | inr hmem => exact ih.2 hmem
    · by_cases heq : v = w
      · subst heq
        rw [List.filter_cons_of_neg (by simp), List.filter_cons_of_pos (by simp [hv])]
        simp only [List.flatMap_cons, List.length_append, List.length_cons]
        have hle := ih.1
        constructor
        · omega
        · intro _
          omega
      · rw [List.filter_cons_of_pos (by simp [hv, heq]), List.filter_cons_of_pos (by simp [hv])]
        simp only [List.flatMap_cons, List.length_append, List.length_cons]
        refine ⟨by omega, fun hmem => ?_⟩
        have hle := ih.2 ((List.mem_cons.mp hmem).resolve_left fun h => heq h.symm)
        omega

theorem step_work (hclosed : ∀ u ∈ nodes, ∀ v ∈ succ u, v ∈ nodes) {s : Search α}
    (h : Inv nodes succ s) (hstack : s.stack ≠ []) :
    (step succ s).work nodes succ < s.work nodes succ := by
  obtain ⟨visited, stack, post⟩ := s
  cases stack with
  | nil => exact absurd rfl hstack
  | cons e rest =>
    obtain ⟨v, left⟩ := e
    cases left with
    | nil =>
      simp only [step, Search.work, List.flatMap_cons, List.length_append, List.length_cons]
      omega
    | cons w ws =>
      show Search.work nodes succ (if w ∈ visited then _ else _) < _
      by_cases hw : w ∈ visited
      · rw [if_pos hw]
        simp only [Search.work, List.flatMap_cons, List.length_append, List.length_cons]
        omega
      · have hedge : Edge succ v w := h.sub (v, w :: ws) List.mem_cons_self w List.mem_cons_self
        have hv : v ∈ nodes := h.inNodes v ((h.seen v).mpr (.inl List.mem_cons_self))
        have hless := (entries_visit succ visited hw).2 (hclosed v hv w hedge)
        rw [if_neg hw]
        simp only [Search.work, List.flatMap_cons, List.length_append, List.length_cons] at hless ⊢
        omega

theorem steps_stack (hacyclic : Acyclic succ) (hclosed : ∀ u ∈ nodes, ∀ v ∈ succ u, v ∈ nodes)
    (n : ℕ) {s : Search α} (h : Inv nodes succ s) (hn : s.work nodes succ ≤ n) :
    ((step succ)^[n] s).stack = [] := by
  induction n generalizing s with
  | zero =>
    by_contra hstack
    have hless := step_work hclosed h hstack
    omega
  | succ n ih =>
    by_cases hstack : s.stack = []
    · have hstay : step succ s = s := by
        unfold step
        rw [hstack]
      rw [Function.iterate_fixed hstay]
      exact hstack
    · have hless := step_work hclosed h hstack
      exact ih (step_inv hacyclic hclosed h) (by omega)

/-! ### The whole search -/

theorem entries_unvisited_le (l visited : List α) :
    (entries succ (unvisited l visited)).length ≤ (entries succ l).length :=
  (List.Sublist.flatMap List.filter_sublist _).length_le

theorem startAt_inv (hacyclic : Acyclic succ) (hclosed : ∀ u ∈ nodes, ∀ v ∈ succ u, v ∈ nodes)
    {s : Search α} (h : Inv nodes succ s) (hstack : s.stack = []) {v : α} (hv : v ∈ nodes)
    {n : ℕ} (hn : (entries succ nodes).length ≤ n) :
    Inv nodes succ (startAt succ n s v) ∧ (startAt succ n s v).stack = [] ∧
      v ∈ (startAt succ n s v).visited ∧
      ∀ u ∈ s.visited, u ∈ (startAt succ n s v).visited := by
  unfold startAt
  by_cases hseen : v ∈ s.visited
  · rw [if_pos hseen]
    exact ⟨h, hstack, hseen, fun u hu => hu⟩
  · rw [if_neg hseen]
    have hpath : (v :: s.onStack).IsChain fun v u => Edge succ u v := by
      rw [Search.onStack, hstack]
      exact List.isChain_singleton v
    have hpush := h.push hseen hv hpath
    have hwork : Search.work nodes succ ⟨s.visited ++ [v], (v, succ v) :: s.stack, s.post⟩ ≤ n := by
      have hless := (entries_visit succ s.visited hseen).2 hv
      have hle := @entries_unvisited_le _ _ succ nodes s.visited
      simp only [Search.work, hstack, List.flatMap_cons, List.flatMap_nil, List.append_nil,
        List.length_cons]
      omega
    refine ⟨steps_inv hacyclic hclosed n hpush, steps_stack hacyclic hclosed n hpush hwork, ?_, ?_⟩
    · exact steps_visited n (List.mem_append_right _ (List.mem_singleton_self v))
    · exact fun u hu => steps_visited n (List.mem_append_left _ hu)

theorem starts_inv (hacyclic : Acyclic succ) (hclosed : ∀ u ∈ nodes, ∀ v ∈ succ u, v ∈ nodes)
    {n : ℕ} (hn : (entries succ nodes).length ≤ n) {l : List α} (hl : ∀ v ∈ l, v ∈ nodes)
    {s : Search α} (h : Inv nodes succ s) (hstack : s.stack = []) :
    Inv nodes succ (l.foldl (startAt succ n) s) ∧ (l.foldl (startAt succ n) s).stack = [] ∧
      (∀ v ∈ l, v ∈ (l.foldl (startAt succ n) s).visited) ∧
      ∀ u ∈ s.visited, u ∈ (l.foldl (startAt succ n) s).visited := by
  induction l generalizing s with
  | nil => exact ⟨h, hstack, fun v hv => absurd hv List.not_mem_nil, fun u hu => hu⟩
  | cons v l ih =>
    obtain ⟨h₁, hstack₁, hv, hmono⟩ :=
      startAt_inv hacyclic hclosed h hstack (hl v List.mem_cons_self) hn
    obtain ⟨h₂, hstack₂, hl₂, hmono₂⟩ :=
      ih (fun u hu => hl u (List.mem_cons_of_mem v hu)) h₁ hstack₁
    refine ⟨h₂, hstack₂, fun u hu => ?_, fun u hu => hmono₂ u (hmono u hu)⟩
    cases List.mem_cons.mp hu with
    | inl heq => exact heq ▸ hmono₂ v hv
    | inr hu => exact hl₂ u hu

omit [DecidableEq α] in
theorem inv_start : Inv nodes succ ⟨[], [], []⟩ where
  seen := by simp [Search.onStack]
  nodup := List.nodup_nil
  inNodes := fun _ h => absurd h List.not_mem_nil
  sub := fun _ h => absurd h List.not_mem_nil
  left := fun _ h => absurd h List.not_mem_nil
  path := List.isChain_nil
  ordered := precededBy_nil _

theorem search_post (hacyclic : Acyclic succ) (hclosed : ∀ u ∈ nodes, ∀ v ∈ succ u, v ∈ nodes)
    (hnodes : nodes.Nodup) : (search succ nodes).post.Perm nodes ∧
      PrecededBy (fun w v => Edge succ v w) (search succ nodes).post := by
  obtain ⟨h, hstack, hall, -⟩ :=
    starts_inv hacyclic hclosed (le_refl _) (fun v hv => hv) inv_start rfl
  change Inv nodes succ (search succ nodes) at h
  change (search succ nodes).stack = [] at hstack
  change ∀ v ∈ nodes, v ∈ (search succ nodes).visited at hall
  have hnone : (search succ nodes).onStack = [] := by
    rw [Search.onStack, hstack]
    rfl
  have hnd := h.nodup
  rw [hnone, List.nil_append] at hnd
  refine ⟨(List.perm_ext_iff_of_nodup hnd hnodes).mpr fun v => ?_, h.ordered⟩
  have hseen := h.seen v
  rw [hnone] at hseen
  constructor
  · exact fun hv => h.inNodes v (hseen.mpr (.inr hv))
  · exact fun hv => (hseen.mp (hall v hv)).resolve_left List.not_mem_nil

theorem topoOrder_spec (hacyclic : Acyclic succ) (hclosed : ∀ u ∈ nodes, ∀ v ∈ succ u, v ∈ nodes)
    (hnodes : nodes.Nodup) : (topoOrder succ nodes).Perm nodes ∧
      PrecededBy (fun u v => u ∈ nodes ∧ Edge succ u v) (topoOrder succ nodes) := by
  obtain ⟨hperm, hordered⟩ := search_post hacyclic hclosed hnodes
  refine ⟨(List.reverse_perm _).trans hperm,
    PrecededBy.reverse (hperm.nodup_iff.mpr hnodes) ?_ ?_⟩
  · exact fun u v hu => hperm.mem_iff.mpr hu.1
  · exact fun pre v post heq u hu => hordered pre v post heq u hu.2

end Steps

end Gehtp.Lib.DepthFirst
