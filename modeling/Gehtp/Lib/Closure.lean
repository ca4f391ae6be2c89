import Mathlib.Data.List.Basic
import Mathlib.Order.Nat

/-!
# Collecting what a stack reaches

A search that marks elements in any order: the top of the stack is dropped when it is marked, else
it is marked and its unmarked successors go on the stack. When the marked elements have all their
successors among them at the start, the search adds what the stack reaches and nothing else.
-/

set_option autoImplicit false

namespace Gehtp.Lib.Closure

section Closure

variable {α : Type} [DecidableEq α] (succ : α → List α)

/-- The loop, for at most `n` tests of its condition: `seen` are the marked elements and `stack` has
its top first. The successors go on the stack in their order, so the last one is on top. -/
def collect : ℕ → List α → List α → Option (List α)
  | 0, _, _ => none
  | _ + 1, seen, [] => some seen
  | n + 1, seen, u :: stack =>
    if u ∈ seen then collect n seen stack
    else collect n (u :: seen) (((succ u).filter (· ∉ u :: seen)).reverse ++ stack)

def Edge (u v : α) : Prop := v ∈ succ u

/-- Any number of edges. -/
abbrev Reaches : α → α → Prop := Relation.ReflTransGen (Edge succ)

/-- All successors of the marked elements are marked or on the stack. -/
def ClosedUpTo (seen stack : List α) : Prop :=
  ∀ u ∈ seen, ∀ v ∈ succ u, v ∈ seen ∨ v ∈ stack

variable {succ}

omit [DecidableEq α] in
theorem ClosedUpTo.drop {seen stack : List α} {u : α} (h : ClosedUpTo succ seen (u :: stack))
    (hu : u ∈ seen) : ClosedUpTo succ seen stack := by
  intro x hx v hv
  rcases h x hx v hv with hseen | hstack
  · exact Or.inl hseen
  · rcases List.mem_cons.mp hstack with rfl | hrest
    · exact Or.inl hu
    · exact Or.inr hrest

theorem ClosedUpTo.mark {seen stack : List α} {u : α} (h : ClosedUpTo succ seen (u :: stack)) :
    ClosedUpTo succ (u :: seen) (((succ u).filter (· ∉ u :: seen)).reverse ++ stack) := by
  intro x hx v hv
  rw [List.mem_append, List.mem_reverse, List.mem_filter, decide_eq_true_eq]
  by_cases hmarked : v ∈ u :: seen
  · exact Or.inl hmarked
  right
  rcases List.mem_cons.mp hx with rfl | hx
  · exact Or.inl ⟨hv, hmarked⟩
  · rcases h x hx v hv with hseen | hstack
    · exact absurd (List.mem_cons_of_mem u hseen) hmarked
    · rcases List.mem_cons.mp hstack with rfl | hrest
      · exact absurd List.mem_cons_self hmarked
      · exact Or.inr hrest

omit [DecidableEq α] in
theorem mem_of_reaches {seen : List α} (hclosed : ClosedUpTo succ seen []) {u v : α} (hu : u ∈ seen)
    (h : Reaches succ u v) : v ∈ seen := by
  induction h with
  | refl => exact hu
  | tail _ hedge ih => exact (hclosed _ ih _ hedge).resolve_right List.not_mem_nil

theorem collect_spec {n : ℕ} {seen stack result : List α} (hclosed : ClosedUpTo succ seen stack)
    (hrun : collect succ n seen stack = some result) :
    ClosedUpTo succ result [] ∧ seen ⊆ result ∧ stack ⊆ result ∧
      ∀ x ∈ result, x ∈ seen ∨ ∃ u ∈ stack, Reaches succ u x := by
  induction n generalizing seen stack with
  | zero => cases hrun
  | succ n ih =>
    cases stack with
    | nil =>
      cases hrun
      exact ⟨hclosed, List.Subset.refl _, List.nil_subset _, fun x hx => Or.inl hx⟩
    | cons u stack =>
      unfold collect at hrun
      by_cases hu : u ∈ seen
      · rw [if_pos hu] at hrun
        obtain ⟨hcl, hseen, hstack, hfrom⟩ := ih (hclosed.drop hu) hrun
        refine ⟨hcl, hseen, List.cons_subset.mpr ⟨hseen hu, hstack⟩, ?_⟩
        intro x hx
        rcases hfrom x hx with h | ⟨w, hw, hreach⟩
        · exact Or.inl h
        · exact Or.inr ⟨w, List.mem_cons_of_mem u hw, hreach⟩
      · rw [if_neg hu] at hrun
        obtain ⟨hcl, hseen, hstack, hfrom⟩ := ih hclosed.mark hrun
        rw [List.cons_subset] at hseen
        refine ⟨hcl, hseen.2, List.cons_subset.mpr ⟨hseen.1, ?_⟩, ?_⟩
        · exact fun x hx => hstack (List.mem_append_right _ hx)
        · intro x hx
          rcases hfrom x hx with h | ⟨w, hw, hreach⟩
          · rcases List.mem_cons.mp h with rfl | h
            · exact Or.inr ⟨x, List.mem_cons_self, .refl⟩
            · exact Or.inl h
          · rcases List.mem_append.mp hw with hnew | hold
            · have hedge : w ∈ succ u := (List.mem_filter.mp (List.mem_reverse.mp hnew)).1
              exact Or.inr ⟨u, List.mem_cons_self, hreach.head hedge⟩
            · exact Or.inr ⟨w, List.mem_cons_of_mem u hold, hreach⟩

theorem mem_collect_iff {n : ℕ} {seen stack result : List α} (hclosed : ClosedUpTo succ seen [])
    (hrun : collect succ n seen stack = some result) (x : α) :
    x ∈ result ↔ x ∈ seen ∨ ∃ u ∈ stack, Reaches succ u x := by
  have hup : ClosedUpTo succ seen stack := fun u hu v hv =>
    Or.inl ((hclosed u hu v hv).resolve_right List.not_mem_nil)
  obtain ⟨hcl, hseen, hstack, hfrom⟩ := collect_spec hup hrun
  constructor
  · exact hfrom x
  · rintro (hx | ⟨u, hu, hreach⟩)
    · exact hseen hx
    · exact mem_of_reaches hcl (hstack hu) hreach

/-! ### Termination -/

/-- The elements that are not marked. -/
def unmarked (elems seen : List α) : List α := elems.filter (· ∉ seen)

theorem unmarked_lt {elems seen : List α} {u : α} (hmem : u ∈ elems) (hu : u ∉ seen) :
    (unmarked elems (u :: seen)).length < (unmarked elems seen).length := by
  have hfilter : unmarked elems (u :: seen) = (unmarked elems seen).filter (· ≠ u) := by
    unfold unmarked
    rw [List.filter_filter]
    congr 1
    funext x
    simp [not_or]
  rw [hfilter]
  apply List.length_filter_lt_length_iff_exists.mpr
  exact ⟨u, List.mem_filter.mpr ⟨hmem, by simpa using hu⟩, by simp⟩

theorem collect_terminates {elems : List α} (hsucc : ∀ u ∈ elems, succ u ⊆ elems)
    (seen stack : List α) (hstack : stack ⊆ elems) :
    ∃ n result, ∀ k, n ≤ k → collect succ k seen stack = some result := by
  induction hm : (unmarked elems seen).length using Nat.strong_induction_on
    generalizing seen stack with
  | _ m ih =>
    induction stack with
    | nil =>
      refine ⟨1, seen, ?_⟩
      intro k hk
      obtain ⟨k, rfl⟩ := Nat.exists_eq_add_of_le' hk
      rfl
    | cons u stack ihstack =>
      have hu : u ∈ elems := hstack List.mem_cons_self
      have hrest : stack ⊆ elems := fun x hx => hstack (List.mem_cons_of_mem u hx)
      have hnext : ∃ n result, ∀ k, n ≤ k →
          (if u ∈ seen then collect succ k seen stack
            else collect succ k (u :: seen)
              (((succ u).filter (· ∉ u :: seen)).reverse ++ stack)) = some result := by
        by_cases hseen : u ∈ seen
        · simp only [if_pos hseen]
          exact ihstack hrest
        · simp only [if_neg hseen]
          apply ih _ (hm ▸ unmarked_lt hu hseen) (u :: seen) _ _ rfl
          intro x hx
          rcases List.mem_append.mp hx with hnew | hold
          · exact hsucc u hu (List.mem_filter.mp (List.mem_reverse.mp hnew)).1
          · exact hrest hold
      obtain ⟨n, result, hrun⟩ := hnext
      refine ⟨n + 1, result, ?_⟩
      intro k hk
      obtain ⟨k, rfl⟩ := Nat.exists_eq_add_of_le' (Nat.le_trans (Nat.le_add_left 1 n) hk)
      exact hrun k (Nat.le_of_succ_le_succ hk)

end Closure

end Gehtp.Lib.Closure
