import Mathlib.Order.Nat

/-!
# Work lists

A visit of an element either leaves the state as it is or changes it and names elements to visit
again. The loop takes the elements from a list until it is empty. When every change lowers a
measure, the loop ends; when a change puts everything back that it makes due, nothing is due at the
end, whatever the order of the list.
-/

set_option autoImplicit false

namespace Gehtp.Lib.Worklist

variable {G α : Type} [DecidableEq α]

/-- Put an element on the list unless it is there. -/
def push (w : List α) (a : α) : List α := if a ∈ w then w else a :: w

/-- One turn of the loop, after `a` is taken off. -/
def turn (visit : G → α → Option (G × List α)) (g : G) (a : α) (w : List α) : G × List α :=
  match visit g a with
  | none => (g, w)
  | some (g', l) => (g', l.foldl push w)

/-- The loop, for at most `n` tests of its condition. -/
def run (visit : G → α → Option (G × List α)) : ℕ → G → List α → Option G
  | 0, _, _ => none
  | _ + 1, g, [] => some g
  | n + 1, g, a :: w => run visit n (turn visit g a w).1 (turn visit g a w).2

/-- From one test of the condition to the next. -/
inductive Step (visit : G → α → Option (G × List α)) : G × List α → G × List α → Prop
  | turn (g : G) (a : α) (w : List α) : Step visit (g, a :: w) (turn visit g a w)

/-- Any number of turns. -/
abbrev Steps (visit : G → α → Option (G × List α)) : G × List α → G × List α → Prop :=
  Relation.ReflTransGen (Step visit)

variable {visit : G → α → Option (G × List α)}

theorem mem_push {w : List α} {a b : α} : b ∈ push w a ↔ b ∈ w ∨ b = a := by
  unfold push
  split
  · exact ⟨Or.inl, fun h => h.elim id fun heq => heq ▸ ‹a ∈ w›⟩
  · rw [List.mem_cons, or_comm]

theorem mem_foldl_push {l w : List α} {b : α} : b ∈ l.foldl push w ↔ b ∈ w ∨ b ∈ l := by
  induction l generalizing w with
  | nil => simp
  | cons a l ih => rw [List.foldl_cons, ih, mem_push, List.mem_cons, or_assoc]

theorem turn_none {g : G} {a : α} {w : List α} (h : visit g a = none) :
    turn visit g a w = (g, w) := by
  unfold turn
  rw [h]

theorem turn_some {g g' : G} {a : α} {l w : List α} (h : visit g a = some (g', l)) :
    turn visit g a w = (g', l.foldl push w) := by
  unfold turn
  rw [h]

/-! ### Termination -/

theorem run_terminates (μ : G → ℕ) (hμ : ∀ g a g' l, visit g a = some (g', l) → μ g' < μ g)
    (g : G) (w : List α) : ∃ n g', ∀ k, n ≤ k → run visit k g w = some g' := by
  induction hm : μ g using Nat.strong_induction_on generalizing g w with
  | _ m ih =>
    induction w with
    | nil =>
      refine ⟨1, g, fun k hk => ?_⟩
      obtain ⟨k, rfl⟩ := Nat.exists_eq_succ_of_ne_zero (Nat.one_le_iff_ne_zero.mp hk)
      rfl
    | cons a w ihw =>
      have hturn : ∃ n g', ∀ k, n ≤ k →
          run visit k (turn visit g a w).1 (turn visit g a w).2 = some g' := by
        cases hv : visit g a with
        | none =>
          rw [turn_none hv]
          exact ihw
        | some r =>
          rw [turn_some hv]
          exact ih _ (hm ▸ hμ g a r.1 r.2 hv) r.1 _ rfl
      obtain ⟨n, g', hrun⟩ := hturn
      refine ⟨n + 1, g', fun k hk => ?_⟩
      obtain ⟨k, rfl⟩ := Nat.exists_eq_succ_of_ne_zero (Nat.ne_of_gt (Nat.lt_of_succ_le
        (Nat.le_trans (Nat.le_add_left 1 n) hk)))
      exact hrun k (Nat.le_of_succ_le_succ hk)

/-! ### Invariants -/

theorem run_keeps {Inv : G → Prop}
    (hkeeps : ∀ g a g' l, Inv g → visit g a = some (g', l) → Inv g') {n : ℕ} {g g' : G}
    {w : List α} (hinv : Inv g) (hrun : run visit n g w = some g') : Inv g' := by
  induction n generalizing g w with
  | zero => cases hrun
  | succ n ih =>
    cases w with
    | nil =>
      cases hrun
      exact hinv
    | cons a w =>
      apply ih _ hrun
      cases hv : visit g a with
      | none =>
        rw [turn_none hv]
        exact hinv
      | some r =>
        rw [turn_some hv]
        exact hkeeps g a r.1 r.2 hinv hv

/-! ### Completeness -/

section Complete

variable {Inv : G → Prop} {Due : G → α → Prop} {Ok : G → α → Prop}

theorem turn_due (hnone : ∀ g a, Inv g → visit g a = none → ¬ Due g a)
    (hsome : ∀ g a g' l, Inv g → Ok g a → visit g a = some (g', l) →
      Inv g' ∧ ∀ b, Due g' b → b ∈ l ∨ (b ≠ a ∧ Due g b))
    {g : G} {a : α} {w : List α} (hinv : Inv g) (hok : Ok g a)
    (hdue : ∀ b, Due g b → b ∈ a :: w) :
    Inv (turn visit g a w).1 ∧ ∀ b, Due (turn visit g a w).1 b → b ∈ (turn visit g a w).2 := by
  cases hv : visit g a with
  | none =>
    rw [turn_none hv]
    refine ⟨hinv, fun b hb => ?_⟩
    obtain rfl | hmem := List.mem_cons.mp (hdue b hb)
    · exact absurd hb (hnone g b hinv hv)
    · exact hmem
  | some r =>
    rw [turn_some hv]
    obtain ⟨hinv', hback⟩ := hsome g a r.1 r.2 hinv hok hv
    refine ⟨hinv', fun b hb => mem_foldl_push.mpr ?_⟩
    obtain hmem | ⟨hne, hb'⟩ := hback b hb
    · exact Or.inr hmem
    · exact Or.inl ((List.mem_cons.mp (hdue b hb')).resolve_left hne)

theorem run_complete (hnone : ∀ g a, Inv g → visit g a = none → ¬ Due g a)
    (hsome : ∀ g a g' l, Inv g → Ok g a → visit g a = some (g', l) →
      Inv g' ∧ ∀ b, Due g' b → b ∈ l ∨ (b ≠ a ∧ Due g b))
    {n : ℕ} {g g' : G} {w : List α} (hinv : Inv g) (hdue : ∀ b, Due g b → b ∈ w)
    (hok : ∀ h a v, Steps visit (g, w) (h, a :: v) → Ok h a) (hrun : run visit n g w = some g') :
    Inv g' ∧ ∀ b, ¬ Due g' b := by
  induction n generalizing g w with
  | zero => cases hrun
  | succ n ih =>
    cases w with
    | nil =>
      cases hrun
      exact ⟨hinv, fun b hb => List.not_mem_nil (hdue b hb)⟩
    | cons a w =>
      have hstep := turn_due hnone hsome hinv (hok g a w Relation.ReflTransGen.refl) hdue
      apply ih hstep.1 hstep.2 _ hrun
      intro h b v hsteps
      exact hok h b v (Relation.ReflTransGen.head (Step.turn g a w) hsteps)

end Complete

/-! ### Runs that are followed -/

/-- A test of every visit of a run that ends within `n` turns. -/
def everyVisit (visit : G → α → Option (G × List α)) (p : G → α → Bool) : ℕ → G → List α → Bool
  | _, _, [] => true
  | 0, _, _ :: _ => false
  | n + 1, g, a :: w =>
    p g a && everyVisit visit p n (turn visit g a w).1 (turn visit g a w).2

theorem of_everyVisit {p : G → α → Bool} {n : ℕ} {g h : G} {w v : List α} {a : α}
    (hall : everyVisit visit p n g w = true) (hsteps : Steps visit (g, w) (h, a :: v)) :
    p h a = true := by
  induction n generalizing g w with
  | zero =>
    cases w with
    | nil =>
      cases hsteps.cases_head with
      | inl heq => cases heq
      | inr hstep =>
        obtain ⟨_, hstep, -⟩ := hstep
        cases hstep
    | cons b w => cases hall
  | succ n ih =>
    cases w with
    | nil =>
      cases hsteps.cases_head with
      | inl heq => cases heq
      | inr hstep =>
        obtain ⟨_, hstep, -⟩ := hstep
        cases hstep
    | cons b w =>
      unfold everyVisit at hall
      rw [Bool.and_eq_true] at hall
      cases hsteps.cases_head with
      | inl heq =>
        cases heq
        exact hall.1
      | inr hstep =>
        obtain ⟨_, hstep, hrest⟩ := hstep
        cases hstep
        exact ih hall.2 hrest

end Gehtp.Lib.Worklist
