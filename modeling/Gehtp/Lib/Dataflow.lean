import Mathlib.Data.List.Basic

/-!
# Dataflow graphs and their values

A node has a label and reads numbered outputs of other nodes. Given a meaning of the
labels, `value` is the value of a node in the graph unrolled to some depth; in a graph
without cycles it no longer depends on the depth once that exceeds the longest path.
Two rewrites keep all values: to read another node of the same value, and to leave out
nodes that no other node reads. To leave out a node that is read is seen by some meaning.
-/

set_option autoImplicit false

namespace Gehtp.Lib.Dataflow

variable {κ V : Type}

/-- A node: its label and the outputs that it reads, by node and output index. -/
structure Node (κ : Type) where
  label : κ
  args : List (ℕ × ℕ)
  deriving DecidableEq

/-- A meaning of the labels in `V`: the value of a node from those of the nodes it reads,
the values of ids without a node, and the value below the last unrolled node. -/
structure Meaning (κ V : Type) where
  apply : κ → List (V × ℕ) → V
  absent : ℕ → V
  cut : V

/-- The value of a node in the graph unrolled to the given depth. -/
def value (m : Meaning κ V) (G : ℕ → Option (Node κ)) : ℕ → ℕ → V
  | 0, _ => m.cut
  | n + 1, id =>
    match G id with
    | none => m.absent id
    | some nd => m.apply nd.label (nd.args.map fun p => (value m G n p.1, p.2))

theorem value_eq_of_node_eq (m : Meaning κ V) (G : ℕ → Option (Node κ)) {a b : ℕ} {nd : Node κ}
    (ha : G a = some nd) (hb : G b = some nd) (n : ℕ) : value m G n a = value m G n b := by
  cases n with
  | zero => rfl
  | succ n => simp only [value, ha, hb]

theorem value_redirect (m : Meaning κ V) {G G' : ℕ → Option (Node κ)} {a b : ℕ}
    (hab : ∀ n, value m G n a = value m G n b)
    (hnone : ∀ id, G id = none → G' id = none)
    (hsome : ∀ id nd, G id = some nd → ∃ f : ℕ × ℕ → ℕ × ℕ,
      G' id = some ⟨nd.label, nd.args.map f⟩ ∧
        ∀ p ∈ nd.args, f p = p ∨ (p.1 = b ∧ f p = (a, p.2))) (n : ℕ) :
    ∀ id, value m G' n id = value m G n id := by
  induction n with
  | zero =>
    intro id
    rfl
  | succ n ih =>
    intro id
    cases hG : G id with
    | none => simp only [value, hG, hnone id hG]
    | some nd =>
      obtain ⟨f, hG', hf⟩ := hsome id nd hG
      simp only [value, hG, hG', List.map_map]
      congr 1
      apply List.map_congr_left
      intro p hp
      rcases hf p hp with hfp | ⟨hpb, hfp⟩
      · simp only [Function.comp_apply, hfp, ih]
      · simp only [Function.comp_apply, hfp, ih, hab, hpb]

theorem value_prune (m : Meaning κ V) {G G' : ℕ → Option (Node κ)} {out : ℕ → Prop}
    (hkeep : ∀ id, ¬ out id → G' id = G id)
    (hread : ∀ id nd, ¬ out id → G id = some nd → ∀ p ∈ nd.args, ¬ out p.1) (n : ℕ) :
    ∀ id, ¬ out id → value m G' n id = value m G n id := by
  induction n with
  | zero =>
    intro id _
    rfl
  | succ n ih =>
    intro id hid
    cases hG : G id with
    | none => simp only [value, hkeep id hid, hG]
    | some nd =>
      simp only [value, hkeep id hid, hG]
      congr 1
      apply List.map_congr_left
      intro p hp
      rw [ih p.1 (hread id nd hid hG p hp)]

/-! ### A meaning that sees a gap -/

/-- The meaning that says whether the id `x` is read without a node. -/
def findsAbsent (x : ℕ) : Meaning κ Bool where
  apply _ args := args.any Prod.fst
  absent id := decide (id = x)
  cut := false

theorem value_findsAbsent_of_isSome {G : ℕ → Option (Node κ)} {x : ℕ} (h : (G x).isSome = true)
    (n : ℕ) : ∀ id, value (findsAbsent x) G n id = false := by
  induction n with
  | zero =>
    intro id
    rfl
  | succ n ih =>
    intro id
    cases hG : G id with
    | none =>
      have hne : id ≠ x := by
        rintro rfl
        rw [hG] at h
        cases h
      simp only [value, hG, findsAbsent, decide_eq_false hne]
    | some nd =>
      simp only [value, hG, ih]
      simp [findsAbsent]

theorem value_findsAbsent_of_read {G : ℕ → Option (Node κ)} {x id : ℕ} {nd : Node κ}
    {p : ℕ × ℕ} (hnd : G id = some nd) (hp : p ∈ nd.args) (hpx : p.1 = x) (hx : G x = none)
    (n : ℕ) : value (findsAbsent x) G (n + 2) id = true := by
  simp only [value, hnd]
  apply List.any_eq_true.mpr
  refine ⟨_, List.mem_map.mpr ⟨p, hp, rfl⟩, ?_⟩
  simp only [hpx, hx]
  exact decide_eq_true rfl

end Gehtp.Lib.Dataflow
