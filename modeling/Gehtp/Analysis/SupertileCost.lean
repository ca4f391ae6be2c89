import Gehtp.Analysis.SupertileCover
import Mathlib.Algebra.Order.Group.Nat
import Mathlib.Algebra.Order.Ring.Rat

/-!
# The least cost of a group

The dynamic program of a group finds a cut of least cost among all cuts into at most 16 segments.
The sums of the `double` costs are only assumed to grow with their first part.
-/

set_option autoImplicit false

namespace Gehtp.Analysis.SupertileCost

open Lib Lib.SplitPoints Model.OpGraph Model.DpGroupGraph Model.Supertile Analysis.SupertileCover

variable {D : Type} (F : DoubleOps D) (s : SuperTileSolver)

/-- The cost of a supertile of these operators: "impossible" if they do not fit together. -/
def segmentCost (seg : List ℕ) : D :=
  if s.tcmCalc.canMerge s.gp seg then s.costCalc.mergeCost F s.gp seg else F.inf

/-- A cut of a group into supertiles. -/
structure Cut (group : DPGroupNode) (cut : List (List ℕ)) : Prop where
  ops : cut.flatten = group.opIds
  ne_nil : ∀ seg ∈ cut, seg ≠ []
  length_le : cut.length ≤ MAX_K

variable {group : DPGroupNode}

theorem Cut.length_le_ops {cut : List (List ℕ)} (h : Cut group cut) :
    cut.length ≤ group.opIds.length := by
  rw [← h.ops]
  have hsegs := h.ne_nil
  clear h
  induction cut with
  | nil => exact Nat.zero_le _
  | cons seg cut ih =>
    have hseg : 0 < seg.length := List.length_pos_of_ne_nil (hsegs seg List.mem_cons_self)
    have hcut := ih fun s hs => hsegs s (List.mem_cons_of_mem seg hs)
    rw [List.flatten_cons, List.length_append, List.length_cons]
    omega

theorem solveGroup_map (h : group.opIds ≠ []) :
    (solveGroup F s group).map SuperTileGroup.opIds =
      (segments F.costs (costSeg F s group.opIds) group.opIds.length
        (min group.opIds.length MAX_K)).map (slice group.opIds) := by
  have hlen : ¬ group.opIds.length = 0 := fun h0 => h (List.eq_nil_of_length_eq_zero h0)
  unfold solveGroup
  dsimp only
  rw [if_neg hlen, List.map_map]
  exact List.map_id _

theorem solveGroup_nil (h : group.opIds = []) : solveGroup F s group = [] := by
  simp [solveGroup, h]

theorem solveGroup_cut : Cut group ((solveGroup F s group).map SuperTileGroup.opIds) where
  ops := by
    rw [← List.flatMap_def]
    exact solveGroup_ops F s group
  ne_nil := by
    intro seg hseg
    by_cases hops : group.opIds = []
    · rw [solveGroup_nil F s hops] at hseg
      cases hseg
    · rw [solveGroup_map F s hops] at hseg
      exact segments_ne_nil F.costs _ hops _ hseg
  length_le := by
    by_cases hops : group.opIds = []
    · rw [solveGroup_nil F s hops]
      exact Nat.zero_le _
    · have hpos : 1 ≤ group.opIds.length := List.length_pos_of_ne_nil hops
      rw [solveGroup_map F s hops, List.length_map]
      exact (length_segments_le F.costs _ _ (le_min hpos (by decide))).trans (min_le_right _ _)

/-- The supertiles of a group are a cut of it, and no other cut costs less. -/
theorem solveGroup_least (hF : F.costs.Ordered) (group : DPGroupNode) :
    Cut group ((solveGroup F s group).map SuperTileGroup.opIds) ∧
      ∀ cut, Cut group cut → F.lt (cutCost F.costs (segmentCost F s) cut)
        (cutCost F.costs (segmentCost F s) ((solveGroup F s group).map SuperTileGroup.opIds)) =
          false := by
  refine ⟨solveGroup_cut F s, fun cut hcut => ?_⟩
  by_cases hops : group.opIds = []
  · have hnil : cut = [] := by
      have := hcut.length_le_ops
      rw [hops] at this
      exact List.eq_nil_of_length_eq_zero (Nat.le_zero.mp this)
    rw [solveGroup_nil F s hops, hnil]
    exact hF.refl _
  · rw [solveGroup_map F s hops]
    exact segments_least hF (fun _ _ => rfl) hops hcut.ops hcut.ne_nil
      (le_min hcut.length_le_ops hcut.length_le)

theorem rationals_ordered : rationals.costs.Ordered where
  asymm a b h := by
    cases a <;> cases b <;> simp_all [rationals, DoubleOps.costs]
    exact h.le
  split a b c h := by
    cases a <;> cases b <;> cases c <;> simp_all [rationals, DoubleOps.costs]
    rename_i x y z
    exact (lt_or_ge x y).imp_right fun hle => hle.trans_lt h
  inf_lt a := rfl
  isInf_iff a := by cases a <;> simp [rationals, DoubleOps.costs]
  add_mono a b c h := by
    cases a <;> cases b <;> cases c <;> simp_all [rationals, DoubleOps.costs]
  add_inf a b h := by
    cases a <;> cases b <;> simp_all [rationals, DoubleOps.costs]

/-- Two supertiles of one operator each are one of the cuts. -/
theorem solveGroup_least_chain :
    rationals.lt (cutCost rationals.costs (segmentCost rationals chain) [[1], [2]])
      (cutCost rationals.costs (segmentCost rationals chain)
        ((solveGroup rationals chain { opIds := [1, 2] }).map SuperTileGroup.opIds)) = false :=
  (solveGroup_least rationals chain rationals_ordered { opIds := [1, 2] }).2 _
    ⟨rfl, by decide, by decide⟩

end Gehtp.Analysis.SupertileCost
