import Gehtp.Model.Supertile
import Mathlib.Data.List.Nodup

/-!
# When the supertiles cover the groups

The segments that are solved for tile the groups. But `apply` makes supertiles of them only as long
as it accepts them: a segment of one operator that it rejects is dropped, and one of more operators
is cut in two by a call that clears the supertiles made before. So all operators are kept exactly if
every segment is accepted, but for the first one, which may be cut as long as the same holds of its
halves.

A supertile of several operators is accepted by a sum of bytes of 64 bits. It is within the budget
exactly if the sum did not wrap.
-/

set_option autoImplicit false

namespace Gehtp.Analysis.SupertileCover

open Lib Model.OpGraph Model.DpGroupGraph Model.Supertile

/-- The bytes of a tensor, without bound. -/
def tensorSize (od : OutputDef) : ℕ :=
  od.shape.foldl (fun sz d => if d > 0 then sz * d else sz) 1 *
    (if od.elementSize ≠ 0 then od.elementSize else 4)

/-- The bytes that the outputs of the operators take, without bound. -/
def workingSet (gp : OpMap) : List ℕ → ℕ
  | [] => 0
  | oid :: opIds => ((gp.getOpAt oid).map fun od => tensorSize od.outputDef).getD 0 +
      workingSet gp opIds

/-- The supertiles contain each operator as often as the groups do, which is once if every operator
is in one group, and those of several operators are within the budget. -/
structure Covers (s : SuperTileSolver) (tiles : List SuperTile) : Prop where
  ops : (tiles.flatMap SuperTile.opIds).Perm (s.groups.flatMap DPGroupNode.opIds)
  budget : ∀ t ∈ tiles, 2 ≤ t.opIds.length → workingSet s.gp t.opIds ≤ s.vtcmSize.toNat

/-- The segment is accepted, and the sum of its bytes does not wrap. -/
structure Fits (s : SuperTileSolver) (stg : SuperTileGroup) : Prop where
  accepted : Accepted s stg
  bytes : 2 ≤ stg.opIds.length → workingSet s.gp stg.opIds < UInt64.size

/-- The segment fits, or its second half does and the same holds of its first half. -/
inductive Kept (s : SuperTileSolver) : SuperTileGroup → Prop
  | whole {stg : SuperTileGroup} (h : Fits s stg) : Kept s stg
  | halves {stg : SuperTileGroup} (hcut : ¬ Accepted s stg) (hlen : 2 ≤ stg.opIds.length)
      (hfirst : Kept s (stg.firstHalf s)) (hsecond : Fits s (stg.secondHalf s)) : Kept s stg

/-- The first segment is kept and all others fit. -/
def AllKept (s : SuperTileSolver) : List SuperTileGroup → Prop
  | [] => True
  | stg :: rest => Kept s stg ∧ ∀ stg' ∈ rest, Fits s stg'

/-! ### Sums of bytes -/

theorem foldl_ofNat_mul (dims : List ℕ) (sz : ℕ) :
    dims.foldl (fun sz d => if d > 0 then sz * UInt64.ofNat d else sz) (UInt64.ofNat sz) =
      UInt64.ofNat (dims.foldl (fun sz d => if d > 0 then sz * d else sz) sz) := by
  induction dims generalizing sz with
  | nil => rfl
  | cons d dims ih =>
    rw [List.foldl_cons, List.foldl_cons, ← ih]
    by_cases hd : d > 0
    · rw [if_pos hd, if_pos hd, UInt64.ofNat_mul]
    · rw [if_neg hd, if_neg hd]

theorem tensorBytes_eq (od : OutputDef) : tensorBytes od = UInt64.ofNat (tensorSize od) := by
  have hdims := foldl_ofNat_mul od.shape 1
  have hesize : (if od.elementSize ≠ 0 then UInt64.ofNat od.elementSize else 4) =
      UInt64.ofNat (if od.elementSize ≠ 0 then od.elementSize else 4) := by
    split <;> rfl
  rw [tensorSize, UInt64.ofNat_mul, ← hdims, ← hesize]
  rfl

theorem foldl_opBytes (gp : OpMap) (opIds : List ℕ) (total : ℕ) :
    opIds.foldl (fun total oid => total + (opBytes gp oid).getD 0) (UInt64.ofNat total) =
      UInt64.ofNat (total + workingSet gp opIds) := by
  induction opIds generalizing total with
  | nil => rfl
  | cons oid opIds ih =>
    have hop : (opBytes gp oid).getD 0 =
        UInt64.ofNat (((gp.getOpAt oid).map fun od => tensorSize od.outputDef).getD 0) := by
      unfold opBytes
      cases gp.getOpAt oid with
      | none => rfl
      | some od => exact tensorBytes_eq od.outputDef
    rw [List.foldl_cons, hop, ← UInt64.ofNat_add, ih, workingSet, Nat.add_assoc]

theorem toNat_computeVtcmNeed (gp : OpMap) (opIds : List ℕ) :
    (computeVtcmNeed gp opIds).toNat = workingSet gp opIds % UInt64.size := by
  have h := foldl_opBytes gp opIds 0
  rw [Nat.zero_add] at h
  rw [computeVtcmNeed]
  exact (congrArg UInt64.toNat h).trans UInt64.toNat_ofNat'

/-! ### What is solved for -/

/-- The requirement of a segment of several operators is the sum of their bytes. -/
def Measured (s : SuperTileSolver) (stg : SuperTileGroup) : Prop :=
  2 ≤ stg.opIds.length → stg.vtcmRequirement = computeVtcmNeed s.gp stg.opIds

theorem Fits.workingSet_le {s : SuperTileSolver} {stg : SuperTileGroup} (h : Fits s stg)
    (hmeasured : Measured s stg) (hlen : 2 ≤ stg.opIds.length) :
    workingSet s.gp stg.opIds ≤ s.vtcmSize.toNat := by
  have hle : (computeVtcmNeed s.gp stg.opIds).toNat ≤ s.vtcmSize.toNat := by
    rw [← hmeasured hlen]
    exact UInt64.le_iff_toNat_le.mp h.accepted.1
  rwa [toNat_computeVtcmNeed, Nat.mod_eq_of_lt (h.bytes hlen)] at hle

section Solve

variable {D : Type} (F : DoubleOps D) (s : SuperTileSolver)

theorem solveGroup_ops (group : DPGroupNode) :
    (solveGroup F s group).flatMap SuperTileGroup.opIds = group.opIds := by
  unfold solveGroup
  dsimp only
  split
  · rename_i hn
    exact (List.eq_nil_of_length_eq_zero hn).symm
  · rw [List.flatMap_map, List.flatMap_id']
    exact SplitPoints.segments_tile F.costs (costSeg F s group.opIds) group.opIds _

theorem solve_ops : (solve F s).flatMap SuperTileGroup.opIds =
    s.groups.flatMap DPGroupNode.opIds := by
  rw [solve, List.flatMap_assoc]
  refine List.flatMap_congr fun group _ => ?_
  split
  · rename_i hempty
    exact (List.isEmpty_iff.mp hempty).symm
  · split
    · exact List.append_nil _
    · exact solveGroup_ops F s group

theorem of_mem_solve {stg : SuperTileGroup} (h : stg ∈ solve F s) :
    stg.opIds ≠ [] ∧ Measured s stg := by
  obtain ⟨group, -, hstg⟩ := List.mem_flatMap.mp h
  split at hstg
  · cases hstg
  · rename_i hne
    have hops : group.opIds ≠ [] := fun heq => hne (List.isEmpty_iff.mpr heq)
    split at hstg
    · rename_i hlen
      cases List.mem_singleton.mp hstg
      exact ⟨hops, fun hlen' => absurd hlen (Nat.not_lt.mpr hlen')⟩
    · unfold solveGroup at hstg
      dsimp only at hstg
      rw [if_neg fun hn => hops (List.eq_nil_of_length_eq_zero hn)] at hstg
      obtain ⟨seg, hseg, rfl⟩ := List.mem_map.mp hstg
      exact ⟨SplitPoints.segments_ne_nil F.costs _ hops _ hseg, fun _ => rfl⟩

end Solve

/-! ### The loop of `apply` -/

section Loop

variable {s : SuperTileSolver} {stg : SuperTileGroup} {rest : List SuperTileGroup}
  {tiles : List SuperTile}

theorem applyFrom_nil : applyFrom s tiles [] = tiles := by
  rw [applyFrom]

theorem applyFrom_accepted (h : Accepted s stg) :
    applyFrom s tiles (stg :: rest) = applyFrom s (tiles ++ [stg.tile]) rest := by
  rw [applyFrom, if_pos h]

theorem applyFrom_cut (h : ¬ Accepted s stg) (hlen : 2 ≤ stg.opIds.length) :
    applyFrom s tiles (stg :: rest) =
      applyFrom s (apply s [stg.firstHalf s, stg.secondHalf s]) rest := by
  rw [applyFrom, if_neg h, if_pos hlen]
  rfl

theorem applyFrom_dropped (h : ¬ Accepted s stg) (hlen : ¬ 2 ≤ stg.opIds.length) :
    applyFrom s tiles (stg :: rest) = applyFrom s tiles rest := by
  rw [applyFrom, if_neg h, if_neg hlen]

theorem apply_cons : apply s (stg :: rest) = applyFrom s (apply s [stg]) rest := by
  unfold apply
  by_cases h : Accepted s stg
  · rw [applyFrom_accepted h, applyFrom_accepted h, applyFrom_nil]
  · by_cases hlen : 2 ≤ stg.opIds.length
    · rw [applyFrom_cut h hlen, applyFrom_cut h hlen, applyFrom_nil]
    · rw [applyFrom_dropped h hlen, applyFrom_dropped h hlen, applyFrom_nil]

theorem applyFrom_all (h : ∀ stg ∈ rest, Accepted s stg) :
    applyFrom s tiles rest = tiles ++ rest.map SuperTileGroup.tile := by
  induction rest generalizing tiles with
  | nil => rw [applyFrom_nil, List.map_nil, List.append_nil]
  | cons stg rest ih =>
    rw [applyFrom_accepted (h stg List.mem_cons_self),
      ih fun stg' hstg' => h stg' (List.mem_cons_of_mem stg hstg'), List.append_assoc]
    rfl

/-- The number of operators in the supertiles. -/
def tiled (tiles : List SuperTile) : ℕ := (tiles.flatMap SuperTile.opIds).length

/-- The number of operators in the segments. -/
def toTile (solution : List SuperTileGroup) : ℕ := (solution.flatMap SuperTileGroup.opIds).length

theorem tiled_append (tiles tiles' : List SuperTile) :
    tiled (tiles ++ tiles') = tiled tiles + tiled tiles' := by
  rw [tiled, List.flatMap_append, List.length_append]
  rfl

theorem toTile_cons (stg : SuperTileGroup) (rest : List SuperTileGroup) :
    toTile (stg :: rest) = stg.opIds.length + toTile rest := by
  rw [toTile, List.flatMap_cons, List.length_append]
  rfl

theorem toTile_halves (s : SuperTileSolver) (stg : SuperTileGroup) :
    toTile [stg.firstHalf s, stg.secondHalf s] = stg.opIds.length := by
  have h : (stg.opIds.take _ ++ stg.opIds.drop _) = stg.opIds :=
    List.take_append_drop (stg.opIds.length / 2) stg.opIds
  rw [toTile, List.flatMap_cons, List.flatMap_cons, List.flatMap_nil, List.append_nil]
  exact congrArg List.length h

variable (s rest tiles) in
theorem tiled_applyFrom_le :
    tiled (applyFrom s tiles rest) ≤ tiled tiles + toTile rest := by
  induction tiles, rest using applyFrom.induct s with
  | case1 tiles => rw [applyFrom_nil]; exact Nat.le_add_right _ _
  | case2 tiles stg rest h ih =>
    rw [tiled_append] at ih
    have htile : tiled [stg.tile] = stg.opIds.length := congrArg List.length (List.append_nil _)
    rw [applyFrom_accepted h, toTile_cons]
    omega
  | case3 tiles stg rest h hlen ih₁ ih₂ =>
    have hnone : tiled ([] : List SuperTile) = 0 := rfl
    rw [toTile_halves, hnone] at ih₁
    rw [applyFrom_cut h hlen, toTile_cons]
    exact Nat.le_trans ih₂ (by omega)
  | case4 tiles stg rest h hlen ih =>
    rw [applyFrom_dropped h hlen, toTile_cons]
    omega

theorem tiled_applyFrom_lt (hne : ∀ stg ∈ rest, stg.opIds ≠ []) (htiles : 0 < tiled tiles)
    (h : ¬ ∀ stg ∈ rest, Accepted s stg) :
    tiled (applyFrom s tiles rest) < tiled tiles + toTile rest := by
  induction rest generalizing tiles with
  | nil => exact absurd (fun stg hstg => absurd hstg List.not_mem_nil) h
  | cons stg rest ih =>
    have hpos : 0 < stg.opIds.length := List.length_pos_of_ne_nil (hne stg List.mem_cons_self)
    rw [toTile_cons]
    by_cases hacc : Accepted s stg
    · have htile : tiled [stg.tile] = stg.opIds.length := congrArg List.length (List.append_nil _)
      have hrest : ¬ ∀ stg' ∈ rest, Accepted s stg' := by
        intro hall
        exact h (List.forall_mem_cons.mpr ⟨hacc, hall⟩)
      have hsome : 0 < tiled (tiles ++ [stg.tile]) := by
        rw [tiled_append]
        omega
      have hlt := ih (fun stg' hstg' => hne stg' (List.mem_cons_of_mem stg hstg')) hsome hrest
      rw [tiled_append, htile] at hlt
      rw [applyFrom_accepted hacc]
      omega
    · by_cases hlen : 2 ≤ stg.opIds.length
      · have hhalves := tiled_applyFrom_le s [stg.firstHalf s, stg.secondHalf s] []
        have hnone : tiled ([] : List SuperTile) = 0 := rfl
        rw [toTile_halves, hnone] at hhalves
        have hle := tiled_applyFrom_le s rest (apply s [stg.firstHalf s, stg.secondHalf s])
        rw [applyFrom_cut hacc hlen]
        unfold apply at hle ⊢
        omega
      · have hle := tiled_applyFrom_le s rest tiles
        rw [applyFrom_dropped hacc hlen]
        omega

theorem accepted_of_tiled (hne : ∀ stg' ∈ stg :: rest, stg'.opIds ≠ [])
    (h : tiled (apply s (stg :: rest)) = toTile (stg :: rest)) :
    tiled (apply s [stg]) = stg.opIds.length ∧ ∀ stg' ∈ rest, Accepted s stg' := by
  have hfirst : tiled (apply s [stg]) ≤ stg.opIds.length := by
    have hle := tiled_applyFrom_le s [stg] []
    have hone : toTile [stg] = stg.opIds.length := congrArg List.length (List.append_nil _)
    rw [hone] at hle
    exact Nat.le_trans hle (Nat.le_of_eq (Nat.zero_add _))
  rw [apply_cons, toTile_cons] at h
  have hpos : 0 < stg.opIds.length := List.length_pos_of_ne_nil (hne stg List.mem_cons_self)
  have hle := tiled_applyFrom_le s rest (apply s [stg])
  have hall : ∀ stg' ∈ rest, Accepted s stg' := by
    by_contra hrest
    have hlt : tiled (applyFrom s (apply s [stg]) rest) < tiled (apply s [stg]) + toTile rest :=
      tiled_applyFrom_lt (fun stg' hstg' => hne stg' (List.mem_cons_of_mem stg hstg')) (by omega) hrest
    omega
  exact ⟨by omega, hall⟩

end Loop

/-! ### The segments that are kept -/

section Kept

variable {s : SuperTileSolver} {stg : SuperTileGroup}

theorem measured_firstHalf (s : SuperTileSolver) (stg : SuperTileGroup) :
    Measured s (stg.firstHalf s) := fun _ => rfl

theorem measured_secondHalf (s : SuperTileSolver) (stg : SuperTileGroup) :
    Measured s (stg.secondHalf s) := fun _ => rfl

theorem firstHalf_ne_nil (hlen : 2 ≤ stg.opIds.length) : (stg.firstHalf s).opIds ≠ [] := by
  apply List.ne_nil_of_length_pos
  show 0 < (stg.opIds.take (stg.opIds.length / 2)).length
  rw [List.length_take]
  omega

theorem secondHalf_ne_nil (hlen : 2 ≤ stg.opIds.length) : (stg.secondHalf s).opIds ≠ [] := by
  apply List.ne_nil_of_length_pos
  show 0 < (stg.opIds.drop (stg.opIds.length / 2)).length
  rw [List.length_drop]
  omega

/-- The supertiles of several operators are within the budget. -/
def WithinBudget (s : SuperTileSolver) (tiles : List SuperTile) : Prop :=
  ∀ t ∈ tiles, 2 ≤ t.opIds.length → workingSet s.gp t.opIds ≤ s.vtcmSize.toNat

theorem fits_of_withinBudget {tiles : List SuperTile} (h : WithinBudget s tiles)
    (hacc : Accepted s stg) (hmem : stg.tile ∈ tiles) : Fits s stg where
  accepted := hacc
  bytes hlen := Nat.lt_of_le_of_lt (h stg.tile hmem hlen) s.vtcmSize.toNat_lt_size

theorem apply_halves (hcut : ¬ Accepted s stg) (hlen : 2 ≤ stg.opIds.length) :
    apply s [stg] = apply s [stg.firstHalf s, stg.secondHalf s] := by
  rw [apply, applyFrom_cut hcut hlen, applyFrom_nil]

theorem apply_pair {stg' : SuperTileGroup} (h : Accepted s stg') :
    apply s [stg, stg'] = apply s [stg] ++ [stg'.tile] := by
  rw [apply_cons, applyFrom_accepted h, applyFrom_nil]

theorem kept_of_tiled (hne : stg.opIds ≠ []) (htiled : tiled (apply s [stg]) = stg.opIds.length)
    (hbudget : WithinBudget s (apply s [stg])) : Kept s stg := by
  induction hn : stg.opIds.length using Nat.strong_induction_on generalizing stg with
  | h n ih =>
    by_cases hacc : Accepted s stg
    · apply Kept.whole
      apply fits_of_withinBudget hbudget hacc
      rw [apply, applyFrom_accepted hacc, applyFrom_nil]
      exact List.mem_singleton_self _
    · by_cases hlen : 2 ≤ stg.opIds.length
      · have hhalves := apply_halves hacc hlen
        rw [hhalves, ← toTile_halves s stg] at htiled
        have hne' : ∀ stg' ∈ [stg.firstHalf s, stg.secondHalf s], stg'.opIds ≠ [] :=
          List.forall_mem_cons.mpr ⟨firstHalf_ne_nil hlen,
            List.forall_mem_singleton.mpr (secondHalf_ne_nil hlen)⟩
        obtain ⟨hfirst, hsecond⟩ := accepted_of_tiled hne' htiled
        have hacc' := hsecond _ (List.mem_singleton_self _)
        rw [hhalves, apply_pair hacc'] at hbudget
        have hlt : (stg.firstHalf s).opIds.length < n := by
          show (stg.opIds.take (stg.opIds.length / 2)).length < n
          rw [List.length_take]
          omega
        apply Kept.halves hacc hlen
        · exact ih _ hlt (firstHalf_ne_nil hlen) hfirst
            (fun t ht => hbudget t (List.mem_append_left _ ht)) rfl
        · exact fits_of_withinBudget hbudget hacc'
            (List.mem_append_right _ (List.mem_singleton_self _))
      · have hnone : apply s [stg] = [] := by
          rw [apply, applyFrom_dropped hacc hlen, applyFrom_nil]
        rw [hnone] at htiled
        exact absurd (List.eq_nil_of_length_eq_zero htiled.symm) hne

theorem Fits.withinBudget (h : Fits s stg) (hmeasured : Measured s stg) :
    WithinBudget s [stg.tile] := by
  intro t ht hlen
  cases List.mem_singleton.mp ht
  exact h.workingSet_le hmeasured hlen

theorem WithinBudget.append {tiles tiles' : List SuperTile} (h : WithinBudget s tiles)
    (h' : WithinBudget s tiles') : WithinBudget s (tiles ++ tiles') := by
  intro t ht
  rcases List.mem_append.mp ht with ht | ht
  · exact h t ht
  · exact h' t ht

theorem Kept.tiles (h : Kept s stg) (hmeasured : Measured s stg) :
    (apply s [stg]).flatMap SuperTile.opIds = stg.opIds ∧ WithinBudget s (apply s [stg]) := by
  induction h with
  | whole hfits =>
    rw [apply, applyFrom_accepted hfits.accepted, applyFrom_nil]
    exact ⟨List.append_nil _, hfits.withinBudget hmeasured⟩
  | @halves stg hcut hlen _ hsecond ih =>
    obtain ⟨hops, hbudget⟩ := ih (measured_firstHalf s stg)
    rw [apply_halves hcut hlen, apply_pair hsecond.accepted]
    refine ⟨?_, hbudget.append (hsecond.withinBudget (measured_secondHalf s stg))⟩
    rw [List.flatMap_append, hops]
    show stg.opIds.take _ ++ (stg.opIds.drop _ ++ []) = stg.opIds
    rw [List.append_nil, List.take_append_drop]

end Kept

/-! ### The cover -/

section Cover

variable {D : Type} (F : DoubleOps D) (s : SuperTileSolver)

theorem covers_iff_allKept {solution : List SuperTileGroup}
    (hsol : ∀ stg ∈ solution, stg.opIds ≠ [] ∧ Measured s stg)
    (hops : solution.flatMap SuperTileGroup.opIds = s.groups.flatMap DPGroupNode.opIds) :
    Covers s (apply s solution) ↔ AllKept s solution := by
  cases hsolution : solution with
  | nil =>
    subst hsolution
    refine iff_of_true ⟨?_, ?_⟩ trivial
    · rw [apply, applyFrom_nil, ← hops]
      exact List.Perm.refl _
    · rw [apply, applyFrom_nil]
      intro t ht
      cases ht
  | cons stg rest =>
    rw [hsolution] at hsol hops
    constructor
    · intro hcovers
      have hlen : tiled (apply s (stg :: rest)) = toTile (stg :: rest) := by
        rw [tiled, hcovers.ops.length_eq, ← hops]
        rfl
      obtain ⟨hfirst, hrest⟩ := accepted_of_tiled (fun stg' hstg' => (hsol stg' hstg').1) hlen
      have hbudget : WithinBudget s (apply s (stg :: rest)) := hcovers.budget
      rw [apply_cons, applyFrom_all hrest] at hbudget
      constructor
      · exact kept_of_tiled (hsol stg List.mem_cons_self).1 hfirst
          fun t ht => hbudget t (List.mem_append_left _ ht)
      · intro stg' hstg'
        exact fits_of_withinBudget hbudget (hrest stg' hstg')
          (List.mem_append_right _ (List.mem_map_of_mem hstg'))
    · rintro ⟨hkept, hfits⟩
      obtain ⟨htiles, hbudget⟩ := hkept.tiles (hsol stg List.mem_cons_self).2
      have happly : apply s (stg :: rest) = apply s [stg] ++ rest.map SuperTileGroup.tile := by
        rw [apply_cons, applyFrom_all fun stg' hstg' => (hfits stg' hstg').accepted]
      rw [happly]
      constructor
      · rw [List.flatMap_append, htiles, List.flatMap_map, ← hops]
        exact List.Perm.refl _
      · apply hbudget.append
        intro t ht
        obtain ⟨stg', hstg', rfl⟩ := List.mem_map.mp ht
        exact (hfits stg' hstg').workingSet_le (hsol stg' (List.mem_cons_of_mem stg hstg')).2

/-- The supertiles cover the groups within the budget exactly if all segments are kept. -/
theorem apply_covers_iff : Covers s (apply s (solve F s)) ↔ AllKept s (solve F s) :=
  covers_iff_allKept s (fun _ h => of_mem_solve F s h) (solve_ops F s)

end Cover

/-! ### A chain of two groups -/

def rationals : DoubleOps (Option Rat) where
  ofU64 n := some n.toNat
  zero := some 0
  inf := none
  isInf c := c.isNone
  add a b := a.bind fun x => b.map fun y => x + y
  sub a b := a.bind fun x => b.map fun y => x - y
  div a b := a.bind fun x => b.map fun y => x / y
  lt a b := a.isSome && (b.isNone || decide (a.getD 0 < b.getD 0))

def op (opId : ℕ) (name : String) (consumers : List ℕ) : OpDef where
  opId := opId
  flags := 1
  nameTag := some name
  outputDef := OutputDef.vector 8 0 4 0
  inputs := []
  consumers := consumers
  opData := []
  tensorParamIds := []

/-- An operator that feeds another one, which feeds an output; each one is a group. -/
def chain : SuperTileSolver :=
  SuperTileSolver.init (.ofList [op 1 "Relu" [2], op 2 "Relu" [3], op 3 "Output" []]) 1024
    [{ opIds := [1], vtcmRequirement := 32 }, { opIds := [2], vtcmRequirement := 32 }]

/-- The first operator is in no supertile. -/
theorem chain_not_covered :
    (apply chain (solve rationals chain)).map SuperTile.opIds = [[2]] ∧
      ¬ Covers chain (apply chain (solve rationals chain)) := by
  have hsolve : solve rationals chain = [⟨[1], 32, 0, -1⟩, ⟨[2], 32, 0, -1⟩] := by decide
  have happly : (apply chain (solve rationals chain)).map SuperTile.opIds = [[2]] := by
    rw [hsolve, apply, applyFrom_dropped (by decide) (by decide), applyFrom_accepted (by decide),
      applyFrom_nil]
    rfl
  refine ⟨happly, fun h => ?_⟩
  have hlen := h.ops.length_eq
  rw [List.flatMap_def, happly] at hlen
  exact absurd hlen (by decide)

end Gehtp.Analysis.SupertileCover
