import Mathlib.Order.Nat
import Gehtp.Analysis.RingSteps

/-!
# The cursors of the prefetch ring

Groups go through their states in the order in which they were enqueued, except that they may be
released in any order. Five cursors say how far each state has come, and every small step of the ring
keeps it that way, whatever the engine does.
-/

set_option autoImplicit false

namespace Gehtp.Analysis.RingCursors

open Model.RingPolicy

variable {S : Type} {s : Sys S} {p : Policy} {g : ℕ}

/-- The first two invariants that `ring_check_invariants` looks at. SOURCE: ring_policy.c:278-280 -/
structure Cursors (p : Policy) : Prop where
  rel_le : p.nRel ≤ p.nReady
  ready_le : p.nReady ≤ p.nFired
  fired_le : p.nFired ≤ p.nQsub
  qsub_le : p.nQsub ≤ p.nEnq
  window : p.nQsub - p.nRel ≤ p.nSlots

/-- The cursors say what the states of the groups are. -/
structure States (p : Policy) : Prop where
  gone : ∀ g, g < p.nRel → (p.ent g).state = .gone
  past : ∀ g, g < p.nReady → pastSubmit (p.ent g) = true
  submit : ∀ g, p.nReady ≤ g → g < p.nFired → (p.ent g).state = .submit
  queued : ∀ g, p.nFired ≤ g → g < p.nQsub → (p.ent g).state = .queued
  pending : ∀ g, p.nQsub ≤ g → (p.ent g).state = .pending

/-- The cursors are in order, and say what the states are. -/
structure Ordered (p : Policy) : Prop extends Cursors p, States p

theorem canClaim_iff : canClaim p = true ↔ p.nQsub < p.nEnq ∧ p.nQsub - p.nRel < p.nSlots ∧
    p.nQsub < (p.nFired + curDepth p) % 2 ^ 32 := by
  simp [canClaim, and_assoc]

theorem canFire_iff : canFire p = true ↔ p.nFired < p.nQsub ∧ (p.ent p.nFired).state = .queued := by
  simp [canFire]

theorem ent_setEnt (p : Policy) (g : ℕ) (e : RingEnt) (g' : ℕ) :
    (p.setEnt g e).ent g' = if g' = g then e else p.ent g' :=
  Function.update_apply p.ent g e g'

namespace Ordered

theorem window_le (h : Ordered p) : p.nQsub ≤ p.nRel + p.nSlots :=
  Nat.sub_le_iff_le_add'.mp h.window

theorem flags (h : Ordered p) {tail pred : Option ℕ} {boost failed : Bool} :
    Ordered { p with
      fireTail := tail, fireTailPred := pred, fireDepthBoost := boost, failed := failed } :=
  { h with }

theorem claimOne (h : Ordered s.pol) (hc : canClaim s.pol = true) :
    Ordered (claimOne s).pol := by
  obtain ⟨hq, hw, -⟩ := canClaim_iff.mp hc
  have hrel := h.rel_le
  have hready := h.ready_le
  have hfired := h.fired_le
  refine { toCursors := { h with fired_le := ?_, qsub_le := hq, window := ?_ }, toStates := ?_ }
  · exact hfired.trans (Nat.le_succ _)
  · show s.pol.nQsub + 1 - s.pol.nRel ≤ s.pol.nSlots
    omega
  · constructor
    all_goals
      intro g
      simp only [Model.RingPolicy.claimOne, Policy.setEnt, Function.update_apply]
      intro hg
    · rw [if_neg (by omega)]
      exact h.gone g hg
    · rw [if_neg (by omega)]
      exact h.past g hg
    · intro hg'
      rw [if_neg (by omega)]
      exact h.submit g hg hg'
    · intro hg'
      split
      case isTrue => rfl
      case isFalse hne => exact h.queued g hg (by omega)
    · rw [if_neg (by omega)]
      exact h.pending g (by omega)

theorem fired (h : Ordered s.pol) (hlt : s.pol.nFired < s.pol.nQsub) : Ordered (fired s).pol := by
  have hrel := h.rel_le
  have hready := h.ready_le
  refine { toCursors := { h with ready_le := ?_, fired_le := hlt }, toStates := ?_ }
  · exact hready.trans (Nat.le_succ _)
  · constructor
    all_goals
      intro g
      simp only [Model.RingPolicy.fired, Policy.setEnt, Function.update_apply]
      intro hg
    · rw [if_neg (by omega)]
      exact h.gone g hg
    · rw [if_neg (by omega)]
      exact h.past g hg
    · intro hg'
      split
      case isTrue => rfl
      case isFalse hne => exact h.submit g hg (by omega)
    · intro hg'
      rw [if_neg (by omega)]
      exact h.queued g (by omega) hg'
    · rw [if_neg (by omega)]
      exact h.pending g hg

theorem markReady (h : Ordered s.pol) (hlt : s.pol.nReady < s.pol.nFired) :
    Ordered (markReady s).pol := by
  have hrel := h.rel_le
  have hfired := h.fired_le
  refine { toCursors := { h with rel_le := ?_, ready_le := hlt }, toStates := ?_ }
  · exact hrel.trans (Nat.le_succ _)
  · constructor
    all_goals
      intro g
      simp only [Model.RingPolicy.markReady, Policy.setEnt, Function.update_apply]
      intro hg
    · rw [if_neg (by omega)]
      exact h.gone g hg
    · split
      case isTrue => rfl
      case isFalse hne => exact h.past g (by omega)
    · intro hg'
      rw [if_neg (by omega)]
      exact h.submit g (by omega) hg'
    · intro hg'
      rw [if_neg (by omega)]
      exact h.queued g hg hg'
    · rw [if_neg (by omega)]
      exact h.pending g hg

theorem markGone (h : Ordered s.pol) (hg : (s.pol.ent g).state = .ready) :
    Ordered (markGone g s).pol := by
  refine { toCursors := { h with }, toStates := ?_ }
  constructor
  all_goals
    intro g'
    simp only [Model.RingPolicy.markGone, Policy.setEnt, Function.update_apply]
    intro hg'
  · split
    case isTrue => rfl
    case isFalse hne => exact h.gone g' hg'
  · split
    case isTrue => rfl
    case isFalse hne => exact h.past g' hg'
  · intro hlt
    have hst := h.submit g' hg' hlt
    rw [if_neg (by rintro rfl; simp [hg] at hst)]
    exact hst
  · intro hlt
    have hst := h.queued g' hg' hlt
    rw [if_neg (by rintro rfl; simp [hg] at hst)]
    exact hst
  · have hst := h.pending g' hg'
    rw [if_neg (by rintro rfl; simp [hg] at hst)]
    exact hst

theorem ready_lt (h : Ordered p) (hg : (p.ent g).state = .ready) : p.nRel ≤ g ∧ g < p.nReady := by
  constructor
  · by_contra hlt
    simp [h.gone g (Nat.lt_of_not_le hlt)] at hg
  · by_contra hlt
    by_cases hf : g < p.nFired
    · simp [h.submit g (Nat.le_of_not_lt hlt) hf] at hg
    · by_cases hq : g < p.nQsub
      · simp [h.queued g (Nat.le_of_not_lt hf) hq] at hg
      · simp [h.pending g (Nat.le_of_not_lt hq)] at hg

theorem submit_lt (h : Ordered p) (hg : (p.ent g).state = .submit) :
    p.nReady ≤ g ∧ g < p.nFired := by
  constructor
  · by_contra hlt
    have hpast := h.past g (Nat.lt_of_not_le hlt)
    simp [pastSubmit, hg] at hpast
  · by_contra hlt
    by_cases hq : g < p.nQsub
    · simp [h.queued g (Nat.le_of_not_lt hlt) hq] at hg
    · simp [h.pending g (Nat.le_of_not_lt hq)] at hg

theorem stepRel (h : Ordered s.pol) (hg : (s.pol.ent s.pol.nRel).state = .gone) :
    Ordered (stepRel s).pol := by
  refine { toCursors := { h with rel_le := ?_, window := ?_ }
           toStates := { h with gone := ?_ } }
  · by_contra hlt
    have hrel := h.rel_le
    have heq : s.pol.nReady = s.pol.nRel := by
      have hle : ¬ s.pol.nRel + 1 ≤ s.pol.nReady := hlt
      omega
    by_cases hf : s.pol.nRel < s.pol.nFired
    · simp [h.submit s.pol.nRel heq.le hf] at hg
    · by_cases hq : s.pol.nRel < s.pol.nQsub
      · simp [h.queued s.pol.nRel (by omega) hq] at hg
      · simp [h.pending s.pol.nRel (by omega)] at hg
  · have hw := h.window
    show s.pol.nQsub - (s.pol.nRel + 1) ≤ s.pol.nSlots
    omega
  · intro g hlt
    have hle : g < s.pol.nRel + 1 := hlt
    by_cases heq : g = s.pol.nRel
    · rw [heq]
      exact hg
    · exact h.gone g (by omega)

theorem register (h : Ordered s.pol) (src bytes : ℕ) : Ordered (register src bytes s).pol := by
  have hrel := h.rel_le
  have hready := h.ready_le
  have hfired := h.fired_le
  have hq := h.qsub_le
  refine { toCursors := { h with qsub_le := hq.trans (Nat.le_succ _) }, toStates := ?_ }
  constructor
  all_goals
    intro g
    simp only [Model.RingPolicy.register, Policy.setEnt, Function.update_apply]
    intro hg
  · rw [if_neg (by omega)]
    exact h.gone g hg
  · rw [if_neg (by omega)]
    exact h.past g hg
  · intro hg'
    rw [if_neg (by omega)]
    exact h.submit g hg hg'
  · intro hg'
    rw [if_neg (by omega)]
    exact h.queued g hg hg'
  · split
    case isTrue => rfl
    case isFalse => exact h.pending g hg

theorem create {nSlots maxDescs slotBytes slots : ℕ}
    (hp : ringCreate nSlots maxDescs slotBytes slots = some p) : Ordered p := by
  unfold ringCreate at hp
  split at hp
  case isTrue => cases hp
  case isFalse =>
    cases hp
    refine { toCursors := ⟨le_rfl, le_rfl, le_rfl, le_rfl, Nat.zero_le _⟩, toStates := ?_ }
    constructor
    · exact fun g hg => absurd hg (Nat.not_lt_zero g)
    · exact fun g hg => absurd hg (Nat.not_lt_zero g)
    · exact fun g _ hg => absurd hg (Nat.not_lt_zero g)
    · exact fun g _ hg => absurd hg (Nat.not_lt_zero g)
    · exact fun g _ => rfl

theorem not_pastSubmit (h : Ordered p) (hlt : p.nReady < p.nFired) :
    pastSubmit (p.ent p.nReady) ≠ true := by
  simp [pastSubmit, h.submit p.nReady le_rfl hlt]

end Ordered

end Gehtp.Analysis.RingCursors
