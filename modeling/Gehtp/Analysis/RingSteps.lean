import Gehtp.Model.RingPolicy

/-!
# What the calls of the ring are made of

Every call of the prefetch ring is a sequence of a few small steps: a group is entered, claimed,
fired, found ready, kicked again or released, or the engine gets some time. What each of these keeps
is kept by every call. The step that enters a group depends on the arguments of the call and is
given apart, and so is which groups a call may release.
-/

set_option autoImplicit false

namespace Gehtp.Analysis.RingSteps

open Model.RingPolicy

variable {S : Type}

/-- `I` is kept by all that the calls do, except that it may need the groups released to be among
`R`, and that nothing is said about entering a group. -/
structure Stable (A : EngineAdapter S) (R : ℕ → Prop) (I : Sys S → Prop) : Prop where
  claimOne : ∀ s, I s → canClaim s.pol = true →
    spanLen s.pol.slotBytes (s.pol.ent s.pol.nQsub).bytes ≤ s.pol.dpSlot → I (claimOne s)
  fail : ∀ s, I s → I (fail s)
  fireOne : ∀ s, I s → canFire s.pol = true → I (fireOne A s).2
  poll : ∀ s, I s → I (poll A s)
  skipReady : ∀ s, I s → s.pol.nReady < s.pol.nFired →
    pastSubmit (s.pol.ent s.pol.nReady) = true → I (skipReady s)
  markReady : ∀ s, I s → s.pol.nReady < s.pol.nFired →
    pastSubmit (s.pol.ent s.pol.nReady) = false →
    chainDone s.world.sh (s.pol.ent s.pol.nReady).nDescs (some (s.pol.ent s.pol.nReady).dfirst)
      = true → I (markReady s)
  setBoost : ∀ b s, I s → I (setBoost b s)
  rekick : ∀ g s, I s → (s.pol.ent g).state = .submit → I (rekick A g s).2
  spinTwo : ∀ s, I s → I (spinTwo A s)
  markGone : ∀ g s, I s → R g → (s.pol.ent g).state = .ready → I (markGone g s)
  stepRel : ∀ s, I s → s.pol.nRel < s.pol.nEnq → (s.pol.ent s.pol.nRel).state = .gone →
    I (stepRel s)

/-- The groups that a call may release. -/
def Releases : RingCall → ℕ → Prop
  | .enqueue _ _, _ => False
  | .need _ _ _, _ => False
  | .release g, i => i = g
  | .onSerialPhase, _ => False
  | .drainTo g _ _, i => i ≤ g

variable {A : EngineAdapter S} {R : ℕ → Prop} {I : Sys S → Prop}

namespace Stable

theorem claimLoop (h : Stable A R I) (n : ℕ) {s : Sys S} (hs : I s) : I (claimLoop n s) := by
  induction n generalizing s with
  | zero => exact hs
  | succ n ih =>
    unfold Model.RingPolicy.claimLoop
    split
    case isTrue hc =>
      split
      case isTrue => exact h.fail s hs
      case isFalse hn => exact ih (h.claimOne s hs hc (Nat.le_of_not_lt hn))
    case isFalse => exact hs

theorem claim (h : Stable A R I) {s : Sys S} (hs : I s) : I (claim s) :=
  h.claimLoop _ hs

theorem fireLoop (h : Stable A R I) (n : ℕ) {s : Sys S} (hs : I s) : I (fireLoop A n s) := by
  induction n generalizing s with
  | zero => exact hs
  | succ n ih =>
    unfold Model.RingPolicy.fireLoop
    split
    case isTrue hc =>
      have hone := h.fireOne s hs hc
      dsimp only
      split
      case isTrue => exact ih hone
      case isFalse => exact hone
    case isFalse => exact hs

theorem fire (h : Stable A R I) {s : Sys S} (hs : I s) : I (fire A s) := by
  unfold Model.RingPolicy.fire
  split
  case isTrue => exact hs
  case isFalse => exact h.fireLoop _ hs

theorem advanceReadyLoop (h : Stable A R I) (n : ℕ) {s : Sys S} (hs : I s) :
    I (advanceReadyLoop n s) := by
  induction n generalizing s with
  | zero => exact hs
  | succ n ih =>
    unfold Model.RingPolicy.advanceReadyLoop
    split
    case isTrue hlt =>
      dsimp only
      split
      case isTrue hp => exact ih (h.skipReady s hs hlt hp)
      case isFalse hp =>
        split
        case isTrue hd => exact ih (h.markReady s hs hlt (Bool.eq_false_iff.mpr hp) hd)
        case isFalse => exact hs
    case isFalse => exact hs

theorem advanceReady (h : Stable A R I) {s : Sys S} (hs : I s) : I (advanceReady s) :=
  h.advanceReadyLoop _ hs

theorem needLoop (h : Stable A R I) (g deadlineUs n deadline : ℕ) (kicked : Bool) {s : Sys S}
    (hs : I s) : I (needLoop A g deadlineUs n deadline kicked s).2 := by
  induction n generalizing s deadline kicked with
  | zero => exact hs
  | succ n ih =>
    have hready := h.advanceReady (h.poll s hs)
    have hfire := h.fire (h.claim (h.fire hready))
    unfold Model.RingPolicy.needLoop
    dsimp only
    split
    case isTrue => exact h.setBoost false _ hready
    case isFalse =>
      split
      case isTrue => exact hready
      case isFalse =>
        split
        case isTrue =>
          split
          case isTrue hk =>
            have hsub := of_decide_eq_true (Bool.and_eq_true_iff.mp hk).2
            have hkick := h.rekick g _ hfire hsub
            split
            case isTrue => exact ih _ _ hkick
            case isFalse => exact hkick
          case isFalse => exact hfire
        case isFalse => exact ih _ _ (h.spinTwo _ hfire)

theorem ringNeed (h : Stable A R I) (g deadlineUs rounds : ℕ) {s : Sys S} (hs : I s) :
    I (ringNeed A g deadlineUs rounds s).2 := by
  unfold Model.RingPolicy.ringNeed
  split
  case isTrue => exact hs
  case isFalse =>
    split
    case isTrue => exact hs
    case isFalse => exact h.needLoop _ _ _ _ _ hs

theorem advanceRelLoop (h : Stable A R I) (n : ℕ) {s : Sys S} (hs : I s) :
    I (advanceRelLoop n s) := by
  induction n generalizing s with
  | zero => exact hs
  | succ n ih =>
    unfold Model.RingPolicy.advanceRelLoop
    split
    case isTrue hc => exact ih (h.stepRel s hs hc.1 hc.2)
    case isFalse => exact hs

theorem ringRelease (h : Stable A R I) {g : ℕ} (hg : R g) {s : Sys S} (hs : I s) :
    I (ringRelease A g s) := by
  unfold Model.RingPolicy.ringRelease
  split
  case isTrue => exact hs
  case isFalse =>
    have hrel : I (releaseEnt g s) := by
      unfold releaseEnt
      split
      case isTrue hready => exact h.advanceRelLoop _ (h.markGone g s hs hg hready)
      case isFalse => exact hs
    exact h.fire (h.claim hrel)

theorem drainLoop (h : Stable A R I) (watchdogUs rounds n i : ℕ) (hR : ∀ j, j < i + n → R j)
    {s : Sys S} (hs : I s) : I (drainLoop A watchdogUs rounds n i s).2 := by
  induction n generalizing i s with
  | zero => exact hs
  | succ n ih =>
    have hneed := h.ringNeed i watchdogUs rounds hs
    unfold Model.RingPolicy.drainLoop
    split
    case h_1 s' heq =>
      rw [heq] at hneed
      apply ih (i + 1)
      · intro j hj
        apply hR
        omega
      · exact h.ringRelease (hR i (by omega)) hneed
    case h_2 s' heq =>
      rw [heq] at hneed
      exact hneed
    case h_3 s' heq =>
      rw [heq] at hneed
      exact hneed
    case h_4 s' heq =>
      rw [heq] at hneed
      exact hneed

theorem ringCall (h : Stable A R I) {c : RingCall} (hR : ∀ i, Releases c i → R i)
    (henter : ∀ src bytes s, c = .enqueue src bytes → bytes ≠ 0 → s.pol.nEnq < ringMaxGroups →
      I s → I (register src bytes s))
    {s : Sys S} (hs : I s) : I (ringCall A c s) := by
  cases c with
  | enqueue src bytes =>
    show I (ringEnqueue A src bytes s).2
    unfold ringEnqueue
    split
    case isTrue => exact hs
    case isFalse hb =>
      split
      case isTrue => exact hs
      case isFalse =>
        split
        case isTrue => exact hs
        case isFalse hn =>
          exact h.fire (h.claim (henter src bytes s rfl hb (Nat.lt_of_not_le hn) hs))
  | need g deadlineUs rounds => exact h.ringNeed g deadlineUs rounds hs
  | release g => exact h.ringRelease (hR g rfl) hs
  | onSerialPhase => exact h.fire (h.fire (h.claim (h.setBoost true s hs)))
  | drainTo g watchdogUs rounds =>
    show I (ringDrainTo A g watchdogUs rounds s).2
    unfold ringDrainTo
    split
    case isTrue => exact hs
    case isFalse hg =>
      by_cases hrel : s.pol.nRel ≤ g
      · apply h.drainLoop
        · intro j hj
          apply hR
          show j ≤ g
          omega
        · exact hs
      · have hzero : g + 1 - s.pol.nRel = 0 := by omega
        rw [hzero]
        exact hs

theorem ringCalls (h : Stable A R I) {cs : List RingCall} (hR : ∀ c ∈ cs, ∀ i, Releases c i → R i)
    (henter : ∀ src bytes s, .enqueue src bytes ∈ cs → bytes ≠ 0 → s.pol.nEnq < ringMaxGroups →
      I s → I (register src bytes s))
    {s : Sys S} (hs : I s) : I (ringCalls A cs s) := by
  induction cs generalizing s with
  | nil => exact hs
  | cons c cs ih =>
    apply ih
    · exact fun c' hc' => hR c' (List.mem_cons_of_mem c hc')
    · exact fun src bytes s' hm => henter src bytes s' (List.mem_cons_of_mem c hm)
    · apply h.ringCall (hR c List.mem_cons_self) _ hs
      intro src bytes s' hc
      exact henter src bytes s' (hc ▸ List.mem_cons_self)

end Stable

end Gehtp.Analysis.RingSteps
