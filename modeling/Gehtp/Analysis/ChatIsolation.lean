import Gehtp.Analysis.ChatQueue

/-!
# When a request generates what it generates alone

All requests of a model run on one decode state. A request clears it when it begins and then relies
on nobody else touching it until it is done, but the queue lets four requests through. If a request
touches the slot only while no other one is between its first reset and the end of its generation,
then each request goes through exactly the states it goes through on a slot of its own.
-/

set_option autoImplicit false

namespace Gehtp.Analysis.ChatIsolation

open Lib Model.ChatServer ChatQueue

variable {D : Type}

/-! ### The condition and the result -/

/-- The request relies on the state of the slot. -/
def Busy (h : Handler) : Prop := h.phase = .running ∧ h.gen.pc.awaits = true

/-- No other request relies on the slot. -/
def Alone (r : ℕ) (s : Server D) : Prop := ∀ q, q ≠ r → ¬ Busy (s.handlers q)

/-- The step of generation uses the slot. -/
def usesSlot (c : Chat) (o : Obs) (g : Gen) : Bool :=
  match g.pc with
  | .start => !c.inputIds.isEmpty
  | .promptCheck rest => !rest.isEmpty && o.disconnected
  | .check _ => o.disconnected
  | .promptRun _ _ | .decodeRun _ => true
  | .last _ | .done _ => false

/-- Whoever touches the slot is alone on it; a stream that is given up touches it until its end has
been said. -/
def Undisturbed (chats : ℕ → Chat) : Event → Server D → Prop
  | .generate r o, s => usesSlot (chats r) o (s.handlers r).gen = true → Alone r s
  | .cancel r _, s | .raise r _, s | .conclude r _, s =>
    (chats r).stream = true → settled (s.handlers r).gen = false → Alone r s
  | .runLate, s => ∀ q, ¬ Busy (s.handlers q)
  | _, _ => True

/-- What the surroundings say in a step of request `r`. -/
def obsOf (r : ℕ) : Event → List Obs
  | .generate q o => if q = r then [o] else []
  | _ => []

def ownObs (r : ℕ) (es : List Event) : List Obs := es.flatMap (obsOf r)

def runAlone (V : Device D) (decode : ℤ → Option (List Char)) (c : Chat) (obs : List Obs)
    (slot : Slot D) : Gen × Slot D :=
  obs.foldl (fun gs o => genStep V decode c o gs.1 gs.2) (Gen.init, slot)

/-- Each request at temperature zero has generated the tokens that its steps generate alone, from
whatever state the slot was in. -/
def SameTokens (V : Device D) (decode : ℤ → Option (List Char)) (chats : ℕ → Chat)
    (es : List Event) (s : Server D) : Prop :=
  ∀ r slot, (chats r).greedy = true →
    (s.handlers r).gen.out.map Prod.fst
      = (runAlone V decode (chats r) (ownObs r es) slot).1.out.map Prod.fst

variable {V : Device D} {decode : ℤ → Option (List Char)} {chats : ℕ → Chat} {s s' : Server D}
  {r : ℕ}

theorem runAlone_append (c : Chat) (obs : List Obs) (o : Obs) (slot : Slot D) :
    runAlone V decode c (obs ++ [o]) slot
      = genStep V decode c o (runAlone V decode c obs slot).1 (runAlone V decode c obs slot).2 := by
  unfold runAlone
  rw [List.foldl_append]
  rfl

/-! ### One step of generation -/

variable {c : Chat} {o : Obs} {g : Gen} {fault : Bool}

theorem genStep_slot (h : usesSlot c o g = false) (slot : Slot D) :
    (genStep V decode c o g slot).2 = slot := by
  unfold usesSlot at h
  unfold genStep
  cases hpc : g.pc with
  | start =>
    rw [hpc] at h
    cases hids : c.inputIds with
    | nil => rfl
    | cons t l =>
      rw [hids] at h
      cases h
  | promptCheck rest =>
    rw [hpc] at h
    cases rest with
    | nil => rfl
    | cons t l =>
      have ho : o.disconnected = false := by simpa using h
      simp [ho]
  | check left =>
    rw [hpc] at h
    have ho : o.disconnected = false := h
    simp only [ho, Bool.false_eq_true, if_false]
    split <;> rfl
  | promptRun t l =>
    rw [hpc] at h
    cases h
  | decodeRun n =>
    rw [hpc] at h
    cases h
  | last how | done how => rfl

theorem genStep_start (h : g.pc = .start) (slot slot' : Slot D) :
    (genStep V decode c o g slot).1 = (genStep V decode c o g slot').1 ∧
      ((genStep V decode c o g slot).1.pc.awaits = true →
        (genStep V decode c o g slot).2 = (genStep V decode c o g slot').2) := by
  unfold genStep
  rw [h]
  cases c.inputIds with
  | nil => exact ⟨rfl, fun hw => by cases hw⟩
  | cons t l => exact ⟨rfl, fun _ => rfl⟩

theorem genStep_last {how : Outcome} (h : g.pc = .last how) (slot : Slot D) :
    genStep V decode c o g slot = (g.finish how, slot) := by
  unfold genStep
  rw [h]

theorem genStep_done {how : Outcome} (h : g.pc = .done how) (slot : Slot D) :
    genStep V decode c o g slot = (g, slot) := by
  unfold genStep
  rw [h]

/-! ### The invariant -/

/-- The handler has not begun to generate. -/
def Early (p : Phase) : Prop := p ≠ .running ∧ p ≠ .ended

/-- Each request is where it is alone, and one that relies on the slot has it as it is alone. -/
structure Isolated (V : Device D) (decode : ℤ → Option (List Char)) (chats : ℕ → Chat)
    (slot : Slot D) (hist : ℕ → List Obs) (s : Server D) : Prop where
  queue : Queue s
  gen : ∀ r, (s.handlers r).gen = (runAlone V decode (chats r) (hist r) slot).1
  slots : ∀ r, Busy (s.handlers r) → s.slot = (runAlone V decode (chats r) (hist r) slot).2
  early : ∀ r, Early (s.handlers r).phase → (s.handlers r).gen.pc = .start

variable {slot : Slot D} {hist : ℕ → List Obs}

theorem isolated_start (slot₀ : Slot D) :
    Isolated V decode chats slot (fun _ => []) (start slot₀) where
  queue := queue_start slot₀
  gen _ := rfl
  slots _ h := by cases h.1
  early _ _ := rfl

/-- No request generates, and each stays where it is, ends, or has not begun. -/
def Still (s s' : Server D) : Prop := ∀ q, (s'.handlers q).gen = (s.handlers q).gen ∧
  ((s'.handlers q).phase = (s.handlers q).phase ∨ (s'.handlers q).phase = .ended ∨
    Early (s.handlers q).phase)

theorem Still.refl (s : Server D) : Still s s := fun _ => ⟨rfl, Or.inl rfl⟩

/-- A step that generates nothing keeps the invariant, if the slot is as before or nobody relies on
it. -/
theorem Isolated.still (h : Isolated V decode chats slot hist s) (hqueue : Queue s')
    (hstill : Still s s')
    (hslot : s'.slot = s.slot ∨ ∀ q, Busy (s'.handlers q) → ¬ Busy (s.handlers q)) :
    Isolated V decode chats slot hist s' where
  queue := hqueue
  gen q := by
    rw [(hstill q).1]
    exact h.gen q
  slots q hq := by
    obtain ⟨hgen, hphase⟩ := hstill q
    have hbusy : Busy (s.handlers q) := by
      obtain ⟨hrun, hawaits⟩ := hq
      rw [hgen] at hawaits
      rcases hphase with hp | hp | hp
      · exact ⟨hp ▸ hrun, hawaits⟩
      · rw [hrun] at hp
        cases hp
      · rw [h.early q hp] at hawaits
        cases hawaits
    cases hslot with
    | inl hslot =>
      rw [hslot]
      exact h.slots q hbusy
    | inr hnone => exact absurd hbusy (hnone q hq)
  early q hq := by
    obtain ⟨hgen, hphase⟩ := hstill q
    rw [hgen]
    rcases hphase with hp | hp | hp
    · exact h.early q (hp ▸ hq)
    · exact absurd hp hq.2
    · exact h.early q hp

/-! ### Steps that generate nothing -/

theorem still_set {h' : Handler} (hs : Still s s') (hgen : h'.gen = (s.handlers r).gen)
    (hp : h'.phase = .ended ∨ Early (s.handlers r).phase) : Still s (s'.set r h') := by
  intro q
  rw [set_apply]
  split
  · rename_i hqr
    subst hqr
    exact ⟨hgen, Or.inr hp⟩
  · exact hs q

theorem still_putPermit (hs : Still s s')
    (hw : ∀ q ∈ s'.waiters, (s.handlers q).phase = .waiting) : Still s (putPermit s') := by
  unfold putPermit
  split
  · exact hs
  · rename_i q rest hws
    have hq := hw q (by simp [hws])
    have hmid : Still s { s' with waiters := rest } := hs
    apply still_set hmid
    · exact (hs q).1
    · refine Or.inr ?_
      rw [hq]
      exact ⟨Phase.noConfusion, Phase.noConfusion⟩

theorem isolated_arrive (h : Isolated V decode chats slot hist s) (hs : arrive r s = some s') :
    Isolated V decode chats slot hist s' := by
  have hqueue := queue_arrive h.queue hs
  unfold arrive at hs
  split at hs
  · rename_i hr
    have hearly : Early (s.handlers r).phase := by
      rw [hr]
      exact ⟨Phase.noConfusion, Phase.noConfusion⟩
    dsimp only at hs
    split_ifs at hs
    · cases hs
      exact h.still hqueue (still_set (Still.refl s) rfl (Or.inr hearly)) (Or.inl rfl)
    · cases hs
      exact h.still hqueue (still_set (Still.refl s) rfl (Or.inr hearly)) (Or.inl rfl)
    · cases hs
      exact h.still hqueue (still_set (Still.refl s) rfl (Or.inr hearly)) (Or.inl rfl)
  · cases hs

theorem isolated_resume (h : Isolated V decode chats slot hist s) (hs : resume r s = some s') :
    Isolated V decode chats slot hist s' := by
  have hqueue := queue_resume h.queue hs
  unfold resume at hs
  split at hs
  · rename_i hr
    cases hs
    have hearly : Early (s.handlers r).phase := by
      rw [hr]
      exact ⟨Phase.noConfusion, Phase.noConfusion⟩
    exact h.still hqueue (still_set (Still.refl s) rfl (Or.inr hearly)) (Or.inl rfl)
  · cases hs

@[simp] theorem putPermit_slot (s : Server D) : (putPermit s).slot = s.slot := by
  unfold putPermit
  split <;> rfl

theorem isolated_cancelWait (h : Isolated V decode chats slot hist s)
    (hs : cancelWait r s = some s') : Isolated V decode chats slot hist s' := by
  have hqueue := queue_cancelWait h.queue hs
  unfold cancelWait at hs
  split at hs
  · cases hs
    exact h.still hqueue (still_set (Still.refl s) rfl (Or.inl rfl)) (Or.inl rfl)
  · cases hs
    have hstill : Still s (Server.setPhase { s with queued := s.queued - 1 } r .ended) :=
      still_set (Still.refl s) rfl (Or.inl rfl)
    exact h.still hqueue (still_putPermit hstill h.queue.waiting) (Or.inl (putPermit_slot _))
  · cases hs

theorem isolated_setUp (h : Isolated V decode chats slot hist s)
    (hs : setUp chats r fault s = some s') : Isolated V decode chats slot hist s' := by
  have hqueue := queue_setUp h.queue hs
  unfold setUp at hs
  split at hs
  · rename_i hr
    have hearly : Early (s.handlers r).phase := by
      rw [hr]
      exact ⟨Phase.noConfusion, Phase.noConfusion⟩
    split_ifs at hs
    · cases hs
      exact h.still hqueue (still_set (Still.refl s) rfl (Or.inr hearly)) (Or.inl rfl)
    · cases hs
      exact h.still hqueue (still_set (Still.refl s) rfl (Or.inr hearly)) (Or.inl rfl)
    · cases hs
      exact h.still hqueue (still_set (Still.refl s) rfl (Or.inr hearly)) (Or.inl rfl)
  · cases hs

theorem isolated_startStream (h : Isolated V decode chats slot hist s)
    (hs : startStream r s = some s') : Isolated V decode chats slot hist s' := by
  have hqueue := queue_startStream h.queue hs
  unfold startStream at hs
  split at hs
  · rename_i hr
    cases hs
    have hearly : Early (s.handlers r).phase := by
      rw [hr]
      exact ⟨Phase.noConfusion, Phase.noConfusion⟩
    exact h.still hqueue (still_set (Still.refl s) rfl (Or.inr hearly)) (Or.inl rfl)
  · cases hs

theorem isolated_dropStream (h : Isolated V decode chats slot hist s)
    (hs : dropStream r s = some s') : Isolated V decode chats slot hist s' := by
  have hqueue := queue_dropStream h.queue hs
  unfold dropStream at hs
  split at hs
  · cases hs
    exact h.still hqueue (still_set (Still.refl s) rfl (Or.inl rfl)) (Or.inl rfl)
  · cases hs

theorem closeChat_not_busy (hr : r ∉ s.waiters) : ¬ Busy ((closeChat r s).handlers r) := by
  have hended : ((closeChat r s).handlers r).phase = .ended := by
    unfold closeChat putPermit
    split
    · rw [set_self]
      rfl
    · rename_i q rest hws
      have hqr : r ≠ q := by
        rintro rfl
        apply hr
        have hmem : r ∈ (s.set r (s.handlers r).close).waiters := by simp [hws]
        exact hmem
      unfold Server.setPhase
      rw [set_of_ne hqr]
      show ((s.set r (s.handlers r).close).handlers r).phase = .ended
      rw [set_self]
      rfl
  intro hbusy
  rw [hbusy.1] at hended
  cases hended

theorem still_closeChat (hqueue : Queue s) : Still s (closeChat r s) :=
  still_putPermit (still_set (Still.refl s) rfl (Or.inl rfl)) hqueue.waiting

theorem isolated_closeChat (h : Isolated V decode chats slot hist s)
    (hr : (s.handlers r).phase = .running) : Isolated V decode chats slot hist (closeChat r s) :=
  h.still (queue_closeChat h.queue hr) (still_closeChat h.queue) (Or.inl (putPermit_slot _))

theorem isolated_finallyStream (h : Isolated V decode chats slot hist s)
    (hr : (s.handlers r).phase = .running)
    (halone : settled (s.handlers r).gen = false → Alone r s) :
    Isolated V decode chats slot hist (finallyStream V r fault s) := by
  have hqueue : Queue (finallyStream V r fault s) := queue_finallyStream h.queue hr
  unfold finallyStream at hqueue ⊢
  split_ifs at hqueue ⊢ with hsettled hfault
  · exact isolated_closeChat h hr
  · exact h.still hqueue (still_set (Still.refl s) rfl (Or.inl rfl)) (Or.inl rfl)
  · have hmid : Queue { s with slot := s.slot.cancel.reset V } := { h.queue with }
    have hstill : Still s (closeChat r { s with slot := s.slot.cancel.reset V }) :=
      still_closeChat hmid
    apply h.still hqueue hstill
    refine Or.inr fun q hq => ?_
    by_cases hqr : q = r
    · subst hqr
      exact absurd hq (closeChat_not_busy (hmid.notMem (by rw [hr]; exact Phase.noConfusion)))
    · exact halone (Bool.not_eq_true _ ▸ hsettled) q hqr

theorem isolated_leaveRun (h : Isolated V decode chats slot hist s) :
    Isolated V decode chats slot hist (leaveRun chats r s) := by
  apply h.still (queue_leaveRun h.queue)
  · intro q
    rw [leaveRun_handlers]
    exact ⟨rfl, Or.inl rfl⟩
  · exact Or.inl (leaveRun_slot chats r s)

theorem isolated_cancel (h : Isolated V decode chats slot hist s)
    (halone : (chats r).stream = true → settled (s.handlers r).gen = false → Alone r s)
    (hs : cancel V chats r fault s = some s') : Isolated V decode chats slot hist s' := by
  have hqueue := queue_cancel h.queue hs
  have hleft := isolated_leaveRun (r := r) h
  unfold cancel at hs
  split at hs
  · rename_i hr
    split_ifs at hs with hstream
    · cases hs
      apply isolated_finallyStream hleft
      · rw [leaveRun_handlers]
        exact hr
      · unfold Alone
        rw [leaveRun_handlers]
        exact halone hstream
    · cases hs
      exact hleft.still hqueue (still_set (Still.refl _) rfl (Or.inl rfl)) (Or.inl rfl)
  · cases hs

theorem isolated_raise (h : Isolated V decode chats slot hist s)
    (halone : (chats r).stream = true → settled (s.handlers r).gen = false → Alone r s)
    (hs : raise V chats r fault s = some s') : Isolated V decode chats slot hist s' := by
  unfold raise at hs
  split at hs
  · rename_i hr
    split_ifs at hs with hstream
    · cases hs
      exact isolated_finallyStream h hr (halone hstream)
    · cases hs
      exact isolated_closeChat h hr
  · cases hs

theorem isolated_conclude (h : Isolated V decode chats slot hist s)
    (halone : (chats r).stream = true → settled (s.handlers r).gen = false → Alone r s)
    (hs : conclude V chats r fault s = some s') : Isolated V decode chats slot hist s' := by
  have hqueue := queue_conclude h.queue hs
  unfold conclude at hs
  dsimp only at hs
  split at hs
  · rename_i how hr hpc
    split_ifs at hs with hstream
    · cases hs
      exact isolated_finallyStream h hr (halone hstream)
    · cases hs
      exact h.still hqueue (still_set (Still.refl s) rfl (Or.inl rfl)) (Or.inl rfl)
    · cases hs
      exact isolated_closeChat h hr
  · cases hs

theorem isolated_runLate (h : Isolated V decode chats slot hist s)
    (hnone : ∀ q, ¬ Busy (s.handlers q)) (hs : runLate V s = some s') :
    Isolated V decode chats slot hist s' := by
  have hqueue := queue_runLate h.queue hs
  unfold runLate at hs
  split at hs
  · cases hs
  · cases hs
    exact h.still hqueue (fun q => ⟨rfl, Or.inl rfl⟩) (Or.inr fun q _ => hnone q)

/-! ### A step of generation -/

theorem isolated_generate (h : Isolated V decode chats slot hist s)
    (halone : usesSlot (chats r) o (s.handlers r).gen = true → Alone r s)
    (hs : generate V decode chats r o s = some s') :
    Isolated V decode chats slot (Function.update hist r (hist r ++ [o])) s' := by
  have hqueue := queue_generate h.queue hs
  unfold generate at hs
  dsimp only at hs
  split at hs
  · rename_i hr
    cases hs
    have hgen := h.gen r
    -- the step on the shared slot and the step alone agree as far as the request can tell
    have hagree : (genStep V decode (chats r) o (s.handlers r).gen s.slot).1
          = (runAlone V decode (chats r) (hist r ++ [o]) slot).1 ∧
        ((genStep V decode (chats r) o (s.handlers r).gen s.slot).1.pc.awaits = true →
          (genStep V decode (chats r) o (s.handlers r).gen s.slot).2
            = (runAlone V decode (chats r) (hist r ++ [o]) slot).2) := by
      rw [runAlone_append, ← hgen]
      cases hpc : (s.handlers r).gen.pc with
      | start => exact genStep_start hpc _ _
      | last how =>
        rw [genStep_last hpc, genStep_last hpc]
        exact ⟨rfl, fun hw => by cases hw⟩
      | done how =>
        rw [genStep_done hpc, genStep_done hpc, hpc]
        exact ⟨rfl, fun hw => by cases hw⟩
      | _ =>
        rw [h.slots r ⟨hr, by rw [hpc]; rfl⟩]
        exact ⟨rfl, fun _ => rfl⟩
    refine ⟨hqueue, ?_, ?_, ?_⟩
    · intro q
      rw [set_apply, Function.update_apply]
      split
      · rename_i hqr
        subst hqr
        exact hagree.1
      · exact h.gen q
    · intro q hq
      rw [set_apply] at hq
      rw [Function.update_apply]
      split at hq
      · rename_i hqr
        subst hqr
        rw [if_pos rfl]
        exact hagree.2 hq.2
      · rename_i hqr
        rw [if_neg hqr]
        show (genStep V decode (chats r) o (s.handlers r).gen s.slot).2 = _
        cases huse : usesSlot (chats r) o (s.handlers r).gen with
        | false =>
          rw [genStep_slot huse]
          exact h.slots q hq
        | true => exact absurd hq (halone huse q hqr)
    · intro q hq
      rw [set_apply] at hq ⊢
      split
      · rename_i hqr
        rw [if_pos hqr] at hq
        exact absurd hr hq.1
      · rename_i hqr
        rw [if_neg hqr] at hq
        exact h.early q hq
  · cases hs

/-! ### Runs -/

/-- The steps that a request has taken after one more event. -/
def histStep (hist : ℕ → List Obs) (e : Event) (q : ℕ) : List Obs := hist q ++ obsOf q e

theorem histStep_generate (hist : ℕ → List Obs) (r : ℕ) (o : Obs) :
    histStep hist (.generate r o) = Function.update hist r (hist r ++ [o]) := by
  funext q
  rw [histStep, Function.update_apply, obsOf]
  by_cases hqr : q = r
  · subst hqr
    rw [if_pos rfl, if_pos rfl]
  · rw [if_neg hqr, if_neg (Ne.symm hqr), List.append_nil]

theorem histStep_of_nil {e : Event} (he : ∀ q, obsOf q e = []) : histStep hist e = hist := by
  funext q
  rw [histStep, he q, List.append_nil]

theorem isolated_step (e : Event) (hok : Undisturbed chats e s)
    (h : Isolated V decode chats slot hist s) (hs : step V decode chats e s = some s') :
    Isolated V decode chats slot (histStep hist e) s' := by
  cases e with
  | generate r o =>
    rw [histStep_generate]
    exact isolated_generate h hok hs
  | arrive r =>
    rw [histStep_of_nil fun _ => rfl]
    exact isolated_arrive h hs
  | resume r =>
    rw [histStep_of_nil fun _ => rfl]
    exact isolated_resume h hs
  | cancelWait r =>
    rw [histStep_of_nil fun _ => rfl]
    exact isolated_cancelWait h hs
  | setUp r fault =>
    rw [histStep_of_nil fun _ => rfl]
    exact isolated_setUp h hs
  | startStream r =>
    rw [histStep_of_nil fun _ => rfl]
    exact isolated_startStream h hs
  | dropStream r =>
    rw [histStep_of_nil fun _ => rfl]
    exact isolated_dropStream h hs
  | cancel r fault =>
    rw [histStep_of_nil fun _ => rfl]
    exact isolated_cancel h hok hs
  | raise r fault =>
    rw [histStep_of_nil fun _ => rfl]
    exact isolated_raise h hok hs
  | conclude r fault =>
    rw [histStep_of_nil fun _ => rfl]
    exact isolated_conclude h hok hs
  | runLate =>
    rw [histStep_of_nil fun _ => rfl]
    exact isolated_runLate h hok hs

theorem isolated_run (es : List Event) (h : Isolated V decode chats slot hist s)
    (hok : Runs.Meets (step V decode chats) (Undisturbed chats) es s)
    (hrun : Runs.run (step V decode chats) es s = some s') :
    Isolated V decode chats slot (fun q => hist q ++ ownObs q es) s' := by
  induction es generalizing s hist with
  | nil =>
    cases hrun
    have hnil : (fun q => hist q ++ ownObs q []) = hist := by
      funext q
      exact List.append_nil _
    rw [hnil]
    exact h
  | cons e es ih =>
    obtain ⟨s₁, h₁, h₂⟩ := Option.bind_eq_some_iff.mp hrun
    have hcons : (fun q => hist q ++ ownObs q (e :: es))
        = fun q => histStep hist e q ++ ownObs q es := by
      funext q
      rw [histStep, ownObs, List.flatMap_cons, List.append_assoc]
      rfl
    rw [hcons]
    exact ih (isolated_step e hok.1 h h₁) (hok.2 s₁ h₁) h₂

/-- If whoever touches the slot is alone on it, each request generates what it generates alone. -/
theorem requests_isolated (V : Device D) (decode : ℤ → Option (List Char)) (chats : ℕ → Chat)
    (slot : Slot D) (es : List Event) (s : Server D)
    (hok : Runs.Meets (step V decode chats) (Undisturbed chats) es (start slot))
    (hrun : Runs.run (step V decode chats) es (start slot) = some s) :
    SameTokens V decode chats es s := by
  intro r slot' _
  have hstart : Isolated V decode chats slot' (fun _ => []) (start slot) := isolated_start slot
  rw [(isolated_run es hstart hok hrun).gen r]
  rfl

/-! ### Two requests -/

def busy (h : Handler) : Bool := h.phase == .running && h.gen.pc.awaits

def aloneB (r : ℕ) (s : Server D) : Bool := s.seen.all fun q => q == r || !busy (s.handlers q)

/-- The condition, checked for the requests seen so far. -/
def undisturbedB : Event → Server D → Bool
  | .generate r _, s | .cancel r _, s | .raise r _, s | .conclude r _, s => aloneB r s
  | .runLate, _ => false
  | _, _ => true

theorem alone_of_aloneB (h : Queue s) (hb : aloneB r s = true) : Alone r s := by
  intro q hqr hbusy
  have hseen : q ∈ s.seen := (h.seen q).mpr (by rw [hbusy.1]; exact Phase.noConfusion)
  have hq := List.all_eq_true.mp hb q hseen
  simp [hqr, busy, hbusy.1, hbusy.2] at hq

theorem undisturbed_of_check (e : Event) (s : Server D) (h : Queue s)
    (hb : undisturbedB e s = true) : Undisturbed chats e s := by
  cases e with
  | generate r o => exact fun _ => alone_of_aloneB h hb
  | cancel r fault => exact fun _ _ => alone_of_aloneB h hb
  | raise r fault => exact fun _ _ => alone_of_aloneB h hb
  | conclude r fault => exact fun _ _ => alone_of_aloneB h hb
  | runLate => cases hb
  | _ => trivial

/-- A device whose tokens count its runs since the last reset. -/
def countDevice : Device ℕ := ⟨0, fun _ _ d => (some (.token d), d + 1)⟩

def letter (_ : ℤ) : Option (List Char) := some ['a']

/-- A prompt of one token, two tokens to generate. -/
def twoTokens (_ : ℕ) : Chat := ⟨[7], 2, [], true, false, 16⟩

def gen (r : ℕ) : Event := .generate r ⟨false, 0⟩

def admitted (r : ℕ) : List Event := [.arrive r, .setUp r false]

def inTurn : List Event :=
  admitted 0 ++ admitted 1 ++ List.replicate 7 (gen 0) ++ [.conclude 0 false] ++
    List.replicate 7 (gen 1) ++ [.conclude 1 false]

theorem inTurn_run :
    ((Runs.run (step countDevice letter twoTokens) inTurn (start ⟨9, true⟩)).map fun s =>
      ((s.handlers 0).gen.out.map Prod.fst, (s.handlers 1).gen.out.map Prod.fst))
        = some ([0, 1], [0, 1]) := by
  decide

theorem inTurn_undisturbed : Runs.Meets (step countDevice letter twoTokens) (Undisturbed twoTokens)
    inTurn (start ⟨9, true⟩) := by
  apply Runs.meets_of_meetsB undisturbed_of_check (fun e _ _ h hs => queue_step e h hs)
    (queue_start _)
  decide

/-- Two requests that take turns both get the tokens 0 and 1. -/
theorem inTurn_isolated : ∃ s,
    Runs.run (step countDevice letter twoTokens) inTurn (start ⟨9, true⟩) = some s ∧
      (s.handlers 1).gen.out.map Prod.fst = [0, 1] ∧
      SameTokens countDevice letter twoTokens inTurn s := by
  obtain ⟨s, hs, hout⟩ := Option.map_eq_some_iff.mp inTurn_run
  exact ⟨s, hs, congrArg Prod.snd hout, requests_isolated _ _ _ _ _ s inTurn_undisturbed hs⟩

/-- The second request begins after the first has fed its prompt. -/
def overlapping : List Event :=
  admitted 0 ++ admitted 1 ++ List.replicate 3 (gen 0) ++ [gen 1] ++ List.replicate 3 (gen 0)

theorem overlapping_run :
    ((Runs.run (step countDevice letter twoTokens) overlapping (start ⟨9, true⟩)).map fun s =>
      (s.handlers 0).gen.out.map Prod.fst) = some [0, 0] := by
  decide

/-- The first request generates other tokens than alone, where its second token is `1`. -/
theorem overlapping_not_isolated : ¬ ∀ es s,
    Runs.run (step countDevice letter twoTokens) es (start ⟨9, true⟩) = some s →
      SameTokens countDevice letter twoTokens es s := by
  intro h
  obtain ⟨s, hs, hout⟩ := Option.map_eq_some_iff.mp overlapping_run
  have hsame := h overlapping s hs 0 ⟨9, true⟩ rfl
  rw [hout] at hsame
  exact absurd hsame (by decide)

end Gehtp.Analysis.ChatIsolation
