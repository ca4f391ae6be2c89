import Gehtp.Lib.Sequences
import Gehtp.Analysis.ChatQueue

/-!
# Whether every permit comes back

A permit that `acquire` has returned is given back at the end of the plain path, in its `except`
branch, or in the `finally` of the generator of a stream. It is lost if an error is raised before
any of these is reached, if the generator is never started, if a plain handler is cancelled while it
waits, if the reset in the `finally` raises something else than a device error, and if the plain path
fails after a normal end of generation. In runs without such steps, free permits and requests in
progress always add up, and a request that has ended has given back what it got and has closed its
session.
-/

set_option autoImplicit false

namespace Gehtp.Analysis.ChatPermits

open Lib Model.ChatServer ChatQueue

variable {D : Type}

/-! ### The condition and the result -/

/-- The `finally` of a stream that has neither been completed nor failed resets the device; this
does not raise. -/
def FinallyOk (fault : Bool) (h : Handler) : Prop := settled h.gen = true ∨ fault = false

/-- The step loses no permit. -/
def NoLeak (chats : ℕ → Chat) : Event → Server D → Prop
  | .setUp _ fault, _ => fault = false
  | .dropStream _, _ => False
  | .cancel r fault, s => (chats r).stream = true ∧ FinallyOk fault (s.handlers r)
  | .raise r fault, s => (chats r).stream = true → FinallyOk fault (s.handlers r)
  | .conclude r fault, s =>
    if (chats r).stream = true then FinallyOk fault (s.handlers r)
    else fault = true → settled (s.handlers r).gen = true → (s.handlers r).gen.pc = .done .error
  | _, _ => True

def holds (h : Handler) : Bool :=
  match h.phase with
  | .granted | .acquired | .streamReady | .running => true
  | .idle | .rejected | .waiting | .ended => false

def inProgress (s : Server D) : ℕ := tally holds s.handlers s.seen

/-- Permits are neither lost nor made, and one that has ended has given back what it got, once, and
has closed its session. -/
structure Conserved (s : Server D) : Prop where
  permits : s.free + inProgress s = maxConcurrentRequests
  returned : ∀ r, (s.handlers r).phase = .ended →
    (s.handlers r).releases = (s.handlers r).acquires ∧ (s.handlers r).session ≠ .active
  once : ∀ r, (s.handlers r).releases ≤ (s.handlers r).acquires ∧ (s.handlers r).acquires ≤ 1

/-! ### The invariant -/

/-- What a handler has got and given back at each phase, and its session. -/
def Ledger : Phase → ℕ → ℕ → SessionState → Prop
  | .idle, acquires, releases, session
  | .rejected, acquires, releases, session
  | .waiting, acquires, releases, session
  | .granted, acquires, releases, session => acquires = 0 ∧ releases = 0 ∧ session = .none
  | .acquired, acquires, releases, session => acquires = 1 ∧ releases = 0 ∧ session = .none
  | .streamReady, acquires, releases, session
  | .running, acquires, releases, session => acquires = 1 ∧ releases = 0 ∧ session = .active
  | .ended, acquires, releases, session =>
    acquires ≤ 1 ∧ releases = acquires ∧ session ≠ .active

def HandlerOk (h : Handler) : Prop := Ledger h.phase h.acquires h.releases h.session

structure Permits (s : Server D) : Prop where
  queue : Queue s
  permits : s.free + inProgress s = maxConcurrentRequests
  handlers : ∀ r, HandlerOk (s.handlers r)

variable {s s' : Server D} {r : ℕ} {h' : Handler} {V : Device D}
  {decode : ℤ → Option (List Char)} {chats : ℕ → Chat}

theorem HandlerOk.at {h : Handler} {p : Phase} (hok : HandlerOk h) (hp : h.phase = p) :
    Ledger p h.acquires h.releases h.session := by
  rw [← hp]
  exact hok

theorem HandlerOk.once {h : Handler} (hok : HandlerOk h) :
    h.releases ≤ h.acquires ∧ h.acquires ≤ 1 := by
  cases hp : h.phase with
  | ended =>
    obtain ⟨hle, heq, -⟩ := hok.at hp
    exact ⟨heq.le, hle⟩
  | _ =>
    obtain ⟨hacq, hrel, -⟩ := hok.at hp
    omega

theorem HandlerOk.endUnused {h : Handler}
    (hunused : h.acquires = 0 ∧ h.releases = 0 ∧ h.session = .none) : HandlerOk (h.enter .ended) := by
  obtain ⟨hacq, hrel, hses⟩ := hunused
  refine ⟨?_, ?_, ?_⟩
  · show h.acquires ≤ 1
    omega
  · show h.releases = h.acquires
    omega
  · show h.session ≠ .active
    rw [hses]
    exact SessionState.noConfusion

theorem Permits.conserved (h : Permits s) : Conserved s where
  permits := h.permits
  returned r hr := ((h.handlers r).at hr).2
  once r := (h.handlers r).once

theorem permits_start (slot : Slot D) : Permits (start slot) where
  queue := queue_start slot
  permits := rfl
  handlers _ := ⟨rfl, rfl, rfl⟩

/-! ### Single changes -/

theorem handlers_set (h : ∀ q, HandlerOk (s.handlers q)) (hok : HandlerOk h') (q : ℕ) :
    HandlerOk ((s.set r h').handlers q) := by
  rw [set_apply]
  split
  · exact hok
  · exact h q

theorem inProgress_set (h : Queue s) (hr : (s.handlers r).phase ≠ .idle) (h' : Handler) :
    inProgress (s.set r h') + (holds (s.handlers r)).toNat = inProgress s + (holds h').toNat :=
  tally_update h.seenNodup ((h.seen r).mpr hr)

theorem holds_eq {h : Handler} {p : Phase} (hp : h.phase = p) :
    holds h = holds (h.enter p) := by
  subst hp
  rfl

theorem Permits.set (h : Permits s) (hr : (s.handlers r).phase ≠ .idle) (hqueue : Queue (s.set r h'))
    (hholds : holds h' = holds (s.handlers r)) (hok : HandlerOk h') : Permits (s.set r h') where
  queue := hqueue
  permits := by
    have hcount := inProgress_set h.queue hr h'
    have hp := h.permits
    rw [hholds] at hcount
    show s.free + _ = _
    omega
  handlers := handlers_set h.handlers hok

theorem putPermit_count (h : Queue s) :
    (putPermit s).free + inProgress (putPermit s) = s.free + inProgress s + 1 := by
  unfold putPermit
  split
  · show s.free + 1 + inProgress s = _
    omega
  · rename_i q rest hws
    have hq : (s.handlers q).phase = .waiting := h.waiting q (by simp [hws])
    have hcount := inProgress_set h (r := q) (by rw [hq]; exact Phase.noConfusion)
      ((s.handlers q).enter .granted)
    have hnew : holds ((s.handlers q).enter .granted) = true := rfl
    have hold : holds (s.handlers q) = false := holds_eq hq
    rw [hold, hnew, Bool.toNat_false, Bool.toNat_true] at hcount
    show s.free + inProgress (s.set q ((s.handlers q).enter .granted)) = _
    omega

theorem putPermit_handlers (h : Queue s) (hok : ∀ q, HandlerOk (s.handlers q)) (q : ℕ) :
    HandlerOk ((putPermit s).handlers q) := by
  unfold putPermit
  split
  · exact hok q
  · rename_i w rest hws
    have hw : (s.handlers w).phase = .waiting := h.waiting w (by simp [hws])
    have hwait := (hok w).at hw
    have hgranted : HandlerOk ((s.handlers w).enter .granted) := hwait
    exact handlers_set (s := { s with waiters := rest }) hok hgranted q

theorem Permits.giveBack (h : Permits s) (hr : (s.handlers r).phase ≠ .idle)
    (hqueue : Queue (s.set r h')) (hholds : holds (s.handlers r) = true) (hnone : holds h' = false)
    (hok : HandlerOk h') : Permits (putPermit (s.set r h')) where
  queue := hqueue.putPermit
  permits := by
    have hcount := inProgress_set h.queue hr h'
    have hp := h.permits
    rw [hholds, hnone] at hcount
    rw [putPermit_count hqueue]
    simp only [Bool.toNat_true, Bool.toNat_false] at hcount
    show s.free + inProgress (s.set r h') + 1 = _
    omega
  handlers := putPermit_handlers hqueue (handlers_set h.handlers hok)

/-! ### Steps -/

theorem inProgress_enter (h : Queue s) (hr : (s.handlers r).phase = .idle) (h' : Handler) :
    tally holds (Function.update s.handlers r h') (s.seen ++ [r])
      = inProgress s + (holds h').toNat := by
  have hnew : r ∉ s.seen := fun hmem => (h.seen r).mp hmem hr
  rw [tally_append_singleton, tally_update_of_notMem hnew, Function.update_self]
  rfl

theorem permits_arrive (h : Permits s) (hs : arrive r s = some s') : Permits s' := by
  have hqueue := queue_arrive h.queue hs
  unfold arrive at hs
  split at hs
  · rename_i hr
    have hok := (h.handlers r).at hr
    have hp := h.permits
    dsimp only at hs
    split_ifs at hs with hfull hfree
    · cases hs
      refine ⟨hqueue, ?_, handlers_set (s := { s with seen := s.seen ++ [r] }) h.handlers hok⟩
      show s.free + tally holds (Function.update s.handlers r _) (s.seen ++ [r]) = _
      rw [inProgress_enter h.queue hr]
      exact hp
    · cases hs
      refine ⟨hqueue, ?_, ?_⟩
      · show s.free - 1 + tally holds (Function.update s.handlers r _) (s.seen ++ [r]) = _
        rw [inProgress_enter h.queue hr]
        simp only [holds, Handler.acquire, Bool.toNat_true]
        omega
      · apply handlers_set h.handlers
        exact ⟨congrArg (· + 1) hok.1, hok.2.1, hok.2.2⟩
    · cases hs
      refine ⟨hqueue, ?_, handlers_set h.handlers hok⟩
      show s.free + tally holds (Function.update s.handlers r _) (s.seen ++ [r]) = _
      rw [inProgress_enter h.queue hr]
      exact hp
  · cases hs

theorem permits_resume (h : Permits s) (hs : resume r s = some s') : Permits s' := by
  have hqueue := queue_resume h.queue hs
  unfold resume at hs
  split at hs
  · rename_i hr
    cases hs
    obtain ⟨hacq, hrel, hses⟩ := (h.handlers r).at hr
    have hmid : Permits { s with queued := s.queued - 1 } :=
      ⟨{ h.queue with }, h.permits, h.handlers⟩
    apply hmid.set _ hqueue
    · exact (holds_eq hr).symm
    · exact ⟨congrArg (· + 1) hacq, hrel, hses⟩
    · show (s.handlers r).phase ≠ .idle
      rw [hr]
      exact Phase.noConfusion
  · cases hs

theorem permits_cancelWait (h : Permits s) (hs : cancelWait r s = some s') : Permits s' := by
  have hqueue := queue_cancelWait h.queue hs
  unfold cancelWait at hs
  split at hs
  · rename_i hr
    cases hs
    have hne : (s.handlers r).phase ≠ .idle := by
      rw [hr]
      exact Phase.noConfusion
    have hcount := inProgress_set h.queue hne ((s.handlers r).enter .ended)
    rw [holds_eq hr] at hcount
    refine ⟨hqueue, ?_, handlers_set h.handlers (HandlerOk.endUnused ((h.handlers r).at hr))⟩
    exact (congrArg (s.free + ·) hcount).trans h.permits
  · rename_i hr
    cases hs
    have hmid : Permits { s with queued := s.queued - 1 } :=
      ⟨{ h.queue with }, h.permits, h.handlers⟩
    apply hmid.giveBack
    · show (s.handlers r).phase ≠ .idle
      rw [hr]
      exact Phase.noConfusion
    · exact hmid.queue.move hr Phase.noConfusion Phase.noConfusion Phase.noConfusion
    · exact holds_eq hr
    · rfl
    · exact HandlerOk.endUnused ((h.handlers r).at hr)
  · cases hs

theorem permits_setUp (h : Permits s) (hs : setUp chats r false s = some s') : Permits s' := by
  have hqueue := queue_setUp h.queue hs
  unfold setUp at hs
  split at hs
  · rename_i hr
    obtain ⟨hacq, hrel, hses⟩ := (h.handlers r).at hr
    have hne : (s.handlers r).phase ≠ .idle := by
      rw [hr]
      exact Phase.noConfusion
    rw [if_neg Bool.false_ne_true] at hs
    split at hs
    · cases hs
      exact h.set hne hqueue (holds_eq hr).symm ⟨hacq, hrel, rfl⟩
    · cases hs
      exact h.set hne hqueue (holds_eq hr).symm ⟨hacq, hrel, rfl⟩
  · cases hs

theorem permits_startStream (h : Permits s) (hs : startStream r s = some s') : Permits s' := by
  have hqueue := queue_startStream h.queue hs
  unfold startStream at hs
  split at hs
  · rename_i hr
    cases hs
    have hok := (h.handlers r).at hr
    apply h.set _ hqueue (holds_eq hr).symm hok
    rw [hr]
    exact Phase.noConfusion
  · cases hs

theorem permits_closeChat (h : Permits s) (hr : (s.handlers r).phase = .running) :
    Permits (closeChat r s) := by
  obtain ⟨hacq, hrel, -⟩ := (h.handlers r).at hr
  apply h.giveBack
  · rw [hr]
    exact Phase.noConfusion
  · exact h.queue.move hr Phase.noConfusion Phase.noConfusion Phase.noConfusion
  · exact holds_eq hr
  · rfl
  · refine ⟨hacq.le, ?_, SessionState.noConfusion⟩
    show (s.handlers r).releases + 1 = (s.handlers r).acquires
    rw [hacq, hrel]

theorem permits_finallyStream {fault : Bool} (h : Permits s)
    (hr : (s.handlers r).phase = .running) (hf : FinallyOk fault (s.handlers r)) :
    Permits (finallyStream V r fault s) := by
  unfold finallyStream
  split_ifs with hsettled hfault
  · exact permits_closeChat h hr
  · cases hf with
    | inl hset => exact absurd hset hsettled
    | inr hno =>
      rw [hno] at hfault
      cases hfault
  · have hmid : Permits { s with slot := s.slot.cancel.reset V } :=
      ⟨{ h.queue with }, h.permits, h.handlers⟩
    exact permits_closeChat hmid hr

theorem permits_leaveRun (h : Permits s) : Permits (leaveRun chats r s) := by
  unfold leaveRun
  dsimp only
  split
  · exact ⟨{ h.queue with }, h.permits, h.handlers⟩
  · exact ⟨{ h.queue with }, h.permits, h.handlers⟩
  · exact h

theorem permits_cancel {fault : Bool} (h : Permits s)
    (hok : (chats r).stream = true ∧ FinallyOk fault (s.handlers r))
    (hs : cancel V chats r fault s = some s') : Permits s' := by
  unfold cancel at hs
  split at hs
  · rename_i hr
    rw [if_pos hok.1] at hs
    cases hs
    apply permits_finallyStream (permits_leaveRun h)
    · rw [leaveRun_handlers]
      exact hr
    · rw [leaveRun_handlers]
      exact hok.2
  · cases hs

theorem permits_raise {fault : Bool} (h : Permits s)
    (hok : (chats r).stream = true → FinallyOk fault (s.handlers r))
    (hs : raise V chats r fault s = some s') : Permits s' := by
  unfold raise at hs
  split at hs
  · rename_i hr
    split_ifs at hs with hstream
    · cases hs
      exact permits_finallyStream h hr (hok hstream)
    · cases hs
      exact permits_closeChat h hr
  · cases hs

theorem permits_generate {o : Obs} (h : Permits s)
    (hs : generate V decode chats r o s = some s') : Permits s' := by
  have hqueue := queue_generate h.queue hs
  unfold generate at hs
  dsimp only at hs
  split at hs
  · rename_i hr
    cases hs
    have hmid : Permits { s with
        slot := (genStep V decode (chats r) o (s.handlers r).gen s.slot).2 } :=
      ⟨{ h.queue with }, h.permits, h.handlers⟩
    apply hmid.set _ hqueue rfl (h.handlers r)
    show (s.handlers r).phase ≠ .idle
    rw [hr]
    exact Phase.noConfusion
  · cases hs

theorem permits_conclude {fault : Bool} (h : Permits s)
    (hok : NoLeak chats (.conclude r fault) s)
    (hs : conclude V chats r fault s = some s') : Permits s' := by
  change if (chats r).stream = true then FinallyOk fault (s.handlers r) else _ at hok
  unfold conclude at hs
  dsimp only at hs
  split at hs
  · rename_i how hr hpc
    split_ifs at hs hok with hstream hfault
    · cases hs
      exact permits_finallyStream h hr hok
    · -- a fault after a normal end is what the condition excludes
      exfalso
      have hsettled : settled (s.handlers r).gen = true := by
        unfold settled
        rw [hpc]
        cases hfault.2 with
        | inl hhow => rw [hhow]
        | inr hhow => rw [hhow]
      have herr := hok hfault.1 hsettled
      rw [hpc] at herr
      cases herr
      cases hfault.2 with
      | inl hhow => cases hhow
      | inr hhow => cases hhow
    · cases hs
      exact permits_closeChat h hr
  · cases hs

theorem permits_runLate (h : Permits s) (hs : runLate V s = some s') : Permits s' := by
  unfold runLate at hs
  split at hs
  · cases hs
  · cases hs
    exact ⟨{ h.queue with }, h.permits, h.handlers⟩

theorem permits_step (e : Event) (hok : NoLeak chats e s) (h : Permits s)
    (hs : step V decode chats e s = some s') : Permits s' := by
  cases e with
  | arrive r => exact permits_arrive h hs
  | resume r => exact permits_resume h hs
  | cancelWait r => exact permits_cancelWait h hs
  | setUp r fault =>
    obtain rfl : fault = false := hok
    exact permits_setUp h hs
  | startStream r => exact permits_startStream h hs
  | dropStream r => exact hok.elim
  | generate r o => exact permits_generate h hs
  | cancel r fault => exact permits_cancel h hok hs
  | raise r fault => exact permits_raise h hok hs
  | conclude r fault => exact permits_conclude h hok hs
  | runLate => exact permits_runLate h hs

/-- In runs without a step that loses a permit, permits are conserved. -/
theorem permits_conserved (V : Device D) (decode : ℤ → Option (List Char)) (chats : ℕ → Chat)
    (slot : Slot D) (es : List Event) (s : Server D)
    (hok : Runs.Meets (step V decode chats) (NoLeak chats) es (start slot))
    (hrun : Runs.run (step V decode chats) es (start slot) = some s) : Conserved s := by
  apply Permits.conserved
  apply Runs.run_invariant_of_meets _ (permits_start slot) hok hrun
  intro e s s' he h hs
  exact permits_step e he h hs

/-! ### A stream that is given up -/

/-- A short prompt to a device that answers with the position. -/
def shortChat (stream : Bool) : Chat := ⟨[7], 2, [], true, stream, 16⟩

def echoDevice : Device ℕ := ⟨0, fun _ position d => (some (.token position), d + 1)⟩

def echoText (_ : ℤ) : Option (List Char) := some ['a']

def quiet : Obs := ⟨false, 0⟩

/-- A streamed request from its arrival to its end. -/
def wholeStream : List Event :=
  [.arrive 0, .setUp 0 false, .startStream 0] ++ List.replicate 7 (.generate 0 quiet)
    ++ [.conclude 0 false]

theorem wholeStream_run :
    ((Runs.run (step echoDevice echoText fun _ => shortChat true) wholeStream (start ⟨9, true⟩)).map
      fun s => (s.handlers 0, s.free))
        = some (⟨.ended, ⟨.done .length, 2, 3, ['a', 'a'], 1, none, [(0, ['a']), (1, ['a'])]⟩,
            .released, 1, 1⟩, 4) := by
  decide

theorem wholeStream_noLeak : Runs.Meets (step echoDevice echoText fun _ => shortChat true)
    (NoLeak fun _ => shortChat true) wholeStream (start ⟨9, true⟩) := by
  apply Runs.meets_of_forall
  intro e he s
  simp only [wholeStream, List.mem_append, List.mem_cons, List.mem_replicate, List.not_mem_nil,
    or_false] at he
  obtain ((rfl | rfl | rfl) | ⟨-, rfl⟩) | rfl := he
  · trivial
  · rfl
  · trivial
  · trivial
  · exact Or.inr rfl

/-- A stream that is read to its end gives its permit back. -/
theorem wholeStream_conserved : ∃ s,
    Runs.run (step echoDevice echoText fun _ => shortChat true) wholeStream (start ⟨9, true⟩) = some s ∧
      (s.handlers 0).phase = .ended ∧ Conserved s := by
  obtain ⟨s, hs, hout⟩ := Option.map_eq_some_iff.mp wholeStream_run
  exact ⟨s, hs, congrArg (fun p => p.1.phase) hout,
    permits_conserved _ _ _ _ _ s wholeStream_noLeak hs⟩

theorem dropStream_run : ((Runs.run (step echoDevice echoText fun _ => shortChat true)
    [.arrive 0, .setUp 0 false, .dropStream 0] (start ⟨9, true⟩)).map
      fun s => (s.handlers 0, s.free))
        = some (⟨.ended, Gen.init, .active, 1, 0⟩, 3) := by
  decide

/-- The client is gone before the generator of its response is started: the permit stays away. -/
theorem dropStream_leaks : ¬ ∀ es s,
    Runs.run (step echoDevice echoText fun _ => shortChat true) es (start ⟨9, true⟩) = some s →
      Conserved s := by
  intro h
  obtain ⟨s, hs, hout⟩ := Option.map_eq_some_iff.mp dropStream_run
  have hhandler : s.handlers 0 = ⟨.ended, Gen.init, .active, 1, 0⟩ := congrArg Prod.fst hout
  have hreturned := (h _ s hs).returned 0 (by rw [hhandler])
  rw [hhandler] at hreturned
  exact absurd hreturned.1 (by decide)

end Gehtp.Analysis.ChatPermits
