import Mathlib.Data.List.Nodup
import Gehtp.Model.ChatServer

/-!
# Who waits in the queue

In every run, whatever goes wrong, the list of those that wait names each of them once, all of them
wait, and the requests seen so far are those that are not idle any more.
-/

set_option autoImplicit false

namespace Gehtp.Analysis.ChatQueue

open Model.ChatServer

variable {D : Type} {s s' : Server D} {r : ℕ} {h' : Handler} {p : Phase}

structure Queue (s : Server D) : Prop where
  nodup : s.waiters.Nodup
  waiting : ∀ r ∈ s.waiters, (s.handlers r).phase = .waiting
  seenNodup : s.seen.Nodup
  seen : ∀ r, r ∈ s.seen ↔ (s.handlers r).phase ≠ .idle

@[simp] theorem set_self (s : Server D) (r : ℕ) (h : Handler) : (s.set r h).handlers r = h :=
  Function.update_self ..

theorem set_of_ne {q : ℕ} (hqr : q ≠ r) : (s.set r h').handlers q = s.handlers q :=
  Function.update_of_ne hqr ..

theorem set_apply (s : Server D) (r q : ℕ) (h : Handler) :
    (s.set r h).handlers q = if q = r then h else s.handlers q :=
  Function.update_apply ..

theorem queue_start (slot : Slot D) : Queue (start slot) where
  nodup := List.nodup_nil
  waiting _ hr := absurd hr List.not_mem_nil
  seenNodup := List.nodup_nil
  seen _ := iff_of_false List.not_mem_nil fun hne => hne rfl

theorem Queue.notMem (h : Queue s) (hr : (s.handlers r).phase ≠ .waiting) : r ∉ s.waiters :=
  fun hmem => hr (h.waiting r hmem)

theorem Queue.set (h : Queue s) (hr : (s.handlers r).phase ≠ .idle) (hw : r ∉ s.waiters)
    (hi : h'.phase ≠ .idle) : Queue (s.set r h') where
  nodup := h.nodup
  waiting q hq := by
    have hqr : q ≠ r := by
      rintro rfl
      exact hw hq
    rw [set_of_ne hqr]
    exact h.waiting q hq
  seenNodup := h.seenNodup
  seen q := by
    rw [set_apply]
    split
    · rename_i hqr
      subst hqr
      exact iff_of_true ((h.seen q).mpr hr) hi
    · exact h.seen q

theorem Queue.move (h : Queue s) (hr : (s.handlers r).phase = p) (hidle : p ≠ .idle)
    (hwait : p ≠ .waiting) (hi : h'.phase ≠ .idle) : Queue (s.set r h') := by
  apply h.set _ _ hi
  · rw [hr]
    exact hidle
  · apply h.notMem
    rw [hr]
    exact hwait

theorem Queue.putPermit (h : Queue s) : Queue (putPermit s) := by
  unfold Model.ChatServer.putPermit
  split
  · exact { h with }
  · rename_i r rest hws
    have hnodup : (r :: rest).Nodup := hws ▸ h.nodup
    obtain ⟨hrest, hnd⟩ := List.nodup_cons.mp hnodup
    have hphase : (s.handlers r).phase = .waiting := h.waiting r (by simp [hws])
    have hmid : Queue { s with waiters := rest } :=
      { h with
        nodup := hnd
        waiting := fun q hq => h.waiting q (by rw [hws]; exact List.mem_cons_of_mem r hq) }
    apply hmid.set _ hrest
    · exact Phase.noConfusion
    · show (s.handlers r).phase ≠ .idle
      rw [hphase]
      exact Phase.noConfusion

theorem Queue.enter (h : Queue s) (hr : (s.handlers r).phase = .idle)
    (hseen : s'.seen = s.seen ++ [r]) (hhandlers : s'.handlers = s.handlers)
    (hws : s'.waiters = s.waiters ∧ h'.phase ≠ .idle ∨
      s'.waiters = s.waiters ++ [r] ∧ h'.phase = .waiting) : Queue (s'.set r h') := by
  have hnot : r ∉ s.waiters := h.notMem (by rw [hr]; exact Phase.noConfusion)
  have hidle : h'.phase ≠ .idle := by
    cases hws with
    | inl hws => exact hws.2
    | inr hws =>
      rw [hws.2]
      exact Phase.noConfusion
  have hold : ∀ q ∈ s.waiters, ((s'.set r h').handlers q).phase = .waiting := by
    intro q hq
    have hqr : q ≠ r := by
      rintro rfl
      exact hnot hq
    rw [set_of_ne hqr, hhandlers]
    exact h.waiting q hq
  refine ⟨?_, ?_, ?_, ?_⟩
  · show s'.waiters.Nodup
    cases hws with
    | inl hws =>
      rw [hws.1]
      exact h.nodup
    | inr hws =>
      rw [hws.1]
      exact List.nodup_append_comm.mp (List.nodup_cons.mpr ⟨hnot, h.nodup⟩)
  · intro q hq
    change q ∈ s'.waiters at hq
    cases hws with
    | inl hws =>
      rw [hws.1] at hq
      exact hold q hq
    | inr hws =>
      rw [hws.1, List.mem_append, List.mem_singleton] at hq
      cases hq with
      | inl hq => exact hold q hq
      | inr hqr =>
        rw [hqr, set_self]
        exact hws.2
  · show s'.seen.Nodup
    rw [hseen]
    have hnew : r ∉ s.seen := fun hmem => (h.seen r).mp hmem hr
    exact List.nodup_append_comm.mp (List.nodup_cons.mpr ⟨hnew, h.seenNodup⟩)
  · intro q
    show q ∈ s'.seen ↔ _
    rw [hseen, List.mem_append, List.mem_singleton, set_apply, hhandlers]
    split
    · rename_i hqr
      exact iff_of_true (Or.inr hqr) hidle
    · rename_i hqr
      rw [← h.seen q]
      exact or_iff_left hqr

/-! ### Steps -/

variable {V : Device D} {decode : ℤ → Option (List Char)} {chats : ℕ → Chat}

theorem queue_arrive (h : Queue s) (hs : arrive r s = some s') : Queue s' := by
  unfold arrive at hs
  split at hs
  · rename_i hr
    dsimp only at hs
    split_ifs at hs
    · cases hs
      exact h.enter hr rfl rfl (Or.inl ⟨rfl, Phase.noConfusion⟩)
    · cases hs
      exact h.enter hr rfl rfl (Or.inl ⟨rfl, Phase.noConfusion⟩)
    · cases hs
      exact h.enter hr rfl rfl (Or.inr ⟨rfl, rfl⟩)
  · cases hs

theorem queue_resume (h : Queue s) (hs : resume r s = some s') : Queue s' := by
  unfold resume at hs
  split at hs
  · rename_i hr
    cases hs
    have hmid : Queue { s with queued := s.queued - 1 } := { h with }
    exact hmid.move hr Phase.noConfusion Phase.noConfusion Phase.noConfusion
  · cases hs

theorem queue_cancelWait (h : Queue s) (hs : cancelWait r s = some s') : Queue s' := by
  unfold cancelWait at hs
  split at hs
  · rename_i hr
    cases hs
    have hmid : Queue { s with queued := s.queued - 1, waiters := s.waiters.erase r } :=
      { h with
        nodup := h.nodup.erase r
        waiting := fun q hq => h.waiting q (List.mem_of_mem_erase hq) }
    apply hmid.set _ _ Phase.noConfusion
    · show (s.handlers r).phase ≠ .idle
      rw [hr]
      exact Phase.noConfusion
    · exact h.nodup.not_mem_erase
  · rename_i hr
    cases hs
    have hmid : Queue { s with queued := s.queued - 1 } := { h with }
    exact (hmid.move hr Phase.noConfusion Phase.noConfusion Phase.noConfusion).putPermit
  · cases hs

theorem queue_setUp {fault : Bool} (h : Queue s) (hs : setUp chats r fault s = some s') :
    Queue s' := by
  unfold setUp at hs
  split at hs
  · rename_i hr
    split_ifs at hs
    · cases hs
      exact h.move hr Phase.noConfusion Phase.noConfusion Phase.noConfusion
    · cases hs
      exact h.move hr Phase.noConfusion Phase.noConfusion Phase.noConfusion
    · cases hs
      exact h.move hr Phase.noConfusion Phase.noConfusion Phase.noConfusion
  · cases hs

theorem queue_startStream (h : Queue s) (hs : startStream r s = some s') : Queue s' := by
  unfold startStream at hs
  split at hs
  · rename_i hr
    cases hs
    exact h.move hr Phase.noConfusion Phase.noConfusion Phase.noConfusion
  · cases hs

theorem queue_dropStream (h : Queue s) (hs : dropStream r s = some s') : Queue s' := by
  unfold dropStream at hs
  split at hs
  · rename_i hr
    cases hs
    exact h.move hr Phase.noConfusion Phase.noConfusion Phase.noConfusion
  · cases hs

theorem queue_closeChat (h : Queue s) (hr : (s.handlers r).phase = .running) :
    Queue (closeChat r s) :=
  (h.move hr Phase.noConfusion Phase.noConfusion Phase.noConfusion).putPermit

theorem queue_finallyStream {fault : Bool} (h : Queue s) (hr : (s.handlers r).phase = .running) :
    Queue (finallyStream V r fault s) := by
  unfold finallyStream
  split_ifs
  · exact queue_closeChat h hr
  · exact h.move hr Phase.noConfusion Phase.noConfusion Phase.noConfusion
  · have hmid : Queue { s with slot := s.slot.cancel.reset V } := { h with }
    exact queue_closeChat hmid hr

@[simp] theorem leaveRun_handlers (chats : ℕ → Chat) (r : ℕ) (s : Server D) :
    (leaveRun chats r s).handlers = s.handlers := by
  unfold leaveRun
  dsimp only
  split <;> rfl

@[simp] theorem leaveRun_slot (chats : ℕ → Chat) (r : ℕ) (s : Server D) :
    (leaveRun chats r s).slot = s.slot := by
  unfold leaveRun
  dsimp only
  split <;> rfl

theorem queue_leaveRun (h : Queue s) : Queue (leaveRun chats r s) := by
  unfold leaveRun
  dsimp only
  split
  · exact { h with }
  · exact { h with }
  · exact h

theorem queue_cancel {fault : Bool} (h : Queue s) (hs : cancel V chats r fault s = some s') :
    Queue s' := by
  unfold cancel at hs
  split at hs
  · rename_i hr
    have hr' : ((leaveRun chats r s).handlers r).phase = .running := by rw [leaveRun_handlers, hr]
    split_ifs at hs
    · cases hs
      exact queue_finallyStream (queue_leaveRun h) hr'
    · cases hs
      exact (queue_leaveRun h).move hr' Phase.noConfusion Phase.noConfusion Phase.noConfusion
  · cases hs

theorem queue_raise {fault : Bool} (h : Queue s) (hs : raise V chats r fault s = some s') :
    Queue s' := by
  unfold raise at hs
  split at hs
  · rename_i hr
    split_ifs at hs
    · cases hs
      exact queue_finallyStream h hr
    · cases hs
      exact queue_closeChat h hr
  · cases hs

theorem queue_generate {o : Obs} (h : Queue s) (hs : generate V decode chats r o s = some s') :
    Queue s' := by
  unfold generate at hs
  dsimp only at hs
  split at hs
  · rename_i hr
    cases hs
    have hmid : Queue { s with
        slot := (genStep V decode (chats r) o (s.handlers r).gen s.slot).2 } := { h with }
    apply hmid.move hr Phase.noConfusion Phase.noConfusion
    show (s.handlers r).phase ≠ .idle
    rw [hr]
    exact Phase.noConfusion
  · cases hs

theorem queue_conclude {fault : Bool} (h : Queue s) (hs : conclude V chats r fault s = some s') :
    Queue s' := by
  unfold conclude at hs
  dsimp only at hs
  split at hs
  · rename_i how hr hpc
    split_ifs at hs
    · cases hs
      exact queue_finallyStream h hr
    · cases hs
      exact h.move hr Phase.noConfusion Phase.noConfusion Phase.noConfusion
    · cases hs
      exact queue_closeChat h hr
  · cases hs

theorem queue_runLate (h : Queue s) (hs : runLate V s = some s') : Queue s' := by
  unfold runLate at hs
  split at hs
  · cases hs
  · cases hs
    exact { h with }

theorem queue_step (e : Event) (h : Queue s) (hs : step V decode chats e s = some s') :
    Queue s' := by
  cases e with
  | arrive r => exact queue_arrive h hs
  | resume r => exact queue_resume h hs
  | cancelWait r => exact queue_cancelWait h hs
  | setUp r fault => exact queue_setUp h hs
  | startStream r => exact queue_startStream h hs
  | dropStream r => exact queue_dropStream h hs
  | generate r o => exact queue_generate h hs
  | cancel r fault => exact queue_cancel h hs
  | raise r fault => exact queue_raise h hs
  | conclude r fault => exact queue_conclude h hs
  | runLate => exact queue_runLate h hs

end Gehtp.Analysis.ChatQueue
