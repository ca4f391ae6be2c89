import Mathlib.Data.UInt
import Gehtp.Model.WorkerPool

/-!
# Every job of the pool runs once

In every interleaving of the workers, the submitters and the closing thread, the entries are taken
in the order in which they were accepted, and no job is called twice. When `wpool_close` has
returned, every job that was accepted before it was called was called once and has returned. From
every state there is a run after which `wpool_close` has returned.

The proof follows an entry from the queue to the count: it is in the hands of at most one worker,
and where that worker is says which of its events are in the log.
-/

set_option autoImplicit false

namespace Gehtp.Analysis.WorkerPoolOnce

open Lib Lib.Runs Model.WorkerPool

variable {J : Type}

/-! ### The events of an entry -/

/-- The job in the hands of a worker, with its number. -/
def job : WorkerPc J → Option (ℕ × J)
  | .popped k j | .running k j | .ran k j => some (k, j)
  | _ => none

/-- The calls, the returns and the counts of an entry. -/
structure Events (J : Type) where
  called : List (ℕ × J)
  returned : List (ℕ × J)
  counted : List (ℕ × J)

/-- The entries of a list of events that are about `k`. -/
def about (k : ℕ) (l : List (ℕ × J)) : List (ℕ × J) := l.filter fun e => e.1 = k

/-- What the log has about the entry `k`. -/
def eventsOf (l : Log J) (k : ℕ) : Events J :=
  ⟨about k l.called, about k l.returned, about k l.counted⟩

/-- What the log has about a job in the hands of a worker. -/
def heldEvents : WorkerPc J → Events J
  | .running k j => ⟨[(k, j)], [], []⟩
  | .ran k j => ⟨[(k, j)], [(k, j)], []⟩
  | _ => ⟨[], [], []⟩

/-- What the log has about an entry that no worker has. -/
def settledEvents (k : ℕ) : Option (Option J) → Events J
  | some (some j) => ⟨[(k, j)], [(k, j)], [(k, j)]⟩
  | _ => ⟨[], [], []⟩

theorem about_concat_self (k : ℕ) (j : J) (l : List (ℕ × J)) :
    about k (l ++ [(k, j)]) = about k l ++ [(k, j)] := by
  simp [about]

theorem about_concat_of_ne {k k' : ℕ} (h : k' ≠ k) (j : J) (l : List (ℕ × J)) :
    about k' (l ++ [(k, j)]) = about k' l := by
  simp [about, Ne.symm h]

/-! ### Where the entries are -/

/-- Each entry that was taken is in the hands of one worker, with the events so far, or is settled. -/
structure Tickets (n : ℕ) (workers : ℕ → WorkerPc J) (taken : List (Option J))
    (ev : ℕ → Events J) : Prop where
  held : ∀ w < n, ∀ k j, job (workers w) = some (k, j) →
    taken[k]? = some (some j) ∧ ev k = heldEvents (workers w)
  holder : ∀ w < n, ∀ w' < n, ∀ k j j', job (workers w) = some (k, j) →
    job (workers w') = some (k, j') → w = w'
  settled : ∀ k, (∀ w < n, ∀ j, job (workers w) ≠ some (k, j)) → ev k = settledEvents k taken[k]?

namespace Tickets

variable {n : ℕ} {workers : ℕ → WorkerPc J} {taken : List (Option J)} {ev : ℕ → Events J}

theorem quiet (h : Tickets n workers taken ev) {w : ℕ} {pc : WorkerPc J}
    (hw : job (workers w) = none) (hpc : job pc = none) :
    Tickets n (Function.update workers w pc) taken ev := by
  have hjob : ∀ w', job (Function.update workers w pc w') = job (workers w') := by
    intro w'
    by_cases hw' : w' = w
    · rw [hw', Function.update_self, hw, hpc]
    · rw [Function.update_of_ne hw']
  refine ⟨?_, ?_, ?_⟩
  · intro w' hw' k j hj
    have hne : w' ≠ w := by
      rintro rfl
      rw [hjob, hw] at hj
      cases hj
    rw [Function.update_of_ne hne] at hj ⊢
    exact h.held w' hw' k j hj
  · intro w₁ h₁ w₂ h₂ k j j'
    rw [hjob, hjob]
    exact h.holder w₁ h₁ w₂ h₂ k j j'
  · intro k hk
    apply h.settled k
    intro w' hw' j
    rw [← hjob]
    exact hk w' hw' j

theorem move (h : Tickets n workers taken ev) {w k₀ : ℕ} {pc : WorkerPc J}
    {taken' : List (Option J)} {ev' : ℕ → Events J}
    (hothers : ∀ w' < n, w' ≠ w → ∀ j, job (workers w') ≠ some (k₀, j))
    (hbefore : ∀ k j, job (workers w) = some (k, j) → k = k₀)
    (hafter : ∀ k j, job pc = some (k, j) →
      k = k₀ ∧ taken'[k]? = some (some j) ∧ ev' k = heldEvents pc)
    (hsettled : job pc = none → ev' k₀ = settledEvents k₀ taken'[k₀]?)
    (hw : w < n) (hev : ∀ k ≠ k₀, ev' k = ev k) (htaken : ∀ k ≠ k₀, taken'[k]? = taken[k]?) :
    Tickets n (Function.update workers w pc) taken' ev' := by
  refine ⟨?_, ?_, ?_⟩
  · intro w' hw' k j hj
    by_cases hww : w' = w
    · rw [hww, Function.update_self] at hj ⊢
      exact (hafter k j hj).2
    · rw [Function.update_of_ne hww] at hj ⊢
      have hk : k ≠ k₀ := by
        rintro rfl
        exact hothers w' hw' hww j hj
      rw [htaken k hk, hev k hk]
      exact h.held w' hw' k j hj
  · intro w₁ h₁ w₂ h₂ k j j' hj hj'
    by_cases hw₁ : w₁ = w
    · by_cases hw₂ : w₂ = w
      · rw [hw₁, hw₂]
      · rw [hw₁, Function.update_self] at hj
        rw [Function.update_of_ne hw₂] at hj'
        exact absurd ((hafter k j hj).1 ▸ hj') (hothers w₂ h₂ hw₂ j')
    · rw [Function.update_of_ne hw₁] at hj
      by_cases hw₂ : w₂ = w
      · rw [hw₂, Function.update_self] at hj'
        exact absurd ((hafter k j' hj').1 ▸ hj) (hothers w₁ h₁ hw₁ j)
      · rw [Function.update_of_ne hw₂] at hj'
        exact h.holder w₁ h₁ w₂ h₂ k j j' hj hj'
  · intro k hk
    by_cases hkk : k = k₀
    · subst hkk
      apply hsettled
      cases hpc : job pc with
      | none => rfl
      | some e =>
        obtain ⟨k', j⟩ := e
        have hmine := hk w hw j
        rw [Function.update_self, hpc, (hafter k' j hpc).1] at hmine
        exact absurd rfl hmine
    · rw [hev k hkk, htaken k hkk]
      apply h.settled k
      intro w' hw' j hj
      by_cases hww : w' = w
      · rw [hww] at hj
        exact hkk (hbefore k j hj)
      · have hmine := hk w' hw' j
        rw [Function.update_of_ne hww] at hmine
        exact hmine hj

theorem not_held_of_le (h : Tickets n workers taken ev) {k : ℕ} (hk : taken.length ≤ k) :
    ∀ w < n, ∀ j, job (workers w) ≠ some (k, j) := by
  intro w hw j hj
  have htaken := (h.held w hw k j hj).1
  rw [List.getElem?_eq_none hk] at htaken
  cases htaken

theorem events_cases (h : Tickets n workers taken ev) (k : ℕ) :
    ((ev k).called = [] ∨ ∃ j, (ev k).called = [(k, j)] ∧ taken[k]? = some (some j)) ∧
    ((ev k).counted = [] ∨ ∃ j, (ev k).counted = [(k, j)] ∧ taken[k]? = some (some j)) := by
  by_cases hheld : ∃ w, w < n ∧ ∃ j, job (workers w) = some (k, j)
  · obtain ⟨w, hw, j, hj⟩ := hheld
    obtain ⟨htaken, hev⟩ := h.held w hw k j hj
    rw [hev]
    cases hpc : workers w with
    | popped k' j' => exact ⟨.inl rfl, .inl rfl⟩
    | running k' j' =>
      rw [hpc] at hj
      cases hj
      exact ⟨.inr ⟨j, rfl, htaken⟩, .inl rfl⟩
    | ran k' j' =>
      rw [hpc] at hj
      cases hj
      exact ⟨.inr ⟨j, rfl, htaken⟩, .inl rfl⟩
    | idle => exact ⟨.inl rfl, .inl rfl⟩
    | checking => exact ⟨.inl rfl, .inl rfl⟩
    | exited => exact ⟨.inl rfl, .inl rfl⟩
  · have hev := h.settled k fun w hw j hj => hheld ⟨w, hw, j, hj⟩
    rw [hev]
    cases htaken : taken[k]? with
    | none => exact ⟨.inl rfl, .inl rfl⟩
    | some e =>
      cases e with
      | none => exact ⟨.inl rfl, .inl rfl⟩
      | some j => exact ⟨.inr ⟨j, rfl, rfl⟩, .inr ⟨j, rfl, rfl⟩⟩

end Tickets

/-! ### The jobs in a run -/

/-- The queue holds what was accepted and not taken, and the entries that were taken are where they
should be. -/
structure JobsInv (n : ℕ) (s : Sys J) : Prop where
  wf : s.pool.queue.Wf queueDepth
  queue : s.log.accepted = s.log.taken ++ s.pool.queue.content queueDepth
  tickets : Tickets n s.workers s.log.taken (eventsOf s.log)
  done_eq : s.pool.done = UInt32.ofNat s.log.counted.length

theorem jobsInv_open (n : ℕ) : JobsInv n (wpoolOpen n : Sys J) := by
  refine ⟨⟨?_, rfl, Nat.zero_le _⟩, rfl, ⟨?_, ?_, ?_⟩, rfl⟩
  · show 0 < queueDepth
    decide
  · intro w _ k j hj
    cases hj
  · intro w _ w' _ k j j' hj
    cases hj
  · intro k _
    rfl

section Steps

variable {n : ℕ} {s s' : Sys J}

theorem jobsInv_submit (h : JobsInv n s) (fn : Option J) : JobsInv n (wpoolSubmit fn s) := by
  unfold wpoolSubmit
  split
  · rename_i hroom
    refine ⟨h.wf.push hroom fn, ?_, h.tickets, h.done_eq⟩
    show s.log.accepted ++ [fn] = s.log.taken ++ (s.pool.queue.push queueDepth fn).content queueDepth
    rw [RingBuffer.content_push h.wf hroom, ← List.append_assoc, ← h.queue]
  · exact h

theorem accepted_front (h : JobsInv n s) (hq : 0 < s.pool.queue.count) :
    s.log.accepted = (s.log.taken ++ [s.pool.queue.front]) ++
      (s.pool.queue.pop queueDepth).content queueDepth := by
  rw [h.queue, RingBuffer.content_pop h.wf hq, List.append_assoc]
  rfl

theorem jobsInv_take (h : JobsInv n s) {w : ℕ} (hw : w < n) (hidle : s.workers w = .idle) :
    JobsInv n (s.take w) := by
  have hnone : job (s.workers w) = none := by rw [hidle]; rfl
  unfold Sys.take
  split
  · rename_i hq
    -- the entry that is taken now: no worker has it, and the log has nothing about it
    have hfree := h.tickets.not_held_of_le (Nat.le_refl s.log.taken.length)
    have hnew : (s.log.taken ++ [s.pool.queue.front])[s.log.taken.length]? =
        some s.pool.queue.front := List.getElem?_concat_length
    have hevents : eventsOf s.log s.log.taken.length = ⟨[], [], []⟩ := by
      rw [h.tickets.settled _ hfree, List.getElem?_eq_none (Nat.le_refl _)]
      rfl
    have hold : ∀ k ≠ s.log.taken.length,
        (s.log.taken ++ [s.pool.queue.front])[k]? = s.log.taken[k]? := by
      intro k hk
      by_cases hlt : k < s.log.taken.length
      · exact List.getElem?_append_left hlt
      · have hlong : (s.log.taken ++ [s.pool.queue.front]).length ≤ k := by
          rw [List.length_append, List.length_singleton]
          omega
        rw [List.getElem?_eq_none hlong, List.getElem?_eq_none (by omega)]
    cases hfront : s.pool.queue.front with
    | some j =>
      have hentry := hnew.trans (congrArg some hfront)
      refine ⟨h.wf.pop hq, accepted_front h hq, ?_, h.done_eq⟩
      apply h.tickets.move (fun w' hw' _ => hfree w' hw') ?_ ?_ ?_ hw (fun k _ => rfl) hold
      · intro k j' hj
        rw [hnone] at hj
        cases hj
      · intro k j' hj
        cases hj
        exact ⟨rfl, hentry, hevents⟩
      · intro hj
        cases hj
    | none =>
      have hentry := hnew.trans (congrArg some hfront)
      refine ⟨h.wf.pop hq, accepted_front h hq, ?_, h.done_eq⟩
      apply h.tickets.move (fun w' hw' _ => hfree w' hw') ?_ ?_ ?_ hw (fun k _ => rfl) hold
      · intro k j' hj
        rw [hnone] at hj
        cases hj
      · intro k j' hj
        cases hj
      · intro _
        show eventsOf s.log s.log.taken.length = _
        rw [hevents]
        exact congrArg (settledEvents s.log.taken.length) hentry.symm
  · exact ⟨h.wf, h.queue, h.tickets.quiet hnone rfl, h.done_eq⟩

theorem not_held_by_others (h : JobsInv n s) {w k : ℕ} {j : J} (hw : w < n)
    (hj : job (s.workers w) = some (k, j)) :
    ∀ w' < n, w' ≠ w → ∀ j', job (s.workers w') ≠ some (k, j') := by
  intro w' hw' hne j' hj'
  exact hne (h.tickets.holder w' hw' w hw k j' j hj' hj)

theorem jobsInv_worker (h : JobsInv n s) {w : ℕ} (hw : w < n) (hs : wpoolWorker w s = some s') :
    JobsInv n s' := by
  unfold wpoolWorker at hs
  cases hpc : s.workers w with
  | idle =>
    rw [hpc] at hs
    cases hs
    exact jobsInv_take h hw hpc
  | popped k j =>
    rw [hpc] at hs
    cases hs
    have hjob : job (s.workers w) = some (k, j) := by rw [hpc]; rfl
    obtain ⟨htaken, hev⟩ := h.tickets.held w hw k j hjob
    rw [hpc] at hev
    refine ⟨h.wf, h.queue, ?_, h.done_eq⟩
    apply h.tickets.move (not_held_by_others h hw hjob) ?_ ?_ ?_ hw ?_ fun _ _ => rfl
    · intro k' j' hj'
      rw [hjob] at hj'
      cases hj'
      rfl
    · intro k' j' hj'
      cases hj'
      refine ⟨rfl, htaken, ?_⟩
      have hcalled : about k s.log.called = [] := congrArg Events.called hev
      show Events.mk (about k (s.log.called ++ [(k, j)])) _ _ = _
      rw [about_concat_self, hcalled]
      exact congrArg (fun e : Events J => (⟨[(k, j)], e.returned, e.counted⟩ : Events J)) hev
    · intro hj'
      cases hj'
    · intro k' hk'
      show Events.mk (about k' (s.log.called ++ [(k, j)])) _ _ = _
      rw [about_concat_of_ne hk']
      rfl
  | running k j =>
    rw [hpc] at hs
    cases hs
    have hjob : job (s.workers w) = some (k, j) := by rw [hpc]; rfl
    obtain ⟨htaken, hev⟩ := h.tickets.held w hw k j hjob
    rw [hpc] at hev
    refine ⟨h.wf, h.queue, ?_, h.done_eq⟩
    apply h.tickets.move (not_held_by_others h hw hjob) ?_ ?_ ?_ hw ?_ fun _ _ => rfl
    · intro k' j' hj'
      rw [hjob] at hj'
      cases hj'
      rfl
    · intro k' j' hj'
      cases hj'
      refine ⟨rfl, htaken, ?_⟩
      have hreturned : about k s.log.returned = [] := congrArg Events.returned hev
      show Events.mk _ (about k (s.log.returned ++ [(k, j)])) _ = _
      rw [about_concat_self, hreturned]
      exact congrArg (fun e : Events J => (⟨e.called, [(k, j)], e.counted⟩ : Events J)) hev
    · intro hj'
      cases hj'
    · intro k' hk'
      show Events.mk _ (about k' (s.log.returned ++ [(k, j)])) _ = _
      rw [about_concat_of_ne hk']
      rfl
  | ran k j =>
    rw [hpc] at hs
    cases hs
    have hjob : job (s.workers w) = some (k, j) := by rw [hpc]; rfl
    obtain ⟨htaken, hev⟩ := h.tickets.held w hw k j hjob
    rw [hpc] at hev
    refine ⟨h.wf, h.queue, ?_, ?_⟩
    · apply h.tickets.move (not_held_by_others h hw hjob) ?_ ?_ ?_ hw ?_ fun _ _ => rfl
      · intro k' j' hj'
        rw [hjob] at hj'
        cases hj'
        rfl
      · intro k' j' hj'
        cases hj'
      · intro _
        have hcounted : about k s.log.counted = [] := congrArg Events.counted hev
        show Events.mk _ _ (about k (s.log.counted ++ [(k, j)])) = settledEvents k s.log.taken[k]?
        rw [about_concat_self, hcounted, htaken]
        exact congrArg (fun e : Events J => (⟨e.called, e.returned, [(k, j)]⟩ : Events J)) hev
      · intro k' hk'
        show Events.mk _ _ (about k' (s.log.counted ++ [(k, j)])) = _
        rw [about_concat_of_ne hk']
        rfl
    · show s.pool.done + 1 = UInt32.ofNat (s.log.counted ++ [(k, j)]).length
      rw [List.length_append, List.length_singleton, UInt32.ofNat_add, h.done_eq]
      rfl
  | checking =>
    rw [hpc] at hs
    cases hs
    refine ⟨h.wf, h.queue, h.tickets.quiet (by rw [hpc]; rfl) ?_, h.done_eq⟩
    split <;> rfl
  | exited =>
    rw [hpc] at hs
    cases hs

theorem jobsInv_close (h : JobsInv n s) (hs : wpoolClose s = some s') : JobsInv n s' := by
  unfold wpoolClose at hs
  split at hs
  · cases hs
    exact ⟨h.wf, h.queue, h.tickets, h.done_eq⟩
  · cases hs
    exact ⟨h.wf, h.queue, h.tickets, h.done_eq⟩
  · cases hs
    exact ⟨h.wf, h.queue, h.tickets, h.done_eq⟩
  · split at hs
    · split at hs
      · cases hs
        exact ⟨h.wf, h.queue, h.tickets, h.done_eq⟩
      · cases hs
    · cases hs
      exact ⟨h.wf, h.queue, h.tickets, h.done_eq⟩
  · cases hs

end Steps

/-! ### The closing thread in a run -/

/-- The closing thread has set `stop`. -/
def stopped : CloserPc → Bool
  | .joining _ | .returned => true
  | _ => false

/-- The closing thread has seen the queue empty. -/
def emptySeen : CloserPc → Bool
  | .sawEmpty | .joining _ | .returned => true
  | _ => false

/-- Workers end only after `stop` is set, and `stop` is set only after everything that was accepted
before the call was taken. -/
structure CloseInv (n : ℕ) (s : Sys J) : Prop where
  bound : s.log.beforeClose ≤ s.log.accepted.length
  stop : s.pool.stop ≠ 0 ↔ stopped s.closer = true
  exited : ∀ w < n, s.workers w = .exited → s.pool.stop ≠ 0
  spawned : s.closer ≠ .returned → s.pool.spawned = n
  emptied : emptySeen s.closer = true → s.log.beforeClose ≤ s.log.taken.length
  joined : ∀ i, s.closer = .joining i → i ≤ n ∧ ∀ w < i, s.workers w = .exited
  finished : s.closer = .returned → ∀ w < n, s.workers w = .exited

theorem closeInv_open (n : ℕ) : CloseInv n (wpoolOpen n : Sys J) where
  bound := Nat.zero_le _
  stop := by
    constructor
    · exact fun h => absurd rfl h
    · intro h
      cases h
  exited := by
    intro w _ h
    cases h
  spawned _ := rfl
  emptied := by
    intro h
    cases h
  joined := by
    intro i h
    cases h
  finished := by
    intro h
    cases h

/-- What a worker leaves alone: it moves only itself, it does not move after its end, and it ends
only when `stop` is set. -/
structure WorkerFrame (w : ℕ) (s s' : Sys J) : Prop where
  others : ∀ w' ≠ w, s'.workers w' = s.workers w'
  alive : s.workers w ≠ .exited
  ends : s'.workers w = .exited → s.pool.stop ≠ 0
  closer : s'.closer = s.closer
  stop : s'.pool.stop = s.pool.stop
  spawned : s'.pool.spawned = s.pool.spawned
  beforeClose : s'.log.beforeClose = s.log.beforeClose
  accepted : s'.log.accepted = s.log.accepted
  taken : s.log.taken.length ≤ s'.log.taken.length

section Close

variable {n : ℕ} {s s' : Sys J}

theorem goto_self (s : Sys J) (w : ℕ) (pc : WorkerPc J) : (s.goto w pc).workers w = pc := by
  show Function.update s.workers w pc w = pc
  rw [Function.update_self]

theorem frame_goto {s₁ : Sys J} {w : ℕ} {pc : WorkerPc J} (halive : s.workers w ≠ .exited)
    (hends : pc = .exited → s.pool.stop ≠ 0) (hworkers : s₁.workers = s.workers)
    (hcloser : s₁.closer = s.closer) (hstop : s₁.pool.stop = s.pool.stop)
    (hspawned : s₁.pool.spawned = s.pool.spawned)
    (hbefore : s₁.log.beforeClose = s.log.beforeClose)
    (haccepted : s₁.log.accepted = s.log.accepted)
    (htaken : s.log.taken.length ≤ s₁.log.taken.length) : WorkerFrame w s (s₁.goto w pc) where
  others w' hw' := by
    show Function.update s₁.workers w pc w' = s.workers w'
    rw [Function.update_of_ne hw', hworkers]
  alive := halive
  ends h := hends ((goto_self s₁ w pc).symm.trans h)
  closer := hcloser
  stop := hstop
  spawned := hspawned
  beforeClose := hbefore
  accepted := haccepted
  taken := htaken

theorem wpoolWorker_frame {w : ℕ} (hs : wpoolWorker w s = some s') : WorkerFrame w s s' := by
  have halive : s.workers w ≠ .exited := by
    intro hpc
    unfold wpoolWorker at hs
    rw [hpc] at hs
    cases hs
  unfold wpoolWorker at hs
  cases hpc : s.workers w with
  | idle =>
    rw [hpc] at hs
    cases hs
    have htaken : s.log.taken.length ≤ s.dequeue.log.taken.length := by
      show s.log.taken.length ≤ (s.log.taken ++ [s.pool.queue.front]).length
      rw [List.length_append]
      exact Nat.le_add_right _ _
    unfold Sys.take
    split
    · cases s.pool.queue.front with
      | some j => exact frame_goto halive (fun h => by cases h) rfl rfl rfl rfl rfl rfl htaken
      | none => exact frame_goto halive (fun h => by cases h) rfl rfl rfl rfl rfl rfl htaken
    · exact frame_goto halive (fun h => by cases h) rfl rfl rfl rfl rfl rfl (Nat.le_refl _)
  | popped k j | running k j | ran k j =>
    rw [hpc] at hs
    cases hs
    exact frame_goto halive (fun h => by cases h) rfl rfl rfl rfl rfl rfl (Nat.le_refl _)
  | checking =>
    rw [hpc] at hs
    cases hs
    apply frame_goto halive ?_ rfl rfl rfl rfl rfl rfl (Nat.le_refl _)
    intro hends
    by_contra hstop
    rw [if_neg (not_not_intro hstop)] at hends
    cases hends
  | exited => exact absurd hpc halive

theorem closeInv_submit (h : CloseInv n s) (fn : Option J) : CloseInv n (wpoolSubmit fn s) := by
  unfold wpoolSubmit
  split
  · refine { h with bound := ?_ }
    show s.log.beforeClose ≤ (s.log.accepted ++ [fn]).length
    rw [List.length_append]
    exact Nat.le_add_right_of_le h.bound
  · exact h

theorem WorkerFrame.exited {w w' : ℕ} (hf : WorkerFrame w s s') (h : s.workers w' = .exited) :
    s'.workers w' = .exited := by
  have hne : w' ≠ w := by
    rintro rfl
    exact hf.alive h
  rw [hf.others w' hne, h]

theorem closeInv_worker (h : CloseInv n s) {w : ℕ} (hs : wpoolWorker w s = some s') :
    CloseInv n s' := by
  have hf := wpoolWorker_frame hs
  refine ⟨?_, ?_, ?_, ?_, ?_, ?_, ?_⟩
  · rw [hf.beforeClose, hf.accepted]
    exact h.bound
  · rw [hf.stop, hf.closer]
    exact h.stop
  · intro w' hw' hex
    rw [hf.stop]
    by_cases hne : w' = w
    · exact hf.ends (hne ▸ hex)
    · rw [hf.others w' hne] at hex
      exact h.exited w' hw' hex
  · rw [hf.closer, hf.spawned]
    exact h.spawned
  · intro hseen
    rw [hf.closer] at hseen
    rw [hf.beforeClose]
    exact Nat.le_trans (h.emptied hseen) hf.taken
  · intro i hi
    rw [hf.closer] at hi
    obtain ⟨hle, hall⟩ := h.joined i hi
    exact ⟨hle, fun w' hw' => hf.exited (hall w' hw')⟩
  · intro hret w' hw'
    rw [hf.closer] at hret
    exact hf.exited (h.finished hret w' hw')

theorem closeInv_close (hn : 0 < n) (hj : JobsInv n s) (h : CloseInv n s)
    (hs : wpoolClose s = some s') : CloseInv n s' := by
  unfold wpoolClose at hs
  cases hc : s.closer with
  | notCalled =>
    rw [hc] at hs
    have hspawned := h.spawned (by rw [hc]; intro h; cases h)
    have hstop := h.stop
    rw [hc] at hstop
    rw [if_neg (by omega)] at hs
    cases hs
    exact ⟨Nat.le_refl _, hstop, h.exited, fun _ => hspawned, (fun h => by cases h),
      (fun _ h => by cases h), (fun h => by cases h)⟩
  | polling =>
    rw [hc] at hs
    have hspawned := h.spawned (by rw [hc]; intro h; cases h)
    have hstop := h.stop
    rw [hc] at hstop
    cases hs
    by_cases hq : s.pool.queue.count = 0
    · rw [if_pos hq]
      refine ⟨h.bound, hstop, h.exited, fun _ => hspawned, ?_, (fun _ h => by cases h),
        (fun h => by cases h)⟩
      -- with an empty queue everything that was accepted was taken
      intro _
      have haccepted := hj.queue
      rw [RingBuffer.content_eq_nil hq, List.append_nil] at haccepted
      show s.log.beforeClose ≤ s.log.taken.length
      rw [← haccepted]
      exact h.bound
    · rw [if_neg hq]
      exact ⟨h.bound, hstop, h.exited, fun _ => hspawned, (fun h => by cases h),
        (fun _ h => by cases h), (fun h => by cases h)⟩
  | sawEmpty =>
    rw [hc] at hs
    have hspawned := h.spawned (by rw [hc]; intro h; cases h)
    have hemptied := h.emptied (by rw [hc]; rfl)
    cases hs
    refine ⟨h.bound, ?_, ?_, fun _ => hspawned, fun _ => hemptied, ?_, (fun h => by cases h)⟩
    · exact ⟨fun _ => rfl, fun _ => by show (1 : UInt32) ≠ 0; decide⟩
    · intro w _ _
      show (1 : UInt32) ≠ 0
      decide
    · intro i hi
      cases hi
      exact ⟨Nat.zero_le _, fun w hw => absurd hw (Nat.not_lt_zero w)⟩
  | joining i =>
    rw [hc] at hs
    have hspawned := h.spawned (by rw [hc]; intro h; cases h)
    have hemptied := h.emptied (by rw [hc]; rfl)
    have hstop := h.stop
    rw [hc] at hstop
    obtain ⟨hle, hall⟩ := h.joined i hc
    simp only at hs
    split at hs
    · rename_i hlt
      cases hw : s.workers i with
      | exited =>
        rw [hw] at hs
        cases hs
        refine ⟨h.bound, hstop, h.exited, fun _ => hspawned, fun _ => hemptied, ?_,
          (fun h => by cases h)⟩
        intro i' hi'
        cases hi'
        refine ⟨by omega, ?_⟩
        intro w hwi
        cases Nat.lt_succ_iff_lt_or_eq.mp hwi with
        | inl hlt' => exact hall w hlt'
        | inr he => exact he ▸ hw
      | idle | popped k j | running k j | ran k j | checking =>
        rw [hw] at hs
        cases hs
    · rename_i hge
      cases hs
      refine ⟨h.bound, hstop, h.exited, fun hne => absurd rfl hne, fun _ => hemptied,
        (fun _ h => by cases h), ?_⟩
      intro _ w hwn
      exact hall w (by omega)
  | returned =>
    rw [hc] at hs
    cases hs

end Close

/-- Both invariants. -/
structure Inv (n : ℕ) (s : Sys J) : Prop where
  jobs : JobsInv n s
  close : CloseInv n s

theorem step_inv {n : ℕ} (hn : 0 < n) (a : Action J) (s s' : Sys J) (h : Inv n s)
    (hs : step n a s = some s') : Inv n s' := by
  cases a with
  | submit fn =>
    cases hs
    exact ⟨jobsInv_submit h.jobs fn, closeInv_submit h.close fn⟩
  | worker w =>
    unfold step at hs
    simp only at hs
    split at hs
    · rename_i hw
      exact ⟨jobsInv_worker h.jobs hw hs, closeInv_worker h.close hs⟩
    · cases hs
  | close => exact ⟨jobsInv_close h.jobs hs, closeInv_close hn h.jobs h.close hs⟩

theorem run_inv {n : ℕ} (hn : 0 < n) {acts : List (Action J)} {s : Sys J}
    (h : run (step n) acts (wpoolOpen n) = some s) : Inv n s :=
  run_invariant (step_inv hn) ⟨jobsInv_open n, closeInv_open n⟩ h

/-! ### The pool can always be closed -/

/-- Steps of worker `w` lead from `s` to `s'`. -/
structure Drives (n w : ℕ) (s s' : Sys J) : Prop where
  reaches : Reaches (step n) s s'
  others : ∀ w' ≠ w, s'.workers w' = s.workers w'
  closer : s'.closer = s.closer
  stop : s'.pool.stop = s.pool.stop
  spawned : s'.pool.spawned = s.pool.spawned

section Progress

variable {n w : ℕ} {s s' s'' : Sys J}

theorem Drives.refl (s : Sys J) : Drives n w s s := ⟨.refl s, fun _ _ => rfl, rfl, rfl, rfl⟩

theorem Drives.head (hw : w < n) (hs : wpoolWorker w s = some s') (h : Drives n w s' s'') :
    Drives n w s s'' := by
  have hf := wpoolWorker_frame hs
  have hstep : step n (.worker w) s = some s' := (if_pos hw).trans hs
  exact ⟨.head hstep h.reaches, fun w' hw' => (h.others w' hw').trans (hf.others w' hw'),
    h.closer.trans hf.closer, h.stop.trans hf.stop, h.spawned.trans hf.spawned⟩

theorem drives_idle (hw : w < n) (s : Sys J) :
    ∃ s', Drives n w s s' ∧ s'.pool.queue = s.pool.queue ∧
      (s'.workers w = .idle ∨ s'.workers w = .exited) := by
  have hran : ∀ (s : Sys J) k j, s.workers w = .ran k j →
      ∃ s', Drives n w s s' ∧ s'.pool.queue = s.pool.queue ∧
        (s'.workers w = .idle ∨ s'.workers w = .exited) := by
    intro s k j hpc
    have hs : wpoolWorker w s = some ({ s with
        pool := { s.pool with done := s.pool.done + 1 }
        log := { s.log with counted := s.log.counted ++ [(k, j)] } }.goto w .idle) := by
      unfold wpoolWorker
      rw [hpc]
    exact ⟨_, .head hw hs (.refl _), rfl, .inl (goto_self _ w _)⟩
  have hrunning : ∀ (s : Sys J) k j, s.workers w = .running k j →
      ∃ s', Drives n w s s' ∧ s'.pool.queue = s.pool.queue ∧
        (s'.workers w = .idle ∨ s'.workers w = .exited) := by
    intro s k j hpc
    have hs : wpoolWorker w s = some ({ s with
        log := { s.log with returned := s.log.returned ++ [(k, j)] } }.goto w (.ran k j)) := by
      unfold wpoolWorker
      rw [hpc]
    obtain ⟨s', hd, hq, hend⟩ := hran _ k j (goto_self _ w _)
    exact ⟨s', .head hw hs hd, hq, hend⟩
  cases hpc : s.workers w with
  | idle => exact ⟨s, .refl s, rfl, .inl hpc⟩
  | popped k j =>
    have hs : wpoolWorker w s = some ({ s with
        log := { s.log with called := s.log.called ++ [(k, j)] } }.goto w (.running k j)) := by
      unfold wpoolWorker
      rw [hpc]
    obtain ⟨s', hd, hq, hend⟩ := hrunning _ k j (goto_self _ w _)
    exact ⟨s', .head hw hs hd, hq, hend⟩
  | running k j => exact hrunning s k j hpc
  | ran k j => exact hran s k j hpc
  | checking =>
    have hs : wpoolWorker w s =
        some (s.goto w (if s.pool.stop ≠ 0 then .exited else .idle)) := by
      unfold wpoolWorker
      rw [hpc]
    refine ⟨_, .head hw hs (.refl _), rfl, ?_⟩
    rw [goto_self]
    split
    · exact .inr rfl
    · exact .inl rfl
  | exited => exact ⟨s, .refl s, rfl, .inr hpc⟩

theorem Drives.trans (h : Drives n w s s') (h' : Drives n w s' s'') : Drives n w s s'' :=
  ⟨h.reaches.trans h'.reaches, fun w' hw' => (h'.others w' hw').trans (h.others w' hw'),
    h'.closer.trans h.closer, h'.stop.trans h.stop, h'.spawned.trans h.spawned⟩

theorem wpoolWorker_take (hpc : s.workers w = .idle) : wpoolWorker w s = some (s.take w) := by
  unfold wpoolWorker
  rw [hpc]

theorem drives_drain (hw : w < n) (c : ℕ) (s : Sys J) (hc : s.pool.queue.count = c) :
    ∃ s', Drives n w s s' ∧ ((s'.pool.queue.count = 0 ∧ s'.workers w = .idle) ∨
      s'.workers w = .exited) := by
  induction c generalizing s with
  | zero =>
    obtain ⟨s', hd, hq, hend⟩ := drives_idle hw s
    refine ⟨s', hd, ?_⟩
    cases hend with
    | inl hidle => exact .inl ⟨hq ▸ hc, hidle⟩
    | inr hex => exact .inr hex
  | succ c ih =>
    obtain ⟨s₁, hd₁, hq₁, hend₁⟩ := drives_idle hw s
    cases hend₁ with
    | inr hex => exact ⟨s₁, hd₁, .inr hex⟩
    | inl hidle =>
      have hpos : 0 < s₁.pool.queue.count := by
        rw [hq₁]
        omega
      have hcount : (s₁.take w).pool.queue.count = c := by
        unfold Sys.take
        rw [if_pos hpos]
        cases s₁.pool.queue.front with
        | some j =>
          show s₁.pool.queue.count - 1 = c
          rw [hq₁]
          omega
        | none =>
          show s₁.pool.queue.count - 1 = c
          rw [hq₁]
          omega
      obtain ⟨s₂, hd₂, hend₂⟩ := ih (s₁.take w) hcount
      exact ⟨s₂, hd₁.trans (.head hw (wpoolWorker_take hidle) hd₂), hend₂⟩

theorem drives_exit (hw : w < n) (hstop : s.pool.stop ≠ 0) :
    ∃ s', Drives n w s s' ∧ s'.workers w = .exited := by
  obtain ⟨s₁, hd₁, hend₁⟩ := drives_drain hw _ s rfl
  cases hend₁ with
  | inr hex => exact ⟨s₁, hd₁, hex⟩
  | inl hdrained =>
    obtain ⟨hempty, hidle⟩ := hdrained
    have htake : s₁.take w = s₁.goto w .checking := by
      unfold Sys.take
      rw [if_neg (by omega)]
    have hchecking : (s₁.goto w .checking).workers w = .checking := goto_self _ w _
    have hexit : wpoolWorker w (s₁.goto w .checking) =
        some ((s₁.goto w .checking).goto w .exited) := by
      have hstop₁ : (s₁.goto w .checking).pool.stop ≠ 0 := by
        show s₁.pool.stop ≠ 0
        rw [hd₁.stop]
        exact hstop
      unfold wpoolWorker
      rw [hchecking]
      simp only
      rw [if_pos hstop₁]
    refine ⟨(s₁.goto w .checking).goto w .exited,
      hd₁.trans (.head hw (wpoolWorker_take hidle) ?_), goto_self _ w _⟩
    rw [htake]
    exact .head hw hexit (.refl _)

theorem reaches_all_exited (hstop : s.pool.stop ≠ 0) (m : ℕ) (hm : m ≤ n) :
    ∃ s', Reaches (step n) s s' ∧ (∀ w < m, s'.workers w = .exited) ∧ s'.closer = s.closer ∧
      s'.pool.stop = s.pool.stop ∧ s'.pool.spawned = s.pool.spawned := by
  induction m with
  | zero => exact ⟨s, .refl s, fun w hw => absurd hw (Nat.not_lt_zero w), rfl, rfl, rfl⟩
  | succ m ih =>
    obtain ⟨s₁, hr₁, hall₁, hc₁, hst₁, hsp₁⟩ := ih (by omega)
    obtain ⟨s₂, hd₂, hex₂⟩ := @drives_exit J n m s₁ hm (hst₁ ▸ hstop)
    refine ⟨s₂, hr₁.trans hd₂.reaches, ?_, hd₂.closer.trans hc₁, hd₂.stop.trans hst₁,
      hd₂.spawned.trans hsp₁⟩
    intro w hw
    by_cases hwm : w = m
    · rw [hwm]
      exact hex₂
    · rw [hd₂.others w hwm]
      exact hall₁ w (by omega)

theorem reaches_returned_of_exited (hex : ∀ w < n, s.workers w = .exited)
    (hspawned : s.pool.spawned = n) (d i : ℕ) (hi : i + d = n) (hc : s.closer = .joining i) :
    ∃ s', Reaches (step n) s s' ∧ s'.closer = .returned := by
  induction d generalizing s i with
  | zero =>
    have hs : step n .close s =
        some { s with pool := { s.pool with spawned := 0 }, closer := .returned } := by
      unfold step wpoolClose
      simp only [hc]
      rw [if_neg (by omega)]
    exact ⟨_, .single hs, rfl⟩
  | succ d ih =>
    have hs : step n .close s = some { s with closer := .joining (i + 1) } := by
      unfold step wpoolClose
      simp only [hc]
      rw [if_pos (by omega), hex i (by omega)]
    obtain ⟨s', hr, hret⟩ := @ih { s with closer := .joining (i + 1) } hex hspawned (i + 1)
      (by omega) rfl
    exact ⟨s', .head hs hr, hret⟩

theorem reaches_returned (hn : 0 < n) (h : Inv n s) :
    ∃ s', Reaches (step n) s s' ∧ s'.closer = .returned := by
  have hjoining : ∀ s : Sys J, Inv n s → ∀ i, s.closer = .joining i →
      ∃ s', Reaches (step n) s s' ∧ s'.closer = .returned := by
    intro s h i hc
    have hstop : s.pool.stop ≠ 0 := h.close.stop.mpr (by rw [hc]; rfl)
    have hspawned := h.close.spawned (by rw [hc]; intro h; cases h)
    obtain ⟨s₁, hr₁, hall₁, hc₁, -, hsp₁⟩ := reaches_all_exited hstop n (Nat.le_refl n)
    have hi := (h.close.joined i hc).1
    obtain ⟨s₂, hr₂, hret⟩ := reaches_returned_of_exited hall₁ (hsp₁.trans hspawned) (n - i) i
      (by omega) (hc₁.trans hc)
    exact ⟨s₂, hr₁.trans hr₂, hret⟩
  have hsawEmpty : ∀ s : Sys J, Inv n s → s.closer = .sawEmpty →
      ∃ s', Reaches (step n) s s' ∧ s'.closer = .returned := by
    intro s h hc
    have hs : step n .close s =
        some { s with pool := { s.pool with stop := 1 }, closer := .joining 0 } := by
      unfold step wpoolClose
      simp only [hc]
    obtain ⟨s', hr, hret⟩ := hjoining _ (step_inv hn _ _ _ h hs) 0 rfl
    exact ⟨s', .head hs hr, hret⟩
  have hpolling : ∀ s : Sys J, Inv n s → s.closer = .polling →
      ∃ s', Reaches (step n) s s' ∧ s'.closer = .returned := by
    intro s h hc
    obtain ⟨s₁, hd₁, hend₁⟩ := drives_drain hn _ s rfl
    have h₁ := hd₁.reaches.invariant (step_inv hn) h
    have hc₁ : s₁.closer = .polling := hd₁.closer.trans hc
    cases hend₁ with
    | inr hex =>
      -- no worker ends before `stop` is set
      have hstopped := h₁.close.stop.mp (h₁.close.exited 0 hn hex)
      rw [hc₁] at hstopped
      cases hstopped
    | inl hdrained =>
      have hs : step n .close s₁ = some { s₁ with closer := .sawEmpty } := by
        unfold step wpoolClose
        simp only [hc₁]
        rw [if_pos hdrained.1]
      obtain ⟨s₂, hr₂, hret⟩ := hsawEmpty _ (step_inv hn _ _ _ h₁ hs) rfl
      exact ⟨s₂, hd₁.reaches.trans (.head hs hr₂), hret⟩
  cases hc : s.closer with
  | notCalled =>
    have hspawned := h.close.spawned (by rw [hc]; intro h; cases h)
    have hs : step n .close s = some { s with
        closer := .polling
        log := { s.log with beforeClose := s.log.accepted.length } } := by
      unfold step wpoolClose
      simp only [hc]
      rw [if_neg (by omega)]
    obtain ⟨s', hr, hret⟩ := hpolling _ (step_inv hn _ _ _ h hs) rfl
    exact ⟨s', .head hs hr, hret⟩
  | polling => exact hpolling s h hc
  | sawEmpty => exact hsawEmpty s h hc
  | joining i => exact hjoining s h i hc
  | returned => exact ⟨s, .refl s, hc⟩

end Progress

/-! ### The claim about runs -/

theorem length_counted_le {n : ℕ} {s : Sys J} (h : JobsInv n s) :
    s.log.counted.length ≤ s.log.taken.length := by
  have hcount : ∀ k, (s.log.counted.map Prod.fst).count k = (about k s.log.counted).length := by
    intro k
    rw [List.count_eq_countP, List.countP_map, List.countP_eq_length_filter]
    rfl
  have hnodup : (s.log.counted.map Prod.fst).Nodup := by
    rw [List.nodup_iff_count_le_one]
    intro k
    rw [hcount]
    cases (h.tickets.events_cases k).2 with
    | inl hnil =>
      have : about k s.log.counted = [] := hnil
      rw [this]
      exact Nat.zero_le _
    | inr hone =>
      obtain ⟨j, hone, -⟩ := hone
      have : about k s.log.counted = [(k, j)] := hone
      rw [this]
      exact Nat.le_refl _
  have hsub : s.log.counted.map Prod.fst ⊆ List.range s.log.taken.length := by
    intro k hk
    rw [List.mem_range]
    cases (h.tickets.events_cases k).2 with
    | inl hnil =>
      have hempty : about k s.log.counted = [] := hnil
      have hpos := List.count_pos_iff.mpr hk
      rw [hcount, hempty] at hpos
      cases hpos
    | inr hone =>
      obtain ⟨j, -, htaken⟩ := hone
      exact (List.getElem?_eq_some_iff.mp htaken).1
  have hle := (hnodup.subperm hsub).length_le
  rw [List.length_map, List.length_range] at hle
  exact hle

/-- In every state of every run of a pool with workers: the entries are taken in the order in which
they were accepted; a job is called at most once, and only a job that was accepted; `done` is not
more than the number of accepted jobs; if `wpool_close` has returned, then every job that was
accepted before it was called was called exactly once and has returned; and there is a
continuation after which it has returned. -/
theorem pool_runs_jobs_once {n : ℕ} (hn : 0 < n) (acts : List (Action J)) (s : Sys J)
    (h : run (step n) acts (wpoolOpen n) = some s) :
    s.log.taken <+: s.log.accepted ∧
    (∀ k, about k s.log.called = [] ∨
      ∃ j, about k s.log.called = [(k, j)] ∧ s.log.accepted[k]? = some (some j)) ∧
    s.pool.done.toNat ≤ s.log.accepted.length ∧
    (s.closer = .returned → ∀ k j, k < s.log.beforeClose → s.log.accepted[k]? = some (some j) →
      about k s.log.called = [(k, j)] ∧ about k s.log.returned = [(k, j)]) ∧
    ∃ s', Reaches (step n) s s' ∧ s'.closer = .returned := by
  have hinv := run_inv hn h
  have hfifo : s.log.taken <+: s.log.accepted := ⟨_, hinv.jobs.queue.symm⟩
  refine ⟨hfifo, ?_, ?_, ?_, reaches_returned hn hinv⟩
  · intro k
    cases (hinv.jobs.tickets.events_cases k).1 with
    | inl hnil => exact .inl hnil
    | inr hone =>
      obtain ⟨j, hone, htaken⟩ := hone
      refine .inr ⟨j, hone, ?_⟩
      rw [hinv.jobs.queue, List.getElem?_append_left (List.getElem?_eq_some_iff.mp htaken).1]
      exact htaken
  · rw [hinv.jobs.done_eq]
    calc (UInt32.ofNat s.log.counted.length).toNat ≤ s.log.counted.length := Nat.mod_le _ _
      _ ≤ s.log.taken.length := length_counted_le hinv.jobs
      _ ≤ s.log.accepted.length := hfifo.length_le
  · intro hret k j hk hj
    -- everything accepted before the call was taken, and no worker has a job any more
    have hlt : k < s.log.taken.length :=
      Nat.lt_of_lt_of_le hk (hinv.close.emptied (by rw [hret]; rfl))
    have htaken : s.log.taken[k]? = some (some j) := by
      rw [hinv.jobs.queue, List.getElem?_append_left hlt] at hj
      exact hj
    have hev := hinv.jobs.tickets.settled k fun w hw j' hj' => by
      rw [hinv.close.finished hret w hw] at hj'
      cases hj'
    rw [htaken] at hev
    exact ⟨congrArg Events.called hev, congrArg Events.returned hev⟩

/-- Two jobs are submitted to a pool of one worker, and the pool is closed. -/
def twoJobs : List (Action ℕ) :=
  [.submit (some 7), .submit (some 8), .worker 0, .close, .worker 0, .worker 0, .worker 0,
    .worker 0, .close, .close, .worker 0, .worker 0, .worker 0, .worker 0, .worker 0, .close,
    .close]

theorem twoJobs_run :
    ∃ s, run (step 1) twoJobs (wpoolOpen 1) = some s ∧ s.closer = .returned ∧
      s.log.accepted = [some 7, some 8] ∧ s.log.beforeClose = 2 :=
  ⟨_, rfl, rfl, rfl, rfl⟩

/-- The second job was called once and has returned when the pool is closed. -/
theorem twoJobs_once :
    ∃ s, run (step 1) twoJobs (wpoolOpen 1) = some s ∧ s.closer = .returned ∧
      about 1 s.log.called = [(1, 8)] ∧ about 1 s.log.returned = [(1, 8)] := by
  obtain ⟨s, hrun, hret, haccepted, hbefore⟩ := twoJobs_run
  obtain ⟨-, -, -, honce, -⟩ := pool_runs_jobs_once Nat.one_pos twoJobs s hrun
  have hjob : s.log.accepted[1]? = some (some 8) := by
    rw [haccepted]
    rfl
  exact ⟨s, hrun, hret, honce hret 1 8 (by omega) hjob⟩

end Gehtp.Analysis.WorkerPoolOnce
