import Gehtp.Lib.RingBuffer
import Gehtp.Lib.Runs

/-!
# The worker pool

`kernels/src/runtime/wpool.c`: a queue of 64 jobs under a mutex, workers that take jobs from it,
any number of submitters, and one thread that closes the pool. There is no condition variable:
workers and the closing thread poll. A part of the code that holds the mutex is one step here, and
the calls of a job have a step for the call and one for the return.

An entry of the queue is the function with its argument, or `none` for a null function, which a
worker takes for an empty queue. Beside the pool a log says what happened: the entries in the order
in which they were accepted and taken, and the calls, the returns and the counted jobs, each with
the number of its entry.
-/

set_option autoImplicit false

namespace Gehtp.Model.WorkerPool

open Lib

/-- SOURCE: wpool.h, WPOOL_QUEUE_DEPTH -/
def queueDepth : ℕ := 64

/-- SOURCE: wpool.h, struct wpool -/
structure Wpool (J : Type) where
  spawned : ℕ
  queue : RingBuffer (Option J)
  done : UInt32
  executed : UInt32
  stop : UInt32

/-- Where a worker is: before it takes the lock, with a job that it has not called, in the job,
after it, before it looks at `stop`, and at its end. A job has its number with it. -/
inductive WorkerPc (J : Type) where
  | idle
  | popped (k : ℕ) (j : J)
  | running (k : ℕ) (j : J)
  | ran (k : ℕ) (j : J)
  | checking
  | exited

/-- Where the closing thread is. -/
inductive CloserPc where
  | notCalled
  | polling
  | sawEmpty
  | joining (i : ℕ)
  | returned
  deriving DecidableEq

/-- What happened. `beforeClose` is the number of entries that were accepted before `wpool_close`
was called. -/
structure Log (J : Type) where
  accepted : List (Option J)
  beforeClose : ℕ
  taken : List (Option J)
  called : List (ℕ × J)
  returned : List (ℕ × J)
  counted : List (ℕ × J)

/-- The pool with its threads. -/
structure Sys (J : Type) where
  pool : Wpool J
  workers : ℕ → WorkerPc J
  closer : CloserPc
  log : Log J

variable {J : Type}

/-- After `wpool_open` with `n` workers. SOURCE: wpool.c:33-44 -/
def wpoolOpen (n : ℕ) : Sys J where
  pool := ⟨n, ⟨fun _ => none, 0, 0, 0⟩, 0, 0, 0⟩
  workers _ := .idle
  closer := .notCalled
  log := ⟨[], 0, [], [], [], []⟩

/-- SOURCE: wpool.c:46-58 -/
def wpoolSubmit (fn : Option J) (s : Sys J) : Sys J :=
  if s.pool.queue.count < queueDepth then
    { s with
      pool := { s.pool with queue := s.pool.queue.push queueDepth fn }
      log := { s.log with accepted := s.log.accepted ++ [fn] } }
  else s

namespace Sys

/-- Worker `w` goes on at `pc`. -/
def goto (s : Sys J) (w : ℕ) (pc : WorkerPc J) : Sys J :=
  { s with workers := Function.update s.workers w pc }

/-- The first entry is taken from the queue. SOURCE: wpool.c:12-16 -/
def dequeue (s : Sys J) : Sys J :=
  { s with
    pool := { s.pool with
      queue := s.pool.queue.pop queueDepth
      executed := s.pool.executed + 1 }
    log := { s.log with taken := s.log.taken ++ [s.pool.queue.front] } }

/-- A worker looks at the queue. SOURCE: wpool.c:10-18 -/
def take (s : Sys J) (w : ℕ) : Sys J :=
  if 0 < s.pool.queue.count then
    match s.pool.queue.front with
    | some j => s.dequeue.goto w (.popped s.log.taken.length j)
    | none => s.dequeue.goto w .checking
  else s.goto w .checking

end Sys

/-- One step of worker `w`. SOURCE: wpool.c:5-31 -/
def wpoolWorker (w : ℕ) (s : Sys J) : Option (Sys J) :=
  match s.workers w with
  | .idle => some (s.take w)
  | .popped k j =>
    some ({ s with log := { s.log with called := s.log.called ++ [(k, j)] } }.goto w (.running k j))
  | .running k j =>
    some ({ s with log := { s.log with returned := s.log.returned ++ [(k, j)] } }.goto w (.ran k j))
  | .ran k j =>
    some ({ s with
      pool := { s.pool with done := s.pool.done + 1 }
      log := { s.log with counted := s.log.counted ++ [(k, j)] } }.goto w .idle)
  | .checking => some (s.goto w (if s.pool.stop ≠ 0 then .exited else .idle))
  | .exited => none

/-- One step of `wpool_close`; a join waits for its worker. SOURCE: wpool.c:69-82 -/
def wpoolClose (s : Sys J) : Option (Sys J) :=
  match s.closer with
  | .notCalled =>
    some { s with
      closer := if s.pool.spawned = 0 then .returned else .polling
      log := { s.log with beforeClose := s.log.accepted.length } }
  | .polling => some { s with closer := if s.pool.queue.count = 0 then .sawEmpty else .polling }
  | .sawEmpty => some { s with pool := { s.pool with stop := 1 }, closer := .joining 0 }
  | .joining i =>
    if i < s.pool.spawned then
      match s.workers i with
      | .exited => some { s with closer := .joining (i + 1) }
      | _ => none
    else some { s with pool := { s.pool with spawned := 0 }, closer := .returned }
  | .returned => none

/-- A step of one of the threads. -/
inductive Action (J : Type) where
  | submit (fn : Option J)
  | worker (w : ℕ)
  | close

/-- One step of a pool with `n` workers. -/
def step (n : ℕ) : Action J → Sys J → Option (Sys J)
  | .submit fn, s => some (wpoolSubmit fn s)
  | .worker w, s => if w < n then wpoolWorker w s else none
  | .close, s => wpoolClose s

end Gehtp.Model.WorkerPool
