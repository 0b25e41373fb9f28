import Mathlib.Logic.Relation
import Mathlib.Logic.Function.Basic
import Mathlib.Data.Int.Notation
import Mathlib.Data.Nat.Notation

/-!
# The thread pool as a machine

`threadpool.c` run by any number of threads: `num_threads` workers in
`worker_thread`, any number of submitters that call `threadpool_submit` again and
again, and one thread that calls `threadpool_destroy`. Every thread is a program
counter; a statement of the source is a step, and the steps interleave freely.

`pool->lock` is a mutex: a thread takes it only when no thread has it. A thread in
`pthread_cond_wait` gives the mutex up and is `asleep`; a signal, a broadcast or a
spurious wake-up makes it `woken`, and a woken thread must take the mutex again
before it goes on, as POSIX has it. `pthread_cond_signal` wakes one thread that is
asleep, whichever, and does nothing when there is none.

The machine keeps four ghosts: the submits that have enqueued (in lock order), the
tasks taken out of the ring, the tasks executed, and the values returned by
`threadpool_submit`. A submit is known by its thread and its number on that thread.

A submitter that touches the mutex after `pthread_mutex_destroy`, or the pool after
`free(pool)`, is `crashed`: what it does next is undefined, and it takes no step
of the machine.
-/

namespace SdeSystems.Pool

open Function Relation

/-- `task_t`: a function and its argument, both pointers. -/
structure Task where
  /-- `func`. -/
  func : ℕ
  /-- `arg`. -/
  arg : ℕ
  deriving DecidableEq

/-- The threads of a pool of `n` workers. -/
inductive Tid (n : ℕ) where
  /-- The thread `pool->threads[i]`. -/
  | worker (i : Fin n)
  /-- A thread that submits. -/
  | submitter (j : ℕ)
  /-- The thread that destroys the pool. -/
  | destroyer
  deriving DecidableEq

/-- Where a worker is in `worker_thread`. -/
inductive WorkerPc where
  /-- At `pthread_mutex_lock`. -/
  | lock
  /-- At the test of the inner `while`. -/
  | test
  /-- In `pthread_cond_wait(&pool->not_empty, &pool->lock)`. -/
  | asleep
  /-- Woken, and about to take the mutex again. -/
  | woken
  /-- At `if (pool->queue_size == 0 && pool->shutdown)`. -/
  | leave
  /-- At the `pthread_mutex_unlock` before `return NULL`. -/
  | unlockExit
  /-- Returned. -/
  | exited
  /-- At `task_t task = pool->queue[pool->queue_head]`. -/
  | fetch
  /-- At the update of `queue_head`. -/
  | advHead (t : Task)
  /-- At `pool->queue_size--`. -/
  | decSize (t : Task)
  /-- At `pthread_cond_signal(&pool->not_full)`. -/
  | signal (t : Task)
  /-- At `pthread_mutex_unlock`. -/
  | unlock (t : Task)
  /-- At `task.func(task.arg)`. -/
  | run (t : Task)
  deriving DecidableEq

/-- Where a submitter is in `threadpool_submit`. -/
inductive SubmitPc where
  /-- Not in a call. -/
  | idle
  /-- At `pthread_mutex_lock`. -/
  | lock (t : Task)
  /-- At the test of the `while`. -/
  | test (t : Task)
  /-- In `pthread_cond_wait(&pool->not_full, &pool->lock)`. -/
  | asleep (t : Task)
  /-- Woken, and about to take the mutex again. -/
  | woken (t : Task)
  /-- At `if (pool->shutdown)`. -/
  | check (t : Task)
  /-- At the `pthread_mutex_unlock` before `return -1`. -/
  | bail
  /-- At `pool->queue[pool->queue_tail].func = func`. -/
  | storeFunc (t : Task)
  /-- At `pool->queue[pool->queue_tail].arg = arg`. -/
  | storeArg (t : Task)
  /-- At the update of `queue_tail`. -/
  | advTail (t : Task)
  /-- At `pool->queue_size++`. -/
  | incSize (t : Task)
  /-- At `pthread_cond_signal(&pool->not_empty)`. -/
  | signal
  /-- At the `pthread_mutex_unlock` before `return 0`. -/
  | unlock
  /-- It has touched a destroyed mutex or a freed pool. -/
  | crashed
  deriving DecidableEq

/-- Where the destroyer is in `threadpool_destroy`. -/
inductive DestroyPc where
  /-- Not called yet. -/
  | idle
  /-- At `pthread_mutex_lock`. -/
  | lock
  /-- At `pool->shutdown = 1`. -/
  | setShutdown
  /-- At `pthread_cond_broadcast(&pool->not_empty)`. -/
  | bcastEmpty
  /-- At `pthread_cond_broadcast(&pool->not_full)`. -/
  | bcastFull
  /-- At `pthread_mutex_unlock`. -/
  | unlock
  /-- At the test of the `for`, with the loop variable. -/
  | join (i : ℕ)
  /-- At `pthread_cond_destroy(&pool->not_full)`. -/
  | condFull
  /-- At `pthread_cond_destroy(&pool->not_empty)`. -/
  | condEmpty
  /-- At `pthread_mutex_destroy(&pool->lock)`. -/
  | mutex
  /-- At `free(pool->threads)`. -/
  | freeThreads
  /-- At `free(pool->queue)`. -/
  | freeQueue
  /-- At `free(pool)`. -/
  | freePool
  /-- Returned. -/
  | returned
  deriving DecidableEq

/-- An accepted submit: whose, which of its calls, and the task. -/
structure Entry where
  /-- The submitter. -/
  who : ℕ
  /-- The number of the call on that submitter. -/
  call : ℕ
  /-- The task enqueued. -/
  task : Task
  deriving DecidableEq

/-- A submit that has returned. -/
structure Ret where
  /-- The submitter. -/
  who : ℕ
  /-- The number of the call. -/
  call : ℕ
  /-- The value returned. -/
  val : ℤ
  deriving DecidableEq

/-- The pool and its threads. -/
structure State (n : ℕ) where
  /-- `pool->queue`. -/
  queue : ℕ → Task
  /-- `pool->queue_size`. -/
  queue_size : ℤ
  /-- `pool->queue_head`. -/
  queue_head : ℕ
  /-- `pool->queue_tail`. -/
  queue_tail : ℕ
  /-- `pool->shutdown`. -/
  shutdown : Bool
  /-- Who has `pool->lock`. -/
  owner : Option (Tid n)
  /-- The workers. -/
  worker : Fin n → WorkerPc
  /-- The submitters. -/
  submitter : ℕ → SubmitPc
  /-- The destroyer. -/
  destroyer : DestroyPc
  /-- How many submits each submitter has begun. -/
  calls : ℕ → ℕ
  /-- The submits that enqueued, in lock order. -/
  accepted : List Entry
  /-- The tasks taken out of the ring. -/
  dequeued : List Task
  /-- The tasks executed. -/
  executed : List Task
  /-- The submits that returned. -/
  returned : List Ret

/-- What `threadpool_create` leaves: an empty ring in an uninitialised array, and the
workers about to start. -/
def init (n : ℕ) (queue : ℕ → Task) : State n where
  queue := queue
  queue_size := 0
  queue_head := 0
  queue_tail := 0
  shutdown := false
  owner := none
  worker := fun _ => .lock
  submitter := fun _ => .idle
  destroyer := .idle
  calls := fun _ => 0
  accepted := []
  dequeued := []
  executed := []
  returned := []

/-- A wake-up of a worker. -/
def WorkerPc.wake : WorkerPc → WorkerPc
  | .asleep => .woken
  | pc => pc

/-- A wake-up of a submitter. -/
def SubmitPc.wake : SubmitPc → SubmitPc
  | .asleep t => .woken t
  | pc => pc

/-- `pthread_cond_signal(&pool->not_empty)`: one worker that is asleep, if there is one. -/
def SignalEmpty {n : ℕ} (w w' : Fin n → WorkerPc) : Prop :=
  (∃ i, w i = .asleep ∧ w' = update w i .woken) ∨ ((∀ i, w i ≠ .asleep) ∧ w' = w)

/-- `pthread_cond_signal(&pool->not_full)`: one submitter that is asleep, if there is one. -/
def SignalFull (u u' : ℕ → SubmitPc) : Prop :=
  (∃ j t, u j = .asleep t ∧ u' = update u j (.woken t)) ∨ ((∀ j t, u j ≠ .asleep t) ∧ u' = u)

/-- `pthread_mutex_destroy` has run. -/
def DestroyPc.mutexGone : DestroyPc → Bool
  | .freeThreads | .freeQueue | .freePool | .returned => true
  | _ => false

/-- The step a submitter takes next is one on the mutex. -/
def SubmitPc.onMutex : SubmitPc → Bool
  | .lock _ | .woken _ | .bail | .unlock => true
  | _ => false

/-- The submitter is in a call that can go on. -/
def SubmitPc.active : SubmitPc → Bool
  | .idle | .asleep _ | .crashed => false
  | _ => true

/-- What a submitter's next step touches is still there. -/
def DestroyPc.usable (d : DestroyPc) (pc : SubmitPc) : Bool :=
  d != .returned && !(pc.onMutex && d.mutexGone)

variable {n : ℕ}

/-- A step of worker `i`. -/
inductive WorkerStep (cap : ℕ) (i : Fin n) : State n → State n → Prop
  /-- The mutex is free and the worker takes it. -/
  | lock {s : State n} (hpc : s.worker i = .lock) (hfree : s.owner = none) :
      WorkerStep cap i s { s with owner := some (.worker i), worker := update s.worker i .test }
  /-- Nothing to do and the pool is alive: wait. -/
  | wait {s : State n} (hpc : s.worker i = .test) (hc : s.queue_size = 0 ∧ s.shutdown = false) :
      WorkerStep cap i s { s with owner := none, worker := update s.worker i .asleep }
  /-- The loop ends. -/
  | ready {s : State n} (hpc : s.worker i = .test) (hc : ¬ (s.queue_size = 0 ∧ s.shutdown = false)) :
      WorkerStep cap i s { s with worker := update s.worker i .leave }
  /-- A spurious wake-up. -/
  | spurious {s : State n} (hpc : s.worker i = .asleep) :
      WorkerStep cap i s { s with worker := update s.worker i .woken }
  /-- A woken worker takes the mutex and tests again. -/
  | relock {s : State n} (hpc : s.worker i = .woken) (hfree : s.owner = none) :
      WorkerStep cap i s { s with owner := some (.worker i), worker := update s.worker i .test }
  /-- Empty and shut down: leave. -/
  | leave {s : State n} (hpc : s.worker i = .leave) (hc : s.queue_size = 0 ∧ s.shutdown = true) :
      WorkerStep cap i s { s with worker := update s.worker i .unlockExit }
  /-- There is a task. -/
  | stay {s : State n} (hpc : s.worker i = .leave) (hc : ¬ (s.queue_size = 0 ∧ s.shutdown = true)) :
      WorkerStep cap i s { s with worker := update s.worker i .fetch }
  /-- Unlock and return. -/
  | exit {s : State n} (hpc : s.worker i = .unlockExit) :
      WorkerStep cap i s { s with owner := none, worker := update s.worker i .exited }
  /-- `task_t task = pool->queue[pool->queue_head]`. -/
  | fetch {s : State n} (hpc : s.worker i = .fetch) :
      WorkerStep cap i s { s with worker := update s.worker i (.advHead (s.queue s.queue_head)) }
  /-- `pool->queue_head = (pool->queue_head + 1) % pool->queue_capacity`. -/
  | advHead {s : State n} {t : Task} (hpc : s.worker i = .advHead t) :
      WorkerStep cap i s { s with queue_head := (s.queue_head + 1) % cap,
                                  worker := update s.worker i (.decSize t) }
  /-- `pool->queue_size--`. -/
  | decSize {s : State n} {t : Task} (hpc : s.worker i = .decSize t) :
      WorkerStep cap i s { s with queue_size := s.queue_size - 1, dequeued := s.dequeued ++ [t],
                                  worker := update s.worker i (.signal t) }
  /-- `pthread_cond_signal(&pool->not_full)`. -/
  | signal {s : State n} {t : Task} {u : ℕ → SubmitPc} (hpc : s.worker i = .signal t)
      (hu : SignalFull s.submitter u) :
      WorkerStep cap i s { s with submitter := u, worker := update s.worker i (.unlock t) }
  /-- `pthread_mutex_unlock`. -/
  | unlock {s : State n} {t : Task} (hpc : s.worker i = .unlock t) :
      WorkerStep cap i s { s with owner := none, worker := update s.worker i (.run t) }
  /-- `task.func(task.arg)` runs and returns. -/
  | run {s : State n} {t : Task} (hpc : s.worker i = .run t) :
      WorkerStep cap i s { s with executed := s.executed ++ [t], worker := update s.worker i .lock }

/-- A step of submitter `j`. -/
inductive SubmitStep (cap : ℕ) (j : ℕ) : State n → State n → Prop
  /-- A call of `threadpool_submit`; none starts after `threadpool_destroy` has begun. -/
  | call {s : State n} (t : Task) (hpc : s.submitter j = .idle) (hd : s.destroyer = .idle) :
      SubmitStep cap j s { s with calls := update s.calls j (s.calls j + 1),
                                  submitter := update s.submitter j (.lock t) }
  /-- The mutex is free and the submitter takes it. -/
  | lock {s : State n} {t : Task} (hpc : s.submitter j = .lock t)
      (hok : s.destroyer.usable (.lock t)) (hfree : s.owner = none) :
      SubmitStep cap j s { s with owner := some (.submitter j),
                                  submitter := update s.submitter j (.test t) }
  /-- The queue is full and the pool alive: wait. -/
  | wait {s : State n} {t : Task} (hpc : s.submitter j = .test t)
      (hok : s.destroyer.usable (.test t)) (hc : s.queue_size = cap ∧ s.shutdown = false) :
      SubmitStep cap j s { s with owner := none, submitter := update s.submitter j (.asleep t) }
  /-- The loop ends. -/
  | ready {s : State n} {t : Task} (hpc : s.submitter j = .test t)
      (hok : s.destroyer.usable (.test t)) (hc : ¬ (s.queue_size = cap ∧ s.shutdown = false)) :
      SubmitStep cap j s { s with submitter := update s.submitter j (.check t) }
  /-- A spurious wake-up. -/
  | spurious {s : State n} {t : Task} (hpc : s.submitter j = .asleep t) :
      SubmitStep cap j s { s with submitter := update s.submitter j (.woken t) }
  /-- A woken submitter takes the mutex and tests again. -/
  | relock {s : State n} {t : Task} (hpc : s.submitter j = .woken t)
      (hok : s.destroyer.usable (.woken t)) (hfree : s.owner = none) :
      SubmitStep cap j s { s with owner := some (.submitter j),
                                  submitter := update s.submitter j (.test t) }
  /-- Shut down: bail out. -/
  | bail {s : State n} {t : Task} (hpc : s.submitter j = .check t)
      (hok : s.destroyer.usable (.check t)) (hc : s.shutdown = true) :
      SubmitStep cap j s { s with submitter := update s.submitter j .bail }
  /-- Not shut down: enqueue. -/
  | accept {s : State n} {t : Task} (hpc : s.submitter j = .check t)
      (hok : s.destroyer.usable (.check t)) (hc : s.shutdown = false) :
      SubmitStep cap j s { s with submitter := update s.submitter j (.storeFunc t) }
  /-- Unlock and return `-1`. -/
  | refuse {s : State n} (hpc : s.submitter j = .bail) (hok : s.destroyer.usable .bail) :
      SubmitStep cap j s { s with owner := none, returned := s.returned ++ [⟨j, s.calls j, -1⟩],
                                  submitter := update s.submitter j .idle }
  /-- `pool->queue[pool->queue_tail].func = func`. -/
  | storeFunc {s : State n} {t : Task} (hpc : s.submitter j = .storeFunc t)
      (hok : s.destroyer.usable (.storeFunc t)) :
      SubmitStep cap j s
        { s with queue := update s.queue s.queue_tail { s.queue s.queue_tail with func := t.func },
                 submitter := update s.submitter j (.storeArg t) }
  /-- `pool->queue[pool->queue_tail].arg = arg`. -/
  | storeArg {s : State n} {t : Task} (hpc : s.submitter j = .storeArg t)
      (hok : s.destroyer.usable (.storeArg t)) :
      SubmitStep cap j s
        { s with queue := update s.queue s.queue_tail { s.queue s.queue_tail with arg := t.arg },
                 submitter := update s.submitter j (.advTail t) }
  /-- `pool->queue_tail = (pool->queue_tail + 1) % pool->queue_capacity`. -/
  | advTail {s : State n} {t : Task} (hpc : s.submitter j = .advTail t)
      (hok : s.destroyer.usable (.advTail t)) :
      SubmitStep cap j s { s with queue_tail := (s.queue_tail + 1) % cap,
                                  submitter := update s.submitter j (.incSize t) }
  /-- `pool->queue_size++`: the submit has enqueued. -/
  | incSize {s : State n} {t : Task} (hpc : s.submitter j = .incSize t)
      (hok : s.destroyer.usable (.incSize t)) :
      SubmitStep cap j s { s with queue_size := s.queue_size + 1,
                                  accepted := s.accepted ++ [⟨j, s.calls j, t⟩],
                                  submitter := update s.submitter j .signal }
  /-- `pthread_cond_signal(&pool->not_empty)`. -/
  | signal {s : State n} {w : Fin n → WorkerPc} (hpc : s.submitter j = .signal)
      (hok : s.destroyer.usable .signal) (hw : SignalEmpty s.worker w) :
      SubmitStep cap j s { s with worker := w, submitter := update s.submitter j .unlock }
  /-- Unlock and return `0`. -/
  | done {s : State n} (hpc : s.submitter j = .unlock) (hok : s.destroyer.usable .unlock) :
      SubmitStep cap j s { s with owner := none, returned := s.returned ++ [⟨j, s.calls j, 0⟩],
                                  submitter := update s.submitter j .idle }
  /-- The mutex is destroyed, or the pool freed, under a submit. -/
  | crash {s : State n} (hpc : (s.submitter j).active) (hbad : ¬ s.destroyer.usable (s.submitter j)) :
      SubmitStep cap j s { s with submitter := update s.submitter j .crashed }

/-- A step of the destroyer. -/
inductive DestroyStep : State n → State n → Prop
  /-- The call of `threadpool_destroy`. -/
  | call {s : State n} (hpc : s.destroyer = .idle) : DestroyStep s { s with destroyer := .lock }
  /-- The mutex is free and the destroyer takes it. -/
  | lock {s : State n} (hpc : s.destroyer = .lock) (hfree : s.owner = none) :
      DestroyStep s { s with owner := some .destroyer, destroyer := .setShutdown }
  /-- `pool->shutdown = 1`. -/
  | setShutdown {s : State n} (hpc : s.destroyer = .setShutdown) :
      DestroyStep s { s with shutdown := true, destroyer := .bcastEmpty }
  /-- `pthread_cond_broadcast(&pool->not_empty)`. -/
  | bcastEmpty {s : State n} (hpc : s.destroyer = .bcastEmpty) :
      DestroyStep s { s with worker := fun i => (s.worker i).wake, destroyer := .bcastFull }
  /-- `pthread_cond_broadcast(&pool->not_full)`. -/
  | bcastFull {s : State n} (hpc : s.destroyer = .bcastFull) :
      DestroyStep s { s with submitter := fun j => (s.submitter j).wake, destroyer := .unlock }
  /-- `pthread_mutex_unlock`. -/
  | unlock {s : State n} (hpc : s.destroyer = .unlock) :
      DestroyStep s { s with owner := none, destroyer := .join 0 }
  /-- `pthread_join(pool->threads[i], NULL)`, which returns once the worker has. -/
  | join {s : State n} {i : ℕ} (hpc : s.destroyer = .join i) (hi : i < n)
      (hw : s.worker ⟨i, hi⟩ = .exited) : DestroyStep s { s with destroyer := .join (i + 1) }
  /-- The loop ends. -/
  | joined {s : State n} {i : ℕ} (hpc : s.destroyer = .join i) (hi : ¬ i < n) :
      DestroyStep s { s with destroyer := .condFull }
  /-- `pthread_cond_destroy(&pool->not_full)`. -/
  | condFull {s : State n} (hpc : s.destroyer = .condFull) :
      DestroyStep s { s with destroyer := .condEmpty }
  /-- `pthread_cond_destroy(&pool->not_empty)`. -/
  | condEmpty {s : State n} (hpc : s.destroyer = .condEmpty) :
      DestroyStep s { s with destroyer := .mutex }
  /-- `pthread_mutex_destroy(&pool->lock)`. -/
  | mutex {s : State n} (hpc : s.destroyer = .mutex) :
      DestroyStep s { s with destroyer := .freeThreads }
  /-- `free(pool->threads)`. -/
  | freeThreads {s : State n} (hpc : s.destroyer = .freeThreads) :
      DestroyStep s { s with destroyer := .freeQueue }
  /-- `free(pool->queue)`. -/
  | freeQueue {s : State n} (hpc : s.destroyer = .freeQueue) :
      DestroyStep s { s with destroyer := .freePool }
  /-- `free(pool)`, and return. -/
  | freePool {s : State n} (hpc : s.destroyer = .freePool) :
      DestroyStep s { s with destroyer := .returned }

/-- **A step of the pool**: one thread acts. -/
inductive Step (cap : ℕ) : State n → State n → Prop
  /-- A worker. -/
  | worker {s s' : State n} (i : Fin n) : WorkerStep cap i s s' → Step cap s s'
  /-- A submitter. -/
  | submitter {s s' : State n} (j : ℕ) : SubmitStep cap j s s' → Step cap s s'
  /-- The destroyer. -/
  | destroyer {s s' : State n} : DestroyStep s s' → Step cap s s'

/-- The states the pool reaches. -/
def Reach (cap : ℕ) (queue : ℕ → Task) (s : State n) : Prop :=
  ReflTransGen (Step cap) (init n queue) s

end SdeSystems.Pool
