import SdeSystems.Lib.Count
import SdeSystems.Lib.Run
import SdeSystems.Pool.Invariant

/-!
# No wake-up is lost

A signal wakes one thread, and a thread that was not asleep may take the task, or the cell,
before the woken one gets the mutex; then the woken thread goes back to sleep. So the count of
woken threads alone is no invariant. What is one: while a worker is asleep, there are at least
as many threads on their way to a task as there are tasks. A thread is on its way from when it
is woken, or takes the mutex, until it has taken a task or found none; and a submitter that has
added a task is, until it has signalled. The same for the submitters and the free cells.

With the mutex free only woken threads are on their way.
-/

namespace SdeSystems.Pool

open Function Relation Lib

variable {n : ℕ} {cap : ℕ}

/-! ### On the way -/

/-- The worker will take a task, or find that there is none. -/
def WorkerPc.looking : WorkerPc → Bool
  | .woken | .test | .leave | .fetch | .advHead _ | .decSize _ => true
  | _ => false

/-- The worker will signal `not_full`. -/
def WorkerPc.signals : WorkerPc → Bool
  | .signal _ => true
  | _ => false

/-- The submitter will use a cell, or find that there is none. -/
def SubmitPc.looking : SubmitPc → Bool
  | .woken _ | .test _ | .check _ | .storeFunc _ | .storeArg _ | .advTail _ | .incSize _ => true
  | _ => false

/-- The submitter will signal `not_empty`. -/
def SubmitPc.signals : SubmitPc → Bool
  | .signal => true
  | _ => false

/-- The threads whose program counter has a mark. -/
def State.marks (f : WorkerPc → Bool) (g : SubmitPc → Bool) (s : State n) : Tid n → Prop
  | .worker i => f (s.worker i)
  | .submitter j => g (s.submitter j)
  | .destroyer => False

/-- A thread on its way to a task. -/
abbrev State.toTask (s : State n) : Tid n → Prop := s.marks WorkerPc.looking SubmitPc.signals

/-- A thread on its way to a free cell. -/
abbrev State.toCell (s : State n) : Tid n → Prop := s.marks WorkerPc.signals SubmitPc.looking

/-- **The invariant.** -/
structure WakeInv (cap : ℕ) (s : State n) : Prop where
  /-- `shutdown` is the destroyer's. -/
  past : s.shutdown = s.destroyer.past
  /-- While a worker is asleep, there is a thread on its way for every task. -/
  tasks : s.shutdown = false → (∃ i, s.worker i = .asleep) → AtLeast s.queue_size s.toTask
  /-- While a submitter is asleep, there is a thread on its way for every free cell. -/
  cells : s.shutdown = false → (∃ j t, s.submitter j = .asleep t) → AtLeast (cap - s.queue_size) s.toCell
  /-- After the first broadcast no worker is asleep. -/
  workers : s.shutdown = true → s.destroyer ≠ .bcastEmpty → ∀ i, s.worker i ≠ .asleep
  /-- After the second broadcast no submitter is asleep. -/
  submitters : s.shutdown = true → s.destroyer ≠ .bcastEmpty → s.destroyer ≠ .bcastFull →
    ∀ j t, s.submitter j ≠ .asleep t

theorem wakeInv_init (q : ℕ → Task) : WakeInv cap (init n q) := by
  constructor <;> simp [init, DestroyPc.past]

section

variable {s s' : State n} {f : WorkerPc → Bool} {g : SubmitPc → Bool}

/-- A worker moves on and keeps its mark. -/
theorem marks_of_worker {i : Fin n} {pc : WorkerPc} {t : Tid n} (h : s.marks f g t)
    (hw : s'.worker = update s.worker i pc) (hs : ∀ j, g (s.submitter j) → g (s'.submitter j))
    (ht : t ≠ .worker i ∨ (f (s.worker i) → f pc)) : s'.marks f g t := by
  cases t with
  | worker k =>
    by_cases hk : k = i
    · subst hk
      have hpc := ht.resolve_left (by simp) h
      simpa [State.marks, hw] using hpc
    · simpa [State.marks, hw, hk] using h
  | submitter j => exact hs j h
  | destroyer => exact h

/-- A submitter moves on and keeps its mark. -/
theorem marks_of_submitter {j : ℕ} {pc : SubmitPc} {t : Tid n} (h : s.marks f g t)
    (hs : s'.submitter = update s.submitter j pc) (hw : ∀ i, f (s.worker i) → f (s'.worker i))
    (ht : t ≠ .submitter j ∨ (g (s.submitter j) → g pc)) : s'.marks f g t := by
  cases t with
  | worker i => exact hw i h
  | submitter k =>
    by_cases hk : k = j
    · subst hk
      have hpc := ht.resolve_left (by simp) h
      simpa [State.marks, hs] using hpc
    · simpa [State.marks, hs, hk] using h
  | destroyer => exact h

/-- Only a wait puts a worker to sleep. -/
theorem asleep_of_update {w : Fin n → WorkerPc} {i : Fin n} {pc : WorkerPc} (hpc : pc ≠ .asleep)
    (h : ∃ k, update w i pc k = .asleep) : ∃ k, w k = .asleep := by
  obtain ⟨k, hk⟩ := h
  by_cases hki : k = i
  · subst hki
    exact absurd (by simpa using hk) hpc
  · exact ⟨k, by simpa [hki] using hk⟩

theorem submit_asleep_of_update {u : ℕ → SubmitPc} {j : ℕ} {pc : SubmitPc} (hpc : ∀ t, pc ≠ .asleep t)
    (h : ∃ k t, update u j pc k = .asleep t) : ∃ k t, u k = .asleep t := by
  obtain ⟨k, t, hk⟩ := h
  by_cases hkj : k = j
  · subst hkj
    exact absurd (by simpa using hk) (hpc t)
  · exact ⟨k, t, by simpa [hkj] using hk⟩

/-- A signal to the workers is not a signal of theirs. -/
theorem SignalEmpty.signals {w w' : Fin n → WorkerPc} (h : SignalEmpty w w') {i : Fin n} :
    (w' i).signals = (w i).signals := by
  rcases h with ⟨k, hk, rfl⟩ | ⟨-, rfl⟩
  · by_cases hik : i = k
    · subst hik
      simp [hk, WorkerPc.signals]
    · simp [hik]
  · rfl

theorem SignalFull.signals {u u' : ℕ → SubmitPc} (h : SignalFull u u') {j : ℕ} :
    (u' j).signals = (u j).signals := by
  rcases h with ⟨k, t, hk, rfl⟩ | ⟨-, rfl⟩
  · by_cases hjk : j = k
    · subst hjk
      simp [hk, SubmitPc.signals]
    · simp [hjk]
  · rfl

/-- A signal puts no thread to sleep. -/
theorem SignalEmpty.asleep {w w' : Fin n → WorkerPc} (h : SignalEmpty w w') {i : Fin n} (hi : w' i = .asleep) :
    w i = .asleep := by
  rcases h with ⟨k, hk, rfl⟩ | ⟨-, rfl⟩
  · by_cases hik : i = k
    · exact hik ▸ hk
    · simpa [hik] using hi
  · exact hi

theorem SignalFull.asleep {u u' : ℕ → SubmitPc} (h : SignalFull u u') {j : ℕ} {t : Task} (hj : u' j = .asleep t) :
    u j = .asleep t := by
  rcases h with ⟨k, t', hk, rfl⟩ | ⟨-, rfl⟩
  · by_cases hjk : j = k
    · subst hjk
      simp at hj
    · simpa [hjk] using hj
  · exact hj

/-- What a submitter needs is gone only after the pool has been shut down. -/
theorem WakeInv.past_of_not_usable (hI : WakeInv cap s) {pc : SubmitPc} (h : ¬ s.destroyer.usable pc) :
    s.shutdown = true := by
  rw [hI.past]
  cases hd : s.destroyer <;> simp_all [DestroyPc.usable, DestroyPc.mutexGone, DestroyPc.past]

end

/-! ### Tasks -/

theorem tasks_worker {i : Fin n} {s s' : State n} (h : WorkerStep cap i s s') (hI : WakeInv cap s)
    (hsh : s'.shutdown = false) (has : ∃ k, s'.worker k = .asleep) : AtLeast s'.queue_size s'.toTask := by
  cases h with
  | wait hpc hc => exact .of_nonpos hc.1.le
  | leave hpc hc => exact absurd hsh (by simp [hc.2])
  | decSize hpc =>
    have hold := hI.tasks hsh (asleep_of_update (by simp) has)
    exact hold.lose (i := .worker i) (by simp) fun t ht ht' =>
      marks_of_worker ht' rfl (fun _ => id) (.inl ht)
  | signal hpc hu =>
    have hold := hI.tasks hsh (asleep_of_update (by simp) has)
    refine hold.mono fun t ht => marks_of_worker ht rfl ?_ (.inr ?_)
    · intro j hj
      rw [hu.signals]
      exact hj
    · simp [hpc, WorkerPc.looking]
  | _ hpc =>
    have hold := hI.tasks hsh (asleep_of_update (by simp) has)
    refine hold.mono fun t ht => marks_of_worker ht rfl (fun _ => id) (.inr ?_)
    simp [hpc, WorkerPc.looking]

theorem tasks_submit {j : ℕ} {s s' : State n} (h : SubmitStep cap j s s') (hI : WakeInv cap s)
    (hsh : s'.shutdown = false) (has : ∃ k, s'.worker k = .asleep) : AtLeast s'.queue_size s'.toTask := by
  cases h with
  | incSize hpc =>
    refine (hI.tasks hsh has).gain (i := .submitter j) le_rfl ?_ ?_ ?_
    · intro t ht
      exact marks_of_submitter ht rfl (fun _ => id) (.inr (by simp [SubmitPc.signals]))
    · simp [State.marks, hpc, SubmitPc.signals]
    · simp [State.marks, SubmitPc.signals]
  | signal hpc _ hw =>
    rcases hw with ⟨i, hi, rfl⟩ | ⟨hno, rfl⟩
    · -- the submitter is on its way no longer, and the worker that it woke is
      have hold := hI.tasks hsh ⟨i, hi⟩
      refine hold.swap (i := .submitter j) (j := .worker i) ?_ ?_ ?_
      · intro t ht ht'
        refine marks_of_submitter ht' rfl ?_ (.inl ht)
        intro k hk
        by_cases hki : k = i
        · subst hki
          simp [WorkerPc.looking]
        · simpa [hki] using hk
      · simp [State.marks, hi, WorkerPc.looking]
      · simp [State.marks, WorkerPc.looking]
    · obtain ⟨k, hk⟩ := has
      exact absurd hk (hno k)
  | crash hpc hbad => exact absurd (hI.past_of_not_usable hbad) (by simp [show s.shutdown = false from hsh])
  | _ =>
    refine (hI.tasks hsh has).mono fun t ht => marks_of_submitter ht rfl (fun _ => id) (.inr ?_)
    simp [SubmitPc.signals, *]

/-! ### Free cells -/

theorem cells_worker {i : Fin n} {s s' : State n} (h : WorkerStep cap i s s') (hI : WakeInv cap s)
    (hsh : s'.shutdown = false) (has : ∃ k t, s'.submitter k = .asleep t) :
    AtLeast (cap - s'.queue_size) s'.toCell := by
  cases h with
  | decSize hpc =>
    refine (hI.cells hsh has).gain (i := .worker i) (by dsimp only; omega) ?_ ?_ ?_
    · intro t ht
      exact marks_of_worker ht rfl (fun _ => id) (.inr (by simp [WorkerPc.signals]))
    · simp [State.marks, hpc, WorkerPc.signals]
    · simp [State.marks, WorkerPc.signals]
  | signal hpc hu =>
    rcases hu with ⟨k, t, hk, rfl⟩ | ⟨hno, rfl⟩
    · -- the worker is on its way no longer, and the submitter that it woke is
      have hold := hI.cells hsh ⟨k, t, hk⟩
      refine hold.swap (i := .worker i) (j := .submitter k) ?_ ?_ ?_
      · intro t ht ht'
        refine marks_of_worker ht' rfl ?_ (.inl ht)
        intro j hj
        by_cases hjk : j = k
        · subst hjk
          simp [SubmitPc.looking]
        · simpa [hjk] using hj
      · simp [State.marks, hk, SubmitPc.looking]
      · simp [State.marks, SubmitPc.looking]
    · obtain ⟨k, t, hk⟩ := has
      exact absurd hk (hno k t)
  | _ hpc =>
    refine (hI.cells hsh has).mono fun t ht => marks_of_worker ht rfl (fun _ => id) (.inr ?_)
    simp [hpc, WorkerPc.signals]

theorem cells_submit {j : ℕ} {s s' : State n} (h : SubmitStep cap j s s') (hI : WakeInv cap s)
    (hsh : s'.shutdown = false) (has : ∃ k t, s'.submitter k = .asleep t) :
    AtLeast (cap - s'.queue_size) s'.toCell := by
  cases h with
  | wait hpc _ hc => exact .of_nonpos (by dsimp only; omega)
  | bail hpc _ hc => exact absurd hsh (by simp [hc])
  | incSize hpc =>
    have hold := hI.cells hsh (submit_asleep_of_update (by simp) has)
    apply hold.lose (i := .submitter j) (by dsimp only; omega)
    intro t ht ht'
    exact marks_of_submitter ht' rfl (fun _ => id) (.inl ht)
  | signal hpc _ hw =>
    have hold := hI.cells hsh (submit_asleep_of_update (by simp) has)
    refine hold.mono fun t ht => marks_of_submitter ht rfl ?_ (.inr ?_)
    · intro i hi
      rw [hw.signals]
      exact hi
    · simp [hpc, SubmitPc.looking]
  | crash hpc hbad => exact absurd (hI.past_of_not_usable hbad) (by simp [show s.shutdown = false from hsh])
  | _ =>
    have hold := hI.cells hsh (submit_asleep_of_update (by simp) has)
    refine hold.mono fun t ht => marks_of_submitter ht rfl (fun _ => id) (.inr ?_)
    simp [SubmitPc.looking, *]

/-! ### Every step -/

theorem wakeInv_worker {i : Fin n} {s s' : State n} (h : WorkerStep cap i s s') (hI : WakeInv cap s) :
    WakeInv cap s' where
  past := by
    cases h <;> exact hI.past
  tasks := tasks_worker h hI
  cells := cells_worker h hI
  workers := by
    intro hsh hd k hk
    cases h with
    | wait hpc hc => exact absurd hsh (by simp [hc.2])
    | _ =>
      obtain ⟨k', hk'⟩ := asleep_of_update (by simp) ⟨k, hk⟩
      exact hI.workers hsh hd k' hk'
  submitters := by
    cases h with
    | signal hpc hu => exact fun hsh hd hd' j t hj => hI.submitters hsh hd hd' j t (hu.asleep hj)
    | _ => exact hI.submitters

theorem wakeInv_submit {j : ℕ} {s s' : State n} (h : SubmitStep cap j s s') (hI : WakeInv cap s) :
    WakeInv cap s' where
  past := by
    cases h <;> exact hI.past
  tasks := tasks_submit h hI
  cells := cells_submit h hI
  workers := by
    cases h with
    | signal hpc _ hw => exact fun hsh hd i hi => hI.workers hsh hd i (hw.asleep hi)
    | _ => exact hI.workers
  submitters := by
    intro hsh hd hd' k t hk
    cases h with
    | wait hpc _ hc => exact absurd hsh (by simp [hc.2])
    | _ =>
      obtain ⟨k', t', hk'⟩ := submit_asleep_of_update (by simp) ⟨k, t, hk⟩
      exact hI.submitters hsh hd hd' k' t' hk'

theorem wakeInv_destroy {s s' : State n} (h : DestroyStep s s') (hI : WakeInv cap s) : WakeInv cap s' := by
  have hpast := hI.past
  cases h with
  | setShutdown hpc => exact ⟨rfl, by simp, by simp, by simp, by simp⟩
  | bcastEmpty hpc =>
    rw [hpc] at hpast
    refine ⟨hpast, ?_, ?_, ?_, by simp⟩
    · intro hsh
      exact absurd hsh (by simp [hpast, DestroyPc.past])
    · intro hsh
      exact absurd hsh (by simp [hpast, DestroyPc.past])
    · intro _ _ i
      cases hw : s.worker i <;> simp [WorkerPc.wake, hw]
  | bcastFull hpc =>
    rw [hpc] at hpast
    refine ⟨hpast, ?_, ?_, ?_, ?_⟩
    · intro hsh
      exact absurd hsh (by simp [hpast, DestroyPc.past])
    · intro hsh
      exact absurd hsh (by simp [hpast, DestroyPc.past])
    · intro hsh _
      exact hI.workers hsh (by simp [hpc])
    · intro _ _ _ j t
      cases hu : s.submitter j <;> simp [SubmitPc.wake, hu]
  | _ hpc =>
    rw [hpc] at hpast
    refine ⟨hpast, hI.tasks, hI.cells, ?_, ?_⟩
    · intro hsh _
      exact hI.workers hsh (by simp [hpc])
    · intro hsh _ _
      exact hI.submitters hsh (by simp [hpc]) (by simp [hpc])

theorem wakeInv_step {s s' : State n} (h : Step cap s s') (hI : WakeInv cap s) : WakeInv cap s' := by
  cases h with
  | worker i h => exact wakeInv_worker h hI
  | submitter j h => exact wakeInv_submit h hI
  | destroyer h => exact wakeInv_destroy h hI

theorem wakeInv_reach {q : ℕ → Task} {s : State n} (h : Reach cap q s) : LockInv s ∧ WakeInv cap s :=
  run_inv (I := fun s => LockInv s ∧ WakeInv cap s)
    (fun _ _ hs hI => ⟨lockInv_step hs hI.1, wakeInv_step hs hI.2⟩) h ⟨lockInv_init q, wakeInv_init q⟩

/-! ### With the mutex free -/

section

variable {s : State n} {k : ℤ}

/-- With the mutex free, the threads on their way to a task are the woken workers. -/
theorem LockInv.woken_workers (hL : LockInv s) (hfree : s.owner = none) (h : AtLeast k s.toTask) :
    AtLeast k fun i => s.worker i = .woken := by
  refine (h.comap (f := Tid.worker) ?_).mono ?_
  · intro t ht
    cases t with
    | worker i => exact ⟨i, rfl⟩
    | submitter j =>
      have hnot := mt (hL.submitter j) (by simp [hfree])
      cases hpc : s.submitter j <;> simp_all [State.marks, SubmitPc.signals, SubmitPc.holds]
    | destroyer => exact ht.elim
  · intro i hi
    have hnot := mt (hL.worker i) (by simp [hfree])
    cases hpc : s.worker i <;> simp_all [State.marks, WorkerPc.looking, WorkerPc.holds]

/-- With the mutex free, the threads on their way to a cell are the woken submitters. -/
theorem LockInv.woken_submitters (hL : LockInv s) (hfree : s.owner = none) (h : AtLeast k s.toCell) :
    AtLeast k fun j => ∃ t, s.submitter j = .woken t := by
  refine (h.comap (f := Tid.submitter) ?_).mono ?_
  · intro t ht
    cases t with
    | worker i =>
      have hnot := mt (hL.worker i) (by simp [hfree])
      cases hpc : s.worker i <;> simp_all [State.marks, WorkerPc.signals, WorkerPc.holds]
    | submitter j => exact ⟨j, rfl⟩
    | destroyer => exact ht.elim
  · intro j hj
    have hnot := mt (hL.submitter j) (by simp [hfree])
    cases hpc : s.submitter j <;> simp_all [State.marks, SubmitPc.looking, SubmitPc.holds]

end

/-- **No lost wake-up.** In every state of the pool in which the mutex is free: while the pool is
alive and a worker is asleep, there are at least as many woken workers as tasks; while it is
alive and a submitter is asleep, there are at least as many woken submitters as free cells; and
once it is shut down no thread is asleep. So a task and a sleeping worker come with a woken
worker that can take the mutex, a free cell and a sleeping submitter come with such a submitter,
and the destroyer never joins a worker that sleeps. -/
theorem no_lost_wakeup {q : ℕ → Task} {s : State n} (h : Reach cap q s) (hfree : s.owner = none) :
    (s.shutdown = false → (∃ i, s.worker i = .asleep) →
      (s.queue_size.toNat : ℕ∞) ≤ {i | s.worker i = .woken}.encard) ∧
    (s.shutdown = false → (∃ j t, s.submitter j = .asleep t) →
      ((cap - s.queue_size).toNat : ℕ∞) ≤ {j | ∃ t, s.submitter j = .woken t}.encard) ∧
    (s.shutdown = true → (∀ i, s.worker i ≠ .asleep) ∧ ∀ j t, s.submitter j ≠ .asleep t) ∧
    (0 < s.queue_size → (∃ i, s.worker i = .asleep) → ∃ i s', s.worker i = .woken ∧ WorkerStep cap i s s') ∧
    (s.queue_size < cap → (∃ j t, s.submitter j = .asleep t) →
      ∃ j t s', s.submitter j = .woken t ∧ SubmitStep cap j s s') ∧
    ∀ k, s.destroyer = .join k → ∀ i, s.worker i ≠ .asleep := by
  obtain ⟨hL, hI⟩ := wakeInv_reach h
  have hdown (hsh : s.shutdown = true) : (∀ i, s.worker i ≠ .asleep) ∧ ∀ j t, s.submitter j ≠ .asleep t := by
    have hd := mt hL.destroyer (by simp [hfree])
    have hne : s.destroyer ≠ .bcastEmpty := fun he => hd (by simp [he, DestroyPc.holds])
    have hnf : s.destroyer ≠ .bcastFull := fun he => hd (by simp [he, DestroyPc.holds])
    exact ⟨hI.workers hsh hne, hI.submitters hsh hne hnf⟩
  have halive (hw : (∃ i, s.worker i = .asleep) ∨ ∃ j t, s.submitter j = .asleep t) : s.shutdown = false := by
    by_contra hsh
    obtain ⟨h₁, h₂⟩ := hdown (by simpa using hsh)
    rcases hw with ⟨i, hi⟩ | ⟨j, t, hj⟩
    · exact h₁ i hi
    · exact h₂ j t hj
  refine ⟨?_, ?_, hdown, ?_, ?_, ?_⟩
  · intro hsh hw
    exact (hL.woken_workers hfree (hI.tasks hsh hw)).le_encard
  · intro hsh hw
    exact (hL.woken_submitters hfree (hI.cells hsh hw)).le_encard
  · intro hpos hw
    obtain ⟨i, hi⟩ := (hL.woken_workers hfree (hI.tasks (halive (.inl hw)) hw)).exists_of_pos hpos
    exact ⟨i, _, hi, .relock hi hfree⟩
  · intro hlt hw
    have hsh := halive (.inr hw)
    obtain ⟨j, t, hj⟩ := (hL.woken_submitters hfree (hI.cells hsh hw)).exists_of_pos (by omega)
    refine ⟨j, t, _, hj, .relock hj ?_ hfree⟩
    by_contra hbad
    exact absurd (hI.past_of_not_usable hbad) (by simp [hsh])
  · intro k hk
    refine (hdown ?_).1
    rw [hI.past, hk]
    rfl

/-- Two workers are asleep, and a submit wakes one of them for its task. -/
theorem no_lost_wakeup_signal : ∃ s : State 2, Reach 1 (fun _ => ⟨0, 0⟩) s ∧ s.owner = none ∧
    s.worker 0 = .asleep ∧ s.queue_size = 1 ∧ ∃ i s', s.worker i = .woken ∧ WorkerStep 1 i s s' := by
  have h : Reach (n := 2) 1 (fun _ => ⟨0, 0⟩) _ :=
    ReflTransGen.refl.tail (.worker 0 (.lock rfl rfl))
      |>.tail (.worker 0 (.wait rfl ⟨rfl, rfl⟩))
      |>.tail (.worker 1 (.lock rfl rfl))
      |>.tail (.worker 1 (.wait rfl ⟨rfl, rfl⟩))
      |>.tail (.submitter 0 (.call ⟨7, 8⟩ rfl rfl))
      |>.tail (.submitter 0 (.lock rfl rfl rfl))
      |>.tail (.submitter 0 (.ready rfl rfl (by decide)))
      |>.tail (.submitter 0 (.accept rfl rfl rfl))
      |>.tail (.submitter 0 (.storeFunc rfl rfl))
      |>.tail (.submitter 0 (.storeArg rfl rfl))
      |>.tail (.submitter 0 (.advTail rfl rfl))
      |>.tail (.submitter 0 (.incSize rfl rfl))
      |>.tail (.submitter 0 (.signal rfl rfl (.inl ⟨1, rfl, rfl⟩)))
      |>.tail (.submitter 0 (.done rfl rfl))
  exact ⟨_, h, rfl, rfl, rfl, (no_lost_wakeup h rfl).2.2.2.1 (by decide) ⟨0, rfl⟩⟩

end SdeSystems.Pool
