import SdeSystems.Lib.Ring
import SdeSystems.Pool.Machine

/-!
# What the lock protects

The invariant of the pool. `LockInv`: a thread in a critical section has the mutex,
so there is at most one. `RingInv`: the ring is the accepted tasks that have not been
dequeued, with the two moments inside a critical section at which an index has moved
and the size has not (`Phase`). `Know`: what a thread has learnt under the lock and
still holds, and what a worker that has left leaves behind: a pool that is shut down
and empty.
-/

namespace SdeSystems.Pool

open Function Lib

variable {n : ℕ} {cap : ℕ}

/-! ### The mutex -/

/-- The worker is in a critical section. -/
def WorkerPc.holds : WorkerPc → Bool
  | .test | .leave | .unlockExit | .fetch | .advHead _ | .decSize _ | .signal _ | .unlock _ => true
  | _ => false

/-- The submitter is in the critical section. -/
def SubmitPc.holds : SubmitPc → Bool
  | .test _ | .check _ | .bail | .storeFunc _ | .storeArg _ | .advTail _ | .incSize _ | .signal
  | .unlock => true
  | _ => false

/-- The destroyer is in its critical section. -/
def DestroyPc.holds : DestroyPc → Bool
  | .setShutdown | .bcastEmpty | .bcastFull | .unlock => true
  | _ => false

/-- A thread in a critical section has the mutex. -/
structure LockInv (s : State n) : Prop where
  /-- The workers. -/
  worker : ∀ i, (s.worker i).holds → s.owner = some (.worker i)
  /-- The submitters. -/
  submitter : ∀ j, (s.submitter j).holds → s.owner = some (.submitter j)
  /-- The destroyer. -/
  destroyer : s.destroyer.holds → s.owner = some .destroyer

theorem holds_wake_worker (pc : WorkerPc) : pc.wake.holds = pc.holds := by cases pc <;> rfl

theorem holds_wake_submit (pc : SubmitPc) : pc.wake.holds = pc.holds := by cases pc <;> rfl

theorem SignalEmpty.holds {w w' : Fin n → WorkerPc} (h : SignalEmpty w w') (i : Fin n) :
    (w' i).holds = (w i).holds := by
  rcases h with ⟨k, hk, rfl⟩ | ⟨-, rfl⟩
  · by_cases hik : i = k
    · subst hik; simp [hk, WorkerPc.holds]
    · simp [hik]
  · rfl

theorem SignalFull.holds {u u' : ℕ → SubmitPc} (h : SignalFull u u') (j : ℕ) :
    (u' j).holds = (u j).holds := by
  rcases h with ⟨k, t, hk, rfl⟩ | ⟨-, rfl⟩
  · by_cases hjk : j = k
    · subst hjk; simp [hk, SubmitPc.holds]
    · simp [hjk]
  · rfl

theorem lockInv_init (q : ℕ → Task) : LockInv (init n q) := by
  constructor <;> simp [init, WorkerPc.holds, SubmitPc.holds, DestroyPc.holds]

/-- A thread is in a critical section. -/
def State.holds (s : State n) : Tid n → Bool
  | .worker i => (s.worker i).holds
  | .submitter j => (s.submitter j).holds
  | .destroyer => s.destroyer.holds

theorem lockInv_iff {s : State n} : LockInv s ↔ ∀ t, s.holds t = true → s.owner = some t := by
  constructor
  · rintro ⟨hw, hs, hd⟩ t ht
    cases t with
    | worker i => exact hw i ht
    | submitter j => exact hs j ht
    | destroyer => exact hd ht
  · intro h
    exact ⟨fun i hi => h (.worker i) hi, fun j hj => h (.submitter j) hj, fun hd => h .destroyer hd⟩

/-- What a thread may do about the mutex: leave it and enter no critical section, take it
when it is free, or give it up. -/
theorem LockInv.move {s s' : State n} (hI : LockInv s) (t : Tid n) (hother : ∀ u ≠ t, s'.holds u = s.holds u)
    (h : (s'.owner = s.owner ∧ (s'.holds t = true → s.holds t = true)) ∨
      (s.owner = none ∧ s'.owner = some t) ∨ (s.holds t = true ∧ s'.holds t = false)) : LockInv s' := by
  rw [lockInv_iff] at hI ⊢
  intro u hu
  by_cases hut : u = t
  · subst hut
    rcases h with ⟨ho, hh⟩ | ⟨-, ho⟩ | ⟨-, hh⟩
    · rw [ho]
      exact hI u (hh hu)
    · exact ho
    · simp [hh] at hu
  · rw [hother u hut] at hu
    have hown := hI u hu
    rcases h with ⟨ho, -⟩ | ⟨ho, -⟩ | ⟨hh, -⟩
    · rw [ho, hown]
    · simp [ho] at hown
    · exact absurd (Option.some.inj (hown.symm.trans (hI t hh))) hut

/-- A step of a worker that may wake a submitter. -/
theorem holds_of_worker {s s' : State n} {i : Fin n} {pc : WorkerPc} (hw : s'.worker = update s.worker i pc)
    (hs : ∀ j, (s'.submitter j).holds = (s.submitter j).holds) (hd : s'.destroyer = s.destroyer) :
    ∀ u ≠ Tid.worker i, s'.holds u = s.holds u := by
  intro u hu
  cases u with
  | worker k =>
    have hk : k ≠ i := fun h => hu (by rw [h])
    simp [State.holds, hw, hk]
  | submitter j => exact hs j
  | destroyer => simp [State.holds, hd]

/-- A step of a submitter that may wake a worker. -/
theorem holds_of_submitter {s s' : State n} {j : ℕ} {pc : SubmitPc} (hs : s'.submitter = update s.submitter j pc)
    (hw : ∀ i, (s'.worker i).holds = (s.worker i).holds) (hd : s'.destroyer = s.destroyer) :
    ∀ u ≠ Tid.submitter j, s'.holds u = s.holds u := by
  intro u hu
  cases u with
  | worker i => exact hw i
  | submitter k =>
    have hk : k ≠ j := fun h => hu (by rw [h])
    simp [State.holds, hs, hk]
  | destroyer => simp [State.holds, hd]

/-- A step of the destroyer that may wake the others. -/
theorem holds_of_destroyer {s s' : State n} (hw : ∀ i, (s'.worker i).holds = (s.worker i).holds)
    (hs : ∀ j, (s'.submitter j).holds = (s.submitter j).holds) : ∀ u ≠ Tid.destroyer, s'.holds u = s.holds u := by
  intro u hu
  cases u with
  | worker i => exact hw i
  | submitter j => exact hs j
  | destroyer => exact absurd rfl hu

theorem lockInv_worker {i : Fin n} {s s' : State n} (h : WorkerStep cap i s s') (hI : LockInv s) : LockInv s' := by
  refine hI.move (.worker i) ?_ ?_
  · cases h with
    | signal hpc hu => exact holds_of_worker rfl hu.holds rfl
    | _ => exact holds_of_worker rfl (fun _ => rfl) rfl
  · cases h <;> simp_all [State.holds, WorkerPc.holds]

theorem lockInv_submit {j : ℕ} {s s' : State n} (h : SubmitStep cap j s s') (hI : LockInv s) : LockInv s' := by
  refine hI.move (.submitter j) ?_ ?_
  · cases h with
    | signal hpc _ hw => exact holds_of_submitter rfl hw.holds rfl
    | _ => exact holds_of_submitter rfl (fun _ => rfl) rfl
  · cases h <;> simp_all [State.holds, SubmitPc.holds]

theorem lockInv_destroy {s s' : State n} (h : DestroyStep s s') (hI : LockInv s) : LockInv s' := by
  refine hI.move .destroyer ?_ ?_
  · cases h with
    | bcastEmpty hpc => exact holds_of_destroyer (fun i => holds_wake_worker _) fun _ => rfl
    | bcastFull hpc => exact holds_of_destroyer (fun _ => rfl) fun j => holds_wake_submit _
    | _ => exact holds_of_destroyer (fun _ => rfl) fun _ => rfl
  · cases h <;> simp_all [State.holds, DestroyPc.holds]

/-- Mutual exclusion, along every run. -/
theorem lockInv_step {s s' : State n} (h : Step cap s s') (hI : LockInv s) : LockInv s' := by
  cases h with
  | worker i h => exact lockInv_worker h hI
  | submitter j h => exact lockInv_submit h hI
  | destroyer h => exact lockInv_destroy h hI

/-! ### The ring -/

/-- The moments at which an index has moved and the size has not yet. -/
inductive Phase where
  /-- Index and size agree. -/
  | rest
  /-- `queue_tail` has moved over `t`. -/
  | inc (t : Task)
  /-- `queue_head` has moved over `t`. -/
  | dec (t : Task)

/-- The phase a worker puts the ring in. -/
def WorkerPc.phase : WorkerPc → Phase
  | .decSize t => .dec t
  | _ => .rest

/-- The phase a submitter puts the ring in. -/
def SubmitPc.phase : SubmitPc → Phase
  | .incSize t => .inc t
  | _ => .rest

/-- The phase of the ring: its owner's. -/
def State.phase (s : State n) : Phase :=
  match s.owner with
  | some (.worker i) => (s.worker i).phase
  | some (.submitter j) => (s.submitter j).phase
  | _ => .rest

/-- The tasks of the ring, from `queue_head`. -/
def State.ring (s : State n) (cap size : ℕ) : List Task := Ring.window s.queue cap s.queue_head size

/-- The tasks accepted so far. -/
def State.tasks (s : State n) : List Task := s.accepted.map Entry.task

/-- Index, size and contents agree, as far as the phase lets them. -/
def State.Agree (cap : ℕ) (s : State n) : Phase → Prop
  | .rest => s.queue_tail = (s.queue_head + s.queue_size.toNat) % cap ∧
      s.tasks = s.dequeued ++ s.ring cap s.queue_size.toNat
  | .inc t => s.queue_size < cap ∧ s.queue_tail = (s.queue_head + s.queue_size.toNat + 1) % cap ∧
      s.queue ((s.queue_head + s.queue_size.toNat) % cap) = t ∧
      s.tasks = s.dequeued ++ s.ring cap s.queue_size.toNat
  | .dec t => 0 < s.queue_size ∧ s.queue_tail = (s.queue_head + (s.queue_size.toNat - 1)) % cap ∧
      s.tasks = s.dequeued ++ t :: s.ring cap (s.queue_size.toNat - 1)

/-- **The ring**: valid indices, and the accepted tasks are the dequeued ones followed
by the ring. -/
structure RingInv (cap : ℕ) (s : State n) : Prop where
  /-- `queue_head` is an index. -/
  head_lt : s.queue_head < cap
  /-- `queue_tail` is an index. -/
  tail_lt : s.queue_tail < cap
  /-- The size is not negative. -/
  size_nonneg : 0 ≤ s.queue_size
  /-- The size is at most the capacity. -/
  size_le : s.queue_size ≤ cap
  /-- Index, size and contents. -/
  agree : s.Agree cap s.phase

/-- What a worker has learnt under the lock, of the size, the shutdown flag and the task
at the head; a worker that has left leaves a pool that is shut down and empty. -/
def WorkerPc.Know (size : ℤ) (shutdown : Bool) (front : Task) : WorkerPc → Prop
  | .leave => ¬ (size = 0 ∧ shutdown = false)
  | .unlockExit | .exited => size = 0 ∧ shutdown = true
  | .fetch | .decSize _ => 0 < size
  | .advHead t => 0 < size ∧ front = t
  | _ => True

/-- What a submitter has learnt under the lock, of the size, the shutdown flag and the
cell at the tail. -/
def SubmitPc.Know (cap : ℕ) (size : ℤ) (shutdown : Bool) (back : Task) : SubmitPc → Prop
  | .check _ => ¬ (size = cap ∧ shutdown = false)
  | .storeFunc _ => shutdown = false ∧ size < cap
  | .storeArg t => shutdown = false ∧ size < cap ∧ back.func = t.func
  | .advTail t => shutdown = false ∧ size < cap ∧ back = t
  | .incSize _ => shutdown = false ∧ size < cap
  | _ => True

/-- The destroyer has raised `shutdown`. -/
def DestroyPc.past : DestroyPc → Bool
  | .idle | .lock | .setShutdown => false
  | _ => true

/-- **What the threads know.** -/
structure KnowInv (cap : ℕ) (s : State n) : Prop where
  /-- The workers. -/
  worker : ∀ i, (s.worker i).Know s.queue_size s.shutdown (s.queue s.queue_head)
  /-- The submitters. -/
  submitter : ∀ j, (s.submitter j).Know cap s.queue_size s.shutdown (s.queue s.queue_tail)
  /-- The destroyer. -/
  destroyer : s.destroyer.past → s.shutdown = true

theorem knowInv_init (q : ℕ → Task) : KnowInv cap (init n q) :=
  ⟨fun _ => trivial, fun _ => trivial, by simp [init, DestroyPc.past]⟩

theorem ringInv_init (hcap : 0 < cap) (q : ℕ → Task) : RingInv cap (init n q) := by
  constructor <;> simp [init, hcap, State.phase, State.Agree, State.tasks, State.ring]

/-- Outside a critical section a worker knows only what it left behind. -/
theorem WorkerPc.know_of_not_holds {pc : WorkerPc} {size : ℤ} {sh : Bool} {x : Task}
    (h : pc.holds = false) (hx : pc = .exited → size = 0 ∧ sh = true) : pc.Know size sh x := by
  cases pc <;> simp_all [WorkerPc.holds, WorkerPc.Know]

/-- Outside the critical section a submitter knows nothing. -/
theorem SubmitPc.know_of_not_holds {pc : SubmitPc} {size : ℤ} {sh : Bool} {x : Task}
    (h : pc.holds = false) : pc.Know cap size sh x := by
  cases pc <;> simp_all [SubmitPc.holds, SubmitPc.Know]

theorem SignalEmpty.know {w w' : Fin n → WorkerPc} (h : SignalEmpty w w') {i : Fin n} {size : ℤ}
    {sh : Bool} {x : Task} (hk : (w i).Know size sh x) : (w' i).Know size sh x := by
  rcases h with ⟨k, -, rfl⟩ | ⟨-, rfl⟩
  · by_cases hik : i = k
    · subst hik; simp [WorkerPc.Know]
    · simpa [hik] using hk
  · exact hk

theorem SignalFull.know {u u' : ℕ → SubmitPc} (h : SignalFull u u') {j : ℕ} {size : ℤ}
    {sh : Bool} {x : Task} (hk : (u j).Know cap size sh x) : (u' j).Know cap size sh x := by
  rcases h with ⟨k, t, -, rfl⟩ | ⟨-, rfl⟩
  · by_cases hjk : j = k
    · subst hjk; simp [SubmitPc.Know]
    · simpa [hjk] using hk
  · exact hk

theorem WorkerPc.Know.wake {pc : WorkerPc} {size : ℤ} {sh : Bool} {x : Task}
    (h : pc.Know size sh x) : pc.wake.Know size sh x := by
  cases pc <;> exact h

theorem SubmitPc.Know.wake {pc : SubmitPc} {size : ℤ} {sh : Bool} {x : Task}
    (h : pc.Know cap size sh x) : pc.wake.Know cap size sh x := by
  cases pc <;> exact h

section

variable {s : State n}

/-- While worker `i` is in a critical section, no other worker is. -/
theorem LockInv.worker_only (hL : LockInv s) {i k : Fin n} (hi : (s.worker i).holds) (hk : k ≠ i) :
    (s.worker k).holds = false := by
  by_contra h
  have h₁ := hL.worker i hi
  have h₂ := hL.worker k (by simpa using h)
  simp_all

/-- While worker `i` is in a critical section, no submitter is. -/
theorem LockInv.no_submit (hL : LockInv s) {i : Fin n} (hi : (s.worker i).holds) (j : ℕ) :
    (s.submitter j).holds = false := by
  by_contra h
  have h₁ := hL.worker i hi
  have h₂ := hL.submitter j (by simpa using h)
  simp_all

/-- While submitter `j` is in the critical section, no worker is. -/
theorem LockInv.no_worker (hL : LockInv s) {j : ℕ} (hj : (s.submitter j).holds) (i : Fin n) :
    (s.worker i).holds = false := by
  by_contra h
  have h₁ := hL.submitter j hj
  have h₂ := hL.worker i (by simpa using h)
  simp_all

/-- While submitter `j` is in the critical section, no other submitter is. -/
theorem LockInv.submit_only (hL : LockInv s) {j k : ℕ} (hj : (s.submitter j).holds) (hk : k ≠ j) :
    (s.submitter k).holds = false := by
  by_contra h
  have h₁ := hL.submitter j hj
  have h₂ := hL.submitter k (by simpa using h)
  simp_all

end

/-- A worker moves on and the pool is as it was. -/
theorem KnowInv.setWorker {s s' : State n} (hI : KnowInv cap s) {i : Fin n} {pc : WorkerPc}
    (hw : s'.worker = update s.worker i pc) (hs : s'.submitter = s.submitter)
    (hsz : s'.queue_size = s.queue_size) (hsh : s'.shutdown = s.shutdown) (hq : s'.queue = s.queue)
    (hh : s'.queue_head = s.queue_head) (ht : s'.queue_tail = s.queue_tail)
    (hd : s'.destroyer = s.destroyer)
    (hpc : pc.Know s.queue_size s.shutdown (s.queue s.queue_head)) : KnowInv cap s' := by
  constructor
  · intro k
    rw [hw, hsz, hsh, hq, hh]
    by_cases hk : k = i
    · subst hk; simpa using hpc
    · simpa [hk] using hI.worker k
  · intro j
    rw [hs, hsz, hsh, hq, ht]
    exact hI.submitter j
  · rw [hd, hsh]
    exact hI.destroyer

/-- A submitter moves on and the pool is as it was. -/
theorem KnowInv.setSubmitter {s s' : State n} (hI : KnowInv cap s) {j : ℕ} {pc : SubmitPc}
    (hw : s'.worker = s.worker) (hs : s'.submitter = update s.submitter j pc)
    (hsz : s'.queue_size = s.queue_size) (hsh : s'.shutdown = s.shutdown) (hq : s'.queue = s.queue)
    (hh : s'.queue_head = s.queue_head) (ht : s'.queue_tail = s.queue_tail)
    (hd : s'.destroyer = s.destroyer)
    (hpc : pc.Know cap s.queue_size s.shutdown (s.queue s.queue_tail)) : KnowInv cap s' := by
  constructor
  · intro k
    rw [hw, hsz, hsh, hq, hh]
    exact hI.worker k
  · intro k
    rw [hs, hsz, hsh, hq, ht]
    by_cases hk : k = j
    · subst hk; simpa using hpc
    · simpa [hk] using hI.submitter k
  · rw [hd, hsh]
    exact hI.destroyer

/-- The worker that has the mutex changes the pool: the others are outside. -/
theorem KnowInv.ownerWorker {s s' : State n} (hI : KnowInv cap s) (hL : LockInv s) {i : Fin n}
    {pc : WorkerPc} (hi : (s.worker i).holds) (hw : s'.worker = update s.worker i pc)
    (hs : s'.submitter = s.submitter) (hsh : s'.shutdown = s.shutdown)
    (hd : s'.destroyer = s.destroyer)
    (hpc : pc.Know s'.queue_size s'.shutdown (s'.queue s'.queue_head))
    (hx : ∀ k, s.worker k = .exited → s.queue_size = 0 → s'.queue_size = 0) : KnowInv cap s' := by
  constructor
  · intro k
    rw [hw]
    by_cases hk : k = i
    · subst hk; simpa using hpc
    · simp only [update_of_ne hk]
      apply WorkerPc.know_of_not_holds (hL.worker_only hi hk)
      intro hxk
      have := hI.worker k
      rw [hxk] at this
      exact ⟨hx k hxk this.1, hsh.trans this.2⟩
  · intro j
    rw [hs]
    exact SubmitPc.know_of_not_holds (hL.no_submit hi j)
  · rw [hd, hsh]
    exact hI.destroyer

/-- The submitter that has the mutex changes the pool, which is not shut down: the others
are outside, and no worker has left. -/
theorem KnowInv.ownerSubmitter {s s' : State n} (hI : KnowInv cap s) (hL : LockInv s) {j : ℕ}
    {pc : SubmitPc} (hj : (s.submitter j).holds) (hw : s'.worker = s.worker)
    (hs : s'.submitter = update s.submitter j pc) (hsh : s.shutdown = false)
    (hsh' : s'.shutdown = s.shutdown) (hd : s'.destroyer = s.destroyer)
    (hpc : pc.Know cap s'.queue_size s'.shutdown (s'.queue s'.queue_tail)) : KnowInv cap s' := by
  constructor
  · intro i
    rw [hw]
    apply WorkerPc.know_of_not_holds (hL.no_worker hj i)
    intro hxi
    have := hI.worker i
    rw [hxi] at this
    exact absurd this.2 (by simp [hsh])
  · intro k
    rw [hs]
    by_cases hk : k = j
    · subst hk; simpa using hpc
    · simp only [update_of_ne hk]
      exact SubmitPc.know_of_not_holds (hL.submit_only hj hk)
  · rw [hd, hsh']
    exact hI.destroyer

theorem knowInv_worker {i : Fin n} {s s' : State n} (h : WorkerStep cap i s s') (hL : LockInv s)
    (hR : RingInv cap s) (hI : KnowInv cap s) : KnowInv cap s' := by
  have hi := hI.worker i
  cases h with
  | lock hpc => exact hI.setWorker rfl rfl rfl rfl rfl rfl rfl rfl trivial
  | wait hpc => exact hI.setWorker rfl rfl rfl rfl rfl rfl rfl rfl trivial
  | ready hpc hc => exact hI.setWorker rfl rfl rfl rfl rfl rfl rfl rfl hc
  | spurious hpc => exact hI.setWorker rfl rfl rfl rfl rfl rfl rfl rfl trivial
  | relock hpc => exact hI.setWorker rfl rfl rfl rfl rfl rfl rfl rfl trivial
  | leave hpc hc => exact hI.setWorker rfl rfl rfl rfl rfl rfl rfl rfl hc
  | stay hpc hc =>
    rw [hpc] at hi
    refine hI.setWorker rfl rfl rfl rfl rfl rfl rfl rfl ?_
    have := hR.size_nonneg
    simp only [WorkerPc.Know] at hi ⊢
    grind
  | exit hpc => rw [hpc] at hi; exact hI.setWorker rfl rfl rfl rfl rfl rfl rfl rfl hi
  | fetch hpc => rw [hpc] at hi; exact hI.setWorker rfl rfl rfl rfl rfl rfl rfl rfl ⟨hi, rfl⟩
  | unlock hpc => exact hI.setWorker rfl rfl rfl rfl rfl rfl rfl rfl trivial
  | run hpc => exact hI.setWorker rfl rfl rfl rfl rfl rfl rfl rfl trivial
  | signal hpc hu =>
    constructor
    · intro k
      by_cases hk : k = i
      · subst hk; simp [WorkerPc.Know]
      · simpa [hk] using hI.worker k
    · intro j
      exact hu.know (hI.submitter j)
    · exact hI.destroyer
  | advHead hpc =>
    rw [hpc] at hi
    exact hI.ownerWorker hL (by rw [hpc]; rfl) rfl rfl rfl rfl hi.1 fun _ _ h => h
  | decSize hpc =>
    rw [hpc] at hi
    refine hI.ownerWorker hL (by rw [hpc]; rfl) rfl rfl rfl rfl trivial ?_
    -- a worker that has left found the ring empty, and it is not
    intro k hk h0
    exact absurd h0 (by simp only [WorkerPc.Know] at hi; omega)

theorem knowInv_submit {j : ℕ} {s s' : State n} (h : SubmitStep cap j s s') (hL : LockInv s)
    (hR : RingInv cap s) (hI : KnowInv cap s) : KnowInv cap s' := by
  have hj := hI.submitter j
  cases h with
  | call t hpc => exact hI.setSubmitter rfl rfl rfl rfl rfl rfl rfl rfl trivial
  | lock hpc => exact hI.setSubmitter rfl rfl rfl rfl rfl rfl rfl rfl trivial
  | wait hpc => exact hI.setSubmitter rfl rfl rfl rfl rfl rfl rfl rfl trivial
  | ready hpc _ hc => exact hI.setSubmitter rfl rfl rfl rfl rfl rfl rfl rfl hc
  | spurious hpc => exact hI.setSubmitter rfl rfl rfl rfl rfl rfl rfl rfl trivial
  | relock hpc => exact hI.setSubmitter rfl rfl rfl rfl rfl rfl rfl rfl trivial
  | bail hpc => exact hI.setSubmitter rfl rfl rfl rfl rfl rfl rfl rfl trivial
  | accept hpc _ hc =>
    rw [hpc] at hj
    refine hI.setSubmitter rfl rfl rfl rfl rfl rfl rfl rfl ⟨hc, ?_⟩
    have := hR.size_le
    simp only [SubmitPc.Know] at hj
    grind
  | refuse hpc => exact hI.setSubmitter rfl rfl rfl rfl rfl rfl rfl rfl trivial
  | done hpc => exact hI.setSubmitter rfl rfl rfl rfl rfl rfl rfl rfl trivial
  | crash hpc => exact hI.setSubmitter rfl rfl rfl rfl rfl rfl rfl rfl trivial
  | signal hpc _ hw =>
    constructor
    · intro i
      exact hw.know (hI.worker i)
    · intro k
      by_cases hk : k = j
      · subst hk; simp [SubmitPc.Know]
      · simpa [hk] using hI.submitter k
    · exact hI.destroyer
  | storeFunc hpc =>
    rw [hpc] at hj
    exact hI.ownerSubmitter hL (by rw [hpc]; rfl) rfl rfl hj.1 rfl rfl ⟨hj.1, hj.2, by simp⟩
  | storeArg hpc =>
    rw [hpc] at hj
    refine hI.ownerSubmitter hL (by rw [hpc]; rfl) rfl rfl hj.1 rfl rfl ⟨hj.1, hj.2.1, ?_⟩
    simp [hj.2.2]
  | advTail hpc =>
    rw [hpc] at hj
    exact hI.ownerSubmitter hL (by rw [hpc]; rfl) rfl rfl hj.1 rfl rfl ⟨hj.1, hj.2.1⟩
  | incSize hpc =>
    rw [hpc] at hj
    exact hI.ownerSubmitter hL (by rw [hpc]; rfl) rfl rfl hj.1 rfl rfl trivial

theorem knowInv_destroy {s s' : State n} (h : DestroyStep s s') (hL : LockInv s)
    (hI : KnowInv cap s) : KnowInv cap s' := by
  cases h with
  | setShutdown hpc =>
    have hd := hL.destroyer (by rw [hpc]; rfl)
    constructor
    · intro i
      refine WorkerPc.know_of_not_holds ?_ ?_
      · by_contra h
        have := hL.worker i (by simpa using h)
        simp_all
      · intro hx
        have := hI.worker i
        rw [hx] at this
        exact ⟨this.1, rfl⟩
    · intro j
      apply SubmitPc.know_of_not_holds
      by_contra h
      have := hL.submitter j (by simpa using h)
      simp_all
    · exact fun _ => rfl
  | bcastEmpty hpc =>
    exact ⟨fun i => (hI.worker i).wake, hI.submitter, fun _ => hI.destroyer (by rw [hpc]; rfl)⟩
  | bcastFull hpc =>
    exact ⟨hI.worker, fun j => (hI.submitter j).wake, fun _ => hI.destroyer (by rw [hpc]; rfl)⟩
  | call hpc => exact ⟨hI.worker, hI.submitter, by simp [DestroyPc.past]⟩
  | lock hpc => exact ⟨hI.worker, hI.submitter, by simp [DestroyPc.past]⟩
  | _ hpc => exact ⟨hI.worker, hI.submitter, fun _ => hI.destroyer (by rw [hpc]; rfl)⟩

/-- A step that touches neither the ring nor the phase. -/
theorem RingInv.frame {s s' : State n} (hI : RingInv cap s) (hq : s'.queue = s.queue)
    (hsz : s'.queue_size = s.queue_size) (hh : s'.queue_head = s.queue_head)
    (ht : s'.queue_tail = s.queue_tail) (ha : s'.accepted = s.accepted)
    (hd : s'.dequeued = s.dequeued) (hp : s'.phase = s.phase) : RingInv cap s' := by
  obtain ⟨h₁, h₂, h₃, h₄, h₅⟩ := hI
  refine ⟨hh ▸ h₁, ht ▸ h₂, hsz ▸ h₃, hsz ▸ h₄, ?_⟩
  rw [hp]
  cases hph : s.phase <;>
    simp only [hph, State.Agree, State.tasks, State.ring, hq, hsz, hh, ht, ha, hd] at h₅ ⊢ <;>
    exact h₅

theorem phase_of_worker {s : State n} (hL : LockInv s) {i : Fin n} (hi : (s.worker i).holds) :
    s.phase = (s.worker i).phase := by
  simp only [State.phase, hL.worker i hi]

theorem phase_of_submitter {s : State n} (hL : LockInv s) {j : ℕ} (hj : (s.submitter j).holds) :
    s.phase = (s.submitter j).phase := by
  simp only [State.phase, hL.submitter j hj]

theorem ringInv_worker {i : Fin n} {s s' : State n} (h : WorkerStep cap i s s') (hL : LockInv s)
    (hK : KnowInv cap s) (hI : RingInv cap s) : RingInv cap s' := by
  have hown := hL.worker i
  have hi := hK.worker i
  cases h with
  | signal hpc hu =>
    refine hI.frame rfl rfl rfl rfl rfl rfl ?_
    have := hown (by simp [hpc, WorkerPc.holds])
    simp [State.phase, this, hpc, WorkerPc.phase]
  | @advHead t hpc =>
    have hh : (s.worker i).holds := by rw [hpc]; rfl
    obtain ⟨h₁, h₂, h₃, h₄, h₅⟩ := hI
    rw [phase_of_worker hL hh, hpc] at h₅
    rw [hpc] at hi
    obtain ⟨htl, htk⟩ := h₅
    obtain ⟨k, hk⟩ : ∃ k : ℕ, s.queue_size.toNat = k + 1 := ⟨s.queue_size.toNat - 1, by have := hi.1; omega⟩
    refine ⟨Nat.mod_lt _ (by omega), h₂, h₃, h₄, ?_⟩
    have hph : State.phase { s with queue_head := (s.queue_head + 1) % cap,
                                    worker := update s.worker i (.decSize t) } = .dec t := by
      simp [State.phase, hown hh, WorkerPc.phase]
    rw [hph]
    refine ⟨hi.1, ?_, ?_⟩
    · simp only [hk, Nat.add_sub_cancel, Nat.mod_add_mod]
      rw [htl, hk]
      congr 1
      omega
    · simp only [State.tasks, State.ring, hk, Nat.add_sub_cancel] at htk ⊢
      rw [htk, Ring.window_cons h₁, hi.2]
  | @decSize t hpc =>
    have hh : (s.worker i).holds := by rw [hpc]; rfl
    obtain ⟨h₁, h₂, h₃, h₄, h₅⟩ := hI
    rw [phase_of_worker hL hh, hpc] at h₅
    obtain ⟨hpos, htl, htk⟩ := h₅
    have hsz : (s.queue_size - 1).toNat = s.queue_size.toNat - 1 := by omega
    refine ⟨h₁, h₂, by simp only; omega, by simp only; omega, ?_⟩
    have hph : State.phase { s with queue_size := s.queue_size - 1, dequeued := s.dequeued ++ [t],
                                    worker := update s.worker i (.signal t) } = .rest := by
      simp [State.phase, hown hh, WorkerPc.phase]
    rw [hph]
    constructor
    · simp only [hsz]
      exact htl
    · simp only [State.tasks, State.ring, hsz] at htk ⊢
      rw [htk]
      simp
  | _ =>
    refine hI.frame rfl rfl rfl rfl rfl rfl ?_
    grind [State.phase, WorkerPc.phase, WorkerPc.holds]

/-- A store into the cell at the tail, which is free, leaves the ring as it is. -/
theorem RingInv.store {s s' : State n} (hI : RingInv cap s) (hL : LockInv s) {j : ℕ}
    (hj : (s.submitter j).holds) (hp : (s.submitter j).phase = .rest) (hlt : s.queue_size < cap)
    {x : Task} (hq : s'.queue = update s.queue s.queue_tail x)
    (hsz : s'.queue_size = s.queue_size) (hh : s'.queue_head = s.queue_head)
    (ht : s'.queue_tail = s.queue_tail) (ha : s'.accepted = s.accepted)
    (hd : s'.dequeued = s.dequeued) (hp' : s'.phase = .rest) : RingInv cap s' := by
  obtain ⟨h₁, h₂, h₃, h₄, h₅⟩ := hI
  rw [phase_of_submitter hL hj, hp] at h₅
  obtain ⟨htl, htk⟩ := h₅
  refine ⟨hh ▸ h₁, ht ▸ h₂, hsz ▸ h₃, hsz ▸ h₄, ?_⟩
  rw [hp']
  refine ⟨by rw [ht, hh, hsz, htl], ?_⟩
  simp only [State.tasks, State.ring] at htk ⊢
  rw [ha, hd, hsz, hh, hq, htk, htl, Ring.window_update (by omega)]

theorem ringInv_submit {j : ℕ} {s s' : State n} (h : SubmitStep cap j s s') (hL : LockInv s)
    (hK : KnowInv cap s) (hI : RingInv cap s) : RingInv cap s' := by
  have hown := hL.submitter j
  have hj := hK.submitter j
  cases h with
  | signal hpc _ hw =>
    refine hI.frame rfl rfl rfl rfl rfl rfl ?_
    have := hown (by simp [hpc, SubmitPc.holds])
    simp [State.phase, this, hpc, SubmitPc.phase]
  | crash hpc hbad =>
    refine hI.frame rfl rfl rfl rfl rfl rfl ?_
    have hpast : s.destroyer.past := by
      cases hd : s.destroyer <;> simp_all [DestroyPc.usable, DestroyPc.mutexGone, DestroyPc.past]
    have hph : (s.submitter j).phase = .rest := by
      cases hp : s.submitter j with
      | incSize t =>
        -- a submitter that is let in keeps the destroyer from raising `shutdown`
        rw [hp] at hj
        have := hK.destroyer hpast
        exact absurd hj.1 (by simp [this])
      | _ => rfl
    have hsame : ∀ k, (update s.submitter j .crashed k).phase = (s.submitter k).phase := by
      intro k
      by_cases hk : k = j
      · subst hk; rw [update_self, hph]; rfl
      · rw [update_of_ne hk]
    simp only [State.phase, hsame]
  | @storeFunc t hpc =>
    have hh : (s.submitter j).holds := by rw [hpc]; rfl
    rw [hpc] at hj
    refine hI.store hL hh (by rw [hpc]; rfl) hj.2 rfl rfl rfl rfl rfl rfl ?_
    simp [State.phase, hown hh, SubmitPc.phase]
  | @storeArg t hpc =>
    have hh : (s.submitter j).holds := by rw [hpc]; rfl
    rw [hpc] at hj
    refine hI.store hL hh (by rw [hpc]; rfl) hj.2.1 rfl rfl rfl rfl rfl rfl ?_
    simp [State.phase, hown hh, SubmitPc.phase]
  | @advTail t hpc =>
    have hh : (s.submitter j).holds := by rw [hpc]; rfl
    obtain ⟨h₁, h₂, h₃, h₄, h₅⟩ := hI
    rw [phase_of_submitter hL hh, hpc] at h₅
    rw [hpc] at hj
    obtain ⟨htl, htk⟩ := h₅
    have hph : State.phase { s with queue_tail := (s.queue_tail + 1) % cap,
                                    submitter := update s.submitter j (.incSize t) } = .inc t := by
      simp [State.phase, hown hh, SubmitPc.phase]
    refine ⟨h₁, Nat.mod_lt _ (by omega), h₃, h₄, ?_⟩
    rw [hph]
    refine ⟨hj.2.1, ?_, ?_, htk⟩
    · simp only [htl, Nat.mod_add_mod]
    · simp only [← htl, hj.2.2]
  | @incSize t hpc =>
    have hh : (s.submitter j).holds := by rw [hpc]; rfl
    obtain ⟨h₁, h₂, h₃, h₄, h₅⟩ := hI
    rw [phase_of_submitter hL hh, hpc] at h₅
    obtain ⟨hlt, htl, hcell, htk⟩ := h₅
    have hsz : (s.queue_size + 1).toNat = s.queue_size.toNat + 1 := by omega
    have hph : State.phase { s with queue_size := s.queue_size + 1,
                                    accepted := s.accepted ++ [⟨j, s.calls j, t⟩],
                                    submitter := update s.submitter j .signal } = .rest := by
      simp [State.phase, hown hh, SubmitPc.phase]
    refine ⟨h₁, h₂, by simp only; omega, by simp only; omega, ?_⟩
    rw [hph]
    constructor
    · simp only [hsz, htl, Nat.add_assoc]
    · simp only [State.tasks, State.ring, hsz] at htk ⊢
      rw [List.map_append, htk, Ring.window_succ, hcell]
      simp
  | _ =>
    refine hI.frame rfl rfl rfl rfl rfl rfl ?_
    grind [State.phase, SubmitPc.phase, SubmitPc.holds]

theorem ringInv_destroy {s s' : State n} (h : DestroyStep s s') (hL : LockInv s)
    (hI : RingInv cap s) : RingInv cap s' := by
  have hown := hL.destroyer
  cases h with
  | bcastFull hpc =>
    refine hI.frame rfl rfl rfl rfl rfl rfl ?_
    simp [State.phase, hown (by rw [hpc]; rfl)]
  | bcastEmpty hpc =>
    refine hI.frame rfl rfl rfl rfl rfl rfl ?_
    simp [State.phase, hown (by rw [hpc]; rfl)]
  | _ =>
    refine hI.frame rfl rfl rfl rfl rfl rfl ?_
    grind [State.phase, DestroyPc.holds]

/-- **What holds in every state of the pool.** -/
structure Inv (cap : ℕ) (s : State n) : Prop where
  /-- Mutual exclusion. -/
  lock : LockInv s
  /-- The ring. -/
  ring : RingInv cap s
  /-- What the threads know. -/
  know : KnowInv cap s

theorem inv_step {s s' : State n} (h : Step cap s s') (hI : Inv cap s) : Inv cap s' := by
  obtain ⟨hL, hR, hK⟩ := hI
  cases h with
  | worker i h => exact ⟨lockInv_worker h hL, ringInv_worker h hL hK hR, knowInv_worker h hL hR hK⟩
  | submitter j h => exact ⟨lockInv_submit h hL, ringInv_submit h hL hK hR, knowInv_submit h hL hR hK⟩
  | destroyer h => exact ⟨lockInv_destroy h hL, ringInv_destroy h hL hR, knowInv_destroy h hL hK⟩

theorem inv_init (hcap : 0 < cap) (q : ℕ → Task) : Inv cap (init n q) :=
  ⟨lockInv_init q, ringInv_init hcap q, knowInv_init q⟩

end SdeSystems.Pool
