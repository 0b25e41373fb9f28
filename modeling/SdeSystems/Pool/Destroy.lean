import SdeSystems.Pool.Accounting
import SdeSystems.Pool.Wakeups

/-!
# Destroy and the submits it finds blocked

`threadpool_destroy` wakes the submits that are blocked on a full queue and then joins the
workers, and only the workers. A woken submit must still take the mutex, so it is left behind
whenever the workers drain the queue and leave before it does: from every state in which a
submit is blocked there is such an interleaving (`exists_left_behind`). A blocked submit that does
return has returned `-1` and added nothing, or `0` and its task is executed, in every interleaving
(`blocked_answered`).
-/

namespace SdeSystems.Pool

open Function Relation Lib

variable {n : ℕ} {cap : ℕ}

/-- The submit is blocked on a full queue. -/
def State.Blocked (s : State n) (j : ℕ) : Prop := ∃ t, s.submitter j = .asleep t

/-- A condition variable, the mutex or memory of the pool is gone. -/
def DestroyPc.gone : DestroyPc → Bool
  | .condEmpty | .mutex | .freeThreads | .freeQueue | .freePool | .returned => true
  | _ => false

/-- A submit of task `t` that was blocked in `s₀` has returned `-1` and added nothing, or `0` and its task is executed
by the end of `threadpool_destroy`, if it has returned. -/
def Answered (s₀ s : State n) (j : ℕ) (t : Task) : Prop := s.submitter j = .idle →
  ⟨j, s₀.calls j, -1⟩ ∈ s.returned ∧ entries s.accepted j (s₀.calls j) = [] ∨
  ⟨j, s₀.calls j, 0⟩ ∈ s.returned ∧ entries s.accepted j (s₀.calls j) = [⟨j, s₀.calls j, t⟩] ∧
    (s.destroyer = .returned → t ∈ s.executed)

/-- `threadpool_destroy` outlives a submit of task `t` that was blocked in `s₀`. -/
structure Outlived (s₀ s : State n) (j : ℕ) (t : Task) : Prop where
  /-- Nothing is destroyed or freed while its call has a step to take. -/
  kept : s.destroyer.gone → s.submitter j = .idle
  /-- What it returned. -/
  value : Answered s₀ s j t

/-- The state when `threadpool_destroy` is called. -/
def State.destroyCall (s : State n) : State n := { s with destroyer := .lock }

/-! ### A submit along a run -/

/-- The task of a submit that has not enqueued yet. -/
def SubmitPc.task : SubmitPc → Option Task
  | .lock t | .test t | .asleep t | .woken t | .check t | .storeFunc t | .storeArg t | .advTail t | .incSize t => some t
  | _ => none

/-- Call `c` of submitter `j`, for the task `t`, after `threadpool_destroy` has begun. -/
structure Follows (j c : ℕ) (t : Task) (s : State n) : Prop where
  /-- No other call starts. -/
  begun : s.destroyer ≠ .idle
  /-- The call. -/
  call : s.calls j = c
  /-- Its task, until it has enqueued. -/
  task : ∀ t', (s.submitter j).task = some t' → t' = t
  /-- It has enqueued its task. -/
  enqueued : (s.submitter j).enqueued → ⟨j, c, t⟩ ∈ s.accepted
  /-- It has returned. -/
  ended : s.submitter j = .idle → ⟨j, c, -1⟩ ∈ s.returned ∨ ⟨j, c, 0⟩ ∈ s.returned ∧ ⟨j, c, t⟩ ∈ s.accepted

section

variable {s s' : State n} {j c : ℕ} {t : Task}

/-- Another thread moves; the submit may be woken. -/
theorem Follows.frame (h : Follows j c t s) (hd : s'.destroyer ≠ .idle) (hc : s'.calls j = s.calls j)
    (ha : ∀ e ∈ s.accepted, e ∈ s'.accepted) (hr : ∀ r ∈ s.returned, r ∈ s'.returned)
    (hs : s'.submitter j = s.submitter j ∨ ∃ t, s.submitter j = .asleep t ∧ s'.submitter j = .woken t) :
    Follows j c t s' := by
  rcases hs with hs | ⟨t', hs, hs'⟩
  · refine ⟨hd, hc.trans h.call, fun t' ht' => h.task t' (hs ▸ ht'), fun he => ha _ (h.enqueued (hs ▸ he)), ?_⟩
    intro hi
    rcases h.ended (hs ▸ hi) with hm | ⟨hz, hm⟩
    · exact .inl (hr _ hm)
    · exact .inr ⟨hr _ hz, ha _ hm⟩
  · have htask := h.task t' (by rw [hs]; rfl)
    subst htask
    refine ⟨hd, hc.trans h.call, ?_, ?_, ?_⟩
    · rw [hs']
      simp [SubmitPc.task]
    · rw [hs']
      simp [SubmitPc.enqueued]
    · rw [hs']
      simp

theorem Follows.submit (h : Follows j c t s) {k : ℕ} (hs : SubmitStep cap k s s') : Follows j c t s' := by
  by_cases hk : j = k
  · subst hk
    obtain ⟨hd, rfl, htask, henq, hend⟩ := h
    cases hs with
    | call t hpc hidle => exact absurd hidle hd
    | _ => 
      constructor <;> simp_all [SubmitPc.task, SubmitPc.enqueued]
  · cases hs with
    | call t hpc hidle => exact absurd hidle h.begun
    | incSize hpc => exact h.frame h.begun rfl (fun e he => by simp [he]) (fun _ => id) (.inl (by simp [hk]))
    | refuse hpc => exact h.frame h.begun rfl (fun _ => id) (fun r hr => by simp [hr]) (.inl (by simp [hk]))
    | done hpc => exact h.frame h.begun rfl (fun _ => id) (fun r hr => by simp [hr]) (.inl (by simp [hk]))
    | _ => exact h.frame h.begun rfl (fun _ => id) (fun _ => id) (.inl (by simp [hk]))

theorem Follows.step (h : Follows j c t s) (hs : Step cap s s') : Follows j c t s' := by
  cases hs with
  | worker i hs =>
    cases hs with
    | signal hpc hu => exact h.frame h.begun rfl (fun _ => id) (fun _ => id) (hu.cases j)
    | _ => exact h.frame h.begun rfl (fun _ => id) (fun _ => id) (.inl rfl)
  | submitter k hs => exact h.submit hs
  | destroyer hs =>
    cases hs with
    | bcastFull hpc => exact h.frame (by simp) rfl (fun _ => id) (fun _ => id) (s.submitter j).wake_cases
    | _ => exact h.frame (by simp) rfl (fun _ => id) (fun _ => id) (.inl rfl)

end

/-! ### What a blocked submit returns -/

section

variable {q : ℕ → Task} {s₀ s : State n} {j : ℕ} {t : Task}

/-- What a submit that has returned has done. -/
theorem Follows.value {c : ℕ} (hn : 1 ≤ n) (hI : FullInv cap s) (h : Follows j c t s) (hi : s.submitter j = .idle) :
    ⟨j, c, -1⟩ ∈ s.returned ∧ entries s.accepted j c = [] ∨
    ⟨j, c, 0⟩ ∈ s.returned ∧ entries s.accepted j c = [⟨j, c, t⟩] ∧ (s.destroyer = .returned → t ∈ s.executed) := by
  rcases h.ended hi with hr | ⟨hr, ha⟩
  · rcases hI.call.ret _ hr with ⟨-, he⟩ | ⟨hv, -⟩
    · exact .inl ⟨hr, he⟩
    · simp at hv
  · rcases hI.call.ret _ hr with ⟨hv, -⟩ | ⟨-, hlen⟩
    · simp at hv
    · obtain ⟨e, he⟩ := List.length_eq_one_iff.mp hlen
      have hmem : (⟨j, c, t⟩ : Entry) ∈ entries s.accepted j c := by
        simp [entries, ha]
      dsimp only at he
      rw [he, List.mem_singleton] at hmem
      refine .inr ⟨hr, hmem ▸ he, ?_⟩
      intro hd
      exact (executed_perm hn hI hd).mem_iff.mpr (List.mem_map.mpr ⟨_, ha, rfl⟩)

/-- A blocked submit that has returned has returned what it should, in every run. -/
theorem blocked_answered (hn : 1 ≤ n) (hcap : 1 ≤ cap) (h₀ : Reach cap q s₀) (hd : s₀.destroyer = .idle)
    (hj : s₀.submitter j = .asleep t) (hrun : ReflTransGen (Step cap) s₀.destroyCall s) : Answered s₀ s j t := by
  have hstart : Follows j (s₀.calls j) t s₀.destroyCall := by
    refine ⟨by simp [State.destroyCall], rfl, ?_, ?_, ?_⟩
    · simp [State.destroyCall, hj, SubmitPc.task]
    · simp [State.destroyCall, hj, SubmitPc.enqueued]
    · simp [State.destroyCall, hj]
  have hreach : Reach cap q s₀.destroyCall := h₀.tail (.destroyer (.call hd))
  have hfollows : Follows j (s₀.calls j) t s := run_inv (fun _ _ hs hf => hf.step hs) hrun hstart
  exact hfollows.value hn (fullInv_reach hcap (hreach.trans hrun))

end

/-! ### A submit is left behind -/

/-- While the pool is not shut down, the thread that has the mutex is in a critical section. -/
def OwnerInv (s : State n) : Prop := s.shutdown = false → ∀ t, s.owner = some t → s.holds t = true

/-- What a thread may do about the mutex. -/
theorem OwnerInv.move {s s' : State n} (hI : OwnerInv s) (t : Tid n) (hother : ∀ u ≠ t, s'.holds u = s.holds u)
    (hsh : s'.shutdown = false → s.shutdown = false)
    (h : s'.shutdown = false → (s'.owner = s.owner ∧ (s.holds t = true → s'.holds t = true)) ∨ s'.owner = none ∨
      s'.owner = some t ∧ s'.holds t = true) : OwnerInv s' := by
  intro hs u hu
  rcases h hs with ⟨ho, hh⟩ | ho | ⟨ho, hh⟩
  · have hold := hI (hsh hs) u (ho ▸ hu)
    by_cases hut : u = t
    · subst hut
      exact hh hold
    · exact (hother u hut).trans hold
  · simp [ho] at hu
  · obtain rfl := Option.some.inj (ho.symm.trans hu)
    exact hh

theorem ownerInv_step {s s' : State n} (h : Step cap s s') (hI : OwnerInv s) (hW : WakeInv cap s) : OwnerInv s' := by
  cases h with
  | worker i h =>
    refine hI.move (.worker i) ?_ ?_ ?_
    · cases h with
      | signal hpc hu => exact holds_of_worker rfl hu.holds rfl
      | _ => exact holds_of_worker rfl (fun _ => rfl) rfl
    · cases h <;> exact id
    · cases h <;> simp_all [State.holds, WorkerPc.holds]
  | submitter j h =>
    refine hI.move (.submitter j) ?_ ?_ ?_
    · cases h with
      | signal hpc _ hw => exact holds_of_submitter rfl hw.holds rfl
      | _ => exact holds_of_submitter rfl (fun _ => rfl) rfl
    · cases h <;> exact id
    · cases h with
      | crash hpc hbad => exact fun hsh => absurd (hW.past_of_not_usable hbad) (by simp [show s.shutdown = false from hsh])
      | _ => simp_all [State.holds, SubmitPc.holds]
  | destroyer h =>
    refine hI.move .destroyer ?_ ?_ ?_
    · cases h with
      | bcastEmpty hpc => exact holds_of_destroyer (fun i => holds_wake_worker _) fun _ => rfl
      | bcastFull hpc => exact holds_of_destroyer (fun _ => rfl) fun j => holds_wake_submit _
      | _ => exact holds_of_destroyer (fun _ => rfl) fun _ => rfl
    · cases h with
      | setShutdown hpc => simp
      | _ => exact id
    · cases h <;> simp_all [State.holds, DestroyPc.holds]

theorem ownerInv_reach {q : ℕ → Task} {s : State n} (h : Reach cap q s) : OwnerInv s := by
  have hinit : OwnerInv (init n q) := by
    intro _ t ht
    simp [init] at ht
  exact (run_inv_of_inv (J := fun s => LockInv s ∧ WakeInv cap s) (I := OwnerInv)
    (fun _ _ hs hI => ⟨lockInv_step hs hI.1, wakeInv_step hs hI.2⟩) (fun _ _ hs hJ hI => ownerInv_step hs hI hJ.2) h
    ⟨lockInv_init q, wakeInv_init q⟩ hinit).2

/-- The submit is in `pthread_cond_wait`. -/
def SubmitPc.Waiting (t : Task) (pc : SubmitPc) : Prop := pc = .asleep t ∨ pc = .woken t

/-- The destroyer is where it was, and no submit has come out of `pthread_cond_wait`. -/
structure Stays (s s' : State n) : Prop where
  /-- The destroyer. -/
  destroyer : s'.destroyer = s.destroyer
  /-- `shutdown`. -/
  shutdown : s'.shutdown = s.shutdown
  /-- The submits. -/
  waiting : ∀ j t, (s.submitter j).Waiting t → (s'.submitter j).Waiting t

theorem Stays.refl (s : State n) : Stays s s := ⟨rfl, rfl, fun _ _ => id⟩

theorem Stays.trans {s s' s'' : State n} (h : Stays s s') (h' : Stays s' s'') : Stays s s'' :=
  ⟨h'.destroyer.trans h.destroyer, h'.shutdown.trans h.shutdown, fun j t hj => h'.waiting j t (h.waiting j t hj)⟩

/-- How far a worker is from giving up the mutex. -/
def WorkerPc.rank : WorkerPc → ℕ
  | .test => 7
  | .leave => 6
  | .fetch => 5
  | .advHead _ => 4
  | .decSize _ => 3
  | .signal _ => 2
  | _ => 1

/-- How far a submitter is from giving up the mutex. -/
def SubmitPc.rank : SubmitPc → ℕ
  | .test _ => 8
  | .check _ => 7
  | .storeFunc _ => 6
  | .storeArg _ => 5
  | .advTail _ => 4
  | .incSize _ => 3
  | .signal => 2
  | _ => 1

theorem exists_signalFull (u : ℕ → SubmitPc) : ∃ u', SignalFull u u' := by
  by_cases h : ∃ j t, u j = .asleep t
  · obtain ⟨j, t, hj⟩ := h
    exact ⟨_, .inl ⟨j, t, hj, rfl⟩⟩
  · exact ⟨u, .inr ⟨fun j t hj => h ⟨j, t, hj⟩, rfl⟩⟩

theorem exists_signalEmpty (w : Fin n → WorkerPc) : ∃ w', SignalEmpty w w' := by
  by_cases h : ∃ i, w i = .asleep
  · obtain ⟨i, hi⟩ := h
    exact ⟨_, .inl ⟨i, hi, rfl⟩⟩
  · exact ⟨w, .inr ⟨fun i hi => h ⟨i, hi⟩, rfl⟩⟩

section

variable {s : State n}

/-- A worker in a critical section has a step, and it comes closer to the unlock. -/
theorem worker_next {i : Fin n} (h : (s.worker i).holds) : ∃ s', WorkerStep cap i s s' ∧ Stays s s' ∧
    (s'.owner = none ∨ (s'.worker i).holds ∧ (s'.worker i).rank < (s.worker i).rank) := by
  have hstays (s' : State n) (hd : s'.destroyer = s.destroyer) (hsh : s'.shutdown = s.shutdown)
      (hs : s'.submitter = s.submitter) : Stays s s' := ⟨hd, hsh, fun j t => hs ▸ id⟩
  cases hpc : s.worker i with
  | test =>
    by_cases hc : s.queue_size = 0 ∧ s.shutdown = false
    · exact ⟨_, .wait hpc hc, hstays _ rfl rfl rfl, .inl rfl⟩
    · exact ⟨_, .ready hpc hc, hstays _ rfl rfl rfl, .inr (by simp [WorkerPc.holds, WorkerPc.rank])⟩
  | leave =>
    by_cases hc : s.queue_size = 0 ∧ s.shutdown = true
    · exact ⟨_, .leave hpc hc, hstays _ rfl rfl rfl, .inr (by simp [WorkerPc.holds, WorkerPc.rank])⟩
    · exact ⟨_, .stay hpc hc, hstays _ rfl rfl rfl, .inr (by simp [WorkerPc.holds, WorkerPc.rank])⟩
  | unlockExit => exact ⟨_, .exit hpc, hstays _ rfl rfl rfl, .inl rfl⟩
  | fetch => exact ⟨_, .fetch hpc, hstays _ rfl rfl rfl, .inr (by simp [WorkerPc.holds, WorkerPc.rank])⟩
  | advHead t => exact ⟨_, .advHead hpc, hstays _ rfl rfl rfl, .inr (by simp [WorkerPc.holds, WorkerPc.rank])⟩
  | decSize t => exact ⟨_, .decSize hpc, hstays _ rfl rfl rfl, .inr (by simp [WorkerPc.holds, WorkerPc.rank])⟩
  | signal t =>
    obtain ⟨u, hu⟩ := exists_signalFull s.submitter
    refine ⟨_, .signal hpc hu, ⟨rfl, rfl, ?_⟩, .inr (by simp [WorkerPc.holds, WorkerPc.rank])⟩
    intro j t hj
    change (u j).Waiting t
    rcases hu.cases j with heq | ⟨t', hs, hs'⟩
    · rwa [heq]
    · simp_all [SubmitPc.Waiting]
  | unlock t => exact ⟨_, .unlock hpc, hstays _ rfl rfl rfl, .inl rfl⟩
  | _ => simp [hpc, WorkerPc.holds] at h

/-- A submitter in its critical section has a step, and it comes closer to the unlock. -/
theorem submit_next {k : ℕ} (h : (s.submitter k).holds) (hok : ∀ pc, s.destroyer.usable pc) :
    ∃ s', SubmitStep cap k s s' ∧ Stays s s' ∧
      (s'.owner = none ∨ (s'.submitter k).holds ∧ (s'.submitter k).rank < (s.submitter k).rank) := by
  have hstays (s' : State n) {pc : SubmitPc} (hd : s'.destroyer = s.destroyer) (hsh : s'.shutdown = s.shutdown)
      (hs : s'.submitter = update s.submitter k pc) : Stays s s' := by
    refine ⟨hd, hsh, ?_⟩
    intro j t hj
    have hjk : j ≠ k := by
      rintro rfl
      rcases hj with hj | hj <;> simp [hj, SubmitPc.holds] at h
    simpa [hs, hjk] using hj
  cases hpc : s.submitter k with
  | test t =>
    by_cases hc : s.queue_size = cap ∧ s.shutdown = false
    · exact ⟨_, .wait hpc (hok _) hc, hstays _ rfl rfl rfl, .inl rfl⟩
    · exact ⟨_, .ready hpc (hok _) hc, hstays _ rfl rfl rfl, .inr (by simp [SubmitPc.holds, SubmitPc.rank])⟩
  | check t =>
    cases hc : s.shutdown with
    | true => exact ⟨_, .bail hpc (hok _) hc, hstays _ rfl rfl rfl, .inr (by simp [SubmitPc.holds, SubmitPc.rank])⟩
    | false => exact ⟨_, .accept hpc (hok _) hc, hstays _ rfl rfl rfl, .inr (by simp [SubmitPc.holds, SubmitPc.rank])⟩
  | bail => exact ⟨_, .refuse hpc (hok _), hstays _ rfl rfl rfl, .inl rfl⟩
  | storeFunc t =>
    exact ⟨_, .storeFunc hpc (hok _), hstays _ rfl rfl rfl, .inr (by simp [SubmitPc.holds, SubmitPc.rank])⟩
  | storeArg t =>
    exact ⟨_, .storeArg hpc (hok _), hstays _ rfl rfl rfl, .inr (by simp [SubmitPc.holds, SubmitPc.rank])⟩
  | advTail t => exact ⟨_, .advTail hpc (hok _), hstays _ rfl rfl rfl, .inr (by simp [SubmitPc.holds, SubmitPc.rank])⟩
  | incSize t => exact ⟨_, .incSize hpc (hok _), hstays _ rfl rfl rfl, .inr (by simp [SubmitPc.holds, SubmitPc.rank])⟩
  | signal =>
    obtain ⟨w, hw⟩ := exists_signalEmpty s.worker
    exact ⟨_, .signal hpc (hok _) hw, hstays _ rfl rfl rfl, .inr (by simp [SubmitPc.holds, SubmitPc.rank])⟩
  | unlock => exact ⟨_, .done hpc (hok _), hstays _ rfl rfl rfl, .inl rfl⟩
  | _ => simp [hpc, SubmitPc.holds] at h

theorem worker_unlocks {i : Fin n} (h : (s.worker i).holds) :
    ∃ s', ReflTransGen (Step cap) s s' ∧ Stays s s' ∧ s'.owner = none := by
  induction hr : (s.worker i).rank using Nat.strong_induction_on generalizing s with
  | _ r ih =>
    obtain ⟨s₁, hs, hst, hfree | ⟨hh, hlt⟩⟩ : ∃ s', WorkerStep cap i s s' ∧ _ := worker_next h
    · exact ⟨s₁, .single (.worker i hs), hst, hfree⟩
    · obtain ⟨s', hrun, hst', hfree⟩ := ih _ (hr ▸ hlt) hh rfl
      exact ⟨s', .head (.worker i hs) hrun, hst.trans hst', hfree⟩

theorem submit_unlocks {k : ℕ} (h : (s.submitter k).holds) (hd : s.destroyer = .lock) :
    ∃ s', ReflTransGen (Step cap) s s' ∧ Stays s s' ∧ s'.owner = none := by
  induction hr : (s.submitter k).rank using Nat.strong_induction_on generalizing s with
  | _ r ih =>
    have hok (pc : SubmitPc) : s.destroyer.usable pc := by
      simp [hd, DestroyPc.usable, DestroyPc.mutexGone]
    obtain ⟨s₁, hs, hst, hfree | ⟨hh, hlt⟩⟩ : ∃ s', SubmitStep cap k s s' ∧ _ := submit_next h hok
    · exact ⟨s₁, .single (.submitter k hs), hst, hfree⟩
    · obtain ⟨s', hrun, hst', hfree⟩ := ih _ (hr ▸ hlt) hh (hst.destroyer.trans hd) rfl
      exact ⟨s', .head (.submitter k hs) hrun, hst.trans hst', hfree⟩

/-- The mutex becomes free while the destroyer waits for it. -/
theorem exists_unlocked {q : ℕ → Task} (h : Reach cap q s) (hd : s.destroyer = .lock) :
    ∃ s', ReflTransGen (Step cap) s s' ∧ Stays s s' ∧ s'.owner = none := by
  cases ho : s.owner with
  | none => exact ⟨s, .refl, .refl s, ho⟩
  | some t =>
    have hsh : s.shutdown = false := by
      rw [(wakeInv_reach h).2.past, hd]
      rfl
    have hh := ownerInv_reach h hsh t ho
    cases t with
    | worker i => exact worker_unlocks hh
    | submitter k => exact submit_unlocks hh hd
    | destroyer => simp [State.holds, hd, DestroyPc.holds] at hh

/-! ### The workers leave -/

/-- How much a worker has to do in a pool that is shut down. -/
def WorkerPc.work : WorkerPc → ℕ
  | .signal _ => 14
  | .unlock _ => 13
  | .run _ => 12
  | .lock | .woken => 11
  | .test => 10
  | .leave => 9
  | .fetch => 8
  | .advHead _ => 7
  | .decSize _ => 6
  | .unlockExit => 5
  | .asleep | .exited => 0

/-- The pool is shut down, no thread is asleep, and worker `i` alone runs. -/
structure Alone (i : Fin n) (s : State n) : Prop where
  /-- `shutdown`. -/
  shutdown : s.shutdown = true
  /-- The worker is awake. -/
  awake : s.worker i ≠ .asleep
  /-- So are the submitters. -/
  submitters : ∀ j t, s.submitter j ≠ .asleep t
  /-- Nobody else has the mutex. -/
  owner : s.owner = if (s.worker i).holds then some (.worker i) else none

/-- Only worker `i` and the ring have changed. -/
structure OnlyWorker (i : Fin n) (s s' : State n) : Prop where
  /-- The submitters. -/
  submitter : s'.submitter = s.submitter
  /-- The destroyer. -/
  destroyer : s'.destroyer = s.destroyer
  /-- The other workers. -/
  worker : ∀ k ≠ i, s'.worker k = s.worker k

/-- A worker that is alone has a step until it has left, and there is less to do. -/
theorem alone_next (hI : Inv cap s) {i : Fin n} (h : Alone i s) (hx : s.worker i ≠ .exited) :
    ∃ s', WorkerStep cap i s s' ∧ Alone i s' ∧ OnlyWorker i s s' ∧
      20 * s'.queue_size.toNat + (s'.worker i).work < 20 * s.queue_size.toNat + (s.worker i).work := by
  have honly (s' : State n) {pc : WorkerPc} (hs : s'.submitter = s.submitter) (hd : s'.destroyer = s.destroyer)
      (hw : s'.worker = update s.worker i pc) : OnlyWorker i s s' :=
    ⟨hs, hd, fun k hk => by rw [hw, update_of_ne hk]⟩
  have hknow := hI.know.worker i
  obtain ⟨hsh, haw, hsub, ho⟩ := h
  cases hpc : s.worker i with
  | lock =>
    refine ⟨_, .lock hpc (by simpa [hpc, WorkerPc.holds] using ho), ⟨hsh, by simp, hsub, ?_⟩, honly _ rfl rfl rfl, ?_⟩
    · simp [WorkerPc.holds]
    · simp [WorkerPc.work]
  | test =>
    refine ⟨_, .ready hpc (by simp [hsh]), ⟨hsh, by simp, hsub, ?_⟩, honly _ rfl rfl rfl, ?_⟩
    · simpa [hpc, WorkerPc.holds] using ho
    · simp [WorkerPc.work]
  | asleep => exact absurd hpc haw
  | woken =>
    refine ⟨_, .relock hpc (by simpa [hpc, WorkerPc.holds] using ho), ⟨hsh, by simp, hsub, ?_⟩, honly _ rfl rfl rfl, ?_⟩
    · simp [WorkerPc.holds]
    · simp [WorkerPc.work]
  | leave =>
    by_cases hc : s.queue_size = 0 ∧ s.shutdown = true
    · refine ⟨_, .leave hpc hc, ⟨hsh, by simp, hsub, ?_⟩, honly _ rfl rfl rfl, ?_⟩
      · simpa [hpc, WorkerPc.holds] using ho
      · simp [WorkerPc.work]
    · refine ⟨_, .stay hpc hc, ⟨hsh, by simp, hsub, ?_⟩, honly _ rfl rfl rfl, ?_⟩
      · simpa [hpc, WorkerPc.holds] using ho
      · simp [WorkerPc.work]
  | unlockExit =>
    refine ⟨_, .exit hpc, ⟨hsh, by simp, hsub, ?_⟩, honly _ rfl rfl rfl, ?_⟩
    · simp [WorkerPc.holds]
    · simp [WorkerPc.work]
  | exited => exact absurd hpc hx
  | fetch =>
    refine ⟨_, .fetch hpc, ⟨hsh, by simp, hsub, ?_⟩, honly _ rfl rfl rfl, ?_⟩
    · simpa [hpc, WorkerPc.holds] using ho
    · simp [WorkerPc.work]
  | advHead t =>
    refine ⟨_, .advHead hpc, ⟨hsh, by simp, hsub, ?_⟩, honly _ rfl rfl rfl, ?_⟩
    · simpa [hpc, WorkerPc.holds] using ho
    · simp [WorkerPc.work]
  | decSize t =>
    rw [hpc] at hknow
    refine ⟨_, .decSize hpc, ⟨hsh, by simp, hsub, ?_⟩, honly _ rfl rfl rfl, ?_⟩
    · simpa [hpc, WorkerPc.holds] using ho
    · simp only [WorkerPc.Know] at hknow
      simp only [update_self, WorkerPc.work]
      omega
  | signal t =>
    refine ⟨_, .signal hpc (.inr ⟨hsub, rfl⟩), ⟨hsh, by simp, hsub, ?_⟩, honly _ rfl rfl rfl, ?_⟩
    · simpa [hpc, WorkerPc.holds] using ho
    · simp [WorkerPc.work]
  | unlock t =>
    refine ⟨_, .unlock hpc, ⟨hsh, by simp, hsub, ?_⟩, honly _ rfl rfl rfl, ?_⟩
    · simp [WorkerPc.holds]
    · simp [WorkerPc.work]
  | run t =>
    refine ⟨_, .run hpc, ⟨hsh, by simp, hsub, ?_⟩, honly _ rfl rfl rfl, ?_⟩
    · simpa [hpc, WorkerPc.holds] using ho
    · simp [WorkerPc.work]

/-- A worker that is alone empties the ring and leaves. -/
theorem alone_leaves (hI : Inv cap s) {i : Fin n} (h : Alone i s) :
    ∃ s', ReflTransGen (Step cap) s s' ∧ OnlyWorker i s s' ∧ Alone i s' ∧ s'.worker i = .exited := by
  induction hm : 20 * s.queue_size.toNat + (s.worker i).work using Nat.strong_induction_on generalizing s with
  | _ m ih =>
    by_cases hx : s.worker i = .exited
    · exact ⟨s, .refl, ⟨rfl, rfl, fun _ _ => rfl⟩, h, hx⟩
    · obtain ⟨s₁, hs, ha, ho, hlt⟩ := alone_next hI h hx
      obtain ⟨s', hrun, ho', ha', hx'⟩ := ih _ (hm ▸ hlt) (inv_step (.worker i hs) hI) ha rfl
      refine ⟨s', .head (.worker i hs) hrun, ⟨ho'.submitter.trans ho.submitter, ho'.destroyer.trans ho.destroyer, ?_⟩,
        ha', hx'⟩
      exact fun k hk => (ho'.worker k hk).trans (ho.worker k hk)

/-- The workers leave one after the other, and no submitter takes a step. -/
theorem workers_leave (hI : Inv cap s) (hsh : s.shutdown = true) (hw : ∀ i, s.worker i ≠ .asleep)
    (hsub : ∀ j t, s.submitter j ≠ .asleep t) (ho : s.owner = none) (m : ℕ) :
    ∃ s', ReflTransGen (Step cap) s s' ∧ s'.submitter = s.submitter ∧ s'.destroyer = s.destroyer ∧
      s'.shutdown = true ∧ s'.owner = none ∧ (∀ i, s'.worker i ≠ .asleep) ∧
      ∀ i : Fin n, i < m → s'.worker i = .exited := by
  induction m with
  | zero => exact ⟨s, .refl, rfl, rfl, hsh, ho, hw, fun i hi => absurd hi (by omega)⟩
  | succ m ih =>
    obtain ⟨s₁, hrun, hs₁, hd₁, hsh₁, ho₁, hw₁, hx₁⟩ := ih
    by_cases hm : m < n
    · have hI₁ : Inv cap s₁ := run_inv (fun _ _ hs hI => inv_step hs hI) hrun hI
      have hnot : (s₁.worker ⟨m, hm⟩).holds = false := by
        by_contra hh
        have := hI₁.lock.worker ⟨m, hm⟩ (by simpa using hh)
        simp [ho₁] at this
      have halone : Alone ⟨m, hm⟩ s₁ :=
        ⟨hsh₁, hw₁ _, fun j t => by rw [hs₁]; exact hsub j t, by simp [hnot, ho₁]⟩
      obtain ⟨s', hrun', hon, hal, hx⟩ := alone_leaves hI₁ halone
      have hall (i : Fin n) : s'.worker i = .exited ∨ s'.worker i = s₁.worker i := by
        by_cases hi : i = ⟨m, hm⟩
        · exact .inl (hi ▸ hx)
        · exact .inr (hon.worker i hi)
      refine ⟨s', hrun.trans hrun', hon.submitter.trans hs₁, hon.destroyer.trans hd₁, hal.shutdown, ?_, ?_, ?_⟩
      · simpa [hx, WorkerPc.holds] using hal.owner
      · intro i
        rcases hall i with h | h
        · simp [h]
        · exact h ▸ hw₁ i
      · intro i hi
        rcases hall i with h | h
        · exact h
        · by_cases him : (i : ℕ) < m
          · exact h.trans (hx₁ i him)
          · obtain rfl : i = ⟨m, hm⟩ := Fin.ext (by dsimp only; omega)
            exact hx
    · exact ⟨s₁, hrun, hs₁, hd₁, hsh₁, ho₁, hw₁, fun i _ => hx₁ i (by omega)⟩

/-- The destroyer joins the workers that have left. -/
theorem joins {k : ℕ} (hd : s.destroyer = .join k) (hx : ∀ i, s.worker i = .exited) :
    ReflTransGen (Step cap) s { s with destroyer := .condFull } := by
  induction hm : n - k generalizing s k with
  | zero => exact .single (.destroyer (.joined hd (by omega)))
  | succ m ih =>
    have hstep : Step cap s { s with destroyer := .join (k + 1) } :=
      .destroyer (.join hd (by omega) (hx _))
    exact .head hstep (ih (s := { s with destroyer := .join (k + 1) }) rfl hx (by omega))

/-- The destroyer cleans up and returns. -/
theorem cleans_up (hd : s.destroyer = .condFull) :
    ReflTransGen (Step cap) s { s with destroyer := .returned } := by
  have h₁ : Step cap s { s with destroyer := .condEmpty } := .destroyer (.condFull hd)
  have h₂ : Step cap { s with destroyer := .condEmpty } { s with destroyer := .mutex } := .destroyer (.condEmpty rfl)
  have h₃ : Step cap { s with destroyer := .mutex } { s with destroyer := .freeThreads } := .destroyer (.mutex rfl)
  have h₄ : Step cap { s with destroyer := .freeThreads } { s with destroyer := .freeQueue } :=
    .destroyer (.freeThreads rfl)
  have h₅ : Step cap { s with destroyer := .freeQueue } { s with destroyer := .freePool } := .destroyer (.freeQueue rfl)
  have h₆ : Step cap { s with destroyer := .freePool } { s with destroyer := .returned } := .destroyer (.freePool rfl)
  exact (((((ReflTransGen.single h₁).tail h₂).tail h₃).tail h₄).tail h₅).tail h₆

/-- The destroyer shuts the pool down and wakes everyone. -/
def State.shut (s : State n) : State n :=
  { s with shutdown := true, worker := fun i => (s.worker i).wake, submitter := fun j => (s.submitter j).wake,
           owner := none, destroyer := .join 0 }

theorem shuts_down (hd : s.destroyer = .lock) (ho : s.owner = none) : ReflTransGen (Step cap) s s.shut := by
  exact ReflTransGen.refl.tail (.destroyer (.lock hd ho))
    |>.tail (.destroyer (.setShutdown rfl))
    |>.tail (.destroyer (.bcastEmpty rfl))
    |>.tail (.destroyer (.bcastFull rfl))
    |>.tail (.destroyer (.unlock rfl))

/-- **A blocked submit can always be left behind.** The workers may drain the ring and leave
before the submit gets the mutex; the mutex is destroyed and the pool freed under it. -/
theorem exists_left_behind {q : ℕ → Task} {s₀ : State n} {j : ℕ} {t : Task} (hcap : 1 ≤ cap) (h₀ : Reach cap q s₀)
    (hd : s₀.destroyer = .idle) (hj : s₀.submitter j = .asleep t) :
    ∃ s, ReflTransGen (Step cap) s₀.destroyCall s ∧ s.destroyer = .returned ∧ s.submitter j = .crashed := by
  have hr₁ : Reach cap q s₀.destroyCall := h₀.tail (.destroyer (.call hd))
  obtain ⟨s₂, hrun₂, hst₂, ho₂⟩ := exists_unlocked hr₁ rfl
  have hd₂ : s₂.destroyer = .lock := hst₂.destroyer
  have hrun₃ : ReflTransGen (Step cap) s₂ s₂.shut := shuts_down hd₂ ho₂
  have hr₃ : Reach cap q s₂.shut := (hr₁.trans hrun₂).trans hrun₃
  have hj₃ : s₂.shut.submitter j = .woken t := by
    rcases hst₂.waiting j t (.inl hj) with h | h <;> simp [State.shut, h, SubmitPc.wake]
  have hI₃ := wakeInv_reach hr₃
  have hw₃ := hI₃.2.workers rfl (by simp [State.shut])
  have hs₃ := hI₃.2.submitters rfl (by simp [State.shut]) (by simp [State.shut])
  obtain ⟨s₄, hrun₄, hs₄, hd₄, -, ho₄, -, hx₄⟩ :=
    workers_leave (fullInv_reach hcap hr₃).inv rfl hw₃ hs₃ rfl n
  have hrun₅ : ReflTransGen (Step cap) s₄ { s₄ with destroyer := .condFull } := joins hd₄ fun i => hx₄ i i.isLt
  have hrun₆ : ReflTransGen (Step cap) { s₄ with destroyer := .condFull } { s₄ with destroyer := .returned } :=
    cleans_up rfl
  have hj₄ : s₄.submitter j = .woken t := by
    rw [hs₄, hj₃]
  have hcrash : Step cap { s₄ with destroyer := .returned }
      { s₄ with destroyer := .returned, submitter := update s₄.submitter j .crashed } :=
    .submitter j (.crash (by simp [hj₄, SubmitPc.active]) (by simp [hj₄, DestroyPc.usable]))
  refine ⟨_, (((hrun₂.trans hrun₃).trans hrun₄).trans (hrun₅.trans hrun₆)).tail hcrash, rfl, ?_⟩
  simp

end

/-- **Destroy and the submits it finds blocked.** In every run what a blocked submit returns is right, if it does
return. That nothing is destroyed or freed before it has returned holds over all interleavings exactly where no submit
is blocked when `threadpool_destroy` is called: the code does not wait for one. -/
theorem destroy_outlives_blocked {q : ℕ → Task} {s₀ : State n} (hn : 1 ≤ n) (hcap : 1 ≤ cap) (h₀ : Reach cap q s₀)
    (hd : s₀.destroyer = .idle) :
    (∀ s, ReflTransGen (Step cap) s₀.destroyCall s → ∀ j t, s₀.submitter j = .asleep t → Answered s₀ s j t) ∧
    ((∀ s, ReflTransGen (Step cap) s₀.destroyCall s → ∀ j t, s₀.submitter j = .asleep t → Outlived s₀ s j t) ↔
      ∀ j, ¬ s₀.Blocked j) := by
  refine ⟨fun s hrun j t hj => blocked_answered hn hcap h₀ hd hj hrun, fun h j ⟨t, hj⟩ => ?_, ?_⟩
  · obtain ⟨s, hrun, hret, hcr⟩ := exists_left_behind hcap h₀ hd hj
    have hidle := (h s hrun j t hj).kept (by simp [hret, DestroyPc.gone])
    simp [hcr] at hidle
  · intro h s _ j t hj
    exact absurd ⟨t, hj⟩ (h j)

/-- One worker that has not started, a ring of one cell with a task in it, and a submit that is
blocked. -/
theorem exists_blocked : ∃ s₀ : State 1, Reach 1 (fun _ => ⟨0, 0⟩) s₀ ∧ s₀.destroyer = .idle ∧
    s₀.submitter 1 = .asleep ⟨9, 9⟩ ∧ s₀.queue_size = 1 := by
  have h : Reach (n := 1) 1 (fun _ => ⟨0, 0⟩) _ :=
    ReflTransGen.refl.tail (.submitter 0 (.call ⟨7, 8⟩ rfl rfl))
      |>.tail (.submitter 0 (.lock rfl rfl rfl))
      |>.tail (.submitter 0 (.ready rfl rfl (by decide)))
      |>.tail (.submitter 0 (.accept rfl rfl rfl))
      |>.tail (.submitter 0 (.storeFunc rfl rfl))
      |>.tail (.submitter 0 (.storeArg rfl rfl))
      |>.tail (.submitter 0 (.advTail rfl rfl))
      |>.tail (.submitter 0 (.incSize rfl rfl))
      |>.tail (.submitter 0 (.signal rfl rfl (.inr ⟨by simp [init], rfl⟩)))
      |>.tail (.submitter 0 (.done rfl rfl))
      |>.tail (.submitter 1 (.call ⟨9, 9⟩ rfl rfl))
      |>.tail (.submitter 1 (.lock rfl rfl rfl))
      |>.tail (.submitter 1 (.wait rfl rfl ⟨rfl, rfl⟩))
  exact ⟨_, h, rfl, rfl, rfl⟩

theorem destroy_outlives_blocked_one : ∃ s₀ s : State 1, s₀.submitter 1 = .asleep ⟨9, 9⟩ ∧
    ReflTransGen (Step 1) s₀.destroyCall s ∧ s.destroyer = .returned ∧ Answered s₀ s 1 ⟨9, 9⟩ ∧
    ¬ ∀ s, ReflTransGen (Step 1) s₀.destroyCall s → ∀ j t, s₀.submitter j = .asleep t → Outlived s₀ s j t := by
  obtain ⟨s₀, h₀, hd, hj, -⟩ := exists_blocked
  obtain ⟨hanswered, hiff⟩ := destroy_outlives_blocked le_rfl le_rfl h₀ hd
  obtain ⟨s, hrun, hret, -⟩ := exists_left_behind le_rfl h₀ hd hj
  exact ⟨s₀, s, hj, hrun, hret, hanswered s hrun 1 _ hj, fun h => hiff.mp h 1 ⟨_, hj⟩⟩

/-- The submit of `⟨9, 9⟩` is blocked when `threadpool_destroy` is called, and the pool is freed
under it. -/
theorem destroy_leaves_submit_behind : ∃ s₀ s : State 1, Reach 1 (fun _ => ⟨0, 0⟩) s₀ ∧ s₀.destroyer = .idle ∧
    s₀.submitter 1 = .asleep ⟨9, 9⟩ ∧ s₀.queue_size = 1 ∧ ReflTransGen (Step 1) s₀.destroyCall s ∧
    s.destroyer = .returned ∧ s.submitter 1 = .crashed ∧ ¬ Outlived s₀ s 1 ⟨9, 9⟩ := by
  obtain ⟨s₀, h₀, hd, hj, hsize⟩ := exists_blocked
  obtain ⟨s, hrun, hret, hcrash⟩ := exists_left_behind le_rfl h₀ hd hj
  refine ⟨s₀, s, h₀, hd, hj, hsize, hrun, hret, hcrash, ?_⟩
  intro h
  have hidle := h.kept (by simp [hret, DestroyPc.gone])
  simp [hcrash] at hidle

end SdeSystems.Pool
