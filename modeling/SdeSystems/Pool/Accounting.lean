import SdeSystems.Lib.Run
import SdeSystems.Pool.Invariant
import Mathlib.Algebra.BigOperators.Fin
import Mathlib.Algebra.BigOperators.Group.Finset.Piecewise
import Mathlib.Algebra.Order.Group.Multiset
import Mathlib.Tactic.Abel

/-!
# No task is lost and none is run twice

Every task is in one place: in the ring, in the hands of a worker, or executed. What
the ring holds is `RingInv`; here are the other two places (`HandInv`), the ledger of
the submits (`CallInv`: a submit that returned `-1` has no entry, one that returned `0`
has exactly one), and the joins of `threadpool_destroy` (`JoinInv`). Together they
account for every task when `threadpool_destroy` returns.
-/

namespace SdeSystems.Pool

open Function Lib Relation

variable {n : ℕ} {cap : ℕ}

/-! ### Hands -/

/-- The task a worker has taken out of the ring and not yet executed. -/
def WorkerPc.hand : WorkerPc → Multiset Task
  | .signal t | .unlock t | .run t => {t}
  | _ => 0

/-- The tasks taken out of the ring are those executed and those in hand. -/
def HandInv (s : State n) : Prop :=
  (s.dequeued : Multiset Task) = (s.executed : Multiset Task) + ∑ i, (s.worker i).hand

theorem handInv_init (q : ℕ → Task) : HandInv (init n q) := by
  simp [HandInv, init, WorkerPc.hand]

theorem sum_hand_update (w : Fin n → WorkerPc) (i : Fin n) (pc : WorkerPc) :
    ∑ k, (update w i pc k).hand + (w i).hand = ∑ k, (w k).hand + pc.hand := by
  have h : ∀ k, (update w i pc k).hand = update (fun k => (w k).hand) i pc.hand k := by
    intro k
    by_cases hk : k = i
    · subst hk; simp
    · simp [hk]
  simp only [h]
  rw [Finset.sum_update_of_mem (Finset.mem_univ i), ← Finset.add_sum_erase _ _ (Finset.mem_univ i)]
  simp only [Finset.sdiff_singleton_eq_erase]
  abel

theorem SignalEmpty.hand {w w' : Fin n → WorkerPc} (h : SignalEmpty w w') (i : Fin n) :
    (w' i).hand = (w i).hand := by
  rcases h with ⟨k, hk, rfl⟩ | ⟨-, rfl⟩
  · by_cases hik : i = k
    · subst hik; simp [hk, WorkerPc.hand]
    · simp [hik]
  · rfl

theorem hand_wake (pc : WorkerPc) : pc.wake.hand = pc.hand := by cases pc <;> rfl

/-- A worker moves on with the same task in hand. -/
theorem HandInv.setWorker {s : State n} (hI : HandInv s) {i : Fin n} {pc : WorkerPc}
    (hpc : pc.hand = (s.worker i).hand) : (s.dequeued : Multiset Task) =
      (s.executed : Multiset Task) + ∑ k, (update s.worker i pc k).hand := by
  have h := sum_hand_update s.worker i pc
  rw [hpc] at h
  rw [add_right_cancel h]
  exact hI

theorem handInv_step {s s' : State n} (h : Step cap s s') (hI : HandInv s) : HandInv s' := by
  cases h with
  | worker i h =>
    cases h with
    | @decSize t hpc =>
      have h := sum_hand_update s.worker i (.signal t)
      rw [hpc, show (WorkerPc.decSize t).hand = 0 from rfl, add_zero] at h
      simp only [HandInv] at hI ⊢
      rw [h, ← add_assoc, ← hI]
      rfl
    | @run t hpc =>
      have h := sum_hand_update s.worker i .lock
      rw [hpc, show WorkerPc.lock.hand = 0 from rfl, add_zero] at h
      simp only [HandInv] at hI ⊢
      rw [hI, ← h, ← Multiset.coe_add, show (WorkerPc.run t).hand = {t} from rfl,
        Multiset.coe_singleton]
      abel
    | signal hpc => exact hI.setWorker (by rw [hpc]; rfl)
    | unlock hpc => exact hI.setWorker (by rw [hpc]; rfl)
    | _ hpc => exact hI.setWorker (by rw [hpc]; rfl)
  | submitter j h =>
    cases h with
    | signal _ _ hw =>
      simp only [HandInv] at hI ⊢
      simpa only [hw.hand] using hI
    | _ => exact hI
  | destroyer h =>
    cases h with
    | bcastEmpty =>
      simp only [HandInv] at hI ⊢
      simpa only [hand_wake] using hI
    | _ => exact hI

/-! ### The ledger of the submits -/

/-- The entries of call `c` of submitter `j`. -/
def entries (acc : List Entry) (j c : ℕ) : List Entry := acc.filter fun e => e.who = j ∧ e.call = c

theorem entries_append_self (acc : List Entry) (j c : ℕ) (t : Task) :
    entries (acc ++ [⟨j, c, t⟩]) j c = entries acc j c ++ [⟨j, c, t⟩] := by
  simp [entries, List.filter_append]

theorem entries_append_ne (acc : List Entry) {e : Entry} {j c : ℕ} (h : ¬ (e.who = j ∧ e.call = c)) :
    entries (acc ++ [e]) j c = entries acc j c := by
  simp only [entries, List.filter_append, List.filter_singleton, h, decide_false, cond_false,
    List.append_nil]

/-- The submitter has enqueued and is about to return `0`. -/
def SubmitPc.enqueued : SubmitPc → Bool
  | .signal | .unlock => true
  | _ => false

/-- The submitter is in a call. -/
def SubmitPc.calling : SubmitPc → Bool
  | .idle | .crashed => false
  | _ => true

/-- **The ledger**: what a submit returned says how many entries it has. -/
structure CallInv (s : State n) : Prop where
  /-- No entry of a call not begun. -/
  fresh : ∀ j c, s.calls j < c → entries s.accepted j c = []
  /-- No entry of the running call until it has enqueued, then one. -/
  current : ∀ j, (s.submitter j).calling →
    (entries s.accepted j (s.calls j)).length = if (s.submitter j).enqueued then 1 else 0
  /-- Only calls that have ended have returned. -/
  ended : ∀ r ∈ s.returned, r.call ≤ s.calls r.who ∧
    (r.call = s.calls r.who → s.submitter r.who = .idle)
  /-- A refused submit has no entry, an accepted one has one. -/
  ret : ∀ r ∈ s.returned, r.val = -1 ∧ entries s.accepted r.who r.call = [] ∨
    r.val = 0 ∧ (entries s.accepted r.who r.call).length = 1

theorem callInv_init (q : ℕ → Task) : CallInv (init n q) := by
  constructor <;> simp [init, entries, SubmitPc.calling]

/-- The submits go on, and the ledger is as it was. -/
theorem CallInv.frame {s s' : State n} (hI : CallInv s) (ha : s'.accepted = s.accepted)
    (hc : s'.calls = s.calls) (hr : s'.returned = s.returned)
    (hidle : ∀ j, s.submitter j = .idle → s'.submitter j = .idle)
    (hrun : ∀ j, (s'.submitter j).calling → (s.submitter j).calling ∧
      (s'.submitter j).enqueued = (s.submitter j).enqueued) : CallInv s' := by
  constructor
  · intro j c hjc
    rw [ha]
    exact hI.fresh j c (by rwa [hc] at hjc)
  · intro j h
    rw [ha, hc, (hrun j h).2]
    exact hI.current j (hrun j h).1
  · intro r hrr
    rw [hr] at hrr
    rw [hc]
    exact ⟨(hI.ended r hrr).1, fun h => hidle _ ((hI.ended r hrr).2 h)⟩
  · intro r hrr
    rw [hr] at hrr
    rw [ha]
    exact hI.ret r hrr

/-- One submit goes on inside its call. -/
theorem CallInv.setSubmitter {s s' : State n} (hI : CallInv s) (ha : s'.accepted = s.accepted)
    (hc : s'.calls = s.calls) (hr : s'.returned = s.returned) {j : ℕ} {pc : SubmitPc}
    (hs : s'.submitter = update s.submitter j pc) (hj : (s.submitter j).calling)
    (hpc : pc.calling → pc.enqueued = (s.submitter j).enqueued) : CallInv s' := by
  refine hI.frame ha hc hr ?_ ?_
  · intro k hk
    rw [hs]
    by_cases hkj : k = j
    · subst hkj; simp [hk, SubmitPc.calling] at hj
    · simpa [hkj] using hk
  · intro k h
    rw [hs] at h ⊢
    by_cases hkj : k = j
    · subst hkj; simp only [update_self] at h ⊢; exact ⟨hj, hpc h⟩
    · rw [update_of_ne hkj] at h ⊢; exact ⟨h, rfl⟩

/-- A submit returns `v`, which says how many entries it has. -/
theorem CallInv.finish {s s' : State n} (hI : CallInv s) {j : ℕ} {v : ℤ} (ha : s'.accepted = s.accepted)
    (hc : s'.calls = s.calls) (hr : s'.returned = s.returned ++ [⟨j, s.calls j, v⟩])
    (hs : s'.submitter = update s.submitter j .idle) (hj : (s.submitter j).calling)
    (hv : (s.submitter j).enqueued = false ∧ v = -1 ∨ (s.submitter j).enqueued = true ∧ v = 0) :
    CallInv s' := by
  have hcur := hI.current j hj
  constructor
  · intro k c hkc
    rw [ha]
    exact hI.fresh k c (by rwa [hc] at hkc)
  · intro k h
    rw [hs] at h ⊢
    by_cases hkj : k = j
    · subst hkj; simp [SubmitPc.calling] at h
    · simp only [update_of_ne hkj] at h ⊢
      rw [ha, hc]
      exact hI.current k h
  · intro r hrr
    rw [hr, List.mem_append, List.mem_singleton] at hrr
    rw [hc, hs]
    rcases hrr with hrr | rfl
    · refine ⟨(hI.ended r hrr).1, ?_⟩
      intro h
      by_cases hkj : r.who = j
      · simp [hkj]
      · simpa [hkj] using (hI.ended r hrr).2 h
    · exact ⟨le_rfl, fun _ => by simp⟩
  · intro r hrr
    rw [hr, List.mem_append, List.mem_singleton] at hrr
    rw [ha]
    rcases hrr with hrr | rfl
    · exact hI.ret r hrr
    · rcases hv with ⟨hq, rfl⟩ | ⟨hq, rfl⟩
      · rw [hq] at hcur
        exact .inl ⟨rfl, by simpa using hcur⟩
      · rw [hq] at hcur
        exact .inr ⟨rfl, by simpa using hcur⟩

theorem callInv_submit {j : ℕ} {s s' : State n} (h : SubmitStep cap j s s') (hI : CallInv s) : CallInv s' := by
  cases h with
  | call t hpc =>
    -- the number of the new call is fresh
    constructor
    · intro k c hkc
      refine hI.fresh k c (lt_of_le_of_lt ?_ hkc)
      by_cases hk : k = j
      · subst hk; simp
      · simp [hk]
    · intro k h
      by_cases hk : k = j
      · subst hk
        have := hI.fresh k (s.calls k + 1) (by omega)
        simp [this, SubmitPc.enqueued]
      · simp only [update_of_ne hk] at h ⊢
        exact hI.current k h
    · intro r hr
      have := hI.ended r hr
      by_cases hk : r.who = j
      · simp only [hk, update_self]
        rw [hk] at this
        exact ⟨by omega, fun hc => by omega⟩
      · simpa [hk] using this
    · exact hI.ret
  | @incSize t hpc =>
    have hold : ∀ r ∈ s.returned, ¬ (j = r.who ∧ s.calls j = r.call) := by
      rintro r hr ⟨rfl, hc⟩
      have := (hI.ended r hr).2 hc.symm
      simp [hpc] at this
    constructor
    · intro k c hkc
      simp only at hkc ⊢
      rw [entries_append_ne _ (by rintro ⟨rfl, rfl⟩; simp at hkc)]
      exact hI.fresh k c hkc
    · intro k h
      by_cases hk : k = j
      · subst hk
        have := hI.current k (by rw [hpc]; rfl)
        rw [hpc] at this
        simp only [update_self, entries_append_self, List.length_append, this]
        rfl
      · simp only [update_of_ne hk] at h ⊢
        rw [entries_append_ne _ (fun hh => hk hh.1.symm)]
        exact hI.current k h
    · intro r hr
      refine ⟨(hI.ended r hr).1, ?_⟩
      intro hc
      by_cases hk : r.who = j
      · exact absurd ⟨hk.symm, by rw [← hk]; exact hc.symm⟩ (hold r hr)
      · simpa [hk] using (hI.ended r hr).2 hc
    · intro r hr
      simp only
      rw [entries_append_ne _ (hold r hr)]
      exact hI.ret r hr
  | refuse hpc => exact hI.finish rfl rfl rfl rfl (by rw [hpc]; rfl) (by rw [hpc]; exact .inl ⟨rfl, rfl⟩)
  | done hpc => exact hI.finish rfl rfl rfl rfl (by rw [hpc]; rfl) (by rw [hpc]; exact .inr ⟨rfl, rfl⟩)
  | crash hpc =>
    refine hI.setSubmitter rfl rfl rfl rfl ?_ (by simp [SubmitPc.calling])
    cases hp : s.submitter j <;> simp_all [SubmitPc.active, SubmitPc.calling]
  | signal hpc => exact hI.setSubmitter rfl rfl rfl rfl (by rw [hpc]; rfl) (by rw [hpc]; exact fun _ => rfl)
  | _ hpc => exact hI.setSubmitter rfl rfl rfl rfl (by rw [hpc]; rfl) (by rw [hpc]; exact fun _ => rfl)

theorem SignalFull.cases {u u' : ℕ → SubmitPc} (h : SignalFull u u') (j : ℕ) :
    u' j = u j ∨ ∃ t, u j = .asleep t ∧ u' j = .woken t := by
  rcases h with ⟨k, t, hk, rfl⟩ | ⟨-, rfl⟩
  · by_cases hjk : j = k
    · subst hjk; exact .inr ⟨t, hk, by simp⟩
    · simp [hjk]
  · exact .inl rfl

theorem SubmitPc.wake_cases (pc : SubmitPc) : pc.wake = pc ∨ ∃ t, pc = .asleep t ∧ pc.wake = .woken t := by
  cases pc <;> simp [SubmitPc.wake]

/-- Wake-ups leave the ledger as it was. -/
theorem CallInv.wake {s s' : State n} (hI : CallInv s) (ha : s'.accepted = s.accepted)
    (hc : s'.calls = s.calls) (hr : s'.returned = s.returned)
    (hs : ∀ j, s'.submitter j = s.submitter j ∨ ∃ t, s.submitter j = .asleep t ∧ s'.submitter j = .woken t) :
    CallInv s' := by
  refine hI.frame ha hc hr ?_ ?_
  · intro k hk
    rcases hs k with h | ⟨t, h, -⟩
    · rw [h, hk]
    · simp [hk] at h
  · intro k h
    rcases hs k with h' | ⟨t, h₁, h₂⟩
    · rw [h'] at h ⊢; exact ⟨h, rfl⟩
    · rw [h₁, h₂]; exact ⟨rfl, rfl⟩

theorem callInv_step {s s' : State n} (h : Step cap s s') (hI : CallInv s) : CallInv s' := by
  cases h with
  | worker i h =>
    cases h with
    | signal hpc hu => exact hI.wake rfl rfl rfl hu.cases
    | _ => exact ⟨hI.fresh, hI.current, hI.ended, hI.ret⟩
  | submitter j h => exact callInv_submit h hI
  | destroyer h =>
    cases h with
    | bcastFull hpc => exact hI.wake rfl rfl rfl fun j => (s.submitter j).wake_cases
    | _ => exact ⟨hI.fresh, hI.current, hI.ended, hI.ret⟩

/-! ### The joins -/

/-- How many workers the destroyer has joined. -/
def DestroyPc.joined (n : ℕ) : DestroyPc → ℕ
  | .join i => i
  | .condFull | .condEmpty | .mutex | .freeThreads | .freeQueue | .freePool | .returned => n
  | _ => 0

/-- The workers joined have returned. -/
def JoinInv (s : State n) : Prop := ∀ i : Fin n, i < s.destroyer.joined n → s.worker i = .exited

theorem joinInv_init (q : ℕ → Task) : JoinInv (init n q) := by
  intro i hi
  simp [init, DestroyPc.joined] at hi

theorem SignalEmpty.exited {w w' : Fin n → WorkerPc} (h : SignalEmpty w w') {i : Fin n}
    (hi : w i = .exited) : w' i = .exited := by
  rcases h with ⟨k, hk, rfl⟩ | ⟨-, rfl⟩
  · have hik : i ≠ k := by rintro rfl; simp [hi] at hk
    simpa [hik] using hi
  · exact hi

theorem joinInv_step {s s' : State n} (h : Step cap s s') (hI : JoinInv s) : JoinInv s' := by
  cases h with
  | worker i h =>
    -- a worker that has returned takes no step
    have hother : ∀ pc, s.worker i ≠ .exited → ∀ k : Fin n, k < s.destroyer.joined n →
        update s.worker i pc k = .exited := by
      intro pc hne k hk
      have hki : k ≠ i := by rintro rfl; exact hne (hI k hk)
      simpa [hki] using hI k hk
    cases h with
    | signal hpc => exact hother _ (by simp [hpc])
    | _ hpc => exact hother _ (by simp [hpc])
  | submitter j h =>
    cases h with
    | signal hpc _ hw => exact fun k hk => hw.exited (hI k hk)
    | _ => exact hI
  | destroyer h =>
    cases h with
    | bcastEmpty hpc => intro k hk; simp [DestroyPc.joined] at hk
    | @join i hpc hi hw =>
      intro k hk
      simp only [DestroyPc.joined] at hk
      by_cases hki : k = ⟨i, hi⟩
      · rw [hki]; exact hw
      · apply hI k
        have : (k : ℕ) ≠ i := fun h => hki (Fin.ext h)
        rw [hpc]
        simp only [DestroyPc.joined]
        omega
    | @joined i hpc hi =>
      intro k hk
      apply hI k
      rw [hpc]
      simp only [DestroyPc.joined]
      omega
    | _ hpc =>
      intro k hk
      apply hI k
      rw [hpc]
      exact hk

/-! ### Accounting -/

/-- **Everything that holds in every state of the pool.** -/
structure FullInv (cap : ℕ) (s : State n) : Prop where
  /-- What the lock protects. -/
  inv : Inv cap s
  /-- Hands. -/
  hand : HandInv s
  /-- The ledger. -/
  call : CallInv s
  /-- The joins. -/
  join : JoinInv s

theorem fullInv_reach (hcap : 0 < cap) {q : ℕ → Task} {s : State n} (h : Reach cap q s) : FullInv cap s :=
  run_inv (I := FullInv cap)
    (fun _ _ hxy hx => ⟨inv_step hxy hx.inv, handInv_step hxy hx.hand, callInv_step hxy hx.call,
      joinInv_step hxy hx.join⟩)
    h ⟨inv_init hcap q, handInv_init q, callInv_init q, joinInv_init q⟩

/-- With the mutex free the ring is exactly the accepted tasks not yet dequeued. -/
theorem RingInv.at_rest {s : State n} (hI : RingInv cap s) (ho : s.owner = none) :
    s.queue_tail = (s.queue_head + s.queue_size.toNat) % cap ∧
      s.tasks = s.dequeued ++ s.ring cap s.queue_size.toNat := by
  have h := hI.agree
  simpa only [State.phase, ho, State.Agree] using h

/-- Once every worker has returned the ring is empty and at rest, whoever has the mutex:
no submitter is let in any more. -/
theorem drained (hn : 0 < n) {s : State n} (hI : FullInv cap s) (hd : s.destroyer = .returned) :
    s.queue_size = 0 ∧ s.tasks = s.dequeued := by
  have hx : ∀ i, s.worker i = .exited := by
    intro i
    apply hI.join i
    rw [hd]
    exact i.isLt
  have h0 : s.queue_size = 0 ∧ s.shutdown = true := by
    have := hI.inv.know.worker ⟨0, hn⟩
    rwa [hx] at this
  refine ⟨h0.1, ?_⟩
  have hph : s.phase = .rest := by
    cases ho : s.owner with
    | none => simp [State.phase, ho]
    | some t =>
      cases t with
      | worker i => simp [State.phase, ho, hx i, WorkerPc.phase]
      | destroyer => simp [State.phase, ho]
      | submitter j =>
        have hj := hI.inv.know.submitter j
        cases hp : s.submitter j with
        | incSize t => rw [hp] at hj; simp [SubmitPc.Know, h0.2] at hj
        | _ => simp [State.phase, ho, hp, SubmitPc.phase]
  have hag := hI.inv.ring.agree
  rw [hph] at hag
  have := hag.2
  simpa [h0.1, State.ring] using this

/-- When `threadpool_destroy` has returned, the tasks executed are those accepted. -/
theorem executed_perm (hn : 0 < n) {s : State n} (hI : FullInv cap s) (hd : s.destroyer = .returned) :
    s.executed.Perm s.tasks := by
  obtain ⟨-, htasks⟩ := drained hn hI hd
  -- no worker has a task in hand
  have hhand : ∑ i, (s.worker i).hand = 0 := by
    apply Finset.sum_eq_zero
    intro i _
    have : s.worker i = .exited := hI.join i (by rw [hd]; exact i.isLt)
    rw [this]
    rfl
  have := hI.hand
  rw [HandInv, hhand, add_zero] at this
  rw [htasks]
  exact (Multiset.coe_eq_coe.mp this).symm

/-- **Task accounting.** In every state the pool reaches: with the mutex free and the pool
not freed, the size is within the capacity, the indices are valid and agree with it, and
the tasks accepted so far are the tasks dequeued so far followed by the ring; a submit that
returned `-1` contributed no task and one that returned `0` exactly one; and when
`threadpool_destroy` has returned, the tasks executed are the tasks accepted, each as often,
and the ring is empty. -/
theorem pool_accounting (n cap : ℕ) (hn : 1 ≤ n) (hcap : 1 ≤ cap) (q : ℕ → Task) (s : State n)
    (h : Reach cap q s) :
    (s.owner = none → s.destroyer ≠ .returned →
      0 ≤ s.queue_size ∧ s.queue_size ≤ cap ∧ s.queue_head < cap ∧ s.queue_tail < cap ∧
      s.queue_tail = (s.queue_head + s.queue_size.toNat) % cap ∧
      s.tasks = s.dequeued ++ s.ring cap s.queue_size.toNat) ∧
    (∀ r ∈ s.returned, r.val = -1 ∧ entries s.accepted r.who r.call = [] ∨
      r.val = 0 ∧ (entries s.accepted r.who r.call).length = 1) ∧
    (s.destroyer = .returned → s.executed.Perm s.tasks ∧ s.queue_size = 0) := by
  have hI := fullInv_reach hcap h
  refine ⟨?_, hI.call.ret, ?_⟩
  · intro ho _
    have hr := hI.inv.ring
    exact ⟨hr.size_nonneg, hr.size_le, hr.head_lt, hr.tail_lt, hr.at_rest ho⟩
  · intro hd
    exact ⟨executed_perm hn hI hd, (drained hn hI hd).1⟩

/-- In a pool of one worker and one cell: a task is submitted and run, a second one is submitted, which comes to the
same cell, and the pool is destroyed, for which the worker runs that one too. -/
theorem pool_accounting_submit : ∃ s : State 1, Reach 1 (fun _ => ⟨0, 0⟩) s ∧ s.destroyer = .returned ∧
    s.returned = [⟨0, 1, 0⟩, ⟨0, 2, 0⟩] ∧ s.tasks = [⟨7, 8⟩, ⟨9, 9⟩] ∧ s.executed.Perm s.tasks ∧ s.queue_size = 0 := by
  -- The first task is submitted, and the worker runs it.
  have h₁ := ReflTransGen.refl (r := Step 1) (a := init 1 fun _ => ⟨0, 0⟩)
    |>.tail (.submitter 0 (.call ⟨7, 8⟩ rfl rfl))
    |>.tail (.submitter 0 (.lock rfl rfl rfl))
    |>.tail (.submitter 0 (.ready rfl rfl (by decide)))
    |>.tail (.submitter 0 (.accept rfl rfl rfl))
    |>.tail (.submitter 0 (.storeFunc rfl rfl))
    |>.tail (.submitter 0 (.storeArg rfl rfl))
    |>.tail (.submitter 0 (.advTail rfl rfl))
    |>.tail (.submitter 0 (.incSize rfl rfl))
    |>.tail (.submitter 0 (.signal rfl rfl (.inr ⟨by simp [init], rfl⟩)))
    |>.tail (.submitter 0 (.done rfl rfl))
    |>.tail (.worker 0 (.lock rfl rfl))
    |>.tail (.worker 0 (.ready rfl (by decide)))
    |>.tail (.worker 0 (.stay rfl (by decide)))
    |>.tail (.worker 0 (.fetch rfl))
    |>.tail (.worker 0 (.advHead rfl))
    |>.tail (.worker 0 (.decSize rfl))
    |>.tail (.worker 0 (.signal rfl (.inr ⟨by intro j t; by_cases hj : j = 0 <;> simp [hj, init], rfl⟩)))
    |>.tail (.worker 0 (.unlock rfl))
    |>.tail (.worker 0 (.run rfl))
  simp only [init, update_idem, update_self, update_eq_self] at h₁
  -- The second one comes to the same cell.
  have h₂ := h₁
    |>.tail (.submitter 0 (.call ⟨9, 9⟩ rfl rfl))
    |>.tail (.submitter 0 (.lock rfl rfl rfl))
    |>.tail (.submitter 0 (.ready rfl rfl (by decide)))
    |>.tail (.submitter 0 (.accept rfl rfl rfl))
    |>.tail (.submitter 0 (.storeFunc rfl rfl))
    |>.tail (.submitter 0 (.storeArg rfl rfl))
    |>.tail (.submitter 0 (.advTail rfl rfl))
    |>.tail (.submitter 0 (.incSize rfl rfl))
    |>.tail (.submitter 0 (.signal rfl rfl (.inr ⟨by simp, rfl⟩)))
    |>.tail (.submitter 0 (.done rfl rfl))
  simp only [update_idem, update_self, update_eq_self] at h₂
  -- `threadpool_destroy` begins, and the worker runs the second task.
  have h₃ := h₂
    |>.tail (.destroyer (.call rfl))
    |>.tail (.destroyer (.lock rfl rfl))
    |>.tail (.destroyer (.setShutdown rfl))
    |>.tail (.destroyer (.bcastEmpty rfl))
    |>.tail (.destroyer (.bcastFull rfl))
    |>.tail (.destroyer (.unlock rfl))
    |>.tail (.worker 0 (.lock rfl rfl))
    |>.tail (.worker 0 (.ready rfl (by decide)))
    |>.tail (.worker 0 (.stay rfl (by decide)))
    |>.tail (.worker 0 (.fetch rfl))
    |>.tail (.worker 0 (.advHead rfl))
    |>.tail (.worker 0 (.decSize rfl))
    |>.tail (.worker 0 (.signal rfl (.inr ⟨by simp [SubmitPc.wake], rfl⟩)))
    |>.tail (.worker 0 (.unlock rfl))
    |>.tail (.worker 0 (.run rfl))
  simp only [update_idem, update_self] at h₃
  -- The worker leaves, and is joined.
  have h₄ := h₃
    |>.tail (.worker 0 (.lock rfl rfl))
    |>.tail (.worker 0 (.ready rfl (by decide)))
    |>.tail (.worker 0 (.leave rfl (by decide)))
    |>.tail (.worker 0 (.exit rfl))
    |>.tail (.destroyer (.join rfl (by decide) rfl))
    |>.tail (.destroyer (.joined rfl (by decide)))
    |>.tail (.destroyer (.condFull rfl))
    |>.tail (.destroyer (.condEmpty rfl))
    |>.tail (.destroyer (.mutex rfl))
    |>.tail (.destroyer (.freeThreads rfl))
    |>.tail (.destroyer (.freeQueue rfl))
    |>.tail (.destroyer (.freePool rfl))
  obtain ⟨hperm, hsize⟩ := (pool_accounting 1 1 le_rfl le_rfl _ _ h₄).2.2 rfl
  exact ⟨_, h₄, rfl, rfl, rfl, hperm, hsize⟩
end SdeSystems.Pool
