import SdeSystems.Bst.Sequential

/-!
# No deadlock and no lost lock

A thread that waits for a node waits for one below all the nodes it has locked, in the tree as
it is now: the order on the locks is the size of the subtree, with `tree->lock` above all. The
tree changes under the threads that wait, but not between a node that is wanted and the locked
node it was read from. So waiting goes down, and the thread that waits lowest waits for one that
can go on.

`Traced` is the machine with a ghost: how often each thread, in the call it is in, has taken and
released each lock. The difference is what it has now, and that is nothing at the `return`.
-/

namespace SdeSystems.Bst

open Function Relation Lib Lib.Tree

/-! ### Waiting goes down -/

/-- The thread is in a call and waits for a lock that another thread has. -/
def Blocked (σ : State) (t : Tid) : Prop :=
  ∃ c pc, σ.thread t = some (c, pc) ∧ ∃ u ≠ t,
    (∃ a next, code c.op pc = .lock a next ∧ σ.mem.lock a = some u) ∨
      ∃ next, code c.op pc = .lockTree next ∧ σ.mem.treeLock = some u

/-- The thread is in a call and can go on, whatever `malloc` returns. -/
def CanStep (σ : State) (t : Tid) : Prop :=
  ∃ c pc, σ.thread t = some (c, pc) ∧ ((∃ r, pc = .ret r) ∨
    ∀ ao, (∀ a, ao = some a → σ.mem.node a = none) → (exec t ao σ.mem (code c.op pc)).isSome)

/-- Where the lock that is waited for is in the order of the locks. -/
def level (V : View) : Instr Pc → ℕ
  | .lockTree _ => V.addrs.length + 1
  | .lock a _ => size V a
  | _ => 0

section

variable {σ : State} {V : View} {t u : Tid} {c c' : Call} {pc pc' : Pc} {a b : Addr} {next : Pc}

/-- Along a left path the subtrees get smaller. -/
theorem LeftPath.size_lt (hV : V.Valid) {y : Addr} {nd : Node} {M : List Addr} {z : Addr} {d : Side}
    (hy : V.cell y = some nd) (h : V.LeftPath (nd.child d) M z) : ∀ x ∈ y :: M, size V z < size V x := by
  induction M generalizing y nd d with
  | nil =>
    intro x hx
    obtain rfl := List.mem_singleton.mp hx
    exact Link.size_lt hV ⟨nd, hy, h⟩
  | cons w M ih =>
    obtain ⟨hw, nw, hnw, hrest⟩ := h
    have hbelow := ih (d := .left) hnw hrest
    intro x hx
    rcases List.mem_cons.mp hx with rfl | hx
    · exact Nat.lt_trans (hbelow w List.mem_cons_self) (Link.size_lt hV ⟨nd, hy, hw⟩)
    · exact hbelow x hx

/-- **What a thread waits for is below all that it has locked.** -/
theorem Inv.lock_below (h : Inv σ V) (ht : σ.thread t = some (c, pc)) (hl : code c.op pc = .lock b next)
    (ha : a ∈ pc.held) : size V b < size V a := by
  have hfact := (h.thr t c pc ht).fact
  cases pc <;> simp only [code, reduceCtorEq, Instr.lock.injEq] at hl <;>
    first
    | obtain ⟨rfl, -⟩ := hl
    | (split_ifs at hl)
  case lockRoot cur => simp [Pc.held] at ha
  case insLock cur n =>
    obtain ⟨-, d, hd⟩ := hfact
    obtain rfl : a = cur := by simpa [Pc.held] using ha
    exact hd.size_lt h.valid
  case lookLock cur n =>
    obtain ⟨-, d, hd⟩ := hfact
    obtain rfl : a = cur := by simpa [Pc.held] using ha
    exact hd.size_lt h.valid
  case delLock q d n =>
    obtain rfl : a = q := by simpa [Pc.held] using ha
    exact hfact.2.size_lt h.valid
  case d2LockSucc cur s =>
    obtain rfl : a = cur := by simpa [Pc.held] using ha
    have hs : Link V a .right s := hfact.mono fun nd _ hnd => hnd.2
    exact hs.size_lt h.valid
  case d2Lock cur q s n =>
    obtain ⟨⟨nd, M, hnd, -, hM, hcase⟩, nz, hnz, hn⟩ := hfact
    have hpath := LeftPath.size_lt (d := .right) h.valid hnd (hM.snoc hnz hn)
    apply hpath a
    rw [Pc.held, mem_held_d2] at ha
    rcases ha with rfl | rfl | rfl
    · simp
    · rcases hcase with ⟨-, rfl⟩ | ⟨L, rfl, -⟩ <;> simp
    · simp

/-- Whoever waits does so for a thread in a call, that waits for a lower lock if it waits. -/
theorem Inv.waits_down (h : Inv σ V) (hb : Blocked σ t) :
    ∃ c pc u c' pc', σ.thread t = some (c, pc) ∧ σ.thread u = some (c', pc') ∧
      (Blocked σ u → level V (code c'.op pc') < level V (code c.op pc)) := by
  obtain ⟨c, pc, ht, u, -, ⟨a, next, hl, hu⟩ | ⟨next, hl, hu⟩⟩ := hb
  · obtain ⟨c', pc', htu, ha⟩ := (h.locks a u).mp hu
    refine ⟨c, pc, u, c', pc', ht, htu, ?_⟩
    rintro ⟨c₁, pc₁, ht₁, v, -, ⟨b, next', hl', -⟩ | ⟨next', hl', -⟩⟩ <;> rw [htu] at ht₁ <;> cases ht₁
    · rw [hl, hl']
      exact h.lock_below htu hl' ha
    · -- a thread at the start of its call has no lock
      cases pc' <;> simp [code, Pc.held] at hl' ha
      split_ifs at hl'
  · obtain ⟨c', pc', htu, htree⟩ := (h.treeLock u).mp hu
    refine ⟨c, pc, u, c', pc', ht, htu, ?_⟩
    rintro ⟨c₁, pc₁, ht₁, v, -, ⟨b, next', hl', -⟩ | ⟨next', hl', -⟩⟩ <;> rw [htu] at ht₁ <;> cases ht₁
    · rw [hl, hl']
      have := size_le h.valid b
      dsimp only [level]
      omega
    · simp [lockTree_hasTree hl'] at htree

end

/-- **No deadlock**: while a thread is in a call, one of them can go on. -/
theorem exists_canStep {σ : State} (hσ : Reachable σ) {t : Tid} (ht : σ.thread t ≠ none) :
    ∃ u, CanStep σ u ∧ ¬ Blocked σ u := by
  obtain ⟨V, h⟩ := reachable_inv hσ
  let rank (t : Tid) : ℕ := (σ.thread t).elim 0 fun x => level V (code x.1.op x.2)
  have hdown (t : Tid) (_ : σ.thread t ≠ none) (hb : Blocked σ t) :
      ∃ u, σ.thread u ≠ none ∧ (Blocked σ u → rank u < rank t) := by
    obtain ⟨c, pc, u, c', pc', ht, hu, hlt⟩ := h.waits_down hb
    refine ⟨u, by simp [hu], ?_⟩
    intro hbu
    simpa only [rank, ht, hu, Option.elim_some] using hlt hbu
  obtain ⟨u, hu, hnot⟩ := exists_not_waiting rank hdown ht
  refine ⟨u, ?_, hnot⟩
  obtain ⟨⟨c, pc⟩, hpc⟩ := Option.ne_none_iff_exists'.mp hu
  refine ⟨c, pc, hpc, ?_⟩
  by_cases hret : ∃ r, pc = .ret r
  · exact .inl hret
  · refine .inr ?_
    intro ao hao
    rcases h.progress hpc (fun r hr => hret ⟨r, hr⟩) hao with hok | hwait
    · exact hok
    · exact absurd ⟨c, pc, hpc, hwait⟩ hnot

/-! ### Locks are taken and released -/

/-- A lock. -/
inductive Lock where
  /-- `tree->lock`. -/
  | tree
  /-- A node's `lock`. -/
  | node (a : Addr)
  deriving DecidableEq

/-- Who has a lock. -/
def Mem.owner (m : Mem) : Lock → Option Tid
  | .tree => m.treeLock
  | .node a => m.lock a

/-- The lock that an instruction takes. -/
def Instr.acquires {P : Type} : Instr P → Option Lock
  | .lockTree _ => some .tree
  | .lock a _ => some (.node a)
  | _ => none

/-- The lock that an instruction releases. -/
def Instr.releases {P : Type} : Instr P → Option Lock
  | .unlockTree _ => some .tree
  | .unlock a _ => some (.node a)
  | _ => none

/-- The machine, and how often each thread has taken and released each lock since its call
began. -/
structure Traced where
  /-- The machine. -/
  state : State
  /-- How often a thread has locked. -/
  acquired : Tid → Lock → ℕ
  /-- How often it has unlocked. -/
  released : Tid → Lock → ℕ

/-- The count after an access of thread `t`. -/
def tally (n : Tid → Lock → ℕ) (t : Tid) (x : Option Lock) : Tid → Lock → ℕ :=
  fun u l => if u = t ∧ x = some l then n u l + 1 else n u l

/-- One step of one thread, counted. -/
inductive Traced.Step : Traced → Traced → Prop
  /-- A call begins. -/
  | call {τ : Traced} (t : Tid) (op : Op) (h : τ.state.thread t = none) :
    Step τ ⟨{ τ.state with thread := update τ.state.thread t (some (⟨op, τ.state.now⟩, .lockTree)),
                           now := τ.state.now + 1 },
      update τ.acquired t fun _ => 0, update τ.released t fun _ => 0⟩
  /-- A thread does the access it is at. -/
  | run {τ : Traced} (t : Tid) (c : Call) (pc : Pc) (ao : Option Addr) (m' : Mem) (pc' : Pc)
    (h : τ.state.thread t = some (c, pc)) (he : exec t ao τ.state.mem (code c.op pc) = some (m', pc')) :
    Step τ ⟨τ.state.move t c pc ao m' pc', tally τ.acquired t (code c.op pc).acquires,
      tally τ.released t (code c.op pc).releases⟩
  /-- A call returns. -/
  | ret {τ : Traced} (t : Tid) (c : Call) (r : Ret) (h : τ.state.thread t = some (c, .ret r)) :
    Step τ ⟨{ τ.state with thread := update τ.state.thread t none, now := τ.state.now + 1,
                           completed := ⟨c, r, τ.state.now⟩ :: τ.state.completed }, τ.acquired, τ.released⟩

/-- The states of all runs. -/
def Traced.Reachable (τ : Traced) : Prop := ReflTransGen Traced.Step ⟨init, fun _ _ => 0, fun _ _ => 0⟩ τ

theorem Traced.Step.step {τ τ' : Traced} (h : τ.Step τ') : Bst.Step τ.state τ'.state := by
  cases h with
  | call t op h => exact .call t op h
  | run t c pc ao m' pc' h he => exact .run t c pc ao m' pc' h he
  | ret t c r h => exact .ret t c r h

theorem Traced.Reachable.reachable {τ : Traced} (h : τ.Reachable) : Bst.Reachable τ.state := by
  induction h with
  | refl => exact .refl
  | tail _ hs ih => exact ih.tail hs.step

/-- Every run can be counted. -/
theorem Reachable.traced {σ : State} (h : Reachable σ) : ∃ τ : Traced, τ.Reachable ∧ τ.state = σ := by
  induction h with
  | refl => exact ⟨_, .refl, rfl⟩
  | tail _ hs ih =>
    obtain ⟨τ, hτ, rfl⟩ := ih
    cases hs with
    | call t op h => exact ⟨_, hτ.tail (.call t op h), rfl⟩
    | run t c pc ao m' pc' h he => exact ⟨_, hτ.tail (.run t c pc ao m' pc' h he), rfl⟩
    | ret t c r h => exact ⟨_, hτ.tail (.ret t c r h), rfl⟩

section

variable {t : Tid} {ao : Option Addr} {m m' : Mem} {i : Instr Pc} {pc' : Pc} {l : Lock}

/-- A lock that is taken was free, and one that is released was the thread's. -/
theorem exec_owner_before (he : exec t ao m i = some (m', pc')) :
    (i.acquires = some l → m.owner l = none) ∧ (i.releases = some l → m.owner l = some t) := by
  cases i <;> simp only [Instr.acquires, Instr.releases, reduceCtorEq, false_implies, and_true, true_and,
    Option.some.injEq, exec, Option.ite_none_right_eq_some] at he ⊢
  all_goals
    rintro rfl
    simp only [Mem.owner]
  · exact he.1
  · exact he.1
  · exact he.1.2
  · exact he.1.2

/-- Who has the locks after an access. -/
theorem exec_owner_after (hfresh : ∀ a, m.node a = none → m.lock a = none) (he : exec t ao m i = some (m', pc')) :
    m'.owner l = if i.acquires = some l then some t else if i.releases = some l then none else m.owner l := by
  cases i with
  | lockTree next =>
    simp only [exec, Option.ite_none_right_eq_some, Option.some.injEq, Prod.mk.injEq] at he
    obtain ⟨-, rfl, -⟩ := he
    cases l <;> simp [Instr.acquires, Instr.releases, Mem.owner]
  | unlockTree next =>
    simp only [exec, Option.ite_none_right_eq_some, Option.some.injEq, Prod.mk.injEq] at he
    obtain ⟨-, rfl, -⟩ := he
    cases l <;> simp [Instr.acquires, Instr.releases, Mem.owner]
  | lock a next =>
    simp only [exec, Option.ite_none_right_eq_some, Option.some.injEq, Prod.mk.injEq] at he
    obtain ⟨-, rfl, -⟩ := he
    cases l with
    | tree => simp [Instr.acquires, Instr.releases, Mem.owner]
    | node b => simp [Instr.acquires, Instr.releases, Mem.owner, update_apply, eq_comm]
  | unlock a next =>
    simp only [exec, Option.ite_none_right_eq_some, Option.some.injEq, Prod.mk.injEq] at he
    obtain ⟨-, rfl, -⟩ := he
    cases l with
    | tree => simp [Instr.acquires, Instr.releases, Mem.owner]
    | node b => simp [Instr.acquires, Instr.releases, Mem.owner, update_apply, eq_comm]
  | create k v next =>
    cases ao with
    | none =>
      cases he
      simp [Instr.acquires, Instr.releases]
    | some a =>
      simp only [exec, Option.ite_none_right_eq_some, Option.some.injEq, Prod.mk.injEq] at he
      obtain ⟨ha, rfl, -⟩ := he
      cases l with
      | tree => simp [Instr.acquires, Instr.releases, Mem.owner]
      | node b =>
        by_cases hb : b = a
        · subst hb
          simp [Instr.acquires, Instr.releases, Mem.owner, hfresh b ha]
        · simp [Instr.acquires, Instr.releases, Mem.owner, hb]
  | free a next =>
    simp only [exec, Option.ite_none_right_eq_some, Option.some.injEq, Prod.mk.injEq] at he
    obtain ⟨-, rfl, -⟩ := he
    cases l <;> simp [Instr.acquires, Instr.releases, Mem.owner]
  | stop => cases he
  | readRoot next =>
    cases he
    simp [Instr.acquires, Instr.releases]
  | writeRoot p next =>
    cases he
    cases l <;> simp [Instr.acquires, Instr.releases, Mem.owner]
  | _ =>
    obtain ⟨nd, -, heq⟩ := Option.map_eq_some_iff.mp he
    cases heq
    cases l <;> simp [Instr.acquires, Instr.releases, Mem.owner, Mem.store]

end

/-- A thread has locked a lock as often as it has unlocked it, and once more if it has it. -/
def Traced.Balanced (τ : Traced) : Prop :=
  ∀ t l, τ.acquired t l = τ.released t l + if τ.state.mem.owner l = some t then 1 else 0

/-- A lock that a thread has, it has from the call it is in. -/
theorem Inv.owner_held {σ : State} {V : View} (h : Inv σ V) {t : Tid} {l : Lock} (ho : σ.mem.owner l = some t) :
    ∃ c pc, σ.thread t = some (c, pc) ∧ (pc.held ≠ [] ∨ pc.hasTree = true) := by
  cases l with
  | tree =>
    obtain ⟨c, pc, ht, htree⟩ := (h.treeLock t).mp ho
    exact ⟨c, pc, ht, .inr htree⟩
  | node a =>
    obtain ⟨c, pc, ht, ha⟩ := (h.locks a t).mp ho
    exact ⟨c, pc, ht, .inl (List.ne_nil_of_mem ha)⟩

/-- No one has the lock of a node that is not allocated. -/
theorem Inv.lock_fresh {σ : State} {V : View} (h : Inv σ V) {a : Addr} (ha : σ.mem.node a = none) :
    σ.mem.lock a = none := by
  by_contra hne
  obtain ⟨u, hu⟩ := Option.ne_none_iff_exists'.mp hne
  obtain ⟨c, pc, ht, hheld⟩ := (h.locks a u).mp hu
  obtain ⟨nd, hnd⟩ := h.local_alloc ht (Pc.mem_locals.mpr (.inl hheld))
  simp [ha] at hnd

theorem Traced.Balanced.step {τ τ' : Traced} {V : View} (h : τ.Balanced) (hI : Inv τ.state V) (hs : τ.Step τ') :
    τ'.Balanced := by
  intro u l
  have hul := h u l
  cases hs with
  | call t op ht =>
    by_cases hu : u = t
    · subst hu
      have hno : τ.state.mem.owner l ≠ some u := by
        intro ho
        obtain ⟨c, pc, hpc, -⟩ := hI.owner_held ho
        simp [ht] at hpc
      simp [hno]
    · simpa [hu] using hul
  | run t c pc ao m' pc' ht he =>
    have hafter := exec_owner_after (l := l) (fun a => hI.lock_fresh) he
    obtain ⟨hacq, hrel⟩ := exec_owner_before (l := l) he
    simp only [State.move, tally, hafter]
    by_cases ha : (code c.op pc).acquires = some l
    · have hfree := hacq ha
      have hr : (code c.op pc).releases ≠ some l := fun hr => by simp [hrel hr] at hfree
      by_cases hu : u = t
      · subst hu
        simpa [ha, hr, hfree] using hul
      · simpa [ha, hr, hu, hfree, Ne.symm hu] using hul
    · by_cases hr : (code c.op pc).releases = some l
      · have hown := hrel hr
        by_cases hu : u = t
        · subst hu
          simpa [ha, hr, hown] using hul
        · simpa [ha, hr, hu, hown, Ne.symm hu] using hul
      · simpa [ha, hr] using hul
  | ret t c r ht => exact hul

theorem Traced.Reachable.balanced {τ : Traced} (h : τ.Reachable) : τ.Balanced := by
  induction h with
  | refl =>
    intro t l
    cases l <;> simp [init, bstInit, Mem.owner]
  | tail hrun hs ih =>
    obtain ⟨V, hI⟩ := reachable_inv (Traced.Reachable.reachable hrun)
    exact ih.step hI hs

/-- **No deadlock and no lost lock.** In every state that any number of threads reach: while a
thread is in a call, one that is can go on, and waits for no other; and a thread that is at its
`return` has no lock, and has released each lock as often as it has taken it. -/
theorem bst_deadlock_free {τ : Traced} (h : τ.Reachable) :
    ((∃ t, τ.state.thread t ≠ none) → ∃ t, CanStep τ.state t ∧ ¬ Blocked τ.state t) ∧
    ∀ t c r, τ.state.thread t = some (c, .ret r) →
      (∀ l, τ.state.mem.owner l ≠ some t) ∧ ∀ l, τ.acquired t l = τ.released t l := by
  refine ⟨fun ⟨t, ht⟩ => exists_canStep h.reachable ht, ?_⟩
  intro t c r ht
  obtain ⟨V, hI⟩ := reachable_inv h.reachable
  have hno (l : Lock) : τ.state.mem.owner l ≠ some t := by
    intro ho
    obtain ⟨c', pc, hpc, hhas⟩ := hI.owner_held ho
    rw [ht] at hpc
    cases hpc
    simp [Pc.held, Pc.hasTree] at hhas
  refine ⟨hno, ?_⟩
  intro l
  simpa [hno l] using h.balanced t l

/-- Insert a key, and delete it while a lookup waits for `tree->lock`. -/
def waitSchedule : List Move :=
  [.call 0 (.insert 5 7)] ++ List.replicate 5 (.run 0 (some 3)) ++
    [.ret 0, .call 0 (.delete 5), .call 1 (.lookup 5), .run 0 none]

theorem bst_deadlock_free_wait : ∃ σ, Reachable σ ∧ Blocked σ 1 ∧ ∃ t, CanStep σ t ∧ ¬ Blocked σ t := by
  obtain ⟨σ, hσ, ht, hl⟩ : ∃ σ, init.play waitSchedule = some σ ∧
      σ.thread 1 = some (⟨.lookup 5, 8⟩, .lockTree) ∧ σ.mem.treeLock = some 0 := ⟨_, rfl, rfl, rfl⟩
  obtain ⟨τ, hτ, rfl⟩ := Reachable.traced (steps_of_play hσ)
  have hblocked : Blocked τ.state 1 := ⟨_, _, ht, 0, by decide, .inr ⟨_, rfl, hl⟩⟩
  exact ⟨τ.state, hτ.reachable, hblocked, (bst_deadlock_free hτ).1 ⟨1, by simp [ht]⟩⟩

end SdeSystems.Bst
