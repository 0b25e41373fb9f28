import SdeSystems.Lib.Run
import SdeSystems.Bst.Program

/-!
# No thread touches a removed node

The invariant holds in every reachable state, and with it: whoever reads or writes a field
of a node has the node's lock, whoever reads or writes the root has `tree->lock`, and when
a node is freed, no one has its lock or waits for it, and no one has a pointer to it.
-/

namespace SdeSystems.Bst

open Function Relation Lib Lib.Tree

/-! ### The invariant in every run -/

theorem Descent.mono {V : View} {clear clear' : Addr → Prop} {k : ℤ} {c q s : Addr}
    (h : Descent V clear k c q s) (hcl : ∀ x, clear x → clear' x) : Descent V clear' k c q s := by
  obtain ⟨nd, M, hnd, hk, hM, hcase⟩ := h
  refine ⟨nd, M, hnd, hk, hM, hcase.imp_right ?_⟩
  rintro ⟨L, rfl, hL⟩
  exact ⟨L, rfl, fun x hx => hcl x (hL x hx)⟩

/-- The thread has no lock and no pointer. -/
structure Pc.Idle (pc : Pc) : Prop where
  /-- No pointer. -/
  locals : pc.locals = []
  /-- No `tree->lock`. -/
  hasTree : pc.hasTree = false
  /-- No copy under way. -/
  copying : pc.copying = none

theorem Pc.Idle.held {pc : Pc} (h : pc.Idle) : pc.held = [] := by
  have := h.locals
  simp only [Pc.locals, List.append_eq_nil_iff] at this
  exact this.1.1

theorem Pc.Idle.own {pc : Pc} (h : pc.Idle) : pc.own = none := by
  have := h.locals
  simp only [Pc.locals, List.append_eq_nil_iff, Option.toList_eq_nil_iff] at this
  exact this.2

/-- A call and a return keep the invariant: the thread has nothing before and after. -/
theorem Inv.idle_step {σ σ' : State} {V : View} {t : Tid} {x : Option (Call × Pc)} (h : Inv σ V)
    (hm : σ'.mem = σ.mem) (hσ' : σ'.thread = update σ.thread t x)
    (hold : ∀ c pc, σ.thread t = some (c, pc) → pc.Idle)
    (hnew : ∀ c pc, x = some (c, pc) → pc.Idle ∧ ∀ clear, Local V σ.mem clear c.op pc) : Inv σ' V := by
  have hsame : ∀ u ≠ t, σ'.thread u = σ.thread u := fun u hu => by rw [hσ', update_of_ne hu]
  have hself : σ'.thread t = x := by rw [hσ', update_self]
  -- what an active thread is at, before and after
  have hiff : ∀ (P : Pc → Prop), (∀ pc : Pc, pc.Idle → ¬ P pc) → ∀ u,
      (∃ c pc, σ.thread u = some (c, pc) ∧ P pc) ↔ ∃ c pc, σ'.thread u = some (c, pc) ∧ P pc := by
    intro P hP u
    by_cases hu : u = t
    · subst hu
      rw [hself]
      constructor
      · rintro ⟨c, pc, h₁, h₂⟩
        exact absurd h₂ (hP pc (hold c pc h₁))
      · rintro ⟨c, pc, h₁, h₂⟩
        exact absurd h₂ (hP pc (hnew c pc h₁).1)
    · rw [hsame u hu]
  have hclear : ∀ u y, Clear σ u y → Clear σ' u y := by
    intro u y hy v hv c pc hpc
    by_cases hvt : v = t
    · subst hvt
      rw [hself] at hpc
      simp [(hnew c pc hpc).1.locals]
    · rw [hsame v hvt] at hpc
      exact hy v hv c pc hpc
  refine ⟨h.valid, hm ▸ h.root, ?_, ?_, ?_, ?_, ?_⟩
  · intro a nd ha
    obtain ⟨nm, h₁, h₂, h₃, h₄⟩ := h.cells a nd ha
    refine ⟨nm, hm ▸ h₁, h₂, h₃, h₄.imp_right ?_⟩
    rintro ⟨u, hu⟩
    exact ⟨u, (hiff (fun pc => pc.copying = some a) (fun pc hi => by simp [hi.copying]) u).mp hu⟩
  · intro a u
    rw [hm, h.locks]
    exact hiff (fun pc => a ∈ pc.held) (fun pc hi => by simp [hi.held]) u
  · intro u
    rw [hm, h.treeLock]
    exact hiff (fun pc => pc.hasTree = true) (fun pc hi => by simp [hi.hasTree]) u
  · intro u v cu cv pcu pcv a hu hv hau hav
    have hne : ∀ w cw pcw, σ'.thread w = some (cw, pcw) → pcw.own = some a → w ≠ t := by
      rintro w cw pcw hw haw rfl
      rw [hself] at hw
      simp [(hnew cw pcw hw).1.own] at haw
    have hut := hne u cu pcu hu hau
    have hvt := hne v cv pcv hv hav
    rw [hsame u hut] at hu
    rw [hsame v hvt] at hv
    exact h.apart u v cu cv pcu pcv a hu hv hau hav
  · intro u c pc hu
    by_cases hut : u = t
    · subst hut
      rw [hself] at hu
      rw [hm]
      exact (hnew c pc hu).2 _
    · rw [hsame u hut] at hu
      have hl := h.thr u c pc hu
      rw [hm]
      exact ⟨hl.fits, hl.nodup, hl.scope, hl.own, hl.fact.stable (fun _ _ _ => rfl) (fun _ _ _ h => h) (fun _ => rfl)
        (fun _ _ _ h => h) fun _ _ _ _ _ hD => hD.mono (hclear u)⟩

theorem Inv.call_step {σ : State} {V : View} {t : Tid} {op : Op} (h : Inv σ V) (ht : σ.thread t = none) :
    Inv { σ with thread := update σ.thread t (some (⟨op, σ.now⟩, .lockTree)), now := σ.now + 1 } V := by
  refine h.idle_step rfl rfl (fun c pc hpc => by simp [ht] at hpc) ?_
  intro c pc hpc
  simp only [Option.some.injEq, Prod.mk.injEq] at hpc
  obtain ⟨-, rfl⟩ := hpc
  exact ⟨⟨rfl, rfl, rfl⟩, fun clear => ⟨trivial, by simp [Pc.held], by simp [Pc.held], by simp [Pc.own], trivial⟩⟩

theorem Inv.ret_step {σ : State} {V : View} {t : Tid} {c : Call} {r : Ret} (h : Inv σ V)
    (ht : σ.thread t = some (c, .ret r)) :
    Inv { σ with thread := update σ.thread t none, now := σ.now + 1, completed := ⟨c, r, σ.now⟩ :: σ.completed } V := by
  refine h.idle_step rfl rfl ?_ fun c pc hpc => by simp at hpc
  intro c' pc hpc
  rw [ht] at hpc
  simp only [Option.some.injEq, Prod.mk.injEq] at hpc
  obtain ⟨-, rfl⟩ := hpc
  exact ⟨rfl, rfl, rfl⟩

theorem step_inv {σ σ' : State} (hs : Step σ σ') (h : ∃ V, Inv σ V) : ∃ V, Inv σ' V := by
  obtain ⟨V, h⟩ := h
  cases hs with
  | call t op ht => exact ⟨V, h.call_step ht⟩
  | run t c pc ao m' pc' ht he =>
    obtain ⟨V', h', -⟩ := h.run_step ht he
    exact ⟨V', h'⟩
  | ret t c r ht => exact ⟨V, h.ret_step ht⟩

/-- **Every reachable memory stands for a search tree.** -/
theorem reachable_inv {σ : State} (hσ : Reachable σ) : ∃ V, Inv σ V :=
  run_inv (I := fun σ => ∃ V, Inv σ V) (fun _ _ hs h => step_inv hs h) hσ ⟨.leaf, inv_init⟩

/-! ### Accesses are under locks -/

/-- The node one of whose fields `key`, `value`, `left` and `right` is read or written. -/
def Instr.touches {P : Type} : Instr P → Option Addr
  | .readKey a _ | .readVal a _ | .readChild a _ _ => some a
  | .writeKey a _ _ | .writeVal a _ _ | .writeChild a _ _ _ => some a
  | _ => none

/-- The instruction reads or writes `tree->root`. -/
def Instr.touchesRoot {P : Type} : Instr P → Bool
  | .readRoot _ | .writeRoot _ _ => true
  | _ => false

theorem touches_held {op : Op} {pc : Pc} {a : Addr} (h : (code op pc).touches = some a) : a ∈ pc.held := by
  cases pc <;> simp only [code, Instr.touches, Option.some.injEq, reduceCtorEq] at h <;>
    first
    | (subst h; simp [Pc.held]; done)
    | (subst h; exact mem_held_d2.mpr (.inl rfl))
    | (subst h; exact mem_held_d2.mpr (.inr (.inr rfl)))
    | (split_ifs at h <;> cases h <;> exact mem_held_d2.mpr (.inr (.inl rfl)))

theorem touchesRoot_hasTree {op : Op} {pc : Pc} (h : (code op pc).touchesRoot = true) : pc.hasTree = true := by
  cases pc <;> simp only [code, Instr.touchesRoot, Bool.false_eq_true] at h <;>
    first
    | rfl
    | (split_ifs at h)

/-! ### Nodes are freed when no one can reach them -/

/-- The node can be reached from `tree->root`. -/
inductive Mem.Live (m : Mem) : Addr → Prop
  /-- It is the root. -/
  | root {a : Addr} (h : m.root = some a) : m.Live a
  /-- It is a child of a node that can be reached. -/
  | child {a b : Addr} {nd : Node} {d : Side} (ha : m.Live a) (hnd : m.node a = some nd)
    (hb : nd.child d = some b) : m.Live b

/-- All pointers in the local variables that the rest of the call may still use. -/
def Pc.pointers : Pc → List Addr
  | .lockTree | .testRoot | .readRoot | .createRoot | .unlockTreeRet _ | .ret _ | .crash => []
  | .lockRoot c | .unlockTree c | .linkRoot c | .unlockRet c _ => [c]
  | .insEq c | .insLt c | .insNull c _ | .insCreate c _ | .insNext c _ => [c]
  | .insLink c _ a => [c, a]
  | .insLock c n | .insUnlock c n | .lookLock c n | .lookUnlock c n => [c, n]
  | .lookEq c | .lookVal c | .lookLt c | .lookNext c _ => [c]
  | .delRootKey c | .delRootLeft c | .delRootRight c | .delRootPickL c | .delRootPick c _ => [c]
  | .delRootWrite c p => c :: p.toList
  | .delRootUnlockTree c | .delUnlockFree c | .free c | .del2UnlockTree c | .delUnlockTree c => [c]
  | .delLt0 c | .delNext0 c _ => [c]
  | .delLock q _ c | .delKey q _ c | .delLt q _ c | .delNext q _ c _ | .delMiss q c => [q, c]
  | .delUnlockParent q c _ n => [q, c, n]
  | .delLeft q _ c | .delRight q _ c | .delPickL q _ c | .delPick q _ c _ => [q, c]
  | .delWrite q _ c p => q :: c :: p.toList
  | .delUnlockParent1 q c | .del2UnlockParent q c => [q, c]
  | .d2Right c => [c]
  | .d2LockSucc c s => [c, s]
  | .d2Test c q s | .d2Next c q s => [c, q, s]
  | .d2Lock c q s n | .d2Unlock c q s n => [c, q, s, n]
  | .d2Key c q s | .d2SetKey c q s _ | .d2Val c q s | .d2SetVal c q s _ | .d2Succ c q s => [c, q, s]
  | .d2Link c q s p => c :: q :: s :: p.toList
  | .d2UnlockParent c q s => [c, q, s]
  | .d2UnlockSucc c s | .d2Free c s => [c, s]

theorem Pc.pointers_locals {pc : Pc} {x : Addr} (h : x ∈ pc.pointers) : x ∈ pc.locals := by
  cases pc <;> simp only [pointers, List.mem_cons, List.not_mem_nil, or_false, Option.mem_toList] at h <;>
    simp only [mem_locals, held, want, own, mem_held_d2, List.mem_cons, List.not_mem_nil, or_false, false_or,
      Option.some.injEq, reduceCtorEq] <;>
    grind

section

variable {σ : State} {V : View} {t u : Tid} {c c' : Call} {pc pc' : Pc} {a x n : Addr}

/-- What can be reached is the tree. -/
theorem Inv.live_mem (h : Inv σ V) (hx : σ.mem.Live x) : x ∈ V.addrs := by
  induction hx with
  | root hr => exact root_mem (h.root ▸ hr)
  | @child y z nd d _ hnd hb ih =>
    obtain ⟨nd', hnd'⟩ := cell_of_mem ih
    obtain ⟨nm, hnm, hl, hr, -⟩ := h.cells _ nd' hnd'
    rw [hnd] at hnm
    cases hnm
    apply child_mem (d := d) hnd'
    cases d with
    | left => exact hl.symm.trans hb
    | right => exact hr.symm.trans hb

/-- The pointers of a thread are to allocated nodes. -/
theorem Inv.local_alloc (h : Inv σ V) (ht : σ.thread t = some (c, pc)) (hx : x ∈ pc.locals) :
    ∃ nd, σ.mem.node x = some nd := by
  by_cases hown : pc.own = some x
  · exact ((h.thr t c pc ht).own x hown).2
  · obtain ⟨nd, hnd⟩ := cell_of_mem (h.local_mem ht hx hown)
    obtain ⟨nm, hnm, -⟩ := h.cells x nd hnd
    exact ⟨nm, hnm⟩

/-- A node of one's own is in no one else's hands. -/
theorem Inv.own_clear (h : Inv σ V) (ht : σ.thread t = some (c, pc)) (hn : pc.own = some n) : Clear σ t n := by
  intro u hut c' pcu hu hx
  have hnV := ((h.thr t c pc ht).own n hn).1
  exact hnV (h.local_mem hu hx fun ho => hut (h.apart u t c' c pcu pc n hu ht ho hn))

theorem free_own {op : Op} {next : Pc} (h : code op pc = .free n next) : pc.own = some n := by
  cases pc <;> simp only [code, reduceCtorEq, Instr.free.injEq] at h <;>
    first
    | (obtain ⟨rfl, -⟩ := h; rfl)
    | (split_ifs at h)

theorem lock_want {op : Op} {next : Pc} (h : code op pc = .lock n next) : pc.want = some n := by
  cases pc <;> simp only [code, reduceCtorEq, Instr.lock.injEq] at h <;>
    first
    | (obtain ⟨rfl, -⟩ := h; rfl)
    | (split_ifs at h)

/-- At a `free`, the node is no longer locked. -/
theorem Inv.free_unlocked (h : Inv σ V) (ht : σ.thread t = some (c, pc)) {next : Pc}
    (hf : code c.op pc = .free n next) : σ.mem.lock n = none := by
  by_contra hne
  obtain ⟨u, hu⟩ := Option.ne_none_iff_exists'.mp hne
  obtain ⟨cu, pcu, hpu, hnu⟩ := (h.locks n u).mp hu
  by_cases hut : u = t
  · subst hut
    rw [ht] at hpu
    cases hpu
    have hl := h.thr u c pc ht
    cases pc <;> simp only [code, reduceCtorEq, Instr.free.injEq] at hf <;>
      first
      | (split_ifs at hf)
      | skip
    case free cur => simp [Pc.held] at hnu
    case d2Free cur s =>
      obtain ⟨rfl, -⟩ := hf
      exact hl.fact (by simpa [Pc.held, eq_comm] using hnu)
  · exact h.own_clear ht (free_own hf) u hut cu pcu hpu (Pc.mem_locals.mpr (.inl hnu))

end

/-- **No thread touches a removed node.** In every reachable state: who accesses a field of
a node has its lock, who accesses the root has `tree->lock`; and when `bst_node_free(n)` is
next, `n` is allocated, no one has its lock or is waiting for it, and there is no pointer
to it in the tree, in `tree->root` or in another thread's live local variables. -/
theorem no_access_to_removed {σ : State} (hσ : Reachable σ) (t : Tid) (c : Call) (pc : Pc)
    (ht : σ.thread t = some (c, pc)) :
    (∀ a, (code c.op pc).touches = some a → σ.mem.lock a = some t) ∧
    ((code c.op pc).touchesRoot = true → σ.mem.treeLock = some t) ∧
    ∀ n next, code c.op pc = .free n next →
      σ.mem.node n ≠ none ∧ σ.mem.lock n = none ∧
      (∀ u c' pc' next', σ.thread u = some (c', pc') → code c'.op pc' ≠ .lock n next') ∧
      (∀ x nd d, σ.mem.Live x → σ.mem.node x = some nd → nd.child d ≠ some n) ∧
      σ.mem.root ≠ some n ∧
      ∀ u ≠ t, ∀ c' pc', σ.thread u = some (c', pc') → n ∉ pc'.pointers := by
  obtain ⟨V, h⟩ := reachable_inv hσ
  refine ⟨fun a ha => (h.locks a t).mpr ⟨c, pc, ht, touches_held ha⟩,
    fun hr => (h.treeLock t).mpr ⟨c, pc, ht, touchesRoot_hasTree hr⟩, ?_⟩
  intro n next hf
  have hown := free_own hf
  have hclear := h.own_clear ht hown
  obtain ⟨hnV, nd, hnd⟩ := (h.thr t c pc ht).own n hown
  refine ⟨by simp [hnd], h.free_unlocked ht hf, ?_, ?_, fun hr => hnV (h.live_mem (.root hr)),
    fun u hut c' pc' hu hn => hclear u hut c' pc' hu (Pc.pointers_locals hn)⟩
  · intro u c' pc' next' hu hl
    by_cases hut : u = t
    · subst hut
      rw [ht] at hu
      cases hu
      rw [hf] at hl
      cases hl
    · exact hclear u hut c' pc' hu (Pc.mem_locals.mpr (.inr (.inl (lock_want hl))))
  · intro x nx d hx hnx hd
    exact hnV (h.live_mem (hx.child hnx hd))

/-- Insert a key, and delete it up to the `free`. -/
def freeSchedule : List Move :=
  [.call 0 (.insert 5 7)] ++ List.replicate 5 (.run 0 (some 3)) ++ [.ret 0, .call 0 (.delete 5)] ++
    List.replicate 11 (.run 0 none)

theorem no_access_to_removed_free : ∃ σ c, Reachable σ ∧ σ.thread 0 = some (c, .free 3) ∧
    code c.op (.free 3) = .free 3 (.ret .ok) ∧ σ.mem.node 3 ≠ none ∧ σ.mem.lock 3 = none ∧ σ.mem.root ≠ some 3 := by
  obtain ⟨σ, hσ, ht⟩ : ∃ σ, init.play freeSchedule = some σ ∧ σ.thread 0 = some (⟨.delete 5, 7⟩, .free 3) :=
    ⟨_, rfl, rfl⟩
  obtain ⟨-, -, h⟩ := no_access_to_removed (steps_of_play hσ) 0 _ _ ht
  obtain ⟨h₁, h₂, -, -, h₃, -⟩ := h 3 (.ret .ok) rfl
  exact ⟨σ, _, steps_of_play hσ, ht, rfl, h₁, h₂, h₃⟩

end SdeSystems.Bst
