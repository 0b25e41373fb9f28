import SdeSystems.Bst.LockSafety
import Mathlib.Tactic.SplitIfs

/-!
# One call at a time: the tree is a map

A thread that is alone is never stuck (`Inv.progress`) and comes down to its `return`
(`rank_step`: every step brings it nearer, by the height it still has to go). So
`runCalls`, the code of `bst.c` run one call after the other, does to the tree what the
calls do to a finite map.
-/

namespace SdeSystems.Bst

open Function Relation Lib Lib.Tree

/-! ### A thread is stuck only where another has the lock -/

section

variable {σ : State} {V : View} {t : Tid} {c : Call} {pc pc' : Pc} {ao : Option Addr} {m' : Mem} {op : Op}
  {a : Addr} {next : Pc}

theorem unlock_held (h : code op pc = .unlock a next) : a ∈ pc.held := by
  cases pc <;> simp only [code, reduceCtorEq, Instr.unlock.injEq] at h <;>
    first
    | (obtain ⟨rfl, -⟩ := h; simp [Pc.held])
    | (split_ifs at h)

theorem unlockTree_hasTree (h : code op pc = .unlockTree next) : pc.hasTree = true := by
  cases pc <;> simp only [code, reduceCtorEq] at h <;>
    first
    | rfl
    | (split_ifs at h)

theorem lockTree_hasTree (h : code op pc = .lockTree next) : pc.hasTree = false := by
  cases pc <;> first | rfl | simp [code] at h

theorem stop_eq (h : code op pc = .stop) : pc = .crash ∨ ∃ r, pc = .ret r := by
  cases pc <;> simp only [code, reduceCtorEq] at h <;>
    first
    | exact .inl rfl
    | exact .inr ⟨_, rfl⟩
    | (split_ifs at h)

/-- The pointer a thread is about to lock is not to a node it has locked. -/
theorem Inv.lock_notMem (h : Inv σ V) (ht : σ.thread t = some (c, pc)) (hl : code c.op pc = .lock a next) :
    a ∉ pc.held := by
  have hfact := (h.thr t c pc ht).fact
  have hlink : ∀ {q d n}, Link V q d n → n ≠ q := by
    rintro q d n ⟨nd, hnd, hd⟩ rfl
    exact child_ne_self h.valid.nodup hnd hd
  cases pc <;> simp only [code, reduceCtorEq, Instr.lock.injEq] at hl <;>
    first
    | obtain ⟨rfl, -⟩ := hl
    | (split_ifs at hl)
  case lockRoot cur => simp [Pc.held]
  case insLock cur n =>
    obtain ⟨-, d, hd⟩ := hfact
    simpa [Pc.held] using hlink hd
  case lookLock cur n =>
    obtain ⟨-, d, hd⟩ := hfact
    simpa [Pc.held] using hlink hd
  case delLock q d n => simpa [Pc.held] using hlink hfact.2
  case d2LockSucc cur s =>
    have hs : Link V cur .right s := hfact.mono fun nd _ hnd => hnd.2
    simpa [Pc.held] using hlink hs
  case d2Lock cur q s n =>
    obtain ⟨⟨nd, M, hnd, -, hM, hcase⟩, nz, hnz, hn⟩ := hfact
    have hnodup := (hM.snoc hnz hn).nodup h.valid.nodup hnd
    have hq : q ∈ cur :: M := by
      rcases hcase with ⟨-, rfl⟩ | ⟨L, rfl, -⟩ <;> simp
    rw [Pc.held, mem_held_d2]
    simp only [List.nodup_cons, List.mem_append, List.mem_singleton, List.nodup_append] at hnodup
    rintro (rfl | rfl | rfl)
    · exact hnodup.1 (.inr rfl)
    · rcases List.mem_cons.mp hq with rfl | hq
      · exact hnodup.1 (.inr rfl)
      · exact hnodup.2.2.2 n (.inl hq) n rfl rfl
    · exact hnodup.2.2.2 n (.inr rfl) n rfl rfl

/-- **Threads only ever wait for one another**: at every place before the `return` a thread
can go on, or it is at a lock that another thread has. -/
theorem Inv.progress (h : Inv σ V) (ht : σ.thread t = some (c, pc)) (hret : ∀ r, pc ≠ .ret r)
    (hao : ∀ a, ao = some a → σ.mem.node a = none) :
    (exec t ao σ.mem (code c.op pc)).isSome ∨
    ∃ u ≠ t, (∃ a next, code c.op pc = .lock a next ∧ σ.mem.lock a = some u) ∨
      ∃ next, code c.op pc = .lockTree next ∧ σ.mem.treeLock = some u := by
  have htouch : ∀ a, (code c.op pc).touches = some a → ∃ nd, σ.mem.node a = some nd := fun a ha =>
    h.local_alloc ht (Pc.mem_locals.mpr (.inl (touches_held ha)))
  cases hi : code c.op pc with
  | lockTree next =>
    cases hl : σ.mem.treeLock with
    | none => exact .inl (by simp [exec, hl])
    | some u =>
      refine .inr ⟨u, ?_, .inr ⟨next, rfl, rfl⟩⟩
      rintro rfl
      obtain ⟨c', pc', ht', htree⟩ := (h.treeLock u).mp hl
      rw [ht] at ht'
      cases ht'
      simp [lockTree_hasTree hi] at htree
  | unlockTree next =>
    have hl := (h.treeLock t).mpr ⟨c, pc, ht, unlockTree_hasTree hi⟩
    exact .inl (by simp [exec, hl])
  | readRoot f => exact .inl rfl
  | writeRoot p next => exact .inl rfl
  | lock a next =>
    obtain ⟨nd, hnd⟩ := h.local_alloc ht (Pc.mem_locals.mpr (.inr (.inl (lock_want hi))))
    cases hl : σ.mem.lock a with
    | none => exact .inl (by simp [exec, hl, hnd])
    | some u =>
      refine .inr ⟨u, ?_, .inl ⟨a, next, rfl, hl⟩⟩
      rintro rfl
      obtain ⟨c', pc', ht', hheld⟩ := (h.locks a u).mp hl
      rw [ht] at ht'
      cases ht'
      exact h.lock_notMem ht hi hheld
  | unlock a next =>
    have hheld := unlock_held hi
    obtain ⟨nd, hnd⟩ := h.local_alloc ht (Pc.mem_locals.mpr (.inl hheld))
    have hl := (h.locks a t).mpr ⟨c, pc, ht, hheld⟩
    exact .inl (by simp [exec, hl, hnd])
  | readKey a f | readVal a f =>
    obtain ⟨nd, hnd⟩ := htouch a (by rw [hi]; rfl)
    exact .inl (by simp [exec, hnd])
  | readChild a d f =>
    obtain ⟨nd, hnd⟩ := htouch a (by rw [hi]; rfl)
    exact .inl (by simp [exec, hnd])
  | writeKey a k next | writeVal a k next =>
    obtain ⟨nd, hnd⟩ := htouch a (by rw [hi]; rfl)
    exact .inl (by simp [exec, hnd])
  | writeChild a d p next =>
    obtain ⟨nd, hnd⟩ := htouch a (by rw [hi]; rfl)
    exact .inl (by simp [exec, hnd])
  | create k v f =>
    cases ao with
    | none => exact .inl rfl
    | some a => exact .inl (by simp [exec, hao a rfl])
  | free a next =>
    obtain ⟨-, nd, hnd⟩ := (h.thr t c pc ht).own a (free_own hi)
    exact .inl (by simp [exec, hnd, h.free_unlocked ht hi])
  | stop =>
    rcases stop_eq hi with rfl | ⟨r, rfl⟩
    · exact (h.thr t c _ ht).fact.elim
    · exact absurd rfl (hret r)

end

/-! ### A thread comes to its `return` -/

/-- The number of nodes below `a`, itself included. -/
def size (V : View) (a : Addr) : ℕ := ((V.sub a).map (·.addrs.length)).getD 0

theorem size_le {V : View} (hV : V.Valid) (a : Addr) : size V a ≤ V.addrs.length := by
  unfold size
  cases hs : V.sub a with
  | none => simp
  | some s =>
    obtain ⟨p, q, -, -, h, -⟩ := replace_split hV.nodup hs
    simp only [Option.map_some, Option.getD_some, h, List.length_append]
    omega

theorem Link.size_lt {V : View} (hV : V.Valid) {q c : Addr} {d : Side} (h : Link V q d c) :
    size V c < size V q := by
  obtain ⟨nd, hnd, hd⟩ := h
  obtain ⟨l, r, hs, hl, hr⟩ := cell_eq_some hnd
  obtain ⟨h₁, h₂⟩ := sub_child hV.nodup hs
  cases d with
  | left =>
    have hc := h₁ c (hl ▸ hd)
    simp only [size, hs, hc, Option.map_some, Option.getD_some, addrs_node, List.length_append, List.length_cons]
    omega
  | right =>
    have hc := h₂ c (hr ▸ hd)
    simp only [size, hs, hc, Option.map_some, Option.getD_some, addrs_node, List.length_append, List.length_cons]
    omega

/-- How far a thread is from its `return`: twenty steps for each node that may still come,
and the steps at this one. -/
def Pc.rank (V : View) : Pc → ℕ
  | .ret _ | .crash => 0
  | .unlockTreeRet _ | .unlockRet _ _ => 2
  | .delMiss _ _ | .free _ => 3
  | .delUnlockFree _ | .d2Free _ _ => 4
  | .delRootUnlockTree _ | .delUnlockParent1 _ _ | .d2UnlockSucc _ _ => 5
  | .d2UnlockParent _ _ _ => 6
  | .lockTree => 20 * V.addrs.length + 46
  | .testRoot => 20 * V.addrs.length + 45
  | .readRoot => 20 * V.addrs.length + 44
  | .lockRoot _ => 20 * V.addrs.length + 43
  | .unlockTree _ => 20 * V.addrs.length + 42
  | .createRoot => 13
  | .linkRoot _ => 12
  | .insEq c | .lookEq c => 20 * size V c + 17
  | .insLt c | .lookVal c | .lookLt c => 20 * size V c + 16
  | .insNull c _ | .lookNext c _ => 20 * size V c + 15
  | .insCreate c _ | .insNext c _ => 20 * size V c + 14
  | .insLink c _ _ => 20 * size V c + 13
  | .insLock c _ | .lookLock c _ => 20 * size V c + 12
  | .insUnlock c _ | .lookUnlock c _ => 20 * size V c + 11
  | .delRootKey c => 20 * size V c + 25
  | .delRootLeft c | .delUnlockTree c => 20 * size V c + 24
  | .delRootRight c | .delLt0 c => 20 * size V c + 23
  | .delRootPickL c | .del2UnlockTree c | .delNext0 c _ => 20 * size V c + 22
  | .delRootPick c _ => 20 * size V c + 21
  | .delRootWrite c _ => 20 * size V c + 20
  | .delLock _ _ c => 20 * size V c + 29
  | .delKey _ _ c => 20 * size V c + 28
  | .delLt _ _ c | .delLeft _ _ c => 20 * size V c + 27
  | .delNext _ _ c _ | .delRight _ _ c => 20 * size V c + 26
  | .delPickL _ _ c | .delUnlockParent _ c _ _ | .del2UnlockParent _ c => 20 * size V c + 25
  | .delPick _ _ c _ => 20 * size V c + 24
  | .delWrite _ _ c _ => 20 * size V c + 23
  | .d2Right c => 20 * size V c + 19
  | .d2LockSucc c _ => 20 * size V c + 18
  | .d2Test _ _ s => 20 * size V s + 17
  | .d2Next _ _ s | .d2Key _ _ s => 20 * size V s + 16
  | .d2Lock _ _ s _ | .d2SetKey _ _ s _ => 20 * size V s + 15
  | .d2Unlock _ _ s _ | .d2Val _ _ s => 20 * size V s + 14
  | .d2SetVal _ _ s _ => 20 * size V s + 13
  | .d2Succ _ _ s => 20 * size V s + 12
  | .d2Link _ _ s _ => 20 * size V s + 11

/-- After the call has taken effect, the tree no longer matters. -/
theorem rank_effect {V V' : View} {pc : Pc} (h : pc.effect ≠ none) : pc.rank V' = pc.rank V := by
  cases pc <;> first | rfl | simp [Pc.effect] at h

section

variable {σ : State} {V : View} {t : Tid} {c : Call} {pc pc' : Pc} {ao : Option Addr} {m' : Mem}

/-- A pointer that is about to be followed. -/
theorem rank_follow {f : Addr → Pc} {p : Option Addr} {n : ℕ} (h : ∀ x, (f x).rank V < n) :
    (follow f p).rank V < n := by
  cases p with
  | none => exact Nat.lt_of_le_of_lt (Nat.zero_le _) (h 0)
  | some x => exact h x

/-- **Every step brings a thread nearer to its `return`.** -/
theorem Inv.rank_step (h : Inv σ V) (ht : σ.thread t = some (c, pc))
    (he : exec t ao σ.mem (code c.op pc) = some (m', pc')) : pc'.rank V < pc.rank V := by
  have hfact := (h.thr t c pc ht).fact
  have htot := size_le h.valid
  have hlink : ∀ {q d n}, Link V q d n → size V n < size V q := fun hl => hl.size_lt h.valid
  cases pc <;>
    simp only [code, exec, Option.some.injEq, Prod.mk.injEq, Option.ite_none_right_eq_some,
      Option.map_eq_some_iff, reduceCtorEq] at he
  -- the steps that follow a pointer, or go on at another node
  case readRoot =>
    obtain ⟨-, rfl⟩ := he
    exact rank_follow fun x => by simp [Pc.rank]
  case insNext cur d =>
    obtain ⟨nd, -, -, rfl⟩ := he
    exact rank_follow fun x => by simp [Pc.rank]
  case insUnlock cur n =>
    obtain ⟨-, -, rfl⟩ := he
    obtain ⟨-, d, hd⟩ := hfact
    have := hlink hd
    simp only [Pc.rank]
    omega
  case lookUnlock cur n =>
    obtain ⟨-, -, rfl⟩ := he
    obtain ⟨-, d, hd⟩ := hfact
    have := hlink hd
    simp only [Pc.rank]
    omega
  case delNext0 cur d =>
    obtain ⟨nm, hnm, -, rfl⟩ := he
    obtain ⟨-, nd, hnd, -, -⟩ := hfact
    have hread := h.read ht (a := cur) (by simp [Pc.held]) (by simp [Pc.copying]) hnd
    obtain rfl : nd = nm := by simpa [hread] using hnm
    cases hn : nd.child d with
    | none => simp [Pc.rank]
    | some n =>
      have := hlink (d := d) ⟨nd, hnd, hn⟩
      simp only [Pc.rank]
      omega
  case delUnlockParent q cur e n =>
    obtain ⟨-, -, rfl⟩ := he
    have := hlink hfact.2
    simp only [Pc.rank]
    omega
  case d2Right cur =>
    obtain ⟨nd, -, -, rfl⟩ := he
    exact rank_follow fun x => by simp [Pc.rank]
  case d2LockSucc cur s =>
    obtain ⟨-, -, rfl⟩ := he
    have := hlink (d := .right) (hfact.mono fun nd _ hnd => hnd.2)
    simp only [Pc.rank]
    omega
  case d2Next cur q s =>
    obtain ⟨nd, -, -, rfl⟩ := he
    exact rank_follow fun x => by simp [Pc.rank]
  case d2Lock cur q s n =>
    obtain ⟨-, -, rfl⟩ := he
    have := hlink (d := .left) hfact.2
    split_ifs <;> simp only [Pc.rank] <;> omega
  case d2Unlock cur q s n =>
    obtain ⟨-, -, rfl⟩ := he
    have := hlink (d := .left) hfact.2
    simp only [Pc.rank]
    omega
  case d2Link cur q s p =>
    by_cases hq : q = cur <;>
      simp only [hq, if_true, if_false, Option.map_eq_some_iff, Prod.mk.injEq] at he <;>
      obtain ⟨nd, -, -, rfl⟩ := he <;> simp only [Pc.rank] <;> omega
  all_goals
    clear hfact hlink
    grind [Pc.rank]

end

/-! ### A thread alone -/

/-- There are addresses left. -/
def Mem.Bounded (m : Mem) : Prop := ∃ B, ∀ a, B ≤ a → m.node a = none

theorem Mem.Bounded.exists_free {m : Mem} (h : m.Bounded) : ∃ a, m.node a = none := by
  obtain ⟨B, hB⟩ := h
  exact ⟨B, hB B (Nat.le_refl B)⟩

theorem Mem.Bounded.mono {m m' : Mem} (h : m.Bounded) {x : Addr}
    (hm : ∀ a, a ≠ x → m.node a = none → m'.node a = none) : m'.Bounded := by
  obtain ⟨B, hB⟩ := h
  refine ⟨max B (x + 1), fun a ha => hm a ?_ (hB a (Nat.le_trans (Nat.le_max_left ..) ha))⟩
  exact Nat.ne_of_gt (Nat.lt_of_succ_le (Nat.le_trans (Nat.le_max_right ..) ha))

/-- A step allocates one node at most. -/
theorem exec_bounded {t : Tid} {ao : Option Addr} {m m' : Mem} {i : Instr Pc} {pc' : Pc} (h : m.Bounded)
    (he : exec t ao m i = some (m', pc')) : m'.Bounded := by
  cases i <;> simp only [exec, Option.some.injEq, Prod.mk.injEq, Option.ite_none_right_eq_some,
    Option.map_eq_some_iff, reduceCtorEq] at he
  case lockTree => obtain ⟨-, rfl, -⟩ := he; exact h
  case unlockTree => obtain ⟨-, rfl, -⟩ := he; exact h
  case readRoot => obtain ⟨rfl, -⟩ := he; exact h
  case writeRoot => obtain ⟨rfl, -⟩ := he; exact h
  case lock => obtain ⟨-, rfl, -⟩ := he; exact h
  case unlock => obtain ⟨-, rfl, -⟩ := he; exact h
  case readKey => obtain ⟨nd, -, rfl, -⟩ := he; exact h
  case readVal => obtain ⟨nd, -, rfl, -⟩ := he; exact h
  case readChild => obtain ⟨nd, -, rfl, -⟩ := he; exact h
  case writeKey a k p =>
    obtain ⟨nd, -, rfl, -⟩ := he
    exact h.mono fun b hb hn => (update_of_ne hb _ _).trans hn
  case writeVal a v p =>
    obtain ⟨nd, -, rfl, -⟩ := he
    exact h.mono fun b hb hn => (update_of_ne hb _ _).trans hn
  case writeChild a d q p =>
    obtain ⟨nd, -, rfl, -⟩ := he
    exact h.mono fun b hb hn => (update_of_ne hb _ _).trans hn
  case create k v f =>
    rcases exec_create (t := t) he with ⟨-, rfl, -⟩ | ⟨a, -, -, rfl, -⟩
    · exact h
    · exact h.mono fun b hb hn => (update_of_ne hb _ _).trans hn
  case free a p =>
    obtain ⟨-, rfl, -⟩ := he
    exact h.mono fun b hb hn => (update_of_ne hb _ _).trans hn

/-- One thread in a call, and no other. -/
def solo (m : Mem) (c : Call) (pc : Pc) : State := { init with mem := m, thread := update init.thread 0 (some (c, pc)) }

theorem solo_thread (m : Mem) (c : Call) (pc : Pc) : (solo m c pc).thread 0 = some (c, pc) := by
  simp [solo]

/-- No thread in a call. -/
def idle (m : Mem) : State := { init with mem := m }

/-- The invariant is about the memory and the threads. -/
theorem Inv.congr {σ σ' : State} {V : View} (h : Inv σ V) (hm : σ'.mem = σ.mem) (ht : σ'.thread = σ.thread) :
    Inv σ' V := by
  have hc : ∀ t, Clear σ' t = Clear σ t := fun t => by unfold Clear; rw [ht]
  refine ⟨h.valid, hm ▸ h.root, ?_, ?_, ?_, ?_, ?_⟩
  · rw [hm, ht]
    exact h.cells
  · rw [hm, ht]
    exact h.locks
  · rw [hm, ht]
    exact h.treeLock
  · rw [ht]
    exact h.apart
  · intro t c pc hpc
    rw [hm, hc]
    exact h.thr t c pc (ht ▸ hpc)

/-- One step of a thread that is alone. -/
theorem solo_step {V : View} {m m' : Mem} {c : Call} {pc pc' : Pc} {ao : Option Addr} (h : Inv (solo m c pc) V)
    (he : exec 0 ao m (code c.op pc) = some (m', pc')) :
    ∃ V', Inv (solo m' c pc') V' ∧ StepEffect ((code c.op pc).mallocFails ao) c.op V V' pc pc' := by
  obtain ⟨V', h', heff⟩ := h.run_step (solo_thread m c pc) he
  refine ⟨V', h'.congr rfl ?_, heff⟩
  simp [solo, State.move]

theorem exec_allocated {t : Tid} {ao : Option Addr} {m m' : Mem} {op : Op} {pc pc' : Pc}
    (he : exec t ao m (code op pc) = some (m', pc')) (ha : pc'.allocated = true) : ao ≠ none := by
  rintro rfl
  cases pc <;>
    simp only [code, exec, follow, Option.some.injEq, Prod.mk.injEq, Option.ite_none_right_eq_some,
      Option.map_eq_some_iff, reduceCtorEq] at he
  case d2Link cur q s p =>
    by_cases hq : q = cur <;>
      simp only [hq, if_true, if_false, Option.map_eq_some_iff, Prod.mk.injEq] at he <;>
      obtain ⟨nd, -, -, rfl⟩ := he <;> simp [Pc.allocated] at ha
  all_goals grind [Pc.allocated]

theorem runFrom_succ {M : Malloc} {ok : Bool} {op : Op} {fuel : ℕ} {m : Mem} {pc : Pc} (h : ∀ r, pc ≠ .ret r) :
    runFrom M ok op (fuel + 1) m pc = (exec 0 (if ok then some (M.pick m) else none) m (code op pc)).bind
      fun mp => runFrom M ok op fuel mp.1 mp.2 := by
  rw [runFrom]
  exact h

/-- **A thread that is alone returns**, and its call has done to the tree what it does to
the map. -/
theorem runFrom_spec (M : Malloc) (ok : Bool) (c : Call) (fuel : ℕ) {V : View} {m : Mem} {pc : Pc}
    (h : Inv (solo m c pc) V) (hb : m.Bounded) (halloc : pc.allocated = true → ok = true) (hfuel : pc.rank V ≤ fuel) :
    ∃ m' r V', runFrom M ok c.op fuel m pc = some (m', r) ∧ Inv (solo m' c (.ret r)) V' ∧ m'.Bounded ∧
      (∀ r', pc.effect = some r' → r = r' ∧ V' = V) ∧ (pc.effect = none → Takes ok c.op V V' r) := by
  induction fuel generalizing V m pc with
  | zero =>
    by_cases hret : ∃ r, pc = .ret r
    · obtain ⟨r, rfl⟩ := hret
      exact ⟨m, r, V, by simp [runFrom], h, hb, by simp [Pc.effect], by simp [Pc.effect]⟩
    · -- only a `return` has no step left
      have hfact := (h.thr 0 c pc (solo_thread m c pc)).fact
      cases pc <;> simp [Pc.rank] at hfuel
      · exact absurd ⟨_, rfl⟩ hret
      · exact hfact.elim
  | succ fuel ih =>
    by_cases hret : ∃ r, pc = .ret r
    · obtain ⟨r, rfl⟩ := hret
      exact ⟨m, r, V, by simp [runFrom], h, hb, by simp [Pc.effect], by simp [Pc.effect]⟩
    · have hret' : ∀ r, pc ≠ .ret r := fun r hr => hret ⟨r, hr⟩
      obtain ⟨ao, hao⟩ : ∃ ao, ao = if ok then some (M.pick m) else none := ⟨_, rfl⟩
      have hfresh : ∀ a, ao = some a → m.node a = none := by
        intro a ha
        cases ok with
        | false => simp [hao] at ha
        | true =>
          simp only [hao, if_true, Option.some.injEq] at ha
          exact ha ▸ M.fresh m hb.exists_free
      rcases h.progress (solo_thread m c pc) hret' hfresh with hex | ⟨u, hu, hblocked⟩
      · obtain ⟨⟨m₁, pc₁⟩, he⟩ := Option.isSome_iff_exists.mp hex
        obtain ⟨V₁, h₁, heff⟩ := solo_step h he
        have hrank := h.rank_step (solo_thread m c pc) he
        have hrank₁ : pc₁.rank V₁ ≤ fuel := by
          rcases heff with ⟨rfl, -⟩ | ⟨-, r, hr, -⟩
          · omega
          · rw [rank_effect (V := V) (by simp [hr])]
            omega
        have halloc₁ : pc₁.allocated = true → ok = true := by
          intro ha
          have := exec_allocated he ha
          cases ok with
          | false => simp [hao] at this
          | true => rfl
        obtain ⟨m', r, V', hrun, h', hb', heff₁, htakes₁⟩ := ih h₁ (exec_bounded hb he) halloc₁ hrank₁
        have hrun' : runFrom M ok c.op (fuel + 1) m pc = some (m', r) := by
          rw [runFrom_succ hret', ← hao, show exec 0 ao m (code c.op pc) = some (m₁, pc₁) from he]
          exact hrun
        refine ⟨m', r, V', hrun', h', hb', ?_, ?_⟩
        · intro r' hr'
          rcases heff with ⟨rfl, hsame⟩ | ⟨hnone, -⟩
          · exact heff₁ r' (hsame.trans hr')
          · simp [hnone] at hr'
        · intro hnone
          rcases heff with ⟨rfl, hsame⟩ | ⟨-, r₁, hr₁, htakes⟩
          · exact htakes₁ (hsame.trans hnone)
          · obtain ⟨rfl, rfl⟩ := heff₁ r₁ hr₁
            refine htakes ok ?_ halloc
            -- a failed `malloc` is one that was to fail
            intro hfail
            have : ao = none := by
              cases hi : code c.op pc <;> simp [hi, Instr.mallocFails] at hfail
              exact hfail
            cases ok with
            | false => rfl
            | true => simp [hao] at this
      · -- there is no other thread
        rcases hblocked with ⟨a, next, -, hl⟩ | ⟨next, -, hl⟩
        · obtain ⟨c', pc', hpc', -⟩ := (h.locks a u).mp hl
          simp [solo, init, hu] at hpc'
        · obtain ⟨c', pc', hpc', -⟩ := (h.treeLock u).mp hl
          simp [solo, init, hu] at hpc'

theorem runFrom_mono {M : Malloc} {ok : Bool} {op : Op} {fuel fuel' : ℕ} {m : Mem} {pc : Pc} {x : Mem × Ret}
    (h : runFrom M ok op fuel m pc = some x) (hle : fuel ≤ fuel') : runFrom M ok op fuel' m pc = some x := by
  induction fuel generalizing fuel' m pc with
  | zero =>
    cases pc <;> simp only [runFrom, reduceCtorEq] at h
    exact h ▸ by simp [runFrom]
  | succ fuel ih =>
    obtain ⟨fuel', rfl⟩ : ∃ n, fuel' = n + 1 := ⟨fuel' - 1, by omega⟩
    by_cases hret : ∃ r, pc = .ret r
    · obtain ⟨r, rfl⟩ := hret
      simpa [runFrom] using h
    · have hret' : ∀ r, pc ≠ .ret r := fun r hr => hret ⟨r, hr⟩
      rw [runFrom_succ hret'] at h ⊢
      obtain ⟨mp, he, h⟩ := Option.bind_eq_some_iff.mp h
      rw [he]
      exact ih h (by omega)

/-! ### Sequences of calls -/

/-- The calls on the map, one after the other. -/
def applyAll : List (Op × Bool) → Map → Map × List Ret
  | [], M => (M, [])
  | (op, ok) :: rest, M =>
    ((applyAll rest (apply ok M op).1).1, (apply ok M op).2 :: (applyAll rest (apply ok M op).1).2)

/-- Between two calls: the memory stands for the tree, and no lock is taken. -/
structure Between (m : Mem) (V : View) : Prop where
  /-- The invariant, with no thread in a call. -/
  inv : Inv (idle m) V
  /-- There are addresses left. -/
  bounded : m.Bounded

theorem between_init : Between bstInit .leaf := ⟨inv_init.congr rfl rfl, 0, fun _ _ => rfl⟩

/-- One call. -/
theorem Between.run {m : Mem} {V : View} (h : Between m V) (M : Malloc) (ok : Bool) (op : Op) :
    ∃ fuel m' r V', (∀ n, fuel ≤ n → runFrom M ok op n m .lockTree = some (m', r)) ∧ Between m' V' ∧
      Takes ok op V V' r := by
  have hcall : Inv (solo m ⟨op, 0⟩ .lockTree) V := h.inv.call_step (t := 0) rfl |>.congr rfl rfl
  obtain ⟨m', r, V', hrun, h', hb, -, htakes⟩ :=
    runFrom_spec M ok ⟨op, 0⟩ _ hcall h.bounded (by simp [Pc.allocated]) (Nat.le_refl _)
  refine ⟨_, m', r, V', fun n hn => runFrom_mono hrun hn, ⟨?_, hb⟩, htakes rfl⟩
  refine (h'.ret_step (solo_thread m' ⟨op, 0⟩ (.ret r))).congr rfl ?_
  simp [idle, solo, init]

/-- The calls, one after the other. -/
theorem Between.runAll {m : Mem} {V : View} {D : Map} (h : Between m V) (hD : Entries V D) (M : Malloc)
    (calls : List (Op × Bool)) : ∃ fuel m' V', (∀ n, fuel ≤ n → runCalls M n calls m = some (m', (applyAll calls D).2)) ∧
      Between m' V' ∧ Entries V' (applyAll calls D).1 := by
  induction calls generalizing m V D with
  | nil => exact ⟨0, m, V, fun n _ => rfl, h, hD⟩
  | cons call rest ih =>
    obtain ⟨op, ok⟩ := call
    obtain ⟨f₁, m₁, r, V₁, hrun₁, h₁, htakes⟩ := h.run M ok op
    obtain ⟨rfl, hD₁⟩ := htakes D hD
    obtain ⟨f₂, m₂, V₂, hrun₂, h₂, hD₂⟩ := ih h₁ hD₁
    refine ⟨max f₁ f₂, m₂, V₂, ?_, h₂, hD₂⟩
    intro n hn
    rw [runCalls, hrun₁ n (by omega), Option.bind_some, hrun₂ n (by omega)]
    rfl

/-- A tree whose records are in the memory is what the memory spells. -/
theorem spells_of_cells {m : Mem} {V : View} (hn : V.addrs.Nodup)
    (h : ∀ a nd, V.cell a = some nd → m.node a = some nd) : m.Spells V.root V := by
  induction V with
  | leaf => rfl
  | node a k v l r ihl ihr =>
    obtain ⟨hl, hr, hal, har, hd⟩ := nodup_node hn
    refine ⟨rfl, ⟨k, v, l.root, r.root⟩, h a _ (by simp [cell_node]), rfl, rfl, ihl hl ?_, ihr hr ?_⟩
    · intro x nd hx
      have hxa : a ≠ x := by rintro rfl; exact hal (mem_of_cell hx)
      exact h x nd (by simp [cell_node, hxa, hx])
    · intro x nd hx
      have hxa : a ≠ x := by rintro rfl; exact har (mem_of_cell hx)
      have hxl : l.cell x = none := cell_eq_none fun hxl => hd x hxl (mem_of_cell hx)
      exact h x nd (by simp [cell_node, hxa, hxl, hx])

/-- Where no thread is in a call, the memory spells the tree. -/
theorem Inv.spells {σ : State} {V : View} (h : Inv σ V) (hidle : ∀ t, σ.thread t = none) :
    σ.mem.Spells σ.mem.root V := by
  rw [h.root]
  apply spells_of_cells h.valid.nodup
  intro a nd ha
  obtain ⟨nm, hnm, -, -, rfl | ⟨t, c, pc, ht, -⟩⟩ := h.cells a nd ha
  · exact hnm
  · simp [hidle t] at ht

/-- **The code of `bst.c`, run one call at a time, implements a finite map.** For every
sequence of calls from `bst_init` (the flag of a call says whether its `malloc` succeeds),
all calls return, they return what they do on the map, and the memory then spells a tree
that is strictly ordered and has the entries of the map. -/
theorem runCalls_implements_map (M : Malloc) (calls : List (Op × Bool)) :
    ∃ fuel m' V, (∀ n, fuel ≤ n → runCalls M n calls bstInit = some (m', (applyAll calls fun _ => none).2)) ∧
      m'.Spells m'.root V ∧ V.Ordered ∧ Entries V (applyAll calls fun _ => none).1 := by
  obtain ⟨fuel, m', V, hrun, h, hD⟩ := between_init.runAll entries_leaf M calls
  exact ⟨fuel, m', V, hrun, h.inv.spells fun _ => rfl, h.inv.valid.ordered, hD⟩

end SdeSystems.Bst
