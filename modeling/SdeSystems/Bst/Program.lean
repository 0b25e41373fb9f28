import SdeSystems.Bst.Edits

/-!
# Every step of the program keeps the invariant

One lemma for each place of `bst.c`: from what the thread knows there and what it does,
what it knows at the next place, and whether this is where the call takes effect. The
calls take effect at the reads that settle that the key is there or not, at a failed
`malloc`, and at the five writes that change the tree.
-/

namespace SdeSystems.Bst

open Function Relation Lib Lib.Tree

variable {σ : State} {V : View} {t : Tid} {c : Call} {pc pc' : Pc} {ao : Option Addr} {m' : Mem}

/-- The step from `pc` to `pc'` keeps the invariant, and does to the tree all or nothing. -/
def Keeps (σ : State) (V : View) (t : Tid) (c : Call) (pc : Pc) (ao : Option Addr) (m' : Mem) (pc' : Pc) : Prop :=
  ∃ V', Inv (σ.move t c pc ao m' pc') V' ∧
    StepEffect ((code c.op pc).mallocFails ao) c.op V V' pc pc'

theorem Keeps.quiet (h : Inv (σ.move t c pc ao m' pc') V) (he : pc'.effect = pc.effect) :
    Keeps σ V t c pc ao m' pc' := ⟨V, h, .inl ⟨rfl, he⟩⟩

theorem Keeps.takes {V' : View} {r : Ret} (h : Inv (σ.move t c pc ao m' pc') V') (he : pc.effect = none)
    (he' : pc'.effect = some r)
    (hok : ∀ ok, ((code c.op pc).mallocFails ao = true → ok = false) → (pc.allocated = true → ok = true) →
      Takes ok c.op V V' r) :
    Keeps σ V t c pc ao m' pc' := ⟨V', h, .inr ⟨he, r, he', hok⟩⟩

/-! ### What the instructions read -/

section

variable {p : Pc} {a : Addr} {nd : Node}

theorem Inv.readKey_eq {f : ℤ → Pc} (h : Inv σ V) (ht : σ.thread t = some (c, pc))
    (he : exec t ao σ.mem (.readKey a f) = some (m', p)) (ha : a ∈ pc.held) (hcp : pc.copying ≠ some a)
    (hnd : V.cell a = some nd) : m' = σ.mem ∧ p = f nd.key := by
  simp only [exec, h.read ht ha hcp hnd, Option.map_some, Option.some.injEq, Prod.mk.injEq] at he
  exact ⟨he.1.symm, he.2.symm⟩

theorem Inv.readVal_eq {f : ℤ → Pc} (h : Inv σ V) (ht : σ.thread t = some (c, pc))
    (he : exec t ao σ.mem (.readVal a f) = some (m', p)) (ha : a ∈ pc.held) (hcp : pc.copying ≠ some a)
    (hnd : V.cell a = some nd) : m' = σ.mem ∧ p = f nd.value := by
  simp only [exec, h.read ht ha hcp hnd, Option.map_some, Option.some.injEq, Prod.mk.injEq] at he
  exact ⟨he.1.symm, he.2.symm⟩

theorem Inv.readChild_eq {f : Option Addr → Pc} {d : Side} (h : Inv σ V) (ht : σ.thread t = some (c, pc))
    (he : exec t ao σ.mem (.readChild a d f) = some (m', p)) (ha : a ∈ pc.held) (hcp : pc.copying ≠ some a)
    (hnd : V.cell a = some nd) : m' = σ.mem ∧ p = f (nd.child d) := by
  simp only [exec, h.read ht ha hcp hnd, Option.map_some, Option.some.injEq, Prod.mk.injEq] at he
  exact ⟨he.1.symm, he.2.symm⟩

theorem Inv.readRoot_eq {f : Option Addr → Pc} (h : Inv σ V)
    (he : exec t ao σ.mem (.readRoot f) = some (m', p)) : m' = σ.mem ∧ p = f V.root := by
  simp only [exec, h.root, Option.some.injEq, Prod.mk.injEq] at he
  exact ⟨he.1.symm, he.2.symm⟩

theorem exec_lock {m : Mem} (he : exec t ao m (.lock a p) = some (m', pc')) : m.lock a = none ∧
    m' = { m with lock := update m.lock a (some t),
                  lockCount := update m.lockCount a ((m.lockCount a + 1) % 2 ^ 32) } ∧ pc' = p := by
  simp only [exec, Option.ite_none_right_eq_some, Option.some.injEq, Prod.mk.injEq] at he
  exact ⟨he.1.2, he.2.1.symm, he.2.2.symm⟩

theorem exec_unlock {m : Mem} (he : exec t ao m (.unlock a p) = some (m', pc')) :
    m' = { m with lock := update m.lock a none } ∧ pc' = p := by
  simp only [exec, Option.ite_none_right_eq_some, Option.some.injEq, Prod.mk.injEq] at he
  exact ⟨he.2.1.symm, he.2.2.symm⟩

theorem exec_unlockTree {m : Mem} (he : exec t ao m (.unlockTree p) = some (m', pc')) :
    m.treeLock = some t ∧ m' = { m with treeLock := none } ∧ pc' = p := by
  simp only [exec, Option.ite_none_right_eq_some, Option.some.injEq, Prod.mk.injEq] at he
  exact ⟨he.1, he.2.1.symm, he.2.2.symm⟩

theorem exec_free {m : Mem} (he : exec t ao m (.free a p) = some (m', pc')) :
    m' = { m with node := update m.node a none } ∧ pc' = p := by
  simp only [exec, Option.ite_none_right_eq_some, Option.some.injEq, Prod.mk.injEq] at he
  exact ⟨he.2.1.symm, he.2.2.symm⟩

theorem exec_writeChild {m : Mem} {d : Side} {x : Option Addr}
    (he : exec t ao m (.writeChild a d x p) = some (m', pc')) :
    ∃ nm, m.node a = some nm ∧ m' = m.store a (nm.setChild d x) ∧ pc' = p := by
  simp only [exec, Option.map_eq_some_iff, Prod.mk.injEq] at he
  obtain ⟨nm, hnm, h₁, h₂⟩ := he
  exact ⟨nm, hnm, h₁.symm, h₂.symm⟩

theorem exec_create {m : Mem} {k v : ℤ} {f : Option Addr → Pc}
    (he : exec t ao m (.create k v f) = some (m', pc')) :
    (ao = none ∧ m' = m ∧ pc' = f none) ∨ ∃ a, ao = some a ∧ m.node a = none ∧
      m' = { m with node := update m.node a (some ⟨k, v, none, none⟩), lock := update m.lock a none,
                    lockCount := update m.lockCount a 0 } ∧ pc' = f (some a) := by
  cases ao with
  | none =>
    simp only [exec, Option.some.injEq, Prod.mk.injEq] at he
    exact .inl ⟨rfl, he.1.symm, he.2.symm⟩
  | some a =>
    simp only [exec, Option.ite_none_right_eq_some, Option.some.injEq, Prod.mk.injEq] at he
    exact .inr ⟨a, rfl, he.1, he.2.1.symm, he.2.2.symm⟩

end

theorem tree_taken {m : Mem} (hfree : m.treeLock = none) (hp : pc'.hasTree = true) (u : Tid) :
    some t = some u ↔ if u = t then pc'.hasTree = true else m.treeLock = some u := by
  by_cases hu : u = t
  · simp [hu, hp]
  · simp [hu, Ne.symm hu, hfree]

theorem tree_released {m : Mem} (ht : m.treeLock = some t) (hp : pc'.hasTree = false) (u : Tid) :
    none = some u ↔ if u = t then pc'.hasTree = true else m.treeLock = some u := by
  by_cases hu : u = t
  · simp [hu, hp]
  · simp [hu, Ne.symm hu, ht]

/-! ### The way down of `delete_two_children` -/

section

variable {clear : Addr → Prop} {k : ℤ} {cur q s n : Addr}

/-- `succ` is a node of the tree. -/
theorem Descent.cell (hV : V.Valid) (h : Descent V clear k cur q s) : ∃ nz, V.cell s = some nz := by
  rcases h.parent hV with ⟨-, hl⟩ | ⟨-, hl⟩
  · exact cell_of_mem hl.mem
  · exact cell_of_mem hl.mem

/-- One node further down. -/
theorem Descent.next (hV : V.Valid) (h : Descent V clear k cur q s) (hs : Has V s fun nz => nz.left = some n)
    (hq : q ≠ cur → clear q) : Descent V clear k cur s n := by
  obtain ⟨nz, hnz, hn⟩ := hs
  obtain ⟨nd, M, hnd, hk, hM, hcase⟩ := h
  refine ⟨nd, M ++ [s], hnd, hk, hM.snoc hnz hn, .inr ⟨M, rfl, ?_⟩⟩
  intro x hx
  rcases hcase with ⟨rfl, -⟩ | ⟨L, rfl, hL⟩
  · simp at hx
  · rcases List.mem_append.mp hx with hx | hx
    · exact hL x hx
    · obtain rfl : x = q := by simpa using hx
      apply hq
      rintro rfl
      have := hM.nodup hV.nodup hnd
      simp at this

end

section

variable {cur q s n a : Addr} {d e : Side} {p : Option Addr} {k v : ℤ} {r : Ret} (h : Inv σ V)

/-! ### To the root -/

include h

theorem Inv.lockTree (ht : σ.thread t = some (c, .lockTree))
    (he : exec t ao σ.mem (code c.op .lockTree) = some (m', pc')) : Keeps σ V t c .lockTree ao m' pc' := by
  simp only [code, exec, Option.ite_none_right_eq_some, Option.some.injEq, Prod.mk.injEq] at he
  obtain ⟨hfree, rfl, rfl⟩ := he
  exact .quiet (h.treeLock_step ht rfl rfl (tree_taken hfree rfl) rfl rfl rfl rfl trivial trivial) rfl

theorem Inv.testRoot (ht : σ.thread t = some (c, .testRoot))
    (he : exec t ao σ.mem (code c.op .testRoot) = some (m', pc')) : Keeps σ V t c .testRoot ao m' pc' := by
  obtain ⟨rfl, rfl⟩ := h.readRoot_eq he
  split_ifs with hroot
  · have hk : ∀ p ∈ V.toList, p.1 ≠ c.op.key := by simp [root_eq_none.mp hroot]
    cases hop : c.op with
    | insert k v => exact .quiet (h.read_step ht rfl rfl rfl rfl rfl rfl ⟨k, v, hop⟩ hroot) rfl
    | lookup k =>
      exact .takes (h.read_step ht rfl rfl rfl rfl rfl rfl trivial trivial) rfl rfl (fun _ _ _ => takes_lookup_absent ⟨k, hop⟩ hk)
    | delete k =>
      exact .takes (h.read_step ht rfl rfl rfl rfl rfl rfl trivial trivial) rfl rfl (fun _ _ _ => takes_delete_absent ⟨k, hop⟩ hk)
  · exact .quiet (h.read_step ht rfl rfl rfl rfl rfl rfl trivial hroot) rfl

theorem Inv.readRoot (ht : σ.thread t = some (c, .readRoot))
    (he : exec t ao σ.mem (code c.op .readRoot) = some (m', pc')) : Keeps σ V t c .readRoot ao m' pc' := by
  obtain ⟨-, -, -, -, hroot⟩ := h.thr _ _ _ ht
  obtain ⟨cur, hcur⟩ := Option.ne_none_iff_exists'.mp hroot
  obtain ⟨rfl, rfl⟩ := h.readRoot_eq he
  rw [hcur]
  exact .quiet (h.read_step ht rfl rfl rfl rfl rfl rfl trivial hcur) rfl

theorem Inv.lockRoot (ht : σ.thread t = some (c, .lockRoot cur))
    (he : exec t ao σ.mem (code c.op (.lockRoot cur)) = some (m', pc')) :
    Keeps σ V t c (.lockRoot cur) ao m' pc' := by
  obtain ⟨-, -, -, -, hroot⟩ := h.thr _ _ _ ht
  obtain ⟨hfree, rfl, rfl⟩ := exec_lock he
  cases hop : c.op with
  | insert k v =>
    exact .quiet (h.lock_step ht rfl rfl hfree rfl rfl (.refl _) rfl rfl rfl rfl (by simp [Pc.fits, hop])
      fun _ => hroot) rfl
  | lookup k =>
    exact .quiet (h.lock_step ht rfl rfl hfree rfl rfl (.refl _) rfl rfl rfl rfl (by simp [Pc.fits, hop])
      fun _ => hroot) rfl
  | delete k =>
    exact .quiet (h.lock_step ht rfl rfl hfree rfl rfl (.refl _) rfl rfl rfl rfl ⟨k, hop⟩ fun _ => hroot) rfl

theorem Inv.unlockTree (ht : σ.thread t = some (c, .unlockTree cur))
    (he : exec t ao σ.mem (code c.op (.unlockTree cur)) = some (m', pc')) :
    Keeps σ V t c (.unlockTree cur) ao m' pc' := by
  obtain ⟨hfits, -, -, -, hroot⟩ := h.thr _ _ _ ht
  obtain ⟨hown, rfl, rfl⟩ := exec_unlockTree he
  cases hop : c.op with
  | insert k v =>
    exact .quiet (h.treeLock_step ht rfl rfl (tree_released hown rfl) rfl rfl rfl rfl ⟨k, v, hop⟩
      (onPath_root hroot)) rfl
  | lookup k =>
    exact .quiet (h.treeLock_step ht rfl rfl (tree_released hown rfl) rfl rfl rfl rfl ⟨k, hop⟩
      (onPath_root hroot)) rfl
  | delete k => exact absurd hop (hfits k)

theorem Inv.unlockTreeRet (ht : σ.thread t = some (c, .unlockTreeRet r))
    (he : exec t ao σ.mem (code c.op (.unlockTreeRet r)) = some (m', pc')) :
    Keeps σ V t c (.unlockTreeRet r) ao m' pc' := by
  obtain ⟨hown, rfl, rfl⟩ := exec_unlockTree he
  exact .quiet (h.treeLock_step ht rfl rfl (tree_released hown rfl) rfl rfl rfl rfl trivial trivial) rfl

theorem Inv.unlockRet (ht : σ.thread t = some (c, .unlockRet cur r))
    (he : exec t ao σ.mem (code c.op (.unlockRet cur r)) = some (m', pc')) :
    Keeps σ V t c (.unlockRet cur r) ao m' pc' := by
  obtain ⟨rfl, rfl⟩ := exec_unlock he
  exact .quiet (h.unlock_step ht rfl rfl (by simp [Pc.want]) (.refl _) rfl rfl rfl trivial trivial) rfl

/-! ### `bst_insert` -/

theorem Inv.createRoot (ht : σ.thread t = some (c, .createRoot))
    (he : exec t ao σ.mem (code c.op .createRoot) = some (m', pc')) : Keeps σ V t c .createRoot ao m' pc' := by
  obtain ⟨hfits, -, -, -, hroot⟩ := h.thr _ _ _ ht
  rcases exec_create he with ⟨rfl, rfl, rfl⟩ | ⟨a, rfl, hfree, rfl, rfl⟩
  · exact .takes (h.read_step ht rfl rfl rfl rfl rfl rfl trivial trivial) rfl rfl
      (fun ok hok _ => hok rfl ▸ takes_insert_nomem hfits (by simp [root_eq_none.mp hroot]))
  · exact .quiet (h.create_step ht rfl rfl hfree rfl rfl rfl rfl rfl rfl hfits ⟨hroot, update_self ..⟩) rfl

theorem Inv.linkRoot (ht : σ.thread t = some (c, .linkRoot a))
    (he : exec t ao σ.mem (code c.op (.linkRoot a)) = some (m', pc')) :
    Keeps σ V t c (.linkRoot a) ao m' pc' := by
  simp only [code, exec, Option.some.injEq, Prod.mk.injEq] at he
  obtain ⟨rfl, rfl⟩ := he
  obtain ⟨V', h', htakes⟩ := h.linkRoot_step (σ.move t c _ ao _ _) ht rfl rfl
  exact .takes h' rfl rfl fun ok _ hok => hok rfl ▸ htakes

theorem Inv.insEq (ht : σ.thread t = some (c, .insEq cur))
    (he : exec t ao σ.mem (code c.op (.insEq cur)) = some (m', pc')) : Keeps σ V t c (.insEq cur) ao m' pc' := by
  obtain ⟨hfits, -, -, -, hp⟩ := h.thr _ _ _ ht
  obtain ⟨nd, hnd⟩ := cell_of_mem (OnPath.mem hp)
  obtain ⟨rfl, rfl⟩ := h.readKey_eq ht he (by simp [Pc.held]) (by simp [Pc.copying]) hnd
  split_ifs with hk
  · exact .takes (h.read_step ht rfl rfl rfl rfl rfl rfl trivial trivial) rfl rfl
      (fun _ _ _ => takes_insert_present hfits (hk ▸ mem_toList_of_cell hnd))
  · exact .quiet (h.read_step ht rfl rfl rfl rfl rfl rfl hfits ⟨hp, nd, hnd, hk⟩) rfl

theorem Inv.insLt (ht : σ.thread t = some (c, .insLt cur))
    (he : exec t ao σ.mem (code c.op (.insLt cur)) = some (m', pc')) : Keeps σ V t c (.insLt cur) ao m' pc' := by
  obtain ⟨hfits, -, -, -, hp, nd, hnd, hk⟩ := h.thr _ _ _ ht
  obtain ⟨rfl, rfl⟩ := h.readKey_eq ht he (by simp [Pc.held]) (by simp [Pc.copying]) hnd
  exact .quiet (h.read_step ht rfl rfl rfl rfl rfl rfl hfits ⟨hp, nd, hnd, hk, rfl⟩) rfl

theorem Inv.insNull (ht : σ.thread t = some (c, .insNull cur d))
    (he : exec t ao σ.mem (code c.op (.insNull cur d)) = some (m', pc')) :
    Keeps σ V t c (.insNull cur d) ao m' pc' := by
  obtain ⟨hfits, -, -, -, hp, nd, hnd, hk, hd⟩ := h.thr _ _ _ ht
  obtain ⟨rfl, rfl⟩ := h.readChild_eq ht he (by simp [Pc.held]) (by simp [Pc.copying]) hnd
  split_ifs with hnil
  · exact .quiet (h.read_step ht rfl rfl rfl rfl rfl rfl hfits ⟨hp, nd, hnd, hk, hd, hnil⟩) rfl
  · exact .quiet (h.read_step ht rfl rfl rfl rfl rfl rfl hfits ⟨hp, nd, hnd, hk, hd, hnil⟩) rfl

theorem Inv.insCreate (ht : σ.thread t = some (c, .insCreate cur d))
    (he : exec t ao σ.mem (code c.op (.insCreate cur d)) = some (m', pc')) :
    Keeps σ V t c (.insCreate cur d) ao m' pc' := by
  obtain ⟨hfits, -, -, -, hp, nd, hnd, hk, rfl, hnil⟩ := h.thr _ _ _ ht
  rcases exec_create he with ⟨rfl, rfl, rfl⟩ | ⟨a, rfl, hfree, rfl, rfl⟩
  · exact .takes (h.read_step ht rfl rfl rfl rfl rfl rfl trivial trivial) rfl rfl
      (fun ok hok _ => hok rfl ▸ takes_insert_nomem hfits (OnPath.notMem hp h.valid.ordered h.valid.nodup hnd hk hnil))
  · exact .quiet (h.create_step ht rfl rfl hfree rfl rfl rfl rfl rfl rfl hfits
      ⟨update_self .., hp, nd, hnd, hk, rfl, hnil⟩) rfl

theorem Inv.insLink (ht : σ.thread t = some (c, .insLink cur d a))
    (he : exec t ao σ.mem (code c.op (.insLink cur d a)) = some (m', pc')) :
    Keeps σ V t c (.insLink cur d a) ao m' pc' := by
  obtain ⟨nm, hnm, rfl, rfl⟩ := exec_writeChild he
  obtain ⟨V', h', htakes⟩ := h.insLink_step (σ.move t c _ ao _ _) ht rfl hnm rfl
  exact .takes h' rfl rfl fun ok _ hok => hok rfl ▸ htakes

theorem Inv.insNext (ht : σ.thread t = some (c, .insNext cur d))
    (he : exec t ao σ.mem (code c.op (.insNext cur d)) = some (m', pc')) :
    Keeps σ V t c (.insNext cur d) ao m' pc' := by
  obtain ⟨hfits, -, -, -, hp, nd, hnd, hk, rfl, hne⟩ := h.thr _ _ _ ht
  obtain ⟨n, hn⟩ := Option.ne_none_iff_exists'.mp hne
  obtain ⟨rfl, rfl⟩ := h.readChild_eq ht he (by simp [Pc.held]) (by simp [Pc.copying]) hnd
  rw [hn]
  exact .quiet (h.read_step ht rfl rfl rfl rfl rfl rfl hfits
    ⟨OnPath.child hp h.valid.nodup hnd hk hn, _, nd, hnd, hn⟩) rfl

theorem Inv.insLock (ht : σ.thread t = some (c, .insLock cur n))
    (he : exec t ao σ.mem (code c.op (.insLock cur n)) = some (m', pc')) :
    Keeps σ V t c (.insLock cur n) ao m' pc' := by
  obtain ⟨hfits, -, -, -, hfact⟩ := h.thr _ _ _ ht
  obtain ⟨hfree, rfl, rfl⟩ := exec_lock he
  exact .quiet (h.lock_step ht rfl rfl hfree rfl rfl (List.perm_append_singleton n [cur]) rfl rfl rfl rfl hfits
    fun _ => hfact) rfl

theorem Inv.insUnlock (ht : σ.thread t = some (c, .insUnlock cur n))
    (he : exec t ao σ.mem (code c.op (.insUnlock cur n)) = some (m', pc')) :
    Keeps σ V t c (.insUnlock cur n) ao m' pc' := by
  obtain ⟨hfits, -, -, -, hp, -⟩ := h.thr _ _ _ ht
  obtain ⟨rfl, rfl⟩ := exec_unlock he
  exact .quiet (h.unlock_step ht rfl rfl (by simp [Pc.want]) (.refl _) rfl rfl rfl hfits hp) rfl

/-! ### `bst_lookup` -/

theorem Inv.lookEq (ht : σ.thread t = some (c, .lookEq cur))
    (he : exec t ao σ.mem (code c.op (.lookEq cur)) = some (m', pc')) : Keeps σ V t c (.lookEq cur) ao m' pc' := by
  obtain ⟨hfits, -, -, -, hp⟩ := h.thr _ _ _ ht
  obtain ⟨nd, hnd⟩ := cell_of_mem (OnPath.mem hp)
  obtain ⟨rfl, rfl⟩ := h.readKey_eq ht he (by simp [Pc.held]) (by simp [Pc.copying]) hnd
  split_ifs with hk
  · exact .quiet (h.read_step ht rfl rfl rfl rfl rfl rfl hfits ⟨nd, hnd, hk.symm⟩) rfl
  · exact .quiet (h.read_step ht rfl rfl rfl rfl rfl rfl hfits ⟨hp, nd, hnd, hk⟩) rfl

theorem Inv.lookVal (ht : σ.thread t = some (c, .lookVal cur))
    (he : exec t ao σ.mem (code c.op (.lookVal cur)) = some (m', pc')) :
    Keeps σ V t c (.lookVal cur) ao m' pc' := by
  obtain ⟨hfits, -, -, -, nd, hnd, hk⟩ := h.thr _ _ _ ht
  obtain ⟨rfl, rfl⟩ := h.readVal_eq ht he (by simp [Pc.held]) (by simp [Pc.copying]) hnd
  exact .takes (h.read_step ht rfl rfl rfl rfl rfl rfl trivial trivial) rfl rfl
    (fun _ _ _ => takes_lookup_present hfits (hk ▸ mem_toList_of_cell hnd))

theorem Inv.lookLt (ht : σ.thread t = some (c, .lookLt cur))
    (he : exec t ao σ.mem (code c.op (.lookLt cur)) = some (m', pc')) : Keeps σ V t c (.lookLt cur) ao m' pc' := by
  obtain ⟨hfits, -, -, -, hp, nd, hnd, hk⟩ := h.thr _ _ _ ht
  obtain ⟨rfl, rfl⟩ := h.readKey_eq ht he (by simp [Pc.held]) (by simp [Pc.copying]) hnd
  exact .quiet (h.read_step ht rfl rfl rfl rfl rfl rfl hfits ⟨hp, nd, hnd, hk, rfl⟩) rfl

theorem Inv.lookNext (ht : σ.thread t = some (c, .lookNext cur d))
    (he : exec t ao σ.mem (code c.op (.lookNext cur d)) = some (m', pc')) :
    Keeps σ V t c (.lookNext cur d) ao m' pc' := by
  obtain ⟨hfits, -, -, -, hp, nd, hnd, hk, rfl⟩ := h.thr _ _ _ ht
  obtain ⟨rfl, rfl⟩ := h.readChild_eq ht he (by simp [Pc.held]) (by simp [Pc.copying]) hnd
  cases hn : nd.child (dir c.op.key nd.key) with
  | none =>
    exact .takes (h.read_step ht rfl rfl rfl rfl rfl rfl trivial trivial) rfl rfl
      (fun _ _ _ => takes_lookup_absent hfits (OnPath.notMem hp h.valid.ordered h.valid.nodup hnd hk hn))
  | some n =>
    exact .quiet (h.read_step ht rfl rfl rfl rfl rfl rfl hfits
      ⟨OnPath.child hp h.valid.nodup hnd hk hn, _, nd, hnd, hn⟩) rfl

theorem Inv.lookLock (ht : σ.thread t = some (c, .lookLock cur n))
    (he : exec t ao σ.mem (code c.op (.lookLock cur n)) = some (m', pc')) :
    Keeps σ V t c (.lookLock cur n) ao m' pc' := by
  obtain ⟨hfits, -, -, -, hfact⟩ := h.thr _ _ _ ht
  obtain ⟨hfree, rfl, rfl⟩ := exec_lock he
  exact .quiet (h.lock_step ht rfl rfl hfree rfl rfl (List.perm_append_singleton n [cur]) rfl rfl rfl rfl hfits
    fun _ => hfact) rfl

theorem Inv.lookUnlock (ht : σ.thread t = some (c, .lookUnlock cur n))
    (he : exec t ao σ.mem (code c.op (.lookUnlock cur n)) = some (m', pc')) :
    Keeps σ V t c (.lookUnlock cur n) ao m' pc' := by
  obtain ⟨hfits, -, -, -, hp, -⟩ := h.thr _ _ _ ht
  obtain ⟨rfl, rfl⟩ := exec_unlock he
  exact .quiet (h.unlock_step ht rfl rfl (by simp [Pc.want]) (.refl _) rfl rfl rfl hfits hp) rfl

/-! ### `bst_delete`, at the root -/

theorem Inv.delRootKey (ht : σ.thread t = some (c, .delRootKey cur))
    (he : exec t ao σ.mem (code c.op (.delRootKey cur)) = some (m', pc')) :
    Keeps σ V t c (.delRootKey cur) ao m' pc' := by
  obtain ⟨hfits, -, -, -, hroot⟩ := h.thr _ _ _ ht
  obtain ⟨nd, hnd⟩ := cell_of_mem (root_mem hroot)
  obtain ⟨rfl, rfl⟩ := h.readKey_eq ht he (by simp [Pc.held]) (by simp [Pc.copying]) hnd
  split_ifs with hk
  · exact .quiet (h.read_step ht rfl rfl rfl rfl rfl rfl hfits ⟨hroot, nd, hnd, hk⟩) rfl
  · exact .quiet (h.read_step ht rfl rfl rfl rfl rfl rfl hfits ⟨onPath_root hroot, nd, hnd, Ne.symm hk⟩) rfl

theorem Inv.delRootLeft (ht : σ.thread t = some (c, .delRootLeft cur))
    (he : exec t ao σ.mem (code c.op (.delRootLeft cur)) = some (m', pc')) :
    Keeps σ V t c (.delRootLeft cur) ao m' pc' := by
  obtain ⟨hfits, -, -, -, hroot, nd, hnd, hk⟩ := h.thr _ _ _ ht
  obtain ⟨rfl, rfl⟩ := h.readChild_eq ht he (by simp [Pc.held]) (by simp [Pc.copying]) hnd
  split_ifs with hnil
  · exact .quiet (h.read_step ht rfl rfl rfl rfl rfl rfl hfits ⟨hroot, nd, hnd, hk, .inl hnil⟩) rfl
  · exact .quiet (h.read_step ht rfl rfl rfl rfl rfl rfl hfits ⟨hroot, nd, hnd, hk, hnil⟩) rfl

theorem Inv.delRootRight (ht : σ.thread t = some (c, .delRootRight cur))
    (he : exec t ao σ.mem (code c.op (.delRootRight cur)) = some (m', pc')) :
    Keeps σ V t c (.delRootRight cur) ao m' pc' := by
  obtain ⟨hfits, -, -, -, hroot, nd, hnd, hk, hleft⟩ := h.thr _ _ _ ht
  obtain ⟨rfl, rfl⟩ := h.readChild_eq ht he (by simp [Pc.held]) (by simp [Pc.copying]) hnd
  split_ifs with hnil
  · exact .quiet (h.read_step ht rfl rfl rfl rfl rfl rfl hfits ⟨hroot, nd, hnd, hk, .inr hnil⟩) rfl
  · exact .quiet (h.read_step ht rfl rfl rfl rfl rfl rfl hfits ⟨nd, hnd, hk, hnil⟩) rfl

theorem Inv.delRootPickL (ht : σ.thread t = some (c, .delRootPickL cur))
    (he : exec t ao σ.mem (code c.op (.delRootPickL cur)) = some (m', pc')) :
    Keeps σ V t c (.delRootPickL cur) ao m' pc' := by
  obtain ⟨hfits, -, -, -, hroot, nd, hnd, hk, hnil⟩ := h.thr _ _ _ ht
  obtain ⟨rfl, rfl⟩ := h.readChild_eq ht he (by simp [Pc.held]) (by simp [Pc.copying]) hnd
  split_ifs with hleft
  · exact .quiet (h.read_step ht rfl rfl rfl rfl rfl rfl hfits ⟨hroot, nd, hnd, hk, hnil.resolve_left hleft⟩) rfl
  · exact .quiet (h.read_step ht rfl rfl rfl rfl rfl rfl hfits ⟨hroot, nd, hnd, hk, not_not.mp hleft⟩) rfl

theorem Inv.delRootPick (ht : σ.thread t = some (c, .delRootPick cur d))
    (he : exec t ao σ.mem (code c.op (.delRootPick cur d)) = some (m', pc')) :
    Keeps σ V t c (.delRootPick cur d) ao m' pc' := by
  obtain ⟨hfits, -, -, -, hroot, nd, hnd, hk, hnil⟩ := h.thr _ _ _ ht
  obtain ⟨rfl, rfl⟩ := h.readChild_eq ht he (by simp [Pc.held]) (by simp [Pc.copying]) hnd
  exact .quiet (h.read_step ht rfl rfl rfl rfl rfl rfl hfits ⟨hroot, nd, hnd, hk, d, hnil, rfl⟩) rfl

theorem Inv.delRootWrite (ht : σ.thread t = some (c, .delRootWrite cur p))
    (he : exec t ao σ.mem (code c.op (.delRootWrite cur p)) = some (m', pc')) :
    Keeps σ V t c (.delRootWrite cur p) ao m' pc' := by
  simp only [code, exec, Option.some.injEq, Prod.mk.injEq] at he
  obtain ⟨rfl, rfl⟩ := he
  obtain ⟨V', h', htakes⟩ := h.delRootWrite_step (σ.move t c _ ao _ _) ht rfl rfl
  exact .takes h' rfl rfl fun ok _ _ => htakes ok

theorem Inv.delRootUnlockTree (ht : σ.thread t = some (c, .delRootUnlockTree cur))
    (he : exec t ao σ.mem (code c.op (.delRootUnlockTree cur)) = some (m', pc')) :
    Keeps σ V t c (.delRootUnlockTree cur) ao m' pc' := by
  obtain ⟨hfits, -, -, -, -⟩ := h.thr _ _ _ ht
  obtain ⟨hown, rfl, rfl⟩ := exec_unlockTree he
  exact .quiet (h.treeLock_step ht rfl rfl (tree_released hown rfl) rfl rfl rfl rfl hfits trivial) rfl

theorem Inv.delUnlockFree (ht : σ.thread t = some (c, .delUnlockFree cur))
    (he : exec t ao σ.mem (code c.op (.delUnlockFree cur)) = some (m', pc')) :
    Keeps σ V t c (.delUnlockFree cur) ao m' pc' := by
  obtain ⟨hfits, -, -, -, -⟩ := h.thr _ _ _ ht
  obtain ⟨rfl, rfl⟩ := exec_unlock he
  exact .quiet (h.unlock_step ht rfl rfl (by simp [Pc.want]) (.refl _) rfl rfl rfl hfits trivial) rfl

theorem Inv.free (ht : σ.thread t = some (c, .free cur))
    (he : exec t ao σ.mem (code c.op (.free cur)) = some (m', pc')) : Keeps σ V t c (.free cur) ao m' pc' := by
  obtain ⟨rfl, rfl⟩ := exec_free he
  exact .quiet (h.free_step ht rfl rfl rfl rfl (by simp [Pc.held]) rfl rfl rfl rfl trivial trivial) rfl

theorem Inv.del2UnlockTree (ht : σ.thread t = some (c, .del2UnlockTree cur))
    (he : exec t ao σ.mem (code c.op (.del2UnlockTree cur)) = some (m', pc')) :
    Keeps σ V t c (.del2UnlockTree cur) ao m' pc' := by
  obtain ⟨hfits, -, -, -, hfact⟩ := h.thr _ _ _ ht
  obtain ⟨hown, rfl, rfl⟩ := exec_unlockTree he
  exact .quiet (h.treeLock_step ht rfl rfl (tree_released hown rfl) rfl rfl rfl rfl hfits hfact) rfl

/-! ### `bst_delete`, below the root -/

theorem Inv.delUnlockTree (ht : σ.thread t = some (c, .delUnlockTree cur))
    (he : exec t ao σ.mem (code c.op (.delUnlockTree cur)) = some (m', pc')) :
    Keeps σ V t c (.delUnlockTree cur) ao m' pc' := by
  obtain ⟨hfits, -, -, -, hfact⟩ := h.thr _ _ _ ht
  obtain ⟨hown, rfl, rfl⟩ := exec_unlockTree he
  exact .quiet (h.treeLock_step ht rfl rfl (tree_released hown rfl) rfl rfl rfl rfl hfits hfact) rfl

theorem Inv.delLt0 (ht : σ.thread t = some (c, .delLt0 cur))
    (he : exec t ao σ.mem (code c.op (.delLt0 cur)) = some (m', pc')) : Keeps σ V t c (.delLt0 cur) ao m' pc' := by
  obtain ⟨hfits, -, -, -, hp, nd, hnd, hk⟩ := h.thr _ _ _ ht
  obtain ⟨rfl, rfl⟩ := h.readKey_eq ht he (by simp [Pc.held]) (by simp [Pc.copying]) hnd
  exact .quiet (h.read_step ht rfl rfl rfl rfl rfl rfl hfits ⟨hp, nd, hnd, hk, rfl⟩) rfl

theorem Inv.delNext0 (ht : σ.thread t = some (c, .delNext0 cur d))
    (he : exec t ao σ.mem (code c.op (.delNext0 cur d)) = some (m', pc')) :
    Keeps σ V t c (.delNext0 cur d) ao m' pc' := by
  obtain ⟨hfits, -, -, -, hp, nd, hnd, hk, rfl⟩ := h.thr _ _ _ ht
  obtain ⟨rfl, rfl⟩ := h.readChild_eq ht he (by simp [Pc.held]) (by simp [Pc.copying]) hnd
  cases hn : nd.child (dir c.op.key nd.key) with
  | none =>
    exact .takes (h.read_step ht rfl rfl rfl rfl rfl rfl trivial trivial) rfl rfl
      (fun _ _ _ => takes_delete_absent hfits (OnPath.notMem hp h.valid.ordered h.valid.nodup hnd hk hn))
  | some n =>
    exact .quiet (h.read_step ht rfl rfl rfl rfl rfl rfl hfits
      ⟨OnPath.child hp h.valid.nodup hnd hk hn, nd, hnd, hn⟩) rfl

theorem Inv.delLock (ht : σ.thread t = some (c, .delLock q d n))
    (he : exec t ao σ.mem (code c.op (.delLock q d n)) = some (m', pc')) :
    Keeps σ V t c (.delLock q d n) ao m' pc' := by
  obtain ⟨hfits, -, -, -, hfact⟩ := h.thr _ _ _ ht
  obtain ⟨hfree, rfl, rfl⟩ := exec_lock he
  exact .quiet (h.lock_step ht rfl rfl hfree rfl rfl (List.perm_append_singleton n [q]) rfl rfl rfl rfl hfits
    fun _ => hfact) rfl

theorem Inv.delKey (ht : σ.thread t = some (c, .delKey q d cur))
    (he : exec t ao σ.mem (code c.op (.delKey q d cur)) = some (m', pc')) :
    Keeps σ V t c (.delKey q d cur) ao m' pc' := by
  obtain ⟨hfits, -, -, -, hp, hlink⟩ := h.thr _ _ _ ht
  obtain ⟨nd, hnd⟩ := cell_of_mem (OnPath.mem hp)
  obtain ⟨rfl, rfl⟩ := h.readKey_eq ht he (by simp [Pc.held]) (by simp [Pc.copying]) hnd
  split_ifs with hk
  · exact .quiet (h.read_step ht rfl rfl rfl rfl rfl rfl hfits ⟨hlink, nd, hnd, hk⟩) rfl
  · exact .quiet (h.read_step ht rfl rfl rfl rfl rfl rfl hfits ⟨hlink, hp, nd, hnd, Ne.symm hk⟩) rfl

theorem Inv.delLt (ht : σ.thread t = some (c, .delLt q d cur))
    (he : exec t ao σ.mem (code c.op (.delLt q d cur)) = some (m', pc')) :
    Keeps σ V t c (.delLt q d cur) ao m' pc' := by
  obtain ⟨hfits, -, -, -, hlink, hp, nd, hnd, hk⟩ := h.thr _ _ _ ht
  obtain ⟨rfl, rfl⟩ := h.readKey_eq ht he (by simp [Pc.held]) (by simp [Pc.copying]) hnd
  exact .quiet (h.read_step ht rfl rfl rfl rfl rfl rfl hfits ⟨hlink, hp, nd, hnd, hk, rfl⟩) rfl

theorem Inv.delNext (ht : σ.thread t = some (c, .delNext q d cur e))
    (he : exec t ao σ.mem (code c.op (.delNext q d cur e)) = some (m', pc')) :
    Keeps σ V t c (.delNext q d cur e) ao m' pc' := by
  obtain ⟨hfits, -, -, -, hlink, hp, nd, hnd, hk, rfl⟩ := h.thr _ _ _ ht
  obtain ⟨rfl, rfl⟩ := h.readChild_eq ht he (by simp [Pc.held]) (by simp [Pc.copying]) hnd
  cases hn : nd.child (dir c.op.key nd.key) with
  | none =>
    exact .takes (h.read_step ht rfl rfl rfl rfl rfl rfl hfits trivial) rfl rfl
      (fun _ _ _ => takes_delete_absent hfits (OnPath.notMem hp h.valid.ordered h.valid.nodup hnd hk hn))
  | some n =>
    exact .quiet (h.read_step ht rfl rfl rfl rfl rfl rfl hfits
      ⟨OnPath.child hp h.valid.nodup hnd hk hn, nd, hnd, hn⟩) rfl

theorem Inv.delMiss (ht : σ.thread t = some (c, .delMiss q cur))
    (he : exec t ao σ.mem (code c.op (.delMiss q cur)) = some (m', pc')) :
    Keeps σ V t c (.delMiss q cur) ao m' pc' := by
  obtain ⟨rfl, rfl⟩ := exec_unlock he
  exact .quiet (h.unlock_step ht rfl rfl (by simp [Pc.want]) (.refl _) rfl rfl rfl trivial trivial) rfl

theorem Inv.delUnlockParent (ht : σ.thread t = some (c, .delUnlockParent q cur e n))
    (he : exec t ao σ.mem (code c.op (.delUnlockParent q cur e n)) = some (m', pc')) :
    Keeps σ V t c (.delUnlockParent q cur e n) ao m' pc' := by
  obtain ⟨hfits, -, -, -, hfact⟩ := h.thr _ _ _ ht
  obtain ⟨rfl, rfl⟩ := exec_unlock he
  exact .quiet (h.unlock_step ht rfl rfl (fun _ hx => hx) (.refl _) rfl rfl rfl hfits hfact) rfl

theorem Inv.delLeft (ht : σ.thread t = some (c, .delLeft q d cur))
    (he : exec t ao σ.mem (code c.op (.delLeft q d cur)) = some (m', pc')) :
    Keeps σ V t c (.delLeft q d cur) ao m' pc' := by
  obtain ⟨hfits, -, -, -, hlink, nd, hnd, hk⟩ := h.thr _ _ _ ht
  obtain ⟨rfl, rfl⟩ := h.readChild_eq ht he (by simp [Pc.held]) (by simp [Pc.copying]) hnd
  split_ifs with hnil
  · exact .quiet (h.read_step ht rfl rfl rfl rfl rfl rfl hfits ⟨hlink, nd, hnd, hk, .inl hnil⟩) rfl
  · exact .quiet (h.read_step ht rfl rfl rfl rfl rfl rfl hfits ⟨hlink, nd, hnd, hk, hnil⟩) rfl

theorem Inv.delRight (ht : σ.thread t = some (c, .delRight q d cur))
    (he : exec t ao σ.mem (code c.op (.delRight q d cur)) = some (m', pc')) :
    Keeps σ V t c (.delRight q d cur) ao m' pc' := by
  obtain ⟨hfits, -, -, -, hlink, nd, hnd, hk, hleft⟩ := h.thr _ _ _ ht
  obtain ⟨rfl, rfl⟩ := h.readChild_eq ht he (by simp [Pc.held]) (by simp [Pc.copying]) hnd
  split_ifs with hnil
  · exact .quiet (h.read_step ht rfl rfl rfl rfl rfl rfl hfits ⟨hlink, nd, hnd, hk, .inr hnil⟩) rfl
  · exact .quiet (h.read_step ht rfl rfl rfl rfl rfl rfl hfits ⟨nd, hnd, hk, hnil⟩) rfl

theorem Inv.delPickL (ht : σ.thread t = some (c, .delPickL q d cur))
    (he : exec t ao σ.mem (code c.op (.delPickL q d cur)) = some (m', pc')) :
    Keeps σ V t c (.delPickL q d cur) ao m' pc' := by
  obtain ⟨hfits, -, -, -, hlink, nd, hnd, hk, hnil⟩ := h.thr _ _ _ ht
  obtain ⟨rfl, rfl⟩ := h.readChild_eq ht he (by simp [Pc.held]) (by simp [Pc.copying]) hnd
  split_ifs with hleft
  · exact .quiet (h.read_step ht rfl rfl rfl rfl rfl rfl hfits ⟨hlink, nd, hnd, hk, hnil.resolve_left hleft⟩) rfl
  · exact .quiet (h.read_step ht rfl rfl rfl rfl rfl rfl hfits ⟨hlink, nd, hnd, hk, not_not.mp hleft⟩) rfl

theorem Inv.delPick (ht : σ.thread t = some (c, .delPick q d cur e))
    (he : exec t ao σ.mem (code c.op (.delPick q d cur e)) = some (m', pc')) :
    Keeps σ V t c (.delPick q d cur e) ao m' pc' := by
  obtain ⟨hfits, -, -, -, hlink, nd, hnd, hk, hnil⟩ := h.thr _ _ _ ht
  obtain ⟨rfl, rfl⟩ := h.readChild_eq ht he (by simp [Pc.held]) (by simp [Pc.copying]) hnd
  exact .quiet (h.read_step ht rfl rfl rfl rfl rfl rfl hfits ⟨hlink, nd, hnd, hk, e, hnil, rfl⟩) rfl

theorem Inv.delWrite (ht : σ.thread t = some (c, .delWrite q d cur p))
    (he : exec t ao σ.mem (code c.op (.delWrite q d cur p)) = some (m', pc')) :
    Keeps σ V t c (.delWrite q d cur p) ao m' pc' := by
  obtain ⟨nm, hnm, rfl, rfl⟩ := exec_writeChild he
  obtain ⟨V', h', htakes⟩ := h.delWrite_step (σ.move t c _ ao _ _) ht rfl hnm rfl
  exact .takes h' rfl rfl fun ok _ _ => htakes ok

theorem Inv.delUnlockParent1 (ht : σ.thread t = some (c, .delUnlockParent1 q cur))
    (he : exec t ao σ.mem (code c.op (.delUnlockParent1 q cur)) = some (m', pc')) :
    Keeps σ V t c (.delUnlockParent1 q cur) ao m' pc' := by
  obtain ⟨hfits, -, -, -, -⟩ := h.thr _ _ _ ht
  obtain ⟨rfl, rfl⟩ := exec_unlock he
  exact .quiet (h.unlock_step ht rfl rfl (by simp [Pc.want]) (.refl _) rfl rfl rfl hfits trivial) rfl

theorem Inv.del2UnlockParent (ht : σ.thread t = some (c, .del2UnlockParent q cur))
    (he : exec t ao σ.mem (code c.op (.del2UnlockParent q cur)) = some (m', pc')) :
    Keeps σ V t c (.del2UnlockParent q cur) ao m' pc' := by
  obtain ⟨hfits, -, -, -, hfact⟩ := h.thr _ _ _ ht
  obtain ⟨rfl, rfl⟩ := exec_unlock he
  exact .quiet (h.unlock_step ht rfl rfl (by simp [Pc.want]) (.refl _) rfl rfl rfl hfits hfact) rfl

/-! ### `delete_two_children` -/

theorem Inv.d2Right (ht : σ.thread t = some (c, .d2Right cur))
    (he : exec t ao σ.mem (code c.op (.d2Right cur)) = some (m', pc')) :
    Keeps σ V t c (.d2Right cur) ao m' pc' := by
  obtain ⟨hfits, -, -, -, nd, hnd, hk, hne⟩ := h.thr _ _ _ ht
  obtain ⟨s, hs⟩ := Option.ne_none_iff_exists'.mp hne
  obtain ⟨rfl, rfl⟩ := h.readChild_eq ht he (by simp [Pc.held]) (by simp [Pc.copying]) hnd
  rw [Node.child, hs]
  exact .quiet (h.read_step ht rfl rfl rfl rfl rfl rfl hfits ⟨nd, hnd, hk, hs⟩) rfl

theorem Inv.d2LockSucc (ht : σ.thread t = some (c, .d2LockSucc cur s))
    (he : exec t ao σ.mem (code c.op (.d2LockSucc cur s)) = some (m', pc')) :
    Keeps σ V t c (.d2LockSucc cur s) ao m' pc' := by
  obtain ⟨hfits, -, -, -, nd, hnd, hk, hs⟩ := h.thr _ _ _ ht
  obtain ⟨hfree, rfl, rfl⟩ := exec_lock he
  refine .quiet (h.lock_step ht rfl rfl hfree rfl rfl ?_ rfl rfl rfl rfl hfits
    fun _ => ⟨nd, [], hnd, hk, hs, .inl ⟨rfl, rfl⟩⟩) rfl
  simpa [Pc.held] using List.perm_append_singleton s [cur]

theorem Inv.d2Test (ht : σ.thread t = some (c, .d2Test cur q s))
    (he : exec t ao σ.mem (code c.op (.d2Test cur q s)) = some (m', pc')) :
    Keeps σ V t c (.d2Test cur q s) ao m' pc' := by
  obtain ⟨hfits, -, -, -, hD⟩ := h.thr _ _ _ ht
  obtain ⟨nz, hnz⟩ := hD.cell h.valid
  obtain ⟨rfl, rfl⟩ := h.readChild_eq ht he (mem_held_d2.mpr (.inr (.inr rfl))) (by simp [Pc.copying]) hnz
  split_ifs with hne
  · exact .quiet (h.read_step ht rfl rfl rfl rfl rfl rfl hfits ⟨hD, nz, hnz, hne⟩) rfl
  · exact .quiet (h.read_step ht rfl rfl rfl rfl rfl rfl hfits ⟨hD, nz, hnz, not_not.mp hne⟩) rfl

theorem Inv.d2Next (ht : σ.thread t = some (c, .d2Next cur q s))
    (he : exec t ao σ.mem (code c.op (.d2Next cur q s)) = some (m', pc')) :
    Keeps σ V t c (.d2Next cur q s) ao m' pc' := by
  obtain ⟨hfits, -, -, -, hD, nz, hnz, hne⟩ := h.thr _ _ _ ht
  obtain ⟨n, hn⟩ := Option.ne_none_iff_exists'.mp hne
  obtain ⟨rfl, rfl⟩ := h.readChild_eq ht he (mem_held_d2.mpr (.inr (.inr rfl))) (by simp [Pc.copying]) hnz
  rw [Node.child, hn]
  exact .quiet (h.read_step ht rfl rfl rfl rfl rfl rfl hfits ⟨hD, nz, hnz, hn⟩) rfl

theorem Inv.d2Lock (ht : σ.thread t = some (c, .d2Lock cur q s n))
    (he : exec t ao σ.mem (code c.op (.d2Lock cur q s n)) = some (m', pc')) :
    Keeps σ V t c (.d2Lock cur q s n) ao m' pc' := by
  obtain ⟨hfits, hnodup, -, -, hD, hs⟩ := h.thr _ _ _ ht
  obtain ⟨hfree, rfl, rfl⟩ := exec_lock he
  by_cases hqc : q = cur
  · subst hqc
    have hsc : s ≠ q := by simpa [Pc.held, eq_comm] using hnodup
    simp only [ne_eq, not_true_eq_false, if_false]
    refine .quiet (h.lock_step ht rfl rfl hfree rfl rfl ?_ rfl rfl rfl rfl hfits
      fun _ => hD.next h.valid hs fun h => absurd rfl h) rfl
    simpa [Pc.held, hsc] using List.perm_append_singleton n [q, s]
  · simp only [ne_eq, hqc, not_false_eq_true, if_true]
    refine .quiet (h.lock_step ht rfl rfl hfree rfl rfl ?_ rfl rfl rfl rfl hfits fun _ => ⟨hD, hs⟩) rfl
    simpa [Pc.held, hqc] using List.perm_append_singleton n [cur, q, s]

theorem Inv.d2Unlock (ht : σ.thread t = some (c, .d2Unlock cur q s n))
    (he : exec t ao σ.mem (code c.op (.d2Unlock cur q s n)) = some (m', pc')) :
    Keeps σ V t c (.d2Unlock cur q s n) ao m' pc' := by
  obtain ⟨hfits, hnodup, -, -, hD, hs⟩ := h.thr _ _ _ ht
  obtain ⟨rfl, rfl⟩ := exec_unlock he
  have hsc : s ≠ cur := by
    simp only [Pc.held, List.nodup_cons, List.mem_cons, not_or] at hnodup
    exact Ne.symm hnodup.1.2.1
  refine .quiet (h.unlock_step ht rfl rfl (by simp [Pc.want]) ?_ rfl rfl rfl hfits (hD.next h.valid hs ?_)) rfl
  · simpa [Pc.held, hsc] using List.Perm.swap q cur [s, n]
  · intro _
    obtain ⟨nd, M, hnd, -, hM, hcase⟩ := hD
    apply h.clear_descent ht (by simp [Pc.held]) (by simp [Pc.held]) (by simp [Pc.held]) hnd hM hcase q
    rcases hcase with ⟨-, rfl⟩ | ⟨L, rfl, -⟩
    · simp [Pc.held] at hnodup
    · simp

theorem Inv.d2Key (ht : σ.thread t = some (c, .d2Key cur q s))
    (he : exec t ao σ.mem (code c.op (.d2Key cur q s)) = some (m', pc')) :
    Keeps σ V t c (.d2Key cur q s) ao m' pc' := by
  obtain ⟨hfits, -, -, -, hD, nz, hnz, hnil⟩ := h.thr _ _ _ ht
  obtain ⟨rfl, rfl⟩ := h.readKey_eq ht he (mem_held_d2.mpr (.inr (.inr rfl))) (by simp [Pc.copying]) hnz
  exact .quiet (h.read_step ht rfl rfl rfl rfl rfl rfl hfits ⟨hD, nz, hnz, hnil, rfl⟩) rfl

theorem Inv.d2SetKey (ht : σ.thread t = some (c, .d2SetKey cur q s k))
    (he : exec t ao σ.mem (code c.op (.d2SetKey cur q s k)) = some (m', pc')) :
    Keeps σ V t c (.d2SetKey cur q s k) ao m' pc' := by
  obtain ⟨hfits, -, -, -, hD, nz, hnz, hnil, rfl⟩ := h.thr _ _ _ ht
  obtain ⟨nd, M, hnd, -⟩ := id hD
  have hcur : cur ∈ (Pc.d2SetKey cur q s nz.key).held := mem_held_d2.mpr (.inl rfl)
  have hread := h.read ht hcur (by simp [Pc.copying]) hnd
  simp only [code, exec, hread, Option.map_some, Option.some.injEq, Prod.mk.injEq] at he
  obtain ⟨rfl, rfl⟩ := he
  exact .quiet (h.copy_step ht rfl rfl hread rfl rfl hcur rfl rfl rfl rfl rfl (by simp [Pc.copying]) rfl hfits
    ⟨hD, nd, nz, hnd, hnz, hnil, update_self .., trivial⟩) rfl

theorem Inv.d2Val (ht : σ.thread t = some (c, .d2Val cur q s))
    (he : exec t ao σ.mem (code c.op (.d2Val cur q s)) = some (m', pc')) :
    Keeps σ V t c (.d2Val cur q s) ao m' pc' := by
  obtain ⟨hfits, -, -, -, hD, nd, nz, hnd, hnz, hnil, hcopy, -⟩ := h.thr _ _ _ ht
  have hcs : (Pc.d2Val cur q s).copying ≠ some s := by simpa [Pc.copying] using hD.ne h.valid
  obtain ⟨rfl, rfl⟩ := h.readVal_eq ht he (mem_held_d2.mpr (.inr (.inr rfl))) hcs hnz
  exact .quiet (h.read_step ht rfl rfl rfl rfl rfl rfl hfits ⟨hD, nd, nz, hnd, hnz, hnil, hcopy, rfl⟩) rfl

theorem Inv.d2SetVal (ht : σ.thread t = some (c, .d2SetVal cur q s v))
    (he : exec t ao σ.mem (code c.op (.d2SetVal cur q s v)) = some (m', pc')) :
    Keeps σ V t c (.d2SetVal cur q s v) ao m' pc' := by
  obtain ⟨hfits, -, -, -, hD, nd, nz, hnd, hnz, hnil, hcopy, rfl⟩ := h.thr _ _ _ ht
  have hcur : cur ∈ (Pc.d2SetVal cur q s nz.value).held := mem_held_d2.mpr (.inl rfl)
  simp only [code, exec, hcopy, Option.map_some, Option.some.injEq, Prod.mk.injEq] at he
  obtain ⟨rfl, rfl⟩ := he
  exact .quiet (h.copy_step ht rfl rfl hcopy rfl rfl hcur rfl rfl rfl rfl rfl (by simp [Pc.copying]) rfl hfits
    ⟨hD, nd, nz, hnd, hnz, hnil, update_self .., trivial⟩) rfl

theorem Inv.d2Succ (ht : σ.thread t = some (c, .d2Succ cur q s))
    (he : exec t ao σ.mem (code c.op (.d2Succ cur q s)) = some (m', pc')) :
    Keeps σ V t c (.d2Succ cur q s) ao m' pc' := by
  obtain ⟨hfits, -, -, -, hD, nd, nz, hnd, hnz, hnil, hcopy, -⟩ := h.thr _ _ _ ht
  have hcs : (Pc.d2Succ cur q s).copying ≠ some s := by simpa [Pc.copying] using hD.ne h.valid
  obtain ⟨rfl, rfl⟩ := h.readChild_eq ht he (mem_held_d2.mpr (.inr (.inr rfl))) hcs hnz
  exact .quiet (h.read_step ht rfl rfl rfl rfl rfl rfl hfits ⟨hD, nd, nz, hnd, hnz, hnil, hcopy, rfl⟩) rfl

theorem Inv.d2Link (ht : σ.thread t = some (c, .d2Link cur q s p))
    (he : exec t ao σ.mem (code c.op (.d2Link cur q s p)) = some (m', pc')) :
    Keeps σ V t c (.d2Link cur q s p) ao m' pc' := by
  by_cases hqc : q = cur
  · simp only [code, if_pos hqc] at he
    obtain ⟨nm, hnm, rfl, rfl⟩ := exec_writeChild he
    obtain ⟨V', h', htakes⟩ :=
      h.d2Link_step (σ.move t c _ ao _ _) ht rfl (.inl ⟨hqc, rfl, rfl⟩) hnm rfl
    exact .takes h' rfl rfl fun ok _ _ => htakes ok
  · simp only [code, if_neg hqc] at he
    obtain ⟨nm, hnm, rfl, rfl⟩ := exec_writeChild he
    obtain ⟨V', h', htakes⟩ :=
      h.d2Link_step (σ.move t c _ ao _ _) ht rfl (.inr ⟨hqc, rfl, rfl⟩) hnm rfl
    exact .takes h' rfl rfl fun ok _ _ => htakes ok

theorem Inv.d2UnlockParent (ht : σ.thread t = some (c, .d2UnlockParent cur q s))
    (he : exec t ao σ.mem (code c.op (.d2UnlockParent cur q s)) = some (m', pc')) :
    Keeps σ V t c (.d2UnlockParent cur q s) ao m' pc' := by
  obtain ⟨hfits, -, -, -, -⟩ := h.thr _ _ _ ht
  obtain ⟨rfl, rfl⟩ := exec_unlock he
  exact .quiet (h.unlock_step ht rfl rfl (by simp [Pc.want]) (.swap q cur [s]) rfl rfl rfl hfits trivial) rfl

theorem Inv.d2UnlockSucc (ht : σ.thread t = some (c, .d2UnlockSucc cur s))
    (he : exec t ao σ.mem (code c.op (.d2UnlockSucc cur s)) = some (m', pc')) :
    Keeps σ V t c (.d2UnlockSucc cur s) ao m' pc' := by
  obtain ⟨hfits, hnodup, -, -, -⟩ := h.thr _ _ _ ht
  obtain ⟨rfl, rfl⟩ := exec_unlock he
  have hne : cur ≠ s := by simpa [Pc.held] using hnodup
  exact .quiet (h.unlock_step ht rfl rfl (by simp [Pc.want]) (.swap s cur []) rfl rfl rfl hfits hne) rfl

theorem Inv.d2Free (ht : σ.thread t = some (c, .d2Free cur s))
    (he : exec t ao σ.mem (code c.op (.d2Free cur s)) = some (m', pc')) :
    Keeps σ V t c (.d2Free cur s) ao m' pc' := by
  obtain ⟨-, -, -, -, hne⟩ := h.thr _ _ _ ht
  obtain ⟨rfl, rfl⟩ := exec_free he
  exact .quiet (h.free_step ht rfl rfl rfl rfl (by simpa [Pc.held] using Ne.symm hne) rfl rfl rfl rfl trivial
    trivial) rfl

/-- **Every step of a thread keeps the invariant**, and does to the tree nothing that
shows, or the whole call at once. -/
theorem Inv.run_step (ht : σ.thread t = some (c, pc))
    (he : exec t ao σ.mem (code c.op pc) = some (m', pc')) : Keeps σ V t c pc ao m' pc' := by
  cases pc with
  | lockTree => exact h.lockTree ht he
  | testRoot => exact h.testRoot ht he
  | readRoot => exact h.readRoot ht he
  | lockRoot cur => exact h.lockRoot ht he
  | unlockTree cur => exact h.unlockTree ht he
  | createRoot => exact h.createRoot ht he
  | linkRoot a => exact h.linkRoot ht he
  | unlockTreeRet r => exact h.unlockTreeRet ht he
  | insEq cur => exact h.insEq ht he
  | insLt cur => exact h.insLt ht he
  | insNull cur d => exact h.insNull ht he
  | insCreate cur d => exact h.insCreate ht he
  | insLink cur d a => exact h.insLink ht he
  | insNext cur d => exact h.insNext ht he
  | insLock cur n => exact h.insLock ht he
  | insUnlock cur n => exact h.insUnlock ht he
  | unlockRet cur r => exact h.unlockRet ht he
  | lookEq cur => exact h.lookEq ht he
  | lookVal cur => exact h.lookVal ht he
  | lookLt cur => exact h.lookLt ht he
  | lookNext cur d => exact h.lookNext ht he
  | lookLock cur n => exact h.lookLock ht he
  | lookUnlock cur n => exact h.lookUnlock ht he
  | delRootKey cur => exact h.delRootKey ht he
  | delRootLeft cur => exact h.delRootLeft ht he
  | delRootRight cur => exact h.delRootRight ht he
  | delRootPickL cur => exact h.delRootPickL ht he
  | delRootPick cur d => exact h.delRootPick ht he
  | delRootWrite cur p => exact h.delRootWrite ht he
  | delRootUnlockTree cur => exact h.delRootUnlockTree ht he
  | delUnlockFree cur => exact h.delUnlockFree ht he
  | free cur => exact h.free ht he
  | del2UnlockTree cur => exact h.del2UnlockTree ht he
  | delUnlockTree cur => exact h.delUnlockTree ht he
  | delLt0 cur => exact h.delLt0 ht he
  | delNext0 cur d => exact h.delNext0 ht he
  | delLock q d n => exact h.delLock ht he
  | delKey q d cur => exact h.delKey ht he
  | delLt q d cur => exact h.delLt ht he
  | delNext q d cur e => exact h.delNext ht he
  | delMiss q cur => exact h.delMiss ht he
  | delUnlockParent q cur e n => exact h.delUnlockParent ht he
  | delLeft q d cur => exact h.delLeft ht he
  | delRight q d cur => exact h.delRight ht he
  | delPickL q d cur => exact h.delPickL ht he
  | delPick q d cur e => exact h.delPick ht he
  | delWrite q d cur p => exact h.delWrite ht he
  | delUnlockParent1 q cur => exact h.delUnlockParent1 ht he
  | del2UnlockParent q cur => exact h.del2UnlockParent ht he
  | d2Right cur => exact h.d2Right ht he
  | d2LockSucc cur s => exact h.d2LockSucc ht he
  | d2Test cur q s => exact h.d2Test ht he
  | d2Next cur q s => exact h.d2Next ht he
  | d2Lock cur q s n => exact h.d2Lock ht he
  | d2Unlock cur q s n => exact h.d2Unlock ht he
  | d2Key cur q s => exact h.d2Key ht he
  | d2SetKey cur q s k => exact h.d2SetKey ht he
  | d2Val cur q s => exact h.d2Val ht he
  | d2SetVal cur q s v => exact h.d2SetVal ht he
  | d2Succ cur q s => exact h.d2Succ ht he
  | d2Link cur q s p => exact h.d2Link ht he
  | d2UnlockParent cur q s => exact h.d2UnlockParent ht he
  | d2UnlockSucc cur s => exact h.d2UnlockSucc ht he
  | d2Free cur s => exact h.d2Free ht he
  | ret r => simp [code, exec] at he
  | crash => simp [code, exec] at he

end

end SdeSystems.Bst
