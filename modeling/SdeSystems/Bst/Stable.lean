import SdeSystems.Bst.Invariant

/-!
# What a step leaves to the other threads

A step of thread `t` may change the tree and the memory only where `t` has the locks
(`Guarantee`). Everything another thread knows is about nodes it has locked itself, its
own node, the root while it has `tree->lock`, or the nodes `delete_two_children` has
released, to which no one has a pointer: so it stays true (`Inv.stable`).
-/

namespace SdeSystems.Bst

open Function Relation Lib Lib.Tree

/-- What a step of thread `t`, which is at `pc`, guarantees to the others. -/
structure Guarantee (σ : State) (V : View) (t : Tid) (pc : Pc) (V' : View) (m' : Mem) (pc' : Pc) : Prop where
  /-- Records change only where it has the lock. -/
  cell : ∀ x ∈ V.addrs, x ∉ pc.held → V'.cell x = V.cell x
  /-- And so does the memory, but for its own node. -/
  node : ∀ x nd, σ.mem.node x = some nd → x ∉ pc.held → pc.own ≠ some x → m'.node x = some nd
  /-- The root changes only if it has `tree->lock`. -/
  root : pc.hasTree = false → V'.root = V.root
  /-- The others stay on the paths of their searches. -/
  path : ∀ u ≠ t, ∀ c pcu, σ.thread u = some (c, pcu) → ∀ k, ∀ x ∈ pcu.locals, OnPath k V x → OnPath k V' x
  /-- Only its own node comes into the tree. -/
  new : ∀ x ∈ V'.addrs, x ∈ V.addrs ∨ pc.own = some x
  /-- It gets pointers only out of what it has locked, or from `malloc`. -/
  locals : ∀ x ∈ pc'.locals, x ∈ pc.locals ∨ (∃ p ∈ pc.held, ∃ d, Link V p d x) ∨
    (pc.hasTree = true ∧ V.root = some x) ∨ σ.mem.node x = none

theorem Has.congr {V V' : View} {a : Addr} {P : Node → Prop} (h : Has V a P) (hc : V'.cell a = V.cell a) :
    Has V' a P := by
  obtain ⟨nd, hnd, hp⟩ := h
  exact ⟨nd, hc.trans hnd, hp⟩

/-- What a thread knows depends on the nodes it has locked, on its own, on the root while
it has `tree->lock`, and on the paths to the nodes it has pointers to. -/
theorem Fact.stable {V V' : View} {m m' : Mem} {clear clear' : Addr → Prop} {op : Op} {pc : Pc}
    (h : Fact V m clear op pc) (hcell : ∀ x ∈ pc.held, x ∈ V.addrs → V'.cell x = V.cell x)
    (hpath : ∀ k, ∀ x ∈ pc.locals, OnPath k V x → OnPath k V' x)
    (hroot : pc.hasTree = true → V'.root = V.root)
    (hnode : ∀ x nd, x ∈ pc.held ∨ pc.own = some x → m.node x = some nd → m'.node x = some nd)
    (hdesc : ∀ c q s, c ∈ pc.held → q ∈ pc.held → Descent V clear op.key c q s →
      Descent V' clear' op.key c q s) : Fact V' m' clear' op pc := by
  have has : ∀ {a P}, a ∈ pc.held → Has V a P → Has V' a P :=
    fun ha h => h.congr (hcell _ ha h.mem)
  have at' : ∀ {k a P}, a ∈ pc.held → At V k a P → At V' k a P :=
    fun ha h => ⟨hpath _ _ (Pc.mem_locals.mpr (.inl ha)) h.1, has ha h.2⟩
  have link : ∀ {q d c}, q ∈ pc.held → Link V q d c → Link V' q d c := fun hq h => has hq h
  have copied : ∀ {c s f P}, c ∈ pc.held → s ∈ pc.held → Copied V m c s f P → Copied V' m' c s f P := by
    rintro c s f P hc hs ⟨nd, nz, h₁, h₂, h₃, h₄, h₅⟩
    exact ⟨nd, nz, (hcell c hc (mem_of_cell h₁)).trans h₁, (hcell s hs (mem_of_cell h₂)).trans h₂, h₃,
      hnode c _ (.inl hc) h₄, h₅⟩
  cases pc <;> simp only [Fact] at h ⊢
  case readRoot => rwa [hroot rfl]
  case lockRoot => rwa [hroot rfl]
  case unlockTree => rwa [hroot rfl]
  case createRoot => rwa [hroot rfl]
  case linkRoot a => exact ⟨(hroot rfl).trans h.1, hnode a _ (.inr rfl) h.2⟩
  case insEq c => exact hpath _ c (by simp [Pc.locals, Pc.held]) h
  case insLt c => exact at' (by simp [Pc.held]) h
  case insNull c d => exact at' (by simp [Pc.held]) h
  case insCreate c d => exact at' (by simp [Pc.held]) h
  case insLink c d a => exact ⟨hnode a _ (.inr rfl) h.1, at' (by simp [Pc.held]) h.2⟩
  case insNext c d => exact at' (by simp [Pc.held]) h
  case insLock c n =>
    exact ⟨hpath _ n (by simp [Pc.locals, Pc.want]) h.1, h.2.imp fun d hd => link (by simp [Pc.held]) hd⟩
  case insUnlock c n =>
    exact ⟨hpath _ n (by simp [Pc.locals, Pc.held]) h.1, h.2.imp fun d hd => link (by simp [Pc.held]) hd⟩
  case lookEq c => exact hpath _ c (by simp [Pc.locals, Pc.held]) h
  case lookVal c => exact has (by simp [Pc.held]) h
  case lookLt c => exact at' (by simp [Pc.held]) h
  case lookNext c d => exact at' (by simp [Pc.held]) h
  case lookLock c n =>
    exact ⟨hpath _ n (by simp [Pc.locals, Pc.want]) h.1, h.2.imp fun d hd => link (by simp [Pc.held]) hd⟩
  case lookUnlock c n =>
    exact ⟨hpath _ n (by simp [Pc.locals, Pc.held]) h.1, h.2.imp fun d hd => link (by simp [Pc.held]) hd⟩
  case delRootKey => rwa [hroot rfl]
  case delRootLeft c => exact ⟨(hroot rfl).trans h.1, has (by simp [Pc.held]) h.2⟩
  case delRootRight c => exact ⟨(hroot rfl).trans h.1, has (by simp [Pc.held]) h.2⟩
  case delRootPickL c => exact ⟨(hroot rfl).trans h.1, has (by simp [Pc.held]) h.2⟩
  case delRootPick c d => exact ⟨(hroot rfl).trans h.1, has (by simp [Pc.held]) h.2⟩
  case delRootWrite c p => exact ⟨(hroot rfl).trans h.1, has (by simp [Pc.held]) h.2⟩
  case del2UnlockTree c => exact has (by simp [Pc.held]) h
  case delUnlockTree c => exact at' (by simp [Pc.held]) h
  case delLt0 c => exact at' (by simp [Pc.held]) h
  case delNext0 c d => exact at' (by simp [Pc.held]) h
  case delLock q d n =>
    exact ⟨hpath _ n (by simp [Pc.locals, Pc.want]) h.1, link (by simp [Pc.held]) h.2⟩
  case delKey q d c =>
    exact ⟨hpath _ c (by simp [Pc.locals, Pc.held]) h.1, link (by simp [Pc.held]) h.2⟩
  case delLt q d c => exact ⟨link (by simp [Pc.held]) h.1, at' (by simp [Pc.held]) h.2⟩
  case delNext q d c e => exact ⟨link (by simp [Pc.held]) h.1, at' (by simp [Pc.held]) h.2⟩
  case delUnlockParent q c e n =>
    exact ⟨hpath _ n (by simp [Pc.locals, Pc.want]) h.1, link (by simp [Pc.held]) h.2⟩
  case delLeft q d c => exact ⟨link (by simp [Pc.held]) h.1, has (by simp [Pc.held]) h.2⟩
  case delRight q d c => exact ⟨link (by simp [Pc.held]) h.1, has (by simp [Pc.held]) h.2⟩
  case delPickL q d c => exact ⟨link (by simp [Pc.held]) h.1, has (by simp [Pc.held]) h.2⟩
  case delPick q d c e => exact ⟨link (by simp [Pc.held]) h.1, has (by simp [Pc.held]) h.2⟩
  case delWrite q d c p => exact ⟨link (by simp [Pc.held]) h.1, has (by simp [Pc.held]) h.2⟩
  case del2UnlockParent q c => exact has (by simp [Pc.held]) h
  case d2Right c => exact has (by simp [Pc.held]) h
  case d2LockSucc c s => exact has (by simp [Pc.held]) h
  case d2Free c s => exact h
  -- the rest is `delete_two_children`, where `succ_parent` may be `cur`
  all_goals
    simp only [Pc.held] at has copied hdesc
    first
    | exact hdesc _ _ _ (by split_ifs <;> simp) (by split_ifs with hq <;> simp [hq]) h
    | exact ⟨hdesc _ _ _ (by simp) (by simp) h.1, has (by simp) h.2⟩
    | exact ⟨hdesc _ _ _ (by split_ifs <;> simp) (by split_ifs with hq <;> simp [hq]) h.1,
        has (by split_ifs <;> simp) h.2⟩
    | exact ⟨hdesc _ _ _ (by split_ifs <;> simp) (by split_ifs with hq <;> simp [hq]) h.1,
        copied (by split_ifs <;> simp) (by split_ifs <;> simp) h.2⟩

/-- Where `delete_two_children` is stays so when the records it came by do. -/
theorem Descent.stable {V V' : View} {clear clear' : Addr → Prop} {k : ℤ} {c q s : Addr}
    (h : Descent V clear k c q s) (hc : V'.cell c = V.cell c) (hq : V'.cell q = V.cell q)
    (hL : ∀ x, clear x → Has V x (fun _ => True) → V'.cell x = V.cell x)
    (hclear : ∀ nd M x, V.cell c = some nd → V.LeftPath nd.right M s → x ∈ M → clear x →
      (∀ y ∈ M, y = q ∨ clear y) → clear' x) : Descent V' clear' k c q s := by
  obtain ⟨nd, M, hnd, hk, hM, hcase⟩ := h
  have hmem : ∀ x ∈ M, x = q ∨ clear x := by
    intro x hx
    rcases hcase with ⟨rfl, -⟩ | ⟨L, rfl, hL⟩
    · simp at hx
    · rcases List.mem_append.mp hx with hx | hx
      · exact .inr (hL x hx)
      · exact .inl (by simpa using hx)
  refine ⟨nd, M, hc.trans hnd, hk, hM.congr ?_, ?_⟩
  · intro x hx
    rcases hmem x hx with rfl | hx'
    · exact hq
    · apply hL x hx'
      rcases hM.parent (x := x) (by simp [hx]) with h | ⟨y, -, ny, hny, h⟩
      · obtain ⟨nx, hnx⟩ := cell_of_mem (child_mem (d := .right) hnd h)
        exact ⟨nx, hnx, trivial⟩
      · obtain ⟨nx, hnx⟩ := cell_of_mem (child_mem (d := .left) hny h)
        exact ⟨nx, hnx, trivial⟩
  · rcases hcase with h | ⟨L, rfl, hL⟩
    · exact .inl h
    · exact .inr ⟨L, rfl, fun x hx => hclear nd _ x hnd hM (by simp [hx]) (hL x hx) hmem⟩

/-- The node that a thread has made is not locked by another, nor its own. -/
theorem Inv.own_apart {σ : State} {V : View} {t u : Tid} {c c' : Call} {pc pcu : Pc} {a : Addr} (h : Inv σ V) (hut : u ≠ t)
    (ht : σ.thread t = some (c, pc)) (hu : σ.thread u = some (c', pcu)) (ha : pcu.own = some a) :
    a ∉ pc.held ∧ pc.own ≠ some a := by
  have hao : pc.own ≠ some a := fun hao => hut (h.apart u t _ _ _ _ a hu ht ha hao)
  refine ⟨?_, hao⟩
  intro hah
  exact ((h.thr u c' pcu hu).own a ha).1 ((h.thr t c pc ht).scope a hah hao)

/-- A step gives no pointer to a node that only `u` knows of: it would have to come out of the node's parent. -/
theorem Inv.clear_stable {σ σ' : State} {V V' : View} {t u : Tid} {c : Call} {pc pc' : Pc} {p x : Addr} {d : Side}
    (h : Inv σ V) (ht : σ.thread t = some (c, pc)) (hut : u ≠ t) (hg : Guarantee σ V t pc V' σ'.mem pc')
    (hσ' : σ'.thread = update σ.thread t (some (c, pc'))) (hx : Clear σ u x) (hlink : Link V p d x) (hp : p ∉ pc.held) :
    Clear σ' u x := by
  intro v hvu cv pcv hv hxl
  rw [hσ'] at hv
  by_cases hvt : v = t
  · subst hvt
    rw [update_self] at hv
    obtain ⟨rfl, rfl⟩ : c = cv ∧ pc' = pcv := by simpa using hv
    obtain ⟨np, hnp, hpd⟩ := hlink
    rcases hg.locals x hxl with h' | ⟨p', hp', d', np', hnp', hpd'⟩ | ⟨-, h'⟩ | h'
    · exact hx v hvu c pc ht h'
    · obtain ⟨rfl, -⟩ := parent_unique h.valid.nodup hnp hpd hnp' hpd'
      exact hp hp'
    · exact child_ne_root h.valid.nodup hnp hpd h'
    · obtain ⟨nx, hnx⟩ := cell_of_mem (child_mem hnp hpd)
      obtain ⟨nm, hnm, -⟩ := h.cells x nx hnx
      simp [hnm] at h'
  · rw [update_of_ne hvt] at hv
    exact hx v hvu cv pcv hv hxl

/-- **A step of one thread leaves what the others know.** -/
theorem Inv.stable {σ σ' : State} {V V' : View} {t u : Tid} {c c' : Call} {pc pc' pcu : Pc} (h : Inv σ V)
    (ht : σ.thread t = some (c, pc)) (hut : u ≠ t) (hu : σ.thread u = some (c', pcu))
    (hg : Guarantee σ V t pc V' σ'.mem pc') (hσ' : σ'.thread = update σ.thread t (some (c, pc'))) :
    Local V' σ'.mem (Clear σ' u) c'.op pcu := by
  obtain ⟨hfits, hnodup, hscope, hown, hfact⟩ := h.thr u c' pcu hu
  have hheld : ∀ x ∈ pcu.held, x ∉ pc.held := fun x hx hx' => hut (h.held_apart hu ht hx hx')
  have hcell : ∀ x ∈ pcu.held, x ∈ V.addrs → V'.cell x = V.cell x := fun x hx hxV => hg.cell x hxV (hheld x hx)
  refine ⟨hfits, hnodup, ?_, ?_,
    hfact.stable hcell (fun k x hx => hg.path u hut _ _ hu k x hx) (fun htree => hg.root ?_) ?_ ?_⟩
  · intro x hx hx'
    have hxV := hscope x hx hx'
    obtain ⟨nd, hnd⟩ := cell_of_mem hxV
    exact mem_of_cell ((hcell x hx hxV).trans hnd)
  · intro a ha
    obtain ⟨haV, nd, hnd⟩ := hown a ha
    obtain ⟨hah, hao⟩ := h.own_apart hut ht hu ha
    refine ⟨?_, nd, hg.node a nd hnd hah hao⟩
    intro haV'
    rcases hg.new a haV' with h' | h'
    · exact haV h'
    · exact hao h'
  · by_contra htree'
    exact hut (h.tree_apart hu ht htree (by simpa using htree'))
  · rintro x nd hx hnd
    rcases hx with hx | hx
    · apply hg.node x nd hnd (hheld x hx)
      intro hxo
      exact (h.own_apart hut.symm hu ht hxo).1 hx
    · obtain ⟨hxh, hxo⟩ := h.own_apart hut ht hu hx
      exact hg.node x nd hnd hxh hxo
  · intro cc q s hcc hq hD
    have hccV : cc ∈ V.addrs := by
      obtain ⟨nd, -, hnd, -⟩ := hD
      exact mem_of_cell hnd
    have hqV : q ∈ V.addrs := by
      obtain ⟨nd, M, hnd, -, hM, ⟨-, rfl⟩ | ⟨L, rfl, -⟩⟩ := hD
      · exact hccV
      · rcases hM.parent (x := q) (by simp) with h | ⟨y, -, ny, hny, h⟩
        · exact child_mem (d := .right) hnd h
        · exact child_mem (d := .left) hny h
    refine hD.stable (hcell cc hcc hccV) (hcell q hq hqV) ?_ ?_
    · intro x hx hxV
      exact hg.cell x hxV.mem fun hxh => hx t (Ne.symm hut) c pc ht (Pc.mem_locals.mpr (.inl hxh))
    · -- the parents of the nodes on the way down are not locked by the thread
      intro nd M x hnd hM hxM hx hMq
      rcases hM.parent (x := x) (by simp [hxM]) with h' | ⟨y, hy, ny, hny, h'⟩
      · have hlink : Link V cc .right x := ⟨nd, hnd, h'⟩
        exact h.clear_stable ht hut hg hσ' hx hlink (hheld cc hcc)
      · have hlink : Link V y .left x := ⟨ny, hny, h'⟩
        apply h.clear_stable ht hut hg hσ' hx hlink
        rcases hMq y hy with rfl | hyc
        · exact hheld y hq
        · intro hyh
          exact hyc t hut.symm c pc ht (Pc.mem_locals.mpr (.inl hyh))

end SdeSystems.Bst
