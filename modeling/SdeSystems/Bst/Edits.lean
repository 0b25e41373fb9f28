import SdeSystems.Bst.Steps
import SdeSystems.Bst.Spec
import Mathlib.Tactic.Push

/-!
# The writes that change the tree

The five places where a pointer is written: the first node, a new leaf, the removal of the
root, the removal of another node with at most one child, and the removal of the successor
whose entry has been copied up. At each of them the call takes effect.
-/

namespace SdeSystems.Bst

open Function Relation Lib Lib.Tree

variable {σ σ' : State} {V V' : View} {t : Tid} {c : Call} {pc pc' : Pc}

/-- What a write that changes the tree must show. The thread keeps its locks, and a node
that leaves the tree becomes its own. -/
theorem Inv.edit_step (h : Inv σ V) (ht : σ.thread t = some (c, pc))
    (hσ' : σ'.thread = update σ.thread t (some (c, pc'))) (hvalid : V'.Valid) (hroot : σ'.mem.root = V'.root)
    (hroot' : pc.hasTree = false → V'.root = V.root)
    (hlock : σ'.mem.lock = σ.mem.lock) (htlock : σ'.mem.treeLock = σ.mem.treeLock)
    (hnode : ∀ x, x ∉ pc.held → σ'.mem.node x = σ.mem.node x)
    (hcell : ∀ x ∈ V.addrs, x ∉ pc.held → V'.cell x = V.cell x)
    (hcells : ∀ a nd, V'.cell a = some nd → σ'.mem.node a = some nd ∨
      (V.cell a = some nd ∧ σ'.mem.node a = σ.mem.node a ∧ pc.copying ≠ some a))
    (hpath : ∀ u ≠ t, ∀ c pcu, σ.thread u = some (c, pcu) → ∀ k, ∀ x ∈ pcu.locals, OnPath k V x → OnPath k V' x)
    (hnew : ∀ x ∈ V'.addrs, x ∈ V.addrs ∨ pc.own = some x)
    (hheld : pc'.held = pc.held) (htree : pc'.hasTree = pc.hasTree) (hwant : pc'.want = none)
    (hscope : ∀ x ∈ pc.held, pc'.own ≠ some x → x ∈ V'.addrs)
    (hown : ∀ a, pc'.own = some a → a ∈ pc.held ∧ a ∈ V.addrs ∧ a ∉ V'.addrs ∧ ∃ nd, σ'.mem.node a = some nd)
    (hfits : pc'.fits c.op) (hfact : Fact V' σ'.mem (Clear σ t) c.op pc') : Inv σ' V' := by
  have hl := h.thr t c pc ht
  refine h.assemble ht hσ' ⟨hcell, fun x nd hx hxh _ => (hnode x hxh).trans hx, hroot', hpath, hnew,
    ?_⟩ hvalid hroot ?_ ?_ ?_ ?_ ⟨hfits, hheld ▸ hl.nodup, fun x hx hx' => hscope x (hheld ▸ hx) hx', ?_, hfact⟩
  · intro x hx
    rcases Pc.mem_locals.mp hx with hx | hx | hx
    · exact .inl (Pc.mem_locals.mpr (.inl (hheld ▸ hx)))
    · simp [hwant] at hx
    · exact .inl (Pc.mem_locals.mpr (.inl (hown x hx).1))
  · intro a nd ha
    rcases hcells a nd ha with h' | ⟨h₁, h₂, h₃⟩
    · exact ⟨nd, h', rfl, rfl, .inl rfl⟩
    · obtain ⟨nm, hnm, h₄, h₅, h₆⟩ := h.cells a nd h₁
      refine ⟨nm, h₂.trans hnm, h₄, h₅, ?_⟩
      rcases h₆ with h₆ | ⟨u, cu, pcu, hu, h₆⟩
      · exact .inl h₆
      · refine .inr (.inr ⟨u, ?_, cu, pcu, hu, h₆⟩)
        rintro rfl
        rw [ht] at hu
        cases hu
        exact h₃ h₆
  · intro a u
    rw [hlock]
    exact h.locks_same ht (fun x => by rw [hheld]) a u
  · intro u
    rw [htlock]
    exact h.tree_same ht htree u
  · intro a ha u hu cu pcu hpu hau
    exact ((h.thr u cu pcu hpu).own a hau).1 (hown a ha).2.1
  · intro a ha
    exact (hown a ha).2.2

/-- `tree->root = new_node`. -/
theorem Inv.linkRoot_step {a : Addr} (h : Inv σ V) (σ' : State) (ht : σ.thread t = some (c, .linkRoot a))
    (hσ' : σ'.thread = update σ.thread t (some (c, .unlockTreeRet .ok)))
    (hm : σ'.mem = { σ.mem with root := some a }) :
    ∃ V', Inv σ' V' ∧ Takes true c.op V V' .ok := by
  obtain ⟨hfits, -, -, hown, hroot, hnode⟩ := h.thr _ _ _ ht
  obtain rfl := root_eq_none.mp hroot
  refine ⟨.node a c.op.key c.op.value .leaf .leaf, h.edit_step ht hσ' ⟨by simp, by simp [Ordered]⟩ ?_ ?_ ?_ ?_
    ?_ ?_ ?_ (fun u _ c pcu _ k x _ hx => hx.elim) ?_
    rfl rfl rfl ?_ ?_ trivial trivial, ?_⟩
  · rw [hm]
    rfl
  · intro h
    exact absurd h (by simp [Pc.hasTree])
  · rw [hm]
  · rw [hm]
  · intro x _
    rw [hm]
  · intro x hx
    simp at hx
  · intro x nd hx
    rw [cell_node] at hx
    split_ifs at hx with hxa
    · subst hxa
      rw [hm]
      exact .inl (hnode.trans (by simpa using hx))
    · simp at hx
  · intro x hx
    obtain rfl : x = a := by simpa using hx
    exact .inr rfl
  · intro x hx
    simp [Pc.held] at hx
  · intro x hx
    simp [Pc.own] at hx
  · exact takes_insert_absent hfits (by simp) (by simp)

/-- `cur->left = new_node`, or `cur->right`. -/
theorem Inv.insLink_step {cur a : Addr} {d : Side} {nm : Node} (h : Inv σ V) (σ' : State)
    (ht : σ.thread t = some (c, .insLink cur d a))
    (hσ' : σ'.thread = update σ.thread t (some (c, .unlockRet cur .ok))) (hnm : σ.mem.node cur = some nm)
    (hm : σ'.mem = σ.mem.store cur (nm.setChild d (some a))) :
    ∃ V', Inv σ' V' ∧ Takes true c.op V V' .ok := by
  obtain ⟨hfits, -, -, hown, hnode, hpath, nd, hnd, hk, hd, hnil⟩ := h.thr _ _ _ ht
  obtain ⟨haV, -⟩ := hown a rfl
  obtain rfl : nd = nm := by
    have := h.read ht (a := cur) (by simp [Pc.held]) (by simp [Pc.copying]) hnd
    simpa [this] using hnm
  subst hd
  have hspec := attach_spec (v := c.op.value) h.valid hpath hnd hk hnil haV
  have hcurV := mem_of_cell hnd
  have hac : a ≠ cur := by rintro rfl; exact haV hcurV
  have hstore : ∀ x ≠ cur, σ'.mem.node x = σ.mem.node x := fun x hx => by rw [hm]; exact update_of_ne hx _ _
  refine ⟨_, h.edit_step ht hσ' hspec.valid ?_ (fun _ => hspec.root) ?_ ?_ ?_ ?_
    ?_ (fun u _ _ pcu _ k x _ hx => hspec.path k x hx) ?_ rfl rfl rfl
    ?_ ?_ trivial trivial, ?_⟩
  · rw [hm, hspec.root]
    exact h.root
  · rw [hm]
    rfl
  · rw [hm]
    rfl
  · intro x hx
    exact hstore x (by simpa [Pc.held] using hx)
  · intro x hx hxh
    exact hspec.frame x hx (by simpa [Pc.held] using hxh)
  · intro x nx hx
    by_cases hxc : x = cur
    · subst hxc
      rw [hspec.link] at hx
      cases hx
      rw [hm]
      exact .inl (update_self ..)
    · rcases (hspec.mem x).mp (mem_of_cell hx) with rfl | hxV
      · rw [hspec.new] at hx
        rw [hstore _ hxc]
        exact .inl (hnode.trans hx)
      · rw [hspec.frame x hxV hxc] at hx
        exact .inr ⟨hx, hstore x hxc, by simp [Pc.copying]⟩
  · intro x hx
    rcases (hspec.mem x).mp hx with rfl | hx
    · exact .inr rfl
    · exact .inl hx
  · intro x hx _
    obtain rfl : x = cur := by simpa [Pc.held] using hx
    exact (hspec.mem x).mpr (.inr hcurV)
  · intro x hx
    simp [Pc.own] at hx
  · exact takes_insert_absent hfits (hpath.notMem h.valid.ordered h.valid.nodup hnd hk hnil) hspec.entries

/-- A node that is not the parent of the node taken out keeps its record. -/
theorem retarget_of_link {V : View} (hV : V.Valid) {p q x : Addr} {d : Side} {r : Option Addr}
    (hp : Link V p d q) (hx : x ≠ p) : (V.cell x).map (·.retarget q r) = V.cell x := by
  obtain ⟨np, hnp, hpd⟩ := hp
  cases hcx : V.cell x with
  | none => rfl
  | some nx =>
    rw [Option.map_some, Node.retarget_of_ne fun d' hd' => hx (parent_unique hV.nodup hcx hd' hnp hpd).1]

/-- The parent's pointer goes on. -/
theorem retarget_parent {V : View} (hV : V.Valid) {p q : Addr} {d : Side} {r : Option Addr} {np : Node}
    (hnp : V.cell p = some np) (hpd : np.child d = some q) : np.retarget q r = np.setChild d r := by
  apply Node.retarget_child hpd
  intro h
  have := (parent_unique hV.nodup hnp hpd hnp h).2
  cases d <;> simp [Side.other] at this

/-- `tree->root = (cur->left != NULL) ? cur->left : cur->right`. -/
theorem Inv.delRootWrite_step {cur : Addr} {p : Option Addr} (h : Inv σ V) (σ' : State)
    (ht : σ.thread t = some (c, .delRootWrite cur p))
    (hσ' : σ'.thread = update σ.thread t (some (c, .delRootUnlockTree cur)))
    (hm : σ'.mem = { σ.mem with root := p }) : ∃ V', Inv σ' V' ∧ ∀ ok, Takes ok c.op V V' .ok := by
  obtain ⟨hfits, -, -, -, hroot, nd, hnd, hk, d, hnil, rfl⟩ := h.thr _ _ _ ht
  have hspec := splice_spec h.valid hnd hnil
  have hcell : ∀ x ∈ V.addrs, x ≠ cur → (V.splice cur).cell x = V.cell x := by
    intro x hx hxc
    rw [hspec.cell x hx hxc]
    cases hcx : V.cell x with
    | none => rfl
    | some nx => rw [Option.map_some, Node.retarget_of_ne fun d' hd' => child_ne_root h.valid.nodup hcx hd' hroot]
  refine ⟨V.splice cur, h.edit_step ht hσ' hspec.valid ?_ ?_ ?_ ?_ ?_ ?_ ?_ ?_ ?_ rfl rfl rfl ?_ ?_ hfits trivial,
    ?_⟩
  · rw [hm, hspec.root, if_pos hroot]
  · intro h
    exact absurd h (by simp [Pc.hasTree])
  · rw [hm]
  · rw [hm]
  · intro x hx
    rw [hm]
  · intro x hx hxh
    exact hcell x hx (by simpa [Pc.held] using hxh)
  · intro x nx hx
    obtain ⟨hxV, hxc⟩ := (hspec.mem x).mp (mem_of_cell hx)
    rw [hcell x hxV hxc] at hx
    exact .inr ⟨hx, by rw [hm], by simp [Pc.copying]⟩
  · intro u hu cu pcu hpu k x hx hp
    refine hspec.path k x ?_ hp
    rintro rfl
    -- the root is locked, and no one else has the tree's lock: no one else has a pointer to it
    have hl := h.thr u cu pcu hpu
    rcases Pc.mem_locals.mp hx with hx | hx | hx
    · exact hu (h.held_apart hpu ht hx (by simp [Pc.held]))
    · rcases hl.fact.want_linked hx with ⟨p, -, d', np, hnp, hpd⟩ | ⟨htree, -⟩
      · exact child_ne_root h.valid.nodup hnp hpd hroot
      · exact hu (h.tree_apart hpu ht htree rfl)
    · exact (hl.own x hx).1 (mem_of_cell hnd)
  · intro x hx
    exact .inl ((hspec.mem x).mp hx).1
  · intro x hx hxo
    obtain rfl : x = cur := by simpa [Pc.held] using hx
    simp [Pc.own] at hxo
  · intro x hx
    obtain rfl : cur = x := by simpa [Pc.own] using hx
    have := h.read ht (a := cur) (by simp [Pc.held]) (by simp [Pc.copying]) hnd
    exact ⟨by simp [Pc.held], mem_of_cell hnd, fun h => ((hspec.mem cur).mp h).2 rfl, nd, by rw [hm]; exact this⟩
  · intro ok
    apply takes_delete_present hfits (hk ▸ mem_toList_of_cell hnd)
    intro q
    rw [hspec.entries, hk]

/-- `parent->left = child`, or `parent->right`. -/
theorem Inv.delWrite_step {q cur : Addr} {d : Side} {p : Option Addr} {nm : Node} (h : Inv σ V) (σ' : State)
    (ht : σ.thread t = some (c, .delWrite q d cur p))
    (hσ' : σ'.thread = update σ.thread t (some (c, .delUnlockParent1 q cur))) (hnm : σ.mem.node q = some nm)
    (hm : σ'.mem = σ.mem.store q (nm.setChild d p)) : ∃ V', Inv σ' V' ∧ ∀ ok, Takes ok c.op V V' .ok := by
  obtain ⟨hfits, hnodup, -, -, ⟨nq, hnq, hqd⟩, nd, hnd, hk, e, hnil, rfl⟩ := h.thr _ _ _ ht
  have hqc : q ≠ cur := by simpa [Pc.held] using hnodup
  obtain rfl : nq = nm := by
    have := h.read ht (a := q) (by simp [Pc.held]) (by simp [Pc.copying]) hnq
    simpa [this] using hnm
  have hspec := splice_spec h.valid hnd hnil
  have hstore : ∀ x ≠ q, σ'.mem.node x = σ.mem.node x := fun x hx => by rw [hm]; exact update_of_ne hx _ _
  have hcell : ∀ x ∈ V.addrs, x ≠ cur → x ≠ q → (V.splice cur).cell x = V.cell x := by
    intro x hx hxc hxq
    rw [hspec.cell x hx hxc, retarget_of_link h.valid ⟨nq, hnq, hqd⟩ hxq]
  refine ⟨V.splice cur, h.edit_step ht hσ' hspec.valid ?_ ?_ ?_ ?_ ?_ ?_ ?_ ?_ ?_ rfl rfl rfl ?_ ?_ hfits trivial,
    ?_⟩
  · rw [hm, hspec.root, if_neg (child_ne_root h.valid.nodup hnq hqd)]
    exact h.root
  · intro _
    rw [hspec.root, if_neg (child_ne_root h.valid.nodup hnq hqd)]
  · rw [hm]
    rfl
  · rw [hm]
    rfl
  · intro x hx
    simp only [Pc.held, List.mem_cons, not_or] at hx
    exact hstore x hx.1
  · intro x hx hxh
    simp only [Pc.held, List.mem_cons, List.not_mem_nil, or_false, not_or] at hxh
    exact hcell x hx hxh.2 hxh.1
  · intro x nx hx
    obtain ⟨hxV, hxc⟩ := (hspec.mem x).mp (mem_of_cell hx)
    by_cases hxq : x = q
    · subst hxq
      rw [hspec.cell x hxV hxc, hnq, Option.map_some, retarget_parent h.valid hnq hqd] at hx
      rw [hm]
      exact .inl ((update_self ..).trans hx)
    · rw [hcell x hxV hxc hxq] at hx
      exact .inr ⟨hx, hstore x hxq, by simp [Pc.copying]⟩
  · intro u hu cu pcu hpu k x hx hp
    refine hspec.path k x ?_ hp
    rintro rfl
    refine h.clear_child (t := t) ⟨nq, hnq, hqd⟩ (fun v hv cv pcv hpv => ⟨?_, ?_⟩) u hu cu pcu hpu hx
    · intro hqv
      exact hv (h.held_apart hpv ht hqv (by simp [Pc.held]))
    · intro hxv
      exact hv (h.held_apart hpv ht hxv (by simp [Pc.held]))
  · intro x hx
    exact .inl ((hspec.mem x).mp hx).1
  · intro x hx hxo
    rcases (by simpa [Pc.held] using hx : x = q ∨ x = cur) with rfl | rfl
    · exact (hspec.mem x).mpr ⟨mem_of_cell hnq, hqc⟩
    · simp [Pc.own] at hxo
  · intro x hx
    obtain rfl : cur = x := by simpa [Pc.own] using hx
    have := h.read ht (a := cur) (by simp [Pc.held]) (by simp [Pc.copying]) hnd
    exact ⟨by simp [Pc.held], mem_of_cell hnd, fun h => ((hspec.mem cur).mp h).2 rfl, nd,
      (hstore cur (Ne.symm hqc)).trans this⟩
  · intro ok
    apply takes_delete_present hfits (hk ▸ mem_toList_of_cell hnd)
    intro q
    rw [hspec.entries, hk]

/-- No other thread has a pointer to a node on the way down of `delete_two_children`. -/
theorem Inv.clear_descent (h : Inv σ V) (ht : σ.thread t = some (c, pc)) {cur q s : Addr} {nd : Node}
    {M : List Addr} (hc : cur ∈ pc.held) (hq : q ∈ pc.held) (hs : s ∈ pc.held) (hnd : V.cell cur = some nd)
    (hM : V.LeftPath nd.right M s) (hcase : (M = [] ∧ q = cur) ∨ ∃ L, M = L ++ [q] ∧ ∀ x ∈ L, Clear σ t x) :
    ∀ x ∈ M ++ [s], Clear σ t x := by
  have hMq : ∀ y ∈ M, y ∈ pc.held ∨ Clear σ t y := by
    intro y hy
    rcases hcase with ⟨rfl, -⟩ | ⟨L, rfl, hL⟩
    · simp at hy
    · rcases List.mem_append.mp hy with hy | hy
      · exact .inr (hL y hy)
      · obtain rfl : y = q := by simpa using hy
        exact .inl hq
  have hnot : ∀ y, y ∈ pc.held ∨ Clear σ t y → ∀ u ≠ t, ∀ c pcu, σ.thread u = some (c, pcu) → y ∉ pcu.held := by
    rintro y (hy | hy) u hu cu pcu hpu hyu
    · exact hu (h.held_apart hpu ht hyu hy)
    · exact hy u hu cu pcu hpu (Pc.mem_locals.mpr (.inl hyu))
  intro x hx
  have hx' : x ∈ pc.held ∨ Clear σ t x := by
    rcases List.mem_append.mp hx with hx | hx
    · exact hMq x hx
    · obtain rfl : x = s := by simpa using hx
      exact .inl hs
  rcases hM.parent hx with hp | ⟨y, hy, ny, hny, hp⟩
  · exact h.clear_child (d := .right) ⟨nd, hnd, hp⟩ fun u hu cu pcu hpu =>
      ⟨hnot cur (.inl hc) u hu cu pcu hpu, hnot x hx' u hu cu pcu hpu⟩
  · exact h.clear_child (d := .left) ⟨ny, hny, hp⟩ fun u hu cu pcu hpu =>
      ⟨hnot y (hMq y hy) u hu cu pcu hpu, hnot x hx' u hu cu pcu hpu⟩

/-- The node where `delete_two_children` unlinks the successor, and on which side. -/
theorem Descent.parent {clear : Addr → Prop} {k : ℤ} {cur q s : Addr} (hV : V.Valid)
    (h : Descent V clear k cur q s) :
    (q = cur ∧ Link V cur .right s) ∨ (q ≠ cur ∧ Link V q .left s) := by
  obtain ⟨nd, M, hnd, -, hM, ⟨rfl, rfl⟩ | ⟨L, rfl, -⟩⟩ := h
  · exact .inl ⟨rfl, nd, hnd, hM⟩
  · refine .inr ⟨?_, hM.last⟩
    rintro rfl
    have := hM.nodup hV.nodup hnd
    simp at this

/-- What the memory has at `cur` and at `succ_parent` after the successor is unlinked is what the new tree has there:
at `cur` the entry of the successor, which was copied before. -/
theorem pulled_stored {cur q s : Addr} {M : List Addr} {nd nz nq nm : Node} {d : Side} {m m' : Mem} (hV : V.Valid)
    (hspec : V.PullUpSpec (V.pullUp cur) cur s M nd nz) (hnd : V.cell cur = some nd) (hnq : V.cell q = some nq)
    (hqs : nq.child d = some s) (hne : q ≠ s)
    (hcopy : m.node cur = some { nd with key := nz.key, value := nz.value })
    (hread : q ≠ cur → m.node q = some nq) (hnm : m.node q = some nm) (hm : m' = m.store q (nm.setChild d nz.right)) :
    ∀ x nx, x = cur ∨ x = q → (V.pullUp cur).cell x = some nx → m'.node x = some nx := by
  intro x nx hx hnx
  have hself : m'.node q = some (nm.setChild d nz.right) := by rw [hm]; exact update_self ..
  by_cases hxc : x = cur
  · subst hxc
    rw [hspec.pulled] at hnx
    by_cases hqx : q = x
    · -- the successor was the right child of `cur`
      subst hqx
      obtain rfl : nd = nq := Option.some.inj (hnd.symm.trans hnq)
      rw [hcopy] at hnm
      cases hnm
      rw [hself, ← hnx]
      have := retarget_parent (r := nz.right) hV hnd hqs
      cases d <;> simpa [Node.retarget, Node.setChild, Node.ext_iff, eq_comm] using this
    · have hstore : m'.node x = m.node x := by rw [hm]; exact update_of_ne (Ne.symm hqx) _ _
      rw [hstore, hcopy, ← hnx]
      have hchild : ∀ d', nd.child d' ≠ some s := fun d' hd' => hqx (parent_unique hV.nodup hnq hqs hnd hd').1
      have := Node.retarget_of_ne (p := nz.right) hchild
      simpa [Node.retarget, Node.ext_iff, eq_comm] using this
  · obtain rfl : x = q := hx.resolve_left hxc
    rw [hread hxc] at hnm
    cases hnm
    rw [hspec.cell x (mem_of_cell hnq) hxc hne, hnq, Option.map_some, retarget_parent hV hnq hqs] at hnx
    exact hself.trans hnx

/-- The nodes `delete_two_children` has locked. -/
theorem mem_held_d2 {cur q s x : Addr} : x ∈ (if q = cur then [cur, s] else [cur, q, s]) ↔ x = cur ∨ x = q ∨ x = s := by
  split_ifs with hq <;> simp [hq]

/-- `succ` is another node than `cur`. -/
theorem Descent.ne {clear : Addr → Prop} {k : ℤ} {cur q s : Addr} (hV : V.Valid) (h : Descent V clear k cur q s) : cur ≠ s := by
  obtain ⟨nd, M, hnd, -, hM, -⟩ := h
  have := hM.nodup hV.nodup hnd
  simp only [List.nodup_cons, List.mem_append, List.mem_singleton, not_or] at this
  exact this.1.2

/-- `succ` is not its own parent. -/
theorem d2_apart {cur q s : Addr} (h : (if q = cur then [cur, s] else [cur, q, s]).Nodup) : q ≠ s := by
  split_ifs at h with hq
  · subst hq
    simpa using h
  · simp only [List.nodup_cons, List.mem_cons, List.not_mem_nil, or_false, not_or] at h
    exact h.2.1

/-- `succ_parent->right = succ->right`, or `succ_parent->left`. -/
theorem Inv.d2Link_step {cur q s : Addr} {p : Option Addr} {nm : Node} {d : Side} (h : Inv σ V) (σ' : State)
    (ht : σ.thread t = some (c, .d2Link cur q s p))
    (hσ' : σ'.thread = update σ.thread t (some (c, pc')))
    (hpc' : (q = cur ∧ d = .right ∧ pc' = .d2UnlockSucc cur s) ∨
      (q ≠ cur ∧ d = .left ∧ pc' = .d2UnlockParent cur q s))
    (hnm : σ.mem.node q = some nm) (hm : σ'.mem = σ.mem.store q (nm.setChild d p)) :
    ∃ V', Inv σ' V' ∧ ∀ ok, Takes ok c.op V V' .ok := by
  obtain ⟨hop, hnodup, -, -, hD, nd, nz, hnd, hnz, hnil, hcopy, rfl⟩ := h.thr _ _ _ ht
  have hheldx (x : Addr) : x ∈ (Pc.d2Link cur q s nz.right).held ↔ x = cur ∨ x = q ∨ x = s := mem_held_d2
  have hcur := (hheldx cur).mpr (.inl rfl)
  have hq := (hheldx q).mpr (.inr (.inl rfl))
  have hs := (hheldx s).mpr (.inr (.inr rfl))
  have hpar := hD.parent h.valid
  have hcs := hD.ne h.valid
  have hqs' : q ≠ s := d2_apart hnodup
  obtain ⟨nd', M, hnd', hk, hM, hcase⟩ := hD
  obtain rfl : nd = nd' := Option.some.inj (hnd.symm.trans hnd')
  have hclear := h.clear_descent ht hcur hq hs hnd hM hcase
  have hspec := pullUp_spec h.valid hnd hM hnz hnil
  have hqd : Link V q d s := by
    rcases hpc' with ⟨rfl, rfl, -⟩ | ⟨hqc, rfl, -⟩
    · rcases hpar with ⟨-, h⟩ | ⟨h, -⟩
      · exact h
      · exact absurd rfl h
    · rcases hpar with ⟨h, -⟩ | ⟨-, h⟩
      · exact absurd h hqc
      · exact h
  obtain ⟨nq, hnq, hqs⟩ := id hqd
  have hstore : ∀ x ≠ q, σ'.mem.node x = σ.mem.node x := fun x hx => by rw [hm]; exact update_of_ne hx _ _
  have hcell : ∀ x ∈ V.addrs, x ≠ cur → x ≠ s → x ≠ q → (V.pullUp cur).cell x = V.cell x := by
    intro x hx hxc hxs hxq
    rw [hspec.cell x hx hxc hxs, retarget_of_link h.valid hqd hxq]
  have hread (hqc : q ≠ cur) : σ.mem.node q = some nq :=
    h.read ht hq (by simpa [Pc.copying] using Ne.symm hqc) hnq
  have hnew := pulled_stored h.valid hspec hnd hnq hqs hqs' hcopy hread hnm hm
  have hroot : V.root ≠ some s := child_ne_root h.valid.nodup hnq hqs
  have hheld : pc'.held = (Pc.d2Link cur q s nz.right).held := by
    rcases hpc' with ⟨rfl, -, rfl⟩ | ⟨hqc, -, rfl⟩
    · simp [Pc.held]
    · simp [Pc.held, hqc]
  have hpcs : pc'.hasTree = false ∧ pc'.want = none ∧ pc'.own = some s ∧ pc'.fits c.op ∧
      Fact (V.pullUp cur) σ'.mem (Clear σ t) c.op pc' := by
    rcases hpc' with ⟨-, -, rfl⟩ | ⟨-, -, rfl⟩ <;> exact ⟨rfl, rfl, rfl, hop, trivial⟩
  obtain ⟨htree, hwant, hown, hfits, hfact⟩ := hpcs
  refine ⟨V.pullUp cur,
    h.edit_step ht hσ' hspec.valid ?_ (fun _ => hspec.root) ?_ ?_ ?_ ?_ ?_ ?_ ?_ hheld htree hwant ?_ ?_ hfits hfact,
    ?_⟩
  · rw [hm, hspec.root]
    exact h.root
  · rw [hm]
    rfl
  · rw [hm]
    rfl
  · intro x hx
    rw [hheldx] at hx
    exact hstore x fun h => hx (.inr (.inl h))
  · intro x hx hxh
    rw [hheldx] at hxh
    push Not at hxh
    exact hcell x hx hxh.1 hxh.2.2 hxh.2.1
  · intro x nx hx
    by_cases hxcq : x = cur ∨ x = q
    · exact .inl (hnew x nx hxcq hx)
    · push Not at hxcq
      obtain ⟨hxV, hxs⟩ := (hspec.mem x).mp (mem_of_cell hx)
      rw [hcell x hxV hxcq.1 hxs hxcq.2] at hx
      exact .inr ⟨hx, hstore x hxcq.2, by simpa [Pc.copying] using Ne.symm hxcq.1⟩
  · intro u hu cu pcu hpu k x hx hp
    have hno : ∀ y ∈ M ++ [s], x ≠ y := by
      rintro y hy rfl
      exact hclear x hy u hu cu pcu hpu hx
    exact hspec.path k x (fun hxM => hno x (by simp [hxM]) rfl) (hno s (by simp)) hp
  · intro x hx
    exact .inl ((hspec.mem x).mp hx).1
  · intro x hx hxo
    rw [hown] at hxo
    have hxs : x ≠ s := fun h => hxo (by rw [h])
    refine (hspec.mem x).mpr ⟨?_, hxs⟩
    rcases (hheldx x).mp hx with rfl | rfl | rfl
    · exact mem_of_cell hnd
    · exact mem_of_cell hnq
    · exact absurd rfl hxs
  · intro x hx
    obtain rfl : s = x := by simpa [hown] using hx
    have := h.read ht hs (by simpa [Pc.copying] using hcs) hnz
    exact ⟨hs, mem_of_cell hnz, fun h => ((hspec.mem s).mp h).2 rfl, nz, (hstore s (Ne.symm hqs')).trans this⟩
  · intro ok
    apply takes_delete_present hop (hk ▸ mem_toList_of_cell hnd)
    intro q
    rw [hspec.entries, hk]

end SdeSystems.Bst
