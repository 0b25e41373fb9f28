import SdeSystems.Bst.Stable

/-!
# The kinds of steps

What a step must show to keep the invariant (`Inv.assemble`), and, for each kind of
instruction that leaves the tree as it is, how little that comes to: reads, acquires,
releases, `malloc`, `free`, and the two writes of `delete_two_children` to the key and the
value of `cur`.
-/

namespace SdeSystems.Bst

open Function Relation Lib Lib.Tree

/-- **What keeps the invariant**: the thread that moves answers for the memory, the locks
and itself, and guarantees the others what they know. -/
theorem Inv.assemble {σ σ' : State} {V V' : View} {t : Tid} {c : Call} {pc pc' : Pc} (h : Inv σ V)
    (ht : σ.thread t = some (c, pc)) (hσ' : σ'.thread = update σ.thread t (some (c, pc')))
    (hg : Guarantee σ V t pc V' σ'.mem pc') (hvalid : V'.Valid) (hroot : σ'.mem.root = V'.root)
    (hcells : ∀ a nd, V'.cell a = some nd → ∃ nm, σ'.mem.node a = some nm ∧ nm.left = nd.left ∧
      nm.right = nd.right ∧ (nm = nd ∨ pc'.copying = some a ∨
        ∃ u ≠ t, ∃ c pcu, σ.thread u = some (c, pcu) ∧ pcu.copying = some a))
    (hlocks : ∀ a u, σ'.mem.lock a = some u ↔ if u = t then a ∈ pc'.held else σ.mem.lock a = some u)
    (htree : ∀ u, σ'.mem.treeLock = some u ↔ if u = t then pc'.hasTree = true else σ.mem.treeLock = some u)
    (hapart : ∀ a, pc'.own = some a → ∀ u ≠ t, ∀ c pcu, σ.thread u = some (c, pcu) → pcu.own ≠ some a)
    (hlocal : Local V' σ'.mem (Clear σ t) c.op pc') : Inv σ' V' := by
  have hsame : ∀ u ≠ t, σ'.thread u = σ.thread u := fun u hu => by rw [hσ', update_of_ne hu]
  have hself : σ'.thread t = some (c, pc') := by rw [hσ', update_self]
  have hclear : Clear σ' t = Clear σ t := by
    funext x
    refine propext (forall_congr' fun u => forall_congr' ?_)
    intro hu
    rw [hsame u hu]
  refine ⟨hvalid, hroot, ?_, ?_, ?_, ?_, ?_⟩
  · intro a nd ha
    obtain ⟨nm, h₁, h₂, h₃, h₄ | h₄ | ⟨u, hu, cu, pcu, h₄, h₅⟩⟩ := hcells a nd ha
    · exact ⟨nm, h₁, h₂, h₃, .inl h₄⟩
    · exact ⟨nm, h₁, h₂, h₃, .inr ⟨t, c, pc', hself, h₄⟩⟩
    · exact ⟨nm, h₁, h₂, h₃, .inr ⟨u, cu, pcu, (hsame u hu).trans h₄, h₅⟩⟩
  · intro a u
    rw [hlocks]
    split_ifs with hu
    · subst hu
      rw [hself]
      simp
    · rw [hsame u hu]
      exact h.locks a u
  · intro u
    rw [htree]
    split_ifs with hu
    · subst hu
      rw [hself]
      simp
    · rw [hsame u hu]
      exact h.treeLock u
  · intro u v cu cv pcu pcv a hu hv hau hav
    by_cases hut : u = t <;> by_cases hvt : v = t
    · rw [hut, hvt]
    · subst hut
      rw [hself] at hu
      cases hu
      rw [hsame v hvt] at hv
      exact absurd hav (hapart a hau v hvt cv pcv hv)
    · subst hvt
      rw [hself] at hv
      cases hv
      rw [hsame u hut] at hu
      exact absurd hau (hapart a hav u hut cu pcu hu)
    · rw [hsame u hut] at hu
      rw [hsame v hvt] at hv
      exact h.apart u v cu cv pcu pcv a hu hv hau hav
  · intro u cu pcu hu
    by_cases hut : u = t
    · subst hut
      rw [hself] at hu
      cases hu
      rw [hclear]
      exact hlocal
    · rw [hsame u hut] at hu
      exact h.stable ht hut hu hg hσ'

section

variable {σ σ' : State} {V : View} {t : Tid} {c : Call} {pc pc' : Pc}

/-- The locks, where this thread's do not change. -/
theorem Inv.locks_same (h : Inv σ V) (ht : σ.thread t = some (c, pc)) (hheld : ∀ x, x ∈ pc'.held ↔ x ∈ pc.held)
    (a : Addr) (u : Tid) : σ.mem.lock a = some u ↔ if u = t then a ∈ pc'.held else σ.mem.lock a = some u := by
  split_ifs with hu
  · subst hu
    rw [h.locks, hheld, ht]
    simp
  · rfl

theorem Inv.tree_same (h : Inv σ V) (ht : σ.thread t = some (c, pc)) (htree : pc'.hasTree = pc.hasTree)
    (u : Tid) : σ.mem.treeLock = some u ↔ if u = t then pc'.hasTree = true else σ.mem.treeLock = some u := by
  split_ifs with hu
  · subst hu
    rw [h.treeLock, htree, ht]
    simp
  · rfl

/-- The records, where the memory of the nodes does not change. -/
theorem Inv.cells_same (h : Inv σ V) (ht : σ.thread t = some (c, pc)) {m' : Mem}
    (hm : m'.node = σ.mem.node) (hcopy : pc'.copying = pc.copying) (a : Addr) (nd : Node)
    (ha : V.cell a = some nd) : ∃ nm, m'.node a = some nm ∧ nm.left = nd.left ∧ nm.right = nd.right ∧
    (nm = nd ∨ pc'.copying = some a ∨
      ∃ u ≠ t, ∃ c pcu, σ.thread u = some (c, pcu) ∧ pcu.copying = some a) := by
  obtain ⟨nm, h₁, h₂, h₃, h₄⟩ := h.cells a nd ha
  refine ⟨nm, hm ▸ h₁, h₂, h₃, ?_⟩
  rcases h₄ with h₄ | ⟨u, cu, pcu, hu, h₄⟩
  · exact .inl h₄
  · by_cases hut : u = t
    · subst hut
      rw [ht] at hu
      cases hu
      exact .inr (.inl (hcopy.trans h₄))
    · exact .inr (.inr ⟨u, hut, cu, pcu, hu, h₄⟩)

/-- The guarantee, where the tree does not change. -/
theorem Guarantee.of_same {m' : Mem}
    (hnode : ∀ x nd, σ.mem.node x = some nd → x ∉ pc.held → pc.own ≠ some x → m'.node x = some nd)
    (hlocals : ∀ x ∈ pc'.locals, x ∈ pc.locals ∨ (∃ p ∈ pc.held, ∃ d, Link V p d x) ∨
      (pc.hasTree = true ∧ V.root = some x) ∨ σ.mem.node x = none) : Guarantee σ V t pc V m' pc' :=
  ⟨fun _ _ _ => rfl, hnode, fun _ => rfl, fun _ _ _ _ _ _ _ _ h => h, fun _ h => .inl h, hlocals⟩

/-- A step that only reads keeps the invariant when what it has learnt is true. -/
theorem Inv.read_step (h : Inv σ V) (ht : σ.thread t = some (c, pc))
    (hσ' : σ'.thread = update σ.thread t (some (c, pc'))) (hm : σ'.mem = σ.mem) (hheld : pc'.held = pc.held)
    (htree : pc'.hasTree = pc.hasTree) (hown : pc'.own = pc.own) (hcopy : pc'.copying = pc.copying)
    (hfits : pc'.fits c.op) (hfact : Fact V σ.mem (Clear σ t) c.op pc') : Inv σ' V := by
  have hl := h.thr t c pc ht
  refine h.assemble ht hσ' (.of_same (fun x nd hx _ _ => hm ▸ hx) ?_) h.valid (hm ▸ h.root)
    (h.cells_same ht (by rw [hm]) hcopy) ?_ ?_ ?_
    ⟨hfits, hheld ▸ hl.nodup, fun x hx hx' => hl.scope x (hheld ▸ hx) (hown ▸ hx'), ?_, ?_⟩
  · intro x hx
    rcases Pc.mem_locals.mp hx with hx | hx | hx
    · exact .inl (Pc.mem_locals.mpr (.inl (hheld ▸ hx)))
    · rcases hfact.want_linked hx with h' | h'
      · exact .inr (.inl (hheld ▸ h'))
      · exact .inr (.inr (.inl ⟨htree ▸ h'.1, h'.2⟩))
    · exact .inl (Pc.mem_locals.mpr (.inr (.inr (hown ▸ hx))))
  · intro a u
    rw [hm]
    exact h.locks_same ht (fun x => by rw [hheld]) a u
  · intro u
    rw [hm]
    exact h.tree_same ht htree u
  · intro a ha u hu cu pcu hpu hau
    exact hu (h.apart u t cu c pcu pc a hpu ht hau (hown ▸ ha))
  · intro a ha
    rw [hm]
    exact hl.own a (hown ▸ ha)
  · rw [hm]
    exact hfact

/-- `NODE_LOCK` of the pointer the thread has read. -/
theorem Inv.lock_step (h : Inv σ V) (ht : σ.thread t = some (c, pc))
    (hσ' : σ'.thread = update σ.thread t (some (c, pc'))) {a : Addr} {n : Addr → ℕ}
    (hm : σ'.mem = { σ.mem with lock := update σ.mem.lock a (some t), lockCount := n })
    (hfree : σ.mem.lock a = none) (hwant : pc.want = some a) (hwant' : pc'.want = none)
    (hheld : pc'.held.Perm (a :: pc.held)) (htree : pc'.hasTree = pc.hasTree) (hown : pc.own = none)
    (hown' : pc'.own = none) (hcopy : pc'.copying = pc.copying) (hfits : pc'.fits c.op)
    (hfact : pc'.held.Nodup → Fact V σ.mem (Clear σ t) c.op pc') : Inv σ' V := by
  have hl := h.thr t c pc ht
  have hnode : σ'.mem.node = σ.mem.node := by rw [hm]
  have ha : a ∉ pc.held := by
    intro ha
    have := (h.locks a t).mpr ⟨c, pc, ht, ha⟩
    simp [hfree] at this
  have hnodup : pc'.held.Nodup := hheld.nodup_iff.mpr (List.nodup_cons.mpr ⟨ha, hl.nodup⟩)
  have hmem : ∀ x, x ∈ pc'.held ↔ x = a ∨ x ∈ pc.held := fun x => by rw [hheld.mem_iff, List.mem_cons]
  have hal : a ∈ pc.locals := Pc.mem_locals.mpr (.inr (.inl hwant))
  refine h.assemble ht hσ' (.of_same (fun x nd hx _ _ => hnode ▸ hx) ?_) h.valid (by rw [hm]; exact h.root)
    (h.cells_same ht hnode hcopy) ?_ ?_ (fun a ha => by simp [hown'] at ha)
    ⟨hfits, hnodup, ?_, fun a ha => by simp [hown'] at ha, ?_⟩
  · intro x hx
    rcases Pc.mem_locals.mp hx with hx | hx | hx
    · rcases (hmem x).mp hx with rfl | hx
      · exact .inl hal
      · exact .inl (Pc.mem_locals.mpr (.inl hx))
    · simp [hwant'] at hx
    · simp [hown'] at hx
  · intro x u
    rw [hm]
    by_cases hxa : x = a
    · subst hxa
      simp only [update_self, Option.some.injEq, hmem]
      by_cases hu : u = t
      · simp [hu]
      · simp [hu, Ne.symm hu, hfree]
    · simp only [update_of_ne hxa, hmem, hxa, false_or]
      split_ifs with hu
      · subst hu
        rw [h.locks, ht]
        simp
      · rfl
  · intro u
    rw [hm]
    exact h.tree_same ht htree u
  · intro x hx _
    rcases (hmem x).mp hx with rfl | hx
    · exact h.local_mem ht hal (by simp [hown])
    · exact hl.scope x hx (by simp [hown])
  · refine (hfact hnodup).stable (fun _ _ _ => rfl) (fun _ _ _ h => h) (fun _ => rfl)
      (fun x nd _ hx => hnode ▸ hx) fun _ _ _ _ _ h => h

/-- `NODE_UNLOCK`. -/
theorem Inv.unlock_step (h : Inv σ V) (ht : σ.thread t = some (c, pc))
    (hσ' : σ'.thread = update σ.thread t (some (c, pc'))) {a : Addr}
    (hm : σ'.mem = { σ.mem with lock := update σ.mem.lock a none })
    (hwant : ∀ x, pc'.want = some x → pc.want = some x) (hheld : pc.held.Perm (a :: pc'.held))
    (htree : pc'.hasTree = pc.hasTree) (hown : pc'.own = pc.own) (hcopy : pc'.copying = pc.copying)
    (hfits : pc'.fits c.op) (hfact : Fact V σ.mem (Clear σ t) c.op pc') : Inv σ' V := by
  have hl := h.thr t c pc ht
  have hnode : σ'.mem.node = σ.mem.node := by rw [hm]
  have hnodup : (a :: pc'.held).Nodup := hheld.nodup_iff.mp hl.nodup
  have hmem : ∀ x, x ∈ pc.held ↔ x = a ∨ x ∈ pc'.held := fun x => by rw [hheld.mem_iff, List.mem_cons]
  refine h.assemble ht hσ' (.of_same (fun x nd hx _ _ => hnode ▸ hx) ?_) h.valid (by rw [hm]; exact h.root)
    (h.cells_same ht hnode hcopy) ?_ ?_ ?_
    ⟨hfits, (List.nodup_cons.mp hnodup).2, fun x hx hx' => hl.scope x ((hmem x).mpr (.inr hx)) (hown ▸ hx'),
      ?_, ?_⟩
  · intro x hx
    rcases Pc.mem_locals.mp hx with hx | hx | hx
    · exact .inl (Pc.mem_locals.mpr (.inl ((hmem x).mpr (.inr hx))))
    · exact .inl (Pc.mem_locals.mpr (.inr (.inl (hwant x hx))))
    · exact .inl (Pc.mem_locals.mpr (.inr (.inr (hown ▸ hx))))
  · intro x u
    have hat : ∀ x, x ∈ pc.held → σ.mem.lock x = some t := fun x hx => (h.locks x t).mpr ⟨c, pc, ht, hx⟩
    rw [hm]
    by_cases hxa : x = a
    · subst hxa
      have hxt := hat x ((hmem x).mpr (.inl rfl))
      by_cases hu : u = t
      · simp [hu, (List.nodup_cons.mp hnodup).1]
      · simp [hu, hxt, Ne.symm hu]
    · simp only [update_of_ne hxa]
      split_ifs with hu
      · subst hu
        rw [h.locks, ht]
        simp [hmem, hxa]
      · rfl
  · intro u
    rw [hm]
    exact h.tree_same ht htree u
  · intro a ha u hu cu pcu hpu hau
    exact hu (h.apart u t cu c pcu pc a hpu ht hau (hown ▸ ha))
  · intro a ha
    rw [hnode]
    exact hl.own a (hown ▸ ha)
  · exact hfact.stable (fun _ _ _ => rfl) (fun _ _ _ h => h) (fun _ => rfl)
      (fun x nd _ hx => hnode ▸ hx) fun _ _ _ _ _ h => h

/-- An acquire or a release of `tree->lock`. -/
theorem Inv.treeLock_step (h : Inv σ V) (ht : σ.thread t = some (c, pc))
    (hσ' : σ'.thread = update σ.thread t (some (c, pc'))) {o : Option Tid}
    (hm : σ'.mem = { σ.mem with treeLock := o })
    (htree : ∀ u, o = some u ↔ if u = t then pc'.hasTree = true else σ.mem.treeLock = some u)
    (hwant : pc'.want = none) (hheld : pc'.held = pc.held) (hown : pc'.own = pc.own)
    (hcopy : pc'.copying = pc.copying) (hfits : pc'.fits c.op)
    (hfact : Fact V σ.mem (Clear σ t) c.op pc') : Inv σ' V := by
  have hl := h.thr t c pc ht
  have hnode : σ'.mem.node = σ.mem.node := by rw [hm]
  refine h.assemble ht hσ' (.of_same (fun x nd hx _ _ => hnode ▸ hx) ?_) h.valid (by rw [hm]; exact h.root)
    (h.cells_same ht hnode hcopy) ?_ (fun u => by rw [hm]; exact htree u)
    ?_
    ⟨hfits, hheld ▸ hl.nodup, fun x hx hx' => hl.scope x (hheld ▸ hx) (hown ▸ hx'), ?_, ?_⟩
  · intro x hx
    rcases Pc.mem_locals.mp hx with hx | hx | hx
    · exact .inl (Pc.mem_locals.mpr (.inl (hheld ▸ hx)))
    · simp [hwant] at hx
    · exact .inl (Pc.mem_locals.mpr (.inr (.inr (hown ▸ hx))))
  · intro a u
    rw [hm]
    exact h.locks_same ht (fun x => by rw [hheld]) a u
  · intro a ha u hu cu pcu hpu hau
    exact hu (h.apart u t cu c pcu pc a hpu ht hau (hown ▸ ha))
  · intro a ha
    rw [hnode]
    exact hl.own a (hown ▸ ha)
  · exact hfact.stable (fun _ _ _ => rfl) (fun _ _ _ h => h) (fun _ => rfl)
      (fun x nd _ hx => hnode ▸ hx) fun _ _ _ _ _ h => h

/-- A `malloc` that returns a node. -/
theorem Inv.create_step (h : Inv σ V) (ht : σ.thread t = some (c, pc))
    (hσ' : σ'.thread = update σ.thread t (some (c, pc'))) {a : Addr} {nd : Node} {n : Addr → ℕ}
    (hm : σ'.mem = { σ.mem with node := update σ.mem.node a (some nd), lock := update σ.mem.lock a none,
                                lockCount := n })
    (hfree : σ.mem.node a = none) (hwant : pc'.want = none) (hheld : pc'.held = pc.held)
    (htree : pc'.hasTree = pc.hasTree) (hown : pc.own = none) (hown' : pc'.own = some a)
    (hcopy : pc'.copying = pc.copying) (hfits : pc'.fits c.op)
    (hfact : Fact V σ'.mem (Clear σ t) c.op pc') : Inv σ' V := by
  have hl := h.thr t c pc ht
  have hnode : ∀ x nd', σ.mem.node x = some nd' → σ'.mem.node x = some nd' := by
    intro x nd' hx
    have hxa : x ≠ a := by rintro rfl; simp [hfree] at hx
    rw [hm]
    exact (update_of_ne hxa _ _).trans hx
  have haV : a ∉ V.addrs := by
    intro ha
    obtain ⟨nd', hnd'⟩ := cell_of_mem ha
    obtain ⟨nm, hnm, -⟩ := h.cells a nd' hnd'
    simp [hfree] at hnm
  have hno : ∀ u cu pcu, σ.thread u = some (cu, pcu) → a ∉ pcu.held ∧ pcu.own ≠ some a := by
    intro u cu pcu hu
    have hlu := h.thr u cu pcu hu
    have hao : pcu.own ≠ some a := by
      intro hao
      obtain ⟨-, nd', hnd'⟩ := hlu.own a hao
      simp [hfree] at hnd'
    exact ⟨fun hah => haV (hlu.scope a hah hao), hao⟩
  refine h.assemble ht hσ' (.of_same (fun x nd hx _ _ => hnode x nd hx) ?_) h.valid
    (by rw [hm]; exact h.root) ?_ ?_ ?_
    ?_
    ⟨hfits, hheld ▸ hl.nodup, fun x hx _ => hl.scope x (hheld ▸ hx) (by simp [hown]), ?_, hfact⟩
  · intro x hx
    rcases Pc.mem_locals.mp hx with hx | hx | hx
    · exact .inl (Pc.mem_locals.mpr (.inl (hheld ▸ hx)))
    · simp [hwant] at hx
    · obtain rfl : a = x := by simpa [hown'] using hx
      exact .inr (.inr (.inr hfree))
  · intro x nd' hx
    obtain ⟨nm, h₁, h₂, h₃, h₄⟩ := h.cells_same ht (rfl : σ.mem.node = σ.mem.node) hcopy x nd' hx
    exact ⟨nm, hnode x nm h₁, h₂, h₃, h₄⟩
  · intro x u
    rw [hm]
    by_cases hxa : x = a
    · subst hxa
      have hnone : σ.mem.lock x ≠ some u := by
        intro hx
        obtain ⟨cu, pcu, hu, hxu⟩ := (h.locks x u).mp hx
        exact (hno u cu pcu hu).1 hxu
      split_ifs with hu
      · simp [hheld, (hno t c pc ht).1]
      · simp [hnone]
    · simp only [update_of_ne hxa]
      exact h.locks_same ht (fun y => by rw [hheld]) x u
  · intro u
    rw [hm]
    exact h.tree_same ht htree u
  · intro x hx u hu cu pcu hpu
    obtain rfl : a = x := by simpa [hown'] using hx
    exact (hno u cu pcu hpu).2
  · intro x hx
    obtain rfl : a = x := by simpa [hown'] using hx
    exact ⟨haV, nd, by rw [hm]; exact update_self ..⟩

/-- `bst_node_free` of the thread's own node. -/
theorem Inv.free_step (h : Inv σ V) (ht : σ.thread t = some (c, pc))
    (hσ' : σ'.thread = update σ.thread t (some (c, pc'))) {a : Addr}
    (hm : σ'.mem = { σ.mem with node := update σ.mem.node a none })
    (hwant : pc'.want = none) (hheld : pc'.held = pc.held) (hah : a ∉ pc.held)
    (htree : pc'.hasTree = pc.hasTree) (hown : pc.own = some a) (hown' : pc'.own = none)
    (hcopy : pc'.copying = pc.copying) (hfits : pc'.fits c.op)
    (hfact : Fact V σ'.mem (Clear σ t) c.op pc') : Inv σ' V := by
  have hl := h.thr t c pc ht
  have haV : a ∉ V.addrs := (hl.own a hown).1
  have hnode : ∀ x ≠ a, σ'.mem.node x = σ.mem.node x := fun x hx => by rw [hm]; exact update_of_ne hx _ _
  refine h.assemble ht hσ' (.of_same ?_ ?_) h.valid
    (by rw [hm]; exact h.root) ?_ ?_ ?_
    (fun x hx => by simp [hown'] at hx)
    ⟨hfits, hheld ▸ hl.nodup, fun x hx _ => hl.scope x (hheld ▸ hx) ?_, fun x hx => by simp [hown'] at hx, hfact⟩
  · intro x nd hx _ hxo
    rw [hnode x (by rintro rfl; exact hxo hown), hx]
  · intro x hx
    rcases Pc.mem_locals.mp hx with hx | hx | hx
    · exact .inl (Pc.mem_locals.mpr (.inl (hheld ▸ hx)))
    · simp [hwant] at hx
    · simp [hown'] at hx
  · intro x nd' hx
    obtain ⟨nm, h₁, h₂, h₃, h₄⟩ := h.cells_same ht (rfl : σ.mem.node = σ.mem.node) hcopy x nd' hx
    have hxa : x ≠ a := by rintro rfl; exact haV (mem_of_cell hx)
    exact ⟨nm, (hnode x hxa).trans h₁, h₂, h₃, h₄⟩
  · intro x u
    rw [hm]
    exact h.locks_same ht (fun y => by rw [hheld]) x u
  · intro u
    rw [hm]
    exact h.tree_same ht htree u
  · rintro hxo
    obtain rfl : a = x := Option.some.inj (hown.symm.trans hxo)
    exact hah (hheld ▸ hx)

/-- A write to the key or the value of the node that is being copied into. -/
theorem Inv.copy_step (h : Inv σ V) (ht : σ.thread t = some (c, pc))
    (hσ' : σ'.thread = update σ.thread t (some (c, pc'))) {a : Addr} {nm nm' : Node}
    (hm : σ'.mem = σ.mem.store a nm') (hnm : σ.mem.node a = some nm) (hleft : nm'.left = nm.left)
    (hright : nm'.right = nm.right) (hah : a ∈ pc.held) (hwant : pc'.want = none) (hheld : pc'.held = pc.held)
    (htree : pc'.hasTree = pc.hasTree) (hown : pc.own = none) (hown' : pc'.own = none)
    (hcopy : ∀ x, pc.copying = some x → x = a) (hcopy' : pc'.copying = some a) (hfits : pc'.fits c.op)
    (hfact : Fact V σ'.mem (Clear σ t) c.op pc') : Inv σ' V := by
  have hl := h.thr t c pc ht
  have hnode : ∀ x ≠ a, σ'.mem.node x = σ.mem.node x := fun x hx => by rw [hm]; exact update_of_ne hx _ _
  have hnodea : σ'.mem.node a = some nm' := by rw [hm]; exact update_self ..
  refine h.assemble ht hσ' (.of_same ?_ ?_) h.valid
    (by rw [hm]; exact h.root) ?_ ?_ ?_
    (fun x hx => by simp [hown'] at hx)
    ⟨hfits, hheld ▸ hl.nodup, fun x hx _ => hl.scope x (hheld ▸ hx) (by simp [hown]),
      fun x hx => by simp [hown'] at hx, hfact⟩
  · intro x nd hx hxh _
    rw [hnode x (by rintro rfl; exact hxh hah), hx]
  · intro x hx
    rcases Pc.mem_locals.mp hx with hx | hx | hx
    · exact .inl (Pc.mem_locals.mpr (.inl (hheld ▸ hx)))
    · simp [hwant] at hx
    · simp [hown'] at hx
  · intro x nd' hx
    obtain ⟨nx, h₁, h₂, h₃, h₄⟩ := h.cells x nd' hx
    by_cases hxa : x = a
    · subst hxa
      rw [hnm] at h₁
      cases h₁
      exact ⟨nm', hnodea, hleft.trans h₂, hright.trans h₃, .inr (.inl hcopy')⟩
    · refine ⟨nx, (hnode x hxa).trans h₁, h₂, h₃, ?_⟩
      rcases h₄ with h₄ | ⟨u, cu, pcu, hu, h₄⟩
      · exact .inl h₄
      · by_cases hut : u = t
        · subst hut
          rw [ht] at hu
          cases hu
          exact absurd (hcopy x h₄) hxa
        · exact .inr (.inr ⟨u, hut, cu, pcu, hu, h₄⟩)
  · intro x u
    rw [hm]
    exact h.locks_same ht (fun y => by rw [hheld]) x u
  · intro u
    rw [hm]
    exact h.tree_same ht htree u

end

end SdeSystems.Bst
