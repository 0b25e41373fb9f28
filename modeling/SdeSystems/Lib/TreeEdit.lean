import SdeSystems.Lib.SearchTree
import Mathlib.Tactic.Tauto

/-!
# The three edits of a binary search tree

Hanging a new node under a node that has no child on that side (`attach`), taking out a
node that has at most one child (`splice`), and taking out the entry of a node with two
children by pulling the entry of its in-order successor up into it (`pullUp`). Each has
one theorem that says all it does: to the addresses, the records, the root pointer, the
search paths and the entries.
-/

namespace SdeSystems.Lib.Tree

variable {A K V : Type*} [DecidableEq A] [LinearOrder K]

/-- A search tree in memory: no address twice, and the keys in order. -/
structure Valid (t : Tree A K V) : Prop where
  /-- No address twice. -/
  nodup : t.addrs.Nodup
  /-- The keys in order. -/
  ordered : t.Ordered

omit [DecidableEq A] in
theorem valid_leaf : Valid (leaf : Tree A K V) := ⟨by simp, by simp [Ordered]⟩

omit [DecidableEq A] in
/-- The entries, in order, are settled by which they are. -/
theorem Valid.toList_eq {t t' : Tree A K V} (h : t.Valid) (h' : t'.Valid)
    (hmem : ∀ q, q ∈ t'.toList ↔ q ∈ t.toList) : t'.toList = t.toList := by
  have hnd : ∀ {u : Tree A K V}, u.Valid → u.toList.Nodup := by
    intro u hu
    refine hu.ordered.imp fun {p q} hlt => ?_
    rintro rfl
    exact lt_irrefl _ hlt
  have hperm := (List.perm_ext_iff_of_nodup (hnd h') (hnd h)).mpr hmem
  exact List.Perm.eq_of_pairwise (fun p q _ _ hpq hqp => absurd hpq (lt_asymm hqp)) h'.ordered h.ordered hperm

theorem ordered_sub {t s : Tree A K V} {a : A} (hn : t.addrs.Nodup) (ho : t.Ordered)
    (h : t.sub a = some s) : s.Ordered := by
  obtain ⟨_, _, pL, qL, -, h₂, -⟩ := replace_split hn h
  rw [Ordered, h₂, List.append_assoc, List.pairwise_append] at ho
  exact (List.pairwise_append.mp ho.2.1).1

theorem Valid.sub {t s : Tree A K V} {a : A} (ht : t.Valid) (h : t.sub a = some s) : s.Valid :=
  ⟨sub_nodup ht.nodup h, ordered_sub ht.nodup ht.ordered h⟩

/-! ### Attach -/

/-- The tree with `u` for the child of `c` on side `d`. -/
def attach (t : Tree A K V) (c : A) (d : Side) (u : Tree A K V) : Tree A K V :=
  match t.sub c, d with
  | some (node b k v _ r), .left => t.replace c (node b k v u r)
  | some (node b k v l _), .right => t.replace c (node b k v l u)
  | _, _ => t

/-- What hanging a new node under a free pointer does. -/
structure AttachSpec (t t' : Tree A K V) (c : A) (d : Side) (a : A) (k : K) (v : V)
    (nd : Node A K V) : Prop where
  /-- It is a search tree. -/
  valid : t'.Valid
  /-- One more address. -/
  mem : ∀ x, x ∈ t'.addrs ↔ x = a ∨ x ∈ t.addrs
  /-- The same root. -/
  root : t'.root = t.root
  /-- The new node. -/
  new : t'.cell a = some ⟨k, v, none, none⟩
  /-- The pointer to it. -/
  link : t'.cell c = some (nd.setChild d (some a))
  /-- The other records stay. -/
  frame : ∀ x ∈ t.addrs, x ≠ c → t'.cell x = t.cell x
  /-- The paths stay. -/
  path : ∀ k x, OnPath k t x → OnPath k t' x
  /-- One more entry. -/
  entries : ∀ p, p ∈ t'.toList ↔ p = (k, v) ∨ p ∈ t.toList

/-- What it takes of the subtree that comes in. -/
theorem attachSpec_replace {t s T : Tree A K V} (ht : t.Valid) {c a : A} {d : Side} {k : K} {v : V}
    {nd : Node A K V} (hs : t.sub c = some s) (ha : a ∉ t.addrs) (hT : T.Valid) (hroot : T.root = some c)
    (hmem : ∀ x, x ∈ T.addrs ↔ x = a ∨ x ∈ s.addrs) (hnew : T.cell a = some ⟨k, v, none, none⟩)
    (hlink : T.cell c = some (nd.setChild d (some a)))
    (hframe : ∀ x ∈ s.addrs, x ≠ c → T.cell x = s.cell x) (hpath : ∀ k x, OnPath k s x → OnPath k T x)
    (hent : ∀ p, p ∈ T.toList ↔ p = (k, v) ∨ p ∈ s.toList) (hk : OnPath k t c) :
    AttachSpec t (t.replace c T) c d a k v nd := by
  obtain ⟨hn, ho⟩ := ht
  have hsub := sub_addrs hn hs
  have hin : ∀ x ∈ T.addrs, x ∈ t.addrs → x ∈ s.addrs := fun x hx hxt =>
    ((hmem x).mp hx).resolve_left (by rintro rfl; exact ha hxt)
  have hcs : c ∈ s.addrs := root_mem (sub_root hs)
  have hcT : c ∈ T.addrs := (hmem c).mpr (.inr hcs)
  have haT : a ∈ T.addrs := (hmem a).mpr (.inl rfl)
  refine ⟨⟨nodup_replace hn hs hT.nodup hin, ordered_replace hn ho hs hT.ordered ?_⟩, ?_, ?_, ?_, ?_, ?_, ?_, ?_⟩
  · intro p hp
    rcases (hent p).mp hp with rfl | hp
    · exact hk
    · exact onPath_of_mem_sub hn ho hs hp
  · intro x
    rw [mem_replace hn hs, hmem]
    constructor
    · rintro (⟨hx, -⟩ | rfl | hx)
      · exact .inr hx
      · exact .inl rfl
      · exact .inr (hsub x hx)
    · rintro (rfl | hx)
      · exact .inr (.inl rfl)
      · by_cases hxs : x ∈ s.addrs
        · exact .inr (.inr hxs)
        · exact .inl ⟨hx, hxs⟩
  · rw [root_replace]
    split_ifs with h
    · rw [h, hroot]
    · rfl
  · rw [cell_replace_of_mem hn hs haT (hin a haT), hnew]
  · rw [cell_replace_of_mem hn hs hcT (hin c hcT), hlink]
  · intro x hx hxc
    by_cases hxs : x ∈ s.addrs
    · have hxT : x ∈ T.addrs := (hmem x).mpr (.inr hxs)
      rw [cell_replace_of_mem hn hs hxT (hin x hxT), hframe x hxs hxc]
      simp only [cell, sub_sub hn hs hxs]
    · have hxT : x ∉ T.addrs := fun h => hxs (hin x h hx)
      rw [cell_replace_of_notMem hn hs hx hxs hxT, hroot]
      cases t.cell x <;> simp [Node.retarget_self]
  · intro k' x hp
    by_cases hxs : x ∈ s.addrs
    · obtain ⟨h₁, h₂⟩ := hp.of_sub hn hs hxs
      exact h₁.replace hn (hpath k' x h₂)
    · exact hp.replace_of_notMem hn hs hxs
  · intro p
    obtain ⟨pL, qL, h₁, h₂, -⟩ := replace_split_path hn ho hs
    simp only [h₁, h₂ T, List.mem_append, hent]
    tauto

theorem attach_spec {t : Tree A K V} (ht : t.Valid) {c a : A} {k : K} {v : V} {nd : Node A K V}
    (hp : OnPath k t c) (hc : t.cell c = some nd) (hk : k ≠ nd.key) (hnil : nd.child (dir k nd.key) = none)
    (ha : a ∉ t.addrs) :
    AttachSpec t (t.attach c (dir k nd.key) (node a k v leaf leaf)) c (dir k nd.key) a k v nd := by
  obtain ⟨l, r, hs, hl, hr⟩ := cell_eq_some hc
  obtain ⟨hsn, hso⟩ := ht.sub hs
  obtain ⟨hnl, hnr, hcl, hcr, hlr⟩ := nodup_node hsn
  obtain ⟨hol, hor, hkl, hkr⟩ := ordered_node.mp hso
  have hca : c ≠ a := by rintro rfl; exact ha (mem_of_cell hc)
  have has : a ∉ (node c nd.key nd.value l r).addrs := fun h => ha (sub_addrs ht.nodup hs a h)
  simp only [addrs_node, List.mem_append, List.mem_cons, not_or] at has
  unfold dir at hnil ⊢
  split_ifs at hnil ⊢ with hlt
  · have hl0 : l = leaf := root_eq_none.mp (hl.symm.trans hnil)
    subst hl0
    have hT : Valid (node c nd.key nd.value (node a k v leaf leaf) r) := by
      refine ⟨?_, ordered_node.mpr ⟨by simp [Ordered], hor, by simpa using hlt, hkr⟩⟩
      simp only [addrs_node, addrs_leaf, List.nil_append, List.singleton_append, List.nodup_cons,
        List.mem_cons, not_or]
      exact ⟨⟨Ne.symm hca, has.2.2⟩, hcr, hnr⟩
    simp only [attach, hs]
    refine attachSpec_replace ht hs ha hT rfl (fun x => by simp) ?_ ?_ ?_ ?_ (fun p => by simp) hp
    · simp [cell_node, hca]
    · simp [cell_node, Node.setChild, hr]
    · intro x hx hxc
      have hxa : a ≠ x := by
        rintro rfl
        exact ha (sub_addrs ht.nodup hs _ hx)
      simp [cell_node, Ne.symm hxc, hxa]
    · intro k' x h
      rcases h with rfl | ⟨-, h⟩ | ⟨h, h'⟩
      · exact .inl rfl
      · exact h.elim
      · exact .inr (.inr ⟨h, h'⟩)
  · have hr0 : r = leaf := root_eq_none.mp (hr.symm.trans hnil)
    subst hr0
    have hgt : nd.key < k := lt_of_le_of_ne (not_lt.mp hlt) (Ne.symm hk)
    have hT : Valid (node c nd.key nd.value l (node a k v leaf leaf)) := by
      refine ⟨?_, ordered_node.mpr ⟨hol, by simp [Ordered], hkl, by simpa using hgt⟩⟩
      simp only [addrs_node, addrs_leaf, List.nil_append, List.nodup_append, List.nodup_cons, List.mem_cons,
        List.not_mem_nil, or_false, not_false_eq_true, List.nodup_nil, and_true]
      refine ⟨hnl, hca, ?_⟩
      rintro x hx y (rfl | rfl) rfl
      · exact hcl hx
      · exact has.1 hx
    simp only [attach, hs]
    refine attachSpec_replace ht hs ha hT rfl (fun x => by simp; tauto) ?_ ?_ ?_ ?_ (fun p => by simp; tauto) hp
    · simp [cell_node, hca, cell_eq_none has.1]
    · simp [cell_node, Node.setChild, hl]
    · intro x hx hxc
      have hxa : a ≠ x := by
        rintro rfl
        exact ha (sub_addrs ht.nodup hs _ hx)
      simp [cell_node, Ne.symm hxc, hxa]
    · intro k' x h
      rcases h with rfl | ⟨h, h'⟩ | ⟨-, h⟩
      · exact .inl rfl
      · exact .inr (.inl ⟨h, h'⟩)
      · exact h.elim

/-! ### Splice -/

/-- The tree without a node that has at most one child. -/
def splice (t : Tree A K V) (c : A) : Tree A K V :=
  match t.sub c with
  | some (node _ _ _ leaf r) => t.replace c r
  | some (node _ _ _ l leaf) => t.replace c l
  | _ => t

/-- What taking a node out does: `t'` has neither the node `c` nor the entry of key `k`,
and the pointers to `c` are `p`. -/
structure SpliceSpec (t t' : Tree A K V) (c : A) (k : K) (p : Option A) : Prop where
  /-- It is a search tree. -/
  valid : t'.Valid
  /-- One address less. -/
  mem : ∀ x, x ∈ t'.addrs ↔ x ∈ t.addrs ∧ x ≠ c
  /-- The root, unless it is the node. -/
  root : t'.root = if t.root = some c then p else t.root
  /-- The records show only that the pointers to the node went on. -/
  cell : ∀ x ∈ t.addrs, x ≠ c → t'.cell x = (t.cell x).map (·.retarget c p)
  /-- The paths to the other nodes stay. -/
  path : ∀ k x, x ≠ c → OnPath k t x → OnPath k t' x
  /-- One entry less. -/
  entries : ∀ q, q ∈ t'.toList ↔ q ∈ t.toList ∧ q.1 ≠ k

section

variable {t s u : Tree A K V} {c z : A} {k : K} {v : V}

/-- A subtree that is a search tree on nodes and entries of the old one. -/
theorem Valid.replace (ht : t.Valid) (hs : t.sub c = some s) (hu : u.Valid) (hmem : ∀ x ∈ u.addrs, x ∈ s.addrs)
    (hent : ∀ q ∈ u.toList, q ∈ s.toList) : (t.replace c u).Valid :=
  ⟨nodup_replace ht.nodup hs hu.nodup fun x hx _ => hmem x hx,
    ordered_replace ht.nodup ht.ordered hs hu.ordered fun q hq => onPath_of_mem_sub ht.nodup ht.ordered hs (hent q hq)⟩

omit [LinearOrder K] in
/-- A subtree with one address less. -/
theorem mem_replace_less (hn : t.addrs.Nodup) (hs : t.sub c = some s) (hz : z ∈ s.addrs)
    (hmem : ∀ x, x ∈ u.addrs ↔ x ∈ s.addrs ∧ x ≠ z) (x : A) : x ∈ (t.replace c u).addrs ↔ x ∈ t.addrs ∧ x ≠ z := by
  rw [mem_replace hn hs, hmem]
  constructor
  · rintro (⟨hx, hxs⟩ | ⟨hxs, hxz⟩)
    · exact ⟨hx, by rintro rfl; exact hxs hz⟩
    · exact ⟨sub_addrs hn hs x hxs, hxz⟩
  · rintro ⟨hx, hxz⟩
    by_cases hxs : x ∈ s.addrs
    · exact .inr ⟨hxs, hxz⟩
    · exact .inl ⟨hx, hxs⟩

/-- A subtree with one entry less: the keys around it differ from that of the entry, whose search leads into it. -/
theorem entries_replace_less (ht : t.Valid) (hs : t.sub c = some s) (hk : (k, v) ∈ s.toList)
    (hent : ∀ q, q ∈ u.toList ↔ q ∈ s.toList ∧ q.1 ≠ k) (q : K × V) :
    q ∈ (t.replace c u).toList ↔ q ∈ t.toList ∧ q.1 ≠ k := by
  obtain ⟨hn, ho⟩ := ht
  obtain ⟨pL, qL, h₁, h₂, h₃⟩ := replace_split_path hn ho hs
  obtain ⟨hlo, hhi⟩ := h₃ k (onPath_of_mem_sub hn ho hs hk)
  simp only [h₁, h₂ u, List.mem_append, hent]
  constructor
  · rintro ((h | h) | h)
    · exact ⟨.inl (.inl h), ne_of_lt (hlo q h)⟩
    · exact ⟨.inl (.inr h.1), h.2⟩
    · exact ⟨.inr h, ne_of_gt (hhi q h)⟩
  · rintro ⟨(h | h) | h, hq⟩
    · exact .inl (.inl h)
    · exact .inl (.inr ⟨h, hq⟩)
    · exact .inr h

end

/-- What it takes of the subtree `u` that moves up. -/
theorem spliceSpec_replace {t s u : Tree A K V} (ht : t.Valid) {c : A} {k : K} (hs : t.sub c = some s)
    (hu : u.Valid) (hmem : ∀ x, x ∈ u.addrs ↔ x ∈ s.addrs ∧ x ≠ c)
    (hcell : ∀ x ∈ u.addrs, u.cell x = s.cell x) (hpath : ∀ k x, x ≠ c → OnPath k s x → OnPath k u x)
    (hent : ∀ q, q ∈ u.toList ↔ q ∈ s.toList ∧ q.1 ≠ k) (hk : ∃ v, (k, v) ∈ s.toList) :
    SpliceSpec t (t.replace c u) c k u.root := by
  have hn := ht.nodup
  have hcs : c ∈ s.addrs := root_mem (sub_root hs)
  have hcu : c ∉ u.addrs := fun h => ((hmem c).mp h).2 rfl
  have hin : ∀ x ∈ u.addrs, x ∈ t.addrs → x ∈ s.addrs := fun x hx _ => ((hmem x).mp hx).1
  obtain ⟨v, hkv⟩ := hk
  refine ⟨ht.replace hs hu (fun x hx => ((hmem x).mp hx).1) fun q hq => ((hent q).mp hq).1,
    mem_replace_less hn hs hcs hmem, root_replace, ?_, ?_, entries_replace_less ht hs hkv hent⟩
  · intro x hx hxc
    by_cases hxs : x ∈ s.addrs
    · have hxu : x ∈ u.addrs := (hmem x).mpr ⟨hxs, hxc⟩
      have hcx : t.cell x = u.cell x := by rw [hcell x hxu]; simp only [Tree.cell, sub_sub hn hs hxs]
      rw [cell_replace_of_mem hn hs hxu (hin x hxu), hcx, retarget_cell_of_notMem hcu]
    · exact cell_replace_of_notMem hn hs hx hxs fun h => hxs ((hmem x).mp h).1
  · intro k' x hxc hp
    by_cases hxs : x ∈ s.addrs
    · obtain ⟨h₁, h₂⟩ := hp.of_sub hn hs hxs
      exact h₁.replace hn (hpath k' x hxc h₂)
    · exact hp.replace_of_notMem hn hs hxs

theorem splice_spec {t : Tree A K V} (ht : t.Valid) {c : A} {nd : Node A K V} {d : Side}
    (hc : t.cell c = some nd) (hnil : nd.child d.other = none) :
    SpliceSpec t (t.splice c) c nd.key (nd.child d) := by
  obtain ⟨l, r, hs, hl, hr⟩ := cell_eq_some hc
  obtain ⟨hsn, hso⟩ := ht.sub hs
  obtain ⟨hnl, hnr, hcl, hcr, hlr⟩ := nodup_node hsn
  obtain ⟨hol, hor, hkl, hkr⟩ := ordered_node.mp hso
  have right : l = leaf → SpliceSpec t (t.replace c r) c nd.key r.root := by
    rintro rfl
    refine spliceSpec_replace ht hs ⟨hnr, hor⟩ ?_ ?_ ?_ ?_ ⟨nd.value, by simp⟩
    · intro x
      simp only [addrs_node, addrs_leaf, List.nil_append, List.mem_cons]
      exact ⟨fun h => ⟨.inr h, by rintro rfl; exact hcr h⟩, fun h => h.1.resolve_left h.2⟩
    · intro x hx
      have : c ≠ x := by rintro rfl; exact hcr hx
      simp [cell_node, this]
    · intro k x hxc h
      rcases h with h | ⟨-, h⟩ | ⟨-, h⟩
      · exact absurd h hxc
      · exact h.elim
      · exact h
    · intro q
      simp only [toList_node, toList_leaf, List.nil_append, List.mem_cons]
      refine ⟨fun h => ⟨.inr h, ne_of_gt (hkr q h)⟩, fun h => h.1.resolve_left ?_⟩
      rintro rfl
      exact h.2 rfl
  have left : r = leaf → SpliceSpec t (t.replace c l) c nd.key l.root := by
    rintro rfl
    refine spliceSpec_replace ht hs ⟨hnl, hol⟩ ?_ ?_ ?_ ?_ ⟨nd.value, by simp⟩
    · intro x
      simp only [addrs_node, addrs_leaf, List.mem_append, List.mem_singleton]
      exact ⟨fun h => ⟨.inl h, by rintro rfl; exact hcl h⟩, fun h => h.1.resolve_right h.2⟩
    · intro x hx
      have : c ≠ x := by rintro rfl; exact hcl hx
      simp [cell_node, this]
    · intro k x hxc h
      rcases h with h | ⟨-, h⟩ | ⟨-, h⟩
      · exact absurd h hxc
      · exact h
      · exact h.elim
    · intro q
      simp only [toList_node, toList_leaf, List.mem_append, List.mem_singleton]
      refine ⟨fun h => ⟨.inl h, ne_of_lt (hkl q h)⟩, fun h => h.1.resolve_right ?_⟩
      rintro rfl
      exact h.2 rfl
  cases d with
  | left =>
    have hr0 : r = leaf := root_eq_none.mp (hr.symm.trans hnil)
    rw [Node.child, hl]
    cases l with
    | leaf => subst hr0; simpa [splice, hs] using left rfl
    | node _ _ _ _ _ => subst hr0; simpa [splice, hs] using left rfl
  | right =>
    have hl0 : l = leaf := root_eq_none.mp (hl.symm.trans hnil)
    subst hl0
    rw [Node.child, hr]
    simpa [splice, hs] using right rfl

/-! ### The way down to the leftmost node -/

/-- From the pointer `p`, the left pointers lead through the nodes `M` to `z`. -/
def LeftPath (t : Tree A K V) : Option A → List A → A → Prop
  | p, [], z => p = some z
  | p, y :: M, z => p = some y ∧ ∃ nd, t.cell y = some nd ∧ LeftPath t nd.left M z

omit [LinearOrder K] in
theorem LeftPath.snoc {t : Tree A K V} {p : Option A} {M : List A} {y z : A} {nd : Node A K V}
    (h : t.LeftPath p M y) (hy : t.cell y = some nd) (hz : nd.left = some z) :
    t.LeftPath p (M ++ [y]) z := by
  induction M generalizing p with
  | nil => exact ⟨h, nd, hy, hz⟩
  | cons x M ih =>
    obtain ⟨hx, nx, hnx, h⟩ := h
    exact ⟨hx, nx, hnx, ih h⟩

omit [LinearOrder K] in
theorem LeftPath.last {t : Tree A K V} {p : Option A} {M : List A} {y z : A}
    (h : t.LeftPath p (M ++ [y]) z) : ∃ nd, t.cell y = some nd ∧ nd.left = some z := by
  induction M generalizing p with
  | nil =>
    obtain ⟨-, nd, hnd, h⟩ := h
    exact ⟨nd, hnd, h⟩
  | cons x M ih =>
    obtain ⟨-, nd, -, h⟩ := h
    exact ih h

omit [LinearOrder K] in
/-- It only depends on the records of the nodes it passes. -/
theorem LeftPath.congr {t t' : Tree A K V} {p : Option A} {M : List A} {z : A} (h : t.LeftPath p M z)
    (hM : ∀ x ∈ M, t'.cell x = t.cell x) : t'.LeftPath p M z := by
  induction M generalizing p with
  | nil => exact h
  | cons y M ih =>
    obtain ⟨hy, nd, hnd, h⟩ := h
    exact ⟨hy, nd, by rw [hM y (by simp), hnd], ih h fun x hx => hM x (by simp [hx])⟩

omit [LinearOrder K] in
/-- A node it passes is the first, or the left child of another. -/
theorem LeftPath.parent {t : Tree A K V} {p : Option A} {M : List A} {x z : A} (h : t.LeftPath p M z)
    (hx : x ∈ M ++ [z]) : p = some x ∨ ∃ y ∈ M, ∃ nd, t.cell y = some nd ∧ nd.left = some x := by
  induction M generalizing p with
  | nil =>
    have hxz : x = z := by simpa using hx
    exact .inl (hxz ▸ h)
  | cons y M ih =>
    obtain ⟨hy, nd, hnd, h⟩ := h
    rcases List.mem_cons.mp hx with rfl | hx
    · exact .inl hy
    · rcases ih h hx with h | ⟨w, hw, h⟩
      · exact .inr ⟨y, by simp, nd, hnd, h⟩
      · exact .inr ⟨w, by simp [hw], h⟩

omit [LinearOrder K] in
theorem sub_child {t l r : Tree A K V} (hn : t.addrs.Nodup) {a : A} {k : K} {v : V}
    (hs : t.sub a = some (node a k v l r)) : (∀ b, l.root = some b → t.sub b = some l) ∧
      ∀ b, r.root = some b → t.sub b = some r := by
  have hsn := sub_nodup hn hs
  constructor
  · intro b hb
    rw [sub_sub hn hs (by simp [root_mem hb]), sub_left hsn (root_mem hb), sub_self hb]
  · intro b hb
    rw [sub_sub hn hs (by simp [root_mem hb]), sub_right hsn (root_mem hb), sub_self hb]

omit [LinearOrder K] in
/-- Its nodes are the start of the spine. -/
theorem LeftPath.spine_eq {t u : Tree A K V} (hn : t.addrs.Nodup) {M : List A} {z : A}
    (hu : ∀ b, u.root = some b → t.sub b = some u) (h : t.LeftPath u.root M z) :
    ∃ s, t.sub z = some s ∧ u.spine = M ++ s.spine := by
  induction M generalizing u with
  | nil => exact ⟨u, hu z h, rfl⟩
  | cons y M ih =>
    obtain ⟨hy, nd, hnd, h⟩ := h
    obtain ⟨l, r, hs, hl, -⟩ := cell_eq_some hnd
    have hul : u = node y nd.key nd.value l r := Option.some.inj ((hu y hy).symm.trans hs)
    subst hul
    rw [hl] at h
    obtain ⟨s, hs', hsp⟩ := ih (sub_child hn hs).1 h
    exact ⟨s, hs', by rw [spine, hsp, List.cons_append]⟩

omit [LinearOrder K] [DecidableEq A] in
theorem spine_nodup {t : Tree A K V} (hn : t.addrs.Nodup) : t.spine.Nodup := by
  induction t with
  | leaf => simp [spine]
  | node a k v l r ihl ihr =>
    obtain ⟨hl, -, hal, -, -⟩ := nodup_node hn
    exact List.nodup_cons.mpr ⟨fun h => hal (spine_sub l a h), ihl hl⟩

omit [LinearOrder K] in
/-- Below the right pointer of a node, the nodes of the way down differ from it and from
one another. -/
theorem LeftPath.nodup {t : Tree A K V} (hn : t.addrs.Nodup) {c z : A} {nd : Node A K V} {M : List A}
    (hc : t.cell c = some nd) (h : t.LeftPath nd.right M z) : (c :: (M ++ [z])).Nodup := by
  obtain ⟨l, r, hs, -, hr⟩ := cell_eq_some hc
  obtain ⟨-, hnr, -, hcr, -⟩ := nodup_node (sub_nodup hn hs)
  rw [hr] at h
  obtain ⟨s, hsz, hsp⟩ := h.spine_eq hn (sub_child hn hs).2
  have hz := sub_root hsz
  have hpre : ∃ w, r.spine = M ++ [z] ++ w := by
    cases s with
    | leaf => simp at hz
    | node b k v sl sr =>
      simp only [root_node, Option.some.injEq] at hz
      exact ⟨sl.spine, by rw [hsp, spine, hz]; simp⟩
  obtain ⟨w, hw⟩ := hpre
  have hnd := spine_nodup hnr
  rw [hw] at hnd
  refine List.nodup_cons.mpr ⟨fun hcm => hcr (spine_sub r c ?_), (List.nodup_append.mp hnd).1⟩
  rw [hw]
  exact List.mem_append.mpr (.inl hcm)

/-! ### Pull up -/

omit [DecidableEq A] in
/-- A path that leaves the spine is that of a key above the smallest, and stays. -/
theorem OnPath.eraseMin {t : Tree A K V} {k : K} {x : A} (ho : t.Ordered) (h : OnPath k t x)
    (hx : x ∉ t.spine) : (∀ p ∈ t.toList.head?, p.1 < k) ∧ OnPath k t.eraseMin x := by
  induction t with
  | leaf => exact h.elim
  | node a ka va l r ihl ihr =>
    simp only [spine, List.mem_cons, not_or] at hx
    obtain ⟨hol, hor, hkl, hkr⟩ := ordered_node.mp ho
    cases l with
    | leaf =>
      rcases h with h | ⟨-, h⟩ | ⟨hlt, h⟩
      · exact absurd h hx.1
      · exact h.elim
      · exact ⟨by simpa using hlt, h⟩
    | node b kb vb lb rb =>
      have hhead : ((node a ka va (node b kb vb lb rb) r).toList).head? = (node b kb vb lb rb).toList.head? := by
        rw [toList_node, List.head?_append_of_ne_nil _ (by simp)]
      rw [hhead]
      rcases h with h | ⟨hlt, h⟩ | ⟨hlt, h⟩
      · exact absurd h hx.1
      · obtain ⟨h₁, h₂⟩ := ihl hol h hx.2
        exact ⟨h₁, .inr (.inl ⟨hlt, h₂⟩)⟩
      · exact ⟨fun p hp => lt_trans (hkl p (List.mem_of_mem_head? hp)) hlt, .inr (.inr ⟨hlt, h⟩)⟩

/-- The tree where the entry of `c`, a node with two children, has given way to that of
its in-order successor, whose node is gone. -/
def pullUp (t : Tree A K V) (c : A) : Tree A K V :=
  match t.sub c with
  | some (node _ _ _ l r) =>
    match r.toList.head? with
    | some (k, v) => t.replace c (node c k v l r.eraseMin)
    | none => t
  | none => t
  | some leaf => t

/-- What pulling the entry of `z`, at the end of the way down `M`, up into `c` does. -/
structure PullUpSpec (t t' : Tree A K V) (c z : A) (M : List A) (nd nz : Node A K V) : Prop where
  /-- It is a search tree. -/
  valid : t'.Valid
  /-- One address less. -/
  mem : ∀ x, x ∈ t'.addrs ↔ x ∈ t.addrs ∧ x ≠ z
  /-- The same root. -/
  root : t'.root = t.root
  /-- The entry of `z` is at `c`. -/
  pulled : t'.cell c = some (({ nd with key := nz.key, value := nz.value } : Node A K V).retarget z nz.right)
  /-- The other records show only that the pointers to `z` went on. -/
  cell : ∀ x ∈ t.addrs, x ≠ c → x ≠ z → t'.cell x = (t.cell x).map (·.retarget z nz.right)
  /-- The paths stay, but for the nodes on the way down. -/
  path : ∀ k x, x ∉ M → x ≠ z → OnPath k t x → OnPath k t' x
  /-- One entry less. -/
  entries : ∀ q, q ∈ t'.toList ↔ q ∈ t.toList ∧ q.1 ≠ nd.key

section

variable {c z : A} {k kz : K} {v vz : V} {l r : Tree A K V} {p : Option A}

/-- The subtree that comes in at `c`, with the least entry of the right subtree at its root, is a search tree. -/
theorem Valid.pull (ht : (node c k v l r).Valid) (hsp : SpliceSpec r r.eraseMin z kz p)
    (hlist : r.toList = (kz, vz) :: r.eraseMin.toList) : (node c kz vz l r.eraseMin).Valid := by
  obtain ⟨hn, ho⟩ := ht
  obtain ⟨hnl, hnr, hcl, hcr, hlr⟩ := nodup_node hn
  obtain ⟨hol, hor, hkl, hkr⟩ := ordered_node.mp ho
  have hkz : k < kz := hkr (kz, vz) (by simp [hlist])
  have hgt : ∀ q ∈ r.eraseMin.toList, kz < q.1 := by
    simp only [Ordered, hlist, List.pairwise_cons] at hor
    exact hor.1
  refine ⟨?_, ordered_node.mpr ⟨hol, hsp.valid.ordered, fun q hq => lt_trans (hkl q hq) hkz, hgt⟩⟩
  simp only [addrs_node, List.nodup_append, List.nodup_cons, List.mem_cons, hsp.mem]
  refine ⟨hnl, ⟨fun h => hcr h.1, hsp.valid.nodup⟩, ?_⟩
  rintro x hx y (rfl | hy) rfl
  · exact hcl hx
  · exact hlr x hx hy.1

/-- It does not have `z`. -/
theorem mem_pull (hn : (node c k v l r).addrs.Nodup) (hsp : SpliceSpec r r.eraseMin z kz p) (hz : z ∈ r.addrs) (x : A) :
    x ∈ (node c kz vz l r.eraseMin).addrs ↔ x ∈ (node c k v l r).addrs ∧ x ≠ z := by
  obtain ⟨-, -, -, hcr, hlr⟩ := nodup_node hn
  simp only [addrs_node, List.mem_append, List.mem_cons, hsp.mem]
  constructor
  · rintro (h | rfl | h)
    · exact ⟨.inl h, by rintro rfl; exact hlr x h hz⟩
    · exact ⟨.inr (.inl rfl), by rintro rfl; exact hcr hz⟩
    · exact ⟨.inr (.inr h.1), h.2⟩
  · tauto

omit [DecidableEq A] in
/-- It does not have the entry of `c`. -/
theorem entries_pull (ho : (node c k v l r).Ordered) (hlist : r.toList = (kz, vz) :: r.eraseMin.toList) (q : K × V) :
    q ∈ (node c kz vz l r.eraseMin).toList ↔ q ∈ (node c k v l r).toList ∧ q.1 ≠ k := by
  obtain ⟨-, -, hkl, hkr⟩ := ordered_node.mp ho
  simp only [toList_node, List.mem_append, List.mem_cons]
  constructor
  · rintro (h | rfl | h)
    · exact ⟨.inl h, ne_of_lt (hkl q h)⟩
    · exact ⟨.inr (.inr (by simp [hlist])), ne_of_gt (hkr (kz, vz) (by simp [hlist]))⟩
    · exact ⟨.inr (.inr (by simp [hlist, h])), ne_of_gt (hkr q (by simp [hlist, h]))⟩
  · rintro ⟨h | rfl | h, hq⟩
    · exact .inl h
    · exact absurd rfl hq
    · rw [hlist, List.mem_cons] at h
      exact .inr h

/-- Its other records show only that the pointers to `z` went on. -/
theorem cell_pull (hn : (node c k v l r).addrs.Nodup) (hsp : SpliceSpec r r.eraseMin z kz p) (hz : z ∈ r.addrs) {x : A}
    (hx : x ∈ (node c k v l r).addrs) (hxc : x ≠ c) (hxz : x ≠ z) :
    (node c kz vz l r.eraseMin).cell x = ((node c k v l r).cell x).map (·.retarget z p) := by
  obtain ⟨-, -, -, -, hlr⟩ := nodup_node hn
  rw [cell_node, cell_node, if_neg (Ne.symm hxc), if_neg (Ne.symm hxc)]
  simp only [addrs_node, List.mem_append, List.mem_cons] at hx
  rcases hx with hxl | hxc' | hxr
  · have hzl : z ∉ l.addrs := fun h => hlr z h hz
    have hxe : x ∉ r.eraseMin.addrs := fun h => hlr x hxl ((hsp.mem x).mp h).1
    rw [cell_eq_none hxe, cell_eq_none (hlr x hxl), Option.or_none, retarget_cell_of_notMem hzl]
  · exact absurd hxc' hxc
  · have hxl : x ∉ l.addrs := fun h => hlr x h hxr
    rw [cell_eq_none hxl, Option.none_or, hsp.cell x hxr hxz, Option.none_or]

end

theorem pullUp_spec {t : Tree A K V} (ht : t.Valid) {c z : A} {nd nz : Node A K V} {M : List A}
    (hc : t.cell c = some nd) (hM : t.LeftPath nd.right M z) (hz : t.cell z = some nz)
    (hnil : nz.left = none) : PullUpSpec t (t.pullUp c) c z M nd nz := by
  obtain ⟨hn, ho⟩ := id ht
  obtain ⟨l, r, hs, hl, hr⟩ := cell_eq_some hc
  obtain ⟨hsn, hso⟩ := ht.sub hs
  obtain ⟨hnl, hnr, hcl, hcr, hlr⟩ := nodup_node hsn
  obtain ⟨hol, hor, hkl, hkr⟩ := ordered_node.mp hso
  -- the way down is the spine of the right subtree, and `z` its leftmost node
  obtain ⟨lz, rz, hsz, hlz, hrz⟩ := cell_eq_some hz
  have hlz0 : lz = leaf := root_eq_none.mp (hlz.symm.trans hnil)
  subst hlz0
  obtain ⟨sz, hsz', hspine⟩ := LeftPath.spine_eq hn (sub_child hn hs).2 (hr ▸ hM)
  have hszeq : sz = node z nz.key nz.value leaf rz := Option.some.inj (hsz'.symm.trans hsz)
  subst hszeq
  have hzr : z ∈ r.addrs := spine_sub r z (by rw [hspine]; simp [spine])
  have hcz : c ≠ z := by rintro rfl; exact hcr hzr
  have hrsub : r.sub z = some (node z nz.key nz.value leaf rz) := by
    rw [← hsz, sub_sub hn hs (by simp [hzr]), sub_right hsn hzr]
  obtain ⟨kz, vz, rz', hsz'', her, hlist, -⟩ := eraseMin_eq hnr (L := M) (z := z) (by simpa [spine] using hspine)
  obtain ⟨rfl, rfl, rfl⟩ : kz = nz.key ∧ vz = nz.value ∧ rz' = rz := by
    simpa using hsz''.symm.trans hrsub
  have hsp : SpliceSpec r r.eraseMin z nz.key nz.right := by
    have := splice_spec (d := .right) ⟨hnr, hor⟩ (cell_of_sub hrsub) rfl
    rw [hrz, her]
    simpa [splice, hrsub, Node.child] using this
  have hkz : nd.key < nz.key := hkr (nz.key, nz.value) (by simp [hlist])
  -- what comes in for the subtree at `c`
  obtain ⟨T, hT⟩ : ∃ T, T = node c nz.key nz.value l r.eraseMin := ⟨_, rfl⟩
  have hTv : T.Valid := hT ▸ Valid.pull ⟨hsn, hso⟩ hsp hlist
  have hTmem (x : A) : x ∈ T.addrs ↔ x ∈ (node c nd.key nd.value l r).addrs ∧ x ≠ z := hT ▸ mem_pull hsn hsp hzr x
  have hTent (q : K × V) : q ∈ T.toList ↔ q ∈ (node c nd.key nd.value l r).toList ∧ q.1 ≠ nd.key :=
    hT ▸ entries_pull hso hlist q
  have ht' : t.pullUp c = t.replace c T := by simp [pullUp, hs, hlist, hT]
  have hin : ∀ x ∈ T.addrs, x ∈ t.addrs → x ∈ (node c nd.key nd.value l r).addrs :=
    fun x hx _ => ((hTmem x).mp hx).1
  have hcT : c ∈ T.addrs := (hTmem c).mpr ⟨by simp, hcz⟩
  have hzs : z ∈ (node c nd.key nd.value l r).addrs := by simp [hzr]
  rw [ht']
  refine ⟨ht.replace hs hTv (fun x hx => ((hTmem x).mp hx).1) fun q hq => ((hTent q).mp hq).1,
    mem_replace_less hn hs hzs hTmem, ?_, ?_, ?_, ?_, entries_replace_less ht hs (v := nd.value) (by simp) hTent⟩
  · rw [root_replace]
    split_ifs with h
    · rw [h, hT, root_node]
    · rfl
  · rw [cell_replace_of_mem hn hs hcT (hin c hcT), hT, cell_node, if_pos rfl]
    have hzl : l.root ≠ some z := fun h => hlr z (root_mem h) hzr
    simp [Node.retarget, hl, hr, hzl, hsp.root]
  · intro x hx hxc hxz
    by_cases hxs : x ∈ (node c nd.key nd.value l r).addrs
    · have hxT : x ∈ T.addrs := (hTmem x).mpr ⟨hxs, hxz⟩
      have hcx : t.cell x = (node c nd.key nd.value l r).cell x := by simp only [Tree.cell, sub_sub hn hs hxs]
      rw [cell_replace_of_mem hn hs hxT (hin x hxT), hcx, hT, cell_pull hsn hsp hzr hxs hxc hxz]
    · have hxT : x ∉ T.addrs := fun h => hxs ((hTmem x).mp h).1
      have hroot : T.root = some c := by rw [hT, root_node]
      rw [cell_replace_of_notMem hn hs hx hxs hxT, hroot]
      cases hcx : t.cell x with
      | none => rfl
      | some nx =>
        -- a pointer to `z` from outside would be a second parent
        have hno : ∀ d, nx.child d ≠ some z := by
          intro d hd
          rcases hM.parent (x := z) (by simp) with h | ⟨y, hy, ny, hny, h⟩
          · exact hxc (parent_unique hn hcx hd hc (show nd.child .right = some z from h)).1
          · obtain ⟨rfl, -⟩ := parent_unique hn hcx hd hny (show ny.child .left = some z from h)
            exact hxs (by simp [spine_sub r x (by rw [hspine]; simp [hy])])
        rw [Option.map_some, Option.map_some, Node.retarget_self, Node.retarget_of_ne hno]
  · intro k x hxM hxz hp
    by_cases hxs : x ∈ (node c nd.key nd.value l r).addrs
    · obtain ⟨h₁, h₂⟩ := hp.of_sub hn hs hxs
      apply h₁.replace hn
      rw [hT]
      rcases h₂ with rfl | ⟨hlt, h⟩ | ⟨hlt, h⟩
      · exact .inl rfl
      · exact .inr (.inl ⟨lt_trans hlt hkz, h⟩)
      · obtain ⟨h₃, h₄⟩ := h.eraseMin hor (by rw [hspine]; simp [spine, hxM, hxz])
        exact .inr (.inr ⟨h₃ (nz.key, nz.value) (by simp [hlist]), h₄⟩)
    · exact hp.replace_of_notMem hn hs hxs

end SdeSystems.Lib.Tree
