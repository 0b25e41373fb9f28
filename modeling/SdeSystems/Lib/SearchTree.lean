import Mathlib.Data.List.Nodup
import Mathlib.Order.Defs.LinearOrder
import Mathlib.Order.Basic
import Mathlib.Order.Lattice

/-!
# Binary search trees laid out in memory

A binary tree whose nodes have addresses: what a linked structure in memory looks like
from above. `cell` is the record a node's address leads to, `root` the pointer to the
tree. A change of the structure is the replacement of the subtree at an address
(`replace`), and this module says once what a replacement does to the addresses, the
records, the in-order list, and to the search paths (`OnPath`): where a search for a key
passes.
-/

namespace SdeSystems.Lib

/-- One of the two children. -/
inductive Side where
  /-- The left child. -/
  | left
  /-- The right child. -/
  | right
  deriving DecidableEq

/-- The other child. -/
def Side.other : Side → Side
  | .left => .right
  | .right => .left

/-- The record of a node in memory. -/
@[ext]
structure Node (A K V : Type*) where
  /-- The key. -/
  key : K
  /-- The value. -/
  value : V
  /-- The pointer to the left child. -/
  left : Option A
  /-- The pointer to the right child. -/
  right : Option A
  deriving DecidableEq

namespace Node

variable {A K V : Type*}

/-- A child pointer. -/
def child (nd : Node A K V) : Side → Option A
  | .left => nd.left
  | .right => nd.right

/-- A store to a child pointer. -/
def setChild (nd : Node A K V) : Side → Option A → Node A K V
  | .left, p => { nd with left := p }
  | .right, p => { nd with right := p }

/-- The pointers to `a` become `p`. -/
def retarget [DecidableEq A] (nd : Node A K V) (a : A) (p : Option A) : Node A K V :=
  { nd with left := if nd.left = some a then p else nd.left,
            right := if nd.right = some a then p else nd.right }

theorem retarget_of_ne [DecidableEq A] {nd : Node A K V} {a : A} {p : Option A}
    (h : ∀ d, nd.child d ≠ some a) : nd.retarget a p = nd := by
  have hl := h .left
  have hr := h .right
  simp only [child] at hl hr
  simp [retarget, hl, hr]

theorem retarget_self [DecidableEq A] (nd : Node A K V) (a : A) : nd.retarget a (some a) = nd := by
  cases nd
  simp only [retarget, mk.injEq, true_and]
  constructor <;> split_ifs with h <;> simp [h]

theorem retarget_child [DecidableEq A] {nd : Node A K V} {a : A} {p : Option A} {d : Side}
    (h : nd.child d = some a) (h' : nd.child d.other ≠ some a) : nd.retarget a p = nd.setChild d p := by
  cases d <;> simp only [child, Side.other] at h h' <;> simp [retarget, setChild, h, h']

end Node

/-- A binary tree with addresses. -/
inductive Tree (A K V : Type*) where
  /-- The empty tree. -/
  | leaf
  /-- A node at `a`. -/
  | node (a : A) (k : K) (v : V) (l r : Tree A K V)
  deriving DecidableEq

namespace Tree

variable {A K V : Type*}

/-- The pointer to the tree. -/
def root : Tree A K V → Option A
  | leaf => none
  | node a _ _ _ _ => some a

/-- The addresses of the nodes. -/
def addrs : Tree A K V → List A
  | leaf => []
  | node a _ _ l r => l.addrs ++ a :: r.addrs

/-- The keys and values, in order. -/
def toList : Tree A K V → List (K × V)
  | leaf => []
  | node _ k v l r => l.toList ++ (k, v) :: r.toList

@[simp] theorem root_leaf : (leaf : Tree A K V).root = none := rfl
@[simp] theorem root_node (a : A) (k : K) (v : V) (l r : Tree A K V) : (node a k v l r).root = some a := rfl
@[simp] theorem addrs_leaf : (leaf : Tree A K V).addrs = [] := rfl
@[simp] theorem addrs_node (a : A) (k : K) (v : V) (l r : Tree A K V) :
    (node a k v l r).addrs = l.addrs ++ a :: r.addrs := rfl
@[simp] theorem toList_leaf : (leaf : Tree A K V).toList = [] := rfl
@[simp] theorem toList_node (a : A) (k : K) (v : V) (l r : Tree A K V) :
    (node a k v l r).toList = l.toList ++ (k, v) :: r.toList := rfl

theorem root_eq_none {t : Tree A K V} : t.root = none ↔ t = leaf := by cases t <;> simp

theorem root_mem {t : Tree A K V} {a : A} (h : t.root = some a) : a ∈ t.addrs := by
  cases t with
  | leaf => simp at h
  | node b k v l r => simp at h; simp [h]

/-- The record at the top. -/
def top : Tree A K V → Option (Node A K V)
  | leaf => none
  | node _ k v l r => some ⟨k, v, l.root, r.root⟩

section

variable [DecidableEq A]

/-- The subtree at an address. -/
def sub : Tree A K V → A → Option (Tree A K V)
  | leaf, _ => none
  | node b k v l r, a => if b = a then some (node b k v l r) else (l.sub a).or (r.sub a)

/-- The record at an address. -/
def cell (t : Tree A K V) (a : A) : Option (Node A K V) := (t.sub a).bind top

/-- The tree with `T` for the subtree at `a`. -/
def replace : Tree A K V → A → Tree A K V → Tree A K V
  | leaf, _, _ => leaf
  | node b k v l r, a, T => if b = a then T else node b k v (l.replace a T) (r.replace a T)

/-! ### Addresses -/

theorem sub_eq_none {a : A} {t : Tree A K V} (h : a ∉ t.addrs) : t.sub a = none := by
  induction t with
  | leaf => rfl
  | node b k v l r ihl ihr =>
    simp only [addrs_node, List.mem_append, List.mem_cons, not_or] at h
    simp [sub, Ne.symm h.2.1, ihl h.1, ihr h.2.2]

theorem replace_of_notMem {a : A} {T t : Tree A K V} (h : a ∉ t.addrs) : t.replace a T = t := by
  induction t with
  | leaf => rfl
  | node b k v l r ihl ihr =>
    simp only [addrs_node, List.mem_append, List.mem_cons, not_or] at h
    simp [replace, Ne.symm h.2.1, ihl h.1, ihr h.2.2]

theorem sub_root {a : A} {t s : Tree A K V} (h : t.sub a = some s) : s.root = some a := by
  induction t with
  | leaf => simp [sub] at h
  | node b k v l r ihl ihr =>
    simp only [sub] at h
    split_ifs at h with hb
    · cases h; simp [hb]
    · rcases Option.or_eq_some_iff.mp h with h | ⟨-, h⟩
      · exact ihl h
      · exact ihr h

theorem sub_of_mem {a : A} {t : Tree A K V} (h : a ∈ t.addrs) : ∃ s, t.sub a = some s := by
  induction t with
  | leaf => simp at h
  | node b k v l r ihl ihr =>
    simp only [addrs_node, List.mem_append, List.mem_cons] at h
    by_cases hb : b = a
    · exact ⟨node b k v l r, by simp [sub, hb]⟩
    · rcases h with h | h | h
      · obtain ⟨s, hs⟩ := ihl h
        exact ⟨s, by simp [sub, hb, hs]⟩
      · exact absurd h.symm hb
      · obtain ⟨s, hs⟩ := ihr h
        cases hl : l.sub a with
        | none => exact ⟨s, by simp [sub, hb, hl, hs]⟩
        | some s' => exact ⟨s', by simp [sub, hb, hl]⟩

theorem mem_of_sub {a : A} {t s : Tree A K V} (h : t.sub a = some s) : a ∈ t.addrs := by
  by_contra hn
  simp [sub_eq_none hn] at h

theorem sub_self {t : Tree A K V} {a : A} (h : t.root = some a) : t.sub a = some t := by
  cases t with
  | leaf => simp at h
  | node b k v l r => simp at h; simp [sub, h]

theorem cell_of_sub {t : Tree A K V} {a b : A} {k : K} {v : V} {l r : Tree A K V}
    (h : t.sub a = some (node b k v l r)) : t.cell a = some ⟨k, v, l.root, r.root⟩ := by
  simp [cell, h, top]

theorem cell_eq_some {t : Tree A K V} {a : A} {nd : Node A K V} (h : t.cell a = some nd) :
    ∃ l r, t.sub a = some (node a nd.key nd.value l r) ∧ nd.left = l.root ∧ nd.right = r.root := by
  simp only [cell, Option.bind_eq_some_iff] at h
  obtain ⟨s, hs, ht⟩ := h
  have hr := sub_root hs
  cases s with
  | leaf => simp at hr
  | node b k v l r =>
    simp only [root_node, Option.some.injEq] at hr
    simp only [top, Option.some.injEq] at ht
    subst hr ht
    exact ⟨l, r, hs, rfl, rfl⟩

theorem cell_of_mem {t : Tree A K V} {a : A} (h : a ∈ t.addrs) : ∃ nd, t.cell a = some nd := by
  obtain ⟨s, hs⟩ := sub_of_mem h
  have hr := sub_root hs
  cases s with
  | leaf => simp at hr
  | node b k v l r => exact ⟨_, cell_of_sub hs⟩

theorem mem_of_cell {t : Tree A K V} {a : A} {nd : Node A K V} (h : t.cell a = some nd) : a ∈ t.addrs := by
  obtain ⟨l, r, hs, -⟩ := cell_eq_some h
  exact mem_of_sub hs

theorem cell_eq_none {t : Tree A K V} {a : A} (h : a ∉ t.addrs) : t.cell a = none := by
  simp [cell, sub_eq_none h]

@[simp] theorem cell_leaf (a : A) : (leaf : Tree A K V).cell a = none := rfl

theorem cell_node (a b : A) (k : K) (v : V) (l r : Tree A K V) : (node b k v l r).cell a =
    if b = a then some ⟨k, v, l.root, r.root⟩ else (l.cell a).or (r.cell a) := by
  by_cases hb : b = a
  · simp [cell, sub, hb, top]
  · simp only [cell, sub, hb, if_false]
    cases hl : l.sub a with
    | none => simp
    | some s =>
      have := sub_root hl
      cases s with
      | leaf => simp at this
      | node _ _ _ _ _ => simp [top]

/-! ### A tree without repeated addresses -/

omit [DecidableEq A] in
theorem nodup_node {a : A} {k : K} {v : V} {l r : Tree A K V} (h : (node a k v l r).addrs.Nodup) :
    l.addrs.Nodup ∧ r.addrs.Nodup ∧ a ∉ l.addrs ∧ a ∉ r.addrs ∧ ∀ x ∈ l.addrs, x ∉ r.addrs := by
  simp only [addrs_node, List.nodup_append, List.nodup_cons, List.mem_cons] at h
  obtain ⟨hl, ⟨har, hr⟩, hd⟩ := h
  exact ⟨hl, hr, fun h => (hd a h a (.inl rfl)) rfl, har, fun x hx hx' => hd x hx x (.inr hx') rfl⟩

/-- Where a proper subtree is: in one of the two, and not in the other. -/
theorem sub_node {a b : A} {k : K} {v : V} {l r s : Tree A K V} (hn : (node b k v l r).addrs.Nodup)
    (h : (node b k v l r).sub a = some s) : (a = b ∧ s = node b k v l r) ∨
      (a ≠ b ∧ l.sub a = some s ∧ a ∉ r.addrs) ∨ (a ≠ b ∧ r.sub a = some s ∧ a ∉ l.addrs) := by
  obtain ⟨-, -, -, -, hd⟩ := nodup_node hn
  simp only [sub] at h
  split_ifs at h with hb
  · exact .inl ⟨hb.symm, (Option.some.inj h).symm⟩
  · rcases Option.or_eq_some_iff.mp h with h | ⟨h₀, h⟩
    · exact .inr (.inl ⟨fun h => hb h.symm, h, hd a (mem_of_sub h)⟩)
    · refine .inr (.inr ⟨fun h => hb h.symm, h, ?_⟩)
      intro hl
      obtain ⟨s', hs'⟩ := sub_of_mem hl
      simp [hs'] at h₀

theorem sub_left {a b : A} {k : K} {v : V} {l r : Tree A K V} (hn : (node b k v l r).addrs.Nodup)
    (h : a ∈ l.addrs) : (node b k v l r).sub a = l.sub a := by
  obtain ⟨-, -, hb, -, -⟩ := nodup_node hn
  obtain ⟨s, hs⟩ := sub_of_mem h
  have : b ≠ a := by rintro rfl; exact hb h
  simp [sub, this, hs]

theorem sub_right {a b : A} {k : K} {v : V} {l r : Tree A K V} (hn : (node b k v l r).addrs.Nodup)
    (h : a ∈ r.addrs) : (node b k v l r).sub a = r.sub a := by
  obtain ⟨-, -, -, hb, hd⟩ := nodup_node hn
  have : b ≠ a := by rintro rfl; exact hb h
  simp [sub, this, sub_eq_none fun hl => hd a hl h]

/-- What surrounds the subtree at `a`: a replacement changes the part between. -/
theorem replace_split {t s : Tree A K V} {a : A} (hn : t.addrs.Nodup) (h : t.sub a = some s) :
    ∃ pre post preL postL, t.addrs = pre ++ s.addrs ++ post ∧ t.toList = preL ++ s.toList ++ postL ∧
      ∀ T : Tree A K V, (t.replace a T).addrs = pre ++ T.addrs ++ post ∧
        (t.replace a T).toList = preL ++ T.toList ++ postL := by
  induction t with
  | leaf => simp [sub] at h
  | node b k v l r ihl ihr =>
    obtain ⟨hl, hr, -, -, -⟩ := nodup_node hn
    rcases sub_node hn h with ⟨rfl, rfl⟩ | ⟨hab, h, har⟩ | ⟨hab, h, hal⟩
    · exact ⟨[], [], [], [], by simp, by simp, fun T => by simp [replace]⟩
    · obtain ⟨p, q, pL, qL, h₁, h₂, h₃⟩ := ihl hl h
      refine ⟨p, q ++ b :: r.addrs, pL, qL ++ (k, v) :: r.toList, by simp [h₁], by simp [h₂], ?_⟩
      intro T
      simp [replace, Ne.symm hab, replace_of_notMem har, h₃ T]
    · obtain ⟨p, q, pL, qL, h₁, h₂, h₃⟩ := ihr hr h
      refine ⟨l.addrs ++ b :: p, q, l.toList ++ (k, v) :: pL, qL, by simp [h₁], by simp [h₂], ?_⟩
      intro T
      simp [replace, Ne.symm hab, replace_of_notMem hal, h₃ T]

theorem sub_addrs {t s : Tree A K V} {a : A} (hn : t.addrs.Nodup) (h : t.sub a = some s) :
    ∀ x ∈ s.addrs, x ∈ t.addrs := by
  obtain ⟨p, q, pL, qL, h₁, -, -⟩ := replace_split hn h
  intro x hx
  simp [h₁, hx]

theorem sub_nodup {t s : Tree A K V} {a : A} (hn : t.addrs.Nodup) (h : t.sub a = some s) : s.addrs.Nodup := by
  obtain ⟨p, q, pL, qL, h₁, -, -⟩ := replace_split hn h
  rw [h₁, List.append_assoc, List.nodup_append] at hn
  exact (List.nodup_append.mp hn.2.1).1

/-- A subtree of a subtree. -/
theorem sub_sub {t s : Tree A K V} {a x : A} (hn : t.addrs.Nodup) (h : t.sub a = some s)
    (hx : x ∈ s.addrs) : t.sub x = s.sub x := by
  induction t with
  | leaf => simp [sub] at h
  | node b k v l r ihl ihr =>
    obtain ⟨hl, hr, -, -, -⟩ := nodup_node hn
    rcases sub_node hn h with ⟨rfl, rfl⟩ | ⟨hab, h, har⟩ | ⟨hab, h, hal⟩
    · rfl
    · rw [sub_left hn (sub_addrs hl h x hx), ihl hl h]
    · rw [sub_right hn (sub_addrs hr h x hx), ihr hr h]

/-- The addresses after a replacement. -/
theorem mem_replace {t s T : Tree A K V} {a : A} (hn : t.addrs.Nodup) (h : t.sub a = some s) (x : A) :
    x ∈ (t.replace a T).addrs ↔ (x ∈ t.addrs ∧ x ∉ s.addrs) ∨ x ∈ T.addrs := by
  obtain ⟨p, q, pL, qL, h₁, -, h₃⟩ := replace_split hn h
  rw [(h₃ T).1, h₁]
  rw [h₁, List.append_assoc, List.nodup_append] at hn
  obtain ⟨-, hn, hd⟩ := hn
  obtain ⟨-, -, hd'⟩ := List.nodup_append.mp hn
  simp only [List.mem_append] at hd ⊢
  constructor
  · rintro ((hx | hx) | hx)
    · exact .inl ⟨.inl (.inl hx), fun hs => hd x hx x (.inl hs) rfl⟩
    · exact .inr hx
    · exact .inl ⟨.inr hx, fun hs => hd' x hs x hx rfl⟩
  · rintro (⟨(hx | hx) | hx, hs⟩ | hx)
    · exact .inl (.inl hx)
    · exact absurd hx hs
    · exact .inr hx
    · exact .inl (.inr hx)

/-- A replacement keeps the addresses apart, when what comes in is apart from what stays. -/
theorem nodup_replace {t s T : Tree A K V} {a : A} (hn : t.addrs.Nodup) (h : t.sub a = some s)
    (hT : T.addrs.Nodup) (hd : ∀ x ∈ T.addrs, x ∈ t.addrs → x ∈ s.addrs) : (t.replace a T).addrs.Nodup := by
  obtain ⟨p, q, pL, qL, h₁, -, h₃⟩ := replace_split hn h
  have hmem : ∀ x, x ∈ t.addrs ↔ x ∈ p ∨ x ∈ s.addrs ∨ x ∈ q := fun x => by simp [h₁]
  rw [h₁, List.append_assoc, List.nodup_append] at hn
  obtain ⟨hp, hn, hd₁⟩ := hn
  obtain ⟨hs, hq, hd₂⟩ := List.nodup_append.mp hn
  rw [(h₃ T).1, List.append_assoc, List.nodup_append]
  refine ⟨hp, List.nodup_append.mpr ⟨hT, hq, ?_⟩, ?_⟩
  · rintro x hx y hy rfl
    exact hd₂ x (hd x hx ((hmem x).mpr (.inr (.inr hy)))) x hy rfl
  · rintro x hx y hy rfl
    rcases List.mem_append.mp hy with hy | hy
    · exact hd₁ x hx x (List.mem_append.mpr (.inl (hd x hy ((hmem x).mpr (.inl hx))))) rfl
    · exact hd₁ x hx x (List.mem_append.mpr (.inr hy)) rfl

theorem root_replace {t T : Tree A K V} {a : A} :
    (t.replace a T).root = if t.root = some a then T.root else t.root := by
  cases t with
  | leaf => simp [replace]
  | node b k v l r => by_cases hb : b = a <;> simp [replace, hb]

theorem child_mem {t : Tree A K V} {x y : A} {nd : Node A K V} {d : Side} (h : t.cell x = some nd)
    (hc : nd.child d = some y) : y ∈ t.addrs := by
  induction t with
  | leaf => simp at h
  | node b k v l r ihl ihr =>
    rw [cell_node] at h
    split_ifs at h with hb
    · cases h
      cases d
      · simp [root_mem (show l.root = some y from hc)]
      · simp [root_mem (show r.root = some y from hc)]
    · rcases Option.or_eq_some_iff.mp h with h | ⟨-, h⟩
      · simp [ihl h]
      · simp [ihr h]

omit [DecidableEq A] in
theorem root_ne_of_notMem {t : Tree A K V} {a : A} (h : a ∉ t.addrs) : t.root ≠ some a :=
  fun hr => h (root_mem hr)

/-- Nothing points to an address that is not there. -/
theorem retarget_cell_of_notMem {t : Tree A K V} {a x : A} {p : Option A} (h : a ∉ t.addrs) :
    (t.cell x).map (·.retarget a p) = t.cell x := by
  cases hc : t.cell x with
  | none => rfl
  | some nd =>
    rw [Option.map_some, Node.retarget_of_ne fun d hd => h (child_mem hc hd)]

/-- Outside the subtree a replacement shows only in the pointer to it. -/
theorem cell_replace_of_notMem {t s T : Tree A K V} {a x : A} (hn : t.addrs.Nodup) (h : t.sub a = some s)
    (hx : x ∈ t.addrs) (hxs : x ∉ s.addrs) (hT : x ∉ T.addrs) :
    (t.replace a T).cell x = (t.cell x).map (·.retarget a T.root) := by
  induction t with
  | leaf => simp at hx
  | node b k v l r ihl ihr =>
    obtain ⟨hl, hr, hbl, hbr, hd⟩ := nodup_node hn
    rcases sub_node hn h with ⟨rfl, rfl⟩ | ⟨hab, h, har⟩ | ⟨hab, h, hal⟩
    · exact absurd hx hxs
    · simp only [replace, Ne.symm hab, if_false, replace_of_notMem har, cell_node]
      by_cases hxb : b = x
      · simp [hxb, root_replace, Node.retarget, root_ne_of_notMem har]
      · simp only [addrs_node, List.mem_append, List.mem_cons, Ne.symm hxb, false_or] at hx
        simp only [hxb, if_false]
        rcases hx with hx | hx
        · rw [ihl hl h hx, cell_eq_none (hd x hx)]
          simp
        · have hxl : x ∉ l.addrs := fun hl => hd x hl hx
          rw [cell_eq_none hxl, cell_eq_none (mt (mem_replace hl h x).mp (by simp [hxl, hT]))]
          simp [retarget_cell_of_notMem har]
    · simp only [replace, Ne.symm hab, if_false, replace_of_notMem hal, cell_node]
      by_cases hxb : b = x
      · simp [hxb, root_replace, Node.retarget, root_ne_of_notMem hal]
      · simp only [addrs_node, List.mem_append, List.mem_cons, Ne.symm hxb, false_or] at hx
        simp only [hxb, if_false]
        rcases hx with hx | hx
        · have hxr : x ∉ r.addrs := hd x hx
          rw [cell_eq_none hxr, cell_eq_none (mt (mem_replace hr h x).mp (by simp [hxr, hT]))]
          simp [retarget_cell_of_notMem hal]
        · rw [ihr hr h hx, cell_eq_none fun hl => hd x hl hx]
          simp

/-- Inside the subtree the records are those of what came in. -/
theorem cell_replace_of_mem {t s T : Tree A K V} {a x : A} (hn : t.addrs.Nodup) (h : t.sub a = some s)
    (hx : x ∈ T.addrs) (hd : x ∈ t.addrs → x ∈ s.addrs) : (t.replace a T).cell x = T.cell x := by
  induction t with
  | leaf => simp [sub] at h
  | node b k v l r ihl ihr =>
    obtain ⟨hl, hr, hbl, hbr, hdis⟩ := nodup_node hn
    rcases sub_node hn h with ⟨rfl, rfl⟩ | ⟨hab, h, har⟩ | ⟨hab, h, hal⟩
    · simp [replace]
    · have hxb : b ≠ x := by
        rintro rfl
        exact hbl (sub_addrs hl h b (hd (by simp)))
      have hxr : x ∉ r.addrs := fun hxr => hdis x (sub_addrs hl h x (hd (by simp [hxr]))) hxr
      simp only [replace, Ne.symm hab, if_false, replace_of_notMem har, cell_node, hxb]
      rw [ihl hl h fun hxl => hd (by simp [hxl]), cell_eq_none hxr]
      simp
    · have hxb : b ≠ x := by
        rintro rfl
        exact hbr (sub_addrs hr h b (hd (by simp)))
      have hxl : x ∉ l.addrs := fun hxl => hdis x hxl (sub_addrs hr h x (hd (by simp [hxl])))
      simp only [replace, Ne.symm hab, if_false, replace_of_notMem hal, cell_node, hxb]
      rw [ihr hr h fun hxr => hd (by simp [hxr]), cell_eq_none hxl]
      simp

/-! ### Parents -/

/-- The root is nobody's child. -/
theorem child_ne_root {t : Tree A K V} (hn : t.addrs.Nodup) {x y : A} {nd : Node A K V} {d : Side}
    (h : t.cell x = some nd) (hc : nd.child d = some y) : t.root ≠ some y := by
  cases t with
  | leaf => simp at h
  | node b k v l r =>
    obtain ⟨-, -, hbl, hbr, -⟩ := nodup_node hn
    rw [cell_node] at h
    simp only [root_node, ne_eq, Option.some.injEq]
    rintro rfl
    split_ifs at h with hb
    · cases h
      cases d
      · exact hbl (root_mem hc)
      · exact hbr (root_mem hc)
    · rcases Option.or_eq_some_iff.mp h with h | ⟨-, h⟩
      · exact hbl (child_mem h hc)
      · exact hbr (child_mem h hc)

/-- A node is not its own child. -/
theorem child_ne_self {t : Tree A K V} (hn : t.addrs.Nodup) {x : A} {nd : Node A K V} {d : Side}
    (h : t.cell x = some nd) : nd.child d ≠ some x := by
  obtain ⟨l, r, hs, hl, hr⟩ := cell_eq_some h
  obtain ⟨-, -, hxl, hxr, -⟩ := nodup_node (sub_nodup hn hs)
  cases d with
  | left => exact fun hd => hxl (root_mem (hl ▸ hd))
  | right => exact fun hd => hxr (root_mem (hr ▸ hd))

/-- **A node has one parent**, and is one of its children only. -/
theorem parent_unique {t : Tree A K V} (hn : t.addrs.Nodup) {x x' y : A} {nd nd' : Node A K V} {d d' : Side}
    (h : t.cell x = some nd) (hc : nd.child d = some y) (h' : t.cell x' = some nd')
    (hc' : nd'.child d' = some y) : x = x' ∧ d = d' := by
  induction t with
  | leaf => simp at h
  | node b k v l r ihl ihr =>
    obtain ⟨hl, hr, hbl, hbr, hd⟩ := nodup_node hn
    have hlr : ∀ {z : A}, l.root = some z → r.root ≠ some z :=
      fun h₁ h₂ => hd _ (root_mem h₁) (root_mem h₂)
    rw [cell_node] at h h'
    split_ifs at h h' with hb hb' hb'
    · cases h; cases h'
      refine ⟨hb.symm.trans hb', ?_⟩
      cases d <;> cases d' <;> simp only [Node.child] at hc hc' <;>
        first | rfl | exact absurd hc' (hlr hc) | exact absurd hc (hlr hc')
    · cases h
      rcases Option.or_eq_some_iff.mp h' with h' | ⟨-, h'⟩ <;> cases d <;> simp only [Node.child] at hc
      · exact absurd hc (child_ne_root hl h' hc')
      · exact absurd (root_mem hc) (hd _ (child_mem h' hc'))
      · exact absurd (child_mem h' hc') (hd _ (root_mem hc))
      · exact absurd hc (child_ne_root hr h' hc')
    · cases h'
      rcases Option.or_eq_some_iff.mp h with h | ⟨-, h⟩ <;> cases d' <;> simp only [Node.child] at hc'
      · exact absurd hc' (child_ne_root hl h hc)
      · exact absurd (root_mem hc') (hd _ (child_mem h hc))
      · exact absurd (child_mem h hc) (hd _ (root_mem hc'))
      · exact absurd hc' (child_ne_root hr h hc)
    · rcases Option.or_eq_some_iff.mp h with h | ⟨-, h⟩ <;>
        rcases Option.or_eq_some_iff.mp h' with h' | ⟨-, h'⟩
      · exact ihl hl h h'
      · exact absurd (child_mem h' hc') (hd _ (child_mem h hc))
      · exact absurd (child_mem h hc) (hd _ (child_mem h' hc'))
      · exact ihr hr h h'

/-! ### The leftmost node -/

/-- The nodes from the root down to the leftmost. -/
def spine : Tree A K V → List A
  | leaf => []
  | node a _ _ l _ => a :: l.spine

/-- The tree without its leftmost node. -/
def eraseMin : Tree A K V → Tree A K V
  | leaf => leaf
  | node _ _ _ leaf r => r
  | node a k v (node b kb vb lb rb) r => node a k v (eraseMin (node b kb vb lb rb)) r

omit [DecidableEq A] in
theorem spine_sub (t : Tree A K V) : ∀ x ∈ t.spine, x ∈ t.addrs := by
  induction t with
  | leaf => simp [spine]
  | node a k v l r ihl ihr =>
    intro x hx
    rcases List.mem_cons.mp hx with rfl | hx
    · simp
    · simp [ihl x hx]

/-- The last node of the spine is the leftmost; taking it out is a replacement by its
right subtree. -/
theorem eraseMin_eq {t : Tree A K V} (hn : t.addrs.Nodup) {L : List A} {z : A} (h : t.spine = L ++ [z]) :
    ∃ k v r, t.sub z = some (node z k v leaf r) ∧ t.eraseMin = t.replace z r ∧
      t.toList = (k, v) :: t.eraseMin.toList ∧ ∀ x, x ∈ t.addrs ↔ x = z ∨ x ∈ t.eraseMin.addrs := by
  induction t generalizing L with
  | leaf => simp [spine] at h
  | node a k v l r ihl ihr =>
    obtain ⟨hl, -, hal, -, hd⟩ := nodup_node hn
    cases l with
    | leaf =>
      simp only [spine] at h
      have hz : a = z := by
        cases L with
        | nil => simpa using h
        | cons b L => simp at h
      subst hz
      exact ⟨k, v, r, by simp [sub], by simp [eraseMin, replace], by simp [eraseMin],
        fun x => by simp [eraseMin]⟩
    | node b kb vb lb rb =>
      obtain ⟨L', rfl, hL'⟩ : ∃ L', L = a :: L' ∧ (node b kb vb lb rb).spine = L' ++ [z] := by
        cases L with
        | nil => simp [spine] at h
        | cons c L => simp only [spine, List.cons_append, List.cons.injEq] at h; exact ⟨L, by rw [h.1], h.2⟩
      obtain ⟨k', v', r', h₁, h₂, h₃, h₄⟩ := ihl hl hL'
      have hz := mem_of_sub h₁
      have hza : a ≠ z := by rintro rfl; exact hal hz
      refine ⟨k', v', r', by rw [sub_left hn hz, h₁], ?_, ?_, ?_⟩
      · rw [eraseMin, h₂]
        conv_rhs => rw [replace]
        rw [if_neg hza, replace_of_notMem (hd z hz)]
      · rw [eraseMin, toList_node, h₃, toList_node, List.cons_append]
      · intro x
        simp only [eraseMin, addrs_node, List.mem_append, List.mem_cons] at h₄ ⊢
        rw [h₄ x]
        tauto

end

/-! ### Order and search -/

section

variable [LinearOrder K]

/-- The keys increase strictly from left to right. -/
def Ordered (t : Tree A K V) : Prop := t.toList.Pairwise fun p q => p.1 < q.1

/-- A search for `k` passes through `x`. -/
def OnPath (k : K) : Tree A K V → A → Prop
  | leaf, _ => False
  | node a k' _ l r, x => x = a ∨ (k < k' ∧ OnPath k l x) ∨ (k' < k ∧ OnPath k r x)

/-- The side a search for `k` takes at a node with key `k'`. -/
def dir (k k' : K) : Side := if k < k' then .left else .right

theorem ordered_node {a : A} {k : K} {v : V} {l r : Tree A K V} : (node a k v l r).Ordered ↔
    l.Ordered ∧ r.Ordered ∧ (∀ p ∈ l.toList, p.1 < k) ∧ (∀ p ∈ r.toList, k < p.1) := by
  simp only [Ordered, toList_node, List.pairwise_append, List.pairwise_cons, List.mem_cons]
  constructor
  · rintro ⟨hl, ⟨hk, hr⟩, hd⟩
    exact ⟨hl, hr, fun p hp => hd p hp (k, v) (.inl rfl), fun p hp => hk p hp⟩
  · rintro ⟨hl, hr, h₁, h₂⟩
    refine ⟨hl, ⟨h₂, hr⟩, ?_⟩
    rintro p hp q (rfl | hq)
    · exact h₁ p hp
    · exact lt_trans (h₁ p hp) (h₂ q hq)

theorem OnPath.mem {k : K} {t : Tree A K V} {x : A} (h : OnPath k t x) : x ∈ t.addrs := by
  induction t with
  | leaf => exact h.elim
  | node a k' v l r ihl ihr =>
    rcases h with rfl | ⟨-, h⟩ | ⟨-, h⟩
    · simp
    · simp [ihl h]
    · simp [ihr h]

theorem onPath_root {k : K} {t : Tree A K V} {x : A} (h : t.root = some x) : OnPath k t x := by
  cases t with
  | leaf => simp at h
  | node a k' v l r => simp at h; exact .inl h.symm

section

variable [DecidableEq A]

omit [LinearOrder K] in
theorem mem_toList_of_cell {t : Tree A K V} {a : A} {nd : Node A K V} (h : t.cell a = some nd) :
    (nd.key, nd.value) ∈ t.toList := by
  induction t with
  | leaf => simp at h
  | node b k v l r ihl ihr =>
    rw [cell_node] at h
    split_ifs at h with hb
    · cases h; simp
    · rcases Option.or_eq_some_iff.mp h with h | ⟨-, h⟩
      · simp [ihl h]
      · simp [ihr h]

/-- A search goes on to the child on its side. -/
theorem OnPath.child {k : K} {t : Tree A K V} {a b : A} {nd : Node A K V} (h : OnPath k t a)
    (hn : t.addrs.Nodup) (hc : t.cell a = some nd) (hk : k ≠ nd.key)
    (hb : nd.child (dir k nd.key) = some b) : OnPath k t b := by
  induction t with
  | leaf => exact h.elim
  | node c k' v l r ihl ihr =>
    obtain ⟨hl, hr, hcl, hcr, hd⟩ := nodup_node hn
    rw [cell_node] at hc
    rcases h with rfl | ⟨hlt, h⟩ | ⟨hlt, h⟩
    · simp only [if_true, Option.some.injEq] at hc
      subst hc
      simp only [dir] at hb hk
      split_ifs at hb with hlt
      · exact .inr (.inl ⟨hlt, onPath_root hb⟩)
      · exact .inr (.inr ⟨lt_of_le_of_ne (not_lt.mp hlt) (Ne.symm hk), onPath_root hb⟩)
    · have hca : c ≠ a := by rintro rfl; exact hcl h.mem
      rw [if_neg hca, cell_eq_none (hd a h.mem), Option.or_none] at hc
      exact .inr (.inl ⟨hlt, ihl h hl hc⟩)
    · have hca : c ≠ a := by rintro rfl; exact hcr h.mem
      rw [if_neg hca, cell_eq_none fun hl => hd a hl h.mem, Option.none_or] at hc
      exact .inr (.inr ⟨hlt, ihr h hr hc⟩)

/-- A search that finds no child on its side has a key that is not there. -/
theorem OnPath.notMem {k : K} {t : Tree A K V} {a : A} {nd : Node A K V} (h : OnPath k t a)
    (ho : t.Ordered) (hn : t.addrs.Nodup) (hc : t.cell a = some nd) (hk : k ≠ nd.key)
    (hb : nd.child (dir k nd.key) = none) : ∀ p ∈ t.toList, p.1 ≠ k := by
  induction t with
  | leaf => exact h.elim
  | node c k' v l r ihl ihr =>
    obtain ⟨hl, hr, hcl, hcr, hd⟩ := nodup_node hn
    obtain ⟨hol, hor, hkl, hkr⟩ := ordered_node.mp ho
    rw [cell_node] at hc
    intro p hp
    rw [toList_node, List.mem_append, List.mem_cons] at hp
    rcases h with rfl | ⟨hlt, h⟩ | ⟨hlt, h⟩
    · simp only [if_true, Option.some.injEq] at hc
      subst hc
      simp only [dir] at hb hk
      split_ifs at hb with hlt
      · rw [root_eq_none.mp hb] at hp
        rcases hp with hp | rfl | hp
        · simp at hp
        · exact Ne.symm hk
        · exact ne_of_gt (lt_trans hlt (hkr p hp))
      · rw [root_eq_none.mp hb] at hp
        have hgt := lt_of_le_of_ne (not_lt.mp hlt) (Ne.symm hk)
        rcases hp with hp | rfl | hp
        · exact ne_of_lt (lt_trans (hkl p hp) hgt)
        · exact Ne.symm hk
        · simp at hp
    · have hca : c ≠ a := by rintro rfl; exact hcl h.mem
      rw [if_neg hca, cell_eq_none (hd a h.mem), Option.or_none] at hc
      rcases hp with hp | rfl | hp
      · exact ihl h hol hl hc p hp
      · exact ne_of_gt hlt
      · exact ne_of_gt (lt_trans hlt (hkr p hp))
    · have hca : c ≠ a := by rintro rfl; exact hcr h.mem
      rw [if_neg hca, cell_eq_none fun hl => hd a hl h.mem, Option.none_or] at hc
      rcases hp with hp | rfl | hp
      · exact ne_of_lt (lt_trans (hkl p hp) hlt)
      · exact ne_of_lt hlt
      · exact ihr h hor hr hc p hp

/-- A path into a subtree leads to it and goes on in it. -/
theorem OnPath.of_sub {k : K} {t s : Tree A K V} {a x : A} (hn : t.addrs.Nodup) (hs : t.sub a = some s)
    (hx : x ∈ s.addrs) (h : OnPath k t x) : OnPath k t a ∧ OnPath k s x := by
  induction t with
  | leaf => exact h.elim
  | node b k' v l r ihl ihr =>
    obtain ⟨hl, hr, hbl, hbr, hd⟩ := nodup_node hn
    rcases sub_node hn hs with ⟨rfl, rfl⟩ | ⟨hab, hs, har⟩ | ⟨hab, hs, hal⟩
    · exact ⟨.inl rfl, h⟩
    · have hxl := sub_addrs hl hs x hx
      rcases h with rfl | ⟨hlt, h⟩ | ⟨hlt, h⟩
      · exact absurd hxl hbl
      · exact ⟨.inr (.inl ⟨hlt, (ihl hl hs h).1⟩), (ihl hl hs h).2⟩
      · exact absurd h.mem (hd x hxl)
    · have hxr := sub_addrs hr hs x hx
      rcases h with rfl | ⟨hlt, h⟩ | ⟨hlt, h⟩
      · exact absurd hxr hbr
      · exact absurd hxr (hd x h.mem)
      · exact ⟨.inr (.inr ⟨hlt, (ihr hr hs h).1⟩), (ihr hr hs h).2⟩

/-- Paths outside the subtree survive a replacement. -/
theorem OnPath.replace_of_notMem {k : K} {t s T : Tree A K V} {a x : A} (hn : t.addrs.Nodup)
    (hs : t.sub a = some s) (hx : x ∉ s.addrs) (h : OnPath k t x) : OnPath k (t.replace a T) x := by
  induction t with
  | leaf => exact h.elim
  | node b k' v l r ihl ihr =>
    obtain ⟨hl, hr, hbl, hbr, hd⟩ := nodup_node hn
    rcases sub_node hn hs with ⟨rfl, rfl⟩ | ⟨hab, hs, har⟩ | ⟨hab, hs, hal⟩
    · exact absurd h.mem hx
    · simp only [replace, Ne.symm hab, if_false, Tree.replace_of_notMem har]
      rcases h with rfl | ⟨hlt, h⟩ | ⟨hlt, h⟩
      · exact .inl rfl
      · exact .inr (.inl ⟨hlt, ihl hl hs h⟩)
      · exact .inr (.inr ⟨hlt, h⟩)
    · simp only [replace, Ne.symm hab, if_false, Tree.replace_of_notMem hal]
      rcases h with rfl | ⟨hlt, h⟩ | ⟨hlt, h⟩
      · exact .inl rfl
      · exact .inr (.inl ⟨hlt, h⟩)
      · exact .inr (.inr ⟨hlt, ihr hr hs h⟩)

/-- A path to the subtree goes on in what came in. -/
theorem OnPath.replace {k : K} {t T : Tree A K V} {a x : A} (hn : t.addrs.Nodup)
    (h : OnPath k t a) (hT : OnPath k T x) : OnPath k (t.replace a T) x := by
  induction t with
  | leaf => exact h.elim
  | node b k' v l r ihl ihr =>
    obtain ⟨hl, hr, hbl, hbr, hd⟩ := nodup_node hn
    simp only [Tree.replace]
    split_ifs with hb
    · exact hT
    · rcases h with rfl | ⟨hlt, h⟩ | ⟨hlt, h⟩
      · exact absurd rfl hb
      · exact .inr (.inl ⟨hlt, ihl hl h⟩)
      · exact .inr (.inr ⟨hlt, ihr hr h⟩)

/-- The keys to the left of a subtree are below every key whose search leads to it, and
those to the right above. -/
theorem replace_split_path {t s : Tree A K V} {a : A} (hn : t.addrs.Nodup) (ho : t.Ordered)
    (h : t.sub a = some s) : ∃ preL postL, t.toList = preL ++ s.toList ++ postL ∧
      (∀ T : Tree A K V, (t.replace a T).toList = preL ++ T.toList ++ postL) ∧
      ∀ k, OnPath k t a → (∀ p ∈ preL, p.1 < k) ∧ ∀ p ∈ postL, k < p.1 := by
  induction t with
  | leaf => simp [sub] at h
  | node b k v l r ihl ihr =>
    obtain ⟨hl, hr, hbl, hbr, hd⟩ := nodup_node hn
    obtain ⟨hol, hor, hkl, hkr⟩ := ordered_node.mp ho
    rcases sub_node hn h with ⟨rfl, rfl⟩ | ⟨hab, h, har⟩ | ⟨hab, h, hal⟩
    · exact ⟨[], [], by simp, fun T => by simp [Tree.replace], fun k _ => by simp⟩
    · obtain ⟨pL, qL, h₂, h₃, h₄⟩ := ihl hl hol h
      refine ⟨pL, qL ++ (k, v) :: r.toList, by simp [h₂],
        fun T => by simp [Tree.replace, Ne.symm hab, replace_of_notMem har, h₃ T], ?_⟩
      intro k' hp
      rcases hp with rfl | ⟨hlt, hp⟩ | ⟨-, hp⟩
      · exact absurd rfl hab
      · refine ⟨(h₄ k' hp).1, ?_⟩
        intro p hpq
        rcases List.mem_append.mp hpq with hq | hq
        · exact (h₄ k' hp).2 p hq
        · rcases List.mem_cons.mp hq with rfl | hq
          · exact hlt
          · exact lt_trans hlt (hkr p hq)
      · exact absurd hp.mem har
    · obtain ⟨pL, qL, h₂, h₃, h₄⟩ := ihr hr hor h
      refine ⟨l.toList ++ (k, v) :: pL, qL, by simp [h₂],
        fun T => by simp [Tree.replace, Ne.symm hab, replace_of_notMem hal, h₃ T], ?_⟩
      intro k' hp
      rcases hp with rfl | ⟨-, hp⟩ | ⟨hlt, hp⟩
      · exact absurd rfl hab
      · exact absurd hp.mem hal
      · refine ⟨?_, (h₄ k' hp).2⟩
        intro p hpq
        rcases List.mem_append.mp hpq with hq | hq
        · exact lt_trans (hkl p hq) hlt
        · rcases List.mem_cons.mp hq with rfl | hq
          · exact hlt
          · exact (h₄ k' hp).1 p hq

/-- A replacement keeps the order when the search for every key that comes in leads to it. -/
theorem ordered_replace {t s T : Tree A K V} {a : A} (hn : t.addrs.Nodup) (ho : t.Ordered)
    (h : t.sub a = some s) (hT : T.Ordered) (hp : ∀ p ∈ T.toList, OnPath p.1 t a) :
    (t.replace a T).Ordered := by
  obtain ⟨pL, qL, h₁, h₂, h₃⟩ := replace_split_path hn ho h
  simp only [Ordered, h₂ T, h₁, List.pairwise_append] at ho hT ⊢
  obtain ⟨⟨ho₁, -, -⟩, ho₂, ho₃⟩ := ho
  refine ⟨⟨ho₁, hT, fun p hpp q hq => (h₃ q.1 (hp q hq)).1 p hpp⟩, ho₂, ?_⟩
  intro p hpp q hq
  rcases List.mem_append.mp hpp with hpp | hpp
  · exact ho₃ p (List.mem_append.mpr (.inl hpp)) q hq
  · exact (h₃ p.1 (hp p hpp)).2 q hq

/-- The search for a key of a subtree leads to it. -/
theorem onPath_of_mem_sub {t s : Tree A K V} {a : A} (hn : t.addrs.Nodup) (ho : t.Ordered)
    (h : t.sub a = some s) {p : K × V} (hp : p ∈ s.toList) : OnPath p.1 t a := by
  induction t with
  | leaf => simp [sub] at h
  | node b k v l r ihl ihr =>
    obtain ⟨hl, hr, hbl, hbr, hd⟩ := nodup_node hn
    obtain ⟨hol, hor, hkl, hkr⟩ := ordered_node.mp ho
    rcases sub_node hn h with ⟨rfl, rfl⟩ | ⟨hab, h, har⟩ | ⟨hab, h, hal⟩
    · exact .inl rfl
    · obtain ⟨_, _, pL, qL, -, h₂, -⟩ := replace_split hl h
      exact .inr (.inl ⟨hkl p (by simp [h₂, hp]), ihl hl hol h⟩)
    · obtain ⟨_, _, pL, qL, -, h₂, -⟩ := replace_split hr h
      exact .inr (.inr ⟨hkr p (by simp [h₂, hp]), ihr hr hor h⟩)

end

end

end Tree

end SdeSystems.Lib
