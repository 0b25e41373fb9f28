import SdeSystems.Lib.TreeEdit
import SdeSystems.Bst.Machine

/-!
# What holds between the steps

The invariant of the concurrent search tree. From a program counter one reads off which
node locks its thread has (`held`), whether it has `tree->lock` (`hasTree`), which pointer
it has read and not yet locked (`want`), which node is its own (`own`: a new node not yet
linked, or a removed node not yet freed), and whether its call has taken effect
(`effect`). A tree `V` is what the memory stands for; it differs from the memory only in
the key and value of a node into which `delete_two_children` is copying. `Fact` says what
a thread knows of `V` at each place, and `Inv` puts the threads together.

The one fact that is not about nodes the thread has locked is that of
`delete_two_children`: on the way down from `cur` to the successor it releases the nodes
in between, and no other thread can have a pointer to these (`Clear`), for the only way to
them is through `cur`.
-/

namespace SdeSystems.Bst

open Function Relation Lib Lib.Tree

/-- The tree the memory stands for. -/
abbrev View := Tree Addr ℤ ℤ

/-! ### Reading a program counter -/

namespace Pc

/-- The nodes whose locks the thread has. -/
def held : Pc → List Addr
  | .lockTree | .testRoot | .readRoot | .lockRoot _ | .createRoot | .linkRoot _ | .unlockTreeRet _ => []
  | .free _ | .ret _ | .crash => []
  | .unlockTree c | .unlockRet c _ => [c]
  | .insEq c | .insLt c | .insNull c _ | .insCreate c _ | .insLink c _ _ | .insNext c _ | .insLock c _ => [c]
  | .insUnlock c n => [c, n]
  | .lookEq c | .lookVal c | .lookLt c | .lookNext c _ | .lookLock c _ => [c]
  | .lookUnlock c n => [c, n]
  | .delRootKey c | .delRootLeft c | .delRootRight c | .delRootPickL c | .delRootPick c _ => [c]
  | .delRootWrite c _ | .delRootUnlockTree c | .delUnlockFree c | .del2UnlockTree c | .delUnlockTree c => [c]
  | .delLt0 c | .delNext0 c _ => [c]
  | .delLock q _ _ => [q]
  | .delKey q _ c | .delLt q _ c | .delNext q _ c _ | .delMiss q c | .delUnlockParent q c _ _ => [q, c]
  | .delLeft q _ c | .delRight q _ c | .delPickL q _ c | .delPick q _ c _ | .delWrite q _ c _ => [q, c]
  | .delUnlockParent1 q c | .del2UnlockParent q c => [q, c]
  | .d2Right c | .d2LockSucc c _ | .d2Free c _ => [c]
  | .d2Test c q s | .d2Next c q s | .d2Lock c q s _ => if q = c then [c, s] else [c, q, s]
  | .d2Unlock c q s n => [c, q, s, n]
  | .d2Key c q s | .d2SetKey c q s _ | .d2Val c q s | .d2SetVal c q s _ | .d2Succ c q s | .d2Link c q s _ =>
    if q = c then [c, s] else [c, q, s]
  | .d2UnlockParent c q s => [c, q, s]
  | .d2UnlockSucc c s => [c, s]

/-- The thread has `tree->lock`. -/
def hasTree : Pc → Bool
  | .testRoot | .readRoot | .lockRoot _ | .unlockTree _ | .createRoot | .linkRoot _ | .unlockTreeRet _ => true
  | .delRootKey _ | .delRootLeft _ | .delRootRight _ | .delRootPickL _ | .delRootPick _ _ => true
  | .delRootWrite _ _ | .delRootUnlockTree _ | .del2UnlockTree _ | .delUnlockTree _ => true
  | _ => false

/-- The pointer the thread has read out of a locked node (or of the root). -/
def want : Pc → Option Addr
  | .lockRoot c => some c
  | .insLock _ n | .lookLock _ n | .delLock _ _ n | .delUnlockParent _ _ _ n => some n
  | .d2LockSucc _ s => some s
  | .d2Lock _ _ _ n => some n
  | .delRootWrite _ p | .delWrite _ _ _ p | .d2Link _ _ _ p => p
  | _ => none

/-- The node that is the thread's own, outside the tree. -/
def own : Pc → Option Addr
  | .linkRoot a | .insLink _ _ a => some a
  | .delRootUnlockTree c | .delUnlockFree c | .free c | .delUnlockParent1 _ c => some c
  | .d2UnlockParent _ _ s | .d2UnlockSucc _ s | .d2Free _ s => some s
  | _ => none

/-- The node whose key and value are being copied over. -/
def copying : Pc → Option Addr
  | .d2Val c _ _ | .d2SetVal c _ _ _ | .d2Succ c _ _ | .d2Link c _ _ _ => some c
  | _ => none

/-- Every pointer in a local variable that is still live. -/
def locals (pc : Pc) : List Addr := pc.held ++ pc.want.toList ++ pc.own.toList

/-- Once the call has taken effect: what it will return. -/
def effect : Pc → Option Ret
  | .unlockTreeRet r | .unlockRet _ r | .ret r => some r
  | .delRootUnlockTree _ | .delUnlockFree _ | .free _ | .delUnlockParent1 _ _ => some .ok
  | .delMiss _ _ => some .fail
  | .d2UnlockParent _ _ _ | .d2UnlockSucc _ _ | .d2Free _ _ => some .ok
  | _ => none

/-- A place the calls of this kind come by. -/
def fits (op : Op) : Pc → Prop
  | .lockTree | .testRoot | .readRoot | .lockRoot _ | .unlockTreeRet _ | .unlockRet _ _ | .ret _ => True
  | .unlockTree _ => ∀ k, op ≠ .delete k
  | .createRoot | .linkRoot _ | .insEq _ | .insLt _ | .insNull _ _ | .insCreate _ _ | .insLink _ _ _ =>
    ∃ k v, op = .insert k v
  | .insNext _ _ | .insLock _ _ | .insUnlock _ _ => ∃ k v, op = .insert k v
  | .lookEq _ | .lookVal _ | .lookLt _ | .lookNext _ _ | .lookLock _ _ | .lookUnlock _ _ => ∃ k, op = .lookup k
  | .crash => False
  | _ => ∃ k, op = .delete k

end Pc

/-! ### What a thread knows -/

/-- The record of `a` in the tree is such that. -/
def Has (V : View) (a : Addr) (P : Node → Prop) : Prop := ∃ nd, V.cell a = some nd ∧ P nd

/-- `c` is the child of `q` on side `d`. -/
def Link (V : View) (q : Addr) (d : Side) (c : Addr) : Prop := Has V q fun nd => nd.child d = some c

/-- The search for `k` comes by `a`, whose record is such that. -/
def At (V : View) (k : ℤ) (a : Addr) (P : Node → Prop) : Prop := OnPath k V a ∧ Has V a P

/-- `delete_two_children` is at `s`, below its parent `q`, on the way down from `c`: the
nodes it has released are `clear`. -/
def Descent (V : View) (clear : Addr → Prop) (k : ℤ) (c q s : Addr) : Prop :=
  ∃ nd M, V.cell c = some nd ∧ nd.key = k ∧ V.LeftPath nd.right M s ∧
    ((M = [] ∧ q = c) ∨ ∃ L, M = L ++ [q] ∧ ∀ x ∈ L, clear x)

/-- The copy of `s` into `c` has come so far that the memory has `f` of both records at `c`. -/
def Copied (V : View) (m : Mem) (c s : Addr) (f : Node → Node → Node) (P : Node → Prop) : Prop :=
  ∃ nd nz, V.cell c = some nd ∧ V.cell s = some nz ∧ nz.left = none ∧ m.node c = some (f nd nz) ∧ P nz

/-- What a thread knows at each place, in a call of `op`. -/
def Fact (V : View) (m : Mem) (clear : Addr → Prop) (op : Op) : Pc → Prop
  | .readRoot => V.root ≠ none
  | .lockRoot c | .unlockTree c | .delRootKey c => V.root = some c
  | .createRoot => V.root = none
  | .linkRoot a => V.root = none ∧ m.node a = some ⟨op.key, op.value, none, none⟩
  | .insEq c | .lookEq c => OnPath op.key V c
  | .insLt c | .lookLt c | .delUnlockTree c | .delLt0 c => At V op.key c fun nd => op.key ≠ nd.key
  | .insNull c d | .lookNext c d | .delNext0 c d =>
    At V op.key c fun nd => op.key ≠ nd.key ∧ d = dir op.key nd.key
  | .insCreate c d => At V op.key c fun nd => op.key ≠ nd.key ∧ d = dir op.key nd.key ∧ nd.child d = none
  | .insLink c d a => m.node a = some ⟨op.key, op.value, none, none⟩ ∧
    At V op.key c fun nd => op.key ≠ nd.key ∧ d = dir op.key nd.key ∧ nd.child d = none
  | .insNext c d => At V op.key c fun nd => op.key ≠ nd.key ∧ d = dir op.key nd.key ∧ nd.child d ≠ none
  | .insLock c n | .insUnlock c n | .lookLock c n | .lookUnlock c n => OnPath op.key V n ∧ ∃ d, Link V c d n
  | .lookVal c => Has V c fun nd => nd.key = op.key
  | .delRootLeft c => V.root = some c ∧ Has V c fun nd => nd.key = op.key
  | .delRootRight c => V.root = some c ∧ Has V c fun nd => nd.key = op.key ∧ nd.left ≠ none
  | .delRootPickL c => V.root = some c ∧ Has V c fun nd => nd.key = op.key ∧ (nd.left = none ∨ nd.right = none)
  | .delRootPick c d => V.root = some c ∧ Has V c fun nd => nd.key = op.key ∧ nd.child d.other = none
  | .delRootWrite c p => V.root = some c ∧
    Has V c fun nd => nd.key = op.key ∧ ∃ d, nd.child d.other = none ∧ p = nd.child d
  | .delLock q d n | .delKey q d n => OnPath op.key V n ∧ Link V q d n
  | .delLt q d c => Link V q d c ∧ At V op.key c fun nd => op.key ≠ nd.key
  | .delNext q d c e => Link V q d c ∧ At V op.key c fun nd => op.key ≠ nd.key ∧ e = dir op.key nd.key
  | .delUnlockParent _ c e n => OnPath op.key V n ∧ Link V c e n
  | .delLeft q d c => Link V q d c ∧ Has V c fun nd => nd.key = op.key
  | .delRight q d c => Link V q d c ∧ Has V c fun nd => nd.key = op.key ∧ nd.left ≠ none
  | .delPickL q d c => Link V q d c ∧ Has V c fun nd => nd.key = op.key ∧ (nd.left = none ∨ nd.right = none)
  | .delPick q d c e => Link V q d c ∧ Has V c fun nd => nd.key = op.key ∧ nd.child e.other = none
  | .delWrite q d c p => Link V q d c ∧
    Has V c fun nd => nd.key = op.key ∧ ∃ e, nd.child e.other = none ∧ p = nd.child e
  | .del2UnlockTree c | .del2UnlockParent _ c | .d2Right c =>
    Has V c fun nd => nd.key = op.key ∧ nd.right ≠ none
  | .d2LockSucc c s => Has V c fun nd => nd.key = op.key ∧ nd.right = some s
  | .d2Test c q s => Descent V clear op.key c q s
  | .d2Next c q s => Descent V clear op.key c q s ∧ Has V s fun nz => nz.left ≠ none
  | .d2Lock c q s n | .d2Unlock c q s n => Descent V clear op.key c q s ∧ Has V s fun nz => nz.left = some n
  | .d2Key c q s => Descent V clear op.key c q s ∧ Has V s fun nz => nz.left = none
  | .d2SetKey c q s k => Descent V clear op.key c q s ∧ Has V s fun nz => nz.left = none ∧ k = nz.key
  | .d2Val c q s => Descent V clear op.key c q s ∧
    Copied V m c s (fun nd nz => { nd with key := nz.key }) fun _ => True
  | .d2SetVal c q s v => Descent V clear op.key c q s ∧
    Copied V m c s (fun nd nz => { nd with key := nz.key }) fun nz => v = nz.value
  | .d2Succ c q s => Descent V clear op.key c q s ∧
    Copied V m c s (fun nd nz => { nd with key := nz.key, value := nz.value }) fun _ => True
  | .d2Link c q s p => Descent V clear op.key c q s ∧
    Copied V m c s (fun nd nz => { nd with key := nz.key, value := nz.value }) fun nz => p = nz.right
  | .d2Free c s => c ≠ s
  | .crash => False
  | _ => True

/-- No thread but `t` has a pointer to `x`. -/
def Clear (σ : State) (t : Tid) (x : Addr) : Prop :=
  ∀ u ≠ t, ∀ c pc, σ.thread u = some (c, pc) → x ∉ pc.locals

/-- What holds of thread `t`, which is at `pc` in a call of `op`. -/
structure Local (V : View) (m : Mem) (clear : Addr → Prop) (op : Op) (pc : Pc) : Prop where
  /-- It is a place of this call. -/
  fits : pc.fits op
  /-- The nodes it has locked are different. -/
  nodup : pc.held.Nodup
  /-- They are in the tree, but for its own. -/
  scope : ∀ x ∈ pc.held, pc.own ≠ some x → x ∈ V.addrs
  /-- Its own node is not in the tree. -/
  own : ∀ a, pc.own = some a → a ∉ V.addrs ∧ ∃ nd, m.node a = some nd
  /-- What it knows. -/
  fact : Fact V m clear op pc

/-- The invariant: the memory stands for the tree `V`. -/
structure Inv (σ : State) (V : View) : Prop where
  /-- It is a search tree. -/
  valid : V.Valid
  /-- The root. -/
  root : σ.mem.root = V.root
  /-- The records, where no one is copying. -/
  cells : ∀ a nd, V.cell a = some nd → ∃ nm, σ.mem.node a = some nm ∧ nm.left = nd.left ∧ nm.right = nd.right ∧
    (nm = nd ∨ ∃ t c pc, σ.thread t = some (c, pc) ∧ pc.copying = some a)
  /-- The locks of the nodes. -/
  locks : ∀ a t, σ.mem.lock a = some t ↔ ∃ c pc, σ.thread t = some (c, pc) ∧ a ∈ pc.held
  /-- The lock of the tree. -/
  treeLock : ∀ t, σ.mem.treeLock = some t ↔ ∃ c pc, σ.thread t = some (c, pc) ∧ pc.hasTree
  /-- A node of one's own is no one else's. -/
  apart : ∀ t u c c' pc pc' a, σ.thread t = some (c, pc) → σ.thread u = some (c', pc') →
    pc.own = some a → pc'.own = some a → t = u
  /-- Each thread. -/
  thr : ∀ t c pc, σ.thread t = some (c, pc) → Local V σ.mem (Clear σ t) c.op pc

theorem inv_init : Inv init .leaf where
  valid := valid_leaf
  root := rfl
  cells a nd h := by simp at h
  locks a t := by simp [init, bstInit]
  treeLock t := by simp [init, bstInit]
  apart t u c c' pc pc' a h := by simp [init] at h
  thr t c pc h := by simp [init] at h

/-! ### Consequences -/

theorem Has.mem {V : View} {a : Addr} {P : Node → Prop} (h : Has V a P) : a ∈ V.addrs := by
  obtain ⟨nd, hc, -⟩ := h
  exact mem_of_cell hc

theorem Has.mono {V : View} {a : Addr} {P Q : Node → Prop} (h : Has V a P)
    (hPQ : ∀ nd, V.cell a = some nd → P nd → Q nd) : Has V a Q := by
  obtain ⟨nd, hc, hp⟩ := h
  exact ⟨nd, hc, hPQ nd hc hp⟩

theorem Link.mem {V : View} {q c : Addr} {d : Side} (h : Link V q d c) : c ∈ V.addrs := by
  obtain ⟨nd, hc, hd⟩ := h
  exact child_mem hc hd

/-- The pointer a thread wants is a child of a node it has locked, or the root. -/
theorem Fact.want_linked {V : View} {m : Mem} {clear : Addr → Prop} {op : Op} {pc : Pc}
    (h : Fact V m clear op pc) {x : Addr} (hx : pc.want = some x) :
    (∃ p ∈ pc.held, ∃ d, Link V p d x) ∨ (pc.hasTree ∧ V.root = some x) := by
  cases pc <;> simp only [Pc.want, Option.some.injEq, reduceCtorEq] at hx <;> subst hx <;>
    simp only [Fact] at h
  case lockRoot c => exact .inr ⟨rfl, h⟩
  case insLock c n => exact .inl ⟨c, by simp [Pc.held], h.2⟩
  case lookLock c n => exact .inl ⟨c, by simp [Pc.held], h.2⟩
  case delLock q d n => exact .inl ⟨q, by simp [Pc.held], d, h.2⟩
  case delUnlockParent q c e n => exact .inl ⟨c, by simp [Pc.held], e, h.2⟩
  case d2LockSucc c s =>
    exact .inl ⟨c, by simp [Pc.held], .right, h.mono fun nd _ hnd => hnd.2⟩
  case d2Lock c q s n =>
    exact .inl ⟨s, by simp only [Pc.held]; split_ifs <;> simp, .left, h.2⟩
  case delRootWrite c =>
    obtain ⟨nd, hc, -, d, -, hd⟩ := h.2
    exact .inl ⟨c, by simp [Pc.held], d, nd, hc, hd.symm⟩
  case delWrite q d c =>
    obtain ⟨nd, hc, -, e, -, he⟩ := h.2
    exact .inl ⟨c, by simp [Pc.held], e, nd, hc, he.symm⟩
  case d2Link c q s =>
    obtain ⟨nd, nz, -, hs, -, -, hp⟩ := h.2
    exact .inl ⟨s, by simp only [Pc.held]; split_ifs <;> simp, .right, nz, hs, hp.symm⟩

theorem Pc.mem_locals {pc : Pc} {x : Addr} :
    x ∈ pc.locals ↔ x ∈ pc.held ∨ pc.want = some x ∨ pc.own = some x := by
  simp only [locals, List.mem_append, Option.mem_toList, or_assoc]

theorem Pc.copying_held {pc : Pc} {a : Addr} (h : pc.copying = some a) : a ∈ pc.held := by
  cases pc <;> simp only [copying, Option.some.injEq, reduceCtorEq] at h <;> subst h <;>
    simp only [held] <;> split_ifs <;> simp

namespace Inv

variable {σ : State} {V : View} {t u : Tid} {c c' : Call} {pc pc' : Pc} {a : Addr}

/-- One lock has one owner. -/
theorem held_apart (h : Inv σ V) (ht : σ.thread t = some (c, pc)) (hu : σ.thread u = some (c', pc'))
    (ha : a ∈ pc.held) (ha' : a ∈ pc'.held) : t = u := by
  have h₁ := (h.locks a t).mpr ⟨c, pc, ht, ha⟩
  have h₂ := (h.locks a u).mpr ⟨c', pc', hu, ha'⟩
  exact Option.some.inj (h₁.symm.trans h₂)

theorem tree_apart (h : Inv σ V) (ht : σ.thread t = some (c, pc)) (hu : σ.thread u = some (c', pc'))
    (ha : pc.hasTree) (ha' : pc'.hasTree) : t = u := by
  have h₁ := (h.treeLock t).mpr ⟨c, pc, ht, ha⟩
  have h₂ := (h.treeLock u).mpr ⟨c', pc', hu, ha'⟩
  exact Option.some.inj (h₁.symm.trans h₂)

/-- What a thread reads in a node it has locked, and is not copying into, is the tree's
record. -/
theorem read (h : Inv σ V) (ht : σ.thread t = some (c, pc)) (ha : a ∈ pc.held) (hcp : pc.copying ≠ some a)
    {nd : Node} (hnd : V.cell a = some nd) : σ.mem.node a = some nd := by
  obtain ⟨nm, hnm, -, -, heq | ⟨u, c', pc', hu, hcp'⟩⟩ := h.cells a nd hnd
  · rw [hnm, heq]
  · obtain rfl := h.held_apart ht hu ha (Pc.copying_held hcp')
    rw [ht] at hu
    cases hu
    exact absurd hcp' hcp

/-- A pointer a thread has is to the tree, or to its own node. -/
theorem local_mem (h : Inv σ V) (ht : σ.thread t = some (c, pc)) (ha : a ∈ pc.locals)
    (hown : pc.own ≠ some a) : a ∈ V.addrs := by
  have hl := h.thr t c pc ht
  rcases Pc.mem_locals.mp ha with ha | ha | ha
  · exact hl.scope a ha hown
  · rcases hl.fact.want_linked ha with ⟨p, -, d, hp⟩ | ⟨-, hr⟩
    · exact hp.mem
    · exact root_mem hr
  · exact absurd ha hown

/-- A child of a node whose lock a thread has, that no one else has a pointer to, is a
pointer of no other thread. -/
theorem clear_child (h : Inv σ V) {p x : Addr} {d : Side} (hp : Link V p d x)
    (hpc : ∀ u ≠ t, ∀ c pc, σ.thread u = some (c, pc) → p ∉ pc.held ∧ x ∉ pc.held) : Clear σ t x := by
  intro u hut c pc hu hx
  obtain ⟨nd, hnd, hd⟩ := hp
  have hl := h.thr u c pc hu
  rcases Pc.mem_locals.mp hx with hx | hx | hx
  · exact (hpc u hut c pc hu).2 hx
  · rcases hl.fact.want_linked hx with ⟨p', hp', d', nd', hnd', hd'⟩ | ⟨-, hr⟩
    · obtain ⟨rfl, -⟩ := parent_unique h.valid.nodup hnd hd hnd' hd'
      exact (hpc u hut c pc hu).1 hp'
    · exact child_ne_root h.valid.nodup hnd hd hr
  · exact (hl.own x hx).1 (child_mem hnd hd)

end Inv

end SdeSystems.Bst
