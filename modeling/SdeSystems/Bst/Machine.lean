import SdeSystems.Lib.SearchTree
import Mathlib.Logic.Relation
import Mathlib.Logic.Function.Basic
import Mathlib.Data.Int.Notation
import Mathlib.Data.Nat.Notation
import Mathlib.Data.Int.Order.Basic
import Mathlib.Algebra.Group.Nat.Defs

/-!
# The lock-coupled search tree as a machine

`bst.c` run by any number of threads. A thread inside `bst_insert`, `bst_lookup` or
`bst_delete` is a program counter with the local variables that are still live. Each
program counter stands at one access to shared memory: an acquire or a release of
`tree->lock` or of a node's lock, a read or a write of `tree->root` or of one field of
one node, a `malloc` or a `free`. What is done there is an instruction (`Instr`), and
`exec` is its meaning; the tests on local variables in between are part of the step
before. Left and right branches that mirror each other are one program counter with the
`Side` as a local variable (in `bst_delete` it is the source's `is_left`).

Mutexes give mutual exclusion. `malloc` returns a node no one has, or `NULL`; the address
of a freed node may come back. An access to a node that is not allocated, a release of a
lock that the thread does not have, and the `free` of a node that is locked have no
meaning: `exec` gives `none` there, and the thread is stuck for good (as it is at
`crash`, after following a null pointer).

A state of the concurrent machine (`State`) has the memory, the call each thread is in,
and the calls that have returned with what they returned and when. Time is the number of
steps so far, and the time a call starts at is also its name.
-/

namespace SdeSystems.Bst

open Function Relation Lib

/-- The address of a node. -/
abbrev Addr := ℕ

/-- A thread. -/
abbrev Tid := ℕ

/-- `bst_node_t`, less its mutex and the count of its acquisitions. -/
abbrev Node := Lib.Node Addr ℤ ℤ

/-- The tree, its nodes, and who has their locks. -/
structure Mem where
  /-- `tree->root`. -/
  root : Option Addr
  /-- The owner of `tree->lock`. -/
  treeLock : Option Tid
  /-- The allocated nodes. -/
  node : Addr → Option Node
  /-- The owner of a node's `lock`. -/
  lock : Addr → Option Tid
  /-- A node's `lock_count`, an `unsigned int`. -/
  lockCount : Addr → ℕ

/-- A tree fresh from `bst_init`. -/
def bstInit : Mem where
  root := none
  treeLock := none
  node _ := none
  lock _ := none
  lockCount _ := 0

/-- A call, with its arguments. -/
inductive Op where
  /-- `bst_insert(tree, key, value)`. -/
  | insert (key value : ℤ)
  /-- `bst_lookup(tree, key, &value)`. -/
  | lookup (key : ℤ)
  /-- `bst_delete(tree, key)`. -/
  | delete (key : ℤ)
  deriving DecidableEq

/-- The argument `key`. -/
def Op.key : Op → ℤ
  | .insert k _ => k
  | .lookup k => k
  | .delete k => k

/-- The argument `value` of `bst_insert`. -/
def Op.value : Op → ℤ
  | .insert _ v => v
  | _ => 0

/-- What a call leaves: the value it returns, and what `bst_lookup` wrote to `*value`. -/
structure Ret where
  /-- The returned `int`. -/
  code : ℤ
  /-- The value written. -/
  value : Option ℤ
  deriving DecidableEq

/-- `return 0`. -/
def Ret.ok : Ret := ⟨0, none⟩

/-- `return -1`. -/
def Ret.fail : Ret := ⟨-1, none⟩

/-- `return 0`, with `v` in `*value`. -/
def Ret.found (v : ℤ) : Ret := ⟨0, some v⟩

/-! ### Instructions -/

/-- One access to shared memory, and where the thread goes on. -/
inductive Instr (P : Type) where
  /-- `pthread_mutex_lock(&tree->lock)`. -/
  | lockTree (next : P)
  /-- `pthread_mutex_unlock(&tree->lock)`. -/
  | unlockTree (next : P)
  /-- A read of `tree->root`. -/
  | readRoot (next : Option Addr → P)
  /-- A write of `tree->root`. -/
  | writeRoot (p : Option Addr) (next : P)
  /-- `NODE_LOCK(a)`. -/
  | lock (a : Addr) (next : P)
  /-- `NODE_UNLOCK(a)`. -/
  | unlock (a : Addr) (next : P)
  /-- A read of `a->key`. -/
  | readKey (a : Addr) (next : ℤ → P)
  /-- A read of `a->value`. -/
  | readVal (a : Addr) (next : ℤ → P)
  /-- A read of `a->left` or `a->right`. -/
  | readChild (a : Addr) (d : Side) (next : Option Addr → P)
  /-- A write of `a->key`. -/
  | writeKey (a : Addr) (k : ℤ) (next : P)
  /-- A write of `a->value`. -/
  | writeVal (a : Addr) (v : ℤ) (next : P)
  /-- A write of `a->left` or `a->right`. -/
  | writeChild (a : Addr) (d : Side) (p : Option Addr) (next : P)
  /-- `bst_node_create(k, v)`. -/
  | create (k v : ℤ) (next : Option Addr → P)
  /-- `bst_node_free(a)`. -/
  | free (a : Addr) (next : P)
  /-- Nothing to do. -/
  | stop

/-- The memory with another record at `a`. -/
def Mem.store (m : Mem) (a : Addr) (nd : Node) : Mem := { m with node := update m.node a (some nd) }

/-- What thread `t` does at an instruction, where `ao` is what `malloc` would return. -/
def exec {P : Type} (t : Tid) (ao : Option Addr) (m : Mem) : Instr P → Option (Mem × P)
  | .lockTree next => if m.treeLock = none then some ({ m with treeLock := some t }, next) else none
  | .unlockTree next => if m.treeLock = some t then some ({ m with treeLock := none }, next) else none
  | .readRoot next => some (m, next m.root)
  | .writeRoot p next => some ({ m with root := p }, next)
  | .lock a next =>
    if (m.node a).isSome ∧ m.lock a = none then
      some ({ m with lock := update m.lock a (some t),
                     lockCount := update m.lockCount a ((m.lockCount a + 1) % 2 ^ 32) }, next)
    else none
  | .unlock a next =>
    if (m.node a).isSome ∧ m.lock a = some t then some ({ m with lock := update m.lock a none }, next)
    else none
  | .readKey a next => (m.node a).map fun nd => (m, next nd.key)
  | .readVal a next => (m.node a).map fun nd => (m, next nd.value)
  | .readChild a d next => (m.node a).map fun nd => (m, next (nd.child d))
  | .writeKey a k next => (m.node a).map fun nd => (m.store a { nd with key := k }, next)
  | .writeVal a v next => (m.node a).map fun nd => (m.store a { nd with value := v }, next)
  | .writeChild a d p next => (m.node a).map fun nd => (m.store a (nd.setChild d p), next)
  | .create k v next =>
    match ao with
    | none => some (m, next none)
    | some a =>
      if m.node a = none then
        some ({ m with node := update m.node a (some ⟨k, v, none, none⟩), lock := update m.lock a none,
                       lockCount := update m.lockCount a 0 }, next (some a))
      else none
  | .free a next =>
    if (m.node a).isSome ∧ m.lock a = none then some ({ m with node := update m.node a none }, next) else none
  | .stop => none

/-! ### The program -/

/-- Where a thread is. The names of the locals: `c` is `cur`, `q` is `parent` or
`succ_parent`, `s` is `succ`, `n` is `next` or `next_succ`, `a` is `new_node`. -/
inductive Pc where
  /-- At `pthread_mutex_lock(&tree->lock)`. -/
  | lockTree
  /-- At the test of `tree->root == NULL`. -/
  | testRoot
  /-- At the read of `cur = tree->root`. -/
  | readRoot
  /-- At `NODE_LOCK(cur)` on the root. -/
  | lockRoot (c : Addr)
  /-- At the release of `tree->lock`, before the descent. -/
  | unlockTree (c : Addr)
  /-- Insert, empty tree: at `bst_node_create`. -/
  | createRoot
  /-- Insert, empty tree: at `tree->root = new_node`. -/
  | linkRoot (a : Addr)
  /-- At the release of `tree->lock` before a `return`. -/
  | unlockTreeRet (r : Ret)
  /-- Insert: at the test `key == cur->key`. -/
  | insEq (c : Addr)
  /-- Insert: at the test `key < cur->key`. -/
  | insLt (c : Addr)
  /-- Insert: at the test of the child against `NULL`. -/
  | insNull (c : Addr) (d : Side)
  /-- Insert: at `bst_node_create`. -/
  | insCreate (c : Addr) (d : Side)
  /-- Insert: at the write of the child pointer. -/
  | insLink (c : Addr) (d : Side) (a : Addr)
  /-- Insert: at the read of `next`. -/
  | insNext (c : Addr) (d : Side)
  /-- Insert: at `NODE_LOCK(next)`. -/
  | insLock (c n : Addr)
  /-- Insert: at `NODE_UNLOCK(cur)`, before `cur = next`. -/
  | insUnlock (c n : Addr)
  /-- At `NODE_UNLOCK(cur)` before a `return`. -/
  | unlockRet (c : Addr) (r : Ret)
  /-- Lookup: at the test `key == cur->key`. -/
  | lookEq (c : Addr)
  /-- Lookup: at `*value = cur->value`. -/
  | lookVal (c : Addr)
  /-- Lookup: at the test `key < cur->key`. -/
  | lookLt (c : Addr)
  /-- Lookup: at the read of `next`. -/
  | lookNext (c : Addr) (d : Side)
  /-- Lookup: at `NODE_LOCK(next)`. -/
  | lookLock (c n : Addr)
  /-- Lookup: at `NODE_UNLOCK(cur)`, before `cur = next`. -/
  | lookUnlock (c n : Addr)
  /-- Delete, root: at the test `cur->key == key`. -/
  | delRootKey (c : Addr)
  /-- Delete, root: at the test `cur->left == NULL`. -/
  | delRootLeft (c : Addr)
  /-- Delete, root: at the test `cur->right == NULL`. -/
  | delRootRight (c : Addr)
  /-- Delete, root: at the test `cur->left != NULL` of the conditional expression. -/
  | delRootPickL (c : Addr)
  /-- Delete, root: at the read of the child that moves up. -/
  | delRootPick (c : Addr) (d : Side)
  /-- Delete, root: at the write of `tree->root`. -/
  | delRootWrite (c : Addr) (p : Option Addr)
  /-- Delete, root: at the release of `tree->lock`. -/
  | delRootUnlockTree (c : Addr)
  /-- Delete: at `NODE_UNLOCK(cur)`, before `bst_node_free(cur)`. -/
  | delUnlockFree (c : Addr)
  /-- Delete: at `bst_node_free(cur)`. -/
  | free (c : Addr)
  /-- Delete, root with two children: at the release of `tree->lock`. -/
  | del2UnlockTree (c : Addr)
  /-- Delete, another key at the root: at the release of `tree->lock`. -/
  | delUnlockTree (c : Addr)
  /-- Delete: at `key < cur->key`, at the root. -/
  | delLt0 (c : Addr)
  /-- Delete: at the read of `next`, at the root. -/
  | delNext0 (c : Addr) (d : Side)
  /-- Delete: at `NODE_LOCK(next)`. -/
  | delLock (q : Addr) (d : Side) (n : Addr)
  /-- Delete: at the test `cur->key != key`. -/
  | delKey (q : Addr) (d : Side) (c : Addr)
  /-- Delete: at `key < cur->key`, in the loop. -/
  | delLt (q : Addr) (d : Side) (c : Addr)
  /-- Delete: at the read of `next`, in the loop. -/
  | delNext (q : Addr) (d : Side) (c : Addr) (e : Side)
  /-- Delete, key not found: at `NODE_UNLOCK(parent)`. -/
  | delMiss (q c : Addr)
  /-- Delete: at `NODE_UNLOCK(parent)`, in the loop. -/
  | delUnlockParent (q c : Addr) (e : Side) (n : Addr)
  /-- Delete, key found: at the test `cur->left == NULL`. -/
  | delLeft (q : Addr) (d : Side) (c : Addr)
  /-- Delete, key found: at the test `cur->right == NULL`. -/
  | delRight (q : Addr) (d : Side) (c : Addr)
  /-- Delete: at the test `cur->left != NULL` of the conditional expression. -/
  | delPickL (q : Addr) (d : Side) (c : Addr)
  /-- Delete: at the read of `child`. -/
  | delPick (q : Addr) (d : Side) (c : Addr) (e : Side)
  /-- Delete: at the write of the parent's pointer. -/
  | delWrite (q : Addr) (d : Side) (c : Addr) (p : Option Addr)
  /-- Delete, at most one child: at `NODE_UNLOCK(parent)`. -/
  | delUnlockParent1 (q c : Addr)
  /-- Delete, two children: at `NODE_UNLOCK(parent)`. -/
  | del2UnlockParent (q c : Addr)
  /-- `delete_two_children`: at the read of `succ = cur->right`. -/
  | d2Right (c : Addr)
  /-- `delete_two_children`: at the first `NODE_LOCK(succ)`. -/
  | d2LockSucc (c s : Addr)
  /-- `delete_two_children`: at the test `succ->left != NULL`. -/
  | d2Test (c q s : Addr)
  /-- `delete_two_children`: at the read of `next_succ`. -/
  | d2Next (c q s : Addr)
  /-- `delete_two_children`: at `NODE_LOCK(next_succ)`. -/
  | d2Lock (c q s n : Addr)
  /-- `delete_two_children`: at `NODE_UNLOCK(succ_parent)`, in the loop. -/
  | d2Unlock (c q s n : Addr)
  /-- `delete_two_children`: at the read of `succ->key`. -/
  | d2Key (c q s : Addr)
  /-- `delete_two_children`: at the write of `cur->key`. -/
  | d2SetKey (c q s : Addr) (k : ℤ)
  /-- `delete_two_children`: at the read of `succ->value`. -/
  | d2Val (c q s : Addr)
  /-- `delete_two_children`: at the write of `cur->value`. -/
  | d2SetVal (c q s : Addr) (v : ℤ)
  /-- `delete_two_children`: at the read of `succ->right`. -/
  | d2Succ (c q s : Addr)
  /-- `delete_two_children`: at the write that unlinks `succ`. -/
  | d2Link (c q s : Addr) (p : Option Addr)
  /-- `delete_two_children`: at the last `NODE_UNLOCK(succ_parent)`. -/
  | d2UnlockParent (c q s : Addr)
  /-- `delete_two_children`: at `NODE_UNLOCK(succ)`. -/
  | d2UnlockSucc (c s : Addr)
  /-- `delete_two_children`: at `bst_node_free(succ)`. -/
  | d2Free (c s : Addr)
  /-- At the `return`. -/
  | ret (r : Ret)
  /-- A null pointer was followed. -/
  | crash
  deriving DecidableEq

/-- Go on with a pointer that is about to be followed. -/
def follow (next : Addr → Pc) : Option Addr → Pc
  | some n => next n
  | none => .crash

/-- The access a thread in a call of `op` is at. -/
def code (op : Op) : Pc → Instr Pc
  | .lockTree => .lockTree .testRoot
  | .testRoot => .readRoot fun p =>
      if p = none then (match op with | .insert _ _ => .createRoot | _ => .unlockTreeRet .fail) else .readRoot
  | .readRoot => .readRoot (follow .lockRoot)
  | .lockRoot c => .lock c (match op with | .delete _ => .delRootKey c | _ => .unlockTree c)
  | .unlockTree c => .unlockTree (match op with | .lookup _ => .lookEq c | _ => .insEq c)
  | .unlockTreeRet r => .unlockTree (.ret r)
  | .unlockRet c r => .unlock c (.ret r)
  -- bst_insert
  | .createRoot => .create op.key op.value fun p =>
      match p with | some a => .linkRoot a | none => .unlockTreeRet .fail
  | .linkRoot a => .writeRoot (some a) (.unlockTreeRet .ok)
  | .insEq c => .readKey c fun k => if op.key = k then .unlockRet c .fail else .insLt c
  | .insLt c => .readKey c fun k => .insNull c (if op.key < k then .left else .right)
  | .insNull c d => .readChild c d fun p => if p = none then .insCreate c d else .insNext c d
  | .insCreate c d => .create op.key op.value fun p =>
      match p with | some a => .insLink c d a | none => .unlockRet c .fail
  | .insLink c d a => .writeChild c d (some a) (.unlockRet c .ok)
  | .insNext c d => .readChild c d (follow (.insLock c))
  | .insLock c n => .lock n (.insUnlock c n)
  | .insUnlock c n => .unlock c (.insEq n)
  -- bst_lookup
  | .lookEq c => .readKey c fun k => if op.key = k then .lookVal c else .lookLt c
  | .lookVal c => .readVal c fun v => .unlockRet c (.found v)
  | .lookLt c => .readKey c fun k => .lookNext c (if op.key < k then .left else .right)
  | .lookNext c d => .readChild c d fun p =>
      match p with | some n => .lookLock c n | none => .unlockRet c .fail
  | .lookLock c n => .lock n (.lookUnlock c n)
  | .lookUnlock c n => .unlock c (.lookEq n)
  -- bst_delete, at the root
  | .delRootKey c => .readKey c fun k => if k = op.key then .delRootLeft c else .delUnlockTree c
  | .delRootLeft c => .readChild c .left fun p => if p = none then .delRootPickL c else .delRootRight c
  | .delRootRight c => .readChild c .right fun p => if p = none then .delRootPickL c else .del2UnlockTree c
  | .delRootPickL c => .readChild c .left fun p => .delRootPick c (if p ≠ none then .left else .right)
  | .delRootPick c d => .readChild c d fun p => .delRootWrite c p
  | .delRootWrite c p => .writeRoot p (.delRootUnlockTree c)
  | .delRootUnlockTree c => .unlockTree (.delUnlockFree c)
  | .delUnlockFree c => .unlock c (.free c)
  | .free c => .free c (.ret .ok)
  | .del2UnlockTree c => .unlockTree (.d2Right c)
  -- bst_delete, below the root
  | .delUnlockTree c => .unlockTree (.delLt0 c)
  | .delLt0 c => .readKey c fun k => .delNext0 c (if op.key < k then .left else .right)
  | .delNext0 c d => .readChild c d fun p =>
      match p with | some n => .delLock c d n | none => .unlockRet c .fail
  | .delLock q d n => .lock n (.delKey q d n)
  | .delKey q d c => .readKey c fun k => if k = op.key then .delLeft q d c else .delLt q d c
  | .delLt q d c => .readKey c fun k => .delNext q d c (if op.key < k then .left else .right)
  | .delNext q _ c e => .readChild c e fun p =>
      match p with | some n => .delUnlockParent q c e n | none => .delMiss q c
  | .delMiss q c => .unlock q (.unlockRet c .fail)
  | .delUnlockParent q c e n => .unlock q (.delLock c e n)
  | .delLeft q d c => .readChild c .left fun p => if p = none then .delPickL q d c else .delRight q d c
  | .delRight q d c => .readChild c .right fun p => if p = none then .delPickL q d c else .del2UnlockParent q c
  | .delPickL q d c => .readChild c .left fun p => .delPick q d c (if p ≠ none then .left else .right)
  | .delPick q d c e => .readChild c e fun p => .delWrite q d c p
  | .delWrite q d c p => .writeChild q d p (.delUnlockParent1 q c)
  | .delUnlockParent1 q c => .unlock q (.delUnlockFree c)
  | .del2UnlockParent q c => .unlock q (.d2Right c)
  -- delete_two_children
  | .d2Right c => .readChild c .right (follow (.d2LockSucc c))
  | .d2LockSucc c s => .lock s (.d2Test c c s)
  | .d2Test c q s => .readChild s .left fun p => if p ≠ none then .d2Next c q s else .d2Key c q s
  | .d2Next c q s => .readChild s .left (follow (.d2Lock c q s))
  | .d2Lock c q s n => .lock n (if q ≠ c then .d2Unlock c q s n else .d2Test c s n)
  | .d2Unlock c q s n => .unlock q (.d2Test c s n)
  | .d2Key c q s => .readKey s fun k => .d2SetKey c q s k
  | .d2SetKey c q s k => .writeKey c k (.d2Val c q s)
  | .d2Val c q s => .readVal s fun v => .d2SetVal c q s v
  | .d2SetVal c q s v => .writeVal c v (.d2Succ c q s)
  | .d2Succ c q s => .readChild s .right fun p => .d2Link c q s p
  | .d2Link c q s p =>
      if q = c then .writeChild q .right p (.d2UnlockSucc c s) else .writeChild q .left p (.d2UnlockParent c q s)
  | .d2UnlockParent c q s => .unlock q (.d2UnlockSucc c s)
  | .d2UnlockSucc c s => .unlock s (.d2Free c s)
  | .d2Free c s => .free s (.unlockRet c .ok)
  | .ret _ => .stop
  | .crash => .stop

/-! ### One call at a time -/

/-- A `malloc` that finds a node wherever there is one. -/
structure Malloc where
  /-- The node it returns. -/
  pick : Mem → Addr
  /-- No one has it. -/
  fresh : ∀ m : Mem, (∃ a, m.node a = none) → m.node (pick m) = none

/-- There are such. -/
noncomputable instance : Inhabited Malloc where
  default :=
    { pick := fun m => open Classical in if h : ∃ a, m.node a = none then h.choose else 0
      fresh := fun m h => by simpa [h] using h.choose_spec }

/-- Run a thread alone from `pc` to its `return`, in `fuel` steps at most. With `ok` false
its `malloc` returns `NULL`. -/
def runFrom (M : Malloc) (ok : Bool) (op : Op) : ℕ → Mem → Pc → Option (Mem × Ret)
  | _, m, .ret r => some (m, r)
  | 0, _, _ => none
  | fuel + 1, m, pc =>
    (exec 0 (if ok then some (M.pick m) else none) m (code op pc)).bind fun mp => runFrom M ok op fuel mp.1 mp.2

/-- Run calls one at a time, in order. -/
def runCalls (M : Malloc) (fuel : ℕ) : List (Op × Bool) → Mem → Option (Mem × List Ret)
  | [], m => some (m, [])
  | (op, ok) :: rest, m =>
    (runFrom M ok op fuel m .lockTree).bind fun mr =>
      (runCalls M fuel rest mr.1).map fun mrs => (mrs.1, mr.2 :: mrs.2)

/-- The memory spells the tree `t` from the pointer `p` on. -/
def Mem.Spells (m : Mem) : Option Addr → Tree Addr ℤ ℤ → Prop
  | p, .leaf => p = none
  | p, .node a k v l r => p = some a ∧ ∃ nd, m.node a = some nd ∧ nd.key = k ∧ nd.value = v ∧
      m.Spells nd.left l ∧ m.Spells nd.right r

/-- The key/value contents of the tree, in order. -/
def Mem.Contents (m : Mem) (l : List (ℤ × ℤ)) : Prop := ∃ t, m.Spells m.root t ∧ t.toList = l

/-! ### Many threads -/

/-- A call, with the time it started. -/
structure Call where
  /-- The call. -/
  op : Op
  /-- When it began. -/
  start : ℕ
  deriving DecidableEq

/-- A call that has returned. -/
structure Done where
  /-- The call. -/
  call : Call
  /-- What it returned. -/
  ret : Ret
  /-- When it returned. -/
  finish : ℕ
  deriving DecidableEq

/-- A state of the machine. -/
structure State where
  /-- The memory. -/
  mem : Mem
  /-- The call a thread is in, and where. -/
  thread : Tid → Option (Call × Pc)
  /-- The number of steps so far. -/
  now : ℕ
  /-- The calls that have returned. -/
  completed : List Done
  /-- The calls (by their start) whose `malloc` returned `NULL`. -/
  failed : List ℕ

/-- After `bst_init`, with no call yet. -/
def init : State where
  mem := bstInit
  thread _ := none
  now := 0
  completed := []
  failed := []

/-- The instruction is a `malloc` that returns `NULL`. -/
def Instr.mallocFails {P : Type} (ao : Option Addr) : Instr P → Bool
  | .create _ _ _ => ao.isNone
  | _ => false

/-- The state after thread `t`, in the call `c`, has gone from `pc` to `pc'`. -/
def State.move (σ : State) (t : Tid) (c : Call) (pc : Pc) (ao : Option Addr) (m' : Mem) (pc' : Pc) : State where
  mem := m'
  thread := update σ.thread t (some (c, pc'))
  now := σ.now + 1
  completed := σ.completed
  failed := if (code c.op pc).mallocFails ao then c.start :: σ.failed else σ.failed

/-- One step of one thread. -/
inductive Step : State → State → Prop
  /-- A thread that is in no call begins one. -/
  | call {σ : State} (t : Tid) (op : Op) (h : σ.thread t = none) :
    Step σ { σ with thread := update σ.thread t (some (⟨op, σ.now⟩, .lockTree)), now := σ.now + 1 }
  /-- A thread does the access it is at. -/
  | run {σ : State} (t : Tid) (c : Call) (pc : Pc) (ao : Option Addr) (m' : Mem) (pc' : Pc)
    (h : σ.thread t = some (c, pc)) (he : exec t ao σ.mem (code c.op pc) = some (m', pc')) :
    Step σ (σ.move t c pc ao m' pc')
  /-- A call returns. -/
  | ret {σ : State} (t : Tid) (c : Call) (r : Ret) (h : σ.thread t = some (c, .ret r)) :
    Step σ { σ with
      thread := update σ.thread t none
      now := σ.now + 1
      completed := ⟨c, r, σ.now⟩ :: σ.completed }

/-- The states of all runs. -/
def Reachable (σ : State) : Prop := ReflTransGen Step init σ

/-- What a scheduler chooses. -/
inductive Move where
  /-- Thread `t` begins a call. -/
  | call (t : Tid) (op : Op)
  /-- Thread `t` does its access, and `ao` is what `malloc` would return. -/
  | run (t : Tid) (ao : Option Addr)
  /-- Thread `t` returns. -/
  | ret (t : Tid)

/-- The state after a move, if the thread can make it. -/
def State.next (σ : State) : Move → Option State
  | .call t op =>
    match σ.thread t with
    | none => some { σ with thread := update σ.thread t (some (⟨op, σ.now⟩, .lockTree)), now := σ.now + 1 }
    | some _ => none
  | .run t ao =>
    match σ.thread t with
    | some (c, pc) => (exec t ao σ.mem (code c.op pc)).map fun mp => σ.move t c pc ao mp.1 mp.2
    | none => none
  | .ret t =>
    match σ.thread t with
    | some (c, .ret r) =>
      some { σ with thread := update σ.thread t none, now := σ.now + 1, completed := ⟨c, r, σ.now⟩ :: σ.completed }
    | _ => none

/-- The state after a schedule. -/
def State.play (σ : State) : List Move → Option State
  | [] => some σ
  | mv :: mvs => (σ.next mv).bind fun σ' => σ'.play mvs

theorem step_of_next {σ σ' : State} {mv : Move} (h : σ.next mv = some σ') : Step σ σ' := by
  cases mv with
  | call t op =>
    simp only [State.next] at h
    split at h
    · rename_i ht
      cases h
      exact .call t op ht
    · cases h
  | run t ao =>
    simp only [State.next] at h
    split at h
    · rename_i c pc ht
      obtain ⟨⟨m', pc'⟩, he, rfl⟩ := Option.map_eq_some_iff.mp h
      exact .run t c pc ao m' pc' ht he
    · cases h
  | ret t =>
    simp only [State.next] at h
    split at h
    · rename_i c r ht
      cases h
      exact .ret t c r ht
    · cases h

/-- A schedule is a run. -/
theorem steps_of_play {σ σ' : State} {mvs : List Move} (h : σ.play mvs = some σ') : ReflTransGen Step σ σ' := by
  induction mvs generalizing σ with
  | nil =>
    cases h
    exact .refl
  | cons mv mvs ih =>
    obtain ⟨σ₁, h₁, h₂⟩ := Option.bind_eq_some_iff.mp h
    exact .head (step_of_next h₁) (ih h₂)

end SdeSystems.Bst
