import SdeSystems.Inodes.Links
import SdeSystems.Inodes.Handles

/-!
# The token logic of inodes and files

What a process has while it works on files: handles of inodes, locks and what it knows of the inodes it has locked,
credits for links, shares of open files. `pre` is what an operation asks for and `post` what becomes of it; `Inv` is
how the tokens of all processes and the shared state fit together.
-/

namespace SdeSystems.Inodes

open Function Lib Names

variable {ι : Type} {n m : ℕ}

/-- What a process knows of an inode that it has locked. -/
inductive Grip
  /-- Nothing. -/
  | raw
  /-- It is read in, and this is it. -/
  | loaded (d : Dinode)
  /-- It has no links, and nobody else uses it. -/
  | sole (d : Dinode)
  /-- It has been freed. -/
  | erased

/-- The tokens of a process. -/
structure Tokens (n m : ℕ) where
  /-- The inodes it uses. -/
  refs : Multiset (Handle n)
  /-- The entries of inodes that it has freed. -/
  gone : Multiset (Fin n)
  /-- The locks it has. -/
  grips : Fin n → Option Grip
  /-- The links it has counted and not written, or erased and not counted. -/
  credits : Multiset ℕ
  /-- The inode it has allocated and not linked yet, and its type. -/
  fresh : Option (ℕ × ℕ)
  /-- The open files it has a share in. -/
  files : Multiset (Fin m × Handle n)
  /-- The files that have no inode yet. -/
  blank : Multiset (Fin m)

namespace Tokens

/-- It may use the entry. -/
def Has (t : Tokens n m) (i : Fin n) (h : Handle n) : Prop := h.slot = i ∧ (h ∈ t.refs ∨ ∃ f, (f, h) ∈ t.files)

/-- It knows what the inode is. -/
def Sees (t : Tokens n m) (i : Fin n) (d : Dinode) : Prop :=
  t.grips i = some (.loaded d) ∨ t.grips i = some (.sole d)

/-- What it knows of a locked inode is changed. -/
def grip (t : Tokens n m) (i : Fin n) (g : Option Grip) : Tokens n m := { t with grips := update t.grips i g }

/-- One more handle. -/
def addRef (t : Tokens n m) (h : Handle n) : Tokens n m := { t with refs := h ::ₘ t.refs }

end Tokens

/-- A directory has its `.` and its `..`. -/
def Finished (d : Dinode) : Prop := d.type = tDir → lookup d.dir dot ≠ none ∧ lookup d.dir dotdot ≠ none

/-- The inode is read in, and `d` is it. -/
def Loads (t : Tokens n m) (i : Fin n) (d : Dinode) : Prop :=
  (∀ h, t.Has i h → h.type = d.type) ∧ (t.fresh = none → Finished d) ∧
    (∀ h type, t.Has i h → t.fresh = some (h.inum, type) → d = ⟨type, 0, []⟩) ∧
    ∀ dp d' h name, t.grips dp = some (.loaded d') → t.Has i h → IsName name →
      (∃ off, lookup d'.dir name = some (h.inum, off)) → 1 ≤ d.nlink

/-- What an entry that is written takes. -/
inductive Put (t : Tokens n m) (dp : Fin n) (d : Dinode) (h : Handle n) : Name → ℕ → Multiset ℕ → Prop
  /-- `.` of a new directory. -/
  | dot : Put t dp d h dot h.inum t.credits
  /-- `..` of a new directory. -/
  | dotdot {inum : ℕ} (hnew : d.nlink = 1) (hcredit : h.inum ∈ t.credits) : Put t dp d h dotdot inum t.credits
  /-- A name for a file. -/
  | file {name : Name} {x : Handle n} {C : Multiset ℕ} (hname : IsName name) (hx : x ∈ t.refs) (htype : x.type ≠ tDir)
      (hC : t.credits = x.inum ::ₘ C) : Put t dp d h name x.inum C
  /-- The name of a new directory. -/
  | dir {name : Name} {x : Handle n} {d' : Dinode} {C : Multiset ℕ} (hname : IsName name) (hx : x ∈ t.refs)
      (htype : x.type = tDir) (hne : x.slot ≠ dp) (hd' : t.grips x.slot = some (.loaded d'))
      (hdir : d'.dir = [some (Inodes.dot, x.inum), some (Inodes.dotdot, h.inum)]) (hnew : d'.nlink = 1)
      (hC : t.credits = h.inum ::ₘ x.inum ::ₘ C) : Put t dp d h name x.inum C

/-- What an operation asks for. -/
def pre : Op n m → Tokens n m → Prop
  | .iget inum, t => (∀ i d, t.grips i ≠ some (.sole d)) ∧
      (inum = rootIno ∧ t.fresh = none ∨ ∃ type, t.fresh = some (inum, type))
  | .idup ip, t => t.grips ip = none ∧ ∃ h ∈ t.refs, h.slot = ip
  | .ilockCheck ip, t => ∃ h, t.Has ip h
  | .acquiresleep ip, t => ∃ h, t.Has ip h
  | .load ip, t => t.grips ip = some .raw ∧ ∃ h, t.Has ip h
  | .look ip, t => (t.grips ip = some .raw ∨ ∃ d, t.grips ip = some (.loaded d)) ∧ ∃ h, t.Has ip h
  | .inum ip, t => ∃ h ∈ t.refs, h.slot = ip
  | .refs ip, t => (∃ d, t.grips ip = some (.loaded d)) ∧ ∃ h ∈ t.refs, h.slot = ip
  | .erase ip, t => (∃ d, t.grips ip = some (.sole d)) ∧ t.fresh = none
  | .invalidate ip, t => t.grips ip = some .erased
  | .releasesleep ip, t => t.grips ip = some .raw ∨ ∃ d, t.Sees ip d ∧ Finished d
  | .iunlock ip, t => (∃ d, t.grips ip = some (.loaded d) ∧ Finished d) ∧ ∃ h, t.Has ip h
  | .drop ip, t => t.grips ip = none ∧ (ip ∈ t.gone ∨ ∃ h ∈ t.refs, h.slot = ip)
  | .ninodes, _ => True
  | .mark _ type, t => type ≠ 0 ∧ t.fresh = none
  | .linkOne ip, t => (∃ d, t.grips ip = some (.loaded d)) ∧
      ∃ h ∈ t.refs, h.slot = ip ∧ ∃ type, t.fresh = some (h.inum, type)
  | .incLink ip, t => (∃ d, t.grips ip = some (.loaded d)) ∧ t.fresh = none ∧ ∃ h ∈ t.refs, h.slot = ip
  | .decLink ip, t => (∃ d, t.grips ip = some (.loaded d)) ∧ t.fresh = none ∧
      ∃ h ∈ t.refs, h.slot = ip ∧ h.inum ∈ t.credits
  | .dirlookup dp _, t => ∃ d h, t.grips dp = some (.loaded d) ∧ t.Has dp h ∧ d.type = tDir
  | .isdirempty _, _ => True
  | .putEntry dp name inum, t => t.fresh = none ∧ ∃ d h C, t.grips dp = some (.loaded d) ∧ h ∈ t.refs ∧ h.slot = dp ∧
      d.type = tDir ∧ lookup d.dir name = none ∧ Put t dp d h name inum C
  | .clearEntry dp off, t => t.fresh = none ∧ ∃ d h name x, t.grips dp = some (.loaded d) ∧ h ∈ t.refs ∧ h.slot = dp ∧
      x ∈ t.refs ∧ lookup d.dir name = some (x.inum, off) ∧ IsName name
  | .filealloc, _ => True
  | .setIp f ip, t => f ∈ t.blank ∧ t.grips ip = none ∧ t.fresh = none ∧ ∃ h ∈ t.refs, h.slot = ip
  | .fileIp f, t => ∃ h, (f, h) ∈ t.files
  | .filedup f, t => ∃ h, (f, h) ∈ t.files
  | .fileclose f, t => f ∈ t.blank ∨ ∃ h, (f, h) ∈ t.files ∧ t.grips h.slot = none
  | .panic e, _ => e = .iallocNoInodes

/-- What becomes of the tokens. -/
def post : (o : Op n m) → Tokens n m → Res o → Tokens n m → Prop
  | .iget inum, t, r, t' => ∃ h : Handle n, h.slot = r ∧ h.inum = inum ∧ (t.fresh = none → h.type = tDir) ∧
      (∀ type, t.fresh = some (inum, type) → h.type = type) ∧ t' = t.addRef h
  | .idup ip, t, _, t' => ∀ h ∈ t.refs, h.slot = ip → t' = t.addRef h
  | .ilockCheck _, t, _, t' => t' = t
  | .acquiresleep ip, t, _, t' => t.grips ip = none ∧ t' = t.grip ip (some .raw)
  | .load ip, t, _, t' => ∃ d, Loads t ip d ∧ t' = t.grip ip (some (.loaded d))
  | .look ip, t, r, t' => (∃ d, t.grips ip = some (.loaded d) ∧ r = ⟨true, d.type, d.nlink⟩ ∧ t' = t) ∨
      t.grips ip = some .raw ∧ ((r : Look).valid = false ∧ t' = t ∨
        ∃ d, r = ⟨true, d.type, d.nlink⟩ ∧ Loads t ip d ∧ t' = t.grip ip (some (.loaded d)))
  | .inum ip, t, r, t' => t' = t ∧ ∀ h ∈ t.refs, h.slot = ip → r = h.inum
  | .refs ip, t, r, t' => ∃ d, t.grips ip = some (.loaded d) ∧
      ((r : ℕ) = 1 ∧ d.nlink = 0 ∧ t' = t.grip ip (some (.sole d)) ∨ ¬ ((r : ℕ) = 1 ∧ d.nlink = 0) ∧ t' = t)
  | .erase ip, t, _, t' => ∀ h R, h.slot = ip → t.refs = h ::ₘ R →
      t' = { t.grip ip (some .erased) with refs := R, gone := ip ::ₘ t.gone }
  | .invalidate ip, t, _, t' => t' = t.grip ip (some .raw)
  | .releasesleep ip, t, _, t' => t' = t.grip ip none
  | .iunlock ip, t, _, t' => t' = t.grip ip none
  | .drop ip, t, _, t' => (ip ∈ t.gone ∧ ∀ G, t.gone = ip ::ₘ G → t' = { t with gone := G }) ∨
      ip ∉ t.gone ∧ ∀ h R, h.slot = ip → t.refs = h ::ₘ R → t' = { t with refs := R }
  | .ninodes, t, _, t' => t' = t
  | .mark inum type, t, r, t' => r = true ∧ t' = { t with fresh := some (inum, type) } ∨ r = false ∧ t' = t
  | .linkOne ip, t, _, t' => ∀ d h, t.grips ip = some (.loaded d) → h ∈ t.refs → h.slot = ip →
      t' = { t.grip ip (some (.loaded { d with nlink := 1 })) with credits := h.inum ::ₘ t.credits, fresh := none }
  | .incLink ip, t, _, t' => ∀ d h, t.grips ip = some (.loaded d) → h ∈ t.refs → h.slot = ip →
      t' = { t.grip ip (some (.loaded { d with nlink := d.nlink + 1 })) with credits := h.inum ::ₘ t.credits }
  | .decLink ip, t, _, t' => ∀ d h C, t.grips ip = some (.loaded d) → h ∈ t.refs → h.slot = ip →
      t.credits = h.inum ::ₘ C → t' = { t.grip ip (some (.loaded { d with nlink := d.nlink - 1 })) with credits := C }
  | .dirlookup dp name, t, r, t' => ∃ d, t.grips dp = some (.loaded d) ∧
      (r = none ∧ lookup d.dir name = none ∧ t' = t ∨ ∃ h off, r = some (Handle.slot h, off) ∧
        lookup d.dir name = some (h.inum, off) ∧ t' = t.addRef h)
  | .isdirempty _, t, _, t' => t' = t
  | .putEntry dp name inum, t, _, t' => ∀ d h C, t.grips dp = some (.loaded d) → h ∈ t.refs → h.slot = dp →
      Put t dp d h name inum C →
      t' = { t.grip dp (some (.loaded { d with dir := putEntry d.dir (name, inum) })) with credits := C }
  | .clearEntry dp off, t, _, t' => ∀ d h name x, t.grips dp = some (.loaded d) → h ∈ t.refs → h.slot = dp →
      x ∈ t.refs → lookup d.dir name = some (x.inum, off) →
      t' = { t.grip dp (some (.loaded { d with dir := d.dir.set off none })) with
        credits := if x.type = tDir then h.inum ::ₘ x.inum ::ₘ t.credits else x.inum ::ₘ t.credits }
  | .filealloc, t, r, t' => r = none ∧ t' = t ∨ ∃ f : Fin m, r = some f ∧ t' = { t with blank := f ::ₘ t.blank }
  | .setIp f ip, t, _, t' => ∀ h R B, h.slot = ip → t.refs = h ::ₘ R → t.blank = f ::ₘ B →
      t' = { t with refs := R, blank := B, files := (f, h) ::ₘ t.files }
  | .fileIp f, t, r, t' => t' = t ∧ ∀ h, (f, h) ∈ t.files → r = some (Handle.slot h)
  | .filedup f, t, _, t' => ∀ h, (f, h) ∈ t.files → t' = { t with files := (f, h) ::ₘ t.files }
  | .fileclose f, t, r, t' => (f ∈ t.blank ∧ r = none ∧ ∀ B, t.blank = f ::ₘ B → t' = { t with blank := B }) ∨
      f ∉ t.blank ∧ ∀ h X, t.files = (f, h) ::ₘ X →
        (r = none ∧ t' = { t with files := X } ∨
          r = some (Handle.slot h) ∧ t' = { t with files := X, refs := h ::ₘ t.refs })
  | .panic _, _, _, _ => False

/-! ### The invariant -/

section

variable [Fintype ι]

/-- All handles: those of the processes and those of the open files. -/
def handles (T : ι → Tokens n m) (oh : Fin m → Option (Handle n)) : Multiset (Handle n) :=
  total (fun p => (T p).refs) + total (held oh id)

/-- The tokens of the processes and the shared state fit together, `oh` being the handles of the open files. -/
structure Fits (s : State ι n m) (T : ι → Tokens n m) (oh : Fin m → Option (Handle n)) : Prop where
  /-- The reference counts of the cache. -/
  refs : Refs s.icache (fun k => (s.disk k).type) (handles T oh) (total fun p => (T p).gone)
  /-- The reference counts of the open files. -/
  files : Files s.ftable (total fun p => (T p).files) (total fun p => (T p).blank) oh
  /-- The link counts. -/
  links : Links s.disk (total fun p => (T p).credits)
  /-- The locks. -/
  lock (p : ι) (i : Fin n) : s.lock i = some p ↔ (T p).grips i ≠ none
  /-- Who has a lock uses the inode. -/
  backed {p : ι} {i : Fin n} : (T p).grips i ≠ none → (∃ h, (T p).Has i h) ∨ i ∈ (T p).gone
  /-- What is known of an inode is so. -/
  sees {p : ι} {i : Fin n} {d : Dinode} : (T p).Sees i d →
    (s.icache i).valid = true ∧ s.disk (s.icache i).inum = d ∧ d.type ≠ 0
  /-- The only user of an inode. -/
  sole {p : ι} {i : Fin n} {d : Dinode} : (T p).grips i = some (.sole d) →
    d.nlink = 0 ∧ (s.icache i).ref = 1 ∧ ∃ h ∈ (T p).refs, h.slot = i
  /-- The cache is written through. -/
  copy {i : Fin n} : 0 < (s.icache i).ref → (s.icache i).valid = true → (∀ p, (T p).grips i ≠ some .erased) →
    (s.icache i).type = (s.disk (s.icache i).inum).type ∧ (s.icache i).nlink = (s.disk (s.icache i).inum).nlink ∧
      (s.icache i).type ≠ 0
  /-- A new inode is empty, and nobody else has it. -/
  fresh {p : ι} {k type : ℕ} : (T p).fresh = some (k, type) → s.disk k = ⟨type, 0, []⟩ ∧ type ≠ 0 ∧
    (∀ q ≠ p, (∀ h ∈ (T q).refs, h.inum ≠ k) ∧ ∀ type', (T q).fresh ≠ some (k, type')) ∧
    ∀ f h, oh f = some h → h.inum ≠ k
  /-- A directory has `.` and `..`, where it is not in the making. -/
  dots (k : ℕ) : Finished (s.disk k) ∨ (∃ p type, (T p).fresh = some (k, type)) ∨
    ∃ p i d, (T p).Sees i d ∧ (s.icache i).inum = k

/-- The invariant. -/
def Inv (s : State ι n m) (T : ι → Tokens n m) : Prop := ∃ oh, Fits s T oh

end

end SdeSystems.Inodes
