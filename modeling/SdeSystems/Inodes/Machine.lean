import Mathlib.Data.Fintype.Basic
import Mathlib.Data.Fin.Basic
import SdeSystems.Lib.Programs
import SdeSystems.Names.Path

/-!
# The inodes in use

The inode cache of `fs.c`, the sleep locks of its entries, the link counts, the directories and the table of open
files of `file.c`: the state that the system calls on files share, and the operations on it that are one step each.
An operation is one step where a spin lock, the lock of a buffer or the sleep lock of the inode keeps all others from
what it reads and writes; where the code lets go of the lock in between, it is two. Devices, pipes, the log and the
bytes of files are left out.
-/

namespace SdeSystems.Inodes

open Function Lib

/-- The name of a directory entry. -/
abbrev Name := List UInt8

/-- `"."`. -/
def dot : Name := [46]

/-- `".."`. -/
def dotdot : Name := [46, 46]

/-- `T_FILE`. -/
def tFile : ℕ := 2

/-- `T_DEV`. -/
def tDev : ℕ := 3

/-- The entries of a directory, those with `inum == 0` as `none`. -/
abbrev Dir := List (Option (Name × ℕ))

/-- `struct dinode`, and the entries in its blocks. -/
structure Dinode where
  /-- `type`. -/
  type : ℕ
  /-- `nlink`. -/
  nlink : ℤ
  /-- The entries of a directory. -/
  dir : Dir
deriving DecidableEq

/-- `struct inode`, less its lock. -/
structure Inode where
  /-- `inum`. -/
  inum : ℕ
  /-- `ref`. -/
  ref : ℕ
  /-- `valid`. -/
  valid : Bool
  /-- `type`. -/
  type : ℕ
  /-- `nlink`. -/
  nlink : ℤ
deriving DecidableEq

/-- `struct file`. -/
structure File (n : ℕ) where
  /-- `ref`. -/
  ref : ℕ
  /-- `ip`, where `type` is `FD_INODE`. -/
  ip : Option (Fin n)
deriving DecidableEq

/-- What processes `ι` share, with `n` entries in the cache and `m` in the table of files. -/
structure State (ι : Type) (n m : ℕ) where
  /-- `sb.ninodes`. -/
  ninodes : ℕ
  /-- The inodes on the disk. -/
  disk : ℕ → Dinode
  /-- `icache.inode`. -/
  icache : Fin n → Inode
  /-- Who has `ip->lock`. -/
  lock : Fin n → Option ι
  /-- `ftable.file`. -/
  ftable : Fin m → File n

/-- The calls of `panic`. -/
inductive Panic
  /-- `"iget: no inodes"`. -/
  | igetNoInodes
  /-- `"ialloc: no inodes"`. -/
  | iallocNoInodes
  /-- `"ilock"`. -/
  | ilock
  /-- `"ilock: no type"`. -/
  | ilockNoType
  /-- `"iunlock"`. -/
  | iunlock
  /-- `"dirlookup not DIR"`. -/
  | dirlookupNotDir
  /-- `"dirlink"`. -/
  | dirlink
  /-- `"unlink: nlink < 1"`. -/
  | unlinkNlink
  /-- `"create dots"`. -/
  | createDots
  /-- `"create: dirlink"`. -/
  | createDirlink
  /-- `"filedup"`. -/
  | filedup
  /-- `"fileclose"`. -/
  | fileclose
  /-- `"fileread"`. -/
  | fileread
  /-- `"filewrite"`. -/
  | filewrite
deriving DecidableEq

/-! ### Directories -/

/-- The loop of `dirlookup` from the entry `off` on: the inode number and the entry. -/
def lookupFrom (name : Name) : ℕ → Dir → Option (ℕ × ℕ)
  | _, [] => none
  | off, none :: dir => lookupFrom name (off + 1) dir
  | off, some (s, inum) :: dir => if s = name then some (inum, off) else lookupFrom name (off + 1) dir

/-- The entry of a name. -/
def lookup (dir : Dir) (name : Name) : Option (ℕ × ℕ) := lookupFrom name 0 dir

/-- `writei` at the end of `dirlink` fails: no entry is free, and a file gets no longer. -/
def Dir.full (dir : Dir) : Bool :=
  dir.all Option.isSome && Wmap.maxFileSize < Names.direntSize * (dir.length + 1)

/-- The end of `dirlink`: the first free entry, or a new one at the end, is written. -/
def putEntry : Dir → Name × ℕ → Dir
  | [], e => [some e]
  | none :: dir, e => some e :: dir
  | some e' :: dir, e => some e' :: putEntry dir e

/-! ### The cache -/

variable {ι : Type} {n m : ℕ}

/-- The entry that `iget` takes: that of the inode if it is cached, else the first that nobody uses. -/
def State.find (s : State ι n m) (inum : ℕ) : Option (Fin n) :=
  ((List.finRange n).find? fun i => 0 < (s.icache i).ref ∧ (s.icache i).inum = inum).or
    ((List.finRange n).find? fun i => (s.icache i).ref = 0)

/-- `ip->ref++`. -/
def State.addRef (s : State ι n m) (ip : Fin n) : State ι n m :=
  { s with icache := update s.icache ip { s.icache ip with ref := (s.icache ip).ref + 1 } }

/-- `iget(dev, inum)`, once it has found the entry. -/
def State.take (s : State ι n m) (inum : ℕ) (ip : Fin n) : State ι n m :=
  if 0 < (s.icache ip).ref then s.addRef ip
  else { s with icache := update s.icache ip { s.icache ip with inum := inum, ref := 1, valid := false } }

/-- `iupdate(ip)`. -/
def State.iupdate (s : State ι n m) (ip : Fin n) : State ι n m :=
  let c := s.icache ip
  { s with disk := update s.disk c.inum { s.disk c.inum with type := c.type, nlink := c.nlink } }

/-- `ip->nlink = nlink; iupdate(ip)`. -/
def State.setNlink (s : State ι n m) (ip : Fin n) (nlink : ℤ) : State ι n m :=
  { s with icache := update s.icache ip { s.icache ip with nlink := nlink } }.iupdate ip

/-- The entries of a directory are written. -/
def State.setDir (s : State ι n m) (ip : Fin n) (dir : Dir) : State ι n m :=
  let inum := (s.icache ip).inum
  { s with disk := update s.disk inum { s.disk inum with dir := dir } }

/-- The part of `ilock` that reads the inode. -/
def State.load (s : State ι n m) (ip : Fin n) : State ι n m :=
  let d := s.disk (s.icache ip).inum
  { s with icache := update s.icache ip { s.icache ip with valid := true, type := d.type, nlink := d.nlink } }

/-- `itrunc(ip); ip->type = 0; iupdate(ip)`. -/
def State.erase (s : State ι n m) (ip : Fin n) : State ι n m :=
  let s := s.setDir ip []
  { s with icache := update s.icache ip { s.icache ip with type := 0 } }.iupdate ip

/-- A write to an entry of the table of files. -/
def State.setFile (s : State ι n m) (f : Fin m) (x : File n) : State ι n m :=
  { s with ftable := update s.ftable f x }

/-! ### The operations -/

/-- The operations. -/
inductive Op (n m : ℕ)
  /-- `iget(dev, inum)`. -/
  | iget (inum : ℕ)
  /-- `idup(ip)`. -/
  | idup (ip : Fin n)
  /-- `if(ip == 0 || ip->ref < 1) panic("ilock")`. -/
  | ilockCheck (ip : Fin n)
  /-- `acquiresleep(&ip->lock)`. -/
  | acquiresleep (ip : Fin n)
  /-- The rest of `ilock`. -/
  | load (ip : Fin n)
  /-- What the lock protects is read. -/
  | look (ip : Fin n)
  /-- `ip->inum`. -/
  | inum (ip : Fin n)
  /-- `int r = ip->ref`. -/
  | refs (ip : Fin n)
  /-- `itrunc(ip); ip->type = 0; iupdate(ip)`. -/
  | erase (ip : Fin n)
  /-- `ip->valid = 0`. -/
  | invalidate (ip : Fin n)
  /-- `releasesleep(&ip->lock)`. -/
  | releasesleep (ip : Fin n)
  /-- `iunlock(ip)`. -/
  | iunlock (ip : Fin n)
  /-- `ip->ref--`. -/
  | drop (ip : Fin n)
  /-- `sb.ninodes`. -/
  | ninodes
  /-- One turn of the loop of `ialloc`: the inode is marked if it is free. -/
  | mark (inum type : ℕ)
  /-- `ip->nlink = 1; iupdate(ip)`. -/
  | linkOne (ip : Fin n)
  /-- `ip->nlink++; iupdate(ip)`. -/
  | incLink (ip : Fin n)
  /-- `ip->nlink--; iupdate(ip)`. -/
  | decLink (ip : Fin n)
  /-- `dirlookup(dp, name, &off)`. -/
  | dirlookup (dp : Fin n) (name : Name)
  /-- `isdirempty(ip)`. -/
  | isdirempty (ip : Fin n)
  /-- The end of `dirlink`, which writes the entry. -/
  | putEntry (dp : Fin n) (name : Name) (inum : ℕ)
  /-- `memset(&de, 0, sizeof(de)); writei(dp, (char*)&de, off, sizeof(de))`. -/
  | clearEntry (dp : Fin n) (off : ℕ)
  /-- `filealloc()`. -/
  | filealloc
  /-- `f->type = FD_INODE; f->ip = ip`. -/
  | setIp (f : Fin m) (ip : Fin n)
  /-- `f->ip`. -/
  | fileIp (f : Fin m)
  /-- `filedup(f)`. -/
  | filedup (f : Fin m)
  /-- `fileclose(f)` up to the `release`. -/
  | fileclose (f : Fin m)
  /-- `panic`. -/
  | panic (e : Panic)

/-- The fields that are read under the lock. -/
structure Look where
  /-- `valid`. -/
  valid : Bool
  /-- `type`. -/
  type : ℕ
  /-- `nlink`. -/
  nlink : ℤ

/-- What an operation returns. -/
@[reducible] def Res : Op n m → Type
  | .iget _ => Fin n
  | .look _ => Look
  | .inum _ => ℕ
  | .refs _ => ℕ
  | .ninodes => ℕ
  | .mark _ _ => Bool
  | .dirlookup _ _ => Option (Fin n × ℕ)
  | .isdirempty _ => Bool
  | .filealloc => Option (Fin m)
  | .fileIp _ => Option (Fin n)
  | .fileclose _ => Option (Fin n)
  | .panic _ => Empty
  | _ => Unit

variable [DecidableEq ι]

/-- **What an operation of the process `p` does.** -/
def exec (p : ι) : (o : Op n m) → State ι n m → Answer (State ι n m) (Res o) Panic
  | .iget inum, s =>
    match s.find inum with
    | none => .panic .igetNoInodes
    | some ip => .done ip (s.take inum ip)
  | .idup ip, s => .done () (s.addRef ip)
  | .ilockCheck ip, s => if (s.icache ip).ref < 1 then .panic .ilock else .done () s
  | .acquiresleep ip, s =>
    if s.lock ip = none then .done () { s with lock := update s.lock ip (some p) } else .wait
  | .load ip, s =>
    if (s.icache ip).valid then .done () s
    else if (s.disk (s.icache ip).inum).type = 0 then .panic .ilockNoType
    else .done () (s.load ip)
  | .look ip, s => .done ⟨(s.icache ip).valid, (s.icache ip).type, (s.icache ip).nlink⟩ s
  | .inum ip, s => .done (s.icache ip).inum s
  | .refs ip, s => .done (s.icache ip).ref s
  | .erase ip, s => .done () (s.erase ip)
  | .invalidate ip, s => .done () { s with icache := update s.icache ip { s.icache ip with valid := false } }
  | .releasesleep ip, s => .done () { s with lock := update s.lock ip none }
  | .iunlock ip, s =>
    if s.lock ip ≠ some p ∨ (s.icache ip).ref < 1 then .panic .iunlock
    else .done () { s with lock := update s.lock ip none }
  | .drop ip, s =>
    .done () { s with icache := update s.icache ip { s.icache ip with ref := (s.icache ip).ref - 1 } }
  | .ninodes, s => .done s.ninodes s
  | .mark inum type, s =>
    if (s.disk inum).type = 0 then .done true { s with disk := update s.disk inum ⟨type, 0, []⟩ } else .done false s
  | .linkOne ip, s => .done () (s.setNlink ip 1)
  | .incLink ip, s => .done () (s.setNlink ip ((s.icache ip).nlink + 1))
  | .decLink ip, s => .done () (s.setNlink ip ((s.icache ip).nlink - 1))
  | .dirlookup dp name, s =>
    if (s.icache dp).type ≠ Names.tDir then .panic .dirlookupNotDir
    else
      match lookup (s.disk (s.icache dp).inum).dir name with
      | none => .done none s
      | some (inum, off) =>
        match s.find inum with
        | none => .panic .igetNoInodes
        | some ip => .done (some (ip, off)) (s.take inum ip)
  | .isdirempty ip, s => .done (((s.disk (s.icache ip).inum).dir.drop 2).all Option.isNone) s
  | .putEntry dp name inum, s =>
    if (s.disk (s.icache dp).inum).dir.full then .panic .dirlink
    else .done () (s.setDir dp (Inodes.putEntry (s.disk (s.icache dp).inum).dir (name, inum)))
  | .clearEntry dp off, s => .done () (s.setDir dp ((s.disk (s.icache dp).inum).dir.set off none))
  | .filealloc, s =>
    match (List.finRange m).find? fun f => (s.ftable f).ref = 0 with
    | none => .done none s
    | some f => .done (some f) (s.setFile f { s.ftable f with ref := 1 })
  | .setIp f ip, s => .done () (s.setFile f { s.ftable f with ip := some ip })
  | .fileIp f, s => .done (s.ftable f).ip s
  | .filedup f, s =>
    if (s.ftable f).ref < 1 then .panic .filedup
    else .done () (s.setFile f { s.ftable f with ref := (s.ftable f).ref + 1 })
  | .fileclose f, s =>
    if (s.ftable f).ref < 1 then .panic .fileclose
    else if 1 < (s.ftable f).ref then .done none (s.setFile f { s.ftable f with ref := (s.ftable f).ref - 1 })
    else .done (s.ftable f).ip (s.setFile f ⟨0, none⟩)
  | .panic e, _ => .panic e

end SdeSystems.Inodes
