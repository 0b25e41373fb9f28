import SdeSystems.Inodes.Machine

/-!
# The system calls on files

`ilock`, `iput`, `dirlink`, `namex` and the others of `fs.c` as programs of the operations, over them the calls of
`sysfile.c`, and what `fork` and `exit` do with files and directories. Processes make these calls in any order and
side by side. A path is looked up by its elements.
-/

namespace SdeSystems.Inodes

open Lib

variable {n m : ℕ}

/-- A piece of the kernel. -/
abbrev Code (n m : ℕ) (α : Type) := Prog (Op n m) Res α

/-- An operation. -/
abbrev call (o : Op n m) : Code n m (Res o) := Prog.call o

/-- `panic`, from which nothing returns. -/
def panic {α : Type} (e : Panic) : Code n m α := do
  let r : Empty ← call (.panic e)
  r.elim

/-! ### `fs.c` -/

/-- `ilock(ip)`. -/
def ilock (ip : Fin n) : Code n m Unit := do
  call (.ilockCheck ip)
  call (.acquiresleep ip)
  call (.load ip)

/-- The part of `iput` under the lock. -/
def freeUnlinked (ip : Fin n) : Code n m Unit := do
  let a : Look ← call (.look ip)
  if a.valid ∧ a.nlink = 0 then do
    let r : ℕ ← call (.refs ip)
    if r = 1 then do
      call (.erase ip)
      call (.invalidate ip)
    else pure ()
  else pure ()

/-- `iput(ip)`. -/
def iput (ip : Fin n) : Code n m Unit := do
  call (.acquiresleep ip)
  freeUnlinked ip
  call (.releasesleep ip)
  call (.drop ip)

/-- `iunlockput(ip)`. -/
def iunlockput (ip : Fin n) : Code n m Unit := do
  call (.iunlock ip)
  iput ip

/-- The loop of `ialloc` over the inodes that are left. -/
def iallocLoop (type : ℕ) : List ℕ → Code n m (Fin n)
  | [] => panic .iallocNoInodes
  | inum :: inums => do
    let free : Bool ← call (.mark inum type)
    if free then call (.iget inum) else iallocLoop type inums

/-- `ialloc(dev, type)`. -/
def ialloc (type : ℕ) : Code n m (Fin n) := do
  let ninodes : ℕ ← call .ninodes
  iallocLoop type (List.range' 1 (ninodes - 1))

/-- `dirlink(dp, name, inum)`: whether it returns 0. -/
def dirlink (dp : Fin n) (name : Name) (inum : ℕ) : Code n m Bool := do
  let r : Option (Fin n × ℕ) ← call (.dirlookup dp name)
  match r with
  | some (ip, _) => do
    iput ip
    pure false
  | none => do
    call (.putEntry dp name inum)
    pure true

/-- The loop of `namex` over the elements of the path. -/
def namexLoop (parent : Bool) : List Name → Fin n → Code n m (Option (Fin n × Name))
  | [], ip =>
    if parent then do
      iput ip
      pure none
    else pure (some (ip, []))
  | name :: path, ip => do
    ilock ip
    let a : Look ← call (.look ip)
    if a.type ≠ Names.tDir then do
      iunlockput ip
      pure none
    else if parent ∧ path = [] then do
      call (.iunlock ip)
      pure (some (ip, name))
    else do
      let r : Option (Fin n × ℕ) ← call (.dirlookup ip name)
      iunlockput ip
      match r with
      | none => pure none
      | some (next, _) => namexLoop parent path next

/-- What a process has open. -/
structure User (n m : ℕ) where
  /-- `cwd`. -/
  cwd : Fin n
  /-- `ofile`. -/
  ofile : List (Option (Fin m))

/-- `namex(path, nameiparent, name)`: the inode and the bytes at `name`, or 0. -/
def namex (u : User n m) (path : List UInt8) (parent : Bool) : Code n m (Option (Fin n × Name)) :=
  if path.head? = some Names.slash then do
    let ip : Fin n ← call (.iget Names.rootIno)
    namexLoop parent (Names.elements path) ip
  else do
    call (.idup u.cwd)
    namexLoop parent (Names.elements path) u.cwd

/-- `namei(path)`. -/
def namei (u : User n m) (path : List UInt8) : Code n m (Option (Fin n)) := do
  let r ← namex u path false
  pure (r.map Prod.fst)

/-- `nameiparent(path, name)`. -/
def nameiparent (u : User n m) (path : List UInt8) : Code n m (Option (Fin n × Name)) := namex u path true

/-! ### `sysfile.c` -/

/-- `bad` of `sys_link`. -/
def linkBad (ip : Fin n) : Code n m Bool := do
  ilock ip
  call (.decLink ip)
  iunlockput ip
  pure false

/-- The end of `sys_link`, once the new directory is found. -/
def linkAt (ip dp : Fin n) (name : Name) : Code n m Bool := do
  ilock dp
  let inum : ℕ ← call (.inum ip)
  let ok ← dirlink dp name inum
  iunlockput dp
  if ok then do
    iput ip
    pure true
  else linkBad ip

/-- `sys_link`: whether it returns 0. -/
def sysLink (u : User n m) (old new : List UInt8) : Code n m Bool := do
  let r ← namei u old
  match r with
  | none => pure false
  | some ip => do
    ilock ip
    let a : Look ← call (.look ip)
    if a.type = Names.tDir then do
      iunlockput ip
      pure false
    else do
      call (.incLink ip)
      call (.iunlock ip)
      let r ← nameiparent u new
      match r with
      | none => linkBad ip
      | some (dp, name) => linkAt ip dp name

/-- `ip->type == T_DIR && !isdirempty(ip)`. -/
def isFull (ip : Fin n) (type : ℕ) : Code n m Bool :=
  if type = Names.tDir then do
    let empty : Bool ← call (.isdirempty ip)
    pure (!empty)
  else pure false

/-- The end of `sys_unlink`: the entry `off` of `dp` and the link of `ip` go away. -/
def unlinkAt (dp ip : Fin n) (off type : ℕ) : Code n m Bool := do
  call (.clearEntry dp off)
  if type = Names.tDir then call (.decLink dp) else pure ()
  iunlockput dp
  call (.decLink ip)
  iunlockput ip
  pure true

/-- `sys_unlink`: whether it returns 0. -/
def sysUnlink (u : User n m) (path : List UInt8) : Code n m Bool := do
  let r ← nameiparent u path
  match r with
  | none => pure false
  | some (dp, name) => do
    ilock dp
    if name = dot ∨ name = dotdot then do
      iunlockput dp
      pure false
    else do
      let r : Option (Fin n × ℕ) ← call (.dirlookup dp name)
      match r with
      | none => do
        iunlockput dp
        pure false
      | some (ip, off) => do
        ilock ip
        let a : Look ← call (.look ip)
        if a.nlink < 1 then panic .unlinkNlink
        else do
          let full ← isFull ip a.type
          if full then do
            iunlockput ip
            iunlockput dp
            pure false
          else unlinkAt dp ip off a.type

/-- The entries `.` and `..` that `create` makes. -/
def createDots (dp ip : Fin n) : Code n m Unit := do
  call (.incLink dp)
  let inum : ℕ ← call (.inum ip)
  let ok ← dirlink ip dot inum
  if ok then do
    let inum : ℕ ← call (.inum dp)
    let ok ← dirlink ip dotdot inum
    if ok then pure () else panic .createDots
  else panic .createDots

/-- The end of `create`, which makes a new inode. -/
def createAt (dp : Fin n) (name : Name) (type : ℕ) : Code n m (Fin n) := do
  let ip ← ialloc type
  ilock ip
  call (.linkOne ip)
  if type = Names.tDir then createDots dp ip else pure ()
  let inum : ℕ ← call (.inum ip)
  let ok ← dirlink dp name inum
  if ok then do
    iunlockput dp
    pure ip
  else panic .createDirlink

/-- `create(path, type, major, minor)`: the inode, locked, or 0. -/
def create (u : User n m) (path : List UInt8) (type : ℕ) : Code n m (Option (Fin n)) := do
  let r ← nameiparent u path
  match r with
  | none => pure none
  | some (dp, name) => do
    ilock dp
    let r : Option (Fin n × ℕ) ← call (.dirlookup dp name)
    match r with
    | some (ip, _) => do
      iunlockput dp
      ilock ip
      let a : Look ← call (.look ip)
      if type = tFile ∧ a.type = tFile then pure (some ip)
      else do
        iunlockput ip
        pure none
    | none => do
      let ip ← createAt dp name type
      pure (some ip)

/-- `fileclose(f)`. -/
def fileclose (f : Fin m) : Code n m Unit := do
  let r : Option (Fin n) ← call (.fileclose f)
  match r with
  | none => pure ()
  | some ip => iput ip

/-- `fdalloc(f)`: the process with the file in its first free descriptor, and the descriptor. -/
def fdalloc (u : User n m) (f : Fin m) : Option (User n m × ℕ) :=
  (u.ofile.findIdx? Option.isNone).map fun fd => ({ u with ofile := u.ofile.set fd (some f) }, fd)

/-- The part of `sys_open` that finds the inode and locks it. -/
def openInode (u : User n m) (path : List UInt8) (omode : ℕ) : Code n m (Option (Fin n)) :=
  if omode &&& 0x200 ≠ 0 then create u path tFile
  else do
    let r ← namei u path
    match r with
    | none => pure none
    | some ip => do
      ilock ip
      let a : Look ← call (.look ip)
      if a.type = Names.tDir ∧ omode ≠ 0 then do
        iunlockput ip
        pure none
      else pure (some ip)

/-- `sys_open`: the process afterwards, and the descriptor or -1. -/
def sysOpen (u : User n m) (path : List UInt8) (omode : ℕ) : Code n m (User n m × ℤ) := do
  let r ← openInode u path omode
  match r with
  | none => pure (u, -1)
  | some ip => do
    let r : Option (Fin m) ← call .filealloc
    match r with
    | none => do
      iunlockput ip
      pure (u, -1)
    | some f =>
      match fdalloc u f with
      | none => do
        fileclose f
        iunlockput ip
        pure (u, -1)
      | some (u, fd) => do
        call (.iunlock ip)
        call (.setIp f ip)
        pure (u, fd)

/-- `sys_mkdir` with `T_DIR` and `sys_mknod` with `T_DEV`: whether it returns 0. -/
def sysMake (u : User n m) (path : List UInt8) (type : ℕ) : Code n m Bool := do
  let r ← create u path type
  match r with
  | none => pure false
  | some ip => do
    iunlockput ip
    pure true

/-- `sys_chdir`: the process afterwards, and whether it returns 0. -/
def sysChdir (u : User n m) (path : List UInt8) : Code n m (User n m × Bool) := do
  let r ← namei u path
  match r with
  | none => pure (u, false)
  | some ip => do
    ilock ip
    let a : Look ← call (.look ip)
    if a.type ≠ Names.tDir then do
      iunlockput ip
      pure (u, false)
    else do
      call (.iunlock ip)
      iput u.cwd
      pure ({ u with cwd := ip }, true)

/-- What `exec` does with the file of the program. -/
def execFile (u : User n m) (path : List UInt8) : Code n m Bool := do
  let r ← namei u path
  match r with
  | none => pure false
  | some ip => do
    ilock ip
    iunlockput ip
    pure true

/-- `argfd`. -/
def argfd (u : User n m) (fd : ℕ) : Option (Fin m) := (u.ofile[fd]?).join

/-- `sys_dup`: the process afterwards, and the descriptor or -1. -/
def sysDup (u : User n m) (fd : ℕ) : Code n m (User n m × ℤ) :=
  match argfd u fd with
  | none => pure (u, -1)
  | some f =>
    match fdalloc u f with
    | none => pure (u, -1)
    | some (u, fd) => do
      call (.filedup f)
      pure (u, fd)

/-- `sys_close`: the process afterwards, and whether it returns 0. -/
def sysClose (u : User n m) (fd : ℕ) : Code n m (User n m × Bool) :=
  match argfd u fd with
  | none => pure (u, false)
  | some f => do
    fileclose f
    pure ({ u with ofile := u.ofile.set fd none }, true)

/-- The locking of `fileread`, `filestat` and of one piece of `filewrite`, whose panic for other files is `e`. -/
def withFile (f : Fin m) (e : Panic) : Code n m Unit := do
  let r : Option (Fin n) ← call (.fileIp f)
  match r with
  | none => panic e
  | some ip => do
    ilock ip
    call (.iunlock ip)

/-- `filewrite` in `pieces` pieces. -/
def filewrite (f : Fin m) : ℕ → Code n m Unit
  | 0 => pure ()
  | pieces + 1 => do
    withFile f .filewrite
    filewrite f pieces

/-- `sys_read` and `sys_fstat`. -/
def sysRead (u : User n m) (fd : ℕ) : Code n m Unit :=
  match argfd u fd with
  | none => pure ()
  | some f => withFile f .fileread

/-- `sys_write`. -/
def sysWrite (u : User n m) (fd pieces : ℕ) : Code n m Unit :=
  match argfd u fd with
  | none => pure ()
  | some f => filewrite f pieces

/-! ### `fork` and `exit` -/

/-- The loop of `fork` over the open files. -/
def dupFiles : List (Option (Fin m)) → Code n m Unit
  | [] => pure ()
  | none :: ofile => dupFiles ofile
  | some f :: ofile => do
    call (.filedup f)
    dupFiles ofile

/-- The loop of `exit` over the open files. -/
def closeFiles : List (Option (Fin m)) → Code n m Unit
  | [] => pure ()
  | none :: ofile => closeFiles ofile
  | some f :: ofile => do
    fileclose f
    closeFiles ofile

/-! ### The machine -/

/-- A process between two calls. -/
inductive Proc (n m : ℕ)
  /-- It runs in user mode. -/
  | user (u : User n m)
  /-- It is in `fork` and has what the child gets. -/
  | forked (u v : User n m)
  /-- There is no such process. -/
  | dead

/-- A system call, with its arguments. -/
inductive SysCall
  /-- `link(old, new)`. -/
  | link (old new : List UInt8)
  /-- `unlink(path)`. -/
  | unlink (path : List UInt8)
  /-- `open(path, omode)`. -/
  | openFile (path : List UInt8) (omode : ℕ)
  /-- `mkdir(path)`. -/
  | mkdir (path : List UInt8)
  /-- `mknod(path, major, minor)`. -/
  | mknod (path : List UInt8)
  /-- `chdir(path)`. -/
  | chdir (path : List UInt8)
  /-- `exec(path, argv)`. -/
  | exec (path : List UInt8)
  /-- `dup(fd)`. -/
  | dup (fd : ℕ)
  /-- `close(fd)`. -/
  | close (fd : ℕ)
  /-- `read(fd, p, n)` and `fstat(fd, st)`. -/
  | read (fd : ℕ)
  /-- `write(fd, p, n)`, in so many pieces. -/
  | write (fd pieces : ℕ)
  /-- `fork()`. -/
  | fork
  /-- `exit()`. -/
  | exit

/-- What a system call of the process does. -/
def SysCall.code (u : User n m) : SysCall → Code n m (Proc n m)
  | .link old new => do
    let _ ← sysLink u old new
    pure (.user u)
  | .unlink path => do
    let _ ← sysUnlink u path
    pure (.user u)
  | .openFile path omode => do
    let r ← sysOpen u path omode
    pure (.user r.1)
  | .mkdir path => do
    let _ ← sysMake u path Names.tDir
    pure (.user u)
  | .mknod path => do
    let _ ← sysMake u path tDev
    pure (.user u)
  | .chdir path => do
    let r ← sysChdir u path
    pure (.user r.1)
  | .exec path => do
    let _ ← execFile u path
    pure (.user u)
  | .dup fd => do
    let r ← sysDup u fd
    pure (.user r.1)
  | .close fd => do
    let r ← sysClose u fd
    pure (.user r.1)
  | .read fd => do
    sysRead u fd
    pure (.user u)
  | .write fd pieces => do
    sysWrite u fd pieces
    pure (.user u)
  | .fork => do
    dupFiles u.ofile
    call (.idup u.cwd)
    pure (.forked u u)
  | .exit => do
    closeFiles u.ofile
    iput u.cwd
    pure .dead

/-- A process that is in user mode may start any call. -/
def Starts (b : Proc n m) (x : Code n m (Proc n m)) : Prop :=
  ∃ (u : User n m) (c : SysCall), b = .user u ∧ x = c.code u

/-- The end of `fork`: the child takes a free slot of the process table. -/
inductive Meets : Proc n m → Proc n m → Proc n m → Proc n m → Prop
  /-- The child. -/
  | fork {u v : User n m} : Meets (.forked u v) .dead (.user u) (.user v)

variable {ι : Type} [DecidableEq ι]

/-- The processes of the system, where the operations in `bars` are no part of the runs. -/
def kernel (bars : Op n m → State ι n m → Prop) : Rules ι (State ι n m) Panic (Op n m) Res (Proc n m) where
  exec := exec
  bars := bars
  start := Starts
  meet := Meets

/-- The processes and what they share. -/
abbrev Kernel (ι : Type) (n m : ℕ) := Threads ι (State ι n m) (Op n m) Res (Proc n m)

/-! ### Removed directories -/

/-- The entry `j` of the directory `d`. -/
def Entry (disk : ℕ → Dinode) (d j : ℕ) (name : Name) (inum : ℕ) : Prop :=
  (disk d).dir[j]? = some (some (name, inum))

/-- A name other than `.` and `..`. -/
def IsName (name : Name) : Prop := name ≠ dot ∧ name ≠ dotdot

/-- Some directory has a name for the inode. -/
def Named (disk : ℕ → Dinode) (inum : ℕ) : Prop := ∃ d j name, Entry disk d j name inum ∧ IsName name

/-- The operation looks up `..` in a directory that has been removed: no directory has a name for it. -/
def Stale : Op n m → State ι n m → Prop
  | .dirlookup dp name, s =>
    name = dotdot ∧ lookup (s.disk (s.icache dp).inum).dir dotdot ≠ none ∧ (s.icache dp).inum ≠ Names.rootIno ∧
      ¬ Named s.disk (s.icache dp).inum
  | _, _ => False

end SdeSystems.Inodes
