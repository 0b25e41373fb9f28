import SdeSystems.Wmap.Files
import SdeSystems.Wmap.Regions

/-!
# The system calls

`wmap.c` and the parts of `proc.c`, `sysproc.c` and `trap.c` it works with: the system calls
`wmap`, `wunmap`, `wpunmap`, `getwmapinfo` and `getpgdirinfo`, the page fault handler, `fork`,
`exit`, `wait` and `sbrk`, on a kernel with its processes, memory and files.

The arguments of a system call are those that `argint` has fetched. `initproc` is process 0. The
states `RUNNABLE`, `RUNNING` and `SLEEPING` are one, since the scheduler is not part of this. A
process whose page fault could not be handled is marked killed and exits before it runs
again; here it may go on, which gives more runs.
-/

namespace SdeSystems.Wmap

open Lib Function

/-- `enum procstate`. -/
inductive ProcState
  | unused
  | embryo
  | runnable
  | zombie
  deriving DecidableEq, Repr

/-- `struct proc`. -/
structure Proc where
  /-- `sz`. -/
  sz : ℕ
  /-- `pgdir`, of no meaning where `state` is `UNUSED`. -/
  pgdir : PageDir
  /-- `kstack`. -/
  kstack : Option ℕ
  /-- `state`. -/
  state : ProcState
  /-- `pid`. -/
  pid : ℕ
  /-- `parent`. -/
  parent : Option (Fin 64)
  /-- `ofile`. -/
  ofile : Fin 16 → Option ℕ
  /-- `mmaps`, `mmap_head` and `total_mmaps`. -/
  mm : Mmaps

/-- The kernel. -/
structure Kernel where
  /-- `ptable.proc`. -/
  procs : Fin 64 → Proc
  /-- Memory. -/
  mem : Mem
  /-- Files. -/
  fs : Fs
  /-- `nextpid`. -/
  nextpid : ℕ
  /-- The pages that the rest of the kernel has, for its pipes. -/
  kpages : List ℕ

/-- A write to the fields of a process. -/
def Kernel.setProc (k : Kernel) (p : Fin 64) (pr : Proc) : Kernel := { k with procs := update k.procs p pr }

/-- `if (f) fileclose(f)`. -/
def closeIf (fs : Fs) : Option ℕ → Option Fs
  | none => some fs
  | some f => fileclose fs f

/-- `f ? filedup(f) : 0`. -/
def dupIf (fs : Fs) : Option ℕ → Option Fs
  | none => some fs
  | some f => filedup fs f

/-! ### `wmap` -/

/-- `argfd`: the open file of a descriptor, if there is one. -/
def argfd (cur : Proc) (fd : ℤ) : Option ℕ :=
  if h : 0 ≤ fd ∧ fd < 16 then cur.ofile ⟨fd.toNat, by omega⟩ else none

/-- `sys_wmap` after the arguments are there. -/
def placeMap (k : Kernel) (p : Fin 64) (addr : ℕ) (length : ℤ) (flags : BitVec 32) (fd : ℤ) (f : Option ℕ) :
    Option (Kernel × ℤ) :=
  let cur := k.procs p
  if !validateInput addr length flags f then some (k, -1)
  else if 16 ≤ cur.mm.totalMmaps then (closeIf k.fs f).map fun fs => ({ k with fs := fs }, -1)
  else
    match if has flags mapFixed then fixAddrPlaceMmap cur.mm addr length else findAddrPlaceMmap cur.mm length with
    | none => none
    | some (_, none) => (closeIf k.fs f).map fun fs => ({ k with fs := fs }, -1)
    | some (mm, some m) =>
      let mm := mm.set m ⟨(mm.mmaps m).addr, length, flags, fd, f, 0, 0⟩
      some (k.setProc p { cur with mm := { mm with totalMmaps := mm.totalMmaps + 1 } }, (mm.mmaps m).addr)

/-- `sys_wmap`. -/
def sysWmap (k : Kernel) (p : Fin 64) (addr length flags fd : BitVec 32) : Option (Kernel × ℤ) :=
  match argfd (k.procs p) fd.toInt with
  | none => placeMap k p addr.toNat length.toInt flags (-1) none
  | some f =>
    match filedup k.fs f with
    | none => none
    | some fs => placeMap { k with fs := fs } p addr.toNat length.toInt flags fd.toInt (some f)

/-! ### Unmapping -/

/-- What the loops that unmap pages work on: memory, the page directory, files, and the number of
pages unmapped so far. -/
structure Drop where
  /-- Memory and the page directory. -/
  space : Space
  /-- Files. -/
  fs : Fs
  /-- How many pages have been unmapped. -/
  dropped : ℤ

/-- The mapping is shared and of a file: its pages are written back. -/
def Region.backs (r : Region) : Bool := !has r.flags mapAnonymous && has r.flags mapShared && r.f.isSome

/-- The write-back of the page at `va`. -/
def writeBack (r : Region) (va page : ℕ) (s : Drop) : Option Fs :=
  match r.f with
  | none => some s.fs
  | some f => (writeToFile s.fs f (s.space.mem.bytes page) (u32 (va - r.addr)) 4096).map Prod.fst

/-- The body of the loops that unmap pages: the page at `va`, if it is there, is written back if
`back`, freed if `free`, and its entry is cleared. -/
def dropPage (back free : Bool) (r : Region) (va : ℕ) (s : Drop) : Option (Drop × Bool) :=
  match s.space.pgdir.pte va with
  | none => some (s, true)
  | some e =>
    match if back then writeBack r va e.page s else some s.fs with
    | none => none
    | some fs =>
      some (⟨⟨if free then kfree s.space.mem e.page else s.space.mem, s.space.pgdir.setPte va none⟩, fs,
        s.dropped + 1⟩, true)

/-- The loop over the pages from `start` to `stop`. -/
def dropPages (back free : Bool) (r : Region) (start stop : ℕ) (s : Drop) : Option Drop :=
  (forPages start stop (dropPage back free r) s).map Prod.fst

/-- `remove_map(addr)`. -/
def removeMap (k : Kernel) (p : Fin 64) (addr : ℕ) : Option (Kernel × ℤ) :=
  let cur := k.procs p
  match cur.mm.find fun r => r.addr = addr with
  | none => none
  | some (_, none) => some (k, -1)
  | some (prev, some i) =>
    let r := cur.mm.mmaps i
    match dropPages r.backs (r.refcnt = 0) r r.addr r.stop ⟨⟨k.mem, cur.pgdir⟩, k.fs, 0⟩ with
    | none => none
    | some s =>
      match if r.refcnt = 0 then closeIf s.fs r.f else some s.fs with
      | none => none
      | some fs =>
        some ({ k.setProc p { cur with pgdir := s.space.pgdir, mm := unlink cur.mm prev i } with
          mem := s.space.mem, fs := fs }, 0)

/-- `sys_wunmap`. -/
def sysWunmap (k : Kernel) (p : Fin 64) (addr : BitVec 32) : Option (Kernel × ℤ) :=
  if addr.toNat % 4096 ≠ 0 then some (k, -1)
  else (removeMap k p addr.toNat).map fun (k, r) => (k, if r < 0 then -1 else 0)

/-- `count_loaded_pages`. -/
def countLoadedPages (pd : PageDir) (start stop : ℕ) : Option ℤ :=
  (forPages start stop (fun va n => some (if (pd.pte va).isSome then n + 1 else n, true)) (0 : ℤ)).map Prod.fst

/-- The end of `sys_wpunmap`: the region `i` is shrunk or split, and the table and the files
afterwards; no table where there is no slot for the second part. -/
def shrink (mm : Mmaps) (pd : PageDir) (fs : Fs) (i : Fin 16) (addr : ℕ) (length : ℤ) :
    Option (Option (Mmaps × Fs)) :=
  let r := mm.mmaps i
  if addr = r.addr then
    some (some (mm.set i { r with addr := u32 (addr + length), length := i32 (r.length - length) }, fs))
  else if u32 (addr + length) = r.stop then
    some (some (mm.set i { r with length := i32 (r.length - length) }, fs))
  else
    match findUnusedMmap mm with
    | none => some none
    | some j =>
      let newAddr := u32 (addr + length)
      let newLength := i32 (r.addr + r.length - newAddr)
      let oldLength := i32 (addr - r.addr)
      match dupIf fs r.f, countLoadedPages pd newAddr (u32 (newAddr + newLength)),
        countLoadedPages pd r.addr (u32 (r.addr + oldLength)) with
      | some fs, some newLoaded, some oldLoaded =>
        let mm := mm.set i { r with length := oldLength, nLoadedPages := oldLoaded }
        let mm := mm.set j { r with addr := newAddr, length := newLength, nLoadedPages := newLoaded }
        some (some ({ mm with
          next := update (update mm.next j (mm.next i)) i (some j), totalMmaps := mm.totalMmaps + 1 }, fs))
      | _, _, _ => none

/-- `sys_wpunmap`. -/
def sysWpunmap (k : Kernel) (p : Fin 64) (addr length : BitVec 32) : Option (Kernel × ℤ) :=
  let cur := k.procs p
  let stop := u32 (addr.toNat + length.toInt)
  if stop % 4096 ≠ 0 then some (k, -1)
  else if length.toInt ≤ 0 then some (k, -1)
  else if addr.toNat % 4096 ≠ 0 then some (k, -1)
  else
    match cur.mm.find fun r => r.addr ≤ addr.toNat ∧ stop ≤ r.stop with
    | none => none
    | some (_, none) => some (k, -1)
    | some (_, some i) =>
      let r := cur.mm.mmaps i
      match dropPages r.backs true r addr.toNat stop ⟨⟨k.mem, cur.pgdir⟩, k.fs, 0⟩ with
      | none => none
      | some s =>
        let mm := cur.mm.set i { r with nLoadedPages := r.nLoadedPages - s.dropped }
        match shrink mm s.space.pgdir s.fs i addr.toNat length.toInt with
        | none => none
        | some none =>
          some ({ k.setProc p { cur with pgdir := s.space.pgdir, mm := mm } with
            mem := s.space.mem, fs := s.fs }, -1)
        | some (some (mm, fs)) =>
          some ({ k.setProc p { cur with pgdir := s.space.pgdir, mm := mm } with mem := s.space.mem, fs := fs }, 0)

/-! ### Page faults -/

/-- The read of a file into a page that has just been mapped: the page and the inode afterwards,
and whether the read succeeds. -/
def readPage (m : Mem) (fs : Fs) (f page off : ℕ) : Option (Mem × Fs × Bool) :=
  match (fs.files f).ip with
  | none => none
  | some ip =>
    match readi (fs.inodes ip) off 4096 with
    | none => none
    | some (inode, none) => some (m, { fs with inodes := update fs.inodes ip inode }, false)
    | some (inode, some bytes) =>
      some (m.fill page fun x => bytes.getD x (m.bytes page x), { fs with inodes := update fs.inodes ip inode }, true)

/-- `handle_page_fault`. -/
def handlePageFault (k : Kernel) (p : Fin 64) (addr : BitVec 32) : Option (Kernel × ℤ) :=
  let cur := k.procs p
  let va := pgrounddown addr.toNat
  match cur.mm.find fun r => r.addr ≤ va ∧ va < r.stop with
  | none => none
  | some (_, none) => some (k, -1)
  | some (_, some i) =>
    let r := cur.mm.mmaps i
    match mapNew ⟨k.mem, cur.pgdir⟩ va (fun _ => 0) true true with
    | none => none
    | some (s, .noPage) => some ({ k.setProc p { cur with pgdir := s.pgdir } with mem := s.mem }, -1)
    | some (s, .noTable page) => some ({ k.setProc p { cur with pgdir := s.pgdir } with mem := kfree s.mem page }, -1)
    | some (s, .ok) =>
      let loaded := cur.mm.set i { r with nLoadedPages := r.nLoadedPages + 1 }
      match has r.flags mapAnonymous, r.f, s.pgdir.pte va with
      | false, some f, some e =>
        match readPage s.mem k.fs f e.page (u32 (va - r.addr)) with
        | none => none
        | some (mem, fs, ok) =>
          some ({ k.setProc p { cur with pgdir := s.pgdir, mm := if ok then loaded else cur.mm } with
            mem := mem, fs := fs }, if ok then 0 else -1)
      | _, _, _ => some ({ k.setProc p { cur with pgdir := s.pgdir, mm := loaded } with mem := s.mem }, 0)

/-! ### What a process is told about its mappings -/

/-- `struct wmapinfo`, with the part of its arrays that is filled in. -/
structure WmapInfo where
  /-- `total_mmaps`. -/
  totalMmaps : ℤ
  /-- `addr`. -/
  addr : List ℤ
  /-- `length`. -/
  length : List ℤ
  /-- `flags`. -/
  flags : List (BitVec 32)
  /-- `fd`. -/
  fd : List ℤ
  /-- `refcnt`. -/
  refcnt : List ℤ
  /-- `n_loaded_pages`. -/
  nLoadedPages : List ℤ

/-- The regions from the given one on, `n` of them at most. -/
def regionsFrom (mm : Mmaps) : ℕ → Option (Fin 16) → List Region
  | n + 1, some i => mm.mmaps i :: regionsFrom mm n (mm.next i)
  | _, _ => []

/-- `sys_getwmapinfo`. -/
def sysGetwmapinfo (cur : Proc) : WmapInfo :=
  let regions := regionsFrom cur.mm 16 cur.mm.mmapHead
  { totalMmaps := cur.mm.totalMmaps
    addr := regions.map fun r => i32 r.addr
    length := regions.map Region.length
    flags := regions.map Region.flags
    fd := regions.map Region.fd
    refcnt := regions.map Region.refcnt
    nLoadedPages := regions.map Region.nLoadedPages }

/-- `struct pgdirinfo`, with the part of its arrays that is filled in. -/
structure PgdirInfo where
  /-- `n_upages`. -/
  nUpages : ℕ
  /-- `va`. -/
  va : List ℕ
  /-- `pa`. -/
  pa : List ℕ

/-- The user pages that `sys_getpgdirinfo` counts, with their addresses. -/
def userPages (pd : PageDir) : List (ℕ × ℕ) :=
  (pageRange 0 0x80000000).filterMap fun va => (pd.pte va).bind fun e => if e.u then some (va, e.page) else none

/-- `sys_getpgdirinfo`. -/
def sysGetpgdirinfo (cur : Proc) : PgdirInfo where
  nUpages := (userPages cur.pgdir).length
  va := ((userPages cur.pgdir).take 32).map Prod.fst
  pa := ((userPages cur.pgdir).take 32).map Prod.snd

end SdeSystems.Wmap
