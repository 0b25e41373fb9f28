import SdeSystems.Wmap.Kernel
import Mathlib.Logic.Relation

/-!
# Processes

`copy_maps` and `delete_mmaps` of `wmap.c`, and `fork`, `exit`, `wait` and `growproc` of
`proc.c`, which use them, and `dup` and `close` of `sysfile.c`. At the end the runs: an `Op` is one system call, page fault or store of
a process, or a page that the rest of the kernel takes or gives back, and `Op.run` is what it
does.
-/

namespace SdeSystems.Wmap

open Lib Function Relation

/-! ### `copy_maps` -/

/-- What `copy_maps` works on: memory and the page directory of the child, files, the child's
table, and `child_prev`. -/
structure Copy where
  /-- Memory, and the page directory of the child. -/
  space : Space
  /-- Files. -/
  fs : Fs
  /-- The child's table. -/
  mm : Mmaps
  /-- `child_prev`. -/
  prev : Option (Fin 16)

/-- The body of the loops over the pages of a region, `c` being the child's region. -/
def copyPage (shared : Bool) (parent : PageDir) (c : Fin 16) (va : ℕ) (s : Copy) : Option (Copy × Bool) :=
  match parent.pte va with
  | none => some (s, true)
  | some e =>
    let loaded := s.mm.set c { s.mm.mmaps c with nLoadedPages := (s.mm.mmaps c).nLoadedPages + 1 }
    if shared then
      (mappages s.space va ⟨e.page, true, true⟩).map fun (sp, ok) =>
        ({ s with space := sp, mm := if ok then loaded else s.mm }, ok)
    else
      match mapNew s.space va (s.space.mem.bytes e.page) true true with
      | none => none
      | some (sp, .ok) => some ({ s with space := sp, mm := loaded }, true)
      | some (sp, .noPage) => some ({ s with space := sp }, false)
      | some (sp, .noTable page) => some ({ s with space := { sp with mem := kfree sp.mem page } }, false)

/-- The child's region `c` is appended to its list. -/
def appendMap (mm : Mmaps) (prev : Option (Fin 16)) (c : Fin 16) : Option Mmaps :=
  match mm.mmapHead, prev with
  | none, _ => some { mm with mmapHead := some c, totalMmaps := mm.totalMmaps + 1 }
  | some _, some prev => some { mm with next := update mm.next prev (some c), totalMmaps := mm.totalMmaps + 1 }
  | some _, none => none

/-- One turn of the loop of `copy_maps`, for the parent's region `r`. -/
def copyRegion (parent : PageDir) (r : Region) (s : Copy) : Option (Copy × Bool) :=
  match findUnusedMmap s.mm with
  | none => some (s, false)
  | some c =>
    match dupIf s.fs r.f with
    | none => none
    | some fs =>
      let mm := { s.mm.set c { r with refcnt := 0, nLoadedPages := 0 } with next := update s.mm.next c none }
      match forPages r.addr r.stop (copyPage (has r.flags mapShared) parent c) { s with fs := fs, mm := mm } with
      | none => none
      | some (s, false) => some (s, false)
      | some (s, true) =>
        let mm := if has r.flags mapShared then s.mm.set c { s.mm.mmaps c with refcnt := 1 } else s.mm
        (appendMap mm s.prev c).map fun mm => ({ s with mm := mm, prev := some c }, true)

/-- `copy_maps`, from the given region of the parent on. -/
def copyMaps (mm : Mmaps) (parent : PageDir) : ℕ → Option (Fin 16) → Copy → Option (Copy × Bool)
  | _, none, s => some (s, true)
  | 0, some _, _ => none
  | fuel + 1, some i, s =>
    match copyRegion parent (mm.mmaps i) s with
    | none => none
    | some (s, false) => some (s, false)
    | some (s, true) => copyMaps mm parent fuel (mm.next i) s

/-! ### `delete_mmaps` -/

/-- What `delete_mmaps` works on: memory and the page directory, files, the table of the process and
that of its parent. -/
structure Deletion where
  /-- Memory and the page directory. -/
  space : Space
  /-- Files. -/
  fs : Fs
  /-- The table of the process. -/
  mm : Mmaps
  /-- The table of its parent, if it has one. -/
  parent : Option Mmaps

/-- `pmmap->refcnt--` for the parent's region at `addr`, if it is positive. -/
def decParent (pm : Mmaps) (addr : ℕ) : Option Mmaps :=
  match pm.find fun r => r.addr = addr with
  | none => none
  | some (_, none) => some pm
  | some (_, some j) =>
    some (if 0 < (pm.mmaps j).refcnt then pm.set j { pm.mmaps j with refcnt := (pm.mmaps j).refcnt - 1 } else pm)

/-- One turn of the loop of `delete_mmaps`. -/
def deleteRegion (i : Fin 16) (s : Deletion) : Option Deletion :=
  let r := s.mm.mmaps i
  match dropPages (r.backs && r.refcnt = 0) (r.refcnt = 0) r r.addr r.stop ⟨s.space, s.fs, 0⟩ with
  | none => none
  | some d =>
    match if has r.flags mapShared ∧ r.refcnt = 1 then
        match s.parent with
        | none => some none
        | some pm => (decParent pm r.addr).map some
      else some s.parent with
    | none => none
    | some parent =>
      match if r.refcnt = 0 then closeIf d.fs r.f else some d.fs with
      | none => none
      | some fs => some ⟨d.space, fs, s.mm.reset i, parent⟩

/-- The loop of `delete_mmaps` from the given region on. -/
def deleteLoop : ℕ → Option (Fin 16) → Deletion → Option Deletion
  | _, none, s => some s
  | 0, some _, _ => none
  | fuel + 1, some i, s =>
    match deleteRegion i s with
    | none => none
    | some s' => deleteLoop fuel (s.mm.next i) s'

/-- `delete_mmaps`. -/
def deleteMmaps (s : Deletion) : Option Deletion :=
  (deleteLoop 16 s.mm.mmapHead s).map fun s => { s with mm := { s.mm with mmapHead := none, totalMmaps := 0 } }

/-! ### `proc.c` -/

/-- `growproc(n)`: whether it succeeds. -/
def growproc (k : Kernel) (p : Fin 64) (n : ℤ) : Option (Kernel × Bool) :=
  let cur := k.procs p
  let grown (sz : ℕ) (r : Option (Space × ℕ)) : Option (Kernel × Bool) :=
    r.map fun (s, newsz) =>
      ({ k.setProc p { cur with pgdir := s.pgdir, sz := if newsz = 0 then sz else newsz } with mem := s.mem },
        newsz ≠ 0)
  if 0 < n then grown cur.sz (allocuvm ⟨k.mem, cur.pgdir⟩ cur.sz (u32 (cur.sz + n)))
  else if n < 0 then grown cur.sz (deallocuvm ⟨k.mem, cur.pgdir⟩ cur.sz (u32 (cur.sz + n)))
  else some (k, true)

/-- `sys_sbrk`. -/
def sysSbrk (k : Kernel) (p : Fin 64) (n : BitVec 32) : Option (Kernel × ℤ) :=
  (growproc k p n.toInt).map fun (k', ok) => (k', if ok then (k.procs p).sz else -1)

/-- The slot that `allocproc` takes. -/
def unusedProc (k : Kernel) : Option (Fin 64) := (List.finRange 64).find? fun q => (k.procs q).state = .unused

/-- The loop of `fork` that duplicates the open files. -/
def dupFiles (fs : Fs) (ofile : Fin 16 → Option ℕ) : Option Fs :=
  (List.finRange 16).foldlM (fun fs i => dupIf fs (ofile i)) fs

/-- The end of `fork`, once the child `q` has its page directory: the files and the mappings. -/
def forkMaps (k : Kernel) (p q : Fin 64) (np : Proc) (kstack : ℕ) : Option (Kernel × ℤ) :=
  let cur := k.procs p
  match dupFiles k.fs cur.ofile with
  | none => none
  | some fs =>
    let np := { np with sz := cur.sz, parent := some p, ofile := fun i => (cur.ofile i).or (np.ofile i) }
    match copyMaps cur.mm cur.pgdir 16 cur.mm.mmapHead ⟨⟨k.mem, np.pgdir⟩, fs, np.mm, none⟩ with
    | none => none
    | some (s, false) =>
      (freevm ⟨kfree s.space.mem kstack, s.space.pgdir⟩).map fun mem =>
        ({ k.setProc q { np with pgdir := s.space.pgdir, mm := s.mm, kstack := none, state := .unused } with
          mem := mem, fs := s.fs }, -1)
    | some (s, true) =>
      some ({ k.setProc q { np with pgdir := s.space.pgdir, mm := s.mm, state := .runnable } with
        mem := s.space.mem, fs := s.fs }, np.pid)

/-- `fork`. -/
def fork (k : Kernel) (p : Fin 64) : Option (Kernel × ℤ) :=
  let cur := k.procs p
  match unusedProc k with
  | none => some (k, -1)
  | some q =>
    let np := { k.procs q with pid := k.nextpid }
    let k := { k with nextpid := k.nextpid + 1 }
    match kalloc k.mem with
    | none => some (k.setProc q { np with kstack := none }, -1)
    | some (kstack, mem) =>
      let np := { np with kstack := some kstack, mm := initMmaps, state := .embryo }
      match copyuvm mem cur.pgdir cur.sz with
      | none => none
      | some (mem, none) =>
        some ({ k.setProc q { np with kstack := none, state := .unused } with mem := kfree mem kstack }, -1)
      | some (mem, some d) => forkMaps { k with mem := mem } p q { np with pgdir := d } kstack

/-- The loop of `exit` that closes the open files. -/
def closeFiles (fs : Fs) (ofile : Fin 16 → Option ℕ) : Option Fs :=
  (List.finRange 16).foldlM (fun fs i => closeIf fs (ofile i)) fs

/-- The processes with the reference counts of the parent's regions as `delete_mmaps` leaves them. -/
def withParent (k : Kernel) : Option (Fin 64) → Option Mmaps → Fin 64 → Proc
  | some q, some pm => update k.procs q { k.procs q with mm := pm }
  | _, _ => k.procs

/-- A child of `p` is passed to `initproc`. -/
def reparent (p : Fin 64) (pr : Proc) : Proc := if pr.parent = some p then { pr with parent := some 0 } else pr

/-- `exit`. -/
def exit (k : Kernel) (p : Fin 64) : Option Kernel :=
  let cur := k.procs p
  if p = 0 then none
  else
    match deleteMmaps ⟨⟨k.mem, cur.pgdir⟩, k.fs, cur.mm, cur.parent.map fun q => (k.procs q).mm⟩ with
    | none => none
    | some s =>
      match closeFiles s.fs cur.ofile with
      | none => none
      | some fs =>
        some { k with
          procs := fun q => reparent p (update (withParent k cur.parent s.parent) p { cur with
            pgdir := s.space.pgdir, mm := s.mm, ofile := fun _ => none, state := .zombie } q)
          mem := s.space.mem, fs := fs }

/-- `wait`: the first zombie child, if there is one, is freed. -/
def wait (k : Kernel) (p : Fin 64) : Option (Kernel × ℤ) :=
  match (List.finRange 64).find? fun q => (k.procs q).parent = some p ∧ (k.procs q).state = .zombie with
  | none => some (k, -1)
  | some q =>
    let pr := k.procs q
    match pr.kstack with
    | none => none
    | some kstack =>
      (freevm ⟨kfree k.mem kstack, pr.pgdir⟩).map fun mem =>
        ({ k.setProc q { pr with kstack := none, pid := 0, parent := none, state := .unused } with mem := mem },
          pr.pid)

/-! ### Descriptors -/

/-- `fdalloc(f)`: the process with the file in its first free descriptor, and the descriptor. -/
def fdalloc (cur : Proc) (f : ℕ) : Option (Proc × Fin 16) :=
  ((List.finRange 16).find? fun fd => cur.ofile fd = none).map fun fd =>
    ({ cur with ofile := update cur.ofile fd (some f) }, fd)

/-- `sys_dup`. -/
def sysDup (k : Kernel) (p : Fin 64) (fd : BitVec 32) : Option (Kernel × ℤ) :=
  match argfd (k.procs p) fd.toInt with
  | none => some (k, -1)
  | some f =>
    match fdalloc (k.procs p) f with
    | none => some (k, -1)
    | some (cur, fd) => (filedup k.fs f).map fun fs => ({ k.setProc p cur with fs := fs }, fd.val)

/-- `sys_close`. -/
def sysClose (k : Kernel) (p : Fin 64) (fd : BitVec 32) : Option (Kernel × ℤ) :=
  let cur := k.procs p
  match argfd cur fd.toInt with
  | none => some (k, -1)
  | some f =>
    (fileclose k.fs f).map fun fs =>
      ({ k.setProc p { cur with ofile := update cur.ofile (Fin.ofNat 16 fd.toInt.toNat) none } with fs := fs }, 0)

/-! ### Memory as the user sees it -/

/-- The byte a process reads at an address. -/
def Kernel.read (k : Kernel) (p : Fin 64) (va : ℕ) : Option UInt8 :=
  ((k.procs p).pgdir.pte va).bind fun e => if e.u then some (k.mem.bytes e.page (va % 4096)) else none

/-- A store of a byte by a process. -/
def store (k : Kernel) (p : Fin 64) (va : BitVec 32) (b : UInt8) : Option Kernel :=
  match (k.procs p).pgdir.pte va.toNat with
  | none => none
  | some e =>
    if e.u ∧ e.w then
      some { k with mem := k.mem.fill e.page (update (k.mem.bytes e.page) (va.toNat % 4096) b) }
    else none

/-! ### Runs -/

/-- One operation. -/
inductive Op
  | wmap (p : Fin 64) (addr length flags fd : BitVec 32)
  | wunmap (p : Fin 64) (addr : BitVec 32)
  | wpunmap (p : Fin 64) (addr length : BitVec 32)
  | fault (p : Fin 64) (addr : BitVec 32)
  | sbrk (p : Fin 64) (n : BitVec 32)
  | fork (p : Fin 64)
  | exit (p : Fin 64)
  | wait (p : Fin 64)
  | store (p : Fin 64) (va : BitVec 32) (b : UInt8)
  /-- The rest of the kernel takes a page. -/
  | take
  /-- The rest of the kernel gives a page back. -/
  | give (page : ℕ)

/-- The process that runs. -/
def Op.proc : Op → Option (Fin 64)
  | .wmap p .. | .wunmap p _ | .wpunmap p .. | .fault p _ | .sbrk p _ | .fork p | .exit p | .wait p | .store p .. =>
    some p
  | .take | .give _ => none

/-- What an operation does. -/
def Op.run (k : Kernel) : Op → Option Kernel
  | .wmap p addr length flags fd => (sysWmap k p addr length flags fd).map Prod.fst
  | .wunmap p addr => (sysWunmap k p addr).map Prod.fst
  | .wpunmap p addr length => (sysWpunmap k p addr length).map Prod.fst
  | .fault p addr => (handlePageFault k p addr).map Prod.fst
  | .sbrk p n => (sysSbrk k p n).map Prod.fst
  | .fork p => (Wmap.fork k p).map Prod.fst
  | .exit p => Wmap.exit k p
  | .wait p => (Wmap.wait k p).map Prod.fst
  | .store p va b => Wmap.store k p va b
  | .take => (kalloc k.mem).map fun (page, mem) => { k with mem := mem, kpages := page :: k.kpages }
  | .give page =>
    if page ∈ k.kpages then some { k with mem := kfree k.mem page, kpages := k.kpages.erase page } else none

/-- The operation is one of a process that can run, and it returns. -/
def Step (allowed : Kernel → Op → Prop) (k k' : Kernel) : Prop :=
  ∃ op, (∀ p, op.proc = some p → (k.procs p).state = .runnable) ∧ allowed k op ∧ op.run k = some k'

/-- `initproc`. -/
def initproc : Fin 64 := 0

/-- The slot of the first child of `initproc`. -/
def firstChild : Fin 64 := 1

/-- The first slot of `mmaps`. -/
def firstMmap : Fin 16 := 0

/-- The second one. -/
def secondMmap : Fin 16 := 1

/-- A kernel with `initproc` alone, which has one page, and `n` free pages. -/
def boot (n : ℕ) : Kernel where
  procs p :=
    { sz := 4096
      pgdir :=
        { page := 2
          tables := fun i =>
            if i = 0 then some ⟨3, fun j => if j = 0 then some ⟨4, true, true⟩ else none⟩
            else if (512 ≤ i.val ∧ i.val < 568) ∨ 1016 ≤ i.val then some ⟨1000 + i, fun _ => none⟩
            else none }
      kstack := some 1
      state := if p = 0 then .runnable else .unused
      pid := 1
      parent := none
      ofile := fun _ => none
      mm := initMmaps }
  mem := ⟨List.range' 3000 n, fun _ _ => 0, false⟩
  fs := ⟨fun _ => ⟨0, none⟩, fun _ => .regular 0 fun _ => 0⟩
  nextpid := 2
  kpages := []

/-- The states of the runs from `k₀` all of whose operations are allowed. -/
def Reachable (allowed : Kernel → Op → Prop) (k₀ k : Kernel) : Prop := ReflTransGen (Step allowed) k₀ k

/-- The operations one after the other, each of a process that can run. -/
def runAll (k : Kernel) : List Op → Option Kernel
  | [] => some k
  | op :: ops =>
    if op.proc.all fun p => (k.procs p).state = .runnable then (op.run k).bind fun k => runAll k ops else none

/-- Such a run leads to a state that is reached. -/
theorem reachable_of_runAll {allowed : Kernel → Op → Prop} {ops : List Op} {k k' : Kernel}
    (h : runAll k ops = some k') (hops : ∀ op ∈ ops, ∀ k, allowed k op) : Reachable allowed k k' := by
  induction ops generalizing k with
  | nil =>
    obtain rfl := Option.some.inj h
    exact .refl
  | cons op ops ih =>
    simp only [runAll] at h
    split at h
    · rename_i hp
      obtain ⟨k₁, hk₁, hrest⟩ := Option.bind_eq_some_iff.mp h
      have hstep : Step allowed k k₁ :=
        ⟨op, fun p hop => by simpa [hop] using hp, hops op (by simp) k, hk₁⟩
      exact .head hstep (ih hrest fun op hop => hops op (by simp [hop]))
    · cases h

end SdeSystems.Wmap
