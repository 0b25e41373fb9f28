import SdeSystems.Lib.Loop
import Mathlib.Logic.Function.Basic
import Mathlib.Data.Fintype.Basic
import Mathlib.Data.Int.Notation
import Mathlib.Algebra.Group.Nat.Defs
import Mathlib.Algebra.Group.Int.Defs

/-!
# Pages and page tables

`kalloc.c` and `vm.c` of the kernel. A physical page is a number; the free list is the list of
the pages that `kalloc` can give. A page directory has 1024 page tables of 1024 entries, each
table in a page of its own. `PGSIZE` is 4096, `MMAPBASE` 0x60000000 and `KERNBASE`
0x80000000; a virtual address is a number below 2 ^ 32.

The entries of the kernel's half are the same in all page directories and refer to no page
of `kalloc`: of that half a page directory has the tables only. A function has no result where
the kernel panics or a loop of it does not end.
-/

namespace SdeSystems.Wmap

open Lib Function

/-! ### `kalloc.c` -/

/-- Physical memory and `kmem.freelist`. -/
structure Mem where
  /-- The free list. -/
  free : List ℕ
  /-- The bytes of each page. -/
  bytes : ℕ → ℕ → UInt8
  /-- History: a page that was on the free list has been freed. -/
  twice : Bool

/-- `kalloc`: a page, or 0. -/
def kalloc (m : Mem) : Option (ℕ × Mem) :=
  match m.free with
  | [] => none
  | page :: free => some (page, { m with free := free })

/-- `kfree`: the page is filled with junk and put on the free list. -/
def kfree (m : Mem) (page : ℕ) : Mem where
  free := page :: m.free
  bytes := update m.bytes page fun _ => 1
  twice := m.twice || decide (page ∈ m.free)

/-- `memset` or `memmove` to a whole page. -/
def Mem.fill (m : Mem) (page : ℕ) (content : ℕ → UInt8) : Mem := { m with bytes := update m.bytes page content }

/-! ### Page tables -/

/-- A present entry of a page table, with `PTE_W` and `PTE_U`. -/
structure Pte where
  /-- `PTE_ADDR`. -/
  page : ℕ
  /-- `PTE_W`. -/
  w : Bool
  /-- `PTE_U`. -/
  u : Bool
  deriving DecidableEq, Repr

/-- A page table. -/
structure PageTable where
  /-- The page it is in. -/
  page : ℕ
  /-- Its entries, those that are present. -/
  ptes : Fin 1024 → Option Pte

/-- A page directory. -/
structure PageDir where
  /-- The page it is in. -/
  page : ℕ
  /-- The page tables that are present. -/
  tables : Fin 1024 → Option PageTable

/-- `PDX(va)`. -/
def pdx (va : ℕ) : Fin 1024 := ⟨va / 2 ^ 22 % 1024, by omega⟩

/-- `PTX(va)`. -/
def ptx (va : ℕ) : Fin 1024 := ⟨va / 2 ^ 12 % 1024, by omega⟩

/-- The entry that `walkpgdir(pgdir, va, 0)` points to, if it is present. -/
def PageDir.pte (pd : PageDir) (va : ℕ) : Option Pte := (pd.tables (pdx va)).bind fun t => t.ptes (ptx va)

/-- A write to the entry for `va`. -/
def PageDir.setPte (pd : PageDir) (va : ℕ) (x : Option Pte) : PageDir :=
  match pd.tables (pdx va) with
  | none => pd
  | some t => { pd with tables := update pd.tables (pdx va) (some { t with ptes := update t.ptes (ptx va) x }) }

/-- Memory and one page directory. -/
structure Space where
  /-- Memory. -/
  mem : Mem
  /-- The page directory. -/
  pgdir : PageDir

/-- `PGROUNDUP(a)`. -/
def pgroundup (a : ℕ) : ℕ := (a + 4095) / 4096 * 4096 % 2 ^ 32

/-- `PGROUNDDOWN(a)`. -/
def pgrounddown (a : ℕ) : ℕ := a / 4096 * 4096

/-- The page table for an index of the directory, made if it is not there: the part of
`walkpgdir(pgdir, va, 1)` before the entry. -/
def needTable (s : Space) (i : Fin 1024) : Option Space :=
  match s.pgdir.tables i with
  | some _ => some s
  | none =>
    (kalloc s.mem).map fun (page, mem) =>
      ⟨mem.fill page fun _ => 0,
        { s.pgdir with tables := update s.pgdir.tables i (some ⟨page, fun _ => none⟩) }⟩

/-- `mappages(pgdir, va, PGSIZE, pa, perm)`, and whether it succeeds. -/
def mappages (s : Space) (va : ℕ) (e : Pte) : Option (Space × Bool) :=
  match needTable s (pdx va) with
  | none => some (s, false)
  | some s' => if (s'.pgdir.pte va).isSome then none else some ({ s' with pgdir := s'.pgdir.setPte va e }, true)

/-- What becomes of a new page for an address: it is mapped, there was none, or there was no
page for the page table and the new page is still at hand. -/
inductive Mapped
  | ok
  | noPage
  | noTable (page : ℕ)
  deriving DecidableEq

/-- `kalloc`, the page is filled, `mappages`. -/
def mapNew (s : Space) (va : ℕ) (content : ℕ → UInt8) (w u : Bool) : Option (Space × Mapped) :=
  match kalloc s.mem with
  | none => some (s, .noPage)
  | some (page, mem) =>
    (mappages { s with mem := mem.fill page content } va ⟨page, w, u⟩).map fun (s, ok) =>
      (s, if ok then .ok else .noTable page)

/-! ### Loops over pages -/

/-- `start`, `start + PGSIZE` and so on, below `stop`. -/
def pageRange (start stop : ℕ) : List ℕ := (List.range ((stop - start + 4095) / 4096)).map fun k => start + 4096 * k

/-- `for (va = start; va < stop; va += PGSIZE)`, on unsigned addresses: where an address of the
last page of all is still below `stop`, the next one is 0 and the loop does not end. -/
def forPages {σ : Type} (start stop : ℕ) (body : ℕ → σ → Option (σ × Bool)) (s : σ) : Option (σ × Bool) :=
  if start < stop ∧ 2 ^ 32 - 4096 + start % 4096 < stop then none else forEach body (pageRange start stop) s

/-! ### `vm.c` -/

/-- `deallocuvm`. The code skips the addresses of a page table that is not there, and so do
they have no entry here. -/
def deallocuvm (s : Space) (oldsz newsz : ℕ) : Option (Space × ℕ) :=
  if oldsz ≤ newsz then some (s, oldsz)
  else
    (forPages (pgroundup newsz) oldsz (fun a s =>
      match s.pgdir.pte a with
      | none => some (s, true)
      | some e => some (⟨kfree s.mem e.page, s.pgdir.setPte a none⟩, true)) s).map fun (s, _) => (s, newsz)

/-- `allocuvm`. -/
def allocuvm (s : Space) (oldsz newsz : ℕ) : Option (Space × ℕ) :=
  if 0x60000000 ≤ newsz then some (s, 0)
  else if newsz < oldsz then some (s, oldsz)
  else
    (forPages (pgroundup oldsz) newsz (fun a s =>
      match mapNew s a (fun _ => 0) true true with
      | none => none
      | some (s, .ok) => some (s, true)
      | some (s, .noPage) => (deallocuvm s newsz oldsz).map fun (s, _) => (s, false)
      | some (s, .noTable page) =>
        (deallocuvm s newsz oldsz).map fun (s, _) => ({ s with mem := kfree s.mem page }, false)) s).map
      fun (s, ok) => (s, if ok then newsz else 0)

/-- `freevm`. -/
def freevm (s : Space) : Option Mem :=
  (deallocuvm s 0x80000000 0).map fun (s, _) =>
    kfree ((List.finRange 1024).foldl (fun m i =>
      match s.pgdir.tables i with
      | none => m
      | some t => kfree m t.page) s.mem) s.pgdir.page

/-- The page tables of the kernel's half: `KERNBASE` to `KERNBASE + PHYSTOP`, and from
`DEVSPACE` on. -/
def kernelTables : List (Fin 1024) :=
  (List.finRange 1024).filter fun i => (512 ≤ i.val ∧ i.val < 568) ∨ 1016 ≤ i.val

/-- `setupkvm`: a page directory with the page tables of the kernel's half, or 0. The entries that `mappages`
puts into them are the same for every process and are left out here; where they matter, `presentPages` counts them. -/
def setupkvm (m : Mem) : Option (Mem × Option PageDir) :=
  match kalloc m with
  | none => some (m, none)
  | some (page, m) =>
    match forEach (fun i s =>
        match needTable s i with
        | none => some (s, false)
        | some s => some (s, true)) kernelTables ⟨m.fill page fun _ => 0, page, fun _ => none⟩ with
    | none => none
    | some (s, true) => some (s.mem, some s.pgdir)
    | some (s, false) => (freevm s).map fun m => (m, none)

/-- `copyuvm(pgdir, sz)`: a copy of the pages below `sz`, or 0. -/
def copyuvm (m : Mem) (pgdir : PageDir) (sz : ℕ) : Option (Mem × Option PageDir) :=
  match setupkvm m with
  | none => none
  | some (m, none) => some (m, none)
  | some (m, some d) =>
    match forPages 0 sz (fun i s =>
        match pgdir.pte i with
        | none => none
        | some e =>
          match mapNew s i (s.mem.bytes e.page) e.w e.u with
          | none => none
          | some (s, .ok) => some (s, true)
          | some (s, .noPage) => some (s, false)
          | some (s, .noTable page) => some ({ s with mem := kfree s.mem page }, false)) ⟨m, d⟩ with
    | none => none
    | some (s, true) => some (s.mem, some s.pgdir)
    | some (s, false) => (freevm s).map fun m => (m, none)

end SdeSystems.Wmap
