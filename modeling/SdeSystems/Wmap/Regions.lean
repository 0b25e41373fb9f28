import SdeSystems.Lib.SlotList
import SdeSystems.Wmap.Memory

/-!
# The table of mappings

The mappings of a process: the slots of `mmaps[]`, the list through them from `mmap_head` on,
and `total_mmaps`. The `next` of the regions stands beside them, and a pointer to a region is
its slot. A loop along the list has no result where the list goes round.

Addresses are unsigned 32-bit numbers and lengths signed ones; `u32` and `i32` are
the wrap-around of their sums.
-/

namespace SdeSystems.Wmap

open Lib Function

/-- The unsigned 32-bit value of a sum. -/
def u32 (x : ℤ) : ℕ := (x % 2 ^ 32).toNat

/-- The signed 32-bit value of a sum. -/
def i32 (x : ℤ) : ℤ := (x + 2 ^ 31) % 2 ^ 32 - 2 ^ 31

/-- `MAP_PRIVATE`. -/
def mapPrivate : BitVec 32 := 1

/-- `MAP_SHARED`. -/
def mapShared : BitVec 32 := 2

/-- `MAP_ANONYMOUS`. -/
def mapAnonymous : BitVec 32 := 4

/-- `MAP_FIXED`. -/
def mapFixed : BitVec 32 := 8

/-- `flags & flag`. -/
def has (flags flag : BitVec 32) : Bool := flags &&& flag ≠ 0

/-- `struct mmap_region`, less its `next`. -/
structure Region where
  /-- `addr`. -/
  addr : ℕ
  /-- `length`. -/
  length : ℤ
  /-- `flags`. -/
  flags : BitVec 32
  /-- `fd`. -/
  fd : ℤ
  /-- `f`. -/
  f : Option ℕ
  /-- `refcnt`. -/
  refcnt : ℤ
  /-- `n_loaded_pages`. -/
  nLoadedPages : ℤ
  deriving DecidableEq

/-- `(uint)(mmap->addr + mmap->length)`. -/
def Region.stop (r : Region) : ℕ := u32 (r.addr + r.length)

/-- `init_one_mmap`. -/
def initOneMmap : Region := ⟨2 ^ 32 - 1, -1, -1, -1, none, 0, 0⟩

/-- The part of `struct proc` that is about mappings. -/
structure Mmaps where
  /-- `mmaps`. -/
  mmaps : Fin 16 → Region
  /-- `next` of the regions. -/
  next : Fin 16 → Option (Fin 16)
  /-- `mmap_head`. -/
  mmapHead : Option (Fin 16)
  /-- `total_mmaps`. -/
  totalMmaps : ℤ

/-- `init_mmaps`. -/
def initMmaps : Mmaps := ⟨fun _ => initOneMmap, fun _ => none, none, 0⟩

/-- A write to the fields of a region. -/
def Mmaps.set (mm : Mmaps) (i : Fin 16) (r : Region) : Mmaps := { mm with mmaps := update mm.mmaps i r }

/-- `init_one_mmap(&mmaps[i])`. -/
def Mmaps.reset (mm : Mmaps) (i : Fin 16) : Mmaps :=
  { mm with mmaps := update mm.mmaps i initOneMmap, next := update mm.next i none }

/-- The first region of the list with a property, and the one before it. -/
def Mmaps.find (mm : Mmaps) (stop : Region → Bool) : Option (Option (Fin 16) × Option (Fin 16)) :=
  seek mm.next (fun i => stop (mm.mmaps i)) 16 none mm.mmapHead

/-! ### `wmap` -/

/-- `validate_input`: whether it returns 0. -/
def validateInput (addr : ℕ) (length : ℤ) (flags : BitVec 32) (f : Option ℕ) : Bool :=
  if length ≤ 0 then false
  else if has flags mapShared = has flags mapPrivate then false
  else if !has flags mapAnonymous ∧ f = none then false
  else if has flags mapFixed then
    if addr % 4096 ≠ 0 then false
    else if addr < 0x60000000 ∨ 0x80000000 ≤ addr then false
    else if 0x80000000 < u32 (addr + length) then false
    else true
  else true

/-- `find_unused_mmap`. -/
def findUnusedMmap (mm : Mmaps) : Option (Fin 16) :=
  (List.finRange 16).find? fun i => (mm.mmaps i).addr = 2 ^ 32 - 1

/-- The insertion of the region `m` into the sorted list. -/
def insertSorted (mm : Mmaps) (m : Fin 16) (addr : ℕ) : Option Mmaps :=
  match mm.mmapHead with
  | none => some { mm with next := update mm.next m none, mmapHead := some m }
  | some head =>
    if addr < (mm.mmaps head).addr then
      some { mm with next := update mm.next m (some head), mmapHead := some m }
    else
      match seek mm.next (fun i => addr ≤ (mm.mmaps i).addr) 16 (some head) (mm.next head) with
      | some (some prev, _) =>
        some { mm with next := update (update mm.next m (mm.next prev)) prev (some m) }
      | _ => none

/-- `fix_addr_place_mmap`: the table afterwards, and the region or 0. -/
def fixAddrPlaceMmap (mm : Mmaps) (addr : ℕ) (length : ℤ) : Option (Mmaps × Option (Fin 16)) :=
  let stop := u32 (addr + length)
  match mm.find fun r => addr < r.stop ∧ r.addr < stop with
  | none => none
  | some (_, some _) => some (mm, none)
  | some (_, none) =>
    match findUnusedMmap mm with
    | none => some (mm, none)
    | some m => (insertSorted (mm.set m { mm.mmaps m with addr := addr }) m addr).map fun mm => (mm, some m)

/-- The loop of `find_addr_place_mmap`: the start of the first gap from `start` on. -/
def findStart (mm : Mmaps) (length : ℤ) : ℕ → Option (Fin 16) → ℕ → Option ℕ
  | _, none, start => some start
  | 0, some _, _ => none
  | fuel + 1, some i, start =>
    if u32 (start + length) ≤ (mm.mmaps i).addr then some start
    else
      let start := if start < (mm.mmaps i).stop then (mm.mmaps i).stop else start
      let start := if start % 4096 ≠ 0 then pgroundup start else start
      findStart mm length fuel (mm.next i) start

/-- `find_addr_place_mmap`. -/
def findAddrPlaceMmap (mm : Mmaps) (length : ℤ) : Option (Mmaps × Option (Fin 16)) :=
  match findStart mm length 16 mm.mmapHead 0x60000000 with
  | none => none
  | some start =>
    if 0x80000000 < u32 (start + length) then some (mm, none) else fixAddrPlaceMmap mm start length

/-! ### `wunmap` -/

/-- The end of `remove_map`: the region `i`, which stands behind `prev`, goes out of the list and
its slot is reset. -/
def unlink (mm : Mmaps) (prev : Option (Fin 16)) (i : Fin 16) : Mmaps :=
  let mm := match prev with
    | none => { mm with mmapHead := mm.next i }
    | some prev => { mm with next := update mm.next prev (mm.next i) }
  Mmaps.reset { mm with totalMmaps := mm.totalMmaps - 1 } i

end SdeSystems.Wmap
