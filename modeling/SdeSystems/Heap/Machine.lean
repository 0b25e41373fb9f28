import SdeSystems.Lib.Bytes
import Mathlib.Logic.Relation
import Mathlib.Logic.Function.Basic
import Mathlib.Data.Int.Notation
import Mathlib.Algebra.Group.Int.Defs

/-!
# The heap allocator

`alloc`, `free_block` and `init_heap` of `p3Heap.c`, on a memory of bytes. An `int` is a
32-bit word with its wrap-around and its signed comparisons; a pointer is a byte address,
and `NULL` is 0. A block header (or footer) is the word `size_status` at the block's
address.

The loop of `alloc` over the heap is bounded by `fuel`; without enough of it `alloc` has no
result. What the operating system gives `init_heap` is in `Os`.

A run of the allocator (`Step`) is any sequence of `alloc` calls, of `free_block` calls on
pointers that `alloc` has returned and that have not been freed since, and of single-byte
writes by the user inside the payload of a live block.
-/

namespace SdeSystems.Heap

open Lib Function Relation

/-- An `int`. -/
abbrev Word := BitVec 32

/-- `A_BIT`: the block is allocated. -/
def aBit : Word := 1

/-- `P_BIT`: the previous block is allocated. -/
def pBit : Word := 2

/-- `GET_SIZE(size_status)`. -/
def getSize (s : Word) : Word := s &&& ~~~3

/-- `IS_ALLOCATED(size_status)`. -/
def isAllocated (s : Word) : Word := s &&& aBit

/-- `IS_PREV_ALLOCATED(size_status)`. -/
def isPrevAllocated (s : Word) : Word := s &&& pBit

/-- `(char*)p + i`, for an `int` `i`. -/
def plus (p : ℕ) (i : Word) : ℕ := ((p : ℤ) + i.toInt).toNat

/-- The globals of `p3Heap.c` and the memory. -/
structure Heap where
  /-- The bytes. -/
  mem : Bytes
  /-- `heap_start`. -/
  heapStart : ℕ
  /-- `alloc_size`. -/
  allocSize : Word
  /-- `allocated_once`, the static variable of `init_heap`. -/
  allocatedOnce : Bool

/-! ### `alloc` -/

/-- `required_size`: the payload and the header, rounded up to a multiple of 8. -/
def requiredSize (size : Word) : Word :=
  let r := size + 4
  if r.srem 8 ≠ 0 then r + (8 - r.srem 8) else r

/-- The loop that looks for the best fit. -/
def search (m : Bytes) (requiredSize : Word) : ℕ → ℕ → Option ℕ → Word → Option (Option ℕ × Word)
  | 0, _, _, _ => none
  | fuel + 1, current, bestFit, bestFitSize =>
    if m.load current ≠ 1 then
      let currentSize := getSize (m.load current)
      if isAllocated (m.load current) = 0 ∧ requiredSize.sle currentSize ∧
          (bestFit = none ∨ currentSize.slt bestFitSize) then
        search m requiredSize fuel (plus current currentSize) (some current) currentSize
      else
        search m requiredSize fuel (plus current currentSize) bestFit bestFitSize
    else some (bestFit, bestFitSize)

/-- `if (next->size_status != 1) next->size_status &= ~P_BIT`. -/
def clearPrev (m : Bytes) (next : ℕ) : Bytes :=
  if m.load next ≠ 1 then m.store next (m.load next &&& ~~~pBit) else m

/-- `if (next->size_status != 1) next->size_status |= P_BIT`. -/
def setPrev (m : Bytes) (next : ℕ) : Bytes :=
  if m.load next ≠ 1 then m.store next (m.load next ||| pBit) else m

/-- The block at `p` gives `requiredSize` of its bytes, and the rest stays a free block. -/
def split (m : Bytes) (p : ℕ) (requiredSize remainingSize : Word) : Bytes :=
  let bit := if isPrevAllocated (m.load p) ≠ 0 then pBit else 0
  let m := m.store p (requiredSize ||| bit ||| aBit)
  let newFree := plus p requiredSize
  let m := m.store newFree (remainingSize ||| pBit)
  let m := m.store (plus newFree remainingSize - 4) remainingSize
  clearPrev m (plus newFree remainingSize)

/-- The block at `p` is allocated whole. -/
def take (m : Bytes) (p : ℕ) (size : Word) : Bytes :=
  let m := m.store p (m.load p ||| aBit)
  setPrev m (plus p size)

/-- `alloc(size)`: the heap afterwards and the pointer to the payload, or `NULL`. -/
def alloc (fuel : ℕ) (h : Heap) (size : Word) : Option (Heap × Option ℕ) :=
  if size.slt 1 then some (h, none)
  else
    (search h.mem (requiredSize size) fuel h.heapStart none 0).map fun best =>
      match best.1 with
      | none => (h, none)
      | some p =>
        let remaining := best.2 - requiredSize size
        let m := if (8 : Word).sle remaining then split h.mem p (requiredSize size) remaining
          else take h.mem p best.2
        ({ h with mem := m }, some (p + 4))

/-! ### `free_block` -/

/-- The part of `free_block` after the checks, for the block at `block`. -/
def release (m : Bytes) (block : ℕ) : Bytes :=
  let blockSize := getSize (m.load block)
  let bit := if isPrevAllocated (m.load block) ≠ 0 then pBit else 0
  let m := m.store block (blockSize ||| bit)
  let m := m.store (plus block blockSize - 4) blockSize
  let prevSize := getSize (m.load (block - 4))
  let coalescedBlock := if bit &&& pBit = 0 then ((block : ℤ) - prevSize.toInt).toNat else block
  let coalescedSize := if bit &&& pBit = 0 then blockSize + prevSize else blockSize
  let next := m.load (plus block blockSize)
  let coalescedSize := if next ≠ 1 ∧ isAllocated next = 0 then coalescedSize + getSize next else coalescedSize
  let coalescedBit := if isPrevAllocated (m.load coalescedBlock) ≠ 0 then pBit else 0
  let m := m.store coalescedBlock (coalescedSize ||| coalescedBit)
  let m := m.store (plus coalescedBlock coalescedSize - 4) coalescedSize
  clearPrev m (plus coalescedBlock coalescedSize)

/-- `free_block(ptr)`: the heap afterwards, and what is returned. -/
def freeBlock (h : Heap) (ptr : ℕ) : Heap × ℤ :=
  if ptr = 0 then (h, -1)
  else if ptr % 8 ≠ 0 then (h, -1)
  else
    let block := ptr - 4
    if block < h.heapStart then (h, -1)
    else if plus h.heapStart h.allocSize ≤ block then (h, -1)
    else if isAllocated (h.mem.load block) = 0 then (h, -1)
    else ({ h with mem := release h.mem block }, 0)

/-! ### `init_heap` -/

/-- What the operating system does for `init_heap`. -/
structure Os where
  /-- `getpagesize()`. -/
  pagesize : Word
  /-- The `open` of `/dev/zero` succeeds. -/
  opens : Bool
  /-- The address `mmap` returns for a length, or `MAP_FAILED`. -/
  mmap : ℕ → Option ℕ
  /-- A page is some double words, and more than one. -/
  pages : 8 ∣ pagesize.toNat ∧ 16 ≤ pagesize.toNat ∧ pagesize.toNat < 2 ^ 31
  /-- A mapping begins at a page, and lies in the part of the address space that is the
  user's. -/
  mapped : ∀ n p, mmap n = some p → 8 ∣ p ∧ 0 < p ∧ p + n ≤ 2 ^ 47

/-- `init_heap(sizeOfRegion)`: the heap afterwards, and what is returned. -/
def initHeap (os : Os) (h : Heap) (sizeOfRegion : Word) : Heap × ℤ :=
  if h.allocatedOnce then (h, -1)
  else if sizeOfRegion.sle 0 then (h, -1)
  else
    let padsize := (os.pagesize - sizeOfRegion.srem os.pagesize).srem os.pagesize
    let allocSize := sizeOfRegion + padsize
    let h := { h with allocSize := allocSize }
    if !os.opens then (h, -1)
    else
      match os.mmap (allocSize.signExtend 64).toNat with
      | none => ({ h with allocatedOnce := false }, -1)
      | some mmapPtr =>
        -- the pages are zero
        let m : Bytes := fun x =>
          if mmapPtr ≤ x ∧ x < mmapPtr + (allocSize.signExtend 64).toNat then 0 else h.mem x
        let allocSize := allocSize - 8
        let heapStart := mmapPtr + 4
        let m := m.store (plus heapStart allocSize) 1
        let m := m.store heapStart allocSize
        let m := m.store heapStart (m.load heapStart + 2)
        let m := m.store (plus heapStart allocSize - 4) allocSize
        (⟨m, heapStart, allocSize, true⟩, 0)

/-! ### Runs -/

/-- The heap, and the pointers that `alloc` has returned and that have not been freed
since. -/
structure State where
  /-- The heap. -/
  heap : Heap
  /-- The live pointers. -/
  live : List ℕ

/-- One call, or one write of the user. -/
inductive Step : State → State → Prop
  /-- A call of `alloc` with a size that does not come near the largest `int`. -/
  | alloc {σ : State} (size : Word) (fuel : ℕ) (h' : Heap) (r : Option ℕ) (hsize : size.toInt + 11 < 2 ^ 31)
    (h : Heap.alloc fuel σ.heap size = some (h', r)) : Step σ ⟨h', r.toList ++ σ.live⟩
  /-- A call of `free_block` with a live pointer. -/
  | free {σ : State} (p : ℕ) (hp : p ∈ σ.live) : Step σ ⟨(freeBlock σ.heap p).1, σ.live.erase p⟩
  /-- A write inside the payload of a live block. -/
  | write {σ : State} (p x : ℕ) (b : UInt8) (hp : p ∈ σ.live) (hlo : p ≤ x)
    (hhi : x < plus (p - 4) (getSize (σ.heap.mem.load (p - 4)))) :
    Step σ ⟨{ σ.heap with mem := update σ.heap.mem x b }, σ.live⟩

/-- The states of all runs that begin with a successful `init_heap`. -/
def Reachable (os : Os) (σ : State) : Prop :=
  ∃ h size, (initHeap os h size).2 = 0 ∧ ReflTransGen Step ⟨(initHeap os h size).1, []⟩ σ

end SdeSystems.Heap
