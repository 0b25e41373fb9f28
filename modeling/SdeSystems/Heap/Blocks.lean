import SdeSystems.Heap.Machine
import Mathlib.Data.List.Chain
import Mathlib.Algebra.GroupWithZero.Nat

/-!
# Blocks

What the words of the heap say: a list of blocks that tile it, each with its size and
whether it is allocated. `Seg` reads a part of the heap as such a list, header by header,
with a footer in every free block; `Tiles` has the end mark behind the last of them; `Rep` is
the representation of the whole heap, where no two free blocks stand side by side.

The changes that `alloc` and `free_block` make to such a list are all of two kinds: the flag
in the header behind a block is set or cleared, and a free block is made between two parts.
-/

namespace SdeSystems.Heap

open Lib Function

/-! ### Words -/

/-- A word whose two low bits are free for the flags. -/
theorem and_three {n : ℕ} (h : 8 ∣ n) : BitVec.ofNat 32 n &&& 3 = 0 := by
  apply BitVec.eq_of_toNat_eq
  have : (3 : ℕ) = 2 ^ 2 - 1 := rfl
  simp only [BitVec.toNat_and, BitVec.toNat_ofNat, BitVec.ofNat_eq_ofNat]
  rw [show 3 % 2 ^ 32 = 2 ^ 2 - 1 from rfl, Nat.and_two_pow_sub_one_eq_mod]
  omega

/-- `size_status` of a block. -/
def header (size : ℕ) (prev allocated : Bool) : Word :=
  BitVec.ofNat 32 size ||| (if prev then pBit else 0) ||| (if allocated then aBit else 0)

/-- Masks on the flags do not touch the size. -/
theorem and_flags {s x : Word} (h : s &&& 3 = 0) (hx : x &&& 3 = x) : s &&& x = 0 := by
  rw [← hx, BitVec.and_comm x, ← BitVec.and_assoc, h]
  exact BitVec.zero_and

theorem and_not_three {s : Word} (h : s &&& 3 = 0) : s &&& ~~~3 = s := by
  have h₁ : s &&& (3 ||| ~~~3) = s := by
    rw [BitVec.or_not_self, BitVec.and_allOnes]
  rwa [BitVec.and_or_distrib_left, h, show (0 : Word) ||| _ = _ from BitVec.zero_or] at h₁

theorem or_and {s x y : Word} : (s ||| x) &&& y = (s &&& y) ||| (x &&& y) := by
  rw [BitVec.and_comm, BitVec.and_or_distrib_left, BitVec.and_comm y s, BitVec.and_comm y x]

section

variable {n : ℕ} {p a : Bool}

theorem getSize_header (h : 8 ∣ n) : getSize (header n p a) = BitVec.ofNat 32 n := by
  unfold getSize header
  rw [or_and, or_and, and_not_three (and_three h)]
  cases p <;> cases a <;> simp [pBit, aBit]

theorem isAllocated_header (h : 8 ∣ n) : isAllocated (header n p a) = if a then 1 else 0 := by
  unfold isAllocated header
  rw [or_and, or_and, and_flags (and_three h) (by decide)]
  cases p <;> cases a <;> simp [pBit, aBit]

theorem isPrevAllocated_header (h : 8 ∣ n) : isPrevAllocated (header n p a) = if p then pBit else 0 := by
  unfold isPrevAllocated header
  rw [or_and, or_and, and_flags (and_three h) (by decide)]
  cases p <;> cases a <;> simp [pBit, aBit]

theorem header_or_aBit : header n p a ||| aBit = header n p true := by
  unfold header
  rw [BitVec.or_assoc]
  cases a <;> simp [aBit]

theorem header_or_pBit : header n p a ||| pBit = header n true a := by
  unfold header
  cases p <;> cases a <;> simp [aBit, pBit, BitVec.or_assoc]

theorem header_and_not_pBit (h : 8 ∣ n) : header n p a &&& ~~~pBit = header n false a := by
  have hn : BitVec.ofNat 32 n &&& ~~~pBit = BitVec.ofNat 32 n := by
    have h₁ : BitVec.ofNat 32 n &&& (pBit ||| ~~~pBit) = BitVec.ofNat 32 n := by
      rw [BitVec.or_not_self, BitVec.and_allOnes]
    rwa [BitVec.and_or_distrib_left, and_flags (and_three h) (by decide),
      show (0 : Word) ||| _ = _ from BitVec.zero_or] at h₁
  unfold header
  rw [or_and, or_and, hn]
  cases p <;> cases a <;> simp [pBit, aBit]

/-- The end mark is no header. -/
theorem header_ne_one (h : 8 ∣ n) (h₀ : 8 ≤ n) (hlt : n < 2 ^ 32) : header n p a ≠ 1 := by
  intro he
  have := congrArg getSize he
  rw [getSize_header h] at this
  have := congrArg BitVec.toNat this
  simp [getSize] at this
  omega

end

theorem toNat_ofNat_of_lt {n : ℕ} (h : n < 2 ^ 31) : (BitVec.ofNat 32 n).toNat = n := by
  rw [BitVec.toNat_ofNat]
  omega

theorem toInt_ofNat_of_lt {n : ℕ} (h : n < 2 ^ 31) : (BitVec.ofNat 32 n).toInt = n := by
  have := toNat_ofNat_of_lt h
  rw [BitVec.toInt_eq_toNat_of_lt (by omega), this]

theorem plus_ofNat {n p : ℕ} (h : n < 2 ^ 31) : plus p (BitVec.ofNat 32 n) = p + n := by
  rw [plus, toInt_ofNat_of_lt h]
  omega

/-! ### Lists of blocks -/

/-- A block of the heap. -/
structure Block where
  /-- Its size, header included. -/
  size : ℕ
  /-- It is allocated. -/
  allocated : Bool
  deriving DecidableEq, Repr

/-- The bytes the blocks take. -/
def total (bs : List Block) : ℕ := (bs.map Block.size).sum

@[simp] theorem total_nil : total [] = 0 := rfl

@[simp] theorem total_cons (b : Block) (bs : List Block) : total (b :: bs) = b.size + total bs := by
  simp [total]

@[simp] theorem total_append (l r : List Block) : total (l ++ r) = total l + total r := by
  simp [total]

/-- Whether the last of the blocks is allocated; `prev` is the answer where there is none. -/
def lastAllocated (prev : Bool) : List Block → Bool
  | [] => prev
  | b :: bs => lastAllocated b.allocated bs

@[simp] theorem lastAllocated_append (prev : Bool) (l r : List Block) :
    lastAllocated prev (l ++ r) = lastAllocated (lastAllocated prev l) r := by
  induction l generalizing prev with
  | nil => rfl
  | cons b l ih => exact ih _

/-- The addresses of the allocated blocks, the first block being at `a`. -/
def allocs : ℕ → List Block → List ℕ
  | _, [] => []
  | a, b :: bs => if b.allocated then a :: allocs (a + b.size) bs else allocs (a + b.size) bs

/-- Where the payloads of the allocated blocks begin and how many bytes they have, the first
block being at `a`. -/
def payloads : ℕ → List Block → List (ℕ × ℕ)
  | _, [] => []
  | a, b :: bs =>
    if b.allocated then (a + 4, b.size - 4) :: payloads (a + b.size) bs else payloads (a + b.size) bs

@[simp] theorem payloads_append (a : ℕ) (l r : List Block) :
    payloads a (l ++ r) = payloads a l ++ payloads (a + total l) r := by
  induction l generalizing a with
  | nil => simp [payloads]
  | cons b l ih =>
    simp only [List.cons_append, payloads, ih, total_cons, ← Nat.add_assoc]
    split <;> rfl

/-- Every payload is that of a block of the list. -/
theorem exists_of_mem_payloads {a : ℕ} {q : ℕ × ℕ} {bs : List Block} (h : q ∈ payloads a bs) :
    ∃ l n r, bs = l ++ ⟨n, true⟩ :: r ∧ q = (a + total l + 4, n - 4) := by
  induction bs generalizing a with
  | nil => simp [payloads] at h
  | cons b bs ih =>
    have hrec (h : q ∈ payloads (a + b.size) bs) :
        ∃ l n r, b :: bs = l ++ ⟨n, true⟩ :: r ∧ q = (a + total l + 4, n - 4) := by
      obtain ⟨l, n, r, rfl, rfl⟩ := ih h
      exact ⟨b :: l, n, r, rfl, by simp only [total_cons, Nat.add_assoc]⟩
    obtain ⟨n, _ | _⟩ := b
    · exact hrec (by simpa [payloads] using h)
    · simp only [payloads, if_pos, List.mem_cons] at h
      rcases h with rfl | h
      · exact ⟨[], n, bs, rfl, by simp⟩
      · exact hrec h

theorem allocs_eq (a : ℕ) (bs : List Block) : allocs a bs = (payloads a bs).map (·.1 - 4) := by
  induction bs generalizing a with
  | nil => rfl
  | cons b bs ih =>
    rw [allocs, payloads, ih]
    split <;> simp

@[simp] theorem allocs_append (a : ℕ) (l r : List Block) :
    allocs a (l ++ r) = allocs a l ++ allocs (a + total l) r := by
  simp only [allocs_eq, payloads_append, List.map_append]

/-- No two free blocks stand side by side. -/
def Coalesced (bs : List Block) : Prop := bs.IsChain fun b c => b.allocated = true ∨ c.allocated = true

/-- Whether the first of the blocks is allocated; the end mark counts as allocated. -/
def firstAllocated : List Block → Bool
  | [] => true
  | b :: _ => b.allocated

theorem coalesced_cons {b : Block} {bs : List Block} :
    Coalesced (b :: bs) ↔ (b.allocated = true ∨ firstAllocated bs = true) ∧ Coalesced bs := by
  cases bs with
  | nil => simp [Coalesced, firstAllocated]
  | cons c bs => simp [Coalesced, firstAllocated]

theorem coalesced_append {l r : List Block} : Coalesced (l ++ r) ↔
    Coalesced l ∧ Coalesced r ∧ (lastAllocated true l = true ∨ firstAllocated r = true) := by
  induction l with
  | nil => simp [Coalesced, lastAllocated]
  | cons b l ih =>
    rw [List.cons_append, coalesced_cons, coalesced_cons, ih]
    cases l with
    | nil => simp [firstAllocated, lastAllocated, Coalesced, and_comm]
    | cons c l => simp only [List.cons_append, firstAllocated, lastAllocated, and_assoc]

/-! ### What memory holds -/

/-- From `a` on the blocks `bs` follow each other, with `prev` as the flag of the first. -/
def Seg (m : Bytes) : ℕ → Bool → List Block → Prop
  | _, _, [] => True
  | a, prev, b :: bs =>
    (8 ∣ b.size ∧ 8 ≤ b.size) ∧ m.load a = header b.size prev b.allocated ∧
      (b.allocated = false → m.load (a + b.size - 4) = BitVec.ofNat 32 b.size) ∧
      Seg m (a + b.size) b.allocated bs

/-- The blocks `bs` from `a` on, and the end mark behind them. -/
def Tiles (m : Bytes) (a : ℕ) (prev : Bool) (bs : List Block) : Prop :=
  Seg m a prev bs ∧ m.load (a + total bs) = 1

/-- The representation of the heap: the blocks `bs` tile it. -/
structure Rep (h : Heap) (bs : List Block) : Prop where
  /-- The blocks follow each other from `heap_start` on, up to the end mark. -/
  tiles : Tiles h.mem h.heapStart true bs
  /-- They take `alloc_size` bytes. -/
  total_eq : total bs = h.allocSize.toNat
  /-- The size of the heap is an `int` that is not negative. -/
  total_lt : total bs < 2 ^ 31
  /-- Payloads begin at double words. -/
  start : h.heapStart % 8 = 4
  /-- No two free blocks stand side by side. -/
  coalesced : Coalesced bs

/-- The representation but for the last field: the blocks tile the heap, and free ones may
stand side by side. -/
structure Laid (h : Heap) (bs : List Block) : Prop where
  /-- The blocks follow each other from `heap_start` on, up to the end mark. -/
  tiles : Tiles h.mem h.heapStart true bs
  /-- They take `alloc_size` bytes. -/
  total_eq : total bs = h.allocSize.toNat
  /-- The size of the heap is an `int` that is not negative. -/
  total_lt : total bs < 2 ^ 31
  /-- Payloads begin at double words. -/
  start : h.heapStart % 8 = 4

theorem Rep.laid {h : Heap} {bs : List Block} (hrep : Rep h bs) : Laid h bs :=
  ⟨hrep.tiles, hrep.total_eq, hrep.total_lt, hrep.start⟩

theorem Laid.rep {h : Heap} {bs : List Block} (hlaid : Laid h bs) (hco : Coalesced bs) : Rep h bs :=
  ⟨hlaid.tiles, hlaid.total_eq, hlaid.total_lt, hlaid.start, hco⟩

section

variable {m m' : Bytes} {a x n : ℕ} {prev q : Bool} {b : Block} {bs l r : List Block}

theorem seg_append : Seg m a prev (l ++ r) ↔ Seg m a prev l ∧ Seg m (a + total l) (lastAllocated prev l) r := by
  induction l generalizing a prev with
  | nil => simp [Seg, lastAllocated]
  | cons b l ih => simp only [List.cons_append, Seg, ih, total_cons, lastAllocated, ← Nat.add_assoc, and_assoc]

theorem tiles_append :
    Tiles m a prev (l ++ r) ↔ Seg m a prev l ∧ Tiles m (a + total l) (lastAllocated prev l) r := by
  rw [Tiles, Tiles, seg_append, total_append, Nat.add_assoc, and_assoc]

theorem tiles_cons : Tiles m a prev (b :: bs) ↔ (8 ∣ b.size ∧ 8 ≤ b.size) ∧
    m.load a = header b.size prev b.allocated ∧
    (b.allocated = false → m.load (a + b.size - 4) = BitVec.ofNat 32 b.size) ∧
    Tiles m (a + b.size) b.allocated bs := by
  simp only [Tiles, Seg, total_cons, Nat.add_assoc, and_assoc]

/-- A part of the heap is what its bytes say. -/
theorem Seg.frame (h : Seg m a prev bs) (hm : m.AgreeOn m' a (a + total bs)) : Seg m' a prev bs := by
  induction bs generalizing a prev with
  | nil => trivial
  | cons b bs ih =>
    obtain ⟨hb, hh, hf, hs⟩ := h
    rw [total_cons] at hm
    refine ⟨hb, ?_, ?_, ih hs (hm.mono (by omega) (by omega))⟩
    · rw [Bytes.load_congr (hm.mono (by omega) (by omega)), hh]
    · intro hfree
      rw [Bytes.load_congr (hm.mono (by omega) (by omega)), hf hfree]

theorem Tiles.frame (h : Tiles m a prev bs) (hm : m.AgreeOn m' a (a + total bs + 4)) : Tiles m' a prev bs :=
  ⟨h.1.frame (hm.mono (by omega) (by omega)), (Bytes.load_congr (hm.mono (by omega) (by omega))).trans h.2⟩

/-- The sizes are multiples of 8. -/
theorem Seg.dvd_total (h : Seg m a prev bs) : 8 ∣ total bs := by
  induction bs generalizing a prev with
  | nil => exact Nat.dvd_zero 8
  | cons b bs ih =>
    rw [total_cons]
    exact Nat.dvd_add h.1.1 (ih h.2.2.2)

/-- No block is empty. -/
theorem Seg.pos (h : Seg m a prev bs) : ∀ b ∈ bs, 0 < b.size := by
  induction bs generalizing a prev with
  | nil => simp
  | cons b bs ih =>
    have hb := h.1.2
    exact List.forall_mem_cons.mpr ⟨by omega, ih h.2.2.2⟩

/-- Every payload lies between the headers of its block and of the next. -/
theorem Seg.payload_bounds (h : Seg m a prev bs) {q : ℕ × ℕ} (hq : q ∈ payloads a bs) :
    a + 4 ≤ q.1 ∧ q.1 + q.2 ≤ a + total bs ∧ q.1 % 8 = (a + 4) % 8 ∧ 4 ≤ q.2 := by
  obtain ⟨l, n, r, rfl, rfl⟩ := exists_of_mem_payloads hq
  obtain ⟨hl, hn, -⟩ := seg_append.mp h
  have hl₈ := hl.dvd_total
  simp only [total_append, total_cons] at hn ⊢
  omega

/-- No two payloads have a byte in common. -/
theorem Seg.payloads_pairwise (h : Seg m a prev bs) :
    (payloads a bs).Pairwise fun q q' => q.1 + q.2 ≤ q'.1 := by
  induction bs generalizing a prev with
  | nil => exact .nil
  | cons b bs ih =>
    have hrest := ih h.2.2.2
    rw [payloads]
    split
    · refine List.pairwise_cons.mpr ⟨?_, hrest⟩
      intro q hq
      have hb := h.1
      have := (Seg.payload_bounds h.2.2.2 hq).1
      dsimp only
      omega
    · exact hrest

/-- The flag is in the header behind the block, and nothing else changes. -/
theorem agreeOn_clearPrev (h : n ≤ x ∨ x + 4 ≤ a) : m.AgreeOn (clearPrev m x) a n := by
  unfold clearPrev
  split
  · exact Bytes.agreeOn_store h
  · exact .refl _ _ _

theorem agreeOn_setPrev (h : n ≤ x ∨ x + 4 ≤ a) : m.AgreeOn (setPrev m x) a n := by
  unfold setPrev
  split
  · exact Bytes.agreeOn_store h
  · exact .refl _ _ _

/-- The header of the first block is written anew with another flag. -/
theorem Tiles.store_header (h : Tiles m a prev (b :: bs)) (q : Bool) :
    Tiles (m.store a (header b.size q b.allocated)) a q (b :: bs) := by
  rw [tiles_cons] at h ⊢
  obtain ⟨hb, -, hf, ht⟩ := h
  refine ⟨hb, Bytes.load_store, ?_, ht.frame (Bytes.agreeOn_store (.inr (by omega)))⟩
  intro hfree
  rw [Bytes.load_store_of_disjoint (.inr (by omega)), hf hfree]

/-- Behind a block that is freed the flag is cleared, unless the end mark stands there. -/
theorem Tiles.clearPrev (h : Tiles m a prev bs) (hlt : total bs < 2 ^ 31) : Tiles (clearPrev m a) a false bs := by
  cases bs with
  | nil =>
    have he : m.load a = 1 := h.2
    rw [Heap.clearPrev, if_neg (not_not.mpr he)]
    exact h
  | cons b bs =>
    obtain ⟨hb, hh, -⟩ := tiles_cons.mp h
    rw [total_cons] at hlt
    rw [Heap.clearPrev, hh, if_pos (header_ne_one hb.1 hb.2 (by omega)), header_and_not_pBit hb.1]
    exact h.store_header false

/-- Behind a block that is allocated the flag is set, unless the end mark stands there. -/
theorem Tiles.setPrev (h : Tiles m a prev bs) (hlt : total bs < 2 ^ 31) : Tiles (setPrev m a) a true bs := by
  cases bs with
  | nil =>
    have he : m.load a = 1 := h.2
    rw [Heap.setPrev, if_neg (not_not.mpr he)]
    exact h
  | cons b bs =>
    obtain ⟨hb, hh, -⟩ := tiles_cons.mp h
    rw [total_cons] at hlt
    rw [Heap.setPrev, hh, if_pos (header_ne_one hb.1 hb.2 (by omega)), header_or_pBit]
    exact h.store_header true

/-- The header and the footer of a free block of `n` bytes are written at `p`, and the flag
behind it is cleared. -/
def putFree (m : Bytes) (p n : ℕ) (prev : Bool) : Bytes :=
  clearPrev ((m.store p (header n prev false)).store (p + n - 4) (BitVec.ofNat 32 n)) (p + n)

/-- Only the block and the header behind it are written. -/
theorem agreeOn_putFree {p c d : ℕ} (h₄ : 4 ≤ n) (h : d ≤ p ∨ p + n + 4 ≤ c) :
    m.AgreeOn (putFree m p n prev) c d :=
  ((Bytes.agreeOn_store (by omega)).trans (Bytes.agreeOn_store (by omega))).trans (agreeOn_clearPrev (by omega))

/-- A free block is made between `l` and `r`. -/
theorem putFree_tiles (hl : Seg m a prev l) (hr : Tiles m (a + total l + n) q r) (hdvd : 8 ∣ n) (h₈ : 8 ≤ n)
    (hlt : total r < 2 ^ 31) :
    Tiles (putFree m (a + total l) n (lastAllocated prev l)) a prev (l ++ ⟨n, false⟩ :: r) := by
  have hag : m.AgreeOn (putFree m (a + total l) n (lastAllocated prev l)) a (a + total l) :=
    agreeOn_putFree (by omega) (.inl (by omega))
  rw [tiles_append, tiles_cons]
  refine ⟨hl.frame hag, ⟨hdvd, h₈⟩, ?_, ?_, ?_⟩
  · rw [putFree, Bytes.load_congr (agreeOn_clearPrev (.inl (by omega))),
      Bytes.load_store_of_disjoint (.inl (by omega)), Bytes.load_store]
  · intro _
    rw [putFree, Bytes.load_congr (agreeOn_clearPrev (.inl (by dsimp only; omega))), Bytes.load_store]
  · refine Tiles.clearPrev (hr.frame ?_) hlt
    exact (Bytes.agreeOn_store (.inr (by omega))).trans (Bytes.agreeOn_store (.inr (by omega)))

end

end SdeSystems.Heap
