import SdeSystems.Heap.Confluence

/-!
# A block that is freed twice

`free_block` refuses a pointer when the word before it has its lowest bit clear. Right
after the block was freed that word is its header. Once the block has been merged with
one before it, it is some word inside a larger free block, and it is no longer written
as a header, or only as that of another free block.

What keeps its lowest bit clear (`Stale`): it stands at a place of headers, 4 bytes
short of a double word, and outside every allocated block. A call of `free_block`
writes the header of a free block, clears a p-bit, and writes footers, which stand at
double words.
-/

namespace SdeSystems.Heap

open Lib Function Relation

/-! ### Words with the lowest bit clear -/

theorem isAllocated_and_not_pBit (s : Word) : isAllocated (s &&& ~~~pBit) = isAllocated s := by
  unfold isAllocated
  rw [BitVec.and_assoc, BitVec.and_comm (~~~pBit), ← BitVec.and_assoc, BitVec.and_assoc]
  rfl

section

variable {m : Bytes} {w x n : ℕ} {prev : Bool}

/-- A p-bit that is cleared leaves the lowest bit. -/
theorem isAllocated_clearPrev (hal : w % 8 = x % 8) (h : isAllocated (m.load w) = 0) :
    isAllocated ((clearPrev m x).load w) = 0 := by
  by_cases hwx : w = x
  · subst hwx
    unfold clearPrev
    split
    · rw [Bytes.load_store, isAllocated_and_not_pBit, h]
    · exact h
  · rwa [Bytes.load_congr (agreeOn_clearPrev (by omega))]

/-- A free block that is made leaves the lowest bit, at the place of its header too. -/
theorem isAllocated_putFree (hx : w % 8 = x % 8) (hn : 8 ∣ n) (h₈ : 8 ≤ n) (h : isAllocated (m.load w) = 0) :
    isAllocated ((putFree m x n prev).load w) = 0 := by
  apply isAllocated_clearPrev (by omega)
  rw [Bytes.load_store_of_disjoint (by omega)]
  by_cases hwx : w = x
  · rw [hwx, Bytes.load_store, isAllocated_header hn]
    rfl
  · rwa [Bytes.load_store_of_disjoint (by omega)]

end

/-- A call of `free_block` leaves the lowest bit of a word at a place of headers, when
the marks in the block do. -/
theorem isAllocated_release {h : Heap} {l r : List Block} {n w : ℕ} (hrep : Rep h (l ++ ⟨n, true⟩ :: r))
    (hw : w % 8 = 4)
    (hmark : isAllocated ((mark h.mem (h.heapStart + total l) n (lastAllocated true l)).load w) = 0) :
    isAllocated ((release h.mem (h.heapStart + total l)).load w) = 0 := by
  obtain ⟨-, ⟨-, h₈⟩, -⟩ := seg_append.mp hrep.tiles.1
  obtain ⟨l', k, r', q, -, hrel, hl', -, hk, hle, hge, -⟩ :=
    release_shape hrep.tiles hrep.total_lt hrep.coalesced
  have hl₈ := hl'.dvd_total
  have hstart := hrep.start
  dsimp only at h₈
  rw [hrel]
  exact isAllocated_putFree (by omega) hk (by omega) hmark

/-! ### The word before a freed pointer -/

/-- The word at `w` is no header of an allocated block, and it stays so. -/
structure Stale (h : Heap) (bs : List Block) (w : ℕ) : Prop where
  /-- It stands at a place of headers. -/
  aligned : w % 8 = 4
  /-- It is outside the allocated blocks. -/
  outside : ∀ q ∈ payloads h.heapStart bs, w + 8 ≤ q.1 ∨ q.1 + q.2 ≤ w
  /-- Its lowest bit is clear. -/
  clear : isAllocated (h.mem.load w) = 0

/-- A stale word makes `free_block` refuse the pointer behind it. -/
theorem Stale.freeBlock {h : Heap} {bs : List Block} {w : ℕ} (hs : Stale h bs w) :
    freeBlock h (w + 4) = (h, -1) := by
  have hclear := hs.clear
  unfold Heap.freeBlock
  simp only [Nat.add_sub_cancel]
  split_ifs <;> rfl

/-- The header of a block is stale once it has been freed. -/
theorem stale_of_free {h : Heap} {l r : List Block} {n : ℕ} (hrep : Rep h (l ++ ⟨n, true⟩ :: r)) :
    Stale { h with mem := release h.mem (h.heapStart + total l) } (coalesce (l ++ ⟨n, false⟩ :: r))
      (h.heapStart + total l) := by
  obtain ⟨hl, ⟨hn, h₈⟩, -, -, hr⟩ := seg_append.mp hrep.tiles.1
  have hl₈ := hl.dvd_total
  have hstart := hrep.start
  dsimp only at hn h₈ hr
  refine ⟨by omega, ?_, ?_⟩
  · intro q hq
    dsimp only at hq
    simp only [payloads_coalesce, payloads_append, payloads, Bool.false_eq_true, if_false, List.mem_append] at hq
    rcases hq with hq | hq
    · have := hl.payload_bounds hq
      omega
    · have := hr.payload_bounds hq
      omega
  · have hmark : isAllocated ((mark h.mem (h.heapStart + total l) n (lastAllocated true l)).load
        (h.heapStart + total l)) = 0 := by
      rw [mark, Bytes.load_store_of_disjoint (.inl (by omega)), Bytes.load_store, isAllocated_header hn]
      rfl
    dsimp only
    exact isAllocated_release hrep (by omega) hmark

/-- A stale word stays stale when a block is freed. -/
theorem Stale.free {h : Heap} {l r : List Block} {n w : ℕ} (hs : Stale h (l ++ ⟨n, true⟩ :: r) w)
    (hrep : Rep h (l ++ ⟨n, true⟩ :: r)) :
    Stale { h with mem := release h.mem (h.heapStart + total l) } (coalesce (l ++ ⟨n, false⟩ :: r)) w := by
  obtain ⟨-, ⟨-, h₈⟩, -⟩ := seg_append.mp hrep.tiles.1
  have hblock := hs.outside (h.heapStart + total l + 4, n - 4) (by simp [payloads])
  dsimp only at h₈ hblock
  refine ⟨hs.aligned, fun q hq => hs.outside q ?_, ?_⟩
  · dsimp only at hq
    simp only [payloads_coalesce, payloads_append, payloads, Bool.false_eq_true, if_false, List.mem_append] at hq
    simp only [payloads_append, payloads, if_true, List.mem_append, List.mem_cons]
    exact hq.imp_right .inr
  · have hmark : isAllocated ((mark h.mem (h.heapStart + total l) n (lastAllocated true l)).load w) = 0 := by
      rw [Bytes.load_congr (agreeOn_mark (by omega) (by omega))]
      exact hs.clear
    dsimp only
    exact isAllocated_release hrep hs.aligned hmark

/-! ### Runs -/

/-- One call of `free_block`, with a live pointer or with one that it refuses. -/
inductive FreeCall : State → State → Prop
  /-- The pointer is live. -/
  | live {σ : State} (q : ℕ) (hq : q ∈ σ.live) : FreeCall σ ⟨(freeBlock σ.heap q).1, σ.live.erase q⟩
  /-- The pointer is refused. -/
  | refused {σ : State} (q : ℕ) (h : (freeBlock σ.heap q).2 = -1) : FreeCall σ ⟨(freeBlock σ.heap q).1, σ.live⟩

/-- A call that is refused changes nothing. -/
theorem freeBlock_refused {h : Heap} {q : ℕ} (hq : (freeBlock h q).2 = -1) : (freeBlock h q).1 = h := by
  unfold freeBlock at hq ⊢
  dsimp only at hq ⊢
  split_ifs at hq ⊢ <;> rfl

variable {os : Os} {σ σ' : State} {bs : List Block} {w : ℕ}

/-- One such call keeps the representation and a stale word. -/
theorem Stale.step (hs : Stale σ.heap bs w) (hok : Ok σ bs) (hcall : FreeCall σ σ') :
    ∃ bs', Ok σ' bs' ∧ Stale σ'.heap bs' w := by
  cases hcall with
  | live q hq =>
    obtain ⟨-, hok'⟩ := hok.free hq
    refine ⟨_, hok', ?_⟩
    obtain ⟨l, n, r, rfl, rfl⟩ := hok.block hq
    rw [freed_singleton hok.rep.tiles.1.pos, hok.rep.freeBlock]
    exact hs.free hok.rep
  | refused q hq =>
    rw [freeBlock_refused hq]
    exact ⟨bs, hok, hs⟩

/-- **Double frees are detected.** A pointer that `free_block` has freed is refused, and
nothing is changed, after any number of further calls of `free_block`, with live
pointers or with refused ones. -/
theorem double_free (h : Reachable os σ) {p : ℕ} (hp : p ∈ σ.live) :
    (freeBlock σ.heap p).2 = 0 ∧
      ∀ σ', ReflTransGen FreeCall ⟨(freeBlock σ.heap p).1, σ.live.erase p⟩ σ' →
        freeBlock σ'.heap p = (σ'.heap, -1) := by
  obtain ⟨bs, hok⟩ := h.ok
  obtain ⟨hzero, hok'⟩ := hok.free hp
  refine ⟨hzero, ?_⟩
  intro σ' hrun
  obtain ⟨l, n, r, rfl, rfl⟩ := hok.block hp
  have hinv : ∃ bs', Ok σ' bs' ∧ Stale σ'.heap bs' (σ.heap.heapStart + total l) := by
    induction hrun with
    | refl =>
      refine ⟨_, hok', ?_⟩
      rw [freed_singleton hok.rep.tiles.1.pos, hok.rep.freeBlock]
      exact stale_of_free hok.rep
    | tail _ hcall ih =>
      obtain ⟨bs', hok, hs⟩ := ih
      exact hs.step hok hcall
  obtain ⟨bs', -, hs⟩ := hinv
  exact hs.freeBlock

/-- After `init_heap(20)` and `alloc(4)`, the pointer is freed and then refused. -/
theorem double_free_one : ∃ h, alloc 2 smallHeap 4 = some (h, some 72) ∧ (freeBlock h 72).2 = 0 ∧
    (freeBlock (freeBlock h 72).1 72).2 = -1 := by
  have hinit : (initHeap smallOs ⟨fun _ => 0, 0, 0, false⟩ 20).2 = 0 := by decide
  obtain ⟨h, ha⟩ : ∃ h, alloc 2 smallHeap 4 = some (h, some 72) := ⟨_, rfl⟩
  have hrun : ReflTransGen Step ⟨smallHeap, []⟩ ⟨h, [72]⟩ :=
    ReflTransGen.single (.alloc 4 2 h (some 72) (by decide) ha)
  have hreach : Reachable smallOs ⟨h, [72]⟩ := ⟨_, _, hinit, hrun⟩
  obtain ⟨hzero, hall⟩ := double_free hreach (List.mem_singleton.mpr rfl)
  exact ⟨h, ha, hzero, congrArg Prod.snd (hall _ .refl)⟩

end SdeSystems.Heap
