import SdeSystems.Heap.Alloc
import SdeSystems.Heap.Free
import Mathlib.Data.List.Perm.Basic

/-!
# The heap in every run

`init_heap` makes a heap of one free block, and every call of `alloc` and `free_block` and
every write of the user keeps the representation. With it goes that the live pointers are
those to the payloads of the allocated blocks, so that `free_block` never meets a pointer it
refuses and a write never reaches a header or a footer.
-/

namespace SdeSystems.Heap

open Lib Function Relation

/-! ### `init_heap` -/

/-- The size of the region is rounded up to whole pages. -/
theorem dvd_padded (n : ℕ) {p : ℕ} (hp : 0 < p) : p ∣ n + (p - n % p) % p := by
  have hmod := Nat.mod_lt n hp
  have hdiv := Nat.div_add_mod n p
  by_cases h₀ : n % p = 0
  · rw [h₀, Nat.sub_zero, Nat.mod_self, Nat.add_zero]
    exact Nat.dvd_of_mod_eq_zero h₀
  · rw [Nat.mod_eq_of_lt (show p - n % p < p by omega)]
    refine ⟨n / p + 1, ?_⟩
    rw [Nat.mul_add, Nat.mul_one]
    omega

theorem toNat_srem {x y : Word} (hx : x.toNat < 2 ^ 31) (hy : y.toNat < 2 ^ 31) :
    (x.srem y).toNat = x.toNat % y.toNat := by
  have hx' : x.msb = false := BitVec.msb_eq_false_iff_two_mul_lt.mpr (by omega)
  have hy' : y.msb = false := BitVec.msb_eq_false_iff_two_mul_lt.mpr (by omega)
  rw [BitVec.srem_eq, hx', hy', BitVec.toNat_umod]

/-- `alloc_size` before the mapping: whole pages, at least one of them. -/
theorem toNat_padded (os : Os) {size : Word} (h : ¬ size.sle 0) :
    os.pagesize.toNat ∣ (size + (os.pagesize - size.srem os.pagesize).srem os.pagesize).toNat ∧
      0 < (size + (os.pagesize - size.srem os.pagesize).srem os.pagesize).toNat := by
  obtain ⟨h₈, h₁₆, hpage⟩ := os.pages
  have hpos : 0 < size.toInt := by
    simpa [BitVec.sle_iff_toInt_le] using h
  have hint := BitVec.toInt_eq_toNat_cond size
  have hlt := size.isLt
  have hsize : 0 < size.toNat ∧ size.toNat < 2 ^ 31 := by
    split at hint <;> omega
  have hmod := Nat.mod_lt size.toNat (show 0 < os.pagesize.toNat by omega)
  have hrem := toNat_srem hsize.2 hpage
  have hsub : (os.pagesize - size.srem os.pagesize).toNat = os.pagesize.toNat - size.toNat % os.pagesize.toNat := by
    rw [BitVec.toNat_sub_of_le (by rw [BitVec.le_def, hrem]; omega), hrem]
  have hpad := toNat_srem (show (os.pagesize - size.srem os.pagesize).toNat < 2 ^ 31 by omega) hpage
  have hpad' := Nat.mod_lt (os.pagesize - size.srem os.pagesize).toNat (show 0 < os.pagesize.toNat by omega)
  have hadd : (size + (os.pagesize - size.srem os.pagesize).srem os.pagesize).toNat =
      size.toNat + (os.pagesize.toNat - size.toNat % os.pagesize.toNat) % os.pagesize.toNat := by
    rw [BitVec.toNat_add, hpad, hsub, Nat.mod_eq_of_lt]
    rw [hsub] at hpad'
    omega
  rw [hadd]
  exact ⟨dvd_padded _ (by omega), by omega⟩

/-- A length that is negative as an `int` is too large for a mapping. -/
theorem toNat_signExtend {x : Word} :
    (x.signExtend 64).toNat = x.toNat ∧ x.toNat < 2 ^ 31 ∨ 2 ^ 47 < (x.signExtend 64).toNat := by
  have hx := x.isLt
  rw [BitVec.toNat_signExtend]
  have hw : (x.setWidth 64).toNat = x.toNat := by
    rw [BitVec.toNat_setWidth]
    omega
  by_cases hm : x.msb = true
  · exact .inr (by rw [hw, if_pos hm]; omega)
  · have := BitVec.msb_eq_false_iff_two_mul_lt.mp (Bool.eq_false_iff.mpr hm)
    exact .inl ⟨by rw [hw, if_neg hm]; omega, by omega⟩

/-- The heap that `init_heap` makes of the mapped pages. -/
theorem tiles_init {m : Bytes} {a n : ℕ} (hdvd : 8 ∣ n) (h₈ : 8 ≤ n) :
    let m₁ := (m.store (a + n) 1).store a (BitVec.ofNat 32 n)
    Tiles ((m₁.store a (m₁.load a + 2)).store (a + n - 4) (BitVec.ofNat 32 n)) a true [⟨n, false⟩] := by
  have hhead : BitVec.ofNat 32 n + 2 = header n true false := by
    rw [BitVec.add_eq_or_of_and_eq_zero _ _ (and_flags (and_three hdvd) (by decide))]
    simp [header, pBit]
  simp only [Bytes.load_store, hhead]
  refine tiles_cons.mpr ⟨⟨hdvd, h₈⟩, ?_, fun _ => Bytes.load_store, trivial, ?_⟩
  · rw [Bytes.load_store_of_disjoint (.inl (by omega)), Bytes.load_store]
  · rw [total_nil, Nat.add_zero, Bytes.load_store_of_disjoint (.inr (by dsimp only; omega)),
      Bytes.load_store_of_disjoint (.inr (by dsimp only; omega)),
      Bytes.load_store_of_disjoint (.inr (by dsimp only; omega)), Bytes.load_store]

/-- **`init_heap`** makes a heap of one free block. -/
theorem initHeap_rep {os : Os} {h : Heap} {size : Word} (hinit : (initHeap os h size).2 = 0) :
    ∃ n, Rep (initHeap os h size).1 [⟨n, false⟩] := by
  have h₁ : ¬ h.allocatedOnce := fun h₁ => by simp [initHeap, h₁] at hinit
  have h₂ : ¬ size.sle 0 := fun h₂ => by
    rw [initHeap, if_neg h₁, if_pos h₂] at hinit
    cases hinit
  have h₃ : ¬ !os.opens := fun h₃ => by
    rw [initHeap, if_neg h₁, if_neg h₂, if_pos h₃] at hinit
    cases hinit
  rw [initHeap, if_neg h₁, if_neg h₂, if_neg h₃] at hinit ⊢
  obtain ⟨hpage, hpos⟩ := toNat_padded os h₂
  obtain ⟨hp₈, hp₁₆, -⟩ := os.pages
  generalize size + (os.pagesize - size.srem os.pagesize).srem os.pagesize = A at *
  dsimp only at hinit ⊢
  split at hinit
  · simp at hinit
  · rename_i p hmap
    obtain ⟨hp, -, hroom⟩ := os.mapped _ _ hmap
    rcases toNat_signExtend (x := A) with ⟨hA, hlt⟩ | hbig
    · have hge := Nat.le_of_dvd hpos hpage
      have hdvd : 8 ∣ A.toNat := Nat.dvd_trans hp₈ hpage
      have hsub : A - 8 = BitVec.ofNat 32 (A.toNat - 8) := by
        apply BitVec.eq_of_toNat_eq
        simp only [BitVec.toNat_sub, BitVec.ofNat_eq_ofNat, BitVec.toNat_ofNat]
        omega
      refine ⟨A.toNat - 8, ?_⟩
      simp only [hsub, plus_ofNat (show A.toNat - 8 < 2 ^ 31 by omega)]
      refine ⟨tiles_init (by omega) (by omega), ?_, ?_, ?_, ?_⟩
      · rw [toNat_ofNat_of_lt (by omega)]
        simp
      · simp only [total_cons, total_nil]
        omega
      · dsimp only
        omega
      · exact List.isChain_singleton _
    · omega

/-! ### Runs -/

/-- The heap is the blocks `bs`, and the live pointers are those to the payloads of the
allocated ones. -/
structure Ok (σ : State) (bs : List Block) : Prop where
  /-- The representation. -/
  rep : Rep σ.heap bs
  /-- The live pointers. -/
  live : σ.live.Perm ((allocs σ.heap.heapStart bs).map (· + 4))

variable {os : Os} {σ σ' : State} {bs : List Block}

/-- A live pointer is one to the payload of a block. -/
theorem Ok.block (h : Ok σ bs) {p : ℕ} (hp : p ∈ σ.live) :
    ∃ l n r, bs = l ++ ⟨n, true⟩ :: r ∧ p = σ.heap.heapStart + total l + 4 := by
  obtain ⟨x, hx, rfl⟩ := List.mem_map.mp (h.live.mem_iff.mp hp)
  rw [allocs_eq] at hx
  obtain ⟨q, hq, rfl⟩ := List.mem_map.mp hx
  obtain ⟨l, n, r, hbs, rfl⟩ := exists_of_mem_payloads hq
  exact ⟨l, n, r, hbs, rfl⟩

theorem Ok.alloc (h : Ok σ bs) {size : Word} {out : Heap × Option ℕ} (ha : Allocates σ.heap bs size out) :
    ∃ bs', Ok ⟨out.1, out.2.toList ++ σ.live⟩ bs' := by
  cases ha with
  | null => exact ⟨bs, h⟩
  | @fit l r n m _ hbs _ hrep =>
    subst hbs
    refine ⟨_, hrep, ?_⟩
    have hlive := h.live
    simp only [allocs_append, allocs, Bool.false_eq_true, if_false] at hlive
    simp only [allocs_append, allocs_carve, total_carve, List.map_append, List.map_cons,
      List.singleton_append, Option.toList_some]
    rw [List.map_append] at hlive
    exact (hlive.cons _).trans List.perm_middle.symm

/-- A call of `free_block` marks the block free, and free blocks side by side become one. -/
theorem Ok.free (h : Ok σ bs) {p : ℕ} (hp : p ∈ σ.live) :
    (freeBlock σ.heap p).2 = 0 ∧
      Ok ⟨(freeBlock σ.heap p).1, σ.live.erase p⟩ (coalesce (freed [p] σ.heap.heapStart bs)) := by
  obtain ⟨l, n, r, rfl, rfl⟩ := h.block hp
  rw [h.rep.freeBlock, freed_singleton h.rep.tiles.1.pos]
  refine ⟨rfl, h.rep.release, ?_⟩
  have hlive := h.live
  simp only [allocs_append, allocs, if_true, List.map_append, List.map_cons] at hlive
  simp only [allocs_coalesce, allocs_append, allocs, Bool.false_eq_true, if_false, List.map_append]
  have := (hlive.trans List.perm_middle).erase (σ.heap.heapStart + total l + 4)
  rwa [List.erase_cons_head] at this

/-- A write inside a payload keeps the representation. -/
theorem Rep.write {h : Heap} (hrep : Rep h bs) {q : ℕ × ℕ} (hq : q ∈ payloads h.heapStart bs) {x : ℕ} {b : UInt8}
    (hlo : q.1 ≤ x) (hhi : x < q.1 + q.2) : Rep { h with mem := update h.mem x b } bs := by
  obtain ⟨l, n, r, rfl, rfl⟩ := exists_of_mem_payloads hq
  obtain ⟨hl, hblock⟩ := tiles_append.mp hrep.tiles
  obtain ⟨hn, hh, -, hr⟩ := tiles_cons.mp hblock
  dsimp only at hn hh hr hlo hhi
  have hag {c d : ℕ} (hx : d ≤ x ∨ x < c) : h.mem.AgreeOn (update h.mem x b) c d :=
    fun y hc hd => update_of_ne (by omega) ..
  refine ⟨?_, hrep.total_eq, hrep.total_lt, hrep.start, hrep.coalesced⟩
  refine tiles_append.mpr ⟨hl.frame (hag (.inl (by omega))), tiles_cons.mpr ⟨hn, ?_, by simp, ?_⟩⟩
  · exact (Bytes.load_congr (hag (.inl (by omega)))).trans hh
  · exact hr.frame (hag (.inr (by omega)))

theorem Ok.write (h : Ok σ bs) {p x : ℕ} {b : UInt8} (hp : p ∈ σ.live) (hlo : p ≤ x)
    (hhi : x < plus (p - 4) (getSize (σ.heap.mem.load (p - 4)))) :
    Ok ⟨{ σ.heap with mem := update σ.heap.mem x b }, σ.live⟩ bs := by
  obtain ⟨l, n, r, rfl, rfl⟩ := h.block hp
  have hlt := h.rep.total_lt
  simp only [total_append, total_cons] at hlt
  obtain ⟨-, hblock⟩ := tiles_append.mp h.rep.tiles
  obtain ⟨hn, hh, -⟩ := tiles_cons.mp hblock
  dsimp only at hn hh
  rw [Nat.add_sub_cancel, hh, getSize_header hn.1, plus_ofNat (by omega)] at hhi
  have hq : (σ.heap.heapStart + total l + 4, n - 4) ∈ payloads σ.heap.heapStart (l ++ ⟨n, true⟩ :: r) := by
    simp [payloads]
  exact ⟨h.rep.write hq hlo (by dsimp only; omega), h.live⟩

/-- One call, or one write, keeps the representation. -/
theorem Ok.step (h : Ok σ bs) (hs : Step σ σ') : ∃ bs', Ok σ' bs' := by
  cases hs with
  | alloc size fuel h' r hsize ha =>
    obtain ⟨out, hout, -, huniq⟩ := alloc_spec h.rep hsize
    obtain rfl := huniq fuel _ ha
    exact h.alloc hout
  | free p hp => exact ⟨_, (h.free hp).2⟩
  | write p x b hp hlo hhi => exact ⟨bs, h.write hp hlo hhi⟩

theorem Reachable.ok (h : Reachable os σ) : ∃ bs, Ok σ bs := by
  obtain ⟨h₀, size, hinit, hrun⟩ := h
  induction hrun with
  | refl =>
    obtain ⟨n, hrep⟩ := initHeap_rep hinit
    exact ⟨_, hrep, List.Perm.nil⟩
  | tail _ hs ih =>
    obtain ⟨bs, hok⟩ := ih
    exact hok.step hs

/-- **The representation invariant of the heap.** In every run the heap is a list of blocks:
they tile it exactly up to the end mark, their sizes are multiples of 8, each header has the
size and the two flags, each free block has its footer, and no two free blocks stand side by
side. -/
theorem heap_representation (h : Reachable os σ) : ∃ bs, Rep σ.heap bs := by
  obtain ⟨bs, hok⟩ := h.ok
  exact ⟨bs, hok.rep⟩

/-- An operating system with pages of 32 bytes. -/
def smallOs : Os where
  pagesize := 32
  opens := true
  mmap n := if n = 32 then some 64 else none
  pages := by decide
  mapped n p h := by
    split at h
    · cases h
      omega
    · cases h

/-- The heap after `init_heap(20)`. -/
def smallHeap : Heap := (initHeap smallOs ⟨fun _ => 0, 0, 0, false⟩ 20).1

/-- After `init_heap(20)`, `alloc(4)` splits the block, and its pointer is freed. -/
theorem heap_representation_split : ∃ h, Heap.alloc 2 smallHeap 4 = some (h, some 72) ∧
    ∃ bs, Rep (freeBlock h 72).1 bs := by
  have hinit : (initHeap smallOs ⟨fun _ => 0, 0, 0, false⟩ 20).2 = 0 := by decide
  obtain ⟨h, ha⟩ : ∃ h, Heap.alloc 2 smallHeap 4 = some (h, some 72) := ⟨_, rfl⟩
  have hrun : ReflTransGen Step ⟨smallHeap, []⟩ ⟨(freeBlock h 72).1, [72].erase 72⟩ :=
    (ReflTransGen.single (.alloc 4 2 h (some 72) (by decide) ha)).tail (.free 72 (by simp))
  have hreach : Reachable smallOs ⟨(freeBlock h 72).1, [72].erase 72⟩ := ⟨_, _, hinit, hrun⟩
  exact ⟨h, ha, heap_representation hreach⟩

/-- In every run `alloc` returns, and `free_block` of a live pointer succeeds. -/
theorem heap_calls_return (h : Reachable os σ) :
    (∀ size : Word, size.toInt + 11 < 2 ^ 31 → ∃ out fuel₀, ∀ fuel, fuel₀ < fuel →
      Heap.alloc fuel σ.heap size = some out) ∧ ∀ p ∈ σ.live, (freeBlock σ.heap p).2 = 0 := by
  obtain ⟨bs, hok⟩ := h.ok
  constructor
  · intro size hsize
    obtain ⟨out, -, hrun, -⟩ := alloc_spec hok.rep hsize
    exact ⟨out, bs.length, hrun⟩
  · intro p hp
    exact (hok.free hp).1

end SdeSystems.Heap
