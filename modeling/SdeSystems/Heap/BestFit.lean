import SdeSystems.Heap.Invariant

/-!
# Which block `alloc` takes

Two results about one call of `alloc` in a heap that is a list of blocks, free ones
side by side or not (`Laid`).

**`alloc_best_fit`** is about the sizes for which the rounding does not overflow:
`NULL` means that no free block is large enough, and otherwise the block taken is
the lowest of the smallest that are.

**`alloc_covers_iff`** is about all sizes. From 2147483637 on the `int`
`required_size` overflows to a negative number, every free block is larger than
that, and `alloc` returns one that is too small for the request.
-/

namespace SdeSystems.Heap

open Lib Function

variable {h : Heap} {bs : List Block} {size : Word}

/-! ### Best fit -/

/-- `r` is the least multiple of 8 that is at least `n`. -/
structure LeastMultiple (n : ℤ) (r : ℕ) : Prop where
  /-- It is a multiple of 8. -/
  dvd : 8 ∣ r
  /-- It is at least `n`. -/
  le : n ≤ r
  /-- No other is smaller. -/
  least : ∀ k : ℕ, 8 ∣ k → n ≤ k → r ≤ k

theorem leastMultiple_roundUp (n : ℕ) : LeastMultiple (n + 4) (roundUp n) := by
  refine ⟨dvd_roundUp n, ?_, ?_⟩
  · have := le_roundUp n
    omega
  · intro k hk hle
    unfold roundUp
    omega

/-- Of the block of `n` bytes that is taken, what becomes of it. -/
def taken (r n : ℕ) : List Block := if n = r then [⟨r, true⟩] else [⟨r, true⟩, ⟨n - r, false⟩]

/-- Sizes are multiples of 8, so what is left of a larger block is a block. -/
theorem carve_eq {r n : ℕ} (hr : 8 ∣ r) (hn : 8 ∣ n) (hle : r ≤ n) : carve r n = taken r n := by
  unfold carve taken
  by_cases heq : n = r
  · rw [if_neg (by omega), if_pos heq, heq]
  · rw [if_pos (by omega), if_neg heq]

/-- The block of `n` bytes behind `l` is the lowest of the smallest free blocks of
`bs` that have `r` bytes. -/
structure LowestSmallest (r : ℕ) (bs l : List Block) (n : ℕ) (rest : List Block) : Prop where
  /-- It is a free block of the heap. -/
  free : bs = l ++ ⟨n, false⟩ :: rest
  /-- It is large enough. -/
  large : r ≤ n
  /-- Those below it that are large enough are larger. -/
  below : ∀ b ∈ l, b.allocated = false → r ≤ b.size → n < b.size
  /-- Those above it that are large enough are no smaller. -/
  above : ∀ b ∈ rest, b.allocated = false → r ≤ b.size → n ≤ b.size

theorem toInt_of_pos (h₁ : 1 ≤ size.toInt) : size.toInt = size.toNat := by
  have hlt := size.isLt
  rw [BitVec.toInt_eq_toNat_cond] at h₁ ⊢
  split at h₁ <;> rename_i hc
  · rw [if_pos hc]
  · omega

theorem not_slt_one (h₁ : 1 ≤ size.toInt) : ¬ size.slt 1 := by
  rw [BitVec.slt_iff_toInt_lt]
  have : (1 : Word).toInt = 1 := rfl
  omega

/-- The block that is found has a size that is a multiple of 8. -/
theorem Laid.dvd {l r : List Block} {n : ℕ} {a : Bool} (hlaid : Laid h (l ++ ⟨n, a⟩ :: r)) : 8 ∣ n := by
  obtain ⟨-, hn, -⟩ := seg_append.mp hlaid.tiles.1
  exact hn.1

/-- **`alloc` is best fit and complete.** For a size with no overflow, and with `r` the
least multiple of 8 that has room for the payload and the header, `NULL` is returned,
and nothing is changed, exactly when no free block has `r` bytes; otherwise the lowest
of the smallest free blocks with `r` bytes is taken, with a free remainder exactly when
it is larger than `r`, and all other blocks stay. -/
theorem alloc_best_fit (hlaid : Laid h bs) (h₁ : 1 ≤ size.toInt) (hsize : size.toInt + 11 < 2 ^ 31) :
    ∃ r, LeastMultiple (size.toInt + 4) r ∧ ∃ out, (∀ fuel, bs.length < fuel → alloc fuel h size = some out) ∧
      (out.2 = none ↔ ∀ b ∈ bs, b.allocated = false → b.size < r) ∧ (out.2 = none → out.1 = h) ∧
      ∀ p, out.2 = some p → ∃ l n rest, LowestSmallest r bs l n rest ∧ p = h.heapStart + total l + 4 ∧
        Laid out.1 (l ++ taken r n ++ rest) ∧ out.1.heapStart = h.heapStart := by
  have hslt := not_slt_one h₁
  refine ⟨roundUp size.toNat, toInt_of_pos h₁ ▸ leastMultiple_roundUp _, ?_⟩
  obtain ⟨out, ⟨hrun, -⟩, ⟨rfl, hno⟩ | ⟨-, l, n, rest, rfl, hbest, rfl⟩⟩ := alloc_out hlaid hsize
  · refine ⟨_, hrun, ?_, fun _ => rfl, by simp⟩
    have hnone := hno.resolve_left hslt
    apply iff_of_true rfl
    intro b hb hfree
    have := hnone b hb
    simp only [Fits, hfree, true_and] at this
    omega
  · refine ⟨_, hrun, ?_, by simp, ?_⟩
    · apply iff_of_false (by simp)
      intro hall
      have := hall ⟨n, false⟩ (by simp) rfl
      have := hbest.fits
      dsimp only at *
      omega
    · intro p hp
      refine ⟨l, n, rest, ?_, (Option.some.inj hp).symm, ?_, rfl⟩
      · exact ⟨rfl, hbest.fits, fun b hb hfree hle => hbest.before b hb ⟨hfree, hle⟩,
          fun b hb hfree hle => hbest.behind b hb ⟨hfree, hle⟩⟩
      · rw [← carve_eq (dvd_roundUp _) hlaid.dvd hbest.fits, List.append_assoc]
        exact hlaid.fit (dvd_roundUp _) (eight_le_roundUp hslt) hbest.fits

/-- The heap that `init_heap(20)` leaves is one free block of 24 bytes. -/
theorem smallHeap_rep : Rep smallHeap [⟨24, false⟩] := by
  have hinit : (initHeap smallOs ⟨fun _ => 0, 0, 0, false⟩ 20).2 = 0 := by decide
  obtain ⟨n, hrep⟩ : ∃ n, Rep smallHeap [⟨n, false⟩] := initHeap_rep hinit
  have hsize : smallHeap.allocSize.toNat = 24 := by decide
  have hn : n = 24 := by
    have := hrep.total_eq
    simpa [hsize] using this
  exact hn ▸ hrep

/-- `alloc(4)` takes 8 of the 24 bytes. -/
theorem alloc_best_fit_small : ∃ h, Heap.alloc 2 smallHeap 4 = some (h, some 72) ∧
    Laid h [⟨8, true⟩, ⟨16, false⟩] := by
  obtain ⟨r, hr, ⟨h, p⟩, hrun, hnone, -, hsome⟩ :=
    alloc_best_fit smallHeap_rep.laid (show 1 ≤ (4 : Word).toInt by decide) (by decide)
  obtain rfl : r = 8 := by
    have hle : ((4 : Word).toInt + 4 : ℤ) = 8 := by decide
    have h₁ := hr.le
    have h₂ := hr.least 8 (Nat.dvd_refl 8)
    omega
  cases p with
  | none =>
    have := hnone.mp rfl ⟨24, false⟩ (by simp) rfl
    simp at this
  | some p =>
    obtain ⟨l, n, rest, hlow, hp, hlaid, -⟩ := hsome p rfl
    have hfree := hlow.free
    cases l with
    | cons b l => simp at hfree
    | nil =>
      obtain ⟨hn, rfl⟩ := List.cons.inj hfree
      obtain rfl : 24 = n := congrArg Block.size hn
      have hstart : smallHeap.heapStart = 68 := by decide
      rw [hstart] at hp
      subst hp
      exact ⟨h, hrun 2 (by decide), hlaid⟩

/-! ### Every size -/

/-- What is to hold of a call of `alloc`: a pointer is to a block of the heap with room
for `size` bytes behind its header, and without one nothing is changed. -/
def Covers (h : Heap) (bs : List Block) (size : Word) : Prop :=
  ∃ out, (∀ fuel, bs.length < fuel → alloc fuel h size = some out) ∧
    (∀ p, out.2 = some p → 1 ≤ size.toInt ∧ size.toInt ≤ (getSize (out.1.mem.load (p - 4))).toInt - 4 ∧
      ∃ bs', Laid out.1 bs' ∧ p - 4 ∈ allocs out.1.heapStart bs') ∧
    (out.2 = none → out.1 = h)

/-- The header of a block. -/
theorem Laid.getSize {l r : List Block} {n : ℕ} {a : Bool} (hlaid : Laid h (l ++ ⟨n, a⟩ :: r)) :
    (getSize (h.mem.load (h.heapStart + total l))).toInt = n := by
  have hlt := hlaid.total_lt
  simp only [total_append, total_cons] at hlt
  obtain ⟨-, hn, hh, -⟩ := seg_append.mp hlaid.tiles.1
  dsimp only at hn hh
  rw [hh, getSize_header hn.1, toInt_ofNat_of_lt (by omega)]

/-- Where nothing overflows, the block is large enough. -/
theorem covers_of_small (hlaid : Laid h bs) (hsize : size.toInt + 11 < 2 ^ 31) : Covers h bs size := by
  obtain ⟨out, ⟨hrun, -⟩, ⟨rfl, -⟩ | ⟨hslt, l, n, rest, rfl, hbest, rfl⟩⟩ := alloc_out hlaid hsize
  · exact ⟨_, hrun, by simp, fun _ => rfl⟩
  refine ⟨_, hrun, ?_, by simp⟩
  intro p hp
  obtain rfl := Option.some.inj hp
  have h₁ : 1 ≤ size.toInt := by
    simpa [BitVec.slt_iff_toInt_lt] using hslt
  have hle := le_roundUp size.toNat
  have hroom := hbest.fits
  have hint := toInt_of_pos h₁
  have hlaid' := hlaid.fit (dvd_roundUp _) (eight_le_roundUp hslt) hbest.fits
  refine ⟨h₁, ?_, _, hlaid', by simp [allocs_carve]⟩
  rw [Nat.add_sub_cancel]
  by_cases hs : roundUp size.toNat + 8 ≤ n
  · rw [carve, if_pos hs] at hlaid'
    have := hlaid'.getSize
    dsimp only at this ⊢
    omega
  · rw [carve, if_neg hs] at hlaid'
    have := hlaid'.getSize
    dsimp only at this ⊢
    omega

/-- Without a free block there is nothing to take, whatever is asked for. -/
theorem covers_of_full {req : ℕ} (hlaid : Laid h bs) (hslt : ¬ size.slt 1) (hw : Asks (requiredSize size) req)
    (hfull : ∀ b ∈ bs, b.allocated = true) : Covers h bs size := by
  obtain ⟨⟨_ | p, w⟩, hres, halloc⟩ := alloc_search hlaid hslt hw
  · exact ⟨(h, none), fun fuel hf => by rw [halloc, if_pos hf]; rfl, by simp, fun _ => rfl⟩
  · obtain ⟨l, n, r, rfl, -⟩ := hres
    have := hfull ⟨n, false⟩ (by simp)
    cases this

/-! ### Sizes that overflow -/

/-- The sizes whose rounding overflows, and what it gives. -/
theorem requiredSize_overflow (hsize : 2 ^ 31 ≤ size.toInt + 11) :
    requiredSize size = BitVec.ofNat 32 (2 ^ 31) ∨ requiredSize size = BitVec.ofNat 32 (2 ^ 31 + 16) := by
  have hlt := size.isLt
  have hcond := BitVec.toInt_eq_toNat_cond size
  obtain ⟨k, hk, hn⟩ : ∃ k < 11, size.toNat = 2147483637 + k := by
    refine ⟨size.toNat - 2147483637, ?_⟩
    split at hcond <;> omega
  have hword : size = BitVec.ofNat 32 (2147483637 + k) := by
    apply BitVec.eq_of_toNat_eq
    rw [hn, BitVec.toNat_ofNat]
    omega
  have hall : ∀ k < 11, requiredSize (BitVec.ofNat 32 (2147483637 + k)) = BitVec.ofNat 32 (2 ^ 31) ∨
      requiredSize (BitVec.ofNat 32 (2147483637 + k)) = BitVec.ofNat 32 (2 ^ 31 + 16) := by
    decide
  exact hword ▸ hall k hk

theorem requiredSize_neg (hsize : 2 ^ 31 ≤ size.toInt + 11) : (requiredSize size).toInt < 0 := by
  rcases requiredSize_overflow hsize with hreq | hreq <;> rw [hreq] <;> decide

/-- A block that is allocated whole keeps its size. -/
theorem getSize_take {l r : List Block} {n : ℕ} (hlaid : Laid h (l ++ ⟨n, false⟩ :: r)) :
    (getSize ((take h.mem (h.heapStart + total l) (BitVec.ofNat 32 n)).load (h.heapStart + total l))).toInt = n := by
  have hlt := hlaid.total_lt
  simp only [total_append, total_cons] at hlt
  have ht := take_tiles hlaid.tiles (by omega)
  obtain ⟨-, hn, hh, -⟩ := seg_append.mp ht.1
  dsimp only at hn hh
  rw [hh, getSize_header hn.1, toInt_ofNat_of_lt (by omega)]

/-- A block of 8 bytes that is split at a negative size gets that size. The other words
are written at addresses of their own, as 0 is none of the heap. -/
theorem getSize_split {m : Bytes} {p : ℕ} (hp : 4 ≤ p) :
    getSize ((split m p (BitVec.ofNat 32 (2 ^ 31 + 16))
      (BitVec.ofNat 32 8 - BitVec.ofNat 32 (2 ^ 31 + 16))).load p) = BitVec.ofNat 32 (2 ^ 31 + 16) := by
  have hw : (BitVec.ofNat 32 (2 ^ 31 + 16) : Word).toInt = -2147483632 := by decide
  have hrem : (BitVec.ofNat 32 8 - BitVec.ofNat 32 (2 ^ 31 + 16) : Word) = BitVec.ofNat 32 2147483640 := by decide
  have hnew : plus p (BitVec.ofNat 32 (2 ^ 31 + 16)) = p - 2147483632 := by
    rw [plus, hw]
    omega
  have hload : (split m p (BitVec.ofNat 32 (2 ^ 31 + 16)) (BitVec.ofNat 32 2147483640)).load p =
      BitVec.ofNat 32 (2 ^ 31 + 16) ||| (if isPrevAllocated (m.load p) ≠ 0 then pBit else 0) ||| aBit := by
    simp only [Heap.split, hnew, plus_ofNat (show 2147483640 < 2 ^ 31 by decide)]
    rw [Bytes.load_congr (agreeOn_clearPrev (by omega)), Bytes.load_store_of_disjoint (by omega),
      Bytes.load_store_of_disjoint (by omega), Bytes.load_store]
  rw [hrem, hload]
  split <;> decide

/-- With an overflow the block that is returned is too small. -/
theorem getSize_overflow {l r : List Block} {n : ℕ} (hlaid : Laid h (l ++ ⟨n, false⟩ :: r))
    (hsize : 2 ^ 31 ≤ size.toInt + 11) :
    ¬ size.toInt ≤ (getSize ((if (8 : Word).sle (BitVec.ofNat 32 n - requiredSize size) then
        split h.mem (h.heapStart + total l) (requiredSize size) (BitVec.ofNat 32 n - requiredSize size)
      else take h.mem (h.heapStart + total l) (BitVec.ofNat 32 n)).load (h.heapStart + total l))).toInt - 4 := by
  have hlt := hlaid.total_lt
  simp only [total_append, total_cons] at hlt
  have hn := hlaid.dvd
  have hstart := hlaid.start
  -- whole, it has the `n` bytes it had
  have htake := getSize_take hlaid
  obtain ⟨-, ⟨-, h₈⟩, -⟩ := seg_append.mp hlaid.tiles.1
  dsimp only at h₈
  by_cases hs : (8 : Word).sle (BitVec.ofNat 32 n - requiredSize size)
  swap
  · rw [if_neg hs, htake]
    omega
  -- it is split only when what is left has not overflowed in its turn
  rw [BitVec.sle_iff_toInt_le, show (8 : Word).toInt = 8 from rfl] at hs
  have hrem : requiredSize size = BitVec.ofNat 32 (2 ^ 31 + 16) ∧ n = 8 := by
    have hsub (k : ℕ) (hk : n + (2 ^ 32 - k) < 2 ^ 32) (hk' : k < 2 ^ 32) :
        (BitVec.ofNat 32 n - BitVec.ofNat 32 k).toNat = n + (2 ^ 32 - k) := by
      rw [BitVec.toNat_sub, BitVec.toNat_ofNat, BitVec.toNat_ofNat]
      omega
    have hcond := BitVec.toInt_eq_toNat_cond (BitVec.ofNat 32 n - requiredSize size)
    rcases requiredSize_overflow hsize with hreq | hreq <;> rw [hreq] at hs hcond
    · rw [hsub _ (by omega) (by omega)] at hcond
      split at hcond <;> omega
    · rw [hsub _ (by omega) (by omega)] at hcond
      refine ⟨hreq, ?_⟩
      split at hcond <;> omega
  obtain ⟨hreq, rfl⟩ := hrem
  have hneg : (BitVec.ofNat 32 (2 ^ 31 + 16) : Word).toInt = -2147483632 := by decide
  rw [hreq, if_pos (by decide), getSize_split (by omega), hneg]
  omega

/-- **When `alloc` does not under-allocate.** In a heap that is a list of blocks, a call
of `alloc` with any `int` returns a block that is large enough, or changes nothing,
exactly when the size is below 1, or it does not overflow when it is rounded, or there
is no free block. -/
theorem alloc_covers_iff (hlaid : Laid h bs) : Covers h bs size ↔
    size.toInt < 1 ∨ size.toInt + 11 < 2 ^ 31 ∨ ∀ b ∈ bs, b.allocated = true := by
  constructor
  · intro hc
    by_contra hcon
    simp only [not_or, not_forall, Int.not_lt] at hcon
    obtain ⟨h₁, hsize, b, hb, hfree⟩ := hcon
    have hneg := asks_of_neg (requiredSize_neg hsize)
    obtain ⟨⟨_ | p, w⟩, hres, halloc⟩ := alloc_search hlaid (not_slt_one h₁) hneg
    · exact hres b hb ⟨Bool.eq_false_iff.mpr hfree, Nat.zero_le _⟩
    · obtain ⟨l, n, r, rfl, rfl, rfl, -⟩ := hres
      obtain ⟨out, hrun, hsome, -⟩ := hc
      have hout := hrun _ (Nat.lt_succ_self _)
      rw [halloc, if_pos (Nat.lt_succ_self _)] at hout
      obtain rfl := Option.some.inj hout
      have hle := (hsome _ rfl).2.1
      rw [Nat.add_sub_cancel] at hle
      exact getSize_overflow hlaid hsize hle
  · rintro (h₁ | hsize | hfull)
    · exact covers_of_small hlaid (by omega)
    · exact covers_of_small hlaid hsize
    · by_cases hsize : size.toInt + 11 < 2 ^ 31
      · exact covers_of_small hlaid hsize
      · have hbig : 2 ^ 31 ≤ size.toInt + 11 := by omega
        exact covers_of_full hlaid (not_slt_one (by omega)) (asks_of_neg (requiredSize_neg hbig)) hfull

/-- `alloc(4)` after `init_heap(20)` is given room. -/
theorem alloc_covers_small : Covers smallHeap [⟨24, false⟩] 4 :=
  (alloc_covers_iff smallHeap_rep.laid).mpr (.inr (.inl (by decide)))

/-- `alloc(2147483647)` after `init_heap(20)` returns the block of 24 bytes. -/
theorem alloc_short : ¬ Covers smallHeap [⟨24, false⟩] 2147483647 ∧
    ∃ h, Heap.alloc 2 smallHeap 2147483647 = some (h, some 72) ∧ (getSize (h.mem.load 68)).toInt = 24 := by
  have hrun : (Heap.alloc 2 smallHeap 2147483647).map
      (fun out => decide (out.2 = some 72 ∧ (getSize (out.1.mem.load 68)).toInt = 24)) = some true := by
    decide +kernel
  obtain ⟨⟨h, p⟩, ha, hp⟩ := Option.map_eq_some_iff.mp hrun
  obtain ⟨rfl, hsize⟩ := of_decide_eq_true hp
  refine ⟨?_, h, ha, hsize⟩
  rintro ⟨out, hrun, hsome, -⟩
  obtain rfl := Option.some.inj ((hrun 2 (by decide)).symm.trans ha)
  have hle := (hsome 72 rfl).2.1
  dsimp only at hsize
  rw [show 72 - 4 = 68 from rfl, hsize] at hle
  revert hle
  decide

end SdeSystems.Heap
