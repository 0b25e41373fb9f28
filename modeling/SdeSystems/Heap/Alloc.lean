import SdeSystems.Heap.Blocks

/-!
# `alloc` on blocks

What `alloc` does to a heap that is a list of blocks. The search finds the lowest of the
smallest free blocks that are large enough (`Best`), and the block found is allocated whole or
split in two.
-/

namespace SdeSystems.Heap

open Lib Function

/-! ### The size asked for -/

/-- The payload and the header, rounded up to a multiple of 8. -/
def roundUp (size : ℕ) : ℕ := (size + 4 + 7) / 8 * 8

theorem dvd_roundUp (size : ℕ) : 8 ∣ roundUp size := Nat.dvd_mul_left ..

theorem le_roundUp (size : ℕ) : size + 4 ≤ roundUp size := by
  unfold roundUp
  omega

theorem roundUp_le (size : ℕ) : roundUp size ≤ size + 11 := by
  unfold roundUp
  omega

theorem eight_le_roundUp {size : Word} (h : ¬ size.slt 1) : 8 ≤ roundUp size.toNat := by
  have hpos : size.toNat ≠ 0 := fun h₀ => h (by rw [BitVec.eq_of_toNat_eq (y := (0 : Word)) h₀]; decide)
  unfold roundUp
  omega

/-- The remainder of two words that are not negative. -/
theorem srem_eight {n : ℕ} (h : n < 2 ^ 31) : (BitVec.ofNat 32 n).srem 8 = BitVec.ofNat 32 (n % 8) := by
  have hmsb : (BitVec.ofNat 32 n).msb = false := by
    rw [BitVec.msb_eq_false_iff_two_mul_lt, toNat_ofNat_of_lt h]
    omega
  rw [BitVec.srem_eq, hmsb, show (8 : Word).msb = false from rfl]
  apply BitVec.eq_of_toNat_eq
  have h₈ : (8 : Word).toNat = 8 := rfl
  rw [BitVec.toNat_umod, toNat_ofNat_of_lt h, h₈, toNat_ofNat_of_lt (by omega)]

theorem requiredSize_eq {size : Word} (h₁ : ¬ size.slt 1) (h : size.toInt + 11 < 2 ^ 31) :
    requiredSize size = BitVec.ofNat 32 (roundUp size.toNat) ∧ size.toNat + 11 < 2 ^ 31 := by
  have hpos : 1 ≤ size.toInt := by
    simpa [BitVec.slt_iff_toInt_lt] using h₁
  have hint := BitVec.toInt_eq_toNat_cond size
  have hn : size.toNat + 11 < 2 ^ 31 := by
    split at hint <;> omega
  have hr : size + 4 = BitVec.ofNat 32 (size.toNat + 4) := by
    apply BitVec.eq_of_toNat_eq
    simp only [BitVec.toNat_add, BitVec.ofNat_eq_ofNat, BitVec.toNat_ofNat]
  refine ⟨?_, hn⟩
  unfold requiredSize roundUp
  simp only [hr, srem_eight (show size.toNat + 4 < 2 ^ 31 by omega)]
  have hmod : BitVec.ofNat 32 ((size.toNat + 4) % 8) ≠ 0 ↔ (size.toNat + 4) % 8 ≠ 0 := by
    rw [ne_eq, ← BitVec.toNat_inj, toNat_ofNat_of_lt (by omega)]
    rfl
  split <;> rename_i hne <;> rw [hmod] at hne
  · apply BitVec.eq_of_toNat_eq
    simp only [BitVec.toNat_add, BitVec.toNat_sub, BitVec.ofNat_eq_ofNat, BitVec.toNat_ofNat]
    omega
  · congr 1
    omega

/-! ### The search -/

/-- A free block that is large enough. -/
def Fits (req : ℕ) (b : Block) : Prop := b.allocated = false ∧ req ≤ b.size

instance (req : ℕ) (b : Block) : Decidable (Fits req b) := inferInstanceAs (Decidable (_ ∧ _))

/-- The block of `n` bytes behind `l` is the best fit among `l`, itself and `r`. -/
structure Best (req : ℕ) (l : List Block) (n : ℕ) (r : List Block) : Prop where
  /-- It is large enough. -/
  fits : req ≤ n
  /-- Those before it that fit are larger. -/
  before : ∀ b ∈ l, Fits req b → n < b.size
  /-- Those behind it that fit are no smaller. -/
  behind : ∀ b ∈ r, Fits req b → n ≤ b.size

/-- What the search has found when the blocks `seen` are behind it. -/
def Found (req a : ℕ) (seen : List Block) : Option ℕ × Word → Prop
  | (none, _) => ∀ b ∈ seen, ¬ Fits req b
  | (some p, w) =>
    ∃ l n r, seen = l ++ ⟨n, false⟩ :: r ∧ p = a + total l ∧ w = BitVec.ofNat 32 n ∧ Best req l n r

section

variable {m : Bytes} {req a : ℕ} {prev : Bool} {seen bs : List Block} {b : Block} {best : Option ℕ × Word}

/-- The best fit does not change at a block that does not fit or is no smaller. -/
theorem Found.skip (h : Found req a seen best)
    (hb : Fits req b → ∃ n < 2 ^ 31, best.1 ≠ none ∧ best.2 = BitVec.ofNat 32 n ∧ n ≤ b.size)
    (hlt : total (seen ++ [b]) < 2 ^ 31) : Found req a (seen ++ [b]) best := by
  obtain ⟨_ | p, w⟩ := best
  · intro c hc hfit
    rcases List.mem_append.mp hc with hc | hc
    · exact h c hc hfit
    · obtain rfl := List.mem_singleton.mp hc
      obtain ⟨n, -, hn, -⟩ := hb hfit
      exact hn rfl
  · obtain ⟨l, n, r, rfl, hp, hw, hbest⟩ := h
    refine ⟨l, n, r ++ [b], by simp, hp, hw, hbest.fits, hbest.before, ?_⟩
    intro c hc hfit
    rcases List.mem_append.mp hc with hc | hc
    · exact hbest.behind c hc hfit
    · obtain rfl := List.mem_singleton.mp hc
      obtain ⟨k, hk, -, hwk, hle⟩ := hb hfit
      simp only [total_append, total_cons] at hlt
      have : n = k := by
        rw [← toNat_ofNat_of_lt (show n < 2 ^ 31 by omega), ← toNat_ofNat_of_lt hk, ← hwk, ← hw]
      omega

/-- The best fit becomes the block at hand, when it fits and is smaller. -/
theorem Found.take (h : Found req a seen best) {n : ℕ} (hfit : req ≤ n)
    (hb : best.1 = none ∨ ∃ k < 2 ^ 31, best.2 = BitVec.ofNat 32 k ∧ n < k)
    (hlt : total seen < 2 ^ 31) :
    Found req a (seen ++ [⟨n, false⟩]) (some (a + total seen), BitVec.ofNat 32 n) := by
  refine ⟨seen, n, [], rfl, rfl, rfl, hfit, ?_, by simp⟩
  intro c hc hc'
  obtain ⟨_ | p, w⟩ := best
  · exact absurd hc' (h c hc)
  · obtain ⟨l, k, r, rfl, -, hw, hbest⟩ := h
    obtain ⟨k', hk', hw', hnk⟩ : ∃ k' < 2 ^ 31, w = BitVec.ofNat 32 k' ∧ n < k' := by
      simpa using hb
    simp only [total_append, total_cons] at hlt
    have hkk : k = k' := by
      rw [← toNat_ofNat_of_lt (show k < 2 ^ 31 by omega), ← toNat_ofNat_of_lt hk', ← hw, ← hw']
    rcases List.mem_append.mp hc with hc | hc
    · have := hbest.before c hc hc'
      omega
    · rcases List.mem_cons.mp hc with rfl | hc
      · exact hkk ▸ hnk
      · have := hbest.behind c hc hc'
        omega

theorem sle_ofNat {n k : ℕ} (hn : n < 2 ^ 31) (hk : k < 2 ^ 31) :
    (BitVec.ofNat 32 n).sle (BitVec.ofNat 32 k) ↔ n ≤ k := by
  rw [BitVec.sle_iff_toInt_le, toInt_ofNat_of_lt hn, toInt_ofNat_of_lt hk, Int.ofNat_le]

theorem slt_ofNat {n k : ℕ} (hn : n < 2 ^ 31) (hk : k < 2 ^ 31) :
    (BitVec.ofNat 32 n).slt (BitVec.ofNat 32 k) ↔ n < k := by
  rw [BitVec.slt_iff_toInt_lt, toInt_ofNat_of_lt hn, toInt_ofNat_of_lt hk, Int.ofNat_lt]

/-- What was found has a size that is an `int`. -/
theorem Found.size_lt (h : Found req a seen best) (hlt : total seen < 2 ^ 31) (hne : best.1 ≠ none) :
    ∃ k < 2 ^ 31, best.2 = BitVec.ofNat 32 k := by
  obtain ⟨_ | p, w⟩ := best
  · exact absurd rfl hne
  · obtain ⟨l, k, r, rfl, -, hw, -⟩ := h
    simp only [total_append, total_cons] at hlt
    exact ⟨k, by omega, hw⟩

/-- The word that is compared with the sizes asks for blocks of `req` bytes; a negative one
asks for nothing. -/
def Asks (w : Word) (req : ℕ) : Prop := ∀ n < 2 ^ 31, w.sle (BitVec.ofNat 32 n) ↔ req ≤ n

theorem asks_ofNat (h : req < 2 ^ 31) : Asks (BitVec.ofNat 32 req) req := fun _ hn => sle_ofNat h hn

theorem asks_of_neg {w : Word} (h : w.toInt < 0) : Asks w 0 := by
  intro n hn
  rw [BitVec.sle_iff_toInt_le, toInt_ofNat_of_lt hn]
  exact iff_of_true (by omega) (Nat.zero_le n)

/-- One turn of the loop finds the best fit of one more block. -/
theorem Found.step {w : Word} (h : Found req a seen best) (hw : Asks w req)
    (hlt : total seen + b.size < 2 ^ 31) :
    Found req a (seen ++ [b])
      (if b.allocated = false ∧ w.sle (BitVec.ofNat 32 b.size) ∧
          (best.1 = none ∨ (BitVec.ofNat 32 b.size).slt best.2) then
        (some (a + total seen), BitVec.ofNat 32 b.size)
      else best) := by
  have hsz : b.size < 2 ^ 31 := by omega
  have hlt' : total (seen ++ [b]) < 2 ^ 31 := by
    simpa using hlt
  simp only [hw _ hsz]
  split <;> rename_i hc
  · obtain ⟨n, al⟩ := b
    obtain ⟨rfl, hfit, hb⟩ := hc
    refine h.take hfit ?_ (by omega)
    by_cases hne : best.1 = none
    · exact .inl hne
    · obtain ⟨k, hk, hw⟩ := h.size_lt (by omega) hne
      rw [hw, slt_ofNat hsz hk] at hb
      exact .inr ⟨k, hk, hw, hb.resolve_left hne⟩
  · refine h.skip ?_ hlt'
    intro hfit
    have hne : best.1 ≠ none := fun hn => hc ⟨hfit.1, hfit.2, .inl hn⟩
    obtain ⟨k, hk, hw⟩ := h.size_lt (by omega) hne
    refine ⟨k, hk, hne, hw, ?_⟩
    by_contra hcon
    exact hc ⟨hfit.1, hfit.2, .inr (by rw [hw, slt_ofNat hsz hk]; omega)⟩

/-- The search goes over all the blocks, and then it has the best fit of them all. -/
theorem search_found {w : Word} (hw : Asks w req) (ht : Tiles m (a + total seen) prev bs)
    (hlt : total (seen ++ bs) < 2 ^ 31) (h : Found req a seen best) :
    ∃ res, Found req a (seen ++ bs) res ∧ ∀ fuel,
      search m w fuel (a + total seen) best.1 best.2 =
        if bs.length < fuel then some res else none := by
  induction bs generalizing seen prev best with
  | nil =>
    refine ⟨best, by simpa using h, ?_⟩
    intro fuel
    have he : m.load (a + total seen) = 1 := ht.2
    cases fuel with
    | zero => rfl
    | succ fuel => simp [search, he]
  | cons b bs ih =>
    obtain ⟨hb, hh, -, ht'⟩ := tiles_cons.mp ht
    have hsum : total seen + b.size + total bs < 2 ^ 31 := by
      simpa [Nat.add_assoc] using hlt
    have hsz : b.size < 2 ^ 31 := by omega
    rw [show a + total seen + b.size = a + total (seen ++ [b]) by simp [Nat.add_assoc]] at ht'
    obtain ⟨res, hres, hrun⟩ := ih ht' (by simpa using hlt) (h.step (b := b) hw (by omega))
    refine ⟨res, by simpa using hres, ?_⟩
    intro fuel
    cases fuel with
    | zero => rfl
    | succ fuel =>
      have hal : isAllocated (header b.size prev b.allocated) = 0 ↔ b.allocated = false := by
        rw [isAllocated_header hb.1]
        cases b.allocated <;> decide
      have hnext : plus (a + total seen) (BitVec.ofNat 32 b.size) = a + total (seen ++ [b]) := by
        rw [plus_ofNat hsz]
        simp [Nat.add_assoc]
      simp only [List.length_cons, Nat.add_lt_add_iff_right, ← hrun fuel]
      rw [search, hh, if_pos (header_ne_one hb.1 hb.2 (by omega))]
      simp only [getSize_header hb.1, hal, hnext]
      split <;> rfl

end

/-! ### The block found -/

/-- What becomes of a free block of `n` bytes when `req` of them are allocated. -/
def carve (req n : ℕ) : List Block := if req + 8 ≤ n then [⟨req, true⟩, ⟨n - req, false⟩] else [⟨n, true⟩]

section

variable {m : Bytes} {req a n : ℕ} {prev : Bool} {l r : List Block}

/-- The block is allocated whole. -/
theorem take_tiles (h : Tiles m a prev (l ++ ⟨n, false⟩ :: r)) (hlt : n + total r < 2 ^ 31) :
    Tiles (take m (a + total l) (BitVec.ofNat 32 n)) a prev (l ++ ⟨n, true⟩ :: r) := by
  rw [tiles_append, tiles_cons] at h
  obtain ⟨hl, hn, hh, -, hr⟩ := h
  dsimp only at hn hh hr
  have htake : take m (a + total l) (BitVec.ofNat 32 n) =
      setPrev (m.store (a + total l) (header n (lastAllocated prev l) true)) (a + total l + n) := by
    rw [take, hh, header_or_aBit, plus_ofNat (by omega)]
  rw [htake, tiles_append, tiles_cons]
  refine ⟨hl.frame ?_, hn, ?_, by simp, ?_⟩
  · exact (Bytes.agreeOn_store (.inl (by omega))).trans (agreeOn_setPrev (.inl (by omega)))
  · rw [Bytes.load_congr (agreeOn_setPrev (.inl (by omega))), Bytes.load_store]
  · exact Tiles.setPrev (hr.frame (Bytes.agreeOn_store (.inr (by omega)))) (by omega)

/-- The block gives `req` of its bytes, and the rest of it is a free block. -/
theorem split_tiles (h : Tiles m a prev (l ++ ⟨n, false⟩ :: r)) (hlt : n + total r < 2 ^ 31)
    (hreq : 8 ∣ req) (h₈ : 8 ≤ req) (hle : req + 8 ≤ n) :
    Tiles (split m (a + total l) (BitVec.ofNat 32 req) (BitVec.ofNat 32 (n - req))) a prev
      (l ++ ⟨req, true⟩ :: ⟨n - req, false⟩ :: r) := by
  rw [tiles_append, tiles_cons] at h
  obtain ⟨hl, hn, hh, -, hr⟩ := h
  dsimp only at hn hh hr
  have hdvd : 8 ∣ n - req := Nat.dvd_sub hn.1 hreq
  have hprev : (if isPrevAllocated (header n (lastAllocated prev l) false) ≠ 0 then pBit else 0) =
      if lastAllocated prev l then pBit else 0 := by
    rw [isPrevAllocated_header hn.1]
    cases lastAllocated prev l <;> rfl
  have hrem : BitVec.ofNat 32 (n - req) ||| pBit = header (n - req) true false := by
    simp [header]
  have hsplit : split m (a + total l) (BitVec.ofNat 32 req) (BitVec.ofNat 32 (n - req)) =
      putFree (m.store (a + total l) (header req (lastAllocated prev l) true)) (a + total l + req)
        (n - req) true := by
    rw [split, hh, hprev, plus_ofNat (by omega), plus_ofNat (by omega), hrem]
    rfl
  -- the free part is made behind `l` and the allocated part
  have hl' : Seg (m.store (a + total l) (header req (lastAllocated prev l) true)) a prev (l ++ [⟨req, true⟩]) := by
    rw [seg_append]
    exact ⟨hl.frame (Bytes.agreeOn_store (.inl (by omega))), ⟨hreq, h₈⟩, Bytes.load_store, by simp, trivial⟩
  have hr' : Tiles (m.store (a + total l) (header req (lastAllocated prev l) true))
      (a + total (l ++ [⟨req, true⟩]) + (n - req)) false r := by
    have : a + total (l ++ [⟨req, true⟩]) + (n - req) = a + total l + n := by
      simp only [total_append, total_cons, total_nil]
      omega
    rw [this]
    exact hr.frame (Bytes.agreeOn_store (.inr (by omega)))
  have hput := putFree_tiles hl' hr' hdvd (by omega) (by omega)
  rw [hsplit]
  simpa [lastAllocated, Nat.add_assoc] using hput

/-- Where the block is split, and where it is not, the free blocks stay apart. -/
theorem coalesced_carve (h : Coalesced (l ++ ⟨n, false⟩ :: r)) : Coalesced (l ++ (carve req n ++ r)) := by
  rw [coalesced_append, coalesced_cons] at h
  obtain ⟨hl, ⟨hr, hr'⟩, -⟩ := h
  have hf : firstAllocated r = true := hr.resolve_left (by simp)
  unfold carve
  split
  · rw [coalesced_append]
    exact ⟨hl, coalesced_cons.mpr ⟨.inl rfl, coalesced_cons.mpr ⟨.inr hf, hr'⟩⟩, .inr rfl⟩
  · rw [coalesced_append]
    exact ⟨hl, coalesced_cons.mpr ⟨.inl rfl, hr'⟩, .inr rfl⟩

theorem total_carve : total (carve req n) = n := by
  unfold carve
  split
  · simp only [total_cons, total_nil]
    omega
  · simp

/-- The payload of the part that is allocated. -/
theorem payloads_carve : ∃ k, payloads a (carve req n) = [(a + 4, k - 4)] ∧ (req ≤ n → req ≤ k) := by
  unfold carve
  split
  · exact ⟨req, by simp [payloads], fun _ => le_rfl⟩
  · exact ⟨n, by simp [payloads], id⟩

theorem allocs_carve : allocs a (carve req n) = [a] := by
  unfold carve
  split <;> simp [allocs]

end

/-! ### `alloc` -/

variable {h : Heap} {bs : List Block} {size : Word}

/-- What `alloc` may do: nothing, where no block fits, or it allocates the best fit. -/
inductive Allocates (h : Heap) (bs : List Block) (size : Word) : Heap × Option ℕ → Prop
  /-- `NULL` is returned. -/
  | null (hno : size.slt 1 ∨ ∀ b ∈ bs, ¬ Fits (roundUp size.toNat) b) : Allocates h bs size (h, none)
  /-- The block of `n` bytes behind `l` is allocated. -/
  | fit {l r : List Block} {n : ℕ} {m : Bytes} (hsize : ¬ size.slt 1) (hbs : bs = l ++ ⟨n, false⟩ :: r)
    (hbest : Best (roundUp size.toNat) l n r)
    (hrep : Rep { h with mem := m } (l ++ (carve (roundUp size.toNat) n ++ r))) :
    Allocates h bs size ({ h with mem := m }, some (h.heapStart + total l + 4))

/-- The bytes after the block of `n` bytes at `p` has been allocated. -/
def place (m : Bytes) (p n req : ℕ) : Bytes :=
  if (8 : Word).sle (BitVec.ofNat 32 n - BitVec.ofNat 32 req) then
    split m p (BitVec.ofNat 32 req) (BitVec.ofNat 32 n - BitVec.ofNat 32 req)
  else take m p (BitVec.ofNat 32 n)

theorem place_eq {m : Bytes} {p n req : ℕ} (hn : n < 2 ^ 31) (hle : req ≤ n) : place m p n req =
    if req + 8 ≤ n then split m p (BitVec.ofNat 32 req) (BitVec.ofNat 32 (n - req))
    else take m p (BitVec.ofNat 32 n) := by
  have hsub : BitVec.ofNat 32 n - BitVec.ofNat 32 req = BitVec.ofNat 32 (n - req) := by
    apply BitVec.eq_of_toNat_eq
    rw [BitVec.toNat_sub, toNat_ofNat_of_lt (by omega), toNat_ofNat_of_lt (by omega), toNat_ofNat_of_lt (by omega)]
    omega
  have h₈ : (8 : Word).sle (BitVec.ofNat 32 (n - req)) ↔ req + 8 ≤ n := by
    rw [show (8 : Word) = BitVec.ofNat 32 8 from rfl, sle_ofNat (by omega) (by omega)]
    omega
  rw [place, hsub]
  simp only [h₈]

/-- Only the block and the header behind it are written. -/
theorem agreeOn_place {m : Bytes} {p n req c d : ℕ} (hn : n < 2 ^ 31) (hreq : 4 ≤ req) (hle : req ≤ n)
    (h : d ≤ p ∨ p + n + 4 ≤ c) : m.AgreeOn (place m p n req) c d := by
  rw [place_eq hn hle]
  split
  · simp only [Heap.split, plus_ofNat (show req < 2 ^ 31 by omega), plus_ofNat (show n - req < 2 ^ 31 by omega)]
    exact ((Bytes.agreeOn_store (by omega)).trans (Bytes.agreeOn_store (by omega))).trans
      ((Bytes.agreeOn_store (by omega)).trans (agreeOn_clearPrev (by omega)))
  · simp only [Heap.take, plus_ofNat hn]
    exact (Bytes.agreeOn_store (by omega)).trans (agreeOn_setPrev (by omega))

/-- The block that the search found is allocated. -/
theorem Laid.fit {l r : List Block} {n req : ℕ} (h₁ : Laid h (l ++ ⟨n, false⟩ :: r)) (hdvd : 8 ∣ req)
    (h₈ : 8 ≤ req) (hle : req ≤ n) :
    Laid { h with mem := place h.mem (h.heapStart + total l) n req } (l ++ (carve req n ++ r)) := by
  have hlt := h₁.total_lt
  simp only [total_append, total_cons] at hlt
  have htotal : total (l ++ (carve req n ++ r)) = total (l ++ ⟨n, false⟩ :: r) := by
    simp [total_carve]
  have hr : n + total r < 2 ^ 31 := by omega
  refine ⟨?_, htotal.trans h₁.total_eq, htotal ▸ h₁.total_lt, h₁.start⟩
  dsimp only
  rw [place_eq (by omega) hle, carve]
  split <;> rename_i hs
  · exact split_tiles h₁.tiles hr hdvd h₈ hs
  · exact take_tiles h₁.tiles hr

theorem Rep.fit {l r : List Block} {n req : ℕ} (h₁ : Rep h (l ++ ⟨n, false⟩ :: r)) (hdvd : 8 ∣ req)
    (h₈ : 8 ≤ req) (hle : req ≤ n) :
    Rep { h with mem := place h.mem (h.heapStart + total l) n req } (l ++ (carve req n ++ r)) :=
  (h₁.laid.fit hdvd h₈ hle).rep (coalesced_carve h₁.coalesced)

/-- The search of `alloc`, whatever it asks for, and what is done with the block found. -/
theorem alloc_search {req : ℕ} (hlaid : Laid h bs) (h₁ : ¬ size.slt 1) (hw : Asks (requiredSize size) req) :
    ∃ res, Found req h.heapStart bs res ∧ ∀ fuel,
      alloc fuel h size = (if bs.length < fuel then some res else none).map fun best =>
        best.1.elim (h, none) fun p =>
          ({ h with mem :=
              if (8 : Word).sle (best.2 - requiredSize size) then
                split h.mem p (requiredSize size) (best.2 - requiredSize size)
              else take h.mem p best.2 }, some (p + 4)) := by
  have hfound : Found req h.heapStart [] (none, 0) := by
    simp [Found]
  have htiles : Tiles h.mem (h.heapStart + total []) true bs := hlaid.tiles
  obtain ⟨res, hres, hrun⟩ := search_found hw htiles hlaid.total_lt hfound
  refine ⟨res, hres, ?_⟩
  intro fuel
  rw [alloc, if_neg h₁, ← hrun fuel]
  refine congrArg₂ Option.map (funext ?_) rfl
  intro best
  cases best.1 <;> rfl

/-- **The result of `alloc`**: `NULL`, or the best fit has been allocated. It is there once
there is fuel for all the blocks. -/
theorem alloc_out (hlaid : Laid h bs) (hsize : size.toInt + 11 < 2 ^ 31) :
    ∃ out, ((∀ fuel, bs.length < fuel → alloc fuel h size = some out) ∧
      ∀ fuel out', alloc fuel h size = some out' → out' = out) ∧
      (out = (h, none) ∧ (size.slt 1 ∨ ∀ b ∈ bs, ¬ Fits (roundUp size.toNat) b) ∨
        ¬ size.slt 1 ∧ ∃ l n r, bs = l ++ ⟨n, false⟩ :: r ∧ Best (roundUp size.toNat) l n r ∧
          out = ({ h with mem := place h.mem (h.heapStart + total l) n (roundUp size.toNat) },
            some (h.heapStart + total l + 4))) := by
  by_cases h₁ : size.slt 1
  · have hrun (fuel : ℕ) : alloc fuel h size = some (h, none) := by
      rw [alloc, if_pos h₁]
    exact ⟨(h, none), ⟨fun fuel _ => hrun fuel, fun fuel out ho => Option.some.inj (ho.symm.trans (hrun fuel))⟩,
      .inl ⟨rfl, .inl h₁⟩⟩
  obtain ⟨hreq, hn⟩ := requiredSize_eq h₁ hsize
  have hle := roundUp_le size.toNat
  obtain ⟨res, hres, halloc⟩ := alloc_search hlaid h₁ (hreq ▸ asks_ofNat (by omega))
  refine ⟨_, ⟨fun fuel hf => by rw [halloc, if_pos hf]; rfl, ?_⟩, ?_⟩
  · intro fuel out ho
    rw [halloc] at ho
    split at ho
    · exact (Option.some.inj ho).symm
    · cases ho
  · obtain ⟨_ | p, w⟩ := res
    · exact .inl ⟨rfl, .inr hres⟩
    · obtain ⟨l, n, r, hbs, rfl, rfl, hbest⟩ := hres
      exact .inr ⟨h₁, l, n, r, hbs, hbest, by rw [hreq]; rfl⟩

/-- **`alloc` on blocks.** It returns whatever the heap, once there is fuel for all the
blocks, and then it has allocated the best fit or found none. -/
theorem alloc_spec (hrep : Rep h bs) (hsize : size.toInt + 11 < 2 ^ 31) :
    ∃ out, Allocates h bs size out ∧ (∀ fuel, bs.length < fuel → alloc fuel h size = some out) ∧
      ∀ fuel out', alloc fuel h size = some out' → out' = out := by
  obtain ⟨out, hrun, ⟨rfl, hno⟩ | ⟨h₁, l, n, r, rfl, hbest, rfl⟩⟩ := alloc_out hrep.laid hsize
  · exact ⟨_, .null hno, hrun⟩
  · exact ⟨_, .fit h₁ rfl hbest (hrep.fit (dvd_roundUp _) (eight_le_roundUp h₁) hbest.fits), hrun⟩

end SdeSystems.Heap
