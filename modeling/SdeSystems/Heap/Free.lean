import SdeSystems.Heap.Blocks

/-!
# `free_block` on blocks

What `free_block` does to a heap that is a list of blocks: the block is marked free, and then
free blocks that stand side by side become one (`coalesce`). The code merges with one block
before and one behind only, which is enough in a heap where no two free blocks stood side by
side.
-/

namespace SdeSystems.Heap

open Lib Function

/-! ### Coalescing -/

/-- A block before others; two free blocks become one. -/
def join (b : Block) : List Block → List Block
  | [] => [b]
  | c :: bs => if b.allocated = false ∧ c.allocated = false then ⟨b.size + c.size, false⟩ :: bs else b :: c :: bs

/-- Free blocks that stand side by side become one. -/
def coalesce (bs : List Block) : List Block := bs.foldr join []

section

variable {l r bs : List Block} {b : Block} {n k : ℕ}

theorem join_cons {c : Block} : join b (c :: bs) =
    if b.allocated = false ∧ c.allocated = false then ⟨b.size + c.size, false⟩ :: bs else b :: c :: bs := rfl

theorem coalesce_cons : coalesce (b :: bs) = join b (coalesce bs) := rfl

theorem join_eq_cons (h : b.allocated = true ∨ firstAllocated bs = true) : join b bs = b :: bs := by
  cases bs with
  | nil => rfl
  | cons c bs =>
    apply if_neg
    intro hc
    simp [firstAllocated, hc] at h

/-- Where no two free blocks stand side by side, there is nothing to do. -/
theorem foldr_join (h : Coalesced (l ++ r)) : l.foldr join r = l ++ r := by
  induction l with
  | nil => rfl
  | cons b l ih =>
    rw [List.cons_append, coalesced_cons] at h
    rw [List.foldr_cons, ih h.2, join_eq_cons h.1, List.cons_append]

theorem coalesce_eq_self (h : Coalesced bs) : coalesce bs = bs := by
  have := foldr_join (l := bs) (r := []) (by rwa [List.append_nil])
  rwa [List.append_nil] at this

theorem coalesced_join (h : Coalesced bs) : Coalesced (join b bs) := by
  cases bs with
  | nil => exact List.isChain_singleton b
  | cons c bs =>
    obtain ⟨hc, hbs⟩ := coalesced_cons.mp h
    rw [join_cons]
    split <;> rename_i hf
    · simp only [hf.2, Bool.false_eq_true, false_or] at hc
      exact coalesced_cons.mpr ⟨.inr hc, hbs⟩
    · refine coalesced_cons.mpr ⟨?_, h⟩
      by_contra hcon
      rw [not_or] at hcon
      exact hf ⟨Bool.eq_false_iff.mpr hcon.1, Bool.eq_false_iff.mpr hcon.2⟩

theorem coalesced_coalesce (bs : List Block) : Coalesced (coalesce bs) := by
  induction bs with
  | nil => exact List.isChain_nil
  | cons b bs ih => exact coalesced_join ih

theorem total_join : total (join b bs) = b.size + total bs := by
  cases bs with
  | nil => rfl
  | cons c bs =>
    rw [join_cons]
    split <;> simp [Nat.add_assoc]

theorem total_coalesce (bs : List Block) : total (coalesce bs) = total bs := by
  induction bs with
  | nil => rfl
  | cons b bs ih => exact total_join.trans (by rw [total_cons]; exact congrArg _ ih)

theorem payloads_join {a : ℕ} : payloads a (join b bs) = payloads a (b :: bs) := by
  cases bs with
  | nil => rfl
  | cons c bs =>
    rw [join_cons]
    split <;> rename_i hf
    · simp [payloads, hf, Nat.add_assoc]
    · rfl

/-- Coalescing does not move the allocated blocks. -/
theorem payloads_coalesce (a : ℕ) (bs : List Block) : payloads a (coalesce bs) = payloads a bs := by
  induction bs generalizing a with
  | nil => rfl
  | cons b bs ih =>
    rw [coalesce, List.foldr_cons, payloads_join]
    simp only [payloads]
    rw [← ih]
    rfl

theorem allocs_coalesce (a : ℕ) (bs : List Block) : allocs a (coalesce bs) = allocs a bs := by
  rw [allocs_eq, payloads_coalesce, ← allocs_eq]

/-- Three free blocks become one, whichever two are joined first. -/
theorem join_join {m : ℕ} : join ⟨n, false⟩ (join ⟨m, false⟩ bs) = join ⟨n + m, false⟩ bs := by
  cases bs with
  | nil => rfl
  | cons c bs =>
    obtain ⟨k, _ | _⟩ := c
    · simp [join_cons, Nat.add_assoc]
    · simp [join_cons]

/-- A free block merges with the blocks behind it: with the first of them, if it is free. -/
theorem join_free (h : Coalesced r) :
    ∃ j r', join ⟨n, false⟩ r = ⟨n + j, false⟩ :: r' ∧ firstAllocated r' = true ∧
      (j = 0 ∧ r' = r ∨ r = ⟨j, false⟩ :: r') := by
  cases r with
  | nil => exact ⟨0, [], rfl, rfl, .inl ⟨rfl, rfl⟩⟩
  | cons c r =>
    obtain ⟨hc, -⟩ := coalesced_cons.mp h
    obtain ⟨k, _ | _⟩ := c
    · refine ⟨k, r, rfl, ?_, .inr rfl⟩
      simpa using hc
    · exact ⟨0, ⟨k, true⟩ :: r, rfl, rfl, .inl ⟨rfl, rfl⟩⟩

/-- A free block merges with the blocks before it: with the last of them, if it is free. -/
theorem foldr_join_free (h : Coalesced l) (hr : Coalesced r) (hf : firstAllocated r = true) :
    ∃ l' s, l.foldr join (⟨n, false⟩ :: r) = l' ++ ⟨s + n, false⟩ :: r ∧ lastAllocated true l' = true ∧
      (s = 0 ∧ l' = l ∨ l = l' ++ [⟨s, false⟩]) := by
  have hcons (k : ℕ) : Coalesced (⟨k, false⟩ :: r) := coalesced_cons.mpr ⟨.inr hf, hr⟩
  by_cases hlast : lastAllocated true l = true
  · refine ⟨l, 0, ?_, hlast, .inl ⟨rfl, rfl⟩⟩
    rw [foldr_join (coalesced_append.mpr ⟨h, hcons n, .inl hlast⟩), Nat.zero_add]
  · rcases List.eq_nil_or_concat l with rfl | ⟨l', ⟨s, al⟩, rfl⟩
    · exact absurd rfl hlast
    · rw [List.concat_eq_append] at h hlast ⊢
      rw [lastAllocated_append] at hlast
      obtain rfl : al = false := Bool.eq_false_iff.mpr hlast
      obtain ⟨hl', -, hor⟩ := coalesced_append.mp h
      have hl'' : lastAllocated true l' = true := hor.resolve_right (by simp [firstAllocated])
      refine ⟨l', s, ?_, hl'', .inr rfl⟩
      rw [List.foldr_append, ← foldr_join (coalesced_append.mpr ⟨hl', hcons (s + n), .inl hl''⟩)]
      rfl

end

/-! ### Blocks marked free -/

/-- The blocks from `a` on, those with their payloads at `ps` marked free. -/
def freed (ps : List ℕ) : ℕ → List Block → List Block
  | _, [] => []
  | a, b :: bs => ⟨b.size, b.allocated && !decide (a + 4 ∈ ps)⟩ :: freed ps (a + b.size) bs

section

variable {ps qs : List ℕ} {a n : ℕ} {bs l r : List Block}

@[simp] theorem freed_nil (a : ℕ) (bs : List Block) : freed [] a bs = bs := by
  induction bs generalizing a with
  | nil => rfl
  | cons b bs ih => simp [freed, ih]

theorem freed_append : freed ps a (l ++ r) = freed ps a l ++ freed ps (a + total l) r := by
  induction l generalizing a with
  | nil => simp [freed]
  | cons b l ih => simp [freed, ih, Nat.add_assoc]

/-- Pointers one after the other, or all at once. -/
theorem freed_cons (p : ℕ) : freed (p :: ps) a bs = freed ps a (freed [p] a bs) := by
  induction bs generalizing a with
  | nil => rfl
  | cons b bs ih => simp [freed, ih, Bool.and_assoc]

/-- The order of the pointers does not matter. -/
theorem freed_perm (h : ps.Perm qs) : freed ps a bs = freed qs a bs := by
  induction bs generalizing a with
  | nil => rfl
  | cons b bs ih => simp only [freed, ih, h.mem_iff]

/-- Pointers elsewhere mark nothing. -/
theorem freed_apart (hpos : ∀ b ∈ bs, 0 < b.size) (h : ∀ p ∈ ps, p < a + 4 ∨ a + 4 + total bs ≤ p) :
    freed ps a bs = bs := by
  induction bs generalizing a with
  | nil => rfl
  | cons b bs ih =>
    have hb := hpos b List.mem_cons_self
    have hmem : a + 4 ∉ ps := by
      intro hm
      have := h _ hm
      rw [total_cons] at this
      omega
    have hrest : ∀ p ∈ ps, p < a + b.size + 4 ∨ a + b.size + 4 + total bs ≤ p := by
      intro p hp
      have := h p hp
      rw [total_cons] at this
      omega
    rw [freed, ih (fun c hc => hpos c (List.mem_cons_of_mem _ hc)) hrest]
    simp [hmem]

/-- One pointer marks one block. -/
theorem freed_singleton (hpos : ∀ b ∈ l ++ ⟨n, true⟩ :: r, 0 < b.size) :
    freed [a + total l + 4] a (l ++ ⟨n, true⟩ :: r) = l ++ ⟨n, false⟩ :: r := by
  have hn : 0 < n := hpos ⟨n, true⟩ (by simp)
  have hl : freed [a + total l + 4] a l = l := by
    refine freed_apart (fun b hb => hpos b (by simp [hb])) ?_
    intro p hp
    obtain rfl := List.mem_singleton.mp hp
    omega
  have hr : freed [a + total l + 4] (a + total l + n) r = r := by
    refine freed_apart (fun b hb => hpos b (by simp [hb])) ?_
    intro p hp
    obtain rfl := List.mem_singleton.mp hp
    omega
  rw [freed_append, freed, hl, hr]
  simp

/-- **Marking commutes with coalescing**: blocks that are marked free after some have
been coalesced end in the same list. -/
theorem coalesce_freed : coalesce (freed ps a (coalesce bs)) = coalesce (freed ps a bs) := by
  induction bs generalizing a with
  | nil => rfl
  | cons b bs ih =>
    rw [freed, coalesce_cons, coalesce_cons, ← ih]
    generalize coalesce bs = cs
    cases cs with
    | nil => rfl
    | cons c cs =>
      rw [join_cons]
      split <;> rename_i hf
      · -- both were free before, and then they stay free
        obtain ⟨hb, hc⟩ := hf
        simp only [freed, hb, hc, Bool.false_and, coalesce_cons, join_join, Nat.add_assoc]
      · rfl

/-- When all payloads are at `ps`, all blocks are marked. -/
theorem freed_all (h : ∀ x ∈ allocs a bs, x + 4 ∈ ps) : ∀ b ∈ freed ps a bs, b.allocated = false := by
  induction bs generalizing a with
  | nil => simp [freed]
  | cons b bs ih =>
    have hrest : ∀ x ∈ allocs (a + b.size) bs, x + 4 ∈ ps := by
      intro x hx
      apply h x
      rw [allocs]
      split
      · exact List.mem_cons_of_mem _ hx
      · exact hx
    refine List.forall_mem_cons.mpr ⟨?_, ih hrest⟩
    cases hb : b.allocated with
    | false => simp
    | true =>
      have := h a (by simp [allocs, hb])
      simp [this]

theorem total_freed : total (freed ps a bs) = total bs := by
  induction bs generalizing a with
  | nil => rfl
  | cons b bs ih => simp [freed, ih]

/-- Free blocks only become one free block. -/
theorem coalesce_all_free (hne : bs ≠ []) (h : ∀ b ∈ bs, b.allocated = false) :
    coalesce bs = [⟨total bs, false⟩] := by
  induction bs with
  | nil => exact absurd rfl hne
  | cons b bs ih =>
    obtain ⟨hb, hbs⟩ := List.forall_mem_cons.mp h
    obtain ⟨k, a⟩ := b
    obtain rfl : a = false := hb
    cases bs with
    | nil => simp [coalesce, join]
    | cons c cs =>
      have := ih (by simp) hbs
      rw [coalesce_cons, this]
      simp [join_cons]

end

/-! ### `free_block` -/

/-- The header and the footer of the block that is freed. -/
def mark (m : Bytes) (block n : ℕ) (prev : Bool) : Bytes :=
  (m.store block (header n prev false)).store (block + n - 4) (BitVec.ofNat 32 n)

theorem agreeOn_mark {m : Bytes} {block n c d : ℕ} {prev : Bool} (h₄ : 4 ≤ n) (h : d ≤ block ∨ block + n ≤ c) :
    m.AgreeOn (mark m block n prev) c d :=
  (Bytes.agreeOn_store (by omega)).trans (Bytes.agreeOn_store (by omega))

/-- **The code of `free_block`.** The block of `n` bytes, `s` bytes before it and `j` bytes
behind it become one free block; `s` comes from the footer before the block and `j` from the
header behind it. -/
theorem release_eq {m : Bytes} {block n s j c : ℕ} {prev p : Bool} (hh : m.load block = header n prev true)
    (hn : 8 ∣ n) (hlt : s + n + j < 2 ^ 31)
    (hleft : prev = true ∧ c = block ∧ s = 0 ∨
      prev = false ∧ c + s = block ∧ 8 ∣ s ∧ (mark m block n prev).load (block - 4) = BitVec.ofNat 32 s)
    (hright : ((mark m block n prev).load (block + n) = 1 ∨
        isAllocated ((mark m block n prev).load (block + n)) ≠ 0) ∧ j = 0 ∨
      (mark m block n prev).load (block + n) = header j true false ∧ 8 ∣ j ∧ 8 ≤ j)
    (hc : isPrevAllocated ((mark m block n prev).load c) = if p then pBit else 0) :
    release m block = putFree (mark m block n prev) c (s + n + j) p := by
  have hplus (x : ℕ) : plus x (BitVec.ofNat 32 n) = x + n := plus_ofNat (by omega)
  have hbit (q : Bool) : (if (if q then pBit else 0) ≠ 0 then pBit else 0) = if q then pBit else 0 := by
    cases q <;> rfl
  have hmark : (m.store block (BitVec.ofNat 32 n ||| if prev then pBit else 0)).store (block + n - 4)
      (BitVec.ofNat 32 n) = mark m block n prev := by
    simp [mark, header]
  have hblock : (if (if prev then pBit else 0) &&& pBit = 0 then
      ((block : ℤ) - (getSize ((mark m block n prev).load (block - 4))).toInt).toNat else block) = c := by
    rcases hleft with ⟨rfl, rfl, -⟩ | ⟨rfl, rfl, hs, hf⟩
    · exact if_neg (by decide)
    · rw [hf, getSize, and_not_three (and_three hs), toInt_ofNat_of_lt (by omega), if_pos (by decide)]
      omega
  have hsize : (if (if prev then pBit else 0) &&& pBit = 0 then
      BitVec.ofNat 32 n + getSize ((mark m block n prev).load (block - 4)) else BitVec.ofNat 32 n) =
      BitVec.ofNat 32 (s + n) := by
    rcases hleft with ⟨rfl, rfl, rfl⟩ | ⟨rfl, rfl, hs, hf⟩
    · rw [if_neg (by decide), Nat.zero_add]
    · rw [hf, getSize, and_not_three (and_three hs), if_pos (by decide), ← BitVec.ofNat_add, Nat.add_comm]
  have hnext : (if (mark m block n prev).load (block + n) ≠ 1 ∧
      isAllocated ((mark m block n prev).load (block + n)) = 0 then
      BitVec.ofNat 32 (s + n) + getSize ((mark m block n prev).load (block + n)) else BitVec.ofNat 32 (s + n)) =
      BitVec.ofNat 32 (s + n + j) := by
    rcases hright with ⟨h, rfl⟩ | ⟨hn', hj, h₈⟩
    · exact if_neg fun hc => h.elim (fun h => hc.1 h) (fun h => h hc.2)
    · rw [hn', getSize_header hj, isAllocated_header hj,
        if_pos ⟨header_ne_one hj h₈ (by omega), rfl⟩, ← BitVec.ofNat_add]
  have hhead : BitVec.ofNat 32 (s + n + j) ||| (if p then pBit else 0) = header (s + n + j) p false := by
    simp [header]
  simp only [release, hh, getSize_header hn, isPrevAllocated_header hn, hbit, hplus, hmark, hblock, hsize, hnext, hc,
    plus_ofNat hlt, hhead]
  rfl

/-- **What `free_block` writes.** After the marks in the block at `a + total l`, the header
and the footer of one free block are written, that of the blocks it merges with, and the
flag behind it is cleared; the blocks are coalesced then. -/
theorem release_shape {m : Bytes} {a n : ℕ} {l r : List Block} (h : Tiles m a true (l ++ ⟨n, true⟩ :: r))
    (hlt : total (l ++ ⟨n, true⟩ :: r) < 2 ^ 31) (hco : Coalesced (l ++ ⟨n, true⟩ :: r)) :
    ∃ l' k r' q, coalesce (l ++ ⟨n, false⟩ :: r) = l' ++ ⟨k, false⟩ :: r' ∧
      release m (a + total l) =
        putFree (mark m (a + total l) n (lastAllocated true l)) (a + total l') k (lastAllocated true l') ∧
      Seg (mark m (a + total l) n (lastAllocated true l)) a true l' ∧
      Tiles (mark m (a + total l) n (lastAllocated true l)) (a + total l' + k) q r' ∧
      8 ∣ k ∧ total l' ≤ total l ∧ total l + n ≤ total l' + k ∧
      total l' + k + total r' = total l + n + total r := by
  rw [tiles_append, tiles_cons] at h
  obtain ⟨hl, ⟨hdvd, h₈⟩, hh, -, hr⟩ := h
  rw [coalesced_append, coalesced_cons] at hco
  obtain ⟨hcl, ⟨-, hcr⟩, -⟩ := hco
  simp only [total_append, total_cons] at hlt
  dsimp only at hdvd h₈ hh hr
  generalize hprev : lastAllocated true l = prev at hh ⊢
  -- the marks are inside the block
  have hl₂ : Seg (mark m (a + total l) n prev) a true l :=
    hl.frame (agreeOn_mark (by omega) (.inl le_rfl))
  have hr₂ : Tiles (mark m (a + total l) n prev) (a + total l + n) true r :=
    hr.frame (agreeOn_mark (by omega) (.inr le_rfl))
  -- what there is to merge with
  obtain ⟨j, r', hj, hfr, hjr⟩ := join_free (n := n) hcr
  have hcr' : Coalesced r' := by
    rcases hjr with ⟨-, rfl⟩ | rfl
    · exact hcr
    · exact (coalesced_cons.mp hcr).2
  obtain ⟨l', s, hs, hll, hsl⟩ := foldr_join_free (n := n + j) hcl hcr' hfr
  have hco : coalesce (l ++ ⟨n, false⟩ :: r) = l' ++ ⟨s + n + j, false⟩ :: r' := by
    rw [coalesce, List.foldr_append, List.foldr_cons, ← coalesce, coalesce_eq_self hcr, hj, hs, Nat.add_assoc]
  have hleft : Seg (mark m (a + total l) n prev) a true l' ∧ total l' + s = total l ∧ 8 ∣ s ∧
      (prev = true ∧ a + total l' = a + total l ∧ s = 0 ∨
        prev = false ∧ a + total l' + s = a + total l ∧ 8 ∣ s ∧
          (mark m (a + total l) n prev).load (a + total l - 4) = BitVec.ofNat 32 s) ∧
      isPrevAllocated ((mark m (a + total l) n prev).load (a + total l')) =
        if lastAllocated true l' then pBit else 0 := by
    rcases hsl with ⟨rfl, rfl⟩ | rfl
    · refine ⟨hl₂, rfl, by simp, .inl ⟨hprev.symm.trans hll, rfl, rfl⟩, ?_⟩
      rw [mark, Bytes.load_store_of_disjoint (.inl (by omega)), Bytes.load_store, isPrevAllocated_header hdvd, hprev]
    · obtain ⟨hl', ⟨hs₈, -⟩, hhs, hfs, -⟩ := seg_append.mp hl₂
      have hpf : prev = false := by
        simpa [lastAllocated] using hprev.symm
      have htot : a + total (l' ++ [⟨s, false⟩]) = a + total l' + s := by
        simp [Nat.add_assoc]
      refine ⟨hl', by simp, hs₈, .inr ⟨hpf, htot.symm, hs₈, ?_⟩, ?_⟩
      · rw [← hfs rfl, htot]
      · rw [hhs, isPrevAllocated_header hs₈]
  have hright : (∃ q, Tiles (mark m (a + total l) n prev) (a + total l + n + j) q r') ∧ j + total r' = total r ∧
      8 ∣ j ∧
      (((mark m (a + total l) n prev).load (a + total l + n) = 1 ∨
          isAllocated ((mark m (a + total l) n prev).load (a + total l + n)) ≠ 0) ∧ j = 0 ∨
        (mark m (a + total l) n prev).load (a + total l + n) = header j true false ∧ 8 ∣ j ∧ 8 ≤ j) := by
    rcases hjr with ⟨rfl, rfl⟩ | rfl
    · refine ⟨⟨true, hr₂⟩, Nat.zero_add _, by simp, .inl ⟨?_, rfl⟩⟩
      cases r' with
      | nil => exact .inl hr₂.2
      | cons c r' =>
        obtain ⟨hc, hhc, -⟩ := tiles_cons.mp hr₂
        have hal : c.allocated = true := hfr
        rw [hhc, isAllocated_header hc.1, hal]
        exact .inr (by decide)
    · obtain ⟨hj₈, hhj, -, hr'⟩ := tiles_cons.mp hr₂
      exact ⟨⟨false, hr'⟩, by simp, hj₈.1, .inr ⟨hhj, hj₈⟩⟩
  obtain ⟨hl', hsum, hs₈, hleft, hbit⟩ := hleft
  obtain ⟨⟨q, hr'⟩, hsum', hj₈, hright⟩ := hright
  have hend : a + total l + n + j = a + total l' + (s + n + j) := by omega
  exact ⟨l', s + n + j, r', q, hco, release_eq hh hdvd (by omega) hleft hright hbit, hl', hend ▸ hr', by omega,
    by omega, by omega, by omega⟩

/-- **`free_block` on blocks.** The block is free afterwards, and so the free blocks that now
stand side by side are one; no byte of another payload has changed. -/
theorem release_spec {m : Bytes} {a n : ℕ} {l r : List Block} (h : Tiles m a true (l ++ ⟨n, true⟩ :: r))
    (hlt : total (l ++ ⟨n, true⟩ :: r) < 2 ^ 31) (hco : Coalesced (l ++ ⟨n, true⟩ :: r)) :
    Tiles (release m (a + total l)) a true (coalesce (l ++ ⟨n, false⟩ :: r)) ∧
      ∀ q ∈ payloads a (coalesce (l ++ ⟨n, false⟩ :: r)), m.AgreeOn (release m (a + total l)) q.1 (q.1 + q.2) := by
  obtain ⟨-, ⟨hdvd, h₈⟩, -⟩ := seg_append.mp h.1
  obtain ⟨l', k, r', q, hc, hrel, hl', hr', hk, hle, hge, hsum⟩ := release_shape h hlt hco
  simp only [total_append, total_cons] at hlt
  dsimp only at hdvd h₈
  rw [hc, hrel]
  refine ⟨putFree_tiles hl' hr' hk (by omega) (by omega), ?_⟩
  intro q hq
  simp only [payloads_append, payloads, Bool.false_eq_true, if_false, List.mem_append] at hq
  rcases hq with hq | hq
  · have := hl'.payload_bounds hq
    exact (agreeOn_mark (by omega) (.inl (by omega))).trans (agreeOn_putFree (by omega) (.inl (by omega)))
  · have := hr'.1.payload_bounds hq
    exact (agreeOn_mark (by omega) (.inr (by omega))).trans (agreeOn_putFree (by omega) (.inr (by omega)))

/-- The representation after `free_block`. -/
theorem Rep.release {h : Heap} {n : ℕ} {l r : List Block} (hrep : Rep h (l ++ ⟨n, true⟩ :: r)) :
    Rep { h with mem := release h.mem (h.heapStart + total l) } (coalesce (l ++ ⟨n, false⟩ :: r)) where
  tiles := by
    dsimp only
    exact (release_spec hrep.tiles hrep.total_lt hrep.coalesced).1
  total_eq := by
    rw [← hrep.total_eq]
    simp [total_coalesce]
  total_lt := by
    have := hrep.total_lt
    simpa [total_coalesce] using this
  start := hrep.start
  coalesced := coalesced_coalesce _

/-- A pointer to the payload of an allocated block passes all the checks of `free_block`. -/
theorem Rep.freeBlock {h : Heap} {n : ℕ} {l r : List Block} (hrep : Rep h (l ++ ⟨n, true⟩ :: r)) :
    freeBlock h (h.heapStart + total l + 4) =
      ({ h with mem := Heap.release h.mem (h.heapStart + total l) }, 0) := by
  obtain ⟨hl, hn, hh, -⟩ : Seg h.mem h.heapStart true l ∧ (8 ∣ n ∧ 8 ≤ n) ∧
      h.mem.load (h.heapStart + total l) = header n (lastAllocated true l) true ∧ _ := by
    simpa only [tiles_append, tiles_cons] using hrep.tiles
  have hl₈ := hl.dvd_total
  have hstart := hrep.start
  have hlt := hrep.total_lt
  have hsize := hrep.total_eq
  simp only [total_append, total_cons] at hlt hsize
  have hend : plus h.heapStart h.allocSize = h.heapStart + (total l + (n + total r)) := by
    have hw : h.allocSize = BitVec.ofNat 32 (total l + (n + total r)) := by
      apply BitVec.eq_of_toNat_eq
      rw [toNat_ofNat_of_lt hlt, hsize]
    rw [hw, plus_ofNat hlt]
  have hne : isAllocated (header n (lastAllocated true l) true) ≠ 0 := by
    rw [isAllocated_header hn.1]
    decide
  rw [Heap.freeBlock, if_neg (by omega), if_neg (by omega)]
  simp only [Nat.add_sub_cancel, hend, hh]
  rw [if_neg (by omega), if_neg (by omega), if_neg hne]

end SdeSystems.Heap
