import SdeSystems.Disk.Whole

/-!
# Reading a file, and throwing it away

`readi`, `bfree` and `itrunc` of `fs.c`. What `readi` reads is there, so `bmap` adds nothing to the file and
the disk stays. `itrunc` gives every block of the file back, once: where the blocks of a file are in use and
all different `bfree` does not panic, and the blocks in use afterwards are the others (`itrunc_spec`).
-/

namespace SdeSystems.Disk

open Lib Function

/-- `bfree(dev, b)`: no result where it panics, "freeing free block". -/
def bfree (s : Volume) (b : ℕ) : Option Volume :=
  if s.used b = false then none else some { s with used := update s.used b false }

/-- `ip->addrs[i] = a`. -/
def Volume.setAddr (s : Volume) (ip i a : ℕ) : Volume :=
  { s with inodes := update s.inodes ip { s.inodes ip with addrs := update (s.inodes ip).addrs i a } }

/-- `if(ip->addrs[i]){ bfree(ip->dev, ip->addrs[i]); ip->addrs[i] = 0; }`. -/
def freeAddr (ip : ℕ) (s : Volume) (i : ℕ) : Option Volume :=
  if (s.inodes ip).addrs i = 0 then some s
  else (bfree s ((s.inodes ip).addrs i)).map fun s => s.setAddr ip i 0

/-- `if(a[j]) bfree(ip->dev, a[j])`, for the words `a` of the block `t`. -/
def freeEntry (t : ℕ) (s : Volume) (j : ℕ) : Option Volume :=
  if (s.data t).load (4 * j) = 0 then some s else bfree s ((s.data t).load (4 * j)).toNat

/-- The second half of `itrunc`: the table and the blocks in it. -/
def freeTable (ip : ℕ) (s : Volume) : Option Volume :=
  if (s.inodes ip).addrs ndirect = 0 then some s
  else
    match (List.range nindirect).foldlM (freeEntry ((s.inodes ip).addrs ndirect)) s with
    | none => none
    | some s => (bfree s ((s.inodes ip).addrs ndirect)).map fun s => s.setAddr ip ndirect 0

/-- `itrunc(ip)`. -/
def itrunc (s : Volume) (ip : ℕ) : Option Volume :=
  match (List.range ndirect).foldlM (freeAddr ip) s with
  | none => none
  | some s =>
    match freeTable ip s with
    | none => none
    | some s => some (iupdate { s with inodes := update s.inodes ip { s.inodes ip with size := 0 } } ip)

/-- The loop of `readi` from `tot` on. -/
def readBlocks (ip n : ℕ) : ℕ → ℕ → ℕ → Volume → Option (Volume × List UInt8)
  | 0, _, _, _ => none
  | fuel + 1, tot, off, s =>
    if tot < n then
      match bmap s ip (off / bsize) with
      | none => none
      | some (s, b) =>
        let m := min (n - tot) (bsize - off % bsize)
        (readBlocks ip n fuel (tot + m) (off + m) s).map fun (s', bytes) =>
          (s', (List.range m).map (fun x => s.data b (off % bsize + x)) ++ bytes)
    else some (s, [])

/-- `readi(ip, dst, off, n)`: the disk afterwards, and the bytes read or -1; `dev` is what a device gives. -/
def readi (s : Volume) (ip off n : ℕ) (dev : Option (List UInt8)) : Option (Volume × Option (List UInt8)) :=
  match (s.inodes ip).dev with
  | some _ => some (s, dev)
  | none =>
    if (s.inodes ip).size < off ∨ 2 ^ 32 ≤ off + n then some (s, none)
    else
      let n := if (s.inodes ip).size < off + n then (s.inodes ip).size - off else n
      (readBlocks ip n (n + 1) 0 off s).map fun (s, bytes) => (s, some bytes)

variable {s s' : Volume} {ip i j b n off tot fuel : ℕ} {l : List ℕ}

/-! ### Reading -/

/-- **The loop of `readi`** leaves the disk and gives the bytes of the file. -/
theorem readBlocks_eq (hs : s.Ok ip) (htot : tot ≤ n) (hfuel : n - tot < fuel)
    (hend : off + (n - tot) ≤ (s.inodes ip).size) :
    readBlocks ip n fuel tot off s = some (s, (List.range (n - tot)).map fun x => s.byte ip (off + x)) := by
  induction fuel generalizing tot off with
  | zero => omega
  | succ fuel ih =>
    rw [readBlocks]
    by_cases hlt : tot < n
    · have hmax := hs.size
      rw [maxFile_eq, bsize_eq] at hmax
      have hbn : off / bsize < maxFile := by
        rw [maxFile_eq, bsize_eq]
        omega
      have hslot : s.slot ip (off / bsize) ≠ 0 := by
        apply hs.filled
        rw [bsize_eq]
        omega
      rw [if_pos hlt, bmap_of_slot hbn hslot]
      dsimp only
      obtain ⟨m, hm⟩ : ∃ m, m = min (n - tot) (bsize - off % bsize) := ⟨_, rfl⟩
      rw [← hm]
      have hpos : 0 < m := by
        rw [hm, bsize_eq]
        omega
      rw [ih (by omega) (by omega) (by omega), Option.map_some]
      congr 2
      have hsplit : n - tot = m + (n - (tot + m)) := by omega
      rw [hsplit, List.range_add, List.map_append, List.map_map]
      congr 1
      · apply List.map_congr_left
        intro x hx
        rw [List.mem_range] at hx
        have hmod : off % bsize + x < bsize := by
          rw [hm] at hx
          omega
        have hdiv : (off + x) / bsize = off / bsize ∧ (off + x) % bsize = off % bsize + x := by
          rw [bsize_eq] at hmod ⊢
          omega
        rw [Volume.byte, hdiv.1, hdiv.2]
      · apply List.map_congr_left
        intro x _
        rw [comp_apply, Nat.add_assoc]
    · have hz : n - tot = 0 := by omega
      rw [if_neg hlt, hz]
      rfl

/-- **`readi` leaves the disk**, and reads the bytes of the file up to its end. -/
theorem readi_eq (hs : s.Ok ip) (hdev : (s.inodes ip).dev = none) {dev : Option (List UInt8)} :
    readi s ip off n dev = some (s, if (s.inodes ip).size < off ∨ 2 ^ 32 ≤ off + n then none
      else some ((List.range (min n ((s.inodes ip).size - off))).map fun x => s.byte ip (off + x))) := by
  simp only [readi]
  rw [hdev]
  dsimp only
  by_cases hbad : (s.inodes ip).size < off ∨ 2 ^ 32 ≤ off + n
  · rw [if_pos hbad, if_pos hbad]
  · rw [if_neg hbad, if_neg hbad]
    have hn : (if (s.inodes ip).size < off + n then (s.inodes ip).size - off else n) = min n ((s.inodes ip).size - off) := by
      split <;> omega
    rw [hn, readBlocks_eq hs (Nat.zero_le _) (by omega) (by omega), Option.map_some, Nat.sub_zero]

/-! ### Freeing -/

/-- The blocks with `P` are free now, the others as they were. -/
structure Frees (s s' : Volume) (P : ℕ → Prop) : Prop where
  /-- The blocks in use. -/
  used : ∀ b, s'.used b = true ↔ s.used b = true ∧ ¬ P b
  /-- The number of blocks. -/
  blocks : s'.blocks = s.blocks
  /-- The bytes. -/
  data : s'.data = s.data
  /-- The inodes on the disk. -/
  dinodes : s'.dinodes = s.dinodes

theorem Frees.refl {P : ℕ → Prop} (h : ∀ b, ¬ P b) : Frees s s P := ⟨fun b => by simp [h b], rfl, rfl, rfl⟩

theorem Frees.trans {s'' : Volume} {P Q R : ℕ → Prop} (h : Frees s s' P) (h' : Frees s' s'' Q)
    (hR : ∀ b, R b ↔ P b ∨ Q b) : Frees s s'' R where
  used b := by rw [h'.used, h.used, hR, not_or, and_assoc]
  blocks := h'.blocks.trans h.blocks
  data := h'.data.trans h.data
  dinodes := h'.dinodes.trans h.dinodes

theorem Frees.setAddr {P : ℕ → Prop} {a : ℕ} (h : Frees s s' P) : Frees s (s'.setAddr ip i a) P :=
  ⟨h.used, h.blocks, h.data, h.dinodes⟩

/-- A block in use is freed. -/
theorem bfree_frees (hb : s.used b = true) (hne : b ≠ 0) :
    ∃ s', bfree s b = some s' ∧ s'.inodes = s.inodes ∧ Frees s s' fun x => x ≠ 0 ∧ b = x := by
  refine ⟨{ s with used := update s.used b false }, ?_, rfl, ?_, rfl, rfl, rfl⟩
  · simp [bfree, hb]
  · intro x
    by_cases hx : x = b
    · simp [hx, hne]
    · have hx' : ¬ b = x := fun h => hx h.symm
      simp [hx, hx']

/-- The blocks that some words of a table name. -/
theorem freeEntries (t : ℕ) (hnd : l.Nodup)
    (hused : ∀ j ∈ l, ((s.data t).load (4 * j)).toNat ≠ 0 → s.used ((s.data t).load (4 * j)).toNat = true)
    (hapart : ∀ j ∈ l, ∀ k ∈ l, ((s.data t).load (4 * j)).toNat ≠ 0 →
      ((s.data t).load (4 * j)).toNat = ((s.data t).load (4 * k)).toNat → j = k) :
    ∃ s', l.foldlM (freeEntry t) s = some s' ∧ s'.inodes = s.inodes ∧
      Frees s s' fun b => b ≠ 0 ∧ ∃ j ∈ l, ((s.data t).load (4 * j)).toNat = b := by
  induction l generalizing s with
  | nil => exact ⟨s, rfl, rfl, .refl (by simp)⟩
  | cons j l ih =>
    rw [List.nodup_cons] at hnd
    obtain ⟨s₁, h₁, hin₁, hfree₁⟩ : ∃ s₁, freeEntry t s j = some s₁ ∧ s₁.inodes = s.inodes ∧
        Frees s s₁ fun b => b ≠ 0 ∧ ((s.data t).load (4 * j)).toNat = b := by
      by_cases hz : (s.data t).load (4 * j) = 0
      · refine ⟨s, if_pos hz, rfl, .refl ?_⟩
        rintro b ⟨hb, rfl⟩
        exact hb (by rw [hz]; rfl)
      · have hne : ((s.data t).load (4 * j)).toNat ≠ 0 := fun h => hz (BitVec.eq_of_toNat_eq h)
        obtain ⟨s₁, h₁, hin, hfree⟩ := bfree_frees (hused j List.mem_cons_self hne) hne
        exact ⟨s₁, (if_neg hz).trans h₁, hin, hfree⟩
    rw [List.foldlM_cons, h₁, Option.bind_eq_bind, Option.bind_some]
    have hdata := hfree₁.data
    have hused₁ : ∀ k ∈ l, ((s₁.data t).load (4 * k)).toNat ≠ 0 → s₁.used ((s₁.data t).load (4 * k)).toNat = true := by
      intro k hk hne
      rw [hdata] at hne ⊢
      rw [hfree₁.used]
      refine ⟨hused k (List.mem_cons_of_mem _ hk) hne, fun h => hnd.1 ?_⟩
      rwa [hapart j List.mem_cons_self k (List.mem_cons_of_mem _ hk) (h.2 ▸ h.1) h.2]
    obtain ⟨s₂, h₂, hin₂, hfree₂⟩ := ih hnd.2 hused₁ fun k hk k' hk' => by
      rw [hdata]
      exact hapart k (List.mem_cons_of_mem _ hk) k' (List.mem_cons_of_mem _ hk')
    refine ⟨s₂, h₂, hin₂.trans hin₁, hfree₁.trans hfree₂ ?_⟩
    intro b
    rw [hdata]
    simp only [List.mem_cons, exists_eq_or_imp, and_or_left]

/-- The first blocks of the file. -/
theorem freeAddrs (hnd : l.Nodup)
    (hused : ∀ i ∈ l, (s.inodes ip).addrs i ≠ 0 → s.used ((s.inodes ip).addrs i) = true)
    (hapart : ∀ i ∈ l, ∀ k ∈ l, (s.inodes ip).addrs i ≠ 0 → (s.inodes ip).addrs i = (s.inodes ip).addrs k → i = k) :
    ∃ s', l.foldlM (freeAddr ip) s = some s' ∧
      s'.inodes = update s.inodes ip { s.inodes ip with addrs := fun i => if i ∈ l then 0 else (s.inodes ip).addrs i } ∧
      Frees s s' fun b => b ≠ 0 ∧ ∃ i ∈ l, (s.inodes ip).addrs i = b := by
  induction l generalizing s with
  | nil =>
    refine ⟨s, rfl, ?_, .refl (by simp)⟩
    simp
  | cons i l ih =>
    rw [List.nodup_cons] at hnd
    obtain ⟨s₁, h₁, hin₁, hfree₁⟩ : ∃ s₁, freeAddr ip s i = some s₁ ∧
        s₁.inodes = update s.inodes ip { s.inodes ip with addrs := update (s.inodes ip).addrs i 0 } ∧
        Frees s s₁ fun b => b ≠ 0 ∧ (s.inodes ip).addrs i = b := by
      by_cases hz : (s.inodes ip).addrs i = 0
      · refine ⟨s, if_pos hz, ?_, .refl fun b h => h.1 (h.2.symm.trans hz)⟩
        have hsame : update (s.inodes ip).addrs i 0 = (s.inodes ip).addrs := by rw [← hz, update_eq_self]
        rw [hsame, update_eq_self]
      · obtain ⟨s₁, h₁, hin, hfree⟩ := bfree_frees (hused i List.mem_cons_self hz) hz
        refine ⟨s₁.setAddr ip i 0, ?_, ?_, hfree.setAddr⟩
        · rw [freeAddr, if_neg hz, h₁, Option.map_some]
        · rw [Volume.setAddr, hin]
    have hself : s₁.inodes ip = { s.inodes ip with addrs := update (s.inodes ip).addrs i 0 } := by
      rw [hin₁, update_self]
    have haddr : ∀ k ∈ l, (s₁.inodes ip).addrs k = (s.inodes ip).addrs k := by
      intro k hk
      rw [hself]
      exact update_of_ne (fun h => hnd.1 (by rwa [← h])) _ _
    rw [List.foldlM_cons, h₁, Option.bind_eq_bind, Option.bind_some]
    have hused₁ : ∀ k ∈ l, (s₁.inodes ip).addrs k ≠ 0 → s₁.used ((s₁.inodes ip).addrs k) = true := by
      intro k hk hne
      rw [haddr k hk] at hne ⊢
      rw [hfree₁.used]
      refine ⟨hused k (List.mem_cons_of_mem _ hk) hne, fun h => hnd.1 ?_⟩
      rwa [hapart i List.mem_cons_self k (List.mem_cons_of_mem _ hk) (h.2 ▸ h.1) h.2]
    obtain ⟨s₂, h₂, hin₂, hfree₂⟩ := ih hnd.2 hused₁ fun k hk k' hk' => by
      rw [haddr k hk, haddr k' hk']
      exact hapart k (List.mem_cons_of_mem _ hk) k' (List.mem_cons_of_mem _ hk')
    refine ⟨s₂, h₂, ?_, hfree₁.trans hfree₂ ?_⟩
    · have haddrs : (fun k => if k ∈ l then 0 else update (s.inodes ip).addrs i 0 k) =
          fun k => if k ∈ i :: l then 0 else (s.inodes ip).addrs k := by
        funext k
        by_cases hki : k = i
        · simp [hki]
        · simp [hki]
      rw [hin₂, hself, hin₁, update_idem]
      dsimp only
      rw [haddrs]
    · intro b
      simp only [List.mem_cons, exists_eq_or_imp, and_or_left]
      refine or_congr_right (and_congr_right fun _ => exists_congr fun k => and_congr_right fun hk => ?_)
      rw [haddr k hk]

/-! ### `itrunc` -/

/-- The block is one of the file's. -/
def Volume.Owns (s : Volume) (ip b : ℕ) : Prop := b ≠ 0 ∧ ∃ i ≤ maxFile, s.slot ip i = b

/-- The first half of `itrunc`. -/
theorem Volume.Ok.freeAddrs (hs : s.Ok ip) : ∃ s', (List.range ndirect).foldlM (freeAddr ip) s = some s' ∧
    s'.inodes = update s.inodes ip
      { s.inodes ip with addrs := fun i => if i < ndirect then 0 else (s.inodes ip).addrs i } ∧
    Frees s s' fun b => b ≠ 0 ∧ ∃ i < ndirect, s.slot ip i = b := by
  have hmax : ∀ i < ndirect, i ≤ maxFile := by
    intro i hi
    rw [ndirect_eq] at hi
    rw [maxFile_eq]
    omega
  have hused : ∀ i ∈ List.range ndirect, (s.inodes ip).addrs i ≠ 0 → s.used ((s.inodes ip).addrs i) = true := by
    intro i hi _
    rw [List.mem_range] at hi
    rw [← slot_direct hi]
    exact hs.used i (hmax i hi)
  obtain ⟨s', h, hin, hfree⟩ := Disk.freeAddrs List.nodup_range hused fun i hi k hk => by
    rw [List.mem_range] at hi hk
    rw [← slot_direct hi, ← slot_direct hk]
    exact hs.apart i (hmax i hi) k (hmax k hk)
  refine ⟨s', h, ?_, ?_, hfree.blocks, hfree.data, hfree.dinodes⟩
  · simpa only [List.mem_range] using hin
  · intro b
    rw [hfree.used]
    refine and_congr_right fun _ => not_congr (and_congr_right fun _ => exists_congr fun i => ?_)
    rw [List.mem_range]
    refine and_congr_right fun hi => ?_
    rw [slot_direct hi]

/-- The word of the table for a block. -/
theorem slot_entry (ht : (s.inodes ip).addrs ndirect ≠ 0) (hj : j < nindirect) :
    s.slot ip (ndirect + j) = ((s.data ((s.inodes ip).addrs ndirect)).load (4 * j)).toNat := by
  rw [slot_indirect (Nat.le_add_right _ _) (by rw [maxFile]; omega), slot_table, if_neg ht, Nat.add_sub_cancel_left]

theorem slot_entry_none (ht : (s.inodes ip).addrs ndirect = 0) (hj : j < nindirect) : s.slot ip (ndirect + j) = 0 := by
  rw [slot_indirect (Nat.le_add_right _ _) (by rw [maxFile]; omega), slot_table, if_pos ht]

/-- The second half, whatever the first blocks are. -/
theorem freeTable_spec (s : Volume) (ip : ℕ) (htable : (s.inodes ip).addrs ndirect ≠ 0 → s.used ((s.inodes ip).addrs ndirect) = true ∧
      ∀ j < nindirect, s.slot ip (ndirect + j) ≠ (s.inodes ip).addrs ndirect)
    (hused : ∀ j < nindirect, s.slot ip (ndirect + j) ≠ 0 → s.used (s.slot ip (ndirect + j)) = true)
    (hapart : ∀ j < nindirect, ∀ k < nindirect, s.slot ip (ndirect + j) ≠ 0 →
      s.slot ip (ndirect + j) = s.slot ip (ndirect + k) → j = k) :
    ∃ s', freeTable ip s = some s' ∧ s'.inodes = update s.inodes ip
        { s.inodes ip with addrs := update (s.inodes ip).addrs ndirect 0 } ∧
      Frees s s' fun b => b ≠ 0 ∧ ((∃ j < nindirect, s.slot ip (ndirect + j) = b) ∨ (s.inodes ip).addrs ndirect = b) := by
  by_cases ht : (s.inodes ip).addrs ndirect = 0
  · refine ⟨s, if_pos ht, ?_, .refl ?_⟩
    · have hsame : update (s.inodes ip).addrs ndirect 0 = (s.inodes ip).addrs := by rw [← ht, update_eq_self]
      rw [hsame, update_eq_self]
    · rintro b ⟨hb, ⟨j, hj, hjb⟩ | hb'⟩
      · exact hb (hjb.symm.trans (slot_entry_none ht hj))
      · exact hb (hb'.symm.trans ht)
  · obtain ⟨htu, hne⟩ := htable ht
    obtain ⟨s₁, h₁, hin₁, hfree₁⟩ := freeEntries (s := s) (l := List.range nindirect) ((s.inodes ip).addrs ndirect)
      List.nodup_range
      (fun j hj => by rw [List.mem_range] at hj; rw [← slot_entry ht hj]; exact hused j hj)
      (fun j hj k hk => by
        rw [List.mem_range] at hj hk
        rw [← slot_entry ht hj, ← slot_entry ht hk]
        exact hapart j hj k hk)
    have hstill : s₁.used ((s.inodes ip).addrs ndirect) = true := by
      rw [hfree₁.used]
      refine ⟨htu, ?_⟩
      rintro ⟨-, j, hj, hj'⟩
      rw [List.mem_range] at hj
      rw [← slot_entry ht hj] at hj'
      exact hne j hj hj'
    obtain ⟨s₂, h₂, hin₂, hfree₂⟩ := bfree_frees hstill ht
    refine ⟨s₂.setAddr ip ndirect 0, ?_, ?_, (hfree₁.trans hfree₂ ?_).setAddr⟩
    · rw [freeTable, if_neg ht, h₁]
      dsimp only
      rw [hin₁, h₂, Option.map_some]
    · rw [Volume.setAddr, hin₂, hin₁]
    · intro b
      rw [← and_or_left]
      refine and_congr_right fun _ => or_congr_left (exists_congr fun j => ?_)
      rw [List.mem_range]
      refine and_congr_right fun hj => ?_
      rw [slot_entry ht hj]

/-- **`itrunc` frees exactly the blocks of the file**, and does not panic. -/
theorem itrunc_spec (hs : s.Ok ip) : ∃ s', itrunc s ip = some s' ∧
    (∀ b, s'.used b = true ↔ s.used b = true ∧ ¬ s.Owns ip b) ∧ s'.blocks = s.blocks ∧ s'.data = s.data ∧
    (s'.inodes ip).dev = (s.inodes ip).dev ∧ (s'.inodes ip).size = 0 ∧ (∀ i ≤ ndirect, (s'.inodes ip).addrs i = 0) ∧
    (∀ q ≠ ip, s'.inodes q = s.inodes q) ∧ s'.dinodes = update s.dinodes ip (s'.inodes ip) := by
  obtain ⟨s₁, h₁, hin₁, hfree₁⟩ := hs.freeAddrs
  have hself₁ : s₁.inodes ip = { s.inodes ip with addrs := fun i => if i < ndirect then 0 else (s.inodes ip).addrs i } := by
    rw [hin₁, update_self]
  have ht₁ : (s₁.inodes ip).addrs ndirect = (s.inodes ip).addrs ndirect := by
    simp [hself₁]
  have hmax : ∀ j < nindirect, ndirect + j < maxFile := by
    intro j hj
    rw [maxFile]
    omega
  have hslot : ∀ j < nindirect, s₁.slot ip (ndirect + j) = s.slot ip (ndirect + j) := by
    intro j hj
    by_cases ht : (s.inodes ip).addrs ndirect = 0
    · rw [slot_entry_none ht hj, slot_entry_none (ht₁.trans ht) hj]
    · rw [slot_entry ht hj, slot_entry (by rwa [ht₁]) hj, hfree₁.data, ht₁]
  -- The blocks of the first half are none of the second.
  have hkeep : ∀ i ≤ maxFile, ndirect ≤ i → s.slot ip i ≠ 0 → s₁.used (s.slot ip i) = true := by
    intro i hi hge hne
    rw [hfree₁.used]
    refine ⟨hs.used i hi, ?_⟩
    rintro ⟨-, k, hk, hki⟩
    have hle : k ≤ maxFile := by
      rw [maxFile]
      omega
    have := hs.apart i hi k hle hne hki.symm
    omega
  obtain ⟨s₂, h₂, hin₂, hfree₂⟩ := freeTable_spec s₁ ip
    (by
      rw [ht₁, ← slot_table (s := s)]
      intro hne
      refine ⟨hkeep maxFile le_rfl (by rw [maxFile]; omega) hne, ?_⟩
      intro j hj heq
      rw [hslot j hj] at heq
      have := hs.apart maxFile le_rfl (ndirect + j) (hmax j hj).le hne heq.symm
      have := hmax j hj
      omega)
    (by
      intro j hj
      rw [hslot j hj]
      exact hkeep _ (hmax j hj).le (Nat.le_add_right _ _))
    (by
      intro j hj k hk
      rw [hslot j hj, hslot k hk]
      intro hne heq
      have := hs.apart _ (hmax j hj).le _ (hmax k hk).le hne heq
      omega)
  have hself₂ : s₂.inodes ip = { s₁.inodes ip with addrs := update (s₁.inodes ip).addrs ndirect 0 } := by
    rw [hin₂, update_self]
  refine ⟨iupdate { s₂ with inodes := update s₂.inodes ip { s₂.inodes ip with size := 0 } } ip, ?_, ?_, ?_, ?_, ?_, ?_, ?_, ?_, ?_⟩
  · rw [itrunc, h₁]
    dsimp only
    rw [h₂]
  · intro b
    refine (hfree₂.used b).trans ?_
    rw [hfree₁.used, and_assoc, ← not_or, ← and_or_left]
    refine and_congr_right fun _ => not_congr (and_congr_right fun _ => ?_)
    constructor
    · rintro (⟨i, hi, hib⟩ | ⟨j, hj, hjb⟩ | hb)
      · exact ⟨i, by rw [maxFile]; omega, hib⟩
      · exact ⟨ndirect + j, (hmax j hj).le, by rwa [← hslot j hj]⟩
      · exact ⟨maxFile, le_rfl, by rwa [slot_table, ← ht₁]⟩
    · rintro ⟨i, hi, hib⟩
      rcases Nat.lt_or_ge i ndirect with hlt | hge
      · exact .inl ⟨i, hlt, hib⟩
      · rcases Nat.lt_or_eq_of_le hi with hi | rfl
        · have hj : i - ndirect < nindirect := by
            rw [maxFile] at hi
            omega
          refine .inr (.inl ⟨i - ndirect, hj, ?_⟩)
          rw [hslot _ hj, Nat.add_sub_cancel' hge, hib]
        · refine .inr (.inr ?_)
          rw [ht₁, ← slot_table, hib]
  · exact hfree₂.blocks.trans hfree₁.blocks
  · exact hfree₂.data.trans hfree₁.data
  · simp [iupdate, hself₂, hself₁]
  · simp [iupdate]
  · intro i hi
    simp only [iupdate, update_self, hself₂, hself₁]
    by_cases hin : i = ndirect
    · rw [hin, update_self]
    · rw [update_of_ne hin, if_pos (by omega)]
  · intro q hq
    simp only [iupdate]
    rw [update_of_ne hq, hin₂, update_of_ne hq, hin₁, update_of_ne hq]
  · simp only [iupdate]
    rw [hfree₂.dinodes, hfree₁.dinodes]

end SdeSystems.Disk
