import SdeSystems.Disk.Volume
import Mathlib.Data.Finset.Card
import Mathlib.Data.Finset.Range
import Mathlib.Logic.Relation

/-!
# The blocks of a file

A file has up to 140 blocks of data and the block with the table of those beyond the first twelve. Where
these are blocks in use and all different, `bmap` leaves the blocks there are and adds the ones it needs:
the table, then the block itself, each a free block filled with 0.
-/

namespace SdeSystems.Disk

open Lib Function Relation

theorem bsize_eq : bsize = 512 := rfl

theorem ndirect_eq : ndirect = 12 := rfl

theorem maxFile_eq : maxFile = 140 := rfl

theorem maxPiece_eq : maxPiece = 1536 := rfl

/-- The blocks of a file: block `i` of its data, or 0, and for `MAXFILE` the table. -/
def Volume.slot (s : Volume) (ip i : ℕ) : ℕ :=
  if i = maxFile then (s.inodes ip).addrs ndirect
  else if i < ndirect then (s.inodes ip).addrs i
  else if (s.inodes ip).addrs ndirect = 0 then 0
  else ((s.data ((s.inodes ip).addrs ndirect)).load (4 * (i - ndirect))).toNat

/-- The disk and the file `ip` on it are in order. -/
structure Volume.Ok (s : Volume) (ip : ℕ) : Prop where
  /-- Block numbers are words. -/
  blocks : s.blocks ≤ 2 ^ 32
  /-- Block 0, the boot block, is never free. -/
  boot : s.used 0 = true
  /-- The blocks of the file are in use. -/
  used : ∀ i ≤ maxFile, s.used (s.slot ip i) = true
  /-- They are different ones. -/
  apart : ∀ i ≤ maxFile, ∀ j ≤ maxFile, s.slot ip i ≠ 0 → s.slot ip i = s.slot ip j → i = j
  /-- There is a block for all data. -/
  filled : ∀ i, bsize * i < (s.inodes ip).size → s.slot ip i ≠ 0
  /-- The file is not longer than `MAXFILE` blocks. -/
  size : (s.inodes ip).size ≤ maxFile * bsize

/-- Block `i` of the file is `b` now, which was free. -/
structure Adds (s s' : Volume) (ip i b : ℕ) : Prop where
  /-- There was none. -/
  empty : s.slot ip i = 0
  /-- The block is on the disk. -/
  lt : b < s.blocks
  /-- It was free. -/
  free : s.used b = false
  /-- It is marked. -/
  used : s'.used = update s.used b true
  /-- The blocks of the file. -/
  slot : ∀ j ≤ maxFile, s'.slot ip j = if j = i then b else s.slot ip j
  /-- Its bytes are 0. -/
  zero : s'.data b = fun _ => 0
  /-- The other blocks, the table excepted. -/
  data : ∀ x, x ≠ b → x ≠ s'.slot ip maxFile → s'.data x = s.data x
  /-- The number of blocks. -/
  blocks : s'.blocks = s.blocks
  /-- The size of the file. -/
  size : (s'.inodes ip).size = (s.inodes ip).size
  /-- What kind of file it is. -/
  dev : (s'.inodes ip).dev = (s.inodes ip).dev
  /-- The other inodes. -/
  others : ∀ q ≠ ip, s'.inodes q = s.inodes q
  /-- The inodes on the disk. -/
  dinodes : s'.dinodes = s.dinodes

variable {s s' : Volume} {ip i j b bn a t : ℕ}

/-! ### Slots -/

theorem slot_table : s.slot ip maxFile = (s.inodes ip).addrs ndirect := if_pos rfl

theorem slot_direct (h : i < ndirect) : s.slot ip i = (s.inodes ip).addrs i := by
  have hne : i ≠ maxFile := by
    rw [maxFile_eq]
    rw [ndirect_eq] at h
    omega
  simp only [Volume.slot]
  rw [if_neg hne, if_pos h]

theorem slot_indirect (h : ndirect ≤ i) (hi : i < maxFile) : s.slot ip i =
    if s.slot ip maxFile = 0 then 0 else ((s.data (s.slot ip maxFile)).load (4 * (i - ndirect))).toNat := by
  rw [slot_table]
  simp only [Volume.slot]
  rw [if_neg (Nat.ne_of_lt hi), if_neg (Nat.not_lt.mpr h)]

/-- A free block is none of the file's, and not block 0. -/
theorem Volume.Ok.ne_of_free (h : s.Ok ip) (hb : s.used b = false) (hi : i ≤ maxFile) : s.slot ip i ≠ b := by
  rintro rfl
  rw [h.used i hi] at hb
  cases hb

theorem Volume.Ok.ne_zero (h : s.Ok ip) (hb : s.used b = false) : b ≠ 0 := by
  rintro rfl
  rw [h.boot] at hb
  cases hb

/-- The file is in order with a block more. -/
theorem Adds.ok (h : Adds s s' ip i b) (hs : s.Ok ip) : s'.Ok ip := by
  have hb := hs.ne_zero h.free
  refine ⟨h.blocks ▸ hs.blocks, ?_, ?_, ?_, ?_, h.size ▸ hs.size⟩
  · rw [h.used, update_of_ne hb.symm]
    exact hs.boot
  · intro j hj
    rw [h.used, h.slot j hj]
    split
    · rw [update_self]
    · rw [update_of_ne (hs.ne_of_free h.free hj)]
      exact hs.used j hj
  · intro j hj k hk hne heq
    rw [h.slot j hj] at hne heq
    rw [h.slot k hk] at heq
    split at heq
    · rename_i hji
      split at heq
      · rename_i hki
        exact hji.trans hki.symm
      · exact absurd heq.symm (hs.ne_of_free h.free hk)
    · rename_i hji
      rw [if_neg hji] at hne
      split at heq
      · exact absurd heq (hs.ne_of_free h.free hj)
      · exact hs.apart j hj k hk hne heq
  · intro j hj
    rw [h.size] at hj
    have hle : j ≤ maxFile := by
      have hmax := hs.size
      rw [bsize_eq] at hmax hj
      omega
    rw [h.slot j hle]
    split
    · exact hb
    · exact hs.filled j hj

/-! ### Allocation -/

theorem balloc_cases (h : balloc s = some (s', b)) : b < s.blocks ∧ s.used b = false ∧
    s' = { s with used := update s.used b true, data := update s.data b fun _ => 0 } := by
  simp only [balloc] at h
  split at h
  · cases h
  · rename_i b' hfind
    obtain ⟨rfl, rfl⟩ := Prod.mk.inj (Option.some.inj h)
    have hmem := List.mem_of_find?_eq_some hfind
    have hfree := List.find?_some hfind
    exact ⟨List.mem_range.mp hmem, by simpa using hfree, rfl⟩

/-- The words of a block of zeros. -/
theorem load_zero (x : ℕ) : (show Bytes from fun _ => 0).load x = 0 := rfl

/-- A new block whose number is put into the inode at `i`. -/
theorem addrOf_cases (hempty : (s.inodes ip).addrs i = 0) (h : addrOf s ip i = some (s', b)) :
    b < s.blocks ∧ s.used b = false ∧ s'.blocks = s.blocks ∧ s'.used = update s.used b true ∧
      s'.data = update s.data b (fun _ => 0) ∧ s'.dinodes = s.dinodes ∧
      s'.inodes = update s.inodes ip { s.inodes ip with addrs := update (s.inodes ip).addrs i b } := by
  simp only [addrOf] at h
  rw [if_pos hempty] at h
  split at h
  · cases h
  · rename_i s₁ b₁ hb
    obtain ⟨rfl, rfl⟩ := Prod.mk.inj (Option.some.inj h)
    obtain ⟨hlt, hfree, rfl⟩ := balloc_cases hb
    exact ⟨hlt, hfree, rfl, rfl, rfl, rfl, rfl⟩

/-- It is block `j` of the file, a block of data or the table. -/
theorem addrOf_adds (hs : s.Ok ip) (hi : i < ndirect ∧ j = i ∨ i = ndirect ∧ j = maxFile)
    (hempty : (s.inodes ip).addrs i = 0) (h : addrOf s ip i = some (s', b)) : Adds s s' ip j b := by
  obtain ⟨hlt, hfree, hblocks, hused, hdata, hdinodes, hinodes⟩ := addrOf_cases hempty h
  have hself : s'.inodes ip = { s.inodes ip with addrs := update (s.inodes ip).addrs i b } := by
    rw [hinodes, update_self]
  have haddrs : (s'.inodes ip).addrs = update (s.inodes ip).addrs i b := by rw [hself]
  have hdir := ndirect_eq
  have hmax := maxFile_eq
  refine ⟨?_, hlt, hfree, hused, ?_, by rw [hdata, update_self], fun x hx _ => by rw [hdata, update_of_ne hx],
    hblocks, by rw [hself], by rw [hself], fun q hq => by rw [hinodes, update_of_ne hq], hdinodes⟩
  · rcases hi with ⟨hi, rfl⟩ | ⟨rfl, rfl⟩
    · rw [slot_direct hi, hempty]
    · rw [slot_table, hempty]
  · intro k hk
    rcases Nat.lt_or_ge k ndirect with hk' | hk'
    · rw [slot_direct hk', slot_direct hk', haddrs]
      by_cases hki : k = i
      · subst hki
        rw [update_self, if_pos (by omega)]
      · rw [update_of_ne hki, if_neg (by omega)]
    · rcases Nat.lt_or_eq_of_le hk with hk | rfl
      · rw [slot_indirect hk' hk, slot_indirect hk' hk, slot_table, slot_table, haddrs, hdata, if_neg (show k ≠ j by omega)]
        rcases hi with ⟨hi, rfl⟩ | ⟨rfl, rfl⟩
        · have htable := hs.ne_of_free hfree (i := maxFile) le_rfl
          rw [slot_table] at htable
          rw [update_of_ne (show ndirect ≠ j by omega), update_of_ne htable]
        · -- a new table is empty
          rw [update_self, update_self, hempty, if_pos rfl, load_zero]
          exact ite_self _
      · rw [slot_table, slot_table, haddrs]
        rcases hi with ⟨hi, rfl⟩ | ⟨rfl, rfl⟩
        · rw [update_of_ne (show ndirect ≠ j by omega), if_neg (by omega)]
        · rw [update_self, if_pos rfl]

/-- A new block whose number is put into the table. -/
theorem entryOf_cases (hempty : (s.data t).load (4 * i) = 0) (h : entryOf s t i = some (s', b)) :
    b < s.blocks ∧ s.used b = false ∧ s'.blocks = s.blocks ∧ s'.used = update s.used b true ∧
      s'.data = update (update s.data b fun _ => 0) t
        ((update s.data b (fun _ => 0) t).store (4 * i) (BitVec.ofNat 32 b)) ∧ s'.dinodes = s.dinodes ∧
      s'.inodes = s.inodes := by
  simp only [entryOf] at h
  rw [if_pos hempty] at h
  split at h
  · cases h
  · rename_i s₁ b₁ hb
    obtain ⟨rfl, rfl⟩ := Prod.mk.inj (Option.some.inj h)
    obtain ⟨hlt, hfree, rfl⟩ := balloc_cases hb
    exact ⟨hlt, hfree, rfl, rfl, rfl, rfl, rfl⟩

theorem entryOf_adds (hs : s.Ok ip) (hi : ndirect ≤ i) (hi' : i < maxFile) (ht : s.slot ip maxFile ≠ 0)
    (hempty : (s.data (s.slot ip maxFile)).load (4 * (i - ndirect)) = 0)
    (h : entryOf s (s.slot ip maxFile) (i - ndirect) = some (s', b)) : Adds s s' ip i b := by
  obtain ⟨hlt, hfree, hblocks, hused, hdata, hdinodes, hinodes⟩ := entryOf_cases hempty h
  have htable := hs.ne_of_free hfree (i := maxFile) le_rfl
  have hsame : s'.slot ip maxFile = s.slot ip maxFile := by rw [slot_table, slot_table, hinodes]
  rw [update_of_ne htable] at hdata
  refine ⟨?_, hlt, hfree, hused, ?_, by rw [hdata, update_of_ne htable.symm, update_self], ?_, hblocks,
    by rw [hinodes], by rw [hinodes], fun q _ => by rw [hinodes], hdinodes⟩
  · rw [slot_indirect hi hi', if_neg ht, hempty]
    rfl
  · intro k hk
    have hdir := ndirect_eq
    have hmax := maxFile_eq
    rcases Nat.lt_or_ge k ndirect with hk' | hk'
    · rw [slot_direct hk', slot_direct hk', hinodes, if_neg (show k ≠ i by omega)]
    · rcases Nat.lt_or_eq_of_le hk with hk | rfl
      · rw [slot_indirect hk' hk, slot_indirect hk' hk, hsame, if_neg ht, if_neg ht, hdata, update_self]
        by_cases hki : k = i
        · subst hki
          have hword : b < 2 ^ 32 := hlt.trans_le hs.blocks
          rw [Bytes.load_store, if_pos rfl, BitVec.toNat_ofNat, Nat.mod_eq_of_lt hword]
        · rw [Bytes.load_store_of_disjoint (by omega), if_neg hki]
      · rw [if_neg (show maxFile ≠ i by omega), hsame]
  · intro x hx hx'
    rw [hsame] at hx'
    rw [hdata, update_of_ne hx', update_of_ne hx]

/-! ### `bmap` -/

/-- The blocks that `bmap` may add for block `bn`: that one, or the table. -/
def Needs (bn i : ℕ) : Prop := i = bn ∨ i = maxFile ∧ ndirect ≤ bn

/-- The blocks that are needed for block `bn` are there, `s'` having some of them more than `s`. -/
def Grows (ip bn : ℕ) : Volume → Volume → Prop :=
  ReflTransGen fun s s' => s.Ok ip ∧ ∃ i b, Needs bn i ∧ Adds s s' ip i b

/-- What a new block keeps, `bmap` keeps. -/
theorem Grows.keeps {P : Volume → Prop} (h : Grows ip bn s s')
    (hstep : ∀ s s' i b, s.Ok ip → Needs bn i → Adds s s' ip i b → P s → P s') (hs : P s) : P s' := by
  induction h with
  | refl => exact hs
  | tail _ hadd ih =>
    obtain ⟨hok, i, b, hi, hadd⟩ := hadd
    exact hstep _ _ i b hok hi hadd ih

theorem Grows.ok (h : Grows ip bn s s') (hs : s.Ok ip) : s'.Ok ip :=
  h.keeps (fun _ _ _ _ hok _ hadd _ => hadd.ok hok) hs

theorem Adds.slot_self (h : Adds s s' ip i b) (hi : i ≤ maxFile) : s'.slot ip i = b := by
  rw [h.slot i hi, if_pos rfl]

theorem addrOf_spec (hs : s.Ok ip) (hi : i < ndirect ∧ j = i ∨ i = ndirect ∧ j = maxFile)
    (h : addrOf s ip i = some (s', a)) : s' = s ∧ a = s.slot ip j ∧ a ≠ 0 ∨ Adds s s' ip j a := by
  by_cases hempty : (s.inodes ip).addrs i = 0
  · exact .inr (addrOf_adds hs hi hempty h)
  · simp only [addrOf] at h
    rw [if_neg hempty] at h
    obtain ⟨rfl, rfl⟩ := Prod.mk.inj (Option.some.inj h)
    refine .inl ⟨rfl, ?_, hempty⟩
    rcases hi with ⟨hi, rfl⟩ | ⟨rfl, rfl⟩
    · rw [slot_direct hi]
    · rw [slot_table]

theorem entryOf_spec (hs : s.Ok ip) (hi : ndirect ≤ i) (hi' : i < maxFile) (ht : s.slot ip maxFile ≠ 0)
    (h : entryOf s (s.slot ip maxFile) (i - ndirect) = some (s', a)) :
    s' = s ∧ a = s.slot ip i ∧ a ≠ 0 ∨ Adds s s' ip i a := by
  by_cases hempty : (s.data (s.slot ip maxFile)).load (4 * (i - ndirect)) = 0
  · exact .inr (entryOf_adds hs hi hi' ht hempty h)
  · simp only [entryOf] at h
    rw [if_neg hempty] at h
    obtain ⟨rfl, rfl⟩ := Prod.mk.inj (Option.some.inj h)
    refine .inl ⟨rfl, ?_, fun hz => hempty (BitVec.eq_of_toNat_eq hz)⟩
    rw [slot_indirect hi hi', if_neg ht]

/-- One of the two: the block is there, or it is added. -/
theorem Grows.of_spec (hs : s.Ok ip) (hi : Needs bn i) (hle : i ≤ maxFile)
    (h : s' = s ∧ a = s.slot ip i ∧ a ≠ 0 ∨ Adds s s' ip i a) : Grows ip bn s s' ∧ s'.slot ip i = a ∧ a ≠ 0 := by
  rcases h with ⟨rfl, rfl, hne⟩ | hadd
  · exact ⟨.refl, rfl, hne⟩
  · exact ⟨.single ⟨hs, i, a, hi, hadd⟩, hadd.slot_self hle, hs.ne_zero hadd.free⟩

/-- `bmap` gives the block, having added what it needs. -/
theorem bmap_spec (hs : s.Ok ip) (hbn : bn < maxFile) (h : bmap s ip bn = some (s', a)) :
    Grows ip bn s s' ∧ s'.slot ip bn = a ∧ a ≠ 0 := by
  simp only [bmap] at h
  split at h
  · rename_i hdirect
    exact Grows.of_spec hs (.inl rfl) hbn.le (addrOf_spec hs (.inl ⟨hdirect, rfl⟩) h)
  · rename_i hindirect
    rw [if_pos (by rw [maxFile] at hbn; omega)] at h
    split at h
    · cases h
    · rename_i s₁ t ht
      have htable : Needs bn maxFile := .inr ⟨rfl, by omega⟩
      obtain ⟨hgrows, rfl, hne⟩ := Grows.of_spec hs htable le_rfl (addrOf_spec hs (.inr ⟨rfl, rfl⟩) ht)
      have hs₁ := hgrows.ok hs
      obtain ⟨hgrows', hslot, ha⟩ := Grows.of_spec hs₁ (.inl rfl) hbn.le (entryOf_spec hs₁ (by omega) hbn hne h)
      exact ⟨hgrows.trans hgrows', hslot, ha⟩

/-- A block that is there is found, and nothing changes. -/
theorem bmap_of_slot (hbn : bn < maxFile) (h : s.slot ip bn ≠ 0) : bmap s ip bn = some (s, s.slot ip bn) := by
  simp only [bmap]
  by_cases hdirect : bn < ndirect
  · rw [slot_direct hdirect] at h ⊢
    rw [if_pos hdirect]
    simp only [addrOf]
    rw [if_neg h]
  · rw [slot_indirect (by omega) hbn] at h ⊢
    have ht : s.slot ip maxFile ≠ 0 := fun ht => h (if_pos ht)
    rw [if_neg ht] at h ⊢
    rw [if_neg hdirect, if_pos (by rw [maxFile] at hbn; omega)]
    rw [slot_table] at ht h ⊢
    have hword : (s.data ((s.inodes ip).addrs ndirect)).load (4 * (bn - ndirect)) ≠ 0 := fun hz => h (by rw [hz]; rfl)
    simp only [addrOf]
    rw [if_neg ht]
    dsimp only
    simp only [entryOf]
    rw [if_neg hword]

end SdeSystems.Disk
