import SdeSystems.Disk.Bytewise

/-!
# Enough free blocks

A write takes a free block for each block of the file that it needs and that is not there. If there are as
many free blocks as that, it does not run out of them: each new block is one free block less, and one
missing block less.
-/

namespace SdeSystems.Disk

open Lib Function

instance (bn i : ℕ) : Decidable (Needs bn i) := inferInstanceAs (Decidable (_ ∨ _))

/-- Block `i` of the file is needed for the `n` bytes from `off` on. -/
def NeededFor (off n i : ℕ) : Prop := ∃ x < n, Needs ((off + x) / bsize) i

instance (off n i : ℕ) : Decidable (NeededFor off n i) := inferInstanceAs (Decidable (∃ x < n, Needs ((off + x) / bsize) i))

/-- The blocks that are needed for the `n` bytes from `off` on and are not there. -/
def Volume.missing (s : Volume) (ip off n : ℕ) : Finset ℕ :=
  (Finset.range (maxFile + 1)).filter fun i => s.slot ip i = 0 ∧ NeededFor off n i

/-- The free blocks. -/
def Volume.freeBlocks (s : Volume) : Finset ℕ := (Finset.range s.blocks).filter fun b => s.used b = false

/-- There are enough free blocks for the `n` bytes from `off` on. -/
def Volume.Room (s : Volume) (ip off n : ℕ) : Prop := (s.missing ip off n).card ≤ s.freeBlocks.card

instance (s : Volume) (ip off n : ℕ) : Decidable (s.Room ip off n) := inferInstanceAs (Decidable (_ ≤ _))

variable {s s' : Volume} {ip i j b bn off n m : ℕ} {w : ℕ → UInt8}

theorem mem_missing : i ∈ s.missing ip off n ↔ i ≤ maxFile ∧ s.slot ip i = 0 ∧ NeededFor off n i := by
  simp only [Volume.missing]
  rw [Finset.mem_filter, Finset.mem_range, Nat.lt_succ_iff]

theorem mem_freeBlocks : b ∈ s.freeBlocks ↔ b < s.blocks ∧ s.used b = false := by
  simp only [Volume.freeBlocks]
  rw [Finset.mem_filter, Finset.mem_range]

/-- After a new block that is needed there is still enough. -/
theorem Volume.Room.adds (h : s.Room ip off n) (hs : s.Ok ip) (ha : Adds s s' ip i b) (hi : i ≤ maxFile)
    (hneed : NeededFor off n i) : s'.Room ip off n := by
  have hmissing : s'.missing ip off n = (s.missing ip off n).erase i := by
    ext j
    rw [Finset.mem_erase, mem_missing, mem_missing]
    constructor
    · rintro ⟨hj, hz, hneed⟩
      rw [ha.slot j hj] at hz
      split at hz
      · exact absurd hz (hs.ne_zero ha.free)
      · rename_i hji
        exact ⟨hji, hj, hz, hneed⟩
    · rintro ⟨hji, hj, hz, hneed⟩
      refine ⟨hj, ?_, hneed⟩
      rwa [ha.slot j hj, if_neg hji]
  have hfree : s'.freeBlocks = s.freeBlocks.erase b := by
    ext a
    rw [Finset.mem_erase, mem_freeBlocks, mem_freeBlocks, ha.blocks, ha.used]
    by_cases hab : a = b
    · subst hab
      simp
    · rw [update_of_ne hab]
      exact (and_iff_right hab).symm
  simp only [Volume.Room] at h ⊢
  rw [hmissing, hfree, Finset.card_erase_of_mem (mem_missing.mpr ⟨hi, ha.empty, hneed⟩),
    Finset.card_erase_of_mem (mem_freeBlocks.mpr ⟨ha.lt, ha.free⟩)]
  exact Nat.sub_le_sub_right h 1

theorem Volume.Room.copy {src : ℕ → UInt8} {x : ℕ} (h : s.Room ip off n) (hb : b ≠ s.slot ip maxFile) :
    (s.copy b x src m).Room ip off n := by
  have hmissing : (s.copy b x src m).missing ip off n = s.missing ip off n := by
    ext j
    rw [mem_missing, mem_missing, slot_copy hb]
  simp only [Volume.Room]
  rw [hmissing]
  exact h

/-- Where a block that is needed is not there, one is free. -/
theorem Volume.Room.balloc (h : s.Room ip off n) (hi : i ≤ maxFile) (hz : s.slot ip i = 0) (hneed : NeededFor off n i) :
    ∃ s' b, balloc s = some (s', b) := by
  have hpos : 0 < (s.missing ip off n).card := Finset.card_pos.mpr ⟨i, mem_missing.mpr ⟨hi, hz, hneed⟩⟩
  obtain ⟨b, hb⟩ := Finset.card_pos.mp (Nat.lt_of_lt_of_le hpos h)
  obtain ⟨hlt, hfree⟩ := mem_freeBlocks.mp hb
  have hfind : ((List.range s.blocks).find? fun b => !s.used b).isSome :=
    List.find?_isSome.mpr ⟨b, List.mem_range.mpr hlt, by simp [hfree]⟩
  obtain ⟨b', hb'⟩ := Option.isSome_iff_exists.mp hfind
  simp only [Disk.balloc]
  rw [hb']
  exact ⟨_, _, rfl⟩

theorem Volume.Room.addrOf (h : s.Room ip off n) (hi : i < ndirect ∧ j = i ∨ i = ndirect ∧ j = maxFile)
    (hneed : NeededFor off n j) : ∃ s' a, addrOf s ip i = some (s', a) := by
  simp only [Disk.addrOf]
  by_cases hempty : (s.inodes ip).addrs i = 0
  · have hdir := ndirect_eq
    have hmax := maxFile_eq
    have hz : s.slot ip j = 0 := by
      rcases hi with ⟨hi, rfl⟩ | ⟨rfl, rfl⟩
      · rw [slot_direct hi, hempty]
      · rw [slot_table, hempty]
    obtain ⟨s', b, hb⟩ := h.balloc (by omega) hz hneed
    rw [if_pos hempty, hb]
    exact ⟨_, _, rfl⟩
  · rw [if_neg hempty]
    exact ⟨_, _, rfl⟩

theorem Volume.Room.entryOf (h : s.Room ip off n) (hi : ndirect ≤ i) (hi' : i < maxFile) (ht : s.slot ip maxFile ≠ 0)
    (hneed : NeededFor off n i) : ∃ s' a, entryOf s (s.slot ip maxFile) (i - ndirect) = some (s', a) := by
  simp only [Disk.entryOf]
  by_cases hempty : (s.data (s.slot ip maxFile)).load (4 * (i - ndirect)) = 0
  · have hz : s.slot ip i = 0 := by
      rw [slot_indirect hi hi', if_neg ht, hempty]
      rfl
    obtain ⟨s', b, hb⟩ := h.balloc hi'.le hz hneed
    rw [if_pos hempty, hb]
    exact ⟨_, _, rfl⟩
  · rw [if_neg hempty]
    exact ⟨_, _, rfl⟩

/-- `bmap` keeps enough free blocks for what is needed. -/
theorem Volume.Room.grows (h : s.Room ip off n) (hg : Grows ip bn s s') (hbn : bn < maxFile)
    (hneed : ∀ i, Needs bn i → NeededFor off n i) : s'.Room ip off n := by
  refine hg.keeps (P := fun t => t.Room ip off n) ?_ h
  intro t t' i b hok hi hadd ht
  have hle : i ≤ maxFile := by
    rcases hi with rfl | ⟨rfl, -⟩
    · exact hbn.le
    · exact le_rfl
  exact ht.adds hok hadd hle (hneed i hi)

theorem Volume.Room.bmap (h : s.Room ip off n) (hs : s.Ok ip) (hbn : bn < maxFile)
    (hneed : ∀ i, Needs bn i → NeededFor off n i) : ∃ s' a, bmap s ip bn = some (s', a) := by
  simp only [Disk.bmap]
  by_cases hdirect : bn < ndirect
  · rw [if_pos hdirect]
    exact h.addrOf (.inl ⟨hdirect, rfl⟩) (hneed bn (.inl rfl))
  · have htable : Needs bn maxFile := .inr ⟨rfl, by omega⟩
    obtain ⟨s₁, t, ht⟩ := h.addrOf (.inr ⟨rfl, rfl⟩) (hneed maxFile htable)
    rw [if_neg hdirect, if_pos (by rw [maxFile] at hbn; omega), ht]
    obtain ⟨hgrows, rfl, hne⟩ := Grows.of_spec hs htable le_rfl (addrOf_spec hs (.inr ⟨rfl, rfl⟩) ht)
    exact (h.grows hgrows hbn hneed).entryOf (by omega) hbn hne (hneed bn (.inl rfl))

/-- With enough free blocks the bytes are written. -/
theorem Volume.Room.putBytes (h : s.Room ip off n) (hs : s.Ok ip) (hm : j + m ≤ n) (hmax : off + n ≤ maxFile * bsize) :
    ∃ s', putBytes ip w (off + j) m s = some s' := by
  induction m generalizing j s with
  | zero => exact ⟨s, rfl⟩
  | succ m ih =>
    have hbn : (off + j) / bsize < maxFile := by
      rw [bsize_eq] at hmax ⊢
      omega
    have hneed (i : ℕ) (hi : Needs ((off + j) / bsize) i) : NeededFor off n i := ⟨j, by omega, hi⟩
    obtain ⟨s₁, b, hb⟩ := h.bmap hs hbn hneed
    obtain ⟨hgrows, rfl, hne⟩ := bmap_spec hs hbn hb
    have htable := (hgrows.ok hs).ne_table hbn hne
    obtain ⟨s', hs'⟩ := ih (j := j + 1) ((h.grows hgrows hbn hneed).copy htable) ((hgrows.ok hs).copy htable) (by omega)
    refine ⟨s', ?_⟩
    simp only [Disk.putBytes, putByte]
    rw [hb]
    exact hs'

end SdeSystems.Disk
