import SdeSystems.Disk.Pieces
import SdeSystems.Wmap.Files

/-!
# The contents of the files

`Wmap.Inode` has the bytes of a file, the disk has blocks. Where the files are in order and no two have a
block in common, `writei` does to the blocks of a file what `Wmap.writei` does to its bytes, and to the other
files nothing (`writei_shows`). So does `write_to_file` (`writeToFile_shows`).
-/

namespace SdeSystems.Disk

open Lib Function

/-- The file `ip` has these bytes. -/
def Volume.Represents (s : Volume) (ip : ℕ) : Wmap.Inode → Prop
  | .regular size bytes => (s.inodes ip).dev = none ∧ (s.inodes ip).size = size ∧ ∀ x < size, s.byte ip x = bytes x
  | .device _ writes => (s.inodes ip).dev = some writes

/-- The disk has these files. -/
structure Volume.Shows (s : Volume) (files : Set ℕ) (inodes : ℕ → Wmap.Inode) : Prop where
  /-- Each is in order. -/
  ok : ∀ ip ∈ files, s.Ok ip
  /-- No two have a block in common. -/
  apart : ∀ ip ∈ files, ∀ q ∈ files, ip ≠ q → ∀ i ≤ maxFile, ∀ j ≤ maxFile, s.slot ip i ≠ 0 → s.slot ip i ≠ s.slot q j
  /-- Each has its bytes. -/
  bytes : ∀ ip ∈ files, s.Represents ip (inodes ip)

variable {s s' : Volume} {ip q off n i fuel fuel' : ℕ} {src w : ℕ → UInt8} {r : ℤ} {files : Set ℕ}
  {inodes : ℕ → Wmap.Inode} {node : Wmap.Inode}

/-! ### The other files -/

theorem slot_congr (hinode : s'.inodes q = s.inodes q)
    (hdata : s.slot q maxFile ≠ 0 → s'.data (s.slot q maxFile) = s.data (s.slot q maxFile)) :
    s'.slot q i = s.slot q i := by
  rw [slot_table] at hdata
  simp only [Volume.slot]
  rw [hinode]
  by_cases htable : (s.inodes q).addrs ndirect = 0
  · rw [if_pos htable, if_pos htable]
  · rw [hdata htable]

section Others

variable (h : Written s s' ip off n w) (hs : s.Shows files inodes) (hip : ip ∈ files) (hq : q ∈ files) (hne : q ≠ ip)

include h hs hip hq hne

/-- A block of another file. -/
theorem Written.other_block (hi : i ≤ maxFile) (hz : s.slot q i ≠ 0) : s'.used (s.slot q i) = true ∧
    (∀ j ≤ maxFile, s'.slot ip j ≠ s.slot q i) ∧ s'.data (s.slot q i) = s.data (s.slot q i) :=
  h.frame _ ((hs.ok q hq).used i hi) fun j hj heq => hs.apart q hq ip hip hne i hi j hj hz heq.symm

theorem Written.other_slot : s'.slot q i = s.slot q i :=
  slot_congr (h.others q hne) fun hz => (h.other_block hs hip hq hne le_rfl hz).2.2

theorem Written.other_ok : s'.Ok q := by
  have hok := hs.ok q hq
  refine ⟨h.ok.blocks, h.ok.boot, ?_, ?_, ?_, ?_⟩
  · intro i hi
    rw [h.other_slot hs hip hq hne]
    by_cases hz : s.slot q i = 0
    · rw [hz]
      exact h.ok.boot
    · exact (h.other_block hs hip hq hne hi hz).1
  · intro i hi j hj
    rw [h.other_slot hs hip hq hne, h.other_slot hs hip hq hne]
    exact hok.apart i hi j hj
  · intro i hi
    rw [h.others q hne] at hi
    rw [h.other_slot hs hip hq hne]
    exact hok.filled i hi
  · rw [h.others q hne]
    exact hok.size

/-- It has the bytes it had. -/
theorem Written.other_represents (hr : s.Represents q node) : s'.Represents q node := by
  have hinode := h.others q hne
  cases node with
  | regular size bytes =>
    obtain ⟨hdev, hsize, hbytes⟩ := hr
    refine ⟨by rwa [hinode], by rwa [hinode], ?_⟩
    intro x hx
    have hfull := (hs.ok q hq).size
    have hblock : x / bsize ≤ maxFile ∧ bsize * (x / bsize) < (s.inodes q).size := by
      rw [bsize_eq] at hfull ⊢
      omega
    have hz := (hs.ok q hq).filled _ hblock.2
    rw [← hbytes x hx]
    simp only [Volume.byte]
    rw [h.other_slot hs hip hq hne, (h.other_block hs hip hq hne hblock.1 hz).2.2]
  | device reads writes =>
    simp only [Volume.Represents] at hr ⊢
    rwa [hinode]

end Others

/-- The disk after a write to one of the files. -/
theorem Written.shows (h : Written s s' ip off n w) (hs : s.Shows files inodes) (hip : ip ∈ files)
    (hr : s'.Represents ip node) : s'.Shows files (update inodes ip node) := by
  refine ⟨?_, ?_, ?_⟩
  · intro q hq
    by_cases hne : q = ip
    · exact hne ▸ h.ok
    · exact h.other_ok hs hip hq hne
  · intro p hp q hq hpq i hi j hj hz
    by_cases hp' : p = ip
    · subst hp'
      rw [h.other_slot hs hip hq hpq.symm]
      by_cases hz' : s.slot q j = 0
      · rwa [hz']
      · exact (h.other_block hs hip hq hpq.symm hj hz').2.1 i hi
    · rw [h.other_slot hs hip hp hp'] at hz ⊢
      by_cases hq' : q = ip
      · subst hq'
        exact ((h.other_block hs hip hp hp' hi hz).2.1 j hj).symm
      · rw [h.other_slot hs hip hq hq']
        exact hs.apart p hp q hq hpq i hi j hj hz
  · intro q hq
    by_cases hne : q = ip
    · subst hne
      rwa [update_self]
    · rw [update_of_ne hne]
      exact h.other_represents hs hip hq hne (hs.bytes q hq)

/-! ### `writei` and `write_to_file` -/

theorem Volume.Shows.update_self (hs : s.Shows files inodes) (hnode : inodes ip = node) :
    s.Shows files (update inodes ip node) := by
  rwa [← hnode, update_eq_self]

/-- The bytes of a file after a write. -/
theorem Written.represents {size : ℕ} {bytes : ℕ → UInt8} (h : Written s s' ip off n fun x => src (x - off))
    (hr : s.Represents ip (.regular size bytes)) (hoff : off ≤ size) :
    s'.Represents ip (.regular (if 0 < n ∧ size < off + n then off + n else size) fun x =>
      if off ≤ x ∧ x < off + n then src (x - off) else bytes x) := by
  obtain ⟨hdev, rfl, hbytes⟩ := hr
  have hsize : (s'.inodes ip).size =
      if 0 < n ∧ (s.inodes ip).size < off + n then off + n else (s.inodes ip).size := by
    rw [h.size]
    split <;> omega
  refine ⟨h.dev.trans hdev, hsize, ?_⟩
  intro x hx
  rw [← hsize] at hx
  rw [h.bytes x hx]
  dsimp only
  split
  · rfl
  · rename_i hout
    rw [h.size] at hx
    exact hbytes x (by omega)

theorem maxFileSize_eq : Wmap.maxFileSize = maxFile * bsize := rfl

/-- `writei` does to the file what it does to its bytes. -/
theorem writei_shows (hs : s.Shows files inodes) (hip : ip ∈ files) (h : writei s ip src off n = some (s', r)) :
    s'.Shows files (update inodes ip (Wmap.writei (inodes ip) src off n).1) ∧
      r = (Wmap.writei (inodes ip) src off n).2 := by
  have hok := hs.ok ip hip
  have hr := hs.bytes ip hip
  cases hnode : inodes ip with
  | device reads writes =>
    rw [hnode] at hr
    have hdev : (s.inodes ip).dev = some writes := hr
    simp only [writei] at h
    rw [hdev] at h
    cases writes with
    | true =>
      obtain ⟨rfl, rfl⟩ := Prod.mk.inj (Option.some.inj h)
      exact ⟨hs.update_self hnode, rfl⟩
    | false =>
      obtain ⟨rfl, rfl⟩ := Prod.mk.inj (Option.some.inj h)
      exact ⟨hs.update_self hnode, rfl⟩
  | regular size bytes =>
    rw [hnode] at hr
    obtain ⟨hdev, hsize, -⟩ := id hr
    unfold Wmap.writei
    dsimp only
    by_cases hbad : size < off ∨ 2 ^ 32 ≤ off + n
    · rw [if_pos hbad]
      simp only [writei] at h
      rw [hdev, hsize] at h
      dsimp only at h
      rw [if_pos hbad] at h
      obtain ⟨rfl, rfl⟩ := Prod.mk.inj (Option.some.inj h)
      exact ⟨hs.update_self hnode, rfl⟩
    · rw [if_neg hbad, maxFileSize_eq]
      by_cases hlong : maxFile * bsize < off + n
      · rw [if_pos hlong]
        rw [writei_refused hdev hlong] at h
        obtain ⟨rfl, rfl⟩ := Prod.mk.inj (Option.some.inj h)
        exact ⟨hs.update_self hnode, rfl⟩
      · have hmax := Nat.not_lt.mp hlong
        have hoff : off ≤ size := by omega
        rw [if_neg hlong]
        rw [writei_eq hok hdev (hsize ▸ hoff) hmax] at h
        obtain ⟨s₁, hall, heq⟩ := Option.map_eq_some_iff.mp h
        obtain ⟨rfl, rfl⟩ := Prod.mk.inj heq
        have hwritten := writeAll_written hok (hsize ▸ hoff) hmax hall
        exact ⟨hwritten.shows hs hip (hwritten.represents hr hoff), rfl⟩

/-- A file stays a file. -/
theorem regular_writei {size : ℕ} {bytes : ℕ → UInt8} :
    ∃ size' bytes', (Wmap.writei (.regular size bytes) src off n).1 = .regular size' bytes' := by
  unfold Wmap.writei
  dsimp only
  split
  · exact ⟨_, _, rfl⟩
  · split
    · exact ⟨_, _, rfl⟩
    · exact ⟨_, _, rfl⟩

/-- Where a `writei` that is not refused ends is a word. -/
theorem writei_end (hs : s.Shows files inodes) (hip : ip ∈ files) {size : ℕ} {bytes : ℕ → UInt8}
    (hnode : inodes ip = .regular size bytes) (h : writei s ip src off n = some (s', r)) (hr : ¬ r < 0) :
    off + n < 2 ^ 32 := by
  have hshow := hs.bytes ip hip
  rw [hnode] at hshow
  by_contra hlong
  have hmax : maxFile * bsize < off + n := by
    rw [maxFile_eq, bsize_eq]
    omega
  rw [writei_refused hshow.1 hmax] at h
  obtain ⟨-, rfl⟩ := Prod.mk.inj (Option.some.inj h)
  exact hr (by decide)

/-- The pieces of the disk are those of the bytes. -/
theorem writePieces_shows {size : ℕ} {bytes : ℕ → UInt8} (hs : s.Shows files inodes) (hip : ip ∈ files)
    (hnode : inodes ip = .regular size bytes) (hfuel : n - i ≤ fuel')
    (h : writePieces ip src n fuel i off s = some (s', r)) :
    ∃ node, Wmap.writeLoop src n fuel' i off (inodes ip) = some (node, r) ∧ s'.Shows files (update inodes ip node) := by
  induction fuel generalizing fuel' i off s inodes size bytes with
  | zero => cases h
  | succ fuel ih =>
    rw [writePieces] at h
    by_cases hlt : i < n
    · obtain ⟨fuel', rfl⟩ := Nat.exists_eq_succ_of_ne_zero (show fuel' ≠ 0 by omega)
      obtain ⟨m, hm⟩ : ∃ m, m = min (n - i) maxPiece := ⟨_, rfl⟩
      rw [if_pos hlt] at h
      dsimp only at h
      rw [piece_eq, ← hm] at h
      cases hone : writei s ip (fun x => src (i + x)) off m with
      | none =>
        rw [hone] at h
        cases h
      | some p =>
        obtain ⟨s₁, r₁⟩ := p
        rw [hone] at h
        dsimp only at h
        obtain ⟨hs₁, hr₁⟩ := writei_shows hs hip hone
        rw [Wmap.writeLoop, if_pos hlt]
        dsimp only
        rw [← maxPiece_eq, ← hm, ← hr₁]
        by_cases hneg : r₁ < 0
        · rw [if_pos hneg, if_neg hlt.ne] at h
          obtain ⟨rfl, rfl⟩ := Prod.mk.inj (Option.some.inj h)
          rw [if_pos hneg]
          exact ⟨_, rfl, hs₁⟩
        · rw [if_neg hneg] at h ⊢
          by_cases hshort : r₁ ≠ m
          · rw [if_pos hshort] at h
            cases h
          · -- the whole piece is written, and the file goes on where it ends
            rw [if_neg hshort] at h ⊢
            have hend := writei_end hs hip hnode hone hneg
            have hoff : (if 0 < r₁ then off + r₁.toNat else off) = off + r₁.toNat := by
              split <;> omega
            obtain ⟨size', bytes', hnode'⟩ : ∃ size' bytes',
                (Wmap.writei (inodes ip) (fun x => src (i + x)) off m).1 = .regular size' bytes' := hnode ▸ regular_writei
            have hrest : n - (i + r₁.toNat) ≤ fuel' := by
              rw [maxPiece_eq] at hm
              omega
            rw [hoff] at h
            rw [Nat.mod_eq_of_lt (by omega)]
            obtain ⟨node, hloop, hs'⟩ := ih hs₁ (by rw [update_self, hnode']) hrest h
            rw [update_self] at hloop
            rw [update_idem] at hs'
            exact ⟨node, hloop, hs'⟩
    · rw [if_neg hlt] at h
      obtain ⟨rfl, rfl⟩ := Prod.mk.inj (Option.some.inj h)
      refine ⟨inodes ip, ?_, hs.update_self rfl⟩
      cases fuel' with
      | zero => rfl
      | succ fuel' => rw [Wmap.writeLoop, if_neg hlt]

/-- `write_to_file` does to the file what it does to its bytes. -/
theorem writeToFile_shows {fs : Wmap.Fs} {f size : ℕ} {bytes : ℕ → UInt8} (hs : s.Shows files fs.inodes)
    (hf : (fs.files f).ip = some ip) (hip : ip ∈ files) (hnode : fs.inodes ip = .regular size bytes)
    (h : writeToFile s ip src off n = some (s', r)) :
    ∃ fs', Wmap.writeToFile fs f src off n = some (fs', r) ∧ s'.Shows files fs'.inodes := by
  obtain ⟨node, hloop, hs'⟩ := writePieces_shows hs hip hnode (Nat.sub_le n 0) h
  refine ⟨{ fs with inodes := update fs.inodes ip node }, ?_, hs'⟩
  simp only [Wmap.writeToFile]
  rw [hf]
  dsimp only
  rw [hloop]
  rfl

end SdeSystems.Disk
