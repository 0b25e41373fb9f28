import SdeSystems.Disk.Mapped

/-!
# Writing byte by byte

A block that is written has as many bytes as fit, and so has a piece. What is written is the same as
with one byte after the other, each into the block that `bmap` finds for it (`putBytes`), and this can be
cut wherever one wants (`putBytes_add`). `Wrote` says what it does to the file and what it leaves.
-/

namespace SdeSystems.Disk

open Lib Function Relation

/-- One byte of the file. -/
def putByte (ip x : ℕ) (c : UInt8) (s : Volume) : Option Volume :=
  (bmap s ip (x / bsize)).map fun p => p.1.copy p.2 (x % bsize) (fun _ => c) 1

/-- `n` bytes of the file from `off` on, the byte at `x` being `w x`. -/
def putBytes (ip : ℕ) (w : ℕ → UInt8) : ℕ → ℕ → Volume → Option Volume
  | _, 0, s => some s
  | off, n + 1, s => (putByte ip off (w off) s).bind (putBytes ip w (off + 1) n)

/-- The byte of the file at `x`. -/
def Volume.byte (s : Volume) (ip x : ℕ) : UInt8 := s.data (s.slot ip (x / bsize)) (x % bsize)

variable {s s' s₁ : Volume} {ip off n m a b i x : ℕ} {w w' src : ℕ → UInt8} {c : UInt8}

/-! ### Copies into a block -/

theorem copy_zero : s.copy b i src 0 = s := by
  have hsame : (fun x => if i ≤ x ∧ x < i + 0 then src (x - i) else s.data b x) = s.data b := by
    funext x
    exact if_neg (by omega)
  simp only [Volume.copy]
  rw [hsame, update_eq_self]

theorem copy_succ : s.copy b i src (m + 1) =
    (s.copy b i (fun _ => src 0) 1).copy b (i + 1) (fun x => src (x + 1)) m := by
  simp only [Volume.copy]
  simp only [update_self, update_idem]
  congr 2
  funext x
  by_cases hx : x = i
  · subst hx
    rw [if_pos (by omega), if_neg (by omega), if_pos (by omega), Nat.sub_self]
  · by_cases hx' : i ≤ x ∧ x < i + (m + 1)
    · have hsub : x - (i + 1) + 1 = x - i := by omega
      rw [if_pos hx', if_pos (by omega), hsub]
    · rw [if_neg hx', if_neg (by omega), if_neg (by omega)]

/-- A copy into a block of data leaves the blocks of the file. -/
theorem slot_copy (hb : b ≠ s.slot ip maxFile) : (s.copy b i src m).slot ip x = s.slot ip x := by
  rw [slot_table] at hb
  unfold Volume.copy Volume.slot
  dsimp only
  rw [update_of_ne hb.symm]

/-- A block of data is not the table. -/
theorem Volume.Ok.ne_table (hs : s.Ok ip) (hi : i < maxFile) (hne : s.slot ip i ≠ 0) :
    s.slot ip i ≠ s.slot ip maxFile :=
  fun heq => absurd (hs.apart i hi.le maxFile le_rfl hne heq) hi.ne

theorem Volume.Ok.copy (hs : s.Ok ip) (hb : b ≠ s.slot ip maxFile) : (s.copy b i src m).Ok ip where
  blocks := hs.blocks
  boot := hs.boot
  used j hj := by
    rw [slot_copy hb]
    exact hs.used j hj
  apart j hj k hk := by
    rw [slot_copy hb, slot_copy hb]
    exact hs.apart j hj k hk
  filled j hj := by
    rw [slot_copy hb]
    exact hs.filled j hj
  size := hs.size

/-! ### Bytes one after the other -/

theorem putBytes_add : putBytes ip w off (n + m) s = (putBytes ip w off n s).bind (putBytes ip w (off + n) m) := by
  induction n generalizing off s with
  | zero =>
    rw [Nat.zero_add]
    rfl
  | succ n ih =>
    rw [Nat.add_right_comm]
    simp only [putBytes]
    cases putByte ip off (w off) s with
    | none => rfl
    | some s₁ =>
      rw [Option.bind_some, Option.bind_some, ih]
      congr 2
      omega

theorem putBytes_congr (h : ∀ x, off ≤ x → x < off + n → w x = w' x) :
    putBytes ip w off n s = putBytes ip w' off n s := by
  induction n generalizing off s with
  | zero => rfl
  | succ n ih =>
    simp only [putBytes]
    rw [h off le_rfl (by omega)]
    congr 1
    funext t
    exact ih fun x h₁ h₂ => h x (by omega) (by omega)

/-- The bytes of one block that is there. -/
theorem putBytes_mapped (hs : s.Ok ip) (hi : off / bsize < maxFile) (hne : s.slot ip (off / bsize) ≠ 0)
    (hm : off % bsize + m ≤ bsize) :
    putBytes ip w off m s = some (s.copy (s.slot ip (off / bsize)) (off % bsize) (fun x => w (off + x)) m) := by
  induction m generalizing off s with
  | zero => rw [copy_zero, putBytes]
  | succ m ih =>
    have htable := hs.ne_table hi hne
    simp only [putBytes, putByte]
    rw [bmap_of_slot hi hne, Option.map_some, Option.bind_some]
    have hsplit : s.copy (s.slot ip (off / bsize)) (off % bsize) (fun x => w (off + x)) (m + 1) =
        (s.copy (s.slot ip (off / bsize)) (off % bsize) (fun _ => w off) 1).copy (s.slot ip (off / bsize)) (off % bsize + 1)
          (fun x => w (off + (x + 1))) m := copy_succ
    rw [hsplit]
    dsimp only
    rcases Nat.eq_zero_or_pos m with rfl | hm'
    · rw [putBytes, copy_zero]
    · -- the next byte is in the same block
      have hdiv : (off + 1) / bsize = off / bsize := by
        rw [bsize_eq] at hm ⊢
        omega
      have hmod : (off + 1) % bsize = off % bsize + 1 := by
        rw [bsize_eq] at hm ⊢
        omega
      have hsame : (s.copy (s.slot ip (off / bsize)) (off % bsize) (fun _ => w off) 1).slot ip (off / bsize) =
          s.slot ip (off / bsize) := slot_copy htable
      rw [ih (hs.copy htable) (by rwa [hdiv]) (by rwa [hdiv, hsame]) (by omega), hdiv, hmod, hsame]
      congr 2
      funext x
      congr 1
      omega

/-- Where `bmap` has found the block of the first byte, the bytes are written as if it had been there. -/
theorem putBytes_bmap (hs : s.Ok ip) (hi : off / bsize < maxFile) (hb : bmap s ip (off / bsize) = some (s₁, b))
    (hm : 0 < m) : putBytes ip w off m s = putBytes ip w off m s₁ := by
  obtain ⟨m, rfl⟩ := Nat.exists_eq_succ_of_ne_zero hm.ne'
  obtain ⟨-, hslot, hne⟩ := bmap_spec hs hi hb
  simp only [putBytes, putByte]
  rw [hb, bmap_of_slot hi (by rwa [hslot]), hslot]

/-! ### What is written -/

/-- The bytes from `off` on, `n` of them, are those of `w`, and the rest of the file and of the disk is as before. -/
structure Wrote (s s' : Volume) (ip off n : ℕ) (w : ℕ → UInt8) : Prop where
  /-- The file is in order. -/
  ok : s'.Ok ip
  /-- The size. -/
  size : (s'.inodes ip).size = (s.inodes ip).size
  /-- What kind of file it is. -/
  dev : (s'.inodes ip).dev = (s.inodes ip).dev
  /-- The other inodes. -/
  others : ∀ q ≠ ip, s'.inodes q = s.inodes q
  /-- The inodes on the disk. -/
  dinodes : s'.dinodes = s.dinodes
  /-- The blocks of the file that were there. -/
  slot : ∀ i ≤ maxFile, s.slot ip i ≠ 0 → s'.slot ip i = s.slot ip i
  /-- The blocks in use that are not the file's are still in use, not the file's, and have the bytes they had. -/
  frame : ∀ b, s.used b = true → (∀ i ≤ maxFile, s.slot ip i ≠ b) →
    s'.used b = true ∧ (∀ i ≤ maxFile, s'.slot ip i ≠ b) ∧ s'.data b = s.data b
  /-- There is a block for each byte. -/
  mapped : ∀ x, off ≤ x → x < off + n → s'.slot ip (x / bsize) ≠ 0
  /-- The bytes. -/
  written : ∀ x, off ≤ x → x < off + n → s'.byte ip x = w x
  /-- The other bytes. -/
  kept : ∀ x < maxFile * bsize, s.slot ip (x / bsize) ≠ 0 → ¬ (off ≤ x ∧ x < off + n) → s'.byte ip x = s.byte ip x

theorem Wrote.refl (hs : s.Ok ip) : Wrote s s ip off 0 w :=
  ⟨hs, rfl, rfl, fun _ _ => rfl, rfl, fun _ _ _ => rfl, fun _ hb hnot => ⟨hb, hnot, rfl⟩, fun _ _ _ => by omega,
    fun _ _ _ => by omega, fun _ _ _ _ => rfl⟩

/-- The next bytes. -/
theorem Wrote.trans {s₂ : Volume} (h : Wrote s s₁ ip off n w) (h' : Wrote s₁ s₂ ip (off + n) m w)
    (hmax : off + n + m ≤ maxFile * bsize) : Wrote s s₂ ip off (n + m) w := by
  have hblock {x : ℕ} (hx : x < maxFile * bsize) : x / bsize ≤ maxFile := by
    rw [bsize_eq] at hx ⊢
    omega
  refine ⟨h'.ok, h'.size.trans h.size, h'.dev.trans h.dev, fun q hq => (h'.others q hq).trans (h.others q hq),
    h'.dinodes.trans h.dinodes, ?_, ?_, ?_, ?_, ?_⟩
  · intro i hi hne
    have hsame := h.slot i hi hne
    rw [h'.slot i hi (by rwa [hsame]), hsame]
  · intro b hb hnot
    obtain ⟨hb₁, hnot₁, hdata₁⟩ := h.frame b hb hnot
    obtain ⟨hb₂, hnot₂, hdata₂⟩ := h'.frame b hb₁ hnot₁
    exact ⟨hb₂, hnot₂, hdata₂.trans hdata₁⟩
  · intro x h₁ h₂
    by_cases hx : x < off + n
    · have hne := h.mapped x h₁ hx
      rwa [h'.slot _ (hblock (by omega)) hne]
    · exact h'.mapped x (by omega) (by omega)
  · intro x h₁ h₂
    by_cases hx : x < off + n
    · rw [h'.kept x (by omega) (h.mapped x h₁ hx) (by omega)]
      exact h.written x h₁ hx
    · exact h'.written x (by omega) (by omega)
  · intro x hx hne hout
    have hsame := h.slot _ (hblock hx) hne
    rw [h'.kept x hx (by rwa [hsame]) (by omega)]
    exact h.kept x hx hne (by omega)

/-- A new block has none of the bytes there were. -/
theorem Adds.wrote (h : Adds s s' ip i b) (hs : s.Ok ip) (hi : i ≤ maxFile) : Wrote s s' ip off 0 w := by
  refine ⟨h.ok hs, h.size, h.dev, h.others, h.dinodes, ?_, ?_, fun _ _ _ => by omega, fun _ _ _ => by omega, ?_⟩
  · intro j hj hne
    rw [h.slot j hj, if_neg (by rintro rfl; exact hne h.empty)]
  · intro a ha hnot
    have hab : a ≠ b := by
      rintro rfl
      rw [h.free] at ha
      cases ha
    have hnot' (j : ℕ) (hj : j ≤ maxFile) : s'.slot ip j ≠ a := by
      rw [h.slot j hj]
      split
      · exact hab.symm
      · exact hnot j hj
    refine ⟨?_, hnot', h.data a hab (hnot' maxFile le_rfl).symm⟩
    rw [h.used, update_of_ne hab]
    exact ha
  · intro x hx hne _
    have hx' : x / bsize < maxFile := by
      rw [bsize_eq] at hx ⊢
      omega
    have hsame : s'.slot ip (x / bsize) = s.slot ip (x / bsize) := by
      rw [h.slot _ hx'.le, if_neg (by rintro rfl; exact hne h.empty)]
    have htable := (h.ok hs).ne_table hx' (by rwa [hsame])
    simp only [Volume.byte]
    rw [hsame] at htable ⊢
    rw [h.data _ (hs.ne_of_free h.free hx'.le) htable]

/-- One byte is copied into its block. -/
theorem wrote_copy (hs : s.Ok ip) (hi : x / bsize < maxFile) (hne : s.slot ip (x / bsize) ≠ 0) :
    Wrote s (s.copy (s.slot ip (x / bsize)) (x % bsize) (fun _ => w x) 1) ip x 1 w := by
  have htable := hs.ne_table hi hne
  refine ⟨hs.copy htable, rfl, rfl, fun _ _ => rfl, rfl, fun _ _ _ => slot_copy htable, ?_, ?_, ?_, ?_⟩
  · intro b hb hnot
    refine ⟨hb, ?_, update_of_ne (hnot _ hi.le).symm ..⟩
    intro j hj
    rw [slot_copy htable]
    exact hnot j hj
  · intro y h₁ h₂
    obtain rfl : y = x := by omega
    rwa [slot_copy htable]
  · intro y h₁ h₂
    obtain rfl : y = x := by omega
    simp only [Volume.byte]
    rw [slot_copy htable]
    simp only [Volume.copy, update_self]
    rw [if_pos (by omega)]
  · intro y hy hy' hout
    simp only [Volume.byte]
    rw [slot_copy htable]
    simp only [Volume.copy]
    by_cases hslot : s.slot ip (y / bsize) = s.slot ip (x / bsize)
    · -- another byte of the block
      have hyb : y / bsize < maxFile := by
        rw [bsize_eq] at hy ⊢
        omega
      have hdiv := hs.apart _ hyb.le _ hi.le hy' hslot
      rw [hslot, update_self, if_neg]
      rw [bsize_eq] at hdiv ⊢
      omega
    · rw [update_of_ne hslot]

theorem putByte_wrote (hs : s.Ok ip) (hx : x < maxFile * bsize) (h : putByte ip x (w x) s = some s') :
    Wrote s s' ip x 1 w := by
  have hi : x / bsize < maxFile := by
    rw [bsize_eq] at hx ⊢
    omega
  obtain ⟨⟨s₁, b⟩, hb, rfl⟩ := Option.map_eq_some_iff.mp h
  obtain ⟨hgrows, rfl, hne⟩ := bmap_spec hs hi hb
  have hnew : Wrote s s₁ ip x 0 w := by
    refine hgrows.keeps (P := fun t => Wrote s t ip x 0 w) ?_ (.refl hs)
    intro t t' i b hok hneeds hadd ht
    have hle : i ≤ maxFile := by
      rcases hneeds with rfl | ⟨rfl, -⟩
      · exact hi.le
      · exact le_rfl
    exact ht.trans (hadd.wrote hok hle) (by omega)
  have hcopy := hnew.trans (wrote_copy hnew.ok hi hne (w := w)) (by omega)
  rwa [Nat.zero_add] at hcopy

/-- The bytes that are written one after the other. -/
theorem putBytes_wrote (hs : s.Ok ip) (hmax : off + n ≤ maxFile * bsize) (h : putBytes ip w off n s = some s') :
    Wrote s s' ip off n w := by
  induction n generalizing off s with
  | zero =>
    obtain rfl : s = s' := Option.some.inj h
    exact .refl hs
  | succ n ih =>
    obtain ⟨s₁, hfirst, hrest⟩ := Option.bind_eq_some_iff.mp h
    have hput := putByte_wrote hs (by omega) hfirst
    have hall := hput.trans (ih hput.ok (by omega) hrest) (by omega)
    rwa [Nat.add_comm 1 n] at hall

end SdeSystems.Disk
