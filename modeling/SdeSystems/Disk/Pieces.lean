import SdeSystems.Disk.Whole

/-!
# Piece by piece

`write_to_file` writes at most 1536 bytes with one `writei`, so that the log has room for them. Each piece
starts where the one before has ended, at the end of the file or before it, so what is written is the
same as with one `writei`. Where the bytes do not fit into a file, the first piece that reaches too far is
refused and the ones before it stay.
-/

namespace SdeSystems.Disk

open Lib Function

variable {s s' : Volume} {ip off n m i c base fuel : ℕ} {src w w' : ℕ → UInt8}

theorem writeAll_congr (h : ∀ x, off ≤ x → x < off + n → w x = w' x) : writeAll ip w off n s = writeAll ip w' off n s := by
  simp only [writeAll]
  rw [putBytes_congr h]

/-- The length of a piece. -/
theorem piece_eq : (if maxPiece < n - i then maxPiece else n - i) = min (n - i) maxPiece := by
  rw [maxPiece_eq]
  split <;> omega

/-- A piece that fits. -/
theorem writePieces_step (hs : s.Ok ip) (hdev : (s.inodes ip).dev = none) (hoff : base + i ≤ (s.inodes ip).size)
    (hlt : i < n) (hm : m = min (n - i) maxPiece) (hmax : base + i + m ≤ maxFile * bsize) :
    writePieces ip src n (fuel + 1) i (base + i) s =
      (writeAll ip (fun x => src (x - base)) (base + i) m s).bind (writePieces ip src n fuel (i + m) (base + (i + m))) := by
  have hbytes : writeAll ip (fun x => src (i + (x - (base + i)))) (base + i) m s =
      writeAll ip (fun x => src (x - base)) (base + i) m s := by
    apply writeAll_congr
    intro x hx _
    have hsub : i + (x - (base + i)) = x - base := by omega
    rw [hsub]
  have hpos : 0 < m := by
    rw [maxPiece_eq] at hm
    omega
  rw [writePieces, if_pos hlt]
  dsimp only
  rw [piece_eq, ← hm, writei_eq hs hdev hoff hmax, hbytes]
  cases writeAll ip (fun x => src (x - base)) (base + i) m s with
  | none => rfl
  | some s' =>
    rw [Option.map_some, Option.bind_some]
    dsimp only
    rw [if_pos (Int.natCast_pos.mpr hpos), if_neg (Int.natCast_nonneg m).not_gt, if_neg (not_not_intro rfl),
      Int.toNat_natCast, Nat.add_assoc]

/-- A piece that is refused is the last. -/
theorem writePieces_refused (hdev : (s.inodes ip).dev = none) (hlt : i < n)
    (hmax : maxFile * bsize < base + i + min (n - i) maxPiece) :
    writePieces ip src n (fuel + 1) i (base + i) s = some (s, -1) := by
  unfold writePieces
  rw [if_pos hlt]
  dsimp only
  rw [piece_eq, writei_refused hdev hmax]
  dsimp only
  rw [if_pos (by omega), if_neg hlt.ne]

/-- Where all the bytes fit, they are written. -/
theorem writePieces_eq (hs : s.Ok ip) (hdev : (s.inodes ip).dev = none) (hoff : base + i ≤ (s.inodes ip).size)
    (hi : i ≤ n) (hfuel : n - i < fuel) (hmax : base + n ≤ maxFile * bsize) :
    writePieces ip src n fuel i (base + i) s =
      (writeAll ip (fun x => src (x - base)) (base + i) (n - i) s).map fun s' => (s', (n : ℤ)) := by
  induction fuel generalizing i s with
  | zero => omega
  | succ fuel ih =>
    rcases Nat.lt_or_eq_of_le hi with hlt | rfl
    · obtain ⟨m, hm⟩ : ∃ m, m = min (n - i) maxPiece := ⟨_, rfl⟩
      have hm' := hm
      rw [maxPiece_eq] at hm'
      have hsplit : n - i = m + (n - (i + m)) := by omega
      rw [writePieces_step hs hdev hoff hlt hm (by omega), hsplit, writeAll_add hs (by omega)]
      cases hall : writeAll ip (fun x => src (x - base)) (base + i) m s with
      | none => rfl
      | some s₁ =>
        have hwritten := writeAll_written hs hoff (by omega) hall
        have hsize := hwritten.size
        rw [Option.bind_some, Option.bind_some, ih hwritten.ok (hwritten.dev.trans hdev) (by omega) (by omega) (by omega),
          Nat.add_assoc]
    · rw [writePieces, if_neg (Nat.lt_irrefl i), if_pos rfl, Nat.sub_self]
      simp only [writeAll]
      rw [putBytes, Option.map_some, Option.map_some, Nat.add_zero, extend_of_le hoff]

/-- Where `c` pieces fit and the next one does not, the `c` pieces are written. -/
theorem writePieces_cut (hs : s.Ok ip) (hdev : (s.inodes ip).dev = none) (hoff : base + i ≤ (s.inodes ip).size)
    (hi : i + c * maxPiece < n) (hfuel : c < fuel) (hfit : base + i + c * maxPiece ≤ maxFile * bsize)
    (hmax : maxFile * bsize < base + min n (i + (c + 1) * maxPiece)) :
    writePieces ip src n fuel i (base + i) s =
      (writeAll ip (fun x => src (x - base)) (base + i) (c * maxPiece) s).map fun s' => (s', -1) := by
  obtain ⟨fuel, rfl⟩ := Nat.exists_eq_succ_of_ne_zero (Nat.ne_zero_of_lt hfuel)
  induction c generalizing i s fuel with
  | zero =>
    rw [writePieces_refused hdev (by omega) (by rw [maxPiece_eq] at *; omega), Nat.zero_mul]
    simp only [writeAll]
    rw [putBytes, Option.map_some, Option.map_some, Nat.add_zero, extend_of_le hoff]
  | succ c ih =>
    have hsplit : (c + 1) * maxPiece = maxPiece + c * maxPiece := by rw [Nat.succ_mul, Nat.add_comm]
    rw [hsplit] at hi hfit
    obtain ⟨fuel, rfl⟩ := Nat.exists_eq_succ_of_ne_zero (show fuel ≠ 0 by omega)
    have hm : maxPiece = min (n - i) maxPiece := by omega
    rw [writePieces_step hs hdev hoff (by omega) hm (by omega), hsplit, writeAll_add hs (by omega)]
    cases hall : writeAll ip (fun x => src (x - base)) (base + i) maxPiece s with
    | none => rfl
    | some s₁ =>
      have hwritten := writeAll_written hs hoff (by omega) hall
      have hsize := hwritten.size
      have hnext : i + maxPiece + (c + 1) * maxPiece = i + (c + 1 + 1) * maxPiece := by
        rw [Nat.succ_mul (c + 1)]
        omega
      rw [Option.bind_some, Option.bind_some, ih hwritten.ok (hwritten.dev.trans hdev) (by omega) (by omega)
        (by omega) (by rwa [hnext]) fuel (by omega), Nat.add_assoc]

/-! ### `write_to_file` -/

/-- There are enough free blocks if there are as many as a file has. -/
theorem Volume.Room.of_free (h : maxFile + 1 ≤ s.freeBlocks.card) : s.Room ip off n := by
  have hmissing := Finset.card_filter_le (Finset.range (maxFile + 1)) fun i => s.slot ip i = 0 ∧ NeededFor off n i
  rw [Finset.card_range] at hmissing
  exact hmissing.trans h

/-- A file without any blocks is in order. -/
theorem Volume.Ok.of_empty (hblocks : s.blocks ≤ 2 ^ 32) (hboot : s.used 0 = true)
    (hempty : ∀ i, (s.inodes ip).addrs i = 0) (hsize : (s.inodes ip).size = 0) : s.Ok ip := by
  have hslot (i : ℕ) : s.slot ip i = 0 := by
    simp only [Volume.slot]
    simp only [hempty, if_pos, ite_self]
  refine ⟨hblocks, hboot, ?_, fun i _ j _ hne => absurd (hslot i) hne, ?_, ?_⟩
  · intro i _
    rwa [hslot]
  · intro i hi
    rw [hsize] at hi
    exact absurd hi (Nat.not_lt_zero _)
  · rw [hsize]
    exact Nat.zero_le _

/-- With the bytes within `MAXFILE` blocks, `write_to_file` does what one `writei` does, and it writes all of them
where there are enough free blocks. Beyond, it returns -1 after the `c` pieces that fit, having done what one
`writei` does for these. -/
theorem writeToFile_eq_writei (hs : s.Ok ip) (hdev : (s.inodes ip).dev = none) (hoff : off ≤ (s.inodes ip).size) :
    (off + n ≤ maxFile * bsize → writeToFile s ip src off n = writei s ip src off n ∧
      (s.Room ip off n → ∃ s', writeToFile s ip src off n = some (s', (n : ℤ)) ∧
        Written s s' ip off n fun x => src (x - off))) ∧
    (maxFile * bsize < off + n → ∃ c, off + c * maxPiece ≤ maxFile * bsize ∧
      maxFile * bsize < off + min n ((c + 1) * maxPiece) ∧
      (s.Room ip off (c * maxPiece) → ∃ s', writei s ip src off (c * maxPiece) = some (s', ((c * maxPiece : ℕ) : ℤ)) ∧
        writei s' ip (fun x => src (c * maxPiece + x)) (off + c * maxPiece) (min (n - c * maxPiece) maxPiece) =
          some (s', -1) ∧
        writeToFile s ip src off n = some (s', -1) ∧ Written s s' ip off (c * maxPiece) fun x => src (x - off))) := by
  have hfull := hs.size
  constructor
  · intro hmax
    have hpieces : writePieces ip src n (n + 1) 0 (off + 0) s = _ :=
      writePieces_eq hs hdev hoff (Nat.zero_le n) (Nat.lt_succ_self n) hmax
    have hone : writei s ip src off n = _ := writei_eq hs hdev hoff hmax
    refine ⟨hpieces.trans hone.symm, ?_⟩
    intro hroom
    obtain ⟨s', hall⟩ := hroom.writeAll (w := fun x => src (x - off)) hs hmax
    refine ⟨s', hpieces.trans ?_, writeAll_written hs hoff hmax hall⟩
    rw [Nat.add_zero, Nat.sub_zero, hall, Option.map_some]
  · intro hmax
    obtain ⟨c, hc⟩ : ∃ c, c = (maxFile * bsize - off) / maxPiece := ⟨_, rfl⟩
    have hfit : off + c * maxPiece ≤ maxFile * bsize := by
      rw [maxPiece_eq] at hc ⊢
      omega
    have hnext : maxFile * bsize < off + (c + 1) * maxPiece := by
      rw [maxPiece_eq] at hc ⊢
      omega
    have hsucc : (c + 1) * maxPiece = c * maxPiece + maxPiece := Nat.succ_mul c maxPiece
    have hcut : maxFile * bsize < off + min n ((c + 1) * maxPiece) := by omega
    have hlen : c < n + 1 := by
      rw [maxPiece_eq] at hfit
      omega
    refine ⟨c, hfit, hcut, ?_⟩
    intro hroom
    obtain ⟨s', hall⟩ := hroom.writeAll (w := fun x => src (x - off)) hs hfit
    have hpieces : writePieces ip src n (n + 1) 0 (off + 0) s = _ :=
      writePieces_cut hs hdev hoff (by omega) hlen hfit (by rwa [Nat.zero_add])
    have hwritten := writeAll_written hs hoff hfit hall
    refine ⟨s', ?_, writei_refused (hwritten.dev.trans hdev) (by omega), hpieces.trans ?_, hwritten⟩
    · rw [writei_eq hs hdev hoff hfit, hall, Option.map_some]
    · rw [Nat.add_zero, hall, Option.map_some]

/-- A disk with an empty file. -/
def emptyFile : Volume where
  blocks := 200
  used b := b == 0
  data _ _ := 0
  inodes _ := ⟨none, 0, fun _ => 0⟩
  dinodes _ := ⟨none, 0, fun _ => 0⟩

/-- 2000 bytes are two pieces. Of 72000 bytes 46 pieces fit into a file. -/
theorem writeToFile_emptyFile :
    (∃ s', writeToFile emptyFile 0 (fun x => UInt8.ofNat x) 0 2000 = some (s', 2000) ∧ (s'.inodes 0).size = 2000 ∧
      s'.byte 0 1537 = 1) ∧
    ∃ s', writeToFile emptyFile 0 (fun x => UInt8.ofNat x) 0 72000 = some (s', -1) ∧ (s'.inodes 0).size = 46 * 1536 := by
  have hok : emptyFile.Ok 0 := .of_empty (by decide +kernel) rfl (fun _ => rfl) rfl
  have hfree : maxFile + 1 ≤ emptyFile.freeBlocks.card := by decide +kernel
  have hmax : maxFile * bsize = 71680 := rfl
  constructor
  · obtain ⟨hfits, -⟩ := @writeToFile_eq_writei emptyFile 0 0 2000 (fun x => UInt8.ofNat x) hok rfl le_rfl
    obtain ⟨-, hall⟩ := hfits (by omega)
    obtain ⟨s', hrun, hwritten⟩ := hall (.of_free hfree)
    have hsize : (s'.inodes 0).size = 2000 := hwritten.size
    refine ⟨s', hrun, hsize, ?_⟩
    rw [hwritten.bytes 1537 (by omega), if_pos ⟨by omega, by omega⟩]
    rfl
  · obtain ⟨-, hcut⟩ := @writeToFile_eq_writei emptyFile 0 0 72000 (fun x => UInt8.ofNat x) hok rfl le_rfl
    obtain ⟨c, hfit, hnext, hall⟩ := hcut (by omega)
    obtain ⟨s', -, -, hrun, hwritten⟩ := hall (.of_free hfree)
    obtain rfl : c = 46 := by
      rw [maxPiece_eq] at hfit hnext
      omega
    exact ⟨s', hrun, hwritten.size⟩

end SdeSystems.Disk
