import SdeSystems.Disk.Space

/-!
# One write

`writei` writes the bytes one after the other and then makes the file longer, if it was shorter
(`writei_eq`). A new size and a new inode on the disk do not matter for the bytes that are written, so a
write may be cut into two, the second one after the file has the size that the first one gives it
(`writeAll_add`).
-/

namespace SdeSystems.Disk

open Lib Function

/-- The file is `e` bytes long if it was shorter. -/
def Volume.extend (s : Volume) (ip e : ℕ) : Volume :=
  if (s.inodes ip).size < e then iupdate { s with inodes := update s.inodes ip { s.inodes ip with size := e } } ip else s

/-- `n` bytes from `off` on, and the size. -/
def writeAll (ip : ℕ) (w : ℕ → UInt8) (off n : ℕ) (s : Volume) : Option Volume :=
  (putBytes ip w off n s).map fun s' => s'.extend ip (off + n)

/-- Another size, and other inodes on the disk. -/
def Volume.resize (s : Volume) (ip z : ℕ) (d : ℕ → Inode) : Volume :=
  { s with inodes := update s.inodes ip { s.inodes ip with size := z }, dinodes := d }

/-- What a write of `n` bytes from `off` on does to a file. -/
structure Written (s s' : Volume) (ip off n : ℕ) (w : ℕ → UInt8) : Prop where
  /-- The file is in order. -/
  ok : s'.Ok ip
  /-- What kind of file it is. -/
  dev : (s'.inodes ip).dev = (s.inodes ip).dev
  /-- The size. -/
  size : (s'.inodes ip).size = max (s.inodes ip).size (off + n)
  /-- The contents. -/
  bytes : ∀ x < (s'.inodes ip).size, s'.byte ip x = if off ≤ x ∧ x < off + n then w x else s.byte ip x
  /-- The other inodes. -/
  others : ∀ q ≠ ip, s'.inodes q = s.inodes q
  /-- The blocks in use that are not the file's. -/
  frame : ∀ b, s.used b = true → (∀ i ≤ maxFile, s.slot ip i ≠ b) →
    s'.used b = true ∧ (∀ i ≤ maxFile, s'.slot ip i ≠ b) ∧ s'.data b = s.data b

variable {s s' : Volume} {ip off n m i x t bn z e tot base fuel : ℕ} {src w w' : ℕ → UInt8} {d : ℕ → Inode} {c : UInt8}

/-! ### The loop of `writei` -/

/-- A block cannot be found for the first byte. -/
theorem putBytes_none (hb : bmap s ip (off / bsize) = none) (hm : 0 < m) : putBytes ip w off m s = none := by
  obtain ⟨m, rfl⟩ := Nat.exists_eq_succ_of_ne_zero hm.ne'
  simp only [putBytes, putByte]
  rw [hb]
  rfl

/-- The loop writes the bytes one after the other. -/
theorem writeBlocks_eq (hs : s.Ok ip) (htot : tot ≤ n) (hfuel : n - tot < fuel) (hmax : base + n ≤ maxFile * bsize) :
    writeBlocks ip src n fuel tot (base + tot) s =
      (putBytes ip (fun x => src (x - base)) (base + tot) (n - tot) s).map fun s' => (s', base + n) := by
  induction fuel generalizing tot s with
  | zero => omega
  | succ fuel ih =>
    simp only [writeBlocks]
    by_cases hlt : tot < n
    · have hi : (base + tot) / bsize < maxFile := by
        rw [bsize_eq] at hmax ⊢
        omega
      obtain ⟨m, hm⟩ : ∃ m, m = min (n - tot) (bsize - (base + tot) % bsize) := ⟨_, rfl⟩
      have hpos : 0 < m := by
        rw [bsize_eq] at hm
        omega
      have hfit : (base + tot) % bsize + m ≤ bsize := by
        rw [bsize_eq] at hm ⊢
        omega
      have hsplit : n - tot = m + (n - (tot + m)) := by omega
      rw [if_pos hlt, hsplit, putBytes_add]
      cases hb : bmap s ip ((base + tot) / bsize) with
      | none =>
        rw [putBytes_none hb hpos]
        rfl
      | some p =>
        obtain ⟨s₁, b⟩ := p
        obtain ⟨hgrows, rfl, hne⟩ := bmap_spec hs hi hb
        have hs₁ := hgrows.ok hs
        rw [putBytes_bmap hs hi hb hpos, putBytes_mapped hs₁ hi hne hfit, Option.bind_some, ← hsplit]
        dsimp only
        rw [← hm, Nat.add_assoc, ← ih (hs₁.copy (hs₁.ne_table hi hne)) (by omega) (by omega)]
        congr 2
        funext x
        congr 1
        omega
    · obtain rfl : tot = n := by omega
      rw [if_neg hlt, Nat.sub_self]
      rfl

/-- `writei` on a file, where the bytes are within `MAXFILE` blocks. -/
theorem writei_eq (hs : s.Ok ip) (hdev : (s.inodes ip).dev = none) (hoff : off ≤ (s.inodes ip).size)
    (hmax : off + n ≤ maxFile * bsize) :
    writei s ip src off n = (writeAll ip (fun x => src (x - off)) off n s).map fun s' => (s', (n : ℤ)) := by
  have hword : ¬ ((s.inodes ip).size < off ∨ 2 ^ 32 ≤ off + n) := by
    rw [maxFile_eq, bsize_eq] at hmax
    omega
  have hloop : writeBlocks ip src n (n + 1) 0 (off + 0) s = _ := writeBlocks_eq hs (Nat.zero_le n) (by omega) hmax
  simp only [Nat.add_zero, Nat.sub_zero] at hloop
  simp only [writei, writeAll]
  rw [hdev]
  dsimp only
  rw [if_neg hword, if_neg (Nat.not_lt.mpr hmax), hloop]
  cases hput : putBytes ip (fun x => src (x - off)) off n s with
  | none => rfl
  | some s' =>
    have hsize := (putBytes_wrote hs hmax hput).size
    rw [Option.map_some, Option.map_some, Option.map_some]
    dsimp only
    simp only [Volume.extend]
    by_cases hlong : (s'.inodes ip).size < off + n
    · rw [if_pos hlong, if_pos ⟨by omega, hlong⟩]
    · rw [if_neg hlong, if_neg fun h => hlong h.2]

/-- Bytes beyond `MAXFILE` blocks are refused. -/
theorem writei_refused (hdev : (s.inodes ip).dev = none) (hmax : maxFile * bsize < off + n) :
    writei s ip src off n = some (s, -1) := by
  simp only [writei]
  rw [hdev]
  dsimp only
  rw [if_pos hmax]
  exact ite_self _

/-! ### The size does not matter -/

theorem resize_self : (s.resize ip z d).inodes ip = { s.inodes ip with size := z } := update_self ..

theorem resize_balloc : balloc (s.resize ip z d) = (balloc s).map fun p => (p.1.resize ip z d, p.2) := by
  simp only [balloc]
  simp only [Volume.resize]
  split
  · rfl
  · rfl

theorem resize_addrOf : addrOf (s.resize ip z d) ip i = (addrOf s ip i).map fun p => (p.1.resize ip z d, p.2) := by
  have haddrs : ((s.resize ip z d).inodes ip).addrs = (s.inodes ip).addrs := by rw [resize_self]
  simp only [addrOf]
  rw [haddrs, resize_balloc]
  split
  · cases balloc s with
    | none => rfl
    | some p => simp only [Option.map_some, Volume.resize, update_self, update_idem]
  · rfl

theorem resize_entryOf : entryOf (s.resize ip z d) t i = (entryOf s t i).map fun p => (p.1.resize ip z d, p.2) := by
  have hdata : (s.resize ip z d).data = s.data := rfl
  simp only [entryOf]
  rw [hdata, resize_balloc]
  by_cases hempty : (s.data t).load (4 * i) = 0
  · rw [if_pos hempty, if_pos hempty]
    cases balloc s with
    | none => rfl
    | some p => rfl
  · rw [if_neg hempty, if_neg hempty]
    rfl

theorem resize_bmap : bmap (s.resize ip z d) ip bn = (bmap s ip bn).map fun p => (p.1.resize ip z d, p.2) := by
  simp only [bmap]
  split
  · exact resize_addrOf
  · split
    · rw [resize_addrOf]
      cases addrOf s ip ndirect with
      | none => rfl
      | some p => exact resize_entryOf
    · rfl

theorem resize_putByte : putByte ip x c (s.resize ip z d) = (putByte ip x c s).map fun t => t.resize ip z d := by
  simp only [putByte]
  rw [resize_bmap, Option.map_map, Option.map_map]
  rfl

/-- The bytes are written in the same way. -/
theorem resize_putBytes :
    putBytes ip w off n (s.resize ip z d) = (putBytes ip w off n s).map fun t => t.resize ip z d := by
  induction n generalizing off s with
  | zero => rfl
  | succ n ih =>
    simp only [putBytes]
    rw [resize_putByte]
    cases putByte ip off (w off) s with
    | none => rfl
    | some t =>
      rw [Option.map_some, Option.bind_some, Option.bind_some]
      exact ih

/-! ### A write that is cut into two -/

theorem extend_of_lt (h : (s.inodes ip).size < e) :
    s.extend ip e = s.resize ip e (update s.dinodes ip { s.inodes ip with size := e }) := by
  simp only [Volume.extend, Volume.resize]
  rw [if_pos h]
  unfold iupdate
  dsimp only
  rw [update_self]

theorem extend_of_le (h : e ≤ (s.inodes ip).size) : s.extend ip e = s := if_neg (Nat.not_lt.mpr h)

/-- The inode that is written to the disk last is the one that stays. -/
theorem resize_extend {node : Inode} (hsize : (s.inodes ip).size < e) (hz : z < e) :
    (s.resize ip z (update s.dinodes ip node)).extend ip e = s.extend ip e := by
  rw [extend_of_lt (by rwa [resize_self]), extend_of_lt hsize, resize_self]
  simp only [Volume.resize, update_self, update_idem]

/-- Bytes that are written after the file was made longer, up to its end or beyond. -/
theorem extend_writeAll (hs : s.Ok ip) (hmax : e + n ≤ maxFile * bsize) :
    writeAll ip w e n (s.extend ip e) = writeAll ip w e n s := by
  rcases Nat.lt_or_ge (s.inodes ip).size e with hlt | hge
  · simp only [writeAll]
    rw [extend_of_lt hlt, resize_putBytes, Option.map_map]
    rcases Nat.eq_zero_or_pos n with rfl | hpos
    · simp only [putBytes, Option.map_some, Function.comp_apply, Nat.add_zero]
      rw [extend_of_lt hlt, extend_of_le (by rw [resize_self])]
    · cases hput : putBytes ip w e n s with
      | none => rfl
      | some s' =>
        have hwrote := putBytes_wrote hs hmax hput
        have hsize := hwrote.size
        rw [Option.map_some, Option.map_some, Function.comp_apply, ← hwrote.dinodes,
          resize_extend (by omega) (by omega)]
  · rw [extend_of_le hge]

theorem writeAll_add {a b : ℕ} (hs : s.Ok ip) (hmax : off + (a + b) ≤ maxFile * bsize) :
    writeAll ip w off (a + b) s = (writeAll ip w off a s).bind (writeAll ip w (off + a) b) := by
  unfold writeAll
  rw [putBytes_add]
  cases hput : putBytes ip w off a s with
  | none => rfl
  | some s₁ =>
    have hrest := extend_writeAll (w := w) (e := off + a) (n := b) (putBytes_wrote hs (by omega) hput).ok (by omega)
    rw [Option.bind_some, Option.map_some, Option.bind_some]
    simp only [writeAll] at hrest
    rw [hrest, Nat.add_assoc]

/-! ### What a write does -/

theorem extend_inode : (s.extend ip e).inodes ip = { s.inodes ip with size := max (s.inodes ip).size e } := by
  rcases Nat.lt_or_ge (s.inodes ip).size e with hlt | hge
  · rw [extend_of_lt hlt, resize_self, max_eq_right hlt.le]
  · rw [extend_of_le hge, max_eq_left hge]

theorem extend_others {q : ℕ} (hq : q ≠ ip) : (s.extend ip e).inodes q = s.inodes q := by
  rcases Nat.lt_or_ge (s.inodes ip).size e with hlt | hge
  · rw [extend_of_lt hlt]
    exact update_of_ne hq ..
  · rw [extend_of_le hge]

theorem extend_blocks : (s.extend ip e).blocks = s.blocks ∧ (s.extend ip e).used = s.used ∧ (s.extend ip e).data = s.data := by
  rcases Nat.lt_or_ge (s.inodes ip).size e with hlt | hge
  · rw [extend_of_lt hlt]
    exact ⟨rfl, rfl, rfl⟩
  · rw [extend_of_le hge]
    exact ⟨rfl, rfl, rfl⟩

theorem extend_slot : (s.extend ip e).slot ip i = s.slot ip i := by
  simp only [Volume.slot]
  rw [extend_inode, extend_blocks.2.2]

theorem extend_byte : (s.extend ip e).byte ip x = s.byte ip x := by
  simp only [Volume.byte]
  rw [extend_slot, extend_blocks.2.2]

/-- The file is in order with a new size, if there are blocks for it. -/
theorem Volume.Ok.extend (hs : s.Ok ip) (hfilled : ∀ i, (s.inodes ip).size ≤ bsize * i → bsize * i < e → s.slot ip i ≠ 0)
    (hmax : e ≤ maxFile * bsize) : (s.extend ip e).Ok ip where
  blocks := by
    rw [extend_blocks.1]
    exact hs.blocks
  boot := by
    rw [extend_blocks.2.1]
    exact hs.boot
  used j hj := by
    rw [extend_slot, extend_blocks.2.1]
    exact hs.used j hj
  apart j hj k hk := by
    rw [extend_slot, extend_slot]
    exact hs.apart j hj k hk
  filled j hj := by
    rw [extend_inode] at hj
    rw [extend_slot]
    rcases Nat.lt_or_ge (bsize * j) (s.inodes ip).size with hlt | hge
    · exact hs.filled j hlt
    · exact hfilled j hge ((lt_max_iff.mp hj).resolve_left hge.not_gt)
  size := by
    rw [extend_inode]
    exact max_le hs.size hmax

theorem writeAll_written (hs : s.Ok ip) (hoff : off ≤ (s.inodes ip).size) (hmax : off + n ≤ maxFile * bsize)
    (h : writeAll ip w off n s = some s') : Written s s' ip off n w := by
  obtain ⟨s₁, hput, rfl⟩ := Option.map_eq_some_iff.mp h
  have hwrote := putBytes_wrote hs hmax hput
  have hsize := hwrote.size
  refine ⟨hwrote.ok.extend ?_ hmax, ?_, ?_, ?_, ?_, ?_⟩
  · -- the first byte of the block is one of the bytes written
    intro i hi hi'
    have hdiv : bsize * i / bsize = i := by
      rw [bsize_eq]
      omega
    have hmapped := hwrote.mapped (bsize * i) (by omega) hi'
    rwa [hdiv] at hmapped
  · rw [extend_inode]
    exact hwrote.dev
  · rw [extend_inode]
    dsimp only
    rw [hsize]
  · intro x hx
    rw [extend_inode] at hx
    dsimp only at hx
    rw [extend_byte]
    split
    · rename_i hin
      exact hwrote.written x hin.1 hin.2
    · rename_i hout
      have hlt : x < (s.inodes ip).size := by omega
      have hfull := hs.size
      refine hwrote.kept x (by omega) (hs.filled _ ?_) hout
      rw [bsize_eq]
      omega
  · intro q hq
    rw [extend_others hq]
    exact hwrote.others q hq
  · intro b hb hnot
    obtain ⟨hused, hnot', hdata⟩ := hwrote.frame b hb hnot
    rw [extend_blocks.2.1, extend_blocks.2.2]
    refine ⟨hused, ?_, hdata⟩
    intro i hi
    rw [extend_slot]
    exact hnot' i hi

/-- With enough free blocks the bytes are written. -/
theorem Volume.Room.writeAll (h : s.Room ip off n) (hs : s.Ok ip) (hmax : off + n ≤ maxFile * bsize) :
    ∃ s', writeAll ip w off n s = some s' := by
  obtain ⟨s₁, hput⟩ := h.putBytes (w := w) (j := 0) hs (Nat.zero_add n).le hmax
  rw [Nat.add_zero] at hput
  simp only [Disk.writeAll]
  rw [hput]
  exact ⟨_, rfl⟩

end SdeSystems.Disk
