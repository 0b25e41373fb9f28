import SdeSystems.Lib.Bytes
import Mathlib.Logic.Function.Basic
import Mathlib.Data.Int.Notation
import Mathlib.Algebra.Group.Int.Defs

/-!
# Writing a file block by block

What a write to a file does to the disk: `balloc`, `bmap` and `writei` of `fs.c`, and `write_to_file` of
`wmap.c`, which calls `writei` for one piece after the other. The buffer cache and the log do not show:
a block is its bytes. A function has no result where the kernel panics, as `balloc` does where no block
is free.
-/

namespace SdeSystems.Disk

open Lib Function

/-- `BSIZE`. -/
def bsize : ℕ := 512

/-- `NDIRECT`. -/
def ndirect : ℕ := 12

/-- `NINDIRECT`: the words of a block. -/
def nindirect : ℕ := bsize / 4

/-- `MAXFILE`. -/
def maxFile : ℕ := ndirect + nindirect

/-- `((MAXOPBLOCKS - 1 - 1 - 2) / 2) * 512`, with `MAXOPBLOCKS` 10. -/
def maxPiece : ℕ := ((10 - 1 - 1 - 2) / 2) * 512

/-- What a write uses of `struct inode`. -/
structure Inode where
  /-- `type` is `T_DEV`, and whether writes to the device succeed. -/
  dev : Option Bool
  /-- `size`. -/
  size : ℕ
  /-- `addrs[NDIRECT + 1]`. -/
  addrs : ℕ → ℕ

/-- A disk, and the inodes of its files. -/
structure Volume where
  /-- `sb.size`. -/
  blocks : ℕ
  /-- The bits of the bitmap. -/
  used : ℕ → Bool
  /-- The bytes of the blocks. -/
  data : ℕ → Bytes
  /-- The inodes in memory. -/
  inodes : ℕ → Inode
  /-- The inodes on the disk. -/
  dinodes : ℕ → Inode

/-- `balloc(dev)`: the first block that is free. -/
def balloc (s : Volume) : Option (Volume × ℕ) :=
  match (List.range s.blocks).find? fun b => !s.used b with
  | none => none
  | some b => some ({ s with used := update s.used b true, data := update s.data b fun _ => 0 }, b)

/-- `if((addr = ip->addrs[i]) == 0) ip->addrs[i] = addr = balloc(ip->dev)`. -/
def addrOf (s : Volume) (ip i : ℕ) : Option (Volume × ℕ) :=
  if (s.inodes ip).addrs i = 0 then
    match balloc s with
    | none => none
    | some (s, b) =>
      some ({ s with inodes := update s.inodes ip { s.inodes ip with addrs := update (s.inodes ip).addrs i b } }, b)
  else some (s, (s.inodes ip).addrs i)

/-- `if((addr = a[i]) == 0) a[i] = addr = balloc(ip->dev)` for the words `a` of the block `t`. -/
def entryOf (s : Volume) (t i : ℕ) : Option (Volume × ℕ) :=
  if (s.data t).load (4 * i) = 0 then
    match balloc s with
    | none => none
    | some (s, b) => some ({ s with data := update s.data t ((s.data t).store (4 * i) (BitVec.ofNat 32 b)) }, b)
  else some (s, ((s.data t).load (4 * i)).toNat)

/-- `bmap(ip, bn)`. -/
def bmap (s : Volume) (ip bn : ℕ) : Option (Volume × ℕ) :=
  if bn < ndirect then addrOf s ip bn
  else if bn - ndirect < nindirect then
    match addrOf s ip ndirect with
    | none => none
    | some (s, t) => entryOf s t (bn - ndirect)
  else none

/-- `memmove(bp->data + i, src, m)`, `bp` being the buffer of the block `b`. -/
def Volume.copy (s : Volume) (b i : ℕ) (src : ℕ → UInt8) (m : ℕ) : Volume :=
  { s with data := update s.data b fun x => if i ≤ x ∧ x < i + m then src (x - i) else s.data b x }

/-- `iupdate(ip)`. -/
def iupdate (s : Volume) (ip : ℕ) : Volume := { s with dinodes := update s.dinodes ip (s.inodes ip) }

/-- The loop of `writei` from `tot` on: the disk, and `off` at the end. -/
def writeBlocks (ip : ℕ) (src : ℕ → UInt8) (n : ℕ) : ℕ → ℕ → ℕ → Volume → Option (Volume × ℕ)
  | 0, _, _, _ => none
  | fuel + 1, tot, off, s =>
    if tot < n then
      match bmap s ip (off / bsize) with
      | none => none
      | some (s, b) =>
        let m := min (n - tot) (bsize - off % bsize)
        writeBlocks ip src n fuel (tot + m) (off + m) (s.copy b (off % bsize) (fun x => src (tot + x)) m)
    else some (s, off)

/-- `writei(ip, src, off, n)`: the disk afterwards, and the number of bytes written or -1. -/
def writei (s : Volume) (ip : ℕ) (src : ℕ → UInt8) (off n : ℕ) : Option (Volume × ℤ) :=
  match (s.inodes ip).dev with
  | some true => some (s, n)
  | some false => some (s, -1)
  | none =>
    if (s.inodes ip).size < off ∨ 2 ^ 32 ≤ off + n then some (s, -1)
    else if maxFile * bsize < off + n then some (s, -1)
    else
      match writeBlocks ip src n (n + 1) 0 off s with
      | none => none
      | some (s, off) =>
        if 0 < n ∧ (s.inodes ip).size < off then
          some (iupdate { s with inodes := update s.inodes ip { s.inodes ip with size := off } } ip, n)
        else some (s, n)

/-- The loop of `write_to_file` from `i` on, `offset` being where the next bytes go in the file. -/
def writePieces (ip : ℕ) (src : ℕ → UInt8) (n : ℕ) : ℕ → ℕ → ℕ → Volume → Option (Volume × ℤ)
  | 0, _, _, _ => none
  | fuel + 1, i, offset, s =>
    if i < n then
      let n₁ := if maxPiece < n - i then maxPiece else n - i
      match writei s ip (fun x => src (i + x)) offset n₁ with
      | none => none
      | some (s, r) =>
        let offset := if 0 < r then offset + r.toNat else offset
        if r < 0 then some (s, if i = n then n else -1)
        else if r ≠ n₁ then none
        else writePieces ip src n fuel (i + r.toNat) offset s
    else some (s, if i = n then n else -1)

/-- `write_to_file(f, va, offset, n_bytes)`, `ip` being `f->ip` and `src` the bytes at `va`. -/
def writeToFile (s : Volume) (ip : ℕ) (src : ℕ → UInt8) (offset n : ℕ) : Option (Volume × ℤ) :=
  writePieces ip src n (n + 1) 0 offset s

end SdeSystems.Disk
