import Mathlib.Logic.Function.Basic
import Mathlib.Data.Nat.Notation
import Mathlib.Data.Int.Notation
import Mathlib.Algebra.Group.Nat.Defs
import Mathlib.Algebra.Group.Int.Defs

/-!
# Files

What the mappings use of `file.c` and `fs.c`: the reference counts of open files, `readi` and
`writei`, and `write_to_file` of `wmap.c`. Disk space does not run out. As in the rest of the
kernel, a function has no result where the kernel panics.
-/

namespace SdeSystems.Wmap

open Function

/-- `struct file`. -/
structure File where
  /-- `ref`. -/
  ref : ℕ
  /-- `ip`, which may be 0. -/
  ip : Option ℕ

/-- An inode. -/
inductive Inode
  /-- `T_FILE` or `T_DIR`: the size and the bytes. -/
  | regular (size : ℕ) (bytes : ℕ → UInt8)
  /-- `T_DEV`: what the reads to come return, -1 or some bytes, and whether writes succeed. -/
  | device (reads : List (Option (List UInt8))) (writes : Bool)

/-- The open files and the inodes. -/
structure Fs where
  /-- `ftable.file`. -/
  files : ℕ → File
  /-- The inodes. -/
  inodes : ℕ → Inode

/-- `filedup(f)`. -/
def filedup (fs : Fs) (f : ℕ) : Option Fs :=
  if (fs.files f).ref < 1 then none
  else some { fs with files := update fs.files f { fs.files f with ref := (fs.files f).ref + 1 } }

/-- `fileclose(f)`. -/
def fileclose (fs : Fs) (f : ℕ) : Option Fs :=
  if (fs.files f).ref < 1 then none
  else some { fs with files := update fs.files f { fs.files f with ref := (fs.files f).ref - 1 } }

/-- `readi(ip, dst, off, n)`: the bytes that are read, or -1. A device whose reads are at an end
never returns. -/
def readi (ip : Inode) (off n : ℕ) : Option (Inode × Option (List UInt8)) :=
  match ip with
  | .device [] _ => none
  | .device (r :: reads) w => some (.device reads w, r.map fun bytes => bytes.take n)
  | .regular size bytes =>
    if size < off ∨ 2 ^ 32 ≤ off + n then some (ip, none)
    else some (ip, some ((List.range (min n (size - off))).map fun i => bytes (off + i)))

/-- `MAXFILE * BSIZE`. -/
def maxFileSize : ℕ := 140 * 512

/-- `writei(ip, src, off, n)`: the inode afterwards, and the number of bytes written or -1. -/
def writei (ip : Inode) (src : ℕ → UInt8) (off n : ℕ) : Inode × ℤ :=
  match ip with
  | .device _ true => (ip, n)
  | .device _ false => (ip, -1)
  | .regular size bytes =>
    if size < off ∨ 2 ^ 32 ≤ off + n then (ip, -1)
    else if maxFileSize < off + n then (ip, -1)
    else
      (.regular (if 0 < n ∧ size < off + n then off + n else size) fun x =>
        if off ≤ x ∧ x < off + n then src (x - off) else bytes x, n)

/-- The loop of `write_to_file` from `i` on, `offset` being where the next bytes go in the file. -/
def writeLoop (src : ℕ → UInt8) (n : ℕ) : ℕ → ℕ → ℕ → Inode → Option (Inode × ℤ)
  | 0, i, _, ip => some (ip, if i = n then n else -1)
  | fuel + 1, i, offset, ip =>
    if i < n then
      let n₁ := min (n - i) 1536
      let (ip', r) := writei ip (fun x => src (i + x)) offset n₁
      if r < 0 then some (ip', -1)
      else if r ≠ n₁ then none
      else writeLoop src n fuel (i + r.toNat) ((offset + r.toNat) % 2 ^ 32) ip'
    else some (ip, if i = n then n else -1)

/-- `write_to_file(f, va, offset, n_bytes)`, `src` being the bytes at `va`. -/
def writeToFile (fs : Fs) (f : ℕ) (src : ℕ → UInt8) (offset n : ℕ) : Option (Fs × ℤ) :=
  match (fs.files f).ip with
  | none => none
  | some ip =>
    (writeLoop src n n 0 offset (fs.inodes ip)).map fun (inode, r) =>
      ({ fs with inodes := update fs.inodes ip inode }, r)

end SdeSystems.Wmap
