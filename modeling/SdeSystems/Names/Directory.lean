import SdeSystems.Wmap.Files
import Mathlib.Data.List.Basic
import Mathlib.Order.Basic

/-!
# Directories

A directory is a file of entries of 16 bytes, a number of an inode and a name of at most 14 characters
(`dirlookup`, `dirlink` and `namecmp` of `fs.c`, `strncmp` and `strncpy` of `string.c`, and what `sysfile.c` does
to an entry that it unlinks). The bytes are read and written by `readi` and `writei`. There is no result where the
kernel panics.
-/

namespace SdeSystems.Names

open Function

/-- `DIRSIZ`. -/
def dirSiz : ℕ := 14

/-- A place in memory: the bytes from there on. -/
abbrev Chars := ℕ → UInt8

/-! ### `string.c` -/

/-- The loop of `strncmp(p, q, n)`, at the character `i`. -/
def strncmpFrom (p q : Chars) : ℕ → ℕ → ℤ
  | 0, _ => 0
  | n + 1, i => if p i ≠ 0 ∧ p i = q i then strncmpFrom p q n (i + 1) else (p i).toNat - (q i).toNat

/-- `strncmp(p, q, n)`. -/
def strncmp (p q : Chars) (n : ℕ) : ℤ := strncmpFrom p q n 0

/-- The second loop of `strncpy`. -/
def padFrom (s : Chars) : ℕ → ℕ → Chars
  | 0, _ => s
  | n + 1, i => padFrom (update s i 0) n (i + 1)

/-- The first loop of `strncpy(s, t, n)`, at the character `i`. -/
def strncpyFrom (s t : Chars) : ℕ → ℕ → Chars
  | 0, _ => s
  | n + 1, i => if t i ≠ 0 then strncpyFrom (update s i (t i)) t n (i + 1) else padFrom (update s i (t i)) n (i + 1)

/-- `strncpy(s, t, n)`: the bytes at `s` afterwards. -/
def strncpy (s t : Chars) (n : ℕ) : Chars := strncpyFrom s t n 0

/-- `namecmp(s, t)`. -/
def namecmp (s t : Chars) : ℤ := strncmp s t dirSiz

/-! ### Entries -/

/-- `struct dirent`. -/
structure Dirent where
  /-- `inum`, a `ushort`. -/
  inum : ℕ
  /-- `name`, of which 14 characters count. -/
  name : Chars

/-- The 16 bytes of an entry. -/
def Dirent.bytes (de : Dirent) : Chars
  | 0 => UInt8.ofNat de.inum
  | 1 => UInt8.ofNat (de.inum / 2 ^ 8)
  | i + 2 => de.name i

/-- `sizeof(struct dirent)`. -/
def direntSize : ℕ := 16

/-- `dp->size`. -/
def dirSize : Wmap.Inode → ℕ
  | .regular size _ => size
  | .device _ _ => 0

/-- `readi(dp, &de, off, sizeof(de)) != sizeof(de)` panics. -/
def readDirent (dp : Wmap.Inode) (off : ℕ) : Option Dirent :=
  match Wmap.readi dp off direntSize with
  | some (_, some bytes) =>
    if bytes.length = direntSize then
      some ⟨(bytes.getD 0 0).toNat + 2 ^ 8 * (bytes.getD 1 0).toNat, fun i => bytes.getD (i + 2) 0⟩
    else none
  | _ => none

/-- The loop of `dirlookup(dp, name, &off)` from `off` on: the number of the inode, and where the entry is. -/
def dirlookupFrom (dp : Wmap.Inode) (name : Chars) : ℕ → ℕ → Option (Option (ℕ × ℕ))
  | 0, _ => none
  | fuel + 1, off =>
    if off < dirSize dp then
      match readDirent dp off with
      | none => none
      | some de =>
        if de.inum = 0 then dirlookupFrom dp name fuel (off + direntSize)
        else if namecmp name de.name = 0 then some (some (de.inum, off))
        else dirlookupFrom dp name fuel (off + direntSize)
    else some none

/-- `dirlookup(dp, name, &off)`, `dp` being a directory. -/
def dirlookup (dp : Wmap.Inode) (name : Chars) : Option (Option (ℕ × ℕ)) := dirlookupFrom dp name (dirSize dp + 1) 0

/-- The loop of `dirlink` that looks for an empty entry. -/
def emptyFrom (dp : Wmap.Inode) : ℕ → ℕ → Option ℕ
  | 0, _ => none
  | fuel + 1, off =>
    if off < dirSize dp then
      match readDirent dp off with
      | none => none
      | some de => if de.inum = 0 then some off else emptyFrom dp fuel (off + direntSize)
    else some off

/-- `dirlink(dp, name, inum)`; `old` is what `de.name` has had. -/
def dirlink (dp : Wmap.Inode) (name : Chars) (inum : ℕ) (old : Chars) : Option (Wmap.Inode × ℤ) :=
  match dirlookup dp name with
  | none => none
  | some (some _) => some (dp, -1)
  | some none =>
    match emptyFrom dp (dirSize dp + 1) 0 with
    | none => none
    | some off =>
      let de : Dirent := ⟨inum % 2 ^ 16, strncpy old name dirSiz⟩
      let (dp', r) := Wmap.writei dp de.bytes off direntSize
      if r ≠ direntSize then none else some (dp', 0)

/-- `memset(&de, 0, sizeof(de))` and the `writei` of `sys_unlink`. -/
def dirclear (dp : Wmap.Inode) (off : ℕ) : Option Wmap.Inode :=
  let (dp', r) := Wmap.writei dp (fun _ => 0) off direntSize
  if r ≠ direntSize then none else some dp'

/-- What `sys_unlink` does to the directory: -1 where the name is not there. -/
def dirunlink (dp : Wmap.Inode) (name : Chars) : Option (Wmap.Inode × ℤ) :=
  match dirlookup dp name with
  | none => none
  | some none => some (dp, -1)
  | some (some (_, off)) => (dirclear dp off).map fun dp => (dp, 0)

/-- The loop of `isdirempty(dp)`. -/
def isdiremptyFrom (dp : Wmap.Inode) : ℕ → ℕ → Option Bool
  | 0, _ => none
  | fuel + 1, off =>
    if off < dirSize dp then
      match readDirent dp off with
      | none => none
      | some de => if de.inum ≠ 0 then some false else isdiremptyFrom dp fuel (off + direntSize)
    else some true

/-- `isdirempty(dp)`: is it empty except for `.` and `..`? -/
def isdirempty (dp : Wmap.Inode) : Option Bool := isdiremptyFrom dp (dirSize dp + 1) (2 * direntSize)

/-! ### Names -/

/-- The string at `t`, at most `n` characters of it, from the character `i` on. -/
def textFrom (t : Chars) : ℕ → ℕ → List UInt8
  | 0, _ => []
  | n + 1, i => if t i = 0 then [] else t i :: textFrom t n (i + 1)

/-- The name at `t`. -/
def text (t : Chars) : List UInt8 := textFrom t dirSiz 0

variable {p q s t : Chars} {n i j k off size fuel : ℕ}

/-- `strncmp` compares the strings. -/
theorem strncmpFrom_eq_zero : strncmpFrom p q n i = 0 ↔ textFrom p n i = textFrom q n i := by
  induction n generalizing i with
  | zero => exact ⟨fun _ => rfl, fun _ => rfl⟩
  | succ n ih =>
    simp only [strncmpFrom, textFrom]
    by_cases hp : p i = 0
    · rw [if_neg fun h => h.1 hp, if_pos hp, hp]
      by_cases hq : q i = 0
      · simp [hq]
      · have hne : (q i).toNat ≠ 0 := fun h => hq (UInt8.toNat_inj.mp h)
        simp only [if_neg hq]
        constructor
        · intro h
          simp only [UInt8.toNat_zero] at h
          omega
        · intro h
          cases h
    · rw [if_neg hp]
      by_cases hpq : p i = q i
      · rw [if_pos ⟨hp, hpq⟩, if_neg (by rwa [← hpq]), ih, hpq]
        simp
      · have hne : (p i).toNat ≠ (q i).toNat := fun h => hpq (UInt8.toNat_inj.mp h)
        rw [if_neg fun h => hpq h.2]
        constructor
        · intro h
          omega
        · intro h
          split at h
          · cases h
          · exact absurd (List.cons.inj h).1 hpq

/-- `namecmp` compares names. -/
theorem namecmp_eq_zero : namecmp p q = 0 ↔ text p = text q := strncmpFrom_eq_zero

theorem padFrom_of_lt (h : j < i) : padFrom s n i j = s j := by
  induction n generalizing s i with
  | zero => rfl
  | succ n ih => rw [padFrom, ih (by omega), update_of_ne (by omega)]

theorem strncpyFrom_of_lt (h : j < i) : strncpyFrom s t n i j = s j := by
  induction n generalizing s i with
  | zero => rfl
  | succ n ih =>
    rw [strncpyFrom]
    split
    · rw [ih (by omega), update_of_ne (by omega)]
    · rw [padFrom_of_lt (by omega), update_of_ne (by omega)]

theorem textFrom_congr (h : ∀ j, i ≤ j → j < i + n → p j = q j) : textFrom p n i = textFrom q n i := by
  induction n generalizing i with
  | zero => rfl
  | succ n ih =>
    simp only [textFrom]
    rw [h i (Nat.le_refl i) (by omega), ih fun j hj hj' => h j (by omega) (by omega)]

/-- `strncpy` copies the string. -/
theorem textFrom_strncpyFrom : textFrom (strncpyFrom s t n i) n i = textFrom t n i := by
  induction n generalizing s i with
  | zero => rfl
  | succ n ih =>
    by_cases hz : t i = 0
    · have hpad : strncpyFrom s t (n + 1) i = padFrom (update s i (t i)) n (i + 1) := if_neg (not_not.mpr hz)
      have hi : padFrom (update s i (t i)) n (i + 1) i = 0 := by rw [padFrom_of_lt (Nat.lt_succ_self i), update_self, hz]
      rw [hpad]
      simp only [textFrom]
      rw [if_pos hi, if_pos hz]
    · have hcopy : strncpyFrom s t (n + 1) i = strncpyFrom (update s i (t i)) t n (i + 1) := if_pos hz
      have hi : strncpyFrom (update s i (t i)) t n (i + 1) i = t i := by
        rw [strncpyFrom_of_lt (Nat.lt_succ_self i), update_self]
      rw [hcopy]
      simp only [textFrom]
      rw [hi, if_neg hz, if_neg hz, ih]

theorem text_strncpy : text (strncpy s t dirSiz) = text t := textFrom_strncpyFrom

end SdeSystems.Names
