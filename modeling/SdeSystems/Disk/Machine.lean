import SdeSystems.Disk.Truncate
import SdeSystems.Lib.Simulation

/-!
# The files of a disk as a machine

Any number of processes that write, read, make and throw away files, on one disk. A process has the lock of
the inode it works on; `writei`, `readi` and `itrunc` of different files run side by side, and between two
blocks of one the others may take and give back blocks. A step is one turn of a loop, with one block taken or
given back at most: the table of a file and the block in it are two steps of `bmap`. A device has no blocks,
and calls for it are not steps of this machine.
-/

namespace SdeSystems.Disk

open Lib Function

/-- What a process does, with the lock of a file. -/
inductive Task
  /-- Nothing here. -/
  | idle
  /-- It is in the loop of `writei`, and has written `tot` bytes. -/
  | write (ip : ℕ) (src : ℕ → UInt8) (off n tot : ℕ)
  /-- It is in the loop of `readi`, and has these bytes; of the `m` asked for `n` are within the file. -/
  | read (ip off m n : ℕ) (got : List UInt8)
  /-- It is in `itrunc`, which `iput` has called: at block `k` of the file, at the table for `MAXFILE`. -/
  | free (ip k : ℕ)

/-- The file whose lock it has. -/
def Task.file : Task → Option ℕ
  | .idle => none
  | .write ip .. => some ip
  | .read ip .. => some ip
  | .free ip _ => some ip

/-- A disk with `n` processes at work. -/
structure Store (n : ℕ) where
  /-- The blocks and the inodes. -/
  vol : Volume
  /-- `sb.ninodes`. -/
  ninodes : ℕ
  /-- `type` of the inodes. -/
  type : ℕ → ℕ
  /-- The processes. -/
  task : Fin n → Task
  /-- The message of a panic. -/
  panicked : Option String

/-- A call that has come to its end, with what it returns. -/
inductive Call (n : ℕ)
  /-- `writei`, of these bytes. -/
  | write (p : Fin n) (ip : ℕ) (bytes : List UInt8) (off : ℕ) (r : ℤ)
  /-- `readi`: the bytes, or -1. -/
  | read (p : Fin n) (ip off n : ℕ) (r : Option (List UInt8))
  /-- `ialloc`. -/
  | make (p : Fin n) (ip : ℕ) (dev : Option Bool)
  /-- The end of a file in `iput`. -/
  | remove (p : Fin n) (ip : ℕ)

variable {n : ℕ}

/-- Nobody has the lock of `ip`. -/
def Store.Unlocked (s : Store n) (ip : ℕ) : Prop := ∀ p, (s.task p).file ≠ some ip

instance (s : Store n) (ip : ℕ) : Decidable (s.Unlocked ip) := inferInstanceAs (Decidable (∀ _, _))

/-- The inode that `ialloc` finds. -/
def Store.freeInode (s : Store n) : Option ℕ := (List.range s.ninodes).find? fun i => decide (1 ≤ i ∧ s.type i = 0)

/-- The inode `memset` to 0, and its `type` and `major`. -/
def emptyInode (dev : Option Bool) : Inode := ⟨dev, 0, fun _ => 0⟩

/-- The first test of `writei` and `readi`. -/
def Volume.beyond (s : Volume) (ip off m : ℕ) : Prop := (s.inodes ip).size < off ∨ 2 ^ 32 ≤ off + m

/-- The first or the second test of `writei`. -/
def Volume.refuses (s : Volume) (ip off m : ℕ) : Prop := s.beyond ip off m ∨ maxFile * bsize < off + m

instance (s : Volume) (ip off m : ℕ) : Decidable (s.beyond ip off m) := inferInstanceAs (Decidable (_ ∨ _))

instance (s : Volume) (ip off m : ℕ) : Decidable (s.refuses ip off m) := inferInstanceAs (Decidable (_ ∨ _))

/-- The end of `writei`. -/
def Volume.finish (s : Volume) (ip off m : ℕ) : Volume :=
  if 0 < m ∧ (s.inodes ip).size < off + m then
    iupdate { s with inodes := update s.inodes ip { s.inodes ip with size := off + m } } ip
  else s

/-- The block `bn` is one of the table, and there is none: `bmap` takes a block for the table first. -/
def Volume.NoTable (s : Volume) (ip bn : ℕ) : Prop := ndirect ≤ bn ∧ (s.inodes ip).addrs ndirect = 0

instance (s : Volume) (ip bn : ℕ) : Decidable (s.NoTable ip bn) := inferInstanceAs (Decidable (_ ∧ _))

/-- The bytes that are copied next. -/
def chunk (off m tot : ℕ) : ℕ := min (m - tot) (bsize - (off + tot) % bsize)

/-- **A step of a process.** -/
inductive Turn (p : Fin n) : Store n → Option (Call n) → Store n → Prop
  /-- `writei` is called for a file, and refused. -/
  | refuse {s : Store n} (ip : ℕ) (src : ℕ → UInt8) (off m : ℕ) (hp : s.task p = .idle) (hlock : s.Unlocked ip)
      (htype : s.type ip ≠ 0) (hdev : (s.vol.inodes ip).dev = none) (hbad : s.vol.refuses ip off m) :
      Turn p s (some (.write p ip ((List.range m).map src) off (-1))) s
  /-- `writei` is called for a file. -/
  | write {s : Store n} (ip : ℕ) (src : ℕ → UInt8) (off m : ℕ) (hp : s.task p = .idle) (hlock : s.Unlocked ip)
      (htype : s.type ip ≠ 0) (hdev : (s.vol.inodes ip).dev = none) (hok : ¬ s.vol.refuses ip off m) :
      Turn p s none { s with task := update s.task p (.write ip src off m 0) }
  /-- `bmap` takes a block for the table. -/
  | table {s : Store n} {ip off m tot a : ℕ} {src : ℕ → UInt8} {vol : Volume}
      (hp : s.task p = .write ip src off m tot) (hlt : tot < m) (ht : s.vol.NoTable ip ((off + tot) / bsize))
      (hb : addrOf s.vol ip ndirect = some (vol, a)) : Turn p s none { s with vol := vol }
  /-- One block is written. -/
  | block {s : Store n} {ip off m tot a : ℕ} {src : ℕ → UInt8} {vol : Volume}
      (hp : s.task p = .write ip src off m tot) (hlt : tot < m) (ht : ¬ s.vol.NoTable ip ((off + tot) / bsize))
      (hb : bmap s.vol ip ((off + tot) / bsize) = some (vol, a)) :
      Turn p s none
        { s with vol := vol.copy a ((off + tot) % bsize) (fun x => src (tot + x)) (chunk off m tot),
                 task := update s.task p (.write ip src off m (tot + chunk off m tot)) }
  /-- `panic("balloc: out of blocks")`. -/
  | full {s : Store n} {ip off m tot : ℕ} {src : ℕ → UInt8} (hp : s.task p = .write ip src off m tot)
      (hlt : tot < m) (hb : s.vol.NoTable ip ((off + tot) / bsize) ∧ addrOf s.vol ip ndirect = none ∨
        ¬ s.vol.NoTable ip ((off + tot) / bsize) ∧ bmap s.vol ip ((off + tot) / bsize) = none) :
      Turn p s none { s with panicked := some "balloc: out of blocks" }
  /-- `writei` returns. -/
  | written {s : Store n} {ip off m tot : ℕ} {src : ℕ → UInt8} (hp : s.task p = .write ip src off m tot)
      (hn : ¬ tot < m) :
      Turn p s (some (.write p ip ((List.range m).map src) off m))
        { s with vol := s.vol.finish ip off m, task := update s.task p .idle }
  /-- `readi` is called for a file, and refused. -/
  | readBad {s : Store n} (ip off m : ℕ) (hp : s.task p = .idle) (hlock : s.Unlocked ip) (htype : s.type ip ≠ 0)
      (hdev : (s.vol.inodes ip).dev = none) (hbad : s.vol.beyond ip off m) :
      Turn p s (some (.read p ip off m none)) s
  /-- `readi` is called for a file. -/
  | read {s : Store n} (ip off m : ℕ) (hp : s.task p = .idle) (hlock : s.Unlocked ip) (htype : s.type ip ≠ 0)
      (hdev : (s.vol.inodes ip).dev = none) (hok : ¬ s.vol.beyond ip off m) :
      Turn p s none
        { s with task := update s.task p (.read ip off m
            (if (s.vol.inodes ip).size < off + m then (s.vol.inodes ip).size - off else m) []) }
  /-- One block is read. -/
  | copyOut {s : Store n} {ip off m l a : ℕ} {got : List UInt8} {vol : Volume} (hp : s.task p = .read ip off m l got)
      (hlt : got.length < l) (hb : bmap s.vol ip ((off + got.length) / bsize) = some (vol, a)) :
      Turn p s none
        { s with vol := vol,
                 task := update s.task p (.read ip off m l
                   (got ++ (List.range (chunk off l got.length)).map fun x =>
                     vol.data a ((off + got.length) % bsize + x))) }
  /-- `readi` returns. -/
  | got {s : Store n} {ip off m l : ℕ} {got : List UInt8} (hp : s.task p = .read ip off m l got)
      (hn : ¬ got.length < l) :
      Turn p s (some (.read p ip off m (some got))) { s with task := update s.task p .idle }
  /-- `ialloc`, and the `ilock` that reads the inode. -/
  | make {s : Store n} {ip : ℕ} (t : ℕ) (dev : Option Bool) (ht : t ≠ 0) (hp : s.task p = .idle)
      (hfree : s.freeInode = some ip) :
      Turn p s (some (.make p ip dev))
        { s with vol := { s.vol with inodes := update s.vol.inodes ip (emptyInode dev),
                                     dinodes := update s.vol.dinodes ip (emptyInode dev) },
                 type := update s.type ip t }
  /-- `panic("ialloc: no inodes")`. -/
  | noInodes {s : Store n} (hp : s.task p = .idle) (hfree : s.freeInode = none) :
      Turn p s none { s with panicked := some "ialloc: no inodes" }
  /-- `iput` of the last reference to a file without links: `itrunc` is called. -/
  | free {s : Store n} (ip : ℕ) (hp : s.task p = .idle) (hlock : s.Unlocked ip) (htype : s.type ip ≠ 0) :
      Turn p s none { s with task := update s.task p (.free ip 0) }
  /-- One of the first blocks. -/
  | freeAddr {s : Store n} {ip k : ℕ} {vol : Volume} (hp : s.task p = .free ip k) (hk : k < ndirect)
      (hb : freeAddr ip s.vol k = some vol) :
      Turn p s none { s with vol := vol, task := update s.task p (.free ip (k + 1)) }
  /-- There is no table. -/
  | noTable {s : Store n} {ip : ℕ} (hp : s.task p = .free ip ndirect) (ht : (s.vol.inodes ip).addrs ndirect = 0) :
      Turn p s none { s with task := update s.task p (.free ip (maxFile + 1)) }
  /-- A block of the table. -/
  | freeEntry {s : Store n} {ip k : ℕ} {vol : Volume} (hp : s.task p = .free ip k) (hk : ndirect ≤ k)
      (hk' : k < maxFile) (ht : (s.vol.inodes ip).addrs ndirect ≠ 0)
      (hb : freeEntry ((s.vol.inodes ip).addrs ndirect) s.vol (k - ndirect) = some vol) :
      Turn p s none { s with vol := vol, task := update s.task p (.free ip (k + 1)) }
  /-- The table. -/
  | freeTable {s : Store n} {ip : ℕ} {vol : Volume} (hp : s.task p = .free ip maxFile)
      (hb : bfree s.vol ((s.vol.inodes ip).addrs ndirect) = some vol) :
      Turn p s none { s with vol := vol.setAddr ip ndirect 0, task := update s.task p (.free ip (maxFile + 1)) }
  /-- `panic("freeing free block")`. -/
  | freeFree {s : Store n} {ip k : ℕ} (hp : s.task p = .free ip k)
      (hb : k < ndirect ∧ freeAddr ip s.vol k = none ∨
        ndirect ≤ k ∧ k < maxFile ∧ (s.vol.inodes ip).addrs ndirect ≠ 0 ∧
          freeEntry ((s.vol.inodes ip).addrs ndirect) s.vol (k - ndirect) = none ∨
        k = maxFile ∧ bfree s.vol ((s.vol.inodes ip).addrs ndirect) = none) :
      Turn p s none { s with panicked := some "freeing free block" }
  /-- `ip->size = 0` and `ip->type = 0`, on the disk too. -/
  | freed {s : Store n} {ip : ℕ} (hp : s.task p = .free ip (maxFile + 1)) :
      Turn p s (some (.remove p ip))
        { s with vol := iupdate { s.vol with inodes := update s.vol.inodes ip { s.vol.inodes ip with size := 0 } } ip,
                 type := update s.type ip 0,
                 task := update s.task p .idle }

/-- A step of the machine, which a panic stops. -/
inductive Store.Step : Store n → Option (Call n) → Store n → Prop
  /-- A process. -/
  | turn {s s' : Store n} {e : Option (Call n)} (p : Fin n) (hok : s.panicked = none) (h : Turn p s e s') : Step s e s'

end SdeSystems.Disk
