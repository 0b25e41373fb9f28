import SdeSystems.Lib.Bytes
import SdeSystems.Lib.Journal
import Mathlib.Data.Int.Notation
import Mathlib.Logic.Function.Basic

/-!
# The log of the file system as a machine

`log.c`, with what it uses of `bio.c`: any number of processes that call `begin_op`, `log_write`
and `end_op`, the one that commits, and the recovery of `initlog`. The steps of the processes interleave
freely, and the power may fail between any two of them: what was in memory is then gone, what was on the
disk stays, and the machine boots. A block is written to the disk whole or not at all (`BSIZE` is the
size of a sector).

`log.lock` is held for a part of `begin_op`, `end_op` and `log_write` each, which is one step. The tests
at the start of `log_write` are made without it and are a step of their own. A buffer belongs to the process
that has read it, from `bread` to `brelse`; a buffer that belongs to nobody and is not dirty may be recycled
at any time. The parameters are `log.start`, `log.size`, and the number `m` of blocks that an operation logs
at most.

The callers keep to the rules that the comments of `log.c` give: only an operation changes a buffer, it calls
`log_write` before `brelse`, and it has given up its buffers at `end_op`. The blocks of the log are not theirs.
-/

namespace SdeSystems.Log

open Function Lib

/-- `MAXOPBLOCKS`. -/
def maxOpBlocks : ℕ := 10

/-- `LOGSIZE`. -/
def logSize : ℕ := maxOpBlocks * 3

/-! ### The header block -/

/-- The loop of `write_head` from `i` on: `hb->block[i] = log.lh.block[i]`. -/
def storeBlocks (m : Bytes) : ℕ → List ℕ → Bytes
  | _, [] => m
  | i, b :: lh => storeBlocks (m.store (4 + 4 * i) (BitVec.ofNat 32 b)) (i + 1) lh

/-- The header block after `write_head`. -/
def writeHead (m : Bytes) (lh : List ℕ) : Bytes := storeBlocks (m.store 0 (BitVec.ofNat 32 lh.length)) 0 lh

/-- `read_head`: the loop runs while `i < n`, and `n` is signed. -/
def readHead (m : Bytes) : List ℕ := (List.range (m.load 0).toInt.toNat).map fun i => (m.load (4 + 4 * i)).toNat

/-- The loop of `log_write` over `log.lh.block`: the block is there, or comes last. -/
def logBlock : List ℕ → ℕ → List ℕ
  | [], b => [b]
  | a :: lh, b => if a = b then a :: lh else a :: logBlock lh b

/-! ### The state -/

/-- `struct buf`, where it holds a block. -/
structure Buf where
  /-- `data`. -/
  data : Bytes
  /-- `B_DIRTY`. -/
  dirty : Bool

/-- What the process that has a buffer has done to it. -/
inductive Hold
  /-- Read it, or called `log_write` after its last change. -/
  | clean
  /-- Changed it. -/
  | modified
  /-- Called `log_write`, which has made its tests. -/
  | checked
  deriving DecidableEq

/-- Where a process is. -/
inductive Pc
  /-- In no call of the file system. -/
  | out
  /-- At the `while` of `begin_op`. -/
  | begin
  /-- In `sleep(&log, &log.lock)`. -/
  | asleep
  /-- Between `begin_op` and `end_op`, with the blocks it has logged. -/
  | inside (logged : List ℕ)
  /-- In the `commit` of `end_op`. -/
  | committing
  deriving DecidableEq

/-- Where the one that commits, or recovers, is. -/
inductive Phase
  /-- Nobody does. -/
  | idle
  /-- At `if (log.lh.n > 0)`. -/
  | commit
  /-- In `write_log`. -/
  | writeLog (tail : ℕ)
  /-- At the first `write_head`. -/
  | writeHead
  /-- In `install_trans`. -/
  | install (tail : ℕ)
  /-- At `log.lh.n = 0` and the `write_head` after it. -/
  | erase
  /-- At `log.committing = 0`. -/
  | finish
  /-- At `read_head`, in `recover_from_log`. -/
  | readHead
  deriving DecidableEq

/-- The disk and the memory of a machine with `n` processes. -/
structure State (n : ℕ) where
  /-- The blocks of the disk. -/
  disk : ℕ → Bytes
  /-- The buffers that hold a block. -/
  cache : ℕ → Option Buf
  /-- Whose the buffer of a block is: `b->lock`. -/
  holder : ℕ → Option (Fin n × Hold)
  /-- `log.lh`. -/
  lh : List ℕ
  /-- `log.outstanding`. -/
  outstanding : ℤ
  /-- `log.committing`. -/
  committing : Bool
  /-- Where `commit` is, or `recover_from_log`. -/
  phase : Phase
  /-- `initlog` has returned. -/
  up : Bool
  /-- The processes. -/
  proc : Fin n → Pc
  /-- The message of a panic. -/
  panicked : Option String

variable {n : ℕ}

/-- The machine at `recover_from_log`, with this disk. -/
def boot (n : ℕ) (disk : ℕ → Bytes) : State n where
  disk := disk
  cache := fun _ => none
  holder := fun _ => none
  lh := []
  outstanding := 0
  committing := false
  phase := .readHead
  up := false
  proc := fun _ => .out
  panicked := none

/-- What `bread` finds in a block. -/
def State.contents (s : State n) (b : ℕ) : Bytes := (s.cache b).elim (s.disk b) Buf.data

/-- The cache after `bread`. -/
def State.cached (s : State n) (b : ℕ) : ℕ → Option Buf :=
  update s.cache b (some ((s.cache b).getD ⟨s.disk b, false⟩))

/-- The buffers of two blocks are read, and the second gets the bytes of the first and is written to the disk. -/
def State.copyBlock (s : State n) (src dst : ℕ) : State n :=
  { s with
    disk := update s.disk dst (s.contents src),
    cache := update (s.cached src) dst (some ⟨s.contents src, false⟩) }

/-- `bwrite` of the block `b`, with these bytes. -/
def State.bwrite (s : State n) (b : ℕ) (data : Bytes) : State n :=
  { s with disk := update s.disk b data, cache := update s.cache b (some ⟨data, false⟩) }

/-- A wake-up. -/
def Pc.wake : Pc → Pc
  | .asleep => .begin
  | pc => pc

/-- `wakeup(&log)`. -/
def wakeup (proc : Fin n → Pc) : Fin n → Pc := fun p => (proc p).wake

/-- `begin_op` has to wait. -/
def State.mustWait (s : State n) : Prop :=
  s.committing = true ∨ logSize < s.lh.length + (s.outstanding + 1) * maxOpBlocks

/-- `log.lh.n >= LOGSIZE || log.lh.n >= log.size - 1`. -/
def State.tooBig (size : ℕ) (s : State n) : Prop :=
  logSize ≤ s.lh.length ∨ (size : ℤ) - 1 ≤ s.lh.length

/-- A block outside of the log. -/
def Home (start size b : ℕ) : Prop := (b < start ∨ start + size ≤ b) ∧ b < 2 ^ 32

/-- What happens to the blocks. -/
abbrev LogEvent (n : ℕ) := Event (Fin n) ℕ Bytes

/-! ### The steps -/

/-- A step of a process, in its calls and with its buffers. -/
inductive ProcStep (start size m : ℕ) (p : Fin n) : State n → Option (LogEvent n) → State n → Prop
  /-- `begin_op` is called. -/
  | call {s : State n} (hpc : s.proc p = .out) :
      ProcStep start size m p s none { s with proc := update s.proc p .begin }
  /-- `sleep(&log, &log.lock)`. -/
  | wait {s : State n} (hpc : s.proc p = .begin) (hw : s.mustWait) :
      ProcStep start size m p s none { s with proc := update s.proc p .asleep }
  /-- A wake-up that no `wakeup(&log)` has made. -/
  | spurious {s : State n} (hpc : s.proc p = .asleep) :
      ProcStep start size m p s none { s with proc := update s.proc p .begin }
  /-- `log.outstanding += 1`. -/
  | enter {s : State n} (hpc : s.proc p = .begin) (hw : ¬ s.mustWait) :
      ProcStep start size m p s (some (.start p))
        { s with outstanding := s.outstanding + 1, proc := update s.proc p (.inside []) }
  /-- `bread`. -/
  | bread {s : State n} (b : ℕ) (hpc : s.proc p = .out ∨ ∃ l, s.proc p = .inside l) (hb : Home start size b)
      (hfree : s.holder b = none) :
      ProcStep start size m p s none
        { s with cache := s.cached b, holder := update s.holder b (some (p, .clean)) }
  /-- The bytes of the buffer are changed. -/
  | modify {s : State n} (b : ℕ) (v : Bytes) {l : List ℕ} {h : Hold} {u : Buf} (hpc : s.proc p = .inside l)
      (hb : s.holder b = some (p, h)) (hu : s.cache b = some u) :
      ProcStep start size m p s none
        { s with cache := update s.cache b (some { u with data := v }),
                 holder := update s.holder b (some (p, .modified)) }
  /-- `log_write` is called and its tests pass. The operation logs no more than `m` blocks. -/
  | check {s : State n} (b : ℕ) {l : List ℕ} (hpc : s.proc p = .inside l) (hb : s.holder b = some (p, .modified))
      (hm : b ∈ l ∨ l.length < m) (hfit : ¬ s.tooBig size) (hop : ¬ s.outstanding < 1) :
      ProcStep start size m p s none { s with holder := update s.holder b (some (p, .checked)) }
  /-- `panic("too big a transaction")`. -/
  | tooBig {s : State n} (b : ℕ) {l : List ℕ} (hpc : s.proc p = .inside l) (hb : s.holder b = some (p, .modified))
      (hm : b ∈ l ∨ l.length < m) (hbig : s.tooBig size) :
      ProcStep start size m p s none { s with panicked := some "too big a transaction" }
  /-- `panic("log_write outside of trans")`. -/
  | outside {s : State n} (b : ℕ) {l : List ℕ} (hpc : s.proc p = .inside l)
      (hb : s.holder b = some (p, .modified)) (hm : b ∈ l ∨ l.length < m) (hfit : ¬ s.tooBig size)
      (hop : s.outstanding < 1) :
      ProcStep start size m p s none { s with panicked := some "log_write outside of trans" }
  /-- The rest of `log_write`. -/
  | logWrite {s : State n} (b : ℕ) {l : List ℕ} {u : Buf} (hpc : s.proc p = .inside l)
      (hb : s.holder b = some (p, .checked)) (hm : b ∈ l ∨ l.length < m) (hu : s.cache b = some u) :
      ProcStep start size m p s (some (.write p b u.data))
        { s with lh := logBlock s.lh b,
                 cache := update s.cache b (some { u with dirty := true }),
                 holder := update s.holder b (some (p, .clean)),
                 proc := update s.proc p (.inside (logBlock l b)) }
  /-- `brelse`. -/
  | brelse {s : State n} (b : ℕ) (hpc : s.proc p = .out ∨ ∃ l, s.proc p = .inside l)
      (hb : s.holder b = some (p, .clean)) :
      ProcStep start size m p s none { s with holder := update s.holder b none }
  /-- `panic("log.committing")`. -/
  | panic {s : State n} {l : List ℕ} (hpc : s.proc p = .inside l) (hb : ∀ b h, s.holder b ≠ some (p, h))
      (hc : s.committing = true) :
      ProcStep start size m p s none { s with panicked := some "log.committing" }
  /-- `end_op`, while others have operations: `wakeup(&log)`. -/
  | leave {s : State n} {l : List ℕ} (hpc : s.proc p = .inside l) (hb : ∀ b h, s.holder b ≠ some (p, h))
      (hc : s.committing = false) (ho : s.outstanding - 1 ≠ 0) :
      ProcStep start size m p s (some (.finish p))
        { s with outstanding := s.outstanding - 1, proc := update (wakeup s.proc) p .out }
  /-- `end_op` of the last operation: `log.committing = 1`. -/
  | last {s : State n} {l : List ℕ} (hpc : s.proc p = .inside l) (hb : ∀ b h, s.holder b ≠ some (p, h))
      (hc : s.committing = false) (ho : s.outstanding - 1 = 0) :
      ProcStep start size m p s (some (.finish p))
        { s with outstanding := s.outstanding - 1, committing := true, phase := .commit,
                 proc := update s.proc p .committing }
  /-- `log.committing = 0` and `wakeup(&log)`. -/
  | finish {s : State n} (hpc : s.proc p = .committing) (hph : s.phase = .finish) :
      ProcStep start size m p s none
        { s with committing := false, phase := .idle, proc := update (wakeup s.proc) p .out }

/-- A step of `commit` or of `recover_from_log`. -/
inductive DiskStep (start : ℕ) : State n → Option (LogEvent n) → State n → Prop
  /-- There is nothing to commit. -/
  | commitEmpty {s : State n} (hph : s.phase = .commit) (hn : ¬ 0 < s.lh.length) :
      DiskStep start s none { s with phase := .finish }
  /-- `write_log()`. -/
  | commit {s : State n} (hph : s.phase = .commit) (hn : 0 < s.lh.length) :
      DiskStep start s none { s with phase := .writeLog 0 }
  /-- One block of the cache is copied to the log. -/
  | writeLog {s : State n} {tail b : ℕ} (hph : s.phase = .writeLog tail) (hb : s.lh[tail]? = some b)
      (hfree : s.holder b = none) :
      DiskStep start s none { s.copyBlock b (start + tail + 1) with phase := .writeLog (tail + 1) }
  /-- The loop of `write_log` ends. -/
  | written {s : State n} {tail : ℕ} (hph : s.phase = .writeLog tail) (hn : ¬ tail < s.lh.length) :
      DiskStep start s none { s with phase := .writeHead }
  /-- `write_head()`: the commit. -/
  | writeHead {s : State n} (hph : s.phase = .writeHead) :
      DiskStep start s (some .commit)
        { s.bwrite start (writeHead (s.contents start) s.lh) with phase := .install 0 }
  /-- One block of the log is copied to its home. -/
  | install {s : State n} {tail b : ℕ} (hph : s.phase = .install tail) (hb : s.lh[tail]? = some b)
      (hfree : s.holder b = none) :
      DiskStep start s none { s.copyBlock (start + tail + 1) b with phase := .install (tail + 1) }
  /-- The loop of `install_trans` ends. -/
  | installed {s : State n} {tail : ℕ} (hph : s.phase = .install tail) (hn : ¬ tail < s.lh.length) :
      DiskStep start s none { s with phase := .erase }
  /-- `log.lh.n = 0` and `write_head()`; `initlog` then returns. -/
  | erase {s : State n} (hph : s.phase = .erase) :
      DiskStep start s none
        { s.bwrite start (Log.writeHead (s.contents start) []) with
          lh := [], up := true, phase := if s.up then .finish else .idle }
  /-- `read_head()`. -/
  | readHead {s : State n} (hph : s.phase = .readHead) :
      DiskStep start s none
        { s with lh := readHead (s.contents start), cache := s.cached start, phase := .install 0 }

/-- **A step of the machine.** -/
inductive Step (start size m : ℕ) : State n → Option (LogEvent n) → State n → Prop
  /-- A process. -/
  | proc {s s' : State n} {e : Option (LogEvent n)} (p : Fin n) (hup : s.up = true) (hok : s.panicked = none)
      (h : ProcStep start size m p s e s') : Step start size m s e s'
  /-- The one that commits or recovers. -/
  | disk {s s' : State n} {e : Option (LogEvent n)} (hok : s.panicked = none) (h : DiskStep start s e s') :
      Step start size m s e s'
  /-- `bget` recycles a buffer. -/
  | evict {s : State n} (b : ℕ) {u : Buf} (hu : s.cache b = some u) (hclean : u.dirty = false)
      (hfree : s.holder b = none) : Step start size m s none { s with cache := update s.cache b none }
  /-- The power fails, and the machine boots. -/
  | crash {s : State n} : Step start size m s (some .crash) (boot n s.disk)

/-- The runs from the first boot, and what happens to the blocks in them. -/
def Runs (start size m : ℕ) (disk : ℕ → Bytes) (es : List (LogEvent n)) (s : State n) : Prop :=
  Shows (Step start size m) (boot n disk) es s

end SdeSystems.Log
