import Mathlib.Data.List.Basic
import Mathlib.Data.Nat.Notation
import Mathlib.Algebra.Group.Nat.Defs

/-!
# The cache simulator

`csim.c`: a cache of `S = 2 ^ s` sets with `E` lines each, of which only the valid bit, the tag and the
time of the last use are kept. The times are those of a global counter. What `access_data` prints
is not part of this, and `init_cache` has the memory it asks for. An array that is read past its end has
no element, and then there is no result.
-/

namespace SdeSystems.Csim

/-- `cache_line_t`. -/
structure Line where
  /-- `valid`. -/
  valid : Bool
  /-- `tag`. -/
  tag : BitVec 64
  /-- `counter`. -/
  counter : BitVec 64
  deriving DecidableEq, Repr

/-- The globals of the simulator. -/
structure Sim where
  /-- `b`. -/
  b : ℕ
  /-- `s`. -/
  s : ℕ
  /-- `cache`. -/
  cache : List (List Line)
  /-- `global_counter`. -/
  globalCounter : BitVec 64
  /-- `hit_cnt`. -/
  hitCnt : BitVec 32
  /-- `miss_cnt`. -/
  missCnt : BitVec 32
  /-- `evict_cnt`. -/
  evictCnt : BitVec 32
  deriving DecidableEq, Repr

/-- `init_cache`, after the command line has set `b`, `s` and `E`. -/
def initCache (b s E : ℕ) : Sim where
  b := b
  s := s
  cache := List.replicate ((1 : BitVec 32) <<< s).toNat (List.replicate E ⟨false, 0, 0⟩)
  globalCounter := 0
  hitCnt := 0
  missCnt := 0
  evictCnt := 0

/-- `set_index` of an address. -/
def setIndex (b s : ℕ) (addr : BitVec 64) : ℕ := ((addr >>> b) &&& ((1 : BitVec 64) <<< s - 1)).toNat

/-- `tag` of an address. -/
def tagOf (b s : ℕ) (addr : BitVec 64) : BitVec 64 := addr >>> (s + b)

/-- The loop that looks for the smallest counter, from the line `i` on. -/
def lruLoop : List Line → ℕ → ℕ → BitVec 64 → ℕ
  | [], _, lruIndex, _ => lruIndex
  | line :: lines, i, lruIndex, minCounter =>
    if line.counter < minCounter then lruLoop lines (i + 1) i line.counter
    else lruLoop lines (i + 1) lruIndex minCounter

/-- `access_data` in the set of the address: the set afterwards, and whether it was a hit, a miss or a
miss with an eviction. `now` is the counter after it has gone up. -/
def accessSet (set : List Line) (tag now : BitVec 64) : Option (List Line × Bool × Bool) :=
  match set.findIdx? fun line => line.valid && line.tag = tag with
  | some i => some (set.modify i fun line => { line with counter := now }, true, false)
  | none =>
    match set.findIdx? fun line => !line.valid with
    | some i => some (set.modify i fun _ => ⟨true, tag, now⟩, false, false)
    | none =>
      match set with
      | [] => none
      | first :: rest =>
        some (set.modify (lruLoop rest 1 0 first.counter) fun line => { line with tag := tag, counter := now },
          false, true)

/-- `access_data`. -/
def accessData (c : Sim) (addr : BitVec 64) : Option Sim :=
  match c.cache[setIndex c.b c.s addr]? with
  | none => none
  | some set =>
    (accessSet set (tagOf c.b c.s addr) (c.globalCounter + 1)).map fun (set, hit, evict) =>
      { c with
        cache := c.cache.set (setIndex c.b c.s addr) set
        globalCounter := c.globalCounter + 1
        hitCnt := if hit then c.hitCnt + 1 else c.hitCnt
        missCnt := if hit then c.missCnt else c.missCnt + 1
        evictCnt := if evict then c.evictCnt + 1 else c.evictCnt }

/-- The accesses of a trace, one after the other. -/
def accessAll (c : Sim) (trace : List (BitVec 64)) : Option Sim := trace.foldlM accessData c

end SdeSystems.Csim
