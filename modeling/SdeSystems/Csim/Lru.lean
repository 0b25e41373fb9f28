import SdeSystems.Csim.Machine
import SdeSystems.Lib.Lru

/-!
# The simulator is least recently used

The reference model has, for each set, the list of the tags that are in it, the most recent first. The
simulator's lines, in the order of their counters, have the tags of that list (`Sets`), and an access
leads from one such state to another with the same hits, misses and evictions.
-/

namespace SdeSystems.Csim

open Lib

/-! ### The reference model -/

/-- The reference model: the tags of each set, the most recent first, and the counts. -/
structure Ref where
  /-- The tags of each set. -/
  sets : ℕ → List ℕ
  /-- Hits. -/
  hits : ℕ
  /-- Misses. -/
  misses : ℕ
  /-- Evictions. -/
  evictions : ℕ

/-- An empty cache. -/
def Ref.init : Ref := ⟨fun _ => [], 0, 0, 0⟩

/-- An access: the set is `(addr >> b) mod 2 ^ s`, the tag is `addr >> (s + b)`. -/
def Ref.access (b s E : ℕ) (r : Ref) (addr : BitVec 64) : Ref :=
  let i := addr.toNat / 2 ^ b % 2 ^ s
  let (l, outcome) := Lib.access E (r.sets i) (addr.toNat / 2 ^ (s + b))
  { sets := Function.update r.sets i l
    hits := if outcome = .hit then r.hits + 1 else r.hits
    misses := if outcome = .hit then r.misses else r.misses + 1
    evictions := if outcome = .evict then r.evictions + 1 else r.evictions }

/-- The accesses of a trace. -/
def Ref.accessAll (b s E : ℕ) (r : Ref) (trace : List (BitVec 64)) : Ref := trace.foldl (Ref.access b s E) r

/-! ### Addresses -/

theorem setIndex_eq {b s : ℕ} (hs : s < 64) (addr : BitVec 64) :
    setIndex b s addr = addr.toNat / 2 ^ b % 2 ^ s := by
  have hmask : ((1 : BitVec 64) <<< s - 1).toNat = 2 ^ s - 1 := by
    have hlt : 2 ^ s < 2 ^ 64 := Nat.pow_lt_pow_right (by omega) hs
    have hpos : 0 < 2 ^ s := Nat.two_pow_pos s
    have hunit : (1 : BitVec 64).toNat = 1 := rfl
    have hone : ((1 : BitVec 64) <<< s).toNat = 2 ^ s := by
      rw [BitVec.toNat_shiftLeft, Nat.shiftLeft_eq, hunit, Nat.one_mul, Nat.mod_eq_of_lt hlt]
    rw [BitVec.toNat_sub, hone, hunit]
    omega
  rw [setIndex, BitVec.toNat_and, hmask, BitVec.toNat_ushiftRight, Nat.shiftRight_eq_div_pow,
    Nat.and_two_pow_sub_one_eq_mod]

theorem tagOf_eq (b s : ℕ) (addr : BitVec 64) : (tagOf b s addr).toNat = addr.toNat / 2 ^ (s + b) := by
  rw [tagOf, BitVec.toNat_ushiftRight, Nat.shiftRight_eq_div_pow]

/-! ### One set -/

/-- The lines of a set, in the order of their counters, have the tags of the list. -/
structure SetHas (E : ℕ) (set : List Line) (now : ℕ) (l : List ℕ) : Prop where
  /-- There are `E` lines. -/
  length : set.length = E
  /-- The valid ones have the tags of the list. -/
  ranks : Ranks (fun x : Line => x.tag.toNat) (fun x => x.counter.toNat) (set.filter Line.valid) now l
  /-- The tags are distinct. -/
  nodup : l.Nodup

section

variable {E now i : ℕ} {set set' : List Line} {l : List ℕ} {tag time : BitVec 64} {x : Line} {f : Line → Line}

/-- One line is changed, and the others are as before. -/
theorem modify_perm (h : set[i]? = some x) :
    ∃ rest, set.Perm (x :: rest) ∧ (set.modify i f).Perm (f x :: rest) := by
  obtain ⟨hi, rfl⟩ := List.getElem?_eq_some_iff.mp h
  refine ⟨set.take i ++ set.drop (i + 1), ?_, ?_⟩
  · have hsplit : set = set.take i ++ set[i] :: set.drop (i + 1) := by simp
    exact (List.Perm.of_eq hsplit).trans List.perm_middle
  · rw [List.modify_eq_take_cons_drop hi]
    exact List.perm_middle

theorem exists_of_findIdx? {p : Line → Bool} (h : set.findIdx? p = some i) : ∃ x, set[i]? = some x ∧ p x = true := by
  obtain ⟨hi, hp, -⟩ := List.findIdx?_eq_some_iff_getElem.mp h
  exact ⟨set[i], List.getElem?_eq_getElem hi, hp⟩

/-- The loop ends at a line with the smallest counter. -/
theorem lruLoop_spec (pre : List Line) {lines : List Line} {lru : ℕ} {x : Line} (hx : pre[lru]? = some x)
    (hmin : ∀ y ∈ pre, x.counter ≤ y.counter) :
    ∃ y, (pre ++ lines)[lruLoop lines pre.length lru x.counter]? = some y ∧
      ∀ z ∈ pre ++ lines, y.counter ≤ z.counter := by
  induction lines generalizing pre lru x with
  | nil => exact ⟨x, by simpa [lruLoop] using hx, by simpa using hmin⟩
  | cons line lines ih =>
    have hlt := (List.getElem?_eq_some_iff.mp hx).1
    unfold lruLoop
    have hsplit : pre ++ line :: lines = (pre ++ [line]) ++ lines := by simp
    have hlen : pre.length + 1 = (pre ++ [line]).length := by simp
    rw [hsplit, hlen]
    split
    · rename_i hless
      apply ih _ (x := line) (by simp)
      intro y hy
      rcases List.mem_append.mp hy with hy | hy
      · exact BitVec.le_trans (BitVec.le_of_lt hless) (hmin y hy)
      · rw [List.mem_singleton.mp hy]
        exact BitVec.le_refl _
    · rename_i hless
      refine ih _ (x := x) (by rw [List.getElem?_append_left hlt, hx]) fun y hy => ?_
      rcases List.mem_append.mp hy with hy | hy
      · exact hmin y hy
      · rw [List.mem_singleton.mp hy]
        exact BitVec.not_lt.mp hless

/-- The whole loop. -/
theorem lruLoop_min (first : Line) (rest : List Line) :
    ∃ y, (first :: rest)[lruLoop rest 1 0 first.counter]? = some y ∧ ∀ z ∈ first :: rest, y.counter ≤ z.counter :=
  lruLoop_spec [first] rfl (by simp)

/-- What becomes of the valid lines when one line is changed. -/
theorem filter_modify (hi : set[i]? = some x) (hf : (f x).valid = true) :
    ∃ rest, (set.filter Line.valid).Perm (if x.valid then x :: rest else rest) ∧
      ((set.modify i f).filter Line.valid).Perm (f x :: rest) ∧ rest.length < set.length := by
  obtain ⟨rest, hp, hp'⟩ := modify_perm (f := f) hi
  refine ⟨rest.filter Line.valid, ?_, ?_, ?_⟩
  · have := hp.filter Line.valid
    rwa [List.filter_cons] at this
  · have := hp'.filter Line.valid
    rwa [List.filter_cons, if_pos hf] at this
  · have hle := List.length_filter_le Line.valid rest
    have hlen := hp.length_eq
    rw [List.length_cons] at hlen
    omega

/-- A hit: the counter of the line. -/
theorem SetHas.hit (h : SetHas E set now l) (htime : time.toNat = now + 1) (hi : set[i]? = some x) (hvalid : x.valid = true) :
    access E l x.tag.toNat = (x.tag.toNat :: l.erase x.tag.toNat, .hit) ∧
      SetHas E (set.modify i fun line => { line with counter := time }) (now + 1) (access E l x.tag.toNat).1 := by
  have hnodup : (access E l x.tag.toNat).1.Nodup := nodup_access h.nodup
  obtain ⟨rest, hp, hp', -⟩ := filter_modify (f := fun line => { line with counter := time }) hi hvalid
  rw [if_pos hvalid] at hp
  have hmem : x.tag.toNat ∈ l := h.ranks.mem.mpr ⟨x, hp.mem_iff.mpr (by simp), rfl⟩
  have hacc : access E l x.tag.toNat = (x.tag.toNat :: l.erase x.tag.toNat, .hit) := if_pos hmem
  refine ⟨hacc, by rw [List.length_modify, h.length], ?_, hnodup⟩
  rw [hacc]
  exact (h.ranks.hit { x with counter := time } hp h.nodup rfl htime).perm hp'.symm

/-- A line that is not valid is filled. -/
theorem SetHas.fill (h : SetHas E set now l) (htime : time.toNat = now + 1) (hnot : tag.toNat ∉ l) (hi : set[i]? = some x)
    (hx : x.valid = false) :
    access E l tag.toNat = (tag.toNat :: l, .fill) ∧
      SetHas E (set.modify i fun _ => ⟨true, tag, time⟩) (now + 1) (access E l tag.toNat).1 := by
  have hnodup : (access E l tag.toNat).1.Nodup := nodup_access h.nodup
  obtain ⟨rest, hp, hp', hlt⟩ := filter_modify (f := fun _ => ⟨true, tag, time⟩) hi rfl
  rw [if_neg (by simp [hx])] at hp
  have hroom : l.length ≠ E := by
    have := h.ranks.length
    have := hp.length_eq
    have := h.length
    omega
  have hacc : access E l tag.toNat = (tag.toNat :: l, .fill) := by
    rw [access, if_neg hnot, if_neg hroom]
  refine ⟨hacc, by rw [List.length_modify, h.length], ?_, hnodup⟩
  rw [hacc]
  exact ((h.ranks.perm hp).cons (x := ⟨true, tag, time⟩) htime).perm hp'.symm

/-- All lines are valid, and one with the smallest counter goes. -/
theorem SetHas.evict (h : SetHas E set now l) (htime : time.toNat = now + 1) (hnot : tag.toNat ∉ l)
    (hall : set.filter Line.valid = set) (hi : set[i]? = some x) (hmin : ∀ y ∈ set, x.counter ≤ y.counter) :
    access E l tag.toNat = (tag.toNat :: l.dropLast, .evict) ∧
      SetHas E (set.modify i fun line => { line with tag := tag, counter := time }) (now + 1)
        (access E l tag.toNat).1 := by
  have hnodup : (access E l tag.toNat).1.Nodup := nodup_access h.nodup
  have hroom : l.length = E := by rw [h.ranks.length, hall, h.length]
  have hacc : access E l tag.toNat = (tag.toNat :: l.dropLast, .evict) := by
    rw [access, if_neg hnot, if_pos hroom]
  have hvalid : x.valid = true := by
    have hx := List.mem_of_getElem? hi
    rw [← hall] at hx
    exact (List.mem_filter.mp hx).2
  obtain ⟨rest, hp, hp', -⟩ := filter_modify (f := fun line => { line with tag := tag, counter := time }) hi hvalid
  rw [if_pos hvalid] at hp
  refine ⟨hacc, by rw [List.length_modify, h.length], ?_, hnodup⟩
  rw [hacc]
  refine (h.ranks.evict { x with tag := tag, counter := time } hp ?_ htime).perm hp'.symm
  intro y hy
  rw [hall] at hy
  exact BitVec.le_def.mp (hmin y hy)

/-- **An access to a set** is one to the list of its tags. -/
theorem accessSet_spec (h : SetHas E set now l) (hE : 0 < E) (htime : time.toNat = now + 1) (tag : BitVec 64) :
    ∃ set', accessSet set tag time = some (set', decide ((access E l tag.toNat).2 = .hit),
        decide ((access E l tag.toNat).2 = .evict)) ∧
      SetHas E set' (now + 1) (access E l tag.toNat).1 := by
  unfold accessSet
  split
  · rename_i i hfind
    obtain ⟨x, hi, hx⟩ := exists_of_findIdx? hfind
    simp only [Bool.and_eq_true, decide_eq_true_eq] at hx
    obtain ⟨hvalid, rfl⟩ := hx
    obtain ⟨hacc, hset⟩ := h.hit htime hi hvalid
    refine ⟨_, ?_, hset⟩
    rw [hacc]
    rfl
  · rename_i hmiss
    have hnot : tag.toNat ∉ l := by
      intro hmem
      obtain ⟨x, hx, htag⟩ := h.ranks.mem.mp hmem
      obtain ⟨hx, hvalid⟩ := List.mem_filter.mp hx
      have := List.findIdx?_eq_none_iff.mp hmiss x hx
      simp [hvalid, BitVec.eq_of_toNat_eq htag] at this
    split
    · rename_i i hfind
      obtain ⟨x, hi, hx⟩ := exists_of_findIdx? hfind
      simp only [Bool.not_eq_true'] at hx
      obtain ⟨hacc, hset⟩ := h.fill htime hnot hi hx
      refine ⟨_, ?_, hset⟩
      rw [hacc]
      rfl
    · rename_i hfull
      have hall : set.filter Line.valid = set := by
        apply List.filter_eq_self.mpr
        intro x hx
        have := List.findIdx?_eq_none_iff.mp hfull x hx
        simpa using this
      split
      · rw [← h.length] at hE
        simp at hE
      · rename_i first rest₀
        obtain ⟨x, hi, hmin⟩ := lruLoop_min first rest₀
        obtain ⟨hacc, hset⟩ := h.evict htime hnot hall hi hmin
        refine ⟨_, ?_, hset⟩
        rw [hacc]
        rfl

end

/-! ### Traces -/

/-- The simulator after `n` accesses has the sets and the counts of the reference model. -/
structure Simulates (b s E n : ℕ) (c : Sim) (r : Ref) : Prop where
  /-- `b` does not change. -/
  blockBits : c.b = b
  /-- Nor does `s`. -/
  setBits : c.s = s
  /-- There are `2 ^ s` sets. -/
  size : c.cache.length = 2 ^ s
  /-- Each of them has the tags of the reference model. -/
  sets : ∀ i set, c.cache[i]? = some set → SetHas E set n (r.sets i)
  /-- The counter counts the accesses. -/
  clock : c.globalCounter.toNat = n
  /-- The hits agree. -/
  hits : c.hitCnt.toNat = r.hits
  /-- The misses agree. -/
  misses : c.missCnt.toNat = r.misses
  /-- The evictions agree. -/
  evictions : c.evictCnt.toNat = r.evictions
  /-- There are no more of them than accesses. -/
  total : r.hits + r.misses = n ∧ r.evictions ≤ n

section

variable {b s E n : ℕ} {c : Sim} {r : Ref}

theorem SetHas.mono {set : List Line} {l : List ℕ} {m : ℕ} (h : SetHas E set n l) (hle : n ≤ m) : SetHas E set m l :=
  ⟨h.length, h.ranks.mono hle, h.nodup⟩

theorem simulates_init (hs : s < 31) : Simulates b s E 0 (initCache b s E) Ref.init where
  blockBits := rfl
  setBits := rfl
  size := by
    have hlt : 2 ^ s < 2 ^ 32 := Nat.pow_lt_pow_right (by omega) (by omega)
    have hunit : (1 : BitVec 32).toNat = 1 := rfl
    rw [initCache, List.length_replicate, BitVec.toNat_shiftLeft, Nat.shiftLeft_eq, hunit, Nat.one_mul, Nat.mod_eq_of_lt hlt]
  sets i set hset := by
    obtain rfl := List.eq_of_mem_replicate (List.mem_of_getElem? hset)
    refine ⟨List.length_replicate, ?_, List.nodup_nil⟩
    rw [List.filter_replicate_of_neg (by simp)]
    exact ranks_nil 0
  clock := rfl
  hits := rfl
  misses := rfl
  evictions := rfl
  total := ⟨rfl, Nat.le_refl 0⟩

/-- A count that goes up or not, below its bound. -/
theorem toNat_count {x : BitVec 32} {m : ℕ} (hx : x.toNat = m) (hm : m + 1 < 2 ^ 31) (up : Bool) :
    (if up then x + 1 else x).toNat = if up then m + 1 else m := by
  cases up with
  | true =>
    simp only [if_true]
    rw [BitVec.toNat_add, hx]
    have hunit : (1 : BitVec 32).toNat = 1 := rfl
    omega
  | false => simpa using hx

/-- **One access.** -/
theorem Simulates.step (h : Simulates b s E n c r) (hs : s < 31) (hE : 0 < E) (hn : n + 1 < 2 ^ 31)
    (addr : BitVec 64) : ∃ c', accessData c addr = some c' ∧ Simulates b s E (n + 1) c' (r.access b s E addr) := by
  obtain ⟨rfl, rfl, hsize, hsets, hclock, hhits, hmisses, hevictions, htotal⟩ := h
  have hindex := setIndex_eq (b := c.b) (show c.s < 64 by omega) addr
  have hlt : setIndex c.b c.s addr < c.cache.length := by
    rw [hindex, hsize]
    exact Nat.mod_lt _ (Nat.two_pow_pos c.s)
  have htime : (c.globalCounter + 1).toNat = n + 1 := by
    rw [BitVec.toNat_add, hclock]
    have hunit : (1 : BitVec 64).toNat = 1 := rfl
    omega
  obtain ⟨set, hset⟩ : ∃ set, c.cache[setIndex c.b c.s addr]? = some set := ⟨_, List.getElem?_eq_getElem hlt⟩
  obtain ⟨set', hrun, hset'⟩ := accessSet_spec (hsets _ set hset) hE htime (tagOf c.b c.s addr)
  rw [tagOf_eq] at hrun hset'
  generalize ho : access E (r.sets (setIndex c.b c.s addr)) (addr.toNat / 2 ^ (c.s + c.b)) = out at hrun hset'
  obtain ⟨l, outcome⟩ := out
  have href : r.access c.b c.s E addr =
      { sets := Function.update r.sets (setIndex c.b c.s addr) l
        hits := if outcome = .hit then r.hits + 1 else r.hits
        misses := if outcome = .hit then r.misses else r.misses + 1
        evictions := if outcome = .evict then r.evictions + 1 else r.evictions } := by
    rw [hindex] at ho ⊢
    simp only [Ref.access, ho]
  have hcount {x : BitVec 32} {m : ℕ} (hx : x.toNat = m) (hm : m ≤ n) (p : Prop) [Decidable p] :
      (if p then x + 1 else x).toNat = if p then m + 1 else m := by
    simpa using toNat_count hx (by omega) (decide p)
  refine ⟨_, by simp only [accessData, hset, hrun]; rfl, ?_⟩
  rw [href]
  refine ⟨rfl, rfl, by rw [List.length_set, hsize], ?_, htime, ?_, ?_, ?_, ?_⟩
  · intro i set₁ hi
    dsimp only at hi ⊢
    by_cases hii : i = setIndex c.b c.s addr
    · subst hii
      rw [List.getElem?_set_self hlt] at hi
      rw [Function.update_self, ← Option.some.inj hi]
      exact hset'
    · rw [List.getElem?_set_ne (Ne.symm hii)] at hi
      rw [Function.update_of_ne hii]
      exact (hsets i set₁ hi).mono (Nat.le_succ n)
  · simpa using hcount hhits (by omega) (outcome = .hit)
  · have := hcount hmisses (by omega) (¬ outcome = .hit)
    rw [ite_not, ite_not] at this
    simpa using this
  · simpa using hcount hevictions htotal.2 (outcome = .evict)
  · dsimp only
    split <;> split <;> omega

/-- The accesses of a trace. -/
theorem Simulates.run (hs : s < 31) (hE : 0 < E) (trace : List (BitVec 64)) (h : Simulates b s E n c r)
    (hn : n + trace.length < 2 ^ 31) :
    ∃ c', accessAll c trace = some c' ∧ Simulates b s E (n + trace.length) c' (r.accessAll b s E trace) := by
  induction trace generalizing c r n with
  | nil => exact ⟨c, rfl, h⟩
  | cons addr trace ih =>
    rw [List.length_cons] at hn
    obtain ⟨c₁, hc₁, h₁⟩ := h.step hs hE (by omega) addr
    obtain ⟨c', hc', h'⟩ := ih h₁ (by omega)
    refine ⟨c', ?_, ?_⟩
    · rw [accessAll, List.foldlM_cons, hc₁]
      exact hc'
    · rw [List.length_cons, show n + (trace.length + 1) = n + 1 + trace.length by omega]
      exact h'

/-- A count of the simulator, which does not overflow. -/
theorem toInt_count {x : BitVec 32} {m : ℕ} (hx : x.toNat = m) (hm : m < 2 ^ 31) : x.toInt = m := by
  rw [BitVec.toInt_eq_toNat_of_lt (by omega), hx]

/-- **The cache simulator is least recently used.** After every trace of fewer than `2 ^ 31` accesses it
has the hits, misses and evictions of the reference model. -/
theorem accessAll_lru (hs : s < 31) (hE : 0 < E) (trace : List (BitVec 64)) (hlen : trace.length < 2 ^ 31) :
    ∃ c, accessAll (initCache b s E) trace = some c ∧
      c.hitCnt.toInt = (Ref.init.accessAll b s E trace).hits ∧
      c.missCnt.toInt = (Ref.init.accessAll b s E trace).misses ∧
      c.evictCnt.toInt = (Ref.init.accessAll b s E trace).evictions := by
  obtain ⟨c, hc, h⟩ := (simulates_init (b := b) (E := E) hs).run hs hE trace (by omega)
  have htotal := h.total
  exact ⟨c, hc, toInt_count h.hits (by omega), toInt_count h.misses (by omega), toInt_count h.evictions (by omega)⟩

end

/-- One line in each of two sets: the blocks at 0 and at 4 drive each other out. -/
theorem accessAll_lru_evict : ∃ c, accessAll (initCache 1 1 1) [0, 4, 0] = some c ∧ c.hitCnt.toInt = 0 ∧
    c.missCnt.toInt = 3 ∧ c.evictCnt.toInt = 2 := by
  obtain ⟨c, hc, hhits, hmisses, hevictions⟩ :=
    accessAll_lru (b := 1) (s := 1) (E := 1) (by decide) (by decide) [0, 4, 0] (by decide)
  exact ⟨c, hc, hhits.trans rfl, hmisses.trans rfl, hevictions.trans rfl⟩

end SdeSystems.Csim
