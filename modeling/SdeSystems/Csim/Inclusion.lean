import SdeSystems.Csim.Lru

/-!
# More lines, no more misses

The same trace is replayed with `E` lines in each set and with `E + 1`. In the
reference model the tags of the smaller set are the first `E` of those of the larger
one (`Within`), and every access keeps that (`access_take`): so what is found in the
smaller cache is found in the larger one.
-/

namespace SdeSystems.Csim

open Lib

/-! ### The reference model -/

/-- The smaller cache `r` is within the larger one `r'`. -/
structure Within (E : ℕ) (r r' : Ref) : Prop where
  /-- It has the tags that were used last. -/
  sets : ∀ i, r.sets i = (r'.sets i).take E
  /-- The larger one has room for one more. -/
  length : ∀ i, (r'.sets i).length ≤ E + 1
  /-- It has missed no more often. -/
  misses : r'.misses ≤ r.misses

section

variable {b s E : ℕ} {r r' : Ref}

theorem within_init (E : ℕ) : Within E Ref.init Ref.init :=
  ⟨fun _ => List.take_nil.symm, fun _ => Nat.zero_le _, Nat.le_refl _⟩

/-- One access. -/
theorem Within.step (h : Within E r r') (hE : 0 < E) (addr : BitVec 64) :
    Within E (r.access b s E addr) (r'.access b s (E + 1) addr) := by
  refine ⟨?_, ?_, ?_⟩
  · intro i
    simp only [Ref.access, Function.update_apply]
    split
    · rw [h.sets, access_take hE (h.length _)]
    · exact h.sets i
  · intro i
    simp only [Ref.access, Function.update_apply]
    split
    · exact length_access_le (Nat.succ_pos E) (h.length _)
    · exact h.length i
  · have hle := h.misses
    simp only [Ref.access]
    rw [h.sets]
    split <;> rename_i hbig
    · split <;> omega
    · rw [if_neg fun hsmall => hbig (hit_of_hit_take hsmall)]
      omega

/-- A whole trace. -/
theorem Within.run (h : Within E r r') (hE : 0 < E) (trace : List (BitVec 64)) :
    Within E (r.accessAll b s E trace) (r'.accessAll b s (E + 1) trace) := by
  induction trace generalizing r r' with
  | nil => exact h
  | cons addr trace ih => exact ih (h.step hE addr)

end

/-! ### The simulator -/

/-- The tags that are valid in the set `i`. -/
def validTags (c : Sim) (i : ℕ) : List (BitVec 64) :=
  (((c.cache[i]?).getD []).filter Line.valid).map Line.tag

variable {b s E n : ℕ} {c c' : Sim} {r r' : Ref}

/-- They are those of the reference model. -/
theorem Simulates.mem_validTags (h : Simulates b s E n c r) {i : ℕ} (hi : i < 2 ^ s) (tag : BitVec 64) :
    tag ∈ validTags c i ↔ tag.toNat ∈ r.sets i := by
  obtain ⟨set, hset⟩ : ∃ set, c.cache[i]? = some set :=
    ⟨_, List.getElem?_eq_getElem (show i < c.cache.length by rw [h.size]; exact hi)⟩
  rw [validTags, hset, Option.getD_some, (h.sets i set hset).ranks.mem, List.mem_map]
  exact exists_congr fun x => and_congr_right fun _ => BitVec.toNat_inj.symm

theorem validTags_eq_nil (h : Simulates b s E n c r) {i : ℕ} (hi : ¬ i < 2 ^ s) : validTags c i = [] := by
  have hnone : c.cache[i]? = none := List.getElem?_eq_none (by rw [h.size]; omega)
  rw [validTags, hnone]
  rfl

/-- The valid tags of the smaller cache are valid in the larger one. -/
theorem Within.validTags_subset (hw : Within E r r') (h : Simulates b s E n c r)
    (h' : Simulates b s (E + 1) n c' r') (i : ℕ) : validTags c i ⊆ validTags c' i := by
  intro tag htag
  by_cases hi : i < 2 ^ s
  · rw [h.mem_validTags hi, hw.sets] at htag
    exact (h'.mem_validTags hi tag).mpr (List.mem_of_mem_take htag)
  · rw [validTags_eq_nil h hi] at htag
    cases htag

/-- **Inclusion.** A trace of fewer than `2 ^ 31` accesses never misses more often with
`E + 1` lines than with `E`, and after each of its prefixes the tags that are valid in a
set with `E` lines are valid in the same set with `E + 1`. -/
theorem lru_inclusion (hs : s < 31) (hE : 1 ≤ E) (trace : List (BitVec 64)) (hlen : trace.length < 2 ^ 31) :
    (∃ c c', accessAll (initCache b s E) trace = some c ∧ accessAll (initCache b s (E + 1)) trace = some c' ∧
      c'.missCnt.toInt ≤ c.missCnt.toInt) ∧
    ∀ pre, pre <+: trace → ∃ c c', accessAll (initCache b s E) pre = some c ∧
      accessAll (initCache b s (E + 1)) pre = some c' ∧ ∀ i, validTags c i ⊆ validTags c' i := by
  have hrun (pre : List (BitVec 64)) (hpre : pre.length < 2 ^ 31) :
      ∃ c c', accessAll (initCache b s E) pre = some c ∧ accessAll (initCache b s (E + 1)) pre = some c' ∧
        c'.missCnt.toInt ≤ c.missCnt.toInt ∧ ∀ i, validTags c i ⊆ validTags c' i := by
    obtain ⟨c, hc, h⟩ := (simulates_init (b := b) (E := E) hs).run hs hE pre (by omega)
    obtain ⟨c', hc', h'⟩ :=
      (simulates_init (b := b) (E := E + 1) hs).run hs (by omega) pre (by omega)
    have hw := (within_init E).run hE pre (b := b) (s := s)
    have htotal := h.total
    have htotal' := h'.total
    have hmisses := hw.misses
    refine ⟨c, c', hc, hc', ?_, hw.validTags_subset h h'⟩
    rw [toInt_count h.misses (by omega), toInt_count h'.misses (by omega)]
    omega
  constructor
  · obtain ⟨c, c', hc, hc', hle, -⟩ := hrun trace hlen
    exact ⟨c, c', hc, hc', hle⟩
  · intro pre hpre
    obtain ⟨c, c', hc, hc', -, hsub⟩ := hrun pre (Nat.lt_of_le_of_lt hpre.length_le hlen)
    exact ⟨c, c', hc, hc', hsub⟩

/-- The blocks at 0 and at 4 drive each other out of one line, and both fit in two. -/
theorem lru_inclusion_two : ∃ c c', accessAll (initCache 1 1 1) [0, 4, 0] = some c ∧
    accessAll (initCache 1 1 2) [0, 4, 0] = some c' ∧ c'.missCnt.toInt ≤ c.missCnt.toInt :=
  (lru_inclusion (b := 1) (s := 1) (by decide) (by decide) [0, 4, 0] (by decide)).1

end SdeSystems.Csim
