import SdeSystems.Wmap.Counted
import Mathlib.Order.CompletePartialOrder
import Mathlib.Data.Int.ConditionallyCompleteOrder
import Mathlib.Order.ConditionallyCompleteLattice.Basic

/-!
# A region unmapped piece by piece

`wpunmap` never takes a region out of the list: where the range is all that is left of a region, the
region stays with length 0, in its slot, in the list and in the count. So a region that is unmapped by
calls of `wpunmap` is not gone as it is after `wunmap`; only the page tables are the same.
-/

namespace SdeSystems.Wmap

open Lib Function

/-- Calls of `wpunmap` one after the other, all of which succeed. -/
def unmapAll (k : Kernel) (p : Fin 64) : List (BitVec 32 × BitVec 32) → Option Kernel
  | [] => some k
  | (addr, length) :: cuts => (sysWpunmap k p addr length).bind fun (k, r) => if r = 0 then unmapAll k p cuts else none

/-- The ranges are a partition of the region. -/
structure Partitions (cuts : List (BitVec 32 × BitVec 32)) (r : Region) : Prop where
  /-- They lie in it. -/
  inside : ∀ c ∈ cuts, r.addr ≤ c.1.toNat ∧ c.1.toNat + c.2.toInt ≤ r.addr + r.length
  /-- Each of its bytes is in one of them. -/
  cover : ∀ x : ℤ, r.addr ≤ x → x < r.addr + r.length → ∃ c ∈ cuts, c.1.toNat ≤ x ∧ x < c.1.toNat + c.2.toInt
  /-- No two of them have a byte in common. -/
  apart : cuts.Pairwise fun c d => Disjoint (Set.Ico (c.1.toNat : ℤ) (c.1.toNat + c.2.toInt))
    (Set.Ico (d.1.toNat : ℤ) (d.1.toNat + d.2.toInt))

/-- The mappings and the user entries of a process are the same in two states. -/
structure SameOutcome (k₁ k₂ : Kernel) (p : Fin 64) : Prop where
  /-- The regions along the list. -/
  list : regionsFrom (k₁.procs p).mm 16 (k₁.procs p).mm.mmapHead = regionsFrom (k₂.procs p).mm 16 (k₂.procs p).mm.mmapHead
  /-- The slots in use. -/
  slots : ∀ i, ((k₁.procs p).mm.mmaps i).addr ≠ 2 ^ 32 - 1 ↔ ((k₂.procs p).mm.mmaps i).addr ≠ 2 ^ 32 - 1
  /-- The count. -/
  total : (k₁.procs p).mm.totalMmaps = (k₂.procs p).mm.totalMmaps
  /-- The entries. -/
  ptes : ∀ va < 2 ^ 32, (k₁.procs p).pgdir.pte va = (k₂.procs p).pgdir.pte va

section

variable {k k' k₁ k₂ : Kernel} {p : Fin 64} {l l' : List (Fin 16)} {i : Fin 16} {mm mm' : Mmaps} {pd : PageDir}
  {fs fs' : Fs} {cuts : List (BitVec 32 × BitVec 32)} {addr length : BitVec 32}

theorem shrink_total {a : ℕ} {n : ℤ} (h : shrink mm pd fs i a n = some (some (mm', fs'))) :
    mm.totalMmaps ≤ mm'.totalMmaps := by
  unfold shrink at h
  dsimp only at h
  split at h
  · obtain ⟨rfl, -⟩ := Prod.mk.inj (Option.some.inj (Option.some.inj h))
    exact le_rfl
  split at h
  · obtain ⟨rfl, -⟩ := Prod.mk.inj (Option.some.inj (Option.some.inj h))
    exact le_rfl
  split at h
  · cases h
  split at h
  · obtain ⟨rfl, -⟩ := Prod.mk.inj (Option.some.inj (Option.some.inj h))
    simp [Mmaps.set]
  · cases h

/-- A call of `wpunmap` that succeeds takes no region away, and clears the entries of its range. -/
theorem wpunmap_keeps (ht : Table (k.procs p).mm l) (hwrap : NoWrap addr length)
    (hw : sysWpunmap k p addr length = some (k', 0)) : (∃ l', Table (k'.procs p).mm l') ∧
      (k.procs p).mm.totalMmaps ≤ (k'.procs p).mm.totalMmaps ∧
      Cleared (k.procs p).pgdir (k'.procs p).pgdir addr.toNat (addr.toNat + length.toInt).toNat := by
  have htable : ∃ l', Table (k'.procs p).mm l' := by
    obtain ⟨pr, mem, fs, l', rfl, ht'⟩ := wpunmap_table ht hwrap hw
    exact ⟨l', by rwa [Kernel.put_procs_self]⟩
  refine ⟨htable, ?_⟩
  generalize hret : (0 : ℤ) = ret at hw
  cases sysWpunmap_cases ht.toListed hw with
  | failed => cases hret
  | @dropped l₁ i l₂ s out hl hlen hal hstop hlo hhi hdrop hshrink =>
    cases out with
    | none => cases hret
    | some out =>
      obtain ⟨mm', fs'⟩ := out
      rw [Kernel.put_procs_self]
      have hle : u32 (addr.toNat + length.toInt) = (addr.toNat + length.toInt).toNat := by
        unfold NoWrap at hwrap
        unfold u32
        omega
      have htotal := shrink_total hshrink
      refine ⟨htotal, ?_⟩
      rw [hle] at hdrop hstop
      unfold NoWrap at hwrap
      exact dropPages_cleared _ hdrop hal hstop le_rfl (by omega) (by omega)

/-- The calls one after the other: no region goes away, and the entries of all the ranges are cleared. -/
theorem unmapAll_keeps (ht : Table (k.procs p).mm l) (hwrap : ∀ c ∈ cuts, NoWrap c.1 c.2)
    (h : unmapAll k p cuts = some k') : (∃ l', Table (k'.procs p).mm l') ∧
      (k.procs p).mm.totalMmaps ≤ (k'.procs p).mm.totalMmaps ∧
      ∀ va < 2 ^ 32, ((∃ c ∈ cuts, c.1.toNat ≤ va ∧ va < c.1.toNat + c.2.toInt) → (k'.procs p).pgdir.pte va = none) ∧
        ((∀ c ∈ cuts, ¬ (c.1.toNat ≤ va ∧ va < c.1.toNat + c.2.toInt)) →
          (k'.procs p).pgdir.pte va = (k.procs p).pgdir.pte va) := by
  induction cuts generalizing k l with
  | nil =>
    obtain rfl := Option.some.inj h
    exact ⟨⟨l, ht⟩, le_rfl, by simp⟩
  | cons c cuts ih =>
    obtain ⟨addr, length⟩ := c
    obtain ⟨⟨km, r⟩, hw, hrest⟩ := Option.bind_eq_some_iff.mp h
    dsimp only at hrest
    split_ifs at hrest with hr
    subst hr
    have hfirst : NoWrap addr length := hwrap (addr, length) (by simp)
    obtain ⟨⟨lm, htm⟩, htotal, hclear⟩ := wpunmap_keeps ht hfirst hw
    obtain ⟨htable, htotal', hptes⟩ := ih htm (fun c hc => hwrap c (by simp [hc])) hrest
    refine ⟨htable, htotal.trans htotal', ?_⟩
    intro va hva
    obtain ⟨hin, hout⟩ := hptes va hva
    by_cases hcuts : ∃ c ∈ cuts, c.1.toNat ≤ va ∧ va < c.1.toNat + c.2.toInt
    · refine ⟨fun _ => hin hcuts, ?_⟩
      intro hno
      obtain ⟨c, hc, hc'⟩ := hcuts
      exact absurd hc' (hno c (by simp [hc]))
    · -- of the ranges at most the first one has the address
      have hlater := hout fun c hc hc' => hcuts ⟨c, hc, hc'⟩
      refine ⟨fun ⟨c, hc, hc'⟩ => ?_, ?_⟩
      · rcases List.mem_cons.mp hc with rfl | hc
        · rw [hlater]
          exact hclear.cleared va hva hc'.1 (by dsimp only at hc'; omega)
        · exact absurd ⟨c, hc, hc'⟩ hcuts
      · intro hno
        have := hno (addr, length) (by simp)
        rw [hlater]
        exact hclear.others va hva (by dsimp only at this; omega)

/-- The number of regions is the number of slots in use. -/
theorem Listed.length_eq_of_used {mm₁ mm₂ : Mmaps} {l₁ l₂ : List (Fin 16)} (h₁ : Listed mm₁ l₁) (h₂ : Listed mm₂ l₂)
    (h : ∀ i, (mm₁.mmaps i).addr ≠ 2 ^ 32 - 1 ↔ (mm₂.mmaps i).addr ≠ 2 ^ 32 - 1) : l₁.length = l₂.length := by
  refine ((List.perm_ext_iff_of_nodup h₁.nodup h₂.nodup).mpr ?_).length_eq
  intro i
  rw [h₁.used, h₂.used, h]

/-- What the two ways of unmapping a region lead to: the entries are the same, the lists, the slots in use and the
counts are not. -/
theorem piecewise_unmap_spec (hwf : WellFormed (k.procs p).mm l) (hi : i ∈ l)
    (hpages : ((k.procs p).mm.mmaps i).length % 4096 = 0) (hpart : Partitions cuts ((k.procs p).mm.mmaps i))
    (hcuts : unmapAll k p cuts = some k₁)
    (hw : sysWunmap k p (BitVec.ofNat 32 ((k.procs p).mm.mmaps i).addr) = some (k₂, 0)) :
    (∀ va < 2 ^ 32, (k₁.procs p).pgdir.pte va = (k₂.procs p).pgdir.pte va) ∧
      regionsFrom (k₁.procs p).mm 16 (k₁.procs p).mm.mmapHead ≠ regionsFrom (k₂.procs p).mm 16 (k₂.procs p).mm.mmapHead ∧
      (¬ ∀ i, ((k₁.procs p).mm.mmaps i).addr ≠ 2 ^ 32 - 1 ↔ ((k₂.procs p).mm.mmaps i).addr ≠ 2 ^ 32 - 1) ∧
      (k₂.procs p).mm.totalMmaps < (k₁.procs p).mm.totalMmaps := by
  have ht := hwf.table
  have hr := ht.region i hi
  have hpos := hwf.strict.pos i hi
  have hstop := hr.stop_eq
  have hhi := hr.hi
  have hwrap : ∀ c ∈ cuts, NoWrap c.1 c.2 := by
    intro c hc
    have := hpart.inside c hc
    unfold NoWrap
    omega
  obtain ⟨⟨lc, htc⟩, htotal, hptes⟩ := unmapAll_keeps ht hwrap hcuts
  have haddr : (BitVec.ofNat 32 ((k.procs p).mm.mmaps i).addr).toNat = ((k.procs p).mm.mmaps i).addr := by
    simp only [BitVec.toNat_ofNat]
    omega
  generalize hret : (0 : ℤ) = ret at hw
  cases sysWunmap_cases ht.toListed hw with
  | failed => cases hret
  | @removed l₁ i' l₂ s fs hl haddr' hdrop hfs =>
    rw [haddr] at haddr' hdrop
    -- no two regions begin at the same address
    obtain rfl : i' = i := by
      by_contra hne
      have hi' : i' ∈ l := by simp [hl]
      have hapart := ht.apart i' hi' i hi hne
      have hpos' := hwf.strict.pos i' hi'
      unfold Region.Apart Region.pageEnd at hapart
      omega
    subst hl
    have hunlink := ht.unlink
    have hclear := hr.dropPages_cleared hdrop
    have hend : (((k.procs p).mm.mmaps i').pageEnd : ℤ) =
        ((k.procs p).mm.mmaps i').addr + ((k.procs p).mm.mmaps i').length := by
      have := hr.aligned
      unfold Region.pageEnd
      omega
    rw [Kernel.put_procs_self]
    dsimp only
    have hcount : (unlink (k.procs p).mm l₁.getLast? i').totalMmaps < (k₁.procs p).mm.totalMmaps := by
      rw [unlink_total]
      omega
    refine ⟨?_, ?_, ?_, hcount⟩
    · intro va hva
      by_cases hin : ((k.procs p).mm.mmaps i').addr ≤ va ∧ va < ((k.procs p).mm.mmaps i').pageEnd
      · obtain ⟨c, hc, hc'⟩ := hpart.cover va (by omega) (by omega)
        rw [(hptes va hva).1 ⟨c, hc, by omega, hc'.2⟩, hclear.cleared va hva hin.1 hin.2]
      · rw [hclear.others va hva hin, (hptes va hva).2 fun c hc hc' => ?_]
        have := hpart.inside c hc
        omega
    · intro hlist
      rw [regionsFrom_eq htc.linked htc.length_le, regionsFrom_eq hunlink.linked hunlink.length_le] at hlist
      have hlen := congrArg List.length hlist
      rw [List.length_map, List.length_map] at hlen
      have h₁ := htc.total
      have h₂ := hunlink.total
      omega
    · intro hslots
      have hlen := htc.toListed.length_eq_of_used hunlink.toListed hslots
      have h₁ := htc.total
      have h₂ := hunlink.total
      omega

/-- **Unmapping piece by piece is never unmapping at once**: for no region of whole pages, anonymous or not, and
for no way to cut it. -/
theorem piecewise_unmap_never (hwf : WellFormed (k.procs p).mm l) (hi : i ∈ l)
    (hpages : ((k.procs p).mm.mmaps i).length % 4096 = 0) (hpart : Partitions cuts ((k.procs p).mm.mmaps i))
    (hcuts : unmapAll k p cuts = some k₁)
    (hw : sysWunmap k p (BitVec.ofNat 32 ((k.procs p).mm.mmaps i).addr) = some (k₂, 0)) : ¬ SameOutcome k₁ k₂ p :=
  fun h => (piecewise_unmap_spec hwf hi hpages hpart hcuts hw).2.1 h.list

end

/-! ### A region of two pages -/

/-- Two pages are mapped, and the first one is touched. -/
def twoPages : List Op := [.wmap initproc 0x60000000 0x2000 0xD (-1), .fault initproc 0x60000000]

/-- The two pages are unmapped one by one, and the region is still there. -/
theorem piecewise_unmap_never_pages : ∃ k k₁ k₂, runAll (boot 8) twoPages = some k ∧
    unmapAll k 0 [(0x60001000, 0x1000), (0x60000000, 0x1000)] = some k₁ ∧ sysWunmap k 0 0x60000000 = some (k₂, 0) ∧
    ¬ SameOutcome k₁ k₂ 0 := by
  have hrun : ((runAll (boot 8) twoPages).bind fun k =>
      (unmapAll k 0 [(0x60001000, 0x1000), (0x60000000, 0x1000)]).bind fun _ =>
      (sysWunmap k 0 0x60000000).map fun out => decide (out.2 = 0 ∧ (k.procs 0).state = .runnable ∧
        (k.procs 0).mm.mmapHead = some 0 ∧ (k.procs 0).mm.next 0 = none ∧
        (k.procs 0).mm.mmaps 0 = ⟨0x60000000, 0x2000, 0xD, -1, none, 0, 1⟩)) = some true := by
    decide +kernel
  obtain ⟨k, hk, hw⟩ := Option.bind_eq_some_iff.mp hrun
  obtain ⟨k₁, hk₁, hw⟩ := Option.bind_eq_some_iff.mp hw
  obtain ⟨⟨k₂, r⟩, hk₂, hout⟩ := Option.map_eq_some_iff.mp hw
  obtain ⟨rfl, hstate, hhead, hnext, hregion⟩ := of_decide_eq_true hout
  have hreach : Reachable noWpunmap (boot 8) k := by
    apply reachable_of_runAll hk
    intro op hop k
    simp only [twoPages, List.mem_cons, List.not_mem_nil, or_false] at hop
    rcases hop with rfl | rfl <;> simp [noWpunmap]
  obtain ⟨l, ht, hs⟩ := tables_of_reachable (fun _ _ => rfl) hreach 0 (by simp [hstate])
  have hlinked : Linked (k.procs 0).mm.next (k.procs 0).mm.mmapHead [0] none := ⟨hhead, hnext⟩
  obtain rfl : l = [0] := ht.linked.unique hlinked
  refine ⟨k, k₁, k₂, hk, hk₁, hk₂, piecewise_unmap_never (ht.wellFormed (hs rfl)) (List.mem_singleton_self 0)
    (by rw [hregion]; decide) ?_ hk₁ (by rw [hregion]; exact hk₂)⟩
  rw [hregion]
  refine ⟨?_, ?_, by simp⟩
  · intro c hc
    simp only [List.mem_cons, List.not_mem_nil, or_false] at hc
    rcases hc with rfl | rfl <;> decide
  · intro x hlo hhi
    dsimp only at hlo hhi
    by_cases hx : x < 0x60001000
    · exact ⟨(0x60000000, 0x1000), by simp, by simpa using hlo, by simpa using hx⟩
    · exact ⟨(0x60001000, 0x1000), by simp, by simpa using hx, by simpa using hhi⟩

/-- One call for the whole region leaves it with length 0 behind its own end, and there is then no room for a mapping
across that address. -/
theorem whole_unmap_leaves_region : ∃ k k₁ k₂, runAll (boot 8) twoPages = some k ∧
    sysWpunmap k 0 0x60000000 0x2000 = some (k₁, 0) ∧ sysWunmap k 0 0x60000000 = some (k₂, 0) ∧
    ¬ SameOutcome k₁ k₂ 0 ∧
    (sysWmap k₁ 0 0x60001000 0x2000 0xD (-1)).map Prod.snd = some (-1) ∧
    (sysWmap k₂ 0 0x60001000 0x2000 0xD (-1)).map Prod.snd = some 0x60001000 := by
  have hrun : ((runAll (boot 8) twoPages).bind fun k => (sysWpunmap k 0 0x60000000 0x2000).bind fun a =>
      (sysWunmap k 0 0x60000000).map fun b => decide (a.2 = 0 ∧ b.2 = 0 ∧
        (a.1.procs 0).mm.totalMmaps = 1 ∧ (b.1.procs 0).mm.totalMmaps = 0 ∧
        (sysWmap a.1 0 0x60001000 0x2000 0xD (-1)).map Prod.snd = some (-1) ∧
        (sysWmap b.1 0 0x60001000 0x2000 0xD (-1)).map Prod.snd = some 0x60001000)) = some true := by
    decide +kernel
  obtain ⟨k, hk, hw⟩ := Option.bind_eq_some_iff.mp hrun
  obtain ⟨⟨k₁, r₁⟩, hk₁, hw⟩ := Option.bind_eq_some_iff.mp hw
  obtain ⟨⟨k₂, r₂⟩, hk₂, hout⟩ := Option.map_eq_some_iff.mp hw
  obtain ⟨rfl, rfl, h₁, h₂, hmaps⟩ := of_decide_eq_true hout
  exact ⟨k, k₁, k₂, hk, hk₁, hk₂, fun h => absurd (h₁.symm.trans (h.total.trans h₂)) (by decide), hmaps⟩

end SdeSystems.Wmap
