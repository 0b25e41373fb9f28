import SdeSystems.Wmap.WellFormed

/-!
# Ranges that no mapping contains

`wpunmap` compares the sum `addr + length` of 32 bits with the ends of the regions. Where the sum
does not wrap around, a range that no region contains is rejected and nothing changes. Where it
does, the search takes the first region that ends at or behind the wrapped end, no page is
unmapped, and the region is cut or split with lengths that make no sense.
-/

namespace SdeSystems.Wmap

open Lib Function

variable {k : Kernel} {p : Fin 64} {l : List (Fin 16)} {mm : Mmaps} {i : Fin 16} {addr length : BitVec 32}

/-- The range lies in one region of the list; the sums are those of the integers. -/
def Contained (mm : Mmaps) (l : List (Fin 16)) (addr : ℕ) (length : ℤ) : Prop :=
  ∃ i ∈ l, (mm.mmaps i).addr ≤ addr ∧ addr + length ≤ (mm.mmaps i).addr + (mm.mmaps i).length

/-- `wpunmap` fails and changes nothing unless a region contains the range, and it leaves regions
that are in range, of no negative length and without a common page. -/
structure Rejects (k : Kernel) (p : Fin 64) (l : List (Fin 16)) (addr length : BitVec 32) : Prop where
  /-- A range that no region contains is rejected. -/
  rejected : ¬ Contained (k.procs p).mm l addr.toNat length.toInt → sysWpunmap k p addr length = some (k, -1)
  /-- The table is in order afterwards. -/
  inOrder : ∀ k' ret, sysWpunmap k p addr length = some (k', ret) → ∃ l', Table (k'.procs p).mm l'

/-- The range begins and ends at a page, wraps around, and its wrapped end is the end of a region,
or lies below one while a slot is free. -/
structure WrapsInto (mm : Mmaps) (l : List (Fin 16)) (addr : ℕ) (length : ℤ) : Prop where
  /-- It begins at a page. -/
  aligned : addr % 4096 = 0
  /-- It ends at one. -/
  stop : (addr + length) % 4096 = 0
  /-- It wraps around. -/
  wraps : 2 ^ 32 ≤ addr + length
  /-- There is a region to cut or to split. -/
  found : ∃ i ∈ l, addr + length - 2 ^ 32 ≤ (mm.mmaps i).addr + (mm.mmaps i).length ∧
    (addr + length - 2 ^ 32 = (mm.mmaps i).addr + (mm.mmaps i).length ∨ findUnusedMmap mm ≠ none)

theorem toInt_lt_two_pow (x : BitVec 32) : x.toInt < 2 ^ 31 := by
  simpa using BitVec.toInt_lt (x := x)

/-- A write of a region's own fields. -/
theorem Mmaps.set_eq_self : mm.set i { mm.mmaps i with nLoadedPages := (mm.mmaps i).nLoadedPages - 0 } = mm := by
  simp [Mmaps.set]

/-! ### Ranges that do not wrap around -/

/-- A range that does not wrap around and that no region contains is rejected. -/
theorem sysWpunmap_of_not_contained (ht : Table (k.procs p).mm l) (hwrap : NoWrap addr length)
    (hc : ¬ Contained (k.procs p).mm l addr.toNat length.toInt) : sysWpunmap k p addr length = some (k, -1) := by
  unfold NoWrap at hwrap
  unfold sysWpunmap
  dsimp only
  split_ifs with hstop hlen hal
  · rfl
  · rfl
  · rfl
  · rcases ht.toListed.find (fun r => decide (r.addr ≤ addr.toNat ∧ u32 (addr.toNat + length.toInt) ≤ r.stop)) with
      ⟨hfind, -⟩ | ⟨l₁, i, l₂, hl, -, hi, -⟩
    · rw [hfind]
    · -- the region that is found would contain the range
      simp only [decide_eq_true_eq] at hi
      have hil : i ∈ l := by simp [hl]
      have hend := (ht.region i hil).stop_eq
      refine absurd ⟨i, hil, hi.1, ?_⟩ hc
      have hu : (u32 (addr.toNat + length.toInt) : ℤ) = addr.toNat + length.toInt := by
        unfold u32
        omega
      omega

/-! ### Ranges that wrap around -/

section

variable (ht : Table (k.procs p).mm l) (hal : addr.toNat % 4096 = 0) (hstop : (addr.toNat + length.toInt) % 4096 = 0)
  (hwrap : 2 ^ 32 ≤ addr.toNat + length.toInt)

include hwrap

theorem u32_of_wraps : (u32 (addr.toNat + length.toInt) : ℤ) = addr.toNat + length.toInt - 2 ^ 32 := by
  have := toInt_lt_two_pow length
  have := addr.isLt
  unfold u32
  omega

/-- The loop over the pages of such a range has no turn. -/
theorem dropPages_of_wraps {back free : Bool} {r : Region} (s : Drop) :
    dropPages back free r addr.toNat (u32 (addr.toNat + length.toInt)) s = some s := by
  have hu := u32_of_wraps hwrap
  have := toInt_lt_two_pow length
  have hle : u32 (addr.toNat + length.toInt) ≤ addr.toNat := by omega
  have hloop : forPages addr.toNat (u32 (addr.toNat + length.toInt)) (dropPage back free r) s = some (s, true) := by
    rw [forPages_eq _ _ (by omega), pageRange_of_le hle]
    rfl
  rw [dropPages, hloop]
  rfl

include ht hal hstop

/-- What `wpunmap` does with such a range: it goes on to the end with the first region that ends at or
behind the wrapped end. -/
theorem sysWpunmap_of_wraps :
    ((∀ i ∈ l, ((k.procs p).mm.mmaps i).addr + ((k.procs p).mm.mmaps i).length <
        addr.toNat + length.toInt - 2 ^ 32) ∧ sysWpunmap k p addr length = some (k, -1)) ∨
      ∃ l₁ i l₂, l = l₁ ++ i :: l₂ ∧
        (∀ j ∈ l₁, ((k.procs p).mm.mmaps j).addr + ((k.procs p).mm.mmaps j).length <
          addr.toNat + length.toInt - 2 ^ 32) ∧
        addr.toNat + length.toInt - 2 ^ 32 ≤ ((k.procs p).mm.mmaps i).addr + ((k.procs p).mm.mmaps i).length ∧
        sysWpunmap k p addr length =
          match shrink (k.procs p).mm (k.procs p).pgdir k.fs i addr.toNat length.toInt with
          | none => none
          | some none => some (k, -1)
          | some (some (mm, fs)) => some (k.put p { k.procs p with mm := mm } k.mem fs, 0) := by
  have hu := u32_of_wraps hwrap
  have hlen := toInt_lt_two_pow length
  have haddr := addr.isLt
  have hchecks : u32 (addr.toNat + length.toInt) % 4096 = 0 ∧ ¬ length.toInt ≤ 0 := by omega
  -- every region begins below the range
  have hfound (j : Fin 16) (hj : j ∈ l) : decide (((k.procs p).mm.mmaps j).addr ≤ addr.toNat ∧
      u32 (addr.toNat + length.toInt) ≤ ((k.procs p).mm.mmaps j).stop) = decide (addr.toNat + length.toInt - 2 ^ 32 ≤
        ((k.procs p).mm.mmaps j).addr + ((k.procs p).mm.mmaps j).length) := by
    have hr := ht.region j hj
    have hend := hr.stop_eq
    obtain ⟨-, h₀, -, hhi⟩ := hr
    rw [decide_eq_decide]
    omega
  unfold sysWpunmap
  simp only [hchecks.1, hchecks.2, hal, ne_eq, not_true_eq_false, if_false]
  rcases ht.toListed.find (fun r => decide (r.addr ≤ addr.toNat ∧ u32 (addr.toNat + length.toInt) ≤ r.stop)) with
    ⟨hfind, hnone⟩ | ⟨l₁, i, l₂, hl, hbefore, hi, hfind⟩
  · refine .inl ⟨?_, by rw [hfind]⟩
    intro i hi
    have := hnone i hi
    rw [hfound i hi, decide_eq_false_iff_not] at this
    omega
  · refine .inr ⟨l₁, i, l₂, hl, ?_, ?_, ?_⟩
    · intro j hj
      have := hbefore j hj
      rw [hfound j (by simp [hl, hj]), decide_eq_false_iff_not] at this
      omega
    · rwa [hfound i (by simp [hl]), decide_eq_true_eq] at hi
    · simp only [hfind, dropPages_of_wraps hwrap, Mmaps.set_eq_self]
      cases shrink (k.procs p).mm (k.procs p).pgdir k.fs i addr.toNat length.toInt with
      | none => rfl
      | some out =>
        cases out with
        | none => exact congrArg (fun k => some (k, -1)) Kernel.put_self
        | some out => rfl

/-- In the end the region is cut or split, unless it ends behind the range and no slot is free. -/
theorem shrink_of_wraps (hi : i ∈ l) :
    (shrink (k.procs p).mm (k.procs p).pgdir k.fs i addr.toNat length.toInt = some none) ↔
      addr.toNat + length.toInt - 2 ^ 32 ≠ ((k.procs p).mm.mmaps i).addr + ((k.procs p).mm.mmaps i).length ∧
        findUnusedMmap (k.procs p).mm = none := by
  have hu := u32_of_wraps hwrap
  have hlen := toInt_lt_two_pow length
  have hr := ht.region i hi
  have hend := hr.stop_eq
  obtain ⟨-, h₀, -, hhi⟩ := hr
  have hne : ¬ addr.toNat = ((k.procs p).mm.mmaps i).addr := by omega
  have hback : u32 (addr.toNat + length.toInt) = ((k.procs p).mm.mmaps i).stop ↔
      addr.toNat + length.toInt - 2 ^ 32 = ((k.procs p).mm.mmaps i).addr + ((k.procs p).mm.mmaps i).length := by
    omega
  unfold shrink
  simp only [hne, if_false, hback]
  split_ifs with hb
  · exact ⟨fun h => by simp at h, fun h => absurd hb h.1⟩
  · cases hj : findUnusedMmap (k.procs p).mm with
    | none => exact ⟨fun _ => ⟨hb, rfl⟩, fun _ => rfl⟩
    | some j =>
      simp only [reduceCtorEq, and_false, iff_false]
      split <;> simp

end

/-- The regions of a sorted list end in the order of the list. -/
theorem WellFormed.stop_le {l₁ l₂ : List (Fin 16)} (h : WellFormed mm (l₁ ++ i :: l₂)) {j : Fin 16} (hj : j ∈ l₂) :
    (mm.mmaps i).addr + (mm.mmaps i).length ≤ (mm.mmaps j).addr := by
  have hsorted := (List.pairwise_cons.mp (List.pairwise_append.mp h.sorted).2.1).1 j hj
  have hne : i ≠ j := fun hij => by simp [hij] at hsorted
  have hi₀ := (h.region i (by simp)).2.1
  have hapart := h.table.apart i (by simp) j (by simp [hj]) hne
  unfold Region.Apart Region.pageEnd at hapart
  omega

/-- **`wpunmap` rejects a range that no mapping contains**, and leaves a table in order, exactly
where the range does not wrap around into a region that can be cut or split. -/
theorem wpunmap_rejects_iff (h : WellFormed (k.procs p).mm l) :
    Rejects k p l addr length ↔ ¬ WrapsInto (k.procs p).mm l addr.toNat length.toInt := by
  have ht := h.table
  constructor
  · rintro hrej ⟨hal, hstop, hwrap, i, hi, hle, hcut⟩
    have hlen := toInt_lt_two_pow length
    have hc : ¬ Contained (k.procs p).mm l addr.toNat length.toInt := by
      rintro ⟨j, hj, -, hhi⟩
      have := (h.region j hj).2.2.2
      omega
    have hfail := hrej.rejected hc
    rcases sysWpunmap_of_wraps ht hal hstop hwrap with ⟨hnone, -⟩ | ⟨l₁, j, l₂, hl, hbefore, hj, hrun⟩
    · have := hnone i hi
      omega
    · -- the region that is found is cut or split, and the call returns 0
      have hend := shrink_of_wraps ht hal hstop hwrap (i := j) (by simp [hl])
      rw [hrun] at hfail
      have hfull : shrink (k.procs p).mm (k.procs p).pgdir k.fs j addr.toNat length.toInt = some none := by
        revert hfail
        split
        · simp
        · simp_all
        · simp
      obtain ⟨hne, hslot⟩ := hend.mp hfull
      have heq := hcut.resolve_right (by simp [hslot])
      subst hl
      rcases List.mem_append.mp hi with hi | hi
      · have := hbefore i hi
        omega
      · rcases List.mem_cons.mp hi with rfl | hi
        · exact hne heq
        · have := h.stop_le hi
          have := (h.region i (by simp [hi])).2.1
          omega
  · intro hok
    by_cases hwrap : NoWrap addr length
    · refine ⟨sysWpunmap_of_not_contained ht hwrap, ?_⟩
      intro k' ret hw
      obtain ⟨pr, mem, fs, l', rfl, ht'⟩ := wpunmap_table ht hwrap hw
      exact ⟨l', by simpa using ht'⟩
    · -- a range that wraps around and changes nothing
      have hfail : sysWpunmap k p addr length = some (k, -1) := by
        unfold NoWrap at hwrap
        by_cases hal : addr.toNat % 4096 = 0 ∧ (addr.toNat + length.toInt) % 4096 = 0
        · obtain ⟨hal, hstop⟩ := hal
          rcases sysWpunmap_of_wraps ht hal hstop (by omega) with ⟨-, hrun⟩ | ⟨l₁, i, l₂, hl, -, hi, hrun⟩
          · exact hrun
          · have hil : i ∈ l := by simp [hl]
            have hfull := (shrink_of_wraps ht hal hstop (by omega) hil).mpr ?_
            · rw [hrun, hfull]
            · by_contra hcut
              refine hok ⟨hal, hstop, by omega, i, hil, hi, ?_⟩
              tauto
        · unfold sysWpunmap u32
          dsimp only
          split_ifs
          · rfl
          · rfl
          · rfl
          · omega
      refine ⟨fun _ => hfail, ?_⟩
      intro k' ret hw
      rw [hfail] at hw
      obtain ⟨rfl, -⟩ := Prod.mk.inj (Option.some.inj hw)
      exact ⟨l, ht⟩

/-- One page is mapped at `MMAPBASE`. -/
theorem onePage_wellFormed : ∃ k, (Op.wmap 0 0x60000000 0x1000 0xD (-1)).run (boot 8) = some k ∧
    ∃ l, WellFormed (k.procs 0).mm l := by
  obtain ⟨k, hk⟩ : ∃ k, (Op.wmap 0 0x60000000 0x1000 0xD (-1)).run (boot 8) = some k := ⟨_, rfl⟩
  have hstate : ((Op.wmap 0 0x60000000 0x1000 0xD (-1)).run (boot 8)).map (fun k => (k.procs 0).state) =
      some .runnable := rfl
  rw [hk] at hstate
  have hrun : Reachable noWpunmap (boot 8) k :=
    .single ⟨_, fun p hp => by obtain rfl : 0 = p := by simpa [Op.proc] using hp
                               rfl, by simp [noWpunmap], hk⟩
  have hp : (k.procs 0).state = .runnable := Option.some.inj hstate
  obtain ⟨l, ht, hs⟩ := tables_of_reachable (fun _ _ => rfl) hrun 0 (by simp [hp])
  exact ⟨k, hk, l, ht.wellFormed (hs rfl)⟩

/-- The page behind the mapping is rejected. -/
theorem wpunmap_rejects_behind : ∃ k l, WellFormed (k.procs 0).mm l ∧ Rejects k 0 l 0x60001000 0x1000 := by
  obtain ⟨k, -, l, hl⟩ := onePage_wellFormed
  refine ⟨k, l, hl, (wpunmap_rejects_iff hl).mpr ?_⟩
  intro h
  have := h.wraps
  revert this
  decide

/-- A range from the last page of all around to the end of the mapping is not rejected: the call
returns 0. -/
theorem wpunmap_accepts_wrap : ∃ k l, WellFormed (k.procs 0).mm l ∧
    ¬ Contained (k.procs 0).mm l 0xFFFFF000 0x60002000 ∧ ∃ k', sysWpunmap k 0 0xFFFFF000 0x60002000 = some (k', 0) ∧
      ((k'.procs 0).mm.mmaps 0).length < 0 := by
  obtain ⟨k, hk, l, hl⟩ := onePage_wellFormed
  have hret : ((Op.wmap 0 0x60000000 0x1000 0xD (-1)).run (boot 8)).bind (fun k =>
      (sysWpunmap k 0 0xFFFFF000 0x60002000).map fun out => (((out.1.procs 0).mm.mmaps 0).length, out.2)) =
        some (-0x60001000, 0) := rfl
  rw [hk] at hret
  obtain ⟨⟨k', r⟩, hw, hk'⟩ := Option.map_eq_some_iff.mp hret
  obtain ⟨hlen, rfl⟩ := Prod.mk.inj hk'
  dsimp only at hlen
  refine ⟨k, l, hl, ?_, k', hw, by omega⟩
  rintro ⟨i, hi, -, hhi⟩
  have := (hl.region i hi).2.2.2
  omega

end SdeSystems.Wmap
