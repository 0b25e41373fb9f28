import SdeSystems.Wmap.WellFormed
import Mathlib.Order.Bounds.Basic
import Mathlib.Order.Interval.Set.Disjoint
import Mathlib.Order.CompletePartialOrder
import Mathlib.Data.Int.ConditionallyCompleteOrder
import Mathlib.Order.ConditionallyCompleteLattice.Basic

/-!
# Where `wmap` puts a mapping

With `MAP_FIXED` the address is taken exactly where the request is valid and its bytes are free.
Without it the search of `find_addr_place_mmap` yields the first page of the range from which on
there is room, and fails only where there is none. A call that fails changes nothing, except that
it keeps its reference to the file where it has found the arguments invalid.
-/

namespace SdeSystems.Wmap

open Lib Function

/-! ### The call -/

/-- The descriptor as it stands in a region: -1 where it names no open file. -/
def regionFd (cur : Proc) (fd : ℤ) : ℤ := if (argfd cur fd).isSome then fd else -1

/-- `wmap` duplicates the file first. -/
theorem sysWmap_eq (k : Kernel) (p : Fin 64) (addr length flags fd : BitVec 32) :
    sysWmap k p addr length flags fd = (dupIf k.fs (argfd (k.procs p) fd.toInt)).bind fun fs =>
      placeMap { k with fs := fs } p addr.toNat length.toInt flags (regionFd (k.procs p) fd.toInt)
        (argfd (k.procs p) fd.toInt) := by
  unfold sysWmap regionFd
  cases argfd (k.procs p) fd.toInt with
  | none => rfl
  | some f =>
    simp only [dupIf]
    cases filedup k.fs f <;> rfl

/-! ### Room for a mapping -/

section

variable {mm mm' : Mmaps} {l l₁ l₂ : List (Fin 16)} {i m : Fin 16} {length : ℤ} {a b : ℕ}

/-- There is room for `length` bytes from the page `a` on. -/
structure Room (mm : Mmaps) (l : List (Fin 16)) (length : ℤ) (a : ℕ) : Prop where
  /-- It is the address of a page. -/
  aligned : a % 4096 = 0
  /-- It is not below `MMAPBASE`. -/
  lo : 0x60000000 ≤ a
  /-- The end is not above `KERNBASE`. -/
  hi : a + length ≤ 0x80000000
  /-- No region has one of the bytes. -/
  disjoint : ∀ i ∈ l, Disjoint (Set.Ico (a : ℤ) (a + length))
    (Set.Ico ((mm.mmaps i).addr : ℤ) ((mm.mmaps i).addr + (mm.mmaps i).length))

/-- The region has one of the `length` bytes from `a` on. -/
def Region.Meets (r : Region) (length : ℤ) (a : ℕ) : Prop := (a : ℤ) < r.addr + r.length ∧ (r.addr : ℤ) < a + length

theorem Region.disjoint_iff {r : Region} (hr : 0 < r.length) (hlen : 0 < length) :
    Disjoint (Set.Ico (a : ℤ) (a + length)) (Set.Ico (r.addr : ℤ) (r.addr + r.length)) ↔ ¬ r.Meets length a := by
  rw [Set.Ico_disjoint_Ico, min_def, max_def]
  unfold Region.Meets
  split <;> split <;> omega

theorem room_iff (hs : Strict mm l) (hlen : 0 < length) : Room mm l length a ↔
    (a % 4096 = 0 ∧ 0x60000000 ≤ a ∧ a + length ≤ 0x80000000) ∧ ∀ i ∈ l, ¬ (mm.mmaps i).Meets length a := by
  constructor
  · rintro ⟨hal, hlo, hhi, hd⟩
    exact ⟨⟨hal, hlo, hhi⟩, fun i hi => (Region.disjoint_iff (hs.pos i hi) hlen).mp (hd i hi)⟩
  · rintro ⟨⟨hal, hlo, hhi⟩, hd⟩
    exact ⟨hal, hlo, hhi, fun i hi => (Region.disjoint_iff (hs.pos i hi) hlen).mpr (hd i hi)⟩

/-- The overlap check of `fix_addr_place_mmap` finds a region that has one of the bytes. -/
theorem overlap_iff {r : Region} (hr : r.Ok) (hlen : 0 < length) (hhi : a + length ≤ 0x80000000) :
    (a < r.stop ∧ r.addr < u32 (a + length)) ↔ r.Meets length a := by
  have hend := hr.stop_eq
  unfold Region.Meets u32
  omega

theorem find_overlap (ht : Table mm l) (hlen : 0 < length) (hhi : a + length ≤ 0x80000000) :
    (∃ prev, mm.find (fun r => decide (a < r.stop ∧ r.addr < u32 (a + length))) = some (prev, none)) ↔
      ∀ i ∈ l, ¬ (mm.mmaps i).Meets length a := by
  rcases ht.toListed.find (fun r => decide (a < r.stop ∧ r.addr < u32 (a + length))) with
    ⟨hfind, hno⟩ | ⟨l₁, i, l₂, rfl, -, hi, hfind⟩
  · refine ⟨?_, fun _ => ⟨_, hfind⟩⟩
    intro _ i hi hmeets
    have := hno i hi
    exact (of_decide_eq_false this) ((overlap_iff (ht.region i hi) hlen hhi).mpr hmeets)
  · refine ⟨fun ⟨prev, h⟩ => ?_, ?_⟩
    · rw [hfind] at h
      cases h
    · intro hno
      have hil : i ∈ l₁ ++ i :: l₂ := by simp
      exact absurd ((overlap_iff (ht.region i hil) hlen hhi).mp (of_decide_eq_true hi)) (hno i hil)

/-- A slot is free where there are fewer regions than slots. -/
theorem findUnusedMmap_isSome (h : Listed mm l) (hlen : l.length < 16) : ∃ m, findUnusedMmap mm = some m := by
  cases hu : findUnusedMmap mm with
  | some m => exact ⟨m, rfl⟩
  | none =>
    -- all slots would be in the list
    have hall : ∀ i, i ∈ l := fun i => (h.used i).mpr (findUnusedMmap_none hu i)
    have := (List.nodup_finRange 16).subperm (fun i _ => hall i) |>.length_le
    simp at this
    omega

/-- `fix_addr_place_mmap` takes the address where no region has one of the bytes. -/
theorem fixAddrPlaceMmap_free (ht : Table mm l) (hslots : l.length < 16) (hlen : 0 < length)
    (hhi : a + length ≤ 0x80000000) (hfree : ∀ i ∈ l, ¬ (mm.mmaps i).Meets length a) :
    ∃ mm' m, fixAddrPlaceMmap mm a length = some (mm', some m) ∧ findUnusedMmap mm = some m ∧
      Places mm l a length (mm', some m) := by
  obtain ⟨prev, hfind⟩ := (find_overlap ht hlen hhi).mpr hfree
  obtain ⟨m, hm⟩ := findUnusedMmap_isSome ht.toListed hslots
  obtain ⟨⟨mm', x⟩, hout, hplaces⟩ := fixAddrPlaceMmap_spec ht.toListed a length
  have hboth := hout
  simp only [fixAddrPlaceMmap, hfind, hm] at hboth
  obtain ⟨mm'', -, hpair⟩ := Option.map_eq_some_iff.mp hboth
  obtain ⟨rfl, rfl⟩ := Prod.mk.inj hpair
  exact ⟨mm'', m, hout, hm, hplaces⟩

theorem fixAddrPlaceMmap_taken (ht : Table mm l) (hlen : 0 < length) (hhi : a + length ≤ 0x80000000) (hi : i ∈ l)
    (hmeets : (mm.mmaps i).Meets length a) : fixAddrPlaceMmap mm a length = some (mm, none) := by
  rcases ht.toListed.find (fun r => decide (a < r.stop ∧ r.addr < u32 (a + length))) with
    ⟨hfind, -⟩ | ⟨_, j, _, -, -, -, hfind⟩
  · exact absurd hmeets ((find_overlap ht hlen hhi).mp ⟨_, hfind⟩ i hi)
  · simp only [fixAddrPlaceMmap, hfind]

/-! ### The first gap -/

/-- The search for a gap: behind the regions of `done`, each page of the range below `start` begins bytes that one
of them has. -/
theorem findStart_first (ht : Table mm l) (hs : Strict mm l) (hpos : 0 < length) (hlen : length < 2 ^ 31) {fuel : ℕ}
    {cur : Option (Fin 16)} {start : ℕ} {done rest : List (Fin 16)} (hl : l = done ++ rest)
    (hrest : Linked mm.next cur rest none) (hf : rest.length ≤ fuel) (hlo : 0x60000000 ≤ start)
    (hhi : start ≤ 0x80000000) (hal : start % 4096 = 0)
    (hdone : ∀ i ∈ done, (mm.mmaps i).addr + (mm.mmaps i).length ≤ start)
    (hbelow : ∀ b, b % 4096 = 0 → 0x60000000 ≤ b → b < start → ∃ i ∈ l, (mm.mmaps i).Meets length b) :
    ∃ a, findStart mm length fuel cur start = some a ∧ (a % 4096 = 0 ∧ 0x60000000 ≤ a ∧ a ≤ 0x80000000) ∧
      (∀ i ∈ l, ¬ (mm.mmaps i).Meets length a) ∧
      ∀ b, b % 4096 = 0 → 0x60000000 ≤ b → b < a → ∃ i ∈ l, (mm.mmaps i).Meets length b := by
  induction rest generalizing fuel cur start done with
  | nil =>
    obtain rfl : cur = none := hrest
    refine ⟨start, by cases fuel <;> rfl, ⟨hal, hlo, hhi⟩, fun i hi => ?_, hbelow⟩
    have := hdone i (by simpa [hl] using hi)
    unfold Region.Meets
    omega
  | cons i rest ih =>
    obtain ⟨rfl, hrest⟩ := hrest
    obtain ⟨fuel, rfl⟩ : ∃ f, fuel = f + 1 := ⟨fuel - 1, by simp at hf; omega⟩
    have hil : i ∈ l := by simp [hl]
    have hok := ht.region i hil
    have hstop := hok.stop_eq
    obtain ⟨-, h₀, h₁, h₂⟩ := hok
    by_cases hgap : u32 (start + length) ≤ (mm.mmaps i).addr
    · -- the gap is before `i`, and all later regions are behind it
      refine ⟨start, by simp only [findStart, if_pos hgap], ⟨hal, hlo, hhi⟩, ?_, hbelow⟩
      intro j hj
      unfold u32 at hgap
      unfold Region.Meets
      rw [hl, List.mem_append, List.mem_cons] at hj
      rcases hj with hj | rfl | hj
      · have := hdone j hj
        omega
      · omega
      · have hsorted := hl ▸ hs.sorted
        have := (List.pairwise_cons.mp (List.pairwise_append.mp hsorted).2.1).1 j hj
        omega
    · simp only [findStart, if_neg hgap]
      unfold u32 at hgap
      refine ih (show l = (done ++ [i]) ++ rest by simp [hl]) hrest (by simpa using hf) ?_ ?_ ?_ ?_ ?_
      · unfold pgroundup
        split_ifs <;> omega
      · unfold pgroundup
        split_ifs <;> omega
      · unfold pgroundup
        split_ifs <;> omega
      · intro j hj
        have hle : (mm.mmaps j).addr + (mm.mmaps j).length ≤ start ∨ j = i := by
          rcases List.mem_append.mp hj with hj | hj
          · exact .inl (hdone j hj)
          · exact .inr (List.mem_singleton.mp hj)
        unfold pgroundup
        rcases hle with hle | rfl <;> split_ifs <;> omega
      · -- a page between the old and the new start lies before the end of `i`
        intro b hb hblo hlt
        by_cases hbs : b < start
        · exact hbelow b hb hblo hbs
        · refine ⟨i, hil, ?_⟩
          unfold Region.Meets
          unfold pgroundup at hlt
          split_ifs at hlt <;> omega

end

/-! ### `wmap` -/

section

variable {k k' : Kernel} {p : Fin 64} {l : List (Fin 16)} {addr length flags fd : BitVec 32} {ret : ℤ}

/-- What `wmap` asks of the arguments other than the address. -/
structure ValidRequest (cur : Proc) (length flags fd : BitVec 32) : Prop where
  /-- The length is positive. -/
  pos : 0 < length.toInt
  /-- Exactly one of `MAP_SHARED` and `MAP_PRIVATE` is set. -/
  kind : Xor (has flags mapShared = true) (has flags mapPrivate = true)
  /-- The mapping is anonymous, or the descriptor names an open file. -/
  file : has flags mapAnonymous = true ∨ ∃ f, argfd cur fd.toInt = some f

/-- The region `r` has come into the list, and nothing else has changed. -/
structure Adds (k k' : Kernel) (p : Fin 64) (l : List (Fin 16)) (r : Region) : Prop where
  /-- It stands in a slot that was free, and the list is in order. -/
  table : ∃ l₁ m l₂, l = l₁ ++ l₂ ∧ m ∉ l ∧ WellFormed (k'.procs p).mm (l₁ ++ m :: l₂) ∧ (k'.procs p).mm.mmaps m = r ∧
    ∀ j ≠ m, (k'.procs p).mm.mmaps j = (k.procs p).mm.mmaps j
  /-- The page table. -/
  pgdir : (k'.procs p).pgdir = (k.procs p).pgdir
  /-- The other processes. -/
  others : ∀ q ≠ p, k'.procs q = k.procs q

/-- The region that `wmap` makes. -/
def newRegion (cur : Proc) (a : ℕ) (length flags fd : BitVec 32) : Region :=
  ⟨a, length.toInt, flags, regionFd cur fd.toInt, argfd cur fd.toInt, 0, 0⟩

/-- A valid request that finds its place. -/
theorem sysWmap_placed {fs : Fs} {a : ℕ} {mm : Mmaps} {m : Fin 16} (hdup : dupIf k.fs (argfd (k.procs p) fd.toInt) = some fs)
    (hvalid : validateInput addr.toNat length.toInt flags (argfd (k.procs p) fd.toInt) = true)
    (hslots : (k.procs p).mm.totalMmaps < 16)
    (hplace : (if has flags mapFixed then fixAddrPlaceMmap (k.procs p).mm addr.toNat length.toInt
      else findAddrPlaceMmap (k.procs p).mm length.toInt) = some (mm, some m))
    (haddr : (mm.mmaps m).addr = a) :
    sysWmap k p addr length flags fd = some (k.put p { k.procs p with
      mm := placed mm m (newRegion (k.procs p) a length flags fd) } k.mem fs, (a : ℤ)) := by
  rw [sysWmap_eq, hdup]
  simp only [Option.bind_some, placeMap, hvalid, Bool.not_true, Bool.false_eq_true, if_false, not_le.mpr hslots, hplace,
    haddr, Mmaps.set, update_self]
  rfl

/-- A valid request that finds none. -/
theorem sysWmap_failed {fs : Fs} {mm : Mmaps} (hdup : dupIf k.fs (argfd (k.procs p) fd.toInt) = some fs)
    (hvalid : validateInput addr.toNat length.toInt flags (argfd (k.procs p) fd.toInt) = true)
    (hplace : 16 ≤ (k.procs p).mm.totalMmaps ∨ (if has flags mapFixed then
      fixAddrPlaceMmap (k.procs p).mm addr.toNat length.toInt else findAddrPlaceMmap (k.procs p).mm length.toInt) =
        some (mm, none)) :
    sysWmap k p addr length flags fd = some (k, -1) := by
  rw [sysWmap_eq, hdup]
  simp only [Option.bind_some, placeMap, hvalid, Bool.not_true, Bool.false_eq_true, if_false]
  by_cases hslots : 16 ≤ (k.procs p).mm.totalMmaps
  · rw [if_pos hslots, closeIf_dupIf hdup]
    rfl
  · rw [if_neg hslots, hplace.resolve_left hslots]
    dsimp only
    rw [closeIf_dupIf hdup]
    rfl

/-- A request that is not valid. -/
theorem sysWmap_invalid {fs : Fs} (hdup : dupIf k.fs (argfd (k.procs p) fd.toInt) = some fs)
    (hvalid : validateInput addr.toNat length.toInt flags (argfd (k.procs p) fd.toInt) = false) :
    sysWmap k p addr length flags fd = some ({ k with fs := fs }, -1) := by
  rw [sysWmap_eq, hdup]
  simp only [Option.bind_some, placeMap, hvalid, Bool.not_false, if_true]

theorem validateInput_eq : validateInput addr.toNat length.toInt flags (argfd (k.procs p) fd.toInt) = true ↔
    ValidRequest (k.procs p) length flags fd ∧ (has flags mapFixed = true →
      addr.toNat % 4096 = 0 ∧ 0x60000000 ≤ addr.toNat ∧ addr.toNat + length.toInt ≤ 0x80000000) := by
  have hlen : length.toInt < 2 ^ 31 := by
    simpa using BitVec.toInt_lt (x := length)
  have hkind : has flags mapShared ≠ has flags mapPrivate ↔
      Xor (has flags mapShared = true) (has flags mapPrivate = true) := by
    cases has flags mapShared <;> cases has flags mapPrivate <;> simp [Xor]
  have hfile : argfd (k.procs p) fd.toInt ≠ none ↔ ∃ f, argfd (k.procs p) fd.toInt = some f :=
    Option.ne_none_iff_exists'
  rw [validateInput_iff, hkind, hfile]
  constructor
  · rintro ⟨hpos, hk, hf, hfix⟩
    refine ⟨⟨hpos, hk, hf⟩, ?_⟩
    intro h
    obtain ⟨hal, hlo, hlt, hhi⟩ := hfix h
    unfold u32 at hhi
    exact ⟨hal, hlo, by omega⟩
  · rintro ⟨⟨hpos, hk, hf⟩, hfix⟩
    refine ⟨hpos, hk, hf, ?_⟩
    intro h
    obtain ⟨hal, hlo, hhi⟩ := hfix h
    unfold u32
    omega

/-- The region that is placed comes into the list. -/
theorem adds_of_places {fs : Fs} {a : ℕ} {mm : Mmaps} {m : Fin 16} (hwf : WellFormed (k.procs p).mm l)
    (hpl : Places (k.procs p).mm l a length.toInt (mm, some m)) (hpos : 0 < length.toInt) (hal : a % 4096 = 0)
    (hlo : 0x60000000 ≤ a) (hhi : a + length.toInt ≤ 0x80000000) :
    Adds k (k.put p { k.procs p with mm := placed mm m (newRegion (k.procs p) a length flags fd) } k.mem fs) p l
      (newRegion (k.procs p) a length flags fd) := by
  refine ⟨?_, by simp, fun q hq => by simp [hq]⟩
  have hplaced : ∃ l₁ l₂, l = l₁ ++ l₂ ∧ m ∉ l ∧ (∀ j ≠ m, mm.mmaps j = (k.procs p).mm.mmaps j) ∧
      Table (placed mm m (newRegion (k.procs p) a length flags fd)) (l₁ ++ m :: l₂) ∧
      (true = true → Strict (placed mm m (newRegion (k.procs p) a length flags fd)) (l₁ ++ m :: l₂)) :=
    hwf.table.placed (fun _ => hwf.strict) hpl hpos hal hlo hhi
  obtain ⟨l₁, l₂, hl, hm, hold, ht, hs⟩ := hplaced
  refine ⟨l₁, m, l₂, hl, hm, ?_, ?_, ?_⟩
  · rw [Kernel.put_procs_self]
    exact ht.wellFormed (hs rfl)
  · rw [Kernel.put_procs_self]
    exact update_self ..
  · intro j hj
    rw [Kernel.put_procs_self]
    exact (update_of_ne hj _ _).trans (hold j hj)

theorem Places.addr_eq {mm mm' : Mmaps} {a : ℕ} {n : ℤ} {m : Fin 16} (h : Places mm l a n (mm', Option.some m)) :
    (mm'.mmaps m).addr = a := by
  cases h with
  | some _ _ _ _ hmm => simp [hmm]

theorem toInt_length_lt (length : BitVec 32) : length.toInt < 2 ^ 31 := by
  simpa using BitVec.toInt_lt (x := length)

/-- Where a place is found, it is one that `fix_addr_place_mmap` takes. -/
theorem fixAddrPlaceMmap_of_placed {mm mm' : Mmaps} {a : ℕ} {n : ℤ} {fixed : Bool} {m : Fin 16}
    (h : (if fixed = true then fixAddrPlaceMmap mm a n else findAddrPlaceMmap mm n) = some (mm', some m)) :
    ∃ b, fixAddrPlaceMmap mm b n = some (mm', some m) := by
  cases fixed with
  | true => exact ⟨a, h⟩
  | false =>
    simp only [Bool.false_eq_true, if_false, findAddrPlaceMmap] at h
    split at h
    · cases h
    · rename_i start _
      split at h
      · cases h
      · exact ⟨start, h⟩

/-- A call that succeeds: its request is valid, a place has been found, and the region is there. -/
theorem sysWmap_success (ht : Table (k.procs p).mm l) (h : sysWmap k p addr length flags fd = some (k', ret))
    (hret : ret ≠ -1) : ∃ (fs : Fs) (mm : Mmaps) (m : Fin 16) (a : ℕ),
      dupIf k.fs (argfd (k.procs p) fd.toInt) = some fs ∧
      validateInput addr.toNat length.toInt flags (argfd (k.procs p) fd.toInt) = true ∧
      fixAddrPlaceMmap (k.procs p).mm a length.toInt = some (mm, some m) ∧
      Places (k.procs p).mm l a length.toInt (mm, some m) ∧
      (a % 4096 = 0 ∧ 0x60000000 ≤ a ∧ a + length.toInt ≤ 0x80000000) ∧ ret = a ∧
      k' = k.put p { k.procs p with mm := placed mm m (newRegion (k.procs p) a length flags fd) } k.mem fs := by
  obtain ⟨fs, hdup, hplace⟩ := Option.bind_eq_some_iff.mp ((sysWmap_eq k p addr length flags fd).symm.trans h)
  have hlen := toInt_length_lt length
  have hfailed (h : (closeIf fs (argfd (k.procs p) fd.toInt)).map (fun fs => ({ k with fs := fs }, (-1 : ℤ))) =
      some (k', ret)) : False := by
    obtain ⟨fs', -, hk⟩ := Option.map_eq_some_iff.mp h
    exact hret (congrArg Prod.snd hk).symm
  cases hvalid : validateInput addr.toNat length.toInt flags (argfd (k.procs p) fd.toInt) with
  | false =>
    simp only [placeMap, hvalid, Bool.not_false, if_true, Option.some.injEq, Prod.mk.injEq] at hplace
    exact absurd hplace.2.symm hret
  | true =>
    obtain ⟨hpos, -, -, hfix⟩ := validateInput_iff.mp hvalid
    obtain ⟨⟨mm, m⟩, hout, hpl⟩ := place_spec ht hpos hlen hfix
    simp only [placeMap, hvalid, Bool.not_true, Bool.false_eq_true, if_false, hout] at hplace
    split at hplace
    · exact (hfailed hplace).elim
    · cases m with
      | none => exact (hfailed hplace).elim
      | some m =>
        obtain ⟨a, hp, hal, hlo, hhi⟩ := hpl.resolve_left (by simp)
        obtain ⟨b, hb⟩ := fixAddrPlaceMmap_of_placed hout
        -- both are the address of the region
        obtain ⟨out, hout', hp'⟩ := fixAddrPlaceMmap_spec ht.toListed b length.toInt
        obtain rfl : (mm, some m) = out := Option.some.inj (hb.symm.trans hout')
        obtain rfl : b = a := hp'.addr_eq.symm.trans hp.addr_eq
        simp only [hp.addr_eq, Option.some.injEq, Prod.mk.injEq] at hplace
        obtain ⟨rfl, rfl⟩ := hplace
        exact ⟨fs, mm, m, b, hdup, rfl, hb, hp, ⟨hal, hlo, hhi⟩, by simp [Mmaps.set], rfl⟩

/-- **A mapping at a fixed address** is made exactly where the request is valid, the range is one of the pages for
mappings, a slot is free, and no region has one of its bytes. It is the region that was asked for, and nothing else
changes. -/
theorem fixed_placement_iff (hwf : WellFormed (k.procs p).mm l)
    (hopen : ∀ f, argfd (k.procs p) fd.toInt = some f → 1 ≤ (k.fs.files f).ref) (hfixed : has flags mapFixed = true) :
    ∃ k' ret, sysWmap k p addr length flags fd = some (k', ret) ∧
      (ret ≠ -1 ↔ ValidRequest (k.procs p) length flags fd ∧ Room (k.procs p).mm l length.toInt addr.toNat ∧
        l.length < 16) ∧
      (ret ≠ -1 → ret = addr.toNat ∧ Adds k k' p l (newRegion (k.procs p) addr.toNat length flags fd)) := by
  have ht := hwf.table
  obtain ⟨fs, hdup⟩ := dupIf_isSome hopen
  by_cases hvalid : validateInput addr.toNat length.toInt flags (argfd (k.procs p) fd.toInt) = true
  · obtain ⟨hreq, hrange⟩ := validateInput_eq.mp hvalid
    obtain ⟨hal, hlo, hhi⟩ := hrange hfixed
    have hroom := room_iff (a := addr.toNat) hwf.strict hreq.pos
    by_cases hfits : (∀ i ∈ l, ¬ ((k.procs p).mm.mmaps i).Meets length.toInt addr.toNat) ∧ l.length < 16
    · obtain ⟨mm', m, hplace, -, hpl⟩ := fixAddrPlaceMmap_free ht hfits.2 hreq.pos hhi hfits.1
      refine ⟨_, _, sysWmap_placed hdup hvalid (by have := ht.total; omega) (by rw [if_pos hfixed]; exact hplace) hpl.addr_eq,
        ?_, fun _ => ⟨rfl, adds_of_places hwf hpl hreq.pos hal hlo hhi⟩⟩
      exact ⟨fun _ => ⟨hreq, hroom.mpr ⟨⟨hal, hlo, hhi⟩, hfits.1⟩, hfits.2⟩, fun _ => by omega⟩
    · -- there is no free slot, or a region has one of the bytes
      have hplace : 16 ≤ (k.procs p).mm.totalMmaps ∨ (if has flags mapFixed then
          fixAddrPlaceMmap (k.procs p).mm addr.toNat length.toInt else findAddrPlaceMmap (k.procs p).mm length.toInt) =
            some ((k.procs p).mm, none) := by
        by_cases hslots : l.length < 16
        · right
          rw [if_pos hfixed]
          have hmeets : ∃ i ∈ l, ((k.procs p).mm.mmaps i).Meets length.toInt addr.toNat := by
            by_contra hno
            exact hfits ⟨fun i hi hm => hno ⟨i, hi, hm⟩, hslots⟩
          obtain ⟨i, hi, hmeets⟩ := hmeets
          exact fixAddrPlaceMmap_taken ht hreq.pos hhi hi hmeets
        · left
          have := ht.total
          omega
      refine ⟨_, _, sysWmap_failed hdup hvalid hplace, ⟨fun h => absurd rfl h, fun ⟨_, hr, hslots⟩ => ?_⟩,
        fun h => absurd rfl h⟩
      exact absurd ⟨(hroom.mp hr).2, hslots⟩ hfits
  · refine ⟨_, _, sysWmap_invalid hdup (Bool.eq_false_iff.mpr hvalid), ⟨fun h => absurd rfl h, fun ⟨hreq, hr, _⟩ => ?_⟩, fun h => absurd rfl h⟩
    exact absurd (validateInput_eq.mpr ⟨hreq, fun _ => ⟨hr.aligned, hr.lo, hr.hi⟩⟩) hvalid

/-- **Without `MAP_FIXED` the first page from which on there is room is taken**, and the call fails only where there
is none. The overlap check never rejects what the search has found. -/
theorem first_fit (hwf : WellFormed (k.procs p).mm l)
    (hopen : ∀ f, argfd (k.procs p) fd.toInt = some f → 1 ≤ (k.fs.files f).ref) (hfixed : has flags mapFixed = false)
    (hreq : ValidRequest (k.procs p) length flags fd) (hslots : l.length < 16) :
    (∃ k' ret, sysWmap k p addr length flags fd = some (k', ret) ∧
      ((∃ a : ℕ, ret = a ∧ IsLeast {a | Room (k.procs p).mm l length.toInt a} a ∧
          Adds k k' p l (newRegion (k.procs p) a length flags fd)) ∨
        ret = -1 ∧ ∀ a, ¬ Room (k.procs p).mm l length.toInt a)) ∧
    ∀ a, findStart (k.procs p).mm length.toInt 16 (k.procs p).mm.mmapHead 0x60000000 = some a →
      ¬ 0x80000000 < u32 (a + length.toInt) →
      ∃ prev, (k.procs p).mm.find (fun r => decide (a < r.stop ∧ r.addr < u32 (a + length.toInt))) = some (prev, none) := by
  have ht := hwf.table
  have hlen := toInt_length_lt length
  obtain ⟨fs, hdup⟩ := dupIf_isSome hopen
  obtain ⟨a, hstart, ⟨hal, hlo, hle⟩, hfree, hleast⟩ := findStart_first ht hwf.strict hreq.pos hlen (List.nil_append l).symm
    ht.linked ht.length_le (le_refl 0x60000000) (by omega) (by omega) (by simp) (fun b _ hb hlt => by omega)
  have hvalid : validateInput addr.toNat length.toInt flags (argfd (k.procs p) fd.toInt) = true :=
    validateInput_eq.mpr ⟨hreq, fun h => by rw [hfixed] at h; cases h⟩
  have hroom (b : ℕ) := room_iff (a := b) hwf.strict hreq.pos
  have hu : (u32 (a + length.toInt) : ℤ) = a + length.toInt := by
    have := hreq.pos
    unfold u32
    omega
  constructor
  · by_cases hhi : a + length.toInt ≤ 0x80000000
    · obtain ⟨mm', m, hplace, -, hpl⟩ := fixAddrPlaceMmap_free ht hslots hreq.pos hhi hfree
      have hsearch : (if has flags mapFixed then fixAddrPlaceMmap (k.procs p).mm addr.toNat length.toInt
          else findAddrPlaceMmap (k.procs p).mm length.toInt) = some (mm', some m) := by
        rw [hfixed]
        simp only [Bool.false_eq_true, if_false, findAddrPlaceMmap, hstart]
        rw [if_neg (by omega), hplace]
      refine ⟨_, _, sysWmap_placed hdup hvalid (by have := ht.total; omega) hsearch hpl.addr_eq, .inl ⟨a, rfl, ?_,
        adds_of_places hwf hpl hreq.pos hal hlo hhi⟩⟩
      refine ⟨(hroom a).mpr ⟨⟨hal, hlo, hhi⟩, hfree⟩, ?_⟩
      -- at every page below `a` a region is in the way
      intro b hb
      by_contra hlt
      obtain ⟨i, hi, hmeets⟩ := hleast b hb.aligned hb.lo (by omega)
      exact ((hroom b).mp hb).2 i hi hmeets
    · have hsearch : (if has flags mapFixed then fixAddrPlaceMmap (k.procs p).mm addr.toNat length.toInt
          else findAddrPlaceMmap (k.procs p).mm length.toInt) = some ((k.procs p).mm, none) := by
        rw [hfixed]
        simp only [Bool.false_eq_true, if_false, findAddrPlaceMmap, hstart]
        rw [if_pos (by omega)]
      refine ⟨_, _, sysWmap_failed hdup hvalid (.inr hsearch), .inr ⟨rfl, ?_⟩⟩
      intro b hb
      by_cases hlt : b < a
      · obtain ⟨i, hi, hmeets⟩ := hleast b hb.aligned hb.lo hlt
        exact ((hroom b).mp hb).2 i hi hmeets
      · have := hb.hi
        omega
  · intro b hb hend
    obtain rfl : a = b := Option.some.inj (hstart.symm.trans hb)
    exact (find_overlap ht hreq.pos (by omega)).mpr hfree

/-- Nothing has changed for the process, and each file has as many references as before. -/
structure NoEffect (k k' : Kernel) (p : Fin 64) : Prop where
  /-- The slots, the list and the count. -/
  mm : (k'.procs p).mm = (k.procs p).mm
  /-- The page table. -/
  pgdir : (k'.procs p).pgdir = (k.procs p).pgdir
  /-- The reference counts. -/
  refs : ∀ f, (k'.fs.files f).ref = (k.fs.files f).ref

/-- **A failing `wmap` has no effect** exactly where it has not found the arguments invalid after it had taken a
reference to an open file. -/
theorem failed_wmap_no_effect_iff (hret : sysWmap k p addr length flags fd = some (k', -1)) :
    NoEffect k k' p ↔ (argfd (k.procs p) fd.toInt = none ∨
      validateInput addr.toNat length.toInt flags (argfd (k.procs p) fd.toInt) = true) := by
  obtain ⟨fs, hdup, hplace⟩ := Option.bind_eq_some_iff.mp ((sysWmap_eq k p addr length flags fd).symm.trans hret)
  cases hvalid : validateInput addr.toNat length.toInt flags (argfd (k.procs p) fd.toInt) with
  | false =>
    obtain rfl : { k with fs := fs } = k' :=
      congrArg Prod.fst (Option.some.inj ((sysWmap_invalid hdup hvalid).symm.trans hret))
    have hrefs := dupIf_files hdup
    refine ⟨fun h => .inl ?_, fun h => ⟨rfl, rfl, ?_⟩⟩
    · -- the file that was duplicated has a reference more
      cases hf : argfd (k.procs p) fd.toInt with
      | none => rfl
      | some f =>
        have hmore := hrefs f
        have hsame := h.refs f
        rw [hf, if_pos rfl] at hmore
        dsimp only at hsame
        omega
    · intro f
      rw [hrefs, h.resolve_right Bool.false_ne_true]
      rfl
  | true =>
    refine ⟨fun _ => .inr rfl, ?_⟩
    intro _
    suffices hk : k = k' from hk ▸ ⟨rfl, rfl, fun _ => rfl⟩
    have hclosed (h : (closeIf fs (argfd (k.procs p) fd.toInt)).map (fun fs => ({ k with fs := fs }, (-1 : ℤ))) =
        some (k', -1)) : k = k' := by
      rw [closeIf_dupIf hdup] at h
      exact congrArg Prod.fst (Option.some.inj h)
    simp only [placeMap, hvalid, Bool.not_true, Bool.false_eq_true, if_false] at hplace
    split at hplace
    · exact hclosed hplace
    · split at hplace
      · cases hplace
      · exact hclosed hplace
      · -- an address is not negative
        have := congrArg Prod.snd (Option.some.inj hplace)
        dsimp only at this
        omega

end

/-! ### Three calls -/

theorem boot_wellFormed (n : ℕ) (p : Fin 64) : WellFormed ((boot n).procs p).mm [] := table_init.wellFormed strict_init

/-- The mappings of a process with two regions and a free page between them. -/
def aroundPage : Mmaps where
  mmaps := update (update initMmaps.mmaps firstMmap ⟨0x60000000, 0x1800, 0x5, -1, none, 0, 0⟩)
    secondMmap ⟨0x60003000, 0x1000, 0x5, -1, none, 0, 0⟩
  next := update initMmaps.next firstMmap (some secondMmap)
  mmapHead := some firstMmap
  totalMmaps := 2

theorem aroundPage_wellFormed : WellFormed aroundPage [0, 1] where
  linked := ⟨rfl, rfl, rfl⟩
  nodup := by decide
  sorted := by decide
  region := by decide
  disjoint i hi j hj hne := by
    have hapart : (aroundPage.mmaps 0).pageEnd ≤ (aroundPage.mmaps 1).addr := by decide
    simp only [List.mem_cons, List.not_mem_nil, or_false] at hi hj
    rcases hi with rfl | rfl <;> rcases hj with rfl | rfl
    · exact absurd rfl hne
    · exact Set.Ico_disjoint_Ico.mpr (by omega)
    · exact Set.Ico_disjoint_Ico.mpr (by omega)
    · exact absurd rfl hne
  used := by decide
  total := by decide

/-- There is room between the two regions and behind them. -/
theorem aroundPage_room {length : ℤ} {a : ℕ} (hlen : 0 < length) (hal : a % 4096 = 0) (hlo : 0x60002000 ≤ a)
    (hhi : a + length ≤ 0x80000000) (h : a + length ≤ 0x60003000 ∨ (0x60004000 : ℤ) ≤ a) :
    Room aroundPage [0, 1] length a := by
  refine ⟨hal, by omega, hhi, ?_⟩
  intro i hi
  simp only [List.mem_cons, List.not_mem_nil, or_false] at hi
  rcases hi with rfl | rfl
  · refine (Region.disjoint_iff (by decide) hlen).mpr fun hmeets => ?_
    have hbefore : (a : ℤ) < 0x60001800 := hmeets.1
    omega
  · refine (Region.disjoint_iff (by decide) hlen).mpr fun hmeets => ?_
    have hbefore : (a : ℤ) < 0x60004000 := hmeets.1
    have hbehind : 0x60003000 < a + length := hmeets.2
    omega

/-- `initproc` has these mappings. -/
def bootAround : Kernel := (boot 8).setProc initproc { (boot 8).procs initproc with mm := aroundPage }

theorem bootAround_argfd (fd : ℤ) : argfd (bootAround.procs 0) fd = none := by
  unfold argfd
  split_ifs <;> rfl

/-- The page between the two regions. -/
theorem fixed_placement_base : ∃ k' ret, sysWmap bootAround 0 0x60002000 0x1000 0xD (-1) = some (k', ret) ∧
    ret = 0x60002000 := by
  obtain ⟨k', ret, h, hiff, hadds⟩ := fixed_placement_iff (k := bootAround) (p := 0) aroundPage_wellFormed
    (fun f hf => by rw [bootAround_argfd] at hf; cases hf) (by decide : has 0xD mapFixed = true)
  have hroom : Room (bootAround.procs 0).mm [0, 1] (0x1000 : BitVec 32).toInt 0x60002000 :=
    aroundPage_room (by decide) (by decide) (by decide) (by decide) (.inl (by decide))
  exact ⟨k', ret, h, (hadds (hiff.mpr ⟨⟨by decide, by decide, .inl (by decide)⟩, hroom, by decide⟩)).1⟩

/-- A page and a half do not fit between the two regions: the mapping is behind them. -/
theorem first_fit_base : ∃ k' ret, sysWmap bootAround 0 0 0x1800 5 (-1) = some (k', ret) ∧ ret = 0x60004000 := by
  obtain ⟨⟨k', ret, h, hout⟩, -⟩ := @first_fit bootAround 0 [0, 1] 0 0x1800 5 (-1) aroundPage_wellFormed
    (fun f hf => by rw [bootAround_argfd] at hf; cases hf) (by decide) ⟨by decide, by decide, .inl (by decide)⟩ (by decide)
  have hbehind : Room (bootAround.procs 0).mm [0, 1] (0x1800 : BitVec 32).toInt 0x60004000 :=
    aroundPage_room (by decide) (by decide) (by decide) (by decide) (.inr (by decide))
  refine ⟨k', ret, h, ?_⟩
  rcases hout with ⟨a, rfl, ⟨ha, hleast⟩, -⟩ | ⟨-, hno⟩
  · have hle := hleast hbehind
    have hlo := ha.lo
    have hal := ha.aligned
    have h₀ : Disjoint (Set.Ico (a : ℤ) (a + 0x1800)) (Set.Ico 0x60000000 0x60001800) := ha.disjoint 0 (by simp)
    have h₁ : Disjoint (Set.Ico (a : ℤ) (a + 0x1800)) (Set.Ico 0x60003000 0x60004000) := ha.disjoint 1 (by simp)
    rw [Set.Ico_disjoint_Ico] at h₀ h₁
    omega
  · exact absurd hbehind (hno _)

/-- `boot n` with a file at descriptor 3 of the first process. -/
def bootOpen (n : ℕ) : Kernel :=
  { (boot n).setProc initproc { (boot n).procs initproc with ofile := fun i => if i.val = 3 then some 0 else none } with
    fs := { files := fun _ => ⟨1, some 0⟩, inodes := fun _ => .regular 5000 fun _ => 7 } }

/-- A call at a fixed address that is taken already: no reference is kept. -/
theorem failed_wmap_no_effect_taken : ∃ k k', (Op.wmap 0 0x60000000 0x1000 0xA 3).run (bootOpen 8) = some k ∧
    sysWmap k 0 0x60000000 0x1000 0xA 3 = some (k', -1) ∧ NoEffect k k' 0 := by
  have hrun : ((Op.wmap 0 0x60000000 0x1000 0xA 3).run (bootOpen 8)).bind (fun k =>
      (sysWmap k 0 0x60000000 0x1000 0xA 3).map fun out => decide (out.2 = -1 ∧
        validateInput 0x60000000 0x1000 0xA (argfd (k.procs 0) 3) = true)) = some true := by
    decide +kernel
  obtain ⟨k, hk, hw⟩ := Option.bind_eq_some_iff.mp hrun
  obtain ⟨⟨k', r⟩, hw, hout⟩ := Option.map_eq_some_iff.mp hw
  obtain ⟨rfl, hvalid⟩ := of_decide_eq_true hout
  exact ⟨k, k', hk, hw, (failed_wmap_no_effect_iff hw).mpr (.inr hvalid)⟩

/-- A call of no length: the file has a reference more. -/
theorem failed_wmap_keeps_reference : ∃ k', sysWmap (bootOpen 8) 0 0 0 2 3 = some (k', -1) ∧ ¬ NoEffect (bootOpen 8) k' 0 := by
  have hrun : (sysWmap (bootOpen 8) 0 0 0 2 3).map (fun out => decide (out.2 = -1 ∧ (out.1.fs.files 0).ref = 2)) =
      some true := by
    decide +kernel
  obtain ⟨⟨k', r⟩, hw, hout⟩ := Option.map_eq_some_iff.mp hrun
  obtain ⟨rfl, href⟩ := of_decide_eq_true hout
  exact ⟨k', hw, fun h => absurd ((h.refs 0).symm.trans href) (by decide)⟩

end SdeSystems.Wmap
