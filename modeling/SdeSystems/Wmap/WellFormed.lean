import SdeSystems.Wmap.Forks
import SdeSystems.Wmap.Shrink
import Mathlib.Order.Interval.Set.Disjoint
import Mathlib.Order.CompletePartialOrder

/-!
# Every table is well formed

The invariant of the table over whole runs: every operation of a process leaves the tables of all
processes in order (`Tables`), `wpunmap` included where its range does not wrap around. Where no
process calls `wpunmap` the lists are sorted and no region is empty.
-/

namespace SdeSystems.Wmap

open Lib Function Relation

/-- The table is in order, and where `strict` is set its list is sorted and has no empty region. -/
def Good (strict : Bool) (mm : Mmaps) : Prop := ∃ l, Table mm l ∧ (strict = true → Strict mm l)

/-- The tables of all processes are in order. -/
def Tables (strict : Bool) (k : Kernel) : Prop := ∀ p, (k.procs p).state ≠ .unused → Good strict (k.procs p).mm

section

variable {strict : Bool} {mm mm' : Mmaps} {l : List (Fin 16)} {i : Fin 16} {r : Region}

theorem good_init (strict : Bool) : Good strict initMmaps := ⟨[], table_init, fun _ => strict_init⟩

/-- A write to a region's counts. -/
theorem Good.set_same (h : Good strict mm) (hi : (mm.mmaps i).addr ≠ 2 ^ 32 - 1) (ha : r.addr = (mm.mmaps i).addr)
    (hl : r.length = (mm.mmaps i).length) : Good strict (mm.set i r) := by
  obtain ⟨l, ht, hs⟩ := h
  exact ⟨l, ht.set_same ((ht.used i).mpr hi) ha hl, fun h => (hs h).set_same ha hl⟩

/-- The table after `wmap` has placed a region: it stands where the list stays in order. -/
theorem Table.placed {a : ℕ} {length : ℤ} {flags : BitVec 32} {fd : ℤ} {f : Option ℕ} {m : Fin 16} (ht : Table mm l)
    (hs : strict = true → Strict mm l) (hp : Places mm l a length (mm', some m)) (hlen : 0 < length)
    (hal : a % 4096 = 0) (hlo : 0x60000000 ≤ a) (hhi : a + length ≤ 0x80000000) :
    ∃ l₁ l₂, l = l₁ ++ l₂ ∧ m ∉ l ∧ (∀ j ≠ m, mm'.mmaps j = mm.mmaps j) ∧
      Table (placed mm' m ⟨a, length, flags, fd, f, 0, 0⟩) (l₁ ++ m :: l₂) ∧
      (strict = true → Strict (Wmap.placed mm' m ⟨a, length, flags, fd, f, 0, 0⟩) (l₁ ++ m :: l₂)) := by
  cases hp with
  | some l₁ l₂ hl hm hmm htotal hlink hroom h₁ h₂ =>
    subst hl
    have hnew : (Wmap.placed mm' m ⟨a, length, flags, fd, f, 0, 0⟩).mmaps m = ⟨a, length, flags, fd, f, 0, 0⟩ := by
      simp [Wmap.placed, Mmaps.set]
    have hold (j : Fin 16) (hj : j ≠ m) :
        (Wmap.placed mm' m ⟨a, length, flags, fd, f, 0, 0⟩).mmaps j = mm.mmaps j := by
      simp [Wmap.placed, Mmaps.set, hj, hmm]
    have hok : Region.Ok ⟨a, length, flags, fd, f, 0, 0⟩ := ⟨hal, hlen.le, hlo, hhi⟩
    have hapart (j : Fin 16) (hj : j ∈ l₁ ++ l₂) :
        Region.Apart ⟨a, length, flags, fd, f, 0, 0⟩ (mm.mmaps j) :=
      Region.apart_of_stop hok (ht.region j hj) (hroom j hj)
    refine ⟨l₁, l₂, rfl, hm, fun j hj => by rw [hmm, update_of_ne hj], ht.add hm hlink
      (by simp [Wmap.placed, Mmaps.set, htotal]) hold (by rw [hnew]; exact hok)
      fun j hj => by rw [hnew]; exact hapart j hj, ?_⟩
    -- the new region is apart from the others, so its place in the sorted list is strict
    intro hstrict
    have hst := hs hstrict
    have hpos (j : Fin 16) (hj : j ∈ l₁ ++ l₂) : a ≠ (mm.mmaps j).addr := by
      have := hroom j hj
      have hj₀ := hst.pos j hj
      have hstop := (ht.region j hj).stop_eq
      unfold u32 at this
      omega
    refine hst.add (fun j hj => hold j fun hjm => hm (hjm ▸ hj)) (by rw [hnew]; exact hlen) ?_ ?_
    · intro j hj
      rw [hnew]
      exact lt_of_le_of_ne (h₁ j hj) (hpos j (by simp [hj])).symm
    · intro j hj
      rw [hnew]
      obtain ⟨-, hs₂, -⟩ := List.pairwise_append.mp hst.sorted
      have hj₂ := hpos j (by simp [hj])
      cases l₂ with
      | nil => cases hj
      | cons x l₂ =>
        have hx : a ≤ (mm.mmaps x).addr := h₂ x rfl
        rcases List.mem_cons.mp hj with rfl | hj
        · show a < (mm.mmaps j).addr
          omega
        · have := (List.pairwise_cons.mp hs₂).1 j hj
          show a < (mm.mmaps j).addr
          omega

theorem Good.placed {a : ℕ} {length : ℤ} {flags : BitVec 32} {fd : ℤ} {f : Option ℕ} {m : Fin 16} (ht : Table mm l)
    (hs : strict = true → Strict mm l) (hp : Places mm l a length (mm', some m)) (hlen : 0 < length)
    (hal : a % 4096 = 0) (hlo : 0x60000000 ≤ a) (hhi : a + length ≤ 0x80000000) :
    Good strict (placed mm' m ⟨a, length, flags, fd, f, 0, 0⟩) := by
  obtain ⟨l₁, l₂, -, -, -, ht', hs'⟩ := ht.placed hs hp hlen hal hlo hhi
  exact ⟨_, ht', hs'⟩

end

/-! ### The operations -/

section

variable {strict : Bool} {k k' : Kernel} {p q : Fin 64} {l : List (Fin 16)} {pr : Proc} {ret : ℤ}

/-- One process is replaced by one whose table is in order. -/
theorem Tables.put (h : Tables strict k) (mem : Mem) (fs : Fs) (hpr : pr.state ≠ .unused → Good strict pr.mm) :
    Tables strict (k.put p pr mem fs) :=
  Kernel.Each.put (P := fun pr => Good strict pr.mm) h rfl hpr

theorem Tables.wmap (h : Tables strict k) (hp : (k.procs p).state = .runnable) {addr length flags fd : BitVec 32}
    (hw : sysWmap k p addr length flags fd = some (k', ret)) : Tables strict k' := by
  obtain ⟨l, ht, hs⟩ := h p (by simp [hp])
  cases sysWmap_cases ht hw with
  | failed fs => exact h
  | placed hpl hlen _ hal hlo hhi => exact h.put _ _ fun _ => Good.placed ht hs hpl hlen hal hlo hhi

theorem Tables.wunmap (h : Tables strict k) (hp : (k.procs p).state = .runnable) {addr : BitVec 32}
    (hw : sysWunmap k p addr = some (k', ret)) : Tables strict k' := by
  obtain ⟨l, ht, hs⟩ := h p (by simp [hp])
  cases sysWunmap_cases ht.toListed hw with
  | failed => exact h
  | removed l₁ l₂ hl =>
    subst hl
    exact h.put _ _ fun _ => ⟨l₁ ++ l₂, ht.unlink, fun hst => (hs hst).unlink ht.nodup _⟩

theorem Tables.fault (h : Tables strict k) (hp : (k.procs p).state = .runnable) {addr : BitVec 32}
    (hw : handlePageFault k p addr = some (k', ret)) : Tables strict k' := by
  have hg := h p (by simp [hp])
  obtain ⟨l, ht, hs⟩ := hg
  cases handlePageFault_cases ht.toListed hw with
  | failed => exact h
  | noTable => exact h.put _ _ fun _ => ⟨l, ht, hs⟩
  | @mapped i _ _ _ ok hi =>
    apply h.put _ _
    intro _
    cases ok with
    | true => exact Good.set_same ⟨l, ht, hs⟩ ((ht.used i).mp hi) rfl rfl
    | false => exact ⟨l, ht, hs⟩

/-- The range of `wpunmap` does not wrap around. -/
def NoWrap (addr length : BitVec 32) : Prop := addr.toNat + length.toInt < 2 ^ 32

theorem Wpunmaps.holds {addr : ℕ} {length : ℤ} {r : Region} (hr : r.Ok) (hwrap : addr + length < 2 ^ 32)
    (hlen : 0 < length) (hal : addr % 4096 = 0) (hstop : u32 (addr + length) % 4096 = 0) (hlo : r.addr ≤ addr)
    (hhi : u32 (addr + length) ≤ r.stop) : r.Holds addr length := by
  have hst := hr.stop_eq
  have hend : (u32 (addr + length) : ℤ) = addr + length := by
    unfold u32
    omega
  exact ⟨hlen, hal, by omega, hlo, by omega⟩

/-- A range that does not wrap around: what `wpunmap` leaves is in order. -/
theorem wpunmap_table (ht : Table (k.procs p).mm l) {addr length : BitVec 32} (hwrap : NoWrap addr length)
    (hw : sysWpunmap k p addr length = some (k', ret)) :
    ∃ pr mem fs l', k' = k.put p pr mem fs ∧ Table pr.mm l' := by
  cases sysWpunmap_cases ht.toListed hw with
  | failed => exact ⟨k.procs p, k.mem, k.fs, l, Kernel.put_self.symm, ht⟩
  | @dropped l₁ i l₂ s out hl hlen hal hstop hlo hhi hdrop hshrink =>
    subst hl
    have ht' := ht.set_same (i := i) (r := { (k.procs p).mm.mmaps i with
      nLoadedPages := ((k.procs p).mm.mmaps i).nLoadedPages - s.dropped }) (by simp) rfl rfl
    have hold := Wpunmaps.holds (ht.region i (by simp)) hwrap hlen hal hstop hlo hhi
    have hold' : Region.Holds (((k.procs p).mm.set i { (k.procs p).mm.mmaps i with
        nLoadedPages := ((k.procs p).mm.mmaps i).nLoadedPages - s.dropped }).mmaps i) addr.toNat length.toInt := by
      simp only [Mmaps.set, update_self]
      exact ⟨hold.pos, hold.aligned, hold.stop, hold.lo, hold.hi⟩
    have hsh := shrink_cases (ht'.region i (by simp)) hold' hshrink
    cases out with
    | none => exact ⟨_, _, _, _, rfl, ht'⟩
    | some out =>
      obtain ⟨mm', fs'⟩ := out
      obtain ⟨l', ht''⟩ := hsh.table ht' hold'
      exact ⟨_, _, _, l', rfl, ht''⟩

theorem Tables.wpunmap (h : Tables false k) (hp : (k.procs p).state = .runnable) {addr length : BitVec 32}
    (hwrap : NoWrap addr length) (hw : sysWpunmap k p addr length = some (k', ret)) : Tables false k' := by
  obtain ⟨l, ht, -⟩ := h p (by simp [hp])
  obtain ⟨pr, mem, fs, l', rfl, ht'⟩ := wpunmap_table ht hwrap hw
  exact h.put mem fs fun _ => ⟨l', ht', by simp⟩

theorem Tables.sbrk (h : Tables strict k) (hp : (k.procs p).state = .runnable) {n : BitVec 32}
    (hw : sysSbrk k p n = some (k', ret)) : Tables strict k' := by
  obtain rfl | ⟨s, newsz, -, rfl⟩ := sysSbrk_cases hw
  · exact h
  · exact h.put _ _ fun _ => h p (by simp [hp])

theorem Tables.fork (h : Tables strict k) (hp : (k.procs p).state = .runnable)
    (hw : fork k p = some (k', ret)) : Tables strict k' := by
  obtain ⟨l, ht, hs⟩ := h p (by simp [hp])
  refine Kernel.Each.fork (P := fun pr => Good strict pr.mm) h (fun _ hmaps => ?_) hw
  rw [copyMaps_eq ht.linked ht.length_le] at hmaps
  obtain ⟨cl, hc, he⟩ := copyMaps_copied ht hmaps ⟨listed_init, rfl⟩
  exact ⟨cl, ht.of_cores hc.listed he, fun hst => (hs hst).of_cores he⟩

theorem Good.decParent {pm pm' : Mmaps} {addr : ℕ} (h : Good strict pm) (hd : decParent pm addr = some pm') :
    Good strict pm' := by
  obtain ⟨l, ht, hs⟩ := h
  obtain rfl | ⟨j, hj, -, -, rfl⟩ := decParent_cases ht.toListed hd
  · exact ⟨l, ht, hs⟩
  · exact Good.set_same ⟨l, ht, hs⟩ ((ht.used j).mp hj) rfl rfl

theorem Tables.exit (h : Tables strict k) (hp : (k.procs p).state = .runnable) (hw : exit k p = some k') :
    Tables strict k' := by
  obtain ⟨l, ht, -⟩ := h p (by simp [hp])
  refine Kernel.Each.exit (P := fun pr => Good strict pr.mm) h ht.toListed ?_ (fun pr pm addr => Good.decParent) ?_ hw
  · intro s hdel hex
    have hself := deleteMmaps_listed ht.toListed hdel
    rw [hex.mm]
    exact ⟨[], ⟨hself, by simp, by simp⟩, fun _ => ⟨by simp, List.Pairwise.nil⟩⟩
  · intro pr hpr
    rwa [reparent_mm]

theorem Tables.wait (h : Tables strict k) (hw : wait k p = some (k', ret)) : Tables strict k' :=
  Kernel.Each.wait (P := fun pr => Good strict pr.mm) h hw

theorem Tables.store (h : Tables strict k) {va : BitVec 32} {b : UInt8} (hw : store k p va b = some k') :
    Tables strict k' := by
  obtain ⟨e, -, rfl⟩ := store_cases hw
  exact h

/-- Every operation keeps the tables in order, `wpunmap` where its range does not wrap around and
where the lists need not be sorted. -/
theorem Tables.run (h : Tables strict k) {op : Op} (hp : ∀ p, op.proc = some p → (k.procs p).state = .runnable)
    (hop : ∀ p addr length, op = .wpunmap p addr length → strict = false ∧ NoWrap addr length)
    (hrun : op.run k = some k') : Tables strict k' := by
  cases op with
  | wmap p addr length flags fd =>
    obtain ⟨⟨k₁, r⟩, hw, rfl⟩ := Option.map_eq_some_iff.mp hrun
    exact h.wmap (hp p rfl) hw
  | wunmap p addr =>
    obtain ⟨⟨k₁, r⟩, hw, rfl⟩ := Option.map_eq_some_iff.mp hrun
    exact h.wunmap (hp p rfl) hw
  | wpunmap p addr length =>
    obtain ⟨⟨k₁, r⟩, hw, rfl⟩ := Option.map_eq_some_iff.mp hrun
    obtain ⟨rfl, hwrap⟩ := hop p addr length rfl
    exact h.wpunmap (hp p rfl) hwrap hw
  | fault p addr =>
    obtain ⟨⟨k₁, r⟩, hw, rfl⟩ := Option.map_eq_some_iff.mp hrun
    exact h.fault (hp p rfl) hw
  | sbrk p n =>
    obtain ⟨⟨k₁, r⟩, hw, rfl⟩ := Option.map_eq_some_iff.mp hrun
    exact h.sbrk (hp p rfl) hw
  | fork p =>
    obtain ⟨⟨k₁, r⟩, hw, rfl⟩ := Option.map_eq_some_iff.mp hrun
    exact h.fork (hp p rfl) hw
  | exit p => exact h.exit (hp p rfl) hrun
  | wait p =>
    obtain ⟨⟨k₁, r⟩, hw, rfl⟩ := Option.map_eq_some_iff.mp hrun
    exact h.wait hw
  | store p va b => exact h.store hrun
  | take =>
    obtain ⟨⟨page, mem⟩, -, rfl⟩ := Option.map_eq_some_iff.mp hrun
    exact h
  | give page =>
    obtain ⟨-, rfl⟩ := give_cases hrun
    exact h

end

/-! ### Runs -/

/-- The mapping state of a process is well formed, with `l` as its list of regions. -/
structure WellFormed (mm : Mmaps) (l : List (Fin 16)) : Prop where
  /-- The list from `mmap_head` on is `l`, and it comes to an end. -/
  linked : Linked mm.next mm.mmapHead l none
  /-- Each slot stands in it once. -/
  nodup : l.Nodup
  /-- It is sorted by address. -/
  sorted : l.Pairwise fun i j => (mm.mmaps i).addr < (mm.mmaps j).addr
  /-- A region begins at a page, is not empty, and lies between `MMAPBASE` and `KERNBASE`. -/
  region : ∀ i ∈ l, (mm.mmaps i).addr % 4096 = 0 ∧ 0 < (mm.mmaps i).length ∧ 0x60000000 ≤ (mm.mmaps i).addr ∧
    (mm.mmaps i).addr + (mm.mmaps i).length ≤ 0x80000000
  /-- The ranges of pages of different regions are disjoint. -/
  disjoint : ∀ i ∈ l, ∀ j ∈ l, i ≠ j →
    Disjoint (Set.Ico (mm.mmaps i).addr (mm.mmaps i).pageEnd) (Set.Ico (mm.mmaps j).addr (mm.mmaps j).pageEnd)
  /-- The regions in the list are the slots in use. -/
  used : ∀ i, i ∈ l ↔ (mm.mmaps i).addr ≠ 2 ^ 32 - 1
  /-- They are counted, and there are not more than `MAX_NMMAP`. -/
  total : mm.totalMmaps = l.length ∧ mm.totalMmaps ≤ 16

theorem Table.wellFormed {mm : Mmaps} {l : List (Fin 16)} (h : Table mm l) (hs : Strict mm l) : WellFormed mm l where
  linked := h.linked
  nodup := h.nodup
  sorted := hs.sorted
  region i hi := ⟨(h.region i hi).aligned, hs.pos i hi, (h.region i hi).lo, (h.region i hi).hi⟩
  disjoint i hi j hj hne := by
    rcases h.apart i hi j hj hne with hij | hji
    · exact Set.Ico_disjoint_Ico.mpr (by rw [min_def, max_def]; split <;> split <;> omega)
    · exact Set.Ico_disjoint_Ico.mpr (by rw [min_def, max_def]; split <;> split <;> omega)
  used := h.used
  total := ⟨h.total, by rw [h.total]; exact_mod_cast h.length_le⟩

theorem WellFormed.table {mm : Mmaps} {l : List (Fin 16)} (h : WellFormed mm l) : Table mm l where
  linked := h.linked
  nodup := h.nodup
  used := h.used
  total := h.total.1
  region i hi := ⟨(h.region i hi).1, (h.region i hi).2.1.le, (h.region i hi).2.2.1, (h.region i hi).2.2.2⟩
  apart i hi j hj hne := by
    have hd := Set.Ico_disjoint_Ico.mp (h.disjoint i hi j hj hne)
    have hi' := h.region i hi
    have hj' := h.region j hj
    unfold Region.Apart
    unfold Region.pageEnd at hd ⊢
    rw [min_def, max_def] at hd
    split at hd <;> split at hd <;> omega

theorem WellFormed.strict {mm : Mmaps} {l : List (Fin 16)} (h : WellFormed mm l) : Strict mm l :=
  ⟨fun i hi => (h.region i hi).2.1, h.sorted⟩

/-- All processes have the table that `init_mmaps` makes. -/
def FreshTables (k : Kernel) : Prop := ∀ p, (k.procs p).state ≠ .unused → (k.procs p).mm = initMmaps

/-- Runs without `wpunmap`. -/
def noWpunmap (_ : Kernel) (op : Op) : Prop := ∀ p addr length, op ≠ .wpunmap p addr length

theorem tables_of_reachable {k₀ k : Kernel} (h₀ : FreshTables k₀) (h : Reachable noWpunmap k₀ k) : Tables true k := by
  induction h with
  | refl => exact fun p hp => h₀ p hp ▸ good_init true
  | tail _ hstep ih =>
    obtain ⟨op, hp, hop, hrun⟩ := hstep
    exact ih.run hp (fun p addr length he => absurd he (hop p addr length)) hrun

/-- **The table is well formed in every run** of `wmap`, `wunmap`, page faults, `fork` and `exit`, for
every process. -/
theorem mappings_well_formed {k₀ k : Kernel} (h₀ : FreshTables k₀) (h : Reachable noWpunmap k₀ k) (p : Fin 64)
    (hp : (k.procs p).state ≠ .unused) : ∃ l, WellFormed (k.procs p).mm l := by
  obtain ⟨l, ht, hs⟩ := tables_of_reachable h₀ h p hp
  exact ⟨l, ht.wellFormed (hs rfl)⟩

/-- Two regions are mapped, the process forks, and the child unmaps the first region and exits. -/
def mapForkExit : List Op :=
  [.wmap initproc 0x60000000 0x1800 0xD (-1), .wmap initproc 0x60004000 0x1000 0xE (-1), .fork initproc,
    .wunmap firstChild 0x60000000, .exit firstChild]

theorem mappings_well_formed_fixed : ∃ k, runAll (boot 100) mapForkExit = some k ∧
    (k.procs 0).mm.totalMmaps = 2 ∧ (k.procs 1).state = .zombie ∧
    (∃ l, WellFormed (k.procs 0).mm l) ∧ ∃ l, WellFormed (k.procs 1).mm l := by
  have hrun : ((runAll (boot 100) mapForkExit).map fun k => decide ((k.procs 0).state = .runnable ∧
      (k.procs 0).mm.totalMmaps = 2 ∧ (k.procs 1).state = .zombie)) = some true := by
    decide +kernel
  obtain ⟨k, hk, hout⟩ := Option.map_eq_some_iff.mp hrun
  obtain ⟨hparent, htotal, hchild⟩ := of_decide_eq_true hout
  have hreach : Reachable noWpunmap (boot 100) k :=
    reachable_of_runAll hk (by simp [mapForkExit, noWpunmap])
  exact ⟨k, hk, htotal, hchild, mappings_well_formed (fun _ _ => rfl) hreach 0 (by simp [hparent]),
    mappings_well_formed (fun _ _ => rfl) hreach 1 (by simp [hchild])⟩

end SdeSystems.Wmap
