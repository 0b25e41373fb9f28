import SdeSystems.Wmap.Inside
import SdeSystems.Wmap.PartialUnmap
import SdeSystems.Wmap.Placement

/-!
# `wunmap` undoes `wmap`

A mapping that is made, used and unmapped leaves no trace: the slots, the list and the count, the
entries of the page table and the references to files are those before `wmap`, and so are the free
pages, except for those that have become page tables.
-/

namespace SdeSystems.Wmap

open Lib Function

attribute [ext] Mmaps

/-! ### The table -/

section

variable {mm mm' : Mmaps} {l l₁ l₂ : List (Fin 16)} {m x : Fin 16} {r r' : Region} {a : ℕ} {n : ℤ}

/-- The regions are not empty and apart, so their addresses are different. -/
theorem Table.eq_of_addr {i : Fin 16} (ht : Table mm l) (hs : Strict mm l) (hi : i ∈ l) (hm : m ∈ l)
    (haddr : (mm.mmaps i).addr = (mm.mmaps m).addr) : i = m := by
  by_contra him
  have hapart := ht.apart i hi m hm him
  have hpos := hs.pos m hm
  have hpos' := hs.pos i hi
  unfold Region.Apart Region.pageEnd at hapart
  omega

/-- The search for the address of a region finds the region. -/
theorem find_addr (ht : Table mm (l₁ ++ m :: l₂)) (hs : Strict mm (l₁ ++ m :: l₂)) :
    mm.find (fun r => decide (r.addr = (mm.mmaps m).addr)) = some (l₁.getLast?, some m) := by
  have hm : m ∈ l₁ ++ m :: l₂ := by simp
  rcases ht.toListed.find (fun r => decide (r.addr = (mm.mmaps m).addr)) with
    ⟨-, hno⟩ | ⟨l₁', i, l₂', hl, -, hi, hfind⟩
  · simpa using hno m hm
  · have hil : i ∈ l₁ ++ m :: l₂ := by
      rw [hl]
      simp
    obtain rfl := ht.eq_of_addr hs hil hm (of_decide_eq_true hi)
    obtain ⟨hm₁, hm₂⟩ := not_or.mp (List.mem_append.not.mp (List.nodup_cons.mp (List.nodup_middle.mp ht.nodup)).1)
    obtain ⟨rfl, -, -⟩ := (List.append_cons_inj_of_notMem hm₁ hm₂).mp hl
    exact hfind

theorem unlink_next_of_ne {prev : Option (Fin 16)} (hx : x ≠ m) (hprev : prev ≠ some x) :
    (unlink mm prev m).next x = mm.next x := by
  unfold unlink Mmaps.reset
  cases prev with
  | none => exact update_of_ne hx ..
  | some q =>
    have hxq : x ≠ q := fun hxq => hprev (by rw [hxq])
    dsimp only
    rw [update_of_ne hx, update_of_ne hxq]

/-- The free slots are as `init_one_mmap` leaves them. -/
def FreeSlots (mm : Mmaps) (l : List (Fin 16)) : Prop := ∀ i ∉ l, mm.mmaps i = initOneMmap ∧ mm.next i = none

/-- A region that comes into the table and goes out of it, with other counts in between. -/
theorem unlink_placed (ht : Listed mm (l₁ ++ l₂)) (hfree : FreeSlots mm (l₁ ++ l₂)) (hm : m ∉ l₁ ++ l₂)
    (hplace : fixAddrPlaceMmap mm a n = some (mm', some m)) (hmm : ∀ j ≠ m, mm'.mmaps j = mm.mmaps j)
    (ht' : Listed ((placed mm' m r).set m r') (l₁ ++ m :: l₂)) :
    unlink ((placed mm' m r).set m r') l₁.getLast? m = mm := by
  have hlinked := unlink_linked ht'
  obtain ⟨hhead, hnext⟩ := hlinked.eq_next ht.linked
  ext1
  · funext j
    rw [unlink_mmaps]
    by_cases hj : j = m
    · subst hj
      rw [update_self, (hfree j hm).1]
    · rw [update_of_ne hj, ← hmm j hj]
      simp [placed, Mmaps.set, hj]
  · funext j
    by_cases hj : j ∈ l₁ ++ l₂
    · exact hnext j hj
    by_cases hjm : j = m
    · subst hjm
      rw [(hfree j hm).2]
      exact update_self ..
    · have hlast : l₁.getLast? ≠ some j := fun h => hj (List.mem_append_left _ (List.mem_of_getLast? h))
      rw [unlink_next_of_ne hjm hlast]
      exact fixAddrPlaceMmap_next ht hplace hj hjm
  · exact hhead
  · rw [unlink_total, ht'.total, ht.total]
    simp only [List.length_append, List.length_cons]
    omega

end

/-! ### `wmap` -/

/-- The entries at or above `MMAPBASE` are in the regions of the list. -/
def Covered (pr : Proc) (l : List (Fin 16)) : Prop := ∀ va, va % 4096 = 0 → 0x60000000 ≤ va → va < 2 ^ 32 →
  pr.pgdir.pte va ≠ none → ∃ i ∈ l, (pr.mm.mmaps i).addr ≤ va ∧ va < (pr.mm.mmaps i).stop

section

variable {k k₁ : Kernel} {p : Fin 64} {l l₁ l₂ : List (Fin 16)} {m : Fin 16} {addr length flags fd : BitVec 32} {a : ℤ}
  {r : Region}

/-- The kernel `k₁` is `k` with a new region `r` in the slot `m` of the process, which has no pages. -/
structure NewMap (k k₁ : Kernel) (p : Fin 64) (l₁ : List (Fin 16)) (m : Fin 16) (l₂ : List (Fin 16)) (r : Region) :
    Prop where
  /-- The table, before `total_mmaps` is counted up. -/
  place : ∃ mm a n, fixAddrPlaceMmap (k.procs p).mm a n = some (mm, some m) ∧
    k₁.procs p = { k.procs p with mm := placed mm m r } ∧ ∀ j ≠ m, mm.mmaps j = (k.procs p).mm.mmaps j
  /-- The slot was free. -/
  slot : m ∉ l₁ ++ l₂
  /-- The region. -/
  region : (k₁.procs p).mm.mmaps m = r
  /-- The table is in order. -/
  table : Table (k₁.procs p).mm (l₁ ++ m :: l₂)
  /-- The list is sorted. -/
  strict : Strict (k₁.procs p).mm (l₁ ++ m :: l₂)
  /-- The other processes. -/
  others : ∀ q ≠ p, k₁.procs q = k.procs q
  /-- Memory. -/
  mem : k₁.mem = k.mem
  /-- A reference to the file is taken. -/
  fs : dupIf k.fs r.f = some k₁.fs
  /-- The region has no pages. -/
  empty : ∀ va < 2 ^ 32, r.addr ≤ va → va < r.pageEnd → (k.procs p).pgdir.pte va = none

/-- What `wmap` has done where it returns an address. -/
theorem sysWmap_newMap (hwf : WellFormed (k.procs p).mm l) (hcov : Covered (k.procs p) l)
    (hmap : sysWmap k p addr length flags fd = some (k₁, a)) (ha : a ≠ -1) :
    ∃ l₁ m l₂, l = l₁ ++ l₂ ∧ a = a.toNat ∧ validateInput addr.toNat length.toInt flags (argfd (k.procs p) fd.toInt) = true ∧
      NewMap k k₁ p l₁ m l₂ (newRegion (k.procs p) a.toNat length flags fd) := by
  obtain ⟨fs, mm, m, b, hdup, hvalid, hplace, hpl, ⟨hal, hlo, hhi⟩, rfl, rfl⟩ := sysWmap_success hwf.table hmap ha
  have hpos := (validateInput_iff.mp hvalid).1
  have hplaced : ∃ l₁ l₂, l = l₁ ++ l₂ ∧ m ∉ l ∧ (∀ j ≠ m, mm.mmaps j = (k.procs p).mm.mmaps j) ∧
      Table (placed mm m (newRegion (k.procs p) b length flags fd)) (l₁ ++ m :: l₂) ∧
      (true = true → Strict (placed mm m (newRegion (k.procs p) b length flags fd)) (l₁ ++ m :: l₂)) :=
    hwf.table.placed (fun _ => hwf.strict) hpl hpos hal hlo hhi
  obtain ⟨l₁, l₂, rfl, hm, hold, ht, hs⟩ := hplaced
  have hnew : (placed mm m (newRegion (k.procs p) b length flags fd)).mmaps m = newRegion (k.procs p) b length flags fd :=
    update_self ..
  refine ⟨l₁, m, l₂, rfl, by simp, hvalid, ?_⟩
  rw [Int.toNat_natCast]
  refine ⟨⟨mm, b, length.toInt, hplace, by simp, hold⟩, hm, by simpa using hnew, by simpa using ht,
    by simpa using hs rfl, fun q hq => by simp [hq], rfl, hdup, ?_⟩
  -- an entry in the new region would be in another one
  intro va hva hvlo hvhi
  by_contra hpte
  have hreg := ht.region m (by simp)
  have hend := hreg.pageEnd_le
  have hral := hreg.aligned
  rw [hnew] at hreg hend hral
  have hvpn : vpn va = vpn (va / 4096 * 4096) := vpn_eq_pgrounddown
  rw [PageDir.pte_congr hvpn] at hpte
  have haddr : (newRegion (k.procs p) b length flags fd).addr = b := rfl
  obtain ⟨i, hi, hilo, hihi⟩ := hcov _ (by omega) (by omega) (by omega) hpte
  have him : i ≠ m := fun him => hm (him ▸ hi)
  have hapart := ht.apart i (mem_of_mem_append hi) m (by simp) him
  rw [hnew] at hapart
  have hiold : (placed mm m (newRegion (k.procs p) b length flags fd)).mmaps i = (k.procs p).mm.mmaps i :=
    (update_of_ne him ..).trans (hold i him)
  rw [hiold] at hapart
  have hiend := (hwf.table.region i hi).stop_le_pageEnd
  unfold Region.Apart at hapart
  unfold Region.pageEnd at hvhi hapart hiend
  omega

end

/-! ### `wunmap` -/

section

variable {k : Kernel} {p : Fin 64} {l₁ l₂ : List (Fin 16)} {m : Fin 16} {addr : BitVec 32}

/-- `wunmap` of a region that nobody shares: its pages are unmapped and freed, and it goes out of the list. -/
theorem sysWunmap_region (ht : Table (k.procs p).mm (l₁ ++ m :: l₂)) (hs : Strict (k.procs p).mm (l₁ ++ m :: l₂))
    (haddr : ((k.procs p).mm.mmaps m).addr = addr.toNat) (href : ((k.procs p).mm.mmaps m).refcnt = 0)
    (hw : (∃ va ∈ pageRange ((k.procs p).mm.mmaps m).addr ((k.procs p).mm.mmaps m).stop,
      (k.procs p).pgdir.pte va ≠ none) → ((k.procs p).mm.mmaps m).Writable k.fs)
    (hclose : ∀ fs : Fs, fs.files = k.fs.files → ∃ fs', closeIf fs ((k.procs p).mm.mmaps m).f = some fs') :
    ∃ s fs, dropPages ((k.procs p).mm.mmaps m).backs true ((k.procs p).mm.mmaps m) ((k.procs p).mm.mmaps m).addr
        ((k.procs p).mm.mmaps m).stop ⟨⟨k.mem, (k.procs p).pgdir⟩, k.fs, 0⟩ = some s ∧
      closeIf s.fs ((k.procs p).mm.mmaps m).f = some fs ∧
      sysWunmap k p addr = some (k.put p { k.procs p with
        pgdir := s.space.pgdir, mm := unlink (k.procs p).mm l₁.getLast? m } s.space.mem fs, 0) := by
  have hr := ht.region m (by simp)
  have hend := hr.stop_eq
  have hhi := hr.hi
  have hdrops : ∃ s, dropPages ((k.procs p).mm.mmaps m).backs true ((k.procs p).mm.mmaps m)
      ((k.procs p).mm.mmaps m).addr ((k.procs p).mm.mmaps m).stop ⟨⟨k.mem, (k.procs p).pgdir⟩, k.fs, 0⟩ = some s :=
    dropPages_isSome hw (by omega)
  obtain ⟨s, hdrop⟩ := hdrops
  obtain ⟨fs, hfs⟩ := hclose s.fs (dropPages_files hdrop)
  refine ⟨s, fs, hdrop, hfs, ?_⟩
  have hal : ¬ addr.toNat % 4096 ≠ 0 := by
    rw [← haddr, hr.aligned]
    simp
  have hfind := find_addr ht hs
  unfold sysWunmap removeMap
  rw [if_neg hal, ← haddr]
  simp only [hfind, href, decide_true, hdrop, if_true, hfs, Option.map_some, lt_irrefl, if_false]
  rfl

end

/-! ### The mapping undone -/

/-- The pages of the page tables of a page directory. -/
def tablePages (pd : PageDir) : Multiset ℕ := total (held pd.tables PageTable.page)

/-- The kernel `k'` is as `k` was, except that the process may have more page tables, and for the bytes of pages and
files. -/
structure Undone (k k' : Kernel) (p : Fin 64) : Prop where
  /-- The slots, the list and the count. -/
  mm : (k'.procs p).mm = (k.procs p).mm
  /-- The entries. -/
  ptes : ∀ va < 2 ^ 32, (k'.procs p).pgdir.pte va = (k.procs p).pgdir.pte va
  /-- The other processes. -/
  others : ∀ q ≠ p, k'.procs q = k.procs q
  /-- The files and their references. -/
  files : k'.fs.files = k.fs.files
  /-- The free pages, but for those that have become page tables. -/
  pages : ∃ T, (k.mem.free : Multiset ℕ) = k'.mem.free + T ∧
    tablePages (k'.procs p).pgdir = tablePages (k.procs p).pgdir + T

section

variable {k k₁ k₂ : Kernel} {p : Fin 64} {l l₁ l₂ : List (Fin 16)} {m : Fin 16} {addr length flags fd : BitVec 32} {a : ℤ}
  {r : Region} {xs : List Access}

/-- A new region is as it was before the accesses to it. -/
theorem NewMap.inside (h : NewMap k k₁ p l₁ m l₂ r) : Inside k₁ p m k₁ := by
  obtain ⟨mm, a, n, -, hproc, -⟩ := h.place
  have hr := h.table.region m (by simp)
  have hend := hr.pageEnd_le
  have hstop := hr.stop_le_pageEnd
  refine .refl ?_
  intro va hva
  rw [h.region] at hva hend hstop
  obtain ⟨n, rfl, hlt⟩ := mem_pageRange.mp hva
  rw [hproc]
  exact h.empty _ (by omega) (by omega) (by omega)

/-- Pages that are conserved while page tables are made. -/
theorem tablePages_of_conserved {free free' : Multiset ℕ} {pd pd' : PageDir} (h : pd.Extends pd')
    (hc : free' + (pd'.page ::ₘ tablePages pd') = free + (pd.page ::ₘ tablePages pd)) :
    ∃ T, free = free' + T ∧ tablePages pd' = tablePages pd + T := by
  obtain ⟨T, hT⟩ := Multiset.le_iff_exists_add.mp (total_mono h.tables)
  have hT : tablePages pd' = tablePages pd + T := hT
  refine ⟨T, ?_, hT⟩
  rw [h.page, hT, Multiset.add_cons, Multiset.add_cons, Multiset.cons_inj_right] at hc
  apply add_right_cancel (b := tablePages pd)
  rw [← hc]
  abel

/-- Where a region has no pages, the pages of its directory are its own and those of the tables. -/
theorem Region.Ok.own_of_empty {r : Region} {d : PageDir} (hr : r.Ok)
    (hempty : ∀ va < 2 ^ 32, r.addr ≤ va → va < r.pageEnd → d.pte va = none) : d.own r.owns = d.page ::ₘ tablePages d := by
  have hend := hr.pageEnd_le
  apply own_of_none
  intro va e hva he
  rw [Bool.eq_false_iff]
  intro hmine
  obtain ⟨hlo, hhi⟩ := (Region.owns_iff hr.aligned (by omega) hva).mp hmine
  rw [hempty va hva hlo hhi] at he
  cases he

/-- `wunmap` of a new region that has been used. -/
theorem NewMap.undone (h : NewMap k k₁ p l₁ m l₂ r) (ht : Table (k.procs p).mm (l₁ ++ l₂))
    (hfree : FreeSlots (k.procs p).mm (l₁ ++ l₂)) (hin : Inside k₁ p m k₂) (href : r.refcnt = 0)
    (haddr : r.addr = addr.toNat) : ∃ k₃, sysWunmap k₂ p addr = some (k₃, 0) ∧ Undone k k₃ p ∧
      (r.backs = false → k₃.fs.inodes = k₂.fs.inodes) := by
  obtain ⟨mm, b, n, hplace, hproc₁, hold⟩ := h.place
  obtain ⟨pd, c, hproc₂⟩ := hin.proc
  have ht₂ := hin.table h.table (show m ∈ l₁ ++ m :: l₂ by simp)
  have hs₂ : Strict (k₂.procs p).mm (l₁ ++ m :: l₂) := by
    rw [hproc₂]
    exact h.strict.set_same rfl rfl
  have hmm₂ : (k₂.procs p).mm = (placed mm m r).set m { r with nLoadedPages := c } := by
    rw [hproc₂, h.region, hproc₁]
  have hr₂ : (k₂.procs p).mm.mmaps m = { r with nLoadedPages := c } := by
    rw [hmm₂]
    exact update_self ..
  have hreg := h.table.region m (by simp)
  have hend := hreg.pageEnd_le
  have hal := hreg.aligned
  have hwritable := hin.writable
  have hptes := hin.ptes
  have hpages := hin.pages
  rw [h.region] at hreg hend hal hwritable hptes hpages
  have hdup := h.fs
  have hwritable₂ (hsome : ∃ va ∈ pageRange ((k₂.procs p).mm.mmaps m).addr ((k₂.procs p).mm.mmaps m).stop,
      (k₂.procs p).pgdir.pte va ≠ none) : ((k₂.procs p).mm.mmaps m).Writable k₂.fs := by
    rw [hr₂] at hsome ⊢
    intro hback f hf
    rw [hin.files]
    exact hwritable hsome hback f hf
  obtain ⟨s, fs, hdrop, hclose, hw⟩ := sysWunmap_region ht₂ hs₂ (by rw [hr₂]; exact haddr) (by rw [hr₂]; exact href)
    hwritable₂ fun fs hfs => by rw [hr₂]; exact ⟨_, closeIf_of_files hdup (hfs.trans hin.files)⟩
  rw [hr₂] at hdrop hclose
  have hfiles : s.fs.files = k₁.fs.files := (dropPages_files hdrop).trans hin.files
  obtain rfl := Option.some.inj ((closeIf_of_files hdup hfiles).symm.trans hclose)
  have hclear : Cleared (k₂.procs p).pgdir s.space.pgdir r.addr r.pageEnd := hreg.dropPages_cleared hdrop
  have hpte (va : ℕ) (hva : va < 2 ^ 32) : s.space.pgdir.pte va = (k.procs p).pgdir.pte va := by
    by_cases hin' : r.addr ≤ va ∧ va < r.pageEnd
    · rw [hclear.cleared va hva hin'.1 hin'.2, h.empty va hva hin'.1 hin'.2]
    · rw [hclear.others va hva hin', hptes va hva hin', hproc₁]
  -- the region has no pages, neither before nor afterwards
  have hown (d : PageDir) (hsame : ∀ va < 2 ^ 32, d.pte va = (k.procs p).pgdir.pte va) :
      d.own r.owns = d.page ::ₘ tablePages d :=
    hreg.own_of_empty fun va hva hlo hhi => (hsame va hva).trans (h.empty va hva hlo hhi)
  have hmine (va : ℕ) (hva : va ∈ pageRange r.addr r.stop) : r.owns (vpn va) = true := by
    have hstop := hreg.stop_le_pageEnd
    have hva := (mem_pageRange_of_aligned hal).mp hva
    exact (hreg.page_owned hva.1 (by omega)).1
  have hfreed := dropPages_freed (conserved_balance _) hdrop hmine hpages
  have hpgdir : (k₁.procs p).pgdir = (k.procs p).pgdir := by rw [hproc₁]
  rw [add_zero, Conserved, hown _ hpte, hown _ fun va _ => by rw [hpgdir]] at hfreed
  refine ⟨_, hw, ⟨?_, ?_, ?_, rfl, ?_⟩, ?_⟩
  · rw [Kernel.put_procs_self, hmm₂]
    exact unlink_placed ht.toListed hfree h.slot hplace hold (hmm₂ ▸ ht₂.toListed)
  · intro va hva
    rw [Kernel.put_procs_self]
    exact hpte va hva
  · intro q hq
    rw [Kernel.put_procs_of_ne hq, hin.others q hq, h.others q hq]
  · have hext := hin.tables.trans (dropPages_extends hdrop)
    rw [hpgdir] at hext
    rw [hpgdir, h.mem] at hfreed
    rw [Kernel.put_procs_self, Kernel.put_mem]
    exact tablePages_of_conserved hext hfreed
  · intro hback
    have hback' : ({ r with nLoadedPages := c } : Region).backs = false := hback
    rw [hback'] at hdrop
    rw [dropPages_fs hdrop]
    rfl

/-- **`wunmap` undoes `wmap`.** Where the list and the page table agree and the free slots are as `init_one_mmap`
leaves them, a mapping that is made, used by any page faults and stores within it, and unmapped leaves everything as
it was, but for new page tables and, where it is shared and of a file, the bytes of that file. -/
theorem wunmap_undoes_wmap (hwf : WellFormed (k.procs p).mm l) (hcov : Covered (k.procs p) l)
    (hfree : FreeSlots (k.procs p).mm l) (hmap : sysWmap k p addr length flags fd = some (k₁, a)) (ha : a ≠ -1)
    (hxs : ∀ x ∈ xs, a ≤ x.addr ∧ x.addr < (newRegion (k.procs p) a.toNat length flags fd).pageEnd)
    (hrun : access k₁ p xs = some k₂) : ∃ k₃, sysWunmap k₂ p (BitVec.ofInt 32 a) = some (k₃, 0) ∧ Undone k k₃ p ∧
      (has flags mapAnonymous = true ∨ has flags mapPrivate = true → ∀ ip size bytes,
        k.fs.inodes ip = .regular size bytes → k₃.fs.inodes ip = .regular size bytes) := by
  obtain ⟨l₁, m, l₂, rfl, hanat, hvalid, hnew⟩ := sysWmap_newMap hwf hcov hmap ha
  have hr := hnew.table.region m (by simp)
  have hend := hr.pageEnd_le
  have hle := hr.stop_le_pageEnd
  have hin : Inside k₁ p m k₂ := hnew.inside.run hnew.table (by simp) (fun x hx => ?_) hrun
  · rw [hnew.region] at hr
    have haddr : (newRegion (k.procs p) a.toNat length flags fd).addr = (BitVec.ofInt 32 a).toNat := by
      have hlo := hr.lo
      have hhi := hr.hi
      have hpos := hr.nonneg
      change a.toNat = _
      have haddr : (newRegion (k.procs p) a.toNat length flags fd).addr = a.toNat := rfl
      rw [BitVec.toNat_ofInt]
      omega
    obtain ⟨k₃, hw, hundone, hinodes⟩ := hnew.undone hwf.table hfree hin rfl haddr
    refine ⟨k₃, hw, hundone, ?_⟩
    intro hkind ip size bytes hreg
    have hback : (newRegion (k.procs p) a.toNat length flags fd).backs = false := by
      obtain ⟨-, hsh, -⟩ := validateInput_iff.mp hvalid
      change (!has flags mapAnonymous && has flags mapShared && (argfd (k.procs p) fd.toInt).isSome) = false
      rcases hkind with hanon | hpriv
      · simp [hanon]
      · rw [hpriv] at hsh
        simp [hsh]
    rw [hinodes hback]
    apply hin.inodes ip size bytes
    rwa [dupIf_inodes hnew.fs]
  · rw [hnew.region]
    obtain ⟨hlo, hhi⟩ := hxs x hx
    refine ⟨?_, hhi⟩
    change a.toNat ≤ _
    omega

end

/-- A page and a half, the first page of which is touched. -/
theorem wunmap_undoes_wmap_touched : ∃ k₁ k₂ k₃, sysWmap (boot 8) 0 0 0x1800 5 (-1) = some (k₁, 0x60000000) ∧
    access k₁ 0 [.fault 0x60000010, .store 0x60000010 9] = some k₂ ∧ sysWunmap k₂ 0 0x60000000 = some (k₃, 0) ∧
      Undone (boot 8) k₃ 0 := by
  have hrun : ((sysWmap (boot 8) 0 0 0x1800 5 (-1)).bind fun out =>
      (access out.1 0 [.fault 0x60000010, .store 0x60000010 9]).map fun _ => out.2) = some 0x60000000 := by
    decide +kernel
  obtain ⟨⟨k₁, r⟩, hmap, hrest⟩ := Option.bind_eq_some_iff.mp hrun
  obtain ⟨k₂, hk₂, rfl⟩ := Option.map_eq_some_iff.mp hrest
  obtain ⟨k₃, hw, hundone, -⟩ := wunmap_undoes_wmap (boot_wellFormed 8 0)
    (fun va _ hlo hlt hpte => absurd (boot_pte (n := 8) (by omega) hlt) hpte) (fun i _ => ⟨rfl, rfl⟩) hmap (by decide)
    (fun x hx => by
      rcases List.mem_pair.mp hx with rfl | rfl
      · exact ⟨by decide, by decide⟩
      · exact ⟨by decide, by decide⟩) hk₂
  exact ⟨k₁, k₂, k₃, hmap, hk₂, hw, hundone⟩

end SdeSystems.Wmap
