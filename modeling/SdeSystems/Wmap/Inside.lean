import SdeSystems.Wmap.Agree
import SdeSystems.Wmap.Owned

/-!
# Accesses to one region

While a process loads and stores within one of its regions, only that region changes: its pages come
in one by one, their bytes are written, and it counts them. Files keep their references and regular
ones their bytes until the region is unmapped, which then always succeeds.
-/

namespace SdeSystems.Wmap

open Lib Function

/-- What a process does to its memory. -/
inductive Access
  /-- A load or store at an address the page of which is not there. -/
  | fault (addr : BitVec 32)
  /-- A store of a byte. -/
  | store (va : BitVec 32) (b : UInt8)

/-- The address. -/
def Access.addr : Access → ℕ
  | .fault addr => addr.toNat
  | .store va _ => va.toNat

/-- One access. -/
def Access.run (k : Kernel) (p : Fin 64) : Access → Option Kernel
  | .fault addr => (handlePageFault k p addr).map Prod.fst
  | .store va b => Wmap.store k p va b

/-- Accesses one after the other. -/
def access (k : Kernel) (p : Fin 64) : List Access → Option Kernel
  | [] => some k
  | x :: xs => (x.run k p).bind fun k => access k p xs

/-! ### Reading a file -/

section

variable {m m' : Mem} {fs fs' : Fs} {f page off n : ℕ} {ok : Bool}

theorem readi_regular {size : ℕ} {bytes : ℕ → UInt8} {ip : Inode} {out : Option (List UInt8)}
    (h : readi (.regular size bytes) off n = some (ip, out)) : ip = .regular size bytes := by
  unfold readi at h
  dsimp only at h
  split at h <;> exact ((Prod.mk.inj (Option.some.inj h)).1).symm

/-- A read into a page writes to that page only, and leaves the regular files as they are. -/
theorem readPage_spec (h : readPage m fs f page off = some (m', fs', ok)) : m'.free = m.free ∧
    (∀ x ≠ page, m'.bytes x = m.bytes x) ∧ fs'.files = fs.files ∧ (fs.files f).ip ≠ none ∧
    ∀ ip size bytes, fs.inodes ip = .regular size bytes → fs'.inodes ip = .regular size bytes := by
  unfold readPage at h
  split at h
  · cases h
  · rename_i ip hip
    have hsame {inode : Inode} {out : Option (List UInt8)} (hr : readi (fs.inodes ip) off 4096 = some (inode, out))
        (ip' size : ℕ) (bytes : ℕ → UInt8) (hreg : fs.inodes ip' = .regular size bytes) :
        update fs.inodes ip inode ip' = .regular size bytes := by
      by_cases hi : ip' = ip
      · subst hi
        rw [hreg] at hr
        rw [update_self, readi_regular hr]
      · rw [update_of_ne hi, hreg]
    split at h
    · cases h
    · rename_i hr
      obtain ⟨rfl, hrest⟩ := Prod.mk.inj (Option.some.inj h)
      obtain ⟨rfl, -⟩ := Prod.mk.inj hrest
      exact ⟨rfl, fun _ _ => rfl, rfl, by simp [hip], hsame hr⟩
    · rename_i hr
      obtain ⟨rfl, hrest⟩ := Prod.mk.inj (Option.some.inj h)
      obtain ⟨rfl, -⟩ := Prod.mk.inj hrest
      exact ⟨rfl, fun x hx => update_of_ne hx .., rfl, by simp [hip], hsame hr⟩

end

/-! ### Page tables and pages -/

/-- The page tables of `pd` are there in `pd'` too. -/
structure PageDir.Extends (pd pd' : PageDir) : Prop where
  /-- The page of the directory. -/
  page : pd'.page = pd.page
  /-- The pages of the tables. -/
  tables : ∀ i, held pd.tables PageTable.page i ≤ held pd'.tables PageTable.page i

/-- The free pages and those in use are `F`. -/
def Conserved (F : Multiset ℕ) (m : Mem) (R : Multiset ℕ) : Prop := (m.free : Multiset ℕ) + R = F

/-- The pages of a region, by number. -/
def Region.owns (r : Region) (n : ℕ) : Bool := decide (r.addr ≤ 4096 * n ∧ 4096 * n < r.pageEnd)

section

variable {pd pd' pd'' : PageDir} {s s' : Space} {i : Fin 1024} {va : ℕ} {content : ℕ → UInt8} {w u : Bool}
  {mine : ℕ → Bool}

theorem PageDir.Extends.refl (pd : PageDir) : pd.Extends pd := ⟨rfl, fun _ => le_rfl⟩

theorem PageDir.Extends.trans (h : pd.Extends pd') (h' : pd'.Extends pd'') : pd.Extends pd'' :=
  ⟨h'.page.trans h.page, fun i => (h.tables i).trans (h'.tables i)⟩

theorem setPte_extends (pd : PageDir) (va : ℕ) (x : Option Pte) : pd.Extends (pd.setPte va x) := by
  unfold PageDir.setPte
  split
  · exact .refl pd
  · rename_i t ht
    refine ⟨rfl, fun i => le_of_eq ?_⟩
    by_cases hi : i = pdx va
    · subst hi
      simp [held, ht]
    · simp [held, hi]

theorem needTable_extends (h : needTable s i = some s') : s.pgdir.Extends s'.pgdir := by
  unfold needTable at h
  split at h
  · obtain rfl := Option.some.inj h
    exact .refl _
  · rename_i hn
    obtain ⟨⟨page, mem⟩, -, rfl⟩ := Option.map_eq_some_iff.mp h
    refine ⟨rfl, ?_⟩
    intro j
    by_cases hj : j = i
    · subst hj
      simp [held, hn]
    · simp [held, hj]

theorem mapNew_extends {out : Mapped} (h : mapNew s va content w u = some (s', out)) : s.pgdir.Extends s'.pgdir := by
  obtain ⟨-, -, rfl⟩ | ⟨page, mem, ok, -, hm, -⟩ := mapNew_cases h
  · exact .refl _
  · obtain ⟨-, rfl⟩ | ⟨-, s₁, hs₁, -, -, rfl⟩ := mappages_cases hm
    · exact .refl _
    · exact (needTable_extends hs₁).trans (setPte_extends ..)

theorem dropPages_extends {back free : Bool} {r : Region} {start stop : ℕ} {d d' : Drop}
    (h : dropPages back free r start stop d = some d') : d.space.pgdir.Extends d'.space.pgdir := by
  refine forEach_keeps (I := fun t : Drop => d.space.pgdir.Extends t.space.pgdir) ?_ (dropPages_some h) (.refl _)
  intro va _ t t' ok ht hb
  obtain ⟨-, ⟨-, rfl⟩ | ⟨e, fs, -, rfl⟩⟩ := dropPage_cases hb
  · exact ht
  · exact ht.trans (setPte_extends ..)

/-- Where no entry is the directory's own, its pages are those of its tables and its own one. -/
theorem own_of_none (h : ∀ va e, va < 2 ^ 32 → pd.pte va = some e → mine (vpn va) = false) :
    pd.own mine = pd.page ::ₘ total (held pd.tables PageTable.page) := by
  have hnone : pd.own mine = pd.own fun _ => false := own_congr h
  rw [hnone]
  unfold PageDir.own
  refine congrArg _ (total_congr ?_)
  intro i
  unfold held
  cases pd.tables i with
  | none => rfl
  | some t =>
    rw [Option.elim_some, Option.elim_some]
    unfold PageTable.own
    rw [total_zero fun j => slot_not_mine _]
    rfl

/-- A page that is taken comes out of the free list, and one that is given back goes there. -/
theorem conserved_balance (F : Multiset ℕ) : Balance kalloc kfree Mem.fill (Conserved F) where
  take {m m' page R} h hm := by
    unfold kalloc at h
    split at h
    · cases h
    · rename_i page' free hfree
      obtain ⟨rfl, rfl⟩ := Prod.mk.inj (Option.some.inj h)
      unfold Conserved at hm ⊢
      rw [← hm, hfree, Multiset.add_cons, ← Multiset.cons_coe, Multiset.cons_add]
  give {m page R} hm := by
    unfold Conserved at hm ⊢
    rw [← hm, Multiset.add_cons, kfree, ← Multiset.cons_coe, Multiset.cons_add]
  write h := h

/-- The pages of a region are its own. -/
theorem Region.owns_iff {r : Region} (hal : r.addr % 4096 = 0) (hend : r.pageEnd ≤ 2 ^ 32) (hva : va < 2 ^ 32) :
    r.owns (vpn va) = true ↔ r.addr ≤ va ∧ va < r.pageEnd := by
  have hlast : r.pageEnd % 4096 = 0 := by
    unfold Region.pageEnd
    omega
  unfold Region.owns vpn
  rw [decide_eq_true_eq]
  omega

theorem Region.Ok.pageEnd_le {r : Region} (h : r.Ok) : r.pageEnd ≤ 0x80000000 := by
  have := h.nonneg
  have := h.hi
  unfold Region.pageEnd
  omega

end

/-! ### What the accesses leave as it is -/

section

variable {k t t' : Kernel} {p : Fin 64} {l : List (Fin 16)} {m : Fin 16} {x : Access} {xs : List Access} {ret : ℤ}

/-- The kernel `t` is `k` with accesses of `p` to its region `m`. -/
structure Inside (k : Kernel) (p : Fin 64) (m : Fin 16) (t : Kernel) : Prop where
  /-- Of the process only the page table and a count have changed. -/
  proc : ∃ pd n, t.procs p = { k.procs p with
    pgdir := pd, mm := (k.procs p).mm.set m { (k.procs p).mm.mmaps m with nLoadedPages := n } }
  /-- The other processes. -/
  others : ∀ q ≠ p, t.procs q = k.procs q
  /-- The entries outside the region. -/
  ptes : ∀ va < 2 ^ 32, ¬ (((k.procs p).mm.mmaps m).addr ≤ va ∧ va < ((k.procs p).mm.mmaps m).pageEnd) →
    (t.procs p).pgdir.pte va = (k.procs p).pgdir.pte va
  /-- The references to files. -/
  files : t.fs.files = k.fs.files
  /-- The regular files. -/
  inodes : ∀ ip size bytes, k.fs.inodes ip = .regular size bytes → t.fs.inodes ip = .regular size bytes
  /-- The pages of the region, if there are any, can be written back. -/
  writable : (∃ va ∈ pageRange ((k.procs p).mm.mmaps m).addr ((k.procs p).mm.mmaps m).stop,
    (t.procs p).pgdir.pte va ≠ none) → ((k.procs p).mm.mmaps m).Writable k.fs
  /-- The page tables. -/
  tables : (k.procs p).pgdir.Extends (t.procs p).pgdir
  /-- The free pages, and those of the page tables and of the region. -/
  pages : Conserved ((k.mem.free : Multiset ℕ) + (k.procs p).pgdir.own ((k.procs p).mm.mmaps m).owns) t.mem
    ((t.procs p).pgdir.own ((k.procs p).mm.mmaps m).owns + 0)

theorem Inside.refl (hnone : ∀ va ∈ pageRange ((k.procs p).mm.mmaps m).addr ((k.procs p).mm.mmaps m).stop,
    (k.procs p).pgdir.pte va = none) : Inside k p m k where
  proc := ⟨(k.procs p).pgdir, ((k.procs p).mm.mmaps m).nLoadedPages, by simp [Mmaps.set]⟩
  others _ _ := rfl
  ptes _ _ _ := rfl
  files := rfl
  inodes _ _ _ h := h
  writable := fun ⟨va, hva, hsome⟩ => absurd (hnone va hva) hsome
  tables := .refl _
  pages := by rw [Conserved, add_zero]

/-- The slots of the process, and its table. -/
theorem Inside.mmaps (h : Inside k p m t) : ∃ n, (t.procs p).mm = (k.procs p).mm.set m
    { (k.procs p).mm.mmaps m with nLoadedPages := n } := by
  obtain ⟨pd, n, hproc⟩ := h.proc
  exact ⟨n, by rw [hproc]⟩

theorem Inside.region (h : Inside k p m t) (i : Fin 16) : ((t.procs p).mm.mmaps i).addr = ((k.procs p).mm.mmaps i).addr ∧
    ((t.procs p).mm.mmaps i).stop = ((k.procs p).mm.mmaps i).stop ∧
    ((t.procs p).mm.mmaps i).flags = ((k.procs p).mm.mmaps i).flags ∧
    ((t.procs p).mm.mmaps i).f = ((k.procs p).mm.mmaps i).f ∧
    ((t.procs p).mm.mmaps i).refcnt = ((k.procs p).mm.mmaps i).refcnt := by
  obtain ⟨n, hmm⟩ := h.mmaps
  rw [hmm]
  by_cases hi : i = m
  · subst hi
    simp [Mmaps.set, Region.stop]
  · simp [Mmaps.set, hi]

theorem Inside.table (h : Inside k p m t) (ht : Table (k.procs p).mm l) (hm : m ∈ l) : Table (t.procs p).mm l := by
  obtain ⟨n, hmm⟩ := h.mmaps
  rw [hmm]
  exact ht.set_same hm rfl rfl

/-- A page fault in the region: it is this region's. -/
theorem Inside.fault_cases (h : Inside k p m t) (ht : Table (k.procs p).mm l) (hm : m ∈ l) {addr : BitVec 32}
    (hlo : ((k.procs p).mm.mmaps m).addr ≤ addr.toNat) (hhi : addr.toNat < ((k.procs p).mm.mmaps m).pageEnd)
    (hw : handlePageFault t p addr = some (t', ret)) : Faults t p [m] (pgrounddown addr.toNat) t' := by
  have ht' := h.table ht hm
  have hcases := handlePageFault_cases ht'.toListed hw
  generalize hva : pgrounddown addr.toNat = va at hcases ⊢
  cases hcases with
  | failed => exact .failed
  | noTable hmap => exact .noTable hmap
  | @mapped i s fs mem ok hi hlo' hhi' hmap hread =>
    obtain ⟨haddr, hstop, -⟩ := h.region i
    obtain rfl : i = m := by
      by_contra hne
      have hapart := ht.apart i hi m hm hne
      have hri := ht.region i hi
      have hle := hri.stop_le_pageEnd
      have hal := (ht.region m hm).aligned
      unfold pgrounddown at hva
      unfold Region.Apart at hapart
      omega
    exact .mapped (List.mem_singleton_self i) hlo' hhi' hmap hread

/-- A page of the region, and the pages of the other addresses. -/
theorem Region.Ok.page_owned {r : Region} (hr : r.Ok) {va : ℕ} (hlo : r.addr ≤ va) (hhi : va < r.pageEnd) :
    r.owns (vpn va) = true ∧ ∀ x < 2 ^ 32, ¬ (r.addr ≤ x ∧ x < r.pageEnd) → vpn x ≠ vpn va := by
  have hal := hr.aligned
  have hend := hr.pageEnd_le
  have hmine : r.owns (vpn va) = true := (Region.owns_iff hal (by omega) (by omega)).mpr ⟨hlo, hhi⟩
  refine ⟨hmine, ?_⟩
  intro x hx hout hxv
  rw [← hxv, Region.owns_iff hal (by omega) hx] at hmine
  exact hout hmine

/-- The page that there is no page table for is given back. -/
theorem Inside.noTable (h : Inside k p m t) {va page : ℕ} {s : Space}
    (hmap : mapNew ⟨t.mem, (t.procs p).pgdir⟩ va (fun _ => 0) true true = some (s, .noTable page)) :
    Inside k p m (t.put p { t.procs p with pgdir := s.pgdir } (kfree s.mem page) t.fs) := by
  have hI := conserved_balance ((k.mem.free : Multiset ℕ) + (k.procs p).pgdir.own ((k.procs p).mm.mmaps m).owns)
  have hpages := mapNew_noTable_owned hI hmap h.pages
  obtain ⟨pd, n, hproc⟩ := h.proc
  obtain ⟨mem, -, rfl⟩ := mapNew_noTable hmap
  refine ⟨⟨pd, n, ?_⟩, ?_, ?_, h.files, h.inodes, ?_, ?_, ?_⟩
  · rw [Kernel.put_procs_self]
    exact hproc
  · intro q hq
    rw [Kernel.put_procs_of_ne hq]
    exact h.others q hq
  · intro va hva hout
    rw [Kernel.put_procs_self]
    exact h.ptes va hva hout
  · intro hsome
    rw [Kernel.put_procs_self] at hsome
    exact h.writable hsome
  · rw [Kernel.put_procs_self]
    exact h.tables
  · rw [Kernel.put_procs_self]
    exact hpages

/-- What the read of the file of the region has done, where there is one. -/
theorem Inside.read (h : Inside k p m t) {va : ℕ} {s : Space} {fs : Fs} {mem : Mem} {ok : Bool}
    (hread : ok = true ∧ mem = s.mem ∧ fs = t.fs ∧
        (has ((t.procs p).mm.mmaps m).flags mapAnonymous = true ∨ ((t.procs p).mm.mmaps m).f = none) ∨
      has ((t.procs p).mm.mmaps m).flags mapAnonymous = false ∧
      ∃ f e, ((t.procs p).mm.mmaps m).f = some f ∧ s.pgdir.pte va = some e ∧
        readPage s.mem t.fs f e.page (u32 (va - ((t.procs p).mm.mmaps m).addr)) = some (mem, fs, ok)) :
    mem.free = s.mem.free ∧ fs.files = t.fs.files ∧ (∀ ip size bytes, t.fs.inodes ip = .regular size bytes →
      fs.inodes ip = .regular size bytes) ∧ ((k.procs p).mm.mmaps m).Writable k.fs := by
  obtain ⟨-, -, hflags, hf, -⟩ := h.region m
  rcases hread with ⟨-, rfl, rfl, hnofile⟩ | ⟨-, f, e, hfile, -, hread⟩
  · refine ⟨rfl, rfl, fun _ _ _ h => h, ?_⟩
    intro hback f' hf'
    rw [hflags, hf, hf'] at hnofile
    simp only [Region.backs, Bool.and_eq_true, Bool.not_eq_true'] at hback
    rw [hback.1.1] at hnofile
    simp at hnofile
  · obtain ⟨hfree, -, hfiles, hip, hinodes⟩ := readPage_spec hread
    refine ⟨hfree, hfiles, hinodes, ?_⟩
    intro _ f' hf'
    rw [← h.files]
    rw [hf, hf'] at hfile
    rw [Option.some.inj hfile]
    exact hip

theorem Inside.fault (h : Inside k p m t) (ht : Table (k.procs p).mm l) (hm : m ∈ l) {addr : BitVec 32}
    (hlo : ((k.procs p).mm.mmaps m).addr ≤ addr.toNat) (hhi : addr.toNat < ((k.procs p).mm.mmaps m).pageEnd)
    (hw : handlePageFault t p addr = some (t', ret)) : Inside k p m t' := by
  have hr := ht.region m hm
  have hva : ((k.procs p).mm.mmaps m).addr ≤ pgrounddown addr.toNat ∧
      pgrounddown addr.toNat < ((k.procs p).mm.mmaps m).pageEnd := by
    have hal := hr.aligned
    unfold pgrounddown
    omega
  obtain ⟨hmine, hpage⟩ := hr.page_owned hva.1 hva.2
  cases h.fault_cases ht hm hlo hhi hw with
  | failed => exact h
  | noTable hmap => exact h.noTable hmap
  | @mapped i s fs mem ok hi hlo' hhi' hmap hread =>
    obtain rfl := List.mem_singleton.mp hi
    have hI := conserved_balance ((k.mem.free : Multiset ℕ) + (k.procs p).pgdir.own ((k.procs p).mm.mmaps i).owns)
    obtain ⟨pd, n, hproc⟩ := h.proc
    obtain ⟨hfree, hfiles, hinodes, hwritable⟩ := h.read hread
    have hpages := mapNew_mine_owned hI hmap hmine h.pages
    refine ⟨⟨s.pgdir, if ok then n + 1 else n, ?_⟩, ?_, ?_, hfiles.trans h.files,
      fun ip size bytes hreg => hinodes ip size bytes (h.inodes ip size bytes hreg), fun _ => hwritable, ?_, ?_⟩
    · rw [Kernel.put_procs_self, hproc]
      cases ok <;> simp [Mmaps.set]
    · intro q hq
      rw [Kernel.put_procs_of_ne hq]
      exact h.others q hq
    · intro va hva hout
      rw [Kernel.put_procs_self]
      exact (mapNew_pte_of_ne hmap (hpage va hva hout)).trans (h.ptes va hva hout)
    · rw [Kernel.put_procs_self]
      exact h.tables.trans (mapNew_extends hmap)
    · rw [Kernel.put_procs_self]
      unfold Conserved at hpages ⊢
      rwa [Kernel.put_mem, hfree]

theorem Inside.store (h : Inside k p m t) {va : BitVec 32} {b : UInt8} (hw : store t p va b = some t') :
    Inside k p m t' := by
  obtain ⟨e, -, rfl⟩ := store_cases hw
  exact ⟨h.proc, h.others, h.ptes, h.files, h.inodes, h.writable, h.tables, h.pages⟩

/-- Accesses to the region, one after the other. -/
theorem Inside.run (h : Inside k p m t) (ht : Table (k.procs p).mm l) (hm : m ∈ l)
    (hxs : ∀ x ∈ xs, ((k.procs p).mm.mmaps m).addr ≤ x.addr ∧ x.addr < ((k.procs p).mm.mmaps m).pageEnd)
    (hrun : access t p xs = some t') : Inside k p m t' := by
  induction xs generalizing t with
  | nil =>
    obtain rfl := Option.some.inj hrun
    exact h
  | cons x xs ih =>
    obtain ⟨t₁, hx, hrest⟩ := Option.bind_eq_some_iff.mp hrun
    refine ih ?_ (fun y hy => hxs y (by simp [hy])) hrest
    obtain ⟨hlo, hhi⟩ := hxs x (by simp)
    cases x with
    | fault addr =>
      obtain ⟨⟨t₂, ret⟩, hw, rfl⟩ := Option.map_eq_some_iff.mp hx
      exact h.fault ht hm hlo hhi hw
    | store va b => exact h.store hx

end

end SdeSystems.Wmap
