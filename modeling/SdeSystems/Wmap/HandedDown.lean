import SdeSystems.Lib.Lineage
import SdeSystems.Wmap.SharedPages

/-!
# Shared pages are handed down

The pages of shared regions belong to no process alone: they are a pool, and come to a process by a page
fault, or from its parent. `Tree` is the invariant of a kernel in which they are handed down the tree of
processes and every other page has one holder. Here is what it says of a process, and that `wmap`, page
faults, `sbrk`, `wait` and stores keep it.
-/

namespace SdeSystems.Wmap

open Lib Function

/-! ### Processes -/

/-- The region is shared. -/
def Region.isShared (r : Region) : Bool := has r.flags mapShared

/-- The region is shared, and `delete_mmaps` does not free its pages. -/
def Region.isKept (r : Region) : Bool := has r.flags mapShared && decide (r.refcnt ≠ 0)

/-- The table of a process is in order and has all that is mapped at or above `MMAPBASE`; the heap is below. -/
structure Tidy (pr : Proc) (l : List (Fin 16)) : Prop where
  /-- The table is in order. -/
  table : Table pr.mm l
  /-- An entry at or above `MMAPBASE` is in a region. -/
  covered : ∀ va e, 0x60000000 ≤ va → va < 2 ^ 32 → pr.pgdir.pte va = some e →
    ∃ i ∈ l, (pr.mm.mmaps i).addr ≤ va ∧ va < (pr.mm.mmaps i).pageEnd
  /-- The heap is below `MMAPBASE`. -/
  size : pr.sz ≤ 0x60000000

/-- The process maps `page` at the page number `n`, in a shared region. -/
def Proc.HasShared (pr : Proc) (n page : ℕ) : Prop :=
  n < 2 ^ 20 ∧ outside Region.isShared pr.mm n = false ∧ ∃ e, pr.pgdir.pte (4096 * n) = some e ∧ e.page = page

/-- The same of a process of the kernel. -/
def Kernel.HasShared (k : Kernel) (p : Fin 64) (n page : ℕ) : Prop :=
  (k.procs p).state ≠ .unused ∧ (k.procs p).HasShared n page

/-- Every page has one holder, where those of the pool, among them all that are mapped in shared regions, are
handed down from parent to child. -/
structure Tree (pool : Multiset ℕ) (k : Kernel) : Prop where
  /-- The processes are in order. -/
  tidy : ∀ p, (k.procs p).state ≠ .unused → ∃ l, Tidy (k.procs p) l
  /-- Those that have exited have no mappings. -/
  gone : ∀ p, (k.procs p).state = .zombie → Listed (k.procs p).mm []
  /-- Every page has one holder. -/
  pages : Accounted (outside Region.isShared) pool k
  /-- The pages of the shared regions are handed down. -/
  handed : Handed (fun p => (k.procs p).parent) k.HasShared pool

section

variable {pr pr' : Proc} {l l' : List (Fin 16)} {va n page : ℕ} {e : Pte}

theorem vpn_page (h : n < 2 ^ 20) : vpn (4096 * n) = n := by
  unfold vpn
  omega

theorem pte_vpn (pd : PageDir) (va : ℕ) : pd.pte (4096 * vpn va) = pd.pte va := by
  apply PageDir.pte_congr
  unfold vpn
  omega

theorem Proc.hasShared (he : pr.pgdir.pte va = some e) (hout : outside Region.isShared pr.mm (vpn va) = false) :
    pr.HasShared (vpn va) e.page := by
  refine ⟨?_, hout, e, by rwa [pte_vpn], rfl⟩
  unfold vpn
  omega

/-- Such a page is in a shared region. -/
theorem Tidy.region (h : Tidy pr l) (hn : n < 2 ^ 20) (hout : outside Region.isShared pr.mm n = false) :
    ∃ i ∈ l, has (pr.mm.mmaps i).flags mapShared = true ∧
      4096 * n ∈ pageRange (pr.mm.mmaps i).addr (pr.mm.mmaps i).stop := by
  rw [← vpn_page hn] at hout
  obtain ⟨i, hi, hsh, hlo, hhi⟩ := (outside_iff h.table (by omega)).mp hout
  have hr := h.table.region i hi
  have hend := hr.stop_eq
  have hlen := hr.nonneg
  refine ⟨i, hi, hsh, (mem_pageRange_of_aligned hr.aligned).mpr ⟨hlo, ?_, by omega⟩⟩
  unfold Region.pageEnd at hhi
  omega

/-- A process that has the same entries in the same regions. -/
theorem Proc.hasShared_congr (hmm : outside Region.isShared pr'.mm = outside Region.isShared pr.mm)
    (hpte : ∀ va, pr'.pgdir.pte va = pr.pgdir.pte va) : pr'.HasShared n page ↔ pr.HasShared n page := by
  unfold Proc.HasShared
  rw [hmm]
  simp only [hpte]

/-- A write to the counts of a region. -/
theorem Tidy.set_same {i : Fin 16} {r : Region} (h : Tidy pr l) (hi : i ∈ l) (ha : r.addr = (pr.mm.mmaps i).addr)
    (hlen : r.length = (pr.mm.mmaps i).length) (hflags : r.flags = (pr.mm.mmaps i).flags) :
    Tidy { pr with mm := pr.mm.set i r } l ∧
      outside Region.isShared (pr.mm.set i r) = outside Region.isShared pr.mm := by
  have hsame (x : Fin 16) : ((pr.mm.set i r).mmaps x).addr = (pr.mm.mmaps x).addr ∧
      ((pr.mm.set i r).mmaps x).length = (pr.mm.mmaps x).length ∧
      ((pr.mm.set i r).mmaps x).flags = (pr.mm.mmaps x).flags := by
    by_cases hx : x = i
    · subst hx
      simp [Mmaps.set, ha, hlen, hflags]
    · simp [Mmaps.set, hx]
  refine ⟨⟨h.table.set_same hi ha hlen, ?_, h.size⟩, outside_congr ?_⟩
  · intro va e h₁ h₂ he
    obtain ⟨x, hx, hlo, hhi⟩ := h.covered va e h₁ h₂ he
    obtain ⟨h₃, h₄, -⟩ := hsame x
    refine ⟨x, hx, by rwa [h₃], ?_⟩
    unfold Region.pageEnd at hhi ⊢
    rwa [h₃, h₄]
  · intro x
    obtain ⟨h₃, h₄, h₅⟩ := hsame x
    exact ⟨h₃, h₄, by unfold Region.isShared; rw [h₅]⟩

end

section

variable {pool : Multiset ℕ} {k k' : Kernel} {p q : Fin 64} {l : List (Fin 16)} {ret : ℤ}

/-- One process changes. -/
theorem Tree.change {pool' : Multiset ℕ} (h : Tree pool k) (p : Fin 64) (hothers : ∀ q ≠ p, k'.procs q = k.procs q)
    (hpages : Accounted (outside Region.isShared) pool' k')
    (htidy : (k'.procs p).state ≠ .unused → ∃ l, Tidy (k'.procs p) l)
    (hgone : (k'.procs p).state = .zombie → Listed (k'.procs p).mm [])
    (hhanded : Handed (fun p => (k'.procs p).parent) k'.HasShared pool') : Tree pool' k' where
  tidy q hq := by
    by_cases hqp : q = p
    · subst hqp
      exact htidy hq
    · rw [hothers q hqp] at hq ⊢
      exact h.tidy q hq
  gone q hq := by
    by_cases hqp : q = p
    · subst hqp
      exact hgone hq
    · rw [hothers q hqp] at hq ⊢
      exact h.gone q hq
  pages := hpages
  handed := hhanded

/-- The shared pages of a process that does not change. -/
theorem Kernel.hasShared_congr {n page : ℕ} (hq : k'.procs q = k.procs q) :
    k'.HasShared q n page ↔ k.HasShared q n page := by
  unfold Kernel.HasShared
  rw [hq]

/-- One process changes, and has the shared pages it had. -/
theorem Tree.step (h : Tree pool k) (p : Fin 64) (hothers : ∀ q ≠ p, k'.procs q = k.procs q)
    (hpages : Accounted (outside Region.isShared) pool k')
    (htidy : (k'.procs p).state ≠ .unused → ∃ l, Tidy (k'.procs p) l)
    (hgone : (k'.procs p).state = .zombie → Listed (k'.procs p).mm [])
    (hshared : ∀ n page, k'.HasShared p n page ↔ k.HasShared p n page)
    (hparent : ∀ n page, k.HasShared p n page → (k'.procs p).parent = (k.procs p).parent) : Tree pool k' := by
  refine h.change p hothers hpages htidy hgone (h.handed.congr ?_ ?_)
  · intro q n page
    by_cases hqp : q = p
    · subst hqp
      exact hshared n page
    · exact Kernel.hasShared_congr (hothers q hqp)
  · intro q n page hq
    by_cases hqp : q = p
    · subst hqp
      exact hparent n page hq
    · rw [hothers q hqp]

/-- No process changes. -/
theorem Tree.mem (h : Tree pool k) (hprocs : k'.procs = k.procs) (hpages : Accounted (outside Region.isShared) pool k') :
    Tree pool k' where
  tidy := hprocs ▸ h.tidy
  gone := hprocs ▸ h.gone
  pages := hpages
  handed := by
    refine h.handed.congr ?_ fun q n page _ => by rw [hprocs]
    intro q n page
    unfold Kernel.HasShared
    rw [hprocs]

/-! ### The operations of one process -/

theorem Tree.wmap (h : Tree pool k) (hp : (k.procs p).state = .runnable) {addr length flags fd : BitVec 32}
    (hw : sysWmap k p addr length flags fd = some (k', ret)) : Tree pool k' := by
  have hlive : (k.procs p).state ≠ .unused := by simp [hp]
  obtain ⟨l, htidy⟩ := h.tidy p hlive
  cases sysWmap_cases htidy.table hw with
  | failed fs => exact h.mem rfl h.pages
  | @placed a mm m fd f fs hpl hlen _ hal hlo hhi =>
    have hplaced : ∃ l₁ l₂, l = l₁ ++ l₂ ∧ m ∉ l ∧ (∀ j ≠ m, mm.mmaps j = (k.procs p).mm.mmaps j) ∧
        Table (placed mm m ⟨a, length.toInt, flags, fd, f, 0, 0⟩) (l₁ ++ m :: l₂) := by
      obtain ⟨l₁, l₂, hl, hm, hsame, ht', -⟩ :=
        htidy.table.placed (fun h => absurd h Bool.false_ne_true) hpl hlen hal hlo hhi
      exact ⟨l₁, l₂, hl, hm, hsame, ht'⟩
    obtain ⟨l₁, l₂, rfl, hm, hsame, ht'⟩ := hplaced
    -- the regions that were there are as before
    have hregion (i : Fin 16) (hi : i ∈ l₁ ++ l₂) : i ∈ l₁ ++ m :: l₂ ∧
        (placed mm m ⟨a, length.toInt, flags, fd, f, 0, 0⟩).mmaps i = (k.procs p).mm.mmaps i := by
      have him : i ≠ m := fun him => hm (him ▸ hi)
      refine ⟨mem_of_mem_append hi, ?_⟩
      simp only [Wmap.placed, Mmaps.set, update_of_ne him]
      exact hsame i him
    have hout (va : ℕ) (e : Pte) (hva : va < 2 ^ 32) (he : (k.procs p).pgdir.pte va = some e) :
        outside Region.isShared (placed mm m ⟨a, length.toInt, flags, fd, f, 0, 0⟩) (vpn va) =
          outside Region.isShared (k.procs p).mm (vpn va) :=
      outside_add htidy.table ht' hregion fun hge => htidy.covered va e hge hva he
    refine h.step p (fun q hq => Kernel.put_procs_of_ne hq) ?_ ?_ ?_ ?_ ?_
    · refine h.pages.put_same hlive hlive rfl ?_
      intro R hR
      dsimp only
      rwa [own_congr (fun va e hva he => hout va e hva he)]
    · intro _
      rw [Kernel.put_procs_self]
      refine ⟨l₁ ++ m :: l₂, ht', ?_, htidy.size⟩
      intro va e h₁ h₂ he
      obtain ⟨i, hi, hlo, hhi⟩ := htidy.covered va e h₁ h₂ he
      obtain ⟨hi', hmm⟩ := hregion i hi
      exact ⟨i, hi', by rwa [hmm], by rwa [hmm]⟩
    · intro hz
      rw [Kernel.put_procs_self] at hz
      exact absurd (hp.symm.trans hz) (by simp)
    · intro n page
      unfold Kernel.HasShared Proc.HasShared
      rw [Kernel.put_procs_self]
      dsimp only
      refine and_congr_right fun _ => and_congr_right fun hn => and_congr_left ?_
      intro hpage
      obtain ⟨e, he, -⟩ := hpage
      rw [← vpn_page hn, hout _ e (by omega) he]
    · intro _ _ _
      rw [Kernel.put_procs_self]

theorem Tree.sbrk (h : Tree pool k) (hp : (k.procs p).state = .runnable) {n : BitVec 32}
    (hw : sysSbrk k p n = some (k', ret)) : Tree pool k' := by
  have hlive : (k.procs p).state ≠ .unused := by simp [hp]
  obtain ⟨l, htidy⟩ := h.tidy p hlive
  have hsz := htidy.size
  have hpages := h.pages.sbrk hlive (fun a ha => outside_below htidy.table (by omega)) hw
  obtain rfl | ⟨s, newsz, hs, rfl⟩ := sysSbrk_cases hw
  · exact h
  · have habove : SameAbove (k.procs p).pgdir s.pgdir ∧ newsz ≤ 0x60000000 := by
      rcases hs with ⟨-, hs⟩ | ⟨-, hs⟩
      · have := allocuvm_size hs
        exact ⟨allocuvm_sameAbove hs, by omega⟩
      · have := deallocuvm_size hs
        exact ⟨deallocuvm_sameAbove hs hsz, by omega⟩
    refine h.step p (fun q hq => Kernel.put_procs_of_ne hq) hpages ?_ ?_ ?_ ?_
    · intro _
      rw [Kernel.put_procs_self]
      refine ⟨l, htidy.table, fun va e h₁ h₂ he => htidy.covered va e h₁ h₂ ?_, ?_⟩
      · rwa [habove.1 va h₁ h₂] at he
      · dsimp only
        split
        · exact hsz
        · exact habove.2
    · intro hz
      rw [Kernel.put_procs_self] at hz
      exact absurd (hp.symm.trans hz) (by simp)
    · intro n page
      unfold Kernel.HasShared Proc.HasShared
      rw [Kernel.put_procs_self]
      dsimp only
      refine and_congr_right fun _ => and_congr_right fun hn => and_congr_right ?_
      -- a page of a shared region is at or above `MMAPBASE`
      intro hout
      have hge : 0x60000000 ≤ 4096 * n := by
        by_contra hlt
        rw [← vpn_page hn, outside_below htidy.table (by omega)] at hout
        cases hout
      rw [habove.1 _ hge (by omega)]
    · intro _ _ _
      rw [Kernel.put_procs_self]

theorem Tree.wait (h : Tree pool k) (hw : wait k p = some (k', ret)) : Tree pool k' := by
  have hpages := h.pages.wait (fun q hz => own_congr fun va e _ _ => outside_of_empty (h.gone q hz) _) hw
  obtain rfl | ⟨q, kstack, mem, -, hz, -, -, rfl⟩ := wait_cases hw
  · exact h
  · -- a zombie has no shared pages
    have hnone (n page : ℕ) : ¬ k.HasShared q n page := by
      rintro ⟨-, -, hout, -⟩
      rw [outside_of_empty (h.gone q hz)] at hout
      cases hout
    refine h.step q (fun q' hq' => Kernel.put_procs_of_ne hq') hpages ?_ ?_ ?_
      fun n page hs => absurd hs (hnone n page)
    · intro hlive
      rw [Kernel.put_procs_self] at hlive
      exact absurd rfl hlive
    · intro hz'
      rw [Kernel.put_procs_self] at hz'
      cases hz'
    · intro n page
      refine iff_of_false ?_ (hnone n page)
      intro hs
      unfold Kernel.HasShared at hs
      rw [Kernel.put_procs_self] at hs
      exact hs.1 rfl

theorem Tree.store (h : Tree pool k) {va : BitVec 32} {b : UInt8} (hw : store k p va b = some k') : Tree pool k' := by
  have hpages := h.pages.store hw
  obtain ⟨e, -, rfl⟩ := store_cases hw
  exact h.mem rfl hpages

/-- What a page fault leaves as it is. -/
theorem Tidy.fault (h : Tidy (k.procs p) l) {addr : BitVec 32} (hw : handlePageFault k p addr = some (k', ret)) :
    (∀ q ≠ p, k'.procs q = k.procs q) ∧ (k'.procs p).state = (k.procs p).state ∧
      (k'.procs p).parent = (k.procs p).parent ∧
      outside Region.isShared (k'.procs p).mm = outside Region.isShared (k.procs p).mm ∧ Tidy (k'.procs p) l := by
  cases handlePageFault_cases h.table.toListed hw with
  | failed => exact ⟨fun _ _ => rfl, rfl, rfl, rfl, h⟩
  | @noTable s page hmap =>
    obtain ⟨mem, -, rfl⟩ := mapNew_noTable hmap
    rw [Kernel.put_procs_self]
    exact ⟨fun q hq => Kernel.put_procs_of_ne hq, rfl, rfl, rfl, h.table, h.covered, h.size⟩
  | @mapped i s fs mem ok hi hlo hhi hmap hread =>
    have hr := h.table.region i hi
    have hle := hr.stop_le_pageEnd
    have hend := hr.pageEnd_le
    have hal := hr.aligned
    -- the new entry is in the region, and the others are as before
    have hmapped : Tidy { k.procs p with pgdir := s.pgdir } l := by
      refine ⟨h.table, ?_, h.size⟩
      intro va e h₁ h₂ he
      by_cases hva : vpn va = vpn (pgrounddown addr.toNat)
      · refine ⟨i, hi, ?_⟩
        have hlast : ((k.procs p).mm.mmaps i).pageEnd % 4096 = 0 := by
          unfold Region.pageEnd
          omega
        unfold vpn pgrounddown at *
        dsimp only
        omega
      · exact h.covered va e h₁ h₂ (by rw [← mapNew_pte_of_ne hmap hva]; exact he)
    rw [Kernel.put_procs_self]
    refine ⟨fun q hq => Kernel.put_procs_of_ne hq, rfl, rfl, ?_⟩
    cases ok with
    | true =>
      have hset := hmapped.set_same (i := i) (r := { (k.procs p).mm.mmaps i with
        nLoadedPages := ((k.procs p).mm.mmaps i).nLoadedPages + 1 }) hi rfl rfl rfl
      exact hset.symm
    | false => exact ⟨rfl, hmapped⟩

/-- A page fault: a new page in a shared region comes to the pool. -/
theorem Tree.fault (h : Tree pool k) (hp : (k.procs p).state = .runnable) {addr : BitVec 32}
    (hw : handlePageFault k p addr = some (k', ret)) : ∃ pool', Tree pool' k' := by
  have hlive : (k.procs p).state ≠ .unused := by simp [hp]
  obtain ⟨l, htidy⟩ := h.tidy p hlive
  obtain ⟨hothers, hstate, hparent, hout, htidy'⟩ := htidy.fault hw
  obtain ⟨X, hpages, hpte⟩ := h.pages.fault hlive htidy.table.toListed
    (fun i n => outside_congr fun j => by
      by_cases hj : j = i
      · subst hj
        simp [Mmaps.set, Region.isShared]
      · simp [Mmaps.set, hj]) hw
  have hgone (hz : (k'.procs p).state = .zombie) : Listed (k'.procs p).mm [] := by
    rw [hstate, hp] at hz
    cases hz
  generalize pgrounddown addr.toNat = va at hpte
  rcases hpte with ⟨rfl, hsame⟩ | ⟨e, rfl, hnone, hself, hrest⟩
  · rw [zero_add] at hpages
    refine ⟨pool, h.step p hothers hpages (fun _ => ⟨l, htidy'⟩) hgone ?_ fun _ _ _ => hparent⟩
    intro n page
    unfold Kernel.HasShared
    rw [hstate, Proc.hasShared_congr hout hsame]
  -- a page of the process is the new one or an old one
  have hnew (n page : ℕ) : k'.HasShared p n page ↔ k.HasShared p n page ∨
      n = vpn va ∧ page = e.page ∧ outside Region.isShared (k.procs p).mm (vpn va) = false := by
    constructor
    · rintro ⟨-, hlt, hn, e', he', rfl⟩
      rw [hout] at hn
      by_cases hnva : n = vpn va
      · subst hnva
        rw [pte_vpn, hself] at he'
        exact .inr ⟨rfl, by rw [Option.some.inj he'], hn⟩
      · rw [hrest _ (by rwa [vpn_page hlt])] at he'
        exact .inl ⟨hlive, hlt, hn, e', he', rfl⟩
    · rintro (⟨-, hlt, hn, e', he', rfl⟩ | ⟨rfl, rfl, hn⟩)
      · have hnva : vpn (4096 * n) ≠ vpn va := by
          intro hnva
          rw [PageDir.pte_congr hnva, hnone] at he'
          cases he'
        exact ⟨by rwa [hstate], hlt, by rwa [hout], e', by rwa [hrest _ hnva], rfl⟩
      · exact ⟨by rwa [hstate], Proc.hasShared hself (by rwa [hout])⟩
  cases hmine : outside Region.isShared (k.procs p).mm (vpn va) with
  | true =>
    rw [hmine, Bool.not_true, slot_not_mine, zero_add] at hpages
    refine ⟨pool, h.step p hothers hpages (fun _ => ⟨l, htidy'⟩) hgone ?_ fun _ _ _ => hparent⟩
    intro n page
    rw [hnew, hmine]
    simp
  | false =>
    rw [hmine, Bool.not_false, slot_mine, Multiset.singleton_add] at hpages
    have hfresh : e.page ∉ pool :=
      (Multiset.nodup_cons.mp (Multiset.nodup_of_le ((Multiset.le_add_left _ _).trans (Multiset.le_add_left _ _)) hpages.1)).1
    refine ⟨e.page ::ₘ pool, h.change p hothers hpages (fun _ => ⟨l, htidy'⟩) hgone ?_⟩
    have hadd : Handed (fun p => (k.procs p).parent) k'.HasShared (e.page ::ₘ pool) := by
      apply h.handed.add (p := p) (i := vpn va) hfresh
      intro q n page
      by_cases hqp : q = p
      · subst hqp
        rw [hnew, hmine]
        simp
      · rw [Kernel.hasShared_congr (hothers q hqp)]
        simp [hqp]
    apply hadd.congr (fun _ _ _ => Iff.rfl)
    intro q _ _ _
    by_cases hqp : q = p
    · rw [hqp, hparent]
    · rw [hothers q hqp]

end

end SdeSystems.Wmap
