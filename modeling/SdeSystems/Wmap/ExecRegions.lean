import SdeSystems.Wmap.ExecFrees
import SdeSystems.Wmap.ForkLoaded

/-!
# What `exec` leaves of the mappings

`exec` gives the process a new page table, and the pages that were mapped are gone. The list of
regions stands in `struct proc`, and `exec` does not look at it: the regions stay listed, and
`n_loaded_pages` is what it was. From `MMAPBASE` on the new page table has the entries of the
kernel's half and no others, so after a successful `exec` the number is **right exactly where it was
the number of the kernel's entries in the range before**: 0 for a region that ends at or below
`KERNBASE`, and so where no page of the mapping was loaded.
-/

namespace SdeSystems.Wmap

open Lib Function

/-! ### The new page table -/

/-- No entry at or above `MMAPBASE`. -/
def NoneAbove (pd : PageDir) : Prop := ∀ va, 0x60000000 ≤ va → va < 2 ^ 32 → pd.pte va = none

section

variable {pd pd' : PageDir} {s s' : Image} {argv : List (List UInt8)}

theorem NoneAbove.of_sameAbove (h : NoneAbove pd) (hs : SameAbove pd pd') : NoneAbove pd' :=
  fun va h₁ h₂ => (hs va h₁ h₂).trans (h va h₁ h₂)

/-- `clearpteu` writes to an entry that is there. -/
theorem NoneAbove.clearpteu {uva : ℕ} (h : NoneAbove pd) (hc : clearpteu pd uva = some pd') : NoneAbove pd' := by
  unfold Wmap.clearpteu at hc
  split at hc
  · cases hc
  · rename_i t ht
    obtain rfl := Option.some.inj hc
    intro va h₁ h₂
    by_cases hva : vpn va = vpn uva
    · rw [PageDir.pte_congr hva, PageDir.pte_setPte_self (by simp [ht]), ← PageDir.pte_congr hva, h va h₁ h₂]
      rfl
    · rw [PageDir.pte_setPte_of_ne hva]
      exact h va h₁ h₂

/-- The new image is below `MMAPBASE`. -/
theorem NoneAbove.buildImage {elf : List UInt8} (hs : NoneAbove s.space.pgdir)
    (h : buildImage elf argv s = some (s', true)) : NoneAbove s'.space.pgdir := by
  refine buildImage_keeps (I := fun t => NoneAbove t.pgdir) ?_ ?_ ?_ h hs
  · intro t t' oldsz newsz sz ht hgrow _
    exact ht.of_sameAbove (allocuvm_sameAbove hgrow)
  · intro t t' ht hfills
    rwa [hfills.pgdir]
  · intro t uva pgdir ht hclear
    exact ht.clearpteu hclear

end

/-! ### The regions -/

/-- The entry for `va` is one of those that `setupkvm` makes, by `kmap`. These are all the entries of the page tables of
the kernel's half; they are the same in every page table, and `PageDir` leaves them out. -/
def InKmap (va : ℕ) : Prop := pdx va ∈ kernelTables

instance : DecidablePred InKmap := fun va => inferInstanceAs (Decidable (pdx va ∈ kernelTables))

/-- The number of the entries present in a range, with those of the kernel's half. -/
def presentPages (pd : PageDir) (start stop : ℕ) : ℕ :=
  (pageRange start stop).countP fun va => (pd.pte va).isSome ∨ InKmap va

/-- The number of the entries of the kernel's half in a range. -/
def kernelPages (start stop : ℕ) : ℕ := (pageRange start stop).countP fun va => InKmap va

/-- For each of the regions, `n_loaded_pages` is the number of the entries in its range that are present. -/
def LoadedRight (pr : Proc) (l : List (Fin 16)) : Prop := ∀ i ∈ l,
  (pr.mm.mmaps i).nLoadedPages = presentPages pr.pgdir (pr.mm.mmaps i).addr (pr.mm.mmaps i).stop

/-- The kernel's half begins at `KERNBASE`. -/
theorem kernelPages_eq_zero {start stop : ℕ} (h : stop ≤ 0x80000000) : kernelPages start stop = 0 := by
  apply List.countP_eq_zero.mpr
  intro va hva
  obtain ⟨n, rfl, hlt⟩ := mem_pageRange.mp hva
  have hpdx : (pdx (start + 4096 * n)).val < 512 := by
    unfold pdx
    dsimp only
    omega
  rw [decide_eq_true_eq]
  intro hin
  have hkernel := of_decide_eq_true (List.mem_filter.mp hin).2
  omega

section

variable {k k' : Kernel} {p : Fin 64} {ip : Option ℕ} {argv : List (List UInt8)} {l : List (Fin 16)}

/-- `exec` does not touch the mappings, and nothing is mapped at or above `MMAPBASE`. -/
theorem exec_regions (h : exec k p ip argv = some (k', 0)) :
    (k'.procs p).mm = (k.procs p).mm ∧ NoneAbove (k'.procs p).pgdir := by
  obtain ⟨i, s, -, himage, -, hprocs⟩ := exec_some h
  obtain ⟨mem, pgdir, elf, inode, hsetup, hbuild⟩ := imageOf_some himage
  rw [hprocs, update_self]
  exact ⟨rfl, NoneAbove.buildImage (fun va _ _ => setupkvm_pte hsetup va) hbuild⟩

/-- So the entries in the range of a region are those of the kernel's half. -/
theorem NoneAbove.presentPages {pd : PageDir} (h : NoneAbove pd) {r : Region} (hr : 0x60000000 ≤ r.addr) :
    presentPages pd r.addr r.stop = kernelPages r.addr r.stop := by
  apply List.countP_congr
  intro va hva
  obtain ⟨n, rfl, hlt⟩ := mem_pageRange.mp hva
  have hstop : r.stop < 2 ^ 32 := by
    unfold Region.stop u32
    omega
  simp [h _ (show 0x60000000 ≤ r.addr + 4096 * n by omega) (by omega)]

/-- The regions after an `exec` are right where they had the numbers of the kernel's entries before it. -/
theorem loadedRight_exec (hbase : ∀ i ∈ l, 0x60000000 ≤ ((k.procs p).mm.mmaps i).addr)
    (h : exec k p ip argv = some (k', 0)) : LoadedRight (k'.procs p) l ↔ ∀ i ∈ l,
      ((k.procs p).mm.mmaps i).nLoadedPages =
        kernelPages ((k.procs p).mm.mmaps i).addr ((k.procs p).mm.mmaps i).stop := by
  obtain ⟨hmm, hnone⟩ := exec_regions h
  refine forall₂_congr ?_
  intro i hi
  rw [hmm, hnone.presentPages (hbase i hi)]

/-- **The regions after an `exec`.** They are listed as before, and `n_loaded_pages` of all is right exactly where it
was the number of the entries of the kernel's half in the range for all. For a region that ends at or below `KERNBASE`
that number is 0: no page of the mapping was loaded. -/
theorem exec_loaded_pages_iff (hl : Linked (k.procs p).mm.next (k.procs p).mm.mmapHead l none)
    (hbase : ∀ i ∈ l, 0x60000000 ≤ ((k.procs p).mm.mmaps i).addr) (h : exec k p ip argv = some (k', 0)) :
    Linked (k'.procs p).mm.next (k'.procs p).mm.mmapHead l none ∧
      (LoadedRight (k'.procs p) l ↔ ∀ i ∈ l, ((k.procs p).mm.mmaps i).nLoadedPages =
        kernelPages ((k.procs p).mm.mmaps i).addr ((k.procs p).mm.mmaps i).stop) ∧
      ∀ i ∈ l, ((k.procs p).mm.mmaps i).stop ≤ 0x80000000 →
        kernelPages ((k.procs p).mm.mmaps i).addr ((k.procs p).mm.mmaps i).stop = 0 := by
  refine ⟨?_, loadedRight_exec hbase h, fun i _ => kernelPages_eq_zero⟩
  rw [(exec_regions h).1]
  exact hl

end

/-! ### A program -/

/-- A private mapping of two pages. -/
def oneMap : List Op := [.wmap initproc 0x60000000 0x2000 0xD (-1)]

/-- One of them is touched. -/
def oneTouch : List Op := oneMap ++ [.fault initproc 0x60000000]

/-- After a run of `wmap` and faults the regions are listed, and lie between `MMAPBASE` and `KERNBASE`. -/
theorem listed_of_run {k : Kernel} {ops : List Op} (h : runAll (bootProgram 300) ops = some k)
    (hops : ∀ op ∈ ops, ∀ p addr length, op ≠ .wpunmap p addr length) (hstate : (k.procs 0).state = .runnable) :
    ∃ l, Listed (k.procs 0).mm l ∧ ∀ i ∈ l, 0x60000000 ≤ ((k.procs 0).mm.mmaps i).addr ∧
      ((k.procs 0).mm.mmaps i).stop ≤ 0x80000000 := by
  have hreach : Reachable noWpunmap (bootProgram 300) k := reachable_of_runAll h fun op hop _ => hops op hop
  obtain ⟨l, ht, -⟩ := tables_of_reachable (bootProgram_fresh 300).tables hreach 0 (by simp [hstate])
  refine ⟨l, ht.toListed, fun i hi => ⟨(ht.region i hi).lo, ?_⟩⟩
  have hend := (ht.region i hi).stop_eq
  have hhi := (ht.region i hi).hi
  omega

theorem exec_loaded_pages_untouched : ∃ k k' l, runAll (bootProgram 300) oneMap = some k ∧ l ≠ [] ∧
    exec k 0 (some 0) [] = some (k', 0) ∧ LoadedRight (k'.procs 0) l := by
  have hrun : ((runAll (bootProgram 300) oneMap).bind fun k => (imageOf k 0 []).map fun out =>
      decide (out.2 = true ∧ (k.procs 0).state = .runnable ∧ (k.procs 0).mm.totalMmaps = 1 ∧
        ∀ i, ((k.procs 0).mm.mmaps i).nLoadedPages = 0)) = some true := by
    decide +kernel
  obtain ⟨k, hk, hrun⟩ := Option.bind_eq_some_iff.mp hrun
  obtain ⟨⟨s, ok⟩, himage, hout⟩ := Option.map_eq_some_iff.mp hrun
  obtain ⟨rfl, hstate, htotal, hzero⟩ := of_decide_eq_true hout
  obtain ⟨k', hexec⟩ := exec_of_image (p := 0) himage
  obtain ⟨l, hl, hin⟩ := listed_of_run hk (by simp [oneMap]) hstate
  obtain ⟨-, hright, hkernel⟩ := exec_loaded_pages_iff hl.linked (fun i hi => (hin i hi).1) hexec
  refine ⟨k, k', l, hk, ?_, hexec, hright.mpr ?_⟩
  · rintro rfl
    simpa [htotal] using hl.total
  · intro i hi
    rw [hzero i, hkernel i hi (hin i hi).2]
    rfl

/-- A page is touched, and after the `exec` it is still counted. -/
theorem exec_keeps_count : ∃ k k' l, runAll (bootProgram 300) oneTouch = some k ∧
    exec k 0 (some 0) [] = some (k', 0) ∧ Linked (k'.procs 0).mm.next (k'.procs 0).mm.mmapHead l none ∧
    ¬ LoadedRight (k'.procs 0) l := by
  have hrun : ((runAll (bootProgram 300) oneTouch).bind fun k => (imageOf k 0 []).map fun out =>
      decide (out.2 = true ∧ (k.procs 0).state = .runnable ∧ ((k.procs 0).mm.mmaps 0).addr = 0x60000000 ∧
        ((k.procs 0).mm.mmaps 0).nLoadedPages = 1)) = some true := by
    decide +kernel
  obtain ⟨k, hk, hrun⟩ := Option.bind_eq_some_iff.mp hrun
  obtain ⟨⟨s, ok⟩, himage, hout⟩ := Option.map_eq_some_iff.mp hrun
  obtain ⟨rfl, hstate, haddr, hone⟩ := of_decide_eq_true hout
  obtain ⟨k', hexec⟩ := exec_of_image (p := 0) himage
  obtain ⟨l, hl, hbounds⟩ := listed_of_run hk (by simp [oneTouch, oneMap]) hstate
  obtain ⟨hmm, hnone⟩ := exec_regions hexec
  have hin : 0 ∈ l := (hl.used 0).mpr (by simp [haddr])
  refine ⟨k, k', l, hk, hexec, by rw [hmm]; exact hl.linked, ?_⟩
  intro hright
  have hcount := hright 0 hin
  rw [hmm, hnone.presentPages (hbounds 0 hin).1, kernelPages_eq_zero (hbounds 0 hin).2, hone] at hcount
  cases hcount

end SdeSystems.Wmap
