import SdeSystems.Wmap.ForkLoaded
import Mathlib.Algebra.BigOperators.Group.Finset.Basic
import Mathlib.Algebra.BigOperators.Group.List.Basic
import Mathlib.Algebra.Order.BigOperators.Group.Finset
import Mathlib.Algebra.BigOperators.Ring.Finset

/-!
# Loaded pages are counted

In every run in which no range of `wpunmap` wraps around and the mapped files are long enough, the
regions of a process have exactly the user pages at and above `MMAPBASE`, and count them: what
`getwmapinfo` and `getpgdirinfo` report is the same.
-/

namespace SdeSystems.Wmap

open Lib Function Relation

/-! ### `fork`, `exit` and the rest -/

section

variable {k k' : Kernel} {p : Fin 64} {l : List (Fin 16)} {ret : ℤ}

theorem AllSound.fork (h : AllSound k) (hp : (k.procs p).state = .runnable)
    (hw : fork k p = some (k', ret)) : AllSound k' := by
  obtain ⟨l, hs⟩ := h p (by simp [hp])
  refine Kernel.Each.fork (P := fun pr => ∃ l, Sound pr l) h (fun hcopy hmaps => ?_) hw
  rw [copyMaps_eq hs.table.linked hs.table.length_le] at hmaps
  obtain ⟨cl, hc, he, hagree, huser⟩ := copyMaps_sound hs.table hmaps ⟨listed_init, rfl⟩ fun va h₁ h₂ =>
    copyuvm_pte hcopy hs.size h₁ h₂
  exact ⟨cl, hs.table.of_cores hc.listed he, hagree, huser, hs.size⟩

/-- What `delete_mmaps` leaves of the page table: nothing of the regions. -/
theorem deleteMmaps_pte {s s' : Deletion} (ht : Table s.mm l) (h : deleteMmaps s = some s') :
    (∀ va e, va < 2 ^ 32 → s'.space.pgdir.pte va = some e → s.space.pgdir.pte va = some e) ∧
      ∀ i ∈ l, ∀ va, (s.mm.mmaps i).addr ≤ va → va < (s.mm.mmaps i).pageEnd → s'.space.pgdir.pte va = none := by
  obtain ⟨s₁, hfor, rfl⟩ := deleteMmaps_some ht.toListed h
  suffices hloop : (∀ i, i ∉ l → s₁.mm.mmaps i = s.mm.mmaps i) ∧
      (∀ va e, va < 2 ^ 32 → s₁.space.pgdir.pte va = some e → s.space.pgdir.pte va = some e) ∧
      ∀ i ∈ l, ∀ va, (s.mm.mmaps i).addr ≤ va → va < (s.mm.mmaps i).pageEnd → s₁.space.pgdir.pte va = none from
    hloop.2
  refine forEach_done (I := fun done t => (∀ i, i ∉ done → t.mm.mmaps i = s.mm.mmaps i) ∧
    (∀ va e, va < 2 ^ 32 → t.space.pgdir.pte va = some e → s.space.pgdir.pte va = some e) ∧
    ∀ i ∈ done, ∀ va, (s.mm.mmaps i).addr ≤ va → va < (s.mm.mmaps i).pageEnd → t.space.pgdir.pte va = none)
    ?_ hfor ⟨fun _ _ => rfl, fun _ _ _ he => he, by simp⟩
  intro done i rest t t' hl ⟨hmm, hpte, hdone⟩ hb
  obtain ⟨t₁, hd, hk⟩ := Option.map_eq_some_iff.mp hb
  obtain ⟨rfl, -⟩ := Prod.mk.inj hk
  obtain ⟨d, fs, parent, hdrop, -, rfl, -⟩ := deleteRegion_cases hd
  have hi : i ∉ done := by
    have hnd := hl ▸ ht.nodup
    exact fun hi => (List.nodup_cons.mp (List.nodup_middle.mp hnd)).1 (by simp [hi])
  rw [hmm i hi] at hdrop
  have hr := ht.region i (by simp [hl])
  have hc := hr.dropPages_cleared hdrop
  obtain ⟨-, h₀, -, hhi⟩ := hr
  refine ⟨?_, fun va e hlt he => hpte va e hlt (hc.pte_some hlt he), ?_⟩
  · intro j hj
    rw [List.mem_append, List.mem_singleton, not_or] at hj
    simp only [Mmaps.reset, update_of_ne hj.2, hmm j hj.1]
  · intro j hj va h₁ h₂
    have hlt : va < 2 ^ 32 := by
      have hrj := ht.region j (by rw [hl]; rcases List.mem_append.mp hj with hj | hj <;> simp_all)
      obtain ⟨-, h₀', -, hhi'⟩ := hrj
      unfold Region.pageEnd at h₂
      omega
    rcases List.mem_append.mp hj with hj | hj
    · cases hpd : d.space.pgdir.pte va with
      | none => rfl
      | some e =>
        have := hc.pte_some hlt hpd
        rw [hdone j hj va h₁ h₂] at this
        cases this
    · rw [List.mem_singleton.mp hj] at h₁ h₂
      exact hc.cleared va hlt h₁ h₂

/-- After `delete_mmaps` nothing is left at or above `MMAPBASE`. -/
theorem Sound.deleteMmaps_above {s : Deletion} (hs : Sound (k.procs p) l) (hdel : deleteMmaps (deletion k p) = some s)
    (va : ℕ) (h₁ : 0x60000000 ≤ va) (h₂ : va < 2 ^ 32) : s.space.pgdir.pte va = none := by
  obtain ⟨hpte, hcleared⟩ := deleteMmaps_pte (s := deletion k p) hs.table hdel
  by_contra hne
  obtain ⟨e, he⟩ := Option.ne_none_iff_exists'.mp hne
  have hbefore : (k.procs p).pgdir.pte va = some e := hpte va e h₂ he
  rw [PageDir.pte_congr vpn_eq_pgrounddown] at he hbefore
  obtain ⟨i, hi, hlo, hhi⟩ := hs.agree.covered (va / 4096 * 4096) (by omega) (by omega) (by omega) (by simp [hbefore])
  have hend := (hs.table.region i hi).stop_le_pageEnd
  rw [hcleared i hi _ hlo (lt_of_lt_of_le hhi hend)] at he
  cases he

/-- Only the table, the page table and the size matter. -/
theorem Sound.congr {pr pr' : Proc} (h : Sound pr l) (hmm : pr'.mm = pr.mm) (hpd : pr'.pgdir = pr.pgdir)
    (hsz : pr'.sz = pr.sz) : Sound pr' l where
  table := hmm ▸ h.table
  agree := by
    rw [hmm, hpd]
    exact h.agree
  user := hpd ▸ h.user
  size := hsz ▸ h.size

theorem Sound.reparent {pr : Proc} (h : Sound pr l) : Sound (reparent p pr) l := by
  unfold Wmap.reparent
  split
  · exact h.congr rfl rfl rfl
  · exact h

/-- A parent's count of references does not matter. -/
theorem Sound.decParent {pr : Proc} {pm : Mmaps} {addr : ℕ} (h : Sound pr l) (hd : decParent pr.mm addr = some pm) :
    Sound { pr with mm := pm } l := by
  obtain rfl | ⟨j, hj, -, -, rfl⟩ := decParent_cases h.table.toListed hd
  · exact h
  · have hsame (x : Fin 16) : ∀ r, (pr.mm.set j { pr.mm.mmaps j with refcnt := (pr.mm.mmaps j).refcnt - 1 }).mmaps x = r →
        r.addr = (pr.mm.mmaps x).addr ∧ r.stop = (pr.mm.mmaps x).stop ∧
          r.nLoadedPages = (pr.mm.mmaps x).nLoadedPages := by
      rintro r rfl
      by_cases hx : x = j
      · subst hx
        simp [Mmaps.set, Region.stop]
      · simp [Mmaps.set, hx]
    refine ⟨h.table.set_same hj rfl rfl, ⟨?_, ?_⟩, h.user, h.size⟩
    · intro x hx
      obtain ⟨ha, hs, hn⟩ := hsame x _ rfl
      rw [ha, hs, hn]
      exact h.agree.counts x hx
    · intro va hal h₁ h₂ hpte
      obtain ⟨x, hx, hx'⟩ := h.agree.covered va hal h₁ h₂ hpte
      obtain ⟨ha, hs, -⟩ := hsame x _ rfl
      exact ⟨x, hx, by rwa [ha, hs]⟩

theorem AllSound.exit (h : AllSound k) (hp : (k.procs p).state = .runnable) (hw : exit k p = some k') :
    AllSound k' := by
  obtain ⟨l, hs⟩ := h p (by simp [hp])
  refine Kernel.Each.exit (P := fun pr => ∃ l, Sound pr l) h hs.table.toListed ?_
    (fun pr pm addr hpr hd => hpr.imp fun _ hl => hl.decParent hd) (fun pr hpr => hpr.imp fun _ hl => hl.reparent) hw
  intro s hdel hex
  have hself := deleteMmaps_listed hs.table.toListed hdel
  have hnone := hs.deleteMmaps_above hdel
  refine ⟨[], by rw [hex.mm]; exact ⟨hself, by simp, by simp⟩, ⟨by simp, ?_⟩, ?_, by rw [hex.sz]; exact hs.size⟩
  · intro va _ h₁ h₂ hpte
    rw [hex.pgdir] at hpte
    exact absurd (hnone va h₁ h₂) hpte
  · intro va e h₁ h₂ he
    rw [hex.pgdir, hnone va h₁ h₂] at he
    cases he

theorem AllSound.wait (h : AllSound k) (hw : wait k p = some (k', ret)) : AllSound k' :=
  Kernel.Each.wait (P := fun pr => ∃ l, Sound pr l) h hw

theorem AllSound.store (h : AllSound k) {va : BitVec 32} {b : UInt8} (hw : store k p va b = some k') :
    AllSound k' := by
  obtain ⟨e, -, rfl⟩ := store_cases hw
  exact h

/-- The mappings of files are of regular files that are at least as long. -/
def FilesLong (k : Kernel) : Prop :=
  ∀ p i, (k.procs p).state ≠ .unused → ((k.procs p).mm.mmaps i).addr ≠ 2 ^ 32 - 1 →
    ((k.procs p).mm.mmaps i).FileLong k.fs

/-- Every operation keeps all processes sound, where no range of `wpunmap` wraps around and the mapped
files are long enough. -/
theorem AllSound.run (h : AllSound k) {op : Op} (hp : ∀ p, op.proc = some p → (k.procs p).state = .runnable)
    (hwrap : ∀ p addr length, op = .wpunmap p addr length → NoWrap addr length) (hlong : FilesLong k)
    (hrun : op.run k = some k') : AllSound k' := by
  -- an operation that changes one process only
  have hone {p : Fin 64} {pr : Proc} {mem : Mem} {fs : Fs} {l' : List (Fin 16)} (hpr : Sound pr l') :
      AllSound (k.put p pr mem fs) := h.put mem fs fun _ => ⟨l', hpr⟩
  cases op with
  | wmap p addr length flags fd =>
    obtain ⟨⟨k₁, r⟩, hw, rfl⟩ := Option.map_eq_some_iff.mp hrun
    obtain ⟨l, hs⟩ := h p (by simp [hp p rfl])
    obtain ⟨pr, mem, fs, l', rfl, hpr⟩ := hs.wmap hw
    exact hone hpr
  | wunmap p addr =>
    obtain ⟨⟨k₁, r⟩, hw, rfl⟩ := Option.map_eq_some_iff.mp hrun
    obtain ⟨l, hs⟩ := h p (by simp [hp p rfl])
    obtain ⟨pr, mem, fs, l', rfl, hpr⟩ := hs.wunmap hw
    exact hone hpr
  | wpunmap p addr length =>
    obtain ⟨⟨k₁, r⟩, hw, rfl⟩ := Option.map_eq_some_iff.mp hrun
    obtain ⟨l, hs⟩ := h p (by simp [hp p rfl])
    obtain ⟨pr, mem, fs, l', rfl, hpr⟩ := hs.wpunmap (hwrap p addr length rfl) hw
    exact hone hpr
  | fault p addr =>
    obtain ⟨⟨k₁, r⟩, hw, rfl⟩ := Option.map_eq_some_iff.mp hrun
    obtain ⟨l, hs⟩ := h p (by simp [hp p rfl])
    obtain ⟨pr, mem, fs, l', rfl, hpr⟩ := hs.fault
      (fun i hi => hlong p i (by simp [hp p rfl]) ((hs.table.used i).mp hi)) hw
    exact hone hpr
  | sbrk p n =>
    obtain ⟨⟨k₁, r⟩, hw, rfl⟩ := Option.map_eq_some_iff.mp hrun
    obtain ⟨l, hs⟩ := h p (by simp [hp p rfl])
    obtain ⟨pr, mem, fs, l', rfl, hpr⟩ := hs.sbrk hw
    exact hone hpr
  | fork p =>
    obtain ⟨⟨k₁, r⟩, hw, rfl⟩ := Option.map_eq_some_iff.mp hrun
    exact h.fork (hp p rfl) hw
  | exit p => exact h.exit (hp p rfl) hrun
  | wait p =>
    obtain ⟨⟨k₁, r⟩, hw, rfl⟩ := Option.map_eq_some_iff.mp hrun
    exact h.wait hw
  | store p va b => exact h.store hrun
  | take =>
    obtain ⟨⟨page, mem⟩, -, rfl⟩ := Option.map_eq_some_iff.mp hrun
    exact h
  | give page =>
    obtain ⟨-, rfl⟩ := give_cases hrun
    exact h

end

/-! ### The two reports -/

section

variable {mm : Mmaps} {pd : PageDir} {l : List (Fin 16)}

/-- `getwmapinfo` goes along the whole list. -/
theorem regionsFrom_eq {n : ℕ} {cur : Option (Fin 16)} (hl : Linked mm.next cur l none) (hn : l.length ≤ n) :
    regionsFrom mm n cur = l.map mm.mmaps := by
  induction l generalizing cur n with
  | nil =>
    obtain rfl : cur = none := hl
    cases n <;> rfl
  | cons i l ih =>
    obtain ⟨rfl, hl⟩ := hl
    obtain ⟨n, rfl⟩ : ∃ m, n = m + 1 := ⟨n - 1, by simp at hn; omega⟩
    simp only [regionsFrom, List.map_cons]
    rw [ih hl (by simpa using hn)]

/-- The present pages of a range as a set. -/
def loadedPages (pd : PageDir) (start stop : ℕ) : Finset ℕ :=
  (pageRange start stop).toFinset.filter fun va => (pd.pte va).isSome

theorem card_loadedPages (pd : PageDir) (start stop : ℕ) : (loadedPages pd start stop).card = loaded pd start stop := by
  rw [loadedPages, ← List.toFinset_filter, List.toFinset_card_of_nodup (nodup_pageRange.filter _), loaded,
    List.countP_eq_length_filter]

theorem mem_loadedPages {start stop va : ℕ} (hal : start % 4096 = 0) : va ∈ loadedPages pd start stop ↔
    (start ≤ va ∧ va < stop ∧ va % 4096 = 0) ∧ (pd.pte va).isSome := by
  rw [loadedPages, Finset.mem_filter, List.mem_toFinset, mem_pageRange_of_aligned hal]

/-- The regions have all the entries at and above `MMAPBASE` between them. -/
theorem loaded_sum (ht : Table mm l) (ha : Agree pd mm l) :
    (l.map fun i => loaded pd (mm.mmaps i).addr (mm.mmaps i).stop).sum = loaded pd 0x60000000 0x80000000 := by
  have hunion : loadedPages pd 0x60000000 0x80000000 =
      l.toFinset.biUnion fun i => loadedPages pd (mm.mmaps i).addr (mm.mmaps i).stop := by
    ext va
    simp only [Finset.mem_biUnion, List.mem_toFinset, mem_loadedPages (show 0x60000000 % 4096 = 0 by decide)]
    constructor
    · rintro ⟨⟨h₁, h₂, h₃⟩, hpte⟩
      obtain ⟨i, hi, hi₁, hi₂⟩ := ha.covered va h₃ h₁ (by omega) (Option.isSome_iff_ne_none.mp hpte)
      exact ⟨i, hi, (mem_loadedPages (ht.region i hi).aligned).mpr ⟨⟨hi₁, hi₂, h₃⟩, hpte⟩⟩
    · rintro ⟨i, hi, hva⟩
      have hr := ht.region i hi
      have hend := hr.stop_eq
      obtain ⟨hal, -, hlo, hhi⟩ := hr
      obtain ⟨⟨h₁, h₂, h₃⟩, hpte⟩ := (mem_loadedPages hal).mp hva
      exact ⟨⟨by omega, by omega, h₃⟩, hpte⟩
  rw [← card_loadedPages, hunion, Finset.card_biUnion, List.sum_toFinset _ ht.nodup]
  · simp only [card_loadedPages]
  · intro i hi j hj hne
    rw [Finset.mem_coe, List.mem_toFinset] at hi hj
    apply Finset.disjoint_left.mpr
    intro va hvi hvj
    have hri := ht.region i hi
    have hrj := ht.region j hj
    obtain ⟨⟨h₁, h₂, -⟩, -⟩ := (mem_loadedPages hri.aligned).mp hvi
    obtain ⟨⟨h₃, h₄, -⟩, -⟩ := (mem_loadedPages hrj.aligned).mp hvj
    have := hri.stop_le_pageEnd
    have := hrj.stop_le_pageEnd
    have := ht.apart i hi j hj hne
    unfold Region.Apart at this
    omega

/-- `getpgdirinfo` counts the entries at and above `MMAPBASE`, if they are all those of user pages. -/
theorem userPages_above (huser : ∀ va e, 0x60000000 ≤ va → va < 2 ^ 32 → pd.pte va = some e → e.u = true) :
    (userPages pd).countP (fun x => 0x60000000 ≤ x.1) = loaded pd 0x60000000 0x80000000 := by
  have hfst (va : ℕ) (x : ℕ × ℕ) (hx : ((pd.pte va).bind fun e => if e.u then some (va, e.page) else none) = some x) :
      x.1 = va := by
    obtain ⟨e, -, he⟩ := Option.bind_eq_some_iff.mp hx
    split at he
    · rw [← Option.some.inj he]
    · cases he
  rw [userPages, pageRange_append (show 0 ≤ 0x60000000 by omega) (show 0x60000000 ≤ 0x80000000 by omega) (by decide),
    List.filterMap_append, List.countP_append]
  have hbelow : ((pageRange 0 0x60000000).filterMap fun va =>
      (pd.pte va).bind fun e => if e.u then some (va, e.page) else none).countP (fun x => 0x60000000 ≤ x.1) = 0 := by
    rw [List.countP_eq_zero]
    intro x hx
    obtain ⟨va, hva, hx⟩ := List.mem_filterMap.mp hx
    have := lt_of_mem_pageRange hva
    rw [hfst va x hx]
    simpa using this
  rw [hbelow, zero_add, List.countP_filterMap, loaded]
  apply List.countP_congr
  intro va hva
  obtain ⟨h₁, h₂, -⟩ := (mem_pageRange_of_aligned (show 0x60000000 % 4096 = 0 by decide)).mp hva
  cases hpte : pd.pte va with
  | none => simp
  | some e => simp [huser va e h₁ (by omega) hpte, h₁]

end

/-! ### Runs -/

/-- The processes of a fresh kernel have no mappings, nothing at or above `MMAPBASE`, and a heap below. -/
def FreshSpaces (k : Kernel) : Prop := ∀ p, (k.procs p).state ≠ .unused → (k.procs p).mm = initMmaps ∧
  (∀ va, 0x60000000 ≤ va → va < 2 ^ 32 → (k.procs p).pgdir.pte va = none) ∧ (k.procs p).sz ≤ 0x60000000

/-- Runs in which no range of `wpunmap` wraps around and the mapped files are long enough. -/
def countable (k : Kernel) (op : Op) : Prop :=
  (∀ p addr length, op = .wpunmap p addr length → NoWrap addr length) ∧ FilesLong k

theorem allSound_of_reachable {k₀ k : Kernel} (h₀ : FreshSpaces k₀) (h : Reachable countable k₀ k) : AllSound k := by
  induction h with
  | refl =>
    intro p hp
    obtain ⟨hmm, hpte, hsz⟩ := h₀ p hp
    refine ⟨[], hmm ▸ table_init, ⟨by simp, fun va _ h₁ h₂ h => absurd (hpte va h₁ h₂) h⟩, ?_, hsz⟩
    intro va e h₁ h₂ he
    rw [hpte va h₁ h₂] at he
    cases he
  | tail _ hstep ih =>
    obtain ⟨op, hp, ⟨hwrap, hlong⟩, hrun⟩ := hstep
    exact ih.run hp hwrap hlong hrun

/-- **The list and the page table of a process agree in every run**: each user page at or above
`MMAPBASE` lies in exactly one region, each region counts its pages, and so `getwmapinfo` reports as
many loaded pages as `getpgdirinfo` counts there. -/
theorem loaded_pages_agree {k₀ k : Kernel} (h₀ : FreshSpaces k₀) (h : Reachable countable k₀ k) (p : Fin 64)
    (hp : (k.procs p).state ≠ .unused) :
    ∃ l, Linked (k.procs p).mm.next (k.procs p).mm.mmapHead l none ∧
      (∀ va e, 0x60000000 ≤ va → va < 2 ^ 32 → (k.procs p).pgdir.pte va = some e → e.u = true →
        ∃! i, i ∈ l ∧ ((k.procs p).mm.mmaps i).addr ≤ va ∧ va < ((k.procs p).mm.mmaps i).pageEnd) ∧
      (∀ i ∈ l, ((k.procs p).mm.mmaps i).nLoadedPages =
        ((pageRange ((k.procs p).mm.mmaps i).addr
          (((k.procs p).mm.mmaps i).addr + ((k.procs p).mm.mmaps i).length).toNat).filter fun va =>
            ((k.procs p).pgdir.pte va).isSome).length) ∧
      (sysGetwmapinfo (k.procs p)).nLoadedPages.sum =
        (userPages (k.procs p).pgdir).countP (fun x => 0x60000000 ≤ x.1) := by
  obtain ⟨l, hs⟩ := allSound_of_reachable h₀ h p hp
  have ht := hs.table
  refine ⟨l, ht.linked, ?_, ?_, ?_⟩
  · intro va e h₁ h₂ he _
    rw [PageDir.pte_congr vpn_eq_pgrounddown] at he
    obtain ⟨i, hi, hlo, hhi⟩ := hs.agree.covered (va / 4096 * 4096) (by omega) (by omega) (by omega) (by simp [he])
    have hle := (ht.region i hi).stop_le_pageEnd
    have hlast : ((k.procs p).mm.mmaps i).pageEnd % 4096 = 0 := by
      unfold Region.pageEnd
      omega
    refine ⟨i, ⟨hi, by omega, by omega⟩, ?_⟩
    rintro j ⟨hj, hj₁, hj₂⟩
    by_contra hne
    have := ht.apart i hi j hj (Ne.symm hne)
    unfold Region.Apart at this
    omega
  · intro i hi
    have hend := (ht.region i hi).stop_eq
    rw [hs.agree.counts i hi, loaded, List.countP_eq_length_filter,
      show (((k.procs p).mm.mmaps i).addr + ((k.procs p).mm.mmaps i).length).toNat = ((k.procs p).mm.mmaps i).stop by
        omega]
  · rw [userPages_above hs.user, ← loaded_sum ht hs.agree, sysGetwmapinfo]
    dsimp only
    rw [regionsFrom_eq ht.linked ht.length_le, List.map_map, Nat.cast_list_sum, List.map_map]
    congr 1
    exact List.map_congr_left fun i hi => hs.agree.counts i hi

theorem boot_freshSpaces (n : ℕ) : FreshSpaces (boot n) := by
  intro p hp
  obtain rfl : p = 0 := by
    by_contra hne
    exact hp (by simp [boot, hne])
  refine ⟨rfl, fun va h₁ h₂ => boot_pte (by omega) h₂, ?_⟩
  change 4096 ≤ 0x60000000
  omega

/-- Two pages are mapped, and the second is touched. -/
theorem loaded_pages_agree_wmap :
    ∃ k, runAll (boot 8) [.wmap 0 0x60000000 0x1800 0xD (-1), .fault 0 0x60001000] = some k ∧
      (sysGetwmapinfo (k.procs 0)).nLoadedPages.sum = 1 ∧
      (sysGetwmapinfo (k.procs 0)).nLoadedPages.sum =
        (userPages (k.procs 0).pgdir).countP (fun x => 0x60000000 ≤ x.1) := by
  have hrun : ((Op.wmap 0 0x60000000 0x1800 0xD (-1)).run (boot 8)).bind (fun k₁ =>
      ((Op.fault 0 0x60001000).run k₁).map fun k => decide ((k₁.procs 0).state = .runnable ∧
        (∀ p, (k₁.procs p).state ≠ .unused → p = 0) ∧ (∀ i, ((k₁.procs 0).mm.mmaps i).f = none) ∧
        (k.procs 0).state = .runnable ∧ (sysGetwmapinfo (k.procs 0)).nLoadedPages.sum = 1)) = some true := by
    decide +kernel
  obtain ⟨k₁, hk₁, hout⟩ := Option.bind_eq_some_iff.mp hrun
  obtain ⟨k, hk, hout⟩ := Option.map_eq_some_iff.mp hout
  obtain ⟨hp₁, halone, hfile, hp, hone⟩ := of_decide_eq_true hout
  have hboth : runAll (boot 8) [.wmap 0 0x60000000 0x1800 0xD (-1), .fault 0 0x60001000] = some k := by
    have hboot : ((boot 8).procs 0).state = .runnable := rfl
    simp only [runAll, Op.proc, Option.all_some, hboot, hp₁, hk₁, hk, decide_true, if_true, Option.bind_some]
  have hreach : Reachable countable (boot 8) k := by
    refine .tail (.single ⟨_, ?_, ⟨by simp, fun p i _ hi => absurd rfl hi⟩, hk₁⟩) ⟨_, ?_, ⟨by simp, ?_⟩, hk⟩
    · intro p hp
      obtain rfl : 0 = p := by simpa [Op.proc] using hp
      rfl
    · intro p hp
      obtain rfl : 0 = p := by simpa [Op.proc] using hp
      exact hp₁
    · intro p i hp hi _ f hf
      rw [halone p hp, hfile i] at hf
      cases hf
  obtain ⟨l, -, -, -, hsum⟩ := loaded_pages_agree (boot_freshSpaces 8) hreach 0 (by simp [hp])
  exact ⟨k, hboth, hone, hsum⟩

end SdeSystems.Wmap
