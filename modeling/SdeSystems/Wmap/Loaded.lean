import SdeSystems.Wmap.PartialUnmap

/-!
# Every list agrees with its page table

That the list of regions and the page table of a process agree is kept by every operation: `wmap`
finds no entries in the room for a new region, `wunmap` and `wpunmap` clear what they no longer
count, a page fault counts the page it maps, and the heap stays below `MMAPBASE`. What `fork`
builds is in `ForkLoaded`.
-/

namespace SdeSystems.Wmap

open Lib Function

/-! ### The page table above the heap -/

/-- The entries at or above `MMAPBASE` are the same. -/
def SameAbove (pd pd' : PageDir) : Prop := ∀ va, 0x60000000 ≤ va → va < 2 ^ 32 → pd'.pte va = pd.pte va

section

variable {pd pd' pd'' : PageDir} {s s' : Space} {oldsz newsz sz : ℕ}

theorem SameAbove.trans (h : SameAbove pd pd') (h' : SameAbove pd' pd'') : SameAbove pd pd'' :=
  fun va h₁ h₂ => (h' va h₁ h₂).trans (h va h₁ h₂)

theorem vpn_ne_of_below {a va : ℕ} (ha : a < 0x60000000) (hva : 0x60000000 ≤ va) (hlt : va < 2 ^ 32) :
    vpn va ≠ vpn a := by
  unfold vpn
  omega

theorem setPte_sameAbove {a : ℕ} {x : Option Pte} (ha : a < 0x60000000) : SameAbove pd (pd.setPte a x) :=
  fun _ h₁ h₂ => PageDir.pte_setPte_of_ne (vpn_ne_of_below ha h₁ h₂)

theorem mapNew_sameAbove {a : ℕ} {content : ℕ → UInt8} {w u : Bool} {out : Mapped}
    (h : mapNew s a content w u = some (s', out)) (ha : a < 0x60000000) : SameAbove s.pgdir s'.pgdir :=
  fun _ h₁ h₂ => mapNew_pte_of_ne h (vpn_ne_of_below ha h₁ h₂)

theorem lt_of_mem_pageRange {a start stop : ℕ} (h : a ∈ pageRange start stop) : a < stop := by
  obtain ⟨n, rfl, hlt⟩ := mem_pageRange.mp h
  exact hlt

theorem deallocuvm_sameAbove (h : deallocuvm s oldsz newsz = some (s', sz)) (hold : oldsz ≤ 0x60000000) :
    SameAbove s.pgdir s'.pgdir := by
  unfold deallocuvm at h
  split at h
  · obtain ⟨rfl, -⟩ := Prod.mk.inj (Option.some.inj h)
    exact fun _ _ _ => rfl
  · obtain ⟨⟨s₁, ok⟩, hloop, hk⟩ := Option.map_eq_some_iff.mp h
    obtain ⟨rfl, -⟩ := Prod.mk.inj hk
    refine forEach_keeps (I := fun t : Space => SameAbove s.pgdir t.pgdir) ?_ (forPages_some hloop) fun _ _ _ => rfl
    intro a ha t t' ok ht hb
    have hlt := lt_of_mem_pageRange ha
    split at hb
    · obtain ⟨rfl, -⟩ := Prod.mk.inj (Option.some.inj hb)
      exact ht
    · obtain ⟨rfl, -⟩ := Prod.mk.inj (Option.some.inj hb)
      exact ht.trans (setPte_sameAbove (by omega))

theorem deallocuvm_size (h : deallocuvm s oldsz newsz = some (s', sz)) : sz ≤ oldsz := by
  unfold deallocuvm at h
  split at h
  · exact ((Prod.mk.inj (Option.some.inj h)).2).ge
  · obtain ⟨⟨s₁, ok⟩, -, hk⟩ := Option.map_eq_some_iff.mp h
    obtain ⟨-, rfl⟩ := Prod.mk.inj hk
    omega

theorem allocuvm_sameAbove (h : allocuvm s oldsz newsz = some (s', sz)) : SameAbove s.pgdir s'.pgdir := by
  unfold allocuvm at h
  split at h
  · obtain ⟨rfl, -⟩ := Prod.mk.inj (Option.some.inj h)
    exact fun _ _ _ => rfl
  split at h
  · obtain ⟨rfl, -⟩ := Prod.mk.inj (Option.some.inj h)
    exact fun _ _ _ => rfl
  · obtain ⟨⟨s₁, ok⟩, hloop, hk⟩ := Option.map_eq_some_iff.mp h
    obtain ⟨rfl, -⟩ := Prod.mk.inj hk
    refine forEach_keeps (I := fun t : Space => SameAbove s.pgdir t.pgdir) ?_ (forPages_some hloop) fun _ _ _ => rfl
    intro a ha t t' ok ht hb
    have hlt := lt_of_mem_pageRange ha
    split at hb
    · cases hb
    · rename_i hmap
      obtain ⟨rfl, -⟩ := Prod.mk.inj (Option.some.inj hb)
      exact ht.trans (mapNew_sameAbove hmap (by omega))
    · rename_i t₁ hmap
      obtain ⟨⟨t₂, n⟩, hd, hk⟩ := Option.map_eq_some_iff.mp hb
      obtain ⟨rfl, -⟩ := Prod.mk.inj hk
      have hd' : SameAbove t₁.pgdir t₂.pgdir := deallocuvm_sameAbove hd (by omega)
      exact (ht.trans (mapNew_sameAbove hmap (by omega))).trans hd'
    · rename_i t₁ page hmap
      obtain ⟨⟨t₂, n⟩, hd, hk⟩ := Option.map_eq_some_iff.mp hb
      obtain ⟨rfl, -⟩ := Prod.mk.inj hk
      have hd' : SameAbove t₁.pgdir t₂.pgdir := deallocuvm_sameAbove hd (by omega)
      exact (ht.trans (mapNew_sameAbove hmap (by omega))).trans hd'

theorem allocuvm_size (h : allocuvm s oldsz newsz = some (s', sz)) : sz ≤ oldsz ∨ sz < 0x60000000 := by
  unfold allocuvm at h
  split at h
  · obtain ⟨-, rfl⟩ := Prod.mk.inj (Option.some.inj h)
    omega
  split at h
  · exact .inl ((Prod.mk.inj (Option.some.inj h)).2).ge
  · obtain ⟨⟨s₁, ok⟩, -, hk⟩ := Option.map_eq_some_iff.mp h
    obtain ⟨-, rfl⟩ := Prod.mk.inj hk
    split <;> omega

end

/-! ### Sound processes -/

/-- The list and the page table of a process agree, the pages of its regions are user pages, and its
heap is below `MMAPBASE`. -/
structure Sound (pr : Proc) (l : List (Fin 16)) : Prop where
  /-- The table is in order. -/
  table : Table pr.mm l
  /-- The list and the page table agree. -/
  agree : Agree pr.pgdir pr.mm l
  /-- The entries at or above `MMAPBASE` are those of user pages. -/
  user : ∀ va e, 0x60000000 ≤ va → va < 2 ^ 32 → pr.pgdir.pte va = some e → e.u = true
  /-- The heap is below `MMAPBASE`. -/
  size : pr.sz ≤ 0x60000000

section

variable {pd pd' : PageDir} {mm mm' : Mmaps} {l l' : List (Fin 16)} {i : Fin 16}

/-- A page table that is the same at and above `MMAPBASE`. -/
theorem Agree.of_sameAbove (h : Agree pd mm l) (ht : Table mm l) (hs : SameAbove pd pd') : Agree pd' mm l where
  counts i hi := by
    rw [h.counts i hi, loaded_congr fun va hva => ?_]
    have hr := ht.region i hi
    have hend := hr.stop_eq
    obtain ⟨-, -, hlo, hhi⟩ := hr
    obtain ⟨n, rfl, hlt⟩ := mem_pageRange.mp hva
    exact (hs _ (by omega) (by omega)).symm
  covered va hal hlo hlt hpte := h.covered va hal hlo hlt (by rwa [hs va hlo hlt] at hpte)

/-- A new region with no entries in it. -/
theorem Agree.add {m : Fin 16} (h : Agree pd mm l) (ht' : Table mm' l') (hl' : ∀ x, x ∈ l' ↔ x = m ∨ x ∈ l) (hm : m ∉ l)
    (hothers : ∀ x ∈ l, mm'.mmaps x = mm.mmaps x) (hzero : (mm'.mmaps m).nLoadedPages = 0) : Agree pd mm' l' := by
  have hne (x : Fin 16) (hx : x ∈ l) : x ≠ m := fun hxm => hm (hxm ▸ hx)
  constructor
  · intro x hx
    rcases (hl' x).mp hx with rfl | hxl
    · -- an entry in the new region would be in a region that is apart from it
      rw [hzero, loaded_eq_zero]
      · rfl
      · intro va hva
        have hr := ht'.region x hx
        have hend := hr.stop_eq
        have hle := hr.stop_le_pageEnd
        obtain ⟨hal, -, hlo, hhi⟩ := hr
        obtain ⟨h₁, h₂, h₃⟩ := (mem_pageRange_of_aligned hal).mp hva
        by_contra hpte
        obtain ⟨y, hy, hy₁, hy₂⟩ := h.covered va h₃ (by omega) (by omega) hpte
        have hy' : y ∈ l' := (hl' y).mpr (.inr hy)
        rw [← hothers y hy] at hy₁ hy₂
        have hley := (ht'.region y hy').stop_le_pageEnd
        have := ht'.apart x hx y hy' (hne y hy).symm
        unfold Region.Apart at this
        omega
    · rw [hothers x hxl]
      exact h.counts x hxl
  · intro va hal hlo hlt hpte
    obtain ⟨x, hx, hx'⟩ := h.covered va hal hlo hlt hpte
    exact ⟨x, (hl' x).mpr (.inr hx), by rwa [hothers x hx]⟩

/-- A page is mapped in a range: there is one more. -/
theorem loaded_map {a b va : ℕ} (ha : a % 4096 = 0) (hal : va % 4096 = 0) (hlo : a ≤ va) (hhi : va < b)
    (hb : b ≤ 2 ^ 32) (hnone : pd.pte va = none) (hsome : pd'.pte va ≠ none)
    (hothers : ∀ x, x % 4096 = 0 → x < 2 ^ 32 → x ≠ va → pd'.pte x = pd.pte x) :
    loaded pd' a b = loaded pd a b + 1 := by
  -- the range is its part in front of the page, the page, and its part behind it
  have hsplit (d : PageDir) : loaded d a b =
      loaded d a va + (loaded d (va + 4096) b + if (d.pte va).isSome then 1 else 0) := by
    rw [loaded_append hlo hhi.le (by omega)]
    congr 1
    simp only [loaded, pageRange_cons hhi, List.countP_cons]
  have hfront : loaded pd' a va = loaded pd a va := by
    apply loaded_congr
    intro x hx
    obtain ⟨h₁, h₂, h₃⟩ := (mem_pageRange_of_aligned ha).mp hx
    exact hothers x h₃ (by omega) (by omega)
  have hback : loaded pd' (va + 4096) b = loaded pd (va + 4096) b := by
    apply loaded_congr
    intro x hx
    obtain ⟨h₁, h₂, h₃⟩ := (mem_pageRange_of_aligned (by omega)).mp hx
    exact hothers x h₃ (by omega) (by omega)
  have hsome' : (pd'.pte va).isSome = true := Option.isSome_iff_ne_none.mpr hsome
  rw [hsplit pd, hsplit pd', hfront, hback, hnone, hsome']
  simp only [Option.isSome_none, Bool.false_eq_true, if_false, if_true]
  omega

/-- A page is mapped in the region `i`, and counted. -/
theorem Agree.map {va : ℕ} (h : Agree pd mm l) (ht : Table mm l) (hi : i ∈ l) (hal : va % 4096 = 0)
    (hlo : (mm.mmaps i).addr ≤ va) (hhi : va < (mm.mmaps i).stop) (hnone : pd.pte va = none)
    (hsome : pd'.pte va ≠ none) (hothers : ∀ a, vpn a ≠ vpn va → pd'.pte a = pd.pte a) :
    Agree pd' (mm.set i { mm.mmaps i with nLoadedPages := (mm.mmaps i).nLoadedPages + 1 }) l := by
  have hr := ht.region i hi
  have hend := hr.stop_eq
  have hle := hr.stop_le_pageEnd
  obtain ⟨hali, -, hloi, hhii⟩ := hr
  have hother (a : ℕ) (ha : a % 4096 = 0) (hlt : a < 2 ^ 32) (hne : a ≠ va) : pd'.pte a = pd.pte a :=
    hothers a (vpn_ne ha hal hlt (by omega) hne)
  constructor
  · intro x hx
    have hrx := ht.region x hx
    have hendx := hrx.stop_eq
    have hlex := hrx.stop_le_pageEnd
    obtain ⟨halx, -, hlox, hhix⟩ := hrx
    by_cases hxi : x = i
    · subst hxi
      simp only [Mmaps.set, update_self]
      change (mm.mmaps x).nLoadedPages + 1 = (loaded pd' (mm.mmaps x).addr (mm.mmaps x).stop : ℕ)
      rw [h.counts x hi, loaded_map hali hal hlo hhi (by omega) hnone hsome hother]
      omega
    · simp only [Mmaps.set, update_of_ne hxi]
      rw [h.counts x hx, loaded_congr fun a ha => ?_]
      obtain ⟨h₁, h₂, h₃⟩ := (mem_pageRange_of_aligned halx).mp ha
      refine (hother a h₃ (by omega) ?_).symm
      intro hav
      have := ht.apart i hi x hx (Ne.symm hxi)
      unfold Region.Apart at this
      omega
  · intro a ha hlo' hlt hpte
    have haddr (x : Fin 16) : ((mm.set i { mm.mmaps i with
        nLoadedPages := (mm.mmaps i).nLoadedPages + 1 }).mmaps x).addr = (mm.mmaps x).addr ∧
        ((mm.set i { mm.mmaps i with
          nLoadedPages := (mm.mmaps i).nLoadedPages + 1 }).mmaps x).stop = (mm.mmaps x).stop := by
      by_cases hxi : x = i
      · subst hxi
        simp [Mmaps.set, Region.stop]
      · simp [Mmaps.set, hxi]
    by_cases hav : a = va
    · subst hav
      exact ⟨i, hi, by rw [(haddr i).1, (haddr i).2]; exact ⟨hlo, hhi⟩⟩
    · rw [hother a ha hlt hav] at hpte
      obtain ⟨x, hx, hx'⟩ := h.covered a ha hlo' hlt hpte
      exact ⟨x, hx, by rwa [(haddr x).1, (haddr x).2]⟩

end

/-! ### The operations of one process -/

/-- All processes are sound. -/
def AllSound (k : Kernel) : Prop := ∀ p, (k.procs p).state ≠ .unused → ∃ l, Sound (k.procs p) l

section

variable {k k' : Kernel} {p : Fin 64} {l : List (Fin 16)} {pr : Proc} {ret : ℤ}

/-- One process is replaced by one that is sound. -/
theorem AllSound.put (h : AllSound k) (mem : Mem) (fs : Fs) (hpr : pr.state ≠ .unused → ∃ l, Sound pr l) :
    AllSound (k.put p pr mem fs) :=
  Kernel.Each.put (P := fun pr => ∃ l, Sound pr l) h rfl hpr

theorem Sound.wmap (h : Sound (k.procs p) l) {addr length flags fd : BitVec 32}
    (hw : sysWmap k p addr length flags fd = some (k', ret)) :
    ∃ pr mem fs l', k' = k.put p pr mem fs ∧ Sound pr l' := by
  cases sysWmap_cases h.table hw with
  | failed fs => exact ⟨k.procs p, k.mem, fs, l, Kernel.put_self.symm, h⟩
  | @placed a mm m fd f fs hpl hlen _ hal hlo hhi =>
    have hgood : Good false (Wmap.placed mm m ⟨a, length.toInt, flags, fd, f, 0, 0⟩) :=
      Good.placed h.table (by simp) hpl hlen hal hlo hhi
    obtain ⟨l', ht', -⟩ := hgood
    refine ⟨_, _, _, l', rfl, ht', ?_, h.user, h.size⟩
    cases hpl with
    | some l₁ l₂ hl hm hmm =>
      have hnew : (Wmap.placed mm m ⟨a, length.toInt, flags, fd, f, 0, 0⟩).mmaps m =
          ⟨a, length.toInt, flags, fd, f, 0, 0⟩ := by
        simp [Wmap.placed, Mmaps.set]
      have hold (x : Fin 16) (hx : x ≠ m) :
          (Wmap.placed mm m ⟨a, length.toInt, flags, fd, f, 0, 0⟩).mmaps x = (k.procs p).mm.mmaps x := by
        simp [Wmap.placed, Mmaps.set, hx, hmm]
      refine h.agree.add ht' ?_ hm (fun x hx => hold x fun hxm => hm (hxm ▸ hx)) (by rw [hnew])
      intro x
      rw [ht'.used x]
      by_cases hx : x = m
      · subst hx
        rw [hnew]
        dsimp only
        exact ⟨fun _ => .inl rfl, fun _ => by omega⟩
      · rw [hold x hx, h.table.used x]
        simp [hx]

theorem Sound.wunmap (h : Sound (k.procs p) l) {addr : BitVec 32} (hw : sysWunmap k p addr = some (k', ret)) :
    ∃ pr mem fs l', k' = k.put p pr mem fs ∧ Sound pr l' := by
  cases sysWunmap_cases h.table.toListed hw with
  | failed => exact ⟨k.procs p, k.mem, k.fs, l, Kernel.put_self.symm, h⟩
  | @removed l₁ i l₂ s fs hl haddr hdrop =>
    subst hl
    have hr := h.table.region i (by simp)
    have hle := hr.stop_le_pageEnd
    rw [← haddr] at hdrop
    have hc := hr.dropPages_cleared hdrop
    refine ⟨_, _, _, l₁ ++ l₂, rfl, h.table.unlink, ?_, fun va e h₁ h₂ he => h.user va e h₁ h₂ (hc.pte_some h₂ he),
      h.size⟩
    refine h.agree.replace [] h.table hc le_rfl le_rfl (by simp) (fun x hx => unlink_of_mem h.table.nodup hx _)
      (by simp) ?_
    intro va _ h₁ h₂ hout
    exact absurd ⟨h₁, h₂.trans_le hle⟩ hout

theorem Sound.wpunmap (h : Sound (k.procs p) l) {addr length : BitVec 32} (hwrap : NoWrap addr length)
    (hw : sysWpunmap k p addr length = some (k', ret)) : ∃ pr mem fs l', k' = k.put p pr mem fs ∧ Sound pr l' := by
  cases sysWpunmap_cases h.table.toListed hw with
  | failed => exact ⟨k.procs p, k.mem, k.fs, l, Kernel.put_self.symm, h⟩
  | @dropped l₁ i l₂ s out hl hlen hal hstop hlo hhi hdrop hshrink =>
    subst hl
    have ht := h.table
    have hold := Wpunmaps.holds (ht.region i (by simp)) hwrap hlen hal hstop hlo hhi
    obtain ⟨-, hstop', hle, hle', hkern, -⟩ := hold.bounds ht
    have hu : u32 (addr.toNat + length.toInt) = (addr.toNat + length.toInt).toNat := by
      unfold u32
      omega
    rw [hu] at hdrop
    have hc := dropPages_cleared _ hdrop hal hstop' le_rfl (by omega) (by omega)
    have hdropped : s.dropped = loaded (k.procs p).pgdir addr.toNat (addr.toNat + length.toInt).toNat := by
      simpa using (dropPages_spec hdrop hal (by omega)).2.2
    rw [hdropped] at hshrink ⊢
    have ht' := ht.uncount (i := i) (by simp) (loaded (k.procs p).pgdir addr.toNat (addr.toNat + length.toInt).toNat)
    have hold' := hold.uncount (loaded (k.procs p).pgdir addr.toNat (addr.toNat + length.toInt).toNat)
    have hsh := shrink_cases (ht'.region i (by simp)) hold' hshrink
    have huser : ∀ va e, 0x60000000 ≤ va → va < 2 ^ 32 → s.space.pgdir.pte va = some e → e.u = true :=
      fun va e h₁ h₂ he => h.user va e h₁ h₂ (hc.pte_some h₂ he)
    cases hsh with
    | full => exact ⟨_, _, _, _, rfl, ht', full_agree ht h.agree hold hc, huser, h.size⟩
    | front hf =>
      exact ⟨_, _, _, _, rfl, front_table ht' hold' hf, front_agree ht h.agree hold hc
        (by simpa [Mmaps.uncount_self] using hf), huser, h.size⟩
    | back _ hb =>
      exact ⟨_, _, _, _, rfl, back_table ht' hold', back_agree ht h.agree hold hc
        (by simpa [Mmaps.uncount_self] using hb), huser, h.size⟩
    | split hf _ hj =>
      obtain ⟨hjl, htable⟩ : _ ∧ Table (splitTable _ s.space.pgdir i _ addr.toNat length.toInt) _ :=
        split_table ht' hold' hf hj
      exact ⟨_, _, _, _, rfl, htable, split_agree ht h.agree hold hc hjl, huser, h.size⟩

/-- The mapping, if it is of a file, is of a regular one that is at least as long. -/
def Region.FileLong (r : Region) (fs : Fs) : Prop := has r.flags mapAnonymous = false → ∀ f, r.f = some f →
  ∃ ip size bytes, (fs.files f).ip = some ip ∧ fs.inodes ip = .regular size bytes ∧ r.length ≤ size

/-- A page of such a mapping can be read. -/
theorem readPage_ok {r : Region} {m m' : Mem} {fs fs' : Fs} {f page va : ℕ} {ok : Bool} (hr : r.Ok)
    (hlong : r.FileLong fs) (hanon : has r.flags mapAnonymous = false) (hf : r.f = some f) (hlo : r.addr ≤ va)
    (hhi : va < r.stop) (h : readPage m fs f page (u32 (va - r.addr)) = some (m', fs', ok)) : ok = true := by
  obtain ⟨ip, size, bytes, hip, hinode, hsize⟩ := hlong hanon f hf
  have hend := hr.stop_eq
  obtain ⟨-, -, hlo', hhi'⟩ := hr
  have hoff : (u32 (va - r.addr) : ℤ) = va - r.addr := by
    unfold u32
    omega
  simp only [readPage, hip, hinode, readi] at h
  rw [if_neg (by omega)] at h
  simp only [Option.some.injEq, Prod.mk.injEq] at h
  exact h.2.2.symm

theorem Sound.fault (h : Sound (k.procs p) l) {addr : BitVec 32}
    (hlong : ∀ i ∈ l, ((k.procs p).mm.mmaps i).FileLong k.fs) (hw : handlePageFault k p addr = some (k', ret)) :
    ∃ pr mem fs l', k' = k.put p pr mem fs ∧ Sound pr l' := by
  have hal : pgrounddown addr.toNat % 4096 = 0 := by
    unfold pgrounddown
    omega
  cases handlePageFault_cases h.table.toListed hw with
  | failed => exact ⟨k.procs p, k.mem, k.fs, l, Kernel.put_self.symm, h⟩
  | @noTable s page hmap =>
    obtain ⟨mem, -, rfl⟩ := mapNew_noTable hmap
    exact ⟨_, _, _, l, rfl, h.table, h.agree, h.user, h.size⟩
  | @mapped i s fs mem ok hi hlo hhi hmap hread =>
    have hr := h.table.region i hi
    obtain rfl : ok = true := by
      rcases hread with ⟨hok, -⟩ | ⟨hanon, f, e, hf, -, hread⟩
      · exact hok
      · exact readPage_ok hr (hlong i hi) hanon hf hlo hhi hread
    obtain ⟨hnone, page, hsome⟩ := mapNew_pte_self hmap
    have hothers (a : ℕ) (ha : vpn a ≠ vpn (pgrounddown addr.toNat)) : s.pgdir.pte a = (k.procs p).pgdir.pte a :=
      mapNew_pte_of_ne hmap ha
    refine ⟨_, _, _, l, rfl, h.table.set_same hi rfl rfl,
      h.agree.map h.table hi hal hlo hhi hnone (by simp [hsome]) hothers, ?_, h.size⟩
    intro va e h₁ h₂ he
    by_cases hva : vpn va = vpn (pgrounddown addr.toNat)
    · have he' : s.pgdir.pte va = some e := he
      rw [PageDir.pte_congr hva, hsome] at he'
      rw [← Option.some.inj he']
    · have he' : s.pgdir.pte va = some e := he
      rw [hothers va hva] at he'
      exact h.user va e h₁ h₂ he'

theorem Sound.sbrk (h : Sound (k.procs p) l) {n : BitVec 32} (hw : sysSbrk k p n = some (k', ret)) :
    ∃ pr mem fs l', k' = k.put p pr mem fs ∧ Sound pr l' := by
  obtain hk | ⟨s, newsz, hs, rfl⟩ := sysSbrk_cases hw
  · exact ⟨k.procs p, k.mem, k.fs, l, hk.trans Kernel.put_self.symm, h⟩
  · have hsz := h.size
    have habove : SameAbove (k.procs p).pgdir s.pgdir ∧ newsz ≤ 0x60000000 := by
      rcases hs with ⟨-, hs⟩ | ⟨-, hs⟩
      · have := allocuvm_size hs
        exact ⟨allocuvm_sameAbove hs, by omega⟩
      · have := deallocuvm_size hs
        exact ⟨deallocuvm_sameAbove hs hsz, by omega⟩
    refine ⟨_, _, _, l, rfl, h.table, h.agree.of_sameAbove h.table habove.1, ?_, ?_⟩
    · intro va e h₁ h₂ he
      rw [habove.1 va h₁ h₂] at he
      exact h.user va e h₁ h₂ he
    · dsimp only
      split
      · exact hsz
      · exact habove.2

end

end SdeSystems.Wmap
