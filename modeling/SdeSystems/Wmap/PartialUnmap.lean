import SdeSystems.Wmap.Agree

/-!
# Partial unmapping

What `wpunmap` does with a range of a region that does not wrap around: the range goes out of the
page table, its pages are freed, and the region is replaced by what is left of it in front of the range
and behind it. The list and the page table agree afterwards.
-/

namespace SdeSystems.Wmap

open Lib Function

variable {mm mm' : Mmaps} {pd pd' : PageDir} {fs fs' : Fs} {l l₁ l₂ : List (Fin 16)} {i j : Fin 16} {addr : ℕ}
  {length : ℤ}

theorem Region.stop_of_eq {r : Region} {n : ℕ} (h : r.addr + r.length = n) (hn : n < 2 ^ 32) : r.stop = n := by
  unfold Region.stop u32
  omega

/-- The table while `wpunmap` is between its loop and its end: `n` pages of the region `i` are gone. -/
def Mmaps.uncount (mm : Mmaps) (i : Fin 16) (n : ℕ) : Mmaps :=
  mm.set i { mm.mmaps i with nLoadedPages := (mm.mmaps i).nLoadedPages - n }

theorem Mmaps.uncount_self (mm : Mmaps) (i : Fin 16) (n : ℕ) : (mm.uncount i n).mmaps i =
    { mm.mmaps i with nLoadedPages := (mm.mmaps i).nLoadedPages - n } := by
  simp [Mmaps.uncount, Mmaps.set]

theorem Mmaps.uncount_of_ne {n : ℕ} (h : j ≠ i) : (mm.uncount i n).mmaps j = mm.mmaps j := by
  simp [Mmaps.uncount, Mmaps.set, h]

theorem Table.uncount (h : Table mm l) (hi : i ∈ l) (n : ℕ) : Table (mm.uncount i n) l := h.set_same hi rfl rfl

theorem Region.Holds.uncount (h : (mm.mmaps i).Holds addr length) (n : ℕ) :
    ((mm.uncount i n).mmaps i).Holds addr length := by
  rw [Mmaps.uncount_self]
  exact ⟨h.pos, h.aligned, h.stop, h.lo, h.hi⟩

/-! ### Agreement -/

section

variable (ht : Table mm (l₁ ++ i :: l₂)) (ha : Agree pd mm (l₁ ++ i :: l₂)) (hold : (mm.mmaps i).Holds addr length)
  (hc : Cleared pd pd' addr (addr + length).toNat)

include ht hold

/-- The numbers of a range of a region, as natural numbers. -/
theorem Region.Holds.bounds : (mm.mmaps i).addr % 4096 = 0 ∧ (addr + length).toNat % 4096 = 0 ∧
    addr ≤ (addr + length).toNat ∧ (addr + length).toNat ≤ (mm.mmaps i).stop ∧ (mm.mmaps i).stop ≤ 0x80000000 ∧
    ((mm.mmaps i).stop : ℤ) = (mm.mmaps i).addr + (mm.mmaps i).length := by
  have hr := ht.region i (by simp)
  have hend := hr.stop_eq
  obtain ⟨hal, h₀, hlo, hhi⟩ := hr
  obtain ⟨hpos, haddr, hstop, hge, hle⟩ := hold
  refine ⟨hal, ?_, ?_, ?_, ?_, hend⟩ <;> omega

include hc

/-- The part in front of the range and the part behind it. -/
theorem loaded_parts : loaded pd' (mm.mmaps i).addr (mm.mmaps i).stop =
    loaded pd' (mm.mmaps i).addr addr + loaded pd' (addr + length).toNat (mm.mmaps i).stop := by
  obtain ⟨hal, hstop, hle, hle', hhi, -⟩ := hold.bounds ht
  have haddr := hold.aligned
  rw [loaded_append hold.lo (hle.trans hle') (by omega), loaded_append hle hle' (by omega),
    hc.loaded_self (by omega), Nat.zero_add]

include ha

/-- The pages of the region after the loop, by its count before. -/
theorem loaded_after : (mm.mmaps i).nLoadedPages - loaded pd addr (addr + length).toNat =
    loaded pd' (mm.mmaps i).addr (mm.mmaps i).stop := by
  obtain ⟨hal, hstop, hle, hle', hhi, -⟩ := hold.bounds ht
  rw [ha.counts i (by simp), hc.loaded_around hold.lo hle hle' (by omega) hal hold.aligned hstop]
  omega

/-- After a split that finds no slot. -/
theorem full_agree : Agree pd' (mm.uncount i (loaded pd addr (addr + length).toNat)) (l₁ ++ i :: l₂) := by
  have hle := (hold.bounds ht).2.2.2.1
  refine ha.replace [i] ht hc hold.lo (hle.trans (ht.region i (by simp)).stop_le_pageEnd)
    (fun x => by simp only [List.mem_append, List.mem_cons]; tauto) ?_
    ?_ fun va _ h₁ h₂ _ => ⟨i, by simp, ?_⟩
  · intro x hx
    apply Mmaps.uncount_of_ne
    intro hxi
    exact (List.nodup_cons.mp (List.nodup_middle.mp ht.nodup)).1 (hxi ▸ hx)
  · intro x hx
    rw [List.mem_singleton.mp hx, Mmaps.uncount_self]
    exact loaded_after ht ha hold hc
  · rw [Mmaps.uncount_self]
    exact ⟨h₁, h₂⟩

/-- After the front of the region is cut off. -/
theorem front_agree (hfront : addr = (mm.mmaps i).addr) :
    Agree pd' ((mm.uncount i (loaded pd addr (addr + length).toNat)).set i
      { (mm.uncount i (loaded pd addr (addr + length).toNat)).mmaps i with
        addr := (addr + length).toNat
        length := ((mm.uncount i (loaded pd addr (addr + length).toNat)).mmaps i).length - length })
      (l₁ ++ i :: l₂) := by
  obtain ⟨hal, hstop, hle, hle', hhi, hend⟩ := hold.bounds ht
  have hpos := hold.pos
  have hin := (List.nodup_cons.mp (List.nodup_middle.mp ht.nodup)).1
  have hstop' : Region.stop { mm.mmaps i with
      addr := (addr + length).toNat
      length := (mm.mmaps i).length - length
      nLoadedPages := (mm.mmaps i).nLoadedPages - loaded pd addr (addr + length).toNat } = (mm.mmaps i).stop := by
    refine Region.stop_of_eq ?_ (by omega)
    dsimp only
    omega
  refine ha.replace [i] ht hc hold.lo (hle'.trans (ht.region i (by simp)).stop_le_pageEnd)
    (fun x => by simp only [List.mem_append, List.mem_cons]; tauto) ?_ ?_
    fun va _ h₁ h₂ hout => ⟨i, by simp, ?_⟩
  · intro x hx
    have hxi : x ≠ i := fun hxi => hin (hxi ▸ hx)
    simp [Mmaps.set, Mmaps.uncount, hxi]
  · intro x hx
    rw [List.mem_singleton.mp hx]
    simp only [Mmaps.set, update_self, Mmaps.uncount]
    rw [hstop', loaded_after ht ha hold hc, loaded_parts ht hold hc, ← hfront]
    simp [loaded, pageRange_of_le (le_refl addr)]
  · simp only [Mmaps.set, update_self, Mmaps.uncount]
    rw [hstop']
    omega

/-- After the back of the region is cut off. -/
theorem back_agree (hback : addr + length = (mm.mmaps i).addr + (mm.mmaps i).length) :
    Agree pd' ((mm.uncount i (loaded pd addr (addr + length).toNat)).set i
      { (mm.uncount i (loaded pd addr (addr + length).toNat)).mmaps i with
        length := ((mm.uncount i (loaded pd addr (addr + length).toNat)).mmaps i).length - length })
      (l₁ ++ i :: l₂) := by
  obtain ⟨hal, hstop, hle, hle', hhi, hend⟩ := hold.bounds ht
  have hpos := hold.pos
  have hin := (List.nodup_cons.mp (List.nodup_middle.mp ht.nodup)).1
  have hstop' : Region.stop { mm.mmaps i with
      length := (mm.mmaps i).length - length
      nLoadedPages := (mm.mmaps i).nLoadedPages - loaded pd addr (addr + length).toNat } = addr := by
    refine Region.stop_of_eq ?_ (by omega)
    dsimp only
    omega
  refine ha.replace [i] ht hc hold.lo (hle'.trans (ht.region i (by simp)).stop_le_pageEnd)
    (fun x => by simp only [List.mem_append, List.mem_cons]; tauto) ?_ ?_
    fun va _ h₁ h₂ hout => ⟨i, by simp, ?_⟩
  · intro x hx
    have hxi : x ≠ i := fun hxi => hin (hxi ▸ hx)
    simp [Mmaps.set, Mmaps.uncount, hxi]
  · intro x hx
    rw [List.mem_singleton.mp hx]
    simp only [Mmaps.set, update_self, Mmaps.uncount]
    rw [hstop', loaded_after ht ha hold hc, loaded_parts ht hold hc]
    have : loaded pd' (addr + length).toNat (mm.mmaps i).stop = 0 := by
      simp [loaded, pageRange_of_le (show (mm.mmaps i).stop ≤ (addr + length).toNat by omega)]
    omega
  · simp only [Mmaps.set, update_self, Mmaps.uncount]
    rw [hstop']
    omega

/-- After a split. -/
theorem split_agree (hj : j ∉ l₁ ++ i :: l₂) :
    Agree pd' (splitTable (mm.uncount i (loaded pd addr (addr + length).toNat)) pd' i j addr length)
      (l₁ ++ i :: j :: l₂) := by
  obtain ⟨hal, hstop, hle, hle', hhi, hend⟩ := hold.bounds ht
  have hpos := hold.pos
  have hlo := hold.lo
  have hin := (List.nodup_cons.mp (List.nodup_middle.mp ht.nodup)).1
  have hij : i ≠ j := fun hij => hj (by simp [hij])
  have hi : (splitTable (mm.uncount i (loaded pd addr (addr + length).toNat)) pd' i j addr length).mmaps i =
      { mm.mmaps i with
        length := addr - (mm.mmaps i).addr
        nLoadedPages := loaded pd' (mm.mmaps i).addr addr } := by
    simp [splitTable, hij, Mmaps.uncount_self]
  have hj' : (splitTable (mm.uncount i (loaded pd addr (addr + length).toNat)) pd' i j addr length).mmaps j =
      { mm.mmaps i with
        addr := (addr + length).toNat
        length := (mm.mmaps i).addr + (mm.mmaps i).length - (addr + length)
        nLoadedPages := loaded pd' (addr + length).toNat ((mm.mmaps i).addr + (mm.mmaps i).length).toNat } := by
    simp [splitTable, Mmaps.uncount_self]
  have hstopi : Region.stop { mm.mmaps i with
      length := addr - (mm.mmaps i).addr
      nLoadedPages := loaded pd' (mm.mmaps i).addr addr } = addr := by
    refine Region.stop_of_eq ?_ (by omega)
    dsimp only
    omega
  have hstopj : Region.stop { mm.mmaps i with
      addr := (addr + length).toNat
      length := (mm.mmaps i).addr + (mm.mmaps i).length - (addr + length)
      nLoadedPages := loaded pd' (addr + length).toNat ((mm.mmaps i).addr + (mm.mmaps i).length).toNat } =
      (mm.mmaps i).stop := by
    refine Region.stop_of_eq ?_ (by omega)
    dsimp only
    omega
  refine ha.replace [i, j] ht hc hold.lo (hle'.trans (ht.region i (by simp)).stop_le_pageEnd)
    (fun x => by simp only [List.mem_append, List.mem_cons]; tauto) ?_ ?_
    ?_
  · intro x hx
    have hxi : x ≠ i := fun hxi => hin (hxi ▸ hx)
    have hxj : x ≠ j := fun hxj => hj (mem_of_mem_append (hxj ▸ hx))
    simp [splitTable, hxi, hxj, Mmaps.uncount_of_ne]
  · intro x hx
    rcases List.mem_cons.mp hx with rfl | hx
    · rw [hi, hstopi]
    · rw [List.mem_singleton.mp hx, hj', hstopj]
      dsimp only
      congr 2
      omega
  · intro va _ h₁ h₂ hout
    by_cases hfront : va < addr
    · exact ⟨i, by simp, by rw [hi, hstopi]; exact ⟨h₁, hfront⟩⟩
    · refine ⟨j, by simp, ?_⟩
      rw [hj', hstopj]
      exact ⟨by dsimp only; omega, h₂⟩

end

/-! ### What is left of the region -/

/-- What is left of a region when a range of it is unmapped: the part in front of the range and the
part behind it, unless they are empty. -/
def remainders (r : Region) (pd : PageDir) (addr : ℕ) (length : ℤ) : List Region :=
  (if r.addr < addr then [{ r with length := addr - r.addr, nLoadedPages := loaded pd r.addr addr }] else []) ++
    if addr + length < r.addr + r.length then
      [{ r with
        addr := (addr + length).toNat
        length := r.addr + r.length - (addr + length)
        nLoadedPages := loaded pd (addr + length).toNat r.stop }]
    else []

theorem remainders_spec {r : Region} (h : r.Holds addr length) : ∀ x ∈ remainders r pd addr length,
    r.addr ≤ x.addr ∧ 0 < x.length ∧ x.addr + x.length ≤ r.addr + r.length := by
  have hpos := h.pos
  have hlo := h.lo
  have hhi := h.hi
  intro x hx
  rcases List.mem_append.mp hx with hx | hx
  · split at hx
    · obtain rfl := List.mem_singleton.mp hx
      dsimp only
      omega
    · cases hx
  · split at hx
    · obtain rfl := List.mem_singleton.mp hx
      dsimp only
      omega
    · cases hx

theorem remainders_sorted {r : Region} (h : r.Holds addr length) :
    (remainders r pd addr length).Pairwise fun x y => x.addr < y.addr := by
  have hpos := h.pos
  have hlo := h.lo
  unfold remainders
  split
  · split
    · apply List.pairwise_pair.mpr
      dsimp only
      omega
    · exact List.pairwise_singleton _ _
  · split
    · exact List.pairwise_singleton _ _
    · exact List.Pairwise.nil

/-- Whether the list is sorted and has no empty region is a matter of its regions. -/
theorem strict_iff : Strict mm l ↔
    (∀ r ∈ l.map mm.mmaps, 0 < r.length) ∧ (l.map mm.mmaps).Pairwise fun r s => r.addr < s.addr := by
  constructor
  · rintro ⟨hpos, hsorted⟩
    exact ⟨by simpa using hpos, List.pairwise_map.mpr hsorted⟩
  · rintro ⟨hpos, hsorted⟩
    rw [List.pairwise_map] at hsorted
    exact ⟨by simpa using hpos, hsorted⟩

theorem strict_of_remainders (h : WellFormed mm (l₁ ++ i :: l₂)) (hold : (mm.mmaps i).Holds addr length)
    (hl : l.map mm'.mmaps = l₁.map mm.mmaps ++ remainders (mm.mmaps i) pd' addr length ++ l₂.map mm.mmaps) :
    Strict mm' l := by
  have hrem : ∀ x ∈ remainders (mm.mmaps i) pd' addr length, _ := remainders_spec hold
  have hstrict : Strict mm (l₁ ++ i :: l₂) := ⟨fun i hi => (h.region i hi).2.1, h.sorted⟩
  obtain ⟨hpos, hsorted⟩ := strict_iff.mp hstrict
  simp only [List.map_append, List.map_cons] at hpos hsorted
  obtain ⟨hs₁, hs₂, hs₁₂⟩ := List.pairwise_append.mp hsorted
  obtain ⟨-, hs₂⟩ := List.pairwise_cons.mp hs₂
  rw [strict_iff, hl, List.append_assoc]
  refine ⟨?_, List.pairwise_append.mpr ⟨hs₁, List.pairwise_append.mpr ⟨remainders_sorted hold, hs₂, ?_⟩, ?_⟩⟩
  · intro r hr
    simp only [List.mem_append] at hr
    rcases hr with hr | hr | hr
    · exact hpos r (by simp only [List.mem_append]; exact .inl hr)
    · exact (hrem r hr).2.1
    · exact hpos r (by simp only [List.mem_append, List.mem_cons]; exact .inr (.inr hr))
  · intro r hr s hs
    obtain ⟨x, hx, rfl⟩ := List.mem_map.mp hs
    have := h.stop_le hx
    have := hrem r hr
    omega
  · intro r hr s hs
    rcases List.mem_append.mp hs with hs | hs
    · have := hs₁₂ r hr (mm.mmaps i) (by simp)
      have := (hrem s hs).1
      omega
    · exact hs₁₂ r hr s (by simp [hs])

/-- The table after the end of `wpunmap`, for a range that is not the whole region. -/
structure Replaced (mm mm' : Mmaps) (pd' : PageDir) (fs fs' : Fs) (l₁ : List (Fin 16)) (i : Fin 16)
    (l₂ : List (Fin 16)) (addr : ℕ) (length : ℤ) : Prop where
  /-- What is left of the region stands in its place. -/
  table : ∃ l', WellFormed mm' l' ∧ Agree pd' mm' l' ∧
    l'.map mm'.mmaps = l₁.map mm.mmaps ++ remainders (mm.mmaps i) pd' addr length ++ l₂.map mm.mmaps
  /-- There is one more region exactly if the range touches neither end. -/
  total : mm'.totalMmaps = mm.totalMmaps +
    if (mm.mmaps i).addr < addr ∧ addr + length < (mm.mmaps i).addr + (mm.mmaps i).length then 1 else 0
  /-- And then there is one more reference to the file. -/
  files : if (mm.mmaps i).addr < addr ∧ addr + length < (mm.mmaps i).addr + (mm.mmaps i).length then
    dupIf fs (mm.mmaps i).f = some fs' else fs' = fs

/-- The slots `new` have what is left of the region `i`, and the other regions are as they were. -/
theorem replaced_of_new {l' : List (Fin 16)} (h : WellFormed mm (l₁ ++ i :: l₂))
    (hold : (mm.mmaps i).Holds addr length) (new : List (Fin 16)) (hl' : l' = l₁ ++ new ++ l₂) (ht' : Table mm' l')
    (ha' : Agree pd' mm' l') (hothers : ∀ x ∈ l₁ ++ l₂, mm'.mmaps x = mm.mmaps x)
    (hnew : new.map mm'.mmaps = remainders (mm.mmaps i) pd' addr length) :
    ∃ l', WellFormed mm' l' ∧ Agree pd' mm' l' ∧
      l'.map mm'.mmaps = l₁.map mm.mmaps ++ remainders (mm.mmaps i) pd' addr length ++ l₂.map mm.mmaps := by
  have hmap : l'.map mm'.mmaps =
      l₁.map mm.mmaps ++ remainders (mm.mmaps i) pd' addr length ++ l₂.map mm.mmaps := by
    rw [hl', List.map_append, List.map_append, hnew]
    congr 1
    · congr 1
      exact List.map_congr_left fun x hx => hothers x (by simp [hx])
    · exact List.map_congr_left fun x hx => hothers x (by simp [hx])
  exact ⟨l', ht'.wellFormed (strict_of_remainders h hold hmap), ha', hmap⟩

/-- A range that is not the whole region is replaced by what is left of the region. -/
theorem Shrinks.replaced (h : WellFormed mm (l₁ ++ i :: l₂)) (ha : Agree pd mm (l₁ ++ i :: l₂))
    (hold : (mm.mmaps i).Holds addr length) (hc : Cleared pd pd' addr (addr + length).toNat)
    (hproper : ¬ (addr = (mm.mmaps i).addr ∧ addr + length = (mm.mmaps i).addr + (mm.mmaps i).length))
    (hs : Shrinks (mm.uncount i (loaded pd addr (addr + length).toNat)) pd' fs i addr length (some (mm', fs'))) :
    Replaced mm mm' pd' fs fs' l₁ i l₂ addr length := by
  have ht := h.table
  have ht' := ht.uncount (i := i) (by simp) (loaded pd addr (addr + length).toNat)
  have hold' := hold.uncount (loaded pd addr (addr + length).toNat)
  have hin := (List.nodup_cons.mp (List.nodup_middle.mp h.nodup)).1
  have hother (x : Fin 16) (hx : x ∈ l₁ ++ l₂) : x ≠ i := fun hxi => hin (hxi ▸ hx)
  have hafter := loaded_after ht ha hold hc
  have hparts := loaded_parts ht hold hc
  obtain ⟨-, -, hle, hle', -, hend⟩ := hold.bounds ht
  have hlo := hold.lo
  have hhi := hold.hi
  cases hs with
  | front hfront =>
    have hfront' : addr = (mm.mmaps i).addr := by simpa [Mmaps.uncount_self] using hfront
    have hno : ¬ (mm.mmaps i).addr < addr := by omega
    have hyes : addr + length < (mm.mmaps i).addr + (mm.mmaps i).length := by omega
    have hzero : loaded pd' (mm.mmaps i).addr addr = 0 := by
      simp [loaded, pageRange_of_le (show addr ≤ (mm.mmaps i).addr by omega)]
    refine ⟨replaced_of_new h hold [i] (by simp) (front_table ht' hold' hfront) (front_agree ht ha hold hc hfront')
      ?_ ?_, ?_, ?_⟩
    · intro x hx
      simp [Mmaps.set, Mmaps.uncount, hother x hx]
    · simp only [List.map_singleton, remainders, hno, hyes, if_true, if_false, List.nil_append, Mmaps.set,
        Mmaps.uncount, update_self]
      congr 2
      · omega
      · omega
    · rw [if_neg (by omega)]
      simp [Mmaps.set, Mmaps.uncount]
    · rw [if_neg (by omega)]
  | back hne hback =>
    have hne' : addr ≠ (mm.mmaps i).addr := by simpa [Mmaps.uncount_self] using hne
    have hback' : addr + length = (mm.mmaps i).addr + (mm.mmaps i).length := by
      simpa [Mmaps.uncount_self] using hback
    have hyes : (mm.mmaps i).addr < addr := by omega
    have hno : ¬ addr + length < (mm.mmaps i).addr + (mm.mmaps i).length := by omega
    have hzero : loaded pd' (addr + length).toNat (mm.mmaps i).stop = 0 := by
      simp [loaded, pageRange_of_le (show (mm.mmaps i).stop ≤ (addr + length).toNat by omega)]
    refine ⟨replaced_of_new h hold [i] (by simp) (back_table ht' hold') (back_agree ht ha hold hc hback') ?_ ?_,
      ?_, ?_⟩
    · intro x hx
      simp [Mmaps.set, Mmaps.uncount, hother x hx]
    · simp only [List.map_singleton, remainders, hno, hyes, if_true, if_false, List.append_nil, Mmaps.set,
        Mmaps.uncount, update_self]
      congr 2
      · omega
      · omega
    · rw [if_neg (by omega)]
      simp [Mmaps.set, Mmaps.uncount]
    · rw [if_neg (by omega)]
  | @split j _ hne hne' hj hfs =>
    have hne₁ : addr ≠ (mm.mmaps i).addr := by simpa [Mmaps.uncount_self] using hne
    have hne₂ : addr + length ≠ (mm.mmaps i).addr + (mm.mmaps i).length := by
      simpa [Mmaps.uncount_self] using hne'
    have hfront : (mm.mmaps i).addr < addr := by omega
    have hback : addr + length < (mm.mmaps i).addr + (mm.mmaps i).length := by omega
    obtain ⟨hjl, htable⟩ : _ ∧ Table (splitTable _ pd' i j addr length) _ := split_table ht' hold' hne hj
    have hij : i ≠ j := fun hij => hjl (by simp [hij])
    refine ⟨replaced_of_new h hold [i, j] (by simp) htable (split_agree ht ha hold hc hjl) ?_ ?_, ?_, ?_⟩
    · intro x hx
      have hxj : x ≠ j := fun hxj => hjl (mem_of_mem_append (hxj ▸ hx))
      simp [splitTable, hother x hx, hxj, Mmaps.uncount_of_ne]
    · simp only [List.map_cons, List.map_nil, remainders, hfront, hback, if_true, splitTable, update_self,
        update_of_ne hij, Mmaps.uncount_self, List.singleton_append]
      rw [show ((mm.mmaps i).addr + (mm.mmaps i).length).toNat = (mm.mmaps i).stop by omega]
    · rw [if_pos ⟨hfront, hback⟩]
      simp [splitTable, Mmaps.set, Mmaps.uncount]
    · rw [if_pos ⟨hfront, hback⟩]
      simpa [Mmaps.uncount_self] using hfs

/-! ### The call -/

/-- What `wpunmap` of a part of the region `i` does to the kernel. -/
structure PartlyUnmapped (k k' : Kernel) (p : Fin 64) (l₁ : List (Fin 16)) (i : Fin 16) (l₂ : List (Fin 16))
    (addr : ℕ) (length : ℤ) : Prop where
  /-- What is left of the region stands in its place, and there is one more reference to its file
  exactly if there is one more region; `fs` are the files after the write-backs. -/
  replaced : ∃ fs, fs.files = k.fs.files ∧ (((k.procs p).mm.mmaps i).backs = false → fs = k.fs) ∧
    Replaced (k.procs p).mm (k'.procs p).mm (k'.procs p).pgdir fs k'.fs l₁ i l₂ addr length
  /-- The range is unmapped, and the other entries are as before. -/
  cleared : Cleared (k.procs p).pgdir (k'.procs p).pgdir addr (addr + length).toNat
  /-- The pages of the range that were present are freed. -/
  freed : k'.mem.free = (present (k.procs p).pgdir addr (addr + length).toNat).reverse ++ k.mem.free
  /-- The others are as before. -/
  pages : ∀ page ∉ present (k.procs p).pgdir addr (addr + length).toNat, k'.mem.bytes page = k.mem.bytes page
  /-- So are the other processes. -/
  others : ∀ q, q ≠ p → k'.procs q = k.procs q

variable {k : Kernel} {p : Fin 64} {start len : BitVec 32}

/-- The search of `wpunmap` finds the region that has the range. -/
theorem find_of_holds (ht : Table mm (l₁ ++ i :: l₂)) (hold : (mm.mmaps i).Holds addr length) :
    ∃ prev, mm.find (fun r => decide (r.addr ≤ addr ∧ u32 (addr + length) ≤ r.stop)) = some (prev, some i) := by
  obtain ⟨-, -, hle, hle', hhi, hend⟩ := hold.bounds ht
  have hpos := hold.pos
  have hlo := hold.lo
  have hu : u32 (addr + length) = (addr + length).toNat := by
    unfold u32
    omega
  rcases ht.toListed.find (fun r => decide (r.addr ≤ addr ∧ u32 (addr + length) ≤ r.stop)) with
    ⟨-, hnone⟩ | ⟨l₃, j, l₄, hl, -, hj, hfind⟩
  · have := hnone i (by simp)
    rw [decide_eq_false_iff_not, hu] at this
    omega
  · refine ⟨l₃.getLast?, ?_⟩
    have hjl : j ∈ l₁ ++ i :: l₂ := by simp [hl]
    -- a region that has the range has a page in common with `i`
    obtain rfl : j = i := by
      by_contra hji
      rw [decide_eq_true_eq, hu] at hj
      have hapart := ht.apart i (by simp) j hjl (Ne.symm hji)
      have := (ht.region i (by simp)).stop_le_pageEnd
      have := (ht.region j hjl).stop_le_pageEnd
      unfold Region.Apart at hapart
      omega
    exact hfind

/-- The end of `wpunmap` returns where the file of the region can be duplicated. -/
theorem shrink_isSome (hr : (mm.mmaps i).Ok) (hold : (mm.mmaps i).Holds addr length)
    (hdup : dupIf fs (mm.mmaps i).f = some fs') : ∃ out, shrink mm pd fs i addr length = some out := by
  obtain ⟨-, h₀, hlo, hhi⟩ := hr
  obtain ⟨hpos, -, -, hge, hle⟩ := hold
  unfold shrink
  dsimp only
  split
  · exact ⟨_, rfl⟩
  split
  · exact ⟨_, rfl⟩
  split
  · exact ⟨_, rfl⟩
  have hend : (u32 (addr + length) : ℤ) = addr + length := by
    unfold u32
    omega
  have hnew : i32 ((mm.mmaps i).addr + (mm.mmaps i).length - u32 (addr + length)) =
      (mm.mmaps i).addr + (mm.mmaps i).length - (addr + length) := by
    unfold i32
    omega
  have hold : i32 (addr - (mm.mmaps i).addr) = addr - (mm.mmaps i).addr := by
    unfold i32
    omega
  rw [hdup, hnew, hold, countLoadedPages_eq (by unfold u32; omega), countLoadedPages_eq (by unfold u32; omega)]
  exact ⟨_, rfl⟩

/-- **Partial unmapping has exact set semantics**: for a range of a region that is not the whole of it,
`wpunmap` returns 0, unmaps and frees exactly the pages of the range that are present, and replaces
the region by what is left of it. -/
theorem partial_unmap (h : WellFormed (k.procs p).mm (l₁ ++ i :: l₂))
    (ha : Agree (k.procs p).pgdir (k.procs p).mm (l₁ ++ i :: l₂))
    (hold : ((k.procs p).mm.mmaps i).Holds start.toNat len.toInt)
    (hproper : ¬ (start.toNat = ((k.procs p).mm.mmaps i).addr ∧
      start.toNat + len.toInt = ((k.procs p).mm.mmaps i).addr + ((k.procs p).mm.mmaps i).length))
    (hslot : ((k.procs p).mm.mmaps i).addr < start.toNat →
      start.toNat + len.toInt < ((k.procs p).mm.mmaps i).addr + ((k.procs p).mm.mmaps i).length →
      findUnusedMmap (k.procs p).mm ≠ none)
    (hopen : ∀ f, ((k.procs p).mm.mmaps i).f = some f → 0 < (k.fs.files f).ref)
    (hwrite : ((k.procs p).mm.mmaps i).Writable k.fs) :
    ∃ k', sysWpunmap k p start len = some (k', 0) ∧ PartlyUnmapped k k' p l₁ i l₂ start.toNat len.toInt := by
  have ht := h.table
  obtain ⟨hal, hstop, hle, hle', hhi, hend⟩ := hold.bounds ht
  have hpos := hold.pos
  have haligned := hold.aligned
  have hu : u32 (start.toNat + len.toInt) = (start.toNat + len.toInt).toNat := by
    unfold u32
    omega
  obtain ⟨prev, hfind⟩ := find_of_holds ht hold
  obtain ⟨s, hs⟩ : ∃ s, dropPages ((k.procs p).mm.mmaps i).backs true ((k.procs p).mm.mmaps i) start.toNat
      (start.toNat + len.toInt).toNat ⟨⟨k.mem, (k.procs p).pgdir⟩, k.fs, 0⟩ = some s :=
    dropPages_isSome (fun _ => hwrite) (by omega)
  have hc := dropPages_cleared _ hs haligned hstop le_rfl (by omega) (by omega)
  have hmem := dropPages_mem hs haligned (by omega)
  have hdropped : s.dropped = loaded (k.procs p).pgdir start.toNat (start.toNat + len.toInt).toNat := by
    simpa using (dropPages_spec hs haligned (by omega)).2.2
  have hfiles := dropPages_files hs
  have ht' := ht.uncount (i := i) (by simp) (loaded (k.procs p).pgdir start.toNat (start.toNat + len.toInt).toNat)
  have hold' := hold.uncount (loaded (k.procs p).pgdir start.toNat (start.toNat + len.toInt).toNat)
  obtain ⟨fs', hdup⟩ : ∃ fs', dupIf s.fs ((k.procs p).mm.mmaps i).f = some fs' := by
    apply dupIf_isSome
    intro f hf
    rw [hfiles]
    exact hopen f hf
  obtain ⟨out, hout⟩ : ∃ out, shrink ((k.procs p).mm.uncount i
      (loaded (k.procs p).pgdir start.toNat (start.toNat + len.toInt).toNat)) s.space.pgdir s.fs i start.toNat
      len.toInt = some out :=
    shrink_isSome (ht'.region i (by simp)) hold' (by rw [Mmaps.uncount_self]; exact hdup)
  cases out with
  | none =>
    obtain ⟨hne, hne', hfull⟩ := shrink_eq_none_iff.mp hout
    rw [Mmaps.uncount_self] at hne hne'
    have hne' : u32 (start.toNat + len.toInt) ≠ ((k.procs p).mm.mmaps i).stop := hne'
    have hlo := hold.lo
    have hhi := hold.hi
    dsimp only at hne
    exact absurd (findUnusedMmap_set.symm.trans hfull) (hslot (by omega) (by omega))
  | some out =>
    obtain ⟨mm', fs''⟩ := out
    have hrep := (shrink_cases (ht'.region i (by simp)) hold' hout).replaced h ha hold hc hproper
    refine ⟨k.put p { k.procs p with pgdir := s.space.pgdir, mm := mm' } s.space.mem fs'', ?_,
      ⟨s.fs, hfiles, ?_, ?_⟩, ?_, hmem.1, hmem.2, fun q hq => Kernel.put_procs_of_ne hq⟩
    · unfold sysWpunmap
      dsimp only
      rw [hu, if_neg (by omega), if_neg (by omega), if_neg (by omega)]
      rw [hu] at hfind
      rw [hfind]
      dsimp only
      rw [hs]
      dsimp only
      rw [hdropped]
      have hout' := hout
      unfold Mmaps.uncount at hout'
      rw [hout']
      rfl
    · intro hback
      rw [hback] at hs
      exact dropPages_fs hs
    · rw [Kernel.put_procs_self]
      exact hrep
    · rw [Kernel.put_procs_self]
      exact hc

/-- Three pages are mapped at `MMAPBASE`, and the second is touched. -/
def threePages : Kernel :=
  { (boot 8).setProc initproc { (boot 8).procs initproc with
      pgdir := { ((boot 8).procs initproc).pgdir with
        tables := update ((boot 8).procs initproc).pgdir.tables (pdx 0x60001000)
          (some ⟨3000, fun j => if j = ptx 0x60001000 then some ⟨3001, true, true⟩ else none⟩) }
      mm := { initMmaps with
        mmaps := update initMmaps.mmaps firstMmap ⟨0x60000000, 0x3000, 0x5, -1, none, 0, 1⟩
        mmapHead := some firstMmap
        totalMmaps := 1 } } with
    mem := { (boot 8).mem with free := List.range' 3002 6 } }

theorem threePages_wellFormed : WellFormed (threePages.procs 0).mm [0] where
  linked := ⟨rfl, rfl⟩
  nodup := List.nodup_singleton 0
  sorted := List.pairwise_singleton _ _
  region i hi := by
    obtain rfl := List.mem_singleton.mp hi
    decide
  disjoint i hi j hj hne := absurd ((List.mem_singleton.mp hi).trans (List.mem_singleton.mp hj).symm) hne
  used := by decide
  total := by decide

/-- The page table of `initproc` has an entry for its first page only. -/
theorem boot_pte {n va : ℕ} (h : 4096 ≤ va) (hlt : va < 2 ^ 32) : ((boot n).procs 0).pgdir.pte va = none := by
  have hvpn : ¬ (va / 2 ^ 22 % 1024 = 0 ∧ va / 2 ^ 12 % 1024 = 0) := by omega
  simp only [boot, PageDir.pte, pdx, ptx, Fin.ext_iff, Fin.val_zero]
  split_ifs with h₀
  · exact if_neg fun h₁ => hvpn ⟨h₀, h₁⟩
  · rfl
  · rfl

theorem threePages_pte (va : ℕ) : (threePages.procs 0).pgdir.pte va =
    if pdx va = pdx 0x60001000 then if ptx va = ptx 0x60001000 then some ⟨3001, true, true⟩ else none
    else ((boot 8).procs 0).pgdir.pte va := by
  change (update ((boot 8).procs 0).pgdir.tables (pdx 0x60001000) _ (pdx va)).bind _ = _
  by_cases htable : pdx va = pdx 0x60001000
  · rw [htable, update_self, if_pos rfl]
    rfl
  · rw [update_of_ne htable, if_neg htable]
    rfl

theorem threePages_agree : Agree (threePages.procs 0).pgdir (threePages.procs 0).mm [0] where
  counts i hi := by
    obtain rfl := List.mem_singleton.mp hi
    decide
  covered va _ hlo hlt hpte := by
    refine ⟨0, List.mem_singleton_self 0, hlo, ?_⟩
    change va < 0x60003000
    rw [threePages_pte] at hpte
    split_ifs at hpte with htable hentry
    · simp only [pdx, ptx, Fin.ext_iff] at htable hentry
      omega
    · exact absurd rfl hpte
    · exact absurd (boot_pte (by omega) hlt) hpte

/-- The second page is unmapped, and it is freed: the region is split. -/
theorem partial_unmap_split : present (threePages.procs 0).pgdir 0x60001000 0x60002000 = [3001] ∧
    ∃ k', sysWpunmap threePages 0 0x60001000 0x1000 = some (k', 0) ∧
      PartlyUnmapped threePages k' 0 [] 0 [] 0x60001000 0x1000 :=
  ⟨by decide, partial_unmap (show WellFormed _ ([] ++ 0 :: []) from threePages_wellFormed) threePages_agree
    ⟨by decide, by decide, by decide, by decide, by decide⟩ (by decide) (fun _ _ => by decide) (fun f hf => by cases hf)
    fun _ f hf => by cases hf⟩

end SdeSystems.Wmap
