import SdeSystems.Wmap.FailLate

/-!
# The list and the page table agree

A process's list of regions and its page table say the same (`Agree`): the entries at or above
`MMAPBASE` are in the regions of the list, and each region counts those in it. Here are the changes
that keep this: a page is mapped in a region, a range of a region is unmapped, and the page table
changes below `MMAPBASE` only.
-/

namespace SdeSystems.Wmap

open Lib Function

/-- The list of regions and the page table agree. -/
structure Agree (pd : PageDir) (mm : Mmaps) (l : List (Fin 16)) : Prop where
  /-- Each region counts its pages. -/
  counts : ∀ i ∈ l, (mm.mmaps i).nLoadedPages = loaded pd (mm.mmaps i).addr (mm.mmaps i).stop
  /-- An entry at or above `MMAPBASE` is in a region. -/
  covered : ∀ va, va % 4096 = 0 → 0x60000000 ≤ va → va < 2 ^ 32 → pd.pte va ≠ none →
    ∃ i ∈ l, (mm.mmaps i).addr ≤ va ∧ va < (mm.mmaps i).stop

section

variable {pd pd' : PageDir} {a b start stop : ℕ}

/-- The pages of a range that are present. -/
def present (pd : PageDir) (start stop : ℕ) : List ℕ :=
  (pageRange start stop).filterMap fun va => (pd.pte va).map Pte.page

/-- The entries from `start` to `stop` are cleared and the others are as before. -/
structure Cleared (pd pd' : PageDir) (start stop : ℕ) : Prop where
  /-- The range is cleared. -/
  cleared : ∀ va, va < 2 ^ 32 → start ≤ va → va < stop → pd'.pte va = none
  /-- The others are as before. -/
  others : ∀ va, va < 2 ^ 32 → ¬ (start ≤ va ∧ va < stop) → pd'.pte va = pd.pte va

/-- An entry that is left was there before. -/
theorem Cleared.pte_some (h : Cleared pd pd' start stop) {va : ℕ} {e : Pte} (hlt : va < 2 ^ 32)
    (he : pd'.pte va = some e) : pd.pte va = some e := by
  by_cases hin : start ≤ va ∧ va < stop
  · rw [h.cleared va hlt hin.1 hin.2] at he
    cases he
  · rwa [h.others va hlt hin] at he

theorem Cleared.loaded_outside (h : Cleared pd pd' start stop) (hb : b ≤ 2 ^ 32) (hout : b ≤ start ∨ stop ≤ a) :
    loaded pd' a b = loaded pd a b := by
  apply loaded_congr
  intro va hva
  obtain ⟨n, rfl, hlt⟩ := mem_pageRange.mp hva
  exact h.others _ (by omega) (by omega)

theorem Cleared.loaded_self (h : Cleared pd pd' start stop) (hstop : stop ≤ 2 ^ 32) : loaded pd' start stop = 0 := by
  apply loaded_eq_zero
  intro va hva
  obtain ⟨n, rfl, hlt⟩ := mem_pageRange.mp hva
  exact h.cleared _ (by omega) (by omega) hlt

/-- A range around the one that is cleared: what was in it goes. -/
theorem Cleared.loaded_around (h : Cleared pd pd' start stop) (ha : a ≤ start) (hab : start ≤ stop) (hb : stop ≤ b)
    (hlt : b ≤ 2 ^ 32) (hal : a % 4096 = 0) (hstart : start % 4096 = 0) (hstop : stop % 4096 = 0) :
    loaded pd a b = loaded pd' a b + loaded pd start stop := by
  have hsplit (d : PageDir) : loaded d a b = loaded d a start + (loaded d start stop + loaded d stop b) := by
    rw [loaded_append ha (hab.trans hb) (by omega), loaded_append hab hb (by omega)]
  rw [hsplit pd, hsplit pd', h.loaded_self (by omega), h.loaded_outside (by omega) (.inl le_rfl),
    h.loaded_outside hlt (.inr le_rfl)]
  omega

end

section

variable {back free : Bool} {r : Region} {start stop : ℕ} {s s' : Drop}

theorem vpn_eq_pgrounddown {va : ℕ} : vpn va = vpn (va / 4096 * 4096) := by
  unfold vpn
  omega

/-- The unmapping loops clear the pages of a range, up to the end of the last one. -/
theorem dropPages_cleared (last : ℕ) (h : dropPages back free r start stop s = some s') (hal : start % 4096 = 0)
    (hlast : last % 4096 = 0) (hle : stop ≤ last) (hge : last < stop + 4096) (hlt : last ≤ 2 ^ 32) :
    Cleared s.space.pgdir s'.space.pgdir start last := by
  obtain ⟨hclear, hothers, -⟩ := dropPages_spec h hal (hle.trans hlt)
  refine ⟨?_, fun va hva hout => hothers va ?_⟩
  · intro va hva h₁ h₂
    rw [PageDir.pte_congr vpn_eq_pgrounddown]
    exact hclear _ ((mem_pageRange_of_aligned hal).mpr (by omega))
  · intro d hd
    have hd := (mem_pageRange_of_aligned hal).mp hd
    unfold vpn
    omega

/-- The loop of `wpunmap` frees the pages of the range and writes to no others. -/
theorem dropPages_mem (h : dropPages back true r start stop s = some s') (hal : start % 4096 = 0)
    (hlt : stop ≤ 2 ^ 32) :
    s'.space.mem.free = (present s.space.pgdir start stop).reverse ++ s.space.mem.free ∧
      ∀ page ∉ present s.space.pgdir start stop, s'.space.mem.bytes page = s.space.mem.bytes page := by
  -- the pages done so far are on the free list, and the entries to come are as before
  have hloop := forEach_done (I := fun done t =>
    (∀ va, (∀ d ∈ done, vpn va ≠ vpn d) → t.space.pgdir.pte va = s.space.pgdir.pte va) ∧
    t.space.mem.free = (done.filterMap fun va => (s.space.pgdir.pte va).map Pte.page).reverse ++ s.space.mem.free ∧
    ∀ page ∉ done.filterMap (fun va => (s.space.pgdir.pte va).map Pte.page),
      t.space.mem.bytes page = s.space.mem.bytes page) ?_ (dropPages_some h) ⟨fun _ _ => rfl, rfl, fun _ _ => rfl⟩
  · exact hloop.2
  intro done va rest t t' hl ⟨hpte, hfree, hbytes⟩ hb
  have hself := hpte va fun d hd => vpn_ne_of_split hl hal hlt hd
  obtain ⟨-, ⟨hn, rfl⟩ | ⟨e, fs, he, rfl⟩⟩ := dropPage_cases hb
  · rw [hn] at hself
    refine ⟨fun d hd => hpte d fun d' hd' => hd d' (by simp [hd']), ?_, ?_⟩
    · simpa [List.filterMap_append, ← hself] using hfree
    · intro page hpage
      exact hbytes page (by simpa [List.filterMap_append, ← hself] using hpage)
  · rw [he] at hself
    refine ⟨?_, ?_, ?_⟩
    · intro d hd
      exact (PageDir.pte_setPte_of_ne (hd va (by simp))).trans (hpte d fun d' hd' => hd d' (by simp [hd']))
    · simp [List.filterMap_append, ← hself, kfree, hfree]
    · intro page hpage
      rw [List.filterMap_append, List.mem_append, not_or] at hpage
      have hpe : page ≠ e.page := by simpa [← hself] using hpage.2
      simp only [if_true, kfree, update_of_ne hpe]
      exact hbytes page hpage.1

end

/-! ### Regions that are cut -/

section

variable {mm mm' : Mmaps} {pd pd' : PageDir} {l₁ l₂ l' : List (Fin 16)} {i : Fin 16} {start stop : ℕ}

theorem Region.Ok.stop_le_pageEnd {r : Region} (h : r.Ok) : r.stop ≤ r.pageEnd := by
  have := h.stop_eq
  have := h.nonneg
  unfold Region.pageEnd
  omega

/-- The loops that unmap a whole region clear its pages. -/
theorem Region.Ok.dropPages_cleared {r : Region} {back free : Bool} {s s' : Drop} (h : r.Ok)
    (hd : dropPages back free r r.addr r.stop s = some s') :
    Cleared s.space.pgdir s'.space.pgdir r.addr r.pageEnd := by
  have hend := h.stop_eq
  have hle := h.stop_le_pageEnd
  obtain ⟨hal, h₀, -, hhi⟩ := h
  have hlast : r.pageEnd % 4096 = 0 ∧ r.pageEnd < r.stop + 4096 := by
    unfold Region.pageEnd
    omega
  exact Wmap.dropPages_cleared _ hd hal hlast.1 hle hlast.2 (by omega)

/-- A range of the region `i` is unmapped, and the regions `new` take the place of `i`: the list and the
page table agree if they count their pages and have all that is left of `i`. -/
theorem Agree.replace (new : List (Fin 16)) (h : Agree pd mm (l₁ ++ i :: l₂)) (ht : Table mm (l₁ ++ i :: l₂))
    (hc : Cleared pd pd' start stop) (hlo : (mm.mmaps i).addr ≤ start) (hhi : stop ≤ (mm.mmaps i).pageEnd)
    (hl' : ∀ x, x ∈ l' ↔ x ∈ l₁ ++ l₂ ∨ x ∈ new) (hothers : ∀ x ∈ l₁ ++ l₂, mm'.mmaps x = mm.mmaps x)
    (hcount : ∀ x ∈ new, (mm'.mmaps x).nLoadedPages = loaded pd' (mm'.mmaps x).addr (mm'.mmaps x).stop)
    (hleft : ∀ va, va % 4096 = 0 → (mm.mmaps i).addr ≤ va → va < (mm.mmaps i).stop → ¬ (start ≤ va ∧ va < stop) →
      ∃ x ∈ new, (mm'.mmaps x).addr ≤ va ∧ va < (mm'.mmaps x).stop) :
    Agree pd' mm' l' := by
  constructor
  · intro x hx
    rcases (hl' x).mp hx with hx | hx
    · have hxl : x ∈ l₁ ++ i :: l₂ := mem_of_mem_append hx
      have hxi : i ≠ x := by
        rintro rfl
        exact (List.nodup_cons.mp (List.nodup_middle.mp ht.nodup)).1 hx
      have hend := (ht.region x hxl).stop_eq
      have hle := (ht.region x hxl).stop_le_pageEnd
      have hhi' := (ht.region x hxl).hi
      rw [hothers x hx, h.counts x hxl, hc.loaded_outside (by omega)]
      rcases ht.apart i (by simp) x hxl hxi with hapart | hapart
      · exact .inr (hhi.trans hapart)
      · exact .inl (hle.trans (hapart.trans hlo))
    · exact hcount x hx
  · intro va hal hva hlt hpte
    by_cases hin : start ≤ va ∧ va < stop
    · exact absurd (hc.cleared va hlt hin.1 hin.2) hpte
    · rw [hc.others va hlt hin] at hpte
      obtain ⟨x, hx, h₁, h₂⟩ := h.covered va hal hva hlt hpte
      by_cases hxi : x = i
      · subst hxi
        obtain ⟨y, hy, hy'⟩ := hleft va hal h₁ h₂ hin
        exact ⟨y, (hl' y).mpr (.inr hy), hy'⟩
      · have hx' : x ∈ l₁ ++ l₂ := by simpa [hxi] using hx
        exact ⟨x, (hl' x).mpr (.inl hx'), by rw [hothers x hx']; exact ⟨h₁, h₂⟩⟩

end

end SdeSystems.Wmap
