import SdeSystems.Wmap.Loaded

/-!
# The child of a `fork` is sound

`copyuvm` gives the child a page table with nothing at or above `MMAPBASE`. Then `copy_maps` adds one
region after the other, and counts the pages it maps for each.
-/

namespace SdeSystems.Wmap

open Lib Function

/-! ### `copyuvm` -/

section

variable {m m' : Mem} {pd d : PageDir} {sz : ℕ}

/-- A new page directory has no entries. -/
theorem setupkvm_pte (h : setupkvm m = some (m', some d)) (va : ℕ) : d.pte va = none := by
  unfold setupkvm at h
  split at h
  · simp at h
  · rename_i page m₁ hk
    split at h
    · cases h
    · rename_i s hloop
      obtain ⟨-, hd⟩ := Prod.mk.inj (Option.some.inj h)
      obtain rfl := Option.some.inj hd
      refine forEach_keeps (I := fun t : Space => t.pgdir.pte va = none) ?_ hloop rfl
      intro i _ t t' ok ht hb
      split at hb
      · obtain ⟨rfl, -⟩ := Prod.mk.inj (Option.some.inj hb)
        exact ht
      · rename_i t₁ hn
        obtain ⟨rfl, -⟩ := Prod.mk.inj (Option.some.inj hb)
        rw [needTable_pte hn, ht]
    · obtain ⟨m₂, -, hk⟩ := Option.map_eq_some_iff.mp h
      cases hk

/-- The copy of a heap below `MMAPBASE` has no entries above. -/
theorem copyuvm_pte (h : copyuvm m pd sz = some (m', some d)) (hsz : sz ≤ 0x60000000) {va : ℕ}
    (hlo : 0x60000000 ≤ va) (hlt : va < 2 ^ 32) : d.pte va = none := by
  unfold copyuvm at h
  split at h
  · cases h
  · simp at h
  · rename_i m₁ d₁ hset
    split at h
    · cases h
    · rename_i s hloop
      obtain ⟨-, hd⟩ := Prod.mk.inj (Option.some.inj h)
      obtain rfl := Option.some.inj hd
      refine forEach_keeps (I := fun t : Space => t.pgdir.pte va = none) ?_
        (forPages_some hloop) (setupkvm_pte hset va)
      intro a ha t t' ok ht hb
      have hlt' := lt_of_mem_pageRange ha
      have hsame {t₁ : Space} {e : Pte} {out : Mapped}
          (hmap : mapNew t a (t.mem.bytes e.page) e.w e.u = some (t₁, out)) : t₁.pgdir.pte va = none := by
        rw [mapNew_sameAbove hmap (by omega) va hlo hlt, ht]
      split at hb
      · cases hb
      · split at hb
        · cases hb
        · rename_i hmap
          obtain ⟨rfl, -⟩ := Prod.mk.inj (Option.some.inj hb)
          exact hsame hmap
        · rename_i hmap
          obtain ⟨rfl, -⟩ := Prod.mk.inj (Option.some.inj hb)
          exact hsame hmap
        · rename_i hmap
          obtain ⟨rfl, -⟩ := Prod.mk.inj (Option.some.inj hb)
          have hpte := hsame hmap
          exact hpte
    · obtain ⟨m₂, -, hk⟩ := Option.map_eq_some_iff.mp h
      cases hk

end

/-! ### `copy_maps` -/

section

variable {parent : PageDir} {r : Region} {s s' : Copy} {c : Fin 16} {shared : Bool} {va a b : ℕ}
  {l cl : List (Fin 16)} {pm : Mmaps}

/-- A page that is mapped into the child: it was not there, and now it is a user page. -/
theorem copied_pte {e : Pte} {sp : Space}
    (h : shared = true ∧ mappages s.space va ⟨e.page, true, true⟩ = some (sp, true) ∨
      shared = false ∧ mapNew s.space va (s.space.mem.bytes e.page) true true = some (sp, .ok)) :
    s.space.pgdir.pte va = none ∧ (∃ page, sp.pgdir.pte va = some ⟨page, true, true⟩) ∧
      ∀ a, vpn a ≠ vpn va → sp.pgdir.pte a = s.space.pgdir.pte a := by
  rcases h with ⟨-, h⟩ | ⟨-, h⟩
  · obtain ⟨hn, hs⟩ := mappages_pte_self h
    exact ⟨hn, ⟨_, hs⟩, fun a ha => mappages_pte_of_ne h ha⟩
  · obtain ⟨hn, hs⟩ := mapNew_pte_self h
    exact ⟨hn, hs, fun a ha => mapNew_pte_of_ne h ha⟩

/-- The loop over the pages of a region counts what it maps and leaves the entries of other pages. -/
theorem copyPages_loaded (h : forEach (copyPage shared parent c) (pageRange a b) s = some (s', true))
    (hal : a % 4096 = 0) (hb : b ≤ 2 ^ 32) (hnone : ∀ va ∈ pageRange a b, s.space.pgdir.pte va = none) :
    (s'.mm.mmaps c).nLoadedPages = (s.mm.mmaps c).nLoadedPages + loaded s'.space.pgdir a b ∧
      (∀ va, (∀ d ∈ pageRange a b, vpn va ≠ vpn d) → s'.space.pgdir.pte va = s.space.pgdir.pte va) ∧
      ∀ va e, s'.space.pgdir.pte va = some e → e.u = true ∨ s.space.pgdir.pte va = some e := by
  refine forEach_done (I := fun done t =>
    (t.mm.mmaps c).nLoadedPages = (s.mm.mmaps c).nLoadedPages +
        (done.countP fun va => (t.space.pgdir.pte va).isSome : ℕ) ∧
      (∀ va, (∀ d ∈ done, vpn va ≠ vpn d) → t.space.pgdir.pte va = s.space.pgdir.pte va) ∧
      ∀ va e, t.space.pgdir.pte va = some e → e.u = true ∨ s.space.pgdir.pte va = some e) ?_ h
    ⟨by simp, fun _ _ => rfl, fun _ _ he => .inr he⟩
  intro done va rest t t' hl ⟨hcount, hothers, huser⟩ hturn
  have hne (d : ℕ) (hd : d ∈ done) : vpn va ≠ vpn d := vpn_ne_of_split hl hal hb hd
  have hself : t.space.pgdir.pte va = none := (hothers va hne).trans (hnone va (by simp [hl]))
  rw [List.countP_append, List.countP_singleton]
  cases copyPage_cases hturn with
  | absent =>
    refine ⟨?_, fun x hx => hothers x fun d hd => hx d (by simp [hd]), huser⟩
    simpa [hself] using hcount
  | @mapped e sp _ hmap =>
    obtain ⟨-, ⟨page, hsome⟩, hrest⟩ := copied_pte hmap
    have hdone : (done.countP fun va => (sp.pgdir.pte va).isSome) =
        done.countP fun va => (t.space.pgdir.pte va).isSome :=
      List.countP_congr fun d hd => by rw [hrest d (hne d hd).symm]
    refine ⟨?_, ?_, ?_⟩
    · simp only [Mmaps.set, update_self, hdone, hsome, Option.isSome_some, if_true]
      omega
    · intro x hx
      exact (hrest x (hx va (by simp))).trans (hothers x fun d hd => hx d (by simp [hd]))
    · intro x e' he'
      by_cases hx : vpn x = vpn va
      · have he'' : sp.pgdir.pte x = some e' := he'
        rw [PageDir.pte_congr hx, hsome] at he''
        exact .inl (by rw [← Option.some.inj he''])
      · exact huser x e' ((hrest x hx).symm.trans he')

/-- A region that comes to the list with its pages. -/
theorem Agree.grow {pd pd' : PageDir} {mm mm' : Mmaps} {r' : Region} (h : Agree pd mm cl)
    (hcl : ∀ x ∈ cl, (mm.mmaps x).Ok ∧ (mm.mmaps x).Apart r) (hr : r.Ok) (hc : c ∉ cl)
    (hothers : ∀ va, (∀ d ∈ pageRange r.addr r.stop, vpn va ≠ vpn d) → pd'.pte va = pd.pte va)
    (hmm : mm'.mmaps = update mm.mmaps c r') (haddr : r'.addr = r.addr) (hlen : r'.length = r.length)
    (hcount : r'.nLoadedPages = loaded pd' r.addr r.stop) : Agree pd' mm' (cl ++ [c]) := by
  have hend := hr.stop_eq
  have hle := hr.stop_le_pageEnd
  obtain ⟨hal, -, hlo, hhi⟩ := hr
  have hstop : r'.stop = r.stop := by
    unfold Region.stop
    rw [haddr, hlen]
  -- a page outside the region is as it was
  have hout (va : ℕ) (hva : va % 4096 = 0) (hlt : va < 2 ^ 32) (h : ¬ (r.addr ≤ va ∧ va < r.stop)) :
      pd'.pte va = pd.pte va := by
    apply hothers va
    intro d hd
    obtain ⟨h₁, h₂, h₃⟩ := (mem_pageRange_of_aligned hal).mp hd
    exact vpn_ne hva h₃ hlt (by omega) (by omega)
  have hne (x : Fin 16) (hx : x ∈ cl) : mm'.mmaps x = mm.mmaps x := by
    have hxc : x ≠ c := fun hxc => hc (hxc ▸ hx)
    rw [hmm, update_of_ne hxc]
  have hself : mm'.mmaps c = r' := by rw [hmm, update_self]
  constructor
  · intro x hx
    rcases List.mem_append.mp hx with hx | hx
    · obtain ⟨hok, hapart⟩ := hcl x hx
      have hendx := hok.stop_eq
      have hlex := hok.stop_le_pageEnd
      obtain ⟨halx, -, hlox, hhix⟩ := hok
      rw [hne x hx, h.counts x hx, loaded_congr fun va hva => ?_]
      obtain ⟨h₁, h₂, h₃⟩ := (mem_pageRange_of_aligned halx).mp hva
      refine (hout va h₃ (by omega) ?_).symm
      unfold Region.Apart at hapart
      omega
    · rw [List.mem_singleton.mp hx, hself, hcount, haddr, hstop]
  · intro va hva hlo' hlt hpte
    by_cases hin : r.addr ≤ va ∧ va < r.stop
    · exact ⟨c, by simp, by rw [hself, haddr, hstop]; exact hin⟩
    · rw [hout va hva hlt hin] at hpte
      obtain ⟨x, hx, hx'⟩ := h.covered va hva hlo' hlt hpte
      exact ⟨x, by simp [hx], by rwa [hne x hx]⟩

/-- **`copy_maps` on page tables.** The child's list agrees with its page table, and the pages of its
regions are user pages. -/
theorem copyMaps_sound (hp : Table pm l)
    (h : forEach (fun i => copyRegion parent (pm.mmaps i)) l s = some (s', true)) (hs : Copied s [])
    (hnone : ∀ va, 0x60000000 ≤ va → va < 2 ^ 32 → s.space.pgdir.pte va = none) :
    ∃ cl, Copied s' cl ∧ cores s'.mm cl = cores pm l ∧ Agree s'.space.pgdir s'.mm cl ∧
      ∀ va e, 0x60000000 ≤ va → va < 2 ^ 32 → s'.space.pgdir.pte va = some e → e.u = true := by
  refine forEach_done (I := fun done t => ∃ cl, Copied t cl ∧ cores t.mm cl = cores pm done ∧
    Agree t.space.pgdir t.mm cl ∧
    ∀ va e, 0x60000000 ≤ va → va < 2 ^ 32 → t.space.pgdir.pte va = some e → e.u = true) ?_ h
    ⟨[], hs, rfl, ⟨by simp, fun va _ h₁ h₂ hpte => absurd (hnone va h₁ h₂) hpte⟩, fun va e h₁ h₂ he => by
      rw [hnone va h₁ h₂] at he
      cases he⟩
  rintro done i rest t t' hl ⟨cl, hc, he, hagree, huser⟩ hb
  have hok := hp.region i (by simp [hl])
  have hend := hok.stop_eq
  have hlo := hok.lo
  have hhi := hok.hi
  obtain ⟨c, s₁, hcl, hc', hmm, hspace, fs, -, -, hloop⟩ := copyRegion_copied hc hok.addr_ne hb
  -- the regions so far are apart from the next one, as in the parent
  have hregions : ∀ x ∈ cl, (t.mm.mmaps x).Ok ∧ (t.mm.mmaps x).Apart (pm.mmaps i) := by
    refine region_of_core (P := fun r => r.Ok ∧ r.Apart (pm.mmaps i)) ?_ he ?_
    · intro r
      exact and_congr (Region.ok_core r) Iff.rfl
    · intro j hj
      have hne : j ≠ i := by
        rintro rfl
        have hnd := hl ▸ hp.nodup
        exact (List.nodup_cons.mp (List.nodup_middle.mp hnd)).1 (by simp [hj])
      exact ⟨hp.region j (by simp [hl, hj]), hp.apart j (by simp [hl, hj]) i (by simp [hl]) hne⟩
  -- so the child has no page in it yet
  have hempty : ∀ va ∈ pageRange (pm.mmaps i).addr (pm.mmaps i).stop, t.space.pgdir.pte va = none := by
    intro va hva
    obtain ⟨h₁, h₂, h₃⟩ := (mem_pageRange_of_aligned hok.aligned).mp hva
    by_contra hpte
    obtain ⟨x, hx, hx₁, hx₂⟩ := hagree.covered va h₃ (by omega) (by omega) hpte
    obtain ⟨hokx, hapart⟩ := hregions x hx
    have := hokx.stop_le_pageEnd
    have := hok.stop_le_pageEnd
    unfold Region.Apart at hapart
    omega
  obtain ⟨hcount, hothers, huser'⟩ := copyPages_loaded hloop hok.aligned (by omega) hempty
  refine ⟨cl ++ [c], hc', ?_, ?_, ?_⟩
  · rw [cores_grow hcl hmm, he]
    simp [cores, Region.core]
  · rw [hspace]
    apply hagree.grow hregions hok hcl hothers hmm rfl rfl
    simpa [opened, Mmaps.set] using hcount
  · intro va e h₁ h₂ hpte
    rw [hspace] at hpte
    rcases huser' va e hpte with hu | hold
    · exact hu
    · exact huser va e h₁ h₂ hold

end

end SdeSystems.Wmap
