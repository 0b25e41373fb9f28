import SdeSystems.Wmap.Edits
import SdeSystems.Wmap.PageLoops

/-!
# `copy_maps` and `delete_mmaps` on tables

The table of a child that `copy_maps` builds from the table of its parent is in order and has the
same regions, apart from the counts of references and of loaded pages. What `delete_mmaps` leaves is
an empty table, and a parent's table with the same regions, apart from the counts of
references.
-/

namespace SdeSystems.Wmap

open Lib Function

/-- A region less its counts of references and of loaded pages. -/
def Region.core (r : Region) : Region := { r with refcnt := 0, nLoadedPages := 0 }

/-! ### Tables with the same regions -/

section

variable {mm cm : Mmaps} {l cl : List (Fin 16)}

/-- The regions of the list in order, less their counts. -/
def cores (mm : Mmaps) (l : List (Fin 16)) : List Region := l.map fun i => (mm.mmaps i).core

/-- One region comes to the end of the list. -/
theorem cores_grow {c : Fin 16} {r : Region} (hc : c ∉ cl) (hmm : cm.mmaps = update mm.mmaps c r) :
    cores cm (cl ++ [c]) = cores mm cl ++ [r.core] := by
  have hsame : cores cm cl = cores mm cl := by
    apply List.map_congr_left
    intro x hx
    have hxc : x ≠ c := fun hxc => hc (hxc ▸ hx)
    rw [hmm, update_of_ne hxc]
  simp only [cores, List.map_append, List.map_cons, List.map_nil] at hsame ⊢
  rw [hsame, hmm, update_self]

theorem region_of_core {P : Region → Prop} (hP : ∀ r, P r.core ↔ P r) (he : cores cm cl = cores mm l)
    (h : ∀ i ∈ l, P (mm.mmaps i)) : ∀ c ∈ cl, P (cm.mmaps c) := by
  intro c hc
  have hm : (cm.mmaps c).core ∈ cores mm l := he ▸ List.mem_map_of_mem hc
  obtain ⟨i, hi, hic⟩ := List.mem_map.mp hm
  rw [← hP, ← hic, hP]
  exact h i hi

theorem pairwise_of_core {R : Region → Region → Prop} (hR : ∀ r s, R r.core s.core ↔ R r s)
    (he : cores cm cl = cores mm l) (h : l.Pairwise fun i j => R (mm.mmaps i) (mm.mmaps j)) :
    cl.Pairwise fun i j => R (cm.mmaps i) (cm.mmaps j) := by
  have hl : (cores mm l).Pairwise R := List.pairwise_map.mpr (h.imp fun hij => (hR _ _).mpr hij)
  rw [← he] at hl
  exact (List.pairwise_map.mp hl).imp fun hij => (hR _ _).mp hij

theorem Region.ok_core (r : Region) : r.core.Ok ↔ r.Ok :=
  ⟨fun ⟨h₁, h₂, h₃, h₄⟩ => ⟨h₁, h₂, h₃, h₄⟩, fun ⟨h₁, h₂, h₃, h₄⟩ => ⟨h₁, h₂, h₃, h₄⟩⟩

/-- A list with the same regions in the same order is in order too. -/
theorem Table.of_cores (h : Table mm l) (hc : Listed cm cl) (he : cores cm cl = cores mm l) : Table cm cl where
  toListed := hc
  region := region_of_core Region.ok_core he h.region
  apart i hi j hj hne := by
    have hp : l.Pairwise fun i j => (mm.mmaps i).Apart (mm.mmaps j) :=
      h.nodup.imp_of_mem fun hi hj hne => h.apart _ hi _ hj hne
    have hcp := pairwise_of_core (R := Region.Apart) (fun _ _ => Iff.rfl) he hp
    have : Std.Symm fun i j => (cm.mmaps i).Apart (cm.mmaps j) := ⟨fun _ _ h => h.symm⟩
    exact hcp.forall hi hj hne

theorem Strict.of_cores (h : Strict mm l) (he : cores cm cl = cores mm l) : Strict cm cl where
  pos := region_of_core (P := fun r => 0 < r.length) (fun _ => Iff.rfl) he h.pos
  sorted := pairwise_of_core (R := fun r s => r.addr < s.addr) (fun _ _ => Iff.rfl) he h.sorted

end

/-! ### `copy_maps` -/

section

variable {parent : PageDir} {r : Region} {s s' : Copy} {c : Fin 16} {shared ok : Bool} {va : ℕ}
  {l cl : List (Fin 16)} {pm : Mmaps}

/-- The child's table with the new region `c` that is not yet in the list. -/
def opened (mm : Mmaps) (c : Fin 16) (r : Region) : Mmaps :=
  { mm.set c { r with refcnt := 0, nLoadedPages := 0 } with next := update mm.next c none }

/-- What one turn of `copy_maps` does: it stops for want of a slot or in the loop over the pages,
or the new region is appended to the list. -/
theorem copyRegion_cases (h : copyRegion parent r s = some (s', ok)) :
    ok = false ∧ s' = s ∨ ∃ c fs, findUnusedMmap s.mm = some c ∧ dupIf s.fs r.f = some fs ∧
      (ok = false ∧ forEach (copyPage (has r.flags mapShared) parent c) (pageRange r.addr r.stop)
          { s with fs := fs, mm := opened s.mm c r } = some (s', false) ∨
        ok = true ∧ ∃ s₁ mm, forEach (copyPage (has r.flags mapShared) parent c) (pageRange r.addr r.stop)
            { s with fs := fs, mm := opened s.mm c r } = some (s₁, true) ∧
          appendMap (if has r.flags mapShared then s₁.mm.set c { s₁.mm.mmaps c with refcnt := 1 } else s₁.mm)
            s₁.prev c = some mm ∧ s' = { s₁ with mm := mm, prev := some c }) := by
  unfold copyRegion at h
  split at h
  · obtain ⟨rfl, rfl⟩ := Prod.mk.inj (Option.some.inj h)
    exact .inl ⟨rfl, rfl⟩
  · rename_i c hc
    split at h
    · cases h
    · rename_i fs hfs
      dsimp only at h
      split at h
      · cases h
      · rename_i s₁ hloop
        obtain ⟨rfl, rfl⟩ := Prod.mk.inj (Option.some.inj h)
        exact .inr ⟨c, fs, hc, hfs, .inl ⟨rfl, forPages_some hloop⟩⟩
      · rename_i s₁ hloop
        obtain ⟨mm, hmm, hk⟩ := Option.map_eq_some_iff.mp h
        obtain ⟨rfl, rfl⟩ := Prod.mk.inj hk
        exact .inr ⟨c, fs, hc, hfs, .inr ⟨rfl, s₁, mm, forPages_some hloop, hmm, rfl⟩⟩

/-- What one page does: there is none; it is shared; it is copied; or there is no page or no page
table for it. -/
inductive CopiesPage (shared : Bool) (parent : PageDir) (c : Fin 16) (va : ℕ) (s : Copy) : Copy → Bool → Prop
  /-- The page is not there. -/
  | absent (hn : parent.pte va = none) : CopiesPage shared parent c va s s true
  /-- The page is mapped into the child, as it is or as a copy. -/
  | mapped {e : Pte} {sp : Space} (he : parent.pte va = some e)
    (hmap : shared = true ∧ mappages s.space va ⟨e.page, true, true⟩ = some (sp, true) ∨
      shared = false ∧ mapNew s.space va (s.space.mem.bytes e.page) true true = some (sp, .ok)) :
    CopiesPage shared parent c va s { s with
      space := sp
      mm := s.mm.set c { s.mm.mmaps c with nLoadedPages := (s.mm.mmaps c).nLoadedPages + 1 } } true
  /-- There is no page, or none for the page table. -/
  | noPage : CopiesPage shared parent c va s s false
  /-- There is none for the page table, and the copy is given back. -/
  | noTable {e : Pte} {page : ℕ} {sp : Space} (he : parent.pte va = some e) (hs : shared = false)
    (hmap : mapNew s.space va (s.space.mem.bytes e.page) true true = some (sp, .noTable page)) :
    CopiesPage shared parent c va s { s with space := { sp with mem := kfree sp.mem page } } false

theorem copyPage_cases (h : copyPage shared parent c va s = some (s', ok)) :
    CopiesPage shared parent c va s s' ok := by
  unfold copyPage at h
  split at h
  · rename_i hn
    obtain ⟨rfl, rfl⟩ := Prod.mk.inj (Option.some.inj h)
    exact .absent hn
  · rename_i e he
    dsimp only at h
    split at h
    · rename_i hs
      obtain ⟨⟨sp, ok'⟩, hmap, hk⟩ := Option.map_eq_some_iff.mp h
      obtain ⟨rfl, rfl⟩ := Prod.mk.inj hk
      cases ok' with
      | true => exact .mapped he (.inl ⟨hs, hmap⟩)
      | false =>
        obtain ⟨-, rfl⟩ | ⟨hf, -⟩ := mappages_cases hmap
        · exact .noPage
        · cases hf
    · rename_i hs
      split at h
      · cases h
      · rename_i sp hmap
        obtain ⟨rfl, rfl⟩ := Prod.mk.inj (Option.some.inj h)
        exact .mapped he (.inr ⟨by simpa using hs, hmap⟩)
      · rename_i sp hmap
        obtain ⟨rfl, rfl⟩ := Prod.mk.inj (Option.some.inj h)
        obtain rfl := mapNew_noPage hmap
        exact .noPage
      · rename_i sp page hmap
        obtain ⟨rfl, rfl⟩ := Prod.mk.inj (Option.some.inj h)
        exact .noTable he (by simpa using hs) hmap

/-- The loop over the pages changes no more of the table than the count of the new region. -/
theorem copyPages_mm {pages : List ℕ} (h : forEach (copyPage shared parent c) pages s = some (s', ok)) :
    s'.prev = s.prev ∧ s'.fs = s.fs ∧ ∃ n, s'.mm = s.mm.set c { s.mm.mmaps c with nLoadedPages := n } := by
  refine forEach_keeps (I := fun t => t.prev = s.prev ∧ t.fs = s.fs ∧
    ∃ n, t.mm = s.mm.set c { s.mm.mmaps c with nLoadedPages := n }) ?_ h ⟨rfl, rfl, (s.mm.mmaps c).nLoadedPages, ?_⟩
  · rintro va - t t' ok' ⟨hp, hf, n, hn⟩ hb
    cases copyPage_cases hb with
    | absent | noPage | noTable => exact ⟨hp, hf, n, hn⟩
    | mapped => exact ⟨hp, hf, n + 1, by simp [hn, Mmaps.set]⟩
  · simp [Mmaps.set]

/-- The child's table so far has the list `cl`, and `child_prev` is its last region. -/
structure Copied (s : Copy) (cl : List (Fin 16)) : Prop where
  /-- The list. -/
  listed : Listed s.mm cl
  /-- Its last region. -/
  prev : s.prev = cl.getLast?

/-- The region `c` comes in at the end of the list. -/
theorem appendMap_linked {mm mm' : Mmaps} (hl : Linked mm.next mm.mmapHead cl none) (hnd : cl.Nodup) (hc : c ∉ cl)
    (hcn : mm.next c = none) (h : appendMap mm cl.getLast? c = some mm') :
    mm'.mmaps = mm.mmaps ∧ mm'.totalMmaps = mm.totalMmaps + 1 ∧ Linked mm'.next mm'.mmapHead (cl ++ [c]) none := by
  unfold appendMap at h
  rcases List.eq_nil_or_concat cl with rfl | ⟨l₀, q, rfl⟩
  · have hh : mm.mmapHead = none := hl
    simp only [hh, Option.some.injEq] at h
    subst h
    exact ⟨rfl, rfl, rfl, by simp [hcn, Linked]⟩
  · rw [List.concat_eq_append] at *
    obtain ⟨x, hx⟩ : ∃ x, mm.mmapHead = some x := by
      cases l₀ with
      | nil => exact ⟨q, hl.1⟩
      | cons x l₀ => exact ⟨x, hl.1⟩
    simp only [hx, List.getLast?_append, List.getLast?_singleton, Option.some_or, Option.some.injEq] at h
    subst h
    refine ⟨rfl, rfl, ?_⟩
    have hqc : c ≠ q := fun hqc => hc (by simp [hqc])
    have hq₀ : q ∉ l₀ := fun hq => (List.nodup_cons.mp (List.nodup_middle.mp hnd)).1 (by simp [hq])
    have hqn : mm.next q = none := by
      obtain ⟨m, -, -, hm⟩ := linked_append.mp hl
      exact hm
    rw [List.append_assoc, List.singleton_append]
    refine (hx ▸ hl).insert (by simp) ?_ ?_
    · dsimp only
      rw [update_of_ne hqc, hcn, hqn]
    · intro x hx
      have hxq : x ≠ q := fun hxq => hq₀ (hxq ▸ by simpa using hx)
      dsimp only
      rw [update_of_ne hxq]

/-- One region more; `s₁` is the state after the loop over its pages. -/
theorem copyRegion_copied (hc : Copied s cl) (hr : r.addr ≠ 2 ^ 32 - 1)
    (h : copyRegion parent r s = some (s', true)) :
    ∃ c s₁, c ∉ cl ∧ Copied s' (cl ++ [c]) ∧
      s'.mm.mmaps = update s.mm.mmaps c { r with
        refcnt := if has r.flags mapShared then 1 else 0, nLoadedPages := (s₁.mm.mmaps c).nLoadedPages } ∧
      s'.space = s₁.space ∧ ∃ fs, dupIf s.fs r.f = some fs ∧ s'.fs = fs ∧
        forEach (copyPage (has r.flags mapShared) parent c) (pageRange r.addr r.stop)
          { s with fs := fs, mm := opened s.mm c r } = some (s₁, true) := by
  obtain ⟨hf, -⟩ | ⟨c, fs, hunused, hdup, ⟨hf, -⟩ | ⟨-, s₁, mm, hloop, happ, rfl⟩⟩ := copyRegion_cases h
  · cases hf
  · cases hf
  have hcl := hc.listed.not_mem_of_unused hunused
  obtain ⟨hp, hfs, n, hn⟩ := copyPages_mm hloop
  have hloaded : (s₁.mm.mmaps c).nLoadedPages = n := by
    rw [hn]
    simp [Mmaps.set]
  refine ⟨c, s₁, hcl, ?_⟩
  rw [hloaded]
  -- the table before the region is appended
  generalize hmm : (if has r.flags mapShared then s₁.mm.set c { s₁.mm.mmaps c with refcnt := 1 } else s₁.mm) = mm₁
    at happ
  have hmmaps : mm₁.mmaps = update s.mm.mmaps c { r with
      refcnt := if has r.flags mapShared then 1 else 0, nLoadedPages := n } := by
    rw [← hmm, hn]
    split <;> simp [Mmaps.set, opened]
  have hnext : mm₁.next = update s.mm.next c none ∧ mm₁.mmapHead = s.mm.mmapHead ∧
      mm₁.totalMmaps = s.mm.totalMmaps := by
    rw [← hmm, hn]
    split <;> exact ⟨rfl, rfl, rfl⟩
  have hcn (x : Fin 16) (hx : x ∈ cl) : x ≠ c := fun hxc => hcl (hxc ▸ hx)
  have hl : Linked mm₁.next mm₁.mmapHead cl none := by
    rw [hnext.1, hnext.2.1]
    exact hc.listed.linked.congr fun x hx => update_of_ne (hcn x hx) ..
  have hcnone : mm₁.next c = none := by
    rw [hnext.1, update_self]
  rw [hp, hc.prev] at happ
  obtain ⟨hmm', htotal, hlink⟩ := appendMap_linked hl hc.listed.nodup hcl hcnone happ
  refine ⟨⟨⟨hlink, ?_, ?_, ?_⟩, by simp⟩, hmm'.trans hmmaps, rfl, fs, hdup, hfs, hloop⟩
  · exact List.nodup_middle.mpr (List.nodup_cons.mpr ⟨by simpa using hcl, by simpa using hc.listed.nodup⟩)
  · intro j
    dsimp only
    rw [hmm', hmmaps]
    by_cases hj : j = c
    · subst hj
      simpa using hr
    · simpa [hj] using hc.listed.used j
  · dsimp only
    rw [htotal, hnext.2.2, hc.listed.total]
    simp

/-- `copy_maps` is a loop over the parent's list. -/
theorem copyMaps_eq {fuel : ℕ} {cur : Option (Fin 16)} (hl : Linked pm.next cur l none) (hf : l.length ≤ fuel) :
    copyMaps pm parent fuel cur s = forEach (fun i => copyRegion parent (pm.mmaps i)) l s := by
  induction l generalizing cur fuel s with
  | nil =>
    obtain rfl : cur = none := hl
    cases fuel <;> rfl
  | cons i l ih =>
    obtain ⟨rfl, hl⟩ := hl
    obtain ⟨fuel, rfl⟩ : ∃ f, fuel = f + 1 := ⟨fuel - 1, by simp at hf; omega⟩
    simp only [copyMaps, forEach]
    cases hcr : copyRegion parent (pm.mmaps i) s with
    | none => rfl
    | some out =>
      obtain ⟨s₁, ok⟩ := out
      cases ok with
      | true => exact ih hl (by simpa using hf)
      | false => rfl

/-- The child's list has the regions that have been copied so far, in order. -/
theorem copyMaps_cores (hp : ∀ i ∈ l, (pm.mmaps i).addr ≠ 2 ^ 32 - 1)
    (h : forEach (fun i => copyRegion parent (pm.mmaps i)) l s = some (s', true)) (hs : Copied s []) :
    ∃ cl, Copied s' cl ∧ cores s'.mm cl = cores pm l := by
  refine forEach_done (I := fun done t => ∃ cl, Copied t cl ∧ cores t.mm cl = cores pm done) ?_ h ⟨[], hs, rfl⟩
  rintro done i rest t t' hl ⟨cl, hc, he⟩ hb
  obtain ⟨c, s₁, hcl, hc', hmm, -⟩ := copyRegion_copied hc (hp i (by simp [hl])) hb
  refine ⟨cl ++ [c], hc', ?_⟩
  rw [cores_grow hcl hmm, he]
  simp [cores, Region.core]

/-- **`copy_maps` on tables.** The child's list has the regions of the parent's, in order. -/
theorem copyMaps_copied (hp : Table pm l) (h : forEach (fun i => copyRegion parent (pm.mmaps i)) l s = some (s', true))
    (hs : Copied s []) : ∃ cl, Copied s' cl ∧ cores s'.mm cl = cores pm l :=
  copyMaps_cores (fun i hi => (hp.region i hi).addr_ne) h hs

end

/-! ### `delete_mmaps` -/

section

variable {s s' : Deletion} {i : Fin 16} {l : List (Fin 16)} {pm pm' : Mmaps}

/-- What one turn of `delete_mmaps` does. -/
theorem deleteRegion_cases (h : deleteRegion i s = some s') :
    ∃ d fs parent, dropPages ((s.mm.mmaps i).backs && (s.mm.mmaps i).refcnt = 0) ((s.mm.mmaps i).refcnt = 0)
        (s.mm.mmaps i) (s.mm.mmaps i).addr (s.mm.mmaps i).stop ⟨s.space, s.fs, 0⟩ = some d ∧
      (if (s.mm.mmaps i).refcnt = 0 then closeIf d.fs (s.mm.mmaps i).f else some d.fs) = some fs ∧
      s' = ⟨d.space, fs, s.mm.reset i, parent⟩ ∧
      (parent = s.parent ∨ has (s.mm.mmaps i).flags mapShared = true ∧ (s.mm.mmaps i).refcnt = 1 ∧
        ∃ pm pm', s.parent = some pm ∧ parent = some pm' ∧ decParent pm (s.mm.mmaps i).addr = some pm') := by
  unfold deleteRegion at h
  dsimp only at h
  split at h
  · cases h
  · rename_i d hd
    split at h
    · cases h
    · rename_i parent hpar
      split at h
      · cases h
      · rename_i fs hfs
        obtain rfl := Option.some.inj h
        refine ⟨d, fs, parent, hd, hfs, rfl, ?_⟩
        split at hpar
        · rename_i hcond
          split at hpar
          · rename_i hsp
            obtain rfl := Option.some.inj hpar
            exact .inl hsp.symm
          · rename_i pm hsp
            obtain ⟨pm', hdec, rfl⟩ := Option.map_eq_some_iff.mp hpar
            exact .inr ⟨hcond.1, hcond.2, pm, pm', hsp, rfl, hdec⟩
        · exact .inl (Option.some.inj hpar).symm

/-- The decrement of the parent's count changes no more than a count of references. -/
theorem decParent_cases (hp : Listed pm l) {addr : ℕ} (h : decParent pm addr = some pm') :
    pm' = pm ∨ ∃ j ∈ l, (pm.mmaps j).addr = addr ∧ 0 < (pm.mmaps j).refcnt ∧
      pm' = pm.set j { pm.mmaps j with refcnt := (pm.mmaps j).refcnt - 1 } := by
  unfold decParent at h
  rcases hp.find (fun r => decide (r.addr = addr)) with ⟨hfind, -⟩ | ⟨l₁, j, l₂, hl, -, hj, hfind⟩
  · simp only [hfind, Option.some.injEq] at h
    exact .inl h.symm
  · simp only [hfind, Option.some.injEq] at h
    split at h
    · rename_i hpos
      exact .inr ⟨j, by simp [hl], by simpa using hj, hpos, h.symm⟩
    · exact .inl h.symm

/-- `delete_mmaps` is a loop over the list. -/
theorem deleteLoop_eq {fuel : ℕ} {cur : Option (Fin 16)} (hl : Linked s.mm.next cur l none) (hn : l.Nodup)
    (hf : l.length ≤ fuel) :
    deleteLoop fuel cur s = (forEach (fun i s => (deleteRegion i s).map fun s => (s, true)) l s).map Prod.fst := by
  induction l generalizing cur fuel s with
  | nil =>
    obtain rfl : cur = none := hl
    cases fuel <;> rfl
  | cons i l ih =>
    obtain ⟨rfl, hl⟩ := hl
    obtain ⟨fuel, rfl⟩ : ∃ f, fuel = f + 1 := ⟨fuel - 1, by simp at hf; omega⟩
    obtain ⟨hi, hnl⟩ := List.nodup_cons.mp hn
    simp only [deleteLoop, forEach]
    cases hd : deleteRegion i s with
    | none => rfl
    | some s₁ =>
      obtain ⟨d, fs, parent, -, -, rfl, -⟩ := deleteRegion_cases hd
      refine ih (hl.congr ?_) hnl (by simpa using hf)
      intro x hx
      have hxi : x ≠ i := fun hxi => hi (hxi ▸ hx)
      simp [Mmaps.reset, hxi]

theorem deleteMmaps_some (hl : Listed s.mm l) (h : deleteMmaps s = some s') :
    ∃ s₁, forEach (fun i s => (deleteRegion i s).map fun s => (s, true)) l s = some (s₁, true) ∧
      s' = { s₁ with mm := { s₁.mm with mmapHead := none, totalMmaps := 0 } } := by
  obtain ⟨s₁, hloop, rfl⟩ := Option.map_eq_some_iff.mp h
  rw [deleteLoop_eq hl.linked hl.nodup hl.length_le] at hloop
  obtain ⟨⟨s₂, ok⟩, hfor, rfl⟩ := Option.map_eq_some_iff.mp hloop
  have hok : ok = true := by
    apply Bool.eq_true_of_not_eq_false
    intro hf
    subst hf
    suffices ∀ l : List (Fin 16), ∀ s, forEach (fun i s => (deleteRegion i s).map fun s => (s, true)) l s ≠
      some (s₂, false) from this l s hfor
    intro l
    induction l with
    | nil => simp [forEach]
    | cons i l ih =>
      intro s hs
      simp only [forEach] at hs
      cases hd : deleteRegion i s with
      | none => simp [hd] at hs
      | some s₁ =>
        simp only [hd, Option.map_some] at hs
        exact ih s₁ hs
  subst hok
  exact ⟨s₂, hfor, rfl⟩

/-- What `delete_mmaps` leaves is an empty table. -/
theorem deleteMmaps_listed (hl : Listed s.mm l) (h : deleteMmaps s = some s') : Listed s'.mm [] := by
  obtain ⟨s₁, hfor, rfl⟩ := deleteMmaps_some hl h
  have hreset := forEach_done (I := fun done t => ∀ j, t.mm.mmaps j = if j ∈ done then initOneMmap else s.mm.mmaps j)
    (fun done i rest t t' _ ht hb => by
      obtain ⟨t₁, hd, hk⟩ := Option.map_eq_some_iff.mp hb
      obtain ⟨rfl, -⟩ := Prod.mk.inj hk
      obtain ⟨d, fs, parent, -, -, rfl, -⟩ := deleteRegion_cases hd
      intro j
      by_cases hj : j = i
      · simp [hj, Mmaps.reset]
      · simp [hj, Mmaps.reset, ht j]) hfor (by simp)
  refine ⟨rfl, List.nodup_nil, ?_, rfl⟩
  intro j
  simp only [List.not_mem_nil, false_iff, not_not]
  rw [hreset j]
  split
  · rfl
  · rename_i hj
    simpa using mt (hl.used j).mpr hj

/-- A parent's table that has a property which does not depend on a count of references keeps it. -/
theorem deleteMmaps_parent {P : Mmaps → Prop} (hl : Listed s.mm l)
    (hP : ∀ pm pm' addr, P pm → decParent pm addr = some pm' → P pm') (h : deleteMmaps s = some s')
    (hs : ∀ pm, s.parent = some pm → P pm) : ∀ pm, s'.parent = some pm → P pm := by
  obtain ⟨s₁, hfor, rfl⟩ := deleteMmaps_some hl h
  refine forEach_keeps (I := fun t => ∀ pm, t.parent = some pm → P pm) ?_ hfor hs
  rintro i - t t' ok ht hb
  obtain ⟨t₁, hd, hk⟩ := Option.map_eq_some_iff.mp hb
  obtain ⟨rfl, -⟩ := Prod.mk.inj hk
  obtain ⟨d, fs, parent, -, -, rfl, rfl | ⟨-, -, pm, pm', hpm, rfl, hdec⟩⟩ := deleteRegion_cases hd
  · exact ht
  · rintro pm'' hpm''
    obtain rfl := Option.some.inj hpm''
    exact hP pm pm' _ (ht pm hpm) hdec

end

end SdeSystems.Wmap
