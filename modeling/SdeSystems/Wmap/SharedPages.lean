import SdeSystems.Wmap.Counted
import SdeSystems.Wmap.Inside
import SdeSystems.Wmap.ForkFails
import SdeSystems.Wmap.Placement

/-!
# The pages of shared regions

A page of a shared region may be mapped by several processes, so it is not one process's own. Which
pages are depends on the table alone: those that lie in no region of a kind (`outside`). What a page
directory has for two such kinds differs by the pages it maps in between (`lent`).
-/

namespace SdeSystems.Wmap

open Lib Function

/-! ### Pages outside the regions of a kind -/

/-- The page number `n` is in no region in use for which `P` holds. -/
def outside (P : Region → Bool) (mm : Mmaps) (n : ℕ) : Bool :=
  !(List.finRange 16).any fun i => decide ((mm.mmaps i).addr ≠ 2 ^ 32 - 1) && P (mm.mmaps i) && (mm.mmaps i).owns n

section

variable {P : Region → Bool} {mm mm' : Mmaps} {l l' : List (Fin 16)} {i : Fin 16} {va n : ℕ}

theorem outside_iff (ht : Table mm l) (hva : va < 2 ^ 32) : outside P mm (vpn va) = false ↔
    ∃ i ∈ l, P (mm.mmaps i) = true ∧ (mm.mmaps i).addr ≤ va ∧ va < (mm.mmaps i).pageEnd := by
  have hown (i : Fin 16) (hi : i ∈ l) : (mm.mmaps i).owns (vpn va) = true ↔
      (mm.mmaps i).addr ≤ va ∧ va < (mm.mmaps i).pageEnd := by
    have hr := ht.region i hi
    have hend := hr.pageEnd_le
    exact Region.owns_iff hr.aligned (by omega) hva
  simp only [outside, Bool.not_eq_false', List.any_eq_true, List.mem_finRange, true_and, Bool.and_eq_true,
    decide_eq_true_eq]
  constructor
  · rintro ⟨i, ⟨hused, hP⟩, hi⟩
    have hil := (ht.used i).mpr hused
    exact ⟨i, hil, hP, (hown i hil).mp hi⟩
  · rintro ⟨i, hil, hP, hi⟩
    exact ⟨i, ⟨(ht.used i).mp hil, hP⟩, (hown i hil).mpr hi⟩

/-- Fewer regions have less in them. -/
theorem outside_mono {Q : Region → Bool} (h : ∀ r, Q r = true → P r = true) (hP : outside P mm n = true) :
    outside Q mm n = true := by
  simp only [outside, Bool.not_eq_true', List.any_eq_false, Bool.and_eq_true] at hP ⊢
  intro i hi hin
  obtain ⟨⟨hused, hQ⟩, hown⟩ := hin
  exact hP i hi ⟨⟨hused, h _ hQ⟩, hown⟩

/-- In a region it depends on the region. -/
theorem outside_of_region (ht : Table mm l) (hi : i ∈ l) (hlo : (mm.mmaps i).addr ≤ va)
    (hhi : va < (mm.mmaps i).pageEnd) : outside P mm (vpn va) = !P (mm.mmaps i) := by
  have hend := (ht.region i hi).pageEnd_le
  have hva : va < 2 ^ 32 := by omega
  cases hP : P (mm.mmaps i) with
  | true => exact (outside_iff ht hva).mpr ⟨i, hi, hP, hlo, hhi⟩
  | false =>
    apply Bool.eq_true_of_not_eq_false
    intro hout
    obtain ⟨j, hj, hPj, hj₁, hj₂⟩ := (outside_iff ht hva).mp hout
    -- the page is in no other region
    have hij : i ≠ j := by
      rintro rfl
      rw [hP] at hPj
      cases hPj
    have := ht.apart i hi j hj hij
    unfold Region.Apart at this
    omega

/-- Below `MMAPBASE` there are no regions. -/
theorem outside_below (ht : Table mm l) (hva : va < 0x60000000) : outside P mm (vpn va) = true := by
  apply Bool.eq_true_of_not_eq_false
  intro hout
  obtain ⟨i, hi, -, hlo, -⟩ := (outside_iff ht (by omega)).mp hout
  have := (ht.region i hi).lo
  omega

/-- Regions that come in do not matter where there was a region before. -/
theorem outside_add (ht : Table mm l) (ht' : Table mm' l') (hsame : ∀ i ∈ l, i ∈ l' ∧ mm'.mmaps i = mm.mmaps i)
    (hcov : 0x60000000 ≤ va → ∃ i ∈ l, (mm.mmaps i).addr ≤ va ∧ va < (mm.mmaps i).pageEnd) :
    outside P mm' (vpn va) = outside P mm (vpn va) := by
  by_cases hva : 0x60000000 ≤ va
  · obtain ⟨i, hi, hlo, hhi⟩ := hcov hva
    obtain ⟨hi', hmm⟩ := hsame i hi
    rw [outside_of_region ht hi hlo hhi, outside_of_region ht' hi' (by rwa [hmm]) (by rwa [hmm]), hmm]
  · rw [outside_below ht (by omega), outside_below ht' (by omega)]

/-- A table without regions. -/
theorem outside_of_empty (h : Listed mm []) (n : ℕ) : outside P mm n = true := by
  simp only [outside, Bool.not_eq_true', List.any_eq_false, List.mem_finRange, true_implies]
  intro i
  have hunused : (mm.mmaps i).addr = 2 ^ 32 - 1 := by simpa using mt (h.used i).mpr
  simp [hunused]

/-- What is not in the place of a region, nor `P`, does not matter. -/
theorem outside_congr (h : ∀ i, (mm'.mmaps i).addr = (mm.mmaps i).addr ∧ (mm'.mmaps i).length = (mm.mmaps i).length ∧
    P (mm'.mmaps i) = P (mm.mmaps i)) : outside P mm' = outside P mm := by
  funext n
  have hregion (i : Fin 16) : (mm'.mmaps i).owns n = (mm.mmaps i).owns n := by
    unfold Region.owns Region.pageEnd
    rw [decide_eq_decide, (h i).1, (h i).2.1]
  simp only [outside, (h _).1, (h _).2.2, hregion]

/-- Two tables with the same regions. -/
theorem outside_of_cores (hP : ∀ r, P r.core = P r) (ht : Table mm l) (ht' : Table mm' l') (hc : cores mm' l' = cores mm l)
    (hva : va < 2 ^ 32) : outside P mm' (vpn va) = outside P mm (vpn va) := by
  -- a region of one table is one of the other
  have hmem {m m' : Mmaps} {x x' : List (Fin 16)} (hx : cores m' x' = cores m x)
      (h : ∃ i ∈ x, P (m.mmaps i) = true ∧ (m.mmaps i).addr ≤ va ∧ va < (m.mmaps i).pageEnd) :
      ∃ i ∈ x', P (m'.mmaps i) = true ∧ (m'.mmaps i).addr ≤ va ∧ va < (m'.mmaps i).pageEnd := by
    obtain ⟨i, hi, hPi, h₁, h₂⟩ := h
    have hcore : (m.mmaps i).core ∈ cores m' x' := hx ▸ List.mem_map_of_mem hi
    obtain ⟨j, hj, hji⟩ := List.mem_map.mp hcore
    have haddr : (m'.mmaps j).addr = (m.mmaps i).addr := (congrArg Region.addr hji :)
    have hlen : (m'.mmaps j).length = (m.mmaps i).length := (congrArg Region.length hji :)
    refine ⟨j, hj, by rw [← hP, hji, hP, hPi], by rwa [haddr], ?_⟩
    unfold Region.pageEnd at h₂ ⊢
    rwa [haddr, hlen]
  have hiff : outside P mm' (vpn va) = false ↔ outside P mm (vpn va) = false := by
    rw [outside_iff ht hva, outside_iff ht' hva]
    exact ⟨hmem hc.symm, hmem hc⟩
  cases h : outside P mm (vpn va) with
  | false => exact hiff.mpr h
  | true => exact Bool.eq_true_of_not_eq_false fun h' => by simp [hiff.mp h'] at h

end

/-! ### What two kinds of pages differ by -/

/-- The pages that a page directory maps at the page numbers of `m`. -/
@[irreducible] def PageDir.lent (m : ℕ → Bool) (pd : PageDir) : Multiset ℕ :=
  total fun i => (pd.tables i).elim 0 fun t => total fun j : Fin 1024 => slot (m (1024 * i.val + j.val)) (t.ptes j)

section

variable {mine mine' m : ℕ → Bool} {pd : PageDir} {page : ℕ}

theorem slot_split (b b' : Bool) (h : b = true → b' = true) (x : Option Pte) :
    slot b' x = slot b x + slot (b' && !b) x := by
  cases b with
  | true => simp [h rfl]
  | false => simp

/-- More pages are the directory's own. -/
theorem own_lent (h : ∀ n, mine n = true → mine' n = true) :
    pd.own mine' = pd.own mine + pd.lent fun n => mine' n && !mine n := by
  unfold PageDir.own PageDir.lent
  rw [Multiset.cons_add, ← total_add]
  refine congrArg _ (total_congr ?_)
  intro i
  cases pd.tables i with
  | none => rfl
  | some t =>
    simp only [Option.elim_some]
    unfold PageTable.own
    rw [Multiset.cons_add, ← total_add]
    exact congrArg _ (total_congr fun j => slot_split _ _ (h _) _)

theorem mem_slot {b : Bool} {x : Option Pte} : page ∈ slot b x ↔ b = true ∧ ∃ e, x = some e ∧ e.page = page := by
  cases x with
  | none => simp
  | some e =>
    cases b with
    | true => simp [eq_comm]
    | false => simp

theorem mem_lent : page ∈ pd.lent m ↔ ∃ n < 2 ^ 20, m n = true ∧ ∃ e, pd.pte (4096 * n) = some e ∧ e.page = page := by
  unfold PageDir.lent
  rw [mem_total]
  constructor
  · rintro ⟨i, hi⟩
    cases ht : pd.tables i with
    | none => simp [ht] at hi
    | some t =>
      rw [ht, Option.elim_some, mem_total] at hi
      obtain ⟨j, hj⟩ := hi
      obtain ⟨hm, e, he, hp⟩ := mem_slot.mp hj
      refine ⟨1024 * i.val + j.val, by omega, hm, e, ?_, hp⟩
      rw [← he, ← pte_entry ht j]
      congr 1
      omega
  · rintro ⟨n, hn, hm, e, he, hp⟩
    obtain ⟨t, ht, htj⟩ : ∃ t, pd.tables (pdx (4096 * n)) = some t ∧ t.ptes (ptx (4096 * n)) = some e := by
      simpa [PageDir.pte, Option.bind_eq_some_iff] using he
    have hvpn : 1024 * (pdx (4096 * n)).val + (ptx (4096 * n)).val = n := by
      rw [← vpn_eq]
      unfold vpn
      omega
    refine ⟨pdx (4096 * n), ?_⟩
    rw [ht, Option.elim_some, mem_total]
    exact ⟨ptx (4096 * n), mem_slot.mpr ⟨by rw [hvpn, hm], e, htj, hp⟩⟩

theorem nodup_lent (h : ∀ n n' e e', n < 2 ^ 20 → n' < 2 ^ 20 → m n = true → m n' = true → pd.pte (4096 * n) = some e →
    pd.pte (4096 * n') = some e' → e.page = e'.page → n = n') : (pd.lent m).Nodup := by
  -- an entry that is lent
  have hentry {i j : Fin 1024} {t : PageTable} {page : ℕ} (ht : pd.tables i = some t)
      (hp : page ∈ slot (m (1024 * i.val + j.val)) (t.ptes j)) :
      m (1024 * i.val + j.val) = true ∧ ∃ e, pd.pte (4096 * (1024 * i.val + j.val)) = some e ∧ e.page = page := by
    obtain ⟨hm, e, he, hp⟩ := mem_slot.mp hp
    refine ⟨hm, e, ?_, hp⟩
    rw [← he, ← pte_entry ht j]
    congr 1
    omega
  have hsame {i i' j j' : Fin 1024} {t t' : PageTable} {page : ℕ} (ht : pd.tables i = some t) (ht' : pd.tables i' = some t')
      (hp : page ∈ slot (m (1024 * i.val + j.val)) (t.ptes j))
      (hp' : page ∈ slot (m (1024 * i'.val + j'.val)) (t'.ptes j')) : i = i' ∧ j = j' := by
    obtain ⟨hm, e, he, hpage⟩ := hentry ht hp
    obtain ⟨hm', e', he', hpage'⟩ := hentry ht' hp'
    have := h _ _ e e' (by omega) (by omega) hm hm' he he' (hpage.trans hpage'.symm)
    exact ⟨Fin.ext (by omega), Fin.ext (by omega)⟩
  unfold PageDir.lent
  refine nodup_total ?_ ?_
  · intro i
    cases ht : pd.tables i with
    | none => simp
    | some t =>
      refine nodup_total ?_ fun j j' page hj hj' => (hsame ht ht hj hj').2
      intro j
      cases t.ptes j with
      | none => simp
      | some e =>
        cases m (1024 * i.val + j.val) with
        | true => exact Multiset.nodup_singleton _
        | false => exact Multiset.nodup_zero
  · intro i i' page hi hi'
    cases ht : pd.tables i with
    | none => simp [ht] at hi
    | some t =>
      cases ht' : pd.tables i' with
      | none => simp [ht'] at hi'
      | some t' =>
        rw [ht, Option.elim_some, mem_total] at hi
        rw [ht', Option.elim_some, mem_total] at hi'
        obtain ⟨j, hj⟩ := hi
        obtain ⟨j', hj'⟩ := hi'
        exact (hsame ht ht' hj hj').1

end

/-! ### Where `copy_maps` fails -/

section

variable {parent : Proc} {s s' : Copy} {l : List (Fin 16)}

/-- Where `copy_maps` fails, it fails at a page of a region. -/
theorem copyMaps_stops (ht : Table parent.mm l) (hs : Copied s [])
    (h : copyMaps parent.mm parent.pgdir 16 parent.mm.mmapHead s = some (s', false)) :
    ∃ before i after done va rest, l = before ++ i :: after ∧
      pageRange (parent.mm.mmaps i).addr (parent.mm.mmaps i).stop = done ++ va :: rest ∧
      CopyStops parent s before i done va s' := by
  rw [copyMaps_eq ht.linked ht.length_le] at h
  obtain ⟨before, i, after, s₁, rfl, hbefore, hstop⟩ := forEach_stops h
  have hlen := ht.length_le
  have hr := ht.region i (by simp)
  have hend := hr.stop_eq
  have hhi := hr.hi
  -- the regions so far leave a slot for this one
  obtain ⟨cl, hcl, hcores⟩ := copyMaps_cores (fun j hj => (ht.region j (by simp [hj])).addr_ne) hbefore hs
  have hsame : cl.length = before.length := by simpa [cores] using congrArg List.length hcores
  obtain ⟨c, hc⟩ := findUnusedMmap_isSome hcl.listed (by simp at hlen; omega)
  unfold copyRegion at hstop
  rw [hc] at hstop
  dsimp only at hstop
  split at hstop
  · cases hstop
  · rename_i fs hfs
    rw [forPages_eq _ _ (by omega)] at hstop
    split at hstop
    · cases hstop
    · rename_i s₂ hloop
      obtain rfl : s₂ = s' := by simpa using hstop
      obtain ⟨done, va, rest, s₃, hpages, hdone, hva⟩ := forEach_stops hloop
      exact ⟨before, i, after, done, va, rest, rfl, hpages, s₁, c, fs, s₃, hbefore, hc, hfs, hdone, hva⟩
    · obtain ⟨mm, -, hk⟩ := Option.map_eq_some_iff.mp hstop
      cases hk

end

/-! ### What comes to the child -/

section

variable {parent : PageDir} {pm : Mmaps} {r : Region} {c : Fin 16} {shared ok : Bool} {va x : ℕ} {e : Pte}
  {t t' : Copy} {l : List (Fin 16)}

/-- An entry of the child was there, or the parent has one. -/
theorem copyPage_origin (h : copyPage shared parent c va t = some (t', ok)) (he : t'.space.pgdir.pte x = some e) :
    t.space.pgdir.pte x = some e ∨ parent.pte x ≠ none := by
  cases copyPage_cases h with
  | absent | noPage => exact .inl he
  | noTable _ _ hmap =>
    obtain ⟨mem, -, rfl⟩ := mapNew_noTable hmap
    exact .inl he
  | mapped hparent hmap =>
    obtain ⟨-, -, hothers⟩ := copied_pte hmap
    by_cases hx : vpn x = vpn va
    · right
      rw [PageDir.pte_congr hx, hparent]
      exact Option.some_ne_none _
    · exact .inl ((hothers x hx).symm.trans he)

theorem copyRegion_origin (h : copyRegion parent r t = some (t', ok)) (he : t'.space.pgdir.pte x = some e) :
    t.space.pgdir.pte x = some e ∨ parent.pte x ≠ none := by
  have hloop {c : Fin 16} {fs : Fs} {mm : Mmaps} {t₁ : Copy} {ok : Bool}
      (hf : forEach (copyPage (has r.flags mapShared) parent c) (pageRange r.addr r.stop) { t with fs := fs, mm := mm } =
        some (t₁, ok)) : ∀ e, t₁.space.pgdir.pte x = some e → t.space.pgdir.pte x = some e ∨ parent.pte x ≠ none :=
    forEach_keeps (I := fun t₁ : Copy => ∀ e, t₁.space.pgdir.pte x = some e →
      t.space.pgdir.pte x = some e ∨ parent.pte x ≠ none)
      (fun _ _ _ _ _ ht hb e he => (copyPage_origin hb he).elim (ht e) .inr) hf fun _ he => .inl he
  obtain ⟨-, rfl⟩ | ⟨c, fs, -, -, ⟨-, hf⟩ | ⟨-, t₁, mm, hf, -, rfl⟩⟩ := copyRegion_cases h
  · exact .inl he
  · exact hloop hf e he
  · exact hloop hf e he

theorem copyMaps_origin (h : forEach (fun i => copyRegion parent (pm.mmaps i)) l t = some (t', ok))
    (he : t'.space.pgdir.pte x = some e) : t.space.pgdir.pte x = some e ∨ parent.pte x ≠ none :=
  forEach_keeps (I := fun t₁ : Copy => ∀ e, t₁.space.pgdir.pte x = some e →
    t.space.pgdir.pte x = some e ∨ parent.pte x ≠ none)
    (fun _ _ _ _ _ ht hb e he => (copyRegion_origin hb he).elim (ht e) .inr) h (fun _ he => .inl he) e he

end

/-! ### What `delete_mmaps` frees -/

/-- The pages of a region with `refcnt` 0 are freed. -/
theorem deleteMmaps_frees {s s' : Deletion} {l : List (Fin 16)} {i : Fin 16} {va : ℕ} {e : Pte} (ht : Table s.mm l)
    (h : deleteMmaps s = some s') (hi : i ∈ l) (hzero : (s.mm.mmaps i).refcnt = 0)
    (hva : va ∈ pageRange (s.mm.mmaps i).addr (s.mm.mmaps i).stop) (he : s.space.pgdir.pte va = some e) :
    e.page ∈ s'.space.mem.free := by
  obtain ⟨s₁, hfor, rfl⟩ := deleteMmaps_some ht.toListed h
  -- the page is still mapped until its region is done, and free from then on
  have hloop := forEach_done (I := fun done (t : Deletion) => (∀ j, j ∉ done → t.mm.mmaps j = s.mm.mmaps j) ∧
    (i ∉ done → t.space.pgdir.pte va = some e) ∧ (i ∈ done → e.page ∈ t.space.mem.free)) ?_ hfor
    ⟨fun _ _ => rfl, fun _ => he, by simp⟩
  · exact hloop.2.2 hi
  rintro done j rest t t' hsplit ⟨hmm, hmapped, hfreed⟩ hb
  obtain ⟨t₁, hd, hk⟩ := Option.map_eq_some_iff.mp hb
  obtain ⟨rfl, -⟩ := Prod.mk.inj hk
  obtain ⟨d, fs, parent, hdrop, -, rfl, -⟩ := deleteRegion_cases hd
  have hj : j ∉ done := by
    have hnd := hsplit ▸ ht.nodup
    exact fun hj => (List.nodup_cons.mp (List.nodup_middle.mp hnd)).1 (by simp [hj])
  rw [hmm j hj] at hdrop
  have hrj := ht.region j (by simp [hsplit])
  have hri := ht.region i hi
  have hendj := hrj.stop_eq
  have hhij := hrj.hi
  have hlei := hri.stop_le_pageEnd
  have hle := hri.pageEnd_le
  obtain ⟨hlo, hhi, -⟩ := (mem_pageRange_of_aligned hri.aligned).mp hva
  refine ⟨?_, ?_, ?_⟩
  · intro x hx
    rw [List.mem_append, List.mem_singleton, not_or] at hx
    simp only [Mmaps.reset, update_of_ne hx.2, hmm x hx.1]
  · intro hx
    rw [List.mem_append, List.mem_singleton, not_or] at hx
    have hc := hrj.dropPages_cleared hdrop
    dsimp only
    rw [hc.others va (by omega) ?_]
    · exact hmapped hx.1
    · have := ht.apart i hi j (by simp [hsplit]) hx.2
      unfold Region.Apart at this
      omega
  · -- the loop frees the pages of the region, or none
    intro hx
    have hmono (page : ℕ) (hp : page ∈ t.space.mem.free) : page ∈ d.space.mem.free := by
      by_cases hz : (s.mm.mmaps j).refcnt = 0
      · simp only [hz, decide_true] at hdrop
        rw [(dropPages_mem hdrop hrj.aligned (by omega)).1]
        exact List.mem_append_right _ hp
      · simp only [hz, decide_false] at hdrop
        rw [dropPages_keeps_mem hdrop]
        exact hp
    rcases List.mem_append.mp hx with hx | hx
    · exact hmono _ (hfreed hx)
    · obtain rfl := List.mem_singleton.mp hx
      simp only [hzero, decide_true] at hdrop
      rw [(dropPages_mem hdrop hrj.aligned (by omega)).1]
      refine List.mem_append_left _ (List.mem_reverse.mpr (List.mem_filterMap.mpr ⟨va, hva, ?_⟩))
      rw [hmapped hj]
      rfl

end SdeSystems.Wmap
