import SdeSystems.Wmap.Isolation
import SdeSystems.Wmap.Sharers

/-!
# Forks that fail

`copy_maps` fails where there is no memory for the next page or page table. `fork` then frees the
kernel stack and calls `freevm` on the child's page directory. It closes none of the files that it
and `copy_maps` have duplicated, and `freevm` frees the pages that `copy_maps` has mapped into the
child, also those of shared mappings, which are the parent's. So the parent is left as it was
exactly where, up to the point at which `copy_maps` fails, no file was duplicated and no page
shared.
-/

namespace SdeSystems.Wmap

open Lib Function

/-! ### Memory that is not touched -/

/-- Only pages of `F` are free or in use, and the others have the bytes `b`. -/
def Untouched (F : List ℕ) (b : ℕ → ℕ → UInt8) (m : Mem) (R : Multiset ℕ) : Prop :=
  (∀ page ∈ m.free, page ∈ F) ∧ (∀ page ∈ R, page ∈ F) ∧ ∀ page ∉ F, m.bytes page = b page

theorem untouched_ledger (F : List ℕ) (b : ℕ → ℕ → UInt8) : Ledger kalloc kfree Mem.fill (Untouched F b) where
  take {m m' page R} h hm := by
    unfold kalloc at h
    split at h
    · cases h
    · rename_i free hfree
      obtain ⟨rfl, rfl⟩ := Prod.mk.inj (Option.some.inj h)
      obtain ⟨h₁, h₂, h₃⟩ := hm
      rw [hfree] at h₁
      refine ⟨fun x hx => h₁ x (by simp [hx]), ?_, h₃⟩
      intro x hx
      rcases Multiset.mem_cons.mp hx with rfl | hx
      · exact h₁ x (by simp)
      · exact h₂ x hx
  give {m page R} hm := by
    obtain ⟨h₁, h₂, h₃⟩ := hm
    have hpage : page ∈ F := h₂ page (by simp)
    refine ⟨?_, fun x hx => h₂ x (by simp [hx]), ?_⟩
    · intro x hx
      rcases List.mem_cons.mp hx with rfl | hx
      · exact hpage
      · exact h₁ x hx
    · intro x hx
      have hne : x ≠ page := fun he => hx (he ▸ hpage)
      simp only [kfree, update_of_ne hne]
      exact h₃ x hx
  write {m page content R} hm := by
    obtain ⟨h₁, h₂, h₃⟩ := hm
    refine ⟨h₁, h₂, ?_⟩
    intro x hx
    have hne : x ≠ page := fun he => hx (he ▸ h₂ page (by simp))
    simp only [Mem.fill, update_of_ne hne]
    exact h₃ x hx
  drop hle hm := ⟨hm.1, fun x hx => hm.2.1 x (Multiset.mem_of_le hle hx), hm.2.2⟩

/-! ### `freevm` frees what is mapped -/

section

variable {s s' : Space} {m : Mem} {va : ℕ} {e : Pte}

/-- The body of the loop of `deallocuvm`. -/
def deallocPage (a : ℕ) (s : Space) : Option (Space × Bool) :=
  match s.pgdir.pte a with
  | none => some (s, true)
  | some e => some (⟨kfree s.mem e.page, s.pgdir.setPte a none⟩, true)

theorem deallocuvm_eq (s : Space) : deallocuvm s 0x80000000 0 =
    (forEach deallocPage (pageRange 0 0x80000000) s).map fun (s, _) => (s, 0) := by
  unfold deallocuvm
  rw [if_neg (by decide), forPages_eq _ _ (by decide)]
  rfl

theorem deallocPage_cases {a : ℕ} {ok : Bool} (h : deallocPage a s = some (s', ok)) :
    ok = true ∧ (s.pgdir.pte a = none ∧ s' = s ∨
      ∃ e, s.pgdir.pte a = some e ∧ s' = ⟨kfree s.mem e.page, s.pgdir.setPte a none⟩) := by
  unfold deallocPage at h
  split at h
  · rename_i hn
    obtain ⟨rfl, rfl⟩ := Prod.mk.inj (Option.some.inj h)
    exact ⟨rfl, .inl ⟨hn, rfl⟩⟩
  · rename_i e he
    obtain ⟨rfl, rfl⟩ := Prod.mk.inj (Option.some.inj h)
    exact ⟨rfl, .inr ⟨e, he, rfl⟩⟩

/-- The pages that `freevm` puts on the free list: those mapped below `KERNBASE`, the page tables and the page
directory. -/
def PageDir.Holds (pd : PageDir) (page : ℕ) : Prop :=
  (∃ va < 0x80000000, ∃ e, pd.pte va = some e ∧ e.page = page) ∨ (∃ i t, pd.tables i = some t ∧ t.page = page) ∨
    page = pd.page

theorem setPte_tables {pd : PageDir} {x : Option Pte} (i : Fin 1024) :
    ((pd.setPte va x).tables i).map PageTable.page = (pd.tables i).map PageTable.page := by
  unfold PageDir.setPte
  split
  · rfl
  · rename_i t ht
    by_cases hi : i = pdx va
    · subst hi
      simp [ht]
    · simp [hi]

/-- The loop comes to its end, and what it puts on the free list are the pages that were mapped. -/
theorem deallocuvm_puts (s : Space) : ∃ s' freed, deallocuvm s 0x80000000 0 = some (s', 0) ∧
    s'.pgdir.page = s.pgdir.page ∧
    (∀ i, (s'.pgdir.tables i).map PageTable.page = (s.pgdir.tables i).map PageTable.page) ∧
    s'.mem.free = freed ++ s.mem.free ∧
    ∀ page, page ∈ freed ↔ ∃ va < 0x80000000, ∃ e, s.pgdir.pte va = some e ∧ e.page = page := by
  have hturn (a : ℕ) (t : Space) : ∃ t', deallocPage a t = some (t', true) ∧ True := by
    unfold deallocPage
    split
    · exact ⟨_, rfl, trivial⟩
    · exact ⟨_, rfl, trivial⟩
  obtain ⟨s', hloop, -⟩ := forEach_isSome (I := fun _ => True) (l := pageRange 0 0x80000000) (s := s)
    (fun a _ t _ => hturn a t) trivial
  -- what is done is free, and what is to come is still mapped
  have hdone := forEach_done (I := fun done (t : Space) => t.pgdir.page = s.pgdir.page ∧
    (∀ i, (t.pgdir.tables i).map PageTable.page = (s.pgdir.tables i).map PageTable.page) ∧
    (∃ freed, t.mem.free = freed ++ s.mem.free ∧
      ∀ page, page ∈ freed ↔ ∃ va ∈ done, ∃ e, s.pgdir.pte va = some e ∧ e.page = page) ∧
    ∀ va, (∀ d ∈ done, vpn va ≠ vpn d) → t.pgdir.pte va = s.pgdir.pte va) ?_ hloop
    ⟨rfl, fun _ => rfl, ⟨[], rfl, by simp⟩, fun _ _ => rfl⟩
  · obtain ⟨hpage, htables, ⟨freed, hfree, hmem⟩, -⟩ := hdone
    refine ⟨s', freed, by rw [deallocuvm_eq, hloop]; rfl, hpage, htables, hfree, ?_⟩
    intro page
    refine (hmem page).trans ⟨?_, ?_⟩
    · rintro ⟨va, hva, e, he, hp⟩
      exact ⟨va, ((mem_pageRange_of_aligned (by decide)).mp hva).2.1, e, he, hp⟩
    · rintro ⟨va, hlt, e, he, hp⟩
      refine ⟨pgrounddown va, (mem_pageRange_of_aligned (by decide)).mpr ?_, e, ?_, hp⟩
      · unfold pgrounddown
        omega
      · rw [← he]
        apply PageDir.pte_congr
        unfold vpn pgrounddown
        omega
  rintro done a rest t t' hl ⟨hpage, htables, ⟨freed, hfree, hmem⟩, hpte⟩ hb
  have hself := hpte a fun d hd => vpn_ne_of_split hl (by decide) (by decide) hd
  obtain ⟨-, ⟨hn, rfl⟩ | ⟨e', he', rfl⟩⟩ := deallocPage_cases hb
  · refine ⟨hpage, htables, ⟨freed, hfree, fun page => (hmem page).trans ?_⟩,
      fun va hva => hpte va fun d hd => hva d (by simp [hd])⟩
    rw [hself] at hn
    simp [or_and_right, exists_or, hn]
  · refine ⟨?_, fun i => (setPte_tables i).trans (htables i), ⟨e'.page :: freed, ?_, ?_⟩, ?_⟩
    · rw [← hpage]
      unfold PageDir.setPte
      split <;> rfl
    · exact congrArg (e'.page :: ·) hfree
    · intro page
      rw [hself] at he'
      rw [List.mem_cons, or_comm, eq_comm, hmem]
      simp [or_and_right, exists_or, he']
    · intro va hva
      exact (PageDir.pte_setPte_of_ne (hva a (by simp))).trans (hpte va fun d hd => hva d (by simp [hd]))

/-- The body of the loop of `freevm` over the page tables. -/
def freeTable (pd : PageDir) (m : Mem) (i : Fin 1024) : Mem :=
  match pd.tables i with
  | none => m
  | some t => kfree m t.page

/-- The loop over the page tables puts the pages that they are in on the free list. -/
theorem freeTables_puts (pd : PageDir) (l : List (Fin 1024)) (m : Mem) : ∃ freed,
    (l.foldl (freeTable pd) m).free = freed ++ m.free ∧
      ∀ page, page ∈ freed ↔ ∃ i ∈ l, ∃ t, pd.tables i = some t ∧ t.page = page := by
  induction l generalizing m with
  | nil => exact ⟨[], rfl, by simp⟩
  | cons i l ih =>
    obtain ⟨freed, hfree, hmem⟩ := ih (freeTable pd m i)
    rw [List.foldl_cons, hfree]
    unfold freeTable
    cases ht : pd.tables i with
    | none => exact ⟨freed, rfl, fun page => by simp [hmem, ht]⟩
    | some t =>
      refine ⟨freed ++ [t.page], by simp [kfree], fun page => ?_⟩
      rw [List.mem_append, List.mem_singleton, or_comm, eq_comm, hmem]
      simp [or_and_right, exists_or, ht]

/-- `freevm` comes to its end, and puts the pages that the page directory holds on the free list. -/
theorem freevm_puts (s : Space) : ∃ m freed, freevm s = some m ∧ m.free = freed ++ s.mem.free ∧
    ∀ page, page ∈ freed ↔ s.pgdir.Holds page := by
  obtain ⟨s', mapped, hs', hpage, htables, hfree, hmapped⟩ := deallocuvm_puts s
  obtain ⟨tables, hfold, hmem⟩ := freeTables_puts s'.pgdir (List.finRange 1024) s'.mem
  refine ⟨_, s'.pgdir.page :: (tables ++ mapped), by rw [freevm, hs']; rfl, ?_, ?_⟩
  · refine (congrArg (s'.pgdir.page :: ·) hfold).trans ?_
    rw [hfree, List.cons_append, List.append_assoc]
  -- the page tables are put on the list as well
  intro page
  have hholds : (∃ i ∈ List.finRange 1024, ∃ t, s'.pgdir.tables i = some t ∧ t.page = page) ↔
      ∃ i t, s.pgdir.tables i = some t ∧ t.page = page := by
    simp only [List.mem_finRange, true_and]
    apply exists_congr
    intro i
    have hi := htables i
    simp only [← Option.map_eq_some_iff, hi]
  rw [List.mem_cons, List.mem_append, hmem, hholds, hmapped, hpage]
  exact or_comm.trans ((or_congr_left or_comm).trans or_assoc)

/-- What is on the free list after `freevm`. -/
theorem freevm_frees (s : Space) : ∃ m, freevm s = some m ∧
    ∀ page, page ∈ m.free ↔ page ∈ s.mem.free ∨ s.pgdir.Holds page := by
  obtain ⟨m, freed, hm, hfree, hmem⟩ := freevm_puts s
  exact ⟨m, hm, fun page => by rw [hfree, List.mem_append, hmem, or_comm]⟩

end

/-! ### Files that are duplicated -/

/-- No reference count goes down. -/
def Fs.Grows (fs fs' : Fs) : Prop := ∀ f, (fs.files f).ref ≤ (fs'.files f).ref

section

variable {fs fs' fs'' : Fs} {f : ℕ} {x : Option ℕ}

theorem Fs.Grows.refl (fs : Fs) : fs.Grows fs := fun _ => le_rfl

theorem Fs.Grows.trans (h : fs.Grows fs') (h' : fs'.Grows fs'') : fs.Grows fs'' := fun f => (h f).trans (h' f)

/-- A file that is duplicated has one reference more, and the others have as many as before. -/
theorem dupIf_grows (h : dupIf fs x = some fs') : fs.Grows fs' := fun f => by
  rw [dupIf_files h f]
  exact Nat.le_add_right _ _

/-- The loop of `fork` over the descriptors. -/
theorem dupFiles_spec {ofile : Fin 16 → Option ℕ} (h : dupFiles fs ofile = some fs') :
    fs.Grows fs' ∧ ((∃ j f, ofile j = some f) → ∃ f, (fs.files f).ref < (fs'.files f).ref) ∧
      ((∀ j, ofile j = none) → fs' = fs) := by
  have hlist (l : List (Fin 16)) (fs : Fs) (h : l.foldlM (fun fs i => dupIf fs (ofile i)) fs = some fs') :
      fs.Grows fs' ∧ ((∃ j ∈ l, ∃ f, ofile j = some f) → ∃ f, (fs.files f).ref < (fs'.files f).ref) ∧
        ((∀ j ∈ l, ofile j = none) → fs' = fs) := by
    induction l generalizing fs with
    | nil =>
      obtain rfl : fs = fs' := by simpa using h
      exact ⟨.refl _, by simp, fun _ => rfl⟩
    | cons i l ih =>
      rw [List.foldlM_cons] at h
      obtain ⟨fs₁, h₁, hrest⟩ := Option.bind_eq_some_iff.mp h
      obtain ⟨hgrows, hsome, hnone⟩ := ih fs₁ hrest
      have hone := dupIf_files h₁
      refine ⟨(dupIf_grows h₁).trans hgrows, ?_, ?_⟩
      · rintro ⟨j, hj, f, hf⟩
        rcases List.mem_cons.mp hj with rfl | hj
        · have hf₁ := hone f
          rw [if_pos hf] at hf₁
          exact ⟨f, by have := hgrows f; omega⟩
        · obtain ⟨g, hg⟩ := hsome ⟨j, hj, f, hf⟩
          exact ⟨g, lt_of_le_of_lt (dupIf_grows h₁ g) hg⟩
      · intro hall
        rw [hall i (by simp)] at h₁
        rw [hnone fun j hj => hall j (by simp [hj]), dupIf_none h₁]
  obtain ⟨hgrows, hsome, hnone⟩ := hlist _ _ h
  exact ⟨hgrows, fun ⟨j, f, hf⟩ => hsome ⟨j, List.mem_finRange j, f, hf⟩, fun hall => hnone fun j _ => hall j⟩

end

/-! ### Pages that are shared -/

section

variable {parent : PageDir} {r : Region} {c : Fin 16} {shared ok : Bool} {va x : ℕ} {e : Pte} {t t' : Copy}

theorem mappages_keeps {s s' : Space} (h : mappages s va e = some (s', ok)) {e' : Pte}
    (he : s.pgdir.pte x = some e') : s'.pgdir.pte x = some e' := by
  cases ok with
  | false =>
    obtain ⟨-, rfl⟩ | ⟨hf, -⟩ := mappages_cases h
    · exact he
    · cases hf
  | true =>
    have hne : vpn x ≠ vpn va := by
      intro hx
      rw [PageDir.pte_congr hx, (mappages_pte_self h).1] at he
      cases he
    rw [mappages_pte_of_ne h hne, he]

/-- The entries that the child has stay. -/
theorem copyPage_keeps (h : copyPage shared parent c va t = some (t', ok)) (he : t.space.pgdir.pte x = some e) :
    t'.space.pgdir.pte x = some e := by
  cases copyPage_cases h with
  | absent | noPage => exact he
  | noTable _ _ hmap =>
    obtain ⟨mem, -, rfl⟩ := mapNew_noTable hmap
    exact he
  | mapped _ hmap =>
    rcases hmap with ⟨-, hmap⟩ | ⟨-, hmap⟩
    · exact mappages_keeps hmap he
    · obtain ⟨page, mem, -, hm⟩ := mapNew_ok hmap
      have he' : (Space.mk (mem.fill page (t.space.mem.bytes e.page)) t.space.pgdir).pgdir.pte x = some e := he
      exact mappages_keeps hm he'

theorem copyPages_keeps {pages : List ℕ} (h : forEach (copyPage shared parent c) pages t = some (t', ok))
    (he : t.space.pgdir.pte x = some e) : t'.space.pgdir.pte x = some e :=
  forEach_keeps (I := fun t : Copy => t.space.pgdir.pte x = some e) (fun _ _ _ _ _ ht hb => copyPage_keeps hb ht) h he

/-- A page of a shared region that has been copied is in the child. -/
theorem copyPages_shared {pages : List ℕ} (h : forEach (copyPage true parent c) pages t = some (t', true))
    (hva : va ∈ pages) (he : parent.pte va = some e) : t'.space.pgdir.pte va = some ⟨e.page, true, true⟩ := by
  refine forEach_done (I := fun done (t : Copy) => ∀ va ∈ done, ∀ e, parent.pte va = some e →
    t.space.pgdir.pte va = some ⟨e.page, true, true⟩) ?_ h (by simp) va hva e he
  intro done a rest t₁ t₂ _ hdone hb va hva e he
  rcases List.mem_append.mp hva with hva | hva
  · exact copyPage_keeps hb (hdone va hva e he)
  · obtain rfl := List.mem_singleton.mp hva
    cases copyPage_cases hb with
    | absent hn =>
      rw [hn] at he
      cases he
    | mapped he' hmap =>
      obtain rfl : _ = e := Option.some.inj (he'.symm.trans he)
      rcases hmap with ⟨-, hmap⟩ | ⟨hf, -⟩
      · exact (mappages_pte_self hmap).2
      · cases hf

/-- What the copy of one region leaves in the child. -/
theorem copyRegion_keeps (h : copyRegion parent r t = some (t', ok)) (he : t.space.pgdir.pte x = some e) :
    t'.space.pgdir.pte x = some e := by
  obtain ⟨-, rfl⟩ | ⟨c, fs, -, -, ⟨-, hf⟩ | ⟨-, t₁, mm, hf, -, rfl⟩⟩ := copyRegion_cases h
  · exact he
  · exact copyPages_keeps hf he
  · have hkept := copyPages_keeps hf (x := x) (e := e) he
    exact hkept

/-- A region that has been copied: its file is duplicated, and its pages are in the child if it is shared. -/
theorem copyRegion_done (h : copyRegion parent r t = some (t', true)) : dupIf t.fs r.f = some t'.fs ∧
    (has r.flags mapShared = true → ∀ va ∈ pageRange r.addr r.stop, ∀ e, parent.pte va = some e →
      t'.space.pgdir.pte va = some ⟨e.page, true, true⟩) := by
  obtain ⟨hf, -⟩ | ⟨c, fs, -, hdup, ⟨hf, -⟩ | ⟨-, t₁, mm, hf, -, rfl⟩⟩ := copyRegion_cases h
  · cases hf
  · cases hf
  · obtain ⟨-, hfs, -⟩ := copyPages_mm hf
    refine ⟨by rw [hdup]; exact congrArg some hfs.symm, ?_⟩
    intro hsh va hva e he
    rw [hsh] at hf
    have hpte := copyPages_shared hf hva he
    exact hpte

/-- The pages of the shared regions that have been copied are in the child. -/
theorem copyMaps_shared {pm : Mmaps} {l : List (Fin 16)} {j : Fin 16}
    (h : forEach (fun i => copyRegion parent (pm.mmaps i)) l t = some (t', true)) (hj : j ∈ l)
    (hsh : has (pm.mmaps j).flags mapShared = true) (hx : x ∈ pageRange (pm.mmaps j).addr (pm.mmaps j).stop)
    (he : parent.pte x = some e) : t'.space.pgdir.pte x = some ⟨e.page, true, true⟩ := by
  refine forEach_done (I := fun done (t : Copy) => ∀ j ∈ done, has (pm.mmaps j).flags mapShared = true →
    ∀ x ∈ pageRange (pm.mmaps j).addr (pm.mmaps j).stop, ∀ e, parent.pte x = some e →
      t.space.pgdir.pte x = some ⟨e.page, true, true⟩) ?_ h (by simp) j hj hsh x hx e he
  rintro done i rest t₁ t₂ - hdone hb y hy hshy x hx e he
  rcases List.mem_append.mp hy with hy | hy
  · exact copyRegion_keeps hb (hdone y hy hshy x hx e he)
  · obtain rfl := List.mem_singleton.mp hy
    exact (copyRegion_done hb).2 hshy x hx e he

end

/-! ### The points at which `copy_maps` fails -/

/-- `copy_maps` fails at the page `va` of the region `i`: the regions of `before` and the pages of `done` have
been copied. -/
def CopyStops (parent : Proc) (s : Copy) (before : List (Fin 16)) (i : Fin 16) (done : List ℕ) (va : ℕ)
    (s' : Copy) : Prop :=
  ∃ s₁ c fs s₂, forEach (fun j => copyRegion parent.pgdir (parent.mm.mmaps j)) before s = some (s₁, true) ∧
    findUnusedMmap s₁.mm = some c ∧ dupIf s₁.fs (parent.mm.mmaps i).f = some fs ∧
    forEach (copyPage (has (parent.mm.mmaps i).flags mapShared) parent.pgdir c) done
      { s₁ with fs := fs, mm := opened s₁.mm c (parent.mm.mmaps i) } = some (s₂, true) ∧
    copyPage (has (parent.mm.mmaps i).flags mapShared) parent.pgdir c va s₂ = some (s', false)

/-- `fork` of `p` comes to `copy_maps`, and `copy_maps` fails at that point. -/
def ForkStops (k : Kernel) (p : Fin 64) (before : List (Fin 16)) (i : Fin 16) (done : List ℕ) (va : ℕ) : Prop :=
  ∃ q kstack mem mem₁ d fs s, unusedProc k = some q ∧ kalloc k.mem = some (kstack, mem) ∧
    copyuvm mem (k.procs p).pgdir (k.procs p).sz = some (mem₁, some d) ∧ dupFiles k.fs (k.procs p).ofile = some fs ∧
    CopyStops (k.procs p) ⟨⟨mem₁, d⟩, fs, initMmaps, none⟩ before i done va s

/-- The parent is as it was: its pages are in use, its mappings, its page table and the contents of its pages
have not changed, and every file has as many references as before. -/
structure Intact (k k' : Kernel) (p : Fin 64) : Prop where
  /-- No page that the parent maps is free. -/
  notFree : ∀ page, Maps k p page → page ∉ k'.mem.free
  /-- Its mappings. -/
  mm : (k'.procs p).mm = (k.procs p).mm
  /-- Its page directory. -/
  pgdir : (k'.procs p).pgdir = (k.procs p).pgdir
  /-- The contents of its pages. -/
  bytes : ∀ page, Maps k p page → k'.mem.bytes page = k.mem.bytes page
  /-- The reference counts. -/
  refs : ∀ f, (k'.fs.files f).ref = (k.fs.files f).ref

/-- Up to the point at which `copy_maps` fails there is no open file, no file that is mapped, and no page of a
shared region. -/
structure NothingShared (k : Kernel) (p : Fin 64) (before : List (Fin 16)) (i : Fin 16) (done : List ℕ) : Prop where
  /-- There is no open file. -/
  ofile : ∀ j, (k.procs p).ofile j = none
  /-- No file is mapped. -/
  files : ∀ j ∈ before ++ [i], ((k.procs p).mm.mmaps j).f = none
  /-- The shared regions that have been copied have no pages. -/
  regions : ∀ j ∈ before, has ((k.procs p).mm.mmaps j).flags mapShared = true →
    ∀ va ∈ pageRange ((k.procs p).mm.mmaps j).addr ((k.procs p).mm.mmaps j).stop, (k.procs p).pgdir.pte va = none
  /-- The region at which it fails has none before the page at which it does, if it is shared. -/
  last : has ((k.procs p).mm.mmaps i).flags mapShared = true → ∀ va ∈ done, (k.procs p).pgdir.pte va = none

section

variable {k : Kernel} {p : Fin 64} {before after : List (Fin 16)} {i : Fin 16} {done rest : List ℕ} {va : ℕ}
  {s s' : Copy} {parent : Proc}

/-- Such a point is one at which `copy_maps` returns. -/
theorem CopyStops.copyMaps (h : CopyStops parent s before i done va s')
    (ht : Table parent.mm (before ++ i :: after))
    (hpages : pageRange (parent.mm.mmaps i).addr (parent.mm.mmaps i).stop = done ++ va :: rest) :
    copyMaps parent.mm parent.pgdir 16 parent.mm.mmapHead s = some (s', false) := by
  obtain ⟨s₁, c, fs, s₂, hbefore, hc, hfs, hdone, hva⟩ := h
  have hstop := (ht.region i (by simp)).stop_eq
  have hhi := (ht.region i (by simp)).hi
  have hloop : forEach (copyPage (has (parent.mm.mmaps i).flags mapShared) parent.pgdir c) (done ++ va :: rest)
      { s₁ with fs := fs, mm := opened s₁.mm c (parent.mm.mmaps i) } = some (s', false) := by
    rw [forEach_append hdone]
    simp only [forEach, hva]
  have hregion : copyRegion parent.pgdir (parent.mm.mmaps i) s₁ = some (s', false) := by
    unfold copyRegion
    rw [hc]
    dsimp only
    rw [hfs]
    dsimp only
    rw [forPages_eq _ _ (by omega), hpages]
    unfold opened at hloop
    dsimp only at hloop
    rw [hloop]
  rw [copyMaps_eq ht.linked ht.length_le, forEach_append hbefore]
  simp only [forEach, hregion]

/-- A fork that comes to such a point fails: the child's kernel stack and page directory are freed, and its slot
is the only one that has changed. -/
theorem ForkStops.fork (h : ForkStops k p before i done va) (ht : Table (k.procs p).mm (before ++ i :: after))
    (hpages : pageRange ((k.procs p).mm.mmaps i).addr ((k.procs p).mm.mmaps i).stop = done ++ va :: rest) :
    ∃ k' q kstack mem mem₁ d fs s, Wmap.fork k p = some (k', -1) ∧ unusedProc k = some q ∧
      kalloc k.mem = some (kstack, mem) ∧ copyuvm mem (k.procs p).pgdir (k.procs p).sz = some (mem₁, some d) ∧
      dupFiles k.fs (k.procs p).ofile = some fs ∧
      CopyStops (k.procs p) ⟨⟨mem₁, d⟩, fs, initMmaps, none⟩ before i done va s ∧
      freevm ⟨kfree s.space.mem kstack, s.space.pgdir⟩ = some k'.mem ∧ k'.fs = s.fs ∧
      ∀ q' ≠ q, k'.procs q' = k.procs q' := by
  obtain ⟨q, kstack, mem, mem₁, d, fs, s, hq, hstack, hcopy, hdup, hstop⟩ := h
  obtain ⟨m, hm, -⟩ := freevm_frees ⟨kfree s.space.mem kstack, s.space.pgdir⟩
  have hmaps := hstop.copyMaps ht hpages
  have hfork : Wmap.fork k p = some ({ k.put q (child k p q kstack s.space.pgdir s.mm .unused) m s.fs with
      nextpid := k.nextpid + 1 }, -1) := by
    unfold Wmap.fork
    rw [hq]
    dsimp only
    rw [hstack]
    dsimp only
    rw [hcopy]
    dsimp only
    unfold forkMaps
    dsimp only
    rw [hdup]
    dsimp only
    rw [hmaps]
    dsimp only
    rw [hm]
    rfl
  exact ⟨_, q, kstack, mem, mem₁, d, fs, s, hfork, hq, hstack, hcopy, hdup, hstop, hm, rfl,
    fun q' hq' => update_of_ne hq' _ _⟩

/-- Where no page is shared the child's pages have all been taken for it. -/
theorem CopyStops.owned {I : Mem → Multiset ℕ → Prop} (hI : Ledger kalloc kfree Mem.fill I) {R : Multiset ℕ}
    (h : CopyStops parent s before i done va s')
    (hbefore : ∀ j ∈ before, (parent.mm.mmaps j).Splits parent.pgdir allMine)
    (hdone : has (parent.mm.mmaps i).flags mapShared = true → ∀ va ∈ done, parent.pgdir.pte va = none)
    (hs : I s.space.mem (s.space.pgdir.own allMine + R)) : I s'.space.mem (s'.space.pgdir.own allMine + R) := by
  obtain ⟨s₁, c, fs, s₂, hf, -, -, hpages, hva⟩ := h
  have h₁ := copyMaps_owned hI hf hbefore hs
  have h₂ : I s₂.space.mem (s₂.space.pgdir.own allMine + R) := by
    refine forEach_keeps (I := fun t : Copy => I t.space.mem (t.space.pgdir.own allMine + R))
      (fun a ha t t' ok ht hb => copyPage_owned hI hb ?_ ht) hpages h₁
    intro e he
    cases hsh : has (parent.mm.mmaps i).flags mapShared with
    | false => rfl
    | true =>
      rw [hdone hsh a ha] at he
      cases he
  -- the page at which it fails is not mapped
  cases copyPage_cases hva with
  | noPage => exact h₂
  | noTable _ _ hmap => exact mapNew_noTable_owned hI.toBalance hmap h₂

/-- The files that have been duplicated. -/
theorem CopyStops.files (h : CopyStops parent s before i done va s') : s.fs.Grows s'.fs ∧
    ((∃ j ∈ before ++ [i], ∃ f, (parent.mm.mmaps j).f = some f) → ∃ f, (s.fs.files f).ref < (s'.fs.files f).ref) ∧
      ((∀ j ∈ before ++ [i], (parent.mm.mmaps j).f = none) → s'.fs = s.fs) := by
  obtain ⟨s₁, c, fs, s₂, hf, -, hdup, hpages, hva⟩ := h
  have hlast : s'.fs = fs := by
    have h₂ := (copyPages_mm hpages).2.1
    cases copyPage_cases hva with
    | noPage => exact h₂
    | noTable => exact h₂
  have hbefore := forEach_done (I := fun done (t : Copy) => s.fs.Grows t.fs ∧
    (∀ j ∈ done, ∀ f, (parent.mm.mmaps j).f = some f → (s.fs.files f).ref < (t.fs.files f).ref) ∧
    ((∀ j ∈ done, (parent.mm.mmaps j).f = none) → t.fs = s.fs)) ?_ hf ⟨.refl _, by simp, fun _ => rfl⟩
  · obtain ⟨hgrows, hsome, hnone⟩ := hbefore
    rw [hlast]
    refine ⟨hgrows.trans (dupIf_grows hdup), ?_, ?_⟩
    · rintro ⟨j, hj, f, hfj⟩
      refine ⟨f, ?_⟩
      rcases List.mem_append.mp hj with hj | hj
      · exact lt_of_lt_of_le (hsome j hj f hfj) (dupIf_grows hdup f)
      · obtain rfl := List.mem_singleton.mp hj
        have := dupIf_files hdup f
        rw [if_pos hfj] at this
        have := hgrows f
        omega
    · intro hall
      rw [hall i (by simp)] at hdup
      rw [dupIf_none hdup]
      exact hnone fun j hj => hall j (by simp [hj])
  · rintro done j rest t t' - ⟨hgrows, hsome, hnone⟩ hb
    obtain ⟨hdup, -⟩ := copyRegion_done hb
    refine ⟨hgrows.trans (dupIf_grows hdup), ?_, ?_⟩
    · intro x hx f hfx
      rcases List.mem_append.mp hx with hx | hx
      · exact lt_of_lt_of_le (hsome x hx f hfx) (dupIf_grows hdup f)
      · obtain rfl := List.mem_singleton.mp hx
        have := dupIf_files hdup f
        rw [if_pos hfx] at this
        have := hgrows f
        omega
    · intro hall
      rw [hall j (by simp)] at hdup
      rw [dupIf_none hdup]
      exact hnone fun x hx => hall x (by simp [hx])

/-- A page of a shared region that has been copied is in the child when `copy_maps` fails. -/
theorem CopyStops.shared (h : CopyStops parent s before i done va s') {j : Fin 16} {x : ℕ} {e : Pte}
    (he : parent.pgdir.pte x = some e) (hsh : has (parent.mm.mmaps j).flags mapShared = true)
    (hx : j ∈ before ∧ x ∈ pageRange (parent.mm.mmaps j).addr (parent.mm.mmaps j).stop ∨ j = i ∧ x ∈ done) :
    s'.space.pgdir.pte x = some ⟨e.page, true, true⟩ := by
  obtain ⟨s₁, c, fs, s₂, hf, -, -, hpages, hva⟩ := h
  apply copyPage_keeps hva
  rcases hx with ⟨hj, hx⟩ | ⟨rfl, hx⟩
  · have hcopied := copyMaps_shared hf hj hsh hx he
    exact copyPages_keeps hpages hcopied
  · rw [hsh] at hpages
    exact copyPages_shared hpages hx he

/-- A page of a shared region that has been copied is freed with the child. -/
theorem ForkStops.frees_shared (hstop : ForkStops k p before i done va)
    (ht : Table (k.procs p).mm (before ++ i :: after))
    (hpages : pageRange ((k.procs p).mm.mmaps i).addr ((k.procs p).mm.mmaps i).stop = done ++ va :: rest)
    {j : Fin 16} {x : ℕ} {e : Pte} (hx : j ∈ before ∧
      x ∈ pageRange ((k.procs p).mm.mmaps j).addr ((k.procs p).mm.mmaps j).stop ∨ j = i ∧ x ∈ done)
    (hsh : has ((k.procs p).mm.mmaps j).flags mapShared = true) (he : (k.procs p).pgdir.pte x = some e) :
    ∃ k', Wmap.fork k p = some (k', -1) ∧ e.page ∈ k'.mem.free := by
  obtain ⟨k', q, kstack, mem, mem₁, d, fs, s, hfork, -, -, -, -, hcs, hm, -, -⟩ := hstop.fork ht hpages
  have hj : j ∈ before ++ i :: after := by
    rcases hx with ⟨hj, -⟩ | ⟨rfl, -⟩ <;> simp [*]
  have hxr : x ∈ pageRange ((k.procs p).mm.mmaps j).addr ((k.procs p).mm.mmaps j).stop := by
    rcases hx with ⟨-, hx⟩ | ⟨rfl, hx⟩
    · exact hx
    · simp [hpages, hx]
  have hr := ht.region j hj
  have hend := hr.stop_eq
  have hhi := hr.hi
  obtain ⟨-, hlt, hal⟩ := (mem_pageRange_of_aligned hr.aligned).mp hxr
  obtain ⟨m, hm', hfreed⟩ := freevm_frees ⟨kfree s.space.mem kstack, s.space.pgdir⟩
  obtain rfl : m = k'.mem := Option.some.inj (hm'.symm.trans hm)
  exact ⟨k', hfork, (hfreed _).mpr (.inr (.inl ⟨x, by omega, _, hcs.shared he hsh hx, rfl⟩))⟩

/-- **A failing fork leaves the parent intact** exactly where, up to the point at which `copy_maps` fails, nothing
was shared with the child. Whatever that point is, `fork` returns -1. -/
theorem failed_fork_intact_iff (hp : (k.procs p).state ≠ .unused)
    (ht : Table (k.procs p).mm (before ++ i :: after))
    (hpages : pageRange ((k.procs p).mm.mmaps i).addr ((k.procs p).mm.mmaps i).stop = done ++ va :: rest)
    (hfree : ∀ page, Maps k p page → page ∉ k.mem.free) (hstop : ForkStops k p before i done va) :
    ∃ k', Wmap.fork k p = some (k', -1) ∧ (Intact k k' p ↔ NothingShared k p before i done) := by
  obtain ⟨k', q, kstack, mem, mem₁, d, fs, s, hfork, hq, hstack, hcopy, hdup, hcs, hm, hfs, hothers⟩ :=
    hstop.fork ht hpages
  have hpq : p ≠ q := fun hpq => hp (hpq ▸ unusedProc_some hq)
  have hproc := hothers p hpq
  obtain ⟨hgrows₁, hsome₁, hnone₁⟩ := dupFiles_spec hdup
  obtain ⟨hgrows₂, hsome₂, hnone₂⟩ := hcs.files
  refine ⟨k', hfork, ?_, ?_⟩
  · -- a file that was duplicated has a reference more than before
    intro hint
    have hrefs (f : ℕ) : (s.fs.files f).ref = (k.fs.files f).ref := by
      rw [← hint.refs f, hfs]
    -- a page that was shared is freed with the child
    have hpage {j : Fin 16} {x : ℕ} {e : Pte} (hx : j ∈ before ∧
        x ∈ pageRange ((k.procs p).mm.mmaps j).addr ((k.procs p).mm.mmaps j).stop ∨ j = i ∧ x ∈ done)
        (hsh : has ((k.procs p).mm.mmaps j).flags mapShared = true) (he : (k.procs p).pgdir.pte x = some e) : False := by
      obtain ⟨k₂, hfork₂, hfreed⟩ := hstop.frees_shared ht hpages hx hsh he
      obtain rfl : k₂ = k' := congrArg Prod.fst (Option.some.inj (hfork₂.symm.trans hfork))
      exact hint.notFree e.page ⟨x, e, he, rfl⟩ hfreed
    refine ⟨?_, ?_, ?_, ?_⟩
    · intro j
      cases hf : (k.procs p).ofile j with
      | none => rfl
      | some f =>
        obtain ⟨g, hg⟩ := hsome₁ ⟨j, f, hf⟩
        have := hgrows₂ g
        have := hrefs g
        dsimp only at *
        omega
    · intro j hj
      cases hf : ((k.procs p).mm.mmaps j).f with
      | none => rfl
      | some f =>
        obtain ⟨g, hg⟩ := hsome₂ ⟨j, hj, f, hf⟩
        have := hgrows₁ g
        have := hrefs g
        dsimp only at *
        omega
    · intro j hj hsh x hx
      by_contra hne
      obtain ⟨e, he⟩ := Option.ne_none_iff_exists'.mp hne
      exact hpage (.inl ⟨hj, hx⟩) hsh he
    · intro hsh x hx
      by_contra hne
      obtain ⟨e, he⟩ := Option.ne_none_iff_exists'.mp hne
      exact hpage (.inr ⟨rfl, hx⟩) hsh he
  · -- all pages of the child came from the free list
    intro hnothing
    have hI := untouched_ledger k.mem.free k.mem.bytes
    have hbefore : ∀ j ∈ before, ((k.procs p).mm.mmaps j).Splits (k.procs p).pgdir allMine := by
      intro j hj x hx e he
      cases hsh : has ((k.procs p).mm.mmaps j).flags mapShared with
      | false => rfl
      | true =>
        rw [hnothing.regions j hj hsh x hx] at he
        cases he
    have h₀ : Untouched k.mem.free k.mem.bytes k.mem 0 := ⟨fun _ h => h, by simp, fun _ _ => rfl⟩
    have h₁ := hcs.owned hI hbefore hnothing.last (copyuvm_owned hI hcopy (hI.take hstack h₀))
    rw [Multiset.add_cons] at h₁
    obtain ⟨hin, -, hbytes⟩ := freevm_owned hI hm (hI.give h₁)
    refine ⟨fun page hpg hf => hfree page hpg (hin page hf), by rw [hproc], by rw [hproc],
      fun page hpg => hbytes page (hfree page hpg), ?_⟩
    intro f
    rw [hfs, hnone₂ hnothing.files]
    dsimp only
    rw [hnone₁ hnothing.ofile]

end

/-! ### Two forks that fail -/

/-- The parts of a fork in which the page `va` is the first for which there is no page left. -/
def forkUpTo (k : Kernel) (before : List (Fin 16)) (i : Fin 16) (done : List ℕ) (va : ℕ) : Option (Bool × Bool × Bool) :=
  (unusedProc k).bind fun _ => (kalloc k.mem).bind fun (_, mem) =>
    (copyuvm mem (k.procs initproc).pgdir (k.procs initproc).sz).bind fun (mem₁, d) => d.bind fun d =>
    (dupFiles k.fs (k.procs initproc).ofile).bind fun fs =>
    (forEach (fun j => copyRegion (k.procs initproc).pgdir ((k.procs initproc).mm.mmaps j)) before
      ⟨⟨mem₁, d⟩, fs, initMmaps, none⟩).bind fun (s₁, ok₁) =>
    (findUnusedMmap s₁.mm).bind fun c => (dupIf s₁.fs ((k.procs initproc).mm.mmaps i).f).bind fun fs =>
    (forEach (copyPage (has ((k.procs initproc).mm.mmaps i).flags mapShared) (k.procs initproc).pgdir c) done
      { s₁ with fs := fs, mm := opened s₁.mm c ((k.procs initproc).mm.mmaps i) }).bind fun (s₂, ok₂) =>
    (copyPage (has ((k.procs initproc).mm.mmaps i).flags mapShared) (k.procs initproc).pgdir c va s₂).map fun (_, ok) =>
      (ok₁, ok₂, ok)

theorem forkStops_of_upTo {k : Kernel} {before : List (Fin 16)} {i : Fin 16} {done : List ℕ} {va : ℕ}
    (h : forkUpTo k before i done va = some (true, true, false)) : ForkStops k 0 before i done va := by
  simp only [forkUpTo, Option.bind_eq_some_iff, Option.map_eq_some_iff, Prod.exists, Prod.mk.injEq] at h
  obtain ⟨q, hq, kstack, mem, hstack, mem₁, _, hcopy, d, rfl, fs, hdup, h⟩ := h
  obtain ⟨s₁, _, hbefore, c, hc, fs', hfs', s₂, _, hdone, s, _, hva, rfl, rfl, rfl⟩ := h
  exact ⟨q, kstack, mem, mem₁, d, fs, s, hq, hstack, hcopy, hdup, s₁, c, fs', s₂, hbefore, hc, hfs', hdone, hva⟩

/-- A private mapping of two pages, both touched. -/
def privatePages : List Op :=
  [.wmap initproc 0x60000000 0x2000 0xD (-1), .fault initproc 0x60000000, .fault initproc 0x60001000]

/-- There is no page for the copy of the second page, and the parent is intact. -/
theorem failed_fork_intact_private : ∃ k k', runAll (boot 73) privatePages = some k ∧ Wmap.fork k 0 = some (k', -1) ∧
    Intact k k' 0 := by
  have hrun : ((runAll (boot 73) privatePages).map fun k => decide (
      forkUpTo k [] 0 [0x60000000] 0x60001000 = some (true, true, false) ∧ (k.procs 0).state = .runnable ∧
      (k.procs 0).mm.mmapHead = some 0 ∧ (k.procs 0).mm.next 0 = none ∧ (∀ j, (k.procs 0).ofile j = none) ∧
      (k.procs 0).mm.mmaps 0 = ⟨0x60000000, 0x2000, 0xD, -1, none, 0, 2⟩)) = some true := by
    decide +kernel
  obtain ⟨k, hk, hout⟩ := Option.map_eq_some_iff.mp hrun
  obtain ⟨hupto, hstate, hhead, hnext, hofile, hregion⟩ := of_decide_eq_true hout
  have hlive : (k.procs 0).state ≠ .unused := by simp [hstate]
  have hreach : Reachable privateOnly (boot 73) k := by
    apply reachable_of_runAll hk
    intro op hop k
    simp only [privatePages, List.mem_cons, List.not_mem_nil, or_false] at hop
    rcases hop with rfl | rfl | rfl
    · exact (by decide : has 0xD mapShared = false)
    · trivial
    · trivial
  obtain ⟨htables, -, hpages⟩ := private_invariant (boot_fresh 73) hreach
  obtain ⟨l, ht, -⟩ := htables 0 hlive
  have hlinked : Linked (k.procs 0).mm.next (k.procs 0).mm.mmapHead [0] none := ⟨hhead, hnext⟩
  obtain rfl : l = [] ++ 0 :: [] := ht.linked.unique hlinked
  have hrange : pageRange ((k.procs 0).mm.mmaps 0).addr ((k.procs 0).mm.mmaps 0).stop =
      [0x60000000] ++ 0x60001000 :: [] := by
    rw [hregion]
    decide
  obtain ⟨k', hfork, hiff⟩ := failed_fork_intact_iff hlive ht hrange
    (fun page ⟨va, e, he, hpage⟩ => hpage ▸ hpages.isolated.notFree 0 va e hlive he) (forkStops_of_upTo hupto)
  refine ⟨k, k', hk, hfork, hiff.mpr ⟨hofile, ?_, ?_, ?_⟩⟩
  · simp [hregion]
  · simp
  · intro hsh
    rw [hregion] at hsh
    exact absurd hsh (by decide)

/-- A shared page that is touched, and a private one for the copy of which there is no page. -/
def sharedThenPrivate : List Op :=
  [.wmap initproc 0x60000000 0x1000 0xE (-1), .fault initproc 0x60000000, .wmap initproc 0x60001000 0x1000 0xD (-1),
    .fault initproc 0x60001000]

/-- The fork fails, and the shared page that the parent maps is on the free list. -/
theorem failed_fork_frees_page_of_parent : ∃ k k', runAll (boot 72) sharedThenPrivate = some k ∧
    Wmap.fork k 0 = some (k', -1) ∧ ¬ Intact k k' 0 := by
  have hrun : ((runAll (boot 72) sharedThenPrivate).map fun k => decide (
      forkUpTo k [0] 1 [] 0x60001000 = some (true, true, false) ∧ (k.procs 0).state = .runnable ∧
      (k.procs 0).mm.mmapHead = some 0 ∧ (k.procs 0).mm.next 0 = some 1 ∧ (k.procs 0).mm.next 1 = none ∧
      (k.procs 0).mm.mmaps 0 = ⟨0x60000000, 0x1000, 0xE, -1, none, 0, 1⟩ ∧
      (k.procs 0).mm.mmaps 1 = ⟨0x60001000, 0x1000, 0xD, -1, none, 0, 1⟩ ∧
      (k.procs 0).pgdir.pte 0x60000000 = some ⟨3000, true, true⟩)) = some true := by
    decide +kernel
  obtain ⟨k, hk, hout⟩ := Option.map_eq_some_iff.mp hrun
  obtain ⟨hupto, hstate, hhead, hnext₀, hnext₁, hregion₀, hregion₁, hpte⟩ := of_decide_eq_true hout
  have hreach : Reachable noWpunmap (boot 72) k := by
    apply reachable_of_runAll hk
    intro op hop k
    simp only [sharedThenPrivate, List.mem_cons, List.not_mem_nil, or_false] at hop
    rcases hop with rfl | rfl | rfl | rfl <;> simp [noWpunmap]
  obtain ⟨l, ht, -⟩ := tables_of_reachable (fun _ _ => rfl) hreach 0 (by simp [hstate])
  have hlinked : Linked (k.procs 0).mm.next (k.procs 0).mm.mmapHead [0, 1] none := ⟨hhead, hnext₀, hnext₁⟩
  obtain rfl : l = [0] ++ 1 :: [] := ht.linked.unique hlinked
  have hrange : pageRange ((k.procs 0).mm.mmaps 1).addr ((k.procs 0).mm.mmaps 1).stop = [] ++ 0x60001000 :: [] := by
    rw [hregion₁]
    decide
  obtain ⟨k', hfork, hfreed⟩ := (forkStops_of_upTo hupto).frees_shared ht hrange
    (.inl ⟨List.mem_singleton_self 0, by rw [hregion₀]; decide⟩) (by rw [hregion₀]; decide) hpte
  exact ⟨k, k', hk, hfork, fun hint => hint.notFree 3000 ⟨_, _, hpte, rfl⟩ hfreed⟩

end SdeSystems.Wmap
