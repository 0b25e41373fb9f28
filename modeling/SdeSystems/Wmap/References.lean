import SdeSystems.Wmap.FailLate
import SdeSystems.Wmap.Inside
import SdeSystems.Wmap.Placement
import SdeSystems.Lib.Ledger

/-!
# The references to files

A process has a reference to a file for each descriptor and for each region with that file. `Refs`
says of the reference counts that they come to some given numbers and the references of a multiset.
Here is what each operation does to the references of its process, with those of all the others as a
multiset that stays the same.

A table whose list is in order (`Listed`) is enough for this: it does not matter where the regions
are. `exit` gives the reference of a region back if the region's count of references is 0, so the
tables that give back all they have are those in which this is so for every region with a file
(`Returns`).
-/

namespace SdeSystems.Wmap

open Lib Function

/-! ### Counting -/

/-- The reference of a pointer to a file, which may be 0. -/
def refOf (f : Option ℕ) : Multiset ℕ := f.elim 0 fun x => {x}

@[simp] theorem refOf_none : refOf none = 0 := rfl

/-- The reference counts are those of `F` and the references of `R`. -/
def Refs (F : ℕ → ℕ) (fs : Fs) (R : Multiset ℕ) : Prop := ∀ x, (fs.files x).ref = F x + R.count x

/-- The references of a table. -/
def Mmaps.files (mm : Mmaps) : Multiset ℕ := total fun i => refOf (mm.mmaps i).f

/-- The references of a process. -/
def Proc.files (pr : Proc) : Multiset ℕ := total (fun i => refOf (pr.ofile i)) + pr.mm.files

section

variable {F : ℕ → ℕ} {fs fs' : Fs} {R : Multiset ℕ} {f : Option ℕ} {ofile : Fin 16 → Option ℕ} {mm mm' : Mmaps}
  {i j : Fin 16} {r : Region} {l l₁ l₂ : List (Fin 16)}

theorem count_refOf (f : Option ℕ) (x : ℕ) : (refOf f).count x = if f = some x then 1 else 0 := by
  cases f with
  | none => simp
  | some y => simp [refOf, Multiset.count_singleton, eq_comm]

theorem Refs.congr (h : Refs F fs R) (hf : fs'.files = fs.files) : Refs F fs' R := fun x => by
  rw [hf]
  exact h x

/-- A reference is taken. -/
theorem Refs.dup (h : Refs F fs R) (hd : dupIf fs f = some fs') : Refs F fs' (refOf f + R) := fun x => by
  rw [dupIf_files hd, h x, Multiset.count_add, count_refOf]
  omega

/-- A reference is given back. -/
theorem Refs.close (h : Refs F fs (refOf f + R)) (hc : closeIf fs f = some fs') : Refs F fs' R := fun x => by
  have hx := h x
  rw [Multiset.count_add, count_refOf] at hx
  cases f with
  | none =>
    obtain rfl := Option.some.inj hc
    simpa using hx
  | some y =>
    simp only [closeIf, fileclose] at hc
    split_ifs at hc with hlt
    obtain rfl := Option.some.inj hc
    by_cases hxy : x = y
    · subst hxy
      simp only [update_self, if_true] at hx ⊢
      omega
    · simpa [hxy, Ne.symm hxy] using hx

/-- The reference of a region is given back if nobody else counts on it. -/
theorem Refs.closeRegion (h : Refs F fs (refOf r.f + R)) (hr : r.f ≠ none → r.refcnt = 0)
    (hc : (if r.refcnt = 0 then closeIf fs r.f else some fs) = some fs') : Refs F fs' R := by
  split_ifs at hc with href
  · exact h.close hc
  · obtain rfl := Option.some.inj hc
    have hf : r.f = none := by
      by_contra hne
      exact href (hr hne)
    rwa [hf, refOf_none, zero_add] at h

/-- The loop of `fork` over the descriptors. -/
theorem Refs.dupFiles (h : Refs F fs R) (hd : dupFiles fs ofile = some fs') :
    Refs F fs' (total (fun i => refOf (ofile i)) + R) := by
  unfold Wmap.dupFiles at hd
  unfold total
  rw [Fin.sum_univ_def]
  generalize List.finRange 16 = slots at hd ⊢
  induction slots generalizing fs R with
  | nil =>
    obtain rfl : fs = fs' := by simpa using hd
    simpa using h
  | cons i slots ih =>
    obtain ⟨fs₁, h₁, hrest⟩ := Option.bind_eq_some_iff.mp hd
    have hdone := ih (h.dup h₁) hrest
    rwa [List.map_cons, List.sum_cons, add_assoc, add_left_comm]

/-- The loop of `exit` over the descriptors. -/
theorem Refs.closeFiles (h : Refs F fs (total (fun i => refOf (ofile i)) + R)) (hc : closeFiles fs ofile = some fs') :
    Refs F fs' R := by
  unfold Wmap.closeFiles at hc
  unfold total at h
  rw [Fin.sum_univ_def] at h
  generalize List.finRange 16 = slots at h hc
  induction slots generalizing fs R with
  | nil =>
    obtain rfl : fs = fs' := by simpa using hc
    simpa using h
  | cons i slots ih =>
    obtain ⟨fs₁, h₁, hrest⟩ := Option.bind_eq_some_iff.mp hc
    rw [List.map_cons, List.sum_cons, add_assoc] at h
    exact ih (h.close h₁) hrest

/-! ### The references of a table -/

/-- One region is replaced. -/
theorem Mmaps.files_update (h : mm'.mmaps = update mm.mmaps i r) :
    mm'.files + refOf (mm.mmaps i).f = mm.files + refOf r.f := by
  unfold Mmaps.files
  rw [h]
  exact total_update_add (fun _ r => refOf r.f) mm.mmaps i r

/-- A region that has no file yet gets one. -/
theorem Mmaps.files_add (h : mm'.mmaps = update mm.mmaps i r) (hi : (mm.mmaps i).f = none) :
    mm'.files = refOf r.f + mm.files := by
  have hup := Mmaps.files_update h
  rwa [hi, refOf_none, add_zero, add_comm] at hup

/-- The file of a region stays. -/
theorem Mmaps.files_same (h : mm'.mmaps = update mm.mmaps i r) (hr : r.f = (mm.mmaps i).f) : mm'.files = mm.files := by
  have hup := Mmaps.files_update h
  rw [hr] at hup
  exact add_right_cancel hup

theorem Mmaps.files_set (hr : r.f = (mm.mmaps i).f) : (mm.set i r).files = mm.files := Mmaps.files_same rfl hr

theorem Mmaps.files_empty (h : ∀ i, (mm.mmaps i).f = none) : mm.files = 0 :=
  total_zero fun i => by rw [h i, refOf_none]

/-- A table that gives back the references it has: its list is in order, the free slots have no file, and nobody
else counts on the file of a region. -/
structure Returns (mm : Mmaps) (l : List (Fin 16)) : Prop extends Listed mm l where
  /-- A free slot has no file. -/
  free : ∀ i ∉ l, (mm.mmaps i).f = none
  /-- A region with a file has the count 0. -/
  alone : ∀ i, (mm.mmaps i).f ≠ none → (mm.mmaps i).refcnt = 0

theorem returns_init : Returns initMmaps [] := ⟨listed_init, fun _ _ => rfl, fun _ h => absurd rfl h⟩

/-- One region of the table is replaced. -/
theorem Returns.replace {l' : List (Fin 16)} (h : Returns mm l) (hl : Listed mm' l')
    (hmm : mm'.mmaps = update mm.mmaps i r) (hr : r.f ≠ none → i ∈ l' ∧ r.refcnt = 0)
    (hfree : ∀ j ≠ i, j ∉ l' → j ∉ l) : Returns mm' l' where
  toListed := hl
  free j hj := by
    rw [hmm]
    by_cases hji : j = i
    · subst hji
      rw [update_self]
      by_contra hf
      exact hj (hr hf).1
    · rw [update_of_ne hji]
      exact h.free j (hfree j hji hj)
  alone j hj := by
    rw [hmm] at hj ⊢
    by_cases hji : j = i
    · subst hji
      rw [update_self] at hj ⊢
      exact (hr hj).2
    · rw [update_of_ne hji] at hj ⊢
      exact h.alone j hj

/-- A region is written to that stays in use. -/
theorem Returns.set (h : Returns mm l) (hi : i ∈ l) (haddr : r.addr ≠ 2 ^ 32 - 1) (hr : r.f ≠ none → r.refcnt = 0) :
    Returns (mm.set i r) l :=
  h.replace (h.toListed.set hi haddr) rfl (fun hf => ⟨hi, hr hf⟩) fun _ _ hj => hj

/-- A region comes in. -/
theorem Returns.add (h : Returns mm (l₁ ++ l₂)) (hi : i ∉ l₁ ++ l₂)
    (hlink : Linked mm'.next mm'.mmapHead (l₁ ++ i :: l₂) none) (htotal : mm'.totalMmaps = mm.totalMmaps + 1)
    (hmm : mm'.mmaps = update mm.mmaps i r) (haddr : r.addr ≠ 2 ^ 32 - 1) (hr : r.f ≠ none → r.refcnt = 0) :
    Returns mm' (l₁ ++ i :: l₂) := by
  have hl := h.toListed.add hi hlink htotal (fun j hj => by rw [hmm, update_of_ne hj]) (by rwa [hmm, update_self])
  exact h.replace hl hmm (fun hf => ⟨by simp, hr hf⟩) fun j _ hj hin => hj (mem_of_mem_append hin)

/-- A region goes out. -/
theorem Returns.unlink (h : Returns mm (l₁ ++ i :: l₂)) : Returns (unlink mm l₁.getLast? i) (l₁ ++ l₂) :=
  h.replace h.toListed.unlink (unlink_mmaps _) (fun hf => absurd rfl hf) fun j hji hj => by simpa [hji] using hj

/-- A child that goes leaves the files of its parent's regions. -/
theorem decParent_files {addr : ℕ} (h : decParent mm addr = some mm') : mm'.files = mm.files := by
  unfold decParent at h
  split at h
  · cases h
  · rw [← Option.some.inj h]
  · rw [← Option.some.inj h]
    split
    · exact Mmaps.files_set rfl
    · rfl

theorem Returns.decParent {addr : ℕ} (h : Returns mm l) (hd : decParent mm addr = some mm') : Returns mm' l := by
  obtain rfl | ⟨j, hj, -, hpos, rfl⟩ := decParent_cases h.toListed hd
  · exact h
  · refine h.set hj ((h.used j).mp hj) ?_
    intro hf
    have := h.alone j hf
    omega

end

/-! ### System calls and page faults -/

/-- An operation of a process that keeps track of its references. -/
structure Balances (k : Kernel) (p : Fin 64) (k' : Kernel) : Prop where
  /-- The other processes stay as they are. -/
  others : ∀ q ≠ p, k'.procs q = k.procs q
  /-- The process goes on. -/
  state : (k'.procs p).state = (k.procs p).state
  /-- Its table gives back what it has. -/
  table : ∃ l, Returns (k'.procs p).mm l
  /-- It has a reference more for each that was taken, and one less for each that was given back. -/
  refs : ∀ F R, Refs F k.fs ((k.procs p).files + R) → Refs F k'.fs ((k'.procs p).files + R)

section

variable {k k' : Kernel} {p : Fin 64} {ret : ℤ} {l l₁ l₂ : List (Fin 16)} {pr : Proc} {mem : Mem} {fs fs' : Fs}
  {mm mm' : Mmaps} {i : Fin 16} {length : ℤ}

theorem Balances.refl (h : Returns (k.procs p).mm l) : Balances k p k := ⟨fun _ _ => rfl, rfl, ⟨l, h⟩, fun _ _ hr => hr⟩

/-- The process keeps its descriptors. -/
theorem Balances.put (hs : pr.state = (k.procs p).state) (ho : pr.ofile = (k.procs p).ofile) (ht : Returns pr.mm l)
    (hr : ∀ F R, Refs F k.fs ((k.procs p).mm.files + R) → Refs F fs (pr.mm.files + R)) :
    Balances k p (k.put p pr mem fs) where
  others q hq := Kernel.put_procs_of_ne hq
  state := by rw [Kernel.put_procs_self, hs]
  table := ⟨l, by rwa [Kernel.put_procs_self]⟩
  refs F R h := by
    rw [Proc.files, add_assoc, add_left_comm] at h
    rw [Kernel.put_procs_self, Proc.files, ho, add_assoc, add_left_comm]
    exact hr F _ h

/-- It keeps its table too. -/
theorem Balances.same (hs : pr.state = (k.procs p).state) (ho : pr.ofile = (k.procs p).ofile)
    (hmm : pr.mm = (k.procs p).mm) (ht : Returns (k.procs p).mm l) (hf : fs.files = k.fs.files) :
    Balances k p (k.put p pr mem fs) :=
  .put hs ho (hmm ▸ ht) fun _ _ h => by
    rw [hmm]
    exact h.congr hf

/-- The search for a gap stays at the beginnings of pages. -/
theorem findStart_aligned {fuel : ℕ} {cur : Option (Fin 16)} {start a : ℕ}
    (h : findStart mm length fuel cur start = some a) (hal : start % 4096 = 0) : a % 4096 = 0 := by
  induction fuel generalizing cur start with
  | zero =>
    cases cur with
    | none => exact Option.some.inj h ▸ hal
    | some i => cases h
  | succ fuel ih =>
    cases cur with
    | none => exact Option.some.inj h ▸ hal
    | some i =>
      simp only [findStart] at h
      split at h
      · exact Option.some.inj h ▸ hal
      · apply ih h
        unfold pgroundup
        split_ifs <;> omega

/-- `wmap` for a request that is valid or has no file: nothing happens, or a region comes in. -/
theorem sysWmap_listed {addr length flags fd : BitVec 32} (ht : Listed (k.procs p).mm l)
    (hok : argfd (k.procs p) fd.toInt = none ∨
      validateInput addr.toNat length.toInt flags (argfd (k.procs p) fd.toInt) = true)
    (h : sysWmap k p addr length flags fd = some (k', ret)) :
    k' = k ∨ ∃ fs mm m a, dupIf k.fs (argfd (k.procs p) fd.toInt) = some fs ∧ a % 4096 = 0 ∧
      Places (k.procs p).mm l a length.toInt (mm, some m) ∧
      k' = k.put p { k.procs p with mm := placed mm m (newRegion (k.procs p) a length flags fd) } k.mem fs := by
  obtain ⟨fs, hdup, hplace⟩ := Option.bind_eq_some_iff.mp ((sysWmap_eq k p addr length flags fd).symm.trans h)
  have hret {k₁ : Kernel} {r : ℤ} (h₁ : sysWmap k p addr length flags fd = some (k₁, r)) : k' = k₁ :=
    congrArg Prod.fst (Option.some.inj (h.symm.trans h₁))
  cases hvalid : validateInput addr.toNat length.toInt flags (argfd (k.procs p) fd.toInt) with
  | false =>
    have hnone := hok.resolve_right (by rw [hvalid]; decide)
    refine .inl ((hret (sysWmap_invalid hdup hvalid)).trans ?_)
    rw [hnone] at hdup
    rw [dupIf_none hdup]
  | true =>
    by_cases hslots : 16 ≤ (k.procs p).mm.totalMmaps
    · exact .inl (hret (sysWmap_failed hdup hvalid (.inl hslots : _ ∨ _ = some ((k.procs p).mm, none))))
    obtain ⟨-, -, -, hfix⟩ := validateInput_iff.mp hvalid
    generalize hout : (if has flags mapFixed then fixAddrPlaceMmap (k.procs p).mm addr.toNat length.toInt
      else findAddrPlaceMmap (k.procs p).mm length.toInt) = out
    rcases out with - | ⟨mm, - | m⟩
    · -- the list cannot go round
      simp only [placeMap, hvalid, Bool.not_true, Bool.false_eq_true, if_false, hslots, hout] at hplace
      cases hplace
    · exact .inl (hret (sysWmap_failed hdup hvalid (.inr hout)))
    · right
      -- both ways come to `fix_addr_place_mmap`
      obtain ⟨a, hal, hfixed⟩ : ∃ a, a % 4096 = 0 ∧ fixAddrPlaceMmap (k.procs p).mm a length.toInt = some (mm, some m) := by
        split at hout
        · rename_i hf
          exact ⟨addr.toNat, (hfix hf).1, hout⟩
        · unfold findAddrPlaceMmap at hout
          split at hout
          · cases hout
          · rename_i start hstart
            split at hout
            · cases hout
            · exact ⟨start, findStart_aligned hstart (by decide), hout⟩
      obtain ⟨out, hout', hp⟩ := fixAddrPlaceMmap_spec ht a length.toInt
      obtain rfl : (mm, some m) = out := Option.some.inj (hfixed.symm.trans hout')
      exact ⟨fs, mm, m, a, hdup, hal, hp, hret (sysWmap_placed hdup hvalid (not_le.mp hslots) hout hp.addr_eq)⟩

/-- `wmap` takes a reference for the new region. -/
theorem Returns.wmap {addr length flags fd : BitVec 32} (h : Returns (k.procs p).mm l)
    (hok : argfd (k.procs p) fd.toInt = none ∨
      validateInput addr.toNat length.toInt flags (argfd (k.procs p) fd.toInt) = true)
    (hw : sysWmap k p addr length flags fd = some (k', ret)) : Balances k p k' := by
  obtain rfl | ⟨fs, mm, m, a, hdup, hal, hp, rfl⟩ := sysWmap_listed h.toListed hok hw
  · exact .refl h
  cases hp with
  | some l₁ l₂ hl hm hmm htotal hlink _ _ _ =>
    subst hl
    have hnew : (placed mm m (newRegion (k.procs p) a length flags fd)).mmaps =
        update (k.procs p).mm.mmaps m (newRegion (k.procs p) a length flags fd) := by
      simp [placed, Mmaps.set, hmm]
    refine .put rfl rfl (h.add hm hlink ?_ hnew ?_ fun _ => rfl) ?_
    · simp only [placed, Mmaps.set, htotal]
    · simp only [newRegion]
      omega
    · intro F R hr
      rw [Mmaps.files_add hnew (h.free m hm), add_assoc]
      exact hr.dup hdup

/-- `wunmap` gives the reference of the region back. -/
theorem Returns.wunmap {addr : BitVec 32} (h : Returns (k.procs p).mm l) (hw : sysWunmap k p addr = some (k', ret)) :
    Balances k p k' := by
  cases sysWunmap_cases h.toListed hw with
  | failed => exact .refl h
  | @removed l₁ i l₂ s fs hl _ hdrop hfs =>
    subst hl
    refine .put rfl rfl h.unlink ?_
    intro F R hr
    have hup := Mmaps.files_update (@unlink_mmaps (k.procs p).mm i l₁.getLast?)
    have hfiles : (k.procs p).mm.files = refOf ((k.procs p).mm.mmaps i).f + (Wmap.unlink (k.procs p).mm l₁.getLast? i).files := by
      rw [add_comm, hup]
      exact (add_zero _).symm
    rw [hfiles, add_assoc] at hr
    exact (hr.congr (dropPages_files hdrop)).closeRegion (h.alone i) hfs

/-- The end of `wpunmap`: a second part of the region has a reference of its own. -/
theorem Returns.shrink {pd : PageDir} {addr : ℕ} (h : Returns mm (l₁ ++ i :: l₂))
    (hstop : u32 (addr + length) % 4096 = 0) (hs : shrink mm pd fs i addr length = some (some (mm', fs'))) :
    ∃ l', Returns mm' l' ∧ ∀ F R, Refs F fs (mm.files + R) → Refs F fs' (mm'.files + R) := by
  have hi : i ∈ l₁ ++ i :: l₂ := by simp
  have hne : u32 (addr + length) ≠ 2 ^ 32 - 1 := by omega
  unfold Wmap.shrink at hs
  dsimp only at hs
  split_ifs at hs with hfront hback
  · obtain ⟨rfl, rfl⟩ := Prod.mk.inj (Option.some.inj (Option.some.inj hs))
    exact ⟨_, h.set hi hne (h.alone i), fun F R hr => by rwa [Mmaps.files_set (by rfl)]⟩
  · obtain ⟨rfl, rfl⟩ := Prod.mk.inj (Option.some.inj (Option.some.inj hs))
    exact ⟨_, h.set hi ((h.used i).mp hi) (h.alone i), fun F R hr => by rwa [Mmaps.files_set (by rfl)]⟩
  · cases hj : findUnusedMmap mm with
    | none =>
      rw [hj] at hs
      cases hs
    | some j =>
      rw [hj] at hs
      dsimp only at hs
      split at hs
      · rename_i fs₁ n₁ n₂ hdup _ _
        obtain ⟨rfl, rfl⟩ := Prod.mk.inj (Option.some.inj (Option.some.inj hs))
        have hj' := h.not_mem_of_unused hj
        obtain ⟨hin, -⟩ := List.nodup_cons.mp (List.nodup_middle.mp h.nodup)
        have hji : j ≠ i := fun hji => hj' (by simp [hji])
        -- first the region is cut, then its second part comes in behind it
        have hcut := h.set (r := { mm.mmaps i with length := i32 (addr - (mm.mmaps i).addr), nLoadedPages := n₂ }) hi
          ((h.used i).mp hi) (h.alone i)
        rw [← List.singleton_append, ← List.append_assoc] at hcut hj'
        refine ⟨_, hcut.add hj' ?_ rfl rfl hne (h.alone i), ?_⟩
        · rw [List.append_assoc, List.singleton_append]
          apply h.linked.insert (by simp [Mmaps.set]) (by simp [Mmaps.set, hji])
          intro x hx
          have hxi : x ≠ i := fun hxi => hin (hxi ▸ hx)
          have hxj : x ≠ j := fun hxj => hj' (by simpa using mem_of_mem_append (i := i) (hxj ▸ hx))
          simp [Mmaps.set, hxi, hxj]
        · intro F R hr
          rw [Mmaps.files_add rfl (hcut.free j hj'), Mmaps.files_set (by rfl), add_assoc]
          exact hr.dup hdup
      · cases hs

/-- `wpunmap` takes a reference for the second part of a region. -/
theorem Returns.wpunmap {addr length : BitVec 32} (h : Returns (k.procs p).mm l)
    (hw : sysWpunmap k p addr length = some (k', ret)) : Balances k p k' := by
  cases sysWpunmap_cases h.toListed hw with
  | failed => exact .refl h
  | @dropped l₁ i l₂ s out hl _ _ hstop _ _ hdrop hshrink =>
    subst hl
    have hi : i ∈ l₁ ++ i :: l₂ := by simp
    have hcounted := h.set (r := { (k.procs p).mm.mmaps i with
      nLoadedPages := ((k.procs p).mm.mmaps i).nLoadedPages - s.dropped }) hi ((h.used i).mp hi) (h.alone i)
    have hdropped {F : ℕ → ℕ} {R : Multiset ℕ} (hr : Refs F k.fs ((k.procs p).mm.files + R)) :
        Refs F s.fs (((k.procs p).mm.set i { (k.procs p).mm.mmaps i with
          nLoadedPages := ((k.procs p).mm.mmaps i).nLoadedPages - s.dropped }).files + R) := by
      rw [Mmaps.files_set (by rfl)]
      exact hr.congr (dropPages_files hdrop)
    rcases out with - | ⟨mm', fs'⟩
    · exact .put rfl rfl hcounted fun F R hr => hdropped hr
    · obtain ⟨l', hl', hrefs⟩ := hcounted.shrink hstop hshrink
      exact .put rfl rfl hl' fun F R hr => hrefs F R (hdropped hr)

theorem Returns.fault {addr : BitVec 32} (h : Returns (k.procs p).mm l)
    (hw : handlePageFault k p addr = some (k', ret)) : Balances k p k' := by
  cases handlePageFault_cases h.toListed hw with
  | failed => exact .refl h
  | noTable hmap => exact .same rfl rfl rfl h rfl
  | @mapped i s fs mem ok hi _ _ _ hread =>
    have hfs : fs.files = k.fs.files := by
      rcases hread with ⟨-, -, rfl, -⟩ | ⟨-, f, e, -, -, hread⟩
      · rfl
      · exact (readPage_spec hread).2.2.1
    cases ok with
    | false => exact .same rfl rfl rfl h hfs
    | true =>
      refine .put rfl rfl (h.set hi ((h.used i).mp hi) (h.alone i)) ?_
      intro F R hr
      rw [if_pos rfl, Mmaps.files_set (by rfl)]
      exact hr.congr hfs

theorem Returns.sbrk {n : BitVec 32} (h : Returns (k.procs p).mm l) (hw : sysSbrk k p n = some (k', ret)) :
    Balances k p k' := by
  obtain rfl | ⟨s, newsz, -, rfl⟩ := sysSbrk_cases hw
  · exact .refl h
  · exact .same rfl rfl rfl h rfl

theorem Returns.store {va : BitVec 32} {b : UInt8} (h : Returns (k.procs p).mm l) (hw : store k p va b = some k') :
    Balances k p k' := by
  obtain ⟨e, -, rfl⟩ := store_cases hw
  exact ⟨fun _ _ => rfl, rfl, ⟨l, h⟩, fun _ _ hr => hr⟩

/-- A descriptor comes to stand for another file, or for none. -/
theorem Balances.descriptor {j : Fin 16} {f : Option ℕ} (h : Returns (k.procs p).mm l)
    (hr : ∀ F R, Refs F k.fs (refOf ((k.procs p).ofile j) + R) → Refs F fs (refOf f + R)) :
    Balances k p (k.put p { k.procs p with ofile := update (k.procs p).ofile j f } k.mem fs) where
  others q hq := Kernel.put_procs_of_ne hq
  state := by rw [Kernel.put_procs_self]
  table := ⟨l, by rwa [Kernel.put_procs_self]⟩
  refs F R h := by
    obtain ⟨S, hS, hS'⟩ := total_split (fun i => refOf ((k.procs p).ofile i)) j
    have hnew := hS' (fun i => refOf (update (k.procs p).ofile j f i)) fun i hi => by rw [update_of_ne hi]
    rw [Proc.files, hS, add_assoc, add_assoc] at h
    rw [Kernel.put_procs_self, Proc.files, hnew, update_self, add_assoc, add_assoc]
    exact hr F _ h

theorem argfd_some {cur : Proc} {fd : ℤ} {f : ℕ} (h : argfd cur fd = some f) :
    cur.ofile (Fin.ofNat 16 fd.toNat) = some f := by
  unfold argfd at h
  split at h
  · rename_i hfd
    have heq : (⟨fd.toNat, by omega⟩ : Fin 16) = Fin.ofNat 16 fd.toNat :=
      Fin.ext (Nat.mod_eq_of_lt (by omega : fd.toNat < 16)).symm
    rwa [heq] at h
  · cases h

theorem Returns.dup {fd : BitVec 32} (h : Returns (k.procs p).mm l) (hw : sysDup k p fd = some (k', ret)) :
    Balances k p k' := by
  unfold sysDup at hw
  split at hw
  · obtain ⟨rfl, -⟩ := Prod.mk.inj (Option.some.inj hw)
    exact .refl h
  · rename_i f _
    split at hw
    · obtain ⟨rfl, -⟩ := Prod.mk.inj (Option.some.inj hw)
      exact .refl h
    · rename_i cur j hcur
      obtain ⟨fs, hdup, hk⟩ := Option.map_eq_some_iff.mp hw
      obtain ⟨rfl, -⟩ := Prod.mk.inj hk
      obtain ⟨j', hj, hpair⟩ := Option.map_eq_some_iff.mp hcur
      obtain ⟨rfl, rfl⟩ := Prod.mk.inj hpair
      have hfree : (k.procs p).ofile j' = none := by simpa using List.find?_some hj
      refine .descriptor h ?_
      intro F R hr
      rw [hfree, refOf_none, zero_add] at hr
      exact hr.dup (f := some f) hdup

theorem Returns.close {fd : BitVec 32} (h : Returns (k.procs p).mm l) (hw : sysClose k p fd = some (k', ret)) :
    Balances k p k' := by
  unfold sysClose at hw
  dsimp only at hw
  split at hw
  · obtain ⟨rfl, -⟩ := Prod.mk.inj (Option.some.inj hw)
    exact .refl h
  · rename_i f hf
    obtain ⟨fs, hclose, hk⟩ := Option.map_eq_some_iff.mp hw
    obtain ⟨rfl, -⟩ := Prod.mk.inj hk
    refine .descriptor h ?_
    intro F R hr
    rw [argfd_some hf] at hr
    rw [refOf_none, zero_add]
    exact hr.close hclose

end

/-! ### `fork` and `exit` -/

section

variable {F : ℕ → ℕ} {R : Multiset ℕ} {l : List (Fin 16)} {pm : Mmaps} {parent : PageDir} {k k' : Kernel} {p : Fin 64}

/-- `copy_maps` takes a reference for each region of the child. The child gives them all back where no shared region
has a file. -/
theorem copyMaps_returns {s s' : Copy} (hl : Listed pm l)
    (hshared : ∀ i ∈ l, has (pm.mmaps i).flags mapShared = true → (pm.mmaps i).f = none)
    (h : copyMaps pm parent 16 pm.mmapHead s = some (s', true)) (hs : Copied s []) (hmm : s.mm = initMmaps)
    (hr : Refs F s.fs R) : ∃ cl, Returns s'.mm cl ∧ Refs F s'.fs (s'.mm.files + R) := by
  rw [copyMaps_eq hl.linked hl.length_le] at h
  suffices ∃ cl, Copied s' cl ∧ Returns s'.mm cl ∧ Refs F s'.fs (s'.mm.files + R) by
    obtain ⟨cl, -, hret, hrefs⟩ := this
    exact ⟨cl, hret, hrefs⟩
  refine forEach_done (I := fun _ (t : Copy) => ∃ cl, Copied t cl ∧ Returns t.mm cl ∧ Refs F t.fs (t.mm.files + R))
    ?_ h ⟨[], hs, hmm ▸ returns_init, ?_⟩
  · rintro done i rest t t' hsplit ⟨cl, hc, hret, hrefs⟩ hb
    have hi : i ∈ l := by simp [hsplit]
    obtain ⟨c, s₁, hcl, hc', hmm', -, fs, hdup, hfs, -⟩ := copyRegion_copied hc ((hl.used i).mp hi) hb
    refine ⟨cl ++ [c], hc', hret.replace hc'.listed hmm' (fun hf => ⟨by simp, ?_⟩) ?_, ?_⟩
    · exact if_neg fun hsh => hf (hshared i hi hsh)
    · intro j hj hn
      simpa [hj] using hn
    · rw [hfs, Mmaps.files_add hmm' (hret.free c hcl), add_assoc]
      exact hrefs.dup hdup
  · rwa [hmm, Mmaps.files_empty fun _ => rfl, zero_add]

/-- The copy of a region without a file takes none, whether it fails or not. -/
theorem copyRegion_fs {r : Region} {s s' : Copy} {ok : Bool} (hf : r.f = none)
    (h : copyRegion parent r s = some (s', ok)) : s'.fs = s.fs := by
  obtain ⟨-, rfl⟩ | ⟨c, fs, -, hdup, hloop⟩ := copyRegion_cases h
  · rfl
  · rw [hf] at hdup
    obtain rfl := dupIf_none hdup
    rcases hloop with ⟨-, hloop⟩ | ⟨-, t₁, mm, hloop, -, rfl⟩
    · exact (copyPages_mm hloop).2.1
    · exact (copyPages_mm hloop).2.1

/-- Where `copy_maps` fails it has come to a region with a slot for it, and it has taken references for the regions
up to that one only. -/
theorem copyMaps_fails {s s' : Copy} (hl : Listed pm l) (hs : Copied s [])
    (h : copyMaps pm parent 16 pm.mmapHead s = some (s', false)) : ∃ before i after s₁ c, l = before ++ i :: after ∧
      forEach (fun j => copyRegion parent (pm.mmaps j)) before s = some (s₁, true) ∧
      findUnusedMmap s₁.mm = some c ∧ copyRegion parent (pm.mmaps i) s₁ = some (s', false) ∧
      ((∀ j ∈ before ++ [i], (pm.mmaps j).f = none) → s'.fs = s.fs) := by
  rw [copyMaps_eq hl.linked hl.length_le] at h
  obtain ⟨before, i, after, s₁, rfl, hbefore, hi⟩ := forEach_stops h
  have hused : ∀ j ∈ before, (pm.mmaps j).addr ≠ 2 ^ 32 - 1 := fun j hj => (hl.used j).mp (by simp [hj])
  obtain ⟨cl, hcopied, hcores⟩ := copyMaps_cores hused hbefore hs
  have hlen : cl.length = before.length := by
    simpa [cores] using congrArg List.length hcores
  have hle := hl.length_le
  rw [List.length_append, List.length_cons] at hle
  obtain ⟨c, hc⟩ := findUnusedMmap_isSome hcopied.listed (by omega : cl.length < 16)
  refine ⟨before, i, after, s₁, c, rfl, hbefore, hc, hi, ?_⟩
  intro hf
  rw [copyRegion_fs (hf i (by simp)) hi]
  refine forEach_keeps (I := fun t : Copy => t.fs = s.fs) ?_ hbefore rfl
  intro j hj t t' ok ht hb
  exact (copyRegion_fs (hf j (by simp [hj])) hb).trans ht

/-- `delete_mmaps` gives back the references of all regions. -/
theorem deleteMmaps_returns {s s' : Deletion} (h : Returns s.mm l) (hd : deleteMmaps s = some s')
    (hr : Refs F s.fs (s.mm.files + R)) : Refs F s'.fs R := by
  obtain ⟨s₁, hfor, rfl⟩ := deleteMmaps_some h.toListed hd
  -- the regions that are done are gone, the others as they were
  have hdone := forEach_done (I := fun done t =>
    (∀ j, t.mm.mmaps j = if j ∈ done then initOneMmap else s.mm.mmaps j) ∧ Refs F t.fs (t.mm.files + R))
    ?_ hfor ⟨by simp, hr⟩
  · obtain ⟨hmm, hrefs⟩ := hdone
    have hnone (i : Fin 16) : (s₁.mm.mmaps i).f = none := by
      rw [hmm i]
      split
      · rfl
      · rename_i hi
        exact h.free i hi
    rwa [Mmaps.files_empty hnone, zero_add] at hrefs
  · rintro done i rest t t' - ⟨hmm, hrefs⟩ hb
    obtain ⟨t₁, hdel, hk⟩ := Option.map_eq_some_iff.mp hb
    obtain ⟨rfl, -⟩ := Prod.mk.inj hk
    obtain ⟨d, fs, parent, hdrop, hfs, rfl, -⟩ := deleteRegion_cases hdel
    constructor
    · intro j
      by_cases hj : j = i
      · simp [hj, Mmaps.reset]
      · simp [hj, Mmaps.reset, hmm j]
    · have halone : (t.mm.mmaps i).f ≠ none → (t.mm.mmaps i).refcnt = 0 := by
        rw [hmm i]
        split
        · exact fun hf => absurd rfl hf
        · exact h.alone i
      have hup : (t.mm.reset i).files + refOf (t.mm.mmaps i).f = t.mm.files + refOf none :=
        Mmaps.files_update (r := initOneMmap) rfl
      rw [← add_zero t.mm.files, ← refOf_none, ← hup, add_comm (Mmaps.files _), add_assoc] at hrefs
      exact (hrefs.congr (dropPages_files hdrop)).closeRegion halone hfs

/-- `exit` gives back all references of the process. -/
theorem Returns.exit {s : Deletion} (h : Returns (k.procs p).mm l) (hd : deleteMmaps (deletion k p) = some s)
    (hex : Exits k p s k') (hr : Refs F k.fs ((k.procs p).files + R)) : Refs F k'.fs R := by
  rw [Proc.files, add_comm (total _), add_assoc] at hr
  exact (deleteMmaps_returns h hd hr).closeFiles hex.fs

end

end SdeSystems.Wmap
