import SdeSystems.Wmap.Exec
import SdeSystems.Wmap.ForkFails

/-!
# What `exec` frees

`exec` takes pages for the new image, and then frees the old page directory by `freevm`, with all
that is mapped below `KERNBASE` and without a look at the table of mappings. So it frees pages that
another process has exactly where one of the pages of the old page directory is one that the other
maps too: a process that has inherited a shared mapping, or whose child has, frees the shared pages
at its `exec`.
-/

namespace SdeSystems.Wmap

open Lib Function

/-! ### The new image -/

section

variable {s s' : Image} {sp sp' : Space}

/-- A call that succeeds only takes pages. -/
theorem allocuvm_free {oldsz newsz sz : ℕ} (h : allocuvm sp oldsz newsz = some (sp', sz)) (hsz : sz ≠ 0) :
    sp'.mem.free <:+ sp.mem.free := by
  unfold allocuvm at h
  split_ifs at h
  · obtain ⟨-, rfl⟩ := Prod.mk.inj (Option.some.inj h)
    exact absurd rfl hsz
  · obtain ⟨rfl, -⟩ := Prod.mk.inj (Option.some.inj h)
    exact List.suffix_refl _
  · obtain ⟨⟨sp₁, ok⟩, hloop, hk⟩ := Option.map_eq_some_iff.mp h
    obtain ⟨rfl, rfl⟩ := Prod.mk.inj hk
    cases ok with
    | false => exact absurd rfl hsz
    | true =>
      refine forEach_done (I := fun _ (t : Space) => t.mem.free <:+ sp.mem.free) ?_ (forPages_some hloop)
        (List.suffix_refl _)
      intro done a rest t t' _ ht hb
      dsimp only at hb
      split at hb
      · cases hb
      · rename_i t₁ hmap
        obtain ⟨rfl, -⟩ := Prod.mk.inj (Option.some.inj hb)
        obtain ⟨page, mem, hk, hm⟩ := mapNew_ok hmap
        exact ((kalloc_takes hk).1.trans (mappages_takes hm)).free.trans ht
      all_goals
        obtain ⟨_, -, hk⟩ := Option.map_eq_some_iff.mp hb
        cases congrArg Prod.snd hk

theorem setupkvm_free {m m' : Mem} {pd : PageDir} (h : setupkvm m = some (m', some pd)) : m'.free <:+ m.free := by
  unfold setupkvm at h
  split at h
  · cases congrArg Prod.snd (Option.some.inj h)
  · rename_i page m₁ hk
    split at h
    · cases h
    · rename_i sp hloop
      obtain ⟨rfl, -⟩ := Prod.mk.inj (Option.some.inj h)
      have htaken : m₁.free <:+ m.free := (@kalloc_takes m m₁ page (fun _ => 0) hk).1.free
      refine List.IsSuffix.trans ?_ htaken
      refine forEach_done (I := fun _ (t : Space) => t.mem.free <:+ m₁.free) ?_ hloop (List.suffix_refl _)
      intro done a rest t t' _ ht hb
      split at hb
      · cases congrArg Prod.snd (Option.some.inj hb)
      · rename_i t₁ hneed
        obtain ⟨rfl, -⟩ := Prod.mk.inj (Option.some.inj hb)
        exact (needTable_takes hneed).free.trans ht
    · obtain ⟨_, -, hk⟩ := Option.map_eq_some_iff.mp h
      cases congrArg Prod.snd hk

/-- Bytes are written to pages that are there. -/
structure Fills (sp sp' : Space) : Prop where
  /-- No page is taken or freed. -/
  free : sp'.mem.free = sp.mem.free
  /-- The page directory is the same. -/
  pgdir : sp'.pgdir = sp.pgdir

theorem Fills.refl (sp : Space) : Fills sp sp := ⟨rfl, rfl⟩

theorem Fills.trans {sp'' : Space} (h : Fills sp sp') (h' : Fills sp' sp'') : Fills sp sp'' :=
  ⟨h'.free.trans h.free, h'.pgdir.trans h.pgdir⟩

/-- The program is read into pages that are there. -/
theorem loaduvm_fills {addr offset sz : ℕ} {ok : Bool} (h : loaduvm addr offset sz s = some (s', ok)) :
    Fills s.space s'.space := by
  unfold loaduvm at h
  split at h
  · cases h
  refine forEach_keeps (I := fun t : Image => Fills s.space t.space) ?_ (forPages_some h) (Fills.refl _)
  intro i _ t t' ok ht hb
  unfold loadPage at hb
  split at hb
  · cases hb
  · dsimp only at hb
    split at hb
    · cases hb
    · obtain ⟨rfl, -⟩ := Prod.mk.inj (Option.some.inj hb)
      exact ht
    · obtain ⟨rfl, -⟩ := Prod.mk.inj (Option.some.inj hb)
      exact ⟨ht.free, ht.pgdir⟩

theorem copyout_fills {va : ℕ} {bytes : List UInt8} {ok : Bool} (h : copyout sp va bytes = some (sp', ok)) :
    Fills sp sp' := by
  unfold copyout at h
  generalize bytes.length = fuel at h
  induction fuel generalizing va bytes sp with
  | zero =>
    cases bytes with
    | nil =>
      rw [← (Prod.mk.inj (Option.some.inj h)).1]
      exact Fills.refl _
    | cons b bs => cases h
  | succ fuel ih =>
    cases bytes with
    | nil =>
      rw [← (Prod.mk.inj (Option.some.inj h)).1]
      exact Fills.refl _
    | cons b bs =>
      simp only [copyoutLoop] at h
      split at h
      · cases h
      · rw [← (Prod.mk.inj (Option.some.inj h)).1]
        exact Fills.refl _
      · have hrest := ih h
        exact ⟨hrest.free, hrest.pgdir⟩

theorem pushArgs_fills {argv : List (List UInt8)} {sz : ℕ} {args : List ℕ} {out : Option (ℕ × List ℕ)}
    (h : pushArgs argv sz args sp = some (sp', out)) : Fills sp sp' := by
  induction argv generalizing sz args sp with
  | nil =>
    rw [← (Prod.mk.inj (Option.some.inj h)).1]
    exact Fills.refl _
  | cons arg argv ih =>
    simp only [pushArgs] at h
    split_ifs at h
    · rw [← (Prod.mk.inj (Option.some.inj h)).1]
      exact Fills.refl _
    · split at h
      · cases h
      · rename_i hcopy
        rw [← (Prod.mk.inj (Option.some.inj h)).1]
        exact copyout_fills hcopy
      · rename_i hcopy
        exact (copyout_fills hcopy).trans (ih h)

theorem pushStack_fills {argv : List (List UInt8)} {sz : ℕ} {ok : Bool} (h : pushStack argv sz sp = some (sp', ok)) :
    Fills sp sp' := by
  unfold pushStack at h
  split at h
  · cases h
  · rename_i hargs
    rw [← (Prod.mk.inj (Option.some.inj h)).1]
    exact pushArgs_fills hargs
  · rename_i hargs
    exact (pushArgs_fills hargs).trans (copyout_fills h)

/-- A segment is loaded: memory grows by a call of `allocuvm` that succeeds, if at all. -/
theorem loadSegment_cases {off : ℕ} (h : loadSegment off s = some (s', true)) : s'.space = s.space ∨
    ∃ sp newsz sz, allocuvm s.space s.sz newsz = some (sp, sz) ∧ sz ≠ 0 ∧ Fills sp s'.space := by
  unfold loadSegment at h
  split at h
  · cases h
  · cases congrArg Prod.snd (Option.some.inj h)
  · dsimp only at h
    split at h
    · cases congrArg Prod.snd (Option.some.inj h)
    split at h
    · obtain ⟨rfl, -⟩ := Prod.mk.inj (Option.some.inj h)
      exact .inl rfl
    split at h
    · cases congrArg Prod.snd (Option.some.inj h)
    split at h
    · cases congrArg Prod.snd (Option.some.inj h)
    split at h
    · cases h
    · rename_i sp sz halloc
      split_ifs at h with hsz
      · cases congrArg Prod.snd (Option.some.inj h)
      · cases congrArg Prod.snd (Option.some.inj h)
      · exact .inr ⟨sp, _, sz, halloc, hsz, loaduvm_fills h⟩

/-- The new image is made by calls of `allocuvm` that succeed, by writes to its pages, and by `clearpteu`. -/
theorem buildImage_keeps {I : Space → Prop} {elf : List UInt8} {argv : List (List UInt8)}
    (halloc : ∀ {t t' : Space} {oldsz newsz sz : ℕ}, I t → allocuvm t oldsz newsz = some (t', sz) → sz ≠ 0 → I t')
    (hfill : ∀ {t t' : Space}, I t → Fills t t' → I t')
    (hclear : ∀ {t : Space} {uva : ℕ} {pgdir : PageDir}, I t → clearpteu t.pgdir uva = some pgdir →
      I { t with pgdir := pgdir })
    (h : buildImage elf argv s = some (s', true)) (hs : I s.space) : I s'.space := by
  unfold buildImage at h
  split at h
  · cases h
  · cases congrArg Prod.snd (Option.some.inj h)
  · rename_i s₁ hloop
    have hloaded : I s₁.space := by
      refine forEach_done (I := fun _ (t : Image) => I t.space) ?_ hloop hs
      intro done off rest t t' _ ht hb
      rcases loadSegment_cases hb with hspace | ⟨sp, newsz, sz, hgrow, hsz, hfills⟩
      · rwa [hspace]
      · exact hfill (halloc ht hgrow hsz) hfills
    dsimp only at h
    split at h
    · cases h
    · rename_i sp sz hgrow
      split_ifs at h with hsz
      · cases congrArg Prod.snd (Option.some.inj h)
      · split at h
        · cases h
        · rename_i pgdir hpte
          obtain ⟨⟨sp', ok⟩, hstack, hk⟩ := Option.map_eq_some_iff.mp h
          obtain ⟨rfl, -⟩ := Prod.mk.inj hk
          have hcleared : I { sp with pgdir := pgdir } := hclear (halloc hloaded hgrow hsz) hpte
          exact hfill hcleared (pushStack_fills hstack)

/-- The new image is made of pages that were free. -/
theorem buildImage_free {elf : List UInt8} {argv : List (List UInt8)} (h : buildImage elf argv s = some (s', true)) :
    s'.space.mem.free <:+ s.space.mem.free := by
  refine buildImage_keeps (I := fun t => t.mem.free <:+ s.space.mem.free) ?_ ?_ ?_ h (List.suffix_refl _)
  · intro t t' oldsz newsz sz ht hgrow hsz
    exact (allocuvm_free hgrow hsz).trans ht
  · intro t t' ht hfills
    rwa [hfills.free]
  · intro t uva pgdir ht _
    exact ht

end

/-! ### The old page directory -/

/-- The new image, up to the commit. -/
def imageOf (k : Kernel) (ip : ℕ) (argv : List (List UInt8)) : Option (Image × Bool) :=
  (readi (k.fs.inodes ip) 0 52).bind fun (inode, elf) => elf.bind fun elf =>
    if elf.length ≠ 52 ∨ leBytes elf 0 4 ≠ 0x464C457F then none
    else (setupkvm k.mem).bind fun (mem, pgdir) => pgdir.bind fun pgdir => buildImage elf argv ⟨⟨mem, pgdir⟩, inode, 0⟩

/-- No page that `q` maps is put on the free list by the `exec` that leaves the kernel `k'`. Until the image is made
pages are only taken, and after that none is, so a page that is put on the list stands there more often than it did
when the image was made. -/
def Leaves (k : Kernel) (ip : Option ℕ) (argv : List (List UInt8)) (k' : Kernel) (q : Fin 64) : Prop :=
  ∀ i s, ip = some i → imageOf k i argv = some (s, true) →
    ∀ page, Maps k' q page → ¬ s.space.mem.free.count page < k'.mem.free.count page

section

variable {k k₁ k' : Kernel} {p q c : Fin 64} {i : ℕ} {ip : Option ℕ} {argv : List (List UInt8)} {s : Image}

/-- The image is built in a new page directory. -/
theorem imageOf_some (h : imageOf k i argv = some (s, true)) : ∃ mem pgdir elf inode,
    setupkvm k.mem = some (mem, some pgdir) ∧ buildImage elf argv ⟨⟨mem, pgdir⟩, inode, 0⟩ = some (s, true) := by
  obtain ⟨⟨inode, elf'⟩, -, h₁⟩ := Option.bind_eq_some_iff.mp h
  obtain ⟨elf, rfl, h₂⟩ := Option.bind_eq_some_iff.mp h₁
  split_ifs at h₂
  obtain ⟨⟨mem, pgdir'⟩, hsetup, h₃⟩ := Option.bind_eq_some_iff.mp h₂
  obtain ⟨pgdir, rfl, hbuild⟩ := Option.bind_eq_some_iff.mp h₃
  exact ⟨mem, pgdir, elf, inode, hsetup, hbuild⟩

/-- A successful `exec`: the image is made, the old page directory is freed, and the process has the new one. -/
theorem exec_some (h : exec k p ip argv = some (k', 0)) :
    ∃ i s, ip = some i ∧ imageOf k i argv = some (s, true) ∧
      freevm ⟨s.space.mem, (k.procs p).pgdir⟩ = some k'.mem ∧
      k'.procs = update k.procs p { k.procs p with pgdir := s.space.pgdir, sz := s.sz } := by
  unfold exec at h
  cases ip with
  | none => cases congrArg Prod.snd (Option.some.inj h)
  | some i =>
    dsimp only at h
    split at h
    · cases h
    · cases congrArg Prod.snd (Option.some.inj h)
    rename_i hread
    split at h
    · cases congrArg Prod.snd (Option.some.inj h)
    rename_i hlen
    split at h
    · cases congrArg Prod.snd (Option.some.inj h)
    rename_i hmagic
    split at h
    · cases h
    · cases congrArg Prod.snd (Option.some.inj h)
    · rename_i hsetup
      split at h
      · cases h
      · obtain ⟨_, -, hk⟩ := Option.map_eq_some_iff.mp h
        cases congrArg Prod.snd hk
      · rename_i s hbuild
        obtain ⟨m, hfree, hk⟩ := Option.map_eq_some_iff.mp h
        obtain ⟨rfl, -⟩ := Prod.mk.inj hk
        refine ⟨i, s, rfl, ?_, hfree, rfl⟩
        unfold imageOf
        rw [hread, Option.bind_some]
        dsimp only
        rw [Option.bind_some, if_neg (not_or.mpr ⟨hlen, hmagic⟩), hsetup]
        exact hbuild

theorem exec_procs_of_ne (h : exec k p ip argv = some (k', 0)) (hq : q ≠ p) : k'.procs q = k.procs q := by
  obtain ⟨i, s, -, -, -, hprocs⟩ := exec_some h
  rw [hprocs]
  exact update_of_ne hq _ _

/-- After the image is made, the pages of the old page directory are put on the free list, and no others. -/
theorem exec_puts (h : exec k p ip argv = some (k', 0)) : ∃ i s freed, ip = some i ∧
    imageOf k i argv = some (s, true) ∧ k'.mem.free = freed ++ s.space.mem.free ∧
    ∀ page, page ∈ freed ↔ (k.procs p).pgdir.Holds page := by
  obtain ⟨i, s, hip, himage, hfree, -⟩ := exec_some h
  obtain ⟨m, freed, hm, hputs, hmem⟩ := freevm_puts ⟨s.space.mem, (k.procs p).pgdir⟩
  obtain rfl : m = k'.mem := Option.some.inj (hm.symm.trans hfree)
  exact ⟨i, s, freed, hip, himage, hputs, hmem⟩

/-- The page is put on the list where the old page directory holds it. -/
theorem exec_holds_iff (h : exec k p ip argv = some (k', 0)) (page : ℕ) : (k.procs p).pgdir.Holds page ↔
    ∃ i s, ip = some i ∧ imageOf k i argv = some (s, true) ∧ s.space.mem.free.count page < k'.mem.free.count page := by
  obtain ⟨i, s, freed, rfl, himage, hputs, hmem⟩ := exec_puts h
  have hcount : s.space.mem.free.count page < k'.mem.free.count page ↔ page ∈ freed := by
    rw [hputs, List.count_append, ← List.count_pos_iff]
    omega
  rw [← hmem, ← hcount]
  constructor
  · exact fun hlt => ⟨i, s, rfl, himage, hlt⟩
  · rintro ⟨i', s', hi, himage', hlt⟩
    obtain rfl := Option.some.inj hi
    obtain ⟨rfl, -⟩ := Prod.mk.inj (Option.some.inj (himage.symm.trans himage'))
    exact hlt

/-- The process `q` is left its pages where the old page directory holds none of them. -/
theorem leaves_iff (hq : q ≠ p) (h : exec k p ip argv = some (k', 0)) :
    Leaves k ip argv k' q ↔ ∀ page, Maps k q page → ¬ (k.procs p).pgdir.Holds page := by
  have hmaps (page : ℕ) : Maps k' q page ↔ Maps k q page := by
    unfold Maps
    rw [exec_procs_of_ne h hq]
  constructor
  · intro hleaves page hm hh
    obtain ⟨i, s, hip, himage, hlt⟩ := (exec_holds_iff h page).mp hh
    exact hleaves i s hip himage page ((hmaps page).mpr hm) hlt
  · intro hall i s hip himage page hm hlt
    exact hall page ((hmaps page).mp hm) ((exec_holds_iff h page).mpr ⟨i, s, hip, himage, hlt⟩)

/-- After a fork the pages of a shared mapping are held by the parent and by the child. -/
theorem fork_holds_shared {pid : ℕ} {l : List (Fin 16)} {i : Fin 16} {va : ℕ} {e : Pte} (ht : Table (k.procs p).mm l)
    (hp : (k.procs p).state ≠ .unused) (hc : unusedProc k = some c) (h : fork k p = some (k₁, (pid : ℤ))) (hi : i ∈ l)
    (hsh : has ((k.procs p).mm.mmaps i).flags mapShared = true)
    (hva : va ∈ pageRange ((k.procs p).mm.mmaps i).addr ((k.procs p).mm.mmaps i).stop)
    (he : (k.procs p).pgdir.pte va = some e) : ∀ q, q = p ∨ q = c → (k₁.procs q).pgdir.Holds e.page ∧ Maps k₁ q e.page := by
  have hlt : va < 0x80000000 := by
    have hr := ht.region i hi
    have hend := hr.stop_eq
    have hhi := hr.hi
    obtain ⟨-, hlt, -⟩ := (mem_pageRange_of_aligned hr.aligned).mp hva
    omega
  have hboth {q : Fin 64} {e' : Pte} (he' : (k₁.procs q).pgdir.pte va = some e') (hpage : e'.page = e.page) :
      (k₁.procs q).pgdir.Holds e.page ∧ Maps k₁ q e.page := ⟨.inl ⟨va, hlt, e', he', hpage⟩, va, e', he', hpage⟩
  generalize hret : (pid : ℤ) = ret at h
  cases fork_cases h with
  | noSlot | noStack | noCopy | noMaps => omega
  | @forked q' kstack m m₁ d fs s hq' hstack hcopy hdup hmaps =>
    obtain rfl : c = q' := Option.some.inj (hc.symm.trans hq')
    have hpc : p ≠ c := fun hpc => hp (hpc ▸ unusedProc_some hc)
    rw [copyMaps_eq ht.linked ht.length_le] at hmaps
    have hpte := copyMaps_shared hmaps hi hsh hva he
    rintro q (rfl | rfl)
    · refine hboth (show _ = some e from ?_) rfl
      dsimp only
      rw [Kernel.put_procs_of_ne hpc]
      exact he
    · refine hboth (show _ = some (⟨e.page, true, true⟩ : Pte) from ?_) rfl
      dsimp only
      rw [Kernel.put_procs_self]
      exact hpte

/-- So an `exec` of either after the fork frees pages that the other maps. -/
theorem exec_frees_shared {pid : ℕ} {l : List (Fin 16)} {i : Fin 16} {va : ℕ} {e : Pte} (ht : Table (k.procs p).mm l)
    (hp : (k.procs p).state ≠ .unused) (hc : unusedProc k = some c) (h : fork k p = some (k₁, (pid : ℤ))) (hi : i ∈ l)
    (hsh : has ((k.procs p).mm.mmaps i).flags mapShared = true)
    (hva : va ∈ pageRange ((k.procs p).mm.mmaps i).addr ((k.procs p).mm.mmaps i).stop)
    (he : (k.procs p).pgdir.pte va = some e) {q q' : Fin 64} (hq : q = p ∧ q' = c ∨ q = c ∧ q' = p)
    (hexec : exec k₁ q ip argv = some (k', 0)) : ¬ Leaves k₁ ip argv k' q' := by
  have hholds := fork_holds_shared ht hp hc h hi hsh hva he
  have hpc : p ≠ c := fun hpc => hp (hpc ▸ unusedProc_some hc)
  have hne : q' ≠ q := by
    rcases hq with ⟨rfl, rfl⟩ | ⟨rfl, rfl⟩
    · exact hpc.symm
    · exact hpc
  rw [leaves_iff hne hexec]
  exact fun hall => hall e.page (hholds q' (by tauto)).2 (hholds q (by tauto)).1

/-- The pages that a page directory holds are its own if all that it maps are. -/
theorem PageDir.Holds.mem_own {pd : PageDir} {page : ℕ} (h : pd.Holds page) : page ∈ pd.own allMine := by
  obtain ⟨va, -, e, he, rfl⟩ | ⟨i, t, ht, rfl⟩ | rfl := h
  · exact Wmap.mem_own he rfl
  · unfold PageDir.own
    refine Multiset.mem_cons_of_mem (mem_total.mpr ⟨i, ?_⟩)
    rw [ht, Option.elim_some]
    unfold PageTable.own
    exact Multiset.mem_cons_self ..
  · unfold PageDir.own
    exact Multiset.mem_cons_self ..

/-- Where all mappings are private, what a process holds is not mapped by another. -/
theorem Separate.holds_apart {page : ℕ} (h : Separate k) (hp : (k.procs p).state ≠ .unused)
    (hq : (k.procs q).state ≠ .unused) (hm : Maps k q page) (hh : (k.procs p).pgdir.Holds page) : q = p := by
  obtain ⟨va, e, he, rfl⟩ := hm
  apply Accounted.same_proc h (Proc.mem_own hq he rfl)
  rw [Proc.own_of_live hp]
  exact Multiset.mem_add.mpr (.inl hh.mem_own)

/-- **`exec` frees only its own pages** exactly where no page of the old page directory, be it mapped below
`KERNBASE` or a page table, is one that the other process maps. -/
theorem exec_leaves_iff (hq : q ≠ p) (h : exec k p ip argv = some (k', 0)) :
    Leaves k ip argv k' q ↔ ∀ page, Maps k q page → ¬ (k.procs p).pgdir.Holds page :=
  leaves_iff hq h

end

/-! ### A program -/

/-- An `exec` that comes to the commit succeeds. -/
theorem exec_of_image {k : Kernel} {p : Fin 64} {ip : ℕ} {argv : List (List UInt8)} {s : Image}
    (h : imageOf k ip argv = some (s, true)) : ∃ k', exec k p (some ip) argv = some (k', 0) := by
  obtain ⟨⟨inode, elf'⟩, hread, h₁⟩ := Option.bind_eq_some_iff.mp h
  obtain ⟨elf, rfl, h₂⟩ := Option.bind_eq_some_iff.mp h₁
  split_ifs at h₂ with hheader
  obtain ⟨⟨mem, pgdir'⟩, hsetup, h₃⟩ := Option.bind_eq_some_iff.mp h₂
  obtain ⟨pgdir, rfl, hbuild⟩ := Option.bind_eq_some_iff.mp h₃
  obtain ⟨hlen, hmagic⟩ := not_or.mp hheader
  obtain ⟨m, hm, -⟩ := freevm_frees ⟨s.space.mem, (k.procs p).pgdir⟩
  unfold exec
  simp only [hread, if_neg hlen, if_neg hmagic, hsetup, hbuild, hm]
  exact ⟨_, rfl⟩

/-- An ELF file with one segment of a page, which is the file. -/
def program : List UInt8 :=
  [0x7F, 0x45, 0x4C, 0x46, 1, 1, 1, 0, 0, 0, 0, 0, 0, 0, 0, 0, 2, 0, 3, 0, 1, 0, 0, 0, 0, 0, 0, 0, 52, 0, 0, 0,
    0, 0, 0, 0, 0, 0, 0, 0, 52, 0, 32, 0, 1, 0, 0, 0, 0, 0, 0, 0,
    1, 0, 0, 0, 0, 0, 0, 0, 0, 0, 0, 0, 0, 0, 0, 0, 84, 0, 0, 0, 0, 16, 0, 0, 7, 0, 0, 0, 0, 16, 0, 0]

/-- `boot n` with the program as its files. -/
def bootProgram (n : ℕ) : Kernel :=
  { boot n with fs := { (boot n).fs with inodes := fun _ => .regular program.length fun i => program.getD i 0 } }

theorem bootProgram_fresh (n : ℕ) : Fresh (bootProgram n) := ⟨fun _ _ => rfl, boot_separate n⟩

/-- A child whose mappings are private executes the program. -/
theorem exec_leaves_private : ∃ k k', runAll (bootProgram 300) privateFork = some k ∧
    exec k 1 (some 0) [] = some (k', 0) ∧ Leaves k (some 0) [] k' 0 := by
  have hrun : ((runAll (bootProgram 300) privateFork).bind fun k => (imageOf k 0 []).map fun out =>
      decide (out.2 = true ∧ (k.procs 0).state = .runnable ∧ (k.procs 1).state = .runnable)) = some true := by
    decide +kernel
  obtain ⟨k, hk, hrun⟩ := Option.bind_eq_some_iff.mp hrun
  obtain ⟨⟨s, ok⟩, himage, hout⟩ := Option.map_eq_some_iff.mp hrun
  obtain ⟨rfl, hstate₀, hstate₁⟩ := of_decide_eq_true hout
  obtain ⟨k', hexec⟩ := exec_of_image (p := 1) himage
  have hreach : Reachable privateOnly (bootProgram 300) k := by
    apply reachable_of_runAll hk
    intro op hop k
    simp only [privateFork, List.mem_cons, List.not_mem_nil, or_false] at hop
    rcases hop with rfl | rfl | rfl | rfl
    · exact (by decide : has 0xD mapShared = false)
    · trivial
    · trivial
    · trivial
  obtain ⟨-, -, hseparate⟩ := private_invariant (bootProgram_fresh 300) hreach
  refine ⟨k, k', hk, hexec, (exec_leaves_iff (by decide) hexec).mpr ?_⟩
  intro page hm hh
  exact absurd (hseparate.holds_apart (by simp [hstate₁]) (by simp [hstate₀]) hm hh) (by decide)

/-- The child of a process with a shared mapping executes the program, and the page that the parent maps is on the
free list. -/
theorem exec_frees_page_of_parent : ∃ k k', runAll (bootProgram 300) sharedFork = some k ∧
    exec k 1 (some 0) [] = some (k', 0) ∧ (k.procs 0).state = .runnable ∧ ¬ Leaves k (some 0) [] k' 0 := by
  have hrun : ((runAll (bootProgram 300) sharedFork).bind fun k => (imageOf k 0 []).map fun out =>
      decide (out.2 = true ∧ (k.procs 0).state = .runnable ∧
        (k.procs 0).pgdir.pte 0x60000000 = some ⟨3000, true, true⟩ ∧
        (k.procs 1).pgdir.pte 0x60000000 = some ⟨3000, true, true⟩)) = some true := by
    decide +kernel
  obtain ⟨k, hk, hrun⟩ := Option.bind_eq_some_iff.mp hrun
  obtain ⟨⟨s, ok⟩, himage, hout⟩ := Option.map_eq_some_iff.mp hrun
  obtain ⟨rfl, hstate, hpte₀, hpte₁⟩ := of_decide_eq_true hout
  obtain ⟨k', hexec⟩ := exec_of_image (p := 1) himage
  refine ⟨k, k', hk, hexec, hstate, ?_⟩
  rw [leaves_iff (by decide) hexec]
  exact fun hall => hall 3000 ⟨0x60000000, _, hpte₀, rfl⟩ (.inl ⟨0x60000000, by decide, _, hpte₁, rfl⟩)

end SdeSystems.Wmap
