import SdeSystems.Wmap.Reject

/-!
# A `wpunmap` that fails late

`wpunmap` looks for a slot for the second part of a region only after it has unmapped the pages of
the range. Where there is no slot it fails with the pages gone. This is the only way in which a call
that fails changes anything.
-/

namespace SdeSystems.Wmap

open Lib Function

/-! ### Write-backs return -/

section

variable {src : ℕ → UInt8} {f off n i fuel : ℕ} {ip : Inode} {fs fs' : Fs} {r : Region} {va page : ℕ} {s s' : Drop}

/-- `writei` writes all of the bytes or none. -/
theorem writei_ret : (writei ip src off n).2 = -1 ∨ (writei ip src off n).2 = n := by
  unfold writei
  split
  · exact .inr rfl
  · exact .inl rfl
  · split
    · exact .inl rfl
    · split
      · exact .inl rfl
      · exact .inr rfl

theorem writeLoop_isSome : (writeLoop src n fuel i off ip).isSome := by
  induction fuel generalizing i off ip with
  | zero => rfl
  | succ fuel ih =>
    unfold writeLoop
    dsimp only
    split
    · have hret : (writei ip (fun x => src (i + x)) off (min (n - i) 1536)).2 = -1 ∨ _ := writei_ret
      rcases hret with hr | hr
      · rw [hr]
        rfl
      · rw [hr, if_neg (by omega), if_neg (by omega)]
        exact ih
    · rfl

theorem writeToFile_isSome (h : (fs.files f).ip ≠ none) : (writeToFile fs f src off n).isSome := by
  unfold writeToFile
  split
  · contradiction
  · simpa using writeLoop_isSome

/-- The open files are not changed by a write to one of them. -/
theorem writeToFile_files {ret : ℤ} (h : writeToFile fs f src off n = some (fs', ret)) : fs'.files = fs.files := by
  unfold writeToFile at h
  split at h
  · cases h
  · obtain ⟨⟨inode, r⟩, -, hk⟩ := Option.map_eq_some_iff.mp h
    obtain ⟨rfl, -⟩ := Prod.mk.inj hk
    rfl

theorem writeBack_files (h : writeBack r va page s = some fs) : fs.files = s.fs.files := by
  unfold writeBack at h
  split at h
  · rw [← Option.some.inj h]
  · obtain ⟨⟨fs', ret⟩, hw, rfl⟩ := Option.map_eq_some_iff.mp h
    exact writeToFile_files hw

/-- A write-back returns unless the file has no inode. -/
theorem writeBack_isSome (h : ∀ f, r.f = some f → (s.fs.files f).ip ≠ none) : (writeBack r va page s).isSome := by
  unfold writeBack
  split
  · rfl
  · rename_i f hf
    simpa using writeToFile_isSome (h f hf)

end

/-! ### The unmapping loop returns -/

section

variable {back free : Bool} {r : Region} {start stop : ℕ} {s s' : Drop}

/-- The pages of the region can be written back: where they are, its file has an inode. -/
def Region.Writable (r : Region) (fs : Fs) : Prop := r.backs = true → ∀ f, r.f = some f → (fs.files f).ip ≠ none

theorem dropPage_files {va : ℕ} {ok : Bool} (h : dropPage back free r va s = some (s', ok)) :
    s'.fs.files = s.fs.files := by
  unfold dropPage at h
  split at h
  · rw [← (Prod.mk.inj (Option.some.inj h)).1]
  · split at h
    · cases h
    · rename_i fs hfs
      rw [← (Prod.mk.inj (Option.some.inj h)).1]
      split at hfs
      · exact writeBack_files hfs
      · rw [← Option.some.inj hfs]

theorem dropPages_files (h : dropPages back free r start stop s = some s') : s'.fs.files = s.fs.files :=
  forEach_keeps (I := fun t => t.fs.files = s.fs.files) (fun _ _ _ _ _ ht hb => (dropPage_files hb).trans ht)
    (dropPages_some h) rfl

/-- A loop that writes nothing back leaves the files. -/
theorem dropPages_fs {free : Bool} {r : Region} {start stop : ℕ} {s s' : Drop}
    (h : dropPages false free r start stop s = some s') : s'.fs = s.fs := by
  refine forEach_keeps (I := fun t => t.fs = s.fs) ?_ (dropPages_some h) rfl
  intro va _ t t' ok ht hb
  unfold dropPage at hb
  split at hb
  · rw [← (Prod.mk.inj (Option.some.inj hb)).1, ht]
  · simp only [Bool.false_eq_true, if_false] at hb
    rw [← (Prod.mk.inj (Option.some.inj hb)).1, ht]

/-- The loop returns where its pages, if there are any, can be written back. -/
theorem dropPages_isSome (hw : (∃ va ∈ pageRange start stop, s.space.pgdir.pte va ≠ none) → r.Writable s.fs)
    (hno : stop ≤ 2 ^ 32 - 4096 + start % 4096) : ∃ s', dropPages r.backs free r start stop s = some s' := by
  have hturn (va : ℕ) (t : Drop) (hwt : t.space.pgdir.pte va ≠ none → r.Writable s.fs) (ht : t.fs.files = s.fs.files) :
      ∃ t', dropPage r.backs free r va t = some (t', true) ∧ t'.fs.files = s.fs.files := by
    cases hb : dropPage r.backs free r va t with
    | some out =>
      obtain ⟨t', ok⟩ := out
      obtain rfl := (dropPage_cases hb).1
      exact ⟨t', rfl, (dropPage_files hb).trans ht⟩
    | none =>
      -- the only turn without a result is a write-back to no inode
      exfalso
      unfold dropPage at hb
      split at hb
      · cases hb
      · rename_i e he
        split at hb
        · rename_i hnone
          split at hnone
          · rename_i hback
            have hsome : (writeBack r va e.page t).isSome := writeBack_isSome fun f hf => by
              rw [ht]
              exact hwt (by simp [he]) hback f hf
            simp [hnone] at hsome
          · cases hnone
        · cases hb
  have hloop : ∃ s', forEach (dropPage r.backs free r) (pageRange start stop) s = some (s', true) := by
    by_cases hsome : ∃ va ∈ pageRange start stop, s.space.pgdir.pte va ≠ none
    · obtain ⟨s', hs', -⟩ := forEach_isSome (I := fun t : Drop => t.fs.files = s.fs.files) (l := pageRange start stop)
        (fun va _ t => hturn va t fun _ => hw hsome) rfl
      exact ⟨s', hs'⟩
    · -- nothing is there, so nothing happens
      have hidle : ∃ s', forEach (dropPage r.backs free r) (pageRange start stop) s = some (s', true) ∧ s' = s := by
        refine forEach_isSome ?_ rfl
        intro va hva t ht
        subst ht
        have hnone : t.space.pgdir.pte va = none := by
          by_contra hne
          exact hsome ⟨va, hva, hne⟩
        exact ⟨t, by simp only [dropPage, hnone], rfl⟩
      obtain ⟨s', hs', -⟩ := hidle
      exact ⟨s', hs'⟩
  obtain ⟨s', hs'⟩ := hloop
  refine ⟨s', ?_⟩
  rw [dropPages, forPages, if_neg (by omega), hs']
  rfl

/-- A loop that finds no page changes nothing. -/
theorem dropPages_of_none (h : dropPages back free r start stop s = some s')
    (hnone : ∀ va ∈ pageRange start stop, s.space.pgdir.pte va = none) : s' = s := by
  refine forEach_keeps (I := fun t => t = s) ?_ (dropPages_some h) rfl
  intro va hva t t' ok ht hb
  subst ht
  obtain ⟨-, ⟨-, rfl⟩ | ⟨e, fs, he, -⟩⟩ := dropPage_cases hb
  · rfl
  · rw [hnone va hva] at he
    cases he

/-- A page that cannot be written back is not there: the loop would not have returned. -/
theorem dropPages_not_writable (h : dropPages r.backs free r start stop s = some s') (hw : ¬ r.Writable s.fs) :
    ∀ va ∈ pageRange start stop, s.space.pgdir.pte va = none := by
  simp only [Region.Writable, not_forall, ne_eq, Decidable.not_not] at hw
  obtain ⟨hback, f, hf, hip⟩ := hw
  refine (forEach_done (I := fun done t => t = s ∧ ∀ va ∈ done, s.space.pgdir.pte va = none)
    ?_ (dropPages_some h) ⟨rfl, by simp⟩).2
  intro done va rest t t' _ ht hb
  obtain ⟨rfl, hdone⟩ := ht
  unfold dropPage at hb
  split at hb
  · rename_i hn
    refine ⟨((Prod.mk.inj (Option.some.inj hb)).1).symm, ?_⟩
    intro d hd
    rcases List.mem_append.mp hd with hd | hd
    · exact hdone d hd
    · rw [List.mem_singleton.mp hd, hn]
  · simp [hback, writeBack, hf, writeToFile, hip] at hb

end

/-! ### Late failure -/

variable {k : Kernel} {p : Fin 64} {addr length : BitVec 32}

/-- `wpunmap` fails late with pages gone: the range passes the checks, the first region that is found
goes on at both ends of it, there is no slot, and a page of the range is present (and can be written
back, where that is needed). -/
structure FailsLate (k : Kernel) (p : Fin 64) (addr length : BitVec 32) : Prop where
  /-- The range begins at a page. -/
  aligned : addr.toNat % 4096 = 0
  /-- It ends at one. -/
  stop : u32 (addr.toNat + length.toInt) % 4096 = 0
  /-- Its length is positive. -/
  pos : 0 < length.toInt
  /-- There is no slot. -/
  full : findUnusedMmap (k.procs p).mm = none
  /-- The region that is found, and a page of the range. -/
  inside : ∃ prev i, (k.procs p).mm.find (fun r => decide (r.addr ≤ addr.toNat ∧
      u32 (addr.toNat + length.toInt) ≤ r.stop)) = some (prev, some i) ∧
    addr.toNat ≠ ((k.procs p).mm.mmaps i).addr ∧
    u32 (addr.toNat + length.toInt) ≠ ((k.procs p).mm.mmaps i).stop ∧
    ((k.procs p).mm.mmaps i).Writable k.fs ∧
    ∃ va ∈ pageRange addr.toNat (u32 (addr.toNat + length.toInt)), (k.procs p).pgdir.pte va ≠ none

/-- A write to a region's count leaves the same slots unused. -/
theorem findUnusedMmap_set {mm : Mmaps} {i : Fin 16} {n : ℤ} :
    findUnusedMmap (mm.set i { mm.mmaps i with nLoadedPages := n }) = findUnusedMmap mm := by
  unfold findUnusedMmap
  congr 1
  funext j
  by_cases hj : j = i
  · subst hj
    simp [Mmaps.set]
  · simp [Mmaps.set, hj]

/-- The end of `wpunmap` fails exactly where the region goes on at both ends and there is no slot. -/
theorem shrink_eq_none_iff {mm : Mmaps} {pd : PageDir} {fs : Fs} {i : Fin 16} {addr : ℕ} {length : ℤ} :
    shrink mm pd fs i addr length = some none ↔
      addr ≠ (mm.mmaps i).addr ∧ u32 (addr + length) ≠ (mm.mmaps i).stop ∧ findUnusedMmap mm = none := by
  unfold shrink
  dsimp only
  split_ifs with ha hb
  · simp [ha]
  · simp [hb]
  · cases findUnusedMmap mm with
    | none => simp [ha, hb]
    | some j =>
      simp only [reduceCtorEq, and_false, iff_false]
      split <;> simp

/-- **`wpunmap` is all or nothing** exactly where it does not fail late: if it returns -1, the whole
kernel is as before. -/
theorem wpunmap_all_or_nothing_iff :
    (∀ k', sysWpunmap k p addr length = some (k', -1) → k' = k) ↔ ¬ FailsLate k p addr length := by
  constructor
  · rintro hall ⟨hal, hstop, hpos, hfull, prev, i, hfind, ha, hb, hw, va, hva, hpte⟩
    have hlt : u32 (addr.toNat + length.toInt) < 2 ^ 32 := by
      unfold u32
      omega
    obtain ⟨s, hs⟩ : ∃ s, dropPages ((k.procs p).mm.mmaps i).backs true ((k.procs p).mm.mmaps i) addr.toNat
        (u32 (addr.toNat + length.toInt)) ⟨⟨k.mem, (k.procs p).pgdir⟩, k.fs, 0⟩ = some s :=
      dropPages_isSome (fun _ => hw) (by omega)
    have hsh : shrink ((k.procs p).mm.set i { (k.procs p).mm.mmaps i with
        nLoadedPages := ((k.procs p).mm.mmaps i).nLoadedPages - s.dropped }) s.space.pgdir s.fs i addr.toNat
        length.toInt = some none := by
      refine shrink_eq_none_iff.mpr ⟨?_, ?_, ?_⟩
      · simpa [Mmaps.set] using ha
      · simpa [Mmaps.set, Region.stop] using hb
      · rw [findUnusedMmap_set, hfull]
    have hrun : sysWpunmap k p addr length = some (k.put p { k.procs p with
        pgdir := s.space.pgdir
        mm := (k.procs p).mm.set i { (k.procs p).mm.mmaps i with
          nLoadedPages := ((k.procs p).mm.mmaps i).nLoadedPages - s.dropped } } s.space.mem s.fs, -1) := by
      unfold sysWpunmap
      dsimp only
      rw [if_neg (by omega), if_neg (by omega), if_neg (by omega), hfind]
      dsimp only
      rw [hs]
      dsimp only
      rw [hsh]
      rfl
    -- the page is gone
    have hk := congrArg (fun k => (k.procs p).pgdir.pte va) (hall _ hrun)
    rw [Kernel.put_procs_self] at hk
    exact hpte (hk.symm.trans ((dropPages_spec hs hal hlt.le).1 va hva))
  · intro hlate k' hw
    unfold sysWpunmap at hw
    dsimp only at hw
    split_ifs at hw with hstop hlen hal
    · exact ((Prod.mk.inj (Option.some.inj hw)).1).symm
    · exact ((Prod.mk.inj (Option.some.inj hw)).1).symm
    · exact ((Prod.mk.inj (Option.some.inj hw)).1).symm
    split at hw
    · cases hw
    · exact ((Prod.mk.inj (Option.some.inj hw)).1).symm
    · rename_i prev i hfind
      split at hw
      · cases hw
      · rename_i s hs
        split at hw
        · cases hw
        · rename_i hsh
          obtain ⟨ha, hb, hfull⟩ := shrink_eq_none_iff.mp hsh
          rw [findUnusedMmap_set] at hfull
          -- no page of the range was present, so the loop has changed nothing
          have hnone : ∀ va ∈ pageRange addr.toNat (u32 (addr.toNat + length.toInt)),
              (k.procs p).pgdir.pte va = none := by
            by_cases hwr : ((k.procs p).mm.mmaps i).Writable k.fs
            · intro va hva
              by_contra hpte
              refine hlate ⟨by omega, by omega, by omega, hfull, prev, i, hfind, ?_, ?_, hwr, va, hva, hpte⟩
              · simpa [Mmaps.set] using ha
              · simpa [Mmaps.set, Region.stop] using hb
            · exact dropPages_not_writable hs hwr
          obtain rfl := dropPages_of_none hs hnone
          rw [← (Prod.mk.inj (Option.some.inj hw)).1, Mmaps.set_eq_self]
          exact Kernel.put_self
        · have := (Prod.mk.inj (Option.some.inj hw)).2
          omega

/-- A region of three pages, of which the second is touched, and regions in all the other slots. -/
def fullTable : List Op :=
  .wmap initproc 0x60000000 0x3000 0xD (-1) :: List.replicate 15 (.wmap initproc 0 0x1000 0x5 (-1)) ++
    [.fault initproc 0x60001000]

/-- `wpunmap` of the second page fails, and the page is gone. -/
theorem wpunmap_fails_late : ∃ k k', runAll (boot 4) fullTable = some k ∧
    sysWpunmap k 0 0x60001000 0x1000 = some (k', -1) ∧ (k.procs 0).pgdir.pte 0x60001000 ≠ none ∧
      (k'.procs 0).pgdir.pte 0x60001000 = none := by
  have hrun : ((runAll (boot 4) fullTable).bind fun k => (sysWpunmap k 0 0x60001000 0x1000).map fun out =>
      (((k.procs 0).pgdir.pte 0x60001000).isSome, ((out.1.procs 0).pgdir.pte 0x60001000).isSome, out.2)) =
        some (true, false, -1) := rfl
  obtain ⟨k, hk, hw⟩ := Option.bind_eq_some_iff.mp hrun
  obtain ⟨⟨k', r⟩, hw, hout⟩ := Option.map_eq_some_iff.mp hw
  obtain ⟨hbefore, hafter, rfl⟩ := by simpa using hout
  exact ⟨k, k', hk, hw, by simpa [Option.isSome_iff_ne_none] using hbefore, hafter⟩

end SdeSystems.Wmap
