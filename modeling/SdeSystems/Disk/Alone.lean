import SdeSystems.Disk.Turns

/-!
# One process alone

The turns of the machine are those of the functions of `fs.c`: where no other process comes in between, they do
what `writei` and `itrunc` do (`writei_alone`, `itrunc_alone`).
-/

namespace SdeSystems.Disk

open Lib Function

variable {n : ℕ} {s : Store n} {v v' vol : Volume} {sys : Set ℕ} {p : Fin n} {ip k l a bn m off tot fuel e : ℕ}
  {src : ℕ → UInt8} {r : ℤ} {es : List (Call n)} {s' : Store n} {t : Task}

/-- Only silent steps. -/
theorem Shows.one {c : Option (Call n)} (hok : s.panicked = none) (h : Turn p s c s') : Shows Store.Step s c.toList s' := by
  cases c with
  | none => exact (Shows.refl s).silent (.turn p hok h)
  | some c => exact (Shows.refl s).event (.turn p hok h)

/-- `bmap` takes the block for the table, and then it is as if there had been one. -/
theorem bmap_table (hv : v.Ok ip) (hbn : bn < maxFile) (ht : v.NoTable ip bn) (h : bmap v ip bn = some (v', a)) :
    ∃ v₁ t, addrOf v ip ndirect = some (v₁, t) ∧ ¬ v₁.NoTable ip bn ∧ bmap v₁ ip bn = some (v', a) := by
  have hbn' : bn - ndirect < nindirect := by
    rw [maxFile] at hbn
    have := ht.1
    omega
  simp only [bmap] at h ⊢
  rw [if_neg (Nat.not_lt.mpr ht.1), if_pos hbn'] at h
  cases hsome : addrOf v ip ndirect with
  | none =>
    rw [hsome] at h
    cases h
  | some q =>
    obtain ⟨v₁, t⟩ := q
    rw [hsome] at h
    have hadd : Adds v v₁ ip maxFile t := addrOf_adds hv (.inr ⟨rfl, rfl⟩) ht.2 hsome
    have hslot := hadd.slot_self le_rfl
    rw [slot_table] at hslot
    have hne : (v₁.inodes ip).addrs ndirect ≠ 0 := by
      rw [hslot]
      exact hv.ne_zero hadd.free
    refine ⟨v₁, t, rfl, fun h => hne h.2, ?_⟩
    rw [if_neg (Nat.not_lt.mpr ht.1), if_pos hbn']
    simp only [addrOf]
    rw [if_neg hne, hslot]
    exact h

/-- The loop of `writei`. -/
theorem writeBlocks_alone (tot : ℕ) (hs : s.Inv sys) (hok : s.panicked = none) (hp : s.task p = .write ip src off m tot)
    (h : writeBlocks ip src m fuel tot (off + tot) s.vol = some (vol, e)) :
    e = off + m ∧ Shows Store.Step s [] { s with vol := vol, task := update s.task p (.write ip src off m m) } := by
  induction fuel generalizing s tot with
  | zero => cases h
  | succ fuel ih =>
    have htask := hs.tasks p
    rw [hp] at htask
    obtain ⟨-, htot, -, hmax, -⟩ := htask
    rw [writeBlocks] at h
    by_cases hlt : tot < m
    · rw [if_pos hlt] at h
      -- One turn, where the table is there.
      have hturn {s : Store n} (hs : s.Inv sys) (hok : s.panicked = none) (hp : s.task p = .write ip src off m tot)
          (ht : ¬ s.vol.NoTable ip ((off + tot) / bsize)) {v₁ : Volume} {b : ℕ}
          (hb : bmap s.vol ip ((off + tot) / bsize) = some (v₁, b))
          (h : writeBlocks ip src m fuel (tot + chunk off m tot) (off + tot + chunk off m tot)
            (v₁.copy b ((off + tot) % bsize) (fun x => src (tot + x)) (chunk off m tot)) = some (vol, e)) :
          e = off + m ∧ Shows Store.Step s [] { s with vol := vol, task := update s.task p (.write ip src off m m) } := by
        have hfirst := Turn.block hp hlt ht hb
        rw [Nat.add_assoc] at h
        obtain ⟨he, hrest⟩ := ih _ (hfirst.inv hs) hok (update_self ..) h
        dsimp only at hrest
        rw [update_idem] at hrest
        exact ⟨he, (Shows.one hok hfirst).trans hrest⟩
      cases hb : bmap s.vol ip ((off + tot) / bsize) with
      | none =>
        rw [hb] at h
        cases h
      | some q =>
        obtain ⟨v₁, b⟩ := q
        rw [hb] at h
        by_cases ht : s.vol.NoTable ip ((off + tot) / bsize)
        · have hbn : (off + tot) / bsize < maxFile := by
            rw [maxFile_eq, bsize_eq] at hmax
            rw [maxFile_eq, bsize_eq]
            omega
          obtain ⟨v₀, t, haddr, ht₀, hb₀⟩ := bmap_table (hs.writing hp).2.2 hbn ht hb
          have hfirst := Turn.table hp hlt ht haddr
          obtain ⟨he, hrest⟩ := hturn (hfirst.inv hs) hok hp ht₀ hb₀ h
          exact ⟨he, (Shows.one hok hfirst).trans hrest⟩
        · exact hturn hs hok hp ht hb h
    · rw [if_neg hlt] at h
      obtain ⟨rfl, rfl⟩ := Prod.mk.inj (Option.some.inj h)
      obtain rfl : tot = m := by omega
      refine ⟨rfl, ?_⟩
      rw [← hp, update_eq_self]
      exact .refl s

/-- **`writei`**, where nobody comes in between. -/
theorem writei_alone (hs : s.Inv sys) (hok : s.panicked = none) (hp : s.task p = .idle) (hlock : s.Unlocked ip)
    (htype : s.type ip ≠ 0) (hdev : (s.vol.inodes ip).dev = none) (h : writei s.vol ip src off m = some (vol, r)) :
    Shows Store.Step s [.write p ip ((List.range m).map src) off r] { s with vol := vol } := by
  by_cases hbad : s.vol.refuses ip off m
  · have hsame : writei s.vol ip src off m = some (s.vol, -1) := by
      simp only [writei]
      rw [hdev]
      dsimp only
      rcases hbad with hbad | hbad
      · exact if_pos hbad
      · by_cases hfirst : (s.vol.inodes ip).size < off ∨ 2 ^ 32 ≤ off + m
        · exact if_pos hfirst
        · rw [if_neg hfirst, if_pos hbad]
    rw [hsame] at h
    obtain ⟨rfl, rfl⟩ := Prod.mk.inj (Option.some.inj h)
    exact Shows.one hok (.refuse ip src off m hp hlock htype hdev hbad)
  · have hgood := hbad
    simp only [Volume.refuses, Volume.beyond, not_or] at hgood
    simp only [writei] at h
    rw [hdev] at h
    dsimp only at h
    rw [if_neg (not_or.mpr hgood.1), if_neg hgood.2] at h
    have hfirst := Turn.write ip src off m hp hlock htype hdev hbad
    cases hloop : writeBlocks ip src m (m + 1) 0 off s.vol with
    | none =>
      rw [hloop] at h
      cases h
    | some q =>
      obtain ⟨v₁, e⟩ := q
      rw [hloop] at h
      obtain ⟨rfl, hrest⟩ := writeBlocks_alone 0 (hfirst.inv hs) hok (update_self ..) hloop
      have hlast := Turn.written (s := { s with vol := v₁, task := update s.task p (.write ip src off m m) })
        (update_self ..) (Nat.lt_irrefl m)
      have hall := ((Shows.one hok hfirst).trans hrest).trans
        (by dsimp only; rw [update_idem]; exact Shows.one hok hlast)
      have hvol : vol = v₁.finish ip off m ∧ r = m := by
        simp only [Volume.finish]
        dsimp only at h
        split at h
        · rename_i hlong
          obtain ⟨rfl, rfl⟩ := Prod.mk.inj (Option.some.inj h)
          rw [if_pos hlong]
          exact ⟨rfl, rfl⟩
        · rename_i hshort
          obtain ⟨rfl, rfl⟩ := Prod.mk.inj (Option.some.inj h)
          rw [if_neg hshort]
          exact ⟨rfl, rfl⟩
      obtain ⟨rfl, rfl⟩ := hvol
      dsimp only at hall
      rw [update_idem, ← hp, update_eq_self] at hall
      exact hall

/-! ### `itrunc` -/

/-- A loop of `itrunc` over the blocks from `k` on, and what each turn of it keeps. -/
theorem frees_alone {j : ℕ} {f : Volume → ℕ → Option Volume} {P : Volume → Prop} (hok : s.panicked = none) (hP : P s.vol)
    (hkeep : ∀ v i v', P v → f v i = some v' → P v')
    (hstep : ∀ (s : Store n) i v, k ≤ i → i < k + l → P s.vol → s.task p = .free ip (j + i) → f s.vol i = some v →
      Turn p s none { s with vol := v, task := update s.task p (.free ip (j + (i + 1))) })
    (hp : s.task p = .free ip (j + k)) (h : (List.range' k l).foldlM f s.vol = some vol) :
    P vol ∧ Shows Store.Step s [] { s with vol := vol, task := update s.task p (.free ip (j + (k + l))) } := by
  induction l generalizing s k with
  | zero =>
    obtain rfl := Option.some.inj h
    rw [Nat.add_zero, ← hp, update_eq_self]
    exact ⟨hP, .refl s⟩
  | succ l ih =>
    rw [List.range'_succ, List.foldlM_cons] at h
    obtain ⟨v, hfirst, hrest⟩ := Option.bind_eq_some_iff.mp h
    have hone := hstep s k v le_rfl (by omega) hP hp hfirst
    obtain ⟨hend, hlast⟩ := ih (s := { s with vol := v, task := update s.task p (.free ip (j + (k + 1))) }) hok
      (hkeep _ _ _ hP hfirst) (fun s i v hi hi' => hstep s i v (by omega) (by omega)) (update_self ..) hrest
    dsimp only at hlast
    rw [update_idem] at hlast
    have hall := (Shows.one hok hone).trans hlast
    rw [Nat.add_assoc k, Nat.add_comm 1] at hall
    exact ⟨hend, hall⟩

/-- The second half of `itrunc`. -/
theorem freeTable_alone (hok : s.panicked = none) (hp : s.task p = .free ip ndirect)
    (h : freeTable ip s.vol = some vol) :
    Shows Store.Step s [] { s with vol := vol, task := update s.task p (.free ip (maxFile + 1)) } := by
  simp only [freeTable] at h
  split at h
  · rename_i hz
    obtain rfl := Option.some.inj h
    exact Shows.one hok (.noTable hp hz)
  · rename_i hz
    obtain ⟨t, ht⟩ : ∃ t, t = (s.vol.inodes ip).addrs ndirect := ⟨_, rfl⟩
    rw [← ht] at h hz
    cases hloop : (List.range nindirect).foldlM (freeEntry t) s.vol with
    | none =>
      rw [hloop] at h
      cases h
    | some v =>
      rw [hloop] at h
      obtain ⟨v', hlast, rfl⟩ := Option.map_eq_some_iff.mp h
      rw [List.range_eq_range'] at hloop
      obtain ⟨-, hrun⟩ := frees_alone (p := p) (j := ndirect) (k := 0) (P := fun v => (v.inodes ip).addrs ndirect = t)
        hok ht.symm
        (fun v i v' hv hi => by
          rw [(freeEntry_gives ip hi).2]
          exact hv)
        (fun s i v _ hi hv hp hb => by
          refine .freeEntry (k := ndirect + i) hp (Nat.le_add_right _ _) ?_ (by rwa [hv]) ?_
          · rw [maxFile]
            omega
          · rwa [hv, Nat.add_sub_cancel_left])
        hp hloop
      have hend := Turn.freeTable (p := p) (s := { s with vol := v, task := update s.task p (.free ip maxFile) })
        (update_self ..) hlast
      have hall := hrun.trans (c := { s with vol := v'.setAddr ip ndirect 0, task := update s.task p (.free ip (maxFile + 1)) })
        (by
          rw [Nat.zero_add]
          have hone := Shows.one (by exact hok) hend
          dsimp only at hone
          rwa [update_idem] at hone)
      exact hall

/-- **`itrunc`**, where nobody comes in between, and the end of the file. -/
theorem itrunc_alone (hok : s.panicked = none) (hp : s.task p = .free ip 0) (h : itrunc s.vol ip = some vol) :
    Shows Store.Step s [.remove p ip]
      { s with vol := vol, type := update s.type ip 0, task := update s.task p .idle } := by
  simp only [itrunc] at h
  cases hfirst : (List.range ndirect).foldlM (freeAddr ip) s.vol with
  | none =>
    rw [hfirst] at h
    cases h
  | some v =>
    rw [hfirst] at h
    dsimp only at h
    cases htable : freeTable ip v with
    | none =>
      rw [htable] at h
      cases h
    | some v' =>
      rw [htable] at h
      obtain rfl := Option.some.inj h
      rw [List.range_eq_range'] at hfirst
      obtain ⟨-, hrun⟩ := frees_alone (p := p) (j := 0) (P := fun _ => True) hok trivial
        (fun _ _ _ _ _ => trivial)
        (fun s i v _ hi _ hp hb => by
          rw [Nat.zero_add] at hp hi ⊢
          exact .freeAddr hp hi hb)
        hp hfirst
      rw [Nat.zero_add, Nat.zero_add] at hrun
      have hrest := freeTable_alone (p := p) (s := { s with vol := v, task := update s.task p (.free ip ndirect) }) hok
        (update_self ..) htable
      have hend := Shows.one (by exact hok) (Turn.freed (p := p)
        (s := { s with vol := v', task := update s.task p (.free ip (maxFile + 1)) }) (update_self ..))
      dsimp only at hrest hend
      rw [update_idem] at hrest hend
      exact (hrun.trans hrest).trans hend

end SdeSystems.Disk
