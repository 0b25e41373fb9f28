import SdeSystems.Wmap.Process

/-!
# Entries and pages

What the functions of `vm.c` do to the entries of a page table, one lemma for each, and the
loops over the pages of a range. `loaded` is the number of the entries of a range that are
present.
-/

namespace SdeSystems.Wmap

open Lib Function

/-! ### Ranges of pages -/

section

variable {a b c va : ℕ}

theorem mem_pageRange : va ∈ pageRange a b ↔ ∃ n, va = a + 4096 * n ∧ va < b := by
  simp only [pageRange, List.mem_map, List.mem_range]
  constructor
  · rintro ⟨n, hn, rfl⟩
    exact ⟨n, rfl, by omega⟩
  · rintro ⟨n, rfl, hn⟩
    exact ⟨n, by omega, rfl⟩

theorem mem_pageRange_of_aligned (ha : a % 4096 = 0) : va ∈ pageRange a b ↔ a ≤ va ∧ va < b ∧ va % 4096 = 0 := by
  rw [mem_pageRange]
  constructor
  · rintro ⟨n, rfl, hn⟩
    omega
  · rintro ⟨h₁, h₂, h₃⟩
    exact ⟨(va - a) / 4096, by omega, h₂⟩

theorem nodup_pageRange : (pageRange a b).Nodup := by
  refine List.Nodup.map ?_ List.nodup_range
  intro x y (h : a + 4096 * x = a + 4096 * y)
  omega

/-- A range in two parts. -/
theorem pageRange_append (hab : a ≤ b) (hbc : b ≤ c) (hb : (b - a) % 4096 = 0) :
    pageRange a c = pageRange a b ++ pageRange b c := by
  have hsum : (c - a + 4095) / 4096 = (b - a + 4095) / 4096 + (c - b + 4095) / 4096 := by omega
  have hfirst : (b - a + 4095) / 4096 * 4096 = b - a := by omega
  unfold pageRange
  rw [hsum, List.range_add, List.map_append, List.map_map]
  congr 1
  apply List.map_congr_left
  intro n _
  simp only [comp_apply]
  omega

theorem pageRange_cons (h : a < b) : pageRange a b = a :: pageRange (a + 4096) b := by
  have hn : (b - a + 4095) / 4096 = (b - (a + 4096) + 4095) / 4096 + 1 := by omega
  simp only [pageRange, hn, List.range_succ_eq_map, List.map_cons, List.map_map]
  congr 1
  apply List.map_congr_left
  intro n _
  simp only [comp_apply]
  omega

theorem pageRange_of_le (h : b ≤ a) : pageRange a b = [] := by
  have : (b - a + 4095) / 4096 = 0 := by omega
  simp [pageRange, this]

end

theorem forPages_eq {σ : Type} {start stop : ℕ} (body : ℕ → σ → Option (σ × Bool)) (s : σ)
    (h : stop ≤ 0x80000000) : forPages start stop body s = forEach body (pageRange start stop) s :=
  if_neg (by omega)

theorem forPages_some {σ : Type} {start stop : ℕ} {body : ℕ → σ → Option (σ × Bool)} {s : σ} {out : σ × Bool}
    (h : forPages start stop body s = some out) : forEach body (pageRange start stop) s = some out := by
  unfold forPages at h
  split at h
  · cases h
  · exact h

/-! ### Entries -/

/-- The number of the page of an address. -/
def vpn (va : ℕ) : ℕ := va / 4096 % 2 ^ 20

theorem vpn_eq_iff {va va' : ℕ} : vpn va = vpn va' ↔ pdx va = pdx va' ∧ ptx va = ptx va' := by
  simp only [vpn, pdx, ptx, Fin.mk.injEq]
  omega

theorem vpn_ne {va va' : ℕ} (h : va % 4096 = 0) (h' : va' % 4096 = 0) (hlt : va < 2 ^ 32) (hlt' : va' < 2 ^ 32)
    (hne : va ≠ va') : vpn va ≠ vpn va' := by
  unfold vpn
  omega

/-- The pages before the one at hand are others. -/
theorem vpn_ne_of_split {start stop va d : ℕ} {done rest : List ℕ} (hl : pageRange start stop = done ++ va :: rest)
    (hal : start % 4096 = 0) (hlt : stop ≤ 2 ^ 32) (hd : d ∈ done) : vpn va ≠ vpn d := by
  have hnd : (done ++ va :: rest).Nodup := hl ▸ nodup_pageRange
  have hdv : va ≠ d := fun hdv => (List.nodup_cons.mp (List.nodup_middle.mp hnd)).1 (by simp [hdv, hd])
  have hva := (mem_pageRange_of_aligned hal).mp (show va ∈ pageRange start stop by simp [hl])
  have hd' := (mem_pageRange_of_aligned hal).mp (show d ∈ pageRange start stop by simp [hl, hd])
  exact vpn_ne hva.2.2 hd'.2.2 (by omega) (by omega) hdv

section

variable {pd : PageDir} {s s' : Space} {va va' : ℕ} {x : Option Pte} {e : Pte} {i : Fin 1024} {content : ℕ → UInt8}
  {w u : Bool} {page : ℕ}

theorem PageDir.pte_congr (h : vpn va = vpn va') : pd.pte va = pd.pte va' := by
  obtain ⟨h₁, h₂⟩ := vpn_eq_iff.mp h
  unfold PageDir.pte
  rw [h₁, h₂]

theorem PageDir.pte_setPte_of_ne (h : vpn va' ≠ vpn va) : (pd.setPte va x).pte va' = pd.pte va' := by
  unfold PageDir.setPte
  split
  · rfl
  · rename_i t ht
    unfold PageDir.pte
    by_cases hd : pdx va' = pdx va
    · have hp : ptx va' ≠ ptx va := fun hp => h (vpn_eq_iff.mpr ⟨hd, hp⟩)
      simp [hd, ht, hp]
    · simp [hd]

theorem PageDir.pte_setPte_self (h : (pd.tables (pdx va)).isSome) : (pd.setPte va x).pte va = x := by
  obtain ⟨t, ht⟩ := Option.isSome_iff_exists.mp h
  simp [PageDir.setPte, PageDir.pte, ht]

theorem PageDir.pte_clear (pd : PageDir) (va : ℕ) : (pd.setPte va none).pte va = none := by
  cases ht : pd.tables (pdx va) with
  | none => simp [PageDir.setPte, PageDir.pte, ht]
  | some t => exact pte_setPte_self (by simp [ht])

/-- A page table that is made has no entries. -/
theorem needTable_pte (h : needTable s i = some s') (va : ℕ) : s'.pgdir.pte va = s.pgdir.pte va := by
  unfold needTable at h
  split at h
  · obtain rfl := Option.some.inj h
    rfl
  · rename_i hn
    obtain ⟨⟨page, mem⟩, -, rfl⟩ := Option.map_eq_some_iff.mp h
    unfold PageDir.pte
    by_cases hi : pdx va = i
    · simp [hi, hn]
    · simp [hi]

theorem needTable_isSome (h : needTable s i = some s') : (s'.pgdir.tables i).isSome := by
  unfold needTable at h
  split at h
  · rename_i ht
    obtain rfl := Option.some.inj h
    simp [ht]
  · obtain ⟨⟨page, mem⟩, -, rfl⟩ := Option.map_eq_some_iff.mp h
    simp

/-- What `mappages` can do: nothing, or it sets an entry that was not there. -/
theorem mappages_cases {ok : Bool} (h : mappages s va e = some (s', ok)) :
    ok = false ∧ s' = s ∨
      ok = true ∧ ∃ s₁, needTable s (pdx va) = some s₁ ∧ s.pgdir.pte va = none ∧ (s₁.pgdir.tables (pdx va)).isSome ∧
        s' = { s₁ with pgdir := s₁.pgdir.setPte va e } := by
  unfold mappages at h
  split at h
  · obtain ⟨rfl, rfl⟩ := Prod.mk.inj (Option.some.inj h)
    exact .inl ⟨rfl, rfl⟩
  · rename_i s₁ hs₁
    split at h
    · cases h
    · rename_i hnone
      obtain ⟨rfl, rfl⟩ := Prod.mk.inj (Option.some.inj h)
      refine .inr ⟨rfl, s₁, hs₁, ?_, needTable_isSome hs₁, rfl⟩
      rw [← needTable_pte hs₁]
      simpa using hnone

theorem mappages_pte_self (h : mappages s va e = some (s', true)) :
    s.pgdir.pte va = none ∧ s'.pgdir.pte va = some e := by
  obtain ⟨hf, -⟩ | ⟨-, s₁, -, hn, ht, rfl⟩ := mappages_cases h
  · cases hf
  · exact ⟨hn, PageDir.pte_setPte_self ht⟩

theorem mappages_pte_of_ne {ok : Bool} (h : mappages s va e = some (s', ok)) (hne : vpn va' ≠ vpn va) :
    s'.pgdir.pte va' = s.pgdir.pte va' := by
  obtain ⟨-, rfl⟩ | ⟨-, s₁, hs₁, -, -, rfl⟩ := mappages_cases h
  · rfl
  · rw [PageDir.pte_setPte_of_ne hne, needTable_pte hs₁]

/-- What `mapNew` can do. -/
theorem mapNew_cases {out : Mapped} (h : mapNew s va content w u = some (s', out)) :
    out = .noPage ∧ kalloc s.mem = none ∧ s' = s ∨
      ∃ page mem ok, kalloc s.mem = some (page, mem) ∧
        mappages { s with mem := mem.fill page content } va ⟨page, w, u⟩ = some (s', ok) ∧
        out = if ok then .ok else .noTable page := by
  unfold mapNew at h
  split at h
  · rename_i hk
    obtain ⟨rfl, rfl⟩ := Prod.mk.inj (Option.some.inj h)
    exact .inl ⟨rfl, hk, rfl⟩
  · rename_i page mem hk
    obtain ⟨⟨s₁, ok⟩, hm, hout⟩ := Option.map_eq_some_iff.mp h
    obtain ⟨rfl, rfl⟩ := Prod.mk.inj hout
    exact .inr ⟨page, mem, ok, hk, hm, rfl⟩

theorem mapNew_ok (h : mapNew s va content w u = some (s', .ok)) :
    ∃ page mem, kalloc s.mem = some (page, mem) ∧
      mappages { s with mem := mem.fill page content } va ⟨page, w, u⟩ = some (s', true) := by
  obtain ⟨hf, -⟩ | ⟨page, mem, ok, hk, hm, hout⟩ := mapNew_cases h
  · cases hf
  · cases ok with
    | true => exact ⟨page, mem, hk, hm⟩
    | false => simp at hout

theorem mapNew_noTable (h : mapNew s va content w u = some (s', .noTable page)) :
    ∃ mem, kalloc s.mem = some (page, mem) ∧ s' = { s with mem := mem.fill page content } := by
  obtain ⟨hf, -⟩ | ⟨page', mem, ok, hk, hm, hout⟩ := mapNew_cases h
  · cases hf
  · cases ok with
    | true => simp at hout
    | false =>
      obtain rfl : page = page' := by simpa using hout
      obtain ⟨-, rfl⟩ | ⟨ht, -⟩ := mappages_cases hm
      · exact ⟨mem, hk, rfl⟩
      · cases ht

/-- A page that is not there changes nothing. -/
theorem mapNew_noPage (h : mapNew s va content w u = some (s', .noPage)) : s' = s := by
  obtain ⟨-, -, rfl⟩ | ⟨_, _, ok, -, -, hout⟩ := mapNew_cases h
  · rfl
  · cases ok <;> simp at hout

theorem mapNew_pte_self (h : mapNew s va content w u = some (s', .ok)) :
    s.pgdir.pte va = none ∧ ∃ page, s'.pgdir.pte va = some ⟨page, w, u⟩ := by
  obtain ⟨page, mem, -, hm⟩ := mapNew_ok h
  obtain ⟨hn, hs⟩ := mappages_pte_self hm
  exact ⟨hn, page, hs⟩

theorem mapNew_pte_of_ne {out : Mapped} (h : mapNew s va content w u = some (s', out)) (hne : vpn va' ≠ vpn va) :
    s'.pgdir.pte va' = s.pgdir.pte va' := by
  obtain ⟨-, -, rfl⟩ | ⟨page, mem, ok, -, hm, -⟩ := mapNew_cases h
  · rfl
  · have hpte := mappages_pte_of_ne hm hne
    exact hpte

end

/-! ### Pages that are taken -/

/-- Pages have been taken from the free list, and no others have been written to. -/
structure Takes (m m' : Mem) : Prop where
  /-- What is left of the free list. -/
  free : m'.free <:+ m.free
  /-- A page that was not free has its bytes. -/
  bytes : ∀ page ∉ m.free, m'.bytes page = m.bytes page

section

variable {m m' m'' : Mem} {s s' : Space} {i : Fin 1024} {va page : ℕ} {e : Pte} {content : ℕ → UInt8} {w u : Bool}

theorem Takes.refl (m : Mem) : Takes m m := ⟨List.suffix_refl _, fun _ _ => rfl⟩

theorem Takes.trans (h : Takes m m') (h' : Takes m' m'') : Takes m m'' :=
  ⟨h'.free.trans h.free, fun page hp => by rw [h'.bytes page fun hf => hp (h.free.subset hf), h.bytes page hp]⟩

theorem Takes.nodup (h : Takes m m') (hn : m.free.Nodup) : m'.free.Nodup := hn.sublist h.free.sublist

/-- A page that is taken and filled: it was free, and is not any more. -/
theorem kalloc_takes (h : kalloc m = some (page, m')) : Takes m (m'.fill page content) ∧ page ∈ m.free ∧
    (m.free.Nodup → page ∉ m'.free) := by
  unfold kalloc at h
  split at h
  · cases h
  · rename_i page' free hfree
    obtain ⟨rfl, rfl⟩ := Prod.mk.inj (Option.some.inj h)
    refine ⟨⟨by rw [hfree]; exact List.suffix_cons .., ?_⟩, by simp [hfree], ?_⟩
    · intro p hp
      rw [hfree, List.mem_cons, not_or] at hp
      exact update_of_ne hp.1 ..
    · intro hn
      rw [hfree] at hn
      exact (List.nodup_cons.mp hn).1

theorem needTable_takes (h : needTable s i = some s') : Takes s.mem s'.mem := by
  unfold needTable at h
  split at h
  · obtain rfl := Option.some.inj h
    exact .refl _
  · obtain ⟨⟨page, mem⟩, hk, rfl⟩ := Option.map_eq_some_iff.mp h
    exact (kalloc_takes hk).1

theorem mappages_takes {ok : Bool} (h : mappages s va e = some (s', ok)) : Takes s.mem s'.mem := by
  obtain ⟨-, rfl⟩ | ⟨-, s₁, hs₁, -, -, rfl⟩ := mappages_cases h
  · exact .refl _
  · have htakes := needTable_takes hs₁
    exact htakes

/-- A new page that is mapped has been taken from the free list, and has its content. -/
theorem mapNew_takes (h : mapNew s va content w u = some (s', .ok)) (hn : s.mem.free.Nodup) :
    Takes s.mem s'.mem ∧ s.pgdir.pte va = none ∧ ∃ page, s'.pgdir.pte va = some ⟨page, w, u⟩ ∧ page ∈ s.mem.free ∧
      page ∉ s'.mem.free ∧ s'.mem.bytes page = content := by
  obtain ⟨page, mem, hk, hm⟩ := mapNew_ok h
  obtain ⟨htakes, hfree, hnot⟩ := kalloc_takes hk
  have htakes' := mappages_takes hm
  obtain ⟨hnone, hpte⟩ := mappages_pte_self hm
  refine ⟨htakes.trans htakes', hnone, page, hpte, hfree, fun hf => hnot hn (htakes'.free.subset hf), ?_⟩
  rw [htakes'.bytes page (hnot hn)]
  exact update_self ..

end

/-! ### Loops that unmap and count -/

/-- How many entries from `start` to `stop` are present. -/
def loaded (pd : PageDir) (start stop : ℕ) : ℕ := (pageRange start stop).countP fun va => (pd.pte va).isSome

theorem loaded_congr {pd pd' : PageDir} {start stop : ℕ} (h : ∀ va ∈ pageRange start stop, pd'.pte va = pd.pte va) :
    loaded pd' start stop = loaded pd start stop := by
  unfold loaded
  exact List.countP_congr fun va hva => by rw [h va hva]

theorem loaded_append {pd : PageDir} {a b c : ℕ} (hab : a ≤ b) (hbc : b ≤ c) (hb : (b - a) % 4096 = 0) :
    loaded pd a c = loaded pd a b + loaded pd b c := by
  unfold loaded
  rw [pageRange_append hab hbc hb, List.countP_append]

theorem loaded_eq_zero {pd : PageDir} {start stop : ℕ} (h : ∀ va ∈ pageRange start stop, pd.pte va = none) :
    loaded pd start stop = 0 := by
  unfold loaded
  exact List.countP_eq_zero.mpr fun va hva => by simp [h va hva]

/-- `count_loaded_pages` counts. -/
theorem countLoadedPages_eq {pd : PageDir} {start stop : ℕ} (h : stop ≤ 0x80000000) :
    countLoadedPages pd start stop = some (loaded pd start stop : ℤ) := by
  have hloop (l : List ℕ) (n : ℤ) :
      forEach (fun va n => some (if (pd.pte va).isSome then n + 1 else n, true)) l n =
        some (n + (l.countP fun va => (pd.pte va).isSome : ℕ), true) := by
    induction l generalizing n with
    | nil => simp [forEach]
    | cons va l ih =>
      simp only [forEach, ih, List.countP_cons]
      split <;> simp only [Option.some.injEq, Prod.mk.injEq, and_true] <;> omega
  rw [countLoadedPages, forPages_eq _ _ h, hloop]
  simp [loaded]

section

variable {back free : Bool} {r : Region} {start stop va : ℕ} {s s' : Drop}

/-- What one turn of the unmapping loops does. -/
theorem dropPage_cases {ok : Bool} (h : dropPage back free r va s = some (s', ok)) : ok = true ∧
    (s.space.pgdir.pte va = none ∧ s' = s ∨
      ∃ e fs, s.space.pgdir.pte va = some e ∧
        s' = ⟨⟨if free then kfree s.space.mem e.page else s.space.mem, s.space.pgdir.setPte va none⟩, fs,
          s.dropped + 1⟩) := by
  unfold dropPage at h
  split at h
  · rename_i hn
    obtain ⟨rfl, rfl⟩ := Prod.mk.inj (Option.some.inj h)
    exact ⟨rfl, .inl ⟨hn, rfl⟩⟩
  · rename_i e he
    split at h
    · cases h
    · rename_i fs _
      obtain ⟨rfl, rfl⟩ := Prod.mk.inj (Option.some.inj h)
      exact ⟨rfl, .inr ⟨e, fs, he, rfl⟩⟩

theorem dropPages_some (h : dropPages back free r start stop s = some s') :
    forEach (dropPage back free r) (pageRange start stop) s = some (s', true) := by
  obtain ⟨⟨s₁, ok⟩, hf, rfl⟩ := Option.map_eq_some_iff.mp h
  have hf := forPages_some hf
  cases ok with
  | true => exact hf
  | false =>
    -- the body never stops the loop
    exfalso
    suffices ∀ l : List ℕ, ∀ s, forEach (dropPage back free r) l s ≠ some (s₁, false) from this _ _ hf
    intro l
    induction l with
    | nil => simp [forEach]
    | cons va l ih =>
      intro s hs
      simp only [forEach] at hs
      split at hs
      · cases hs
      · exact ih _ hs
      · rename_i hb
        simpa using (dropPage_cases hb).1

/-- The unmapping loops clear the entries of the range, leave the others, and count. -/
theorem dropPages_spec (h : dropPages back free r start stop s = some s') (hal : start % 4096 = 0)
    (hstop : stop ≤ 2 ^ 32) :
    (∀ va ∈ pageRange start stop, s'.space.pgdir.pte va = none) ∧
      (∀ va, (∀ d ∈ pageRange start stop, vpn va ≠ vpn d) → s'.space.pgdir.pte va = s.space.pgdir.pte va) ∧
      s'.dropped = s.dropped + loaded s.space.pgdir start stop := by
  have hloop := dropPages_some h
  refine forEach_done (I := fun done t => (∀ va ∈ done, t.space.pgdir.pte va = none) ∧
    (∀ va, (∀ d ∈ done, vpn va ≠ vpn d) → t.space.pgdir.pte va = s.space.pgdir.pte va) ∧
    t.dropped = s.dropped + (done.countP fun va => (s.space.pgdir.pte va).isSome : ℕ)) ?_ hloop (by simp)
  intro done va rest t t' hl ⟨h₁, h₂, h₃⟩ hb
  have hne (d : ℕ) (hd : d ∈ done) : vpn va ≠ vpn d := vpn_ne_of_split hl hal hstop hd
  have hpte : t.space.pgdir.pte va = s.space.pgdir.pte va := h₂ va hne
  rw [List.countP_append, List.countP_singleton]
  obtain ⟨-, ⟨hn, rfl⟩ | ⟨e, fs, he, rfl⟩⟩ := dropPage_cases hb
  · rw [hn] at hpte
    refine ⟨?_, fun d hd => h₂ d fun d' hd' => hd d' (by simp [hd']), ?_⟩
    · intro d hd
      rcases List.mem_append.mp hd with hd | hd
      · exact h₁ d hd
      · rw [List.mem_singleton.mp hd, hn]
    · simpa [← hpte] using h₃
  · rw [he] at hpte
    refine ⟨?_, ?_, ?_⟩
    · intro d hd
      rcases List.mem_append.mp hd with hd | hd
      · have hd' : (t.space.pgdir.setPte va none).pte d = _ := PageDir.pte_setPte_of_ne (hne d hd).symm
        exact hd'.trans (h₁ d hd)
      · rw [List.mem_singleton.mp hd]
        exact PageDir.pte_clear ..
    · intro d hd
      have hdv : vpn d ≠ vpn va := hd va (by simp)
      exact (PageDir.pte_setPte_of_ne hdv).trans (h₂ d fun d' hd' => hd d' (by simp [hd']))
    · simp only [← hpte, Option.isSome_some, if_true]
      omega

end

end SdeSystems.Wmap
