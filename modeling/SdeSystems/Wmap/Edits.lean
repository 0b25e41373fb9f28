import SdeSystems.Wmap.Table
import Mathlib.Data.List.Pairwise

/-!
# Edits of the table

What the operations do to the table: a region comes in (`wmap`, the split of `wpunmap`,
`copy_maps`), or it goes out (`wunmap`). The placement of `wmap` is checked here too: the search of
`find_addr_place_mmap` yields a page in the range, and what passes the overlap check has no
page in common with another region.
-/

namespace SdeSystems.Wmap

open Lib Function

variable {mm mm' : Mmaps} {l l₁ l₂ : List (Fin 16)} {i j m : Fin 16} {r : Region} {addr : ℕ} {length : ℤ}

/-! ### Adding and removing -/

theorem Listed.add (h : Listed mm (l₁ ++ l₂)) (hm : m ∉ l₁ ++ l₂)
    (hlink : Linked mm'.next mm'.mmapHead (l₁ ++ m :: l₂) none) (htotal : mm'.totalMmaps = mm.totalMmaps + 1)
    (hmm : ∀ j, j ≠ m → mm'.mmaps j = mm.mmaps j) (hr : (mm'.mmaps m).addr ≠ 2 ^ 32 - 1) :
    Listed mm' (l₁ ++ m :: l₂) := by
  have hmem (j : Fin 16) : j ∈ l₁ ++ m :: l₂ ↔ j = m ∨ j ∈ l₁ ++ l₂ := by
    simp only [List.mem_append, List.mem_cons]
    tauto
  refine ⟨hlink, List.nodup_middle.mpr (List.nodup_cons.mpr ⟨hm, h.nodup⟩), ?_, ?_⟩
  · intro j
    rw [hmem]
    by_cases hjm : j = m
    · subst hjm
      simpa using hr
    · rw [hmm j hjm, ← h.used]
      simp [hjm]
  · rw [htotal, h.total]
    simp only [List.length_append, List.length_cons]
    omega

/-- A region comes in. -/
theorem Table.add (h : Table mm (l₁ ++ l₂)) (hm : m ∉ l₁ ++ l₂)
    (hlink : Linked mm'.next mm'.mmapHead (l₁ ++ m :: l₂) none) (htotal : mm'.totalMmaps = mm.totalMmaps + 1)
    (hmm : ∀ j, j ≠ m → mm'.mmaps j = mm.mmaps j) (hr : (mm'.mmaps m).Ok)
    (ha : ∀ j ∈ l₁ ++ l₂, (mm'.mmaps m).Apart (mm.mmaps j)) : Table mm' (l₁ ++ m :: l₂) := by
  have hmem (j : Fin 16) : j ∈ l₁ ++ m :: l₂ ↔ j = m ∨ j ∈ l₁ ++ l₂ := by
    simp only [List.mem_append, List.mem_cons]
    tauto
  have hne (j : Fin 16) (hj : j ∈ l₁ ++ l₂) : j ≠ m := fun hjm => hm (hjm ▸ hj)
  refine ⟨h.toListed.add hm hlink htotal hmm hr.addr_ne, ?_, ?_⟩
  · intro j hj
    rcases (hmem j).mp hj with rfl | hj
    · exact hr
    · rw [hmm j (hne j hj)]
      exact h.region j hj
  · intro j hj j' hj' hjj
    rcases (hmem j).mp hj with rfl | hj₀
    · rw [hmm j' hjj.symm]
      exact ha j' (((hmem j').mp hj').resolve_left hjj.symm)
    · rw [hmm j (hne j hj₀)]
      rcases (hmem j').mp hj' with rfl | hj₀'
      · exact (ha j hj₀).symm
      · rw [hmm j' (hne j' hj₀')]
        exact h.apart j hj₀ j' hj₀' hjj

theorem Strict.add (h : Strict mm (l₁ ++ l₂)) (hmm : ∀ j ∈ l₁ ++ l₂, mm'.mmaps j = mm.mmaps j)
    (hpos : 0 < (mm'.mmaps m).length) (h₁ : ∀ j ∈ l₁, (mm.mmaps j).addr < (mm'.mmaps m).addr)
    (h₂ : ∀ j ∈ l₂, (mm'.mmaps m).addr < (mm.mmaps j).addr) : Strict mm' (l₁ ++ m :: l₂) := by
  have hm₁ (j : Fin 16) (hj : j ∈ l₁) : mm'.mmaps j = mm.mmaps j := hmm j (by simp [hj])
  have hm₂ (j : Fin 16) (hj : j ∈ l₂) : mm'.mmaps j = mm.mmaps j := hmm j (by simp [hj])
  obtain ⟨hs₁, hs₂, hs⟩ := List.pairwise_append.mp h.sorted
  constructor
  · intro j hj
    simp only [List.mem_append, List.mem_cons] at hj
    rcases hj with hj | rfl | hj
    · rw [hm₁ j hj]
      exact h.pos j (by simp [hj])
    · exact hpos
    · rw [hm₂ j hj]
      exact h.pos j (by simp [hj])
  · refine List.pairwise_append.mpr ⟨?_, List.pairwise_cons.mpr ⟨?_, ?_⟩, ?_⟩
    · exact hs₁.imp_of_mem fun ha hb hab => by rwa [hm₁ _ ha, hm₁ _ hb]
    · intro j hj
      rw [hm₂ j hj]
      exact h₂ j hj
    · exact hs₂.imp_of_mem fun ha hb hab => by rwa [hm₂ _ ha, hm₂ _ hb]
    · intro j hj j' hj'
      rw [hm₁ j hj]
      rcases List.mem_cons.mp hj' with rfl | hj'
      · exact h₁ j hj
      · rw [hm₂ j' hj']
        exact hs j hj j' hj'

/-- A region goes out. -/
theorem unlink_linked (h : Listed mm (l₁ ++ i :: l₂)) :
    Linked (unlink mm l₁.getLast? i).next (unlink mm l₁.getLast? i).mmapHead (l₁ ++ l₂) none := by
  obtain ⟨hn₁, ⟨hi₂, hn₂⟩, hd⟩ : l₁.Nodup ∧ (i ∉ l₂ ∧ l₂.Nodup) ∧ ∀ a ∈ l₁, a ≠ i ∧ ∀ b ∈ l₂, a ≠ b := by
    simpa [List.nodup_append] using h.nodup
  rcases List.eq_nil_or_concat l₁ with rfl | ⟨l₀, q, rfl⟩
  · obtain ⟨-, hl⟩ := h.linked
    apply hl.congr
    intro x hx
    have hxi : x ≠ i := fun hxi => hi₂ (hxi ▸ hx)
    simp only [unlink, Mmaps.reset, List.getLast?_nil]
    rw [update_of_ne hxi]
  · rw [List.concat_eq_append] at *
    have hlast : (l₀ ++ [q]).getLast? = some q := by simp
    have hq := hd q (by simp)
    have hq₀ : q ∉ l₀ := by
      simp only [List.nodup_append, List.mem_singleton, forall_eq] at hn₁
      exact fun hm => hn₁.2.2 q hm rfl
    have hl := h.linked
    rw [List.append_assoc, List.singleton_append] at hl
    rw [hlast, List.append_assoc, List.singleton_append]
    simp only [unlink, Mmaps.reset]
    refine hl.remove ?_ ?_
    · rw [update_of_ne hq.1, update_self]
    · intro x hx
      have hxi : x ≠ i := by
        rcases List.mem_append.mp hx with hx | hx
        · exact (hd x (by simp [hx])).1
        · exact fun hxi => hi₂ (hxi ▸ hx)
      have hxq : x ≠ q := by
        rcases List.mem_append.mp hx with hx | hx
        · exact fun hxq => hq₀ (hxq ▸ hx)
        · exact (hq.2 x hx).symm
      rw [update_of_ne hxi, update_of_ne hxq]

@[simp] theorem unlink_total (prev : Option (Fin 16)) : (unlink mm prev i).totalMmaps = mm.totalMmaps - 1 := by
  cases prev <;> rfl

@[simp] theorem unlink_mmaps (prev : Option (Fin 16)) : (unlink mm prev i).mmaps = update mm.mmaps i initOneMmap := by
  cases prev <;> rfl

theorem Listed.unlink (h : Listed mm (l₁ ++ i :: l₂)) : Listed (unlink mm l₁.getLast? i) (l₁ ++ l₂) := by
  have hnd := List.nodup_middle.mp h.nodup
  obtain ⟨hi, hn⟩ := List.nodup_cons.mp hnd
  refine ⟨unlink_linked h, hn, ?_, ?_⟩
  · intro j
    rw [unlink_mmaps]
    by_cases hj : j = i
    · subst hj
      simpa [initOneMmap] using hi
    · rw [update_of_ne hj, ← h.used]
      simp [hj]
  · rw [unlink_total, h.total]
    simp only [List.length_append, List.length_cons]
    omega

theorem unlink_of_mem (h : (l₁ ++ i :: l₂).Nodup) (hj : j ∈ l₁ ++ l₂) (prev : Option (Fin 16)) :
    (unlink mm prev i).mmaps j = mm.mmaps j := by
  rw [unlink_mmaps]
  refine update_of_ne ?_ ..
  intro hji
  exact (List.nodup_cons.mp (List.nodup_middle.mp h)).1 (hji ▸ hj)

theorem mem_of_mem_append (hj : j ∈ l₁ ++ l₂) : j ∈ l₁ ++ i :: l₂ := by
  simp only [List.mem_append, List.mem_cons] at hj ⊢
  tauto

theorem Table.unlink (h : Table mm (l₁ ++ i :: l₂)) : Table (unlink mm l₁.getLast? i) (l₁ ++ l₂) where
  toListed := h.toListed.unlink
  region j hj := by
    rw [unlink_of_mem h.nodup hj]
    exact h.region j (mem_of_mem_append hj)
  apart j hj j' hj' hne := by
    rw [unlink_of_mem h.nodup hj, unlink_of_mem h.nodup hj']
    exact h.apart j (mem_of_mem_append hj) j' (mem_of_mem_append hj') hne

theorem Strict.unlink (h : Strict mm (l₁ ++ i :: l₂)) (hn : (l₁ ++ i :: l₂).Nodup) (prev : Option (Fin 16)) :
    Strict (unlink mm prev i) (l₁ ++ l₂) := by
  constructor
  · intro j hj
    rw [unlink_of_mem hn hj]
    exact h.pos j (mem_of_mem_append hj)
  · have hs : (l₁ ++ l₂).Pairwise fun i j => (mm.mmaps i).addr < (mm.mmaps j).addr :=
      h.sorted.sublist ((List.sublist_cons_self i l₂).append_left l₁)
    exact hs.imp_of_mem fun ha hb hab => by rwa [unlink_of_mem hn ha, unlink_of_mem hn hb]

/-! ### Placement -/

/-- Where `insertSorted` puts the region; outside the list it changes the `next` of the region only. -/
theorem insertSorted_spec (hlink : Linked mm.next mm.mmapHead l none) (hlen : l.length ≤ 16) (hn : l.Nodup)
    (hm : m ∉ l) (addr : ℕ) :
    ∃ l₁ l₂ mm', l = l₁ ++ l₂ ∧ insertSorted mm m addr = some mm' ∧ mm'.mmaps = mm.mmaps ∧
      mm'.totalMmaps = mm.totalMmaps ∧ Linked mm'.next mm'.mmapHead (l₁ ++ m :: l₂) none ∧
      (∀ j ∈ l₁, (mm.mmaps j).addr ≤ addr) ∧ (∀ j ∈ l₂.head?, addr ≤ (mm.mmaps j).addr) ∧
      ∀ x ∉ l, x ≠ m → mm'.next x = mm.next x := by
  have hnext (x : Option (Fin 16)) : ∀ j ∈ l, update mm.next m x j = mm.next j := by
    intro j hj
    have hjm : j ≠ m := fun hjm => hm (hjm ▸ hj)
    rw [update_of_ne hjm]
  cases l with
  | nil =>
    have hh : mm.mmapHead = none := hlink
    refine ⟨[], [], { mm with next := update mm.next m none, mmapHead := some m }, rfl, ?_, rfl, rfl, ?_, by simp,
      by simp, fun x _ hx => update_of_ne hx ..⟩
    · simp only [insertSorted, hh]
    · exact ⟨rfl, by simp [Linked]⟩
  | cons i l =>
    obtain ⟨hh, htail⟩ := hlink
    obtain ⟨hi, hnl⟩ := List.nodup_cons.mp hn
    by_cases hlt : addr < (mm.mmaps i).addr
    · refine ⟨[], i :: l, { mm with next := update mm.next m (some i), mmapHead := some m }, rfl, ?_, rfl, rfl, ?_,
        by simp, by simpa using hlt.le, fun x _ hx => update_of_ne hx ..⟩
      · simp only [insertSorted, hh, if_pos hlt]
      · refine ⟨rfl, ?_⟩
        dsimp only
        rw [update_self]
        exact Linked.congr ⟨rfl, htail⟩ (hnext _)
    · -- the walk stops behind the last region that begins below `addr`
      obtain ⟨l₁, l₂, rfl, h₁, h₂, hs⟩ := seek_spec (fun j => decide (addr ≤ (mm.mmaps j).addr)) (some i) htail
        (show l.length ≤ 16 by simp at hlen; omega)
      obtain ⟨l₀, q, hq, hor⟩ : ∃ l₀ q, i :: l₁ = l₀ ++ [q] ∧ l₁.getLast?.or (some i) = some q := by
        rcases List.eq_nil_or_concat l₁ with rfl | ⟨l₀, q, rfl⟩
        · exact ⟨[], i, rfl, rfl⟩
        · exact ⟨i :: l₀, q, by simp, by simp⟩
      have hins : insertSorted mm m addr = some { mm with
          next := update (update mm.next m (mm.next q)) q (some m) } := by
        rw [hor] at hs
        simp only [insertSorted, hh, if_neg hlt, hs]
      have heq : i :: (l₁ ++ l₂) = l₀ ++ q :: l₂ := by
        rw [← List.cons_append, hq, List.append_assoc, List.singleton_append]
      rw [heq] at hn hm hnext
      have hqm : q ≠ m := fun hqm => hm (by simp [hqm])
      have hqn := (List.nodup_cons.mp (List.nodup_middle.mp hn)).1
      refine ⟨i :: l₁, l₂, _, rfl, hins, rfl, rfl, ?_, ?_, ?_, ?_⟩
      · rw [hq, List.append_assoc, List.singleton_append]
        have hlink : Linked mm.next mm.mmapHead (l₀ ++ q :: l₂) none := heq ▸ ⟨hh, htail⟩
        refine hlink.insert (update_self ..) ?_ ?_
        · dsimp only
          rw [update_of_ne hqm.symm, update_self]
        · intro x hx
          have hxq : x ≠ q := fun hxq => hqn (hxq ▸ hx)
          dsimp only
          rw [update_of_ne hxq, hnext _ x (mem_of_mem_append hx)]
      · intro j hj
        rcases List.mem_cons.mp hj with rfl | hj
        · omega
        · have := h₁ j hj
          simp only [decide_eq_false_iff_not] at this
          omega
      · intro j hj
        simpa using h₂ j hj
      · intro x hx hxm
        have hxq : x ≠ q := by
          rintro rfl
          rw [← List.cons_append, hq] at hx
          simp at hx
        dsimp only
        rw [update_of_ne hxq, update_of_ne hxm]

/-- What `fix_addr_place_mmap` does: nothing, or it puts a region at `addr` into the list. -/
inductive Places (mm : Mmaps) (l : List (Fin 16)) (addr : ℕ) (length : ℤ) : Mmaps × Option (Fin 16) → Prop
  /-- There is no room. -/
  | none : Places mm l addr length (mm, none)
  /-- The region is the slot `m`. -/
  | some {mm' : Mmaps} {m : Fin 16} (l₁ l₂ : List (Fin 16)) (hl : l = l₁ ++ l₂) (hm : m ∉ l)
    (hmm : mm'.mmaps = update mm.mmaps m { mm.mmaps m with addr := addr })
    (htotal : mm'.totalMmaps = mm.totalMmaps)
    (hlink : Linked mm'.next mm'.mmapHead (l₁ ++ m :: l₂) Option.none)
    (hroom : ∀ i ∈ l, ¬ (addr < (mm.mmaps i).stop ∧ (mm.mmaps i).addr < u32 (addr + length)))
    (h₁ : ∀ j ∈ l₁, (mm.mmaps j).addr ≤ addr) (h₂ : ∀ j ∈ l₂.head?, addr ≤ (mm.mmaps j).addr) :
    Places mm l addr length (mm', Option.some m)

theorem fixAddrPlaceMmap_spec (h : Listed mm l) (addr : ℕ) (length : ℤ) :
    ∃ out, fixAddrPlaceMmap mm addr length = some out ∧ Places mm l addr length out := by
  rcases h.find (fun r => decide (addr < r.stop ∧ r.addr < u32 (addr + length))) with
    ⟨hfind, hno⟩ | ⟨_, i, _, -, -, -, hfind⟩
  · cases hu : findUnusedMmap mm with
    | none => exact ⟨(mm, none), by simp only [fixAddrPlaceMmap, hfind, hu], .none⟩
    | some m =>
      have hm := h.not_mem_of_unused hu
      have hlink : Linked (mm.set m { mm.mmaps m with addr := addr }).next
          (mm.set m { mm.mmaps m with addr := addr }).mmapHead l none := h.linked
      obtain ⟨l₁, l₂, mm', hl, hins, hmm, ht, hlink', h₁, h₂, -⟩ :=
        insertSorted_spec hlink h.length_le h.nodup hm addr
      have hsame (j : Fin 16) (hj : j ∈ l) : (mm.set m { mm.mmaps m with addr := addr }).mmaps j = mm.mmaps j := by
        have hjm : j ≠ m := fun hjm => hm (hjm ▸ hj)
        simp [Mmaps.set, hjm]
      refine ⟨(mm', some m), by simp only [fixAddrPlaceMmap, hfind, hu, hins, Option.map_some],
        .some l₁ l₂ hl hm (by rw [hmm]; rfl) (by rw [ht]; rfl) hlink' (fun i hi => by simpa using hno i hi) ?_ ?_⟩
      · intro j hj
        have := h₁ j hj
        rwa [hsame j (by simp [hl, hj])] at this
      · intro j hj
        have := h₂ j hj
        rwa [hsame j (by rw [hl]; exact List.mem_append_right _ (List.mem_of_mem_head? hj))] at this
  · exact ⟨(mm, none), by simp only [fixAddrPlaceMmap, hfind], .none⟩

/-- Outside the list `fix_addr_place_mmap` changes the `next` of the region only. -/
theorem fixAddrPlaceMmap_next (h : Listed mm l) (hout : fixAddrPlaceMmap mm addr length = some (mm', some m)) {x : Fin 16}
    (hx : x ∉ l) (hxm : x ≠ m) : mm'.next x = mm.next x := by
  unfold fixAddrPlaceMmap at hout
  dsimp only at hout
  split at hout
  · cases hout
  · cases hout
  · split at hout
    · cases hout
    · rename_i m' hu
      obtain ⟨mm₁, hins, hpair⟩ := Option.map_eq_some_iff.mp hout
      obtain ⟨rfl, hm⟩ := Prod.mk.inj hpair
      obtain rfl : m' = m := Option.some.inj hm
      have hlink : Linked (mm.set m' { mm.mmaps m' with addr := addr }).next
          (mm.set m' { mm.mmaps m' with addr := addr }).mmapHead l none := h.linked
      obtain ⟨-, -, mm₂, -, hins', -, -, -, -, -, hnext⟩ :=
        insertSorted_spec hlink h.length_le h.nodup (h.not_mem_of_unused hu) addr
      obtain rfl : mm₁ = mm₂ := Option.some.inj (hins.symm.trans hins')
      exact hnext x hx hxm

/-- The search for a gap stays at pages of the range. -/
theorem findStart_spec (length : ℤ) (h : Table mm l) {fuel : ℕ} {cur : Option (Fin 16)} {start : ℕ} {rest : List (Fin 16)}
    (hrest : Linked mm.next cur rest none) (hsub : ∀ i ∈ rest, i ∈ l) (hf : rest.length ≤ fuel)
    (hlo : 0x60000000 ≤ start) (hhi : start ≤ 0x80000000) (hal : start % 4096 = 0) :
    ∃ a, findStart mm length fuel cur start = some a ∧ 0x60000000 ≤ a ∧ a ≤ 0x80000000 ∧ a % 4096 = 0 := by
  induction rest generalizing fuel cur start with
  | nil =>
    obtain rfl : cur = none := hrest
    exact ⟨start, by cases fuel <;> rfl, hlo, hhi, hal⟩
  | cons i rest ih =>
    obtain ⟨rfl, hrest⟩ := hrest
    obtain ⟨fuel, rfl⟩ : ∃ f, fuel = f + 1 := ⟨fuel - 1, by simp at hf; omega⟩
    have hok := h.region i (hsub i (by simp))
    have hstop := hok.stop_eq
    obtain ⟨-, h₀, h₁, h₂⟩ := hok
    by_cases hgap : u32 (start + length) ≤ (mm.mmaps i).addr
    · exact ⟨start, by simp only [findStart, if_pos hgap], hlo, hhi, hal⟩
    · simp only [findStart, if_neg hgap]
      refine ih hrest (fun j hj => hsub j (by simp [hj])) (by simpa using hf) ?_ ?_ ?_
      all_goals
        unfold pgroundup
        split_ifs <;> omega

end SdeSystems.Wmap
