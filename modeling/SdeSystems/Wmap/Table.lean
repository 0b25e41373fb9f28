import SdeSystems.Wmap.Regions
import Mathlib.Data.Fintype.Card
import Mathlib.Data.List.Nodup
import Mathlib.Data.Fin.Basic

/-!
# The invariant of the table

The three views of the mappings of a process agree (`Listed`): the list from `mmap_head` on has
each used slot once, and `total_mmaps` counts them. The regions are in the range for mappings, begin
at a page, and have no page in common (`Table`). This is what every operation keeps; that the list
is sorted and that no region is empty (`Strict`) is kept by all but `wpunmap`.
-/

namespace SdeSystems.Wmap

open Lib Function

/-! ### Regions -/

/-- A region lies in the range for mappings and begins at a page. -/
structure Region.Ok (r : Region) : Prop where
  /-- It begins at a page. -/
  aligned : r.addr % 4096 = 0
  /-- Its length is not negative. -/
  nonneg : 0 ≤ r.length
  /-- It begins at or above `MMAPBASE`. -/
  lo : 0x60000000 ≤ r.addr
  /-- It ends at or below `KERNBASE`. -/
  hi : r.addr + r.length ≤ 0x80000000

/-- The end of the last page of a region. -/
def Region.pageEnd (r : Region) : ℕ := (r.addr + r.length.toNat + 4095) / 4096 * 4096

/-- Two regions have no page in common. -/
def Region.Apart (r s : Region) : Prop := r.pageEnd ≤ s.addr ∨ s.pageEnd ≤ r.addr

theorem Region.Apart.symm {r s : Region} (h : r.Apart s) : s.Apart r := Or.symm h

/-- A part of a region is apart from what the region is apart from. -/
theorem Region.Apart.part {r r' s : Region} (h : r.Apart s) (hlo : r.addr ≤ r'.addr) (h₀ : 0 ≤ r.length)
    (h₀' : 0 ≤ r'.length) (hhi : r'.addr + r'.length ≤ r.addr + r.length) : r'.Apart s := by
  have hend : r'.pageEnd ≤ r.pageEnd := by
    unfold Region.pageEnd
    omega
  exact h.imp hend.trans fun h => h.trans hlo

theorem Region.Ok.stop_eq {r : Region} (h : r.Ok) : (r.stop : ℤ) = r.addr + r.length := by
  obtain ⟨-, h₀, h₁, h₂⟩ := h
  unfold Region.stop u32
  omega

/-- Regions that have no byte in common have no page in common, since both begin at a page. -/
theorem Region.apart_of_stop {r s : Region} (hr : r.Ok) (hs : s.Ok) (h : ¬ (r.addr < s.stop ∧ s.addr < r.stop)) :
    r.Apart s := by
  have h₁ := hr.stop_eq
  have h₂ := hs.stop_eq
  obtain ⟨hra, hr₀, -, -⟩ := hr
  obtain ⟨hsa, hs₀, -, -⟩ := hs
  unfold Region.Apart Region.pageEnd
  omega

/-! ### The table -/

/-- The list from `mmap_head` on is `l`: it has each used slot once, and `total_mmaps` is its
length. -/
structure Listed (mm : Mmaps) (l : List (Fin 16)) : Prop where
  /-- The list. -/
  linked : Linked mm.next mm.mmapHead l none
  /-- Each slot stands in it once. -/
  nodup : l.Nodup
  /-- The slots in it are those in use. -/
  used : ∀ i, i ∈ l ↔ (mm.mmaps i).addr ≠ 2 ^ 32 - 1
  /-- Its length is counted. -/
  total : mm.totalMmaps = l.length

/-- The table is in order: the regions in the list are in range and have no page in common. -/
structure Table (mm : Mmaps) (l : List (Fin 16)) : Prop extends Listed mm l where
  /-- The regions are in range. -/
  region : ∀ i ∈ l, (mm.mmaps i).Ok
  /-- They have no page in common. -/
  apart : ∀ i ∈ l, ∀ j ∈ l, i ≠ j → (mm.mmaps i).Apart (mm.mmaps j)

/-- No region is empty, and the list is sorted. -/
structure Strict (mm : Mmaps) (l : List (Fin 16)) : Prop where
  /-- No region is empty. -/
  pos : ∀ i ∈ l, 0 < (mm.mmaps i).length
  /-- The list is sorted. -/
  sorted : l.Pairwise fun i j => (mm.mmaps i).addr < (mm.mmaps j).addr

section

variable {mm mm' : Mmaps} {l l₁ l₂ : List (Fin 16)} {i j m : Fin 16} {r : Region}

theorem Listed.length_le (h : Listed mm l) : l.length ≤ 16 := by
  simpa using h.nodup.length_le_card

/-- A search along the list: it finds nothing, or the first region with the property. -/
theorem Listed.find (h : Listed mm l) (stop : Region → Bool) :
    (mm.find stop = some (l.getLast?, none) ∧ ∀ i ∈ l, stop (mm.mmaps i) = false) ∨
      ∃ l₁ i l₂, l = l₁ ++ i :: l₂ ∧ (∀ j ∈ l₁, stop (mm.mmaps j) = false) ∧ stop (mm.mmaps i) = true ∧
        mm.find stop = some (l₁.getLast?, some i) := by
  obtain ⟨l₁, l₂, rfl, h₁, h₂, hs⟩ := seek_spec (fun i => stop (mm.mmaps i)) none h.linked h.length_le
  rw [Option.or_none] at hs
  cases l₂ with
  | nil => exact .inl ⟨by simpa [Mmaps.find] using hs, by simpa using h₁⟩
  | cons i l₂ => exact .inr ⟨l₁, i, l₂, rfl, h₁, h₂ i rfl, hs⟩

theorem findUnusedMmap_some (h : findUnusedMmap mm = some i) : (mm.mmaps i).addr = 2 ^ 32 - 1 := by
  simpa using List.find?_some h

/-- Where no slot is found, all are in use. -/
theorem findUnusedMmap_none (h : findUnusedMmap mm = none) (i : Fin 16) : (mm.mmaps i).addr ≠ 2 ^ 32 - 1 := by
  have := List.find?_eq_none.mp h i (List.mem_finRange i)
  simpa using this

theorem Listed.not_mem_of_unused (h : Listed mm l) (hi : findUnusedMmap mm = some i) : i ∉ l := fun hm =>
  (h.used i).mp hm (findUnusedMmap_some hi)

/-- A write to a region of the list that leaves it in use. -/
theorem Listed.set (h : Listed mm l) (hi : i ∈ l) (hr : r.addr ≠ 2 ^ 32 - 1) : Listed (mm.set i r) l where
  linked := h.linked
  nodup := h.nodup
  used j := by
    by_cases hj : j = i
    · subst hj
      simpa [Mmaps.set, hi] using hr
    · simpa [Mmaps.set, hj] using h.used j
  total := h.total

theorem Region.Ok.addr_ne (h : r.Ok) : r.addr ≠ 2 ^ 32 - 1 := by
  obtain ⟨-, h₀, -, h₁⟩ := h
  omega

/-- A write to a region of the list that leaves it in range and apart from the others. -/
theorem Table.set (h : Table mm l) (hi : i ∈ l) (hr : r.Ok) (ha : ∀ j ∈ l, j ≠ i → r.Apart (mm.mmaps j)) :
    Table (mm.set i r) l where
  toListed := h.toListed.set hi hr.addr_ne
  region j hj := by
    by_cases hji : j = i
    · subst hji
      simpa [Mmaps.set] using hr
    · simpa [Mmaps.set, hji] using h.region j hj
  apart j hj j' hj' hne := by
    by_cases hji : j = i
    · subst hji
      simpa [Mmaps.set, hne.symm] using ha j' hj' hne.symm
    · by_cases hji' : j' = i
      · subst hji'
        simpa [Mmaps.set, hji] using (ha j hj hji).symm
      · simpa [Mmaps.set, hji, hji'] using h.apart j hj j' hj' hne

/-- A write to fields other than the address and the length. -/
theorem Table.set_same (h : Table mm l) (hi : i ∈ l) (haddr : r.addr = (mm.mmaps i).addr)
    (hlen : r.length = (mm.mmaps i).length) : Table (mm.set i r) l := by
  refine h.set hi ?_ ?_
  · have := h.region i hi
    exact ⟨by rw [haddr]; exact this.aligned, by rw [hlen]; exact this.nonneg, by rw [haddr]; exact this.lo,
      by rw [haddr, hlen]; exact this.hi⟩
  · intro j hj hne
    have := h.apart i hi j hj hne.symm
    unfold Region.Apart Region.pageEnd at this ⊢
    rwa [haddr, hlen]

theorem Strict.set_same (h : Strict mm l) (haddr : r.addr = (mm.mmaps i).addr)
    (hlen : r.length = (mm.mmaps i).length) : Strict (mm.set i r) l := by
  have ha (j : Fin 16) : ((mm.set i r).mmaps j).addr = (mm.mmaps j).addr := by
    by_cases hj : j = i
    · subst hj
      simpa [Mmaps.set] using haddr
    · simp [Mmaps.set, hj]
  have hl (j : Fin 16) : ((mm.set i r).mmaps j).length = (mm.mmaps j).length := by
    by_cases hj : j = i
    · subst hj
      simpa [Mmaps.set] using hlen
    · simp [Mmaps.set, hj]
  exact ⟨fun j hj => by rw [hl]; exact h.pos j hj, by simpa only [ha] using h.sorted⟩

end

theorem listed_init : Listed initMmaps [] where
  linked := rfl
  nodup := List.nodup_nil
  used i := by simp [initMmaps, initOneMmap]
  total := rfl

theorem table_init : Table initMmaps [] where
  toListed := listed_init
  region i hi := by cases hi
  apart i hi := by cases hi

theorem strict_init : Strict initMmaps [] := ⟨by simp, List.Pairwise.nil⟩

end SdeSystems.Wmap
