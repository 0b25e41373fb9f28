import SdeSystems.Names.Directory
import SdeSystems.Lib.Simulation
import Mathlib.Data.Set.Card
import Mathlib.Tactic.Linarith

/-!
# A directory is a map

The entries of a directory are a finite map from names to inodes (`IsDir`): `dirlookup`, `dirlink` and what
`sys_unlink` does are a lookup, an insertion and a removal, whatever the order of the calls (`directory_map`). A
directory has room for 4480 names, and only where it has all of them does `dirlink` panic (`dirlink_panics_iff`).
-/

namespace SdeSystems.Names

open Function Lib

/-- The number of the inode in the entry `k`. -/
def entryNum (bytes : Chars) (k : ℕ) : ℕ := (bytes (16 * k)).toNat + 2 ^ 8 * (bytes (16 * k + 1)).toNat

/-- The name in the entry `k`. -/
def entryName (bytes : Chars) (k : ℕ) : List UInt8 := text fun i => bytes (16 * k + (i + 2))

/-- The directory has these names, each once. -/
structure IsDir (dp : Wmap.Inode) (size : ℕ) (bytes : Chars) (m : List UInt8 → Option ℕ) : Prop where
  /-- It is a file. -/
  file : dp = .regular size bytes
  /-- It has whole entries. -/
  whole : 16 ∣ size
  /-- It is not too long. -/
  short : size ≤ Wmap.maxFileSize
  /-- No name is there twice. -/
  distinct : ∀ j k, 16 * j < size → 16 * k < size → entryNum bytes j ≠ 0 → entryNum bytes k ≠ 0 →
    entryName bytes j = entryName bytes k → j = k
  /-- The names and what they stand for. -/
  names : ∀ nm i, m nm = some i ↔ ∃ k, 16 * k < size ∧ entryNum bytes k = i ∧ i ≠ 0 ∧ entryName bytes k = nm

variable {dp dp' : Wmap.Inode} {size fuel j k inum off : ℕ} {bytes d name old : Chars} {m : List UInt8 → Option ℕ} {r : ℤ}

theorem maxFileSize_eq : Wmap.maxFileSize = 71680 := rfl

/-! ### The loops -/

/-- An entry is read. -/
theorem readDirent_eq (bytes : Chars) (k : ℕ) (hk : 16 * k + 16 ≤ size) (hsize : size ≤ Wmap.maxFileSize) :
    ∃ de, readDirent (.regular size bytes) (16 * k) = some de ∧ de.inum = entryNum bytes k ∧
      text de.name = entryName bytes k := by
  rw [maxFileSize_eq] at hsize
  have hread : Wmap.readi (.regular size bytes) (16 * k) direntSize =
      some (.regular size bytes, some ((List.range 16).map fun i => bytes (16 * k + i))) := by
    have hok : ¬ (size < 16 * k ∨ 2 ^ 32 ≤ 16 * k + direntSize) := by
      rw [direntSize]
      omega
    have hmin : min direntSize (size - 16 * k) = 16 := by
      rw [direntSize]
      omega
    simp only [Wmap.readi]
    rw [if_neg hok, hmin]
  simp only [readDirent, hread]
  rw [if_pos (by rw [List.length_map, List.length_range]; rfl)]
  have hget {i : ℕ} (hi : i < 16) : ((List.range 16).map fun i => bytes (16 * k + i)).getD i 0 = bytes (16 * k + i) := by
    rw [List.getD_eq_getElem?_getD, List.getElem?_map, List.getElem?_range hi]
    rfl
  refine ⟨_, rfl, ?_, ?_⟩
  · dsimp only
    rw [hget (by omega), hget (by omega)]
    rfl
  · simp only [text, entryName]
    refine textFrom_congr fun i _ hi => ?_
    rw [dirSiz] at hi
    exact hget (by omega)

/-- `dirlookup` from an entry on. -/
theorem dirlookupFrom_spec (bytes name : Chars) (fuel k : ℕ) (hsize : size ≤ Wmap.maxFileSize) (hwhole : 16 ∣ size) (hfuel : size < 16 * k + fuel) :
    (∃ j, k ≤ j ∧ 16 * j < size ∧ entryNum bytes j ≠ 0 ∧ entryName bytes j = text name ∧
        dirlookupFrom (.regular size bytes) name fuel (16 * k) = some (some (entryNum bytes j, 16 * j))) ∨
      (∀ j, k ≤ j → 16 * j < size → entryNum bytes j ≠ 0 → entryName bytes j ≠ text name) ∧
        dirlookupFrom (.regular size bytes) name fuel (16 * k) = some none ∨ size < 16 * k := by
  induction fuel generalizing k with
  | zero => exact .inr (.inr (by omega))
  | succ fuel ih =>
    by_cases hlt : 16 * k < size
    · obtain ⟨de, hde, hnum, hname⟩ := readDirent_eq bytes k (by omega) hsize
      have hval : dirlookupFrom (.regular size bytes) name (fuel + 1) (16 * k) =
          if entryNum bytes k = 0 then dirlookupFrom (.regular size bytes) name fuel (16 * (k + 1))
          else if namecmp name de.name = 0 then some (some (entryNum bytes k, 16 * k))
          else dirlookupFrom (.regular size bytes) name fuel (16 * (k + 1)) := by
        rw [dirlookupFrom, if_pos (show 16 * k < dirSize (.regular size bytes) from hlt), hde, ← hnum]
        rfl
      rw [hval]
      -- The entry is not the one, and the loop goes on.
      have hgo (hnot : entryNum bytes k ≠ 0 → entryName bytes k ≠ text name) :
          (∃ j, k ≤ j ∧ 16 * j < size ∧ entryNum bytes j ≠ 0 ∧ entryName bytes j = text name ∧
            dirlookupFrom (.regular size bytes) name fuel (16 * (k + 1)) = some (some (entryNum bytes j, 16 * j))) ∨
          (∀ j, k ≤ j → 16 * j < size → entryNum bytes j ≠ 0 → entryName bytes j ≠ text name) ∧
            dirlookupFrom (.regular size bytes) name fuel (16 * (k + 1)) = some none := by
        rcases ih (k + 1) (by omega) with ⟨j, hj, hrest⟩ | ⟨hall, hnone⟩ | hend
        · exact .inl ⟨j, by omega, hrest⟩
        · refine .inr ⟨?_, hnone⟩
          intro j hj
          rcases Nat.lt_or_eq_of_le hj with hj | rfl
          · exact hall j hj
          · intro _
            exact hnot
        · omega
      by_cases hz : entryNum bytes k = 0
      · rw [if_pos hz]
        exact (hgo fun h => absurd hz h).imp_right .inl
      · rw [if_neg hz]
        by_cases heq : namecmp name de.name = 0
        · rw [if_pos heq]
          refine .inl ⟨k, le_rfl, hlt, hz, ?_, rfl⟩
          rw [← hname]
          exact (namecmp_eq_zero.mp heq).symm
        · rw [if_neg heq]
          refine (hgo fun _ h => heq (namecmp_eq_zero.mpr ?_)).imp_right .inl
          rw [hname, h]
    · rcases Nat.lt_or_eq_of_le (Nat.not_lt.mp hlt) with hlt' | heq
      · exact .inr (.inr hlt')
      · refine .inr (.inl ⟨fun j hj hj' => by omega, ?_⟩)
        rw [dirlookupFrom, if_neg (show ¬ 16 * k < dirSize (.regular size bytes) from hlt)]

/-- The loop of `dirlink` from an entry on. -/
theorem emptyFrom_spec (bytes : Chars) (fuel k : ℕ) (hsize : size ≤ Wmap.maxFileSize) (hwhole : 16 ∣ size) (hfuel : size < 16 * k + fuel)
    (hk : 16 * k ≤ size) :
    ∃ j, emptyFrom (.regular size bytes) fuel (16 * k) = some (16 * j) ∧
      (16 * j < size ∧ entryNum bytes j = 0 ∨
        16 * j = size ∧ ∀ i, k ≤ i → 16 * i < size → entryNum bytes i ≠ 0) := by
  induction fuel generalizing k with
  | zero => omega
  | succ fuel ih =>
    by_cases hlt : 16 * k < size
    · obtain ⟨de, hde, hnum, -⟩ := readDirent_eq bytes k (by omega) hsize
      have hval : emptyFrom (.regular size bytes) (fuel + 1) (16 * k) =
          if entryNum bytes k = 0 then some (16 * k) else emptyFrom (.regular size bytes) fuel (16 * (k + 1)) := by
        rw [emptyFrom, if_pos (show 16 * k < dirSize (.regular size bytes) from hlt), hde, ← hnum]
        rfl
      rw [hval]
      by_cases hz : entryNum bytes k = 0
      · rw [if_pos hz]
        exact ⟨k, rfl, .inl ⟨hlt, hz⟩⟩
      · rw [if_neg hz]
        obtain ⟨j, hj, hcase⟩ := ih (k + 1) (by omega) (by omega)
        refine ⟨j, hj, hcase.imp_right ?_⟩
        rintro ⟨hend, hall⟩
        refine ⟨hend, ?_⟩
        intro i hi
        rcases Nat.lt_or_eq_of_le hi with hi | rfl
        · exact hall i hi
        · intro _
          exact hz
    · refine ⟨k, ?_, .inr ⟨by omega, fun i hi hi' => by omega⟩⟩
      rw [emptyFrom, if_neg (show ¬ 16 * k < dirSize (.regular size bytes) from hlt)]

/-! ### Writing an entry -/

/-- The bytes after the entry `j` is written. -/
def putEntry (bytes d : Chars) (j : ℕ) : Chars := fun x => if 16 * j ≤ x ∧ x < 16 * j + 16 then d (x - 16 * j) else bytes x

theorem entryNum_put : entryNum (putEntry bytes d j) k = if k = j then (d 0).toNat + 2 ^ 8 * (d 1).toNat else entryNum bytes k := by
  simp only [entryNum, putEntry]
  by_cases hkj : k = j
  · subst hkj
    rw [if_pos (by omega), if_pos (by omega), if_pos rfl, Nat.sub_self, Nat.add_sub_cancel_left]
  · rw [if_neg (by omega), if_neg (by omega), if_neg hkj]

theorem entryName_put :
    entryName (putEntry bytes d j) k = if k = j then text fun i => d (i + 2) else entryName bytes k := by
  by_cases hkj : k = j
  · subst hkj
    rw [if_pos rfl]
    simp only [entryName, text]
    refine textFrom_congr fun i _ hi => ?_
    rw [dirSiz] at hi
    simp only [putEntry]
    rw [if_pos (by omega), Nat.add_sub_cancel_left]
  · rw [if_neg hkj]
    simp only [entryName, text]
    refine textFrom_congr fun i _ hi => ?_
    rw [dirSiz] at hi
    simp only [putEntry]
    rw [if_neg (by omega)]

/-- The size of the directory with the entry `j`. -/
def sizeWith (size j : ℕ) : ℕ := if size < 16 * j + 16 then 16 * j + 16 else size

theorem writei_entry (hj : 16 * j ≤ size) (hmax : 16 * j + 16 ≤ Wmap.maxFileSize) :
    Wmap.writei (.regular size bytes) d (16 * j) direntSize = (.regular (sizeWith size j) (putEntry bytes d j), 16) := by
  have hmax' := hmax
  rw [maxFileSize_eq] at hmax'
  have hok : ¬ (size < 16 * j ∨ 2 ^ 32 ≤ 16 * j + direntSize) := by
    rw [direntSize]
    omega
  have hfit : ¬ Wmap.maxFileSize < 16 * j + direntSize := Nat.not_lt.mpr hmax
  have hsize : (if 0 < direntSize ∧ size < 16 * j + direntSize then 16 * j + direntSize else size) = sizeWith size j := by
    simp only [sizeWith, direntSize]
    simp
  simp only [Wmap.writei]
  rw [if_neg hok, if_neg hfit, hsize]
  rfl

/-- A name is put into an entry that was empty. -/
theorem IsDir.put (h : IsDir dp size bytes m) (hj : 16 * j < size ∧ entryNum bytes j = 0 ∨ 16 * j = size)
    (hmax : 16 * j + 16 ≤ Wmap.maxFileSize) (hnum : (d 0).toNat + 2 ^ 8 * (d 1).toNat ≠ 0)
    (hnew : m (text fun i => d (i + 2)) = none) :
    IsDir (.regular (sizeWith size j) (putEntry bytes d j)) (sizeWith size j) (putEntry bytes d j)
      (update m (text fun i => d (i + 2)) (some ((d 0).toNat + 2 ^ 8 * (d 1).toNat))) := by
  have hwhole := h.whole
  have hshort := h.short
  have hlt {i : ℕ} : 16 * i < sizeWith size j ↔ i = j ∨ 16 * i < size := by
    simp only [sizeWith]
    split
    · omega
    · omega
  have hfresh {i : ℕ} (hi : 16 * i < size) (hi' : entryNum bytes i ≠ 0) : entryName bytes i ≠ text fun i => d (i + 2) := by
    intro heq
    have := (h.names _ _).mpr ⟨i, hi, rfl, hi', heq⟩
    rw [hnew] at this
    cases this
  refine ⟨rfl, ?_, ?_, ?_, ?_⟩
  · simp only [sizeWith]
    split
    · omega
    · exact hwhole
  · simp only [sizeWith]
    split
    · exact hmax
    · exact hshort
  · intro a b ha hb
    rw [hlt] at ha hb
    rw [entryNum_put, entryNum_put, entryName_put, entryName_put]
    by_cases haj : a = j
    · by_cases hbj : b = j
      · intro _ _ _
        rw [haj, hbj]
      · rw [if_pos haj, if_neg hbj, if_pos haj, if_neg hbj]
        intro _ hb' heq
        exact absurd heq.symm (hfresh (hb.resolve_left hbj) hb')
    · by_cases hbj : b = j
      · rw [if_neg haj, if_pos hbj, if_neg haj, if_pos hbj]
        intro ha' _ heq
        exact absurd heq (hfresh (ha.resolve_left haj) ha')
      · rw [if_neg haj, if_neg hbj, if_neg haj, if_neg hbj]
        exact h.distinct a b (ha.resolve_left haj) (hb.resolve_left hbj)
  · intro nm i
    by_cases hnm : nm = text fun i => d (i + 2)
    · subst hnm
      rw [update_self]
      constructor
      · intro hi
        obtain rfl := Option.some.inj hi
        exact ⟨j, hlt.mpr (.inl rfl), by rw [entryNum_put, if_pos rfl], hnum, by rw [entryName_put, if_pos rfl]⟩
      · rintro ⟨k, hk, hki, hi, hname⟩
        rw [hlt] at hk
        rw [entryNum_put] at hki
        rw [entryName_put] at hname
        by_cases hkj : k = j
        · rw [if_pos hkj] at hki
          rw [hki]
        · rw [if_neg hkj] at hki hname
          exact absurd hname (hfresh (hk.resolve_left hkj) (hki ▸ hi))
    · rw [update_of_ne hnm, h.names]
      constructor
      · rintro ⟨k, hk, hki, hi, hname⟩
        have hkj : k ≠ j := by
          rintro rfl
          rcases hj with ⟨-, hz⟩ | hj
          · exact hi (hki.symm.trans hz)
          · omega
        exact ⟨k, hlt.mpr (.inr hk), by rw [entryNum_put, if_neg hkj, hki], hi, by rw [entryName_put, if_neg hkj, hname]⟩
      · rintro ⟨k, hk, hki, hi, hname⟩
        rw [hlt] at hk
        rw [entryNum_put] at hki
        rw [entryName_put] at hname
        by_cases hkj : k = j
        · rw [if_pos hkj] at hname
          exact absurd hname.symm hnm
        · rw [if_neg hkj] at hki hname
          exact ⟨k, hk.resolve_left hkj, hki, hi, hname⟩

/-- An entry is made empty. -/
theorem IsDir.clear (h : IsDir dp size bytes m) (hj : 16 * j < size) (hnum : entryNum bytes j ≠ 0)
    (hz : (d 0).toNat + 2 ^ 8 * (d 1).toNat = 0) :
    IsDir (.regular (sizeWith size j) (putEntry bytes d j)) (sizeWith size j) (putEntry bytes d j)
      (update m (entryName bytes j) none) := by
  have hwhole := h.whole
  have hsize : sizeWith size j = size := by
    simp only [sizeWith]
    rw [if_neg]
    omega
  rw [hsize]
  refine ⟨rfl, hwhole, h.short, ?_, ?_⟩
  · intro a b ha hb
    rw [entryNum_put, entryNum_put, entryName_put, entryName_put]
    by_cases haj : a = j
    · rw [if_pos haj, hz]
      intro hne
      exact absurd rfl hne
    · by_cases hbj : b = j
      · rw [if_pos hbj, hz]
        intro _ hne
        exact absurd rfl hne
      · rw [if_neg haj, if_neg hbj, if_neg haj, if_neg hbj]
        exact h.distinct a b ha hb
  · intro nm i
    by_cases hnm : nm = entryName bytes j
    · subst hnm
      rw [update_self]
      constructor
      · intro hi
        cases hi
      · rintro ⟨k, hk, hki, hi, hname⟩
        rw [entryNum_put] at hki
        rw [entryName_put] at hname
        by_cases hkj : k = j
        · rw [if_pos hkj, hz] at hki
          exact absurd hki.symm hi
        · rw [if_neg hkj] at hki hname
          exact absurd (h.distinct k j hk hj (hki ▸ hi) hnum hname) hkj
    · rw [update_of_ne hnm, h.names]
      constructor
      · rintro ⟨k, hk, hki, hi, hname⟩
        have hkj : k ≠ j := by
          rintro rfl
          exact hnm hname.symm
        exact ⟨k, hk, by rw [entryNum_put, if_neg hkj, hki], hi, by rw [entryName_put, if_neg hkj, hname]⟩
      · rintro ⟨k, hk, hki, hi, hname⟩
        rw [entryNum_put] at hki
        rw [entryName_put] at hname
        by_cases hkj : k = j
        · rw [if_pos hkj, hz] at hki
          exact absurd hki.symm hi
        · rw [if_neg hkj] at hki hname
          exact ⟨k, hk, hki, hi, hname⟩

/-! ### The calls -/

/-- `dirlookup` finds what the map has. -/
theorem IsDir.lookup (h : IsDir dp size bytes m) (name : Chars) :
    dirlookup dp name = some none ∧ m (text name) = none ∨
      ∃ j, dirlookup dp name = some (some (entryNum bytes j, 16 * j)) ∧ m (text name) = some (entryNum bytes j) ∧
        16 * j < size ∧ entryNum bytes j ≠ 0 ∧ entryName bytes j = text name := by
  obtain ⟨rfl, hwhole, hshort, -, hnames⟩ := h
  rcases dirlookupFrom_spec bytes name (size + 1) 0 hshort hwhole (by omega) with
    ⟨j, -, hj, hnum, hname, heq⟩ | ⟨hall, heq⟩ | hend
  · exact .inr ⟨j, heq, (hnames _ _).mpr ⟨j, hj, rfl, hnum, hname⟩, hj, hnum, hname⟩
  · refine .inl ⟨heq, ?_⟩
    rw [Option.eq_none_iff_forall_not_mem]
    intro i hi
    obtain ⟨k, hk, rfl, hne, hname⟩ := (hnames _ _).mp hi
    exact hall k (Nat.zero_le k) hk hne hname
  · omega

/-- The directory has as many names as it has room for. -/
def IsFull (m : List UInt8 → Option ℕ) : Prop := {nm | m nm ≠ none}.ncard = 4480

/-- The entries that are not empty. -/
def liveEntries (size : ℕ) (bytes : Chars) : Finset ℕ :=
  (Finset.range (size / 16)).filter fun k => entryNum bytes k ≠ 0

theorem mem_liveEntries : k ∈ liveEntries size bytes ↔ k < size / 16 ∧ entryNum bytes k ≠ 0 := by
  rw [liveEntries, Finset.mem_filter, Finset.mem_range]

/-- There are as many names as entries that are not empty. -/
theorem IsDir.ncard (h : IsDir dp size bytes m) : {nm | m nm ≠ none}.ncard = (liveEntries size bytes).card := by
  have hwhole := h.whole
  have hset : {nm | m nm ≠ none} = ((liveEntries size bytes).image (entryName bytes) : Finset (List UInt8)) := by
    ext nm
    rw [Set.mem_ofPred_eq, Finset.coe_image, Set.mem_image, Option.ne_none_iff_exists']
    constructor
    · rintro ⟨i, hi⟩
      obtain ⟨k, hk, rfl, hne, hname⟩ := (h.names _ _).mp hi
      exact ⟨k, by rw [Finset.mem_coe, mem_liveEntries]; exact ⟨by omega, hne⟩, hname⟩
    · rintro ⟨k, hk, hname⟩
      rw [Finset.mem_coe, mem_liveEntries] at hk
      exact ⟨_, (h.names _ _).mpr ⟨k, by omega, rfl, hk.2, hname⟩⟩
  rw [hset, Set.ncard_coe_finset, Finset.card_image_of_injOn]
  intro a ha b hb heq
  rw [Finset.mem_coe, mem_liveEntries] at ha hb
  exact h.distinct a b (by omega) (by omega) ha.2 hb.2 heq

/-- It is full where it has its greatest size, and no entry is empty. -/
theorem IsDir.full_iff (h : IsDir dp size bytes m) :
    IsFull m ↔ size = Wmap.maxFileSize ∧ ∀ k, 16 * k < size → entryNum bytes k ≠ 0 := by
  have hwhole := h.whole
  have hshort := h.short
  rw [maxFileSize_eq] at hshort ⊢
  have hle : (liveEntries size bytes).card ≤ size / 16 := by
    refine (Finset.card_filter_le _ _).trans ?_
    rw [Finset.card_range]
  rw [IsFull, h.ncard]
  constructor
  · intro hcard
    have hsize : size = 71680 := by omega
    refine ⟨hsize, ?_⟩
    have hall : liveEntries size bytes = Finset.range (size / 16) :=
      Finset.eq_of_subset_of_card_le (Finset.filter_subset _ _) (by rw [Finset.card_range]; omega)
    intro k hk
    have hmem : k ∈ liveEntries size bytes := by
      rw [hall, Finset.mem_range]
      omega
    exact (mem_liveEntries.mp hmem).2
  · rintro ⟨rfl, hall⟩
    have hrange : liveEntries 71680 bytes = Finset.range 4480 := by
      ext k
      rw [mem_liveEntries, Finset.mem_range]
      exact ⟨fun hk => hk.1, fun hk => ⟨hk, hall k (by omega)⟩⟩
    rw [hrange, Finset.card_range]

/-- The bytes of an entry for an inode whose number is a `ushort`. -/
theorem dirent_num (de : Dirent) (h : de.inum < 2 ^ 16) : (de.bytes 0).toNat + 2 ^ 8 * (de.bytes 1).toNat = de.inum := by
  simp only [Dirent.bytes, UInt8.toNat_ofNat']
  omega

/-- **`dirlink`** puts a name in that is not there, where there is room for it. -/
theorem IsDir.link (h : IsDir dp size bytes m) (name old : Chars) (inum : ℕ) (hnum : inum % 2 ^ 16 ≠ 0) :
    m (text name) ≠ none ∧ dirlink dp name inum old = some (dp, -1) ∨
      m (text name) = none ∧ IsFull m ∧ dirlink dp name inum old = none ∨
      m (text name) = none ∧ ¬ IsFull m ∧ ∃ size' bytes',
        dirlink dp name inum old = some (.regular size' bytes', 0) ∧
          IsDir (.regular size' bytes') size' bytes' (update m (text name) (some (inum % 2 ^ 16))) := by
  have hwhole := h.whole
  have hshort := h.short
  rcases h.lookup name with ⟨hlookup, hm⟩ | ⟨j, hlookup, hm, -⟩
  · refine .inr ?_
    have hfile := h.file
    obtain ⟨j, hj, hcase⟩ := emptyFrom_spec bytes (size + 1) 0 hshort hwhole (by omega) (by omega)
    obtain ⟨de, hde⟩ : ∃ de : Dirent, de = ⟨inum % 2 ^ 16, strncpy old name dirSiz⟩ := ⟨_, rfl⟩
    have hde' : de.inum = inum % 2 ^ 16 := by rw [hde]
    have hde'' : (text fun i => de.bytes (i + 2)) = text name := by
      rw [hde]
      exact text_strncpy
    have hempty : emptyFrom dp (dirSize dp + 1) 0 = some (16 * j) := by
      rw [hfile]
      exact hj
    have hlink : dirlink dp name inum old =
        (if (Wmap.writei dp de.bytes (16 * j) direntSize).2 ≠ direntSize then none
          else some ((Wmap.writei dp de.bytes (16 * j) direntSize).1, 0)) := by
      simp only [dirlink, hlookup, hempty, hde]
    by_cases hmax : 16 * j + 16 ≤ Wmap.maxFileSize
    · refine .inr ⟨hm, ?_, sizeWith size j, putEntry bytes de.bytes j, ?_, ?_⟩
      · rw [h.full_iff]
        rintro ⟨rfl, hall⟩
        rcases hcase with ⟨hlt, hz⟩ | ⟨hend, -⟩
        · exact hall j hlt hz
        · omega
      · rw [hlink, hfile, writei_entry (by omega) hmax]
        rfl
      · have hput := h.put (d := de.bytes) (hcase.imp_right And.left) hmax
          (by rw [dirent_num de (by omega), hde']; exact hnum) (by rw [hde'']; exact hm)
        rwa [dirent_num de (by omega), hde'', hde'] at hput
    · refine .inl ⟨hm, ?_, ?_⟩
      · rw [h.full_iff]
        rw [maxFileSize_eq] at hmax hshort ⊢
        rcases hcase with ⟨hlt, -⟩ | ⟨hend, hall⟩
        · omega
        · exact ⟨by omega, fun k hk => hall k (Nat.zero_le k) hk⟩
      · have hlong : Wmap.maxFileSize < 16 * j + direntSize := Nat.not_le.mp hmax
        have hrefused : Wmap.writei dp de.bytes (16 * j) direntSize = (dp, -1) := by
          rw [hfile]
          simp only [Wmap.writei]
          rw [if_pos hlong, ite_self]
        rw [hlink, hrefused]
        rfl
  · refine .inl ⟨?_, ?_⟩
    · rw [hm]
      exact Option.some_ne_none _
    · simp only [dirlink, hlookup]

/-- **What `sys_unlink` does** takes a name out that is there. -/
theorem IsDir.unlink (h : IsDir dp size bytes m) (name : Chars) :
    m (text name) = none ∧ dirunlink dp name = some (dp, -1) ∨
      m (text name) ≠ none ∧ ∃ bytes', dirunlink dp name = some (.regular size bytes', 0) ∧
        IsDir (.regular size bytes') size bytes' (update m (text name) none) := by
  have hwhole := h.whole
  rcases h.lookup name with ⟨hlookup, hm⟩ | ⟨j, hlookup, hm, hj, hnum, hname⟩
  · exact .inl ⟨hm, by simp only [dirunlink, hlookup]⟩
  · have hshort := h.short
    have hsize : sizeWith size j = size := by
      simp only [sizeWith]
      rw [if_neg]
      omega
    have hwrite : Wmap.writei dp (fun _ => 0) (16 * j) direntSize =
        (.regular size (putEntry bytes (fun _ => 0) j), 16) := by
      rw [h.file, writei_entry hj.le (by omega), hsize]
    have hclear := h.clear (d := fun _ => 0) hj hnum rfl
    rw [hsize, hname] at hclear
    refine .inr ⟨?_, putEntry bytes (fun _ => 0) j, ?_, hclear⟩
    · rw [hm]
      exact Option.some_ne_none _
    · simp only [dirunlink, hlookup, dirclear, hwrite]
      rfl

/-- `isdirempty` from an entry on. -/
theorem isdiremptyFrom_spec (bytes : Chars) (fuel k : ℕ) (hsize : size ≤ Wmap.maxFileSize) (hwhole : 16 ∣ size)
    (hfuel : size < 16 * k + fuel) :
    size < 16 * k ∨ ∃ b, isdiremptyFrom (.regular size bytes) fuel (16 * k) = some b ∧
      (b = true ↔ ∀ i, k ≤ i → 16 * i < size → entryNum bytes i = 0) := by
  induction fuel generalizing k with
  | zero => exact .inl (by omega)
  | succ fuel ih =>
    by_cases hlt : 16 * k < size
    · obtain ⟨de, hde, hnum, -⟩ := readDirent_eq bytes k (by omega) hsize
      have hval : isdiremptyFrom (.regular size bytes) (fuel + 1) (16 * k) =
          if entryNum bytes k ≠ 0 then some false else isdiremptyFrom (.regular size bytes) fuel (16 * (k + 1)) := by
        rw [isdiremptyFrom, if_pos (show 16 * k < dirSize (.regular size bytes) from hlt), hde, ← hnum]
        rfl
      rw [hval]
      by_cases hz : entryNum bytes k = 0
      · rw [if_neg (not_not.mpr hz)]
        obtain ⟨b, hb, hiff⟩ := (ih (k + 1) (by omega)).resolve_left (by omega)
        refine .inr ⟨b, hb, hiff.trans ?_⟩
        constructor
        · intro hall i hi
          rcases Nat.lt_or_eq_of_le hi with hi | rfl
          · exact hall i hi
          · intro _
            exact hz
        · intro hall i hi
          exact hall i (by omega)
      · rw [if_pos hz]
        exact .inr ⟨false, rfl, fun h => (by cases h), fun hall => absurd (hall k le_rfl hlt) hz⟩
    · rcases Nat.lt_or_eq_of_le (Nat.not_lt.mp hlt) with hlt' | heq
      · exact .inl hlt'
      · refine .inr ⟨true, ?_, fun _ i hi hi' => by omega, fun _ => rfl⟩
        rw [isdiremptyFrom, if_neg (show ¬ 16 * k < dirSize (.regular size bytes) from hlt)]

/-- **`isdirempty`**: the directory, whose first two entries are `.` and `..`, has no other names. -/
theorem IsDir.isdirempty (h : IsDir dp size bytes m) (hsize : 32 ≤ size) (h₀ : entryNum bytes 0 ≠ 0)
    (h₁ : entryNum bytes 1 ≠ 0) : ∃ b, isdirempty dp = some b ∧
      (b = true ↔ ∀ nm, m nm ≠ none → nm = entryName bytes 0 ∨ nm = entryName bytes 1) := by
  have hfile := h.file
  obtain ⟨b, hb, hiff⟩ := (isdiremptyFrom_spec bytes (size + 1) 2 h.short h.whole (by omega)).resolve_left (by omega)
  refine ⟨b, ?_, hiff.trans ?_⟩
  · rw [hfile]
    exact hb
  · constructor
    · intro hall nm hnm
      obtain ⟨i, hi⟩ := Option.ne_none_iff_exists'.mp hnm
      obtain ⟨k, hk, rfl, hne, rfl⟩ := (h.names _ _).mp hi
      rcases Nat.lt_or_ge k 2 with hlt | hge
      · rcases Nat.lt_or_ge k 1 with hlt' | hge'
        · obtain rfl : k = 0 := by omega
          exact .inl rfl
        · obtain rfl : k = 1 := by omega
          exact .inr rfl
      · exact absurd (hall k hge hk) hne
    · intro hall k hk hlt
      by_contra hne
      have hm := (h.names _ _).mpr ⟨k, hlt, rfl, hne, rfl⟩
      rcases hall _ (by rw [hm]; exact Option.some_ne_none _) with heq | heq
      · have := h.distinct k 0 hlt (by omega) hne h₀ heq
        omega
      · have := h.distinct k 1 hlt (by omega) hne h₁ heq
        omega

/-! ### Any calls in any order -/

/-- A call for a name, with what it returns. -/
inductive DirCall
  /-- `dirlookup`. -/
  | lookup (nm : List UInt8) (r : Option ℕ)
  /-- `dirlink`. -/
  | link (nm : List UInt8) (inum : ℕ) (r : ℤ)
  /-- What `sys_unlink` does. -/
  | unlink (nm : List UInt8) (r : ℤ)

/-- A call for a directory. -/
inductive DirStep : Wmap.Inode → DirCall → Wmap.Inode → Prop
  /-- `dirlookup`. -/
  | lookup {dp : Wmap.Inode} {r : Option (ℕ × ℕ)} (name : Chars) (h : dirlookup dp name = some r) :
      DirStep dp (.lookup (text name) (r.map Prod.fst)) dp
  /-- `dirlink`, of an inode whose number is not 0. -/
  | link {dp dp' : Wmap.Inode} {inum : ℕ} {r : ℤ} (name old : Chars) (hnum : inum % 2 ^ 16 ≠ 0)
      (h : dirlink dp name inum old = some (dp', r)) : DirStep dp (.link (text name) (inum % 2 ^ 16) r) dp'
  /-- What `sys_unlink` does. -/
  | unlink {dp dp' : Wmap.Inode} {r : ℤ} (name : Chars) (h : dirunlink dp name = some (dp', r)) :
      DirStep dp (.unlink (text name) r) dp'

/-- A call for a map. -/
inductive MapStep : (List UInt8 → Option ℕ) → DirCall → (List UInt8 → Option ℕ) → Prop
  /-- A lookup. -/
  | lookup {m : List UInt8 → Option ℕ} (nm : List UInt8) : MapStep m (.lookup nm (m nm)) m
  /-- A new name. -/
  | link {m : List UInt8 → Option ℕ} {nm : List UInt8} (inum : ℕ) (h : m nm = none) :
      MapStep m (.link nm inum 0) (update m nm (some inum))
  /-- A name that is there. -/
  | there {m : List UInt8 → Option ℕ} {nm : List UInt8} (inum : ℕ) (h : m nm ≠ none) : MapStep m (.link nm inum (-1)) m
  /-- A name goes. -/
  | unlink {m : List UInt8 → Option ℕ} {nm : List UInt8} (h : m nm ≠ none) : MapStep m (.unlink nm 0) (update m nm none)
  /-- A name that is not there. -/
  | missing {m : List UInt8 → Option ℕ} {nm : List UInt8} (h : m nm = none) : MapStep m (.unlink nm (-1)) m

/-- One call. -/
theorem DirStep.map {c : DirCall} (hstep : DirStep dp c dp') (h : IsDir dp size bytes m) :
    ∃ size' bytes' m', MapStep m c m' ∧ IsDir dp' size' bytes' m' := by
  cases hstep with
  | lookup name hr =>
    refine ⟨size, bytes, m, ?_, h⟩
    rcases h.lookup name with ⟨hlookup, hm⟩ | ⟨j, hlookup, hm, -⟩
    · obtain rfl := Option.some.inj (hlookup.symm.trans hr)
      rw [Option.map_none, ← hm]
      exact .lookup _
    · obtain rfl := Option.some.inj (hlookup.symm.trans hr)
      rw [Option.map_some, ← hm]
      exact .lookup _
  | link name old hnum hr =>
    rcases h.link name old _ hnum with ⟨hm, hlink⟩ | ⟨-, -, hlink⟩ | ⟨hm, -, size', bytes', hlink, hdir⟩
    · obtain ⟨rfl, rfl⟩ := Prod.mk.inj (Option.some.inj (hlink.symm.trans hr))
      exact ⟨size, bytes, m, .there _ hm, h⟩
    · rw [hlink] at hr
      cases hr
    · obtain ⟨rfl, rfl⟩ := Prod.mk.inj (Option.some.inj (hlink.symm.trans hr))
      exact ⟨size', bytes', _, .link _ hm, hdir⟩
  | unlink name hr =>
    rcases h.unlink name with ⟨hm, hunlink⟩ | ⟨hm, bytes', hunlink, hdir⟩
    · obtain ⟨rfl, rfl⟩ := Prod.mk.inj (Option.some.inj (hunlink.symm.trans hr))
      exact ⟨size, bytes, m, .missing hm, h⟩
    · obtain ⟨rfl, rfl⟩ := Prod.mk.inj (Option.some.inj (hunlink.symm.trans hr))
      exact ⟨size, bytes', _, .unlink hm, hdir⟩

/-- **A directory is a map from names to inodes**: after any calls in any order it has the names that the map has
after them, each call returns what the map says, and the next call panics only if it is a `dirlink` of a new name
into a directory that has 4480 names, which always does. -/
theorem directory_map {es : List DirCall} (h : Accepts DirStep dp es dp') (h₀ : IsDir dp size bytes m) :
    ∃ m', Accepts MapStep m es m' ∧ (∃ size' bytes', IsDir dp' size' bytes' m') ∧
      ∀ name old inum, inum % 2 ^ 16 ≠ 0 →
        (dirlink dp' name inum old = none ↔ m' (text name) = none ∧ IsFull m') ∧ dirlookup dp' name ≠ none ∧
          dirunlink dp' name ≠ none := by
  obtain ⟨m', hm', size', bytes', hdir⟩ : ∃ m', Accepts MapStep m es m' ∧ ∃ size' bytes', IsDir dp' size' bytes' m' := by
    induction h with
    | refl => exact ⟨m, .refl m, size, bytes, h₀⟩
    | tail _ hs ih =>
      obtain ⟨m₁, hm₁, size₁, bytes₁, hdir₁⟩ := ih
      obtain ⟨size₂, bytes₂, m₂, hm₂, hdir₂⟩ := hs.map hdir₁
      exact ⟨m₂, hm₁.tail hm₂, size₂, bytes₂, hdir₂⟩
  refine ⟨m', hm', ⟨size', bytes', hdir⟩, ?_⟩
  intro name old inum hnum
  refine ⟨?_, ?_, ?_⟩
  · rcases hdir.link name old inum hnum with ⟨hm, hlink⟩ | ⟨hm, hfull, hlink⟩ | ⟨-, hfull, size', bytes', hlink, -⟩
    · rw [hlink]
      exact ⟨fun h => (by cases h), fun h => absurd h.1 hm⟩
    · rw [hlink]
      exact ⟨fun _ => ⟨hm, hfull⟩, fun _ => rfl⟩
    · rw [hlink]
      exact ⟨fun h => (by cases h), fun h => absurd h.2 hfull⟩
  · rcases hdir.lookup name with ⟨hlookup, -⟩ | ⟨j, hlookup, -⟩
    · rw [hlookup]
      exact Option.some_ne_none _
    · rw [hlookup]
      exact Option.some_ne_none _
  · rcases hdir.unlink name with ⟨-, hunlink⟩ | ⟨-, bytes', hunlink, -⟩
    · rw [hunlink]
      exact Option.some_ne_none _
    · rw [hunlink]
      exact Option.some_ne_none _

/-- An empty directory. -/
theorem isDir_empty : IsDir (.regular 0 fun _ => 0) 0 (fun _ => 0) fun _ => none :=
  ⟨rfl, ⟨0, rfl⟩, by decide, fun j k h => absurd h (Nat.not_lt_zero _),
    fun nm i => ⟨fun h => (by cases h), fun ⟨k, h, _⟩ => absurd h (Nat.not_lt_zero _)⟩⟩

theorem directory_map_first : ∃ dp m, Accepts DirStep (.regular 0 fun _ => 0) [.link [97] 7 0, .lookup [97] (some 7)] dp ∧
    Accepts MapStep (fun _ => none) [.link [97] 7 0, .lookup [97] (some 7)] m := by
  have h₁ := (Accepts.refl (T := DirStep) (.regular 0 fun _ => 0)).tail
    (.link (r := 0) (fun i => if i = 0 then 97 else 0) (fun _ => 0) (by decide : 7 % 2 ^ 16 ≠ 0) rfl)
  have h₂ := h₁.tail (.lookup (r := some (7, 0)) (fun i => if i = 0 then 97 else 0) (by decide +kernel))
  obtain ⟨m, hm, -⟩ := directory_map h₂ isDir_empty
  exact ⟨_, m, h₂, hm⟩

end SdeSystems.Names
