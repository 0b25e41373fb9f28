import SdeSystems.Log.Machine

/-!
# What recovery makes of a disk

The header block is read as it was written. A disk `Laid` out for the blocks `D` holds them, the ones that the
header names in the log and the others at home; then the recovery of the disk is `D`. The writes that a commit
makes, one by one: the blocks of the log, the header, which is where `D` changes, the homes, the header again.
-/

namespace SdeSystems.Log

open Function Lib

/-! ### The header -/

variable {m : Bytes} {lh : List ℕ} {i k a b : ℕ}

theorem load_storeBlocks_of_le (h : a + 4 ≤ 4 + 4 * i) : (storeBlocks m i lh).load a = m.load a := by
  induction lh generalizing m i with
  | nil => rfl
  | cons b lh ih =>
    rw [storeBlocks, ih (by omega)]
    exact Bytes.load_store_of_disjoint (.inl h)

theorem load_storeBlocks (h : lh[k]? = some b) :
    (storeBlocks m i lh).load (4 + 4 * (i + k)) = BitVec.ofNat 32 b := by
  induction lh generalizing m i k with
  | nil => simp at h
  | cons a lh ih =>
    rw [storeBlocks]
    cases k with
    | zero =>
      rw [load_storeBlocks_of_le (by omega), Nat.add_zero, Bytes.load_store]
      simpa using congrArg (Option.map (BitVec.ofNat 32)) h
    | succ k =>
      rw [List.getElem?_cons_succ] at h
      rw [show i + (k + 1) = i + 1 + k by omega]
      exact ih h

/-- **The header is read as it was written.** -/
theorem readHead_writeHead (hlen : lh.length < 2 ^ 31) (hb : ∀ b ∈ lh, b < 2 ^ 32) :
    readHead (writeHead m lh) = lh := by
  have hn : ((writeHead m lh).load 0).toInt.toNat = lh.length := by
    rw [writeHead, load_storeBlocks_of_le (by omega), Bytes.load_store, BitVec.toInt_eq_toNat_cond,
      BitVec.toNat_ofNat]
    omega
  rw [readHead, hn]
  apply List.ext_getElem?
  intro k
  rw [List.getElem?_map]
  rcases Nat.lt_or_ge k lh.length with hk | hk
  · have hload : (writeHead m lh).load (4 + 4 * k) = BitVec.ofNat 32 lh[k] := by
      have := load_storeBlocks (m := m.store 0 (BitVec.ofNat 32 lh.length)) (i := 0) (List.getElem?_eq_getElem hk)
      rwa [Nat.zero_add] at this
    have hlt := hb _ (List.getElem_mem hk)
    rw [List.getElem?_range hk, List.getElem?_eq_getElem hk, Option.map_some, hload, BitVec.toNat_ofNat,
      Nat.mod_eq_of_lt hlt]
  · rw [List.getElem?_eq_none (by simpa using hk), List.getElem?_eq_none hk, Option.map_none]

theorem readHead_erased : readHead (writeHead m []) = [] := readHead_writeHead (by simp) (by simp)

/-! ### Laid out disks -/

/-- The updates that the log on the disk holds. -/
def logged (start : ℕ) (disk : ℕ → Bytes) : List (ℕ × Bytes) :=
  (readHead (disk start)).mapIdx fun i b => (b, disk (start + i + 1))

/-- **The disk after recovery.** -/
def recovered (start : ℕ) (disk : ℕ → Bytes) : ℕ → Bytes := redo disk (logged start disk)

/-- A header that `recover_from_log` can follow. -/
structure Sound (start size : ℕ) (L : List ℕ) : Prop where
  /-- It names no block twice. -/
  nodup : L.Nodup
  /-- Nor a block of the log. -/
  home : ∀ b ∈ L, Home start size b
  /-- The log has a block for each. -/
  short : L.length < size

/-- The disk holds the blocks `D`, those in `L` in the log. -/
structure Laid (start size : ℕ) (disk D : ℕ → Bytes) (L : List ℕ) : Prop extends Sound start size L where
  /-- The header names the blocks `L`. -/
  head : readHead (disk start) = L
  /-- They are in the log. -/
  logged : ∀ i b, L[i]? = some b → disk (start + i + 1) = D b
  /-- The others are at home. -/
  rest : ∀ b, Home start size b → b ∉ L → disk b = D b

variable {start size : ℕ} {disk D C : ℕ → Bytes} {L : List ℕ} {v : Bytes}

theorem mem_logged {u : ℕ × Bytes} :
    u ∈ logged start disk ↔ ∃ i, (readHead (disk start))[i]? = some u.1 ∧ disk (start + i + 1) = u.2 := by
  rw [logged, List.mem_iff_getElem?]
  constructor
  · rintro ⟨i, hi⟩
    rw [List.getElem?_mapIdx, Option.map_eq_some_iff] at hi
    obtain ⟨b, hb, rfl⟩ := hi
    exact ⟨i, hb, rfl⟩
  · rintro ⟨i, hb, hv⟩
    refine ⟨i, ?_⟩
    rw [List.getElem?_mapIdx, hb, Option.map_some, hv]

/-- **The recovery of a disk that is laid out for `D`.** -/
theorem Laid.recovered (h : Laid start size disk D L) (hb : Home start size b) : recovered start disk b = D b := by
  by_cases hL : b ∈ L
  · obtain ⟨i, hi⟩ := List.mem_iff_getElem?.1 hL
    apply redo_of_mem
    · intro u hu hub
      obtain ⟨k, hk, hv⟩ := mem_logged.1 hu
      rw [h.head, hub] at hk
      rw [← hv, h.logged k b hk]
    · exact ⟨(b, disk (start + i + 1)), mem_logged.2 ⟨i, h.head ▸ hi, rfl⟩, rfl⟩
  · rw [Log.recovered, redo_of_notMem]
    · exact h.rest b hb hL
    · intro u hu hub
      obtain ⟨k, hk, -⟩ := mem_logged.1 hu
      rw [h.head, hub] at hk
      exact hL (List.mem_of_getElem? hk)

/-- A disk whose header can be followed is laid out for its recovery. -/
theorem laid_recovered (h : Sound start size (readHead (disk start))) :
    Laid start size disk (Log.recovered start disk) (readHead (disk start)) where
  toSound := h
  head := rfl
  logged := by
    intro i b hi
    symm
    apply redo_of_mem
    · intro u hu hub
      obtain ⟨k, hk, hv⟩ := mem_logged.1 hu
      have hik : i = k := by
        apply (List.getElem?_inj (List.getElem?_eq_some_iff.1 hi).1 h.nodup).1
        rw [hi, hk, hub]
      rw [← hv, hik]
    · exact ⟨(b, disk (start + i + 1)), mem_logged.2 ⟨i, hi, rfl⟩, rfl⟩
  rest := by
    intro b _ hL
    symm
    apply redo_of_notMem
    intro u hu hub
    obtain ⟨k, hk, -⟩ := mem_logged.1 hu
    exact hL (hub ▸ List.mem_of_getElem? hk)

/-! ### The writes of a commit -/

/-- Where a block of the log is. -/
theorem Home.ne_log (hb : Home start size b) (hk : k < size) : start + k ≠ b := by
  obtain ⟨h | h, -⟩ := hb <;> omega

theorem Sound.lt (h : Sound start size L) (hi : L[i]? = some b) : i + 1 < size := by
  have := (List.getElem?_eq_some_iff.1 hi).1
  have := h.short
  omega

/-- Nothing is in the log while it is written. -/
theorem Laid.writeLog (h : Laid start size disk D []) (hk : k + 1 < size) :
    Laid start size (update disk (start + k + 1) v) D [] where
  toSound := h.toSound
  head := by
    rw [update_of_ne (by omega)]
    exact h.head
  logged := by simp
  rest := by
    intro b hb hL
    rw [update_of_ne fun hbk => hb.ne_log hk (by omega)]
    exact h.rest b hb hL

/-- **The write of the header**: all blocks that are in the log change, at once. -/
theorem Laid.commit (h : Laid start size disk D []) (hL : Sound start size L) (hlen : L.length < 2 ^ 31)
    (hlog : ∀ i b, L[i]? = some b → disk (start + i + 1) = C b)
    (hoff : ∀ b, Home start size b → b ∉ L → C b = D b) :
    Laid start size (update disk start (writeHead v L)) C L where
  toSound := hL
  head := by
    rw [update_self]
    exact readHead_writeHead hlen fun b hb => (hL.home b hb).2
  logged := by
    intro i b hi
    rw [update_of_ne (by omega)]
    exact hlog i b hi
  rest := by
    intro b hb hbL
    rw [update_of_ne fun hbk => hb.ne_log (k := 0) (by have := hL.short; omega) (by omega), hoff b hb hbL]
    exact h.rest b hb (by simp)

/-- The write of a home. -/
theorem Laid.install (h : Laid start size disk D L) (hi : L[i]? = some b) :
    Laid start size (update disk b (disk (start + i + 1))) D L where
  toSound := h.toSound
  head := by
    have hb := h.home b (List.mem_of_getElem? hi)
    rw [update_of_ne fun hbk => hb.ne_log (k := 0) (by have := h.short; omega) (by omega)]
    exact h.head
  logged := by
    intro k c hk
    have hb := h.home b (List.mem_of_getElem? hi)
    rw [update_of_ne fun hbk => hb.ne_log (h.toSound.lt hk) (by omega)]
    exact h.logged k c hk
  rest := by
    intro c hc hcL
    rw [update_of_ne fun hcb => hcL (by rw [hcb]; exact List.mem_of_getElem? hi)]
    exact h.rest c hc hcL

/-- The header is erased when all is at home. -/
theorem Laid.erase (h : Laid start size disk D L) (hall : ∀ b ∈ L, disk b = D b) :
    Laid start size (update disk start (writeHead v [])) D [] where
  nodup := List.nodup_nil
  home := by simp
  short := by
    have := h.short
    rw [List.length_nil]
    omega
  head := by
    rw [update_self]
    exact readHead_erased
  logged := by simp
  rest := by
    intro b hb _
    rw [update_of_ne fun hbk => hb.ne_log (k := 0) (by have := h.short; omega) (by omega)]
    by_cases hL : b ∈ L
    · exact hall b hL
    · exact h.rest b hb hL

end SdeSystems.Log
