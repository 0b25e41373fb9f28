import SdeSystems.Wmap.Calls
import SdeSystems.Wmap.PageLoops

/-!
# Shrinking and splitting

The end of `wpunmap` for a range that does not wrap around and lies in a region: with the sums of
32 bits worked out, the region loses its front or its back, or it becomes two, or there is no slot
for the second part. The table stays in order in each case.
-/

namespace SdeSystems.Wmap

open Lib Function

variable {mm mm' : Mmaps} {pd : PageDir} {fs fs' : Fs} {l l₁ l₂ : List (Fin 16)} {i j : Fin 16} {addr : ℕ} {length : ℤ}

/-- The range lies in the region and both of its ends are at pages. -/
structure Region.Holds (r : Region) (addr : ℕ) (length : ℤ) : Prop where
  /-- The range is not empty. -/
  pos : 0 < length
  /-- It begins at a page. -/
  aligned : addr % 4096 = 0
  /-- It ends at one. -/
  stop : (addr + length) % 4096 = 0
  /-- It begins in the region. -/
  lo : r.addr ≤ addr
  /-- It ends in the region. -/
  hi : addr + length ≤ r.addr + r.length

/-- The table after a split: the region `i` ends at `addr`, and `j` is the part behind the range. -/
def splitTable (mm : Mmaps) (pd : PageDir) (i j : Fin 16) (addr : ℕ) (length : ℤ) : Mmaps :=
  let r := mm.mmaps i
  { mm with
    mmaps := update
      (update mm.mmaps i { r with length := addr - r.addr, nLoadedPages := loaded pd r.addr addr }) j
      { r with
        addr := (addr + length).toNat
        length := r.addr + r.length - (addr + length)
        nLoadedPages := loaded pd (addr + length).toNat (r.addr + r.length).toNat }
    next := update (update mm.next j (mm.next i)) i (some j)
    totalMmaps := mm.totalMmaps + 1 }

/-- What the end of `wpunmap` does. -/
inductive Shrinks (mm : Mmaps) (pd : PageDir) (fs : Fs) (i : Fin 16) (addr : ℕ) (length : ℤ) :
    Option (Mmaps × Fs) → Prop
  /-- The range is the front of the region. -/
  | front (h : addr = (mm.mmaps i).addr) :
    Shrinks mm pd fs i addr length (some (mm.set i { mm.mmaps i with
      addr := (addr + length).toNat, length := (mm.mmaps i).length - length }, fs))
  /-- The range is the back of the region. -/
  | back (h : addr ≠ (mm.mmaps i).addr) (h' : addr + length = (mm.mmaps i).addr + (mm.mmaps i).length) :
    Shrinks mm pd fs i addr length (some (mm.set i { mm.mmaps i with length := (mm.mmaps i).length - length }, fs))
  /-- There is no slot for the second part. -/
  | full (h : addr ≠ (mm.mmaps i).addr) (h' : addr + length ≠ (mm.mmaps i).addr + (mm.mmaps i).length)
    (hj : findUnusedMmap mm = none) : Shrinks mm pd fs i addr length none
  /-- The region becomes two. -/
  | split {j : Fin 16} {fs' : Fs} (h : addr ≠ (mm.mmaps i).addr)
    (h' : addr + length ≠ (mm.mmaps i).addr + (mm.mmaps i).length) (hj : findUnusedMmap mm = some j)
    (hfs : dupIf fs (mm.mmaps i).f = some fs') :
    Shrinks mm pd fs i addr length (some (splitTable mm pd i j addr length, fs'))

theorem shrink_cases {out : Option (Mmaps × Fs)} (hr : (mm.mmaps i).Ok) (hold : (mm.mmaps i).Holds addr length)
    (h : shrink mm pd fs i addr length = some out) : Shrinks mm pd fs i addr length out := by
  have hstop := hr.stop_eq
  obtain ⟨-, h₀, hlo, hhi⟩ := hr
  obtain ⟨hpos, -, -, hge, hle⟩ := hold
  have hend : (u32 (addr + length) : ℤ) = addr + length := by
    unfold u32
    omega
  have hend' : u32 (addr + length) = (addr + length).toNat := by omega
  unfold shrink at h
  dsimp only at h
  split at h
  · rename_i ha
    obtain rfl := Option.some.inj h
    have hlen : i32 ((mm.mmaps i).length - length) = (mm.mmaps i).length - length := by
      unfold i32
      omega
    rw [hlen, hend']
    exact .front ha
  · rename_i ha
    split at h
    · rename_i hb
      obtain rfl := Option.some.inj h
      have hlen : i32 ((mm.mmaps i).length - length) = (mm.mmaps i).length - length := by
        unfold i32
        omega
      rw [hlen]
      exact .back ha (by omega)
    · rename_i hb
      have hb' : addr + length ≠ (mm.mmaps i).addr + (mm.mmaps i).length := by omega
      have hnew : i32 ((mm.mmaps i).addr + (mm.mmaps i).length - u32 (addr + length)) =
          (mm.mmaps i).addr + (mm.mmaps i).length - (addr + length) := by
        unfold i32
        omega
      have hold : i32 (addr - (mm.mmaps i).addr) = addr - (mm.mmaps i).addr := by
        unfold i32
        omega
      have hstop₁ : u32 ((addr + length).toNat + ((mm.mmaps i).addr + (mm.mmaps i).length - (addr + length))) =
          ((mm.mmaps i).addr + (mm.mmaps i).length).toNat := by
        unfold u32
        omega
      have hstop₂ : u32 ((mm.mmaps i).addr + ((addr : ℤ) - (mm.mmaps i).addr)) = addr := by
        unfold u32
        omega
      split at h
      · rename_i hj
        obtain rfl := Option.some.inj h
        exact .full ha hb' hj
      · rename_i j hj
        have hcount₁ : countLoadedPages pd (addr + length).toNat ((mm.mmaps i).addr + (mm.mmaps i).length).toNat =
          _ := countLoadedPages_eq (by omega)
        have hcount₂ : countLoadedPages pd (mm.mmaps i).addr addr = _ := countLoadedPages_eq (by omega)
        rw [hend'] at hnew
        simp only [hend', hnew, hold, hstop₁, hstop₂, hcount₁, hcount₂] at h
        split at h
        · rename_i fs' n₁ n₂ hfs hn₁ hn₂
          obtain rfl := Option.some.inj hn₁
          obtain rfl := Option.some.inj hn₂
          obtain rfl := Option.some.inj h
          exact .split ha hb' hj hfs
        · cases h

/-! ### The table afterwards -/

section

variable (h : Table mm (l₁ ++ i :: l₂)) (hold : (mm.mmaps i).Holds addr length)

include h hold

theorem front_table (ha : addr = (mm.mmaps i).addr) : Table (mm.set i { mm.mmaps i with
    addr := (addr + length).toNat, length := (mm.mmaps i).length - length }) (l₁ ++ i :: l₂) := by
  obtain ⟨hpos, -, hstop, -, hle⟩ := hold
  obtain ⟨hal, h₀, hlo, hhi⟩ := h.region i (by simp)
  refine h.set (by simp) ⟨?_, ?_, ?_, ?_⟩ ?_
  · dsimp only
    omega
  · dsimp only
    omega
  · dsimp only
    omega
  · dsimp only
    omega
  · intro j hj hne
    refine (h.apart i (by simp) j hj hne.symm).part ?_ h₀ ?_ ?_
    · dsimp only
      omega
    · dsimp only
      omega
    · dsimp only
      omega

theorem back_table : Table (mm.set i { mm.mmaps i with
    length := (mm.mmaps i).length - length }) (l₁ ++ i :: l₂) := by
  obtain ⟨hpos, -, hstop, hge, hle⟩ := hold
  obtain ⟨hal, h₀, hlo, hhi⟩ := h.region i (by simp)
  refine h.set (by simp) ⟨hal, ?_, hlo, ?_⟩ ?_
  · dsimp only
    omega
  · dsimp only
    omega
  · intro j hj hne
    refine (h.apart i (by simp) j hj hne.symm).part (le_refl _) h₀ ?_ ?_
    · dsimp only
      omega
    · dsimp only
      omega

theorem split_table (ha : addr ≠ (mm.mmaps i).addr) (hj : findUnusedMmap mm = some j) :
    j ∉ l₁ ++ i :: l₂ ∧ Table (splitTable mm pd i j addr length) (l₁ ++ i :: j :: l₂) := by
  have hjl := h.not_mem_of_unused hj
  have hji : j ≠ i := fun hji => hjl (by simp [hji])
  obtain ⟨hpos, haddr, hstop, hge, hle⟩ := hold
  obtain ⟨hal, h₀, hlo, hhi⟩ := h.region i (by simp)
  have hin := (List.nodup_cons.mp (List.nodup_middle.mp h.nodup)).1
  refine ⟨hjl, ?_⟩
  -- first the region `i` is cut, then `j` comes in behind it
  have hcut : Table (mm.set i { mm.mmaps i with
      length := addr - (mm.mmaps i).addr, nLoadedPages := loaded pd (mm.mmaps i).addr addr }) (l₁ ++ i :: l₂) := by
    refine h.set (by simp) ⟨hal, ?_, hlo, ?_⟩ ?_
    · dsimp only
      omega
    · dsimp only
      omega
    · intro j hj hne
      refine (h.apart i (by simp) j hj hne.symm).part (le_refl _) h₀ ?_ ?_
      · dsimp only
        omega
      · dsimp only
        omega
  have hself : (splitTable mm pd i j addr length).mmaps j = { mm.mmaps i with
      addr := (addr + length).toNat
      length := (mm.mmaps i).addr + (mm.mmaps i).length - (addr + length)
      nLoadedPages := loaded pd (addr + length).toNat ((mm.mmaps i).addr + (mm.mmaps i).length).toNat } := by
    simp [splitTable]
  have hcut' : Table (mm.set i { mm.mmaps i with
      length := addr - (mm.mmaps i).addr, nLoadedPages := loaded pd (mm.mmaps i).addr addr }) ((l₁ ++ [i]) ++ l₂) := by
    simpa using hcut
  have hadd : Table (splitTable mm pd i j addr length) ((l₁ ++ [i]) ++ j :: l₂) := by
    refine hcut'.add (by simpa using hjl) ?_ rfl (fun x hx => by simp [splitTable, Mmaps.set, hx]) ?_ ?_
    · rw [List.append_assoc, List.singleton_append]
      apply h.linked.insert (by simp [splitTable]) (by simp [splitTable, hji])
      intro x hx
      have hxi : x ≠ i := fun hxi => hin (hxi ▸ hx)
      have hxj : x ≠ j := fun hxj => hjl (mem_of_mem_append (hxj ▸ hx))
      simp [splitTable, hxi, hxj]
    · rw [hself]
      refine ⟨?_, ?_, ?_, ?_⟩
      · dsimp only
        omega
      · dsimp only
        omega
      · dsimp only
        omega
      · dsimp only
        omega
    · intro x hx
      rw [hself]
      by_cases hxi : x = i
      · subst hxi
        simp only [Mmaps.set, update_self]
        refine .inr ?_
        unfold Region.pageEnd
        dsimp only
        omega
      · simp only [Mmaps.set, update_of_ne hxi]
        refine (h.apart i (by simp) x (by simpa using hx) (Ne.symm hxi)).part ?_ h₀ ?_ ?_
        · dsimp only
          omega
        · dsimp only
          omega
        · dsimp only
          omega
  simpa using hadd

/-- A range that does not wrap around leaves the table in order. -/
theorem Shrinks.table (hs : Shrinks mm pd fs i addr length (some (mm', fs'))) : ∃ l', Table mm' l' := by
  cases hs with
  | front ha => exact ⟨_, front_table h hold ha⟩
  | back => exact ⟨_, back_table h hold⟩
  | split ha _ hj => exact ⟨_, (split_table h hold ha hj).2⟩

end

end SdeSystems.Wmap
