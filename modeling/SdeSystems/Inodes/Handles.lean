import SdeSystems.Lib.Ledger
import SdeSystems.Inodes.Machine

/-!
# Who uses an inode

Handles of cached inodes and shares of open files. `Refs` says that the reference counts of the cache are those of the
handles, and that an inode has one entry in the cache; `Files` says the same of the table of open files, where an open
file has one handle for all its shares.
-/

namespace SdeSystems.Inodes

open Function Lib

variable {ι : Type} {n m : ℕ}

/-- A use of a cached inode. -/
structure Handle (n : ℕ) where
  /-- The entry of the cache. -/
  slot : Fin n
  /-- The inode. -/
  inum : ℕ
  /-- Its type. -/
  type : ℕ
deriving DecidableEq

/-! ### The cache -/

/-- The handles are `H`, and `G` are the entries of freed inodes which have not been dropped yet. -/
structure Refs (icache : Fin n → Inode) (type : ℕ → ℕ) (H : Multiset (Handle n)) (G : Multiset (Fin n)) : Prop where
  /-- The reference counts. -/
  count (i : Fin n) : (icache i).ref = (H.map Handle.slot).count i + G.count i
  /-- No inode is cached twice. -/
  unique {i j : Fin n} : 0 < (icache i).ref → 0 < (icache j).ref → (icache i).inum = (icache j).inum → i = j
  /-- A handle is that of an inode which is allocated. -/
  handle {h : Handle n} : h ∈ H → (icache h.slot).inum = h.inum ∧ type h.inum = h.type ∧ h.type ≠ 0

variable {icache icache' : Fin n → Inode} {type type' : ℕ → ℕ} {H : Multiset (Handle n)} {G : Multiset (Fin n)}
  {h : Handle n} {i : Fin n} {k : ℕ}

namespace Refs

theorem pos (hR : Refs icache type H G) (hh : h ∈ H) : 0 < (icache h.slot).ref := by
  rw [hR.count]
  have := Multiset.count_pos.mpr (Multiset.mem_map_of_mem Handle.slot hh)
  omega

theorem pos_of_gone (hR : Refs icache type H G) (hi : i ∈ G) : 0 < (icache i).ref := by
  rw [hR.count]
  have := Multiset.count_pos.mpr hi
  omega

theorem congr (hR : Refs icache type H G) (href : ∀ i, (icache' i).ref = (icache i).ref)
    (hinum : ∀ i, (icache' i).inum = (icache i).inum) (htype : ∀ h ∈ H, type' h.inum = type h.inum) :
    Refs icache' type' H G := by
  refine ⟨?_, ?_, ?_⟩
  · intro i
    rw [href, hR.count]
  · intro i j hi hj hij
    rw [href] at hi hj
    rw [hinum, hinum] at hij
    exact hR.unique hi hj hij
  · intro h hh
    rw [hinum, htype h hh]
    exact hR.handle hh

/-- Two handles of one inode have the same entry. -/
theorem slot_eq (hR : Refs icache type H G) {h' : Handle n} (hh : h ∈ H) (hh' : h' ∈ H) (hinum : h.inum = h'.inum) :
    h.slot = h'.slot := by
  refine hR.unique (hR.pos hh) (hR.pos hh') ?_
  rw [(hR.handle hh).1, (hR.handle hh').1, hinum]

/-- One more handle of an inode that is cached. -/
theorem add (hR : Refs icache type H G) (hi : 0 < (icache i).ref) (hk : (icache i).inum = k) (ht : type k ≠ 0) :
    Refs (update icache i { icache i with ref := (icache i).ref + 1 }) type (⟨i, k, type k⟩ ::ₘ H) G := by
  have hinum : ∀ j, (update icache i { icache i with ref := (icache i).ref + 1 } j).inum = (icache j).inum := by
    intro j
    by_cases hj : j = i
    · rw [hj, update_self]
    · rw [update_of_ne hj]
  have hpos : ∀ j, 0 < (update icache i { icache i with ref := (icache i).ref + 1 } j).ref → 0 < (icache j).ref := by
    intro j hj
    by_cases hji : j = i
    · rw [hji]
      exact hi
    · rwa [update_of_ne hji] at hj
  refine ⟨?_, ?_, ?_⟩
  · intro j
    rw [Multiset.map_cons]
    by_cases hj : j = i
    · subst hj
      rw [update_self, Multiset.count_cons_self]
      dsimp only
      rw [hR.count]
      omega
    · rw [update_of_ne hj, Multiset.count_cons_of_ne hj, hR.count]
  · intro a b ha hb hab
    rw [hinum, hinum] at hab
    exact hR.unique (hpos a ha) (hpos b hb) hab
  · intro h hh
    rw [hinum]
    rcases Multiset.mem_cons.mp hh with rfl | hh
    · exact ⟨hk, rfl, ht⟩
    · exact hR.handle hh

/-- The first handle of an inode that is not cached. -/
theorem fill (hR : Refs icache type H G) (hi : (icache i).ref = 0)
    (hk : ∀ j, 0 < (icache j).ref → (icache j).inum ≠ k) (ht : type k ≠ 0) :
    Refs (update icache i { icache i with inum := k, ref := 1, valid := false }) type (⟨i, k, type k⟩ ::ₘ H) G := by
  have hcount := hR.count i
  refine ⟨?_, ?_, ?_⟩
  · intro j
    rw [Multiset.map_cons]
    by_cases hj : j = i
    · subst hj
      rw [update_self, Multiset.count_cons_self]
      dsimp only
      omega
    · rw [update_of_ne hj, Multiset.count_cons_of_ne hj, hR.count]
  · intro a b ha hb hab
    by_cases hai : a = i
    · by_cases hbi : b = i
      · rw [hai, hbi]
      · rw [update_of_ne hbi] at hb hab
        rw [hai, update_self] at hab
        exact absurd hab.symm (hk b hb)
    · rw [update_of_ne hai] at ha hab
      by_cases hbi : b = i
      · rw [hbi, update_self] at hab
        exact absurd hab (hk a ha)
      · rw [update_of_ne hbi] at hb hab
        exact hR.unique ha hb hab
  · intro h hh
    rcases Multiset.mem_cons.mp hh with rfl | hh
    · rw [update_self]
      exact ⟨rfl, rfl, ht⟩
    · have hne : h.slot ≠ i := by
        intro heq
        have := hR.pos hh
        rw [heq] at this
        omega
      rw [update_of_ne hne]
      exact hR.handle hh

/-- A count goes down. -/
theorem sub {H' : Multiset (Handle n)} {G' : Multiset (Fin n)} (hR : Refs icache type H G)
    (hcount : ∀ j, (H.map Handle.slot).count j + G.count j =
      (H'.map Handle.slot).count j + G'.count j + if j = i then 1 else 0) (hH : ∀ h ∈ H', h ∈ H) :
    Refs (update icache i { icache i with ref := (icache i).ref - 1 }) type H' G' := by
  have hinum : ∀ j, (update icache i { icache i with ref := (icache i).ref - 1 } j).inum = (icache j).inum := by
    intro j
    by_cases hj : j = i
    · rw [hj, update_self]
    · rw [update_of_ne hj]
  have hle : ∀ j, (update icache i { icache i with ref := (icache i).ref - 1 } j).ref ≤ (icache j).ref := by
    intro j
    by_cases hj : j = i
    · rw [hj, update_self]
      exact Nat.sub_le _ _
    · rw [update_of_ne hj]
  refine ⟨?_, ?_, ?_⟩
  · intro j
    have := hR.count j
    rw [hcount] at this
    by_cases hj : j = i
    · subst hj
      rw [if_pos rfl] at this
      rw [update_self]
      dsimp only
      omega
    · rw [if_neg hj] at this
      rw [update_of_ne hj]
      omega
  · intro a b ha hb hab
    rw [hinum, hinum] at hab
    exact hR.unique (lt_of_lt_of_le ha (hle a)) (lt_of_lt_of_le hb (hle b)) hab
  · intro h hh
    rw [hinum]
    exact hR.handle (hH h hh)

/-- A handle is dropped. -/
theorem drop (hR : Refs icache type (h ::ₘ H) G) :
    Refs (update icache h.slot { icache h.slot with ref := (icache h.slot).ref - 1 }) type H G := by
  refine hR.sub ?_ fun _ hh => Multiset.mem_cons_of_mem hh
  intro j
  rw [Multiset.map_cons, Multiset.count_cons]
  omega

/-- The entry of a freed inode is dropped. -/
theorem dropGone (hR : Refs icache type H (i ::ₘ G)) :
    Refs (update icache i { icache i with ref := (icache i).ref - 1 }) type H G := by
  refine hR.sub ?_ fun _ hh => hh
  intro j
  rw [Multiset.count_cons]
  omega

/-- The inode of the only handle of an entry is freed. -/
theorem erase (hR : Refs icache type (h ::ₘ H) G) (hone : (icache h.slot).ref = 1)
    (htype : ∀ k ≠ h.inum, type' k = type k) : Refs icache type' H (h.slot ::ₘ G) := by
  have hcount := hR.count h.slot
  rw [Multiset.map_cons, Multiset.count_cons_self, hone] at hcount
  refine ⟨?_, hR.unique, ?_⟩
  · intro j
    rw [hR.count, Multiset.map_cons, Multiset.count_cons, Multiset.count_cons]
    omega
  · intro h' hh'
    have hne : h'.inum ≠ h.inum := by
      intro heq
      have hslot := hR.slot_eq (Multiset.mem_cons_of_mem hh') (Multiset.mem_cons_self h H) heq
      have hpos := Multiset.count_pos.mpr (Multiset.mem_map_of_mem Handle.slot hh')
      rw [hslot] at hpos
      omega
    rw [htype _ hne]
    exact hR.handle (Multiset.mem_cons_of_mem hh')

end Refs

/-- What `iget` finds. -/
theorem State.find_spec {s : State ι n m} (hi : s.find k = some i) :
    0 < (s.icache i).ref ∧ (s.icache i).inum = k ∨
      (s.icache i).ref = 0 ∧ ∀ j, 0 < (s.icache j).ref → (s.icache j).inum ≠ k := by
  simp only [State.find, Option.or_eq_some_iff] at hi
  rcases hi with hi | ⟨hnone, hi⟩
  · left
    simpa using List.find?_some hi
  · right
    refine ⟨by simpa using List.find?_some hi, ?_⟩
    intro j hj hk
    have := List.find?_eq_none.mp hnone j (List.mem_finRange j)
    simp only [decide_eq_true_eq] at this
    exact this ⟨hj, hk⟩

/-- A new handle, by `iget`. -/
theorem Refs.take {s : State ι n m} (hR : Refs s.icache type H G) (hi : s.find k = some i) (ht : type k ≠ 0) :
    Refs (s.take k i).icache type (⟨i, k, type k⟩ ::ₘ H) G := by
  simp only [State.take]
  rcases State.find_spec hi with ⟨hpos, hk⟩ | ⟨hzero, hk⟩
  · rw [if_pos hpos]
    exact hR.add hpos hk ht
  · rw [if_neg (by omega)]
    exact hR.fill hzero hk ht

/-! ### Open files -/

/-- The shares of open files are `X`, and `B` are the files that have no inode yet; `held` are the handles of the open
files. -/
structure Files (ftable : Fin m → File n) (X : Multiset (Fin m × Handle n)) (B : Multiset (Fin m))
    (held : Fin m → Option (Handle n)) : Prop where
  /-- The reference counts. -/
  count (f : Fin m) : (ftable f).ref = (X.map Prod.fst).count f + B.count f
  /-- A share is one of an open file. -/
  share {f : Fin m} {h : Handle n} : (f, h) ∈ X → held f = some h
  /-- An open file is open for somebody. -/
  shared {f : Fin m} : held f ≠ none → f ∈ X.map Prod.fst
  /-- `ip` is the handle's. -/
  ip (f : Fin m) : (ftable f).ip = (held f).map Handle.slot
  /-- A file without an inode is that of one process. -/
  blank {f : Fin m} : f ∈ B → held f = none ∧ B.count f = 1

variable {ftable : Fin m → File n} {X : Multiset (Fin m × Handle n)} {B : Multiset (Fin m)}
  {held : Fin m → Option (Handle n)} {f : Fin m}

namespace Files

theorem not_shared (hF : Files ftable X B held) (hf : held f = none) : f ∉ X.map Prod.fst := by
  intro hmem
  obtain ⟨⟨f', h⟩, hx, rfl⟩ := Multiset.mem_map.mp hmem
  rw [hF.share hx] at hf
  cases hf

theorem pos (hF : Files ftable X B held) (hx : (f, h) ∈ X) : 0 < (ftable f).ref := by
  rw [hF.count]
  have := Multiset.count_pos.mpr (Multiset.mem_map_of_mem Prod.fst hx)
  dsimp only at this
  omega

/-- `filealloc`. -/
theorem alloc (hF : Files ftable X B held) (hf : (ftable f).ref = 0) :
    Files (update ftable f { ftable f with ref := 1 }) X (f ::ₘ B) held := by
  have hcount := hF.count f
  have hnone : held f = none := by
    by_contra hne
    have := Multiset.count_pos.mpr (hF.shared hne)
    omega
  refine ⟨?_, hF.share, hF.shared, ?_, ?_⟩
  · intro g
    by_cases hg : g = f
    · subst hg
      rw [update_self, Multiset.count_cons_self]
      dsimp only
      omega
    · rw [update_of_ne hg, Multiset.count_cons_of_ne hg, hF.count]
  · intro g
    by_cases hg : g = f
    · rw [hg, update_self]
      exact hF.ip f
    · rw [update_of_ne hg]
      exact hF.ip g
  · intro g hg
    by_cases hgf : g = f
    · subst hgf
      rw [Multiset.count_cons_self]
      exact ⟨hnone, by omega⟩
    · rw [Multiset.count_cons_of_ne hgf]
      exact hF.blank ((Multiset.mem_cons.mp hg).resolve_left hgf)

/-- A file gets its inode. -/
theorem setIp (hF : Files ftable X (f ::ₘ B) held) (h : Handle n) :
    Files (update ftable f { ftable f with ip := some h.slot }) ((f, h) ::ₘ X) B (update held f (some h)) := by
  obtain ⟨hnone, hone⟩ := hF.blank (Multiset.mem_cons_self f B)
  have hunshared := hF.not_shared hnone
  rw [Multiset.count_cons_self] at hone
  refine ⟨?_, ?_, ?_, ?_, ?_⟩
  · intro g
    have hcount := hF.count g
    rw [Multiset.map_cons]
    by_cases hg : g = f
    · subst hg
      rw [update_self, Multiset.count_cons_self]
      rw [Multiset.count_cons_self] at hcount
      dsimp only
      omega
    · rw [update_of_ne hg, Multiset.count_cons_of_ne hg]
      rwa [Multiset.count_cons_of_ne hg] at hcount
  · intro g h' hx
    by_cases hg : g = f
    · subst hg
      rcases Multiset.mem_cons.mp hx with heq | hx
      · rw [update_self, (Prod.mk.inj heq).2]
      · exact absurd (Multiset.mem_map_of_mem Prod.fst hx) hunshared
    · rw [update_of_ne hg]
      refine hF.share ((Multiset.mem_cons.mp hx).resolve_left ?_)
      intro heq
      exact hg (Prod.mk.inj heq).1
  · intro g hne
    rw [Multiset.map_cons]
    by_cases hg : g = f
    · rw [hg]
      exact Multiset.mem_cons_self _ _
    · rw [update_of_ne hg] at hne
      exact Multiset.mem_cons_of_mem (hF.shared hne)
  · intro g
    by_cases hg : g = f
    · rw [hg, update_self, update_self]
      rfl
    · rw [update_of_ne hg, update_of_ne hg]
      exact hF.ip g
  · intro g hg
    have hgf : g ≠ f := by
      rintro rfl
      have := Multiset.count_pos.mpr hg
      omega
    have hblank := hF.blank (Multiset.mem_cons_of_mem hg)
    rw [Multiset.count_cons_of_ne hgf] at hblank
    rw [update_of_ne hgf]
    exact hblank

/-- `filedup`. -/
theorem dup (hF : Files ftable X B held) (hx : (f, h) ∈ X) :
    Files (update ftable f { ftable f with ref := (ftable f).ref + 1 }) ((f, h) ::ₘ X) B held := by
  refine ⟨?_, ?_, ?_, ?_, hF.blank⟩
  · intro g
    rw [Multiset.map_cons]
    by_cases hg : g = f
    · subst hg
      rw [update_self, Multiset.count_cons_self]
      dsimp only
      rw [hF.count]
      omega
    · rw [update_of_ne hg, Multiset.count_cons_of_ne hg, hF.count]
  · intro g h' hx'
    rcases Multiset.mem_cons.mp hx' with heq | hx'
    · rw [(Prod.mk.inj heq).1, (Prod.mk.inj heq).2]
      exact hF.share hx
    · exact hF.share hx'
  · intro g hne
    rw [Multiset.map_cons]
    exact Multiset.mem_cons_of_mem (hF.shared hne)
  · intro g
    by_cases hg : g = f
    · rw [hg, update_self]
      exact hF.ip f
    · rw [update_of_ne hg]
      exact hF.ip g

/-- `fileclose` of a file that others have open. -/
theorem close (hF : Files ftable ((f, h) ::ₘ X) B held) (hone : 1 < (ftable f).ref) :
    Files (update ftable f { ftable f with ref := (ftable f).ref - 1 }) X B held := by
  have hheld := hF.share (Multiset.mem_cons_self (f, h) X)
  refine ⟨?_, fun hx => hF.share (Multiset.mem_cons_of_mem hx), ?_, ?_, hF.blank⟩
  · intro g
    have hcount := hF.count g
    rw [Multiset.map_cons] at hcount
    by_cases hg : g = f
    · subst hg
      rw [Multiset.count_cons_self] at hcount
      rw [update_self]
      dsimp only
      omega
    · rw [Multiset.count_cons_of_ne hg] at hcount
      rw [update_of_ne hg, hcount]
  · intro g hne
    have hmem := hF.shared hne
    rw [Multiset.map_cons] at hmem
    rcases Multiset.mem_cons.mp hmem with rfl | hmem
    · have hcount := hF.count g
      have hblank : B.count g = 0 := Multiset.count_eq_zero.mpr fun hg => hne (hF.blank hg).1
      rw [Multiset.map_cons, Multiset.count_cons_self] at hcount
      exact Multiset.count_pos.mp (by omega)
    · exact hmem
  · intro g
    by_cases hg : g = f
    · rw [hg, update_self]
      exact hF.ip f
    · rw [update_of_ne hg]
      exact hF.ip g

/-- The last `fileclose` of a file. -/
theorem closeLast (hF : Files ftable ((f, h) ::ₘ X) B held) (hone : ¬ 1 < (ftable f).ref) :
    Files (update ftable f ⟨0, none⟩) X B (update held f none) := by
  have hheld := hF.share (Multiset.mem_cons_self (f, h) X)
  have hcount := hF.count f
  rw [Multiset.map_cons, Multiset.count_cons_self] at hcount
  refine ⟨?_, ?_, ?_, ?_, ?_⟩
  · intro g
    by_cases hg : g = f
    · subst hg
      rw [update_self]
      dsimp only
      omega
    · have hcount := hF.count g
      rw [Multiset.map_cons, Multiset.count_cons_of_ne hg] at hcount
      rw [update_of_ne hg, hcount]
  · intro g h' hx
    have hg : g ≠ f := by
      rintro rfl
      have := Multiset.count_pos.mpr (Multiset.mem_map_of_mem Prod.fst hx)
      dsimp only at this
      omega
    rw [update_of_ne hg]
    exact hF.share (Multiset.mem_cons_of_mem hx)
  · intro g hne
    by_cases hg : g = f
    · rw [hg, update_self] at hne
      exact absurd rfl hne
    · rw [update_of_ne hg] at hne
      have hmem := hF.shared hne
      rw [Multiset.map_cons] at hmem
      exact (Multiset.mem_cons.mp hmem).resolve_left hg
  · intro g
    by_cases hg : g = f
    · rw [hg, update_self, update_self]
      rfl
    · rw [update_of_ne hg, update_of_ne hg]
      exact hF.ip g
  · intro g hg
    have hgf : g ≠ f := by
      rintro rfl
      rw [(hF.blank hg).1] at hheld
      cases hheld
    rw [update_of_ne hgf]
    exact hF.blank hg

/-- `fileclose` of a file without an inode. -/
theorem closeBlank (hF : Files ftable X (f ::ₘ B) held) : (ftable f).ref = 1 ∧ (ftable f).ip = none ∧
    Files (update ftable f ⟨0, none⟩) X B held := by
  obtain ⟨hnone, hone⟩ := hF.blank (Multiset.mem_cons_self f B)
  have hunshared := Multiset.count_eq_zero.mpr (hF.not_shared hnone)
  have hcount := hF.count f
  rw [hone, hunshared] at hcount
  rw [Multiset.count_cons_self] at hone
  refine ⟨by omega, by rw [hF.ip, hnone]; rfl, ?_, hF.share, hF.shared, ?_, ?_⟩
  · intro g
    by_cases hg : g = f
    · subst hg
      rw [update_self]
      dsimp only
      omega
    · have hcount := hF.count g
      rw [Multiset.count_cons_of_ne hg] at hcount
      rw [update_of_ne hg, hcount]
  · intro g
    by_cases hg : g = f
    · rw [hg, update_self, hnone]
      rfl
    · rw [update_of_ne hg]
      exact hF.ip g
  · intro g hg
    have hgf : g ≠ f := by
      rintro rfl
      have := Multiset.count_pos.mpr hg
      omega
    have hblank := hF.blank (Multiset.mem_cons_of_mem hg)
    rwa [Multiset.count_cons_of_ne hgf] at hblank

end Files

end SdeSystems.Inodes
