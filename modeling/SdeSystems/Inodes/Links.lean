import Mathlib.Algebra.Order.Group.Multiset
import SdeSystems.Lib.Count
import SdeSystems.Inodes.Calls

/-!
# Links

The link counts of the inodes on the disk against the directories. An entry of a directory counts as a link, but `.`
does not, and `..` does as long as the directory that has it has a name. The link count of an inode is at least the
number of these entries, of the links that processes have counted but have not written an entry for, or the other way
round (the credits), and one for the root. `Links` says this and what the tree of directories looks like, and each
change that is made to an inode keeps it.
-/

namespace SdeSystems.Inodes

open Function Lib Names

variable {disk disk' : ℕ → Dinode} {C C' : Multiset ℕ} {d e j k x y : ℕ} {name : Name} {dir : Dir}

/-! ### Directories -/

/-- `dirlink` writes one entry, where there was none. -/
theorem putEntry_spec (dir : Dir) (a : Name × ℕ) : ∃ j, (∀ b, dir[j]? ≠ some (some b)) ∧
    ∀ (i : ℕ) b, (putEntry dir a)[i]? = some (some b) ↔ dir[i]? = some (some b) ∨ i = j ∧ b = a := by
  induction dir with
  | nil =>
    refine ⟨0, by simp, ?_⟩
    intro i b
    cases i with
    | zero => simp [putEntry, eq_comm]
    | succ i => simp [putEntry]
  | cons x dir ih =>
    cases x with
    | none =>
      refine ⟨0, by simp, ?_⟩
      intro i b
      cases i with
      | zero => simp [putEntry, eq_comm]
      | succ i => simp [putEntry]
    | some x =>
      obtain ⟨j, hj, hput⟩ := ih
      refine ⟨j + 1, by simpa using hj, ?_⟩
      intro i b
      cases i with
      | zero => simp [putEntry]
      | succ i => simpa [putEntry] using hput i b

theorem lookupFrom_some {off inum j : ℕ} (h : lookupFrom name off dir = some (inum, j)) :
    ∃ i, j = off + i ∧ dir[i]? = some (some (name, inum)) := by
  induction dir generalizing off with
  | nil => cases h
  | cons a dir ih =>
    cases a with
    | none =>
      obtain ⟨i, hi, hdir⟩ := ih h
      exact ⟨i + 1, by omega, by simpa using hdir⟩
    | some a =>
      obtain ⟨s, k⟩ := a
      simp only [lookupFrom] at h
      split_ifs at h with hs
      · cases h
        exact ⟨0, rfl, by simp [hs]⟩
      · obtain ⟨i, hi, hdir⟩ := ih h
        exact ⟨i + 1, by omega, by simpa using hdir⟩

theorem lookupFrom_none {off : ℕ} (h : lookupFrom name off dir = none) (i inum : ℕ) :
    dir[i]? ≠ some (some (name, inum)) := by
  induction dir generalizing off i with
  | nil => simp
  | cons a dir ih =>
    cases a with
    | none =>
      cases i with
      | zero => simp
      | succ i => simpa using ih h i
    | some a =>
      obtain ⟨s, k⟩ := a
      simp only [lookupFrom] at h
      split_ifs at h with hs
      cases i with
      | zero => simp [hs]
      | succ i => simpa using ih h i

theorem entry_of_lookup {inum : ℕ} (h : lookup (disk d).dir name = some (inum, j)) : Entry disk d j name inum := by
  obtain ⟨i, hi, hdir⟩ := lookupFrom_some h
  rw [Nat.zero_add] at hi
  rw [hi]
  exact hdir

theorem lookup_ne_none {inum : ℕ} (h : Entry disk d j name inum) : lookup (disk d).dir name ≠ none :=
  fun hnone => lookupFrom_none hnone j inum h

/-! ### The invariant -/

/-- The entry is a link to `k`. -/
def Counted (disk : ℕ → Dinode) (k : ℕ) (e : ℕ × ℕ) : Prop :=
  ∃ name, Entry disk e.1 e.2 name k ∧ name ≠ dot ∧ (name = dotdot → Named disk e.1)

/-- The links to `k` and the credits are at most the link count. -/
def Bounded (disk : ℕ → Dinode) (C : Multiset ℕ) (k : ℕ) : Prop :=
  AtMost ((disk k).nlink - C.count k - if k = rootIno then 1 else 0) (Counted disk k)

/-- The link counts and the directories fit together. -/
structure Links (disk : ℕ → Dinode) (C : Multiset ℕ) : Prop where
  /-- There are not more links than the link count says. -/
  bound (k : ℕ) : Bounded disk C k
  /-- An inode that is free has no links and no entries. -/
  free {k : ℕ} : (disk k).type = 0 → (disk k).nlink = 0 ∧ (disk k).dir = []
  /-- Only directories have entries. -/
  dirs {d j k : ℕ} {name : Name} : Entry disk d j name k → (disk d).type = tDir
  /-- `.` is the directory itself. -/
  dot {d j k : ℕ} : Entry disk d j dot k → k = d
  /-- The `..` of a directory is the one that has a name for it, and no other has. -/
  parent {d j k : ℕ} {name : Name} : Entry disk d j name k → IsName name → (disk k).type = tDir →
    (∃ j', Entry disk k j' dotdot d) ∧
      ∀ {e j' : ℕ} {name' : Name}, Entry disk e j' name' k → IsName name' → e = d ∧ j' = j
  /-- Names of directories lead down. -/
  depth : ∃ depth : ℕ → ℕ, ∀ {d j k : ℕ} {name : Name}, Entry disk d j name k → IsName name →
    (disk k).type = tDir → depth d < depth k
  /-- The root is a directory, it has no name, and its `..` is itself. -/
  root : (disk rootIno).type = tDir ∧ ¬ Named disk rootIno ∧ ∀ {j k : ℕ}, Entry disk rootIno j dotdot k → k = rootIno

namespace Links

/-- A link is part of the link count. -/
theorem one_le (h : Links disk C) {e : ℕ × ℕ} (he : Counted disk k e) : 1 ≤ (disk k).nlink := by
  have hle := (h.bound k).one_le he
  split_ifs at hle <;> omega

theorem root_one_le (h : Links disk C) : 1 ≤ (disk rootIno).nlink := by
  have hle := (h.bound rootIno).nonneg
  rw [if_pos rfl] at hle
  omega

theorem type_ne_zero (h : Links disk C) (hk : 1 ≤ (disk k).nlink) : (disk k).type ≠ 0 := by
  intro hzero
  have := (h.free hzero).1
  omega

end Links

/-- An entry with a name is a link. -/
theorem counted_of_name (he : Entry disk d j name k) (hname : IsName name) : Counted disk k (d, j) :=
  ⟨name, he, hname.1, fun h => absurd h hname.2⟩

/-- An inode whose only link is a credit has no name, and it is not the root. -/
theorem Links.unnamed (h : Links disk C) (hk : (disk k).nlink = 1) (hC : k ∈ C) : ¬ Named disk k ∧ k ≠ rootIno := by
  have hcount := Multiset.one_le_count_iff_mem.mpr hC
  constructor
  · rintro ⟨d, j, name, he, hname⟩
    have hle := (h.bound k).one_le (counted_of_name he hname)
    split_ifs at hle <;> omega
  · intro hroot
    have hle := (h.bound k).nonneg
    rw [if_pos hroot] at hle
    omega

/-- What a directory that is not removed has an entry for: itself, or an inode with links. -/
theorem Links.found (h : Links disk C) (he : Entry disk d j name k)
    (hup : name = dotdot → d = rootIno ∨ Named disk d) : name = Inodes.dot ∧ k = d ∨ 1 ≤ (disk k).nlink := by
  by_cases hdot : name = Inodes.dot
  · subst hdot
    exact .inl ⟨rfl, h.dot he⟩
  · right
    by_cases hdotdot : name = dotdot
    · subst hdotdot
      rcases hup rfl with rfl | hnamed
      · rw [h.root.2.2 he]
        exact h.root_one_le
      · have hlink : Counted disk k (d, j) := ⟨dotdot, he, hdot, fun _ => hnamed⟩
        exact h.one_le hlink
    · exact h.one_le (counted_of_name he ⟨hdot, hdotdot⟩)

/-! ### Changes to the inodes themselves -/

theorem entry_congr (hdir : ∀ d, (disk' d).dir = (disk d).dir) : Entry disk' d j name k ↔ Entry disk d j name k := by
  simp only [Entry, hdir]

theorem named_congr (hdir : ∀ d, (disk' d).dir = (disk d).dir) : Named disk' k ↔ Named disk k := by
  simp only [Named, entry_congr hdir]

theorem counted_congr (hdir : ∀ d, (disk' d).dir = (disk d).dir) {e : ℕ × ℕ} :
    Counted disk' k e ↔ Counted disk k e := by
  simp only [Counted, entry_congr hdir, named_congr hdir]

theorem update_dir {a : Dinode} (ha : a.dir = (disk k).dir) (d : ℕ) : (update disk k a d).dir = (disk d).dir := by
  by_cases hd : d = k
  · rw [hd, update_self, ha]
  · rw [update_of_ne hd]

namespace Links

/-- The clauses about single entries, where no entry is new. -/
theorem of_entries (h : Links disk C) (hentry : ∀ {d j i name}, Entry disk' d j name i → Entry disk d j name i)
    (hbound : ∀ i, Bounded disk' C' i) (hfree : ∀ {i}, (disk' i).type = 0 → (disk' i).nlink = 0 ∧ (disk' i).dir = [])
    (hdirs : ∀ {d j i name}, Entry disk' d j name i → (disk' d).type = (disk d).type)
    (hsub : ∀ {d j i name}, Entry disk d j name i → IsName name → (disk' i).type = tDir →
      (disk i).type = tDir ∧ ∀ {j' e}, Entry disk i j' dotdot e → Entry disk' i j' dotdot e)
    (hroot : (disk' rootIno).type = tDir) : Links disk' C' := by
  constructor
  case bound => exact hbound
  case free => exact hfree
  case dirs =>
    intro d j i name he
    rw [hdirs he]
    exact h.dirs (hentry he)
  case dot => exact fun he => h.dot (hentry he)
  case parent =>
    intro d j i name he hname hi
    obtain ⟨hdir, hkeep⟩ := hsub (hentry he) hname hi
    obtain ⟨⟨j', hj'⟩, honly⟩ := h.parent (hentry he) hname hdir
    exact ⟨⟨j', hkeep hj'⟩, fun he' hname' => honly (hentry he') hname'⟩
  case depth =>
    obtain ⟨depth, hdepth⟩ := h.depth
    refine ⟨depth, ?_⟩
    intro d j i name he hname hi
    exact hdepth (hentry he) hname (hsub (hentry he) hname hi).1
  case root =>
    refine ⟨hroot, ?_, fun he => h.root.2.2 (hentry he)⟩
    rintro ⟨d, j, name, he, hname⟩
    exact h.root.2.1 ⟨d, j, name, hentry he, hname⟩

/-- An inode without links has no name. -/
theorem no_name (h : Links disk C) (hk : (disk k).nlink = 0) (he : Entry disk d j name k) : ¬ IsName name := by
  intro hname
  have := h.one_le (counted_of_name he hname)
  omega

/-- The link count of an inode is changed, and the credits for it with it. -/
theorem setNlink {v : ℤ} (h : Links disk C) (hk : (disk k).type ≠ 0) (hC : ∀ i ≠ k, C'.count i = C.count i)
    (hv : v - C'.count k = (disk k).nlink - C.count k) : Links (update disk k { disk k with nlink := v }) C' := by
  have hdir : ∀ d, (update disk k { disk k with nlink := v } d).dir = (disk d).dir := update_dir rfl
  have htype : ∀ d, (update disk k { disk k with nlink := v } d).type = (disk d).type := by
    intro d
    by_cases hd : d = k
    · rw [hd, update_self]
    · rw [update_of_ne hd]
  refine h.of_entries (entry_congr hdir).mp ?_ ?_ (fun _ => htype _) ?_ ((htype _).trans h.root.1)
  · intro i
    refine (h.bound i).mono ?_ fun e he => (counted_congr hdir).mp he
    by_cases hi : i = k
    · subst hi
      rw [update_self]
      dsimp only
      omega
    · rw [update_of_ne hi, hC i hi]
  · intro i hi
    rw [htype] at hi
    have hik : i ≠ k := fun hik => hk (hik ▸ hi)
    rw [update_of_ne hik]
    exact h.free hi
  · intro d j i name _ _ hi
    exact ⟨(htype i).symm.trans hi, (entry_congr hdir).mpr⟩

/-- A free inode is allocated. -/
theorem mark {type : ℕ} (h : Links disk C) (hk : (disk k).type = 0) (htype : type ≠ 0) :
    Links (update disk k ⟨type, 0, []⟩) C := by
  have hfree := h.free hk
  have hdir : ∀ d, (update disk k ⟨type, 0, []⟩ d).dir = (disk d).dir := update_dir hfree.2.symm
  refine h.of_entries (entry_congr hdir).mp ?_ ?_ ?_ ?_ ?_
  · intro i
    refine (h.bound i).mono ?_ fun e he => (counted_congr hdir).mp he
    by_cases hi : i = k
    · subst hi
      rw [update_self, hfree.1]
    · rw [update_of_ne hi]
  · intro i hi
    by_cases hik : i = k
    · rw [hik, update_self] at hi
      exact absurd hi htype
    · rw [update_of_ne hik] at hi ⊢
      exact h.free hi
  · intro d j i name he
    have hd : d ≠ k := by
      rintro rfl
      rw [Entry, update_self] at he
      simp at he
    rw [update_of_ne hd]
  · intro d j i name he hname hi
    have hik : i ≠ k := fun hik => h.no_name hfree.1 (hik ▸ he) hname
    rw [update_of_ne hik] at hi
    exact ⟨hi, (entry_congr hdir).mpr⟩
  · have hroot : rootIno ≠ k := by
      intro hroot
      have := h.root.1
      rw [hroot, hk] at this
      cases this
    rw [update_of_ne hroot]
    exact h.root.1

/-- An inode without links is freed, and its entries with it. -/
theorem erase (h : Links disk C) (hk : (disk k).nlink = 0) : Links (update disk k ⟨0, 0, []⟩) C := by
  have hne : ∀ {d j name i}, Entry (update disk k ⟨0, 0, []⟩) d j name i → d ≠ k := by
    intro d j name i he hd
    rw [hd, Entry, update_self] at he
    simp at he
  have hentry : ∀ {d j i name}, Entry (update disk k ⟨0, 0, []⟩) d j name i → Entry disk d j name i := by
    intro d j i name he
    have hd := hne he
    rwa [Entry, update_of_ne hd] at he
  refine h.of_entries hentry ?_ ?_ (fun he => by rw [update_of_ne (hne he)]) ?_ ?_
  · intro i
    refine (h.bound i).mono ?_ ?_
    · by_cases hi : i = k
      · subst hi
        rw [update_self, hk]
      · rw [update_of_ne hi]
    · rintro e ⟨name, he, hdot, hdotdot⟩
      refine ⟨name, hentry he, hdot, fun hname => ?_⟩
      obtain ⟨d, j, s, he', hs⟩ := hdotdot hname
      exact ⟨d, j, s, hentry he', hs⟩
  · intro i hi
    by_cases hik : i = k
    · rw [hik, update_self]
      exact ⟨rfl, rfl⟩
    · rw [update_of_ne hik] at hi ⊢
      exact h.free hi
  · intro d j i name he hname hi
    have hik : i ≠ k := fun hik => h.no_name hk (hik ▸ he) hname
    rw [update_of_ne hik] at hi
    refine ⟨hi, fun hup => ?_⟩
    rw [Entry, update_of_ne hik]
    exact hup
  · have hroot : rootIno ≠ k := by
      intro hroot
      have := h.root_one_le
      rw [hroot, hk] at this
      omega
    rw [update_of_ne hroot]
    exact h.root.1

end Links

/-! ### A new entry -/

/-- The entry `j` of `k` is new, and the rest is as before. -/
structure Adds (disk disk' : ℕ → Dinode) (k j : ℕ) (name : Name) (x : ℕ) : Prop where
  /-- The entries. -/
  entry {d i y : ℕ} {s : Name} : Entry disk' d i s y ↔ Entry disk d i s y ∨ d = k ∧ i = j ∧ s = name ∧ y = x
  /-- There was none. -/
  vacant {s : Name} {y : ℕ} : ¬ Entry disk k j s y
  /-- The types. -/
  type (d : ℕ) : (disk' d).type = (disk d).type
  /-- The link counts. -/
  nlink (d : ℕ) : (disk' d).nlink = (disk d).nlink
  /-- The other directories. -/
  dir {d : ℕ} : d ≠ k → (disk' d).dir = (disk d).dir

theorem adds_putEntry (disk : ℕ → Dinode) (k : ℕ) (name : Name) (x : ℕ) :
    ∃ j, Adds disk (update disk k { disk k with dir := putEntry (disk k).dir (name, x) }) k j name x := by
  obtain ⟨j, hvacant, hput⟩ := putEntry_spec (disk k).dir (name, x)
  refine ⟨j, ?_, fun he => hvacant _ he, ?_, ?_, fun hd => by rw [update_of_ne hd]⟩
  · intro d i y s
    by_cases hd : d = k
    · subst hd
      rw [Entry, update_self, hput, Prod.mk.injEq, Entry]
      simp
    · rw [Entry, update_of_ne hd, Entry]
      simp [hd]
  · intro d
    by_cases hd : d = k
    · rw [hd, update_self]
    · rw [update_of_ne hd]
  · intro d
    by_cases hd : d = k
    · rw [hd, update_self]
    · rw [update_of_ne hd]

namespace Adds

theorem named (ha : Adds disk disk' k j name x) {i : ℕ} : Named disk' i ↔ Named disk i ∨ i = x ∧ IsName name := by
  constructor
  · rintro ⟨d, l, s, he, hs⟩
    rcases ha.entry.mp he with he | ⟨rfl, rfl, rfl, rfl⟩
    · exact .inl ⟨d, l, s, he, hs⟩
    · exact .inr ⟨rfl, hs⟩
  · rintro (⟨d, l, s, he, hs⟩ | ⟨rfl, hname⟩)
    · exact ⟨d, l, s, ha.entry.mpr (.inl he), hs⟩
    · exact ⟨k, j, name, ha.entry.mpr (.inr ⟨rfl, rfl, rfl, rfl⟩), hname⟩

/-- The clauses about single entries. -/
theorem links (ha : Adds disk disk' k j name x) (h : Links disk C) (hk : (disk k).type = tDir)
    (hbound : ∀ i, Bounded disk' C' i) (hdot : name = Inodes.dot → x = k)
    (hdotdot : name = dotdot → k ≠ rootIno)
    (hname : IsName name → x ≠ rootIno ∧ ((disk x).type = tDir → ¬ Named disk x ∧ (∃ j', Entry disk x j' dotdot k) ∧
      x ≠ k ∧ ∀ {i y s}, Entry disk x i s y → ¬ IsName s)) : Links disk' C' := by
  constructor
  case bound => exact hbound
  case free =>
    intro i hi
    rw [ha.type] at hi
    rw [ha.nlink]
    refine ⟨(h.free hi).1, ?_⟩
    rw [ha.dir, (h.free hi).2]
    rintro rfl
    rw [hk] at hi
    cases hi
  case dirs =>
    intro d l i s he
    rw [ha.type]
    rcases ha.entry.mp he with he | ⟨rfl, -, -, -⟩
    · exact h.dirs he
    · exact hk
  case dot =>
    intro d l i he
    rcases ha.entry.mp he with he | ⟨rfl, -, hs, rfl⟩
    · exact h.dot he
    · exact hdot hs.symm
  case parent =>
    intro d l i s he hs hi
    rw [ha.type] at hi
    rcases ha.entry.mp he with he | ⟨rfl, rfl, rfl, rfl⟩
    · obtain ⟨⟨j', hj'⟩, honly⟩ := h.parent he hs hi
      refine ⟨⟨j', ha.entry.mpr (.inl hj')⟩, ?_⟩
      intro e l' s' he' hs'
      rcases ha.entry.mp he' with he' | ⟨rfl, rfl, rfl, rfl⟩
      · exact honly he' hs'
      · exact absurd ⟨d, l, s, he, hs⟩ ((hname hs').2 hi).1
    · obtain ⟨hunnamed, ⟨j', hj'⟩, -, -⟩ := (hname hs).2 hi
      refine ⟨⟨j', ha.entry.mpr (.inl hj')⟩, ?_⟩
      intro e l' s' he' hs'
      rcases ha.entry.mp he' with he' | ⟨rfl, rfl, -, -⟩
      · exact absurd ⟨e, l', s', he', hs'⟩ hunnamed
      · exact ⟨rfl, rfl⟩
  case depth =>
    obtain ⟨depth, hdepth⟩ := h.depth
    by_cases hnew : IsName name ∧ (disk x).type = tDir
    · obtain ⟨hunnamed, -, hxk, hnames⟩ := (hname hnew.1).2 hnew.2
      refine ⟨update depth x (depth k + 1), ?_⟩
      intro d l i s he hs hi
      rw [ha.type] at hi
      rcases ha.entry.mp he with he | ⟨rfl, rfl, rfl, rfl⟩
      · have hix : i ≠ x := by
          rintro rfl
          exact hunnamed ⟨d, l, s, he, hs⟩
        have hdx : d ≠ x := by
          rintro rfl
          exact hnames he hs
        rw [update_of_ne hix, update_of_ne hdx]
        exact hdepth he hs hi
      · rw [update_self, update_of_ne hxk.symm]
        exact Nat.lt_succ_self _
    · refine ⟨depth, ?_⟩
      intro d l i s he hs hi
      rw [ha.type] at hi
      rcases ha.entry.mp he with he | ⟨rfl, rfl, rfl, rfl⟩
      · exact hdepth he hs hi
      · exact absurd ⟨hs, hi⟩ hnew
  case root =>
    rw [ha.type, ha.named]
    refine ⟨h.root.1, ?_, ?_⟩
    · rintro (hroot | ⟨hroot, hs⟩)
      · exact h.root.2.1 hroot
      · exact (hname hs).1 hroot.symm
    · intro l i he
      rcases ha.entry.mp he with he | ⟨hroot, -, hs, -⟩
      · exact h.root.2.2 he
      · exact absurd hroot.symm (hdotdot hs.symm)

/-- The entry `.`. -/
theorem links_dot (ha : Adds disk disk' k j Inodes.dot k) (h : Links disk C) (hk : (disk k).type = tDir) :
    Links disk' C := by
  have hnot : ¬ IsName Inodes.dot := fun hn => hn.1 rfl
  refine ha.links h hk ?_ (fun _ => rfl) (fun hd => absurd hd (by decide)) fun hn => absurd hn hnot
  intro i
  rw [Bounded, ha.nlink]
  refine (h.bound i).mono le_rfl ?_
  rintro e ⟨s, he, hs, hsd⟩
  rcases ha.entry.mp he with he | ⟨-, -, rfl, -⟩
  · exact ⟨s, he, hs, fun hd => (ha.named.mp (hsd hd)).resolve_right fun hn => hnot hn.2⟩
  · exact absurd rfl hs

/-- The entry `..` of a directory that has no name yet. -/
theorem links_dotdot (ha : Adds disk disk' k j dotdot x) (h : Links disk C) (hk : (disk k).type = tDir)
    (hunnamed : ¬ Named disk k) (hroot : k ≠ rootIno) : Links disk' C := by
  have hnot : ¬ IsName dotdot := fun hn => hn.2 rfl
  have hnamed : ∀ {i}, Named disk' i → Named disk i :=
    fun hi => (ha.named.mp hi).resolve_right fun hn => hnot hn.2
  refine ha.links h hk ?_ (fun hd => absurd hd (by decide)) (fun _ => hroot) fun hn => absurd hn hnot
  intro i
  rw [Bounded, ha.nlink]
  refine (h.bound i).mono le_rfl ?_
  rintro e ⟨s, he, hs, hsd⟩
  rcases ha.entry.mp he with he | ⟨hek, -, rfl, -⟩
  · exact ⟨s, he, hs, fun hd => hnamed (hsd hd)⟩
  · exact absurd (hek ▸ hnamed (hsd rfl)) hunnamed

/-- A name for a file takes a credit for it. -/
theorem links_file (ha : Adds disk disk' k j name x) (h : Links disk (x ::ₘ C)) (hk : (disk k).type = tDir)
    (hname : IsName name) (hx : (disk x).type ≠ tDir) : Links disk' C := by
  have hroot : x ≠ rootIno := by
    rintro rfl
    exact hx h.root.1
  have hempty : ∀ {i s y}, ¬ Entry disk x i s y := fun he => hx (h.dirs he)
  refine ha.links h hk ?_ (fun hd => absurd hd hname.1) (fun hd => absurd hd hname.2)
    fun _ => ⟨hroot, fun hd => absurd hd hx⟩
  intro i
  have hcounted : ∀ e ≠ (k, j), Counted disk' i e → Counted disk i e := by
    rintro ⟨d, l⟩ hne ⟨s, he, hs, hsd⟩
    rcases ha.entry.mp he with he | ⟨rfl, rfl, -, -⟩
    · refine ⟨s, he, hs, fun hd => (ha.named.mp (hsd hd)).resolve_right ?_⟩
      rintro ⟨hdx, -⟩
      have he : Entry disk d l s i := he
      rw [show d = x from hdx] at he
      exact hempty he
    · exact absurd rfl hne
  rw [Bounded, ha.nlink]
  by_cases hi : i = x
  · subst hi
    refine ((h.bound i).gain (k, j) hcounted).mono ?_ fun _ he => he
    rw [Multiset.count_cons_self]
    push_cast
    omega
  · refine (h.bound i).mono ?_ ?_
    · rw [Multiset.count_cons_of_ne hi]
    · intro e he
      refine hcounted e ?_ he
      rintro rfl
      obtain ⟨s, he, -, -⟩ := he
      rcases ha.entry.mp he with he | ⟨-, -, -, hix⟩
      · exact ha.vacant he
      · exact hi hix

/-- The name of a new directory takes a credit for it and one for the directory that its `..` is. -/
theorem links_dir (ha : Adds disk disk' k j name x) (h : Links disk (k ::ₘ x ::ₘ C)) (hk : (disk k).type = tDir)
    (hname : IsName name) (hx : (disk x).type = tDir) (hxk : x ≠ k) (hunnamed : ¬ Named disk x) (hroot : x ≠ rootIno)
    (hdir : (disk x).dir = [some (Inodes.dot, x), some (dotdot, k)]) : Links disk' C := by
  have hentry : ∀ {i s y}, Entry disk x i s y → s = Inodes.dot ∨ s = dotdot ∧ i = 1 ∧ y = k := by
    intro i s y he
    rw [Entry, hdir] at he
    rcases i with _ | _ | i
    · simp_all
    · simp_all
    · simp at he
  refine ha.links h hk ?_ (fun hd => absurd hd hname.1) (fun hd => absurd hd hname.2)
    fun _ => ⟨hroot, fun _ => ⟨hunnamed, ⟨1, ?_⟩, hxk, ?_⟩⟩
  · intro i
    have hcounted : ∀ e, e ≠ (k, j) → e ≠ (x, 1) → Counted disk' i e → Counted disk i e := by
      rintro ⟨d, l⟩ hne hne' ⟨s, he, hs, hsd⟩
      rcases ha.entry.mp he with he | ⟨rfl, rfl, -, -⟩
      · refine ⟨s, he, hs, fun hd => (ha.named.mp (hsd hd)).resolve_right ?_⟩
        rintro ⟨hdx, -⟩
        have he : Entry disk d l s i := he
        rw [show d = x from hdx] at he hne'
        rcases hentry he with hdot | ⟨-, rfl, -⟩
        · exact hs hdot
        · exact hne' rfl
      · exact absurd rfl hne
    have hfirst : ∀ {e}, Counted disk' i e → e = (k, j) → i = x := by
      rintro e ⟨s, he, -, -⟩ rfl
      rcases ha.entry.mp he with he | ⟨-, -, -, hix⟩
      · exact absurd he ha.vacant
      · exact hix
    have hsecond : ∀ {e}, Counted disk' i e → e = (x, 1) → i = k := by
      rintro e ⟨s, he, hs, -⟩ rfl
      rcases ha.entry.mp he with he | ⟨hd, -, -, -⟩
      · rcases hentry he with hdot | ⟨-, -, hik⟩
        · exact absurd hdot hs
        · exact hik
      · exact absurd hd hxk
    rw [Bounded, ha.nlink]
    by_cases hi : i = x
    · subst hi
      refine ((h.bound i).gain (k, j) fun e hne he => hcounted e hne (fun h => hxk (hsecond he h)) he).mono ?_
        fun _ he => he
      rw [Multiset.count_cons_of_ne hxk, Multiset.count_cons_self]
      push_cast
      omega
    · by_cases hik : i = k
      · subst hik
        refine ((h.bound i).gain (x, 1) fun e hne he => hcounted e (fun h => hi (hfirst he h)) hne he).mono ?_
          fun _ he => he
        rw [Multiset.count_cons_self, Multiset.count_cons_of_ne hi]
        push_cast
        omega
      · refine (h.bound i).mono ?_ fun e he => hcounted e (fun h => hi (hfirst he h)) (fun h => hik (hsecond he h)) he
        rw [Multiset.count_cons_of_ne hik, Multiset.count_cons_of_ne hi]
  · rw [Entry, hdir]
    rfl
  · intro i y s he hs
    rcases hentry he with hdot | ⟨hdd, -, -⟩
    · exact hs.1 hdot
    · exact hs.2 hdd

end Adds

/-! ### An entry goes away -/

/-- The entry `j` of `k` goes away, and the rest is as before. -/
structure Drops (disk disk' : ℕ → Dinode) (k j : ℕ) : Prop where
  /-- The entries. -/
  entry {d i y : ℕ} {s : Name} : Entry disk' d i s y ↔ Entry disk d i s y ∧ ¬ (d = k ∧ i = j)
  /-- The types. -/
  type (d : ℕ) : (disk' d).type = (disk d).type
  /-- The link counts. -/
  nlink (d : ℕ) : (disk' d).nlink = (disk d).nlink
  /-- A directory without entries stays one. -/
  dir {d : ℕ} : (disk d).dir = [] → (disk' d).dir = []

theorem drops_set (disk : ℕ → Dinode) (k j : ℕ) :
    Drops disk (update disk k { disk k with dir := (disk k).dir.set j none }) k j := by
  have hfields : ∀ d, (update disk k { disk k with dir := (disk k).dir.set j none } d).type = (disk d).type ∧
      (update disk k { disk k with dir := (disk k).dir.set j none } d).nlink = (disk d).nlink := by
    intro d
    by_cases hd : d = k
    · rw [hd, update_self]
      exact ⟨rfl, rfl⟩
    · rw [update_of_ne hd]
      exact ⟨rfl, rfl⟩
  refine ⟨?_, fun d => (hfields d).1, fun d => (hfields d).2, ?_⟩
  · intro d i y s
    by_cases hd : d = k
    · subst hd
      rw [Entry, update_self, List.getElem?_set, Entry]
      by_cases hi : j = i
      · rw [if_pos hi]
        split_ifs <;> simp [hi]
      · rw [if_neg hi]
        simp [Ne.symm hi]
    · rw [Entry, update_of_ne hd, Entry]
      simp [hd]
  · intro d hempty
    by_cases hd : d = k
    · rw [hd, update_self, ← hd, hempty]
      rfl
    · rw [update_of_ne hd, hempty]

namespace Drops

theorem old (hd : Drops disk disk' k j) {d i y : ℕ} {s : Name} (he : Entry disk' d i s y) : Entry disk d i s y :=
  (hd.entry.mp he).1

theorem named (hd : Drops disk disk' k j) {i : ℕ} : Named disk' i → Named disk i := by
  rintro ⟨d, l, s, he, hs⟩
  exact ⟨d, l, s, hd.old he, hs⟩

theorem counted (hd : Drops disk disk' k j) {i : ℕ} {e : ℕ × ℕ} (he : Counted disk' i e) : Counted disk i e := by
  obtain ⟨s, he, hs, hsd⟩ := he
  exact ⟨s, hd.old he, hs, fun hdd => hd.named (hsd hdd)⟩

/-- The clauses about single entries, where the entry is one with a name. -/
theorem links (hd : Drops disk disk' k j) (h : Links disk C) (he : Entry disk k j name x) (hname : IsName name)
    (hbound : ∀ i, Bounded disk' C' i) : Links disk' C' := by
  refine h.of_entries hd.old hbound ?_ (fun _ => hd.type _) ?_ ((hd.type _).trans h.root.1)
  · intro i hi
    rw [hd.type] at hi
    rw [hd.nlink]
    exact ⟨(h.free hi).1, hd.dir (h.free hi).2⟩
  · intro d l i s _ _ hi
    refine ⟨(hd.type i).symm.trans hi, ?_⟩
    intro j' e hj'
    refine hd.entry.mpr ⟨hj', ?_⟩
    rintro ⟨rfl, rfl⟩
    rw [Entry] at he hj'
    rw [hj', Option.some.injEq, Option.some.injEq, Prod.mk.injEq] at he
    exact hname.2 he.1.symm

/-- The name of an inode gives a credit for it. -/
theorem links_file (hd : Drops disk disk' k j) (h : Links disk C) (he : Entry disk k j name x) (hname : IsName name) :
    Links disk' (x ::ₘ C) := by
  refine hd.links h he hname ?_
  intro i
  rw [Bounded, hd.nlink]
  by_cases hi : i = x
  · subst hi
    refine ((h.bound i).lose (counted_of_name he hname) ?_).mono ?_ fun _ he => he
    · intro e he'
      refine ⟨hd.counted he', ?_⟩
      rintro rfl
      obtain ⟨s, he', -, -⟩ := he'
      exact (hd.entry.mp he').2 ⟨rfl, rfl⟩
    · rw [Multiset.count_cons_self]
      push_cast
      omega
  · refine (h.bound i).mono ?_ fun e he' => hd.counted he'
    rw [Multiset.count_cons_of_ne hi]

/-- The name of a directory gives a credit for it, and one for the directory that its `..` is. -/
theorem links_dir (hd : Drops disk disk' k j) (h : Links disk C) (he : Entry disk k j name x) (hname : IsName name)
    (hx : (disk x).type = tDir) : Links disk' (k ::ₘ x ::ₘ C) := by
  obtain ⟨⟨j', hup⟩, honly⟩ := h.parent he hname hx
  have hxk : x ≠ k := by
    obtain ⟨depth, hdepth⟩ := h.depth
    have hlt := hdepth he hname hx
    rintro rfl
    omega
  have hunnamed : ¬ Named disk' x := by
    rintro ⟨e, l, s, he', hs⟩
    exact (hd.entry.mp he').2 (honly (hd.old he') hs)
  have hlink : Counted disk k (x, j') := ⟨dotdot, hup, by decide, fun _ => ⟨k, j, name, he, hname⟩⟩
  have hfile := hd.links_file h he hname
  refine hd.links h he hname ?_
  intro i
  by_cases hi : i = k
  · subst hi
    rw [Bounded, hd.nlink]
    refine ((h.bound i).lose hlink ?_).mono ?_ fun _ he => he
    · intro e he'
      refine ⟨hd.counted he', ?_⟩
      rintro rfl
      obtain ⟨s, he', -, hsd⟩ := he'
      have hold := hd.old he'
      rw [Entry] at hold hup
      rw [hup, Option.some.injEq, Option.some.injEq, Prod.mk.injEq] at hold
      exact hunnamed (hsd hold.1.symm)
    · rw [Multiset.count_cons_self, Multiset.count_cons_of_ne hxk.symm]
      push_cast
      omega
  · refine (hfile.bound i).mono ?_ fun _ he => he
    rw [Multiset.count_cons_of_ne hi]

end Drops

end SdeSystems.Inodes
