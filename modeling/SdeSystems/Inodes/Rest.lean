import SdeSystems.Inodes.Outlines

/-!
# Processes between two calls

`Rest` says of a state where all processes are between two calls that what is counted is what they use. It says just
what the tokens say (`rest_of_inv`, `inv_of_rest`), and it holds of a new disk with the first process (`boot_rest`).
-/

namespace SdeSystems.Inodes

open Function Relation Lib Names

variable {ι : Type} {n m : ℕ} {s s' : State ι n m} {T : ι → Tokens n m} {t t' : Tokens n m}
  {oh : Fin m → Option (Handle n)} {p q : ι} {i : Fin n} {h : Handle n} {f : Fin m} {k : ℕ} {u : User n m}

/-! ### Between two calls -/

/-- The current directories of a process. -/
def Proc.cwds : Proc n m → Multiset (Fin n)
  | .user u => {u.cwd}
  | .forked u v => {v.cwd, u.cwd}
  | .dead => 0

/-- The open files of a process, one for each descriptor. -/
def Proc.files : Proc n m → Multiset (Fin m)
  | .user u => u.ofile.reduceOption
  | .forked u v => v.ofile.reduceOption + u.ofile.reduceOption
  | .dead => 0

/-- What a process has between two calls is what it uses. -/
theorem Home.uses {b : Proc n m} (ht : Home b t) : ∃ R X, t = idle R 0 X ∧ R.map Handle.slot = b.cwds ∧
    X.map Prod.fst = b.files := by
  cases ht with
  | user hslot hX => exact ⟨_, _, rfl, by rw [Multiset.map_singleton, hslot]; rfl, hX⟩
  | forked hslot hX hchild hY =>
    refine ⟨_, _, rfl, ?_, ?_⟩
    · rw [Multiset.insert_eq_cons, Multiset.map_cons, Multiset.map_singleton, hslot, hchild]
      rfl
    · rw [Multiset.map_add, hX, hY]
      rfl
  | dead => exact ⟨0, 0, rfl, rfl, rfl⟩

/-- The tokens of a process between two calls, with the handles `H` of the cache and `F` of the open files. -/
def Proc.tokens (H : Fin n → Handle n) (F : Fin m → Option (Handle n)) (b : Proc n m) : Tokens n m :=
  idle (b.cwds.map H) 0 (b.files.filterMap fun f => (F f).map (Prod.mk f))

theorem shares_filterMap {F : Fin m → Option (Handle n)} {M : Multiset (Fin m)} (hF : ∀ f ∈ M, F f ≠ none) :
    (M.filterMap fun f => (F f).map (Prod.mk f)).map Prod.fst = M := by
  induction M using Multiset.induction_on with
  | empty => rfl
  | cons f M ih =>
    obtain ⟨h, hh⟩ := Option.ne_none_iff_exists'.mp (hF f (Multiset.mem_cons_self f M))
    rw [Multiset.filterMap_cons_some _ f M (b := (f, h)) (by rw [hh]; rfl), Multiset.map_cons,
      ih fun g hg => hF g (Multiset.mem_cons_of_mem hg)]

theorem home_tokens {H : Fin n → Handle n} {F : Fin m → Option (Handle n)} {b : Proc n m} (hH : ∀ i, (H i).slot = i)
    (hF : ∀ f ∈ b.files, F f ≠ none) : Home b (b.tokens H F) := by
  cases b with
  | user u =>
    have htokens : (Proc.user u).tokens H F = idle {H u.cwd} 0
        ((Proc.user u).files.filterMap fun f => (F f).map (Prod.mk f)) := by
      rw [Proc.tokens, Proc.cwds, Multiset.map_singleton]
    rw [htokens]
    exact .user (hH u.cwd) (shares_filterMap hF)
  | forked u v =>
    have hfiles : (Proc.forked u v).files = (Proc.user v).files + (Proc.user u).files := rfl
    have htokens : (Proc.forked u v).tokens H F = idle {H v.cwd, H u.cwd} 0
        (((Proc.user v).files.filterMap fun f => (F f).map (Prod.mk f)) +
          (Proc.user u).files.filterMap fun f => (F f).map (Prod.mk f)) := by
      rw [Proc.tokens, Proc.cwds, Multiset.insert_eq_cons, Multiset.map_cons, Multiset.map_singleton, hfiles,
        Multiset.filterMap_add]
      rfl
    rw [htokens]
    exact .forked (hH u.cwd) (shares_filterMap fun f hf => hF f (Multiset.mem_add.mpr (.inr hf))) (hH v.cwd)
      (shares_filterMap fun f hf => hF f (Multiset.mem_add.mpr (.inl hf)))
  | dead => exact .dead

section

variable [Fintype ι]

/-- All processes are between two calls, `b` being what they are, and what is counted is what they use. -/
structure Rest (s : State ι n m) (b : ι → Proc n m) : Prop where
  /-- Nobody has a lock. -/
  lock (i : Fin n) : s.lock i = none
  /-- The reference count of a cached inode is that of the current directories and open files. -/
  refs (i : Fin n) : (s.icache i).ref =
    (total fun p => (b p).cwds).count i + (total (held (fun f => (s.ftable f).ip) id)).count i
  /-- The reference count of an open file is that of the descriptors. -/
  files (f : Fin m) : (s.ftable f).ref = (total fun p => (b p).files).count f
  /-- An open file has an inode, and no other. -/
  ip (f : Fin m) : (s.ftable f).ip ≠ none ↔ 0 < (s.ftable f).ref
  /-- No inode is cached twice. -/
  unique {i j : Fin n} : 0 < (s.icache i).ref → 0 < (s.icache j).ref → (s.icache i).inum = (s.icache j).inum → i = j
  /-- What is used is allocated. -/
  live {i : Fin n} : 0 < (s.icache i).ref → (s.disk (s.icache i).inum).type ≠ 0
  /-- The cache is written through. -/
  copy {i : Fin n} : 0 < (s.icache i).ref → (s.icache i).valid = true →
    (s.icache i).type = (s.disk (s.icache i).inum).type ∧ (s.icache i).nlink = (s.disk (s.icache i).inum).nlink
  /-- The links are counted. -/
  links : Links s.disk 0
  /-- A directory has `.` and `..`. -/
  dots (k : ℕ) : Finished (s.disk k)

variable {b : ι → Proc n m}

theorem total_map {α β : Type} (g : α → β) (F : ι → Multiset α) : total (fun p => (F p).map g) = (total F).map g := by
  unfold total
  exact (map_sum (Multiset.mapAddMonoidHom g) F Finset.univ).symm

/-- **The tokens of processes between two calls say that the counts are right.** -/
theorem rest_of_inv (hI : Inv s T) (hT : ∀ p, Home (b p) (T p)) : Rest s b := by
  obtain ⟨oh, hI⟩ := hI
  choose R X hidle hslots hfiles using fun p => (hT p).uses
  have hgrips : ∀ p i, (T p).grips i = none := fun p i => by rw [hidle]; rfl
  have hgone : (total fun p => (T p).gone) = 0 := total_zero fun p => by rw [hidle]; rfl
  have hblank : (total fun p => (T p).blank) = 0 := total_zero fun p => by rw [hidle]; rfl
  have hcredits : (total fun p => (T p).credits) = 0 := total_zero fun p => by rw [hidle]; rfl
  have hcwds : (total fun p => (T p).refs).map Handle.slot = total fun p => (b p).cwds := by
    rw [← total_map]
    exact total_congr fun p => by rw [hidle]; exact hslots p
  have hshares : (total fun p => (T p).files).map Prod.fst = total fun p => (b p).files := by
    rw [← total_map]
    exact total_congr fun p => by rw [hidle]; exact hfiles p
  have hopen : (total (held oh id)).map Handle.slot = total (held (fun f => (s.ftable f).ip) id) := by
    rw [← total_map]
    refine total_congr fun f => ?_
    rw [held, held, hI.files.ip]
    cases oh f <;> rfl
  have hcount : ∀ f, (s.ftable f).ref = (total fun p => (b p).files).count f := by
    intro f
    rw [hI.files.count, hblank, hshares, Multiset.count_zero, add_zero]
  constructor
  case lock =>
    intro i
    cases hlock : s.lock i with
    | none => rfl
    | some p => exact absurd (hgrips p i) ((hI.lock p i).mp hlock)
  case refs =>
    intro i
    rw [hI.refs.count, hgone, handles, Multiset.map_add, Multiset.count_add, hcwds, hopen, Multiset.count_zero,
      add_zero]
  case files => exact hcount
  case ip =>
    intro f
    rw [hI.files.ip, hcount, ← hshares, Multiset.count_pos]
    constructor
    · intro hne
      exact hI.files.shared fun hnone => hne (by rw [hnone]; rfl)
    · intro hmem
      obtain ⟨⟨g, h⟩, hgh, rfl⟩ := Multiset.mem_map.mp hmem
      rw [hI.files.share hgh]
      exact Option.some_ne_none _
  case unique => exact hI.refs.unique
  case live =>
    intro i hi
    rw [hI.refs.count, hgone, Multiset.count_zero, add_zero] at hi
    obtain ⟨h, hh, rfl⟩ := Multiset.mem_map.mp (Multiset.count_pos.mp hi)
    obtain ⟨hinum, htype, hne⟩ := hI.refs.handle hh
    rw [hinum]
    exact fun hzero => hne (htype.symm.trans hzero)
  case copy =>
    intro i hi hv
    obtain ⟨htype, hnlink, -⟩ := hI.copy hi hv fun p => by rw [hgrips]; exact (Option.some_ne_none _).symm
    exact ⟨htype, hnlink⟩
  case links => exact hcredits ▸ hI.links
  case dots =>
    intro k
    rcases hI.dots k with hd | ⟨p, type, hf⟩ | ⟨p, i, d, hd, -⟩
    · exact hd
    · rw [hidle] at hf
      cases hf
    · exact absurd (hgrips p i) (ne_of_sees hd)

/-- What a process between two calls uses, counted or not. -/
theorem inv_of_rest (hs : Rest s b) : ∃ T, Inv s T ∧ ∀ p, Home (b p) (T p) := by
  let H : Fin n → Handle n := fun i => ⟨i, (s.icache i).inum, (s.disk (s.icache i).inum).type⟩
  let F : Fin m → Option (Handle n) := fun f => (s.ftable f).ip.map H
  have hF : ∀ {f}, F f ≠ none ↔ 0 < (s.ftable f).ref := by
    intro f
    rw [← hs.ip f]
    exact not_congr Option.map_eq_none_iff
  have hmem : ∀ p, ∀ f ∈ (b p).files, F f ≠ none := by
    intro p f hf
    rw [hF, hs.files]
    exact Multiset.count_pos.mpr (mem_total.mpr ⟨p, hf⟩)
  refine ⟨fun p => (b p).tokens H F, ⟨F, ?_⟩, fun p => home_tokens (fun _ => rfl) (hmem p)⟩
  have hgone : (total fun p => ((b p).tokens H F).gone) = 0 := total_zero fun _ => rfl
  have hblank : (total fun p => ((b p).tokens H F).blank) = 0 := total_zero fun _ => rfl
  have hcredits : (total fun p => ((b p).tokens H F).credits) = 0 := total_zero fun _ => rfl
  have hcwds : (total fun p => ((b p).tokens H F).refs).map Handle.slot = total fun p => (b p).cwds := by
    rw [← total_map]
    refine total_congr fun p => ?_
    rw [Proc.tokens, idle, Multiset.map_map]
    exact Multiset.map_id _
  have hshares : (total fun p => ((b p).tokens H F).files).map Prod.fst = total fun p => (b p).files := by
    rw [← total_map]
    exact total_congr fun p => shares_filterMap (hmem p)
  have hopen : (total (held F id)).map Handle.slot = total (held (fun f => (s.ftable f).ip) id) := by
    rw [← total_map]
    refine total_congr fun f => ?_
    rw [held, held]
    cases hip : (s.ftable f).ip <;> simp [F, hip, H]
  have hslots : (handles (fun p => (b p).tokens H F) F).map Handle.slot =
      (total fun p => (b p).cwds) + total (held (fun f => (s.ftable f).ip) id) := by
    rw [handles, Multiset.map_add, hcwds, hopen]
  have hgrips : ∀ p i, ((b p).tokens H F).grips i = none := fun _ _ => rfl
  constructor
  case refs =>
    refine ⟨?_, hs.unique, ?_⟩
    · intro i
      rw [hgone, hslots, Multiset.count_add, hs.refs, Multiset.count_zero, add_zero]
    · intro h hh
      have hcount : 0 < (s.icache h.slot).ref := by
        rw [hs.refs, ← Multiset.count_add, ← hslots]
        exact Multiset.count_pos.mpr (Multiset.mem_map_of_mem _ hh)
      have heq : h = H h.slot := by
        rcases mem_handles.mp hh with ⟨p, hp⟩ | ⟨f, hf⟩
        · obtain ⟨i, -, rfl⟩ := Multiset.mem_map.mp hp
          rfl
        · obtain ⟨i, -, rfl⟩ := Option.map_eq_some_iff.mp hf
          rfl
      rw [heq]
      exact ⟨rfl, rfl, hs.live hcount⟩
  case files =>
    constructor
    case count =>
      intro f
      rw [hblank, hshares, hs.files, Multiset.count_zero, add_zero]
    case share =>
      intro f h hh
      obtain ⟨p, hp⟩ := mem_total.mp hh
      obtain ⟨g, -, hg⟩ := (Multiset.mem_filterMap _ _).mp hp
      obtain ⟨x, hx, heq⟩ := Option.map_eq_some_iff.mp hg
      obtain ⟨rfl, rfl⟩ := Prod.mk.inj heq
      exact hx
    case shared =>
      intro f hf
      rw [hshares, ← Multiset.count_pos, ← hs.files]
      exact hF.mp hf
    case ip =>
      intro f
      cases hip : (s.ftable f).ip <;> simp [F, hip, H]
    case blank =>
      intro f hf
      rw [hblank] at hf
      exact absurd hf (Multiset.notMem_zero f)
  case links =>
    rw [hcredits]
    exact hs.links
  case lock =>
    intro p i
    rw [hs.lock]
    exact ⟨fun h => absurd h (Option.some_ne_none p).symm, fun h => absurd (hgrips p i) h⟩
  case backed => exact fun hg => absurd rfl hg
  case sees => exact fun hd => absurd rfl (ne_of_sees hd)
  case sole => exact fun hg => by cases hg
  case copy =>
    intro i hi hv _
    exact ⟨(hs.copy hi hv).1, (hs.copy hi hv).2, fun hzero => hs.live hi ((hs.copy hi hv).1.symm.trans hzero)⟩
  case fresh => exact fun hf => by cases hf
  case dots => exact fun k => .inl (hs.dots k)

end

/-! ### The first process -/

/-- A disk with nothing but the root directory. -/
def rootDisk (inum : ℕ) : Dinode :=
  if inum = rootIno then ⟨tDir, 1, [some (dot, rootIno), some (dotdot, rootIno)]⟩ else ⟨0, 0, []⟩

/-- Nothing is cached but the root directory, and no file is open. -/
def boot (ninodes : ℕ) : State ι (n + 1) m where
  ninodes := ninodes
  disk := rootDisk
  icache := fun i => if i = 0 then ⟨rootIno, 1, false, 0, 0⟩ else ⟨0, 0, false, 0, 0⟩
  lock := fun _ => none
  ftable := fun _ => ⟨0, none⟩

/-- The first process is in the root directory, and there is no other. -/
def initproc [DecidableEq ι] (p₀ p : ι) : Proc (n + 1) m :=
  if p = p₀ then .user ⟨0, List.replicate 16 none⟩ else .dead

theorem entry_rootDisk {d j : ℕ} {name : Name} (he : Entry rootDisk d j name k) :
    d = rootIno ∧ k = rootIno ∧ (j = 0 ∧ name = dot ∨ j = 1 ∧ name = dotdot) := by
  unfold Entry rootDisk at he
  split at he
  · refine ⟨‹_›, ?_⟩
    rcases j with _ | _ | j
    · cases he
      exact ⟨rfl, .inl ⟨rfl, rfl⟩⟩
    · cases he
      exact ⟨rfl, .inr ⟨rfl, rfl⟩⟩
    · cases he
  · cases he

theorem not_named_rootDisk : ¬ Named rootDisk k := by
  rintro ⟨d, j, name, he, hname⟩
  rcases (entry_rootDisk he).2.2 with ⟨-, hdot⟩ | ⟨-, hdotdot⟩
  · exact hname.1 hdot
  · exact hname.2 hdotdot

theorem rootDisk_root : rootDisk rootIno = ⟨tDir, 1, [some (dot, rootIno), some (dotdot, rootIno)]⟩ := if_pos rfl

theorem rootDisk_of_ne (hk : k ≠ rootIno) : rootDisk k = ⟨0, 0, []⟩ := if_neg hk

theorem rootDisk_links : Links rootDisk 0 := by
  have hcounted : ∀ {k e}, ¬ Counted rootDisk k e := by
    rintro k e ⟨name, he, hdot, hdotdot⟩
    rcases (entry_rootDisk he).2.2 with ⟨-, hname⟩ | ⟨-, hname⟩
    · exact hdot hname
    · exact not_named_rootDisk (hdotdot hname)
  constructor
  case bound =>
    intro k F hF
    have hempty : F = ∅ := Finset.eq_empty_of_forall_notMem fun e he => hcounted (hF e he)
    rw [hempty, Finset.card_empty, Multiset.count_zero]
    by_cases hk : k = rootIno
    · rw [if_pos hk, hk, rootDisk_root]
      rfl
    · rw [if_neg hk, rootDisk_of_ne hk]
      rfl
  case free =>
    intro k hk
    by_cases hroot : k = rootIno
    · rw [hroot, rootDisk_root] at hk
      cases hk
    · rw [rootDisk_of_ne hroot]
      exact ⟨rfl, rfl⟩
  case dirs =>
    intro d j k name he
    rw [(entry_rootDisk he).1, rootDisk_root]
  case dot =>
    intro d j k he
    exact (entry_rootDisk he).2.1.trans (entry_rootDisk he).1.symm
  case parent => exact fun he hname => absurd ⟨_, _, _, he, hname⟩ not_named_rootDisk
  case depth => exact ⟨id, fun he hname => absurd ⟨_, _, _, he, hname⟩ not_named_rootDisk⟩
  case root =>
    refine ⟨?_, not_named_rootDisk, fun he => (entry_rootDisk he).2.1⟩
    rw [rootDisk_root]

/-- **The first process starts at rest.** -/
theorem boot_rest [Fintype ι] [DecidableEq ι] (p₀ : ι) (ninodes : ℕ) :
    Rest (boot ninodes : State ι (n + 1) m) (initproc p₀) := by
  have hinit : ∀ {α : Type} (g : Proc (n + 1) m → Multiset α), g .dead = 0 →
      (total fun p => g (initproc p₀ p)) = g (.user ⟨0, List.replicate 16 none⟩) := by
    intro α g hg
    rw [total_single (i := p₀) (fun p hp => by rw [initproc, if_neg hp, hg]), initproc, if_pos rfl]
  have hclosed : (total (held (fun f => ((boot ninodes : State ι (n + 1) m).ftable f).ip) id)) = 0 :=
    total_zero fun _ => rfl
  have hpos : ∀ i, 0 < ((boot ninodes : State ι (n + 1) m).icache i).ref → i = 0 := by
    intro i hi
    by_contra hne
    simp only [boot, if_neg hne] at hi
    exact absurd hi (lt_irrefl 0)
  constructor
  case lock => exact fun _ => rfl
  case refs =>
    intro i
    rw [hclosed, hinit Proc.cwds rfl, Proc.cwds, Multiset.count_zero, add_zero]
    by_cases hi : i = 0
    · rw [hi, Multiset.count_singleton_self]
      rfl
    · rw [Multiset.count_singleton, if_neg hi]
      simp only [boot, if_neg hi]
  case files =>
    intro f
    rw [hinit Proc.files rfl]
    rfl
  case ip => exact fun f => ⟨fun h => absurd rfl h, fun h => absurd h (lt_irrefl 0)⟩
  case unique => exact fun hi hj _ => (hpos _ hi).trans (hpos _ hj).symm
  case live =>
    intro i hi
    rw [hpos i hi]
    exact Nat.one_ne_zero
  case copy =>
    intro i hi hv
    rw [hpos i hi] at hv
    cases hv
  case links => exact rootDisk_links
  case dots =>
    intro k
    change Finished (rootDisk k)
    by_cases hk : k = rootIno
    · rw [hk]
      exact fun _ => ⟨by decide, by decide⟩
    · rw [Finished, rootDisk_of_ne hk]
      exact nofun

end SdeSystems.Inodes
