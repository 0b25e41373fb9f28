import Mathlib.Data.List.ReduceOption
import SdeSystems.Inodes.Rules

/-!
# Proof outlines

What each function and each system call does to the tokens of the process that runs it: none asks for more than it
has, and at the end of a call a process has its current directory, its open files and nothing else.
-/

namespace SdeSystems.Inodes

open Function Lib Names

variable {n m : ℕ} {t t' : Tokens n m} {h x : Handle n} {R : Multiset (Handle n)} {X : Multiset (Fin m × Handle n)}
  {ip dp : Fin n} {d e : Dinode} {g g' : Option Grip} {f : Fin m} {u : User n m} {path : List UInt8} {name : Name}

/-! ### Tokens -/

theorem grip_grip : (t.grip ip g).grip ip g' = t.grip ip g' := by
  simp only [Tokens.grip, update_idem]

theorem grip_none (hg : t.grips ip = none) : t.grip ip none = t := by
  simp only [Tokens.grip]
  rw [← hg, update_eq_self]

theorem grip_comm (hne : ip ≠ dp) : (t.grip ip g).grip dp g' = (t.grip dp g').grip ip g := by
  simp only [Tokens.grip, update_comm hne]

theorem grips_self : (t.grip ip g).grips ip = g := by
  simp only [Tokens.grip, update_self]

theorem grips_ne (hne : dp ≠ ip) : (t.grip ip g).grips dp = t.grips dp := by
  simp only [Tokens.grip, update_of_ne hne]

theorem lookup_ne_none_iff {dir : Dir} : lookup dir name ≠ none ↔ ∃ (j k : ℕ), dir[j]? = some (some (name, k)) := by
  constructor
  · intro hne
    obtain ⟨⟨inum, off⟩, hlook⟩ := Option.ne_none_iff_exists'.mp hne
    obtain ⟨i, -, hdir⟩ := lookupFrom_some hlook
    exact ⟨i, inum, hdir⟩
  · rintro ⟨j, k, hdir⟩ hnone
    exact lookupFrom_none hnone j k hdir

/-- A new entry leaves `.` and `..`. -/
theorem Finished.put {a : Name × ℕ} (hd : Finished d) : Finished { d with dir := putEntry d.dir a } := by
  have hkeep : ∀ s, lookup d.dir s ≠ none → lookup (putEntry d.dir a) s ≠ none := by
    intro s hs
    obtain ⟨j, k, hdir⟩ := lookup_ne_none_iff.mp hs
    obtain ⟨_, -, hput⟩ := putEntry_spec d.dir a
    exact lookup_ne_none_iff.mpr ⟨j, k, (hput j _).mpr (.inl hdir)⟩
  exact fun htype => ⟨hkeep _ (hd htype).1, hkeep _ (hd htype).2⟩

/-- An entry with a name goes away, `.` and `..` stay. -/
theorem Finished.clear {inum off : ℕ} (hd : Finished d) (hlook : lookup d.dir name = some (inum, off))
    (hname : IsName name) : Finished { d with dir := d.dir.set off none } := by
  obtain ⟨i, hi, hentry⟩ := lookupFrom_some hlook
  rw [Nat.zero_add] at hi
  have hkeep : ∀ s, s ≠ name → lookup d.dir s ≠ none → lookup (d.dir.set off none) s ≠ none := by
    intro s hne hs
    obtain ⟨j, k, hdir⟩ := lookup_ne_none_iff.mp hs
    refine lookup_ne_none_iff.mpr ⟨j, k, ?_⟩
    rw [List.getElem?_set_ne, hdir]
    intro hoff
    rw [← hi, hoff, hdir] at hentry
    exact hne (Prod.mk.inj (Option.some.inj (Option.some.inj hentry))).1
  exact fun htype => ⟨hkeep _ hname.1.symm (hd htype).1, hkeep _ hname.2.symm (hd htype).2⟩

/-! ### Locks and counts -/

theorem ilock_wp {Q : Unit → Tokens n m → Prop} (hh : t.Has ip h)
    (hQ : ∀ d, t.grips ip = none → Loads t ip d → Q () (t.grip ip (some (.loaded d)))) :
    wp pre post (ilock ip) Q t := by
  refine wp_call ⟨h, hh⟩ ?_
  rintro - t' rfl
  refine wp_call ⟨h, hh⟩ ?_
  rintro - t₁ ⟨hg, rfl⟩
  refine ⟨⟨grips_self, h, hh⟩, ?_⟩
  rintro - t₂ ⟨d, ⟨htype, hdone, hfresh, hlink⟩, rfl⟩
  rw [grip_grip]
  refine hQ d hg ⟨htype, hdone, hfresh, ?_⟩
  intro dp d' y name hd' hy hname hlook
  have hne : dp ≠ ip := by
    rintro rfl
    rw [hg] at hd'
    cases hd'
  exact hlink dp d' y name ((grips_ne hne).trans hd') hy hname hlook

theorem iput_wp {Q : Unit → Tokens n m → Prop} (hR : t.refs = h ::ₘ R) (hslot : h.slot = ip) (hnone : t.fresh = none)
    (hgone : t.gone = 0) (hQ : t.grips ip = none → Q () { t with refs := R }) : wp pre post (iput ip) Q t := by
  have hh : h ∈ t.refs := by
    rw [hR]
    exact Multiset.mem_cons_self h R
  have hhas : t.Has ip h := ⟨hslot, .inl hh⟩
  refine wp_call ⟨h, hhas⟩ ?_
  rintro - t₁ ⟨hg, rfl⟩
  have hdrop : wp pre post (call (.drop ip)) Q t := by
    refine ⟨⟨hg, .inr ⟨h, hh, hslot⟩⟩, ?_⟩
    rintro - t' (⟨hmem, -⟩ | ⟨-, ht'⟩)
    · rw [hgone] at hmem
      exact absurd hmem (Multiset.notMem_zero _)
    · rw [ht' h R hslot hR]
      exact hQ hg
  have hrelease : ∀ g, (g = .raw ∨ ∃ d, (g = .loaded d ∨ g = .sole d) ∧ Finished d) →
      wp pre post (do call (.releasesleep ip); call (.drop ip)) Q (t.grip ip (some g)) := by
    intro g hgrip
    refine wp_call ?_ ?_
    · rcases hgrip with rfl | ⟨d, hd, hdone⟩
      · exact .inl grips_self
      · exact .inr ⟨d, hd.imp (fun hd => by rw [grips_self, hd]) (fun hd => by rw [grips_self, hd]), hdone⟩
    · rintro - t' rfl
      rw [grip_grip, grip_none hg]
      exact hdrop
  refine wp_bind ?_
  refine wp_call ⟨.inl grips_self, h, hhas⟩ ?_
  rintro a t₂ (⟨d, hd, -, -⟩ | ⟨-, ⟨hvalid, rfl⟩ | ⟨d, rfl, ⟨-, hdone, -⟩, rfl⟩⟩)
  · rw [grips_self] at hd
    cases hd
  · rw [if_neg (by rw [hvalid]; simp)]
    exact hrelease _ (.inl rfl)
  · have hfin := hdone hnone
    rw [grip_grip]
    by_cases hzero : d.nlink = 0
    · rw [if_pos ⟨rfl, hzero⟩]
      refine wp_call ⟨⟨d, grips_self⟩, h, hh, hslot⟩ ?_
      rintro r t₃ ⟨d', hd', hcase⟩
      rw [grips_self] at hd'
      cases hd'
      rcases hcase with ⟨hone, -, rfl⟩ | ⟨hnot, rfl⟩
      · rw [if_pos hone, grip_grip]
        refine wp_call ⟨⟨d, grips_self⟩, hnone⟩ ?_
        intro r t₄ ht₄
        rw [ht₄ h R hslot hR]
        refine ⟨grips_self, ?_⟩
        rintro - t₅ rfl
        refine wp_call (.inl grips_self) ?_
        rintro - t₆ rfl
        refine ⟨⟨grips_self, .inl (Multiset.mem_cons_self ip _)⟩, ?_⟩
        rintro - t₇ (⟨-, ht₇⟩ | ⟨hnot, -⟩)
        · rw [ht₇ t.gone rfl]
          simp only [Tokens.grip, update_idem]
          rw [← hg, update_eq_self]
          exact hQ hg
        · exact absurd (Multiset.mem_cons_self ip _) hnot
      · rw [if_neg fun hone => hnot ⟨hone, hzero⟩]
        exact hrelease _ (.inr ⟨d, .inl rfl, hfin⟩)
    · rw [if_neg fun hc => hzero hc.2]
      exact hrelease _ (.inr ⟨d, .inl rfl, hfin⟩)

theorem iunlockput_wp {Q : Unit → Tokens n m → Prop} (hR : t.refs = h ::ₘ R) (hslot : h.slot = ip)
    (hnone : t.fresh = none) (hgone : t.gone = 0) (hd : t.grips ip = some (.loaded d)) (hdone : Finished d)
    (hQ : Q () { t.grip ip none with refs := R }) : wp pre post (iunlockput ip) Q t := by
  have hh : h ∈ t.refs := by
    rw [hR]
    exact Multiset.mem_cons_self h R
  refine wp_call ⟨⟨d, hd, hdone⟩, h, hslot, .inl hh⟩ ?_
  rintro - t' rfl
  exact iput_wp hR hslot hnone hgone fun _ => hQ

/-- `dirlink` in a directory that the process has locked. -/
theorem dirlink_wp {Q : Bool → Tokens n m → Prop} {inum : ℕ} {C : Multiset ℕ} (hd : t.grips dp = some (.loaded d))
    (hh : h ∈ t.refs) (hslot : h.slot = dp) (hdir : d.type = tDir) (hnone : t.fresh = none) (hgone : t.gone = 0)
    (hput : lookup d.dir name = none → Put t dp d h name inum C) (hfalse : lookup d.dir name ≠ none → Q false t)
    (htrue : lookup d.dir name = none →
      Q true { t.grip dp (some (.loaded { d with dir := putEntry d.dir (name, inum) })) with credits := C }) :
    wp pre post (dirlink dp name inum) Q t := by
  refine wp_call ⟨d, h, hd, ⟨hslot, .inl hh⟩, hdir⟩ ?_
  rintro r t' ⟨d', hd', ⟨rfl, hlook, rfl⟩ | ⟨x, off, rfl, hlook, rfl⟩⟩
  · have heq : d' = d := by
      rw [hd'] at hd
      cases hd
      rfl
    subst heq
    refine wp_call ⟨hnone, d', h, C, hd, hh, hslot, hdir, hlook, hput hlook⟩ ?_
    intro _ t' ht'
    rw [ht' d' h C hd hh hslot (hput hlook)]
    exact htrue hlook
  · have heq : d' = d := by
      rw [hd'] at hd
      cases hd
      rfl
    subst heq
    refine wp_bind (iput_wp (h := x) (R := t.refs) rfl rfl hnone hgone ?_)
    intro _
    exact hfalse (by rw [hlook]; simp)

/-! ### Paths -/

/-- A process between two steps of a call, without locks. -/
def idle (R : Multiset (Handle n)) (C : Multiset ℕ) (X : Multiset (Fin m × Handle n)) : Tokens n m :=
  ⟨R, 0, fun _ => none, C, none, X, 0⟩

variable {C : Multiset ℕ}

/-- It has one lock. -/
def one (R : Multiset (Handle n)) (C : Multiset ℕ) (X : Multiset (Fin m × Handle n)) (ip : Fin n) (d : Dinode) :
    Tokens n m := (idle R C X).grip ip (some (.loaded d))

/-- It has two locks. -/
def two (R : Multiset (Handle n)) (C : Multiset ℕ) (X : Multiset (Fin m × Handle n)) (dp : Fin n) (d : Dinode)
    (ip : Fin n) (e : Dinode) : Tokens n m := (one R C X dp d).grip ip (some (.loaded e))

theorem one_grips : (one R C X ip d).grips ip = some (.loaded d) := grips_self

theorem one_grips_ne {i : Fin n} (hne : i ≠ ip) : (one R C X ip d).grips i = none := grips_ne hne

theorem two_grips : (two R C X dp d ip e).grips ip = some (.loaded e) := grips_self

theorem two_grips_fst (hne : ip ≠ dp) : (two R C X dp d ip e).grips dp = some (.loaded d) :=
  (grips_ne hne.symm).trans one_grips

theorem two_comm (hne : ip ≠ dp) : two R C X dp d ip e = two R C X ip e dp d := grip_comm hne.symm

theorem two_grip {e' : Dinode} : (two R C X dp d ip e).grip ip (some (.loaded e')) = two R C X dp d ip e' := grip_grip

theorem two_grip_fst {d' : Dinode} (hne : ip ≠ dp) :
    (two R C X dp d ip e).grip dp (some (.loaded d')) = two R C X dp d' ip e := by
  rw [two_comm hne, two_grip, two_comm hne.symm]

theorem one_addRef : (one (h ::ₘ R) C X ip d).addRef x = one (h ::ₘ x ::ₘ R) C X ip d := by
  simp only [one, idle, Tokens.grip, Tokens.addRef, Multiset.cons_swap x h]

section

variable {α : Type} {Q : α → Tokens n m → Prop} {k : Unit → Code n m α}

theorem idle_ilock (hh : h ∈ R) (hslot : h.slot = ip)
    (hQ : ∀ d, h.type = d.type → Finished d → wp pre post (k ()) Q (one R C X ip d)) :
    wp pre post (ilock ip >>= k) Q (idle R C X) := by
  have hhas : (idle R C X).Has ip h := ⟨hslot, .inl hh⟩
  refine wp_bind (ilock_wp hhas ?_)
  rintro d - ⟨htype, hdone, -, -⟩
  exact hQ d (htype h hhas) (hdone rfl)

theorem one_iunlock (hh : h ∈ R) (hslot : h.slot = ip) (hdone : Finished d) (hQ : wp pre post (k ()) Q (idle R C X)) :
    wp pre post (call (.iunlock ip) >>= k) Q (one R C X ip d) := by
  refine wp_call ⟨⟨d, one_grips, hdone⟩, h, hslot, .inl hh⟩ ?_
  rintro - t' rfl
  rw [one, grip_grip, grip_none rfl]
  exact hQ

theorem one_iunlockput (hslot : h.slot = ip) (hdone : Finished d) (hQ : wp pre post (k ()) Q (idle R C X)) :
    wp pre post (iunlockput ip >>= k) Q (one (h ::ₘ R) C X ip d) := by
  refine wp_bind (iunlockput_wp (h := h) (R := R) rfl hslot rfl rfl one_grips hdone ?_)
  rw [one, grip_grip, grip_none rfl]
  exact hQ

theorem two_iunlockput (hne : ip ≠ dp) (hslot : h.slot = ip) (hdone : Finished e)
    (hQ : wp pre post (k ()) Q (one R C X dp d)) :
    wp pre post (iunlockput ip >>= k) Q (two (h ::ₘ R) C X dp d ip e) := by
  refine wp_bind (iunlockput_wp (h := h) (R := R) rfl hslot rfl rfl two_grips hdone ?_)
  rw [two, grip_grip, grip_none (one_grips_ne hne)]
  exact hQ

/-- The fields of a locked inode are read. -/
theorem look_wp {k : Look → Code n m α} (hd : t.grips ip = some (.loaded d)) (hh : t.Has ip h)
    (hQ : wp pre post (k ⟨true, d.type, d.nlink⟩) Q t) :
    wp pre post ((call (.look ip) : Code n m Look) >>= k) Q t := by
  refine wp_call ⟨.inr ⟨d, hd⟩, h, hh⟩ ?_
  rintro r t' (⟨d', hd', rfl, rfl⟩ | ⟨hraw, -⟩)
  · rw [hd] at hd'
    cases hd'
    exact hQ
  · rw [hd] at hraw
    cases hraw

theorem inum_wp {k : ℕ → Code n m α} (hh : h ∈ t.refs) (hslot : h.slot = ip) (hQ : wp pre post (k h.inum) Q t) :
    wp pre post ((call (.inum ip) : Code n m ℕ) >>= k) Q t := by
  refine wp_call ⟨h, hh, hslot⟩ ?_
  rintro r t' ⟨rfl, hr⟩
  rw [hr h hh hslot]
  exact hQ

end

/-! ### Paths -/

/-- What holds after a look-up: without a handle more, or with that of the inode, which is a directory where it is that
of a parent. -/
def Found (R : Multiset (Handle n)) (C : Multiset ℕ) (X : Multiset (Fin m × Handle n)) (parent : Bool)
    (Q : Option (Fin n × Name) → Tokens n m → Prop) : Prop :=
  Q none (idle R C X) ∧ ∀ (x : Handle n) name, (parent = true → x.type = tDir) →
    Q (some (x.slot, name)) (idle (x ::ₘ R) C X)

theorem namexLoop_wp {parent : Bool} {path : List Name} {Q : Option (Fin n × Name) → Tokens n m → Prop}
    (hQ : Found R C X parent Q) : wp pre post (namexLoop parent path h.slot) Q (idle (h ::ₘ R) C X) := by
  induction path generalizing h with
  | nil =>
    simp only [namexLoop]
    split
    · exact wp_bind (iput_wp (h := h) (R := R) rfl rfl rfl rfl fun _ => hQ.1)
    · exact hQ.2 h [] fun htrue => absurd htrue ‹_›
  | cons name path ih =>
    have hmem : h ∈ h ::ₘ R := Multiset.mem_cons_self h R
    refine idle_ilock hmem rfl ?_
    intro d htype hdone
    refine look_wp one_grips ⟨rfl, .inl hmem⟩ ?_
    by_cases hdir : d.type = tDir
    · rw [if_neg (not_not.mpr hdir)]
      split
      · exact one_iunlock hmem rfl hdone (hQ.2 h name fun _ => htype.trans hdir)
      · refine wp_call ⟨d, h, one_grips, ⟨rfl, .inl hmem⟩, hdir⟩ ?_
        rintro r t' ⟨d', hd', ⟨rfl, -, rfl⟩ | ⟨x, off, rfl, -, rfl⟩⟩
        · exact one_iunlockput rfl hdone hQ.1
        · rw [one_addRef]
          exact one_iunlockput rfl hdone ih
    · rw [if_pos hdir]
      exact one_iunlockput rfl hdone hQ.1

theorem namex_wp {parent : Bool} {Q : Option (Fin n × Name) → Tokens n m → Prop} (hh : h ∈ R) (hslot : h.slot = u.cwd)
    (hQ : Found R C X parent Q) : wp pre post (namex u path parent) Q (idle R C X) := by
  unfold namex
  split
  · refine wp_call ⟨fun i d hi => (by cases hi), .inl ⟨rfl, rfl⟩⟩ ?_
    rintro r t' ⟨x, rfl, -, -, -, rfl⟩
    exact namexLoop_wp hQ
  · refine wp_call ⟨rfl, h, hh, hslot⟩ ?_
    intro _ t' ht'
    rw [ht' h hh hslot, ← hslot]
    exact namexLoop_wp hQ

theorem namei_wp {α : Type} {Q : α → Tokens n m → Prop} {k : Option (Fin n) → Code n m α} (hh : h ∈ R)
    (hslot : h.slot = u.cwd) (hnone : wp pre post (k none) Q (idle R C X))
    (hsome : ∀ x : Handle n, wp pre post (k (some x.slot)) Q (idle (x ::ₘ R) C X)) :
    wp pre post (namei u path >>= k) Q (idle R C X) :=
  wp_bind (wp_bind (namex_wp hh hslot ⟨hnone, fun x _ _ => hsome x⟩))

theorem nameiparent_wp {α : Type} {Q : α → Tokens n m → Prop} {k : Option (Fin n × Name) → Code n m α} (hh : h ∈ R)
    (hslot : h.slot = u.cwd) (hnone : wp pre post (k none) Q (idle R C X))
    (hsome : ∀ (x : Handle n) name, x.type = tDir → wp pre post (k (some (x.slot, name))) Q (idle (x ::ₘ R) C X)) :
    wp pre post (nameiparent u path >>= k) Q (idle R C X) :=
  wp_bind (namex_wp hh hslot ⟨hnone, fun x name hdir => hsome x name (hdir rfl)⟩)

/-! ### `sys_link` and `sys_unlink` -/

/-- A directory that is made has no other entry under the name than one to be written. -/
theorem Finished.isName (hd : Finished d) (hdir : d.type = tDir) (hlook : lookup d.dir name = none) : IsName name :=
  ⟨fun hname => (hd hdir).1 (hname ▸ hlook), fun hname => (hd hdir).2 (hname ▸ hlook)⟩

theorem decLink_wp {α : Type} {Q : α → Tokens n m → Prop} {k : Unit → Code n m α} (hh : h ∈ t.refs)
    (hslot : h.slot = ip) (hd : t.grips ip = some (.loaded d)) (hnone : t.fresh = none) (hC : t.credits = h.inum ::ₘ C)
    (hQ : wp pre post (k ()) Q { t.grip ip (some (.loaded { d with nlink := d.nlink - 1 })) with credits := C }) :
    wp pre post (call (.decLink ip) >>= k) Q t := by
  refine wp_call ⟨⟨d, hd⟩, hnone, h, hh, hslot, ?_⟩ ?_
  · rw [hC]
    exact Multiset.mem_cons_self _ _
  · intro _ t' ht'
    rw [ht' d h C hd hh hslot hC]
    exact hQ

theorem linkBad_wp {Q : Bool → Tokens n m → Prop} (hslot : x.slot = ip) (hQ : Q false (idle R C X)) :
    wp pre post (linkBad ip) Q (idle (x ::ₘ R) (x.inum ::ₘ C) X) := by
  have hmem : x ∈ x ::ₘ R := Multiset.mem_cons_self x R
  refine idle_ilock hmem hslot ?_
  intro d htype hdone
  refine decLink_wp hmem hslot one_grips rfl rfl ?_
  rw [one, grip_grip]
  refine one_iunlockput (R := R) (C := C) (X := X) hslot hdone ?_
  exact hQ

theorem linkAt_wp {Q : Bool → Tokens n m → Prop} {y : Handle n} (hip : x.slot = ip) (hdp : y.slot = dp)
    (hfile : x.type ≠ tDir) (hdir : y.type = tDir) (hQ : ∀ b, Q b (idle R C X)) :
    wp pre post (linkAt ip dp name) Q (idle (y ::ₘ x ::ₘ R) (x.inum ::ₘ C) X) := by
  have hy : y ∈ y ::ₘ x ::ₘ R := Multiset.mem_cons_self y _
  have hx : x ∈ y ::ₘ x ::ₘ R := Multiset.mem_cons_of_mem (Multiset.mem_cons_self x R)
  refine idle_ilock hy hdp ?_
  intro d htype hdone
  have hdtype : d.type = tDir := htype.symm.trans hdir
  refine inum_wp hx hip ?_
  refine wp_bind (dirlink_wp (C := C) one_grips hy hdp hdtype rfl rfl ?_ ?_ ?_)
  · intro hlook
    exact .file (hdone.isName hdtype hlook) hx hfile rfl
  · intro _
    exact one_iunlockput hdp hdone (linkBad_wp hip (hQ false))
  · intro _
    rw [one, grip_grip]
    refine one_iunlockput (R := x ::ₘ R) (C := C) (X := X) hdp hdone.put ?_
    exact wp_bind (iput_wp (h := x) (R := R) rfl hip rfl rfl fun _ => hQ true)

theorem sysLink_wp {old new : List UInt8} {Q : Bool → Tokens n m → Prop} (hh : h ∈ R) (hslot : h.slot = u.cwd)
    (hQ : ∀ b, Q b (idle R C X)) : wp pre post (sysLink u old new) Q (idle R C X) := by
  refine namei_wp hh hslot (hQ false) ?_
  intro x
  have hx : x ∈ x ::ₘ R := Multiset.mem_cons_self x R
  refine idle_ilock hx rfl ?_
  intro d htype hdone
  refine look_wp one_grips ⟨rfl, .inl hx⟩ ?_
  by_cases hdir : d.type = tDir
  · rw [if_pos hdir]
    exact one_iunlockput rfl hdone (hQ false)
  · rw [if_neg hdir]
    refine wp_call ⟨⟨d, one_grips⟩, rfl, x, hx, rfl⟩ ?_
    intro _ t' ht'
    rw [ht' d x one_grips hx rfl, one, grip_grip]
    refine one_iunlock (R := x ::ₘ R) (C := x.inum ::ₘ C) (X := X) hx rfl hdone ?_
    refine nameiparent_wp (Multiset.mem_cons_of_mem hh) hslot (linkBad_wp rfl (hQ false)) ?_
    intro y name hy
    exact linkAt_wp rfl rfl (fun hx => hdir (htype.symm.trans hx)) hy hQ

theorem isFull_wp {type : ℕ} {α : Type} {Q : α → Tokens n m → Prop} {k : Bool → Code n m α}
    (hQ : ∀ b, wp pre post (k b) Q t) : wp pre post (isFull ip type >>= k) Q t := by
  unfold isFull
  split
  · refine wp_call trivial ?_
    rintro b t' rfl
    exact hQ _
  · exact hQ false

/-- The links that an erased entry gives back: that of the inode, and where it is a directory that of its `..`. -/
def erased (y x : Handle n) (C : Multiset ℕ) : Multiset ℕ :=
  if x.type = tDir then y.inum ::ₘ x.inum ::ₘ C else x.inum ::ₘ C

theorem unlinkAt_wp {Q : Bool → Tokens n m → Prop} {y : Handle n} {off : ℕ} (hne : ip ≠ dp) (hip : x.slot = ip)
    (hdp : y.slot = dp) (hd : Finished d) (he : Finished e) (htype : x.type = e.type)
    (hlook : lookup d.dir name = some (x.inum, off)) (hname : IsName name) (hQ : Q true (idle R C X)) :
    wp pre post (unlinkAt dp ip off e.type) Q (two (x ::ₘ y ::ₘ R) C X dp d ip e) := by
  have hx : x ∈ x ::ₘ y ::ₘ R := Multiset.mem_cons_self x _
  have hy : y ∈ x ::ₘ y ::ₘ R := Multiset.mem_cons_of_mem (Multiset.mem_cons_self y R)
  -- what is left once the entry and the link of `..` are gone
  have hrest : ∀ d', Finished d' → wp pre post (do iunlockput dp; call (.decLink ip); iunlockput ip; pure true) Q
      (two (x ::ₘ y ::ₘ R) (x.inum ::ₘ C) X dp d' ip e) := by
    intro d' hd'
    rw [two_comm hne, Multiset.cons_swap]
    refine two_iunlockput hne.symm hdp hd' ?_
    refine decLink_wp (Multiset.mem_cons_self x R) hip one_grips rfl rfl ?_
    rw [one, grip_grip]
    refine one_iunlockput (R := R) (C := C) (X := X) hip he ?_
    exact hQ
  refine wp_call ⟨rfl, d, y, name, x, two_grips_fst hne, hy, hdp, hx, hlook, hname⟩ ?_
  intro _ t' ht'
  have hclear : t' = two (x ::ₘ y ::ₘ R) (erased y x C) X dp { d with dir := d.dir.set off none } ip e := by
    rw [ht' d y name x (two_grips_fst hne) hy hdp hx hlook, two_grip_fst hne]
    rfl
  rw [hclear]
  by_cases hdir : e.type = tDir
  · rw [if_pos hdir]
    refine decLink_wp (C := x.inum ::ₘ C) hy hdp (two_grips_fst hne) rfl ?_ ?_
    · exact if_pos (htype.trans hdir)
    · rw [two_grip_fst hne]
      exact hrest _ (hd.clear hlook hname)
  · rw [if_neg hdir]
    have hcredits : erased y x C = x.inum ::ₘ C := if_neg fun hx => hdir (htype.symm.trans hx)
    rw [hcredits]
    exact hrest _ (hd.clear hlook hname)

theorem sysUnlink_wp {Q : Bool → Tokens n m → Prop} (hh : h ∈ R) (hslot : h.slot = u.cwd)
    (hQ : ∀ b, Q b (idle R C X)) : wp pre post (sysUnlink u path) Q (idle R C X) := by
  refine nameiparent_wp hh hslot (hQ false) ?_
  intro y name hdir
  have hy : y ∈ y ::ₘ R := Multiset.mem_cons_self y R
  refine idle_ilock hy rfl ?_
  intro d htype hdone
  by_cases hdots : name = dot ∨ name = dotdot
  · rw [if_pos hdots]
    exact one_iunlockput rfl hdone (hQ false)
  · rw [if_neg hdots]
    have hname : IsName name := not_or.mp hdots
    refine wp_call ⟨d, y, one_grips, ⟨rfl, .inl hy⟩, htype.symm.trans hdir⟩ ?_
    rintro r t' ⟨d', hd', ⟨rfl, -, rfl⟩ | ⟨x, off, rfl, hlook, rfl⟩⟩
    · exact one_iunlockput rfl hdone (hQ false)
    · have heq : d' = d := Grip.loaded.inj (Option.some.inj (hd'.symm.trans one_grips))
      subst heq
      rw [one_addRef, Multiset.cons_swap]
      have hx : (one (x ::ₘ y ::ₘ R) C X y.slot d').Has x.slot x := ⟨rfl, .inl (Multiset.mem_cons_self x _)⟩
      refine wp_bind (ilock_wp hx ?_)
      rintro e hfree ⟨hxtype, hfin, -, hlinked⟩
      have hne : x.slot ≠ y.slot := by
        intro heq
        rw [heq, one_grips] at hfree
        cases hfree
      -- the entry that has just been found is a link of this inode
      have hpos : 1 ≤ e.nlink := hlinked y.slot d' x name one_grips hx hname ⟨off, hlook⟩
      refine look_wp two_grips hx ?_
      rw [if_neg (by dsimp only; omega)]
      refine isFull_wp ?_
      intro full
      cases full with
      | true =>
        refine two_iunlockput hne rfl (hfin rfl) ?_
        exact one_iunlockput rfl hdone (hQ false)
      | false => exact unlinkAt_wp hne rfl rfl hdone (hfin rfl) (hxtype x hx) hlook hname (hQ true)

/-! ### `create` -/

/-- `dirlink` in the second of two locked directories, under a name that it does not have. -/
theorem two_dirlink {α : Type} {Q : α → Tokens n m → Prop} {k : Bool → Code n m α} {inum : ℕ} {C' : Multiset ℕ}
    (hx : x ∈ R) (hslot : x.slot = ip) (hdir : e.type = tDir) (hlook : lookup e.dir name = none)
    (hput : Put (two R C X dp d ip e) ip e x name inum C')
    (hQ : wp pre post (k true) Q (two R C' X dp d ip { e with dir := putEntry e.dir (name, inum) })) :
    wp pre post (dirlink ip name inum >>= k) Q (two R C X dp d ip e) := by
  refine wp_bind (dirlink_wp (C := C') two_grips hx hslot hdir rfl rfl (fun _ => hput) (absurd hlook) ?_)
  intro _
  rw [two_grip]
  exact hQ

theorem createDots_wp {α : Type} {Q : α → Tokens n m → Prop} {k : Unit → Code n m α} {y : Handle n} (hne : ip ≠ dp)
    (hip : x.slot = ip) (hdp : y.slot = dp)
    (hQ : wp pre post (k ()) Q (two (x ::ₘ y ::ₘ R) (y.inum ::ₘ x.inum ::ₘ C) X dp { d with nlink := d.nlink + 1 } ip
      ⟨tDir, 1, [some (dot, x.inum), some (dotdot, y.inum)]⟩)) :
    wp pre post (createDots dp ip >>= k) Q (two (x ::ₘ y ::ₘ R) (x.inum ::ₘ C) X dp d ip ⟨tDir, 1, []⟩) := by
  have hx : x ∈ x ::ₘ y ::ₘ R := Multiset.mem_cons_self x _
  have hy : y ∈ x ::ₘ y ::ₘ R := Multiset.mem_cons_of_mem (Multiset.mem_cons_self y R)
  have hcredit : x.inum ∈ y.inum ::ₘ x.inum ::ₘ C := Multiset.mem_cons_of_mem (Multiset.mem_cons_self _ C)
  refine wp_bind (wp_call ⟨⟨d, two_grips_fst hne⟩, rfl, y, hy, hdp⟩ ?_)
  intro _ t' ht'
  have hinc : t' = two (x ::ₘ y ::ₘ R) (y.inum ::ₘ x.inum ::ₘ C) X dp { d with nlink := d.nlink + 1 } ip
      ⟨tDir, 1, []⟩ := by
    rw [ht' d y (two_grips_fst hne) hy hdp, two_grip_fst hne]
    rfl
  rw [hinc]
  refine inum_wp hx hip ?_
  refine two_dirlink hx hip rfl rfl .dot ?_
  refine inum_wp hy hdp ?_
  refine two_dirlink hx hip rfl rfl (.dotdot rfl hcredit) ?_
  exact hQ

/-- `ialloc` marks an inode that is free when it comes to it, and takes an entry of the cache for it. -/
theorem iallocLoop_wp {Q : Fin n → Tokens n m → Prop} {type : ℕ} (inums : List ℕ) (htype : type ≠ 0)
    (hnone : t.fresh = none) (hsole : ∀ i d, t.grips i ≠ some (.sole d))
    (hQ : ∀ x : Handle n, x.type = type → Q x.slot (({ t with fresh := some (x.inum, type) } : Tokens n m).addRef x)) :
    wp pre post (iallocLoop type inums) Q t := by
  induction inums with
  | nil => exact ⟨rfl, fun r => r.elim⟩
  | cons inum inums ih =>
    refine wp_call ⟨htype, hnone⟩ ?_
    rintro r t' (⟨rfl, rfl⟩ | ⟨rfl, rfl⟩)
    · refine ⟨⟨hsole, .inr ⟨type, rfl⟩⟩, ?_⟩
      rintro r t' ⟨x, rfl, rfl, -, hxtype, rfl⟩
      exact hQ x (hxtype type rfl)
    · exact ih

/-- A new inode, which is locked and has one link. -/
theorem newInode_wp {α : Type} {Q : α → Tokens n m → Prop} {k : Fin n → Code n m α} {type : ℕ} (htype : type ≠ 0)
    (hQ : ∀ x : Handle n, x.type = type → x.slot ≠ dp →
      wp pre post (k x.slot) Q (two (x ::ₘ R) (x.inum ::ₘ C) X dp d x.slot ⟨type, 1, []⟩)) :
    wp pre post (ialloc type >>= fun ip => do ilock ip; call (.linkOne ip); k ip) Q (one R C X dp d) := by
  unfold ialloc
  refine wp_bind (wp_call trivial ?_)
  rintro ninodes t' rfl
  refine iallocLoop_wp _ htype rfl ?_ ?_
  · intro i e hi
    by_cases hdp : i = dp
    · rw [hdp] at hi
      cases (one_grips (R := R) (C := C) (X := X) (d := d)).symm.trans hi
    · cases (one_grips_ne (R := R) (C := C) (X := X) (d := d) hdp).symm.trans hi
  · intro x hxtype
    have hx : (({ one R C X dp d with fresh := some (x.inum, type) } : Tokens n m).addRef x).Has x.slot x :=
      ⟨rfl, .inl (Multiset.mem_cons_self x R)⟩
    refine wp_bind (ilock_wp hx ?_)
    rintro e hfree ⟨-, -, hnew, -⟩
    obtain rfl := hnew x type hx rfl
    have hne : x.slot ≠ dp := by
      intro heq
      rw [heq] at hfree
      cases (one_grips (R := R) (C := C) (X := X) (d := d)).symm.trans hfree
    refine wp_call ⟨⟨_, grips_self⟩, x, Multiset.mem_cons_self x R, rfl, type, rfl⟩ ?_
    intro _ t' ht'
    rw [ht' _ x grips_self (Multiset.mem_cons_self x R) rfl, grip_grip]
    exact hQ x hxtype hne

theorem createAt_wp {Q : Fin n → Tokens n m → Prop} {y : Handle n} {type : ℕ} (htype : type ≠ 0) (hdp : y.slot = dp)
    (hdir : d.type = tDir) (hd : Finished d) (hlook : lookup d.dir name = none)
    (hQ : ∀ (x : Handle n) e, Finished e → Q x.slot (one (x ::ₘ R) C X x.slot e)) :
    wp pre post (createAt dp name type) Q (one (y ::ₘ R) C X dp d) := by
  refine newInode_wp htype ?_
  intro x hxtype hne
  have hname := hd.isName hdir hlook
  have hx : x ∈ x ::ₘ y ::ₘ R := Multiset.mem_cons_self x _
  have hy : y ∈ x ::ₘ y ::ₘ R := Multiset.mem_cons_of_mem (Multiset.mem_cons_self y R)
  -- the entry in the parent, and what comes after it
  have hlink : ∀ (d' e : Dinode) (C' : Multiset ℕ), d'.type = tDir → Finished d' → d'.dir = d.dir → Finished e →
      Put (two (x ::ₘ y ::ₘ R) C' X x.slot e dp d') dp d' y name x.inum C →
      wp pre post (do
        let ok ← dirlink dp name x.inum
        if ok then do
          iunlockput dp
          pure x.slot
        else panic .createDirlink) Q (two (x ::ₘ y ::ₘ R) C' X x.slot e dp d') := by
    intro d' e C' hdir' hd' hsame he hput
    refine two_dirlink hy hdp hdir' (hsame ▸ hlook) hput ?_
    rw [if_pos rfl, Multiset.cons_swap]
    refine two_iunlockput hne.symm hdp hd'.put ?_
    exact hQ x e he
  by_cases hmkdir : type = tDir
  · subst hmkdir
    rw [if_pos rfl]
    refine createDots_wp hne rfl hdp ?_
    refine inum_wp hx rfl ?_
    rw [two_comm hne]
    refine hlink _ _ _ hdir hd rfl (fun _ => ⟨nofun, nofun⟩) ?_
    exact .dir hname hx hxtype hne (two_grips_fst hne.symm) rfl rfl rfl
  · rw [if_neg hmkdir]
    refine inum_wp hx rfl ?_
    rw [two_comm hne]
    refine hlink _ _ _ hdir hd rfl (fun htype => absurd htype hmkdir) ?_
    exact .file hname hx (fun hx => hmkdir (hxtype.symm.trans hx)) rfl

theorem create_wp {α : Type} {Q : α → Tokens n m → Prop} {k : Option (Fin n) → Code n m α} {type : ℕ}
    (htype : type ≠ 0) (hh : h ∈ R) (hslot : h.slot = u.cwd) (hnone : wp pre post (k none) Q (idle R C X))
    (hsome : ∀ (x : Handle n) e, Finished e → wp pre post (k (some x.slot)) Q (one (x ::ₘ R) C X x.slot e)) :
    wp pre post (create u path type >>= k) Q (idle R C X) := by
  refine wp_bind (nameiparent_wp hh hslot hnone ?_)
  intro y name hdir
  have hy : y ∈ y ::ₘ R := Multiset.mem_cons_self y R
  refine idle_ilock hy rfl ?_
  intro d hytype hdone
  have hdtype : d.type = tDir := hytype.symm.trans hdir
  refine wp_call ⟨d, y, one_grips, ⟨rfl, .inl hy⟩, hdtype⟩ ?_
  rintro r t' ⟨d', hd', ⟨rfl, hlook, rfl⟩ | ⟨x, off, rfl, -, rfl⟩⟩
  · have heq : d' = d := Grip.loaded.inj (Option.some.inj (hd'.symm.trans one_grips))
    subst heq
    exact wp_bind (createAt_wp htype rfl hdtype hdone hlook hsome)
  · have hx : x ∈ x ::ₘ R := Multiset.mem_cons_self x R
    rw [one_addRef]
    refine one_iunlockput rfl hdone ?_
    refine idle_ilock hx rfl ?_
    intro e _ he
    refine look_wp one_grips ⟨rfl, .inl hx⟩ ?_
    split
    · exact hsome x e he
    · exact one_iunlockput rfl he hnone

/-! ### Open files -/

theorem openInode_wp {α : Type} {Q : α → Tokens n m → Prop} {k : Option (Fin n) → Code n m α} {omode : ℕ}
    (hh : h ∈ R) (hslot : h.slot = u.cwd) (hnone : wp pre post (k none) Q (idle R C X))
    (hsome : ∀ (x : Handle n) e, Finished e → wp pre post (k (some x.slot)) Q (one (x ::ₘ R) C X x.slot e)) :
    wp pre post (openInode u path omode >>= k) Q (idle R C X) := by
  unfold openInode
  split
  · exact create_wp (by decide) hh hslot hnone hsome
  · refine wp_bind (namei_wp hh hslot hnone ?_)
    intro x
    have hx : x ∈ x ::ₘ R := Multiset.mem_cons_self x R
    refine idle_ilock hx rfl ?_
    intro e _ he
    refine look_wp one_grips ⟨rfl, .inl hx⟩ ?_
    split
    · exact one_iunlockput rfl he hnone
    · exact hsome x e he

/-- The shares are those of the open files in the list. -/
def Shares (ofile : List (Option (Fin m))) (X : Multiset (Fin m × Handle n)) : Prop :=
  X.map Prod.fst = (ofile.reduceOption : Multiset (Fin m))

theorem reduceOption_set {ofile : List (Option (Fin m))} {fd : ℕ} (hfd : ofile[fd]? = some (some f)) :
    (ofile.reduceOption : Multiset (Fin m)) = f ::ₘ ((ofile.set fd none).reduceOption : Multiset (Fin m)) := by
  induction ofile generalizing fd with
  | nil => cases hfd
  | cons a ofile ih =>
    cases fd with
    | zero =>
      rw [List.getElem?_cons_zero] at hfd
      rw [Option.some.inj hfd, List.set_cons_zero, List.reduceOption_cons_of_some, List.reduceOption_cons_of_none]
      rfl
    | succ fd =>
      rw [List.getElem?_cons_succ] at hfd
      rw [List.set_cons_succ]
      cases a with
      | none =>
        rw [List.reduceOption_cons_of_none, List.reduceOption_cons_of_none]
        exact ih hfd
      | some g =>
        rw [List.reduceOption_cons_of_some, List.reduceOption_cons_of_some, ← Multiset.cons_coe, ← Multiset.cons_coe,
          ih hfd, Multiset.cons_swap]

theorem fdalloc_spec {v : User n m} {fd : ℕ} (hfd : fdalloc u f = some (v, fd)) :
    v.cwd = u.cwd ∧ (v.ofile.reduceOption : Multiset (Fin m)) = f ::ₘ (u.ofile.reduceOption : Multiset (Fin m)) := by
  obtain ⟨i, hi, heq⟩ := Option.map_eq_some_iff.mp hfd
  obtain ⟨rfl, rfl⟩ := Prod.mk.inj heq
  obtain ⟨hlt, hnone, -⟩ := List.findIdx?_eq_some_iff_getElem.mp hi
  refine ⟨rfl, ?_⟩
  dsimp only
  rw [reduceOption_set (f := f) (List.getElem?_set_self hlt), List.set_set]
  have hsame : u.ofile.set i none = u.ofile := by
    rw [← Option.isNone_iff_eq_none.mp hnone]
    exact List.set_getElem_self hlt
  rw [hsame]

theorem Shares.mem {ofile : List (Option (Fin m))} (hX : Shares ofile X) (hf : f ∈ ofile.reduceOption) :
    ∃ h Y, X = (f, h) ::ₘ Y := by
  have hmem : f ∈ X.map Prod.fst := by
    rw [hX]
    exact hf
  obtain ⟨⟨g, h⟩, hgh, rfl⟩ := Multiset.mem_map.mp hmem
  exact ⟨h, Multiset.exists_cons_of_mem hgh⟩

theorem argfd_mem {fd : ℕ} (hfd : argfd u fd = some f) : u.ofile[fd]? = some (some f) ∧ f ∈ u.ofile.reduceOption := by
  have hget : u.ofile[fd]? = some (some f) := Option.join_eq_some_iff.mp hfd
  exact ⟨hget, List.reduceOption_mem_iff.mpr (List.mem_of_getElem? hget)⟩

theorem fileclose_wp {Q : Unit → Tokens n m → Prop} (hQ : Q () (idle R C X)) :
    wp pre post (fileclose f) Q (idle R C ((f, h) ::ₘ X)) := by
  refine wp_call (.inr ⟨h, Multiset.mem_cons_self _ X, rfl⟩) ?_
  rintro r t' (⟨hblank, -⟩ | ⟨-, ht'⟩)
  · exact absurd hblank (Multiset.notMem_zero f)
  · rcases ht' h X rfl with ⟨rfl, rfl⟩ | ⟨rfl, rfl⟩
    · exact hQ
    · exact iput_wp (h := h) (R := R) rfl rfl rfl rfl fun _ => hQ

theorem sysOpen_wp {omode : ℕ} {Q : User n m × ℤ → Tokens n m → Prop} (hh : h ∈ R) (hslot : h.slot = u.cwd)
    (hfail : Q (u, -1) (idle R C X))
    (hopen : ∀ (x : Handle n) f v fd, fdalloc u f = some (v, fd) → Q (v, fd) (idle R C ((f, x) ::ₘ X))) :
    wp pre post (sysOpen u path omode) Q (idle R C X) := by
  refine openInode_wp hh hslot hfail ?_
  intro x e he
  have hx : x ∈ x ::ₘ R := Multiset.mem_cons_self x R
  refine wp_call trivial ?_
  rintro r t' (⟨rfl, rfl⟩ | ⟨f, rfl, rfl⟩)
  · exact one_iunlockput rfl he hfail
  · dsimp only
    rcases hfd : fdalloc u f with _ | ⟨v, fd⟩
    · refine wp_bind (wp_call (.inl (Multiset.mem_cons_self f 0)) ?_)
      rintro r t' (⟨-, rfl, ht'⟩ | ⟨hnot, -⟩)
      · rw [ht' 0 rfl]
        exact one_iunlockput rfl he hfail
      · exact absurd (Multiset.mem_cons_self f 0) hnot
    · refine wp_call ⟨⟨e, one_grips, he⟩, x, rfl, .inl hx⟩ ?_
      intro _ t' ht'
      have hback : (one (x ::ₘ R) C X x.slot e).grip x.slot none = idle (x ::ₘ R) C X := by
        rw [one, grip_grip, grip_none rfl]
      obtain rfl := ht'.trans (congrArg (fun t : Tokens n m => { t with blank := f ::ₘ 0 }) hback)
      refine wp_call ⟨Multiset.mem_cons_self f 0, rfl, rfl, x, hx, rfl⟩ ?_
      intro _ t' ht'
      rw [ht' x R 0 rfl rfl rfl]
      exact hopen x f v fd hfd

theorem sysDup_wp {fd : ℕ} {Q : User n m × ℤ → Tokens n m → Prop} (hX : Shares u.ofile X)
    (hfail : Q (u, -1) (idle R C X))
    (hdup : ∀ (x : Handle n) f v fd', fdalloc u f = some (v, fd') → Q (v, fd') (idle R C ((f, x) ::ₘ X))) :
    wp pre post (sysDup u fd) Q (idle R C X) := by
  unfold sysDup
  rcases harg : argfd u fd with _ | f
  · exact hfail
  · dsimp only
    rcases hfd : fdalloc u f with _ | ⟨v, fd'⟩
    · exact hfail
    · obtain ⟨h, Y, rfl⟩ := hX.mem (argfd_mem harg).2
      have hmem : (f, h) ∈ (f, h) ::ₘ Y := Multiset.mem_cons_self _ Y
      refine wp_call ⟨h, hmem⟩ ?_
      intro _ t' ht'
      rw [ht' h hmem]
      exact hdup h f v fd' hfd

theorem sysClose_wp {fd : ℕ} {Q : User n m × Bool → Tokens n m → Prop} (hX : Shares u.ofile X)
    (hfail : Q (u, false) (idle R C X))
    (hclose : ∀ Y, Shares (u.ofile.set fd none) Y → Q ({ u with ofile := u.ofile.set fd none }, true) (idle R C Y)) :
    wp pre post (sysClose u fd) Q (idle R C X) := by
  unfold sysClose
  rcases harg : argfd u fd with _ | f
  · exact hfail
  · obtain ⟨hget, hmem⟩ := argfd_mem harg
    obtain ⟨h, Y, rfl⟩ := hX.mem hmem
    refine wp_bind (fileclose_wp (hclose Y ?_))
    have hcons : f ::ₘ Y.map Prod.fst = f ::ₘ ((u.ofile.set fd none).reduceOption : Multiset (Fin m)) := by
      rw [← reduceOption_set hget, ← hX, Multiset.map_cons]
    exact (Multiset.cons_inj_right f).mp hcons

theorem withFile_wp {c : Panic} {Q : Unit → Tokens n m → Prop} (hf : (f, h) ∈ X) (hQ : Q () (idle R C X)) :
    wp pre post (withFile f c) Q (idle R C X) := by
  have hhas : (idle R C X).Has h.slot h := ⟨rfl, .inr ⟨f, hf⟩⟩
  refine wp_call ⟨h, hf⟩ ?_
  rintro r t' ⟨rfl, hr⟩
  rw [hr h hf]
  refine wp_bind (ilock_wp hhas ?_)
  rintro d - ⟨-, hdone, -, -⟩
  refine ⟨⟨⟨d, grips_self, hdone rfl⟩, h, hhas⟩, ?_⟩
  rintro - t' rfl
  rw [grip_grip, grip_none rfl]
  exact hQ

theorem filewrite_wp {pieces : ℕ} {Q : Unit → Tokens n m → Prop} (hf : (f, h) ∈ X) (hQ : Q () (idle R C X)) :
    wp pre post (filewrite f pieces) Q (idle R C X) := by
  induction pieces with
  | zero => exact hQ
  | succ pieces ih => exact wp_bind (withFile_wp hf ih)

theorem sysRead_wp {fd : ℕ} {Q : Unit → Tokens n m → Prop} (hX : Shares u.ofile X) (hQ : Q () (idle R C X)) :
    wp pre post (sysRead u fd) Q (idle R C X) := by
  unfold sysRead
  rcases harg : argfd u fd with _ | f
  · exact hQ
  · obtain ⟨h, Y, rfl⟩ := hX.mem (argfd_mem harg).2
    exact withFile_wp (Multiset.mem_cons_self _ Y) hQ

theorem sysWrite_wp {fd pieces : ℕ} {Q : Unit → Tokens n m → Prop} (hX : Shares u.ofile X) (hQ : Q () (idle R C X)) :
    wp pre post (sysWrite u fd pieces) Q (idle R C X) := by
  unfold sysWrite
  rcases harg : argfd u fd with _ | f
  · exact hQ
  · obtain ⟨h, Y, rfl⟩ := hX.mem (argfd_mem harg).2
    exact filewrite_wp (Multiset.mem_cons_self _ Y) hQ

/-! ### `chdir`, `exec`, `mkdir` and `mknod` -/

theorem sysMake_wp {type : ℕ} {Q : Bool → Tokens n m → Prop} (htype : type ≠ 0) (hh : h ∈ R) (hslot : h.slot = u.cwd)
    (hQ : ∀ b, Q b (idle R C X)) : wp pre post (sysMake u path type) Q (idle R C X) := by
  refine create_wp htype hh hslot (hQ false) ?_
  intro x e he
  exact one_iunlockput rfl he (hQ true)

theorem sysChdir_wp {Q : User n m × Bool → Tokens n m → Prop} (hslot : h.slot = u.cwd)
    (hfail : Q (u, false) (idle (h ::ₘ R) C X))
    (hchdir : ∀ x : Handle n, Q ({ u with cwd := x.slot }, true) (idle (x ::ₘ R) C X)) :
    wp pre post (sysChdir u path) Q (idle (h ::ₘ R) C X) := by
  refine namei_wp (Multiset.mem_cons_self h R) hslot hfail ?_
  intro x
  have hx : x ∈ x ::ₘ h ::ₘ R := Multiset.mem_cons_self x _
  refine idle_ilock hx rfl ?_
  intro d _ hdone
  refine look_wp one_grips ⟨rfl, .inl hx⟩ ?_
  split
  · exact one_iunlockput rfl hdone hfail
  · refine one_iunlock hx rfl hdone ?_
    exact wp_bind (iput_wp (h := h) (R := x ::ₘ R) (Multiset.cons_swap x h R) hslot rfl rfl fun _ => hchdir x)

theorem execFile_wp {Q : Bool → Tokens n m → Prop} (hh : h ∈ R) (hslot : h.slot = u.cwd)
    (hQ : ∀ b, Q b (idle R C X)) : wp pre post (execFile u path) Q (idle R C X) := by
  refine namei_wp hh hslot (hQ false) ?_
  intro x
  refine idle_ilock (Multiset.mem_cons_self x R) rfl ?_
  intro d _ hdone
  exact one_iunlockput rfl hdone (hQ true)

/-! ### `fork` and `exit` -/

theorem dupFiles_wp {ofile : List (Option (Fin m))} {Q : Unit → Tokens n m → Prop}
    (hX : ∀ f ∈ ofile.reduceOption, ∃ h, (f, h) ∈ X) (hQ : ∀ Y, Shares ofile Y → Q () (idle R C (Y + X))) :
    wp pre post (dupFiles ofile) Q (idle R C X) := by
  induction ofile generalizing X with
  | nil =>
    have hend := hQ 0 rfl
    rw [zero_add] at hend
    exact hend
  | cons a ofile ih =>
    cases a with
    | none => exact ih hX hQ
    | some f =>
      obtain ⟨h, hf⟩ := hX f (by simp)
      refine wp_call ⟨h, hf⟩ ?_
      intro _ t' ht'
      rw [ht' h hf]
      refine ih (X := (f, h) ::ₘ X) ?_ ?_
      · intro g hg
        obtain ⟨h', hg'⟩ := hX g (by simp [hg])
        exact ⟨h', Multiset.mem_cons_of_mem hg'⟩
      · intro Y hY
        rw [Multiset.add_cons, ← Multiset.cons_add]
        refine hQ ((f, h) ::ₘ Y) ?_
        rw [Shares, Multiset.map_cons, hY, List.reduceOption_cons_of_some]
        rfl

theorem closeFiles_wp {ofile : List (Option (Fin m))} {Q : Unit → Tokens n m → Prop} (hX : Shares ofile X)
    (hQ : Q () (idle R C 0)) : wp pre post (closeFiles ofile) Q (idle R C X) := by
  induction ofile generalizing X with
  | nil =>
    have hzero : X = 0 := Multiset.map_eq_zero.mp hX
    rw [hzero]
    exact hQ
  | cons a ofile ih =>
    cases a with
    | none => exact ih hX
    | some f =>
      obtain ⟨h, Y, rfl⟩ := hX.mem (f := f) (by simp)
      refine wp_bind (fileclose_wp ?_)
      refine ih ?_
      rw [Shares, Multiset.map_cons, List.reduceOption_cons_of_some, ← Multiset.cons_coe] at hX
      exact (Multiset.cons_inj_right f).mp hX

/-! ### System calls -/

/-- What a process has between two calls: its current directory and its shares of the open files; in `fork` also those
of the child. -/
inductive Home : Proc n m → Tokens n m → Prop
  /-- In user mode. -/
  | user {u : User n m} {h : Handle n} {X : Multiset (Fin m × Handle n)} (hslot : h.slot = u.cwd)
      (hX : Shares u.ofile X) : Home (.user u) (idle {h} 0 X)
  /-- In `fork`. -/
  | forked {u v : User n m} {h x : Handle n} {X Y : Multiset (Fin m × Handle n)} (hslot : h.slot = u.cwd)
      (hX : Shares u.ofile X) (hchild : x.slot = v.cwd) (hY : Shares v.ofile Y) :
      Home (.forked u v) (idle {x, h} 0 (Y + X))
  /-- No process. -/
  | dead : Home .dead (idle 0 0 0)

/-- **A system call brings a process home again.** -/
theorem code_wp {c : SysCall} (ht : Home (.user u) t) : wp pre post (c.code u) Home t := by
  cases ht with
  | @user u h X hslot hX =>
    have hh : h ∈ ({h} : Multiset (Handle n)) := Multiset.mem_singleton_self h
    have hsame : Home (.user u) (idle {h} 0 X) := .user hslot hX
    have hgrow : ∀ (x : Handle n) f v fd, fdalloc u f = some (v, fd) → Home (.user v) (idle {h} 0 ((f, x) ::ₘ X)) := by
      intro x f v fd hfd
      obtain ⟨hcwd, hofile⟩ := fdalloc_spec hfd
      refine .user (hslot.trans hcwd.symm) ?_
      rw [Shares, Multiset.map_cons, hX, hofile]
    cases c with
    | link old new => exact wp_bind (sysLink_wp hh hslot fun _ => hsame)
    | unlink path => exact wp_bind (sysUnlink_wp hh hslot fun _ => hsame)
    | openFile path omode => exact wp_bind (sysOpen_wp hh hslot hsame hgrow)
    | mkdir path => exact wp_bind (sysMake_wp (by decide) hh hslot fun _ => hsame)
    | mknod path => exact wp_bind (sysMake_wp (by decide) hh hslot fun _ => hsame)
    | chdir path => exact wp_bind (sysChdir_wp (R := 0) hslot hsame fun x => .user rfl hX)
    | exec path => exact wp_bind (execFile_wp hh hslot fun _ => hsame)
    | dup fd => exact wp_bind (sysDup_wp hX hsame hgrow)
    | close fd => exact wp_bind (sysClose_wp hX hsame fun Y hY => .user hslot hY)
    | read fd => exact wp_bind (sysRead_wp hX hsame)
    | write fd pieces => exact wp_bind (sysWrite_wp hX hsame)
    | fork =>
      refine wp_bind (dupFiles_wp ?_ ?_)
      · intro f hf
        obtain ⟨x, Y, rfl⟩ := hX.mem hf
        exact ⟨x, Multiset.mem_cons_self _ Y⟩
      · intro Y hY
        refine wp_call ⟨rfl, h, hh, hslot⟩ ?_
        intro _ t' ht'
        rw [ht' h hh hslot]
        exact .forked hslot hX hslot hY
    | exit =>
      refine wp_bind (closeFiles_wp hX ?_)
      exact wp_bind (iput_wp (h := h) (R := 0) rfl hslot rfl rfl fun _ => .dead)

end SdeSystems.Inodes
