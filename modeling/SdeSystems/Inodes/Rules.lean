import SdeSystems.Inodes.Fits

/-!
# The rules are right

Every operation keeps the invariant and leaves the tokens that `post` says, where `pre` held before and it is not a
look-up of `..` in a removed directory (`exec_done`); and it panics only for want of a free inode, of a free cache
entry or of room in a directory (`exec_panic`).
-/

namespace SdeSystems.Inodes

open Function Lib Names

variable {ι : Type} {n m : ℕ} {s s' : State ι n m} {T : ι → Tokens n m}
  {oh : Fin m → Option (Handle n)} {p q : ι} {i : Fin n} {h : Handle n} {d : Dinode} {k : ℕ} {f : Fin m}

/-! ### The state -/

theorem State.find_of_cached (hpos : 0 < (s.icache i).ref) (hk : (s.icache i).inum = k)
    (hunique : ∀ j, 0 < (s.icache j).ref → (s.icache j).inum = k → j = i) : s.find k = some i := by
  have hsome : ((List.finRange n).find? fun i => decide (0 < (s.icache i).ref ∧ (s.icache i).inum = k)) = some i := by
    cases hf : (List.finRange n).find? fun i => decide (0 < (s.icache i).ref ∧ (s.icache i).inum = k) with
    | none =>
      have := List.find?_eq_none.mp hf i (List.mem_finRange i)
      simp only [decide_eq_true_eq] at this
      exact absurd ⟨hpos, hk⟩ this
    | some j =>
      have hj := List.find?_some hf
      simp only [decide_eq_true_eq] at hj
      rw [hunique j hj.1 hj.2]
  simp only [State.find, hsome, Option.some_or]

theorem State.setNlink_eq {v : ℤ} (hinum : (s.icache i).inum = k) (htype : (s.icache i).type = (s.disk k).type) :
    s.setNlink i v = { s with
      icache := update s.icache i { s.icache i with nlink := v }
      disk := update s.disk k { s.disk k with nlink := v } } := by
  simp only [State.setNlink, State.iupdate, update_self, hinum, htype]

theorem State.erase_eq (hinum : (s.icache i).inum = k) (hnlink : (s.icache i).nlink = 0) :
    s.erase i = { s with
      icache := update s.icache i { s.icache i with type := 0 }
      disk := update s.disk k ⟨0, 0, []⟩ } := by
  simp only [State.erase, State.setDir, State.iupdate, update_self, update_idem, hinum, hnlink]

variable [Fintype ι]

namespace Fits

/-- The cached copy of an inode that a process has read in. -/
theorem cached (hI : Fits s T oh) (hd : (T p).Sees i d) :
    (s.icache i).valid = true ∧ (s.icache i).type = d.type ∧ (s.icache i).nlink = d.nlink ∧ d.type ≠ 0 := by
  obtain ⟨hvalid, hdata, hne⟩ := hI.sees hd
  have hcopy := hI.copy (hI.pos (ne_of_sees hd)) hvalid (by
    intro q hq
    have hqp := hI.owner (ne_of_sees hd) (by rw [hq]; exact Option.some_ne_none _)
    rw [hqp] at hq
    rcases hd with hd | hd
    · rw [hq] at hd
      cases hd
    · rw [hq] at hd
      cases hd)
  rw [hdata] at hcopy
  exact ⟨hvalid, hcopy.1, hcopy.2.1, hne⟩

theorem find_has (hI : Fits s T oh) (hh : (T p).Has i h) : s.find h.inum = some i := by
  obtain ⟨hpos, hinum, -, -⟩ := hI.has hh
  refine State.find_of_cached hpos hinum ?_
  intro j hj hjk
  exact hI.refs.unique hj hpos (hjk.trans hinum.symm)

/-- Handles of one entry are the same. -/
theorem handle_eq (hI : Fits s T oh) {x : Handle n} (hh : h ∈ (T p).refs) (hx : x ∈ (T p).refs)
    (hslot : x.slot = h.slot) :
    x = h := by
  obtain ⟨-, hinum, htype, -⟩ := hI.has (p := p) ⟨rfl, .inl hh⟩
  obtain ⟨-, hinum', htype', -⟩ := hI.has (p := p) ⟨rfl, .inl hx⟩
  rw [hslot, hinum] at hinum'
  rw [← hinum', htype] at htype'
  cases x
  cases h
  simp_all

theorem refs_eq (hI : Fits s T oh) {x : Handle n} {R R' : Multiset (Handle n)} (hR : (T p).refs = h ::ₘ R)
    (hR' : (T p).refs = x ::ₘ R') (hslot : x.slot = h.slot) : x = h ∧ R' = R := by
  have hx : x = h := by
    refine hI.handle_eq (p := p) ?_ ?_ hslot
    · rw [hR]
      exact Multiset.mem_cons_self h R
    · rw [hR']
      exact Multiset.mem_cons_self x R'
  rw [hR, hx] at hR'
  exact ⟨hx, ((Multiset.cons_inj_right h).mp hR').symm⟩

/-- Shares of one file have the same handle. -/
theorem share_eq (hI : Fits s T oh) {x : Handle n} (hh : (f, h) ∈ (T p).files) (hx : (f, x) ∈ (T p).files) : x = h := by
  have hopen := hI.files.share (mem_total.mpr ⟨p, hh⟩)
  rw [hI.files.share (mem_total.mpr ⟨p, hx⟩)] at hopen
  exact Option.some.inj hopen

/-- What an entry takes is one thing. -/
theorem put_eq {dp : Fin n} {name : Name} {inum : ℕ} {C C' : Multiset ℕ} (hI : Fits s T oh)
    (hput : Put (T p) dp d h name inum C) (hput' : Put (T p) dp d h name inum C') : C' = C := by
  have htypes : ∀ x ∈ (T p).refs, ∀ y ∈ (T p).refs, x.inum = y.inum → x.type = y.type := by
    intro x hx y hy hxy
    rw [← (hI.has (p := p) ⟨rfl, .inl hx⟩).2.2.1, hxy, (hI.has (p := p) ⟨rfl, .inl hy⟩).2.2.1]
  obtain ⟨inum', hinum⟩ : ∃ inum', inum' = inum := ⟨_, rfl⟩
  obtain ⟨name', hname'⟩ : ∃ name', name' = name := ⟨_, rfl⟩
  rw [← hinum, ← hname'] at hput'
  cases hput with
  | dot =>
    cases hput' with
    | dot => rfl
    | dotdot => rfl
    | file hn => exact absurd hname' hn.1
    | dir hn => exact absurd hname' hn.1
  | dotdot =>
    cases hput' with
    | dot => rfl
    | dotdot => rfl
    | file hn => exact absurd hname' hn.2
    | dir hn => exact absurd hname' hn.2
  | @file _ x _ hn hx hxt hC =>
    cases hput' with
    | dot => exact absurd hname'.symm hn.1
    | dotdot => exact absurd hname'.symm hn.2
    | file _ _ _ hC' =>
      rw [hinum, hC] at hC'
      exact ((Multiset.cons_inj_right _).mp hC').symm
    | dir _ hy hyt => exact absurd ((htypes _ hx _ hy hinum.symm).trans hyt) hxt
  | @dir _ x _ _ hn hx hxt _ _ _ _ hC =>
    cases hput' with
    | dot => exact absurd hname'.symm hn.1
    | dotdot => exact absurd hname'.symm hn.2
    | file _ hy hyt => exact absurd ((htypes _ hx _ hy hinum.symm).symm.trans hxt) hyt
    | dir _ _ _ _ _ _ _ hC' =>
      rw [hinum, hC] at hC'
      exact ((Multiset.cons_inj_right _).mp ((Multiset.cons_inj_right _).mp hC')).symm

/-- The only user of an inode is the only one. -/
theorem sole_eq (hI : Fits s T oh) (hq : (T q).grips i = some (.sole d)) (hh : h ∈ (T p).refs) (hslot : h.slot = i) :
    q = p := by
  classical
  by_contra hne
  obtain ⟨-, hone, x, hx, hxi⟩ := hI.sole hq
  obtain ⟨t, ht⟩ : ∃ t : Tokens n m, t = { T p with refs := (T p).refs.erase h } := ⟨_, rfl⟩
  have hR : (T p).refs = h ::ₘ t.refs := by
    rw [ht]
    exact (Multiset.cons_erase hh).symm
  have hH : handles T oh = h ::ₘ handles (update T p t) oh := handles_uncons (T := T) (p := p) (t := t) hR
  have hmem : x ∈ handles (update T p t) oh := by
    refine mem_handles.mpr (.inl ⟨q, ?_⟩)
    rw [update_of_ne hne]
    exact hx
  have hcount := hI.refs.count i
  have hpos := Multiset.count_pos.mpr (Multiset.mem_map_of_mem Handle.slot hmem)
  rw [hxi] at hpos
  rw [hH, Multiset.map_cons, hslot, Multiset.count_cons_self, hone] at hcount
  omega

variable [DecidableEq ι]

/-- A directory is written. -/
theorem writeDir {dir : Dir} {C : Multiset ℕ} (hI : Fits s T oh) (hd : (T p).grips i = some (.loaded d))
    (hh : h ∈ (T p).refs) (hslot : h.slot = i) (hfresh : (T p).fresh = none)
    (hlinks : Links (update s.disk h.inum { s.disk h.inum with dir := dir }) (total fun q =>
      (update T p { (T p).grip i (some (.loaded { d with dir := dir })) with credits := C } q).credits)) :
    Fits (s.setDir i dir)
      (update T p { (T p).grip i (some (.loaded { d with dir := dir })) with credits := C }) oh := by
  obtain ⟨-, hinum, -, -⟩ := hI.has (p := p) ⟨hslot, .inl hh⟩
  obtain ⟨-, hdata, -⟩ := hI.sees (.inl hd)
  have hcached := hI.cached (.inl hd)
  rw [hinum] at hdata
  rw [hdata] at hlinks
  have htokens : { (T p).grip i (some (.loaded { d with dir := dir })) with credits := C } =
      { (T p).grip i (some (.loaded { d with dir := dir })) with credits := C, fresh := none } := by
    rw [← hfresh]
    rfl
  have hstate : s.setDir i dir = { s with
      icache := update s.icache i { s.icache i with nlink := d.nlink }
      disk := update s.disk h.inum { d with dir := dir } } := by
    have hself : { s.icache i with nlink := d.nlink } = s.icache i := by rw [← hcached.2.2.1]
    rw [hself, update_eq_self]
    simp only [State.setDir, hinum, hdata]
  rw [htokens] at hlinks ⊢
  rw [hstate]
  exact hI.write hd hh hslot rfl (.inl hfresh) hlinks

end Fits

variable [DecidableEq ι]

theorem Inv.same (hI : Inv s T) : Inv s (update T p (T p)) := by
  rw [update_eq_self]
  exact hI

/-! ### Uses -/

theorem done_iget {inum : ℕ} {r : Fin n} (hI : Inv s T) (hpre : pre (.iget inum) (T p))
    (he : exec p (.iget inum) s = .done r s') : ∃ t, post (.iget inum) (T p) r t ∧ Inv s' (update T p t) := by
  obtain ⟨oh, hI⟩ := hI
  obtain ⟨hnosole, hpre⟩ := hpre
  simp only [exec] at he
  cases hfind : s.find inum with
  | none =>
    rw [hfind] at he
    cases he
  | some ip =>
    rw [hfind] at he
    obtain ⟨rfl, rfl⟩ := Answer.done.inj he
    rcases hpre with ⟨rfl, hnone⟩ | ⟨type, hf⟩
    · have hroot := hI.links.root_one_le
      refine ⟨_, ⟨⟨ip, rootIno, (s.disk rootIno).type⟩, rfl, rfl, fun _ => hI.links.root.1, ?_, rfl⟩, oh,
        hI.take hfind (hI.links.type_ne_zero hroot) ?_ ?_⟩
      · intro type hf
        rw [hnone] at hf
        cases hf
      · intro q d hd hk
        obtain ⟨-, hdata, -⟩ := hI.sees (.inr hd)
        have hzero := (hI.sole hd).1
        rw [hk] at hdata
        rw [hdata] at hroot
        omega
      · intro q type hf
        obtain ⟨hdata, -⟩ := hI.fresh hf
        rw [hdata] at hroot
        dsimp only at hroot
        omega
    · obtain ⟨hdata, hne, hothers, -⟩ := hI.fresh hf
      have htype : (s.disk inum).type = type := by rw [hdata]
      refine ⟨_, ⟨⟨ip, inum, (s.disk inum).type⟩, rfl, rfl, ?_, ?_, rfl⟩, oh,
        hI.take hfind (htype ▸ hne) ?_ ?_⟩
      · intro hnone
        rw [hnone] at hf
        cases hf
      · intro type' hf'
        rw [hf] at hf'
        cases hf'
        exact htype
      · intro q d hd hk
        have hqp : q = p := by
          by_contra hqp
          obtain ⟨-, -, x, hx, hslot⟩ := hI.sole hd
          have hin := (hI.has (p := q) ⟨hslot, .inl hx⟩).2.1
          exact (hothers q hqp).1 x hx (hin.symm.trans hk)
        rw [hqp] at hd
        exact hnosole ip d hd
      · intro q type' hf'
        by_contra hqp
        exact (hothers q hqp).2 type' hf'

theorem done_idup {ip : Fin n} {r : Unit} (hI : Inv s T) (hpre : pre (.idup ip) (T p))
    (he : exec p (.idup ip) s = .done r s') : ∃ t, post (.idup ip) (T p) r t ∧ Inv s' (update T p t) := by
  obtain ⟨oh, hI⟩ := hI
  obtain ⟨hg, h, hh, hslot⟩ := hpre
  obtain ⟨-, rfl⟩ := Answer.done.inj he
  obtain ⟨hpos, hinum, htype, hne⟩ := hI.has (p := p) ⟨hslot, .inl hh⟩
  have hfind := hI.find_has (p := p) ⟨hslot, .inl hh⟩
  have htake := hI.take (p := p) hfind (by rw [htype]; exact hne) (by
      intro q d hd _
      have hqp := hI.sole_eq hd hh hslot
      rw [hqp, hg] at hd
      cases hd) (fun q type hf => hI.not_fresh (p := p) ⟨hslot, .inl hh⟩ hf)
  have heta : (⟨ip, h.inum, (s.disk h.inum).type⟩ : Handle n) = h := by rw [htype, ← hslot]
  have hadd : s.take h.inum ip = s.addRef ip := by simp only [State.take, if_pos hpos]
  rw [heta, hadd] at htake
  refine ⟨_, ?_, oh, htake⟩
  intro x hx hxslot
  rw [hI.handle_eq hh hx (hxslot.trans hslot.symm)]

theorem done_dirlookup {dp : Fin n} {name : Name} {r : Option (Fin n × ℕ)} (hI : Inv s T)
    (hpre : pre (.dirlookup dp name) (T p)) (hb : ¬ Stale (.dirlookup dp name : Op n m) s)
    (he : exec p (.dirlookup dp name) s = .done r s') :
    ∃ t, post (.dirlookup dp name) (T p) r t ∧ Inv s' (update T p t) := by
  obtain ⟨oh, hI⟩ := hI
  obtain ⟨d, h, hd, hh, htype⟩ := hpre
  obtain ⟨-, hdata, hne⟩ := hI.sees (.inl hd)
  obtain ⟨hpos, hinum, -, -⟩ := hI.has hh
  have hcached := (hI.cached (.inl hd)).2.1
  simp only [exec] at he
  rw [if_neg (by rw [hcached, htype]; simp), hdata] at he
  cases hlook : lookup d.dir name with
  | none =>
    rw [hlook] at he
    obtain ⟨rfl, rfl⟩ := Answer.done.inj he
    exact ⟨T p, ⟨d, hd, .inl ⟨rfl, hlook, rfl⟩⟩, oh, by rw [update_eq_self]; exact hI⟩
  | some a =>
    obtain ⟨inum, off⟩ := a
    rw [hlook] at he
    dsimp only at he
    cases hfind : s.find inum with
    | none =>
      rw [hfind] at he
      cases he
    | some ip =>
      rw [hfind] at he
      obtain ⟨rfl, rfl⟩ := Answer.done.inj he
      have hentry : Entry s.disk (s.icache dp).inum off name inum := by
        refine entry_of_lookup ?_
        rw [hdata]
        exact hlook
      have hup : name = dotdot → (s.icache dp).inum = rootIno ∨ Named s.disk (s.icache dp).inum := by
        rintro rfl
        by_contra hc
        rw [not_or] at hc
        exact hb ⟨rfl, lookup_ne_none hentry, hc⟩
      have hlocked : ∀ q e, (T q).grips dp = some (.sole e) → False := by
        intro q e hsole
        have hqp := hI.owner (p := p) (by rw [hd]; exact Option.some_ne_none _) (ne_of_sees (.inr hsole))
        rw [hqp, hd] at hsole
        cases hsole
      have hfound := hI.links.found hentry hup
      refine ⟨_, ⟨d, hd, .inr ⟨⟨ip, inum, (s.disk inum).type⟩, off, rfl, hlook, rfl⟩⟩, oh, hI.take hfind ?_ ?_ ?_⟩
      · rcases hfound with ⟨-, rfl⟩ | hone
        · rw [hdata]
          exact hne
        · exact hI.links.type_ne_zero hone
      · intro q e hsole hk
        rcases hfound with ⟨-, rfl⟩ | hone
        · have hip : ip = dp := hI.refs.unique (hI.pos (ne_of_sees (.inr hsole))) hpos hk
          exact hlocked q e (hip ▸ hsole)
        · obtain ⟨-, hdata', -⟩ := hI.sees (.inr hsole)
          have hzero := (hI.sole hsole).1
          rw [hk] at hdata'
          rw [hdata'] at hone
          omega
      · intro q type hf
        rcases hfound with ⟨-, rfl⟩ | hone
        · rw [hinum] at hf
          exact hI.not_fresh hh hf
        · obtain ⟨hdata', -⟩ := hI.fresh hf
          rw [hdata'] at hone
          dsimp only at hone
          omega

theorem done_drop {ip : Fin n} {r : Unit} (hI : Inv s T) (hpre : pre (.drop ip) (T p))
    (he : exec p (.drop ip) s = .done r s') : ∃ t, post (.drop ip) (T p) r t ∧ Inv s' (update T p t) := by
  classical
  obtain ⟨oh, hI⟩ := hI
  obtain ⟨hg, hpre⟩ := hpre
  obtain ⟨-, rfl⟩ := Answer.done.inj he
  by_cases hgone : ip ∈ (T p).gone
  · have hG : (T p).gone = ip ::ₘ (T p).gone.erase ip := (Multiset.cons_erase hgone).symm
    refine ⟨_, .inl ⟨hgone, ?_⟩, oh, hI.dropGone hG hg⟩
    intro G hG'
    rw [hG] at hG'
    rw [(Multiset.cons_inj_right ip).mp hG']
  · obtain ⟨h, hh, rfl⟩ := hpre.resolve_left hgone
    have hR : (T p).refs = h ::ₘ (T p).refs.erase h := (Multiset.cons_erase hh).symm
    refine ⟨_, .inr ⟨hgone, ?_⟩, oh, hI.drop hR hg⟩
    intro x R hslot hR'
    rw [(hI.refs_eq hR hR' hslot).2]

/-! ### Locks -/

theorem done_acquiresleep {ip : Fin n} {r : Unit} (hI : Inv s T) (hpre : pre (.acquiresleep ip) (T p))
    (he : exec p (.acquiresleep ip) s = .done r s') :
    ∃ t, post (.acquiresleep ip) (T p) r t ∧ Inv s' (update T p t) := by
  obtain ⟨oh, hI⟩ := hI
  simp only [exec] at he
  split_ifs at he with hfree
  obtain ⟨-, rfl⟩ := Answer.done.inj he
  have hg : (T p).grips ip = none := by
    by_contra hg
    rw [(hI.lock p ip).mpr hg] at hfree
    cases hfree
  refine ⟨_, ⟨hg, rfl⟩, oh, hI.regrip (.inl ⟨rfl, Option.some_ne_none _⟩) (.inl hfree) (fun _ => .inl hpre) ?_ ?_ ?_ ?_⟩
  · intro d hd
    simp [Tokens.Sees, Tokens.grip] at hd
  · intro d hd
    cases hd
  · left
    rw [hg]
    exact Option.some_ne_none _ |>.symm
  · intro d hd
    exact absurd hg (ne_of_sees hd)

/-- The lock of an entry is given back. -/
theorem released {ip : Fin n} (hI : Inv s T) (hown : (T p).grips ip ≠ none) (hraw : (T p).grips ip ≠ some .erased)
    (hdone : ∀ d, (T p).Sees ip d → Finished d) :
    Inv { s with lock := update s.lock ip none } (update T p ((T p).grip ip none)) := by
  obtain ⟨oh, hI⟩ := hI
  refine ⟨oh, hI.regrip (.inr ⟨rfl, rfl⟩) (.inr ((hI.lock p ip).mpr hown)) (fun hg => absurd rfl hg) ?_ ?_ (.inl hraw)
    fun d hd => .inr (hdone d hd)⟩
  · intro d hd
    simp [Tokens.Sees, Tokens.grip] at hd
  · intro d hd
    cases hd

theorem sees_eq {t : Tokens n m} {d d' : Dinode} (hd : t.Sees i d) (hd' : t.Sees i d') : d = d' := by
  rcases hd with hd | hd
  · rcases hd' with hd' | hd'
    · rw [hd] at hd'
      cases hd'
      rfl
    · rw [hd] at hd'
      cases hd'
  · rcases hd' with hd' | hd'
    · rw [hd] at hd'
      cases hd'
    · rw [hd] at hd'
      cases hd'
      rfl

theorem not_erased_of_sees {t : Tokens n m} (hd : t.Sees i d) : t.grips i ≠ some .erased := by
  rcases hd with hd | hd
  · rw [hd]
    intro hc
    cases hc
  · rw [hd]
    intro hc
    cases hc

theorem done_releasesleep {ip : Fin n} {r : Unit} (hI : Inv s T) (hpre : pre (.releasesleep ip) (T p))
    (he : exec p (.releasesleep ip) s = .done r s') :
    ∃ t, post (.releasesleep ip) (T p) r t ∧ Inv s' (update T p t) := by
  obtain ⟨-, rfl⟩ := Answer.done.inj he
  refine ⟨_, rfl, ?_⟩
  rcases hpre with hraw | ⟨d, hd, hdone⟩
  · refine released hI (by rw [hraw]; exact Option.some_ne_none _) (by rw [hraw]; intro hc; cases hc) ?_
    intro d hd
    rcases hd with hd | hd
    · rw [hraw] at hd
      cases hd
    · rw [hraw] at hd
      cases hd
  · refine released hI (ne_of_sees hd) (not_erased_of_sees hd) ?_
    intro d' hd'
    rw [← sees_eq hd hd']
    exact hdone

theorem done_iunlock {ip : Fin n} {r : Unit} (hI : Inv s T) (hpre : pre (.iunlock ip) (T p))
    (he : exec p (.iunlock ip) s = .done r s') : ∃ t, post (.iunlock ip) (T p) r t ∧ Inv s' (update T p t) := by
  simp only [exec] at he
  split_ifs at he
  obtain ⟨-, rfl⟩ := Answer.done.inj he
  obtain ⟨⟨d, hd, hdone⟩, -⟩ := hpre
  refine ⟨_, rfl, released hI (ne_of_sees (.inl hd)) (not_erased_of_sees (.inl hd)) ?_⟩
  intro d' hd'
  rw [← sees_eq (.inl hd) hd']
  exact hdone

/-! ### What is cached -/

/-- The inode is read in, and the process knows it. -/
theorem Fits.known {ip : Fin n} (hI : Fits s T oh) (hg : (T p).grips ip = some .raw) (hh : (T p).Has ip h)
    (hvalid : (s.icache ip).valid = true) :
    Fits s (update T p ((T p).grip ip (some (.loaded (s.disk (s.icache ip).inum))))) oh := by
  refine hI.regrip_locked (by rw [hg]; exact Option.some_ne_none _) ?_ ?_ (.inl (by rw [hg]; intro hc; cases hc)) ?_
  · intro d hd
    have hd : s.disk (s.icache ip).inum = d := by simpa [Tokens.Sees, Tokens.grip] using hd
    obtain ⟨-, hinum, htype, hne⟩ := hI.has hh
    refine ⟨hvalid, hd, ?_⟩
    rw [← hd, hinum, htype]
    exact hne
  · intro d hd
    cases hd
  · intro d hd
    rcases hd with hd | hd
    · rw [hg] at hd
      cases hd
    · rw [hg] at hd
      cases hd

theorem done_load {ip : Fin n} {r : Unit} (hI : Inv s T) (hpre : pre (.load ip) (T p))
    (he : exec p (.load ip) s = .done r s') : ∃ t, post (.load ip) (T p) r t ∧ Inv s' (update T p t) := by
  obtain ⟨oh, hI⟩ := hI
  obtain ⟨hg, h, hh⟩ := hpre
  simp only [exec] at he
  split_ifs at he with hvalid hzero
  · obtain ⟨-, rfl⟩ := Answer.done.inj he
    exact ⟨_, ⟨_, hI.loads hg hh, rfl⟩, oh, hI.known hg hh hvalid⟩
  · obtain ⟨-, rfl⟩ := Answer.done.inj he
    have hload : Fits (s.load ip) T oh := hI.recache rfl rfl (fun _ _ _ => rfl) fun _ => ⟨rfl, rfl, hzero⟩
    have hknown := hload.known hg hh (by simp only [State.load, update_self])
    have hinum : ((s.load ip).icache ip).inum = (s.icache ip).inum := by simp only [State.load, update_self]
    rw [hinum] at hknown
    exact ⟨_, ⟨_, hI.loads hg hh, rfl⟩, oh, hknown⟩

theorem done_look {ip : Fin n} {r : Look} (hI : Inv s T) (hpre : pre (.look ip) (T p))
    (he : exec p (.look ip) s = .done r s') : ∃ t, post (.look ip) (T p) r t ∧ Inv s' (update T p t) := by
  obtain ⟨oh, hI⟩ := hI
  obtain ⟨hg, h, hh⟩ := hpre
  obtain ⟨rfl, rfl⟩ := Answer.done.inj he
  rcases hg with hg | ⟨d, hd⟩
  · by_cases hvalid : (s.icache ip).valid = true
    · have hcopy := hI.copy (hI.has hh).1 hvalid (by
        intro q hq
        have hqp := hI.owner (p := p) (by rw [hg]; exact Option.some_ne_none _)
          (by rw [hq]; exact Option.some_ne_none _)
        rw [hqp, hg] at hq
        cases hq)
      refine ⟨_, .inr ⟨hg, .inr ⟨_, ?_, hI.loads hg hh, rfl⟩⟩, oh, hI.known hg hh hvalid⟩
      rw [hvalid, hcopy.1, hcopy.2.1]
    · refine ⟨T p, .inr ⟨hg, .inl ⟨by simpa using hvalid, rfl⟩⟩, oh, ?_⟩
      rw [update_eq_self]
      exact hI
  · obtain ⟨hvalid, htype, hnlink, -⟩ := hI.cached (.inl hd)
    refine ⟨T p, .inl ⟨d, hd, by rw [hvalid, htype, hnlink], rfl⟩, oh, ?_⟩
    rw [update_eq_self]
    exact hI

theorem done_inum {ip : Fin n} {r : ℕ} (hI : Inv s T) (hpre : pre (.inum ip) (T p))
    (he : exec p (.inum ip) s = .done r s') : ∃ t, post (.inum ip) (T p) r t ∧ Inv s' (update T p t) := by
  obtain ⟨h, hh, hslot⟩ := hpre
  obtain ⟨rfl, rfl⟩ := Answer.done.inj he
  refine ⟨T p, ⟨rfl, ?_⟩, hI.same⟩
  intro x hx hxslot
  obtain ⟨oh, hI⟩ := hI
  exact (hI.has (p := p) ⟨hxslot, .inl hx⟩).2.1

theorem done_refs {ip : Fin n} {r : ℕ} (hI : Inv s T) (hpre : pre (.refs ip) (T p))
    (he : exec p (.refs ip) s = .done r s') : ∃ t, post (.refs ip) (T p) r t ∧ Inv s' (update T p t) := by
  obtain ⟨⟨d, hd⟩, h, hh, hslot⟩ := hpre
  obtain ⟨rfl, rfl⟩ := Answer.done.inj he
  by_cases hone : (s.icache ip).ref = 1 ∧ d.nlink = 0
  · obtain ⟨oh, hI⟩ := hI
    refine ⟨_, ⟨d, hd, .inl ⟨hone.1, hone.2, rfl⟩⟩, oh, hI.regrip_locked (ne_of_sees (.inl hd)) ?_ ?_
      (.inl (not_erased_of_sees (.inl hd))) ?_⟩
    · intro e he
      have he : d = e := by simpa [Tokens.Sees, Tokens.grip] using he
      rw [← he]
      exact hI.sees (.inl hd)
    · intro e he
      cases he
      exact ⟨hone.2, hone.1, h, hh, hslot⟩
    · intro e he
      exact ⟨d, .inr (by simp [Tokens.grip])⟩
  · exact ⟨T p, ⟨d, hd, .inr ⟨hone, rfl⟩⟩, hI.same⟩

theorem done_erase {ip : Fin n} {r : Unit} (hI : Inv s T) (hpre : pre (.erase ip) (T p))
    (he : exec p (.erase ip) s = .done r s') : ∃ t, post (.erase ip) (T p) r t ∧ Inv s' (update T p t) := by
  classical
  obtain ⟨oh, hI⟩ := hI
  obtain ⟨⟨d, hd⟩, hnone⟩ := hpre
  obtain ⟨-, rfl⟩ := Answer.done.inj he
  obtain ⟨hzero, -, h, hh, rfl⟩ := hI.sole hd
  have hR : (T p).refs = h ::ₘ (T p).refs.erase h := (Multiset.cons_erase hh).symm
  have hinum := (hI.has (p := p) ⟨rfl, .inl hh⟩).2.1
  refine ⟨{ (T p).grip h.slot (some .erased) with
      refs := (T p).refs.erase h, gone := h.slot ::ₘ (T p).gone }, ?_, oh, ?_⟩
  · intro x R hslot hR'
    rw [(hI.refs_eq hR hR' hslot).2]
  rw [State.erase_eq hinum ((hI.cached (.inr hd)).2.2.1.trans hzero)]
  exact hI.erase hd hR hnone rfl rfl

theorem done_invalidate {ip : Fin n} {r : Unit} (hI : Inv s T) (hpre : pre (.invalidate ip) (T p))
    (he : exec p (.invalidate ip) s = .done r s') : ∃ t, post (.invalidate ip) (T p) r t ∧ Inv s' (update T p t) := by
  obtain ⟨oh, hI⟩ := hI
  obtain ⟨-, rfl⟩ := Answer.done.inj he
  have hg : (T p).grips ip = some .erased := hpre
  have hgne : (T p).grips ip ≠ none := by
    rw [hg]
    exact Option.some_ne_none _
  have hnot : ∀ d, ¬ (T p).Sees ip d := fun d hd => not_erased_of_sees hd hg
  have hcache : Fits { s with icache := update s.icache ip { s.icache ip with valid := false } } T oh := by
    refine hI.recache rfl rfl ?_ fun hc => by cases hc
    intro q d hd
    have hqp := hI.owner hgne (ne_of_sees hd)
    rw [hqp] at hd
    exact absurd hd (hnot d)
  refine ⟨_, rfl, oh, hcache.regrip_locked hgne ?_ ?_ (.inr (by simp only [update_self]))
    fun d hd => absurd hd (hnot d)⟩
  · intro d hd
    simp [Tokens.Sees, Tokens.grip] at hd
  · intro d hd
    cases hd

/-! ### Inodes -/

theorem done_mark {inum type : ℕ} {r : Bool} (hI : Inv s T) (hpre : pre (.mark inum type : Op n m) (T p))
    (he : exec p (.mark inum type : Op n m) s = .done r s') :
    ∃ t, post (.mark inum type : Op n m) (T p) r t ∧ Inv s' (update T p t) := by
  simp only [exec] at he
  split_ifs at he with hzero
  · obtain ⟨oh, hI⟩ := hI
    obtain ⟨hne, hnone⟩ := hpre
    obtain ⟨rfl, rfl⟩ := Answer.done.inj he
    exact ⟨_, .inl ⟨rfl, rfl⟩, oh, hI.mark hzero hne hnone⟩
  · obtain ⟨rfl, rfl⟩ := Answer.done.inj he
    exact ⟨T p, .inr ⟨rfl, rfl⟩, hI.same⟩

/-- The link count of a locked inode is changed. -/
theorem Fits.writeNlink {ip : Fin n} {v : ℤ} {C : Multiset ℕ} {t : Tokens n m} (hI : Fits s T oh)
    (hd : (T p).grips ip = some (.loaded d)) (hh : h ∈ (T p).refs) (hslot : h.slot = ip)
    (hfresh : (T p).fresh = none ∨ ∃ type, (T p).fresh = some (h.inum, type))
    (ht : t = { (T p).grip ip (some (.loaded { d with nlink := v })) with credits := C, fresh := none })
    (hC : ∀ k ≠ h.inum, (total fun q => (update T p t q).credits).count k = (total fun q => (T q).credits).count k)
    (hv : v - (total fun q => (update T p t q).credits).count h.inum =
      d.nlink - (total fun q => (T q).credits).count h.inum) : Fits (s.setNlink ip v) (update T p t) oh := by
  obtain ⟨-, hinum, -, -⟩ := hI.has (p := p) ⟨hslot, .inl hh⟩
  obtain ⟨-, hdata, hne⟩ := hI.sees (.inl hd)
  have hcached := (hI.cached (.inl hd)).2.1
  rw [hinum] at hdata
  rw [State.setNlink_eq hinum (by rw [hcached, hdata]), hdata]
  have hlinks := hI.links.setNlink (by rw [hdata]; exact hne) hC (by rw [hdata]; exact hv)
  rw [hdata] at hlinks
  rw [ht] at hlinks ⊢
  exact hI.write hd hh hslot rfl hfresh hlinks

theorem done_linkOne {ip : Fin n} {r : Unit} (hI : Inv s T) (hpre : pre (.linkOne ip) (T p))
    (he : exec p (.linkOne ip) s = .done r s') : ∃ t, post (.linkOne ip) (T p) r t ∧ Inv s' (update T p t) := by
  obtain ⟨oh, hI⟩ := hI
  obtain ⟨⟨d, hd⟩, h, hh, hslot, type, hf⟩ := hpre
  obtain ⟨-, rfl⟩ := Answer.done.inj he
  obtain ⟨t, ht⟩ : ∃ t, t = { (T p).grip ip (some (.loaded { d with nlink := 1 })) with
      credits := h.inum ::ₘ (T p).credits, fresh := none } := ⟨_, rfl⟩
  have htotal : total (fun q => (update T p t q).credits) = h.inum ::ₘ total fun q => (T q).credits :=
    total_cons (g := Tokens.credits) (T := T) (p := p) (t := t) (by rw [ht])
  have hzero : d.nlink = 0 := by
    obtain ⟨-, hinum, -, -⟩ := hI.has (p := p) ⟨hslot, .inl hh⟩
    obtain ⟨-, hdata, -⟩ := hI.sees (.inl hd)
    rw [← hdata, hinum, (hI.fresh hf).1]
  refine ⟨t, ?_, oh, hI.writeNlink hd hh hslot (.inr ⟨type, hf⟩) ht ?_ ?_⟩
  · intro e x he hx hxslot
    rw [sees_eq (.inl he) (.inl hd), hI.handle_eq hh hx (hxslot.trans hslot.symm)]
    exact ht
  · intro k hk
    rw [htotal, Multiset.count_cons_of_ne hk]
  · rw [htotal, Multiset.count_cons_self, hzero]
    push_cast
    omega

theorem done_incLink {ip : Fin n} {r : Unit} (hI : Inv s T) (hpre : pre (.incLink ip) (T p))
    (he : exec p (.incLink ip) s = .done r s') : ∃ t, post (.incLink ip) (T p) r t ∧ Inv s' (update T p t) := by
  obtain ⟨oh, hI⟩ := hI
  obtain ⟨⟨d, hd⟩, hnone, h, hh, hslot⟩ := hpre
  obtain ⟨-, rfl⟩ := Answer.done.inj he
  obtain ⟨t, ht⟩ : ∃ t, t = { (T p).grip ip (some (.loaded { d with nlink := d.nlink + 1 })) with
      credits := h.inum ::ₘ (T p).credits } := ⟨_, rfl⟩
  have htotal : total (fun q => (update T p t q).credits) = h.inum ::ₘ total fun q => (T q).credits :=
    total_cons (g := Tokens.credits) (T := T) (p := p) (t := t) (by rw [ht])
  rw [(hI.cached (.inl hd)).2.2.1]
  refine ⟨t, ?_, oh, hI.writeNlink hd hh hslot (.inl hnone) (by rw [ht, ← hnone]; rfl) ?_ ?_⟩
  · intro e x he hx hxslot
    rw [sees_eq (.inl he) (.inl hd), hI.handle_eq hh hx (hxslot.trans hslot.symm)]
    exact ht
  · intro k hk
    rw [htotal, Multiset.count_cons_of_ne hk]
  · rw [htotal, Multiset.count_cons_self]
    push_cast
    omega

theorem done_decLink {ip : Fin n} {r : Unit} (hI : Inv s T) (hpre : pre (.decLink ip) (T p))
    (he : exec p (.decLink ip) s = .done r s') : ∃ t, post (.decLink ip) (T p) r t ∧ Inv s' (update T p t) := by
  obtain ⟨oh, hI⟩ := hI
  obtain ⟨⟨d, hd⟩, hnone, h, hh, hslot, hcredit⟩ := hpre
  obtain ⟨-, rfl⟩ := Answer.done.inj he
  have hC : (T p).credits = h.inum ::ₘ (T p).credits.erase h.inum := (Multiset.cons_erase hcredit).symm
  obtain ⟨t, ht⟩ : ∃ t, t = { (T p).grip ip (some (.loaded { d with nlink := d.nlink - 1 })) with
      credits := (T p).credits.erase h.inum } := ⟨_, rfl⟩
  have htotal : total (fun q => (T q).credits) = h.inum ::ₘ total fun q => (update T p t q).credits :=
    total_uncons (g := Tokens.credits) (T := T) (p := p) (t := t) (by rw [ht]; exact hC)
  rw [(hI.cached (.inl hd)).2.2.1]
  refine ⟨t, ?_, oh, hI.writeNlink hd hh hslot (.inl hnone) (by rw [ht, ← hnone]; rfl) ?_ ?_⟩
  · intro e x C he hx hxslot hC'
    have hxh := hI.handle_eq hh hx (hxslot.trans hslot.symm)
    rw [hxh, hC] at hC'
    rw [sees_eq (.inl he) (.inl hd), ← (Multiset.cons_inj_right h.inum).mp hC']
    exact ht
  · intro k hk
    rw [htotal, Multiset.count_cons_of_ne hk]
  · rw [htotal, Multiset.count_cons_self]
    push_cast
    omega

theorem done_putEntry {dp : Fin n} {name : Name} {inum : ℕ} {r : Unit} (hI : Inv s T)
    (hpre : pre (.putEntry dp name inum) (T p)) (he : exec p (.putEntry dp name inum) s = .done r s') :
    ∃ t, post (.putEntry dp name inum) (T p) r t ∧ Inv s' (update T p t) := by
  obtain ⟨oh, hI⟩ := hI
  obtain ⟨hnone, d, h, C, hd, hh, hslot, htype, -, hput⟩ := hpre
  simp only [exec] at he
  split_ifs at he
  obtain ⟨-, rfl⟩ := Answer.done.inj he
  obtain ⟨-, hinum, -, -⟩ := hI.has (p := p) ⟨hslot, .inl hh⟩
  obtain ⟨-, hdata, -⟩ := hI.sees (.inl hd)
  rw [hinum] at hdata
  obtain ⟨t, ht⟩ : ∃ t, t = { (T p).grip dp (some (.loaded { d with dir := putEntry d.dir (name, inum) })) with
      credits := C } := ⟨_, rfl⟩
  refine ⟨t, ?_, oh, ?_⟩
  · intro e x C' he hx hxslot hput'
    have hxh := hI.handle_eq hh hx (hxslot.trans hslot.symm)
    rw [hxh, sees_eq (.inl he) (.inl hd)] at hput'
    rw [sees_eq (.inl he) (.inl hd), hI.put_eq hput hput']
    exact ht
  rw [hinum, hdata, ht]
  refine hI.writeDir hd hh hslot hnone ?_
  rw [← ht]
  obtain ⟨j, hadds⟩ := adds_putEntry s.disk h.inum name inum
  have hk : (s.disk h.inum).type = tDir := by rw [hdata, htype]
  rw [hdata] at hadds ⊢
  cases hput with
  | dot =>
    rw [total_same (g := Tokens.credits) (T := T) (p := p) (t := t) (by rw [ht])]
    exact hadds.links_dot hI.links hk
  | dotdot hnew hcredit =>
    obtain ⟨hunnamed, hroot⟩ := hI.links.unnamed (by rw [hdata]; exact hnew) (mem_total.mpr ⟨p, hcredit⟩)
    rw [total_same (g := Tokens.credits) (T := T) (p := p) (t := t) (by rw [ht])]
    exact hadds.links_dotdot hI.links hk hunnamed hroot
  | @file _ x _ hname hx hxtype hC =>
    have htotal : total (fun q => (T q).credits) = x.inum ::ₘ total fun q => (update T p t q).credits :=
      total_uncons (g := Tokens.credits) (T := T) (p := p) (t := t) (by rw [ht]; exact hC)
    have hlinks := hI.links
    rw [htotal] at hlinks
    refine hadds.links_file hlinks hk hname ?_
    rw [(hI.has (p := p) ⟨rfl, .inl hx⟩).2.2.1]
    exact hxtype
  | @dir _ x d' _ hname hx hxtype hne hd' hdir hnew hC =>
    have htotal : total (fun q => (T q).credits) = h.inum ::ₘ x.inum ::ₘ total fun q => (update T p t q).credits :=
      total_uncons₂ (g := Tokens.credits) (T := T) (p := p) (t := t) (by rw [ht]; exact hC)
    obtain ⟨-, hxinum, hxt, -⟩ := hI.has (p := p) ⟨rfl, .inl hx⟩
    obtain ⟨-, hdata', -⟩ := hI.sees (.inl hd')
    rw [hxinum] at hdata'
    have hcredit : x.inum ∈ (T p).credits := by
      rw [hC]
      exact Multiset.mem_cons_of_mem (Multiset.mem_cons_self _ _)
    obtain ⟨hunnamed, hroot⟩ := hI.links.unnamed (by rw [hdata']; exact hnew) (mem_total.mpr ⟨p, hcredit⟩)
    have hxk : x.inum ≠ h.inum := by
      intro heq
      refine hne ?_
      rw [← hslot]
      exact hI.refs.slot_eq (mem_handles.mpr (.inl ⟨p, hx⟩)) (mem_handles.mpr (.inl ⟨p, hh⟩)) heq
    have hlinks := hI.links
    rw [htotal] at hlinks
    exact hadds.links_dir hlinks hk hname (hxt.trans hxtype) hxk hunnamed hroot (by rw [hdata']; exact hdir)

theorem done_clearEntry {dp : Fin n} {off : ℕ} {r : Unit} (hI : Inv s T) (hpre : pre (.clearEntry dp off) (T p))
    (he : exec p (.clearEntry dp off) s = .done r s') :
    ∃ t, post (.clearEntry dp off) (T p) r t ∧ Inv s' (update T p t) := by
  obtain ⟨oh, hI⟩ := hI
  obtain ⟨hnone, d, h, name, x, hd, hh, hslot, hx, hlook, hname⟩ := hpre
  obtain ⟨-, rfl⟩ := Answer.done.inj he
  obtain ⟨-, hinum, -, -⟩ := hI.has (p := p) ⟨hslot, .inl hh⟩
  obtain ⟨-, hdata, -⟩ := hI.sees (.inl hd)
  rw [hinum] at hdata
  obtain ⟨t, ht⟩ : ∃ t, t = { (T p).grip dp (some (.loaded { d with dir := d.dir.set off none })) with
      credits := if x.type = tDir then h.inum ::ₘ x.inum ::ₘ (T p).credits else x.inum ::ₘ (T p).credits } := ⟨_, rfl⟩
  refine ⟨t, ?_, oh, ?_⟩
  · intro e y name' x' he hy hyslot hx' hlook'
    have hyh := hI.handle_eq hh hy (hyslot.trans hslot.symm)
    rw [sees_eq (.inl he) (.inl hd)] at hlook' ⊢
    have hinums : x'.inum = x.inum := by
      obtain ⟨i, hi, hdir⟩ := lookupFrom_some hlook
      obtain ⟨i', hi', hdir'⟩ := lookupFrom_some hlook'
      have hii : i' = i := by omega
      rw [hii, hdir] at hdir'
      exact (Prod.mk.inj (Option.some.inj (Option.some.inj hdir'))).2.symm
    have htypes : x'.type = x.type := by
      rw [← (hI.has (p := p) ⟨rfl, .inl hx'⟩).2.2.1, hinums, (hI.has (p := p) ⟨rfl, .inl hx⟩).2.2.1]
    rw [hinums, htypes, hyh]
    exact ht
  rw [hinum, hdata, ht]
  refine hI.writeDir hd hh hslot hnone ?_
  rw [← ht]
  have hdrops := drops_set s.disk h.inum off
  have hentry : Entry s.disk h.inum off name x.inum := by
    refine entry_of_lookup ?_
    rw [hdata]
    exact hlook
  have hxt := (hI.has (p := p) ⟨rfl, .inl hx⟩).2.2.1
  rw [hdata] at hdrops ⊢
  by_cases hxtype : x.type = tDir
  · rw [total_cons₂ (g := Tokens.credits) (T := T) (p := p) (t := t) (a := h.inum) (b := x.inum)
      (by rw [ht, if_pos hxtype])]
    exact hdrops.links_dir hI.links hentry hname (hxt.trans hxtype)
  · rw [total_cons (g := Tokens.credits) (T := T) (p := p) (t := t) (a := x.inum) (by rw [ht, if_neg hxtype])]
    exact hdrops.links_file hI.links hentry hname

/-! ### Open files -/

theorem done_filealloc {r : Option (Fin m)} (hI : Inv s T) (he : exec p (.filealloc : Op n m) s = .done r s') :
    ∃ t, post (.filealloc : Op n m) (T p) r t ∧ Inv s' (update T p t) := by
  simp only [exec] at he
  cases hfind : (List.finRange m).find? fun f => decide ((s.ftable f).ref = 0) with
  | none =>
    rw [hfind] at he
    obtain ⟨rfl, rfl⟩ := Answer.done.inj he
    exact ⟨T p, .inl ⟨rfl, rfl⟩, hI.same⟩
  | some f =>
    rw [hfind] at he
    obtain ⟨rfl, rfl⟩ := Answer.done.inj he
    obtain ⟨oh, hI⟩ := hI
    have hzero : (s.ftable f).ref = 0 := by simpa using List.find?_some hfind
    obtain ⟨t, ht⟩ : ∃ t : Tokens n m, t = { T p with blank := f ::ₘ (T p).blank } := ⟨_, rfl⟩
    refine ⟨t, .inr ⟨f, rfl, ht⟩, oh, hI.refile (by rw [ht]) (by rw [ht]) (by rw [ht]) (by rw [ht]) ?_ ?_ ?_ ?_ ?_ ?_⟩
    · rw [total_same (g := Tokens.files) (T := T) (p := p) (t := t) (by rw [ht]),
        total_cons (g := Tokens.blank) (T := T) (p := p) (t := t) (a := f) (by rw [ht])]
      exact hI.files.alloc hzero
    · exact handles_same (T := T) (p := p) (t := t) (by rw [ht])
    · intro j h _ hh
      rw [ht]
      exact ⟨h, hh⟩
    · intro j d hd
      rw [ht]
      exact (hI.sole hd).2.2
    · intro h hh
      rw [ht] at hh
      exact .inl hh
    · exact fun g h hg => .inl ⟨g, hg⟩

theorem done_setIp {ip : Fin n} {r : Unit} (hI : Inv s T) (hpre : pre (.setIp f ip) (T p))
    (he : exec p (.setIp f ip) s = .done r s') : ∃ t, post (.setIp f ip) (T p) r t ∧ Inv s' (update T p t) := by
  classical
  obtain ⟨oh, hI⟩ := hI
  obtain ⟨hblank, hg, hnone, h, hh, rfl⟩ := hpre
  obtain ⟨-, rfl⟩ := Answer.done.inj he
  have hR : (T p).refs = h ::ₘ (T p).refs.erase h := (Multiset.cons_erase hh).symm
  have hB : (T p).blank = f ::ₘ (T p).blank.erase f := (Multiset.cons_erase hblank).symm
  obtain ⟨t, ht⟩ : ∃ t : Tokens n m, t = { T p with
      refs := (T p).refs.erase h, blank := (T p).blank.erase f, files := (f, h) ::ₘ (T p).files } := ⟨_, rfl⟩
  have hblanks : total (fun q => (T q).blank) = f ::ₘ total fun q => (update T p t q).blank :=
    total_uncons (g := Tokens.blank) (T := T) (p := p) (t := t) (by rw [ht]; exact hB)
  have hfiles := hI.files
  rw [hblanks] at hfiles
  have hclosed : oh f = none := (hfiles.blank (Multiset.mem_cons_self f _)).1
  refine ⟨t, ?_, update oh f (some h),
    hI.refile (by rw [ht]) (by rw [ht]) (by rw [ht]) (by rw [ht]) ?_ ?_ ?_ ?_ ?_ ?_⟩
  · intro x R B hslot hR' hB'
    obtain ⟨hxh, hRR⟩ := hI.refs_eq hR hR' hslot
    rw [hB] at hB'
    rw [hRR, hxh, ← (Multiset.cons_inj_right f).mp hB']
    exact ht
  · rw [total_cons (g := Tokens.files) (T := T) (p := p) (t := t) (a := (f, h)) (by rw [ht])]
    exact hfiles.setIp h
  · rw [handles_open hclosed]
    exact (handles_uncons (T := T) (p := p) (t := t) (by rw [ht]; exact hR)).symm
  · intro j x hj hx
    rw [ht]
    rcases hx.2 with hmem | ⟨g, hmem⟩
    · rw [hR] at hmem
      rcases Multiset.mem_cons.mp hmem with rfl | hmem
      · exact ⟨x, hx.1, .inr ⟨f, Multiset.mem_cons_self _ _⟩⟩
      · exact ⟨x, hx.1, .inl hmem⟩
    · exact ⟨x, hx.1, .inr ⟨g, Multiset.mem_cons_of_mem hmem⟩⟩
  · intro j d hd
    obtain ⟨-, -, x, hx, hslot⟩ := hI.sole hd
    rw [hR] at hx
    rcases Multiset.mem_cons.mp hx with rfl | hx
    · rw [hslot, hd] at hg
      cases hg
    · rw [ht]
      exact ⟨x, hx, hslot⟩
  · intro x hx
    rw [ht] at hx
    exact .inl (Multiset.mem_of_mem_erase hx)
  · intro g x hx
    by_cases hgf : g = f
    · rw [hgf, update_self] at hx
      cases hx
      exact .inr ⟨hh, hnone⟩
    · rw [update_of_ne hgf] at hx
      exact .inl ⟨g, hx⟩

theorem done_fileIp {r : Option (Fin n)} (hI : Inv s T) (hpre : pre (.fileIp f : Op n m) (T p))
    (he : exec p (.fileIp f : Op n m) s = .done r s') :
    ∃ t, post (.fileIp f : Op n m) (T p) r t ∧ Inv s' (update T p t) := by
  obtain ⟨h, hh⟩ := hpre
  obtain ⟨rfl, rfl⟩ := Answer.done.inj he
  refine ⟨T p, ⟨rfl, ?_⟩, hI.same⟩
  intro x hx
  obtain ⟨oh, hI⟩ := hI
  rw [hI.files.ip, hI.files.share (mem_total.mpr ⟨p, hx⟩)]
  rfl

theorem done_filedup {r : Unit} (hI : Inv s T) (hpre : pre (.filedup f : Op n m) (T p))
    (he : exec p (.filedup f : Op n m) s = .done r s') :
    ∃ t, post (.filedup f : Op n m) (T p) r t ∧ Inv s' (update T p t) := by
  obtain ⟨oh, hI⟩ := hI
  obtain ⟨h, hh⟩ := hpre
  simp only [exec] at he
  split_ifs at he
  obtain ⟨-, rfl⟩ := Answer.done.inj he
  obtain ⟨t, ht⟩ : ∃ t : Tokens n m, t = { T p with files := (f, h) ::ₘ (T p).files } := ⟨_, rfl⟩
  refine ⟨t, ?_, oh, hI.refile (by rw [ht]) (by rw [ht]) (by rw [ht]) (by rw [ht]) ?_ ?_ ?_ ?_ ?_ ?_⟩
  · intro x hx
    rw [hI.share_eq hh hx]
    exact ht
  · rw [total_cons (g := Tokens.files) (T := T) (p := p) (t := t) (a := (f, h)) (by rw [ht]),
      total_same (g := Tokens.blank) (T := T) (p := p) (t := t) (by rw [ht])]
    exact hI.files.dup (mem_total.mpr ⟨p, hh⟩)
  · exact handles_same (T := T) (p := p) (t := t) (by rw [ht])
  · intro j x _ hx
    rw [ht]
    exact ⟨x, hx.1, hx.2.imp id fun ⟨g, hg⟩ => ⟨g, Multiset.mem_cons_of_mem hg⟩⟩
  · intro j d hd
    rw [ht]
    exact (hI.sole hd).2.2
  · intro x hx
    rw [ht] at hx
    exact .inl hx
  · exact fun g x hg => .inl ⟨g, hg⟩

theorem done_fileclose {r : Option (Fin n)} (hI : Inv s T) (hpre : pre (.fileclose f : Op n m) (T p))
    (he : exec p (.fileclose f : Op n m) s = .done r s') :
    ∃ t, post (.fileclose f : Op n m) (T p) r t ∧ Inv s' (update T p t) := by
  classical
  obtain ⟨oh, hI⟩ := hI
  simp only [exec] at he
  by_cases hblank : f ∈ (T p).blank
  · have hB : (T p).blank = f ::ₘ (T p).blank.erase f := (Multiset.cons_erase hblank).symm
    obtain ⟨t, ht⟩ : ∃ t : Tokens n m, t = { T p with blank := (T p).blank.erase f } := ⟨_, rfl⟩
    have hblanks : total (fun q => (T q).blank) = f ::ₘ total fun q => (update T p t q).blank :=
      total_uncons (g := Tokens.blank) (T := T) (p := p) (t := t) (by rw [ht]; exact hB)
    have hfiles := hI.files
    rw [hblanks] at hfiles
    obtain ⟨hone, hip, hclosed⟩ := hfiles.closeBlank
    rw [if_neg (by omega), if_neg (by omega), hip] at he
    obtain ⟨rfl, rfl⟩ := Answer.done.inj he
    refine ⟨t, .inl ⟨hblank, rfl, ?_⟩, oh,
      hI.refile (by rw [ht]) (by rw [ht]) (by rw [ht]) (by rw [ht]) ?_ ?_ ?_ ?_ ?_ ?_⟩
    · intro B hB'
      rw [hB] at hB'
      rw [← (Multiset.cons_inj_right f).mp hB']
      exact ht
    · rw [total_same (g := Tokens.files) (T := T) (p := p) (t := t) (by rw [ht])]
      exact hclosed
    · exact handles_same (T := T) (p := p) (t := t) (by rw [ht])
    · intro j x _ hx
      rw [ht]
      exact ⟨x, hx⟩
    · intro j d hd
      rw [ht]
      exact (hI.sole hd).2.2
    · intro x hx
      rw [ht] at hx
      exact .inl hx
    · exact fun g x hg => .inl ⟨g, hg⟩
  · obtain ⟨h, hh, hg⟩ := hpre.resolve_left hblank
    have hX : (T p).files = (f, h) ::ₘ (T p).files.erase (f, h) := (Multiset.cons_erase hh).symm
    have hopen : oh f = some h := hI.files.share (mem_total.mpr ⟨p, hh⟩)
    have hkept : ∀ j x, (T p).grips j ≠ none → (T p).Has j x →
        x ∈ (T p).refs ∨ ∃ g, (g, x) ∈ (T p).files.erase (f, h) := by
      intro j x hj hx
      refine hx.2.imp id ?_
      rintro ⟨g, hmem⟩
      refine ⟨g, (Multiset.mem_erase_of_ne ?_).mpr hmem⟩
      intro heq
      have hxh := (Prod.mk.inj heq).2
      rw [← hx.1, hxh] at hj
      exact hj hg
    have hshares : ∀ x X, (T p).files = (f, x) ::ₘ X → x = h ∧ X = (T p).files.erase (f, h) := by
      intro x X hX'
      have hx : x = h := by
        refine hI.share_eq hh ?_
        rw [hX']
        exact Multiset.mem_cons_self _ _
      refine ⟨hx, ?_⟩
      rw [hX', hx, Multiset.erase_cons_head]
    split_ifs at he with hlow hone
    · obtain ⟨rfl, rfl⟩ := Answer.done.inj he
      obtain ⟨t, ht⟩ : ∃ t : Tokens n m, t = { T p with files := (T p).files.erase (f, h) } := ⟨_, rfl⟩
      have htotal : total (fun q => (T q).files) = (f, h) ::ₘ total fun q => (update T p t q).files :=
        total_uncons (g := Tokens.files) (T := T) (p := p) (t := t) (by rw [ht]; exact hX)
      have hfiles := hI.files
      rw [htotal] at hfiles
      refine ⟨t, .inr ⟨hblank, fun x X hX' => .inl ⟨rfl, ?_⟩⟩, oh,
        hI.refile (by rw [ht]) (by rw [ht]) (by rw [ht]) (by rw [ht]) ?_ ?_ ?_ ?_ ?_ ?_⟩
      · rw [(hshares x X hX').2]
        exact ht
      · rw [total_same (g := Tokens.blank) (T := T) (p := p) (t := t) (by rw [ht])]
        exact hfiles.close hone
      · exact handles_same (T := T) (p := p) (t := t) (by rw [ht])
      · intro j x hj hx
        rw [ht]
        exact ⟨x, hx.1, hkept j x hj hx⟩
      · intro j d hd
        rw [ht]
        exact (hI.sole hd).2.2
      · intro x hx
        rw [ht] at hx
        exact .inl hx
      · exact fun g x hg => .inl ⟨g, hg⟩
    · obtain ⟨rfl, rfl⟩ := Answer.done.inj he
      obtain ⟨t, ht⟩ : ∃ t : Tokens n m, t = { T p with
          files := (T p).files.erase (f, h), refs := h ::ₘ (T p).refs } := ⟨_, rfl⟩
      have htotal : total (fun q => (T q).files) = (f, h) ::ₘ total fun q => (update T p t q).files :=
        total_uncons (g := Tokens.files) (T := T) (p := p) (t := t) (by rw [ht]; exact hX)
      have hfiles := hI.files
      rw [htotal] at hfiles
      have hip : (s.ftable f).ip = some h.slot := by
        rw [hI.files.ip, hopen]
        rfl
      refine ⟨t, .inr ⟨hblank, fun x X hX' => .inr ⟨?_, ?_⟩⟩, update oh f none,
        hI.refile (by rw [ht]) (by rw [ht]) (by rw [ht]) (by rw [ht]) ?_ ?_ ?_ ?_ ?_ ?_⟩
      · rw [(hshares x X hX').1]
        exact hip
      · rw [(hshares x X hX').2, (hshares x X hX').1]
        exact ht
      · rw [total_same (g := Tokens.blank) (T := T) (p := p) (t := t) (by rw [ht])]
        exact hfiles.closeLast hone
      · rw [handles_cons (T := T) (p := p) (t := t) (by rw [ht])]
        exact (handles_close hopen).symm
      · intro j x hj hx
        rw [ht]
        exact ⟨x, hx.1, (hkept j x hj hx).imp Multiset.mem_cons_of_mem id⟩
      · intro j d hd
        obtain ⟨-, -, x, hx, hslot⟩ := hI.sole hd
        rw [ht]
        exact ⟨x, Multiset.mem_cons_of_mem hx, hslot⟩
      · intro x hx
        rw [ht] at hx
        rcases Multiset.mem_cons.mp hx with rfl | hx
        · exact .inr ⟨f, hopen⟩
        · exact .inl hx
      · intro g x hx
        by_cases hgf : g = f
        · rw [hgf, update_self] at hx
          cases hx
        · rw [update_of_ne hgf] at hx
          exact .inl ⟨g, hx⟩

/-! ### All operations -/

/-- **An operation keeps the invariant** and does to the tokens what its rule says. -/
theorem exec_done {o : Op n m} {r : Res o} (hI : Inv s T) (hpre : pre o (T p)) (hb : ¬ Stale o s)
    (he : exec p o s = .done r s') : ∃ t, post o (T p) r t ∧ Inv s' (update T p t) := by
  cases o with
  | iget inum => exact done_iget hI hpre he
  | idup ip => exact done_idup hI hpre he
  | ilockCheck ip =>
    simp only [exec] at he
    split_ifs at he
    obtain ⟨-, rfl⟩ := Answer.done.inj he
    exact ⟨T p, rfl, hI.same⟩
  | acquiresleep ip => exact done_acquiresleep hI hpre he
  | load ip => exact done_load hI hpre he
  | look ip => exact done_look hI hpre he
  | inum ip => exact done_inum hI hpre he
  | refs ip => exact done_refs hI hpre he
  | erase ip => exact done_erase hI hpre he
  | invalidate ip => exact done_invalidate hI hpre he
  | releasesleep ip => exact done_releasesleep hI hpre he
  | iunlock ip => exact done_iunlock hI hpre he
  | drop ip => exact done_drop hI hpre he
  | ninodes =>
    obtain ⟨-, rfl⟩ := Answer.done.inj he
    exact ⟨T p, rfl, hI.same⟩
  | mark inum type => exact done_mark hI hpre he
  | linkOne ip => exact done_linkOne hI hpre he
  | incLink ip => exact done_incLink hI hpre he
  | decLink ip => exact done_decLink hI hpre he
  | dirlookup dp name => exact done_dirlookup hI hpre hb he
  | isdirempty ip =>
    obtain ⟨rfl, rfl⟩ := Answer.done.inj he
    exact ⟨T p, rfl, hI.same⟩
  | putEntry dp name inum => exact done_putEntry hI hpre he
  | clearEntry dp off => exact done_clearEntry hI hpre he
  | filealloc => exact done_filealloc hI he
  | setIp f ip => exact done_setIp hI hpre he
  | fileIp f => exact done_fileIp hI hpre he
  | filedup f => exact done_filedup hI hpre he
  | fileclose f => exact done_fileclose hI hpre he
  | panic e => cases he

/-- **An operation panics** only for want of a free entry in the cache, of a free inode on the disk or of room in a
directory. -/
theorem exec_panic {o : Op n m} {e : Panic} (hI : Inv s T) (hpre : pre o (T p)) (he : exec p o s = .panic e) :
    e = .igetNoInodes ∨ e = .iallocNoInodes ∨ e = .dirlink := by
  obtain ⟨oh, hI⟩ := hI
  cases o with
  | iget inum =>
    simp only [exec] at he
    cases hfind : s.find inum with
    | none =>
      rw [hfind] at he
      exact .inl (Answer.panic.inj he).symm
    | some ip =>
      rw [hfind] at he
      cases he
  | ilockCheck ip =>
    obtain ⟨h, hh⟩ := hpre
    have hpos := (hI.has hh).1
    simp only [exec] at he
    rw [if_neg (by omega)] at he
    cases he
  | acquiresleep ip =>
    simp only [exec] at he
    split_ifs at he
  | load ip =>
    obtain ⟨-, h, hh⟩ := hpre
    obtain ⟨-, hinum, htype, hne⟩ := hI.has hh
    simp only [exec] at he
    split_ifs at he with hvalid hzero
    rw [hinum, htype] at hzero
    exact absurd hzero hne
  | iunlock ip =>
    obtain ⟨⟨d, hd, -⟩, h, hh⟩ := hpre
    have hpos := (hI.has hh).1
    have hown := (hI.lock p ip).mpr (ne_of_sees (.inl hd))
    simp only [exec] at he
    rw [if_neg (by rw [hown]; simp; omega)] at he
    cases he
  | mark inum type =>
    simp only [exec] at he
    split_ifs at he
  | putEntry dp name inum =>
    simp only [exec] at he
    split_ifs at he
    exact .inr (.inr (Answer.panic.inj he).symm)
  | dirlookup dp name =>
    obtain ⟨d, h, hd, hh, htype⟩ := hpre
    have hcached := (hI.cached (.inl hd)).2.1
    simp only [exec] at he
    rw [if_neg (by rw [hcached, htype]; simp)] at he
    cases hlook : lookup (s.disk (s.icache dp).inum).dir name with
    | none =>
      rw [hlook] at he
      cases he
    | some a =>
      obtain ⟨inum, off⟩ := a
      rw [hlook] at he
      dsimp only at he
      cases hfind : s.find inum with
      | none =>
        rw [hfind] at he
        exact .inl (Answer.panic.inj he).symm
      | some ip =>
        rw [hfind] at he
        cases he
  | filealloc =>
    simp only [exec] at he
    cases hfind : (List.finRange m).find? fun f => decide ((s.ftable f).ref = 0) with
    | none =>
      rw [hfind] at he
      cases he
    | some f =>
      rw [hfind] at he
      cases he
  | filedup f =>
    obtain ⟨h, hh⟩ := hpre
    have hpos := hI.files.pos (mem_total.mpr ⟨p, hh⟩)
    simp only [exec] at he
    rw [if_neg (by omega)] at he
    cases he
  | fileclose f =>
    have hpos : 0 < (s.ftable f).ref := by
      rcases hpre with hblank | ⟨h, hh, -⟩
      · have hcount := hI.files.count f
        have hone := (hI.files.blank (mem_total.mpr ⟨p, hblank⟩)).2
        omega
      · exact hI.files.pos (mem_total.mpr ⟨p, hh⟩)
    simp only [exec] at he
    rw [if_neg (by omega)] at he
    split_ifs at he
  | panic e' =>
    obtain rfl : e' = e := Answer.panic.inj he
    exact .inr (.inl hpre)
  | _ => cases he

end SdeSystems.Inodes
