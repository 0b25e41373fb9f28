import SdeSystems.Inodes.Tokens

/-!
# What keeps the tokens in step

The changes that operations make to the shared state and to the tokens of one process, each with the proof that it
keeps `Fits`: what is known of a locked inode, the cached fields, the reference counts, an inode on the disk.
-/

namespace SdeSystems.Inodes

open Function Lib Names

variable {ι : Type} {n m : ℕ} {s : State ι n m} {T : ι → Tokens n m}
  {oh : Fin m → Option (Handle n)} {p q : ι} {i j : Fin n} {h : Handle n} {d : Dinode} {k : ℕ} {t : Tokens n m}

theorem ne_of_sees (hd : t.Sees i d) : t.grips i ≠ none := by
  rcases hd with hd | hd
  · rw [hd]
    exact Option.some_ne_none _
  · rw [hd]
    exact Option.some_ne_none _

section

variable [DecidableEq ι]

theorem field_same {β : Type} {g : Tokens n m → β} (hg : g t = g (T p)) (q : ι) : g (update T p t q) = g (T q) := by
  by_cases hq : q = p
  · rw [hq, update_self, hg]
  · rw [update_of_ne hq]

theorem grips_update {g : Option Grip} (hg : t.grips = update (T p).grips i g) (q : ι) (j : Fin n) :
    (update T p t q).grips j = if q = p ∧ j = i then g else (T q).grips j := by
  by_cases hq : q = p
  · subst hq
    rw [update_self, hg]
    by_cases hj : j = i
    · rw [if_pos ⟨rfl, hj⟩, hj, update_self]
    · rw [if_neg fun hc => hj hc.2, update_of_ne hj]
  · rw [update_of_ne hq, if_neg fun hc => hq hc.1]

end

variable [Fintype ι]

theorem mem_handles : h ∈ handles T oh ↔ (∃ p, h ∈ (T p).refs) ∨ ∃ f, oh f = some h := by
  simp only [handles, Multiset.mem_add, mem_total, held]
  refine or_congr Iff.rfl (exists_congr fun f => ?_)
  cases oh f <;> simp [eq_comm]

/-! ### Totals -/

section

variable [DecidableEq ι] {α : Type} {g : Tokens n m → Multiset α} {a : α}

theorem total_same (hg : g t = g (T p)) : total (fun q => g (update T p t q)) = total fun q => g (T q) := by
  have hup := total_update_add (fun _ => g) T p t
  rw [hg] at hup
  exact add_right_cancel hup

theorem total_cons (hg : g t = a ::ₘ g (T p)) :
    total (fun q => g (update T p t q)) = a ::ₘ total fun q => g (T q) := by
  have hup := total_update_add (fun _ => g) T p t
  rw [hg, ← Multiset.singleton_add, ← add_assoc, add_comm _ ({a} : Multiset α)] at hup
  exact add_right_cancel hup

theorem total_uncons (hg : g (T p) = a ::ₘ g t) :
    total (fun q => g (T q)) = a ::ₘ total fun q => g (update T p t q) := by
  have hup := total_update_add (fun _ => g) T p t
  rw [hg, ← Multiset.singleton_add, ← add_assoc, add_comm _ ({a} : Multiset α)] at hup
  exact (add_right_cancel hup).symm

theorem total_cons₂ {b : α} (hg : g t = a ::ₘ b ::ₘ g (T p)) :
    total (fun q => g (update T p t q)) = a ::ₘ b ::ₘ total fun q => g (T q) := by
  have hup := total_update_add (fun _ => g) T p t
  rw [hg, Multiset.add_cons, Multiset.add_cons, ← Multiset.cons_add, ← Multiset.cons_add] at hup
  exact add_right_cancel hup

theorem total_uncons₂ {b : α} (hg : g (T p) = a ::ₘ b ::ₘ g t) :
    total (fun q => g (T q)) = a ::ₘ b ::ₘ total fun q => g (update T p t q) := by
  have hup := total_update_add (fun _ => g) T p t
  rw [hg, Multiset.add_cons, Multiset.add_cons, ← Multiset.cons_add, ← Multiset.cons_add] at hup
  exact (add_right_cancel hup).symm

theorem handles_same (hg : t.refs = (T p).refs) : handles (update T p t) oh = handles T oh := by
  rw [handles, total_same (g := Tokens.refs) hg, handles]

theorem handles_cons (hg : t.refs = h ::ₘ (T p).refs) : handles (update T p t) oh = h ::ₘ handles T oh := by
  rw [handles, total_cons (g := Tokens.refs) hg, Multiset.cons_add, handles]

theorem handles_uncons (hg : (T p).refs = h ::ₘ t.refs) : handles T oh = h ::ₘ handles (update T p t) oh := by
  rw [handles, total_uncons (g := Tokens.refs) hg, Multiset.cons_add, handles]

end

/-- A file gets its handle. -/
theorem handles_open {f : Fin m} (hf : oh f = none) : handles T (update oh f (some h)) = h ::ₘ handles T oh := by
  have hup := total_update_add (fun (_ : Fin m) (o : Option (Handle n)) => o.elim 0 fun x => {x}) oh f (some h)
  rw [hf] at hup
  simp only [Option.elim_none, Option.elim_some, add_zero] at hup
  have hheld : total (held (update oh f (some h)) id) = total (held oh id) + {h} := hup
  rw [handles, hheld, handles, ← add_assoc, add_comm, Multiset.singleton_add]

/-- A file gives its handle back. -/
theorem handles_close {f : Fin m} (hf : oh f = some h) : handles T oh = h ::ₘ handles T (update oh f none) := by
  have hself : update (update oh f none) f (some h) = oh := by
    rw [update_idem, ← hf, update_eq_self]
  have hopen := handles_open (T := T) (h := h) (update_self f none oh)
  rw [hself] at hopen
  exact hopen

/-! ### Facts -/

namespace Fits

theorem mem_of_has (hI : Fits s T oh) (hh : (T p).Has i h) : h ∈ handles T oh := by
  rcases hh.2 with hh | ⟨f, hf⟩
  · exact mem_handles.mpr (.inl ⟨p, hh⟩)
  · exact mem_handles.mpr (.inr ⟨f, hI.files.share (mem_total.mpr ⟨p, hf⟩)⟩)

/-- A handle is that of the inode in its entry, and this is allocated. -/
theorem has (hI : Fits s T oh) (hh : (T p).Has i h) :
    0 < (s.icache i).ref ∧ (s.icache i).inum = h.inum ∧ (s.disk h.inum).type = h.type ∧ h.type ≠ 0 := by
  have hmem := hI.mem_of_has hh
  have hpos := hI.refs.pos hmem
  have hhandle := hI.refs.handle hmem
  rw [hh.1] at hpos hhandle
  exact ⟨hpos, hhandle⟩

theorem pos (hI : Fits s T oh) (hg : (T p).grips i ≠ none) : 0 < (s.icache i).ref := by
  rcases hI.backed hg with ⟨h, hh⟩ | hgone
  · exact (hI.has hh).1
  · exact hI.refs.pos_of_gone (mem_total.mpr ⟨p, hgone⟩)

/-- A lock is one process's. -/
theorem owner (hI : Fits s T oh) (hp : (T p).grips i ≠ none) (hq : (T q).grips i ≠ none) : q = p := by
  have hp := (hI.lock p i).mpr hp
  have hq := (hI.lock q i).mpr hq
  rw [hp] at hq
  exact (Option.some.inj hq).symm

/-- The new inode of another process is not one that this one uses. -/
theorem not_fresh (hI : Fits s T oh) (hh : (T p).Has i h) {type : ℕ} (hf : (T q).fresh = some (h.inum, type)) :
    q = p := by
  by_contra hne
  obtain ⟨-, -, hothers, hopen⟩ := hI.fresh hf
  rcases hh.2 with hmem | ⟨f, hx⟩
  · exact (hothers p (Ne.symm hne)).1 h hmem rfl
  · exact hopen f h (hI.files.share (mem_total.mpr ⟨p, hx⟩)) rfl

/-- What is there when an inode is read in. -/
theorem loads (hI : Fits s T oh) (hg : (T p).grips i = some .raw) (hh : (T p).Has i h) :
    Loads (T p) i (s.disk (s.icache i).inum) := by
  have hgne : (T p).grips i ≠ none := by
    rw [hg]
    exact Option.some_ne_none _
  refine ⟨?_, ?_, ?_, ?_⟩
  · intro x hx
    obtain ⟨-, hinum, htype, -⟩ := hI.has hx
    rw [hinum, htype]
  · intro hnone
    rcases hI.dots (s.icache i).inum with hdone | ⟨q, type, hq⟩ | ⟨q, j, d, hsee, hj⟩
    · exact hdone
    · rw [(hI.has hh).2.1] at hq
      have hqp := hI.not_fresh hh hq
      rw [hqp, hnone] at hq
      cases hq
    · have hji : j = i := hI.refs.unique (hI.pos (ne_of_sees hsee)) (hI.pos hgne) hj
      have hqp := hI.owner hgne (hji ▸ ne_of_sees hsee)
      rw [hji, hqp] at hsee
      rcases hsee with hsee | hsee
      · rw [hg] at hsee
        cases hsee
      · rw [hg] at hsee
        cases hsee
  · intro x type hx hf
    rw [(hI.has hx).2.1]
    exact (hI.fresh hf).1
  · rintro dp d' x name hd' hx hname ⟨off, hlook⟩
    obtain ⟨-, hdata, -⟩ := hI.sees (.inl hd')
    rw [← hdata] at hlook
    rw [(hI.has hx).2.1]
    exact hI.links.one_le (counted_of_name (entry_of_lookup hlook) hname)

/-! ### The cached fields -/

/-- The cached copy of an inode is changed, by the process that has its lock. -/
theorem recache {c : Inode} (hI : Fits s T oh) (href : c.ref = (s.icache i).ref) (hinum : c.inum = (s.icache i).inum)
    (hvalid : ∀ q d, (T q).Sees i d → c.valid = true)
    (hcopy : c.valid = true → c.type = (s.disk c.inum).type ∧ c.nlink = (s.disk c.inum).nlink ∧ c.type ≠ 0) :
    Fits { s with icache := update s.icache i c } T oh := by
  have hi : ∀ j, (update s.icache i c j).ref = (s.icache j).ref ∧ (update s.icache i c j).inum = (s.icache j).inum := by
    intro j
    by_cases hj : j = i
    · rw [hj, update_self]
      exact ⟨href, hinum⟩
    · rw [update_of_ne hj]
      exact ⟨rfl, rfl⟩
  constructor
  case refs => exact hI.refs.congr (fun j => (hi j).1) (fun j => (hi j).2) fun _ _ => rfl
  case files => exact hI.files
  case links => exact hI.links
  case lock => exact hI.lock
  case backed => exact hI.backed
  case sees =>
    intro q j d hd
    dsimp only
    rw [(hi j).2]
    refine ⟨?_, (hI.sees hd).2⟩
    by_cases hj : j = i
    · rw [hj, update_self]
      exact hvalid q d (hj ▸ hd)
    · rw [update_of_ne hj]
      exact (hI.sees hd).1
  case sole =>
    intro q j d hd
    dsimp only
    rw [(hi j).1]
    exact hI.sole hd
  case copy =>
    intro j hpos hv hne
    dsimp only at hpos hv ⊢
    rw [(hi j).1] at hpos
    by_cases hj : j = i
    · rw [hj, update_self] at hv ⊢
      exact hcopy hv
    · rw [update_of_ne hj] at hv ⊢
      exact hI.copy hpos hv hne
  case fresh => exact hI.fresh
  case dots =>
    intro k
    rcases hI.dots k with hdone | hfresh | ⟨q, j, d, hd, hj⟩
    · exact .inl hdone
    · exact .inr (.inl hfresh)
    · refine .inr (.inr ⟨q, j, d, hd, ?_⟩)
      dsimp only
      rw [(hi j).2]
      exact hj

variable [DecidableEq ι]

/-! ### Locks -/

/-- What a process knows of an entry is changed, and whether it has the lock. -/
theorem regrip {g : Option Grip} {v : Option ι} (hI : Fits s T oh) (hv : v = some p ∧ g ≠ none ∨ v = none ∧ g = none)
    (hfree : s.lock i = none ∨ s.lock i = some p)
    (hback : g ≠ none → (∃ h, (T p).Has i h) ∨ i ∈ (T p).gone)
    (hsees : ∀ d, ((T p).grip i g).Sees i d →
      (s.icache i).valid = true ∧ s.disk (s.icache i).inum = d ∧ d.type ≠ 0)
    (hsole : ∀ d, g = some (.sole d) → d.nlink = 0 ∧ (s.icache i).ref = 1 ∧ ∃ h ∈ (T p).refs, h.slot = i)
    (hold : (T p).grips i ≠ some .erased ∨ (s.icache i).valid = false)
    (hdots : ∀ d, (T p).Sees i d → (∃ d', ((T p).grip i g).Sees i d') ∨ Finished d) :
    Fits { s with lock := update s.lock i v } (update T p ((T p).grip i g)) oh := by
  have hgrip : ∀ q j, (update T p ((T p).grip i g) q).grips j = if q = p ∧ j = i then g else (T q).grips j :=
    grips_update rfl
  have hrest : ∀ q, (update T p ((T p).grip i g) q).refs = (T q).refs ∧
      (update T p ((T p).grip i g) q).files = (T q).files ∧ (update T p ((T p).grip i g) q).gone = (T q).gone ∧
      (update T p ((T p).grip i g) q).fresh = (T q).fresh := by
    intro q
    refine ⟨field_same (g := Tokens.refs) ?_ q, field_same (g := Tokens.files) ?_ q,
      field_same (g := Tokens.gone) ?_ q, field_same (g := Tokens.fresh) ?_ q⟩ <;> rfl
  have hhas : ∀ q j h, (update T p ((T p).grip i g) q).Has j h ↔ (T q).Has j h := by
    intro q j h
    simp only [Tokens.Has, (hrest q).1, (hrest q).2.1]
  have hsee : ∀ q j d, (update T p ((T p).grip i g) q).Sees j d → (q = p ∧ j = i ∧ ((T p).grip i g).Sees i d) ∨
      (¬ (q = p ∧ j = i) ∧ (T q).Sees j d) := by
    intro q j d hsee
    by_cases hc : q = p ∧ j = i
    · obtain ⟨rfl, rfl⟩ := hc
      rw [update_self] at hsee
      exact .inl ⟨rfl, rfl, hsee⟩
    · right
      simp only [Tokens.Sees, hgrip, if_neg hc] at hsee
      exact ⟨hc, hsee⟩
  have hsee' : ∀ q j d, ¬ (q = p ∧ j = i) → (T q).Sees j d → (update T p ((T p).grip i g) q).Sees j d := by
    intro q j d hc hsee
    simp only [Tokens.Sees, hgrip, if_neg hc]
    exact hsee
  constructor
  case refs =>
    rw [handles_same (T := T) (p := p) (t := (T p).grip i g) rfl,
      total_same (g := Tokens.gone) (T := T) (p := p) (t := (T p).grip i g) rfl]
    exact hI.refs
  case files =>
    rw [total_same (g := Tokens.files) (T := T) (p := p) (t := (T p).grip i g) rfl,
      total_same (g := Tokens.blank) (T := T) (p := p) (t := (T p).grip i g) rfl]
    exact hI.files
  case links =>
    rw [total_same (g := Tokens.credits) (T := T) (p := p) (t := (T p).grip i g) rfl]
    exact hI.links
  case lock =>
    intro q j
    rw [hgrip]
    dsimp only
    by_cases hj : j = i
    · subst hj
      rw [update_self]
      by_cases hq : q = p
      · subst hq
        rw [if_pos ⟨rfl, rfl⟩]
        rcases hv with ⟨rfl, hg⟩ | ⟨rfl, rfl⟩
        · simp [hg]
        · simp
      · rw [if_neg fun hc => hq hc.1, ← hI.lock q j]
        rcases hv with ⟨rfl, -⟩ | ⟨rfl, -⟩
        · rcases hfree with hfree | hfree
          · simp [hfree, Ne.symm hq]
          · simp [hfree]
        · rcases hfree with hfree | hfree
          · simp [hfree]
          · simp [hfree, Ne.symm hq]
    · rw [update_of_ne hj, if_neg fun hc => hj hc.2]
      exact hI.lock q j
  case backed =>
    intro q j hg
    rw [hgrip] at hg
    simp only [hhas, (hrest q).2.2.1]
    by_cases hc : q = p ∧ j = i
    · obtain ⟨rfl, rfl⟩ := hc
      rw [if_pos ⟨rfl, rfl⟩] at hg
      exact hback hg
    · rw [if_neg hc] at hg
      exact hI.backed hg
  case sees =>
    intro q j d hd
    rcases hsee q j d hd with ⟨rfl, rfl, hd⟩ | ⟨-, hd⟩
    · exact hsees d hd
    · exact hI.sees hd
  case sole =>
    intro q j d hd
    rw [hgrip] at hd
    rw [(hrest q).1]
    by_cases hc : q = p ∧ j = i
    · obtain ⟨rfl, rfl⟩ := hc
      rw [if_pos ⟨rfl, rfl⟩] at hd
      exact hsole d hd
    · rw [if_neg hc] at hd
      exact hI.sole hd
  case copy =>
    intro j hpos hvalid hne
    refine hI.copy hpos hvalid ?_
    intro q hq
    by_cases hc : q = p ∧ j = i
    · obtain ⟨rfl, rfl⟩ := hc
      rcases hold with hold | hold
      · exact hold hq
      · dsimp only at hvalid
        rw [hold] at hvalid
        cases hvalid
    · refine hne q ?_
      rw [hgrip, if_neg hc]
      exact hq
  case fresh =>
    intro q k type hf
    rw [(hrest q).2.2.2] at hf
    obtain ⟨hdisk, htype, hothers, hopen⟩ := hI.fresh hf
    refine ⟨hdisk, htype, ?_, hopen⟩
    intro r hr
    rw [(hrest r).1, (hrest r).2.2.2]
    exact hothers r hr
  case dots =>
    intro k
    rcases hI.dots k with hdone | ⟨q, type, hq⟩ | ⟨q, j, d, hd, hj⟩
    · exact .inl hdone
    · exact .inr (.inl ⟨q, type, by rw [(hrest q).2.2.2]; exact hq⟩)
    · by_cases hc : q = p ∧ j = i
      · obtain ⟨rfl, rfl⟩ := hc
        rcases hdots d hd with ⟨d', hd'⟩ | hdone
        · exact .inr (.inr ⟨q, j, d', by rw [update_self]; exact hd', hj⟩)
        · have hdata := (hI.sees hd).2.1
          rw [hj] at hdata
          left
          dsimp only
          rw [hdata]
          exact hdone
      · exact .inr (.inr ⟨q, j, d, hsee' q j d hc hd, hj⟩)

/-- The lock is kept. -/
theorem regrip_locked {g : Grip} (hI : Fits s T oh) (hlock : (T p).grips i ≠ none)
    (hsees : ∀ d, ((T p).grip i (some g)).Sees i d →
      (s.icache i).valid = true ∧ s.disk (s.icache i).inum = d ∧ d.type ≠ 0)
    (hsole : ∀ d, g = .sole d → d.nlink = 0 ∧ (s.icache i).ref = 1 ∧ ∃ h ∈ (T p).refs, h.slot = i)
    (hold : (T p).grips i ≠ some .erased ∨ (s.icache i).valid = false)
    (hdots : ∀ d, (T p).Sees i d → ∃ d', ((T p).grip i (some g)).Sees i d') :
    Fits s (update T p ((T p).grip i (some g))) oh := by
  have hown : s.lock i = some p := (hI.lock p i).mpr hlock
  have hsame : { s with lock := update s.lock i (some p) } = s := by
    rw [← hown, update_eq_self]
  rw [← hsame]
  exact hI.regrip (.inl ⟨rfl, Option.some_ne_none _⟩) (.inr hown) (fun _ => hI.backed hlock) hsees
    (fun d hd => hsole d (Option.some.inj hd)) hold fun d hd => .inl (hdots d hd)

/-! ### Reference counts -/

/-- The uses of an entry change, and of nothing else. -/
theorem reuse {c : Inode} (hI : Fits s T oh)
    (hcred : t.credits = (T p).credits) (hgrips : t.grips = (T p).grips) (hfr : t.fresh = (T p).fresh)
    (hfiles : t.files = (T p).files) (hblank : t.blank = (T p).blank)
    (hrefs : Refs (update s.icache i c) (fun k => (s.disk k).type) (handles (update T p t) oh)
      (total fun q => (update T p t q).gone))
    (hback : ∀ j, (T p).grips j ≠ none → (∃ h, t.Has j h) ∨ j ∈ t.gone)
    (hkeep : (∀ q, (T q).grips i = none) ∨ c.valid = (s.icache i).valid ∧ c.inum = (s.icache i).inum ∧
      c.type = (s.icache i).type ∧ c.nlink = (s.icache i).nlink)
    (hvalid : (s.icache i).ref = 0 → c.valid = false)
    (hcached : c.valid = true → c.inum = (s.icache i).inum ∧ c.type = (s.icache i).type ∧ c.nlink = (s.icache i).nlink ∧
      (s.icache i).valid = true)
    (hsole : ∀ q d, (T q).grips i = some (.sole d) → c.ref = 1)
    (hsole' : ∀ j d, (T p).grips j = some (.sole d) → ∃ h ∈ t.refs, h.slot = j)
    (hfresh : ∀ q ≠ p, ∀ k type, (T q).fresh = some (k, type) → ∀ h ∈ t.refs, h.inum ≠ k) :
    Fits { s with icache := update s.icache i c } (update T p t) oh := by
  have hgrip : ∀ q, (update T p t q).grips = (T q).grips := field_same hgrips
  have hfresheq : ∀ q, (update T p t q).fresh = (T q).fresh := field_same hfr
  have hsee : ∀ q j d, (update T p t q).Sees j d ↔ (T q).Sees j d := by
    intro q j d
    simp only [Tokens.Sees, hgrip]
  have hsame : ∀ q j, (T q).grips j ≠ none → (update s.icache i c j).valid = (s.icache j).valid ∧
      (update s.icache i c j).inum = (s.icache j).inum := by
    intro q j hg
    by_cases hj : j = i
    · rw [hj, update_self]
      rcases hkeep with hnone | hkeep
      · rw [hj] at hg
        exact absurd (hnone q) hg
      · exact ⟨hkeep.1, hkeep.2.1⟩
    · rw [update_of_ne hj]
      exact ⟨rfl, rfl⟩
  constructor
  case refs => exact hrefs
  case files =>
    rw [total_same (g := Tokens.files) hfiles, total_same (g := Tokens.blank) hblank]
    exact hI.files
  case links =>
    rw [total_same (g := Tokens.credits) hcred]
    exact hI.links
  case lock =>
    intro q j
    rw [hgrip]
    exact hI.lock q j
  case backed =>
    intro q j hg
    rw [hgrip] at hg
    by_cases hq : q = p
    · subst hq
      rw [update_self]
      exact hback j hg
    · rw [update_of_ne hq]
      exact hI.backed hg
  case sees =>
    intro q j d hd
    rw [hsee] at hd
    have hkept := hsame q j (ne_of_sees hd)
    dsimp only
    rw [hkept.1, hkept.2]
    exact hI.sees hd
  case sole =>
    intro q j d hd
    rw [hgrip] at hd
    obtain ⟨hzero, hone, hmem⟩ := hI.sole hd
    refine ⟨hzero, ?_, ?_⟩
    · dsimp only
      by_cases hj : j = i
      · rw [hj, update_self]
        exact hsole q d (hj ▸ hd)
      · rw [update_of_ne hj]
        exact hone
    · by_cases hq : q = p
      · subst hq
        rw [update_self]
        exact hsole' j d hd
      · rw [update_of_ne hq]
        exact hmem
  case copy =>
    intro j hpos hv hne
    dsimp only at hpos hv ⊢
    have hne : ∀ q, (T q).grips j ≠ some .erased := by
      intro q
      rw [← hgrip q]
      exact hne q
    by_cases hj : j = i
    · rw [hj, update_self] at hv ⊢
      obtain ⟨hinum, htype, hnlink, hold⟩ := hcached hv
      have hpos : 0 < (s.icache i).ref := by
        by_contra hzero
        rw [hvalid (by omega)] at hv
        cases hv
      rw [hinum, htype, hnlink]
      exact hI.copy hpos hold (hj ▸ hne)
    · rw [update_of_ne hj] at hpos hv ⊢
      exact hI.copy hpos hv hne
  case fresh =>
    intro q k type hf
    rw [hfresheq] at hf
    obtain ⟨hdisk, htype, hothers, hopen⟩ := hI.fresh hf
    refine ⟨hdisk, htype, ?_, hopen⟩
    intro r hr
    rw [hfresheq]
    refine ⟨?_, (hothers r hr).2⟩
    by_cases hrp : r = p
    · subst hrp
      rw [update_self]
      exact hfresh q (Ne.symm hr) k type hf
    · rw [update_of_ne hrp]
      exact (hothers r hr).1
  case dots =>
    intro k
    rcases hI.dots k with hdone | ⟨q, type, hq⟩ | ⟨q, j, d, hd, hj⟩
    · exact .inl hdone
    · exact .inr (.inl ⟨q, type, by rw [hfresheq]; exact hq⟩)
    · refine .inr (.inr ⟨q, j, d, (hsee q j d).mpr hd, ?_⟩)
      dsimp only
      rw [(hsame q j (ne_of_sees hd)).2]
      exact hj

/-- A new handle, by `iget`. -/
theorem take (hI : Fits s T oh) (hfind : s.find k = some i) (htype : (s.disk k).type ≠ 0)
    (hsole : ∀ q d, (T q).grips i = some (.sole d) → (s.icache i).inum = k → False)
    (hfresh : ∀ q type, (T q).fresh = some (k, type) → q = p) :
    Fits (s.take k i) (update T p ((T p).addRef ⟨i, k, (s.disk k).type⟩)) oh := by
  have hrefs := hI.refs.take hfind htype
  have hhas : ∀ j, (T p).grips j ≠ none →
      (∃ h, ((T p).addRef ⟨i, k, (s.disk k).type⟩).Has j h) ∨ j ∈ ((T p).addRef ⟨i, k, (s.disk k).type⟩).gone := by
    intro j hg
    refine (hI.backed hg).imp ?_ id
    rintro ⟨h, hslot, hh⟩
    exact ⟨h, hslot, hh.imp (Multiset.mem_cons_of_mem) id⟩
  have hothers : ∀ q ≠ p, ∀ k' type, (T q).fresh = some (k', type) →
      ∀ h ∈ ((T p).addRef ⟨i, k, (s.disk k).type⟩).refs, h.inum ≠ k' := by
    intro q hq k' type hf h hh
    rcases Multiset.mem_cons.mp hh with rfl | hh
    · rintro rfl
      exact hq (hfresh q type hf)
    · exact ((hI.fresh hf).2.2.1 p (Ne.symm hq)).1 h hh
  have hmore : ∀ j d, (T p).grips j = some (.sole d) →
      ∃ h ∈ ((T p).addRef ⟨i, k, (s.disk k).type⟩).refs, h.slot = j := by
    intro j d hd
    obtain ⟨-, -, h, hh, hslot⟩ := hI.sole hd
    exact ⟨h, Multiset.mem_cons_of_mem hh, hslot⟩
  simp only [State.take] at hrefs ⊢
  rcases State.find_spec hfind with ⟨hpos, hk⟩ | ⟨hzero, hk⟩
  · rw [if_pos hpos] at hrefs ⊢
    refine hI.reuse rfl rfl rfl rfl rfl ?_ hhas (.inr ⟨rfl, rfl, rfl, rfl⟩) (fun h => absurd h (by omega))
      (fun hv => ⟨rfl, rfl, rfl, hv⟩) (fun q d hd => (hsole q d hd hk).elim) hmore hothers
    rw [handles_cons (T := T) (p := p) (t := (T p).addRef ⟨i, k, (s.disk k).type⟩) rfl,
      total_same (g := Tokens.gone) (T := T) (p := p) (t := (T p).addRef ⟨i, k, (s.disk k).type⟩) rfl]
    exact hrefs
  · rw [if_neg (by omega)] at hrefs ⊢
    have hfree : ∀ q, (T q).grips i = none := by
      intro q
      by_contra hg
      have := hI.pos hg
      omega
    refine hI.reuse rfl rfl rfl rfl rfl ?_ hhas (.inl hfree) (fun _ => rfl) (fun hv => by cases hv) ?_ hmore hothers
    · rw [handles_cons (T := T) (p := p) (t := (T p).addRef ⟨i, k, (s.disk k).type⟩) rfl,
        total_same (g := Tokens.gone) (T := T) (p := p) (t := (T p).addRef ⟨i, k, (s.disk k).type⟩) rfl]
      exact hrefs
    · intro q d hd
      exact absurd ((hfree q).symm.trans hd) (by simp)

/-- A handle is dropped, of an entry that is not locked. -/
theorem drop {R : Multiset (Handle n)} (hI : Fits s T oh) (hR : (T p).refs = h ::ₘ R) (hg : (T p).grips h.slot = none) :
    Fits { s with icache := update s.icache h.slot { s.icache h.slot with ref := (s.icache h.slot).ref - 1 } }
      (update T p { T p with refs := R }) oh := by
  have hH : handles T oh = h ::ₘ handles (update T p { T p with refs := R }) oh :=
    handles_uncons (T := T) (p := p) (t := { T p with refs := R }) hR
  have hrefs := hI.refs
  rw [hH] at hrefs
  have hpos := hrefs.pos (Multiset.mem_cons_self h _)
  have hkept : ∀ j x, (T p).grips j ≠ none → x ∈ (T p).refs → x.slot = j → x ∈ R := by
    intro j x hj hx hslot
    rw [hR] at hx
    refine (Multiset.mem_cons.mp hx).resolve_left ?_
    rintro rfl
    rw [← hslot] at hj
    exact hj hg
  refine hI.reuse rfl rfl rfl rfl rfl ?_ ?_ (.inr ⟨rfl, rfl, rfl, rfl⟩) (fun hz => absurd hz (by omega))
    (fun hv => ⟨rfl, rfl, rfl, hv⟩) ?_ ?_ ?_
  · rw [total_same (g := Tokens.gone) (T := T) (p := p) (t := { T p with refs := R }) rfl]
    exact hrefs.drop
  · intro j hj
    refine (hI.backed hj).imp ?_ id
    rintro ⟨x, hslot, hx⟩
    exact ⟨x, hslot, hx.imp (fun hx => hkept j x hj hx hslot) id⟩
  · intro q d hd
    exfalso
    obtain ⟨-, hone, x, hx, hslot⟩ := hI.sole hd
    have hqp : q ≠ p := by
      rintro rfl
      rw [hg] at hd
      cases hd
    have hmem : x ∈ handles (update T p { T p with refs := R }) oh := by
      refine mem_handles.mpr (.inl ⟨q, ?_⟩)
      rw [update_of_ne hqp]
      exact hx
    have hcount := hrefs.count h.slot
    have hx1 := Multiset.count_pos.mpr (Multiset.mem_map_of_mem Handle.slot hmem)
    rw [hslot] at hx1
    rw [Multiset.map_cons, Multiset.count_cons_self, hone] at hcount
    omega
  · intro j d hd
    obtain ⟨-, -, x, hx, hslot⟩ := hI.sole hd
    exact ⟨x, hkept j x (by rw [hd]; exact Option.some_ne_none _) hx hslot, hslot⟩
  · intro q hq k type hf x hx
    refine ((hI.fresh hf).2.2.1 p (Ne.symm hq)).1 x ?_
    rw [hR]
    exact Multiset.mem_cons_of_mem hx

/-- The entry of a freed inode is dropped. -/
theorem dropGone {G : Multiset (Fin n)} (hI : Fits s T oh) (hG : (T p).gone = i ::ₘ G) (hg : (T p).grips i = none) :
    Fits { s with icache := update s.icache i { s.icache i with ref := (s.icache i).ref - 1 } }
      (update T p { T p with gone := G }) oh := by
  have hgone : total (fun q => (T q).gone) = i ::ₘ total fun q => (update T p { T p with gone := G } q).gone :=
    total_uncons (g := Tokens.gone) (T := T) (p := p) (t := { T p with gone := G }) hG
  have hrefs := hI.refs
  rw [hgone] at hrefs
  have hpos := hrefs.pos_of_gone (Multiset.mem_cons_self i _)
  refine hI.reuse rfl rfl rfl rfl rfl ?_ ?_ (.inr ⟨rfl, rfl, rfl, rfl⟩) (fun hz => absurd hz (by omega))
    (fun hv => ⟨rfl, rfl, rfl, hv⟩) ?_ (fun j d hd => (hI.sole hd).2.2) ?_
  · rw [handles_same (T := T) (p := p) (t := { T p with gone := G }) rfl]
    exact hrefs.dropGone
  · intro j hj
    refine (hI.backed hj).imp id ?_
    intro hmem
    rw [hG] at hmem
    refine (Multiset.mem_cons.mp hmem).resolve_left ?_
    rintro rfl
    exact hj hg
  · intro q d hd
    exfalso
    obtain ⟨-, hone, x, hx, hslot⟩ := hI.sole hd
    have hmem : x ∈ handles T oh := mem_handles.mpr (.inl ⟨q, hx⟩)
    have hcount := hrefs.count i
    have hx1 := Multiset.count_pos.mpr (Multiset.mem_map_of_mem Handle.slot hmem)
    rw [hslot] at hx1
    rw [Multiset.count_cons_self, hone] at hcount
    omega
  · intro q hq k type hf x hx
    exact ((hI.fresh hf).2.2.1 p (Ne.symm hq)).1 x hx

/-! ### Inodes on the disk -/

/-- A locked inode is written. -/
theorem write {d' : Dinode} {C : Multiset ℕ} (hI : Fits s T oh) (hd : (T p).grips i = some (.loaded d))
    (hh : h ∈ (T p).refs) (hslot : h.slot = i) (htype : d'.type = d.type)
    (hfresh : (T p).fresh = none ∨ ∃ type, (T p).fresh = some (h.inum, type))
    (hlinks : Links (update s.disk h.inum d')
      (total fun q => (update T p { (T p).grip i (some (.loaded d')) with credits := C, fresh := none } q).credits)) :
    Fits { s with
        icache := update s.icache i { s.icache i with nlink := d'.nlink }
        disk := update s.disk h.inum d' }
      (update T p { (T p).grip i (some (.loaded d')) with credits := C, fresh := none }) oh := by
  obtain ⟨hpos, hinum, hty, hne⟩ := hI.has (p := p) ⟨hslot, .inl hh⟩
  obtain ⟨hval, hdata, htypene⟩ := hI.sees (.inl hd)
  rw [hinum] at hdata
  have hgne : (T p).grips i ≠ none := by
    rw [hd]
    exact Option.some_ne_none _
  obtain ⟨t, ht⟩ : ∃ t, t = { (T p).grip i (some (.loaded d')) with credits := C, fresh := none } := ⟨_, rfl⟩
  rw [← ht] at hlinks ⊢
  have hrest : ∀ q, (update T p t q).refs = (T q).refs ∧ (update T p t q).files = (T q).files ∧
      (update T p t q).gone = (T q).gone ∧ (update T p t q).blank = (T q).blank := by
    intro q
    rw [ht]
    refine ⟨field_same (g := Tokens.refs) ?_ q, field_same (g := Tokens.files) ?_ q,
      field_same (g := Tokens.gone) ?_ q, field_same (g := Tokens.blank) ?_ q⟩ <;> rfl
  have hgrip : ∀ q j, (update T p t q).grips j = if q = p ∧ j = i then some (.loaded d') else (T q).grips j :=
    grips_update (by rw [ht]; rfl)
  have hi : ∀ j, (update s.icache i { s.icache i with nlink := d'.nlink } j).ref = (s.icache j).ref ∧
      (update s.icache i { s.icache i with nlink := d'.nlink } j).inum = (s.icache j).inum ∧
      (update s.icache i { s.icache i with nlink := d'.nlink } j).valid = (s.icache j).valid := by
    intro j
    by_cases hj : j = i
    · rw [hj, update_self]
      exact ⟨rfl, rfl, rfl⟩
    · rw [update_of_ne hj]
      exact ⟨rfl, rfl, rfl⟩
  have hother : ∀ j, 0 < (s.icache j).ref → j ≠ i → (s.icache j).inum ≠ h.inum := by
    intro j hj hji heq
    rw [← hinum] at heq
    exact hji (hI.refs.unique hj hpos heq)
  have htypes : ∀ k, (update s.disk h.inum d' k).type = (s.disk k).type := by
    intro k
    by_cases hk : k = h.inum
    · rw [hk, update_self, htype, hdata]
    · rw [update_of_ne hk]
  have hgrips : ∀ q j, (update T p t q).grips j ≠ none ↔ (T q).grips j ≠ none := by
    intro q j
    rw [hgrip]
    by_cases hc : q = p ∧ j = i
    · obtain ⟨rfl, rfl⟩ := hc
      rw [if_pos ⟨rfl, rfl⟩]
      simp [hd]
    · rw [if_neg hc]
  have hsee : ∀ q j e, ¬ (q = p ∧ j = i) → ((update T p t q).Sees j e ↔ (T q).Sees j e) := by
    intro q j e hc
    simp only [Tokens.Sees, hgrip, if_neg hc]
  have hnot : ∀ q k type, (update T p t q).fresh = some (k, type) → q ≠ p ∧ (T q).fresh = some (k, type) := by
    intro q k type hf
    have hqp : q ≠ p := by
      rintro rfl
      rw [update_self, ht] at hf
      cases hf
    rw [update_of_ne hqp] at hf
    exact ⟨hqp, hf⟩
  constructor
  case refs =>
    rw [handles_same (T := T) (p := p) (t := t) (by rw [ht]; rfl),
      total_same (g := Tokens.gone) (T := T) (p := p) (t := t) (by rw [ht]; rfl)]
    exact hI.refs.congr (fun j => (hi j).1) (fun j => (hi j).2.1) fun x _ => htypes x.inum
  case files =>
    rw [total_same (g := Tokens.files) (T := T) (p := p) (t := t) (by rw [ht]; rfl),
      total_same (g := Tokens.blank) (T := T) (p := p) (t := t) (by rw [ht]; rfl)]
    exact hI.files
  case links => exact hlinks
  case lock =>
    intro q j
    rw [hgrips]
    exact hI.lock q j
  case backed =>
    intro q j hg
    simp only [Tokens.Has, (hrest q).1, (hrest q).2.1, (hrest q).2.2.1]
    exact hI.backed ((hgrips q j).mp hg)
  case sees =>
    intro q j e he
    dsimp only
    rw [(hi j).2.2, (hi j).2.1]
    by_cases hc : q = p ∧ j = i
    · obtain ⟨rfl, rfl⟩ := hc
      simp only [Tokens.Sees, hgrip] at he
      have he : d' = e := by simpa using he
      rw [hinum, update_self, he]
      exact ⟨hval, rfl, by rw [← he, htype]; exact htypene⟩
    · rw [hsee q j e hc] at he
      have hji : j ≠ i := by
        rintro rfl
        exact hc ⟨hI.owner hgne (ne_of_sees he), rfl⟩
      rw [update_of_ne (hother j (hI.pos (ne_of_sees he)) hji)]
      exact hI.sees he
  case sole =>
    intro q j e he
    rw [hgrip] at he
    dsimp only
    rw [(hi j).1, (hrest q).1]
    by_cases hc : q = p ∧ j = i
    · rw [if_pos hc] at he
      cases he
    · rw [if_neg hc] at he
      exact hI.sole he
  case copy =>
    intro j hpos' hv hne'
    dsimp only at hpos' hv ⊢
    rw [(hi j).1] at hpos'
    rw [(hi j).2.2] at hv
    rw [(hi j).2.1]
    have hnerased : ∀ q, (T q).grips j ≠ some .erased := by
      intro q hq
      by_cases hc : q = p ∧ j = i
      · obtain ⟨rfl, rfl⟩ := hc
        rw [hd] at hq
        cases hq
      · refine hne' q ?_
        rw [hgrip, if_neg hc]
        exact hq
    have hcopy := hI.copy hpos' hv hnerased
    by_cases hj : j = i
    · subst hj
      rw [hinum] at hcopy ⊢
      rw [update_self, update_self, htype]
      dsimp only
      rw [hcopy.1, hdata]
      exact ⟨rfl, rfl, htypene⟩
    · rw [update_of_ne hj, update_of_ne (hother j hpos' hj)]
      exact hcopy
  case fresh =>
    intro q k type hf
    obtain ⟨hqp, hf⟩ := hnot q k type hf
    obtain ⟨hdisk, htype', hothers, hopen⟩ := hI.fresh hf
    have hk : k ≠ h.inum := by
      rintro rfl
      exact hqp (hI.not_fresh (p := p) ⟨hslot, .inl hh⟩ hf)
    dsimp only
    rw [update_of_ne hk]
    refine ⟨hdisk, htype', ?_, hopen⟩
    intro r hr
    rw [(hrest r).1]
    refine ⟨(hothers r hr).1, ?_⟩
    intro type' hf'
    exact (hothers r hr).2 type' (hnot r k type' hf').2
  case dots =>
    intro k
    dsimp only
    by_cases hk : k = h.inum
    · refine .inr (.inr ⟨p, i, d', .inl ?_, ?_⟩)
      · rw [hgrip, if_pos ⟨rfl, rfl⟩]
      · rw [(hi i).2.1, hinum, hk]
    · rw [update_of_ne hk]
      rcases hI.dots k with hdone | ⟨q, type, hq⟩ | ⟨q, j, e, he, hj⟩
      · exact .inl hdone
      · have hqp : q ≠ p := by
          rintro rfl
          rcases hfresh with hfresh | ⟨type', hfresh⟩
          · rw [hfresh] at hq
            cases hq
          · rw [hfresh] at hq
            cases hq
            exact hk rfl
        exact .inr (.inl ⟨q, type, by rw [update_of_ne hqp]; exact hq⟩)
      · have hc : ¬ (q = p ∧ j = i) := by
          rintro ⟨rfl, rfl⟩
          rw [hinum] at hj
          exact hk hj.symm
        exact .inr (.inr ⟨q, j, e, (hsee q j e hc).mpr he, by rw [(hi j).2.1]; exact hj⟩)

/-- An inode is allocated. -/
theorem mark {type : ℕ} (hI : Fits s T oh) (hk : (s.disk k).type = 0) (htype : type ≠ 0) (hnone : (T p).fresh = none) :
    Fits { s with disk := update s.disk k ⟨type, 0, []⟩ } (update T p { T p with fresh := some (k, type) }) oh := by
  obtain ⟨t, ht⟩ : ∃ t, t = { T p with fresh := some (k, type) } := ⟨_, rfl⟩
  rw [← ht]
  have hrest : ∀ q, (update T p t q).refs = (T q).refs ∧ (update T p t q).files = (T q).files ∧
      (update T p t q).gone = (T q).gone ∧ (update T p t q).grips = (T q).grips := by
    intro q
    rw [ht]
    refine ⟨field_same (g := Tokens.refs) ?_ q, field_same (g := Tokens.files) ?_ q,
      field_same (g := Tokens.gone) ?_ q, field_same (g := Tokens.grips) ?_ q⟩ <;> rfl
  have hsee : ∀ q j d, (update T p t q).Sees j d ↔ (T q).Sees j d := by
    intro q j d
    simp only [Tokens.Sees, (hrest q).2.2.2]
  have hlive : ∀ h ∈ handles T oh, h.inum ≠ k := by
    rintro h hh rfl
    obtain ⟨-, hty, hne⟩ := hI.refs.handle hh
    exact hne (hty.symm.trans hk)
  have hlocked : ∀ q j d, (T q).Sees j d → (s.icache j).inum ≠ k := by
    rintro q j d hd rfl
    obtain ⟨-, hdata, hne⟩ := hI.sees hd
    rw [hdata] at hk
    exact hne hk
  constructor
  case refs =>
    rw [handles_same (T := T) (p := p) (t := t) (by rw [ht]),
      total_same (g := Tokens.gone) (T := T) (p := p) (t := t) (by rw [ht])]
    refine hI.refs.congr (fun _ => rfl) (fun _ => rfl) ?_
    intro h hh
    dsimp only
    rw [update_of_ne (hlive h hh)]
  case files =>
    rw [total_same (g := Tokens.files) (T := T) (p := p) (t := t) (by rw [ht]),
      total_same (g := Tokens.blank) (T := T) (p := p) (t := t) (by rw [ht])]
    exact hI.files
  case links =>
    rw [total_same (g := Tokens.credits) (T := T) (p := p) (t := t) (by rw [ht])]
    exact hI.links.mark hk htype
  case lock =>
    intro q j
    rw [(hrest q).2.2.2]
    exact hI.lock q j
  case backed =>
    intro q j hg
    rw [(hrest q).2.2.2] at hg
    simp only [Tokens.Has, (hrest q).1, (hrest q).2.1, (hrest q).2.2.1]
    exact hI.backed hg
  case sees =>
    intro q j d hd
    rw [hsee] at hd
    dsimp only
    rw [update_of_ne (hlocked q j d hd)]
    exact hI.sees hd
  case sole =>
    intro q j d hd
    rw [(hrest q).2.2.2] at hd
    rw [(hrest q).1]
    exact hI.sole hd
  case copy =>
    intro j hpos hv hne
    have hne : ∀ q, (T q).grips j ≠ some .erased := by
      intro q
      rw [← (hrest q).2.2.2]
      exact hne q
    have hcopy := hI.copy hpos hv hne
    have hj : (s.icache j).inum ≠ k := by
      rintro rfl
      exact hcopy.2.2 (hcopy.1.trans hk)
    dsimp only
    rw [update_of_ne hj]
    exact hcopy
  case fresh =>
    intro q k' type' hf
    have hk' : ∀ r type', (T r).fresh = some (k, type') → False := by
      intro r type' hr
      obtain ⟨hdisk, hne, -, -⟩ := hI.fresh hr
      rw [hdisk] at hk
      exact hne hk
    have hfr : ∀ r, r ≠ p → (update T p t r).fresh = (T r).fresh := by
      intro r hr
      rw [update_of_ne hr]
    by_cases hq : q = p
    · subst hq
      rw [update_self, ht] at hf
      obtain ⟨rfl, rfl⟩ := Prod.mk.inj (Option.some.inj hf)
      dsimp only
      rw [update_self]
      refine ⟨rfl, htype, ?_, fun f h hf => hlive h (mem_handles.mpr (.inr ⟨f, hf⟩))⟩
      intro r hr
      rw [(hrest r).1, hfr r hr]
      exact ⟨fun h hh => hlive h (mem_handles.mpr (.inl ⟨r, hh⟩)), fun type' hr' => hk' r type' hr'⟩
    · rw [hfr q hq] at hf
      obtain ⟨hdisk, hne, hothers, hopen⟩ := hI.fresh hf
      have hkk : k' ≠ k := by
        rintro rfl
        exact hk' q type' hf
      dsimp only
      rw [update_of_ne hkk]
      refine ⟨hdisk, hne, ?_, hopen⟩
      intro r hr
      rw [(hrest r).1]
      refine ⟨(hothers r hr).1, ?_⟩
      by_cases hrp : r = p
      · subst hrp
        rw [update_self, ht]
        intro type'' hr'
        exact hkk (Prod.mk.inj (Option.some.inj hr')).1.symm
      · rw [hfr r hrp]
        exact (hothers r hr).2
  case dots =>
    intro k'
    dsimp only
    by_cases hkk : k' = k
    · exact .inr (.inl ⟨p, type, by rw [update_self, ht, hkk]⟩)
    · rw [update_of_ne hkk]
      rcases hI.dots k' with hdone | ⟨q, type', hq⟩ | ⟨q, j, d, hd, hj⟩
      · exact .inl hdone
      · refine .inr (.inl ⟨q, type', ?_⟩)
        have hqp : q ≠ p := by
          rintro rfl
          rw [hnone] at hq
          cases hq
        rw [update_of_ne hqp]
        exact hq
      · exact .inr (.inr ⟨q, j, d, (hsee q j d).mpr hd, hj⟩)

/-- An inode without links is freed, by the only one who uses it. -/
theorem erase {R : Multiset (Handle n)} {c : Inode} (hI : Fits s T oh) (hd : (T p).grips h.slot = some (.sole d))
    (hR : (T p).refs = h ::ₘ R) (hnone : (T p).fresh = none) (href : c.ref = (s.icache h.slot).ref)
    (hinum : c.inum = (s.icache h.slot).inum) :
    Fits { s with icache := update s.icache h.slot c, disk := update s.disk h.inum ⟨0, 0, []⟩ }
      (update T p { (T p).grip h.slot (some .erased) with refs := R, gone := h.slot ::ₘ (T p).gone }) oh := by
  obtain ⟨t, ht⟩ : ∃ t, t = { (T p).grip h.slot (some .erased) with refs := R, gone := h.slot ::ₘ (T p).gone } :=
    ⟨_, rfl⟩
  rw [← ht]
  obtain ⟨hzero, hone, -⟩ := hI.sole hd
  obtain ⟨hval, hdata, -⟩ := hI.sees (.inr hd)
  have hmem : h ∈ (T p).refs := by
    rw [hR]
    exact Multiset.mem_cons_self h R
  obtain ⟨hpos, hin, -, -⟩ := hI.has (p := p) ⟨rfl, .inl hmem⟩
  rw [hin] at hdata
  have hgne : (T p).grips h.slot ≠ none := by
    rw [hd]
    exact Option.some_ne_none _
  have hH : handles T oh = h ::ₘ handles (update T p t) oh :=
    handles_uncons (T := T) (p := p) (t := t) (by rw [ht]; exact hR)
  have hrefs := hI.refs
  rw [hH] at hrefs
  have honly : ∀ x ∈ handles (update T p t) oh, x.inum ≠ h.inum := by
    intro x hx heq
    have hslot := hrefs.slot_eq (Multiset.mem_cons_of_mem hx) (Multiset.mem_cons_self h _) heq
    have hcount := hrefs.count h.slot
    have hx1 := Multiset.count_pos.mpr (Multiset.mem_map_of_mem Handle.slot hx)
    rw [hslot] at hx1
    rw [Multiset.map_cons, Multiset.count_cons_self, hone] at hcount
    omega
  have hi : ∀ j, (update s.icache h.slot c j).ref = (s.icache j).ref ∧
      (update s.icache h.slot c j).inum = (s.icache j).inum := by
    intro j
    by_cases hj : j = h.slot
    · rw [hj, update_self]
      exact ⟨href, hinum⟩
    · rw [update_of_ne hj]
      exact ⟨rfl, rfl⟩
  have hother : ∀ j, 0 < (s.icache j).ref → j ≠ h.slot → (s.icache j).inum ≠ h.inum := by
    intro j hj hjh heq
    rw [← hin] at heq
    exact hjh (hI.refs.unique hj hpos heq)
  have hold : ∀ q, q ≠ p → update T p t q = T q := fun q hq => update_of_ne hq _ _
  have hgrip : ∀ q j, (update T p t q).grips j = if q = p ∧ j = h.slot then some .erased else (T q).grips j :=
    grips_update (by rw [ht]; rfl)
  have hsee : ∀ q j e, (update T p t q).Sees j e → j ≠ h.slot ∧ (T q).Sees j e := by
    intro q j e he
    by_cases hc : q = p ∧ j = h.slot
    · simp only [Tokens.Sees, hgrip, if_pos hc] at he
      rcases he with he | he
      · cases he
      · cases he
    · simp only [Tokens.Sees, hgrip, if_neg hc] at he
      refine ⟨?_, he⟩
      rintro rfl
      exact hc ⟨hI.owner hgne (ne_of_sees he), rfl⟩
  have hfr : ∀ q, (update T p t q).fresh = (T q).fresh := field_same (by rw [ht]; rfl)
  have hsub : ∀ q, ∀ x ∈ (update T p t q).refs, x ∈ (T q).refs := by
    intro q x hx
    by_cases hq : q = p
    · subst hq
      rw [update_self, ht] at hx
      rw [hR]
      exact Multiset.mem_cons_of_mem hx
    · rwa [hold q hq] at hx
  have hkept : ∀ q j x, j ≠ h.slot → x ∈ (T q).refs → x.slot = j → x ∈ (update T p t q).refs := by
    intro q j x hj hx hslot
    by_cases hq : q = p
    · subst hq
      rw [update_self, ht]
      rw [hR] at hx
      refine (Multiset.mem_cons.mp hx).resolve_left ?_
      rintro rfl
      exact hj hslot.symm
    · rwa [hold q hq]
  constructor
  case refs =>
    rw [total_cons (g := Tokens.gone) (T := T) (p := p) (t := t) (a := h.slot) (by rw [ht])]
    have herased : Refs s.icache (fun k => (update s.disk h.inum ⟨0, 0, []⟩ k).type) (handles (update T p t) oh)
        (h.slot ::ₘ total fun q => (T q).gone) := by
      refine hrefs.erase hone ?_
      intro k hk
      rw [update_of_ne hk]
    exact herased.congr (fun j => (hi j).1) (fun j => (hi j).2) fun _ _ => rfl
  case files =>
    rw [total_same (g := Tokens.files) (T := T) (p := p) (t := t) (by rw [ht]; rfl),
      total_same (g := Tokens.blank) (T := T) (p := p) (t := t) (by rw [ht]; rfl)]
    exact hI.files
  case links =>
    rw [total_same (g := Tokens.credits) (T := T) (p := p) (t := t) (by rw [ht]; rfl)]
    refine hI.links.erase ?_
    rw [hdata]
    exact hzero
  case lock =>
    intro q j
    rw [hgrip]
    by_cases hc : q = p ∧ j = h.slot
    · rw [if_pos hc, hc.1, hc.2]
      exact ⟨fun _ => Option.some_ne_none _, fun _ => (hI.lock p h.slot).mpr hgne⟩
    · rw [if_neg hc]
      exact hI.lock q j
  case backed =>
    intro q j hg
    rw [hgrip] at hg
    by_cases hc : q = p ∧ j = h.slot
    · obtain ⟨rfl, rfl⟩ := hc
      rw [update_self, ht]
      exact .inr (Multiset.mem_cons_self _ _)
    · rw [if_neg hc] at hg
      have hj : j ≠ h.slot := by
        rintro rfl
        exact hc ⟨hI.owner hgne hg, rfl⟩
      rcases hI.backed hg with ⟨x, hslot, hx⟩ | hgone
      · refine .inl ⟨x, hslot, ?_⟩
        rcases hx with hx | hx
        · exact .inl (hkept q j x hj hx hslot)
        · right
          by_cases hq : q = p
          · subst hq
            rw [update_self, ht]
            exact hx
          · rwa [hold q hq]
      · right
        by_cases hq : q = p
        · subst hq
          rw [update_self, ht]
          exact Multiset.mem_cons_of_mem hgone
        · rwa [hold q hq]
  case sees =>
    intro q j e he
    obtain ⟨hj, he⟩ := hsee q j e he
    dsimp only
    rw [update_of_ne hj, update_of_ne (hother j (hI.pos (ne_of_sees he)) hj)]
    exact hI.sees he
  case sole =>
    intro q j e he
    have hne : ¬ (q = p ∧ j = h.slot) := by
      intro hc
      rw [hgrip, if_pos hc] at he
      cases he
    rw [hgrip, if_neg hne] at he
    have hj : j ≠ h.slot := by
      rintro rfl
      exact hne ⟨hI.owner hgne (ne_of_sees (.inr he)), rfl⟩
    obtain ⟨hz, ho, x, hx, hslot⟩ := hI.sole he
    dsimp only
    rw [(hi j).1]
    exact ⟨hz, ho, x, hkept q j x hj hx hslot, hslot⟩
  case copy =>
    intro j hpos' hv hne
    have hj : j ≠ h.slot := by
      rintro rfl
      refine hne p ?_
      rw [hgrip, if_pos ⟨rfl, rfl⟩]
    dsimp only at hpos' hv ⊢
    rw [update_of_ne hj] at hpos' hv ⊢
    rw [update_of_ne (hother j hpos' hj)]
    refine hI.copy hpos' hv ?_
    intro q
    have := hne q
    rwa [hgrip, if_neg fun hc => hj hc.2] at this
  case fresh =>
    intro q k type hf
    rw [hfr] at hf
    obtain ⟨hdisk, htype, hothers, hopen⟩ := hI.fresh hf
    have hk : k ≠ h.inum := by
      rintro rfl
      have hqp := hI.not_fresh (p := p) ⟨rfl, .inl hmem⟩ hf
      rw [hqp, hnone] at hf
      cases hf
    dsimp only
    rw [update_of_ne hk]
    refine ⟨hdisk, htype, ?_, hopen⟩
    intro r hr
    rw [hfr]
    exact ⟨fun x hx => (hothers r hr).1 x (hsub r x hx), (hothers r hr).2⟩
  case dots =>
    intro k
    dsimp only
    by_cases hk : k = h.inum
    · left
      rw [hk, update_self]
      intro hc
      cases hc
    · rw [update_of_ne hk]
      rcases hI.dots k with hdone | ⟨q, type, hq⟩ | ⟨q, j, e, he, hj⟩
      · exact .inl hdone
      · exact .inr (.inl ⟨q, type, by rw [hfr]; exact hq⟩)
      · have hjh : j ≠ h.slot := by
          rintro rfl
          rw [hin] at hj
          exact hk hj.symm
        refine .inr (.inr ⟨q, j, e, ?_, by rw [(hi j).2]; exact hj⟩)
        simp only [Tokens.Sees, hgrip, if_neg fun hc : q = p ∧ j = h.slot => hjh hc.2]
        exact he

/-! ### Open files -/

/-- The shares of files and the handles change hands. -/
theorem refile {ft : Fin m → File n} {oh' : Fin m → Option (Handle n)} (hI : Fits s T oh)
    (hgone : t.gone = (T p).gone) (hcred : t.credits = (T p).credits) (hgrips : t.grips = (T p).grips)
    (hfr : t.fresh = (T p).fresh)
    (hfiles : Files ft (total fun q => (update T p t q).files) (total fun q => (update T p t q).blank) oh')
    (hhandles : handles (update T p t) oh' = handles T oh)
    (hback : ∀ j h, (T p).grips j ≠ none → (T p).Has j h → ∃ h, t.Has j h)
    (hsole : ∀ j d, (T p).grips j = some (.sole d) → ∃ h ∈ t.refs, h.slot = j)
    (hrefs : ∀ h ∈ t.refs, h ∈ (T p).refs ∨ ∃ f, oh f = some h)
    (hopen : ∀ f h, oh' f = some h → (∃ g, oh g = some h) ∨ h ∈ (T p).refs ∧ (T p).fresh = none) :
    Fits { s with ftable := ft } (update T p t) oh' := by
  have hrest : ∀ q, (update T p t q).gone = (T q).gone ∧ (update T p t q).credits = (T q).credits ∧
      (update T p t q).grips = (T q).grips ∧ (update T p t q).fresh = (T q).fresh :=
    fun q => ⟨field_same hgone q, field_same hcred q, field_same hgrips q, field_same hfr q⟩
  have hsee : ∀ q j d, (update T p t q).Sees j d ↔ (T q).Sees j d := by
    intro q j d
    simp only [Tokens.Sees, (hrest q).2.2.1]
  constructor
  case refs =>
    rw [hhandles, total_same (g := Tokens.gone) (T := T) (p := p) (t := t) hgone]
    exact hI.refs
  case files => exact hfiles
  case links =>
    rw [total_same (g := Tokens.credits) (T := T) (p := p) (t := t) hcred]
    exact hI.links
  case lock =>
    intro q j
    rw [(hrest q).2.2.1]
    exact hI.lock q j
  case backed =>
    intro q j hg
    rw [(hrest q).2.2.1] at hg
    rw [(hrest q).1]
    refine (hI.backed hg).imp ?_ id
    rintro ⟨h, hh⟩
    by_cases hq : q = p
    · subst hq
      rw [update_self]
      exact hback j h hg hh
    · rw [update_of_ne hq]
      exact ⟨h, hh⟩
  case sees => exact fun hd => hI.sees ((hsee _ _ _).mp hd)
  case sole =>
    intro q j d hd
    rw [(hrest q).2.2.1] at hd
    obtain ⟨hzero, hone, hmem⟩ := hI.sole hd
    refine ⟨hzero, hone, ?_⟩
    by_cases hq : q = p
    · subst hq
      rw [update_self]
      exact hsole j d hd
    · rw [update_of_ne hq]
      exact hmem
  case copy =>
    intro j hpos hv hne
    refine hI.copy hpos hv ?_
    intro q
    rw [← (hrest q).2.2.1]
    exact hne q
  case fresh =>
    intro q k type hf
    rw [(hrest q).2.2.2] at hf
    obtain ⟨hdisk, htype, hothers, hopen'⟩ := hI.fresh hf
    refine ⟨hdisk, htype, ?_, ?_⟩
    · intro r hr
      rw [(hrest r).2.2.2]
      refine ⟨?_, (hothers r hr).2⟩
      intro h hh
      by_cases hrp : r = p
      · subst hrp
        rw [update_self] at hh
        rcases hrefs h hh with hh | ⟨f, hf⟩
        · exact (hothers r hr).1 h hh
        · exact hopen' f h hf
      · rw [update_of_ne hrp] at hh
        exact (hothers r hr).1 h hh
    · intro f h hf'
      rcases hopen f h hf' with ⟨g, hg⟩ | ⟨hmem, hnone⟩
      · exact hopen' g h hg
      · have hqp : p ≠ q := by
          rintro rfl
          rw [hnone] at hf
          cases hf
        exact (hothers p hqp).1 h hmem
  case dots =>
    intro k
    rcases hI.dots k with hdone | ⟨q, type, hq⟩ | ⟨q, j, d, hd, hj⟩
    · exact .inl hdone
    · exact .inr (.inl ⟨q, type, by rw [(hrest q).2.2.2]; exact hq⟩)
    · exact .inr (.inr ⟨q, j, d, (hsee q j d).mpr hd, hj⟩)

end Fits

end SdeSystems.Inodes
