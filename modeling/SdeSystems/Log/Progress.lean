import SdeSystems.Log.Runs

/-!
# Nobody sleeps in vain

Who sleeps in `begin_op` could not be let in: what makes room, the end of an operation and the end of a commit,
wakes everybody. So where somebody sleeps there is an operation in progress, or a commit. A commit comes to its
end once the readers have given up the blocks it wants, and then nobody sleeps.
-/

namespace SdeSystems.Log

open Function Lib

variable {n : ℕ} {start size m : ℕ} {s s' : State n} {e : Option (LogEvent n)} {p : Fin n} {k : ℕ} {l : List ℕ}

/-! ### Sleepers -/

/-- **The invariant of the sleepers.** -/
structure WakeInv (s : State n) : Prop where
  /-- Who sleeps would have to wait. -/
  asleep : ∀ p, s.proc p = .asleep → s.mustWait
  /-- There are no processes while the machine boots. -/
  booting : s.up = false → ∀ p, s.proc p = .out
  /-- Somebody commits while there is a commit. -/
  committer : s.up = true → s.phase ≠ .idle → ∃ p, s.proc p = .committing

theorem wakeInv_boot (disk : ℕ → Bytes) : WakeInv (boot n disk) :=
  ⟨fun p h => by simp [boot] at h, fun _ _ => rfl, fun h => by simp [boot] at h⟩

theorem wake_ne_asleep (pc : Pc) : pc.wake ≠ .asleep := by cases pc <;> simp [Pc.wake]

/-- Nobody sleeps after `wakeup(&log)`. -/
theorem update_wakeup_ne_asleep {proc : Fin n → Pc} {pc : Pc} (h : pc ≠ .asleep) (q : Fin n) :
    update (wakeup proc) p pc q ≠ .asleep := by
  by_cases hqp : q = p
  · rwa [hqp, update_self]
  · rw [update_of_ne hqp]
    exact wake_ne_asleep _

/-- Less room lets nobody in. -/
theorem State.mustWait.mono (h : s.mustWait) (hc : s.committing = true → s'.committing = true)
    (ho : s.outstanding ≤ s'.outstanding) (hl : s.lh.length ≤ s'.lh.length) : s'.mustWait := by
  rcases h with h | h
  · exact .inl (hc h)
  · right
    simp only [maxOpBlocks] at h ⊢
    omega

/-- A process that is up moves on, the others sleep on. -/
theorem WakeInv.move (hs : WakeInv s) (hup : s'.up = true) (hupₛ : s.up = true) {pc : Pc}
    (hproc : s'.proc = update s.proc p pc) (hpc : pc = .asleep → s'.mustWait) (hc : s.proc p ≠ .committing)
    (hph : s'.phase = s.phase) (hw : s.mustWait → s'.mustWait) : WakeInv s' where
  asleep := by
    intro q hq
    rw [hproc] at hq
    by_cases hqp : q = p
    · rw [hqp, update_self] at hq
      exact hpc hq
    · rw [update_of_ne hqp] at hq
      exact hw (hs.asleep q hq)
  booting := by simp [hup]
  committer := by
    intro _ hne
    rw [hph] at hne
    obtain ⟨q, hq⟩ := hs.committer hupₛ hne
    refine ⟨q, ?_⟩
    have hqp : q ≠ p := by
      rintro rfl
      exact hc hq
    rwa [hproc, update_of_ne hqp]

/-- The processes stay. -/
theorem WakeInv.stay (hs : WakeInv s) (hproc : s'.proc = s.proc) (hup : s'.up = s.up)
    (hph : s'.phase ≠ .idle → s.phase ≠ .idle) (hw : s.mustWait → s'.mustWait) : WakeInv s' where
  asleep := by
    intro q hq
    rw [hproc] at hq
    exact hw (hs.asleep q hq)
  booting := by
    rw [hup, hproc]
    exact hs.booting
  committer := by
    rw [hup, hproc]
    exact fun hu hne => hs.committer hu (hph hne)

theorem ProcStep.wake (h : ProcStep start size m p s e s') (hup : s.up = true) (hs : WakeInv s) : WakeInv s' := by
  cases h with
  | call hpc => exact hs.move hup hup rfl (by simp) (by simp [hpc]) rfl id
  | wait hpc hw => exact hs.move hup hup rfl (fun _ => hw) (by simp [hpc]) rfl id
  | spurious hpc => exact hs.move hup hup rfl (by simp) (by simp [hpc]) rfl id
  | enter hpc hw =>
    exact hs.move hup hup rfl (by simp) (by simp [hpc]) rfl fun h => h.mono id (by simp) le_rfl
  | @logWrite b l u hpc hb hm hu =>
    have hgrow : s.lh.length ≤ (logBlock s.lh b).length := by
      rw [logBlock_eq]
      split <;> simp
    exact hs.move hup hup rfl (by simp) (by simp [hpc]) rfl fun h => h.mono id le_rfl hgrow
  | leave hpc hb hc ho =>
    refine ⟨fun q hq => absurd hq (update_wakeup_ne_asleep (by simp) q), by simp [hup], ?_⟩
    intro _ hne
    obtain ⟨q, hq⟩ := hs.committer hup hne
    have hqp : q ≠ p := by
      rintro rfl
      rw [hpc] at hq
      cases hq
    refine ⟨q, ?_⟩
    dsimp only
    rw [update_of_ne hqp, wakeup, hq]
    rfl
  | last hpc hb hc ho =>
    refine ⟨fun _ _ => .inl rfl, by simp [hup], fun _ _ => ⟨p, ?_⟩⟩
    dsimp only
    rw [update_self]
  | finish hpc hph =>
    refine ⟨fun q hq => absurd hq (update_wakeup_ne_asleep (by simp) q), by simp [hup], ?_⟩
    intro _ hne
    exact absurd rfl hne
  | bread | modify | check | tooBig | outside | brelse | panic => exact hs.stay rfl rfl id id

/-- There is a commit, or the machine boots, in a step to the disk. -/
theorem DiskStep.phase_ne_idle (h : DiskStep start s e s') : s.phase ≠ .idle := by cases h <;> simp [*]

theorem DiskStep.proc_eq (h : DiskStep start s e s') : s'.proc = s.proc ∧ s'.committing = s.committing := by
  cases h <;> exact ⟨rfl, rfl⟩

theorem DiskStep.wake (h : DiskStep start s e s') (hsp : SpaceInv m s) (hs : WakeInv s) : WakeInv s' := by
  have hne := h.phase_ne_idle
  obtain ⟨hproc, hc⟩ := h.proc_eq
  cases hup : s.up with
  | true =>
    have hcm := hsp.committing.2 ⟨hup, hne⟩
    obtain ⟨q, hq⟩ := hs.committer hup hne
    refine ⟨fun _ _ => .inl (hc.trans hcm), ?_, fun _ _ => ⟨q, hproc ▸ hq⟩⟩
    intro hup'
    have : s'.up = true := by cases h <;> first | exact hup | rfl
    simp [this] at hup'
  | false =>
    have hout := hs.booting hup
    refine ⟨fun p hp => ?_, fun _ => by rwa [hproc], ?_⟩
    · rw [hproc, hout p] at hp
      cases hp
    · intro hup' hne'
      cases h with
      | erase hph =>
        exact absurd (by dsimp only; rw [hup]; rfl) hne'
      | commitEmpty | commit | writeLog | written | writeHead | install | installed | readHead =>
        exact absurd (hup.symm.trans hup') (by simp)

theorem Step.wake (h : Step start size m s e s') (hsp : SpaceInv m s) (hs : WakeInv s) : WakeInv s' := by
  cases h with
  | proc p hup _ h => exact h.wake hup hs
  | disk _ h => exact h.wake hsp hs
  | evict => exact hs.stay rfl rfl id id
  | crash => exact wakeInv_boot _

theorem Runs.invs {disk : ℕ → Bytes} {es : List (LogEvent n)} (h : Runs start size m disk es s) : SpaceInv m s ∧ WakeInv s :=
  Shows.inv (I := fun s => SpaceInv m s ∧ WakeInv s) (fun _ _ _ h hx => ⟨h.space hx.1, h.wake hx.1 hx.2⟩) h
    ⟨spaceInv_boot disk, wakeInv_boot disk⟩

/-- **Nobody sleeps in vain**: who sleeps could not be let in, and somebody is at work who will wake them. -/
theorem Runs.sleeper {disk : ℕ → Bytes} {es : List (LogEvent n)} (h : Runs start size m disk es s) (hp : s.proc p = .asleep) :
    s.mustWait ∧ ∃ q, s.proc q = .committing ∨ ∃ l, s.proc q = .inside l := by
  obtain ⟨hsp, hs⟩ := h.invs
  refine ⟨hs.asleep p hp, ?_⟩
  have hup : s.up = true := by
    by_contra hup
    have := hs.booting (by simpa using hup) p
    rw [hp] at this
    cases this
  by_cases hidle : s.phase = .idle
  · have hops : ops s.proc ≠ 0 := by
      intro h₀
      have hlh := hsp.empty hidle h₀
      have ho := hsp.outstanding
      have hc : ¬ s.committing = true := by
        rw [hsp.committing]
        exact fun hc => hc.2 hidle
      rcases hs.asleep p hp with hw | hw
      · exact hc hw
      · rw [ho, h₀, hlh] at hw
        simp [logSize, maxOpBlocks] at hw
    obtain ⟨q, -, hq⟩ := Finset.exists_ne_zero_of_sum_ne_zero hops
    refine ⟨q, .inr ?_⟩
    cases hpc : s.proc q with
    | inside l => exact ⟨l, rfl⟩
    | out | begin | asleep | committing => simp [hpc, Pc.count] at hq
  · obtain ⟨q, hq⟩ := hs.committer hup hidle
    exact ⟨q, .inl hq⟩

/-- A process that calls `begin_op` while another commits. -/
theorem sleeper_beside_commit : ∃ s : State 2, s.proc 1 = .asleep ∧ s.mustWait ∧
    ∃ q, s.proc q = .committing ∨ ∃ l, s.proc q = .inside l := by
  obtain ⟨es, s, h, hp, -⟩ := sleeps 2 30 9 (fun _ _ => 0)
    (show (0 : Fin 2) ≠ 1 by decide)
  exact ⟨s, hp, Runs.sleeper h hp⟩

/-! ### Dirty buffers -/

/-- The blocks that are logged and not yet at home. -/
def State.pinned (s : State n) : List ℕ :=
  match s.phase with
  | .install k => s.lh.drop k
  | .erase | .finish | .readHead => []
  | _ => s.lh

/-- **The invariant of the dirty buffers**: they are those of such blocks. -/
def DirtyInv (s : State n) : Prop := ∀ b u, s.cache b = some u → u.dirty = true → b ∈ s.pinned

theorem pinned_subset {b : ℕ} (h : b ∈ s.pinned) : b ∈ s.lh := by
  unfold State.pinned at h
  split at h
  · exact List.mem_of_mem_drop h
  · cases h
  · cases h
  · cases h
  · exact h

/-- `bread` makes no buffer dirty. -/
theorem dirty_cached {b c : ℕ} {u : Buf} (h : s.cached b c = some u) (hd : u.dirty = true) : s.cache c = some u := by
  by_cases hc : c = b
  · subst hc
    rw [cached_self] at h
    cases hu : s.cache c with
    | none =>
      rw [hu] at h
      cases h
      cases hd
    | some v =>
      rw [hu] at h
      exact h
  · rwa [cached_of_ne hc] at h

/-- A buffer that has been written to the disk is not dirty. -/
theorem dirty_written {cache : ℕ → Option Buf} {b c : ℕ} {u : Buf} {v : Bytes}
    (h : update cache b (some ⟨v, false⟩) c = some u) (hd : u.dirty = true) : c ≠ b ∧ cache c = some u := by
  by_cases hc : c = b
  · rw [hc, update_self] at h
    cases h
    cases hd
  · exact ⟨hc, by rwa [update_of_ne hc] at h⟩

theorem ProcStep.dirty (h : ProcStep start size m p s e s') (hsp : SpaceInv m s) (hs : DirtyInv s) : DirtyInv s' := by
  cases h with
  | call | wait | spurious | enter | check | tooBig | outside | brelse | panic | leave => exact fun b u => hs b u
  | last hpc =>
    intro b u hu hd
    have hb := hs b u hu hd
    rw [State.pinned, (hsp.inside hpc).2.1] at hb
    exact hb
  | finish hpc hph =>
    intro b u hu hd
    have hb := hs b u hu hd
    rw [State.pinned, hph] at hb
    cases hb
  | bread b => exact fun c u hu hd => hs c u (dirty_cached hu hd) hd
  | @modify b v l h u hpc hb hu =>
    intro c w hw hd
    by_cases hc : c = b
    · subst hc
      dsimp only at hw
      rw [update_self] at hw
      obtain rfl := Option.some.inj hw
      exact hs c u hu hd
    · exact hs c w (by simpa [hc] using hw) hd
  | @logWrite b l u hpc =>
    intro c w hw hd
    have hidle := (hsp.inside hpc).2.1
    rw [State.pinned]
    dsimp only
    rw [hidle]
    apply mem_logBlock.2
    by_cases hc : c = b
    · exact .inr hc
    · have hin := hs c w (by simpa [hc] using hw) hd
      rw [State.pinned, hidle] at hin
      exact .inl hin

theorem DiskStep.dirty (h : DiskStep start s e s') (hs : DirtyInv s) : DirtyInv s' := by
  cases h with
  | commitEmpty hph hn =>
    intro b u hu hd
    have hb := hs b u hu hd
    rw [State.pinned, hph, List.length_eq_zero_iff.1 (by omega : s.lh.length = 0)] at hb
    cases hb
  | commit hph | written hph =>
    intro b u hu hd
    have hb := hs b u hu hd
    rw [State.pinned, hph] at hb
    exact hb
  | writeLog hph =>
    intro b u hu hd
    have hold := dirty_cached (dirty_written hu hd).2 hd
    have hb := hs b u hold hd
    rw [State.pinned, hph] at hb
    exact hb
  | writeHead hph =>
    intro b u hu hd
    have hb := hs b u (dirty_written hu hd).2 hd
    rw [State.pinned, hph] at hb
    exact hb
  | @install tail b hph hlh =>
    intro c u hu hd
    obtain ⟨hne, hold⟩ := dirty_written hu hd
    have hc := hs c u (dirty_cached hold hd) hd
    obtain ⟨hlt, hget⟩ := List.getElem?_eq_some_iff.1 hlh
    rw [State.pinned, hph] at hc
    dsimp only at hc
    rw [List.drop_eq_getElem_cons hlt, hget, List.mem_cons] at hc
    exact hc.resolve_left hne
  | installed hph hn =>
    intro b u hu hd
    have hb := hs b u hu hd
    rw [State.pinned, hph] at hb
    dsimp only at hb
    rw [List.drop_eq_nil_of_le (by omega)] at hb
    cases hb
  | erase hph =>
    intro b u hu hd
    have hb := hs b u (dirty_written hu hd).2 hd
    rw [State.pinned, hph] at hb
    cases hb
  | readHead hph =>
    intro b u hu hd
    have hb := hs b u (dirty_cached hu hd) hd
    rw [State.pinned, hph] at hb
    cases hb

theorem Step.dirty (h : Step start size m s e s') (hsp : SpaceInv m s) (hs : DirtyInv s) : DirtyInv s' := by
  cases h with
  | proc p _ _ h => exact h.dirty hsp hs
  | disk _ h => exact h.dirty hs
  | @evict b =>
    intro c u hu hd
    by_cases hc : c = b
    · simp [hc] at hu
    · exact hs c u (by simpa [hc] using hu) hd
  | crash =>
    intro b u hu
    cases hu

theorem Runs.dirty {disk : ℕ → Bytes} {es : List (LogEvent n)} (h : Runs start size m disk es s) :
    SpaceInv m s ∧ DirtyInv s :=
  Shows.inv (I := fun s => SpaceInv m s ∧ DirtyInv s) (fun _ _ _ h hx => ⟨h.space hx.1, h.dirty hx.1 hx.2⟩) h
    ⟨spaceInv_boot disk, fun b u hu => by cases hu⟩

/-! ### The commit comes to its end -/

/-- `NBUF`. -/
def nbuf : ℕ := 30

/-- There are buffers for the blocks in the cache. -/
def State.Fits (s : State n) : Prop := ∃ l : List ℕ, l.length ≤ nbuf ∧ ∀ b, s.cache b ≠ none → b ∈ l

/-- A step for which `bget` has the buffers. -/
def BufStep (start size m : ℕ) (s : State n) (e : Option (LogEvent n)) (s' : State n) : Prop :=
  Step start size m s e s' ∧ s'.Fits

/-- What the commit of `p` needs to go on. -/
structure Busy (m : ℕ) (p : Fin n) (s : State n) : Prop where
  /-- The machine is up. -/
  up : s.up = true
  /-- It has not panicked. -/
  panicked : s.panicked = none
  /-- It commits. -/
  committer : s.proc p = .committing
  /-- There is no operation. -/
  outstanding : s.outstanding = 0
  /-- Nobody has a buffer. -/
  free : ∀ b, s.holder b = none
  /-- There is a buffer more than blocks to commit. -/
  room : s.lh.length < nbuf
  /-- There are buffers for the cache. -/
  fits : s.Fits
  /-- The dirty buffers. -/
  dirty : DirtyInv s

variable (start size m)

/-- A step to the disk, from a state in which only the blocks to commit are in the cache. -/
theorem Busy.disk {c : ℕ} (hs : Busy m p s) (hcache : ∀ b, s.cache b ≠ none → b ∈ s.lh) (h : DiskStep start s e s')
    (hlh : s'.lh = s.lh) (hgrow : ∀ b, s'.cache b ≠ none → s.cache b ≠ none ∨ b ∈ s.lh ∨ b = c) :
    BufStep start size m s e s' ∧ Busy m p s' := by
  have hfits : s'.Fits := by
    refine ⟨c :: s.lh, hs.room, fun b hb => ?_⟩
    rcases hgrow b hb with hb | hb | rfl
    · exact List.mem_cons_of_mem _ (hcache b hb)
    · exact List.mem_cons_of_mem _ hb
    · exact List.mem_cons_self
  have hsame : s'.holder = s.holder ∧ s'.outstanding = s.outstanding ∧ s'.panicked = s.panicked ∧
      (s.up = true → s'.up = true) := by
    cases h with
    | erase => exact ⟨rfl, rfl, rfl, fun _ => rfl⟩
    | commitEmpty | commit | writeLog | written | writeHead | install | installed | readHead =>
      exact ⟨rfl, rfl, rfl, id⟩
  obtain ⟨hhold, ho, hok, hup⟩ := hsame
  refine ⟨⟨.disk hs.panicked h, hfits⟩, hup hs.up, hok.trans hs.panicked, ?_, ho.trans hs.outstanding, ?_, ?_, hfits,
    h.dirty hs.dirty⟩
  · rw [h.proc_eq.1]
    exact hs.committer
  · rw [hhold]
    exact hs.free
  · rw [hlh]
    exact hs.room

/-- `bget` can recycle the buffers of all other blocks. -/
theorem Busy.rinse (hs : Busy m p s) : ∃ s', Shows (BufStep start size m) s [] s' ∧ Busy m p s' ∧ s'.lh = s.lh ∧
    s'.phase = s.phase ∧ ∀ b, s'.cache b ≠ none → b ∈ s'.lh := by
  obtain ⟨l, -, hl⟩ := hs.fits
  replace hl : ∀ b, s.cache b ≠ none → b ∈ l ∨ b ∈ s.lh := fun b hb => .inl (hl b hb)
  induction l generalizing s with
  | nil => exact ⟨s, .refl s, hs, rfl, rfl, fun b hb => (hl b hb).resolve_left List.not_mem_nil⟩
  | cons a l ih =>
    by_cases ha : s.cache a = none ∨ a ∈ s.lh
    · refine ih hs fun b hb => ?_
      rcases hl b hb with hin | hin
      · rcases List.mem_cons.1 hin with rfl | hin
        · exact ha.elim (fun hnone => absurd hnone hb) .inr
        · exact .inl hin
      · exact .inr hin
    · obtain ⟨hsome, hnot⟩ := not_or.1 ha
      obtain ⟨u, hu⟩ := Option.ne_none_iff_exists'.1 hsome
      have hclean : u.dirty = false := by
        rw [← Bool.not_eq_true]
        exact fun hd => hnot (pinned_subset (hs.dirty a u hu hd))
      have hstep : Step start size m s none { s with cache := update s.cache a none } := .evict a hu hclean (hs.free a)
      have hless : ∀ b, update s.cache a none b ≠ none → b ≠ a ∧ s.cache b ≠ none := by
        intro b hb
        by_cases hba : b = a
        · simp [hba] at hb
        · exact ⟨hba, by simpa [hba] using hb⟩
      have hfits : State.Fits { s with cache := update s.cache a none } := by
        obtain ⟨k, hk, hin⟩ := hs.fits
        exact ⟨k, hk, fun b hb => hin b (hless b hb).2⟩
      have hbusy : Busy m p { s with cache := update s.cache a none } := by
        refine ⟨hs.up, hs.panicked, hs.committer, hs.outstanding, hs.free, hs.room, hfits, ?_⟩
        intro b v hv hd
        have hv' : update s.cache a none b = some v := hv
        obtain ⟨hba, -⟩ := hless b (by rw [hv']; simp)
        rw [update_of_ne hba] at hv'
        exact hs.dirty b v hv' hd
      obtain ⟨s', hrun, hs'⟩ := ih hbusy fun b hb => by
        obtain ⟨hba, hb⟩ := hless b hb
        exact (hl b hb).imp_left fun hin => (List.mem_cons.1 hin).resolve_left hba
      exact ⟨s', by simpa using ((Shows.refl s).silent ⟨hstep, hfits⟩).trans hrun, hs'⟩

/-- The cache after a block has been copied. -/
theorem copyBlock_cache {src dst b : ℕ} (h : (s.copyBlock src dst).cache b ≠ none) :
    s.cache b ≠ none ∨ b = src ∨ b = dst := by
  by_cases hdst : b = dst
  · exact .inr (.inr hdst)
  · by_cases hsrc : b = src
    · exact .inr (.inl hsrc)
    · left
      rw [State.copyBlock] at h
      dsimp only at h
      rwa [update_of_ne hdst, cached_of_ne hsrc] at h

/-- A loop over the blocks to commit ends. -/
theorem Busy.loop {P : ℕ → Phase} {Q : Phase}
    (hbody : ∀ (s : State n) k b, s.phase = P k → s.lh[k]? = some b → s.holder b = none →
      ∃ s' c, DiskStep start s none s' ∧ s'.lh = s.lh ∧ s'.phase = P (k + 1) ∧
        ∀ x, s'.cache x ≠ none → s.cache x ≠ none ∨ x = b ∨ x = c)
    (hend : ∀ (s : State n) k, s.phase = P k → ¬ k < s.lh.length →
      ∃ s', DiskStep start s none s' ∧ s'.lh = s.lh ∧ s'.phase = Q ∧ s'.cache = s.cache)
    (hs : Busy m p s) (hph : s.phase = P k) :
    ∃ s', Shows (BufStep start size m) s [] s' ∧ Busy m p s' ∧ s'.phase = Q := by
  induction hd : s.lh.length - k generalizing s k with
  | zero =>
    obtain ⟨s₁, hrun, hs₁, hlh₁, hph₁, hcache⟩ := hs.rinse start size m
    obtain ⟨s', h, hlh, hq, hsame⟩ := hend s₁ k (hph₁.trans hph) (by rw [hlh₁]; omega)
    obtain ⟨hstep, hs'⟩ := hs₁.disk start size m (c := 0) hcache h hlh fun b hb => .inl (hsame ▸ hb)
    exact ⟨s', hrun.silent hstep, hs', hq⟩
  | succ d ih =>
    obtain ⟨s₁, hrun, hs₁, hlh₁, hph₁, hcache⟩ := hs.rinse start size m
    have hk : k < s₁.lh.length := by
      rw [hlh₁]
      omega
    have hb := List.getElem?_eq_getElem hk
    obtain ⟨s₂, c, h, hlh, hp, hgrow⟩ := hbody s₁ k _ (hph₁.trans hph) hb (hs₁.free _)
    obtain ⟨hstep, hs₂⟩ := hs₁.disk start size m (c := c) hcache h hlh fun b hb => by
      rcases hgrow b hb with hb | rfl | hb
      · exact .inl hb
      · exact .inr (.inl (List.getElem_mem hk))
      · exact .inr (.inr hb)
    obtain ⟨s', hrest, hs', hq⟩ := ih hs₂ hp (by rw [hlh, hlh₁]; omega)
    exact ⟨s', by simpa using (hrun.silent hstep).trans hrest, hs', hq⟩

/-- The end of the commit of `p`: it returns. -/
def Ended (p : Fin n) (s : State n) : Prop := Rested s ∧ s.proc p = .out

theorem Busy.finish (hs : Busy m p s) (hph : s.phase = .finish) (hlh : s.lh = []) :
    ∃ s', Shows (BufStep start size m) s [] s' ∧ Ended p s' := by
  have h : Step start size m s none _ := .proc p hs.up hs.panicked (.finish hs.committer hph)
  refine ⟨_, (Shows.refl s).silent ⟨h, hs.fits⟩, ⟨hs.up, hs.panicked, rfl, rfl, hs.outstanding, hlh, ?_⟩, ?_⟩
  · exact update_wakeup_ne_asleep (by simp)
  · exact update_self _ _ _

theorem Busy.erase (hs : Busy m p s) (hph : s.phase = .erase) :
    ∃ s', Shows (BufStep start size m) s [] s' ∧ Ended p s' := by
  obtain ⟨s₁, hrun, hs₁, -, hph₁, hcache⟩ := hs.rinse start size m
  have h := @DiskStep.erase n start _ (hph₁.trans hph)
  have hfits : State.Fits { s₁.bwrite start (Log.writeHead (s₁.contents start) []) with
      lh := [], up := true, phase := if s₁.up then .finish else .idle } := by
    refine ⟨start :: s₁.lh, hs₁.room, fun b hb => ?_⟩
    by_cases hbs : b = start
    · exact hbs ▸ List.mem_cons_self
    · exact List.mem_cons_of_mem _ (hcache b (by simpa [State.bwrite, hbs] using hb))
  have hbusy : Busy m p { s₁.bwrite start (Log.writeHead (s₁.contents start) []) with
      lh := [], up := true, phase := if s₁.up then .finish else .idle } :=
    ⟨rfl, hs₁.panicked, hs₁.committer, hs₁.outstanding, hs₁.free, lt_of_le_of_lt (Nat.zero_le _) hs₁.room,
      hfits, h.dirty hs₁.dirty⟩
  obtain ⟨s', hrest, hs'⟩ := hbusy.finish start size m (if_pos hs₁.up) rfl
  exact ⟨s', by simpa using (hrun.silent ⟨.disk hs₁.panicked h, hfits⟩).trans hrest, hs'⟩

theorem Busy.install (hs : Busy m p s) (hph : s.phase = .install k) :
    ∃ s', Shows (BufStep start size m) s [] s' ∧ Ended p s' := by
  obtain ⟨s₁, hrun, hs₁, hph₁⟩ := hs.loop start size m (P := .install) (Q := .erase)
    (fun s k b hph hb hfree => ⟨_, start + k + 1, .install hph hb hfree, rfl, rfl, fun x hx =>
      (copyBlock_cache hx).imp_right Or.symm⟩)
    (fun s k hph hk => ⟨_, .installed hph hk, rfl, rfl, rfl⟩) hph
  obtain ⟨s₂, hrest, hs₂⟩ := hs₁.erase start size m hph₁
  exact ⟨s₂, by simpa using hrun.trans hrest, hs₂⟩

theorem Busy.writeHead (hs : Busy m p s) (hph : s.phase = .writeHead) :
    ∃ s', Shows (BufStep start size m) s [.commit] s' ∧ Ended p s' := by
  obtain ⟨s₁, hrun, hs₁, -, hph₁, hcache⟩ := hs.rinse start size m
  have h := @DiskStep.writeHead n start _ (hph₁.trans hph)
  obtain ⟨hstep, hs₂⟩ := hs₁.disk start size m (c := start) hcache h rfl fun b hb => by
    by_cases hbs : b = start
    · exact .inr (.inr hbs)
    · exact .inl (by simpa [State.bwrite, hbs] using hb)
  obtain ⟨s', hrest, hs'⟩ := hs₂.install start size m rfl
  exact ⟨s', by simpa using (hrun.event hstep).trans hrest, hs'⟩

theorem Busy.writeLog (hs : Busy m p s) (hph : s.phase = .writeLog k) :
    ∃ s', Shows (BufStep start size m) s [.commit] s' ∧ Ended p s' := by
  obtain ⟨s₁, hrun, hs₁, hph₁⟩ := hs.loop start size m (P := .writeLog) (Q := .writeHead)
    (fun s k b hph hb hfree => ⟨_, start + k + 1, .writeLog hph hb hfree, rfl, rfl, fun x hx => copyBlock_cache hx⟩)
    (fun s k hph hk => ⟨_, .written hph hk, rfl, rfl, rfl⟩) hph
  obtain ⟨s₂, hrest, hs₂⟩ := hs₁.writeHead start size m hph₁
  exact ⟨s₂, by simpa using hrun.trans hrest, hs₂⟩

variable {start size m}

/-- **A commit ends**: with a buffer more than there are blocks to commit, and all of them free, the process that
commits returns, without a power failure and without another commit, and everybody who slept is awake and can be let
in. -/
theorem Runs.commit_ends {disk : ℕ → Bytes} {es : List (LogEvent n)} (h : Runs start size m disk es s)
    (hc : s.committing = true) (hok : s.panicked = none) (hfits : s.Fits) (hfree : ∀ b, s.holder b = none)
    (hroom : s.lh.length < nbuf) :
    ∃ p, s.proc p = .committing ∧ ∃ es' s', (es' = [] ∨ es' = [.commit]) ∧ Shows (BufStep start size m) s es' s' ∧
      s'.proc p = .out ∧ s'.committing = false ∧ (∀ q, s'.proc q ≠ .asleep) ∧ ¬ s'.mustWait := by
  obtain ⟨hsp, hw⟩ := h.invs
  obtain ⟨hup, hidle⟩ := hsp.committing.1 hc
  obtain ⟨p, hp⟩ := hw.committer hup hidle
  have ho : s.outstanding = 0 := by
    rw [hsp.outstanding, hsp.quiet hidle]
    rfl
  have hbusy : Busy m p s := ⟨hup, hok, hp, ho, hfree, hroom, hfits, h.dirty.2⟩
  have hend : ∃ es' s', (es' = [] ∨ es' = [.commit]) ∧ Shows (BufStep start size m) s es' s' ∧ Ended p s' := by
    cases hph : s.phase with
    | idle => exact absurd hph hidle
    | commit =>
      obtain ⟨s₁, hrun, hs₁, hlh₁, hph₁, hcache⟩ := hbusy.rinse start size m
      by_cases hn : 0 < s₁.lh.length
      · obtain ⟨hstep, hs₂⟩ := hs₁.disk start size m (c := 0) hcache (.commit (hph₁.trans hph) hn) rfl fun _ => .inl
        obtain ⟨s', hrest, hs'⟩ := hs₂.writeLog start size m rfl
        exact ⟨_, s', .inr rfl, by simpa using (hrun.silent hstep).trans hrest, hs'⟩
      · obtain ⟨hstep, hs₂⟩ := hs₁.disk start size m (c := 0) hcache (.commitEmpty (hph₁.trans hph) hn) rfl fun _ => .inl
        obtain ⟨s', hrest, hs'⟩ := hs₂.finish start size m rfl (List.length_eq_zero_iff.1 (by dsimp only; omega))
        exact ⟨_, s', .inl rfl, by simpa using (hrun.silent hstep).trans hrest, hs'⟩
    | writeLog k =>
      obtain ⟨s', hrun, hs'⟩ := hbusy.writeLog start size m hph
      exact ⟨_, s', .inr rfl, hrun, hs'⟩
    | writeHead =>
      obtain ⟨s', hrun, hs'⟩ := hbusy.writeHead start size m hph
      exact ⟨_, s', .inr rfl, hrun, hs'⟩
    | install k =>
      obtain ⟨s', hrun, hs'⟩ := hbusy.install start size m hph
      exact ⟨_, s', .inl rfl, hrun, hs'⟩
    | erase =>
      obtain ⟨s', hrun, hs'⟩ := hbusy.erase start size m hph
      exact ⟨_, s', .inl rfl, hrun, hs'⟩
    | finish =>
      obtain ⟨s', hrun, hs'⟩ := hbusy.finish start size m hph (hsp.finish hph)
      exact ⟨_, s', .inl rfl, hrun, hs'⟩
    | readHead =>
      have := hsp.head hph
      simp [hup] at this
  obtain ⟨es', s', hes, hrun, hrest, hout⟩ := hend
  exact ⟨p, hp, es', s', hes, hrun, hout, hrest.committing, hrest.awake, hrest.not_mustWait⟩

/-- A process sleeps while another one commits, and the header is the only block in the cache. -/
theorem exists_sleeper : ∃ es, ∃ s : State 2, Runs 2 30 9 (fun _ _ => 0) es s ∧ s.proc 1 = .asleep ∧
    s.committing = true ∧ s.panicked = none ∧ s.Fits ∧ (∀ b, s.holder b = none) ∧ s.lh.length < nbuf := by
  have hhead : readHead (fun _ => 0) = [] := by decide
  have h : Shows (Step 2 30 9) (boot 2 fun _ _ => 0) [] _ :=
    (Shows.refl _).silent (.disk rfl (.readHead rfl))
      |>.silent (.disk rfl (.installed rfl (by simp [boot, State.contents, hhead])))
      |>.silent (.disk rfl (.erase rfl))
      |>.silent (.proc 0 rfl rfl (.call rfl))
  have hin : Shows (Step 2 30 9) (boot 2 fun _ _ => 0) [.start 0, .finish 0] _ :=
    h.event (.proc 0 rfl rfl (.enter rfl (by simp [State.mustWait, State.bwrite, boot, logSize, maxOpBlocks])))
      |>.event (.proc 0 rfl rfl (.last rfl (by simp [boot, State.bwrite]) rfl rfl))
      |>.silent (.proc 1 rfl rfl (.call rfl))
      |>.silent (.proc 1 rfl rfl (.wait rfl (.inl rfl)))
  refine ⟨_, _, hin, rfl, rfl, rfl, ⟨[2], by decide, ?_⟩, fun b => rfl, by decide⟩
  intro b hb
  by_contra hne
  have hb2 : b ≠ 2 := by simpa using hne
  simp [State.bwrite, State.cached, boot, hb2] at hb

/-- The commit that another process waits for. -/
theorem commit_ends_for_sleeper : ∃ s : State 2, s.proc 1 = .asleep ∧ ∃ p, s.proc p = .committing ∧
    ∃ es' s', (es' = [] ∨ es' = [.commit]) ∧ Shows (BufStep 2 30 9) s es' s' ∧ s'.proc p = .out ∧
      s'.committing = false ∧ (∀ q, s'.proc q ≠ .asleep) ∧ ¬ s'.mustWait := by
  obtain ⟨es, s, h, hp, hc, hok, hfits, hfree, hroom⟩ := exists_sleeper
  exact ⟨s, hp, Runs.commit_ends h hc hok hfits hfree hroom⟩

end SdeSystems.Log
