import SdeSystems.Log.Space
import SdeSystems.Log.Recovery
import SdeSystems.Log.Buffers

/-!
# Some runs of the machine

The loops of `commit` and of the recovery end, and a machine that boots is up after some steps, whatever is
on its disk. From there, one lemma for each call that an operation makes, and what becomes of the log, of the
processes and of the buffers they have; with these, runs that fill the log as far as it goes.
-/

namespace SdeSystems.Log

open Function Lib

variable {n : ℕ} {start size m : ℕ} {s s' s'' : State n} {p q : Fin n} {lh l : List ℕ} {b c k : ℕ}

/-! ### The loops -/

/-- The disk and the buffers change, the rest stays. -/
structure Still (s s' : State n) : Prop where
  /-- The holders of buffers. -/
  holder : s'.holder = s.holder
  /-- The blocks to write. -/
  lh : s'.lh = s.lh
  /-- The processes. -/
  proc : s'.proc = s.proc
  /-- `outstanding`. -/
  outstanding : s'.outstanding = s.outstanding
  /-- `committing`. -/
  committing : s'.committing = s.committing
  /-- Whether the machine is up. -/
  up : s'.up = s.up
  /-- A panic. -/
  panicked : s'.panicked = s.panicked

theorem Still.trans (h : Still s s') (h' : Still s' s'') : Still s s'' :=
  ⟨h'.holder.trans h.holder, h'.lh.trans h.lh, h'.proc.trans h.proc, h'.outstanding.trans h.outstanding,
    h'.committing.trans h.committing, h'.up.trans h.up, h'.panicked.trans h.panicked⟩

/-- A loop over the blocks to write, each of which goes to the disk, ends. -/
theorem loop_ends {P : ℕ → Phase} {Q : Phase} (hok : s.panicked = none) (hfree : ∀ b ∈ s.lh, s.holder b = none)
    (hbody : ∀ (s : State n) k b, s.phase = P k → s.lh[k]? = some b → s.holder b = none →
      ∃ s', DiskStep start s none s' ∧ Still s s' ∧ s'.phase = P (k + 1))
    (hend : ∀ (s : State n) k, s.phase = P k → ¬ k < s.lh.length →
      ∃ s', DiskStep start s none s' ∧ Still s s' ∧ s'.phase = Q) (hph : s.phase = P k) :
    ∃ s', Shows (Step start size m) s [] s' ∧ Still s s' ∧ s'.phase = Q := by
  induction hd : s.lh.length - k generalizing s k with
  | zero =>
    obtain ⟨s', h, hst, hq⟩ := hend s k hph (by omega)
    exact ⟨s', (Shows.refl s).silent (.disk hok h), hst, hq⟩
  | succ d ih =>
    have hk : k < s.lh.length := by omega
    have hb := List.getElem?_eq_getElem hk
    obtain ⟨s₁, h, hst, hp⟩ := hbody s k _ hph hb (hfree _ (List.getElem_mem hk))
    obtain ⟨s₂, h₂, hst₂, hq⟩ := ih (hst.panicked.trans hok)
      (fun b hb => by rw [hst.holder]; exact hfree b (hst.lh ▸ hb)) hp (by rw [hst.lh]; omega)
    exact ⟨s₂, by simpa using ((Shows.refl s).silent (.disk hok h)).trans h₂, hst.trans hst₂, hq⟩

variable (start size m)

/-- `install_trans` ends. -/
theorem install_ends (hok : s.panicked = none) (hfree : ∀ b ∈ s.lh, s.holder b = none) (hph : s.phase = .install k) :
    ∃ s', Shows (Step start size m) s [] s' ∧ Still s s' ∧ s'.phase = .erase := by
  apply loop_ends hok hfree _ _ hph
  · intro s k b hph hb hfree
    exact ⟨_, .install hph hb hfree, ⟨rfl, rfl, rfl, rfl, rfl, rfl, rfl⟩, rfl⟩
  · intro s k hph hk
    exact ⟨_, .installed hph hk, ⟨rfl, rfl, rfl, rfl, rfl, rfl, rfl⟩, rfl⟩

/-- The machine is up, and nothing is on. -/
structure Rested (s : State n) : Prop where
  /-- It is up. -/
  up : s.up = true
  /-- It has not panicked. -/
  panicked : s.panicked = none
  /-- There is no commit. -/
  phase : s.phase = .idle
  /-- Nobody commits. -/
  committing : s.committing = false
  /-- There is no operation. -/
  outstanding : s.outstanding = 0
  /-- Nothing is logged. -/
  lh : s.lh = []
  /-- Nobody sleeps. -/
  awake : ∀ p, s.proc p ≠ .asleep

/-- Whoever calls `begin_op` then is let in. -/
theorem Rested.not_mustWait (hs : Rested s) : ¬ s.mustWait := by
  simp [State.mustWait, hs.committing, hs.outstanding, hs.lh, logSize, maxOpBlocks]

/-- **Recovery ends**, whatever is on the disk. -/
theorem recovery_ends (disk : ℕ → Bytes) :
    ∃ s : State n, Runs start size m disk [] s ∧ Rested s ∧ s.holder = (fun _ => none) ∧ s.proc = fun _ => .out := by
  have h₀ := @DiskStep.readHead n start (boot n disk) rfl
  generalize hs : State.mk _ _ _ _ _ _ _ _ _ _ = s₁ at h₀
  have hhold : s₁.holder = fun _ => none := by rw [← hs]; rfl
  have hproc : s₁.proc = fun _ => .out := by rw [← hs]; rfl
  have hph : s₁.phase = .install 0 := by rw [← hs]
  have hrest : s₁.outstanding = 0 ∧ s₁.committing = false ∧ s₁.up = false ∧ s₁.panicked = none := by
    rw [← hs]
    exact ⟨rfl, rfl, rfl, rfl⟩
  obtain ⟨ho, hc, hup, hok⟩ := hrest
  obtain ⟨s₂, hrun, hst, hph₂⟩ := install_ends start size m hok (fun b _ => by rw [hhold]) hph
  have h₂ := (Shows.refl _).silent (.disk (by rfl) h₀) |>.trans hrun |>.silent (.disk (hst.panicked.trans hok) (.erase hph₂))
  refine ⟨_, h₂, ⟨rfl, hst.panicked.trans hok, ?_, hst.committing.trans hc, hst.outstanding.trans ho, rfl, ?_⟩,
    hst.holder.trans hhold, hst.proc.trans hproc⟩
  · dsimp only
    rw [hst.up, hup]
    rfl
  · intro p
    simp only [State.bwrite]
    rw [hst.proc, hproc]
    simp

/-! ### Filling the log -/

/-- What matters of a machine between commits: the blocks logged, the processes, and the holders of buffers. -/
structure Ready (s : State n) (logged : List ℕ) (pcs : Fin n → Pc) (holders : ℕ → Option (Fin n × Hold)) : Prop where
  /-- The machine is up. -/
  up : s.up = true
  /-- It has not panicked. -/
  panicked : s.panicked = none
  /-- There is no commit. -/
  phase : s.phase = .idle
  /-- Nobody commits. -/
  committing : s.committing = false
  /-- The blocks logged. -/
  lh : s.lh = logged
  /-- The processes. -/
  proc : s.proc = pcs
  /-- Their operations. -/
  outstanding : s.outstanding = ops pcs
  /-- The holders. -/
  holder : s.holder = holders
  /-- What is held stays. -/
  cached : ∀ b, holders b ≠ none → s.cache b ≠ none
  /-- Nobody sleeps. -/
  awake : ∀ p, pcs p ≠ .asleep

variable {start size m}

variable {pcs : Fin n → Pc} {holders : ℕ → Option (Fin n × Hold)}

theorem wakeup_of_awake (h : ∀ p, pcs p ≠ .asleep) : wakeup pcs = pcs := by
  funext p
  have := h p
  rw [wakeup]
  cases hp : pcs p <;> simp_all [Pc.wake]

theorem awake_update {pc : Pc} (h : ∀ p, pcs p ≠ .asleep) (hpc : pc ≠ .asleep) (q : Fin n) :
    update pcs p pc q ≠ .asleep := by
  by_cases hqp : q = p
  · rwa [hqp, update_self]
  · rw [update_of_ne hqp]
    exact h q

/-- `begin_op`. -/
theorem Ready.enter (hs : Ready s lh pcs holders) (hp : pcs p = .out)
    (hroom : lh.length + (ops pcs + 1) * maxOpBlocks ≤ logSize) :
    CanReach (Step start size m) s fun s' => Ready s' lh (update pcs p (.inside [])) holders := by
  obtain ⟨up, ok, ph, cm, rfl, rfl, ho, rfl, hcached, hawake⟩ := hs
  have hops := ops_update s.proc p (.inside [])
  rw [hp, Pc.count_inside] at hops
  simp only [Pc.count, Nat.add_zero] at hops
  have hw : ¬ State.mustWait { s with proc := update s.proc p .begin } := by
    rintro (hc | hc)
    · simp [cm] at hc
    · simp only [ho, maxOpBlocks, logSize] at hc hroom
      omega
  refine .head (.proc p up ok (.call hp)) (.step (.proc p up ok (.enter (update_self _ _ _) hw)) ?_)
  refine
    ⟨up, ok, ph, cm, rfl, update_idem _ _ _, ?_, rfl, hcached, awake_update hawake (by simp)⟩
  dsimp only
  rw [ho, hops]
  rfl

/-- `bread`. -/
theorem Ready.bread (hs : Ready s lh pcs holders) (hp : pcs p = .inside l) (hb : Home start size b)
    (hfree : holders b = none) :
    CanReach (Step start size m) s fun s' => Ready s' lh pcs (update holders b (some (p, .clean))) := by
  obtain ⟨up, ok, ph, cm, rfl, rfl, ho, rfl, hcached, hawake⟩ := hs
  refine .step (.proc p up ok (.bread b (.inr ⟨l, hp⟩) hb hfree)) ⟨up, ok, ph, cm, rfl, rfl, ho, rfl, ?_, hawake⟩
  intro c hc
  by_cases hcb : c = b
  · simp [hcb, State.cached]
  · rw [update_of_ne hcb] at hc
    simpa [State.cached, hcb] using hcached c hc

/-- The buffer is changed, and `log_write` makes its tests. -/
theorem Ready.check (hs : Ready s lh pcs holders) (hp : pcs p = .inside l) (hb : holders b = some (p, .clean))
    (hm : b ∈ l ∨ l.length < m) (hlog : lh.length < logSize) (hsize : lh.length + 1 < size) :
    CanReach (Step start size m) s fun s' => Ready s' lh pcs (update holders b (some (p, .checked))) := by
  obtain ⟨up, ok, ph, cm, rfl, rfl, ho, rfl, hcached, hawake⟩ := hs
  obtain ⟨u, hu⟩ := Option.ne_none_iff_exists'.1 (hcached b (by simp [hb]))
  have hpos := ops_pos hp
  have hfit : ¬ s.tooBig size := by
    rintro (h | h) <;> omega
  have hop : ¬ s.outstanding < 1 := by omega
  refine .head (.proc p up ok (.modify b u.data hp hb hu)) (.step (.proc p up ok
    (.check b hp (update_self _ _ _) hm hfit hop)) ⟨up, ok, ph, cm, rfl, rfl, ho, update_idem _ _ _, ?_, hawake⟩)
  intro c hc
  by_cases hcb : c = b
  · simp [hcb]
  · rw [update_of_ne hcb] at hc
    simpa [hcb] using hcached c hc

/-- The rest of `log_write`, and `brelse`. -/
theorem Ready.logWrite (hs : Ready s lh pcs holders) (hp : pcs p = .inside l) (hb : holders b = some (p, .checked))
    (hm : b ∈ l ∨ l.length < m) : CanReach (Step start size m) s fun s' =>
      Ready s' (logBlock lh b) (update pcs p (.inside (logBlock l b))) (update holders b none) := by
  obtain ⟨up, ok, ph, cm, rfl, rfl, ho, rfl, hcached, hawake⟩ := hs
  obtain ⟨u, hu⟩ := Option.ne_none_iff_exists'.1 (hcached b (by simp [hb]))
  have hops := ops_update s.proc p (.inside (logBlock l b))
  rw [hp, Pc.count_inside, Pc.count_inside, Nat.add_right_cancel_iff] at hops
  refine .head (.proc p up ok (.logWrite b hp hb hm hu)) (.step (.proc p up ok
    (.brelse b (.inr ⟨_, update_self _ _ _⟩) (update_self _ _ _))) ?_)
  refine ⟨up, ok, ph, cm, rfl, rfl, ?_, update_idem _ _ _, ?_, awake_update hawake (by simp)⟩
  · rw [hops]
    exact ho
  · intro c hc
    by_cases hcb : c = b
    · simp [hcb]
    · rw [update_of_ne hcb] at hc
      simpa [hcb] using hcached c hc

/-- `end_op`, while others have operations. -/
theorem Ready.leave (hs : Ready s lh pcs holders) (hp : pcs p = .inside l) (hfree : ∀ b h, holders b ≠ some (p, h))
    (hops : 1 < ops pcs) :
    CanReach (Step start size m) s fun s' => Ready s' lh (update pcs p .out) holders := by
  obtain ⟨up, ok, ph, cm, rfl, rfl, ho, rfl, hcached, hawake⟩ := hs
  have hover := ops_update s.proc p .out
  rw [hp, Pc.count_inside] at hover
  simp only [Pc.count, Nat.add_zero] at hover
  refine .step (.proc p up ok (.leave hp hfree cm (by omega))) ⟨up, ok, ph, cm, rfl, by rw [wakeup_of_awake hawake], ?_, rfl, hcached, awake_update hawake (by simp)⟩
  dsimp only
  omega

/-- `bread`, a change, `log_write` and `brelse`. -/
theorem Ready.log (hs : Ready s lh pcs fun _ => none) (hp : pcs p = .inside l) (hb : Home start size b)
    (hm : b ∈ l ∨ l.length < m) (hlog : lh.length < logSize) (hsize : lh.length + 1 < size) :
    CanReach (Step start size m) s fun s' =>
      Ready s' (logBlock lh b) (update pcs p (.inside (logBlock l b))) fun _ => none := by
  refine (hs.bread hp hb rfl).bind fun s₁ h₁ => ?_
  refine (h₁.check hp (update_self _ _ _) hm hlog hsize).bind fun s₂ h₂ => ?_
  have h₃ : CanReach (Step start size m) s₂ _ := h₂.logWrite hp (update_self _ _ _) hm
  rw [update_idem, update_idem, update_eq_self_iff.2 rfl] at h₃
  exact h₃

/-- The first `k` blocks after the log. -/
def firstHomes (start size k : ℕ) : List ℕ := List.range' (start + size) k

theorem length_firstHomes (start size k : ℕ) : (firstHomes start size k).length = k := List.length_range'

theorem mem_firstHomes : c ∈ firstHomes start size k ↔ start + size ≤ c ∧ c < start + size + k := List.mem_range'_1

theorem logBlock_firstHomes : logBlock (firstHomes start size k) (start + size + k) = firstHomes start size (k + 1) := by
  rw [logBlock_of_notMem, firstHomes, firstHomes, List.range'_concat, Nat.one_mul]
  rw [mem_firstHomes]
  omega

theorem home_of_lt (h : start + size + logSize ≤ 2 ^ 32) (hk : k < logSize) : Home start size (start + size + k) :=
  ⟨.inr (by omega), by omega⟩

/-- An operation logs `d` blocks more. -/
theorem Ready.logMany (hs : Ready s (firstHomes start size k) pcs fun _ => none) (hp : pcs p = .inside l)
    (hl : ∀ c ∈ l, c ∈ firstHomes start size k) {d : ℕ} (hm : l.length + d ≤ m) (hlog : k + d ≤ logSize) (hsize : k + d < size)
    (hhome : start + size + logSize ≤ 2 ^ 32) :
    CanReach (Step start size m) s fun s' => ∃ l', l'.length = l.length + d ∧ (∀ c ∈ l', c ∈ firstHomes start size (k + d)) ∧
      Ready s' (firstHomes start size (k + d)) (update pcs p (.inside l')) fun _ => none := by
  induction d generalizing s k l pcs with
  | zero =>
    refine .here ⟨l, rfl, hl, ?_⟩
    rw [← hp, update_eq_self]
    exact hs
  | succ d ih =>
    have hnot : start + size + k ∉ l := fun hmem => by
      have := mem_firstHomes.1 (hl _ hmem)
      omega
    have hstep : CanReach (Step start size m) s _ := hs.log hp (home_of_lt (k := k) hhome (by omega)) (.inr (by omega))
      (by rw [length_firstHomes]; omega) (by rw [length_firstHomes]; omega)
    rw [logBlock_firstHomes, logBlock_of_notMem hnot] at hstep
    refine hstep.bind fun s₁ h₁ => ?_
    have hlen : (l ++ [start + size + k]).length = l.length + 1 := List.length_append
    refine (ih h₁ (update_self _ _ _) ?_ (by omega) (by omega) (by omega)).bind fun s₂ h₂ => ?_
    · intro c hc
      rw [mem_firstHomes]
      rcases List.mem_append.1 hc with hc | hc
      · have := mem_firstHomes.1 (hl c hc)
        omega
      · rw [List.mem_singleton] at hc
        omega
    · obtain ⟨l', hlen', hl', h₂⟩ := h₂
      rw [update_idem] at h₂
      have hkd : k + 1 + d = k + (d + 1) := by omega
      exact .here ⟨l', by omega, hkd ▸ hl', hkd ▸ h₂⟩

/-- Beside an operation another process runs one after the other, each of which logs one block. -/
theorem Ready.fill (hs : Ready s (firstHomes start size k) pcs fun _ => none) (hq : pcs q = .out) (hops : ops pcs = 1)
    (hm : 0 < m) {d : ℕ} (hlog : k + d ≤ maxOpBlocks) (hsize : k + d < size)
    (hhome : start + size + logSize ≤ 2 ^ 32) :
    CanReach (Step start size m) s fun s' => Ready s' (firstHomes start size (k + d)) pcs fun _ => none := by
  induction d generalizing s k with
  | zero => exact .here hs
  | succ d ih =>
    simp only [maxOpBlocks] at hlog
    have hroom : (firstHomes start size k).length + (ops pcs + 1) * maxOpBlocks ≤ logSize := by
      rw [length_firstHomes, hops]
      simp only [maxOpBlocks, logSize]
      omega
    refine (hs.enter hq hroom).bind fun s₁ h₁ => ?_
    refine (h₁.logMany (d := 1) (update_self _ _ _) (by simp) (by simp only [List.length_nil]; omega)
      (by simp only [logSize, maxOpBlocks]; omega) (by omega) hhome).bind fun s₂ h₂ => ?_
    obtain ⟨l', hlen, hl', h₂⟩ := h₂
    rw [update_idem] at h₂
    have htwo : ops (update pcs q (.inside l')) = 2 := by
      have := ops_update pcs q (.inside l')
      rw [hq, Pc.count_inside, hops] at this
      simpa [Pc.count] using this
    refine (h₂.leave (update_self _ _ _) (by simp) (by omega)).bind fun s₃ h₃ => ?_
    rw [update_idem, ← hq, update_eq_self] at h₃
    have hkd : k + 1 + d = k + (d + 1) := by omega
    have := ih h₃ (by simp only [maxOpBlocks]; omega) (by omega)
    rwa [hkd] at this

/-- The machine is up, and nobody is in the file system. -/
theorem boots (disk : ℕ → Bytes) : CanReach (Step start size m) (boot n disk) fun s =>
    Ready s (firstHomes start size 0) (fun _ => .out) fun _ => none := by
  obtain ⟨s₀, hrun, hrest, hhold, hproc⟩ := recovery_ends start size m disk
  refine ⟨_, s₀, hrun, hrest.up, hrest.panicked, hrest.phase, hrest.committing, hrest.lh, hproc, ?_, hhold, ?_, ?_⟩
  · rw [ops_out, hrest.outstanding]
    rfl
  · simp
  · simp

/-- A process sleeps in `begin_op` while another commits. -/
theorem sleeps (start size m : ℕ) (disk : ℕ → Bytes) (hpq : p ≠ q) : CanReach (Step start size m) (boot n disk) fun s =>
    s.proc q = .asleep ∧ s.committing = true ∧ s.panicked = none ∧ s.holder = fun _ => none := by
  refine (boots disk).bind fun s₀ h₀ => ?_
  have hroom : (firstHomes start size 0).length + (ops (fun _ : Fin n => Pc.out) + 1) * maxOpBlocks ≤ logSize := by
    rw [ops_out, length_firstHomes]
    decide
  refine (h₀.enter (p := p) rfl hroom).bind fun s₁ h₁ => ?_
  obtain ⟨up, ok, ph, cm, hlh, hproc, ho, hhold, hcached, hawake⟩ := h₁
  have hone := ops_update (fun _ : Fin n => Pc.out) p (.inside [])
  rw [ops_out] at hone
  simp only [Pc.count] at hone
  have hp : s₁.proc p = .inside [] := by rw [hproc, update_self]
  have hq : update s₁.proc p .committing q = .out := by
    rw [update_of_ne hpq.symm, hproc, update_of_ne hpq.symm]
  refine .head (.proc p up ok (.last hp (by simp [hhold]) cm (by omega))) ?_
  refine .head (.proc q up ok (.call hq)) (.step (.proc q up ok (.wait (update_self _ _ _) (.inl rfl))) ?_)
  exact ⟨update_self _ _ _, rfl, ok, hhold⟩

/-- **Two operations are in progress, and the log is as full as it is to be.** -/
theorem fills (start size : ℕ) (disk : ℕ → Bytes) (hpq : p ≠ q) {r x y : ℕ} (hm : 0 < m) (hr : r ≤ maxOpBlocks) (hx : x ≤ m) (hy : y ≤ m)
    (hlog : r + x + y ≤ logSize) (hsize : r + x + y < size) (hhome : start + size + logSize ≤ 2 ^ 32) :
    CanReach (Step start size m) (boot n disk) fun s => ∃ pcs l l', Ready s (firstHomes start size (r + x + y)) pcs (fun _ => none) ∧
      pcs p = .inside l ∧ pcs q = .inside l' ∧ l.length = x ∧ l'.length = y ∧
      (∀ c, c ∈ l ∨ c ∈ l' → c ∈ firstHomes start size (r + x + y)) ∧ ops pcs = 2 := by
  have hout : ops (fun _ : Fin n => Pc.out) = 0 := ops_out
  refine (boots disk).bind fun s₀ h₀ => ?_
  refine (h₀.enter (p := p) rfl (by rw [hout, length_firstHomes]; decide)).bind fun s₁ h₁ => ?_
  have hone : ops (update (fun _ : Fin n => Pc.out) p (.inside [])) = 1 := by
    have := ops_update (fun _ : Fin n => Pc.out) p (.inside [])
    rw [hout] at this
    simpa [Pc.count] using this
  have hq : update (fun _ : Fin n => Pc.out) p (.inside []) q = .out := by rw [update_of_ne hpq.symm]
  refine (h₁.fill hq hone hm (d := r) (by omega) (by omega) hhome).bind fun s₂ h₂ => ?_
  rw [Nat.zero_add] at h₂
  refine (h₂.enter hq ?_).bind fun s₃ h₃ => ?_
  · rw [length_firstHomes, hone]
    simp only [maxOpBlocks, logSize] at hr ⊢
    omega
  have htwo := ops_update (update (fun _ : Fin n => Pc.out) p (.inside [])) q (.inside [])
  rw [hq, hone, Pc.count_inside] at htwo
  have hp₃ : update (update (fun _ : Fin n => Pc.out) p (.inside [])) q (.inside []) p = .inside [] := by
    rw [update_of_ne hpq, update_self]
  refine (h₃.logMany hp₃ (by simp) (d := x) (by simpa using hx) (by omega) (by omega) hhome).bind fun s₄ h₄ => ?_
  obtain ⟨l, hlen, hl, h₄⟩ := h₄
  have hops := ops_update (update (update (fun _ : Fin n => Pc.out) p (.inside [])) q (.inside [])) p (.inside l)
  rw [hp₃, Pc.count_inside, Pc.count_inside, Nat.add_right_cancel_iff] at hops
  have hq₄ : update (update (update (fun _ : Fin n => Pc.out) p (.inside [])) q (.inside [])) p (.inside l) q =
      .inside [] := by rw [update_of_ne hpq.symm, update_self]
  have hp₄ : update (update (update (fun _ : Fin n => Pc.out) p (.inside [])) q (.inside [])) p (.inside l) p =
      .inside l := update_self _ _ _
  generalize update (update (update (fun _ : Fin n => Pc.out) p (.inside [])) q (.inside [])) p (.inside l) = pcs
    at h₄ hops hq₄ hp₄
  refine (h₄.logMany hq₄ (by simp) (d := y) (by simpa using hy) (by omega) (by omega) hhome).bind fun s₅ h₅ => ?_
  obtain ⟨l', hlen', hl', h₅⟩ := h₅
  have hops₅ := ops_update pcs q (.inside l')
  rw [hq₄, Pc.count_inside, Pc.count_inside, Nat.add_right_cancel_iff] at hops₅
  refine .here ⟨_, l, l', h₅, by rw [update_of_ne hpq, hp₄], update_self _ _ _, by simpa using hlen,
    by simpa using hlen', ?_, ?_⟩
  · rintro c (hc | hc)
    · have := mem_firstHomes.1 (hl c hc)
      rw [mem_firstHomes]
      omega
    · exact hl' c hc
  · rw [hops₅, hops]
    simpa [Pc.count] using htwo

end SdeSystems.Log
