import SdeSystems.Log.Runs

/-!
# When the log is too small

How large the log has to be for the operations to be safe in it: `MAXOPBLOCKS + 2 * m` blocks are logged at most,
and that many may be. So `log_write` panics in some run exactly where its tests can fail with that many.
And as the tests are made before the lock is taken, two operations can both pass them and then both log
a block, so that more blocks are logged than the log has on the disk: that may happen exactly where the log has no
more than `MAXOPBLOCKS + 2 * m` blocks, its header among them. With `LOGSIZE` blocks, as `mkfs` has it, both may
happen for operations of `MAXOPBLOCKS` blocks, and neither for operations of one block less.
-/

namespace SdeSystems.Log

open Function Lib

variable {n : ℕ} {start size m : ℕ} {s s' : State n} {e : Option (LogEvent n)} {p q : Fin n}
  {pcs : Fin n → Pc} {lh l : List ℕ} {b c k : ℕ}

/-! ### Panics -/

/-- A machine that has panicked has done so for want of space. -/
def PanicInv (size : ℕ) (s : State n) : Prop :=
  s.panicked = none ∨ s.panicked = some "too big a transaction" ∧ s.up = true ∧ s.tooBig size

theorem Step.panic (h : Step start size m s e s') (hsp : SpaceInv m s) (hs : PanicInv size s) : PanicInv size s' := by
  cases h with
  | proc p hup hok h =>
    cases h with
    | tooBig b hpc hb hm hbig => exact .inr ⟨rfl, hup, hbig⟩
    | outside b hpc hb hm hfit hop =>
      have := (hsp.inside hpc).2.2.2
      omega
    | panic hpc hb hc =>
      have := (hsp.inside hpc).2.2.1
      simp [hc] at this
    | call | wait | spurious | enter | bread | modify | check | logWrite | brelse | leave | last | finish =>
      exact .inl hok
  | disk hok h =>
    left
    cases h <;> exact hok
  | evict => exact hs
  | crash => exact .inl rfl

theorem Runs.panic {disk : ℕ → Bytes} {es : List (LogEvent n)}
    (h : Runs start size m disk es s) : SpaceInv m s ∧ PanicInv size s :=
  Shows.inv (I := fun s => SpaceInv m s ∧ PanicInv size s)
    (fun _ _ _ h hx => ⟨h.space hx.1, h.panic hx.1 hx.2⟩) h ⟨spaceInv_boot disk, .inl rfl⟩

/-! ### The panic -/

/-- `log_write` panics. -/
theorem Ready.panic (hs : Ready s lh pcs fun _ => none) (hp : pcs p = .inside l) (hb : Home start size b)
    (hm : b ∈ l ∨ l.length < m) (hbig : s.tooBig size) :
    CanReach (Step start size m) s fun s' => s'.panicked = some "too big a transaction" := by
  obtain ⟨up, ok, ph, cm, rfl, rfl, ho, hhold, hcached, hawake⟩ := hs
  have hfree : s.holder b = none := by rw [hhold]
  refine .head (.proc p up ok (.bread b (.inr ⟨l, hp⟩) hb hfree)) ?_
  refine .head (.proc p up ok (.modify b (s.disk b) hp (update_self _ _ _) cached_self)) ?_
  exact .step (.proc p up ok (.tooBig b hp (update_self _ _ _) hm hbig)) rfl

/-- **When the file system panics for the size of the log**, and that it does for nothing else. -/
theorem panics_iff {disk : ℕ → Bytes} (hn : 2 ≤ n) (hm : 0 < m) (hmax : m ≤ maxOpBlocks) (hsize : 0 < size)
    (hhome : start + size + logSize ≤ 2 ^ 32) :
    ((∃ es, ∃ s : State n, Runs start size m disk es s ∧ s.panicked = some "too big a transaction") ↔
      min (size - 1) logSize ≤ maxOpBlocks + 2 * m) ∧
    ∀ es, ∀ s : State n, Runs start size m disk es s → ∀ msg, s.panicked = some msg → msg = "too big a transaction" := by
  refine ⟨⟨?_, ?_⟩, ?_⟩
  · rintro ⟨es, s, h, hp⟩
    obtain ⟨hsp, hpanic⟩ := h.panic
    obtain ⟨-, hup, hbig⟩ := hpanic.resolve_left (by simp [hp])
    have := hsp.room hmax hup
    rcases hbig with hbig | hbig <;> omega
  · intro hle
    obtain ⟨p, q, hpq⟩ : ∃ p q : Fin n, p ≠ q := ⟨⟨0, by omega⟩, ⟨1, by omega⟩, by simp⟩
    obtain ⟨t, ht⟩ : ∃ t, t = min (size - 1) logSize := ⟨_, rfl⟩
    have hsum : min t maxOpBlocks + min (t - maxOpBlocks) m + (t - maxOpBlocks - m) = t := by omega
    have hfill := fills start size disk hpq hm (Nat.min_le_right t maxOpBlocks)
      (Nat.min_le_right (t - maxOpBlocks) m) (show t - maxOpBlocks - m ≤ m by omega) (by omega) (by omega) hhome
    rw [hsum] at hfill
    apply hfill.bind
    rintro s₁ ⟨pcs, l, l', hs, hp, -, -, -, hmem, -⟩
    have hbig : s₁.tooBig size := by
      rw [State.tooBig, hs.lh, length_firstHomes]
      omega
    -- A block that the operation has logged will do, and if it has none any block.
    cases l with
    | nil => exact hs.panic hp (home_of_lt (k := 0) hhome (by decide)) (.inr hm) hbig
    | cons b l =>
      have hb := mem_firstHomes.1 (hmem b (.inl List.mem_cons_self))
      exact hs.panic hp ⟨.inr hb.1, by omega⟩ (.inl List.mem_cons_self) hbig
  · intro es s h msg hmsg
    rcases (h.panic).2 with hnone | ⟨hsome, -, -⟩
    · simp [hnone] at hmsg
    · simpa [hsome, eq_comm] using hmsg

/-- For operations of `MAXOPBLOCKS` blocks, in a log of `LOGSIZE` blocks. -/
theorem panics_mkfs : ((∃ es, ∃ s : State 2, Runs 2 30 10 (fun _ _ => 0) es s ∧
      s.panicked = some "too big a transaction") ↔ min (30 - 1) logSize ≤ maxOpBlocks + 2 * 10) ∧
    ∀ es, ∀ s : State 2, Runs 2 30 10 (fun _ _ => 0) es s → ∀ msg, s.panicked = some msg →
      msg = "too big a transaction" :=
  panics_iff (by decide) (by decide) (by decide) (by decide) (by decide)

/-! ### More blocks than the log has -/

/-- There are more blocks in `log.lh` than the log on the disk has beside its header. -/
def State.Overfull (size : ℕ) (s : State n) : Prop := s.up = true ∧ size ≤ s.lh.length

/-- **The race**: two operations pass the tests of `log_write`, and then both log a block. -/
theorem Ready.race {l' : List ℕ} (hs : Ready s (firstHomes start size k) pcs fun _ => none) (hpq : p ≠ q)
    (hp : pcs p = .inside l) (hq : pcs q = .inside l') (hl : l.length < m) (hl' : l'.length < m)
    (hlog : k + 2 ≤ logSize) (hsize : k + 1 < size) (hhome : start + size + logSize ≤ 2 ^ 32) :
    CanReach (Step start size m) s fun s' => ∃ x y, Ready s' (firstHomes start size (k + 2))
      (update (update pcs p (.inside x)) q (.inside y)) fun _ => none := by
  have hlen := length_firstHomes start size k
  obtain ⟨b, hb⟩ : ∃ b, b = start + size + k := ⟨_, rfl⟩
  obtain ⟨c, hc⟩ : ∃ c, c = start + size + (k + 1) := ⟨_, rfl⟩
  have hcb : c ≠ b := by omega
  have hbhome : Home start size b := hb ▸ home_of_lt hhome (by omega)
  have hchome : Home start size c := hc ▸ home_of_lt hhome (by omega)
  have hq' : ∀ x, update pcs p (.inside x) q = .inside l' := fun x => by rw [update_of_ne hpq.symm, hq]
  refine (hs.bread hp hbhome rfl).bind fun s₁ h₁ => ?_
  refine (h₁.check hp (update_self _ _ _) (.inr hl) (by omega) (by omega)).bind fun s₂ h₂ => ?_
  refine (h₂.bread hq hchome (by rw [update_of_ne hcb, update_of_ne hcb])).bind fun s₃ h₃ => ?_
  refine (h₃.check hq (update_self _ _ _) (.inr hl') (by omega) (by omega)).bind fun s₄ h₄ => ?_
  rw [update_idem, update_idem] at h₄
  refine (h₄.logWrite hp (by rw [update_of_ne hcb.symm, update_self]) (.inr hl)).bind fun s₅ h₅ => ?_
  refine (h₅.logWrite (hq' _) (by rw [update_of_ne hcb, update_self]) (.inr hl')).bind fun s₆ h₆ => ?_
  rw [hb, logBlock_firstHomes, ← hb, hc, logBlock_firstHomes, ← hc] at h₆
  have hnone : update (update (update (update (fun _ => none) b (some (p, Hold.checked))) c (some (q, .checked)))
      b none) c none = fun _ => none := by
    funext d
    simp only [update_apply]
    split_ifs <;> rfl
  rw [hnone] at h₆
  exact .here ⟨_, _, h₆⟩

/-- **When more blocks can be logged than the log has.** -/
theorem overfills_iff {disk : ℕ → Bytes} (hn : 2 ≤ n) (hm : 0 < m) (hmax : m ≤ maxOpBlocks) (hsize : 2 ≤ size)
    (hhome : start + size + logSize ≤ 2 ^ 32) :
    (∃ es, ∃ s : State n, Runs start size m disk es s ∧ s.Overfull size) ↔ size ≤ maxOpBlocks + 2 * m := by
  constructor
  · rintro ⟨es, s, h, hup, hle⟩
    have hroom := (Runs.space h).room hmax hup
    omega
  · intro hle
    obtain ⟨p, q, hpq⟩ : ∃ p q : Fin n, p ≠ q := ⟨⟨0, by omega⟩, ⟨1, by omega⟩, by simp⟩
    simp only [maxOpBlocks] at hle hmax
    obtain ⟨t, ht⟩ : ∃ t, size = t + 2 := ⟨size - 2, by omega⟩
    have hsum : min t 10 + min (t - 10) (m - 1) + (t - 10 - (m - 1)) = t := by omega
    have hfill := fills start size disk hpq hm (Nat.min_le_right t 10)
      (show min (t - 10) (m - 1) ≤ m by omega) (show t - 10 - (m - 1) ≤ m by omega)
      (by simp only [logSize, maxOpBlocks]; omega) (by omega) hhome
    rw [hsum] at hfill
    apply hfill.bind
    rintro s₁ ⟨pcs, l, l', hs, hp, hq, hl, hl', -, -⟩
    refine (hs.race hpq hp hq (by omega) (by omega) (by simp only [logSize, maxOpBlocks]; omega) (by omega)
      hhome).bind fun s₂ h₂ => ?_
    obtain ⟨x, y, h₂⟩ := h₂
    refine .here ⟨h₂.up, ?_⟩
    rw [h₂.lh, length_firstHomes, ht]

/-- For operations of `MAXOPBLOCKS` blocks, in a log of `LOGSIZE` blocks. -/
theorem overfills_mkfs : (∃ es, ∃ s : State 2, Runs 2 30 10 (fun _ _ => 0) es s ∧ s.Overfull 30) ↔
    30 ≤ maxOpBlocks + 2 * 10 :=
  overfills_iff (by decide) (by decide) (by decide) (by decide) (by decide)

end SdeSystems.Log
