import SdeSystems.Log.Space

/-!
# The buffers and the disk

What the buffers have to do with the disk: one that is not dirty has what is on the disk, unless an operation
is changing it, and the dirty ones are those that are to stay. With one lemma for each thing that is done to
a buffer.
-/

namespace SdeSystems.Log

open Function Lib

variable {n : ℕ} {start size : ℕ} {s : State n} {p : Fin n}
  {b c : ℕ} {v : Bytes} {l pins pins' : List ℕ}

/-- Nobody is changing the block. -/
def State.Settled (s : State n) (b : ℕ) : Prop := ∀ p h, s.holder b = some (p, h) → h = .clean

/-- The buffers, where those of the blocks `pins` are to stay. -/
structure Buffers (start size : ℕ) (s : State n) (pins : List ℕ) : Prop where
  /-- The blocks of the log are nobody's, and a buffer that is somebody's stays. -/
  held : ∀ b q, s.holder b = some q → Home start size b ∧ s.cache b ≠ none
  /-- Only operations change blocks. -/
  changing : ∀ b p h, s.holder b = some (p, h) → h ≠ .clean → ∃ l, s.proc p = .inside l
  /-- A buffer that is not dirty has what is on the disk. -/
  clean : ∀ b u, s.cache b = some u → u.dirty = false → s.Settled b → u.data = s.disk b
  /-- The dirty buffers are those of `pins`. -/
  dirty : ∀ b u, s.cache b = some u → (u.dirty = true ↔ b ∈ pins)
  /-- They stay. -/
  pinned : ∀ b ∈ pins, s.cache b ≠ none

theorem cached_self : s.cached b b = some ((s.cache b).getD ⟨s.disk b, false⟩) := update_self _ _ _

theorem cached_of_ne (h : c ≠ b) : s.cached b c = s.cache c := update_of_ne h _ _

/-- `bread` does not change what is read. -/
theorem elim_cached : (s.cached b c).elim (s.disk c) Buf.data = s.contents c := by
  by_cases hc : c = b
  · subst hc
    rw [cached_self, State.contents]
    cases s.cache c <;> rfl
  · rw [cached_of_ne hc, State.contents]

theorem contents_bwrite : (s.bwrite b v).contents = update s.contents b v := by
  funext c
  by_cases hc : c = b
  · subst hc
    simp [State.contents, State.bwrite]
  · simp [State.contents, State.bwrite, hc]

theorem copyBlock_eq : s.copyBlock b c = State.bwrite { s with cache := s.cached b } c (s.contents b) := rfl

/-- **A block that is not being changed and not dirty reads as it is on the disk.** -/
theorem Buffers.contents (h : Buffers start size s pins) (hb : b ∉ pins) (hs : s.Settled b) :
    s.contents b = s.disk b := by
  rw [State.contents]
  cases hu : s.cache b with
  | none => rfl
  | some u =>
    have hd : u.dirty = false := by
      rw [← Bool.not_eq_true, h.dirty b u hu]
      exact hb
    exact h.clean b u hu hd hs

theorem Buffers.settled (h : Buffers start size s pins) (hb : ¬ Home start size b) : s.Settled b :=
  fun p k hk => absurd (h.held b (p, k) hk).1 hb

/-- Without operations nothing is being changed. -/
theorem Buffers.all_settled (h : Buffers start size s pins) (h₀ : ops s.proc = 0) (b : ℕ) : s.Settled b := by
  intro p k hk
  by_contra hne
  obtain ⟨l, hl⟩ := h.changing b p k hk hne
  have := ops_pos hl
  omega

/-- The processes move on. -/
theorem Buffers.move (h : Buffers start size s pins) {lh : List ℕ} {o : ℤ} {cm up : Bool} {ph : Phase}
    {proc : Fin n → Pc} {msg : Option String}
    (hproc : ∀ b q k l, s.holder b = some (q, k) → k ≠ .clean → s.proc q = .inside l → ∃ l, proc q = .inside l) :
    Buffers start size ⟨s.disk, s.cache, s.holder, lh, o, cm, ph, up, proc, msg⟩ pins where
  held := h.held
  changing := by
    intro b q k hk hne
    obtain ⟨l, hl⟩ := h.changing b q k hk hne
    exact hproc b q k l hk hne hl
  clean := h.clean
  dirty := h.dirty
  pinned := h.pinned

theorem Buffers.cached (h : Buffers start size s pins) (b : ℕ) :
    Buffers start size { s with cache := s.cached b } pins where
  held := by
    intro c q hq
    obtain ⟨hc, hu⟩ := h.held c q hq
    refine ⟨hc, ?_⟩
    dsimp only
    by_cases hcb : c = b
    · rw [hcb, cached_self]
      simp
    · rwa [cached_of_ne hcb]
  changing := h.changing
  clean := by
    intro c u hu hd hc
    dsimp only at hu ⊢
    by_cases hcb : c = b
    · subst hcb
      rw [cached_self, Option.some.injEq] at hu
      cases hcache : s.cache c with
      | none =>
        rw [hcache] at hu
        rw [← hu]
        rfl
      | some w =>
        rw [hcache, Option.getD_some] at hu
        exact h.clean c u (hu ▸ hcache) hd hc
    · exact h.clean c u (by rwa [cached_of_ne hcb] at hu) hd hc
  dirty := by
    intro c u hu
    dsimp only at hu
    by_cases hcb : c = b
    · subst hcb
      rw [cached_self, Option.some.injEq] at hu
      cases hcache : s.cache c with
      | none =>
        rw [hcache] at hu
        rw [← hu]
        have : c ∉ pins := fun hp => h.pinned c hp hcache
        simp [this]
      | some w =>
        rw [hcache, Option.getD_some] at hu
        exact h.dirty c u (hu ▸ hcache)
    · exact h.dirty c u (by rwa [cached_of_ne hcb] at hu)
  pinned := by
    intro c hc
    dsimp only
    by_cases hcb : c = b
    · rw [hcb, cached_self]
      simp
    · rw [cached_of_ne hcb]
      exact h.pinned c hc

/-- A buffer is written to the disk, and is dirty no more. -/
theorem Buffers.bwrite (h : Buffers start size s pins) (hp : ∀ c, c ∈ pins' ↔ c ∈ pins ∧ c ≠ b) :
    Buffers start size (s.bwrite b v) pins' where
  held := by
    intro c q hq
    obtain ⟨hc, hu⟩ := h.held c q hq
    refine ⟨hc, ?_⟩
    simp only [State.bwrite]
    by_cases hcb : c = b
    · simp [hcb]
    · rwa [update_of_ne hcb]
  changing := h.changing
  clean := by
    intro c u hu hd hc
    simp only [State.bwrite] at hu ⊢
    by_cases hcb : c = b
    · subst hcb
      rw [update_self, Option.some.injEq] at hu
      rw [update_self, ← hu]
    · rw [update_of_ne hcb] at hu ⊢
      exact h.clean c u hu hd hc
  dirty := by
    intro c u hu
    simp only [State.bwrite] at hu
    rw [hp]
    by_cases hcb : c = b
    · subst hcb
      rw [update_self, Option.some.injEq] at hu
      simp [← hu]
    · rw [update_of_ne hcb] at hu
      rw [h.dirty c u hu]
      simp [hcb]
  pinned := by
    intro c hc
    obtain ⟨hc, hcb⟩ := (hp c).1 hc
    simp only [State.bwrite]
    rw [update_of_ne hcb]
    exact h.pinned c hc

/-- A buffer that nobody changes becomes somebody's, or nobody's. -/
theorem Buffers.hold (h : Buffers start size s pins) (hs : s.Settled b) {q : Option (Fin n × Hold)}
    (hq : ∀ r, q = some r → r.2 = .clean ∧ Home start size b ∧ s.cache b ≠ none) :
    Buffers start size { s with holder := update s.holder b q } pins ∧
      ∀ c, State.Settled { s with holder := update s.holder b q } c ↔ s.Settled c := by
  have hset : ∀ c, State.Settled { s with holder := update s.holder b q } c ↔ s.Settled c := by
    intro c
    by_cases hcb : c = b
    · subst hcb
      refine iff_of_true ?_ hs
      intro p k hk
      dsimp only at hk
      rw [update_self] at hk
      exact (hq _ hk).1
    · simp only [State.Settled, update_of_ne hcb]
  refine ⟨⟨?_, ?_, ?_, h.dirty, h.pinned⟩, hset⟩
  · intro c r hr
    dsimp only at hr
    by_cases hcb : c = b
    · subst hcb
      rw [update_self] at hr
      exact (hq r hr).2
    · rw [update_of_ne hcb] at hr
      exact h.held c r hr
  · intro c p k hk hne
    dsimp only at hk
    by_cases hcb : c = b
    · subst hcb
      rw [update_self] at hk
      exact absurd (hq _ hk).1 hne
    · rw [update_of_ne hcb] at hk
      exact h.changing c p k hk hne
  · intro c u hu hd hc
    exact h.clean c u hu hd ((hset c).1 hc)

/-- A block is being changed. -/
theorem Buffers.change (h : Buffers start size s pins) {k k' : Hold} {u : Buf} (hb : s.holder b = some (p, k))
    (hk : k' ≠ .clean) (hpc : s.proc p = .inside l) (hu : s.cache b = some u) :
    Buffers start size { s with cache := update s.cache b (some { u with data := v }),
                                holder := update s.holder b (some (p, k')) } pins ∧
      ∀ c, State.Settled { s with cache := update s.cache b (some { u with data := v }),
                                  holder := update s.holder b (some (p, k')) } c ↔ c ≠ b ∧ s.Settled c := by
  have hset : ∀ c, State.Settled { s with cache := update s.cache b (some { u with data := v }),
                                          holder := update s.holder b (some (p, k')) } c ↔ c ≠ b ∧ s.Settled c := by
    intro c
    by_cases hcb : c = b
    · subst hcb
      refine iff_of_false ?_ (fun hc => hc.1 rfl)
      intro hc
      exact hk (hc p k' (update_self _ _ _))
    · simp only [State.Settled, update_of_ne hcb]
      exact ⟨fun hc => ⟨hcb, hc⟩, fun hc => hc.2⟩
  refine ⟨⟨?_, ?_, ?_, ?_, ?_⟩, hset⟩
  · intro c r hr
    dsimp only at hr ⊢
    by_cases hcb : c = b
    · subst hcb
      exact ⟨(h.held c _ hb).1, by simp⟩
    · rw [update_of_ne hcb] at hr ⊢
      exact h.held c r hr
  · intro c q k₂ hk₂ hne
    dsimp only at hk₂
    by_cases hcb : c = b
    · subst hcb
      rw [update_self, Option.some.injEq, Prod.mk.injEq] at hk₂
      exact ⟨l, hk₂.1 ▸ hpc⟩
    · rw [update_of_ne hcb] at hk₂
      exact h.changing c q k₂ hk₂ hne
  · intro c w hw hd hc
    obtain ⟨hcb, hc⟩ := (hset c).1 hc
    dsimp only at hw ⊢
    rw [update_of_ne hcb] at hw
    exact h.clean c w hw hd hc
  · intro c w hw
    dsimp only at hw
    by_cases hcb : c = b
    · subst hcb
      rw [update_self, Option.some.injEq] at hw
      rw [← hw]
      exact h.dirty c u hu
    · rw [update_of_ne hcb] at hw
      exact h.dirty c w hw
  · intro c hc
    dsimp only
    by_cases hcb : c = b
    · simp [hcb]
    · rw [update_of_ne hcb]
      exact h.pinned c hc

/-- A block that has been changed is pinned. -/
theorem Buffers.pin (h : Buffers start size s pins) {k : Hold} {u : Buf} (hb : s.holder b = some (p, k))
    (hu : s.cache b = some u) (hp : ∀ c, c ∈ pins' ↔ c ∈ pins ∨ c = b) :
    Buffers start size { s with cache := update s.cache b (some { u with dirty := true }),
                                holder := update s.holder b (some (p, .clean)) } pins' ∧
      ∀ c, State.Settled { s with cache := update s.cache b (some { u with dirty := true }),
                                  holder := update s.holder b (some (p, .clean)) } c ↔ c = b ∨ s.Settled c := by
  have hset : ∀ c, State.Settled { s with cache := update s.cache b (some { u with dirty := true }),
                                          holder := update s.holder b (some (p, .clean)) } c ↔ c = b ∨ s.Settled c := by
    intro c
    by_cases hcb : c = b
    · subst hcb
      refine iff_of_true ?_ (.inl rfl)
      intro q k₂ hk₂
      dsimp only at hk₂
      rw [update_self, Option.some.injEq, Prod.mk.injEq] at hk₂
      exact hk₂.2.symm
    · simp only [State.Settled, update_of_ne hcb, hcb, false_or]
  refine ⟨⟨?_, ?_, ?_, ?_, ?_⟩, hset⟩
  · intro c r hr
    dsimp only at hr ⊢
    by_cases hcb : c = b
    · subst hcb
      exact ⟨(h.held c _ hb).1, by simp⟩
    · rw [update_of_ne hcb] at hr ⊢
      exact h.held c r hr
  · intro c q k₂ hk₂ hne
    dsimp only at hk₂
    by_cases hcb : c = b
    · subst hcb
      rw [update_self, Option.some.injEq, Prod.mk.injEq] at hk₂
      exact absurd hk₂.2.symm hne
    · rw [update_of_ne hcb] at hk₂
      exact h.changing c q k₂ hk₂ hne
  · intro c w hw hd hc
    dsimp only at hw ⊢
    by_cases hcb : c = b
    · subst hcb
      rw [update_self, Option.some.injEq] at hw
      simp [← hw] at hd
    · rw [update_of_ne hcb] at hw
      exact h.clean c w hw hd (((hset c).1 hc).resolve_left hcb)
  · intro c w hw
    dsimp only at hw
    rw [hp]
    by_cases hcb : c = b
    · subst hcb
      rw [update_self, Option.some.injEq] at hw
      simp [← hw]
    · rw [update_of_ne hcb] at hw
      rw [h.dirty c w hw]
      simp [hcb]
  · intro c hc
    dsimp only
    by_cases hcb : c = b
    · simp [hcb]
    · rw [update_of_ne hcb]
      exact h.pinned c (((hp c).1 hc).resolve_right hcb)

theorem Buffers.evict (h : Buffers start size s pins) {u : Buf} (hu : s.cache b = some u) (hd : u.dirty = false)
    (hfree : s.holder b = none) : Buffers start size { s with cache := update s.cache b none } pins where
  held := by
    intro c q hq
    have hcb : c ≠ b := by
      rintro rfl
      simp [hfree] at hq
    dsimp only
    rw [update_of_ne hcb]
    exact h.held c q hq
  changing := h.changing
  clean := by
    intro c w hw hdw hc
    dsimp only at hw ⊢
    by_cases hcb : c = b
    · simp [hcb] at hw
    · rw [update_of_ne hcb] at hw
      exact h.clean c w hw hdw hc
  dirty := by
    intro c w hw
    dsimp only at hw
    by_cases hcb : c = b
    · simp [hcb] at hw
    · rw [update_of_ne hcb] at hw
      exact h.dirty c w hw
  pinned := by
    intro c hc
    have hcb : c ≠ b := by
      rintro rfl
      have := (h.dirty c u hu).2 hc
      simp [hd] at this
    dsimp only
    rw [update_of_ne hcb]
    exact h.pinned c hc

end SdeSystems.Log
