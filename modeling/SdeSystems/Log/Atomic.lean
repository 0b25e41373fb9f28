import SdeSystems.Log.Runs

/-!
# Operations are atomic

The blocks of the file system are a journal: what a crash leaves is the redo of the writes that are durable,
what `bread` finds is the redo of all. The proof is a forward simulation. The invariant speaks of two stores,
`D`, which the recovery of the disk gives, and `C`, which the buffers show; the write of the header is where
`D` becomes `C`, and `begin_op` and `end_op` see to it that no operation is in progress then.

The assumption is that the log has the room that `begin_op` takes it to have: `MAXOPBLOCKS + 2 * m` blocks,
besides the header.
-/

namespace SdeSystems.Log

open Function Lib

variable {n : ℕ} {start size m : ℕ} {s s' : State n} {e : Option (LogEvent n)} {p : Fin n}
  {D C : ℕ → Bytes} {b k : ℕ} {v : Bytes} {l : List ℕ} {ph : Phase}

/-! ### The invariant -/

/-- The blocks whose buffers have to stay. -/
def State.pins (s : State n) : List ℕ :=
  match s.phase with
  | .install k => if s.up then s.lh.drop k else []
  | .erase | .readHead => []
  | _ => s.lh

/-- How far the one is that commits or recovers. -/
def State.OnDisk (start : ℕ) (s : State n) (D C : ℕ → Bytes) : Prop :=
  match s.phase with
  | .writeLog k => readHead (s.disk start) = [] ∧
      ∀ i b, i < k → s.lh[i]? = some b → s.disk (start + i + 1) = C b
  | .writeHead => readHead (s.disk start) = [] ∧ ∀ i b, s.lh[i]? = some b → s.disk (start + i + 1) = C b
  | .install k => readHead (s.disk start) = s.lh ∧ ∀ i b, i < k → s.lh[i]? = some b → s.disk b = D b
  | .erase => readHead (s.disk start) = s.lh ∧ ∀ b ∈ s.lh, s.disk b = D b
  | .readHead => True
  | _ => readHead (s.disk start) = []

/-- **The invariant**, for the store `D` that a crash leaves and the store `C` as it is. -/
structure Safe (start size : ℕ) (s : State n) (D C : ℕ → Bytes) : Prop where
  /-- The disk recovers to `D`. -/
  laid : Laid start size s.disk D (readHead (s.disk start))
  /-- The blocks to commit, or to install. -/
  log : Sound start size s.lh
  /-- The buffers of the blocks to commit stay. -/
  buffers : Buffers start size s s.pins
  /-- `bread` finds `C`. -/
  current : s.up = true → ∀ b, Home start size b → s.Settled b → s.contents b = C b
  /-- Only the blocks to commit differ. -/
  off : ∀ b, Home start size b → s.phase.late = true ∨ b ∉ s.lh → C b = D b
  /-- The writes so far. -/
  onDisk : s.OnDisk start D C

/-- Between the commits nothing is on its way to the disk. -/
def Phase.calm : Phase → Bool
  | .idle | .commit | .finish => true
  | _ => false

theorem late_of_calm (h : ph.calm = true) : ph.late = false := by cases ph <;> simp_all [Phase.calm, Phase.late]

theorem pins_of_early (h : s.phase.late = false) : s.pins = s.lh := by
  rw [State.pins]
  cases hph : s.phase <;> simp_all [Phase.late]

theorem pins_of_calm (h : s.phase.calm = true) : s.pins = s.lh := pins_of_early (late_of_calm h)

theorem pins_install (h : s.phase = .install k) : s.pins = if s.up then s.lh.drop k else [] := by
  rw [State.pins, h]

theorem onDisk_of_calm (h : s.phase.calm = true) : s.OnDisk start D C ↔ readHead (s.disk start) = [] := by
  rw [State.OnDisk]
  cases hph : s.phase <;> simp_all [Phase.calm]

theorem onDisk_writeLog (h : s.phase = .writeLog k) : s.OnDisk start D C ↔ readHead (s.disk start) = [] ∧
    ∀ i b, i < k → s.lh[i]? = some b → s.disk (start + i + 1) = C b := by
  rw [State.OnDisk, h]

theorem onDisk_writeHead (h : s.phase = .writeHead) : s.OnDisk start D C ↔ readHead (s.disk start) = [] ∧
    ∀ i b, s.lh[i]? = some b → s.disk (start + i + 1) = C b := by
  rw [State.OnDisk, h]

theorem onDisk_install (h : s.phase = .install k) : s.OnDisk start D C ↔ readHead (s.disk start) = s.lh ∧
    ∀ i b, i < k → s.lh[i]? = some b → s.disk b = D b := by
  rw [State.OnDisk, h]

theorem onDisk_erase (h : s.phase = .erase) : s.OnDisk start D C ↔ readHead (s.disk start) = s.lh ∧
    ∀ b ∈ s.lh, s.disk b = D b := by
  rw [State.OnDisk, h]

theorem sound_nil (h : 0 < size) : Sound start size [] := ⟨List.nodup_nil, by simp, h⟩

/-- The machine boots. -/
theorem safe_boot {disk : ℕ → Bytes} (h : Laid start size disk D (readHead (disk start))) :
    Safe start size (boot n disk) D D where
  laid := h
  log := sound_nil (by have := h.short; omega)
  buffers := by constructor <;> simp [boot, State.pins]
  current := fun hup => by simp [boot] at hup
  off := fun _ _ _ => rfl
  onDisk := trivial

/-! ### Processes -/

/-- The processes move on. -/
theorem Safe.move (hs : Safe start size s D C) {o : ℤ} {cm : Bool} {proc : Fin n → Pc} {msg : Option String}
    (hproc : ∀ b q k l, s.holder b = some (q, k) → k ≠ .clean → s.proc q = .inside l → ∃ l, proc q = .inside l) :
    Safe start size ⟨s.disk, s.cache, s.holder, s.lh, o, cm, s.phase, s.up, proc, msg⟩ D C :=
  ⟨hs.laid, hs.log, hs.buffers.move hproc, hs.current, hs.off, hs.onDisk⟩

/-- `bread`. -/
theorem Safe.cached (hs : Safe start size s D C) (b : ℕ) : Safe start size { s with cache := s.cached b } D C where
  laid := hs.laid
  log := hs.log
  buffers := hs.buffers.cached b
  current := by
    intro hup c hc hset
    rw [← hs.current hup c hc hset]
    exact elim_cached
  off := hs.off
  onDisk := hs.onDisk

/-- A buffer that nobody changes becomes somebody's, or nobody's. -/
theorem Safe.hold (hs : Safe start size s D C) (hb : s.Settled b) {q : Option (Fin n × Hold)}
    (hq : ∀ r, q = some r → r.2 = .clean ∧ Home start size b ∧ s.cache b ≠ none) :
    Safe start size { s with holder := update s.holder b q } D C := by
  obtain ⟨hbuf, hset⟩ := hs.buffers.hold hb hq
  refine ⟨hs.laid, hs.log, hbuf, ?_, hs.off, hs.onDisk⟩
  intro hup c hc hcs
  exact hs.current hup c hc ((hset c).1 hcs)

/-- A block is being changed. -/
theorem Safe.change (hs : Safe start size s D C) {h : Hold} (h' : Hold) {u : Buf} (hb : s.holder b = some (p, h))
    (hh : h' ≠ .clean) (hpc : s.proc p = .inside l) (hu : s.cache b = some u) :
    Safe start size { s with cache := update s.cache b (some { u with data := v }),
                             holder := update s.holder b (some (p, h')) } D C := by
  obtain ⟨hbuf, hset⟩ := hs.buffers.change hb hh hpc hu
  refine ⟨hs.laid, hs.log, hbuf, ?_, hs.off, hs.onDisk⟩
  intro hup c hc hcs
  obtain ⟨hne, hcs⟩ := (hset c).1 hcs
  rw [← hs.current hup c hc hcs]
  simp only [State.contents, update_of_ne hne]

/-- **`log_write`**: the block that was being changed is now one of the store. -/
theorem Safe.logWrite (hs : Safe start size s D C) {u : Buf} {h : Hold} (hb : s.holder b = some (p, h))
    (hu : s.cache b = some u) (hph : s.phase = .idle) (hshort : (logBlock s.lh b).length < size) :
    Safe start size { s with lh := logBlock s.lh b, cache := update s.cache b (some { u with dirty := true }),
                             holder := update s.holder b (some (p, .clean)) } D (update C b u.data) := by
  have hcalm : s.phase.calm = true := by rw [hph]; rfl
  have hhome := (hs.buffers.held b _ hb).1
  have hpins : ∀ c, c ∈ logBlock s.lh b ↔ c ∈ s.pins ∨ c = b := by
    intro c
    rw [mem_logBlock, pins_of_calm hcalm]
  obtain ⟨hbuf, hset⟩ := hs.buffers.pin hb hu hpins
  refine ⟨hs.laid, ⟨?_, ?_, hshort⟩, ?_, ?_, ?_, ?_⟩
  · dsimp only
    by_cases hmem : b ∈ s.lh
    · rw [logBlock_of_mem hmem]
      exact hs.log.nodup
    · rw [logBlock_of_notMem hmem]
      exact hs.log.nodup.append (List.nodup_singleton b) (by simpa using hmem)
  · intro c hc
    rcases mem_logBlock.1 hc with hc | rfl
    · exact hs.log.home c hc
    · exact hhome
  · rw [pins_of_calm (by exact hcalm)]
    exact hbuf.move fun _ _ _ l _ _ hl => ⟨l, hl⟩
  · intro hup c hc hcs
    by_cases hcb : c = b
    · subst hcb
      simp [State.contents]
    · rw [update_of_ne hcb, ← hs.current hup c hc (((hset c).1 hcs).resolve_left hcb)]
      simp [State.contents, hcb]
  · intro c hc hl
    dsimp only at hl
    rw [late_of_calm hcalm, mem_logBlock, not_or] at hl
    obtain ⟨hl, hcb⟩ := hl.resolve_left (by simp)
    rw [update_of_ne hcb]
    exact hs.off c hc (.inr hl)
  · exact (onDisk_of_calm (by exact hcalm)).2 ((onDisk_of_calm hcalm).1 hs.onDisk)

/-- A buffer is recycled. -/
theorem Safe.evict (hs : Safe start size s D C) {u : Buf} (hu : s.cache b = some u) (hd : u.dirty = false)
    (hfree : s.holder b = none) : Safe start size { s with cache := update s.cache b none } D C where
  laid := hs.laid
  log := hs.log
  buffers := hs.buffers.evict hu hd hfree
  current := by
    intro hup c hc hset
    rw [← hs.current hup c hc hset]
    by_cases hcb : c = b
    · subst hcb
      simp [State.contents, hu, hs.buffers.clean c u hu hd hset]
    · simp [State.contents, hcb]
  off := hs.off
  onDisk := hs.onDisk

/-! ### The commit -/

/-- The commit goes from one phase to another before the header is written. -/
theorem Safe.early (hs : Safe start size s D C) (h : s.phase.late = false) (h' : ph.late = false)
    (hd : State.OnDisk start { s with phase := ph } D C) : Safe start size { s with phase := ph } D C where
  laid := hs.laid
  log := hs.log
  buffers := by
    have hpins : State.pins { s with phase := ph } = s.pins := by
      rw [pins_of_early h]
      exact pins_of_early h'
    rw [hpins]
    exact hs.buffers.move fun _ _ _ l _ _ hl => ⟨l, hl⟩
  current := hs.current
  off := by
    intro b hb hl
    dsimp only at hl
    rw [h'] at hl
    exact hs.off b hb (.inr (hl.resolve_left (by simp)))
  onDisk := hd

/-- A buffer of the log is on the disk and not dirty. -/
theorem Safe.log_block (hs : Safe start size s D C) {i : ℕ} (hi : i < size) :
    ¬ Home start size (start + i) ∧ s.Settled (start + i) := by
  have hnot : ¬ Home start size (start + i) := fun h => h.ne_log hi rfl
  exact ⟨hnot, hs.buffers.settled hnot⟩

/-- What is read after a block is written. -/
theorem Safe.current_bwrite (hs : Safe start size s D C) (hup : s.up = true) {c : ℕ} (hv : Home start size c → v = C c)
    (hb : Home start size b) (hset : s.Settled b) : (s.bwrite c v).contents b = C b := by
  rw [contents_bwrite]
  by_cases hbc : b = c
  · subst hbc
    rw [update_self, hv hb]
  · rw [update_of_ne hbc]
    exact hs.current hup b hb hset

/-- A block is written to the log. -/
theorem Safe.writeLog (hs : Safe start size s D C) (hph : s.phase = .writeLog k) (hb : s.lh[k]? = some b) :
    Safe start size { s.bwrite (start + k + 1) (C b) with phase := .writeLog (k + 1) } D C := by
  have hk := hs.log.lt hb
  have hearly : s.phase.late = false := by rw [hph]; rfl
  have hnot := (hs.log_block hk).1
  rw [← Nat.add_assoc] at hnot
  obtain ⟨hempty, hdone⟩ := (onDisk_writeLog hph).1 hs.onDisk
  have hlaid := hs.laid
  rw [hempty] at hlaid
  have hlaid' := hlaid.writeLog (v := C b) hk
  have hhead : readHead (update s.disk (start + k + 1) (C b) start) = [] := hlaid'.head
  constructor
  · simp only [State.bwrite]
    rw [hhead]
    exact hlaid'
  · exact hs.log
  · rw [pins_of_early (by rfl)]
    apply Buffers.move (s := s.bwrite (start + k + 1) (C b))
    · apply hs.buffers.bwrite
      intro c
      rw [pins_of_early hearly]
      refine ⟨fun hc => ⟨hc, ?_⟩, fun hc => hc.1⟩
      rintro rfl
      exact hnot (hs.log.home _ hc)
    · exact fun _ _ _ l _ _ hl => ⟨l, hl⟩
  · intro hup c hc hset
    exact hs.current_bwrite hup (fun h => absurd h hnot) hc hset
  · intro c hc hl
    exact hs.off c hc (.inr (hl.resolve_left (by simp [Phase.late])))
  · refine ⟨hhead, ?_⟩
    intro i c hi hc
    simp only [State.bwrite]
    by_cases hik : i = k
    · subst hik
      have hcb : b = c := Option.some_inj.1 (hb.symm.trans hc)
      rw [update_self, hcb]
    · rw [update_of_ne (by omega)]
      exact hdone i c (by omega) hc

/-- **The header is written**: the store as it is becomes the one that a crash leaves. -/
theorem Safe.writeHead (hs : Safe start size s D C) (hph : s.phase = .writeHead) (hlen : s.lh.length < 2 ^ 31)
    (hup : s.up = true) :
    Safe start size { s.bwrite start (writeHead v s.lh) with phase := .install 0 } C C := by
  have hearly : s.phase.late = false := by rw [hph]; rfl
  have hsize : 0 < size := by have := hs.log.short; omega
  have hnot := (hs.log_block hsize).1
  rw [Nat.add_zero] at hnot
  obtain ⟨hempty, hdone⟩ := (onDisk_writeHead hph).1 hs.onDisk
  have hlaid := hs.laid
  rw [hempty] at hlaid
  have hlaid' := hlaid.commit (v := v) hs.log hlen hdone fun b hb hL => hs.off b hb (.inr hL)
  have hhead : readHead (update s.disk start (Log.writeHead v s.lh) start) = s.lh := hlaid'.head
  constructor
  · simp only [State.bwrite]
    rw [hhead]
    exact hlaid'
  · exact hs.log
  · rw [pins_install (by rfl)]
    simp only [State.bwrite, hup, if_true, List.drop_zero]
    apply Buffers.move (s := s.bwrite start (Log.writeHead v s.lh))
    · apply hs.buffers.bwrite
      intro c
      rw [pins_of_early hearly]
      refine ⟨fun hc => ⟨hc, ?_⟩, fun hc => hc.1⟩
      rintro rfl
      exact hnot (hs.log.home _ hc)
    · exact fun _ _ _ l _ _ hl => ⟨l, hl⟩
  · intro _ c hc hset
    exact hs.current_bwrite hup (fun h => absurd h hnot) hc hset
  · exact fun _ _ _ => rfl
  · exact ⟨hhead, fun i b hi => absurd hi (by omega)⟩

/-- A block is copied to its home. -/
theorem Safe.install (hs : Safe start size s D C) (hph : s.phase = .install k) (hb : s.lh[k]? = some b) :
    Safe start size { s.bwrite b (s.disk (start + k + 1)) with phase := .install (k + 1) } D C := by
  obtain ⟨hhead, hdone⟩ := (onDisk_install hph).1 hs.onDisk
  have hlaid := hs.laid
  rw [hhead] at hlaid
  have hlaid' := hlaid.install hb
  have hmem := List.mem_of_getElem? hb
  have hv : s.disk (start + k + 1) = D b := hlaid.logged k b hb
  have hsame : D b = C b := (hs.off b (hs.log.home b hmem) (.inl (by rw [hph]; rfl))).symm
  obtain ⟨hk, hbk⟩ := List.getElem?_eq_some_iff.1 hb
  have hdrop : ∀ c, c ∈ s.lh.drop (k + 1) ↔ c ∈ s.lh.drop k ∧ c ≠ b := by
    intro c
    have hcons : s.lh.drop k = b :: s.lh.drop (k + 1) := by rw [← hbk, List.drop_eq_getElem_cons hk]
    have hnd : (s.lh.drop k).Nodup := hs.log.nodup.sublist (List.drop_sublist _ _)
    rw [hcons, List.nodup_cons] at hnd
    rw [hcons, List.mem_cons]
    refine ⟨fun hc => ⟨.inr hc, ?_⟩, fun hc => hc.1.resolve_left hc.2⟩
    rintro rfl
    exact hnd.1 hc
  constructor
  · simp only [State.bwrite]
    rw [hlaid'.head]
    exact hlaid'
  · exact hs.log
  · rw [pins_install (by rfl)]
    apply Buffers.move (s := s.bwrite b (s.disk (start + k + 1)))
    · have hbuf := hs.buffers
      rw [pins_install hph] at hbuf
      apply hbuf.bwrite
      intro c
      simp only [State.bwrite]
      by_cases hup : s.up = true
      · simp only [hup, if_true]
        exact hdrop c
      · simp [hup]
    · exact fun _ _ _ l _ _ hl => ⟨l, hl⟩
  · intro hup c hc hset
    exact hs.current_bwrite hup (fun _ => hv.trans hsame) hc hset
  · intro c hc _
    exact hs.off c hc (.inl (by rw [hph]; rfl))
  · refine ⟨hlaid'.head, ?_⟩
    intro i c hi hc
    simp only [State.bwrite]
    by_cases hcb : c = b
    · rw [hcb, update_self, hv]
    · rw [update_of_ne hcb]
      by_cases hik : i = k
      · subst hik
        exact absurd (Option.some_inj.1 (hc.symm.trans hb)) hcb
      · exact hdone i c (by omega) hc

theorem Safe.installed (hs : Safe start size s D C) (hph : s.phase = .install k) (hk : ¬ k < s.lh.length) :
    Safe start size { s with phase := .erase } D C := by
  obtain ⟨hhead, hdone⟩ := (onDisk_install hph).1 hs.onDisk
  constructor
  · exact hs.laid
  · exact hs.log
  · have hbuf := hs.buffers
    have hnil : s.pins = [] := by
      rw [pins_install hph, List.drop_of_length_le (by omega), ite_self]
    rw [hnil] at hbuf
    exact hbuf.move fun _ _ _ l _ _ hl => ⟨l, hl⟩
  · exact hs.current
  · intro c hc _
    exact hs.off c hc (.inl (by rw [hph]; rfl))
  · refine ⟨hhead, ?_⟩
    intro b hb
    obtain ⟨i, hi⟩ := List.mem_iff_getElem?.1 hb
    have hlt := (List.getElem?_eq_some_iff.1 hi).1
    exact hdone i b (Nat.lt_of_lt_of_le hlt (Nat.not_lt.1 hk)) hi

/-- **The header is erased.** If the machine was booting it is up now, and its disk is what the recovery gave. -/
theorem Safe.erase (hs : Safe start size s D C) (hph : s.phase = .erase) (hset : ∀ b, s.Settled b)
    (hcalm : ph.calm = true) :
    Safe start size { s.bwrite start (Log.writeHead v []) with lh := [], up := true, phase := ph } D C := by
  have hsize : 0 < size := by have := hs.log.short; omega
  have hnot := (hs.log_block hsize).1
  rw [Nat.add_zero] at hnot
  obtain ⟨hhead, hdone⟩ := (onDisk_erase hph).1 hs.onDisk
  have hlaid := hs.laid
  rw [hhead] at hlaid
  have hlaid' := hlaid.erase (v := v) hdone
  have hpins : s.pins = [] := by
    rw [State.pins, hph]
  have hbuf : Buffers start size (s.bwrite start (Log.writeHead v [])) [] := by
    apply (hpins ▸ hs.buffers).bwrite
    simp
  have hhead' : readHead (update s.disk start (Log.writeHead v []) start) = [] := hlaid'.head
  constructor
  · simp only [State.bwrite]
    rw [hhead']
    exact hlaid'
  · exact sound_nil hsize
  · rw [pins_of_calm (by exact hcalm)]
    exact hbuf.move fun _ _ _ l _ _ hl => ⟨l, hl⟩
  · intro _ b hb _
    calc (s.bwrite start (Log.writeHead v [])).contents b
        = (s.bwrite start (Log.writeHead v [])).disk b := hbuf.contents (by simp) (hset b)
      _ = D b := hlaid'.rest b hb (by simp)
      _ = C b := (hs.off b hb (.inl (by rw [hph]; rfl))).symm
  · intro b hb _
    exact hs.off b hb (.inl (by rw [hph]; rfl))
  · exact (onDisk_of_calm (by exact hcalm)).2 hhead'

/-- The header is read. -/
theorem Safe.readHead (hs : Safe start size s D C) (hph : s.phase = .readHead) (hup : s.up = false) :
    Safe start size { s with lh := readHead (s.disk start), phase := .install 0 } D C := by
  have hpins : s.pins = [] := by
    rw [State.pins, hph]
  constructor
  · exact hs.laid
  · exact hs.laid.toSound
  · rw [pins_install (by rfl)]
    simp only [hup, Bool.false_eq_true, if_false]
    exact (hpins ▸ hs.buffers).move fun _ _ _ l _ _ hl => ⟨l, hl⟩
  · intro h
    simp [hup] at h
  · intro b hb _
    exact hs.off b hb (.inl (by rw [hph]; rfl))
  · exact ⟨rfl, fun i b hi => absurd hi (by omega)⟩

/-! ### The simulation -/

/-- The machine and the journal. -/
structure Tied (start size : ℕ) (d : ℕ → Bytes) (s : State n) (j : Journal (Fin n) ℕ Bytes) : Prop where
  /-- The stores are the redo of the writes. -/
  safe : Safe start size s (j.kept d) (j.current d)
  /-- The same operations are in progress. -/
  running : ∀ p, j.running p ≠ none ↔ ∃ l, s.proc p = .inside l
  /-- What is written is in the log until the commit. -/
  pending : s.phase.late = true ∨ s.lh = [] → j.pending = []

variable {d : ℕ → Bytes} {j : Journal (Fin n) ℕ Bytes}

/-- A process that moves outside of operations. -/
theorem inside_update {proc : Fin n → Pc} {pc : Pc} (hpc : ∀ l, proc p ≠ .inside l) (hpc' : ∀ l, pc ≠ .inside l)
    {q : Fin n} {l : List ℕ} : update proc p pc q = .inside l ↔ proc q = .inside l := by
  by_cases hqp : q = p
  · subst hqp
    rw [update_self]
    exact iff_of_false (hpc' l) (hpc l)
  · rw [update_of_ne hqp]

/-- The processes move, and the operations in progress stay. -/
theorem Tied.move (hs : Tied start size d s j) {o : ℤ} {cm : Bool} {proc : Fin n → Pc} {msg : Option String}
    (hproc : ∀ q l, proc q = .inside l ↔ s.proc q = .inside l) :
    Tied start size d ⟨s.disk, s.cache, s.holder, s.lh, o, cm, s.phase, s.up, proc, msg⟩ j where
  safe := hs.safe.move fun _ q _ l _ _ hl => ⟨l, (hproc q l).2 hl⟩
  running := by
    intro q
    rw [hs.running]
    exact exists_congr fun l => (hproc q l).symm
  pending := hs.pending

/-- The commit goes from one phase to another before the header is written. -/
theorem Tied.early (hs : Tied start size d s j) (ph : Phase) (h : s.phase.late = false) (h' : ph.late = false)
    (hd : State.OnDisk start { s with phase := ph } (j.kept d) (j.current d)) :
    Tied start size d { s with phase := ph } j where
  safe := hs.safe.early h h' hd
  running := hs.running
  pending := by
    rintro (hl | hl)
    · exact absurd hl (by simp [h'])
    · exact hs.pending (.inr hl)

/-- A step of a process that shows nothing. -/
theorem ProcStep.tied (h : ProcStep start size m p s none s') (hs : Tied start size d s j) : Tied start size d s' j := by
  cases h with
  | call hpc | wait hpc | spurious hpc =>
    apply hs.move
    intro q l
    apply inside_update <;> simp [hpc]
  | bread b hpc hb hfree =>
    have hset : s.Settled b := by
      intro q k hk
      simp [hfree] at hk
    refine ⟨(hs.safe.cached b).hold hset ?_, hs.running, hs.pending⟩
    rintro r ⟨⟩
    refine ⟨rfl, hb, ?_⟩
    dsimp only
    rw [cached_self]
    simp
  | modify b v hpc hb hu => exact ⟨hs.safe.change _ hb (by simp) hpc hu, hs.running, hs.pending⟩
  | check b hpc hb hm =>
    obtain ⟨u, hu⟩ := Option.ne_none_iff_exists'.1 (hs.safe.buffers.held b _ hb).2
    have hsafe := hs.safe.change (v := u.data) .checked hb (by simp) hpc hu
    have hsame : update s.cache b (some { u with data := u.data }) = s.cache := by
      rw [← hu, update_eq_self]
    rw [hsame] at hsafe
    exact ⟨hsafe, hs.running, hs.pending⟩
  | tooBig | outside | panic => exact hs.move fun _ _ => Iff.rfl
  | brelse b hpc hb =>
    have hset : s.Settled b := by
      intro q k hk
      rw [hb, Option.some_inj, Prod.mk.injEq] at hk
      exact hk.2.symm
    exact ⟨hs.safe.hold hset (by simp), hs.running, hs.pending⟩
  | finish hpc hph =>
    have hcalm : s.phase.calm = true := by rw [hph]; rfl
    have hearly := hs.early .idle (late_of_calm hcalm) rfl ((onDisk_of_calm hcalm).1 hs.safe.onDisk)
    apply hearly.move
    intro q l
    rw [← @inside_wakeup _ s.proc]
    apply inside_update
    · intro l hl
      rw [inside_wakeup, hpc] at hl
      cases hl
    · simp

/-- A step of a commit or of recovery that shows nothing. -/
theorem DiskStep.tied (h : DiskStep start s none s') (hsp : SpaceInv m s) (hs : Tied start size d s j) :
    Tied start size d s' j := by
  have hset : s.phase ≠ .idle → ∀ b, s.Settled b := fun hph => hs.safe.buffers.all_settled (hsp.quiet hph)
  cases h with
  | commitEmpty hph hn =>
    have hcalm : s.phase.calm = true := by rw [hph]; rfl
    exact hs.early _ (late_of_calm hcalm) rfl ((onDisk_of_calm hcalm).1 hs.safe.onDisk)
  | commit hph hn =>
    have hcalm : s.phase.calm = true := by rw [hph]; rfl
    apply hs.early _ (late_of_calm hcalm) rfl
    exact ⟨(onDisk_of_calm hcalm).1 hs.safe.onDisk, fun i b hi => absurd hi (by omega)⟩
  | @writeLog k b hph hb hfree =>
    have hup : s.up = true := by
      by_contra hup
      have := hsp.down (by simpa using hup)
      simp [hph, Phase.late] at this
    have hcont := hs.safe.current hup b (hs.safe.log.home b (List.mem_of_getElem? hb)) (hset (by simp [hph]) b)
    rw [copyBlock_eq, hcont]
    refine ⟨(hs.safe.cached b).writeLog hph hb, hs.running, ?_⟩
    rintro (hl | hl)
    · cases hl
    · exact hs.pending (.inr hl)
  | @written k hph hn =>
    obtain ⟨hempty, hdone⟩ := (onDisk_writeLog hph).1 hs.safe.onDisk
    apply hs.early _ (by rw [hph]; rfl) rfl
    refine ⟨hempty, ?_⟩
    intro i b hi
    have hlt := (List.getElem?_eq_some_iff.1 hi).1
    exact hdone i b (Nat.lt_of_lt_of_le hlt (Nat.not_lt.1 hn)) hi
  | @install k b hph hb hfree =>
    have hk := hs.safe.log.lt hb
    have hnot := (hs.safe.log_block hk).1
    rw [← Nat.add_assoc] at hnot
    have hpins : start + k + 1 ∉ s.pins := by
      rw [pins_install hph]
      split
      · exact fun hmem => hnot (hs.safe.log.home _ (List.mem_of_mem_drop hmem))
      · simp
    rw [copyBlock_eq, hs.safe.buffers.contents hpins (hset (by simp [hph]) _)]
    exact ⟨(hs.safe.cached _).install hph hb, hs.running, fun _ => hs.pending (.inl (by rw [hph]; rfl))⟩
  | installed hph hn => exact ⟨hs.safe.installed hph hn, hs.running, fun _ => hs.pending (.inl (by rw [hph]; rfl))⟩
  | erase hph =>
    refine ⟨hs.safe.erase hph (hset (by simp [hph])) ?_, hs.running, fun _ => hs.pending (.inl (by rw [hph]; rfl))⟩
    split <;> rfl
  | readHead hph =>
    have hsize : 0 < size := by have := hs.safe.log.short; omega
    have hnot := (hs.safe.log_block hsize).1
    rw [Nat.add_zero] at hnot
    have hpins : start ∉ s.pins := by
      rw [State.pins, hph]
      simp
    rw [hs.safe.buffers.contents hpins (hset (by simp [hph]) _)]
    have hsafe := (hs.safe.cached start).readHead hph (hsp.head hph)
    exact ⟨hsafe, hs.running, fun _ => hs.pending (.inl (by rw [hph]; rfl))⟩

/-- A step that shows nothing is one that the journal does not see. -/
theorem Step.tied (h : Step start size m s none s') (hsp : SpaceInv m s) (hs : Tied start size d s j) :
    Tied start size d s' j := by
  cases h with
  | proc p _ _ h => exact h.tied hs
  | disk _ h => exact h.tied hsp hs
  | evict b hu hclean hfree => exact ⟨hs.safe.evict hu hclean hfree, hs.running, hs.pending⟩

theorem running_none (hs : Tied start size d s j) (h : ∀ l, s.proc p ≠ .inside l) : j.running p = none := by
  by_contra hne
  obtain ⟨l, hl⟩ := (hs.running p).1 hne
  exact h l hl

theorem running_some (hs : Tied start size d s j) (h : s.proc p = .inside l) : ∃ o, j.running p = some o :=
  Option.ne_none_iff_exists'.1 ((hs.running p).2 ⟨l, h⟩)

/-- An operation begins. -/
theorem Tied.enter (hs : Tied start size d s j) {o : ℤ} :
    Tied start size d { s with outstanding := o, proc := update s.proc p (.inside []) }
      { j with started := j.started + 1, running := update j.running p (some j.started) } where
  safe := by
    apply hs.safe.move
    intro b q k l _ _ hl
    by_cases hqp : q = p
    · exact ⟨[], by rw [hqp, update_self]⟩
    · exact ⟨l, by rwa [update_of_ne hqp]⟩
  running := by
    intro q
    dsimp only
    by_cases hqp : q = p
    · subst hqp
      simp
    · rw [update_of_ne hqp, update_of_ne hqp]
      exact hs.running q
  pending := hs.pending

/-- An operation is over. -/
theorem Tied.finish (hs : Tied start size d s j) {o : ℤ} {cm : Bool} {proc : Fin n → Pc}
    (hb : ∀ b h, s.holder b ≠ some (p, h)) (hp : ∀ l, proc p ≠ .inside l)
    (hq : ∀ q l, q ≠ p → (proc q = .inside l ↔ s.proc q = .inside l)) :
    Tied start size d { s with outstanding := o, committing := cm, proc := proc }
      { j with running := update j.running p none } where
  safe := by
    apply hs.safe.move
    intro b q k l hk _ hl
    have hqp : q ≠ p := by
      rintro rfl
      exact hb b k hk
    exact ⟨l, (hq q l hqp).2 hl⟩
  running := by
    intro q
    dsimp only
    by_cases hqp : q = p
    · subst hqp
      rw [update_self]
      exact iff_of_false (fun h => h rfl) fun h => hp h.choose h.choose_spec
    · rw [update_of_ne hqp, hs.running]
      exact exists_congr fun l => (hq q l hqp).symm
  pending := hs.pending

/-- **A step that shows an event is one of the journal.** -/
theorem Step.next {ev : LogEvent n} (hm : m ≤ maxOpBlocks) (hsize : maxOpBlocks + 2 * m < size)
    (h : Step start size m s (some ev) s') (hsp : SpaceInv m s) (hs : Tied start size d s j) :
    ∃ j', Journal.Next j ev j' ∧ Tied start size d s' j' := by
  have hsp' := h.space hsp
  cases h with
  | proc p hup _ h =>
    cases h with
    | enter hpc hw => exact ⟨_, .start p (running_none hs (by simp [hpc])), hs.enter⟩
    | @logWrite b l u hpc hb hml hu =>
      obtain ⟨o, ho⟩ := running_some hs hpc
      have hidle := (hsp.inside hpc).2.1
      have hroom := hsp'.room hm hup
      dsimp only at hroom
      have hsafe := hs.safe.logWrite hb hu hidle (by omega)
      refine ⟨_, .write p b u.data ho, ?_, ?_, ?_⟩
      · rw [Journal.current_write]
        apply hsafe.move
        intro c q k l' _ _ hl'
        by_cases hqp : q = p
        · exact ⟨logBlock l b, by rw [hqp, update_self]⟩
        · exact ⟨l', by rwa [update_of_ne hqp]⟩
      · intro q
        dsimp only
        rw [hs.running]
        by_cases hqp : q = p
        · subst hqp
          simp [hpc]
        · rw [update_of_ne hqp]
      · rintro (hl | hl)
        · dsimp only at hl
          rw [hidle] at hl
          cases hl
        · have hmem : b ∈ logBlock s.lh b := mem_logBlock.2 (.inr rfl)
          dsimp only at hl
          simp [hl] at hmem
    | leave hpc hb hc ho =>
      obtain ⟨o, hr⟩ := running_some hs hpc
      refine ⟨_, .finish p hr, hs.finish hb (by simp) ?_⟩
      intro q l hqp
      rw [update_of_ne hqp]
      exact inside_wakeup
    | last hpc hb hc ho =>
      obtain ⟨o, hr⟩ := running_some hs hpc
      have hidle := (hsp.inside hpc).2.1
      have hcalm : s.phase.calm = true := by rw [hidle]; rfl
      have hearly := hs.early .commit (late_of_calm hcalm) rfl ((onDisk_of_calm hcalm).1 hs.safe.onDisk)
      refine ⟨_, .finish p hr, hearly.finish hb (by simp) ?_⟩
      intro q l hqp
      rw [update_of_ne hqp]
  | disk _ h =>
    cases h with
    | writeHead hph =>
      have hup : s.up = true := by
        by_contra hup
        have := hsp.down (by simpa using hup)
        simp [hph, Phase.late] at this
      have h₀ := hsp.quiet (by simp [hph])
      have hnone : ∀ q, j.running q = none := by
        intro q
        apply running_none hs
        intro l hl
        have := ops_pos hl
        omega
      have hroom := hsp.room hm hup
      simp only [maxOpBlocks] at hroom hm
      have hsafe := hs.safe.writeHead (v := s.contents start) hph (by omega) hup
      refine ⟨_, .commit hnone, ?_, hs.running, fun _ => rfl⟩
      rw [Journal.current_of_pending_nil rfl]
      exact hsafe
  | crash =>
    refine ⟨_, .crash, ?_, ?_, fun _ => rfl⟩
    · rw [Journal.current_of_pending_nil rfl]
      exact safe_boot hs.safe.laid
    · intro q
      simp [boot]

/-- The machine at its first boot is an empty journal. -/
theorem tied_boot {disk : ℕ → Bytes} (h : Sound start size (readHead (disk start))) :
    Tied start size (recovered start disk) (boot n disk) .empty :=
  ⟨safe_boot (laid_recovered h), fun p => by simp [Journal.empty, boot], fun _ => rfl⟩

/-- **Operations are atomic, and what is written is durable when no operation is in progress.** -/
theorem Runs.atomic (hm : m ≤ maxOpBlocks) (hsize : maxOpBlocks + 2 * m < size) {disk : ℕ → Bytes}
    (hdisk : Sound start size (readHead (disk start))) {es : List (LogEvent n)} (h : Runs start size m disk es s) :
    ∃ j : Journal (Fin n) ℕ Bytes, Accepts Journal.Next .empty es j ∧ j.Atomic ∧
      (∀ b, Home start size b → recovered start s.disk b = j.kept (recovered start disk) b) ∧
      (s.up = true → ∀ b, Home start size b → s.Settled b → s.contents b = j.current (recovered start disk) b) ∧
      (s.up = true → s.phase = .idle → ∀ b, Home start size b → s.disk b = j.kept (recovered start disk) b) ∧
      (s.up = true → s.phase = .idle → s.outstanding = 0 → j.pending = []) := by
  obtain ⟨j, hj, hs⟩ := Shows.simulates (J := SpaceInv m) (I := Tied start size (recovered start disk))
    (fun _ _ _ h hx => h.space hx) (fun _ _ _ h hx hj => h.tied hx hj)
    (fun _ _ _ _ h hx hj => h.next hm hsize hx hj) h (spaceInv_boot disk) (tied_boot hdisk)
  refine ⟨j, hj, Journal.atomic_of_accepts hj, fun b hb => hs.safe.laid.recovered hb, hs.safe.current, ?_, ?_⟩
  · intro _ hidle b hb
    have hlaid := hs.safe.laid
    rw [(onDisk_of_calm (by rw [hidle]; rfl)).1 hs.safe.onDisk] at hlaid
    exact hlaid.rest b hb (by simp)
  · intro hup hidle ho
    have hsp := Runs.space h
    have h₀ : ops s.proc = 0 := by
      have := hsp.outstanding
      omega
    exact hs.pending (.inr (hsp.empty hidle h₀))

/-- An operation changes the block 100, the power fails after the commit, and the machine recovers. -/
theorem atomic_recovery : ∃ s : State 2,
    Runs 2 30 9 (fun _ _ => 0) [.start 0, .write 0 100 fun _ => 5, .finish 0, .commit, .crash] s ∧
      s.up = true ∧ s.phase = .idle ∧
      ∃ j : Journal (Fin 2) ℕ Bytes,
        Accepts Journal.Next .empty [.start 0, .write 0 100 fun _ => 5, .finish 0, .commit, .crash] j ∧ j.Atomic ∧
        (∀ b, Home 2 30 b → recovered 2 s.disk b = j.kept (recovered 2 fun _ _ => 0) b) ∧
        (s.up = true → ∀ b, Home 2 30 b → s.Settled b → s.contents b = j.current (recovered 2 fun _ _ => 0) b) ∧
        (s.up = true → s.phase = .idle → ∀ b, Home 2 30 b → s.disk b = j.kept (recovered 2 fun _ _ => 0) b) ∧
        (s.up = true → s.phase = .idle → s.outstanding = 0 → j.pending = []) := by
  have hcommitted : Runs (n := 2) 2 30 9 (fun _ _ => 0) _ _ :=
    Shows.refl (R := Step 2 30 9) (boot 2 fun _ _ => 0)
      |>.silent (.disk rfl (.readHead rfl))
      |>.silent (.disk rfl (.installed rfl (by decide)))
      |>.silent (.disk rfl (.erase rfl))
      |>.silent (.proc 0 rfl rfl (.call rfl))
      |>.event (.proc 0 rfl rfl (.enter rfl (by rintro (h | h) <;> exact absurd h (by decide))))
      |>.silent (.proc 0 rfl rfl (.bread 100 (.inr ⟨[], rfl⟩) (by simp [Home]) rfl))
      |>.silent (.proc 0 rfl rfl (.modify 100 (fun _ => 5) rfl rfl rfl))
      |>.silent (.proc 0 rfl rfl (.check 100 rfl rfl (.inr (by decide)) (by rintro (h | h) <;> exact absurd h (by decide))
        (by decide)))
      |>.event (.proc 0 rfl rfl (.logWrite 100 rfl rfl (.inr (by decide)) rfl))
      |>.silent (.proc 0 rfl rfl (.brelse 100 (.inr ⟨_, rfl⟩) rfl))
      |>.event (.proc 0 rfl rfl (.last rfl (by
        intro b h hb
        by_cases hc : b = 100 <;> simp [hc, update_apply, State.bwrite, boot] at hb) rfl rfl))
      |>.silent (.disk rfl (.commit rfl (by decide)))
      |>.silent (.disk rfl (.writeLog rfl rfl rfl))
      |>.silent (.disk rfl (.written rfl (by decide)))
      |>.event (.disk rfl (.writeHead rfl))
      |>.event .crash
  obtain ⟨s, hrec, hrest, -⟩ := recovery_ends (n := 2) 2 30 9 _
  have h := hcommitted.trans hrec
  exact ⟨s, h, hrest.up, hrest.phase, Runs.atomic (by decide) (by decide) (sound_nil (by decide)) h⟩

end SdeSystems.Log
