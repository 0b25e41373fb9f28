import SdeSystems.Log.Machine
import Mathlib.Algebra.BigOperators.Group.Finset.Piecewise
import Mathlib.Algebra.Order.BigOperators.Group.Finset
import Mathlib.Algebra.BigOperators.Fin

/-!
# How full the log gets

`begin_op` lets an operation in where the log has room for `MAXOPBLOCKS` blocks for every operation
that is in, it included. That counts a block twice: an operation that is in may have logged its blocks,
and they count for it as well as for the log. What the test gives is that the blocks logged, with those that
the operations that are in may still log, are at most `MAXOPBLOCKS + 2 * m`, where `m` bounds the blocks
of one operation: a third operation comes in only where nothing is logged, and a second one where at most
`MAXOPBLOCKS` are.
-/

namespace SdeSystems.Log

open Function Lib

variable {n : ℕ} {start size m : ℕ}

/-! ### The blocks logged -/

theorem logBlock_eq (l : List ℕ) (b : ℕ) : logBlock l b = if b ∈ l then l else l ++ [b] := by
  induction l with
  | nil => rfl
  | cons a l ih =>
    rw [logBlock]
    by_cases hab : a = b
    · simp [hab]
    · have hba : ¬ b = a := fun h => hab h.symm
      rw [if_neg hab, ih]
      by_cases hb : b ∈ l <;> simp [hb, hba]

theorem logBlock_of_mem {l : List ℕ} {b : ℕ} (h : b ∈ l) : logBlock l b = l := by rw [logBlock_eq, if_pos h]

theorem logBlock_of_notMem {l : List ℕ} {b : ℕ} (h : b ∉ l) : logBlock l b = l ++ [b] := by
  rw [logBlock_eq, if_neg h]

theorem mem_logBlock {l : List ℕ} {a b : ℕ} : a ∈ logBlock l b ↔ a ∈ l ∨ a = b := by
  by_cases hb : b ∈ l
  · rw [logBlock_of_mem hb]
    exact ⟨.inl, fun h => h.elim id fun h => h ▸ hb⟩
  · rw [logBlock_of_notMem hb, List.mem_append, List.mem_singleton]

/-! ### Operations -/

/-- 1 for an operation. -/
def Pc.count : Pc → ℕ
  | .inside _ => 1
  | _ => 0

/-- The number of blocks that the operation may still log. -/
def Pc.room (m : ℕ) : Pc → ℕ
  | .inside l => m - l.length
  | _ => 0

@[simp] theorem Pc.count_inside {l : List ℕ} : (Pc.inside l).count = 1 := rfl

@[simp] theorem Pc.room_inside {l : List ℕ} : (Pc.inside l).room m = m - l.length := rfl

@[simp] theorem Pc.count_wake (pc : Pc) : pc.wake.count = pc.count := by cases pc <;> rfl

@[simp] theorem Pc.room_wake (pc : Pc) : pc.wake.room m = pc.room m := by cases pc <;> rfl

theorem Pc.room_le (pc : Pc) : pc.room m ≤ pc.count * m := by cases pc <;> simp [Pc.room, Pc.count]

theorem Pc.room_eq_zero {pc : Pc} (h : pc.count = 0) : pc.room m = 0 := by
  have := pc.room_le (m := m)
  simpa [h] using this

theorem inside_wakeup {proc : Fin n → Pc} {p : Fin n} {l : List ℕ} :
    wakeup proc p = .inside l ↔ proc p = .inside l := by
  rw [wakeup]
  cases proc p <;> simp [Pc.wake]

/-- One process moves on. -/
theorem sum_update (f : Pc → ℕ) (proc : Fin n → Pc) (p : Fin n) (pc : Pc) :
    ∑ q, f (update proc p pc q) + f (proc p) = ∑ q, f (proc q) + f pc := by
  have h : ∀ q, f (update proc p pc q) = update (fun q => f (proc q)) p (f pc) q := by
    intro q
    by_cases hq : q = p
    · subst hq
      simp
    · simp [hq]
  simp only [h]
  rw [Finset.sum_update_of_mem (Finset.mem_univ p), ← Finset.add_sum_erase _ _ (Finset.mem_univ p)]
  simp only [Finset.sdiff_singleton_eq_erase]
  omega

/-- The operations in progress. -/
def ops (proc : Fin n → Pc) : ℕ := ∑ p, (proc p).count

/-- The blocks that the operations in progress may still log. -/
def reserve (m : ℕ) (proc : Fin n → Pc) : ℕ := ∑ p, (proc p).room m

section

variable {proc : Fin n → Pc} {p : Fin n} {pc : Pc} {l : List ℕ}

theorem ops_update (proc : Fin n → Pc) (p : Fin n) (pc : Pc) :
    ops (update proc p pc) + (proc p).count = ops proc + pc.count := sum_update _ _ _ _

theorem reserve_update (m : ℕ) (proc : Fin n → Pc) (p : Fin n) (pc : Pc) :
    reserve m (update proc p pc) + (proc p).room m = reserve m proc + pc.room m :=
  sum_update _ _ _ _

@[simp] theorem ops_wakeup : ops (wakeup proc) = ops proc := by simp [ops, wakeup]

@[simp] theorem reserve_wakeup : reserve m (wakeup proc) = reserve m proc := by simp [reserve, wakeup]

theorem reserve_le (m : ℕ) (proc : Fin n → Pc) : reserve m proc ≤ ops proc * m := by
  rw [reserve, ops, Finset.sum_mul]
  exact Finset.sum_le_sum fun p _ => (proc p).room_le

theorem ops_pos (h : proc p = .inside l) : 0 < ops proc := by
  have hle : (proc p).count ≤ ops proc :=
    Finset.single_le_sum (f := fun q => (proc q).count) (fun _ _ => Nat.zero_le _) (Finset.mem_univ p)
  rw [h] at hle
  exact hle

end

/-! ### The invariant -/

/-- The header on the disk names what is to be installed. -/
def Phase.late : Phase → Bool
  | .install _ | .erase | .readHead => true
  | _ => false

/-- **The space in the log.** -/
structure SpaceInv (m : ℕ) (s : State n) : Prop where
  /-- `outstanding` counts the operations. -/
  outstanding : s.outstanding = ops s.proc
  /-- What is logged, and what the operations in progress may still log, where these keep to their bound. -/
  room : m ≤ maxOpBlocks → s.up = true → s.lh.length + reserve m s.proc ≤ maxOpBlocks + 2 * m
  /-- An operation logs `m` blocks at most, and they are in the log. -/
  logged : ∀ p l, s.proc p = .inside l → l.length ≤ m ∧ ∀ b ∈ l, b ∈ s.lh
  /-- `committing` is set while there is a commit. -/
  committing : s.committing = true ↔ s.up = true ∧ s.phase ≠ .idle
  /-- There is no operation then, nor while the machine boots. -/
  quiet : s.phase ≠ .idle → ops s.proc = 0
  /-- Without an operation and without a commit the log is empty. -/
  empty : s.phase = .idle → ops s.proc = 0 → s.lh = []
  /-- So it is at the end of a commit. -/
  finish : s.phase = .finish → s.lh = []
  /-- The machine boots through recovery. -/
  down : s.up = false → s.phase.late = true
  /-- The header is read while it boots. -/
  head : s.phase = .readHead → s.up = false

theorem ops_out : ops (fun _ : Fin n => Pc.out) = 0 := by simp [ops, Pc.count]

theorem spaceInv_boot (disk : ℕ → Bytes) : SpaceInv m (boot n disk) := by
  constructor <;> simp [boot, ops_out, Phase.late]

variable {s s' : State n} {e : Option (LogEvent n)} {p : Fin n}

/-- An operation is in progress only outside of commits. -/
theorem SpaceInv.inside (hs : SpaceInv m s) {l : List ℕ} (h : s.proc p = .inside l) :
    s.up = true ∧ s.phase = .idle ∧ s.committing = false ∧ 0 < s.outstanding := by
  have hpos := ops_pos h
  have hidle : s.phase = .idle := by
    by_contra hne
    have := hs.quiet hne
    omega
  have hup : s.up = true := by
    by_contra hne
    have := hs.down (by simpa using hne)
    rw [hidle] at this
    cases this
  have hc : ¬ s.committing = true := by
    rw [hs.committing]
    exact fun hc => hc.2 hidle
  have ho := hs.outstanding
  exact ⟨hup, hidle, by simpa using hc, by omega⟩

/-- The blocks, their buffers and a panic do not matter. -/
theorem SpaceInv.frame (hs : SpaceInv m s) (disk : ℕ → Bytes) (cache : ℕ → Option Buf)
    (holder : ℕ → Option (Fin n × Hold)) (panicked : Option String) :
    SpaceInv m { s with disk := disk, cache := cache, holder := holder, panicked := panicked } :=
  ⟨hs.outstanding, hs.room, hs.logged, hs.committing, hs.quiet, hs.empty, hs.finish, hs.down, hs.head⟩

/-- One process moves on outside of operations. -/
theorem SpaceInv.move (hs : SpaceInv m s) {pc : Pc} (hpc : (s.proc p).count = 0) (hpc' : pc.count = 0) :
    SpaceInv m { s with proc := update s.proc p pc } := by
  have hops : ops (update s.proc p pc) = ops s.proc := by
    have := ops_update s.proc p pc
    omega
  have hres : reserve m (update s.proc p pc) = reserve m s.proc := by
    have := reserve_update m s.proc p pc
    rw [Pc.room_eq_zero hpc, Pc.room_eq_zero hpc'] at this
    omega
  constructor
  · rw [hops]
    exact hs.outstanding
  · rw [hres]
    exact hs.room
  · intro q l hq
    by_cases hqp : q = p
    · subst hqp
      simp only [update_self] at hq
      simp [hq] at hpc'
    · exact hs.logged q l (by simpa [hqp] using hq)
  · exact hs.committing
  · rw [hops]
    exact hs.quiet
  · rw [hops]
    exact hs.empty
  · exact hs.finish
  · exact hs.down
  · exact hs.head

theorem SpaceInv.enter (hs : SpaceInv m s) (hup : s.up = true) (hpc : s.proc p = .begin)
    (hw : ¬ s.mustWait) :
    SpaceInv m { s with outstanding := s.outstanding + 1, proc := update s.proc p (.inside []) } := by
  have hops := ops_update s.proc p (.inside [])
  have hres := reserve_update m s.proc p (.inside [])
  rw [hpc, Pc.count_inside] at hops
  rw [hpc, Pc.room_inside, List.length_nil] at hres
  simp only [Pc.count, Pc.room, Nat.add_zero, Nat.sub_zero] at hops hres
  have hout := hs.outstanding
  simp only [State.mustWait, not_or, not_lt, logSize, maxOpBlocks] at hw
  obtain ⟨hc, hw⟩ := hw
  have hidle : s.phase = .idle := by
    by_contra hne
    exact hc (hs.committing.2 ⟨hup, hne⟩)
  -- One operation may find ten blocks in the log, two none.
  have hroom (hm : m ≤ maxOpBlocks) : s.lh.length + reserve m s.proc + m ≤ maxOpBlocks + 2 * m := by
    have hle := reserve_le m s.proc
    simp only [maxOpBlocks] at hm ⊢
    rcases Nat.eq_zero_or_pos (ops s.proc) with h₀ | h₀
    · rw [h₀] at hle
      simp only [hs.empty hidle h₀, List.length_nil]
      omega
    · rcases Nat.lt_or_ge (ops s.proc) 2 with h₁ | h₁
      · have h₁ : ops s.proc = 1 := by omega
        rw [h₁] at hle
        omega
      · have h₂ : ops s.proc = 2 := by omega
        rw [h₂] at hle
        omega
  constructor
  · rw [hops, hout]
    rfl
  · intro hm _
    rw [hres, ← Nat.add_assoc]
    exact hroom hm
  · intro q l hq
    by_cases hqp : q = p
    · subst hqp
      simp only [update_self, Pc.inside.injEq] at hq
      simp [← hq]
    · exact hs.logged q l (by simpa [hqp] using hq)
  · exact hs.committing
  · exact fun h => absurd hidle h
  · intro _ h
    rw [hops] at h
    omega
  · exact hs.finish
  · exact hs.down
  · exact hs.head

theorem SpaceInv.logWrite (hs : SpaceInv m s) {b : ℕ} {l : List ℕ} (hpc : s.proc p = .inside l)
    (hm : b ∈ l ∨ l.length < m) :
    SpaceInv m { s with lh := logBlock s.lh b, proc := update s.proc p (.inside (logBlock l b)) } := by
  have hops := ops_update s.proc p (.inside (logBlock l b))
  have hres := reserve_update m s.proc p (.inside (logBlock l b))
  rw [hpc, Pc.count_inside, Pc.count_inside, Nat.add_right_cancel_iff] at hops
  rw [hpc, Pc.room_inside, Pc.room_inside] at hres
  obtain ⟨hup, hidle, -, -⟩ := hs.inside hpc
  obtain ⟨hlen, hsub⟩ := hs.logged p l hpc
  -- A block that is new to the log is new to the operation.
  have hgrow : (logBlock s.lh b).length + (m - (logBlock l b).length) ≤ s.lh.length + (m - l.length) ∧
      (logBlock l b).length ≤ m := by
    by_cases hb : b ∈ l
    · rw [logBlock_of_mem hb, logBlock_of_mem (hsub b hb)]
      exact ⟨le_rfl, hlen⟩
    · have hlt := hm.resolve_left hb
      rw [logBlock_of_notMem hb, List.length_append, List.length_singleton, logBlock_eq]
      split
      · omega
      · rw [List.length_append, List.length_singleton]
        omega
  constructor
  · rw [hops]
    exact hs.outstanding
  · intro hm hu
    have := hs.room hm hu
    dsimp only
    omega
  · intro q k hq
    by_cases hqp : q = p
    · subst hqp
      simp only [update_self, Pc.inside.injEq] at hq
      subst hq
      refine ⟨hgrow.2, ?_⟩
      intro a ha
      rw [mem_logBlock] at ha ⊢
      exact ha.imp_left (hsub a)
    · have hk := hs.logged q k (by simpa [hqp] using hq)
      exact ⟨hk.1, fun a ha => mem_logBlock.2 (.inl (hk.2 a ha))⟩
  · exact hs.committing
  · exact fun h => absurd hidle h
  · intro _ h
    rw [hops] at h
    have := ops_pos hpc
    omega
  · intro h
    rw [hidle] at h
    cases h
  · exact hs.down
  · exact hs.head

/-- The operation of `p` is over, and `p` is in no other. -/
theorem ops_over {proc : Fin n → Pc} {l : List ℕ} (pc : Pc) (hpc : proc p = .inside l) (h₀ : pc.count = 0) :
    ops (update proc p pc) + 1 = ops proc ∧ reserve m (update proc p pc) ≤ reserve m proc := by
  have hops := ops_update proc p pc
  have hres := reserve_update m proc p pc
  rw [hpc, Pc.count_inside, h₀] at hops
  rw [hpc, Pc.room_eq_zero h₀] at hres
  exact ⟨hops, by omega⟩

theorem SpaceInv.leave (hs : SpaceInv m s) {l : List ℕ} (hpc : s.proc p = .inside l)
    (ho : s.outstanding - 1 ≠ 0) :
    SpaceInv m { s with outstanding := s.outstanding - 1, proc := update (wakeup s.proc) p .out } := by
  obtain ⟨hup, hidle, -, -⟩ := hs.inside hpc
  obtain ⟨hops, hres⟩ := ops_over (m := m) .out (inside_wakeup.2 hpc) rfl
  rw [ops_wakeup] at hops
  rw [reserve_wakeup] at hres
  have hout := hs.outstanding
  constructor
  · dsimp only
    omega
  · intro hm hu
    have := hs.room hm hu
    dsimp only
    omega
  · intro q k hq
    by_cases hqp : q = p
    · subst hqp
      simp at hq
    · simp only [update_of_ne hqp] at hq
      exact hs.logged q k (inside_wakeup.1 hq)
  · exact hs.committing
  · exact fun h => absurd hidle h
  · intro _ h
    dsimp only at h
    omega
  · exact hs.finish
  · exact hs.down
  · exact hs.head

theorem SpaceInv.last (hs : SpaceInv m s) {l : List ℕ} (hpc : s.proc p = .inside l)
    (ho : s.outstanding - 1 = 0) :
    SpaceInv m { s with outstanding := s.outstanding - 1, committing := true, phase := .commit,
                        proc := update s.proc p .committing } := by
  obtain ⟨hup, -, -, -⟩ := hs.inside hpc
  obtain ⟨hops, hres⟩ := ops_over (m := m) .committing hpc rfl
  have hout := hs.outstanding
  constructor
  · dsimp only
    omega
  · intro hm hu
    have := hs.room hm hu
    dsimp only
    omega
  · intro q k hq
    by_cases hqp : q = p
    · subst hqp
      simp at hq
    · exact hs.logged q k (by simpa [hqp] using hq)
  · simp [hup]
  · intro _
    dsimp only
    omega
  · intro h
    cases h
  · intro h
    cases h
  · exact fun h => absurd hup (by simpa using h)
  · intro h
    cases h

theorem SpaceInv.done (hs : SpaceInv m s) (hpc : s.proc p = .committing) (hph : s.phase = .finish)
    (hup : s.up = true) :
    SpaceInv m { s with committing := false, phase := .idle, proc := update (wakeup s.proc) p .out } := by
  have hops := ops_update (wakeup s.proc) p .out
  have hres := reserve_update m (wakeup s.proc) p .out
  have hp : wakeup s.proc p = .committing := by rw [wakeup, hpc]; rfl
  rw [hp, ops_wakeup] at hops
  rw [hp, reserve_wakeup] at hres
  simp only [Pc.count, Pc.room, Nat.add_zero] at hops hres
  constructor
  · rw [hops]
    exact hs.outstanding
  · rw [hres]
    exact hs.room
  · intro q k hq
    by_cases hqp : q = p
    · subst hqp
      simp at hq
    · simp only [update_of_ne hqp] at hq
      exact hs.logged q k (inside_wakeup.1 hq)
  · simp
  · exact fun h => absurd rfl h
  · exact fun _ _ => hs.finish hph
  · intro h
    cases h
  · exact fun h => absurd hup (by simpa using h)
  · intro h
    cases h

/-- The commit goes on, or the recovery; the log stays, or nothing is in it. -/
theorem SpaceInv.goOn (hs : SpaceInv m s) (hph : s.phase ≠ .idle) (disk : ℕ → Bytes) (cache : ℕ → Option Buf)
    (lh : List ℕ) (ph : Phase) (hne : ph ≠ .idle) (hlh : s.up = true → lh = s.lh ∨ lh = [])
    (hfin : ph = .finish → lh = []) (hhead : ph ≠ .readHead) (hlate : s.up = false → ph.late = true) :
    SpaceInv m { s with disk := disk, cache := cache, lh := lh, phase := ph } := by
  have h₀ := hs.quiet hph
  constructor
  · exact hs.outstanding
  · intro hm hu
    have := hs.room hm hu
    dsimp only
    rcases hlh hu with rfl | rfl
    · exact this
    · rw [List.length_nil]
      omega
  · intro p l h
    have := ops_pos h
    dsimp only at this
    omega
  · rw [hs.committing]
    simp [hph, hne]
  · exact fun _ => h₀
  · exact fun h => absurd h hne
  · exact hfin
  · exact hlate
  · exact fun h => absurd h hhead

/-- The machine is up. -/
theorem SpaceInv.booted (hs : SpaceInv m s) (hph : s.phase ≠ .idle) (hup : s.up = false) :
    SpaceInv m { s with phase := .idle, lh := [], up := true } := by
  have h₀ := hs.quiet hph
  have hres := reserve_le m s.proc
  rw [h₀, Nat.zero_mul] at hres
  constructor
  · exact hs.outstanding
  · intro _ _
    dsimp only [List.length_nil]
    omega
  · intro p l h
    have := ops_pos h
    dsimp only at this
    omega
  · rw [hs.committing]
    simp [hup]
  · exact fun _ => h₀
  · exact fun _ _ => rfl
  · intro h
    cases h
  · intro h
    cases h
  · intro h
    cases h

/-- **A step of a process keeps the space.** -/
theorem ProcStep.space (h : ProcStep start size m p s e s') (hup : s.up = true)
    (hs : SpaceInv m s) : SpaceInv m s' := by
  cases h with
  | call hpc | wait hpc | spurious hpc => exact hs.move (by rw [hpc]; rfl) rfl
  | enter hpc hw => exact hs.enter hup hpc hw
  | logWrite b hpc _ hb => exact (hs.logWrite hpc hb).frame _ _ _ _
  | leave hpc _ _ ho => exact hs.leave hpc ho
  | last hpc _ _ ho => exact hs.last hpc ho
  | finish hpc hph => exact hs.done hpc hph hup
  | bread | modify | check | tooBig | outside | brelse | panic => exact hs.frame _ _ _ _

/-- **A step of a commit, or of recovery, keeps it.** -/
theorem DiskStep.space (h : DiskStep start s e s') (hs : SpaceInv m s) : SpaceInv m s' := by
  have hup : s.phase.late = false → s.up = true := by
    intro hl
    by_contra hup
    simp [hs.down (by simpa using hup)] at hl
  cases h with
  | commitEmpty hph hn =>
    have hlh : s.lh = [] := List.length_eq_zero_iff.1 (by omega)
    have hup := hup (by rw [hph]; rfl)
    apply hs.goOn (by simp [hph]) _ _ _ .finish <;> simp [hlh, hup]
  | commit hph =>
    have hup := hup (by rw [hph]; rfl)
    apply hs.goOn (by simp [hph]) _ _ _ (.writeLog 0) <;> simp [hup]
  | @writeLog k _ hph =>
    have hup := hup (by rw [hph]; rfl)
    apply hs.goOn (by simp [hph]) _ _ s.lh (.writeLog (k + 1)) <;> simp [hup]
  | written hph =>
    have hup := hup (by rw [hph]; rfl)
    apply hs.goOn (by simp [hph]) _ _ _ .writeHead <;> simp [hup]
  | writeHead hph => apply hs.goOn (by simp [hph]) _ _ s.lh (.install 0) <;> simp [Phase.late]
  | @install k _ hph => apply hs.goOn (by simp [hph]) _ _ s.lh (.install (k + 1)) <;> simp [Phase.late]
  | installed hph => apply hs.goOn (by simp [hph]) _ _ _ .erase <;> simp [Phase.late]
  | erase hph =>
    have hne : s.phase ≠ .idle := by simp [hph]
    cases hup : s.up with
    | true =>
      have hfin := hs.goOn hne (s.bwrite start (Log.writeHead (s.contents start) [])).disk
        (s.bwrite start (Log.writeHead (s.contents start) [])).cache [] .finish (by simp) (by simp) (by simp)
        (by simp) (by simp [hup])
      rw [hup] at hfin
      exact hfin
    | false => exact (hs.frame _ _ _ _).booted hne hup
  | readHead hph =>
    have hup := hs.head hph
    apply hs.goOn (by simp [hph]) s.disk (s.cached start) _ (.install 0) <;> simp [hup, Phase.late]

/-- **A step of the machine keeps the space.** -/
theorem Step.space (h : Step start size m s e s') (hs : SpaceInv m s) : SpaceInv m s' := by
  cases h with
  | proc p hup _ h => exact h.space hup hs
  | disk _ h => exact h.space hs
  | evict => exact hs.frame _ _ _ _
  | crash => exact spaceInv_boot _

theorem Runs.space {disk : ℕ → Bytes} {es : List (LogEvent n)} (h : Runs start size m disk es s) : SpaceInv m s :=
  Shows.inv (fun _ _ _ hs hx => hs.space hx) h (spaceInv_boot disk)

end SdeSystems.Log
