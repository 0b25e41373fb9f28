import SdeSystems.Wmap.Agree

/-!
# What is left of a mapping

A run in which a process takes parts of its mappings away by calls of `wpunmap`, between which it and
the other processes do all else. What is left of a mapping around a given address is one region; its
start is moved by each range in front of the address that is in it, and by nothing else.
-/

namespace SdeSystems.Wmap

open Lib Function

/-! ### Calls of `wpunmap` in a run -/

/-- An operation that leaves the mappings of `p` where they are; no range of a `wpunmap` wraps around. -/
def leaves (p : Fin 64) (_ : Kernel) : Op → Prop
  | .wunmap q _ => q ≠ p
  | .wpunmap q addr length => q ≠ p ∧ NoWrap addr length
  | .exit q => q ≠ p
  | _ => True

/-- A run from `k` in which `p` unmaps only by `wpunmap`, with the ranges of its calls that succeed. -/
inductive Cuts (p : Fin 64) (k : Kernel) : List (BitVec 32 × BitVec 32) → Kernel → Prop
  /-- Nothing has happened. -/
  | refl : Cuts p k [] k
  /-- A call that succeeds. -/
  | cut {cuts : List (BitVec 32 × BitVec 32)} {k₁ k₂ : Kernel} {addr length : BitVec 32} (h : Cuts p k cuts k₁)
    (hwrap : NoWrap addr length) (hw : sysWpunmap k₁ p addr length = some (k₂, 0)) : Cuts p k (cuts ++ [(addr, length)]) k₂
  /-- A call that fails. -/
  | refused {cuts : List (BitVec 32 × BitVec 32)} {k₁ k₂ : Kernel} {addr length : BitVec 32} (h : Cuts p k cuts k₁)
    (hwrap : NoWrap addr length) (hw : sysWpunmap k₁ p addr length = some (k₂, -1)) : Cuts p k cuts k₂
  /-- Any other operation, of `p` or of another process. -/
  | other {cuts : List (BitVec 32 × BitVec 32)} {k₁ k₂ : Kernel} (h : Cuts p k cuts k₁) (hs : Step (leaves p) k₁ k₂) :
    Cuts p k cuts k₂

/-- The process can run, and the region `i` has the address `va` and is what is left, from `start` on, of a mapping
of `f`. -/
structure Piece (pr : Proc) (flags : BitVec 32) (f : ℕ) (va : ℕ) (start : ℕ) (i : Fin 16) : Prop where
  /-- The process can run. -/
  state : pr.state = .runnable
  /-- The start of the region. -/
  addr : (pr.mm.mmaps i).addr = start
  /-- Its flags. -/
  flags : (pr.mm.mmaps i).flags = flags
  /-- Its file. -/
  file : (pr.mm.mmaps i).f = some f
  /-- The address is not in front of it. -/
  lo : start ≤ va
  /-- The address is not behind it. -/
  hi : va < (pr.mm.mmaps i).stop

section

variable {k k' : Kernel} {p q : Fin 64} {l : List (Fin 16)} {pr pr' : Proc} {flags : BitVec 32} {f va start : ℕ}
  {i j : Fin 16} {ret : ℤ}

/-- A region of the list that has an address of another is that one. -/
theorem Table.same {mm : Mmaps} {a : ℕ} (ht : Table mm l) (hi : i ∈ l) (hj : j ∈ l) (hlo : (mm.mmaps i).addr ≤ a)
    (hhi : a < (mm.mmaps i).stop) (hlo' : (mm.mmaps j).addr ≤ a) (hhi' : a < (mm.mmaps j).stop) : j = i := by
  by_contra hne
  have hapart := ht.apart i hi j hj (Ne.symm hne)
  have hle := (ht.region i hi).stop_le_pageEnd
  have hle' := (ht.region j hj).stop_le_pageEnd
  unfold Region.Apart at hapart
  omega

/-- Only what a region covers and maps matters. -/
theorem Piece.congr (h : Piece pr flags f va start i) (hstate : pr'.state = pr.state)
    (hcore : (pr'.mm.mmaps j).core = (pr.mm.mmaps i).core) : Piece pr' flags f va start j := by
  obtain ⟨haddr, hlength, hflags, -, hf, -⟩ := Region.mk.inj hcore
  refine ⟨hstate.trans h.state, haddr.trans h.addr, hflags.trans h.flags, hf.trans h.file, h.lo, ?_⟩
  unfold Region.stop
  rw [haddr, hlength]
  exact h.hi

/-- The slot is in use. -/
theorem Piece.mem (h : Piece pr flags f va start i) (ht : Table pr.mm l) (hva : va < 2 ^ 32 - 1) : i ∈ l := by
  refine (ht.used i).mpr ?_
  have := h.addr
  have := h.lo
  omega

/-- A process is replaced. -/
theorem Piece.put (h : Piece (k.procs p) flags f va start i) (mem : Mem) (fs : Fs)
    (hself : p = q → Piece pr flags f va start i) : Piece ((k.put q pr mem fs).procs p) flags f va start i := by
  by_cases hpq : p = q
  · subst hpq
    rw [Kernel.put_procs_self]
    exact hself rfl
  · rw [Kernel.put_procs_of_ne hpq]
    exact h

theorem Piece.wmap (h : Piece (k.procs p) flags f va start i) (hva : va < 2 ^ 32 - 1) (ht : Table (k.procs q).mm l)
    {addr length flags' fd : BitVec 32} (hw : sysWmap k q addr length flags' fd = some (k', ret)) :
    Piece (k'.procs p) flags f va start i := by
  cases sysWmap_cases ht hw with
  | failed fs => exact h
  | @placed a mm m fd' f' fs hpl =>
    apply h.put _ _
    rintro rfl
    cases hpl with
    | some l₁ l₂ _ hm hmm =>
      -- the new region is in another slot
      have him : i ≠ m := fun him => hm (him ▸ h.mem ht hva)
      refine h.congr rfl ?_
      simp [placed, Mmaps.set, hmm, him]

/-- `wunmap` of another process. -/
theorem Piece.wunmap (h : Piece (k.procs p) flags f va start i) (ht : Table (k.procs q).mm l) (hpq : p ≠ q)
    {addr : BitVec 32} (hw : sysWunmap k q addr = some (k', ret)) : Piece (k'.procs p) flags f va start i := by
  cases sysWunmap_cases ht.toListed hw with
  | failed => exact h
  | removed => exact h.put _ _ fun hself => absurd hself hpq

/-- `wpunmap` of another process. -/
theorem Piece.wpunmap (h : Piece (k.procs p) flags f va start i) (ht : Table (k.procs q).mm l) (hpq : p ≠ q)
    {addr length : BitVec 32} (hwrap : NoWrap addr length) (hw : sysWpunmap k q addr length = some (k', ret)) :
    Piece (k'.procs p) flags f va start i := by
  obtain ⟨pr, mem, fs, l', rfl, -⟩ := wpunmap_table ht hwrap hw
  exact h.put mem fs fun hself => absurd hself hpq

/-- A count of a region is changed. -/
theorem Piece.set {r : Region} (h : Piece pr flags f va start i) (hstate : pr'.state = pr.state)
    (hmm : pr'.mm = pr.mm.set j r) (hr : r.core = (pr.mm.mmaps j).core) : Piece pr' flags f va start i := by
  apply h.congr hstate
  rw [hmm]
  by_cases hij : i = j
  · subst hij
    simpa [Mmaps.set] using hr
  · simp [Mmaps.set, hij]

theorem Piece.fault (h : Piece (k.procs p) flags f va start i) (ht : Table (k.procs q).mm l) {addr : BitVec 32}
    (hw : handlePageFault k q addr = some (k', ret)) : Piece (k'.procs p) flags f va start i := by
  cases handlePageFault_cases ht.toListed hw with
  | failed => exact h
  | noTable =>
    apply h.put _ _
    rintro rfl
    exact h.congr rfl rfl
  | @mapped j _ _ _ ok =>
    apply h.put _ _
    rintro rfl
    cases ok with
    | false => exact h.congr rfl rfl
    | true => exact h.set rfl rfl rfl

theorem Piece.sbrk (h : Piece (k.procs p) flags f va start i) {n : BitVec 32} (hw : sysSbrk k q n = some (k', ret)) :
    Piece (k'.procs p) flags f va start i := by
  obtain rfl | ⟨s, newsz, -, rfl⟩ := sysSbrk_cases hw
  · exact h
  · apply h.put _ _
    rintro rfl
    exact h.congr rfl rfl

/-- `exit` of another process. -/
theorem Piece.exit (h : Piece (k.procs p) flags f va start i) (ht : Table (k.procs q).mm l) (htp : Good false (k.procs p).mm)
    (hpq : p ≠ q) (hw : exit k q = some k') : Piece (k'.procs p) flags f va start i := by
  obtain ⟨-, s, hdel, hex⟩ := exit_cases hw
  refine (hex.other (P := fun pr => Good false pr.mm ∧ Piece pr flags f va start i) ht.toListed hdel hpq ?_ ?_ ⟨htp, h⟩).2
  · rintro pm pm' addr ⟨hg, hpc⟩ hd
    refine ⟨hg.decParent hd, ?_⟩
    obtain ⟨lp, htp, -⟩ := hg
    obtain rfl | ⟨j, -, -, -, rfl⟩ := decParent_cases htp.toListed hd
    · exact hpc
    · exact hpc.set rfl rfl rfl
  · rintro pr ⟨hg, hpc⟩
    rw [reparent_mm]
    exact ⟨hg, hpc.congr reparent_state (by rw [reparent_mm])⟩

theorem Piece.wait (h : Piece (k.procs p) flags f va start i) (hw : wait k q = some (k', ret)) :
    Piece (k'.procs p) flags f va start i := by
  obtain rfl | ⟨c, kstack, mem, -, hz, -, -, rfl⟩ := wait_cases hw
  · exact h
  · -- who can run is no zombie
    apply h.put _ _
    rintro rfl
    rw [h.state] at hz
    cases hz

/-- An operation that leaves the mappings of the process leaves the piece. -/
theorem Piece.run (h : Piece (k.procs p) flags f va start i) (hva : va < 2 ^ 32 - 1) (ht : Tables false k) {op : Op}
    (hp : ∀ q, op.proc = some q → (k.procs q).state = .runnable) (hop : leaves p k op) (hrun : op.run k = some k') :
    Piece (k'.procs p) flags f va start i := by
  have hlive : (k.procs p).state ≠ .unused := by simp [h.state]
  have htable {q : Fin 64} (hrunning : op.proc = some q) : ∃ l, Table (k.procs q).mm l := by
    obtain ⟨l, ht, -⟩ := ht q (by simp [hp q hrunning])
    exact ⟨l, ht⟩
  cases op with
  | wmap q addr length flags' fd =>
    obtain ⟨⟨k₁, r⟩, hw, rfl⟩ := Option.map_eq_some_iff.mp hrun
    obtain ⟨l, ht⟩ := htable rfl
    exact h.wmap hva ht hw
  | wunmap q addr =>
    obtain ⟨⟨k₁, r⟩, hw, rfl⟩ := Option.map_eq_some_iff.mp hrun
    obtain ⟨l, ht⟩ := htable rfl
    exact h.wunmap ht (Ne.symm hop) hw
  | wpunmap q addr length =>
    obtain ⟨⟨k₁, r⟩, hw, rfl⟩ := Option.map_eq_some_iff.mp hrun
    obtain ⟨l, ht⟩ := htable rfl
    exact h.wpunmap ht (Ne.symm hop.1) hop.2 hw
  | fault q addr =>
    obtain ⟨⟨k₁, r⟩, hw, rfl⟩ := Option.map_eq_some_iff.mp hrun
    obtain ⟨l, ht⟩ := htable rfl
    exact h.fault ht hw
  | sbrk q n =>
    obtain ⟨⟨k₁, r⟩, hw, rfl⟩ := Option.map_eq_some_iff.mp hrun
    exact h.sbrk hw
  | fork q =>
    obtain ⟨⟨k₁, r⟩, hw, rfl⟩ := Option.map_eq_some_iff.mp hrun
    dsimp only
    rwa [fork_others hw hlive]
  | exit q =>
    obtain ⟨l, htq⟩ := htable rfl
    exact h.exit htq (ht p hlive) (Ne.symm hop) hrun
  | wait q =>
    obtain ⟨⟨k₁, r⟩, hw, rfl⟩ := Option.map_eq_some_iff.mp hrun
    exact h.wait hw
  | store q va' b =>
    obtain ⟨e, -, rfl⟩ := store_cases hrun
    exact h
  | take =>
    obtain ⟨⟨page, mem⟩, -, rfl⟩ := Option.map_eq_some_iff.mp hrun
    exact h
  | give page =>
    obtain ⟨-, rfl⟩ := give_cases hrun
    exact h

/-- A count of pages is changed. -/
theorem Mmaps.set_core {mm : Mmaps} {n : ℤ} :
    ((mm.set j { mm.mmaps j with nLoadedPages := n }).mmaps i).core = (mm.mmaps i).core := by
  by_cases hij : i = j
  · subst hij
    simp [Mmaps.set, Region.core]
  · simp [Mmaps.set, hij]

/-- A call of `wpunmap` that fails leaves the piece. -/
theorem Piece.refused {addr length : BitVec 32} (h : Piece (k.procs p) flags f va start i)
    (ht : Table (k.procs p).mm l) (hw : sysWpunmap k p addr length = some (k', -1)) :
    Piece (k'.procs p) flags f va start i := by
  generalize hret : (-1 : ℤ) = ret at hw
  cases sysWpunmap_cases ht.toListed hw with
  | failed => exact h
  | @dropped _ _ _ _ out =>
    cases out with
    | none =>
      rw [Kernel.put_procs_self]
      exact h.congr rfl Mmaps.set_core
    | some out => cases hret

/-- What a range does to the start of the piece with the address `va`, in front of which or behind which it lies. -/
def Moves (addr : ℕ) (length : ℤ) (va start start' : ℕ) : Prop :=
  start ≤ addr ∧ addr + length ≤ va ∧ (start' : ℤ) = addr + length ∨ ¬ (start ≤ addr ∧ addr + length ≤ va) ∧ start' = start

/-- What is left of a region has its flags and its file. -/
theorem Piece.resized {mm mm' : Mmaps} {start' : ℕ} {i' : Fin 16} {pr : Proc} (h : Piece { pr with mm := mm } flags f va start i)
    (hflags : (mm'.mmaps i').flags = (mm.mmaps i).flags) (hf : (mm'.mmaps i').f = (mm.mmaps i).f)
    (haddr : (mm'.mmaps i').addr = start') (hlo : start' ≤ va) (hhi : va < (mm'.mmaps i').stop) :
    Piece { pr with mm := mm' } flags f va start' i' :=
  ⟨h.state, haddr, hflags.trans h.flags, hf.trans h.file, hlo, hhi⟩

/-- The end of `wpunmap` for a range of the region that has the piece. -/
theorem Shrinks.own_piece {mm mm' : Mmaps} {pd : PageDir} {fs fs' : Fs} {addr : ℕ} {length : ℤ}
    (hs : Shrinks mm pd fs i addr length (some (mm', fs'))) (ht : Table mm l) (hi : i ∈ l)
    (hold : (mm.mmaps i).Holds addr length) (pr : Proc) (h : Piece { pr with mm := mm } flags f va start i)
    (hrem : ¬ (addr ≤ va ∧ va < addr + length)) :
    ∃ i' start', Piece { pr with mm := mm' } flags f va start' i' ∧ Moves addr length va start start' := by
  have hr := ht.region i hi
  have hend := hr.stop_eq
  have hlo := hold.lo
  have hhi := hold.hi
  have hpos := hold.pos
  have hge := hr.lo
  have hle := hr.hi
  have haddr := h.addr
  have hin := h.lo
  have hin' : va < (mm.mmaps i).stop := h.hi
  dsimp only at haddr
  cases hs with
  | front ha =>
    refine ⟨i, (addr + length).toNat, h.resized ?_ ?_ ?_ (by omega) ?_, ?_⟩
    · simp [Mmaps.set]
    · simp [Mmaps.set]
    · simp [Mmaps.set]
    · simp only [Mmaps.set, update_self]
      unfold Region.stop u32
      dsimp only
      omega
    · unfold Moves
      omega
  | back ha hb =>
    refine ⟨i, start, h.resized ?_ ?_ ?_ hin ?_, ?_⟩
    · simp [Mmaps.set]
    · simp [Mmaps.set]
    · simpa [Mmaps.set] using h.addr
    · simp only [Mmaps.set, update_self]
      unfold Region.stop u32
      dsimp only
      omega
    · unfold Moves
      omega
  | @split j _ ha hb hj' hfs =>
    have hne : i ≠ j := fun hne => ht.not_mem_of_unused hj' (hne ▸ hi)
    by_cases hva : va < addr
    · -- the first of the two parts keeps the slot
      refine ⟨i, start, h.resized ?_ ?_ ?_ hin ?_, ?_⟩
      · simp [splitTable, hne]
      · simp [splitTable, hne]
      · simpa [splitTable, hne] using h.addr
      · simp only [splitTable, update_of_ne hne, update_self]
        unfold Region.stop u32
        dsimp only
        omega
      · unfold Moves
        omega
    · refine ⟨j, (addr + length).toNat, h.resized ?_ ?_ ?_ (by omega) ?_, ?_⟩
      · simp [splitTable]
      · simp [splitTable]
      · simp [splitTable]
      · simp only [splitTable, update_self]
        unfold Region.stop u32
        dsimp only
        omega
      · unfold Moves
        omega

/-- For a range of another region. -/
theorem Shrinks.other_piece {mm mm' : Mmaps} {pd : PageDir} {fs fs' : Fs} {addr : ℕ} {length : ℤ}
    (hs : Shrinks mm pd fs j addr length (some (mm', fs'))) (ht : Table mm l) (hi : i ∈ l) (hij : i ≠ j) (pr : Proc)
    (h : Piece { pr with mm := mm } flags f va start i) : Piece { pr with mm := mm' } flags f va start i := by
  cases hs with
  | front => exact h.congr rfl (by simp [Mmaps.set, hij])
  | back => exact h.congr rfl (by simp [Mmaps.set, hij])
  | @split j' _ _ _ hj' =>
    have hne : i ≠ j' := fun hne => ht.not_mem_of_unused hj' (hne ▸ hi)
    exact h.congr rfl (by simp [splitTable, hij, hne])

/-- The end of `wpunmap`: the piece begins behind the range if the range is in it, in front of the address. -/
theorem Shrinks.piece {mm mm' : Mmaps} {pd : PageDir} {fs fs' : Fs} {addr : ℕ} {length : ℤ}
    (hs : Shrinks mm pd fs j addr length (some (mm', fs'))) (ht : Table mm l) (hi : i ∈ l) (hj : j ∈ l)
    (hold : (mm.mmaps j).Holds addr length) (pr : Proc) (h : Piece { pr with mm := mm } flags f va start i)
    (hrem : ¬ (addr ≤ va ∧ va < addr + length)) :
    ∃ i' start', Piece { pr with mm := mm' } flags f va start' i' ∧ Moves addr length va start start' := by
  by_cases hij : i = j
  · subst hij
    exact hs.own_piece ht hi hold pr h hrem
  · -- a range of another region is not in the piece
    have hout : ¬ (start ≤ addr ∧ addr + length ≤ va) := by
      rintro ⟨hb, hb'⟩
      have hend := (ht.region j hj).stop_eq
      have hlo := hold.lo
      have hhi := hold.hi
      have hpos := hold.pos
      have haddr : (mm.mmaps i).addr = start := h.addr
      have hin : va < (mm.mmaps i).stop := h.hi
      exact hij (ht.same hi hj (by omega) (by omega) hlo (by omega)).symm
    exact ⟨i, start, hs.other_piece ht hi hij pr h, .inr ⟨hout, rfl⟩⟩

/-- A call of `wpunmap` that succeeds, for a range that does not have the address. -/
theorem Piece.cut {addr length : BitVec 32} (h : Piece (k.procs p) flags f va start i) (hva : va < 2 ^ 32 - 1)
    (ht : Table (k.procs p).mm l) (hwrap : NoWrap addr length) (hw : sysWpunmap k p addr length = some (k', 0))
    (hrem : ¬ (addr.toNat ≤ va ∧ va < addr.toNat + length.toInt)) :
    0 < length.toInt ∧ ∃ i' start', Piece (k'.procs p) flags f va start' i' ∧
      Moves addr.toNat length.toInt va start start' := by
  have hi := h.mem ht hva
  generalize hret : (0 : ℤ) = ret at hw
  cases sysWpunmap_cases ht.toListed hw with
  | failed => cases hret
  | @dropped l₁ j l₂ s out hl hlen hal hstop hlo hhi hdrop hshrink =>
    cases out with
    | none => cases hret
    | some out =>
      obtain ⟨mm', fs'⟩ := out
      have hj : j ∈ l := by simp [hl]
      have ht' := ht.set_same (i := j) (r := { (k.procs p).mm.mmaps j with
        nLoadedPages := ((k.procs p).mm.mmaps j).nLoadedPages - s.dropped }) hj rfl rfl
      have hold := Wpunmaps.holds (ht.region j hj) hwrap hlen hal hstop hlo hhi
      have hold' : Region.Holds (((k.procs p).mm.set j { (k.procs p).mm.mmaps j with
          nLoadedPages := ((k.procs p).mm.mmaps j).nLoadedPages - s.dropped }).mmaps j) addr.toNat length.toInt := by
        simp only [Mmaps.set, update_self]
        exact ⟨hold.pos, hold.aligned, hold.stop, hold.lo, hold.hi⟩
      have hshrinks := shrink_cases (ht'.region j hj) hold' hshrink
      refine ⟨hold.pos, ?_⟩
      rw [Kernel.put_procs_self]
      exact hshrinks.piece ht' hi hj hold' { k.procs p with pgdir := s.space.pgdir }
        (h.congr rfl Mmaps.set_core) hrem

/-- **The start of what is left of a mapping** is its base where no range in front of it has been taken away, and it is
behind the base otherwise. -/
theorem Cuts.piece {base : ℕ} {cuts : List (BitVec 32 × BitVec 32)} (h : Cuts p k cuts k') (ht : Tables false k)
    (hpc : Piece (k.procs p) flags f va base i) (hva : va < 2 ^ 32 - 1)
    (hrem : ∀ c ∈ cuts, ¬ (c.1.toNat ≤ va ∧ va < c.1.toNat + c.2.toInt)) :
    Tables false k' ∧ ∃ j start, Piece (k'.procs p) flags f va start j ∧ base ≤ start ∧
      (start = base ↔ ∀ c ∈ cuts, ¬ (base ≤ c.1.toNat ∧ c.1.toNat + c.2.toInt ≤ va)) := by
  have hlive {pr : Proc} {start : ℕ} {j : Fin 16} (h : Piece pr flags f va start j) : pr.state ≠ .unused := by
    simp [h.state]
  induction h with
  | refl => exact ⟨ht, i, base, hpc, le_rfl, by simp⟩
  | @cut cuts k₁ k₂ addr length _ hwrap hw ih =>
    obtain ⟨ht₁, j, start, hpc₁, hle, hiff⟩ := ih fun c hc => hrem c (by simp [hc])
    obtain ⟨l, htp, -⟩ := ht₁ p (hlive hpc₁)
    have hnot : ¬ (addr.toNat ≤ va ∧ va < addr.toNat + length.toInt) := hrem (addr, length) (by simp)
    obtain ⟨hpos, j', start', hpc₂, hmoves⟩ := hpc₁.cut hva htp hwrap hw hnot
    refine ⟨ht₁.wpunmap hpc₁.state hwrap hw, j', start', hpc₂, ?_, ?_⟩
    · unfold Moves at hmoves
      omega
    · simp only [List.forall_mem_append, List.forall_mem_singleton]
      rw [← hiff]
      unfold Moves at hmoves
      omega
  | @refused cuts k₁ k₂ addr length _ hwrap hw ih =>
    obtain ⟨ht₁, j, start, hpc₁, hle⟩ := ih hrem
    obtain ⟨l, htp, -⟩ := ht₁ p (hlive hpc₁)
    exact ⟨ht₁.wpunmap hpc₁.state hwrap hw, j, start, hpc₁.refused htp hw, hle⟩
  | @other cuts k₁ k₂ _ hs ih =>
    obtain ⟨ht₁, j, start, hpc₁, hle⟩ := ih hrem
    obtain ⟨op, hp, hop, hrun⟩ := hs
    refine ⟨ht₁.run hp (fun q addr length he => ⟨rfl, ?_⟩) hrun, j, start, hpc₁.run hva ht₁ hp hop hrun, hle⟩
    subst he
    exact hop.2

end

end SdeSystems.Wmap
