import SdeSystems.Wmap.Calls
import SdeSystems.Wmap.CopyMaps

/-!
# What `fork`, `exit`, `wait` and `sbrk` can do

The cases of the functions of `proc.c`, as `Calls` has them for the system calls of `wmap.c`, and from
them the rules for what holds of every process.
-/

namespace SdeSystems.Wmap

open Lib Function

variable {k k' : Kernel} {p q : Fin 64} {ret : ℤ}

/-! ### `fork` -/

theorem unusedProc_some (h : unusedProc k = some q) : (k.procs q).state = .unused := by
  simpa using List.find?_some h

/-- The child in the slot `q`, with its page directory. -/
def child (k : Kernel) (p q : Fin 64) (kstack : ℕ) (d : PageDir) (mm : Mmaps) (state : ProcState) : Proc where
  sz := (k.procs p).sz
  pgdir := d
  kstack := if state = .unused then none else some kstack
  state := state
  pid := k.nextpid
  parent := some p
  ofile i := ((k.procs p).ofile i).or ((k.procs q).ofile i)
  mm := mm

/-- What `fork` can do. -/
inductive Forks (k : Kernel) (p : Fin 64) : Kernel → ℤ → Prop
  /-- There is no slot. -/
  | noSlot : Forks k p k (-1)
  /-- There is no page for the kernel stack. -/
  | noStack {q : Fin 64} (hq : unusedProc k = some q) (hstack : kalloc k.mem = none) (pr : Proc)
    (hpr : pr.state = .unused) :
    Forks k p { k.put q pr k.mem k.fs with nextpid := k.nextpid + 1 } (-1)
  /-- The memory of the parent could not be copied. -/
  | noCopy {q : Fin 64} {kstack : ℕ} {mem mem' : Mem} (hq : unusedProc k = some q)
    (hstack : kalloc k.mem = some (kstack, mem))
    (hcopy : copyuvm mem (k.procs p).pgdir (k.procs p).sz = some (mem', none)) (pr : Proc)
    (hpr : pr.state = .unused) :
    Forks k p { k.put q pr (kfree mem' kstack) k.fs with nextpid := k.nextpid + 1 } (-1)
  /-- The mappings could not be copied. -/
  | noMaps {q : Fin 64} {kstack : ℕ} {mem mem₁ mem₂ : Mem} {d : PageDir} {fs : Fs} {s : Copy}
    (hq : unusedProc k = some q) (hstack : kalloc k.mem = some (kstack, mem))
    (hcopy : copyuvm mem (k.procs p).pgdir (k.procs p).sz = some (mem₁, some d))
    (hdup : dupFiles k.fs (k.procs p).ofile = some fs)
    (hmaps : copyMaps (k.procs p).mm (k.procs p).pgdir 16 (k.procs p).mm.mmapHead ⟨⟨mem₁, d⟩, fs, initMmaps, none⟩ =
      some (s, false))
    (hfree : freevm ⟨kfree s.space.mem kstack, s.space.pgdir⟩ = some mem₂) :
    Forks k p { k.put q (child k p q kstack s.space.pgdir s.mm .unused) mem₂ s.fs with nextpid := k.nextpid + 1 } (-1)
  /-- There is a child. -/
  | forked {q : Fin 64} {kstack : ℕ} {mem mem₁ : Mem} {d : PageDir} {fs : Fs} {s : Copy}
    (hq : unusedProc k = some q) (hstack : kalloc k.mem = some (kstack, mem))
    (hcopy : copyuvm mem (k.procs p).pgdir (k.procs p).sz = some (mem₁, some d))
    (hdup : dupFiles k.fs (k.procs p).ofile = some fs)
    (hmaps : copyMaps (k.procs p).mm (k.procs p).pgdir 16 (k.procs p).mm.mmapHead ⟨⟨mem₁, d⟩, fs, initMmaps, none⟩ =
      some (s, true)) :
    Forks k p { k.put q (child k p q kstack s.space.pgdir s.mm .runnable) s.space.mem s.fs with
      nextpid := k.nextpid + 1 } k.nextpid

theorem fork_cases (h : fork k p = some (k', ret)) : Forks k p k' ret := by
  unfold fork at h
  dsimp only at h
  split at h
  · obtain ⟨rfl, rfl⟩ := Prod.mk.inj (Option.some.inj h)
    exact .noSlot
  · rename_i q hq
    split at h
    · rename_i hstack
      obtain ⟨rfl, rfl⟩ := Prod.mk.inj (Option.some.inj h)
      exact .noStack hq hstack _ (unusedProc_some hq)
    · rename_i kstack mem hstack
      split at h
      · cases h
      · rename_i mem' hcopy
        obtain ⟨rfl, rfl⟩ := Prod.mk.inj (Option.some.inj h)
        exact .noCopy hq hstack hcopy _ rfl
      · rename_i mem₁ d hcopy
        unfold forkMaps at h
        dsimp only at h
        split at h
        · cases h
        · rename_i fs hdup
          split at h
          · cases h
          · rename_i s hmaps
            obtain ⟨mem₂, hfree, hk⟩ := Option.map_eq_some_iff.mp h
            obtain ⟨rfl, rfl⟩ := Prod.mk.inj hk
            exact .noMaps hq hstack hcopy hdup hmaps hfree
          · rename_i s hmaps
            obtain ⟨rfl, rfl⟩ := Prod.mk.inj (Option.some.inj h)
            exact .forked hq hstack hcopy hdup hmaps

/-- `fork` leaves the processes there are as they are. -/
theorem fork_others (h : fork k p = some (k', ret)) (hq : (k.procs q).state ≠ .unused) : k'.procs q = k.procs q := by
  have hne {c : Fin 64} (hc : unusedProc k = some c) : q ≠ c := fun hqc => hq (hqc ▸ unusedProc_some hc)
  cases fork_cases h with
  | noSlot => rfl
  | noStack hc | noCopy hc | noMaps hc | forked hc => exact update_of_ne (hne hc) _ _

/-! ### `exit` and `wait` -/

/-- The kernel after `exit` of `p`, `s` being what `delete_mmaps` leaves: the other processes have the tables they
had, or, for the parent, the one that `delete_mmaps` leaves. -/
structure Exits (k : Kernel) (p : Fin 64) (s : Deletion) (k' : Kernel) : Prop where
  /-- Memory. -/
  mem : k'.mem = s.space.mem
  /-- Its descriptors are closed. -/
  fs : closeFiles s.fs (k.procs p).ofile = some k'.fs
  /-- The pages of the rest of the kernel. -/
  kpages : k'.kpages = k.kpages
  /-- The next pid. -/
  nextpid : k'.nextpid = k.nextpid
  /-- The page directory of the process. -/
  pgdir : (k'.procs p).pgdir = s.space.pgdir
  /-- Its table. -/
  mm : (k'.procs p).mm = s.mm
  /-- It is a zombie. -/
  state : (k'.procs p).state = .zombie
  /-- Its kernel stack. -/
  kstack : (k'.procs p).kstack = (k.procs p).kstack
  /-- Its size. -/
  sz : (k'.procs p).sz = (k.procs p).sz
  /-- The other processes. -/
  others : ∀ q ≠ p, ∃ mm, k'.procs q = reparent p { k.procs q with mm := mm } ∧
    (mm = (k.procs q).mm ∨ (k.procs p).parent = some q ∧ s.parent = some mm)

theorem reparent_mm {pr : Proc} : (reparent p pr).mm = pr.mm := by
  unfold reparent
  split <;> rfl

theorem reparent_state {pr : Proc} : (reparent p pr).state = pr.state := by
  unfold reparent
  split <;> rfl

theorem reparent_pgdir {pr : Proc} : (reparent p pr).pgdir = pr.pgdir := by
  unfold reparent
  split <;> rfl

theorem reparent_kstack {pr : Proc} : (reparent p pr).kstack = pr.kstack := by
  unfold reparent
  split <;> rfl

theorem reparent_ofile {pr : Proc} : (reparent p pr).ofile = pr.ofile := by
  unfold reparent
  split <;> rfl

theorem reparent_sz {pr : Proc} : (reparent p pr).sz = pr.sz := by
  unfold reparent
  split <;> rfl

/-- The deletion that `exit` of `p` begins with. -/
def deletion (k : Kernel) (p : Fin 64) : Deletion :=
  ⟨⟨k.mem, (k.procs p).pgdir⟩, k.fs, (k.procs p).mm, (k.procs p).parent.map fun q => (k.procs q).mm⟩

/-- What `exit` does. -/
theorem exit_cases (h : exit k p = some k') :
    p ≠ 0 ∧ ∃ s, deleteMmaps (deletion k p) = some s ∧ Exits k p s k' := by
  unfold exit at h
  dsimp only at h
  split at h
  · cases h
  · rename_i hp
    split at h
    · cases h
    · rename_i s hs
      split at h
      · cases h
      · rename_i fs hfs
        obtain rfl := Option.some.inj h
        refine ⟨hp, s, hs, rfl, hfs, rfl, rfl, ?_, ?_, ?_, ?_, ?_, ?_⟩
        · rw [reparent_pgdir, update_self]
        · rw [reparent_mm, update_self]
        · rw [reparent_state, update_self]
        · rw [reparent_kstack, update_self]
        · rw [reparent_sz, update_self]
        · intro q hq
          dsimp only
          rw [update_of_ne hq]
          cases hpar : (k.procs p).parent with
          | none => exact ⟨(k.procs q).mm, rfl, .inl rfl⟩
          | some q' =>
            cases hpm : s.parent with
            | none => exact ⟨(k.procs q).mm, rfl, .inl rfl⟩
            | some pm =>
              by_cases hqq : q = q'
              · subst hqq
                exact ⟨pm, by simp [withParent], .inr ⟨rfl, rfl⟩⟩
              · exact ⟨(k.procs q).mm, by simp [withParent, hqq], .inl rfl⟩

/-- What does not depend on a count of references holds of the tables of the others after `exit`. -/
theorem Exits.other {P : Proc → Prop} {l : List (Fin 16)} {s : Deletion} (h : Exits k p s k')
    (hl : Listed (k.procs p).mm l) (hdel : deleteMmaps (deletion k p) = some s) (hq : q ≠ p)
    (hdec : ∀ pm pm' addr, P { k.procs q with mm := pm } → decParent pm addr = some pm' → P { k.procs q with mm := pm' })
    (hrep : ∀ pr, P pr → P (reparent p pr)) (hP : P (k.procs q)) : P (k'.procs q) := by
  obtain ⟨mm, hmm, rfl | ⟨hpar, hpm⟩⟩ := h.others q hq
  · rw [hmm]
    exact hrep _ hP
  · rw [hmm]
    refine hrep _ (deleteMmaps_parent (P := fun pm => P { k.procs q with mm := pm }) hl hdec hdel ?_ mm hpm)
    intro pm hpm
    obtain rfl : (k.procs q).mm = pm := by simpa [deletion, hpar] using hpm
    exact hP

theorem Exits.other_state {s : Deletion} (h : Exits k p s k') (hq : q ≠ p) :
    (k'.procs q).state = (k.procs q).state := by
  obtain ⟨mm, hmm, -⟩ := h.others q hq
  rw [hmm, reparent_state]

/-- What `wait` can do: nothing, or it frees a zombie. -/
theorem wait_cases (h : wait k p = some (k', ret)) :
    k' = k ∨ ∃ q kstack mem, (k.procs q).parent = some p ∧ (k.procs q).state = .zombie ∧
      (k.procs q).kstack = some kstack ∧ freevm ⟨kfree k.mem kstack, (k.procs q).pgdir⟩ = some mem ∧
      k' = k.put q { k.procs q with kstack := none, pid := 0, parent := none, state := .unused } mem k.fs := by
  unfold wait at h
  split at h
  · obtain ⟨rfl, -⟩ := Prod.mk.inj (Option.some.inj h)
    exact .inl rfl
  · rename_i q hq
    have hz := List.find?_some hq
    simp only [decide_eq_true_eq] at hz
    dsimp only at h
    split at h
    · cases h
    · rename_i kstack hks
      obtain ⟨mem, hmem, hk⟩ := Option.map_eq_some_iff.mp h
      obtain ⟨rfl, -⟩ := Prod.mk.inj hk
      exact .inr ⟨q, kstack, mem, hz.1, hz.2, hks, hmem, rfl⟩

/-! ### `sbrk` -/

/-- What `sbrk` can do: nothing, or the memory below `sz` grows or shrinks. -/
theorem sysSbrk_cases {n : BitVec 32} (h : sysSbrk k p n = some (k', ret)) :
    k' = k ∨ ∃ s newsz,
      (0 < n.toInt ∧ allocuvm ⟨k.mem, (k.procs p).pgdir⟩ (k.procs p).sz (u32 ((k.procs p).sz + n.toInt)) =
          some (s, newsz) ∨
        n.toInt < 0 ∧ deallocuvm ⟨k.mem, (k.procs p).pgdir⟩ (k.procs p).sz (u32 ((k.procs p).sz + n.toInt)) =
          some (s, newsz)) ∧
      k' = k.put p { k.procs p with
        pgdir := s.pgdir, sz := if newsz = 0 then (k.procs p).sz else newsz } s.mem k.fs := by
  obtain ⟨⟨k₁, ok⟩, hg, hk⟩ := Option.map_eq_some_iff.mp h
  obtain ⟨rfl, -⟩ := Prod.mk.inj hk
  unfold growproc at hg
  dsimp only at hg
  split at hg
  · rename_i hpos
    obtain ⟨⟨s, newsz⟩, hs, hk⟩ := Option.map_eq_some_iff.mp hg
    obtain ⟨rfl, -⟩ := Prod.mk.inj hk
    exact .inr ⟨s, newsz, .inl ⟨hpos, hs⟩, rfl⟩
  · split at hg
    · rename_i hneg
      obtain ⟨⟨s, newsz⟩, hs, hk⟩ := Option.map_eq_some_iff.mp hg
      obtain ⟨rfl, -⟩ := Prod.mk.inj hk
      exact .inr ⟨s, newsz, .inr ⟨hneg, hs⟩, rfl⟩
    · obtain ⟨rfl, -⟩ := Prod.mk.inj (Option.some.inj hg)
      exact .inl rfl

/-! ### What holds of every process -/

/-- `P` holds of every process there is. -/
def Kernel.Each (P : Proc → Prop) (k : Kernel) : Prop := ∀ p, (k.procs p).state ≠ .unused → P (k.procs p)

section

variable {P : Proc → Prop} {pr : Proc}

/-- One process is replaced. -/
theorem Kernel.Each.put (h : k.Each P) (hk : k'.procs = update k.procs p pr) (hpr : pr.state ≠ .unused → P pr) :
    k'.Each P := by
  intro q hq
  rw [hk] at hq ⊢
  by_cases hqp : q = p
  · subst hqp
    rw [update_self] at hq ⊢
    exact hpr hq
  · rw [update_of_ne hqp] at hq ⊢
    exact h q hq

/-- `fork` keeps it where it makes a child of which it holds. -/
theorem Kernel.Each.fork (h : k.Each P)
    (hchild : ∀ {q : Fin 64} {kstack : ℕ} {m m' : Mem} {d : PageDir} {fs : Fs} {s : Copy},
      copyuvm m (k.procs p).pgdir (k.procs p).sz = some (m', some d) →
      copyMaps (k.procs p).mm (k.procs p).pgdir 16 (k.procs p).mm.mmapHead ⟨⟨m', d⟩, fs, initMmaps, none⟩ = some (s, true) →
      P (child k p q kstack s.space.pgdir s.mm .runnable))
    (hw : fork k p = some (k', ret)) : k'.Each P := by
  cases fork_cases hw with
  | noSlot => exact h
  | noStack _ _ pr hpr => exact h.put rfl fun hpr' => absurd hpr hpr'
  | noCopy _ _ _ pr hpr => exact h.put rfl fun hpr' => absurd hpr hpr'
  | noMaps => exact h.put rfl fun hpr' => absurd rfl hpr'
  | forked _ _ hcopy _ hmaps => exact h.put rfl fun _ => hchild hcopy hmaps

/-- `exit` keeps what does not depend on a parent's counts of references, nor on who the parent is. -/
theorem Kernel.Each.exit {l : List (Fin 16)} (h : k.Each P) (hl : Listed (k.procs p).mm l)
    (hself : ∀ s, deleteMmaps (deletion k p) = some s → Exits k p s k' → P (k'.procs p))
    (hdec : ∀ pr pm addr, P pr → decParent pr.mm addr = some pm → P { pr with mm := pm })
    (hrep : ∀ pr, P pr → P (reparent p pr)) (hw : exit k p = some k') : k'.Each P := by
  obtain ⟨-, s, hdel, hex⟩ := exit_cases hw
  intro q hq
  by_cases hqp : q = p
  · subst hqp
    exact hself s hdel hex
  · rw [hex.other_state hqp] at hq
    exact hex.other hl hdel hqp (fun pm pm' addr hpm hd => (hdec _ pm' addr hpm hd :)) hrep (h q hq)

theorem Kernel.Each.wait (h : k.Each P) (hw : wait k p = some (k', ret)) : k'.Each P := by
  obtain rfl | ⟨q, kstack, mem, -, -, -, -, rfl⟩ := wait_cases hw
  · exact h
  · exact h.put rfl fun hq => absurd rfl hq

end

end SdeSystems.Wmap
