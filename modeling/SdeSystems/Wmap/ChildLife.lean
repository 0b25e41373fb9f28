import SdeSystems.Wmap.ForkFails
import SdeSystems.Wmap.References

/-!
# The life of a child and the references to files

`fork` takes a reference to a file for each descriptor and each region of the child, and `exit` gives
back those of the descriptors and of the regions whose count of references is 0. So after a child has
gone every file has as many references as before it came: whatever it does meanwhile with its
mappings, its descriptors and children of its own, as long as no reference gets lost. One gets lost
with each region of a child that is shared and has a file, since its count is 1 (`copy_maps`) and
`delete_mmaps` does not close its file; with an invalid request to `wmap`, which keeps the reference
that was taken for it; and with a fork that fails in `copy_maps`, which closes nothing.
-/

namespace SdeSystems.Wmap

open Lib Function Relation

/-! ### Runs -/

/-- What a process does. -/
inductive Act
  /-- An operation. -/
  | op (o : Op)
  | dup (p : Fin 64) (fd : BitVec 32)
  | close (p : Fin 64) (fd : BitVec 32)
  /-- It reads or writes files that are open. -/
  | io (p : Fin 64) (inodes : ℕ → Inode)

/-- The process that acts. -/
def Act.proc : Act → Option (Fin 64)
  | .op o => o.proc
  | .dup p _ | .close p _ | .io p _ => some p

/-- What it comes to. -/
def Act.run (k : Kernel) : Act → Option Kernel
  | .op o => o.run k
  | .dup p fd => (sysDup k p fd).map Prod.fst
  | .close p fd => (sysClose k p fd).map Prod.fst
  | .io _ inodes => some { k with fs := { k.fs with inodes := inodes } }

/-- `p` can run, and could not in `k₀`. -/
def Born (k₀ k : Kernel) (p : Fin 64) : Prop := (k₀.procs p).state ≠ .runnable ∧ (k.procs p).state = .runnable

instance (k₀ k : Kernel) (p : Fin 64) : Decidable (Born k₀ k p) := by
  unfold Born
  infer_instance

/-- The runs of the processes that have come to be since `k₀`. -/
def Life (allowed : Kernel → Act → Prop) (k₀ : Kernel) : Kernel → Kernel → Prop :=
  ReflTransGen fun k k' => ∃ a : Act, (∀ p, a.proc = some p → Born k₀ k p) ∧ allowed k a ∧ a.run k = some k'

/-- One act more. -/
theorem Life.act {allowed : Kernel → Act → Prop} {k₀ k k₁ k₂ : Kernel} {a : Act} {p : Fin 64}
    (h : Life allowed k₀ k k₁) (hp : a.proc = some p) (hb : Born k₀ k₁ p) (ha : allowed k₁ a)
    (hrun : a.run k₁ = some k₂) : Life allowed k₀ k k₂ := by
  refine h.tail ⟨a, ?_, ha, hrun⟩
  intro q hq
  obtain rfl : p = q := Option.some.inj (hp.symm.trans hq)
  exact hb

/-- A child of `p` comes to be in `k₁` and acts until `k₂`, with the children that it has itself. Then it exits, and
none of them is left. -/
structure ChildLife (allowed : Kernel → Act → Prop) (k k₁ k₂ k₃ : Kernel) (p c : Fin 64) : Prop where
  /-- The parent can run. -/
  parent : (k.procs p).state = .runnable
  /-- Its list of mappings is in order. -/
  listed : ∃ l, Listed (k.procs p).mm l
  /-- It forks. -/
  fork : ∃ pid : ℕ, Wmap.fork k p = some (k₁, (pid : ℤ))
  /-- The child. -/
  slot : unusedProc k = some c
  /-- What is done until it exits. -/
  life : Life allowed k k₁ k₂
  /-- It has not exited yet. -/
  runs : (k₂.procs c).state = .runnable
  /-- It exits. -/
  exit : Wmap.exit k₂ c = some k₃
  /-- Its children have exited. -/
  gone : ∀ q, ¬ Born k k₃ q

/-! ### Acts that lose no reference -/

/-- `fork` of `p` comes to `copy_maps`: it takes the slot `c`, and `copy_maps` starts from `s`. -/
def ComesToCopy (k : Kernel) (p c : Fin 64) (s : Copy) : Prop :=
  ∃ kstack mem mem₁ d fs, unusedProc k = some c ∧ kalloc k.mem = some (kstack, mem) ∧
    copyuvm mem (k.procs p).pgdir (k.procs p).sz = some (mem₁, some d) ∧ dupFiles k.fs (k.procs p).ofile = some fs ∧
    s = ⟨⟨mem₁, d⟩, fs, initMmaps, none⟩

/-- `copy_maps` copies all regions. -/
def CopiesAll (k : Kernel) (p c : Fin 64) : Prop := ∃ s s', ComesToCopy k p c s ∧
  copyMaps (k.procs p).mm (k.procs p).pgdir 16 (k.procs p).mm.mmapHead s = some (s', true)

/-- `copy_maps` copies the regions of `before`, finds a slot for the region `i`, and so duplicates its file, and fails
at one of its pages. -/
def CopyFails (k : Kernel) (p : Fin 64) (before : List (Fin 16)) (i : Fin 16) : Prop :=
  ∃ c s s₁ c' s', ComesToCopy k p c s ∧
    forEach (fun j => copyRegion (k.procs p).pgdir ((k.procs p).mm.mmaps j)) before s = some (s₁, true) ∧
    findUnusedMmap s₁.mm = some c' ∧ copyRegion (k.procs p).pgdir ((k.procs p).mm.mmaps i) s₁ = some (s', false)

/-- A `fork` of `p` that loses no reference. -/
structure ForkTracks (k : Kernel) (p : Fin 64) : Prop where
  /-- Where it succeeds no shared region has a file. -/
  shared : ∀ c, CopiesAll k p c → ∀ i, ((k.procs p).mm.mmaps i).addr ≠ 2 ^ 32 - 1 →
    has ((k.procs p).mm.mmaps i).flags mapShared = true → ((k.procs p).mm.mmaps i).f = none
  /-- And the child's slot has no descriptor left over that the parent does not have. -/
  slot : ∀ c, CopiesAll k p c → ∀ j, (k.procs p).ofile j = none → (k.procs c).ofile j = none
  /-- Where it fails in `copy_maps` no file has been duplicated: there is no descriptor, and none of the regions that it
  has come to has a file. -/
  fails : ∀ before i after, Linked (k.procs p).mm.next (k.procs p).mm.mmapHead (before ++ i :: after) none →
    CopyFails k p before i → (∀ j, (k.procs p).ofile j = none) ∧
      ∀ j ∈ before ++ [i], ((k.procs p).mm.mmaps j).f = none

/-- Acts that lose no reference: each fork is as said, and each `wmap` with a file is of a valid request. -/
def Act.Tracks (k : Kernel) : Act → Prop
  | .op (.wmap p addr length flags fd) => argfd (k.procs p) fd.toInt = none ∨
    validateInput addr.toNat length.toInt flags (argfd (k.procs p) fd.toInt) = true
  | .op (.fork p) => ForkTracks k p
  | _ => True

/-! ### Every reference is accounted for -/

/-- The references of `p`, if it has come to be since `k₀`. -/
def newFiles (k₀ k : Kernel) (p : Fin 64) : Multiset ℕ := if Born k₀ k p then (k.procs p).files else 0

/-- The references that there are beyond those of `k₀` are those of the processes that have come to be since, and
they will give them back. -/
structure Tracked (k₀ k : Kernel) : Prop where
  /-- The processes of `k₀` are still there. -/
  old : ∀ q, (k₀.procs q).state = .runnable → (k.procs q).state = .runnable
  /-- The tables of the others give back what they have. -/
  table : ∀ q, Born k₀ k q → ∃ l, Returns (k.procs q).mm l
  /-- The references. -/
  refs : Refs (fun x => (k₀.fs.files x).ref) k.fs (total (newFiles k₀ k))

section

variable {k₀ k k' : Kernel} {p q : Fin 64} {ret : ℤ} {l : List (Fin 16)}

theorem newFiles_of_born (h : Born k₀ k p) : newFiles k₀ k p = (k.procs p).files := if_pos h

theorem newFiles_of_not_born (h : ¬ Born k₀ k p) : newFiles k₀ k p = 0 := if_neg h

/-- At the beginning there are none. -/
theorem tracked_self (k : Kernel) : Tracked k k where
  old _ h := h
  table _ h := absurd h.2 h.1
  refs x := by
    rw [total_zero fun q => newFiles_of_not_born fun h => h.1 h.2]
    rfl

/-- One process does something, which does not matter to the references of the others. -/
theorem Tracked.replace (h : Tracked k₀ k) (p : Fin 64)
    (hothers : ∀ q ≠ p, (k'.procs q).state = (k.procs q).state ∧ (k'.procs q).files = (k.procs q).files ∧
      ∀ l, Returns (k.procs q).mm l → Returns (k'.procs q).mm l)
    (hold : (k₀.procs p).state = .runnable → (k'.procs p).state = .runnable)
    (htable : Born k₀ k' p → ∃ l, Returns (k'.procs p).mm l)
    (hp : ∀ F R, Refs F k.fs (newFiles k₀ k p + R) → Refs F k'.fs (newFiles k₀ k' p + R)) : Tracked k₀ k' := by
  have hborn (q : Fin 64) (hq : q ≠ p) : Born k₀ k' q ↔ Born k₀ k q := by
    unfold Born
    rw [(hothers q hq).1]
  refine ⟨?_, ?_, ?_⟩
  · intro q hq
    by_cases hqp : q = p
    · subst hqp
      exact hold hq
    · rw [(hothers q hqp).1]
      exact h.old q hq
  · intro q hq
    by_cases hqp : q = p
    · subst hqp
      exact htable hq
    · obtain ⟨l, hl⟩ := h.table q ((hborn q hqp).mp hq)
      exact ⟨l, (hothers q hqp).2.2 l hl⟩
  · obtain ⟨R, hR, hR'⟩ := total_split (newFiles k₀ k) p
    have hrefs := h.refs
    rw [hR] at hrefs
    rw [hR' _ fun q hq => ?_]
    · exact hp _ _ hrefs
    · unfold newFiles
      simp only [hborn q hq, (hothers q hq).2.1]

/-- The processes stay as they are. -/
theorem Tracked.same (h : Tracked k₀ k) (hp : k'.procs = k.procs) (hf : k'.fs.files = k.fs.files) : Tracked k₀ k' := by
  have hnew : newFiles k₀ k' 0 = newFiles k₀ k 0 := by
    unfold newFiles
    simp only [Born, hp]
  refine h.replace 0 (fun q _ => by rw [hp]; exact ⟨rfl, rfl, fun l hl => hl⟩) ?_ ?_ ?_
  · intro hq
    rw [hp]
    exact h.old 0 hq
  · intro hb
    unfold Born at hb
    rw [hp] at hb ⊢
    exact h.table 0 hb
  · intro F R hr
    rw [hnew]
    exact hr.congr hf

/-- A process does something that keeps track of its references. -/
theorem Tracked.balances (h : Tracked k₀ k) (hp : Born k₀ k p) (hb : Balances k p k') : Tracked k₀ k' := by
  have hp' : Born k₀ k' p := ⟨hp.1, by rw [hb.state, hp.2]⟩
  refine h.replace p ?_ (fun hq => absurd hq hp.1) (fun _ => hb.table) ?_
  · intro q hq
    rw [hb.others q hq]
    exact ⟨rfl, rfl, fun l hl => hl⟩
  · intro F R hr
    rw [newFiles_of_born hp] at hr
    rw [newFiles_of_born hp']
    exact hb.refs F R hr

/-- A slot that is free changes, and nobody is born. -/
theorem Tracked.free (h : Tracked k₀ k) (hq : (k.procs q).state ≠ .runnable) (hq' : (k'.procs q).state ≠ .runnable)
    (hothers : ∀ q' ≠ q, k'.procs q' = k.procs q') (hf : k'.fs.files = k.fs.files) : Tracked k₀ k' := by
  refine h.replace q ?_ (fun hq₀ => absurd (h.old q hq₀) hq) (fun hb => absurd hb.2 hq') ?_
  · intro q' hne
    rw [hothers q' hne]
    exact ⟨rfl, rfl, fun l hl => hl⟩
  · intro F R hr
    rw [newFiles_of_not_born fun hb => hq hb.2] at hr
    rw [newFiles_of_not_born fun hb => hq' hb.2]
    exact hr.congr hf

/-- A slot that is free becomes a process. -/
theorem Tracked.born {pr : Proc} (h : Tracked k₀ k) (hq : (k.procs q).state ≠ .runnable) (hself : k'.procs q = pr)
    (hpr : pr.state = .runnable) (htable : ∃ l, Returns pr.mm l) (hothers : ∀ q' ≠ q, k'.procs q' = k.procs q')
    (hr : ∀ F R, Refs F k.fs R → Refs F k'.fs (pr.files + R)) : Tracked k₀ k' := by
  have hborn : Born k₀ k' q := ⟨fun hq₀ => hq (h.old q hq₀), by rw [hself, hpr]⟩
  refine h.replace q ?_ (fun _ => hborn.2) (fun _ => hself ▸ htable) ?_
  · intro q' hne
    rw [hothers q' hne]
    exact ⟨rfl, rfl, fun l hl => hl⟩
  · intro F R hR
    rw [newFiles_of_not_born fun hb => hq hb.2, zero_add] at hR
    rw [newFiles_of_born hborn, hself]
    exact hr F R hR

/-- `fork`: the child has the references that are taken for it. -/
theorem Tracked.fork (h : Tracked k₀ k) (hl : Listed (k.procs p).mm l) (hok : ForkTracks k p)
    (hw : fork k p = some (k', ret)) : Tracked k₀ k' := by
  have hunused {q : Fin 64} (hq : unusedProc k = some q) : (k.procs q).state ≠ .runnable := by
    rw [unusedProc_some hq]
    decide
  cases fork_cases hw with
  | noSlot => exact h
  | @noStack q hq _ pr hpr =>
    refine h.free (hunused hq) ?_ (fun q' hq' => update_of_ne hq' _ _) rfl
    dsimp only
    rw [Kernel.put_procs_self, hpr]
    decide
  | @noCopy q kstack m m' hq hstack hcopy pr hpr =>
    refine h.free (hunused hq) ?_ (fun q' hq' => update_of_ne hq' _ _) rfl
    dsimp only
    rw [Kernel.put_procs_self, hpr]
    decide
  | @noMaps q kstack m m₁ m₂ d fs s hq hstack hcopy hdup hmaps hfree =>
    have hcome : ComesToCopy k p q _ := ⟨kstack, m, m₁, d, fs, hq, hstack, hcopy, hdup, rfl⟩
    obtain ⟨before, i, after, s₁, c, rfl, hbefore, hc, hi, hsame⟩ := copyMaps_fails hl ⟨listed_init, rfl⟩ hmaps
    obtain ⟨hofile, hfiles⟩ := hok.fails before i after hl.linked ⟨q, _, s₁, c, s, hcome, hbefore, hc, hi⟩
    refine h.free (hunused hq) ?_ (fun q' hq' => update_of_ne hq' _ _) ?_
    · dsimp only
      rw [Kernel.put_procs_self]
      simp [child]
    · -- no file was duplicated
      have hfs : fs = k.fs := (dupFiles_spec hdup).2.2 hofile
      exact congrArg Fs.files ((hsame hfiles).trans hfs)
  | @forked q kstack m m₁ d fs s hq hstack hcopy hdup hmaps =>
    have hcopies : CopiesAll k p q := ⟨_, s, ⟨kstack, m, m₁, d, fs, hq, hstack, hcopy, hdup, rfl⟩, hmaps⟩
    have hshared (i : Fin 16) (hi : i ∈ l) := hok.shared q hcopies i ((hl.used i).mp hi)
    have hs : Copied ⟨⟨m₁, d⟩, fs, initMmaps, none⟩ [] := ⟨listed_init, rfl⟩
    have hofile : (child k p q kstack s.space.pgdir s.mm .runnable).ofile = (k.procs p).ofile := by
      funext j
      cases hj : (k.procs p).ofile j with
      | none => simp [child, hj, hok.slot q hcopies j hj]
      | some f => simp [child, hj]
    refine h.born (hunused hq) (update_self ..) rfl ?_ (fun q' hq' => update_of_ne hq' _ _) ?_
    · obtain ⟨cl, hcl, -⟩ := copyMaps_returns (F := fun x => (fs.files x).ref) (R := 0) hl hshared hmaps hs rfl fun x => rfl
      exact ⟨cl, hcl⟩
    · intro F R hr
      obtain ⟨cl, -, hrefs⟩ := copyMaps_returns hl hshared hmaps hs rfl (hr.dupFiles hdup)
      rw [Proc.files, hofile, add_assoc, add_left_comm]
      exact hrefs

/-- `exit`: the process gives back all it has, and its parent goes on counting on what it counted on. -/
theorem Tracked.exit (h : Tracked k₀ k) (hp : Born k₀ k p) (hw : exit k p = some k') : Tracked k₀ k' := by
  obtain ⟨-, s, hdel, hex⟩ := exit_cases hw
  obtain ⟨l, hl⟩ := h.table p hp
  have hgone : ¬ Born k₀ k' p := fun hb => by
    rw [Born, hex.state] at hb
    cases hb.2
  refine h.replace p (fun q hq => ⟨hex.other_state hq, ?_, ?_⟩) (fun hp₀ => absurd hp₀ hp.1)
    (fun hb => absurd hb hgone) ?_
  · refine hex.other (P := fun pr => pr.files = (k.procs q).files) hl.toListed hdel hq ?_ ?_ rfl
    · intro pm pm' _ hpm hdec
      rw [← hpm]
      simp only [Proc.files, decParent_files hdec]
    · intro pr hpr
      rw [← hpr, Proc.files, reparent_ofile, reparent_mm]
      rfl
  · intro l' hl'
    refine hex.other (P := fun pr => Returns pr.mm l') hl.toListed hdel hq (fun _ _ _ hpm hdec => hpm.decParent hdec)
      ?_ hl'
    intro pr hpr
    rwa [reparent_mm]
  · intro F R hr
    rw [newFiles_of_born hp] at hr
    rw [newFiles_of_not_born hgone, zero_add]
    exact hl.exit hdel hex hr

theorem Tracked.wait (h : Tracked k₀ k) (hw : wait k p = some (k', ret)) : Tracked k₀ k' := by
  obtain rfl | ⟨q, kstack, mem, -, hz, -, -, rfl⟩ := wait_cases hw
  · exact h
  · refine h.free (by rw [hz]; decide) ?_ (fun q' hq' => Kernel.put_procs_of_ne hq') rfl
    rw [Kernel.put_procs_self]
    exact ProcState.noConfusion

theorem Tracked.op {o : Op} (h : Tracked k₀ k) (hp : ∀ p, o.proc = some p → Born k₀ k p) (hok : (Act.op o).Tracks k)
    (hrun : o.run k = some k') : Tracked k₀ k' := by
  cases o with
  | wmap p addr length flags fd =>
    obtain ⟨⟨k₁, r⟩, hw, rfl⟩ := Option.map_eq_some_iff.mp hrun
    obtain ⟨l, hl⟩ := h.table p (hp p rfl)
    exact h.balances (hp p rfl) (hl.wmap hok hw)
  | wunmap p addr =>
    obtain ⟨⟨k₁, r⟩, hw, rfl⟩ := Option.map_eq_some_iff.mp hrun
    obtain ⟨l, hl⟩ := h.table p (hp p rfl)
    exact h.balances (hp p rfl) (hl.wunmap hw)
  | wpunmap p addr length =>
    obtain ⟨⟨k₁, r⟩, hw, rfl⟩ := Option.map_eq_some_iff.mp hrun
    obtain ⟨l, hl⟩ := h.table p (hp p rfl)
    exact h.balances (hp p rfl) (hl.wpunmap hw)
  | fault p addr =>
    obtain ⟨⟨k₁, r⟩, hw, rfl⟩ := Option.map_eq_some_iff.mp hrun
    obtain ⟨l, hl⟩ := h.table p (hp p rfl)
    exact h.balances (hp p rfl) (hl.fault hw)
  | sbrk p n =>
    obtain ⟨⟨k₁, r⟩, hw, rfl⟩ := Option.map_eq_some_iff.mp hrun
    obtain ⟨l, hl⟩ := h.table p (hp p rfl)
    exact h.balances (hp p rfl) (hl.sbrk hw)
  | fork p =>
    obtain ⟨⟨k₁, r⟩, hw, rfl⟩ := Option.map_eq_some_iff.mp hrun
    obtain ⟨l, hl⟩ := h.table p (hp p rfl)
    exact h.fork hl.toListed hok hw
  | exit p => exact h.exit (hp p rfl) hrun
  | wait p =>
    obtain ⟨⟨k₁, r⟩, hw, rfl⟩ := Option.map_eq_some_iff.mp hrun
    exact h.wait hw
  | store p va b =>
    obtain ⟨l, hl⟩ := h.table p (hp p rfl)
    exact h.balances (hp p rfl) (hl.store hrun)
  | take =>
    obtain ⟨_, -, rfl⟩ := Option.map_eq_some_iff.mp hrun
    exact h.same rfl rfl
  | give page =>
    obtain ⟨-, rfl⟩ := give_cases hrun
    exact h.same rfl rfl

/-- A step. -/
theorem Tracked.act {a : Act} (h : Tracked k₀ k) (hp : ∀ p, a.proc = some p → Born k₀ k p) (hok : a.Tracks k)
    (hrun : a.run k = some k') : Tracked k₀ k' := by
  cases a with
  | op o => exact h.op hp hok hrun
  | dup p fd =>
    obtain ⟨⟨k₁, r⟩, hw, rfl⟩ := Option.map_eq_some_iff.mp hrun
    obtain ⟨l, hl⟩ := h.table p (hp p rfl)
    exact h.balances (hp p rfl) (hl.dup hw)
  | close p fd =>
    obtain ⟨⟨k₁, r⟩, hw, rfl⟩ := Option.map_eq_some_iff.mp hrun
    obtain ⟨l, hl⟩ := h.table p (hp p rfl)
    exact h.balances (hp p rfl) (hl.close hw)
  | io p inodes =>
    obtain rfl := Option.some.inj hrun
    exact h.same rfl rfl

/-- A run. -/
theorem Tracked.life (h : Tracked k₀ k) (hlife : Life (fun k a => a.Tracks k) k₀ k k') : Tracked k₀ k' := by
  induction hlife with
  | refl => exact h
  | tail _ hstep ih =>
    obtain ⟨a, hp, hok, hw⟩ := hstep
    exact ih.act hp hok hw

end

/-! ### The references afterwards -/

/-- **The life of a child balances the references to files**, in every run all of whose acts, and the fork, lose no
reference. -/
theorem child_life_balances_references {k k₁ k₂ k₃ : Kernel} {p c : Fin 64} (hfork : ForkTracks k p)
    (h : ChildLife (fun k a => a.Tracks k) k k₁ k₂ k₃ p c) (x : ℕ) : (k₃.fs.files x).ref = (k.fs.files x).ref := by
  obtain ⟨hp, ⟨l, hl⟩, ⟨pid, hk₁⟩, hc, hlife, hruns, hexit, hgone⟩ := h
  have h₂ := ((tracked_self k).fork hl hfork hk₁).life hlife
  have hborn : Born k k₂ c := ⟨by rw [unusedProc_some hc]; decide, hruns⟩
  have hrefs := (h₂.exit hborn hexit).refs x
  rw [total_zero fun q => newFiles_of_not_born (hgone q)] at hrefs
  simpa using hrefs

/-- A fork that succeeds does not fail in `copy_maps`. -/
theorem not_copyFails {k k' : Kernel} {p : Fin 64} {pid : ℕ} {before after : List (Fin 16)} {i : Fin 16}
    (h : fork k p = some (k', (pid : ℤ)))
    (hl : Linked (k.procs p).mm.next (k.procs p).mm.mmapHead (before ++ i :: after) none)
    (hlen : (before ++ i :: after).length ≤ 16) : ¬ CopyFails k p before i := by
  rintro ⟨c', _, s₁, _, _, ⟨kstack', m', m₁', d', fs', hq', hstack', hcopy', hdup', rfl⟩, hbefore, -, hi⟩
  generalize hret : (pid : ℤ) = ret at h
  cases fork_cases h with
  | noSlot | noStack | noCopy | noMaps => omega
  | forked hq hstack hcopy hdup hmaps =>
    obtain ⟨rfl, rfl⟩ := Prod.mk.inj (Option.some.inj (hstack.symm.trans hstack'))
    obtain ⟨rfl, hd⟩ := Prod.mk.inj (Option.some.inj (hcopy.symm.trans hcopy'))
    obtain rfl := Option.some.inj hd
    obtain rfl := Option.some.inj (hdup.symm.trans hdup')
    rw [copyMaps_eq hl hlen, forEach_append hbefore] at hmaps
    simp only [forEach, hi] at hmaps
    cases hmaps

/-- A child that inherits a private mapping of a file, maps the file itself and closes its descriptor. -/
theorem child_life_balances_references_private : ∃ k k₁ k₂ k₃, ForkTracks k 0 ∧
    ChildLife (fun k a => a.Tracks k) k k₁ k₂ k₃ 0 1 ∧ ∀ x, (k₃.fs.files x).ref = (k.fs.files x).ref := by
  have hrun : ((sysWmap (bootOpen 100) 0 0 4096 1 3).bind fun a => (fork a.1 0).bind fun b =>
      (sysWmap b.1 1 0 4096 2 3).bind fun c => (sysClose c.1 1 3).bind fun d => (exit d.1 1).map fun k₃ =>
        decide (b.2 = 2 ∧ unusedProc a.1 = some 1 ∧ (a.1.procs 0).state = .runnable ∧ Born a.1 b.1 1 ∧ Born a.1 c.1 1 ∧
          Born a.1 d.1 1 ∧ (∀ q, ¬ Born a.1 k₃ q) ∧ argfd (b.1.procs 1) (3 : BitVec 32).toInt = some 0 ∧
          (∀ j, (a.1.procs 1).ofile j = none) ∧ ∀ i, ((a.1.procs 0).mm.mmaps i).addr ≠ 2 ^ 32 - 1 →
            has ((a.1.procs 0).mm.mmaps i).flags mapShared = false)) = some true := by
    decide +kernel
  obtain ⟨⟨k, r⟩, hmap, hrun⟩ := Option.bind_eq_some_iff.mp hrun
  obtain ⟨⟨k₁, pid⟩, hfork, hrun⟩ := Option.bind_eq_some_iff.mp hrun
  obtain ⟨⟨k₂, r₂⟩, hmap₂, hrun⟩ := Option.bind_eq_some_iff.mp hrun
  obtain ⟨⟨k₂', r₂'⟩, hclose, hrun⟩ := Option.bind_eq_some_iff.mp hrun
  obtain ⟨k₃, hexit, hout⟩ := Option.map_eq_some_iff.mp hrun
  obtain ⟨rfl, hslot, hparent, hborn₁, hborn₂, hborn₂', hgone, hfd, hofile, hprivate⟩ := of_decide_eq_true hout
  obtain ⟨l, hl⟩ := (Returns.wmap (k := bootOpen 100) (p := 0) returns_init (.inr (by decide)) hmap).table
  have htracks : ForkTracks k 0 := by
    refine ⟨?_, ?_, ?_⟩
    · intro _ _ i hi hsh
      rw [hprivate i hi] at hsh
      cases hsh
    · rintro c ⟨_, _, ⟨_, _, _, _, _, hc, -⟩, -⟩ j _
      obtain rfl : 1 = c := Option.some.inj (hslot.symm.trans hc)
      exact hofile j
    · intro before i after hlinked hfails
      have hlen : (before ++ i :: after).length ≤ 16 := by
        rw [hlinked.unique hl.linked]
        exact hl.length_le
      exact absurd hfails (@not_copyFails k k₁ 0 2 _ _ _ hfork hlinked hlen)
  have hlife : Life (fun k a => a.Tracks k) k k₁ k₂ :=
    Life.act .refl rfl hborn₁ (show (Act.op (.wmap 1 0 4096 2 3)).Tracks k₁ from .inr (by rw [hfd]; decide))
      (congrArg (Option.map Prod.fst) hmap₂)
  have hlife' : Life (fun k a => a.Tracks k) k k₁ k₂' :=
    hlife.act rfl hborn₂ (show (Act.close 1 3).Tracks k₂ from trivial) (congrArg (Option.map Prod.fst) hclose)
  have hall : ChildLife (fun k a => a.Tracks k) k k₁ k₂' k₃ 0 1 :=
    ⟨hparent, ⟨l, hl.toListed⟩, ⟨2, hfork⟩, hslot, hlife', hborn₂'.2, hexit, hgone⟩
  exact ⟨k, k₁, k₂', k₃, htracks, hall, child_life_balances_references htracks hall⟩

/-- The reference of a shared mapping is lost with the child. -/
theorem child_life_keeps_reference : ∃ k k₁ k₂, (Op.wmap 0 0 4096 2 3).run (bootOpen 100) = some k ∧
    ChildLife (fun _ _ => True) k k₁ k₁ k₂ 0 1 ∧ (k.fs.files 0).ref = 2 ∧ (k₂.fs.files 0).ref = 3 := by
  have hrun : ((sysWmap (bootOpen 100) 0 0 4096 2 3).bind fun a => (fork a.1 0).bind fun b => (exit b.1 1).map fun k₂ =>
      decide (b.2 = 2 ∧ unusedProc a.1 = some 1 ∧ (a.1.procs 0).state = .runnable ∧ (b.1.procs 1).state = .runnable ∧
        (∀ q, ¬ Born a.1 k₂ q) ∧ (a.1.fs.files 0).ref = 2 ∧ (k₂.fs.files 0).ref = 3)) = some true := by
    decide +kernel
  obtain ⟨⟨k, r⟩, hmap, hrun⟩ := Option.bind_eq_some_iff.mp hrun
  obtain ⟨⟨k₁, pid⟩, hfork, hrun⟩ := Option.bind_eq_some_iff.mp hrun
  obtain ⟨k₂, hexit, hout⟩ := Option.map_eq_some_iff.mp hrun
  obtain ⟨rfl, hslot, hparent, hruns, hgone, hbefore, hafter⟩ := of_decide_eq_true hout
  obtain ⟨l, hl⟩ := (Returns.wmap (k := bootOpen 100) (p := 0) returns_init (.inr (by decide)) hmap).table
  exact ⟨k, k₁, k₂, congrArg (Option.map Prod.fst) hmap,
    ⟨hparent, ⟨l, hl.toListed⟩, ⟨2, hfork⟩, hslot, .refl, hruns, hexit, hgone⟩, hbefore, hafter⟩

end SdeSystems.Wmap
