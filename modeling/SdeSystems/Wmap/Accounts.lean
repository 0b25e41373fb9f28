import SdeSystems.Wmap.Forks
import SdeSystems.Wmap.Owned

/-!
# The pages of the kernel

Every page has one holder: the free list, a process (its kernel stack, its page directory, the page
tables and the pages that are its own), the rest of the kernel, or nobody, if it is lost. `Exclusive`
is the ledger that says so, and `Accounted` the statement about a kernel. Which of the pages a
process maps are its own is a parameter, which may depend on its table of mappings.

Here are the operations for which it does not matter much; those that unmap pages or copy them
to a child are in the modules that fix the parameter.
-/

namespace SdeSystems.Wmap

open Lib Function

/-! ### The ledger -/

/-- No page is both free and in use, none is in use twice, and none has been freed twice. -/
def Exclusive (m : Mem) (R : Multiset ℕ) : Prop := ((m.free : Multiset ℕ) + R).Nodup ∧ m.twice = false

theorem exclusive_ledger : Ledger kalloc kfree Mem.fill Exclusive where
  take {m m' page R} h hm := by
    unfold kalloc at h
    split at h
    · cases h
    · rename_i free hfree
      obtain ⟨rfl, rfl⟩ := Prod.mk.inj (Option.some.inj h)
      unfold Exclusive at hm ⊢
      rw [hfree, ← Multiset.cons_coe, Multiset.cons_add] at hm
      rwa [Multiset.add_cons]
  give {m page R} hm := by
    unfold Exclusive at hm
    rw [Multiset.add_cons, Multiset.nodup_cons] at hm
    have hnot : page ∉ m.free := fun hin => hm.1.1 (by simp [hin])
    constructor
    · simp only [kfree]
      rw [← Multiset.cons_coe, Multiset.cons_add, Multiset.nodup_cons]
      exact hm.1
    · simp [kfree, hm.2, hnot]
  write hm := hm
  drop hle hm := ⟨Multiset.nodup_of_le (Multiset.add_le_add_left hle) hm.1, hm.2⟩

theorem Exclusive.not_free {m : Mem} {R : Multiset ℕ} {page : ℕ} (h : Exclusive m R) (hp : page ∈ R) : page ∉ m.free :=
  fun hf => Multiset.disjoint_left.mp (Multiset.disjoint_of_nodup_add h.1) (by simpa using hf) hp

/-! ### Processes -/

/-- The pages of a process, `mine` saying which of the pages it maps are its own. -/
def Proc.own (mine : Mmaps → ℕ → Bool) (pr : Proc) : Multiset ℕ :=
  if pr.state = .unused then 0 else pr.pgdir.own (mine pr.mm) + pr.kstack.elim 0 fun page => {page}

/-- The pages in use. -/
def Kernel.own (mine : Mmaps → ℕ → Bool) (k : Kernel) : Multiset ℕ :=
  total (fun p => (k.procs p).own mine) + (k.kpages : Multiset ℕ)

/-- Every page has one holder, where those of `lost` have none. -/
def Accounted (mine : Mmaps → ℕ → Bool) (lost : Multiset ℕ) (k : Kernel) : Prop :=
  Exclusive k.mem (k.own mine + lost)

section

variable {mine : Mmaps → ℕ → Bool} {lost X : Multiset ℕ} {k k' : Kernel} {p q : Fin 64} {pr : Proc} {mem : Mem} {fs : Fs}
  {ret : ℤ}

theorem Proc.own_of_unused (h : pr.state = .unused) : pr.own mine = 0 := if_pos h

theorem Proc.own_of_live (h : pr.state ≠ .unused) :
    pr.own mine = pr.pgdir.own (mine pr.mm) + pr.kstack.elim 0 fun page => {page} := if_neg h

/-- The pages of one process and those of all the others. -/
theorem Kernel.own_split (mine : Mmaps → ℕ → Bool) (k : Kernel) (p : Fin 64) :
    ∃ R, k.own mine = (k.procs p).own mine + R ∧
      ∀ k' : Kernel, (∀ q ≠ p, (k'.procs q).own mine = (k.procs q).own mine) → k'.kpages = k.kpages →
        k'.own mine = (k'.procs p).own mine + R := by
  obtain ⟨R, hR, hR'⟩ := total_split (fun q => (k.procs q).own mine) p
  refine ⟨R + k.kpages, by rw [Kernel.own, hR, add_assoc], ?_⟩
  intro k' hq hkp
  rw [Kernel.own, hR' _ hq, hkp, add_assoc]

/-- One process does something with its pages: it gets those of `Y`, and loses those of `X`. -/
theorem Accounted.exchange {Y : Multiset ℕ} (h : Accounted mine (Y + lost) k) (p : Fin 64)
    (hq : ∀ q ≠ p, (k'.procs q).own mine = (k.procs q).own mine) (hkp : k'.kpages = k.kpages)
    (hp : ∀ R, Exclusive k.mem ((k.procs p).own mine + (Y + R)) → Exclusive k'.mem ((k'.procs p).own mine + (X + R))) :
    Accounted mine (X + lost) k' := by
  obtain ⟨R, hR, hR'⟩ := Kernel.own_split mine k p
  unfold Accounted at h ⊢
  rw [hR, add_assoc, add_left_comm R] at h
  rw [hR' k' hq hkp, add_assoc, add_left_comm R]
  exact hp _ h

/-- One process does something with its pages, and loses those of `X`. -/
theorem Accounted.replace (h : Accounted mine lost k) (p : Fin 64)
    (hq : ∀ q ≠ p, (k'.procs q).own mine = (k.procs q).own mine) (hkp : k'.kpages = k.kpages)
    (hp : ∀ R, Exclusive k.mem ((k.procs p).own mine + R) → Exclusive k'.mem ((k'.procs p).own mine + (X + R))) :
    Accounted mine (X + lost) k' := by
  rw [← zero_add lost] at h
  apply h.exchange p hq hkp
  intro R hR
  rw [zero_add] at hR
  exact hp R hR

/-- A process does something with its page directory. -/
theorem Accounted.put (h : Accounted mine lost k) (hp : (k.procs p).state ≠ .unused) (hpr : pr.state ≠ .unused)
    (hks : pr.kstack = (k.procs p).kstack)
    (hpd : ∀ R, Exclusive k.mem ((k.procs p).pgdir.own (mine (k.procs p).mm) + R) →
      Exclusive mem (pr.pgdir.own (mine pr.mm) + (X + R))) :
    Accounted mine (X + lost) (k.put p pr mem fs) := by
  refine h.replace p (fun q hq => by rw [Kernel.put_procs_of_ne hq]) rfl ?_
  intro R hR
  rw [Proc.own_of_live hp, add_assoc] at hR
  rw [Kernel.put_procs_self, Proc.own_of_live hpr, hks, add_assoc, add_left_comm (Option.elim ..)]
  exact hpd _ hR

/-- The same, with nothing lost. -/
theorem Accounted.put_same (h : Accounted mine lost k) (hp : (k.procs p).state ≠ .unused) (hpr : pr.state ≠ .unused)
    (hks : pr.kstack = (k.procs p).kstack)
    (hpd : ∀ R, Exclusive k.mem ((k.procs p).pgdir.own (mine (k.procs p).mm) + R) →
      Exclusive mem (pr.pgdir.own (mine pr.mm) + R)) :
    Accounted mine lost (k.put p pr mem fs) := by
  have hput : Accounted mine (0 + lost) (k.put p pr mem fs) := h.put hp hpr hks fun R hR => by
    rw [zero_add]
    exact hpd R hR
  rwa [zero_add] at hput

/-! ### What follows -/

theorem Proc.mem_own {va : ℕ} {e : Pte} (hp : pr.state ≠ .unused) (he : pr.pgdir.pte va = some e)
    (hm : mine pr.mm (vpn va) = true) : e.page ∈ pr.own mine := by
  rw [Proc.own_of_live hp]
  exact Multiset.mem_add.mpr (.inl (Wmap.mem_own he hm))

theorem Accounted.total_nodup (h : Accounted mine lost k) : (total fun p => (k.procs p).own mine).Nodup := by
  refine Multiset.nodup_of_le ?_ h.1
  unfold Kernel.own
  rw [add_assoc]
  exact (Multiset.le_add_right _ _).trans (Multiset.le_add_left _ _)

/-- A page that a process has is not free. -/
theorem Accounted.not_free {page : ℕ} (h : Accounted mine lost k) (hp : page ∈ (k.procs p).own mine) :
    page ∉ k.mem.free := by
  refine Exclusive.not_free h (Multiset.mem_add.mpr (.inl (Multiset.mem_add.mpr (.inl ?_))))
  exact mem_total.mpr ⟨p, hp⟩

/-- No two processes have the same page. -/
theorem Accounted.same_proc {page : ℕ} (h : Accounted mine lost k) (hp : page ∈ (k.procs p).own mine)
    (hq : page ∈ (k.procs q).own mine) : p = q := eq_of_nodup_total h.total_nodup hp hq

/-- No two entries of a process have the same page of its own. -/
theorem Accounted.same_vpn {va va' : ℕ} {e e' : Pte} (h : Accounted mine lost k) (hp : (k.procs p).state ≠ .unused)
    (he : (k.procs p).pgdir.pte va = some e) (he' : (k.procs p).pgdir.pte va' = some e')
    (hm : mine (k.procs p).mm (vpn va) = true) (hm' : mine (k.procs p).mm (vpn va') = true)
    (hpage : e.page = e'.page) : vpn va = vpn va' := by
  have hnd := Multiset.nodup_of_le (le_total (fun p => (k.procs p).own mine) p) h.total_nodup
  rw [Proc.own_of_live hp] at hnd
  exact vpn_eq_of_nodup_own (Multiset.nodup_of_le (Multiset.le_add_right _ _) hnd) he he' hm hm' hpage

/-! ### Operations -/

theorem Accounted.sbrk (h : Accounted mine lost k) (hp : (k.procs p).state ≠ .unused) {n : BitVec 32}
    (hm : ∀ a, a < (k.procs p).sz ∨ a < 0x60000000 → mine (k.procs p).mm (vpn a) = true)
    (hw : sysSbrk k p n = some (k', ret)) : Accounted mine lost k' := by
  obtain rfl | ⟨s, newsz, ⟨-, ha⟩ | ⟨-, hd⟩, rfl⟩ := sysSbrk_cases hw
  · exact h
  · exact h.put_same hp hp rfl fun R hR => allocuvm_owned exclusive_ledger ha (fun a ha => hm a (.inr ha)) hR
  · exact h.put_same hp hp rfl fun R hR => deallocuvm_owned exclusive_ledger hd (fun a ha => hm a (.inl ha)) hR

theorem readPage_exclusive {m m' : Mem} {fs fs' : Fs} {f page off : ℕ} {ok : Bool} {R : Multiset ℕ}
    (h : readPage m fs f page off = some (m', fs', ok)) (hm : Exclusive m R) : Exclusive m' R := by
  unfold readPage at h
  split at h
  · cases h
  · split at h
    · cases h
    · obtain ⟨rfl, -⟩ := Prod.mk.inj (Option.some.inj h)
      exact hm
    · obtain ⟨rfl, -⟩ := Prod.mk.inj (Option.some.inj h)
      exact hm

/-- A page fault maps nothing, or one page, which is the process's own or is lost. -/
theorem Accounted.fault {l : List (Fin 16)} (h : Accounted mine lost k) (hp : (k.procs p).state ≠ .unused)
    (ht : Listed (k.procs p).mm l)
    (hcount : ∀ i n, mine ((k.procs p).mm.set i { (k.procs p).mm.mmaps i with nLoadedPages := n }) = mine (k.procs p).mm)
    {addr : BitVec 32} (hw : handlePageFault k p addr = some (k', ret)) :
    ∃ X, Accounted mine (X + lost) k' ∧
      (X = 0 ∧ (∀ va, (k'.procs p).pgdir.pte va = (k.procs p).pgdir.pte va) ∨
        ∃ e, X = slot (!mine (k.procs p).mm (vpn (pgrounddown addr.toNat))) (some e) ∧
          (k.procs p).pgdir.pte (pgrounddown addr.toNat) = none ∧
          (k'.procs p).pgdir.pte (pgrounddown addr.toNat) = some e ∧
          ∀ va, vpn va ≠ vpn (pgrounddown addr.toNat) → (k'.procs p).pgdir.pte va = (k.procs p).pgdir.pte va) := by
  cases handlePageFault_cases ht hw with
  | failed => exact ⟨0, by rwa [zero_add], .inl ⟨rfl, fun _ => rfl⟩⟩
  | @noTable s page hmap =>
    refine ⟨0, ?_, .inl ⟨rfl, ?_⟩⟩
    · rw [zero_add]
      exact h.put_same hp hp rfl fun R hR => mapNew_noTable_owned exclusive_ledger.toBalance hmap hR
    · intro va
      obtain ⟨mem, -, rfl⟩ := mapNew_noTable hmap
      rw [Kernel.put_procs_self]
  | @mapped i s fs mem ok hi hlo hhi hmap hread =>
    -- the page is read into, and counted or not
    have hmem {R : Multiset ℕ} (hs : Exclusive s.mem R) : Exclusive mem R := by
      rcases hread with ⟨-, rfl, -⟩ | ⟨-, f, e, -, -, hread⟩
      · exact hs
      · exact readPage_exclusive hread hs
    have hmm : mine (if ok then (k.procs p).mm.set i { (k.procs p).mm.mmaps i with
        nLoadedPages := ((k.procs p).mm.mmaps i).nLoadedPages + 1 } else (k.procs p).mm) = mine (k.procs p).mm := by
      split
      · exact hcount _ _
      · rfl
    obtain ⟨hnone, page, hpte⟩ := mapNew_pte_self hmap
    refine ⟨slot (!mine (k.procs p).mm (vpn (pgrounddown addr.toNat))) (some ⟨page, true, true⟩), ?_,
      .inr ⟨_, rfl, hnone, by rw [Kernel.put_procs_self]; exact hpte, ?_⟩⟩
    · refine h.put hp hp rfl fun R hR => hmem ?_
      obtain ⟨page', hpte', hs⟩ := mapNew_owned exclusive_ledger.toBalance hmap hR
      obtain rfl : page = page' := by simpa using hpte.symm.trans hpte'
      dsimp only
      rwa [hmm]
    · intro va hva
      rw [Kernel.put_procs_self]
      exact mapNew_pte_of_ne hmap hva

theorem Accounted.wait (h : Accounted mine lost k) (hall : ∀ q, (k.procs q).state = .zombie →
      (k.procs q).pgdir.own (mine (k.procs q).mm) = (k.procs q).pgdir.own allMine)
    (hw : wait k p = some (k', ret)) : Accounted mine lost k' := by
  obtain rfl | ⟨q, kstack, mem, -, hz, hks, hfree, rfl⟩ := wait_cases hw
  · exact h
  · suffices hrep : Accounted mine (0 + lost) (k.put q { k.procs q with
        kstack := none, pid := 0, parent := none, state := .unused } mem k.fs) by
      rwa [zero_add] at hrep
    refine h.replace q (fun q' hq => by rw [Kernel.put_procs_of_ne hq]) rfl ?_
    intro R hR
    rw [Proc.own_of_live (by simp [hz]), hall q hz, hks, add_comm _ (Option.elim ..), add_assoc, Option.elim_some,
      Multiset.singleton_add] at hR
    rw [Kernel.put_procs_self, Proc.own_of_unused rfl, zero_add, zero_add]
    exact freevm_owned exclusive_ledger hfree (exclusive_ledger.give hR)

theorem Accounted.store (h : Accounted mine lost k) {va : BitVec 32} {b : UInt8} (hw : store k p va b = some k') :
    Accounted mine lost k' := by
  obtain ⟨e, -, rfl⟩ := store_cases hw
  exact h

theorem Accounted.take (h : Accounted mine lost k) (hrun : Op.run k .take = some k') : Accounted mine lost k' := by
  obtain ⟨⟨page, mem⟩, hk, rfl⟩ := Option.map_eq_some_iff.mp hrun
  have htaken := exclusive_ledger.take hk h
  unfold Accounted Kernel.own at htaken ⊢
  rwa [← Multiset.cons_coe, Multiset.add_cons, Multiset.cons_add]

theorem Accounted.give (h : Accounted mine lost k) {page : ℕ} (hrun : Op.run k (.give page) = some k') :
    Accounted mine lost k' := by
  obtain ⟨hin, rfl⟩ := give_cases hrun
  unfold Accounted Kernel.own at h ⊢
  rw [← Multiset.cons_erase (Multiset.mem_coe.mpr hin), Multiset.add_cons, Multiset.cons_add, Multiset.coe_erase] at h
  exact exclusive_ledger.give h

/-- `fork`, given what `copy_maps` does to the child's pages where it fails and where it succeeds. -/
theorem Accounted.fork (h : Accounted mine lost k)
    (hfail : ∀ {q : Fin 64} {kstack : ℕ} {m₀ m : Mem} {d : PageDir} {fs : Fs} {s : Copy} {R : Multiset ℕ},
      unusedProc k = some q → kalloc k.mem = some (kstack, m₀) →
      copyuvm m₀ (k.procs p).pgdir (k.procs p).sz = some (m, some d) → dupFiles k.fs (k.procs p).ofile = some fs →
      copyMaps (k.procs p).mm (k.procs p).pgdir 16 (k.procs p).mm.mmapHead ⟨⟨m, d⟩, fs, initMmaps, none⟩ =
        some (s, false) → Exclusive m (d.own allMine + R) → Exclusive s.space.mem (s.space.pgdir.own allMine + R))
    (hok : ∀ {m₀ m : Mem} {d : PageDir} {fs : Fs} {s : Copy} {R : Multiset ℕ},
      copyuvm m₀ (k.procs p).pgdir (k.procs p).sz = some (m, some d) →
      copyMaps (k.procs p).mm (k.procs p).pgdir 16 (k.procs p).mm.mmapHead ⟨⟨m, d⟩, fs, initMmaps, none⟩ =
        some (s, true) → Exclusive m (d.own allMine + R) → Exclusive s.space.mem (s.space.pgdir.own (mine s.mm) + R))
    (hw : fork k p = some (k', ret)) : Accounted mine lost k' := by
  have hI := exclusive_ledger
  -- the slot of the child has no pages before
  suffices hrep : ∀ {q : Fin 64}, unusedProc k = some q → k'.kpages = k.kpages →
      (∀ q' ≠ q, k'.procs q' = k.procs q') →
      (∀ R, Exclusive k.mem R → Exclusive k'.mem ((k'.procs q).own mine + R)) → Accounted mine lost k' by
    cases fork_cases hw with
    | noSlot => exact h
    | @noStack q hq _ pr hpr =>
      apply hrep hq rfl (fun q' hq' => update_of_ne hq' _ _)
      intro R hR
      dsimp only
      rwa [Kernel.put_procs_self, Proc.own_of_unused hpr, zero_add]
    | @noCopy q kstack m m' hq hstack hcopy pr hpr =>
      apply hrep hq rfl (fun q' hq' => update_of_ne hq' _ _)
      intro R hR
      dsimp only
      rw [Kernel.put_procs_self, Proc.own_of_unused hpr, zero_add]
      have hcopied := copyuvm_owned hI hcopy (hI.take hstack hR)
      rw [Option.elim_none, zero_add] at hcopied
      exact hI.give hcopied
    | @noMaps q kstack m m₁ m₂ d fs s hq hstack hcopy hdup hmaps hfree =>
      apply hrep hq rfl (fun q' hq' => update_of_ne hq' _ _)
      intro R hR
      dsimp only
      rw [Kernel.put_procs_self, Proc.own_of_unused rfl, zero_add]
      have hcopied := hfail hq hstack hcopy hdup hmaps (copyuvm_owned hI hcopy (hI.take hstack hR))
      rw [Multiset.add_cons] at hcopied
      exact freevm_owned hI hfree (hI.give hcopied)
    | @forked q kstack m m₁ d fs s hq hstack hcopy _ hmaps =>
      apply hrep hq rfl (fun q' hq' => update_of_ne hq' _ _)
      intro R hR
      have hcopied := hok hcopy hmaps (copyuvm_owned hI hcopy (hI.take hstack hR))
      dsimp only
      rwa [Kernel.put_procs_self, Proc.own_of_live (by simp [child]), add_assoc]
  intro q hq hkp hothers hself
  have hrep : Accounted mine (0 + lost) k' := by
    apply h.replace q (fun q' hq' => by rw [hothers q' hq']) hkp
    intro R hR
    rw [Proc.own_of_unused (unusedProc_some hq), zero_add] at hR
    rw [zero_add]
    exact hself R hR
  rwa [zero_add] at hrep

/-- `exit`, given what `delete_mmaps` does to the pages of the process, and of `Y`, and to the table of its
parent. -/
theorem Accounted.leave {Y : Multiset ℕ} {s : Deletion} (h : Accounted mine (Y + lost) k)
    (hp : (k.procs p).state ≠ .unused) (hex : Exits k p s k')
    (hdel : ∀ R, Exclusive k.mem ((k.procs p).pgdir.own (mine (k.procs p).mm) + (Y + R)) →
      Exclusive s.space.mem (s.space.pgdir.own (mine s.mm) + R))
    (hpar : ∀ q pm, (k.procs q).state ≠ .unused → (k.procs p).parent = some q → s.parent = some pm →
      mine pm = mine (k.procs q).mm) : Accounted mine lost k' := by
  suffices hacc : Accounted mine (0 + lost) k' by
    rwa [zero_add] at hacc
  refine h.exchange p ?_ hex.kpages ?_
  · intro q hq
    obtain ⟨mm, hmm, hcase⟩ := hex.others q hq
    have hstate := hex.other_state hq
    by_cases hlive : (k.procs q).state = .unused
    · rw [Proc.own_of_unused hlive, Proc.own_of_unused (by rw [hstate, hlive])]
    · have hmine : mine mm = mine (k.procs q).mm := by
        rcases hcase with rfl | ⟨hq', hpm⟩
        · rfl
        · exact hpar q mm hlive hq' hpm
      rw [Proc.own_of_live hlive, Proc.own_of_live (by rwa [hstate]), hmm, reparent_pgdir, reparent_mm, reparent_kstack]
      dsimp only
      rw [hmine]
  · intro R hR
    rw [Proc.own_of_live hp, add_assoc, add_left_comm (Option.elim ..)] at hR
    rw [Proc.own_of_live (by simp [hex.state]), hex.pgdir, hex.mm, hex.kstack, hex.mem, add_assoc, zero_add]
    exact hdel _ hR

/-- The same, where the pages are the process's own. -/
theorem Accounted.exit {s : Deletion} (h : Accounted mine lost k) (hp : (k.procs p).state ≠ .unused)
    (hex : Exits k p s k')
    (hdel : ∀ R, Exclusive k.mem ((k.procs p).pgdir.own (mine (k.procs p).mm) + R) →
      Exclusive s.space.mem (s.space.pgdir.own (mine s.mm) + R))
    (hpar : ∀ q pm, (k.procs q).state ≠ .unused → (k.procs p).parent = some q → s.parent = some pm →
      mine pm = mine (k.procs q).mm) : Accounted mine lost k' := by
  rw [← zero_add lost] at h
  refine h.leave hp hex ?_ hpar
  intro R hR
  rw [zero_add] at hR
  exact hdel R hR

end

end SdeSystems.Wmap
