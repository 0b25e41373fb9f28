import SdeSystems.Wmap.Accounts
import SdeSystems.Wmap.WellFormed

/-!
# Private mappings are isolated

Where all mappings are `MAP_PRIVATE`, every page that a process maps is its own: `copy_maps` gives
the child copies, and `wunmap`, `wpunmap`, `exit` and `wait` free what the process has and nothing
else, also where `fork` fails in the middle. So no page is mapped twice, none that is mapped is
free, none is freed twice, and a store of one process is not seen by another.
-/

namespace SdeSystems.Wmap

open Lib Function Relation

/-! ### Private mappings -/

/-- No region of the table is shared. -/
def Private (mm : Mmaps) : Prop := ∀ i, (mm.mmaps i).addr ≠ 2 ^ 32 - 1 → has (mm.mmaps i).flags mapShared = false

/-- No process has a shared region. -/
def AllPrivate (k : Kernel) : Prop := ∀ p, (k.procs p).state ≠ .unused → Private (k.procs p).mm

section

variable {mm mm' : Mmaps} {l : List (Fin 16)} {i : Fin 16} {r : Region}

theorem private_of_listed (h : Listed mm []) : Private mm := fun i hi => absurd ((h.used i).mpr hi) (by simp)

/-- One region is replaced by one that is not shared, or goes. -/
theorem Private.update (h : Private mm) (hmm : mm'.mmaps = update mm.mmaps i r)
    (hr : r.addr ≠ 2 ^ 32 - 1 → has r.flags mapShared = false) : Private mm' := by
  intro j hj
  rw [hmm] at hj ⊢
  by_cases hji : j = i
  · subst hji
    rw [update_self] at hj ⊢
    exact hr hj
  · rw [update_of_ne hji] at hj ⊢
    exact h j hj

/-- What `shrink` makes of a region has the flags of that region. -/
theorem Private.shrink {pd : PageDir} {fs fs' : Fs} {addr : ℕ} {length : ℤ} (h : Private mm)
    (hi : (mm.mmaps i).addr ≠ 2 ^ 32 - 1) (hs : shrink mm pd fs i addr length = some (some (mm', fs'))) : Private mm' := by
  have hflags := h i hi
  unfold Wmap.shrink at hs
  dsimp only at hs
  split at hs
  · obtain ⟨rfl, -⟩ := Prod.mk.inj (Option.some.inj (Option.some.inj hs))
    exact h.update rfl fun _ => hflags
  split at hs
  · obtain ⟨rfl, -⟩ := Prod.mk.inj (Option.some.inj (Option.some.inj hs))
    exact h.update rfl fun _ => hflags
  split at hs
  · cases Option.some.inj hs
  · rename_i j hj
    split at hs
    · rename_i _ _ _ fs₁ newLoaded oldLoaded _ _ _
      obtain ⟨rfl, -⟩ := Prod.mk.inj (Option.some.inj (Option.some.inj hs))
      have hfirst : Private (mm.set i { mm.mmaps i with
          length := i32 (addr - (mm.mmaps i).addr), nLoadedPages := oldLoaded }) := h.update rfl fun _ => hflags
      exact hfirst.update rfl fun _ => hflags
    · cases hs

end

section

variable {k k' : Kernel} {p q : Fin 64} {l : List (Fin 16)} {pr : Proc} {ret : ℤ}

theorem AllPrivate.put (h : AllPrivate k) (mem : Mem) (fs : Fs) (hpr : pr.state ≠ .unused → Private pr.mm) :
    AllPrivate (k.put p pr mem fs) :=
  Kernel.Each.put (P := fun pr => Private pr.mm) h rfl hpr

theorem Private.decParent {pm pm' : Mmaps} {addr : ℕ} (ht : Listed pm l) (h : Private pm)
    (hd : decParent pm addr = some pm') : Private pm' := by
  obtain rfl | ⟨j, hj, -, -, rfl⟩ := decParent_cases ht hd
  · exact h
  · exact h.update rfl fun _ => h j ((ht.used j).mp hj)

/-- The runs of the isolation theorem: no mapping is shared, and no range of `wpunmap` wraps around. -/
def privateOnly (_ : Kernel) : Op → Prop
  | .wmap _ _ _ flags _ => has flags mapShared = false
  | .wpunmap _ addr length => NoWrap addr length
  | _ => True

theorem AllPrivate.wmap (h : AllPrivate k) (ht : Table (k.procs p).mm l) (hp : (k.procs p).state ≠ .unused)
    {addr length flags fd : BitVec 32} (hflags : has flags mapShared = false)
    (hw : sysWmap k p addr length flags fd = some (k', ret)) : AllPrivate k' := by
  cases sysWmap_cases ht hw with
  | failed fs => exact h
  | @placed a mm m fd' f fs hpl =>
    cases hpl with
    | some l₁ l₂ hl hm hmm =>
      have hplaced : (placed mm m ⟨a, length.toInt, flags, fd', f, 0, 0⟩).mmaps =
          update (k.procs p).mm.mmaps m ⟨a, length.toInt, flags, fd', f, 0, 0⟩ := by
        simp [placed, Mmaps.set, hmm]
      exact h.put _ _ fun _ => (h p hp).update hplaced fun _ => hflags

theorem AllPrivate.wunmap (h : AllPrivate k) (ht : Table (k.procs p).mm l) (hp : (k.procs p).state ≠ .unused)
    {addr : BitVec 32} (hw : sysWunmap k p addr = some (k', ret)) : AllPrivate k' := by
  cases sysWunmap_cases ht.toListed hw with
  | failed => exact h
  | removed l₁ l₂ hl => exact h.put _ _ fun _ => (h p hp).update (unlink_mmaps _) fun hinit => absurd rfl hinit

theorem AllPrivate.wpunmap (h : AllPrivate k) (ht : Table (k.procs p).mm l) (hp : (k.procs p).state ≠ .unused)
    {addr length : BitVec 32} (hw : sysWpunmap k p addr length = some (k', ret)) : AllPrivate k' := by
  cases sysWpunmap_cases ht.toListed hw with
  | failed => exact h
  | @dropped l₁ i l₂ s out hl _ _ _ _ _ _ hshrink =>
    have hi : ((k.procs p).mm.mmaps i).addr ≠ 2 ^ 32 - 1 := (ht.used i).mp (by simp [hl])
    have hset : Private ((k.procs p).mm.set i { (k.procs p).mm.mmaps i with
        nLoadedPages := ((k.procs p).mm.mmaps i).nLoadedPages - s.dropped }) :=
      (h p hp).update rfl fun _ => h p hp i hi
    apply h.put _ _
    intro _
    cases out with
    | none => exact hset
    | some out => exact hset.shrink (by simpa [Mmaps.set] using hi) hshrink

theorem AllPrivate.fault (h : AllPrivate k) (ht : Table (k.procs p).mm l) (hp : (k.procs p).state ≠ .unused)
    {addr : BitVec 32} (hw : handlePageFault k p addr = some (k', ret)) : AllPrivate k' := by
  cases handlePageFault_cases ht.toListed hw with
  | failed => exact h
  | noTable => exact h.put _ _ fun _ => h p hp
  | @mapped i _ _ _ ok hi =>
    apply h.put _ _
    intro _
    cases ok with
    | true => exact (h p hp).update rfl fun _ => h p hp i ((ht.used i).mp hi)
    | false => exact h p hp

theorem AllPrivate.sbrk (h : AllPrivate k) (hp : (k.procs p).state ≠ .unused) {n : BitVec 32}
    (hw : sysSbrk k p n = some (k', ret)) : AllPrivate k' := by
  obtain rfl | ⟨s, newsz, -, rfl⟩ := sysSbrk_cases hw
  · exact h
  · exact h.put _ _ fun _ => h p hp

/-- The child of a process without shared regions has none. -/
theorem AllPrivate.fork (h : AllPrivate k) (ht : Table (k.procs p).mm l) (hp : (k.procs p).state ≠ .unused)
    (hw : fork k p = some (k', ret)) : AllPrivate k' := by
  refine Kernel.Each.fork (P := fun pr => Private pr.mm) h (fun _ hmaps i hi => ?_) hw
  rw [copyMaps_eq ht.linked ht.length_le] at hmaps
  obtain ⟨cl, hc, he⟩ := copyMaps_copied ht hmaps ⟨listed_init, rfl⟩
  exact region_of_core (P := fun r => has r.flags mapShared = false) (fun r => Iff.rfl) he
    (fun j hj => h p hp j ((ht.used j).mp hj)) i ((hc.listed.used i).mpr hi)

theorem AllPrivate.exit (h : AllPrivate k) (ht : Tables false k) (hp : (k.procs p).state ≠ .unused)
    (hw : exit k p = some k') : AllPrivate k' := by
  obtain ⟨l, htp, -⟩ := ht p hp
  have hboth := Kernel.Each.exit (P := fun pr => Good false pr.mm ∧ Private pr.mm) (fun q hq => ⟨ht q hq, h q hq⟩)
    htp.toListed (fun s hdel hex => ?_) (fun pr pm addr hpr hd => ?_) (fun pr hpr => ?_) hw
  · exact fun q hq => (hboth q hq).2
  · have hempty := deleteMmaps_listed htp.toListed hdel
    rw [hex.mm]
    exact ⟨⟨[], ⟨hempty, by simp, by simp⟩, by simp⟩, private_of_listed hempty⟩
  · obtain ⟨l', ht', -⟩ := hpr.1
    exact ⟨hpr.1.decParent hd, hpr.2.decParent ht'.toListed hd⟩
  · rwa [reparent_mm]

theorem AllPrivate.run (h : AllPrivate k) (ht : Tables false k) {op : Op}
    (hp : ∀ p, op.proc = some p → (k.procs p).state = .runnable) (hop : privateOnly k op) (hrun : op.run k = some k') :
    AllPrivate k' := by
  have hlive {p : Fin 64} (hrunning : op.proc = some p) : (k.procs p).state ≠ .unused := by simp [hp p hrunning]
  cases op with
  | wmap p addr length flags fd =>
    obtain ⟨⟨k₁, r⟩, hw, rfl⟩ := Option.map_eq_some_iff.mp hrun
    obtain ⟨l, ht, -⟩ := ht p (hlive rfl)
    exact h.wmap ht (hlive rfl) hop hw
  | wunmap p addr =>
    obtain ⟨⟨k₁, r⟩, hw, rfl⟩ := Option.map_eq_some_iff.mp hrun
    obtain ⟨l, ht, -⟩ := ht p (hlive rfl)
    exact h.wunmap ht (hlive rfl) hw
  | wpunmap p addr length =>
    obtain ⟨⟨k₁, r⟩, hw, rfl⟩ := Option.map_eq_some_iff.mp hrun
    obtain ⟨l, ht, -⟩ := ht p (hlive rfl)
    exact h.wpunmap ht (hlive rfl) hw
  | fault p addr =>
    obtain ⟨⟨k₁, r⟩, hw, rfl⟩ := Option.map_eq_some_iff.mp hrun
    obtain ⟨l, ht, -⟩ := ht p (hlive rfl)
    exact h.fault ht (hlive rfl) hw
  | sbrk p n =>
    obtain ⟨⟨k₁, r⟩, hw, rfl⟩ := Option.map_eq_some_iff.mp hrun
    exact h.sbrk (hlive rfl) hw
  | fork p =>
    obtain ⟨⟨k₁, r⟩, hw, rfl⟩ := Option.map_eq_some_iff.mp hrun
    obtain ⟨l, ht, -⟩ := ht p (hlive rfl)
    exact h.fork ht (hlive rfl) hw
  | exit p => exact h.exit ht (hlive rfl) hrun
  | wait p =>
    obtain ⟨⟨k₁, r⟩, hw, rfl⟩ := Option.map_eq_some_iff.mp hrun
    exact Kernel.Each.wait (P := fun pr => Private pr.mm) h hw
  | store p va b =>
    obtain ⟨e, -, rfl⟩ := store_cases hrun
    exact h
  | take =>
    obtain ⟨⟨page, mem⟩, -, rfl⟩ := Option.map_eq_some_iff.mp hrun
    exact h
  | give page =>
    obtain ⟨-, rfl⟩ := give_cases hrun
    exact h

/-! ### Pages -/

/-- Every page has one holder, and all pages that a process maps are its own. -/
def Separate (k : Kernel) : Prop := Accounted (fun _ => allMine) 0 k

theorem Separate.run (h : Separate k) (ht : Tables false k) (hpriv : AllPrivate k) {op : Op}
    (hp : ∀ p, op.proc = some p → (k.procs p).state = .runnable) (hrun : op.run k = some k') : Separate k' := by
  have hI := exclusive_ledger
  cases op with
  | wmap p addr length flags fd =>
    obtain ⟨⟨k₁, r⟩, hw, rfl⟩ := Option.map_eq_some_iff.mp hrun
    have hlive : (k.procs p).state ≠ .unused := by simp [hp p rfl]
    obtain ⟨l, ht, -⟩ := ht p hlive
    cases sysWmap_cases ht hw with
    | failed fs => exact h
    | placed => exact h.put_same hlive hlive rfl fun R hR => hR
  | wunmap p addr =>
    obtain ⟨⟨k₁, r⟩, hw, rfl⟩ := Option.map_eq_some_iff.mp hrun
    have hlive : (k.procs p).state ≠ .unused := by simp [hp p rfl]
    obtain ⟨l, ht, -⟩ := ht p hlive
    cases sysWunmap_cases ht.toListed hw with
    | failed => exact h
    | removed l₁ l₂ hl haddr hdrop =>
      exact h.put_same hlive hlive rfl fun R hR => dropPages_owned hI hdrop (fun _ _ _ => rfl) hR
  | wpunmap p addr length =>
    obtain ⟨⟨k₁, r⟩, hw, rfl⟩ := Option.map_eq_some_iff.mp hrun
    have hlive : (k.procs p).state ≠ .unused := by simp [hp p rfl]
    obtain ⟨l, ht, -⟩ := ht p hlive
    cases sysWpunmap_cases ht.toListed hw with
    | failed => exact h
    | dropped l₁ l₂ hl _ _ _ _ _ hdrop =>
      exact h.put_same hlive hlive rfl fun R hR => dropPages_owned hI hdrop (fun _ _ _ => rfl) hR
  | fault p addr =>
    obtain ⟨⟨k₁, r⟩, hw, rfl⟩ := Option.map_eq_some_iff.mp hrun
    have hlive : (k.procs p).state ≠ .unused := by simp [hp p rfl]
    obtain ⟨l, ht, -⟩ := ht p hlive
    obtain ⟨X, hX, -⟩ := Accounted.fault h hlive ht.toListed (fun _ _ => rfl) hw
    exact hI.drop (Multiset.add_le_add_left (Multiset.zero_le _)) hX
  | sbrk p n =>
    obtain ⟨⟨k₁, r⟩, hw, rfl⟩ := Option.map_eq_some_iff.mp hrun
    exact Accounted.sbrk h (by simp [hp p rfl]) (fun _ _ => rfl) hw
  | fork p =>
    obtain ⟨⟨k₁, r⟩, hw, rfl⟩ := Option.map_eq_some_iff.mp hrun
    have hlive : (k.procs p).state ≠ .unused := by simp [hp p rfl]
    obtain ⟨l, ht, -⟩ := ht p hlive
    have hcopies : ∀ i ∈ l, ((k.procs p).mm.mmaps i).Splits (k.procs p).pgdir allMine := by
      intro i hi va _ e _
      rw [hpriv p hlive i ((ht.used i).mp hi)]
      rfl
    refine Accounted.fork h (fun _ _ _ _ hmaps hm => ?_) (fun _ hmaps hm => ?_) hw
    · rw [copyMaps_eq ht.linked ht.length_le] at hmaps
      exact copyMaps_owned hI hmaps hcopies hm
    · rw [copyMaps_eq ht.linked ht.length_le] at hmaps
      exact copyMaps_owned hI hmaps hcopies hm
  | exit p =>
    have hlive : (k.procs p).state ≠ .unused := by simp [hp p rfl]
    obtain ⟨l, ht, -⟩ := ht p hlive
    obtain ⟨-, s, hdel, hex⟩ := exit_cases hrun
    refine Accounted.exit h hlive hex ?_ fun _ _ _ _ _ => rfl
    intro R hR
    exact deleteMmaps_owned (t := deletion k p) hI ht.toListed hdel (fun _ _ _ _ _ => rfl) hR
  | wait p =>
    obtain ⟨⟨k₁, r⟩, hw, rfl⟩ := Option.map_eq_some_iff.mp hrun
    exact Accounted.wait h (fun _ _ => rfl) hw
  | store p va b => exact Accounted.store h hrun
  | take => exact Accounted.take h hrun
  | give page => exact Accounted.give h hrun

/-! ### Isolation -/

/-- The processes are isolated from each other. -/
structure Isolated (k : Kernel) : Prop where
  /-- Two entries with the same page are of the same process and the same address. -/
  once : ∀ p q va va' e e', (k.procs p).state ≠ .unused → (k.procs q).state ≠ .unused → va < 2 ^ 32 → va' < 2 ^ 32 →
    (k.procs p).pgdir.pte va = some e → (k.procs q).pgdir.pte va' = some e' → e.page = e'.page →
    p = q ∧ va / 4096 = va' / 4096
  /-- A page that is mapped is not free. -/
  notFree : ∀ p va e, (k.procs p).state ≠ .unused → (k.procs p).pgdir.pte va = some e → e.page ∉ k.mem.free
  /-- No page has been freed twice. -/
  freedOnce : k.mem.twice = false
  /-- A store of one process changes no byte that another one reads. -/
  stores : ∀ p q va b k', (k.procs p).state = .runnable → (k.procs q).state ≠ .unused → q ≠ p →
    store k p va b = some k' → ∀ va', k'.read q va' = k.read q va'

theorem Separate.isolated (h : Separate k) : Isolated k where
  once p q va va' e e' hp hq hlt hlt' he he' hpage := by
    obtain rfl : p = q :=
      Accounted.same_proc h (Proc.mem_own hp he rfl) (hpage ▸ Proc.mem_own hq he' rfl)
    have hvpn := Accounted.same_vpn h hp he he' rfl rfl hpage
    unfold vpn at hvpn
    exact ⟨rfl, by omega⟩
  notFree p va e hp he := Accounted.not_free h (Proc.mem_own hp he rfl)
  freedOnce := h.2
  stores p q va b k' hp hq hne hw va' := by
    obtain ⟨e, he, rfl⟩ := store_cases hw
    unfold Kernel.read
    dsimp only
    cases he' : (k.procs q).pgdir.pte va' with
    | none => rfl
    | some e' =>
      -- the page that is written to is not one of `q`
      have hpages : e'.page ≠ e.page := fun hpage =>
        hne (Accounted.same_proc h (Proc.mem_own hq he' rfl) (hpage ▸ Proc.mem_own (by simp [hp]) he rfl))
      simp [Mem.fill, hpages]

/-- A kernel before the first mapping: the tables are empty and every page has one holder. -/
structure Fresh (k : Kernel) : Prop where
  /-- The tables are those that `init_mmaps` makes. -/
  tables : FreshTables k
  /-- Every page has one holder. -/
  pages : Separate k

/-- What holds in every state of such a run. -/
theorem private_invariant {k₀ k : Kernel} (h₀ : Fresh k₀) (h : Reachable privateOnly k₀ k) :
    Tables false k ∧ AllPrivate k ∧ Separate k := by
  induction h with
  | refl =>
    refine ⟨?_, ?_, h₀.pages⟩
    · intro p hp
      rw [h₀.tables p hp]
      exact good_init false
    · intro p hp
      rw [h₀.tables p hp]
      exact private_of_listed listed_init
  | tail _ hstep ih =>
    obtain ⟨htables, hprivate, hpages⟩ := ih
    obtain ⟨op, hp, hop, hrun⟩ := hstep
    refine ⟨htables.run hp ?_ hrun, hprivate.run htables hp hop hrun, hpages.run htables hprivate hp hrun⟩
    intro p addr length hw
    subst hw
    exact ⟨rfl, hop⟩

/-- **Private mappings are isolated** in every run of `wmap` without `MAP_SHARED`, `wunmap`, `wpunmap` of ranges
that do not wrap around, page faults, stores, `sbrk`, `fork`, which may fail at any point, `exit` and `wait`. -/
theorem private_mappings_isolated {k₀ k : Kernel} (h₀ : Fresh k₀) (h : Reachable privateOnly k₀ k) : Isolated k :=
  (private_invariant h₀ h).2.2.isolated

end

/-! ### The first process -/

/-- The pages of one page table of `initproc`. -/
theorem boot_table (n : ℕ) (i : Fin 1024) :
    ∃ l : List ℕ, (((boot n).procs 0).pgdir.tables i).elim 0 (PageTable.own allMine i) = l ∧ l.Nodup ∧
      ∀ page ∈ l, i = 0 ∧ (page = 3 ∨ page = 4) ∨ i ≠ 0 ∧ page = 1000 + i.val := by
  simp only [boot]
  split_ifs with h₀ hk
  · subst h₀
    refine ⟨[3, 4], ?_, by decide, by simp⟩
    rw [Option.elim_some]
    unfold PageTable.own
    rw [total_single (i := 0) fun j hj => by simp [hj]]
    rfl
  · exact ⟨[1000 + i.val], by rw [Option.elim_some, own_newTable]; rfl, by simp, by simp [h₀]⟩
  · exact ⟨[], rfl, List.nodup_nil, by simp⟩

theorem boot_separate (n : ℕ) : Separate (boot n) := by
  -- only `initproc` has pages
  have hown : (boot n).own (fun _ => allMine) = ((boot n).procs 0).pgdir.own allMine + {1} := by
    unfold Kernel.own
    rw [total_single (i := 0) fun p hp => Proc.own_of_unused (by simp [boot, hp]), Proc.own_of_live (by simp [boot])]
    exact add_zero _
  have htotal (page : ℕ) (h : page ∈ total fun i => (((boot n).procs 0).pgdir.tables i).elim 0 (PageTable.own allMine i)) :
      page = 3 ∨ page = 4 ∨ 1000 < page ∧ page < 3000 := by
    obtain ⟨i, hi⟩ := mem_total.mp h
    obtain ⟨l, hl, -, hmem⟩ := boot_table n i
    rw [hl] at hi
    rcases hmem page hi with ⟨-, h₃ | h₄⟩ | ⟨hne, rfl⟩
    · exact .inl h₃
    · exact .inr (.inl h₄)
    · have : i.val ≠ 0 := fun h₀ => hne (Fin.ext h₀)
      exact .inr (.inr (by omega))
  have hnodup : (total fun i => (((boot n).procs 0).pgdir.tables i).elim 0 (PageTable.own allMine i)).Nodup := by
    refine nodup_total ?_ ?_
    · intro i
      obtain ⟨l, hl, hnd, -⟩ := boot_table n i
      rw [hl]
      exact hnd
    · intro i j page hi hj
      obtain ⟨l, hl, -, hmem⟩ := boot_table n i
      obtain ⟨l', hl', -, hmem'⟩ := boot_table n j
      rw [hl] at hi
      rw [hl'] at hj
      have h₁ := hmem page hi
      have h₂ := hmem' page hj
      by_contra hne
      have : i.val ≠ j.val := fun h => hne (Fin.ext h)
      have h₀ : ∀ i : Fin 1024, i ≠ 0 → i.val ≠ 0 := fun i hi h => hi (Fin.ext h)
      grind
  have hdir : ((boot n).procs 0).pgdir.own allMine =
      2 ::ₘ total fun i => (((boot n).procs 0).pgdir.tables i).elim 0 (PageTable.own allMine i) := by
    unfold PageDir.own
    rfl
  unfold Separate Accounted
  rw [hown, hdir, add_zero]
  generalize (total fun i => (((boot n).procs 0).pgdir.tables i).elim 0 (PageTable.own allMine i)) = T at htotal hnodup
  refine ⟨Multiset.nodup_add.mpr ⟨?_, ?_, ?_⟩, rfl⟩
  · exact List.nodup_range'
  · rw [add_comm, Multiset.singleton_add, Multiset.nodup_cons, Multiset.nodup_cons, Multiset.mem_cons]
    have h₁ : 1 ∉ T := fun h => by simpa using htotal 1 h
    have h₂ : 2 ∉ T := fun h => by simpa using htotal 2 h
    exact ⟨by simp [h₁], h₂, hnodup⟩
  · refine Multiset.disjoint_left.mpr fun {page} hfree hin => ?_
    have hge : 3000 ≤ page := (List.mem_range'_1.mp hfree).1
    rw [Multiset.mem_add, Multiset.mem_cons, Multiset.mem_singleton] at hin
    rcases hin with (rfl | hT) | rfl
    · omega
    · have := htotal page hT
      omega
    · omega

theorem boot_fresh (n : ℕ) : Fresh (boot n) := ⟨fun _ _ => rfl, boot_separate n⟩

/-- A private mapping of two pages, of which one is touched, and a child that stores to its copy. -/
def privateFork : List Op :=
  [.wmap initproc 0x60000000 0x2000 0xD (-1), .fault initproc 0x60000000, .fork initproc, .store firstChild 0x60000000 7]

theorem private_mappings_isolated_fork : ∃ k, runAll (boot 100) privateFork = some k ∧
    (k.procs 1).state = .runnable ∧ Isolated k := by
  have hrun : ((runAll (boot 100) privateFork).map fun k => decide ((k.procs 1).state = .runnable)) = some true := by
    decide +kernel
  obtain ⟨k, hk, hstate⟩ := Option.map_eq_some_iff.mp hrun
  refine ⟨k, hk, of_decide_eq_true hstate, private_mappings_isolated (boot_fresh 100) (reachable_of_runAll hk ?_)⟩
  intro op hop k
  simp only [privateFork, List.mem_cons, List.not_mem_nil, or_false] at hop
  rcases hop with rfl | rfl | rfl | rfl
  · exact (by decide : has 0xD mapShared = false)
  · trivial
  · trivial
  · trivial

end SdeSystems.Wmap
