import SdeSystems.Wmap.HandedDown

/-!
# Shared pages in a tree of forks

`copy_maps` sets `refcnt` to 1 in the child's shared regions, so that `delete_mmaps` of the child does
not free their pages, and instead takes one off the `refcnt` of its parent's region. But that is the
count of what the parent has itself inherited: after a grandchild has exited, the child has 0 there, as
if it had made the mapping, and frees the pages when it exits, which its parent still maps. And where
`copy_maps` fails, `fork` frees the pages that it has shared so far.

In every run in which neither happens no page that a process maps is free, and none is freed twice. The
pages of the shared regions are handed down the tree of processes; a process that exits before its parent
and frees such a page is the last to have it.
-/

namespace SdeSystems.Wmap

open Lib Function Relation

/-! ### Safety -/

/-- No page that a process maps is free, and no page has been freed twice. -/
structure PageSafe (k : Kernel) : Prop where
  /-- A page that is mapped is not free. -/
  notFree : ∀ p va e, (k.procs p).state ≠ .unused → (k.procs p).pgdir.pte va = some e → e.page ∉ k.mem.free
  /-- No page has been freed twice. -/
  freedOnce : k.mem.twice = false

/-- All pages of the mappings of a process have been touched. -/
def Touched (pr : Proc) : Prop := ∀ i, (pr.mm.mmaps i).addr ≠ 2 ^ 32 - 1 →
  ∀ va ∈ pageRange (pr.mm.mmaps i).addr (pr.mm.mmaps i).stop, pr.pgdir.pte va ≠ none

instance (pr : Proc) : Decidable (Touched pr) := inferInstanceAs (Decidable (∀ i, (pr.mm.mmaps i).addr ≠ 2 ^ 32 - 1 →
  ∀ va ∈ pageRange (pr.mm.mmaps i).addr (pr.mm.mmaps i).stop, pr.pgdir.pte va ≠ none))

/-- The children of `p` have exited. -/
def Childless (k : Kernel) (p : Fin 64) : Prop :=
  ∀ q, (k.procs q).parent = some p → (k.procs q).state = .unused ∨ (k.procs q).state = .zombie

instance (k : Kernel) (p : Fin 64) : Decidable (Childless k p) := inferInstanceAs (Decidable
  (∀ q, (k.procs q).parent = some p → (k.procs q).state = .unused ∨ (k.procs q).state = .zombie))

/-- What the README assumes: all pages of the mappings are touched before a fork, no process unmaps, and a
process exits after its children. -/
def Obeys (k : Kernel) : Op → Prop
  | .fork p => Touched (k.procs p)
  | .exit p => Childless k p
  | .wunmap .. | .wpunmap .. => False
  | _ => True

/-- `fork` of `p` fails in `copy_maps` after a page of a shared region has come to the child. -/
def ForkLeaks (k : Kernel) (p : Fin 64) : Prop :=
  ∃ before i after done va rest j x, Linked (k.procs p).mm.next (k.procs p).mm.mmapHead (before ++ i :: after) none ∧
    pageRange ((k.procs p).mm.mmaps i).addr ((k.procs p).mm.mmaps i).stop = done ++ va :: rest ∧
    ForkStops k p before i done va ∧ has ((k.procs p).mm.mmaps j).flags mapShared = true ∧
    (j ∈ before ∧ x ∈ pageRange ((k.procs p).mm.mmaps j).addr ((k.procs p).mm.mmaps j).stop ∨ j = i ∧ x ∈ done) ∧
    (k.procs p).pgdir.pte x ≠ none

/-- `p` has a shared region with `refcnt` 0 and in it a page that its parent maps. -/
def ExitLeaks (k : Kernel) (p : Fin 64) : Prop :=
  ∃ i va e q, ((k.procs p).mm.mmaps i).addr ≠ 2 ^ 32 - 1 ∧ has ((k.procs p).mm.mmaps i).flags mapShared = true ∧
    ((k.procs p).mm.mmaps i).refcnt = 0 ∧
    va ∈ pageRange ((k.procs p).mm.mmaps i).addr ((k.procs p).mm.mmaps i).stop ∧
    (k.procs p).pgdir.pte va = some e ∧ (k.procs p).parent = some q ∧ (k.procs q).state ≠ .unused ∧ Maps k q e.page

/-- The operation frees no shared page that a process still maps. -/
def Tight (k : Kernel) : Op → Prop
  | .fork p => ¬ ForkLeaks k p
  | .exit p => ¬ ExitLeaks k p
  | _ => True

section

variable {pool : Multiset ℕ} {k k' : Kernel} {p q : Fin 64} {l : List (Fin 16)} {ret : ℤ}

theorem Tree.pageSafe (h : Tree pool k) : PageSafe k where
  notFree p va e hp he := by
    cases hout : outside Region.isShared (k.procs p).mm (vpn va) with
    | true => exact h.pages.not_free (Proc.mem_own hp he hout)
    | false =>
      have hpool := h.handed.pooled p (vpn va) e.page ⟨hp, Proc.hasShared he hout⟩
      exact Exclusive.not_free h.pages (Multiset.mem_add.mpr (.inr hpool))
  freedOnce := h.pages.2

/-! ### `fork` -/

/-- The child of a `fork` has the entries of the shared regions of its parent. -/
theorem Tidy.child {m₀ m : Mem} {d : PageDir} {fs : Fs} {s : Copy} (h : Tidy (k.procs p) l)
    (hcopy : copyuvm m₀ (k.procs p).pgdir (k.procs p).sz = some (m, some d))
    (hmaps : copyMaps (k.procs p).mm (k.procs p).pgdir 16 (k.procs p).mm.mmapHead ⟨⟨m, d⟩, fs, initMmaps, none⟩ =
      some (s, true)) (c : Fin 64) (kstack : ℕ) :
    (∃ cl, Tidy (child k p c kstack s.space.pgdir s.mm .runnable) cl) ∧
      (∀ va < 2 ^ 32, outside Region.isShared s.mm (vpn va) = outside Region.isShared (k.procs p).mm (vpn va)) ∧
      ∀ n page, (child k p c kstack s.space.pgdir s.mm .runnable).HasShared n page ↔ (k.procs p).HasShared n page := by
  have ht := h.table
  have hnone (va : ℕ) (h₁ : 0x60000000 ≤ va) (h₂ : va < 2 ^ 32) : d.pte va = none := copyuvm_pte hcopy h.size h₁ h₂
  rw [copyMaps_eq ht.linked ht.length_le] at hmaps
  obtain ⟨cl, hc, he, hagree, -⟩ := copyMaps_sound ht hmaps ⟨listed_init, rfl⟩ hnone
  have ht' := ht.of_cores hc.listed he
  have hout (va : ℕ) (hva : va < 2 ^ 32) :
      outside Region.isShared s.mm (vpn va) = outside Region.isShared (k.procs p).mm (vpn va) :=
    outside_of_cores (fun _ => rfl) ht ht' he hva
  refine ⟨⟨cl, ht', ?_, h.size⟩, hout, ?_⟩
  · intro va e h₁ h₂ hva
    have hva' : s.space.pgdir.pte va = some e := hva
    rw [PageDir.pte_congr vpn_eq_pgrounddown] at hva'
    obtain ⟨i, hi, hlo, hhi⟩ := hagree.covered (va / 4096 * 4096) (by omega) (by omega) (by omega) (by simp [hva'])
    have hle := (ht'.region i hi).stop_le_pageEnd
    refine ⟨i, hi, ?_⟩
    change (s.mm.mmaps i).addr ≤ va ∧ va < (s.mm.mmaps i).pageEnd
    unfold Region.pageEnd at hle ⊢
    omega
  · -- a page of a shared region of the parent
    intro n page
    have hpage (hn : n < 2 ^ 20) (ho : outside Region.isShared (k.procs p).mm n = false) :
        d.pte (4096 * n) = none ∧ ∀ e, (k.procs p).pgdir.pte (4096 * n) = some e →
          s.space.pgdir.pte (4096 * n) = some ⟨e.page, true, true⟩ := by
      obtain ⟨i, hi, hsh, hin⟩ := h.region hn ho
      have hr := ht.region i hi
      have hlo := hr.lo
      have hge := ((mem_pageRange_of_aligned hr.aligned).mp hin).1
      exact ⟨hnone _ (by omega) (by omega), fun e he => copyMaps_shared hmaps hi hsh hin he⟩
    constructor
    · rintro ⟨hn, ho, e, he, rfl⟩
      have ho' : outside Region.isShared (k.procs p).mm n = false := by
        rw [← vpn_page hn, ← hout _ (by omega), vpn_page hn]
        exact ho
      obtain ⟨hd, hcopied⟩ := hpage hn ho'
      have hparent : (k.procs p).pgdir.pte (4096 * n) ≠ none :=
        (copyMaps_origin hmaps he).resolve_left fun hold => by
          rw [hd] at hold
          cases hold
      obtain ⟨e₀, he₀⟩ := Option.ne_none_iff_exists'.mp hparent
      refine ⟨hn, ho', e₀, he₀, ?_⟩
      rw [← Option.some.inj ((hcopied e₀ he₀).symm.trans he)]
    · rintro ⟨hn, ho, e, he, rfl⟩
      refine ⟨hn, ?_, _, (hpage hn ho).2 e he, rfl⟩
      change outside Region.isShared s.mm n = false
      rw [← vpn_page hn, hout _ (by omega), vpn_page hn]
      exact ho

/-- The pages after `fork`. Where `copy_maps` fails none of a shared region have come to the child. -/
theorem Tree.fork_pages (h : Tree pool k) (htidy : Tidy (k.procs p) l) (hleak : ¬ ForkLeaks k p)
    (hw : fork k p = some (k', ret)) : Accounted (outside Region.isShared) pool k' := by
  have ht := htidy.table
  have hI := exclusive_ledger
  refine h.pages.fork (fun hq hstack hcopy hdup hmaps hm => ?_) (fun hcopy hmaps hm => ?_) hw
  · obtain ⟨before, i, after, done, va, rest, rfl, hrange, hstop⟩ :=
      copyMaps_stops ht ⟨listed_init, rfl⟩ hmaps
    -- up to that point there is no page of a shared region
    have hempty (j : Fin 16) (x : ℕ) (hsh : has ((k.procs p).mm.mmaps j).flags mapShared = true)
        (hx : j ∈ before ∧ x ∈ pageRange ((k.procs p).mm.mmaps j).addr ((k.procs p).mm.mmaps j).stop ∨
          j = i ∧ x ∈ done) : (k.procs p).pgdir.pte x = none := by
      by_contra hne
      exact hleak ⟨before, i, after, done, va, rest, j, x, ht.linked, hrange,
        ⟨_, _, _, _, _, _, _, hq, hstack, hcopy, hdup, hstop⟩, hsh, hx, hne⟩
    refine hstop.owned hI ?_ (fun hsh x hx => hempty i x hsh (.inr ⟨rfl, hx⟩)) hm
    intro j hj x hx e he
    cases hsh : has ((k.procs p).mm.mmaps j).flags mapShared with
    | false => rfl
    | true =>
      rw [hempty j x hsh (.inl ⟨hj, hx⟩)] at he
      cases he
  · obtain ⟨-, hout, -⟩ := htidy.child hcopy hmaps p 0
    rw [copyMaps_eq ht.linked ht.length_le] at hmaps
    refine copyMaps_owned hI hmaps ?_ ?_
    · intro i hi va hva e _
      have hr := ht.region i hi
      have hle := hr.stop_le_pageEnd
      have hend := hr.pageEnd_le
      obtain ⟨hlo, hhi, -⟩ := (mem_pageRange_of_aligned hr.aligned).mp hva
      rw [hout va (by omega)]
      exact outside_of_region ht hi hlo (by omega)
    · -- so far the child has the copy of the heap
      dsimp only
      rwa [show PageDir.own (outside Region.isShared _) _ = PageDir.own allMine _ from
        own_congr fun va e hlt he => ?_]
      by_cases hva : 0x60000000 ≤ va
      · rw [copyuvm_pte hcopy htidy.size hva hlt] at he
        cases he
      · rw [hout va hlt]
        exact outside_below ht (by omega)

/-- `fork`: the child gets the shared pages of its parent. -/
theorem Tree.fork (h : Tree pool k) (hp : (k.procs p).state = .runnable) (hleak : ¬ ForkLeaks k p)
    (hw : fork k p = some (k', ret)) : Tree pool k' := by
  have hlive : (k.procs p).state ≠ .unused := by simp [hp]
  obtain ⟨l, htidy⟩ := h.tidy p hlive
  have hpages := h.fork_pages htidy hleak hw
  -- the slot of the child has no shared pages before
  have hnone {q : Fin 64} (hq : unusedProc k = some q) (n page : ℕ) : ¬ k.HasShared q n page :=
    fun hs => hs.1 (unusedProc_some hq)
  have hfailed {q : Fin 64} (hq : unusedProc k = some q) (hothers : ∀ q' ≠ q, k'.procs q' = k.procs q')
      (hunused : (k'.procs q).state = .unused) : Tree pool k' := by
    refine h.step q hothers hpages (fun hlive => absurd hunused hlive) ?_
      (fun n page => iff_of_false (fun hs => hs.1 hunused) (hnone hq n page)) fun n page hs => absurd hs (hnone hq n page)
    intro hz
    rw [hunused] at hz
    cases hz
  cases fork_cases hw with
  | noSlot => exact h
  | @noStack q hq _ pr hpr =>
    exact hfailed hq (fun q' hq' => update_of_ne hq' _ _) (by simpa [Kernel.put, Kernel.setProc] using hpr)
  | @noCopy q _ _ _ hq _ _ pr hpr =>
    exact hfailed hq (fun q' hq' => update_of_ne hq' _ _) (by simpa [Kernel.put, Kernel.setProc] using hpr)
  | @noMaps q _ _ _ _ _ _ _ hq =>
    exact hfailed hq (fun q' hq' => update_of_ne hq' _ _) (by simp [Kernel.put, Kernel.setProc, child])
  | @forked q kstack m m₁ d fs s hq hstack hcopy _ hmaps =>
    obtain ⟨⟨cl, hchild⟩, -, hsame⟩ := htidy.child hcopy hmaps q kstack
    generalize hk : ({ k.put q (child k p q kstack s.space.pgdir s.mm .runnable) s.space.mem s.fs with
      nextpid := k.nextpid + 1 } : Kernel) = k' at *
    have hothers (q' : Fin 64) (hq' : q' ≠ q) : k'.procs q' = k.procs q' := by
      rw [← hk]
      exact update_of_ne hq' _ _
    have hself : k'.procs q = child k p q kstack s.space.pgdir s.mm .runnable := by
      rw [← hk]
      exact update_self _ _ _
    refine h.change q hothers hpages (fun _ => ⟨cl, by rwa [hself]⟩) ?_ ?_
    · intro hz
      rw [hself] at hz
      cases hz
    · refine h.handed.inherit (c := q) (p := p) (by rw [hself]; rfl) ?_ ?_
      · intro q' n page hs
        have hq' : q' ≠ q := fun hqq => hnone hq n page (hqq ▸ hs)
        rw [hothers q' hq']
      · intro q' n page
        by_cases hq' : q' = q
        · subst hq'
          unfold Kernel.HasShared
          rw [hself, hsame]
          simp [child, hlive, unusedProc_some hq]
        · rw [Kernel.hasShared_congr (hothers q' hq')]
          simp [hq']

/-! ### `exit` -/

/-- What `exit` leaves to another process. -/
structure Survives (pr pr' : Proc) : Prop where
  /-- The process is in order. -/
  tidy : ∃ l, Tidy pr' l
  /-- It has mappings only if it has not exited. -/
  gone : pr'.state = .zombie → Listed pr'.mm []
  /-- The shared regions are as before. -/
  mm : outside Region.isShared pr'.mm = outside Region.isShared pr.mm
  /-- The entries are as before. -/
  pgdir : pr'.pgdir = pr.pgdir

theorem Survives.reparent {pr pr' : Proc} (h : Survives pr pr') : Survives pr (reparent p pr') := by
  unfold Wmap.reparent
  split
  · obtain ⟨l, htidy⟩ := h.tidy
    exact ⟨⟨l, htidy.table, htidy.covered, htidy.size⟩, h.gone, h.mm, h.pgdir⟩
  · exact h

/-- A parent's count of references does not matter. -/
theorem Survives.decParent {pr pr' : Proc} {pm : Mmaps} {addr : ℕ} (h : Survives pr pr')
    (hd : decParent pr'.mm addr = some pm) : Survives pr { pr' with mm := pm } := by
  obtain ⟨l, htidy⟩ := h.tidy
  obtain rfl | ⟨j, hj, -, -, rfl⟩ := decParent_cases htidy.table.toListed hd
  · exact h
  · have hset := htidy.set_same (i := j) (r := { pr'.mm.mmaps j with refcnt := (pr'.mm.mmaps j).refcnt - 1 }) hj rfl rfl rfl
    refine ⟨⟨l, hset.1⟩, ?_, hset.2.trans h.mm, h.pgdir⟩
    -- a process that has exited has no region
    intro hz
    have hempty := h.gone hz
    rw [htidy.table.linked.unique hempty.linked] at hj
    cases hj

/-- The pages of shared regions that `delete_mmaps` of the process frees. -/
def freedShared (pr : Proc) : Multiset ℕ :=
  pr.pgdir.lent fun n => outside Region.isKept pr.mm n && !outside Region.isShared pr.mm n

/-- Such a page is in a shared region with `refcnt` 0. -/
theorem Tidy.mem_freedShared {pr : Proc} {page : ℕ} (h : Tidy pr l) (hpage : page ∈ freedShared pr) :
    ∃ n, pr.HasShared n page ∧ ∃ i ∈ l, has (pr.mm.mmaps i).flags mapShared = true ∧ (pr.mm.mmaps i).refcnt = 0 ∧
      4096 * n ∈ pageRange (pr.mm.mmaps i).addr (pr.mm.mmaps i).stop := by
  obtain ⟨n, hn, hm, he⟩ := mem_lent.mp hpage
  rw [Bool.and_eq_true, Bool.not_eq_true'] at hm
  obtain ⟨hkept, hout⟩ := hm
  obtain ⟨i, hi, hsh, hin⟩ := h.region hn hout
  have hr := h.table.region i hi
  have hle := hr.stop_le_pageEnd
  obtain ⟨hlo, hhi, -⟩ := (mem_pageRange_of_aligned hr.aligned).mp hin
  rw [← vpn_page hn, outside_of_region h.table hi hlo (by omega)] at hkept
  exact ⟨n, ⟨hn, hout, he⟩, i, hi, hsh, by simpa [Region.isKept, hsh] using hkept, hin⟩

/-- `delete_mmaps` frees pages of the process, and those of its shared regions with `refcnt` 0. -/
theorem Tidy.deleteMmaps {s : Deletion} {R : Multiset ℕ} (h : Tidy (k.procs p) l)
    (hdel : deleteMmaps (deletion k p) = some s)
    (hR : Exclusive k.mem ((k.procs p).pgdir.own (outside Region.isShared (k.procs p).mm) + (freedShared (k.procs p) + R))) :
    Exclusive s.space.mem (s.space.pgdir.own (outside Region.isShared s.mm) + R) := by
  have ht := h.table
  have hsub (n : ℕ) (hn : outside Region.isShared (k.procs p).mm n = true) :
      outside Region.isKept (k.procs p).mm n = true :=
    outside_mono (fun r hr => (Bool.and_eq_true _ _ ▸ hr).1) hn
  rw [← add_assoc, freedShared, ← own_lent hsub] at hR
  have hafter := deleteMmaps_owned (t := deletion k p) exclusive_ledger ht.toListed hdel (fun i hi hzero va hva => ?_) hR
  · -- what is left is in no region
    obtain ⟨hpte, hcleared⟩ := deleteMmaps_pte (s := deletion k p) ht hdel
    have hempty := deleteMmaps_listed ht.toListed hdel
    rwa [show s.space.pgdir.own (outside Region.isShared s.mm) =
      s.space.pgdir.own (outside Region.isKept (k.procs p).mm) from own_congr fun va e hlt he => ?_]
    rw [outside_of_empty hempty]
    refine (Bool.eq_true_of_not_eq_false ?_).symm
    intro hout
    obtain ⟨i, hi, -, hlo, hhi⟩ := (outside_iff ht hlt).mp hout
    rw [hcleared i hi va hlo hhi] at he
    cases he
  · have hr := ht.region i hi
    have hle := hr.stop_le_pageEnd
    have hva' : va ∈ pageRange ((k.procs p).mm.mmaps i).addr ((k.procs p).mm.mmaps i).stop := hva
    have hzero' : ((k.procs p).mm.mmaps i).refcnt = 0 := hzero
    obtain ⟨hlo, hhi, -⟩ := (mem_pageRange_of_aligned hr.aligned).mp hva'
    rw [outside_of_region ht hi hlo (by omega)]
    simp [Region.isKept, hzero']

/-- No process that has a shared page is a child of one whose children have all exited. -/
theorem Tree.not_parent (h : Tree pool k) (hobeys : Childless k p) {n page : ℕ} (hs : k.HasShared q n page) :
    (k.procs q).parent ≠ some p := by
  intro hpar
  rcases hobeys q hpar with hunused | hz
  · exact hs.1 hunused
  · have hout := hs.2.2.1
    rw [outside_of_empty (h.gone q hz)] at hout
    cases hout

/-- The pages that `exit` frees are part of the pool, each once. -/
theorem Tree.freedShared_le (h : Tree pool k) (hlive : (k.procs p).state ≠ .unused) (htidy : Tidy (k.procs p) l) :
    freedShared (k.procs p) ≤ pool := by
  refine (Multiset.le_iff_subset (nodup_lent ?_)).mpr ?_
  · intro n n' e e' hn hn' hm hm' he he' hpage
    rw [Bool.and_eq_true, Bool.not_eq_true'] at hm hm'
    exact h.handed.once p p n n' e.page ⟨hlive, hn, hm.2, e, he, rfl⟩ ⟨hlive, hn', hm'.2, e', he', hpage.symm⟩
  · intro page hpage
    obtain ⟨n, hs, -⟩ := htidy.mem_freedShared hpage
    exact h.handed.pooled p n page ⟨hlive, hs⟩

/-- `exit` after the children: the pages that are freed leave the pool, and no other process has one of them. -/
theorem Tree.exit (h : Tree pool k) (hp : (k.procs p).state = .runnable)
    (hobeys : Childless k p) (hleak : ¬ ExitLeaks k p) (hw : exit k p = some k') : ∃ pool', Tree pool' k' := by
  have hlive : (k.procs p).state ≠ .unused := by simp [hp]
  obtain ⟨l, htidy⟩ := h.tidy p hlive
  obtain ⟨-, s, hdel, hex⟩ := exit_cases hw
  have hempty := deleteMmaps_listed htidy.table.toListed hdel
  have hleaf (q : Fin 64) (n page : ℕ) (hs : k.HasShared q n page) := h.not_parent hobeys hs
  obtain ⟨pool', rfl⟩ := Multiset.le_iff_exists_add.mp (h.freedShared_le hlive htidy)
  -- what the other processes are left with
  have hothers (q : Fin 64) (hq : q ≠ p) (hql : (k.procs q).state ≠ .unused) : Survives (k.procs q) (k'.procs q) := by
    obtain ⟨lq, htq⟩ := h.tidy q hql
    exact hex.other (P := Survives (k.procs q)) htidy.table.toListed hdel hq
      (fun pm pm' addr hl hd => (hl.decParent hd :)) (fun pr hl => hl.reparent) ⟨⟨lq, htq⟩, h.gone q, rfl, rfl⟩
  have hother_state (q : Fin 64) (hq : q ≠ p) := hex.other_state hq
  have hself (n page : ℕ) : ¬ k'.HasShared p n page := by
    rintro ⟨-, -, hout, -⟩
    rw [hex.mm, outside_of_empty hempty] at hout
    cases hout
  have hsame (q : Fin 64) (hq : q ≠ p) (n page : ℕ) : k'.HasShared q n page ↔ k.HasShared q n page := by
    unfold Kernel.HasShared
    rw [hother_state q hq]
    apply and_congr_right
    intro hql
    have hl := hothers q hq hql
    exact Proc.hasShared_congr hl.mm fun va => by rw [hl.pgdir]
  refine ⟨pool', ?_, ?_, ?_, ?_⟩
  · intro q hq
    by_cases hqp : q = p
    · subst hqp
      obtain ⟨hpte, hcleared⟩ := deleteMmaps_pte (s := deletion k q) htidy.table hdel
      refine ⟨[], by rw [hex.mm]; exact ⟨hempty, by simp, by simp⟩, ?_, by rw [hex.sz]; exact htidy.size⟩
      intro va e h₁ h₂ he
      rw [hex.pgdir] at he
      obtain ⟨i, hi, hlo, hhi⟩ := htidy.covered va e h₁ h₂ (hpte va e h₂ he)
      rw [hcleared i hi va hlo hhi] at he
      cases he
    · rw [hother_state q hqp] at hq
      exact (hothers q hqp hq).tidy
  · intro q hz
    by_cases hqp : q = p
    · subst hqp
      rw [hex.mm]
      exact hempty
    · have hql : (k.procs q).state ≠ .unused := by
        rw [← hother_state q hqp, hz]
        simp
      exact (hothers q hqp hql).gone hz
  · apply h.pages.leave hlive hex (fun R hR => htidy.deleteMmaps hdel hR)
    intro q pm hql hpar hpm
    obtain ⟨lq, htq⟩ := h.tidy q hql
    have hsurvives := deleteMmaps_parent (P := fun pm => Survives (k.procs q) { k.procs q with mm := pm })
      htidy.table.toListed (fun pm pm' addr hl hd => (hl.decParent hd :)) hdel (fun pm hpm => ?_) pm hpm
    · exact hsurvives.mm
    · obtain rfl : (k.procs q).mm = pm := by simpa [deletion, hpar] using hpm
      exact ⟨⟨lq, htq⟩, h.gone q, rfl, rfl⟩
  · refine h.handed.leave hleaf ?_ ?_ ?_
    · intro q n page hs hq
      obtain ⟨mm, hmm, -⟩ := hex.others q hq
      rw [hmm]
      simp [reparent, hleaf q n page hs]
    · intro q n page
      by_cases hq : q = p
      · subst hq
        simp [hself]
      · simp [hsame q hq, hq]
    · intro q n page hs hq
      refine (Multiset.mem_add.mp (h.handed.pooled q n page hs)).resolve_left fun hfreed => hq ?_
      obtain ⟨n', hs', i, hi, hsh, hzero, hin⟩ := htidy.mem_freedShared hfreed
      refine h.handed.alone (i := n') ⟨hlive, hs'⟩ hleaf (fun q' j hpar hs'' => hleak ?_) hs
      obtain ⟨-, -, e, he, hpage⟩ := hs'
      obtain ⟨hql', -, -, e', he', hpage'⟩ := hs''
      exact ⟨i, 4096 * n', e, q', (htidy.table.used i).mp hi, hsh, hzero, hin, he, hpar, hql', _, e', he',
        hpage'.trans hpage.symm⟩

/-! ### Runs -/

/-- Every operation of a run that obeys the README and frees no page that is still mapped. -/
theorem Tree.run (h : Tree pool k) {op : Op} (hp : ∀ p, op.proc = some p → (k.procs p).state = .runnable)
    (hobeys : Obeys k op) (htight : Tight k op) (hrun : op.run k = some k') : ∃ pool', Tree pool' k' := by
  cases op with
  | wmap p addr length flags fd =>
    obtain ⟨⟨k₁, r⟩, hw, rfl⟩ := Option.map_eq_some_iff.mp hrun
    exact ⟨pool, h.wmap (hp p rfl) hw⟩
  | wunmap p addr => exact absurd hobeys id
  | wpunmap p addr length => exact absurd hobeys id
  | fault p addr =>
    obtain ⟨⟨k₁, r⟩, hw, rfl⟩ := Option.map_eq_some_iff.mp hrun
    exact h.fault (hp p rfl) hw
  | sbrk p n =>
    obtain ⟨⟨k₁, r⟩, hw, rfl⟩ := Option.map_eq_some_iff.mp hrun
    exact ⟨pool, h.sbrk (hp p rfl) hw⟩
  | fork p =>
    obtain ⟨⟨k₁, r⟩, hw, rfl⟩ := Option.map_eq_some_iff.mp hrun
    exact ⟨pool, h.fork (hp p rfl) htight hw⟩
  | exit p => exact h.exit (hp p rfl) hobeys htight hrun
  | wait p =>
    obtain ⟨⟨k₁, r⟩, hw, rfl⟩ := Option.map_eq_some_iff.mp hrun
    exact ⟨pool, h.wait hw⟩
  | store p va b => exact ⟨pool, h.store hrun⟩
  | take =>
    have hpages := h.pages.take hrun
    obtain ⟨⟨page, mem⟩, -, rfl⟩ := Option.map_eq_some_iff.mp hrun
    exact ⟨pool, h.mem rfl hpages⟩
  | give page =>
    have hpages := h.pages.give hrun
    obtain ⟨-, rfl⟩ := give_cases hrun
    exact ⟨pool, h.mem rfl hpages⟩

/-- An operation that is not so leaves a page free that a process maps. -/
theorem Tree.tight (h : Tree pool k) {op : Op} (hp : ∀ p, op.proc = some p → (k.procs p).state = .runnable)
    (hobeys : Obeys k op) (hrun : op.run k = some k') (hsafe : PageSafe k') : Tight k op := by
  cases op with
  | fork p =>
    rintro ⟨before, i, after, done, va, rest, j, x, hl, hrange, hstop, hsh, hx, hne⟩
    obtain ⟨⟨k₁, r⟩, hw, rfl⟩ := Option.map_eq_some_iff.mp hrun
    have hlive : (k.procs p).state ≠ .unused := by simp [hp p rfl]
    obtain ⟨l, htidy⟩ := h.tidy p hlive
    obtain rfl := htidy.table.linked.unique hl
    obtain ⟨e, he⟩ := Option.ne_none_iff_exists'.mp hne
    obtain ⟨k₂, hfork, hfree⟩ := hstop.frees_shared htidy.table hrange hx hsh he
    obtain ⟨k₃, q, _, _, _, _, _, _, hfork', hq, -, -, -, -, -, -, hothers⟩ := hstop.fork htidy.table hrange
    obtain rfl : k₂ = k₁ := congrArg Prod.fst (Option.some.inj (hfork.symm.trans hw))
    obtain rfl : k₃ = k₂ := congrArg Prod.fst (Option.some.inj (hfork'.symm.trans hw))
    -- the parent is as it was
    have hpq : p ≠ q := fun hpq => hlive (hpq ▸ unusedProc_some hq)
    have hsame := hothers p hpq
    exact hsafe.notFree p x e (by rwa [hsame]) (by rwa [hsame]) hfree
  | exit p =>
    rintro ⟨i, va, e, q, hused, hsh, hzero, hva, he, hpar, hql, x, e', he', hpage⟩
    have hrunnable := hp p rfl
    obtain ⟨l, htidy⟩ := h.tidy p (by simp [hrunnable])
    obtain ⟨-, s, hdel, hex⟩ := exit_cases hrun
    have hfree : e.page ∈ k'.mem.free := by
      rw [hex.mem]
      exact deleteMmaps_frees (s := deletion k p) htidy.table hdel ((htidy.table.used i).mpr hused) hzero hva he
    -- the parent is another process, and has the page as before
    have hqp : q ≠ p := by
      rintro rfl
      rcases hobeys q hpar with hunused | hz
      · exact hql hunused
      · rw [hrunnable] at hz
        cases hz
    obtain ⟨mm, hmm, -⟩ := hex.others q hqp
    refine hsafe.notFree q x e' (by rwa [hex.other_state hqp]) ?_ (hpage ▸ hfree)
    rw [hmm, reparent_pgdir]
    exact he'
  | _ => trivial

/-- A kernel without mappings. -/
theorem tree_of_fresh (h₀ : Fresh k) (hs : FreshSpaces k) : Tree 0 k where
  tidy p hp := by
    obtain ⟨hmm, hpte, hsz⟩ := hs p hp
    refine ⟨[], hmm ▸ table_init, ?_, hsz⟩
    intro va e h₁ h₂ he
    rw [hpte va h₁ h₂] at he
    cases he
  gone p hz := by
    rw [h₀.tables p (by simp [hz])]
    exact listed_init
  pages := by
    have hown (p : Fin 64) : (k.procs p).own (outside Region.isShared) = (k.procs p).own fun _ => allMine := by
      by_cases hp : (k.procs p).state = .unused
      · rw [Proc.own_of_unused hp, Proc.own_of_unused hp]
      · rw [Proc.own_of_live hp, Proc.own_of_live hp, h₀.tables p hp]
        refine congrArg (· + _) (own_congr ?_)
        intro va e _ _
        exact outside_of_empty listed_init _
    have hpages := h₀.pages
    unfold Separate Accounted Kernel.own at hpages
    unfold Accounted Kernel.own
    rwa [total_congr hown]
  handed := handed_of_none fun p n page ⟨hp, _, hout, _⟩ => by
    rw [h₀.tables p hp, outside_of_empty listed_init] at hout
    cases hout

/-- **Pages of shared mappings are safe across any tree of forks** in every run that obeys the README and in which
no operation frees a shared page that a process still maps; and in such a run the next operation is safe exactly
if it does not either. -/
theorem fork_tree_page_safe {k₀ : Kernel} (h₀ : Fresh k₀) (hs : FreshSpaces k₀)
    (h : Reachable (fun k op => Obeys k op ∧ Tight k op) k₀ k) :
    PageSafe k ∧ ∀ op k', (∀ p, op.proc = some p → (k.procs p).state = .runnable) → Obeys k op → op.run k = some k' →
      (PageSafe k' ↔ Tight k op) := by
  suffices htree : ∃ pool, Tree pool k by
    obtain ⟨pool, htree⟩ := htree
    refine ⟨htree.pageSafe, fun op k' hp hobeys hrun => ⟨htree.tight hp hobeys hrun, ?_⟩⟩
    intro htight
    obtain ⟨pool', htree'⟩ := htree.run hp hobeys htight hrun
    exact htree'.pageSafe
  induction h with
  | refl => exact ⟨0, tree_of_fresh h₀ hs⟩
  | tail _ hstep ih =>
    obtain ⟨pool, htree⟩ := ih
    obtain ⟨op, hp, ⟨hobeys, htight⟩, hrun⟩ := hstep
    exact htree.run hp hobeys htight hrun

/-- A `fork` that returns a pid has not failed. -/
theorem not_forkLeaks (ht : Table (k.procs p).mm l) (hw : fork k p = some (k', ret)) (hret : ret ≠ -1) :
    ¬ ForkLeaks k p := by
  rintro ⟨before, i, after, done, va, rest, j, x, hl, hrange, hstop, -⟩
  obtain rfl := ht.linked.unique hl
  obtain ⟨k₁, _, _, _, _, _, _, _, hfails, -⟩ := hstop.fork ht hrange
  rw [hw] at hfails
  exact hret (congrArg Prod.snd (Option.some.inj hfails))

end

/-! ### Two runs -/

/-- The process of an operation can run. -/
theorem runs_of_runnable {k : Kernel} {p : Fin 64} (h : (k.procs p).state = .runnable) (q : Fin 64)
    (hq : some p = some q) : (k.procs q).state = .runnable := by
  obtain rfl := Option.some.inj hq
  exact h

/-- A shared page that is touched. -/
def sharedPage : List Op := [.wmap initproc 0x60000000 0x1000 0xE (-1), .fault initproc 0x60000000]

/-- A child that has the page exits, and the parent keeps it. -/
theorem fork_tree_page_safe_child : ∃ k, PageSafe k ∧ (k.procs 1).state = .zombie ∧
    (k.procs 0).pgdir.pte 0x60000000 = some ⟨3000, true, true⟩ := by
  have hrun : ((runAll (boot 100) sharedPage).bind fun k₁ => (Wmap.fork k₁ 0).bind fun out =>
      (Wmap.exit out.1 1).map fun k => decide (out.2 = 2 ∧ (k₁.procs 0).state = .runnable ∧ Touched (k₁.procs 0) ∧
        (out.1.procs 1).state = .runnable ∧ Childless out.1 1 ∧
        (∀ i, ((out.1.procs 1).mm.mmaps i).addr ≠ 2 ^ 32 - 1 → ((out.1.procs 1).mm.mmaps i).refcnt ≠ 0) ∧
        (k.procs 1).state = .zombie ∧ (k.procs 0).pgdir.pte 0x60000000 = some ⟨3000, true, true⟩)) = some true := by
    decide +kernel
  obtain ⟨k₁, hk₁, hrun⟩ := Option.bind_eq_some_iff.mp hrun
  obtain ⟨⟨k₂, ret⟩, hk₂, hrun⟩ := Option.bind_eq_some_iff.mp hrun
  obtain ⟨k, hk, hout⟩ := Option.map_eq_some_iff.mp hrun
  obtain ⟨hret, hs₁, htouched, hs₂, hchildless, hcounts, hzombie, hpte⟩ := of_decide_eq_true hout
  dsimp only at hk hret hs₂ hchildless hcounts
  have hreach {allowed : Kernel → Op → Prop} (hops : ∀ op ∈ sharedPage, ∀ k, allowed k op) :
      Reachable allowed (boot 100) k₁ := reachable_of_runAll hk₁ hops
  obtain ⟨l, ht, -⟩ := tables_of_reachable (fun _ _ => rfl) (hreach fun op hop k => by
    simp only [sharedPage, List.mem_cons, List.not_mem_nil, or_false] at hop
    rcases hop with rfl | rfl <;> simp [noWpunmap]) 0 (by simp [hs₁])
  have hfork : ¬ ForkLeaks k₁ 0 := not_forkLeaks ht hk₂ (by rw [hret]; decide)
  have hexit : ¬ ExitLeaks k₂ 1 := by
    rintro ⟨i, _, _, _, hused, -, hzero, -⟩
    exact hcounts i hused hzero
  refine ⟨k, (fork_tree_page_safe (boot_fresh 100) (boot_freshSpaces 100) ?_).1, hzombie, hpte⟩
  have hstart : Reachable (fun k op => Obeys k op ∧ Tight k op) (boot 100) k₁ := hreach fun op hop k => by
    simp only [sharedPage, List.mem_cons, List.not_mem_nil, or_false] at hop
    rcases hop with rfl | rfl <;> exact ⟨trivial, trivial⟩
  refine (hstart.tail ⟨.fork 0, runs_of_runnable hs₁, ⟨htouched, hfork⟩, ?_⟩).tail
    ⟨.exit 1, runs_of_runnable hs₂, ⟨hchildless, hexit⟩, hk⟩
  rw [Op.run, hk₂]
  rfl

/-- A child has the page and gives it to a child of its own, which exits; then it exits itself. The page is free,
and the first process maps it. -/
theorem fork_tree_not_page_safe : ¬ ∀ k₀ k : Kernel, Fresh k₀ → FreshSpaces k₀ → Reachable Obeys k₀ k → PageSafe k := by
  have hrun : ((runAll (boot 300) sharedPage).bind fun k₁ => (Wmap.fork k₁ 0).bind fun out₁ =>
      (Wmap.fork out₁.1 1).bind fun out₂ => (Wmap.exit out₂.1 2).bind fun k₃ => (Wmap.exit k₃ 1).map fun k =>
        decide ((k₁.procs 0).state = .runnable ∧ Touched (k₁.procs 0) ∧
          (out₁.1.procs 1).state = .runnable ∧ Touched (out₁.1.procs 1) ∧
          (out₂.1.procs 2).state = .runnable ∧ Childless out₂.1 2 ∧ (k₃.procs 1).state = .runnable ∧ Childless k₃ 1 ∧
          (k.procs 0).state ≠ .unused ∧ (k.procs 0).pgdir.pte 0x60000000 = some ⟨3000, true, true⟩ ∧
          3000 ∈ k.mem.free)) = some true := by
    decide +kernel
  obtain ⟨k₁, hk₁, hrun⟩ := Option.bind_eq_some_iff.mp hrun
  obtain ⟨⟨k₂, ret₁⟩, hk₂, hrun⟩ := Option.bind_eq_some_iff.mp hrun
  obtain ⟨⟨k₃, ret₂⟩, hk₃, hrun⟩ := Option.bind_eq_some_iff.mp hrun
  obtain ⟨k₄, hk₄, hrun⟩ := Option.bind_eq_some_iff.mp hrun
  obtain ⟨k, hk, hout⟩ := Option.map_eq_some_iff.mp hrun
  obtain ⟨hs₁, ht₁, hs₂, ht₂, hs₃, hc₃, hs₄, hc₄, hlive, hpte, hfree⟩ := of_decide_eq_true hout
  dsimp only at hk₃ hk₄ hs₂ ht₂ hs₃ hc₃
  have hreach : Reachable Obeys (boot 300) k₁ := by
    apply reachable_of_runAll hk₁
    intro op hop k
    simp only [sharedPage, List.mem_cons, List.not_mem_nil, or_false] at hop
    rcases hop with rfl | rfl <;> trivial
  intro hsafe
  refine (hsafe (boot 300) k (boot_fresh 300) (boot_freshSpaces 300) ?_).notFree 0 0x60000000 _ hlive hpte hfree
  refine (((hreach.tail ⟨.fork 0, runs_of_runnable hs₁, ht₁, ?_⟩).tail
    ⟨.fork 1, runs_of_runnable hs₂, ht₂, ?_⟩).tail
    ⟨.exit 2, runs_of_runnable hs₃, hc₃, hk₄⟩).tail ⟨.exit 1, runs_of_runnable hs₄, hc₄, hk⟩
  · rw [Op.run, hk₂]
    rfl
  · rw [Op.run, hk₃]
    rfl

end SdeSystems.Wmap
