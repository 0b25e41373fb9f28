import SdeSystems.Wmap.Agree
import SdeSystems.Wmap.FailLate

/-!
# Unmapping pages that others have

`remove_map` frees the pages of a region where its `refcnt` is 0 ("no children sharing"), and
`sys_wpunmap` frees those of its range always. But `copy_maps` sets the `refcnt` of the child's
region only, and that of the region it is copied from stays as it is: the process that made a
mapping has `refcnt` 0 there however many of its descendants have the pages, and unmaps and frees
them. Here is when the pages of another process stay off the free list, for `wunmap` and
`wpunmap`, and a run in which they do not.
-/

namespace SdeSystems.Wmap

open Lib Function

/-! ### What the calls free -/

/-- The loops that unmap pages and do not free them leave memory as it is. -/
theorem dropPages_keeps_mem {back : Bool} {r : Region} {start stop : ℕ} {s s' : Drop}
    (h : dropPages back false r start stop s = some s') : s'.space.mem = s.space.mem := by
  refine forEach_keeps (I := fun t => t.space.mem = s.space.mem) ?_ (dropPages_some h) rfl
  intro va _ t t' ok ht hb
  obtain ⟨-, ⟨-, rfl⟩ | ⟨e, fs, -, rfl⟩⟩ := dropPage_cases hb
  · exact ht
  · exact ht

/-- The process maps the page. -/
def Maps (k : Kernel) (q : Fin 64) (page : ℕ) : Prop := ∃ va e, (k.procs q).pgdir.pte va = some e ∧ e.page = page

/-- A page that `p` has from `start` to `stop` is one that `q` maps too. -/
def Shares (k : Kernel) (p q : Fin 64) (start stop : ℕ) : Prop :=
  ∃ page ∈ present (k.procs p).pgdir start stop, Maps k q page

/-- No page that `q` maps after the call has been put on the free list. The calls take no page from that list,
so a page that is put on it stands there more often than before. -/
def Spares (k k' : Kernel) (q : Fin 64) : Prop :=
  ∀ page, Maps k' q page → ¬ k.mem.free.count page < k'.mem.free.count page

/-- `wunmap(addr)` finds the region `i`. -/
def WunmapFinds (k : Kernel) (p : Fin 64) (addr : BitVec 32) (i : Fin 16) : Prop :=
  addr.toNat % 4096 = 0 ∧ ∃ prev, (k.procs p).mm.find (fun r => r.addr = addr.toNat) = some (prev, some i)

/-- `wpunmap(addr, length)` finds the region `i`. -/
def WpunmapFinds (k : Kernel) (p : Fin 64) (addr length : BitVec 32) (i : Fin 16) : Prop :=
  u32 (addr.toNat + length.toInt) % 4096 = 0 ∧ 0 < length.toInt ∧ addr.toNat % 4096 = 0 ∧
    ∃ prev, (k.procs p).mm.find (fun r => r.addr ≤ addr.toNat ∧ u32 (addr.toNat + length.toInt) ≤ r.stop) =
      some (prev, some i)

section

variable {k k' : Kernel} {p q : Fin 64} {ret : ℤ}

theorem spares_refl : Spares k k q := fun _ _ => lt_irrefl _

/-- Where the pages of a list have come to the free list and the page table of `q` is as before, the pages of
`q` are spared if the list has none of them. -/
theorem spares_iff_of_append {freed : List ℕ} (hq : k'.procs q = k.procs q)
    (hfree : k'.mem.free = freed.reverse ++ k.mem.free) : Spares k k' q ↔ ¬ ∃ page ∈ freed, Maps k q page := by
  have hcount (page : ℕ) : k.mem.free.count page < k'.mem.free.count page ↔ page ∈ freed := by
    rw [hfree, List.count_append, List.count_reverse, ← List.count_pos_iff]
    omega
  have hmaps (page : ℕ) : Maps k' q page ↔ Maps k q page := by
    unfold Maps
    rw [hq]
  constructor
  · rintro hs ⟨page, hp, hm⟩
    exact hs page ((hmaps page).mpr hm) ((hcount page).mpr hp)
  · intro hn page hm hlt
    exact hn ⟨page, (hcount page).mp hlt, (hmaps page).mp hm⟩

theorem wunmap_spares_iff (hq : q ≠ p) {addr : BitVec 32} (h : sysWunmap k p addr = some (k', ret)) :
    Spares k k' q ↔ ∀ i, WunmapFinds k p addr i → ((k.procs p).mm.mmaps i).refcnt ≠ 0 ∨
      ¬ Shares k p q ((k.procs p).mm.mmaps i).addr ((k.procs p).mm.mmaps i).stop := by
  unfold sysWunmap at h
  split at h
  · rename_i hal
    obtain ⟨rfl, rfl⟩ := Prod.mk.inj (Option.some.inj h)
    exact iff_of_true spares_refl fun i hi => absurd hi.1 hal
  · rename_i hal
    obtain ⟨⟨k₁, r₁⟩, hrem, hk⟩ := Option.map_eq_some_iff.mp h
    obtain ⟨rfl, rfl⟩ := Prod.mk.inj hk
    unfold removeMap at hrem
    dsimp only at hrem
    split at hrem
    · cases hrem
    · rename_i prev hfind
      obtain ⟨rfl, rfl⟩ := Prod.mk.inj (Option.some.inj hrem)
      refine iff_of_true spares_refl fun i ⟨_, prev', hi⟩ => ?_
      rw [hfind] at hi
      simp at hi
    · rename_i prev i hfind
      -- the region that is found is the only one
      have honly (Q : Fin 16 → Prop) : (∀ j, WunmapFinds k p addr j → Q j) ↔ Q i := by
        refine ⟨fun hall => hall i ⟨not_not.mp hal, prev, hfind⟩, fun hQ j ⟨_, prev', hj⟩ => ?_⟩
        rw [hfind] at hj
        obtain rfl : i = j := by simpa using congrArg Prod.snd (Option.some.inj hj)
        exact hQ
      rw [honly]
      have haddr : ((k.procs p).mm.mmaps i).addr = addr.toNat := by
        simpa using seek_stop hfind
      have hstop : ((k.procs p).mm.mmaps i).stop ≤ 2 ^ 32 := by
        unfold Region.stop u32
        omega
      split at hrem
      · cases hrem
      · rename_i s hs
        split at hrem
        · cases hrem
        · rename_i fs hfs
          obtain ⟨rfl, rfl⟩ := Prod.mk.inj (Option.some.inj hrem)
          by_cases href : ((k.procs p).mm.mmaps i).refcnt = 0
          · simp only [href, decide_true] at hs
            have hfree := (dropPages_mem hs (by omega) hstop).1
            rw [spares_iff_of_append (update_of_ne hq _ _) hfree]
            simp only [href, ne_eq, not_true_eq_false, false_or]
            rfl
          · simp only [href, decide_false] at hs
            have hmem := dropPages_keeps_mem hs
            have hfree : s.space.mem.free = ([] : List ℕ).reverse ++ k.mem.free := by
              rw [hmem]
              rfl
            rw [spares_iff_of_append (update_of_ne hq _ _) hfree]
            simp [href]

theorem wpunmap_spares_iff (hq : q ≠ p) {addr length : BitVec 32}
    (h : sysWpunmap k p addr length = some (k', ret)) :
    Spares k k' q ↔ ∀ i, WpunmapFinds k p addr length i →
      ¬ Shares k p q addr.toNat (u32 (addr.toNat + length.toInt)) := by
  unfold sysWpunmap at h
  dsimp only at h
  split_ifs at h with hend hlen hal
  · obtain ⟨rfl, rfl⟩ := Prod.mk.inj (Option.some.inj h)
    exact iff_of_true spares_refl fun i hi => absurd hi.1 hend
  · obtain ⟨rfl, rfl⟩ := Prod.mk.inj (Option.some.inj h)
    exact iff_of_true spares_refl fun i hi => absurd hi.2.1 (by omega)
  · obtain ⟨rfl, rfl⟩ := Prod.mk.inj (Option.some.inj h)
    exact iff_of_true spares_refl fun i hi => absurd hi.2.2.1 hal
  split at h
  · cases h
  · rename_i prev hfind
    obtain ⟨rfl, rfl⟩ := Prod.mk.inj (Option.some.inj h)
    refine iff_of_true spares_refl fun i ⟨_, _, _, prev', hi⟩ => ?_
    rw [hfind] at hi
    simp at hi
  · rename_i prev i hfind
    have hi : WpunmapFinds k p addr length i := ⟨not_not.mp hend, by omega, not_not.mp hal, prev, hfind⟩
    have hstop : u32 (addr.toNat + length.toInt) ≤ 2 ^ 32 := by
      unfold u32
      omega
    split at h
    · cases h
    · rename_i s hs
      have hfree := (dropPages_mem hs (by omega) hstop).1
      have hfrees : k'.procs q = k.procs q ∧ k'.mem = s.space.mem := by
        split at h
        · cases h
        · obtain ⟨rfl, rfl⟩ := Prod.mk.inj (Option.some.inj h)
          exact ⟨update_of_ne hq _ _, rfl⟩
        · obtain ⟨rfl, rfl⟩ := Prod.mk.inj (Option.some.inj h)
          exact ⟨update_of_ne hq _ _, rfl⟩
      rw [spares_iff_of_append hfrees.1 (hfrees.2 ▸ hfree)]
      exact ⟨fun hn _ _ => hn, fun hn => hn i hi⟩

/-- **Unmapping respects the other processes** exactly where it frees nothing of theirs. `wunmap` does if the
region it finds has a `refcnt` that is not 0, or shares no page with the other process; `wpunmap` if
the range shares none. The other process may be any, and so each live descendant of `p`. -/
theorem unmap_respects_sharers_iff (hq : q ≠ p) :
    (∀ addr k' ret, sysWunmap k p addr = some (k', ret) →
      (Spares k k' q ↔ ∀ i, WunmapFinds k p addr i → ((k.procs p).mm.mmaps i).refcnt ≠ 0 ∨
        ¬ Shares k p q ((k.procs p).mm.mmaps i).addr ((k.procs p).mm.mmaps i).stop)) ∧
    ∀ addr length k' ret, sysWpunmap k p addr length = some (k', ret) →
      (Spares k k' q ↔ ∀ i, WpunmapFinds k p addr length i →
        ¬ Shares k p q addr.toNat (u32 (addr.toNat + length.toInt))) :=
  ⟨fun _ _ _ h => wunmap_spares_iff hq h, fun _ _ _ _ h => wpunmap_spares_iff hq h⟩

end

/-! ### A parent and its child -/

/-- A shared mapping of one page, touched, and a fork. -/
def sharedFork : List Op := [.wmap initproc 0x60000000 0x1000 0xE (-1), .fault initproc 0x60000000, .fork initproc]

/-- The child unmaps what it has inherited, with `refcnt` 1: the parent keeps its page. -/
theorem unmap_respects_sharers_child : ∃ k k', runAll (boot 100) sharedFork = some k ∧
    sysWunmap k 1 0x60000000 = some (k', 0) ∧ Shares k 1 0 0x60000000 0x60001000 ∧ Spares k k' 0 := by
  have hrun : ((runAll (boot 100) sharedFork).bind fun k => (sysWunmap k 1 0x60000000).map fun out =>
      decide (out.2 = 0 ∧ (k.procs 1).mm.find (fun r => r.addr = 0x60000000) = some (none, some 0) ∧
        ((k.procs 1).mm.mmaps 0).refcnt = 1 ∧ present (k.procs 1).pgdir 0x60000000 0x60001000 = [3000] ∧
        (k.procs 0).pgdir.pte 0x60000000 = some ⟨3000, true, true⟩)) = some true := by
    decide +kernel
  obtain ⟨k, hk, hw⟩ := Option.bind_eq_some_iff.mp hrun
  obtain ⟨⟨k', r⟩, hw, hout⟩ := Option.map_eq_some_iff.mp hw
  obtain ⟨rfl, hfind, href, hpresent, hpte⟩ := of_decide_eq_true hout
  refine ⟨k, k', hk, hw, ⟨3000, by simp [hpresent], 0x60000000, _, hpte, rfl⟩, ?_⟩
  refine ((unmap_respects_sharers_iff (by decide)).1 _ _ _ hw).mpr fun i ⟨_, prev, hi⟩ => .inl ?_
  obtain rfl : i = 0 := by
    have hboth := hi.symm.trans hfind
    simpa using congrArg Prod.snd (Option.some.inj hboth)
  rw [href]
  decide

/-- The parent unmaps its mapping, by `wunmap` or by `wpunmap`, and the page that its child maps is on the free
list. -/
theorem unmap_frees_page_of_child : ∃ k k₁ k₂, runAll (boot 100) sharedFork = some k ∧
    (k.procs 1).state = .runnable ∧ (k.procs 1).parent = some 0 ∧
    sysWunmap k 0 0x60000000 = some (k₁, 0) ∧ ¬ Spares k k₁ 1 ∧
    sysWpunmap k 0 0x60000000 0x1000 = some (k₂, 0) ∧ ¬ Spares k k₂ 1 := by
  have hrun : ((runAll (boot 100) sharedFork).bind fun k => (sysWunmap k 0 0x60000000).bind fun a =>
      (sysWpunmap k 0 0x60000000 0x1000).map fun b =>
        decide (a.2 = 0 ∧ b.2 = 0 ∧ (k.procs 1).state = .runnable ∧ (k.procs 1).parent = some 0 ∧
          (a.1.procs 1).pgdir.pte 0x60000000 = some ⟨3000, true, true⟩ ∧
          (b.1.procs 1).pgdir.pte 0x60000000 = some ⟨3000, true, true⟩ ∧
          k.mem.free.count 3000 < a.1.mem.free.count 3000 ∧ k.mem.free.count 3000 < b.1.mem.free.count 3000)) =
      some true := by
    decide +kernel
  obtain ⟨k, hk, hw⟩ := Option.bind_eq_some_iff.mp hrun
  obtain ⟨⟨k₁, r₁⟩, hw₁, hw⟩ := Option.bind_eq_some_iff.mp hw
  obtain ⟨⟨k₂, r₂⟩, hw₂, hout⟩ := Option.map_eq_some_iff.mp hw
  obtain ⟨rfl, rfl, hstate, hparent, hpte₁, hpte₂, hfree₁, hfree₂⟩ := of_decide_eq_true hout
  refine ⟨k, k₁, k₂, hk, hstate, hparent, hw₁, ?_, hw₂, ?_⟩
  · intro hs
    exact hs 3000 ⟨0x60000000, _, hpte₁, rfl⟩ hfree₁
  · intro hs
    exact hs 3000 ⟨0x60000000, _, hpte₂, rfl⟩ hfree₂

end SdeSystems.Wmap
