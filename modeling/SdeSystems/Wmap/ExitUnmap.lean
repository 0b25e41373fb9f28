import SdeSystems.Wmap.Placement

/-!
# `exit` and `wunmap` agree

`delete_mmaps` repeats what `remove_map` does for one region, with conditions of its own and without
a search: it goes along the list and empties it at the end. Where no region has a count of
references, the two do the same: the kernel after `delete_mmaps` is the one after `remove_map` of
each region in the order of the list, down to the order of the free pages.
-/

namespace SdeSystems.Wmap

open Lib Function

variable {k k' : Kernel} {p : Fin 64} {l : List (Fin 16)} {i : Fin 16} {s s' : Deletion}

/-- `remove_map` for each of the addresses. -/
def removeAll (k : Kernel) (p : Fin 64) : List ℕ → Option Kernel
  | [] => some k
  | addr :: addrs => (removeMap k p addr).bind fun (k, r) => if r < 0 then none else removeAll k p addrs

/-- A loop of `delete_mmaps` that has come as far as `remove_map` in the process `p`: the heads of the lists and the
counts differ, since `delete_mmaps` changes them at the end only. -/
structure Abreast (k : Kernel) (p : Fin 64) (s : Deletion) : Prop where
  /-- Memory and the page directory. -/
  space : s.space = ⟨k.mem, (k.procs p).pgdir⟩
  /-- Files. -/
  fs : s.fs = k.fs
  /-- The slots. -/
  mmaps : s.mm.mmaps = (k.procs p).mm.mmaps
  /-- The list through them. -/
  next : s.mm.next = (k.procs p).mm.next

/-- `remove_map` of the first region is a turn of the loop of `delete_mmaps`. -/
theorem removeMap_head (h : Abreast k p s) (hhead : (k.procs p).mm.mmapHead = some i)
    (href : ((k.procs p).mm.mmaps i).refcnt = 0) :
    removeMap k p ((k.procs p).mm.mmaps i).addr = (deleteRegion i s).map fun s' =>
      (k.put p { k.procs p with pgdir := s'.space.pgdir, mm := unlink (k.procs p).mm none i } s'.space.mem s'.fs, 0) := by
  have hfind : (k.procs p).mm.find (fun r => decide (r.addr = ((k.procs p).mm.mmaps i).addr)) = some (none, some i) := by
    simp [Mmaps.find, hhead, seek]
  unfold removeMap deleteRegion
  simp only [hfind, h.space, h.fs, h.mmaps, href, decide_true, Bool.and_true, if_true]
  cases dropPages ((k.procs p).mm.mmaps i).backs true ((k.procs p).mm.mmaps i) ((k.procs p).mm.mmaps i).addr
      ((k.procs p).mm.mmaps i).stop ⟨⟨k.mem, (k.procs p).pgdir⟩, k.fs, 0⟩ with
  | none => rfl
  | some d =>
    simp only [show ¬ (has ((k.procs p).mm.mmaps i).flags mapShared = true ∧ (0 : ℤ) = 1) by simp, if_false]
    cases closeIf d.fs ((k.procs p).mm.mmaps i).f <;> rfl

/-- The kernel when `delete_mmaps` has left the process `p`. -/
def afterDeletion (k : Kernel) (p : Fin 64) (s : Deletion) : Kernel :=
  k.put p { k.procs p with pgdir := s.space.pgdir, mm := s.mm } s.space.mem s.fs

/-- They are so after the first region of the list. -/
theorem Abreast.unlinked (h : Abreast k p s) (i : Fin 16) (space : Space) (fs : Fs) (parent : Option Mmaps) :
    Abreast (k.put p { k.procs p with pgdir := space.pgdir, mm := unlink (k.procs p).mm none i } space.mem fs) p
      ⟨space, fs, s.mm.reset i, parent⟩ := by
  refine ⟨?_, rfl, ?_, ?_⟩
  · rw [Kernel.put_procs_self]
    rfl
  · rw [Kernel.put_procs_self]
    exact congrArg (fun m => update m i initOneMmap) h.mmaps
  · rw [Kernel.put_procs_self]
    exact congrArg (fun m => update m i none) h.next

/-- The loops side by side, the list being `l` from here on. -/
theorem removeAll_eq {fuel : ℕ} (h : Abreast k p s) (hl : Linked (k.procs p).mm.next (k.procs p).mm.mmapHead l none)
    (hn : l.Nodup) (hf : l.length ≤ fuel) (href : ∀ i ∈ l, ((k.procs p).mm.mmaps i).refcnt = 0) :
    removeAll k p (l.map fun i => ((k.procs p).mm.mmaps i).addr) =
      (deleteLoop fuel (k.procs p).mm.mmapHead s).map fun s' => afterDeletion k p { s' with
        mm := ⟨s'.mm.mmaps, s'.mm.next, none, (k.procs p).mm.totalMmaps - l.length⟩ } := by
  induction l generalizing fuel k s with
  | nil =>
    have hhead : (k.procs p).mm.mmapHead = none := hl
    have hdone : deleteLoop fuel (k.procs p).mm.mmapHead s = some s := by
      rw [hhead]
      cases fuel <;> rfl
    have htotal : (k.procs p).mm.totalMmaps - (([] : List (Fin 16)).length : ℤ) = (k.procs p).mm.totalMmaps := by
      simp
    rw [hdone]
    simp only [List.map_nil, removeAll, Option.map_some, afterDeletion, htotal, h.space, h.fs, h.mmaps, h.next]
    rw [← hhead]
    change some k = some (k.put p (k.procs p) k.mem k.fs)
    rw [Kernel.put_self]
  | cons i l ih =>
    obtain ⟨hhead, hl⟩ := hl
    obtain ⟨fuel, rfl⟩ : ∃ f, fuel = f + 1 := ⟨fuel - 1, by simp at hf; omega⟩
    obtain ⟨hi, hnl⟩ := List.nodup_cons.mp hn
    have hstep := removeMap_head h hhead (href i (by simp))
    simp only [List.map_cons, removeAll, hstep]
    rw [hhead]
    simp only [deleteLoop]
    cases hd : deleteRegion i s with
    | none => rfl
    | some s₁ =>
      obtain ⟨d, fs, parent, -, -, rfl, -⟩ := deleteRegion_cases hd
      simp only [Option.map_some, Option.bind_some, lt_irrefl, if_false]
      have habreast := h.unlinked i d.space fs parent
      generalize hk₁ : k.put p { k.procs p with pgdir := d.space.pgdir, mm := unlink (k.procs p).mm none i } d.space.mem fs =
        k₁ at habreast ⊢
      have hproc : k₁.procs p = { k.procs p with pgdir := d.space.pgdir, mm := unlink (k.procs p).mm none i } := by
        rw [← hk₁, Kernel.put_procs_self]
      -- the rest of the list is as it was
      have hrest (x : Fin 16) (hx : x ∈ l) : (k₁.procs p).mm.mmaps x = (k.procs p).mm.mmaps x ∧
          (k₁.procs p).mm.next x = (k.procs p).mm.next x := by
        have hxi : x ≠ i := fun hxi => hi (hxi ▸ hx)
        rw [hproc]
        exact ⟨update_of_ne hxi .., update_of_ne hxi ..⟩
      have hhead₁ : (k₁.procs p).mm.mmapHead = s.mm.next i := by
        rw [hproc, h.next]
        rfl
      have hmap : l.map (fun j => ((k.procs p).mm.mmaps j).addr) = l.map fun j => ((k₁.procs p).mm.mmaps j).addr :=
        List.map_congr_left fun j hj => by rw [(hrest j hj).1]
      rw [hmap, ih habreast ?_ hnl (by simpa using hf) fun j hj => by rw [(hrest j hj).1]; exact href j (by simp [hj]),
        hhead₁]
      · congr 1
        funext s'
        have htotal : (k₁.procs p).mm.totalMmaps - (l.length : ℤ) = (k.procs p).mm.totalMmaps - ((i :: l).length : ℤ) := by
          rw [hproc, List.length_cons]
          change (k.procs p).mm.totalMmaps - 1 - (l.length : ℤ) = _
          push_cast
          omega
        simp only [afterDeletion, htotal]
        rw [← hk₁]
        simp [Kernel.put, Kernel.setProc]
      · rw [hhead₁, h.next]
        exact hl.congr fun x hx => (hrest x hx).2

/-- **`exit` unmaps as `wunmap` does**: where no region has a count of references, `delete_mmaps` leaves the same kernel
as `remove_map` of each region in the order of the list, and an empty table. -/
theorem exit_unmaps_as_wunmap (hwf : WellFormed (k.procs p).mm l) (href : ∀ i ∈ l, ((k.procs p).mm.mmaps i).refcnt = 0) :
    removeAll k p (l.map fun i => ((k.procs p).mm.mmaps i).addr) =
        (deleteMmaps (deletion k p)).map (afterDeletion k p) ∧
      ∀ s, deleteMmaps (deletion k p) = some s → Listed s.mm [] := by
  refine ⟨?_, fun s hs => deleteMmaps_listed hwf.table.toListed hs⟩
  have hloop := removeAll_eq (s := deletion k p) ⟨rfl, rfl, rfl, rfl⟩ hwf.linked hwf.nodup hwf.table.length_le href
  rw [hloop, deleteMmaps, Option.map_map]
  have htotal : (k.procs p).mm.totalMmaps - (l.length : ℤ) = 0 := by
    rw [hwf.total.1]
    omega
  simp only [htotal]
  rfl

/-- A shared region of a file and a private one, both touched. -/
def sharedAndPrivate : List Op :=
  [.wmap initproc 0x60000000 0x1000 0xA 3, .fault initproc 0x60000000, .wmap initproc 0x60001000 0x1000 0xD (-1),
    .fault initproc 0x60001000]

theorem exit_unmaps_as_wunmap_shared : ∃ k s, runAll (bootOpen 8) sharedAndPrivate = some k ∧
    deleteMmaps (deletion k 0) = some s ∧ removeAll k 0 [0x60000000, 0x60001000] = some (afterDeletion k 0 s) := by
  have hrun : ((runAll (bootOpen 8) sharedAndPrivate).bind fun k => (deleteMmaps (deletion k 0)).map fun _ =>
      decide ((k.procs 0).state = .runnable ∧
        (k.procs 0).mm.mmapHead = some 0 ∧ (k.procs 0).mm.next 0 = some 1 ∧ (k.procs 0).mm.next 1 = none ∧
        (k.procs 0).mm.mmaps 0 = ⟨0x60000000, 0x1000, 0xA, 3, some 0, 0, 1⟩ ∧
        (k.procs 0).mm.mmaps 1 = ⟨0x60001000, 0x1000, 0xD, -1, none, 0, 1⟩)) = some true := by
    decide +kernel
  obtain ⟨k, hk, hw⟩ := Option.bind_eq_some_iff.mp hrun
  obtain ⟨s, hs, hout⟩ := Option.map_eq_some_iff.mp hw
  obtain ⟨hstate, hhead, hnext₀, hnext₁, hregion₀, hregion₁⟩ := of_decide_eq_true hout
  have hreach : Reachable noWpunmap (bootOpen 8) k := by
    apply reachable_of_runAll hk
    intro op hop k
    simp only [sharedAndPrivate, List.mem_cons, List.not_mem_nil, or_false] at hop
    rcases hop with rfl | rfl | rfl | rfl <;> simp [noWpunmap]
  have hfresh : FreshTables (bootOpen 8) := by
    intro q _
    by_cases hq : q = 0
    · subst hq
      rfl
    · simp [bootOpen, initproc, Kernel.setProc, hq, boot]
  obtain ⟨l, ht, hstrict⟩ := tables_of_reachable hfresh hreach 0 (by simp [hstate])
  have hlinked : Linked (k.procs 0).mm.next (k.procs 0).mm.mmapHead [0, 1] none := ⟨hhead, hnext₀, hnext₁⟩
  obtain rfl : l = [0, 1] := ht.linked.unique hlinked
  obtain ⟨heq, -⟩ := exit_unmaps_as_wunmap (ht.wellFormed (hstrict rfl)) (by simp [hregion₀, hregion₁])
  rw [hs] at heq
  simp only [List.map_cons, List.map_nil, hregion₀, hregion₁] at heq
  exact ⟨k, s, hk, hs, heq⟩

end SdeSystems.Wmap
