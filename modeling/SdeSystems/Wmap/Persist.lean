import SdeSystems.Wmap.Undo
import SdeSystems.Wmap.Views
import SdeSystems.Wmap.Sharers
import SdeSystems.Wmap.Forks

/-!
# What a shared mapping leaves in its file

A page of a mapped file is read whole, also where the file or the mapping ends within it, and the
whole page is written back. So a store reaches the file unless it goes to the end of a file of the
largest size, where `write_to_file` is refused; and the write-back of a last page that is not full
makes the file longer, though it leaves its bytes behind the mapping as they were.
-/

namespace SdeSystems.Wmap

open Lib Function

/-! ### `exit` -/

section

variable {fs fs' : Fs} {f : Option ℕ} {s₀ s s' : Deletion} {l done rest : List (Fin 16)} {m j : Fin 16} {i size : ℕ}
  {cur bytes : ℕ → UInt8}

/-- A file that is closed: the inodes are as before. -/
theorem closeIf_spec (h : closeIf fs f = some fs') : fs'.inodes = fs.inodes ∧
    ∀ x, (fs'.files x).ip = (fs.files x).ip := by
  cases f with
  | none =>
    obtain rfl := Option.some.inj h
    exact ⟨rfl, fun _ => rfl⟩
  | some y =>
    simp only [closeIf, fileclose] at h
    split at h
    · cases h
    · obtain rfl := Option.some.inj h
      refine ⟨rfl, ?_⟩
      intro x
      by_cases hx : x = y
      · subst hx
        simp
      · simp [hx]

/-- The reference of a region that goes, which is given back if it is the last. -/
theorem closeLast_spec {r : Region} (h : (if r.refcnt = 0 then closeIf fs r.f else some fs) = some fs') :
    fs'.inodes = fs.inodes ∧ ∀ x, (fs'.files x).ip = (fs.files x).ip := by
  split at h
  · exact closeIf_spec h
  · obtain rfl := Option.some.inj h
    exact ⟨rfl, fun _ => rfl⟩

theorem closeFiles_inodes {ofile : Fin 16 → Option ℕ} (h : closeFiles fs ofile = some fs') : fs'.inodes = fs.inodes := by
  unfold closeFiles at h
  generalize List.finRange 16 = slots at h
  induction slots generalizing fs with
  | nil =>
    obtain rfl : fs = fs' := Option.some.inj h
    rfl
  | cons x slots ih =>
    obtain ⟨fs₁, hx, hrest⟩ := Option.bind_eq_some_iff.mp h
    rw [ih hrest, (closeIf_spec hx).1]

theorem exit_inodes {k k' : Kernel} {p : Fin 64} (h : exit k p = some k') :
    ∃ s, deleteMmaps (deletion k p) = some s ∧ k'.fs.inodes = s.fs.inodes := by
  obtain ⟨-, s, hs, hex⟩ := exit_cases h
  exact ⟨s, hs, closeFiles_inodes hex.fs⟩

/-- A loop of `delete_mmaps` that has done some regions. -/
structure Deleting (s₀ s : Deletion) (done : List (Fin 16)) : Prop where
  /-- The others are as before. -/
  mmaps : ∀ j ∉ done, s.mm.mmaps j = s₀.mm.mmaps j
  /-- The inodes of open files. -/
  ips : ∀ f, (s.fs.files f).ip = (s₀.fs.files f).ip
  /-- An entry that is left was there before. -/
  ptes : ∀ va < 2 ^ 32, ∀ e, s.space.pgdir.pte va = some e → s₀.space.pgdir.pte va = some e

/-- The loop has not come to the region `m`: the pages of the region and the file `i` are as before. -/
structure Waits (s₀ s : Deletion) (m : Fin 16) (i : ℕ) : Prop where
  /-- The file. -/
  inode : s.fs.inodes i = s₀.fs.inodes i
  /-- The entries. -/
  ptes : ∀ va ∈ pageRange (s₀.mm.mmaps m).addr (s₀.mm.mmaps m).stop, s.space.pgdir.pte va = s₀.space.pgdir.pte va
  /-- The pages. -/
  bytes : ∀ va ∈ pageRange (s₀.mm.mmaps m).addr (s₀.mm.mmaps m).stop, ∀ e, s₀.space.pgdir.pte va = some e →
    s.space.mem.bytes e.page = s₀.space.mem.bytes e.page

/-- The pages of the region `m` are in no other region. -/
def Alone (s₀ : Deletion) (l : List (Fin 16)) (m : Fin 16) : Prop :=
  ∀ va ∈ pageRange (s₀.mm.mmaps m).addr (s₀.mm.mmaps m).stop, ∀ e, s₀.space.pgdir.pte va = some e →
    ∀ j ∈ l, j ≠ m → ∀ va' ∈ pageRange (s₀.mm.mmaps j).addr (s₀.mm.mmaps j).stop, ∀ e',
      s₀.space.pgdir.pte va' = some e' → e.page ≠ e'.page

/-- No region but `m` is written back to the file `i`. -/
def Sole (mm : Mmaps) (fs : Fs) (l : List (Fin 16)) (m : Fin 16) (i : ℕ) : Prop :=
  ∀ j ∈ l, j ≠ m → (mm.mmaps j).backs = true → ∀ f, (mm.mmaps j).f = some f → (fs.files f).ip ≠ some i

theorem Deleting.step (h : Deleting s₀ s done) (hr : (s₀.mm.mmaps j).Ok) (hj : j ∉ done)
    (hd : deleteRegion j s = some s') : Deleting s₀ s' (done ++ [j]) := by
  obtain ⟨d, fs, parent, hdrop, hfs, rfl, -⟩ := deleteRegion_cases hd
  rw [h.mmaps j hj] at hdrop hfs
  have hclear := hr.dropPages_cleared hdrop
  have hfiles : d.fs.files = s.fs.files := dropPages_files hdrop
  refine ⟨?_, ?_, fun va hva e he => h.ptes va hva e (hclear.pte_some hva he)⟩
  · intro x hx
    rw [List.mem_append, List.mem_singleton, not_or] at hx
    exact (update_of_ne hx.2 ..).trans (h.mmaps x hx.1)
  · intro f
    rw [← h.ips, ← hfiles]
    exact (closeLast_spec hfs).2 f

/-- A turn of the loop for another region does not write to the file. -/
theorem Deleting.inode (h : Deleting s₀ s done) (hj : j ∈ l) (hjm : j ≠ m) (hdone : j ∉ done)
    (hsole : Sole s₀.mm s₀.fs l m i) (hd : deleteRegion j s = some s') : s'.fs.inodes i = s.fs.inodes i := by
  obtain ⟨d, fs, parent, hdrop, hfs, rfl, -⟩ := deleteRegion_cases hd
  rw [h.mmaps j hdone] at hdrop hfs
  have hinode : d.fs.inodes i = s.fs.inodes i := by
    apply dropPages_inodes hdrop
    intro hback f hf
    rw [Bool.and_eq_true] at hback
    rw [h.ips]
    exact hsole j hj hjm hback.1 f hf
  rw [← hinode]
  exact congrFun (closeLast_spec hfs).1 i

/-- A turn of the loop for another region. -/
theorem Waits.step (h : Waits s₀ s m i) (hs : Deleting s₀ s done) (ht : Table s₀.mm l) (hm : m ∈ l) (hj : j ∈ l)
    (hjm : j ≠ m) (hdone : j ∉ done) (halone : Alone s₀ l m) (hsole : Sole s₀.mm s₀.fs l m i)
    (hd : deleteRegion j s = some s') : Waits s₀ s' m i := by
  have hinode := hs.inode hj hjm hdone hsole hd
  obtain ⟨d, fs, parent, hdrop, hfs, rfl, -⟩ := deleteRegion_cases hd
  rw [hs.mmaps j hdone] at hdrop hfs
  have hr := ht.region j hj
  have hclear := hr.dropPages_cleared hdrop
  have hrm := ht.region m hm
  have hle := hrm.stop_le_pageEnd
  have hapart := ht.apart j hj m hm hjm
  have hrange (va : ℕ) (hva : va ∈ pageRange (s₀.mm.mmaps m).addr (s₀.mm.mmaps m).stop) : va < 2 ^ 32 ∧
      ¬ ((s₀.mm.mmaps j).addr ≤ va ∧ va < (s₀.mm.mmaps j).pageEnd) := by
    have hva := (mem_pageRange_of_aligned hrm.aligned).mp hva
    have hend := hrm.pageEnd_le
    unfold Region.Apart at hapart
    omega
  refine ⟨hinode.trans h.inode, ?_, ?_⟩
  · intro va hva
    obtain ⟨hlt, hout⟩ := hrange va hva
    rw [← h.ptes va hva]
    exact hclear.others va hlt hout
  · intro va hva e he
    rw [← h.bytes va hva e he]
    dsimp only
    cases hfree : decide ((s₀.mm.mmaps j).refcnt = 0) with
    | false =>
      rw [hfree] at hdrop
      rw [dropPages_keeps_mem hdrop]
    | true =>
      rw [hfree] at hdrop
      have hend := hr.stop_eq
      have hhi := hr.hi
      refine (dropPages_mem hdrop hr.aligned (by omega)).2 e.page ?_
      intro hpage
      obtain ⟨va', hva', hp⟩ := List.mem_filterMap.mp hpage
      obtain ⟨e', he', hp⟩ := Option.map_eq_some_iff.mp hp
      have hlt := (mem_pageRange_of_aligned hr.aligned).mp hva'
      exact halone va hva e he j hj hjm va' hva' e' (hs.ptes va' (by omega) e' he') hp.symm

/-- `delete_mmaps` writes the pages of the region `m` to its file. -/
theorem deleteMmaps_written {f : ℕ} (ht : Table s₀.mm l) (hm : m ∈ l) (href : (s₀.mm.mmaps m).refcnt = 0)
    (hfile : (s₀.mm.mmaps m).MapsFile s₀.fs f i size bytes)
    (hc : Contents s₀.space.mem s₀.space.pgdir (s₀.mm.mmaps m) cur) (halone : Alone s₀ l m)
    (hsole : Sole s₀.mm s₀.fs l m i) (hdel : deleteMmaps s₀ = some s') :
    ∃ size' bytes', s'.fs.inodes i = .regular size' bytes' ∧ Written (s₀.mm.mmaps m) s₀.space.pgdir cur bytes size
      (pageRange (s₀.mm.mmaps m).addr (s₀.mm.mmaps m).stop) size' bytes' := by
  obtain ⟨s₁, hfor, rfl⟩ := deleteMmaps_some ht.toListed hdel
  have hloop := forEach_done (I := fun done s => Deleting s₀ s done ∧ (m ∉ done → Waits s₀ s m i) ∧
    (m ∈ done → ∃ size' bytes', s.fs.inodes i = .regular size' bytes' ∧ Written (s₀.mm.mmaps m) s₀.space.pgdir cur bytes
      size (pageRange (s₀.mm.mmaps m).addr (s₀.mm.mmaps m).stop) size' bytes')) ?_ hfor
    ⟨⟨fun _ _ => rfl, fun _ => rfl, fun _ _ _ h => h⟩, fun _ => ⟨rfl, fun _ _ => rfl, fun _ _ _ _ => rfl⟩, by simp⟩
  · exact hloop.2.2 hm
  intro done j rest s s' hl ⟨hs, hwait, hwritten⟩ hb
  obtain ⟨t, hd, hk⟩ := Option.map_eq_some_iff.mp hb
  obtain ⟨rfl, -⟩ := Prod.mk.inj hk
  have hj : j ∈ l := by simp [hl]
  have hdone : j ∉ done := by
    have hnd := ht.nodup
    rw [hl, List.nodup_middle] at hnd
    exact fun h => (List.nodup_cons.mp hnd).1 (by simp [h])
  refine ⟨hs.step (ht.region j hj) hdone hd, ?_, ?_⟩
  · intro hmd
    simp only [List.mem_append, List.mem_singleton, not_or] at hmd
    exact (hwait hmd.1).step hs ht hm hj (Ne.symm hmd.2) hdone halone hsole hd
  · intro hmd
    by_cases hjm : j = m
    · -- the region itself
      subst hjm
      have hw := hwait hdone
      obtain ⟨d, fs, parent, hdrop, hfs, rfl, -⟩ := deleteRegion_cases hd
      rw [hs.mmaps j hdone] at hdrop hfs
      rw [if_pos href] at hfs
      simp only [hfile.backs, href, decide_true, Bool.and_true] at hdrop
      have hcontents : Contents s.space.mem s.space.pgdir (s₀.mm.mmaps j) cur := by
        constructor
        · intro va hva e he x hx
          rw [hw.ptes va hva] at he
          rw [hw.bytes va hva e he]
          exact hc.bytes va hva e he x hx
        · intro va hva va' hva' e e' he he'
          rw [hw.ptes va hva] at he
          rw [hw.ptes va' hva'] at he'
          exact hc.distinct va hva va' hva' e e' he he'
      obtain ⟨size', bytes', hino, hwr⟩ := dropPages_written (ht.region j hj) hdrop hcontents hfile.file
        (by rw [hs.ips]; exact hfile.inode) (hw.inode.trans hfile.regular) hfile.short
      refine ⟨size', bytes', ?_, hwr.congr fun va hva => hw.ptes va hva⟩
      rw [← hino]
      exact congrFun (closeIf_spec hfs).1 i
    · -- a region behind it
      have hmd : m ∈ done := by simpa [Ne.symm hjm] using hmd
      obtain ⟨size', bytes', hino, hwr⟩ := hwritten hmd
      exact ⟨size', bytes', (hs.inode hj hjm hdone hsole hd).trans hino, hwr⟩

end

/-! ### The file afterwards -/

section

variable {k k₁ k₂ k₃ : Kernel} {p : Fin 64} {l l₁ l₂ : List (Fin 16)} {m : Fin 16} {r : Region} {pd : PageDir}
  {length flags fd : BitVec 32} {a i size size' : ℕ} {bytes bytes' : ℕ → UInt8} {cur : ℕ → Option UInt8} {xs : List Access}

/-- What the write-back of the pages of a region comes to: the file ends where it did unless one of the pages ends
behind it, and its bytes below 71168 are those last stored. -/
theorem Written.outcome (hr : r.Ok) (hlen : r.length ≤ size)
    (h : Written r pd (fun o => (cur (r.addr + o)).getD (padded size bytes o)) bytes size (pageRange r.addr r.stop)
      size' bytes')
    (hun : ∀ va ∈ pageRange r.addr r.stop, pd.pte va = none → ∀ x < 4096, cur (va + x) = none)
    (hin : ∀ va, r.stop ≤ va → cur va = none) :
    (size' = size ↔ ∀ va ∈ pageRange r.addr r.stop, pd.pte va ≠ none → min (va - r.addr + 4096) 71168 ≤ size) ∧
      ∀ o < size, bytes' o = if o < 71168 then (cur (r.addr + o)).getD (bytes o) else bytes o := by
  have hend := hr.stop_eq
  obtain ⟨hal, h₀, -, -⟩ := hr
  have hoff (va : ℕ) (hva : va ∈ pageRange r.addr r.stop) : r.addr ≤ va ∧ va - r.addr ≤ size ∧ va % 4096 = 0 := by
    have := (mem_pageRange_of_aligned hal).mp hva
    omega
  refine ⟨⟨?_, ?_⟩, ?_⟩
  · intro hsize va hva hpte
    rw [← writeEnd_le_iff (hoff va hva).2.1, ← hsize]
    exact h.ge va hva hpte
  · intro hall
    rcases h.eq with hsize | ⟨va, hva, hpte, hsize⟩
    · exact hsize
    · have hle := (writeEnd_le_iff (hoff va hva).2.1).mpr (hall va hva hpte)
      exact le_antisymm (hsize ▸ hle) h.le
  · intro o ho
    by_cases hw : WrittenAt r pd (pageRange r.addr r.stop) o
    · have hlt : o < 71168 := by
        obtain ⟨va, -, -, hlo, hhi⟩ := hw
        unfold writeEnd at hhi
        omega
      rw [h.written o hw, if_pos hlt, padded, if_pos ho]
    · rw [h.others o hw]
      split_ifs with hlt
      · -- nothing has been stored there
        suffices hnone : cur (r.addr + o) = none by rw [hnone]; rfl
        by_cases hstop : r.stop ≤ r.addr + o
        · exact hin _ hstop
        · have hpage : (r.addr + o) / 4096 * 4096 ∈ pageRange r.addr r.stop :=
            (mem_pageRange_of_aligned hal).mpr (by omega)
          have hadd : (r.addr + o) / 4096 * 4096 + (r.addr + o) % 4096 = r.addr + o := by omega
          rw [← hadd]
          refine hun _ hpage ?_ _ (by omega)
          by_contra hpte
          refine hw ⟨_, hpage, hpte, by omega, ?_⟩
          unfold writeEnd
          omega
      · rfl

/-- A shared mapping of the regular file `i` is made at `a`, used by `xs`, and ended by `wunmap` or `exit`. The kernel
is in order: the free pages are different ones that the process does not map, and no other mapping of the process
writes to the file. -/
structure SharedUse (k k₁ k₂ k₃ : Kernel) (p : Fin 64) (l : List (Fin 16)) (length flags fd : BitVec 32) (a : ℕ)
    (xs : List Access) (i size : ℕ) (bytes : ℕ → UInt8) : Prop where
  /-- The table. -/
  wellFormed : WellFormed (k.procs p).mm l
  /-- The entries at or above `MMAPBASE` are in the regions. -/
  covered : Covered (k.procs p) l
  /-- No mapping of the process writes to the file. -/
  sole : ∀ j ∈ l, ((k.procs p).mm.mmaps j).backs = true → ∀ f, ((k.procs p).mm.mmaps j).f = some f →
    (k.fs.files f).ip ≠ some i
  /-- No page is free twice. -/
  nodup : k.mem.free.Nodup
  /-- The process maps no free page. -/
  mapped : ∀ va < 2 ^ 32, ∀ e, (k.procs p).pgdir.pte va = some e → e.page ∉ k.mem.free
  /-- The mapping is shared. -/
  shared : has flags mapShared = true
  /-- It is not anonymous. -/
  file : has flags mapAnonymous = false
  /-- The descriptor is one of the file. -/
  inode : ∃ f, argfd (k.procs p) fd.toInt = some f ∧ (k.fs.files f).ip = some i
  /-- The file. -/
  regular : k.fs.inodes i = .regular size bytes
  /-- The call of `wmap`. -/
  map : ∃ addr, sysWmap k p addr length flags fd = some (k₁, (a : ℤ))
  /-- The accesses. -/
  run : access k₁ p xs = some k₂
  /-- They are to bytes of the mapping. -/
  inside : ∀ x ∈ xs, a ≤ x.addr ∧ (x.addr : ℤ) < a + length.toInt
  /-- The end. -/
  ends : sysWunmap k₂ p (BitVec.ofNat 32 a) = some (k₃, 0) ∨ exit k₂ p = some k₃

/-- A new region has no pages that one could see. -/
theorem NewMap.views (h : NewMap k k₁ p l₁ m l₂ r) (hr : r.Ok) :
    Views k₁ p ((k₁.procs p).mm.mmaps m) size bytes (fun _ => none) k₁ := by
  obtain ⟨mm, b, n, -, hproc, -⟩ := h.place
  have hnone (va : ℕ) (hva : va ∈ pageRange ((k₁.procs p).mm.mmaps m).addr ((k₁.procs p).mm.mmaps m).stop) :
      (k₁.procs p).pgdir.pte va = none := by
    rw [h.region] at hva
    have hle := hr.stop_le_pageEnd
    have hend := hr.pageEnd_le
    have hva := (mem_pageRange_of_aligned hr.aligned).mp hva
    rw [hproc]
    exact h.empty va (by omega) hva.1 (by omega)
  refine ⟨.refl _, fun va hva e he => ?_, ⟨fun va hva e he => ?_, fun va hva va' _ e _ he => ?_⟩, fun _ _ _ _ _ => rfl⟩
  all_goals
    rw [hnone va hva] at he
    cases he

/-- The end of a mapping that has been used: its pages are written to the file. -/
theorem ends_written {f : ℕ} {content : ℕ → UInt8} (ht : Table (k₂.procs p).mm l) (hs : Strict (k₂.procs p).mm l)
    (hm : m ∈ l) (haddr : ((k₂.procs p).mm.mmaps m).addr = a) (href : ((k₂.procs p).mm.mmaps m).refcnt = 0)
    (hfile : ((k₂.procs p).mm.mmaps m).MapsFile k₂.fs f i size bytes)
    (hc : Contents k₂.mem (k₂.procs p).pgdir ((k₂.procs p).mm.mmaps m) content) (halone : Alone (deletion k₂ p) l m)
    (hsole : Sole (k₂.procs p).mm k₂.fs l m i)
    (hend : sysWunmap k₂ p (BitVec.ofNat 32 a) = some (k₃, 0) ∨ exit k₂ p = some k₃) :
    ∃ size' bytes', k₃.fs.inodes i = .regular size' bytes' ∧ Written ((k₂.procs p).mm.mmaps m) (k₂.procs p).pgdir content
      bytes size (pageRange ((k₂.procs p).mm.mmaps m).addr ((k₂.procs p).mm.mmaps m).stop) size' bytes' := by
  have hr := ht.region m hm
  rcases hend with hw | hw
  · generalize hret : (0 : ℤ) = ret at hw
    cases sysWunmap_cases ht.toListed hw with
    | failed => cases hret
    | @removed l₁ j l₂ s fs hl hj hdrop hfs =>
      have hjm : ((k₂.procs p).mm.mmaps j).addr = ((k₂.procs p).mm.mmaps m).addr := by
        have hlo := hr.lo
        have hhi := hr.hi
        have hpos := hr.nonneg
        rw [hj, haddr, BitVec.toNat_ofNat]
        omega
      obtain rfl := ht.eq_of_addr hs (by simp [hl]) hm hjm
      rw [if_pos href] at hfs
      rw [← hj] at hdrop
      simp only [hfile.backs, href, decide_true] at hdrop
      obtain ⟨size', bytes', hino, hwr⟩ := dropPages_written hr hdrop hc hfile.file hfile.inode hfile.regular hfile.short
      exact ⟨size', bytes', (congrFun (closeIf_spec hfs).1 i).trans hino, hwr⟩
  · obtain ⟨s, hdel, hfs⟩ := exit_inodes hw
    have hd : Table (deletion k₂ p).mm l := ht
    rw [hfs]
    exact deleteMmaps_written hd hm href hfile hc halone hsole hdel

/-- The pages that accesses to a new region have taken were free, so they are in no other region. -/
theorem NewMap.alone (h : NewMap k k₁ p l₁ m l₂ r) (hin : Inside k₁ p m k₂)
    (hmapped : ∀ va < 2 ^ 32, ∀ e, (k.procs p).pgdir.pte va = some e → e.page ∉ k.mem.free)
    (hpages : ∀ va ∈ pageRange r.addr r.stop, ∀ e, (k₂.procs p).pgdir.pte va = some e → e.page ∈ k.mem.free) :
    Alone (deletion k₂ p) (l₁ ++ m :: l₂) m := by
  intro va hva e he j hj hjm va' hva' e' he' hpage
  obtain ⟨c, hmm⟩ := hin.mmaps
  obtain ⟨mm, b, n, -, hproc, -⟩ := h.place
  change va ∈ pageRange ((k₂.procs p).mm.mmaps m).addr ((k₂.procs p).mm.mmaps m).stop at hva
  change va' ∈ pageRange ((k₂.procs p).mm.mmaps j).addr ((k₂.procs p).mm.mmaps j).stop at hva'
  rw [hmm] at hva hva'
  simp only [Mmaps.set, update_self, update_of_ne hjm] at hva hva'
  rw [h.region] at hva
  -- the entries of the other regions were there before
  have hrj := h.table.region j hj
  have hva' := (mem_pageRange_of_aligned hrj.aligned).mp hva'
  have hle := hrj.stop_le_pageEnd
  have hend := hrj.pageEnd_le
  have hapart := h.table.apart j hj m (by simp) hjm
  rw [h.region] at hapart
  have hout : ¬ (((k₁.procs p).mm.mmaps m).addr ≤ va' ∧ va' < ((k₁.procs p).mm.mmaps m).pageEnd) := by
    rw [h.region]
    unfold Region.Apart at hapart
    omega
  have he' : (k₂.procs p).pgdir.pte va' = some e' := he'
  rw [hin.ptes va' (by omega) hout, hproc] at he'
  exact hmapped va' (by omega) e' he' (hpage ▸ hpages va hva e he)

/-- No other region is written back to a file that no region was written back to before. -/
theorem NewMap.sole (h : NewMap k k₁ p l₁ m l₂ r) (hin : Inside k₁ p m k₂)
    (hsole : ∀ j ∈ l₁ ++ l₂, ((k.procs p).mm.mmaps j).backs = true → ∀ f, ((k.procs p).mm.mmaps j).f = some f →
      (k.fs.files f).ip ≠ some i) : Sole (k₂.procs p).mm k₂.fs (l₁ ++ m :: l₂) m i := by
  intro j hj hjm hback f hf
  obtain ⟨c, hmm⟩ := hin.mmaps
  obtain ⟨mm, b, n, -, hproc, hold⟩ := h.place
  have hjl : j ∈ l₁ ++ l₂ := by
    simpa [hjm] using hj
  have hrj : (k₂.procs p).mm.mmaps j = (k.procs p).mm.mmaps j := by
    rw [hmm, ← hold j hjm, hproc]
    simp [Mmaps.set, placed, hjm]
  rw [hrj] at hback hf
  rw [hin.files, dupIf_ips h.fs]
  exact hsole j hjl hback f hf

/-- The file after a shared mapping. -/
theorem SharedUse.outcome (h : SharedUse k k₁ k₂ k₃ p l length flags fd a xs i size bytes)
    (hlen : length.toInt ≤ size) : ∃ size' bytes', k₃.fs.inodes i = .regular size' bytes' ∧
      (size' = size ↔ ∀ va ∈ pageRange a (a + length.toInt).toNat, (k₂.procs p).pgdir.pte va ≠ none →
        min (va - a + 4096) 71168 ≤ size) ∧
      ∀ o < size, bytes' o = if o < 71168 then (lastStored xs (a + o)).getD (bytes o) else bytes o := by
  obtain ⟨hwf, hcov, hsole, hnodup, hmapped, hshared, hanon, ⟨f, hargfd, hip⟩, hregular, ⟨addr, hmap⟩, hrun, hxs, hend⟩ := h
  obtain ⟨l₁, m, l₂, rfl, -, -, hnew⟩ := sysWmap_newMap hwf hcov hmap (by omega)
  rw [Int.toNat_natCast] at hnew
  generalize hr : newRegion (k.procs p) a length flags fd = r at hnew
  have hraddr : r.addr = a := by rw [← hr]; rfl
  have hrlen : r.length = length.toInt := by rw [← hr]; rfl
  have hrf : r.f = some f := by rw [← hr, ← hargfd]; rfl
  have hrref : r.refcnt = 0 := by rw [← hr]; rfl
  have hrback : r.backs = true := by
    have hflags : r.flags = flags := by rw [← hr]; rfl
    simp [Region.backs, hflags, hanon, hshared, hrf]
  have hm : m ∈ l₁ ++ m :: l₂ := by simp
  have hreg := hnew.table.region m hm
  have hok := hreg
  rw [hnew.region] at hok
  have hstop := hok.stop_eq
  -- the accesses
  have hfile : ((k₁.procs p).mm.mmaps m).MapsFile k₁.fs f i size bytes := by
    rw [hnew.region]
    exact ⟨hrback, hrf, by rw [dupIf_ips hnew.fs, hip], by rw [dupIf_inodes hnew.fs, hregular], by rw [hrlen]; exact hlen⟩
  have hxs' (x : Access) (hx : x ∈ xs) : ((k₁.procs p).mm.mmaps m).addr ≤ x.addr ∧
      x.addr < ((k₁.procs p).mm.mmaps m).stop := by
    rw [hnew.region]
    have := hxs x hx
    omega
  obtain ⟨hin, hviews⟩ := (hnew.views hok).run hnew.inside hnew.table hm hfile (by rw [hnew.mem]; exact hnodup) hxs' hrun
  obtain ⟨c, hmm⟩ := hin.mmaps
  have hr₂ : (k₂.procs p).mm.mmaps m = { r with nLoadedPages := c } := by
    rw [hmm, hnew.region]
    exact update_self ..
  have hs₂ : Strict (k₂.procs p).mm (l₁ ++ m :: l₂) := by
    rw [hmm]
    exact hnew.strict.set_same rfl rfl
  have hptes := hin.ptes
  rw [hnew.region] at hviews hfile hptes
  obtain ⟨mm, b, n, -, hproc, hold⟩ := hnew.place
  have hfile₂ : ((k₂.procs p).mm.mmaps m).MapsFile k₂.fs f i size bytes := by
    rw [hr₂]
    exact ⟨hfile.backs, hfile.file, by rw [hin.files]; exact hfile.inode, hin.inodes i size bytes hfile.regular, hfile.short⟩
  have halone := hnew.alone hin hmapped fun va hva e he => hnew.mem ▸ (hviews.pages va hva e he).1
  have hsole₂ := hnew.sole hin hsole
  have hc : Contents k₂.mem (k₂.procs p).pgdir ((k₂.procs p).mm.mmaps m) fun o =>
      (lastStored xs (r.addr + o)).getD (padded size bytes o) := by
    rw [hr₂]
    exact ⟨hviews.contents.bytes, hviews.contents.distinct⟩
  obtain ⟨size', bytes', hino, hwr⟩ := ends_written (hin.table hnew.table hm) hs₂ hm (by rw [hr₂]; exact hraddr)
    (by rw [hr₂]; exact hrref) hfile₂ hc halone hsole₂ hend
  rw [hr₂] at hwr
  have hwr : Written r (k₂.procs p).pgdir (fun o => (lastStored xs (r.addr + o)).getD (padded size bytes o)) bytes size
      (pageRange r.addr r.stop) size' bytes' := ⟨hwr.le, hwr.ge, hwr.eq, hwr.written, hwr.others⟩
  have hbehind (va : ℕ) (hva : r.stop ≤ va) : lastStored xs va = none := by
    apply foldl_note_of_ne
    intro x hx hxva
    have := hxs x hx
    omega
  have hrange : r.stop = (a + length.toInt).toNat := by omega
  obtain ⟨hsize, hbytes⟩ := hwr.outcome hok (by rw [hrlen]; exact hlen) hviews.unloaded hbehind
  rw [hraddr, hrange] at hsize
  rw [hraddr] at hbytes
  exact ⟨size', bytes', hino, hsize, hbytes⟩

/-- **A shared mapping of a whole file persists** every byte that is stored exactly if no byte from 71168 on is stored
with a new value: those are never written. -/
theorem shared_mapping_persists_iff (h : SharedUse k k₁ k₂ k₃ p l length flags fd a xs i size bytes)
    (hlen : length.toInt = size) : ∃ size' bytes', k₃.fs.inodes i = .regular size' bytes' ∧
      ((∀ o < size, bytes' o = (lastStored xs (a + o)).getD (bytes o)) ↔
        ∀ o < size, 71168 ≤ o → ∀ b, lastStored xs (a + o) = some b → b = bytes o) := by
  obtain ⟨size', bytes', hino, -, hbytes⟩ := h.outcome hlen.le
  refine ⟨size', bytes', hino, ?_, ?_⟩
  · intro hall o ho hlo b hb
    have hstored := hall o ho
    rw [hbytes o ho, if_neg (by omega), hb] at hstored
    exact hstored.symm
  · intro hall o ho
    rw [hbytes o ho]
    split_ifs with hlo
    · rfl
    · cases hb : lastStored xs (a + o) with
      | none => rfl
      | some b => exact (hall o ho (by omega) b hb).symm

/-- **A shared mapping leaves what is behind it alone** exactly if no page of it is there that is written beyond the end
of the file. The bytes of the file behind the mapping are the same in any case. -/
theorem shared_mapping_frame_iff (h : SharedUse k k₁ k₂ k₃ p l length flags fd a xs i size bytes)
    (hlen : length.toInt ≤ size) : ∃ size' bytes', k₃.fs.inodes i = .regular size' bytes' ∧
      ((size' = size ∧ ∀ o < size, length.toInt ≤ o → bytes' o = bytes o) ↔
        ∀ va ∈ pageRange a (a + length.toInt).toNat, (k₂.procs p).pgdir.pte va ≠ none →
          min (va - a + 4096) 71168 ≤ size) := by
  obtain ⟨size', bytes', hino, hsize, hbytes⟩ := h.outcome hlen
  refine ⟨size', bytes', hino, fun hsame => hsize.mp hsame.1, fun hall => ⟨hsize.mpr hall, ?_⟩⟩
  intro o ho hlo
  have hnone : lastStored xs (a + o) = none := by
    apply foldl_note_of_ne
    intro x hx hxva
    have := h.inside x hx
    omega
  rw [hbytes o ho, hnone]
  split_ifs <;> rfl

end

/-! ### A file of 5000 bytes, and one of the largest size -/

/-- The first page is touched. -/
theorem sharedUse_touched : ∃ k₁ k₂ k₃, SharedUse (bootOpen 8) k₁ k₂ k₃ 0 [] 5000 2 3 0x60000000
    [.fault 0x60000010, .store 0x60000010 9] 0 5000 (fun _ => 7) ∧ (k₂.procs 0).pgdir.pte 0x60001000 = none := by
  have hrun : ((sysWmap (bootOpen 8) 0 0 5000 2 3).bind fun a =>
      (access a.1 0 [.fault 0x60000010, .store 0x60000010 9]).bind fun k₂ =>
        (sysWunmap k₂ 0 0x60000000).map fun b => decide (a.2 = 0x60000000 ∧ b.2 = 0 ∧
          (k₂.procs 0).pgdir.pte 0x60001000 = none)) = some true := by
    decide +kernel
  obtain ⟨⟨k₁, r⟩, hmap, hrest⟩ := Option.bind_eq_some_iff.mp hrun
  obtain ⟨k₂, hk₂, hrest⟩ := Option.bind_eq_some_iff.mp hrest
  obtain ⟨⟨k₃, r'⟩, hw, hout⟩ := Option.map_eq_some_iff.mp hrest
  obtain ⟨rfl, rfl, hpte⟩ := of_decide_eq_true hout
  have hmapped (va : ℕ) (hva : va < 2 ^ 32) (e : Pte) (he : ((bootOpen 8).procs 0).pgdir.pte va = some e) :
      e.page ∉ (bootOpen 8).mem.free := by
    have he : ((boot 8).procs 0).pgdir.pte va = some e := he
    by_cases hlo : 4096 ≤ va
    · rw [boot_pte hlo hva] at he
      cases he
    · have hvpn : vpn va = vpn 0 := by
        unfold vpn
        omega
      rw [PageDir.pte_congr hvpn] at he
      obtain rfl : (⟨4, true, true⟩ : Pte) = e := Option.some.inj he
      decide
  refine ⟨k₁, k₂, k₃, ⟨boot_wellFormed 8 0, fun va _ hlo hlt hpte => absurd (boot_pte (n := 8) (by omega) hlt) hpte, by simp,
    by decide, hmapped, by decide, by decide, ⟨0, rfl, rfl⟩, rfl, ⟨0, hmap⟩, hk₂, ?_, .inl hw⟩, hpte⟩
  intro x hx
  rcases List.mem_pair.mp hx with rfl | rfl
  · exact ⟨by decide, by decide⟩
  · exact ⟨by decide, by decide⟩

/-- What is stored in the first page is in the file. -/
theorem shared_mapping_persists_touched : ∃ k₁ k₂ k₃ size' bytes', SharedUse (bootOpen 8) k₁ k₂ k₃ 0 [] 5000 2 3 0x60000000
    [.fault 0x60000010, .store 0x60000010 9] 0 5000 (fun _ => 7) ∧ k₃.fs.inodes 0 = .regular size' bytes' ∧ bytes' 16 = 9 := by
  obtain ⟨k₁, k₂, k₃, huse, -⟩ := sharedUse_touched
  obtain ⟨size', bytes', hino, hiff⟩ := shared_mapping_persists_iff huse rfl
  exact ⟨k₁, k₂, k₃, size', bytes', huse, hino, hiff.mpr (fun o ho hlo => by omega) 16 (by decide)⟩

/-- The file keeps its size: its last page is not there. -/
theorem shared_mapping_frame_touched : ∃ k₁ k₂ k₃ size' bytes', SharedUse (bootOpen 8) k₁ k₂ k₃ 0 [] 5000 2 3 0x60000000
    [.fault 0x60000010, .store 0x60000010 9] 0 5000 (fun _ => 7) ∧ k₃.fs.inodes 0 = .regular size' bytes' ∧
      size' = 5000 := by
  obtain ⟨k₁, k₂, k₃, huse, hnone⟩ := sharedUse_touched
  obtain ⟨size', bytes', hino, hiff⟩ := shared_mapping_frame_iff huse (by decide)
  refine ⟨k₁, k₂, k₃, size', bytes', huse, hino, (hiff.mpr ?_).1⟩
  intro va hva hpte
  obtain ⟨n, rfl, hlt⟩ := mem_pageRange.mp hva
  have hlt : 0x60000000 + 4096 * n < 0x60000000 + 5000 := hlt
  have hn : n ≠ 1 := by
    rintro rfl
    exact hpte hnone
  omega

/-- The size and the bytes of a regular file. -/
def Inode.contents : Inode → Option (ℕ × (ℕ → UInt8))
  | .regular size bytes => some (size, bytes)
  | .device .. => none

/-- `bootOpen n` with a file of the largest size. -/
def bootLargest (n : ℕ) : Kernel :=
  { bootOpen n with fs := { (bootOpen n).fs with inodes := fun _ => .regular maxFileSize fun _ => 7 } }

/-- A store near the end of a file of the largest size does not reach the file. -/
theorem shared_mapping_loses_store : ∃ k₁ k₂ k₃ size' bytes', sysWmap (bootLargest 8) 0 0 71680 2 3 = some (k₁, 0x60000000) ∧
    access k₁ 0 [.fault 0x60011600, .store 0x60011600 9] = some k₂ ∧ sysWunmap k₂ 0 0x60000000 = some (k₃, 0) ∧
    lastStored [.fault 0x60011600, .store 0x60011600 9] (0x60000000 + 71168) = some 9 ∧
    k₃.fs.inodes 0 = .regular size' bytes' ∧ bytes' 71168 = 7 := by
  have hrun : ((sysWmap (bootLargest 8) 0 0 71680 2 3).bind fun a =>
      (access a.1 0 [.fault 0x60011600, .store 0x60011600 9]).bind fun k₂ =>
        (sysWunmap k₂ 0 0x60000000).map fun b =>
          decide (a.2 = 0x60000000 ∧ b.2 = 0 ∧ (b.1.fs.inodes 0).contents.map (fun c => c.2 71168) = some 7)) = some true := by
    decide +kernel
  obtain ⟨⟨k₁, r⟩, hmap, hrest⟩ := Option.bind_eq_some_iff.mp hrun
  obtain ⟨k₂, hk₂, hrest⟩ := Option.bind_eq_some_iff.mp hrest
  obtain ⟨⟨k₃, r'⟩, hw, hout⟩ := Option.map_eq_some_iff.mp hrest
  obtain ⟨rfl, rfl, hbyte⟩ := of_decide_eq_true hout
  cases hino : k₃.fs.inodes 0 with
  | device reads writes => simp [hino, Inode.contents] at hbyte
  | regular size' bytes' =>
    rw [hino] at hbyte
    exact ⟨k₁, k₂, k₃, size', bytes', hmap, hk₂, hw, rfl, hino, Option.some.inj hbyte⟩

/-- A load in the last page of a file makes the file longer. -/
theorem shared_mapping_lengthens_file : ∃ k₁ k₂ k₃ size' bytes', sysWmap (bootOpen 8) 0 0 5000 2 3 = some (k₁, 0x60000000) ∧
    access k₁ 0 [.fault 0x60001000] = some k₂ ∧ sysWunmap k₂ 0 0x60000000 = some (k₃, 0) ∧
    k₃.fs.inodes 0 = .regular size' bytes' ∧ size' = 8192 := by
  have hrun : ((sysWmap (bootOpen 8) 0 0 5000 2 3).bind fun a =>
      (access a.1 0 [.fault 0x60001000]).bind fun k₂ =>
        (sysWunmap k₂ 0 0x60000000).map fun b =>
          decide (a.2 = 0x60000000 ∧ b.2 = 0 ∧ (b.1.fs.inodes 0).contents.map Prod.fst = some 8192)) = some true := by
    decide +kernel
  obtain ⟨⟨k₁, r⟩, hmap, hrest⟩ := Option.bind_eq_some_iff.mp hrun
  obtain ⟨k₂, hk₂, hrest⟩ := Option.bind_eq_some_iff.mp hrest
  obtain ⟨⟨k₃, r'⟩, hw, hout⟩ := Option.map_eq_some_iff.mp hrest
  obtain ⟨rfl, rfl, hsize⟩ := of_decide_eq_true hout
  cases hino : k₃.fs.inodes 0 with
  | device reads writes => simp [hino, Inode.contents] at hsize
  | regular size' bytes' =>
    rw [hino] at hsize
    exact ⟨k₁, k₂, k₃, size', bytes', hmap, hk₂, hw, hino, Option.some.inj hsize⟩

end SdeSystems.Wmap
