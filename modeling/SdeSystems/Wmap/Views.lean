import SdeSystems.Wmap.Inside
import SdeSystems.Wmap.WriteBack

/-!
# What a process sees of a mapped file

The pages of a mapping of a regular file come in one by one, in any order, with the bytes of the file
and 0 behind its end, and stores go to them. So at any time a byte of a page that is there is what was
stored last, or else the byte of the file, and nothing is stored where there is no page.
-/

namespace SdeSystems.Wmap

open Lib Function

/-! ### What is stored -/

/-- The values last stored, after an access. -/
def Access.note (cur : ℕ → Option UInt8) : Access → ℕ → Option UInt8
  | .fault _ => cur
  | .store va b => update cur va.toNat (some b)

/-- The value last stored at an address, if there is one. -/
def lastStored (xs : List Access) : ℕ → Option UInt8 := xs.foldl Access.note fun _ => none

/-- A file as a page of it is read: 0 behind the end. -/
def padded (size : ℕ) (bytes : ℕ → UInt8) (o : ℕ) : UInt8 := if o < size then bytes o else 0

/-- The region maps the regular file `i` through the open file `f`, is shared, and does not go beyond the file. -/
structure Region.MapsFile (r : Region) (fs : Fs) (f i size : ℕ) (bytes : ℕ → UInt8) : Prop where
  /-- Its pages are written back. -/
  backs : r.backs = true
  /-- The open file. -/
  file : r.f = some f
  /-- Its inode. -/
  inode : (fs.files f).ip = some i
  /-- The file is regular. -/
  regular : fs.inodes i = .regular size bytes
  /-- The file is long enough. -/
  short : r.length ≤ size

section

variable {k t t' : Kernel} {p : Fin 64} {l : List (Fin 16)} {m : Fin 16} {r : Region} {f i size off page va : ℕ}
  {bytes : ℕ → UInt8} {cur : ℕ → Option UInt8} {mem mem' : Mem} {fs fs' : Fs} {ok : Bool} {xs : List Access} {ret : ℤ}

theorem foldl_note_of_ne (h : ∀ x ∈ xs, x.addr ≠ va) : xs.foldl Access.note cur va = cur va := by
  induction xs generalizing cur with
  | nil => rfl
  | cons x xs ih =>
    rw [List.foldl_cons, ih fun y hy => h y (by simp [hy])]
    cases x with
    | fault addr => rfl
    | store va' b =>
      have hne : va'.toNat ≠ va := h (.store va' b) (by simp)
      exact update_of_ne hne.symm ..

/-- The read of a page of a regular file. -/
theorem readPage_regular (h : readPage mem fs f page off = some (mem', fs', ok)) (hip : (fs.files f).ip = some i)
    (hregular : fs.inodes i = .regular size bytes) (hoff : off ≤ size) (hlt : off + 4096 < 2 ^ 32)
    (hzero : ∀ x, mem.bytes page x = 0) : ok = true ∧ ∀ x < 4096, mem'.bytes page x = padded size bytes (off + x) := by
  unfold readPage readi at h
  simp only [hip, hregular] at h
  rw [if_neg (by omega)] at h
  obtain ⟨rfl, hrest⟩ := Prod.mk.inj (Option.some.inj h)
  obtain ⟨-, rfl⟩ := Prod.mk.inj hrest
  refine ⟨rfl, ?_⟩
  intro x hx
  simp only [Mem.fill, update_self, hzero]
  unfold padded
  by_cases hin : off + x < size
  · rw [if_pos hin, List.getD_eq_getElem?_getD, List.getElem?_map, List.getElem?_range (by omega)]
    rfl
  · rw [if_neg hin, List.getD_eq_getElem?_getD, List.getElem?_eq_none (by simp; omega)]
    rfl

/-- A page that is given back at once. -/
theorem giveBack_takes {content : ℕ → UInt8} (h : kalloc mem = some (page, mem')) :
    Takes mem (kfree (mem'.fill page content) page) := by
  unfold kalloc at h
  split at h
  · cases h
  · rename_i page' free hfree
    obtain ⟨rfl, rfl⟩ := Prod.mk.inj (Option.some.inj h)
    refine ⟨by simp [kfree, Mem.fill, hfree], ?_⟩
    intro x hx
    have hne : x ≠ page' := fun hxp => hx (by simp [hfree, hxp])
    simp [kfree, Mem.fill, hne]

/-- The pages of the region `m` after accesses to it: they come from the free list that `k` had, and a byte of them
is what was stored there last, or what the file has there. -/
structure Views (k : Kernel) (p : Fin 64) (r : Region) (size : ℕ) (bytes : ℕ → UInt8) (cur : ℕ → Option UInt8)
    (t : Kernel) : Prop where
  /-- What has been taken from the free list. -/
  takes : Takes k.mem t.mem
  /-- The pages were free and are not any more. -/
  pages : ∀ va ∈ pageRange r.addr r.stop, ∀ e, (t.procs p).pgdir.pte va = some e →
    e.page ∈ k.mem.free ∧ e.page ∉ t.mem.free
  /-- Their bytes. -/
  contents : Contents t.mem (t.procs p).pgdir r fun o => (cur (r.addr + o)).getD (padded size bytes o)
  /-- Nothing is stored where there is no page. -/
  unloaded : ∀ va ∈ pageRange r.addr r.stop, (t.procs p).pgdir.pte va = none → ∀ x < 4096, cur (va + x) = none

/-- Pages are taken, and none of them is the region's. -/
theorem Views.keep (h : Views k p r size bytes cur t) (hpd : (t'.procs p).pgdir = (t.procs p).pgdir)
    (htakes : Takes t.mem t'.mem) : Views k p r size bytes cur t' := by
  refine ⟨h.takes.trans htakes, ?_, ⟨?_, ?_⟩, ?_⟩
  · rw [hpd]
    exact fun va hva e he => ⟨(h.pages va hva e he).1, fun hf => (h.pages va hva e he).2 (htakes.free.subset hf)⟩
  · rw [hpd]
    intro va hva e he x hx
    rw [htakes.bytes _ (h.pages va hva e he).2]
    exact h.contents.bytes va hva e he x hx
  · rw [hpd]
    exact h.contents.distinct
  · rw [hpd]
    exact h.unloaded

/-- A page of the file is mapped. -/
theorem Views.map (h : Views k p r size bytes cur t) (hva : va ∈ pageRange r.addr r.stop) (hal : r.addr ≤ va)
    {e : Pte} (hnone : (t.procs p).pgdir.pte va = none) (hsome : (t'.procs p).pgdir.pte va = some e)
    (hothers : ∀ x ∈ pageRange r.addr r.stop, x ≠ va → (t'.procs p).pgdir.pte x = (t.procs p).pgdir.pte x)
    (htakes : Takes t.mem t'.mem) (hfree : e.page ∈ t.mem.free) (hnot : e.page ∉ t'.mem.free)
    (hbytes : ∀ x < 4096, t'.mem.bytes e.page x = padded size bytes (va - r.addr + x)) :
    Views k p r size bytes cur t' := by
  -- the other pages are not free, so they are others and have their bytes
  have hold (x : ℕ) (hx : x ∈ pageRange r.addr r.stop) (hxv : x ≠ va) (e' : Pte)
      (he' : (t'.procs p).pgdir.pte x = some e') :
      (t.procs p).pgdir.pte x = some e' ∧ e'.page ∉ t.mem.free ∧ e'.page ≠ e.page := by
    rw [hothers x hx hxv] at he'
    have hfree' := (h.pages x hx e' he').2
    exact ⟨he', hfree', fun hpage => hfree' (hpage ▸ hfree)⟩
  refine ⟨h.takes.trans htakes, ?_, ⟨?_, ?_⟩, ?_⟩
  · intro x hx e' he'
    by_cases hxv : x = va
    · obtain rfl : e = e' := Option.some.inj (hsome.symm.trans (hxv ▸ he'))
      exact ⟨h.takes.free.subset hfree, hnot⟩
    · obtain ⟨he, hfree', -⟩ := hold x hx hxv e' he'
      exact ⟨(h.pages x hx e' he).1, fun hf => hfree' (htakes.free.subset hf)⟩
  · intro x hx e' he' y hy
    by_cases hxv : x = va
    · subst hxv
      obtain rfl : e = e' := Option.some.inj (hsome.symm.trans he')
      have hcur := h.unloaded x hx hnone y hy
      have hadd : r.addr + (x - r.addr + y) = x + y := by omega
      rw [hbytes y hy, hadd, hcur]
      rfl
    · obtain ⟨he, hfree', -⟩ := hold x hx hxv e' he'
      rw [htakes.bytes _ hfree']
      exact h.contents.bytes x hx e' he y hy
  · intro x hx x' hx' e₁ e₂ h₁ h₂ hpage
    by_cases hxv : x = va
    · by_cases hxv' : x' = va
      · exact hxv.trans hxv'.symm
      · obtain rfl : e = e₁ := Option.some.inj (hsome.symm.trans (hxv ▸ h₁))
        exact absurd hpage.symm (hold x' hx' hxv' e₂ h₂).2.2
    · by_cases hxv' : x' = va
      · obtain rfl : e = e₂ := Option.some.inj (hsome.symm.trans (hxv' ▸ h₂))
        exact absurd hpage (hold x hx hxv e₁ h₁).2.2
      · exact h.contents.distinct x hx x' hx' e₁ e₂ (hold x hx hxv e₁ h₁).1 (hold x' hx' hxv' e₂ h₂).1 hpage
  · intro x hx hn
    have hxv : x ≠ va := by
      rintro rfl
      rw [hsome] at hn
      cases hn
    exact h.unloaded x hx (hothers x hx hxv ▸ hn)

/-- A byte is stored. -/
theorem Views.store (h : Views k p r size bytes cur t) (hr : r.Ok) {va : BitVec 32} {b : UInt8} (hlo : r.addr ≤ va.toNat)
    (hhi : va.toNat < r.stop) (hw : store t p va b = some t') :
    Views k p r size bytes (update cur va.toNat (some b)) t' := by
  have hlt := va.isLt
  have hend := hr.stop_eq
  obtain ⟨hal, -, -, hend'⟩ := hr
  obtain ⟨e, he, rfl⟩ := store_cases hw
  -- the page of the address
  have hpage : va.toNat / 4096 * 4096 ∈ pageRange r.addr r.stop :=
    (mem_pageRange_of_aligned hal).mpr (by omega)
  have hvpn : vpn va.toNat = vpn (va.toNat / 4096 * 4096) := vpn_eq_pgrounddown
  rw [PageDir.pte_congr hvpn] at he
  obtain ⟨hfree, hnot⟩ := h.pages _ hpage e he
  have hmod (x y : ℕ) (hx : x ∈ pageRange r.addr r.stop) (hy : y < 4096) (hxy : x + y = va.toNat) :
      x = va.toNat / 4096 * 4096 ∧ y = va.toNat % 4096 := by
    have := (mem_pageRange_of_aligned hal).mp hx
    omega
  refine ⟨⟨h.takes.free, ?_⟩, h.pages, ⟨?_, h.contents.distinct⟩, ?_⟩
  · intro x hx
    have hne : x ≠ e.page := fun hxe => hx (hxe ▸ hfree)
    exact (update_of_ne hne ..).trans (h.takes.bytes x hx)
  · intro x hx e' he' y hy
    have hx' := (mem_pageRange_of_aligned hal).mp hx
    have hadd : r.addr + (x - r.addr + y) = x + y := by omega
    have hold := h.contents.bytes x hx e' he' y hy
    rw [hadd] at hold ⊢
    by_cases hxv : x = va.toNat / 4096 * 4096
    · subst hxv
      obtain rfl : e = e' := Option.some.inj (he.symm.trans he')
      simp only [Mem.fill, update_self]
      by_cases hy' : y = va.toNat % 4096
      · have haddr : va.toNat / 4096 * 4096 + y = va.toNat := by omega
        rw [hy', update_self, ← hy', haddr, update_self]
        rfl
      · have haddr : va.toNat / 4096 * 4096 + y ≠ va.toNat := by omega
        rw [update_of_ne hy', update_of_ne haddr]
        exact hold
    · have hne : e'.page ≠ e.page := fun hp => hxv (h.contents.distinct x hx _ hpage e' e he' he hp)
      have haddr : x + y ≠ va.toNat := fun hxy => hxv (hmod x y hx hy hxy).1
      rw [update_of_ne haddr]
      simp only [Mem.fill, update_of_ne hne]
      exact hold
  · intro x hx hn y hy
    have haddr : x + y ≠ va.toNat := by
      intro hxy
      rw [(hmod x y hx hy hxy).1] at hn
      rw [hn] at he
      cases he
    rw [update_of_ne haddr]
    exact h.unloaded x hx hn y hy

theorem Views.fault (h : Views k p ((k.procs p).mm.mmaps m) size bytes cur t) (hin : Inside k p m t)
    (ht : Table (k.procs p).mm l) (hm : m ∈ l) (hfile : ((k.procs p).mm.mmaps m).MapsFile k.fs f i size bytes)
    (hn : k.mem.free.Nodup) {addr : BitVec 32} (hlo : ((k.procs p).mm.mmaps m).addr ≤ addr.toNat)
    (hhi : addr.toNat < ((k.procs p).mm.mmaps m).stop) (hw : handlePageFault t p addr = some (t', ret)) :
    Views k p ((k.procs p).mm.mmaps m) size bytes cur t' := by
  obtain ⟨hback, hf, hip, hregular, hshort⟩ := hfile
  have hr := ht.region m hm
  have hle := hr.stop_le_pageEnd
  have hend := hr.stop_eq
  have hlt := addr.isLt
  obtain ⟨hal, -, -, hend'⟩ := hr
  have hpage : pgrounddown addr.toNat ∈ pageRange ((k.procs p).mm.mmaps m).addr ((k.procs p).mm.mmaps m).stop := by
    refine (mem_pageRange_of_aligned hal).mpr ?_
    unfold pgrounddown
    omega
  have hva := (mem_pageRange_of_aligned hal).mp hpage
  cases hin.fault_cases ht hm hlo (by omega) hw with
  | failed => exact h
  | noTable hmap =>
    obtain ⟨mem, hk, rfl⟩ := mapNew_noTable hmap
    exact h.keep (by rw [Kernel.put_procs_self]) (giveBack_takes hk)
  | @mapped j s fs mem ok hj hlo' hhi' hmap hread =>
    obtain rfl := List.mem_singleton.mp hj
    obtain ⟨haddr, -, hflags, hf', -⟩ := hin.region j
    rw [hflags, hf', hf, haddr] at hread
    obtain ⟨htakes, hnone, page, hpte, hfree, hnot, hzero⟩ := mapNew_takes hmap (h.takes.nodup hn)
    -- the file is read into the page
    have hback : has ((k.procs p).mm.mmaps j).flags mapAnonymous = false := by
      simp only [Region.backs, Bool.and_eq_true, Bool.not_eq_true'] at hback
      exact hback.1.1
    rw [hback] at hread
    rcases hread with ⟨-, -, -, hcases⟩ | ⟨-, f', e, hff, hpe, hread⟩
    · simp at hcases
    obtain rfl := Option.some.inj hff
    obtain rfl := Option.some.inj (hpte.symm.trans hpe)
    have hoff : u32 ((pgrounddown addr.toNat : ℕ) - ((k.procs p).mm.mmaps j).addr) =
        pgrounddown addr.toNat - ((k.procs p).mm.mmaps j).addr := by
      unfold u32
      omega
    rw [hoff] at hread
    obtain ⟨hfree', hothers, -⟩ := readPage_spec hread
    obtain ⟨-, hbytes⟩ := readPage_regular hread (by rw [hin.files]; exact hip) (hin.inodes i size bytes hregular) (by omega)
      (by omega) (fun x => by rw [hzero])
    refine h.map hpage hva.1 hnone (by rw [Kernel.put_procs_self]; exact hpte) ?_ ⟨?_, ?_⟩ hfree ?_ hbytes
    · intro x hx hxv
      rw [Kernel.put_procs_self]
      have hx := (mem_pageRange_of_aligned hal).mp hx
      exact mapNew_pte_of_ne hmap (vpn_ne hx.2.2 hva.2.2 (by omega) (by omega) hxv)
    · rw [Kernel.put_mem, hfree']
      exact htakes.free
    · intro x hx
      have hne : x ≠ page := fun hxp => hx (hxp ▸ hfree)
      rw [Kernel.put_mem, hothers x hne]
      exact htakes.bytes x hx
    · rw [Kernel.put_mem, hfree']
      exact hnot

/-- Accesses to the region, one after the other. -/
theorem Views.run (h : Views k p ((k.procs p).mm.mmaps m) size bytes cur t) (hin : Inside k p m t)
    (ht : Table (k.procs p).mm l) (hm : m ∈ l) (hfile : ((k.procs p).mm.mmaps m).MapsFile k.fs f i size bytes)
    (hn : k.mem.free.Nodup)
    (hxs : ∀ x ∈ xs, ((k.procs p).mm.mmaps m).addr ≤ x.addr ∧ x.addr < ((k.procs p).mm.mmaps m).stop)
    (hrun : access t p xs = some t') :
    Inside k p m t' ∧ Views k p ((k.procs p).mm.mmaps m) size bytes (xs.foldl Access.note cur) t' := by
  induction xs generalizing t cur with
  | nil =>
    obtain rfl := Option.some.inj hrun
    exact ⟨hin, h⟩
  | cons x xs ih =>
    obtain ⟨t₁, hx, hrest⟩ := Option.bind_eq_some_iff.mp hrun
    obtain ⟨hlo, hhi⟩ := hxs x (by simp)
    have hle := (ht.region m hm).stop_le_pageEnd
    cases x with
    | fault addr =>
      obtain ⟨⟨t₂, ret⟩, hw, rfl⟩ := Option.map_eq_some_iff.mp hx
      exact ih (h.fault hin ht hm hfile hn hlo hhi hw) (hin.fault ht hm hlo (hhi.trans_le hle) hw)
        (fun y hy => hxs y (by simp [hy])) hrest
    | store va b =>
      exact ih (h.store (ht.region m hm) hlo hhi hx) (hin.store hx) (fun y hy => hxs y (by simp [hy])) hrest

end

end SdeSystems.Wmap
