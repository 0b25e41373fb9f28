import SdeSystems.Wmap.Pieces
import SdeSystems.Wmap.Persist

/-!
# Where the pages of a mapping are in its file

A region has no field for an offset: the page at `va` is read from and written to the file at `va`
minus the start of the region. `wpunmap` moves that start where it takes the front of a region away,
and the second part of a split begins behind the range. So after some calls of `wpunmap` the pages of
what is left of a mapping are at their places in the file **exactly where nothing in front of it
was taken away**, and all other parts are read and written at offsets that are too small.
-/

namespace SdeSystems.Wmap

open Lib Function

/-! ### Places in the file -/

/-- The pages at the given addresses, those that are there, are written to the file and dropped: the page at `va` is
written at the offset `va - base`. -/
inductive WritesAt (f base : ℕ) (free : Bool) : List ℕ → Drop → Drop → Prop
  /-- No page is left. -/
  | nil {s : Drop} : WritesAt f base free [] s s
  /-- A page that is not there. -/
  | absent {va : ℕ} {vas : List ℕ} {s s' : Drop} (h : s.space.pgdir.pte va = none)
    (hrest : WritesAt f base free vas s s') : WritesAt f base free (va :: vas) s s'
  /-- A page is written and dropped. -/
  | present {va : ℕ} {vas : List ℕ} {s s' : Drop} {e : Pte} {fs : Fs} {n : ℤ} (h : s.space.pgdir.pte va = some e)
    (hw : writeToFile s.fs f (s.space.mem.bytes e.page) (va - base) 4096 = some (fs, n))
    (hrest : WritesAt f base free vas
      ⟨⟨if free then kfree s.space.mem e.page else s.space.mem, s.space.pgdir.setPte va none⟩, fs, s.dropped + 1⟩ s') :
    WritesAt f base free (va :: vas) s s'

/-- The pages of the region `i` of the list `l` are at their places in the file, `base` being the address of the
beginning of the file, in whatever state a process with this table is. -/
structure FileFrom (mm : Mmaps) (l : List (Fin 16)) (i : Fin 16) (f ip base : ℕ) : Prop where
  /-- A page fault at `va` fills the page with the bytes of the file from `va - base` on, and with 0 behind its end. -/
  fault : ∀ (k k' : Kernel) (q : Fin 64) (addr : BitVec 32) (ret : ℤ) (size : ℕ) (bytes : ℕ → UInt8) (e : Pte),
    (k.procs q).mm = mm → (k.fs.files f).ip = some ip → k.fs.inodes ip = .regular size bytes → size ≤ maxFileSize →
    (mm.mmaps i).addr ≤ addr.toNat → addr.toNat < (mm.mmaps i).stop →
    (k.procs q).pgdir.pte (pgrounddown addr.toNat) = none → handlePageFault k q addr = some (k', ret) →
    (k'.procs q).pgdir.pte (pgrounddown addr.toNat) = some e →
    ∀ x < 4096, k'.mem.bytes e.page x = padded size bytes (pgrounddown addr.toNat - base + x)
  /-- So does the write-back by `wpunmap`, if the mapping is shared. -/
  wpunmap : has (mm.mmaps i).flags mapShared = true → ∀ (k k' : Kernel) (q : Fin 64) (addr length : BitVec 32),
    (k.procs q).mm = mm → (mm.mmaps i).addr ≤ addr.toNat →
    addr.toNat + length.toInt ≤ (mm.mmaps i).addr + (mm.mmaps i).length → sysWpunmap k q addr length = some (k', 0) →
    ∃ s, WritesAt f base true (pageRange addr.toNat (addr.toNat + length.toInt).toNat)
      ⟨⟨k.mem, (k.procs q).pgdir⟩, k.fs, 0⟩ s ∧ k'.fs.inodes = s.fs.inodes
  /-- And by the `wunmap` that takes the region out of the table. -/
  wunmap : has (mm.mmaps i).flags mapShared = true → ∀ (k k' : Kernel) (q : Fin 64) (addr : BitVec 32),
    (k.procs q).mm = mm → sysWunmap k q addr = some (k', 0) → ((k'.procs q).mm.mmaps i).addr = 2 ^ 32 - 1 →
    ∃ s, WritesAt f base (decide ((mm.mmaps i).refcnt = 0)) (pageRange (mm.mmaps i).addr (mm.mmaps i).stop)
      ⟨⟨k.mem, (k.procs q).pgdir⟩, k.fs, 0⟩ s ∧ k'.fs.inodes = s.fs.inodes
  /-- And by the turn of the loop of `exit` for the region, if it writes back. -/
  exit : has (mm.mmaps i).flags mapShared = true → (mm.mmaps i).refcnt = 0 → ∀ (k k' : Kernel) (q : Fin 64),
    (k.procs q).mm = mm → exit k q = some k' → ∃ l₁ l₂ s s' d, l = l₁ ++ i :: l₂ ∧
      forEach (fun j s => (deleteRegion j s).map fun s => (s, true)) l₁ (deletion k q) = some (s, true) ∧
      deleteRegion i s = some s' ∧
      WritesAt f base true (pageRange (mm.mmaps i).addr (mm.mmaps i).stop) ⟨s.space, s.fs, 0⟩ d ∧
      s'.fs.inodes = d.fs.inodes

section

variable {m m' : Mem} {fs fs' : Fs} {s s' : Space} {d d' : Drop} {r : Region} {f page off ip size va : ℕ}
  {bytes : ℕ → UInt8} {ok free : Bool} {vas : List ℕ}

/-- The read of a page of a regular file, also behind its end. -/
theorem readPage_padded (h : readPage m fs f page off = some (m', fs', ok)) (hip : (fs.files f).ip = some ip)
    (hregular : fs.inodes ip = .regular size bytes) (hlt : off + 4096 < 2 ^ 32) (hzero : ∀ x, m.bytes page x = 0) :
    ∀ x < 4096, m'.bytes page x = padded size bytes (off + x) := by
  by_cases hoff : off ≤ size
  · exact (readPage_regular h hip hregular hoff hlt hzero).2
  · unfold readPage readi at h
    simp only [hip, hregular] at h
    rw [if_pos (by omega)] at h
    obtain ⟨rfl, -⟩ := Prod.mk.inj (Option.some.inj h)
    intro x _
    unfold padded
    rw [hzero, if_neg (by omega)]

/-- A new page that is cleared is clear, also if its page table comes from a page of the same number. -/
theorem mapNew_clear {w u : Bool} {e : Pte} (h : mapNew s va (fun _ => 0) w u = some (s', .ok))
    (he : s'.pgdir.pte va = some e) : ∀ x, s'.mem.bytes e.page x = 0 := by
  obtain ⟨page, mem, -, hm⟩ := mapNew_ok h
  obtain ⟨hf, -⟩ | ⟨-, s₁, hs₁, -, ht, rfl⟩ := mappages_cases hm
  · cases hf
  · rw [PageDir.pte_setPte_self ht] at he
    obtain rfl := Option.some.inj he
    intro x
    unfold needTable at hs₁
    split at hs₁
    · obtain rfl := Option.some.inj hs₁
      simp [Mem.fill]
    · obtain ⟨⟨page', mem'⟩, hk, rfl⟩ := Option.map_eq_some_iff.mp hs₁
      unfold kalloc at hk
      split at hk
      · cases hk
      · rename_i page' _ _
        obtain ⟨rfl, rfl⟩ := Prod.mk.inj (Option.some.inj hk)
        simp only [Mem.fill]
        rcases eq_or_ne page page' with rfl | hp
        · rw [update_self]
        · rw [update_of_ne hp, update_self]

/-- The loops that unmap pages write at the distance from the start of the region. -/
theorem writesAt_of_forEach (h : forEach (dropPage true free r) vas d = some (d', true)) (hf : r.f = some f)
    (hvas : ∀ va ∈ vas, r.addr ≤ va ∧ va < 2 ^ 32) : WritesAt f r.addr free vas d d' := by
  induction vas generalizing d with
  | nil =>
    obtain rfl : d = d' := by simpa [forEach] using h
    exact .nil
  | cons va vas ih =>
    have hrest : ∀ va ∈ vas, r.addr ≤ va ∧ va < 2 ^ 32 := fun x hx => hvas x (by simp [hx])
    obtain ⟨hlo, hlt⟩ := hvas va (by simp)
    simp only [forEach] at h
    split at h
    · cases h
    · rename_i d₁ hb
      unfold dropPage at hb
      split at hb
      · rename_i hnone
        obtain ⟨rfl, -⟩ := Prod.mk.inj (Option.some.inj hb)
        exact .absent hnone (ih h hrest)
      · rename_i e he
        simp only [if_true, writeBack, hf] at hb
        split at hb
        · cases hb
        · rename_i fs hfs
          obtain ⟨rfl, -⟩ := Prod.mk.inj (Option.some.inj hb)
          obtain ⟨⟨fs₁, n⟩, hw, rfl⟩ := Option.map_eq_some_iff.mp hfs
          have hoff : u32 ((va : ℤ) - r.addr) = va - r.addr := by
            unfold u32
            omega
          rw [hoff] at hw
          exact .present he hw (ih h hrest)
    · cases h

theorem writesAt_of_dropPages {start stop : ℕ} (h : dropPages true free r start stop d = some d') (hf : r.f = some f)
    (hlo : r.addr ≤ start) (hhi : stop ≤ 2 ^ 32) : WritesAt f r.addr free (pageRange start stop) d d' := by
  apply writesAt_of_forEach (dropPages_some h) hf
  intro va hva
  obtain ⟨n, rfl, hlt⟩ := mem_pageRange.mp hva
  omega

end

/-! ### Regions that begin where their file does -/

section

variable {mm : Mmaps} {l : List (Fin 16)} {i : Fin 16} {f ip base : ℕ}

theorem shrink_inodes {mm' : Mmaps} {pd : PageDir} {fs fs' : Fs} {a : ℕ} {n : ℤ}
    (h : shrink mm pd fs i a n = some (some (mm', fs'))) : fs'.inodes = fs.inodes := by
  unfold shrink at h
  dsimp only at h
  split at h
  · obtain ⟨-, rfl⟩ := Prod.mk.inj (Option.some.inj (Option.some.inj h))
    rfl
  split at h
  · obtain ⟨-, rfl⟩ := Prod.mk.inj (Option.some.inj (Option.some.inj h))
    rfl
  split at h
  · cases h
  split at h
  · rename_i hdup _ _
    obtain ⟨-, rfl⟩ := Prod.mk.inj (Option.some.inj (Option.some.inj h))
    exact dupIf_inodes hdup
  · cases h

/-- A region that is shared and has a file is written back. -/
theorem Region.backs_of_shared {r : Region} (hf : r.f = some f) (hfile : has r.flags mapAnonymous = false)
    (hsh : has r.flags mapShared = true) : r.backs = true := by
  simp [Region.backs, hfile, hsh, hf]

section

variable {k k' : Kernel} {q : Fin 64}

/-- A page fault reads what is as far behind the beginning of the file as the page is behind the start of the region. -/
theorem fault_from_start (ht : Table (k.procs q).mm l) (hi : i ∈ l) (hf : ((k.procs q).mm.mmaps i).f = some f)
    (hfile : has ((k.procs q).mm.mmaps i).flags mapAnonymous = false) {addr : BitVec 32} {ret : ℤ} {size : ℕ}
    {bytes : ℕ → UInt8} {e : Pte} (hip : (k.fs.files f).ip = some ip) (hregular : k.fs.inodes ip = .regular size bytes)
    (hlo : ((k.procs q).mm.mmaps i).addr ≤ addr.toNat) (hlt : addr.toNat < ((k.procs q).mm.mmaps i).stop)
    (hnone : (k.procs q).pgdir.pte (pgrounddown addr.toNat) = none)
    (hw : handlePageFault k q addr = some (k', ret)) (he : (k'.procs q).pgdir.pte (pgrounddown addr.toNat) = some e) :
    ∀ x < 4096, k'.mem.bytes e.page x =
      padded size bytes (pgrounddown addr.toNat - ((k.procs q).mm.mmaps i).addr + x) := by
  have hr := ht.region i hi
  have hend := hr.stop_eq
  have hal := hr.aligned
  have hhi := hr.hi
  have hpage : pgrounddown addr.toNat ≤ addr.toNat ∧ addr.toNat < pgrounddown addr.toNat + 4096 ∧
      pgrounddown addr.toNat % 4096 = 0 := by
    unfold pgrounddown
    omega
  cases handlePageFault_cases ht.toListed hw with
  | failed =>
    rw [hnone] at he
    cases he
  | noTable hmap =>
    obtain ⟨mem, -, rfl⟩ := mapNew_noTable hmap
    rw [Kernel.put_procs_self] at he
    have he' : (k.procs q).pgdir.pte (pgrounddown addr.toNat) = some e := he
    rw [hnone] at he'
    cases he'
  | @mapped j s fs mem ok hj hlo' hhi' hmap hread =>
    rw [Kernel.put_procs_self] at he
    obtain rfl : j = i := ht.same hi hj (by omega) (by omega) hlo' hhi'
    rw [hfile, hf] at hread
    rcases hread with ⟨-, -, -, hcases⟩ | ⟨-, f', e', hf', he', hread⟩
    · simp at hcases
    obtain rfl := Option.some.inj hf'
    obtain rfl := Option.some.inj (he.symm.trans he')
    have hoff : u32 ((pgrounddown addr.toNat : ℕ) - ((k.procs q).mm.mmaps j).addr) =
        pgrounddown addr.toNat - ((k.procs q).mm.mmaps j).addr := by
      unfold u32
      omega
    rw [hoff] at hread
    exact readPage_padded hread hip hregular (by omega) (mapNew_clear hmap he)

/-- `wpunmap` writes each page to the place where a page fault reads it. -/
theorem wpunmap_from_start (ht : Table (k.procs q).mm l) (hi : i ∈ l) (hf : ((k.procs q).mm.mmaps i).f = some f)
    (hback : ((k.procs q).mm.mmaps i).backs = true) {addr length : BitVec 32}
    (hlo : ((k.procs q).mm.mmaps i).addr ≤ addr.toNat)
    (hhi : addr.toNat + length.toInt ≤ ((k.procs q).mm.mmaps i).addr + ((k.procs q).mm.mmaps i).length)
    (hw : sysWpunmap k q addr length = some (k', 0)) :
    ∃ s, WritesAt f ((k.procs q).mm.mmaps i).addr true (pageRange addr.toNat (addr.toNat + length.toInt).toNat)
      ⟨⟨k.mem, (k.procs q).pgdir⟩, k.fs, 0⟩ s ∧ k'.fs.inodes = s.fs.inodes := by
  have hr := ht.region i hi
  have hend := hr.stop_eq
  have hkern := hr.hi
  generalize hret : (0 : ℤ) = ret at hw
  cases sysWpunmap_cases ht.toListed hw with
  | failed => cases hret
  | @dropped l₁ j l₂ s out hl hlen hal' hstop hlo' hhi' hdrop hshrink =>
    cases out with
    | none => cases hret
    | some out =>
      obtain ⟨mm', fs'⟩ := out
      have hj : j ∈ l := by simp [hl]
      have hu : u32 (addr.toNat + length.toInt) = (addr.toNat + length.toInt).toNat := by
        unfold u32
        omega
      obtain rfl : j = i := ht.same hi hj hlo (by omega) hlo' (by omega)
      rw [hback, hu] at hdrop
      exact ⟨s, writesAt_of_dropPages hdrop hf hlo (by omega), shrink_inodes hshrink⟩

/-- So does `wunmap`. -/
theorem wunmap_from_start (ht : Table (k.procs q).mm l) (hi : i ∈ l) (hf : ((k.procs q).mm.mmaps i).f = some f)
    (hback : ((k.procs q).mm.mmaps i).backs = true) {addr : BitVec 32} (hw : sysWunmap k q addr = some (k', 0))
    (hgone : ((k'.procs q).mm.mmaps i).addr = 2 ^ 32 - 1) :
    ∃ s, WritesAt f ((k.procs q).mm.mmaps i).addr (decide (((k.procs q).mm.mmaps i).refcnt = 0))
      (pageRange ((k.procs q).mm.mmaps i).addr ((k.procs q).mm.mmaps i).stop)
      ⟨⟨k.mem, (k.procs q).pgdir⟩, k.fs, 0⟩ s ∧ k'.fs.inodes = s.fs.inodes := by
  have hr := ht.region i hi
  have hend := hr.stop_eq
  have hkern := hr.hi
  generalize hret : (0 : ℤ) = ret at hw
  cases sysWunmap_cases ht.toListed hw with
  | failed => cases hret
  | @removed l₁ j l₂ s fs hl haddr hdrop hfs =>
    rw [Kernel.put_procs_self] at hgone
    obtain rfl : i = j := by
      by_contra hij
      refine (ht.used i).mp hi ?_
      simpa [hij] using hgone
    rw [hback, ← haddr] at hdrop
    exact ⟨s, writesAt_of_dropPages hdrop hf le_rfl (by omega), (closeLast_spec hfs).1⟩

/-- So does the turn of the loop of `exit` for the region. -/
theorem exit_from_start (ht : Table (k.procs q).mm l) (hi : i ∈ l) (hf : ((k.procs q).mm.mmaps i).f = some f)
    (hback : ((k.procs q).mm.mmaps i).backs = true) (href : ((k.procs q).mm.mmaps i).refcnt = 0)
    (hw : exit k q = some k') : ∃ l₁ l₂ s s' d, l = l₁ ++ i :: l₂ ∧
      forEach (fun j s => (deleteRegion j s).map fun s => (s, true)) l₁ (deletion k q) = some (s, true) ∧
      deleteRegion i s = some s' ∧
      WritesAt f ((k.procs q).mm.mmaps i).addr true (pageRange ((k.procs q).mm.mmaps i).addr ((k.procs q).mm.mmaps i).stop)
        ⟨s.space, s.fs, 0⟩ d ∧ s'.fs.inodes = d.fs.inodes := by
  have hr := ht.region i hi
  have hend := hr.stop_eq
  have hkern := hr.hi
  obtain ⟨-, s₂, hdel, -⟩ := exit_cases hw
  have hlisted : Listed (deletion k q).mm l := ht.toListed
  obtain ⟨s₁, hloop, -⟩ := deleteMmaps_some hlisted hdel
  obtain ⟨l₁, l₂, rfl⟩ := List.append_of_mem hi
  obtain ⟨s, hbefore, hrest⟩ := forEach_split hloop
  -- the loop has not come to the region yet
  have hsame : s.mm.mmaps i = (k.procs q).mm.mmaps i := by
    refine forEach_keeps (I := fun t => t.mm.mmaps i = (k.procs q).mm.mmaps i) ?_ hbefore rfl
    intro j hj t t' ok hsame hb
    obtain ⟨t₁, hd, hk⟩ := Option.map_eq_some_iff.mp hb
    obtain ⟨rfl, -⟩ := Prod.mk.inj hk
    obtain ⟨d, fs, parent, -, -, rfl, -⟩ := deleteRegion_cases hd
    have hne : i ≠ j := fun hij => (List.nodup_cons.mp (List.nodup_middle.mp ht.nodup)).1 (by simp [hij, hj])
    exact (update_of_ne hne ..).trans hsame
  simp only [forEach] at hrest
  cases hd : deleteRegion i s with
  | none => simp [hd] at hrest
  | some s' =>
    obtain ⟨d, fs, parent, hdrop, hfs, rfl, -⟩ := deleteRegion_cases hd
    rw [hsame, hback, href] at hdrop
    exact ⟨l₁, l₂, s, _, d, rfl, hbefore, hd, writesAt_of_dropPages hdrop hf le_rfl (by omega), (closeLast_spec hfs).1⟩

end

/-- The pages of a region are at their places if the file begins where the region does. -/
theorem fileFrom_start (ht : Table mm l) (hi : i ∈ l) (hf : (mm.mmaps i).f = some f)
    (hfile : has (mm.mmaps i).flags mapAnonymous = false) : FileFrom mm l i f ip (mm.mmaps i).addr where
  fault k k' q addr ret size bytes e hq hip hregular _ hlo hlt hnone hw he := by
    subst hq
    exact fault_from_start ht hi hf hfile hip hregular hlo hlt hnone hw he
  wpunmap hsh k k' q addr length hq hlo hhi hw := by
    subst hq
    exact wpunmap_from_start ht hi hf (Region.backs_of_shared hf hfile hsh) hlo hhi hw
  wunmap hsh k k' q addr hq hw hgone := by
    subst hq
    exact wunmap_from_start ht hi hf (Region.backs_of_shared hf hfile hsh) hw hgone
  exit hsh href k k' q hq hw := by
    subst hq
    exact exit_from_start ht hi hf (Region.backs_of_shared hf hfile hsh) href hw

/-- A fault in a region of a regular file has a page mapped if there is one, and one for the page table. -/
theorem fault_maps {k : Kernel} {p : Fin 64} {addr : BitVec 32} {s : Space} {size : ℕ} {bytes : ℕ → UInt8}
    (ht : Table (k.procs p).mm l) (hi : i ∈ l) (hlo : ((k.procs p).mm.mmaps i).addr ≤ pgrounddown addr.toNat)
    (hhi : pgrounddown addr.toNat < ((k.procs p).mm.mmaps i).stop) (hf : ((k.procs p).mm.mmaps i).f = some f)
    (hfile : has ((k.procs p).mm.mmaps i).flags mapAnonymous = false) (hip : (k.fs.files f).ip = some ip)
    (hregular : k.fs.inodes ip = .regular size bytes)
    (hmap : mapNew ⟨k.mem, (k.procs p).pgdir⟩ (pgrounddown addr.toNat) (fun _ => 0) true true = some (s, .ok)) :
    ∃ k' ret, handlePageFault k p addr = some (k', ret) ∧ (k'.procs p).pgdir = s.pgdir := by
  rcases ht.toListed.find (fun r => decide (r.addr ≤ pgrounddown addr.toNat ∧ pgrounddown addr.toNat < r.stop)) with
    ⟨-, hnone⟩ | ⟨l₁, j, l₂, hl, -, hj, hfind⟩
  · have := hnone i hi
    rw [decide_eq_false_iff_not] at this
    exact absurd ⟨hlo, hhi⟩ this
  · rw [decide_eq_true_eq] at hj
    obtain rfl : j = i := ht.same hi (by simp [hl]) hlo hhi hj.1 hj.2
    obtain ⟨-, page, hpte⟩ := mapNew_pte_self hmap
    obtain ⟨⟨mem, fs, ok⟩, hread⟩ : ∃ out, readPage s.mem k.fs f page
        (u32 ((pgrounddown addr.toNat : ℕ) - ((k.procs p).mm.mmaps j).addr)) = some out := by
      simp only [readPage, hip, hregular, readi]
      split
      · rename_i hno
        split at hno <;> cases hno
      · exact ⟨_, rfl⟩
      · exact ⟨_, rfl⟩
    unfold handlePageFault
    simp only [hfind, hmap, hfile, hf, hpte, hread]
    exact ⟨_, _, rfl, by simp [Kernel.setProc]⟩

/-- If the pages of a region are at their places, the file begins where the region does. -/
theorem FileFrom.start_eq {k : Kernel} {p : Fin 64} (h : FileFrom (k.procs p).mm l i f ip base)
    (ht : Table (k.procs p).mm l) (hi : i ∈ l) (hf : ((k.procs p).mm.mmaps i).f = some f)
    (hfile : has ((k.procs p).mm.mmaps i).flags mapAnonymous = false) (hle : base ≤ ((k.procs p).mm.mmaps i).addr)
    (hpos : ((k.procs p).mm.mmaps i).addr < ((k.procs p).mm.mmaps i).stop) :
    ((k.procs p).mm.mmaps i).addr = base := by
  have hr := ht.region i hi
  have hal := hr.aligned
  have hend := hr.stop_eq
  have hhi := hr.hi
  by_contra hne
  -- a fault at the beginning of the region, in a state in which the file has one byte
  let k₂ : Kernel := { k with
    procs := update k.procs p { k.procs p with pgdir := ⟨2, fun _ => none⟩ }
    mem := ⟨[0, 1], fun _ _ => 0, false⟩
    fs := ⟨fun _ => ⟨1, some ip⟩, fun _ => .regular 1 fun _ => 1⟩ }
  have hproc : k₂.procs p = { k.procs p with pgdir := ⟨2, fun _ => none⟩ } := update_self ..
  have hmm : (k₂.procs p).mm = (k.procs p).mm := by rw [hproc]
  have hpgdir : (k₂.procs p).pgdir = ⟨2, fun _ => none⟩ := by rw [hproc]
  obtain ⟨addr, haddr⟩ : ∃ addr : BitVec 32, addr.toNat = ((k.procs p).mm.mmaps i).addr :=
    ⟨BitVec.ofNat 32 ((k.procs p).mm.mmaps i).addr, by simp; omega⟩
  have hpage : pgrounddown addr.toNat = ((k.procs p).mm.mmaps i).addr := by
    unfold pgrounddown
    omega
  have hnone : (k₂.procs p).pgdir.pte (pgrounddown addr.toNat) = none := by rw [hpgdir]; rfl
  obtain ⟨s, hmap⟩ : ∃ s, mapNew ⟨k₂.mem, (k₂.procs p).pgdir⟩ (pgrounddown addr.toNat) (fun _ => 0) true true =
      some (s, .ok) := by
    rw [hpgdir]
    simp [mapNew, mappages, needTable, kalloc, Mem.fill, PageDir.pte, k₂]
  obtain ⟨k', ret, hw, hpd⟩ := fault_maps (show Table (k₂.procs p).mm l from hmm ▸ ht) hi (by rw [hmm]; omega) (by rw [hmm]; omega) (hmm ▸ hf)
    (hmm ▸ hfile) (show (k₂.fs.files f).ip = some ip from rfl) (show k₂.fs.inodes ip = .regular 1 fun _ => 1 from rfl) hmap
  obtain ⟨-, page, hpte⟩ := mapNew_pte_self hmap
  rw [← hpd] at hpte
  have hwrong := h.fault k₂ k' p addr ret 1 (fun _ => 1) _ hmm rfl rfl (by decide) (by omega) (by omega) hnone hw hpte 0
    (by decide)
  have hplaces : FileFrom (k.procs p).mm l i f ip ((k.procs p).mm.mmaps i).addr := fileFrom_start ht hi hf hfile
  have hright := hplaces.fault k₂ k' p addr ret 1 (fun _ => 1) _ hmm rfl rfl
    (by decide) (by omega) (by omega) hnone hw hpte 0 (by decide)
  rw [hright] at hwrong
  unfold padded at hwrong
  rw [if_pos (by omega), if_neg (by omega)] at hwrong
  cases hwrong

/-- **The places of the pages in the file after calls of `wpunmap`.** A mapping of a file is made at `base`, and its
process calls `wpunmap` again and again, among other operations of its own and of other processes. Then the pages
of what is left around an address that has not been unmapped are read from the file, and written to it, at their
distance from `base` exactly if no range of the mapping in front of the address has been unmapped. -/
theorem file_offsets_iff (ip : ℕ) {k₀ k k₁ : Kernel} {p : Fin 64} {addr length flags fd : BitVec 32}
    {cuts : List (BitVec 32 × BitVec 32)} {va : ℕ} (ht : Tables false k₀) (hp : (k₀.procs p).state = .runnable)
    (hmap : sysWmap k₀ p addr length flags fd = some (k, (base : ℤ))) (hfd : argfd (k₀.procs p) fd.toInt = some f)
    (hfile : has flags mapAnonymous = false) (hcuts : Cuts p k cuts k₁) (hlo : base ≤ va) (hhi : va < base + length.toInt)
    (hrem : ∀ c ∈ cuts, ¬ (c.1.toNat ≤ va ∧ va < c.1.toNat + c.2.toInt)) :
    ∃ l i, Table (k₁.procs p).mm l ∧ i ∈ l ∧
      ((k₁.procs p).mm.mmaps i).addr ≤ va ∧ va < ((k₁.procs p).mm.mmaps i).stop ∧
      (FileFrom (k₁.procs p).mm l i f ip base ↔ ∀ c ∈ cuts, ¬ (base ≤ c.1.toNat ∧ c.1.toNat + c.2.toInt ≤ va)) := by
  obtain ⟨l₀, htp, -⟩ := ht p (by simp [hp])
  obtain ⟨fs, mm, m, a, -, -, -, -, ⟨-, -, hend⟩, hbase, hk⟩ := sysWmap_success htp hmap (by omega)
  obtain rfl : base = a := by exact_mod_cast hbase
  have ht₁ := ht.wmap hp hmap
  -- the new region is all of the mapping
  have hpiece : Piece (k.procs p) flags f va base m := by
    have hnew : ((k.procs p).mm.mmaps m) = newRegion (k₀.procs p) base length flags fd := by
      rw [hk, Kernel.put_procs_self]
      exact update_self ..
    refine ⟨?_, ?_, ?_, ?_, hlo, ?_⟩
    · rw [hk, Kernel.put_procs_self]
      exact hp
    · rw [hnew]
      rfl
    · rw [hnew]
      rfl
    · rw [hnew]
      exact hfd
    · rw [hnew]
      unfold Region.stop u32 newRegion
      dsimp only
      omega
  obtain ⟨ht₂, i, start, hpc, hle, hiff⟩ := hcuts.piece ht₁ hpiece (by omega) hrem
  obtain ⟨l, htl, -⟩ := ht₂ p (by simp [hpc.state])
  have hi := hpc.mem htl (by omega)
  have hfile' : has ((k₁.procs p).mm.mmaps i).flags mapAnonymous = false := by rwa [hpc.flags]
  have haddr := hpc.addr
  have hstart := hpc.lo
  have hstop := hpc.hi
  refine ⟨l, i, htl, hi, by omega, hstop, ?_⟩
  rw [← hiff, ← haddr]
  constructor
  · intro h
    exact h.start_eq htl hi hpc.file hfile' (by omega) (by omega)
  · rintro rfl
    exact fileFrom_start htl hi hpc.file hfile'

end

/-! ### Three pages of a file -/

/-- `bootOpen n` with a file of three pages, each of which has its number in all of its bytes. -/
def bootPages (n : ℕ) : Kernel :=
  { bootOpen n with fs := { (bootOpen n).fs with inodes := fun _ => .regular 0x3000 fun o => UInt8.ofNat (o / 4096 + 1) } }

theorem bootPages_tables (n : ℕ) : Tables false (bootPages n) := by
  intro q _
  have hmm : ((bootPages n).procs q).mm = initMmaps := by
    by_cases hq : q = initproc
    · subst hq
      rfl
    · simp [bootPages, bootOpen, Kernel.setProc, hq, boot]
  rw [hmm]
  exact good_init false

/-- The last page is unmapped, and the others are where they were. -/
theorem file_offsets_back : ∃ k k₁ l i, sysWmap (bootPages 8) 0 0 0x3000 2 3 = some (k, 0x60000000) ∧
    sysWpunmap k 0 0x60002000 0x1000 = some (k₁, 0) ∧ i ∈ l ∧ ((k₁.procs 0).mm.mmaps i).addr ≤ 0x60001000 ∧
    0x60001000 < ((k₁.procs 0).mm.mmaps i).stop ∧ FileFrom (k₁.procs 0).mm l i 0 0 0x60000000 := by
  have hrun : ((sysWmap (bootPages 8) 0 0 0x3000 2 3).bind fun a =>
      (sysWpunmap a.1 0 0x60002000 0x1000).map fun b => decide (a.2 = 0x60000000 ∧ b.2 = 0)) = some true := by
    decide +kernel
  obtain ⟨⟨k, r⟩, hmap, hrest⟩ := Option.bind_eq_some_iff.mp hrun
  obtain ⟨⟨k₁, r'⟩, hw, hout⟩ := Option.map_eq_some_iff.mp hrest
  obtain ⟨rfl, rfl⟩ := of_decide_eq_true hout
  have hcuts : Cuts 0 k [(0x60002000, 0x1000)] k₁ := .cut .refl (by unfold NoWrap; decide) hw
  obtain ⟨l, i, -, hi, hlo, hhi, hiff⟩ := file_offsets_iff 0 (bootPages_tables 8) rfl
    (show _ = some (k, ((0x60000000 : ℕ) : ℤ)) from hmap) rfl (by decide) hcuts
    (show 0x60000000 ≤ 0x60001000 by decide) (by decide) (by simp)
  exact ⟨k, k₁, l, i, hmap, hw, hi, hlo, hhi, hiff.mpr (by simp)⟩

/-- The first page is unmapped. A fault in the second one then fills it with the first page of the file, and what is
stored there is written to the first page of the file. -/
theorem wpunmap_moves_file : ∃ k k₁ k₂ k₃ k₄ e size' bytes',
    sysWmap (bootPages 8) 0 0 0x3000 2 3 = some (k, 0x60000000) ∧ sysWpunmap k 0 0x60000000 0x1000 = some (k₁, 0) ∧
    handlePageFault k₁ 0 0x60001000 = some (k₂, 0) ∧ (k₂.procs 0).pgdir.pte 0x60001000 = some e ∧
    k₂.mem.bytes e.page 0 = 1 ∧ padded 0x3000 (fun o => UInt8.ofNat (o / 4096 + 1)) 0x1000 = 2 ∧
    store k₂ 0 0x60001000 7 = some k₃ ∧ sysWunmap k₃ 0 0x60001000 = some (k₄, 0) ∧
    k₄.fs.inodes 0 = .regular size' bytes' ∧ bytes' 0x1000 = 2 ∧ bytes' 0 = 7 := by
  have hrun : ((sysWmap (bootPages 8) 0 0 0x3000 2 3).bind fun a => (sysWpunmap a.1 0 0x60000000 0x1000).bind fun b =>
      (handlePageFault b.1 0 0x60001000).bind fun c => (store c.1 0 0x60001000 7).bind fun k₃ =>
      (sysWunmap k₃ 0 0x60001000).map fun d => decide (a.2 = 0x60000000 ∧ b.2 = 0 ∧ c.2 = 0 ∧ d.2 = 0 ∧
        ((c.1.procs 0).pgdir.pte 0x60001000).map (fun e => c.1.mem.bytes e.page 0) = some 1 ∧
        (d.1.fs.inodes 0).contents.map (fun x => (x.2 0x1000, x.2 0)) = some (2, 7))) = some true := by
    decide +kernel
  obtain ⟨⟨k, r₀⟩, hmap, hrest⟩ := Option.bind_eq_some_iff.mp hrun
  obtain ⟨⟨k₁, r₁⟩, hcut, hrest⟩ := Option.bind_eq_some_iff.mp hrest
  obtain ⟨⟨k₂, r₂⟩, hfault, hrest⟩ := Option.bind_eq_some_iff.mp hrest
  obtain ⟨k₃, hstore, hrest⟩ := Option.bind_eq_some_iff.mp hrest
  obtain ⟨⟨k₄, r₄⟩, hw, hout⟩ := Option.map_eq_some_iff.mp hrest
  obtain ⟨rfl, rfl, rfl, rfl, hbyte, hbytes⟩ := of_decide_eq_true hout
  obtain ⟨e, he, hone⟩ := Option.map_eq_some_iff.mp hbyte
  cases hino : k₄.fs.inodes 0 with
  | device reads writes => simp [hino, Inode.contents] at hbytes
  | regular size' bytes' =>
    simp only [hino, Inode.contents, Option.map_some, Option.some.injEq, Prod.mk.injEq] at hbytes
    exact ⟨k, k₁, k₂, k₃, k₄, e, size', bytes', hmap, hcut, hfault, he, hone, by decide, hstore, hw, hino, hbytes.1, hbytes.2⟩

end SdeSystems.Wmap
