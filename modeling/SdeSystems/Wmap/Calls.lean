import SdeSystems.Wmap.Edits
import SdeSystems.Wmap.PageLoops
import SdeSystems.Wmap.Process

/-!
# What the system calls can do

For each of the system calls of a process and for its page faults, everything it can do to a
process whose table is in order: what becomes of the table, and which loop has run over the page
table. The invariants are derived from these cases and not from the code.
-/

namespace SdeSystems.Wmap

open Lib Function

/-- The process `p`, memory and files are replaced. -/
def Kernel.put (k : Kernel) (p : Fin 64) (pr : Proc) (mem : Mem) (fs : Fs) : Kernel :=
  { k.setProc p pr with mem := mem, fs := fs }

variable {k k' : Kernel} {p q : Fin 64} {l : List (Fin 16)} {pr : Proc} {mem : Mem} {fs : Fs} {ret : ℤ}

@[simp] theorem Kernel.put_procs_self : (k.put p pr mem fs).procs p = pr := by
  simp [Kernel.put, Kernel.setProc]

@[simp] theorem Kernel.put_procs_of_ne (h : q ≠ p) : (k.put p pr mem fs).procs q = k.procs q := by
  simp [Kernel.put, Kernel.setProc, h]

@[simp] theorem Kernel.put_mem : (k.put p pr mem fs).mem = mem := rfl

@[simp] theorem Kernel.put_kpages : (k.put p pr mem fs).kpages = k.kpages := rfl

theorem Kernel.put_self : k.put p (k.procs p) k.mem fs = { k with fs := fs } := by
  simp [Kernel.put, Kernel.setProc]

/-! ### References to files -/

section

variable {fs fs' : Fs} {f : Option ℕ}

theorem dupIf_isSome (h : ∀ x, f = some x → 0 < (fs.files x).ref) : ∃ fs', dupIf fs f = some fs' := by
  cases f with
  | none => exact ⟨fs, rfl⟩
  | some x =>
    have := h x rfl
    exact ⟨_, if_neg (by omega)⟩

theorem dupIf_some {x : ℕ} (h : dupIf fs (some x) = some fs') : 0 < (fs.files x).ref ∧
    fs' = { fs with files := update fs.files x { fs.files x with ref := (fs.files x).ref + 1 } } := by
  simp only [dupIf, filedup] at h
  split_ifs at h with hlt
  exact ⟨by omega, (Option.some.inj h).symm⟩

theorem dupIf_none (h : dupIf fs none = some fs') : fs' = fs := (Option.some.inj h).symm

theorem dupIf_inodes (h : dupIf fs f = some fs') : fs'.inodes = fs.inodes := by
  cases f with
  | none => rw [dupIf_none h]
  | some x =>
    obtain ⟨-, rfl⟩ := dupIf_some h
    rfl

theorem dupIf_ips (h : dupIf fs f = some fs') (x : ℕ) : (fs'.files x).ip = (fs.files x).ip := by
  cases f with
  | none => rw [dupIf_none h]
  | some y =>
    obtain ⟨-, rfl⟩ := dupIf_some h
    by_cases hx : x = y
    · subst hx
      simp
    · simp [hx]

theorem dupIf_files (h : dupIf fs f = some fs') (x : ℕ) :
    (fs'.files x).ref = (fs.files x).ref + if f = some x then 1 else 0 := by
  cases f with
  | none =>
    rw [dupIf_none h]
    simp
  | some y =>
    obtain ⟨-, rfl⟩ := dupIf_some h
    by_cases hx : x = y
    · subst hx
      simp
    · simp [hx, Ne.symm hx]

/-- A reference that is taken and given back. -/
theorem closeIf_dupIf (h : dupIf fs f = some fs') : closeIf fs' f = some fs := by
  cases f with
  | none => exact h.symm
  | some x =>
    obtain ⟨-, rfl⟩ := dupIf_some h
    simp [closeIf, fileclose]

/-- A reference is given back after the inodes have changed. -/
theorem closeIf_of_files {fs₁ : Fs} (h : dupIf fs f = some fs') (hs : fs₁.files = fs'.files) :
    closeIf fs₁ f = some { fs₁ with files := fs.files } := by
  cases f with
  | none =>
    rw [dupIf_none h] at hs
    rw [← hs]
    rfl
  | some x =>
    obtain ⟨-, rfl⟩ := dupIf_some h
    simp [closeIf, fileclose, hs]

end

/-! ### `wmap` -/

theorem validateInput_iff {addr : ℕ} {length : ℤ} {flags : BitVec 32} {f : Option ℕ} :
    validateInput addr length flags f = true ↔
      0 < length ∧ has flags mapShared ≠ has flags mapPrivate ∧ (has flags mapAnonymous = true ∨ f ≠ none) ∧
        (has flags mapFixed = true → addr % 4096 = 0 ∧ 0x60000000 ≤ addr ∧ addr < 0x80000000 ∧
          u32 (addr + length) ≤ 0x80000000) := by
  unfold validateInput
  cases has flags mapAnonymous <;> cases has flags mapFixed <;> cases f <;> simp <;> grind

/-- The table with a new region in the slot `m`. -/
def placed (mm : Mmaps) (m : Fin 16) (r : Region) : Mmaps :=
  { mm.set m r with totalMmaps := mm.totalMmaps + 1 }

/-- What `wmap` can do: nothing, or it puts a region of pages of its own into the list. -/
inductive Wmaps (k : Kernel) (p : Fin 64) (l : List (Fin 16)) (length : ℤ) (flags : BitVec 32) : Kernel → ℤ → Prop
  /-- It fails. -/
  | failed (fs : Fs) : Wmaps k p l length flags { k with fs := fs } (-1)
  /-- The region is at `a`. -/
  | placed {a : ℕ} {mm : Mmaps} {m : Fin 16} {fd : ℤ} {f : Option ℕ} {fs : Fs}
    (hp : Places (k.procs p).mm l a length (mm, some m)) (hlen : 0 < length)
    (hflags : has flags mapShared ≠ has flags mapPrivate) (hal : a % 4096 = 0) (hlo : 0x60000000 ≤ a)
    (hhi : a + length ≤ 0x80000000) :
    Wmaps k p l length flags
      (k.put p { k.procs p with mm := placed mm m ⟨a, length, flags, fd, f, 0, 0⟩ } k.mem fs) a

/-- The placement of a valid request: none, or at a page of the range. -/
theorem place_spec {mm : Mmaps} (ht : Table mm l) {addr : ℕ} {length : ℤ} {fixed : Bool} (hpos : 0 < length)
    (hlen : length < 2 ^ 31)
    (hfix : fixed = true → addr % 4096 = 0 ∧ 0x60000000 ≤ addr ∧ addr < 0x80000000 ∧
      u32 (addr + length) ≤ 0x80000000) :
    ∃ out, (if fixed = true then fixAddrPlaceMmap mm addr length else findAddrPlaceMmap mm length) = some out ∧
      (out.2 = none ∨ ∃ a, Places mm l a length out ∧ a % 4096 = 0 ∧ 0x60000000 ≤ a ∧
        a + length ≤ 0x80000000) := by
  cases fixed with
  | true =>
    obtain ⟨hal, hlo, hlt, hhi⟩ := hfix rfl
    obtain ⟨out, hout, hp⟩ := fixAddrPlaceMmap_spec ht.toListed addr length
    unfold u32 at hhi
    exact ⟨out, hout, .inr ⟨addr, hp, hal, hlo, by omega⟩⟩
  | false =>
    obtain ⟨a, ha, hlo, hhi, hal⟩ := findStart_spec length ht ht.linked (fun i hi => hi) ht.length_le
      (le_refl 0x60000000) (by omega) (by omega)
    simp only [Bool.false_eq_true, if_false, findAddrPlaceMmap, ha]
    split <;> rename_i hroom
    · exact ⟨(mm, none), rfl, .inl rfl⟩
    · obtain ⟨out, hout, hp⟩ := fixAddrPlaceMmap_spec ht.toListed a length
      unfold u32 at hroom
      exact ⟨out, hout, .inr ⟨a, hp, hal, hlo, by omega⟩⟩

theorem placeMap_cases (ht : Table (k.procs p).mm l) {addr : ℕ} {length : ℤ} {flags : BitVec 32} {fd : ℤ}
    {f : Option ℕ} (hlen : length < 2 ^ 31) (h : placeMap k p addr length flags fd f = some (k', ret)) :
    Wmaps k p l length flags k' ret := by
  unfold placeMap at h
  by_cases hv : validateInput addr length flags f = true
  · obtain ⟨hpos, hsh, -, hfix⟩ := validateInput_iff.mp hv
    simp only [hv, Bool.not_true, Bool.false_eq_true, if_false] at h
    split at h
    · obtain ⟨fs, -, hk⟩ := Option.map_eq_some_iff.mp h
      obtain ⟨rfl, rfl⟩ := Prod.mk.inj hk
      exact .failed fs
    · obtain ⟨⟨mm, m⟩, hout, hpl⟩ := place_spec ht hpos hlen hfix
      rw [hout] at h
      cases m with
      | none =>
        obtain ⟨fs, -, hk⟩ := Option.map_eq_some_iff.mp h
        obtain ⟨rfl, rfl⟩ := Prod.mk.inj hk
        exact .failed fs
      | some m =>
        obtain ⟨a, hp, hal, hlo, hhi⟩ := hpl.resolve_left (by simp)
        have haddr : (mm.mmaps m).addr = a := by
          cases hp with
          | some _ _ _ _ hmm => simp [hmm]
        simp only [haddr, Option.some.injEq, Prod.mk.injEq] at h
        obtain ⟨rfl, rfl⟩ := h
        have hset : ((mm.set m ⟨a, length, flags, fd, f, 0, 0⟩).mmaps m).addr = a := by
          simp [Mmaps.set]
        rw [hset]
        exact .placed hp hpos hsh hal hlo hhi
  · simp only [Bool.not_eq_true] at hv
    simp only [hv, Bool.not_false, if_true, Option.some.injEq, Prod.mk.injEq] at h
    obtain ⟨rfl, rfl⟩ := h
    exact .failed k.fs

theorem sysWmap_cases (ht : Table (k.procs p).mm l) {addr length flags fd : BitVec 32}
    (h : sysWmap k p addr length flags fd = some (k', ret)) : Wmaps k p l length.toInt flags k' ret := by
  have hlen : length.toInt < 2 ^ 31 := by
    have := BitVec.toInt_lt (x := length)
    simpa using this
  unfold sysWmap at h
  split at h
  · exact placeMap_cases ht hlen h
  · split at h
    · cases h
    · rename_i fs _
      have hw := placeMap_cases (k := { k with fs := fs }) ht hlen h
      cases hw with
      | failed fs' => exact .failed fs'
      | placed hp hlen hsh hal hlo hhi => exact .placed hp hlen hsh hal hlo hhi

/-! ### `wunmap` -/

/-- What `wunmap` can do: nothing, or the region `i` goes out of the list and its pages out of the
page table. -/
inductive Wunmaps (k : Kernel) (p : Fin 64) (l : List (Fin 16)) (addr : ℕ) : Kernel → ℤ → Prop
  /-- It fails. -/
  | failed : Wunmaps k p l addr k (-1)
  /-- The region `i` is removed. -/
  | removed (l₁ : List (Fin 16)) {i : Fin 16} (l₂ : List (Fin 16)) {s : Drop} {fs : Fs} (hl : l = l₁ ++ i :: l₂)
    (haddr : ((k.procs p).mm.mmaps i).addr = addr)
    (hdrop : dropPages ((k.procs p).mm.mmaps i).backs (((k.procs p).mm.mmaps i).refcnt = 0)
      ((k.procs p).mm.mmaps i) addr ((k.procs p).mm.mmaps i).stop ⟨⟨k.mem, (k.procs p).pgdir⟩, k.fs, 0⟩ = some s)
    (hfs : (if ((k.procs p).mm.mmaps i).refcnt = 0 then closeIf s.fs ((k.procs p).mm.mmaps i).f
      else some s.fs) = some fs) :
    Wunmaps k p l addr
      (k.put p { k.procs p with pgdir := s.space.pgdir, mm := unlink (k.procs p).mm l₁.getLast? i } s.space.mem fs) 0

theorem sysWunmap_cases (ht : Listed (k.procs p).mm l) {addr : BitVec 32}
    (h : sysWunmap k p addr = some (k', ret)) : Wunmaps k p l addr.toNat k' ret := by
  unfold sysWunmap at h
  split at h
  · obtain ⟨rfl, rfl⟩ := Prod.mk.inj (Option.some.inj h)
    exact .failed
  · obtain ⟨⟨k₁, r₁⟩, hrem, hk⟩ := Option.map_eq_some_iff.mp h
    obtain ⟨rfl, rfl⟩ := Prod.mk.inj hk
    unfold removeMap at hrem
    rcases ht.find (fun r => decide (r.addr = addr.toNat)) with ⟨hfind, -⟩ | ⟨l₁, i, l₂, hl, -, hi, hfind⟩
    · simp only [hfind, Option.some.injEq, Prod.mk.injEq] at hrem
      obtain ⟨rfl, rfl⟩ := hrem
      exact .failed
    · have hi : ((k.procs p).mm.mmaps i).addr = addr.toNat := by
        simpa using hi
      simp only [hfind] at hrem
      split at hrem
      · cases hrem
      · rename_i s hs
        split at hrem
        · cases hrem
        · rename_i fs hfs
          obtain ⟨rfl, rfl⟩ := Prod.mk.inj (Option.some.inj hrem)
          rw [hi] at hs
          exact .removed l₁ l₂ hl hi hs hfs

/-! ### `wpunmap` -/

/-- What `wpunmap` can do: nothing, or the pages of the range go out of the page table and the
region `i`, which contains the range, is shrunk or split, or there is no slot for that. -/
inductive Wpunmaps (k : Kernel) (p : Fin 64) (l : List (Fin 16)) (addr : ℕ) (length : ℤ) : Kernel → ℤ → Prop
  /-- It fails, and nothing has happened. -/
  | failed : Wpunmaps k p l addr length k (-1)
  /-- The region `i` is the first that contains the range. -/
  | dropped (l₁ : List (Fin 16)) {i : Fin 16} (l₂ : List (Fin 16)) {s : Drop} {out : Option (Mmaps × Fs)}
    (hl : l = l₁ ++ i :: l₂) (hlen : 0 < length) (hal : addr % 4096 = 0) (hstop : u32 (addr + length) % 4096 = 0)
    (hlo : ((k.procs p).mm.mmaps i).addr ≤ addr) (hhi : u32 (addr + length) ≤ ((k.procs p).mm.mmaps i).stop)
    (hdrop : dropPages ((k.procs p).mm.mmaps i).backs true ((k.procs p).mm.mmaps i) addr (u32 (addr + length))
      ⟨⟨k.mem, (k.procs p).pgdir⟩, k.fs, 0⟩ = some s)
    (hshrink : shrink ((k.procs p).mm.set i { (k.procs p).mm.mmaps i with
      nLoadedPages := ((k.procs p).mm.mmaps i).nLoadedPages - s.dropped }) s.space.pgdir s.fs i addr length = some out) :
    Wpunmaps k p l addr length
      (k.put p { k.procs p with
        pgdir := s.space.pgdir
        mm := (out.map Prod.fst).getD ((k.procs p).mm.set i { (k.procs p).mm.mmaps i with
          nLoadedPages := ((k.procs p).mm.mmaps i).nLoadedPages - s.dropped }) } s.space.mem
        ((out.map Prod.snd).getD s.fs)) (if out.isSome then 0 else -1)

theorem sysWpunmap_cases (ht : Listed (k.procs p).mm l) {addr length : BitVec 32}
    (h : sysWpunmap k p addr length = some (k', ret)) :
    Wpunmaps k p l addr.toNat length.toInt k' ret := by
  unfold sysWpunmap at h
  dsimp only at h
  split at h
  · obtain ⟨rfl, rfl⟩ := Prod.mk.inj (Option.some.inj h)
    exact .failed
  split at h
  · obtain ⟨rfl, rfl⟩ := Prod.mk.inj (Option.some.inj h)
    exact .failed
  split at h
  · obtain ⟨rfl, rfl⟩ := Prod.mk.inj (Option.some.inj h)
    exact .failed
  rename_i hstop hlen hal
  rcases ht.find (fun r => decide (r.addr ≤ addr.toNat ∧ u32 (addr.toNat + length.toInt) ≤ r.stop)) with
    ⟨hfind, -⟩ | ⟨l₁, i, l₂, hl, -, hi, hfind⟩
  · simp only [hfind, Option.some.injEq, Prod.mk.injEq] at h
    obtain ⟨rfl, rfl⟩ := h
    exact .failed
  · simp only [decide_eq_true_eq] at hi
    simp only [hfind] at h
    split at h
    · cases h
    · rename_i s hs
      split at h
      · cases h
      · rename_i hsh
        obtain ⟨rfl, rfl⟩ := Prod.mk.inj (Option.some.inj h)
        exact .dropped l₁ l₂ hl (by omega) (by omega) (by omega) hi.1 hi.2 hs hsh
      · rename_i hsh
        obtain ⟨rfl, rfl⟩ := Prod.mk.inj (Option.some.inj h)
        exact .dropped l₁ l₂ hl (by omega) (by omega) (by omega) hi.1 hi.2 hs hsh

/-! ### Page faults -/

/-- What a page fault can do: nothing, it gives the page back for want of a page table, or it maps a
new page in the region `i`, which is counted unless the file could not be read. -/
inductive Faults (k : Kernel) (p : Fin 64) (l : List (Fin 16)) (va : ℕ) : Kernel → Prop
  /-- There is no region, or no page. -/
  | failed : Faults k p l va k
  /-- There is a page, and none for the page table. -/
  | noTable {s : Space} {page : ℕ}
    (hmap : mapNew ⟨k.mem, (k.procs p).pgdir⟩ va (fun _ => 0) true true = some (s, .noTable page)) :
    Faults k p l va (k.put p { k.procs p with pgdir := s.pgdir } (kfree s.mem page) k.fs)
  /-- The page is mapped; `content` is what was read into it. -/
  | mapped {i : Fin 16} {s : Space} {fs : Fs} {mem : Mem} {ok : Bool} (hi : i ∈ l)
    (hlo : ((k.procs p).mm.mmaps i).addr ≤ va) (hhi : va < ((k.procs p).mm.mmaps i).stop)
    (hmap : mapNew ⟨k.mem, (k.procs p).pgdir⟩ va (fun _ => 0) true true = some (s, .ok))
    (hread : ok = true ∧ mem = s.mem ∧ fs = k.fs ∧
        (has ((k.procs p).mm.mmaps i).flags mapAnonymous = true ∨ ((k.procs p).mm.mmaps i).f = none) ∨
      has ((k.procs p).mm.mmaps i).flags mapAnonymous = false ∧
      ∃ f e, ((k.procs p).mm.mmaps i).f = some f ∧ s.pgdir.pte va = some e ∧
        readPage s.mem k.fs f e.page (u32 (va - ((k.procs p).mm.mmaps i).addr)) = some (mem, fs, ok)) :
    Faults k p l va
      (k.put p { k.procs p with
        pgdir := s.pgdir
        mm := if ok then (k.procs p).mm.set i { (k.procs p).mm.mmaps i with
          nLoadedPages := ((k.procs p).mm.mmaps i).nLoadedPages + 1 } else (k.procs p).mm } mem fs)

theorem handlePageFault_cases (ht : Listed (k.procs p).mm l) {addr : BitVec 32}
    (h : handlePageFault k p addr = some (k', ret)) : Faults k p l (pgrounddown addr.toNat) k' := by
  unfold handlePageFault at h
  dsimp only at h
  rcases ht.find (fun r => decide (r.addr ≤ pgrounddown addr.toNat ∧ pgrounddown addr.toNat < r.stop)) with
    ⟨hfind, -⟩ | ⟨l₁, i, l₂, hl, -, hi, hfind⟩
  · simp only [hfind, Option.some.injEq, Prod.mk.injEq] at h
    obtain ⟨rfl, rfl⟩ := h
    exact .failed
  · simp only [decide_eq_true_eq] at hi
    have hil : i ∈ l := by simp [hl]
    simp only [hfind] at h
    split at h
    · cases h
    · rename_i s hs
      obtain ⟨rfl, rfl⟩ := Prod.mk.inj (Option.some.inj h)
      obtain rfl := mapNew_noPage hs
      change Faults k p l _ (k.put p (k.procs p) k.mem k.fs)
      rw [Kernel.put_self]
      exact .failed
    · rename_i s page hs
      obtain ⟨rfl, rfl⟩ := Prod.mk.inj (Option.some.inj h)
      exact .noTable hs
    · rename_i s hs
      split at h
      · rename_i f e hf hff he
        split at h
        · cases h
        · rename_i mem fs ok hread
          obtain ⟨rfl, rfl⟩ := Prod.mk.inj (Option.some.inj h)
          exact .mapped hil hi.1 hi.2 hs (.inr ⟨hf, f, e, hff, he, hread⟩)
      · rename_i hno
        obtain ⟨rfl, rfl⟩ := Prod.mk.inj (Option.some.inj h)
        -- the page is there, so there is no file to read
        have hfile : has ((k.procs p).mm.mmaps i).flags mapAnonymous = true ∨ ((k.procs p).mm.mmaps i).f = none := by
          obtain ⟨-, page, hpage⟩ := mapNew_pte_self hs
          cases hf : has ((k.procs p).mm.mmaps i).flags mapAnonymous with
          | true => exact .inl rfl
          | false => exact .inr (Option.eq_none_iff_forall_ne_some.mpr fun f hff => hno f _ hf hff hpage)
        have hm := Faults.mapped hil hi.1 hi.2 hs (.inl ⟨rfl, rfl, rfl, hfile⟩)
        exact hm

/-! ### Stores, and the pages of the rest of the kernel -/

/-- A store goes to a page that the process maps. -/
theorem store_cases {va : BitVec 32} {b : UInt8} (h : store k p va b = some k') :
    ∃ e, (k.procs p).pgdir.pte va.toNat = some e ∧
      k' = { k with mem := k.mem.fill e.page (update (k.mem.bytes e.page) (va.toNat % 4096) b) } := by
  unfold store at h
  split at h
  · cases h
  · rename_i e he
    split at h
    · exact ⟨e, he, (Option.some.inj h).symm⟩
    · cases h

/-- The rest of the kernel gives a page back that it holds. -/
theorem give_cases {page : ℕ} (h : Op.run k (.give page) = some k') :
    page ∈ k.kpages ∧ k' = { k with mem := kfree k.mem page, kpages := k.kpages.erase page } := by
  simp only [Op.run] at h
  split at h
  · rename_i hin
    exact ⟨hin, (Option.some.inj h).symm⟩
  · cases h

end SdeSystems.Wmap
