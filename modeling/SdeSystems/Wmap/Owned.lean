import SdeSystems.Lib.Ledger
import SdeSystems.Wmap.CopyMaps

/-!
# The pages of a page directory

The pages that a page directory has: the one it is in, those of its page tables, and of the pages
it maps those that are its own. What the functions of `vm.c` do to them is stated for an arbitrary
ledger: the pages of the directory come and go, and all the others stay.
-/

namespace SdeSystems.Wmap

open Lib Function

/-! ### Pages that are owned -/

/-- The page of an entry, if it is present and the directory's own. -/
def slot (mine : Bool) : Option Pte → Multiset ℕ
  | some e => if mine then {e.page} else 0
  | none => 0

@[simp] theorem slot_none (b : Bool) : slot b none = 0 := rfl

@[simp] theorem slot_mine (e : Pte) : slot true (some e) = {e.page} := rfl

@[simp] theorem slot_not_mine (x : Option Pte) : slot false x = 0 := by
  cases x <;> rfl

/-- The pages of a page table, `mine` being the page numbers of the entries that are the directory's own. -/
@[irreducible] def PageTable.own (mine : ℕ → Bool) (i : Fin 1024) (t : PageTable) : Multiset ℕ :=
  t.page ::ₘ total fun j : Fin 1024 => slot (mine (1024 * i.val + j.val)) (t.ptes j)

/-- The pages of a page directory. -/
@[irreducible] def PageDir.own (mine : ℕ → Bool) (pd : PageDir) : Multiset ℕ :=
  pd.page ::ₘ total fun i => (pd.tables i).elim 0 (PageTable.own mine i)

/-- All pages that a page directory maps are its own. -/
def allMine (_ : ℕ) : Bool := true

theorem vpn_eq (va : ℕ) : vpn va = 1024 * (pdx va).val + (ptx va).val := by
  simp only [vpn, pdx, ptx]
  omega

section

variable {mine mine' : ℕ → Bool} {pd : PageDir} {va va' : ℕ} {e e' : Pte}

/-- A new page table has no entries. -/
theorem own_newTable (mine : ℕ → Bool) (i : Fin 1024) (page : ℕ) : PageTable.own mine i ⟨page, fun _ => none⟩ = {page} := by
  unfold PageTable.own
  rw [total_zero fun _ => slot_none _]
  rfl

/-- A new page directory has no tables. -/
theorem own_newDir (mine : ℕ → Bool) (page : ℕ) : PageDir.own mine ⟨page, fun _ => none⟩ = {page} := by
  unfold PageDir.own
  exact congrArg _ (total_zero fun _ => rfl)

/-- One page table is put in the place of another. -/
theorem own_setTable (mine : ℕ → Bool) (pd : PageDir) (i : Fin 1024) (x : Option PageTable) :
    PageDir.own mine { pd with tables := update pd.tables i x } + (pd.tables i).elim 0 (PageTable.own mine i) =
      pd.own mine + x.elim 0 (PageTable.own mine i) := by
  unfold PageDir.own
  rw [Multiset.cons_add, Multiset.cons_add]
  exact congrArg _ (total_update_add (fun i t => Option.elim t 0 (PageTable.own mine i)) pd.tables i x)

/-- One entry is put in the place of another. -/
theorem own_setEntry (mine : ℕ → Bool) (i j : Fin 1024) (t : PageTable) (x : Option Pte) :
    PageTable.own mine i { t with ptes := update t.ptes j x } + slot (mine (1024 * i.val + j.val)) (t.ptes j) =
      t.own mine i + slot (mine (1024 * i.val + j.val)) x := by
  unfold PageTable.own
  rw [Multiset.cons_add, Multiset.cons_add]
  exact congrArg _ (total_update_add (fun (j : Fin 1024) y => slot (mine (1024 * i.val + j.val)) y) t.ptes j x)

/-- A write to an entry. -/
theorem own_setPte (h : (pd.tables (pdx va)).isSome) (x : Option Pte) :
    (pd.setPte va x).own mine + slot (mine (vpn va)) (pd.pte va) = pd.own mine + slot (mine (vpn va)) x := by
  obtain ⟨t, ht⟩ := Option.isSome_iff_exists.mp h
  have hpte : pd.pte va = t.ptes (ptx va) := by
    simp [PageDir.pte, ht]
  have hset : pd.setPte va x =
      { pd with tables := update pd.tables (pdx va) (some { t with ptes := update t.ptes (ptx va) x }) } := by
    simp [PageDir.setPte, ht]
  have htable := own_setTable mine pd (pdx va) (some { t with ptes := update t.ptes (ptx va) x })
  have hentry := own_setEntry mine (pdx va) (ptx va) t x
  simp only [ht, Option.elim_some] at htable
  rw [hset, hpte, vpn_eq]
  -- the other tables and entries are the same on both sides
  apply add_right_cancel (b := t.own mine (pdx va))
  calc _ = PageDir.own mine { pd with tables := update pd.tables (pdx va) (some { t with
              ptes := update t.ptes (ptx va) x }) } + t.own mine (pdx va) +
            slot (mine (1024 * (pdx va).val + (ptx va).val)) (t.ptes (ptx va)) := by abel
    _ = pd.own mine + (PageTable.own mine (pdx va) { t with ptes := update t.ptes (ptx va) x } +
            slot (mine (1024 * (pdx va).val + (ptx va).val)) (t.ptes (ptx va))) := by rw [htable, add_assoc]
    _ = _ := by rw [hentry]; abel

/-- An entry is cleared. -/
theorem own_clear (pd : PageDir) (va : ℕ) :
    (pd.setPte va none).own mine + slot (mine (vpn va)) (pd.pte va) = pd.own mine := by
  cases ht : pd.tables (pdx va) with
  | none => simp [PageDir.setPte, PageDir.pte, ht]
  | some t => rw [own_setPte (by simp [ht]), slot_none, add_zero]

theorem own_clear_mine (he : pd.pte va = some e) (hm : mine (vpn va) = true) :
    pd.own mine = e.page ::ₘ (pd.setPte va none).own mine := by
  have hclear := @own_clear mine pd va
  rw [he, hm, slot_mine] at hclear
  rw [← hclear, add_comm, Multiset.singleton_add]

theorem mem_own (he : pd.pte va = some e) (hm : mine (vpn va) = true) : e.page ∈ pd.own mine := by
  rw [own_clear_mine he hm]
  exact Multiset.mem_cons_self ..

/-- No two entries that are the directory's own have the same page. -/
theorem vpn_eq_of_nodup_own (h : (pd.own mine).Nodup) (he : pd.pte va = some e) (he' : pd.pte va' = some e')
    (hm : mine (vpn va) = true) (hm' : mine (vpn va') = true) (hpage : e.page = e'.page) : vpn va = vpn va' := by
  by_contra hne
  have hstill : (pd.setPte va none).pte va' = some e' := by
    rw [PageDir.pte_setPte_of_ne (Ne.symm hne), he']
  rw [own_clear_mine he hm, Multiset.nodup_cons] at h
  exact h.1 (hpage ▸ mem_own hstill hm')

/-- The address of an entry. -/
theorem pdx_entry (i j : Fin 1024) : pdx (2 ^ 22 * i.val + 2 ^ 12 * j.val) = i := by
  simp only [pdx, Fin.ext_iff]
  omega

theorem ptx_entry (i j : Fin 1024) : ptx (2 ^ 22 * i.val + 2 ^ 12 * j.val) = j := by
  simp only [ptx, Fin.ext_iff]
  omega

theorem pte_entry {t : PageTable} {i : Fin 1024} (ht : pd.tables i = some t) (j : Fin 1024) :
    pd.pte (2 ^ 22 * i.val + 2 ^ 12 * j.val) = t.ptes j := by
  unfold PageDir.pte
  rw [pdx_entry, ptx_entry, ht]
  rfl

theorem own_congr_table {t : PageTable} {i : Fin 1024}
    (h : ∀ j e, t.ptes j = some e → mine (1024 * i.val + j.val) = mine' (1024 * i.val + j.val)) :
    t.own mine i = t.own mine' i := by
  unfold PageTable.own
  refine congrArg _ (total_congr ?_)
  intro j
  cases he : t.ptes j with
  | none => rw [slot_none, slot_none]
  | some e => rw [h j e he]

/-- What is owned depends on the entries that are present only. -/
theorem own_congr (h : ∀ va e, va < 2 ^ 32 → pd.pte va = some e → mine (vpn va) = mine' (vpn va)) :
    pd.own mine = pd.own mine' := by
  unfold PageDir.own
  refine congrArg _ (total_congr ?_)
  intro i
  cases ht : pd.tables i with
  | none => rw [Option.elim_none, Option.elim_none]
  | some t =>
    rw [Option.elim_some, Option.elim_some]
    apply own_congr_table
    intro j e he
    have hmine := h _ e (by omega) ((pte_entry ht j).trans he)
    rwa [vpn_eq, pdx_entry, ptx_entry] at hmine

end

/-! ### `vm.c` -/

section

variable {I : Mem → Multiset ℕ → Prop} (hI : Balance kalloc kfree Mem.fill I) {R : Multiset ℕ} {mine : ℕ → Bool}
  {s s' : Space} {va : ℕ} {e : Pte} {content : ℕ → UInt8} {w u : Bool}

include hI

theorem needTable_owned {i : Fin 1024} (h : needTable s i = some s') (hs : I s.mem (s.pgdir.own mine + R)) :
    I s'.mem (s'.pgdir.own mine + R) := by
  unfold needTable at h
  split at h
  · obtain rfl := Option.some.inj h
    exact hs
  · rename_i hn
    obtain ⟨⟨page, mem⟩, hk, rfl⟩ := Option.map_eq_some_iff.mp h
    have hown := own_setTable mine s.pgdir i (some ⟨page, fun _ => none⟩)
    rw [hn, Option.elim_none, add_zero, Option.elim_some, own_newTable, add_comm, Multiset.singleton_add] at hown
    dsimp only
    rw [hown, Multiset.cons_add]
    exact hI.write (hI.take hk hs)

/-- A page that is at hand is mapped. -/
theorem mappages_owned (h : mappages s va e = some (s', true))
    (hs : I s.mem (slot (mine (vpn va)) (some e) + (s.pgdir.own mine + R))) : I s'.mem (s'.pgdir.own mine + R) := by
  obtain ⟨hf, -⟩ | ⟨-, s₁, hs₁, hn, ht, rfl⟩ := mappages_cases h
  · cases hf
  rw [add_left_comm] at hs
  have h₁ := needTable_owned hI hs₁ hs
  have hown := @own_setPte mine s₁.pgdir va ht (some e)
  rw [needTable_pte hs₁, hn, slot_none, add_zero] at hown
  dsimp only
  rwa [hown, add_assoc]

/-- A new page is mapped; where the entry is not the directory's own, it is one of the others. -/
theorem mapNew_owned (h : mapNew s va content w u = some (s', .ok)) (hs : I s.mem (s.pgdir.own mine + R)) :
    ∃ page, s'.pgdir.pte va = some ⟨page, w, u⟩ ∧
      I s'.mem (s'.pgdir.own mine + (slot (!mine (vpn va)) (some ⟨page, w, u⟩) + R)) := by
  obtain ⟨page, mem, hk, hm⟩ := mapNew_ok h
  refine ⟨page, (mappages_pte_self hm).2, mappages_owned hI hm ?_⟩
  have hfill : I (mem.fill page content) (page ::ₘ (s.pgdir.own mine + R)) := hI.write (hI.take hk hs)
  cases mine (vpn va) with
  | true => simpa using hfill
  | false => simpa [add_left_comm] using hfill

theorem mapNew_mine_owned (h : mapNew s va content w u = some (s', .ok)) (hm : mine (vpn va) = true)
    (hs : I s.mem (s.pgdir.own mine + R)) : I s'.mem (s'.pgdir.own mine + R) := by
  obtain ⟨page, -, hs'⟩ := mapNew_owned hI h hs
  simpa [hm] using hs'

/-- The page that there is no page table for is given back. -/
theorem mapNew_noTable_owned {page : ℕ} (h : mapNew s va content w u = some (s', .noTable page))
    (hs : I s.mem (s.pgdir.own mine + R)) : I (kfree s'.mem page) (s'.pgdir.own mine + R) := by
  obtain ⟨mem, hk, rfl⟩ := mapNew_noTable h
  exact hI.give (hI.write (hI.take hk hs))

/-- A page that is the directory's own is given back, and its entry is cleared. -/
theorem free_owned (he : s.pgdir.pte va = some e) (hm : mine (vpn va) = true) (hs : I s.mem (s.pgdir.own mine + R)) :
    I (kfree s.mem e.page) ((s.pgdir.setPte va none).own mine + R) := by
  rw [own_clear_mine he hm, Multiset.cons_add] at hs
  exact hI.give hs

/-- The loops that unmap pages and free them: the pages have to be the directory's own. -/
theorem dropPages_freed {back : Bool} {r : Region} {start stop : ℕ} {d d' : Drop}
    (h : dropPages back true r start stop d = some d') (hm : ∀ va ∈ pageRange start stop, mine (vpn va) = true)
    (hd : I d.space.mem (d.space.pgdir.own mine + R)) : I d'.space.mem (d'.space.pgdir.own mine + R) := by
  refine forEach_keeps (I := fun t : Drop => I t.space.mem (t.space.pgdir.own mine + R)) ?_ (dropPages_some h) hd
  intro va hva t t' ok ht hb
  obtain ⟨-, ⟨-, rfl⟩ | ⟨e, fs, he, rfl⟩⟩ := dropPage_cases hb
  · exact ht
  · exact free_owned hI he (hm va hva) ht

end

section

variable {I : Mem → Multiset ℕ → Prop} (hI : Ledger kalloc kfree Mem.fill I) {R : Multiset ℕ} {mine : ℕ → Bool}
  {s s' : Space} {va : ℕ} {e : Pte} {content : ℕ → UInt8} {w u : Bool}

include hI

theorem deallocuvm_owned {oldsz newsz sz : ℕ} (h : deallocuvm s oldsz newsz = some (s', sz))
    (hm : ∀ a < oldsz, mine (vpn a) = true) (hs : I s.mem (s.pgdir.own mine + R)) :
    I s'.mem (s'.pgdir.own mine + R) := by
  unfold deallocuvm at h
  split at h
  · obtain ⟨rfl, -⟩ := Prod.mk.inj (Option.some.inj h)
    exact hs
  · obtain ⟨⟨s₁, ok⟩, hloop, hout⟩ := Option.map_eq_some_iff.mp h
    obtain ⟨rfl, -⟩ := Prod.mk.inj hout
    refine forEach_keeps (I := fun t : Space => I t.mem (t.pgdir.own mine + R)) ?_ (forPages_some hloop) hs
    intro a ha t t' ok ht hb
    split at hb
    · obtain ⟨rfl, -⟩ := Prod.mk.inj (Option.some.inj hb)
      exact ht
    · rename_i e he
      obtain ⟨rfl, -⟩ := Prod.mk.inj (Option.some.inj hb)
      obtain ⟨-, -, hlt⟩ := mem_pageRange.mp ha
      exact free_owned hI.toBalance he (hm a hlt) ht

theorem allocuvm_owned {oldsz newsz sz : ℕ} (h : allocuvm s oldsz newsz = some (s', sz))
    (hm : ∀ a < 0x60000000, mine (vpn a) = true) (hs : I s.mem (s.pgdir.own mine + R)) :
    I s'.mem (s'.pgdir.own mine + R) := by
  unfold allocuvm at h
  split at h
  · obtain ⟨rfl, -⟩ := Prod.mk.inj (Option.some.inj h)
    exact hs
  split at h
  · obtain ⟨rfl, -⟩ := Prod.mk.inj (Option.some.inj h)
    exact hs
  rename_i hnew _
  obtain ⟨⟨s₁, ok⟩, hloop, hout⟩ := Option.map_eq_some_iff.mp h
  obtain ⟨rfl, -⟩ := Prod.mk.inj hout
  refine forEach_keeps (I := fun t : Space => I t.mem (t.pgdir.own mine + R)) ?_ (forPages_some hloop) hs
  intro a ha t t' ok ht hb
  obtain ⟨-, -, hlt⟩ := mem_pageRange.mp ha
  have hm' (a : ℕ) (ha : a < newsz) : mine (vpn a) = true := hm a (by omega)
  split at hb
  · cases hb
  · rename_i t₁ hmap
    obtain ⟨rfl, -⟩ := Prod.mk.inj (Option.some.inj hb)
    exact mapNew_mine_owned hI.toBalance hmap (hm' a hlt) ht
  · rename_i t₁ hmap
    obtain ⟨⟨t₂, n⟩, hd, hout⟩ := Option.map_eq_some_iff.mp hb
    obtain ⟨rfl, -⟩ := Prod.mk.inj hout
    obtain rfl := mapNew_noPage hmap
    exact deallocuvm_owned hI hd hm' ht
  · rename_i t₁ page hmap
    obtain ⟨⟨t₂, n⟩, hd, hout⟩ := Option.map_eq_some_iff.mp hb
    obtain ⟨rfl, -⟩ := Prod.mk.inj hout
    obtain ⟨mem, hk, rfl⟩ := mapNew_noTable hmap
    -- the new page is one of the others until it is freed
    have hheld : I (mem.fill page fun _ => 0) (t.pgdir.own mine + (page ::ₘ R)) := by
      rw [Multiset.add_cons]
      exact hI.write (hI.take hk ht)
    have hfreed := deallocuvm_owned hI hd hm' hheld
    rw [Multiset.add_cons] at hfreed
    exact hI.give hfreed

omit hI in
/-- The pages of the tables and of the directory itself are a part of what it has. -/
theorem tables_le_own (mine : ℕ → Bool) (pd : PageDir) :
    total (held pd.tables PageTable.page) + {pd.page} ≤ pd.own mine := by
  unfold PageDir.own
  rw [add_comm, Multiset.singleton_add]
  refine Multiset.cons_le_cons _ (total_mono ?_)
  intro i
  unfold held
  cases pd.tables i with
  | none => exact le_rfl
  | some t =>
    rw [Option.elim_some, Option.elim_some]
    unfold PageTable.own
    exact Multiset.cons_le_cons _ (Multiset.zero_le _)

theorem freevm_owned {m : Mem} (h : freevm s = some m) (hs : I s.mem (s.pgdir.own allMine + R)) : I m R := by
  obtain ⟨⟨s₁, sz⟩, hd, rfl⟩ := Option.map_eq_some_iff.mp h
  have h₁ := deallocuvm_owned hI hd (fun _ _ => rfl) hs
  have htables : I s₁.mem (total (held s₁.pgdir.tables PageTable.page) + (s₁.pgdir.page ::ₘ R)) := by
    refine hI.drop ?_ h₁
    rw [← Multiset.singleton_add, ← add_assoc]
    exact Multiset.add_le_add_right (tables_le_own _ _)
  -- the loop over the tables
  suffices hloop : ∀ body, body = (fun m i => (s₁.pgdir.tables i).elim m fun t => kfree m t.page) →
      I (kfree ((List.finRange 1024).foldl body s₁.mem) s₁.pgdir.page) R by
    apply hloop _
    funext m i
    cases s₁.pgdir.tables i <;> rfl
  rintro body rfl
  exact hI.give (hI.give_each s₁.pgdir.tables PageTable.page htables)

omit hI in
/-- The body of the loop of `setupkvm`. -/
def setupTable (i : Fin 1024) (s : Space) : Option (Space × Bool) :=
  match needTable s i with
  | none => some (s, false)
  | some s => some (s, true)

/-- A new page directory has the pages that `setupkvm` takes; where it fails, all are given back. -/
theorem setupkvm_owned {m m' : Mem} {out : Option PageDir} (h : setupkvm m = some (m', out)) (hm : I m R) :
    I m' (out.elim 0 (PageDir.own allMine) + R) := by
  unfold setupkvm at h
  split at h
  · obtain ⟨rfl, rfl⟩ := Prod.mk.inj (Option.some.inj h)
    rwa [Option.elim_none, zero_add]
  · rename_i page m₁ hk
    have hnew : I (m₁.fill page fun _ => 0) (PageDir.own allMine ⟨page, fun _ => none⟩ + R) := by
      rw [own_newDir, Multiset.singleton_add]
      exact hI.write (hI.take hk hm)
    have hloop {t : Space} {ok : Bool}
        (hf : forEach setupTable kernelTables ⟨m₁.fill page fun _ => 0, page, fun _ => none⟩ = some (t, ok)) :
        I t.mem (t.pgdir.own allMine + R) := by
      refine forEach_keeps (I := fun t : Space => I t.mem (t.pgdir.own allMine + R)) ?_ hf hnew
      intro i _ t t' ok ht hb
      unfold setupTable at hb
      split at hb
      · obtain ⟨rfl, -⟩ := Prod.mk.inj (Option.some.inj hb)
        exact ht
      · rename_i t₁ hn
        obtain ⟨rfl, -⟩ := Prod.mk.inj (Option.some.inj hb)
        exact needTable_owned hI.toBalance hn ht
    split at h
    · cases h
    · rename_i t hf
      obtain ⟨rfl, rfl⟩ := Prod.mk.inj (Option.some.inj h)
      exact hloop hf
    · rename_i t hf
      obtain ⟨m₂, hfree, hout⟩ := Option.map_eq_some_iff.mp h
      obtain ⟨rfl, rfl⟩ := Prod.mk.inj hout
      rw [Option.elim_none, zero_add]
      exact freevm_owned hI hfree (hloop hf)

omit hI in
/-- The body of the loop of `copyuvm`. -/
def copyUserPage (pd : PageDir) (a : ℕ) (s : Space) : Option (Space × Bool) :=
  match pd.pte a with
  | none => none
  | some e =>
    match mapNew s a (s.mem.bytes e.page) e.w e.u with
    | none => none
    | some (s, .ok) => some (s, true)
    | some (s, .noPage) => some (s, false)
    | some (s, .noTable page) => some ({ s with mem := kfree s.mem page }, false)

theorem copyuvm_owned {m m' : Mem} {pd : PageDir} {sz : ℕ} {out : Option PageDir} (h : copyuvm m pd sz = some (m', out))
    (hm : I m R) : I m' (out.elim 0 (PageDir.own allMine) + R) := by
  unfold copyuvm at h
  split at h
  · cases h
  · rename_i m₁ hset
    obtain ⟨rfl, rfl⟩ := Prod.mk.inj (Option.some.inj h)
    exact setupkvm_owned hI hset hm
  · rename_i m₁ d hset
    have hnew : I m₁ (d.own allMine + R) := setupkvm_owned hI hset hm
    have hbody (a : ℕ) (t t' : Space) (ok : Bool) (ht : I t.mem (t.pgdir.own allMine + R))
        (hb : copyUserPage pd a t = some (t', ok)) : I t'.mem (t'.pgdir.own allMine + R) := by
      unfold copyUserPage at hb
      split at hb
      · cases hb
      · split at hb
        · cases hb
        · rename_i hmap
          obtain ⟨rfl, -⟩ := Prod.mk.inj (Option.some.inj hb)
          exact mapNew_mine_owned hI.toBalance hmap rfl ht
        · rename_i hmap
          obtain ⟨rfl, -⟩ := Prod.mk.inj (Option.some.inj hb)
          obtain rfl := mapNew_noPage hmap
          exact ht
        · rename_i hmap
          obtain ⟨rfl, -⟩ := Prod.mk.inj (Option.some.inj hb)
          exact mapNew_noTable_owned hI.toBalance hmap ht
    split at h
    · cases h
    · rename_i t hf
      obtain ⟨rfl, rfl⟩ := Prod.mk.inj (Option.some.inj h)
      exact forEach_keeps (I := fun t : Space => I t.mem (t.pgdir.own allMine + R)) (fun a _ => hbody a)
        (forPages_some hf) hnew
    · rename_i t hf
      obtain ⟨m₂, hfree, hout⟩ := Option.map_eq_some_iff.mp h
      obtain ⟨rfl, rfl⟩ := Prod.mk.inj hout
      rw [Option.elim_none, zero_add]
      have ht := forEach_keeps (I := fun t : Space => I t.mem (t.pgdir.own allMine + R)) (fun a _ => hbody a)
        (forPages_some hf) hnew
      exact freevm_owned hI hfree ht

/-- The loops that unmap pages: those that are freed have to be the directory's own. -/
theorem dropPages_owned {back free : Bool} {r : Region} {start stop : ℕ} {d d' : Drop}
    (h : dropPages back free r start stop d = some d')
    (hm : free = true → ∀ va ∈ pageRange start stop, mine (vpn va) = true)
    (hd : I d.space.mem (d.space.pgdir.own mine + R)) : I d'.space.mem (d'.space.pgdir.own mine + R) := by
  refine forEach_keeps (I := fun t : Drop => I t.space.mem (t.space.pgdir.own mine + R)) ?_ (dropPages_some h) hd
  intro va hva t t' ok ht hb
  obtain ⟨-, ⟨-, rfl⟩ | ⟨e, fs, he, rfl⟩⟩ := dropPage_cases hb
  · exact ht
  · cases free with
    | true => exact free_owned hI.toBalance he (hm rfl va hva) ht
    | false =>
      refine hI.drop (Multiset.add_le_add_right ?_) ht
      rw [← own_clear t.space.pgdir va]
      exact Multiset.le_add_right _ _

/-- A page of a region is shared with a child, or copied: the pages that are shared may not be the child's own. -/
theorem copyPage_owned {shared ok : Bool} {parent : PageDir} {c : Fin 16} {t t' : Copy}
    (h : copyPage shared parent c va t = some (t', ok))
    (hm : ∀ e, parent.pte va = some e → mine (vpn va) = !shared)
    (ht : I t.space.mem (t.space.pgdir.own mine + R)) : I t'.space.mem (t'.space.pgdir.own mine + R) := by
  cases copyPage_cases h with
  | absent | noPage => exact ht
  | noTable he hs hmap => exact mapNew_noTable_owned hI.toBalance hmap ht
  | mapped he hmap =>
    have hm' := hm _ he
    rcases hmap with ⟨rfl, hmap⟩ | ⟨rfl, hmap⟩
    · apply mappages_owned hI.toBalance hmap
      rwa [hm', Bool.not_true, slot_not_mine, zero_add]
    · exact mapNew_mine_owned hI.toBalance hmap hm' ht

/-- The pages of a region that come to a child are its own exactly where the region is not shared. -/
def Region.Splits (r : Region) (parent : PageDir) (mine : ℕ → Bool) : Prop :=
  ∀ va ∈ pageRange r.addr r.stop, ∀ e, parent.pte va = some e → mine (vpn va) = !has r.flags mapShared

theorem copyRegion_owned {ok : Bool} {parent : PageDir} {r : Region} {t t' : Copy}
    (h : copyRegion parent r t = some (t', ok)) (hm : r.Splits parent mine)
    (ht : I t.space.mem (t.space.pgdir.own mine + R)) : I t'.space.mem (t'.space.pgdir.own mine + R) := by
  have hloop {c : Fin 16} {fs : Fs} {mm : Mmaps} {t₁ : Copy} {ok : Bool}
      (hf : forEach (copyPage (has r.flags mapShared) parent c) (pageRange r.addr r.stop) { t with fs := fs, mm := mm } =
        some (t₁, ok)) : I t₁.space.mem (t₁.space.pgdir.own mine + R) :=
    forEach_keeps (I := fun t : Copy => I t.space.mem (t.space.pgdir.own mine + R))
      (fun va hva t t' ok ht hb => copyPage_owned hI hb (hm va hva) ht) hf ht
  obtain ⟨-, rfl⟩ | ⟨c, fs, -, -, ⟨-, hf⟩ | ⟨-, t₁, mm, hf, -, rfl⟩⟩ := copyRegion_cases h
  · exact ht
  · exact hloop hf
  · have h₁ := hloop hf
    exact h₁

theorem copyMaps_owned {ok : Bool} {parent : PageDir} {pm : Mmaps} {l : List (Fin 16)} {t t' : Copy}
    (h : forEach (fun i => copyRegion parent (pm.mmaps i)) l t = some (t', ok))
    (hm : ∀ i ∈ l, (pm.mmaps i).Splits parent mine) (ht : I t.space.mem (t.space.pgdir.own mine + R)) :
    I t'.space.mem (t'.space.pgdir.own mine + R) :=
  forEach_keeps (I := fun t : Copy => I t.space.mem (t.space.pgdir.own mine + R))
    (fun i hi _ _ _ ht hb => copyRegion_owned hI hb (hm i hi) ht) h ht

/-- `delete_mmaps`: the pages of the regions that are freed have to be the process's own. -/
theorem deleteMmaps_owned {t t' : Deletion} {l : List (Fin 16)} (hl : Listed t.mm l) (h : deleteMmaps t = some t')
    (hm : ∀ i ∈ l, (t.mm.mmaps i).refcnt = 0 → ∀ va ∈ pageRange (t.mm.mmaps i).addr (t.mm.mmaps i).stop,
      mine (vpn va) = true)
    (ht : I t.space.mem (t.space.pgdir.own mine + R)) : I t'.space.mem (t'.space.pgdir.own mine + R) := by
  obtain ⟨t₁, hfor, rfl⟩ := deleteMmaps_some hl h
  -- the regions to come are as they were
  have hloop := forEach_done (I := fun done (x : Deletion) => (∀ j ∉ done, x.mm.mmaps j = t.mm.mmaps j) ∧
    I x.space.mem (x.space.pgdir.own mine + R)) ?_ hfor ⟨fun _ _ => rfl, ht⟩
  · exact hloop.2
  rintro done i rest x x' hsplit ⟨hsame, hx⟩ hb
  obtain ⟨x₁, hd, hk⟩ := Option.map_eq_some_iff.mp hb
  obtain ⟨rfl, -⟩ := Prod.mk.inj hk
  obtain ⟨d, fs, parent, hdrop, -, rfl, -⟩ := deleteRegion_cases hd
  have hi : i ∉ done := by
    have hnd : (done ++ i :: rest).Nodup := hsplit ▸ hl.nodup
    exact fun hin => (List.nodup_cons.mp (List.nodup_middle.mp hnd)).1 (by simp [hin])
  refine ⟨?_, dropPages_owned hI hdrop ?_ hx⟩
  · intro j hj
    rw [List.mem_append, List.mem_singleton, not_or] at hj
    simp only [Mmaps.reset, update_of_ne hj.2]
    exact hsame j hj.1
  · intro hfree
    rw [hsame i hi] at hfree ⊢
    exact hm i (by simp [hsplit]) (of_decide_eq_true hfree)

end

end SdeSystems.Wmap
