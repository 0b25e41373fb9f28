import SdeSystems.Wmap.ForkLoaded
import SdeSystems.Wmap.Isolation
import SdeSystems.Wmap.Sharers

/-!
# What `fork` copies

`copy_maps` gives the child a region for each of the parent's, in order. Of a shared region the child
has the parent's pages, of a private one a page of its own for each page of the parent, with the
same bytes. The pages of its own come from the free list, so no process has them as long as the
free list has no page that a process maps.
-/

namespace SdeSystems.Wmap

open Lib Function

/-- `copy_maps(parent, child)`. -/
def copyMapsTo (k : Kernel) (p q : Fin 64) : Option (Kernel × Bool) :=
  (copyMaps (k.procs p).mm (k.procs p).pgdir 16 (k.procs p).mm.mmapHead
    ⟨⟨k.mem, (k.procs q).pgdir⟩, k.fs, (k.procs q).mm, none⟩).map fun (s, ok) =>
      (k.put q { k.procs q with pgdir := s.space.pgdir, mm := s.mm } s.space.mem s.fs, ok)

section

variable {m₀ : Mem} {parent : PageDir} {r : Region} {s s' : Copy} {c : Fin 16} {shared : Bool} {va x : ℕ}
  {l : List (Fin 16)} {pm : Mmaps}

/-! ### One page -/

/-- The copy so far has taken pages from the free list only, each for one entry, and no entry has a page that is
still free. -/
structure Tracks (m₀ : Mem) (s : Copy) : Prop where
  /-- What has become of memory. -/
  takes : Takes m₀ s.space.mem
  /-- The pages of the entries are not free. -/
  taken : ∀ x e, s.space.pgdir.pte x = some e → e.page ∉ s.space.mem.free
  /-- A page that was free has come to one entry. -/
  single : ∀ x y e e', s.space.pgdir.pte x = some e → s.space.pgdir.pte y = some e' → e.page = e'.page →
    e.page ∈ m₀.free → vpn x = vpn y

/-- The page at `va` is in the child what it should be. -/
def CopiedAt (m₀ : Mem) (parent : PageDir) (shared : Bool) (va : ℕ) (s : Copy) : Prop :=
  match parent.pte va with
  | none => s.space.pgdir.pte va = none
  | some e =>
    if shared then s.space.pgdir.pte va = some ⟨e.page, true, true⟩
    else ∃ page, s.space.pgdir.pte va = some ⟨page, true, true⟩ ∧ page ∈ m₀.free ∧ page ∉ s.space.mem.free ∧
      s.space.mem.bytes page = m₀.bytes e.page

/-- What is in the child as it should be stays so. -/
theorem CopiedAt.mono (h : CopiedAt m₀ parent shared va s) (htakes : Takes s.space.mem s'.space.mem)
    (hpte : s'.space.pgdir.pte va = s.space.pgdir.pte va) : CopiedAt m₀ parent shared va s' := by
  unfold CopiedAt at h ⊢
  rw [hpte]
  split at h
  · exact h
  · split_ifs at h ⊢
    · exact h
    · obtain ⟨page, hp, hfree, hnot, hbytes⟩ := h
      exact ⟨page, hp, hfree, fun hf => hnot (htakes.free.subset hf), by rw [htakes.bytes page hnot, hbytes]⟩

/-- An entry comes in, or takes the place of another. -/
theorem Tracks.add {sp : Space} {page : ℕ} {w u : Bool} {mm : Mmaps} (h : Tracks m₀ s)
    (htakes : Takes s.space.mem sp.mem) (hself : sp.pgdir.pte va = some ⟨page, w, u⟩)
    (hothers : ∀ a, vpn a ≠ vpn va → sp.pgdir.pte a = s.space.pgdir.pte a) (hpage : page ∉ sp.mem.free)
    (hnew : page ∈ m₀.free → page ∈ s.space.mem.free) : Tracks m₀ { s with space := sp, mm := mm } := by
  -- an entry is the new one or an old one
  have hcases (x : ℕ) (e : Pte) (he : sp.pgdir.pte x = some e) :
      vpn x = vpn va ∧ e.page = page ∨ vpn x ≠ vpn va ∧ s.space.pgdir.pte x = some e := by
    by_cases hx : vpn x = vpn va
    · rw [PageDir.pte_congr hx, hself] at he
      exact .inl ⟨hx, by rw [← Option.some.inj he]⟩
    · exact .inr ⟨hx, by rwa [hothers x hx] at he⟩
  refine ⟨h.takes.trans htakes, ?_, ?_⟩
  · intro x e he
    rcases hcases x e he with ⟨-, rfl⟩ | ⟨-, he⟩
    · exact hpage
    · exact fun hf => h.taken x e he (htakes.free.subset hf)
  · intro x y e e' he he' hsame hfree
    rcases hcases x e he with ⟨hx, hxp⟩ | ⟨-, hx⟩ <;> rcases hcases y e' he' with ⟨hy, hyp⟩ | ⟨-, hy⟩
    · rw [hx, hy]
    · exact absurd (hnew (hxp ▸ hfree)) (by rw [← hxp, hsame]; exact h.taken y e' hy)
    · exact absurd (hnew (by rwa [← hyp, ← hsame])) (by rw [← hyp, ← hsame]; exact h.taken x e hx)
    · exact h.single x y e e' hx hy hsame hfree

variable (hn : m₀.free.Nodup) (hparent : ∀ x e, parent.pte x = some e → e.page ∉ m₀.free)

include hn hparent

/-- One turn of the loop over the pages. -/
theorem copyPage_copies (h : copyPage shared parent c va s = some (s', true)) (ht : Tracks m₀ s)
    (hnone : s.space.pgdir.pte va = none) : Tracks m₀ s' ∧ CopiedAt m₀ parent shared va s' ∧
      Takes s.space.mem s'.space.mem ∧ ∀ a, vpn a ≠ vpn va → s'.space.pgdir.pte a = s.space.pgdir.pte a := by
  cases copyPage_cases h with
  | absent habsent =>
    refine ⟨ht, ?_, .refl _, fun _ _ => rfl⟩
    unfold CopiedAt
    rw [habsent]
    exact hnone
  | @mapped e sp he hmap =>
    have hfree := hparent va e he
    obtain ⟨-, -, hothers⟩ := copied_pte hmap
    rcases hmap with ⟨hsh, hmap⟩ | ⟨hsh, hmap⟩
    · have htakes := mappages_takes hmap
      obtain ⟨-, hself⟩ := mappages_pte_self hmap
      refine ⟨ht.add htakes hself hothers (fun hf => hfree ?_) (fun hf => absurd hf hfree), ?_, htakes, hothers⟩
      · exact (ht.takes.trans htakes).free.subset hf
      · unfold CopiedAt
        rw [he]
        simpa [hsh] using hself
    · obtain ⟨htakes, -, page, hself, hin, hout, hbytes⟩ := mapNew_takes hmap (ht.takes.nodup hn)
      refine ⟨ht.add htakes hself hothers hout fun _ => hin, ?_, htakes, hothers⟩
      unfold CopiedAt
      rw [he]
      simp only [hsh, Bool.false_eq_true, if_false]
      exact ⟨page, hself, ht.takes.free.subset hin, hout, by rw [hbytes, ht.takes.bytes _ hfree]⟩

/-! ### The loops -/

/-- The loop over the pages of a region in which the child has none yet. -/
theorem copyPages_copies {a b : ℕ} (h : forEach (copyPage shared parent c) (pageRange a b) s = some (s', true))
    (hal : a % 4096 = 0) (hb : b ≤ 2 ^ 32) (ht : Tracks m₀ s)
    (hnone : ∀ va ∈ pageRange a b, s.space.pgdir.pte va = none) : Tracks m₀ s' ∧
      (∀ va ∈ pageRange a b, CopiedAt m₀ parent shared va s') ∧ Takes s.space.mem s'.space.mem ∧
      ∀ x, (∀ d ∈ pageRange a b, vpn x ≠ vpn d) → s'.space.pgdir.pte x = s.space.pgdir.pte x := by
  refine forEach_done (I := fun done t => Tracks m₀ t ∧ (∀ va ∈ done, CopiedAt m₀ parent shared va t) ∧
    Takes s.space.mem t.space.mem ∧
    ∀ x, (∀ d ∈ done, vpn x ≠ vpn d) → t.space.pgdir.pte x = s.space.pgdir.pte x) ?_ h
    ⟨ht, by simp, .refl _, fun _ _ => rfl⟩
  rintro done va rest t t' hl ⟨ht, hdone, htakes, hothers⟩ hturn
  have hne (d : ℕ) (hd : d ∈ done) : vpn va ≠ vpn d := vpn_ne_of_split hl hal hb hd
  have hself : t.space.pgdir.pte va = none := (hothers va hne).trans (hnone va (by simp [hl]))
  obtain ⟨ht', hva, htakes', hothers'⟩ := copyPage_copies hn hparent hturn ht hself
  refine ⟨ht', ?_, htakes.trans htakes', ?_⟩
  · intro d hd
    rcases List.mem_append.mp hd with hd | hd
    · exact (hdone d hd).mono htakes' (hothers' d (hne d hd).symm)
    · rwa [List.mem_singleton.mp hd]
  · intro x hx
    exact (hothers' x (hx va (by simp))).trans (hothers x fun d hd => hx d (by simp [hd]))

/-- The loop over the regions, from a child that has no page at or above `MMAPBASE`. -/
theorem copyMaps_copies (hp : Table pm l)
    (h : forEach (fun i => copyRegion parent (pm.mmaps i)) l s = some (s', true)) (hs : Copied s []) (ht : Tracks m₀ s)
    (hnone : ∀ va, 0x60000000 ≤ va → va < 2 ^ 32 → s.space.pgdir.pte va = none) : Tracks m₀ s' ∧
      ∀ i ∈ l, ∀ va ∈ pageRange (pm.mmaps i).addr (pm.mmaps i).stop,
        CopiedAt m₀ parent (has (pm.mmaps i).flags mapShared) va s' := by
  suffices hloop : (∃ cl, Copied s' cl) ∧ Tracks m₀ s' ∧
      (∀ i ∈ l, ∀ va ∈ pageRange (pm.mmaps i).addr (pm.mmaps i).stop,
        CopiedAt m₀ parent (has (pm.mmaps i).flags mapShared) va s') ∧
      ∀ va, 0x60000000 ≤ va → va < 2 ^ 32 →
        (∀ i ∈ l, ∀ d ∈ pageRange (pm.mmaps i).addr (pm.mmaps i).stop, vpn va ≠ vpn d) → s'.space.pgdir.pte va = none from
    ⟨hloop.2.1, hloop.2.2.1⟩
  refine forEach_done (I := fun done t => (∃ cl, Copied t cl) ∧ Tracks m₀ t ∧
    (∀ i ∈ done, ∀ va ∈ pageRange (pm.mmaps i).addr (pm.mmaps i).stop,
      CopiedAt m₀ parent (has (pm.mmaps i).flags mapShared) va t) ∧
    ∀ va, 0x60000000 ≤ va → va < 2 ^ 32 →
      (∀ i ∈ done, ∀ d ∈ pageRange (pm.mmaps i).addr (pm.mmaps i).stop, vpn va ≠ vpn d) → t.space.pgdir.pte va = none)
    ?_ h ⟨⟨[], hs⟩, ht, by simp, fun va h₁ h₂ _ => hnone va h₁ h₂⟩
  rintro done i rest t t' hl ⟨⟨cl, hc⟩, ht, hdone, hothers⟩ hb
  have hil : i ∈ l := by simp [hl]
  have hok := hp.region i hil
  have hend := hok.stop_eq
  have hlo := hok.lo
  have hhi := hok.hi
  -- the pages of the next region are not those of the regions so far
  have happart (j : Fin 16) (hj : j ∈ done) (va : ℕ) (hva : va ∈ pageRange (pm.mmaps i).addr (pm.mmaps i).stop)
      (d : ℕ) (hd : d ∈ pageRange (pm.mmaps j).addr (pm.mmaps j).stop) : vpn va ≠ vpn d := by
    have hjl : j ∈ l := by simp [hl, hj]
    have hij : i ≠ j := by
      rintro rfl
      have hnd := hl ▸ hp.nodup
      exact (List.nodup_cons.mp (List.nodup_middle.mp hnd)).1 (by simp [hj])
    have hapart := hp.apart i hil j hjl hij
    have hokj := hp.region j hjl
    have hle := hok.stop_le_pageEnd
    have hlej := hokj.stop_le_pageEnd
    have hendj := hokj.stop_eq
    have hhij := hokj.hi
    obtain ⟨h₁, h₂, h₃⟩ := (mem_pageRange_of_aligned hok.aligned).mp hva
    obtain ⟨h₁', h₂', h₃'⟩ := (mem_pageRange_of_aligned hokj.aligned).mp hd
    unfold Region.Apart at hapart
    exact vpn_ne h₃ h₃' (by omega) (by omega) (by omega)
  obtain ⟨c, s₁, hcl, hc', -, hspace, fs, -, -, hloop⟩ := copyRegion_copied hc hok.addr_ne hb
  have hempty : ∀ va ∈ pageRange (pm.mmaps i).addr (pm.mmaps i).stop, t.space.pgdir.pte va = none := by
    intro va hva
    obtain ⟨h₁, h₂, -⟩ := (mem_pageRange_of_aligned hok.aligned).mp hva
    exact hothers va (by omega) (by omega) fun j hj d hd => happart j hj va hva d hd
  have ht₀ : Tracks m₀ { t with fs := fs, mm := opened t.mm c (pm.mmaps i) } := ⟨ht.takes, ht.taken, ht.single⟩
  obtain ⟨ht₁, hpages, htakes, hothers₁⟩ := copyPages_copies hn hparent hloop hok.aligned (by omega) ht₀ hempty
  refine ⟨⟨_, hc'⟩,
    ⟨by rw [hspace]; exact ht₁.takes, by rw [hspace]; exact ht₁.taken, by rw [hspace]; exact ht₁.single⟩, ?_, ?_⟩
  · intro j hj va hva
    rcases List.mem_append.mp hj with hj | hj
    · refine (hdone j hj va hva).mono (by rw [hspace]; exact htakes) ?_
      rw [hspace]
      exact hothers₁ va fun d hd => (happart j hj d hd va hva).symm
    · rw [List.mem_singleton.mp hj] at hva ⊢
      have hcopied := hpages va hva
      unfold CopiedAt at hcopied ⊢
      rwa [hspace]
  · intro va h₁ h₂ hva
    rw [hspace, hothers₁ va fun d hd => hva i (by simp) d hd]
    exact hothers va h₁ h₂ fun j hj d hd => hva j (by simp [hj]) d hd

end

/-! ### `copy_maps` -/

section

variable {k k' : Kernel} {p q : Fin 64} {l cl : List (Fin 16)}

/-- What the child `q` has of the mappings of `p`; `cl` are its regions. -/
structure Copies (k k' : Kernel) (p q : Fin 64) (l cl : List (Fin 16)) : Prop where
  /-- The parent's mappings and entries are as before. -/
  parent : k'.procs p = k.procs p
  /-- So are its pages. -/
  parentBytes : ∀ page, Maps k p page → k'.mem.bytes page = k.mem.bytes page
  /-- The child's list is in order. -/
  wellFormed : WellFormed (k'.procs q).mm cl
  /-- Address, length, flags, descriptor and file of each region are those of the parent's, in the same order. -/
  regions : cores (k'.procs q).mm cl = cores (k.procs p).mm l
  /-- A page is there exactly where it is in the parent. -/
  present : ∀ i ∈ l, ∀ va ∈ pageRange ((k.procs p).mm.mmaps i).addr ((k.procs p).mm.mmaps i).stop,
    ((k'.procs q).pgdir.pte va).isSome = ((k.procs p).pgdir.pte va).isSome
  /-- Of a shared region it is the parent's page. -/
  shared : ∀ i ∈ l, has ((k.procs p).mm.mmaps i).flags mapShared = true →
    ∀ va ∈ pageRange ((k.procs p).mm.mmaps i).addr ((k.procs p).mm.mmaps i).stop, ∀ e e',
      (k.procs p).pgdir.pte va = some e → (k'.procs q).pgdir.pte va = some e' → e'.page = e.page
  /-- Of a private region it is a new page with the same bytes, that no other entry of a process has. -/
  copied : ∀ i ∈ l, has ((k.procs p).mm.mmaps i).flags mapShared = false →
    ∀ va ∈ pageRange ((k.procs p).mm.mmaps i).addr ((k.procs p).mm.mmaps i).stop, ∀ e e',
      (k.procs p).pgdir.pte va = some e → (k'.procs q).pgdir.pte va = some e' → e'.page ∈ k.mem.free ∧
        (∀ r, (k'.procs r).state ≠ .unused → ∀ x e'', (k'.procs r).pgdir.pte x = some e'' → e''.page = e'.page →
          r = q ∧ vpn x = vpn va) ∧
        k'.mem.bytes e'.page = k.mem.bytes e.page
  /-- Each region counts its pages. -/
  loaded : ∀ c ∈ cl, ((k'.procs q).mm.mmaps c).nLoadedPages =
    loaded (k'.procs q).pgdir ((k'.procs q).mm.mmaps c).addr ((k'.procs q).mm.mmaps c).stop

/-- **What `fork` copies**: if `copy_maps` succeeds for a child that has no mappings, the child has the parent's
regions, with the parent's pages where they are shared and with copies where they are private. No page that a
process maps is on the free list. -/
theorem fork_copies (hwf : WellFormed (k.procs p).mm l) (hpq : p ≠ q) (hp : (k.procs p).state ≠ .unused)
    (hq : (k.procs q).state ≠ .unused) (hfresh : (k.procs q).mm = initMmaps)
    (hnone : ∀ va, 0x60000000 ≤ va → va < 2 ^ 32 → (k.procs q).pgdir.pte va = none) (hn : k.mem.free.Nodup)
    (hmapped : ∀ r, (k.procs r).state ≠ .unused → ∀ page, Maps k r page → page ∉ k.mem.free)
    (h : copyMapsTo k p q = some (k', true)) : ∃ cl, Copies k k' p q l cl := by
  have ht := hwf.table
  obtain ⟨⟨s', ok⟩, hcopy, hk⟩ := Option.map_eq_some_iff.mp h
  obtain ⟨rfl, rfl⟩ := Prod.mk.inj hk
  rw [copyMaps_eq ht.linked ht.length_le] at hcopy
  have hs : Copied ⟨⟨k.mem, (k.procs q).pgdir⟩, k.fs, (k.procs q).mm, none⟩ [] := by
    rw [hfresh]
    exact ⟨listed_init, rfl⟩
  have hmaps (r : Fin 64) (hr : (k.procs r).state ≠ .unused) (x : ℕ) (e : Pte) (he : (k.procs r).pgdir.pte x = some e) :
      e.page ∉ k.mem.free := hmapped r hr e.page ⟨x, e, he, rfl⟩
  have htracks : Tracks k.mem ⟨⟨k.mem, (k.procs q).pgdir⟩, k.fs, (k.procs q).mm, none⟩ :=
    ⟨.refl _, hmaps q hq, fun x _ e _ he _ _ hf => absurd hf (hmaps q hq x e he)⟩
  obtain ⟨htracks', hcopied⟩ := copyMaps_copies hn (hmaps p hp) ht hcopy hs htracks hnone
  obtain ⟨cl, hcl, hcores, hagree, -⟩ := copyMaps_sound ht hcopy hs hnone
  have hprocs (r : Fin 64) (hr : r ≠ q) : (k.put q { k.procs q with pgdir := s'.space.pgdir, mm := s'.mm } s'.space.mem
      s'.fs).procs r = k.procs r := Kernel.put_procs_of_ne hr
  refine ⟨cl, ?_⟩
  refine ⟨hprocs p hpq, fun page hpage => htracks'.takes.bytes page (hmapped p hp page hpage), ?_, ?_,
    fun i hi va hva => ?_, fun i hi hsh va hva e e' he he' => ?_, fun i hi hsh va hva e e' he he' => ?_, fun c hc => ?_⟩
  all_goals try rw [Kernel.put_procs_self]
  · exact (ht.of_cores hcl.listed hcores).wellFormed (hwf.strict.of_cores hcores)
  · exact hcores
  · have hat := hcopied i hi va hva
    unfold CopiedAt at hat
    split at hat
    · rename_i hnone'
      simp [hat, hnone']
    · rename_i e he
      split_ifs at hat
      · simp [hat, he]
      · obtain ⟨page, hpage, -⟩ := hat
        simp [hpage, he]
  · have hat := hcopied i hi va hva
    rw [Kernel.put_procs_self] at he'
    unfold CopiedAt at hat
    simp only [he, hsh, if_true] at hat
    rw [hat] at he'
    rw [← Option.some.inj he']
  · have hat := hcopied i hi va hva
    rw [Kernel.put_procs_self] at he'
    unfold CopiedAt at hat
    simp only [he, hsh, Bool.false_eq_true, if_false] at hat
    obtain ⟨page, hpage, hin, -, hbytes⟩ := hat
    rw [hpage] at he'
    obtain rfl := Option.some.inj he'
    refine ⟨hin, ?_, hbytes⟩
    intro r hr x e'' he'' hsame
    by_cases hrq : r = q
    · subst hrq
      rw [Kernel.put_procs_self] at he''
      exact ⟨rfl, htracks'.single x va e'' _ he'' hpage hsame (by rw [hsame]; exact hin)⟩
    · rw [hprocs r hrq] at hr he''
      have hout := hmaps r hr x e'' he''
      rw [hsame] at hout
      exact absurd hin hout
  · exact hagree.counts c hc

end

/-- Process 1 is a child that has a page directory and nothing in it. -/
def withChild (k : Kernel) : Kernel :=
  k.setProc firstChild { k.procs firstChild with state := .embryo, mm := initMmaps, pgdir := ⟨2999, fun _ => none⟩ }

/-- A private mapping of two pages, of which one is touched, is copied. -/
theorem fork_copies_private : ∃ k k' cl, runAll (boot 100) [.wmap 0 0x60000000 0x2000 0xD (-1), .fault 0 0x60000000] =
    some k ∧ copyMapsTo (withChild k) 0 1 = some (k', true) ∧ Copies (withChild k) k' 0 1 [0] cl := by
  have hrun : ((runAll (boot 100) [.wmap 0 0x60000000 0x2000 0xD (-1), .fault 0 0x60000000]).bind fun k =>
      (copyMapsTo (withChild k) 0 1).map fun out => decide (out.2 = true ∧ (k.procs 0).state = .runnable ∧
        (∀ r ≠ 0, (k.procs r).state = .unused) ∧ (k.procs 0).mm.mmapHead = some 0 ∧ (k.procs 0).mm.next 0 = none)) =
      some true := by
    decide +kernel
  obtain ⟨k, hk, hw⟩ := Option.bind_eq_some_iff.mp hrun
  obtain ⟨⟨k', ok⟩, hcopy, hout⟩ := Option.map_eq_some_iff.mp hw
  obtain ⟨rfl, hstate, hunused, hhead, hnext⟩ := of_decide_eq_true hout
  have hlive : (k.procs 0).state ≠ .unused := by simp [hstate]
  have hreach (allowed : Kernel → Op → Prop) (hops : ∀ k, allowed k (.wmap 0 0x60000000 0x2000 0xD (-1)) ∧
      allowed k (.fault 0 0x60000000)) : Reachable allowed (boot 100) k := by
    apply reachable_of_runAll hk
    intro op hop k
    simp only [List.mem_cons, List.not_mem_nil, or_false] at hop
    rcases hop with rfl | rfl
    · exact (hops k).1
    · exact (hops k).2
  obtain ⟨-, -, hpages⟩ := private_invariant (boot_fresh 100)
    (hreach privateOnly fun _ => ⟨(by decide : has 0xD mapShared = false), trivial⟩)
  obtain ⟨l, ht, hs⟩ := tables_of_reachable (fun _ _ => rfl) (hreach noWpunmap fun _ => by simp [noWpunmap]) 0 hlive
  have hlinked : Linked (k.procs 0).mm.next (k.procs 0).mm.mmapHead [0] none := ⟨hhead, hnext⟩
  obtain rfl : l = [0] := ht.linked.unique hlinked
  have hchild : (withChild k).procs 1 = { k.procs 1 with
      state := .embryo, mm := initMmaps, pgdir := ⟨2999, fun _ => none⟩ } := by
    simp [firstChild, withChild, Kernel.setProc]
  have hparent (r : Fin 64) (hr : r ≠ 1) : (withChild k).procs r = k.procs r := by
    simp [firstChild, withChild, Kernel.setProc, hr]
  have hwf : WellFormed ((withChild k).procs 0).mm [0] := by
    rw [hparent 0 (by decide)]
    exact ht.wellFormed (hs rfl)
  have hmapped (r : Fin 64) (hr : ((withChild k).procs r).state ≠ .unused) (page : ℕ) (hm : Maps (withChild k) r page) :
      page ∉ k.mem.free := by
    obtain ⟨x, e, he, rfl⟩ := hm
    by_cases hr₁ : r = 1
    · subst hr₁
      rw [hchild] at he
      cases he
    · rw [hparent r hr₁] at hr he
      obtain rfl : r = 0 := by
        by_contra hr₀
        exact hr (hunused r hr₀)
      exact hpages.isolated.notFree 0 x e hlive he
  obtain ⟨cl, hcl⟩ := fork_copies hwf (by decide) (by rw [hparent 0 (by decide)]; exact hlive)
    (by rw [hchild]; simp) (by rw [hchild]) (fun va _ _ => by rw [hchild]; rfl)
    (Multiset.coe_nodup.mp (Multiset.nodup_add.mp hpages.1).1) hmapped hcopy
  exact ⟨k, k', cl, hk, hcopy, hcl⟩

end SdeSystems.Wmap
