import SdeSystems.Heap.Invariant

/-!
# The order of frees

In a heap with no two free blocks side by side, `free_block` marks a block and
coalesces (`Ok.free`), and marking commutes with coalescing (`coalesce_freed`). So
after any number of frees the blocks are those of the heap before, all the freed ones
marked at once, coalesced once: the order of the calls is not in the result.

What is compared is the sequence that a walk over the headers sees (`walk`).
-/

namespace SdeSystems.Heap

open Lib Function Relation

/-! ### The sequence of blocks -/

/-- What the header of a block says, and where it is. -/
structure Header where
  /-- The address of the header. -/
  start : ℕ
  /-- `GET_SIZE`. -/
  size : Word
  /-- The block is allocated. -/
  allocated : Bool
  /-- The p-bit. -/
  prevAllocated : Bool
  deriving DecidableEq

/-- The headers from `current` on up to the end mark, as the loop of `alloc` visits them. -/
def walk (m : Bytes) : ℕ → ℕ → Option (List Header)
  | 0, _ => none
  | fuel + 1, current =>
    if m.load current ≠ 1 then
      (walk m fuel (plus current (getSize (m.load current)))).map fun seq =>
        ⟨current, getSize (m.load current), isAllocated (m.load current) ≠ 0,
          isPrevAllocated (m.load current) ≠ 0⟩ :: seq
    else some []

/-- The walk over the heap ends, and it sees `seq`. -/
def Sees (h : Heap) (seq : List Header) : Prop :=
  ∃ fuel₀, ∀ fuel, fuel₀ < fuel → walk h.mem fuel h.heapStart = some seq

/-- The headers of the blocks `bs` from `a` on. -/
def headers : ℕ → Bool → List Block → List Header
  | _, _, [] => []
  | a, prev, b :: bs => ⟨a, BitVec.ofNat 32 b.size, b.allocated, prev⟩ :: headers (a + b.size) b.allocated bs

theorem walk_eq {m : Bytes} {a fuel : ℕ} {prev : Bool} {bs : List Block} (ht : Tiles m a prev bs)
    (hlt : total bs < 2 ^ 31) (hf : bs.length < fuel) : walk m fuel a = some (headers a prev bs) := by
  induction bs generalizing a prev fuel with
  | nil =>
    have he : m.load a = 1 := ht.2
    cases fuel with
    | zero => cases hf
    | succ fuel => simp [walk, he, headers]
  | cons b bs ih =>
    obtain ⟨hb, hh, -, ht'⟩ := tiles_cons.mp ht
    rw [total_cons] at hlt
    cases fuel with
    | zero => cases hf
    | succ fuel =>
      have hrest := ih ht' (by omega) (Nat.lt_of_succ_lt_succ hf)
      rw [walk, hh, if_pos (header_ne_one hb.1 hb.2 (by omega)), getSize_header hb.1,
        plus_ofNat (show b.size < 2 ^ 31 by omega), hrest, isAllocated_header hb.1, isPrevAllocated_header hb.1,
        headers]
      cases b.allocated <;> cases prev <;> rfl

theorem Rep.sees {h : Heap} {bs : List Block} (hrep : Rep h bs) :
    Sees h (headers h.heapStart true bs) :=
  ⟨bs.length, fun _ hf => walk_eq hrep.tiles hrep.total_lt hf⟩

/-! ### Many frees -/

/-- `free_block` of one pointer after the other: the heap afterwards, and what is returned. -/
def freeAll : Heap → List ℕ → Heap × List ℤ
  | h, [] => (h, [])
  | h, p :: ps => ((freeAll (freeBlock h p).1 ps).1, (freeBlock h p).2 :: (freeAll (freeBlock h p).1 ps).2)

/-- `free_block` changes no global. -/
theorem freeBlock_globals (h : Heap) (p : ℕ) :
    (freeBlock h p).1.heapStart = h.heapStart ∧ (freeBlock h p).1.allocSize = h.allocSize := by
  unfold freeBlock
  dsimp only
  split_ifs <;> exact ⟨rfl, rfl⟩

theorem freeAll_globals (h : Heap) (ps : List ℕ) :
    (freeAll h ps).1.heapStart = h.heapStart ∧ (freeAll h ps).1.allocSize = h.allocSize := by
  induction ps generalizing h with
  | nil => exact ⟨rfl, rfl⟩
  | cons p ps ih =>
    obtain ⟨hstart, hsize⟩ := ih (freeBlock h p).1
    obtain ⟨hstart', hsize'⟩ := freeBlock_globals h p
    exact ⟨hstart.trans hstart', hsize.trans hsize'⟩

/-- **The blocks after any number of frees**: those of the heap before, the freed ones
marked, and coalesced. -/
theorem Ok.freeAll {σ : State} {bs : List Block} (h : Ok σ bs) {ps : List ℕ} (hnd : ps.Nodup)
    (hsub : ∀ p ∈ ps, p ∈ σ.live) :
    (∀ r ∈ (freeAll σ.heap ps).2, r = 0) ∧
      Rep (freeAll σ.heap ps).1 (coalesce (freed ps σ.heap.heapStart bs)) := by
  induction ps generalizing σ bs with
  | nil =>
    rw [freed_nil, coalesce_eq_self h.rep.coalesced]
    exact ⟨by simp [Heap.freeAll], h.rep⟩
  | cons p ps ih =>
    obtain ⟨hp, hnd⟩ := List.nodup_cons.mp hnd
    obtain ⟨hzero, hok⟩ := h.free (hsub p List.mem_cons_self)
    -- the other pointers are still live
    have hlive : ∀ q ∈ ps, q ∈ σ.live.erase p := by
      intro q hq
      have hne : q ≠ p := fun heq => hp (heq ▸ hq)
      exact (List.mem_erase_of_ne hne).mpr (hsub q (List.mem_cons_of_mem _ hq))
    obtain ⟨hzeros, hrep⟩ := ih hok hnd hlive
    refine ⟨List.forall_mem_cons.mpr ⟨hzero, hzeros⟩, ?_⟩
    dsimp only at hrep
    rwa [(freeBlock_globals σ.heap p).1, coalesce_freed, ← freed_cons] at hrep

/-- The order of the calls is not in the result. -/
theorem Ok.freeAll_perm {σ : State} {bs : List Block} (h : Ok σ bs) {ps qs : List ℕ} (hnd : ps.Nodup)
    (hsub : ∀ p ∈ ps, p ∈ σ.live) (hperm : qs.Perm ps) :
    (∀ r ∈ (Heap.freeAll σ.heap qs).2, r = 0) ∧
      Sees (Heap.freeAll σ.heap qs).1
        (headers σ.heap.heapStart true (coalesce (freed ps σ.heap.heapStart bs))) := by
  obtain ⟨hzeros, hrep⟩ := h.freeAll (hperm.nodup_iff.mpr hnd) fun q hq => hsub q (hperm.mem_iff.mp hq)
  have hsees := hrep.sees
  rw [freed_perm hperm, (freeAll_globals σ.heap qs).1] at hsees
  exact ⟨hzeros, hsees⟩

/-! ### All blocks -/

variable {os : Os} {σ σ' : State}

theorem Step.globals (hs : Step σ σ') :
    σ'.heap.heapStart = σ.heap.heapStart ∧ σ'.heap.allocSize = σ.heap.allocSize := by
  cases hs with
  | alloc size fuel h' r hsize ha =>
    by_cases h₁ : size.slt 1
    · rw [Heap.alloc, if_pos h₁] at ha
      cases ha
      exact ⟨rfl, rfl⟩
    · rw [Heap.alloc, if_neg h₁, Option.map_eq_some_iff] at ha
      obtain ⟨⟨best, w⟩, -, hout⟩ := ha
      cases best with
      | none => cases hout; exact ⟨rfl, rfl⟩
      | some p => cases hout; exact ⟨rfl, rfl⟩
  | free p hp => exact freeBlock_globals _ p
  | write => exact ⟨rfl, rfl⟩

/-- With all payloads freed there is one block. -/
theorem Ok.freed_all {bs : List Block} (h : Ok σ bs) (hpos : 0 < σ.heap.allocSize.toNat) {ps : List ℕ}
    (hperm : ps.Perm σ.live) :
    coalesce (freed ps σ.heap.heapStart bs) = [⟨σ.heap.allocSize.toNat, false⟩] := by
  have hall : ∀ x ∈ allocs σ.heap.heapStart bs, x + 4 ∈ ps := fun x hx =>
    (hperm.trans h.live).mem_iff.mpr (List.mem_map.mpr ⟨x, hx, rfl⟩)
  have hne : freed ps σ.heap.heapStart bs ≠ [] := by
    intro hnil
    have htotal : total (freed ps σ.heap.heapStart bs) = total bs := total_freed
    rw [hnil, h.rep.total_eq] at htotal
    exact absurd htotal.symm (Nat.pos_iff_ne_zero.mp hpos)
  rw [coalesce_all_free hne (Heap.freed_all hall), total_freed, h.rep.total_eq]

/-- Live pointers are those of different blocks. -/
theorem Ok.nodup {bs : List Block} (h : Ok σ bs) : σ.live.Nodup := by
  apply h.live.nodup_iff.mpr
  rw [allocs_eq, List.map_map, List.Nodup, List.pairwise_map]
  refine h.rep.tiles.1.payloads_pairwise.imp_of_mem fun hq hq' hle heq => ?_
  have hb := h.rep.tiles.1.payload_bounds hq
  have hb' := h.rep.tiles.1.payload_bounds hq'
  simp only [comp_apply] at heq
  omega

/-- One free block of `alloc_size` bytes. -/
def oneFree (h : Heap) : List Header := [⟨h.heapStart, h.allocSize, false, true⟩]

/-- The heap begins as one block. -/
theorem init_sees {h₀ : Heap} {size₀ : Word} (hinit : (initHeap os h₀ size₀).2 = 0) :
    0 < (initHeap os h₀ size₀).1.allocSize.toNat ∧
      Sees (initHeap os h₀ size₀).1 (oneFree (initHeap os h₀ size₀).1) := by
  obtain ⟨n, hrep⟩ := initHeap_rep hinit
  have hn := hrep.total_eq
  have hpos := hrep.tiles.1.pos ⟨n, false⟩ (by simp)
  rw [total_cons, total_nil, Nat.add_zero] at hn
  dsimp only at hn hpos
  have hsees := hrep.sees
  rw [hn, headers, BitVec.ofNat_toNat, BitVec.setWidth_eq] at hsees
  exact ⟨hn ▸ hpos, hsees⟩

theorem globals_of_run {h₀ : Heap} {σ₀ : State} (hrun : ReflTransGen Step σ₀ σ) (h : σ₀.heap = h₀) :
    σ.heap.heapStart = h₀.heapStart ∧ σ.heap.allocSize = h₀.allocSize := by
  induction hrun with
  | refl => exact ⟨h ▸ rfl, h ▸ rfl⟩
  | tail _ hs ih =>
    obtain ⟨hstart, hsize⟩ := hs.globals
    exact ⟨hstart.trans ih.1, hsize.trans ih.2⟩

/-- What was carved out of a free block becomes one with the rest of it again. -/
theorem coalesce_carve {req n : ℕ} (r : List Block) (hle : req ≤ n) :
    ∃ k rest, carve req n ++ r = ⟨k, true⟩ :: rest ∧
      coalesce (⟨k, false⟩ :: rest) = coalesce (⟨n, false⟩ :: r) := by
  unfold carve
  split
  · refine ⟨req, ⟨n - req, false⟩ :: r, rfl, ?_⟩
    rw [coalesce_cons, coalesce_cons, coalesce_cons, join_join, Nat.add_sub_cancel' hle]
  · exact ⟨n, r, rfl, rfl⟩

/-- An allocation that is freed at once leaves the blocks that were there. -/
theorem Rep.alloc_free {h h' : Heap} {bs : List Block} (hrep : Rep h bs) {size : Word} {fuel p : ℕ}
    (hsize : size.toInt + 11 < 2 ^ 31) (ha : alloc fuel h size = some (h', some p)) :
    (Heap.freeBlock h' p).2 = 0 ∧ Rep (Heap.freeBlock h' p).1 bs ∧ h'.heapStart = h.heapStart := by
  obtain ⟨out, hout, -, huniq⟩ := alloc_spec hrep hsize
  obtain rfl := huniq fuel _ ha
  cases hout with
  | @fit l r n m h₁ hbs hbest hrep' =>
    subst hbs
    obtain ⟨k, rest, hk, hco⟩ := coalesce_carve r hbest.fits
    rw [hk] at hrep'
    have hsame : coalesce (l ++ ⟨k, false⟩ :: rest) = l ++ ⟨n, false⟩ :: r := by
      rw [coalesce, List.foldr_append, ← coalesce, hco, coalesce, ← List.foldr_append, ← coalesce,
        coalesce_eq_self hrep.coalesced]
    have hfree := hrep'.freeBlock
    dsimp only at hfree
    rw [hfree]
    exact ⟨rfl, hsame ▸ hrep'.release, rfl⟩

/-! ### The result -/

/-- **Freeing is confluent and coalesces fully.** In a run from a successful
`init_heap`, and for a set `ps` of live pointers:

* freeing them in any order succeeds, each call returning 0, and ends in one sequence of
  blocks, whatever the order;
* when they are all the live pointers, that is the one free block of `alloc_size` bytes
  that `init_heap` left;
* and `free_block` of what `alloc` has just returned succeeds and restores the sequence
  that `alloc` found. -/
theorem free_confluent {h₀ : Heap} {size₀ : Word} (hinit : (initHeap os h₀ size₀).2 = 0)
    (hrun : ReflTransGen Step ⟨(initHeap os h₀ size₀).1, []⟩ σ) :
    (∀ ps : List ℕ, ps.Nodup → (∀ p ∈ ps, p ∈ σ.live) →
      ∃ seq, ∀ qs, qs.Perm ps → (∀ r ∈ (freeAll σ.heap qs).2, r = 0) ∧ Sees (freeAll σ.heap qs).1 seq) ∧
    (Sees (initHeap os h₀ size₀).1 (oneFree (initHeap os h₀ size₀).1) ∧
      ∀ qs, qs.Perm σ.live → Sees (freeAll σ.heap qs).1 (oneFree (initHeap os h₀ size₀).1)) ∧
    ∀ (size : Word) (fuel : ℕ) (h' : Heap) (p : ℕ), size.toInt + 11 < 2 ^ 31 →
      alloc fuel σ.heap size = some (h', some p) →
      (freeBlock h' p).2 = 0 ∧ ∃ seq, Sees σ.heap seq ∧ Sees (freeBlock h' p).1 seq := by
  have hreach : Reachable os σ := ⟨h₀, size₀, hinit, hrun⟩
  obtain ⟨bs, hok⟩ := hreach.ok
  obtain ⟨hpos, hsees⟩ := init_sees hinit
  obtain ⟨hstart, hsize⟩ := globals_of_run hrun rfl
  refine ⟨fun ps hnd hsub => ⟨_, fun qs hperm => hok.freeAll_perm hnd hsub hperm⟩, ⟨hsees, ?_⟩, ?_⟩
  · intro qs hperm
    obtain ⟨-, hall⟩ := hok.freeAll_perm hok.nodup (fun p hp => hp) hperm
    rw [hok.freed_all (hsize ▸ hpos) (.refl _)] at hall
    simpa only [headers, oneFree, hstart, hsize, BitVec.ofNat_toNat, BitVec.setWidth_eq] using hall
  · intro size fuel h' p hsmall ha
    obtain ⟨hzero, hrep, hkeep⟩ := hok.rep.alloc_free hsmall ha
    have hsees' := hrep.sees
    rw [(freeBlock_globals h' p).1, hkeep] at hsees'
    exact ⟨hzero, _, hok.rep.sees, hsees'⟩

/-- After `init_heap(20)` and `alloc(4)` twice, freeing the two pointers leaves the block of 24 bytes, whichever is
freed first. -/
theorem free_confluent_one : ∃ h₁ h₂, alloc 2 smallHeap 4 = some (h₁, some 72) ∧ alloc 3 h₁ 4 = some (h₂, some 80) ∧
    Sees (freeAll h₂ [72, 80]).1 [⟨68, 24, false, true⟩] ∧ Sees (freeAll h₂ [80, 72]).1 [⟨68, 24, false, true⟩] := by
  have hinit : (initHeap smallOs ⟨fun _ => 0, 0, 0, false⟩ 20).2 = 0 := by decide
  have hallocs : ((alloc 2 smallHeap 4).bind fun a => (alloc 3 a.1 4).map fun b =>
      decide (a.2 = some 72 ∧ b.2 = some 80)) = some true := by
    decide +kernel
  obtain ⟨⟨h₁, r₁⟩, ha₁, hout⟩ := Option.bind_eq_some_iff.mp hallocs
  obtain ⟨⟨h₂, r₂⟩, ha₂, hout⟩ := Option.map_eq_some_iff.mp hout
  obtain ⟨rfl, rfl⟩ : r₁ = some 72 ∧ r₂ = some 80 := of_decide_eq_true hout
  have hfirst : Step ⟨smallHeap, []⟩ ⟨h₁, [72]⟩ := .alloc 4 2 h₁ (some 72) (by decide) ha₁
  have hsecond : Step ⟨h₁, [72]⟩ ⟨h₂, [80, 72]⟩ := .alloc 4 3 h₂ (some 80) (by decide) ha₂
  have hrun : ReflTransGen Step ⟨smallHeap, []⟩ ⟨h₂, [80, 72]⟩ := (ReflTransGen.single hfirst).tail hsecond
  have hfrom : oneFree smallHeap = [⟨68, 24, false, true⟩] := by decide
  have hall := (free_confluent hinit hrun).2.1.2
  exact ⟨h₁, h₂, ha₁, ha₂, hfrom ▸ hall [72, 80] (.swap _ _ _), hfrom ▸ hall [80, 72] (.refl _)⟩

end SdeSystems.Heap
