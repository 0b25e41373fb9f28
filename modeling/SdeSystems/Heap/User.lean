import SdeSystems.Heap.Invariant
import Mathlib.Data.List.Forall2

/-!
# What a user of the heap relies on

A run of the heap as its user sees it: an allocation is a pointer with the size that was asked
for, and the user writes to the bytes from the pointer up to that size only. With each
allocation goes what the user last wrote at each of its bytes.

Every payload lies in the payload of a block of its own, so the payloads stay apart from each
other and from the headers and footers; and the changes that `alloc` and `free_block` make are
in free blocks, in the block at hand and in headers, so a payload reads back what was written.
-/

namespace SdeSystems.Heap

open Lib Function Relation

/-- A live allocation. -/
structure Live where
  /-- The pointer that `alloc` returned. -/
  ptr : ℕ
  /-- The size it was called with. -/
  size : ℕ
  /-- What the user last wrote at an address, where the user wrote. -/
  wrote : ℕ → Option UInt8

/-- The heap and the live allocations. -/
structure User where
  /-- The heap. -/
  heap : Heap
  /-- The live allocations, the last one first. -/
  live : List Live

/-- One call, or one write of the user. -/
inductive User.Step : User → User → Prop
  /-- A call of `alloc` with a size that does not come near the largest `int`. -/
  | alloc {u : User} (size : Word) (fuel : ℕ) (h' : Heap) (r : Option ℕ) (hsize : size.toInt + 11 < 2 ^ 31)
    (h : Heap.alloc fuel u.heap size = some (h', r)) :
    Step u ⟨h', (r.map fun p => ⟨p, size.toNat, fun _ => none⟩).toList ++ u.live⟩
  /-- A call of `free_block` with a live pointer. -/
  | free (h : Heap) (l : List Live) (v : Live) (r : List Live) :
    Step ⟨h, l ++ v :: r⟩ ⟨(freeBlock h v.ptr).1, l ++ r⟩
  /-- A write to a byte of a live allocation. -/
  | write (h : Heap) (l : List Live) (v : Live) (r : List Live) (x : ℕ) (b : UInt8) (hlo : v.ptr ≤ x)
    (hhi : x < v.ptr + v.size) :
    Step ⟨h, l ++ v :: r⟩
      ⟨{ h with mem := update h.mem x b }, l ++ { v with wrote := update v.wrote x (some b) } :: r⟩

/-- The states of all runs that begin with a successful `init_heap`. -/
def User.Reachable (os : Os) (u : User) : Prop :=
  ∃ h size, (initHeap os h size).2 = 0 ∧ ReflTransGen User.Step ⟨(initHeap os h size).1, []⟩ u

/-- The bytes from `a` to `b` and those from `c` to `d` are apart. -/
def Apart (a b c d : ℕ) : Prop := b ≤ c ∨ d ≤ a

theorem Apart.symm {a b c d : ℕ} (h : Apart a b c d) : Apart c d a b := h.elim .inr .inl

/-- What the user relies on, in one state. -/
structure Served (u : User) : Prop where
  /-- The pointers are multiples of 8. -/
  aligned : ∀ v ∈ u.live, v.ptr % 8 = 0
  /-- The payloads lie inside the heap. -/
  inside : ∀ v ∈ u.live, u.heap.heapStart ≤ v.ptr ∧ v.ptr + v.size ≤ u.heap.heapStart + u.heap.allocSize.toNat
  /-- The payloads are apart from each other. -/
  apart : u.live.Pairwise fun v w => Apart v.ptr (v.ptr + v.size) w.ptr (w.ptr + w.size)
  /-- The heap is a list of blocks, and the payloads are apart from all their headers and from
  the footers of the free ones. -/
  words : ∃ bs, Rep u.heap bs ∧ ∀ v ∈ u.live, ∀ l b r, bs = l ++ b :: r →
    let block := u.heap.heapStart + total l
    Apart v.ptr (v.ptr + v.size) block (block + 4) ∧
      (b.allocated = false → Apart v.ptr (v.ptr + v.size) (block + b.size - 4) (block + b.size))
  /-- The payloads read back what was written. -/
  reads : ∀ v ∈ u.live, ∀ x b, v.wrote x = some b → u.heap.mem x = b

/-! ### Payloads in blocks -/

/-- The allocation lies in a payload of the heap. -/
def Live.In (v : Live) (q : ℕ × ℕ) : Prop := v.ptr = q.1 ∧ v.size ≤ q.2

/-- The invariant of a run: the payloads of the heap are those of the live allocations, one
each. -/
structure Keeps (u : User) (bs : List Block) : Prop where
  /-- The heap is the blocks `bs`. -/
  rep : Rep u.heap bs
  /-- Each allocation has a payload of its own. -/
  rooms : ∃ qs, qs.Perm (payloads u.heap.heapStart bs) ∧ u.live.Forall₂ Live.In qs
  /-- What the user wrote is in the payload, and it is still there. -/
  wrote : ∀ v ∈ u.live, ∀ x b, v.wrote x = some b → v.ptr ≤ x ∧ x < v.ptr + v.size ∧ u.heap.mem x = b

section

variable {live : List Live} {qs : List (ℕ × ℕ)} {v : Live}

theorem exists_room (h : live.Forall₂ Live.In qs) (hv : v ∈ live) : ∃ q ∈ qs, v.In q := by
  induction h with
  | nil => cases hv
  | @cons w q live qs hw _ ih =>
    rcases List.mem_cons.mp hv with rfl | hv
    · exact ⟨q, List.mem_cons_self, hw⟩
    · obtain ⟨q', hq', hin⟩ := ih hv
      exact ⟨q', List.mem_cons_of_mem _ hq', hin⟩

/-- Allocations in payloads that are apart are apart. -/
theorem pairwise_apart (h : live.Forall₂ Live.In qs)
    (hq : qs.Pairwise fun q q' => Apart q.1 (q.1 + q.2) q'.1 (q'.1 + q'.2)) :
    live.Pairwise fun v w => Apart v.ptr (v.ptr + v.size) w.ptr (w.ptr + w.size) := by
  induction h with
  | nil => exact .nil
  | @cons v q live qs hv hrest ih =>
    obtain ⟨hhead, htail⟩ := List.pairwise_cons.mp hq
    refine List.pairwise_cons.mpr ⟨?_, ih htail⟩
    intro w hw
    obtain ⟨q', hq', hin⟩ := exists_room hrest hw
    have hap := hhead q' hq'
    unfold Apart at hap ⊢
    unfold Live.In at hv hin
    omega

/-- One allocation is taken out, with its payload. -/
theorem forall₂_middle {l r : List Live} (h : (l ++ v :: r).Forall₂ Live.In qs) :
    ∃ ql q qr, qs = ql ++ q :: qr ∧ v.In q ∧ (l ++ r).Forall₂ Live.In (ql ++ qr) := by
  induction l generalizing qs with
  | nil =>
    obtain ⟨q, qr, hv, hr, rfl⟩ := List.forall₂_cons_left_iff.mp h
    exact ⟨[], q, qr, rfl, hv, hr⟩
  | cons w l ih =>
    obtain ⟨q', qs', hw, hrest, rfl⟩ := List.forall₂_cons_left_iff.mp h
    obtain ⟨ql, q, qr, rfl, hv, hr⟩ := ih hrest
    exact ⟨q' :: ql, q, qr, rfl, hv, .cons hw hr⟩

theorem forall₂_replace {w : Live} {l r : List Live} (h : (l ++ v :: r).Forall₂ Live.In qs) (hptr : w.ptr = v.ptr)
    (hsize : w.size = v.size) : (l ++ w :: r).Forall₂ Live.In qs := by
  induction l generalizing qs with
  | nil =>
    obtain ⟨q, qr, ⟨hv, hv'⟩, hr, rfl⟩ := List.forall₂_cons_left_iff.mp h
    exact .cons ⟨hptr.trans hv, hsize ▸ hv'⟩ hr
  | cons x l ih =>
    obtain ⟨q', qs', hx, hrest, rfl⟩ := List.forall₂_cons_left_iff.mp h
    exact .cons hx (ih hrest)

end

variable {os : Os} {u u' : User} {bs : List Block}

theorem Keeps.room (h : Keeps u bs) {v : Live} (hv : v ∈ u.live) :
    ∃ q ∈ payloads u.heap.heapStart bs, v.In q := by
  obtain ⟨qs, hperm, hall⟩ := h.rooms
  obtain ⟨q, hq, hin⟩ := exists_room hall hv
  exact ⟨q, hperm.mem_iff.mp hq, hin⟩

theorem Keeps.apart (h : Keeps u bs) :
    u.live.Pairwise fun v w => Apart v.ptr (v.ptr + v.size) w.ptr (w.ptr + w.size) := by
  obtain ⟨qs, hperm, hall⟩ := h.rooms
  have hpay : (payloads u.heap.heapStart bs).Pairwise fun q q' => Apart q.1 (q.1 + q.2) q'.1 (q'.1 + q'.2) :=
    h.rep.tiles.1.payloads_pairwise.imp fun hle => .inl hle
  exact pairwise_apart hall (hperm.symm.pairwise hpay Apart.symm)

/-- A payload is apart from every header and from every footer of a free block. -/
theorem Keeps.words (h : Keeps u bs) {v : Live} (hv : v ∈ u.live) {l r : List Block} {b : Block}
    (hbs : bs = l ++ b :: r) :
    let block := u.heap.heapStart + total l
    Apart v.ptr (v.ptr + v.size) block (block + 4) ∧
      (b.allocated = false → Apart v.ptr (v.ptr + v.size) (block + b.size - 4) (block + b.size)) := by
  obtain ⟨q, hq, hptr, hsize⟩ := h.room hv
  subst hbs
  obtain ⟨hl, hb, hh, hf, hr⟩ : Seg u.heap.mem u.heap.heapStart true l ∧ _ := seg_append.mp h.rep.tiles.1
  rw [payloads_append, List.mem_append, payloads] at hq
  unfold Apart
  dsimp only
  rcases hq with hq | hq
  · have := hl.payload_bounds hq
    omega
  · by_cases hal : b.allocated = true
    · rw [if_pos hal] at hq
      rcases List.mem_cons.mp hq with rfl | hq
      · dsimp only at hptr
        exact ⟨by omega, by simp [hal]⟩
      · have := hr.payload_bounds hq
        omega
    · rw [if_neg hal] at hq
      have := hr.payload_bounds hq
      omega

theorem Keeps.served (h : Keeps u bs) : Served u where
  aligned v hv := by
    obtain ⟨q, hq, hptr, -⟩ := h.room hv
    have := h.rep.tiles.1.payload_bounds hq
    have := h.rep.start
    omega
  inside v hv := by
    obtain ⟨q, hq, hptr, hsize⟩ := h.room hv
    have := h.rep.tiles.1.payload_bounds hq
    have := h.rep.total_eq
    omega
  apart := h.apart
  words := ⟨bs, h.rep, fun v hv l b r hbs => h.words hv hbs⟩
  reads v hv x b hw := (h.wrote v hv x b hw).2.2

/-! ### The calls -/

/-- `alloc` does not change the payloads there are. -/
theorem agreeOn_place_payload {h : Heap} {l r : List Block} {n req : ℕ} (hrep : Rep h (l ++ ⟨n, false⟩ :: r))
    (hreq : 4 ≤ req) (hle : req ≤ n) {q : ℕ × ℕ} (hq : q ∈ payloads h.heapStart (l ++ ⟨n, false⟩ :: r)) :
    h.mem.AgreeOn (place h.mem (h.heapStart + total l) n req) q.1 (q.1 + q.2) := by
  have hlt := hrep.total_lt
  simp only [total_append, total_cons] at hlt
  obtain ⟨hl, -, -, -, hr⟩ : Seg h.mem h.heapStart true l ∧ _ := seg_append.mp hrep.tiles.1
  simp only [payloads_append, payloads, Bool.false_eq_true, if_false, List.mem_append] at hq
  apply agreeOn_place (by omega) hreq hle
  rcases hq with hq | hq
  · have := hl.payload_bounds hq
    omega
  · have hlow := (hr.payload_bounds hq).1
    dsimp only at hlow
    omega

/-- What was written is still there when the payloads have not changed. -/
theorem Keeps.wrote_of_agreeOn (h : Keeps u bs) {m : Bytes} {v : Live} (hv : v ∈ u.live)
    (hm : u.heap.mem.AgreeOn m v.ptr (v.ptr + v.size)) (x : ℕ) (b : UInt8) (hw : v.wrote x = some b) :
    v.ptr ≤ x ∧ x < v.ptr + v.size ∧ m x = b := by
  obtain ⟨hlo, hhi, hx⟩ := h.wrote v hv x b hw
  exact ⟨hlo, hhi, (hm x hlo hhi).trans hx⟩

/-- An allocation is as its payload is. -/
theorem Live.In.agreeOn {v : Live} {q : ℕ × ℕ} (h : v.In q) {m m' : Bytes} (hm : m.AgreeOn m' q.1 (q.1 + q.2)) :
    m.AgreeOn m' v.ptr (v.ptr + v.size) := by
  obtain ⟨hptr, hsize⟩ := h
  exact hm.mono (by omega) (by omega)

/-- **A call of `alloc`**: the new payload is apart from those there were, and no byte of these
has changed. -/
theorem Keeps.alloc (h : Keeps u bs) {size : Word} {fuel : ℕ} {h' : Heap} {r : Option ℕ}
    (hsize : size.toInt + 11 < 2 ^ 31) (ha : Heap.alloc fuel u.heap size = some (h', r)) :
    (∃ bs', Keeps ⟨h', (r.map fun p => ⟨p, size.toNat, fun _ => none⟩).toList ++ u.live⟩ bs') ∧
      ∀ v ∈ u.live, u.heap.mem.AgreeOn h'.mem v.ptr (v.ptr + v.size) := by
  obtain ⟨out, ⟨-, huniq⟩, hout⟩ := alloc_out h.rep.laid hsize
  obtain rfl := huniq fuel _ ha
  rcases hout with ⟨heq, -⟩ | ⟨h₁, l, n, r', rfl, hbest, heq⟩
  · obtain ⟨rfl, rfl⟩ := Prod.mk.inj heq
    exact ⟨⟨bs, h⟩, fun v _ => .refl _ _ _⟩
  · obtain ⟨rfl, rfl⟩ := Prod.mk.inj heq
    have hge := le_roundUp size.toNat
    have hframe (v : Live) (hv : v ∈ u.live) : u.heap.mem.AgreeOn
        (place u.heap.mem (u.heap.heapStart + total l) n (roundUp size.toNat)) v.ptr (v.ptr + v.size) := by
      obtain ⟨q, hq, hin⟩ := h.room hv
      exact hin.agreeOn (agreeOn_place_payload h.rep (by omega) hbest.fits hq)
    refine ⟨⟨_, h.rep.fit (dvd_roundUp _) (eight_le_roundUp h₁) hbest.fits, ?_, ?_⟩, hframe⟩
    · obtain ⟨qs, hperm, hall⟩ := h.rooms
      obtain ⟨k, hk, hle⟩ : ∃ k, payloads (u.heap.heapStart + total l) (carve (roundUp size.toNat) n) =
          [(u.heap.heapStart + total l + 4, k - 4)] ∧ (roundUp size.toNat ≤ n → roundUp size.toNat ≤ k) := payloads_carve
      have hk' := hle hbest.fits
      refine ⟨(u.heap.heapStart + total l + 4, k - 4) :: qs, ?_, .cons ⟨rfl, by dsimp only; omega⟩ hall⟩
      simp only [payloads_append, payloads, Bool.false_eq_true, if_false] at hperm
      simp only [payloads_append, hk, total_carve, List.singleton_append]
      exact (hperm.cons _).trans List.perm_middle.symm
    · intro v hv
      rcases List.mem_cons.mp hv with rfl | hv
      · intro x b hw
        cases hw
      · exact h.wrote_of_agreeOn hv (hframe v hv)

/-- **A call of `free_block`**: no byte of another payload has changed. -/
theorem Keeps.free {h : Heap} {l r : List Live} {v : Live} (hk : Keeps ⟨h, l ++ v :: r⟩ bs) :
    (∃ bs', Keeps ⟨(freeBlock h v.ptr).1, l ++ r⟩ bs') ∧
      ∀ w ∈ l ++ r, h.mem.AgreeOn (freeBlock h v.ptr).1.mem w.ptr (w.ptr + w.size) := by
  obtain ⟨qs, hperm, hall⟩ := hk.rooms
  obtain ⟨ql, q, qr, rfl, ⟨hptr, -⟩, hrest⟩ := forall₂_middle hall
  have hq : q ∈ payloads h.heapStart bs := hperm.mem_iff.mp (by simp)
  obtain ⟨bl, n, br, rfl, rfl⟩ := exists_of_mem_payloads hq
  have hrep : Rep h (bl ++ ⟨n, true⟩ :: br) := hk.rep
  dsimp only at hptr hperm
  rw [hptr, hrep.freeBlock]
  dsimp only
  -- the payloads that are left
  have hleft : (ql ++ qr).Perm (payloads h.heapStart (coalesce (bl ++ ⟨n, false⟩ :: br))) := by
    rw [payloads_coalesce]
    simp only [payloads_append, payloads, if_true] at hperm
    simp only [payloads_append, payloads, Bool.false_eq_true, if_false]
    exact List.Perm.cons_inv (List.perm_middle.symm.trans (hperm.trans List.perm_middle))
  have hframe (w : Live) (hw : w ∈ l ++ r) :
      h.mem.AgreeOn (release h.mem (h.heapStart + total bl)) w.ptr (w.ptr + w.size) := by
    obtain ⟨q, hq, hin⟩ := exists_room hrest hw
    exact hin.agreeOn ((release_spec hrep.tiles hrep.total_lt hrep.coalesced).2 q (hleft.mem_iff.mp hq))
  refine ⟨⟨_, hrep.release, ⟨_, hleft, hrest⟩, ?_⟩, hframe⟩
  intro w hw
  have hmem : w ∈ l ++ v :: r := List.mem_append.mpr ((List.mem_append.mp hw).imp_right (List.mem_cons_of_mem v))
  dsimp only
  exact hk.wrote_of_agreeOn hmem (hframe w hw)

/-- A write of the user. -/
theorem Keeps.write {h : Heap} {l r : List Live} {v : Live} (hk : Keeps ⟨h, l ++ v :: r⟩ bs) {x : ℕ} {b : UInt8}
    (hlo : v.ptr ≤ x) (hhi : x < v.ptr + v.size) :
    Keeps ⟨{ h with mem := update h.mem x b }, l ++ { v with wrote := update v.wrote x (some b) } :: r⟩ bs := by
  obtain ⟨q, hq, hptr, hsize⟩ := hk.room (v := v) (by simp)
  obtain ⟨qs, hperm, hall⟩ := hk.rooms
  refine ⟨hk.rep.write hq (by omega) (by omega), ⟨qs, hperm, ?_⟩, fun w hw => ?_⟩
  · exact forall₂_replace hall rfl rfl
  have hother (w : Live) (hw : w ∈ l ++ v :: r) (hap : Apart v.ptr (v.ptr + v.size) w.ptr (w.ptr + w.size))
      (y : ℕ) (c : UInt8) (hy : w.wrote y = some c) : w.ptr ≤ y ∧ y < w.ptr + w.size ∧ update h.mem x b y = c := by
    refine hk.wrote_of_agreeOn hw ?_ y c hy
    intro z hz hz'
    unfold Apart at hap
    exact update_of_ne (by omega) ..
  obtain ⟨-, hv, hl⟩ := List.pairwise_append.mp hk.apart
  rcases List.mem_append.mp hw with hw | hw
  · exact hother w (by simp [hw]) (hl w hw v List.mem_cons_self).symm
  rcases List.mem_cons.mp hw with rfl | hw
  · intro y c hy
    dsimp only at hy ⊢
    by_cases hyx : y = x
    · subst hyx
      rw [update_self] at hy ⊢
      exact ⟨hlo, hhi, Option.some.inj hy⟩
    · rw [update_of_ne hyx] at hy ⊢
      exact hk.wrote v (by simp) y c hy
  · exact hother w (by simp [hw]) ((List.pairwise_cons.mp hv).1 w hw)

/-- One call, or one write, keeps the invariant. -/
theorem Keeps.step (h : Keeps u bs) (hs : u.Step u') : ∃ bs', Keeps u' bs' := by
  cases hs with
  | alloc size fuel h' r hsize ha => exact (h.alloc hsize ha).1
  | free => exact h.free.1
  | write h₀ l v r x b hlo hhi => exact ⟨bs, h.write hlo hhi⟩

theorem User.Reachable.keeps (h : u.Reachable os) : ∃ bs, Keeps u bs := by
  obtain ⟨h₀, size, hinit, hrun⟩ := h
  induction hrun with
  | refl =>
    obtain ⟨n, hrep⟩ := initHeap_rep hinit
    exact ⟨_, hrep, ⟨[], .nil, .nil⟩, by simp⟩
  | tail _ hs ih =>
    obtain ⟨bs, hk⟩ := ih
    exact hk.step hs

/-- **What a user of the heap relies on.** In every run of calls and of writes to live payloads,
the pointers are multiples of 8, the payloads lie inside the heap, apart from each other, from
every header and from every footer, and they read back what was written; and no call of `alloc`
and no `free_block` of another block changes a byte of them. -/
theorem heap_serves_user (h : u.Reachable os) :
    Served u ∧
      (∀ size fuel h' r, size.toInt + 11 < 2 ^ 31 → Heap.alloc fuel u.heap size = some (h', r) →
        ∀ v ∈ u.live, u.heap.mem.AgreeOn h'.mem v.ptr (v.ptr + v.size)) ∧
      ∀ l v r, u.live = l ++ v :: r →
        ∀ w ∈ l ++ r, u.heap.mem.AgreeOn (freeBlock u.heap v.ptr).1.mem w.ptr (w.ptr + w.size) := by
  obtain ⟨bs, hk⟩ := h.keeps
  refine ⟨hk.served, fun size fuel h' r hsize ha => (hk.alloc hsize ha).2, ?_⟩
  intro l v r hlive
  obtain ⟨heap, live⟩ := u
  obtain rfl : live = l ++ v :: r := hlive
  exact hk.free.2

/-- After `init_heap(20)`, `alloc(4)` and a write of 7 to its payload, `alloc(1)` leaves the 7. -/
theorem heap_serves_user_write : ∃ h h', Heap.alloc 2 smallHeap 4 = some (h, some 72) ∧
    Heap.alloc 3 { h with mem := update h.mem 73 7 } 1 = some (h', some 80) ∧ h'.mem 73 = 7 := by
  have hinit : (initHeap smallOs ⟨fun _ => 0, 0, 0, false⟩ 20).2 = 0 := by decide
  obtain ⟨h, ha⟩ : ∃ h, Heap.alloc 2 smallHeap 4 = some (h, some 72) := ⟨_, rfl⟩
  obtain ⟨h', ha'⟩ : ∃ h', Heap.alloc 3 { h with mem := update h.mem 73 7 } 1 = some (h', some 80) := by
    cases ha
    exact ⟨_, rfl⟩
  have hs₁ : User.Step ⟨smallHeap, []⟩ ⟨h, [⟨72, 4, fun _ => none⟩]⟩ := .alloc 4 2 h (some 72) (by decide) ha
  have hs₂ : User.Step ⟨h, [⟨72, 4, fun _ => none⟩]⟩
      ⟨{ h with mem := update h.mem 73 7 }, [⟨72, 4, update (fun _ => none) 73 (some 7)⟩]⟩ :=
    .write h [] ⟨72, 4, fun _ => none⟩ [] 73 7 (by decide) (by decide)
  have hs₃ : User.Step ⟨{ h with mem := update h.mem 73 7 }, [⟨72, 4, update (fun _ => none) 73 (some 7)⟩]⟩
      ⟨h', [⟨80, 1, fun _ => none⟩, ⟨72, 4, update (fun _ => none) 73 (some 7)⟩]⟩ :=
    .alloc 1 3 h' (some 80) (by decide) ha'
  have hrun := ((ReflTransGen.single hs₁).tail hs₂).tail hs₃
  have hreach : User.Reachable smallOs _ := ⟨_, _, hinit, hrun⟩
  exact ⟨h, h', ha, ha', (heap_serves_user hreach).1.reads ⟨72, 4, update (fun _ => none) 73 (some 7)⟩
    (by simp) 73 7 (by simp)⟩

end SdeSystems.Heap
