import Mathlib.Data.List.Nodup
import Mathlib.Data.List.Perm.Basic
import Mathlib.Data.Nat.Notation

/-!
# Least recently used

A set of at most `cap` keys with the least recently used key as the one to go: the keys in a list, the
most recent first (`access`). And the usual implementation of it: items in any order, each with the
time of its last use. `Ranks` says that the items, in the order of their times, have the keys of
the list; it is kept by the three ways to bring an item up to date.
-/

namespace SdeSystems.Lib

variable {α σ : Type*}

/-- What an access to a key finds. -/
inductive Outcome
  /-- The key is there. -/
  | hit
  /-- It is not, and there is room. -/
  | fill
  /-- It is not, and there is no room: the last key goes. -/
  | evict
  deriving DecidableEq, Repr

/-- An access to the key `a`. -/
def access [DecidableEq α] (cap : ℕ) (l : List α) (a : α) : List α × Outcome :=
  if a ∈ l then (a :: l.erase a, .hit)
  else if l.length = cap then (a :: l.dropLast, .evict)
  else (a :: l, .fill)

/-- The items, with the latest first, have the keys of the list, and none is later than `now`. -/
def Ranks (key : σ → α) (time : σ → ℕ) (items : List σ) (now : ℕ) (l : List α) : Prop :=
  ∃ order : List σ, order.Perm items ∧ order.Pairwise (fun x y => time y < time x) ∧ order.map key = l ∧
    ∀ x ∈ order, time x ≤ now

section

variable {key : σ → α} {time : σ → ℕ} {items items' rest : List σ} {now : ℕ} {l : List α} {x : σ}

theorem ranks_nil (now : ℕ) : Ranks key time [] now [] := ⟨[], .refl _, .nil, rfl, by simp⟩

theorem Ranks.perm (h : Ranks key time items now l) (hp : items.Perm items') : Ranks key time items' now l := by
  obtain ⟨order, ho, hrest⟩ := h
  exact ⟨order, ho.trans hp, hrest⟩

theorem Ranks.mono {now' : ℕ} (h : Ranks key time items now l) (hle : now ≤ now') : Ranks key time items now' l := by
  obtain ⟨order, hp, hs, hk, ht⟩ := h
  exact ⟨order, hp, hs, hk, fun x hx => Nat.le_trans (ht x hx) hle⟩

theorem Ranks.length (h : Ranks key time items now l) : l.length = items.length := by
  obtain ⟨order, hp, -, rfl, -⟩ := h
  rw [List.length_map, hp.length_eq]

theorem Ranks.mem (h : Ranks key time items now l) {a : α} : a ∈ l ↔ ∃ x ∈ items, key x = a := by
  obtain ⟨order, hp, -, rfl, -⟩ := h
  simp only [List.mem_map, hp.mem_iff]

/-- A new item that is later than all. -/
theorem Ranks.cons (h : Ranks key time items now l) (hx : time x = now + 1) :
    Ranks key time (x :: items) (now + 1) (key x :: l) := by
  obtain ⟨order, hp, hs, rfl, ht⟩ := h
  refine ⟨x :: order, hp.cons x, List.pairwise_cons.mpr ⟨?_, hs⟩, rfl, ?_⟩
  · intro y hy
    have := ht y hy
    omega
  · intro y hy
    rcases List.mem_cons.mp hy with rfl | hy
    · omega
    · have := ht y hy
      omega

/-- One item is taken out: so is its key. -/
theorem Ranks.remove [DecidableEq α] (h : Ranks key time items now l) (hp : items.Perm (x :: rest)) (hl : l.Nodup) :
    Ranks key time rest now (l.erase (key x)) := by
  obtain ⟨order, ho, hs, rfl, ht⟩ := h
  have hx : x ∈ order := (ho.trans hp).mem_iff.mpr (by simp)
  obtain ⟨o₁, o₂, rfl⟩ := List.append_of_mem hx
  have hperm : (o₁ ++ o₂).Perm rest := (List.perm_middle.symm.trans (ho.trans hp)).cons_inv
  have hnot : key x ∉ o₁.map key := by
    rw [List.map_append, List.map_cons] at hl
    exact fun hmem => (List.nodup_cons.mp (List.nodup_middle.mp hl)).1 (by simp [hmem])
  refine ⟨o₁ ++ o₂, hperm, hs.sublist ((List.sublist_cons_self x o₂).append_left o₁), ?_, fun y hy => ht y ?_⟩
  · rw [List.map_append, List.map_append, List.map_cons, List.erase_append_right _ hnot, List.erase_cons_head]
  · rcases List.mem_append.mp hy with hy | hy <;> simp [hy]

/-- A hit: the item comes to the front. -/
theorem Ranks.hit [DecidableEq α] (x' : σ) (h : Ranks key time items now l) (hp : items.Perm (x :: rest)) (hl : l.Nodup)
    (hkey : key x' = key x) (hx : time x' = now + 1) :
    Ranks key time (x' :: rest) (now + 1) (key x :: l.erase (key x)) := by
  rw [← hkey]
  have hrest := h.remove hp hl
  rw [← hkey] at hrest
  exact hrest.cons hx

/-- An eviction: the item with the smallest time is replaced. -/
theorem Ranks.evict (x' : σ) (h : Ranks key time items now l) (hp : items.Perm (x :: rest))
    (hmin : ∀ y ∈ items, time x ≤ time y) (hx : time x' = now + 1) :
    Ranks key time (x' :: rest) (now + 1) (key x' :: l.dropLast) := by
  obtain ⟨order, ho, hs, rfl, ht⟩ := h
  have hxo : x ∈ order := (ho.trans hp).mem_iff.mpr (by simp)
  obtain ⟨o₁, o₂, rfl⟩ := List.append_of_mem hxo
  obtain rfl : o₂ = [] := by
    cases o₂ with
    | nil => rfl
    | cons y o₂ =>
      -- what stands behind it would have a smaller time
      have hlt := (List.pairwise_cons.mp (List.pairwise_append.mp hs).2.1).1 y (by simp)
      have hle := hmin y (ho.mem_iff.mp (by simp))
      omega
  have hrest : Ranks key time rest now (o₁.map key) := by
    refine ⟨o₁, ?_, (List.pairwise_append.mp hs).1, rfl, fun y hy => ht y (by simp [hy])⟩
    have hperm := (List.perm_middle.symm.trans (ho.trans hp)).cons_inv
    simpa using hperm
  simpa using hrest.cons hx

end

section

variable [DecidableEq α] {cap : ℕ} {l : List α} {a : α}

/-- The keys stay distinct. -/
theorem nodup_access (hl : l.Nodup) : (access cap l a).1.Nodup := by
  unfold access
  split
  · exact List.nodup_cons.mpr ⟨fun h => ((List.Nodup.mem_erase_iff hl).mp h).1 rfl, hl.erase a⟩
  · rename_i ha
    split
    · exact List.nodup_cons.mpr ⟨fun h => ha ((List.dropLast_sublist l).subset h), hl.sublist (List.dropLast_sublist l)⟩
    · exact List.nodup_cons.mpr ⟨ha, hl⟩

/-! ### Inclusion -/

/-- An access puts the key first, and keeps as many of the others as there is room for. -/
theorem access_eq_take (hcap : 0 < cap) (hlen : l.length ≤ cap) : (access cap l a).1 = (a :: l.erase a).take cap := by
  obtain ⟨k, rfl⟩ := Nat.exists_eq_succ_of_ne_zero (Nat.pos_iff_ne_zero.mp hcap)
  rw [List.take_succ_cons]
  unfold access
  split
  · rename_i hmem
    have hle : (l.erase a).length ≤ k := by
      rw [List.length_erase_of_mem hmem]
      omega
    rw [List.take_of_length_le hle]
  · rename_i hmem
    rw [List.erase_of_not_mem hmem]
    split <;> rename_i hfull
    · rw [List.dropLast_eq_take, hfull, Nat.succ_sub_one]
    · rw [List.take_of_length_le (by omega)]

theorem length_access_le (hcap : 0 < cap) (hlen : l.length ≤ cap) : (access cap l a).1.length ≤ cap := by
  rw [access_eq_take hcap hlen]
  exact List.length_take_le _ _

/-- What an erased key leaves of a prefix is a prefix of what it leaves. -/
theorem take_erase_take (n : ℕ) (l : List α) (a : α) : ((l.take (n + 1)).erase a).take n = (l.erase a).take n := by
  induction l generalizing n with
  | nil => rfl
  | cons x l ih =>
    rw [List.take_succ_cons, List.erase_cons, List.erase_cons]
    split
    · rw [List.take_take, Nat.min_self]
    · cases n with
      | zero => rfl
      | succ n => rw [List.take_succ_cons, List.take_succ_cons, ih]

/-- **Inclusion**: with room for one key less, there are the keys that were used last of
those with that room. -/
theorem access_take (hcap : 0 < cap) (hlen : l.length ≤ cap + 1) (a : α) :
    (access cap (l.take cap) a).1 = (access (cap + 1) l a).1.take cap := by
  obtain ⟨k, rfl⟩ := Nat.exists_eq_succ_of_ne_zero (Nat.pos_iff_ne_zero.mp hcap)
  rw [access_eq_take hcap (List.length_take_le _ _), access_eq_take (Nat.succ_pos _) hlen, List.take_take,
    Nat.min_eq_left (Nat.le_succ _), List.take_succ_cons, List.take_succ_cons, take_erase_take]

/-- What is found with less room is found with more. -/
theorem hit_of_hit_take {n : ℕ} (h : (access n (l.take n) a).2 = .hit) : (access cap l a).2 = .hit := by
  have hmem : a ∈ l.take n := by
    unfold access at h
    split at h
    · assumption
    · split at h <;> cases h
  rw [access, if_pos (List.mem_of_mem_take hmem)]

end

end SdeSystems.Lib
