import Mathlib.Algebra.Order.BigOperators.Group.Finset
import Mathlib.Algebra.BigOperators.Group.Finset.Piecewise
import Mathlib.Algebra.BigOperators.Fin
import Mathlib.Data.Multiset.UnionInter
import Mathlib.Algebra.Order.Group.Multiset
import Mathlib.Tactic.Abel

/-!
# Who has what

An allocator gives out resources and takes them back. A ledger is a predicate on its state and the
multiset of the resources that are in use, such that every operation keeps it: a resource that is
taken comes into the multiset, one that is given back has to be there and goes out, and only those
that are there are written to. What a program that works on some resources of its own does is then
stated with all the others as a multiset that stays the same, for an arbitrary ledger.

`total` is what the members of a family have together.
-/

namespace SdeSystems.Lib

open Function

variable {σ α β : Type*}

/-- The operations of an allocator keep the predicate, as the resources in use come and go. -/
structure Balance (take : σ → Option (α × σ)) (give : σ → α → σ) (write : σ → α → β → σ)
    (I : σ → Multiset α → Prop) : Prop where
  /-- A resource is taken. -/
  take {s s' : σ} {a : α} {R : Multiset α} : take s = some (a, s') → I s R → I s' (a ::ₘ R)
  /-- A resource is given back. -/
  give {s : σ} {a : α} {R : Multiset α} : I s (a ::ₘ R) → I (give s a) R
  /-- A resource is written to. -/
  write {s : σ} {a : α} {b : β} {R : Multiset α} : I s (a ::ₘ R) → I (write s a b) (a ::ₘ R)

/-- The same for a predicate that does not ask for all the resources in use. -/
structure Ledger (take : σ → Option (α × σ)) (give : σ → α → σ) (write : σ → α → β → σ)
    (I : σ → Multiset α → Prop) : Prop extends Balance take give write I where
  /-- Resources are forgotten. -/
  drop {s : σ} {R R' : Multiset α} : R' ≤ R → I s R → I s R'

/-! ### Families -/

section

variable {ι : Type*} [Fintype ι] {f g : ι → Multiset α}

/-- What all members of a family have. -/
@[irreducible] def total (f : ι → Multiset α) : Multiset α := ∑ i, f i

theorem total_zero (h : ∀ i, f i = 0) : total f = 0 := by
  unfold total
  exact Finset.sum_eq_zero fun i _ => h i

theorem total_congr (h : ∀ i, f i = g i) : total f = total g := congrArg total (funext h)

theorem total_mono (h : ∀ i, f i ≤ g i) : total f ≤ total g := by
  unfold total
  exact Finset.sum_le_sum fun i _ => h i

theorem total_add (f g : ι → Multiset α) : total (fun i => f i + g i) = total f + total g := by
  unfold total
  exact Finset.sum_add_distrib

theorem le_total (f : ι → Multiset α) (i : ι) : f i ≤ total f := by
  unfold total
  exact Finset.single_le_sum (fun _ _ => Multiset.zero_le _) (Finset.mem_univ i)

theorem mem_total {a : α} : a ∈ total f ↔ ∃ i, a ∈ f i := by
  unfold total
  simp [Multiset.mem_sum]

theorem total_single {i : ι} (h : ∀ j ≠ i, f j = 0) : total f = f i := by
  unfold total
  exact Finset.sum_eq_single i (fun j _ hj => h j hj) fun hi => absurd (Finset.mem_univ i) hi

/-- Nobody has anything twice, and no two have the same. -/
theorem nodup_total (h : ∀ i, (f i).Nodup) (hd : ∀ i j a, a ∈ f i → a ∈ f j → i = j) : (total f).Nodup := by
  unfold total
  refine Multiset.nodup_bind.mpr ⟨fun i _ => h i, Multiset.Nodup.pairwise ?_ Finset.univ.nodup⟩
  intro i _ j _ hne
  exact Multiset.disjoint_left.mpr fun hi hj => hne (hd i j _ hi hj)

variable [DecidableEq ι]

/-- One member is changed, and with it what it has. -/
theorem total_update_add {γ : Type*} (g : ι → γ → Multiset α) (f : ι → γ) (i : ι) (x : γ) :
    total (fun j => g j (update f i x j)) + g i (f i) = total (fun j => g j (f j)) + g i x := by
  have hupdate : (fun j => g j (update f i x j)) = update (fun j => g j (f j)) i (g i x) := by
    funext j
    by_cases hj : j = i
    · subst hj
      simp
    · simp [hj]
  have hf : ∑ j, g j (f j) = g i (f i) + ∑ j ∈ Finset.univ \ {i}, g j (f j) := by
    rw [← Finset.sum_update_of_mem (Finset.mem_univ i), update_eq_self]
  unfold total
  rw [hupdate, Finset.sum_update_of_mem (Finset.mem_univ i), hf]
  abel

/-- What one member has, and what all the others have. -/
theorem total_split (f : ι → Multiset α) (i : ι) :
    ∃ R, total f = f i + R ∧ ∀ g : ι → Multiset α, (∀ j ≠ i, g j = f j) → total g = g i + R := by
  obtain ⟨R, hR⟩ := Multiset.le_iff_exists_add.mp (le_total f i)
  refine ⟨R, hR, ?_⟩
  intro g hg
  have hupdate := total_update_add (fun _ x => x) f i (g i)
  have hcongr : total (update f i (g i)) = total g := by
    apply total_congr
    intro j
    by_cases hj : j = i
    · rw [hj, update_self]
    · rw [update_of_ne hj, hg j hj]
  rw [hcongr, hR] at hupdate
  apply add_right_cancel (b := f i)
  rw [hupdate]
  abel

/-- No resource belongs to two members. -/
theorem eq_of_nodup_total (h : (total f).Nodup) {a : α} {i j : ι} (hi : a ∈ f i) (hj : a ∈ f j) : i = j := by
  by_contra hne
  have hle : f i + f j ≤ total f := by
    unfold total
    rw [← Finset.sum_pair hne]
    exact Finset.sum_le_sum_of_subset (Finset.subset_univ _)
  have hnd := Multiset.nodup_of_le hle h
  exact Multiset.disjoint_left.mp (Multiset.disjoint_of_nodup_add hnd) hi hj

end

/-- The resource that a member of a family has, if any. -/
def held {ι γ : Type*} (f : ι → Option γ) (res : γ → α) (i : ι) : Multiset α := (f i).elim 0 fun x => {res x}

/-- The resources of a family are given back one after the other. -/
theorem Balance.give_each {take : σ → Option (α × σ)} {give : σ → α → σ} {write : σ → α → β → σ}
    {I : σ → Multiset α → Prop} (hI : Balance take give write I) {n : ℕ} {γ : Type*} (f : Fin n → Option γ) (res : γ → α)
    {s : σ} {R : Multiset α} (h : I s (total (held f res) + R)) :
    I ((List.finRange n).foldl (fun s i => (f i).elim s fun x => give s (res x)) s) R := by
  unfold total at h
  rw [Fin.sum_univ_def] at h
  generalize List.finRange n = l at h ⊢
  induction l generalizing s with
  | nil => simpa using h
  | cons i l ih =>
    rw [List.map_cons, List.sum_cons, add_assoc] at h
    apply ih
    cases hi : f i with
    | none => simpa [held, hi] using h
    | some x =>
      rw [held, hi, Option.elim_some, Multiset.singleton_add] at h
      simpa only [hi, Option.elim_some] using hI.give h

end SdeSystems.Lib
