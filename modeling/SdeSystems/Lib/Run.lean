import Mathlib.Logic.Relation
import Mathlib.Order.Basic
import Mathlib.Data.Nat.Notation

/-!
# Runs and invariants

A system is a step relation on states; a run is its reflexive and transitive
closure. What holds at the start and is kept by every step holds in every state
a run reaches. The same with a second invariant known to hold along the run, for
properties proved one on top of the other. And a rule for a system whose parts wait
for each other: waiting that goes down in an order ends.
-/

namespace SdeSystems.Lib

open Relation

variable {α : Type*} {R : α → α → Prop} {I J : α → Prop} {a b : α}

/-- **The invariant rule**: what every step keeps, every run keeps. -/
theorem run_inv (hstep : ∀ x y, R x y → I x → I y) (h : ReflTransGen R a b) (ha : I a) : I b := by
  induction h with
  | refl => exact ha
  | tail _ hxy ih => exact hstep _ _ hxy ih

/-- An invariant whose steps may use another invariant. -/
theorem run_inv_of_inv (hJ : ∀ x y, R x y → J x → J y) (hI : ∀ x y, R x y → J x → I x → I y)
    (h : ReflTransGen R a b) (haJ : J a) (haI : I a) : J b ∧ I b :=
  run_inv (I := fun x => J x ∧ I x) (fun x y hxy hx => ⟨hJ x y hxy hx.1, hI x y hxy hx.1 hx.2⟩) h
    ⟨haJ, haI⟩

/-- **The rule of ordered waiting**: where whoever waits does so for an active one that has a
lower rank if it waits in turn, an active one does not wait. -/
theorem exists_not_waiting {ι : Type*} {active waiting : ι → Prop} (rank : ι → ℕ)
    (h : ∀ i, active i → waiting i → ∃ j, active j ∧ (waiting j → rank j < rank i)) {i : ι} (hi : active i) :
    ∃ j, active j ∧ ¬ waiting j := by
  induction hr : rank i using Nat.strongRecOn generalizing i with
  | _ r ih =>
    by_cases hw : waiting i
    · obtain ⟨j, hj, hlt⟩ := h i hi hw
      by_cases hwj : waiting j
      · exact ih (rank j) (hr ▸ hlt hwj) hj rfl
      · exact ⟨j, hj, hwj⟩
    · exact ⟨i, hi, hw⟩

end SdeSystems.Lib
