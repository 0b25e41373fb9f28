import Mathlib.Order.CompletePartialOrder
import Mathlib.Data.Int.ConditionallyCompleteOrder
import Mathlib.Order.ConditionallyCompleteLattice.Basic
import Mathlib.Algebra.BigOperators.Group.Finset.Basic
import Mathlib.Algebra.BigOperators.Ring.Finset
import Mathlib.Data.Int.ModEq
import Mathlib.Data.Int.Interval
import Mathlib.RingTheory.Coprime.Lemmas
import Mathlib.Tactic.Ring

/-!
# Sums over residues

The residues modulo `n` as the integers from `0` to `n - 1`. Multiplying by a number
prime to `n` and adding another permutes them, so a sum over all of them does not change
(`sum_residues`); and a sum whose terms pair up with a constant is half of `n` times it.
-/

namespace SdeSystems.Lib

open Finset

variable {n : ℤ}

/-- `j ↦ (a + c j) mod n` permutes the residues. -/
theorem image_residues (hn : 0 < n) {c : ℤ} (hc : IsCoprime c n) (a : ℤ) :
    (Ico 0 n).image (fun j => (a + c * j) % n) = Ico 0 n := by
  have hinj : Set.InjOn (fun j => (a + c * j) % n) (Ico 0 n : Finset ℤ) := by
    intro j hj j' hj' heq
    rw [coe_Ico, Set.mem_Ico] at hj hj'
    have hmod : a + c * j ≡ a + c * j' [ZMOD n] := heq
    have hdvd : n ∣ c * (j' - j) := by
      have := hmod.dvd
      rwa [show a + c * j' - (a + c * j) = c * (j' - j) by ring] at this
    have hdvd' : n ∣ j' - j := hc.symm.dvd_of_dvd_mul_left hdvd
    have := Int.eq_zero_of_abs_lt_dvd hdvd' (by rw [abs_lt]; omega)
    omega
  refine eq_of_subset_of_card_le ?_ (card_image_of_injOn hinj).ge
  intro x hx
  obtain ⟨j, -, rfl⟩ := mem_image.mp hx
  exact mem_Ico.mpr ⟨Int.emod_nonneg _ hn.ne', Int.emod_lt_of_pos _ hn⟩

/-- A sum over the residues, in the order `(a + c j) mod n`. -/
theorem sum_residues {M : Type*} [AddCommMonoid M] (hn : 0 < n) {c : ℤ} (hc : IsCoprime c n) (a : ℤ)
    (f : ℤ → M) : ∑ j ∈ Ico 0 n, f ((a + c * j) % n) = ∑ j ∈ Ico 0 n, f j := by
  have himage := image_residues hn hc a
  have hinj : Set.InjOn (fun j => (a + c * j) % n) (Ico 0 n : Finset ℤ) :=
    card_image_iff.mp (congrArg card himage)
  rw [← sum_image (f := f) hinj, himage]

/-- A sum whose terms from both ends add up to `s` each time. -/
theorem two_mul_sum_of_pairs (hn : 0 < n) {f : ℤ → ℤ} {s : ℤ}
    (h : ∀ j ∈ Ico 0 n, f j + f (n - 1 - j) = s) : 2 * ∑ j ∈ Ico 0 n, f j = n * s := by
  have hrefl : ∑ j ∈ Ico 0 n, f (n - 1 - j) = ∑ j ∈ Ico 0 n, f j := by
    rw [← sum_residues hn (isCoprime_one_left.neg_left) (n - 1) f]
    apply sum_congr rfl
    intro j hj
    have hj := mem_Ico.mp hj
    rw [neg_one_mul, ← sub_eq_add_neg, Int.emod_eq_of_lt (by omega) (by omega)]
  calc 2 * ∑ j ∈ Ico 0 n, f j = ∑ j ∈ Ico 0 n, (f j + f (n - 1 - j)) := by
        rw [sum_add_distrib, hrefl, two_mul]
    _ = ∑ _j ∈ Ico 0 n, s := sum_congr rfl h
    _ = n * s := by
        rw [sum_const, Int.card_Ico, sub_zero, nsmul_eq_mul, Int.toNat_of_nonneg hn.le]

theorem two_mul_sum_Ico (hn : 0 < n) : 2 * ∑ j ∈ Ico 0 n, j = n * (n - 1) :=
  two_mul_sum_of_pairs hn fun _ _ => by ring

end SdeSystems.Lib
