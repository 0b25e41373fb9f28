import Mathlib.Data.List.Range
import Mathlib.Logic.Function.Basic
import Mathlib.Data.Nat.ModEq

/-!
# Circular buffers

An array of `cap` cells holds a queue of `size` items: the item `k` places behind
the front is in cell `(head + k) % cap`. `window` is the queue as a list. The
lemmas say what the three moves of a circular buffer do to it: a store into the
first free cell, taking that cell in, and dropping the front.
-/

namespace SdeSystems.Lib.Ring

variable {α : Type*} {cap head size : ℕ} {q : ℕ → α}

/-- The `size` items of the ring from `head`, front first. -/
def window (q : ℕ → α) (cap head size : ℕ) : List α :=
  (List.range size).map fun k => q ((head + k) % cap)

@[simp] theorem window_zero : window q cap head 0 = [] := rfl

@[simp] theorem length_window : (window q cap head size).length = size := by simp [window]

/-- Taking in one more cell at the back. -/
theorem window_succ : window q cap head (size + 1) = window q cap head size ++ [q ((head + size) % cap)] := by
  simp [window, List.range_succ]

/-- The front, and the ring behind it. -/
theorem window_cons (hh : head < cap) :
    window q cap head (size + 1) = q head :: window q cap ((head + 1) % cap) size := by
  unfold window
  rw [List.range_succ_eq_map, List.map_cons, List.map_map]
  congr 1
  · simp [Nat.mod_eq_of_lt hh]
  · apply List.map_congr_left
    intro k _
    simp only [Function.comp]
    rw [Nat.mod_add_mod]
    congr 2
    omega

/-- Cells of one lap are different. -/
theorem cell_ne {i j : ℕ} (hij : i < j) (hj : j < i + cap) : (head + i) % cap ≠ (head + j) % cap := by
  intro h
  have h₁ : (head + i) ≡ (head + j) [MOD cap] := h
  have h₂ : i ≡ j [MOD cap] := Nat.ModEq.add_left_cancel' head h₁
  have h₃ : cap ∣ j - i := (Nat.modEq_iff_dvd' (by omega)).mp h₂
  have := Nat.le_of_dvd (by omega) h₃
  omega

/-- A store into the first free cell does not disturb the ring. -/
theorem window_update (hs : size < cap) (x : α) :
    window (Function.update q ((head + size) % cap) x) cap head size = window q cap head size := by
  unfold window
  apply List.map_congr_left
  intro k hk
  have hk' := List.mem_range.mp hk
  exact Function.update_of_ne (cell_ne hk' (by omega)) _ _

end SdeSystems.Lib.Ring
