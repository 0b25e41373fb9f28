import Mathlib.Data.List.Basic
import Mathlib.Data.List.Perm.Basic
import Mathlib.Data.Nat.Notation
import Mathlib.Tactic.Ring

/-!
# Loops over a range

`loop n body` runs a body for `0`, .., `n - 1`. A property that every turn keeps is an
invariant of it (`loop_inv`); what can be seen of the state through a function is a loop
of its own (`loop_obs`), and when only one turn changes it, it is that turn
(`loop_select`). A loop over blocks is the loop over all (`loop_mul`), and so are the
lists that such loops go through (`flatMap_range_mul`), in another order when the loops
are exchanged (`flatMap_comm_perm`).
-/

namespace SdeSystems.Lib

variable {σ τ α β γ : Type*}

/-- `for (int i = 0; i < n; i++) body`. -/
def loop (n : ℕ) (body : ℕ → σ → σ) (s : σ) : σ := (List.range n).foldl (fun s i => body i s) s

section

variable {n m : ℕ} {body body' : ℕ → σ → σ} {s : σ}

@[simp] theorem loop_zero : loop 0 body s = s := rfl

theorem loop_succ : loop (n + 1) body s = body n (loop n body s) := by
  simp [loop, List.range_succ]

theorem loop_inv {I : σ → Prop} (h : ∀ i < n, ∀ s, I s → I (body i s)) (hs : I s) : I (loop n body s) := by
  induction n with
  | zero => exact hs
  | succ n ih =>
    rw [loop_succ]
    exact h n (Nat.lt_succ_self n) _ (ih fun i hi => h i (Nat.lt_succ_of_lt hi))

theorem loop_congr (h : ∀ i < n, ∀ s, body i s = body' i s) : loop n body s = loop n body' s := by
  induction n with
  | zero => rfl
  | succ n ih =>
    rw [loop_succ, loop_succ, ih fun i hi => h i (Nat.lt_succ_of_lt hi), h n (Nat.lt_succ_self n)]

/-- What is seen of the state by `obs`, when it depends on what was seen before only. -/
theorem loop_obs (obs : σ → τ) {see : ℕ → τ → τ} (h : ∀ i < n, ∀ s, obs (body i s) = see i (obs s)) :
    obs (loop n body s) = loop n see (obs s) := by
  induction n with
  | zero => rfl
  | succ n ih =>
    rw [loop_succ, loop_succ, h n (Nat.lt_succ_self n), ih fun i hi => h i (Nat.lt_succ_of_lt hi)]

theorem loop_id (h : ∀ i < n, ∀ s, body i s = s) : loop n body s = s := by
  induction n with
  | zero => rfl
  | succ n ih => rw [loop_succ, ih fun i hi => h i (Nat.lt_succ_of_lt hi), h n (Nat.lt_succ_self n)]

/-- One turn only changes the state. -/
theorem loop_select {k : ℕ} (hk : k < n) (h : ∀ i, i ≠ k → ∀ s, body i s = s) : loop n body s = body k s := by
  induction n with
  | zero => cases hk
  | succ n ih =>
    rw [loop_succ]
    by_cases hkn : k = n
    · subst hkn
      rw [loop_id fun i hi => h i (Nat.ne_of_lt hi)]
    · rw [ih (by omega), h n (Ne.symm hkn)]

/-- Blocks of `m` turns, one after the other. -/
theorem loop_mul : loop (n * m) body s = loop n (fun i => loop m fun j => body (i * m + j)) s := by
  induction n with
  | zero => simp
  | succ n ih =>
    have hadd (k : ℕ) : loop (n * m + k) body s = loop k (fun j => body (n * m + j)) (loop (n * m) body s) := by
      induction k with
      | zero => rfl
      | succ k ih => rw [loop_succ, ← ih, ← Nat.add_assoc, loop_succ]
    rw [Nat.succ_mul, hadd, loop_succ, ih]

/-- A loop that appends a list in each turn. -/
theorem loop_append (f : ℕ → List α) (l : List α) : loop n (fun i l => l ++ f i) l = l ++ (List.range n).flatMap f := by
  induction n with
  | zero => simp
  | succ n ih => rw [loop_succ, ih, List.range_succ, List.flatMap_append, List.append_assoc, List.flatMap_singleton]

end

/-! ### The order of nested loops -/

/-- The numbers below `n * m`, block by block. -/
theorem flatMap_range_mul (n m : ℕ) (f : ℕ → List α) :
    (List.range (n * m)).flatMap f = (List.range n).flatMap fun i => (List.range m).flatMap fun j => f (i * m + j) := by
  have hloop : loop (n * m) (fun i l => l ++ f i) [] = loop n (fun i => loop m fun j l => l ++ f (i * m + j)) [] :=
    loop_mul
  have hblock : (fun i => loop m fun j (l : List α) => l ++ f (i * m + j)) =
      fun i l => l ++ (List.range m).flatMap fun j => f (i * m + j) := by
    funext i l
    exact loop_append _ l
  rwa [hblock, loop_append, loop_append, List.nil_append, List.nil_append] at hloop

/-- Two nested loops exchanged. -/
theorem flatMap_comm_perm (l : List α) (r : List β) (f : α → β → List γ) :
    (l.flatMap fun a => r.flatMap fun b => f a b).Perm (r.flatMap fun b => l.flatMap fun a => f a b) := by
  induction l with
  | nil => simp
  | cons a l ih =>
    simp only [List.flatMap_cons]
    exact (ih.append_left _).trans (List.flatMap_append_perm r _ _)

end SdeSystems.Lib
