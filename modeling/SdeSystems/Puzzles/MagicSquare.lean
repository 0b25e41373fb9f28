import SdeSystems.Lib.Residues
import Mathlib.Tactic.Linarith

/-!
# The Siamese magic square

`generateMagicSquare` walks over the square: it writes the next number, goes one up and
one to the right around the edges, and one down instead when that cell is taken.

The `k`-th number of the walk, counted from 0, with `q = k / n` and `r = k mod n`, is
written in a cell `(i, j)` with `i = 2 q - r` and `j = n / 2 - q + r` modulo `n`; solved
for `q` and `r` this gives the number that a cell gets from its place (`indexOf`). The
invariant of the walk (`Walked`) says it of all cells at once: those with a number below
`k` have it, the others have 0. So the cell up and to the right is taken once in `n`
turns, when the walk is back at the first cell of its diagonal.

**`generateMagicSquare_magic`**: no cell is written twice, and the square is magic.
-/

namespace SdeSystems.Puzzles

open Finset Lib

/-! ### The program -/

/-- The value of an `int` expression, which has none when it overflows. -/
def int (x : ℤ) : Option ℤ := if -2147483648 ≤ x ∧ x ≤ 2147483647 then some x else none

/-- `getSize`: the number that was read, where it does not exit. -/
def getSize (size : ℤ) : Option ℤ := if size < 3 then none else if size.tmod 2 = 0 then none else some size

/-- The indices of a cell of the array. -/
def Inside (n row col : ℤ) : Prop := (0 ≤ row ∧ row < n) ∧ 0 ≤ col ∧ col < n

instance (n row col : ℤ) : Decidable (Inside n row col) := inferInstanceAs (Decidable (_ ∧ _))

/-- The variables of the loop, and the array. -/
structure Walk where
  /-- `row`. -/
  row : ℤ
  /-- `col`. -/
  col : ℤ
  /-- `ms->magic_square`. -/
  square : ℤ → ℤ → ℤ

/-- The array with `num` in one cell. -/
def write (square : ℤ → ℤ → ℤ) (row col num : ℤ) : ℤ → ℤ → ℤ := fun i j =>
  if i = row ∧ j = col then num else square i j

/-- The body of the loop. There is no result when an index is outside the array or an
`int` overflows. -/
def place (n num : ℤ) (σ : Walk) : Option Walk := do
  guard (Inside n σ.row σ.col)
  let square := write σ.square σ.row σ.col num
  let up ← int (σ.row - 1)
  let nextRow := (← int (up + n)).tmod n
  let nextCol := (← int (σ.col + 1)).tmod n
  guard (Inside n nextRow nextCol)
  if square nextRow nextCol ≠ 0 then
    let down ← int (σ.row + 1)
    return ⟨down.tmod n, σ.col, square⟩
  else
    return ⟨nextRow, nextCol, square⟩

/-- The first `k` turns of the loop, with `num` from 1 on. -/
def turns (n : ℤ) : ℕ → Option Walk
  | 0 => some ⟨0, n.tdiv 2, fun _ _ => 0⟩
  | k + 1 => do
    let σ ← turns n k
    let num ← int (k + 1)
    place n num σ

/-- `generateMagicSquare`, which has the memory it asks for. The last value of `num`
ends the loop. -/
def generateMagicSquare (n : ℤ) : Option (ℤ → ℤ → ℤ) := do
  let last ← int (n * n)
  let σ ← turns n last.toNat
  let _ ← int (last + 1)
  return σ.square

/-! ### What it is for -/

/-- A magic square of the numbers from 1 to `n * n`. -/
structure Magic (n : ℤ) (square : ℤ → ℤ → ℤ) : Prop where
  /-- Each cell has one of them. -/
  values : ∀ i j, Inside n i j → 1 ≤ square i j ∧ square i j ≤ n * n
  /-- Each of them is in one cell. -/
  once : ∀ v, 1 ≤ v → v ≤ n * n → ∃! p : ℤ × ℤ, Inside n p.1 p.2 ∧ square p.1 p.2 = v
  /-- The rows. -/
  rows : ∀ i, 0 ≤ i → i < n → ∑ j ∈ Ico 0 n, square i j = n * (n * n + 1) / 2
  /-- The columns. -/
  columns : ∀ j, 0 ≤ j → j < n → ∑ i ∈ Ico 0 n, square i j = n * (n * n + 1) / 2
  /-- The diagonal from the top left. -/
  diagonal : ∑ i ∈ Ico 0 n, square i i = n * (n * n + 1) / 2
  /-- The diagonal from the top right. -/
  antidiagonal : ∑ i ∈ Ico 0 n, square i (n - 1 - i) = n * (n * n + 1) / 2

/-! ### The number of a cell -/

/-- The diagonal of a cell: how often the walk has gone down before it. -/
def quot (n i j : ℤ) : ℤ := (i + j - n / 2) % n

/-- Its place on the diagonal. -/
def rest (n i j : ℤ) : ℤ := (i + 2 * j - 2 * (n / 2)) % n

/-- The number of turns before the cell is written. -/
def indexOf (n i j : ℤ) : ℤ := n * quot n i j + rest n i j

section

variable {n i j : ℤ}

theorem quot_range (hn : 0 < n) (i j : ℤ) : 0 ≤ quot n i j ∧ quot n i j < n :=
  ⟨Int.emod_nonneg _ hn.ne', Int.emod_lt_of_pos _ hn⟩

theorem rest_range (hn : 0 < n) (i j : ℤ) : 0 ≤ rest n i j ∧ rest n i j < n :=
  ⟨Int.emod_nonneg _ hn.ne', Int.emod_lt_of_pos _ hn⟩

theorem indexOf_range (hn : 0 < n) (i j : ℤ) : 0 ≤ indexOf n i j ∧ indexOf n i j < n * n := by
  obtain ⟨hq, hqn⟩ := quot_range hn i j
  obtain ⟨hr, hrn⟩ := rest_range hn i j
  unfold indexOf
  constructor
  · have := mul_nonneg hn.le hq
    omega
  · have hle : n * quot n i j ≤ n * (n - 1) := mul_le_mul_of_nonneg_left (by omega) hn.le
    rw [mul_sub, mul_one] at hle
    omega

theorem indexOf_ediv (hn : 0 < n) (i j : ℤ) : indexOf n i j / n = quot n i j := by
  obtain ⟨hr, hrn⟩ := rest_range hn i j
  rw [indexOf, Int.mul_add_ediv_left _ _ hn.ne', Int.ediv_eq_zero_of_lt hr hrn, add_zero]

theorem indexOf_emod (hn : 0 < n) (i j : ℤ) : indexOf n i j % n = rest n i j := by
  obtain ⟨hr, hrn⟩ := rest_range hn i j
  rw [indexOf, Int.mul_add_emod_self_left, Int.emod_eq_of_lt hr hrn]

/-- Two cells have different numbers. -/
theorem indexOf_inj {i' j' : ℤ} (hn : 0 < n) (h : Inside n i j) (h' : Inside n i' j')
    (heq : indexOf n i j = indexOf n i' j') : i = i' ∧ j = j' := by
  have hq : i + j - n / 2 ≡ i' + j' - n / 2 [ZMOD n] := by
    have := congrArg (· / n) heq
    simp only [indexOf_ediv hn] at this
    exact this
  have hr : i + 2 * j - 2 * (n / 2) ≡ i' + 2 * j' - 2 * (n / 2) [ZMOD n] := by
    have := congrArg (· % n) heq
    simp only [indexOf_emod hn] at this
    exact this
  -- the second congruence less the first, and twice the first less the second
  have hj : j ≡ j' [ZMOD n] := by
    have := (hr.sub hq).add_right (n / 2)
    ring_nf at this
    exact this
  have hi : i ≡ i' [ZMOD n] := by
    have := (hq.mul_left 2).sub hr
    ring_nf at this
    exact this
  obtain ⟨⟨hi₀, hin⟩, hj₀, hjn⟩ := h
  obtain ⟨⟨hi₀', hin'⟩, hj₀', hjn'⟩ := h'
  unfold Int.ModEq at hi hj
  rw [Int.emod_eq_of_lt hi₀ hin, Int.emod_eq_of_lt hi₀' hin'] at hi
  rw [Int.emod_eq_of_lt hj₀ hjn, Int.emod_eq_of_lt hj₀' hjn'] at hj
  exact ⟨hi, hj⟩

/-- Every number is that of a cell. -/
theorem exists_indexOf (hn : 0 < n) {v : ℤ} (h₀ : 0 ≤ v) (hv : v < n * n) :
    ∃ i j, Inside n i j ∧ indexOf n i j = v := by
  have hqn : v / n < n := Int.ediv_lt_of_lt_mul hn hv
  have hq : 0 ≤ v / n := Int.ediv_nonneg h₀ hn.le
  have hr := Int.emod_nonneg v hn.ne'
  have hrn := Int.emod_lt_of_pos v hn
  have hi : (2 * (v / n) - v % n) % n ≡ 2 * (v / n) - v % n [ZMOD n] := Int.mod_modEq _ _
  have hj : (n / 2 - v / n + v % n) % n ≡ n / 2 - v / n + v % n [ZMOD n] := Int.mod_modEq _ _
  refine ⟨(2 * (v / n) - v % n) % n, (n / 2 - v / n + v % n) % n, ?_, ?_⟩
  · exact ⟨⟨Int.emod_nonneg _ hn.ne', Int.emod_lt_of_pos _ hn⟩, Int.emod_nonneg _ hn.ne', Int.emod_lt_of_pos _ hn⟩
  · have hquot : quot n ((2 * (v / n) - v % n) % n) ((n / 2 - v / n + v % n) % n) = v / n := by
      have := (hi.add hj).sub_right (n / 2)
      rw [show 2 * (v / n) - v % n + (n / 2 - v / n + v % n) - n / 2 = v / n by ring] at this
      exact Eq.trans this (Int.emod_eq_of_lt hq hqn)
    have hrest : rest n ((2 * (v / n) - v % n) % n) ((n / 2 - v / n + v % n) % n) = v % n := by
      have := (hi.add (hj.mul_left 2)).sub_right (2 * (n / 2))
      rw [show 2 * (v / n) - v % n + 2 * (n / 2 - v / n + v % n) - 2 * (n / 2) = v % n by ring] at this
      exact Eq.trans this (Int.emod_eq_of_lt hr hrn)
    rw [indexOf, hquot, hrest, Int.mul_ediv_add_emod]

/-- The cell up and to the right is the next one of the diagonal, around its end. -/
theorem indexOf_up (i j : ℤ) : indexOf n ((i - 1 + n) % n) ((j + 1) % n) = n * quot n i j + (rest n i j + 1) % n := by
  have hi : (i - 1 + n) % n ≡ i - 1 [ZMOD n] := (Int.mod_modEq _ _).trans (by simp)
  have hj : (j + 1) % n ≡ j + 1 [ZMOD n] := Int.mod_modEq _ _
  have hquot : quot n ((i - 1 + n) % n) ((j + 1) % n) = quot n i j := by
    have := (hi.add hj).sub_right (n / 2)
    rwa [show i - 1 + (j + 1) - n / 2 = i + j - n / 2 by ring] at this
  have hrest : rest n ((i - 1 + n) % n) ((j + 1) % n) = (rest n i j + 1) % n := by
    have := (hi.add (hj.mul_left 2)).sub_right (2 * (n / 2))
    rw [show i - 1 + 2 * (j + 1) - 2 * (n / 2) = i + 2 * j - 2 * (n / 2) + 1 by ring] at this
    exact this.trans ((Int.mod_modEq _ _).symm.add_right 1)
  rw [indexOf, hquot, hrest]

/-- The cell below the end of a diagonal is the first one of the next. -/
theorem indexOf_down (i j : ℤ) : indexOf n ((i + 1) % n) j = n * ((quot n i j + 1) % n) + (rest n i j + 1) % n := by
  have hi : (i + 1) % n ≡ i + 1 [ZMOD n] := Int.mod_modEq _ _
  have hquot : quot n ((i + 1) % n) j = (quot n i j + 1) % n := by
    have := (hi.add_right j).sub_right (n / 2)
    rw [show i + 1 + j - n / 2 = i + j - n / 2 + 1 by ring] at this
    exact this.trans ((Int.mod_modEq _ _).symm.add_right 1)
  have hrest : rest n ((i + 1) % n) j = (rest n i j + 1) % n := by
    have := (hi.add_right (2 * j)).sub_right (2 * (n / 2))
    rw [show i + 1 + 2 * j - 2 * (n / 2) = i + 2 * j - 2 * (n / 2) + 1 by ring] at this
    exact this.trans ((Int.mod_modEq _ _).symm.add_right 1)
  rw [indexOf, hquot, hrest]

end

/-! ### The walk -/

/-- After `k` turns: the cells with a number below `k` have it, and the others 0; and
the next cell to be written has the number `k`. -/
structure Walked (n k : ℤ) (σ : Walk) : Prop where
  /-- The indices are inside the array. -/
  inside : Inside n σ.row σ.col
  /-- The next cell. -/
  next : k < n * n → indexOf n σ.row σ.col = k
  /-- The array. -/
  square : ∀ i j, Inside n i j → σ.square i j = if indexOf n i j < k then indexOf n i j + 1 else 0

section

variable {n k : ℤ} {σ : Walk}

theorem int_eq {x : ℤ} (h : -2147483648 ≤ x) (h' : x ≤ 2147483647) : int x = some x := if_pos ⟨h, h'⟩

/-- The side of a square whose cells an `int` can number. -/
theorem side_le (hn : 0 < n) (hmax : n * n ≤ 2147483647) : n ≤ 46340 := by
  by_contra h
  have : 46341 * 46341 ≤ n * n := mul_le_mul (by omega) (by omega) (by omega) hn.le
  omega

theorem inside_emod (hn : 0 < n) (i j : ℤ) : Inside n (i % n) (j % n) :=
  ⟨⟨Int.emod_nonneg _ hn.ne', Int.emod_lt_of_pos _ hn⟩, Int.emod_nonneg _ hn.ne', Int.emod_lt_of_pos _ hn⟩

/-- The array after the `k`-th number has been written. -/
theorem Walked.write (h : Walked n k σ) (hn : 0 < n) (hk : k < n * n) {i j : ℤ} (hin : Inside n i j) :
    write σ.square σ.row σ.col (k + 1) i j = if indexOf n i j < k + 1 then indexOf n i j + 1 else 0 := by
  have hnext := h.next hk
  unfold Puzzles.write
  split <;> rename_i hc
  · obtain ⟨rfl, rfl⟩ := hc
    rw [hnext, if_pos (by omega)]
  · rw [h.square i j hin]
    have hne : indexOf n i j ≠ k := by
      intro heq
      exact hc (indexOf_inj hn hin h.inside (heq.trans hnext.symm))
    by_cases hlt : indexOf n i j < k
    · rw [if_pos hlt, if_pos (by omega)]
    · rw [if_neg hlt, if_neg (by omega)]

/-- **One turn of the loop.** -/
theorem Walked.place (h : Walked n k σ) (hn : 0 < n) (hmax : n ≤ 46340) (hk : k < n * n) :
    ∃ σ', place n (k + 1) σ = some σ' ∧ Walked n (k + 1) σ' := by
  obtain ⟨⟨hrow, hrown⟩, hcol, hcoln⟩ := h.inside
  obtain ⟨hq, hqn⟩ := quot_range hn σ.row σ.col
  obtain ⟨hr, hrn⟩ := rest_range hn σ.row σ.col
  have hindex : n * quot n σ.row σ.col + rest n σ.row σ.col = k := h.next hk
  have hup := indexOf_up (n := n) σ.row σ.col
  have hdown := indexOf_down (n := n) σ.row σ.col
  have hupin := inside_emod hn (σ.row - 1 + n) (σ.col + 1)
  have hwrite := h.write hn hk hupin
  have hrun : Puzzles.place n (k + 1) σ =
      if Puzzles.write σ.square σ.row σ.col (k + 1) ((σ.row - 1 + n) % n) ((σ.col + 1) % n) ≠ 0 then
        some ⟨(σ.row + 1) % n, σ.col, Puzzles.write σ.square σ.row σ.col (k + 1)⟩
      else some ⟨(σ.row - 1 + n) % n, (σ.col + 1) % n, Puzzles.write σ.square σ.row σ.col (k + 1)⟩ := by
    have hupmod : (σ.row - 1 + n).tmod n = (σ.row - 1 + n) % n := Int.tmod_eq_emod_of_nonneg (by omega)
    have hcolmod : (σ.col + 1).tmod n = (σ.col + 1) % n := Int.tmod_eq_emod_of_nonneg (by omega)
    have hdownmod : (σ.row + 1).tmod n = (σ.row + 1) % n := Int.tmod_eq_emod_of_nonneg (by omega)
    simp only [Puzzles.place, int_eq (show -2147483648 ≤ σ.row - 1 by omega) (by omega),
      int_eq (show -2147483648 ≤ σ.row - 1 + n by omega) (by omega),
      int_eq (show -2147483648 ≤ σ.col + 1 by omega) (by omega),
      int_eq (show -2147483648 ≤ σ.row + 1 by omega) (by omega), Option.bind_eq_bind, Option.bind_some,
      hupmod, hcolmod, hdownmod, guard, if_pos h.inside, if_pos hupin, Option.pure_def]
  rw [hrun]
  by_cases hend : rest n σ.row σ.col + 1 < n
  · -- the next cell of the diagonal is free
    rw [Int.emod_eq_of_lt (by omega) hend] at hup
    rw [if_neg (by rw [hwrite, hup, if_neg (by omega)]; simp)]
    refine ⟨_, rfl, hupin, ?_, fun i j hin => h.write hn hk hin⟩
    intro _
    dsimp only
    omega
  · -- the walk is back at the first cell of the diagonal
    have hlast : rest n σ.row σ.col + 1 = n := by omega
    rw [hlast, Int.emod_self, add_zero] at hup hdown
    have hnq : 0 ≤ n * quot n σ.row σ.col := mul_nonneg hn.le hq
    rw [if_pos (by rw [hwrite, hup, if_pos (by omega)]; omega)]
    refine ⟨_, rfl, ⟨(inside_emod hn _ 0).1, h.inside.2⟩, ?_, fun i j hin => h.write hn hk hin⟩
    intro hk'
    have hq' : quot n σ.row σ.col + 1 < n := by
      by_contra hcon
      have : quot n σ.row σ.col = n - 1 := by omega
      rw [this, mul_sub, mul_one] at hindex
      omega
    dsimp only
    rw [hdown, Int.emod_eq_of_lt (by omega) hq', mul_add, mul_one]
    omega

/-- The walk begins in the middle of the first row. -/
theorem walked_start (hn : 3 ≤ n) : Walked n 0 ⟨0, n.tdiv 2, fun _ _ => 0⟩ := by
  have hhalf : n.tdiv 2 = n / 2 := Int.tdiv_eq_ediv_of_nonneg (by omega)
  rw [hhalf]
  refine ⟨⟨⟨le_refl _, by dsimp only; omega⟩, by dsimp only; omega, by dsimp only; omega⟩, ?_, ?_⟩
  · intro _
    simp [indexOf, quot, rest]
  · intro i j _
    have := (indexOf_range (show 0 < n by omega) i j).1
    rw [if_neg (by omega)]

/-- All turns of the loop. -/
theorem turns_walked (hn : 3 ≤ n) (hmax : n * n ≤ 2147483647) {k : ℕ} (hk : (k : ℤ) ≤ n * n) :
    ∃ σ, turns n k = some σ ∧ Walked n k σ := by
  induction k with
  | zero => exact ⟨_, rfl, walked_start hn⟩
  | succ k ih =>
    push_cast at hk
    obtain ⟨σ, hσ, hwalked⟩ := ih (by omega)
    obtain ⟨σ', hσ', hwalked'⟩ :=
      hwalked.place (by omega) (side_le (by omega) hmax) (by omega)
    refine ⟨σ', ?_, by exact_mod_cast hwalked'⟩
    rw [turns, hσ]
    simp only [Option.bind_eq_bind, Option.bind_some, int_eq (show -2147483648 ≤ (k : ℤ) + 1 by omega) (by omega)]
    exact hσ'

end

/-! ### The sums -/

section

variable {n : ℤ}

/-- Half of the sum of two permutations of the residues, one of them `n` times. -/
theorem sum_index (hn : 0 < n) {q r : ℤ → ℤ} {S : ℤ} (hq : ∑ j ∈ Ico 0 n, q j = S) (hr : 2 * ∑ j ∈ Ico 0 n, r j = n * (n - 1))
    (hS : 2 * S = n * (n - 1)) : ∑ j ∈ Ico 0 n, (n * q j + r j + 1) = n * (n * n + 1) / 2 := by
  have hsum : ∑ j ∈ Ico 0 n, (n * q j + r j + 1) = n * S + ∑ j ∈ Ico 0 n, r j + n := by
    rw [sum_add_distrib, sum_add_distrib, ← mul_sum, hq, sum_const, Int.card_Ico, sub_zero, nsmul_eq_mul,
      Int.toNat_of_nonneg hn.le, mul_one]
  have htwo : 2 * ∑ j ∈ Ico 0 n, (n * q j + r j + 1) = n * (n * n + 1) := by
    rw [hsum]
    calc 2 * (n * S + ∑ j ∈ Ico 0 n, r j + n) = n * (2 * S) + 2 * ∑ j ∈ Ico 0 n, r j + 2 * n := by ring
      _ = n * (n * n + 1) := by rw [hS, hr]; ring
  omega

/-- A permutation of the residues sums up to half of `n * (n - 1)`. -/
theorem two_mul_sum_residues (hn : 0 < n) {c : ℤ} (hc : IsCoprime c n) (a : ℤ) {f : ℤ → ℤ}
    (hf : ∀ j, f j = (a + c * j) % n) : 2 * ∑ j ∈ Ico 0 n, f j = n * (n - 1) := by
  rw [sum_congr rfl fun j _ => hf j, sum_residues hn hc a fun x => x]
  exact two_mul_sum_Ico hn

/-- Residues of two numbers that add up to `n - 1` do so too. -/
theorem emod_add_emod (hn : 0 < n) {a b : ℤ} (hab : a + b = n - 1) : a % n + b % n = n - 1 := by
  have hr := Int.emod_nonneg a hn.ne'
  have hrn := Int.emod_lt_of_pos a hn
  have hdiv := Int.mul_ediv_add_emod a n
  have hb : b = n - 1 - a % n + n * -(a / n) := by
    rw [mul_neg]
    omega
  have hsmall : (n - 1 - a % n) % n = n - 1 - a % n := Int.emod_eq_of_lt (by omega) (by omega)
  rw [hb, Int.add_mul_emod_self_left, hsmall]
  omega

theorem isCoprime_two (hodd : n % 2 = 1) : IsCoprime 2 n := by
  refine ⟨-(n / 2), 1, ?_⟩
  omega

/-- The square that has the number of each cell, from 1 on, is magic. -/
theorem magic_indexOf (hn : 3 ≤ n) (hodd : n % 2 = 1) {square : ℤ → ℤ → ℤ}
    (h : ∀ i j, Inside n i j → square i j = indexOf n i j + 1) : Magic n square := by
  have hpos : 0 < n := by omega
  have hone : IsCoprime 1 n := isCoprime_one_left
  have hform (i j : ℤ) (hi : 0 ≤ i ∧ i < n) (hj : 0 ≤ j ∧ j < n) : square i j = n * quot n i j + rest n i j + 1 :=
    h i j ⟨hi, hj⟩
  refine ⟨?_, ?_, ?_, ?_, ?_, ?_⟩
  · intro i j hin
    have := indexOf_range hpos i j
    rw [h i j hin]
    omega
  · intro v hv hvn
    obtain ⟨i, j, hin, hij⟩ := exists_indexOf hpos (show 0 ≤ v - 1 by omega) (by omega)
    refine ⟨(i, j), ⟨hin, by rw [h i j hin, hij]; omega⟩, ?_⟩
    intro p hp
    have hp' := h _ _ hp.1
    obtain ⟨h₁, h₂⟩ := indexOf_inj hpos hp.1 hin (by omega)
    exact Prod.ext h₁ h₂
  · intro i hi hin
    rw [sum_congr rfl fun j hj => hform i j ⟨hi, hin⟩ (mem_Ico.mp hj)]
    refine sum_index hpos rfl ?_ ?_
    · exact two_mul_sum_residues hpos (isCoprime_two hodd) (i - 2 * (n / 2)) fun j => by
        rw [rest]; congr 1; ring
    · exact two_mul_sum_residues hpos hone (i - n / 2) fun j => by rw [quot]; congr 1; ring
  · intro j hj hjn
    rw [sum_congr rfl fun i hi => hform i j (mem_Ico.mp hi) ⟨hj, hjn⟩]
    refine sum_index hpos rfl ?_ ?_
    · exact two_mul_sum_residues hpos hone (2 * j - 2 * (n / 2)) fun i => by rw [rest]; congr 1; ring
    · exact two_mul_sum_residues hpos hone (j - n / 2) fun i => by rw [quot]; congr 1; ring
  · -- opposite cells of the diagonal have numbers that add up to `n * n - 1`
    have hpairs : ∀ i ∈ Ico 0 n, square i i + square (n - 1 - i) (n - 1 - i) = n * n + 1 := by
      intro i hi
      have hi := mem_Ico.mp hi
      have hquot : quot n i i + quot n (n - 1 - i) (n - 1 - i) = n - 1 := emod_add_emod hpos (by omega)
      have hrest : rest n i i + rest n (n - 1 - i) (n - 1 - i) = n - 1 := emod_add_emod hpos (by omega)
      rw [hform i i hi hi, hform (n - 1 - i) (n - 1 - i) (by omega) (by omega)]
      calc n * quot n i i + rest n i i + 1 +
            (n * quot n (n - 1 - i) (n - 1 - i) + rest n (n - 1 - i) (n - 1 - i) + 1) =
          n * (quot n i i + quot n (n - 1 - i) (n - 1 - i)) +
            (rest n i i + rest n (n - 1 - i) (n - 1 - i)) + 2 := by ring
        _ = n * n + 1 := by rw [hquot, hrest]; ring
    have htwo := two_mul_sum_of_pairs hpos hpairs
    omega
  · have hanti (i : ℤ) (hi : i ∈ Ico 0 n) :
        square i (n - 1 - i) = n * quot n i (n - 1 - i) + rest n i (n - 1 - i) + 1 := by
      have := mem_Ico.mp hi
      exact hform i _ this (by omega)
    -- its cells are one diagonal of the walk
    have hquot (i : ℤ) : quot n i (n - 1 - i) = n / 2 := by
      rw [quot, show i + (n - 1 - i) - n / 2 = n / 2 by omega, Int.emod_eq_of_lt (by omega) (by omega)]
    have hsum : ∑ i ∈ Ico 0 n, quot n i (n - 1 - i) = n * (n / 2) := by
      rw [sum_congr rfl fun i _ => hquot i, sum_const, Int.card_Ico, sub_zero, nsmul_eq_mul,
        Int.toNat_of_nonneg hpos.le]
    rw [sum_congr rfl hanti]
    refine sum_index hpos hsum ?_ ?_
    · exact two_mul_sum_residues hpos hone.neg_left (2 * (n - 1) - 2 * (n / 2)) fun i => by
        rw [rest]; congr 1; ring
    · rw [mul_left_comm, show 2 * (n / 2) = n - 1 by omega]

end

/-! ### The result -/

section

variable {n : ℤ}

/-- **The Siamese construction is correct.** For every odd `n` from 3 on whose square is
an `int`, the construction ends within the array and without an overflow, the cell that
is written in each turn has been 0 up to then, and the square is magic. -/
theorem generateMagicSquare_magic (hn : 3 ≤ n) (hodd : n % 2 = 1) (hmax : n * n ≤ 2147483647) :
    ∃ square, generateMagicSquare n = some square ∧ Magic n square ∧
      ∀ k : ℕ, (k : ℤ) < n * n → ∃ σ, turns n k = some σ ∧ Inside n σ.row σ.col ∧ σ.square σ.row σ.col = 0 := by
  have hsq : 0 ≤ n * n := mul_nonneg (by omega) (by omega)
  have hside := side_le (by omega) hmax
  have hlast : n * n ≤ 46340 * 46340 := mul_le_mul hside hside (by omega) (by omega)
  obtain ⟨σ, hσ, hwalked⟩ := turns_walked hn hmax (k := (n * n).toNat) (by omega)
  rw [Int.toNat_of_nonneg hsq] at hwalked
  refine ⟨σ.square, ?_, magic_indexOf hn hodd ?_, ?_⟩
  · simp only [generateMagicSquare, int_eq (show -2147483648 ≤ n * n by omega) hmax, Option.bind_eq_bind,
      Option.bind_some, hσ, int_eq (show -2147483648 ≤ n * n + 1 by omega) (by omega), Option.pure_def]
  · intro i j hin
    rw [hwalked.square i j hin, if_pos (indexOf_range (by omega) i j).2]
  · intro k hk
    obtain ⟨σ', hσ', hwalked'⟩ := turns_walked hn hmax hk.le
    refine ⟨σ', hσ', hwalked'.inside, ?_⟩
    rw [hwalked'.square _ _ hwalked'.inside, hwalked'.next hk, if_neg (lt_irrefl _)]

/-- The square of side 3. -/
theorem generateMagicSquare_three : ∃ square, generateMagicSquare 3 = some square ∧ Magic 3 square := by
  obtain ⟨square, hrun, hmagic, -⟩ := generateMagicSquare_magic (n := 3) (by decide) (by decide) (by decide)
  exact ⟨square, hrun, hmagic⟩

example : (generateMagicSquare 3).map (fun square => (List.range 3).map fun i => (List.range 3).map fun j => square i j) =
    some [[8, 1, 6], [3, 5, 7], [4, 9, 2]] := by decide

end

end SdeSystems.Puzzles
