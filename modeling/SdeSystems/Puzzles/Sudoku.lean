import Mathlib.Algebra.Group.Int.Defs
import Mathlib.Logic.Function.Basic
import Mathlib.Tactic.Ring

/-!
# Checking the rows and columns of a Sudoku board

`valid_sudoku_board` scans the rows and then the columns, with a table `seen` of
ten entries for each, and stops at the first digit that it meets twice. Its
comment asks for more: a valid row or column "contains only blanks or the digits
1-size, with no duplicate digits". No cell is compared with `size`, and a cell is
the index into `seen` whatever its value, so a cell that is no digit of the board
is accepted when it is at most 9 and is an index outside the table otherwise.

**`valid_iff`** says for which boards the answer is the right one: those whose
cells are all blanks or digits of the board, and those on which a digit repeats
before any cell outside the table is read.
-/

namespace SdeSystems.Puzzles

/-! ### The program -/

/-- The inner loop over one row or column. `none` is an index outside the ten
entries of `seen`, `some false` is the `return 0` at a digit that is in `seen`. -/
def scan : List ℤ → (ℤ → Bool) → Option Bool
  | [], _ => some true
  | val :: rest, seen =>
    if val = 0 then scan rest seen
    else if val < 0 ∨ 10 ≤ val then none
    else if seen val then some false
    else scan rest (Function.update seen val true)

/-- The outer loop: each line has a fresh `seen`, and the first `return 0` ends it. -/
def scanLines : List (List ℤ) → Option Bool
  | [] => some true
  | line :: rest => (scan line fun _ => false).bind fun ok => if ok then scanLines rest else some false

/-- The rows of `board`, from the top. -/
def rows (board : ℕ → ℕ → ℤ) (size : ℕ) : List (List ℤ) :=
  (List.range size).map fun i => (List.range size).map fun j => board i j

/-- The columns of `board`, from the left. -/
def columns (board : ℕ → ℕ → ℤ) (size : ℕ) : List (List ℤ) :=
  (List.range size).map fun j => (List.range size).map fun i => board i j

/-- `valid_sudoku_board`, with `board i j` for `*(*(board + i) + j)`. -/
def validSudokuBoard (board : ℕ → ℕ → ℤ) (size : ℕ) : Option Bool :=
  (scanLines (rows board size)).bind fun ok =>
    if ok then scanLines (columns board size) else some false

/-! ### What it is for -/

/-- A row or column with only blanks or the digits `1` to `size`, and no digit twice. -/
def ValidLine (size : ℕ) (line : ℕ → ℤ) : Prop :=
  (∀ j < size, 0 ≤ line j ∧ line j ≤ size) ∧
    ∀ j < size, ∀ j' < size, j ≠ j' → line j = line j' → line j = 0

/-- A board whose rows and columns are all valid. -/
def ValidBoard (board : ℕ → ℕ → ℤ) (size : ℕ) : Prop :=
  (∀ i < size, ValidLine size fun j => board i j) ∧ ∀ j < size, ValidLine size fun i => board i j

/-- A value that is an index of `seen`. -/
def InTable (v : ℤ) : Prop := 0 ≤ v ∧ v ≤ 9

/-- No digit stands twice in the line. -/
def NoRepeat (line : List ℤ) : Prop := line.Pairwise fun v w => v ≠ 0 → v ≠ w

/-- Reading the lines in order, a digit is met for the second time in its line
before any cell that is no index of `seen`. -/
def RepeatsFirst (lines : List (List ℤ)) : Prop :=
  ∃ before line after pre v post, lines = before ++ line :: after ∧ line = pre ++ v :: post ∧
    (∀ l ∈ before, ∀ w ∈ l, InTable w) ∧ (∀ w ∈ pre, InTable w) ∧ v ≠ 0 ∧ v ∈ pre

/-! ### One line -/

/-- One step of the scan at a digit that is not yet in the table. -/
theorem scan_new {val : ℤ} {seen : ℤ → Bool} (rest : List ℤ) (h0 : val ≠ 0) (hin : InTable val)
    (hseen : seen val = false) : scan (val :: rest) seen = scan rest (Function.update seen val true) := by
  have hb : ¬ (val < 0 ∨ 10 ≤ val) := by unfold InTable at hin; omega
  simp [scan, h0, hb, hseen]

/-- On cells that are all indices of the table the scan has a result. -/
theorem scan_total {line : List ℤ} (h : ∀ v ∈ line, InTable v) (seen : ℤ → Bool) :
    ∃ ok, scan line seen = some ok := by
  induction line generalizing seen with
  | nil => exact ⟨true, rfl⟩
  | cons val rest ih =>
    have hrest : ∀ v ∈ rest, InTable v := fun v hv => h v (List.mem_cons_of_mem _ hv)
    have hb : ¬ (val < 0 ∨ 10 ≤ val) := by
      have := h val List.mem_cons_self
      unfold InTable at this; omega
    unfold scan
    split_ifs
    · exact ih hrest seen
    · exact ⟨false, rfl⟩
    · exact ih hrest _

/-- The scan reads a line to its end exactly when all cells are indices of the
table, no digit repeats and none was there before. -/
theorem scan_true (line : List ℤ) (seen : ℤ → Bool) :
    scan line seen = some true ↔
      (∀ v ∈ line, InTable v) ∧ NoRepeat line ∧ ∀ v ∈ line, v ≠ 0 → seen v = false := by
  induction line generalizing seen with
  | nil => simp [scan, NoRepeat]
  | cons val rest ih =>
    by_cases h0 : val = 0
    · subst h0
      have hscan : scan (0 :: rest) seen = scan rest seen := by simp [scan]
      rw [hscan, ih]
      simp [NoRepeat, InTable]
    by_cases hin : InTable val
    swap
    · have hb : val < 0 ∨ 10 ≤ val := by unfold InTable at hin; omega
      have hscan : scan (val :: rest) seen = none := by simp [scan, h0, hb]
      simp [hscan, hin]
    cases hseen : seen val with
    | true =>
      have hb : ¬ (val < 0 ∨ 10 ≤ val) := by unfold InTable at hin; omega
      have hscan : scan (val :: rest) seen = some false := by simp [scan, h0, hb, hseen]
      simp [hscan, h0, hseen]
    | false =>
      rw [scan_new rest h0 hin hseen, ih]
      have hupd : (∀ v ∈ rest, v ≠ 0 → Function.update seen val true v = false) ↔
          (∀ v ∈ rest, val ≠ v) ∧ ∀ v ∈ rest, v ≠ 0 → seen v = false := by
        constructor
        · intro h
          have hne : ∀ v ∈ rest, val ≠ v := by
            intro v hv hval
            have := h v hv (hval ▸ h0)
            rw [hval, Function.update_self] at this
            cases this
          refine ⟨hne, ?_⟩
          intro v hv hv0
          have := h v hv hv0
          rwa [Function.update_of_ne (hne v hv).symm] at this
        · rintro ⟨hne, h⟩ v hv hv0
          rw [Function.update_of_ne (hne v hv).symm]
          exact h v hv hv0
      rw [hupd]
      simp only [NoRepeat, List.pairwise_cons, List.forall_mem_cons, hin, hseen, h0, true_and, ne_eq,
        not_false_eq_true, forall_const]
      tauto

/-- The scan stops at a digit that is in the table already, after cells that are
all indices of the table. -/
theorem scan_false {pre post : List ℤ} {v : ℤ} (hpre : ∀ w ∈ pre, InTable w) (h0 : v ≠ 0) (hv : v ∈ pre) :
    scan (pre ++ v :: post) (fun _ => false) = some false := by
  -- the cells before `v` and `v` itself are indices, so the scan of them has a result; it is no `true`
  have hstop : scan (pre ++ [v]) (fun _ => false) = some false := by
    have hall : ∀ w ∈ pre ++ [v], InTable w := by
      intro w hw
      rcases List.mem_append.mp hw with hw | hw
      · exact hpre w hw
      · exact List.mem_singleton.mp hw ▸ hpre v hv
    obtain ⟨ok, hok⟩ := scan_total hall fun _ => false
    cases ok with
    | false => exact hok
    | true =>
      have hno := ((scan_true _ _).mp hok).2.1
      exact absurd rfl ((List.pairwise_append.mp hno).2.2 v hv v (by simp) h0)
  -- and what comes after a `return 0` is not read
  have happ : ∀ (l : List ℤ) (seen : ℤ → Bool), scan l seen = some false →
      scan (l ++ post) seen = some false := by
    intro l
    induction l with
    | nil => intro seen h; cases h
    | cons w l ih =>
      intro seen h
      simp only [scan, List.cons_append] at h ⊢
      split_ifs at h ⊢
      · exact ih seen h
      · rfl
      · exact ih _ h
  have := happ _ _ hstop
  rwa [List.append_assoc, List.singleton_append] at this

/-! ### All lines -/

theorem scanLines_append (xs ys : List (List ℤ)) :
    scanLines (xs ++ ys) = (scanLines xs).bind fun ok => if ok then scanLines ys else some false := by
  induction xs with
  | nil => rfl
  | cons line xs ih =>
    rw [List.cons_append, scanLines, scanLines, ih, Option.bind_assoc]
    congr 1
    funext ok
    cases ok <;> rfl

theorem validSudokuBoard_eq (board : ℕ → ℕ → ℤ) (size : ℕ) :
    validSudokuBoard board size = scanLines (rows board size ++ columns board size) :=
  (scanLines_append _ _).symm

theorem scanLines_true (lines : List (List ℤ)) :
    scanLines lines = some true ↔ ∀ l ∈ lines, (∀ v ∈ l, InTable v) ∧ NoRepeat l := by
  induction lines with
  | nil => simp [scanLines]
  | cons line rest ih =>
    rw [scanLines, List.forall_mem_cons, ← ih, Option.bind_eq_some_iff]
    constructor
    · rintro ⟨ok, hok, hrest⟩
      cases ok with
      | true => exact ⟨⟨((scan_true _ _).mp hok).1, ((scan_true _ _).mp hok).2.1⟩, hrest⟩
      | false => cases hrest
    · rintro ⟨hline, hrest⟩
      exact ⟨true, (scan_true _ _).mpr ⟨hline.1, hline.2, fun _ _ _ => rfl⟩, hrest⟩

theorem scanLines_total {lines : List (List ℤ)} (h : ∀ l ∈ lines, ∀ v ∈ l, InTable v) :
    ∃ ok, scanLines lines = some ok := by
  induction lines with
  | nil => exact ⟨true, rfl⟩
  | cons line rest ih =>
    obtain ⟨ok, hok⟩ := scan_total (h line List.mem_cons_self) fun _ => false
    rw [scanLines, hok]
    cases ok with
    | true => exact ih fun l hl => h l (List.mem_cons_of_mem _ hl)
    | false => exact ⟨false, rfl⟩

/-- A repeated digit that is met before any cell outside the table makes the answer `0`. -/
theorem RepeatsFirst.scanLines {lines : List (List ℤ)} (h : RepeatsFirst lines) :
    scanLines lines = some false := by
  obtain ⟨before, line, after, pre, v, post, rfl, rfl, hbefore, hpre, h0, hv⟩ := h
  induction before with
  | nil => simp [Puzzles.scanLines, scan_false hpre h0 hv]
  | cons l before ih =>
    obtain ⟨ok, hok⟩ := scan_total (hbefore l List.mem_cons_self) fun _ => false
    have hrest := ih fun l' hl' => hbefore l' (List.mem_cons_of_mem _ hl')
    rw [List.cons_append, Puzzles.scanLines, hok]
    cases ok with
    | true => exact hrest
    | false => rfl

/-- A line with a repeated digit, its first one after cells that are all indices. -/
theorem repeat_of_scan {line : List ℤ} {seen : ℤ → Bool} (h : scan line seen = some false) :
    ∃ pre v post, line = pre ++ v :: post ∧ (∀ w ∈ pre, InTable w) ∧ v ≠ 0 ∧ (v ∈ pre ∨ seen v = true) := by
  induction line generalizing seen with
  | nil => cases h
  | cons val rest ih =>
    unfold scan at h
    split_ifs at h with h0 hb hseen
    · obtain ⟨pre, v, post, rfl, hpre, hv0, hv⟩ := ih h
      refine ⟨val :: pre, v, post, rfl, ?_, hv0, hv.imp (List.mem_cons_of_mem _) id⟩
      exact List.forall_mem_cons.mpr ⟨⟨h0.ge, by omega⟩, hpre⟩
    · exact ⟨[], val, rest, rfl, by simp, h0, Or.inr hseen⟩
    · obtain ⟨pre, v, post, rfl, hpre, hv0, hv⟩ := ih h
      refine ⟨val :: pre, v, post, rfl, ?_, hv0, ?_⟩
      · exact List.forall_mem_cons.mpr ⟨⟨by omega, by omega⟩, hpre⟩
      · by_cases hval : v = val
        · exact Or.inl (hval ▸ List.mem_cons_self)
        · exact hv.imp (List.mem_cons_of_mem _) fun hs => by rwa [Function.update_of_ne hval] at hs

/-- The answer `0` is given only at such a digit. -/
theorem repeatsFirst_of_scanLines {lines : List (List ℤ)} (h : scanLines lines = some false) :
    RepeatsFirst lines := by
  induction lines with
  | nil => cases h
  | cons line rest ih =>
    rw [Puzzles.scanLines, Option.bind_eq_some_iff] at h
    obtain ⟨ok, hok, h⟩ := h
    cases ok with
    | true =>
      obtain ⟨before, l, after, pre, v, post, rfl, hl, hbefore, hrest⟩ := ih h
      refine ⟨line :: before, l, after, pre, v, post, rfl, hl, ?_, hrest⟩
      exact List.forall_mem_cons.mpr ⟨((scan_true _ _).mp hok).1, hbefore⟩
    | false =>
      obtain ⟨pre, v, post, rfl, hpre, h0, hv⟩ := repeat_of_scan hok
      exact ⟨[], _, rest, pre, v, post, rfl, rfl, by simp, hpre, h0, hv.resolve_right (by simp)⟩

/-! ### The board -/

/-- All cells are blanks or digits of the board. -/
def InRange (board : ℕ → ℕ → ℤ) (size : ℕ) : Prop :=
  ∀ i < size, ∀ j < size, 0 ≤ board i j ∧ board i j ≤ size

theorem noRepeat_range (size : ℕ) (line : ℕ → ℤ) :
    NoRepeat ((List.range size).map line) ↔
      ∀ j < size, ∀ j' < size, j ≠ j' → line j = line j' → line j = 0 := by
  unfold NoRepeat
  rw [List.pairwise_map, List.pairwise_iff_getElem]
  constructor
  · intro h j hj j' hj' hne heq
    by_contra h0
    rcases Nat.lt_or_gt_of_ne hne with hlt | hlt
    · have := h j j' (by simpa using hj) (by simpa using hj') hlt
      simp only [List.getElem_range] at this
      exact this h0 heq
    · have := h j' j (by simpa using hj') (by simpa using hj) hlt
      simp only [List.getElem_range] at this
      exact this (heq ▸ h0) heq.symm
  · intro h j j' hj hj' hlt h0 heq
    simp only [List.getElem_range] at h0 heq
    exact h0 (h j (by simpa using hj) j' (by simpa using hj') (by omega) heq)

theorem noRepeat_lines (board : ℕ → ℕ → ℤ) (size : ℕ) (hin : InRange board size) :
    (∀ l ∈ rows board size ++ columns board size, NoRepeat l) ↔ ValidBoard board size := by
  have hrow : ∀ i < size, NoRepeat ((List.range size).map fun j => board i j) ↔
      ValidLine size fun j => board i j := by
    intro i hi
    rw [noRepeat_range]
    exact ⟨fun h => ⟨fun j hj => hin i hi j hj, h⟩, And.right⟩
  have hcol : ∀ j < size, NoRepeat ((List.range size).map fun i => board i j) ↔
      ValidLine size fun i => board i j := by
    intro j hj
    rw [noRepeat_range]
    exact ⟨fun h => ⟨fun i hi => hin i hi j hj, h⟩, And.right⟩
  simp only [rows, columns, List.forall_mem_append, List.forall_mem_map, List.mem_range, ValidBoard]
  constructor
  · rintro ⟨hr, hc⟩
    exact ⟨fun i hi => (hrow i hi).mp (hr i hi), fun j hj => (hcol j hj).mp (hc j hj)⟩
  · rintro ⟨hr, hc⟩
    exact ⟨fun i hi => (hrow i hi).mpr (hr i hi), fun j hj => (hcol j hj).mpr (hc j hj)⟩

theorem ValidBoard.inRange {board : ℕ → ℕ → ℤ} {size : ℕ} (h : ValidBoard board size) :
    InRange board size := fun i hi j hj => (h.1 i hi).1 j hj

theorem InRange.inTable {board : ℕ → ℕ → ℤ} {size : ℕ} (h : InRange board size) (hsize : size ≤ 9) :
    ∀ l ∈ rows board size ++ columns board size, ∀ v ∈ l, InTable v := by
  have hcell : ∀ i < size, ∀ j < size, InTable (board i j) := by
    intro i hi j hj
    obtain ⟨hlow, hhigh⟩ := h i hi j hj
    exact ⟨hlow, by omega⟩
  simp only [rows, columns, List.forall_mem_append, List.forall_mem_map, List.mem_range]
  exact ⟨hcell, fun j hj i hi => hcell i hi j hj⟩

/-- A board with a repeated digit is not valid. -/
theorem RepeatsFirst.not_valid {board : ℕ → ℕ → ℤ} {size : ℕ}
    (h : RepeatsFirst (rows board size ++ columns board size)) : ¬ ValidBoard board size := by
  intro hvalid
  obtain ⟨before, line, after, pre, v, post, hlines, rfl, -, -, h0, hv⟩ := h
  have hline := (noRepeat_lines board size hvalid.inRange).mpr hvalid (pre ++ v :: post) (by simp [hlines])
  exact (List.pairwise_append.mp hline).2.2 v hv v List.mem_cons_self h0 rfl

/-- **When the check is right.** On a board of at most nine rows, the answer is
given without leaving the table and is the right one exactly when all cells are
blanks or digits of the board, or a digit repeats before any cell outside the
table is read. -/
theorem valid_iff (board : ℕ → ℕ → ℤ) (size : ℕ) (hsize : size ≤ 9) :
    (∃ ok, validSudokuBoard board size = some ok ∧ (ok = true ↔ ValidBoard board size)) ↔
      InRange board size ∨ RepeatsFirst (rows board size ++ columns board size) := by
  rw [validSudokuBoard_eq]
  constructor
  · rintro ⟨ok, hok, hspec⟩
    cases ok with
    | true => exact Or.inl (hspec.mp rfl).inRange
    | false => exact Or.inr (repeatsFirst_of_scanLines hok)
  · rintro (hin | hrep)
    · obtain ⟨ok, hok⟩ := scanLines_total (hin.inTable hsize)
      refine ⟨ok, hok, ?_⟩
      cases ok with
      | true =>
        have hlines := (scanLines_true _).mp hok
        exact iff_of_true rfl ((noRepeat_lines board size hin).mp fun l hl => (hlines l hl).2)
      | false => simpa using (repeatsFirst_of_scanLines hok).not_valid
    · exact ⟨false, hrep.scanLines, by simpa using hrep.not_valid⟩

/-- The board with the rows `1 2` and `2 1` is checked right. -/
theorem valid_iff_one :
    2 ≤ 9 ∧ ∃ ok, validSudokuBoard (fun i j => if i = j then 1 else 2) 2 = some ok ∧
      (ok = true ↔ ValidBoard (fun i j => if i = j then 1 else 2) 2) := by
  refine ⟨by decide, (valid_iff (fun i j => if i = j then 1 else 2) 2 (by decide)).mpr (Or.inl ?_)⟩
  intro i _ j _
  dsimp only
  split <;> decide

/-- A board of one cell with a `5` in it is accepted, and one with a `12` or a `-1`
in it is looked up outside the table. -/
theorem accepts_no_digit :
    ¬ (∃ ok, validSudokuBoard (fun _ _ => 5) 1 = some ok ∧ (ok = true ↔ ValidBoard (fun _ _ => 5) 1)) ∧
      validSudokuBoard (fun _ _ => 12) 1 = none ∧ validSudokuBoard (fun _ _ => -1) 1 = none := by
  refine ⟨?_, by decide, by decide⟩
  rintro ⟨ok, hok, hspec⟩
  have hrun : validSudokuBoard (fun _ _ => 5) 1 = some true := by decide
  obtain rfl : true = ok := Option.some.inj (hrun.symm.trans hok)
  have hcell := (hspec.mp rfl).inRange 0 (by omega) 0 (by omega)
  simp at hcell

end SdeSystems.Puzzles
