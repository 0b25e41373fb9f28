import SdeSystems.Lib.For
import Mathlib.Logic.Function.Basic
import Mathlib.Algebra.Group.Defs

/-!
# The blocked matrix product

`MatMatMultiply` reads the flat row-major arrays as arrays of four dimensions, and
computes `C` tile by tile: for each block of `K` it copies a block of `A` and one of `B`
into local arrays and adds their product to a local array, which it writes to `C` at the
end. `auto` makes the reinterpreted arrays pointers to their first rows, so what is
written through `blockC` is written to `C`.

The elements are of any type with a zero, a sum and a product, of which nothing is
assumed. **`matMatMultiply_plain`**: for every order of the tiles, and whatever the
local arrays hold before, each element of `C` is written exactly once, and it is the sum
that the plain loop over `k` computes, in the same order of operations.
-/

namespace SdeSystems.Gemm

open Lib

variable {α : Type*} [Zero α] [Add α] [Mul α]

/-! ### The program -/

/-- `localA`, `localB` and `localC` of the thread at work. -/
structure Locals (α : Type*) where
  /-- `localA`. -/
  a : ℕ → ℕ → α
  /-- `localB`. -/
  b : ℕ → ℕ → α
  /-- `localC`. -/
  c : ℕ → ℕ → α

/-- The array `C` as the floats from `&C[0][0]` on. -/
structure Out (α : Type*) where
  /-- The elements. -/
  cells : ℕ → α
  /-- Those that have been written, in order. This is not in the program. -/
  written : List ℕ

/-- The place of `block[bi][ii][bj][jj]` in an array `float[..][BS][NB][BS]`. -/
def at4 (BS NB bi ii bj jj : ℕ) : ℕ := ((bi * BS + ii) * NB + bj) * BS + jj

/-- `x[ii][jj] = v`. -/
def set2 (x : ℕ → ℕ → α) (ii jj : ℕ) (v : α) : ℕ → ℕ → α := fun i j => if i = ii ∧ j = jj then v else x i j

/-- The loops that clear `localC`. -/
def clearC (BS : ℕ) (l : Locals α) : Locals α :=
  { l with c := loop BS (fun ii => loop BS fun jj c => set2 c ii jj 0) l.c }

/-- The loops that copy a block of `A` and one of `B`. -/
def loadBlocks (BS KB NB : ℕ) (A B : ℕ → α) (bi bj bk : ℕ) (l : Locals α) : Locals α :=
  loop BS (fun ii => loop BS fun jj l =>
    { l with
      a := set2 l.a ii jj (A (at4 BS KB bi ii bk jj))
      b := set2 l.b ii jj (B (at4 BS NB bk ii bj jj)) }) l

/-- The loops that add the product of the blocks to `localC`. -/
def multiply (BS : ℕ) (l : Locals α) : Locals α :=
  { l with
    c := loop BS (fun ii => loop BS fun kk => loop BS fun jj c =>
      set2 c ii jj (c ii jj + l.a ii kk * l.b kk jj)) l.c }

/-- The loops that write `localC` to the tile of `C`. -/
def storeC (BS NB bi bj : ℕ) (l : Locals α) (out : Out α) : Out α :=
  loop BS (fun ii => loop BS fun jj out =>
    ⟨Function.update out.cells (at4 BS NB bi ii bj jj) (l.c ii jj), out.written ++ [at4 BS NB bi ii bj jj]⟩) out

/-- The body of the loops over the tiles. -/
def tile (BS KB NB : ℕ) (A B : ℕ → α) (bi bj : ℕ) (l : Locals α) (out : Out α) : Out α :=
  storeC BS NB bi bj
    (loop KB (fun bk l => multiply BS (loadBlocks BS KB NB A B bi bj bk l)) (clearC BS l)) out

/-- The tiles `(bi, bj)`. -/
def tiles (M N BS : ℕ) : List (ℕ × ℕ) :=
  (List.range (M / BS)).flatMap fun bi => (List.range (N / BS)).map fun bj => (bi, bj)

/-- `MatMatMultiply` of the rectangular matrices, the tiles in the order `order` and the
local arrays as `locals` has them at the start of each. -/
def matMatMultiply (K N BS : ℕ) (order : List (ℕ × ℕ)) (locals : ℕ × ℕ → Locals α) (A B C : ℕ → α) : Out α :=
  order.foldl (fun out t => tile BS (K / BS) (N / BS) A B t.1 t.2 (locals t) out) ⟨C, []⟩

/-- `MatMatMultiply` of the square matrices. -/
def matMatMultiplySquare (S BS : ℕ) (order : List (ℕ × ℕ)) (locals : ℕ × ℕ → Locals α) (A B C : ℕ → α) : Out α :=
  matMatMultiply S S BS order locals A B C

/-- The plain loop over `k` for one element. -/
def dot (K N : ℕ) (A B : ℕ → α) (i j : ℕ) : α :=
  (List.range K).foldl (fun s k => s + A (i * K + k) * B (k * N + j)) 0

/-! ### The local arrays -/

section

variable {BS KB NB bi bj bk i j : ℕ} {A B : ℕ → α} {l : Locals α}

omit [Zero α] [Add α] [Mul α] in
/-- Two loops over a local array, in which each turn sets one element, seen at one of them. -/
theorem loop_set2 (hi : i < BS) (hj : j < BS) {body : ℕ → ℕ → α → α}
    (h : ∀ ii jj, ¬ (i = ii ∧ j = jj) → ∀ v, body ii jj v = v) (v : α) :
    loop BS (fun ii => loop BS fun jj v => body ii jj v) v = body i j v := by
  rw [loop_select hi fun ii hne v => loop_id fun jj _ v => h ii jj (fun hc => hne hc.1.symm) v]
  exact loop_select hj (fun jj hne v => h i jj (fun hc => hne hc.2.symm) v)

omit [Add α] [Mul α] in
theorem clearC_c (hi : i < BS) (hj : j < BS) : (clearC BS l).c i j = 0 := by
  have hobs : (clearC BS l).c i j =
      loop BS (fun ii => loop BS fun jj v => if i = ii ∧ j = jj then 0 else v) (l.c i j) :=
    loop_obs (fun c : ℕ → ℕ → α => c i j) fun ii _ c => loop_obs (fun c : ℕ → ℕ → α => c i j) fun _ _ _ => rfl
  rw [hobs, loop_set2 hi hj (fun ii jj hne v => if_neg hne), if_pos ⟨rfl, rfl⟩]

omit [Zero α] [Add α] [Mul α] in
theorem loadBlocks_a (hi : i < BS) (hj : j < BS) :
    (loadBlocks BS KB NB A B bi bj bk l).a i j = A (at4 BS KB bi i bk j) := by
  have hobs : (loadBlocks BS KB NB A B bi bj bk l).a i j =
      loop BS (fun ii => loop BS fun jj v => if i = ii ∧ j = jj then A (at4 BS KB bi ii bk jj) else v) (l.a i j) :=
    loop_obs (fun l : Locals α => l.a i j) fun ii _ l => loop_obs (fun l : Locals α => l.a i j) fun _ _ _ => rfl
  rw [hobs, loop_set2 hi hj (fun ii jj hne v => if_neg hne), if_pos ⟨rfl, rfl⟩]

omit [Zero α] [Add α] [Mul α] in
theorem loadBlocks_b (hi : i < BS) (hj : j < BS) :
    (loadBlocks BS KB NB A B bi bj bk l).b i j = B (at4 BS NB bk i bj j) := by
  have hobs : (loadBlocks BS KB NB A B bi bj bk l).b i j =
      loop BS (fun ii => loop BS fun jj v => if i = ii ∧ j = jj then B (at4 BS NB bk ii bj jj) else v) (l.b i j) :=
    loop_obs (fun l : Locals α => l.b i j) fun ii _ l => loop_obs (fun l : Locals α => l.b i j) fun _ _ _ => rfl
  rw [hobs, loop_set2 hi hj (fun ii jj hne v => if_neg hne), if_pos ⟨rfl, rfl⟩]

omit [Zero α] [Add α] [Mul α] in
theorem loadBlocks_c : (loadBlocks BS KB NB A B bi bj bk l).c = l.c := by
  refine loop_inv (I := fun l' : Locals α => l'.c = l.c) ?_ rfl
  intro ii _ l' h
  exact loop_inv (I := fun l' : Locals α => l'.c = l.c) (fun jj _ l' h => h) h

omit [Zero α] in
/-- The product of the blocks is added in the order of `kk`. -/
theorem multiply_c (hi : i < BS) (hj : j < BS) :
    (multiply BS l).c i j = loop BS (fun kk v => v + l.a i kk * l.b kk j) (l.c i j) := by
  have hobs : (multiply BS l).c i j =
      loop BS (fun ii => loop BS fun kk => loop BS fun jj v =>
        if i = ii ∧ j = jj then v + l.a ii kk * l.b kk jj else v) (l.c i j) := by
    refine loop_obs (fun c : ℕ → ℕ → α => c i j) fun ii _ c =>
      loop_obs (fun c : ℕ → ℕ → α => c i j) fun kk _ c => loop_obs (fun c : ℕ → ℕ → α => c i j) ?_
    intro jj _ c
    dsimp only [set2]
    split <;> rename_i hc
    · rw [hc.1, hc.2]
    · rfl
  rw [hobs, loop_select hi fun ii hne v => loop_id fun kk _ v => loop_id fun jj _ v => if_neg fun hc => hne hc.1.symm]
  apply loop_congr
  intro kk _ v
  rw [loop_select hj fun jj hne v => if_neg fun hc => hne hc.2.symm, if_pos ⟨rfl, rfl⟩]

omit [Zero α] [Add α] [Mul α] in
/-- The element in a block is that of the matrix. -/
theorem at4_eq (BS NB bi ii bj jj : ℕ) :
    at4 BS NB bi ii bj jj = (bi * BS + ii) * (NB * BS) + (bj * BS + jj) := by
  unfold at4
  ring

/-- **What a tile computes**: after the blocks of `K`, the local array has the elements of the
product, added in the order of `k`. -/
theorem localC_eq (hi : i < BS) (hj : j < BS) :
    (loop KB (fun bk l => multiply BS (loadBlocks BS KB NB A B bi bj bk l)) (clearC BS l)).c i j =
      dot (KB * BS) (NB * BS) A B (bi * BS + i) (bj * BS + j) := by
  have hobs : (loop KB (fun bk l => multiply BS (loadBlocks BS KB NB A B bi bj bk l)) (clearC BS l)).c i j =
      loop KB (fun bk => loop BS fun kk v =>
        v + A ((bi * BS + i) * (KB * BS) + (bk * BS + kk)) * B ((bk * BS + kk) * (NB * BS) + (bj * BS + j)))
        ((clearC BS l).c i j) := by
    apply loop_obs (fun l : Locals α => l.c i j)
    intro bk _ l
    rw [multiply_c hi hj, loadBlocks_c]
    apply loop_congr
    intro kk hkk v
    rw [loadBlocks_a hi hkk, loadBlocks_b hkk hj, at4_eq, at4_eq]
  have hmul : loop (KB * BS)
      (fun k v => v + A ((bi * BS + i) * (KB * BS) + k) * B (k * (NB * BS) + (bj * BS + j))) 0 =
      loop KB (fun bk => loop BS fun kk v =>
        v + A ((bi * BS + i) * (KB * BS) + (bk * BS + kk)) * B ((bk * BS + kk) * (NB * BS) + (bj * BS + j))) 0 :=
    loop_mul
  rw [hobs, clearC_c hi hj, ← hmul]
  rfl

end

/-! ### The array `C` -/

section

variable {BS KB NB bi bj : ℕ} {A B C V : ℕ → α} {l : Locals α} {out : Out α}

/-- The elements that have been written have their values, and the others are as before. -/
def Written (V C : ℕ → α) (out : Out α) : Prop :=
  ∀ x, (x ∈ out.written → out.cells x = V x) ∧ (x ∉ out.written → out.cells x = C x)

omit [Zero α] [Add α] [Mul α] in
/-- One element is written. -/
theorem Written.update (h : Written V C out) {y : ℕ} {v : α} (hv : v = V y) :
    Written V C ⟨Function.update out.cells y v, out.written ++ [y]⟩ := by
  intro x
  dsimp only
  by_cases hx : x = y
  · subst hx
    rw [Function.update_self]
    exact ⟨fun _ => hv, fun hn => absurd (by simp) hn⟩
  · rw [Function.update_of_ne hx]
    simpa [hx] using h x

omit [Zero α] [Add α] [Mul α] in
theorem storeC_written (h : Written V C out)
    (hv : ∀ ii < BS, ∀ jj < BS, l.c ii jj = V (at4 BS NB bi ii bj jj)) : Written V C (storeC BS NB bi bj l out) :=
  loop_inv (fun ii hii _ hout => loop_inv (fun jj hjj _ hout => hout.update (hv ii hii jj hjj)) hout) h

omit [Zero α] [Add α] [Mul α] in
/-- The elements of a tile. -/
theorem storeC_order : (storeC BS NB bi bj l out).written = out.written ++
    (List.range BS).flatMap fun ii => (List.range BS).flatMap fun jj => [at4 BS NB bi ii bj jj] := by
  have hobs : (storeC BS NB bi bj l out).written =
      loop BS (fun ii => loop BS fun jj w => w ++ [at4 BS NB bi ii bj jj]) out.written :=
    loop_obs Out.written fun ii _ _ => loop_obs Out.written fun _ _ _ => rfl
  have hinner : (fun ii => loop BS fun jj w => w ++ [at4 BS NB bi ii bj jj]) =
      fun ii w => w ++ (List.range BS).flatMap fun jj => [at4 BS NB bi ii bj jj] := by
    funext ii w
    exact loop_append _ w
  rw [hobs, hinner, loop_append]

/-- The product as an array. -/
def product (K N : ℕ) (A B : ℕ → α) (x : ℕ) : α := dot K N A B (x / N) (x % N)

theorem product_at4 {ii jj : ℕ} (hbj : bj < NB) (hjj : jj < BS) (K : ℕ) :
    product K (NB * BS) A B (at4 BS NB bi ii bj jj) = dot K (NB * BS) A B (bi * BS + ii) (bj * BS + jj) := by
  have hlt : bj * BS + jj < NB * BS := by
    have hle : (bj + 1) * BS ≤ NB * BS := Nat.mul_le_mul_right BS hbj
    rw [Nat.add_mul, Nat.one_mul] at hle
    omega
  have hpos : 0 < NB * BS := by omega
  rw [product, at4_eq, Nat.mul_comm (bi * BS + ii), Nat.mul_add_div hpos, Nat.mul_add_mod, Nat.div_eq_of_lt hlt,
    Nat.mod_eq_of_lt hlt, Nat.add_zero]

/-- **A tile** writes its elements of the product. -/
theorem tile_written (hbj : bj < NB) (h : Written (product (KB * BS) (NB * BS) A B) C out) :
    Written (product (KB * BS) (NB * BS) A B) C (tile BS KB NB A B bi bj l out) := by
  apply storeC_written h
  intro ii hii jj hjj
  rw [localC_eq hii hjj, product_at4 hbj hjj]

/-! ### All tiles -/

/-- The elements that a list of tiles goes through. -/
def elements (BS NB : ℕ) (order : List (ℕ × ℕ)) : List ℕ :=
  order.flatMap fun t => (List.range BS).flatMap fun ii => (List.range BS).flatMap fun jj =>
    [at4 BS NB t.1 ii t.2 jj]

theorem foldl_tile {order : List (ℕ × ℕ)} (locals : ℕ × ℕ → Locals α) (hbj : ∀ t ∈ order, t.2 < NB)
    (h : Written (product (KB * BS) (NB * BS) A B) C out) :
    Written (product (KB * BS) (NB * BS) A B) C
        (order.foldl (fun out t => tile BS KB NB A B t.1 t.2 (locals t) out) out) ∧
      (order.foldl (fun out t => tile BS KB NB A B t.1 t.2 (locals t) out) out).written =
        out.written ++ elements BS NB order := by
  induction order generalizing out with
  | nil => exact ⟨h, by simp [elements]⟩
  | cons t order ih =>
    have htile : Written (product (KB * BS) (NB * BS) A B) C (tile BS KB NB A B t.1 t.2 (locals t) out) :=
      tile_written (hbj t List.mem_cons_self) h
    obtain ⟨hw, ho⟩ := ih (fun t' ht' => hbj t' (List.mem_cons_of_mem t ht')) htile
    refine ⟨hw, ho.trans ?_⟩
    rw [tile, storeC_order, List.append_assoc]
    rfl

omit [Zero α] [Add α] [Mul α] in
/-- All tiles go through all elements, each once. -/
theorem elements_tiles (MB NB BS : ℕ) (hBS : 0 < BS) :
    (elements BS NB (tiles (MB * BS) (NB * BS) BS)).Perm (List.range (MB * BS * (NB * BS))) := by
  have hall : List.range (MB * BS * (NB * BS)) = (List.range MB).flatMap fun bi => (List.range BS).flatMap fun ii =>
      (List.range NB).flatMap fun bj => (List.range BS).flatMap fun jj => [at4 BS NB bi ii bj jj] := by
    rw [← Nat.mul_assoc, ← List.flatMap_singleton' (List.range (MB * BS * NB * BS)), flatMap_range_mul,
      flatMap_range_mul, flatMap_range_mul]
    rfl
  rw [hall, tiles, Nat.mul_div_cancel _ hBS, Nat.mul_div_cancel _ hBS, elements, List.flatMap_assoc]
  apply List.Perm.flatMap_left _
  intro bi _
  rw [List.flatMap_map]
  exact flatMap_comm_perm _ _ _

end

/-- Every element of `C` has been written exactly once, and it is the sum of the plain loop. -/
def Plain (M K N : ℕ) (A B : ℕ → α) (out : Out α) : Prop :=
  out.written.Perm (List.range (M * N)) ∧ ∀ i < M, ∀ j < N, out.cells (i * N + j) = dot K N A B i j

theorem plain_of_perm {M K N BS : ℕ} (hBS : 0 < BS) (hM : BS ∣ M) (hK : BS ∣ K) (hN : BS ∣ N)
    {order : List (ℕ × ℕ)} (horder : order.Perm (tiles M N BS)) (locals : ℕ × ℕ → Locals α) (A B C : ℕ → α) :
    Plain M K N A B (matMatMultiply K N BS order locals A B C) := by
  obtain ⟨MB, rfl⟩ := hM
  obtain ⟨KB, rfl⟩ := hK
  obtain ⟨NB, rfl⟩ := hN
  rw [Nat.mul_comm BS MB, Nat.mul_comm BS KB, Nat.mul_comm BS NB] at *
  have hbj : ∀ t ∈ order, t.2 < NB := by
    intro t ht
    have hmem := horder.mem_iff.mp ht
    simp only [tiles, List.mem_flatMap, List.mem_map, List.mem_range, Nat.mul_div_cancel _ hBS] at hmem
    obtain ⟨bi, -, bj, hbj, rfl⟩ := hmem
    exact hbj
  have hstart : Written (product (KB * BS) (NB * BS) A B) C ⟨C, []⟩ := fun x => ⟨by simp, fun _ => rfl⟩
  obtain ⟨hw, ho⟩ := foldl_tile locals hbj hstart
  have hrun : matMatMultiply (KB * BS) (NB * BS) BS order locals A B C =
      order.foldl (fun out t => tile BS KB NB A B t.1 t.2 (locals t) out) ⟨C, []⟩ := by
    rw [matMatMultiply, Nat.mul_div_cancel _ hBS, Nat.mul_div_cancel _ hBS]
  rw [hrun]
  have hperm : (order.foldl (fun out t => tile BS KB NB A B t.1 t.2 (locals t) out) ⟨C, []⟩).written.Perm
      (List.range (MB * BS * (NB * BS))) := by
    rw [ho, List.nil_append]
    exact (horder.flatMap_right _).trans (elements_tiles MB NB BS hBS)
  refine ⟨hperm, ?_⟩
  intro i hi j hj
  have hlt : i * (NB * BS) + j < MB * BS * (NB * BS) := by
    have hle : (i + 1) * (NB * BS) ≤ MB * BS * (NB * BS) := Nat.mul_le_mul_right _ hi
    rw [Nat.add_mul, Nat.one_mul] at hle
    omega
  rw [(hw _).1 (hperm.mem_iff.mpr (List.mem_range.mpr hlt)), product, Nat.mul_comm i, Nat.mul_add_div (by omega),
    Nat.mul_add_mod, Nat.div_eq_of_lt hj, Nat.mod_eq_of_lt hj, Nat.add_zero]

/-- **The blocked product is the plain one**, of rectangular and of square matrices. For
all shapes that the block size divides, in every order of the tiles and with anything in
the local arrays before each: every element of `C` is written exactly once, and it is the
sum of the plain loop over `k`, with the same operations in the same order. -/
theorem matMatMultiply_plain {BS : ℕ} (hBS : 0 < BS) (locals : ℕ × ℕ → Locals α) (A B C : ℕ → α) :
    (∀ M K N order, BS ∣ M → BS ∣ K → BS ∣ N → order.Perm (tiles M N BS) →
      Plain M K N A B (matMatMultiply K N BS order locals A B C)) ∧
    ∀ S order, BS ∣ S → order.Perm (tiles S S BS) →
      Plain S S S A B (matMatMultiplySquare S BS order locals A B C) :=
  ⟨fun _ _ _ _ hM hK hN horder => plain_of_perm hBS hM hK hN horder locals A B C,
    fun _ _ hS horder => plain_of_perm hBS hS hS hS horder locals A B C⟩

/-- Matrices of 4 by 2 and 2 by 4, and of 4 by 4, in blocks of 2 whose tiles come out of order. -/
theorem matMatMultiply_plain_two :
    Plain 4 2 4 (fun x => x) (fun x => x + 1)
        (matMatMultiply 2 4 2 [(1, 1), (0, 0), (1, 0), (0, 1)] (fun _ => ⟨fun _ _ => 7, fun _ _ => 7, fun _ _ => 7⟩)
          (fun x => x) (fun x => x + 1) fun _ => 9) ∧
      Plain 4 4 4 (fun x => x) (fun x => x + 1)
        (matMatMultiplySquare 4 2 [(0, 1), (1, 1), (1, 0), (0, 0)] (fun _ => ⟨fun _ _ => 7, fun _ _ => 7, fun _ _ => 7⟩)
          (fun x => x) (fun x => x + 1) fun _ => 9) := by
  obtain ⟨hrect, hsquare⟩ := matMatMultiply_plain (show 0 < 2 by decide)
    (fun _ => ⟨fun _ _ => 7, fun _ _ => 7, fun _ _ => 7⟩) (fun x : ℕ => x) (fun x => x + 1) fun _ => 9
  exact ⟨hrect 4 2 4 _ (by decide) (by decide) (by decide) (by decide), hsquare 4 _ (by decide) (by decide)⟩

end SdeSystems.Gemm
