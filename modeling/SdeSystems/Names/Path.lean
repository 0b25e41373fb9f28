import SdeSystems.Names.Map
import Mathlib.Data.List.TakeWhile
import Mathlib.Data.List.GetD

/-!
# Paths

`skipelem` and `namex` of `fs.c`. A path is the characters up to its NUL; its elements are what stands between
slashes, 14 characters of each (`elements`). `skipelem` takes the first of them off (`skipelem_spec`), so `namex`
looks the elements up one after the other, from the root or from the current directory (`namex_eq`).
-/

namespace SdeSystems.Names

open Function Lib

/-- `'/'`. -/
def slash : UInt8 := 47

/-- `T_DIR`. -/
def tDir : ℕ := 1

/-- `ROOTINO`. -/
def rootIno : ℕ := 1

/-- `skipelem(path, name)`: the rest of the path, and the bytes at `name`. -/
def skipelem (path : List UInt8) (name : Chars) : Option (List UInt8 × Chars) :=
  match path.dropWhile (· == slash) with
  | [] => none
  | c :: path =>
    let s := (c :: path).takeWhile (· != slash)
    let path := (c :: path).dropWhile (· != slash)
    let name : Chars :=
      if dirSiz ≤ s.length then fun i => if i < dirSiz then s.getD i 0 else name i
      else fun i => if i < s.length then s.getD i 0 else if i = s.length then 0 else name i
    some (path.dropWhile (· == slash), name)

/-- The files that paths lead to. -/
structure Tree where
  /-- `type`. -/
  type : ℕ → ℕ
  /-- The contents. -/
  node : ℕ → Wmap.Inode

/-- The loop of `namex(path, nameiparent, name)` from `ip` on: the inode and the bytes at `name`, or 0. There is no
result where the kernel panics. -/
def namexFrom (s : Tree) (parent : Bool) : ℕ → ℕ → List UInt8 → Chars → Option (Option (ℕ × Chars))
  | 0, _, _, _ => none
  | fuel + 1, ip, path, name =>
    match skipelem path name with
    | none => some (if parent then none else some (ip, name))
    | some (path, name) =>
      if s.type ip = 0 then none
      else if s.type ip ≠ tDir then some none
      else if parent && path.isEmpty then some (some (ip, name))
      else
        match dirlookup (s.node ip) name with
        | none => none
        | some none => some none
        | some (some (next, _)) => namexFrom s parent fuel next path name

/-- `namex(path, nameiparent, name)`, `cwd` being the current directory. -/
def namex (s : Tree) (cwd : ℕ) (path : List UInt8) (parent : Bool) (name : Chars) : Option (Option (ℕ × Chars)) :=
  namexFrom s parent (path.length + 1) (if path.head? = some slash then rootIno else cwd) path name

/-- `namei(path)`. -/
def namei (s : Tree) (cwd : ℕ) (path : List UInt8) : Option (Option ℕ) :=
  (namex s cwd path false fun _ => 0).map fun r => r.map Prod.fst

/-- `nameiparent(path, name)`. -/
def nameiparent (s : Tree) (cwd : ℕ) (path : List UInt8) (name : Chars) : Option (Option (ℕ × Chars)) :=
  namex s cwd path true name

/-! ### The elements of a path -/

/-- What stands between slashes, 14 characters of each. -/
def elements (path : List UInt8) : List (List UInt8) :=
  ((path.splitOn slash).filter fun s => !s.isEmpty).map (List.take dirSiz)

variable {path rest l : List UInt8} {name name' t : Chars} {n i : ℕ}

/-- Where the dropping stops. -/
theorem not_of_dropWhile {p : UInt8 → Bool} {c : UInt8} {tail : List UInt8} (h : l.dropWhile p = c :: tail) : p c = false := by
  have hhead := List.head_dropWhile_not p (l := l) (by rw [h]; exact List.cons_ne_nil _ _)
  simpa only [h, List.head_cons] using hhead

theorem elements_nil : elements [] = [] := rfl

theorem elements_slash : elements (slash :: path) = elements path := by
  simp only [elements, List.splitOn_eq_splitOnP]
  rw [List.splitOnP_cons_eq_if_modifyHead, if_pos (by simp)]
  rfl

theorem elements_dropWhile (path : List UInt8) : elements (path.dropWhile (· == slash)) = elements path := by
  induction path with
  | nil => rfl
  | cons c path ih =>
    by_cases hc : c = slash
    · subst hc
      rw [List.dropWhile_cons_of_pos (by simp), ih, elements_slash]
    · rw [List.dropWhile_cons_of_neg (by simpa using hc)]

/-- The first element, and those after it. -/
theorem elements_cons (hl : l ≠ []) (hslash : slash ∉ l) (hrest : rest = [] ∨ ∃ r, rest = slash :: r) :
    elements (l ++ rest) = l.take dirSiz :: elements rest := by
  have hall : ∀ x ∈ l, (x == slash) = false := by
    intro x hx
    simp only [beq_eq_false_iff_ne]
    rintro rfl
    exact hslash hx
  have hne : (!l.isEmpty) = true := by simpa using hl
  rcases hrest with rfl | ⟨r, rfl⟩
  · rw [List.append_nil, elements_nil]
    simp only [elements, List.splitOn_eq_splitOnP]
    rw [List.splitOnP_eq_singleton hall, List.filter_singleton, hne]
    rfl
  · rw [elements_slash]
    simp only [elements, List.splitOn_eq_splitOnP]
    rw [List.splitOnP_append_cons_of_forall_mem hall slash (by simp)]
    exact congrArg (List.map (List.take dirSiz)) (List.filter_cons_of_pos hne)

/-- The string at a place that has these characters. -/
theorem textFrom_list (hz : (0 : UInt8) ∉ l) (hn : l.length ≤ n) (hl : ∀ j (h : j < l.length), t (i + j) = l[j])
    (hend : l.length = n ∨ t (i + l.length) = 0) : textFrom t n i = l := by
  induction l generalizing n i with
  | nil =>
    cases n with
    | zero => rfl
    | succ n =>
      have ht : t i = 0 := hend.resolve_left (by simp)
      simp only [textFrom]
      rw [if_pos ht]
  | cons c l ih =>
    cases n with
    | zero => cases hn
    | succ n =>
      rw [List.mem_cons, not_or] at hz
      have hc : t i = c := hl 0 (Nat.succ_pos _)
      have htail : textFrom t n (i + 1) = l := by
        refine ih hz.2 (Nat.le_of_succ_le_succ hn) ?_ ?_
        · intro j hj
          have := hl (j + 1) (Nat.succ_lt_succ hj)
          rw [Nat.add_assoc, Nat.add_comm 1 j]
          exact this
        · refine hend.imp (fun h => Nat.succ.inj h) fun h => ?_
          rw [Nat.add_assoc, Nat.add_comm 1]
          exact h
      simp only [textFrom]
      rw [if_neg (by rw [hc]; exact fun h => hz.1 h.symm), htail, hc]

/-- **`skipelem`** takes the first element of a path off. -/
theorem skipelem_spec (hz : (0 : UInt8) ∉ path) (name : Chars) :
    elements path = [] ∧ skipelem path name = none ∨
      ∃ rest name', skipelem path name = some (rest, name') ∧ elements path = text name' :: elements rest ∧
        rest.length < path.length ∧ (0 : UInt8) ∉ rest ∧ (rest = [] ↔ elements rest = []) := by
  have hdrop := elements_dropWhile path
  have hsub : path.dropWhile (· == slash) <:+ path := List.dropWhile_suffix _
  simp only [skipelem]
  cases hpath : path.dropWhile (· == slash) with
  | nil =>
    rw [hpath] at hdrop
    exact .inl ⟨hdrop.symm, rfl⟩
  | cons c tail =>
    rw [hpath] at hdrop hsub
    dsimp only
    have hc : c ≠ slash := by simpa using not_of_dropWhile hpath
    obtain ⟨s, hs⟩ : ∃ s, s = (c :: tail).takeWhile (· != slash) := ⟨_, rfl⟩
    obtain ⟨r, hr⟩ : ∃ r, r = (c :: tail).dropWhile (· != slash) := ⟨_, rfl⟩
    have hsplit : s ++ r = c :: tail := by rw [hs, hr, List.takeWhile_append_dropWhile]
    rw [← hs, ← hr]
    have hsne : s ≠ [] := by
      rw [hs, List.takeWhile_cons_of_pos (by simpa using hc)]
      exact List.cons_ne_nil _ _
    have hnot : slash ∉ s := by
      intro hmem
      rw [hs] at hmem
      simpa using List.mem_takeWhile_imp hmem
    have hrcase : r = [] ∨ ∃ r', r = slash :: r' := by
      cases hcase : r with
      | nil => exact .inl rfl
      | cons d r' =>
        obtain rfl : d = slash := by simpa using not_of_dropWhile (hr.symm.trans hcase)
        exact .inr ⟨r', rfl⟩
    have hzero : (0 : UInt8) ∉ s ++ r := by
      rw [hsplit]
      exact fun h => hz (hsub.mem h)
    rw [List.mem_append, not_or] at hzero
    refine .inr ⟨r.dropWhile (· == slash), _, rfl, ?_, ?_, ?_, ?_⟩
    · rw [elements_dropWhile, ← hdrop, ← hsplit, elements_cons hsne hnot hrcase]
      congr 1
      refine (textFrom_list ?_ ?_ ?_ ?_).symm
      · exact fun h => hzero.1 (List.mem_of_mem_take h)
      · rw [List.length_take]
        exact Nat.min_le_left _ _
      · intro j hj
        rw [List.length_take] at hj
        rw [Nat.zero_add, List.getElem_take]
        have hget : s.getD j 0 = s[j] := List.getD_eq_getElem _ _ (by omega)
        by_cases hlong : dirSiz ≤ s.length
        · rw [if_pos hlong, if_pos (by omega), hget]
        · rw [if_neg hlong, if_pos (by omega), hget]
      · rw [List.length_take]
        by_cases hlong : dirSiz ≤ s.length
        · exact .inl (Nat.min_eq_left hlong)
        · refine .inr ?_
          rw [if_neg hlong, Nat.zero_add, Nat.min_eq_right (by omega), if_neg (Nat.lt_irrefl _), if_pos rfl]
    · have hlen : (r.dropWhile (· == slash)).length ≤ r.length := (List.dropWhile_suffix _).length_le
      have hpos : 0 < s.length := List.length_pos_of_ne_nil hsne
      have htotal : s.length + r.length = (c :: tail).length := by rw [← hsplit, List.length_append]
      have hle := hsub.length_le
      omega
    · exact fun h => hzero.2 ((List.dropWhile_suffix _).mem h)
    · constructor
      · intro h
        rw [h, elements_nil]
      · intro h
        cases hcase : r.dropWhile (· == slash) with
        | nil => rfl
        | cons d tail' =>
          rw [hcase] at h
          have hd : d ≠ slash := by simpa using not_of_dropWhile hcase
          have hmore : elements (d :: tail') ≠ [] := by
            have htake : (d :: tail').takeWhile (· != slash) ≠ [] := by
              rw [List.takeWhile_cons_of_pos (by simpa using hd)]
              exact List.cons_ne_nil _ _
            rw [← List.takeWhile_append_dropWhile (p := (· != slash)) (l := d :: tail'), elements_cons htake]
            · exact List.cons_ne_nil _ _
            · intro hmem
              simpa using List.mem_takeWhile_imp hmem
            · cases hend : (d :: tail').dropWhile (· != slash) with
              | nil => exact .inl rfl
              | cons e tail'' =>
                obtain rfl : e = slash := by simpa using not_of_dropWhile hend
                exact .inr ⟨tail'', rfl⟩
          exact absurd h hmore

/-! ### Walks -/

/-- The directories are in order, with these maps, and an entry is one of a file. -/
structure Tree.Ok (s : Tree) (maps : ℕ → List UInt8 → Option ℕ) : Prop where
  /-- The directories. -/
  dirs : ∀ ip, s.type ip = tDir → ∃ size bytes, IsDir (s.node ip) size bytes (maps ip)
  /-- What they lead to. -/
  live : ∀ ip, s.type ip = tDir → ∀ nm j, maps ip nm = some j → s.type j ≠ 0

/-- The names are looked up one after the other. -/
def walk (s : Tree) (maps : ℕ → List UInt8 → Option ℕ) : ℕ → List (List UInt8) → Option ℕ
  | ip, [] => some ip
  | ip, nm :: nms => if s.type ip = tDir then (maps ip nm).bind fun j => walk s maps j nms else none

/-- All names but the last are looked up, which is to stand in a directory. -/
def walkParent (s : Tree) (maps : ℕ → List UInt8 → Option ℕ) : ℕ → List (List UInt8) → Option (ℕ × List UInt8)
  | _, [] => none
  | ip, [nm] => if s.type ip = tDir then some (ip, nm) else none
  | ip, nm :: nms => if s.type ip = tDir then (maps ip nm).bind fun j => walkParent s maps j nms else none

variable {s : Tree} {maps : ℕ → List UInt8 → Option ℕ} {ip cwd fuel : ℕ}

/-- `namei` is a walk. -/
theorem namexFrom_false (hs : s.Ok maps) (hip : s.type ip ≠ 0) (hz : (0 : UInt8) ∉ path) (hfuel : path.length < fuel) :
    (namexFrom s false fuel ip path name).map (fun r => r.map Prod.fst) = some (walk s maps ip (elements path)) := by
  induction fuel generalizing ip path name with
  | zero => omega
  | succ fuel ih =>
    rw [namexFrom]
    rcases skipelem_spec hz name with ⟨hel, hskip⟩ | ⟨rest, name', hskip, hel, hlen, hz', -⟩
    · rw [hskip, hel]
      rfl
    · rw [hskip, hel]
      dsimp only
      rw [if_neg hip, walk]
      by_cases hdir : s.type ip = tDir
      · rw [if_neg (not_not.mpr hdir), if_pos hdir, Bool.false_and, if_neg Bool.false_ne_true]
        obtain ⟨size, bytes, hmap⟩ := hs.dirs ip hdir
        rcases hmap.lookup name' with ⟨hlookup, hm⟩ | ⟨j, hlookup, hm, -⟩
        · rw [hlookup, hm]
          rfl
        · rw [hlookup, hm]
          exact ih (hs.live ip hdir _ _ hm) hz' (by omega)
      · rw [if_pos hdir, if_neg hdir]
        rfl

/-- `nameiparent` is a walk to the directory before. -/
theorem namexFrom_true (hs : s.Ok maps) (hip : s.type ip ≠ 0) (hz : (0 : UInt8) ∉ path) (hfuel : path.length < fuel) :
    (namexFrom s true fuel ip path name).map (fun r => r.map fun x => (x.1, text x.2)) =
      some (walkParent s maps ip (elements path)) := by
  induction fuel generalizing ip path name with
  | zero => omega
  | succ fuel ih =>
    rw [namexFrom]
    rcases skipelem_spec hz name with ⟨hel, hskip⟩ | ⟨rest, name', hskip, hel, hlen, hz', hlast⟩
    · rw [hskip, hel]
      rfl
    · rw [hskip, hel]
      dsimp only
      rw [if_neg hip]
      by_cases hdir : s.type ip = tDir
      · rw [if_neg (not_not.mpr hdir), Bool.true_and]
        by_cases hrest : rest = []
        · rw [hrest, elements_nil, List.isEmpty_nil, if_pos rfl, walkParent, if_pos hdir]
          rfl
        · have hmore : elements rest ≠ [] := fun h => hrest (hlast.mpr h)
          have hwalk : walkParent s maps ip (text name' :: elements rest) =
              if s.type ip = tDir then (maps ip (text name')).bind fun j => walkParent s maps j (elements rest) else none := by
            cases hel' : elements rest with
            | nil => exact absurd hel' hmore
            | cons nm nms => rfl
          rw [if_neg (by simpa using hrest), hwalk, if_pos hdir]
          obtain ⟨size, bytes, hmap⟩ := hs.dirs ip hdir
          rcases hmap.lookup name' with ⟨hlookup, hm⟩ | ⟨j, hlookup, hm, -⟩
          · rw [hlookup, hm]
            rfl
          · rw [hlookup, hm]
            exact ih (hs.live ip hdir _ _ hm) hz' (by omega)
      · rw [if_pos hdir]
        cases hel' : elements rest with
        | nil =>
          rw [walkParent, if_neg hdir]
          rfl
        | cons nm nms =>
          rw [walkParent, if_neg hdir]
          · rfl
          · simp

/-- A walk is one to the directory before, and a lookup. -/
theorem walk_eq_walkParent {nms : List (List UInt8)} (h : nms ≠ []) :
    walk s maps ip nms = (walkParent s maps ip nms).bind fun x => maps x.1 x.2 := by
  induction nms generalizing ip with
  | nil => exact absurd rfl h
  | cons nm nms ih =>
    cases nms with
    | nil =>
      simp only [walk, walkParent]
      by_cases hdir : s.type ip = tDir
      · rw [if_pos hdir, if_pos hdir, Option.bind_some]
        cases maps ip nm with
        | none => rfl
        | some j => rfl
      · rw [if_neg hdir, if_neg hdir]
        rfl
    | cons nm' nms =>
      rw [walk, walkParent]
      · by_cases hdir : s.type ip = tDir
        · rw [if_pos hdir, if_pos hdir]
          cases maps ip nm with
          | none => rfl
          | some j => exact ih (List.cons_ne_nil _ _)
        · rw [if_neg hdir, if_neg hdir]
          rfl
      · simp

/-- **A path is what its elements are**: slashes at its start or end or several of them and characters beyond the
fourteenth of a name do not matter. `namei` looks the elements up one after the other, `nameiparent` all but the
last, which it gives; and `namei` finds what a lookup of that name in that directory finds. -/
theorem namex_eq (hs : s.Ok maps) (hroot : s.type rootIno ≠ 0) (hcwd : s.type cwd ≠ 0) (hz : (0 : UInt8) ∉ path) :
    let start := if path.head? = some slash then rootIno else cwd
    namei s cwd path = some (walk s maps start (elements path)) ∧
      (∀ name, (nameiparent s cwd path name).map (fun r => r.map fun x => (x.1, text x.2)) =
        some (walkParent s maps start (elements path))) ∧
      (elements path ≠ [] → walk s maps start (elements path) =
        (walkParent s maps start (elements path)).bind fun x => maps x.1 x.2) := by
  intro start
  have hstart : s.type start ≠ 0 := by
    by_cases h : path.head? = some slash
    · simp only [start, if_pos h]
      exact hroot
    · simp only [start, if_neg h]
      exact hcwd
  exact ⟨namexFrom_false hs hstart hz (Nat.lt_succ_self _), fun name => namexFrom_true hs hstart hz (Nat.lt_succ_self _),
    walk_eq_walkParent⟩

/-- The file `a` of the root directory, by the path `//a/`. -/
theorem namex_eq_root : ∃ s cwd, namei s cwd [47, 47, 97, 47] = some (some 2) := by
  rcases isDir_empty.link (fun i => if i = 0 then 97 else 0) (fun _ => 0) 2 (by decide) with
    ⟨h, -⟩ | ⟨-, hfull, -⟩ | ⟨-, -, size, bytes, -, hdir⟩
  · exact absurd rfl h
  · rw [isDir_empty.full_iff] at hfull
    exact absurd hfull.1 (by decide)
  · obtain ⟨s, hs⟩ : ∃ s : Tree, s = ⟨fun ip => if ip = 1 then 1 else 2, fun _ => .regular size bytes⟩ := ⟨_, rfl⟩
    have htype : s.type 1 = tDir := by rw [hs]; rfl
    have hlive (ip : ℕ) : s.type ip ≠ 0 := by
      rw [hs]
      dsimp only
      split <;> decide
    have hok : s.Ok fun _ => update (fun _ => none) [97] (some 2) :=
      ⟨fun ip _ => ⟨size, bytes, by rw [hs]; exact hdir⟩, fun ip _ nm j _ => hlive j⟩
    have hz : (0 : UInt8) ∉ [47, 47, 97, 47] := by decide
    obtain ⟨hnamei, -⟩ := namex_eq hok (hlive 1) (hlive 1) hz
    refine ⟨s, 1, hnamei.trans ?_⟩
    have helements : elements [47, 47, 97, 47] = [[97]] := by decide
    rw [helements]
    simp [walk, htype, rootIno]

end SdeSystems.Names
