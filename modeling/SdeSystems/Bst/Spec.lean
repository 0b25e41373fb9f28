import SdeSystems.Bst.Invariant

/-!
# The map a search tree stands for

What `bst_insert`, `bst_lookup` and `bst_delete` are for: a finite map from keys to values.
`apply` is a call on the map, whole and at once, and `Takes` says that a call has done to a
tree what it does to the map.
-/

namespace SdeSystems.Bst

open Function Lib Lib.Tree

/-- A map from keys to values. -/
abbrev Map := ℤ → Option ℤ

/-- A call on the map: what becomes of it and what is returned. With `ok` false the
allocation in `insert` fails. -/
def apply (ok : Bool) (M : Map) : Op → Map × Ret
  | .insert k v =>
    match M k with
    | some _ => (M, .fail)
    | none => if ok then (update M k (some v), .ok) else (M, .fail)
  | .lookup k =>
    match M k with
    | some v => (M, .found v)
    | none => (M, .fail)
  | .delete k =>
    match M k with
    | some _ => (update M k none, .ok)
    | none => (M, .fail)

/-- The tree has the entries of the map. -/
def Entries (V : View) (M : Map) : Prop := ∀ k v, (k, v) ∈ V.toList ↔ M k = some v

/-- Going from `V` to `V'` with `r` returned is what the call does to the map. -/
def Takes (ok : Bool) (op : Op) (V V' : View) (r : Ret) : Prop :=
  ∀ M, Entries V M → (apply ok M op).2 = r ∧ Entries V' (apply ok M op).1

theorem Entries.eq_none {V : View} {M : Map} (h : Entries V M) {k : ℤ} (hk : ∀ p ∈ V.toList, p.1 ≠ k) :
    M k = none := by
  by_contra hne
  obtain ⟨v, hv⟩ := Option.ne_none_iff_exists'.mp hne
  exact hk (k, v) ((h k v).mpr hv) rfl

theorem entries_leaf : Entries .leaf fun _ => none := fun k v => by simp

section

variable {V V' : View} {ok : Bool} {op : Op} {w : ℤ}

theorem takes_insert_absent (hop : ∃ k v, op = .insert k v) (hk : ∀ p ∈ V.toList, p.1 ≠ op.key)
    (hV' : ∀ p, p ∈ V'.toList ↔ p = (op.key, op.value) ∨ p ∈ V.toList) : Takes true op V V' .ok := by
  obtain ⟨k, v, rfl⟩ := hop
  intro M hM
  have hnone := hM.eq_none hk
  simp only [Op.key, Op.value] at hnone hV'
  refine ⟨by simp [apply, hnone], ?_⟩
  intro k' v'
  simp only [apply, hnone, if_true, hV', hM k' v']
  by_cases hkk : k' = k
  · subst hkk
    simp [hnone, eq_comm]
  · simp [hkk]

theorem takes_insert_nomem (hop : ∃ k v, op = .insert k v) (hk : ∀ p ∈ V.toList, p.1 ≠ op.key) :
    Takes false op V V .fail := by
  obtain ⟨k, v, rfl⟩ := hop
  intro M hM
  have hnone : M k = none := hM.eq_none hk
  exact ⟨by simp [apply, hnone], by simpa [apply, hnone] using hM⟩

theorem takes_insert_present (hop : ∃ k v, op = .insert k v) (hk : (op.key, w) ∈ V.toList) :
    Takes ok op V V .fail := by
  obtain ⟨k, v, rfl⟩ := hop
  intro M hM
  have hsome : M k = some w := (hM k w).mp hk
  exact ⟨by simp [apply, hsome], by simpa [apply, hsome] using hM⟩

theorem takes_lookup_present (hop : ∃ k, op = .lookup k) (hk : (op.key, w) ∈ V.toList) :
    Takes ok op V V (.found w) := by
  obtain ⟨k, rfl⟩ := hop
  intro M hM
  have hsome : M k = some w := (hM k w).mp hk
  exact ⟨by simp [apply, hsome], by simpa [apply, hsome] using hM⟩

theorem takes_lookup_absent (hop : ∃ k, op = .lookup k) (hk : ∀ p ∈ V.toList, p.1 ≠ op.key) :
    Takes ok op V V .fail := by
  obtain ⟨k, rfl⟩ := hop
  intro M hM
  have hnone : M k = none := hM.eq_none hk
  exact ⟨by simp [apply, hnone], by simpa [apply, hnone] using hM⟩

theorem takes_delete_absent (hop : ∃ k, op = .delete k) (hk : ∀ p ∈ V.toList, p.1 ≠ op.key) :
    Takes ok op V V .fail := by
  obtain ⟨k, rfl⟩ := hop
  intro M hM
  have hnone : M k = none := hM.eq_none hk
  exact ⟨by simp [apply, hnone], by simpa [apply, hnone] using hM⟩

theorem takes_delete_present (hop : ∃ k, op = .delete k) (hk : (op.key, w) ∈ V.toList)
    (hV' : ∀ p, p ∈ V'.toList ↔ p ∈ V.toList ∧ p.1 ≠ op.key) : Takes ok op V V' .ok := by
  obtain ⟨k, rfl⟩ := hop
  intro M hM
  have hsome : M k = some w := (hM k w).mp hk
  refine ⟨by simp [apply, hsome], ?_⟩
  intro k' v'
  simp only [apply, hsome, hV', hM k' v', Op.key]
  by_cases hkk : k' = k
  · subst hkk
    simp
  · simp [hkk]

end

/-- The call has got its node from `malloc`. -/
def Pc.allocated : Pc → Bool
  | .linkRoot _ | .insLink _ _ _ => true
  | _ => false

/-- What a step from `pc` to `pc'` does to the tree: nothing that shows, or the whole call
at once. `fails` is whether the step is a `malloc` that returns `NULL`. -/
def StepEffect (fails : Bool) (op : Op) (V V' : View) (pc pc' : Pc) : Prop :=
  (V' = V ∧ pc'.effect = pc.effect) ∨ (pc.effect = none ∧ ∃ r, pc'.effect = some r ∧
    ∀ ok, (fails = true → ok = false) → (pc.allocated = true → ok = true) → Takes ok op V V' r)

end SdeSystems.Bst
