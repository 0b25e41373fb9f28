import Mathlib.Data.Option.Basic
import Mathlib.Data.List.Basic
import Mathlib.Data.Nat.Notation

/-!
# Linked lists through slots

A list that is threaded through the slots of a table: a head and, for each slot, the slot that
comes next. `Linked` says which slots stand between a head and an end, `seek` goes along the
list with the slot before at hand, as the loops do that insert into such a list or remove
from it.
-/

namespace SdeSystems.Lib

variable {ι : Type*}

/-- From `h` on the slots are those of the list, and then comes `e`. -/
def Linked (next : ι → Option ι) : Option ι → List ι → Option ι → Prop
  | h, [], e => h = e
  | h, i :: l, e => h = some i ∧ Linked next (next i) l e

/-- The first slot from the given one on at which `stop` holds, and the slot before it. There
is no result where the list goes round. -/
def seek (next : ι → Option ι) (stop : ι → Bool) : ℕ → Option ι → Option ι → Option (Option ι × Option ι)
  | _, prev, none => some (prev, none)
  | 0, _, some _ => none
  | fuel + 1, prev, some i => if stop i then some (prev, some i) else seek next stop fuel (some i) (next i)

variable {next next' : ι → Option ι} {h e cur : Option ι} {l l₁ l₂ : List ι} {i p : ι}

theorem Linked.congr (hl : Linked next h l e) (hn : ∀ x ∈ l, next' x = next x) : Linked next' h l e := by
  induction l generalizing h with
  | nil => exact hl
  | cons i l ih =>
    refine ⟨hl.1, ?_⟩
    rw [hn i (by simp)]
    exact ih hl.2 fun x hx => hn x (by simp [hx])

/-- A head reaches one list only. -/
theorem Linked.unique (hl : Linked next h l none) (hl' : Linked next h l₁ none) : l = l₁ := by
  induction l generalizing h l₁ with
  | nil =>
    cases l₁ with
    | nil => rfl
    | cons j l₁ => exact absurd (hl.symm.trans hl'.1) (by simp)
  | cons i l ih =>
    cases l₁ with
    | nil => exact absurd (hl.1.symm.trans hl') (by simp)
    | cons j l₁ =>
      obtain rfl : i = j := Option.some.inj (hl.1.symm.trans hl'.1)
      rw [ih hl.2 hl'.2]

/-- The list determines the head, and what comes next in it. -/
theorem Linked.eq_next {h' : Option ι} (hl : Linked next h l e) (hl' : Linked next' h' l e) :
    h = h' ∧ ∀ x ∈ l, next x = next' x := by
  induction l generalizing h h' with
  | nil => exact ⟨hl.trans hl'.symm, by simp⟩
  | cons i l ih =>
    obtain ⟨hnext, hrest⟩ := ih hl.2 hl'.2
    refine ⟨hl.1.trans hl'.1.symm, ?_⟩
    intro x hx
    rcases List.mem_cons.mp hx with rfl | hx
    · exact hnext
    · exact hrest x hx

theorem linked_append : Linked next h (l₁ ++ l₂) e ↔ ∃ m, Linked next h l₁ m ∧ Linked next m l₂ e := by
  induction l₁ generalizing h with
  | nil => exact ⟨fun hl => ⟨h, rfl, hl⟩, fun ⟨m, hm, hl⟩ => by obtain rfl : h = m := hm; exact hl⟩
  | cons i l ih =>
    simp only [List.cons_append, Linked, ih]
    constructor
    · rintro ⟨hi, m, hm, hl⟩
      exact ⟨m, ⟨hi, hm⟩, hl⟩
    · rintro ⟨m, ⟨hi, hm⟩, hl⟩
      exact ⟨hi, m, hm, hl⟩

/-- The slot `i` comes in behind `p`. -/
theorem Linked.insert (hl : Linked next h (l₁ ++ p :: l₂) e) (hp : next' p = some i) (hi : next' i = next p)
    (hn : ∀ x ∈ l₁ ++ l₂, next' x = next x) : Linked next' h (l₁ ++ p :: i :: l₂) e := by
  obtain ⟨m, h₁, h₂, h₃⟩ := linked_append.mp hl
  refine linked_append.mpr ⟨m, h₁.congr fun x hx => hn x (by simp [hx]), h₂, hp, ?_⟩
  rw [hi]
  exact h₃.congr fun x hx => hn x (by simp [hx])

/-- The slot `i` behind `p` goes out. -/
theorem Linked.remove (hl : Linked next h (l₁ ++ p :: i :: l₂) e) (hp : next' p = next i)
    (hn : ∀ x ∈ l₁ ++ l₂, next' x = next x) : Linked next' h (l₁ ++ p :: l₂) e := by
  obtain ⟨m, h₁, h₂, h₃, h₄⟩ := linked_append.mp hl
  refine linked_append.mpr ⟨m, h₁.congr fun x hx => hn x (by simp [hx]), h₂, ?_⟩
  rw [hp]
  exact h₄.congr fun x hx => hn x (by simp [hx])

/-- Where a walk along the list stops: at the first slot that has `stop`, or at the end. -/
theorem seek_spec {fuel : ℕ} (stop : ι → Bool) (prev : Option ι) (hl : Linked next cur l none)
    (hf : l.length ≤ fuel) :
    ∃ l₁ l₂, l = l₁ ++ l₂ ∧ (∀ x ∈ l₁, stop x = false) ∧ (∀ x ∈ l₂.head?, stop x = true) ∧
      seek next stop fuel prev cur = some (l₁.getLast?.or prev, l₂.head?) := by
  induction l generalizing cur prev fuel with
  | nil =>
    obtain rfl : cur = none := hl
    exact ⟨[], [], rfl, by simp, by simp, by cases fuel <;> rfl⟩
  | cons i l ih =>
    obtain ⟨rfl, hl⟩ := hl
    obtain ⟨fuel, rfl⟩ : ∃ f, fuel = f + 1 := ⟨fuel - 1, by simp at hf; omega⟩
    by_cases hs : stop i = true
    · exact ⟨[], i :: l, rfl, by simp, by simpa using hs, by simp [seek, hs]⟩
    · obtain ⟨l₁, l₂, rfl, h₁, h₂, h₃⟩ := ih (some i) hl (by simpa using hf)
      refine ⟨i :: l₁, l₂, rfl, ?_, h₂, ?_⟩
      · simpa [hs] using h₁
      · rw [seek, if_neg hs, h₃]
        cases l₁ with
        | nil => rfl
        | cons j l₁ =>
          have hlast := List.getLast?_eq_some_getLast (List.cons_ne_nil j l₁)
          rw [List.getLast?_cons_cons, hlast]
          rfl

/-- The walk along the list stops at a slot that has `stop`, if at any. -/
theorem seek_stop {stop : ι → Bool} {fuel : ℕ} {prev prev' : Option ι}
    (h : seek next stop fuel prev cur = some (prev', some i)) : stop i = true := by
  induction fuel generalizing prev cur with
  | zero =>
    cases cur with
    | none => simp [seek] at h
    | some j => simp [seek] at h
  | succ fuel ih =>
    cases cur with
    | none => simp [seek] at h
    | some j =>
      rw [seek] at h
      split at h
      · rename_i hj
        obtain ⟨-, hji⟩ := Prod.mk.inj (Option.some.inj h)
        rwa [← Option.some.inj hji]
      · exact ih h

end SdeSystems.Lib
