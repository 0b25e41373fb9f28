import Mathlib.Data.List.Basic
import Mathlib.Data.Nat.Notation

/-!
# Loops that may stop early

A loop over a list whose body may have no result (the program stops) and otherwise says whether
to go on, and the rules for invariants of it: one for a fact that every turn keeps, and one
for a fact about the elements done so far.
-/

namespace SdeSystems.Lib

variable {α σ : Type*}

/-- The body is run for each element, until it says `false`. -/
def forEach (body : α → σ → Option (σ × Bool)) : List α → σ → Option (σ × Bool)
  | [], s => some (s, true)
  | a :: as, s =>
    match body a s with
    | none => none
    | some (s', true) => forEach body as s'
    | some (s', false) => some (s', false)

variable {body : α → σ → Option (σ × Bool)} {l : List α} {s s' : σ} {ok : Bool}

/-- What every turn keeps, the loop keeps. -/
theorem forEach_keeps {I : σ → Prop}
    (hI : ∀ a ∈ l, ∀ s s' ok, I s → body a s = some (s', ok) → I s')
    (h : forEach body l s = some (s', ok)) (hs : I s) : I s' := by
  induction l generalizing s with
  | nil =>
    obtain ⟨rfl, -⟩ : s = s' ∧ true = ok := by simpa [forEach] using h
    exact hs
  | cons a as ih =>
    simp only [forEach] at h
    split at h
    · cases h
    · rename_i s₁ hb
      exact ih (fun a ha => hI a (by simp [ha])) h (hI a (by simp) s s₁ true hs hb)
    · rename_i s₁ hb
      obtain ⟨rfl, rfl⟩ : s₁ = s' ∧ false = ok := by simpa using h
      exact hI a (by simp) s s₁ false hs hb

/-- A fact about the elements that are done, when the loop comes to its end. -/
theorem forEach_done {I : List α → σ → Prop}
    (hI : ∀ done a rest s s', l = done ++ a :: rest → I done s → body a s = some (s', true) → I (done ++ [a]) s')
    (h : forEach body l s = some (s', true)) (hs : I [] s) : I l s' := by
  suffices ∀ done rest, l = done ++ rest → ∀ s, I done s → forEach body rest s = some (s', true) → I l s' from
    this [] l rfl s hs h
  intro done rest
  induction rest generalizing done with
  | nil =>
    intro hl s hs h
    obtain rfl : s = s' := by simpa [forEach] using h
    rwa [hl, List.append_nil]
  | cons a rest ih =>
    intro hl s hs h
    simp only [forEach] at h
    split at h
    · cases h
    · rename_i s₁ hb
      exact ih (done ++ [a]) (by simp [hl]) s₁ (hI done a rest s s₁ hl hs hb) h
    · simp at h

/-- A loop that has come through the first elements goes on with the others. -/
theorem forEach_append {l₁ l₂ : List α} (h : forEach body l₁ s = some (s', true)) :
    forEach body (l₁ ++ l₂) s = forEach body l₂ s' := by
  induction l₁ generalizing s with
  | nil =>
    obtain rfl : s = s' := by simpa [forEach] using h
    rfl
  | cons a as ih =>
    simp only [List.cons_append, forEach] at h ⊢
    split at h
    · cases h
    · exact ih h
    · simp at h

/-- A loop that comes to its end has come through its first elements. -/
theorem forEach_split {l₁ l₂ : List α} (h : forEach body (l₁ ++ l₂) s = some (s', true)) :
    ∃ t, forEach body l₁ s = some (t, true) ∧ forEach body l₂ t = some (s', true) := by
  induction l₁ generalizing s with
  | nil => exact ⟨s, rfl, h⟩
  | cons a as ih =>
    simp only [List.cons_append, forEach] at h ⊢
    split at h
    · cases h
    · exact ih h
    · simp at h

/-- A loop that stops has come to an element at which its body stops. -/
theorem forEach_stops (h : forEach body l s = some (s', false)) :
    ∃ l₁ a l₂ t, l = l₁ ++ a :: l₂ ∧ forEach body l₁ s = some (t, true) ∧ body a t = some (s', false) := by
  induction l generalizing s with
  | nil => simp [forEach] at h
  | cons a as ih =>
    simp only [forEach] at h
    split at h
    · cases h
    · rename_i s₁ hb
      obtain ⟨l₁, b, l₂, t, rfl, hl₁, ht⟩ := ih h
      exact ⟨a :: l₁, b, l₂, t, rfl, by simp only [forEach, hb, hl₁], ht⟩
    · rename_i s₁ hb
      obtain rfl : s₁ = s' := by simpa using h
      exact ⟨[], a, as, s, rfl, rfl, hb⟩

/-- A loop whose body always has a result and goes on comes to its end. -/
theorem forEach_isSome {I : σ → Prop}
    (hI : ∀ a ∈ l, ∀ s, I s → ∃ s', body a s = some (s', true) ∧ I s') (hs : I s) :
    ∃ s', forEach body l s = some (s', true) ∧ I s' := by
  induction l generalizing s with
  | nil => exact ⟨s, rfl, hs⟩
  | cons a as ih =>
    obtain ⟨s₁, hb, hs₁⟩ := hI a (by simp) s hs
    obtain ⟨s', h', hs'⟩ := ih (fun a ha => hI a (by simp [ha])) hs₁
    exact ⟨s', by simp [forEach, hb, h'], hs'⟩

end SdeSystems.Lib
