import Mathlib.Data.Set.Card
import Mathlib.Data.Int.Notation

/-!
# Counting threads

At least `k` of the threads of a system are in some part of their programs. The threads may be
infinitely many; a step changes where one of them is, and may move a second one in. And at most `k`
of the members of a family, which may be infinitely many too, have a property.
-/

namespace SdeSystems.Lib

variable {ι : Type*} {p q : ι → Prop} {k l : ℤ} {i j : ι}

/-- At least `k` of the `i` have `p i`. -/
def AtLeast (k : ℤ) (p : ι → Prop) : Prop := ∃ F : Finset ι, (∀ i ∈ F, p i) ∧ k ≤ F.card

namespace AtLeast

theorem of_nonpos (h : k ≤ 0) : AtLeast k p := ⟨∅, by simp, by simpa using h⟩

theorem mono (h : AtLeast k p) (hpq : ∀ i, p i → q i) : AtLeast k q := by
  obtain ⟨F, hF, hk⟩ := h
  exact ⟨F, fun i hi => hpq i (hF i hi), hk⟩

/-- One of them falls out. -/
theorem lose (h : AtLeast k p) (hl : l < k) (hpq : ∀ j ≠ i, p j → q j) : AtLeast l q := by
  classical
  obtain ⟨F, hF, hk⟩ := h
  refine ⟨F.erase i, ?_, ?_⟩
  · intro j hj
    obtain ⟨hne, hj⟩ := Finset.mem_erase.mp hj
    exact hpq j hne (hF j hj)
  · have := Finset.pred_card_le_card_erase (s := F) (a := i)
    omega

/-- One more of them is in. -/
theorem gain (h : AtLeast k p) (hl : l ≤ k + 1) (hpq : ∀ j, p j → q j) (hi : ¬ p i) (hi' : q i) :
    AtLeast l q := by
  classical
  obtain ⟨F, hF, hk⟩ := h
  have hni : i ∉ F := fun hmem => hi (hF i hmem)
  refine ⟨insert i F, ?_, ?_⟩
  · intro j hj
    rcases Finset.mem_insert.mp hj with rfl | hj
    · exact hi'
    · exact hpq j (hF j hj)
  · rw [Finset.card_insert_of_notMem hni]
    omega

/-- One falls out and another is in. -/
theorem swap (h : AtLeast k p) (hpq : ∀ m ≠ i, p m → q m) (hj : ¬ p j) (hj' : q j) : AtLeast k q := by
  have hlose : AtLeast (k - 1) fun m => p m ∧ m ≠ i := h.lose (by omega) fun m hm hp => ⟨hp, hm⟩
  exact hlose.gain (by omega) (fun m hm => hpq m hm.2 hm.1) (fun hm => hj hm.1) hj'

theorem le_encard (h : AtLeast k p) : (k.toNat : ℕ∞) ≤ {i | p i}.encard := by
  obtain ⟨F, hF, hk⟩ := h
  calc (k.toNat : ℕ∞) ≤ F.card := by exact_mod_cast (by omega)
    _ = (F : Set ι).encard := (Set.encard_coe_eq_coe_finsetCard F).symm
    _ ≤ {i | p i}.encard := Set.encard_le_encard hF

theorem exists_of_pos (h : AtLeast k p) (hk : 0 < k) : ∃ i, p i := by
  obtain ⟨F, hF, hle⟩ := h
  obtain ⟨i, hi⟩ := Finset.card_pos.mp (show 0 < F.card by omega)
  exact ⟨i, hF i hi⟩

/-- The same count through an embedding that covers them. -/
theorem comap {κ : Type*} {f : κ → ι} (h : AtLeast k p) (hf : ∀ i, p i → ∃ j, f j = i) :
    AtLeast k fun j => p (f j) := by
  classical
  obtain ⟨F, hF, hk⟩ := h
  choose g hg using hf
  refine ⟨F.attach.image fun i => g i.1 (hF i.1 i.2), ?_, ?_⟩
  · intro j hj
    obtain ⟨i, -, rfl⟩ := Finset.mem_image.mp hj
    rw [hg]
    exact hF i.1 i.2
  · rw [Finset.card_image_of_injective, Finset.card_attach]
    · exact hk
    · intro a b hab
      apply Subtype.ext
      rw [← hg a.1 (hF a.1 a.2), ← hg b.1 (hF b.1 b.2)]
      exact congrArg f hab

end AtLeast

/-- At most `k` of the `i` have `p i`. -/
def AtMost (k : ℤ) (p : ι → Prop) : Prop := ∀ F : Finset ι, (∀ i ∈ F, p i) → (F.card : ℤ) ≤ k

namespace AtMost

theorem nonneg (h : AtMost k p) : 0 ≤ k := by simpa using h ∅ (by simp)

theorem one_le (h : AtMost k p) (hi : p i) : 1 ≤ k := by simpa using h {i} (by simpa using hi)

theorem mono (h : AtMost k p) (hk : k ≤ l) (hqp : ∀ i, q i → p i) : AtMost l q :=
  fun F hF => (h F fun i hi => hqp i (hF i hi)).trans hk

/-- One of them falls out. -/
theorem lose (h : AtMost k p) (hi : p i) (hqp : ∀ j, q j → p j ∧ j ≠ i) : AtMost (k - 1) q := by
  classical
  intro F hF
  have hni : i ∉ F := fun hmem => (hqp i (hF i hmem)).2 rfl
  have hcard := h (insert i F) (by
    intro j hj
    rcases Finset.mem_insert.mp hj with rfl | hj
    · exact hi
    · exact (hqp j (hF j hj)).1)
  rw [Finset.card_insert_of_notMem hni] at hcard
  omega

/-- One more of them may be in. -/
theorem gain (h : AtMost k p) (i : ι) (hqp : ∀ j ≠ i, q j → p j) : AtMost (k + 1) q := by
  classical
  intro F hF
  have hcard := h (F.erase i) (by
    intro j hj
    obtain ⟨hne, hj⟩ := Finset.mem_erase.mp hj
    exact hqp j hne (hF j hj))
  have := Finset.pred_card_le_card_erase (s := F) (a := i)
  omega

end AtMost

end SdeSystems.Lib
