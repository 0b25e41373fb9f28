import Mathlib.Data.Nat.Notation
import Mathlib.Algebra.Group.Nat.Defs

/-!
# Words in a byte memory

A memory of bytes, and the 32-bit little-endian words in it: what a store of a word does to
the loads of words and to the bytes around it.
-/

namespace SdeSystems.Lib

/-- A memory of bytes. -/
abbrev Bytes := ℕ → UInt8

namespace Bytes

/-- The word at `a`, low byte first. -/
def load (m : Bytes) (a : ℕ) : BitVec 32 :=
  BitVec.ofNat 32 ((m a).toNat + 2 ^ 8 * (m (a + 1)).toNat + 2 ^ 16 * (m (a + 2)).toNat +
    2 ^ 24 * (m (a + 3)).toNat)

/-- The memory with the word `v` at `a`. -/
def store (m : Bytes) (a : ℕ) (v : BitVec 32) : Bytes := fun x =>
  if a ≤ x ∧ x < a + 4 then UInt8.ofNat (v.toNat / 2 ^ (8 * (x - a))) else m x

/-- The memories agree on the bytes from `a` to `b`. -/
def AgreeOn (m m' : Bytes) (a b : ℕ) : Prop := ∀ x, a ≤ x → x < b → m' x = m x

variable {m m' : Bytes} {a b c : ℕ} {v : BitVec 32}

theorem store_of_lt (h : b < a) : m.store a v b = m b := if_neg (by omega)

theorem store_of_ge (h : a + 4 ≤ b) : m.store a v b = m b := if_neg (by omega)

theorem load_congr (h : AgreeOn m m' a (a + 4)) : m'.load a = m.load a := by
  unfold load
  rw [h a (by omega) (by omega), h (a + 1) (by omega) (by omega), h (a + 2) (by omega) (by omega),
    h (a + 3) (by omega) (by omega)]

theorem store_byte {i : ℕ} (hi : i < 4) : (m.store a v (a + i)).toNat = v.toNat / 2 ^ (8 * i) % 2 ^ 8 := by
  have h : a ≤ a + i ∧ a + i < a + 4 := by omega
  simp only [store, if_pos h, Nat.add_sub_cancel_left, UInt8.toNat_ofNat']

@[simp] theorem load_store : (m.store a v).load a = v := by
  apply BitVec.eq_of_toNat_eq
  have hv := v.isLt
  have h₀ : (m.store a v a).toNat = _ := store_byte (i := 0) (by omega)
  have h₁ : (m.store a v (a + 1)).toNat = _ := store_byte (by omega)
  have h₂ : (m.store a v (a + 2)).toNat = _ := store_byte (by omega)
  have h₃ : (m.store a v (a + 3)).toNat = _ := store_byte (by omega)
  rw [load, BitVec.toNat_ofNat, h₀, h₁, h₂, h₃]
  omega

theorem load_store_of_disjoint (h : b + 4 ≤ a ∨ a + 4 ≤ b) : (m.store a v).load b = m.load b := by
  apply load_congr
  intro x h₁ h₂
  rcases h with h | h
  · exact store_of_lt (by omega)
  · exact store_of_ge (by omega)

theorem AgreeOn.refl (m : Bytes) (a b : ℕ) : AgreeOn m m a b := fun _ _ _ => rfl

theorem AgreeOn.mono (h : AgreeOn m m' a b) {a' b' : ℕ} (ha : a ≤ a') (hb : b' ≤ b) : AgreeOn m m' a' b' :=
  fun x h₁ h₂ => h x (by omega) (by omega)

theorem AgreeOn.trans {m'' : Bytes} (h : AgreeOn m m' a b) (h' : AgreeOn m' m'' a b) : AgreeOn m m'' a b :=
  fun x h₁ h₂ => (h' x h₁ h₂).trans (h x h₁ h₂)

/-- A store leaves what is below and above it. -/
theorem agreeOn_store (h : b ≤ c ∨ c + 4 ≤ a) : AgreeOn m (m.store c v) a b := by
  intro x h₁ h₂
  rcases h with h | h
  · exact store_of_lt (by omega)
  · exact store_of_ge (by omega)

end Bytes

end SdeSystems.Lib
