import Mathlib.Data.Nat.Size
import Mathlib.Order.Bounds.Basic
import Mathlib.Tactic

/-!
Rounding up to a power of two by smearing the highest set bit to the right.
A step of the schedule ors a number with itself shifted by the width already
covered; after the width reaches the word size every bit below the highest
one is set, and adding one gives the power of two. Nothing here depends on a
particular word size: the schedule is stated for any number of doublings.
-/

namespace Sys3.PowerOfTwo

/-- One smearing step. -/
def smear (x width : Nat) : Nat := x ||| x >>> width

/-- Bit `i` of `y` is set exactly when `x` has a set bit in the window of
`width` bits that starts at `i`. -/
def Covers (x y width : Nat) : Prop :=
  ∀ i, y.testBit i = true ↔ ∃ j, i ≤ j ∧ j < i + width ∧ x.testBit j = true

theorem covers_self (x : Nat) : Covers x x 1 := by
  intro i
  constructor
  · intro h
    exact ⟨i, le_refl i, by omega, h⟩
  · rintro ⟨j, hij, hji, h⟩
    obtain rfl : j = i := by omega
    exact h

/-- A step shifted by the covered width doubles the covered width. -/
theorem Covers.smear {x y width : Nat} (h : Covers x y width) :
    Covers x (smear y width) (2 * width) := by
  intro i
  simp only [PowerOfTwo.smear, Nat.testBit_or, Nat.testBit_shiftRight,
    Bool.or_eq_true, h i, h (width + i)]
  constructor
  · rintro (⟨j, hij, hji, hj⟩ | ⟨j, hij, hji, hj⟩)
    · exact ⟨j, hij, by omega, hj⟩
    · exact ⟨j, by omega, by omega, hj⟩
  · rintro ⟨j, hij, hji, hj⟩
    by_cases hnear : j < i + width
    · exact Or.inl ⟨j, hij, hnear, hj⟩
    · exact Or.inr ⟨j, by omega, by omega, hj⟩

/-- Once the window is at least as wide as the number, the smeared value is
all ones below the highest set bit. -/
theorem Covers.eq_two_pow_size_sub_one {x y width : Nat}
    (h : Covers x y width) (hx : x < 2 ^ width) : y = 2 ^ x.size - 1 := by
  apply Nat.eq_of_testBit_eq
  intro i
  rw [Nat.testBit_two_pow_sub_one, Bool.eq_iff_iff, h i, decide_eq_true_iff, Nat.lt_size]
  constructor
  · rintro ⟨j, hij, -, hj⟩
    calc 2 ^ i ≤ 2 ^ j := Nat.pow_le_pow_right (by omega) hij
      _ ≤ x := Nat.ge_two_pow_of_testBit hj
  · intro hge
    obtain ⟨j, hij, hj⟩ := Nat.exists_ge_and_testBit_of_ge_two_pow hge
    have hjx : 2 ^ j < 2 ^ width :=
      lt_of_le_of_lt (Nat.ge_two_pow_of_testBit hj) hx
    have hjw : j < width := (Nat.pow_lt_pow_iff_right (by omega)).mp hjx
    exact ⟨j, hij, by omega, hj⟩

/-- The power of two above the predecessor of `x` is the least one at or
above `x`. -/
theorem isLeast_two_pow_size (x : Nat) (hx : 1 ≤ x) :
    IsLeast {s | (∃ k, s = 2 ^ k) ∧ x ≤ s} (2 ^ (x - 1).size) := by
  constructor
  · exact ⟨⟨_, rfl⟩, by have := Nat.lt_size_self (x - 1); omega⟩
  · rintro s ⟨⟨k, rfl⟩, hk⟩
    have hsize : (x - 1).size ≤ k := Nat.size_le.mpr (by omega)
    exact Nat.pow_le_pow_right (by omega) hsize

/-- Half of the least power of two at or above `x` lies below `x`. -/
theorem lt_two_mul_of_isLeast {x s : Nat} (hx : 1 ≤ x)
    (h : IsLeast {s | (∃ k, s = 2 ^ k) ∧ x ≤ s} s) : s < 2 * x := by
  obtain ⟨⟨⟨k, rfl⟩, -⟩, hleast⟩ := h
  cases k with
  | zero =>
      rw [pow_zero]
      omega
  | succ k =>
      have hhalf : ¬ x ≤ 2 ^ k := by
        intro hle
        have hback : 2 ^ (k + 1) ≤ 2 ^ k := hleast ⟨⟨k, rfl⟩, hle⟩
        exact absurd hback (Nat.not_le.mpr (Nat.pow_lt_pow_right (by decide) (Nat.lt_succ_self k)))
      rw [pow_succ]
      omega

/-- A power of two is its own least power of two. -/
theorem isLeast_two_pow (k : Nat) :
    IsLeast {s | (∃ j, s = 2 ^ j) ∧ 2 ^ k ≤ s} (2 ^ k) :=
  ⟨⟨⟨k, rfl⟩, le_refl _⟩, fun _ h => h.2⟩

/-- The mask test for a power of two, for a nonzero number. -/
theorem and_pred_eq_zero_iff {x : Nat} (hx : x ≠ 0) :
    x &&& (x - 1) = 0 ↔ ∃ k, x = 2 ^ k :=
  Nat.and_sub_one_eq_zero_iff_isPowerOfTwo hx

end Sys3.PowerOfTwo
