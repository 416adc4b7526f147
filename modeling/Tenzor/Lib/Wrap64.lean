import Mathlib.Tactic.Linarith

/-!
# Signed 64-bit arithmetic over the integers

A machine word is an integer together with the fact that it lies in the
signed 64-bit range. `wrap64` is the two's-complement result of a computation
that the hardware does not check; every other operation is the exact one.
-/

namespace Wrap64

variable {x : Int}

/-- The smallest signed 64-bit value. -/
def int64Min : Int := -9223372036854775808

/-- The largest signed 64-bit value. -/
def int64Max : Int := 9223372036854775807

/-- The value fits a signed 64-bit word. -/
def InInt64 (x : Int) : Prop := int64Min ≤ x ∧ x ≤ int64Max

instance (x : Int) : Decidable (InInt64 x) := inferInstanceAs (Decidable (_ ∧ _))

/-- The word an unchecked computation leaves when its exact result is `x`. -/
def wrap64 (x : Int) : Int := x.bmod 18446744073709551616

theorem wrap64_of_inInt64 (h : InInt64 x) : wrap64 x = x := by
  obtain ⟨hlo, hhi⟩ := h
  simp only [int64Min, int64Max] at hlo hhi
  exact Int.bmod_eq_of_le (by omega) (by omega)

theorem wrap64_of_nonneg (h : 0 ≤ x) (hle : x ≤ int64Max) : wrap64 x = x :=
  wrap64_of_inInt64 ⟨(by decide : int64Min ≤ 0).trans h, hle⟩

theorem inInt64_wrap64 (x : Int) : InInt64 (wrap64 x) := by
  have hlo := Int.le_bmod (x := x) (m := 18446744073709551616) (by decide)
  have hhi := Int.bmod_lt (x := x) (m := 18446744073709551616) (by decide)
  simp only [InInt64, int64Min, int64Max, wrap64]
  omega

/-- One carry past the largest word comes back `2^64` lower. -/
theorem wrap64_of_carry (hlo : int64Max < x) (hhi : x ≤ 2 * int64Max) :
    wrap64 x = x - 18446744073709551616 := by
  simp only [int64Max] at hlo hhi
  rw [wrap64, Int.bmod_def]
  split_ifs <;> omega

/-- Any value between two words is a word. -/
theorem inInt64_of_between {lo hi : Int} (hlo : InInt64 lo) (hhi : InInt64 hi) (h₁ : lo ≤ x)
    (h₂ : x ≤ hi) : InInt64 x :=
  ⟨hlo.1.trans h₁, h₂.trans hhi.2⟩

/-- A value whose magnitude stays below `2^63` is a word. -/
theorem inInt64_of_abs_lt (h : |x| ≤ int64Max) : InInt64 x := by
  obtain ⟨hlo, hhi⟩ := abs_le.mp h
  simp only [InInt64, int64Min, int64Max] at *
  omega

/-- Wrapping after every multiplication gives the wrapped exact product. -/
theorem wrap64_mul_wrap64 (x y : Int) : wrap64 (wrap64 x * y) = wrap64 (x * y) :=
  Int.bmod_mul_bmod

/-- Wrapping after every addition gives the wrapped exact sum. -/
theorem wrap64_add_wrap64 (x y : Int) : wrap64 (wrap64 x + y) = wrap64 (x + y) :=
  Int.bmod_add_bmod

end Wrap64
