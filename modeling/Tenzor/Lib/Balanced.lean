import Mathlib.Tactic.Ring
import Mathlib.Algebra.BigOperators.Group.List.Basic

/-!
# Balanced partitions

`n` items in `w` consecutive parts whose sizes differ by at most one: the first
`n % w` parts have one item more.
-/

namespace Balanced

/-- The size of part `r`. -/
def count (n w r : ℕ) : ℕ := n / w + if r < n % w then 1 else 0

/-- The number of items before part `r`. -/
def start (n w r : ℕ) : ℕ := r * (n / w) + min r (n % w)

variable {n w r : ℕ}

@[simp] theorem start_zero (n w : ℕ) : start n w 0 = 0 := by
  simp [start]

theorem start_succ (n w r : ℕ) : start n w (r + 1) = start n w r + count n w r := by
  unfold start count
  rw [Nat.add_mul]
  split_ifs <;> omega

/-- The parts cover all items. -/
theorem start_last (n : ℕ) (hw : 0 < w) : start n w w = n := by
  unfold start
  rw [Nat.min_eq_right (Nat.le_of_lt (Nat.mod_lt n hw))]
  exact Nat.div_add_mod n w

theorem start_mono (n w : ℕ) : Monotone (start n w) :=
  monotone_nat_of_le_succ fun r => by
    rw [start_succ]
    exact Nat.le_add_right _ _

theorem end_le (hr : r < w) : start n w r + count n w r ≤ n := by
  rw [← start_succ]
  calc start n w (r + 1) ≤ start n w w := start_mono n w hr
    _ = n := start_last n (Nat.zero_lt_of_lt hr)

theorem sum_count (n : ℕ) (hw : 0 < w) : ((List.range w).map (count n w)).sum = n := by
  have hparts : ∀ k, ((List.range k).map (count n w)).sum = start n w k := by
    intro k
    induction k with
    | zero => exact (start_zero n w).symm
    | succ k ih =>
      rw [List.range_succ, List.map_append, List.sum_append, ih, List.map_singleton,
        List.sum_singleton, start_succ]
  rw [hparts, start_last n hw]

end Balanced
