import Mathlib.Algebra.BigOperators.Fin
import Tenzor.Optim.Lbfgs

/-!
# The search direction of L-BFGS

The two-loop recursion is the negated product of the gradient with the inverse Hessian that the
history builds, and it descends.
-/

namespace Tenzor.Optim.LBFGS

open Matrix RankTwoUpdate

variable {ι K : Type} [Fintype ι] [Field K] {history : List (Secant ι K)}

/-- The coefficients of the first loop are the ones that the second loop needs: together they are
the product with the updated matrix. -/
theorem forwardLoop_backwardLoop [DecidableEq ι] (history : List (Secant ι K)) (H : Matrix ι ι K)
    (g : ι → K) :
    forwardLoop history (backwardLoop history g).2 (H *ᵥ (backwardLoop history g).1) =
      updates history H *ᵥ g := by
  induction history generalizing H with
  | nil => rfl
  | cons p history ih =>
    rw [updates_cons, ← ih, p.update_mulVec]
    rfl

variable [LinearOrder K]

/-- The matrix that a history stands for. -/
def inverseHessian [DecidableEq ι] (history : List (Secant ι K)) : Matrix ι ι K :=
  updates history ((history.getLast?.elim 1 gamma) • (1 : Matrix ι ι K))

theorem twoLoopRecursion_eq [DecidableEq ι] (history : List (Secant ι K)) (g : ι → K) :
    twoLoopRecursion history g = -(inverseHessian history *ᵥ g) := by
  cases hlast : history.getLast? with
  | none =>
    have hnil : history = [] := List.getLast?_eq_none_iff.mp hlast
    simp [twoLoopRecursion, inverseHessian, hnil]
  | some last =>
    have hfirst (q : ι → K) : gamma last • q = (gamma last • (1 : Matrix ι ι K)) *ᵥ q := by
      rw [smul_mulVec, one_mulVec]
    calc twoLoopRecursion history g
        = (-1 : K) • forwardLoop history (backwardLoop history g).2
            (gamma last • (backwardLoop history g).1) := by
          simp only [twoLoopRecursion, hlast]
      _ = -(updates history (gamma last • 1) *ᵥ g) := by
          rw [hfirst, forwardLoop_backwardLoop, neg_smul, one_smul]
      _ = -(inverseHessian history *ᵥ g) := by
          simp only [inverseHessian, hlast, Option.elim_some]

variable [IsStrictOrderedRing K]

theorem gamma_pos {last : Secant ι K} (hcurved : last.Curved) : 0 < gamma last := by
  rw [gamma]
  split_ifs with hsq
  · have hy : 0 < last.y ⬝ᵥ last.y := lt_trans (by positivity) hsq
    have hs : 0 < last.s ⬝ᵥ last.y := by
      rw [dotProduct_comm]
      exact hcurved.curvature
    exact div_pos hs hy
  · exact one_pos

theorem positive_inverseHessian [DecidableEq ι] (hcurved : ∀ p ∈ history, p.Curved) :
    Positive (inverseHessian history) := by
  have hfactor : 0 < history.getLast?.elim 1 gamma := by
    cases hlast : history.getLast? with
    | none => exact one_pos
    | some last => exact gamma_pos (hcurved last (List.mem_of_getLast? hlast))
  exact (positive_smul_one hfactor).updates hcurved

theorem twoLoopRecursion_descends (hcurved : ∀ p ∈ history, p.Curved) {g : ι → K} (hg : g ≠ 0) :
    g ⬝ᵥ twoLoopRecursion history g < 0 := by
  classical
  have hpos := positive_inverseHessian hcurved g hg
  rw [twoLoopRecursion_eq, dotProduct_neg]
  exact neg_lt_zero.mpr hpos

/-- The recursion computes `-H g` for the matrix `H` of the history, and descends. -/
theorem twoLoopRecursion_quasiNewton [DecidableEq ι] (history : List (Secant ι K))
    (hcurved : ∀ p ∈ history, p.Curved) (g : ι → K) :
    twoLoopRecursion history g = -(inverseHessian history *ᵥ g) ∧
      (g ≠ 0 → g ⬝ᵥ twoLoopRecursion history g < 0) :=
  ⟨twoLoopRecursion_eq history g, twoLoopRecursion_descends hcurved⟩

/-- A history of two pairs in the plane. -/
def planeHistory : List (Secant (Fin 2) ℚ) :=
  [⟨![1, 0], ![2, 1], 1 / 2⟩, ⟨![0, 3], ![1, 4], 1 / 12⟩]

theorem twoLoopRecursion_quasiNewton_plane :
    twoLoopRecursion planeHistory ![1, 1] = -(inverseHessian planeHistory *ᵥ ![1, 1]) ∧
      (![1, 1] ≠ (0 : Fin 2 → ℚ) →
        ![1, 1] ⬝ᵥ twoLoopRecursion planeHistory ![1, 1] < 0) := by
  apply twoLoopRecursion_quasiNewton
  intro p hp
  simp only [planeHistory, List.mem_cons, List.not_mem_nil, or_false] at hp
  obtain rfl | rfl := hp
  · constructor <;> norm_num [dotProduct]
  · constructor <;> norm_num [dotProduct]

end Tenzor.Optim.LBFGS
