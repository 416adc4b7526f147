import Mathlib.Data.Matrix.Mul
import Mathlib.Algebra.Order.Field.Basic
import Mathlib.Tactic.Abel
import Mathlib.Tactic.FieldSimp
import Mathlib.Tactic.Ring

/-!
# Rank two updates of an inverse Hessian

A secant pair replaces an approximation `H` of an inverse Hessian by
`(1 - ρ s yᵀ) H (1 - ρ y sᵀ) + ρ s sᵀ`. The product of such a matrix with a vector is computed from
the product of `H` with another vector, and a positive definite matrix stays positive definite.
-/

namespace Tenzor.RankTwoUpdate

open Matrix

variable {ι K : Type} [Fintype ι] [Field K]

/-- A difference of points, the difference of gradients over it, and the coefficient of the pair. -/
structure Secant (ι K : Type) where
  s : ι → K
  y : ι → K
  rho : K

section Update

variable [DecidableEq ι]

def Secant.update (p : Secant ι K) (H : Matrix ι ι K) : Matrix ι ι K :=
  (1 - p.rho • vecMulVec p.s p.y) * H * (1 - p.rho • vecMulVec p.y p.s) +
    p.rho • vecMulVec p.s p.s

theorem one_sub_mulVec (c : K) (u v x : ι → K) :
    (1 - c • vecMulVec u v) *ᵥ x = x - (c * (v ⬝ᵥ x)) • u := by
  rw [sub_mulVec, one_mulVec, smul_mulVec, vecMulVec_mulVec, op_smul_eq_smul, smul_smul]

theorem dotProduct_one_sub_mulVec (c : K) (u v x z : ι → K) :
    x ⬝ᵥ ((1 - c • vecMulVec u v) *ᵥ z) = ((1 - c • vecMulVec v u) *ᵥ x) ⬝ᵥ z := by
  rw [one_sub_mulVec, one_sub_mulVec, dotProduct_sub, sub_dotProduct, dotProduct_smul,
    smul_dotProduct, dotProduct_comm x u]
  ring

/-- What the updated matrix does to a vector needs one product with the old matrix. -/
theorem Secant.update_mulVec (p : Secant ι K) (H : Matrix ι ι K) (g : ι → K) :
    p.update H *ᵥ g =
      H *ᵥ (g - (p.rho * (p.s ⬝ᵥ g)) • p.y) +
        (p.rho * (p.s ⬝ᵥ g) - p.rho * (p.y ⬝ᵥ (H *ᵥ (g - (p.rho * (p.s ⬝ᵥ g)) • p.y)))) •
          p.s := by
  have hlast : (p.rho • vecMulVec p.s p.s) *ᵥ g = (p.rho * (p.s ⬝ᵥ g)) • p.s := by
    rw [smul_mulVec, vecMulVec_mulVec, op_smul_eq_smul, smul_smul]
  rw [Secant.update, add_mulVec, hlast, ← mulVec_mulVec, ← mulVec_mulVec, one_sub_mulVec,
    one_sub_mulVec, sub_smul]
  abel

theorem Secant.dotProduct_update (p : Secant ι K) (H : Matrix ι ι K) (x : ι → K) :
    x ⬝ᵥ (p.update H *ᵥ x) =
      (x - (p.rho * (p.s ⬝ᵥ x)) • p.y) ⬝ᵥ (H *ᵥ (x - (p.rho * (p.s ⬝ᵥ x)) • p.y)) +
        p.rho * ((p.s ⬝ᵥ x) * (p.s ⬝ᵥ x)) := by
  have hlast : x ⬝ᵥ ((p.rho • vecMulVec p.s p.s) *ᵥ x) =
      p.rho * ((p.s ⬝ᵥ x) * (p.s ⬝ᵥ x)) := by
    rw [smul_mulVec, vecMulVec_mulVec, op_smul_eq_smul, smul_smul, dotProduct_smul, smul_eq_mul,
      dotProduct_comm x p.s, mul_assoc]
  rw [Secant.update, add_mulVec, dotProduct_add, hlast, ← mulVec_mulVec, ← mulVec_mulVec,
    dotProduct_one_sub_mulVec, one_sub_mulVec]

/-- All updates of a history, from its oldest pair to its newest. -/
def updates (history : List (Secant ι K)) (H : Matrix ι ι K) : Matrix ι ι K :=
  history.foldl (fun H p => p.update H) H

@[simp] theorem updates_nil (H : Matrix ι ι K) : updates [] H = H := rfl

@[simp] theorem updates_cons (p : Secant ι K) (history : List (Secant ι K)) (H : Matrix ι ι K) :
    updates (p :: history) H = updates history (p.update H) := rfl

end Update

variable [LinearOrder K] {H : Matrix ι ι K}

def Positive (H : Matrix ι ι K) : Prop := ∀ x : ι → K, x ≠ 0 → 0 < x ⬝ᵥ (H *ᵥ x)

/-- The curvature condition, with the coefficient that belongs to it. -/
structure Secant.Curved (p : Secant ι K) : Prop where
  curvature : 0 < p.y ⬝ᵥ p.s
  rho : p.rho = 1 / (p.y ⬝ᵥ p.s)

theorem Positive.nonneg (hH : Positive H) (x : ι → K) : 0 ≤ x ⬝ᵥ (H *ᵥ x) := by
  by_cases hx : x = 0
  · simp [hx]
  · exact (hH x hx).le

variable [IsStrictOrderedRing K]

theorem dotProduct_self_pos {x : ι → K} (hx : x ≠ 0) : 0 < x ⬝ᵥ x := by
  obtain ⟨i, hi⟩ : ∃ i, x i ≠ 0 := Function.ne_iff.mp hx
  apply Finset.sum_pos' fun j _ => mul_self_nonneg (x j)
  exact ⟨i, Finset.mem_univ i, mul_self_pos.mpr hi⟩

variable [DecidableEq ι]

theorem positive_smul_one {c : K} (hc : 0 < c) : Positive (c • (1 : Matrix ι ι K)) := by
  intro x hx
  rw [smul_mulVec, one_mulVec, dotProduct_smul]
  exact mul_pos hc (dotProduct_self_pos hx)

theorem Positive.update (hH : Positive H) {p : Secant ι K} (hp : p.Curved) :
    Positive (p.update H) := by
  intro x hx
  have hrho : 0 < p.rho := by
    rw [hp.rho]
    exact one_div_pos.mpr hp.curvature
  rw [p.dotProduct_update]
  by_cases hs : p.s ⬝ᵥ x = 0
  · -- The update leaves such a vector to the old matrix.
    have hold := hH x hx
    simpa [hs] using hold
  · have hnew : 0 < p.rho * ((p.s ⬝ᵥ x) * (p.s ⬝ᵥ x)) := mul_pos hrho (mul_self_pos.mpr hs)
    exact add_pos_of_nonneg_of_pos (hH.nonneg _) hnew

theorem Positive.updates (hH : Positive H) {history : List (Secant ι K)}
    (hcurved : ∀ p ∈ history, p.Curved) : Positive (updates history H) := by
  induction history generalizing H with
  | nil => exact hH
  | cons p history ih =>
    exact ih (hH.update (hcurved p List.mem_cons_self)) fun q hq =>
      hcurved q (List.mem_cons_of_mem p hq)

end Tenzor.RankTwoUpdate
