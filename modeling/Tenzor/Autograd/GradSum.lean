import Tenzor.Autograd.EngineSpec
import Mathlib.Algebra.Group.WithOne.Basic

/-!
# Gradients as sums

A missing gradient counts as zero. Where conversions do not change values,
what is accumulated into a Variable and what a Function adds up before its
backward are sums in the gradients with zero adjoined.
-/

namespace Tenzor

open Engine

variable {T : Type}

/-- A gradient as a summand: one that is missing is zero. -/
def asSum (grad : Option T) : WithZero T := grad

@[simp] theorem asSum_none : asSum (none : Option T) = 0 := rfl

@[simp] theorem asSum_some (t : T) : asSum (some t) = t := rfl

theorem asSum_injective : Function.Injective (asSum : Option T → WithZero T) := fun _ _ h => h

/-- The sum of a list of gradients. -/
def sumOf [AddSemigroup T] (ts : List T) : WithZero T :=
  (ts.map fun t => asSum (some t)).sum

section

variable [AddSemigroup T]

@[simp] theorem sumOf_nil : sumOf ([] : List T) = 0 := rfl

@[simp] theorem sumOf_cons (t : T) (ts : List T) : sumOf (t :: ts) = t + sumOf ts :=
  List.sum_cons

@[simp] theorem sumOf_append (ts ts' : List T) : sumOf (ts ++ ts') = sumOf ts + sumOf ts' := by
  simp only [sumOf, List.map_append, List.sum_append]

variable {ops : TensorOps T} {kinds : Set DType}

theorem TensorOps.Exact.addPromoted_eq (h : ops.Exact kinds) (a b : T) :
    ops.addPromoted a b = a + b := by
  have hmem := h.promote_mem _ (h.dtype_mem a) _ (h.dtype_mem b)
  rw [TensorOps.addPromoted, h.castTo_eq hmem, h.castTo_eq hmem]

theorem TensorOps.Exact.asSum_accumulate (h : ops.Exact kinds) (grad : Option T) (t : T) :
    asSum (some (ops.accumulate grad t)) = asSum grad + t := by
  cases grad with
  | none => exact (zero_add _).symm
  | some existing =>
    rw [TensorOps.accumulate, h.addPromoted_eq]
    exact WithZero.coe_add existing t

/-- `.grad` after a sequence of accumulations is a sum. -/
theorem TensorOps.Exact.asSum_accumulateAll (h : ops.Exact kinds) (grad : Option T)
    (ts : List T) : asSum (accumulateAll ops grad ts) = asSum grad + sumOf ts := by
  induction ts generalizing grad with
  | nil => exact (add_zero _).symm
  | cons t ts ih =>
    calc asSum (accumulateAll ops grad (t :: ts))
        = asSum (some (ops.accumulate grad t)) + sumOf ts := ih _
      _ = asSum grad + sumOf (t :: ts) := by rw [h.asSum_accumulate, add_assoc, sumOf_cons]

omit [AddSemigroup T] in
theorem TensorOps.Exact.foldl_promote_mem (h : ops.Exact kinds) (ts : List T) {d : DType}
    (hd : d ∈ kinds) : ts.foldl (fun d t => promoteTypes d (ops.dtype t)) d ∈ kinds := by
  induction ts generalizing d with
  | nil => exact hd
  | cons t ts ih => exact ih (h.promote_mem d hd _ (h.dtype_mem t))

/-- What a Function adds up before its backward is a sum. -/
theorem TensorOps.Exact.asSum_totalGrad (h : ops.Exact kinds) (ts : List T) :
    asSum (ops.totalGrad ts) = sumOf ts := by
  cases ts with
  | nil => rfl
  | cons first rest =>
    have hmem := h.foldl_promote_mem rest (h.dtype_mem first)
    have hfold : ∀ (ts : List T) (a : T),
        ((ts.foldl (fun total t => total + t) a : T) : WithZero T) = a + sumOf ts := by
      intro ts
      induction ts with
      | nil => exact fun a => (add_zero _).symm
      | cons t ts ih =>
        intro a
        rw [List.foldl_cons, ih, WithZero.coe_add, add_assoc, sumOf_cons]
    simp only [TensorOps.totalGrad, h.castTo_eq hmem, asSum_some, hfold, sumOf_cons]

/-- A pass adds to `.grad` the sum of what it writes. -/
theorem asSum_execute (hexact : ops.Exact kinds) {g : Graph T} (hclosed : g.Closed) (root : VarId)
    (seed : Option T) (retain : Bool) (v : VarId) :
    asSum ((execute ops g root seed retain).1.graph.vars v).grad =
      asSum (g.vars v).grad + sumOf (writesTo v (execute ops g root seed retain).1.log) := by
  obtain ⟨released, roots, hout, -⟩ := @execute_spec _ _ ops g hclosed root seed retain
  rw [hout.grad_eq kinds hexact v, hexact.asSum_accumulateAll]

end

end Tenzor
