import Tenzor.Autograd.ShapeAdjoint
import Tenzor.Jit.SymbolicShape

/-!
# Sums along a broadcast

Two shapes broadcast to a common one, and each is read along a map of its own.
`reduce_grad_for_broadcasting` adds a gradient up along that map, unless the gradient has lost all
its elements to an axis of size zero that the other shape brought in.
-/

namespace Tenzor.ShapeOps

open Strided Reindexing Throwing List

namespace Tensor

/-- The element of a tensor of shape `target` that stands for an element of the broadcast. -/
def broadcastIndex (target out c : List Int) : List Int :=
  collapse target (c.drop (out.length - target.length))

theorem fromRight_of_lt {l : List Int} {i : ℕ} (hi : i < l.length) :
    Jit.fromRight l 1 i = l[l.length - 1 - i] := by
  rw [Jit.fromRight, if_pos hi, getD_eq_getElem]

theorem broadcastSize_left {n m r : Int} (h : Jit.broadcastSize n m = .ok r) : n = 1 ∨ n = r := by
  unfold Jit.broadcastSize at h
  split_ifs at h with heq hone
  · exact .inr (Except.ok.inj h)
  · exact .inl hone
  · exact .inr (Except.ok.inj h)

/-- A shape is aligned at the right of what it broadcasts to. -/
theorem broadcasts_left {shape1 shape2 out : List Int}
    (h : Jit.broadcastShapes shape1 shape2 = .ok out) :
    shape1.length ≤ out.length ∧
      Broadcasts shape1 (out.drop (out.length - shape1.length)) := by
  obtain ⟨sizes, hsizes, hout⟩ := bind_eq_ok.mp h
  obtain rfl := Except.ok.inj hout
  obtain ⟨hlen, hget⟩ := forall₂_iff_get.mp (mapM_eq_ok.mp hsizes)
  rw [length_range] at hlen
  have hle : shape1.length ≤ sizes.reverse.length := by
    rw [length_reverse, ← hlen]
    exact le_max_left _ _
  refine ⟨hle, forall₂_iff_get.mpr ⟨?_, fun k hk hk' => ?_⟩⟩
  · rw [length_drop]
    omega
  · have hi : shape1.length - 1 - k < sizes.length := by omega
    have hsize := hget (shape1.length - 1 - k) (by rw [length_range]; omega) hi
    simp only [get_eq_getElem, getElem_range] at hsize
    rw [fromRight_of_lt (by omega)] at hsize
    have hleft : shape1[shape1.length - 1 - (shape1.length - 1 - k)] = shape1[k] := by
      congr 1
      omega
    have hright : (sizes.reverse.drop (sizes.reverse.length - shape1.length))[k] =
        sizes[shape1.length - 1 - k] := by
      rw [getElem_drop, getElem_reverse]
      congr 1
      rw [length_reverse]
      omega
    rw [get_eq_getElem, get_eq_getElem, hright, ← hleft]
    exact broadcastSize_left hsize

section Gradients

variable {R : Type} [CommSemiring R] {target other : List Int} {g r : Tensor R}

/-- The gradient of what was broadcast, as the broadcast sees it. -/
structure IsReduced (g : Tensor R) (target : List Int) (r : Tensor R) : Prop where
  shape_eq : r.shape = target
  sums : Sums g r (broadcastIndex target g.shape)
  inner_eq : ∀ x : Tensor R, x.shape = target →
    ∑ c ∈ indices g.shape, x.value (broadcastIndex target g.shape c) * g.value c = x.inner r

omit [CommSemiring R] in
theorem within_broadcastIndex (hb : Jit.broadcastShapes target other = .ok g.shape) {c : List Int}
    (hc : Within c g.shape) : Within (broadcastIndex target g.shape c) target :=
  within_collapse (broadcasts_left hb).2 (within_drop _ hc)

theorem IsReduced.of_sums (hb : Jit.broadcastShapes target other = .ok g.shape)
    (hshape : r.shape = target) (hsums : Sums g r (broadcastIndex target g.shape)) :
    IsReduced g target r := by
  refine ⟨hshape, hsums, fun x hx => ?_⟩
  calc
    ∑ c ∈ indices g.shape, x.value (broadcastIndex target g.shape c) * g.value c
      = ∑ j ∈ indices target, x.value j *
          push (indices g.shape) (broadcastIndex target g.shape) g.value j :=
        sum_mul_push (fun c hc =>
          mem_indices.mpr (within_broadcastIndex hb (mem_indices.mp hc))) _ _
    _ = x.inner r := by
        rw [inner, hx]
        refine Finset.sum_congr rfl fun j hj => ?_
        rw [hsums j (hshape ▸ mem_indices.mp hj)]

/-- An empty gradient has no reshape to a shape with elements. -/
theorem numel_of_reduced_empty (hzero : g.numel = 0)
    (hr : g.reduceGradForBroadcasting target = .ok r) (hshape : r.shape = target) :
    target.prod = 0 := by
  unfold reduceGradForBroadcasting reduceGrad at hr
  by_cases heq : g.shape = target
  · exact heq ▸ hzero
  · rw [if_neg heq, if_pos hzero] at hr
    rw [← hshape]
    exact (reshape_ok hr).1.trans hzero

end Gradients

def onesOf (shape : List Int) (h : ∀ n ∈ shape, 0 ≤ n) : Tensor ℤ := ⟨shape, fun _ => 1, h⟩

end Tensor

end Tenzor.ShapeOps
