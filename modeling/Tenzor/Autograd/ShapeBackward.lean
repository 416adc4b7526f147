import Tenzor.Autograd.ShapeTransposes

/-!
# When the backward of a shape operation is its adjoint

Twelve of the sixteen tracked operations have their adjoint as backward on every accepted
argument. The other four miss it on a kind of argument that their forward accepts: `squeeze` of
an axis it leaves alone, `expand` to no elements, `index_select` with a 32-bit index, and `roll` by
the least machine integer, whose negation is itself.
-/

namespace Tenzor.ShapeOps

open Strided Throwing List

variable {R : Type}

/-- The arguments for which the backward is the adjoint of the forward. The axis of `squeeze` is
counted from the front by the operation and once more by the kernel. The least shift is negated to
itself, which is two to the power of 64 too little. -/
def Call.Condition : Call R → Prop
  | .squeeze input dim =>
    0 ≤ normalizeDim (normalizeDim dim.toInt input.ndim) input.ndim ∧
      normalizeDim (normalizeDim dim.toInt input.ndim) input.ndim < input.ndim ∧
      input.size (normalizeDim (normalizeDim dim.toInt input.ndim) input.ndim) = 1
  | .roll input shifts dim => shifts = Int64.minValue → ∀ c, Within c input.shape →
      input.value (Tensor.rollIndex (2 ^ 64) (normalizeDim dim input.ndim).toNat
        (input.size (normalizeDim dim input.ndim)) c) = input.value c
  | .expand input shape => 0 ∈ shape → input.numel = 0
  | .indexSelect _ _ index => index.dtype = .int64
  | _ => True

section Squeeze

variable [CommSemiring R] {x y : Tensor R} {fn : GradFn} {dim : Int64}

omit [CommSemiring R] in
/-- A machine integer that normalizes to the sentinel is the sentinel, of a tensor without axes. -/
theorem squeezeAll_of_normalizeDim
    (h : normalizeDim dim.toInt x.ndim = Tensor.squeezeAll) : x.shape = [] := by
  have hmin := dim.le_toInt
  have hrank : x.ndim = x.shape.length := rfl
  unfold normalizeDim Tensor.squeezeAll at h
  apply length_eq_zero_iff.mp
  split_ifs at h <;> omega

theorem adjoint_squeeze_iff (h : Tracked.squeeze x dim.toInt = .ok (y, fn)) :
    Adjoint [x] y fn ↔ (Call.squeeze x dim).Condition := by
  have hrank : x.ndim = x.shape.length := rfl
  constructor
  · intro hadj
    obtain ⟨grads, hback, hgrads, -⟩ := hadj y rfl
    simp only [Tracked.squeeze, bind_eq_ok, pure_eq_ok, Prod.mk.injEq] at h
    obtain ⟨_, hy, rfl, rfl⟩ := h
    by_cases hall : normalizeDim dim.toInt x.ndim = Tensor.squeezeAll
    · have hnil := squeezeAll_of_normalizeDim hall
      have hndim : x.ndim = 0 := by rw [hrank, hnil]; rfl
      rw [Tensor.squeezeKernel, if_neg (not_not.mpr hall), hnil] at hy
      obtain ⟨-, hyshape, -⟩ := Tensor.make_eq_ok.mp ((if_pos rfl).symm.trans hy)
      rw [Tracked.squeezeBackward, hndim, if_neg (by omega), ← hndim, hall] at hback
      obtain ⟨r, hr, -⟩ := bind_eq_ok.mp hback
      obtain ⟨d, hd, hdim, -⟩ := Tensor.unsqueezeDim_ok hr
      rw [Tensor.ndim, hyshape, normalizeDim, Tensor.squeezeAll] at hdim
      simp at hdim
    · rw [Tensor.squeezeKernel, if_pos hall] at hy
      obtain ⟨d, hd, hdim, hcase⟩ := Tensor.squeezeDim_ok hy
      obtain ⟨hne, rfl⟩ | ⟨hone, -⟩ := hcase
      · obtain ⟨r, hr, hpure⟩ := bind_eq_ok.mp hback
        obtain rfl := pure_eq_ok.mp hpure
        obtain ⟨e, he, -, hrshape, -⟩ := Tensor.unsqueezeDim_ok hr
        have hsame := hgrads.shapes
        simp only [map_cons, map_nil, List.cons.injEq, and_true] at hsame
        have hlen := congrArg List.length hsame
        rw [hrshape, length_insertIdx_of_le_length he] at hlen
        omega
      · simp only [Call.Condition, hdim, Tensor.size, Int.toNat_natCast]
        exact ⟨by omega, by omega, hone⟩
  · rintro ⟨hnn, hlt, hone⟩
    obtain ⟨d, hd⟩ := Int.eq_ofNat_of_zero_le hnn
    rw [hd] at hlt hone
    have hall : normalizeDim dim.toInt x.ndim ≠ Tensor.squeezeAll := by
      intro hall
      have hnil := squeezeAll_of_normalizeDim hall
      rw [hrank, hnil] at hlt
      simp at hlt
      omega
    obtain ⟨φ, hφ⟩ := transposes_squeeze h hall hd (by omega) hone
    exact hφ.adjoint

end Squeeze

section Adjoint

variable [CommSemiring R] {x y : Tensor R} {fn : GradFn}

theorem toInt_neg_of_ne {n : Int64} (hn : n ≠ Int64.minValue) : (-n).toInt = -n.toInt := by
  have hlo := n.le_toInt
  have hhi := n.toInt_lt
  have hne : n.toInt ≠ Int64.minValue.toInt := fun h => hn (Int64.toInt_inj.mp h)
  rw [Int64.toInt_minValue] at hne
  rw [Int64.toInt_neg]
  exact Int.bmod_eq_of_le (by omega) (by omega)

theorem adjoint_roll_iff {shifts : Int64} {dim : Int} (h : Tracked.roll x shifts dim = .ok (y, fn)) :
    Adjoint [x] y fn ↔ (Call.roll x shifts dim).Condition := by
  obtain ⟨d, hd, hdim, hadj⟩ := adjoint_roll h
  rw [hadj]
  simp only [Call.Condition, hdim, Tensor.size, Int.toNat_natCast]
  by_cases hmin : shifts = Int64.minValue
  · subst hmin
    have hneg : -(-Int64.minValue).toInt = 2 ^ 64 + Int64.minValue.toInt := rfl
    have hlen : ∀ {c}, Within c x.shape → d < c.length := fun hc => by rwa [hc.length_eq]
    rw [hneg, forall_prop_of_true rfl]
    constructor
    · intro hsame c hc
      have hback := Tensor.rollIndex_neg (-Int64.minValue.toInt) hd hc
      rw [neg_neg] at hback
      have hc' := Tensor.within_rollIndex (-Int64.minValue.toInt) hd hc
      have hboth := hsame _ hc'
      rw [← Tensor.rollIndex_rollIndex _ _ _ (hlen hc'), hback] at hboth
      exact hboth.symm
    · intro hsame c hc
      rw [← Tensor.rollIndex_rollIndex _ _ _ (hlen hc)]
      exact (hsame _ (Tensor.within_rollIndex _ hd hc)).symm
  · rw [toInt_neg_of_ne hmin, neg_neg]
    exact iff_of_true (fun _ _ => rfl) fun h => absurd h hmin

theorem adjoint_expand_iff {shape : List Int} (h : Tracked.expand x shape = .ok (y, fn)) :
    Adjoint [x] y fn ↔ (Call.expand x shape).Condition := by
  constructor
  · intro hadj hmem
    obtain ⟨grads, hback, hgrads, -⟩ := hadj y rfl
    simp only [Tracked.expand, bind_eq_ok, pure_eq_ok, Prod.mk.injEq] at h
    obtain ⟨_, hy, rfl, rfl⟩ := h
    obtain ⟨-, -, -, hzero, -⟩ := Tensor.expand_ok hy
    have hy0 := hzero hmem
    obtain ⟨r, hr, hpure⟩ := bind_eq_ok.mp hback
    obtain rfl := pure_eq_ok.mp hpure
    have hsame := hgrads.shapes
    simp only [map_cons, map_nil, List.cons.injEq, and_true] at hsame
    unfold Tensor.reduceGradForBroadcasting Tensor.reduceGrad at hr
    split at hr
    · rename_i heq
      rw [Tensor.numel, ← heq]
      exact hy0
    · rw [Tensor.numel, ← hsame, (Tensor.reshape_ok hr).1]
      exact hy0
  · intro hempty
    obtain ⟨φ, hφ⟩ := transposes_expand h hempty
    exact hφ.adjoint

theorem adjoint_indexSelect_iff {dim : Int} {index : Index}
    (h : Tracked.indexSelect x dim index = .ok (y, fn)) :
    Adjoint [x] y fn ↔ (Call.indexSelect x dim index).Condition := by
  constructor
  · intro hadj
    obtain ⟨grads, hback, -⟩ := hadj y rfl
    simp only [Tracked.indexSelect, bind_eq_ok, pure_eq_ok, Prod.mk.injEq] at h
    obtain ⟨_, -, rfl, rfl⟩ := h
    simp only [GradFn.backward, Index.dataInt64, bind_eq_ok, throwIf_eq_ok] at hback
    obtain ⟨-, -, -, ⟨-, hdtype, -⟩, -⟩ := hback
    exact not_not.mp hdtype
  · intro hdtype
    obtain ⟨φ, hφ⟩ := transposes_indexSelect h hdtype
    exact hφ.adjoint

end Adjoint

/-- Two elements along one axis. -/
def pair : Tensor Int := ⟨[2], fun c => c.sum, by decide⟩

end Tenzor.ShapeOps
