import Tenzor.Autograd.ShapeIndexing
import Tenzor.Autograd.ShapePermute
import Tenzor.Autograd.ShapeRepeat

/-!
# The backward of a shape operation is its adjoint

For each tracked operation, the function it leaves behind adds up the gradient along the map its
forward read through, and both versions of the backward return the same elements.
-/

namespace Tenzor.ShapeOps

open Strided Reindexing Throwing List

variable {R : Type} [CommSemiring R]

namespace Tensor

/-- The sum of the products of the elements. -/
def inner (t u : Tensor R) : R := ∑ c ∈ indices t.shape, t.value c * u.value c

end Tensor

/-- One gradient of the input's shape for each input, with the inner product of the forward. -/
structure IsAdjoint (inputs : List (Tensor R)) (y g : Tensor R) (grads : List (Tensor R)) :
    Prop where
  shapes : grads.map Tensor.shape = inputs.map Tensor.shape
  inner_eq : y.inner g = (List.zipWith Tensor.inner inputs grads).sum

/-- For every gradient of the result both versions of the backward return, and they return the
values of the adjoint. -/
def Adjoint (inputs : List (Tensor R)) (y : Tensor R) (fn : GradFn) : Prop :=
  ∀ g : Tensor R, g.shape = y.shape →
    ∃ grads, fn.backward g = .ok grads ∧ IsAdjoint inputs y g grads ∧
      ∀ cache, ∃ grads' cache', fn.backwardWithVariables cache g = .ok (grads', cache') ∧
        List.Forall₂ Tensor.Same grads grads'

/-- The result reads its only input through the map, and the function adds up along it. -/
structure Transposes (x y : Tensor R) (fn : GradFn) (φ : List Int → List Int) : Prop where
  reads : Reads x y φ
  backward : ∀ g : Tensor R, g.shape = y.shape →
    ∃ r, fn.backward g = .ok [r] ∧ r.shape = x.shape ∧ Sums g r φ ∧
      ∀ cache, ∃ r' cache', fn.backwardWithVariables cache g = .ok ([r'], cache') ∧ r.Same r'

section Basic

variable {x y g r : Tensor R} {fn : GradFn} {φ : List Int → List Int}

theorem Reads.inner (h : Reads x y φ) (g : Tensor R) :
    y.inner g = ∑ c ∈ indices y.shape, x.value (φ c) * g.value c :=
  Finset.sum_congr rfl fun c hc => by rw [h.value_eq c (mem_indices.mp hc)]

theorem Sums.inner (hsums : Sums g r φ) (hr : r.shape = x.shape)
    (hφ : ∀ c, Within c g.shape → Within (φ c) x.shape) :
    x.inner r = ∑ c ∈ indices g.shape, x.value (φ c) * g.value c := by
  calc x.inner r = ∑ k ∈ indices x.shape, x.value k * push (indices g.shape) φ g.value k := by
        refine Finset.sum_congr rfl fun k hk => ?_
        rw [hsums k (hr ▸ mem_indices.mp hk)]
    _ = ∑ c ∈ indices g.shape, x.value (φ c) * g.value c :=
        (sum_mul_push (fun c hc => mem_indices.mpr (hφ c (mem_indices.mp hc))) _ _).symm

/-- A backward that adds up along another map than the forward has read through is its adjoint
where the input has the same elements below both. -/
theorem adjoint_iff_of_sums {ψ : List Int → List Int} (hreads : Reads x y φ)
    (hψ : ∀ c, Within c y.shape → Within (ψ c) x.shape)
    (hback : ∀ g : Tensor R, g.shape = y.shape →
      ∃ r, fn.backward g = .ok [r] ∧ r.shape = x.shape ∧ Sums g r ψ ∧
        ∀ cache, ∃ r' cache', fn.backwardWithVariables cache g = .ok ([r'], cache') ∧ r.Same r') :
    Adjoint [x] y fn ↔ ∀ c, Within c y.shape → x.value (φ c) = x.value (ψ c) := by
  constructor
  · intro hadj c hc
    let g : Tensor R := ⟨y.shape, fun c' => if c' = c then 1 else 0, y.shape_nonneg⟩
    obtain ⟨grads, hgrads, hadjoint, -⟩ := hadj g rfl
    obtain ⟨r, hr, hshape, hsums, -⟩ := hback g rfl
    obtain rfl := Except.ok.inj (hgrads.symm.trans hr)
    have hinner : y.inner g = x.inner r := by simpa using hadjoint.inner_eq
    rw [hreads.inner, hsums.inner hshape hψ] at hinner
    simpa [g, mem_indices.mpr hc] using hinner
  · intro hsame g hg
    obtain ⟨r, hr, hshape, hsums, hvars⟩ := hback g hg
    refine ⟨[r], hr, ⟨by simp [hshape], ?_⟩, fun cache => ?_⟩
    · rw [hreads.inner, zipWith_cons_cons, zipWith_nil_right, sum_singleton,
        hsums.inner hshape (hg ▸ hψ), hg]
      exact Finset.sum_congr rfl fun c hc => by rw [hsame c (mem_indices.mp hc)]
    · obtain ⟨r', cache', hvar, hr'⟩ := hvars cache
      exact ⟨[r'], cache', hvar, Forall₂.cons hr' Forall₂.nil⟩

theorem Transposes.adjoint (h : Transposes x y fn φ) : Adjoint [x] y fn :=
  (adjoint_iff_of_sums h.reads h.reads.within h.backward).mpr fun _ _ => rfl

omit [CommSemiring R] in
theorem valueOf_return (m : Except Exn (Tensor R)) (fn : GradFn) :
    GradFn.valueOf (do let result ← m; return (result, fn)) = m := by
  cases m <;> rfl

end Basic

section Calls

variable {x y : Tensor R} {fn : GradFn} {shape dims c : List Int} {dim : Int} {d : ℕ}

theorem transposes_reshape (h : Tracked.reshape x shape = .ok (y, fn)) :
    Transposes x y fn (Tensor.moved x.shape y.shape) := by
  simp only [Tracked.reshape, bind_eq_ok, pure_eq_ok, Prod.mk.injEq] at h
  obtain ⟨_, hy, rfl, rfl⟩ := h
  obtain ⟨hprod, hreads⟩ := Tensor.reshape_ok hy
  refine ⟨hreads, fun g hg => ?_⟩
  obtain ⟨r, hr, hshape, hsums⟩ := Tensor.exists_reshape_sums (t := g) x.shape_nonneg
    (by rw [hg, hprod])
  refine ⟨r, bind_eq_ok.mpr ⟨r, hr, rfl⟩, hshape, hg ▸ hsums, fun cache => ?_⟩
  exact ⟨r.clone, cache, bind_eq_ok.mpr ⟨r, (valueOf_return _ _).trans hr, rfl⟩,
    Tensor.same_clone r⟩

theorem transposes_flatten {startDim endDim : Int}
    (h : Tracked.flatten x startDim endDim = .ok (y, fn)) :
    Transposes x y fn (Tensor.moved x.shape y.shape) := by
  simp only [Tracked.flatten, bind_eq_ok, pure_eq_ok, Prod.mk.injEq] at h
  obtain ⟨_, hy, rfl, rfl⟩ := h
  obtain ⟨hprod, hreads⟩ := Tensor.flatten_ok hy
  refine ⟨hreads, fun g hg => ?_⟩
  obtain ⟨r, hr, hshape, hsums⟩ := Tensor.exists_reshape_sums (t := g) x.shape_nonneg
    (by rw [hg, hprod])
  refine ⟨r, bind_eq_ok.mpr ⟨r, hr, rfl⟩, hshape, hg ▸ hsums, fun cache => ?_⟩
  exact ⟨r, cache, bind_eq_ok.mpr ⟨r, (valueOf_return _ _).trans hr, rfl⟩, Tensor.Same.refl r⟩

theorem transposes_transpose {dim0 dim1 : Int}
    (h : Tracked.transpose x dim0 dim1 = .ok (y, fn)) : ∃ φ, Transposes x y fn φ := by
  simp only [Tracked.transpose, bind_eq_ok, pure_eq_ok, Prod.mk.injEq] at h
  obtain ⟨_, hy, rfl, rfl⟩ := h
  obtain ⟨i, j, hi, hj, hd0, hd1, hshape, hreads⟩ := Tensor.transpose_ok hy
  refine ⟨_, hreads, fun g hg => ?_⟩
  rw [hshape] at hg
  have hlen : g.shape.length = x.shape.length := by rw [hg, TensorImpl.swapAt_length]
  have hndim : g.ndim = x.ndim := by
    unfold Tensor.ndim
    rw [hlen]
  obtain ⟨r, hr⟩ := Tensor.exists_transpose (t := g) (hlen ▸ hi) (hlen ▸ hj)
    (hndim ▸ hd0) (hndim ▸ hd1)
  obtain ⟨i', j', -, -, hi', hj', hrshape, hrreads⟩ := Tensor.transpose_ok hr
  obtain rfl : i' = i := by
    rw [hndim, hd0] at hi'
    exact_mod_cast hi'.symm
  obtain rfl : j' = j := by
    rw [hndim, hd1] at hj'
    exact_mod_cast hj'.symm
  rw [hg, Tensor.swapAt_swapAt hi hj] at hrshape
  refine ⟨r, bind_eq_ok.mpr ⟨r, hr, rfl⟩, hrshape, hrreads.sums ?_ ?_, fun cache => ?_⟩
  · intro c hc
    have hcl : c.length = x.shape.length := by rw [← hrshape, hc.length_eq]
    exact Tensor.swapAt_swapAt (hcl ▸ hi) (hcl ▸ hj)
  · intro c hc
    have hcl : c.length = x.shape.length := by rw [← hlen, hc.length_eq]
    exact Tensor.swapAt_swapAt (hcl ▸ hi) (hcl ▸ hj)
  · exact ⟨r.clone, cache, bind_eq_ok.mpr ⟨r, (valueOf_return _ _).trans hr, rfl⟩,
      Tensor.same_clone r⟩

/-- The backward rolls by the machine negation of the shift. -/
theorem adjoint_roll {shifts : Int64} (h : Tracked.roll x shifts dim = .ok (y, fn)) :
    ∃ d : ℕ, d < x.shape.length ∧ normalizeDim dim x.ndim = d ∧ (Adjoint [x] y fn ↔
      ∀ c, Within c x.shape →
        x.value (Tensor.rollIndex shifts.toInt d (x.shape.getD d 0) c) =
          x.value (Tensor.rollIndex (-(-shifts).toInt) d (x.shape.getD d 0) c)) := by
  simp only [Tracked.roll, bind_eq_ok, pure_eq_ok, Prod.mk.injEq] at h
  obtain ⟨result, hy, rfl, rfl⟩ := h
  obtain ⟨d, hd, hdim, hshape, hreads⟩ := Tensor.roll_ok hy
  refine ⟨d, hd, hdim, ?_⟩
  have hwithin : ∀ c, Within c result.shape →
      Within (Tensor.rollIndex (-(-shifts).toInt) d (x.shape.getD d 0) c) x.shape := by
    rw [hshape]
    exact fun c hc => Tensor.within_rollIndex _ hd hc
  refine (adjoint_iff_of_sums hreads hwithin fun g hg => ?_).trans (by rw [hshape])
  rw [hshape] at hg
  rw [hdim]
  obtain ⟨r, hr⟩ := Tensor.exists_roll (t := g) (-shifts).toInt (by rw [hg]; exact hd)
    (Tensor.normalizeDim_natCast d g.ndim)
  obtain ⟨d', -, hd', hrshape, hrreads⟩ := Tensor.roll_ok hr
  obtain rfl : d' = d := by
    rw [Tensor.normalizeDim_natCast] at hd'
    exact_mod_cast hd'.symm
  rw [hg] at hrshape hrreads
  refine ⟨r, bind_eq_ok.mpr ⟨r, hr, rfl⟩, hrshape, hrreads.sums ?_ ?_, fun cache => ?_⟩
  · intro c hc
    exact Tensor.rollIndex_neg _ hd (hrshape ▸ hc)
  · intro c hc
    have hback := Tensor.rollIndex_neg (-(-shifts).toInt) hd (hg ▸ hc)
    rwa [neg_neg] at hback
  · exact ⟨r, cache, bind_eq_ok.mpr ⟨r, (valueOf_return _ _).trans hr, rfl⟩, Tensor.Same.refl r⟩

theorem transposes_flip (h : Tracked.flip x dims = .ok (y, fn)) : ∃ φ, Transposes x y fn φ := by
  simp only [Tracked.flip, bind_eq_ok, pure_eq_ok, Prod.mk.injEq] at h
  obtain ⟨_, hy, rfl, rfl⟩ := h
  obtain ⟨hdims, hshape, hreads⟩ := Tensor.flip_ok hy
  refine ⟨_, hreads, fun g hg => ?_⟩
  rw [hshape] at hg
  have hndim : g.ndim = x.ndim := by
    unfold Tensor.ndim
    rw [hg]
  have hback : ∀ d ∈ Tensor.flipAxes dims g.ndim, 0 ≤ d ∧ d < g.ndim := by
    rw [hndim]
    exact hdims
  obtain ⟨r, hr⟩ := Tensor.exists_flip hback
  obtain ⟨-, hrshape, hrreads⟩ := Tensor.flip_ok hr
  rw [hndim, hg] at hrreads
  rw [hg] at hrshape
  refine ⟨r, bind_eq_ok.mpr ⟨r, hr, rfl⟩, hrshape, hrreads.sums ?_ ?_, fun cache => ?_⟩
  · intro c hc
    exact Tensor.flipIndex_flipIndex _ (hrshape ▸ hc)
  · intro c hc
    exact Tensor.flipIndex_flipIndex _ (hg ▸ hc)
  · exact ⟨r, cache, bind_eq_ok.mpr ⟨r, (valueOf_return _ _).trans hr, rfl⟩, Tensor.Same.refl r⟩

theorem transposes_permute (h : Tracked.permute x dims = .ok (y, fn)) :
    ∃ φ, Transposes x y fn φ := by
  simp only [Tracked.permute, bind_eq_ok, pure_eq_ok, Prod.mk.injEq] at h
  obtain ⟨inv, hinv, _, hy, rfl, rfl⟩ := h
  obtain ⟨pos, hperm, hlen, hdims, hshape, hreads⟩ := Tensor.permute_ok hy
  have hdlen : dims.length = x.shape.length := by
    rw [← hlen]
    simpa using congrArg List.length hdims
  have hinveq := inverseDims_ok hperm (by rw [hdlen]; exact hdims) hinv
  have hinvcast : inv = ((List.range pos.length).map pos.idxOf).map Int.ofNat := by
    rw [hinveq, map_map]
    rfl
  have hbound : ∀ d ∈ inv, 0 ≤ d ∧ d < pos.length := by
    intro d hd
    rw [hinveq] at hd
    obtain ⟨j, hj, rfl⟩ := mem_map.mp hd
    have hlt := idxOf_lt_of_perm hperm (mem_range.mp hj)
    omega
  refine ⟨_, hreads, fun g hg => ?_⟩
  rw [hshape] at hg
  have hglen : g.shape.length = pos.length := by rw [hg, gather_length]
  have hndim : g.ndim = pos.length := by rw [Tensor.ndim, hglen]
  have hnodup : inv.Nodup := by
    rw [hinvcast, map_map]
    refine Nodup.map_on ?_ nodup_range
    intro a ha b hb hab
    have hab : pos.idxOf a = pos.idxOf b := by simpa using hab
    rw [← getD_idxOf_of_perm hperm (mem_range.mp ha), hab,
      getD_idxOf_of_perm hperm (mem_range.mp hb)]
  have hinvlen : inv.length = g.shape.length := by
    rw [hinveq]
    simp [hglen]
  obtain ⟨r, hr⟩ := Tensor.exists_permute hinvlen (by rw [hndim]; exact hbound) hnodup
  obtain ⟨pos', hperm', -, hdims', hrshape, hrreads⟩ := Tensor.permute_ok hr
  have hpos' : pos' = (List.range pos.length).map pos.idxOf := by
    have hnorm : inv.map (normalizeDim · g.ndim) = inv := by
      conv_rhs => rw [← map_id inv]
      apply map_congr_left
      intro d hd
      exact if_neg (by have := hbound d hd; omega)
    rw [hnorm, hinvcast] at hdims'
    exact (map_injective_iff.mpr Int.ofNat_injective hdims').symm
  have hrx : r.shape = x.shape := by
    rw [hrshape, hg, hpos', gather_inverse]
    exact scatter_gather hperm hlen.symm
  refine ⟨r, bind_eq_ok.mpr ⟨r, hr, rfl⟩, hrx, hrreads.sums ?_ ?_, fun cache => ?_⟩
  · intro c hc
    rw [scatter_inverse hperm hperm' hpos']
    exact scatter_gather hperm (by rw [hc.length_eq, hrx, hlen])
  · intro c hc
    rw [scatter_inverse hperm hperm' hpos']
    exact gather_scatter hperm (by rw [hc.length_eq, hglen])
  · refine ⟨r.clone, cache, bind_eq_ok.mpr ⟨r, ?_, rfl⟩, Tensor.same_clone r⟩
    have hinside : ∀ d ∈ inv, 0 ≤ d ∧ d < inv.length := by
      rw [hinvlen, hglen]
      exact hbound
    obtain ⟨back, hback⟩ := exists_inverseDims hinside
    simp only [GradFn.valueOf, Tracked.permute, hback, hr]
    rfl

omit [CommSemiring R] in
theorem insertIdx_eraseIdx_zero (hd : d < shape.length) (hone : shape.getD d 0 = 1)
    (hc : Within c shape) : (c.eraseIdx d).insertIdx d 0 = c := by
  have hb := within_getD hc hd
  have hzero : c.getD d 0 = 0 := by omega
  have hback := insertIdx_eraseIdx_getD (0 : Int) (l := c) (d := d) (by rw [hc.length_eq]; exact hd)
  rwa [hzero] at hback

omit [CommSemiring R] in
theorem prod_insertIdx_one (hd : d ≤ shape.length) : (shape.insertIdx d 1).prod = shape.prod := by
  rw [prod_insertIdx hd fun _ _ => Commute.all _ _, one_mul]

omit [CommSemiring R] in
/-- An inserted axis of size one does not change the flat position. -/
theorem dot_insertIdx_one (hd : d ≤ shape.length) (hc : Within c (shape.insertIdx d 1)) :
    dot c (rowMajor (shape.insertIdx d 1)) = dot (c.eraseIdx d) (rowMajor shape) := by
  induction d generalizing c shape with
  | zero =>
    rw [insertIdx_zero] at hc ⊢
    cases hc with
    | @cons i _ c _ hi hc =>
      obtain rfl : i = 0 := by omega
      rw [rowMajor, dot_cons, zero_mul, zero_add]
      rfl
  | succ d ih =>
    cases shape with
    | nil => simp at hd
    | cons n shape =>
      rw [insertIdx_succ_cons] at hc ⊢
      have hd' : d ≤ shape.length := by simpa using hd
      cases hc with
      | @cons i _ c _ hi hc =>
        rw [rowMajor, dot_cons, ih hd' hc, prod_insertIdx_one hd', eraseIdx_cons_succ,
          rowMajor, dot_cons]

theorem transposes_squeeze (h : Tracked.squeeze x dim = .ok (y, fn))
    (hall : normalizeDim dim x.ndim ≠ Tensor.squeezeAll)
    (hdim : normalizeDim (normalizeDim dim x.ndim) x.ndim = d) (hd : d < x.shape.length)
    (hone : x.shape.getD d 0 = 1) : ∃ φ, Transposes x y fn φ := by
  simp only [Tracked.squeeze, bind_eq_ok, pure_eq_ok, Prod.mk.injEq] at h
  obtain ⟨_, hy, rfl, rfl⟩ := h
  rw [Tensor.squeezeKernel, if_pos hall] at hy
  obtain ⟨d', -, hd', hcase⟩ := Tensor.squeezeDim_ok hy
  obtain rfl : d' = d := by
    rw [hdim] at hd'
    exact_mod_cast hd'.symm
  obtain ⟨hne, -⟩ | ⟨-, hshape, hreads⟩ := hcase
  · exact absurd hone hne
  have hfn : Tracked.squeezeBackward (normalizeDim dim x.ndim) x.ndim = .squeeze d' := by
    have hpos : 0 < x.ndim := by
      unfold Tensor.ndim
      omega
    rw [Tracked.squeezeBackward]
    rw [← hdim]
    conv_rhs => rw [normalizeDim]
    simp only [hpos, and_true]
  rw [hfn]
  refine ⟨_, hreads, fun g hg => ?_⟩
  rw [hshape] at hg
  have hglen : g.shape.length + 1 = x.shape.length := by
    rw [hg, length_eraseIdx_of_lt hd]
    omega
  have hinsert : g.shape.insertIdx d' 1 = x.shape := by
    rw [hg, ← hone]
    exact insertIdx_eraseIdx_getD 0 hd
  have hdg : d' ≤ g.shape.length := by omega
  obtain ⟨r, hr⟩ := Tensor.exists_unsqueezeDim "Dimension out of range for unsqueeze" hdg
    (Tensor.normalizeDim_natCast d' (g.ndim + 1))
  obtain ⟨e, -, he, hrshape, hrreads⟩ := Tensor.unsqueezeDim_ok hr
  obtain rfl : e = d' := by
    rw [Tensor.normalizeDim_natCast] at he
    exact_mod_cast he.symm
  refine ⟨r, bind_eq_ok.mpr ⟨r, hr, rfl⟩, hrshape.trans hinsert, hrreads.sums ?_ ?_,
    fun cache => ?_⟩
  · intro c hc
    rw [hrshape, hinsert] at hc
    exact insertIdx_eraseIdx_zero hd hone hc
  · intro c hc
    exact eraseIdx_insertIdx_self _
  · have hnn : ∀ n ∈ g.shape.insertIdx e 1, 0 ≤ n := hinsert ▸ x.shape_nonneg
    obtain ⟨r', hr', hr'shape, hr'reads⟩ := Tensor.exists_reshape hnn (prod_insertIdx_one hdg)
    refine ⟨r', cache, ?_, hrshape.trans hr'shape.symm, fun c hc => ?_⟩
    · have hguard : ¬ ((e : Int) < 0 ∨ g.ndim < e) := by
        unfold Tensor.ndim
        omega
      simp only [GradFn.backwardWithVariables, Tensor.normalizeDim_natCast, throwIf_of_not hguard,
        Int.toNat_natCast]
      exact bind_eq_ok.mpr ⟨(), rfl, bind_eq_ok.mpr ⟨r', (valueOf_return _ _).trans hr', rfl⟩⟩
    · rw [hrreads.value_eq c hc, hr'reads.value_eq c (hr'shape ▸ hrshape ▸ hc), Tensor.moved,
        dot_insertIdx_one hdg (hrshape ▸ hc), unravel_dot]
      have hw := within_eraseIdx e (hrshape ▸ hc)
      rwa [eraseIdx_insertIdx_self] at hw

theorem transposes_unsqueeze (h : Tracked.unsqueeze x dim = .ok (y, fn)) :
    ∃ φ, Transposes x y fn φ := by
  simp only [Tracked.unsqueeze, bind_eq_ok, pure_eq_ok, Prod.mk.injEq] at h
  obtain ⟨_, hy, rfl, rfl⟩ := h
  obtain ⟨d, hd, hdim, hshape, hreads⟩ := Tensor.unsqueezeDim_ok hy
  refine ⟨_, hreads, fun g hg => ?_⟩
  rw [hshape] at hg
  have hglen : g.shape.length = x.shape.length + 1 := by
    rw [hg, length_insertIdx_of_le_length hd]
  have hndim : normalizeDim dim g.ndim = d := by
    rw [← hdim, Tensor.ndim, hglen]
    rfl
  have hone : g.shape.getD d 0 = 1 := by
    rw [hg, getD_eq_getElem _ _ (by rw [length_insertIdx_of_le_length hd]; omega),
      getElem_insertIdx_self]
  have hdg : d < g.shape.length := by omega
  have hback : ∀ (msg : String) (k : Int), normalizeDim k g.ndim = d →
      ∃ r, g.squeezeDim msg k = .ok r ∧ r.shape = x.shape ∧ Reads g r fun c => c.insertIdx d 0 := by
    intro msg k hk
    obtain ⟨r, hr⟩ := Tensor.exists_squeezeDim msg hdg hk hone
    obtain ⟨e, -, he, hcase⟩ := Tensor.squeezeDim_ok hr
    obtain rfl : e = d := by
      rw [hk] at he
      exact_mod_cast he.symm
    obtain ⟨hne, -⟩ | ⟨-, hrshape, hrreads⟩ := hcase
    · exact absurd hone hne
    · exact ⟨r, hr, by rw [hrshape, hg, eraseIdx_insertIdx_self], hrreads⟩
  obtain ⟨r, hr, hrshape, hrreads⟩ := hback "Dimension out of range for squeeze" dim hndim
  refine ⟨r, bind_eq_ok.mpr ⟨r, hr, rfl⟩, hrshape, hrreads.sums ?_ ?_, fun cache => ?_⟩
  · intro c hc
    exact eraseIdx_insertIdx_self _
  · intro c hc
    exact insertIdx_eraseIdx_zero hdg hone hc
  · obtain ⟨r', hr', hr'shape, hr'reads⟩ := hback "squeeze: dim out of range" d
      (Tensor.normalizeDim_natCast d _)
    refine ⟨r', cache, bind_eq_ok.mpr ⟨r', (valueOf_return _ _).trans ?_, rfl⟩,
      Tensor.Same.of_reads hrreads hr'reads (hrshape.trans hr'shape.symm)⟩
    rw [hndim, Tensor.squeezeKernel]
    exact hr'

end Calls

end Tenzor.ShapeOps
