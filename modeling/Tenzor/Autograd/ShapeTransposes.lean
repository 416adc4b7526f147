import Tenzor.Autograd.ShapeAdjoint

/-!
# Adjoints of the slices, broadcasts, indexing operations and concatenations

`slice` and `narrow` scatter the gradient into zeros through an index tensor; the raw start they
keep may count from the end, and so may the entries of the index. `gather` and `index_select` add
at the index instead, for it may repeat.
-/

namespace Tenzor.ShapeOps

open Strided Reindexing Throwing List
open Finset (sum_congr)

variable {R : Type} [CommSemiring R]

section Calls

variable {x y : Tensor R} {fn : GradFn} {start step dim : Int} {index : Index}

omit [CommSemiring R] in
/-- A position counted from the start of a slice, whose start may count from the end. -/
theorem normalizeDim_start {n k : Int} (hk : 0 ≤ k) (hlt : normalizeDim start n + k < n) :
    normalizeDim (start + k) n = normalizeDim start n + k := by
  unfold normalizeDim at hlt ⊢
  split_ifs at * <;> omega

/-- Scattering the gradient at the positions of a slice adds up along the slice. -/
theorem exists_scatter_slice {g zeros : Tensor R} {d : ℕ} {size : Int}
    (hd : d < x.shape.length) (hstep : 0 < step) (hfirst : 0 ≤ normalizeDim start (x.shape.getD d 0))
    (hlt : ∀ k, 0 ≤ k → k < size →
      normalizeDim start (x.shape.getD d 0) + k * step < x.shape.getD d 0)
    (hg : g.shape = x.shape.set d size) (hzshape : zeros.shape = x.shape)
    (hzero : zeros.value = fun _ => 0) (hdtype : index.dtype = .int64)
    (hindex : index.entries.shape = g.shape)
    (hval : ∀ c, Within c g.shape → index.entries.value c = start + c.getD d 0 * step) :
    ∃ r, zeros.scatter d index g = .ok r ∧ r.shape = x.shape ∧
      Sums g r (Tensor.sliceIndex d (normalizeDim start (x.shape.getD d 0)) step) := by
  have hnorm : ∀ k, 0 ≤ k → k < size → normalizeDim (start + k * step) (x.shape.getD d 0) =
      normalizeDim start (x.shape.getD d 0) + k * step := by
    intro k hk hks
    exact normalizeDim_start (mul_nonneg hk hstep.le) (hlt k hk hks)
  have hbound : ∀ c, Within c g.shape → d < c.length ∧ 0 ≤ c.getD d 0 ∧ c.getD d 0 < size := by
    intro c hc
    have hb := within_getD (d := d) hc (by simpa [hg] using hd)
    rw [hg, getD_set_self _ hd] at hb
    exact ⟨by rw [hc.length_eq, hg]; simpa using hd, hb⟩
  have htarget : ∀ c, Within c g.shape → targetIn index.entries zeros.shape d c =
      Tensor.sliceIndex d (normalizeDim start (x.shape.getD d 0)) step c := by
    intro c hc
    obtain ⟨-, hb⟩ := hbound c hc
    rw [hzshape]
    simp only [targetIn, target, Tensor.sliceIndex, Int.toNat_natCast]
    rw [hval c hc, hnorm _ hb.1 hb.2]
  have hpoints : Points index.entries zeros.shape d := by
    rw [hzshape]
    refine Tensor.points_of_axis (fun k => start + k * step) hd (hindex.trans hg)
      (fun c hc => hval c (hindex ▸ hc)) fun k hk hks => ?_
    rw [hnorm k hk hks]
    exact ⟨add_nonneg hfirst (mul_nonneg hk hstep.le), hlt k hk hks⟩
  obtain ⟨r, hr, hrshape, hsums⟩ := Tensor.exists_scatter_zeros hzero (.inr hdtype)
    (Tensor.normalizeDim_natCast d zeros.ndim) hpoints hindex (by
      intro c c' hc hc' heq
      rw [htarget c hc, htarget c' hc'] at heq
      obtain ⟨hcl, hb⟩ := hbound c hc
      obtain ⟨hcl', hb'⟩ := hbound c' hc'
      have hentry := congrArg (fun l => l.getD d 0) heq
      simp only [Tensor.sliceIndex, getD_set_self _ hcl, getD_set_self _ hcl'] at hentry
      have hsame : c.getD d 0 = c'.getD d 0 :=
        mul_right_cancel₀ hstep.ne' (add_left_cancel hentry)
      have hset := congrArg (fun l => l.set d (c.getD d 0)) heq
      simp only [Tensor.sliceIndex, set_set] at hset
      conv_rhs at hset => rw [hsame]
      rwa [set_getD_self, set_getD_self] at hset)
  exact ⟨r, hr, hrshape.trans hzshape, hsums.congr htarget⟩

omit [CommSemiring R] in
/-- Whatever the cache holds, it gives the index that would be built. -/
theorem exists_getOrBuild {key : SliceIndexKey} (cache : SliceIndexCache)
    (h : key.build = .ok index) : ∃ cache', cache.getOrBuild key = .ok (index, cache') := by
  unfold SliceIndexCache.getOrBuild
  split
  · rename_i entry hfind
    have hkey : entry.1 = key := by simpa using find?_some hfind
    have hbuilt := cache.built entry (mem_of_find?_eq_some hfind)
    rw [hkey, h] at hbuilt
    rw [Except.ok.inj hbuilt]
    exact ⟨_, rfl⟩
  · split
    · rename_i index' hbuild
      obtain rfl : index = index' := Except.ok.inj (h.symm.trans hbuild)
      exact ⟨_, rfl⟩
    · rename_i e hbuild
      rw [h] at hbuild
      cases hbuild

/-- The gradient of a slice is scattered to the positions that the slice reads. -/
theorem exists_scatter_of_slice {d : ℕ} {stop : Int} {entry : Int → Int}
    (hy : x.slice d start stop step = .ok y) (hentry : ∀ pos, entry pos = start + pos * step) :
    ∃ φ, Reads x y φ ∧ ∀ g : Tensor R, g.shape = y.shape → ∃ zeros index r,
      Tensor.make x.shape (fun _ => 0) = .ok zeros ∧ axisIndex g.shape d entry = .ok index ∧
        zeros.scatter d index g = .ok r ∧ r.shape = x.shape ∧ Sums g r φ := by
  obtain ⟨d', hd, hd', hstep, hfirst, horder, hlast, hshape, hreads⟩ := Tensor.slice_ok hy
  obtain rfl : d' = d := by
    rw [Tensor.normalizeDim_natCast] at hd'
    exact_mod_cast hd'.symm
  refine ⟨_, hreads, fun g hg => ?_⟩
  rw [hshape] at hg
  have hdg : d' < g.shape.length := by simpa [hg] using hd
  obtain ⟨zeros, hzeros, hzshape, hzero⟩ :=
    Tensor.exists_make (R := R) (fun _ => 0) x.shape_nonneg
  obtain ⟨index, hindex, hdtype, hishape, hival⟩ :=
    Tensor.exists_axisIndex g.shape_nonneg hdg entry
  obtain ⟨r, hr, hrshape, hsums⟩ := exists_scatter_slice hd hstep hfirst
    (fun k hk hks => by
      have := Tensor.add_mul_lt_of_lt_sliceLength horder hstep hks
      omega)
    hg hzshape hzero hdtype hishape fun c hc => (hival c hc).trans (hentry _)
  exact ⟨zeros, index, r, hzeros, hindex, hr, hrshape, hsums⟩

theorem transposes_slice {stop : Int} (h : Tracked.slice x dim start stop step = .ok (y, fn)) :
    ∃ φ, Transposes x y fn φ := by
  simp only [Tracked.slice, bind_eq_ok, throwIf_eq_ok, pure_eq_ok, Prod.mk.injEq] at h
  obtain ⟨-, hguard, _, hy, rfl, rfl⟩ := h
  obtain ⟨d, hdim, -⟩ := TensorImpl.exists_axis hguard
  rw [hdim] at hy ⊢
  obtain ⟨φ, hreads, hback⟩ := exists_scatter_of_slice hy fun _ => rfl
  refine ⟨φ, hreads, fun g hg => ?_⟩
  obtain ⟨zeros, index, r, hzeros, hindex, hr, hrshape, hsums⟩ := hback g hg
  refine ⟨r, ?_, hrshape, hsums, fun cache => ?_⟩
  · exact bind_eq_ok.mpr ⟨zeros, hzeros, bind_eq_ok.mpr ⟨index, hindex,
      bind_eq_ok.mpr ⟨r, hr, rfl⟩⟩⟩
  · have hkey : SliceIndexKey.build ⟨g.shape, d, start, stop, step⟩ = .ok index := hindex
    obtain ⟨cache', hcache⟩ := exists_getOrBuild cache hkey
    refine ⟨r, cache', ?_, Tensor.Same.refl r⟩
    exact bind_eq_ok.mpr ⟨_, hcache, bind_eq_ok.mpr ⟨zeros, hzeros,
      bind_eq_ok.mpr ⟨r, hr, rfl⟩⟩⟩

theorem transposes_narrow {length : Int} (h : Tracked.narrow x dim start length = .ok (y, fn)) :
    ∃ φ, Transposes x y fn φ := by
  simp only [Tracked.narrow, bind_eq_ok, throwIf_eq_ok, pure_eq_ok, Prod.mk.injEq] at h
  obtain ⟨-, hguard, _, hy, rfl, rfl⟩ := h
  obtain ⟨d, hdim, -⟩ := TensorImpl.exists_axis hguard
  rw [hdim] at hy ⊢
  have hentry : ∀ pos, (fun pos => start + pos) pos = start + pos * 1 := fun pos => by
    rw [mul_one]
  obtain ⟨φ, hreads, hback⟩ := exists_scatter_of_slice hy hentry
  refine ⟨φ, hreads, fun g hg => ?_⟩
  obtain ⟨zeros, index, r, hzeros, hindex, hr, hrshape, hsums⟩ := hback g hg
  refine ⟨r, ?_, hrshape, hsums, fun cache => ⟨r, cache, ?_, Tensor.Same.refl r⟩⟩
  · exact bind_eq_ok.mpr ⟨zeros, hzeros, bind_eq_ok.mpr ⟨index, hindex,
      bind_eq_ok.mpr ⟨r, hr, rfl⟩⟩⟩
  · exact bind_eq_ok.mpr ⟨index, hindex, bind_eq_ok.mpr ⟨zeros, hzeros,
      bind_eq_ok.mpr ⟨r, hr, rfl⟩⟩⟩

theorem transposes_expand {shape : List Int} (h : Tracked.expand x shape = .ok (y, fn))
    (hempty : 0 ∈ shape → x.numel = 0) : ∃ φ, Transposes x y fn φ := by
  simp only [Tracked.expand, bind_eq_ok, pure_eq_ok, Prod.mk.injEq] at h
  obtain ⟨out, hy, rfl, rfl⟩ := h
  obtain ⟨hlen, hb, hreads, -, hzero⟩ := Tensor.expand_ok hy
  refine ⟨_, hreads, fun g hg => ?_⟩
  have hnumel : g.numel = 0 → x.shape.prod = 0 := by
    intro hg0
    have hout : out.numel = 0 := by rwa [Tensor.numel, hg] at hg0
    exact (hzero hout).elim hempty id
  rw [← hg] at hb hlen ⊢
  obtain ⟨r, hr, hrshape, hsums⟩ := Tensor.exists_reduceGrad (g := g)
    "reduce_grad_for_broadcasting" x.shape_nonneg hlen hb hnumel
  obtain ⟨r', hr', hr'shape, hsums'⟩ := Tensor.exists_reduceGrad (g := g)
    "reduce_grad_var_for_broadcasting" x.shape_nonneg hlen hb hnumel
  refine ⟨r, bind_eq_ok.mpr ⟨r, hr, rfl⟩, hrshape, hsums, fun cache => ?_⟩
  refine ⟨r', cache, bind_eq_ok.mpr ⟨r', hr', rfl⟩, hrshape.trans hr'shape.symm, fun c hc => ?_⟩
  rw [hsums c hc, hsums' c (by rw [hr'shape, ← hrshape]; exact hc)]

theorem transposes_tileBy {repeats : List Int} (h : Tracked.tileBy x repeats = .ok (y, fn)) :
    ∃ φ, Transposes x y fn φ := by
  simp only [Tracked.tileBy, bind_eq_ok, pure_eq_ok, Prod.mk.injEq] at h
  obtain ⟨_, hy, rfl, rfl⟩ := h
  obtain ⟨hrepeats, hshape, hreads⟩ := Tensor.tileBy_ok hy
  refine ⟨_, hreads, fun g hg => ?_⟩
  obtain ⟨a, b, r, ha, hb, hr, hrshape, hsums⟩ :=
    Tensor.exists_tileBack rfl x.shape_nonneg hrepeats (hg.trans hshape)
  refine ⟨r, ?_, hrshape, hsums, fun cache => ⟨r, cache, ?_, Tensor.Same.refl r⟩⟩
  · exact bind_eq_ok.mpr ⟨a, ha, bind_eq_ok.mpr ⟨b, hb, bind_eq_ok.mpr ⟨r, hr, rfl⟩⟩⟩
  · exact bind_eq_ok.mpr ⟨a, (valueOf_return _ _).trans ha, bind_eq_ok.mpr ⟨b, hb,
      bind_eq_ok.mpr ⟨r, (valueOf_return _ _).trans hr, rfl⟩⟩⟩

theorem transposes_gather (h : Tracked.gather x dim index = .ok (y, fn)) :
    ∃ φ, Transposes x y fn φ := by
  simp only [Tracked.gather, bind_eq_ok, pure_eq_ok, Prod.mk.injEq] at h
  obtain ⟨_, hy, rfl, rfl⟩ := h
  obtain ⟨hdtype, d, hdim, hpoints, hshape, hreads⟩ := Tensor.gather_ok hy
  refine ⟨_, hreads, fun g hg => ?_⟩
  obtain ⟨zeros, hzeros, hzshape, hzero⟩ :=
    Tensor.exists_make (R := R) (fun _ => 0) x.shape_nonneg
  have hindex : index.entries.shape = g.shape := by rw [hg, hshape]
  have hzpoints : Points index.entries zeros.shape d := hzshape ▸ hpoints
  obtain ⟨r, hr, hrshape, hsums⟩ := Tensor.exists_scatterAdd_zeros hzero hdtype
    (Tensor.normalizeDim_natCast d zeros.ndim) hzpoints hindex
  rw [hzshape] at hrshape hsums
  have hsaved : normalizeDim dim x.shape.length = d := hdim
  refine ⟨r, ?_, hrshape, hsums, fun cache => ⟨r, cache, ?_, Tensor.Same.refl r⟩⟩
  · simp only [GradFn.backward, hsaved]
    exact bind_eq_ok.mpr ⟨zeros, hzeros, bind_eq_ok.mpr ⟨r, hr, rfl⟩⟩
  · simp only [GradFn.backwardWithVariables, hsaved]
    exact bind_eq_ok.mpr ⟨zeros, hzeros,
      bind_eq_ok.mpr ⟨r, (valueOf_return _ _).trans hr, rfl⟩⟩

theorem transposes_indexSelect (h : Tracked.indexSelect x dim index = .ok (y, fn))
    (hdtype : index.dtype = .int64) : ∃ φ, Transposes x y fn φ := by
  simp only [Tracked.indexSelect, bind_eq_ok, pure_eq_ok, Prod.mk.injEq] at h
  obtain ⟨_, hy, rfl, rfl⟩ := h
  obtain ⟨d, hdim, hd, hshape, hentry, hreads⟩ := Tensor.indexSelect_ok hy
  refine ⟨_, hreads, fun g hg => ?_⟩
  rw [hshape] at hg
  have hdg : d < g.shape.length := by simpa [hg] using hd
  have hsaved : normalizeDim dim g.ndim = d := by
    rw [← hdim, Tensor.ndim, Tensor.ndim, hg, length_set]
  have hdata : index.dataInt64 = .ok index.entries := by
    simp only [Index.dataInt64, throwIf_of_not (not_not.mpr hdtype)]
    rfl
  obtain ⟨zeros, hzeros, hzshape, hzero⟩ :=
    Tensor.exists_make (R := R) (fun _ => 0) x.shape_nonneg
  obtain ⟨full, hfull, hftype, hfshape, hfval⟩ := Tensor.exists_axisIndex g.shape_nonneg hdg
    index.entries.flat
  have hpoints : Points full.entries zeros.shape d := by
    rw [hzshape]
    exact Tensor.points_of_axis _ hd (hfshape.trans hg) (fun c hc => hfval c (hfshape ▸ hc)) hentry
  obtain ⟨r, hr, hrshape, hsums⟩ := Tensor.exists_scatterAdd_zeros hzero (.inr hftype)
    (Tensor.normalizeDim_natCast d zeros.ndim) hpoints hfshape
  rw [hzshape] at hrshape hsums
  refine ⟨r, ?_, hrshape, hsums.congr fun c hc => ?_, fun cache => ?_⟩
  · simp only [GradFn.backward, hsaved]
    exact bind_eq_ok.mpr ⟨zeros, hzeros, bind_eq_ok.mpr ⟨_, hdata, bind_eq_ok.mpr ⟨full, hfull,
      bind_eq_ok.mpr ⟨r, hr, rfl⟩⟩⟩⟩
  · simp only [targetIn, target, Int.toNat_natCast]
    rw [hfval c hc]
  · refine ⟨r, cache, ?_, Tensor.Same.refl r⟩
    simp only [GradFn.backwardWithVariables, hsaved]
    exact bind_eq_ok.mpr ⟨_, hdata, bind_eq_ok.mpr ⟨full, hfull, bind_eq_ok.mpr ⟨zeros, hzeros,
      bind_eq_ok.mpr ⟨r, (valueOf_return _ _).trans hr, rfl⟩⟩⟩⟩

theorem adjoint_scatterAdd {src : Tensor R} (h : Tracked.scatterAdd x dim index src = .ok (y, fn)) :
    Adjoint [x, src] y fn := by
  simp only [Tracked.scatterAdd, bind_eq_ok, pure_eq_ok, Prod.mk.injEq] at h
  obtain ⟨_, hy, rfl, rfl⟩ := h
  obtain ⟨hdtype, d, hdim, hpoints, hsrc, hshape, hval⟩ := Tensor.scatterAdd_ok hy
  intro g hg
  rw [hshape] at hg
  have hsaved : normalizeDim dim g.ndim = d := by
    rw [← hdim, Tensor.ndim, Tensor.ndim, hg]
  obtain ⟨r, hr⟩ := Tensor.exists_gather hdtype (Tensor.normalizeDim_natCast d g.ndim)
    (hg ▸ hpoints)
  obtain ⟨-, e, he, -, hrshape, hrreads⟩ := Tensor.gather_ok hr
  obtain rfl : e = d := by
    rw [Tensor.normalizeDim_natCast] at he
    exact_mod_cast he.symm
  rw [hg] at hrreads
  refine ⟨[g, r], ?_, ⟨?_, ?_⟩, fun cache => ⟨[g.clone, r], cache, ?_, ?_⟩⟩
  · simp only [GradFn.backward, hsaved]
    exact bind_eq_ok.mpr ⟨r, hr, rfl⟩
  · simp [hg, hrshape, hsrc]
  · have hsrcinner : ∑ k ∈ indices x.shape,
        push (indices src.shape) (targetIn index.entries x.shape e) src.value k * g.value k =
        src.inner r := by
      calc ∑ k ∈ indices x.shape,
            push (indices src.shape) (targetIn index.entries x.shape e) src.value k * g.value k
          = ∑ k ∈ indices x.shape, g.value k *
              push (indices src.shape) (targetIn index.entries x.shape e) src.value k :=
            sum_congr rfl fun k _ => mul_comm _ _
        _ = ∑ c ∈ indices src.shape,
              g.value (targetIn index.entries x.shape e c) * src.value c := by
            refine (sum_mul_push (fun c hc => mem_indices.mpr (hpoints.within ?_)) _ _).symm
            rw [hsrc]
            exact mem_indices.mp hc
        _ = src.inner r := by
            refine sum_congr rfl fun c hc => ?_
            rw [hrreads.value_eq c (by rw [hrshape, hsrc]; exact mem_indices.mp hc), mul_comm]
    rw [zipWith_cons_cons, zipWith_cons_cons, zipWith_nil_left, sum_cons,
      sum_cons, sum_nil, add_zero, ← hsrcinner, Tensor.inner, Tensor.inner, hshape,
      ← Finset.sum_add_distrib]
    exact sum_congr rfl fun k _ => by rw [hval k, add_mul]
  · simp only [GradFn.backwardWithVariables, hsaved]
    exact bind_eq_ok.mpr ⟨r, (valueOf_return _ _).trans hr, rfl⟩
  · exact Forall₂.cons (Tensor.same_clone g)
      (Forall₂.cons (Tensor.Same.refl r) Forall₂.nil)

end Calls

section Cat

variable {d : ℕ} {shape : List Int} {inputs grads : List (Tensor R)} {g : Tensor R} {offset : Int}
  {y : Tensor R}

omit [CommSemiring R] in
/-- The sizes of the inputs along the axis. -/
def sizesAlong (d : ℕ) (inputs : List (Tensor R)) : List Int :=
  inputs.map fun u => u.shape.getD d 0

omit [CommSemiring R] in
/-- Each gradient is the input's block of the whole gradient, from an offset on. -/
def Blocks (d : ℕ) (g : Tensor R) : Int → List (Tensor R) → List (Tensor R) → Prop
  | _, [], [] => True
  | offset, u :: inputs, r :: grads =>
    (r.shape = u.shape ∧
      ∀ c, Within c u.shape → r.value c = g.value (c.set d (offset + c.getD d 0))) ∧
      Blocks d g (offset + u.shape.getD d 0) inputs grads
  | _, _, _ => False

omit [CommSemiring R] in
theorem Blocks.shapes (h : Blocks d g offset inputs grads) :
    grads.map Tensor.shape = inputs.map Tensor.shape := by
  induction inputs generalizing offset grads with
  | nil =>
    cases grads with
    | nil => rfl
    | cons r grads => exact absurd h id
  | cons u inputs ih =>
    cases grads with
    | nil => exact absurd h id
    | cons r grads =>
      obtain ⟨⟨hshape, -⟩, hrest⟩ := h
      rw [map_cons, map_cons, hshape, ih hrest]

omit [CommSemiring R] in
theorem sizesAlong_nonneg (hd : d < shape.length)
    (hinputs : ∀ u ∈ inputs, u.shape = shape.set d (u.shape.getD d 0)) :
    0 ≤ (sizesAlong d inputs).sum := by
  refine sum_nonneg fun n hn => ?_
  obtain ⟨u, hu, rfl⟩ := mem_map.mp hn
  refine u.nonneg_getD ?_
  rw [hinputs u hu]
  simpa using hd

/-- The inner product of a concatenation is the sum of the inner products of its blocks. -/
theorem Blocks.inner_eq (hd : d < shape.length)
    (hinputs : ∀ u ∈ inputs, u.shape = shape.set d (u.shape.getD d 0))
    (h : Blocks d g offset inputs grads) :
    ∑ c ∈ indices (shape.set d (sizesAlong d inputs).sum),
        Tensor.catValue d inputs c * g.value (c.set d (offset + c.getD d 0)) =
      (List.zipWith Tensor.inner inputs grads).sum := by
  induction inputs generalizing offset grads with
  | nil =>
    refine Finset.sum_eq_zero fun c hc => ?_
    have hb := within_getD (d := d) (mem_indices.mp hc) (by simpa using hd)
    rw [getD_set_self _ hd] at hb
    simp only [sizesAlong, map_nil, sum_nil] at hb
    omega
  | cons u inputs ih =>
    cases grads with
    | nil => exact absurd h id
    | cons r grads =>
      obtain ⟨⟨hshape, hval⟩, hrest⟩ := h
      obtain ⟨hu, hinputs⟩ := forall_mem_cons.mp hinputs
      have hun : 0 ≤ u.shape.getD d 0 := by
        refine u.nonneg_getD ?_
        rw [hu]
        simpa using hd
      have hbound : ∀ (n : Int) (c : List Int), Within c (shape.set d n) →
          d < c.length ∧ 0 ≤ c.getD d 0 ∧ c.getD d 0 < n := by
        intro n c hc
        have hb := within_getD (d := d) hc (by simpa using hd)
        rw [getD_set_self _ hd] at hb
        exact ⟨by rw [hc.length_eq]; simpa using hd, hb⟩
      have hsizes : (sizesAlong d (u :: inputs)).sum =
          u.shape.getD d 0 + (sizesAlong d inputs).sum := sum_cons
      rw [hsizes, sum_indices_append hun (sizesAlong_nonneg hd hinputs) hd,
        zipWith_cons_cons, sum_cons, ← ih hinputs hrest]
      congr 1
      · rw [← hu]
        refine sum_congr rfl fun c hc => ?_
        have hc := mem_indices.mp hc
        obtain ⟨-, -, hlt⟩ := hbound (u.shape.getD d 0) c (hu ▸ hc)
        rw [hval c hc, Tensor.catValue, if_pos hlt]
      · refine sum_congr rfl fun c hc => ?_
        obtain ⟨hcl, hnn, -⟩ := hbound _ c (mem_indices.mp hc)
        rw [Tensor.catValue, getD_set_self _ hcl, if_neg (by omega), set_set,
          set_set, add_sub_cancel_left, set_getD_self, ← add_assoc]

omit [CommSemiring R] in
/-- Cutting a gradient into blocks. -/
theorem exists_catSlices (slice : Int → Int → Except Exn (Tensor R))
    (hslice : ∀ first last, slice first last = g.slice d first last 1) (hd : d < shape.length)
    (hinputs : ∀ u ∈ inputs, u.shape = shape.set d (u.shape.getD d 0)) (hoffset : 0 ≤ offset)
    (hg : ∃ n, g.shape = shape.set d n ∧ offset + (sizesAlong d inputs).sum ≤ n) :
    ∃ grads, GradFn.catSlices slice offset (sizesAlong d inputs) = .ok grads ∧
      Blocks d g offset inputs grads := by
  induction inputs generalizing offset with
  | nil => exact ⟨[], rfl, trivial⟩
  | cons u inputs ih =>
    obtain ⟨hu, hinputs⟩ := forall_mem_cons.mp hinputs
    obtain ⟨n, hgshape, hle⟩ := hg
    have hun : 0 ≤ u.shape.getD d 0 := by
      refine u.nonneg_getD ?_
      rw [hu]
      simpa using hd
    have hsizes : (sizesAlong d (u :: inputs)).sum =
        u.shape.getD d 0 + (sizesAlong d inputs).sum := sum_cons
    have hrestnn := sizesAlong_nonneg hd hinputs
    obtain ⟨grads, hgrads, hblocks⟩ := ih hinputs (add_nonneg hoffset hun)
      ⟨n, hgshape, by omega⟩
    obtain ⟨r, hr, hrshape, hrreads⟩ : ∃ r,
        g.slice d offset (offset + u.shape.getD d 0) 1 = .ok r ∧ r.shape = u.shape ∧
          Reads g r (Tensor.sliceIndex d offset 1) := by
      have hdg : d < g.shape.length := by simpa [hgshape] using hd
      have hsize : g.shape.getD d 0 = n := by rw [hgshape, getD_set_self _ hd]
      obtain ⟨r, hr, hrshape, hrreads⟩ := Tensor.exists_slice_one (t := g) hdg hoffset
        (le_add_of_nonneg_right hun) (by omega)
      refine ⟨r, hr, ?_, hrreads⟩
      rw [hrshape, hgshape, set_set, add_sub_cancel_left, ← hu]
    refine ⟨r :: grads, ?_, ⟨hrshape, fun c hc => ?_⟩, hblocks⟩
    · rw [sizesAlong, map_cons, GradFn.catSlices, hslice]
      exact bind_eq_ok.mpr ⟨r, hr, bind_eq_ok.mpr ⟨grads, hgrads, rfl⟩⟩
    · rw [hrreads.value_eq c (hrshape ▸ hc), Tensor.sliceIndex, mul_one]

/-- What a concatenation reads, also of a single tensor. -/
theorem cat_ok {t : Tensor R} {ts : List (Tensor R)} (hd : d < t.shape.length)
    (h : Tensor.cat (t :: ts) d = .ok y) :
    (∀ u ∈ t :: ts, u.shape = t.shape.set d (u.shape.getD d 0)) ∧
      y.shape = t.shape.set d (sizesAlong d (t :: ts)).sum ∧
      ∀ c, Within c y.shape → y.value c = Tensor.catValue d (t :: ts) c := by
  cases ts with
  | nil =>
    obtain rfl : t = y := Except.ok.inj h
    have hself : t.shape = t.shape.set d (t.shape.getD d 0) := (set_getD_self _ _).symm
    refine ⟨by simpa using hself, by simpa [sizesAlong] using hself, fun c hc => ?_⟩
    have hb := within_getD hc hd
    rw [Tensor.catValue, if_pos hb.2]
  | cons u us =>
    have hdim : normalizeDim d t.ndim = d := if_neg (by omega)
    simp only [Tensor.cat, hdim, bind_eq_ok, throwIf_eq_ok] at h
    obtain ⟨-, -, _, hchecks, h⟩ := h
    obtain ⟨-, hshape, hval⟩ := Tensor.make_eq_ok.mp h
    refine ⟨fun v hv => ?_, ?_, fun c _ => by rw [hval, Int.toNat_natCast]⟩
    · have hcheck := forM_eq_ok.mp hchecks v hv
      simp only [bind_eq_ok, throwIf_eq_ok, not_not, Int.toNat_natCast, not_exists, not_and]
        at hcheck
      obtain ⟨-, hlen, hother⟩ := hcheck
      apply ext_getD (by simp [hlen])
      intro k hk
      rw [getD_set _ _ _ _ _ hd]
      by_cases hkd : k = d
      · rw [if_pos hkd, hkd]
      · rw [if_neg hkd]
        exact hother k (by omega) hkd
    · rw [hshape]
      rfl

theorem adjoint_cat {fn : GradFn} {dim : Int} (h : Tracked.cat inputs dim = .ok (y, fn)) :
    Adjoint inputs y fn := by
  cases inputs with
  | nil =>
    simp only [Tracked.cat, bind_eq_ok] at h
    obtain ⟨-, -, _, hcat, -⟩ := h
    cases hcat
  | cons t ts =>
    simp only [Tracked.cat, bind_eq_ok, pure_eq_ok, Prod.mk.injEq] at h
    obtain ⟨splitSizes, hsplit, _, hy, rfl, rfl⟩ := h
    obtain ⟨rfl, hrounds⟩ := mapM_returns
      (g := fun u : Tensor R => u.size (normalizeDim dim t.ndim)) hsplit (by
        intro u _ n hn
        simp only [bind_eq_ok, throwIf_eq_ok, pure_eq_ok] at hn
        obtain ⟨-, -, rfl⟩ := hn
        rfl)
    have hround := hrounds t mem_cons_self
    simp only [bind_eq_ok, throwIf_eq_ok] at hround
    obtain ⟨-, hguard, -⟩ := hround
    obtain ⟨d, hdim, hlt⟩ := TensorImpl.exists_axis hguard
    have hd : d < t.shape.length := by simpa [Tensor.ndim] using hlt
    rw [hdim] at hy ⊢
    obtain ⟨hinputs, hshape, hval⟩ := cat_ok hd hy
    intro g hg
    rw [hshape] at hg
    have hdg : d < g.shape.length := by simpa [hg] using hd
    have hcut : ∃ n, g.shape = t.shape.set d n ∧
        0 + (sizesAlong d (t :: ts)).sum ≤ n := ⟨_, hg, by omega⟩
    obtain ⟨grads, hgrads, hblocks⟩ := exists_catSlices (g := g)
      (fun first last => g.slice d first last 1) (fun _ _ => rfl) hd hinputs le_rfl hcut
    refine ⟨grads, hgrads, ⟨hblocks.shapes, ?_⟩, fun cache => ⟨grads, cache, ?_, ?_⟩⟩
    · rw [Tensor.inner, hshape, ← hblocks.inner_eq hd hinputs]
      refine sum_congr rfl fun c hc => ?_
      rw [hval c (hshape ▸ mem_indices.mp hc), zero_add, set_getD_self]
    · have hvar : ∀ first last,
          GradFn.valueOf (Tracked.slice g d first last 1) = g.slice d first last 1 := by
        intro first last
        have hguard : ¬ ((d : Int) < 0 ∨ g.ndim ≤ d) := by
          unfold Tensor.ndim
          omega
        simp only [Tracked.slice, Tensor.normalizeDim_natCast, throwIf_of_not hguard]
        exact valueOf_return _ _
      simp only [GradFn.backwardWithVariables, hvar]
      exact bind_eq_ok.mpr ⟨grads, hgrads, rfl⟩
    · exact forall₂_same.mpr fun r _ => Tensor.Same.refl r

end Cat

end Tenzor.ShapeOps
