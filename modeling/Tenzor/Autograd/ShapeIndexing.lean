import Tenzor.Autograd.ShapeReads

/-!
# What the indexing operations read and write

An index that passed the checks sends each of its multi-indices to one element of the input along
one axis. `gather` and `index_select` read there, `scatter_add` adds there and `scatter` writes
there.
-/

namespace Tenzor.ShapeOps

open Strided Reindexing Throwing List

variable {R : Type} {index : Tensor Int} {d : ℕ} {op : String}

/-- The index addresses elements of the shape along an axis. -/
structure Points (index : Tensor Int) (shape : List Int) (d : ℕ) : Prop where
  axis_lt : d < shape.length
  length_eq : shape.length = index.shape.length
  extent : ∀ i < shape.length, i ≠ d → index.shape.getD i 0 ≤ shape.getD i 0
  entry : ∀ c, Within c index.shape → 0 ≤ normalizeDim (index.value c) (shape.getD d 0) ∧
    normalizeDim (index.value c) (shape.getD d 0) < shape.getD d 0

/-- Where the elements of the index point. -/
abbrev targetIn (index : Tensor Int) (shape : List Int) (d : ℕ) : List Int → List Int :=
  target index d (shape.getD d 0)

theorem Points.within {shape : List Int} (h : Points index shape d) {c : List Int}
    (hc : Within c index.shape) : Within (targetIn index shape d c) shape := by
  obtain ⟨hlen, hget⟩ := within_iff_getD.mp hc
  have hl := h.length_eq
  have hd := h.axis_lt
  refine within_iff_getD.mpr ⟨by simp [target, hlen, hl], fun k hk => ?_⟩
  simp only [targetIn, target, Int.toNat_natCast]
  rw [getD_set _ _ _ _ _ (by omega)]
  split
  · rename_i hkd
    subst hkd
    exact h.entry c hc
  · rename_i hkd
    have hb := hget k (by omega)
    have he := h.extent k hk hkd
    omega

theorem validateAndCast_ok {index : Index} {entries : Tensor Int}
    (h : index.validateAndCast op = .ok entries) :
    (index.dtype = .int32 ∨ index.dtype = .int64) ∧ entries = index.entries := by
  simp only [Index.validateAndCast, bind_eq_ok, throwIf_eq_ok, pure_eq_ok] at h
  obtain ⟨-, hdtype, rfl⟩ := h
  exact ⟨by tauto, rfl⟩

theorem validateAndCast_of_dtype {index : Index} (op : String)
    (h : index.dtype = .int32 ∨ index.dtype = .int64) :
    index.validateAndCast op = .ok index.entries := by
  have hguard : ¬ (index.dtype ≠ .int32 ∧ index.dtype ≠ .int64) := by tauto
  simp only [Index.validateAndCast, throwIf_of_not hguard]
  rfl

theorem indexedDim_eq_ok {dim ndim d : Int} :
    indexedDim op dim ndim = .ok d ↔ normalizeDim dim ndim = d ∧ 0 ≤ d ∧ d < ndim := by
  simp only [indexedDim, bind_eq_ok, throwIf_eq_ok, pure_eq_ok]
  constructor
  · omega
  · rintro ⟨rfl, hguard⟩
    exact ⟨(), by omega, rfl⟩

theorem validateIndexWithinInput_eq_ok {inputShape indexShape : List Int}
    (hlen : inputShape.length = indexShape.length) :
    validateIndexWithinInput op inputShape indexShape d = .ok () ↔
      ∀ i < inputShape.length, i ≠ d → indexShape.getD i 0 ≤ inputShape.getD i 0 := by
  rw [validateIndexWithinInput, forM_eq_ok]
  simp only [throwIf_eq_ok]
  constructor
  · intro h i hi hne
    have hmem : (indexShape.getD i 0, i) ∈ indexShape.zipIdx := by
      rw [mk_mem_zipIdx_iff_getElem?, getD_eq_getElem _ _ (by omega)]
      exact getElem?_eq_getElem (by omega)
    have hle := h _ hmem
    simp only [not_and, not_lt] at hle
    exact hle (by exact_mod_cast hne)
  · rintro h ⟨n, i⟩ hmem ⟨hne, hlt⟩
    rw [mk_mem_zipIdx_iff_getElem?] at hmem
    obtain ⟨hi, hget⟩ := List.getElem?_eq_some_iff.mp hmem
    have hle := h i (by omega) (by exact_mod_cast hne)
    rw [getD_eq_getElem _ _ hi] at hle
    simp only at hlt
    omega

theorem validateIndices_eq_ok {d n : Int} :
    validateIndices op index d n = .ok () ↔ ∀ c, Within c index.shape →
      0 ≤ normalizeDim (index.value c) n ∧ normalizeDim (index.value c) n < n := by
  rw [validateIndices, forM_eq_ok]
  simp only [throwIf_eq_ok, mem_coordinates, not_or, not_lt, not_le]

namespace Tensor

variable {t y src z r : Tensor R} {dim : Int} {index : Index} {d : ℕ} {shape : List Int}

theorem gather_ok (h : t.gather dim index = .ok y) :
    (index.dtype = .int32 ∨ index.dtype = .int64) ∧
      ∃ d : ℕ, normalizeDim dim t.ndim = d ∧ Points index.entries t.shape d ∧
        y.shape = index.entries.shape ∧ Reads t y (targetIn index.entries t.shape d) := by
  simp only [gather, bind_eq_ok, throwIf_eq_ok] at h
  obtain ⟨entries, hcast, d', hdim, -, hlen, _, hextent, _, hentry, h⟩ := h
  obtain ⟨hdtype, rfl⟩ := validateAndCast_ok hcast
  obtain ⟨hnorm, hd0, hdlt⟩ := indexedDim_eq_ok.mp hdim
  obtain ⟨d, rfl⟩ := Int.eq_ofNat_of_zero_le hd0
  have hlen := not_not.mp hlen
  simp only [size, Int.toNat_natCast] at hentry h
  obtain ⟨-, hshape, hval⟩ := make_eq_ok.mp h
  have hpoints : Points index.entries t.shape d :=
    ⟨by simpa [ndim] using hdlt, hlen, (validateIndexWithinInput_eq_ok hlen).mp hextent,
      validateIndices_eq_ok.mp hentry⟩
  refine ⟨hdtype, d, hnorm, hpoints, hshape, fun c hc => ?_, fun c _ => by rw [hval]⟩
  exact hpoints.within (hshape ▸ hc)

/-- The checks of an indexing operation that succeed. -/
theorem exists_gather (hdtype : index.dtype = .int32 ∨ index.dtype = .int64)
    (hdim : normalizeDim dim t.ndim = d) (hpoints : Points index.entries t.shape d) :
    ∃ r, t.gather dim index = .ok r := by
  obtain ⟨r, hr, -⟩ := exists_make (fun c => t.value (targetIn index.entries t.shape d c))
    index.entries.shape_nonneg
  have haxis : indexedDim "gather" dim t.ndim = .ok d :=
    indexedDim_eq_ok.mpr ⟨hdim, by omega, by have := hpoints.axis_lt; simp [ndim, this]⟩
  refine ⟨r, ?_⟩
  rw [gather, validateAndCast_of_dtype _ hdtype]
  simp only [bind_eq_ok, Except.ok.injEq, exists_eq_left', haxis, throwIf_eq_ok, not_not]
  exact ⟨(), hpoints.length_eq, (),
    (validateIndexWithinInput_eq_ok hpoints.length_eq).mpr hpoints.extent, (),
    validateIndices_eq_ok.mpr (by simpa [size] using hpoints.entry), hr⟩

theorem validateScatter_ok {op : String} {p : Tensor Int × Int}
    (h : t.validateScatter op dim index src = .ok p) :
    (index.dtype = .int32 ∨ index.dtype = .int64) ∧
      ∃ d : ℕ, p = (index.entries, (d : Int)) ∧ normalizeDim dim t.ndim = d ∧
        Points index.entries t.shape d ∧ index.entries.shape = src.shape := by
  simp only [validateScatter, bind_eq_ok, throwIf_eq_ok, pure_eq_ok] at h
  obtain ⟨entries, hcast, d', hdim, -, hsrc, -, hlen, _, hextent, _, hentry, rfl⟩ := h
  obtain ⟨hdtype, rfl⟩ := validateAndCast_ok hcast
  obtain ⟨hnorm, hd0, hdlt⟩ := indexedDim_eq_ok.mp hdim
  obtain ⟨d, rfl⟩ := Int.eq_ofNat_of_zero_le hd0
  have hlen := not_not.mp hlen
  exact ⟨hdtype, d, rfl, hnorm, ⟨by simpa [ndim] using hdlt, hlen,
    (validateIndexWithinInput_eq_ok hlen).mp hextent, validateIndices_eq_ok.mp hentry⟩,
    not_not.mp hsrc⟩

theorem validateScatter_of_points (op : String)
    (hdtype : index.dtype = .int32 ∨ index.dtype = .int64) (hdim : normalizeDim dim t.ndim = d)
    (hpoints : Points index.entries t.shape d) (hsrc : index.entries.shape = src.shape) :
    t.validateScatter op dim index src = .ok (index.entries, (d : Int)) := by
  have haxis : indexedDim op dim t.ndim = .ok d :=
    indexedDim_eq_ok.mpr ⟨hdim, by omega, by have := hpoints.axis_lt; simp [ndim, this]⟩
  rw [validateScatter, validateAndCast_of_dtype _ hdtype]
  simp only [bind_eq_ok, Except.ok.injEq, exists_eq_left', haxis, throwIf_eq_ok, not_not,
    pure_eq_ok]
  exact ⟨(), hsrc, (), hpoints.length_eq, (),
    (validateIndexWithinInput_eq_ok hpoints.length_eq).mpr hpoints.extent, (),
    validateIndices_eq_ok.mpr (by simpa [size] using hpoints.entry), trivial⟩

variable [AddCommMonoid R]

theorem scatterAdd_ok (h : t.scatterAdd dim index src = .ok y) :
    (index.dtype = .int32 ∨ index.dtype = .int64) ∧
      ∃ d : ℕ, normalizeDim dim t.ndim = d ∧ Points index.entries t.shape d ∧
        index.entries.shape = src.shape ∧ y.shape = t.shape ∧
        ∀ k, y.value k =
          t.value k + push (indices src.shape) (targetIn index.entries t.shape d) src.value k := by
  obtain ⟨p, hp, h⟩ := bind_eq_ok.mp h
  obtain ⟨hdtype, d, rfl, hnorm, hpoints, hsrc⟩ := validateScatter_ok hp
  obtain ⟨-, hshape, hval⟩ := make_eq_ok.mp h
  refine ⟨hdtype, d, hnorm, hpoints, hsrc, hshape, fun k => ?_⟩
  rw [hval]
  exact (foldl_add_apply (nodup_coordinates _) t.value k).trans (by rw [← hsrc]; rfl)

theorem exists_scatterAdd (hdtype : index.dtype = .int32 ∨ index.dtype = .int64)
    (hdim : normalizeDim dim t.ndim = d) (hpoints : Points index.entries t.shape d)
    (hsrc : index.entries.shape = src.shape) : ∃ r, t.scatterAdd dim index src = .ok r := by
  rw [scatterAdd, validateScatter_of_points "scatter_add" hdtype hdim hpoints hsrc]
  obtain ⟨r, hr, -⟩ := exists_make ((coordinates index.entries.shape).foldl
    (fun out c => Function.update out (target index.entries d (t.size d) c)
      (out (target index.entries d (t.size d) c) + src.value c)) t.value) t.shape_nonneg
  exact ⟨r, hr⟩

/-- Writing the source over zeros, where no place is written twice, adds it up. -/
theorem exists_scatter_zeros (hzero : t.value = fun _ => 0)
    (hdtype : index.dtype = .int32 ∨ index.dtype = .int64)
    (hdim : normalizeDim dim t.ndim = d) (hpoints : Points index.entries t.shape d)
    (hsrc : index.entries.shape = src.shape)
    (hinj : ∀ c c', Within c src.shape → Within c' src.shape →
      targetIn index.entries t.shape d c = targetIn index.entries t.shape d c' → c = c') :
    ∃ r, t.scatter dim index src = .ok r ∧ r.shape = t.shape ∧
      Sums src r (targetIn index.entries t.shape d) := by
  rw [scatter, validateScatter_of_points "scatter" hdtype hdim hpoints hsrc]
  obtain ⟨r, hr, hshape, hval⟩ := exists_make ((coordinates index.entries.shape).foldl
    (fun out c => Function.update out (target index.entries d (t.size d) c) (src.value c)) t.value)
    t.shape_nonneg
  refine ⟨r, hr, hshape, fun k _ => ?_⟩
  rw [hval, hzero]
  refine (foldl_update_apply (nodup_coordinates _) (fun c hc c' hc' heq => ?_) k).trans ?_
  · rw [hsrc, mem_coordinates] at hc hc'
    exact hinj c c' hc hc' heq
  · rw [← hsrc]
    rfl

/-- Adding the source to zeros. -/
theorem exists_scatterAdd_zeros (hzero : t.value = fun _ => 0)
    (hdtype : index.dtype = .int32 ∨ index.dtype = .int64) (hdim : normalizeDim dim t.ndim = d)
    (hpoints : Points index.entries t.shape d) (hsrc : index.entries.shape = src.shape) :
    ∃ r, t.scatterAdd dim index src = .ok r ∧ r.shape = t.shape ∧
      Sums src r (targetIn index.entries t.shape d) := by
  obtain ⟨r, hr⟩ := exists_scatterAdd hdtype hdim hpoints hsrc
  obtain ⟨-, d', hd', -, -, hshape, hval⟩ := scatterAdd_ok hr
  obtain rfl : d' = d := by
    rw [hdim] at hd'
    exact_mod_cast hd'.symm
  refine ⟨r, hr, hshape, fun k _ => ?_⟩
  rw [hval k, hzero]
  exact zero_add _

omit [AddCommMonoid R] in
/-- The flat position of a multi-index gives its position along an axis back. -/
theorem axisPosition {c : List Int} (hd : d < shape.length) (hc : Within c shape) :
    ((dot c (rowMajor shape)).tdiv (shape.drop (d + 1)).prod).tmod (shape.getD d 0) =
      c.getD d 0 := by
  have hpos := hc.pos
  have hdrop : 0 < (shape.drop (d + 1)).prod :=
    Strided.prod_pos fun n hn => hpos n (mem_of_mem_drop hn)
  have hdot := (dot_rowMajor_bounds hc).1
  rw [Int.tdiv_eq_ediv_of_nonneg hdot, Int.tmod_eq_emod_of_nonneg (Int.ediv_nonneg hdot hdrop.le),
    ← unravel_getD shape _ hd, unravel_dot hc]

omit [AddCommMonoid R] in
theorem exists_axisIndex (hnn : ∀ n ∈ shape, 0 ≤ n) (hd : d < shape.length) (entry : Int → Int) :
    ∃ index, axisIndex shape d entry = .ok index ∧ index.dtype = .int64 ∧
      index.entries.shape = shape ∧
      ∀ c, Within c shape → index.entries.value c = entry (c.getD d 0) := by
  obtain ⟨entries, hentries, hshape, hval⟩ := exists_make (fun c => entry
    (((dot c (rowMajor shape)).tdiv (shape.drop (d + 1)).prod).tmod (shape.getD d 0))) hnn
  refine ⟨⟨.int64, entries⟩, ?_, rfl, hshape, fun c hc => ?_⟩
  · simp only [axisIndex, Int.toNat_natCast, hentries]
    rfl
  · rw [hval]
    exact congrArg entry (axisPosition hd hc)

/-- An index along one axis is good when the positions it holds are. -/
theorem points_of_axis {entries : Tensor Int} {n : Int}
    (entry : Int → Int) (hd : d < shape.length) (hshape : entries.shape = shape.set d n)
    (hval : ∀ c, Within c entries.shape → entries.value c = entry (c.getD d 0))
    (hentry : ∀ k, 0 ≤ k → k < n → 0 ≤ normalizeDim (entry k) (shape.getD d 0) ∧
      normalizeDim (entry k) (shape.getD d 0) < shape.getD d 0) : Points entries shape d := by
  refine ⟨hd, by simp [hshape], fun i hi hne => ?_, fun c hc => ?_⟩
  · rw [hshape, getD_set _ _ _ _ _ hd, if_neg (by omega)]
  · rw [hval c hc]
    have hb := within_getD (d := d) hc (by simpa [hshape] using hd)
    rw [hshape, getD_set_self _ hd] at hb
    exact hentry _ hb.1 hb.2

theorem indexSelect_ok (h : t.indexSelect dim index = .ok y) :
    ∃ d : ℕ, normalizeDim dim t.ndim = d ∧ d < t.shape.length ∧
      y.shape = t.shape.set d index.entries.numel ∧
      (∀ k, 0 ≤ k → k < index.entries.numel →
        0 ≤ normalizeDim (index.entries.flat k) (t.shape.getD d 0) ∧
          normalizeDim (index.entries.flat k) (t.shape.getD d 0) < t.shape.getD d 0) ∧
      Reads t y fun c =>
        c.set d (normalizeDim (index.entries.flat (c.getD d 0)) (t.shape.getD d 0)) := by
  obtain ⟨entries, hcast, h⟩ := bind_eq_ok.mp h
  obtain ⟨-, rfl⟩ := validateAndCast_ok hcast
  obtain ⟨d', hdim, h⟩ := bind_eq_ok.mp h
  obtain ⟨hnorm, hd0, hdlt⟩ := indexedDim_eq_ok.mp hdim
  obtain ⟨d, rfl⟩ := Int.eq_ofNat_of_zero_le hd0
  have hd : d < t.shape.length := by simpa [ndim] using hdlt
  simp only [size, Int.toNat_natCast] at h
  have hbound {c : List Int} (hc : Within c (t.shape.set d index.entries.numel)) :
      0 ≤ c.getD d 0 ∧ c.getD d 0 < index.entries.numel := by
    have hb := within_getD (d := d) hc (by simpa using hd)
    rwa [getD_set_self _ hd] at hb
  split at h
  · obtain ⟨-, hshape, -⟩ := make_eq_ok.mp h
    have hnone : ∀ c, ¬ Within c y.shape := by
      intro c hc
      have hb := hbound (hshape ▸ hc)
      omega
    refine ⟨d, hnorm, hd, hshape, fun k hk hlt => by omega, ?_, ?_⟩
    · exact fun c hc => absurd hc (hnone c)
    · exact fun c hc => absurd hc (hnone c)
  · simp only [bind_eq_ok] at h
    obtain ⟨_, hall, h⟩ := h
    obtain ⟨-, hshape, hval⟩ := make_eq_ok.mp h
    have hentry : ∀ k, 0 ≤ k → k < index.entries.numel →
        0 ≤ normalizeDim (index.entries.flat k) (t.shape.getD d 0) ∧
          normalizeDim (index.entries.flat k) (t.shape.getD d 0) < t.shape.getD d 0 := by
      intro k hk hlt
      have hround := forM_eq_ok.mp hall k.toNat (mem_range.mpr (by omega))
      have hguard := throwIf_eq_ok.mp hround
      rw [Int.toNat_of_nonneg hk] at hguard
      omega
    refine ⟨d, hnorm, hd, hshape, hentry, fun c hc => ?_, fun c _ => by rw [hval]⟩
    rw [hshape] at hc
    have hb := hbound hc
    have hw := within_set_set (d := d) (n := t.shape.getD d 0) hc (hentry _ hb.1 hb.2)
      (by simpa using hd)
    rwa [set_set, set_getD_self] at hw

end Tensor

end Tenzor.ShapeOps
