import Tenzor.Sparse.Entries

/-!
# The conversions keep the matrix

Every conversion between the layouts keeps the sum of the entries at every place, and
transposing swaps the places.
-/

namespace Tenzor.Sparse

open Throwing Scatter Strided List
open Prod (fst)

variable {α : Type} [AddCommMonoid α]

namespace SparseTensor

variable {nrows ncols : Int} {s r : SparseTensor α} {flag : Bool} {pairs : List (Int × Int)}
  {p : Int × Int} {data : List α} {indices : Indices}

/-- The same matrix, perhaps in another layout. -/
structure SameMatrix (nrows ncols : Int) (s r : SparseTensor α) : Prop where
  valid : Valid nrows ncols r
  dtype : r.values.dtype = s.values.dtype
  sumAt_entries : ∀ p, Inside nrows ncols p → sumAt p r.entries = sumAt p s.entries

theorem SameMatrix.refl (h : Valid nrows ncols s) : SameMatrix nrows ncols s s :=
  ⟨h, rfl, fun _ _ => rfl⟩

theorem SameMatrix.trans {t : SparseTensor α} (h : SameMatrix nrows ncols s r)
    (h' : SameMatrix nrows ncols r t) : SameMatrix nrows ncols s t :=
  ⟨h'.valid, h'.dtype.trans h.dtype,
    fun p hp => (h'.sumAt_entries p hp).trans (h.sumAt_entries p hp)⟩

theorem SameMatrix.toDense_eq (hs : Valid nrows ncols s) (h : SameMatrix nrows ncols s r) :
    r.toDense exact = s.toDense exact := by
  rw [SparseTensor.toDense_eq h.valid, SparseTensor.toDense_eq hs, matrix, h.dtype]
  exact tabulate_congr h.sumAt_entries

omit [AddCommMonoid α] in
/-- The flag promises the order of the rows, and nothing else depends on it. -/
theorem Valid.mark (h : Valid nrows ncols s)
    (hsorted : flag = true → ∀ indices, s.storage = .coo indices →
      (indices.columns.map fun c => (pairOf c).1).Pairwise (· ≤ ·)) :
    Valid nrows ncols { s with coalesced := flag } := by
  obtain ⟨hshape, h⟩ := h
  refine ⟨hshape, ?_⟩
  revert h hsorted
  cases hstore : s.storage with
  | coo indices =>
    exact fun hsorted h => ⟨h.nnz, h.within, h.enough, h.values_shape,
      fun hflag => hsorted hflag indices rfl⟩
  | csr crow col =>
    exact fun _ h => ⟨h.nnz, h.values_shape, h.length_ptr, h.length_idx, h.checked⟩
  | csc ccol row =>
    exact fun _ h => ⟨h.nnz, h.values_shape, h.length_ptr, h.length_idx, h.checked⟩
  | bsr rowPtr colInd blockSize =>
    exact fun _ h => ⟨h.positive, h.nnz, h.length_values, h.length_ptr, h.checked⟩

theorem map_pairOf_ofPairs (pairs : List (Int × Int)) :
    (Indices.ofPairs pairs).columns.map pairOf = pairs := by
  rw [Indices.ofPairs, map_map]
  exact map_id pairs

omit [AddCommMonoid α] in
/-- A coordinate matrix that is made of pairs and marked. -/
theorem sparseCoo_ofPairs {values : Values α}
    (h : sparseCoo (.ofPairs pairs) values [nrows, ncols] true = .ok s)
    (henough : pairs.length ≤ values.data.length)
    (hsorted : flag = true → (pairs.map fst).Pairwise (· ≤ ·)) :
    Valid nrows ncols { s with coalesced := flag } ∧ s.storage = .coo (.ofPairs pairs) ∧
      s.values = values ∧ s.entries = pairs.zip values.data := by
  obtain ⟨hof, -⟩ := sparseCoo_ok h
  refine ⟨(valid_sparseCoo h ?_).mark fun hflag indices hstore => ?_, hof.storage, hof.values, ?_⟩
  · rwa [Indices.ofPairs, length_map]
  · rw [hof.storage] at hstore
    obtain rfl := Storage.coo.inj hstore
    have hfst : (Indices.ofPairs pairs).columns.map (fun c => (pairOf c).1) =
        pairs.map fst := by
      rw [Indices.ofPairs, map_map]
      rfl
    rw [hfst]
    exact hsorted hflag
  · rw [entries, hof.storage, hof.values, Storage.places, map_pairOf_ofPairs]

/-- A matrix without values, as coordinates. -/
theorem emptyCoo_sameMatrix (hs : Valid nrows ncols s) (hzero : s.nnz = 0)
    (h : s.emptyCoo flag = .ok r) :
    SameMatrix nrows ncols s r ∧ ∃ indices, r.storage = .coo indices := by
  rw [emptyCoo, hs.1, bind_eq_ok] at h
  obtain ⟨result, hresult, h⟩ := h
  obtain rfl := pure_eq_ok.mp h
  obtain ⟨hof, -⟩ := sparseCoo_ok hresult
  have hvalid : Valid nrows ncols { result with coalesced := flag } :=
    (valid_sparseCoo hresult (Nat.zero_le _)).mark fun _ indices hstore => by
      rw [hof.storage] at hstore
      obtain rfl := Storage.coo.inj hstore
      exact Pairwise.nil
  have hnil : ({ result with coalesced := flag } : SparseTensor α).entries = [] :=
    entries_eq_nil hvalid hof.nnz
  refine ⟨⟨hvalid, ?_, fun p _ => ?_⟩, _, hof.storage⟩
  · rw [hof.values]
    rfl
  · rw [hnil, entries_eq_nil hs hzero]

/-- Coordinates that are read off the pointers. -/
theorem Compressed.sameMatrix_ofPairs {ptr idx : List Int} {outer inner : Int}
    {result : SparseTensor α} (h : Compressed ptr idx outer inner s)
    (hplaces : s.storage.places = pairs) (hlen : pairs.length = s.nnz)
    (hresult : sparseCoo (.ofPairs pairs) s.values [nrows, ncols] true = .ok result)
    (hsorted : flag = true → (pairs.map fst).Pairwise (· ≤ ·)) :
    SameMatrix nrows ncols s { result with coalesced := flag } ∧
      ∃ indices, ({ result with coalesced := flag } : SparseTensor α).storage = .coo indices := by
  obtain ⟨hvalid, hstore, hvalues, hentries⟩ :=
    sparseCoo_ofPairs hresult (by rw [hlen, h.nnz]) hsorted
  refine ⟨⟨hvalid, congrArg Values.dtype hvalues, fun p _ => ?_⟩, _, hstore⟩
  change sumAt p result.entries = _
  rw [hentries, entries, hplaces]

variable [DecidableEq α]

theorem toCoo_csr {crow col : List Int} (hs : Valid nrows ncols s)
    (hstore : s.storage = .csr crow col) (h : s.toCoo exact = .ok r) :
    SameMatrix nrows ncols s r ∧ ∃ indices, r.storage = .coo indices := by
  have hcompressed : Compressed crow col nrows ncols s := by
    have h := hs.2
    rwa [hstore] at h
  simp only [toCoo, hstore, hs.1] at h
  split at h
  next hzero => exact emptyCoo_sameMatrix hs hzero h
  next hne =>
    obtain ⟨hexpand, hlen, -, -⟩ :=
      inside_of_checked (hcompressed.checked (Nat.pos_of_ne_zero hne)) hcompressed.length_ptr
    simp only [hexpand, bind_eq_ok, pure_eq_ok] at h
    obtain ⟨rows, hrows, -, -, result, hresult, rfl⟩ := h
    obtain rfl := Except.ok.inj hrows
    refine hcompressed.sameMatrix_ofPairs (by rw [hstore, Storage.places]) ?_ hresult fun _ => ?_
    · rw [length_zip, hlen, hcompressed.length_idx, Nat.min_self]
    · rw [map_fst_zip (hlen.trans hcompressed.length_idx.symm).le]
      exact pairwise_rowsOf crow

theorem toCoo_csc {ccol row : List Int} (hs : Valid nrows ncols s)
    (hstore : s.storage = .csc ccol row) (h : s.toCoo exact = .ok r) :
    SameMatrix nrows ncols s r ∧ ∃ indices, r.storage = .coo indices := by
  have hcompressed : Compressed ccol row ncols nrows s := by
    have h := hs.2
    rwa [hstore] at h
  simp only [toCoo, hstore, hs.1] at h
  split at h
  next hzero => exact emptyCoo_sameMatrix hs hzero h
  next hne =>
    obtain ⟨hexpand, hlen, -, -⟩ :=
      inside_of_checked (hcompressed.checked (Nat.pos_of_ne_zero hne)) hcompressed.length_ptr
    simp only [hexpand, bind_eq_ok, pure_eq_ok] at h
    obtain ⟨cols, hcols, -, -, result, hresult, rfl⟩ := h
    obtain rfl := Except.ok.inj hcols
    refine hcompressed.sameMatrix_ofPairs (by rw [hstore, Storage.places]) ?_ hresult
      fun hflag => absurd hflag Bool.false_ne_true
    rw [length_zip, hlen, hcompressed.length_idx, Nat.min_self]

omit [AddCommMonoid α] [DecidableEq α] in
/-- The column of the `k`-th element. -/
theorem pairOf_unravel (hpos : 0 < nrows ∧ 0 < ncols) {k : ℕ} (hk : (k : Int) < nrows * ncols) :
    pairOf (unravel [nrows, ncols] k) = ((k : Int) / ncols, (k : Int) % ncols) := by
  have hin := inside_of_lt hpos.2.le (Int.natCast_nonneg k) hk
  simp [pairOf, unravel, Int.emod_eq_of_lt hin.1.1 hin.1.2]

omit [DecidableEq α] in
/-- The elements of a dense matrix at their places. -/
theorem sumAt_elements (data : List α) (hp : Inside nrows ncols p) :
    sumAt p (data.zipIdx.map fun e => (((e.2 : Int) / ncols, (e.2 : Int) % ncols), e.1)) =
      data.getD (p.1 * ncols + p.2).toNat 0 := by
  have hb := flat_bounds hp
  have hnumbers := sumAt_zipIdx data 0 (p.1 * ncols + p.2).toNat
  rw [Nat.zero_add] at hnumbers
  rw [← hnumbers]
  have hmap : data.zipIdx.map (fun e => (((e.2 : Int) / ncols, (e.2 : Int) % ncols), e.1)) =
      (data.zipIdx.map fun e => (e.2, e.1)).map
        fun e => (((e.1 : Int) / ncols, (e.1 : Int) % ncols), e.2) := by
    rw [map_map]
    rfl
  rw [hmap]
  refine sumAt_map (f := fun k : ℕ => ((k : Int) / ncols, (k : Int) % ncols)) fun e _ => ?_
  rw [eq_comm, ← flat_eq_iff hp]
  omega

theorem fromDenseCoo_ok {dtype : DType} (hnn : 0 ≤ nrows ∧ 0 ≤ ncols)
    (hlen : (data.length : Int) = nrows * ncols)
    (h : fromDenseCoo exact [nrows, ncols] dtype data = .ok r) :
    Valid nrows ncols r ∧ r.values.dtype = dtype ∧ (∃ indices, r.storage = .coo indices) ∧
      ∀ p, Inside nrows ncols p →
        sumAt p r.entries = data.getD (p.1 * ncols + p.2).toNat 0 := by
  have hsum : ∀ p, Inside nrows ncols p → sumAt p ((data.zipIdx.filter fun e => e.1 ≠ 0).map
      fun e => (((e.2 : Int) / ncols, (e.2 : Int) % ncols), e.1)) =
        data.getD (p.1 * ncols + p.2).toNat 0 := by
    intro p hp
    rw [← sumAt_elements data hp]
    have hfilter := filter_map (f := fun e : α × ℕ =>
      (((e.2 : Int) / ncols, (e.2 : Int) % ncols), e.1)) (p := fun e => decide (e.2 ≠ 0))
      (l := data.zipIdx)
    refine (congrArg (sumAt p) hfilter.symm).trans (sumAt_filter fun e _ _ hzero => ?_)
    simpa using hzero
  simp only [fromDenseCoo] at h
  split at h
  next hnil =>
    obtain ⟨hof, -⟩ := sparseCoo_ok h
    refine ⟨valid_sparseCoo h (Nat.zero_le _), ?_, ⟨_, hof.storage⟩, fun p hp => ?_⟩
    · rw [hof.values]
      rfl
    · rw [entries_eq_nil (valid_sparseCoo h (Nat.zero_le _)) hof.nnz, ← hsum p hp, hnil]
      rfl
  next hne =>
    simp only [bind_eq_ok, throwIf_eq_ok, pure_eq_ok] at h
    obtain ⟨-, -, values, hvalues, result, hresult, rfl⟩ := h
    have hbound : ∀ e ∈ data.zipIdx.filter (fun e => e.1 ≠ 0),
        (e.2 : Int) < nrows * ncols ∧ data.getD e.2 0 = e.1 := by
      intro e he
      have hget := mem_zipIdx_iff_getElem?.mp (mem_of_mem_filter he)
      have hlt := (List.getElem?_eq_some_iff.mp hget).1
      rw [getD_eq_getElem?_getD, hget]
      exact ⟨by omega, rfl⟩
    have hpos : 0 < nrows ∧ 0 < ncols := by
      obtain ⟨e, he⟩ := exists_mem_of_ne_nil _ hne
      have hprod := (Int.natCast_nonneg e.2).trans_lt (hbound e he).1
      exact ⟨pos_of_mul_pos_left hprod hnn.2, pos_of_mul_pos_right hprod hnn.1⟩
    have hkey : ∀ e ∈ data.zipIdx.filter (fun e => e.1 ≠ 0),
        exact.key (exact.strides [nrows, ncols]) (unravel [nrows, ncols] e.2) = e.2 := by
      intro e he
      have hdims : ∀ n ∈ [nrows, ncols], 0 < n := by simp [hpos.1, hpos.2]
      rw [Arithmetic.key_eq_dot (Arithmetic.exactUpTo_exact _) (within_unravel hdims _),
        dot_unravel hdims, prod_cons, prod_singleton,
        Int.emod_eq_of_lt (Int.natCast_nonneg _) (hbound e he).1]
    obtain rfl : values = (data.zipIdx.filter fun e => e.1 ≠ 0).map fst := by
      rw [mapM_eq_map (g := fun c => data.getD
        (exact.key (exact.strides [nrows, ncols]) c).toNat 0)] at hvalues
      · rw [← Except.ok.inj hvalues, map_map]
        refine map_congr_left fun e he => ?_
        rw [Function.comp_apply, hkey e he, Int.toNat_natCast, (hbound e he).2]
      · intro c hc
        obtain ⟨e, he, rfl⟩ := mem_map.mp hc
        have hlt := (hbound e he).1
        simp only [hkey e he, inBounds]
        rw [if_pos (decide_eq_true ⟨Int.natCast_nonneg _, by omega⟩)]
        rfl
    obtain ⟨hof, -⟩ := sparseCoo_ok hresult
    have hplaces : ((data.zipIdx.filter fun e => e.1 ≠ 0).map fun e =>
        unravel [nrows, ncols] e.2).map pairOf = (data.zipIdx.filter fun e => e.1 ≠ 0).map
          fun e => ((e.2 : Int) / ncols, (e.2 : Int) % ncols) := by
      rw [map_map]
      exact map_congr_left fun e he => pairOf_unravel hpos (hbound e he).1
    refine ⟨(valid_sparseCoo hresult ?_).mark fun _ indices hstore => ?_, ?_, ⟨_, hof.storage⟩,
      fun p hp => ?_⟩
    · simp [Values.ofList]
    · rw [hof.storage] at hstore
      obtain rfl := Storage.coo.inj hstore
      have hrows : (((data.zipIdx.filter fun e => e.1 ≠ 0).map fun e =>
          unravel [nrows, ncols] e.2).map fun c => (pairOf c).1) =
            (data.zipIdx.filter fun e => e.1 ≠ 0).map fun e => (e.2 : Int) / ncols := by
        simpa only [map_map, Function.comp_def] using congrArg (List.map fst) hplaces
      refine hrows ▸ pairwise_map.mpr (((pairwise_zipIdx data 0).filter _).imp fun hlt => ?_)
      exact Int.ediv_le_ediv hpos.2 (Int.ofNat_le.mpr hlt.le)
    · rw [hof.values]
      rfl
    · rw [← hsum p hp]
      rw [entries, hof.storage, hof.values, Storage.places, hplaces, Values.ofList, zip_map']

/-- The coordinates of the elements of the blocks that are not zero. -/
theorem toCoo_bsr {rowPtr colInd : List Int} {blockSize : Int × Int} (hs : Valid nrows ncols s)
    (hstore : s.storage = .bsr rowPtr colInd blockSize) (h : s.toCoo exact = .ok r) :
    SameMatrix nrows ncols s r ∧ ∃ indices, r.storage = .coo indices := by
  simp only [toCoo, hstore, bind_eq_ok] at h
  obtain ⟨dense, hdense, -, -, h⟩ := h
  obtain ⟨hdims, hlen, hread⟩ := toDense_ok hs hdense
  rw [hs.1] at h
  obtain ⟨hvalid, hdtype, hcoo, hsum⟩ := fromDenseCoo_ok hdims hlen h
  exact ⟨⟨hvalid, hdtype, fun p hp => (hsum p hp).trans (hread p hp)⟩, hcoo⟩

theorem toCoo_sameMatrix (hs : Valid nrows ncols s) (h : s.toCoo exact = .ok r) :
    SameMatrix nrows ncols s r ∧ ∃ indices, r.storage = .coo indices := by
  cases hstore : s.storage with
  | coo indices =>
    simp only [toCoo, hstore] at h
    obtain rfl := pure_eq_ok.mp h
    exact ⟨.refl hs, indices, hstore⟩
  | csr crow col => exact toCoo_csr hs hstore h
  | csc ccol row => exact toCoo_csc hs hstore h
  | bsr rowPtr colInd blockSize => exact toCoo_bsr hs hstore h

omit [AddCommMonoid α] [DecidableEq α] in
/-- The key of an index column is its place in the dense matrix. -/
theorem key_eq_flat {c : List Int} (h : Within c [nrows, ncols]) :
    exact.key (exact.strides [nrows, ncols]) c = exact.flat ncols (pairOf c) := by
  rw [Arithmetic.key_eq_dot (Arithmetic.exactUpTo_exact _) h, (within_pair h).1]
  simp [rowMajor, Arithmetic.flat, exact, pairOf]

omit [DecidableEq α] in
/-- The entries of columns, told by their keys. -/
theorem sumAt_keys {columns : List (List Int)} (h : ∀ c ∈ columns, Within c [nrows, ncols])
    (data : List α) (hp : Inside nrows ncols p) :
    sumAt p ((columns.map pairOf).zip data) = sumAt (exact.flat ncols p)
      ((columns.map (exact.key (exact.strides [nrows, ncols]))).zip data) := by
  have hkeys : columns.map (exact.key (exact.strides [nrows, ncols])) =
      (columns.map pairOf).map (exact.flat ncols) := by
    rw [map_map]
    exact map_congr_left fun c hc => key_eq_flat (h c hc)
  have hzip : (columns.map (exact.key (exact.strides [nrows, ncols]))).zip data =
      ((columns.map pairOf).zip data).map fun e => (exact.flat ncols e.1, e.2) := by
    rw [hkeys, zip_map_left]
    rfl
  rw [hzip, eq_comm]
  refine sumAt_map fun e he => ?_
  obtain ⟨c, hc, heq⟩ := mem_map.mp (of_mem_zip he).1
  have hin := (within_pair (h c hc)).2
  rw [heq] at hin
  refine (flat_eq_iff hin).trans ?_
  have hplace := (flat_eq_iff hp).mp rfl
  change e.1 = ((p.1 * ncols + p.2) / ncols, (p.1 * ncols + p.2) % ncols) ↔ _
  rw [← hplace]

omit [DecidableEq α] in
theorem length_mergedValues {shape : List Int} (hne : sortedEntries exact indices shape data ≠ []) :
    (mergedValues exact indices shape data).length =
      (indices.merged exact shape data).columns.length := by
  have hkeys : (sortedEntries exact indices shape data).map fst ≠ [] :=
    map_eq_nil_iff.not.mpr hne
  rw [mergedValues, length_scatterAdd, length_replicate, Indices.merged,
    length_starts_isNew hkeys _ (by rw [length_map, length_map])]

omit [DecidableEq α] in
/-- The sorted entries are the entries, and merging keeps the sums. -/
theorem sumAt_merged (h : ∀ c ∈ indices.columns, Within c [nrows, ncols])
    (hp : Inside nrows ncols p) (hne : sortedEntries exact indices [nrows, ncols] data ≠ []) :
    sumAt p (((indices.merged exact [nrows, ncols] data).columns.map pairOf).zip
      (mergedValues exact indices [nrows, ncols] data)) =
      sumAt p ((indices.columns.map pairOf).zip data) := by
  have hmerged : ∀ c ∈ (indices.merged exact [nrows, ncols] data).columns,
      Within c [nrows, ncols] := fun c hc => h c (mem_merged hc)
  rw [sumAt_keys hmerged _ hp, sumAt_keys h _ hp]
  have hstarts : (indices.merged exact [nrows, ncols] data).columns.map
      (exact.key (exact.strides [nrows, ncols])) =
        starts (isNew ((sortedEntries exact indices [nrows, ncols] data).map fst))
          ((sortedEntries exact indices [nrows, ncols] data).map fst) := by
    simp only [Indices.merged, map_starts, map_map]
    congr 1
    exact map_congr_left fun e he => (mem_sortedEntries he).1.symm
  have hcount := length_starts_isNew (map_eq_nil_iff.not.mpr hne)
    ((sortedEntries exact indices [nrows, ncols] data).map fst) rfl
  have hruns := sumAt_runs ((sortedEntries exact indices [nrows, ncols] data).map fst)
    ((sortedEntries exact indices [nrows, ncols] data).map fun e => e.2.2) (exact.flat ncols p)
  rw [hcount] at hruns
  rw [hstarts]
  refine hruns.trans ?_
  rw [zip_map', zip_map_left]
  have hperm := (mergeSort_perm ((indices.columns.zip data).map fun e =>
    (exact.key (exact.strides [nrows, ncols]) e.1, e)) (fun a b => a.1 ≤ b.1)).map
      fun e => (e.1, e.2.2)
  refine (sumAt_perm _ hperm).trans ?_
  rw [map_map]
  rfl

omit [AddCommMonoid α] [DecidableEq α] in
theorem pairwise_rows_merged (h : ∀ c ∈ indices.columns, Within c [nrows, ncols]) :
    ((indices.merged exact [nrows, ncols] data).columns.map
      fun c => (pairOf c).1).Pairwise (· ≤ ·) := by
  rw [pairwise_map]
  refine (pairwise_merged exact indices [nrows, ncols] data).imp_of_mem fun ha hb hlt => ?_
  have ha := h _ (mem_merged ha)
  have hb := h _ (mem_merged hb)
  rw [key_eq_flat ha, key_eq_flat hb] at hlt
  have hpos : 0 < ncols := ((within_pair ha).2.2.1).trans_lt (within_pair ha).2.2.2
  have hrows := Int.ediv_le_ediv hpos hlt.le
  have hleft := (flat_eq_iff (within_pair ha).2).mp rfl
  have hright := (flat_eq_iff (within_pair hb).2).mp rfl
  rw [congrArg fst hleft, congrArg fst hright]
  exact hrows

omit [DecidableEq α] in
theorem coalesce_sameMatrix (hs : Valid nrows ncols s) (h : s.coalesce exact = .ok r) :
    SameMatrix nrows ncols s r ∧ ∀ indices, s.storage = .coo indices →
      r.coalesced = true ∧ ∃ indices', r.storage = .coo indices' := by
  rcases coalesce_ok h with ⟨rfl, hflag⟩ | ⟨indices, hstore, hzero, rfl⟩ |
    ⟨indices, result, hstore, -, hne, hshape, hresult, rfl⟩
  · refine ⟨.refl hs, fun indices hstore => ⟨?_, indices, hstore⟩⟩
    exact hflag.resolve_left fun hnot => hnot indices hstore
  · have hcoo : Coordinates indices nrows ncols s := by
      have h := hs.2
      rwa [hstore] at h
    refine ⟨⟨hs.mark fun _ indices' hstore' => ?_, rfl, fun _ _ => rfl⟩,
      fun _ _ => ⟨rfl, indices, hstore⟩⟩
    obtain rfl := Storage.coo.inj (hstore.symm.trans hstore')
    have hnil : indices.columns = [] := length_eq_zero_iff.mp (hcoo.nnz.symm.trans hzero)
    rw [hnil]
    exact Pairwise.nil
  · have hcoo : Coordinates indices nrows ncols s := by
      have h := hs.2
      rwa [hstore] at h
    have hdata : s.values.data.length = s.nnz := by
      rw [s.values.length_data, hshape, prod_singleton]
    have hsorted : sortedEntries exact indices [nrows, ncols] s.values.data ≠ [] := by
      refine ne_nil_of_length_pos ?_
      rw [sortedEntries, sortByKey, length_mergeSort, length_map, length_zip,
        ← hcoo.nnz, hdata, Nat.min_self]
      exact Nat.pos_of_ne_zero hne
    obtain ⟨hof, -⟩ := sparseCoo_ok hresult
    rw [hs.1] at hresult hof
    refine ⟨⟨(valid_sparseCoo hresult ?_).mark fun _ indices' hstore' => ?_, ?_, fun p hp => ?_⟩,
      fun _ _ => ⟨rfl, _, hof.storage⟩⟩
    · exact (length_mergedValues hsorted).ge
    · rw [hof.storage] at hstore'
      obtain rfl := Storage.coo.inj hstore'
      exact pairwise_rows_merged hcoo.within
    · change result.values.dtype = _
      rw [hof.values]
      rfl
    · have hmerged := sumAt_merged hcoo.within hp hsorted
      change sumAt p result.entries = _
      rw [entries, entries, hof.storage, hof.values, hstore]
      exact hmerged

omit [AddCommMonoid α] [DecidableEq α] in
theorem bincount_ok {xs counts : List Int} {n : ℕ} (h : bincount xs n = .ok counts)
    (hbounds : ∀ x ∈ xs, 0 ≤ x ∧ x < n) : counts = countsBelow n xs := by
  simp only [bincount, bind_eq_ok, throwIf_eq_ok, pure_eq_ok] at h
  obtain ⟨-, -, -, -, rfl⟩ := h
  have hsize : ∀ (xs : List Int), (∀ x ∈ xs, 0 ≤ x ∧ x < n) →
      xs.foldl (fun size x => max size (x.toNat + 1)) n = n := by
    intro xs
    induction xs with
    | nil => exact fun _ => rfl
    | cons x xs ih =>
      intro hbounds
      obtain ⟨hx, hxs⟩ := forall_mem_cons.mp hbounds
      rw [foldl_cons, max_eq_left (by omega), ih hxs]
  rw [hsize xs hbounds]

omit [DecidableEq α] in
theorem cooToCsr_sameMatrix (hs : Valid nrows ncols s) (hstore : s.storage = .coo indices)
    (h : s.cooToCsr exact = .ok r) : SameMatrix nrows ncols s r := by
  simp only [cooToCsr, hs.1, bind_eq_ok] at h
  obtain ⟨coo, hcoo, h⟩ := h
  obtain ⟨hsame, hkind⟩ := coalesce_sameMatrix hs hcoo
  obtain ⟨hflag, kept, hkept⟩ := hkind indices hstore
  have hvalid : Coordinates kept nrows ncols coo := by
    have h := hsame.valid.2
    rwa [hkept] at h
  refine hsame.trans ?_
  simp only [hkept] at h
  split at h
  next hzero =>
    simp only [bind_eq_ok] at h
    obtain ⟨-, -, h⟩ := h
    obtain ⟨_, _, -, hof, -⟩ := sparseCsr_ok h
    have hr := valid_sparseCsr h
    refine ⟨hr, by rw [hof.values]; rfl, fun p _ => ?_⟩
    rw [entries_eq_nil hr hof.nnz, entries_eq_nil hsame.valid hzero]
  next hne =>
    simp only [bind_eq_ok, throwIf_eq_ok, not_lt] at h
    obtain ⟨-, hnn, counts, hcounts, h⟩ := h
    have hbounds : ∀ x ∈ (kept.columns.map pairOf).map fst, 0 ≤ x ∧ x < (nrows.toNat : Int) := by
      intro x hx
      obtain ⟨p, hp, rfl⟩ := mem_map.mp hx
      obtain ⟨c, hc, rfl⟩ := mem_map.mp hp
      rw [Int.toNat_of_nonneg hnn]
      exact (within_pair (hvalid.within c hc)).2.1
    obtain rfl := bincount_ok hcounts hbounds
    have hsorted : ((kept.columns.map pairOf).map fst).Pairwise (· ≤ ·) := by
      rw [map_map]
      exact hvalid.sorted hflag
    obtain ⟨_, _, -, hof, -⟩ := sparseCsr_ok h
    refine ⟨valid_sparseCsr h, by rw [hof.values], fun p _ => ?_⟩
    rw [entries, entries, hof.storage, hof.values, hkept, Storage.places, Storage.places,
      rowsOf_pointers hsorted hbounds, zip_map', map_id']

omit [DecidableEq α] in
theorem cooToCsc_sameMatrix (hs : Valid nrows ncols s) (h : s.cooToCsc = .ok r) :
    SameMatrix nrows ncols s r := by
  unfold cooToCsc at h
  split at h
  next indices _ cols hstore hshape =>
    rw [hs.1] at hshape
    obtain ⟨rfl, rfl⟩ : nrows = _ ∧ ncols = _ := by simpa using hshape
    simp only [hs.1, bind_eq_ok, throwIf_eq_ok, not_exists, not_and, not_lt,
      Bool.not_eq_false] at h
    obtain ⟨-, hnn, -, -, -, hbounds, h⟩ := h
    obtain ⟨_, _, -, hof, -⟩ := sparseCsc_ok h
    refine ⟨valid_sparseCsc h, by rw [hof.values]; rfl, fun p _ => ?_⟩
    have hrows : rowsOf (pointers (countsBelow ncols.toNat
        ((((indices.columns.map pairOf).zip s.values.data).mergeSort fun a b =>
          a.1.2 < b.1.2 || (a.1.2 = b.1.2 && a.1.1 ≤ b.1.1)).map fun e => e.1.2))) =
        (((indices.columns.map pairOf).zip s.values.data).mergeSort fun a b =>
          a.1.2 < b.1.2 || (a.1.2 = b.1.2 && a.1.1 ≤ b.1.1)).map fun e => e.1.2 := by
      refine rowsOf_pointers (pairwise_map.mpr (pairwise_mergeSort_lex _ _ _)) fun x hx => ?_
      have hx := of_decide_eq_true (hbounds x hx)
      omega
    rw [entries, entries, hof.storage, hof.values, hstore, Storage.places, Storage.places, hrows,
      Values.ofList, zip_map', zip_map', map_id']
    exact sumAt_perm p (mergeSort_perm _ _)
  next => cases h

theorem toCsr_sameMatrix (hs : Valid nrows ncols s) (h : s.toCsr exact = .ok r) :
    SameMatrix nrows ncols s r := by
  unfold toCsr at h
  split at h
  next => exact pure_eq_ok.mp h ▸ .refl hs
  next indices hstore => exact cooToCsr_sameMatrix hs hstore h
  next =>
    rw [bind_eq_ok] at h
    obtain ⟨coo, hcoo, h⟩ := h
    obtain ⟨hsame, indices, hstore⟩ := toCoo_sameMatrix hs hcoo
    exact hsame.trans (cooToCsr_sameMatrix hsame.valid hstore h)

theorem toCsc_sameMatrix (hs : Valid nrows ncols s) (h : s.toCsc exact = .ok r) :
    SameMatrix nrows ncols s r := by
  unfold toCsc at h
  split at h
  next => exact pure_eq_ok.mp h ▸ .refl hs
  next => exact cooToCsc_sameMatrix hs h
  next =>
    rw [bind_eq_ok] at h
    obtain ⟨coo, hcoo, h⟩ := h
    obtain ⟨hsame, -⟩ := toCoo_sameMatrix hs hcoo
    exact hsame.trans (cooToCsc_sameMatrix hsame.valid h)

end SparseTensor

end Tenzor.Sparse
