import Tenzor.Sparse.BlockMatrix
import Mathlib.Data.List.Zip

/-!
# Conversions keep the matrix

A conversion that reads its tensor by position keeps the matrix, and the dense tensor of the
transpose is the transposed one.
-/

namespace Tenzor.Sparse

open Throwing Scatter List

variable {α : Type} [AddCommMonoid α]

/-- The elements of a transposed dense matrix, in row-major order. -/
def transposed (nrows ncols : Int) (dense : List α) : List α :=
  (List.range dense.length).map fun k : ℕ =>
    dense.getD ((k : Int) % nrows * ncols + (k : Int) / nrows).toNat 0

theorem zeros_swap (nrows ncols : Int) (dtype : DType) :
    (zeros [ncols, nrows] dtype : Except Exn (List α)) = zeros [nrows, ncols] dtype := by
  have hsign : (∃ n ∈ [ncols, nrows], n < 0) ↔ ∃ n ∈ [nrows, ncols], n < 0 := by
    simp [or_comm]
  have hprod : [ncols, nrows].prod = [nrows, ncols].prod := by simp [mul_comm]
  simp only [zeros, hsign, hprod]

theorem tabulate_swap (nrows ncols : Int) (dtype : DType) (f : Int × Int → α) :
    tabulate ncols nrows dtype (fun p => f p.swap) =
      transposed nrows ncols <$> tabulate nrows ncols dtype f := by
  unfold tabulate
  rw [zeros_swap]
  cases hz : (zeros [nrows, ncols] dtype : Except Exn (List α)) with
  | error e => rfl
  | ok out =>
    obtain ⟨hnn, rfl⟩ := zeros_eq_ok hz
    have hdims : 0 ≤ nrows ∧ 0 ≤ ncols := by simpa using hnn
    refine congrArg Except.ok ?_
    rw [transposed, length_map, length_range, length_replicate, prod_cons,
      prod_singleton]
    refine map_congr_left fun k hk => ?_
    have hlt : (k : Int) < ncols * nrows := by
      rw [mem_range] at hk
      rw [mul_comm]
      omega
    have hplace := inside_of_lt hdims.1 (Int.natCast_nonneg k) hlt
    have hin : Inside nrows ncols ((k : Int) % nrows, (k : Int) / nrows) := ⟨hplace.2, hplace.1⟩
    have hb := flat_bounds hin
    dsimp only at hb
    have hread := (flat_eq_iff hin).mp (Int.toNat_of_nonneg hb.1).symm
    rw [getD_eq_getElem _ _ (by simp; omega), getElem_map, getElem_range, ← hread]
    rfl

namespace SparseTensor

variable {nrows ncols : Int} {s r t : SparseTensor α} {indices : Indices}

/-- The transposed matrix. -/
structure Transposed (nrows ncols : Int) (s t : SparseTensor α) : Prop where
  valid : Valid ncols nrows t
  dtype : t.values.dtype = s.values.dtype
  sumAt_entries : ∀ p, Inside ncols nrows p → sumAt p t.entries = sumAt p.swap s.entries

theorem Transposed.toDense_eq (hs : Valid nrows ncols s) (h : Transposed nrows ncols s t) :
    t.toDense exact = transposed nrows ncols <$> s.toDense exact := by
  rw [SparseTensor.toDense_eq h.valid, SparseTensor.toDense_eq hs, matrix, matrix, h.dtype,
    ← tabulate_swap]
  exact tabulate_congr h.sumAt_entries

theorem SameMatrix.transposed (h : SameMatrix nrows ncols s r) (h' : Transposed nrows ncols r t) :
    Transposed nrows ncols s t :=
  ⟨h'.valid, h'.dtype.trans h.dtype, fun p hp =>
    (h'.sumAt_entries p hp).trans (h.sumAt_entries p.swap ⟨hp.2, hp.1⟩)⟩

theorem Transposed.sameMatrix (h : Transposed nrows ncols s t) (h' : SameMatrix ncols nrows t r) :
    Transposed nrows ncols s r :=
  ⟨h'.valid, h'.dtype.trans h.dtype, fun p hp =>
    (h'.sumAt_entries p hp).trans (h.sumAt_entries p hp)⟩

/-- Entries at swapped places. -/
theorem Transposed.of_entries (hvalid : Valid ncols nrows t)
    (hvalues : t.values = s.values) (hplaces : t.storage.places = s.storage.places.map Prod.swap) :
    Transposed nrows ncols s t := by
  refine ⟨hvalid, congrArg Values.dtype hvalues, fun p _ => ?_⟩
  have hzip : t.entries = s.entries.map fun e => (e.1.swap, e.2) := by
    rw [entries, hplaces, hvalues, zip_map_left]
    rfl
  rw [hzip]
  exact sumAt_map fun e _ => Prod.swap_eq_iff_eq_swap

theorem transposeCoo_spec (hs : Valid nrows ncols s) (hstore : s.storage = .coo indices)
    (h : s.transposeCoo exact = .ok t) : Transposed nrows ncols s t := by
  simp only [transposeCoo, hstore, hs.1, bind_eq_ok] at h
  obtain ⟨swapped, hswapped, h⟩ := h
  have hcoo : Coordinates indices nrows ncols s := by
    have h := hs.2
    rwa [hstore] at h
  obtain ⟨hof, -⟩ := sparseCoo_ok hswapped
  have hvalid := valid_sparseCoo hswapped (by
    rw [Indices.swap, length_map, ← hcoo.nnz]
    exact hcoo.enough)
  obtain ⟨hsame, -⟩ := coalesce_sameMatrix hvalid h
  refine (Transposed.of_entries hvalid hof.values ?_).sameMatrix hsame
  rw [hof.storage, hstore, Storage.places, Storage.places, Indices.swap, map_map, map_map]
  refine map_congr_left fun c hc => ?_
  rw [(within_pair (hcoo.within c hc)).1]
  rfl

variable [DecidableEq α]

theorem transpose_spec (hs : Valid nrows ncols s) (h : s.transpose exact = .ok t) :
    Transposed nrows ncols s t := by
  cases hstore : s.storage with
  | coo indices =>
    simp only [transpose, hstore] at h
    exact transposeCoo_spec hs hstore h
  | csr crow col =>
    simp only [transpose, hstore, hs.1, bind_eq_ok] at h
    obtain ⟨csc, hcsc, h⟩ := h
    obtain ⟨_, _, -, hof, -⟩ := sparseCsc_ok hcsc
    refine (Transposed.of_entries (valid_sparseCsc hcsc) hof.values ?_).sameMatrix
      (toCsr_sameMatrix (valid_sparseCsc hcsc) h)
    rw [hof.storage, hstore, Storage.places, Storage.places, zip_swap]
  | csc ccol row =>
    simp only [transpose, hstore, hs.1] at h
    obtain ⟨_, _, -, hof, -⟩ := sparseCsr_ok h
    refine Transposed.of_entries (valid_sparseCsr h) hof.values ?_
    rw [hof.storage, hstore, Storage.places, Storage.places, zip_swap]
  | bsr rowPtr colInd blockSize =>
    simp only [transpose, hstore, hs.1, bind_eq_ok] at h
    obtain ⟨coo, hcoo, h⟩ := h
    obtain ⟨hsame, indices, hkept⟩ := toCoo_sameMatrix hs hcoo
    exact hsame.transposed (transposeCoo_spec hsame.valid hkept h)

theorem toBsr_sameMatrix {blockSize : Int × Int} (hs : Valid nrows ncols s)
    (h : s.toBsr exact blockSize = .ok r) : SameMatrix nrows ncols s r := by
  have hvia : (s.toCsr exact >>= fun csr => csr.csrToBsr exact blockSize) = .ok r →
      SameMatrix nrows ncols s r := by
    intro h
    obtain ⟨csr, hcsr, h⟩ := bind_eq_ok.mp h
    have hsame := toCsr_sameMatrix hs hcsr
    exact hsame.trans (csrToBsr_sameMatrix hsame.valid h)
  unfold toBsr at h
  split at h
  next =>
    split at h
    next => exact pure_eq_ok.mp h ▸ .refl hs
    next => exact hvia h
  next => exact hvia h

/-- A matrix as one of the constructors makes it. -/
inductive Accepted (nrows ncols : Int) (s : SparseTensor α) : Prop
  | coo (indices : Indices) (values : Values α)
      (h : sparseCoo indices values [nrows, ncols] true = .ok s)
  | csr (crow col : List Int) (values : Values α)
      (h : sparseCsr crow col values [nrows, ncols] true = .ok s)
  | csc (ccol row : List Int) (values : Values α)
      (h : sparseCsc ccol row values [nrows, ncols] = .ok s)
  | bsr (rowPtr colInd : List Int) (values : Values α) (blockSize : Int × Int)
      (h : sparseBsr rowPtr colInd values [nrows, ncols] blockSize = .ok s)

/-- A coordinate tensor with fewer values than index columns: it has empty values. -/
structure Short (indices : Indices) (s : SparseTensor α) : Prop where
  storage : s.storage = .coo indices
  coalesced : s.coalesced = false
  nnz : s.nnz = indices.columns.length
  lacking : s.values.data.length < s.nnz

omit [AddCommMonoid α] [DecidableEq α] in
theorem Accepted.valid_or_short (h : Accepted nrows ncols s) :
    Valid nrows ncols s ∨ ∃ indices, Short indices s := by
  cases h with
  | coo indices values h =>
    rcases le_or_gt indices.columns.length values.data.length with hle | hlt
    · exact .inl (valid_sparseCoo h hle)
    · obtain ⟨hof, -⟩ := sparseCoo_ok h
      exact .inr ⟨indices, hof.storage, hof.coalesced, hof.nnz, by rwa [hof.values, hof.nnz]⟩
  | csr crow col values h => exact .inl (valid_sparseCsr h)
  | csc ccol row values h => exact .inl (valid_sparseCsc h)
  | bsr rowPtr colInd values blockSize h => exact .inl (sparseBsr_ok h).2.2

omit [DecidableEq α] in
/-- Values that are missing cannot be summed. -/
theorem Short.coalesce_throws (h : Short indices s) : s.coalesce exact ≠ .ok r := by
  intro hr
  rcases coalesce_ok hr with ⟨-, hstore | hflag⟩ | ⟨_, -, hzero, -⟩ | ⟨_, _, -, -, -, hshape, -, -⟩
  · exact hstore indices h.storage
  · exact Bool.false_ne_true (h.coalesced.symm.trans hflag)
  · have := h.lacking
    omega
  · have hlt := h.lacking
    rw [s.values.length_data, hshape, prod_singleton] at hlt
    exact lt_irrefl _ hlt

inductive Conversion
  | toCoo | toCsr | toCsc | toBsr (blockSize : Int × Int) | coalesce

def Conversion.apply (num : Arithmetic) : Conversion → SparseTensor α → Except Exn (SparseTensor α)
  | toCoo, s => s.toCoo num
  | toCsr, s => s.toCsr num
  | toCsc, s => s.toCsc num
  | toBsr blockSize, s => s.toBsr num blockSize
  | coalesce, s => s.coalesce num

variable {c : Conversion}

theorem apply_sameMatrix (hs : Valid nrows ncols s) (h : c.apply exact s = .ok r) :
    SameMatrix nrows ncols s r := by
  cases c with
  | toCoo => exact (toCoo_sameMatrix hs h).1
  | toCsr => exact toCsr_sameMatrix hs h
  | toCsc => exact toCsc_sameMatrix hs h
  | toBsr blockSize => exact toBsr_sameMatrix hs h
  | coalesce => exact (coalesce_sameMatrix hs h).1

theorem Short.toCsr_throws (hs : Short indices s) : s.toCsr exact ≠ .ok r := by
  intro h
  simp only [toCsr, hs.storage, cooToCsr] at h
  split at h
  next =>
    obtain ⟨coo, hcoo, -⟩ := bind_eq_ok.mp h
    exact hs.coalesce_throws hcoo
  next => cases h

/-- A conversion that returns has left such a tensor as it was. -/
theorem Short.apply_eq (hs : Short indices s) (h : c.apply exact s = .ok r) : r = s := by
  cases c with
  | toCoo =>
    simp only [Conversion.apply, toCoo, hs.storage] at h
    exact (pure_eq_ok.mp h).symm
  | toCsr => exact absurd h hs.toCsr_throws
  | toCsc =>
    simp only [Conversion.apply, toCsc, hs.storage, cooToCsc] at h
    split at h
    next =>
      simp only [bind_eq_ok, throwIf_eq_ok] at h
      obtain ⟨_, -, _, henough, -⟩ := h
      exact absurd hs.lacking henough
    next => cases h
  | toBsr blockSize =>
    simp only [Conversion.apply, toBsr, hs.storage] at h
    obtain ⟨csr, hcsr, -⟩ := bind_eq_ok.mp h
    exact absurd hcsr hs.toCsr_throws
  | coalesce => exact absurd h hs.coalesce_throws

theorem Short.transpose_throws (hs : Short indices s) : s.transpose exact ≠ .ok t := by
  intro h
  simp only [transpose, hs.storage, transposeCoo] at h
  split at h
  next kept _ _ hstore _ =>
    obtain rfl := Storage.coo.inj hstore
    obtain ⟨swapped, hswapped, h⟩ := bind_eq_ok.mp h
    obtain ⟨hof, -⟩ := sparseCoo_ok hswapped
    refine (Short.mk hof.storage hof.coalesced hof.nnz ?_).coalesce_throws h
    have hlt := hs.lacking
    rw [hs.nnz] at hlt
    rwa [hof.values, hof.nnz, Indices.swap, length_map]
  next => cases h

end SparseTensor

end Tenzor.Sparse
