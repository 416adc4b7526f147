import Tenzor.Sparse.Invariant

/-!
# The matrix of a sparse tensor

A sparse matrix is read as the list of its entries. The dense tensor of a matrix that meets
what its constructor checks holds, at every place, the sum of the entries there, whatever the
layout is.
-/

namespace Tenzor.Sparse

open Throwing Scatter Strided List
open Prod (fst snd)

variable {α : Type} {n b : Int}

/-- The places of the elements of a block. -/
def blockPlaces (blockSize b : Int × Int) : List (Int × Int) :=
  (blockCells blockSize).map fun c => (b.1 * blockSize.1 + c.1, b.2 * blockSize.2 + c.2)

/-- The places of the values, in the order of the values. -/
def Storage.places : Storage → List (Int × Int)
  | .coo indices => indices.columns.map pairOf
  | .csr crow col => (rowsOf crow).zip col
  | .csc ccol row => row.zip (rowsOf ccol)
  | .bsr rowPtr colInd blockSize => ((rowsOf rowPtr).zip colInd).flatMap (blockPlaces blockSize)

def SparseTensor.entries (s : SparseTensor α) : List ((Int × Int) × α) :=
  s.storage.places.zip s.values.data

/-- A place in a matrix. -/
def Inside (nrows ncols : Int) (p : Int × Int) : Prop :=
  (0 ≤ p.1 ∧ p.1 < nrows) ∧ 0 ≤ p.2 ∧ p.2 < ncols

theorem within_pair {nrows ncols : Int} {column : List Int} (h : Within column [nrows, ncols]) :
    column = [(pairOf column).1, (pairOf column).2] ∧ Inside nrows ncols (pairOf column) := by
  cases h with
  | cons hr h =>
    cases h with
    | cons hc h =>
      cases h
      exact ⟨rfl, hr, hc⟩

/-! ## What a matrix keeps -/

namespace SparseTensor

variable {values : Values α} {nrows ncols : Int} {s : SparseTensor α}

/-- A coordinate matrix. -/
structure Coordinates (indices : Indices) (nrows ncols : Int) (s : SparseTensor α) : Prop where
  nnz : s.nnz = indices.columns.length
  within : ∀ c ∈ indices.columns, Within c [nrows, ncols]
  enough : s.nnz ≤ s.values.data.length
  values_shape : s.denseDim = 0 → 0 < s.nnz → s.values.shape = [s.nnz]
  sorted : s.coalesced = true → (indices.columns.map fun c => (pairOf c).1).Pairwise (· ≤ ·)

/-- A compressed matrix, in either direction; without values its pointers are not checked. -/
structure Compressed (ptr idx : List Int) (outer inner : Int) (s : SparseTensor α) : Prop where
  nnz : s.nnz = s.values.data.length
  values_shape : 0 < s.nnz → s.values.shape = [s.nnz]
  length_ptr : (ptr.length : Int) = outer + 1
  length_idx : idx.length = s.nnz
  checked : 0 < s.nnz → CheckedPointers ptr idx s.nnz inner

/-- A matrix of blocks. -/
structure Blocks (rowPtr colInd : List Int) (blockSize : Int × Int) (nrows ncols : Int)
    (s : SparseTensor α) : Prop where
  positive : 0 < blockSize.1 ∧ 0 < blockSize.2
  nnz : s.nnz = colInd.length * (blockSize.1.toNat * blockSize.2.toNat)
  length_values : s.values.data.length = s.nnz
  length_ptr : (rowPtr.length : Int) = blocksAlong nrows blockSize.1 + 1
  checked : 0 < colInd.length →
    CheckedPointers rowPtr colInd colInd.length (blocksAlong ncols blockSize.2)

/-- What the conversions rely on, and keep. -/
def Valid (nrows ncols : Int) (s : SparseTensor α) : Prop :=
  s.shape = [nrows, ncols] ∧
    match s.storage with
    | .coo indices => Coordinates indices nrows ncols s
    | .csr crow col => Compressed crow col nrows ncols s
    | .csc ccol row => Compressed ccol row ncols nrows s
    | .bsr rowPtr colInd blockSize => Blocks rowPtr colInd blockSize nrows ncols s

theorem valid_sparseCoo {indices : Indices}
    (h : sparseCoo indices values [nrows, ncols] true = .ok s)
    (henough : indices.columns.length ≤ values.data.length) : Valid nrows ncols s := by
  obtain ⟨hof, hcheck⟩ := sparseCoo_ok h
  have hnone := hcheck rfl
  refine ⟨hof.shape, ?_⟩
  rw [hof.storage]
  refine ⟨hof.nnz, fun c hc => ?_, ?_, fun hdense hpos => ?_, fun hflag => ?_⟩
  · have hlen := indices.length_column c hc
    rw [within_iff_getD, hlen, hof.sparseDim]
    refine ⟨rfl, fun d hd => ?_⟩
    have hfind := findSome?_eq_none_iff.mp hnone d
      (mem_range.mpr (by rwa [hof.sparseDim]))
    rw [Option.map_eq_none_iff] at hfind
    simpa [inBounds] using find?_eq_none.mp hfind c hc
  · rw [hof.nnz, hof.values]
    exact henough
  · rw [hof.nnz] at hpos
    have hne : values.data ≠ [] := ne_nil_of_length_pos (by omega)
    have hhead := hof.length_values hne
    rw [hof.denseDim] at hdense
    rw [hof.values, hof.nnz]
    cases hshape : values.shape with
    | nil =>
      rw [hshape] at hhead
      cases hhead
    | cons n shape =>
      rw [hshape, length_cons] at hdense
      rw [hshape] at hhead
      rw [Option.some.inj hhead, length_eq_zero_iff.mp hdense]
  · exact absurd (hof.coalesced.symm.trans hflag) Bool.false_ne_true

/-- Values along one axis. -/
theorem shape_of_length_eq_one (h : values.shape.length = 1) :
    values.shape = [values.data.length] := by
  obtain ⟨n, hn⟩ := length_eq_one_iff.mp h
  rw [values.length_data, hn, prod_singleton]

theorem Compressed.of {store : Storage} {ptr idx : List Int} {vals : Values α} {dims : List Int}
    {outer inner : Int} (h : CompressedOf store ptr idx vals dims outer s)
    (hcheck : 0 < s.nnz → CheckedPointers ptr idx s.nnz inner) :
    Compressed ptr idx outer inner s := by
  refine ⟨by rw [h.nnz, h.values], fun hpos => ?_, h.length_ptr, by rw [h.nnz, h.length_idx],
    hcheck⟩
  rw [h.nnz] at hpos ⊢
  rw [h.values]
  exact shape_of_length_eq_one (h.values_shape (ne_nil_of_length_pos hpos))

theorem valid_sparseCsr {crow col : List Int}
    (h : sparseCsr crow col values [nrows, ncols] true = .ok s) : Valid nrows ncols s := by
  obtain ⟨_, _, hdims, hof, hcheck⟩ := sparseCsr_ok h
  obtain ⟨rfl, rfl⟩ : nrows = _ ∧ ncols = _ := by simpa using hdims
  refine ⟨hof.shape, ?_⟩
  rw [hof.storage]
  exact Compressed.of hof fun _ => hcheck rfl

theorem valid_sparseCsc {ccol row : List Int}
    (h : sparseCsc ccol row values [nrows, ncols] = .ok s) :
    Valid nrows ncols s := by
  obtain ⟨_, _, hdims, hof, hcheck⟩ := sparseCsc_ok h
  obtain ⟨rfl, rfl⟩ : nrows = _ ∧ ncols = _ := by simpa using hdims
  refine ⟨hof.shape, ?_⟩
  rw [hof.storage]
  exact Compressed.of hof hcheck

/-- A block tensor as it is made. -/
theorem sparseBsr_ok {rowPtr colInd : List Int} {blockSize : Int × Int}
    (h : sparseBsr rowPtr colInd values [nrows, ncols] blockSize = .ok s) :
    s.storage = .bsr rowPtr colInd blockSize ∧ s.values = values ∧ Valid nrows ncols s := by
  simp only [sparseBsr, bind_eq_ok, throwIf_eq_ok, not_not, not_or, checkIf_eq_ok,
    pure_eq_ok, decide_eq_true_eq, not_le] at h
  obtain ⟨-, ⟨hbh, hbw⟩, -, hptr, -, ⟨hdims, hrows, hcols⟩, -, hblocks, -, hcheck, rfl⟩ := h
  refine ⟨rfl, rfl, rfl, ⟨hbh, hbw⟩, (Nat.mul_assoc _ _ _), ?_, hptr, fun hpos => ?_⟩
  · obtain ⟨n, bh, bw, hshape⟩ := length_eq_three.mp hdims
    rw [hshape] at hrows hcols hblocks
    simp only [getD_cons_zero, getD_cons_succ] at hrows hcols hblocks
    simp only [values.length_data, hshape, prod_cons, prod_nil, Nat.mul_one, hblocks,
      ← hrows, ← hcols, Int.toNat_natCast, Nat.mul_assoc]
  · have h := hcheck hpos
    simp only [checkBsr, bind_eq_ok, throwIf_eq_ok, not_or, not_not, Bool.not_eq_false,
      not_exists, not_and] at h
    obtain ⟨-, ⟨hfirst, hlast⟩, -, hmono, hbounds⟩ := h
    exact ⟨⟨nonDecreasing_eq_true hmono, hfirst, hlast⟩, hbounds⟩

end SparseTensor

theorem pos_of_blocksAlong_pos (hb : 0 < b) (h : 0 < blocksAlong n b) : 0 < n := by
  by_contra hn
  have hlt : n + b - 1 < b := by omega
  rcases le_or_gt 0 (n + b - 1) with h0 | h0
  · rw [blocksAlong, Int.tdiv_eq_zero_of_lt h0 hlt] at h
    exact lt_irrefl 0 h
  · have hneg : 0 ≤ (-(n + b - 1)).tdiv b := Int.tdiv_nonneg (by omega) hb.le
    rw [Int.neg_tdiv, ← blocksAlong] at hneg
    omega

theorem blocksAlong_eq (hb : 0 < b) (hn : 0 < n) : blocksAlong n b = (n + b - 1) / b :=
  Int.tdiv_eq_ediv_of_nonneg (by omega)

theorem nonneg_blockPlaces {blockSize b p : Int × Int} (hsize : 0 < blockSize.1 ∧ 0 < blockSize.2)
    (hb : 0 ≤ b.1 ∧ 0 ≤ b.2) (hp : p ∈ blockPlaces blockSize b) : 0 ≤ p.1 ∧ 0 ≤ p.2 := by
  obtain ⟨c, hc, rfl⟩ := mem_map.mp hp
  obtain ⟨i, hi, hc⟩ := mem_flatMap.mp hc
  obtain ⟨j, hj, rfl⟩ := mem_map.mp hc
  exact ⟨add_nonneg (mul_nonneg hb.1 hsize.1.le) (mem_upTo.mp hi).1,
    add_nonneg (mul_nonneg hb.2 hsize.2.le) (mem_upTo.mp hj).1⟩

/-! ## Dense matrices -/

section Matrix

variable {nrows ncols : Int} {p : Int × Int} {k : Int} {dtype : DType} {out : List α}
  {e : (Int × Int) × α} {es : List ((Int × Int) × α)}

theorem flat_bounds (h : Inside nrows ncols p) :
    0 ≤ p.1 * ncols + p.2 ∧ p.1 * ncols + p.2 < nrows * ncols := by
  obtain ⟨⟨hr0, hr⟩, hc0, hc⟩ := h
  have hncols : 0 ≤ ncols := by omega
  constructor
  · exact add_nonneg (mul_nonneg hr0 hncols) hc0
  · calc
      p.1 * ncols + p.2 < p.1 * ncols + ncols := by omega
      _ = (p.1 + 1) * ncols := by ring
      _ ≤ nrows * ncols := mul_le_mul_of_nonneg_right hr hncols

/-- A number is told by its quotient and its remainder. -/
theorem mul_add_eq_iff {q i size x : Int} (h : 0 ≤ i ∧ i < size) :
    q * size + i = x ↔ q = x / size ∧ i = x % size := by
  constructor
  · rintro rfl
    rw [add_comm, Int.add_mul_ediv_right _ _ (by omega), Int.add_mul_emod_self_right,
      Int.ediv_eq_zero_of_lt h.1 h.2, Int.emod_eq_of_lt h.1 h.2, zero_add]
    exact ⟨rfl, rfl⟩
  · rintro ⟨rfl, rfl⟩
    exact Int.ediv_mul_add_emod x size

/-- The place of an element is told by its number. -/
theorem flat_eq_iff (h : Inside nrows ncols p) :
    p.1 * ncols + p.2 = k ↔ p = (k / ncols, k % ncols) := by
  rw [mul_add_eq_iff h.2, Prod.ext_iff]

theorem inside_of_lt (hncols : 0 ≤ ncols) (h0 : 0 ≤ k) (h : k < nrows * ncols) :
    Inside nrows ncols (k / ncols, k % ncols) := by
  have hpos : 0 < ncols := by
    rcases hncols.eq_or_lt with hzero | hpos
    · rw [← hzero] at h
      omega
    · exact hpos
  exact ⟨⟨Int.ediv_nonneg h0 hncols, Int.ediv_lt_of_lt_mul hpos h⟩,
    Int.emod_nonneg k (by omega), Int.emod_lt_of_pos k hpos⟩

variable [AddCommMonoid α]

theorem zeros_eq_ok {shape : List Int} (h : zeros shape dtype = .ok out) :
    (∀ n ∈ shape, 0 ≤ n) ∧ out = List.replicate shape.prod.toNat 0 := by
  simp only [zeros, bind_eq_ok, throwIf_eq_ok, pure_eq_ok, not_exists, not_and, not_lt] at h
  obtain ⟨-, hnn, -, -, rfl⟩ := h
  exact ⟨hnn, rfl⟩

/-- The dense matrix of a function of the place. -/
def tabulate (nrows ncols : Int) (dtype : DType) (f : Int × Int → α) : Except Exn (List α) := do
  let result : List α ← zeros [nrows, ncols] dtype
  pure ((List.range result.length).map fun k : ℕ => f (k / ncols, k % ncols))

/-- Only the places in the matrix count. -/
theorem tabulate_congr {f g : Int × Int → α} (h : ∀ p, Inside nrows ncols p → f p = g p) :
    tabulate nrows ncols dtype f = tabulate nrows ncols dtype g := by
  unfold tabulate
  cases hz : (zeros [nrows, ncols] dtype : Except Exn (List α)) with
  | error e => rfl
  | ok out =>
    obtain ⟨hnn, rfl⟩ := zeros_eq_ok hz
    refine congrArg Except.ok (map_congr_left fun k hk => h _ (inside_of_lt ?_ ?_ ?_))
    · exact hnn ncols (by simp)
    · exact Int.natCast_nonneg k
    · have hlt := mem_range.mp hk
      rw [length_replicate, prod_cons, prod_singleton] at hlt
      omega

/-- The number and the value of an entry; one outside the matrix goes to place zero as a zero. -/
def masked (nrows ncols : Int) (e : (Int × Int) × α) : Int × α :=
  if e.1.1 < nrows ∧ e.1.2 < ncols then (e.1.1 * ncols + e.1.2, e.2) else (0, 0)

theorem masked_of_inside (h : Inside nrows ncols e.1) :
    masked nrows ncols e = (e.1.1 * ncols + e.1.2, e.2) := if_pos ⟨h.1.2, h.2.2⟩

theorem masked_bounds (hrows : 0 < nrows) (hcols : 0 < ncols) (h : 0 ≤ e.1.1 ∧ 0 ≤ e.1.2) :
    0 ≤ (masked nrows ncols e).1 ∧ (masked nrows ncols e).1 < nrows * ncols := by
  unfold masked
  split
  next hin => exact flat_bounds ⟨⟨h.1, hin.1⟩, h.2, hin.2⟩
  next => exact ⟨le_rfl, mul_pos hrows hcols⟩

/-- What the masked entries leave at a place is the sum of the entries there. -/
theorem sumAt_masked (hcols : 0 < ncols) (h : ∀ e ∈ es, 0 ≤ e.1.1 ∧ 0 ≤ e.1.2) {k : ℕ}
    (hk : (k : Int) < nrows * ncols) :
    sumAt k (es.map fun e => ((masked nrows ncols e).1.toNat, (masked nrows ncols e).2)) =
      sumAt ((k : Int) / ncols, (k : Int) % ncols) es := by
  have hplace := inside_of_lt hcols.le (Int.natCast_nonneg k) hk
  induction es with
  | nil => rfl
  | cons e es ih =>
    obtain ⟨he, hes⟩ := forall_mem_cons.mp h
    rw [map_cons, sumAt, sumAt, ih hes]
    by_cases hin : e.1.1 < nrows ∧ e.1.2 < ncols
    · have hinside : Inside nrows ncols e.1 := ⟨⟨he.1, hin.1⟩, he.2, hin.2⟩
      have hb := flat_bounds hinside
      have hiff : (e.1.1 * ncols + e.1.2).toNat = k ↔
          e.1 = ((k : Int) / ncols, (k : Int) % ncols) := by
        rw [← flat_eq_iff hinside]
        omega
      simp only [masked_of_inside hinside, hiff]
    · have hne : e.1 ≠ ((k : Int) / ncols, (k : Int) % ncols) := by
        intro heq
        rw [heq] at hin
        exact hin ⟨hplace.1.2, hplace.2.2⟩
      rw [masked, if_neg hin, if_neg hne, ite_self]

theorem scatterValues_eq {es : List (Int × α)} (h : ∀ e ∈ es, 0 ≤ e.1 ∧ e.1 < out.length) :
    scatterValues out (es.map fst) (es.map snd) =
      .ok (scatterAdd out (es.map fun e => (e.1.toNat, e.2))) := by
  have hpos : (es.map fst).mapM (position out.length) =
      .ok ((es.map fst).map Int.toNat) := by
    refine mapM_eq_map fun i hi => ?_
    obtain ⟨e, he, rfl⟩ := mem_map.mp hi
    obtain ⟨h0, hlt⟩ := h e he
    simp only [position, if_neg (not_lt.mpr h0), inBounds, h0, hlt, and_self, decide_true, if_pos]
  rw [scatterValues, throwIf, if_neg (by simp), hpos]
  change Except.ok (scatterAdd out (((es.map fst).map Int.toNat).zip (es.map snd))) = _
  rw [map_map, zip_map']
  rfl

/-- Scattering the entries of a matrix leaves the sum of the entries at every place. -/
theorem scatterAdd_masked (hcols : 0 < ncols) (h : ∀ e ∈ es, 0 ≤ e.1.1 ∧ 0 ≤ e.1.2) :
    scatterAdd (List.replicate (nrows * ncols).toNat 0)
      (es.map fun e => ((masked nrows ncols e).1.toNat, (masked nrows ncols e).2)) =
      (List.range (nrows * ncols).toNat).map fun k : ℕ => sumAt ((k : Int) / ncols, k % ncols) es := by
  refine ext_getElem (by simp) fun k hk _ => ?_
  have hk' : k < (List.replicate (nrows * ncols).toNat (0 : α)).length := by
    rwa [length_scatterAdd] at hk
  rw [← getD_eq_getElem _ 0 hk, getD_scatterAdd _ hk', getD_eq_getElem _ _ hk',
    getElem_replicate, zero_add, getElem_map, getElem_range]
  rw [length_replicate] at hk'
  exact sumAt_masked hcols h (by omega)

theorem scatter_masked (hrows : 0 < nrows) (hcols : 0 < ncols) {dtype : DType}
    {es : List ((Int × Int) × α)} (h : ∀ e ∈ es, 0 ≤ e.1.1 ∧ 0 ≤ e.1.2) :
    (zeros [nrows * ncols] dtype >>= fun result =>
      scatterValues result ((es.map (masked nrows ncols)).map fst)
        ((es.map (masked nrows ncols)).map snd)) =
      tabulate nrows ncols dtype fun p => sumAt p es := by
  have hpos : 0 < nrows * ncols := mul_pos hrows hcols
  have hzeros : (zeros [nrows * ncols] dtype : Except Exn (List α)) = zeros [nrows, ncols] dtype := by
    simp [zeros, not_lt.mpr hrows.le, not_lt.mpr hcols.le, not_lt.mpr hpos.le]
  unfold tabulate
  rw [hzeros]
  cases hz : (zeros [nrows, ncols] dtype : Except Exn (List α)) with
  | error e => rfl
  | ok out =>
    obtain ⟨-, rfl⟩ := zeros_eq_ok hz
    rw [prod_cons, prod_singleton]
    change scatterValues (List.replicate (nrows * ncols).toNat 0) _ _ = Except.ok _
    rw [scatterValues_eq, map_map]
    · rw [length_replicate]
      exact congrArg Except.ok (scatterAdd_masked hcols h)
    · intro e he
      obtain ⟨old, hold, rfl⟩ := mem_map.mp he
      have hb := masked_bounds hrows hcols (h old hold)
      rw [length_replicate]
      omega

theorem map_masked {places : List (Int × Int)} {data : List α} (hlen : places.length = data.length)
    (h : ∀ p ∈ places, Inside nrows ncols p) :
    ((places.zip data).map (masked nrows ncols)).map fst = places.map (exact.flat ncols) ∧
      ((places.zip data).map (masked nrows ncols)).map snd = data := by
  have hin : (places.zip data).map (masked nrows ncols) =
      (places.zip data).map fun e => (exact.flat ncols e.1, e.2) :=
    map_congr_left fun e he => masked_of_inside (h _ (of_mem_zip he).1)
  rw [hin, map_map, map_map]
  constructor
  · exact (map_map (f := fst) (g := exact.flat ncols)).symm.trans
      (congrArg _ (map_fst_zip hlen.le))
  · exact map_snd_zip hlen.ge

end Matrix

namespace SparseTensor

variable [AddCommMonoid α] {nrows ncols : Int} {s : SparseTensor α} {outer : Int}
  {ptr rowPtr colInd crow col : List Int} {blockSize : Int × Int}

/-- The dense matrix of the sums of the entries. -/
def matrix (nrows ncols : Int) (s : SparseTensor α) : Except Exn (List α) :=
  tabulate nrows ncols s.values.dtype fun p => sumAt p s.entries

theorem scatterFlat_eq {places : List (Int × Int)} (hpos : 0 < s.nnz)
    (hshape : s.values.shape = [s.nnz]) (hlen : places.length = s.nnz)
    (h : ∀ p ∈ places, Inside nrows ncols p) :
    s.scatterFlat exact nrows ncols places =
      tabulate nrows ncols s.values.dtype fun p => sumAt p (places.zip s.values.data) := by
  have hdata : s.values.data.length = s.nnz := by
    rw [s.values.length_data, hshape, prod_singleton]
  obtain ⟨hfst, hsnd⟩ := map_masked (hlen.trans hdata.symm) h
  obtain ⟨q, hq⟩ := exists_mem_of_length_pos (hlen ▸ hpos)
  obtain ⟨⟨hr0, hr⟩, hc0, hc⟩ := h q hq
  have hscatter := @scatter_masked α nrows ncols _ (hr0.trans_lt hr) (hc0.trans_lt hc)
    s.values.dtype (places.zip s.values.data) fun e he =>
      ⟨(h _ (of_mem_zip he).1).1.1, (h _ (of_mem_zip he).1).2.1⟩
  rw [hfst, hsnd] at hscatter
  rw [scatterFlat, throwIf, throwIf, if_neg (not_not.mpr hlen), if_neg (by simp [hshape])]
  exact hscatter

omit [AddCommMonoid α] in
theorem expand_eq {n : ℕ} (hlen : (ptr.length : Int) = outer + 1) (hptr : ValidPointers ptr n) :
    expand outer ptr = .ok (rowsOf ptr) := by
  have hcount : (lens ptr).length = outer.toNat := by
    rw [length_lens]
    omega
  simp only [expand, bind_eq_ok, throwIf_eq_ok, pure_eq_ok, not_not, not_exists, not_and, not_lt]
  exact ⟨(), hcount, (), lens_nonneg hptr.nonDecreasing, by rw [rowsOf, hcount]⟩

omit [AddCommMonoid α] in
theorem eq_rowsOf_of_expand {rows : List Int} (h : expand outer ptr = .ok rows) :
    rows = rowsOf ptr := by
  simp only [expand, bind_eq_ok, throwIf_eq_ok, not_not, pure_eq_ok] at h
  obtain ⟨_, hcount, _, _, rfl⟩ := h
  rw [rowsOf, hcount]

omit [AddCommMonoid α] in
/-- Checked pointers are expanded, and the coordinates that they and the indices give lie inside. -/
theorem inside_of_checked {idx : List Int} {n : ℕ} {inner : Int}
    (h : CheckedPointers ptr idx n inner) (hlen : (ptr.length : Int) = outer + 1) :
    expand outer ptr = .ok (rowsOf ptr) ∧ (rowsOf ptr).length = n ∧
      (∀ i ∈ rowsOf ptr, 0 ≤ i ∧ i < outer) ∧ ∀ j ∈ idx, 0 ≤ j ∧ j < inner := by
  obtain ⟨hptr, hidx⟩ := h
  refine ⟨expand_eq hlen hptr, length_rowsOf hptr, fun r hr => ?_,
    fun c hc => of_decide_eq_true (hidx c hc)⟩
  have hrow := mem_rowsOf hr
  omega

omit [AddCommMonoid α] in
theorem entries_eq_nil (h : Valid nrows ncols s) (hzero : s.nnz = 0) : s.entries = [] := by
  obtain ⟨-, h⟩ := h
  refine length_eq_zero_iff.mp ?_
  rw [entries, length_zip]
  revert h
  cases hstore : s.storage with
  | coo indices =>
    intro h
    rw [Storage.places, length_map, ← h.nnz, hzero, Nat.zero_min]
  | csr crow col =>
    intro h
    rw [← h.nnz, hzero, Nat.min_zero]
  | csc ccol row =>
    intro h
    rw [← h.nnz, hzero, Nat.min_zero]
  | bsr rowPtr colInd blockSize =>
    intro h
    rw [h.length_values, hzero, Nat.min_zero]

theorem Coordinates.toDense_eq {indices : Indices} (h : Coordinates indices nrows ncols s)
    (hstore : s.storage = .coo indices) (hshape : s.shape = [nrows, ncols]) (hpos : 0 < s.nnz) :
    s.toDense exact = s.matrix nrows ncols := by
  have hplaces : ∀ p ∈ indices.columns.map pairOf, Inside nrows ncols p := fun p hp => by
    obtain ⟨c, hc, rfl⟩ := mem_map.mp hp
    exact (within_pair (h.within c hc)).2
  rw [toDense, if_neg hpos.ne', hshape, matrix, entries, hstore]
  by_cases hdense : s.denseDim = 0
  · have hkeys : indices.columns.map (exact.key (exact.strides [nrows, ncols])) =
        (Storage.coo indices).places.map (exact.flat ncols) := by
      rw [Storage.places, map_map]
      refine map_congr_left fun c hc => ?_
      rw [Arithmetic.key_eq_dot (Arithmetic.exactUpTo_exact _) (h.within c hc),
        (within_pair (h.within c hc)).1]
      simp [rowMajor, Arithmetic.flat, exact, pairOf]
    have hnumel : exact.word ((exact.strides [nrows, ncols]).headD 1 *
        ([nrows, ncols] : List Int).headD 1) = exact.word (nrows * ncols) := by
      simp [Arithmetic.strides, exact, mul_comm]
    have hcount : (Storage.coo indices).places.length = s.nnz := by
      rw [Storage.places, length_map, h.nnz]
    have haxes : ¬ s.values.shape.length ≠ 1 := by
      rw [h.values_shape hdense hpos, length_singleton, not_not]
    rw [← scatterFlat_eq hpos (h.values_shape hdense hpos) hcount hplaces]
    simp only [hkeys, hnumel, hdense, if_true, scatterFlat]
    rw [throwIf_of_not (not_not.mpr hcount), throwIf_of_not (cons_ne_nil _ _)]
  · have henough : ¬ s.values.data.length < s.nnz := not_lt.mpr h.enough
    have hfilter : ((indices.columns.map pairOf).zip s.values.data).filter
        (fun e => inBounds e.1.1 nrows && inBounds e.1.2 ncols) =
        (indices.columns.map pairOf).zip s.values.data := by
      refine filter_eq_self.mpr fun e he => ?_
      have hin := hplaces _ (of_mem_zip he).1
      rw [Bool.and_eq_true]
      exact ⟨decide_eq_true hin.1, decide_eq_true hin.2⟩
    have hmasked : ((indices.columns.map pairOf).zip s.values.data).map
        (fun e => ((e.1.1 * ncols + e.1.2).toNat, e.2)) =
        ((indices.columns.map pairOf).zip s.values.data).map
          fun e => ((masked nrows ncols e).1.toNat, (masked nrows ncols e).2) :=
      map_congr_left fun e he => by
        rw [masked_of_inside (hplaces _ (of_mem_zip he).1)]
    obtain ⟨q, hq⟩ := exists_mem_of_length_pos (h.nnz ▸ hpos)
    obtain ⟨-, hc0, hc⟩ := (within_pair (h.within q hq)).2
    simp only [hdense, if_false, hfilter, hmasked, throwIf_of_not henough, Storage.places,
      throwIf_of_not (cons_ne_nil nrows [ncols]), tabulate]
    cases hz : (zeros [nrows, ncols] s.values.dtype : Except Exn (List α)) with
    | error e => rfl
    | ok out =>
      obtain ⟨-, rfl⟩ := zeros_eq_ok hz
      refine congrArg Except.ok ?_
      rw [length_replicate, prod_cons, prod_singleton]
      exact scatterAdd_masked (hc0.trans_lt hc) fun e he =>
        ⟨(hplaces _ (of_mem_zip he).1).1.1, (hplaces _ (of_mem_zip he).1).2.1⟩

theorem Compressed.toDense_csr (h : Compressed crow col nrows ncols s)
    (hstore : s.storage = .csr crow col) (hshape : s.shape = [nrows, ncols]) (hpos : 0 < s.nnz) :
    s.toDense exact = s.matrix nrows ncols := by
  obtain ⟨hexpand, hlen, hrows, hcols⟩ := inside_of_checked (h.checked hpos) h.length_ptr
  have hplaces : ∀ p ∈ (rowsOf crow).zip col, Inside nrows ncols p := fun p hp =>
    ⟨hrows _ (of_mem_zip hp).1, hcols _ (of_mem_zip hp).2⟩
  have hcount : ((rowsOf crow).zip col).length = s.nnz := by
    rw [length_zip, hlen, h.length_idx, Nat.min_self]
  have hsame : ¬ col.length ≠ (rowsOf crow).length := not_not.mpr (h.length_idx.trans hlen.symm)
  rw [toDense, if_neg hpos.ne', hshape, matrix, entries, hstore]
  simp only [hexpand, Storage.places]
  rw [← scatterFlat_eq hpos (h.values_shape hpos) hcount hplaces]
  change (throwIf (col.length ≠ (rowsOf crow).length) _ >>= fun _ => _) = _
  rw [throwIf_of_not hsame]
  rfl

theorem Compressed.toDense_csc {ccol row : List Int} (h : Compressed ccol row ncols nrows s)
    (hstore : s.storage = .csc ccol row) (hshape : s.shape = [nrows, ncols]) (hpos : 0 < s.nnz) :
    s.toDense exact = s.matrix nrows ncols := by
  obtain ⟨hexpand, hlen, hcols, hrows⟩ := inside_of_checked (h.checked hpos) h.length_ptr
  have hplaces : ∀ p ∈ row.zip (rowsOf ccol), Inside nrows ncols p := fun p hp =>
    ⟨hrows _ (of_mem_zip hp).1, hcols _ (of_mem_zip hp).2⟩
  have hcount : (row.zip (rowsOf ccol)).length = s.nnz := by
    rw [length_zip, hlen, h.length_idx, Nat.min_self]
  have hsame : ¬ row.length ≠ (rowsOf ccol).length := not_not.mpr (h.length_idx.trans hlen.symm)
  rw [toDense, if_neg hpos.ne', hshape, matrix, entries, hstore]
  simp only [hexpand, Storage.places]
  rw [← scatterFlat_eq hpos (h.values_shape hpos) hcount hplaces]
  change (throwIf (row.length ≠ (rowsOf ccol).length) _ >>= fun _ => _) = _
  rw [throwIf_of_not hsame]
  rfl

theorem Blocks.toDense_eq (h : Blocks rowPtr colInd blockSize nrows ncols s)
    (hstore : s.storage = .bsr rowPtr colInd blockSize) (hshape : s.shape = [nrows, ncols])
    (hpos : 0 < s.nnz) : s.toDense exact = s.matrix nrows ncols := by
  have hblocks : 0 < colInd.length := by
    rw [h.nnz] at hpos
    exact Nat.pos_of_mul_pos_right hpos
  obtain ⟨hexpand, hlen, hrows, hcols⟩ := inside_of_checked (h.checked hblocks) h.length_ptr
  have hplaces : ∀ e ∈ s.entries, 0 ≤ e.1.1 ∧ 0 ≤ e.1.2 := by
    intro e he
    rw [entries, hstore] at he
    obtain ⟨b, hb, hp⟩ := mem_flatMap.mp (of_mem_zip he).1
    exact nonneg_blockPlaces h.positive
      ⟨(hrows _ (of_mem_zip hb).1).1, (hcols _ (of_mem_zip hb).2).1⟩ hp
  have hnrows : 0 < nrows := by
    obtain ⟨r, hr⟩ := exists_mem_of_length_pos (hlen ▸ hblocks)
    exact pos_of_blocksAlong_pos h.positive.1 ((hrows r hr).1.trans_lt (hrows r hr).2)
  have hncols : 0 < ncols := by
    obtain ⟨c, hc⟩ := exists_mem_of_length_pos hblocks
    exact pos_of_blocksAlong_pos h.positive.2 ((hcols c hc).1.trans_lt (hcols c hc).2)
  have hmasked : blockEntries exact nrows ncols blockSize ((rowsOf rowPtr).zip colInd)
      s.values.data = s.entries.map (masked nrows ncols) := by
    rw [entries, hstore]
    rfl
  rw [toDense, if_neg hpos.ne', hstore, hshape, matrix, ← scatter_masked hnrows hncols hplaces,
    ← hmasked]
  simp only [hexpand]
  change (throwIf ((rowsOf rowPtr).length < colInd.length) _ >>= fun _ => _) = _
  rw [throwIf_of_not hlen.ge.not_gt]
  rfl

/-- Every layout has the dense matrix of the sums of its entries. -/
theorem toDense_eq (h : Valid nrows ncols s) : s.toDense exact = s.matrix nrows ncols := by
  by_cases hzero : s.nnz = 0
  · rw [toDense, if_pos hzero, h.1, matrix, entries_eq_nil h hzero, tabulate]
    cases hz : (zeros [nrows, ncols] s.values.dtype : Except Exn (List α)) with
    | error e => rfl
    | ok out =>
      obtain ⟨-, rfl⟩ := zeros_eq_ok hz
      refine congrArg Except.ok (eq_replicate_iff.mpr ⟨?_, ?_⟩).symm
      · rw [length_map, length_range, length_replicate]
      · intro a ha
        obtain ⟨k, -, rfl⟩ := mem_map.mp ha
        rfl
  · obtain ⟨hshape, h⟩ := h
    have hpos := Nat.pos_of_ne_zero hzero
    revert h
    cases hstore : s.storage with
    | coo indices => exact fun h => h.toDense_eq hstore hshape hpos
    | csr crow col => exact fun h => h.toDense_csr hstore hshape hpos
    | csc ccol row => exact fun h => h.toDense_csc hstore hshape hpos
    | bsr rowPtr colInd blockSize => exact fun h => h.toDense_eq hstore hshape hpos

/-- The elements of the dense tensor are the sums of the entries. -/
theorem toDense_ok (hs : Valid nrows ncols s) {dense : List α} (h : s.toDense exact = .ok dense) :
    (0 ≤ nrows ∧ 0 ≤ ncols) ∧ (dense.length : Int) = nrows * ncols ∧
      ∀ p, Inside nrows ncols p → dense.getD (p.1 * ncols + p.2).toNat 0 = sumAt p s.entries := by
  rw [toDense_eq hs, matrix, tabulate, bind_eq_ok] at h
  obtain ⟨zero, hz, h⟩ := h
  obtain ⟨hnn, rfl⟩ := zeros_eq_ok hz
  obtain rfl := pure_eq_ok.mp h
  rw [length_replicate, prod_cons, prod_singleton]
  have hdims : 0 ≤ nrows ∧ 0 ≤ ncols := by simpa using hnn
  refine ⟨hdims, ?_, fun p hp => ?_⟩
  · rw [length_map, length_range, Int.toNat_of_nonneg (mul_nonneg hdims.1 hdims.2)]
  · have hb := flat_bounds hp
    have hplace := (flat_eq_iff hp).mp (Int.toNat_of_nonneg hb.1).symm
    rw [getD_eq_getElem _ _ (by simp; omega), getElem_map, getElem_range, ← hplace]

omit [AddCommMonoid α] in
theorem Compressed.entries_inside (h : Compressed crow col nrows ncols s)
    (hstore : s.storage = .csr crow col) : ∀ e ∈ s.entries, Inside nrows ncols e.1 := by
  intro e he
  rw [entries, hstore] at he
  obtain ⟨hplace, hvalue⟩ := of_mem_zip he
  obtain ⟨-, -, hrows, hcols⟩ :=
    inside_of_checked (h.checked (h.nnz ▸ length_pos_of_mem hvalue)) h.length_ptr
  exact ⟨hrows _ (of_mem_zip hplace).1, hcols _ (of_mem_zip hplace).2⟩

end SparseTensor

end Tenzor.Sparse
