import Tenzor.Sparse.Conversions

/-!
# What the fields of a sparse tensor promise

A coordinate tensor that is marked as coalesced has distinct index columns in lexicographic
order, and a compressed tensor has pointers from zero to the number of its entries. Every run
of the constructors and the operations keeps this as long as no call hands over pointers that
are not checked, marks unsorted rows, or sorts by keys that do not follow the columns.
-/

namespace Tenzor.Sparse

open Throwing Scatter Strided List

variable {α : Type} {values : Values α} {shape : List Int} {validate : Bool} {s : SparseTensor α}

namespace SparseTensor

/-- What a tensor of the run promises; the run makes no block tensors. -/
def Represents (s : SparseTensor α) : Prop :=
  match s.storage with
  | .coo indices => s.nnz = indices.columns.length ∧
      (s.coalesced = true → indices.columns.Nodup ∧ indices.columns.Pairwise (· < ·))
  | .csr crow _ => ValidPointers crow s.nnz
  | .csc ccol _ => ValidPointers ccol s.nnz
  | .bsr _ _ _ => False

theorem Represents.coo {s : SparseTensor α} {indices : Indices} (h : s.storage = .coo indices)
    (hnnz : s.nnz = indices.columns.length)
    (hsorted : s.coalesced = true → indices.columns.Pairwise (· < ·)) : s.Represents := by
  unfold Represents
  rw [h]
  exact ⟨hnnz, fun hc => ⟨(hsorted hc).imp fun hlt => ne_of_lt hlt, hsorted hc⟩⟩

end SparseTensor

theorem nonDecreasing_eq_true {ptr : List Int} (h : nonDecreasing ptr = true) :
    ptr.Pairwise (· ≤ ·) := by
  have hchain : ptr.IsChain (· ≤ ·) := by
    induction ptr using nonDecreasing.induct with
    | case1 a b ptr ih =>
      rw [nonDecreasing, Bool.and_eq_true, decide_eq_true_eq] at h
      exact isChain_cons_cons.mpr ⟨h.1, ih h.2⟩
    | case2 ptr hshort =>
      cases ptr with
      | nil => exact IsChain.nil
      | cons a ptr =>
        cases ptr with
        | nil => exact List.IsChain.singleton a
        | cons b ptr => exact absurd rfl (hshort a b ptr)
  exact isChain_iff_pairwise.mp hchain

theorem checkIf_eq_ok {c : Bool} {check : Except Exn Unit} {u : Unit} :
    checkIf c check = .ok u ↔ (c = true → check = .ok ()) := by
  cases c with
  | false => simp [checkIf]
  | true => simp [checkIf]

/-- A coordinate tensor as it is made. -/
structure CooOf (indices : Indices) (vals : Values α) (dims : List Int) (s : SparseTensor α) :
    Prop where
  storage : s.storage = .coo indices
  shape : s.shape = dims
  values : s.values = vals
  nnz : s.nnz = indices.columns.length
  denseDim : s.denseDim = vals.shape.length - 1
  coalesced : s.coalesced = false
  sparseDim : indices.sparseDim = dims.length
  length_values : vals.data ≠ [] → vals.shape.head? = some indices.columns.length

theorem sparseCoo_ok {indices : Indices} (h : sparseCoo indices values shape validate = .ok s) :
    CooOf indices values shape s ∧ (validate = true → indices.firstOutside shape = none) := by
  simp only [sparseCoo, bind_eq_ok, throwIf_eq_ok, not_and, not_not, checkIf_eq_ok,
    pure_eq_ok] at h
  obtain ⟨-, hdim, -, hvalues, -, hcheck, rfl⟩ := h
  refine ⟨⟨rfl, rfl, rfl, rfl, rfl, rfl, hdim, hvalues⟩, fun hv => ?_⟩
  have h := hcheck hv
  cases hout : indices.firstOutside shape with
  | none => rfl
  | some e =>
    rw [checkIndices, hout] at h
    cases h

/-- A compressed tensor as it is made, in either direction. -/
structure CompressedOf (store : Storage) (ptr idx : List Int) (vals : Values α) (dims : List Int)
    (outer : Int) (s : SparseTensor α) : Prop where
  storage : s.storage = store
  shape : s.shape = dims
  values : s.values = vals
  nnz : s.nnz = vals.data.length
  length_ptr : (ptr.length : Int) = outer + 1
  length_idx : idx.length = vals.data.length
  values_shape : vals.data ≠ [] → vals.shape.length = 1

/-- What the constructors check of a compressed tensor. -/
def CheckedPointers (ptr idx : List Int) (nnz : ℕ) (inner : Int) : Prop :=
  ValidPointers ptr nnz ∧ ∀ i ∈ idx, inBounds i inner = true

theorem sparseCsr_ok {crow col : List Int} (h : sparseCsr crow col values shape validate = .ok s) :
    ∃ nrows ncols, shape = [nrows, ncols] ∧
      CompressedOf (.csr crow col) crow col values shape nrows s ∧
      (validate = true → CheckedPointers crow col s.nnz ncols) := by
  unfold sparseCsr at h
  split at h
  next nrows ncols =>
    simp only [bind_eq_ok, throwIf_eq_ok, not_and, not_not, checkIf_eq_ok, pure_eq_ok] at h
    obtain ⟨-, hdim, -, hptr, -, hidx, -, hcheck, rfl⟩ := h
    refine ⟨nrows, ncols, rfl, ⟨rfl, rfl, rfl, rfl, hptr, hidx, hdim⟩, fun hv => ?_⟩
    have h := hcheck hv
    simp only [checkCsr, bind_eq_ok, throwIf_eq_ok, not_not, Bool.not_eq_false] at h
    obtain ⟨-, hmono, -, hfirst, -, hlast, h⟩ := h
    refine ⟨⟨nonDecreasing_eq_true hmono, hfirst, hlast⟩, fun c hc => ?_⟩
    split at h
    · cases h
    next hnone => simpa using find?_eq_none.mp hnone c hc
  next => cases h

theorem sparseCsc_ok {ccol row : List Int} (h : sparseCsc ccol row values shape = .ok s) :
    ∃ nrows ncols, shape = [nrows, ncols] ∧
      CompressedOf (.csc ccol row) ccol row values shape ncols s ∧
      (0 < s.nnz → CheckedPointers ccol row s.nnz nrows) := by
  unfold sparseCsc at h
  split at h
  next nrows ncols =>
    simp only [bind_eq_ok, throwIf_eq_ok, not_and, not_not, checkIf_eq_ok, pure_eq_ok,
      decide_eq_true_eq] at h
    obtain ⟨-, hdim, -, hptr, -, hidx, -, hcheck, rfl⟩ := h
    refine ⟨nrows, ncols, rfl, ⟨rfl, rfl, rfl, rfl, hptr, hidx, hdim⟩, fun hv => ?_⟩
    have h := hcheck hv
    simp only [checkCsc, bind_eq_ok, throwIf_eq_ok, not_or, not_not, Bool.not_eq_false,
      not_exists, not_and] at h
    obtain ⟨-, hmono, -, ⟨hfirst, hlast⟩, hbounds⟩ := h
    exact ⟨⟨nonDecreasing_eq_true hmono, hfirst, hlast⟩, hbounds⟩
  next => cases h

namespace Arithmetic

variable {num : Arithmetic}

/-- Scalars and results up to the bound are what they should be. -/
structure ExactUpTo (num : Arithmetic) (bound : Int) : Prop where
  full : ∀ x, 0 ≤ x → x ≤ bound → num.full x = x
  word : ∀ x, 0 ≤ x → x ≤ bound → num.word x = x

theorem exactUpTo_exact (bound : Int) : exact.ExactUpTo bound :=
  ⟨fun _ _ _ => rfl, fun _ _ _ => rfl⟩

theorem strides_eq_rowMajor {shape : List Int} (hnum : num.ExactUpTo shape.prod)
    (hpos : ∀ n ∈ shape, 0 < n) : num.strides shape = rowMajor shape := by
  have h : ∀ (shape : List Int) (bound : Int), num.ExactUpTo bound → shape.prod ≤ bound →
      (∀ n ∈ shape, 0 < n) → num.strides shape = rowMajor shape := by
    intro shape bound hnum
    induction shape with
    | nil => exact fun _ _ => rfl
    | cons n shape ih =>
      cases shape with
      | nil => exact fun _ _ => rfl
      | cons m shape =>
        intro hle hpos
        obtain ⟨hn, hrest⟩ := forall_mem_cons.mp hpos
        have hprod : 0 < (m :: shape).prod := Strided.prod_pos hrest
        have hle' : (m :: shape).prod ≤ bound := by
          refine le_trans ?_ hle
          exact le_mul_of_one_le_left hprod.le hn
        rw [Arithmetic.strides, ih hle' hrest]
        have hword : num.word (shape.prod * m) = (m :: shape).prod := by
          rw [mul_comm]
          exact hnum.word _ hprod.le hle'
        simp only [rowMajor, headD_cons, hword]
  exact h shape _ hnum le_rfl hpos

/-- The compound key of a column is its row-major number. -/
theorem key_eq_dot {shape column : List Int} (hnum : num.ExactUpTo shape.prod)
    (hw : Within column shape) :
    num.key (num.strides shape) column = dot column (rowMajor shape) := by
  rw [strides_eq_rowMajor hnum hw.pos]
  have h : ∀ {bound : Int} {column shape : List Int}, num.ExactUpTo bound → Within column shape →
      shape.prod ≤ bound → ∀ sum : Int, 0 ≤ sum → sum + dot column (rowMajor shape) ≤ bound →
      (column.zip (rowMajor shape)).foldl (fun keys e =>
        num.word (keys + if e.2 = 1 then e.1 else num.word (e.1 * num.full e.2))) sum =
        sum + dot column (rowMajor shape) := by
    intro bound column shape hnum hw
    induction hw with
    | nil => exact fun _ sum _ _ => (by simp [rowMajor])
    | @cons i n column shape hi hw ih =>
      intro hle sum hsum hbound
      have hprod : 0 < shape.prod := Strided.prod_pos (Within.pos hw)
      have hdot := dot_rowMajor_bounds hw
      have hle' : shape.prod ≤ bound := by
        refine le_trans ?_ hle
        exact le_mul_of_one_le_left hprod.le (by omega)
      have hterm : 0 ≤ i * shape.prod := mul_nonneg hi.1 hprod.le
      rw [rowMajor, dot_cons] at hbound
      rw [rowMajor, dot_cons, zip_cons_cons, foldl_cons]
      have hcoord : (if shape.prod = 1 then i else num.word (i * num.full shape.prod)) =
          i * shape.prod := by
        split
        next hone => rw [hone, mul_one]
        next => rw [hnum.full _ hprod.le hle', hnum.word _ hterm (by omega)]
      rw [hcoord, hnum.word _ (by omega) (by omega), ih hle' _ (by omega) (by omega), add_assoc]
  have hb := dot_rowMajor_bounds hw
  have hdot := h hnum hw le_rfl 0 le_rfl (by omega)
  rwa [zero_add] at hdot

end Arithmetic

namespace SparseTensor

variable {s : SparseTensor α} {crow col ccol row shape : List Int} {values : Values α}
  {num : Arithmetic} {indices : Indices} {data : List α}

theorem Represents.csr (h : s.storage = .csr crow col) (hptr : ValidPointers crow s.nnz) :
    s.Represents := by
  unfold Represents
  rw [h]
  exact hptr

theorem Represents.csc (h : s.storage = .csc ccol row) (hptr : ValidPointers ccol s.nnz) :
    s.Represents := by
  unfold Represents
  rw [h]
  exact hptr

theorem represents_sparseCsr {validate : Bool}
    (h : sparseCsr crow col values shape validate = .ok s)
    (hptr : validate = true ∨ ValidPointers crow values.data.length) : s.Represents := by
  obtain ⟨nrows, ncols, -, hof, hcheck⟩ := sparseCsr_ok h
  refine Represents.csr hof.storage ?_
  rcases hptr with hv | hptr
  · exact (hcheck hv).1
  · exact hof.nnz ▸ hptr

theorem represents_sparseCsc (h : sparseCsc ccol row values shape = .ok s)
    (hptr : values.data ≠ [] ∨ ValidPointers ccol 0) : s.Represents := by
  obtain ⟨nrows, ncols, -, hof, hcheck⟩ := sparseCsc_ok h
  refine Represents.csc hof.storage ?_
  rcases Nat.eq_zero_or_pos s.nnz with hzero | hpos
  · rw [hof.nnz] at hzero
    rcases hptr with hne | hptr
    · exact absurd (length_eq_zero_iff.mp hzero) hne
    · rw [hof.nnz, hzero]
      exact hptr
  · exact (hcheck hpos).1

/-! ## Coalescing -/

/-- Columns with smaller keys come first. -/
def KeysFollow (num : Arithmetic) (indices : Indices) (shape : List Int) : Prop :=
  ∀ a ∈ indices.columns, ∀ b ∈ indices.columns,
    num.key (num.strides shape) a < num.key (num.strides shape) b → a < b

theorem sorted_sortedEntries (num : Arithmetic) (indices : Indices) (shape : List Int)
    (data : List α) :
    ((sortedEntries num indices shape data).map Prod.fst).Pairwise (· ≤ ·) := by
  rw [pairwise_map]
  exact pairwise_mergeSort_key Prod.fst _

theorem mem_sortedEntries {e : Int × List Int × α} (h : e ∈ sortedEntries num indices shape data) :
    e.1 = num.key (num.strides shape) e.2.1 ∧ e.2.1 ∈ indices.columns := by
  obtain ⟨old, hold, rfl⟩ := mem_map.mp (mem_mergeSort.mp h)
  exact ⟨rfl, (of_mem_zip hold).1⟩

/-- The columns that are kept have increasing keys. -/
theorem pairwise_merged (num : Arithmetic) (indices : Indices) (shape : List Int) (data : List α) :
    (indices.merged num shape data).columns.Pairwise fun a b =>
      num.key (num.strides shape) a < num.key (num.strides shape) b := by
  have hkeys : (sortedEntries num indices shape data).map Prod.fst =
      ((sortedEntries num indices shape data).map fun e => e.2.1).map
        (num.key (num.strides shape)) := by
    rw [map_map]
    exact map_congr_left fun e he => (mem_sortedEntries he).1
  have hsorted := sorted_sortedEntries num indices shape data
  unfold Indices.merged
  simp only [hkeys] at hsorted ⊢
  exact pairwise_starts hsorted

theorem mem_merged {c : List Int} (h : c ∈ (indices.merged num shape data).columns) :
    c ∈ indices.columns := by
  obtain ⟨e, he, rfl⟩ := mem_map.mp (mem_of_mem_starts h)
  exact (mem_sortedEntries he).2

section Operations

variable [AddCommMonoid α] {num : Arithmetic} {s r : SparseTensor α} {shape : List Int} {β : Type}

/-- The values of the merged columns. -/
def mergedValues (num : Arithmetic) (indices : Indices) (shape : List Int) (data : List α) :
    List α :=
  let sorted := sortedEntries num indices shape data
  let groupId := groupIds (isNew (sorted.map Prod.fst))
  scatterAdd (List.replicate (groupId.getLastD 0 + 1) 0) (groupId.zip (sorted.map fun e => e.2.2))

/-- All that coalescing can do. -/
theorem coalesce_ok (h : s.coalesce num = .ok r) :
    (r = s ∧ ((∀ indices, s.storage ≠ .coo indices) ∨ s.coalesced = true)) ∨
      (∃ indices, s.storage = .coo indices ∧ s.nnz = 0 ∧ r = { s with coalesced := true }) ∨
      ∃ indices result, s.storage = .coo indices ∧ s.coalesced = false ∧ s.nnz ≠ 0 ∧
        s.values.shape = [s.nnz] ∧
        sparseCoo (indices.merged num s.shape s.values.data)
          (.ofList s.values.dtype (mergedValues num indices s.shape s.values.data)) s.shape true =
            .ok result ∧
        r = { result with coalesced := true } := by
  unfold coalesce at h
  split at h
  next indices hstore =>
    split_ifs at h with hflag hzero
    · exact .inl ⟨(pure_eq_ok.mp h).symm, .inr hflag⟩
    · exact .inr (.inl ⟨indices, hstore, hzero, (pure_eq_ok.mp h).symm⟩)
    · simp only [bind_eq_ok, throwIf_eq_ok, not_not, pure_eq_ok] at h
      obtain ⟨-, -, -, -, -, hshape, result, hresult, rfl⟩ := h
      exact .inr (.inr ⟨indices, result, hstore, Bool.eq_false_iff.mpr hflag, hzero, hshape,
        hresult, rfl⟩)
  next hnot => exact .inl ⟨(pure_eq_ok.mp h).symm, .inl fun indices hs => hnot indices hs⟩

theorem represents_coalesce (hs : s.Represents)
    (hkeys : ∀ indices, s.storage = .coo indices →
      s.coalesced = true ∨ KeysFollow num indices s.shape)
    (h : s.coalesce num = .ok r) : r.Represents := by
  rcases coalesce_ok h with ⟨rfl, -⟩ | ⟨indices, hstore, hzero, rfl⟩ |
    ⟨indices, result, hstore, hflag, -, -, hresult, rfl⟩
  · exact hs
  · unfold Represents at hs
    rw [hstore] at hs
    have hnil : indices.columns = [] := length_eq_zero_iff.mp (hs.1 ▸ hzero)
    refine Represents.coo hstore hs.1 fun _ => ?_
    rw [hnil]
    exact Pairwise.nil
  · obtain ⟨hof, -⟩ := sparseCoo_ok hresult
    refine Represents.coo hof.storage hof.nnz fun _ => ?_
    have hfollow := (hkeys indices hstore).resolve_left (by rw [hflag]; exact Bool.false_ne_true)
    exact (pairwise_merged num indices s.shape s.values.data).imp_of_mem fun ha hb hlt =>
      hfollow _ (mem_merged ha) _ (mem_merged hb) hlt

theorem represents_cooToCsr (h : s.cooToCsr num = .ok r) : r.Represents := by
  unfold cooToCsr at h
  split at h
  next =>
    rw [bind_eq_ok] at h
    obtain ⟨coo, -, h⟩ := h
    split at h
    next =>
      split at h
      next =>
        simp only [bind_eq_ok] at h
        obtain ⟨-, -, h⟩ := h
        exact represents_sparseCsr h (.inl rfl)
      next =>
        simp only [bind_eq_ok] at h
        obtain ⟨-, -, counts, -, h⟩ := h
        exact represents_sparseCsr h (.inl rfl)
    next => cases h
  next => cases h

theorem validPointers_zero (n : ℕ) : ValidPointers (pointers (countsBelow n [])) 0 := by
  have hzero : ∀ m : ℕ, cumsumFrom (0 : Int) (List.replicate m 0) = List.replicate m 0 := by
    intro m
    induction m with
    | zero => rfl
    | succ m ih => rw [replicate_succ, cumsumFrom, zero_add, ih]
  have hcounts : countsBelow n [] = List.replicate n 0 := by simp [countsBelow]
  have hptr : pointers (countsBelow n []) = List.replicate (n + 1) 0 := by
    rw [hcounts, pointers, hzero, replicate_succ]
  rw [hptr]
  refine ⟨pairwise_replicate.mpr (.inr le_rfl), rfl, ?_⟩
  rw [getLast?_replicate]
  rfl

omit [AddCommMonoid α] in
theorem represents_cooToCsc (h : s.cooToCsc = .ok r) : r.Represents := by
  unfold cooToCsc at h
  split at h
  next indices _ ncols _ _ =>
    simp only [bind_eq_ok] at h
    obtain ⟨-, -, -, -, -, -, h⟩ := h
    refine represents_sparseCsc h ?_
    by_cases hnil : ((indices.columns.map pairOf).zip s.values.data).mergeSort (fun a b =>
        a.1.2 < b.1.2 || (a.1.2 = b.1.2 && a.1.1 ≤ b.1.1)) = []
    · refine .inr ?_
      rw [hnil]
      exact validPointers_zero ncols.toNat
    · exact .inl fun hdata => hnil (map_eq_nil_iff.mp hdata)
  next => cases h

/-- The columns of the elements that are not zero are in order. -/
theorem pairwise_unravel (hpos : ∀ n ∈ shape, 0 < n) {entries : List (β × ℕ)}
    (hsorted : entries.Pairwise fun a b => a.2 < b.2)
    (hbound : ∀ e ∈ entries, (e.2 : Int) < shape.prod) :
    (entries.map fun e => unravel shape e.2).Pairwise (· < ·) := by
  rw [pairwise_map]
  refine hsorted.imp_of_mem fun ha hb hlt => ?_
  refine lt_of_dot_lt (within_unravel hpos _) (within_unravel hpos _) ?_
  rw [dot_unravel hpos, dot_unravel hpos, Int.emod_eq_of_lt (Int.natCast_nonneg _) (hbound _ ha),
    Int.emod_eq_of_lt (Int.natCast_nonneg _) (hbound _ hb)]
  exact Int.ofNat_lt.mpr hlt

theorem pairwise_zipIdx (xs : List β) (n : ℕ) : (xs.zipIdx n).Pairwise fun a b => a.2 < b.2 := by
  induction xs generalizing n with
  | nil => exact Pairwise.nil
  | cons x xs ih =>
    exact pairwise_cons.mpr ⟨fun e he => (mem_zipIdx he).1, ih (n + 1)⟩

variable [DecidableEq α]

theorem represents_fromDenseCoo {dtype : DType} {data : List α} (hnn : ∀ n ∈ shape, 0 ≤ n)
    (hlen : (data.length : Int) = shape.prod) (h : fromDenseCoo num shape dtype data = .ok r) :
    r.Represents ∧ ∃ indices, r.storage = .coo indices := by
  simp only [fromDenseCoo] at h
  split at h
  next hnil =>
    obtain ⟨hof, -⟩ := sparseCoo_ok h
    exact ⟨Represents.coo hof.storage hof.nnz fun _ => Pairwise.nil, _, hof.storage⟩
  next hne =>
    simp only [bind_eq_ok, throwIf_eq_ok, pure_eq_ok] at h
    obtain ⟨-, -, values, -, result, hresult, rfl⟩ := h
    obtain ⟨hof, -⟩ := sparseCoo_ok hresult
    refine ⟨Represents.coo hof.storage hof.nnz fun _ => ?_, _, hof.storage⟩
    have hbound : ∀ e ∈ data.zipIdx.filter (fun e => e.1 ≠ 0), (e.2 : Int) < shape.prod := by
      intro e he
      have hlt := (mem_zipIdx (mem_of_mem_filter he)).2.1
      omega
    have hpos : 0 < shape.prod := by
      obtain ⟨e, he⟩ := exists_mem_of_ne_nil _ hne
      exact lt_of_le_of_lt (Int.natCast_nonneg e.2) (hbound e he)
    exact pairwise_unravel (pos_of_prod_pos hnn hpos) ((pairwise_zipIdx data 0).filter _) hbound

theorem represents_toCsr (hs : s.Represents) (h : s.toCsr num = .ok r) : r.Represents := by
  unfold toCsr at h
  split at h
  · exact pure_eq_ok.mp h ▸ hs
  · exact represents_cooToCsr h
  · rw [bind_eq_ok] at h
    obtain ⟨coo, -, h⟩ := h
    exact represents_cooToCsr h

theorem represents_toCsc (hs : s.Represents) (h : s.toCsc num = .ok r) : r.Represents := by
  unfold toCsc at h
  split at h
  · exact pure_eq_ok.mp h ▸ hs
  · exact represents_cooToCsc h
  · rw [bind_eq_ok] at h
    obtain ⟨coo, -, h⟩ := h
    exact represents_cooToCsc h

/-- The columns of every row increase. -/
def RowsIncrease (s : SparseTensor α) : Prop :=
  ∀ crow col, s.storage = .csr crow col → ∀ row ∈ rowSlices crow col, row.Pairwise (· < ·)

theorem represents_toCoo (hs : s.Represents) (hrows : s.RowsIncrease) (h : s.toCoo num = .ok r) :
    r.Represents := by
  have hempty : ∀ {flag : Bool}, s.emptyCoo flag = .ok r → r.Represents := fun h => by
    simp only [emptyCoo, bind_eq_ok, pure_eq_ok] at h
    obtain ⟨result, hresult, rfl⟩ := h
    obtain ⟨hof, -⟩ := sparseCoo_ok hresult
    exact Represents.coo hof.storage hof.nnz fun _ => Pairwise.nil
  unfold toCoo at h
  split at h
  next => exact pure_eq_ok.mp h ▸ hs
  next crow col nrows _ hstore hshape =>
    split at h
    next => exact hempty h
    next =>
      simp only [bind_eq_ok, pure_eq_ok, expand, throwIf_eq_ok] at h
      obtain ⟨rows, ⟨-, -, -, -, rfl⟩, -, -, result, hresult, rfl⟩ := h
      obtain ⟨hof, -⟩ := sparseCoo_ok hresult
      refine Represents.coo hof.storage hof.nnz fun _ => ?_
      unfold Represents at hs
      rw [hstore] at hs
      have hnames : (upTo nrows.toNat).Pairwise (· < ·) := by
        rw [upTo, pairwise_map]
        exact pairwise_lt_range.imp fun hlt => Int.ofNat_lt.mpr hlt
      have hpair := pairwise_zip_repeatInterleave hnames hs.nonDecreasing hs.first
        (hrows crow col hstore)
      refine pairwise_map.mpr (hpair.imp fun hlt => ?_)
      rw [cons_lt_cons_iff, cons_lt_cons_iff]
      exact hlt.imp_right (And.imp_right .inl)
  next =>
    split at h
    next => exact hempty h
    next =>
      simp only [bind_eq_ok, pure_eq_ok] at h
      obtain ⟨cols, -, -, -, result, hresult, rfl⟩ := h
      obtain ⟨hof, -⟩ := sparseCoo_ok hresult
      exact Represents.coo hof.storage hof.nnz fun hflag => absurd hflag Bool.false_ne_true
  next hstore =>
    unfold Represents at hs
    rw [hstore] at hs
    exact hs.elim
  next => cases h

theorem represents_transpose (hs : s.Represents)
    (hkeys : ∀ indices, s.storage = .coo indices → KeysFollow num indices.swap s.shape.reverse)
    (h : s.transpose num = .ok r) : r.Represents := by
  unfold transpose at h
  split at h
  next => exact represents_sparseCsr h (.inl rfl)
  next =>
    simp only [bind_eq_ok] at h
    obtain ⟨csc, hcsc, h⟩ := h
    obtain ⟨_, _, -, hof, -⟩ := sparseCsc_ok hcsc
    simp only [toCsr, hof.storage, bind_eq_ok] at h
    obtain ⟨coo, -, h⟩ := h
    exact represents_cooToCsr h
  next hstore _ =>
    unfold Represents at hs
    rw [hstore] at hs
    exact hs.elim
  next =>
    unfold transposeCoo at h
    split at h
    next indices nrows ncols hstore hshape =>
      rw [bind_eq_ok] at h
      obtain ⟨swapped, hswapped, h⟩ := h
      obtain ⟨hof, -⟩ := sparseCoo_ok hswapped
      have hrep : swapped.Represents := Represents.coo hof.storage hof.nnz fun hflag =>
        absurd (hof.coalesced.symm.trans hflag) Bool.false_ne_true
      refine represents_coalesce hrep (fun indices' hstore' => .inr ?_) h
      rw [hof.storage] at hstore'
      obtain rfl := Storage.coo.inj hstore'
      have hfollow := hkeys indices hstore
      rw [hshape] at hfollow
      rw [hof.shape]
      exact hfollow
    next => cases h

omit [AddCommMonoid α] [DecidableEq α] in
theorem represents_withValues {values : Values α} (hs : s.Represents)
    (h : s.withValues values = .ok r) : r.Represents := by
  simp only [withValues, bind_eq_ok, pure_eq_ok] at h
  obtain ⟨-, -, rfl⟩ := h
  exact hs

end Operations

end SparseTensor

/-! ## Runs -/

/-- A call of a run; a tensor is named by its number in the pool. -/
inductive Call (α : Type)
  | sparseCoo (indices : Indices) (values : Values α) (shape : List Int) (validate : Bool)
  | sparseCsr (crow col : List Int) (values : Values α) (shape : List Int) (validate : Bool)
  | sparseCsc (ccol row : List Int) (values : Values α) (shape : List Int)
  | fromDense (dense : Dense α) (layout : SparseLayout)
  | toCoo (i : ℕ)
  | toCsr (i : ℕ)
  | toCsc (i : ℕ)
  | transpose (i : ℕ)
  | coalesce (i : ℕ)
  | withValues (i : ℕ) (values : Values α)

namespace Call

variable [AddCommMonoid α] [DecidableEq α] {pool : List (SparseTensor α)} {num : Arithmetic}
  {c : Call α}

def tensor (pool : List (SparseTensor α)) (i : ℕ) : Except Exn (SparseTensor α) :=
  match pool[i]? with
  | some s => pure s
  | none => throw (.outOfRange "no such tensor")

def result (num : Arithmetic) (pool : List (SparseTensor α)) : Call α → Except Exn (SparseTensor α)
  | sparseCoo indices values shape validate => Sparse.sparseCoo indices values shape validate
  | sparseCsr crow col values shape validate => Sparse.sparseCsr crow col values shape validate
  | sparseCsc ccol row values shape => Sparse.sparseCsc ccol row values shape
  | fromDense dense layout => SparseTensor.fromDense num dense layout
  | toCoo i => tensor pool i >>= SparseTensor.toCoo num
  | toCsr i => tensor pool i >>= SparseTensor.toCsr num
  | toCsc i => tensor pool i >>= SparseTensor.toCsc num
  | transpose i => tensor pool i >>= SparseTensor.transpose num
  | coalesce i => tensor pool i >>= SparseTensor.coalesce num
  | withValues i values => tensor pool i >>= fun s => s.withValues values

/-- A call that throws leaves the pool as it is. -/
def step (num : Arithmetic) (pool : List (SparseTensor α)) (c : Call α) : List (SparseTensor α) :=
  match c.result num pool with
  | .ok s => pool ++ [s]
  | .error _ => pool

def run (num : Arithmetic) (calls : List (Call α)) : List (SparseTensor α) :=
  calls.foldl (step num) []

/-- The calls that do not reach what the code gets wrong: pointers that no check sees, rows whose
columns do not increase where they are marked as coalesced, and keys that do not follow the
columns they are made from. -/
def Sound (num : Arithmetic) (pool : List (SparseTensor α)) : Call α → Prop
  | sparseCsr crow _ values _ validate => validate = true ∨ ValidPointers crow values.data.length
  | sparseCsc ccol _ values _ => values.data ≠ [] ∨ ValidPointers ccol 0
  | toCoo i => ∀ s, pool[i]? = some s → s.RowsIncrease
  | transpose i => ∀ s indices, pool[i]? = some s → s.storage = .coo indices →
      SparseTensor.KeysFollow num indices.swap s.shape.reverse
  | coalesce i => ∀ s indices, pool[i]? = some s → s.storage = .coo indices →
      s.coalesced = true ∨ SparseTensor.KeysFollow num indices s.shape
  | _ => True

/-- The calls of a run are sound where they are made. -/
def SoundFrom (num : Arithmetic) : List (SparseTensor α) → List (Call α) → Prop
  | _, [] => True
  | pool, c :: calls => c.Sound num pool ∧ SoundFrom num (step num pool c) calls

omit [AddCommMonoid α] [DecidableEq α] in
theorem tensor_eq_ok {i : ℕ} {s : SparseTensor α} : tensor pool i = .ok s ↔ pool[i]? = some s := by
  unfold tensor
  cases pool[i]? with
  | none => simp [throw, throwThe, MonadExceptOf.throw]
  | some t => simp

theorem represents_result {r : SparseTensor α} (hpool : ∀ s ∈ pool, s.Represents)
    (hsound : c.Sound num pool) (h : c.result num pool = .ok r) : r.Represents := by
  have hmem : ∀ {i : ℕ} {s : SparseTensor α}, pool[i]? = some s → s.Represents := fun hs =>
    hpool _ (mem_of_getElem? hs)
  cases c with
  | sparseCoo indices values shape validate =>
    obtain ⟨hof, -⟩ := sparseCoo_ok h
    exact SparseTensor.Represents.coo hof.storage hof.nnz fun hflag =>
      absurd (hof.coalesced.symm.trans hflag) Bool.false_ne_true
  | sparseCsr crow col values shape validate => exact SparseTensor.represents_sparseCsr h hsound
  | sparseCsc ccol row values shape => exact SparseTensor.represents_sparseCsc h hsound
  | fromDense dense layout =>
    simp only [result, SparseTensor.fromDense, bind_eq_ok] at h
    obtain ⟨coo, hcoo, h⟩ := h
    obtain ⟨hrep, -⟩ := SparseTensor.represents_fromDenseCoo dense.nonneg dense.length_data hcoo
    cases layout with
    | csr => exact SparseTensor.represents_toCsr hrep h
    | csc => exact SparseTensor.represents_toCsc hrep h
    | coo => exact pure_eq_ok.mp h ▸ hrep
    | bsr => exact pure_eq_ok.mp h ▸ hrep
  | toCoo i =>
    simp only [result, bind_eq_ok, tensor_eq_ok] at h
    obtain ⟨s, hs, h⟩ := h
    exact SparseTensor.represents_toCoo (hmem hs) (hsound s hs) h
  | toCsr i =>
    simp only [result, bind_eq_ok, tensor_eq_ok] at h
    obtain ⟨s, hs, h⟩ := h
    exact SparseTensor.represents_toCsr (hmem hs) h
  | toCsc i =>
    simp only [result, bind_eq_ok, tensor_eq_ok] at h
    obtain ⟨s, hs, h⟩ := h
    exact SparseTensor.represents_toCsc (hmem hs) h
  | transpose i =>
    simp only [result, bind_eq_ok, tensor_eq_ok] at h
    obtain ⟨s, hs, h⟩ := h
    exact SparseTensor.represents_transpose (hmem hs)
      (fun indices hstore => hsound s indices hs hstore) h
  | coalesce i =>
    simp only [result, bind_eq_ok, tensor_eq_ok] at h
    obtain ⟨s, hs, h⟩ := h
    exact SparseTensor.represents_coalesce (hmem hs)
      (fun indices hstore => hsound s indices hs hstore) h
  | withValues i values =>
    simp only [result, bind_eq_ok, tensor_eq_ok] at h
    obtain ⟨s, hs, h⟩ := h
    exact SparseTensor.represents_withValues (hmem hs) h

theorem represents_step (hpool : ∀ s ∈ pool, s.Represents) (hsound : c.Sound num pool) :
    ∀ s ∈ step num pool c, s.Represents := by
  unfold step
  split
  next r hr =>
    intro s hs
    rcases mem_append.mp hs with hs | hs
    · exact hpool s hs
    · rw [mem_singleton.mp hs]
      exact represents_result hpool hsound hr
  next => exact hpool

/-- A run whose calls are sound keeps what its tensors promise. -/
theorem represents_run {num : Arithmetic} {calls : List (Call α)}
    (hsound : SoundFrom num [] calls) : ∀ s ∈ run num calls, s.Represents := by
  have h : ∀ (calls : List (Call α)) (pool : List (SparseTensor α)),
      (∀ s ∈ pool, s.Represents) → SoundFrom num pool calls →
        ∀ s ∈ calls.foldl (step num) pool, s.Represents := by
    intro calls
    induction calls with
    | nil => exact fun pool hpool _ => hpool
    | cons c calls ih =>
      intro pool hpool hsound
      exact ih _ (represents_step hpool hsound.1) hsound.2
  exact h calls [] (fun s hs => absurd hs not_mem_nil) hsound

/-- A row with its columns in order, as coordinates. -/
theorem represents_run_sorted_row :
    (run machine [.sparseCsr [0, 2] [0, 3] (.ofList .float32 [(5 : Int), 7]) [1, 4] true,
        .toCoo 0]).length = 2 ∧
      ∀ s ∈ run machine [.sparseCsr [0, 2] [0, 3] (.ofList .float32 [(5 : Int), 7]) [1, 4] true,
        .toCoo 0], s.Represents := by
  refine ⟨rfl, represents_run ⟨.inl rfl, fun s hs => ?_, trivial⟩⟩
  obtain rfl := Option.some.inj hs
  intro crow col hstore
  obtain ⟨rfl, rfl⟩ := Storage.csr.inj hstore
  decide

/-- A row with its columns out of order is marked as coalesced. -/
theorem unsorted_row_is_marked :
    ∃ s ∈ run machine [.sparseCsr [0, 2] [1, 0] (.ofList .float32 [(5 : Int), 7]) [1, 2] true,
      .toCoo 0], ¬ s.Represents := by
  refine ⟨_, mem_cons_of_mem _ mem_cons_self, fun h => ?_⟩
  exact absurd (h.2 rfl).2 (by decide)

end Call

end Tenzor.Sparse
