import Tenzor.Sparse.DensePreserved

/-!
# Blocks keep the matrix

A block is the list of the entries at its places. Adding an entry to its block, and reading
the blocks off a dense matrix, keep the sum of the entries at every place.
-/

namespace Tenzor.Sparse

open Throwing Scatter List

variable {α : Type} {blockSize c : Int × Int}

theorem mem_blockCells (hsize : 0 < blockSize.1 ∧ 0 < blockSize.2) :
    c ∈ blockCells blockSize ↔ (0 ≤ c.1 ∧ c.1 < blockSize.1) ∧ 0 ≤ c.2 ∧ c.2 < blockSize.2 := by
  have hmem : c ∈ blockCells blockSize ↔
      c.1 ∈ upTo blockSize.1.toNat ∧ c.2 ∈ upTo blockSize.2.toNat := mem_product
  rw [hmem, mem_upTo, mem_upTo, Int.toNat_of_nonneg hsize.1.le, Int.toNat_of_nonneg hsize.2.le]

theorem nodup_blockCells (blockSize : Int × Int) : (blockCells blockSize).Nodup :=
  Nodup.product ((pairwise_upTo _).imp ne_of_lt) ((pairwise_upTo _).imp ne_of_lt)

/-- A place is told by its block and its cell. -/
theorem blockPlace_eq_iff {b p : Int × Int}
    (hc : (0 ≤ c.1 ∧ c.1 < blockSize.1) ∧ 0 ≤ c.2 ∧ c.2 < blockSize.2) :
    (b.1 * blockSize.1 + c.1, b.2 * blockSize.2 + c.2) = p ↔
      b = (p.1 / blockSize.1, p.2 / blockSize.2) ∧ c = (p.1 % blockSize.1, p.2 % blockSize.2) := by
  rw [Prod.ext_iff, Prod.ext_iff, Prod.ext_iff, mul_add_eq_iff hc.1, mul_add_eq_iff hc.2]
  exact and_and_and_comm

namespace SparseTensor

variable {blockSize : Int × Int}

/-- The entries of a block. -/
def Block.entries (b : Block blockSize α) : List ((Int × Int) × α) :=
  (blockPlaces blockSize (b.row, b.col)).zip b.values

theorem Block.length_places (b : Block blockSize α) :
    (blockPlaces blockSize (b.row, b.col)).length = b.values.length := by
  rw [blockPlaces, length_map, length_blockCells, b.length_values]

variable [AddCommMonoid α] {nrows ncols : Int}

variable {blocks : List (Block blockSize α)}

omit [AddCommMonoid α] in
theorem ofBlocks_ok {dtype : DType} {r : SparseTensor α}
    (hsorted : (blocks.map Block.row).Pairwise (· ≤ ·))
    (h : ofBlocks dtype [nrows, ncols] (blocksAlong nrows blockSize.1) blocks = .ok r) :
    Valid nrows ncols r ∧ r.values.dtype = dtype ∧ r.entries = blocks.flatMap Block.entries := by
  simp only [ofBlocks, bind_eq_ok, throwIf_eq_ok, not_exists, not_and, Bool.not_eq_false] at h
  obtain ⟨-, hrows, -, -, h⟩ := h
  obtain ⟨hstore, hvalues, hvalid⟩ := sparseBsr_ok h
  refine ⟨hvalid, by rw [hvalues], ?_⟩
  have hbounds : ∀ x ∈ blocks.map Block.row,
      0 ≤ x ∧ x < ((blocksAlong nrows blockSize.1).toNat : Int) := by
    intro x hx
    obtain ⟨b, hb, rfl⟩ := mem_map.mp hx
    have hrow := of_decide_eq_true (hrows b hb)
    omega
  rw [entries, hstore, hvalues, Storage.places, rowsOf_pointers hsorted hbounds, zip_map',
    flatMap_map]
  exact zip_flatMap fun b _ => b.length_places

/-- A block after a value is added has that value more at the place of its cell. -/
theorem Block.sumAt_add (b : Block blockSize α) {offset : ℕ} (v : α) {q : Int × Int}
    (hplace : (blockPlaces blockSize (b.row, b.col))[offset]? = some q) (p : Int × Int) :
    sumAt p (b.add offset v).entries = sumAt p b.entries + if q = p then v else 0 := by
  have hlt : offset < b.values.length := by
    rw [← b.length_places]
    exact (List.getElem?_eq_some_iff.mp hplace).1
  have h : sumAt p ((blockPlaces blockSize (b.row, b.col)).zip
      (scatterAdd b.values [(offset, v)])) = sumAt p b.entries + sumAt (some p)
        ([(offset, v)].map fun e => ((blockPlaces blockSize (b.row, b.col))[e.1]?, e.2)) :=
    sumAt_zip_scatterAdd b.length_places (by simpa using hlt) p
  rw [map_singleton, hplace] at h
  simp only [sumAt, add_zero, Option.some.injEq] at h
  exact h

omit [AddCommMonoid α] in
/-- The number of the cell of a place, in its block. -/
theorem getElem?_blockPlaces (hsize : 0 < blockSize.1 ∧ 0 < blockSize.2) (p : Int × Int) :
    (blockPlaces blockSize (p.1 / blockSize.1, p.2 / blockSize.2))[
      (p.1 % blockSize.1 * blockSize.2 + p.2 % blockSize.2).toNat]? = some p := by
  have hi0 := Int.emod_nonneg p.1 hsize.1.ne'
  have hi := Int.emod_lt_of_pos p.1 hsize.1
  have hj0 := Int.emod_nonneg p.2 hsize.2.ne'
  have hj := Int.emod_lt_of_pos p.2 hsize.2
  have hnum : (p.1 % blockSize.1 * blockSize.2 + p.2 % blockSize.2).toNat =
      (p.1 % blockSize.1).toNat * (upTo blockSize.2.toNat).length + (p.2 % blockSize.2).toNat := by
    rw [length_upTo, Int.toNat_add (mul_nonneg hi0 hsize.2.le) hj0, Int.toNat_mul hi0 hsize.2.le]
  have hcell : (blockCells blockSize)[
      (p.1 % blockSize.1 * blockSize.2 + p.2 % blockSize.2).toNat]? =
        some (p.1 % blockSize.1, p.2 % blockSize.2) := by
    rw [hnum, blockCells, getElem?_pairs _ _ (by rw [length_upTo]; omega),
      getElem?_upTo (by omega), getElem?_upTo (by omega)]
    simp [Int.toNat_of_nonneg hi0, Int.toNat_of_nonneg hj0]
  rw [blockPlaces, getElem?_map, hcell, Option.map_some]
  exact congrArg some (Prod.ext (Int.ediv_mul_add_emod _ _) (Int.ediv_mul_add_emod _ _))

/-- Blocks whose columns are in the matrix. -/
def ColumnsBelow (nblockcols : Int) (blocks : List (Block blockSize α)) : Prop :=
  ∀ b ∈ blocks, 0 ≤ b.col ∧ b.col < nblockcols

omit [AddCommMonoid α] in
theorem div_lt_blocksAlong {n b x : Int} (hb : 0 < b) (h : 0 ≤ x ∧ x < n) :
    0 ≤ x / b ∧ x / b < blocksAlong n b := by
  refine ⟨Int.ediv_nonneg h.1 hb.le, ?_⟩
  have hstep : n + b - 1 = n - 1 + b := by omega
  rw [blocksAlong_eq hb (h.1.trans_lt h.2), hstep, Int.add_ediv_of_dvd_right (dvd_refl b),
    Int.ediv_self hb.ne']
  have hle := @Int.ediv_le_ediv x (n - 1) b hb (by omega)
  omega

theorem accumulate_spec (hsize : 0 < blockSize.1 ∧ 0 < blockSize.2) {e : (Int × Int) × α}
    (he : Inside nrows ncols e.1) (hcols : ColumnsBelow (blocksAlong ncols blockSize.2) blocks) :
    ColumnsBelow (blocksAlong ncols blockSize.2)
        (accumulate (blocksAlong ncols blockSize.2) blocks e) ∧
      ∀ p, sumAt p ((accumulate (blocksAlong ncols blockSize.2) blocks e).flatMap Block.entries) =
        sumAt p (blocks.flatMap Block.entries) + if e.1 = p then e.2 else 0 := by
  have hcol := div_lt_blocksAlong hsize.2 he.2
  have hplace := getElem?_blockPlaces hsize e.1
  simp only [accumulate, Int.tdiv_eq_ediv_of_nonneg he.1.1, Int.tdiv_eq_ediv_of_nonneg he.2.1,
    Int.tmod_eq_emod_of_nonneg he.1.1, Int.tmod_eq_emod_of_nonneg he.2.1]
  split
  next i hfound =>
    obtain ⟨hi, hkey, -⟩ := findIdx?_eq_some_iff_getElem.mp hfound
    have hb := hcols _ (getElem_mem hi)
    rw [decide_eq_true_eq, mul_add_eq_iff hb] at hkey
    have hblock := (mul_add_eq_iff hcol (q := e.1.1 / blockSize.1)).mp rfl
    rw [← hblock.1, ← hblock.2] at hkey
    rw [← hkey.1, ← hkey.2] at hplace
    have hsplit : blocks = blocks.take i ++ blocks[i] :: blocks.drop (i + 1) := by
      rw [cons_getElem_drop_succ, take_append_drop]
    rw [modify_eq_take_cons_drop hi]
    constructor
    · intro b hmem
      rcases mem_append.mp hmem with hmem | hmem
      · exact hcols b (mem_of_mem_take hmem)
      · rcases mem_cons.mp hmem with rfl | hmem
        · exact hb
        · exact hcols b (mem_of_mem_drop hmem)
    · intro p
      conv_rhs => rw [hsplit]
      rw [flatMap_append, flatMap_cons, flatMap_append, flatMap_cons,
        sumAt_append, sumAt_append, sumAt_append, sumAt_append, Block.sumAt_add _ _ hplace]
      rw [add_right_comm (sumAt p blocks[i].entries)]
      exact (add_assoc _ _ _).symm
  next =>
    constructor
    · intro b hb
      rcases mem_append.mp hb with hb | hb
      · exact hcols b hb
      · rw [mem_singleton.mp hb]
        exact hcol
    · intro p
      rw [flatMap_append, sumAt_append, flatMap_singleton, Block.sumAt_add _ _ hplace]
      congr 1
      rw [sumAt_eq_zero, zero_add]
      intro b hb _
      exact eq_of_mem_replicate (of_mem_zip hb).2

/-- The blocks of all the entries hold the sum of the entries at every place. -/
theorem sumAt_accumulated (hsize : 0 < blockSize.1 ∧ 0 < blockSize.2)
    {es : List ((Int × Int) × α)} (h : ∀ e ∈ es, Inside nrows ncols e.1) (p : Int × Int) :
    sumAt p ((es.foldl (accumulate (blocksAlong ncols blockSize.2))
      ([] : List (Block blockSize α))).flatMap Block.entries) = sumAt p es := by
  have hfold : ∀ (es : List ((Int × Int) × α)) (blocks : List (Block blockSize α)),
      (∀ e ∈ es, Inside nrows ncols e.1) →
      ColumnsBelow (blocksAlong ncols blockSize.2) blocks →
      sumAt p ((es.foldl (accumulate (blocksAlong ncols blockSize.2)) blocks).flatMap
        Block.entries) = sumAt p (blocks.flatMap Block.entries) + sumAt p es := by
    intro es
    induction es with
    | nil => exact fun _ _ _ => (add_zero _).symm
    | cons e es ih =>
      intro blocks h hcols
      obtain ⟨he, hes⟩ := forall_mem_cons.mp h
      obtain ⟨hnext, hsum⟩ := accumulate_spec hsize he hcols
      rw [foldl_cons, ih _ hes hnext, hsum p, add_assoc]
      rfl
  rw [hfold es [] h fun b hb => absurd hb not_mem_nil]
  exact zero_add _

omit [AddCommMonoid α] in
theorem nodup_blockPlaces (blockSize b : Int × Int) : (blockPlaces blockSize b).Nodup := by
  refine (nodup_blockCells blockSize).map fun c c' heq => ?_
  obtain ⟨hrow, hcol⟩ := Prod.ext_iff.mp heq
  exact Prod.ext (add_left_cancel hrow) (add_left_cancel hcol)

/-- The blocks of a dense matrix hold its elements. -/
theorem sumAt_denseBlocks (hsize : 0 < blockSize.1 ∧ 0 < blockSize.2) (dense : List α)
    {p : Int × Int} (hp : Inside nrows ncols p) :
    sumAt p (((upTo (blocksAlong nrows blockSize.1).toNat).flatMap fun br =>
      (upTo (blocksAlong ncols blockSize.2).toNat).map fun bc => (br, bc)).flatMap fun b =>
        (blockPlaces blockSize b).zip (denseBlock blockSize nrows ncols dense b)) =
      dense.getD (p.1 * ncols + p.2).toNat 0 := by
  let elementAt : Int × Int → α := fun q =>
    if q.1 < nrows ∧ q.2 < ncols then dense.getD (q.1 * ncols + q.2).toNat 0 else 0
  have hzip : ∀ b, (blockPlaces blockSize b).zip (denseBlock blockSize nrows ncols dense b) =
      (blockPlaces blockSize b).map fun q => (q, elementAt q) := by
    intro b
    rw [blockPlaces, map_map, denseBlock, zip_map']
    rfl
  have hother : ∀ b, b ≠ (p.1 / blockSize.1, p.2 / blockSize.2) → sumAt p
      ((blockPlaces blockSize b).zip (denseBlock blockSize nrows ncols dense b)) = 0 := by
    intro b hb
    refine sumAt_eq_zero fun e he heq => ?_
    obtain ⟨c, hc, hplace⟩ := mem_map.mp (of_mem_zip he).1
    rw [heq, blockPlace_eq_iff ((mem_blockCells hsize).mp hc)] at hplace
    exact absurd hplace.1 hb
  have hown : sumAt p ((blockPlaces blockSize (p.1 / blockSize.1, p.2 / blockSize.2)).zip
      (denseBlock blockSize nrows ncols dense (p.1 / blockSize.1, p.2 / blockSize.2))) =
        dense.getD (p.1 * ncols + p.2).toNat 0 := by
    rw [hzip, sumAt_graph (nodup_blockPlaces _ _)
      (mem_of_getElem? (getElem?_blockPlaces hsize p))]
    exact if_pos ⟨hp.1.2, hp.2.2⟩
  have hrow := div_lt_blocksAlong hsize.1 hp.1
  have hcol := div_lt_blocksAlong hsize.2 hp.2
  refine (sumAt_flatMap_of_unique ?_ ?_ hother).trans hown
  · exact Nodup.product ((pairwise_upTo _).imp ne_of_lt) ((pairwise_upTo _).imp ne_of_lt)
  · exact mem_product.mpr ⟨mem_upTo.mpr (by omega), mem_upTo.mpr (by omega)⟩

omit [AddCommMonoid α] in
theorem pairwise_blockRows {n m : ℕ} :
    ((upTo n).flatMap fun br => (upTo m).map fun bc => (br, bc)).Pairwise
      fun a b => a.1 ≤ b.1 := by
  refine pairwise_flatMap.mpr ⟨fun br _ => ?_, (pairwise_upTo n).imp fun hlt a ha b hb => ?_⟩
  · exact pairwise_map.mpr ((pairwise_upTo m).imp fun _ => le_rfl)
  · obtain ⟨_, -, rfl⟩ := mem_map.mp ha
    obtain ⟨_, -, rfl⟩ := mem_map.mp hb
    exact hlt.le

variable [DecidableEq α] {s r : SparseTensor α}

theorem csrToBsr_sameMatrix (hs : Valid nrows ncols s) (h : s.csrToBsr exact blockSize = .ok r) :
    SameMatrix nrows ncols s r := by
  unfold csrToBsr at h
  split at h
  next crow col _ _ hstore hshape =>
    rw [hs.1] at hshape
    obtain ⟨rfl, rfl⟩ : nrows = _ ∧ ncols = _ := by simpa using hshape
    have hcompressed : Compressed crow col nrows ncols s := by
      have h := hs.2
      rwa [hstore] at h
    rw [bind_eq_ok] at h
    obtain ⟨_, hsize, h⟩ := h
    rw [throwIf_eq_ok, not_or, not_le, not_le] at hsize
    rw [hs.1] at h
    split at h
    next =>
      rw [bind_eq_ok] at h
      obtain ⟨rows, hrows, h⟩ := h
      rw [bind_eq_ok] at h
      obtain ⟨-, -, h⟩ := h
      have hentries : (rows.zip col).zip s.values.data = s.entries := by
        rw [eq_rowsOf_of_expand hrows, entries, hstore, Storage.places]
      rw [hentries] at h
      obtain ⟨hvalid, hdtype, hblocks⟩ := ofBlocks_ok
        (pairwise_map.mpr (pairwise_mergeSort_lex _ _ _)) h
      refine ⟨hvalid, hdtype, fun p _ => ?_⟩
      rw [hblocks, sumAt_perm p ((mergeSort_perm _ _).flatMap_right _)]
      exact sumAt_accumulated hsize (hcompressed.entries_inside hstore) p
    next =>
      rw [bind_eq_ok] at h
      obtain ⟨dense, hdense, h⟩ := h
      rw [bind_eq_ok] at h
      obtain ⟨-, -, h⟩ := h
      obtain ⟨-, -, hread⟩ := toDense_ok hs hdense
      obtain ⟨hvalid, hdtype, hblocks⟩ := ofBlocks_ok (by
        refine pairwise_map.mpr (Pairwise.filter _ (pairwise_map.mpr ?_))
        exact pairwise_blockRows) h
      refine ⟨hvalid, hdtype, fun p hp => ?_⟩
      rw [hblocks, sumAt_flatMap_filter, flatMap_map, ← hread p hp,
        ← sumAt_denseBlocks hsize dense hp]
      · rfl
      · intro b _ hb
        refine sumAt_eq_zero fun e he _ => ?_
        have hvalue := any_eq_false.mp hb _ (of_mem_zip he).2
        simpa using hvalue
  next => cases h

end SparseTensor

end Tenzor.Sparse
