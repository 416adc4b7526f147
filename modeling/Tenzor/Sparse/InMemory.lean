import Tenzor.Sparse.Chains

/-!
# Sparse tensors in memory

`to_bsr` of a compressed tensor of floats walks through raw pointers and expects that the elements
lie one after the other. An array that is a slice with a step is walked past.

## Implementation notes

Only the pointer arrays, the indices and the values of a compressed tensor are reached so, and of
these the conversions hand on the values. All other accesses are by position. What lies around the
elements of an array is part of the tensor, and is any memory.
-/

namespace Tenzor.Sparse

open Throwing Scatter List
open SparseTensor (Conversion)

variable {α β : Type}

/-- Where a pointer goes in a buffer. -/
structure Pointer (β : Type) where
  buffer : List β
  offset : ℕ

namespace Pointer

def ofList (xs : List β) : Pointer β := ⟨xs, 0⟩

def read (p : Pointer β) (k : Int) : Except Exn β :=
  if p.offset + k < 0 then throw outside
  else match p.buffer[(p.offset + k).toNat]? with
    | some x => pure x
    | none => throw outside

/-- The elements lie one after the other. -/
def Flat (p : Pointer β) (xs : List β) : Prop := xs <+: p.buffer.drop p.offset

theorem flat_ofList (xs : List β) : (ofList xs).Flat xs := prefix_rfl

theorem Flat.read_eq {p : Pointer β} {xs : List β} (h : p.Flat xs) {k : ℕ} (hk : k < xs.length) :
    p.read k = .ok xs[k] := by
  obtain ⟨rest, hrest⟩ := h
  have hplace : p.buffer[p.offset + k]? = some xs[k] := by
    rw [← getElem?_drop, ← hrest, getElem?_append_left hk, getElem?_eq_getElem hk]
  have hnn : ¬ (p.offset + (k : Int) < 0) := by omega
  rw [read, if_neg hnn, ← Int.natCast_add, Int.toNat_natCast, hplace]
  rfl

end Pointer

/-- The arrays of a compressed tensor; in another layout only the values are there. -/
structure Buffers (α : Type) where
  ptr : Pointer Int
  idx : Pointer Int
  values : Pointer α

namespace Buffers

/-- The entries of a row from number `k` on. -/
def walkRow (b : Buffers α) (r : ℕ) (k : Int) : ℕ → Except Exn (List ((Int × Int) × α))
  | 0 => pure []
  | n + 1 => do
      let c ← b.idx.read k
      let v ← b.values.read k
      let rest ← walkRow b r (k + 1) n
      pure (((r, c), v) :: rest)

/-- The entries of the rows from `r` on. -/
def walk (b : Buffers α) (r : ℕ) : ℕ → Except Exn (List ((Int × Int) × α))
  | 0 => pure []
  | n + 1 => do
      let rowStart ← b.ptr.read r
      let rowEnd ← b.ptr.read (r + 1)
      let row ← b.walkRow r rowStart (rowEnd - rowStart).toNat
      let rest ← walk b (r + 1) n
      pure (row ++ rest)

/-- Arrays that have been allocated for the tensor. -/
def ofTensor (s : SparseTensor α) : Buffers α :=
  let values := .ofList s.values.data
  match s.storage with
  | .csr ptr idx | .csc ptr idx => ⟨.ofList ptr, .ofList idx, values⟩
  | _ => ⟨.ofList [], .ofList [], values⟩

end Buffers

/-- A sparse tensor with its buffers. -/
structure InMemory (α : Type) where
  tensor : SparseTensor α
  buffers : Buffers α

namespace InMemory

variable [AddCommMonoid α]

def allocated (s : SparseTensor α) : InMemory α := ⟨s, .ofTensor s⟩

/-- A new tensor that has been given the values of the old one. -/
def handOn (s : SparseTensor α) (values : Pointer α) : InMemory α :=
  ⟨s, { Buffers.ofTensor s with values }⟩

def coalesce (num : Arithmetic) (m : InMemory α) : Except Exn (InMemory α) := do
  let r ← m.tensor.coalesce num
  match m.tensor.storage with
  | .coo _ =>
    pure (if m.tensor.coalesced ∨ m.tensor.nnz = 0 then ⟨r, m.buffers⟩ else allocated r)
  | _ => pure ⟨r, m.buffers⟩

def cooToCsr (num : Arithmetic) (m : InMemory α) : Except Exn (InMemory α) := do
  let coo ← m.coalesce num
  let r ← m.tensor.cooToCsr num
  pure (if coo.tensor.nnz = 0 then allocated r else handOn r coo.buffers.values)

variable [DecidableEq α]

def toCoo (num : Arithmetic) (m : InMemory α) : Except Exn (InMemory α) := do
  let r ← m.tensor.toCoo num
  match m.tensor.storage with
  | .coo _ => pure ⟨r, m.buffers⟩
  | .bsr _ _ _ => pure (allocated r)
  | _ => pure (if m.tensor.nnz = 0 then allocated r else handOn r m.buffers.values)

def toCsr (num : Arithmetic) (m : InMemory α) : Except Exn (InMemory α) :=
  match m.tensor.storage with
  | .csr _ _ => pure m
  | .coo _ => m.cooToCsr num
  | _ => do
      let coo ← m.toCoo num
      coo.cooToCsr num

def toCsc (num : Arithmetic) (m : InMemory α) : Except Exn (InMemory α) := do
  let r ← m.tensor.toCsc num
  match m.tensor.storage with
  | .csc _ _ => pure ⟨r, m.buffers⟩
  | _ => pure (allocated r)

omit [DecidableEq α] in
theorem length_zeros (blockSize : Int × Int) :
    (List.replicate (blockSize.1.toNat * blockSize.2.toNat) (0 : α)).length =
      blockSize.1.toNat * blockSize.2.toNat := length_replicate

/-- Add an entry at its place in the values of all blocks. -/
def accumulate {blockSize : Int × Int} (nblockcols : Int)
    (blocks : List (SparseTensor.Block blockSize α))
    (e : (Int × Int) × α) : Except Exn (List (SparseTensor.Block blockSize α)) := do
  let br := e.1.1.tdiv blockSize.1
  let bc := e.1.2.tdiv blockSize.2
  let found := blocks.findIdx? fun b => b.row * nblockcols + b.col = br * nblockcols + bc
  let (blkIdx, blocks) : ℕ × List (SparseTensor.Block blockSize α) := match found with
    | some i => (i, blocks)
    | none => (blocks.length, blocks ++ [⟨br, bc, List.replicate _ 0, length_zeros blockSize⟩])
  let blockStride := blockSize.1 * blockSize.2
  let offset := blkIdx * blockStride + e.1.1.tmod blockSize.1 * blockSize.2 +
    e.1.2.tmod blockSize.2
  throwIf (inBounds offset (blocks.length * blockStride) = false) outside
  pure (blocks.modify (offset / blockStride).toNat fun b =>
    b.add (offset % blockStride).toNat e.2)

/-- The values are walked through as floats. -/
def Floats (m : InMemory α) : Prop :=
  m.tensor.values.dtype = .float32 ∨ m.tensor.values.dtype = .float64

instance (m : InMemory α) : Decidable m.Floats := inferInstanceAs (Decidable (_ ∨ _))

def csrToBsr (num : Arithmetic) (m : InMemory α) (blockSize : Int × Int) :
    Except Exn (InMemory α) :=
  match m.tensor.storage, m.tensor.shape with
  | .csr _ _, [nrows, ncols] => do
      if m.Floats then do
        throwIf (blockSize.1 ≤ 0 ∨ blockSize.2 ≤ 0)
          (.runtimeError "sparse_bsr: block_size must be positive")
        let nblockrows := blocksAlong nrows blockSize.1
        let nblockcols := blocksAlong ncols blockSize.2
        let entries ← m.buffers.walk 0 nrows.toNat
        let blocks ← entries.foldlM (accumulate nblockcols)
          ([] : List (SparseTensor.Block blockSize α))
        let r ← SparseTensor.ofBlocks m.tensor.values.dtype m.tensor.shape nblockrows
          (blocks.mergeSort fun a b => a.row < b.row || (a.row = b.row && a.col ≤ b.col))
        pure (allocated r)
      else do
        let r ← m.tensor.csrToBsr num blockSize
        pure (allocated r)
  | _, _ => throw (.runtimeError "to_bsr: only 2D sparse tensors supported")

def toBsr (num : Arithmetic) (m : InMemory α) (blockSize : Int × Int) :
    Except Exn (InMemory α) := do
  let convert := do
    let csr ← m.toCsr num
    csr.csrToBsr num blockSize
  match m.tensor.storage with
  | .bsr _ _ size => if size = blockSize then pure m else convert
  | _ => convert

def apply (num : Arithmetic) : Conversion → InMemory α → Except Exn (InMemory α)
  | .toCoo, m => m.toCoo num
  | .toCsr, m => m.toCsr num
  | .toCsc, m => m.toCsc num
  | .toBsr blockSize, m => m.toBsr num blockSize
  | .coalesce, m => m.coalesce num

def convert (num : Arithmetic) (chain : List Conversion) (m : InMemory α) :
    Except Exn (InMemory α) := chain.foldlM (fun m c => m.apply num c) m

end InMemory

/-! ## Arrays without gaps -/

namespace Buffers

variable {b : Buffers α} {crow col : List Int} {data : List α} {n : ℕ}

theorem walkRow_eq (hidx : b.idx.Flat col) (hvalues : b.values.Flat data) (r : ℕ) {k : ℕ}
    (hcol : k + n ≤ col.length) (hdata : k + n ≤ data.length) :
    b.walkRow r k n = .ok (((List.replicate n (r : Int)).zip ((col.drop k).take n)).zip
      ((data.drop k).take n)) := by
  induction n generalizing k with
  | zero => simp [walkRow, pure_eq_ok]
  | succ n ih =>
    have hc : k < col.length := by omega
    have hd : k < data.length := by omega
    rw [walkRow, hidx.read_eq hc, hvalues.read_eq hd, drop_eq_getElem_cons hc,
      drop_eq_getElem_cons hd, replicate_succ, take_succ_cons, take_succ_cons, zip_cons_cons,
      zip_cons_cons]
    have hrest := @ih (k + 1) (by omega) (by omega)
    rw [Int.natCast_add, Int.natCast_one] at hrest
    simp only [bind_eq_ok, Except.ok.injEq, exists_eq_left', hrest, pure_eq_ok]

/-- The rows from number `r` on. -/
theorem walk_drop (hptr : b.ptr.Flat crow) (hidx : b.idx.Flat col) (hvalues : b.values.Flat data)
    (hmono : crow.Pairwise (· ≤ ·)) (hbounds : ∀ x ∈ crow, 0 ≤ x ∧ x ≤ n) (hcol : col.length = n)
    (hdata : data.length = n) {r : ℕ} {start : Int} {rest : List Int}
    (hrows : crow.drop r = start :: rest) :
    b.walk r rest.length = .ok (((repeatInterleave ((range' r rest.length).map fun i : ℕ => (i : Int))
      (lens (start :: rest))).zip (col.drop start.toNat)).zip (data.drop start.toNat)) := by
  induction rest generalizing r start with
  | nil => simp [walk, pure_eq_ok, lens, repeatInterleave]
  | cons stop rest ih =>
    have hlen : crow.length = r + (rest.length + 2) := by
      have hlen := congrArg List.length hrows
      simp only [length_drop, length_cons] at hlen
      omega
    have hr : r < crow.length := by omega
    have hr' : r + 1 < crow.length := by omega
    have hnext : crow.drop (r + 1) = stop :: rest := by
      rw [← drop_drop, hrows, drop_one, tail_cons]
    have hstart : crow[r] = start := by
      rw [drop_eq_getElem_cons hr] at hrows
      exact (cons.inj hrows).1
    have hstop : crow[r + 1] = stop := by
      rw [drop_eq_getElem_cons hr'] at hnext
      exact (cons.inj hnext).1
    obtain ⟨hnn, -⟩ := hbounds start (hstart ▸ getElem_mem _)
    obtain ⟨-, htop⟩ := hbounds stop (hstop ▸ getElem_mem _)
    have hle : start ≤ stop := by
      have hpair := pairwise_iff_getElem.mp hmono r (r + 1) (by omega) (by omega) (by omega)
      rwa [hstart, hstop] at hpair
    have hrow := @walkRow_eq _ _ _ _ (stop - start).toNat hidx hvalues r start.toNat (by omega)
      (by omega)
    rw [Int.toNat_of_nonneg hnn] at hrow
    have hdrop : (data.drop start.toNat).drop (stop - start).toNat = data.drop stop.toNat := by
      rw [drop_drop]
      congr 1
      omega
    have hwidth : ((List.replicate (stop - start).toNat (r : Int)).zip
        ((col.drop start.toNat).take (stop - start).toNat)).length = (stop - start).toNat := by
      simp only [length_zip, length_replicate, length_take, length_drop]
      omega
    have hread := hptr.read_eq (k := r + 1) (by omega)
    rw [Int.natCast_add, Int.natCast_one, hstop] at hread
    rw [length_cons, range'_succ, map_cons, zip_repeatInterleave_cons _ _ _ _ hnn hle,
      zip_append_take, hwidth, hdrop, walk, hptr.read_eq (by omega), hstart, hread]
    simp only [bind_eq_ok, Except.ok.injEq, exists_eq_left', hrow, ih hnext, pure_eq_ok]

/-- A walk over arrays without gaps meets the entries of the tensor. -/
theorem walk_eq (hptr : b.ptr.Flat crow) (hidx : b.idx.Flat col) (hvalues : b.values.Flat data)
    (hvalid : ValidPointers crow n) (hcol : col.length = n) (hdata : data.length = n) :
    b.walk 0 (crow.length - 1) = .ok (((rowsOf crow).zip col).zip data) := by
  cases crow with
  | nil => cases hvalid.first
  | cons start rest =>
    obtain rfl : start = 0 := Option.some.inj hvalid.first
    have hbounds : ∀ x ∈ (0 : Int) :: rest, 0 ≤ x ∧ x ≤ n := by
      intro x hx
      constructor
      · rcases mem_cons.mp hx with rfl | hmem
        · exact le_rfl
        · exact (pairwise_cons.mp hvalid.nonDecreasing).1 x hmem
      · obtain ⟨init, hinit⟩ := getLast?_eq_some_iff.mp hvalid.last
        have hmono := hvalid.nonDecreasing
        rw [hinit] at hmono hx
        rcases mem_append.mp hx with hmem | hmem
        · exact (pairwise_append.mp hmono).2.2 x hmem _ (mem_singleton_self _)
        · exact (mem_singleton.mp hmem).le
    have hwalk := walk_drop hptr hidx hvalues hvalid.nonDecreasing hbounds hcol hdata drop_zero
    rw [rowsOf, length_lens, upTo, range_eq_range']
    exact hwalk

end Buffers

namespace InMemory

section Blocks

variable [AddCommMonoid α] {nrows ncols : Int} {blockSize : Int × Int}
  {blocks : List (SparseTensor.Block blockSize α)} {e : (Int × Int) × α}

/-- A place in a block, among the places of all blocks. -/
theorem place_spec {stride place : Int} (hplace : 0 ≤ place ∧ place < stride) {i count : ℕ}
    (hi : i < count) :
    inBounds (i * stride + place) (count * stride) = true ∧
      ((i * stride + place) / stride).toNat = i ∧ (i * stride + place) % stride = place := by
  have hstride : 0 < stride := by omega
  refine ⟨?_, ?_, ?_⟩
  · have hmul : ((i : Int) + 1) * stride ≤ count * stride :=
      mul_le_mul_of_nonneg_right (by omega) hstride.le
    rw [add_mul, one_mul] at hmul
    have hbase : 0 ≤ (i : Int) * stride := mul_nonneg (Int.natCast_nonneg i) hstride.le
    simp only [inBounds, decide_eq_true_eq]
    omega
  · rw [Int.mul_comm, Int.mul_add_ediv_left _ _ hstride.ne',
      Int.ediv_eq_zero_of_lt hplace.1 hplace.2, add_zero, Int.toNat_natCast]
  · rw [Int.mul_comm, Int.mul_add_emod_self_left, Int.emod_eq_of_lt hplace.1 hplace.2]

theorem place_bounds (hsize : 0 < blockSize.1 ∧ 0 < blockSize.2) (x y : Int) :
    0 ≤ x % blockSize.1 * blockSize.2 + y % blockSize.2 ∧
      x % blockSize.1 * blockSize.2 + y % blockSize.2 < blockSize.1 * blockSize.2 := by
  have hrow := Int.emod_nonneg x hsize.1.ne'
  have hrow' := Int.emod_lt_of_pos x hsize.1
  have hcol := Int.emod_nonneg y hsize.2.ne'
  have hcol' := Int.emod_lt_of_pos y hsize.2
  have hmul : (x % blockSize.1 + 1) * blockSize.2 ≤ blockSize.1 * blockSize.2 :=
    mul_le_mul_of_nonneg_right (by omega) hsize.2.le
  rw [add_mul, one_mul] at hmul
  refine ⟨add_nonneg (mul_nonneg hrow hsize.2.le) hcol, ?_⟩
  omega

/-- An entry of the matrix is added inside its block. -/
theorem accumulate_eq (hsize : 0 < blockSize.1 ∧ 0 < blockSize.2) (nblockcols : Int)
    (he : Inside nrows ncols e.1) :
    accumulate nblockcols blocks e = .ok (SparseTensor.accumulate nblockcols blocks e) := by
  have hbounds := place_bounds hsize e.1.1 e.1.2
  simp only [accumulate, SparseTensor.accumulate, Int.tdiv_eq_ediv_of_nonneg he.1.1,
    Int.tdiv_eq_ediv_of_nonneg he.2.1, Int.tmod_eq_emod_of_nonneg he.1.1,
    Int.tmod_eq_emod_of_nonneg he.2.1, add_assoc]
  cases hfound : blocks.findIdx? fun b => b.row * nblockcols + b.col =
      e.1.1 / blockSize.1 * nblockcols + e.1.2 / blockSize.2 with
  | some i =>
    obtain ⟨hi, -⟩ := findIdx?_eq_some_iff_getElem.mp hfound
    obtain ⟨hbound, hdiv, hmod⟩ := place_spec hbounds hi
    simp only [hbound, hdiv, hmod, Bool.true_eq_false, throwIf_of_not not_false]
    rfl
  | none =>
    obtain ⟨hbound, hdiv, hmod⟩ := place_spec hbounds (Nat.lt_succ_self blocks.length)
    rw [Nat.succ_eq_add_one] at hbound
    simp only [length_append, length_singleton, hbound, hdiv, hmod, Bool.true_eq_false,
      throwIf_of_not not_false]
    refine congrArg Except.ok ?_
    rw [modify_eq_take_cons_drop (by simp), take_left, getElem_append_right le_rfl,
      drop_eq_nil_of_le (by simp)]
    simp only [Nat.sub_self, getElem_cons_zero]

theorem foldlM_accumulate (hsize : 0 < blockSize.1 ∧ 0 < blockSize.2) (nblockcols : Int)
    {entries : List ((Int × Int) × α)} (hin : ∀ e ∈ entries, Inside nrows ncols e.1) :
    entries.foldlM (accumulate nblockcols) blocks =
      .ok (entries.foldl (SparseTensor.accumulate nblockcols) blocks) := by
  induction entries generalizing blocks with
  | nil => rfl
  | cons e entries ih =>
    obtain ⟨he, hrest⟩ := forall_mem_cons.mp hin
    rw [foldlM_cons, accumulate_eq hsize nblockcols he]
    exact ih hrest

end Blocks

section Conversions

variable [AddCommMonoid α] {num : Arithmetic} {nrows ncols : Int} {m r : InMemory α}
  {s : SparseTensor α}

/-! ### The tensors -/

theorem coalesce_tensor (h : m.coalesce num = .ok r) : m.tensor.coalesce num = .ok r.tensor := by
  obtain ⟨s, hs, h⟩ := bind_eq_ok.mp h
  rw [hs]
  split at h
  · obtain rfl := pure_eq_ok.mp h
    split <;> rfl
  · obtain rfl := pure_eq_ok.mp h
    rfl

theorem cooToCsr_tensor (h : m.cooToCsr num = .ok r) : m.tensor.cooToCsr num = .ok r.tensor := by
  obtain ⟨coo, -, h⟩ := bind_eq_ok.mp h
  obtain ⟨s, hs, h⟩ := bind_eq_ok.mp h
  obtain rfl := pure_eq_ok.mp h
  rw [hs]
  split <;> rfl

variable [DecidableEq α]

theorem toCoo_tensor (h : m.toCoo num = .ok r) : m.tensor.toCoo num = .ok r.tensor := by
  obtain ⟨s, hs, h⟩ := bind_eq_ok.mp h
  rw [hs]
  split at h
  · obtain rfl := pure_eq_ok.mp h
    rfl
  · obtain rfl := pure_eq_ok.mp h
    rfl
  · obtain rfl := pure_eq_ok.mp h
    split <;> rfl

theorem toCsr_tensor (h : m.toCsr num = .ok r) : m.tensor.toCsr num = .ok r.tensor := by
  unfold toCsr at h
  unfold SparseTensor.toCsr
  cases hstore : m.tensor.storage with
  | coo indices =>
    rw [hstore] at h
    exact cooToCsr_tensor h
  | csr crow col =>
    rw [hstore] at h
    obtain rfl := pure_eq_ok.mp h
    rfl
  | csc ccol row =>
    rw [hstore] at h
    obtain ⟨coo, hcoo, h⟩ := bind_eq_ok.mp h
    exact bind_eq_ok.mpr ⟨coo.tensor, toCoo_tensor hcoo, cooToCsr_tensor h⟩
  | bsr rowPtr colInd blockSize =>
    rw [hstore] at h
    obtain ⟨coo, hcoo, h⟩ := bind_eq_ok.mp h
    exact bind_eq_ok.mpr ⟨coo.tensor, toCoo_tensor hcoo, cooToCsr_tensor h⟩

theorem toCsc_tensor (h : m.toCsc num = .ok r) : m.tensor.toCsc num = .ok r.tensor := by
  obtain ⟨s, hs, h⟩ := bind_eq_ok.mp h
  rw [hs]
  split at h <;> obtain rfl := pure_eq_ok.mp h <;> rfl

/-! ### The arrays -/

/-- The arrays that `to_bsr` walks through, or that a conversion hands on to it, have no gaps. -/
def Laid (m : InMemory α) : Prop :=
  match m.tensor.storage with
  | .csr crow col => ValidPointers crow m.tensor.nnz ∧ m.buffers.ptr.Flat crow ∧
      m.buffers.idx.Flat col ∧ m.buffers.values.Flat m.tensor.values.data
  | .coo _ => m.tensor.coalesced = true → m.tensor.nnz ≠ 0 →
      m.buffers.values.Flat m.tensor.values.data
  | _ => True

omit [AddCommMonoid α] [DecidableEq α] in
theorem laid_handOn {p : Pointer α}
    (hrows : ∀ crow col, s.storage = .csr crow col → ValidPointers crow s.nnz)
    (hflat : p.Flat s.values.data) : (handOn s p).Laid := by
  unfold Laid handOn Buffers.ofTensor
  cases hstore : s.storage with
  | coo indices => exact fun _ _ => hflat
  | csr crow col =>
    exact ⟨hrows crow col hstore, Pointer.flat_ofList crow, Pointer.flat_ofList col, hflat⟩
  | csc ccol row => trivial
  | bsr rowPtr colInd blockSize => trivial

omit [AddCommMonoid α] [DecidableEq α] in
theorem laid_allocated
    (hrows : ∀ crow col, s.storage = .csr crow col → ValidPointers crow s.nnz) :
    (allocated s).Laid := by
  have hnew : allocated s = handOn s (.ofList s.values.data) := by
    unfold allocated handOn Buffers.ofTensor
    cases s.storage <;> rfl
  rw [hnew]
  exact laid_handOn hrows (Pointer.flat_ofList _)

omit [DecidableEq α] in
theorem Laid.coalesce (hm : m.Laid) (h : m.coalesce num = .ok r) : r.Laid := by
  obtain ⟨s, hs, h⟩ := bind_eq_ok.mp h
  rcases SparseTensor.coalesce_ok hs with ⟨rfl, hkept⟩ | ⟨indices, hstore, hzero, rfl⟩ |
    ⟨indices, result, hstore, hflag, hpos, -, hresult, rfl⟩
  · split at h
    next indices hstore =>
      have hflag := hkept.resolve_left fun hnot => hnot indices hstore
      rw [if_pos (.inl hflag)] at h
      exact pure_eq_ok.mp h ▸ hm
    next => exact pure_eq_ok.mp h ▸ hm
  · rw [hstore] at h
    obtain rfl := pure_eq_ok.mp h
    rw [if_pos (.inr hzero)]
    simp only [Laid, hzero, ne_eq, not_true_eq_false, false_implies, implies_true]
  · rw [hstore] at h
    obtain rfl := pure_eq_ok.mp h
    rw [if_neg (by simp [hflag, hpos])]
    obtain ⟨hof, -⟩ := sparseCoo_ok hresult
    refine laid_allocated fun crow col hcsr => ?_
    cases hof.storage.symm.trans hcsr

omit [DecidableEq α] in
theorem Laid.cooToCsr (hm : m.Laid) (h : m.cooToCsr num = .ok r) : r.Laid := by
  obtain ⟨coo, hcoo, h⟩ := bind_eq_ok.mp h
  obtain ⟨s, hs, h⟩ := bind_eq_ok.mp h
  obtain rfl := pure_eq_ok.mp h
  have hrows : ∀ crow col, s.storage = .csr crow col → ValidPointers crow s.nnz := by
    intro crow col hstore
    have hrep := SparseTensor.represents_cooToCsr hs
    rwa [SparseTensor.Represents, hstore] at hrep
  split
  next => exact laid_allocated hrows
  next hpos =>
    have hlaid := hm.coalesce hcoo
    have htensor := coalesce_tensor hcoo
    refine laid_handOn hrows ?_
    unfold SparseTensor.cooToCsr at hs
    split at hs
    next =>
      rw [htensor] at hs
      obtain ⟨coo', hcoo', hs⟩ := bind_eq_ok.mp hs
      obtain rfl := Except.ok.inj hcoo'
      split at hs
      next indices hstore =>
        rw [if_neg hpos] at hs
        obtain ⟨-, -, hs⟩ := bind_eq_ok.mp hs
        obtain ⟨counts, -, hs⟩ := bind_eq_ok.mp hs
        obtain ⟨_, _, -, hof, -⟩ := sparseCsr_ok hs
        rw [hof.values]
        rw [Laid, hstore] at hlaid
        refine hlaid ?_ hpos
        rcases SparseTensor.coalesce_ok htensor with ⟨heq, hkept⟩ | ⟨_, -, -, heq⟩ |
          ⟨_, _, -, -, -, -, -, heq⟩
        · refine (congrArg SparseTensor.coalesced heq).trans (hkept.resolve_left fun hnot => ?_)
          exact hnot indices (heq ▸ hstore)
        · rw [heq]
        · rw [heq]
      next => cases hs
    next => cases hs

theorem Laid.toCoo (hvalid : SparseTensor.Valid nrows ncols m.tensor) (hm : m.Laid)
    (h : m.toCoo exact = .ok r) : r.Laid := by
  obtain ⟨s, hs, h⟩ := bind_eq_ok.mp h
  obtain ⟨hsame, indices, hcoo⟩ := SparseTensor.toCoo_sameMatrix hvalid hs
  have hrows : ∀ crow col, s.storage = .csr crow col → ValidPointers crow s.nnz := by
    intro crow col hcsr
    cases hcoo.symm.trans hcsr
  cases hstore : m.tensor.storage with
  | coo indices =>
    rw [hstore] at h
    obtain rfl := pure_eq_ok.mp h
    simp only [SparseTensor.toCoo, hstore] at hs
    exact pure_eq_ok.mp hs ▸ hm
  | csr crow col =>
    rw [hstore] at h
    obtain rfl := pure_eq_ok.mp h
    split
    next => exact laid_allocated hrows
    next hpos =>
      refine laid_handOn hrows ?_
      simp only [SparseTensor.toCoo, hstore, hvalid.1, if_neg hpos, bind_eq_ok, pure_eq_ok] at hs
      obtain ⟨rows, -, -, -, result, hresult, rfl⟩ := hs
      rw [Laid, hstore] at hm
      obtain ⟨hof, -⟩ := sparseCoo_ok hresult
      rw [hof.values]
      exact hm.2.2.2
  | csc ccol row =>
    rw [hstore] at h
    obtain rfl := pure_eq_ok.mp h
    split
    next => exact laid_allocated hrows
    next hpos =>
      simp only [SparseTensor.toCoo, hstore, hvalid.1, if_neg hpos, bind_eq_ok, pure_eq_ok] at hs
      obtain ⟨cols, -, -, -, result, hresult, rfl⟩ := hs
      simp only [Laid, handOn, hcoo, Bool.false_eq_true, false_implies]
  | bsr rowPtr colInd blockSize =>
    rw [hstore] at h
    obtain rfl := pure_eq_ok.mp h
    exact laid_allocated hrows

theorem Laid.toCsr (hvalid : SparseTensor.Valid nrows ncols m.tensor) (hm : m.Laid)
    (h : m.toCsr exact = .ok r) : r.Laid := by
  unfold InMemory.toCsr at h
  split at h
  next => exact pure_eq_ok.mp h ▸ hm
  next => exact hm.cooToCsr h
  next =>
    obtain ⟨coo, hcoo, h⟩ := bind_eq_ok.mp h
    exact (hm.toCoo hvalid hcoo).cooToCsr h

theorem Laid.toCsc (h : m.toCsc num = .ok r) : r.Laid := by
  obtain ⟨s, hs, h⟩ := bind_eq_ok.mp h
  have hrows (hm : ∀ ccol row, m.tensor.storage ≠ .csc ccol row) : s.Represents := by
    unfold SparseTensor.toCsc at hs
    split at hs
    next ccol row hstore => exact absurd hstore (hm ccol row)
    next => exact SparseTensor.represents_cooToCsc hs
    next =>
      obtain ⟨coo, -, hs⟩ := bind_eq_ok.mp hs
      exact SparseTensor.represents_cooToCsc hs
  split at h
  next ccol row hstore =>
    obtain rfl := pure_eq_ok.mp h
    simp only [SparseTensor.toCsc, hstore] at hs
    obtain rfl := pure_eq_ok.mp hs
    simp only [Laid, hstore]
  next hnot =>
    obtain rfl := pure_eq_ok.mp h
    refine laid_allocated fun crow col hcsr => ?_
    have hrep := hrows hnot
    rwa [SparseTensor.Represents, hcsr] at hrep

/-! ### Blocks -/

variable {blockSize : Int × Int}

/-- A walk through arrays without gaps makes the blocks of the tensor. -/
theorem csrToBsr_tensor (hvalid : SparseTensor.Valid nrows ncols m.tensor)
    (hm : m.Floats → m.Laid) (h : m.csrToBsr exact blockSize = .ok r) :
    m.tensor.csrToBsr exact blockSize = .ok r.tensor := by
  unfold InMemory.csrToBsr at h
  split at h
  next crow col nrows' ncols' hstore hshape =>
    rw [hvalid.1] at hshape
    obtain ⟨rfl, rfl⟩ : nrows = nrows' ∧ ncols = ncols' := by simpa using hshape
    have hcompressed : SparseTensor.Compressed crow col nrows ncols m.tensor := by
      have h := hvalid.2
      rwa [hstore] at h
    split at h
    next hfloat =>
      obtain ⟨_, hsize, h⟩ := bind_eq_ok.mp h
      obtain ⟨entries, hwalk, h⟩ := bind_eq_ok.mp h
      obtain ⟨blocks, hblocks, h⟩ := bind_eq_ok.mp h
      obtain ⟨s, hs, h⟩ := bind_eq_ok.mp h
      obtain rfl := pure_eq_ok.mp h
      have hpos := throwIf_eq_ok.mp hsize
      rw [not_or, not_le, not_le] at hpos
      have hlaid := hm hfloat
      rw [Laid, hstore] at hlaid
      obtain ⟨hptr, hcrow, hcol, hvalues⟩ := hlaid
      have hlen : nrows.toNat = crow.length - 1 := by
        have hlen := hcompressed.length_ptr
        omega
      rw [hlen, Buffers.walk_eq hcrow hcol hvalues hptr hcompressed.length_idx
        hcompressed.nnz.symm, Except.ok.injEq] at hwalk
      have hentries : entries = m.tensor.entries := by
        rw [← hwalk, SparseTensor.entries, hstore, Storage.places]
      rw [hentries, foldlM_accumulate hpos _ (hcompressed.entries_inside hstore),
        Except.ok.injEq] at hblocks
      have hrows := length_rowsOf hptr
      have henough : ¬ (col.length < (rowsOf crow).length ∨
          m.tensor.values.data.length < (rowsOf crow).length) := by
        rw [hrows, hcompressed.length_idx, ← hcompressed.nnz]
        simp
      simp only [SparseTensor.csrToBsr, hstore, hvalid.1]
      rw [hvalid.1] at hs
      refine bind_eq_ok.mpr ⟨_, hsize, ?_⟩
      have hdtype : m.tensor.values.dtype = .float32 ∨ m.tensor.values.dtype = .float64 := hfloat
      rw [if_pos hdtype]
      refine bind_eq_ok.mpr ⟨_, SparseTensor.expand_eq hcompressed.length_ptr hptr, ?_⟩
      refine bind_eq_ok.mpr ⟨(), throwIf_eq_ok.mpr henough, ?_⟩
      rw [hwalk, hentries, hblocks]
      exact hs
    next =>
      obtain ⟨s, hs, h⟩ := bind_eq_ok.mp h
      obtain rfl := pure_eq_ok.mp h
      exact hs
  next => cases h

omit [AddCommMonoid α] [DecidableEq α] in
theorem laid_ofBlocks {dtype : DType} {nblockrows : Int} {blocks : List (SparseTensor.Block blockSize α)}
    (h : SparseTensor.ofBlocks dtype [nrows, ncols] nblockrows blocks = .ok s) :
    (allocated s).Laid := by
  simp only [SparseTensor.ofBlocks, bind_eq_ok] at h
  obtain ⟨-, -, -, -, h⟩ := h
  refine laid_allocated fun crow col hcsr => ?_
  cases (SparseTensor.sparseBsr_ok h).1.symm.trans hcsr

/-- Whatever it walks through, `to_bsr` makes new arrays. -/
theorem laid_csrToBsr (hshape : m.tensor.shape = [nrows, ncols])
    (h : m.csrToBsr num blockSize = .ok r) : r.Laid := by
  unfold InMemory.csrToBsr at h
  rw [hshape] at h
  split at h
  next =>
    split at h
    next =>
      obtain ⟨_, -, h⟩ := bind_eq_ok.mp h
      obtain ⟨entries, -, h⟩ := bind_eq_ok.mp h
      obtain ⟨blocks, -, h⟩ := bind_eq_ok.mp h
      obtain ⟨s, hs, h⟩ := bind_eq_ok.mp h
      obtain rfl := pure_eq_ok.mp h
      exact laid_ofBlocks hs
    next =>
      obtain ⟨s, hs, h⟩ := bind_eq_ok.mp h
      obtain rfl := pure_eq_ok.mp h
      unfold SparseTensor.csrToBsr at hs
      rw [hshape] at hs
      split at hs
      next =>
        obtain ⟨_, -, hs⟩ := bind_eq_ok.mp hs
        split at hs
        next =>
          obtain ⟨rows, -, hs⟩ := bind_eq_ok.mp hs
          obtain ⟨_, -, hs⟩ := bind_eq_ok.mp hs
          exact laid_ofBlocks hs
        next =>
          obtain ⟨dense, -, hs⟩ := bind_eq_ok.mp hs
          obtain ⟨_, -, hs⟩ := bind_eq_ok.mp hs
          exact laid_ofBlocks hs
      next => cases hs
  next => cases h

theorem toBsr_tensor (hvalid : SparseTensor.Valid nrows ncols m.tensor)
    (hm : m.Floats → m.Laid) (h : m.toBsr exact blockSize = .ok r) :
    m.tensor.toBsr exact blockSize = .ok r.tensor ∧ (m.Floats → r.Laid) := by
  have hvia : (m.toCsr exact >>= fun csr => csr.csrToBsr exact blockSize) = .ok r →
      (m.tensor.toCsr exact >>= fun csr => csr.csrToBsr exact blockSize) = .ok r.tensor ∧
        (m.Floats → r.Laid) := by
    intro h
    obtain ⟨csr, hcsr, h⟩ := bind_eq_ok.mp h
    have hsame := SparseTensor.toCsr_sameMatrix hvalid (toCsr_tensor hcsr)
    have hfloat : csr.Floats → m.Floats := by
      unfold Floats
      rw [hsame.dtype]
      exact id
    have hlaid : csr.Floats → csr.Laid := fun hf => (hm (hfloat hf)).toCsr hvalid hcsr
    exact ⟨bind_eq_ok.mpr ⟨_, toCsr_tensor hcsr, csrToBsr_tensor hsame.valid hlaid h⟩,
      fun _ => laid_csrToBsr hsame.valid.1 h⟩
  unfold InMemory.toBsr at h
  unfold SparseTensor.toBsr
  revert h
  cases m.tensor.storage with
  | bsr rowPtr colInd size =>
    intro h
    dsimp only at h ⊢
    by_cases hkept : size = blockSize
    · rw [if_pos hkept] at h ⊢
      obtain rfl := pure_eq_ok.mp h
      exact ⟨rfl, hm⟩
    · rw [if_neg hkept] at h ⊢
      exact hvia h
  | coo => exact hvia
  | csr => exact hvia
  | csc => exact hvia

/-! ### Chains -/

variable {c : Conversion} {chain : List Conversion}

theorem apply_tensor (hvalid : SparseTensor.Valid nrows ncols m.tensor)
    (hm : m.Floats → m.Laid) (h : m.apply exact c = .ok r) :
    c.apply exact m.tensor = .ok r.tensor ∧ (m.Floats → r.Laid) := by
  cases c with
  | toCoo => exact ⟨toCoo_tensor h, fun hf => (hm hf).toCoo hvalid h⟩
  | toCsr => exact ⟨toCsr_tensor h, fun hf => (hm hf).toCsr hvalid h⟩
  | toCsc => exact ⟨toCsc_tensor h, fun _ => Laid.toCsc h⟩
  | toBsr blockSize => exact toBsr_tensor hvalid hm h
  | coalesce => exact ⟨coalesce_tensor h, fun hf => (hm hf).coalesce h⟩

/-- What a chain keeps: the matrix, and arrays without gaps where `to_bsr` would walk. -/
structure Kept (nrows ncols : Int) (m r : InMemory α) : Prop where
  same : SparseTensor.SameMatrix nrows ncols m.tensor r.tensor
  laid : m.Floats → r.Laid

theorem convert_kept (hvalid : SparseTensor.Valid nrows ncols m.tensor) (hm : m.Floats → m.Laid)
    (h : m.convert exact chain = .ok r) : Kept nrows ncols m r := by
  refine foldlM_invariant (Kept nrows ncols m) (fun b c b' hb hc => ?_) h ⟨.refl hvalid, hm⟩
  have hfloat : b.Floats → m.Floats := by
    unfold Floats
    rw [hb.same.dtype]
    exact id
  obtain ⟨htensor, hlaid⟩ := apply_tensor hb.same.valid (fun hf => hb.laid (hfloat hf)) hc
  refine ⟨hb.same.trans (SparseTensor.apply_sameMatrix hb.same.valid htensor), fun hf => hlaid ?_⟩
  unfold Floats
  rw [hb.same.dtype]
  exact hf

/-- A tensor that lacks values stays as it is. -/
theorem short_apply {indices : Indices} (hm : SparseTensor.Short indices m.tensor)
    (h : m.apply exact c = .ok r) : r.tensor = m.tensor := by
  cases c with
  | toCoo => exact hm.apply_eq (c := .toCoo) (toCoo_tensor h)
  | toCsr => exact hm.apply_eq (c := .toCsr) (toCsr_tensor h)
  | toCsc => exact hm.apply_eq (c := .toCsc) (toCsc_tensor h)
  | toBsr blockSize =>
    simp only [apply, toBsr, hm.storage] at h
    obtain ⟨csr, hcsr, -⟩ := bind_eq_ok.mp h
    exact absurd (toCsr_tensor hcsr) hm.toCsr_throws
  | coalesce => exact hm.apply_eq (c := .coalesce) (coalesce_tensor h)

theorem short_convert {indices : Indices} (hm : SparseTensor.Short indices m.tensor)
    (h : m.convert exact chain = .ok r) : r.tensor = m.tensor :=
  foldlM_invariant (fun r : InMemory α => r.tensor = m.tensor) (fun b _ _ hb hc => by
    rw [← hb] at hm ⊢
    exact short_apply hm hc) h rfl

/-- The arrays that the constructor was given have no gaps. -/
def NoGaps (m : InMemory α) : Prop :=
  ∀ crow col, m.tensor.storage = .csr crow col →
    m.buffers.ptr.Flat crow ∧ m.buffers.idx.Flat col ∧ m.buffers.values.Flat m.tensor.values.data

omit [AddCommMonoid α] [DecidableEq α] in
theorem laid_of_noGaps (hs : SparseTensor.Accepted nrows ncols m.tensor) (hm : m.NoGaps) :
    m.Laid := by
  unfold Laid
  cases hs with
  | coo indices values h =>
    obtain ⟨hof, -⟩ := sparseCoo_ok h
    rw [hof.storage]
    exact fun hflag => absurd (hof.coalesced.symm.trans hflag) Bool.false_ne_true
  | csr crow col values h =>
    obtain ⟨_, _, -, hof, hcheck⟩ := sparseCsr_ok h
    rw [hof.storage]
    exact ⟨(hcheck rfl).1, hm crow col hof.storage⟩
  | csc ccol row values h =>
    obtain ⟨_, _, -, hof, -⟩ := sparseCsc_ok h
    rw [hof.storage]
    trivial
  | bsr rowPtr colInd values blockSize h =>
    rw [(SparseTensor.sparseBsr_ok h).1]
    trivial

/-- The dense tensor outlives every chain of conversions, and transposes with the tensor, unless
`to_bsr` would walk through a gap. -/
theorem toDense_convert (hs : SparseTensor.Accepted nrows ncols m.tensor)
    (hgaps : m.Floats → m.NoGaps) (h : m.convert exact chain = .ok r) :
    r.tensor.toDense exact = m.tensor.toDense exact ∧
      ∀ t, r.tensor.transpose exact = .ok t →
        t.toDense exact = transposed nrows ncols <$> m.tensor.toDense exact := by
  rcases hs.valid_or_short with hvalid | ⟨indices, hshort⟩
  · have hsame := (convert_kept hvalid (fun hf => laid_of_noGaps hs (hgaps hf)) h).same
    exact ⟨hsame.toDense_eq hvalid, fun t ht =>
      (hsame.transposed (SparseTensor.transpose_spec hsame.valid ht)).toDense_eq hvalid⟩
  · have hkept := short_convert hshort h
    rw [hkept]
    exact ⟨rfl, fun t ht => absurd ht hshort.transpose_throws⟩

/-- A walk whose entries are all in one block. -/
theorem toBsr_single {crow col : List Int} {entries : List ((Int × Int) × α)}
    {b : SparseTensor.Block blockSize α} (hstore : m.tensor.storage = .csr crow col)
    (hshape : m.tensor.shape = [nrows, ncols]) (hfloat : m.Floats)
    (hsize : ¬ (blockSize.1 ≤ 0 ∨ blockSize.2 ≤ 0))
    (hwalk : m.buffers.walk 0 nrows.toNat = .ok entries)
    (hblock : entries.foldlM (accumulate (blocksAlong ncols blockSize.2)) [] = .ok [b])
    (hs : SparseTensor.ofBlocks m.tensor.values.dtype m.tensor.shape
      (blocksAlong nrows blockSize.1) [b] = .ok s) :
    m.toBsr num blockSize = .ok (allocated s) := by
  simp only [toBsr, toCsr, hstore]
  refine bind_eq_ok.mpr ⟨m, rfl, ?_⟩
  simp only [csrToBsr, hstore, hshape]
  rw [if_pos hfloat]
  refine bind_eq_ok.mpr ⟨(), throwIf_eq_ok.mpr hsize, bind_eq_ok.mpr ⟨entries, hwalk, ?_⟩⟩
  refine bind_eq_ok.mpr ⟨[b], hblock, bind_eq_ok.mpr ⟨s, ?_, rfl⟩⟩
  rw [mergeSort_singleton, ← hshape]
  exact hs

/-- Two entries at one place, in a row whose columns are out of order. -/
def unsorted : InMemory Int where
  tensor :=
    { storage := .csr [0, 3, 4] [1, 0, 1, 1]
      shape := [2, 2]
      values := .ofList .float32 [5, 7, 7, 3]
      nnz := 4
      denseDim := 0
      coalesced := true }
  buffers := ⟨⟨[0, 3, 4], 0⟩, ⟨[9, 1, 0, 1, 1], 1⟩, ⟨[5, 7, 7, 3], 0⟩⟩

theorem toDense_convert_unsorted :
    ∃ r, unsorted.convert exact [.toBsr (2, 2), .toCoo] = .ok r ∧
      r.tensor.toDense exact = .ok [7, 12, 0, 3] ∧
      ∀ t, r.tensor.transpose exact = .ok t → t.toDense exact = .ok [7, 0, 12, 3] := by
  have hs : SparseTensor.Accepted 2 2 unsorted.tensor :=
    .csr [0, 3, 4] [1, 0, 1, 1] (.ofList .float32 [5, 7, 7, 3]) rfl
  have hgaps : unsorted.NoGaps := by
    intro crow col hstore
    obtain ⟨rfl, rfl⟩ := Storage.csr.inj hstore
    refine ⟨?_, ?_, ?_⟩ <;> exact prefix_rfl
  have hdense : unsorted.tensor.toDense exact = .ok [7, 12, 0, 3] := rfl
  have hblock : [((0, 1), 5), ((0, 0), 7), ((0, 1), 7), ((1, 1), 3)].foldlM (accumulate 1) [] =
    .ok [(⟨0, 0, [7, 12, 0, 3], rfl⟩ : SparseTensor.Block (2, 2) Int)] := rfl
  have hbsr : unsorted.toBsr exact (2, 2) = .ok _ :=
    toBsr_single rfl rfl (.inl rfl) (by decide) rfl hblock rfl
  have hchain : unsorted.convert exact [.toBsr (2, 2), .toCoo] = .ok _ :=
    foldlM_cons_eq_ok.mpr ⟨_, hbsr, rfl⟩
  refine ⟨_, hchain, ?_⟩
  obtain ⟨hkept, htransposed⟩ := toDense_convert hs (fun _ => hgaps) hchain
  refine ⟨hkept.trans hdense, fun t ht => (htransposed t ht).trans ?_⟩
  rfl

/-- The values are every other number of 1, 9, 2 and 9. -/
def stepped : InMemory Int where
  tensor :=
    { storage := .csr [0, 1, 2] [0, 1]
      shape := [2, 2]
      values := .ofList .float32 [1, 2]
      nnz := 2
      denseDim := 0
      coalesced := true }
  buffers := ⟨⟨[0, 1, 2], 0⟩, ⟨[0, 1], 0⟩, ⟨[1, 9, 2, 9], 0⟩⟩

/-- `to_bsr` takes what lies between two values for a value. -/
theorem not_toDense_convert_stepped :
    SparseTensor.Accepted 2 2 stepped.tensor ∧
      stepped.tensor.toDense exact = .ok [1, 0, 0, 2] ∧
      ∃ r, stepped.convert exact [.toBsr (2, 2)] = .ok r ∧
        r.tensor.toDense exact = .ok [1, 0, 0, 9] := by
  have hblock : [((0, 0), 1), ((1, 1), 9)].foldlM (accumulate 1) [] =
    .ok [(⟨0, 0, [1, 0, 0, 9], rfl⟩ : SparseTensor.Block (2, 2) Int)] := rfl
  have hbsr : stepped.toBsr exact (2, 2) = .ok _ :=
    toBsr_single rfl rfl (.inl rfl) (by decide) rfl hblock rfl
  have hchain : stepped.convert exact [.toBsr (2, 2)] = .ok _ :=
    foldlM_cons_eq_ok.mpr ⟨_, hbsr, rfl⟩
  exact ⟨.csr [0, 1, 2] [0, 1] (.ofList .float32 [1, 2]) rfl, rfl, _, hchain, rfl⟩

end Conversions

end InMemory

end Tenzor.Sparse
