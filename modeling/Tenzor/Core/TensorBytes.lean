import Tenzor.Core.Quantization
import Tenzor.Lib.AxisBlocks

/-!
# The bytes of a tensor

A tensor is written as its elements in row-major order, through a contiguous copy when it is
a strided view, and read into a tensor on a storage of its own.

## Implementation notes

The tensor is on the CPU, and the bytes of every storage are given by their addresses.
-/

namespace Tenzor

variable {source : Int → Int}

open Throwing Wrap64 Strided

/-- The bytes of every storage, by storage and address. -/
abbrev Bytes := ℕ → Int → UInt8

/-- The bytes of an element of a storage. -/
def elementBytes (mem : Bytes) (t : TensorImpl) (e : Int) : List UInt8 :=
  (List.range (dtypeSize t.dtype)).map fun k : ℕ => mem t.storage.id (e * dtypeSize t.dtype + k)

/-- The bytes of `n` elements, from the element that each position takes. -/
def tensorData (mem : Bytes) (t : TensorImpl) (n : Int) (source : Int → Int) : List UInt8 :=
  (List.range n.toNat).flatMap fun i : ℕ => elementBytes mem t (source i)

/-- `contiguous()`: the tensor itself, or a copy. The second component gives the element that each
position takes. -/
def TensorImpl.contiguous (t : TensorImpl) : Except Exn (TensorImpl × (Int → Int)) := do
  let contiguous ← t.isContiguous
  if contiguous then return (t, fun i => t.offset + i)
  else do
    let copy ← allocate t.storage.id t.shape t.dtype
    return (copy, t.contiguousSource)

/-- A tensor that has been read, with the contents of its storage. -/
structure LoadedTensor where
  impl : TensorImpl
  data : List UInt8

/-- The bytes of the element at a multi-index. -/
def LoadedTensor.element (l : LoadedTensor) (idx : List Int) : List UInt8 :=
  AxisBlocks.block (dtypeSize l.impl.dtype) (l.impl.addr idx).toNat l.data

/-- A loaded tensor has the type, the shape and the elements of the tensor that was written. -/
structure SameTensor (mem : Bytes) (t : TensorImpl) (l : LoadedTensor) : Prop where
  dtype : l.impl.dtype = t.dtype
  shape : l.impl.shape = t.shape
  elements : ∀ idx, Within idx t.shape → l.element idx = elementBytes mem t (t.addr idx)

@[simp] theorem length_elementBytes (mem : Bytes) (t : TensorImpl) (e : Int) :
    (elementBytes mem t e).length = dtypeSize t.dtype := by
  rw [elementBytes, List.length_map, List.length_range]

theorem length_tensorData (mem : Bytes) (t : TensorImpl) (n : Int) (source : Int → Int) :
    (tensorData mem t n source).length = n.toNat * dtypeSize t.dtype :=
  AxisBlocks.length_flatMap_range fun _ _ => length_elementBytes ..

variable {t : TensorImpl}

theorem prod_le_storageElements (hwf : t.WellFormed) (hb : t.InBounds)
    (hc : t.strides = rowMajor t.shape) (hpos : 0 < t.shape.prod) :
    t.shape.prod ≤ t.storageElements := by
  have hdims := pos_of_prod_pos hwf.nonneg hpos
  have hat : ∀ k, 0 ≤ k → k < t.shape.prod → t.addr (unravel t.shape k) = t.offset + k :=
    fun k hk hlt => by rw [TensorImpl.addr, hc, dot_unravel hdims, Int.emod_eq_of_lt hk hlt]
  have hfirst := hb _ (within_unravel hdims 0)
  have hlast := hb _ (within_unravel hdims (t.shape.prod - 1))
  rw [hat 0 (by omega) hpos] at hfirst
  rw [hat _ (by omega) (by omega)] at hlast
  omega

/-- The copy keeps the type and the shape, takes the elements in row-major order and has a size
that can be allocated again. -/
structure RowMajorCopy (t copy : TensorImpl) (source : Int → Int) : Prop where
  dtype : copy.dtype = t.dtype
  shape : copy.shape = t.shape
  strides_fit : computeStrides t.shape = .ok (rowMajor t.shape)
  bytes_fit : t.shape.prod * dtypeSize t.dtype ≤ int64Max
  source : ∀ i, 0 ≤ i → i < t.shape.prod → source i = t.addr (unravel t.shape i)

theorem TensorImpl.contiguous_ok {copy : TensorImpl} (hwf : t.WellFormed) (hb : t.InBounds)
    (h : t.contiguous = .ok (copy, source)) : RowMajorCopy t copy source := by
  rw [TensorImpl.contiguous, bind_eq_ok] at h
  obtain ⟨contiguous, hcont, h⟩ := h
  have hstrides : computeStrides t.shape = .ok (rowMajor t.shape) := by
    rw [TensorImpl.isContiguous, bind_eq_ok] at hcont
    obtain ⟨strides, hs, -⟩ := hcont
    rw [hs, computeStrides_eq_rowMajor hs]
  split at h
  next hc =>
    obtain ⟨rfl, rfl⟩ := Prod.mk.inj (pure_eq_ok.mp h)
    have hrow := TensorImpl.isContiguous_eq_true (hc ▸ hcont)
    refine ⟨rfl, rfl, hstrides, ?_, fun i hi hlt => ?_⟩
    · rcases (prod_nonneg hwf.nonneg).eq_or_lt with hzero | hpos
      · rw [← hzero, zero_mul]
        decide
      · have hle := prod_le_storageElements hwf hb hrow hpos
        have hsize := t.storage.size_le
        have hdiv : t.storageElements * dtypeSize t.dtype ≤ t.storage.sizeBytes :=
          Nat.div_mul_le_self _ _
        calc t.shape.prod * (dtypeSize t.dtype : Int)
            ≤ t.storageElements * (dtypeSize t.dtype : Int) :=
              mul_le_mul_of_nonneg_right hle (by omega)
          _ ≤ int64Max := by
              have : ((t.storageElements * dtypeSize t.dtype : ℕ) : Int) ≤ t.storage.sizeBytes := by
                exact_mod_cast hdiv
              omega
    · have hdims := pos_of_prod_pos hwf.nonneg (by omega : 0 < t.shape.prod)
      rw [TensorImpl.addr, hrow, dot_unravel hdims, Int.emod_eq_of_lt hi hlt]
  · simp only [bind_eq_ok, pure_eq_ok] at h
    obtain ⟨copy, hcopy, heq⟩ := h
    obtain ⟨rfl, rfl⟩ := Prod.mk.inj heq
    obtain ⟨-, -, -, hbytes, hshape, -, -, hdtype, -⟩ := TensorImpl.allocate_ok hcopy
    exact ⟨hdtype, hshape, hstrides, hbytes, fun i hi hlt =>
      TensorImpl.contiguousSource_eq hwf (pos_of_prod_pos hwf.nonneg (by omega)) hi hlt⟩

/-- Moving to the CPU is making contiguous, for a tensor that is there. -/
theorem TensorImpl.toCpu_ok {cpu : TensorImpl} (hwf : t.WellFormed) (hb : t.InBounds)
    (h : t.toCpu = .ok (cpu, source)) : RowMajorCopy t cpu source := by
  refine contiguous_ok hwf hb ?_
  rw [TensorImpl.toCpu, bind_eq_ok] at h
  obtain ⟨contiguous, hcont, h⟩ := h
  rw [TensorImpl.contiguous, hcont]
  split at h
  next hc =>
    rw [hc]
    exact h
  next hc =>
    simp only [bind_eq_ok, pure_eq_ok] at h
    obtain ⟨copy, hcopy, -, -, -, -, heq⟩ := h
    rw [Bool.not_eq_true] at hc
    rw [hc]
    simp only [hcopy]
    exact congrArg Except.ok heq

/-- A tensor on a storage of its own, filled in row-major order. -/
theorem sameTensor_of_allocate {mem : Bytes} {u : TensorImpl}
    (halloc : TensorImpl.allocate 0 t.shape t.dtype = .ok u)
    (hsource : ∀ i, 0 ≤ i → i < t.shape.prod → source i = t.addr (unravel t.shape i)) :
    SameTensor mem t ⟨u, tensorData mem t t.shape.prod source⟩ := by
  obtain ⟨-, -, -, -, hshape, -, -, hdtype, -⟩ := TensorImpl.allocate_ok halloc
  refine ⟨hdtype, hshape, fun idx hidx => ?_⟩
  have hbounds := dot_rowMajor_bounds hidx
  have hcast : (((dot idx (rowMajor t.shape)).toNat : ℕ) : Int) = dot idx (rowMajor t.shape) :=
    Int.toNat_of_nonneg hbounds.1
  have hblock : AxisBlocks.block (dtypeSize t.dtype) (dot idx (rowMajor t.shape)).toNat
      (tensorData mem t t.shape.prod source) =
      elementBytes mem t (source (dot idx (rowMajor t.shape)).toNat) :=
    AxisBlocks.block_flatMap_range (fun _ _ => length_elementBytes ..) (by omega)
  rw [LoadedTensor.element, TensorImpl.addr_allocate halloc, hdtype, hblock, hcast,
    hsource _ hbounds.1 hbounds.2, unravel_dot hidx]

end Tenzor
