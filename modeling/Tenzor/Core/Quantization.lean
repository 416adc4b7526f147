import Tenzor.Core.ViewIndex

/-!
# Dequantization

`dequantize` reads the integers of a quantized tensor in row-major order,
through `int_repr` and a copy to contiguous storage when the tensor is a
strided view, and writes one float for each. Per-channel parameters are picked
from the linear position of the element. Floats are exact rationals here.

## Implementation notes

The tensor is on the CPU. `Memory` gives the bytes of every storage; the
quantized types take one byte for each element, so element numbers are byte
numbers. The parallel copy loops are given by the element each position of
the copy receives.
-/

namespace Tenzor

open Wrap64 Strided Throwing List
open Strided (reach)

/-- The bytes of every storage, by storage and element number. -/
abbrev Memory := Nat → Int → BitVec 8

namespace TensorImpl

variable (t : TensorImpl)

/-- The allocating constructor: row-major strides on a storage of its own. -/
def allocate (storageId : Nat) (shape : List Int) (dtype : DType) : Except Exn TensorImpl := do
  throwIf (∃ n ∈ shape, n < 0)
    (.invalidArgument "Tensor: shape dimensions must be non-negative")
  let strides ← computeStrides shape
  let n ← numel shape
  throwIf (0 < n ∧ 18446744073709551615 / dtypeSize dtype < n.toNat)
    (.overflowError "Tensor allocation size overflow")
  if h : ((n.toNat * dtypeSize dtype : Nat) : Int) ≤ int64Max then
    return { storage := ⟨storageId, n.toNat * dtypeSize dtype, h⟩
             shape := shape, strides := strides, dtype := dtype }
  else .error (.runtimeError "Failed to allocate memory for tensor")

/-- Nothing is known of the tensor but its elements: no names, gradient, quantization or base. -/
def Fresh : Prop :=
  t = { storage := t.storage, shape := t.shape, strides := t.strides, dtype := t.dtype }

/-- One axis of the bounds check behind `data()`. -/
def dataReachStep (acc : Int × Int) (axis : Int × Int) : Except Exn (Int × Int) :=
  if 0 < axis.1 then do
    let extent ← checkedMul (axis.1 - 1) axis.2
    if 0 ≤ extent then do
      let high ← checkedAdd acc.2 extent
      return (acc.1, high)
    else do
      let low ← checkedAdd acc.1 extent
      return (low, acc.2)
  else .ok acc

/-- The bounds check behind `data()`; an empty tensor is not checked. -/
def checkData : Except Exn Unit := do
  let n ← numel t.shape
  if 0 < n then do
    let (low, high) ← (t.shape.zip t.strides).foldlM dataReachStep (t.offset, t.offset)
    throwIf (low < 0 ∨ (t.storageElements : Int) ≤ asSizeT high)
      (.outOfRange "Tensor data access: reachable offset exceeds storage bounds")
  else return ()

/-- The element that position `i` of the contiguous copy receives. The source
has loops of their own for three and four axes with a contiguous inner block,
a block-wise copy for other ranks, and an element-wise one. -/
def contiguousSource (i : Int) : Int :=
  let axes := (t.shape.zip t.strides).reverse
  let block := innerBlock axes 1
  match t.shape, t.strides with
  | [], _ => t.offset
  | [_, d1, d2, d3], [s0, s1, s2, s3] =>
    if 1 < block.1 then
      t.offset + i / d3 / d2 / d1 * s0 + i / d3 / d2 % d1 * s1 + i / d3 % d2 * s2 +
        if s3 = 1 then i % d3 else i % d3 * s3
    else peel axes i t.offset
  | [_, d1, d2], [s0, s1, s2] =>
    if 1 < block.1 then
      t.offset + i / d2 / d1 * s0 + i / d2 % d1 * s1 + if s2 = 1 then i % d2 else i % d2 * s2
    else peel axes i t.offset
  | shape, _ =>
    if block.2 < shape.length ∧ 1 < block.1 then
      peel (axes.drop block.2) (i / block.1) t.offset + i % block.1
    else peel axes i t.offset

/-- `to(Device::cpu())` of a tensor on the CPU: itself when contiguous, else a
copy. The second component gives the element each position reads. -/
def toCpu : Except Exn (TensorImpl × (Int → Int)) := do
  let contiguous ← t.isContiguous
  if contiguous then return (t, fun i => t.offset + i)
  else do
    let copy ← allocate t.storage.id t.shape t.dtype
    let n ← numel t.shape
    let _ ← checkedMul n (dtypeSize t.dtype)
    return (copy, t.contiguousSource)

def setPerChannelQuantizationParams (scales : List ℚ) (zeroPoints : List Int) (axis : Int) :
    Except Exn TensorImpl := do
  throwIf (isQuantized t.dtype = false)
    (.runtimeError "set_per_channel_quantization_params: tensor is not quantized")
  throwIf (scales.length ≠ zeroPoints.length) (.runtimeError
    "set_per_channel_quantization_params: scales and zero_points must have same size")
  throwIf (axis < 0 ∨ t.ndim ≤ axis)
    (.runtimeError "set_per_channel_quantization_params: axis out of range")
  throwIf ((scales.length : Int) ≠ t.shape.getD axis.toNat 0) (.runtimeError
    "set_per_channel_quantization_params: scales size must match shape[axis]")
  return { t with qScales := some scales, qZeroPoints := some zeroPoints, qAxis := axis }

/-- The integer a byte stands for. -/
def rawValue (dtype : DType) (byte : BitVec 8) : Int :=
  if dtype = .quint8 then byte.toNat else byte.toInt

/-- `(int_val - zero_point) * scale`. -/
def dequantizeValue (raw zeroPoint : Int) (scale : ℚ) : ℚ := ((raw - zeroPoint : Int) : ℚ) * scale

end TensorImpl

/-- A float tensor with the contents of its storage. -/
structure FloatTensor where
  impl : TensorImpl
  data : Int → ℚ

/-- The element at a multi-index. -/
def FloatTensor.get (d : FloatTensor) (idx : List Int) : ℚ := d.data (d.impl.addr idx)

namespace TensorImpl

variable (mem : Memory) (self : TensorId) (fresh : Nat) (t : TensorImpl)

/-- The parameters of the element at linear position `i`. -/
def channelOf (inner axisSize i : Int) : Int := if 0 < inner then i / inner % axisSize else 0

/-- What the per-channel loop writes to the first `n` positions. -/
def perChannelData (raw : Int → Int) (n inner axisSize : Int) (scales : List ℚ)
    (zeroPoints : List Int) (i : Int) : ℚ :=
  let chan := (channelOf inner axisSize i).toNat
  if 0 ≤ i ∧ i < n then dequantizeValue (raw i) (zeroPoints.getD chan 0) (scales.getD chan 0)
  else 0

def dequantize : Except Exn FloatTensor := do
  throwIf (isQuantized t.dtype = false)
    (.runtimeError "dequantize() called on non-quantized tensor")
  let ints ← t.intRepr self
  let (cpu, source) ← ints.toCpu
  let float ← allocate fresh t.shape .float32
  let n ← numel t.shape
  float.checkData
  cpu.checkData
  let raw := fun i => rawValue t.dtype (mem t.storage.id (source i))
  match t.qScales, t.qZeroPoints with
  | none, _ =>
    return ⟨float, fun i =>
      if 0 ≤ i ∧ i < n then dequantizeValue (raw i) t.qZeroPoint t.qScale else 0⟩
  | some _, none =>
    .error (.runtimeError "q_per_channel_zero_points: tensor is not per-channel quantized")
  | some scales, some zeroPoints => do
      let axis := normalizeDim t.qAxis t.ndim
      throwIf (axis < 0 ∨ t.ndim ≤ axis) (.runtimeError
        "dequantize: per-channel quantization axis is out of range for the tensor's current shape (metadata not remapped after a view op)")
      let axisSize := t.shape.getD axis.toNat 0
      throwIf (asSizeT axisSize ≠ scales.length) (.runtimeError
        "dequantize: per-channel scales size does not match shape[axis]; per-channel metadata is inconsistent with the tensor shape")
      let inner := (t.shape.drop (axis.toNat + 1)).foldl (fun r n => wrap64 (r * n)) 1
      return ⟨float, perChannelData raw n inner axisSize scales zeroPoints⟩

variable {t} {storageId : Nat} {shape : List Int} {dtype : DType} {low high n i : Int}

/-- Strides and byte count of a float tensor of this shape fit 64 bits. -/
def FloatFits (shape : List Int) : Prop :=
  computeStrides shape = .ok (rowMajor shape) ∧ numel shape = .ok shape.prod ∧
    shape.prod * 4 ≤ int64Max

theorem allocate_fresh {t : TensorImpl} (h : allocate storageId shape dtype = .ok t) : t.Fresh := by
  simp only [allocate, bind_eq_ok, throwIf_eq_ok] at h
  obtain ⟨-, -, strides, -, n, -, -, -, h⟩ := h
  split_ifs at h
  obtain rfl := pure_eq_ok.mp h
  rfl

theorem allocate_ok {t : TensorImpl} (h : allocate storageId shape dtype = .ok t) :
    (∀ n ∈ shape, 0 ≤ n) ∧ computeStrides shape = .ok (rowMajor shape) ∧
      numel shape = .ok shape.prod ∧ shape.prod * dtypeSize dtype ≤ int64Max ∧
      t.shape = shape ∧ t.strides = rowMajor shape ∧ t.offset = 0 ∧ t.dtype = dtype ∧
      t.qScales = none ∧ (t.storageElements : Int) = shape.prod := by
  simp only [allocate, bind_eq_ok, throwIf_eq_ok] at h
  obtain ⟨-, hneg, strides, hstrides, n, hn, -, -, h⟩ := h
  have hnn : ∀ n ∈ shape, 0 ≤ n := by
    intro m hm
    by_contra hlt
    exact hneg ⟨m, hm, not_le.mp hlt⟩
  obtain rfl := computeStrides_eq_rowMajor hstrides
  obtain rfl := numel_eq_prod hn
  have hprod : 0 ≤ shape.prod := Strided.prod_nonneg hnn
  split_ifs at h with hfit
  · obtain rfl := pure_eq_ok.mp h
    have hcast : ((shape.prod.toNat * dtypeSize dtype : Nat) : Int) =
        shape.prod * dtypeSize dtype := by
      push_cast
      rw [Int.toNat_of_nonneg hprod]
    refine ⟨hnn, hstrides, hn, hcast ▸ hfit, rfl, rfl, rfl, rfl, rfl, ?_⟩
    simp only [storageElements]
    rw [Nat.mul_div_cancel _ (dtypeSize_pos dtype), Int.toNat_of_nonneg hprod]

theorem allocate_sizeBytes {t : TensorImpl} (h : allocate storageId shape dtype = .ok t) :
    t.storage.sizeBytes = shape.prod.toNat * dtypeSize dtype := by
  simp only [allocate, bind_eq_ok, throwIf_eq_ok] at h
  obtain ⟨-, -, strides, -, n, hn, -, -, h⟩ := h
  obtain rfl := numel_eq_prod hn
  split_ifs at h with hfit
  obtain rfl := pure_eq_ok.mp h
  rfl

theorem allocate_storageId {t : TensorImpl} (h : allocate storageId shape dtype = .ok t) :
    t.storage.id = storageId := by
  simp only [allocate, bind_eq_ok, throwIf_eq_ok] at h
  obtain ⟨-, -, strides, -, n, -, -, -, h⟩ := h
  split_ifs at h with hfit
  obtain rfl := pure_eq_ok.mp h
  rfl

/-- An allocation whose strides and byte count fit 64 bits goes through. -/
theorem allocate_of_fits (storageId : Nat) (hnn : ∀ n ∈ shape, 0 ≤ n)
    (hstrides : computeStrides shape = .ok (rowMajor shape)) (hnumel : numel shape = .ok shape.prod)
    (hbytes : shape.prod * dtypeSize dtype ≤ int64Max) :
    ∃ t, allocate storageId shape dtype = .ok t := by
  have hprod : 0 ≤ shape.prod := Strided.prod_nonneg hnn
  have hpos := dtypeSize_pos dtype
  have hmul : ((shape.prod.toNat * dtypeSize dtype : Nat) : Int) ≤ int64Max := by
    push_cast
    rwa [Int.toNat_of_nonneg hprod]
  have hneg : ¬ ∃ n ∈ shape, n < 0 := by
    rintro ⟨n, hn, hlt⟩
    have := hnn n hn
    omega
  have hover : ¬ (0 < shape.prod ∧ 18446744073709551615 / dtypeSize dtype < shape.prod.toNat) := by
    rintro ⟨-, hlt⟩
    rw [Nat.div_lt_iff_lt_mul hpos] at hlt
    simp only [int64Max] at hmul
    omega
  simp only [allocate, throwIf, if_neg hneg, if_neg hover, hstrides, hnumel, bind, Except.bind,
    dif_pos hmul]
  exact ⟨_, rfl⟩

theorem allocate_returns (storageId : Nat) (hnn : ∀ n ∈ shape, 0 ≤ n) (hfit : FloatFits shape)
    (hsize : dtypeSize dtype ≤ 4) : ∃ t, allocate storageId shape dtype = .ok t := by
  obtain ⟨hstrides, hnumel, hbytes⟩ := hfit
  refine allocate_of_fits storageId hnn hstrides hnumel ?_
  have : shape.prod * dtypeSize dtype ≤ shape.prod * 4 :=
    mul_le_mul_of_nonneg_left (by omega) (Strided.prod_nonneg hnn)
  omega

/-- A reach loop that is exact on every axis it is asked about computes the reach. -/
theorem foldlM_eq_reach {step : Int × Int → Int × Int → Except Exn (Int × Int)}
    (hstep : ∀ low high n s, 0 < n → low ≤ int64Max → 0 ≤ high →
      0 ≤ low + min 0 ((n - 1) * s) → high + max 0 ((n - 1) * s) ≤ int64Max →
      step (low, high) (n, s) = .ok (low + min 0 ((n - 1) * s), high + max 0 ((n - 1) * s)))
    {axes : List (Int × Int)} (hpos : ∀ axis ∈ axes, 0 < axis.1) (hlow : low ≤ int64Max)
    (hhigh : 0 ≤ high) (hreachLow : 0 ≤ (reach (low, high) axes).1)
    (hreachHigh : (reach (low, high) axes).2 ≤ int64Max) :
    axes.foldlM step (low, high) = .ok (reach (low, high) axes) := by
  induction axes generalizing low high with
  | nil => rfl
  | cons axis axes ih =>
    obtain ⟨n, s⟩ := axis
    have hn : 0 < n := hpos (n, s) (by simp)
    rw [reach_cons] at hreachLow hreachHigh ⊢
    have hout := reach_outwards (low + min 0 ((n - 1) * s), high + max 0 ((n - 1) * s)) axes
    dsimp only at hreachLow hreachHigh hout ⊢
    rw [foldlM_cons_eq_ok]
    refine ⟨_, hstep low high n s hn hlow hhigh (by omega) (by omega), ?_⟩
    exact ih (fun a ha => hpos a (by simp [ha])) (by omega) (by omega) hreachLow hreachHigh

theorem dataReachStep_eq {s : Int} (hn : 0 < n) (hlow : low ≤ int64Max) (hhigh : 0 ≤ high)
    (hlow' : 0 ≤ low + min 0 ((n - 1) * s)) (hhigh' : high + max 0 ((n - 1) * s) ≤ int64Max) :
    dataReachStep (low, high) (n, s) =
      .ok (low + min 0 ((n - 1) * s), high + max 0 ((n - 1) * s)) := by
  have hword : InInt64 ((n - 1) * s) := by
    simp only [InInt64, int64Min, int64Max] at *
    omega
  simp only [dataReachStep, if_pos hn, checkedMul, if_pos hword, bind, Except.bind]
  by_cases hs : 0 ≤ (n - 1) * s
  · rw [min_eq_left hs, max_eq_right hs] at *
    have hadd : InInt64 (high + (n - 1) * s) := ⟨by simp only [int64Min]; omega, hhigh'⟩
    simp only [if_pos hs, checkedAdd, if_pos hadd, pure, Except.pure, add_zero]
  · have hle : (n - 1) * s ≤ 0 := le_of_not_ge hs
    rw [min_eq_right hle, max_eq_left hle] at *
    have hadd : InInt64 (low + (n - 1) * s) := by
      simp only [InInt64, int64Min, int64Max] at *
      omega
    simp only [if_neg hs, checkedAdd, if_pos hadd, pure, Except.pure, add_zero]

/-- The reach of an in-bounds tensor with elements lies inside its storage. -/
theorem InBounds.reach (hwf : t.WellFormed) (hb : t.InBounds) (hpos : ∀ n ∈ t.shape, 0 < n) :
    0 ≤ (reach (t.offset, t.offset) (t.shape.zip t.strides)).1 ∧
      (reach (t.offset, t.offset) (t.shape.zip t.strides)).2 < t.storageElements := by
  obtain ⟨⟨lo, hlo, hloEq⟩, hi, hhi, hhiEq⟩ :=
    reach_attained hpos hwf.length_eq (t.offset, t.offset)
  rw [← hloEq, ← hhiEq]
  exact ⟨(hb lo hlo).1, (hb hi hhi).2⟩

theorem checkData_returns (hwf : t.WellFormed) (hb : t.InBounds)
    (hnumel : numel t.shape = .ok t.shape.prod) : t.checkData = .ok () := by
  simp only [checkData, hnumel, bind, Except.bind]
  by_cases hprod : 0 < t.shape.prod
  · have hpos := pos_of_prod_pos hwf.nonneg hprod
    obtain ⟨hlow, hhigh⟩ := hb.reach hwf hpos
    have hmax := t.storageElements_le
    have hout := reach_outwards (t.offset, t.offset) (t.shape.zip t.strides)
    have hfold := foldlM_eq_reach (fun _ _ _ _ => dataReachStep_eq)
      (fun axis ha => hpos _ (of_mem_zip ha).1)
      (by omega : t.offset ≤ int64Max) (by omega : 0 ≤ t.offset) hlow (by omega)
    have hguard : ¬ ((reach (t.offset, t.offset) (t.shape.zip t.strides)).1 < 0 ∨
        (t.storageElements : Int) ≤
          asSizeT (reach (t.offset, t.offset) (t.shape.zip t.strides)).2) := by
      rw [asSizeT]
      omega
    rw [if_pos hprod, hfold]
    simp only [throwIf, if_neg hguard]
  · rw [if_neg hprod]
    rfl

theorem ediv_emod_of_lt {a : Int} (ha : 0 < a) (hi : 0 ≤ i) (hlt : i < n * a) :
    i / a % n = i / a := by
  have hnn : 0 ≤ i / a := Int.ediv_nonneg hi ha.le
  exact Int.emod_eq_of_lt hnn (Int.ediv_lt_of_lt_mul ha hlt)

/-- Every copy loop moves the elements in row-major order. -/
theorem contiguousSource_eq (hwf : t.WellFormed) (hpos : ∀ n ∈ t.shape, 0 < n) (hi : 0 ≤ i)
    (hlt : i < t.shape.prod) : t.contiguousSource i = t.addr (unravel t.shape i) := by
  have hlen := hwf.length_eq
  have hpeel := peel_reverse hlen hpos i t.offset
  have haxes : ∀ axis ∈ (t.shape.zip t.strides).reverse, 0 < axis.1 :=
    fun axis ha => hpos _ (of_mem_zip (mem_reverse.mp ha)).1
  have hblock := peel_block _ haxes i t.offset
  rw [addr, ← hpeel, contiguousSource]
  split
  · rename_i hshape
    simp [hshape, peel]
  · rename_i d0 d1 d2 d3 s0 s1 s2 s3 hshape hstrides
    -- The outermost index needs no reduction: the position is below the count.
    have htop : i / d3 / d2 / d1 % d0 = i / d3 / d2 / d1 := by
      have h1 : 0 < d1 := hpos d1 (by simp [hshape])
      have h2 : 0 < d2 := hpos d2 (by simp [hshape])
      have h3 : 0 < d3 := hpos d3 (by simp [hshape])
      rw [Int.ediv_ediv_of_nonneg h3.le, Int.ediv_ediv_of_nonneg (mul_nonneg h3.le h2.le)]
      apply ediv_emod_of_lt (mul_pos (mul_pos h3 h2) h1) hi
      calc
        i < t.shape.prod := hlt
        _ = d0 * (d3 * d2 * d1) := by
          simp only [hshape, prod_cons, prod_nil]
          ring
    rw [hshape, hstrides]
    split_ifs with hb hs
    · simp only [hs, zip_cons_cons, zip_nil_left, reverse_cons, reverse_nil,
        nil_append, cons_append, peel, htop]
      ring
    · simp only [zip_cons_cons, zip_nil_left, reverse_cons, reverse_nil,
        nil_append, cons_append, peel, htop]
      ring
    · rfl
  · rename_i d0 d1 d2 s0 s1 s2 hshape hstrides
    have htop : i / d2 / d1 % d0 = i / d2 / d1 := by
      have h1 : 0 < d1 := hpos d1 (by simp [hshape])
      have h2 : 0 < d2 := hpos d2 (by simp [hshape])
      rw [Int.ediv_ediv_of_nonneg h2.le]
      apply ediv_emod_of_lt (mul_pos h2 h1) hi
      calc
        i < t.shape.prod := hlt
        _ = d0 * (d2 * d1) := by
          simp only [hshape, prod_cons, prod_nil]
          ring
    rw [hshape, hstrides]
    split_ifs with hb hs
    · simp only [hs, zip_cons_cons, zip_nil_left, reverse_cons, reverse_nil,
        nil_append, cons_append, peel, htop]
      ring
    · simp only [zip_cons_cons, zip_nil_left, reverse_cons, reverse_nil,
        nil_append, cons_append, peel, htop]
      ring
    · rfl
  · split_ifs
    · exact hblock
    · rfl

theorem wellFormed_allocate (hsize : ∀ n ∈ shape, n ≤ int64Max)
    (h : allocate storageId shape dtype = .ok t) : t.WellFormed := by
  obtain ⟨hnn, -, -, -, hshape, hstrides, -⟩ := allocate_ok h
  refine ⟨?_, ?_, ?_⟩
  · rw [hshape, hstrides, rowMajor_length]
  · rwa [hshape]
  · rwa [hshape]

theorem addr_allocate (h : allocate storageId shape dtype = .ok t) (idx : List Int) :
    t.addr idx = dot idx (rowMajor shape) := by
  obtain ⟨-, -, -, -, -, hstrides, hoff, -⟩ := allocate_ok h
  rw [addr, hstrides, hoff, zero_add]

theorem inBounds_allocate (h : allocate storageId shape dtype = .ok t) : t.InBounds := by
  obtain ⟨-, -, -, -, hshape, -, -, -, -, hst⟩ := allocate_ok h
  intro idx hidx
  rw [hshape] at hidx
  rw [addr_allocate h, hst]
  exact dot_rowMajor_bounds hidx

theorem isContiguous_eq (hs : computeStrides t.shape = .ok (rowMajor t.shape)) :
    t.isContiguous = .ok (decide (t.strides = rowMajor t.shape)) := by
  simp [isContiguous, hs, bind, Except.bind, pure, Except.pure]

/-- Moving to the CPU returns and lists the elements in row-major order. -/
theorem toCpu_returns (hwf : t.WellFormed) (hb : t.InBounds) (hfit : FloatFits t.shape)
    (hsize : dtypeSize t.dtype ≤ 4) :
    ∃ cpu source, t.toCpu = .ok (cpu, source) ∧ cpu.checkData = .ok () ∧
      ∀ i, 0 ≤ i → i < t.shape.prod → source i = t.addr (unravel t.shape i) := by
  have hnumel := hfit.2.1
  rw [toCpu, isContiguous_eq hfit.1]
  by_cases hc : t.strides = rowMajor t.shape
  · refine ⟨t, fun i => t.offset + i, ?_, checkData_returns hwf hb hnumel, ?_⟩
    · simp [hc, bind, Except.bind, pure, Except.pure]
    · intro i hi hlt
      have hpos := pos_of_prod_pos hwf.nonneg (by omega : 0 < t.shape.prod)
      rw [addr, hc, dot_unravel hpos, Int.emod_eq_of_lt hi hlt]
  · obtain ⟨copy, hcopy⟩ := allocate_returns t.storage.id hwf.nonneg hfit hsize
    have hbytes := (allocate_ok hcopy).2.2.2.1
    have hshape := (allocate_ok hcopy).2.2.2.2.1
    have hword : InInt64 (t.shape.prod * dtypeSize t.dtype) := by
      have hnn : 0 ≤ t.shape.prod * (dtypeSize t.dtype : Int) :=
        mul_nonneg (Strided.prod_nonneg hwf.nonneg) (by omega)
      exact ⟨by simp only [int64Min]; omega, hbytes⟩
    refine ⟨copy, t.contiguousSource, ?_, ?_, ?_⟩
    · simp [hc, hcopy, hnumel, checkedMul, hword, bind, Except.bind, pure, Except.pure]
    · apply checkData_returns (wellFormed_allocate hwf.size_le hcopy) (inBounds_allocate hcopy)
      rwa [hshape]
    · intro i hi hlt
      exact contiguousSource_eq hwf (pos_of_prod_pos hwf.nonneg (by omega)) hi hlt

theorem foldl_wrap64_mul (l : List Int) (r : Int) :
    l.foldl (fun r n => wrap64 (r * n)) (wrap64 r) = wrap64 (r * l.prod) := by
  induction l generalizing r with
  | nil => simp
  | cons n l ih =>
    rw [foldl_cons, wrap64_mul_wrap64, ih, prod_cons, mul_assoc]

theorem prod_drop_le (hpos : ∀ n ∈ shape, 0 < n) (d : Nat) : (shape.drop d).prod ≤ shape.prod := by
  have htake : 0 < (shape.take d).prod :=
    Strided.prod_pos fun n hn => hpos n (mem_of_mem_take hn)
  have hdrop : 0 < (shape.drop d).prod :=
    Strided.prod_pos fun n hn => hpos n (mem_of_mem_drop hn)
  calc
    (shape.drop d).prod ≤ (shape.take d).prod * (shape.drop d).prod :=
      le_mul_of_one_le_left hdrop.le htake
    _ = shape.prod := by rw [← prod_append, take_append_drop]

/-- The channel picked for a linear position is the index on the channel axis. -/
theorem channelOf_eq {idx : List Int} {q : Nat} (hidx : Within idx shape) (hq : q < shape.length)
    (hfit : shape.prod ≤ int64Max) :
    channelOf ((shape.drop (q + 1)).foldl (fun r n => wrap64 (r * n)) 1) (shape.getD q 0)
      (dot idx (rowMajor shape)) = idx.getD q 0 := by
  have hinner : 0 < (shape.drop (q + 1)).prod :=
    Strided.prod_pos fun n hn => hidx.pos n (mem_of_mem_drop hn)
  have hle := prod_drop_le hidx.pos (q + 1)
  have hfold := foldl_wrap64_mul (shape.drop (q + 1)) 1
  rw [one_mul, wrap64_of_nonneg hinner.le (by omega)] at hfold
  have hone : wrap64 1 = 1 := by decide
  rw [hone] at hfold
  rw [hfold, channelOf, if_pos hinner, ← unravel_getD shape _ hq, unravel_dot hidx]

/-- The value of the element at a multi-index of a per-channel quantized tensor. -/
def channelValue (scales : List ℚ) (zeroPoints : List Int) (idx : List Int) : ℚ :=
  let chan := (idx.getD t.qAxis.toNat 0).toNat
  dequantizeValue (rawValue t.dtype (mem t.storage.id (t.addr idx)))
    (zeroPoints.getD chan 0) (scales.getD chan 0)

/-- Per-channel metadata that names an existing axis with as many channels. -/
structure PerChannel (t : TensorImpl) (scales : List ℚ) (zeroPoints : List Int) : Prop where
  scales_eq : t.qScales = some scales
  zeroPoints_eq : t.qZeroPoints = some zeroPoints
  axis_nonneg : 0 ≤ t.qAxis
  axis_lt : t.qAxis.toNat < t.shape.length
  size_eq : t.shape.getD t.qAxis.toNat 0 = scales.length

theorem intRepr_returns (hq : isQuantized t.dtype = true) (hpacked : t.dtype ≠ .qint4x2) :
    t.intRepr self = .ok
      { storage := t.storage, shape := t.shape, strides := t.strides, offset := t.offset
        dtype := if t.dtype = .quint8 then .uint8 else .int8
        device := t.device, viewBase := t.baseFor self } := by
  simp [intRepr, throwIf, hq, hpacked, bind, Except.bind, pure, Except.pure]

theorem byteSized (hq : isQuantized t.dtype = true) :
    dtypeSize t.dtype = 1 ∧ dtypeSize (if t.dtype = .quint8 then .uint8 else .int8) = 1 := by
  revert hq
  cases t.dtype <;> decide

/-- What `dequantize` reads and where it writes, for every element. -/
theorem dequantize_reads (hwf : t.WellFormed) (hb : t.InBounds) (hq : isQuantized t.dtype = true)
    (hpacked : t.dtype ≠ .qint4x2) (hfit : FloatFits t.shape) :
    ∃ ints cpu source float, t.intRepr self = .ok ints ∧ ints.toCpu = .ok (cpu, source) ∧
      cpu.checkData = .ok () ∧ allocate fresh t.shape .float32 = .ok float ∧
      float.checkData = .ok () ∧
      ∀ idx, Within idx t.shape → source (dot idx (rowMajor t.shape)) = t.addr idx := by
  have hints := t.intRepr_returns self hq hpacked
  set ints : TensorImpl :=
    { storage := t.storage, shape := t.shape, strides := t.strides, offset := t.offset
      dtype := if t.dtype = .quint8 then .uint8 else .int8
      device := t.device, viewBase := t.baseFor self }
  obtain ⟨hone, hone'⟩ := byteSized hq
  have hintsWf : ints.WellFormed := ⟨hwf.length_eq, hwf.nonneg, hwf.size_le⟩
  have hintsB : ints.InBounds := by
    intro idx hidx
    have hidx' := hb idx hidx
    simp only [storageElements, hone, addr] at hidx'
    simpa only [storageElements, hone', ints, addr] using hidx'
  obtain ⟨cpu, source, hcpu, hcheck, hsource⟩ :=
    toCpu_returns hintsWf hintsB hfit (by simp only [ints, hone']; decide)
  obtain ⟨float, hfloat⟩ :=
    allocate_returns fresh hwf.nonneg hfit (by decide : dtypeSize .float32 ≤ 4)
  have hfloatCheck : float.checkData = .ok () := by
    apply checkData_returns (wellFormed_allocate hwf.size_le hfloat) (inBounds_allocate hfloat)
    rw [(allocate_ok hfloat).2.2.2.2.1]
    exact hfit.2.1
  refine ⟨ints, cpu, source, float, hints, hcpu, hcheck, hfloat, hfloatCheck, ?_⟩
  intro idx hidx
  have hbnd := dot_rowMajor_bounds hidx
  calc
    source (dot idx (rowMajor t.shape)) =
        ints.addr (unravel ints.shape (dot idx (rowMajor t.shape))) := hsource _ hbnd.1 hbnd.2
    _ = t.addr idx := by simp only [ints, unravel_dot hidx, addr]

theorem dequantize_returns {scales : List ℚ} {zeroPoints : List Int} (hwf : t.WellFormed)
    (hb : t.InBounds) (hq : isQuantized t.dtype = true) (hpacked : t.dtype ≠ .qint4x2)
    (hfit : FloatFits t.shape) (hchan : t.PerChannel scales zeroPoints) :
    ∃ d, t.dequantize mem self fresh = .ok d ∧
      allocate fresh t.shape .float32 = .ok d.impl ∧
      ∀ idx, Within idx t.shape → d.get idx = t.channelValue mem scales zeroPoints idx := by
  obtain ⟨ints, cpu, source, float, hints, hcpu, hcheck, hfloat, hfloatCheck, hsource⟩ :=
    dequantize_reads self fresh hwf hb hq hpacked hfit
  obtain ⟨hscales, hzero, haxis, haxisLt, hsize⟩ := hchan
  have hnorm : normalizeDim t.qAxis t.ndim = t.qAxis := if_neg (by omega)
  have hrange : ¬ (t.qAxis < 0 ∨ t.ndim ≤ t.qAxis) := by
    simp only [ndim]
    omega
  have hbound := hwf.getD haxisLt
  have hmatch : ¬ (asSizeT (t.shape.getD t.qAxis.toNat 0) ≠ scales.length) := by
    rw [asSizeT, Int.emod_eq_of_lt hbound.1 (by simp only [int64Max] at hbound; omega)]
    exact not_not.mpr hsize
  refine ⟨⟨float, perChannelData
      (fun i => rawValue t.dtype (mem t.storage.id (source i))) t.shape.prod
      ((t.shape.drop (t.qAxis.toNat + 1)).foldl (fun r n => wrap64 (r * n)) 1)
      (t.shape.getD t.qAxis.toNat 0) scales zeroPoints⟩, ?_, hfloat, ?_⟩
  · simp only [dequantize, throwIf, hq, hints, hcpu, hfloat, hfit.2.1, hfloatCheck, hcheck, bind,
      Except.bind, hscales, hzero, hnorm, if_neg hrange, if_neg hmatch]
    rfl
  · intro idx hidx
    have hbnd := dot_rowMajor_bounds hidx
    have hmax : t.shape.prod ≤ int64Max := by
      have hfour := hfit.2.2
      omega
    have hchanEq := channelOf_eq hidx haxisLt hmax
    simp only [FloatTensor.get, addr_allocate hfloat, perChannelData, if_pos hbnd, hchanEq,
      channelValue]
    rw [hsource idx hidx]

theorem dequantize_ok {r : FloatTensor} (h : t.dequantize mem self fresh = .ok r) :
    isQuantized t.dtype = true ∧ t.dtype ≠ .qint4x2 ∧
      allocate fresh t.shape .float32 = .ok r.impl ∧
      ∀ scales, t.qScales = some scales →
        asSizeT (t.shape.getD (normalizeDim t.qAxis t.ndim).toNat 0) = scales.length := by
  simp only [dequantize, bind_eq_ok, throwIf_eq_ok] at h
  obtain ⟨-, hq, ints, hints, ⟨cpu, source⟩, -, float, hfloat, n, -, -, -, -, -, h⟩ := h
  refine ⟨by simpa using hq, (intRepr_ok hints).2.1, ?_⟩
  split at h
  · rename_i hnone
    obtain rfl := pure_eq_ok.mp h
    refine ⟨hfloat, ?_⟩
    intro scales hs
    rw [hnone] at hs
    cases hs
  · simp at h
  · rename_i scales zeroPoints hscales hzero
    simp only [bind_eq_ok, throwIf_eq_ok, pure_eq_ok, not_not] at h
    obtain ⟨-, -, -, hsize, rfl⟩ := h
    refine ⟨hfloat, ?_⟩
    intro scales' hs
    obtain rfl : scales = scales' := Option.some.inj (hscales.symm.trans hs)
    exact hsize

end TensorImpl

end Tenzor
