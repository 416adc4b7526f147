import Tenzor.Core.TensorBytes
import Mathlib.Data.Rat.Floor

/-!
# Quantizing and back

`quantize_per_tensor` writes the clamped integers of a float tensor to a fresh
quantized one: a byte for each element, or two four-bit values in a byte along
the last dimension. `dequantize` reads them back through `int_repr`, which
knows the byte layouts only.

## Implementation notes

The tensors are on the CPU. Floats are rationals and the quantization arithmetic
is exact. The storage ids of the tensors that are allocated are parameters.
`DTypeException` is a `runtime_error`.
-/

namespace Tenzor

open Wrap64 Strided Throwing

/-- `std::round`: halves go away from zero. -/
def roundHalfAway (x : ℚ) : Int := if 0 ≤ x then ⌊x + 1 / 2⌋ else -⌊-x + 1 / 2⌋

/-- `std::clamp`. -/
def clampTo (lo hi q : Int) : Int := if q < lo then lo else if hi < q then hi else q

/-- The least and the greatest integer of a quantized type. -/
def quantBounds : DType → Int × Int
  | .quint8 => (0, 255)
  | .qint4x2 => (-8, 7)
  | _ => (-128, 127)

def quantizeValue (dtype : DType) (scale : ℚ) (zeroPoint : Int) (x : ℚ) : Int :=
  clampTo (quantBounds dtype).1 (quantBounds dtype).2 (roundHalfAway (x / scale) + zeroPoint)

/-- The low four bits of a value. -/
def nibble (q : Int) : BitVec 8 := BitVec.ofInt 8 q &&& 15#8

/-- Byte `j` of a packed row of `lastIn` values: an even position in the low bits and
the next one, if the row is that long, in the high bits. -/
def packedByte (lastIn : Int) (row : Int → Int) (j : Int) : BitVec 8 :=
  let low := nibble (row (2 * j))
  let high := if 2 * j + 1 < lastIn then nibble (row (2 * j + 1)) else 0
  (high <<< 4) ||| low

namespace TensorImpl

/-- `data<float>()`: the type is checked before the bounds. -/
def checkFloatData (t : TensorImpl) : Except Exn Unit := do
  throwIf (t.dtype ≠ .float32) (.runtimeError
    s!"Type mismatch: requested type does not match tensor dtype (expected {dtypeName t.dtype})")
  t.checkData

/-- The packed shape halves the last dimension, rounding up. -/
def packedShape (shape : List Int) : List Int :=
  if shape = [] then [0] else shape.dropLast ++ [(wrap64 (shape.getLastD 0 + 1)).tdiv 2]

/-- The bytes of the packed rows. -/
def packedData (n lastIn : Int) (value : Int → Int) (i : Int) : BitVec 8 :=
  let lastPacked := (wrap64 (lastIn + 1)).tdiv 2
  let outer := if lastIn = 0 then 0 else n / lastIn
  if 0 ≤ i ∧ i < outer * lastPacked then
    packedByte lastIn (fun k => value (i / lastPacked * lastIn + k)) (i % lastPacked)
  else 0

end TensorImpl

/-- The quantized tensor and the bytes of its storage. -/
def quantizePerTensor (fresh packedFresh : Nat) (x : FloatTensor) (scale : ℚ) (zeroPoint : Int)
    (dtype : DType) : Except Exn (TensorImpl × (Int → BitVec 8)) := do
  throwIf (isQuantized dtype = false) (.invalidArgument
    "quantize_per_tensor: target dtype must be quantized (QInt8, QUInt8, QInt4x2)")
  throwIf (scale ≤ 0) (.invalidArgument "quantize_per_tensor: scale must be positive")
  let (cpu, source) ← x.impl.toCpu
  let n ← numel cpu.shape
  let result ← TensorImpl.allocate fresh cpu.shape dtype
  let value := fun i => quantizeValue dtype scale zeroPoint (x.data (source i))
  if dtype = .qint4x2 then do
    -- The allocation of the unpacked shape is replaced by one of the packed shape.
    let packed ← TensorImpl.allocate packedFresh (TensorImpl.packedShape cpu.shape) dtype
    cpu.checkFloatData
    packed.checkData
    return ({ packed with qScale := scale, qZeroPoint := zeroPoint },
      TensorImpl.packedData n (cpu.shape.getLastD 0) value)
  else do
    cpu.checkFloatData
    result.checkData
    return ({ result with qScale := scale, qZeroPoint := zeroPoint },
      fun i => if 0 ≤ i ∧ i < n then BitVec.ofInt 8 (value i) else 0)

/-- `dequantize(quantize_per_tensor(x, scale, zero_point, dtype))`. -/
def quantizeRoundTrip (mem : Memory) (self : TensorId) (fresh packedFresh floatFresh : Nat)
    (x : FloatTensor) (scale : ℚ) (zeroPoint : Int) (dtype : DType) : Except Exn FloatTensor := do
  let (q, bytes) ← quantizePerTensor fresh packedFresh x scale zeroPoint dtype
  q.dequantize (Function.update mem q.storage.id bytes) self floatFresh

section Values

variable {dtype : DType} {scale : ℚ} {zeroPoint q : Int}

theorem roundHalfAway_intCast (n : Int) : roundHalfAway n = n := by
  have hhalf : ∀ m : Int, ⌊(m : ℚ) + 1 / 2⌋ = m := by
    intro m
    rw [Int.floor_eq_iff]
    constructor <;> linarith
  unfold roundHalfAway
  split_ifs
  · exact hhalf n
  · rw [← Int.cast_neg, hhalf, neg_neg]

/-- A value on the grid is quantized to its integer. -/
theorem quantizeValue_grid (hscale : 0 < scale)
    (hq : (quantBounds dtype).1 ≤ q ∧ q ≤ (quantBounds dtype).2) :
    quantizeValue dtype scale zeroPoint (((q - zeroPoint : Int) : ℚ) * scale) = q := by
  rw [quantizeValue, mul_div_cancel_right₀ _ hscale.ne', roundHalfAway_intCast,
    sub_add_cancel, clampTo, if_neg (by omega), if_neg (by omega)]

/-- The byte of an integer in range reads back as the integer. -/
theorem rawValue_ofInt (hdtype : isQuantized dtype = true) (hpacked : dtype ≠ .qint4x2)
    (hq : (quantBounds dtype).1 ≤ q ∧ q ≤ (quantBounds dtype).2) :
    TensorImpl.rawValue dtype (BitVec.ofInt 8 q) = q := by
  cases dtype <;> simp [isQuantized] at hdtype hpacked
  case qint8 =>
    simp only [quantBounds] at hq
    simp only [TensorImpl.rawValue, BitVec.toInt_ofInt]
    exact Int.bmod_eq_of_le (by omega) (by omega)
  case quint8 =>
    simp only [quantBounds] at hq
    simp only [TensorImpl.rawValue, BitVec.toNat_ofInt, if_true]
    omega

end Values

namespace TensorImpl

variable (mem : Memory) (self : TensorId) (fresh : Nat) {t : TensorImpl}

/-- Without per-channel parameters every element takes the scale of the tensor. -/
theorem dequantize_perTensor (hwf : t.WellFormed) (hb : t.InBounds)
    (hq : isQuantized t.dtype = true) (hpacked : t.dtype ≠ .qint4x2) (hfit : FloatFits t.shape)
    (hscales : t.qScales = none) :
    ∃ d, t.dequantize mem self fresh = .ok d ∧
      allocate fresh t.shape .float32 = .ok d.impl ∧
      ∀ idx, Within idx t.shape → d.get idx =
        dequantizeValue (rawValue t.dtype (mem t.storage.id (t.addr idx))) t.qZeroPoint
          t.qScale := by
  obtain ⟨ints, cpu, source, float, hints, hcpu, hcheck, hfloat, hfloatCheck, hsource⟩ :=
    dequantize_reads self fresh hwf hb hq hpacked hfit
  refine ⟨⟨float, fun i => if 0 ≤ i ∧ i < t.shape.prod then dequantizeValue
    (rawValue t.dtype (mem t.storage.id (source i))) t.qZeroPoint t.qScale else 0⟩, ?_, hfloat, ?_⟩
  · simp only [dequantize, throwIf, hq, hints, hcpu, hfloat, hfit.2.1, hfloatCheck, hcheck, bind,
      Except.bind, hscales]
    rfl
  · intro idx hidx
    have hbnd := dot_rowMajor_bounds hidx
    simp only [FloatTensor.get, addr_allocate hfloat, if_pos hbnd]
    rw [hsource idx hidx]

end TensorImpl

section RoundTrip

variable {mem : Memory} {self : TensorId} {fresh packedFresh floatFresh : Nat} {x : FloatTensor}
  {scale : ℚ} {zeroPoint : Int} {dtype : DType}

/-- Every element is a value of the quantized type. -/
def FloatTensor.OnGrid (x : FloatTensor) (scale : ℚ) (zeroPoint : Int) (dtype : DType) : Prop :=
  ∀ idx, Within idx x.impl.shape → ∃ q : Int, (quantBounds dtype).1 ≤ q ∧
    q ≤ (quantBounds dtype).2 ∧ x.get idx = ((q - zeroPoint : Int) : ℚ) * scale

/-- Dequantizing the quantized tensor gives its shape and its elements back. -/
def RoundTrips (mem : Memory) (self : TensorId) (fresh packedFresh floatFresh : Nat)
    (x : FloatTensor) (scale : ℚ) (zeroPoint : Int) (dtype : DType) : Prop :=
  ∃ d, quantizeRoundTrip mem self fresh packedFresh floatFresh x scale zeroPoint dtype = .ok d ∧
    d.impl.shape = x.impl.shape ∧ ∀ idx, Within idx x.impl.shape → d.get idx = x.get idx

theorem checkFloatData_eq_ok {t : TensorImpl} :
    t.checkFloatData = .ok () ↔ t.dtype = .float32 ∧ t.checkData = .ok () := by
  simp only [TensorImpl.checkFloatData, bind_eq_ok, throwIf_eq_ok, not_not]
  constructor
  · rintro ⟨-, hdtype, hcheck⟩
    exact ⟨hdtype, hcheck⟩
  · rintro ⟨hdtype, hcheck⟩
    exact ⟨(), hdtype, hcheck⟩

/-- A quantized tensor has the type that was asked for, and the float tensor has been
accepted. -/
theorem quantizePerTensor_ok {q : TensorImpl × (Int → BitVec 8)} (hwf : x.impl.WellFormed)
    (hb : x.impl.InBounds)
    (h : quantizePerTensor fresh packedFresh x scale zeroPoint dtype = .ok q) :
    q.1.dtype = dtype ∧ x.impl.dtype = .float32 ∧
      (dtype ≠ .qint4x2 → q.1.shape = x.impl.shape) := by
  simp only [quantizePerTensor, bind_eq_ok, throwIf_eq_ok] at h
  obtain ⟨-, -, -, -, ⟨cpu, source⟩, hcpu, n, -, result, hresult, h⟩ := h
  have hcopy := TensorImpl.toCpu_ok hwf hb hcpu
  obtain ⟨-, -, -, -, hshape, -, -, hdtype, -⟩ := TensorImpl.allocate_ok hresult
  split_ifs at h with hpacked
  · simp only [bind_eq_ok, pure_eq_ok] at h
    obtain ⟨packed, halloc, _, hfloat, -, -, rfl⟩ := h
    obtain ⟨-, -, -, -, -, -, -, hdtype', -⟩ := TensorImpl.allocate_ok halloc
    have hfloatType := (checkFloatData_eq_ok.mp hfloat).1
    exact ⟨hdtype', hcopy.dtype ▸ hfloatType, fun hne => absurd hpacked hne⟩
  · simp only [bind_eq_ok, pure_eq_ok] at h
    obtain ⟨_, hfloat, -, -, rfl⟩ := h
    have hfloatType := (checkFloatData_eq_ok.mp hfloat).1
    exact ⟨hdtype, hcopy.dtype ▸ hfloatType, fun _ => hshape.trans hcopy.shape⟩

variable (fresh packedFresh zeroPoint) in
/-- The one-byte types are written in row-major order to a storage of their own. -/
theorem quantizePerTensor_returns (hwf : x.impl.WellFormed) (hb : x.impl.InBounds)
    (hscale : 0 < scale) (hq : isQuantized dtype = true) (hpacked : dtype ≠ .qint4x2)
    (hfloat : x.impl.dtype = .float32) (hfit : TensorImpl.FloatFits x.impl.shape) :
    ∃ result bytes, TensorImpl.allocate fresh x.impl.shape dtype = .ok result ∧
      quantizePerTensor fresh packedFresh x scale zeroPoint dtype =
        .ok ({ result with qScale := scale, qZeroPoint := zeroPoint }, bytes) ∧
      ∀ idx, Within idx x.impl.shape → bytes (result.addr idx) =
        BitVec.ofInt 8 (quantizeValue dtype scale zeroPoint (x.get idx)) := by
  have hsize : dtypeSize x.impl.dtype ≤ 4 := by
    rw [hfloat]
    decide
  obtain ⟨cpu, source, hcpu, hcheck, hsource⟩ := TensorImpl.toCpu_returns hwf hb hfit hsize
  have hcopy := TensorImpl.toCpu_ok hwf hb hcpu
  have hone : dtypeSize dtype = 1 := by
    cases dtype <;> simp [isQuantized] at hq hpacked <;> rfl
  obtain ⟨result, hresult⟩ := TensorImpl.allocate_returns fresh hwf.nonneg hfit
    (hone ▸ by decide : dtypeSize dtype ≤ 4)
  have hresultCheck : result.checkData = .ok () := by
    apply TensorImpl.checkData_returns (TensorImpl.wellFormed_allocate hwf.size_le hresult)
      (TensorImpl.inBounds_allocate hresult)
    rw [(TensorImpl.allocate_ok hresult).2.2.2.2.1]
    exact hfit.2.1
  have hfloatCheck : cpu.checkFloatData = .ok () :=
    checkFloatData_eq_ok.mpr ⟨hcopy.dtype.trans hfloat, hcheck⟩
  refine ⟨result, fun i => if 0 ≤ i ∧ i < x.impl.shape.prod then
    BitVec.ofInt 8 (quantizeValue dtype scale zeroPoint (x.data (source i))) else 0, hresult, ?_, ?_⟩
  · simp only [quantizePerTensor, hq, Bool.true_eq_false, hcpu, hcopy.shape, hfit.2.1, hresult,
      hpacked, hfloatCheck, hresultCheck, not_le.mpr hscale, bind, Except.bind, throwIf, if_false]
    rfl
  · intro idx hidx
    have hbnd := dot_rowMajor_bounds hidx
    have haddr : source (dot idx (rowMajor x.impl.shape)) = x.impl.addr idx := by
      rw [hsource _ hbnd.1 hbnd.2, unravel_dot hidx]
    rw [TensorImpl.addr_allocate hresult]
    simp only [if_pos hbnd, haddr]
    rfl

/-- The round trip is exact for a `Float32` tensor and a one-byte type; `int_repr`
throws for the packed type. -/
theorem roundTrips_iff (hwf : x.impl.WellFormed) (hb : x.impl.InBounds) (hscale : 0 < scale)
    (hq : isQuantized dtype = true) (hgrid : x.OnGrid scale zeroPoint dtype) :
    RoundTrips mem self fresh packedFresh floatFresh x scale zeroPoint dtype ↔
      x.impl.dtype = .float32 ∧ dtype ≠ .qint4x2 ∧ TensorImpl.FloatFits x.impl.shape := by
  constructor
  · rintro ⟨d, hd, hshape, -⟩
    rw [quantizeRoundTrip, bind_eq_ok] at hd
    obtain ⟨⟨q, bytes⟩, hquantized, hdequantized⟩ := hd
    obtain ⟨hdtype, hfloat, -⟩ := quantizePerTensor_ok hwf hb hquantized
    obtain ⟨-, hpacked, halloc, -⟩ := TensorImpl.dequantize_ok _ _ _ hdequantized
    obtain ⟨-, hstrides, hnumel, hbytes, hqshape, -⟩ := TensorImpl.allocate_ok halloc
    rw [← hqshape, hshape] at hstrides hnumel hbytes
    exact ⟨hfloat, hdtype ▸ hpacked, hstrides, hnumel, hbytes⟩
  · rintro ⟨hfloat, hpacked, hfit⟩
    obtain ⟨result, bytes, hresult, hquantized, hbytes⟩ :=
      quantizePerTensor_returns fresh packedFresh zeroPoint hwf hb hscale hq hpacked hfloat hfit
    have hqwf : TensorImpl.WellFormed { result with qScale := scale, qZeroPoint := zeroPoint } := by
      obtain ⟨hlen, hnn, hle⟩ := TensorImpl.wellFormed_allocate hwf.size_le hresult
      exact ⟨hlen, hnn, hle⟩
    have hqb : TensorImpl.InBounds { result with qScale := scale, qZeroPoint := zeroPoint } := by
      have hresultB := TensorImpl.inBounds_allocate hresult
      exact hresultB
    obtain ⟨-, -, -, -, hshape, -, -, hdtype, hscales, -⟩ := TensorImpl.allocate_ok hresult
    obtain ⟨d, hd, halloc, hget⟩ := TensorImpl.dequantize_perTensor
      (Function.update mem result.storage.id bytes) self floatFresh hqwf hqb (hdtype ▸ hq)
      (hdtype ▸ hpacked) (hshape ▸ hfit) hscales
    obtain ⟨-, -, -, -, hdshape, -⟩ := TensorImpl.allocate_ok halloc
    refine ⟨d, bind_eq_ok.mpr ⟨_, hquantized, hd⟩, hdshape.trans hshape, ?_⟩
    intro idx hidx
    obtain ⟨q, hlow, hhigh, hx⟩ := hgrid idx hidx
    have hbyte := hbytes idx hidx
    rw [hx, quantizeValue_grid hscale ⟨hlow, hhigh⟩] at hbyte
    calc
      d.get idx = TensorImpl.dequantizeValue (TensorImpl.rawValue result.dtype
          (Function.update mem result.storage.id bytes result.storage.id (result.addr idx)))
          zeroPoint scale := hget idx (hshape.symm ▸ hidx)
      _ = TensorImpl.dequantizeValue q zeroPoint scale := by
        rw [Function.update_self, hbyte, hdtype, rawValue_ofInt hq hpacked ⟨hlow, hhigh⟩]
      _ = x.get idx := hx.symm

/-- The values `-0.5` and `1.5`. -/
def halves : FloatTensor where
  impl := { storage := ⟨0, 8, by decide⟩, shape := [2], strides := [1], dtype := .float32 }
  data := fun i => if i = 0 then -1 / 2 else 3 / 2

theorem halves_wellFormed : halves.impl.WellFormed := ⟨rfl, by decide, by decide⟩

theorem halves_inBounds : halves.impl.InBounds := by
  intro idx hidx
  have hb := dot_rowMajor_bounds hidx
  simpa [halves, TensorImpl.addr, TensorImpl.storageElements, dtypeSize, rowMajor] using hb

/-- With the zero at one and a step of a half the values are the integers zero and four. -/
theorem halves_onGrid (dtype : DType) : halves.OnGrid (1 / 2) 1 dtype := by
  have hrange : (quantBounds dtype).1 ≤ 0 ∧ 4 ≤ (quantBounds dtype).2 := by
    cases dtype <;> decide
  intro idx hidx
  by_cases hfirst : halves.impl.addr idx = 0
  · refine ⟨0, hrange.1, by omega, ?_⟩
    simp only [FloatTensor.get, halves] at hfirst ⊢
    rw [if_pos hfirst]
    norm_num
  · refine ⟨4, by omega, hrange.2, ?_⟩
    simp only [FloatTensor.get, halves] at hfirst ⊢
    rw [if_neg hfirst]
    norm_num

theorem roundTrips_halves : RoundTrips (fun _ _ => 0) 0 1 2 3 halves (1 / 2) 1 .qint8 :=
  (roundTrips_iff halves_wellFormed halves_inBounds (by norm_num) rfl (halves_onGrid _)).mpr
    ⟨rfl, by decide, rfl, rfl, by decide⟩

/-- The packed tensor is built, and reading it back throws. -/
theorem not_roundTrips_packed :
    ¬ ∀ (mem : Memory) (self : TensorId) (fresh packedFresh floatFresh : Nat) (x : FloatTensor)
      (scale : ℚ) (zeroPoint : Int) (dtype : DType), x.impl.WellFormed → x.impl.InBounds →
      x.impl.dtype = .float32 → 0 < scale → isQuantized dtype = true →
      x.OnGrid scale zeroPoint dtype →
      RoundTrips mem self fresh packedFresh floatFresh x scale zeroPoint dtype := by
  intro hall
  obtain ⟨d, hd, -⟩ := hall (fun _ _ => 0) 0 1 2 3 halves (1 / 2) 1 .qint4x2 halves_wellFormed
    halves_inBounds rfl (by norm_num) rfl (halves_onGrid _)
  rw [quantizeRoundTrip, bind_eq_ok] at hd
  obtain ⟨⟨q, bytes⟩, hquantized, hdequantized⟩ := hd
  obtain ⟨hdtype, -⟩ := quantizePerTensor_ok halves_wellFormed halves_inBounds hquantized
  obtain ⟨-, hpacked, -⟩ := TensorImpl.dequantize_ok _ _ _ hdequantized
  exact hpacked hdtype

end RoundTrip

end Tenzor
