import Tenzor.Autograd.ShapePermute
import Tenzor.Core.Tensor

/-!
# Tensors with their handles

A view has the storage and the quantization of its tensor. A copy has a storage of its own, and the
kernels that copy drop the quantization.

## Implementation notes

A slice is compared with the bounds of its axis only: a tensor whose elements lie inside its storage
passes the other checks.
-/

namespace Tenzor.ShapeOps

open Strided Throwing List

variable {R : Type}

/-- Where the elements lie and what they stand for. A storage that an operation has allocated has no
number. -/
structure Handle where
  storage : Option ℕ
  offset : Int
  strides : List Int
  quantization : QuantParams := {}
  deriving DecidableEq

/-- The channels are found where their axis has gone. -/
def permuteQuantization (q : QuantParams) (dims : List Int) : QuantParams :=
  if q.scales.isSome ∧ q.axis ∈ dims then { q with axis := dims.idxOf q.axis } else q

namespace Handle

variable (h : Handle)

/-- The handle of a new tensor. -/
def fresh (shape : List Int) : Handle :=
  { storage := none, offset := 0, strides := rowMajor shape }

def permute (dims : List Int) : Handle :=
  { h with strides := gather (dims.map Int.toNat) h.strides
           quantization := permuteQuantization h.quantization dims }

def slice (d : ℕ) (first step : Int) : Handle :=
  { h with offset := h.offset + first * h.strides.getD d 0
           strides := if step ≠ 1 then h.strides.set d (h.strides.getD d 0 * step) else h.strides }

end Handle

/-- A tensor with its handle. -/
structure Stored (R : Type) where
  elements : Tensor R
  handle : Handle

namespace Stored

variable (t : Stored R)

abbrev shape : List Int := t.elements.shape

abbrev ndim : Int := t.elements.ndim

abbrev size (d : Int) : Int := t.elements.size d

abbrev quantization : QuantParams := t.handle.quantization

def isContiguous : Bool := t.handle.strides = rowMajor t.shape

def contiguous : Stored R := if t.isContiguous then t else ⟨t.elements, .fresh t.shape⟩

def reshape (newShape : List Int) : Except Exn (Stored R) := do
  throwIf t.quantization.scales.isSome (.runtimeError
    "reshape: cannot reshape a per-channel quantized tensor (the per-channel quantization axis cannot be tracked)")
  let y ← t.elements.reshape newShape
  return ⟨y, { t.contiguous.handle with strides := rowMajor y.shape }⟩

def permute (dims : List Int) : Except Exn (Stored R) := do
  let y ← t.elements.permute dims
  return ⟨y, t.handle.permute (dims.map (normalizeDim · t.ndim))⟩

def slice (dim start stop step : Int) : Except Exn (Stored R) := do
  let y ← t.elements.slice dim start stop step
  let d := normalizeDim dim t.ndim
  return ⟨y, t.handle.slice d.toNat (normalizeDim start (t.size d)) step⟩

/-- A single tensor is returned as it is, several are copied into a new one. -/
def cat [Zero R] : List (Stored R) → Int → Except Exn (Stored R)
  | [t], _ => .ok t
  | ts, dim => do
      let y ← Tensor.cat (ts.map elements) dim
      return ⟨y, .fresh y.shape⟩

/-- The same elements with the same quantization. -/
structure Same (t u : Stored R) : Prop where
  elements : t.elements.Same u.elements
  quantization_eq : t.quantization = u.quantization

variable {t} {y : Stored R} {dims newShape : List Int}

theorem ndim_eq : t.ndim = t.shape.length := rfl

theorem reshape_eq_ok : t.reshape newShape = .ok y ↔
    t.quantization.scales = none ∧ t.elements.reshape newShape = .ok y.elements ∧
      y.handle = { t.contiguous.handle with strides := rowMajor y.shape } := by
  simp only [reshape, bind_eq_ok, throwIf_eq_ok, pure_eq_ok, Option.not_isSome_iff_eq_none]
  constructor
  · rintro ⟨-, hscales, z, hz, rfl⟩
    exact ⟨hscales, hz, rfl⟩
  · rintro ⟨hscales, hz, hhandle⟩
    refine ⟨(), hscales, y.elements, hz, ?_⟩
    rw [← hhandle]

theorem permute_eq_ok : t.permute dims = .ok y ↔
    t.elements.permute dims = .ok y.elements ∧
      y.handle = t.handle.permute (dims.map (normalizeDim · t.ndim)) := by
  simp only [permute, bind_eq_ok, pure_eq_ok]
  constructor
  · rintro ⟨z, hz, rfl⟩
    exact ⟨hz, rfl⟩
  · rintro ⟨hz, hhandle⟩
    refine ⟨y.elements, hz, ?_⟩
    rw [← hhandle]

/-- Permuting returns where it returns on the elements. -/
theorem exists_permute (h : ∃ z, t.elements.permute dims = .ok z) : ∃ y, t.permute dims = .ok y := by
  obtain ⟨z, hz⟩ := h
  exact ⟨⟨z, _⟩, permute_eq_ok.mpr ⟨hz, rfl⟩⟩

theorem slice_eq_ok {dim start stop step : Int} : t.slice dim start stop step = .ok y ↔
    t.elements.slice dim start stop step = .ok y.elements ∧
      y.handle = t.handle.slice (normalizeDim dim t.ndim).toNat
        (normalizeDim start (t.size (normalizeDim dim t.ndim))) step := by
  simp only [slice, bind_eq_ok, pure_eq_ok]
  constructor
  · rintro ⟨z, hz, rfl⟩
    exact ⟨hz, rfl⟩
  · rintro ⟨hz, hhandle⟩
    refine ⟨y.elements, hz, ?_⟩
    rw [← hhandle]

/-- Making a tensor contiguous keeps its quantization when there is nothing to copy or nothing to
lose. -/
theorem contiguous_quantization :
    t.contiguous.quantization = if t.isContiguous then t.quantization else {} := by
  unfold contiguous
  split <;> rfl

end Stored

end Tenzor.ShapeOps
