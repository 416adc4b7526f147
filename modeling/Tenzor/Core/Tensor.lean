import Tenzor.Core.DType
import Tenzor.Lib.Strided
import Tenzor.Lib.Throwing

/-!
# Tensor metadata

`TensorImpl` holds what the source keeps per tensor: the shared storage, the
strided geometry, the optional dimension names, the quantization metadata, the
view base and the mutation version. Sizes, strides and offsets are signed
64-bit words, written as integers; every unchecked computation on them goes
through `wrap64`.
-/

namespace Tenzor

variable {shape : List Int} {n : Int}

open Wrap64 Strided Throwing

/-- The address of a `TensorImpl`. -/
abbrev TensorId := Nat

/-- A dimension name; `none` is the wildcard. Interned pointers compare equal
exactly when the strings do. -/
abbrev Dimname := Option String

inductive Device
  | cpu
  | accelerator (index : Nat)
  deriving DecidableEq, Repr

/-- An allocation. Its byte size is a pointer difference, so it is a positive word. -/
structure Storage where
  id : Nat
  sizeBytes : Nat
  size_le : (sizeBytes : Int) ≤ int64Max
  deriving DecidableEq

instance neZero_sizeBytes : NeZero 9223372036854775808 := ⟨by decide⟩

def Storage.ofBytes (id : Nat) (sizeBytes : Fin 9223372036854775808) : Storage :=
  ⟨id, sizeBytes, Int.ofNat_le.mpr (Nat.le_of_lt_succ sizeBytes.isLt)⟩

/-- The quantization metadata of a tensor; the default is that of a tensor without one. -/
structure QuantParams where
  scale : ℚ := 0
  zeroPoint : Int := 0
  scales : Option (List ℚ) := none
  zeroPoints : Option (List Int) := none
  axis : Int := -1
  deriving DecidableEq, Repr

structure TensorImpl where
  storage : Storage
  shape : List Int
  strides : List Int
  offset : Int := 0
  dtype : DType
  device : Device := .cpu
  requiresGrad : Bool := false
  names : Option (List Dimname) := none
  viewBase : Option TensorId := none
  qScale : ℚ := 0
  qZeroPoint : Int := 0
  qScales : Option (List ℚ) := none
  qZeroPoints : Option (List Int) := none
  qAxis : Int := -1
  version : Nat := 0

namespace TensorImpl

variable (t : TensorImpl)

/-- The copy constructor: everything but the view base, which each view
operation sets afterwards. -/
def copy : TensorImpl := { t with viewBase := none }

/-- `view_base_ ? view_base_ : impl_`, the base a view of this tensor records. -/
def baseFor (self : TensorId) : Option TensorId :=
  match t.viewBase with
  | some b => some b
  | none => some self

def ndim : Int := t.shape.length

/-- Whole elements the storage holds. -/
def storageElements : Nat := t.storage.sizeBytes / dtypeSize t.dtype

theorem storageElements_le : (t.storageElements : Int) ≤ int64Max := by
  have h := Nat.div_le_self t.storage.sizeBytes (dtypeSize t.dtype)
  have hs := t.storage.size_le
  simp only [storageElements]
  omega

/-- The element number a multi-index addresses, over exact integers. -/
def addr (idx : List Int) : Int := t.offset + dot idx t.strides

/-- Every multi-index within the shape addresses an element of the storage. -/
def InBounds : Prop :=
  ∀ idx, Within idx t.shape → 0 ≤ t.addr idx ∧ t.addr idx < t.storageElements

/-- What every constructor establishes about the geometry. -/
structure WellFormed : Prop where
  length_eq : t.strides.length = t.shape.length
  nonneg : ∀ n ∈ t.shape, 0 ≤ n
  size_le : ∀ n ∈ t.shape, n ≤ int64Max

end TensorImpl

/-- Row-major strides, from the last axis backwards, throwing on overflow. -/
def computeStrides : List Int → Except Exn (List Int)
  | [] => .ok []
  | [_] => .ok [1]
  | _ :: m :: rest => do
      let tail ← computeStrides (m :: rest)
      let s ← checkedMul (tail.headD 1) m
      return s :: tail

theorem computeStrides_eq_rowMajor {strides : List Int} (h : computeStrides shape = .ok strides) :
    strides = rowMajor shape := by
  induction shape using computeStrides.induct generalizing strides with
  | case1 => simpa [computeStrides, rowMajor] using h
  | case2 n => simpa [computeStrides, rowMajor, eq_comm] using h
  | case3 n m rest ih =>
    simp only [computeStrides, bind_eq_ok, pure_eq_ok] at h
    obtain ⟨tail, htail, s, hs, rfl⟩ := h
    obtain rfl := ih htail
    obtain ⟨-, rfl⟩ := checkedMul_eq_ok.mp hs
    simp [rowMajor, mul_comm]

/-- One factor of `numel`: the overflow test divides before it multiplies. -/
def numelStep (result dim : Int) : Except Exn Int :=
  if dim ≠ 0 ∧ safeAbs result > int64Max.toNat / safeAbs dim then
    .error (.overflowError
      "Tensor size overflow: shape produces more than INT64_MAX elements")
  else .ok (wrap64 (result * dim))

/-- The number of elements, throwing when it exceeds the 64-bit range. -/
def numel (shape : List Int) : Except Exn Int :=
  shape.foldlM numelStep 1

theorem numelStep_eq_ok {r d x : Int} (h : numelStep r d = .ok x) :
    x = r * d ∧ x ≤ int64Max := by
  unfold numelStep at h
  split at h
  · simp at h
  · rename_i hguard
    obtain rfl : wrap64 (r * d) = x := by simpa using h
    refine ⟨?_, (inInt64_wrap64 _).2⟩
    apply wrap64_of_inInt64
    by_cases hd : d = 0
    · subst hd
      simp [InInt64, int64Min, int64Max]
    · have hle : safeAbs r ≤ int64Max.toNat / safeAbs d := by
        simpa [hd] using hguard
      have hmul : safeAbs r * safeAbs d ≤ int64Max.toNat :=
        (Nat.le_div_iff_mul_le (Int.natAbs_pos.mpr hd)).mp hle
      apply inInt64_of_abs_lt
      rw [Int.abs_eq_natAbs, Int.natAbs_mul]
      simp only [safeAbs, int64Max] at hmul ⊢
      omega

theorem numelStep_eq_ok_iff {r d x : Int} (hr : 0 ≤ r) (hd : 0 ≤ d) :
    numelStep r d = .ok x ↔ r * d ≤ int64Max ∧ x = r * d := by
  constructor
  · intro h
    obtain ⟨rfl, hle⟩ := numelStep_eq_ok h
    exact ⟨hle, rfl⟩
  · rintro ⟨hle, rfl⟩
    have hguard : ¬ (d ≠ 0 ∧ safeAbs r > int64Max.toNat / safeAbs d) := by
      rintro ⟨hne, hlt⟩
      have hpos : 0 < safeAbs d := Int.natAbs_pos.mpr hne
      rw [gt_iff_lt, Nat.div_lt_iff_lt_mul hpos] at hlt
      have hcast : ((safeAbs r * safeAbs d : Nat) : Int) = r * d := by
        rw [safeAbs, safeAbs, ← Int.natAbs_mul, Int.natAbs_of_nonneg (mul_nonneg hr hd)]
      omega
    rw [numelStep, if_neg hguard, wrap64_of_nonneg (mul_nonneg hr hd) hle]

theorem numel_eq_ok (h : numel shape = .ok n) : n = shape.prod ∧ n ≤ int64Max := by
  have key : ∀ (shape : List Int) (r n : Int), r ≤ int64Max →
      shape.foldlM numelStep r = .ok n → n = r * shape.prod ∧ n ≤ int64Max := by
    intro shape
    induction shape with
    | nil =>
      intro r n hr h
      obtain rfl : r = n := by simpa using h
      simpa using hr
    | cons d rest ih =>
      intro r n hr h
      obtain ⟨x, hx, hrest⟩ := foldlM_cons_eq_ok.mp h
      obtain ⟨rfl, hle⟩ := numelStep_eq_ok hx
      rw [List.prod_cons, ← mul_assoc]
      exact ih _ n hle hrest
  simpa using key shape 1 n (by decide) h

theorem numel_eq_prod (h : numel shape = .ok n) : n = shape.prod :=
  (numel_eq_ok h).1

theorem numel_le (h : numel shape = .ok n) : n ≤ int64Max :=
  (numel_eq_ok h).2

/-- The strides are the row-major ones; the offset plays no part. -/
def TensorImpl.isContiguous (t : TensorImpl) : Except Exn Bool := do
  let expected ← computeStrides t.shape
  return t.strides = expected

theorem TensorImpl.isContiguous_eq_true {t : TensorImpl} (h : t.isContiguous = .ok true) :
    t.strides = rowMajor t.shape := by
  simp only [isContiguous, bind_eq_ok, pure_eq_ok, decide_eq_true_eq] at h
  obtain ⟨expected, hs, heq⟩ := h
  rw [heq, computeStrides_eq_rowMajor hs]

end Tenzor
