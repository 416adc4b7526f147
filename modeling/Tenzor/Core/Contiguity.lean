import Tenzor.Core.ViewSpec

/-!
# Axes of size one and contiguity

A tensor is contiguous when its strides are exactly the row-major ones, also on
axes whose stride no element depends on. `unsqueeze` picks the stride of the
axis it inserts so that a contiguous tensor stays one, and `squeeze` takes the
axis out again.

## Implementation notes

`computeStrides` multiplies sizes with an overflow test, so the contiguity test
itself throws where a product of trailing sizes is no word, on tensors with no
elements too. `squeeze` drops the name at its axis from any name list that
reaches that far, while `unsqueeze` only extends a list as long as the rank.
-/

namespace Tenzor

variable {shape : List Int} {d : Nat}

open Wrap64 Strided Throwing List

/-- Every product of trailing sizes that is a row-major stride is a word. -/
def StridesFit (shape : List Int) : Prop := ∀ sizes, sizes <:+ shape.tail → InInt64 sizes.prod

instance (shape : List Int) : Decidable (StridesFit shape) :=
  decidable_of_iff (∀ sizes ∈ shape.tail.tails, InInt64 sizes.prod) (by simp [StridesFit])

theorem inInt64_one : InInt64 1 := by decide

theorem stridesFit_of_length_le_one (h : shape.length ≤ 1) : StridesFit shape := by
  have htail : shape.tail = [] := length_eq_zero_iff.mp (by simp; omega)
  intro sizes hsizes
  rw [htail, suffix_nil] at hsizes
  rw [hsizes]
  exact inInt64_one

theorem stridesFit_cons {n : Int} :
    StridesFit (n :: shape) ↔ StridesFit shape ∧ InInt64 shape.prod := by
  cases shape with
  | nil =>
    constructor
    · intro _
      exact ⟨stridesFit_of_length_le_one (by simp), inInt64_one⟩
    · intro _
      exact stridesFit_of_length_le_one (by simp)
  | cons m rest =>
    simp only [StridesFit, tail_cons, suffix_cons_iff]
    constructor
    · intro h
      exact ⟨fun sizes hsizes => h sizes (.inr hsizes), h _ (.inl rfl)⟩
    · rintro ⟨hrest, hall⟩ sizes (rfl | hsizes)
      · exact hall
      · exact hrest sizes hsizes

theorem headD_rowMajor (n : Int) (shape : List Int) :
    (rowMajor (n :: shape)).headD 1 = shape.prod := rfl

/-- The checked strides are the row-major ones, and exist when they fit. -/
theorem computeStrides_eq_ok {strides : List Int} :
    computeStrides shape = .ok strides ↔ StridesFit shape ∧ strides = rowMajor shape := by
  induction shape using computeStrides.induct generalizing strides with
  | case1 =>
    have hfit : StridesFit [] := stridesFit_of_length_le_one (by simp)
    simp [computeStrides, rowMajor, hfit, eq_comm]
  | case2 n =>
    have hfit : StridesFit [n] := stridesFit_of_length_le_one (by simp)
    simp [computeStrides, rowMajor, hfit, eq_comm]
  | case3 n m rest ih =>
    simp only [computeStrides, bind_eq_ok, pure_eq_ok, ih, checkedMul_eq_ok]
    rw [stridesFit_cons (n := n)]
    constructor
    · rintro ⟨tail, ⟨hfit, rfl⟩, s, ⟨hs, rfl⟩, rfl⟩
      rw [mul_comm] at hs ⊢
      exact ⟨⟨hfit, hs⟩, rfl⟩
    · rintro ⟨⟨hfit, hs⟩, rfl⟩
      refine ⟨_, ⟨hfit, rfl⟩, _, ⟨?_, rfl⟩, ?_⟩
      · rwa [mul_comm]
      · rw [headD_rowMajor, mul_comm]
        rfl

/-- The contiguity test compares with the row-major strides, when it returns. -/
theorem TensorImpl.isContiguous_eq_ok {t : TensorImpl} {b : Bool} :
    t.isContiguous = .ok b ↔ StridesFit t.shape ∧ (t.strides = rowMajor t.shape ↔ b = true) := by
  simp only [isContiguous, bind_eq_ok, pure_eq_ok, computeStrides_eq_ok]
  constructor
  · rintro ⟨_, ⟨hfit, rfl⟩, rfl⟩
    exact ⟨hfit, by simp⟩
  · rintro ⟨hfit, hiff⟩
    refine ⟨_, ⟨hfit, rfl⟩, ?_⟩
    rw [Bool.decide_congr hiff, Bool.decide_eq_true]

theorem prod_insertIdx_one (shape : List Int) (d : Nat) : (shape.insertIdx d 1).prod = shape.prod := by
  induction d generalizing shape with
  | zero => simp
  | succ d ih =>
    cases shape with
    | nil => rfl
    | cons n ns => simp [ih]

theorem stridesFit_insertIdx (hd : d ≤ shape.length) :
    StridesFit (shape.insertIdx d 1) ↔ StridesFit shape ∧ (d = 0 → InInt64 shape.prod) := by
  induction d generalizing shape with
  | zero => simp [stridesFit_cons]
  | succ d ih =>
    cases shape with
    | nil => simp at hd
    | cons n ns =>
      rw [insertIdx_succ_cons, stridesFit_cons, stridesFit_cons, prod_insertIdx_one,
        ih (by simpa using hd)]
      constructor
      · rintro ⟨⟨hfit, -⟩, hprod⟩
        exact ⟨⟨hfit, hprod⟩, by simp⟩
      · rintro ⟨⟨hfit, hprod⟩, -⟩
        exact ⟨⟨hfit, fun _ => hprod⟩, hprod⟩

/-- The row-major stride of an inserted axis is the number of elements it steps over. -/
theorem rowMajor_insertIdx (hd : d ≤ shape.length) :
    rowMajor (shape.insertIdx d 1) = (rowMajor shape).insertIdx d (shape.drop d).prod := by
  induction d generalizing shape with
  | zero => rfl
  | succ d ih =>
    cases shape with
    | nil => simp at hd
    | cons n ns =>
      have hd' : d ≤ ns.length := by simpa using hd
      simp only [insertIdx_succ_cons, rowMajor, prod_insertIdx_one, ih hd',
        drop_succ_cons]

theorem rowMajor_getD (hd : d < shape.length) :
    (rowMajor shape).getD d 0 * shape.getD d 0 = (shape.drop d).prod := by
  induction d generalizing shape with
  | zero =>
    cases shape with
    | nil => simp at hd
    | cons n ns => simp [rowMajor, mul_comm]
  | succ d ih =>
    cases shape with
    | nil => simp at hd
    | cons n ns =>
      have hd' : d < ns.length := by simpa using hd
      simpa [rowMajor] using ih hd'

theorem inInt64_drop (hfit : StridesFit (shape.insertIdx d 1)) (hd : d ≤ shape.length) :
    InInt64 (shape.drop d).prod := by
  rcases Nat.eq_zero_or_pos d with rfl | hpos
  · exact ((stridesFit_insertIdx hd).mp hfit).2 rfl
  · obtain ⟨k, rfl⟩ : ∃ k, d = k + 1 := ⟨d - 1, by omega⟩
    have hdrop : shape.drop (k + 1) = shape.tail.drop k := by simp
    rw [hdrop]
    exact ((stridesFit_insertIdx hd).mp hfit).1 _ (drop_suffix k _)

namespace TensorImpl

variable {self : TensorId} {t t' : TensorImpl} {dim : Int} {d : Nat}

theorem exists_unsqueeze (hd : d ≤ t.shape.length) (hdim : normalizeDim dim (t.ndim + 1) = d)
    (hfit : StridesFit t.shape) : ∃ t', t.unsqueeze self dim = .ok t' := by
  have hrange : ¬ (normalizeDim dim (t.ndim + 1) < 0 ∨
      t.ndim + 1 ≤ normalizeDim dim (t.ndim + 1)) := by
    rw [hdim, ndim]
    omega
  have hc : t.isContiguous = .ok (decide (t.strides = rowMajor t.shape)) := by
    rw [isContiguous_eq_ok]
    exact ⟨hfit, by simp⟩
  exact ⟨_, bind_eq_ok.mpr ⟨(), throwIf_of_not hrange, bind_eq_ok.mpr ⟨_, hc, rfl⟩⟩⟩

/-- The stride of the inserted axis is the row-major one exactly when the
other strides are. -/
theorem insertIdx_eq_rowMajor_iff {contiguous : Bool} (hd : d ≤ t.shape.length) (hfit : InInt64 (t.shape.drop d).prod)
    (hc : t.strides = rowMajor t.shape ↔ contiguous = true) :
    t.strides.insertIdx d (t.unsqueezeStride contiguous d) = rowMajor (t.shape.insertIdx d 1) ↔
      contiguous = true := by
  rw [rowMajor_insertIdx hd, ← hc]
  constructor
  · intro h
    have herase := congrArg (List.eraseIdx · d) h
    simpa only [eraseIdx_insertIdx_self] using herase
  · intro h
    have hstride : t.unsqueezeStride contiguous d = (t.shape.drop d).prod := by
      by_cases hlt : d < t.shape.length
      · simp only [unsqueezeStride, if_pos hlt, hc.mp h, if_true]
        rw [h, rowMajor_getD hlt, wrap64_of_inInt64 hfit]
      · rw [unsqueezeStride, if_neg hlt, drop_of_length_le (not_lt.mp hlt), prod_nil]
    rw [hstride, h]

/-- Inserting an axis leaves the answer of the contiguity test as it was,
unless the stride of a new first axis is no word. -/
theorem isContiguous_unsqueeze (hdim : normalizeDim dim (t.ndim + 1) = d) (h : t.unsqueeze self dim = .ok t') :
    (∃ b, t.isContiguous = .ok b ∧ t'.isContiguous = .ok b) ↔
      (d = 0 → InInt64 t.shape.prod) := by
  obtain ⟨k, contiguous, hd, hk, hc, rfl⟩ := unsqueeze_ok h
  obtain rfl : k = d := by omega
  obtain ⟨hfit, hiff⟩ := isContiguous_eq_ok.mp hc
  constructor
  · rintro ⟨b, -, hb⟩
    exact ((stridesFit_insertIdx hd).mp (isContiguous_eq_ok.mp hb).1).2
  · intro hprod
    have hfit' : StridesFit (t.shape.insertIdx k 1) := (stridesFit_insertIdx hd).mpr ⟨hfit, hprod⟩
    refine ⟨contiguous, hc, isContiguous_eq_ok.mpr ⟨hfit', ?_⟩⟩
    exact insertIdx_eq_rowMajor_iff hd (inInt64_drop hfit' hd) hiff

/-- The view attributes of two tensors agree. -/
structure SameView (t s : TensorImpl) : Prop where
  shape : s.shape = t.shape
  strides : s.strides = t.strides
  offset : s.offset = t.offset
  names : s.names = t.names
  qAxis : s.qAxis = t.qAxis

/-- The name lists that come back: as long as the rank, or not reaching the axis. -/
def NamesReturn (t : TensorImpl) (d : Nat) : Prop :=
  ∀ names ∈ t.names, names.length = t.shape.length ∨ names.length ≤ d

theorem names_roundtrip_iff {α : Type*} {names : List α} {rank d : Nat} (x : α) (hd : d ≤ rank) :
    (let inserted := if names.length = rank then names.insertIdx d x else names
     (if d < inserted.length then inserted.eraseIdx d else inserted) = names) ↔
      names.length = rank ∨ names.length ≤ d := by
  by_cases hrank : names.length = rank
  · have hlt : d < (names.insertIdx d x).length := by
      rw [length_insertIdx, if_pos (by omega)]
      omega
    simp [hrank, hlt, eraseIdx_insertIdx_self]
  · simp only [hrank, if_false, false_or]
    constructor
    · intro h
      by_contra hlt
      rw [if_pos (by omega)] at h
      have hlen := congrArg List.length h
      rw [length_eraseIdx, if_pos (by omega)] at hlen
      omega
    · intro hle
      rw [if_neg (by omega)]

/-- The channel axis shifts right and back. -/
theorem axis_roundtrip (channels : Prop) [Decidable channels] (k axis : Int) :
    (let shifted := if channels ∧ k ≤ axis then axis + 1 else axis
     if channels ∧ k < shifted then shifted - 1 else shifted) = axis := by
  by_cases hc : channels
  · by_cases hle : k ≤ axis
    · simp [hc, hle, Int.lt_add_one_of_le hle]
    · have hlt : ¬ k < axis := by omega
      simp [hc, hle, hlt]
  · simp [hc]

/-- An axis of size one that holds no channels is squeezed out. -/
theorem squeezeDim_of_one (hd : d < t.shape.length) (hdim : normalizeDim dim t.ndim = d)
    (hone : t.shape.getD d 0 = 1) (haxis : t.qScales.isSome = true → (d : Int) ≠ t.qAxis) :
    t.squeezeDim self dim = .ok (.fresh { t.copy with
      shape := t.shape.eraseIdx d
      strides := t.strides.eraseIdx d
      names := t.names.map fun names => if d < names.length then names.eraseIdx d else names
      qAxis := if t.qScales.isSome ∧ (d : Int) < t.qAxis then t.qAxis - 1 else t.qAxis
      viewBase := t.baseFor self }) := by
  have hrange : ¬ (normalizeDim dim t.ndim < 0 ∨ t.ndim ≤ normalizeDim dim t.ndim) := by
    rw [hdim, ndim]
    omega
  have hchannel : ¬ (t.qScales.isSome = true ∧ normalizeDim dim t.ndim = t.qAxis) := by
    rw [hdim]
    exact fun h => haxis h.1 h.2
  have hsize : ¬ t.shape.getD (normalizeDim dim t.ndim).toNat 0 ≠ 1 := by
    rw [hdim]
    exact not_not.mpr hone
  refine bind_eq_ok.mpr ⟨(), throwIf_of_not hrange, ?_⟩
  rw [if_neg hsize]
  refine bind_eq_ok.mpr ⟨(), throwIf_of_not hchannel, ?_⟩
  simp [hdim]

/-- Squeezing the inserted axis always returns, with everything but the names
as it was. -/
theorem squeeze_unsqueeze (id : TensorId) (hdim : normalizeDim dim (t.ndim + 1) = d)
    (h : t.unsqueeze self dim = .ok t') :
    ∃ r, t'.squeeze id (some dim) = .ok r ∧ (SameView t (r.impl t') ↔ NamesReturn t d) := by
  obtain ⟨k, contiguous, hd, hk, -, rfl⟩ := unsqueeze_ok h
  obtain rfl : k = d := by omega
  have hrank : (t.shape.insertIdx k 1).length = t.shape.length + 1 := by
    rw [length_insertIdx, if_pos hd]
  have hone : (t.shape.insertIdx k 1).getD k 0 = 1 := by
    simp [List.getD, getElem?_insertIdx, hd]
  refine ⟨_, squeezeDim_of_one ?_ ?_ hone ?_, ?_⟩
  · dsimp only
    omega
  · rw [← hdim, ndim, ndim]
    rw [hrank, Nat.cast_add, Nat.cast_one]
  · intro hq
    simp only [copy] at hq ⊢
    by_cases hle : (k : Int) ≤ t.qAxis
    · rw [if_pos ⟨hq, hle⟩]
      omega
    · omega
  simp only [ViewResult.impl, copy]
  constructor
  · intro hview names hmem
    obtain ⟨-, -, -, hn, -⟩ := hview
    rw [Option.mem_def] at hmem
    simp only [hmem, Option.map_some, Option.some.injEq] at hn
    exact (names_roundtrip_iff none hd).mp hn
  · intro hreturn
    constructor
    · exact eraseIdx_insertIdx_self 1
    · exact eraseIdx_insertIdx_self _
    · rfl
    · cases hn : t.names with
      | none => rfl
      | some names =>
        simp only [Option.map_some, Option.some.injEq]
        exact (names_roundtrip_iff none hd).mpr (hreturn names hn)
    · exact axis_roundtrip _ _ _

/-- Taking a contiguous tensor's axes of size one out keeps it contiguous. -/
theorem isContiguous_squeeze {r : ViewResult} (hc : t.isContiguous = .ok true)
    (h : t.squeezeDim self dim = .ok r) : (r.impl t).isContiguous = .ok true := by
  obtain ⟨d, hd, -, ⟨-, rfl⟩ | ⟨hone, -, rfl⟩⟩ := squeezeDim_ok h
  · exact hc
  · obtain ⟨hfit, hiff⟩ := isContiguous_eq_ok.mp hc
    have hshape : (t.shape.eraseIdx d).insertIdx d 1 = t.shape := by
      rw [← hone]
      exact insertIdx_eraseIdx_getD 0 hd
    have hle : d ≤ (t.shape.eraseIdx d).length := by
      rw [length_eraseIdx, if_pos hd]
      omega
    rw [← hshape, stridesFit_insertIdx hle] at hfit
    rw [isContiguous_eq_ok]
    refine ⟨hfit.1, ?_⟩
    simp only [ViewResult.impl, copy, iff_true]
    rw [hiff.mpr rfl, ← hshape, rowMajor_insertIdx hle, eraseIdx_insertIdx_self, hshape]

/-- `squeeze` undoes `unsqueeze`, and the axis between them leaves contiguity alone. -/
def UnsqueezeUndone (self : TensorId) (t : TensorImpl) (dim : Int) : Prop :=
  ∃ t', t.unsqueeze self dim = .ok t' ∧
    (∀ id, ∃ r, t'.squeeze id (some dim) = .ok r ∧ SameView t (r.impl t')) ∧
    ∃ b, t.isContiguous = .ok b ∧ t'.isContiguous = .ok b

/-- Squeezing any axis of size one of a contiguous tensor gives a contiguous
tensor. The channel axis is refused. -/
def SqueezeKeepsContiguity (self : TensorId) (t : TensorImpl) : Prop :=
  ∀ dim, -t.ndim ≤ dim → dim < t.ndim → t.shape.getD (normalizeDim dim t.ndim).toNat 0 = 1 →
    t.isContiguous = .ok true →
      (t.qScales.isSome = true ∧ normalizeDim dim t.ndim = t.qAxis) ∨
      ∃ r, t.squeeze self (some dim) = .ok r ∧ (r.impl t).isContiguous = .ok true

theorem squeezeKeepsContiguity (self : TensorId) (t : TensorImpl) :
    t.SqueezeKeepsContiguity self := by
  intro dim hlo hhi hone hc
  by_cases haxis : t.qScales.isSome = true ∧ normalizeDim dim t.ndim = t.qAxis
  · exact .inl haxis
  · right
    obtain ⟨d, hd, hlt⟩ : ∃ d : Nat, normalizeDim dim t.ndim = d ∧ (d : Int) < t.ndim := by
      apply exists_axis
      rw [normalizeDim]
      split_ifs <;> omega
    rw [hd] at hone
    have hr : t.squeezeDim self dim = .ok _ :=
      squeezeDim_of_one (by simpa [ndim] using hlt) hd hone fun hq heq => haxis ⟨hq, hd.trans heq⟩
    exact ⟨_, hr, isContiguous_squeeze hc hr⟩

/-- The axis comes out again with the names and the contiguity it went in with
exactly when the row-major strides on both sides are words and no name list of
another length than the rank reaches the axis. -/
theorem unsqueeze_squeeze_iff (self : TensorId) (t : TensorImpl) (dim : Int)
    (hlo : -(t.ndim + 1) ≤ dim) (hhi : dim < t.ndim + 1) :
    t.UnsqueezeUndone self dim ∧ t.SqueezeKeepsContiguity self ↔
      StridesFit t.shape ∧
      (normalizeDim dim (t.ndim + 1) = 0 → InInt64 t.shape.prod) ∧
      t.NamesReturn (normalizeDim dim (t.ndim + 1)).toNat := by
  obtain ⟨d, hd, hlt⟩ : ∃ d : Nat, normalizeDim dim (t.ndim + 1) = d ∧ (d : Int) < t.ndim + 1 := by
    apply exists_axis
    rw [normalizeDim]
    split_ifs <;> omega
  have hle : d ≤ t.shape.length := by
    rw [ndim] at hlt
    omega
  rw [hd, Nat.cast_eq_zero]
  constructor
  · rintro ⟨⟨t', ht', hback, hcontiguous⟩, -⟩
    obtain ⟨b, hb, hb'⟩ := hcontiguous
    refine ⟨(isContiguous_eq_ok.mp hb).1, ?_, ?_⟩
    · exact (isContiguous_unsqueeze hd ht').mp ⟨b, hb, hb'⟩
    · obtain ⟨r, hr, hview⟩ := hback self
      obtain ⟨r', hr', hiff⟩ := squeeze_unsqueeze self hd ht'
      obtain rfl : r = r' := Except.ok.inj (hr.symm.trans hr')
      exact hiff.mp hview
  · rintro ⟨hfit, hprod, hnames⟩
    refine ⟨?_, squeezeKeepsContiguity self t⟩
    obtain ⟨t', ht'⟩ : ∃ t', t.unsqueeze self dim = .ok t' := exists_unsqueeze hle hd hfit
    refine ⟨t', ht', ?_, (isContiguous_unsqueeze hd ht').mpr hprod⟩
    intro id
    obtain ⟨r, hr, hiff⟩ := squeeze_unsqueeze id hd ht'
    exact ⟨r, hr, hiff.mpr hnames⟩

/-- Two rows of three elements, with a name for each axis. -/
def namedBatch : TensorImpl where
  storage := .ofBytes 0 24
  shape := [2, 3]
  strides := [3, 1]
  dtype := .float32
  names := some [some "N", some "C"]

theorem unsqueeze_squeeze_namedBatch :
    namedBatch.UnsqueezeUndone 0 1 ∧ namedBatch.SqueezeKeepsContiguity 0 := by
  apply (unsqueeze_squeeze_iff 0 namedBatch 1 (by decide) (by decide)).mpr
  refine ⟨by decide, by decide, ?_⟩
  intro names hnames
  obtain rfl : [some "N", some "C"] = names := Option.some.inj hnames
  exact Or.inl (by decide)

/-- A flattened view keeps both names on its one axis, and the round trip over
its first axis loses one of them. -/
theorem flattened_names_not_undone :
    ∃ flat, namedBatch.view 0 [6] = .ok flat ∧ ¬ flat.UnsqueezeUndone 1 0 := by
  refine ⟨_, rfl, ?_⟩
  rintro ⟨t', ht', hback, -⟩
  obtain ⟨r, hr, hview⟩ := hback 2
  obtain ⟨r', hr', hiff⟩ := squeeze_unsqueeze (d := 0) 2 rfl ht'
  obtain rfl : r = r' := Except.ok.inj (hr.symm.trans hr')
  rcases hiff.mp hview _ rfl with hlen | hlen
  · exact absurd hlen (by decide)
  · exact absurd hlen (by decide)

end TensorImpl

end Tenzor
