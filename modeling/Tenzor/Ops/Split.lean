import Tenzor.Autograd.ShapeTransposes
import Tenzor.Ops.Stored

/-!
# Splitting along an axis

Four functions cut an axis into ranges and return one view for each range. Two of them and the
sections of `tensor_split` walk the axis in equal strides and stop at its end; sizes and split
points are followed one by one.

## Implementation notes

Sums and products of the arguments and of loop counters wrap. A vector refuses to grow past its
`max_size`; that there may be less memory than that is left out.
-/

namespace Tenzor.ShapeOps

open Strided Reindexing Throwing Wrap64 List
open Tensor (sliceIndex catValue normalizeDim_natCast)

variable {R : Type}

namespace Stored

/-- `max_size` of a vector of tensors. -/
def maxPieces : Int := 1152921504606846975

/-- `std::length_error`. -/
def lengthError (what : String) : Exn := .runtimeError what

def reserve (count : Int) : Except Exn Unit :=
  throwIf (count < 0 ∨ maxPieces < count) (lengthError "vector::reserve")

/-- The slices at the ranges, pushed back one after the other. -/
def slices (t : Stored R) (d : Int) : Int → List (Int × Int) → Except Exn (List (Stored R))
  | _, [] => .ok []
  | held, r :: ranges => do
      let piece ← t.slice d r.1 r.2 1
      throwIf (maxPieces ≤ held) (lengthError "vector::_M_realloc_append")
      let pieces ← slices t d (held + 1) ranges
      return piece :: pieces

/-- The dimension from the front. -/
def dimFrom (t : Stored R) (outOfRange : Exn) (dim : Int) : Except Exn Int := do
  let d := normalizeDim dim t.ndim
  throwIf (d < 0 ∨ t.ndim ≤ d) outOfRange
  return d

/-- Rounds `i`, `i + 1`, … of a loop over equal strides that stops at the end of the axis. -/
def strideRanges (dimSize stride : Int) : ℕ → Int → List (Int × Int)
  | 0, _ => []
  | rounds + 1, i =>
    let start := wrap64 (i * stride)
    let stop := min (wrap64 (start + stride)) dimSize
    if dimSize ≤ start then [] else (start, stop) :: strideRanges dimSize stride rounds (i + 1)

def split (t : Stored R) (splitSize dim : Int) : Except Exn (List (Stored R)) := do
  throwIf (splitSize ≤ 0) (.invalidArgument "Split size must be positive")
  let d ← t.dimFrom (.invalidArgument "Dimension out of range for split") dim
  let numSplits := (wrap64 (t.size d + splitSize - 1)).tdiv splitSize
  reserve numSplits
  t.slices d 0 (strideRanges (t.size d) splitSize numSplits.toNat 0)

/-- The total of the sizes, none of which may be negative. -/
def totalSize : Int → List Int → Except Exn Int
  | total, [] => .ok total
  | total, s :: splitSizes => do
      throwIf (s < 0) (.invalidArgument "split_with_sizes: sizes must be non-negative")
      totalSize (wrap64 (total + s)) splitSizes

/-- A range of each size. -/
def sizedRanges : Int → List Int → List (Int × Int)
  | _, [] => []
  | offset, s :: splitSizes =>
    (offset, wrap64 (offset + s)) :: sizedRanges (wrap64 (offset + s)) splitSizes

def splitWithSizes (t : Stored R) (splitSizes : List Int) (dim : Int) :
    Except Exn (List (Stored R)) := do
  let d ← t.dimFrom (.invalidArgument "Dimension out of range for split_with_sizes") dim
  let total ← totalSize 0 splitSizes
  throwIf (total ≠ t.size d) (.invalidArgument
    s!"split_with_sizes: sizes must sum to dimension size ({total} != {t.size d})")
  reserve splitSizes.length
  t.slices d 0 (sizedRanges 0 splitSizes)

def chunk (t : Stored R) (chunks dim : Int) : Except Exn (List (Stored R)) := do
  throwIf (chunks ≤ 0) (.invalidArgument "Number of chunks must be positive")
  let d ← t.dimFrom (.invalidArgument "Dimension out of range for chunk") dim
  let chunkSize := (wrap64 (t.size d + chunks - 1)).tdiv chunks
  reserve chunks
  t.slices d 0 (strideRanges (t.size d) chunkSize chunks.toNat 0)

/-- `tensor_split` into a number of sections. -/
def tensorSplit (t : Stored R) (sections dim : Int) : Except Exn (List (Stored R)) := do
  throwIf (sections ≤ 0)
    (.invalidArgument "tensor_split: number of sections must be positive")
  let d ← t.dimFrom (.outOfRange "tensor_split: dim out of range") dim
  let chunkSize := (wrap64 (t.size d + sections - 1)).tdiv sections
  t.slices d 0 (strideRanges (t.size d) chunkSize sections.toNat 0)

/-- A split point in the axis, not before the previous one. -/
def splitPoint (dimSize prev idx : Int) : Int :=
  let idx := normalizeDim idx dimSize
  let idx := if idx < 0 then 0 else idx
  let idx := if dimSize < idx then dimSize else idx
  if idx < prev then prev else idx

def pointRanges (dimSize : Int) : Int → List Int → List (Int × Int)
  | prev, [] => [(prev, dimSize)]
  | prev, idx :: indices =>
    (prev, splitPoint dimSize prev idx) ::
      pointRanges dimSize (splitPoint dimSize prev idx) indices

/-- `tensor_split` at split points. -/
def tensorSplitAt (t : Stored R) (indices : List Int) (dim : Int) :
    Except Exn (List (Stored R)) := do
  let d ← t.dimFrom (.outOfRange "tensor_split: dim out of range") dim
  t.slices d 0 (pointRanges (t.size d) 0 indices)

/-- Consecutive ranges from one position to another. -/
def Covers : Int → List (Int × Int) → Int → Prop
  | lo, [], hi => lo = hi
  | lo, r :: ranges, hi => r.1 = lo ∧ r.1 ≤ r.2 ∧ Covers r.2 ranges hi

def rangeSize (r : Int × Int) : Int := r.2 - r.1

section Covers

variable {lo hi : Int} {ranges : List (Int × Int)}

theorem Covers.bounds (h : Covers lo ranges hi) :
    lo ≤ hi ∧ ∀ r ∈ ranges, lo ≤ r.1 ∧ r.1 ≤ r.2 ∧ r.2 ≤ hi := by
  induction ranges generalizing lo with
  | nil => exact ⟨le_of_eq h, by simp⟩
  | cons r ranges ih =>
    obtain ⟨rfl, horder, hrest⟩ := h
    obtain ⟨hle, hbounds⟩ := ih hrest
    refine ⟨horder.trans hle, forall_mem_cons.mpr ⟨⟨le_rfl, horder, hle⟩, fun s hs => ?_⟩⟩
    obtain ⟨hlo, hs⟩ := hbounds s hs
    exact ⟨horder.trans hlo, hs⟩

theorem Covers.sum_sizes (h : Covers lo ranges hi) : (ranges.map rangeSize).sum = hi - lo := by
  induction ranges generalizing lo with
  | nil =>
    obtain rfl := h
    simp
  | cons r ranges ih =>
    obtain ⟨rfl, -, hrest⟩ := h
    rw [map_cons, sum_cons, ih hrest, rangeSize]
    omega

end Covers

/-- The piece is the view of the range: it has the storage of the tensor, from the start of the
range on. -/
structure ViewOf (t : Stored R) (d : ℕ) (r : Int × Int) (p : Stored R) : Prop where
  shape_eq : p.shape = t.shape.set d (rangeSize r)
  reads : Reads t.elements p.elements (sliceIndex d r.1 1)
  handle_eq : p.handle = { t.handle with offset := t.handle.offset + r.1 * t.handle.strides.getD d 0 }

/-- The sizes of tensors along an axis. -/
abbrev sizesAlong (d : ℕ) (ts : List (Stored R)) : List Int :=
  ShapeOps.sizesAlong d (ts.map elements)

section Slices

variable {t : Stored R} {d : ℕ} {held : Int} {ranges : List (Int × Int)} {pieces : List (Stored R)}
  {r : Int × Int} {p : Stored R}

theorem slices_cons_eq_ok :
    t.slices d held (r :: ranges) = .ok pieces ↔
      ∃ p ps, t.slice d r.1 r.2 1 = .ok p ∧ held < maxPieces ∧
        t.slices d (held + 1) ranges = .ok ps ∧ p :: ps = pieces := by
  simp only [slices, bind_eq_ok, throwIf_eq_ok, pure_eq_ok, not_le]
  constructor
  · rintro ⟨p, hp, _, hroom, ps, hps, rfl⟩
    exact ⟨p, ps, hp, hroom, hps, rfl⟩
  · rintro ⟨p, ps, hp, hroom, hps, rfl⟩
    exact ⟨p, hp, (), hroom, ps, hps, rfl⟩

/-- What a slice that is taken says about its ends. -/
theorem slice_bounds {first last : Int} (hd : d < t.shape.length)
    (h : t.slice d first last 1 = .ok p) :
    0 ≤ normalizeDim first (t.size d) ∧
      normalizeDim first (t.size d) ≤ normalizeDim last (t.size d) ∧
      normalizeDim last (t.size d) ≤ t.size d := by
  obtain ⟨e, -, he, -, hfirst, horder, hlast, -⟩ := Tensor.slice_ok (slice_eq_ok.mp h).1
  have hdim : normalizeDim d t.ndim = d := normalizeDim_natCast d t.ndim
  obtain rfl : e = d := by
    rw [hdim] at he
    exact_mod_cast he.symm
  exact ⟨hfirst, horder, hlast⟩

theorem slice_viewOf (hd : d < t.shape.length) (hfirst : 0 ≤ r.1) (horder : r.1 ≤ r.2)
    (hlast : r.2 ≤ t.size d) (h : t.slice d r.1 r.2 1 = .ok p) : t.ViewOf d r p := by
  obtain ⟨h, hhandle⟩ := slice_eq_ok.mp h
  obtain ⟨q, hq, hshape, hreads⟩ := Tensor.exists_slice_one hd hfirst horder hlast
  obtain rfl : q = p.elements := Except.ok.inj (hq.symm.trans h)
  refine ⟨hshape, hreads, ?_⟩
  rw [hhandle, normalizeDim_natCast d t.ndim, Int.toNat_natCast, normalizeDim,
    if_neg (not_lt.mpr hfirst)]
  rfl

/-- The pieces of ranges inside the axis are their views. -/
theorem views_of_slices (hd : d < t.shape.length)
    (hranges : ∀ r ∈ ranges, 0 ≤ r.1 ∧ r.1 ≤ r.2 ∧ r.2 ≤ t.size d)
    (h : t.slices d held ranges = .ok pieces) : List.Forall₂ (t.ViewOf d) ranges pieces := by
  induction ranges generalizing held pieces with
  | nil =>
    obtain rfl : [] = pieces := Except.ok.inj h
    exact Forall₂.nil
  | cons r ranges ih =>
    obtain ⟨⟨hfirst, horder, hlast⟩, hranges⟩ := forall_mem_cons.mp hranges
    obtain ⟨p, ps, hp, -, hps, rfl⟩ := slices_cons_eq_ok.mp h
    exact Forall₂.cons (slice_viewOf hd hfirst horder hlast hp) (ih hranges hps)

theorem exists_slices (hd : d < t.shape.length)
    (hranges : ∀ r ∈ ranges, 0 ≤ r.1 ∧ r.1 ≤ r.2 ∧ r.2 ≤ t.size d)
    (hroom : held + ranges.length ≤ maxPieces) : ∃ pieces, t.slices d held ranges = .ok pieces := by
  induction ranges generalizing held with
  | nil => exact ⟨[], rfl⟩
  | cons r ranges ih =>
    obtain ⟨⟨hfirst, horder, hlast⟩, hranges⟩ := forall_mem_cons.mp hranges
    rw [length_cons] at hroom
    obtain ⟨z, hz, -⟩ := Tensor.exists_slice_one hd hfirst horder hlast
    obtain ⟨p, hp⟩ : ∃ p, t.slice d r.1 r.2 1 = .ok p := ⟨⟨z, _⟩, slice_eq_ok.mpr ⟨hz, rfl⟩⟩
    obtain ⟨ps, hps⟩ : ∃ ps, t.slices d (held + 1) ranges = .ok ps := ih hranges (by omega)
    exact ⟨p :: ps, slices_cons_eq_ok.mpr ⟨p, ps, hp, by omega, hps, rfl⟩⟩

/-- A vector that is returned has not grown past its bound. -/
theorem length_of_slices (hheld : held ≤ maxPieces) (h : t.slices d held ranges = .ok pieces) :
    held + ranges.length ≤ maxPieces ∧ pieces.length = ranges.length := by
  induction ranges generalizing held pieces with
  | nil =>
    obtain rfl : [] = pieces := Except.ok.inj h
    simpa using hheld
  | cons r ranges ih =>
    obtain ⟨p, ps, -, hroom, hps, rfl⟩ := slices_cons_eq_ok.mp h
    obtain ⟨hlen, hpieces⟩ := ih (by omega) hps
    simp only [length_cons] at hlen ⊢
    omega

end Slices

section Joining

variable {t : Stored R} {d : ℕ} {lo hi : Int} {ranges : List (Int × Int)}
  {pieces : List (Stored R)}

theorem sizesAlong_views (hd : d < t.shape.length)
    (hviews : List.Forall₂ (t.ViewOf d) ranges pieces) :
    sizesAlong d pieces = ranges.map rangeSize := by
  induction hviews with
  | nil => rfl
  | cons hview _ ih =>
    have hsize : (shape _).getD d 0 = _ := congrArg (getD · d 0) hview.shape_eq
    rw [getD_set_self _ hd] at hsize
    exact congrArg₂ cons hsize ih

/-- Below an element of the concatenation lies the element of the tensor. -/
theorem catValue_views [Zero R] (hd : d < t.shape.length) (hcovers : Covers lo ranges hi)
    (hviews : List.Forall₂ (t.ViewOf d) ranges pieces) {c : List Int}
    (hc : Within c (t.shape.set d (hi - lo))) :
    catValue d (pieces.map elements) c = t.elements.value (c.set d (lo + c.getD d 0)) := by
  have hlen : d < c.length := by
    rw [hc.length_eq]
    simpa using hd
  have hb := within_getD (d := d) hc (by simpa using hd)
  rw [getD_set_self _ hd] at hb
  induction hviews generalizing lo c with
  | nil =>
    obtain rfl : lo = hi := hcovers
    omega
  | @cons r p ranges pieces hview _ ih =>
    obtain ⟨rfl, horder, hrest⟩ := hcovers
    obtain ⟨hshape, hreads, -⟩ := hview
    have hsize : p.shape.getD d 0 = r.2 - r.1 := by rw [hshape, getD_set_self _ hd, rangeSize]
    rw [map_cons, catValue, hsize]
    by_cases hlt : c.getD d 0 < r.2 - r.1
    · have hin : Within c p.shape := by
        rw [hshape]
        have hset := within_set_set (d := d) (x := c.getD d 0) (n := r.2 - r.1) hc
          ⟨hb.1, hlt⟩ (by simpa using hd)
        rwa [set_getD_self, set_set] at hset
      rw [if_pos hlt, hreads.value_eq c hin, sliceIndex, mul_one]
    · have hnext : Within (c.set d (c.getD d 0 - (r.2 - r.1))) (t.shape.set d (hi - r.2)) := by
        have hset := within_set_set (d := d) (x := c.getD d 0 - (r.2 - r.1)) (n := hi - r.2) hc
          ⟨by omega, by omega⟩ (by simpa using hd)
        rwa [set_set] at hset
      have hget : (c.set d (c.getD d 0 - (r.2 - r.1))).getD d 0 = c.getD d 0 - (r.2 - r.1) :=
        getD_set_self _ hlen
      rw [if_neg hlt, ih hrest hnext (by simpa using hlen) (by omega), set_set]
      congr 2
      omega

theorem shape_of_views (hd : d < t.shape.length)
    (hviews : List.Forall₂ (t.ViewOf d) ranges pieces) :
    ∀ u ∈ pieces.map elements, u.shape = t.shape.set d (u.shape.getD d 0) := by
  induction hviews with
  | nil => simp
  | cons hview _ ih =>
    refine forall_mem_cons.mpr ⟨?_, ih⟩
    have hshape : (elements _).shape = _ := hview.shape_eq
    rw [hshape, getD_set_self _ hd]

/-- A single piece is the tensor. -/
theorem same_single {r : Int × Int} {p : Stored R} (hcovers : Covers 0 [r] (t.size d))
    (hview : t.ViewOf d r p) : t.Same p := by
  obtain ⟨hfirst, -, hlast⟩ := hcovers
  obtain ⟨hshape, hreads, hhandle⟩ := hview
  have hwhole : p.shape = t.shape := by
    rw [hshape, rangeSize, hfirst, hlast, sub_zero]
    exact set_getD_self _ _
  refine ⟨⟨hwhole.symm, fun c hc => ?_⟩, ?_⟩
  · have hin : Within c p.elements.shape := by
      rw [show p.elements.shape = t.elements.shape from hwhole]
      exact hc
    rw [hreads.value_eq c hin, sliceIndex, hfirst, zero_add, mul_one,
      set_getD_self]
  · rw [quantization, quantization, hhandle]

/-- Tensors that agree off the axis can be concatenated. -/
theorem exists_cat [Zero R] (dim : Int) {p q : Tensor R} {ps : List (Tensor R)}
    (hd : d < p.shape.length) (hdim : normalizeDim dim p.ndim = d)
    (hshapes : ∀ u ∈ p :: q :: ps, u.shape = p.shape.set d (u.shape.getD d 0)) :
    ∃ y, Tensor.cat (p :: q :: ps) dim = .ok y ∧
      y.shape = p.shape.set d (ShapeOps.sizesAlong d (p :: q :: ps)).sum ∧
      y.value = catValue d (p :: q :: ps) := by
  have hnn : ∀ n ∈ p.shape.set d (ShapeOps.sizesAlong d (p :: q :: ps)).sum, 0 ≤ n := by
    intro n hn
    obtain hn | rfl := mem_or_eq_of_mem_set hn
    · exact p.shape_nonneg n hn
    · exact sizesAlong_nonneg hd hshapes
  obtain ⟨y, hy, hshape, hvalue⟩ := Tensor.exists_make (catValue d (p :: q :: ps)) hnn
  refine ⟨y, ?_, hshape, hvalue⟩
  have hguard : ¬ ((d : Int) < 0 ∨ p.ndim ≤ d) := by
    unfold Tensor.ndim
    omega
  simp only [Tensor.cat, hdim, throwIf_of_not hguard, bind_eq_ok]
  refine ⟨(), trivial, (), forM_eq_ok.mpr fun u hu => ?_, hy⟩
  have hu := hshapes u hu
  have hlen : u.shape.length = p.shape.length := by rw [hu, length_set]
  refine bind_eq_ok.mpr ⟨(), throwIf_eq_ok.mpr (not_not.mpr hlen), throwIf_eq_ok.mpr ?_⟩
  rintro ⟨k, -, hk, hne⟩
  rw [Int.toNat_natCast] at hk
  refine hne ?_
  rw [hu, getD_set _ _ _ _ _ hd, if_neg hk]

/-- The views of ranges that cover the axis give the elements back. Only a single piece keeps its
quantization. -/
theorem exists_cat_views [Zero R] {dim : Int} (hd : d < t.shape.length)
    (hdim : normalizeDim dim t.ndim = d) (hcovers : Covers 0 ranges (t.size d))
    (hviews : List.Forall₂ (t.ViewOf d) ranges pieces) (hne : pieces ≠ []) :
    ∃ y, cat pieces dim = .ok y ∧ t.elements.Same y.elements ∧
      y.quantization = if ranges.length = 1 then t.quantization else {} := by
  have hsizes := (congrArg List.sum (sizesAlong_views hd hviews)).trans hcovers.sum_sizes
  have hshapes := shape_of_views hd hviews
  cases hviews with
  | nil => exact absurd rfl hne
  | @cons r p ranges rest hview hrest =>
    cases hrest with
    | nil =>
      have hsame := same_single hcovers hview
      exact ⟨p, rfl, hsame.elements, hsame.quantization_eq.symm⟩
    | @cons s q ranges ps hview' hrest =>
      have hpshape : p.elements.shape = t.shape.set d (rangeSize r) := hview.shape_eq
      have hlen : p.elements.shape.length = t.shape.length := by rw [hpshape, length_set]
      obtain ⟨y, hy, hyshape, hyvalue⟩ := exists_cat dim (p := p.elements) (hlen ▸ hd)
        (by rwa [Tensor.ndim, hlen]) fun u hu => by
          rw [hshapes u hu, hpshape, set_set, getD_set_self _ hd]
      have hwhole : y.shape = t.shape := by
        rw [hyshape, hpshape, set_set]
        exact (congrArg (t.shape.set d) (hsizes.trans (sub_zero _))).trans (set_getD_self _ _)
      refine ⟨⟨y, .fresh y.shape⟩, bind_eq_ok.mpr ⟨y, hy, rfl⟩,
        ⟨hwhole.symm, fun c hc => ?_⟩, ?_⟩
      · have hin : Within c (t.shape.set d (t.size d - 0)) := by
          rw [sub_zero]
          exact (set_getD_self t.shape d).symm ▸ hc
        rw [hyvalue]
        have hvalue := catValue_views hd hcovers (.cons hview (.cons hview' hrest)) hin
        rw [zero_add, set_getD_self] at hvalue
        exact hvalue.symm
      · rw [if_neg (by simp)]
        rfl

end Joining

end Stored

end Tenzor.ShapeOps
