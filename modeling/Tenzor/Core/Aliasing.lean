import Tenzor.Core.Reshape

/-!
# In-place aliasing

Before an in-place kernel runs, `may_alias` compares the byte spans of its
target and its other inputs. The span of a tensor is the reach of its strided
layout, with unchecked arithmetic, times the element size. On in-bounds tensors
it covers every byte an element takes.

## Implementation notes

A tensor handle is a pointer to its `TensorImpl`, which is the address together
with what it points at; a null handle is `none`.
-/

namespace Tenzor

variable {shape : List Int} {e : Exn} {t : TensorImpl}

open Wrap64 Strided Throwing List

/-- The error of an element count that is no word. -/
def countOverflow : Exn :=
  .overflowError "Tensor size overflow: shape produces more than INT64_MAX elements"

/-- A pointer to a `TensorImpl`, and the impl. -/
structure Handle where
  address : TensorId
  impl : TensorImpl

/-- One axis of the span loop. Nothing here is checked for overflow. -/
def spanStep (acc : Int × Int) (axis : Int × Int) : Int × Int :=
  if 0 < axis.1 then
    let extent := wrap64 ((axis.1 - 1) * axis.2)
    if 0 ≤ extent then (acc.1, wrap64 (acc.2 + extent)) else (wrap64 (acc.1 + extent), acc.2)
  else acc

/-- The bytes from the lowest element on and up to the end of the highest one. -/
def reachableByteSpan (t : TensorImpl) : Except Exn (Int × Int) := do
  let esize : Int := dtypeSize t.dtype
  let n ← numel t.shape
  let (low, high) :=
    if 0 < n then (t.shape.zip t.strides).foldl spanStep (t.offset, t.offset)
    else (t.offset, t.offset)
  return (wrap64 (low * esize), wrap64 (wrap64 (high + 1) * esize))

/-- One impl with one geometry, the idiom of an operation on itself. -/
def SameGeometry (a b : Handle) : Prop :=
  a.address = b.address ∧ a.impl.offset = b.impl.offset ∧ a.impl.shape = b.impl.shape ∧
    a.impl.strides = b.impl.strides

instance (a b : Handle) : Decidable (SameGeometry a b) :=
  inferInstanceAs (Decidable (_ ∧ _ ∧ _ ∧ _))

def mayAlias : Option Handle → Option Handle → Except Exn Bool
  | some a, some b =>
    if SameGeometry a b then .ok false
    else if a.impl.storage.id ≠ b.impl.storage.id then .ok false
    else do
      let spanA ← reachableByteSpan a.impl
      let spanB ← reachableByteSpan b.impl
      return spanA.1 < spanB.2 ∧ spanB.1 < spanA.2
  | _, _ => .ok false

/-- The guard of `dispatch_inplace`: no other input may alias the target. -/
def checkAliases (opName : String) (ignoreAliasCheck : Bool) (target : Option Handle)
    (others : List (Option Handle)) : Except Exn Unit :=
  if ignoreAliasCheck then .ok ()
  else others.forM fun other => do
    let aliases ← mayAlias target other
    throwIf aliases (.runtimeError
      s!"dispatch_inplace: target tensor of {opName} aliases an input tensor. Clone the input first, or set AttrKey::IgnoreAliasCheck=true if self-aliasing is intentional.")

theorem numel_error (h : numel shape = .error e) : e = countOverflow := by
  have key : ∀ (shape : List Int) (r : Int), shape.foldlM numelStep r = .error e →
      e = countOverflow := by
    intro shape
    induction shape with
    | nil =>
      intro r h
      cases h
    | cons d rest ih =>
      intro r h
      rw [foldlM_cons] at h
      cases hstep : numelStep r d with
      | ok x =>
        rw [hstep] at h
        exact ih x h
      | error e' =>
        rw [hstep] at h
        obtain rfl : e' = e := Except.error.inj h
        unfold numelStep at hstep
        split at hstep
        · exact (Except.error.inj hstep).symm
        · cases hstep
  exact key shape 1 h

theorem reachableByteSpan_error (h : reachableByteSpan t = .error e) : e = countOverflow := by
  cases hn : numel t.shape with
  | error e' =>
    simp only [reachableByteSpan, hn, bind, Except.bind] at h
    obtain rfl : e' = e := Except.error.inj h
    exact numel_error hn
  | ok n =>
    simp only [reachableByteSpan, hn, bind, Except.bind] at h
    cases h

theorem numel_of_not_countFits (hnn : ∀ n ∈ shape, 0 ≤ n) (h : ¬ CountFits shape) :
    numel shape = .error countOverflow := by
  cases hn : numel shape with
  | ok n => exact absurd ((numel_eq_ok_iff hnn).mp hn).1 h
  | error e => rw [numel_error hn]

theorem sameGeometry_comm {a b : Handle} : SameGeometry a b ↔ SameGeometry b a := by
  constructor <;> rintro ⟨h₁, h₂, h₃, h₄⟩ <;> exact ⟨h₁.symm, h₂.symm, h₃.symm, h₄.symm⟩

/-- Both orders give one answer, and one error when an element count is no word. -/
theorem mayAlias_comm (a b : Option Handle) : mayAlias a b = mayAlias b a := by
  cases a with
  | none => cases b <;> rfl
  | some a =>
    cases b with
    | none => rfl
    | some b =>
      by_cases hsame : SameGeometry a b
      · rw [mayAlias, mayAlias, if_pos hsame, if_pos (sameGeometry_comm.mp hsame)]
      have hsame' : ¬ SameGeometry b a := fun h => hsame (sameGeometry_comm.mp h)
      rw [mayAlias, mayAlias, if_neg hsame, if_neg hsame']
      by_cases hst : a.impl.storage.id = b.impl.storage.id
      · rw [if_neg (not_not.mpr hst), if_neg (not_not.mpr hst.symm)]
        cases ha : reachableByteSpan a.impl with
        | error e =>
          obtain rfl := reachableByteSpan_error ha
          cases hb : reachableByteSpan b.impl with
          | error e =>
            obtain rfl := reachableByteSpan_error hb
            rfl
          | ok spanB => rfl
        | ok spanA =>
          cases hb : reachableByteSpan b.impl with
          | error e => rfl
          | ok spanB =>
            simp only [bind, Except.bind, pure, Except.pure, and_comm]
      · rw [if_pos hst, if_pos (Ne.symm hst)]

/-- Some element of the tensor takes the byte. -/
def TakesByte (t : TensorImpl) (k : Int) : Prop :=
  ∃ idx, Within idx t.shape ∧
    t.addr idx * dtypeSize t.dtype ≤ k ∧ k < (t.addr idx + 1) * dtypeSize t.dtype

/-- An element of each tensor takes one byte of one storage. -/
def ShareByte (a b : TensorImpl) : Prop :=
  a.storage.id = b.storage.id ∧ ∃ k, TakesByte a k ∧ TakesByte b k

/-- Without a wrap and without an empty axis the loop computes the reach. -/
theorem foldl_spanStep_eq_reach {axes : List (Int × Int)} {low high : Int}
    (hpos : ∀ axis ∈ axes, 0 < axis.1) (hlow : InInt64 low) (hhigh : InInt64 high)
    (hextent : ∀ axis ∈ axes, InInt64 ((axis.1 - 1) * axis.2))
    (hends : InInt64 (reach (low, high) axes).1 ∧ InInt64 (reach (low, high) axes).2) :
    axes.foldl spanStep (low, high) = reach (low, high) axes := by
  induction axes generalizing low high with
  | nil => rfl
  | cons axis axes ih =>
    obtain ⟨n, s⟩ := axis
    obtain ⟨hn, hpos'⟩ := forall_mem_cons.mp hpos
    obtain ⟨hext, hextent'⟩ := forall_mem_cons.mp hextent
    have hout := reach_outwards
      (low + min 0 ((n - 1) * s), high + max 0 ((n - 1) * s)) axes
    rw [reach_cons] at hends ⊢
    have hlow' : InInt64 (low + min 0 ((n - 1) * s)) :=
      inInt64_of_between hends.1 hlow hout.1 (by omega)
    have hhigh' : InInt64 (high + max 0 ((n - 1) * s)) :=
      inInt64_of_between hhigh hends.2 (by omega) hout.2
    have hstep : spanStep (low, high) (n, s) =
        (low + min 0 ((n - 1) * s), high + max 0 ((n - 1) * s)) := by
      simp only [spanStep, if_pos hn, wrap64_of_inInt64 hext]
      by_cases hs : 0 ≤ (n - 1) * s
      · rw [if_pos hs, min_eq_left hs, max_eq_right hs, add_zero]
        rw [max_eq_right hs] at hhigh'
        rw [wrap64_of_inInt64 hhigh']
      · have hle : (n - 1) * s ≤ 0 := le_of_not_ge hs
        rw [if_neg hs, min_eq_right hle, max_eq_left hle, add_zero]
        rw [min_eq_right hle] at hlow'
        rw [wrap64_of_inInt64 hlow']
    rw [foldl_cons, hstep]
    exact ih hpos' hlow' hhigh' hextent' hends

namespace TensorImpl

variable {t : TensorImpl}

/-- The extent of an axis is the distance of two addresses. -/
theorem InBounds.inInt64_extent (hwf : t.WellFormed) (hb : t.InBounds)
    (hpos : ∀ n ∈ t.shape, 0 < n) {axis : Int × Int} (h : axis ∈ t.shape.zip t.strides) :
    InInt64 ((axis.1 - 1) * axis.2) := by
  obtain ⟨d, hd, rfl⟩ := getElem_of_mem h
  have hst := hwf.length_eq
  have hlt : d < t.shape.length := by
    rw [length_zip] at hd
    omega
  simp only [getElem_zip]
  have hn := hpos _ (getElem_mem hlt)
  have hset : t.shape.set d t.shape[d] = t.shape := set_getElem_self hlt
  have hsize : t.shape.getD d 0 = t.shape[d] := getD_eq_getElem _ _ hlt
  have hstride : t.strides.getD d 0 = t.strides[d] := getD_eq_getElem _ _ (by omega)
  have hzero := within_unravel hpos 0
  have hfirst : Within ((unravel t.shape 0).set d 0) t.shape := by
    apply within_set (n := t.shape[d])
    · rwa [hset]
    · omega
  have hlast : Within ((unravel t.shape 0).set d (t.shape[d] - 1)) t.shape := by
    apply within_set (n := t.shape[d])
    · rwa [hset]
    · omega
  have hsub := hb.inInt64_sub hfirst hlast
  rw [addr_set _ hwf (by simp) hlt, addr_set _ hwf (by simp) hlt, hstride] at hsub
  have hring : t.addr (unravel t.shape 0) +
      (t.shape[d] - 1 - (unravel t.shape 0).getD d 0) * t.strides[d] -
      (t.addr (unravel t.shape 0) + (0 - (unravel t.shape 0).getD d 0) * t.strides[d]) =
      (t.shape[d] - 1) * t.strides[d] := by ring
  rwa [hring] at hsub

/-- The span of an in-bounds tensor covers every byte its elements take. -/
theorem reachableByteSpan_covers (hwf : t.WellFormed) (hb : t.InBounds) (hfit : CountFits t.shape)
    {k : Int} (hk : TakesByte t k) :
    ∃ span, reachableByteSpan t = .ok span ∧ span.1 ≤ k ∧ k < span.2 := by
  obtain ⟨idx, hidx, hlo, hhi⟩ := hk
  have hpos := hidx.pos
  have hn : numel t.shape = .ok t.shape.prod := (numel_eq_ok_iff hwf.nonneg).mpr ⟨hfit, rfl⟩
  obtain ⟨hlow, hhigh⟩ := hb.reach hwf hpos
  have hspec := reach_spec hidx hwf.length_eq (t.offset, t.offset) _ ⟨le_rfl, le_rfl⟩
  have hout := reach_outwards (t.offset, t.offset) (t.shape.zip t.strides)
  have hmax := t.storageElements_le
  set span := reach (t.offset, t.offset) (t.shape.zip t.strides) with hspan
  have hwords : InInt64 span.1 ∧ InInt64 span.2 ∧ InInt64 t.offset := by
    simp only [InInt64, int64Min, int64Max] at *
    omega
  have hfold : (t.shape.zip t.strides).foldl spanStep (t.offset, t.offset) = span := by
    apply foldl_spanStep_eq_reach _ hwords.2.2 hwords.2.2
    · intro axis haxis
      exact hb.inInt64_extent hwf hpos haxis
    · exact ⟨hwords.1, hwords.2.1⟩
    · intro axis haxis
      exact hpos _ (of_mem_zip haxis).1
  have hprod : 0 < t.shape.prod := Strided.prod_pos hpos
  have hesize : (0 : Int) < dtypeSize t.dtype := by exact_mod_cast dtypeSize_pos t.dtype
  -- The bytes of the span lie inside the storage, whose size is a word.
  have hbytes : (t.storageElements : Int) * dtypeSize t.dtype ≤ int64Max := by
    have h : t.storageElements * dtypeSize t.dtype ≤ t.storage.sizeBytes := Nat.div_mul_le_self _ _
    have hs := t.storage.size_le
    have hcast : ((t.storageElements * dtypeSize t.dtype : Nat) : Int) ≤ int64Max := by omega
    exact_mod_cast hcast
  have hstart : 0 ≤ span.1 * dtypeSize t.dtype := mul_nonneg hlow hesize.le
  have hend : (span.2 + 1) * dtypeSize t.dtype ≤ (t.storageElements : Int) * dtypeSize t.dtype :=
    mul_le_mul_of_nonneg_right (by omega) hesize.le
  have hle : span.1 * dtypeSize t.dtype ≤ t.addr idx * dtypeSize t.dtype :=
    mul_le_mul_of_nonneg_right hspec.1 hesize.le
  have hlt : (t.addr idx + 1) * dtypeSize t.dtype ≤ (span.2 + 1) * dtypeSize t.dtype :=
    mul_le_mul_of_nonneg_right (by rw [addr]; omega) hesize.le
  have hstartWord : InInt64 (span.1 * dtypeSize t.dtype) :=
    inInt64_of_nonneg hstart (by omega) hbytes
  have hendWord : InInt64 ((span.2 + 1) * dtypeSize t.dtype) :=
    inInt64_of_nonneg (by omega) hend hbytes
  have hnext : InInt64 (span.2 + 1) := by
    simp only [InInt64, int64Min, int64Max] at *
    omega
  refine ⟨(span.1 * dtypeSize t.dtype, (span.2 + 1) * dtypeSize t.dtype), ?_, by omega, by omega⟩
  simp only [reachableByteSpan, hn, bind, Except.bind, if_pos hprod, hfold, pure, Except.pure,
    wrap64_of_inInt64 hstartWord, wrap64_of_inInt64 hnext, wrap64_of_inInt64 hendWord]

end TensorImpl

section Guard

variable {a b : Handle}

/-- Two in-bounds tensors with a byte in common alias unless they are one impl with one
geometry. Where an element count is no word the test throws. -/
theorem mayAlias_of_shareByte (hwfA : a.impl.WellFormed) (hwfB : b.impl.WellFormed)
    (hbA : a.impl.InBounds) (hbB : b.impl.InBounds) (hshare : ShareByte a.impl b.impl)
    (hsame : ¬ SameGeometry a b) :
    mayAlias (some a) (some b) =
      if CountFits a.impl.shape ∧ CountFits b.impl.shape then .ok true
      else .error countOverflow := by
  obtain ⟨hst, k, hkA, hkB⟩ := hshare
  rw [mayAlias, if_neg hsame, if_neg (not_not.mpr hst)]
  by_cases hfitA : CountFits a.impl.shape
  · obtain ⟨spanA, hspanA, hloA, hhiA⟩ := TensorImpl.reachableByteSpan_covers hwfA hbA hfitA hkA
    by_cases hfitB : CountFits b.impl.shape
    · obtain ⟨spanB, hspanB, hloB, hhiB⟩ := TensorImpl.reachableByteSpan_covers hwfB hbB hfitB hkB
      have hab : spanA.1 < spanB.2 ∧ spanB.1 < spanA.2 := by omega
      rw [if_pos ⟨hfitA, hfitB⟩, hspanA, hspanB]
      simp only [bind, Except.bind, pure, Except.pure, hab, and_self, decide_true]
    · rw [if_neg fun h => hfitB h.2, hspanA]
      simp only [bind, Except.bind, reachableByteSpan, numel_of_not_countFits hwfB.nonneg hfitB]
  · rw [if_neg fun h => hfitA h.1]
    simp only [bind, Except.bind, reachableByteSpan, numel_of_not_countFits hwfA.nonneg hfitA]

/-- What passes the guard of an in-place operation shares no byte with the
target, unless it is the target itself. -/
theorem checkAliases_sound {opName : String} {others : List (Option Handle)}
    (hwfA : a.impl.WellFormed) (hbA : a.impl.InBounds)
    (h : checkAliases opName false (some a) others = .ok ()) (hmem : some b ∈ others)
    (hwfB : b.impl.WellFormed) (hbB : b.impl.InBounds) (hshare : ShareByte a.impl b.impl) :
    SameGeometry a b := by
  by_contra hsame
  have hpass := forM_eq_ok.mp h (some b) hmem
  rw [mayAlias_of_shareByte hwfA hwfB hbA hbB hshare hsame] at hpass
  split_ifs at hpass
  · cases hpass
  · cases hpass

end Guard

/-- The answer of `may_alias` does not depend on the order, and it misses no
byte that two in-bounds tensors share, unless they are one impl with one
geometry. Where an element count is no word the test throws. -/
theorem mayAlias_sound (a b : Handle) (hwfA : a.impl.WellFormed) (hwfB : b.impl.WellFormed)
    (hbA : a.impl.InBounds) (hbB : b.impl.InBounds) :
    mayAlias (some a) (some b) = mayAlias (some b) (some a) ∧
      (ShareByte a.impl b.impl → ¬ SameGeometry a b →
        mayAlias (some a) (some b) =
          if CountFits a.impl.shape ∧ CountFits b.impl.shape then .ok true
          else .error countOverflow) := by
  constructor
  · exact mayAlias_comm (some a) (some b)
  · exact mayAlias_of_shareByte hwfA hwfB hbA hbB

/-- The first two elements of a row of four. -/
def firstPair : TensorImpl where
  storage := .ofBytes 0 16
  shape := [2]
  strides := [1]
  dtype := .float32

/-- The third and the second half of the same storage, backwards. -/
def reversedHalves : TensorImpl where
  storage := .ofBytes 0 16
  shape := [2]
  strides := [-1]
  offset := 2
  dtype := .float16

theorem inBounds_of_pair (hshape : t.shape = [2])
    (h0 : 0 ≤ t.addr [0] ∧ t.addr [0] < t.storageElements)
    (h1 : 0 ≤ t.addr [1] ∧ t.addr [1] < t.storageElements) : t.InBounds := by
  intro idx hidx
  rw [hshape] at hidx
  cases hidx with
  | @cons i _ rest _ hi hrest =>
    cases hrest with
    | nil =>
      obtain rfl | rfl : i = 0 ∨ i = 1 := by omega
      · exact h0
      · exact h1

theorem mayAlias_reversedHalves :
    mayAlias (some ⟨0, firstPair⟩) (some ⟨1, reversedHalves⟩) = .ok true := by
  have hwfA : firstPair.WellFormed := ⟨by decide, by decide, by decide⟩
  have hwfB : reversedHalves.WellFormed := ⟨by decide, by decide, by decide⟩
  have hbA : firstPair.InBounds := inBounds_of_pair rfl (by decide) (by decide)
  have hbB : reversedHalves.InBounds := inBounds_of_pair rfl (by decide) (by decide)
  have hA : TakesByte firstPair 4 := ⟨[1], within_cons.mpr ⟨by decide, within_nil⟩, by decide, by decide⟩
  have hB : TakesByte reversedHalves 4 :=
    ⟨[0], within_cons.mpr ⟨by decide, within_nil⟩, by decide, by decide⟩
  have h := (mayAlias_sound ⟨0, firstPair⟩ ⟨1, reversedHalves⟩ hwfA hwfB hbA hbB).2
    ⟨rfl, 4, hA, hB⟩ (by decide)
  rwa [if_pos (by decide)] at h

theorem checkAliases_firstPair : SameGeometry ⟨0, firstPair⟩ ⟨0, firstPair⟩ := by
  have hwf : firstPair.WellFormed := ⟨by decide, by decide, by decide⟩
  have hb : firstPair.InBounds := inBounds_of_pair rfl (by decide) (by decide)
  have hbyte : TakesByte firstPair 4 :=
    ⟨[1], within_cons.mpr ⟨by decide, within_nil⟩, by decide, by decide⟩
  have hpass : checkAliases "add_" false (some ⟨0, firstPair⟩) [some ⟨0, firstPair⟩] = .ok () := rfl
  exact checkAliases_sound hwf hb hpass (mem_singleton_self _) hwf hb ⟨rfl, 4, hbyte, hbyte⟩

/-- An element repeated `2 ^ 80` times shares its bytes with itself, and the
test throws instead of answering. -/
theorem repeated_element_not_answered :
    ∃ repeated, firstPair.asStrided [1099511627776, 1099511627776] [0, 0] (some 0) = .ok repeated ∧
      repeated.InBounds ∧ ShareByte firstPair repeated ∧
      ¬ SameGeometry ⟨0, firstPair⟩ ⟨1, repeated⟩ ∧
      mayAlias (some ⟨0, firstPair⟩) (some ⟨1, repeated⟩) = .error countOverflow := by
  refine ⟨_, rfl, ?_, ?_, by decide, rfl⟩
  · intro idx hidx
    cases hidx with
    | @cons i _ rest _ hi hrest =>
      cases hrest with
      | @cons j _ rest _ hj hrest =>
        cases hrest with
        | nil =>
          have hsize : 0 < firstPair.storageElements := by decide
          simp [TensorImpl.addr, TensorImpl.copy, dot]
          exact hsize
  · have hpair : Within [0] [2] := within_cons.mpr ⟨by decide, within_nil⟩
    have hfirst : Within [0, 0] [1099511627776, 1099511627776] :=
      within_cons.mpr ⟨by decide, within_cons.mpr ⟨by decide, within_nil⟩⟩
    exact ⟨rfl, 0, ⟨[0], hpair, by decide, by decide⟩, ⟨[0, 0], hfirst, by decide, by decide⟩⟩

end Tenzor
