import Tenzor.Ops.Movedim

/-!
# Pixel shuffle

A group of channels is spread over the pixels, or pixels are gathered into channels: a reshape that
splits axes, a permutation of the last five, and a reshape that joins them.
-/

namespace Tenzor.ShapeOps

open Strided Throwing Wrap64 List
open Tensor (moved moved_moved)

variable {R : Type}

namespace Stored

def MulOverflows (a b : Int) : Prop :=
  a ≠ 0 ∧ b ≠ 0 ∧ (int64Max.tdiv b < a ∨ a < int64Min.tdiv b)

instance (a b : Int) : Decidable (MulOverflows a b) := inferInstanceAs (Decidable (_ ∧ _))

/-- A product, unless it overflows. -/
def checkedMulI64 (a b : Int) (op : String) : Except Exn Int :=
  if MulOverflows a b then .error (.overflowError s!"{op}: output extent overflows int64_t")
  else .ok (a * b)

/-- The leading axes as they are, then the axes after them in this order. -/
def regrouped (base : ℕ) (order : List ℕ) : List ℕ :=
  List.range base ++ order.map (base + ·)

def pixelShuffle (t : Stored R) (upscaleFactor : Int) : Except Exn (Stored R) := do
  throwIf (t.ndim < 3) (.runtimeError "pixel_shuffle: input must have at least 3 dimensions")
  let r := upscaleFactor
  throwIf (r ≤ 0) (.runtimeError s!"pixel_shuffle: upscale_factor must be positive, got {r}")
  let r2 ← checkedMulI64 r r "pixel_shuffle"
  let base := t.shape.length - 3
  let cr2 := t.shape.getD base 0
  let h := t.shape.getD (base + 1) 0
  let w := t.shape.getD (base + 2) 0
  throwIf (cr2.tmod r2 ≠ 0) (.runtimeError
    s!"pixel_shuffle: channels ({cr2}) must be divisible by upscale_factor^2 ({r2})")
  let c := cr2.tdiv r2
  let reshaped ← t.reshape (t.shape.take base ++ [c, r, r, h, w])
  let permuted ← reshaped.permute ((regrouped base [0, 3, 1, 4, 2]).map Int.ofNat)
  let hr ← checkedMulI64 h r "pixel_shuffle"
  let wr ← checkedMulI64 w r "pixel_shuffle"
  permuted.reshape (t.shape.take base ++ [c, hr, wr])

def pixelUnshuffle (t : Stored R) (downscaleFactor : Int) : Except Exn (Stored R) := do
  throwIf (t.ndim < 3) (.runtimeError "pixel_unshuffle: input must have at least 3 dimensions")
  let r := downscaleFactor
  throwIf (r ≤ 0) (.runtimeError s!"pixel_unshuffle: downscale_factor must be positive, got {r}")
  let base := t.shape.length - 3
  let c := t.shape.getD base 0
  let hr := t.shape.getD (base + 1) 0
  let wr := t.shape.getD (base + 2) 0
  throwIf (hr.tmod r ≠ 0 ∨ wr.tmod r ≠ 0)
    (.runtimeError "pixel_unshuffle: H and W must be divisible by downscale_factor")
  let h := hr.tdiv r
  let w := wr.tdiv r
  let reshaped ← t.reshape (t.shape.take base ++ [c, h, r, w, r])
  let permuted ← reshaped.permute ((regrouped base [0, 2, 4, 1, 3]).map Int.ofNat)
  permuted.reshape (t.shape.take base ++ [c * r * r, h, w])

section Regrouped

variable {base : ℕ} {order inverse : List ℕ}

@[simp] theorem length_regrouped (base : ℕ) (order : List ℕ) :
    (regrouped base order).length = base + order.length := by
  simp [regrouped]

theorem getD_regrouped_of_lt {k : ℕ} (hk : k < base) : (regrouped base order).getD k 0 = k := by
  simp [regrouped, getD_eq_getElem?_getD, getElem?_append_left, hk]

theorem getD_regrouped_add {k : ℕ} (hk : k < order.length) :
    (regrouped base order).getD (base + k) 0 = base + order.getD k 0 := by
  simp [regrouped, getD_eq_getElem?_getD, hk]

theorem perm_regrouped (horder : order.Perm (List.range order.length)) :
    (regrouped base order).Perm (List.range (regrouped base order).length) := by
  rw [length_regrouped, range_add]
  exact (horder.map (base + ·)).append_left (List.range base)

/-- Moving the axes by an order undoes moving them by its inverse. -/
theorem scatter_scatter_regrouped (horder : order.Perm (List.range order.length))
    (hinverse : inverse.Perm (List.range inverse.length)) (hlen : inverse.length = order.length)
    (hleft : ∀ k < order.length, inverse.getD (order.getD k 0) 0 = k) {c : List Int}
    (hc : c.length = base + order.length) :
    Strided.scatter (regrouped base order) (Strided.scatter (regrouped base inverse) c) = c := by
  have hback : Strided.scatter (regrouped base inverse) c =
      Strided.gather (regrouped base order) c := by
    apply Reindexing.ext_getD (by simp [hlen])
    intro j hj
    have hj : j < base + order.length := by simpa [hlen] using hj
    have hread : (regrouped base inverse).getD ((regrouped base order).getD j 0) 0 = j := by
      obtain hlt | ⟨k, rfl⟩ := (Nat.lt_or_ge j base).imp_right Nat.exists_eq_add_of_le
      · rw [getD_regrouped_of_lt hlt, getD_regrouped_of_lt hlt]
      · have hk : k < order.length := by omega
        have hmem : order.getD k 0 < inverse.length := by
          rw [hlen, ← mem_of_perm_range horder, getD_eq_getElem _ _ hk]
          exact getElem_mem hk
        rw [getD_regrouped_add hk, getD_regrouped_add hmem, hleft k hk]
    have hlt : (regrouped base order).getD j 0 < (regrouped base inverse).length := by
      have hmem := getElem_mem (l := regrouped base order) (n := j) (by simpa using hj)
      rw [mem_of_perm_range (perm_regrouped horder)] at hmem
      rw [getD_eq_getElem _ _ (by simpa using hj)]
      simpa [hlen] using hmem
    have hidx := idxOf_getD_of_perm (perm_regrouped hinverse) hlt
    rw [hread] at hidx
    rw [scatter_getD (by simpa [hlen] using hj), gather_getD (by simpa using hj), hidx]
  rw [hback, scatter_gather (perm_regrouped horder) (by simp [hc])]

end Regrouped

/-- A reshape, a permutation and a reshape. The quantization is kept when neither reshape copies. -/
theorem exists_regroup {t : Stored R} {split joined : List Int} {pos : List ℕ} {kept : Prop}
    [Decidable kept]
    (hkept : Strided.gather pos (rowMajor split) = rowMajor (Strided.gather pos split) ↔ kept)
    (hscales : t.quantization.scales = none) (hsplit : ∀ n ∈ split, 0 ≤ n)
    (hjoined : ∀ n ∈ joined, 0 ≤ n) (hprod : split.prod = t.shape.prod)
    (hlen : pos.length = split.length) (hperm : pos.Perm (List.range pos.length))
    (hprod' : joined.prod = (Strided.gather pos split).prod) :
    ∃ a b y, t.reshape split = .ok a ∧ a.permute (pos.map Int.ofNat) = .ok b ∧
      b.reshape joined = .ok y ∧ y.shape = joined ∧ y.isContiguous ∧
      (y.quantization = if t.isContiguous ∧ kept then t.quantization else {}) ∧
      Reads t.elements y.elements fun c => moved t.shape split
        (Strided.scatter pos (moved (Strided.gather pos split) joined c)) := by
  obtain ⟨a, ha, hashape, hareads⟩ := Tensor.exists_reshape hsplit hprod
  have hpos : ∀ k ∈ pos, k < split.length := by
    intro k hk
    rw [← hlen]
    exact (mem_of_perm_range hperm).mp hk
  obtain ⟨b, hb⟩ : ∃ b, a.permute (pos.map Int.ofNat) = .ok b := by
    apply Tensor.exists_permute
    · rw [length_map, hlen, hashape]
    · intro d hd
      obtain ⟨k, hk, rfl⟩ := mem_map.mp hd
      have hlt := hpos k hk
      simp only [Tensor.ndim, hashape, Int.ofNat_eq_natCast]
      omega
    · exact (hperm.nodup_iff.mpr nodup_range).map Nat.cast_injective
  obtain ⟨pos', -, -, hdims, hbshape, hbreads⟩ := Tensor.permute_ok hb
  have hsame : pos = pos' := by
    have hmap := eq_of_map_normalizeDim (f := id) (l := pos) hdims
    simpa using hmap
  subst hsame
  rw [hashape] at hbshape
  obtain ⟨y, hy, hyshape, hyreads⟩ :=
    Tensor.exists_reshape (t := b) hjoined (hprod'.trans (congrArg List.prod hbshape.symm))
  rw [hbshape] at hyreads
  -- the handles of the three steps
  let a' : Stored R := ⟨a, { t.contiguous.handle with strides := rowMajor a.shape }⟩
  let b' : Stored R := ⟨b, a'.handle.permute (pos.map Int.ofNat)⟩
  let y' : Stored R := ⟨y, { b'.contiguous.handle with strides := rowMajor y.shape }⟩
  have hascales : a'.quantization.scales = none := by
    have hq := t.contiguous_quantization
    change t.contiguous.quantization.scales = none
    rw [hq]
    split
    · exact hscales
    · rfl
  have hbq : b'.quantization = t.contiguous.quantization := by
    change permuteQuantization a'.quantization _ = _
    rw [permuteQuantization, hascales]
    exact if_neg fun h => absurd h.1 Bool.false_ne_true
  have hbcontiguous : b'.isContiguous ↔ kept := by
    have hcast : (pos.map Int.ofNat).map Int.toNat = pos := by simp [Function.comp_def]
    have hstrides : b'.handle.strides = Strided.gather pos (rowMajor split) := by
      change Strided.gather ((pos.map Int.ofNat).map Int.toNat) (rowMajor a.shape) = _
      rw [hcast, hashape]
    rw [isContiguous, decide_eq_true_iff, hstrides, Stored.shape, hbshape, hkept]
  refine ⟨a', b', y', reshape_eq_ok.mpr ⟨hscales, ha, rfl⟩, permute_eq_ok.mpr ⟨hb, ?_⟩,
    reshape_eq_ok.mpr ⟨by rw [hbq]; exact hascales, hy, rfl⟩, hyshape, decide_eq_true rfl, ?_,
    (hareads.trans hbreads).trans hyreads⟩
  · rw [show (pos.map Int.ofNat).map (normalizeDim · a'.ndim) = pos.map Int.ofNat from hdims]
  · change b'.contiguous.quantization = _
    rw [contiguous_quantization, hbq, contiguous_quantization]
    by_cases h : t.isContiguous <;> by_cases h' : b'.isContiguous <;>
      simp [h, h', ← hbcontiguous]

theorem checkedMulI64_eq_ok {a b x : Int} {op : String} :
    checkedMulI64 a b op = .ok x ↔ ¬ MulOverflows a b ∧ a * b = x := by
  unfold checkedMulI64
  split
  · simp [*]
  · simp [*]

theorem take_append_last_three {l : List Int} (hl : 3 ≤ l.length) :
    l = l.take (l.length - 3) ++
      [l.getD (l.length - 3) 0, l.getD (l.length - 3 + 1) 0, l.getD (l.length - 3 + 2) 0] := by
  have hget (k : ℕ) (hk : k < l.length) : l.getD k 0 = l[k] := getD_eq_getElem l 0 hk
  rw [hget _ (by omega), hget _ (by omega), hget _ (by omega)]
  conv_lhs => rw [← take_append_drop (l.length - 3) l]
  rw [drop_eq_getElem_cons (by omega), drop_eq_getElem_cons (by omega),
    drop_eq_getElem_cons (by omega), drop_eq_nil_of_le (by omega)]

section Shuffle

variable {t y : Stored R} {pre : List Int} {r c h w : Int}

theorem gather_regrouped (l : List Int) (order : List ℕ) :
    Strided.gather (regrouped pre.length order) (pre ++ l) = pre ++ Strided.gather order l := by
  have hpre : (List.range pre.length).map (fun j => (pre ++ l).getD j 0) = pre := by
    apply Reindexing.ext_getD (by simp)
    intro k hk
    have hk : k < pre.length := by simpa using hk
    simp [getD_eq_getElem?_getD, hk, getElem?_append_left hk]
  have hlast (k : ℕ) : (pre ++ l).getD (pre.length + k) 0 = l.getD k 0 := by
    rw [getD_eq_getElem?_getD, getElem?_append_right (Nat.le_add_right _ _),
      Nat.add_sub_cancel_left, getD_eq_getElem?_getD]
  simp only [Strided.gather, regrouped, map_append, hpre, map_map, Function.comp_def,
    hlast]

theorem rowMajor_append (pre l : List Int) :
    rowMajor (pre ++ l) = (rowMajor pre).map (· * l.prod) ++ rowMajor l := by
  induction pre with
  | nil => rfl
  | cons n pre ih => simp [rowMajor, ih]

/-- Moved axes are still contiguous when the strides of the last ones are. -/
theorem gather_rowMajor_iff (pre : List Int) {l l' : List Int} {order : List ℕ}
    (hprod : l.prod = l'.prod) :
    Strided.gather (regrouped pre.length order) (rowMajor (pre ++ l)) = rowMajor (pre ++ l') ↔
      Strided.gather order (rowMajor l) = rowMajor l' := by
  have hlen : pre.length = ((rowMajor pre).map (· * l.prod)).length := by simp
  rw [rowMajor_append, rowMajor_append, hlen, gather_regrouped, hprod, append_cancel_left_eq]

theorem shuffled_contiguous_iff (hh : 0 ≤ h) :
    Strided.gather [0, 3, 1, 4, 2] (rowMajor [c, r, r, h, w]) = rowMajor [c, h, r, w, r] ↔
      r = 1 ∧ h = 1 ∧ w = 1 := by
  simp only [Strided.gather, rowMajor, map_cons, map_nil, prod_cons, prod_nil, mul_one,
    getD_cons_zero, getD_cons_succ, cons.injEq, and_true]
  constructor
  · rintro ⟨-, -, -, rfl, hone⟩
    have hh := Int.eq_one_of_mul_eq_one_right hh hone
    rw [hh, one_mul] at hone
    exact ⟨rfl, hh, hone⟩
  · rintro ⟨rfl, rfl, rfl⟩
    simp

theorem unshuffled_contiguous_iff (hh : 0 ≤ h) :
    Strided.gather [0, 2, 4, 1, 3] (rowMajor [c, h, r, w, r]) = rowMajor [c, r, r, h, w] ↔
      r = 1 ∧ h = 1 ∧ w = 1 := by
  simp only [Strided.gather, rowMajor, map_cons, map_nil, prod_cons, prod_nil, mul_one,
    getD_cons_zero, getD_cons_succ, cons.injEq, and_true]
  constructor
  · rintro ⟨-, -, hone, -, rfl⟩
    have hh := Int.eq_one_of_mul_eq_one_right hh hone.symm
    rw [hh, one_mul] at hone
    exact ⟨rfl, hh, hone.symm⟩
  · rintro ⟨rfl, rfl, rfl⟩
    simp

/-- The axes of `pixelShuffle`: the channels are split, and each factor joined to its pixels. -/
theorem exists_shuffled (hscales : t.quantization.scales = none)
    (hshape : t.shape = pre ++ [c * (r * r), h, w]) (hr : 0 ≤ r) (hc : 0 ≤ c) :
    ∃ a b y, t.reshape (pre ++ [c, r, r, h, w]) = .ok a ∧
      a.permute ((regrouped pre.length [0, 3, 1, 4, 2]).map Int.ofNat) = .ok b ∧
      b.reshape (pre ++ [c, h * r, w * r]) = .ok y ∧ y.shape = pre ++ [c, h * r, w * r] ∧
      y.isContiguous ∧ (y.quantization =
        if t.isContiguous ∧ r = 1 ∧ h = 1 ∧ w = 1 then t.quantization else {}) ∧
      Reads t.elements y.elements fun i => moved t.shape (pre ++ [c, r, r, h, w])
        (Strided.scatter (regrouped pre.length [0, 3, 1, 4, 2])
          (moved (pre ++ [c, h, r, w, r]) (pre ++ [c, h * r, w * r]) i)) := by
  have hnn := t.elements.shape_nonneg
  rw [show t.elements.shape = _ from hshape] at hnn
  simp only [mem_append, mem_cons, not_mem_nil, or_false, or_imp,
    forall_and, forall_eq] at hnn
  obtain ⟨hpre, -, hh, hw⟩ := hnn
  have hgather : Strided.gather (regrouped pre.length [0, 3, 1, 4, 2]) (pre ++ [c, r, r, h, w]) =
      pre ++ [c, h, r, w, r] := gather_regrouped _ _
  have hprod : [c, r, r, h, w].prod = [c, h, r, w, r].prod := by
    simp only [prod_cons, prod_nil]
    ring
  have hkept := (gather_rowMajor_iff pre hprod).trans
    (shuffled_contiguous_iff (c := c) (r := r) (w := w) hh)
  rw [← hgather] at hkept ⊢
  apply exists_regroup hkept hscales
  · simp only [mem_append, mem_cons, not_mem_nil, or_false]
    rintro n (hn | rfl | rfl | rfl | rfl | rfl)
    · exact hpre n hn
    all_goals assumption
  · simp only [mem_append, mem_cons, not_mem_nil, or_false]
    rintro n (hn | rfl | rfl | rfl)
    · exact hpre n hn
    · exact hc
    · exact Int.mul_nonneg hh hr
    · exact Int.mul_nonneg hw hr
  · rw [hshape]
    simp only [prod_append, prod_cons, prod_nil]
    ring
  · simp
  · exact perm_regrouped (by decide)
  · rw [hgather]
    simp only [prod_append, prod_cons, prod_nil]
    ring

/-- The axes of `pixelUnshuffle`: the pixels are split, and the factors joined to the channels. -/
theorem exists_unshuffled (hscales : y.quantization.scales = none)
    (hshape : y.shape = pre ++ [c, h * r, w * r])
    (hnn : ∀ n ∈ pre ++ [c, h, r, w, r], 0 ≤ n) :
    ∃ a b z, y.reshape (pre ++ [c, h, r, w, r]) = .ok a ∧
      a.permute ((regrouped pre.length [0, 2, 4, 1, 3]).map Int.ofNat) = .ok b ∧
      b.reshape (pre ++ [c * r * r, h, w]) = .ok z ∧ z.shape = pre ++ [c * r * r, h, w] ∧
      z.isContiguous ∧ (z.quantization =
        if y.isContiguous ∧ r = 1 ∧ h = 1 ∧ w = 1 then y.quantization else {}) ∧
      Reads y.elements z.elements fun i => moved y.shape (pre ++ [c, h, r, w, r])
        (Strided.scatter (regrouped pre.length [0, 2, 4, 1, 3])
          (moved (pre ++ [c, r, r, h, w]) (pre ++ [c * r * r, h, w]) i)) := by
  have hgather : Strided.gather (regrouped pre.length [0, 2, 4, 1, 3]) (pre ++ [c, h, r, w, r]) =
      pre ++ [c, r, r, h, w] := gather_regrouped _ _
  have hprod : [c, h, r, w, r].prod = [c, r, r, h, w].prod := by
    simp only [prod_cons, prod_nil]
    ring
  have hh : 0 ≤ h := hnn h (by simp)
  have hkept := (gather_rowMajor_iff pre hprod).trans
    (unshuffled_contiguous_iff (c := c) (r := r) (w := w) hh)
  rw [← hgather] at hkept ⊢
  apply exists_regroup hkept hscales hnn
  · simp only [mem_append, mem_cons, not_mem_nil, or_false, or_imp, forall_and,
      forall_eq] at hnn ⊢
    obtain ⟨hpre, hc, hh, hr, hw, -⟩ := hnn
    exact ⟨hpre, Int.mul_nonneg (Int.mul_nonneg hc hr) hr, hh, hw⟩
  · rw [hshape]
    simp only [prod_append, prod_cons, prod_nil]
    ring
  · simp
  · exact perm_regrouped (by decide)
  · rw [hgather]
    simp only [prod_append, prod_cons, prod_nil]
    ring

variable (t r) in
/-- The sizes of the channels and of the pixels. -/
def sizes : Int × Int × Int :=
  let base := t.shape.length - 3
  (t.shape.getD base 0, t.shape.getD (base + 1) 0, t.shape.getD (base + 2) 0)

/-- What `pixelShuffle` asks for. -/
structure Accepts (t : Stored R) (r : Int) : Prop where
  rank : 3 ≤ t.ndim
  positive : 0 < r
  square_fits : ¬ MulOverflows r r
  divides : t.sizes.1.tmod (r * r) = 0
  height_fits : ¬ MulOverflows t.sizes.2.1 r
  width_fits : ¬ MulOverflows t.sizes.2.2 r
  perTensor : t.quantization.scales = none

/-- What a returning `pixelShuffle` has done. -/
theorem pixelShuffle_checks (hy : t.pixelShuffle r = .ok y) :
    t.Accepts r ∧ ∃ a b,
      t.reshape (t.shape.take (t.shape.length - 3) ++
        [t.sizes.1.tdiv (r * r), r, r, t.sizes.2.1, t.sizes.2.2]) = .ok a ∧
      a.permute ((regrouped (t.shape.length - 3) [0, 3, 1, 4, 2]).map Int.ofNat) = .ok b ∧
      b.reshape (t.shape.take (t.shape.length - 3) ++
        [t.sizes.1.tdiv (r * r), t.sizes.2.1 * r, t.sizes.2.2 * r]) = .ok y := by
  simp only [pixelShuffle, bind_eq_ok, throwIf_eq_ok, checkedMulI64_eq_ok] at hy
  obtain ⟨-, hdim, -, hr, _, ⟨hsquare, rfl⟩, -, hmod, a, ha, b, hb, _, ⟨hh, rfl⟩, _, ⟨hw, rfl⟩,
    hy⟩ := hy
  exact ⟨⟨not_lt.mp hdim, not_le.mp hr, hsquare, not_not.mp hmod, hh, hw, (reshape_eq_ok.mp ha).1⟩,
    a, b, ha, hb, hy⟩

/-- The sizes of an accepted tensor, the channels by groups. -/
theorem Accepts.shape_eq (h : t.Accepts r) :
    t.shape = t.shape.take (t.shape.length - 3) ++
      [t.sizes.1.tdiv (r * r) * (r * r), t.sizes.2.1, t.sizes.2.2] := by
  have hrank := h.rank
  rw [ndim_eq] at hrank
  rw [Int.tdiv_mul_cancel (Int.dvd_of_tmod_eq_zero h.divides)]
  exact take_append_last_three (by omega)

theorem Accepts.channels_nonneg (h : t.Accepts r) : 0 ≤ t.sizes.1.tdiv (r * r) := by
  have hrank := h.rank
  rw [ndim_eq] at hrank
  have hbase : t.shape.length - 3 < t.shape.length := by omega
  exact Int.tdiv_nonneg (t.elements.nonneg_getD hbase) (mul_self_nonneg r)

/-- Past its checks `pixelUnshuffle` splits, moves and joins the axes. -/
theorem pixelUnshuffle_eq (hr : 0 < r) (hshape : y.shape = pre ++ [c, h * r, w * r]) :
    y.pixelUnshuffle r = (do
      let reshaped ← y.reshape (pre ++ [c, h, r, w, r])
      let permuted ← reshaped.permute ((regrouped pre.length [0, 2, 4, 1, 3]).map Int.ofNat)
      permuted.reshape (pre ++ [c * r * r, h, w])) := by
  have hlen : y.shape.length = pre.length + 3 := by simp [hshape]
  have hdim : ¬ y.ndim < 3 := by
    rw [ndim_eq]
    omega
  have hbase : y.shape.length - 3 = pre.length := by omega
  have hread (k : ℕ) : (pre ++ [c, h * r, w * r]).getD (pre.length + k) 0 =
      [c, h * r, w * r].getD k 0 := by
    rw [getD_eq_getElem?_getD, getElem?_append_right (Nat.le_add_right _ _),
      Nat.add_sub_cancel_left, getD_eq_getElem?_getD]
  have hc : y.shape.getD pre.length 0 = c := by
    rw [hshape]
    exact hread 0
  have hh : y.shape.getD (pre.length + 1) 0 = h * r := by
    rw [hshape]
    exact hread 1
  have hw : y.shape.getD (pre.length + 2) 0 = w * r := by
    rw [hshape]
    exact hread 2
  have hpre : y.shape.take pre.length = pre := by
    rw [hshape, take_left]
  have hdivides : ¬ ((h * r).tmod r ≠ 0 ∨ (w * r).tmod r ≠ 0) := by
    simp [Int.mul_tmod_left]
  have hdivide (n : Int) : (n * r).tdiv r = n := Int.mul_tdiv_cancel n (by omega)
  rw [pixelUnshuffle, throwIf_of_not hdim]
  simp only [hbase, hc, hh, hw, hpre, hdivide, throwIf_of_not hdivides,
    throwIf_of_not (not_le.mpr hr)]
  rfl

/-- The way of a multi-index through both operations leads back to it. -/
theorem moves_back (hshape : t.shape = pre ++ [c * (r * r), h, w]) (hr : 0 ≤ r)
    (hnn : ∀ n ∈ pre ++ [c, h, r, w, r], 0 ≤ n) {i : List Int} (hi : Within i t.shape) :
    moved t.shape (pre ++ [c, r, r, h, w])
        (Strided.scatter (regrouped pre.length [0, 3, 1, 4, 2])
          (moved (pre ++ [c, h, r, w, r]) (pre ++ [c, h * r, w * r])
            (moved (pre ++ [c, h * r, w * r]) (pre ++ [c, h, r, w, r])
              (Strided.scatter (regrouped pre.length [0, 2, 4, 1, 3])
                (moved (pre ++ [c, r, r, h, w]) t.shape i))))) = i := by
  simp only [mem_append, mem_cons, not_mem_nil, or_false, or_imp, forall_and,
    forall_eq] at hnn
  obtain ⟨hpre, hc, hh, -, hw, -⟩ := hnn
  have hsplit : ∀ n ∈ pre ++ [c, r, r, h, w], 0 ≤ n := by
    simp only [mem_append, mem_cons, not_mem_nil, or_false, or_imp, forall_and,
      forall_eq]
    exact ⟨hpre, hc, hr, hr, hh, hw⟩
  have hjoined : ∀ n ∈ pre ++ [c, h * r, w * r], 0 ≤ n := by
    simp only [mem_append, mem_cons, not_mem_nil, or_false, or_imp, forall_and,
      forall_eq]
    exact ⟨hpre, hc, Int.mul_nonneg hh hr, Int.mul_nonneg hw hr⟩
  have hprod : t.shape.prod = (pre ++ [c, r, r, h, w]).prod := by
    rw [hshape]
    simp only [prod_append, prod_cons, prod_nil]
    ring
  have hprod' : (pre ++ [c, h, r, w, r]).prod = (pre ++ [c, h * r, w * r]).prod := by
    simp only [prod_append, prod_cons, prod_nil]
    ring
  have hgather : Strided.gather (regrouped pre.length [0, 2, 4, 1, 3]) (pre ++ [c, h, r, w, r]) =
      pre ++ [c, r, r, h, w] := gather_regrouped _ _
  have hm : Within (moved (pre ++ [c, r, r, h, w]) t.shape i) (pre ++ [c, r, r, h, w]) :=
    (reshape_spec hsplit hprod hi).1
  have hn : Within (Strided.scatter (regrouped pre.length [0, 2, 4, 1, 3])
      (moved (pre ++ [c, r, r, h, w]) t.shape i)) (pre ++ [c, h, r, w, r]) := by
    apply within_scatter (perm_regrouped (by decide)) (by simp)
    rw [hgather]
    exact hm
  rw [moved_moved hjoined hprod' hn, scatter_scatter_regrouped (by decide) (by decide) (by decide)
    (by decide) (by simpa using hm.length_eq), moved_moved hsplit hprod hi]

/-- `pixelShuffle` returns what it accepts, `pixelUnshuffle` gives the elements back, and the
quantization unless a copy was made. -/
theorem exists_roundTrip (hr : t.Accepts r) :
    ∃ y z, t.pixelShuffle r = .ok y ∧ y.pixelUnshuffle r = .ok z ∧ t.elements.Same z.elements ∧
      z.quantization = if t.isContiguous ∧ r = 1 ∧ t.sizes.2.1 = 1 ∧ t.sizes.2.2 = 1
        then t.quantization else {} := by
  have hshape := hr.shape_eq
  have hc := hr.channels_nonneg
  obtain ⟨a, b, y, ha, hb, hjoin, hyshape, hycontiguous, hyq, hreads⟩ :=
    exists_shuffled hr.perTensor hshape hr.positive.le hc
  have hnn : ∀ n ∈ t.shape.take (t.shape.length - 3) ++
      [t.sizes.1.tdiv (r * r), t.sizes.2.1, r, t.sizes.2.2, r], 0 ≤ n := by
    have htnn := t.elements.shape_nonneg
    rw [show t.elements.shape = _ from hshape] at htnn
    simp only [mem_append, mem_cons, not_mem_nil, or_false, or_imp,
      forall_and, forall_eq] at htnn ⊢
    obtain ⟨hpre, -, hh, hw⟩ := htnn
    exact ⟨hpre, hc, hh, hr.positive.le, hw, hr.positive.le⟩
  have hyscales : y.quantization.scales = none := by
    rw [hyq]
    split
    · exact hr.perTensor
    · rfl
  obtain ⟨d, e, z, hd, he, hz, hzshape, -, hzq, hback⟩ := exists_unshuffled hyscales hyshape hnn
  refine ⟨y, z, ?_, ?_, ?_, ?_⟩
  · have hbase : (t.shape.take (t.shape.length - 3)).length = t.shape.length - 3 := by simp
    rw [hbase] at hb
    simp only [pixelShuffle, bind_eq_ok, throwIf_eq_ok, checkedMulI64_eq_ok]
    exact ⟨(), not_lt.mpr hr.rank, (), not_le.mpr hr.positive, _, ⟨hr.square_fits, rfl⟩, (),
      not_not.mpr hr.divides, a, ha, b, hb, _, ⟨hr.height_fits, rfl⟩, _, ⟨hr.width_fits, rfl⟩, hjoin⟩
  · rw [pixelUnshuffle_eq hr.positive hyshape]
    exact bind_eq_ok.mpr ⟨d, hd, bind_eq_ok.mpr ⟨e, he, hz⟩⟩
  · have hsame : t.shape = z.shape := by
      rw [hzshape, mul_assoc]
      exact hshape
    refine ⟨hsame, fun i hi => ?_⟩
    have hin : Within i z.elements.shape := by
      rw [← show t.elements.shape = z.elements.shape from hsame]
      exact hi
    have hreturn := moves_back hshape hr.positive.le hnn hi
    rw [hback.value_eq i hin, hreads.value_eq _ (hback.within i hin), hyshape, ← hzshape, ← hsame,
      hreturn]
  · rw [hzq, hyq]
    by_cases hone : r = 1 ∧ t.sizes.2.1 = 1 ∧ t.sizes.2.2 = 1 <;> simp [hone, hycontiguous]

end Shuffle

/-- A quantized tensor that `pixelShuffle` accepts and that is copied on the way. -/
def ShuffleLoses (t : Stored R) (r : Int) : Prop :=
  t.Accepts r ∧ t.quantization ≠ {} ∧
    ¬ (t.isContiguous ∧ r = 1 ∧ t.sizes.2.1 = 1 ∧ t.sizes.2.2 = 1)

/-- `pixelUnshuffle` undoes `pixelShuffle`, unless a quantization is lost. -/
theorem pixelUnshuffle_pixelShuffle_iff {t : Stored R} {r : Int} :
    (∀ y, t.pixelShuffle r = .ok y → ∃ z, y.pixelUnshuffle r = .ok z ∧ t.Same z) ↔
      ¬ t.ShuffleLoses r := by
  constructor
  · rintro h ⟨haccepts, hq, hcopied⟩
    obtain ⟨y, z, hy, hz, -, hzq⟩ := exists_roundTrip haccepts
    obtain ⟨z', hz', hsame⟩ := h y hy
    obtain rfl : z = z' := Except.ok.inj (hz.symm.trans hz')
    rw [if_neg hcopied] at hzq
    exact hq (hsame.quantization_eq.trans hzq)
  · intro hkept y hy
    have haccepts := (pixelShuffle_checks hy).1
    obtain ⟨y', z, hy', hz, hsame, hzq⟩ := exists_roundTrip haccepts
    obtain rfl : y' = y := Except.ok.inj (hy'.symm.trans hy)
    refine ⟨z, hz, hsame, ?_⟩
    rw [hzq]
    split
    · rfl
    · rename_i hcopied
      by_contra hq
      exact hkept ⟨haccepts, hq, hcopied⟩

/-- A matrix with two rows and three columns. -/
def matrix : Stored Int where
  elements := ⟨[2, 3], fun c => c.getD 0 0 * 3 + c.getD 1 0, by decide⟩
  handle := { storage := some 0, offset := 0, strides := [3, 1] }

end Stored

end Tenzor.ShapeOps
