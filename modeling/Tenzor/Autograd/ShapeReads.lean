import Tenzor.Autograd.ShapeFunctions
import Tenzor.Core.ViewIndex

/-!
# What the shape operations read and add up

A view or a copy reads each of its elements from one element of its input. The backward of such an
operation adds up, for each element of the input, the gradients of everything that was read from
it. Where no element is read twice, that is reading back through the inverse map.
-/

namespace Tenzor.ShapeOps

open Strided Reindexing Throwing List

variable {R : Type} {φ ψ : List Int → List Int}

/-- The same shape and the same elements. -/
structure Tensor.Same (t u : Tensor R) : Prop where
  shape_eq : t.shape = u.shape
  value_eq : ∀ c, Within c t.shape → t.value c = u.value c

/-- Every element of `y` is the element of `t` at the mapped multi-index. -/
structure Reads (t y : Tensor R) (φ : List Int → List Int) : Prop where
  within : ∀ c, Within c y.shape → Within (φ c) t.shape
  value_eq : ∀ c, Within c y.shape → y.value c = t.value (φ c)

/-- Every element of `r` is the sum of what the map sends to it. -/
def Sums [AddCommMonoid R] (g r : Tensor R) (φ : List Int → List Int) : Prop :=
  ∀ c, Within c r.shape → r.value c = push (indices g.shape) φ g.value c

namespace Tensor

variable {t u y g r : Tensor R} {shape : List Int}

@[refl] theorem Same.refl (t : Tensor R) : t.Same t := ⟨rfl, fun _ _ => rfl⟩

theorem same_clone [MulOneClass R] (t : Tensor R) : t.Same t.clone :=
  ⟨rfl, fun c _ => (mul_one (t.value c)).symm⟩

/-- Two tensors of one shape that read alike. -/
theorem Same.of_reads {φ : List Int → List Int} (hu : Reads t u φ) (hy : Reads t y φ)
    (hshape : u.shape = y.shape) : u.Same y := by
  refine ⟨hshape, fun c hc => ?_⟩
  rw [hu.value_eq c hc, hy.value_eq c (hshape ▸ hc)]

theorem make_eq_ok {value : List Int → R} :
    make shape value = .ok t ↔ (∀ n ∈ shape, 0 ≤ n) ∧ t.shape = shape ∧ t.value = value := by
  unfold make
  split
  · rename_i h
    cases t
    simp only [Except.ok.injEq, mk.injEq]
    constructor
    · rintro ⟨rfl, rfl⟩
      exact ⟨h, rfl, rfl⟩
    · rintro ⟨-, rfl, rfl⟩
      exact ⟨rfl, rfl⟩
  · rename_i h
    constructor
    · intro he
      cases he
    · exact fun he => absurd he.1 h

theorem nonneg_getD {d : ℕ} (t : Tensor R) (hd : d < t.shape.length) :
    0 ≤ t.shape.getD d 0 := by
  rw [getD_eq_getElem _ _ hd]
  exact t.shape_nonneg _ (getElem_mem hd)

theorem exists_make (value : List Int → R) (h : ∀ n ∈ shape, 0 ≤ n) :
    ∃ t, make shape value = .ok t ∧ t.shape = shape ∧ t.value = value :=
  ⟨⟨shape, value, h⟩, make_eq_ok.mpr ⟨h, rfl, rfl⟩, rfl, rfl⟩

end Tensor

variable {g r : Tensor R}

/-- Reading back through the inverse map adds up what was read. -/
theorem Reads.sums [AddCommMonoid R] (h : Reads g r ψ) (hleft : ∀ c, Within c r.shape → φ (ψ c) = c)
    (hright : ∀ c, Within c g.shape → ψ (φ c) = c) : Sums g r φ := by
  intro c hc
  rw [h.value_eq c hc]
  refine (push_of_unique (mem_indices.mpr (h.within c hc)) (hleft c hc) fun c' hc' hφ => ?_).symm
  rw [← hφ, hright c' (mem_indices.mp hc')]

theorem Reads.trans {t u y : Tensor R} (h : Reads t u φ) (h' : Reads u y ψ) :
    Reads t y fun c => φ (ψ c) := by
  refine ⟨fun c hc => h.within _ (h'.within c hc), fun c hc => ?_⟩
  rw [h'.value_eq c hc, h.value_eq _ (h'.within c hc)]

theorem Sums.trans [AddCommMonoid R] {s : Tensor R} (h : Sums g r φ) (h' : Sums r s ψ)
    (hφ : ∀ c, Within c g.shape → Within (φ c) r.shape) : Sums g s fun c => ψ (φ c) := by
  intro c hc
  rw [h' c hc, push_congr fun c' hc' => h c' (mem_indices.mp hc')]
  exact push_push (fun c' hc' => mem_indices.mpr (hφ c' (mem_indices.mp hc'))) g.value c

theorem Sums.congr [AddCommMonoid R] (h : Sums g r φ) (heq : ∀ c, Within c g.shape → φ c = ψ c) :
    Sums g r ψ := by
  intro c hc
  rw [h c hc, push_congr_map fun c' hc' => heq c' (mem_indices.mp hc')]

namespace Tensor

variable (t : Tensor R) {y : Tensor R} {shape c dims : List Int}
  {total dim0 dim1 dim first last step : Int} {i j d : ℕ} {msg : String}

/-- The multi-index of one shape with the flat position of a multi-index of another. -/
def moved (shape shape' c : List Int) : List Int := unravel shape (dot c (rowMajor shape'))

theorem moved_moved {shape' : List Int} (hnn : ∀ n ∈ shape, 0 ≤ n)
    (hprod : shape'.prod = shape.prod) (hc : Within c shape') :
    moved shape' shape (moved shape shape' c) = c := by
  unfold moved
  rw [(reshape_spec hnn hprod hc).2, unravel_dot hc]

theorem scanShape_of_nonneg (inferred : Bool) (h : ∀ n ∈ shape, 0 ≤ n) :
    scanShape inferred shape = .ok shape.prod := by
  induction shape with
  | nil => rfl
  | cons n shape ih =>
    obtain ⟨hn, hshape⟩ := forall_mem_cons.mp h
    rw [scanShape, if_neg (by omega), if_neg (by omega), ih hshape]
    rfl

/-- Without a size to infer the scan multiplies all of them. -/
theorem scanShape_true (h : scanShape true shape = .ok total) :
    -1 ∉ shape ∧ total = shape.prod := by
  induction shape generalizing total with
  | nil =>
    simp only [scanShape, Except.ok.injEq] at h
    simp [h]
  | cons n shape ih =>
    rw [scanShape] at h
    split at h
    · cases h
    · rename_i hn
      split at h
      · cases h
      · obtain ⟨rest, hrest, h⟩ := bind_eq_ok.mp h
        obtain rfl := pure_eq_ok.mp h
        obtain ⟨hmem, rfl⟩ := ih hrest
        refine ⟨?_, prod_cons.symm⟩
        rw [mem_cons, not_or]
        exact ⟨fun he => hn he.symm, hmem⟩

theorem map_inferred (h : -1 ∉ shape) (m : Int) :
    (shape.map fun n => if n = -1 then m else n) = shape := by
  refine (map_congr_left fun k hk => ?_).trans (map_id shape)
  apply if_neg
  rintro rfl
  exact h hk

theorem scanShape_false (h : scanShape false shape = .ok total) (m : Int) :
    (shape.map fun n => if n = -1 then m else n).prod =
      if -1 ∈ shape then m * total else total := by
  induction shape generalizing total with
  | nil =>
    simp only [scanShape, Except.ok.injEq] at h
    simp [h]
  | cons n shape ih =>
    rw [scanShape] at h
    split at h
    · rename_i hn
      obtain ⟨hmem, rfl⟩ := scanShape_true (by simpa using h)
      rw [map_cons, prod_cons, map_inferred hmem, if_pos hn, if_pos (by simp [hn])]
    · rename_i hn
      split at h
      · cases h
      · obtain ⟨rest, hrest, h⟩ := bind_eq_ok.mp h
        obtain rfl := pure_eq_ok.mp h
        have hiff : -1 ∈ n :: shape ↔ -1 ∈ shape := by
          rw [mem_cons]
          exact or_iff_right fun he => hn he.symm
        rw [map_cons, prod_cons, ih hrest, if_neg hn]
        simp only [hiff]
        split
        · ring
        · rfl

variable {t}

/-- What a reshape to a given shape reads. -/
theorem reads_moved (hprod : shape.prod = t.shape.prod) (hy : y.shape = shape)
    (hval : y.value = fun c => t.flat (dot c (rowMajor shape))) :
    Reads t y (moved t.shape y.shape) := by
  subst hy
  refine ⟨fun c hc => (reshape_spec t.shape_nonneg hprod hc).1, fun c _ => ?_⟩
  rw [hval]
  rfl

theorem reshape_ok {newShape : List Int} (h : t.reshape newShape = .ok y) :
    y.shape.prod = t.shape.prod ∧ Reads t y (moved t.shape y.shape) := by
  obtain ⟨total, hscan, h⟩ := bind_eq_ok.mp h
  obtain ⟨shape, hshape, h⟩ := bind_eq_ok.mp h
  obtain ⟨-, hy, hval⟩ := make_eq_ok.mp h
  have hmap := scanShape_false hscan
  have hprod : shape.prod = t.shape.prod := by
    split at hshape
    · rename_i hmem
      simp only [bind_eq_ok, throwIf_eq_ok, pure_eq_ok] at hshape
      obtain ⟨_, _, _, hmod, rfl⟩ := hshape
      rw [hmap, if_pos hmem]
      exact Int.tdiv_mul_cancel (Int.dvd_of_tmod_eq_zero (not_not.mp hmod))
    · rename_i hmem
      simp only [bind_eq_ok, throwIf_eq_ok, pure_eq_ok] at hshape
      obtain ⟨-, htotal, rfl⟩ := hshape
      have hid := hmap 0
      rw [if_neg hmem] at hid
      rw [map_inferred hmem] at hid
      exact hid.trans (not_not.mp htotal)
  exact ⟨by rw [hy, hprod], reads_moved hprod hy hval⟩

theorem exists_reshape (hnn : ∀ n ∈ shape, 0 ≤ n) (hprod : shape.prod = t.shape.prod) :
    ∃ r, t.reshape shape = .ok r ∧ r.shape = shape ∧
      Reads t r (moved t.shape shape) := by
  have hmem : -1 ∉ shape := fun he => by have := hnn _ he; omega
  obtain ⟨r, hr, hshape, hval⟩ := exists_make (fun c => t.flat (dot c (rowMajor shape))) hnn
  refine ⟨r, ?_, hshape, hshape ▸ reads_moved hprod hshape hval⟩
  unfold reshape
  rw [scanShape_of_nonneg false hnn]
  simp [hmem, throwIf, numel, hprod, hr]

/-- A reshape adds up along the map of its multi-indices, for that is a bijection. -/
theorem exists_reshape_sums [AddCommMonoid R] (hnn : ∀ n ∈ shape, 0 ≤ n)
    (hprod : shape.prod = t.shape.prod) :
    ∃ r, t.reshape shape = .ok r ∧ r.shape = shape ∧ Sums t r (moved shape t.shape) := by
  obtain ⟨r, hr, hshape, hreads⟩ := exists_reshape hnn hprod
  refine ⟨r, hr, hshape, hreads.sums ?_ ?_⟩
  · intro c hc
    exact moved_moved t.shape_nonneg hprod (hshape ▸ hc)
  · intro c hc
    exact moved_moved hnn hprod.symm hc

theorem flatten_ok {startDim endDim : Int} (h : t.flatten startDim endDim = .ok y) :
    y.shape.prod = t.shape.prod ∧ Reads t y (moved t.shape y.shape) := by
  unfold flatten at h
  split at h
  · exact reshape_ok h
  · simp only [bind_eq_ok, throwIf_eq_ok] at h
    obtain ⟨-, -, -, -, -, -, h⟩ := h
    exact reshape_ok h

theorem swapAt_swapAt {l : List Int} (hi : i < l.length) (hj : j < l.length) :
    TensorImpl.swapAt (TensorImpl.swapAt l i j 0) i j 0 = l := by
  apply ext_getD (by simp)
  intro k _
  rw [TensorImpl.getD_swapAt _ _ (by simpa using hi) (by simpa using hj),
    TensorImpl.getD_swapAt _ _ hi hj, TensorImpl.getD_swapAt _ _ hi hj,
    TensorImpl.getD_swapAt _ _ hi hj]
  split_ifs <;> simp_all

theorem transpose_ok (h : t.transpose dim0 dim1 = .ok y) :
    ∃ i j : ℕ, i < t.shape.length ∧ j < t.shape.length ∧
      normalizeDim dim0 t.ndim = i ∧ normalizeDim dim1 t.ndim = j ∧
      y.shape = TensorImpl.swapAt t.shape i j 0 ∧
      Reads t y fun c => TensorImpl.swapAt c i j 0 := by
  simp only [transpose, bind_eq_ok, throwIf_eq_ok] at h
  obtain ⟨-, hguard, h⟩ := h
  obtain ⟨i, hi, hilt⟩ : ∃ i : ℕ, normalizeDim dim0 t.ndim = i ∧ (i : Int) < t.ndim :=
    TensorImpl.exists_axis (by tauto)
  obtain ⟨j, hj, hjlt⟩ : ∃ j : ℕ, normalizeDim dim1 t.ndim = j ∧ (j : Int) < t.ndim :=
    TensorImpl.exists_axis (by tauto)
  rw [hi, hj, Int.toNat_natCast, Int.toNat_natCast] at h
  obtain ⟨-, hshape, hval⟩ := make_eq_ok.mp h
  have hi' : i < t.shape.length := by simpa [ndim] using hilt
  have hj' : j < t.shape.length := by simpa [ndim] using hjlt
  refine ⟨i, j, hi', hj', hi, hj, hshape, fun c hc => ?_, fun c _ => by rw [hval]⟩
  exact TensorImpl.within_swapAt hi' hj' (hshape ▸ hc)

theorem exists_transpose (hi : i < t.shape.length) (hj : j < t.shape.length)
    (hd0 : normalizeDim dim0 t.ndim = i) (hd1 : normalizeDim dim1 t.ndim = j) :
    ∃ r, t.transpose dim0 dim1 = .ok r := by
  obtain ⟨r, hr, -⟩ := exists_make (fun c => t.value (TensorImpl.swapAt c i j 0))
    fun n hn => t.shape_nonneg n (TensorImpl.mem_swapAt hi hj hn)
  refine ⟨r, ?_⟩
  have hguard : ¬ ((i : Int) < 0 ∨ t.ndim ≤ i ∨ (j : Int) < 0 ∨ t.ndim ≤ j) := by
    unfold ndim
    omega
  simp only [transpose, hd0, hd1, throwIf_of_not hguard, Int.toNat_natCast]
  exact hr

theorem squeezeDim_ok (h : t.squeezeDim msg dim = .ok y) :
    ∃ d : ℕ, d < t.shape.length ∧ normalizeDim dim t.ndim = d ∧
      ((t.shape.getD d 0 ≠ 1 ∧ y = t) ∨
        (t.shape.getD d 0 = 1 ∧ y.shape = t.shape.eraseIdx d ∧
          Reads t y fun c => c.insertIdx d 0)) := by
  simp only [squeezeDim, bind_eq_ok, throwIf_eq_ok] at h
  obtain ⟨-, hguard, h⟩ := h
  obtain ⟨d, hd, hlt⟩ := TensorImpl.exists_axis hguard
  have hd' : d < t.shape.length := by simpa [ndim] using hlt
  refine ⟨d, hd', hd, ?_⟩
  simp only [hd, size, Int.toNat_natCast] at h
  split at h
  · rename_i hne
    exact .inl ⟨hne, (pure_eq_ok.mp h).symm⟩
  · rename_i hone
    obtain ⟨-, hshape, hval⟩ := make_eq_ok.mp h
    refine .inr ⟨not_not.mp hone, hshape, fun c hc => ?_, fun c _ => by rw [hval]⟩
    have hw := within_insertIdx (d := d) (i := 0) (n := t.shape.getD d 0) (hshape ▸ hc) (by omega)
      (by rw [length_eraseIdx_of_lt hd']; omega)
    rwa [insertIdx_eraseIdx_getD 0 hd'] at hw

theorem exists_squeezeDim (msg : String) (hd : d < t.shape.length)
    (hdim : normalizeDim dim t.ndim = d) (hone : t.shape.getD d 0 = 1) :
    ∃ r, t.squeezeDim msg dim = .ok r := by
  obtain ⟨r, hr, -⟩ := exists_make (fun c => t.value (c.insertIdx d 0))
    fun n hn => t.shape_nonneg n (mem_of_mem_eraseIdx hn)
  refine ⟨r, ?_⟩
  have hguard : ¬ ((d : Int) < 0 ∨ t.ndim ≤ d) := by
    unfold ndim
    omega
  simp only [squeezeDim, hdim, throwIf_of_not hguard, size, Int.toNat_natCast, hone, ne_eq,
    not_true_eq_false, if_false]
  exact hr

theorem unsqueezeDim_ok (h : t.unsqueezeDim msg dim = .ok y) :
    ∃ d : ℕ, d ≤ t.shape.length ∧ normalizeDim dim (t.ndim + 1) = d ∧
      y.shape = t.shape.insertIdx d 1 ∧ Reads t y fun c => c.eraseIdx d := by
  simp only [unsqueezeDim, bind_eq_ok, throwIf_eq_ok] at h
  obtain ⟨-, hguard, h⟩ := h
  obtain ⟨d, hd, hlt⟩ : ∃ d : ℕ, normalizeDim dim (t.ndim + 1) = d ∧ (d : Int) < t.ndim + 1 :=
    TensorImpl.exists_axis (by omega)
  rw [hd, Int.toNat_natCast] at h
  obtain ⟨-, hshape, hval⟩ := make_eq_ok.mp h
  have hd' : d ≤ t.shape.length := by
    simp only [ndim] at hlt
    omega
  refine ⟨d, hd', hd, hshape, fun c hc => ?_, fun c _ => by rw [hval]⟩
  have hw := within_eraseIdx d (hshape ▸ hc)
  rwa [eraseIdx_insertIdx_self] at hw

theorem exists_unsqueezeDim (msg : String) (hd : d ≤ t.shape.length)
    (hdim : normalizeDim dim (t.ndim + 1) = d) : ∃ r, t.unsqueezeDim msg dim = .ok r := by
  have hnn : ∀ n ∈ t.shape.insertIdx d 1, 0 ≤ n := by
    intro n hn
    rcases eq_or_mem_of_mem_insertIdx hn with rfl | hn
    · omega
    · exact t.shape_nonneg n hn
  obtain ⟨r, hr, -⟩ := exists_make (fun c => t.value (c.eraseIdx d)) hnn
  refine ⟨r, ?_⟩
  have hguard : ¬ ((d : Int) < 0 ∨ t.ndim < d) := by
    unfold ndim
    omega
  simp only [unsqueezeDim, hdim, throwIf_of_not hguard, Int.toNat_natCast]
  exact hr

/-- The multi-index that one axis is rolled back to. -/
def rollIndex (shifts : Int) (d : ℕ) (n : Int) (c : List Int) : List Int :=
  c.set d ((c.getD d 0 - shifts) % n)

theorem within_rollIndex (shifts : Int) (hd : d < shape.length) (hc : Within c shape) :
    Within (rollIndex shifts d (shape.getD d 0) c) shape := by
  have hpos := within_getD hc hd
  have hw := within_set_set (x := (c.getD d 0 - shifts) % shape.getD d 0) hc
    ⟨Int.emod_nonneg _ (by omega), Int.emod_lt_of_pos _ (by omega)⟩ hd
  rwa [set_getD_self] at hw

theorem rollIndex_rollIndex (a b n : Int) (hd : d < c.length) :
    rollIndex a d n (rollIndex b d n c) = rollIndex (a + b) d n c := by
  unfold rollIndex
  rw [getD_set_self _ hd, set_set, Int.emod_sub_emod, sub_sub, add_comm b a]

theorem rollIndex_zero (hd : d < shape.length) (hc : Within c shape) :
    rollIndex 0 d (shape.getD d 0) c = c := by
  have hb := within_getD hc hd
  rw [rollIndex, sub_zero, Int.emod_eq_of_lt hb.1 hb.2, set_getD_self]

theorem rollIndex_neg (shifts : Int) (hd : d < shape.length) (hc : Within c shape) :
    rollIndex (-shifts) d (shape.getD d 0) (rollIndex shifts d (shape.getD d 0) c) = c := by
  rw [rollIndex_rollIndex _ _ _ (by rw [hc.length_eq]; exact hd), neg_add_cancel,
    rollIndex_zero hd hc]

theorem normalizeDim_tmod (a : Int) {n : Int} (hn : 0 < n) : normalizeDim (a.tmod n) n = a % n := by
  rw [normalizeDim, Int.tmod_eq_emod]
  have hb := Int.emod_nonneg a (show n ≠ 0 by omega)
  have hlt := Int.emod_lt_of_pos a hn
  split_ifs <;> omega

theorem roll_ok {shifts : Int} (h : t.roll shifts dim = .ok y) :
    ∃ d : ℕ, d < t.shape.length ∧ normalizeDim dim t.ndim = d ∧ y.shape = t.shape ∧
      Reads t y (rollIndex shifts d (t.shape.getD d 0)) := by
  simp only [roll, bind_eq_ok, throwIf_eq_ok] at h
  obtain ⟨-, hguard, h⟩ := h
  obtain ⟨d, hd, hlt⟩ := TensorImpl.exists_axis hguard
  have hd' : d < t.shape.length := by simpa [ndim] using hlt
  refine ⟨d, hd', hd, ?_⟩
  simp only [hd, size, Int.toNat_natCast] at h
  have hsame : y.shape = t.shape → (∀ c, Within c t.shape →
      y.value c = t.value (rollIndex shifts d (t.shape.getD d 0) c)) →
      y.shape = t.shape ∧ Reads t y (rollIndex shifts d (t.shape.getD d 0)) := by
    intro hshape hval
    refine ⟨hshape, fun c hc => ?_, fun c hc => hval c (hshape ▸ hc)⟩
    exact within_rollIndex shifts hd' (hshape ▸ hc)
  split at h
  · obtain rfl := pure_eq_ok.mp h
    apply hsame rfl
    intro c hc
    have := within_getD hc hd'
    omega
  · have hn : 0 < t.shape.getD d 0 := by
      have := t.nonneg_getD hd'
      omega
    rw [normalizeDim_tmod shifts hn] at h
    split at h
    · rename_i hzero
      obtain rfl := pure_eq_ok.mp h
      apply hsame rfl
      intro c hc
      have hb := within_getD hc hd'
      rw [rollIndex, Int.sub_emod, hzero, sub_zero, Int.emod_emod,
        Int.emod_eq_of_lt hb.1 hb.2, set_getD_self]
    · obtain ⟨-, hshape, hval⟩ := make_eq_ok.mp h
      apply hsame hshape
      intro c hc
      have hb := within_getD hc hd'
      have hlt := Int.emod_lt_of_pos shifts hn
      rw [hval, rollIndex]
      simp only
      rw [Int.tmod_eq_emod_of_nonneg (by omega), Int.add_emod_right, Int.sub_emod_emod]

theorem exists_roll (shifts : Int) (hd : d < t.shape.length) (hdim : normalizeDim dim t.ndim = d) :
    ∃ r, t.roll shifts dim = .ok r := by
  have hguard : ¬ ((d : Int) < 0 ∨ t.ndim ≤ d) := by
    unfold ndim
    omega
  simp only [roll, hdim, throwIf_of_not hguard]
  by_cases hn : t.size d = 0
  · exact ⟨t, if_pos hn⟩
  · by_cases hs : normalizeDim (shifts.tmod (t.size d)) (t.size d) = 0
    · exact ⟨t, (if_neg hn).trans (if_pos hs)⟩
    · obtain ⟨r, hr, -⟩ := exists_make (fun c => t.value (c.set (d : Int).toNat
        ((c.getD (d : Int).toNat 0 - normalizeDim (shifts.tmod (t.size d)) (t.size d) +
          t.size d).tmod (t.size d)))) t.shape_nonneg
      exact ⟨r, (if_neg hn).trans ((if_neg hs).trans hr)⟩

theorem flipIndex_getD {k : ℕ} (hk : k < shape.length) :
    (flipIndex shape dims c).getD k 0 =
      if (k : Int) ∈ dims then shape.getD k 0 - 1 - c.getD k 0 else c.getD k 0 := by
  rw [flipIndex, getD_eq_getElem _ _ (by simpa using hk), getElem_map,
    getElem_range]

theorem within_flipIndex (dims : List Int) (hc : Within c shape) :
    Within (flipIndex shape dims c) shape := by
  refine within_iff_getD.mpr ⟨by simp [flipIndex], fun k hk => ?_⟩
  have hb := within_getD hc hk
  rw [flipIndex_getD hk]
  split <;> omega

theorem flipIndex_flipIndex (dims : List Int) (hc : Within c shape) :
    flipIndex shape dims (flipIndex shape dims c) = c := by
  have hlen : (flipIndex shape dims (flipIndex shape dims c)).length = shape.length := by
    simp [flipIndex]
  apply ext_getD (by rw [hlen, hc.length_eq])
  intro k hk
  rw [hlen] at hk
  rw [flipIndex_getD hk, flipIndex_getD hk]
  split <;> omega

/-- The axes that are reversed. -/
def flipAxes (dims : List Int) (ndim : Int) : List Int := (orFirst dims).map (normalizeDim · ndim)

theorem flipDim_eq_ok {d : Int} : t.flipDim dim = .ok d ↔
    (0 ≤ normalizeDim dim t.ndim ∧ normalizeDim dim t.ndim < t.ndim) ∧ d = normalizeDim dim t.ndim := by
  simp only [flipDim, bind_eq_ok, throwIf_eq_ok, pure_eq_ok]
  constructor
  · rintro ⟨-, hguard, rfl⟩
    exact ⟨by omega, rfl⟩
  · rintro ⟨hin, rfl⟩
    exact ⟨(), by omega, rfl⟩

theorem mapM_flipDim {ds : List Int} : dims.mapM t.flipDim = .ok ds ↔
    (∀ dim ∈ dims, 0 ≤ normalizeDim dim t.ndim ∧ normalizeDim dim t.ndim < t.ndim) ∧
      ds = dims.map (normalizeDim · t.ndim) := by
  constructor
  · intro h
    obtain ⟨rfl, hall⟩ := mapM_returns (g := fun dim => normalizeDim dim t.ndim) h
      fun dim _ d hd => (t.flipDim_eq_ok.mp hd).2
    exact ⟨fun dim hdim => (t.flipDim_eq_ok.mp (hall dim hdim)).1, rfl⟩
  · rintro ⟨hall, rfl⟩
    exact mapM_eq_map fun dim hdim => t.flipDim_eq_ok.mpr ⟨hall dim hdim, rfl⟩

/-- Dimensions that count from the front are normalized to themselves. -/
theorem orFirst_normalized
    (h : ∀ dim ∈ dims, 0 ≤ normalizeDim dim t.ndim ∧ normalizeDim dim t.ndim < t.ndim) :
    (orFirst (dims.map (normalizeDim · t.ndim))).map (normalizeDim · t.ndim) =
      flipAxes dims t.ndim := by
  unfold flipAxes orFirst
  by_cases hnil : dims = []
  · rw [hnil, map_nil]
  · rw [if_neg hnil, if_neg (mt map_eq_nil_iff.mp hnil), map_map]
    exact map_congr_left fun dim hdim => if_neg (not_lt.mpr (h dim hdim).1)

theorem flip_eq_ok : t.flip dims = .ok y ↔
    (∀ d ∈ flipAxes dims t.ndim, 0 ≤ d ∧ d < t.ndim) ∧
      make t.shape (fun c => t.value (flipIndex t.shape (flipAxes dims t.ndim) c)) = .ok y := by
  simp only [flip, flipKernel, bind_eq_ok, mapM_flipDim]
  constructor
  · rintro ⟨_, ⟨hdims, rfl⟩, _, ⟨hall, rfl⟩, h⟩
    rw [t.orFirst_normalized hdims] at h
    refine ⟨?_, h⟩
    rw [← t.orFirst_normalized hdims]
    exact forall_mem_map.mpr hall
  · rintro ⟨hall, h⟩
    have hdims : ∀ dim ∈ dims, 0 ≤ normalizeDim dim t.ndim ∧ normalizeDim dim t.ndim < t.ndim := by
      intro dim hdim
      have hne : dims ≠ [] := ne_nil_of_mem hdim
      refine hall _ (mem_map_of_mem ?_)
      rwa [orFirst, if_neg hne]
    rw [← t.orFirst_normalized hdims] at hall h
    exact ⟨_, ⟨hdims, rfl⟩, _, ⟨forall_mem_map.mp hall, rfl⟩, h⟩

theorem flip_ok (h : t.flip dims = .ok y) :
    (∀ d ∈ flipAxes dims t.ndim, 0 ≤ d ∧ d < t.ndim) ∧
      y.shape = t.shape ∧ Reads t y (flipIndex t.shape (flipAxes dims t.ndim)) := by
  obtain ⟨hdims, hy⟩ := t.flip_eq_ok.mp h
  obtain ⟨-, hshape, hval⟩ := make_eq_ok.mp hy
  exact ⟨hdims, hshape, fun c hc => within_flipIndex _ (hshape ▸ hc), fun c _ => by rw [hval]⟩

theorem exists_flip (h : ∀ d ∈ flipAxes dims t.ndim, 0 ≤ d ∧ d < t.ndim) :
    ∃ r, t.flip dims = .ok r := by
  obtain ⟨r, hr, -⟩ := exists_make
    (fun c => t.value (flipIndex t.shape (flipAxes dims t.ndim) c)) t.shape_nonneg
  exact ⟨r, t.flip_eq_ok.mpr ⟨h, hr⟩⟩

/-- The multi-index of an element of a slice in its input. -/
def sliceIndex (d : ℕ) (first step : Int) (c : List Int) : List Int :=
  c.set d (first + c.getD d 0 * step)

/-- How many steps fit between two positions. -/
def sliceLength (first last step : Int) : Int := (last - first + step - 1).tdiv step

theorem add_mul_lt_of_lt_sliceLength {k : Int} (horder : first ≤ last) (hstep : 0 < step)
    (hlt : k < sliceLength first last step) : first + k * step < last := by
  rw [sliceLength, Int.tdiv_eq_ediv_of_nonneg (by omega)] at hlt
  have hmul : (k + 1) * step ≤ last - first + step - 1 := (Int.le_ediv_iff_mul_le hstep).mp hlt
  have hring : (k + 1) * step = k * step + step := by ring
  omega

theorem slice_ok {start stop : Int} (h : t.slice dim start stop step = .ok y) :
    ∃ d : ℕ, d < t.shape.length ∧ normalizeDim dim t.ndim = d ∧ 0 < step ∧
      0 ≤ normalizeDim start (t.shape.getD d 0) ∧
      normalizeDim start (t.shape.getD d 0) ≤ normalizeDim stop (t.shape.getD d 0) ∧
      normalizeDim stop (t.shape.getD d 0) ≤ t.shape.getD d 0 ∧
      y.shape = t.shape.set d (sliceLength (normalizeDim start (t.shape.getD d 0))
        (normalizeDim stop (t.shape.getD d 0)) step) ∧
      Reads t y (sliceIndex d (normalizeDim start (t.shape.getD d 0)) step) := by
  simp only [slice, bind_eq_ok, throwIf_eq_ok] at h
  obtain ⟨-, hguard, -, hfirst, -, hlast, -, horder, -, hstep, h⟩ := h
  obtain ⟨d, hd, hlt⟩ := TensorImpl.exists_axis hguard
  have hd' : d < t.shape.length := by simpa [ndim] using hlt
  simp only [hd, size, Int.toNat_natCast] at hfirst hlast horder h
  obtain ⟨-, hshape, hval⟩ := make_eq_ok.mp h
  refine ⟨d, hd', hd, by omega, by omega, by omega, by omega, hshape, fun c hc => ?_,
    fun c _ => by rw [hval]; rfl⟩
  rw [hshape] at hc
  have hb := within_getD (d := d) hc (by simpa using hd')
  rw [getD_set_self _ hd'] at hb
  have hbound := add_mul_lt_of_lt_sliceLength (by omega) (by omega) hb.2
  have hnn : 0 ≤ c.getD d 0 * step := mul_nonneg hb.1 (by omega)
  have hw := within_set_set (d := d) (n := t.shape.getD d 0)
    (x := normalizeDim start (t.shape.getD d 0) + c.getD d 0 * step) hc (by omega)
    (by simpa using hd')
  rwa [set_set, set_getD_self] at hw

theorem sliceLength_one (first last : Int) : sliceLength first last 1 = last - first := by
  rw [sliceLength, Int.tdiv_one]
  omega

/-- A slice of whole steps whose ends are positions of the axis. -/
theorem exists_slice_one (hd : d < t.shape.length) (hfirst : 0 ≤ first) (horder : first ≤ last)
    (hlast : last ≤ t.shape.getD d 0) :
    ∃ r, t.slice d first last 1 = .ok r ∧ r.shape = t.shape.set d (last - first) ∧
      Reads t r (sliceIndex d first 1) := by
  have hdim : normalizeDim d t.ndim = d := if_neg (by omega)
  have hnf : normalizeDim first (t.size d) = first := if_neg (by omega)
  have hnl : normalizeDim last (t.size d) = last := if_neg (by omega)
  obtain ⟨r, hr⟩ : ∃ r, t.slice d first last 1 = .ok r := by
    have hnn : ∀ n ∈ t.shape.set (d : Int).toNat ((last - first + 1 - 1).tdiv 1), 0 ≤ n := by
      intro n hn
      rcases mem_or_eq_of_mem_set hn with hn | rfl
      · exact t.shape_nonneg n hn
      · rw [Int.tdiv_one]
        omega
    obtain ⟨r, hr, -⟩ := exists_make (fun c => t.value
      (c.set (d : Int).toNat (first + c.getD (d : Int).toNat 0 * 1))) hnn
    have hsize : t.size d = t.shape.getD d 0 := rfl
    refine ⟨r, ?_⟩
    simp only [slice, hdim, hnf, hnl]
    rw [throwIf_of_not (by unfold ndim; omega), throwIf_of_not (by omega), throwIf_of_not (by omega), throwIf_of_not (by omega)]
    exact hr
  obtain ⟨e, -, he, -, -, -, -, hshape, hreads⟩ := slice_ok hr
  obtain rfl : e = d := by
    rw [hdim] at he
    exact_mod_cast he.symm
  have hnf : normalizeDim first (t.shape.getD e 0) = first := hnf
  have hnl : normalizeDim last (t.shape.getD e 0) = last := hnl
  rw [hnf] at hreads
  rw [hnf, hnl, sliceLength_one] at hshape
  exact ⟨r, hr, hshape, hreads⟩

end Tensor

end Tenzor.ShapeOps
