import Tenzor.Autograd.ShapeReads

/-!
# Broadcasts and the sums that undo them

`expand` and `repeat` read one element of their input many times. Their backwards sum axes out,
one after the other, and each sum adds up along the map that forgets its axis.
-/

namespace Tenzor.ShapeOps

open Strided Reindexing Throwing List

variable {R : Type}

namespace Tensor

variable [AddCommMonoid R] {t g y : Tensor R} {d k j : ℕ} {c shape : List Int}

theorem normalizeDim_natCast (d : ℕ) (n : Int) : normalizeDim d n = d :=
  if_neg (by omega)

omit [AddCommMonoid R] in
theorem indexedDim_natCast (op : String) (hd : d < t.shape.length) :
    indexedDim op d t.ndim = .ok d := by
  have hguard : ¬ ((d : Int) < 0 ∨ t.ndim ≤ d) := by
    unfold ndim
    omega
  simp only [indexedDim, normalizeDim_natCast, throwIf_of_not hguard]
  rfl

/-- An axis summed out. -/
theorem exists_sum (hd : d < t.shape.length) :
    ∃ r, t.sum d false = .ok r ∧ r.shape = t.shape.eraseIdx d ∧
      Sums t r fun c => c.eraseIdx d := by
  have hnn : ∀ n ∈ t.shape.eraseIdx d, 0 ≤ n :=
    fun n hn => t.shape_nonneg n (mem_of_mem_eraseIdx hn)
  obtain ⟨r, hr, hshape, hval⟩ := exists_make
    (fun c => ∑ i ∈ Finset.range (t.size d).toNat, t.value (c.insertIdx d (i : Int))) hnn
  refine ⟨r, ?_, hshape, fun c hc => ?_⟩
  · rw [sum, indexedDim_natCast "sum" hd]
    exact hr
  · rw [hval, push_eraseIdx hd t.value (hshape ▸ hc)]
    rfl

/-- An axis summed to size one. -/
theorem exists_sum_keepdim (hd : d < t.shape.length) :
    ∃ r, t.sum d true = .ok r ∧ r.shape = t.shape.set d 1 ∧ Sums t r fun c => c.set d 0 := by
  have hnn : ∀ n ∈ t.shape.set d 1, 0 ≤ n := by
    intro n hn
    rcases mem_or_eq_of_mem_set hn with hn | rfl
    · exact t.shape_nonneg n hn
    · omega
  obtain ⟨r, hr, hshape, hval⟩ := exists_make
    (fun c => ∑ i ∈ Finset.range (t.size d).toNat, t.value (c.set d (i : Int))) hnn
  refine ⟨r, ?_, hshape, fun c hc => ?_⟩
  · rw [sum, indexedDim_natCast "sum" hd]
    exact hr
  · rw [hval, push_set_zero hd t.value (hshape ▸ hc)]
    rfl

theorem within_drop (k : ℕ) (h : Within c shape) :
    Within (c.drop k) (shape.drop k) := forall₂_drop k h

theorem exists_sumLeading (hk : k ≤ t.shape.length) :
    ∃ r, t.sumLeading k = .ok r ∧ r.shape = t.shape.drop k ∧ Sums t r fun c => c.drop k := by
  induction k with
  | zero =>
    refine ⟨t, rfl, rfl, fun c hc => ?_⟩
    exact (push_of_unique (mem_indices.mpr hc) rfl fun _ _ h => h).symm
  | succ k ih =>
    obtain ⟨r, hr, hshape, hsums⟩ := ih (by omega)
    have hlen : 0 < r.shape.length := by
      rw [hshape, length_drop]
      omega
    obtain ⟨s, hs, hsshape, hssums⟩ := exists_sum hlen
    refine ⟨s, ?_, ?_, ?_⟩
    · rw [sumLeading, foldlM_range_succ]
      exact bind_eq_ok.mpr ⟨r, hr, hs⟩
    · rw [hsshape, hshape, eraseIdx_zero, tail_drop]
    · refine (hsums.trans hssums fun c hc => hshape ▸ within_drop k hc).congr fun c _ => ?_
      rw [eraseIdx_zero, tail_drop]

/-- Each axis of the shape is one or the axis of the output it is aligned with. -/
def Broadcasts (shape out : List Int) : Prop :=
  List.Forall₂ (fun n m => n = 1 ∨ n = m) shape out

/-- The multi-index with the axes of size one set to zero. -/
def collapse (shape c : List Int) : List Int :=
  List.zipWith (fun n i => if n = 1 then 0 else i) shape c

theorem within_collapse {out : List Int} (h : Broadcasts shape out) (hc : Within c out) :
    Within (collapse shape c) shape := by
  induction h generalizing c with
  | nil => exact within_nil
  | @cons n m shape out hnm _ ih =>
    cases hc with
    | @cons i _ c _ hi hc =>
      refine within_cons.mpr ⟨?_, ih hc⟩
      dsimp only
      split <;> omega

theorem collapse_self (hc : Within c shape) : collapse shape c = c := by
  induction hc with
  | nil => rfl
  | @cons i n c shape hi _ ih =>
    unfold collapse at ih ⊢
    rw [zipWith_cons_cons]
    congr 1
    split <;> omega

theorem collapse_getD (hlen : c.length = shape.length) (hk : k < shape.length) :
    (collapse shape c).getD k 0 = if shape.getD k 0 = 1 then 0 else c.getD k 0 := by
  rw [collapse, getD_eq_getElem _ _ (by simp [hlen, hk]), getElem_zipWith,
    getD_eq_getElem _ _ hk, getD_eq_getElem _ _ (hlen ▸ hk)]

/-- The multi-index with the first axes collapsed. -/
def collapseFirst (j : ℕ) (shape c : List Int) : List Int :=
  (List.range c.length).map fun k : ℕ =>
    if k < j ∧ shape.getD k 0 = 1 then 0 else c.getD k 0

theorem collapseFirst_getD (hk : k < c.length) :
    (collapseFirst j shape c).getD k 0 =
      if k < j ∧ shape.getD k 0 = 1 then 0 else c.getD k 0 := by
  rw [collapseFirst, getD_eq_getElem _ _ (by simpa using hk), getElem_map,
    getElem_range]

@[simp] theorem collapseFirst_length (j : ℕ) (shape c : List Int) :
    (collapseFirst j shape c).length = c.length := by
  simp [collapseFirst]

theorem collapseFirst_zero (shape c : List Int) : collapseFirst 0 shape c = c := by
  apply ext_getD (by simp)
  intro k hk
  rw [collapseFirst_getD (by simpa using hk), if_neg (by omega)]

theorem collapseFirst_all (hlen : c.length = shape.length) :
    collapseFirst shape.length shape c = collapse shape c := by
  apply ext_getD (by simp [collapse, hlen])
  intro k hk
  rw [collapseFirst_length] at hk
  rw [collapseFirst_getD hk, collapse_getD hlen (by omega)]
  simp [show k < shape.length by omega]

theorem collapseFirst_succ (hj : j < c.length) :
    collapseFirst (j + 1) shape c = if shape.getD j 0 = 1 then (collapseFirst j shape c).set j 0
      else collapseFirst j shape c := by
  split
  · rename_i hone
    apply ext_getD (by simp)
    intro k hk
    rw [collapseFirst_length] at hk
    rw [collapseFirst_getD hk, getD_set _ _ _ _ _ (by simpa using hj), collapseFirst_getD hk]
    by_cases hkj : k = j
    · subst hkj
      rw [if_pos ⟨by omega, hone⟩, if_pos rfl]
    · simp only [if_neg hkj, show k < j + 1 ↔ k < j by omega]
  · rename_i hne
    apply ext_getD (by simp)
    intro k hk
    rw [collapseFirst_length] at hk
    rw [collapseFirst_getD hk, collapseFirst_getD hk]
    by_cases hkj : k = j
    · subst hkj
      rw [if_neg fun h => hne h.2, if_neg fun h => hne h.2]
    · simp only [show k < j + 1 ↔ k < j by omega]

/-- The loop that sums the axes of size one has collapsed the first axes. -/
theorem exists_collapse {target : List Int} (hb : Broadcasts target t.shape)
    (hpos : ∀ n ∈ t.shape, 0 < n) (hj : j ≤ target.length) :
    ∃ r : Tensor R, (List.range j).foldlM (fun result (i : ℕ) =>
        if target.getD i 0 = 1 ∧ 1 < result.shape.getD i 0 then result.sum i true
        else return result) t = .ok r ∧
      r.shape.length = target.length ∧
      (∀ k < target.length, r.shape.getD k 0 =
        if k < j then target.getD k 0 else t.shape.getD k 0) ∧
      Sums t r (collapseFirst j target) := by
  have hlen : target.length = t.shape.length := hb.length_eq
  have hone : ∀ k < target.length, target.getD k 0 = 1 ∨ target.getD k 0 = t.shape.getD k 0 := by
    intro k hk
    rw [getD_eq_getElem _ _ hk, getD_eq_getElem _ _ (hlen ▸ hk)]
    exact forall₂_iff_get.mp hb |>.2 k hk (hlen ▸ hk)
  induction j with
  | zero =>
    refine ⟨t, rfl, hlen.symm, fun k _ => by simp, fun c hc => ?_⟩
    refine (push_of_unique (mem_indices.mpr hc) (collapseFirst_zero target c) ?_).symm
    intro c' _ he
    rwa [collapseFirst_zero] at he
  | succ j ih =>
    obtain ⟨r, hr, hrlen, hget, hsums⟩ := ih (by omega)
    have hrj : r.shape.getD j 0 = t.shape.getD j 0 := by
      rw [hget j (by omega), if_neg (by omega)]
    have htj : 0 < t.shape.getD j 0 := by
      rw [getD_eq_getElem _ _ (by omega)]
      exact hpos _ (getElem_mem _)
    have hwithin : ∀ c, Within c t.shape → Within (collapseFirst j target c) r.shape := by
      intro c hc
      have hcl := hc.length_eq
      refine within_iff_getD.mpr ⟨by simp [hcl, hrlen, hlen], fun k hk => ?_⟩
      have hk' : k < target.length := by omega
      have hb := within_getD hc (d := k) (by omega)
      have hcase := hone k hk'
      rw [hget k hk', collapseFirst_getD (by omega)]
      split_ifs <;> omega
    by_cases hsum : target.getD j 0 = 1 ∧ 1 < r.shape.getD j 0
    · obtain ⟨s, hs, hsshape, hssums⟩ := exists_sum_keepdim (t := r) (d := j) (by omega)
      refine ⟨s, ?_, by rw [hsshape, length_set, hrlen], fun k hk => ?_, ?_⟩
      · rw [foldlM_range_succ]
        exact bind_eq_ok.mpr ⟨r, hr, (if_pos hsum).trans hs⟩
      · rw [hsshape, getD_set _ _ _ _ _ (by omega), hget k hk]
        by_cases hkj : k = j
        · rw [if_pos hkj, if_pos (by omega), hkj, hsum.1]
        · simp only [if_neg hkj, show k < j + 1 ↔ k < j by omega]
      · refine (hsums.trans hssums hwithin).congr fun c hc => ?_
        rw [collapseFirst_succ (by rw [hc.length_eq]; omega), if_pos hsum.1]
    · refine ⟨r, ?_, hrlen, fun k hk => ?_, hsums.congr fun c hc => ?_⟩
      · rw [foldlM_range_succ]
        exact bind_eq_ok.mpr ⟨r, hr, if_neg hsum⟩
      · rw [hget k hk]
        by_cases hkj : k = j
        · have hcase := hone j (by omega)
          rw [hkj, if_neg (by omega)]
          omega
        · simp only [show k < j + 1 ↔ k < j by omega]
      · rw [collapseFirst_succ (by rw [hc.length_eq]; omega)]
        split
        · have hcj := within_getD hc (d := j) (by omega)
          have hzero : (collapseFirst j target c).getD j 0 = 0 := by
            rw [collapseFirst_getD (by rw [hc.length_eq]; omega)]
            omega
          conv_lhs => rw [← set_getD_self (collapseFirst j target c) j, hzero]
        · rfl

/-- The sum to a shape that broadcasts to the gradient's adds up along the broadcast. -/
theorem exists_reduceGrad {target : List Int} (name : String) (hnn : ∀ n ∈ target, 0 ≤ n)
    (hlen : target.length ≤ g.shape.length)
    (hb : Broadcasts target (g.shape.drop (g.shape.length - target.length)))
    (hempty : g.numel = 0 → target.prod = 0) :
    ∃ r, g.reduceGrad name target = .ok r ∧ r.shape = target ∧
      Sums g r fun c => collapse target (c.drop (g.shape.length - target.length)) := by
  unfold reduceGrad
  by_cases heq : g.shape = target
  · subst heq
    refine ⟨g, if_pos rfl, rfl, fun c hc => ?_⟩
    have hid : ∀ c, Within c g.shape →
        collapse g.shape (c.drop (g.shape.length - g.shape.length)) = c := by
      intro c hc
      rw [Nat.sub_self, drop_zero, collapse_self hc]
    refine (push_of_unique (mem_indices.mpr hc) (hid c hc) fun c' hc' he => ?_).symm
    rwa [hid c' (mem_indices.mp hc')] at he
  rw [if_neg heq]
  by_cases hzero : g.numel = 0
  · obtain ⟨r, hr, hshape, -⟩ := exists_reshape (t := g) hnn
      ((hempty hzero).trans (Eq.symm hzero))
    refine ⟨r, (if_pos hzero).trans hr, hshape, fun c hc => ?_⟩
    rw [hshape] at hc
    exact absurd (hempty hzero) (Strided.prod_pos hc.pos).ne'
  rw [if_neg hzero]
  have hpos : ∀ n ∈ g.shape, 0 < n := by
    have hprod := Strided.prod_nonneg g.shape_nonneg
    refine pos_of_prod_pos g.shape_nonneg ?_
    unfold numel at hzero
    omega
  by_cases hscalar : target = []
  · subst hscalar
    obtain ⟨r, hr, hshape, hsums⟩ := exists_sumLeading (le_refl g.shape.length)
    refine ⟨r, (if_pos rfl).trans hr, by rw [hshape, drop_length], ?_⟩
    refine hsums.congr fun c hc => ?_
    rw [← hc.length_eq, drop_length]
    rfl
  rw [if_neg hscalar]
  obtain ⟨b, hbr, hbshape, hbsums⟩ :=
    exists_sumLeading (t := g) (k := g.shape.length - target.length) (by omega)
  have hbb : Broadcasts target b.shape := hbshape ▸ hb
  obtain ⟨r, hr, hrlen, hget, hrsums⟩ := exists_collapse hbb (fun n hn => hpos n (mem_of_mem_drop (hbshape ▸ hn))) le_rfl
  have hrshape : r.shape = target := by
    apply ext_getD hrlen
    intro k hk
    rw [hget k (by omega), if_pos (by omega)]
  refine ⟨r, ?_, hrshape, ?_⟩
  · simp only [throwIf_of_not (show ¬ g.shape.length < target.length by omega), bind_eq_ok,
      throwIf_eq_ok]
    refine ⟨(), trivial, b, hbr, r, hr, r, ?_, (), by simpa using hrshape, rfl⟩
    rw [if_neg (by simpa using hrshape)]
    rfl
  · refine (hbsums.trans hrsums fun c hc => hbshape ▸ within_drop _ hc).congr fun c hc => ?_
    apply collapseFirst_all
    rw [length_drop, hc.length_eq]
    omega

omit [AddCommMonoid R] in
theorem expand_ok (h : t.expand shape = .ok y) :
    t.shape.length ≤ y.shape.length ∧
      Broadcasts t.shape (y.shape.drop (y.shape.length - t.shape.length)) ∧
      Reads t y (fun c => collapse t.shape (c.drop (y.shape.length - t.shape.length))) ∧
      (0 ∈ shape → y.numel = 0) ∧ (y.numel = 0 → 0 ∈ shape ∨ t.numel = 0) := by
  simp only [expand, bind_eq_ok, throwIf_eq_ok, not_lt] at h
  obtain ⟨-, hlen, resolved, hresolved, _, hchecks, h⟩ := h
  obtain ⟨hmap, hrounds⟩ := mapM_returns (g := fun p : Int × ℕ =>
    if p.1 = -1 then t.shape.getD (p.2 - (shape.length - t.shape.length)) 0 else p.1) hresolved (by
      intro p _ b hb
      split_ifs at hb ⊢
      · exact (Except.ok.inj hb).symm
      · exact (Except.ok.inj hb).symm)
  have hrlen : resolved.length = shape.length := by
    rw [hmap, length_map, length_zipIdx]
  rw [← hrlen] at hlen hmap hrounds hchecks h
  have hzero : 0 ∈ shape → 0 ∈ resolved := by
    intro hmem
    obtain ⟨i, hi, hget⟩ := getElem_of_mem hmem
    rw [hmap]
    refine mem_map.mpr ⟨(0, i), ?_, by simp⟩
    rw [mk_mem_zipIdx_iff_getElem?, ← hget]
    exact getElem?_eq_getElem hi
  have hback : 0 ∈ resolved → 0 ∈ shape ∨ 0 ∈ t.shape := by
    intro hmem
    rw [hmap] at hmem
    obtain ⟨⟨n, i⟩, hp, hn⟩ := mem_map.mp hmem
    have hround := hrounds _ hp
    dsimp only at hn hround
    rw [mk_mem_zipIdx_iff_getElem?] at hp
    obtain ⟨hi, hget⟩ := List.getElem?_eq_some_iff.mp hp
    by_cases hinfer : n = -1
    · rw [if_pos hinfer] at hn hround
      have hoffset : resolved.length - t.shape.length ≤ i := by
        by_contra hlt
        rw [if_pos (by omega)] at hround
        cases hround
      rw [getD_eq_getElem _ _ (by omega)] at hn
      exact .inr (hn ▸ getElem_mem _)
    · rw [if_neg hinfer] at hn
      exact .inl (hn ▸ hget ▸ getElem_mem hi)
  have hb : Broadcasts t.shape (resolved.drop (resolved.length - t.shape.length)) := by
    refine forall₂_iff_get.mpr ⟨by rw [length_drop]; omega, fun k hk hk' => ?_⟩
    have hi : resolved.length - t.shape.length + k < resolved.length := by omega
    have hcheck := forM_eq_ok.mp hchecks
      (resolved[resolved.length - t.shape.length + k], resolved.length - t.shape.length + k) (by
        rw [mk_mem_zipIdx_iff_getElem?]
        exact getElem?_eq_getElem hi)
    have hguard := throwIf_eq_ok.mp hcheck
    dsimp only at hguard
    rw [Nat.add_sub_cancel_left, getD_eq_getElem _ _ hk] at hguard
    simp only [get_eq_getElem, getElem_drop]
    refine or_iff_not_imp_left.mpr fun hne => ?_
    by_contra hother
    exact hguard ⟨Nat.le_add_right _ _, hne, hother⟩
  have hprod {l : List Int} : l.prod = 0 ↔ 0 ∈ l := prod_eq_zero_iff
  suffices hreads : y.shape = resolved ∧ Reads t y fun c =>
      collapse t.shape (c.drop (resolved.length - t.shape.length)) by
    obtain ⟨rfl, hreads⟩ := hreads
    exact ⟨hlen, hb, hreads, fun hmem => hprod.mpr (hzero hmem),
      fun hnumel => (hback (hprod.mp hnumel)).imp_right hprod.mpr⟩
  split at h
  · rename_i hsame
    obtain rfl := pure_eq_ok.mp h
    have hid : ∀ c, Within c t.shape →
        collapse t.shape (c.drop (resolved.length - t.shape.length)) = c := by
      intro c hc
      rw [hsame, Nat.sub_self, drop_zero, collapse_self hc]
    refine ⟨hsame.symm, fun c hc => ?_, fun c hc => by rw [hid c hc]⟩
    rw [hid c hc]
    exact hc
  · obtain ⟨-, hshape, hval⟩ := make_eq_ok.mp h
    refine ⟨hshape, fun c hc => ?_, fun c _ => by rw [hval]; rfl⟩
    exact within_collapse hb (within_drop _ (hshape ▸ hc))

end Tensor

end Tenzor.ShapeOps
