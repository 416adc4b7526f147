import Tenzor.Autograd.ShapeBroadcast

/-!
# Repeats

`repeat` reads its input at the remainder of each index. Its backward cuts every axis of the
gradient into the count of the copy and the index inside it, and sums the counts out.
-/

namespace Tenzor.ShapeOps

open Strided Reindexing Throwing List

variable {R : Type} {rank : ℕ} {l shape repeats c : List Int}

theorem padFront_length (h : l.length ≤ rank) : (padFront rank l).length = rank := by
  rw [padFront, length_append, length_replicate]
  omega

theorem nonneg_padFront (h : ∀ n ∈ l, 0 ≤ n) : ∀ n ∈ padFront rank l, 0 ≤ n := by
  intro n hn
  rcases mem_append.mp hn with hn | hn
  · rw [(mem_replicate.mp hn).2]
    omega
  · exact h n hn

/-- The sizes of a repeated shape. -/
def tileShape (shape repeats : List Int) : List Int :=
  List.zipWith (fun n r => n * r) shape repeats

theorem tileShape_cons (n r : Int) (shape repeats : List Int) :
    tileShape (n :: shape) (r :: repeats) = n * r :: tileShape shape repeats := rfl

/-- The multi-index inside the copy. -/
def tileIndex (shape c : List Int) : List Int := List.zipWith (fun n i => i % n) shape c

theorem within_tileIndex (hlen : repeats.length = shape.length) (hnn : ∀ n ∈ shape, 0 ≤ n)
    (hc : Within c (tileShape shape repeats)) : Within (tileIndex shape c) shape := by
  induction shape generalizing repeats c with
  | nil =>
    exact within_nil
  | cons n shape ih =>
    obtain ⟨r, repeats, rfl⟩ := exists_cons_of_length_eq_add_one hlen
    obtain ⟨hn, hshape⟩ := forall_mem_cons.mp hnn
    cases hc with
    | @cons i _ c _ hi hc =>
      have hn0 : n ≠ 0 := by
        rintro rfl
        simp only [zero_mul] at hi
        omega
      refine within_cons.mpr ⟨⟨Int.emod_nonneg i hn0, Int.emod_lt_of_pos i (by omega)⟩, ?_⟩
      exact ih (by simpa using hlen) hshape hc

theorem zipWith_tmod {out : List Int} (shape : List Int) (hc : Within c out) :
    List.zipWith (fun n i => i.tmod n) shape c = tileIndex shape c := by
  induction hc generalizing shape with
  | nil => simp [tileIndex]
  | @cons i m c out hi _ ih =>
    cases shape with
    | nil => rfl
    | cons n shape =>
      rw [zipWith_cons_cons, ih, Int.tmod_eq_emod_of_nonneg hi.1]
      rfl

/-- Every second entry. -/
def dropEven : List Int → List Int
  | _ :: i :: l => i :: dropEven l
  | _ => []

theorem interleave_cons (r n : Int) (repeats shape : List Int) :
    interleave (r :: repeats) (n :: shape) = r :: n :: interleave repeats shape := rfl

theorem prod_interleave (hlen : repeats.length = shape.length) :
    (interleave repeats shape).prod = (tileShape shape repeats).prod := by
  induction shape generalizing repeats with
  | nil =>
    obtain rfl := length_eq_zero_iff.mp hlen
    rfl
  | cons n shape ih =>
    obtain ⟨r, repeats, rfl⟩ := exists_cons_of_length_eq_add_one hlen
    rw [interleave_cons, prod_cons, prod_cons, ih (by simpa using hlen), tileShape_cons,
      prod_cons]
    ring

theorem nonneg_interleave (hlen : repeats.length = shape.length) (hrepeats : ∀ r ∈ repeats, 0 ≤ r)
    (hshape : ∀ n ∈ shape, 0 ≤ n) : ∀ n ∈ interleave repeats shape, 0 ≤ n := by
  induction shape generalizing repeats with
  | nil =>
    simp [interleave]
  | cons n shape ih =>
    obtain ⟨r, repeats, rfl⟩ := exists_cons_of_length_eq_add_one hlen
    obtain ⟨hn, hshape⟩ := forall_mem_cons.mp hshape
    obtain ⟨hr, hrepeats⟩ := forall_mem_cons.mp hrepeats
    refine forall_mem_cons.mpr ⟨hr, forall_mem_cons.mpr ⟨hn, ?_⟩⟩
    exact ih (by simpa using hlen) hrepeats hshape

theorem within_dropEven (hlen : repeats.length = shape.length)
    (hc : Within c (interleave repeats shape)) : Within (dropEven c) shape := by
  induction shape generalizing repeats c with
  | nil =>
    obtain rfl := length_eq_zero_iff.mp hlen
    cases hc
    exact within_nil
  | cons n shape ih =>
    obtain ⟨r, repeats, rfl⟩ := exists_cons_of_length_eq_add_one hlen
    cases hc with
    | cons _ hc =>
      cases hc with
      | cons hi hc => exact within_cons.mpr ⟨hi, ih (by simpa using hlen) hc⟩

/-- An index of interleaved axes behind a prefix. -/
theorem exists_of_within_append {front rest : List Int} {k n : Int}
    (hc : Within c (front ++ k :: n :: rest)) :
    ∃ p a b l, c = p ++ a :: b :: l ∧ p.length = front.length ∧ Within p front ∧
      (0 ≤ b ∧ b < n) ∧ Within l rest ∧ 0 ≤ a ∧ a < k := by
  have hfront := forall₂_take_append c front _ hc
  have hrest := forall₂_drop_append c front _ hc
  have hsplit := take_append_drop front.length c
  generalize hl : c.drop front.length = l at hrest hsplit
  cases hrest with
  | @cons a _ l _ ha hrest =>
    cases hrest with
    | @cons b _ l _ hb hrest =>
      exact ⟨_, a, b, l, hsplit.symm, hfront.length_eq, hfront, hb, hrest, ha⟩

theorem take_drop_two (p : List Int) (a b : Int) (l : List Int) :
    (p ++ a :: b :: l).take (p.length + 2) = p ++ [a, b] ∧
      (p ++ a :: b :: l).drop (p.length + 2) = l := by
  have hsplit : p ++ a :: b :: l = (p ++ [a, b]) ++ l := by simp
  rw [hsplit]
  exact ⟨take_left' (by simp), drop_left' (by simp)⟩

/-- A multiple of the number of elements does not change the multi-index. -/
theorem unravel_add_mul (shape : List Int) (a k : Int) :
    unravel shape (a * shape.prod + k) = unravel shape k := by
  induction shape generalizing a with
  | nil => rfl
  | cons n shape ih =>
    have hsplit : a * (n * shape.prod) + k = a * n * shape.prod + k := by ring
    rw [unravel, unravel, prod_cons, hsplit, ih]
    by_cases hp : shape.prod = 0
    · simp [hp]
    · rw [add_comm, Int.add_mul_ediv_right _ _ hp, Int.add_mul_emod_self_right]

/-- The flat position of a repeated index, read in the interleaved shape. -/
theorem dropEven_moved (hlen : repeats.length = shape.length)
    (hc : Within c (tileShape shape repeats)) :
    dropEven (Tensor.moved (interleave repeats shape) (tileShape shape repeats) c) =
      tileIndex shape c := by
  induction shape generalizing repeats c with
  | nil =>
    obtain rfl := length_eq_zero_iff.mp hlen
    rfl
  | cons n shape ih =>
    obtain ⟨r, repeats, rfl⟩ := exists_cons_of_length_eq_add_one hlen
    have hlen' : repeats.length = shape.length := by simpa using hlen
    cases hc with
    | @cons i _ c _ hi hc =>
      have hc : Within c (tileShape shape repeats) := hc
      have hprod := prod_interleave hlen'
      have hb := dot_rowMajor_bounds hc
      have htail := ih hlen' hc
      rw [tileShape_cons, interleave_cons, Tensor.moved, rowMajor, dot_cons, unravel, unravel,
        dropEven, tileIndex, hprod]
      unfold Tensor.moved at htail
      congr 1
      · rw [add_comm, Int.add_mul_ediv_right _ _ (by omega),
          Int.ediv_eq_zero_of_lt hb.1 hb.2, zero_add]
      · rw [← hprod, unravel_add_mul, htail]
        rfl

/-- Axes of size one in front do not count. -/
theorem moved_padFront (k : ℕ) (hc : Within c (List.replicate k 1 ++ shape)) :
    Tensor.moved shape (List.replicate k 1 ++ shape) c = c.drop k := by
  induction k generalizing c with
  | zero => exact unravel_dot hc
  | succ k ih =>
    rw [replicate_succ, cons_append] at hc ⊢
    cases hc with
    | @cons i _ c _ hi hc =>
      obtain rfl : i = 0 := by omega
      have hrest := ih hc
      unfold Tensor.moved at hrest ⊢
      rw [rowMajor, dot_cons, zero_mul, zero_add, hrest]
      rfl

namespace Tensor

variable {t y g : Tensor R} {repeats : List Int}

/-- The ones that `repeat` puts in front of the shape of its input. -/
theorem unsqueezes_ok {k : ℕ}
    (h : (List.range k).foldlM (fun padded (_ : ℕ) => padded.unsqueeze 0) t = .ok y) :
    y.shape = List.replicate k 1 ++ t.shape ∧ Reads t y fun c => c.drop k := by
  induction k generalizing y with
  | zero =>
    obtain rfl := pure_eq_ok.mp h
    exact ⟨rfl, fun c hc => hc, fun c _ => rfl⟩
  | succ k ih =>
    rw [foldlM_range_succ] at h
    obtain ⟨u, hu, h⟩ := bind_eq_ok.mp h
    obtain ⟨hshape, hreads⟩ := ih hu
    obtain ⟨d, hd, hdim, hyshape, hyreads⟩ := unsqueezeDim_ok h
    obtain rfl : d = 0 := by
      rw [normalizeDim, if_neg (by omega)] at hdim
      exact_mod_cast hdim.symm
    rw [hshape] at hyshape
    refine ⟨hyshape, ?_⟩
    convert hreads.trans hyreads using 2 with c
    rw [eraseIdx_zero, drop_tail]

theorem tileBy_ok (h : t.tileBy repeats = .ok y) :
    (∀ r ∈ repeats, 0 ≤ r) ∧
      y.shape = tileShape (padFront (max repeats.length t.shape.length) t.shape)
        (padFront (max repeats.length t.shape.length) repeats) ∧
      Reads t y fun c =>
        (tileIndex (padFront (max repeats.length t.shape.length) t.shape) c).drop
          (max repeats.length t.shape.length - t.shape.length) := by
  simp only [tileBy, bind_eq_ok, throwIf_eq_ok] at h
  obtain ⟨-, hneg, padded, hpadded, h⟩ := h
  have hrepeats : ∀ r ∈ repeats, 0 ≤ r := by
    intro r hr
    by_contra hlt
    exact hneg ⟨r, hr, by omega⟩
  obtain ⟨hpshape, hpreads⟩ := unsqueezes_ok hpadded
  obtain ⟨-, hshape, hval⟩ := make_eq_ok.mp h
  have hmax : repeats.length - t.shape.length =
      max repeats.length t.shape.length - t.shape.length := by omega
  have hfront : padded.shape = padFront (max repeats.length t.shape.length) t.shape := by
    rw [hpshape, hmax]
    rfl
  have hcount : padded.shape.length = max repeats.length t.shape.length := by
    rw [hfront, padFront_length (by omega)]
  rw [hcount] at hshape
  rw [hmax] at hpreads
  have hyshape : y.shape = tileShape padded.shape
      (padFront (max repeats.length t.shape.length) repeats) := hshape
  rw [← hfront]
  refine ⟨hrepeats, hyshape, ?_⟩
  have hlen : (padFront (max repeats.length t.shape.length) repeats).length =
      padded.shape.length := by
    rw [padFront_length (by omega), hcount]
  refine hpreads.trans ⟨fun c hc => ?_, fun c hc => ?_⟩
  · exact within_tileIndex hlen padded.shape_nonneg (hyshape ▸ hc)
  · rw [hval]
    exact congrArg padded.value (zipWith_tmod padded.shape hc)

variable [AddCommMonoid R]

/-- The loop that sums the even axes behind a prefix, the last one first. -/
theorem exists_sumEven {shape : List Int} (hlen : repeats.length = shape.length) (front : List Int)
    (hshape : t.shape = front ++ interleave repeats shape) :
    ∃ r, (List.range repeats.length).reverse.foldlM
        (fun result (i : ℕ) => result.sum ((front.length + 2 * i : ℕ) : Int) false) t = .ok r ∧
      r.shape = front ++ shape ∧
      Sums t r fun c => c.take front.length ++ dropEven (c.drop front.length) := by
  induction shape generalizing repeats front t with
  | nil =>
    obtain rfl := length_eq_zero_iff.mp hlen
    refine ⟨t, rfl, hshape, fun c hc => ?_⟩
    have hid : ∀ c, Within c t.shape →
        c.take front.length ++ dropEven (c.drop front.length) = c := by
      intro c hc
      have hl := hc.length_eq
      simp only [hshape, interleave, zipWith_nil_left, flatten_nil,
        append_nil] at hl
      rw [← hl, take_length, dropEven, append_nil]
      simp
    refine (push_of_unique (mem_indices.mpr hc) (hid c hc) fun c' hc' he => ?_).symm
    rwa [hid c' (mem_indices.mp hc')] at he
  | cons n shape ih =>
    obtain ⟨k, repeats, rfl⟩ := exists_cons_of_length_eq_add_one hlen
    have hlen' : repeats.length = shape.length := by simpa using hlen
    obtain ⟨r, hr, hrshape, hrsums⟩ := ih (t := t) hlen' (front ++ [k, n]) (by
      rw [hshape, interleave_cons]
      simp)
    have haxis : front.length < r.shape.length := by
      rw [hrshape]
      simp
    obtain ⟨s, hs, hsshape, hssums⟩ := exists_sum haxis
    have hfl : (front ++ [k, n]).length = front.length + 2 := by simp
    rw [hfl] at hr hrsums
    refine ⟨s, ?_, ?_, ?_⟩
    · rw [length_cons, range_succ_eq_map, reverse_cons, foldlM_append,
        ← map_reverse, foldlM_map]
      have hround : (fun (result : Tensor R) (i : ℕ) =>
          result.sum ((front.length + 2 * i.succ : ℕ) : Int) false) =
          fun result i => result.sum ((front.length + 2 + 2 * i : ℕ) : Int) false := by
        funext result i
        congr 2
        omega
      rw [hround, hr]
      simpa using hs
    · rw [hsshape, hrshape, append_assoc,
        eraseIdx_append_of_length_le (le_refl _), Nat.sub_self]
      rfl
    · refine (hrsums.trans hssums fun c hc => ?_).congr fun c hc => ?_
      · obtain ⟨p, a, b, l, rfl, hp, hpf, hb, hl, ha⟩ := exists_of_within_append (hshape ▸ hc)
        rw [hrshape, ← hp, (take_drop_two p a b l).1, (take_drop_two p a b l).2]
        refine rel_append (rel_append hpf ?_) (within_dropEven hlen' hl)
        exact within_cons.mpr ⟨ha, within_cons.mpr ⟨hb, within_nil⟩⟩
      · obtain ⟨p, a, b, l, rfl, hp, -⟩ := exists_of_within_append (hshape ▸ hc)
        rw [← hp, (take_drop_two p a b l).1, (take_drop_two p a b l).2, append_assoc,
          eraseIdx_append_of_length_le le_rfl, Nat.sub_self, take_left,
          drop_left]
        rfl

/-- The backward of a repeat adds up along the indices inside the copies. -/
theorem exists_tileBack {inputShape : List Int} {rank : ℕ}
    (hrank : rank = max repeats.length inputShape.length) (hshape : ∀ n ∈ inputShape, 0 ≤ n)
    (hrepeats : ∀ r ∈ repeats, 0 ≤ r)
    (hg : g.shape = tileShape (padFront rank inputShape) (padFront rank repeats)) :
    ∃ a b r, g.reshape (interleave (padFront rank repeats) (padFront rank inputShape)) = .ok a ∧
      (List.range rank).reverse.foldlM
        (fun result (i : ℕ) => result.sum (2 * i) false) a = .ok b ∧
      b.reshape inputShape = .ok r ∧ r.shape = inputShape ∧
      Sums g r fun c =>
        (tileIndex (padFront rank inputShape) c).drop (rank - inputShape.length) := by
  have hl : (padFront rank inputShape).length = rank := padFront_length (by omega)
  have hrl : (padFront rank repeats).length = rank := padFront_length (by omega)
  have hlen : (padFront rank repeats).length = (padFront rank inputShape).length := hrl.trans hl.symm
  have hnn : ∀ n ∈ padFront rank inputShape, 0 ≤ n := nonneg_padFront hshape
  have hprod : (interleave (padFront rank repeats) (padFront rank inputShape)).prod =
      g.shape.prod := by
    rw [prod_interleave hlen, hg]
  have hinn := nonneg_interleave hlen (nonneg_padFront hrepeats) hnn
  obtain ⟨a, ha, hashape, hasums⟩ := exists_reshape_sums (t := g) hinn hprod
  obtain ⟨b, hb, hbshape, hbsums⟩ := exists_sumEven hlen [] (t := a) hashape
  obtain ⟨r, hr, hrshape, hrsums⟩ := exists_reshape_sums (t := b) hshape (by
    rw [hbshape, padFront]
    simp)
  refine ⟨a, b, r, ha, ?_, hr, hrshape, ?_⟩
  · rw [hrl] at hb
    simpa using hb
  · have hmoved : ∀ c, Within c g.shape → Within
        (moved (interleave (padFront rank repeats) (padFront rank inputShape)) g.shape c)
        a.shape := by
      intro c hc
      rw [hashape]
      exact (reshape_spec hinn hprod.symm hc).1
    have hdrop : ∀ c, Within c g.shape → Within (dropEven
        (moved (interleave (padFront rank repeats) (padFront rank inputShape)) g.shape c))
        b.shape := by
      intro c hc
      rw [hbshape]
      exact within_dropEven hlen (hashape ▸ hmoved c hc)
    refine ((hasums.trans hbsums hmoved).trans hrsums hdrop).congr fun c hc => ?_
    rw [hg] at hc
    have hw := within_tileIndex hlen hnn hc
    rw [hbshape, hg]
    simp only [length_nil, take_zero, drop_zero, nil_append]
    rw [dropEven_moved hlen hc]
    exact moved_padFront _ hw

end Tensor

end Tenzor.ShapeOps
