import Mathlib.Data.Nat.Nth
import Tenzor.Ops.Stored

/-!
# Moving axes

The permutation of `movedim` is made in two passes: each listed axis is placed at its destination,
and the other positions are filled, in order, with the axes that are not listed.
-/

namespace Tenzor.ShapeOps

open Strided Throwing List

variable {R : Type}

namespace Stored

/-- The first axis from here on that is not listed. -/
def skipUsed (source : List ℕ) (ndim srcIdx : ℕ) : ℕ :=
  if srcIdx < ndim ∧ srcIdx ∈ source then skipUsed source ndim (srcIdx + 1) else srcIdx
termination_by ndim - srcIdx

/-- The first pass. -/
def placed (ndim : ℕ) (source destination : List ℕ) : List Int :=
  (destination.zip source).foldl (fun perm p => perm.set p.1 (p.2 : Int)) (List.replicate ndim (-1))

/-- One position of the second pass. -/
def fillStep (ndim : ℕ) (source destination : List ℕ) (acc : List Int × ℕ) (i : ℕ) :
    List Int × ℕ :=
  if i ∈ destination then acc
  else
    let srcIdx := skipUsed source ndim acc.2
    (acc.1.set i srcIdx, srcIdx + 1)

def movedimPerm (ndim : ℕ) (source destination : List ℕ) : List Int :=
  ((List.range ndim).foldl (fillStep ndim source destination)
    (placed ndim source destination, 0)).1

def movedim (t : Stored R) (source destination : List Int) : Except Exn (Stored R) := do
  throwIf (source.length ≠ destination.length)
    (.invalidArgument "movedim: source and destination must have the same length")
  let source := source.map (normalizeDim · t.ndim)
  let destination := destination.map (normalizeDim · t.ndim)
  throwIf (∃ s ∈ source, s < 0 ∨ t.ndim ≤ s)
    (.invalidArgument s!"movedim: source dim out of range [0, {t.ndim})")
  throwIf (∃ d ∈ destination, d < 0 ∨ t.ndim ≤ d)
    (.invalidArgument s!"movedim: destination dim out of range [0, {t.ndim})")
  t.permute (movedimPerm t.shape.length (source.map Int.toNat) (destination.map Int.toNat))

end Stored

open Stored

/-- The axis that is listed last for a destination. -/
def lastSource (source destination : List ℕ) (d : ℕ) : ℕ :=
  ((destination.zip source).reverse.lookup d).getD 0

/-- The axis at each position: the last one listed for it, or the next that is not listed. -/
noncomputable def axisAt (source destination : List ℕ) (i : ℕ) : ℕ :=
  if i ∈ destination then lastSource source destination i
  else Nat.nth (· ∉ source) (Nat.count (· ∉ destination) i)

section Fill

variable {ndim : ℕ} {source destination : List ℕ} {k d i : ℕ} {ps : List (ℕ × ℕ)}

theorem infinite_unlisted (l : List ℕ) : (Set.ofPred (· ∉ l)).Infinite := by
  have hfinite : {k | k ∈ l}.Finite := l.finite_toSet
  exact hfinite.infinite_compl

theorem skipUsed_eq (hsource : ∀ s ∈ source, s < ndim) (srcIdx : ℕ) :
    skipUsed source ndim srcIdx = Nat.nth (· ∉ source) (Nat.count (· ∉ source) srcIdx) := by
  fun_induction skipUsed source ndim srcIdx with
  | case1 srcIdx hused ih =>
    rw [ih, Nat.count_succ, if_neg (not_not.mpr hused.2), Nat.add_zero]
  | case2 srcIdx hstop =>
    have hfree : srcIdx ∉ source := fun hmem => hstop ⟨hsource srcIdx hmem, hmem⟩
    exact (Nat.nth_count hfree).symm

theorem length_foldl_set_cast (ps : List (ℕ × ℕ)) (l : List Int) :
    (ps.foldl (fun l p => l.set p.1 (p.2 : Int)) l).length = l.length := by
  induction ps generalizing l with
  | nil => rfl
  | cons p ps ih => rw [foldl_cons, ih, length_set]

/-- A position holds what was set there last. -/
theorem getD_foldl_set_last (ps : List (ℕ × ℕ)) {l : List Int} (hk : k < l.length) :
    (ps.foldl (fun l p => l.set p.1 (p.2 : Int)) l).getD k 0 =
      ((ps.reverse.lookup k).map Nat.cast).getD (l.getD k 0) := by
  induction ps using List.reverseRecOn with
  | nil => rfl
  | append_singleton ps p ih =>
    have hlen := length_foldl_set_cast ps l
    rw [foldl_append, reverse_append, foldl_cons, reverse_singleton, singleton_append, lookup_cons]
    by_cases hp : k = p.1
    · subst hp
      simp [hlen ▸ hk]
    · have hbeq : (k == p.1) = false := beq_eq_false_iff_ne.mpr hp
      rw [hbeq, ← ih]
      simp [getD_eq_getElem?_getD, getElem?_set_ne (Ne.symm hp)]

theorem lookup_isSome_iff : (ps.lookup k).isSome = true ↔ k ∈ ps.map Prod.fst := by
  induction ps with
  | nil => simp
  | cons p ps ih =>
    by_cases hp : k = p.1
    · simp [hp]
    · simp [hp]

theorem mem_of_lookup {v : ℕ} (h : ps.lookup k = some v) : (k, v) ∈ ps := by
  induction ps with
  | nil => simp at h
  | cons p ps ih =>
    rw [lookup_cons] at h
    by_cases hp : k = p.1
    · subst hp
      simp only [beq_self_eq_true, Option.some.injEq] at h
      simp [← h]
    · have hbeq : (k == p.1) = false := beq_eq_false_iff_ne.mpr hp
      rw [hbeq] at h
      exact mem_cons_of_mem p (ih h)

variable (hlen : source.length = destination.length)

include hlen

/-- A listed destination has been given a source. -/
theorem exists_lastSource (hd : d ∈ destination) :
    (destination.zip source).reverse.lookup d = some (lastSource source destination d) := by
  have hsome : ((destination.zip source).reverse.lookup d).isSome = true := by
    rw [lookup_isSome_iff, map_reverse, mem_reverse, map_fst_zip hlen.ge]
    exact hd
  obtain ⟨s, hs⟩ := Option.isSome_iff_exists.mp hsome
  rw [lastSource, hs, Option.getD_some]

theorem lastSource_mem (hd : d ∈ destination) : lastSource source destination d ∈ source := by
  have hmem := mem_of_lookup (exists_lastSource hlen hd)
  exact (of_mem_zip (mem_reverse.mp hmem)).2

/-- Without repeated destinations each gets the axis listed beside it. -/
theorem lastSource_getElem (hnodup : destination.Nodup) (hs : i < source.length)
    (hd : i < destination.length) : lastSource source destination destination[i] = source[i] := by
  have hmem := mem_of_lookup (exists_lastSource hlen (getElem_mem hd))
  obtain ⟨j, hj, hpair⟩ := mem_iff_getElem.mp (mem_reverse.mp hmem)
  rw [getElem_zip, Prod.mk.injEq] at hpair
  obtain ⟨hfst, hsnd⟩ := hpair
  have hij : j = i := (Nodup.getElem_inj_iff hnodup).mp hfst
  subst hij
  exact hsnd.symm

theorem fill_range (hsource : ∀ s ∈ source, s < ndim) {m : ℕ} (hm : m ≤ ndim) :
    let acc := (List.range m).foldl (fillStep ndim source destination)
      (placed ndim source destination, 0)
    acc.1.length = ndim ∧
      Nat.count (· ∉ source) acc.2 = Nat.count (· ∉ destination) m ∧
      ∀ i < ndim, i ∈ destination ∨ i < m →
        acc.1.getD i 0 = (axisAt source destination i : Int) := by
  induction m with
  | zero =>
    have hfirst : (placed ndim source destination).length = ndim := by
      rw [placed, length_foldl_set_cast, length_replicate]
    refine ⟨hfirst, by simp, fun i hi hplaced => ?_⟩
    have hdest : i ∈ destination := hplaced.resolve_right (Nat.not_lt_zero i)
    rw [range_zero, foldl_nil, placed, getD_foldl_set_last _ (by simpa using hi), exists_lastSource hlen hdest, axisAt,
      if_pos hdest, Option.map_some, Option.getD_some]
  | succ m ih =>
    obtain ⟨hlength, hcount, hread⟩ := ih (Nat.le_of_succ_le hm)
    rw [range_succ, foldl_append, foldl_cons, foldl_nil]
    generalize (List.range m).foldl (fillStep ndim source destination)
      (placed ndim source destination, 0) = acc at hlength hcount hread ⊢
    by_cases hmem : m ∈ destination
    · rw [fillStep, if_pos hmem, Nat.count_succ, if_neg (not_not.mpr hmem)]
      refine ⟨hlength, hcount, fun i hi hplaced => hread i hi ?_⟩
      obtain hdest | hlt := hplaced
      · exact .inl hdest
      · obtain hlt | rfl := Nat.lt_succ_iff_lt_or_eq.mp hlt
        · exact .inr hlt
        · exact .inl hmem
    · have hskip : skipUsed source ndim acc.2 = axisAt source destination m := by
        rw [skipUsed_eq hsource, hcount, axisAt, if_neg hmem]
      have hfree : axisAt source destination m ∉ source := by
        rw [axisAt, if_neg hmem]
        exact Nat.nth_mem_of_infinite (infinite_unlisted source) _
      have hnext : Nat.count (· ∉ source) (axisAt source destination m) =
          Nat.count (· ∉ destination) m := by
        rw [axisAt, if_neg hmem, Nat.count_nth_of_infinite (infinite_unlisted source)]
      rw [fillStep, if_neg hmem, hskip]
      refine ⟨by simp [hlength], ?_, fun i hi hplaced => ?_⟩
      · rw [Nat.count_succ, Nat.count_succ, if_pos hfree, if_pos hmem, hnext]
      · rw [getD_set _ _ _ _ _ (by omega)]
        split
        next heq => rw [heq]
        next hne =>
          refine hread i hi (hplaced.imp_right fun hlt => ?_)
          omega

/-- The permutation that `movedim` makes, read position by position. -/
theorem movedimPerm_eq (hsource : ∀ s ∈ source, s < ndim) :
    movedimPerm ndim source destination =
      (List.range ndim).map fun i => (axisAt source destination i : Int) := by
  obtain ⟨hlength, -, hread⟩ := fill_range hlen hsource (Nat.le_refl ndim)
  apply Reindexing.ext_getD
  · rw [movedimPerm, hlength, length_map, length_range]
  · intro i hi
    rw [movedimPerm, hlength] at hi
    rw [movedimPerm, hread i hi (.inr hi)]
    simp [getD_eq_getElem?_getD, hi]

omit hlen in
theorem axisAt_notMem (hi : i ∉ destination) : axisAt source destination i ∉ source := by
  rw [axisAt, if_neg hi]
  exact Nat.nth_mem_of_infinite (infinite_unlisted source) _

theorem axisAt_mem_iff : axisAt source destination i ∈ source ↔ i ∈ destination := by
  constructor
  · intro hmem
    by_contra hi
    exact axisAt_notMem hi hmem
  · intro hi
    rw [axisAt, if_pos hi]
    exact lastSource_mem hlen hi

omit hlen in
/-- The axes that are not listed keep their order. -/
theorem axisAt_lt {j : ℕ} (hi : i ∉ destination) (hj : j ∉ destination) (hij : i < j) :
    axisAt source destination i < axisAt source destination j := by
  rw [axisAt, axisAt, if_neg hi, if_neg hj]
  exact Nat.nth_strictMono (infinite_unlisted source) (Nat.count_strict_mono hi hij)

/-- Each listed axis is the last one that is listed for exactly one destination. -/
def PlacedOnce (source destination : List ℕ) : Prop :=
  Set.BijOn (lastSource source destination) {d | d ∈ destination} {s | s ∈ source}

omit hlen in
theorem count_notMem {l : List ℕ} (hl : ∀ a ∈ l, a < ndim) :
    Nat.count (· ∉ l) ndim + l.toFinset.card = ndim := by
  have hsub : l.toFinset ⊆ Finset.range ndim := by
    intro a ha
    exact Finset.mem_range.mpr (hl a (mem_toFinset.mp ha))
  have hfilter : (Finset.range ndim).filter (· ∉ l) = Finset.range ndim \ l.toFinset := by
    ext a
    simp
  have hcard := Finset.card_sdiff_add_card_eq_card hsub
  rw [Nat.count_eq_card_filter_range, hfilter, hcard, Finset.card_range]

/-- As many positions are left as axes. -/
theorem count_eq_of_placedOnce (hsource : ∀ s ∈ source, s < ndim)
    (hdestination : ∀ d ∈ destination, d < ndim) (hplaced : PlacedOnce source destination) :
    Nat.count (· ∉ source) ndim = Nat.count (· ∉ destination) ndim := by
  have hcard : destination.toFinset.card = source.toFinset.card := by
    apply Finset.card_nbij (lastSource source destination)
    · intro d hd
      exact mem_toFinset.mpr (lastSource_mem hlen (mem_toFinset.mp hd))
    · intro d hd d' hd' heq
      exact hplaced.injOn (by simpa using hd) (by simpa using hd') heq
    · intro s hs
      obtain ⟨d, hd, heq⟩ := hplaced.surjOn (show s ∈ {s | s ∈ source} by simpa using hs)
      exact ⟨d, by simpa using hd, heq⟩
  have hs := count_notMem hsource
  have hd := count_notMem hdestination
  omega

theorem axisAt_lt_ndim (hsource : ∀ s ∈ source, s < ndim)
    (hdestination : ∀ d ∈ destination, d < ndim) (hplaced : PlacedOnce source destination)
    (hi : i < ndim) : axisAt source destination i < ndim := by
  by_cases hmem : i ∈ destination
  · exact hsource _ ((axisAt_mem_iff hlen).mpr hmem)
  · rw [axisAt, if_neg hmem]
    apply Nat.nth_lt_of_lt_count
    rw [count_eq_of_placedOnce hlen hsource hdestination hplaced]
    exact Nat.count_strict_mono hmem hi

theorem axisAt_injective (hplaced : PlacedOnce source destination) :
    Function.Injective (axisAt source destination) := by
  intro i j heq
  have hsame : i ∈ destination ↔ j ∈ destination := by
    rw [← axisAt_mem_iff hlen, ← axisAt_mem_iff hlen, heq]
  by_cases hi : i ∈ destination
  · have hj := hsame.mp hi
    rw [axisAt, axisAt, if_pos hi, if_pos hj] at heq
    exact hplaced.injOn hi hj heq
  · have hj : j ∉ destination := fun hj => hi (hsame.mpr hj)
    obtain hlt | rfl | hlt := lt_trichotomy i j
    · exact absurd heq (axisAt_lt hi hj hlt).ne
    · rfl
    · exact absurd heq.symm (axisAt_lt hj hi hlt).ne

/-- A permutation made so places each listed axis once. -/
theorem placedOnce_of_perm (hsource : ∀ s ∈ source, s < ndim)
    (hdestination : ∀ d ∈ destination, d < ndim)
    (hperm : ((List.range ndim).map (axisAt source destination)).Perm (List.range ndim)) :
    PlacedOnce source destination := by
  have hnodup := hperm.nodup_iff.mpr nodup_range
  have hinj := inj_on_of_nodup_map hnodup
  refine ⟨fun d hd => lastSource_mem hlen hd, fun d hd d' hd' heq => ?_, fun s hs => ?_⟩
  · apply hinj (mem_range.mpr (hdestination d hd)) (mem_range.mpr (hdestination d' hd'))
    rw [axisAt, axisAt, if_pos (Set.mem_ofPred.mp hd), if_pos (Set.mem_ofPred.mp hd')]
    exact heq
  · have hmem : s ∈ (List.range ndim).map (axisAt source destination) :=
      hperm.mem_iff.mpr (mem_range.mpr (hsource s hs))
    obtain ⟨i, -, rfl⟩ := mem_map.mp hmem
    have hi : i ∈ destination := (axisAt_mem_iff hlen).mp hs
    refine ⟨i, hi, ?_⟩
    rw [axisAt, if_pos hi]

/-- Lists without repetitions place each axis once. -/
theorem placedOnce_of_nodup (hs : source.Nodup) (hd : destination.Nodup) :
    PlacedOnce source destination := by
  refine ⟨fun d hmem => lastSource_mem hlen hmem, fun d hmem d' hmem' heq => ?_, fun s hmem => ?_⟩
  · obtain ⟨i, hi, rfl⟩ := mem_iff_getElem.mp hmem
    obtain ⟨j, hj, rfl⟩ := mem_iff_getElem.mp hmem'
    rw [lastSource_getElem hlen hd (hlen ▸ hi) hi, lastSource_getElem hlen hd (hlen ▸ hj) hj] at heq
    have hij : i = j := (Nodup.getElem_inj_iff hs).mp heq
    subst hij
    rfl
  · obtain ⟨i, hi, rfl⟩ := mem_iff_getElem.mp hmem
    have hi' : i < destination.length := hlen ▸ hi
    exact ⟨destination[i], getElem_mem hi', lastSource_getElem hlen hd hi hi'⟩

end Fill

variable {t : Stored R} {source destination : List Int} {dims : List Int}

/-- The axes that a list of dimensions names. -/
def namedAxes (t : Stored R) (dims : List Int) : List ℕ :=
  dims.map fun d => (normalizeDim d t.ndim).toNat

/-- Every dimension names an axis. -/
def InRange (t : Stored R) (dims : List Int) : Prop :=
  ∀ d ∈ dims, 0 ≤ normalizeDim d t.ndim ∧ normalizeDim d t.ndim < t.ndim

theorem InRange.lt (h : InRange t dims) : ∀ a ∈ namedAxes t dims, a < t.shape.length := by
  intro a ha
  obtain ⟨d, hd, rfl⟩ := mem_map.mp ha
  have hrange := h d hd
  rw [ndim_eq] at hrange ⊢
  omega

theorem inRange_iff : InRange t dims ↔
    ¬ ∃ d ∈ dims.map (normalizeDim · t.ndim), d < 0 ∨ t.ndim ≤ d := by
  simp only [InRange, mem_map, exists_exists_and_eq_and, not_exists, not_and, not_or, not_lt,
    not_le]

theorem namedAxes_eq (t : Stored R) (dims : List Int) :
    (dims.map (normalizeDim · t.ndim)).map Int.toNat = namedAxes t dims := by
  rw [map_map]
  rfl

/-- Past its checks `movedim` permutes by the axes at the positions. -/
theorem movedim_eq (hlen : source.length = destination.length) (hsource : InRange t source)
    (hdestination : InRange t destination) :
    t.movedim source destination = t.permute ((List.range t.shape.length).map fun i =>
      (axisAt (namedAxes t source) (namedAxes t destination) i : Int)) := by
  have hnamed : (namedAxes t source).length = (namedAxes t destination).length := by
    simp [namedAxes, hlen]
  rw [movedim, throwIf_of_not (not_not.mpr hlen)]
  simp only [throwIf_of_not (inRange_iff.mp hsource), throwIf_of_not (inRange_iff.mp hdestination),
    namedAxes_eq, movedimPerm_eq hnamed hsource.lt]
  rfl

theorem eq_of_map_normalizeDim {f : ℕ → ℕ} {l pos : List ℕ} {n : Int}
    (h : (l.map fun i => (f i : Int)).map (normalizeDim · n) = pos.map Int.ofNat) :
    l.map f = pos := by
  have hid (k : ℕ) : normalizeDim (k : Int) n = k := if_neg (Int.not_lt.mpr (Int.natCast_nonneg k))
  have hcast := congrArg (List.map Int.toNat) h
  simpa [Function.comp_def, hid] using hcast

/-- `movedim` returns exactly when every axis it is given is placed once. -/
theorem movedim_returns_iff : (∃ y, t.movedim source destination = .ok y) ↔
    source.length = destination.length ∧ InRange t source ∧ InRange t destination ∧
      PlacedOnce (namedAxes t source) (namedAxes t destination) := by
  constructor
  · rintro ⟨y, hy⟩
    have hchecks := hy
    simp only [movedim, bind_eq_ok, throwIf_eq_ok] at hchecks
    obtain ⟨-, hlen, -, hs, -, hd, -⟩ := hchecks
    have hlen := not_not.mp hlen
    have hs := inRange_iff.mpr hs
    have hd := inRange_iff.mpr hd
    have hnamed : (namedAxes t source).length = (namedAxes t destination).length := by
      simp [namedAxes, hlen]
    refine ⟨hlen, hs, hd, ?_⟩
    rw [movedim_eq hlen hs hd] at hy
    obtain ⟨pos, hperm, hsize, hdims, -, -⟩ := Tensor.permute_ok (permute_eq_ok.mp hy).1
    have hpos := eq_of_map_normalizeDim hdims
    apply placedOnce_of_perm hnamed hs.lt hd.lt
    rw [hpos, ← hsize]
    exact hperm
  · rintro ⟨hlen, hs, hd, hplaced⟩
    have hnamed : (namedAxes t source).length = (namedAxes t destination).length := by
      simp [namedAxes, hlen]
    rw [movedim_eq hlen hs hd]
    apply exists_permute
    apply Tensor.exists_permute
    · simp
    · intro d hmem
      obtain ⟨i, hi, rfl⟩ := mem_map.mp hmem
      have hlt := axisAt_lt_ndim hnamed hs.lt hd.lt hplaced (mem_range.mp hi)
      exact ⟨Int.natCast_nonneg _, Int.ofNat_lt.mpr hlt⟩
    · apply Nodup.map _ nodup_range
      exact Nat.cast_injective.comp (axisAt_injective hnamed hplaced)

/-- What moving axes asks of the permutation: each axis of `source` stands where `destination` says,
and the others keep their order. -/
structure MovesAxes (source destination pos : List ℕ) : Prop where
  placed : ∀ i < source.length, pos.getD (destination.getD i 0) 0 = source.getD i 0
  order : (pos.filter (· ∉ source)).Pairwise (· < ·)

theorem movesAxes_axisAt {ndim : ℕ} {source destination : List ℕ}
    (hlen : source.length = destination.length) (hdestination : ∀ d ∈ destination, d < ndim)
    (hd : destination.Nodup) :
    MovesAxes source destination ((List.range ndim).map (axisAt source destination)) := by
  constructor
  · intro i hi
    have hi' : i < destination.length := hlen ▸ hi
    have hlt := hdestination destination[i] (getElem_mem hi')
    have hread := lastSource_getElem hlen hd hi hi'
    simp [getD_eq_getElem?_getD, hi, hi', hlt, axisAt, hread]
  · rw [pairwise_filter, pairwise_map]
    apply pairwise_lt_range.imp
    intro i j hij hi hj
    have hi' : i ∉ destination := fun hmem => by simp [axisAt_mem_iff hlen, hmem] at hi
    have hj' : j ∉ destination := fun hmem => by simp [axisAt_mem_iff hlen, hmem] at hj
    exact axisAt_lt hi' hj' hij

/-- `movedim` throws exactly on bad lists, and otherwise moves the axes. -/
structure MovesExactly (t : Stored R) (source destination : List Int) : Prop where
  throws : (¬ ∃ y, t.movedim source destination = .ok y) ↔
    source.length ≠ destination.length ∨ ¬ InRange t source ∨ ¬ InRange t destination ∨
      ¬ (namedAxes t source).Nodup ∨ ¬ (namedAxes t destination).Nodup
  moves : ∀ y, t.movedim source destination = .ok y →
    ∃ pos : List ℕ, pos.Perm (List.range t.shape.length) ∧
      y.shape = Strided.gather pos t.shape ∧ Reads t.elements y.elements (Strided.scatter pos) ∧
      y.handle = t.handle.permute (pos.map Int.ofNat) ∧
      MovesAxes (namedAxes t source) (namedAxes t destination) pos

/-- Lists with a repetition that the permutation does not show. -/
def RepeatsUnseen (t : Stored R) (source destination : List Int) : Prop :=
  source.length = destination.length ∧ InRange t source ∧ InRange t destination ∧
    PlacedOnce (namedAxes t source) (namedAxes t destination) ∧
    ¬ ((namedAxes t source).Nodup ∧ (namedAxes t destination).Nodup)

theorem movesExactly_iff : MovesExactly t source destination ↔ ¬ RepeatsUnseen t source destination := by
  constructor
  · rintro ⟨hthrows, -⟩ ⟨hlen, hs, hd, hplaced, hrepeats⟩
    have hreturns := movedim_returns_iff.mpr ⟨hlen, hs, hd, hplaced⟩
    apply hthrows.mpr _ hreturns
    exact .inr (.inr (.inr (not_and_or.mp hrepeats)))
  · intro hseen
    constructor
    · rw [movedim_returns_iff]
      constructor
      · intro hnot
        by_contra hgood
        simp only [not_or, not_not, ne_eq] at hgood
        obtain ⟨hlen, hs, hd, hsn, hdn⟩ := hgood
        have hnamed : (namedAxes t source).length = (namedAxes t destination).length := by
          simp [namedAxes, hlen]
        exact hnot ⟨hlen, hs, hd, placedOnce_of_nodup hnamed hsn hdn⟩
      · rintro hbad ⟨hlen, hs, hd, hplaced⟩
        simp only [hlen, hs, hd, ne_eq, not_true_eq_false, false_or] at hbad
        exact hseen ⟨hlen, hs, hd, hplaced, not_and_or.mpr hbad⟩
    · intro y hy
      obtain ⟨hlen, hs, hd, hplaced⟩ := movedim_returns_iff.mp ⟨y, hy⟩
      have hnamed : (namedAxes t source).length = (namedAxes t destination).length := by
        simp [namedAxes, hlen]
      have hnodup : (namedAxes t destination).Nodup := by
        by_contra hrepeats
        exact hseen ⟨hlen, hs, hd, hplaced, fun h => hrepeats h.2⟩
      rw [movedim_eq hlen hs hd] at hy
      obtain ⟨hy, hhandle⟩ := permute_eq_ok.mp hy
      obtain ⟨pos, hperm, hsize, hdims, hshape, hreads⟩ := Tensor.permute_ok hy
      have hpos := eq_of_map_normalizeDim hdims
      refine ⟨pos, hsize ▸ hperm, hshape, hreads, ?_, ?_⟩
      · rw [hhandle]
        exact congrArg t.handle.permute hdims
      · rw [← hpos]
        exact movesAxes_axisAt hnamed hd.lt hnodup

end Tenzor.ShapeOps
