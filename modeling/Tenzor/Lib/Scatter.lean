import Mathlib

/-!
# Sums by position

Values that are scattered to positions, with a sum where positions meet; runs of equal keys;
and pointer arrays that hold where the entries of each row start.

## Implementation notes

`sumAt p entries` is what a list of entries leaves at a position. Everything that moves or
merges entries is compared through it.
-/

namespace Scatter

open List

variable {κ β α : Type} {γ : Type} {mask : List Bool} {xs : List β} {key : β → κ} {prev : κ} {n : ℕ}
  {ptr : List Int}

/-! ## Sums at a position -/

section SumAt

variable [DecidableEq κ] [AddCommMonoid α] {es : List (κ × α)} {p : κ} {ι : Type} {xs : List ι}
  {f : ι → List (κ × α)}

/-- The sum of the values at a position. -/
def sumAt (p : κ) : List (κ × α) → α
  | [] => 0
  | e :: entries => (if e.1 = p then e.2 else 0) + sumAt p entries

theorem sumAt_append (p : κ) (es es' : List (κ × α)) :
    sumAt p (es ++ es') = sumAt p es + sumAt p es' := by
  induction es with
  | nil => exact (zero_add _).symm
  | cons e es ih => rw [cons_append, sumAt, sumAt, ih, add_assoc]

/-- The order of the entries plays no part. -/
theorem sumAt_perm (p : κ) {es' : List (κ × α)} (h : es.Perm es') : sumAt p es = sumAt p es' := by
  induction h with
  | nil => rfl
  | cons e _ ih => rw [sumAt, sumAt, ih]
  | swap e e' es => exact add_left_comm _ _ _
  | trans _ _ ih ih' => exact ih.trans ih'

theorem sumAt_eq_zero (h : ∀ e ∈ es, e.1 = p → e.2 = 0) : sumAt p es = 0 := by
  induction es with
  | nil => rfl
  | cons e es ih =>
    obtain ⟨he, hes⟩ := forall_mem_cons.mp h
    rw [sumAt, ih hes, add_zero]
    split
    next hp => exact he hp
    next => rfl

/-- Entries at positions that are named in another way. -/
theorem sumAt_map {κ' : Type} [DecidableEq κ'] {f : κ → κ'} {p' : κ'}
    (h : ∀ e ∈ es, f e.1 = p' ↔ e.1 = p) :
    sumAt p' (es.map fun e => (f e.1, e.2)) = sumAt p es := by
  induction es with
  | nil => rfl
  | cons e es ih =>
    obtain ⟨he, hes⟩ := forall_mem_cons.mp h
    rw [map_cons, sumAt, sumAt, ih hes]
    simp only [he]

/-- Entries that leave nothing at the position can be left out. -/
theorem sumAt_filter {c : κ × α → Bool} (h : ∀ e ∈ es, e.1 = p → c e = false → e.2 = 0) :
    sumAt p (es.filter c) = sumAt p es := by
  induction es with
  | nil => rfl
  | cons e es ih =>
    obtain ⟨he, hes⟩ := forall_mem_cons.mp h
    by_cases hc : c e = true
    · rw [filter_cons_of_pos hc, sumAt, sumAt, ih hes]
    · rw [filter_cons_of_neg hc, ih hes, sumAt]
      split
      next hp => rw [he hp (Bool.eq_false_iff.mpr hc), zero_add]
      next => exact (zero_add _).symm

/-- The graph of a function over distinct positions. -/
theorem sumAt_graph {ks : List κ} (h : ks.Nodup) {g : κ → α} (hp : p ∈ ks) :
    sumAt p (ks.map fun k => (k, g k)) = g p := by
  induction ks with
  | nil => exact absurd hp not_mem_nil
  | cons k ks ih =>
    obtain ⟨hk, hks⟩ := nodup_cons.mp h
    rw [map_cons, sumAt]
    rcases mem_cons.mp hp with rfl | hp
    · rw [if_pos rfl, sumAt_eq_zero, add_zero]
      intro e he heq
      obtain ⟨k', hk', rfl⟩ := mem_map.mp he
      exact absurd (heq ▸ hk') hk
    · have hne : k ≠ p := fun heq => hk (heq ▸ hp)
      rw [if_neg hne, zero_add, ih hks hp]

/-- A list with its positions holds each value at its position. -/
theorem sumAt_zipIdx (xs : List α) (n k : ℕ) :
    sumAt (n + k) ((xs.zipIdx n).map fun e => (e.2, e.1)) = xs.getD k 0 := by
  induction xs generalizing n k with
  | nil => rfl
  | cons x xs ih =>
    rw [zipIdx_cons, map_cons, sumAt]
    cases k with
    | zero =>
      rw [if_pos (Nat.add_zero n).symm, sumAt_eq_zero, add_zero]
      · rfl
      · intro e he heq
        obtain ⟨old, hold, rfl⟩ := mem_map.mp he
        have hle := (mem_zipIdx hold).1
        omega
    | succ k =>
      have hnext := ih (n + 1) k
      rw [Nat.add_right_comm, Nat.add_assoc] at hnext
      rw [if_neg (by simp), zero_add, hnext]
      rfl

/-- Parts of which one alone has entries at the position. -/
theorem sumAt_flatMap_of_unique (hnodup : xs.Nodup) {x : ι} (hx : x ∈ xs)
    (h : ∀ y, y ≠ x → sumAt p (f y) = 0) : sumAt p (xs.flatMap f) = sumAt p (f x) := by
  have hnone : ∀ ys : List ι, x ∉ ys → sumAt p (ys.flatMap f) = 0 := by
    intro ys hys
    induction ys with
    | nil => rfl
    | cons y ys ih =>
      rw [flatMap_cons, sumAt_append, h y fun heq => hys (heq ▸ mem_cons_self),
        ih fun hmem => hys (mem_cons_of_mem y hmem), add_zero]
  induction xs with
  | nil => exact absurd hx not_mem_nil
  | cons y xs ih =>
    obtain ⟨hy, hxs⟩ := nodup_cons.mp hnodup
    rw [flatMap_cons, sumAt_append]
    rcases mem_cons.mp hx with rfl | hmem
    · rw [hnone xs hy, add_zero]
    · rw [h y fun heq => hy (heq ▸ hmem), zero_add, ih hxs hmem]

/-- Parts that leave nothing at the position can be left out. -/
theorem sumAt_flatMap_filter {c : ι → Bool} (h : ∀ x ∈ xs, c x = false → sumAt p (f x) = 0) :
    sumAt p ((xs.filter c).flatMap f) = sumAt p (xs.flatMap f) := by
  induction xs with
  | nil => rfl
  | cons x xs ih =>
    obtain ⟨hx, hxs⟩ := forall_mem_cons.mp h
    by_cases hc : c x = true
    · rw [filter_cons_of_pos hc, flatMap_cons, flatMap_cons, sumAt_append,
        sumAt_append, ih hxs]
    · rw [filter_cons_of_neg hc, ih hxs, flatMap_cons, sumAt_append,
        hx (Bool.eq_false_iff.mpr hc), zero_add]

end SumAt

section Buffer

variable [AddCommMonoid α] {out : List α}

/-- Add the values at their positions. -/
def scatterAdd (out : List α) (src : List (ℕ × α)) : List α :=
  src.foldl (fun out e => out.modify e.1 (· + e.2)) out

@[simp] theorem length_scatterAdd (out : List α) (src : List (ℕ × α)) :
    (scatterAdd out src).length = out.length := by
  induction src generalizing out with
  | nil => rfl
  | cons e src ih => rw [scatterAdd, foldl_cons, ← scatterAdd, ih, length_modify]

/-- A position holds what it held and the sum of what came in. -/
theorem getD_scatterAdd {p : ℕ} (src : List (ℕ × α)) (h : p < out.length) :
    (scatterAdd out src).getD p 0 = out.getD p 0 + sumAt p src := by
  induction src generalizing out with
  | nil => exact (add_zero _).symm
  | cons e src ih =>
    have hstep : scatterAdd out (e :: src) = scatterAdd (out.modify e.1 (· + e.2)) src := rfl
    rw [hstep, ih (by rwa [length_modify]), sumAt, ← add_assoc]
    congr 1
    simp only [getD_eq_getElem?_getD, getElem?_modify, getElem?_eq_getElem h]
    split
    · rfl
    · exact (add_zero _).symm

/-- Summing what has been scattered is summing where each value goes. -/
theorem sumAt_zip_scatterAdd [DecidableEq κ] {names : List κ} {src : List (ℕ × α)}
    (hlen : names.length = out.length) (hsrc : ∀ e ∈ src, e.1 < out.length) (p : κ) :
    sumAt p (names.zip (scatterAdd out src)) = sumAt p (names.zip out) +
      sumAt (some p) (src.map fun e => (names[e.1]?, e.2)) := by
  have hone : ∀ {names : List κ} {out : List α}, names.length = out.length → ∀ {i : ℕ} (v : α),
      i < out.length → sumAt p (names.zip (out.modify i (· + v))) =
        sumAt p (names.zip out) + if names[i]? = some p then v else 0 := by
    intro names
    induction names with
    | nil =>
      intro out hlen i v hi
      rw [← hlen] at hi
      exact absurd hi (Nat.not_lt_zero i)
    | cons k names ih =>
      intro out hlen i v hi
      cases out with
      | nil => exact absurd hi (Nat.not_lt_zero i)
      | cons a out =>
        cases i with
        | zero =>
          simp only [modify_zero_cons, zip_cons_cons, sumAt, getElem?_cons_zero,
            Option.some.injEq]
          split
          · exact add_right_comm _ _ _
          · rw [add_zero]
        | succ i =>
          simp only [modify_succ_cons, zip_cons_cons, sumAt,
            getElem?_cons_succ]
          rw [ih (Nat.succ.inj hlen) v (Nat.lt_of_succ_lt_succ hi), add_assoc]
  induction src generalizing out with
  | nil => exact (add_zero _).symm
  | cons e src ih =>
    obtain ⟨he, hsrc⟩ := forall_mem_cons.mp hsrc
    have hstep : scatterAdd out (e :: src) = scatterAdd (out.modify e.1 (· + e.2)) src := rfl
    rw [hstep, ih (by rwa [length_modify]) (by rwa [length_modify]), hone hlen e.2 he,
      map_cons, sumAt, add_assoc]

end Buffer

/-! ## Runs of equal keys -/

theorem pairwise_mergeSort_key [LinearOrder κ] (key : β → κ) (xs : List β) :
    (xs.mergeSort fun a b => key a ≤ key b).Pairwise fun a b => key a ≤ key b := by
  have h := @List.pairwise_mergeSort β (fun a b => decide (key a ≤ key b))
    (fun a b c hab hbc => decide_eq_true ((of_decide_eq_true hab).trans (of_decide_eq_true hbc)))
    (fun a b => by
      rw [Bool.or_eq_true, decide_eq_true_eq, decide_eq_true_eq]
      exact le_total (key a) (key b)) xs
  exact h.imp of_decide_eq_true

/-- Sorting by two keys, by what the first one says. -/
theorem pairwise_mergeSort_lex (key key' : β → Int) (xs : List β) :
    (xs.mergeSort fun a b => key a < key b || (key a = key b && key' a ≤ key' b)).Pairwise
      fun a b => key a ≤ key b := by
  have h := @List.pairwise_mergeSort β
    (fun a b => key a < key b || (key a = key b && key' a ≤ key' b))
    (fun a b c hab hbc => by simp at hab hbc ⊢; omega) (fun a b => by simp; omega) xs
  refine h.imp fun hle => ?_
  simp at hle
  omega

/-- Running sums, from a sum on. -/
def cumsumFrom [AddMonoid β] (sum : β) : List β → List β
  | [] => []
  | x :: xs => (sum + x) :: cumsumFrom (sum + x) xs

def isNewFrom [DecidableEq κ] (prev : κ) : List κ → List Bool
  | [] => []
  | k :: ks => (k ≠ prev) :: isNewFrom k ks

/-- The first of each run of equal keys. -/
def isNew [DecidableEq κ] : List κ → List Bool
  | [] => []
  | k :: ks => true :: isNewFrom k ks

/-- The number of the run that each position is in. -/
def groupIds (mask : List Bool) : List ℕ :=
  (cumsumFrom 0 (mask.map Bool.toNat)).map (· - 1)

/-- What stands where the runs start. -/
def starts (mask : List Bool) (xs : List β) : List β :=
  ((xs.zip mask).filter (·.2)).map Prod.fst

@[simp] theorem length_cumsumFrom [AddMonoid β] (sum : β) (xs : List β) :
    (cumsumFrom sum xs).length = xs.length := by
  induction xs generalizing sum with
  | nil => rfl
  | cons x xs ih => rw [cumsumFrom, length_cons, ih, length_cons]

@[simp] theorem length_isNewFrom [DecidableEq κ] (prev : κ) (ks : List κ) :
    (isNewFrom prev ks).length = ks.length := by
  induction ks generalizing prev with
  | nil => rfl
  | cons k ks ih => rw [isNewFrom, length_cons, ih, length_cons]

@[simp] theorem length_isNew [DecidableEq κ] (ks : List κ) : (isNew ks).length = ks.length := by
  cases ks with
  | nil => rfl
  | cons k ks => rw [isNew, length_cons, length_isNewFrom, length_cons]

theorem starts_cons (b : Bool) (mask : List Bool) (x : β) (xs : List β) :
    starts (b :: mask) (x :: xs) = (if b then [x] else []) ++ starts mask xs := by
  cases b <;> rfl

theorem map_starts (f : β → γ) (mask : List Bool) (xs : List β) :
    (starts mask xs).map f = starts mask (xs.map f) := by
  induction mask generalizing xs with
  | nil => cases xs <;> rfl
  | cons b mask ih =>
    cases xs with
    | nil => rfl
    | cons x xs =>
      rw [map_cons, starts_cons, map_append, ih]
      cases b <;> rfl

theorem mem_of_mem_starts {x : β} (h : x ∈ starts mask xs) : x ∈ xs := by
  obtain ⟨e, he, rfl⟩ := mem_map.mp h
  exact (of_mem_zip (mem_of_mem_filter he)).1

/-- The starts of sorted keys are strictly sorted, behind the key before them. -/
theorem pairwise_startsFrom [LinearOrder κ] (hsorted : (xs.map key).Pairwise (· ≤ ·))
    (hprev : ∀ x ∈ xs, prev ≤ key x) :
    (∀ x ∈ starts (isNewFrom prev (xs.map key)) xs, prev < key x) ∧
      (starts (isNewFrom prev (xs.map key)) xs).Pairwise fun x y => key x < key y := by
  induction xs generalizing prev with
  | nil => exact ⟨fun _ h => absurd h not_mem_nil, Pairwise.nil⟩
  | cons x xs ih =>
    rw [map_cons, pairwise_cons] at hsorted
    obtain ⟨hx, hrest⟩ := hsorted
    obtain ⟨hlt, hpair⟩ := ih hrest fun y hy => hx _ (mem_map_of_mem hy)
    have hpx := hprev x mem_cons_self
    rw [map_cons, isNewFrom, starts_cons]
    by_cases hnew : key x ≠ prev
    · rw [if_pos (decide_eq_true hnew)]
      have hstrict : prev < key x := lt_of_le_of_ne hpx (Ne.symm hnew)
      refine ⟨fun y hy => ?_, pairwise_cons.mpr ⟨hlt, hpair⟩⟩
      rcases mem_cons.mp hy with rfl | hy
      · exact hstrict
      · exact hstrict.trans (hlt y hy)
    · rw [if_neg (by simpa using hnew)]
      rw [not_not] at hnew
      exact ⟨hnew ▸ hlt, hpair⟩

theorem pairwise_starts [LinearOrder κ] (hsorted : (xs.map key).Pairwise (· ≤ ·)) :
    (starts (isNew (xs.map key)) xs).Pairwise fun x y => key x < key y := by
  cases xs with
  | nil => exact Pairwise.nil
  | cons x xs =>
    rw [map_cons, pairwise_cons] at hsorted
    obtain ⟨hlt, hpair⟩ := pairwise_startsFrom hsorted.2 fun y hy =>
      hsorted.1 _ (mem_map_of_mem hy)
    exact pairwise_cons.mpr ⟨hlt, hpair⟩

theorem length_starts (h : mask.length = xs.length) :
    (starts mask xs).length = (mask.map Bool.toNat).sum := by
  induction mask generalizing xs with
  | nil => cases xs <;> rfl
  | cons b mask ih =>
    cases xs with
    | nil => cases h
    | cons x xs =>
      rw [starts_cons, length_append, ih (Nat.succ.inj h), map_cons]
      cases b <;> rfl

theorem getLastD_cumsumFrom [AddMonoid β] [DecidableEq β] (sum : β) (xs : List β) (d : β) :
    (cumsumFrom sum xs).getLastD d = if xs = [] then d else sum + xs.sum := by
  induction xs generalizing sum d with
  | nil => rfl
  | cons x xs ih =>
    rw [cumsumFrom, getLastD_cons, ih, if_neg (cons_ne_nil _ _), sum_cons]
    split
    next hnil => rw [hnil, sum_nil, add_zero]
    next => exact add_assoc _ _ _

/-- The last run is the number of runs, less one. -/
theorem length_starts_isNew [DecidableEq κ] {ks : List κ} (hne : ks ≠ []) (xs : List β)
    (hlen : ks.length = xs.length) :
    (starts (isNew ks) xs).length = (groupIds (isNew ks)).getLastD 0 + 1 := by
  rw [length_starts (by rw [length_isNew, hlen])]
  cases ks with
  | nil => exact absurd rfl hne
  | cons k ks =>
    have hlast : (groupIds (isNew (k :: ks))).getLastD 0 =
        (cumsumFrom 0 ((isNew (k :: ks)).map Bool.toNat)).getLastD 1 - 1 := by
      rw [groupIds, getLastD_eq_getLast?, getLastD_eq_getLast?, getLast?_map]
      cases (cumsumFrom 0 ((isNew (k :: ks)).map Bool.toNat)).getLast? <;> rfl
    rw [hlast, getLastD_cumsumFrom, if_neg (by simp [isNew])]
    simp only [isNew, map_cons, sum_cons, Bool.toNat_true]
    omega

/-- Every position is in the run whose start has its key. -/
theorem map_groupIdsFrom [DecidableEq κ] (ks done : List κ) (hlast : done.getLast? = some prev) :
    ((cumsumFrom done.length ((isNewFrom prev ks).map Bool.toNat)).map (· - 1)).map
      (fun i => (done ++ starts (isNewFrom prev ks) ks)[i]?) = ks.map some := by
  induction ks generalizing done prev with
  | nil => rfl
  | cons k ks ih =>
    have hpos : 0 < done.length := by
      rw [length_pos_iff]
      rintro rfl
      cases hlast
    rw [isNewFrom, map_cons, cumsumFrom, starts_cons]
    by_cases hnew : k ≠ prev
    · have hrest := ih (done ++ [k]) getLast?_concat
      rw [decide_eq_true hnew, if_pos rfl]
      simp only [length_append, length_singleton, append_assoc] at hrest
      simp only [map_cons, Bool.toNat_true, hrest]
      rw [Nat.add_sub_cancel, getElem?_append_right (Nat.le_refl _), Nat.sub_self]
      rfl
    · rw [not_not] at hnew
      subst hnew
      have hrest := ih done hlast
      rw [decide_eq_false (not_not.mpr rfl), if_neg Bool.false_ne_true, nil_append]
      simp only [map_cons, Bool.toNat_false, Nat.add_zero, hrest]
      rw [getElem?_append_left (Nat.sub_lt hpos Nat.one_pos), ← hlast,
        getLast?_eq_getElem?]

theorem map_groupIds [DecidableEq κ] (ks : List κ) :
    (groupIds (isNew ks)).map (fun i => (starts (isNew ks) ks)[i]?) = ks.map some := by
  cases ks with
  | nil => rfl
  | cons k ks =>
    have h := map_groupIdsFrom ks [k] rfl
    exact congrArg (some k :: ·) h

/-- Merging the runs of equal keys leaves the sum of every key. -/
theorem sumAt_runs [DecidableEq κ] [AddCommMonoid α] (ks : List κ) (vs : List α) (p : κ) :
    sumAt p ((starts (isNew ks) ks).zip (scatterAdd
      (List.replicate (starts (isNew ks) ks).length 0) ((groupIds (isNew ks)).zip vs))) =
      sumAt p (ks.zip vs) := by
  have hmap := map_groupIds ks
  have hids : (groupIds (isNew ks)).length = ks.length := by
    rw [groupIds, length_map, length_cumsumFrom, length_map, length_isNew]
  rw [sumAt_zip_scatterAdd (by rw [length_replicate]) ?_]
  · have hzero : sumAt p ((starts (isNew ks) ks).zip
        (List.replicate (starts (isNew ks) ks).length (0 : α))) = 0 :=
      sumAt_eq_zero fun e he _ => eq_of_mem_replicate (of_mem_zip he).2
    have hsrc : ((groupIds (isNew ks)).zip vs).map
        (fun e => ((starts (isNew ks) ks)[e.1]?, e.2)) =
          (ks.zip vs).map fun e => (some e.1, e.2) := by
      have h := congrArg (fun names => names.zip vs) hmap
      simp only [zip_map_left] at h
      exact h
    rw [hzero, zero_add, hsrc]
    exact sumAt_map fun e _ => Option.some_inj
  · intro e he
    obtain ⟨i, hi, hget⟩ := mem_iff_getElem.mp (of_mem_zip he).1
    have hi' : i < ks.length := hids ▸ hi
    have hsome := congrArg (fun l => l[i]?) hmap
    simp only [getElem?_map, getElem?_eq_getElem hi, Option.map_some] at hsome
    rw [getElem?_eq_getElem hi', Option.map_some, Option.some_inj] at hsome
    rw [length_replicate, ← hget]
    exact (List.getElem?_eq_some_iff.mp hsome).1

/-! ## Pointer arrays -/

/-- Where the rows start, from the number of entries of each. -/
def pointers (counts : List Int) : List Int := 0 :: cumsumFrom 0 counts

/-- The number of entries of each row, from where the rows start. -/
def lens (ptr : List Int) : List Int := List.zipWith (fun start stop => stop - start) ptr ptr.tail

/-- Every value as often as its count says. -/
def repeatInterleave (xs : List β) (counts : List Int) : List β :=
  (xs.zip counts).flatMap fun e => List.replicate e.2.toNat e.1

/-- How often each of the values below `n` occurs. -/
def countsBelow (n : ℕ) (xs : List Int) : List Int :=
  (List.range n).map fun i : ℕ => (xs.count (i : Int) : Int)

def upTo (n : ℕ) : List Int := (List.range n).map fun i : ℕ => (i : Int)

theorem getElem?_upTo {i : ℕ} (h : i < n) : (upTo n)[i]? = some (i : Int) := by
  rw [upTo, getElem?_map, getElem?_range h]
  rfl

theorem mem_upTo {i : Int} : i ∈ upTo n ↔ 0 ≤ i ∧ i < n := by
  simp only [upTo, mem_map, mem_range]
  constructor
  · omega
  · exact fun h => ⟨i.toNat, by omega, by omega⟩

theorem pairwise_upTo (n : ℕ) : (upTo n).Pairwise (· < ·) := by
  rw [upTo, pairwise_map]
  exact pairwise_lt_range.imp fun h => Int.ofNat_lt.mpr h

@[simp] theorem length_upTo (n : ℕ) : (upTo n).length = n := by
  rw [upTo, length_map, length_range]

theorem lens_pointers (counts : List Int) : lens (pointers counts) = counts := by
  have h : ∀ (sum : Int) (counts : List Int),
      List.zipWith (fun start stop => stop - start) (sum :: cumsumFrom sum counts)
        (cumsumFrom sum counts) = counts := by
    intro sum counts
    induction counts generalizing sum with
    | nil => rfl
    | cons c counts ih =>
      rw [cumsumFrom, zipWith_cons_cons, ih]
      congr 1
      omega
  exact h 0 counts

theorem pairwise_repeatInterleave {xs counts : List Int} (h : xs.Pairwise (· ≤ ·)) :
    (repeatInterleave xs counts).Pairwise (· ≤ ·) := by
  induction xs generalizing counts with
  | nil => exact Pairwise.nil
  | cons x xs ih =>
    cases counts with
    | nil => exact Pairwise.nil
    | cons c counts =>
      obtain ⟨hx, hxs⟩ := pairwise_cons.mp h
      refine pairwise_append.mpr ⟨pairwise_replicate.mpr (.inr (le_refl x)), ih hxs, ?_⟩
      intro a ha b hb
      obtain ⟨e, he, hb⟩ := mem_flatMap.mp hb
      rw [eq_of_mem_replicate ha, eq_of_mem_replicate hb]
      exact hx _ (of_mem_zip he).1

/-- Sorted rows are told by how often each of them occurs. -/
theorem repeatInterleave_countsBelow {xs : List Int} (hsorted : xs.Pairwise (· ≤ ·))
    (hbounds : ∀ x ∈ xs, 0 ≤ x ∧ x < n) : repeatInterleave (upTo n) (countsBelow n xs) = xs := by
  refine Perm.eq_of_pairwise (fun a b _ _ => le_antisymm)
    (pairwise_repeatInterleave ((pairwise_upTo n).imp le_of_lt)) hsorted (perm_iff_count.mpr fun a => ?_)
  rw [repeatInterleave, upTo, countsBelow, zip_map', flatMap_map, count_flatMap]
  have hcount : ∀ i : ℕ, List.count a (List.replicate (xs.count (i : Int)) (i : Int)) =
      if (i : Int) = a then xs.count a else 0 := by
    intro i
    rw [count_replicate]
    by_cases hia : (i : Int) = a
    · simp [hia]
    · simp [hia]
  simp only [Function.comp_def, Int.toNat_natCast, hcount]
  by_cases ha : a ∈ xs
  · obtain ⟨hlo, hhi⟩ := hbounds a ha
    obtain ⟨m, rfl⟩ := Int.eq_ofNat_of_zero_le hlo
    have honce : (List.range n).count m = 1 :=
      count_eq_one_of_mem nodup_range (mem_range.mpr (Int.ofNat_lt.mp hhi))
    rw [sum_map_eq_nsmul_single m _ fun i hi _ => if_neg fun h => hi (Int.ofNat_inj.mp h),
      honce, one_nsmul, if_pos rfl]
  · rw [count_eq_zero_of_not_mem ha]
    simp

/-- The pointers start at zero, never go back and end at the number of entries. -/
structure ValidPointers (ptr : List Int) (entries : ℕ) : Prop where
  nonDecreasing : ptr.Pairwise (· ≤ ·)
  first : ptr.head? = some 0
  last : ptr.getLast? = some (entries : Int)

/-- The row of every entry, by the pointers. -/
def rowsOf (ptr : List Int) : List Int := repeatInterleave (upTo (lens ptr).length) (lens ptr)

theorem length_lens (ptr : List Int) : (lens ptr).length = ptr.length - 1 := by
  rw [lens, length_zipWith, length_tail]
  omega

theorem lens_cons_cons (start stop : Int) (ptr : List Int) :
    lens (start :: stop :: ptr) = (stop - start) :: lens (stop :: ptr) := rfl

theorem lens_nonneg (h : ptr.Pairwise (· ≤ ·)) : ∀ c ∈ lens ptr, 0 ≤ c := by
  induction ptr with
  | nil => exact fun c hc => absurd hc not_mem_nil
  | cons start rest ih =>
    cases rest with
    | nil => exact fun c hc => absurd hc not_mem_nil
    | cons stop rest =>
      obtain ⟨hle, hrest⟩ := pairwise_cons.mp h
      exact forall_mem_cons.mpr
        ⟨Int.sub_nonneg_of_le (hle stop mem_cons_self), ih hrest⟩

theorem sum_lens {first last : Int} (hfirst : ptr.head? = some first)
    (hlast : ptr.getLast? = some last) : (lens ptr).sum = last - first := by
  induction ptr generalizing first with
  | nil => cases hfirst
  | cons start rest ih =>
    obtain rfl := Option.some.inj hfirst
    cases rest with
    | nil =>
      obtain rfl := Option.some.inj hlast
      exact (sub_self _).symm
    | cons stop rest =>
      rw [lens_cons_cons, sum_cons, ih rfl hlast]
      omega

theorem length_repeatInterleave {xs : List β} {counts : List Int}
    (hlen : xs.length = counts.length) (hnn : ∀ c ∈ counts, 0 ≤ c) :
    ((repeatInterleave xs counts).length : Int) = counts.sum := by
  induction xs generalizing counts with
  | nil =>
    obtain rfl := length_eq_zero_iff.mp hlen.symm
    rfl
  | cons x xs ih =>
    cases counts with
    | nil => cases hlen
    | cons c counts =>
      obtain ⟨hc, hcounts⟩ := forall_mem_cons.mp hnn
      have hsplit : repeatInterleave (x :: xs) (c :: counts) =
          List.replicate c.toNat x ++ repeatInterleave xs counts := rfl
      rw [hsplit, length_append, length_replicate, Int.natCast_add,
        ih (Nat.succ.inj hlen) hcounts, Int.toNat_of_nonneg hc, sum_cons]

theorem length_rowsOf {entries : ℕ} (h : ValidPointers ptr entries) :
    (rowsOf ptr).length = entries := by
  have hlen := @length_repeatInterleave _ (upTo (lens ptr).length) (lens ptr)
    (length_upTo _) (lens_nonneg h.nonDecreasing)
  rw [sum_lens h.first h.last] at hlen
  exact Int.ofNat_inj.mp hlen

theorem mem_rowsOf {r : Int} (h : r ∈ rowsOf ptr) : 0 ≤ r ∧ r + 1 < ptr.length := by
  obtain ⟨e, he, hr⟩ := mem_flatMap.mp h
  obtain ⟨hlo, hhi⟩ := mem_upTo.mp (of_mem_zip he).1
  rw [length_lens] at hhi
  rw [eq_of_mem_replicate hr]
  omega

theorem pairwise_rowsOf (ptr : List Int) : (rowsOf ptr).Pairwise (· ≤ ·) :=
  pairwise_repeatInterleave ((pairwise_upTo _).imp le_of_lt)

/-- Pointers that are made by counting give the rows back. -/
theorem rowsOf_pointers {xs : List Int} (hsorted : xs.Pairwise (· ≤ ·))
    (hbounds : ∀ x ∈ xs, 0 ≤ x ∧ x < n) : rowsOf (pointers (countsBelow n xs)) = xs := by
  rw [rowsOf, lens_pointers]
  have hlen : (countsBelow n xs).length = n := by rw [countsBelow, length_map, length_range]
  rw [hlen]
  exact repeatInterleave_countsBelow hsorted hbounds

/-- The entries of each row. -/
def rowSlices (ptr : List Int) (xs : List β) : List (List β) :=
  List.zipWith (fun start stop => (xs.drop start.toNat).take (stop - start).toNat) ptr ptr.tail

theorem zip_append_take (as bs : List β) (cs : List γ) :
    (as ++ bs).zip cs = as.zip (cs.take as.length) ++ bs.zip (cs.drop as.length) := by
  induction as generalizing cs with
  | nil => rfl
  | cons a as ih =>
    cases cs with
    | nil => simp
    | cons c cs => simp only [cons_append, zip_cons_cons, ih, length_cons,
        take_succ_cons, drop_succ_cons]

theorem zip_flatMap {δ : Type} {f : β → List γ} {g : β → List δ}
    (h : ∀ x ∈ xs, (f x).length = (g x).length) :
    (xs.flatMap f).zip (xs.flatMap g) = xs.flatMap fun x => (f x).zip (g x) := by
  induction xs with
  | nil => rfl
  | cons x xs ih =>
    obtain ⟨hx, hxs⟩ := forall_mem_cons.mp h
    rw [flatMap_cons, flatMap_cons, flatMap_cons, zip_append hx, ih hxs]

/-- The pairs of two lists, by their numbers. -/
theorem getElem?_pairs (as : List β) {bs : List γ} (i : ℕ) {j : ℕ} (hj : j < bs.length) :
    (as.flatMap fun a => bs.map fun b => (a, b))[i * bs.length + j]? =
      as[i]?.bind fun a => bs[j]?.map fun b => (a, b) := by
  induction as generalizing i with
  | nil => rfl
  | cons a as ih =>
    rw [flatMap_cons]
    cases i with
    | zero =>
      rw [Nat.zero_mul, Nat.zero_add, getElem?_append_left (by rwa [length_map]),
        getElem?_map]
      rfl
    | succ i =>
      have hnum : (i + 1) * bs.length + j - bs.length = i * bs.length + j := by
        rw [Nat.succ_mul]
        omega
      rw [getElem?_append_right, length_map, hnum, ih]
      · rfl
      · rw [length_map, Nat.succ_mul]
        omega

theorem pairwise_zip_snd {R : γ → γ → Prop} (xs : List β) {ys : List γ} (h : ys.Pairwise R) :
    (xs.zip ys).Pairwise fun a b => R a.2 b.2 := by
  induction xs generalizing ys with
  | nil => exact Pairwise.nil
  | cons x xs ih =>
    cases ys with
    | nil => exact Pairwise.nil
    | cons y ys =>
      obtain ⟨hy, hys⟩ := pairwise_cons.mp h
      exact pairwise_cons.mpr ⟨fun e he => hy _ (of_mem_zip he).2, ih hys⟩

/-- The first row of the entries, and the others. -/
theorem zip_repeatInterleave_cons (m : β) (names : List β) {start stop : Int} (rest : List Int)
    (xs : List γ) (hstart : 0 ≤ start) (hle : start ≤ stop) :
    (repeatInterleave (m :: names) (lens (start :: stop :: rest))).zip (xs.drop start.toNat) =
      (List.replicate (stop - start).toNat m).zip
        ((xs.drop start.toNat).take (stop - start).toNat) ++
      (repeatInterleave names (lens (stop :: rest))).zip (xs.drop stop.toNat) := by
  have hdrop : (xs.drop start.toNat).drop (stop - start).toNat = xs.drop stop.toNat := by
    rw [drop_drop]
    congr 1
    omega
  have happend := zip_append_take (List.replicate (stop - start).toNat m)
    (repeatInterleave names (lens (stop :: rest))) (xs.drop start.toNat)
  rw [length_replicate, hdrop] at happend
  exact happend

/-- Rows whose entries increase are sorted as a whole. -/
theorem pairwise_zip_repeatInterleave {names : List Int} {xs : List Int}
    (hnames : names.Pairwise (· < ·)) (hptr : ptr.Pairwise (· ≤ ·)) (hfirst : ptr.head? = some 0)
    (hrows : ∀ row ∈ rowSlices ptr xs, row.Pairwise (· < ·)) :
    ((repeatInterleave names (lens ptr)).zip xs).Pairwise fun a b =>
      a.1 < b.1 ∨ a.1 = b.1 ∧ a.2 < b.2 := by
  have h : ∀ (rest names : List Int) (start : Int), 0 ≤ start → names.Pairwise (· < ·) →
      (start :: rest).Pairwise (· ≤ ·) →
      (∀ row ∈ rowSlices (start :: rest) xs, row.Pairwise (· < ·)) →
      ((repeatInterleave names (lens (start :: rest))).zip (xs.drop start.toNat)).Pairwise
        fun a b => a.1 < b.1 ∨ a.1 = b.1 ∧ a.2 < b.2 := by
    intro rest
    induction rest with
    | nil =>
      intro names start _ _ _ _
      cases names <;> exact Pairwise.nil
    | cons stop rest ih =>
      intro names start hstart hnames hptr hrows
      cases names with
      | nil => exact Pairwise.nil
      | cons m names =>
        obtain ⟨hm, hnames⟩ := pairwise_cons.mp hnames
        obtain ⟨hle, hptr⟩ := pairwise_cons.mp hptr
        have hstop := hle stop mem_cons_self
        obtain ⟨hrow, hrows⟩ := forall_mem_cons.mp hrows
        have hrest := ih names stop (hstart.trans hstop) hnames hptr hrows
        have hfst : ∀ {row : List Int} {a : Int × Int},
            a ∈ (List.replicate (stop - start).toNat m).zip row → a.1 = m :=
          fun ha => eq_of_mem_replicate (of_mem_zip ha).1
        rw [zip_repeatInterleave_cons m names rest xs hstart hstop]
        refine pairwise_append.mpr ⟨?_, hrest, fun a ha b hb => ?_⟩
        · exact (pairwise_zip_snd _ hrow).imp_of_mem fun ha hb hlt => .inr ⟨(hfst ha).trans (hfst hb).symm, hlt⟩
        · obtain ⟨e, he, hb⟩ := mem_flatMap.mp (of_mem_zip hb).1
          refine .inl ?_
          rw [hfst ha, eq_of_mem_replicate hb]
          exact hm _ (of_mem_zip he).1
  cases ptr with
  | nil => cases hfirst
  | cons start rest =>
    obtain rfl : start = 0 := Option.some.inj hfirst
    exact h rest names 0 le_rfl hnames hptr hrows

end Scatter
