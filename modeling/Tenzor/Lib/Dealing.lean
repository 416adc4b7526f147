import Mathlib.Data.List.Basic
import Mathlib.Tactic.Ring

/-!
# Dealing a list

A list is dealt to so many hands, one element to each in turn. Laying the hands together again, one
element of each in turn, gives the list back when every hand has the same number of elements.
-/

namespace Tenzor.Dealing

open List

variable {α : Type*} {hands rounds : ℕ} {l : List α}

/-- Every so many elements of a list, from a place on. -/
def deal (l : List α) (hands i : ℕ) : List α :=
  if h : i < l.length ∧ 0 < hands then l.get ⟨i, h.1⟩ :: deal l hands (i + hands) else []
termination_by l.length - i

/-- Rounds over the hands, one element of each. -/
def interleave (hands rounds : ℕ) (dealt : ℕ → List α) : List α :=
  (List.range rounds).flatMap fun q => (List.range hands).filterMap fun i => (dealt i)[q]?

theorem getElem?_deal (l : List α) (hhands : 0 < hands) (i q : ℕ) :
    (deal l hands i)[q]? = l[i + q * hands]? := by
  induction q generalizing i with
  | zero =>
    rw [deal, Nat.zero_mul, Nat.add_zero]
    split
    next h => rw [getElem?_cons_zero, getElem?_eq_getElem h.1, get_eq_getElem]
    next h => rw [getElem?_nil, getElem?_eq_none (by omega)]
  | succ q ih =>
    rw [deal]
    split
    next h =>
      have hplace : i + hands + q * hands = i + (q + 1) * hands := by ring
      rw [getElem?_cons_succ, ih, hplace]
    next h =>
      rw [getElem?_nil, getElem?_eq_none]
      have hlong : l.length ≤ i := by omega
      exact hlong.trans (Nat.le_add_right _ _)

theorem length_deal {i : ℕ} (hl : l.length = rounds * hands) (hi : i < hands) :
    (deal l hands i).length = rounds := by
  have hend (q : ℕ) : (deal l hands i).length ≤ q ↔ rounds ≤ q := by
    rw [← List.getElem?_eq_none_iff, getElem?_deal l (Nat.zero_lt_of_lt hi),
      List.getElem?_eq_none_iff, hl]
    constructor
    · by_contra hq
      have hmore : (q + 1) * hands ≤ rounds * hands := Nat.mul_le_mul_right hands (by omega)
      rw [Nat.succ_mul] at hmore
      omega
    · intro h
      exact (Nat.mul_le_mul_right hands h).trans (Nat.le_add_left _ _)
  exact Nat.le_antisymm ((hend _).mpr le_rfl) ((hend _).mp le_rfl)

theorem filterMap_getElem? (l : List α) (n : ℕ) :
    (List.range n).filterMap (fun i => l[i]?) = l.take n := by
  induction n with
  | zero => rfl
  | succ n ih =>
    rw [range_succ, filterMap_append, ih, take_add_one]
    cases hn : l[n]? <;> simp [hn]

/-- Laid together, the hands are the list. -/
theorem interleave_deal (hhands : 0 < hands) (hl : l.length = rounds * hands) :
    interleave hands rounds (deal l hands) = l := by
  have hround (q : ℕ) : (List.range hands).filterMap (fun i => (deal l hands i)[q]?) =
      (l.drop (q * hands)).take hands := by
    rw [← filterMap_getElem?]
    apply filterMap_congr
    intro i _
    rw [getElem?_deal l hhands, getElem?_drop, Nat.add_comm]
  have hrounds (n : ℕ) :
      (List.range n).flatMap (fun q => (l.drop (q * hands)).take hands) = l.take (n * hands) := by
    induction n with
    | zero => simp
    | succ n ih =>
      rw [range_succ, flatMap_append, ih, flatMap_singleton, Nat.succ_mul,
        take_add]
  calc interleave hands rounds (deal l hands)
      = (List.range rounds).flatMap fun q => (l.drop (q * hands)).take hands := by
        simp only [interleave, hround]
    _ = l := by rw [hrounds, ← hl, take_length]

theorem exists_mem_deal (hhands : 0 < hands) {a : α} (ha : a ∈ l) :
    ∃ i < hands, a ∈ deal l hands i := by
  obtain ⟨n, hn⟩ := mem_iff_getElem?.mp ha
  refine ⟨n % hands, Nat.mod_lt n hhands, mem_iff_getElem?.mpr ⟨n / hands, ?_⟩⟩
  rw [getElem?_deal l hhands, Nat.mul_comm, Nat.mod_add_div, hn]

end Tenzor.Dealing
