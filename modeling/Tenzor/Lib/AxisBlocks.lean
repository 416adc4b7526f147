import Mathlib.Data.List.Basic
import Mathlib.Tactic.Ring

/-!
# Joining and cutting along an axis

A row-major array whose axes before the given one have `outer` positions is
`outer` blocks of one size. Joining arrays along the axis takes block after block
from each of them; cutting takes one interval out of every block.
-/

namespace AxisBlocks

open List

variable {α : Type*}

/-- Block `o` of an array with blocks of the given size. -/
def block (size o : ℕ) (l : List α) : List α := (l.drop (o * size)).take size

/-- Arrays with their block sizes, joined along the axis. -/
def join (outer : ℕ) (parts : List (ℕ × List α)) : List α :=
  (List.range outer).flatMap fun o => parts.flatMap fun p => block p.1 o p.2

/-- The interval of `count` items from `start` on, in every block. -/
def cut (outer size start count : ℕ) (l : List α) : List α :=
  (List.range outer).flatMap fun o => ((block size o l).drop start).take count

variable {outer size : ℕ} {l : List α} {o : ℕ} {f : ℕ → List α} {bound len : ℕ → ℕ}

theorem length_block (hl : l.length = outer * size) (ho : o < outer) :
    (block size o l).length = size := by
  have hle : (o + 1) * size ≤ outer * size := Nat.mul_le_mul_right size ho
  rw [block, length_take, length_drop]
  rw [Nat.add_mul] at hle
  omega

theorem length_flatMap_range (h : ∀ o < outer, (f o).length = size) :
    ((List.range outer).flatMap f).length = outer * size := by
  induction outer with
  | zero => simp
  | succ outer ih =>
    rw [range_succ, flatMap_append, length_append,
      ih fun o ho => h o (Nat.lt_succ_of_lt ho), flatMap_singleton,
      h outer (Nat.lt_succ_self outer)]
    ring

theorem length_join {parts : List (ℕ × List α)} (h : ∀ p ∈ parts, p.2.length = outer * p.1) :
    (join outer parts).length = outer * (parts.map Prod.fst).sum := by
  refine length_flatMap_range fun o ho => ?_
  induction parts with
  | nil => rfl
  | cons p rest ih =>
    obtain ⟨hp, hrest⟩ := forall_mem_cons.mp h
    rw [flatMap_cons, length_append, ih hrest, length_block hp ho, map_cons,
      sum_cons]

theorem block_flatMap_range (h : ∀ o < outer, (f o).length = size) (ho : o < outer) :
    block size o ((List.range outer).flatMap f) = f o := by
  induction outer with
  | zero => omega
  | succ outer ih =>
    have hlen := length_flatMap_range fun i hi => h i (Nat.lt_succ_of_lt hi)
    rw [range_succ, flatMap_append, flatMap_singleton, block]
    obtain hlt | rfl := Nat.lt_succ_iff_lt_or_eq.mp ho
    · have hle : (o + 1) * size ≤ outer * size := Nat.mul_le_mul_right size hlt
      rw [Nat.add_mul] at hle
      rw [drop_append_of_le_length (by omega), take_append_of_le_length (by
        rw [length_drop]
        omega)]
      exact ih (fun i hi => h i (Nat.lt_succ_of_lt hi)) hlt
    · rw [← hlen, drop_left, take_of_length_le (h o ho).le]

theorem flatMap_block (hl : l.length = outer * size) :
    (List.range outer).flatMap (fun o => block size o l) = l := by
  induction outer generalizing l with
  | zero =>
    rw [Nat.zero_mul] at hl
    rw [length_eq_zero_iff.mp hl]
    rfl
  | succ outer ih =>
    have hsplit : l.length = size + outer * size := by rw [hl]; ring
    rw [range_succ_eq_map, flatMap_cons, flatMap_map]
    have hrest : ∀ o, block size (o + 1) l = block size o (l.drop size) := by
      intro o
      rw [block, block, drop_drop, Nat.add_mul, Nat.one_mul, Nat.add_comm]
    simp only [Nat.succ_eq_add_one, hrest]
    rw [ih (by rw [length_drop]; omega), block, Nat.zero_mul, drop_zero,
      take_append_drop]

theorem block_cut {start count : ℕ} (hl : l.length = outer * size) (hle : start + count ≤ size)
    (ho : o < outer) :
    block count o (cut outer size start count l) = ((block size o l).drop start).take count := by
  refine block_flatMap_range (fun i hi => ?_) ho
  rw [length_take, length_drop, length_block hl hi]
  omega

/-- Consecutive intervals give a list back. -/
theorem flatMap_intervals (l : List α) (hzero : bound 0 = 0)
    (hsucc : ∀ r, bound (r + 1) = bound r + len r) (w : ℕ) :
    (List.range w).flatMap (fun r => (l.drop (bound r)).take (len r)) = l.take (bound w) := by
  induction w with
  | zero => simp [hzero]
  | succ w ih =>
    rw [range_succ, flatMap_append, ih, flatMap_singleton, hsucc, take_add]

/-- Cutting into consecutive intervals and joining them again. -/
theorem join_cuts (hl : l.length = outer * size) (hzero : bound 0 = 0)
    (hsucc : ∀ r, bound (r + 1) = bound r + len r) {w : ℕ} (hlast : bound w = size)
    (hle : ∀ r < w, bound r + len r ≤ size) :
    join outer ((List.range w).map fun r => (len r, cut outer size (bound r) (len r) l)) = l := by
  calc join outer ((List.range w).map fun r => (len r, cut outer size (bound r) (len r) l))
      = (List.range outer).flatMap (fun o => block size o l) := by
        refine flatMap_congr fun o ho => ?_
        have ho := mem_range.mp ho
        rw [flatMap_map]
        have hcuts : ∀ r ∈ List.range w, block (len r) o (cut outer size (bound r) (len r) l) =
            ((block size o l).drop (bound r)).take (len r) :=
          fun r hr => block_cut hl (hle r (mem_range.mp hr)) ho
        rw [flatMap_congr hcuts, flatMap_intervals _ hzero hsucc, hlast,
          take_of_length_le (length_block hl ho).le]
    _ = l := flatMap_block hl

end AxisBlocks
