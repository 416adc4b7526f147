import Mathlib.Algebra.Order.BigOperators.Group.Finset
import Mathlib.Order.Interval.Finset.Nat

/-!
# Tilings of regions by cells

A table of cells tiles a set of regions when no two cells share an address and
the cells of a region hold exactly the addresses of the region. Cells are
split, joined, added with their region and dropped with it.
-/

namespace Tiling

open Function
open Finset (card_le_card mem_union range sum_congr)

/-- A run of consecutive addresses. -/
structure Span where
  start : ℕ
  size : ℕ
deriving DecidableEq

namespace Span

variable {s t : Span}

def stop (s : Span) : ℕ := s.start + s.size

def bytes (s : Span) : Finset ℕ := Finset.Ico s.start s.stop

/-- No address lies in both. -/
def Apart (s t : Span) : Prop := Disjoint s.bytes t.bytes

@[simp] theorem mem_bytes {x : ℕ} : x ∈ s.bytes ↔ s.start ≤ x ∧ x < s.start + s.size := by
  simp [bytes, stop]

@[simp] theorem card_bytes (s : Span) : s.bytes.card = s.size := by
  simp [bytes, stop]

theorem apart_iff (hs : 0 < s.size) (ht : 0 < t.size) :
    s.Apart t ↔ s.stop ≤ t.start ∨ t.stop ≤ s.start := by
  simp only [Apart, Finset.disjoint_left, mem_bytes, stop]
  constructor
  · intro h
    by_contra hc
    have hmax := h (a := max s.start t.start) (by omega)
    omega
  · omega

theorem Apart.symm (h : s.Apart t) : t.Apart s := Disjoint.symm h

theorem start_mem (hs : 0 < s.size) : s.start ∈ s.bytes := by
  simp [hs]

/-- A nonempty span is known from its addresses. -/
theorem eq_of_bytes_eq (hs : 0 < s.size) (h : s.bytes = t.bytes) : s = t := by
  have hcard : s.size = t.size := by rw [← card_bytes s, h, card_bytes]
  have hle : t.start ≤ s.start := by
    have hmem : s.start ∈ t.bytes := h ▸ start_mem hs
    exact (mem_bytes.mp hmem).1
  have hge : s.start ≤ t.start := by
    have hmem : t.start ∈ s.bytes := h ▸ start_mem (hcard ▸ hs)
    exact (mem_bytes.mp hmem).1
  have hstart : s.start = t.start := Nat.le_antisymm hge hle
  cases s
  simp_all

end Span

/-- A span that belongs to the region named `home`. -/
structure Cell (κ : Type*) where
  span : Span
  home : κ

variable {ι κ : Type*}

structure Tiles (cells : ι → Option (Cell κ)) (regions : κ → Option Span) : Prop where
  pos : ∀ {i c}, cells i = some c → 0 < c.span.size
  apart : ∀ {i j c d}, cells i = some c → cells j = some d → i ≠ j → c.span.Apart d.span
  inside : ∀ {i c}, cells i = some c → ∃ R, regions c.home = some R ∧ c.span.bytes ⊆ R.bytes
  covers : ∀ {k R x}, regions k = some R → x ∈ R.bytes →
    ∃ i c, cells i = some c ∧ c.home = k ∧ x ∈ c.span.bytes

namespace Tiles

variable {cells : ι → Option (Cell κ)} {regions : κ → Option Span} {i j : ι} {c : Cell κ}
  {R s : Span}

/-- A cell without siblings is its region. -/
theorem span_eq_of_sole (h : Tiles cells regions) (hc : cells i = some c)
    (hR : regions c.home = some R) (hsole : ∀ j d, cells j = some d → d.home = c.home → j = i) :
    c.span = R := by
  apply Span.eq_of_bytes_eq (h.pos hc)
  obtain ⟨R', hR', hsub⟩ := h.inside hc
  obtain rfl : R = R' := Option.some.inj (hR.symm.trans hR')
  apply Finset.Subset.antisymm hsub
  intro x hx
  obtain ⟨j, d, hd, hhome, hxd⟩ := h.covers hR hx
  obtain rfl := hsole j d hd hhome
  obtain rfl : c = d := Option.some.inj (hc.symm.trans hd)
  exact hxd

variable [DecidableEq ι]

theorem addRegion [DecidableEq κ] (h : Tiles cells regions) {k : κ} (hi : cells i = none)
    (hk : regions k = none) (hpos : 0 < R.size) (hR : ∀ l Q, regions l = some Q → R.Apart Q) :
    Tiles (update cells i (some ⟨R, k⟩)) (update regions k (some R)) := by
  have hcell : ∀ {j d}, cells j = some d → R.Apart d.span := by
    intro j d hd
    obtain ⟨Q, hQ, hsub⟩ := h.inside hd
    exact Finset.disjoint_of_subset_right hsub (hR _ Q hQ)
  constructor
  · intro j d hd
    rcases eq_or_ne j i with rfl | hne
    · obtain rfl : ⟨R, k⟩ = d := by simpa using hd
      exact hpos
    · rw [update_of_ne hne] at hd
      exact h.pos hd
  · intro j l c d hc hd hne
    rcases eq_or_ne j i with rfl | hj
    · obtain rfl : ⟨R, k⟩ = c := by simpa using hc
      rw [update_of_ne hne.symm] at hd
      exact hcell hd
    · rw [update_of_ne hj] at hc
      rcases eq_or_ne l i with rfl | hl
      · obtain rfl : ⟨R, k⟩ = d := by simpa using hd
        exact (hcell hc).symm
      · rw [update_of_ne hl] at hd
        exact h.apart hc hd hne
  · intro j d hd
    rcases eq_or_ne j i with rfl | hne
    · obtain rfl : ⟨R, k⟩ = d := by simpa using hd
      exact ⟨R, by simp, Finset.Subset.refl _⟩
    · rw [update_of_ne hne] at hd
      obtain ⟨Q, hQ, hsub⟩ := h.inside hd
      have hhome : d.home ≠ k := by
        intro heq
        rw [heq, hk] at hQ
        cases hQ
      exact ⟨Q, by rw [update_of_ne hhome, hQ], hsub⟩
  · intro l Q x hQ hx
    rcases eq_or_ne l k with rfl | hne
    · obtain rfl : R = Q := by simpa using hQ
      exact ⟨i, ⟨R, l⟩, by simp, rfl, hx⟩
    · rw [update_of_ne hne] at hQ
      obtain ⟨j, d, hd, hhome, hxd⟩ := h.covers hQ hx
      have hj : j ≠ i := by
        rintro rfl
        rw [hi] at hd
        cases hd
      exact ⟨j, d, by rw [update_of_ne hj, hd], hhome, hxd⟩

theorem dropRegion [DecidableEq κ] (h : Tiles cells regions) (hc : cells i = some c)
    (hsole : ∀ j d, cells j = some d → d.home = c.home → j = i) :
    Tiles (update cells i none) (update regions c.home none) := by
  have hold : ∀ {j d}, update cells i none j = some d → j ≠ i ∧ cells j = some d := by
    intro j d hd
    rcases eq_or_ne j i with rfl | hne
    · simp at hd
    · rw [update_of_ne hne] at hd
      exact ⟨hne, hd⟩
  constructor
  · intro j d hd
    exact h.pos (hold hd).2
  · intro j l d e hd he hne
    exact h.apart (hold hd).2 (hold he).2 hne
  · intro j d hd
    obtain ⟨hne, hd⟩ := hold hd
    obtain ⟨Q, hQ, hsub⟩ := h.inside hd
    have hhome : d.home ≠ c.home := fun heq => hne (hsole j d hd heq)
    exact ⟨Q, by rw [update_of_ne hhome, hQ], hsub⟩
  · intro l Q x hQ hx
    rcases eq_or_ne l c.home with rfl | hne
    · simp at hQ
    · rw [update_of_ne hne] at hQ
      obtain ⟨j, d, hd, rfl, hxd⟩ := h.covers hQ hx
      have hj : j ≠ i := by
        rintro rfl
        exact hne (congrArg Cell.home (Option.some.inj (hd.symm.trans hc)))
      exact ⟨j, d, by rw [update_of_ne hj, hd], rfl, hxd⟩

/-- Replace a cell by two that share out its addresses. -/
theorem split (h : Tiles cells regions) {t : Span} (hc : cells i = some c) (hj : cells j = none)
    (hs : 0 < s.size) (ht : 0 < t.size) (hst : s.Apart t)
    (hunion : c.span.bytes = s.bytes ∪ t.bytes) :
    Tiles (update (update cells i (some ⟨s, c.home⟩)) j (some ⟨t, c.home⟩)) regions := by
  have hij : i ≠ j := by
    rintro rfl
    rw [hc] at hj
    cases hj
  obtain ⟨R, hR, hsub⟩ := h.inside hc
  rw [hunion, Finset.union_subset_iff] at hsub
  -- Every new cell is one of the halves or an old cell apart from both.
  have hcases : ∀ {l d}, update (update cells i (some ⟨s, c.home⟩)) j (some ⟨t, c.home⟩) l = some d →
      (l = j ∧ d = ⟨t, c.home⟩) ∨ (l = i ∧ d = ⟨s, c.home⟩) ∨
        (l ≠ i ∧ cells l = some d ∧ s.Apart d.span ∧ t.Apart d.span) := by
    intro l d hd
    rcases eq_or_ne l j with rfl | hlj
    · exact .inl ⟨rfl, by simpa using hd.symm⟩
    rw [update_of_ne hlj] at hd
    rcases eq_or_ne l i with rfl | hli
    · exact .inr (.inl ⟨rfl, by simpa using hd.symm⟩)
    rw [update_of_ne hli] at hd
    have hapart := h.apart hc hd hli.symm
    rw [Span.Apart, hunion, Finset.disjoint_union_left] at hapart
    exact .inr (.inr ⟨hli, hd, hapart⟩)
  constructor
  · intro l d hd
    rcases hcases hd with ⟨-, rfl⟩ | ⟨-, rfl⟩ | ⟨-, hd, -⟩
    · exact ht
    · exact hs
    · exact h.pos hd
  · intro l m d e hd he hne
    rcases hcases hd with ⟨rfl, rfl⟩ | ⟨rfl, rfl⟩ | ⟨-, hd, hsd, htd⟩ <;>
      rcases hcases he with ⟨rfl, rfl⟩ | ⟨rfl, rfl⟩ | ⟨-, he, hse, hte⟩
    · exact absurd rfl hne
    · exact hst.symm
    · exact hte
    · exact hst
    · exact absurd rfl hne
    · exact hse
    · exact htd.symm
    · exact hsd.symm
    · exact h.apart hd he hne
  · intro l d hd
    rcases hcases hd with ⟨-, rfl⟩ | ⟨-, rfl⟩ | ⟨-, hd, -⟩
    · exact ⟨R, hR, hsub.2⟩
    · exact ⟨R, hR, hsub.1⟩
    · exact h.inside hd
  · intro k Q x hQ hx
    obtain ⟨l, d, hd, hhome, hxd⟩ := h.covers hQ hx
    rcases eq_or_ne l i with rfl | hli
    · obtain rfl : c = d := Option.some.inj (hc.symm.trans hd)
      rw [hunion, mem_union] at hxd
      rcases hxd with hxs | hxt
      · exact ⟨l, ⟨s, c.home⟩, by rw [update_of_ne hij, update_self], hhome, hxs⟩
      · exact ⟨j, ⟨t, c.home⟩, by rw [update_self], hhome, hxt⟩
    · have hlj : l ≠ j := by
        rintro rfl
        rw [hj] at hd
        cases hd
      exact ⟨l, d, by rw [update_of_ne hlj, update_of_ne hli, hd], hhome, hxd⟩

/-- Replace two cells of a region by one that takes their addresses together. -/
theorem join (h : Tiles cells regions) {d : Cell κ} (hij : i ≠ j) (hc : cells i = some c)
    (hd : cells j = some d) (hhome : c.home = d.home)
    (hunion : s.bytes = c.span.bytes ∪ d.span.bytes) :
    Tiles (update (update cells i (some ⟨s, c.home⟩)) j none) regions := by
  obtain ⟨R, hR, hsubc⟩ := h.inside hc
  obtain ⟨R', hR', hsubd⟩ := h.inside hd
  obtain rfl : R = R' := by rw [hhome, hR'] at hR; exact (Option.some.inj hR).symm
  have hcases : ∀ {l e}, update (update cells i (some ⟨s, c.home⟩)) j none l = some e →
      (l = i ∧ e = ⟨s, c.home⟩) ∨ (l ≠ i ∧ cells l = some e ∧ s.Apart e.span) := by
    intro l e he
    rcases eq_or_ne l j with rfl | hlj
    · simp at he
    rw [update_of_ne hlj] at he
    rcases eq_or_ne l i with rfl | hli
    · exact .inl ⟨rfl, by simpa using he.symm⟩
    rw [update_of_ne hli] at he
    refine .inr ⟨hli, he, ?_⟩
    rw [Span.Apart, hunion, Finset.disjoint_union_left]
    exact ⟨h.apart hc he hli.symm, h.apart hd he hlj.symm⟩
  constructor
  · intro l e he
    rcases hcases he with ⟨-, rfl⟩ | ⟨-, he, -⟩
    · have hle : c.span.size ≤ s.size := by
        rw [← Span.card_bytes, ← Span.card_bytes, hunion]
        exact card_le_card Finset.subset_union_left
      exact lt_of_lt_of_le (h.pos hc) hle
    · exact h.pos he
  · intro l m e f he hf hne
    rcases hcases he with ⟨rfl, rfl⟩ | ⟨-, he, hse⟩ <;>
      rcases hcases hf with ⟨rfl, rfl⟩ | ⟨-, hf, hsf⟩
    · exact absurd rfl hne
    · exact hsf
    · exact hse.symm
    · exact h.apart he hf hne
  · intro l e he
    rcases hcases he with ⟨-, rfl⟩ | ⟨-, he, -⟩
    · exact ⟨R, hR, by rw [hunion]; exact Finset.union_subset hsubc hsubd⟩
    · exact h.inside he
  · intro k Q x hQ hx
    obtain ⟨l, e, he, rfl, hxe⟩ := h.covers hQ hx
    by_cases hx' : x ∈ s.bytes
    · refine ⟨i, ⟨s, c.home⟩, by rw [update_of_ne hij, update_self], ?_, hx'⟩
      rw [hunion, mem_union] at hx'
      by_contra hne
      -- The byte lies in `c` or `d`, and in `e`: these are the same cell.
      rcases hx' with hxc | hxd
      · rcases eq_or_ne l i with rfl | hli
        · obtain rfl : c = e := Option.some.inj (hc.symm.trans he)
          exact hne rfl
        · exact Finset.disjoint_left.mp (h.apart hc he hli.symm) hxc hxe
      · rcases eq_or_ne l j with rfl | hlj
        · obtain rfl : d = e := Option.some.inj (hd.symm.trans he)
          exact hne hhome
        · exact Finset.disjoint_left.mp (h.apart hd he hlj.symm) hxd hxe
    · rw [hunion, mem_union, not_or] at hx'
      have hli : l ≠ i := by
        rintro rfl
        obtain rfl : c = e := Option.some.inj (hc.symm.trans he)
        exact hx'.1 hxe
      have hlj : l ≠ j := by
        rintro rfl
        obtain rfl : d = e := Option.some.inj (hd.symm.trans he)
        exact hx'.2 hxe
      exact ⟨l, e, by rw [update_of_ne hlj, update_of_ne hli, he], rfl, hxe⟩

end Tiles

/-- The weights of the entries below `n`, added up. -/
def total {β : Type*} (table : ℕ → Option β) (n : ℕ) (w : β → ℕ) : ℕ :=
  ∑ r ∈ Finset.range n, (table r).elim 0 w

section Totals

variable {β : Type*} {table : ℕ → Option β} {n r : ℕ} {w : β → ℕ}

theorem total_update (hr : r < n) (x : Option β) :
    total (update table r x) n w + (table r).elim 0 w = total table n w + x.elim 0 w := by
  have hmem : r ∈ range n := Finset.mem_range.mpr hr
  have hrest : ∑ i ∈ (range n).erase r, (update table r x i).elim 0 w =
      ∑ i ∈ (range n).erase r, (table i).elim 0 w := by
    apply sum_congr rfl
    intro i hi
    rw [update_of_ne (Finset.ne_of_mem_erase hi)]
  rw [total, total, ← Finset.sum_erase_add _ _ hmem, ← Finset.sum_erase_add _ _ hmem, update_self]
  omega

theorem total_new (x : Option β) :
    total (update table n x) (n + 1) w = total table n w + x.elim 0 w := by
  rw [total, Finset.sum_range_succ, update_self]
  congr 1
  apply sum_congr rfl
  intro i hi
  rw [update_of_ne (Finset.mem_range.mp hi).ne]

theorem total_add (v : β → ℕ) :
    total table n (fun b => w b + v b) = total table n w + total table n v := by
  rw [total, total, total, ← Finset.sum_add_distrib]
  apply sum_congr rfl
  intro r _
  cases table r <;> rfl

theorem le_total {b : β} (hr : r < n) (hb : table r = some b) : w b ≤ total table n w := by
  have hle : (table r).elim 0 w ≤ ∑ i ∈ range n, (table i).elim 0 w :=
    Finset.single_le_sum (f := fun i => (table i).elim 0 w) (fun i _ => Nat.zero_le _)
      (Finset.mem_range.mpr hr)
  rw [hb] at hle
  exact hle

/-- Spans that share no address and lie in a set have at most its size together. -/
theorem total_size_le {span : β → Span} {S : Finset ℕ}
    (hsub : ∀ r b, table r = some b → (span b).bytes ⊆ S)
    (hapart : ∀ r q b c, table r = some b → table q = some c → r ≠ q → (span b).Apart (span c)) :
    total table n (fun b => (span b).size) ≤ S.card := by
  let bytes : ℕ → Finset ℕ := fun r => (table r).elim ∅ fun b => (span b).bytes
  have hcard : ∀ r, (table r).elim 0 (fun b => (span b).size) = (bytes r).card := by
    intro r
    simp only [bytes]
    cases table r with
    | none => rfl
    | some b => simp
  have hdisj : ∀ r ∈ range n, ∀ q ∈ range n, r ≠ q → Disjoint (bytes r) (bytes q) := by
    intro r _ q _ hne
    simp only [bytes]
    cases hb : table r with
    | none => simp
    | some b =>
      cases hc : table q with
      | none => simp
      | some c => exact hapart r q b c hb hc hne
  rw [total, sum_congr rfl fun r _ => hcard r, ← Finset.card_biUnion hdisj]
  apply card_le_card
  intro x hx
  obtain ⟨r, -, hxr⟩ := Finset.mem_biUnion.mp hx
  simp only [bytes] at hxr
  cases hb : table r with
  | none => simp [hb] at hxr
  | some b =>
    rw [hb] at hxr
    exact hsub r b hb hxr

end Totals

end Tiling
