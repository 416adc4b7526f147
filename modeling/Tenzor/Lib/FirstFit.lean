import Mathlib.Data.List.Pairwise
import Mathlib.Tactic.Linarith

/-!
# First-fit placement of intervals

Items are placed one after the other at the lowest address the search reaches:
it starts at `0` and skips past each slot it would overlap. Only items that
clash may not share addresses. Slots end at multiples of an alignment.
-/

namespace FirstFit

open List

variable {κ : Type*}

/-- The addresses `start ≤ x < stop` that an item holds. -/
structure Slot (κ : Type*) where
  start : ℕ
  stop : ℕ
  item : κ

/-- Which items may not share addresses, how much each needs and the multiples
that slots start at. -/
structure Rules (κ : Type*) where
  clash : κ → κ → Bool
  need : κ → ℕ
  align : ℕ
  need_dvd : ∀ k, align ∣ need k

namespace Rules

variable (R : Rules κ)

/-- An item at `x` would overlap the slot of an item it clashes with. -/
def blocks (k : κ) (x : ℕ) (s : Slot κ) : Bool :=
  R.clash k s.item && (decide (s.start < x + R.need k) && decide (x < s.stop))

/-- Skip past the first slot in the way until there is none. -/
def search (placed : List (Slot κ)) (k : κ) : ℕ → ℕ → Option ℕ
  | 0, _ => none
  | fuel + 1, x =>
    match placed.find? (R.blocks k x) with
    | none => some x
    | some s => search placed k fuel s.stop

/-- Place one item after the others. -/
def place (placed : List (Slot κ)) (k : κ) : Option (List (Slot κ)) :=
  (R.search placed k (placed.length + 1) 0).map fun x => placed ++ [⟨x, x + R.need k, k⟩]

def placeAll (items : List κ) : Option (List (Slot κ)) := items.foldlM R.place []

/-- A placement keeps clashing items apart, aligned and of the size they need. -/
structure Fits (slots : List (Slot κ)) : Prop where
  apart : slots.Pairwise fun s t => R.clash t.item s.item → s.stop ≤ t.start ∨ t.stop ≤ s.start
  size : ∀ s ∈ slots, s.stop = s.start + R.need s.item
  aligned : ∀ s ∈ slots, R.align ∣ s.start

variable {R} {placed : List (Slot κ)} {k : κ} {fuel x c : ℕ} {s : Slot κ} {fuel' : ℕ}
  {slots : List (Slot κ)} {items : List κ}

theorem blocks_eq_false (h : R.blocks k x s = false) (hclash : R.clash k s.item = true) :
    x + R.need k ≤ s.start ∨ s.stop ≤ x := by
  simp only [blocks, hclash, Bool.true_and, Bool.and_eq_false_iff, decide_eq_false_iff_not] at h
  omega

theorem lt_stop_of_blocks (h : R.blocks k x s = true) : s.start < x + R.need k ∧ x < s.stop := by
  simp only [blocks, Bool.and_eq_true, decide_eq_true_eq] at h
  exact h.2

/-- Each skip leaves fewer slots ahead, so the search ends. -/
theorem search_isSome (hfuel : placed.countP (fun s => decide (x < s.stop)) < fuel) :
    ∃ c, R.search placed k fuel x = some c := by
  induction fuel generalizing x with
  | zero => exact absurd hfuel (Nat.not_lt_zero _)
  | succ n ih =>
    rw [search]
    cases hfind : placed.find? (R.blocks k x) with
    | none => exact ⟨x, rfl⟩
    | some s =>
      have hs : s ∈ placed := mem_of_find?_eq_some hfind
      have hx : x < s.stop := (lt_stop_of_blocks (find?_some hfind)).2
      apply ih
      have hlt : placed.countP (fun t => decide (s.stop < t.stop)) <
          placed.countP (fun t => decide (x < t.stop)) := by
        have hle : placed.countP (fun t => decide (s.stop < t.stop)) + 1 ≤
            placed.countP (fun t => decide (x < t.stop)) := by
          obtain ⟨before, after, rfl⟩ := append_of_mem hs
          have hmono : ∀ l : List (Slot κ), l.countP (fun t => decide (s.stop < t.stop)) ≤
              l.countP (fun t => decide (x < t.stop)) := by
            intro l
            apply countP_mono_left
            intro t _ ht
            simp only [decide_eq_true_eq] at ht ⊢
            exact hx.trans ht
          have hbefore := hmono before
          have hafter := hmono after
          simp only [countP_append, countP_cons, lt_irrefl, decide_false,
            Bool.false_eq_true, if_false, hx, decide_true, if_true]
          omega
        exact hle
      omega

theorem search_total (placed : List (Slot κ)) (k : κ) (x : ℕ) :
    ∃ c, R.search placed k (placed.length + 1) x = some c :=
  search_isSome (Nat.lt_succ_of_le countP_le_length)

/-- The search stops where nothing blocks, or goes on behind a slot that does. -/
theorem search_cases (h : R.search placed k (fuel + 1) x = some c) :
    (x = c ∧ placed.find? (R.blocks k x) = none) ∨
      ∃ s, placed.find? (R.blocks k x) = some s ∧ R.search placed k fuel s.stop = some c := by
  rw [search] at h
  cases hfind : placed.find? (R.blocks k x) with
  | none =>
    rw [hfind] at h
    exact .inl ⟨Option.some.inj h, rfl⟩
  | some s =>
    rw [hfind] at h
    exact .inr ⟨s, rfl, h⟩

/-- What the search returns overlaps no slot of a clashing item. -/
theorem search_free (h : R.search placed k fuel x = some c) :
    ∀ s ∈ placed, R.blocks k c s = false := by
  induction fuel generalizing x with
  | zero => simp [search] at h
  | succ n ih =>
    obtain ⟨rfl, hfind⟩ | ⟨s, -, h⟩ := search_cases h
    · simpa [find?_eq_none] using hfind
    · exact ih h

theorem le_of_search (h : R.search placed k fuel x = some c) : x ≤ c := by
  induction fuel generalizing x with
  | zero => simp [search] at h
  | succ n ih =>
    obtain ⟨rfl, -⟩ | ⟨s, hfind, h⟩ := search_cases h
    · exact le_rfl
    · exact (lt_stop_of_blocks (find?_some hfind)).2.le.trans (ih h)

/-- More fuel does not change the answer. -/
theorem search_mono (hle : fuel ≤ fuel') (h : R.search placed k fuel x = some c) :
    R.search placed k fuel' x = some c := by
  induction fuel generalizing x fuel' with
  | zero => simp [search] at h
  | succ n ih =>
    obtain ⟨m, rfl⟩ : ∃ m, fuel' = m + 1 := ⟨fuel' - 1, by omega⟩
    rw [search]
    obtain ⟨rfl, hfind⟩ | ⟨s, hfind, h⟩ := search_cases h
    · rw [hfind]
    · rw [hfind]
      exact ih (Nat.le_of_succ_le_succ hle) h

theorem search_unique {c' : ℕ} (h : R.search placed k fuel x = some c)
    (h' : R.search placed k fuel' x = some c') : c = c' := by
  have hmax := search_mono (Nat.le_max_left fuel fuel') h
  rw [search_mono (Nat.le_max_right fuel fuel') h'] at hmax
  exact (Option.some.inj hmax).symm

/-- The search stops at multiples of the alignment when the slots do. -/
theorem dvd_of_search (hplaced : ∀ s ∈ placed, R.align ∣ s.stop) (hx : R.align ∣ x)
    (h : R.search placed k fuel x = some c) : R.align ∣ c := by
  induction fuel generalizing x with
  | zero => simp [search] at h
  | succ n ih =>
    obtain ⟨rfl, -⟩ | ⟨s, hfind, h⟩ := search_cases h
    · exact hx
    · exact ih (hplaced s (mem_of_find?_eq_some hfind)) h

theorem fits_nil : R.Fits [] := ⟨Pairwise.nil, by simp, by simp⟩

theorem Fits.dvd_stop (h : R.Fits placed) : ∀ s ∈ placed, R.align ∣ s.stop := by
  intro s hs
  rw [h.size s hs]
  exact (Nat.dvd_add_right (h.aligned s hs)).mpr (R.need_dvd s.item)

/-- Where clashing does not depend on the order, neither does being apart. -/
theorem Fits.apart_of_mem (h : R.Fits placed) (hsymm : ∀ a b, R.clash a b = R.clash b a)
    {t : Slot κ} (hs : s ∈ placed) (ht : t ∈ placed) (hne : s ≠ t)
    (hclash : R.clash t.item s.item = true) : s.stop ≤ t.start ∨ t.stop ≤ s.start := by
  have : Std.Symm fun s t : Slot κ =>
      R.clash t.item s.item → s.stop ≤ t.start ∨ t.stop ≤ s.start := by
    constructor
    intro s t h hclash
    exact (h (by rw [hsymm, hclash])).symm
  exact h.apart.forall hs ht hne hclash

theorem Fits.place (h : R.Fits placed) (hc : R.search placed k fuel 0 = some c) :
    R.Fits (placed ++ [⟨c, c + R.need k, k⟩]) := by
  have hfree := search_free hc
  constructor
  · refine pairwise_append.mpr ⟨h.apart, pairwise_singleton _ _, ?_⟩
    intro s hs t ht hclash
    obtain rfl := mem_singleton.mp ht
    exact (blocks_eq_false (hfree s hs) hclash).symm
  · intro s hs
    rcases mem_append.mp hs with hs | hs
    · exact h.size s hs
    · obtain rfl := mem_singleton.mp hs
      rfl
  · intro s hs
    rcases mem_append.mp hs with hs | hs
    · exact h.aligned s hs
    · obtain rfl := mem_singleton.mp hs
      exact dvd_of_search h.dvd_stop (Nat.dvd_zero _) hc

theorem place_eq_some :
    R.place placed k = some slots ↔
      ∃ c, R.search placed k (placed.length + 1) 0 = some c ∧
        slots = placed ++ [⟨c, c + R.need k, k⟩] := by
  simp [Rules.place, eq_comm]

theorem foldlM_total (items : List κ) (placed : List (Slot κ)) :
    ∃ slots, items.foldlM R.place placed = some slots := by
  induction items generalizing placed with
  | nil => exact ⟨placed, rfl⟩
  | cons k rest ih =>
    obtain ⟨c, hc⟩ := search_total (R := R) placed k 0
    obtain ⟨slots, hslots⟩ := ih (placed ++ [⟨c, c + R.need k, k⟩])
    refine ⟨slots, ?_⟩
    rw [foldlM_cons, place_eq_some.mpr ⟨c, hc, rfl⟩]
    exact hslots

/-- Every list of items is placed. -/
theorem placeAll_total (items : List κ) : ∃ slots, R.placeAll items = some slots :=
  foldlM_total items []

theorem foldlM_fits (h : R.Fits placed) (hall : items.foldlM R.place placed = some slots) :
    R.Fits slots := by
  induction items generalizing placed with
  | nil => exact Option.some.inj hall ▸ h
  | cons k rest ih =>
    rw [foldlM_cons, Option.bind_eq_bind, Option.bind_eq_some_iff] at hall
    obtain ⟨next, hplace, hrest⟩ := hall
    obtain ⟨c, hc, rfl⟩ := place_eq_some.mp hplace
    exact ih (h.place hc) hrest

theorem placeAll_fits (h : R.placeAll items = some slots) : R.Fits slots := foldlM_fits fits_nil h

/-- What is placed stays. -/
theorem foldlM_prefix (hall : items.foldlM R.place placed = some slots) : placed <+: slots := by
  induction items generalizing placed with
  | nil => exact Option.some.inj hall ▸ prefix_refl placed
  | cons k rest ih =>
    rw [foldlM_cons, Option.bind_eq_bind, Option.bind_eq_some_iff] at hall
    obtain ⟨next, hplace, hrest⟩ := hall
    obtain ⟨c, -, rfl⟩ := place_eq_some.mp hplace
    exact (prefix_append placed _).trans (ih hrest)

/-- The items are placed in their order. -/
theorem foldlM_items (hall : items.foldlM R.place placed = some slots) :
    slots.map Slot.item = placed.map Slot.item ++ items := by
  induction items generalizing placed with
  | nil => simp [← Option.some.inj hall]
  | cons k rest ih =>
    rw [foldlM_cons, Option.bind_eq_bind, Option.bind_eq_some_iff] at hall
    obtain ⟨next, hplace, hrest⟩ := hall
    obtain ⟨c, -, rfl⟩ := place_eq_some.mp hplace
    rw [ih hrest]
    simp

theorem placeAll_items (h : R.placeAll items = some slots) : slots.map Slot.item = items := by
  simpa using foldlM_items h

end Rules

end FirstFit
