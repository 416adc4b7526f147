import Mathlib.Data.List.Basic

/-!
# Folds whose steps commute when their keys differ

Such a fold does not see how the steps of different keys are interleaved, only in which order the
steps of each key come.
-/

namespace KeyedFold

open List

variable {σ α κ : Type*} [DecidableEq κ] {f : σ → α → σ} {key : α → κ}

omit [DecidableEq κ] in
/-- A step can be taken before steps with other keys. -/
theorem foldl_step {a : α} {l : List α} (h : ∀ b ∈ l, ∀ s, f (f s b) a = f (f s a) b) (s : σ) :
    f (l.foldl f s) a = l.foldl f (f s a) := by
  induction l generalizing s with
  | nil => rfl
  | cons b l ih =>
    obtain ⟨hb, hl⟩ := forall_mem_cons.mp h
    rw [foldl_cons, foldl_cons, ih hl, hb]

variable (key) in
/-- Two lists with the same steps in the same order for each key. -/
theorem foldl_eq_of_filter_eq {l l' : List α}
    (hcomm : ∀ a ∈ l, ∀ b ∈ l, key a ≠ key b → ∀ s, f (f s a) b = f (f s b) a)
    (hkey : ∀ k, l.filter (key · = k) = l'.filter (key · = k)) (s : σ) :
    l.foldl f s = l'.foldl f s := by
  have hmem : ∀ b ∈ l', b ∈ l := fun b hb =>
    mem_of_mem_filter (by rw [hkey (key b)]; exact mem_filter.mpr ⟨hb, by simp⟩)
  induction l generalizing l' s with
  | nil =>
    cases l' with
    | nil => rfl
    | cons b l' => exact absurd (hmem b mem_cons_self) not_mem_nil
  | cons a l ih =>
    -- The first step with the key of `a` in the other list is `a`.
    have hfirst := hkey (key a)
    rw [filter_cons_of_pos (by simp)] at hfirst
    obtain ⟨before, after, rfl, hbefore, -, -⟩ := filter_eq_cons_iff.mp hfirst.symm
    have hother : ∀ b ∈ before, key b ≠ key a := fun b hb => by simpa using hbefore b hb
    have hrest (k : κ) : l.filter (key · = k) = (before ++ after).filter (key · = k) := by
      have hk := hkey k
      rw [filter_append, filter_cons, filter_cons] at hk
      rw [filter_append]
      by_cases hak : key a = k
      · subst hak
        have hnil : before.filter (key · = key a) = [] :=
          filter_eq_nil_iff.mpr fun b hb => by simpa using hother b hb
        rw [hnil] at hk ⊢
        simpa using hk
      · simpa [hak] using hk
    rw [foldl_cons, foldl_append, foldl_cons, foldl_step (f := f),
      ← foldl_append]
    · refine ih (fun b hb c hc => hcomm b (mem_cons_of_mem _ hb) c (mem_cons_of_mem _ hc))
        hrest _ fun b hb => ?_
      exact mem_of_mem_filter (p := (key · = key b))
        (by rw [hrest (key b)]; exact mem_filter.mpr ⟨hb, by simp⟩)
    · exact fun b hb s => hcomm b (hmem b (mem_append_left _ hb)) a mem_cons_self
        (hother b hb) s

/-- A stable sort keeps the order of the elements that it does not tell apart. -/
theorem filter_mergeSort {le : α → α → Bool} (htrans : ∀ a b c, le a b → le b c → le a c)
    (htotal : ∀ a b, le a b || le b a) (hkey : ∀ a b, key a = key b → le a b = true) (l : List α)
    (k : κ) : (l.mergeSort le).filter (key · = k) = l.filter (key · = k) := by
  have hpair : (l.filter (key · = k)).Pairwise fun a b => le a b = true := by
    refine pairwise_of_forall_mem_list fun a ha b hb => hkey a b ?_
    have ha' : key a = k := by simpa using (mem_filter.mp ha).2
    have hb' : key b = k := by simpa using (mem_filter.mp hb).2
    rw [ha', hb']
  have hsub : (l.filter (key · = k)).Sublist ((l.mergeSort le).filter (key · = k)) := by
    have h := (sublist_mergeSort htrans htotal hpair filter_sublist).filter (key · = k)
    rwa [filter_filter, filter_congr (q := (key · = k)) (by simp)] at h
  exact (hsub.eq_of_length ((mergeSort_perm l le).filter _).length_eq.symm).symm

end KeyedFold
