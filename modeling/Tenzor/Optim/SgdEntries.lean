import Tenzor.Lib.KeyedFold
import Tenzor.Optim.SgdResume
import Mathlib.Data.List.ReduceOption

/-!
# The entries of a step of the optimizer

A step collects gradients before it updates. It does what an update of one entry after another
does, in any order that keeps the order of the entries of each parameter.
-/

open Function (update_of_ne)

namespace Tenzor.Optim

open SGD List

variable {K : Type} [Field K] [LinearOrder K] {params : List (Option Variable)} {v w : Variable}
  {i j : ℕ} {e e' : Variable × ℕ} {l : List (Variable × ℕ)}

/-- The parameters with their places in the list. -/
def entries (params : List (Option Variable)) : List (Variable × ℕ) :=
  params.zipIdx.filterMap fun e => e.1.map (·, e.2)

theorem mem_entries : (v, i) ∈ entries params ↔ params[i]? = some (some v) := by
  simp only [entries, mem_filterMap, Option.map_eq_some_iff, Prod.exists]
  constructor
  · rintro ⟨p, j, hmem, w, rfl, hw⟩
    obtain ⟨rfl, rfl⟩ := Prod.mk.inj hw
    exact mem_zipIdx_iff_getElem?.mp hmem
  · exact fun h => ⟨some v, i, mem_zipIdx_iff_getElem?.mpr h, v, rfl, rfl⟩

theorem place_ne (he : e ∈ entries params) (he' : e' ∈ entries params) (h : e.1 ≠ e'.1) :
    e.2 ≠ e'.2 := by
  intro heq
  have hat := mem_entries.mp he
  rw [heq, mem_entries.mp he'] at hat
  exact h (Option.some.inj (Option.some.inj hat)).symm

/-- The places are those of the list, one after another. -/
theorem pairwise_entries (params : List (Option Variable)) :
    (entries params).Pairwise fun e e' => e.2 < e'.2 := by
  have hplaces : params.zipIdx.Pairwise fun e e' => e.2 < e'.2 := by
    have h := pairwise_lt_range' (s := 0) (n := params.length)
    rw [← zipIdx_map_snd] at h
    exact pairwise_map.mp h
  refine Pairwise.filterMap _ (fun e e' hlt x hx y hy => ?_) hplaces
  obtain ⟨v, -, rfl⟩ := Option.map_eq_some_iff.mp hx
  obtain ⟨w, -, rfl⟩ := Option.map_eq_some_iff.mp hy
  exact hlt

theorem map_fst_entries (params : List (Option Variable)) :
    (entries params).map Prod.fst = params.reduceOption := by
  have hfun : (fun e : Option Variable × ℕ => (e.1.map (·, e.2)).map Prod.fst) = id ∘ Prod.fst := by
    ext ⟨p, i⟩
    cases p <;> rfl
  rw [entries, map_filterMap, hfun, ← filterMap_map, zipIdx_map_fst]
  rfl

/-- An entry with a gradient is updated from what its parameter holds by now. -/
def updateNow (grads : Variable → Option (List K)) (t : Training K) (e : Variable × ℕ) :
    Training K :=
  match grads e.1 with
  | none => t
  | some g => updateEntry e.2 e.1 (t.opt.resolve e.1)
      (decayed (t.opt.resolve e.1) (t.values e.1) g) t

variable {grads : Variable → Option (List K)} {t u : Training K}

theorem sameSettings_updateNow (grads : Variable → Option (List K)) (t : Training K)
    (e : Variable × ℕ) : SameSettings t.opt (updateNow grads t e).opt := by
  unfold updateNow
  split
  · exact .refl _
  · exact sameSettings_updateEntry ..

theorem updateNow_values_of_ne (grads : Variable → Option (List K)) (t : Training K) (h : w ≠ e.1) :
    (updateNow grads t e).values w = t.values w := by
  unfold updateNow
  split
  · rfl
  · rw [updateEntry_values, update_of_ne h]

theorem updateNow_buffer_of_ne (h : j ≠ e.2) :
    (updateNow grads t e).opt.velocityBuffers.getD j [] = t.opt.velocityBuffers.getD j [] := by
  unfold updateNow
  split
  · rfl
  · exact updateEntry_buffer_of_ne h

theorem updateNow_flag_of_ne (h : j ≠ e.2) :
    (updateNow grads t e).opt.velocityInitialized.getD j false =
      t.opt.velocityInitialized.getD j false := by
  unfold updateNow
  split
  · rfl
  · exact updateEntry_flag_of_ne h

theorem updateEntry_comm (hij : i ≠ j) (hvw : v ≠ w) (hp hp' : HP K) (g g' : List K)
    (t : Training K) :
    updateEntry j w hp' g' (updateEntry i v hp g t) =
      updateEntry i v hp g (updateEntry j w hp' g' t) := by
  have hset {α : Type} (l : List α) (a b : α) : (l.set i a).set j b = (l.set j b).set i a :=
    set_comm a b hij
  have hvalues (x y : List K) : Function.update (Function.update t.values v x) w y =
      Function.update (Function.update t.values w y) v x := Function.update_comm hvw x y t.values
  by_cases hm : 0 < hp.momentum
  · by_cases hm' : 0 < hp'.momentum
    · simp [updateEntry, hm, hm', getD_eq_getElem?_getD, getElem?_set_ne hij,
        getElem?_set_ne hij.symm, update_of_ne hvw, update_of_ne hvw.symm,
        hset, hvalues]
    · simp [updateEntry, hm, hm', update_of_ne hvw, update_of_ne hvw.symm, hvalues]
  · by_cases hm' : 0 < hp'.momentum
    · simp [updateEntry, hm, hm', update_of_ne hvw, update_of_ne hvw.symm, hvalues]
    · simp [updateEntry, hm, hm', update_of_ne hvw, update_of_ne hvw.symm, hvalues]

theorem updateNow_comm (hplace : e.2 ≠ e'.2) (hvar : e.1 ≠ e'.1) (t : Training K) :
    updateNow grads (updateNow grads t e) e' = updateNow grads (updateNow grads t e') e := by
  have hs := (sameSettings_updateNow grads t e).resolve e'.1
  have hs' := (sameSettings_updateNow grads t e').resolve e.1
  have hv := updateNow_values_of_ne grads t hvar.symm
  have hv' := updateNow_values_of_ne grads t hvar
  cases hg : grads e.1 with
  | none => simp only [updateNow, hg]
  | some g =>
    cases hg' : grads e'.1 with
    | none => simp only [updateNow, hg, hg']
    | some g' =>
      simp only [updateNow, hg, hg'] at hs hs' hv hv' ⊢
      rw [hs, hs', hv, hv', updateEntry_comm hplace hvar]

/-- The entry is updated at once, not collected. -/
def isHalf (v : Variable) : Bool := optimStateDtype v.dtype ≠ v.dtype

/-- What is collected of the entries. -/
def collected (grads : Variable → Option (List K)) (t : Training K) (l : List (Variable × ℕ)) :
    List (CpuEntry K) :=
  (l.filter (!isHalf ·.1)).filterMap fun e => (grads e.1).map fun g =>
    ⟨e.1, decayed (t.opt.resolve e.1) (t.values e.1) g, e.2, t.opt.resolve e.1⟩

theorem collected_updateNow (h : isHalf e.1 = true) (l : List (Variable × ℕ)) :
    collected grads (updateNow grads t e) l = collected grads t l := by
  refine filterMap_congr fun e' he' => ?_
  have hne : e'.1 ≠ e.1 := by
    intro heq
    have hhalf := (mem_filter.mp he').2
    rw [heq, h] at hhalf
    exact Bool.false_ne_true hhalf
  rw [(sameSettings_updateNow grads t e).resolve, updateNow_values_of_ne grads t hne]

theorem foldl_collect (l : List (Option Variable × ℕ)) (cpu : List (CpuEntry K)) :
    l.foldl (collect grads) (t, cpu) =
      (((l.filterMap fun e => e.1.map (·, e.2)).filter (isHalf ·.1)).foldl (updateNow grads) t,
        cpu ++ collected grads t (l.filterMap fun e => e.1.map (·, e.2))) := by
  induction l generalizing t cpu with
  | nil => simp [collected]
  | cons e l ih =>
    obtain ⟨p, i⟩ := e
    cases p with
    | none => simpa [collect] using ih cpu
    | some v =>
      have hcons : (((some v, i) :: l).filterMap fun e => e.1.map (·, e.2)) =
          (v, i) :: l.filterMap fun e => e.1.map (·, e.2) := rfl
      rw [foldl_cons]
      cases hg : grads v with
      | none =>
        have hcollect : collect grads (t, cpu) (some v, i) = (t, cpu) := by simp [collect, hg]
        have hnow : updateNow grads t (v, i) = t := by simp [updateNow, hg]
        rw [hcollect, ih]
        cases hv : isHalf v with
        | true => simp [collected, hv, hnow]
        | false => simp [collected, hv, hg]
      | some g =>
        cases hv : isHalf v with
        | true =>
          have hcollect : collect grads (t, cpu) (some v, i) =
              (updateNow grads t (v, i), cpu) := by
            have hne : optimStateDtype v.dtype ≠ v.dtype := of_decide_eq_true hv
            simp [collect, updateNow, hg, hne]
          rw [hcollect, ih, collected_updateNow hv]
          simp [collected, hv]
        | false =>
          have hcollect : collect grads (t, cpu) (some v, i) = (t, cpu ++
              [⟨v, decayed (t.opt.resolve v) (t.values v) g, i, t.opt.resolve v⟩]) := by
            have heq : optimStateDtype v.dtype = v.dtype := by simpa [isHalf] using hv
            simp [collect, hg, heq]
          rw [hcollect, ih]
          simp [collected, hv, hg]

/-- The decayed gradient does not see what an update makes of the parameter. -/
def Steady (grads : Variable → Option (List K)) (t : Training K) (v : Variable) : Prop :=
  ∀ g, grads v = some g → ∀ p, p.length = (t.values v).length →
    decayed (t.opt.resolve v) p g = decayed (t.opt.resolve v) (t.values v) g

theorem steady_of_no_decay (h : ¬ 0 < (t.opt.resolve v).weightDecay) : Steady grads t v := by
  intro g hg p hp
  rw [decayed, decayed, if_neg h, if_neg h]

theorem steady_of_empty (h : t.values v = []) : Steady grads t v := by
  intro g hg p hp
  rw [h, length_nil, length_eq_zero_iff] at hp
  rw [hp, h]

/-- The list has the parameter in one place at most. -/
def Once (params : List (Option Variable)) (v : Variable) : Prop :=
  ∀ i j : ℕ, params[i]? = some (some v) → params[j]? = some (some v) → i = j

variable {size : Variable → ℕ}

theorem SGD.Shaped.updateNow (h : Shaped size t) (he : e ∈ entries t.opt.parameters)
    (hgrads : ∀ v g, grads v = some g → g.length = size v) : Shaped size (updateNow grads t e) := by
  unfold Optim.updateNow
  cases hg : grads e.1 with
  | none => exact h
  | some g =>
    apply h.updateEntry (mem_entries.mp he)
    rw [length_decayed ((hgrads e.1 g hg).trans (h.values e.1).symm), hgrads e.1 g hg]

theorem sameSettings_foldl (l : List (Variable × ℕ)) :
    SameSettings t.opt (l.foldl (updateNow grads) t).opt := by
  refine List.foldlRecOn (motive := fun u : Training K => SameSettings t.opt u.opt) l _ (.refl _)
    fun u hu e _ => ?_
  exact hu.trans (sameSettings_updateNow grads u e)

theorem SGD.Shaped.foldl (h : Shaped size t) (hl : ∀ e ∈ l, e ∈ entries t.opt.parameters)
    (hgrads : ∀ v g, grads v = some g → g.length = size v) :
    Shaped size (l.foldl (Optim.updateNow grads) t) := by
  refine (List.foldlRecOn (motive := fun u : Training K =>
    Shaped size u ∧ SameSettings t.opt u.opt) l _ ⟨h, .refl _⟩ fun u hu e he => ?_).1
  refine ⟨hu.1.updateNow ?_ hgrads, hu.2.trans (sameSettings_updateNow grads u e)⟩
  rw [hu.2.parameters]
  exact hl e he

theorem foldl_values_of_ne (h : ∀ e ∈ l, e.1 ≠ w) :
    (l.foldl (updateNow grads) t).values w = t.values w := by
  refine List.foldlRecOn (motive := fun u : Training K => u.values w = t.values w) l _ rfl
    fun u hu e he => ?_
  rw [updateNow_values_of_ne grads u (h e he).symm, hu]

/-- Collected entries are updated as if they had not been collected, unless one sees what another
one made of its parameter. -/
theorem foldl_collected (hshaped : Shaped size u) (hsize : ∀ v, (t.values v).length = size v)
    (hs : SameSettings t.opt u.opt) (hl : ∀ e ∈ l, e ∈ entries t.opt.parameters)
    (hgrads : ∀ v g, grads v = some g → g.length = size v)
    (hnow : ∀ e ∈ l, isHalf e.1 = false → u.values e.1 = t.values e.1 ∨ Steady grads t e.1)
    (hpair : l.Pairwise fun e e' => e.1 = e'.1 → isHalf e.1 = false → Steady grads t e.1) :
    (collected grads t l).foldl (fun u e => updateEntry e.idx e.param e.hp e.grad u) u =
      (l.filter (!isHalf ·.1)).foldl (updateNow grads) u := by
  induction l generalizing u with
  | nil => rfl
  | cons e l ih =>
    obtain ⟨hfirst, hpair⟩ := pairwise_cons.mp hpair
    obtain ⟨he, hnow⟩ := forall_mem_cons.mp hnow
    obtain ⟨hmem, hl⟩ := forall_mem_cons.mp hl
    cases hhalf : isHalf e.1 with
    | true =>
      have hskip : collected grads t (e :: l) = collected grads t l := by simp [collected, hhalf]
      rw [hskip, filter_cons_of_neg (by simp [hhalf])]
      exact ih hshaped hs hl hnow hpair
    | false =>
      rw [filter_cons_of_pos (by simp [hhalf]), foldl_cons]
      have hothers : ∀ e' ∈ l, isHalf e'.1 = false →
          (updateNow grads u e).values e'.1 = t.values e'.1 ∨ Steady grads t e'.1 := by
        intro e' he' hhalf'
        by_cases heq : e.1 = e'.1
        · exact .inr (heq ▸ hfirst e' he' heq hhalf)
        · rw [updateNow_values_of_ne grads u (Ne.symm heq)]
          exact hnow e' he' hhalf'
      rw [← ih (hshaped.updateNow (hs.parameters ▸ hmem) hgrads)
        (hs.trans (sameSettings_updateNow grads u e)) hl hothers hpair]
      cases hg : grads e.1 with
      | none => simp [collected, hhalf, hg, updateNow]
      | some g =>
        have hdecayed : decayed (t.opt.resolve e.1) (u.values e.1) g =
            decayed (t.opt.resolve e.1) (t.values e.1) g := by
          rcases he hhalf with hsame | hsteady
          · rw [hsame]
          · exact hsteady g hg _ ((hshaped.values e.1).trans (hsize e.1).symm)
        simp [collected, hhalf, hg, updateNow, hs.resolve, hdecayed]

theorem filter_key (p : Variable → Bool) (l : List (Variable × ℕ)) (v : Variable) :
    (l.filter (p ·.1)).filter (·.1 = v) = if p v then l.filter (·.1 = v) else [] := by
  rw [filter_filter]
  split
  · apply filter_congr
    rintro e -
    by_cases he : e.1 = v
    · simp_all
    · simp [he]
  · apply filter_eq_nil_iff.mpr
    rintro e -
    by_cases he : e.1 = v
    · simp_all
    · simp [he]

theorem filter_halves (l : List (Variable × ℕ)) (v : Variable) :
    (l.filter (isHalf ·.1) ++ l.filter (!isHalf ·.1)).filter (·.1 = v) = l.filter (·.1 = v) := by
  rw [filter_append, filter_key isHalf, filter_key fun w => !isHalf w]
  cases isHalf v with
  | true => simp
  | false => simp

/-- A step updates one entry after another, unless entries of one parameter would see
each other. -/
theorem stepImpl_eq_foldl (hshaped : Shaped size t)
    (hgrads : ∀ v g, grads v = some g → g.length = size v)
    (hseen : ∀ v, isHalf v = true ∨ Once t.opt.parameters v ∨ Steady grads t v) :
    stepImpl grads t = (entries t.opt.parameters).foldl (updateNow grads) t := by
  have hhalves : ∀ e ∈ (entries t.opt.parameters).filter (isHalf ·.1),
      e ∈ entries t.opt.parameters := fun e he => mem_of_mem_filter he
  rw [stepImpl_eq, foldl_collect]
  rw [nil_append, ← entries, foldl_collected (hshaped.foldl hhalves hgrads) hshaped.values
    (sameSettings_foldl _) (fun _ h => h) hgrads, ← foldl_append]
  · refine KeyedFold.foldl_eq_of_filter_eq Prod.fst (fun e he e' he' hne u => ?_)
      (filter_halves _) t
    have hmem {e : Variable × ℕ} (he : e ∈ (entries t.opt.parameters).filter (isHalf ·.1) ++
        (entries t.opt.parameters).filter (!isHalf ·.1)) : e ∈ entries t.opt.parameters :=
      (mem_append.mp he).elim mem_of_mem_filter mem_of_mem_filter
    exact updateNow_comm (place_ne (hmem he) (hmem he') hne) hne u
  · intro e he hhalf
    refine .inl (foldl_values_of_ne fun e' he' heq => ?_)
    have hhalf' := (mem_filter.mp he').2
    rw [heq, hhalf] at hhalf'
    exact Bool.false_ne_true hhalf'
  · refine (pairwise_entries _).imp_of_mem fun he he' hlt heq hhalf => ?_
    rcases hseen _ with hhalf' | honce | hsteady
    · exact absurd (hhalf.symm.trans hhalf') Bool.false_ne_true
    · refine absurd (honce _ _ (mem_entries.mp he) ?_) hlt.ne
      rw [heq]
      exact mem_entries.mp he'
    · exact hsteady

end Tenzor.Optim
