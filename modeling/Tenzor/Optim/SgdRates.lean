import Tenzor.Optim.SgdResume

/-!
# Which learning rates make a difference

When every parameter is in the list once, a gradient for one parameter alone tells any two learning
rates of it apart, unless it has no elements or its momentum buffer is zero for good.
-/

namespace Tenzor.Optim

open SGD List

variable {K : Type} [Field K] [LinearOrder K] {grads : Variable → Option (List K)} {g : List K}
  {k : ℕ} {hp : HP K}

theorem foldl_collect_of_notMem {v : Variable} (hgrads : ∀ w, w ≠ v → grads w = none)
    {l : List (Option Variable × ℕ)} (h : ∀ e ∈ l, e.1 ≠ some v)
    (acc : Training K × List (CpuEntry K)) : l.foldl (collect grads) acc = acc := by
  induction l generalizing acc with
  | nil => rfl
  | cons e l ih =>
    obtain ⟨he, hl⟩ := forall_mem_cons.mp h
    have hskip : collect grads acc e = acc := by
      unfold collect
      cases hp : e.1 with
      | none => rfl
      | some w => simp only [hgrads w fun hw => he (hp.trans (congrArg some hw))]
    rw [foldl_cons, hskip, ih hl]

/-- The list has the parameter at `i` and nowhere else. -/
def OnlyAt (params : List (Option Variable)) (i : ℕ) (v : Variable) : Prop :=
  ∀ j, params[j]? = some (some v) ↔ j = i

theorem stepImpl_only {v : Variable} (hgrads : ∀ w, w ≠ v → grads w = none) (hg : grads v = some g)
    {t : Training K} {i : ℕ} (hi : OnlyAt t.opt.parameters i v) :
    stepImpl grads t = updateEntry i v (t.opt.resolve v)
      (decayed (t.opt.resolve v) (t.values v) g) t := by
  have hat : t.opt.parameters[i]? = some (some v) := (hi i).mpr rfl
  obtain ⟨hlt, hget⟩ := List.getElem?_eq_some_iff.mp hat
  have hsplit : t.opt.parameters =
      t.opt.parameters.take i ++ some v :: t.opt.parameters.drop (i + 1) := by
    rw [← hget, getElem_cons_drop, take_append_drop]
  have hbefore : ∀ e ∈ (t.opt.parameters.take i).zipIdx, e.1 ≠ some v := by
    rintro ⟨p, j⟩ he rfl
    have hj := mem_zipIdx_iff_getElem?.mp he
    have hlt' : j < i := lt_of_lt_of_le (List.getElem?_eq_some_iff.mp hj).1 (length_take_le _ _)
    rw [getElem?_take_of_lt hlt'] at hj
    exact hlt'.ne ((hi j).mp hj)
  have hafter : ∀ e ∈ (t.opt.parameters.drop (i + 1)).zipIdx (i + 1), e.1 ≠ some v := by
    rintro ⟨p, j⟩ he rfl
    obtain ⟨hle, hj⟩ := mk_mem_zipIdx_iff_le_and_getElem?_sub.mp he
    rw [getElem?_drop, Nat.add_sub_cancel' hle] at hj
    exact absurd ((hi j).mp hj) (by omega)
  have hlen : (t.opt.parameters.take i).length = i := length_take_of_le hlt.le
  have hcollect : t.opt.parameters.zipIdx.foldl (collect grads) (t, []) =
      collect grads (t, []) (some v, i) := by
    rw [hsplit, zipIdx_append, foldl_append, foldl_collect_of_notMem hgrads hbefore,
      zipIdx_cons, foldl_cons, hlen, Nat.zero_add,
      foldl_collect_of_notMem hgrads hafter]
  rw [stepImpl_eq, hcollect]
  simp only [collect, hg]
  split
  · rfl
  · rfl

def velocityAt (hp : HP K) (initialized : Bool) (x d : K) : K :=
  if initialized then x * hp.momentum + d * (1 - hp.dampening) else d

/-- What the learning rate is multiplied with at an element with gradient `d` and momentum `x`. -/
def gradAt (hp : HP K) (initialized : Bool) (x d : K) : K :=
  if 0 < hp.momentum then
    if hp.nesterov then d + velocityAt hp initialized x d * hp.momentum
    else velocityAt hp initialized x d
  else d

omit [LinearOrder K] in
theorem getElem_velocity (hp : HP K) (initialized : Bool) {vel : List K} (hk : k < g.length)
    (hvel : vel.length = g.length) :
    (velocity hp initialized vel g)[k]? = some (velocityAt hp initialized (vel.getD k 0) g[k]) := by
  have hk' : k < vel.length := hvel ▸ hk
  cases initialized with
  | false => exact getElem?_eq_getElem hk
  | true =>
    simp [velocity, velocityAt, add, scale, getElem?_zipWith, getElem?_eq_getElem hk,
      getElem?_eq_getElem hk']

theorem getElem_entryGrad (hp : HP K) {i : ℕ} {o : SGD K} (hk : k < g.length)
    (hvel : (o.velocityBuffers.getD i []).length = g.length) :
    (entryGrad hp i g o)[k]? = some (gradAt hp (o.velocityInitialized.getD i false)
      ((o.velocityBuffers.getD i []).getD k 0) g[k]) := by
  have hvelocity := getElem_velocity hp (o.velocityInitialized.getD i false) hk hvel
  unfold entryGrad gradAt effGrad
  split
  · split
    · simp only [add, scale, getElem?_zipWith, getElem?_map, hvelocity,
        getElem?_eq_getElem hk]
      rfl
    · exact hvelocity
  · exact getElem?_eq_getElem hk

/-- Only a buffer that is zero and that no gradient enters at once keeps an element as it is for
every gradient. -/
theorem dead_of_gradAt_eq_zero [IsStrictOrderedRing K] {initialized : Bool} {x : K}
    (h : ∀ d, gradAt hp initialized x d = 0) :
    0 < hp.momentum ∧ initialized = true ∧ x = 0 ∧
      (if hp.nesterov then 1 + (1 - hp.dampening) * hp.momentum = 0 else hp.dampening = 1) := by
  have hzero := h 0
  have hone := h 1
  unfold gradAt velocityAt at hzero hone
  by_cases hmomentum : 0 < hp.momentum
  · have hne : hp.momentum ≠ 0 := hmomentum.ne'
    cases initialized with
    | false =>
      cases hn : hp.nesterov with
      | false => simp [hmomentum, hn] at hone
      | true =>
        simp only [hmomentum, hn, if_true, Bool.false_eq_true, if_false, one_mul] at hone
        linarith
    | true =>
      cases hn : hp.nesterov with
      | false =>
        simp only [hmomentum, hn, if_true, Bool.false_eq_true, if_false, zero_mul, add_zero,
          one_mul] at hzero hone
        have hx : x = 0 := (mul_eq_zero.mp hzero).resolve_right hne
        refine ⟨hmomentum, rfl, hx, ?_⟩
        rw [if_neg Bool.false_ne_true]
        linarith
      | true =>
        simp only [hmomentum, hn, if_true, zero_mul, add_zero, zero_add, one_mul] at hzero hone
        have hx : x = 0 :=
          (mul_eq_zero.mp ((mul_eq_zero.mp hzero).resolve_right hne)).resolve_right hne
        refine ⟨hmomentum, rfl, hx, ?_⟩
        rw [hx, zero_mul, zero_add] at hone
        exact hone
  · rw [if_neg hmomentum] at hone
    exact absurd hone one_ne_zero

/-- A gradient for one parameter that is `δ` after the weight decay. -/
def impulse (hp : HP K) (v : Variable) (δ : ℕ → K) : Backward K where
  grads values w :=
    if w = v then
      some ((values w).mapIdx fun k x =>
        if 0 < hp.weightDecay then δ k - x * hp.weightDecay else δ k)
    else none
  length_eq values w g h := by
    split at h
    · obtain rfl := Option.some.inj h
      exact length_mapIdx
    · exact nomatch h

theorem decayed_impulse (p : List K) (δ : ℕ → K) :
    decayed hp p (p.mapIdx fun k x =>
      if 0 < hp.weightDecay then δ k - x * hp.weightDecay else δ k) = p.mapIdx fun k _ => δ k := by
  unfold decayed
  split
  · apply ext_getElem
    · simp [add, scale]
    · simp [add, scale]
  · rfl

variable {size : Variable → ℕ} {t t' : Training K} {i : ℕ} {v : Variable}

theorem act_impulse (hi : OnlyAt t.opt.parameters i v)
    (hweight : (t.opt.resolve v).weightDecay = hp.weightDecay) (δ : ℕ → K) :
    t.act (.step (impulse hp v δ)) = updateEntry i v (t.opt.resolve v)
      ((t.values v).mapIdx fun k _ => δ k) t := by
  have hnone : ∀ w, w ≠ v → (impulse hp v δ).grads t.values w = none := fun w hw => if_neg hw
  refine (stepImpl_only hnone (if_pos rfl) hi).trans ?_
  rw [← hweight, decayed_impulse]

theorem values_impulse (hp : HP K) (h : Shaped size t) (hi : OnlyAt t.opt.parameters i v)
    (hweight : (t.opt.resolve v).weightDecay = hp.weightDecay) (δ : ℕ → K) (hk : k < size v) :
    ((t.act (.step (impulse hp v δ))).values v)[k]? = some ((t.values v).getD k 0 -
      gradAt (t.opt.resolve v) (t.opt.velocityInitialized.getD i false)
        ((t.opt.velocityBuffers.getD i []).getD k 0) (δ k) * (t.opt.resolve v).lr) := by
  have hlen : (t.values v).length = size v := h.values v
  have hk' : k < (t.values v).length := hlen ▸ hk
  have hgrad := getElem_entryGrad (t.opt.resolve v) (i := i) (o := t.opt) (k := k)
    (g := (t.values v).mapIdx fun k _ => δ k) (by simpa using hk')
    (by rw [h.velocity i v ((hi i).mpr rfl), length_mapIdx, hlen])
  rw [act_impulse hi hweight, updateEntry_values]
  simp [sub, scale, getElem?_zipWith, hgrad, getElem?_eq_getElem hk']

/-- Two trainings that every action takes to the same values have the same rate for a parameter, or
its elements stay what they are. -/
theorem lr_eq_or_dead (h : Shaped size t) (halike : t.opt.Alike t'.opt)
    (hvalues : t'.values = t.values) (hi : OnlyAt t.opt.parameters i v)
    (hsame : ∀ a, (t'.act a).values = (t.act a).values) :
    (t'.opt.resolve v).lr = (t.opt.resolve v).lr ∨ ∀ k < size v, ∀ d,
      gradAt (t.opt.resolve v) (t.opt.velocityInitialized.getD i false)
        ((t.opt.velocityBuffers.getD i []).getD k 0) d = 0 := by
  by_contra hne
  rw [not_or] at hne
  obtain ⟨hlr, hmoving⟩ := hne
  push Not at hmoving
  obtain ⟨k, hk, d, hd⟩ := hmoving
  have h' : Shaped size t' := by
    refine ⟨?_, ?_, fun w => hvalues ▸ h.values w, ?_⟩
    · rw [halike.buffers, halike.parameters, h.buffers]
    · rw [halike.flags, halike.parameters, h.flags]
    · rw [halike.buffers, halike.parameters]
      exact h.velocity
  have hhp := (halike.resolve v).1
  have hvalue := values_impulse (t.opt.resolve v) h hi rfl (fun _ => d) hk
  have hvalue' := values_impulse (t.opt.resolve v) h' (halike.parameters.symm ▸ hi)
    hhp.weightDecay (fun _ => d) hk
  have hgrad (initialized : Bool) (x : K) : gradAt (t'.opt.resolve v) initialized x d =
      gradAt (t.opt.resolve v) initialized x d := by
    simp only [gradAt, velocityAt, hhp.momentum, hhp.dampening, hhp.nesterov]
  rw [hsame, hvalue, hvalues, halike.flags, halike.buffers, hgrad, Option.some_inj,
    sub_right_inj] at hvalue'
  exact hlr (mul_left_cancel₀ hd hvalue').symm

theorem groupLr_eq_or_frozen [IsStrictOrderedRing K] (h : Shaped size t)
    (halike : t.opt.Alike t'.opt) (hvalues : t'.values = t.values)
    (hi : OnlyAt t.opt.parameters i v)
    (hsame : ∀ actions, (t'.run actions).values = (t.run actions).values) :
    t'.opt.groupLr v = t.opt.groupLr v ∨ Frozen t v := by
  by_cases hlr : (t'.opt.resolve v).lr = (t.opt.resolve v).lr
  · exact .inl ((halike.resolve v).2.mp hlr)
  by_cases hnil : t.values v = []
  · exact .inr (.inl hnil)
  have hpos : 0 < size v := by
    rw [← h.values v]
    exact length_pos_of_ne_nil hnil
  have hdead := (lr_eq_or_dead h halike hvalues hi fun a => hsame [a]).resolve_left hlr
  obtain ⟨hmomentum, hflag, hx, hrest⟩ := dead_of_gradAt_eq_zero (hdead 0 hpos)
  cases hn : (t.opt.resolve v).nesterov with
  | false =>
    rw [hn] at hrest
    refine .inr (.inr ⟨hmomentum, hrest, hn, fun j hj => ?_⟩)
    obtain rfl := (hi j).mp hj
    refine ⟨hflag, fun x hx => ?_⟩
    obtain ⟨k, hk, rfl⟩ := getElem_of_mem hx
    rw [h.velocity j v hj] at hk
    have hzero := (dead_of_gradAt_eq_zero (hdead k hk)).2.2.1
    rwa [getD_eq_getElem?_getD, getElem?_eq_getElem] at hzero
  | true =>
    -- A gradient enters the buffer without moving the parameter, and the step after it does.
    rw [hn] at hrest
    exfalso
    have hat : t.opt.parameters[i]? = some (some v) := (hi i).mpr rfl
    have hone : ((t.values v).mapIdx fun _ _ => (1 : K)).length = size v := by
      rw [length_mapIdx, h.values]
    let a : Action K := .step (impulse (t.opt.resolve v) v fun _ => 1)
    have hact : t.act a = updateEntry i v (t.opt.resolve v) ((t.values v).mapIdx fun _ _ => 1) t :=
      act_impulse hi rfl fun _ => 1
    have hact' : t'.act a =
        updateEntry i v (t'.opt.resolve v) ((t'.values v).mapIdx fun _ _ => 1) t' :=
      act_impulse (halike.parameters.symm ▸ hi) (halike.resolve v).1.weightDecay fun _ => 1
    have hs : SameSettings t.opt (t.act a).opt := hact ▸ sameSettings_updateEntry ..
    have hs' : SameSettings t'.opt (t'.act a).opt := hact' ▸ sameSettings_updateEntry ..
    have halike₁ : (t.act a).opt.Alike (t'.act a).opt := by
      rw [hact, hact', hvalues]
      exact halike.updateEntry (halike.resolve v).1
    have hshaped₁ : Shaped size (t.act a) := hact ▸ h.updateEntry hat hone
    have hdead₁ := lr_eq_or_dead hshaped₁ halike₁ (hsame [a]) (hs.parameters.symm ▸ hi)
      fun b => hsame [a, b]
    rw [hs.resolve, hs'.resolve] at hdead₁
    have hx₁ := (dead_of_gradAt_eq_zero (hdead₁.resolve_left hlr 0 hpos)).2.2.1
    have hvelocity := getElem_velocity (t.opt.resolve v) true (k := 0)
      (hone ▸ hpos) ((h.velocity i v hat).trans hone.symm)
    have hlt : i < t.opt.velocityBuffers.length := by
      rw [h.buffers]
      exact (List.getElem?_eq_some_iff.mp hat).1
    rw [hact, updateEntry, if_pos hmomentum, hflag, getD_set, if_pos ⟨rfl, hlt⟩,
      getD_eq_getElem?_getD, hvelocity, Option.getD_some, velocityAt, if_pos rfl, hx,
      zero_mul, zero_add, getElem_mapIdx, one_mul] at hx₁
    rw [hx₁, zero_mul, add_zero] at hrest
    exact one_ne_zero hrest

section Saved

variable {args : Arguments K} {values : Variable → List K} {history : List (Action K)}

theorem groupLr_of_resumes [IsStrictOrderedRing K] (hi : OnlyAt args.parameters i v)
    (h : Resumes args (trained args values history)) :
    (construct args (trained args values history).values).groupLr v =
        (trained args values history).opt.groupLr v ∨
      Frozen (trained args values history) v := by
  have hshaped : Shaped _ (trained args values history) := (shaped_construct args values).run history
  have hderived : Derived args (trained args values history).opt := derived_run ⟨rfl, rfl⟩ history
  obtain ⟨opt, hload, halike, hlr⟩ := load_trained args values history
  obtain ⟨opt', hload', hsame⟩ := h
  obtain rfl : opt = opt' := Except.ok.inj (hload.symm.trans hload')
  rw [← hlr]
  have hinto : ∀ actions, (Training.run ⟨opt, (trained args values history).values⟩ actions).values =
      ((trained args values history).run actions).values := hsame
  refine groupLr_eq_or_frozen hshaped ?_ ?_ (hderived.parameters.symm ▸ hi) hinto
  · exact halike
  · rfl

/-- Kept rates are enough, and necessary for parameters that are in the list once. -/
theorem resumes_exactly [IsStrictOrderedRing K] (args : Arguments K) (values : Variable → List K)
    (history : List (Action K)) :
    (RatesKept args (trained args values history) → Resumes args (trained args values history)) ∧
      ((∀ v, some v ∈ args.parameters → ∃ i, OnlyAt args.parameters i v) →
        Resumes args (trained args values history) →
          RatesKept args (trained args values history)) := by
  refine ⟨resumes_of_ratesKept, fun honce h v hv => ?_⟩
  obtain ⟨i, hi⟩ := honce v hv
  exact groupLr_of_resumes hi h

end Saved

def weight : Variable := ⟨0, .float32⟩

/-- One group with the learning rate 1. -/
def oneGroup : Arguments ℚ := SGD.grouped [⟨[some weight], 1, 0, none, none, none⟩] 1 0 0 0 false

theorem onlyAt_oneGroup (v : Variable) (h : some v ∈ oneGroup.parameters) :
    ∃ i, OnlyAt oneGroup.parameters i v := by
  obtain rfl : v = weight := by simpa [oneGroup, SGD.grouped] using h
  refine ⟨0, fun j => ?_⟩
  cases j with
  | zero => simp [oneGroup, SGD.grouped]
  | succ j => simp [oneGroup, SGD.grouped]

/-- The group with a momentum. -/
def momentumGroup : Arguments ℚ :=
  SGD.grouped [⟨[some weight], 1, 0, none, none, none⟩] 1 (1 / 2) 0 0 false

/-- The rate is set away and back. -/
def awayAndBack : List (Action ℚ) :=
  [.step (ones [weight]), .setLr (1 / 2), .step (ones [weight]), .setLr 1]

theorem resumes_exactly_oneGroup :
    (trained momentumGroup (fun _ => [1]) awayAndBack).values weight = [-3 / 4] ∧
      Resumes momentumGroup (trained momentumGroup (fun _ => [1]) awayAndBack) ∧
      RatesKept momentumGroup (trained momentumGroup (fun _ => [1]) awayAndBack) := by
  have hexact := resumes_exactly momentumGroup (fun _ => [1]) awayAndBack
  have hkept : RatesKept momentumGroup (trained momentumGroup (fun _ => [1]) awayAndBack) := by
    intro v hv
    obtain rfl : v = weight := by simpa [momentumGroup, SGD.grouped] using hv
    exact .inl (by decide +kernel)
  have hresumes := hexact.1 hkept
  exact ⟨by decide +kernel, hresumes, hexact.2 onlyAt_oneGroup hresumes⟩

/-- A rate that was set before saving is gone after loading. -/
theorem not_resumes_setLr :
    ¬ Resumes oneGroup (trained oneGroup (fun _ => [1]) [.setLr (1 / 2)]) := by
  intro h
  obtain ⟨i, hi⟩ := onlyAt_oneGroup weight (by simp [oneGroup, SGD.grouped])
  rcases groupLr_of_resumes hi h with hlr | hnil | hrest
  · have hfresh : (construct oneGroup (trained oneGroup (fun _ => [1]) [.setLr (1 / 2)]).values).groupLr
        weight = some 1 := by
      simp [groupLr, findGroupForParam, construct, oneGroup, SGD.grouped]
    have hsaved : (trained oneGroup (fun _ => [1]) [.setLr (1 / 2)]).opt.groupLr weight =
        some (1 / 2) := by
      simp [trained, Training.run, Training.act, groupLr, findGroupForParam, SGD.setLr,
        construct, oneGroup, SGD.grouped]
    rw [hfresh, hsaved] at hlr
    norm_num at hlr
  · exact cons_ne_nil _ _ hnil
  · have hmomentum := hrest.momentum
    simp [trained, Training.run, Training.act, SGD.resolve, findGroupForParam, SGD.setLr,
      construct, oneGroup, SGD.grouped] at hmomentum

end Tenzor.Optim
