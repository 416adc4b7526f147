import Tenzor.Optim.SgdRuns

/-!
# Resuming from a saved optimizer

The learning rates of the groups are not saved. A fresh optimizer that loads what another one saved
goes on as that one would when the rates of the groups are those of the constructor.
-/

namespace Tenzor.Optim

open SGD List

variable {K : Type} [Field K] [LinearOrder K] {i j : ℕ} {v : Variable} {hp hp' : HP K} {g : List K}
  {t t' : Training K} {args : Arguments K}

def ParamGroup.withLr (g : ParamGroup K) (lr : K) : ParamGroup K := { g with lr }

/-- The same but for the learning rates of the groups. -/
structure SGD.Alike (o o' : SGD K) : Prop where
  parameters : o'.parameters = o.parameters
  lr : o'.lr = o.lr
  momentum : o'.momentum = o.momentum
  dampening : o'.dampening = o.dampening
  weightDecay : o'.weightDecay = o.weightDecay
  nesterov : o'.nesterov = o.nesterov
  buffers : o'.velocityBuffers = o.velocityBuffers
  flags : o'.velocityInitialized = o.velocityInitialized
  groups : o'.paramGroups.map (·.withLr 0) = o.paramGroups.map (·.withLr 0)

omit [LinearOrder K] in
theorem find?_map_withLr (groups : List (ParamGroup K)) (v : Variable) :
    (groups.map (·.withLr 0)).find? (fun g => some v ∈ g.params) =
      (groups.find? fun g => some v ∈ g.params).map (·.withLr 0) := by
  rw [find?_map]
  rfl

variable {o o' : SGD K}

omit [LinearOrder K] in
/-- A parameter has a group in both or in neither. -/
theorem SGD.Alike.find (h : Alike o o') (v : Variable) :
    (o'.findGroupForParam v).map (·.withLr 0) = (o.findGroupForParam v).map (·.withLr 0) := by
  rw [findGroupForParam, findGroupForParam, ← find?_map_withLr, ← find?_map_withLr, h.groups]

/-- The learning rate of the group of a parameter. -/
def SGD.groupLr (o : SGD K) (v : Variable) : Option K := (o.findGroupForParam v).map ParamGroup.lr

omit [LinearOrder K] in
theorem SGD.Alike.resolve (h : Alike o o') (v : Variable) :
    HP.Alike (o.resolve v) (o'.resolve v) ∧
      ((o'.resolve v).lr = (o.resolve v).lr ↔ o'.groupLr v = o.groupLr v) := by
  have hfind := h.find v
  unfold SGD.resolve groupLr
  cases hg : o.findGroupForParam v with
  | none =>
    rw [hg, Option.map_none, Option.map_eq_none_iff] at hfind
    simp only [hfind, h.lr, h.momentum, h.dampening, h.weightDecay, h.nesterov]
    exact ⟨⟨rfl, rfl, rfl, rfl⟩, by simp⟩
  | some g =>
    rw [hg, Option.map_some, Option.map_eq_some_iff] at hfind
    obtain ⟨g', hg', heq⟩ := hfind
    obtain ⟨hparams, -, hweight, hmomentum, hdampening, hnesterov⟩ := ParamGroup.mk.inj heq
    simp only [hg', h.momentum, h.dampening, h.nesterov, hweight, hmomentum, hdampening, hnesterov]
    exact ⟨⟨rfl, rfl, rfl, rfl⟩, by simp⟩

/-- The momentum buffers of the parameter are zero, and no gradient enters them any more. -/
structure AtRest (t : Training K) (v : Variable) : Prop where
  momentum : 0 < (t.opt.resolve v).momentum
  dampening : (t.opt.resolve v).dampening = 1
  nesterov : (t.opt.resolve v).nesterov = false
  buffers : ∀ i, t.opt.parameters[i]? = some (some v) →
    t.opt.velocityInitialized.getD i false = true ∧
      ∀ x ∈ t.opt.velocityBuffers.getD i [], x = 0

def Frozen (t : Training K) (v : Variable) : Prop := t.values v = [] ∨ AtRest t v

/-- What the learning rate is multiplied with in the update of entry `i`. -/
def entryGrad (hp : HP K) (i : ℕ) (g : List K) (o : SGD K) : List K :=
  if 0 < hp.momentum then
    effGrad hp (velocity hp (o.velocityInitialized.getD i false) (o.velocityBuffers.getD i []) g) g
  else g

theorem updateEntry_values (i : ℕ) (v : Variable) (hp : HP K) (g : List K) (t : Training K) :
    (updateEntry i v hp g t).values = Function.update t.values v
      (sub (t.values v) (scale (entryGrad hp i g t.opt) hp.lr)) := by
  unfold updateEntry entryGrad
  split
  · rfl
  · rfl

theorem getD_set {α : Type} {l : List α} {a d : α} :
    (l.set i a).getD j d = if i = j ∧ i < l.length then a else l.getD j d := by
  by_cases h : i = j ∧ i < l.length
  · obtain ⟨rfl, hlt⟩ := h
    rw [if_pos ⟨rfl, hlt⟩, getD_eq_getElem?_getD, getElem?_set_self hlt, Option.getD_some]
  · rw [if_neg h]
    by_cases hij : i = j
    · rw [set_eq_of_length_le (not_lt.mp fun hlt => h ⟨hij, hlt⟩)]
    · rw [getD_eq_getElem?_getD, getElem?_set_ne hij, getD_eq_getElem?_getD]

theorem updateEntry_buffer_of_ne (h : j ≠ i) :
    (updateEntry i v hp g t).opt.velocityBuffers.getD j [] =
      t.opt.velocityBuffers.getD j [] := by
  unfold updateEntry
  split
  · exact getD_set.trans (if_neg fun hij => h hij.1.symm)
  · rfl

theorem updateEntry_flag_of_ne (h : j ≠ i) :
    (updateEntry i v hp g t).opt.velocityInitialized.getD j false =
      t.opt.velocityInitialized.getD j false := by
  unfold updateEntry
  split
  · exact getD_set.trans (if_neg fun hij => h hij.1.symm)
  · rfl

theorem entryGrad_alike (hhp : HP.Alike hp hp') (h : o.Alike o') (i : ℕ) (g : List K) :
    entryGrad hp' i g o' = entryGrad hp i g o := by
  simp only [entryGrad, effGrad, velocity, hhp.momentum, hhp.dampening, hhp.nesterov, h.buffers,
    h.flags]

omit [LinearOrder K] in
theorem zero_of_mem_velocity {vel : List K} (hdampening : hp.dampening = 1)
    (hvel : ∀ x ∈ vel, x = 0) : ∀ x ∈ velocity hp true vel g, x = 0 := by
  intro x hx
  obtain ⟨k, hk, rfl⟩ := getElem_of_mem hx
  simp only [velocity, if_true, add, scale, getElem_zipWith, getElem_map, hdampening,
    sub_self, mul_zero, add_zero]
  rw [hvel _ (getElem_mem _), zero_mul]

theorem AtRest.zero_of_mem_entryGrad (h : AtRest t v) (hi : t.opt.parameters[i]? = some (some v))
    (g : List K) : ∀ x ∈ entryGrad (t.opt.resolve v) i g t.opt, x = 0 := by
  obtain ⟨hflag, hzero⟩ := h.buffers i hi
  rw [entryGrad, if_pos h.momentum, effGrad, h.nesterov, hflag]
  exact zero_of_mem_velocity h.dampening hzero

theorem Frozen.scale_eq (h : Frozen t v) (hi : t.opt.parameters[i]? = some (some v)) (g : List K)
    (lr lr' : K) :
    sub (t.values v) (scale (entryGrad (t.opt.resolve v) i g t.opt) lr) =
      sub (t.values v) (scale (entryGrad (t.opt.resolve v) i g t.opt) lr') := by
  rcases h with hnil | hrest
  · rw [hnil]
    rfl
  · refine congrArg (sub _) (map_congr_left fun x hx => ?_)
    rw [hrest.zero_of_mem_entryGrad hi g x hx, zero_mul, zero_mul]

theorem Frozen.updateEntry {w : Variable} (h : Frozen t v)
    (hi : t.opt.parameters[i]? = some (some w)) (g : List K) :
    Frozen (updateEntry i w (t.opt.resolve w) g t) v := by
  have hs := sameSettings_updateEntry i w (t.opt.resolve w) g t
  rcases h with hnil | hrest
  · refine .inl ?_
    rw [updateEntry_values]
    by_cases hv : v = w
    · subst hv
      rw [Function.update_self, hnil]
      rfl
    · rw [Function.update_of_ne hv, hnil]
  · refine .inr ⟨?_, ?_, ?_, fun j hj => ?_⟩
    · rw [hs.resolve]
      exact hrest.momentum
    · rw [hs.resolve]
      exact hrest.dampening
    · rw [hs.resolve]
      exact hrest.nesterov
    · rw [hs.parameters] at hj
      obtain ⟨hflag, hzero⟩ := hrest.buffers j hj
      by_cases hji : j = i
      · subst hji
        obtain rfl : w = v := by simpa using hi.symm.trans hj
        have hlt : j < t.opt.velocityInitialized.length := by
          by_contra hle
          rw [getD_eq_getElem?_getD, getElem?_eq_none (not_lt.mp hle)] at hflag
          exact nomatch hflag
        unfold SGD.updateEntry
        rw [if_pos hrest.momentum, hflag]
        refine ⟨by rw [getD_set, if_pos ⟨rfl, hlt⟩], ?_⟩
        rw [getD_set]
        split
        · exact zero_of_mem_velocity hrest.dampening hzero
        · exact hzero
      · rw [updateEntry_flag_of_ne hji, updateEntry_buffer_of_ne hji]
        exact ⟨hflag, hzero⟩

/-- The same values, and the same rates wherever they matter. -/
structure Agree (t t' : Training K) : Prop where
  values : t'.values = t.values
  alike : t.opt.Alike t'.opt
  rates : ∀ v, some v ∈ t.opt.parameters → t'.opt.groupLr v = t.opt.groupLr v ∨ Frozen t v

theorem SGD.Alike.updateEntry (h : t.opt.Alike t'.opt) (hhp : HP.Alike hp hp') :
    (SGD.updateEntry i v hp g t).opt.Alike (SGD.updateEntry i v hp' g t').opt := by
  unfold SGD.updateEntry
  simp only [hhp.momentum]
  split
  · refine ⟨h.parameters, h.lr, h.momentum, h.dampening, h.weightDecay, h.nesterov, ?_, ?_, h.groups⟩
    · simp only [velocity, h.buffers, h.flags, hhp.momentum, hhp.dampening]
    · simp only [h.flags]
  · exact h

omit [Field K] [LinearOrder K] in
theorem SGD.SameSettings.groupLr (h : SameSettings o o') (v : Variable) :
    o'.groupLr v = o.groupLr v := by
  rw [SGD.groupLr, SGD.groupLr, findGroupForParam, findGroupForParam, h.paramGroups]

theorem Agree.updateEntry (h : Agree t t') (hi : t.opt.parameters[i]? = some (some v))
    (g : List K) :
    Agree (SGD.updateEntry i v (t.opt.resolve v) g t)
      (SGD.updateEntry i v (t'.opt.resolve v) g t') := by
  obtain ⟨halike, hlr⟩ := h.alike.resolve v
  refine ⟨?_, h.alike.updateEntry halike, fun w hw => ?_⟩
  · rw [updateEntry_values, updateEntry_values, entryGrad_alike halike h.alike, h.values]
    rcases h.rates v (mem_of_getElem? hi) with heq | hfrozen
    · rw [hlr.mpr heq]
    · rw [hfrozen.scale_eq hi g _ (t.opt.resolve v).lr]
  · have hs := sameSettings_updateEntry i v (t.opt.resolve v) g t
    have hs' := sameSettings_updateEntry i v (t'.opt.resolve v) g t'
    rw [hs.parameters] at hw
    rw [hs.groupLr, hs'.groupLr]
    exact (h.rates w hw).imp_right fun hfrozen => hfrozen.updateEntry hi g

theorem Agree.stepImpl (h : Agree t t') (grads : Variable → Option (List K)) :
    Agree (SGD.stepImpl grads t) (SGD.stepImpl grads t') :=
  stepImpl_rel (G := fun _ _ => True) grads (fun _ _ h => h.values) (fun _ _ h => h.alike.parameters)
    (fun _ _ v h => (h.alike.resolve v).1) (fun _ _ _ _ _ _ => trivial)
    (fun _ _ _ _ g h hi _ => h.updateEntry hi g) h

/-- The learning rate of a group after the rate of the optimizer is set. -/
def rescale (old lr rate : K) : K := if old = 0 then lr else rate * (lr / old)

theorem find_setLr (lr : K) (o : SGD K) (v : Variable) :
    (o.setLr lr).findGroupForParam v =
      (o.findGroupForParam v).map fun g => g.withLr (rescale o.lr lr g.lr) := by
  rw [findGroupForParam, setLr, find?_map]
  rfl

theorem groupLr_setLr (lr : K) (o : SGD K) (v : Variable) :
    (o.setLr lr).groupLr v = (o.groupLr v).map (rescale o.lr lr) := by
  rw [groupLr, groupLr, find_setLr, Option.map_map, Option.map_map]
  rfl

theorem SGD.Alike.setLr (h : o.Alike o') (lr : K) : (o.setLr lr).Alike (o'.setLr lr) := by
  refine ⟨h.parameters, rfl, h.momentum, h.dampening, h.weightDecay, h.nesterov, h.buffers, h.flags,
    ?_⟩
  rw [SGD.setLr, SGD.setLr, map_map, map_map]
  exact h.groups

theorem resolve_setLr (lr : K) (o : SGD K) (v : Variable) :
    HP.Alike (o.resolve v) ((o.setLr lr).resolve v) := by
  unfold SGD.resolve
  rw [find_setLr]
  cases o.findGroupForParam v with
  | none => exact ⟨rfl, rfl, rfl, rfl⟩
  | some g => exact ⟨rfl, rfl, rfl, rfl⟩

theorem AtRest.setLr (h : AtRest t v) (lr : K) :
    AtRest ⟨t.opt.setLr lr, t.values⟩ v where
  momentum := by
    rw [(resolve_setLr lr t.opt v).momentum]
    exact h.momentum
  dampening := (resolve_setLr lr t.opt v).dampening.trans h.dampening
  nesterov := (resolve_setLr lr t.opt v).nesterov.trans h.nesterov
  buffers := h.buffers

theorem Agree.setLr (h : Agree t t') (lr : K) :
    Agree ⟨t.opt.setLr lr, t.values⟩ ⟨t'.opt.setLr lr, t'.values⟩ := by
  refine ⟨h.values, h.alike.setLr lr, fun v hv => ?_⟩
  rcases h.rates v hv with heq | hnil | hrest
  · rw [groupLr_setLr, groupLr_setLr, heq, h.alike.lr]
    exact .inl rfl
  · exact .inr (.inl hnil)
  · exact .inr (.inr (hrest.setLr lr))

theorem Agree.run (h : Agree t t') (actions : List (Action K)) :
    Agree (t.run actions) (t'.run actions) := by
  induction actions generalizing t t' with
  | nil => exact h
  | cons a actions ih =>
    apply ih
    cases a with
    | step backward =>
      simp only [Training.act, h.values]
      exact h.stepImpl _
    | setLr lr => exact h.setLr lr

/-- The training after a history. -/
def trained (args : Arguments K) (values : Variable → List K) (history : List (Action K)) :
    Training K :=
  Training.run ⟨construct args values, values⟩ history

/-- An optimizer that is constructed with the same arguments and the saved parameters loads the
saved state, and from then on makes the same parameters as the one that was saved. -/
def Resumes (args : Arguments K) (t : Training K) : Prop :=
  ∃ opt, (construct args t.values).loadStateDict t.opt.stateDict = .ok opt ∧
    ∀ actions, (Training.run ⟨opt, t.values⟩ actions).values = (t.run actions).values

/-- The groups have the learning rates that they were constructed with, as far as they matter. -/
def RatesKept (args : Arguments K) (t : Training K) : Prop :=
  ∀ v, some v ∈ args.parameters →
    (construct args t.values).groupLr v = t.opt.groupLr v ∨ Frozen t v

/-- What a run of an optimizer leaves as the arguments said. -/
structure Derived (args : Arguments K) (o : SGD K) : Prop where
  parameters : o.parameters = args.parameters
  groups : o.paramGroups.map (·.withLr 0) = args.paramGroups.map (·.withLr 0)

theorem derived_run (h : Derived args t.opt) (actions : List (Action K)) :
    Derived args (t.run actions).opt := by
  induction actions generalizing t with
  | nil => exact h
  | cons a actions ih =>
    apply ih
    cases a with
    | step backward =>
      have hs := sameSettings_stepImpl (backward.grads t.values) t
      exact ⟨hs.parameters.trans h.parameters, (congrArg _ hs.paramGroups).trans h.groups⟩
    | setLr lr =>
      refine ⟨h.parameters, ?_⟩
      rw [Training.act, SGD.setLr, map_map]
      exact h.groups

theorem SGD.Shaped.run {size : Variable → ℕ} (h : Shaped size t) (actions : List (Action K)) :
    Shaped size (t.run actions) := by
  induction actions generalizing t with
  | nil => exact h
  | cons a actions ih =>
    apply ih
    cases a with
    | step backward =>
      exact h.stepImpl fun v g hg => (backward.length_eq _ v g hg).trans (h.values v)
    | setLr lr => exact ⟨h.buffers, h.flags, h.values, h.velocity⟩

/-- What the loaded optimizer is. -/
theorem load_trained (args : Arguments K) (values : Variable → List K) (history : List (Action K)) :
    ∃ opt, (construct args (trained args values history).values).loadStateDict
        (trained args values history).opt.stateDict = .ok opt ∧
      (trained args values history).opt.Alike opt ∧
      ∀ v, opt.groupLr v = (construct args (trained args values history).values).groupLr v := by
  have hshaped : Shaped _ (trained args values history) := (shaped_construct args values).run history
  have hderived : Derived args (trained args values history).opt := derived_run ⟨rfl, rfl⟩ history
  refine ⟨_, loadStateDict_stateDict hshaped.buffers hshaped.flags ?_, ?_, fun v => rfl⟩
  · rw [hshaped.buffers, hderived.parameters]
    exact length_map _
  · exact ⟨hderived.parameters.symm, rfl, rfl, rfl, rfl, rfl, rfl, rfl, hderived.groups.symm⟩

theorem resumes_of_ratesKept {values : Variable → List K} {history : List (Action K)}
    (h : RatesKept args (trained args values history)) :
    Resumes args (trained args values history) := by
  obtain ⟨opt, hload, halike, hlr⟩ := load_trained args values history
  have hderived : Derived args (trained args values history).opt := derived_run ⟨rfl, rfl⟩ history
  refine ⟨opt, hload, fun actions => ?_⟩
  have hagree : Agree (trained args values history) ⟨opt, (trained args values history).values⟩ := by
    refine ⟨rfl, halike, fun v hv => ?_⟩
    rw [hderived.parameters] at hv
    rw [hlr]
    exact h v hv
  exact (hagree.run actions).values

end Tenzor.Optim
