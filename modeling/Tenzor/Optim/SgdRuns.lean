import Tenzor.Optim.Sgd

/-!
# Runs of the optimizer

A run changes the buffers, the values and the learning rates, and nothing else. An optimizer that
loads what another one has saved takes over all but the learning rates of the groups.
-/

namespace Tenzor.Optim

open Throwing Scanner List

variable {K : Type} [Field K] [LinearOrder K]

namespace SGD

variable {o o' opt saved : SGD K} {G : Variable → List K → Prop} {t : Training K}
  {grads : Variable → Option (List K)} {g vel : List K} {size : Variable → ℕ} {i : ℕ}

/-- The same but for the buffers, and as many of them. -/
structure SameSettings (o o' : SGD K) : Prop where
  parameters : o'.parameters = o.parameters
  paramGroups : o'.paramGroups = o.paramGroups
  lr : o'.lr = o.lr
  momentum : o'.momentum = o.momentum
  dampening : o'.dampening = o.dampening
  weightDecay : o'.weightDecay = o.weightDecay
  nesterov : o'.nesterov = o.nesterov
  buffers : o'.velocityBuffers.length = o.velocityBuffers.length
  flags : o'.velocityInitialized.length = o.velocityInitialized.length

omit [Field K] [LinearOrder K] in
theorem SameSettings.refl (o : SGD K) : SameSettings o o := ⟨rfl, rfl, rfl, rfl, rfl, rfl, rfl, rfl, rfl⟩

omit [Field K] [LinearOrder K] in
theorem SameSettings.trans {o'' : SGD K} (h : SameSettings o o') (h' : SameSettings o' o'') :
    SameSettings o o'' where
  parameters := h'.parameters.trans h.parameters
  paramGroups := h'.paramGroups.trans h.paramGroups
  lr := h'.lr.trans h.lr
  momentum := h'.momentum.trans h.momentum
  dampening := h'.dampening.trans h.dampening
  weightDecay := h'.weightDecay.trans h.weightDecay
  nesterov := h'.nesterov.trans h.nesterov
  buffers := h'.buffers.trans h.buffers
  flags := h'.flags.trans h.flags

omit [Field K] [LinearOrder K] in
theorem SameSettings.resolve (h : SameSettings o o') (v : Variable) :
    o'.resolve v = o.resolve v := by
  simp only [SGD.resolve, findGroupForParam, h.paramGroups, h.lr, h.momentum, h.dampening,
    h.weightDecay, h.nesterov]

theorem sameSettings_updateEntry (i : ℕ) (v : Variable) (hp : HP K) (g : List K) (t : Training K) :
    SameSettings t.opt (updateEntry i v hp g t).opt := by
  unfold updateEntry
  split
  · exact ⟨rfl, rfl, rfl, rfl, rfl, rfl, rfl, length_set, length_set⟩
  · exact .refl _

theorem updateVanilla_eq {e : CpuEntry K} (h : ¬ 0 < e.hp.momentum) (t : Training K) :
    updateVanilla t e = updateEntry e.idx e.param e.hp e.grad t := by
  rw [updateVanilla, updateEntry, if_neg h]

/-- The collected entries are updated one after another, with or without a momentum. -/
theorem stepImpl_eq (grads : Variable → Option (List K)) (t : Training K) :
    stepImpl grads t =
      (t.opt.parameters.zipIdx.foldl (collect grads) (t, [])).2.foldl
        (fun t e => updateEntry e.idx e.param e.hp e.grad t)
        (t.opt.parameters.zipIdx.foldl (collect grads) (t, [])).1 := by
  unfold stepImpl
  generalize t.opt.parameters.zipIdx.foldl (collect grads) (t, []) = acc
  obtain ⟨t, cpu⟩ := acc
  by_cases hany : (cpu.any fun e => 0 < e.hp.momentum) = true
  · exact if_pos hany
  · refine (if_neg hany).trans ?_
    rw [any_eq_true, not_exists] at hany
    refine foldl_ext _ _ _ fun t e he => updateVanilla_eq (fun h => ?_) t
    exact hany e ⟨he, decide_eq_true h⟩

/-- Nothing but the learning rates differs. -/
structure HP.Alike (hp hp' : HP K) : Prop where
  momentum : hp'.momentum = hp.momentum
  weightDecay : hp'.weightDecay = hp.weightDecay
  dampening : hp'.dampening = hp.dampening
  nesterov : hp'.nesterov = hp.nesterov

/-- Collected entries of the same gradient, each with the parameters of its own optimizer. -/
structure Paired (o o' : SGD K) (G : Variable → List K → Prop) (e e' : CpuEntry K) : Prop where
  param : e'.param = e.param
  grad : e'.grad = e.grad
  idx : e'.idx = e.idx
  hp : e.hp = o.resolve e.param
  hp' : e'.hp = o'.resolve e.param
  at_idx : o.parameters[e.idx]? = some (some e.param)
  good : G e.param e.grad

structure Collected (R : Training K → Training K → Prop) (G : Variable → List K → Prop)
    (t t' : Training K) (acc acc' : Training K × List (CpuEntry K)) : Prop where
  related : R acc.1 acc'.1
  settings : SameSettings t.opt acc.1.opt
  settings' : SameSettings t'.opt acc'.1.opt
  entries : List.Forall₂ (Paired t.opt t'.opt G) acc.2 acc'.2

/-- What holds of two optimizers after each update of the same entry holds after a step with the
same gradients. -/
theorem stepImpl_rel {R : Training K → Training K → Prop} (grads : Variable → Option (List K))
    (hvalues : ∀ t t', R t t' → t'.values = t.values)
    (hparams : ∀ t t', R t t' → t'.opt.parameters = t.opt.parameters)
    (halike : ∀ t t' v, R t t' → HP.Alike (t.opt.resolve v) (t'.opt.resolve v))
    (hgrad : ∀ t t' v g, R t t' → grads v = some g →
      G v (decayed (t.opt.resolve v) (t.values v) g))
    (hupdate : ∀ t t' i v g, R t t' → t.opt.parameters[i]? = some (some v) → G v g →
      R (updateEntry i v (t.opt.resolve v) g t) (updateEntry i v (t'.opt.resolve v) g t'))
    {t' : Training K} (h : R t t') : R (stepImpl grads t) (stepImpl grads t') := by
  have hentry {u u' : Training K} {e e' : CpuEntry K} (hR : R u u')
      (hs : SameSettings t.opt u.opt) (hs' : SameSettings t'.opt u'.opt)
      (he : Paired t.opt t'.opt G e e') :
      R (updateEntry e.idx e.param e.hp e.grad u) (updateEntry e'.idx e'.param e'.hp e'.grad u') := by
    rw [he.idx, he.param, he.grad, he.hp, he.hp', ← hs.resolve, ← hs'.resolve]
    refine hupdate u u' e.idx e.param e.grad hR ?_ he.good
    rw [hs.parameters]
    exact he.at_idx
  have hcollect : Collected R G t t' (t.opt.parameters.zipIdx.foldl (collect grads) (t, []))
      (t'.opt.parameters.zipIdx.foldl (collect grads) (t', [])) := by
    rw [hparams t t' h]
    refine foldl_rel (r := Collected R G t t') ⟨h, .refl _, .refl _, .nil⟩ ?_
    rintro ⟨p, i⟩ hi ⟨u, cpu⟩ ⟨u', cpu'⟩ hacc
    obtain ⟨hR, hs, hs', hcpu⟩ := hacc
    have hat : t.opt.parameters[i]? = some p := mem_zipIdx_iff_getElem?.mp hi
    cases p with
    | none => exact ⟨hR, hs, hs', hcpu⟩
    | some v =>
      simp only [collect]
      cases hg : grads v with
      | none => exact ⟨hR, hs, hs', hcpu⟩
      | some g =>
        have hdecayed : decayed (u'.opt.resolve v) (u'.values v) g =
            decayed (u.opt.resolve v) (u.values v) g := by
          simp only [decayed, (halike u u' v hR).weightDecay, hvalues u u' hR]
        simp only [hdecayed]
        have hpair : Paired t.opt t'.opt G
            ⟨v, decayed (u.opt.resolve v) (u.values v) g, i, u.opt.resolve v⟩
            ⟨v, decayed (u.opt.resolve v) (u.values v) g, i, u'.opt.resolve v⟩ :=
          ⟨rfl, rfl, rfl, hs.resolve v, hs'.resolve v, hat, hgrad u u' v g hR hg⟩
        split
        · exact ⟨hentry hR hs hs' hpair, hs.trans (sameSettings_updateEntry ..),
            hs'.trans (sameSettings_updateEntry ..), hcpu⟩
        · exact ⟨hR, hs, hs', rel_append hcpu (.cons hpair .nil)⟩
  rw [stepImpl_eq, stepImpl_eq]
  obtain ⟨hR, hs, hs', hcpu⟩ := hcollect
  have hall : ∀ {cpu cpu' : List (CpuEntry K)} {u u' : Training K},
      List.Forall₂ (Paired t.opt t'.opt G) cpu cpu' → R u u' → SameSettings t.opt u.opt →
      SameSettings t'.opt u'.opt →
      R (cpu.foldl (fun t e => updateEntry e.idx e.param e.hp e.grad t) u)
        (cpu'.foldl (fun t e => updateEntry e.idx e.param e.hp e.grad t) u') := by
    intro cpu cpu' u u' hcpu
    induction hcpu generalizing u u' with
    | nil => exact fun hR _ _ => hR
    | cons he _ ih =>
      intro hR hs hs'
      exact ih (hentry hR hs hs' he) (hs.trans (sameSettings_updateEntry ..))
        (hs'.trans (sameSettings_updateEntry ..))
  exact hall hcpu hR hs hs'

/-- What holds of an optimizer after each update holds after a step. -/
theorem stepImpl_inv {P : Training K → Prop}
    (hgrad : ∀ t v g, P t → grads v = some g → G v (decayed (t.opt.resolve v) (t.values v) g))
    (hupdate : ∀ t i v g, P t → t.opt.parameters[i]? = some (some v) → G v g →
      P (updateEntry i v (t.opt.resolve v) g t))
    (h : P t) : P (stepImpl grads t) := by
  have hrel := stepImpl_rel (R := fun t t' => t' = t ∧ P t) (G := G) grads
    (fun _ _ h => h.1 ▸ rfl) (fun _ _ h => h.1 ▸ rfl) (fun _ _ _ h => h.1 ▸ ⟨rfl, rfl, rfl, rfl⟩)
    (fun t _ v g h hg => hgrad t v g h.2 hg) (fun t t' i v g h hi hg => ?_) ⟨rfl, h⟩
  · exact hrel.2
  · obtain ⟨rfl, hP⟩ := h
    exact ⟨rfl, hupdate _ i v g hP hi hg⟩

theorem sameSettings_stepImpl (grads : Variable → Option (List K)) (t : Training K) :
    SameSettings t.opt (stepImpl grads t).opt :=
  stepImpl_inv (P := fun u => SameSettings t.opt u.opt) (G := fun _ _ => True)
    (fun _ _ _ _ _ => trivial) (fun _ _ _ _ h _ _ => h.trans (sameSettings_updateEntry ..))
    (.refl _)

/-- Every entry has a buffer and a flag, and the buffers are as long as the parameters. -/
structure Shaped (size : Variable → ℕ) (t : Training K) : Prop where
  buffers : t.opt.velocityBuffers.length = t.opt.parameters.length
  flags : t.opt.velocityInitialized.length = t.opt.parameters.length
  values : ∀ v, (t.values v).length = size v
  velocity : ∀ i v, t.opt.parameters[i]? = some (some v) →
    (t.opt.velocityBuffers.getD i []).length = size v

variable {hp : HP K}

theorem length_decayed {param : List K} (h : g.length = param.length) :
    (decayed hp param g).length = g.length := by
  unfold decayed
  split
  · simp [add, scale, h]
  · rfl

omit [LinearOrder K] in
theorem length_velocity {initialized : Bool} (h : vel.length = g.length) :
    (velocity hp initialized vel g).length = g.length := by
  unfold velocity
  split
  · simp [add, scale, h]
  · rfl

omit [LinearOrder K] in
theorem length_effGrad (h : vel.length = g.length) : (effGrad hp vel g).length = g.length := by
  unfold effGrad
  split
  · simp [add, scale, h]
  · exact h

theorem Shaped.updateEntry (h : Shaped size t) {v : Variable}
    (hi : t.opt.parameters[i]? = some (some v)) (hg : g.length = size v) :
    Shaped size (updateEntry i v hp g t) := by
  have hsub {d : List K} (hd : d.length = size v) (w : Variable) :
      (Function.update t.values v (sub (t.values v) (scale d hp.lr)) w).length = size w := by
    by_cases hw : w = v
    · subst hw
      simp [sub, scale, hd, h.values]
    · rw [Function.update_of_ne hw, h.values]
  unfold SGD.updateEntry
  split
  · have hvel : (SGD.velocity hp (t.opt.velocityInitialized.getD i false)
        (t.opt.velocityBuffers.getD i []) g).length = size v := by
      rw [length_velocity ((h.velocity i v hi).trans hg.symm), hg]
    refine ⟨by simp [h.buffers], by simp [h.flags], hsub ?_, ?_⟩
    · rw [length_effGrad (hvel.trans hg.symm), hg]
    · intro j w hj
      by_cases hji : j = i
      · subst hji
        obtain rfl : v = w := by simpa using hi.symm.trans hj
        have hlt : j < t.opt.velocityBuffers.length := by
          rw [h.buffers]
          exact (List.getElem?_eq_some_iff.mp hj).1
        rw [getD_eq_getElem?_getD, getElem?_set_self hlt]
        exact hvel
      · rw [getD_eq_getElem?_getD, getElem?_set_ne (Ne.symm hji)]
        exact h.velocity j w hj
  · exact ⟨h.buffers, h.flags, hsub hg, h.velocity⟩

omit [LinearOrder K] in
theorem shaped_construct (args : Arguments K) (values : Variable → List K) :
    Shaped (fun v => (values v).length) ⟨construct args values, values⟩ := by
  refine ⟨length_map _, length_map _, fun v => rfl, fun i v hi => ?_⟩
  dsimp only [construct, initializeBuffers] at hi ⊢
  rw [getD_eq_getElem?_getD, getElem?_map, hi]
  simp [makeOptimState]

theorem Shaped.stepImpl (h : Shaped size t) (hgrads : ∀ v g, grads v = some g → g.length = size v) :
    Shaped size (stepImpl grads t) := by
  refine stepImpl_inv (G := fun v g => g.length = size v) (fun u v g hu hg => ?_)
    (fun u i v g hu hi hg => hu.updateEntry hi hg) h
  rw [length_decayed ((hgrads v g hg).trans (hu.values v).symm), hgrads v g hg]

omit [Field K] [LinearOrder K] in
theorem velocityKey_injective : Function.Injective velocityKey := by
  intro i j h
  rw [← digitsValue_decimal i, ← digitsValue_decimal j, append_cancel_left h]

/-- The keys of buffers are told from the other ones by what follows the prefix. -/
theorem velocityKey_ne {k : List UInt8} (h : ¬ (k.take 9 = ascii "velocity_" ∧
    (k.drop 9).all isDigit = true)) (i : ℕ) : velocityKey i ≠ k := by
  rintro rfl
  refine h ⟨take_left' rfl, all_eq_true.mpr fun c hc => ?_⟩
  exact isDigit_of_mem hc

def settingKeys : List (List UInt8) :=
  [ascii "lr", ascii "momentum", ascii "dampening", ascii "weight_decay", ascii "nesterov"]

theorem nodup_keys (l : List ℕ) (h : l.Nodup) : (settingKeys ++ (l.map velocityKey ++
    [ascii "velocity_initialized", ascii "num_params"])).Nodup := by
  have hother {k : List UInt8} (hk : k ∈ settingKeys ++
      [ascii "velocity_initialized", ascii "num_params"]) (i : ℕ) : velocityKey i ≠ k := by
    apply velocityKey_ne
    revert k
    decide
  have hvelocities := h.map velocityKey_injective
  have hlast : (l.map velocityKey ++ [ascii "velocity_initialized", ascii "num_params"]).Nodup := by
    refine nodup_append.mpr ⟨hvelocities, by decide, ?_⟩
    rintro _ ha k hk rfl
    obtain ⟨i, -, hi⟩ := mem_map.mp ha
    exact hother (mem_append_right _ hk) i hi
  refine nodup_append.mpr ⟨by decide, hlast, ?_⟩
  rintro k hk _ hb rfl
  rcases mem_append.mp hb with hb | hb
  · obtain ⟨i, -, hi⟩ := mem_map.mp hb
    exact hother (mem_append_left _ hk) i hi
  · have hdisjoint : ∀ k ∈ settingKeys,
        k ∉ [ascii "velocity_initialized", ascii "num_params"] := by decide
    exact hdisjoint k hk hb

omit [Field K] [LinearOrder K] in
theorem nodup_stateEntries (opt : SGD K) : (opt.stateEntries.map Prod.fst).Nodup := by
  have hnodup := nodup_keys (List.range' 0 (opt.velocityBuffers.zip opt.parameters).length)
    nodup_range'
  refine hnodup.sublist ?_
  have hbuffers : ((opt.velocityBuffers.zip opt.parameters).zipIdx.map fun e =>
      (velocityKey e.2, Saved.floating (stateDtype e.1.2) e.1.1)).map Prod.fst =
      (List.range' 0 (opt.velocityBuffers.zip opt.parameters).length).map velocityKey := by
    rw [map_map, ← zipIdx_map_snd, map_map]
    rfl
  rw [stateEntries, map_append, map_append, map_append, hbuffers, append_assoc,
    append_assoc]
  refine (append_sublist_append_left _).mpr ((append_sublist_append_left _).mpr ?_)
  split
  · exact sublist_cons_self _ _
  · exact Sublist.refl _

omit [Field K] [LinearOrder K] in
theorem lookup_stateDict {key : List UInt8} {s : Saved K} (h : (key, s) ∈ opt.stateEntries) :
    opt.stateDict.lookup key = some s :=
  Dict.lookup_ofEntries opt.nodup_stateEntries h

omit [Field K] [LinearOrder K] in
theorem lookup_velocityKey {b : List K} (hb : opt.velocityBuffers[i]? = some b)
    (hlen : opt.velocityBuffers.length = opt.parameters.length) :
    ∃ dtype, opt.stateDict.lookup (velocityKey i) = some (.floating dtype b) := by
  have hi : i < opt.parameters.length := hlen ▸ (List.getElem?_eq_some_iff.mp hb).1
  refine ⟨stateDtype opt.parameters[i], lookup_stateDict ?_⟩
  have hzip : (opt.velocityBuffers.zip opt.parameters)[i]? = some (b, opt.parameters[i]) := by
    rw [getElem?_zip_eq_some]
    exact ⟨hb, getElem?_eq_getElem hi⟩
  have hmem : ((b, opt.parameters[i]), i) ∈ (opt.velocityBuffers.zip opt.parameters).zipIdx :=
    mem_zipIdx_iff_getElem?.mpr hzip
  rw [stateEntries, mem_append, mem_append, mem_append]
  exact .inl (.inl (.inr (mem_map.mpr ⟨_, hmem, rfl⟩)))

theorem isBufferKey_velocityKey (i : ℕ) : isBufferKey (velocityKey i) = true := by
  rw [isBufferKey, Bool.and_eq_true, isPrefixOf_iff_prefix, decide_eq_true_eq]
  exact ⟨prefix_append _ _, velocityKey_ne (by decide) i⟩

omit [Field K] [LinearOrder K] in
theorem savedCount_stateDict (hlen : opt.velocityBuffers.length = opt.parameters.length) :
    savedCount opt.stateDict = opt.velocityBuffers.length := by
  have hsettings : settingKeys.countP isBufferKey = 0 := by decide
  have hbuffers : (((opt.velocityBuffers.zip opt.parameters).zipIdx.map fun e =>
      (velocityKey e.2, Saved.floating (stateDtype e.1.2) e.1.1)).map Prod.fst).countP isBufferKey =
      opt.velocityBuffers.length := by
    rw [map_map, countP_eq_length.mpr]
    · simp [hlen]
    · intro k hk
      obtain ⟨e, -, rfl⟩ := mem_map.mp hk
      exact isBufferKey_velocityKey e.2
  have hflags : ((if opt.velocityInitialized = [] then [] else
      [(ascii "velocity_initialized", Saved.int64 (K := K) (opt.velocityInitialized.map flag))]).map
        Prod.fst).countP isBufferKey = 0 := by
    have hflag : [ascii "velocity_initialized"].countP isBufferKey = 0 := by decide
    split
    · rfl
    · exact hflag
  have hlast : [ascii "num_params"].countP isBufferKey = 0 := by decide
  have hperm := Dict.keys_ofEntries_perm opt.nodup_stateEntries
  rw [savedCount, ← countP_eq_length_filter, stateDict, hperm.countP_eq, stateEntries,
    map_append, map_append, map_append, countP_append, countP_append,
    countP_append, hbuffers, hflags]
  exact (congrArg₂ (fun a b => a + opt.velocityBuffers.length + 0 + b) hsettings hlast).trans (by simp)

omit [LinearOrder K] in
theorem loadVelocities_stateDict {buffers : List (List K)}
    (hbuffers : saved.velocityBuffers.length = saved.parameters.length)
    (hlen : buffers.length = saved.velocityBuffers.length) :
    loadVelocities saved.stateDict buffers = saved.velocityBuffers := by
  apply ext_getElem
  · simp [loadVelocities, hlen]
  · intro i hi hi'
    obtain ⟨dtype, hlookup⟩ := lookup_velocityKey (getElem?_eq_getElem hi') hbuffers
    have hlt : i < buffers.zipIdx.length := by
      rw [length_zipIdx, hlen]
      exact hi'
    have hidx : buffers.zipIdx[i].2 = i := by simp
    simp only [loadVelocities, getElem_map]
    rw [hidx, hlookup]
    rfl

theorem ne_zero_flag (b : Bool) : decide (flag b ≠ 0) = b := by
  cases b <;> rfl

omit [Field K] [LinearOrder K] in
theorem loadInitialized_stateDict [DecidableEq K]
    (hbuffers : saved.velocityBuffers.length = saved.parameters.length)
    (hflags : saved.velocityInitialized.length = saved.parameters.length) :
    loadInitialized saved.stateDict saved.velocityBuffers = .ok saved.velocityInitialized := by
  unfold loadInitialized
  by_cases hnil : saved.velocityInitialized = []
  · have hempty : saved.velocityBuffers = [] := by
      apply eq_nil_of_length_eq_zero
      rw [hbuffers, ← hflags, hnil, length_nil]
    have hnone : saved.stateDict.lookup (ascii "velocity_initialized") = none := by
      apply Dict.lookup_ofEntries_of_notMem
      have hnew : ascii "velocity_initialized" ∉ settingKeys ++ [ascii "num_params"] := by decide
      rw [stateEntries, hempty, hnil]
      exact hnew
    rw [hnone, hempty, hnil]
    rfl
  · have hmem : (ascii "velocity_initialized",
        Saved.int64 (saved.velocityInitialized.map flag)) ∈ saved.stateEntries := by
      simp [stateEntries, hnil]
    rw [lookup_stateDict hmem]
    refine congrArg Except.ok (ext_getElem ?_ fun i hi hi' => ?_)
    · simp [hbuffers, hflags]
    · simp only [getElem_map, getElem_zipIdx, Nat.zero_add,
        getD_eq_getElem?_getD, getElem?_map, getElem?_eq_getElem hi',
        Option.map_some, Option.getD_some]
      exact ne_zero_flag _

/-- An optimizer takes over everything but the learning rates of the groups. -/
theorem loadStateDict_stateDict (hbuffers : saved.velocityBuffers.length = saved.parameters.length)
    (hflags : saved.velocityInitialized.length = saved.parameters.length)
    (hlen : opt.velocityBuffers.length = saved.velocityBuffers.length) :
    opt.loadStateDict saved.stateDict = .ok { saved with
      parameters := opt.parameters
      paramGroups := opt.paramGroups } := by
  have hdouble {key : String} {x : K} (old : K)
      (h : (ascii key, Saved.floating .float64 [x]) ∈ saved.stateEntries) :
      readDouble saved.stateDict key old = .ok x := by
    rw [readDouble, lookup_stateDict h]
    rfl
  have hint {key : String} {x : Int} (old : Int)
      (h : (ascii key, Saved.int64 [x]) ∈ saved.stateEntries) :
      readInt saved.stateDict key old = .ok x := by
    rw [readInt, lookup_stateDict h]
    rfl
  have hcount : readInt saved.stateDict "num_params" (opt.velocityBuffers.length : Int) =
      .ok (saved.velocityBuffers.length : Int) := hint _ (by simp [stateEntries])
  have hlr : readDouble saved.stateDict "lr" opt.lr = .ok saved.lr :=
    hdouble _ (by simp [stateEntries])
  have hmomentum : readDouble saved.stateDict "momentum" opt.momentum = .ok saved.momentum :=
    hdouble _ (by simp [stateEntries])
  have hdampening : readDouble saved.stateDict "dampening" opt.dampening = .ok saved.dampening :=
    hdouble _ (by simp [stateEntries])
  have hweightDecay : readDouble saved.stateDict "weight_decay" opt.weightDecay =
      .ok saved.weightDecay := hdouble _ (by simp [stateEntries])
  have hnesterov : readInt saved.stateDict "nesterov" (flag opt.nesterov) =
      .ok (flag saved.nesterov) := hint _ (by simp [stateEntries])
  unfold loadStateDict
  rw [savedCount_stateDict hbuffers, loadVelocities_stateDict hbuffers hlen,
    throwIf_of_not (by omega), hcount, hlr, hmomentum, hdampening, hweightDecay, hnesterov,
    loadInitialized_stateDict hbuffers hflags]
  simp only [bind, Except.bind, pure, Except.pure, hlen, ne_eq, not_true_eq_false, throwIf, if_false,
    ne_zero_flag]

end SGD

end Tenzor.Optim
