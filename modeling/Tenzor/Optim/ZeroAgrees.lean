import Tenzor.Optim.SgdEntries
import Tenzor.Optim.Zero

/-!
# The ZeRO optimizer and its base optimizer

The wrapper takes the hyperparameters of all parameters from the base optimizer itself, and counts
one first step for all of them. Where this makes no difference it does what the base optimizer
would do.
-/

namespace Tenzor.Optim

open SGD ZeROStage1Optimizer List

variable {K : Type} [Field K] [LinearOrder K] {a : List K} {l : List (Variable × ℕ)}

/-- The settings `d` of the base optimizer do what those of the parameter do. Where gradients are
dampened, the first one of the parameter has to come in the first step of all. -/
structure SameUpdate (d hp : HP K) (first initialized : Bool) : Prop where
  lr : hp.lr = d.lr
  weightDecay : max hp.weightDecay 0 = d.weightDecay
  momentum : max hp.momentum 0 = d.momentum
  nesterov : d.momentum ≠ 0 → hp.nesterov = d.nesterov
  dampening : d.momentum ≠ 0 →
    if initialized then hp.dampening = d.dampening else first = true ∨ d.dampening = 0

theorem max_zero_cases (x : K) : 0 < x ∧ max x 0 = x ∨ ¬ 0 < x ∧ max x 0 = 0 := by
  rcases lt_or_ge 0 x with h | h
  · exact .inl ⟨h, max_eq_left h.le⟩
  · exact .inr ⟨not_lt.mpr h, max_eq_right h⟩

omit [LinearOrder K] in
theorem makeOptimState_congr {b : List K} (h : a.length = b.length) :
    makeOptimState a = makeOptimState b := by
  rw [makeOptimState, makeOptimState, map_const', map_const', h]

omit [LinearOrder K] in
theorem add_makeOptimState (c : K) {g : List K} (h : a.length = g.length) :
    add (scale (makeOptimState a) c) g = g := by
  apply ext_getElem
  · simp [add, scale, makeOptimState, h]
  · intro k hk hk'
    simp [add, scale, makeOptimState]

omit [LinearOrder K] in
theorem scale_one (a : List K) : scale a 1 = a := by
  simp [scale]

section Update

variable {d hp : HP K} {first initialized : Bool}

theorem SameUpdate.gradWithDecay_eq (h : SameUpdate d hp first initialized) (p g : List K) :
    gradWithDecay d p g = decayed hp p g := by
  rw [gradWithDecay, decayed, ← h.weightDecay]
  rcases max_zero_cases hp.weightDecay with ⟨hpos, hmax⟩ | ⟨hneg, hmax⟩
  · rw [hmax, if_pos hpos, if_pos hpos.ne']
  · rw [hmax, if_neg hneg, if_neg (not_not.mpr rfl)]

/-- A buffer that was never used is zero, and takes over the gradient. -/
theorem SameUpdate.momentumStep_eq (h : SameUpdate d hp first initialized)
    (hm : 0 < hp.momentum) (hfirst : first = true → initialized = false) {m g : List K}
    (hfresh : initialized = false → ∃ a, a.length = g.length ∧ m = makeOptimState a) :
    momentumStep d first m g = velocity hp initialized m g := by
  have hd : d.momentum = hp.momentum := by rw [← h.momentum, max_eq_left hm.le]
  have hdampening := h.dampening (hd ▸ hm.ne')
  cases initialized with
  | false =>
    obtain ⟨a, ha, rfl⟩ := hfresh rfl
    rw [momentumStep, if_pos (by simpa using hdampening), add_makeOptimState _ ha]
    rfl
  | true =>
    have hlater : first = false := by
      cases first with
      | false => rfl
      | true => exact nomatch hfirst rfl
    have heq : hp.dampening = d.dampening := by simpa using hdampening
    rw [momentumStep, velocity, if_pos rfl, hd, hlater, heq]
    by_cases hzero : d.dampening = 0
    · rw [if_pos (.inr hzero), hzero, sub_zero, scale_one]
    · rw [if_neg (by simpa using hzero)]

end Update

/-- The place of the partition and the entry of the base optimizer hold the same. -/
structure Mirrored (config : ZeROStage1Config) (t : Training K) (s : Slot K) (e : Variable × ℕ) :
    Prop where
  param : s.param = e.1
  momentum : s.momentum = t.opt.velocityBuffers.getD e.2 []
  master : hasMaster config s = true → s.master = t.values e.1
  copied : hasMaster config s = true → config.useMasterFp32 = true ∧ e.1.dtype ≠ .float32
  fresh : t.opt.velocityInitialized.getD e.2 false = false →
    s.momentum = makeOptimState (t.values e.1)

variable {config : ZeROStage1Config} {grads : Variable → Option (List K)} {t : Training K}
  {size : Variable → ℕ} {d : HP K} {first : Bool} {s : Slot K} {e : Variable × ℕ}

omit [LinearOrder K] in
theorem Mirrored.target_eq (h : Mirrored config t s e) : target config s t.values = t.values e.1 := by
  unfold target
  split
  · exact h.master ‹_›
  · rw [h.param]

omit [Field K] [LinearOrder K] in
theorem hasMaster_store {target : List K} (values : Variable → List K)
    (h : hasMaster config (store config s target values).1 = true) : hasMaster config s = true := by
  unfold store at h
  split at h
  · assumption
  · assumption

omit [LinearOrder K] in
/-- What is stored is what the parameter then holds. -/
theorem Mirrored.store (h : Mirrored config t s e) {u : Training K} {m target : List K}
    (hm : m = u.opt.velocityBuffers.getD e.2 [])
    (hvalues : u.values = Function.update t.values e.1 target)
    (hfresh : u.opt.velocityInitialized.getD e.2 false = false → m = makeOptimState (u.values e.1)) :
    (store config { s with momentum := m } target t.values).2 = u.values ∧
      Mirrored config u (store config { s with momentum := m } target t.values).1 e := by
  have hkept (hmaster : hasMaster config (ZeROStage1Optimizer.store config
      { s with momentum := m } target t.values).1 = true) : hasMaster config s = true :=
    hasMaster_store (s := { s with momentum := m }) t.values hmaster
  refine ⟨by rw [hvalues, ZeROStage1Optimizer.store, h.param], ?_, ?_, fun hmaster => ?_,
    fun hmaster => h.copied (hkept hmaster), fun hflag => ?_⟩
  · rw [ZeROStage1Optimizer.store]
    split <;> exact h.param
  · rw [ZeROStage1Optimizer.store]
    split <;> exact hm
  · have hthere : hasMaster config { s with momentum := m } = true := hkept hmaster
    rw [ZeROStage1Optimizer.store, if_pos hthere, hvalues, Function.update_self]
  · rw [ZeROStage1Optimizer.store]
    split <;> exact hfresh hflag

/-- The update of a place, which its entry meets. -/
theorem Mirrored.update (h : Mirrored config t s e) (hshaped : Shaped size t)
    (he : e ∈ entries t.opt.parameters) (hgrads : ∀ v g, grads v = some g → g.length = size v)
    (hsame : (grads e.1).isSome → SameUpdate d (t.opt.resolve e.1) first
      (t.opt.velocityInitialized.getD e.2 false))
    (hfirst : first = true → t.opt.velocityInitialized.getD e.2 false = false) :
    (updateSlot config d first grads s t.values).2 = (updateNow grads t e).values ∧
      Mirrored config (updateNow grads t e) (updateSlot config d first grads s t.values).1 e := by
  have hlength : ((updateNow grads t e).values e.1).length = (t.values e.1).length := by
    rw [(hshaped.updateNow he hgrads).values, hshaped.values]
  have hraw : grads s.param = grads e.1 := by rw [h.param]
  unfold updateSlot updateNow at *
  rw [hraw]
  cases hg : grads e.1 with
  | none => exact ⟨rfl, h⟩
  | some g =>
    have hsame := hsame (by rw [hg]; rfl)
    have hlen : (decayed (t.opt.resolve e.1) (t.values e.1) g).length = (t.values e.1).length := by
      rw [length_decayed ((hgrads e.1 g hg).trans (hshaped.values e.1).symm), hgrads e.1 g hg,
        hshaped.values]
    simp only [hg] at hlength ⊢
    rw [h.target_eq, hsame.gradWithDecay_eq]
    generalize decayed (t.opt.resolve e.1) (t.values e.1) g = g' at hlen hlength ⊢
    rcases max_zero_cases (t.opt.resolve e.1).momentum with ⟨hm, hmax⟩ | ⟨hm, hmax⟩
    · have hd : d.momentum = (t.opt.resolve e.1).momentum := hsame.momentum.symm.trans hmax
      have hvel := hsame.momentumStep_eq hm hfirst (m := s.momentum) (g := g')
        fun hflag => ⟨t.values e.1, hlen.symm, h.fresh hflag⟩
      rw [if_pos (hd ▸ hm.ne'), hvel, h.momentum]
      have hplace : e.2 < t.opt.parameters.length :=
        (List.getElem?_eq_some_iff.mp (mem_entries.mp he)).1
      have hnesterov := hsame.nesterov (hd ▸ hm.ne')
      apply h.store
      · simp [updateEntry, hm, hshaped.buffers, hplace]
      · simp [updateEntry, hm, effGrad, hnesterov, hd, hsame.lr]
      · intro hflag
        simp [updateEntry, hm, hshaped.flags, hplace] at hflag
    · have hd : d.momentum = 0 := hsame.momentum.symm.trans hmax
      rw [if_neg (not_not.mpr hd)]
      apply h.store (m := s.momentum)
      · simpa [updateEntry, hm] using h.momentum
      · simp [updateEntry, hm, hsame.lr]
      · intro hflag
        rw [makeOptimState_congr hlength]
        apply h.fresh
        simpa [updateEntry, hm] using hflag

/-- The update of another entry is not seen, unless it moves a parameter away from its master
copy. -/
theorem Mirrored.frame {e' : Variable × ℕ} (h : Mirrored config t s e) (hshaped : Shaped size t)
    (he' : e' ∈ entries t.opt.parameters) (hgrads : ∀ v g, grads v = some g → g.length = size v)
    (hplace : e.2 ≠ e'.2)
    (hmaster : e.1 = e'.1 → (grads e.1).isSome → hasMaster config s = false) :
    Mirrored config (updateNow grads t e') s e := by
  have hlength : ((updateNow grads t e').values e.1).length = (t.values e.1).length := by
    rw [(hshaped.updateNow he' hgrads).values, hshaped.values]
  refine ⟨h.param, h.momentum.trans (updateNow_buffer_of_ne hplace).symm, fun hthere => ?_, h.copied,
    fun hfresh => ?_⟩
  · by_cases hvar : e.1 = e'.1
    · cases hg : grads e.1 with
      | none => simpa [updateNow, ← hvar, hg] using h.master hthere
      | some g => exact absurd (hthere.symm.trans (hmaster hvar (by rw [hg]; rfl))) Bool.noConfusion
    · rw [updateNow_values_of_ne grads t hvar]
      exact h.master hthere
  · rw [makeOptimState_congr hlength]
    exact h.fresh ((updateNow_flag_of_ne hplace).symm.trans hfresh)

omit [Field K] [LinearOrder K] in
theorem hasMaster_ne_nil (h : hasMaster config s = true) : s.master ≠ [] := by
  rintro hnil
  simp [hasMaster, hnil] at h

/-- The parameter has a master copy of its own. -/
def Copied (config : ZeROStage1Config) (size : Variable → ℕ) (v : Variable) : Prop :=
  config.useMasterFp32 = true ∧ v.dtype ≠ .float32 ∧ size v ≠ 0

omit [LinearOrder K] in
theorem Mirrored.hasMaster_eq_false (h : Mirrored config t s e)
    (hsize : (t.values e.1).length = size e.1) (hc : ¬ Copied config size e.1) :
    hasMaster config s = false := by
  cases hthere : hasMaster config s with
  | false => rfl
  | true =>
    refine absurd ⟨(h.copied hthere).1, (h.copied hthere).2, fun hzero => ?_⟩ hc
    apply hasMaster_ne_nil hthere
    rw [h.master hthere, ← length_eq_zero_iff, hsize, hzero]

/-- Entries with other places whose updates a master copy does not miss. -/
def Apart (config : ZeROStage1Config) (size : Variable → ℕ)
    (grads : Variable → Option (List K)) (e e' : Variable × ℕ) : Prop :=
  e.2 ≠ e'.2 ∧ (e.1 = e'.1 → (grads e.1).isSome → ¬ Copied config size e.1)

theorem Mirrored.foldl (h : Mirrored config t s e) (hshaped : Shaped size t)
    (hl : ∀ e' ∈ l, e' ∈ entries t.opt.parameters)
    (hgrads : ∀ v g, grads v = some g → g.length = size v)
    (hfar : ∀ e' ∈ l, Apart config size grads e e') :
    Mirrored config (l.foldl (updateNow grads) t) s e := by
  refine (List.foldlRecOn (motive := fun u : Training K => Mirrored config u s e ∧
    Shaped size u ∧ SameSettings t.opt u.opt) l _ ⟨h, hshaped, .refl _⟩ fun u hu e' he' => ?_).1
  obtain ⟨h, hshaped, hs⟩ := hu
  have hmem : e' ∈ entries u.opt.parameters := hs.parameters ▸ hl e' he'
  refine ⟨h.frame hshaped hmem hgrads (hfar e' he').1 fun hvar hsome => ?_,
    hshaped.updateNow hmem hgrads, hs.trans (sameSettings_updateNow ..)⟩
  exact h.hasMaster_eq_false (hshaped.values _) ((hfar e' he').2 hvar hsome)

/-- The wrapper goes through its partition as the base optimizer through the entries. -/
theorem updatePartitionSgd_mirrors {slots : List (Slot K)}
    (hslots : List.Forall₂ (Mirrored config t) slots l) (hshaped : Shaped size t)
    (hl : ∀ e ∈ l, e ∈ entries t.opt.parameters)
    (hgrads : ∀ v g, grads v = some g → g.length = size v)
    (hapart : l.Pairwise (Apart config size grads))
    (hsame : ∀ e ∈ l, (grads e.1).isSome → SameUpdate d (t.opt.resolve e.1) first
      (t.opt.velocityInitialized.getD e.2 false))
    (hfirst : first = true → ∀ e ∈ l, t.opt.velocityInitialized.getD e.2 false = false) :
    (updatePartitionSgd config d first grads slots t.values).2 =
        (l.foldl (updateNow grads) t).values ∧
      List.Forall₂ (Mirrored config (l.foldl (updateNow grads) t))
        (updatePartitionSgd config d first grads slots t.values).1 l := by
  induction l generalizing slots t with
  | nil =>
    cases hslots with
    | nil => exact ⟨rfl, .nil⟩
  | cons e l ih =>
    cases hslots with
    | @cons s _ slots _ h hslots =>
      obtain ⟨he, hl⟩ := forall_mem_cons.mp hl
      obtain ⟨hfar, hapart⟩ := pairwise_cons.mp hapart
      obtain ⟨hhead, hsame⟩ := forall_mem_cons.mp hsame
      obtain ⟨hvalues, hslot⟩ := h.update hshaped he hgrads hhead
        fun hone => hfirst hone e mem_cons_self
      have hs := sameSettings_updateNow grads t e
      have hshaped' := hshaped.updateNow he hgrads
      have hl' : ∀ e' ∈ l, e' ∈ entries (updateNow grads t e).opt.parameters := by
        rw [hs.parameters]
        exact hl
      have hslots' : List.Forall₂ (Mirrored config (updateNow grads t e)) slots l := by
        obtain ⟨hlength, hzip⟩ := forall₂_iff_zip.mp hslots
        refine forall₂_iff_zip.mpr ⟨hlength, fun {s' e'} hmem => ?_⟩
        have hfar' := hfar e' (of_mem_zip hmem).2
        refine (hzip hmem).frame hshaped he hgrads hfar'.1.symm fun hvar hsome => ?_
        refine (hzip hmem).hasMaster_eq_false (hshaped.values _) ?_
        rw [hvar] at hsome ⊢
        exact hfar'.2 hvar.symm hsome
      have hrest := ih hslots' hshaped' hl' hapart (fun e' he' hsome => ?_) fun hone e' he' => ?_
      · rw [← hvalues] at hrest
        exact ⟨hrest.1, .cons (hslot.foldl hshaped' hl' hgrads hfar) hrest.2⟩
      · rw [hs.resolve, updateNow_flag_of_ne (hfar e' he').1.symm]
        exact hsame e' he' hsome
      · rw [updateNow_flag_of_ne (hfar e' he').1.symm]
        exact hfirst hone e' (mem_cons_of_mem _ he')

/-- The entries in the order of the partition. -/
def order (config : ZeROStage1Config) (size : Variable → ℕ) (params : List (Option Variable)) :
    List (Variable × ℕ) :=
  let bytes (e : Variable × ℕ) := size e.1 * dtypeSize e.1.dtype
  if config.balancedPartitioning then
    (entries params).mergeSort fun e e' => decide (bytes e' ≤ bytes e)
  else entries params

omit [Field K] [LinearOrder K] in
theorem partitionParameters_eq (config : ZeROStage1Config) (values : Variable → List K)
    (params : List (Option Variable)) : partitionParameters config values params.reduceOption =
      (order config (fun v => (values v).length) params).map Prod.fst := by
  unfold partitionParameters order
  rw [← map_fst_entries]
  split
  · refine Eq.symm (map_mergeSort (f := Prod.fst) fun e _ e' _ => ?_)
    rfl
  · rfl

theorem order_perm (config : ZeROStage1Config) (size : Variable → ℕ)
    (params : List (Option Variable)) : (order config size params).Perm (entries params) := by
  unfold order
  split
  · exact mergeSort_perm _ _
  · exact .refl _

theorem filter_order (config : ZeROStage1Config) (size : Variable → ℕ)
    (params : List (Option Variable)) (v : Variable) :
    (order config size params).filter (·.1 = v) = (entries params).filter (·.1 = v) := by
  unfold order
  split
  · refine KeyedFold.filter_mergeSort (fun a b c hab hbc => ?_) (fun a b => ?_) (fun a b hab => ?_) _ v
    · exact decide_eq_true (le_trans (of_decide_eq_true hbc) (of_decide_eq_true hab))
    · rw [Bool.or_eq_true, decide_eq_true_iff, decide_eq_true_iff]
      exact Nat.le_total _ _
    · simp [hab]
  · rfl

/-- The wrapper holds what the base optimizer would hold. -/
structure Mirrors (size : Variable → ℕ) (z : ZeROTraining K) (t : Training K) : Prop where
  values : z.values = t.values
  settings : SameSettings z.opt.baseOptimizer t.opt
  shaped : Shaped size t
  slots : List.Forall₂ (Mirrored z.opt.config t) z.opt.partition
    (order z.opt.config size t.opt.parameters)
  first : z.opt.stepCount = 0 → ∀ i, t.opt.velocityInitialized.getD i false = false

/-- In a step with these gradients the settings of the base optimizer do for every parameter with a
gradient. If it is listed twice, no master copy misses an update, and the decayed gradients do not
depend on which update is first. -/
structure StepAgrees (grads : Variable → Option (List K)) (z : ZeROTraining K) (t : Training K) :
    Prop where
  settings : ∀ (i : ℕ) v, t.opt.parameters[i]? = some (some v) → (grads v).isSome →
    SameUpdate z.opt.baseOptimizer.defaults (t.opt.resolve v) (z.opt.stepCount == 0)
      (t.opt.velocityInitialized.getD i false)
  once : ∀ v, (grads v).isSome → t.values v ≠ [] → Once t.opt.parameters v ∨
    ¬ (z.opt.config.useMasterFp32 = true ∧ v.dtype ≠ .float32) ∧
      (optimStateDtype v.dtype ≠ v.dtype ∨ z.opt.baseOptimizer.weightDecay = 0)

variable {z : ZeROTraining K}

theorem StepAgrees.seen (h : StepAgrees grads z t) (v : Variable) :
    isHalf v = true ∨ Once t.opt.parameters v ∨ Steady grads t v := by
  cases hg : grads v with
  | none => exact .inr (.inr fun g hsome => absurd (hsome.symm.trans hg) (Option.some_ne_none g))
  | some g =>
    have hsome : (grads v).isSome := by rw [hg]; rfl
    by_cases hnil : t.values v = []
    · exact .inr (.inr (steady_of_empty hnil))
    · rcases h.once v hsome hnil with honce | ⟨-, hhalf | hdecay⟩
      · exact .inr (.inl honce)
      · exact .inl (decide_eq_true hhalf)
      · by_cases hlisted : ∃ i : ℕ, t.opt.parameters[i]? = some (some v)
        · obtain ⟨i, hi⟩ := hlisted
          have hmax := (h.settings i v hi hsome).weightDecay
          refine .inr (.inr (steady_of_no_decay fun hpos => hpos.ne' ?_))
          rw [max_eq_left hpos.le] at hmax
          exact hmax.trans hdecay
        · exact .inr (.inl fun i j hi _ => absurd ⟨i, hi⟩ hlisted)

theorem StepAgrees.apart (h : StepAgrees grads z t) (hsize : ∀ v, (t.values v).length = size v) :
    (order z.opt.config size t.opt.parameters).Pairwise (Apart z.opt.config size grads) := by
  refine ((order_perm ..).pairwise_iff fun {e e'} hfar => ?_).mpr ?_
  · refine ⟨hfar.1.symm, fun hvar hsome => ?_⟩
    rw [hvar] at hsome ⊢
    exact hfar.2 hvar.symm hsome
  · refine (pairwise_entries _).imp_of_mem fun {e e'} he he' hlt => ⟨hlt.ne, fun hvar hsome hc => ?_⟩
    have hne : t.values e.1 ≠ [] := by
      rw [← length_pos_iff, hsize]
      exact Nat.pos_of_ne_zero hc.2.2
    rcases h.once e.1 hsome hne with honce | ⟨hcopy, -⟩
    · refine absurd (honce _ _ (mem_entries.mp he) ?_) hlt.ne
      rw [hvar]
      exact mem_entries.mp he'
    · exact hcopy ⟨hc.1, hc.2.1⟩

theorem Mirrors.step (h : Mirrors size z t)
    (hgrads : ∀ v g, grads v = some g → g.length = size v) (ha : StepAgrees grads z t) :
    Mirrors size (z.stepImpl grads) (stepImpl grads t) := by
  have hmem : ∀ e ∈ order z.opt.config size t.opt.parameters, e ∈ entries t.opt.parameters :=
    fun e he => (order_perm ..).mem_iff.mp he
  have hbase : stepImpl grads t =
      (order z.opt.config size t.opt.parameters).foldl (updateNow grads) t := by
    rw [stepImpl_eq_foldl h.shaped hgrads ha.seen]
    exact KeyedFold.foldl_eq_of_filter_eq Prod.fst
      (fun e he e' he' hne u => updateNow_comm (place_ne he he' hne) hne u)
      (fun v => (filter_order ..).symm) t
  have hfirst (hone : (z.opt.stepCount == 0) = true) (i : ℕ) :
      t.opt.velocityInitialized.getD i false = false := h.first (by simpa using hone) i
  obtain ⟨hvalues, hslots⟩ := updatePartitionSgd_mirrors h.slots h.shaped hmem hgrads
    (ha.apart h.shaped.values)
    (fun e he hsome => ha.settings e.2 e.1 (mem_entries.mp (hmem e he)) hsome)
    (fun hone e _ => hfirst hone e.2)
  have hs := sameSettings_stepImpl grads t
  rw [← hbase] at hvalues hslots
  refine ⟨?_, h.settings.trans hs, h.shaped.stepImpl hgrads, ?_, fun hzero => absurd hzero ?_⟩
  · rw [← hvalues, ← h.values]
    rfl
  · rw [hs.parameters]
    simpa only [ZeROTraining.stepImpl, h.values] using hslots
  · exact Nat.succ_ne_zero _

section Start

variable (config : ZeROStage1Config) (groups : List (ParamGroup K))
  (lr momentum dampening weightDecay : K) (nesterov : Bool) (values : Variable → List K)

omit [LinearOrder K] in
theorem mirrored_initializeState {args : SGD.Arguments K} (he : e ∈ entries args.parameters) :
    Mirrored config ⟨SGD.construct args values, values⟩ (initializeState config values e.1) e where
  param := rfl
  momentum := by
    simp [SGD.construct, initializeBuffers, initializeState, getD_eq_getElem?_getD,
      mem_entries.mp he]
  master hmaster := by
    by_contra hmissing
    refine hasMaster_ne_nil hmaster (if_neg fun hcopy => hmissing ?_)
    exact if_pos hcopy
  copied hmaster := by
    by_contra hcopy
    exact hasMaster_ne_nil hmaster (if_neg hcopy)
  fresh _ := rfl

omit [LinearOrder K] in
theorem mirrors_start :
    Mirrors (fun v => (values v).length)
      (ZeROTraining.start config
        (SGD.grouped groups lr momentum dampening weightDecay nesterov) values)
      ⟨SGD.construct (SGD.grouped groups lr momentum dampening weightDecay nesterov) values,
        values⟩ where
  values := rfl
  settings := .refl _
  shaped := shaped_construct _ _
  slots := by
    change List.Forall₂ _ ((partitionParameters config values _).map _) _
    rw [partitionParameters_eq, map_map, forall₂_map_left_iff]
    exact forall₂_same.mpr fun e he =>
      mirrored_initializeState config values ((order_perm ..).mem_iff.mp he)
  first _ i := by
    have hflags : ∀ flag ∈ (SGD.construct
        (SGD.grouped groups lr momentum dampening weightDecay nesterov) values).velocityInitialized,
        flag = false := by simp [SGD.construct]
    rw [getD_eq_getElem?_getD]
    cases hi : (SGD.construct (SGD.grouped groups lr momentum dampening weightDecay nesterov)
        values).velocityInitialized[i]? with
    | none => rfl
    | some flag => exact hflags flag (mem_of_getElem? hi)

end Start

/-- Every step of the run meets the condition. -/
def RunAgrees : ZeROTraining K → Training K → List (Backward K) → Prop
  | _, _, [] => True
  | z, t, b :: steps =>
    StepAgrees (b.grads t.values) z t ∧ RunAgrees (z.step b) (t.act (.step b)) steps

theorem Mirrors.run {steps : List (Backward K)} (h : Mirrors size z t) (ha : RunAgrees z t steps)
    (n : ℕ) : Mirrors size ((steps.take n).foldl ZeROTraining.step z)
      (t.run ((steps.take n).map .step)) := by
  induction steps generalizing z t n with
  | nil => simpa [Training.run] using h
  | cons b steps ih =>
    cases n with
    | zero => exact h
    | succ n =>
      refine ih (z := z.step b) (t := t.act (.step b)) ?_ ha.2 n
      rw [ZeROTraining.step, h.values]
      refine h.step (fun v g hg => ?_) ha.1
      rw [b.length_eq t.values v g hg, h.shaped.values]

theorem updatePartitionSgd_untouched {v : Variable} (hg : grads v = none) (slots : List (Slot K))
    (values : Variable → List K) :
    (updatePartitionSgd config d first grads slots values).2 v = values v := by
  induction slots generalizing values with
  | nil => rfl
  | cons s slots ih =>
    refine (ih _).trans ?_
    unfold updateSlot
    cases hraw : grads s.param with
    | none => rfl
    | some raw =>
      have hne : v ≠ s.param := by
        rintro rfl
        exact Option.some_ne_none raw (hraw.symm.trans hg)
      dsimp only
      split
      · exact Function.update_of_ne hne ..
      · exact Function.update_of_ne hne ..

/-- As long as every step meets the condition, the parameters are those of the base optimizer. A
parameter without a gradient is never touched. -/
theorem zero_follows_base (config : ZeROStage1Config) (groups : List (ParamGroup K))
    (lr momentum dampening weightDecay : K) (nesterov : Bool) (values : Variable → List K)
    (steps : List (Backward K))
    (h : RunAgrees
      (ZeROTraining.start config
        (SGD.grouped groups lr momentum dampening weightDecay nesterov) values)
      ⟨SGD.construct (SGD.grouped groups lr momentum dampening weightDecay nesterov) values, values⟩
      steps) :
    (∀ n, ((steps.take n).foldl ZeROTraining.step (ZeROTraining.start config
        (SGD.grouped groups lr momentum dampening weightDecay nesterov) values)).values =
      (Training.run ⟨SGD.construct
        (SGD.grouped groups lr momentum dampening weightDecay nesterov) values, values⟩
          ((steps.take n).map .step)).values) ∧
    ∀ (z : ZeROTraining K) (b : Backward K) v, b.grads z.values v = none →
      (z.step b).values v = z.values v :=
  ⟨fun n => ((mirrors_start config groups lr momentum dampening weightDecay nesterov values).run h
    n).values, fun z _ _ hg => updatePartitionSgd_untouched hg z.opt.partition z.values⟩

def slope : Variable := ⟨0, .float32⟩

def bias : Variable := ⟨1, .float32⟩

/-- One group with the learning rate 1. -/
def pair (lr momentum dampening : ℚ) : SGD.Arguments ℚ :=
  SGD.grouped [⟨[some slope, some bias], 1, 0, none, none, none⟩] lr momentum dampening 0 false

/-- A step in which the first parameter of the pair alone has a gradient. -/
theorem stepAgrees_slope {z : ZeROTraining ℚ} {t : Training ℚ}
    (hparameters : t.opt.parameters = [some slope, some bias])
    (hupdate : SameUpdate z.opt.baseOptimizer.defaults (t.opt.resolve slope) (z.opt.stepCount == 0)
      (t.opt.velocityInitialized.getD 0 false)) :
    StepAgrees ((ones [slope]).grads t.values) z t := by
  have hslope {v : Variable} (h : ((ones [slope]).grads t.values v).isSome) : v = slope := by
    by_contra hv
    simp [ones, hv] at h
  have hplace {i : ℕ} (h : t.opt.parameters[i]? = some (some slope)) : i = 0 := by
    rw [hparameters] at h
    match i, h with
    | 0, _ => rfl
    | 1, h => exact absurd h (by decide)
  constructor
  · intro i v hi hsome
    obtain rfl := hslope hsome
    exact hplace hi ▸ hupdate
  · intro v hsome _
    obtain rfl := hslope hsome
    exact .inl fun i j hi hj => (hplace hi).trans (hplace hj).symm

theorem zero_follows_base_pair :
    RunAgrees (ZeROTraining.start ⟨false, false⟩ (pair 1 (1 / 2) 0) fun _ => [0])
        ⟨SGD.construct (pair 1 (1 / 2) 0) fun _ => [0], fun _ => [0]⟩ [ones [slope], ones [slope]] ∧
      (([ones [slope], ones [slope]].take 2).foldl ZeROTraining.step
          (ZeROTraining.start ⟨false, false⟩ (pair 1 (1 / 2) 0) fun _ => [0])).values =
        (Training.run ⟨SGD.construct (pair 1 (1 / 2) 0) fun _ => [0], fun _ => [0]⟩
          (([ones [slope], ones [slope]].take 2).map .step)).values := by
  have hrun : RunAgrees (ZeROTraining.start ⟨false, false⟩ (pair 1 (1 / 2) 0) fun _ => [0])
      ⟨SGD.construct (pair 1 (1 / 2) 0) fun _ => [0], fun _ => [0]⟩ [ones [slope], ones [slope]] := by
    refine ⟨stepAgrees_slope rfl ?_, stepAgrees_slope (by decide +kernel) ?_, trivial⟩
    · exact ⟨by decide +kernel, by decide +kernel, by decide +kernel, fun _ => by decide +kernel,
        fun _ => by decide +kernel⟩
    · exact ⟨by decide +kernel, by decide +kernel, by decide +kernel, fun _ => by decide +kernel,
        fun _ => by decide +kernel⟩
  exact ⟨hrun, (zero_follows_base ⟨false, false⟩ [⟨[some slope, some bias], 1, 0, none, none, none⟩]
    1 (1 / 2) 0 0 false (fun _ => [0]) [ones [slope], ones [slope]] hrun).1 2⟩
/-- The learning rate of the group is not used, and the first gradient of a parameter is dampened
when it comes after the first step. -/
theorem zero_leaves_base :
    (([ones [slope]].foldl ZeROTraining.step
          (ZeROTraining.start ⟨false, false⟩ (pair (1 / 2) 0 0) fun _ => [0])).values slope = [-1 / 2] ∧
      (Training.run ⟨SGD.construct (pair (1 / 2) 0 0) fun _ => [0], fun _ => [0]⟩
        ([ones [slope]].map .step)).values slope = [-1]) ∧
    ([ones [slope], ones [bias]].foldl ZeROTraining.step
          (ZeROTraining.start ⟨false, false⟩ (pair 1 (1 / 2) (1 / 2)) fun _ => [0])).values bias =
        [-1 / 2] ∧
      (Training.run ⟨SGD.construct (pair 1 (1 / 2) (1 / 2)) fun _ => [0], fun _ => [0]⟩
        ([ones [slope], ones [bias]].map .step)).values bias = [-1] := by
  decide +kernel

end Tenzor.Optim
