import Tenzor.Autograd.SharedGraphs
import Tenzor.Lib.PathSum

/-!
# Passes over graphs of additive Functions

Where every `backward` applies one additive map for each slot, a pass gives a
Variable the sum, over all paths from the seeded Functions to the Variable, of
the maps along the path applied to the seed.
-/

namespace Tenzor

open Throwing KeepState PathSum List

namespace Engine

variable {T : Type} {c f₀ : FnId} {ts : List T} {sorted : List FnId} {v : VarId}
  {gradient : Option T} {seed : T}

/-- The Functions that were taken up, in order. -/
def handled (log : List (LogEntry T)) : List FnId :=
  log.filterMap fun
    | .skipped f => some f
    | .called f => some f
    | .wrote _ _ => none

@[simp] theorem handled_append (log log' : List (LogEntry T)) :
    handled (log ++ log') = handled log ++ handled log' :=
  filterMap_append

/-- A pass writes `.grad` of `v`. -/
def Receives (g : Graph T) (v : VarId) : Prop :=
  (g.vars v).requiresGrad = true ∧ (g.vars v).keepsGrad = true

variable [AddCommSemigroup T]

/-- The map of one slot, on gradients that may be missing. -/
def slotMap (maps : List (T →ₙ+ T)) (i : Nat) : WithZero T →+ WithZero T :=
  match maps[i]? with
  | some m => WithZero.mapAddHom m
  | none => 0

theorem slotMap_coe (maps : List (T →ₙ+ T)) (i : Nat) (t : T) :
    slotMap maps i (asSum (some t)) = asSum ((maps.map fun m => m t)[i]?) := by
  rw [slotMap, getElem?_map]
  cases maps[i]? with
  | none => rfl
  | some m => rfl

/-- Every Function in `In` applies one additive map for each slot to what fits
it, and the results fit where they go. -/
structure Linear (ops : TensorOps T) (g : Graph T) (In : FnId → Prop) where
  maps : FnId → List (T →ₙ+ T)
  /-- The gradients that may arrive at a Function. -/
  Fits : FnId → T → Prop
  fits_add : ∀ f a b, Fits f a → Fits f b → Fits f (a + b)
  valid : ∀ f, In f → (g.fns f).held.saved.validateSavedTensors g.tensors = .ok ()
  backward_eq : ∀ f, In f → ∀ t, Fits f t →
    (g.fns f).backward g.tensors (g.fns f).held [t] = .ok ((maps f).map fun m => m t)
  differentiable : ∀ f, In f → ∀ t, Fits f t → ∀ m ∈ maps f, ops.isDifferentiable (m t) = true
  input_shape : ∀ f, In f → ∀ t, Fits f t → ∀ (i : Nat) v (m : T →ₙ+ T),
    (g.fns f).inputVariables[i]? = some (some v) → (maps f)[i]? = some m →
    (g.vars v).requiresGrad = true → ops.shape (m t) = ops.shape (g.vars v).data
  next_fits : ∀ f, In f → ∀ t, Fits f t → ∀ (i : Nat) c (m : T →ₙ+ T),
    (g.fns f).nextFunctions[i]? = some (some c) → (maps f)[i]? = some m → Fits c (m t)
  no_hooks : ∀ f, In f → ∀ v, some v ∈ (g.fns f).inputVariables → (g.vars v).hooks = []

variable {ops : TensorOps T} {g : Graph T} {Read : FnId → Prop} {p : Pass T}

theorem handled_deliverTo (p : Pass T) (w : VarId) (t : T) :
    handled (deliverTo ops p w t).log = handled p.log := by
  unfold deliverTo
  split_ifs
  · exact (handled_append _ _).trans (append_nil _)
  · rfl

/-- One input gets its gradient, if it receives gradients. -/
theorem deliver_linear (hreads : SameReads (fun _ => True) Read g p.graph) (name : String)
    (grads : List T) {o : Option VarId} {i : Nat} (hhooks : ∀ w, o = some w → (g.vars w).hooks = [])
    (hshape : ∀ w t, o = some w → grads[i]? = some t → (g.vars w).requiresGrad = true →
      ops.shape t = ops.shape (g.vars w).data) :
    ∃ q, deliver ops name (p, grads) (o, i) = ((q, grads), .ok ()) ∧
      SameReads (fun _ => True) Read p.graph q.graph ∧ q.accumulators = p.accumulators ∧
      handled q.log = handled p.log ∧ ∀ v, Receives g v →
        sumOf (writesTo v q.log) =
          sumOf (writesTo v p.log) + if o = some v then asSum grads[i]? else 0 := by
  have hrefl : SameReads (fun _ => True) Read p.graph p.graph :=
    SameReads.of_grads fun w => ⟨_, rfl⟩
  cases o with
  | none => exact ⟨p, rfl, hrefl, rfl, rfl, fun v _ => by simp⟩
  | some w =>
    cases hgrad : grads[i]? with
    | none =>
      refine ⟨p, by simp [deliver, hgrad], hrefl, rfl, rfl, fun v _ => ?_⟩
      simp
    | some t =>
      by_cases hreq : (g.vars w).requiresGrad = true
      · have hreq' : (p.graph.vars w).requiresGrad = true := by
          rw [hreads.requiresGrad_eq, hreq]
        have hnone : (p.graph.vars w).hooks = [] := by
          rw [hreads.hooks_eq, hhooks w rfl]
        have hvalid : validateGradShapeOrThrow ops name i (p.graph.vars w) t = .ok () := by
          rw [validateGradShapeOrThrow, hreads.data_eq,
            hshape w t rfl hgrad hreq]
          simp
        obtain ⟨hsame, hacc, hwrites⟩ :=
          @deliverTo_reads _ (fun _ => True) Read _ ops p w t
        refine ⟨deliverTo ops p w t, ?_, hsame, hacc, handled_deliverTo p w t, fun v hv => ?_⟩
        · simp [deliver, hgrad, hreq', hvalid, applyHooks, hnone]
        · have hkeep : (p.graph.vars v).keepsGrad = true := by
            rw [hreads.keeps_eq v trivial, hv.2]
          rw [hwrites v]
          by_cases hw : w = v
          · simp [hw, hkeep]
          · simp [hw]
      · refine ⟨p, ?_, hrefl, rfl, rfl, fun v hv => ?_⟩
        · have hreq' : (p.graph.vars w).requiresGrad = false := by
            rw [hreads.requiresGrad_eq]
            simpa using hreq
          simp [deliver, hgrad, hreq']
        · have hne : w ≠ v := by
            rintro rfl
            exact hreq hv.1
          simp [hne]

/-- All inputs get their gradients: what `v` is sent is the sum over its slots. -/
theorem loop_deliver_linear (name : String) (grads : List T) (inputs : List (Option VarId))
    (k : Nat) (hhooks : ∀ w, some w ∈ inputs → (g.vars w).hooks = [])
    (hshape : ∀ i w t, inputs[i]? = some (some w) → grads[k + i]? = some t →
      (g.vars w).requiresGrad = true → ops.shape t = ops.shape (g.vars w).data)
    (hreads : SameReads (fun _ => True) Read g p.graph) :
    ∃ q, loop (deliver ops name) (p, grads) (inputs.zipIdx k) = ((q, grads), .ok ()) ∧
      SameReads (fun _ => True) Read p.graph q.graph ∧ q.accumulators = p.accumulators ∧
      handled q.log = handled p.log ∧ ∀ v, Receives g v →
        sumOf (writesTo v q.log) =
          sumOf (writesTo v p.log) + sumInto inputs (fun i => asSum grads[k + i]?) v := by
  induction inputs generalizing p k with
  | nil =>
    refine ⟨p, rfl, SameReads.of_grads fun w => ⟨_, rfl⟩, rfl, rfl, fun v _ => ?_⟩
    simp
  | cons o inputs ih =>
    obtain ⟨q, hq, hsame, hacc, hhandled, hsum⟩ := deliver_linear hreads name grads
      (i := k) (fun w hw => hhooks w (hw ▸ mem_cons_self))
      (fun w t hw ht => hshape 0 w t (by simp [hw]) ht)
    obtain ⟨r, hr, hsame', hacc', hhandled', hsum'⟩ := ih (k + 1)
      (fun w hw => hhooks w (mem_cons_of_mem _ hw))
      (fun i w t hw ht => hshape (i + 1) w t hw (by rw [← ht]; congr 1; omega))
      (hreads.trans hsame)
    refine ⟨r, ?_, hsame.trans hsame', hacc'.trans hacc, hhandled'.trans hhandled, fun v hv => ?_⟩
    · rw [zipIdx_cons, loop, hq, andThen_ok, hr]
    · have hshift : ∀ i, k + 1 + i = k + (i + 1) := by
        omega
      rw [hsum' v hv, hsum v hv, sumInto_cons, add_assoc]
      simp only [hshift, Nat.add_zero]

/-- What arrives at `c` is the sum over the slots that lead to it. -/
theorem sumOf_propagate (acc : FnId → List T) (next : List (Option FnId)) (grads : List T)
    (c : FnId) :
    sumOf (propagate acc next grads c) =
      sumOf (acc c) + sumInto next (fun i => asSum grads[i]?) c := by
  induction next generalizing acc grads with
  | nil => simp [propagate]
  | cons o next ih =>
    cases grads with
    | nil => simp [propagate, sumInto_zero]
    | cons t grads =>
      rw [sumInto_cons]
      cases o with
      | none =>
        rw [if_neg (Option.some_ne_none c).symm, zero_add]
        exact ih acc grads
      | some d =>
        have hcons : propagate acc (some d :: next) (t :: grads) =
            propagate (Function.update acc d (acc d ++ [t])) next grads := rfl
        rw [hcons, ih, ← add_assoc]
        by_cases hd : d = c
        · subst hd
          simp
        · simp [Function.update_of_ne (Ne.symm hd), hd]

omit [AddCommSemigroup T] in
/-- What arrives in addition is among the gradients of the slots that lead to `c`. -/
theorem mem_propagate {acc : FnId → List T} {next : List (Option FnId)} {grads : List T} {t : T}
    (h : t ∈ propagate acc next grads c) :
    t ∈ acc c ∨ ∃ i : Nat, next[i]? = some (some c) ∧ grads[i]? = some t := by
  induction next generalizing acc grads with
  | nil => exact .inl h
  | cons o next ih =>
    cases grads with
    | nil => exact .inl (by simpa [propagate] using h)
    | cons u grads =>
      have hrest : ∀ acc' : FnId → List T, t ∈ propagate acc' next grads c →
          t ∈ acc' c ∨ ∃ i : Nat, (o :: next)[i]? = some (some c) ∧ (u :: grads)[i]? = some t := by
        intro acc' h'
        rcases ih h' with hmem | ⟨i, hi, ht⟩
        · exact .inl hmem
        · exact .inr ⟨i + 1, hi, ht⟩
      cases o with
      | none => exact hrest acc h
      | some d =>
        rcases hrest (Function.update acc d (acc d ++ [u])) h with hmem | hslot
        · by_cases hd : d = c
          · subst hd
            rw [Function.update_self, mem_append, mem_singleton] at hmem
            rcases hmem with hmem | rfl
            · exact .inl hmem
            · exact .inr ⟨0, rfl, rfl⟩
          · rw [Function.update_of_ne (Ne.symm hd)] at hmem
            exact .inl hmem
        · exact .inr hslot

variable {kinds : Set DType} {In : FnId → Prop}

omit [AddCommSemigroup T] in
theorem totalGrad_eq_none [Add T] : ops.totalGrad ts = none ↔ ts = [] := by
  cases ts with
  | nil => simp [TensorOps.totalGrad]
  | cons t ts => simp [TensorOps.totalGrad]

/-- The total of gradients that fit, fits. -/
theorem Linear.fits_total (L : Linear ops g In) (hexact : ops.Exact kinds) {f : FnId} {total : T}
    (h : ops.totalGrad ts = some total) (hts : ∀ t ∈ ts, L.Fits f t) : L.Fits f total := by
  cases ts with
  | nil => cases h
  | cons first rest =>
    have hmem := hexact.foldl_promote_mem rest (hexact.dtype_mem first)
    simp only [TensorOps.totalGrad, hexact.castTo_eq hmem, Option.some.injEq] at h
    subst h
    have hfold : ∀ (ts : List T) (a : T), L.Fits f a → (∀ t ∈ ts, L.Fits f t) →
        L.Fits f (ts.foldl (fun total t => total + t) a) := by
      intro ts
      induction ts with
      | nil => exact fun _ ha _ => ha
      | cons t ts ih =>
        intro a ha hall
        exact ih (a + t) (L.fits_add f a t ha (hall t mem_cons_self))
          fun u hu => hall u (mem_cons_of_mem _ hu)
    exact hfold rest first (hts first mem_cons_self) fun t ht =>
      hts t (mem_cons_of_mem _ ht)

/-- The slots of the Functions as maps, their edges and their inputs. -/
abbrev Linear.push (L : Linear ops g In) (v : VarId) :
    (FnId → WithZero T) × WithZero T → FnId → (FnId → WithZero T) × WithZero T :=
  PathSum.push g.children (fun f => (g.fns f).inputVariables) (fun f => slotMap (L.maps f)) v

/-- The sum over all paths from a Function to `v` with fewer than `n` steps. -/
abbrev Linear.pathSum (L : Linear ops g In) (v : VarId) : Nat → FnId → WithZero T →+ WithZero T :=
  PathSum.pathSum g.children (fun f => (g.fns f).inputVariables) (fun f => slotMap (L.maps f)) v

/-- The sums that a pass has reached: what waits at the Functions, and what `v` was sent. -/
def sums (v : VarId) (p : Pass T) : (FnId → WithZero T) × WithZero T :=
  (fun f => sumOf (p.accumulators f), sumOf (writesTo v p.log))

/-- Between two Functions of the pass that started in `p₀`. -/
structure Progress (L : Linear ops g In) (p₀ : Pass T) (done rest : List FnId) (p : Pass T) :
    Prop where
  reads : SameReads (fun _ => True) (· ∈ rest) g p.graph
  fits : ∀ f, In f → ∀ t ∈ p.accumulators f, L.Fits f t
  sums_eq : ∀ v, Receives g v → sums v p = done.foldl (L.push v) (sums v p₀)
  handled_eq : handled p.log = handled p₀.log ++ done

variable {L : Linear ops g In} {p₀ : Pass T} {done rest : List FnId} {f : FnId}

/-- A Function at which nothing arrived is skipped and passes nothing on. -/
theorem Progress.skip (h : Progress L p₀ done (f :: rest) p) (hf : f ∉ rest)
    (hnone : ops.totalGrad (p.accumulators f) = none) (retain : Bool) (unshared : List FnId) :
    ∃ q, process ops retain unshared p f = (q, .ok ()) ∧ Progress L p₀ (done ++ [f]) rest q := by
  let q : Pass T := { p with log := p.log ++ [.skipped f] }
  obtain ⟨hlog, hacc⟩ := releaseHeld_log retain unshared q f
  have hreads : SameReads (fun _ => True) (· ∈ rest) g p.graph :=
    h.reads.mono fun c hc => mem_cons_of_mem f hc
  refine ⟨releaseHeld retain unshared q f, ?_, ?_⟩
  · unfold process
    simp only [hnone]
    rfl
  · refine ⟨hreads.trans (releaseHeld_reads q hf), ?_, ?_, ?_⟩
    · rw [hacc]
      exact h.fits
    · intro v hv
      have hzero : sumOf (p.accumulators f) = 0 := by
        rw [totalGrad_eq_none.mp hnone, sumOf_nil]
      have hsums : sums v (releaseHeld retain unshared q f) = sums v p := by
        simp only [sums, hlog, hacc, q, writesTo_append]
        simp [writesTo]
      rw [foldl_append, ← h.sums_eq v hv, hsums]
      simp only [foldl_cons, foldl_nil, PathSum.push, sums, hzero, map_zero,
        sumInto_zero, add_zero]
    · rw [hlog, handled_append, h.handled_eq, append_assoc]
      rfl

theorem Progress.process (h : Progress L p₀ done (f :: rest) p) (hf : f ∉ rest)
    (hexact : ops.Exact kinds) (hin : In f) (retain : Bool) (unshared : List FnId) :
    ∃ q, process ops retain unshared p f = (q, .ok ()) ∧ Progress L p₀ (done ++ [f]) rest q := by
  cases htotal : ops.totalGrad (p.accumulators f) with
  | none => exact h.skip hf htotal retain unshared
  | some total =>
    have hfits : L.Fits f total := L.fits_total hexact htotal (h.fits f hin)
    have hsame := h.reads.fns_same f mem_cons_self
    let grads := (L.maps f).map fun m => m total
    let called : Pass T := { p with log := p.log ++ [.called f] }
    have hreads : SameReads (fun _ => True) (· ∈ rest) g called.graph :=
      h.reads.mono fun c hc => mem_cons_of_mem f hc
    have hdtypes : validateGradDtypes ops (g.fns f).held.saved.name grads = .ok () := by
      rw [validateGradDtypes, forM_eq_ok]
      rintro ⟨t, i⟩ hmem
      obtain ⟨m, hm, rfl⟩ := mem_map.mp (fst_mem_of_mem_zipIdx hmem)
      simp [throwIf_eq_ok, L.differentiable f hin total hfits m hm]
    obtain ⟨q, hq, hsame', hacc, hhandled, hsum⟩ := @loop_deliver_linear _ _ ops g (· ∈ rest)
      called (g.fns f).held.saved.name grads (g.fns f).inputVariables 0 (L.no_hooks f hin)
      (by
        intro i w t hw ht hreq
        rw [Nat.zero_add, getElem?_map, Option.map_eq_some_iff] at ht
        obtain ⟨m, hm, rfl⟩ := ht
        exact L.input_shape f hin total hfits i w m hw hm hreq) hreads
    let passed : Pass T := { q with
      accumulators := propagate q.accumulators (g.fns f).nextFunctions grads }
    obtain ⟨hlog, hrelacc⟩ := releaseHeld_log retain unshared passed f
    refine ⟨releaseHeld retain unshared passed f, ?_, ?_⟩
    · unfold Engine.process
      simp only [htotal, hsame.held, hsame.inputVariables, hsame.nextFunctions, hsame.backward,
        h.reads.tensors_eq, L.valid f hin, L.backward_eq f hin total hfits, attempt_ok]
      rw [hdtypes, hq]
      rfl
    · refine ⟨(hreads.trans hsame').trans (releaseHeld_reads passed hf), ?_, ?_, ?_⟩
      · intro c hc t ht
        rw [hrelacc] at ht
        rcases mem_propagate ht with hmem | ⟨i, hi, hget⟩
        · rw [hacc] at hmem
          exact h.fits c hc t hmem
        · rw [getElem?_map, Option.map_eq_some_iff] at hget
          obtain ⟨m, hm, rfl⟩ := hget
          exact L.next_fits f hin total hfits i c m hi hm
      · intro v hv
        have harrived : sumOf (p.accumulators f) = asSum (some total) := by
          rw [← htotal, hexact.asSum_totalGrad]
        have hslot : ∀ i, slotMap (L.maps f) i (sumOf (p.accumulators f)) = asSum grads[i]? := by
          intro i
          rw [harrived, slotMap_coe]
        rw [foldl_append, ← h.sums_eq v hv]
        simp only [foldl_cons, foldl_nil, PathSum.push, sums, hslot]
        refine Prod.ext (funext fun c => ?_) ?_
        · simp only [hrelacc]
          rw [sumOf_propagate, hacc]
          rfl
        · simp only [hlog]
          rw [hsum v hv]
          simp only [called, writesTo_append, Nat.zero_add]
          simp [writesTo]
      · rw [hlog]
        rw [hhandled]
        simp only [called, handled_append, h.handled_eq, append_assoc]
        rfl

/-- A pass over additive Functions returns; it takes the Functions up in order and
sends every Variable what the pass over sums collects. -/
theorem runPass_linear (L : Linear ops g In) (hexact : ops.Exact kinds) (hnodup : sorted.Nodup)
    (hin : ∀ f ∈ sorted, In f) {p₀ : Pass T}
    (hreads : SameReads (fun _ => True) (· ∈ sorted) g p₀.graph)
    (hfits : ∀ f, In f → ∀ t ∈ p₀.accumulators f, L.Fits f t) (retain : Bool) (roots : List VarId) :
    (runPass ops retain sorted roots p₀).2 = .ok () ∧
      (∀ v, Receives g v → sumOf (writesTo v (runPass ops retain sorted roots p₀).1.log) =
        (sorted.reverse.foldl (L.push v) (sums v p₀)).2) ∧
      handled (runPass ops retain sorted roots p₀).1.log = handled p₀.log ++ sorted.reverse := by
  let body := Engine.process ops retain (computeUnsharedFunctions p₀.graph sorted)
  let P := fun rest p => ∃ done, sorted.reverse = done ++ rest ∧ Progress L p₀ done rest p
  have hstep : ∀ p f rest, P (f :: rest) p → ∃ q, body p f = (q, .ok ()) ∧ P rest q := by
    rintro p f rest ⟨done, hdone, hprogress⟩
    have hsplit : (done ++ f :: rest).Nodup := hdone ▸ nodup_reverse.mpr hnodup
    have hf : f ∉ rest := (nodup_cons.mp (nodup_append.mp hsplit).2.1).1
    have hmem : f ∈ sorted := by
      rw [← mem_reverse, hdone]
      simp
    obtain ⟨q, hq, hnext⟩ := hprogress.process hf hexact (hin f hmem) retain
      (computeUnsharedFunctions p₀.graph sorted)
    exact ⟨q, hq, done ++ [f], by simp [hdone], hnext⟩
  have hstart : P sorted.reverse p₀ :=
    ⟨[], rfl, hreads.mono fun f hf => mem_reverse.mp hf, hfits, fun _ _ => rfl,
      (append_nil _).symm⟩
  obtain ⟨q, hq, done, hdone, hprogress⟩ := loop_returns P hstep hstart
  rw [append_nil] at hdone
  have hlog : (runPass ops retain sorted roots p₀).1.log = q.log := by
    simp only [runPass]
    rw [show loop (Engine.process ops retain (computeUnsharedFunctions p₀.graph sorted)) p₀
      sorted.reverse = (q, .ok ()) from hq]
    rfl
  refine ⟨?_, ?_, ?_⟩
  · simp only [runPass]
    rw [show loop (Engine.process ops retain (computeUnsharedFunctions p₀.graph sorted)) p₀
      sorted.reverse = (q, .ok ()) from hq, andThen_ok]
  · intro v hv
    rw [hlog, hdone, ← hprogress.sums_eq v hv]
    rfl
  · rw [hlog, hprogress.handled_eq, hdone]

/-- The walk from any Functions: what waits at each Function reaches `v` along
all paths. -/
theorem runPass_paths (L : Linear ops g In) (hexact : ops.Exact kinds) (hclosed : g.Closed)
    {fs : List FnId} (hfs : ∀ f ∈ fs, f ∈ g.live) (hsort : topologicalSort g fs = .ok sorted)
    (hin : ∀ r ∈ fs, ∀ f, g.Reaches r f → In f) {p₀ : Pass T}
    (hreads : SameReads (fun _ => True) (fun _ => True) g p₀.graph)
    (hfits : ∀ f, In f → ∀ t ∈ p₀.accumulators f, L.Fits f t) (retain : Bool) (roots : List VarId) :
    (runPass ops retain sorted roots p₀).2 = .ok () ∧
      (∀ v, Receives g v → sumOf (writesTo v (runPass ops retain sorted roots p₀).1.log) =
        sumOf (writesTo v p₀.log) +
          ∑ c ∈ sorted.toFinset, L.pathSum v sorted.length c (sumOf (p₀.accumulators c))) ∧
      handled (runPass ops retain sorted roots p₀).1.log = handled p₀.log ++ sorted.reverse := by
  obtain ⟨horder, hmem⟩ := topologicalSort_ok hclosed hfs hsort
  have hall : ∀ f ∈ sorted, In f := by
    intro f hf
    obtain ⟨r, hr, hreach⟩ := (hmem f).mp hf
    exact hin r hr f hreach
  obtain ⟨hok, hsums, hhandled⟩ := runPass_linear L hexact (nodup_reverse.mp horder.nodup) hall
    (hreads.mono fun _ _ => trivial) hfits retain roots
  refine ⟨hok, fun v hv => ?_, hhandled⟩
  rw [hsums v hv, foldl_push horder (le_of_eq length_reverse), toFinset_reverse]
  rfl

/-! ## `execute` -/

section Execute

omit [AddCommSemigroup T]

/-- `f` is in the graph of `root`. -/
def InGraph (g : Graph T) (root : VarId) (f : FnId) : Prop :=
  ∃ f₀, (g.vars root).gradFn = some f₀ ∧ g.Reaches f₀ f

/-- No Function in `In` reaches itself. -/
def Acyclic (g : Graph T) (In : FnId → Prop) : Prop :=
  ∀ c, In c → ¬ Relation.TransGen (PostOrder.Child g.children) c c

/-- A path from the Function of `root` to a slot of `v`. -/
def IsRootPath (g : Graph T) (root : VarId) (p : Path) (v : VarId) : Prop :=
  ∃ f₀, (g.vars root).gradFn = some f₀ ∧
    IsPath g.children (fun f => (g.fns f).inputVariables) f₀ p v

end Execute

/-- The composition of the backward maps along a path from the Function of `root`. -/
def Linear.rootMap (L : Linear ops g In) (root : VarId) (p : Path) : WithZero T →+ WithZero T :=
  match (g.vars root).gradFn with
  | some f₀ => along g.children (fun f => slotMap (L.maps f)) f₀ p.1 p.2
  | none => 0

theorem sumOf_writesTo_seeded (hv : Receives g v) (root : VarId) (seed : T) :
    sumOf (writesTo v (seeded ops g root seed).log) =
      if root = v then asSum (some seed) else 0 := by
  have hwrites := (@deliverTo_reads _ (fun _ => True) (fun _ => True) _ ops (start g) root seed).2.2
  rw [seeded_eq]
  simp only [hwrites v]
  by_cases hroot : root = v
  · simp [hroot, start, hv.2, writesTo]
  · simp [hroot, start, writesTo]

/-- A single seeded Function contributes the sum over its paths. -/
theorem Linear.sum_paths (L : Linear ops g In) (hf₀ : f₀ ∈ sorted) (v : VarId) (seed : T) :
    ∑ c ∈ sorted.toFinset, L.pathSum v sorted.length c
        (sumOf (Function.update (fun _ => []) f₀ [seed] c)) =
      ((paths g.children (fun f => (g.fns f).inputVariables) v sorted.length f₀).map
        fun p => along g.children (fun f => slotMap (L.maps f)) f₀ p.1 p.2 (asSum (some seed))).sum := by
  rw [Finset.sum_eq_single f₀, Function.update_self, sumOf_cons, sumOf_nil, pathSum_eq]
  · rfl
  · intro c _ hne
    rw [Function.update_of_ne hne, sumOf_nil, map_zero]
  · intro hnot
    exact absurd (mem_toFinset.mpr hf₀) hnot

/-- What a call of `execute` does on the graph of `root`. -/
structure AddsPaths (L : Linear ops g In) (root : VarId) (seed : T) (r : Pass T × Except Exn Unit) :
    Prop where
  returns : r.2 = .ok ()
  /-- The sum runs over a list that has every path once. -/
  adds : ∀ v, Receives g v → ∃ ps : List Path, ps.Nodup ∧
    (∀ p, p ∈ ps ↔ IsRootPath g root p v) ∧
    asSum (r.1.graph.vars v).grad = asSum (g.vars v).grad +
      ((if root = v then asSum (some seed) else 0) +
        (ps.map fun p => L.rootMap root p (asSum (some seed))).sum)
  others : ∀ v, ¬ Receives g v → (r.1.graph.vars v).grad = (g.vars v).grad
  /-- Every Function of the graph is taken up once, after those that list it. -/
  order : PostOrder.ParentsFirst g.children (handled r.1.log)
  mem_order : ∀ f, f ∈ handled r.1.log ↔ InGraph g root f

theorem grad_of_not_receives (hexact : ops.Exact kinds) (hclosed : g.Closed) (root : VarId)
    (gradient : Option T) (retain : Bool) (hv : ¬ Receives g v) :
    ((execute ops g root gradient retain).1.graph.vars v).grad = (g.vars v).grad := by
  obtain ⟨released, roots, hout, -⟩ := @execute_spec _ _ ops g hclosed root gradient retain
  rw [hout.grad_eq kinds hexact v, writesTo_eq_nil]
  · rfl
  · intro t hmem
    have hwrote := hout.wrote v t hmem
    exact hv ⟨hwrote.1, hwrote.2.1⟩

variable {root : VarId}

/-- A root without a graph gets the seed. -/
theorem addsPaths_leaf (L : Linear ops g (InGraph g root)) (hexact : ops.Exact kinds)
    (hclosed : g.Closed) (hreq : (g.vars root).requiresGrad = true)
    (hfn : (g.vars root).gradFn = none)
    (hseed : synthesizeOrValidateRootGrad ops (g.vars root) gradient = .ok seed) (retain : Bool) :
    AddsPaths L root seed (execute ops g root gradient retain) := by
  have hexec : execute ops g root gradient retain = (seeded ops g root seed, .ok ()) := by
    simp [execute, hreq, hseed, hfn]
  have hnone : handled (execute ops g root gradient retain).1.log = [] := by
    rw [hexec, seeded_eq]
    exact handled_deliverTo _ _ _
  refine ⟨by rw [hexec], ?_, fun v hv => grad_of_not_receives hexact hclosed root gradient retain hv,
    by rw [hnone]; trivial, ?_⟩
  · intro v hv
    refine ⟨[], nodup_nil, ?_, ?_⟩
    · simp [IsRootPath, hfn]
    · rw [asSum_execute hexact hclosed, hexec, sumOf_writesTo_seeded hv]
      simp
  · rw [hnone]
    simp [InGraph, hfn]

/-- The pass of `execute` from a root with a graph. -/
theorem execute_graph_linear (L : Linear ops g In) (hexact : ops.Exact kinds) (hclosed : g.Closed)
    (hin : ∀ f, InGraph g root f → In f) (hacyclic : Acyclic g In)
    (hreq : (g.vars root).requiresGrad = true) (hfn : (g.vars root).gradFn = some f₀)
    (hseed : synthesizeOrValidateRootGrad ops (g.vars root) gradient = .ok seed)
    (hfits : L.Fits f₀ seed) (retain : Bool) :
    ∃ sorted, topologicalSort g [f₀] = .ok sorted ∧
      (execute ops g root gradient retain).2 = .ok () ∧
      handled (execute ops g root gradient retain).1.log = sorted.reverse ∧
      ∀ v, Receives g v → sumOf (writesTo v (execute ops g root gradient retain).1.log) =
        (if root = v then asSum (some seed) else 0) +
          ∑ c ∈ sorted.toFinset, L.pathSum v sorted.length c
            (sumOf (Function.update (fun _ => []) f₀ [seed] c)) := by
  have hlive : ∀ f ∈ [f₀], f ∈ g.live := by simpa using hclosed.gradFn_mem root f₀ hfn
  have hreach : ∀ r ∈ [f₀], ∀ f, g.Reaches r f → In f := by
    intro r hr f hreach
    rw [mem_singleton] at hr
    exact hin f ⟨f₀, hfn, hr ▸ hreach⟩
  rcases topologicalSort_spec hclosed hlive with ⟨sorted, hsort, -⟩ | ⟨-, r, hr, c, hc, hcycle⟩
  · let p₀ : Pass T := { seeded ops g root seed with
      accumulators := Function.update (fun _ => []) f₀ [seed] }
    have hexec : execute ops g root gradient retain = runPass ops retain sorted [root] p₀ := by
      simp [execute, hreq, hseed, hfn, topologicalSort_seeded, hsort, p₀]
    have hreads : SameReads (fun _ => True) (fun _ => True) g p₀.graph := by
      have hstart := @deliverTo_reads _ (fun _ => True) (fun _ => True) _ ops (start g) root seed
      simp only [p₀, seeded_eq]
      exact hstart.1
    have hfits₀ : ∀ f, In f → ∀ t ∈ p₀.accumulators f, L.Fits f t := by
      intro f _ t ht
      by_cases hf : f = f₀
      · subst hf
        have ht' : t ∈ [seed] := by simpa [p₀] using ht
        rwa [mem_singleton.mp ht']
      · simp [p₀, Function.update_of_ne hf] at ht
    obtain ⟨hok, hsums, hhandled⟩ := runPass_paths L hexact hclosed hlive hsort hreach hreads hfits₀
      retain [root]
    have hnone : handled p₀.log = [] := by
      simp only [p₀, seeded_eq]
      exact handled_deliverTo _ _ _
    rw [hnone, nil_append] at hhandled
    refine ⟨sorted, hsort, by rw [hexec, hok], by rw [hexec, hhandled], fun v hv => ?_⟩
    have hwrites : sumOf (writesTo v p₀.log) = if root = v then asSum (some seed) else 0 :=
      sumOf_writesTo_seeded hv root seed
    rw [hexec, hsums v hv, hwrites]
  · exact absurd hcycle (hacyclic c (hreach r hr c hc))

theorem addsPaths_graph (L : Linear ops g (InGraph g root)) (hexact : ops.Exact kinds)
    (hclosed : g.Closed) (hacyclic : Acyclic g (InGraph g root))
    (hreq : (g.vars root).requiresGrad = true) (hfn : (g.vars root).gradFn = some f₀)
    (hseed : synthesizeOrValidateRootGrad ops (g.vars root) gradient = .ok seed)
    (hfits : L.Fits f₀ seed) (retain : Bool) :
    AddsPaths L root seed (execute ops g root gradient retain) := by
  obtain ⟨sorted, hsort, hok, hhandled, hsums⟩ := execute_graph_linear L hexact hclosed
    (fun _ hf => hf) hacyclic hreq hfn hseed hfits retain
  obtain ⟨horder, hmem⟩ := topologicalSort_ok hclosed
    (by simpa using hclosed.gradFn_mem root f₀ hfn) hsort
  have hmem₀ : f₀ ∈ sorted :=
    (hmem f₀).mpr ⟨f₀, mem_singleton_self _, Relation.ReflTransGen.refl⟩
  refine ⟨hok, ?_, fun v hv => grad_of_not_receives hexact hclosed root gradient retain hv, ?_, ?_⟩
  · intro v hv
    refine ⟨paths g.children (fun f => (g.fns f).inputVariables) v sorted.length f₀,
      nodup_paths _ _ _ _ _, ?_, ?_⟩
    · intro p
      rw [← length_reverse, mem_paths_length horder (mem_reverse.mpr hmem₀)]
      simp [IsRootPath, hfn]
    · rw [asSum_execute hexact hclosed, hsums v hv, L.sum_paths hmem₀]
      simp only [Linear.rootMap, hfn]
  · rw [hhandled]
    exact horder
  · intro f
    rw [hhandled, mem_reverse, hmem f]
    simp [InGraph, hfn]

/-- `execute` on a root that requires gradients returns and adds to every Variable
that requires and keeps gradients the sum over all paths, besides the seed for
the root; a root that does not require gradients changes nothing. -/
theorem execute_addsPaths (hexact : ops.Exact kinds) (hclosed : g.Closed)
    (hacyclic : Acyclic g (InGraph g root)) (L : Linear ops g (InGraph g root))
    {gradient : Option T} {seed : T}
    (hseed : synthesizeOrValidateRootGrad ops (g.vars root) gradient = .ok seed)
    (hfits : ∀ f₀, (g.vars root).gradFn = some f₀ → L.Fits f₀ seed) (retain : Bool) :
    ((g.vars root).requiresGrad = true →
        AddsPaths L root seed (execute ops g root gradient retain)) ∧
      ((g.vars root).requiresGrad = false →
        execute ops g root gradient retain = (start g, .ok ())) := by
  constructor
  · intro hreq
    cases hfn : (g.vars root).gradFn with
    | none => exact addsPaths_leaf L hexact hclosed hreq hfn hseed retain
    | some f₀ =>
      exact addsPaths_graph L hexact hclosed hacyclic hreq hfn hseed (hfits f₀ hfn) retain
  · intro hreq
    simp [execute, hreq]

/-- The backward of an operation that reads its input twice. -/
def passTwice : TensorHeap → Held → List Int → Except Exn (List Int) :=
  fun _ _ grads => .ok (grads ++ grads)

/-- A leaf `x`, `y` computed from `x` twice, and `z` computed from `y` twice,
which retains its gradient. -/
def twiceActions : List (Graph.Action Int) :=
  [.leaf 1 true, .op [0, 0] 1 Graph.nothingHeld passTwice,
    .op [1, 1] 1 Graph.nothingHeld passTwice, .retainGrad 2]

def twiceGraph : Graph Int := (Graph.blankGraph.run Graph.scalarOps twiceActions).getD Graph.blankGraph

theorem twiceGraph_closed : twiceGraph.Closed :=
  (Graph.Run.wellFormed (Graph.Run.refl.of_run
    (rfl : Graph.blankGraph.run Graph.scalarOps twiceActions = some twiceGraph))
    Graph.blankGraph_initial).toClosed

theorem twiceGraph_reaches {f : FnId} (hf : f = 1 ∨ f = 0) (h : twiceGraph.Reaches f c) :
    c = 1 ∨ c = 0 := by
  apply h.mem (fun c => c = 1 ∨ c = 0) hf
  rintro d (rfl | rfl) e he
  · have hmem : some e ∈ [some 0, some 0] := he
    exact .inr (by simpa using hmem)
  · have hmem : some e ∈ [none, none] := he
    simp at hmem

theorem twiceGraph_inGraph {f : FnId} (h : InGraph twiceGraph 2 f) : f = 1 ∨ f = 0 := by
  obtain ⟨f₀, hf₀, hreach⟩ := h
  exact twiceGraph_reaches (.inl (Option.some.inj hf₀).symm) hreach

theorem twiceGraph_acyclic {In : FnId → Prop} (hin : ∀ f, In f → f = 1 ∨ f = 0) :
    Acyclic twiceGraph In := by
  -- Along an edge the number of the Function falls.
  have hchild : ∀ b e, b = 1 ∨ b = 0 → PostOrder.Child twiceGraph.children b e → e < b := by
    rintro b e (rfl | rfl) he
    · have hmem : some e ∈ [some 0, some 0] := he
      have h0 : e = 0 := by simpa using hmem
      rw [h0]
      exact Nat.zero_lt_one
    · have hmem : some e ∈ [none, none] := he
      simp at hmem
  have hfall : ∀ c d, c = 1 ∨ c = 0 →
      Relation.TransGen (PostOrder.Child twiceGraph.children) c d → d < c := by
    intro c d hc hcd
    induction hcd with
    | single he => exact hchild c _ hc he
    | tail hcb he ih =>
      exact (hchild _ _ (twiceGraph_reaches hc hcb.to_reflTransGen) he).trans ih
  intro c hc hcycle
  exact lt_irrefl c (hfall c c (hin c hc) hcycle)

/-- Both Functions send what they get to both slots. -/
def twiceLinear {In : FnId → Prop} (hin : ∀ f, In f → f = 1 ∨ f = 0) :
    Linear Graph.scalarOps twiceGraph In where
  maps := fun _ => [AddHom.id Int, AddHom.id Int]
  Fits := fun _ _ => True
  fits_add := fun _ _ _ _ _ => trivial
  valid := by
    intro f hf
    rcases hin f hf with rfl | rfl
    · rfl
    · rfl
  backward_eq := by
    intro f hf t _
    rcases hin f hf with rfl | rfl
    · rfl
    · rfl
  differentiable := fun _ _ _ _ _ _ => rfl
  input_shape := fun _ _ _ _ _ _ _ _ _ _ => rfl
  next_fits := fun _ _ _ _ _ _ _ _ _ => trivial
  no_hooks := by
    intro f hf v hv
    rcases hin f hf with rfl | rfl
    · have hmem : some v ∈ [some 1, some 1] := hv
      obtain rfl : v = 1 := by simpa using hmem
      rfl
    · have hmem : some v ∈ [some 0, some 0] := hv
      obtain rfl : v = 0 := by simpa using hmem
      rfl

/-- Four paths lead from `z` to `x`. -/
theorem execute_addsPaths_twice :
    AddsPaths (twiceLinear fun _ => twiceGraph_inGraph) 2 1
        (execute Graph.scalarOps twiceGraph 2 none false) ∧
      ((execute Graph.scalarOps twiceGraph 2 none false).1.graph.vars 0).grad = some 4 :=
  ⟨(execute_addsPaths Graph.scalarOps_exact twiceGraph_closed
    (twiceGraph_acyclic fun _ => twiceGraph_inGraph) (twiceLinear fun _ => twiceGraph_inGraph) rfl
    (fun _ _ => trivial) false).1 rfl, rfl⟩

/-- The retained root has the seed as its gradient, and no path leads to it. -/
theorem retained_root_gets_seed :
    ¬ ∀ (g : Graph Int) (root : VarId) (L : Linear Graph.scalarOps g (InGraph g root))
      (gradient : Option Int) (seed : Int), g.Closed → Acyclic g (InGraph g root) →
      synthesizeOrValidateRootGrad Graph.scalarOps (g.vars root) gradient = .ok seed →
      (∀ f₀, (g.vars root).gradFn = some f₀ → L.Fits f₀ seed) →
      ∀ v, (g.vars v).keepsGrad = true → ∃ ps : List Path, ps.Nodup ∧
        (∀ p, p ∈ ps ↔ IsRootPath g root p v) ∧
        asSum ((execute Graph.scalarOps g root gradient false).1.graph.vars v).grad =
          asSum (g.vars v).grad + (ps.map fun p => L.rootMap root p (asSum (some seed))).sum := by
  intro hall
  obtain ⟨ps, -, hmem, hsum⟩ := hall twiceGraph 2 (twiceLinear fun _ => twiceGraph_inGraph) none 1
    twiceGraph_closed (twiceGraph_acyclic fun _ => twiceGraph_inGraph) rfl (fun _ _ => trivial) 2 rfl
  have hempty : ps = [] := by
    apply eq_nil_iff_forall_not_mem.mpr
    intro p hp
    obtain ⟨f₀, hf₀, c, hc, hslot⟩ := (hmem p).mp hp
    have hinput : some 2 ∈ (twiceGraph.fns c).inputVariables := (mem_of_entry hslot).1
    rcases twiceGraph_inGraph ⟨f₀, hf₀, reaches_of_follow hc⟩ with rfl | rfl
    · exact absurd hinput (by decide)
    · exact absurd hinput (by decide)
  rw [hempty] at hsum
  exact absurd hsum (by decide)

end Engine

end Tenzor
