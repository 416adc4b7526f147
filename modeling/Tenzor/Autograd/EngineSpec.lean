import Tenzor.Autograd.Engine

/-!
# What a backward pass can change

The loop of a pass writes gradients of Variables that keep them and releases
what unshared Functions hold; the cleanup drops edges of unshared Functions and
the `grad_fn` of their inputs and of the root. Nothing else changes, whether
the pass returns or throws.
-/

namespace Tenzor

open KeepState List

namespace Engine

variable {T : Type} {kinds : Set DType} {released sorted : List FnId} {Listed : VarId → Prop}
  {g g' : Graph T} {new : List (LogEntry T)} {p : Pass T} {root : VarId} {gradient : Option T}
  {f : FnId}

/-- The gradients written to `v`, in order. -/
def writesTo (v : VarId) (log : List (LogEntry T)) : List T :=
  log.filterMap fun
    | .wrote w t => if w = v then some t else none
    | _ => none

@[simp] theorem writesTo_append (v : VarId) (log log' : List (LogEntry T)) :
    writesTo v (log ++ log') = writesTo v log ++ writesTo v log' :=
  filterMap_append

theorem writesTo_eq_nil {v : VarId} {log : List (LogEntry T)}
    (h : ∀ t, .wrote v t ∉ log) : writesTo v log = [] := by
  rw [writesTo, filterMap_eq_nil_iff]
  intro e he
  cases e with
  | skipped f => rfl
  | called f => rfl
  | wrote w t =>
    have hne : w ≠ v := by
      rintro rfl
      exact h t he
    simp [hne]

variable [Add T]

/-- `.grad` after a sequence of accumulations. -/
def accumulateAll (ops : TensorOps T) (grad : Option T) (ts : List T) : Option T :=
  ts.foldl (fun grad t => some (ops.accumulate grad t)) grad

variable {ops : TensorOps T}

theorem accumulateAll_append (grad : Option T) (ts ts' : List T) :
    accumulateAll ops grad (ts ++ ts') = accumulateAll ops (accumulateAll ops grad ts) ts' :=
  foldl_append

theorem accumulateAll_eq_none {grad : Option T} {ts : List T} :
    accumulateAll ops grad ts = none ↔ grad = none ∧ ts = [] := by
  cases ts with
  | nil => simp [accumulateAll]
  | cons t ts =>
    have hsome : ∀ (ts : List T) (e : T), (accumulateAll ops (some e) ts).isSome := by
      intro ts
      induction ts with
      | nil => exact fun _ => rfl
      | cons t ts ih => exact fun e => ih _
    have hcons : (accumulateAll ops grad (t :: ts)).isSome := hsome ts _
    simp [Option.isSome_iff_ne_none.mp hcons]

/-! ## The frame of the loop -/

/-- From `p` the pass has come to `q`, with the given new entries of the log. -/
structure Frame (ops : TensorOps T) (retainGraph : Bool) (unshared : List FnId)
    (Listed : VarId → Prop) (p : Pass T) (new : List (LogEntry T)) (q : Pass T) : Prop where
  rest : q.graph = { p.graph with fns := q.graph.fns, vars := q.graph.vars }
  log_eq : q.log = p.log ++ new
  vars_eq : ∀ v, q.graph.vars v = { p.graph.vars v with
    grad := accumulateAll ops (p.graph.vars v).grad (writesTo v new) }
  wrote : ∀ v t, .wrote v t ∈ new →
    (p.graph.vars v).requiresGrad = true ∧ (p.graph.vars v).keepsGrad = true ∧ Listed v
  touched : ∀ v ∈ q.touched, v ∈ p.touched ∨ ∃ t, .wrote v t ∈ new
  fns_eq : ∀ f, q.graph.fns f = p.graph.fns f ∨
    retainGraph = false ∧ f ∈ unshared ∧
      q.graph.fns f = { p.graph.fns f with held := (p.graph.fns f).held.release }

namespace Frame

variable {retainGraph : Bool} {unshared : List FnId} {Listed : VarId → Prop} {p q r : Pass T}
  {new new' : List (LogEntry T)}

theorem refl (p : Pass T) : Frame ops retainGraph unshared Listed p [] p where
  rest := rfl
  log_eq := (append_nil _).symm
  vars_eq := fun _ => rfl
  wrote := nofun
  touched := fun _ hv => .inl hv
  fns_eq := fun _ => .inl rfl

theorem trans (h : Frame ops retainGraph unshared Listed p new q)
    (h' : Frame ops retainGraph unshared Listed q new' r) :
    Frame ops retainGraph unshared Listed p (new ++ new') r where
  rest := by rw [h'.rest, h.rest]
  log_eq := by rw [h'.log_eq, h.log_eq, append_assoc]
  vars_eq := by
    intro v
    rw [h'.vars_eq v, h.vars_eq v, writesTo_append, accumulateAll_append]
  wrote := by
    intro v t hmem
    rcases mem_append.mp hmem with hmem | hmem
    · exact h.wrote v t hmem
    · have hw := h'.wrote v t hmem
      rw [h.vars_eq v] at hw
      exact hw
  touched := by
    intro v hv
    rcases h'.touched v hv with hv | ⟨t, ht⟩
    · exact (h.touched v hv).imp_right fun ⟨t, ht⟩ => ⟨t, mem_append_left _ ht⟩
    · exact .inr ⟨t, mem_append_right _ ht⟩
  fns_eq := by
    intro f
    rcases h'.fns_eq f with hf' | ⟨hr, hu, hf'⟩
    · rw [hf']
      exact h.fns_eq f
    · right
      refine ⟨hr, hu, ?_⟩
      rcases h.fns_eq f with hf | ⟨-, -, hf⟩
      · rw [hf', hf]
      · -- Releasing twice is releasing once.
        rw [hf', hf]
        rfl

/-- A pass that only extends the log, by entries that are no writes. -/
theorem of_log {e : LogEntry T} (he : ∀ v t, e ≠ .wrote v t) :
    Frame ops retainGraph unshared Listed p [e] { p with log := p.log ++ [e] } where
  rest := rfl
  log_eq := rfl
  vars_eq := by
    intro v
    rw [writesTo_eq_nil]
    · rfl
    · intro t hmem
      exact he v t (mem_singleton.mp hmem).symm
  wrote := by
    intro v t hmem
    exact absurd (mem_singleton.mp hmem).symm (he v t)
  touched := fun _ hv => .inl hv
  fns_eq := fun _ => .inl rfl

theorem of_accumulators (acc : FnId → List T) :
    Frame ops retainGraph unshared Listed p [] { p with accumulators := acc } :=
  { refl p with }

theorem of_write {v : VarId} {t : T} {touched : List VarId}
    (hreq : (p.graph.vars v).requiresGrad = true) (hkeep : (p.graph.vars v).keepsGrad = true)
    (hlisted : Listed v) (htouched : ∀ w ∈ touched, w ∈ p.touched ∨ w = v) :
    Frame ops retainGraph unshared Listed p [.wrote v t]
      { write ops p v t with touched := touched } where
  rest := rfl
  log_eq := rfl
  vars_eq := by
    intro w
    by_cases hw : w = v
    · subst hw
      simp only [write, Graph.setVar, Function.update_self, accumulateGrad, writesTo,
        filterMap_cons, if_true, filterMap_nil, accumulateAll, foldl_cons,
        foldl_nil]
    · simp only [write, Graph.setVar, Function.update_of_ne hw, writesTo, filterMap_cons,
        if_neg (Ne.symm hw), filterMap_nil, accumulateAll, foldl_nil]
  wrote := by
    intro w u hmem
    obtain ⟨rfl, rfl⟩ : w = v ∧ u = t := by simpa using hmem
    exact ⟨hreq, hkeep, hlisted⟩
  touched := by
    intro w hw
    rcases htouched w hw with hw | rfl
    · exact .inl hw
    · exact .inr ⟨t, mem_singleton_self _⟩
  fns_eq := fun _ => .inl rfl

theorem of_release (f : FnId) :
    Frame ops retainGraph unshared Listed p [] (releaseHeld retainGraph unshared p f) := by
  unfold releaseHeld
  split_ifs with h
  · refine { @refl _ _ ops retainGraph unshared Listed p with fns_eq := fun c => ?_, rest := rfl }
    by_cases hc : c = f
    · subst hc
      refine .inr ⟨h.1, h.2, ?_⟩
      simp only [Graph.setFn, Function.update_self]
    · left
      simp only [Graph.setFn, Function.update_of_ne hc]
  · exact refl p

end Frame

section Loop

variable {retainGraph : Bool} {unshared : List FnId} {Listed : VarId → Prop}

variable (ops) {p q : Pass T} {f : FnId} in
/-- An input is skipped, stops the pass by its shape, or gets its gradient. -/
theorem deliver_cases (name : String) (s : Pass T × List T) (input : Option VarId × Nat) :
    deliver ops name s input = (s, .ok ()) ∨
      ∃ v grad, input.1 = some v ∧ s.2[input.2]? = some grad ∧
        (s.1.graph.vars v).requiresGrad = true ∧
        deliver ops name s input =
          attempt s (validateGradShapeOrThrow ops name input.2 (s.1.graph.vars v) grad) fun _ =>
            ((deliverTo ops s.1 v (applyHooks (s.1.graph.vars v) grad),
              if (s.1.graph.vars v).hooks.isEmpty then s.2
              else s.2.set input.2 (applyHooks (s.1.graph.vars v) grad)), .ok ()) := by
  unfold deliver
  split
  · rename_i v grad hv hgrad
    by_cases hreq : (s.1.graph.vars v).requiresGrad = true
    · exact .inr ⟨v, grad, hv, hgrad, hreq, by simp only [hreq, if_true]⟩
    · exact .inl (by simp [hreq])
  · exact .inl rfl

theorem deliverTo_frame {v : VarId} {t : T} (hreq : (p.graph.vars v).requiresGrad = true)
    (hlisted : Listed v) :
    ∃ new, Frame ops retainGraph unshared Listed p new (deliverTo ops p v t) := by
  unfold deliverTo
  split_ifs with hkeep
  · refine ⟨_, Frame.of_write hreq hkeep hlisted ?_⟩
    intro w hw
    exact (mem_cons.mp hw).symm
  · exact ⟨[], Frame.refl p⟩

theorem deliver_frame {name : String} {s : Pass T × List T} {input : Option VarId × Nat}
    (hlisted : ∀ v, input.1 = some v → Listed v) :
    ∃ new, Frame ops retainGraph unshared Listed s.1 new (deliver ops name s input).1.1 := by
  obtain h | ⟨v, grad, hv, -, hreq, h⟩ := deliver_cases ops name s input
  · rw [h]
    exact ⟨[], Frame.refl _⟩
  · rw [h]
    refine attempt_invariant (P := fun s' : Pass T × List T => ∃ new,
      Frame ops retainGraph unshared Listed s.1 new s'.1) ⟨[], Frame.refl _⟩ fun _ _ => ?_
    exact deliverTo_frame hreq (hlisted v hv)

theorem process_frame {p : Pass T} {f : FnId}
    (hlisted : ∀ v, some v ∈ (p.graph.fns f).inputVariables → Listed v) :
    ∃ new, Frame ops retainGraph unshared Listed p new
      (process ops retainGraph unshared p f).1 := by
  unfold process
  split
  · exact ⟨_, (Frame.of_log nofun).trans (Frame.of_release f)⟩
  · have hcalled : Frame ops retainGraph unshared Listed p [.called f]
        { p with log := p.log ++ [.called f] } := Frame.of_log nofun
    let P := fun q => ∃ new, Frame ops retainGraph unshared Listed p new q
    refine attempt_invariant (P := P) ⟨[], Frame.refl p⟩ fun _ _ => ?_
    refine attempt_invariant (P := P) ⟨_, hcalled⟩ fun grads _ => ?_
    refine attempt_invariant (P := P) ⟨_, hcalled⟩ fun _ _ => ?_
    have hloop : ∃ new, Frame ops retainGraph unshared Listed p new
        (loop (deliver ops (p.graph.fns f).held.saved.name)
          ({ p with log := p.log ++ [.called f] }, grads)
          (p.graph.fns f).inputVariables.zipIdx).1.1 := by
      refine loop_invariant (fun s : Pass T × List T => P s.1) ?_ ⟨_, hcalled⟩
      rintro s ⟨o, i⟩ hinput ⟨new, hs⟩
      have ho : ∀ v, o = some v → Listed v := by
        rintro v rfl
        exact hlisted v (mem_of_getElem? (mem_zipIdx_iff_getElem?.mp hinput))
      obtain ⟨new', hs'⟩ := @deliver_frame _ _ ops retainGraph unshared Listed
        (p.graph.fns f).held.saved.name s (o, i) ho
      exact ⟨_, hs.trans hs'⟩
    obtain ⟨new, hnew⟩ := hloop
    refine andThen_invariant (P := P) ⟨new, hnew⟩ fun q hq => ?_
    obtain ⟨new', hnew'⟩ := hq
    exact ⟨_, (hnew'.trans (Frame.of_accumulators _)).trans (Frame.of_release f)⟩

theorem loop_frame {p : Pass T} {l : List FnId}
    (hlisted : ∀ f ∈ l, ∀ v, some v ∈ (p.graph.fns f).inputVariables → Listed v) :
    ∃ new, Frame ops retainGraph unshared Listed p new
      (loop (process ops retainGraph unshared) p l).1 := by
  refine loop_invariant (fun q => ∃ new, Frame ops retainGraph unshared Listed p new q) ?_
    ⟨[], Frame.refl p⟩
  rintro q f hf ⟨new, hq⟩
  have hinputs : (q.graph.fns f).inputVariables = (p.graph.fns f).inputVariables := by
    rcases hq.fns_eq f with h | ⟨-, -, h⟩ <;> rw [h]
  obtain ⟨new', hq'⟩ := @process_frame _ _ ops retainGraph unshared Listed q f
    (by rw [hinputs]; exact hlisted f hf)
  exact ⟨_, hq.trans hq'⟩

/-- A Function that was processed without a throw had no gradient, or its
gradients were delivered and passed on. -/
theorem process_ok (h : process ops retainGraph unshared p f = (q, .ok ())) :
    (ops.totalGrad (p.accumulators f) = none ∧
        q = releaseHeld retainGraph unshared { p with log := p.log ++ [.skipped f] } f) ∨
      ∃ total grads s, ops.totalGrad (p.accumulators f) = some total ∧
        (p.graph.fns f).backward p.graph.tensors (p.graph.fns f).held [total] = .ok grads ∧
        loop (deliver ops (p.graph.fns f).held.saved.name)
          ({ p with log := p.log ++ [.called f] }, grads)
          (p.graph.fns f).inputVariables.zipIdx = (s, .ok ()) ∧
        q = releaseHeld retainGraph unshared { s.1 with
          accumulators := propagate s.1.accumulators (p.graph.fns f).nextFunctions s.2 } f := by
  unfold process at h
  split at h
  · rename_i hnone
    exact .inl ⟨hnone, (congrArg Prod.fst h).symm⟩
  · rename_i total htotal
    obtain ⟨-, -, h⟩ := attempt_eq_ok.mp h
    obtain ⟨grads, hgrads, h⟩ := attempt_eq_ok.mp h
    obtain ⟨-, -, h⟩ := attempt_eq_ok.mp h
    obtain ⟨hloop, h⟩ := andThen_eq_ok.mp h
    exact .inr ⟨total, grads, _, htotal, hgrads, Prod.ext rfl hloop, (congrArg Prod.fst h).symm⟩

omit [Add T] in
theorem releaseHeld_released (hretain : retainGraph = false) (hf : f ∈ unshared) :
    ((releaseHeld retainGraph unshared p f).graph.fns f).held.release =
      ((releaseHeld retainGraph unshared p f).graph.fns f).held := by
  rw [releaseHeld, if_pos ⟨hretain, hf⟩]
  simp only [Graph.setFn, Function.update_self]
  rfl

/-- After a returning loop every unshared Function has released what it held. -/
theorem loop_released {l : List FnId} (hretain : retainGraph = false)
    (h : loop (process ops retainGraph unshared) p l = (q, .ok ())) :
    ∀ f ∈ l, f ∈ unshared → (q.graph.fns f).held.release = (q.graph.fns f).held := by
  have hdone := loop_returned (fun rest s => ∀ f ∈ l, f ∉ rest → f ∈ unshared →
    (s.graph.fns f).held.release = (s.graph.fns f).held) ?_ h (fun f hf hno _ => absurd hf hno)
  · intro f hf hu
    exact hdone f hf not_mem_nil hu
  · intro s f rest s' hs hstep c hc hno hu
    by_cases hcf : c = f
    · subst hcf
      rcases process_ok hstep with ⟨-, rfl⟩ | ⟨total, grads, t, -, -, -, rfl⟩
      · exact releaseHeld_released hretain hu
      · exact releaseHeld_released hretain hu
    · have hbefore := hs c hc (by simp [hcf, hno]) hu
      obtain ⟨new, hframe⟩ := @process_frame _ _ ops retainGraph unshared (fun _ => True) s f
        fun _ _ => trivial
      rw [hstep] at hframe
      rcases hframe.fns_eq c with heq | ⟨-, -, heq⟩
      · rw [heq, hbefore]
      · rw [heq]
        rfl

end Loop

omit [Add T] in
variable (ops) in
theorem restoreDtype_eq (x : VariableImpl T) :
    restoreDtype ops x = { x with grad := (restoreDtype ops x).grad } ∧
      ((restoreDtype ops x).grad = none ↔ x.grad = none) := by
  unfold restoreDtype
  split
  · rename_i h
    exact ⟨rfl, Iff.rfl⟩
  · rename_i t h
    split_ifs
    · exact ⟨rfl, by simp [h]⟩
    · exact ⟨rfl, Iff.rfl⟩

omit [Add T] in
theorem restoreDtype_exact (hexact : ops.Exact kinds) (x : VariableImpl T) :
    restoreDtype ops x = x := by
  unfold restoreDtype
  split
  · rfl
  · rename_i t h
    split_ifs with hne
    · rw [hexact.cast_eq t _ (hexact.dtype_mem x.data) hne.1, ← h]
    · rfl

omit [Add T] in
theorem finalize_vars (p : Pass T) (roots : List VarId) (v : VarId) :
    (finalize ops p roots).graph.vars v =
        { p.graph.vars v with grad := ((finalize ops p roots).graph.vars v).grad } ∧
      (((finalize ops p roots).graph.vars v).grad = none ↔ (p.graph.vars v).grad = none) := by
  obtain ⟨heq, hnone⟩ := restoreDtype_eq ops (p.graph.vars v)
  simp only [finalize]
  split_ifs
  · obtain ⟨heq', hnone'⟩ := restoreDtype_eq ops (restoreDtype ops (p.graph.vars v))
    refine ⟨?_, hnone'.trans hnone⟩
    rw [heq', heq]
  · exact ⟨heq, hnone⟩
  · exact ⟨heq, hnone⟩
  · exact ⟨rfl, Iff.rfl⟩

omit [Add T] in
theorem finalize_exact (hexact : ops.Exact kinds) (p : Pass T) (roots : List VarId) :
    finalize ops p roots = p := by
  simp only [finalize, restoreDtype_exact hexact, ite_self]

/-! ## The cleanup -/

/-- The edges of the released Functions and the `grad_fn`s of their inputs and
of the roots are gone. -/
structure Cleaned (released : List FnId) (roots : List VarId) (g g' : Graph T) : Prop where
  rest : g' = { g with fns := g'.fns, vars := g'.vars }
  vars_eq : ∀ v, g'.vars v = { g.vars v with
    gradFn := if (∃ f ∈ released, some v ∈ (g.fns f).inputVariables) ∨ v ∈ roots then none
              else (g.vars v).gradFn }
  held_eq : ∀ c, (g'.fns c).held = (g.fns c).held
  backward_eq : ∀ c, (g'.fns c).backward = (g.fns c).backward
  inputs_eq : ∀ c, (g'.fns c).inputVariables =
    if c ∈ released then [] else (g.fns c).inputVariables
  next_eq : ∀ c, (g'.fns c).nextFunctions = if c ∈ released then [] else (g.fns c).nextFunctions
  count_eq : ∀ c, (g'.fns c).parentCount = (g.fns c).parentCount - g.edgesInto released c

section Cleanup

omit [Add T]

variable {g : Graph T} {sorted : List FnId}

theorem resetGradFn_eq (g : Graph T) (w : VarId) :
    resetGradFn g w = g.setVar w { g.vars w with gradFn := none } := by
  unfold resetGradFn
  split_ifs with hleaf
  · have hnone : (g.vars w).gradFn = none := by simpa [VariableImpl.isLeaf] using hleaf
    have hsame : { g.vars w with gradFn := none } = g.vars w := by rw [← hnone]
    rw [hsame, Graph.setVar, Function.update_eq_self]
  · simp [Graph.setVar, VariableImpl.setGradFn]

/-- Every Variable listed has lost its `grad_fn`. -/
def clearGradFns (g : Graph T) (inputs : List (Option VarId)) : Graph T :=
  { g with vars := fun v =>
      if some v ∈ inputs then { g.vars v with gradFn := none } else g.vars v }

theorem foldl_resetInput (inputs : List (Option VarId)) (g : Graph T) :
    inputs.foldl resetInput g = clearGradFns g inputs := by
  induction inputs generalizing g with
  | nil => simp [clearGradFns]
  | cons input rest ih =>
    rw [foldl_cons, ih]
    cases input with
    | none => simp [resetInput, clearGradFns]
    | some w =>
      rw [resetInput, resetGradFn_eq]
      simp only [clearGradFns, Graph.setVar]
      congr 1
      funext v
      by_cases hv : v = w
      · subst hv
        simp
      · simp [hv]

theorem cleanupFunction_cleaned (g : Graph T) (f : FnId) : Cleaned [f] [] g (cleanupFunction g f) := by
  let cleared := clearGradFns g (g.fns f).inputVariables
  have heq : cleanupFunction g f = (cleared.setInputVariables f []).setNextFunctions f [] := by
    rw [cleanupFunction, foldl_resetInput]
  have hspec := Graph.setNextFunctions_spec (cleared.setInputVariables f []) f []
  have hfns : ∀ c, (cleared.setInputVariables f []).fns c =
      if c = f then { g.fns f with inputVariables := [] } else g.fns c := by
    intro c
    by_cases hc : c = f
    · subst hc
      simp [Graph.setInputVariables, Graph.setFn, cleared, clearGradFns]
    · simp [Graph.setInputVariables, Graph.setFn, hc, cleared, clearGradFns]
  rw [heq]
  constructor
  · rfl
  · intro v
    by_cases hv : some v ∈ (g.fns f).inputVariables
    · simp [Graph.setNextFunctions, Graph.setInputVariables, Graph.setFn, cleared, clearGradFns, hv]
    · simp [Graph.setNextFunctions, Graph.setInputVariables, Graph.setFn, cleared, clearGradFns, hv]
  · intro c
    rw [(hspec c).1, hfns c]
    split_ifs with hc
    · rw [hc]
    · rfl
  · intro c
    rw [(hspec c).2.2.1, hfns c]
    split_ifs with hc
    · rw [hc]
    · rfl
  · intro c
    rw [(hspec c).2.1, hfns c]
    simp only [mem_singleton]
    split_ifs <;> rfl
  · intro c
    rw [(hspec c).2.2.2.1, hfns c]
    simp only [mem_singleton]
    split_ifs <;> rfl
  · intro c
    have hf : ((cleared.setInputVariables f []).fns f).nextFunctions = (g.fns f).nextFunctions := by
      rw [hfns f, if_pos rfl]
    have hc : ((cleared.setInputVariables f []).fns c).parentCount = (g.fns c).parentCount := by
      rw [hfns c]
      split_ifs with hc
      · rw [hc]
      · rfl
    rw [(hspec c).2.2.2.2, hf, hc]
    simp [Graph.edgesInto]

theorem Cleaned.refl (g : Graph T) : Cleaned [] [] g g := by
  constructor <;> simp [Graph.edgesInto]

theorem Cleaned.cons {f : FnId} {rest : List FnId} {g₁ g₂ : Graph T} (hf : f ∉ rest)
    (h : Cleaned [f] [] g g₁) (h' : Cleaned rest [] g₁ g₂) : Cleaned (f :: rest) [] g g₂ := by
  have hne : ∀ c ∈ rest, c ≠ f := fun c hc => ne_of_mem_of_not_mem hc hf
  have hinputs : ∀ c ∈ rest, (g₁.fns c).inputVariables = (g.fns c).inputVariables := by
    intro c hc
    rw [h.inputs_eq c, if_neg (by simpa using hne c hc)]
  have hnext : ∀ c ∈ rest, (g₁.fns c).nextFunctions = (g.fns c).nextFunctions := by
    intro c hc
    rw [h.next_eq c, if_neg (by simpa using hne c hc)]
  have hrest : ∀ v, (∃ c ∈ rest, some v ∈ (g₁.fns c).inputVariables) ↔
      ∃ c ∈ rest, some v ∈ (g.fns c).inputVariables := by
    intro v
    apply exists_congr
    intro c
    rw [and_congr_right_iff]
    intro hc
    rw [hinputs c hc]
  constructor
  · rw [h'.rest, h.rest]
  · intro v
    rw [h'.vars_eq v, h.vars_eq v]
    simp only [hrest, not_mem_nil, or_false, exists_eq_left, mem_cons,
      exists_eq_or_imp]
    by_cases hv : some v ∈ (g.fns f).inputVariables
    · simp [hv]
    · simp [hv]
  · intro c
    rw [h'.held_eq, h.held_eq]
  · intro c
    rw [h'.backward_eq, h.backward_eq]
  · intro c
    rw [h'.inputs_eq, h.inputs_eq]
    by_cases hc : c = f <;> by_cases hc' : c ∈ rest <;> simp [hc, hc']
  · intro c
    rw [h'.next_eq, h.next_eq]
    by_cases hc : c = f <;> by_cases hc' : c ∈ rest <;> simp [hc, hc']
  · intro c
    rw [h'.count_eq, h.count_eq]
    have hedges : g₁.edgesInto rest c = g.edgesInto rest c := by
      simp only [Graph.edgesInto]
      congr 1
      apply map_congr_left
      intro d hd
      rw [hnext d hd]
    rw [hedges]
    simp only [Graph.edgesInto, map_cons, map_nil, sum_cons, sum_nil]
    push_cast
    ring

theorem foldl_cleanupFunction (released : List FnId) (hnodup : released.Nodup) (g : Graph T) :
    Cleaned released [] g (released.foldl cleanupFunction g) := by
  induction released generalizing g with
  | nil => exact Cleaned.refl g
  | cons f rest ih =>
    obtain ⟨hf, hrest⟩ := nodup_cons.mp hnodup
    exact (cleanupFunction_cleaned g f).cons hf (ih hrest _)

theorem Cleaned.roots {released : List FnId} {g₁ : Graph T} (h : Cleaned released [] g g₁)
    (roots : List VarId) : Cleaned released roots g (roots.foldl resetGradFn g₁) := by
  have hfold : ∀ (g : Graph T), roots.foldl resetGradFn g = clearGradFns g (roots.map some) := by
    intro g
    rw [← foldl_resetInput, foldl_map]
    rfl
  rw [hfold]
  refine ⟨?_, ?_, h.held_eq, h.backward_eq, h.inputs_eq, h.next_eq, h.count_eq⟩
  · rw [h.rest]
    rfl
  · intro v
    simp only [clearGradFns, h.vars_eq v, not_mem_nil, or_false]
    by_cases hv : v ∈ roots
    · simp [hv]
    · simp [hv]

theorem mem_computeUnsharedFunctions {f : FnId} :
    f ∈ computeUnsharedFunctions g sorted ↔
      f ∈ sorted ∧ (g.edgesInto sorted f : Int) = (g.fns f).parentCount := by
  simp [computeUnsharedFunctions]

theorem cleanupGraph_cleaned (hnodup : sorted.Nodup) (retainGraph : Bool) (roots : List VarId)
    (g g₀ : Graph T) :
    Cleaned (if retainGraph then [] else computeUnsharedFunctions g₀ sorted)
      (if retainGraph then [] else roots) g
      (cleanupGraph retainGraph (computeUnsharedFunctions g₀ sorted) sorted roots g) := by
  cases retainGraph with
  | true => exact Cleaned.refl g
  | false =>
    have hfilter : sorted.filter (· ∈ computeUnsharedFunctions g₀ sorted) =
        computeUnsharedFunctions g₀ sorted := by
      apply filter_congr
      intro f hf
      simp [mem_computeUnsharedFunctions, hf]
    simp only [cleanupGraph, Bool.false_eq_true, if_false, hfilter]
    exact (foldl_cleanupFunction _ (hnodup.filter _) g).roots roots

end Cleanup

/-- All that a pass over a graph `g` with the given new log entries can do. -/
structure Outcome (ops : TensorOps T) (released : List FnId) (roots : List VarId)
    (Listed : VarId → Prop) (g : Graph T) (new : List (LogEntry T)) (g' : Graph T) : Prop where
  rest : g' = { g with fns := g'.fns, vars := g'.vars }
  vars_eq : ∀ v, g'.vars v = { g.vars v with
    grad := (g'.vars v).grad
    gradFn := if (∃ f ∈ released, some v ∈ (g.fns f).inputVariables) ∨ v ∈ roots then none
              else (g.vars v).gradFn }
  grad_none : ∀ v, (g'.vars v).grad = none ↔ (g.vars v).grad = none ∧ writesTo v new = []
  grad_eq : ∀ kinds, ops.Exact kinds → ∀ v,
    (g'.vars v).grad = accumulateAll ops (g.vars v).grad (writesTo v new)
  wrote : ∀ v t, .wrote v t ∈ new →
    (g.vars v).requiresGrad = true ∧ (g.vars v).keepsGrad = true ∧ Listed v
  kept : ∀ c, c ∉ released → Graph.SameButCount (g.fns c) (g'.fns c)
  gone : ∀ c ∈ released, (g'.fns c).inputVariables = [] ∧ (g'.fns c).nextFunctions = [] ∧
    (g'.fns c).backward = (g.fns c).backward ∧
    ((g'.fns c).held = (g.fns c).held ∨ (g'.fns c).held = (g.fns c).held.release)
  count_eq : ∀ c, (g'.fns c).parentCount = (g.fns c).parentCount - g.edgesInto released c

namespace Outcome

variable {released : List FnId} {roots : List VarId} {Listed : VarId → Prop} {g g' : Graph T}
  {new : List (LogEntry T)}

theorem of_frame_cleaned {retainGraph : Bool} {unshared : List FnId} {p q : Pass T}
    {g' : Graph T} (finalRoots : List VarId)
    (hframe : Frame ops retainGraph unshared Listed p new q) {q' : Pass T}
    (hfinal : q' = q ∨ q' = finalize ops q finalRoots)
    (hreleased : released = if retainGraph then [] else unshared)
    (hcleaned : Cleaned released roots q'.graph g') :
    Outcome ops released roots Listed p.graph new g' := by
  have hvars : ∀ v, q'.graph.vars v = { q.graph.vars v with grad := (q'.graph.vars v).grad } ∧
      ((q'.graph.vars v).grad = none ↔ (q.graph.vars v).grad = none) := by
    intro v
    rcases hfinal with rfl | rfl
    · exact ⟨rfl, Iff.rfl⟩
    · exact finalize_vars q finalRoots v
  have hrest : q'.graph = { q.graph with vars := q'.graph.vars } := by
    rcases hfinal with rfl | rfl <;> rfl
  have hfns : q'.graph.fns = q.graph.fns := by rw [hrest]
  have hstatic : ∀ c, (q.graph.fns c).inputVariables = (p.graph.fns c).inputVariables ∧
      (q.graph.fns c).nextFunctions = (p.graph.fns c).nextFunctions ∧
      (q.graph.fns c).backward = (p.graph.fns c).backward ∧
      (q.graph.fns c).parentCount = (p.graph.fns c).parentCount := by
    intro c
    rcases hframe.fns_eq c with heq | ⟨-, -, heq⟩ <;> rw [heq] <;> exact ⟨rfl, rfl, rfl, rfl⟩
  have hinputs : ∀ v, (∃ f ∈ released, some v ∈ (q'.graph.fns f).inputVariables) ↔
      ∃ f ∈ released, some v ∈ (p.graph.fns f).inputVariables := by
    intro v
    simp only [hfns, (hstatic _).1]
  constructor
  · rw [hcleaned.rest, hrest, hframe.rest]
  · intro v
    rw [hcleaned.vars_eq v, (hvars v).1, hframe.vars_eq v]
    simp only [hinputs]
  · intro v
    rw [hcleaned.vars_eq v]
    rw [(hvars v).2, hframe.vars_eq v]
    exact accumulateAll_eq_none
  · intro kinds hexact v
    have hq' : q' = q := by
      rcases hfinal with rfl | rfl
      · rfl
      · exact finalize_exact hexact q finalRoots
    rw [hcleaned.vars_eq v]
    rw [hq', hframe.vars_eq v]
  · exact hframe.wrote
  · intro c hc
    have hheld : (q.graph.fns c).held = (p.graph.fns c).held := by
      rcases hframe.fns_eq c with heq | ⟨hretain, hu, -⟩
      · rw [heq]
      · rw [hreleased, hretain] at hc
        exact absurd hu hc
    refine ⟨?_, ?_, ?_, ?_⟩
    · rw [hcleaned.held_eq, hfns, hheld]
    · rw [hcleaned.inputs_eq, if_neg hc, hfns, (hstatic c).1]
    · rw [hcleaned.next_eq, if_neg hc, hfns, (hstatic c).2.1]
    · rw [hcleaned.backward_eq, hfns, (hstatic c).2.2.1]
  · intro c hc
    refine ⟨by rw [hcleaned.inputs_eq, if_pos hc], by rw [hcleaned.next_eq, if_pos hc], ?_, ?_⟩
    · rw [hcleaned.backward_eq, hfns, (hstatic c).2.2.1]
    · rw [hcleaned.held_eq, hfns]
      rcases hframe.fns_eq c with heq | ⟨-, -, heq⟩
      · exact .inl (by rw [heq])
      · exact .inr (by rw [heq])
  · intro c
    rw [hcleaned.count_eq, hfns, (hstatic c).2.2.2]
    simp only [Graph.edgesInto, hfns, (hstatic _).2.1]

end Outcome

/-- A pass drops pointers and adds none. -/
theorem Outcome.gradFn_eq {roots : List VarId} (h : Outcome ops released roots Listed g new g')
    (v : VarId) : (g'.vars v).gradFn = none ∨ (g'.vars v).gradFn = (g.vars v).gradFn := by
  rw [h.vars_eq v]
  split_ifs
  · exact .inl rfl
  · exact .inr rfl

theorem Outcome.closed {roots : List VarId} (h : Outcome ops released roots Listed g new g')
    (hclosed : g.Closed) : g'.Closed := by
  have hlive : g'.live = g.live := by rw [h.rest]
  constructor
  · intro f hf c hc
    rw [hlive] at hf ⊢
    by_cases hrel : f ∈ released
    · rw [(h.gone f hrel).2.1] at hc
      cases hc
    · exact hclosed.next_mem f hf c ((h.kept f hrel).nextFunctions ▸ hc)
  · intro v f hf
    rw [hlive]
    rcases h.gradFn_eq v with hnone | hsame
    · rw [hnone] at hf
      cases hf
    · exact hclosed.gradFn_mem v f (hsame ▸ hf)

/-- The pass over the Functions in `sorted`. -/
theorem runPass_spec {retainGraph : Bool} {sorted : List FnId} {roots : List VarId} {p : Pass T}
    {Listed : VarId → Prop} (hnodup : sorted.Nodup)
    (hlisted : ∀ f ∈ sorted, ∀ v, some v ∈ (p.graph.fns f).inputVariables → Listed v) :
    ∃ new, (runPass ops retainGraph sorted roots p).1.log = p.log ++ new ∧
      Outcome ops (if retainGraph then [] else computeUnsharedFunctions p.graph sorted)
        (if retainGraph then [] else roots) Listed p.graph new
        (runPass ops retainGraph sorted roots p).1.graph := by
  obtain ⟨new, hframe⟩ := @loop_frame _ _ ops retainGraph
    (computeUnsharedFunctions p.graph sorted) Listed p sorted.reverse
    fun f hf => hlisted f (mem_reverse.mp hf)
  rcases hloop : loop (process ops retainGraph (computeUnsharedFunctions p.graph sorted)) p
    sorted.reverse with ⟨q, e | u⟩
  · rw [hloop] at hframe
    refine ⟨new, ?_, ?_⟩
    · simp only [runPass, hloop, andThen_error]
      exact hframe.log_eq
    · simp only [runPass, hloop, andThen_error]
      exact Outcome.of_frame_cleaned roots hframe (.inl rfl) rfl
        (cleanupGraph_cleaned hnodup retainGraph roots _ p.graph)
  · rw [hloop] at hframe
    refine ⟨new, ?_, ?_⟩
    · simp only [runPass, hloop, andThen_ok]
      exact hframe.log_eq
    · simp only [runPass, hloop, andThen_ok]
      exact Outcome.of_frame_cleaned roots hframe (.inr rfl) rfl
        (cleanupGraph_cleaned hnodup retainGraph roots _ p.graph)

/-- A returning pass has released all that unshared Functions held. -/
theorem runPass_released {roots : List VarId} (hnodup : sorted.Nodup)
    (hok : (runPass ops false sorted roots p).2 = .ok ()) :
    ∀ f ∈ computeUnsharedFunctions p.graph sorted,
      ((runPass ops false sorted roots p).1.graph.fns f).held.release =
        ((runPass ops false sorted roots p).1.graph.fns f).held := by
  intro f hf
  rcases hloop : loop (process ops false (computeUnsharedFunctions p.graph sorted)) p
    sorted.reverse with ⟨q, e | u⟩
  · simp [runPass, hloop] at hok
  · have hreleased := loop_released rfl hloop f
      (mem_reverse.mpr (mem_computeUnsharedFunctions.mp hf).1) hf
    have hheld := (cleanupGraph_cleaned hnodup false roots
      (finalize ops q roots).graph p.graph).held_eq f
    simp only [runPass, hloop, andThen_ok]
    rw [hheld]
    exact hreleased

/-! ## `execute` -/

omit [Add T] in
/-- The walk lists what the roots reach, consumers last, or there is a cycle. -/
theorem topologicalSort_spec {g : Graph T} (hclosed : g.Closed) {roots : List FnId}
    (hroots : ∀ f ∈ roots, f ∈ g.live) :
    (∃ sorted, topologicalSort g roots = .ok sorted ∧
        PostOrder.ParentsFirst g.children sorted.reverse ∧
        ∀ f, f ∈ sorted ↔ ∃ r ∈ roots, g.Reaches r f) ∨
      ((∃ e, topologicalSort g roots = .error e) ∧ ∃ r ∈ roots, ∃ c, g.Reaches r c ∧
        Relation.TransGen (PostOrder.Child g.children) c c) := by
  have hlive : ∀ r ∈ roots, ∀ f, g.Reaches r f → f ∈ g.live := by
    intro r hr f hreach
    exact hclosed.reaches_live (hroots r hr) hreach
  rcases PostOrder.sort_spec hlive le_rfl with hsorted | ⟨herror, hcycle⟩
  · exact .inl hsorted
  · exact .inr ⟨⟨_, herror⟩, hcycle⟩

omit [Add T] in
theorem topologicalSort_ok (hclosed : g.Closed) {roots : List FnId}
    (hroots : ∀ f ∈ roots, f ∈ g.live) (h : topologicalSort g roots = .ok sorted) :
    PostOrder.ParentsFirst g.children sorted.reverse ∧
      ∀ f, f ∈ sorted ↔ ∃ r ∈ roots, g.Reaches r f := by
  rcases topologicalSort_spec hclosed hroots with ⟨sorted', hok, hspec⟩ | ⟨⟨e, herror⟩, -⟩
  · obtain rfl := Except.ok.inj (hok.symm.trans h)
    exact hspec
  · rw [herror] at h
    cases h

/-- `v` is an input of a Function that the walk from `root` reaches. -/
def InWalk (g : Graph T) (root v : VarId) : Prop :=
  ∃ f₀ f, (g.vars root).gradFn = some f₀ ∧ g.Reaches f₀ f ∧ some v ∈ (g.fns f).inputVariables

theorem Outcome.refl {Listed : VarId → Prop} (g : Graph T) : Outcome ops [] [] Listed g [] g := by
  refine ⟨rfl, ?_, ?_, ?_, nofun, fun c _ => Graph.SameButCount.refl _, nofun, ?_⟩
  · simp
  · simp [writesTo]
  · intro kinds _ v
    rfl
  · simp [Graph.edgesInto]

/-- Writes before a pass that releases nothing themselves. -/
theorem Outcome.prepend {roots : List VarId} {q : Pass T} {new' : List (LogEntry T)}
    (hframe : Frame ops true [] Listed p new q)
    (h : Outcome ops released roots Listed q.graph new' g') :
    Outcome ops released roots Listed p.graph (new ++ new') g' := by
  have hfns : q.graph.fns = p.graph.fns := by
    funext c
    rcases hframe.fns_eq c with heq | ⟨hretain, -⟩
    · exact heq
    · cases hretain
  constructor
  · rw [h.rest, hframe.rest]
  · intro v
    rw [h.vars_eq v, hframe.vars_eq v, hfns]
  · intro v
    rw [h.grad_none v, hframe.vars_eq v, accumulateAll_eq_none, writesTo_append,
      append_eq_nil_iff, and_assoc]
  · intro kinds hexact v
    rw [h.grad_eq kinds hexact v, hframe.vars_eq v, writesTo_append, accumulateAll_append]
  · intro v t hmem
    rcases mem_append.mp hmem with hmem | hmem
    · exact hframe.wrote v t hmem
    · have hw := h.wrote v t hmem
      rw [hframe.vars_eq v] at hw
      exact hw
  · intro c hc
    rw [← hfns]
    exact h.kept c hc
  · intro c hc
    rw [← hfns]
    exact h.gone c hc
  · intro c
    rw [h.count_eq c]
    simp only [Graph.edgesInto, hfns]

theorem seeded_frame {seed : T} (hreq : (g.vars root).requiresGrad = true) (hroot : Listed root) :
    Frame ops true [] Listed (start g) (seeded ops g root seed).log (seeded ops g root seed) := by
  unfold seeded
  split_ifs with hkeep
  · exact @Frame.of_write _ _ ops true [] Listed (start g) root seed [] hreq hkeep hroot nofun
  · exact Frame.refl _

omit [Add T] in
theorem computeUnsharedFunctions_congr (h : g'.fns = g.fns) (sorted : List FnId) :
    computeUnsharedFunctions g' sorted = computeUnsharedFunctions g sorted := by
  cases g
  cases g'
  cases h
  rfl

theorem topologicalSort_seeded (g : Graph T) (root : VarId) (seed : T) (roots : List FnId) :
    topologicalSort (seeded ops g root seed).graph roots = topologicalSort g roots := by
  unfold seeded
  split_ifs <;> rfl

/-- Every way `execute` can go: it stops before the walk, having written at
most the seed to the root, or it runs the pass over the Functions reached. -/
theorem execute_cases (ops : TensorOps T) (g : Graph T) (root : VarId) (gradient : Option T)
    (retainGraph : Bool) :
    (execute ops g root gradient retainGraph).1 = start g ∨
      ∃ seed, (g.vars root).requiresGrad = true ∧
        synthesizeOrValidateRootGrad ops (g.vars root) gradient = .ok seed ∧
        ((execute ops g root gradient retainGraph).1 = seeded ops g root seed ∨
          ∃ f sorted, (g.vars root).gradFn = some f ∧ topologicalSort g [f] = .ok sorted ∧
            execute ops g root gradient retainGraph =
              runPass ops retainGraph sorted [root] { seeded ops g root seed with
                accumulators := Function.update (fun _ => []) f [seed] }) := by
  by_cases hreq : (g.vars root).requiresGrad = true
  · cases hseed : synthesizeOrValidateRootGrad ops (g.vars root) gradient with
    | error e => exact .inl (by simp [execute, hreq, hseed])
    | ok seed =>
      refine .inr ⟨seed, hreq, rfl, ?_⟩
      cases hfn : (g.vars root).gradFn with
      | none => exact .inl (by simp [execute, hreq, hseed, hfn])
      | some f =>
        cases hsort : topologicalSort g [f] with
        | error e =>
          simp [execute, hreq, hseed, hfn, topologicalSort_seeded, hsort]
        | ok sorted =>
          refine .inr ⟨f, sorted, rfl, hsort, ?_⟩
          simp [execute, hreq, hseed, hfn, topologicalSort_seeded, hsort]
  · exact .inl (by simp [execute, hreq])

/-- A call that returns for a root with a graph has run the pass. -/
theorem execute_returned {retainGraph : Bool} (hreq : (g.vars root).requiresGrad = true)
    (hfn : (g.vars root).gradFn = some f)
    (hok : (execute ops g root gradient retainGraph).2 = .ok ()) :
    ∃ seed sorted, synthesizeOrValidateRootGrad ops (g.vars root) gradient = .ok seed ∧
      topologicalSort g [f] = .ok sorted ∧
      execute ops g root gradient retainGraph =
        runPass ops retainGraph sorted [root] { seeded ops g root seed with
          accumulators := Function.update (fun _ => []) f [seed] } := by
  cases hseed : synthesizeOrValidateRootGrad ops (g.vars root) gradient with
  | error e => simp [execute, hreq, hseed] at hok
  | ok seed =>
    cases hsort : topologicalSort g [f] with
    | error e => simp [execute, hreq, hseed, hfn, topologicalSort_seeded, hsort] at hok
    | ok sorted =>
      simp [execute, hreq, hseed, hfn, topologicalSort_seeded, hsort]

theorem seeded_fns (g : Graph T) (root : VarId) (seed : T) :
    (seeded ops g root seed).graph.fns = g.fns := by
  unfold seeded
  split_ifs <;> rfl

/-- What the pass of `execute` changes, the write to the root included. -/
theorem seededPass_outcome (hclosed : g.Closed) (hreq : (g.vars root).requiresGrad = true)
    (hfn : (g.vars root).gradFn = some f) (hsort : topologicalSort g [f] = .ok sorted) (seed : T)
    (retainGraph : Bool) :
    let r := runPass ops retainGraph sorted [root] { seeded ops g root seed with
      accumulators := Function.update (fun _ => []) f [seed] }
    Outcome ops (if retainGraph then [] else computeUnsharedFunctions g sorted)
      (if retainGraph then [] else [root]) (fun v => v = root ∨ InWalk g root v) g
      r.1.log r.1.graph := by
  have hspec := topologicalSort_ok hclosed (by simpa using hclosed.gradFn_mem root f hfn) hsort
  obtain ⟨new, hlog, hout⟩ := @runPass_spec _ _ ops retainGraph sorted [root]
    { seeded ops g root seed with accumulators := Function.update (fun _ => []) f [seed] }
    (fun v => v = root ∨ InWalk g root v) (nodup_reverse.mp hspec.1.nodup) (by
      intro c hc v hv
      obtain ⟨r, hr, hreach⟩ := (hspec.2 c).mp hc
      rw [mem_singleton] at hr
      rw [seeded_fns] at hv
      exact .inr ⟨f, c, hfn, hr ▸ hreach, hv⟩)
  have hprep := Outcome.prepend (seeded_frame hreq (.inl rfl)) hout
  simp only [computeUnsharedFunctions_congr (seeded_fns g root seed)] at hprep
  intro r
  rw [hlog]
  exact hprep

/-- What one call of `execute` changes. -/
theorem execute_spec {g : Graph T} (hclosed : g.Closed) (root : VarId) (gradient : Option T)
    (retainGraph : Bool) :
    ∃ released roots,
      Outcome ops released roots (fun v => v = root ∨ InWalk g root v) g
          (execute ops g root gradient retainGraph).1.log
          (execute ops g root gradient retainGraph).1.graph ∧
        ((released = [] ∧ roots = []) ∨
          retainGraph = false ∧ roots = [root] ∧
            ∃ f sorted, (g.vars root).gradFn = some f ∧ topologicalSort g [f] = .ok sorted ∧
              released = computeUnsharedFunctions g sorted) := by
  rcases execute_cases ops g root gradient retainGraph with
    heq | ⟨seed, hreq, -, heq | ⟨f, sorted, hfn, hsort, heq⟩⟩
  · rw [heq]
    exact ⟨[], [], Outcome.refl g, .inl ⟨rfl, rfl⟩⟩
  · rw [heq]
    refine ⟨[], [], ?_, .inl ⟨rfl, rfl⟩⟩
    have hout := Outcome.prepend (seeded_frame hreq (.inl rfl) : Frame ops true []
      (fun v => v = root ∨ InWalk g root v) _ _ (seeded ops g root seed)) (Outcome.refl _)
    rwa [append_nil] at hout
  · rw [heq]
    refine ⟨_, _, seededPass_outcome hclosed hreq hfn hsort seed retainGraph, ?_⟩
    cases retainGraph with
    | true => exact .inl ⟨rfl, rfl⟩
    | false => exact .inr ⟨rfl, rfl, f, sorted, hfn, hsort, rfl⟩

/-- A returning call on a root with a graph releases exactly the Functions of
the walk whose count is their in-degree within it. -/
theorem execute_release (hclosed : g.Closed) (hreq : (g.vars root).requiresGrad = true)
    (hfn : (g.vars root).gradFn = some f) (hok : (execute ops g root gradient false).2 = .ok ()) :
    ∃ sorted, topologicalSort g [f] = .ok sorted ∧
      Outcome ops (computeUnsharedFunctions g sorted) [root]
        (fun v => v = root ∨ InWalk g root v) g (execute ops g root gradient false).1.log
        (execute ops g root gradient false).1.graph ∧
      ∀ c ∈ computeUnsharedFunctions g sorted,
        ((execute ops g root gradient false).1.graph.fns c).held.release =
          ((execute ops g root gradient false).1.graph.fns c).held := by
  obtain ⟨seed, sorted, -, hsort, heq⟩ := execute_returned hreq hfn hok
  refine ⟨sorted, hsort, ?_, ?_⟩
  · rw [heq]
    exact seededPass_outcome hclosed hreq hfn hsort seed false
  · intro c hc
    have hspec := topologicalSort_ok hclosed (by simpa using hclosed.gradFn_mem root f hfn) hsort
    rw [heq] at hok ⊢
    apply runPass_released (nodup_reverse.mp hspec.1.nodup) hok
    rwa [computeUnsharedFunctions_congr (seeded_fns g root seed)]

end Engine

end Tenzor
