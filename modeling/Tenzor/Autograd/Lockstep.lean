import Tenzor.Autograd.EngineSpec

/-!
# Passes over graphs that agree on what is read

A pass reads the Functions it reaches, and of Variables their data, whether
they require a gradient and their hooks. Over two graphs that agree on these
the pass throws or returns alike, and writes the same gradients to every
Variable that keeps gradients in both or in neither.
-/

namespace Tenzor

open KeepState List

namespace Graph

variable {T : Type} {g g' : Graph T}

theorem SameButCount.symm {x y : Function T} (h : SameButCount x y) : SameButCount y x :=
  ⟨h.held.symm, h.inputVariables.symm, h.nextFunctions.symm, h.backward.symm⟩

/-- What is reached is reached in every graph that has the edges of the Functions reached. -/
theorem Reaches.congr {r c : FnId} (hreach : g.Reaches r c)
    (hsame : ∀ f, g.Reaches r f → g'.children f = g.children f) : g'.Reaches r c := by
  induction hreach with
  | refl => exact Relation.ReflTransGen.refl
  | @tail d e hd hchild ih =>
    apply ih.tail
    rw [PostOrder.Child, hsame d hd]
    exact hchild

end Graph

namespace Engine

variable {T : Type}

/-- Two graphs agree on the given Functions, on what is read of Variables, and
on which of the watched Variables keep gradients. -/
structure SameReads (Watched : VarId → Prop) (Read : FnId → Prop) (g g' : Graph T) : Prop where
  tensors_eq : g'.tensors = g.tensors
  fns_same : ∀ f, Read f → Graph.SameButCount (g.fns f) (g'.fns f)
  data_eq : ∀ w, (g'.vars w).data = (g.vars w).data
  requiresGrad_eq : ∀ w, (g'.vars w).requiresGrad = (g.vars w).requiresGrad
  hooks_eq : ∀ w, (g'.vars w).hooks = (g.vars w).hooks
  keeps_eq : ∀ v, Watched v → (g'.vars v).keepsGrad = (g.vars v).keepsGrad

/-- Two passes that read the same and have written the same to the watched Variables. -/
structure Lockstep (Watched : VarId → Prop) (Read : FnId → Prop) (p p' : Pass T) : Prop where
  reads : SameReads Watched Read p.graph p'.graph
  accumulators_eq : p'.accumulators = p.accumulators
  writes_eq : ∀ v, Watched v → writesTo v p'.log = writesTo v p.log

variable {Watched : VarId → Prop} {Read Read' : FnId → Prop}

namespace SameReads

variable {g g' g'' : Graph T}

theorem symm (h : SameReads Watched Read g g') : SameReads Watched Read g' g where
  tensors_eq := h.tensors_eq.symm
  fns_same := fun f hf => (h.fns_same f hf).symm
  data_eq := fun w => (h.data_eq w).symm
  requiresGrad_eq := fun w => (h.requiresGrad_eq w).symm
  hooks_eq := fun w => (h.hooks_eq w).symm
  keeps_eq := fun v hv => (h.keeps_eq v hv).symm

theorem trans (h : SameReads Watched Read g g') (h' : SameReads Watched Read g' g'') :
    SameReads Watched Read g g'' where
  tensors_eq := h'.tensors_eq.trans h.tensors_eq
  fns_same := fun f hf => (h.fns_same f hf).trans (h'.fns_same f hf)
  data_eq := fun w => (h'.data_eq w).trans (h.data_eq w)
  requiresGrad_eq := fun w => (h'.requiresGrad_eq w).trans (h.requiresGrad_eq w)
  hooks_eq := fun w => (h'.hooks_eq w).trans (h.hooks_eq w)
  keeps_eq := fun v hv => (h'.keeps_eq v hv).trans (h.keeps_eq v hv)

theorem mono (h : SameReads Watched Read g g') (hsub : ∀ f, Read' f → Read f) :
    SameReads Watched Read' g g' :=
  { h with fns_same := fun f hf => h.fns_same f (hsub f hf) }

/-- Gradients are not read. -/
theorem of_grads {vars : VarId → VariableImpl T}
    (h : ∀ w, ∃ grad, vars w = { g.vars w with grad := grad }) :
    SameReads Watched Read g { g with vars := vars } where
  tensors_eq := rfl
  fns_same := fun f _ => Graph.SameButCount.refl _
  data_eq := by
    intro w
    obtain ⟨grad, hw⟩ := h w
    simp only [hw]
  requiresGrad_eq := by
    intro w
    obtain ⟨grad, hw⟩ := h w
    simp only [hw]
  hooks_eq := by
    intro w
    obtain ⟨grad, hw⟩ := h w
    simp only [hw]
  keeps_eq := by
    intro v _
    obtain ⟨grad, hw⟩ := h v
    simp only [hw]
    rfl

end SameReads

namespace Lockstep

variable {p p' q q' : Pass T}

theorem mono (h : Lockstep Watched Read p p') (hsub : ∀ f, Read' f → Read f) : Lockstep Watched Read' p p' :=
  { h with reads := h.reads.mono hsub }

/-- Both passes make a step that changes nothing that is read. -/
theorem both (h : Lockstep Watched Read p p') (hq : SameReads Watched Read p.graph q.graph)
    (hq' : SameReads Watched Read p'.graph q'.graph) (hacc : q'.accumulators = q.accumulators)
    (hwrites : ∀ v, Watched v → writesTo v q'.log = writesTo v q.log) : Lockstep Watched Read q q' :=
  ⟨(hq.symm.trans h.reads).trans hq', hacc, hwrites⟩

end Lockstep

variable [Add T] {ops : TensorOps T} {p p' : Pass T}

theorem deliverTo_reads (p : Pass T) (w : VarId) (t : T) :
    SameReads Watched Read p.graph (deliverTo ops p w t).graph ∧
      (deliverTo ops p w t).accumulators = p.accumulators ∧
      ∀ v, writesTo v (deliverTo ops p w t).log =
        writesTo v p.log ++ (if w = v ∧ (p.graph.vars v).keepsGrad = true then [t] else []) := by
  unfold deliverTo
  split_ifs with hkeep
  · refine ⟨SameReads.of_grads ?_, rfl, ?_⟩
    · intro u
      by_cases hu : u = w
      · subst hu
        exact ⟨_, Function.update_self ..⟩
      · exact ⟨(p.graph.vars u).grad, Function.update_of_ne hu ..⟩
    · intro v
      by_cases hv : w = v
      · subst hv
        simp [write, writesTo, hkeep]
      · simp [write, writesTo, hv]
  · refine ⟨SameReads.of_grads fun u => ⟨_, rfl⟩, rfl, fun v => ?_⟩
    rw [if_neg, append_nil]
    rintro ⟨rfl, hv⟩
    exact hkeep hv

theorem Lockstep.deliverTo (h : Lockstep Watched Read p p') (w : VarId) (t : T) :
    Lockstep Watched Read (deliverTo ops p w t) (deliverTo ops p' w t) := by
  obtain ⟨hreads, hacc, hwrites⟩ := @deliverTo_reads _ Watched Read _ ops p w t
  obtain ⟨hreads', hacc', hwrites'⟩ := @deliverTo_reads _ Watched Read _ ops p' w t
  apply h.both hreads hreads'
  · rw [hacc', hacc, h.accumulators_eq]
  · intro v hv
    rw [hwrites', hwrites, h.writes_eq v hv, h.reads.keeps_eq v hv]

theorem Lockstep.deliver (h : Lockstep Watched Read p p') (name : String) (grads : List T)
    (input : Option VarId × Nat) :
    (deliver ops name (p, grads) input).2 = (deliver ops name (p', grads) input).2 ∧
      Lockstep Watched Read (deliver ops name (p, grads) input).1.1
        (deliver ops name (p', grads) input).1.1 ∧
      (deliver ops name (p, grads) input).1.2 = (deliver ops name (p', grads) input).1.2 := by
  obtain ⟨o, i⟩ := input
  cases o with
  | none => exact ⟨rfl, h, rfl⟩
  | some w =>
    cases hgrad : grads[i]? with
    | none => simpa [Engine.deliver, hgrad] using h
    | some grad =>
      have hvalid : validateGradShapeOrThrow ops name i (p'.graph.vars w) grad =
          validateGradShapeOrThrow ops name i (p.graph.vars w) grad := by
        simp only [validateGradShapeOrThrow, h.reads.data_eq]
      have hhooks : applyHooks (p'.graph.vars w) grad = applyHooks (p.graph.vars w) grad := by
        simp only [applyHooks, h.reads.hooks_eq]
      simp only [Engine.deliver, hgrad, h.reads.requiresGrad_eq, hvalid, hhooks,
        h.reads.hooks_eq]
      split_ifs with hreq hempty
      · cases validateGradShapeOrThrow ops name i (p.graph.vars w) grad with
        | error e => exact ⟨rfl, h, rfl⟩
        | ok u => exact ⟨rfl, h.deliverTo w _, rfl⟩
      · cases validateGradShapeOrThrow ops name i (p.graph.vars w) grad with
        | error e => exact ⟨rfl, h, rfl⟩
        | ok u => exact ⟨rfl, h.deliverTo w _, rfl⟩
      · exact ⟨rfl, h, rfl⟩

theorem Lockstep.loop_deliver (h : Lockstep Watched Read p p') (name : String) (grads : List T)
    (inputs : List (Option VarId × Nat)) :
    (loop (Engine.deliver ops name) (p, grads) inputs).2 =
        (loop (Engine.deliver ops name) (p', grads) inputs).2 ∧
      Lockstep Watched Read (loop (Engine.deliver ops name) (p, grads) inputs).1.1
        (loop (Engine.deliver ops name) (p', grads) inputs).1.1 ∧
      (loop (Engine.deliver ops name) (p, grads) inputs).1.2 =
        (loop (Engine.deliver ops name) (p', grads) inputs).1.2 := by
  let Q := fun s s' : Pass T × List T => Lockstep Watched Read s.1 s'.1 ∧ s.2 = s'.2
  refine loop_simulation (fun _ => Q) Q (fun _ _ _ hQ => hQ) ?_ ⟨h, rfl⟩
  rintro ⟨s, grads⟩ ⟨s', grads'⟩ input rest ⟨hs, rfl⟩
  obtain ⟨hres, hlock, hgrads⟩ := @Lockstep.deliver _ Watched Read _ ops s s' hs name grads input
  exact ⟨hres, ⟨hlock, hgrads⟩, fun _ => ⟨hlock, hgrads⟩⟩

omit [Add T] in
theorem releaseHeld_reads {retainGraph : Bool} {unshared : List FnId} (p : Pass T) {f : FnId}
    (hf : ¬ Read f) :
    SameReads Watched Read p.graph (releaseHeld retainGraph unshared p f).graph := by
  have hrefl : SameReads Watched Read p.graph p.graph := SameReads.of_grads fun w => ⟨_, rfl⟩
  unfold releaseHeld
  split_ifs
  · refine { hrefl with fns_same := fun c hc => ?_ }
    have hne : c ≠ f := by
      rintro rfl
      exact hf hc
    simp only [Graph.setFn, Function.update_of_ne hne]
    exact Graph.SameButCount.refl _
  · exact hrefl

omit [Add T] in
theorem releaseHeld_log (retainGraph : Bool) (unshared : List FnId) (p : Pass T) (f : FnId) :
    (releaseHeld retainGraph unshared p f).log = p.log ∧
      (releaseHeld retainGraph unshared p f).accumulators = p.accumulators := by
  unfold releaseHeld
  split_ifs <;> exact ⟨rfl, rfl⟩

omit [Add T] in
/-- Each pass may release what the Function held by its own flags. -/
theorem Lockstep.releaseHeld (h : Lockstep Watched Read p p') {f : FnId} (hf : ¬ Read f)
    (retain retain' : Bool) (unshared unshared' : List FnId) :
    Lockstep Watched Read (releaseHeld retain unshared p f) (releaseHeld retain' unshared' p' f) := by
  obtain ⟨hlog, hacc⟩ := releaseHeld_log retain unshared p f
  obtain ⟨hlog', hacc'⟩ := releaseHeld_log retain' unshared' p' f
  apply h.both (releaseHeld_reads p hf) (releaseHeld_reads p' hf)
  · rw [hacc', hacc, h.accumulators_eq]
  · intro v hv
    rw [hlog', hlog, h.writes_eq v hv]

omit [Add T] in
theorem Lockstep.logged (h : Lockstep Watched Read p p') {e : LogEntry T} :
    Lockstep Watched Read { p with log := p.log ++ [e] } { p' with log := p'.log ++ [e] } :=
  ⟨h.reads, h.accumulators_eq, fun v hv => by simp only [writesTo_append, h.writes_eq v hv]⟩

theorem Lockstep.process {f : FnId} {rest : List FnId} (h : Lockstep Watched (· ∈ f :: rest) p p')
    (hf : f ∉ rest) (retain retain' : Bool) (unshared unshared' : List FnId) :
    (process ops retain unshared p f).2 = (process ops retain' unshared' p' f).2 ∧
      Lockstep Watched (· ∈ rest) (process ops retain unshared p f).1
        (process ops retain' unshared' p' f).1 := by
  have hsame := h.reads.fns_same f mem_cons_self
  have hrest : Lockstep Watched (· ∈ rest) p p' := h.mono fun c hc => mem_cons_of_mem f hc
  have hacc : ops.totalGrad (p'.accumulators f) = ops.totalGrad (p.accumulators f) := by
    rw [h.accumulators_eq]
  unfold Engine.process
  simp only [hacc, hsame.held, hsame.inputVariables, hsame.nextFunctions, hsame.backward,
    h.reads.tensors_eq]
  cases ops.totalGrad (p.accumulators f) with
  | none => exact ⟨rfl, hrest.logged.releaseHeld hf _ _ _ _⟩
  | some total =>
    have hcalled := @Lockstep.logged _ Watched (· ∈ rest) p p' hrest (.called f)
    refine attempt_simulation hrest rfl fun _ => ?_
    refine attempt_simulation hcalled rfl fun grads => ?_
    refine attempt_simulation hcalled rfl fun _ => ?_
    obtain ⟨hres, hlock, hgrads⟩ := @Lockstep.loop_deliver _ Watched (· ∈ rest) _ ops _ _ hcalled
      (p.graph.fns f).held.saved.name grads (p.graph.fns f).inputVariables.zipIdx
    refine andThen_simulation hres hlock ⟨rfl, Lockstep.releaseHeld ?_ hf _ _ _ _⟩
    refine ⟨hlock.reads, ?_, hlock.writes_eq⟩
    simp only [hlock.accumulators_eq, hgrads]

theorem Lockstep.runPass {sorted : List FnId} (h : Lockstep Watched (· ∈ sorted) p p')
    (hnodup : sorted.Nodup) (retain retain' : Bool) (roots : List VarId) :
    (runPass ops retain sorted roots p).2 = (runPass ops retain' sorted roots p').2 ∧
      ∀ v, Watched v → writesTo v (runPass ops retain' sorted roots p').1.log =
        writesTo v (runPass ops retain sorted roots p).1.log := by
  let Q := fun s s' : Pass T => ∀ v, Watched v → writesTo v s'.log = writesTo v s.log
  have hloop := @loop_simulation _ _ _ _
    (Engine.process ops retain (computeUnsharedFunctions p.graph sorted))
    (Engine.process ops retain' (computeUnsharedFunctions p'.graph sorted))
    (fun l s s' => Lockstep Watched (· ∈ l) s s' ∧ l.Nodup)
    Q (fun l s s' hR => hR.1.writes_eq) ?_ sorted.reverse p p'
    ⟨h.mono fun f hf => mem_reverse.mp hf, nodup_reverse.mpr hnodup⟩
  · exact andThen_simulation (Q := Q) hloop.1 hloop.2 ⟨rfl, hloop.2⟩
  · rintro s s' f rest ⟨hs, hl⟩
    obtain ⟨hf, hrest⟩ := nodup_cons.mp hl
    obtain ⟨hres, hlock⟩ := @Lockstep.process _ Watched _ ops s s' f rest hs hf retain retain'
      (computeUnsharedFunctions p.graph sorted) (computeUnsharedFunctions p'.graph sorted)
    exact ⟨hres, hlock.writes_eq, fun _ => ⟨hlock, hrest⟩⟩

omit [Add T] in
/-- The walk depends on the edges of the Functions reached only. -/
theorem topologicalSort_congr {g g' : Graph T} (hclosed : g.Closed) (hclosed' : g'.Closed)
    {r : FnId} (hr : r ∈ g.live) (hr' : r ∈ g'.live)
    (hsame : ∀ f, g.Reaches r f → g'.children f = g.children f) :
    topologicalSort g' [r] = topologicalSort g [r] := by
  classical
  let nodes := g.live.filter fun f => g.Reaches r f
  have hmem : ∀ f ∈ nodes, f ∈ g'.live := by
    intro f hf
    exact hclosed'.reaches_live hr' ((Finset.mem_filter.mp hf).2.congr hsame)
  refine @PostOrder.sort_congr _ _ g.children _ _ g'.children nodes _ _ [r] ?_ ?_ ?_ ?_
  · intro r' hr' f hreach
    rw [mem_singleton.mp hr'] at hreach
    exact Finset.mem_filter.mpr ⟨hclosed.reaches_live hr hreach, hreach⟩
  · intro r' hr' f hreach
    rw [mem_singleton.mp hr'] at hreach
    exact hsame f hreach
  · exact Finset.sum_le_sum_of_subset (Finset.filter_subset _ _)
  · calc ∑ f ∈ nodes, ((g.children f).length + 1)
        = ∑ f ∈ nodes, ((g'.children f).length + 1) := by
          apply Finset.sum_congr rfl
          intro f hf
          rw [hsame f (Finset.mem_filter.mp hf).2]
      _ ≤ ∑ f ∈ g'.live, ((g'.children f).length + 1) :=
          Finset.sum_le_sum_of_subset hmem

/-- The seed is delivered like the gradient of an input. -/
theorem seeded_eq (g : Graph T) (root : VarId) (seed : T) :
    seeded ops g root seed = { deliverTo ops (start g) root seed with touched := [] } := by
  unfold Engine.seeded deliverTo
  split_ifs with hkeep hkeep' hkeep'
  · rfl
  · exact absurd hkeep hkeep'
  · exact absurd hkeep' hkeep
  · rfl

theorem SameReads.seeded {g g' : Graph T} (h : SameReads Watched Read g g') (root : VarId)
    (seed : T) :
    SameReads Watched Read (seeded ops g root seed).graph (seeded ops g' root seed).graph ∧
      ∀ v, Watched v →
        writesTo v (seeded ops g' root seed).log = writesTo v (seeded ops g root seed).log := by
  have hstart : Lockstep Watched Read (start g) (start g') := ⟨h, rfl, fun _ _ => rfl⟩
  have hlock := @Lockstep.deliverTo _ Watched Read _ ops _ _ hstart root seed
  rw [seeded_eq, seeded_eq]
  exact ⟨hlock.reads, hlock.writes_eq⟩

/-- Calls of `execute` on graphs that agree on what the walk reads return or
throw alike and write the same to the watched Variables, whether or not they keep the graph. -/
theorem execute_congr {g g' : Graph T} (hclosed : g.Closed) (hclosed' : g'.Closed)
    {root : VarId} (hroot : (g'.vars root).gradFn = (g.vars root).gradFn)
    (h : SameReads Watched (fun f => ∃ r, (g.vars root).gradFn = some r ∧ g.Reaches r f) g g')
    (gradient : Option T) (retain retain' : Bool) :
    (execute ops g' root gradient retain').2 = (execute ops g root gradient retain).2 ∧
      ∀ v, Watched v → writesTo v (execute ops g' root gradient retain').1.log =
        writesTo v (execute ops g root gradient retain).1.log := by
  have hseed : synthesizeOrValidateRootGrad ops (g'.vars root) gradient =
      synthesizeOrValidateRootGrad ops (g.vars root) gradient := by
    cases gradient with
    | none => simp only [synthesizeOrValidateRootGrad, h.data_eq]
    | some grad => simp only [synthesizeOrValidateRootGrad, h.data_eq]
  simp only [execute, h.requiresGrad_eq, hseed, hroot, topologicalSort_seeded]
  split_ifs
  · exact ⟨rfl, fun _ _ => rfl⟩
  · cases synthesizeOrValidateRootGrad ops (g.vars root) gradient with
    | error e => exact ⟨rfl, fun _ _ => rfl⟩
    | ok seed =>
      have hseeded := @SameReads.seeded _ Watched _ _ ops g g' h root seed
      cases hfn : (g.vars root).gradFn with
      | none => exact ⟨rfl, hseeded.2⟩
      | some r =>
        rw [hfn] at hroot
        have hread : ∀ f, g.Reaches r f → Graph.SameButCount (g.fns f) (g'.fns f) :=
          fun f hf => h.fns_same f ⟨r, hfn, hf⟩
        have hsort : topologicalSort g' [r] = topologicalSort g [r] :=
          topologicalSort_congr hclosed hclosed' (hclosed.gradFn_mem root r hfn)
            (hclosed'.gradFn_mem root r hroot) fun f hf => (hread f hf).nextFunctions
        simp only [attempt_ok, hsort]
        cases hok : topologicalSort g [r] with
        | error e => exact ⟨rfl, hseeded.2⟩
        | ok sorted =>
          have hspec := topologicalSort_ok hclosed
            (by simpa using hclosed.gradFn_mem root r hfn) hok
          have hlock : Lockstep Watched (· ∈ sorted)
              { seeded ops g root seed with
                accumulators := Function.update (fun _ => []) r [seed] }
              { seeded ops g' root seed with
                accumulators := Function.update (fun _ => []) r [seed] } := by
            refine ⟨hseeded.1.mono fun f hf => ⟨r, hfn, ?_⟩, rfl, hseeded.2⟩
            simpa using (hspec.2 f).mp hf
          have hpass := @Lockstep.runPass _ Watched _ ops _ _ sorted hlock
            (nodup_reverse.mp hspec.1.nodup) retain retain' [root]
          exact ⟨hpass.1.symm, hpass.2⟩

end Engine

end Tenzor
