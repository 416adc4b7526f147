import Tenzor.Autograd.GradSum
import Tenzor.Autograd.Lockstep
import Tenzor.Autograd.Program

/-!
# Two roots that share Functions

`execute` without `retain_graph` releases the Functions of the walk whose count
of parents is their in-degree within the walk. A second root may reach such a
Function through one that is itself in the walk. Where it does not, the graph
of the second root is left alone, and the two passes add up.
-/

namespace Tenzor

open Engine

namespace Graph

variable {T : Type} (g : Graph T)

/-- The entries into `c` from the Functions that `r` reaches. -/
noncomputable def walkEdges (r c : FnId) : Nat :=
  open Classical in ∑ f ∈ g.live.filter (g.Reaches r), (g.fns f).nextFunctions.count (some c)

/-- Releasing the Function changes nothing. -/
structure Bare (x : Function T) : Prop where
  held : x.held.release = x.held
  inputVariables : x.inputVariables = []
  nextFunctions : x.nextFunctions = []

/-- All counted parents of `c` are in the walk from `r`. -/
def Enclosed (r c : FnId) : Prop := g.Reaches r c ∧ (g.fns c).parentCount = g.walkEdges r c

/-- What the backward from `r₁` releases is not needed by `r₂`. -/
structure Separate (r₁ r₂ : VarId) (f₁ f₂ : FnId) : Prop where
  ne : r₂ ≠ r₁
  not_input : ∀ f, g.Enclosed f₁ f → some r₂ ∉ (g.fns f).inputVariables
  bare : ∀ f, g.Reaches f₂ f → g.Enclosed f₁ f → Bare (g.fns f)

/-- `Separate`, where both roots have a graph. -/
def SeparateRoots (r₁ r₂ : VarId) : Prop :=
  (g.vars r₁).requiresGrad = true →
    ∀ f₁ f₂, (g.vars r₁).gradFn = some f₁ → (g.vars r₂).gradFn = some f₂ → g.Separate r₁ r₂ f₁ f₂

/-- `r` has its graph, and every Function of it is as it was. -/
structure GraphKept (g' : Graph T) (r : VarId) : Prop where
  gradFn_eq : (g'.vars r).gradFn = (g.vars r).gradFn
  same : ∀ f₀ f, (g.vars r).gradFn = some f₀ → g.Reaches f₀ f → SameButCount (g.fns f) (g'.fns f)

/-- All gradients zeroed. -/
def clearGrads : Graph T := { g with vars := fun v => { g.vars v with grad := none } }

variable {g} {r : FnId} {sorted : List FnId}

theorem Closed.edgesInto_eq_walkEdges (hclosed : g.Closed) (hr : r ∈ g.live) (hnodup : sorted.Nodup)
    (hmem : ∀ f, f ∈ sorted ↔ g.Reaches r f) (c : FnId) :
    g.edgesInto sorted c = g.walkEdges r c := by
  classical
  rw [edgesInto_eq_sum hnodup]
  apply Finset.sum_congr _ fun f _ => rfl
  ext f
  rw [List.mem_toFinset, hmem, Finset.mem_filter]
  exact ⟨fun h => ⟨hclosed.reaches_live hr h, h⟩, And.right⟩

/-- The released Functions are the enclosed ones. -/
theorem Closed.mem_unshared_iff (hclosed : g.Closed) (hr : r ∈ g.live)
    (hsort : topologicalSort g [r] = .ok sorted) (f : FnId) :
    f ∈ computeUnsharedFunctions g sorted ↔ g.Enclosed r f := by
  have hspec := topologicalSort_ok hclosed (by simpa using hr) hsort
  have hmem : ∀ f, f ∈ sorted ↔ g.Reaches r f := by
    intro f
    rw [hspec.2 f]
    simp
  rw [mem_computeUnsharedFunctions, hmem, hclosed.edgesInto_eq_walkEdges hr
    (List.nodup_reverse.mp hspec.1.nodup) hmem]
  exact and_congr_right fun _ => eq_comm

section Kept

variable [Add T] {ops : TensorOps T}

/-- The graph of `r` survives a pass exactly when the pass took neither its
`grad_fn` nor anything from the Functions it reaches. -/
theorem graphKept_iff_of_outcome {released : List FnId} {roots : List VarId}
    {Listed : VarId → Prop} {new : List (LogEntry T)} {g' : Graph T}
    (hout : Outcome ops released roots Listed g new g')
    (hheld : ∀ f ∈ released, (g'.fns f).held.release = (g'.fns f).held) (r : VarId) :
    g.GraphKept g' r ↔ ∀ f₀, (g.vars r).gradFn = some f₀ → r ∉ roots ∧
      (∀ f ∈ released, some r ∉ (g.fns f).inputVariables) ∧
      ∀ f ∈ released, g.Reaches f₀ f → Bare (g.fns f) := by
  have hgradFn : (g'.vars r).gradFn =
      if (∃ f ∈ released, some r ∈ (g.fns f).inputVariables) ∨ r ∈ roots then none
      else (g.vars r).gradFn := by rw [hout.vars_eq r]
  constructor
  · intro hkept f₀ hf₀
    have hnot : ¬ ((∃ f ∈ released, some r ∈ (g.fns f).inputVariables) ∨ r ∈ roots) := by
      intro htaken
      rw [if_pos htaken, hkept.gradFn_eq, hf₀] at hgradFn
      cases hgradFn
    rw [not_or] at hnot
    refine ⟨hnot.2, fun f hf hinput => hnot.1 ⟨f, hf, hinput⟩, ?_⟩
    intro f hf hreach
    have hsame := hkept.same f₀ f hf₀ hreach
    obtain ⟨hinputs, hnext, -, -⟩ := hout.gone f hf
    exact ⟨by rw [← hsame.held, hheld f hf], by rw [← hsame.inputVariables, hinputs],
      by rw [← hsame.nextFunctions, hnext]⟩
  · intro hsep
    constructor
    · cases hf₀ : (g.vars r).gradFn with
      | none => rw [hgradFn, hf₀, ite_self]
      | some f₀ =>
        obtain ⟨hroot, hinput, -⟩ := hsep f₀ hf₀
        rw [hgradFn, hf₀, if_neg]
        rintro (⟨f, hf, hmem⟩ | hmem)
        · exact hinput f hf hmem
        · exact hroot hmem
    · intro f₀ f hf₀ hreach
      by_cases hf : f ∈ released
      · have hbare := (hsep f₀ hf₀).2.2 f hf hreach
        obtain ⟨hinputs, hnext, hbackward, hheld'⟩ := hout.gone f hf
        refine ⟨?_, hinputs.trans hbare.inputVariables.symm,
          hnext.trans hbare.nextFunctions.symm, hbackward⟩
        rcases hheld' with hsame | hreleased
        · exact hsame
        · exact hreleased.trans hbare.held
      · exact hout.kept f hf

/-- The graph of `r₂` survives a returning backward from `r₁` exactly when the
roots are separate. -/
theorem graphKept_iff (hclosed : g.Closed) {r₁ : VarId} (r₂ : VarId) {s₁ : Option T}
    (hok : (execute ops g r₁ s₁ false).2 = .ok ()) :
    g.GraphKept (execute ops g r₁ s₁ false).1.graph r₂ ↔ g.SeparateRoots r₁ r₂ := by
  by_cases hreq : (g.vars r₁).requiresGrad = true
  · cases hfn₁ : (g.vars r₁).gradFn with
    | none =>
      obtain ⟨released, roots, hout, hcase⟩ := @execute_spec _ _ ops g hclosed r₁ s₁ false
      rcases hcase with ⟨rfl, rfl⟩ | ⟨-, -, f, sorted, hfn, -⟩
      · rw [graphKept_iff_of_outcome hout nofun]
        simp [SeparateRoots, hfn₁]
      · rw [hfn₁] at hfn
        cases hfn
    | some f₁ =>
      obtain ⟨sorted, hsort, hout, hheld⟩ := execute_release hclosed hreq hfn₁ hok
      have hreleased := hclosed.mem_unshared_iff (hclosed.gradFn_mem r₁ f₁ hfn₁) hsort
      rw [graphKept_iff_of_outcome hout hheld]
      simp only [hreleased, List.mem_singleton]
      constructor
      · intro hsep _ f₁' f₂ hf₁ hf₂
        obtain rfl : f₁ = f₁' := Option.some.inj (hfn₁.symm.trans hf₁)
        obtain ⟨hne, hinput, hbare⟩ := hsep f₂ hf₂
        exact ⟨hne, hinput, fun f hreach hf => hbare f hf hreach⟩
      · intro hsep f₂ hf₂
        obtain ⟨hne, hinput, hbare⟩ := hsep hreq f₁ f₂ hfn₁ hf₂
        exact ⟨hne, hinput, fun f hf hreach => hbare f hreach hf⟩
  · have hstart : (execute ops g r₁ s₁ false).1.graph = g := by simp [execute, hreq, start]
    rw [hstart]
    exact iff_of_true ⟨rfl, fun _ f _ _ => SameButCount.refl _⟩ fun h => absurd h hreq

end Kept

section Sums

variable [AddSemigroup T] (ops : TensorOps T)

/-- The gradient that one backward pass gives to `v`. -/
def passGrad (g : Graph T) (root : VarId) (seed : Option T) (v : VarId) : Option T :=
  ((execute ops g.clearGrads root seed false).1.graph.vars v).grad

/-- The backward from `r₁` leaves the graph of `r₂` as it is, and with the
backward from `r₂` after it every leaf has the sum of what each pass gives. -/
structure PassesAddUp (g : Graph T) (r₁ : VarId) (s₁ : Option T) (r₂ : VarId) (s₂ : Option T) :
    Prop where
  kept : g.GraphKept (execute ops g r₁ s₁ false).1.graph r₂
  returns : (execute ops (execute ops g r₁ s₁ false).1.graph r₂ s₂ false).2 = .ok ()
  sum : ∀ v, (g.vars v).isLeaf = true →
    asSum ((execute ops (execute ops g r₁ s₁ false).1.graph r₂ s₂ false).1.graph.vars v).grad =
      asSum (g.vars v).grad + asSum (passGrad ops g r₁ s₁ v) + asSum (passGrad ops g r₂ s₂ v)

variable {ops} {kinds : Set DType}

theorem asSum_passGrad (hexact : ops.Exact kinds) (hclosed : g.Closed) (root : VarId)
    (seed : Option T) (v : VarId) :
    asSum (passGrad ops g root seed v) =
      sumOf (writesTo v (execute ops g root seed false).1.log) := by
  have hclosed' : g.clearGrads.Closed := ⟨hclosed.next_mem, hclosed.gradFn_mem⟩
  have hwrites := (@execute_congr _ (· = v) _ ops g g.clearGrads hclosed hclosed' root rfl
    (SameReads.of_grads fun w => ⟨none, rfl⟩) seed false false).2 v rfl
  calc asSum (passGrad ops g root seed v)
      = asSum (g.clearGrads.vars v).grad +
          sumOf (writesTo v (execute ops g.clearGrads root seed false).1.log) :=
        asSum_execute hexact hclosed' root seed false v
    _ = sumOf (writesTo v (execute ops g root seed false).1.log) := by
        rw [hwrites]
        exact zero_add _

/-- Where the graph of the second root survives, the second pass is not
changed by the first. -/
theorem passesAddUp_of_kept (hexact : ops.Exact kinds) (hclosed : g.Closed) {r₁ r₂ : VarId}
    {s₁ s₂ : Option T} (hok : (execute ops g r₂ s₂ false).2 = .ok ())
    (hkept : g.GraphKept (execute ops g r₁ s₁ false).1.graph r₂) :
    g.PassesAddUp ops r₁ s₁ r₂ s₂ := by
  obtain ⟨released, roots, hout, -⟩ := @execute_spec _ _ ops g hclosed r₁ s₁ false
  have hclosed₁ := hout.closed hclosed
  have hreads : SameReads (fun v => (g.vars v).isLeaf = true)
      (fun f => ∃ r, (g.vars r₂).gradFn = some r ∧ g.Reaches r f) g
      (execute ops g r₁ s₁ false).1.graph := by
    refine ⟨by rw [hout.rest], ?_, ?_, ?_, ?_, ?_⟩
    · rintro f ⟨r, hr, hreach⟩
      exact hkept.same r f hr hreach
    · intro w
      rw [hout.vars_eq w]
    · intro w
      rw [hout.vars_eq w]
    · intro w
      rw [hout.vars_eq w]
    · intro v hleaf
      have hnone : (g.vars v).gradFn = none := by simpa [VariableImpl.isLeaf] using hleaf
      rw [hout.vars_eq v]
      simp [VariableImpl.keepsGrad, VariableImpl.isLeaf, hnone]
  obtain ⟨hres, hwrites⟩ := execute_congr hclosed hclosed₁ hkept.gradFn_eq hreads s₂ false false
  refine ⟨hkept, hres.trans hok, fun v hleaf => ?_⟩
  rw [asSum_execute hexact hclosed₁ r₂ s₂ false v, asSum_execute hexact hclosed r₁ s₁ false v,
    hwrites v hleaf, asSum_passGrad hexact hclosed, asSum_passGrad hexact hclosed]

/-- Two returning backward passes, in either order, leave each other's graph
alone and add up on every leaf exactly when the roots are separate both ways. -/
theorem passesAddUp_iff (hexact : ops.Exact kinds) (hclosed : g.Closed) {r₁ r₂ : VarId}
    {s₁ s₂ : Option T} (hok₁ : (execute ops g r₁ s₁ false).2 = .ok ())
    (hok₂ : (execute ops g r₂ s₂ false).2 = .ok ()) :
    g.PassesAddUp ops r₁ s₁ r₂ s₂ ∧ g.PassesAddUp ops r₂ s₂ r₁ s₁ ↔
      g.SeparateRoots r₁ r₂ ∧ g.SeparateRoots r₂ r₁ := by
  have hiff : ∀ {r₁ r₂ : VarId} {s₁ s₂ : Option T}, (execute ops g r₁ s₁ false).2 = .ok () →
      (execute ops g r₂ s₂ false).2 = .ok () →
      (g.PassesAddUp ops r₁ s₁ r₂ s₂ ↔ g.SeparateRoots r₁ r₂) := by
    intro r₁ r₂ s₁ s₂ hok₁ hok₂
    rw [← graphKept_iff hclosed r₂ hok₁]
    exact ⟨PassesAddUp.kept, passesAddUp_of_kept hexact hclosed hok₂⟩
  rw [hiff hok₁ hok₂, hiff hok₂ hok₁]

end Sums

theorem scalarOps_exact : scalarOps.Exact {.float32} := by
  refine ⟨fun _ => rfl, ?_, fun _ _ _ _ => rfl⟩
  rintro a rfl b rfl
  exact promoteTypes_self _

theorem sharedGraph_closed : sharedGraph.Closed :=
  (Run.wellFormed (Run.refl.of_run
    (rfl : blankGraph.run scalarOps sharedActions = some sharedGraph))
    blankGraph_initial).toClosed

/-- In the shared graph either root encloses its own Function only. -/
theorem sharedGraph_separate {r₁ r₂ : VarId} (h : r₁ = 2 ∧ r₂ = 3 ∨ r₁ = 3 ∧ r₂ = 2) :
    sharedGraph.SeparateRoots r₁ r₂ := by
  have hclosed := sharedGraph_closed
  have henclosed : ∀ f, (sharedGraph.Enclosed 1 f ↔ f = 1) ∧ (sharedGraph.Enclosed 2 f ↔ f = 2) := by
    intro f
    have hsortz : topologicalSort sharedGraph [1] = .ok [0, 1] := rfl
    have hsortw : topologicalSort sharedGraph [2] = .ok [0, 2] := rfl
    have hz : computeUnsharedFunctions sharedGraph [0, 1] = [1] := by decide
    have hw : computeUnsharedFunctions sharedGraph [0, 2] = [2] := by decide
    rw [← hclosed.mem_unshared_iff (by decide) hsortz, ← hclosed.mem_unshared_iff (by decide) hsortw,
      hz, hw, List.mem_singleton, List.mem_singleton]
    exact ⟨Iff.rfl, Iff.rfl⟩
  intro _ f₁ f₂ hf₁ hf₂
  rcases h with ⟨rfl, rfl⟩ | ⟨rfl, rfl⟩
  · obtain rfl : 1 = f₁ := Option.some.inj hf₁
    obtain rfl : 2 = f₂ := Option.some.inj hf₂
    refine ⟨by decide, ?_, ?_⟩
    · intro f hf
      rw [(henclosed f).1.mp hf]
      decide
    · intro f hreach hf
      rw [(henclosed f).1.mp hf] at hreach
      exact absurd (sharedGraph_reaches (.inr rfl) hreach) (by decide)
  · obtain rfl : 2 = f₁ := Option.some.inj hf₁
    obtain rfl : 1 = f₂ := Option.some.inj hf₂
    refine ⟨by decide, ?_, ?_⟩
    · intro f hf
      rw [(henclosed f).2.mp hf]
      decide
    · intro f hreach hf
      rw [(henclosed f).2.mp hf] at hreach
      exact absurd (sharedGraph_reaches (.inl rfl) hreach) (by decide)

/-- `z` and `w` both list the Function of `y`, so `x` gets both gradients. -/
theorem passesAddUp_iff_shared :
    (sharedGraph.PassesAddUp scalarOps 2 none 3 none ∧
      sharedGraph.PassesAddUp scalarOps 3 none 2 none) ∧
      ((execute scalarOps (execute scalarOps sharedGraph 2 none false).1.graph 3 none
        false).1.graph.vars 0).grad = some 2 :=
  ⟨(passesAddUp_iff scalarOps_exact sharedGraph_closed rfl rfl).mpr
    ⟨sharedGraph_separate (Or.inl ⟨rfl, rfl⟩), sharedGraph_separate (Or.inr ⟨rfl, rfl⟩)⟩, rfl⟩

/-- A leaf `x`, `a` computed from it, `y` computed from `a`, and `z` and `w`
computed from `y`. -/
def chainActions : List (Action Int) :=
  [.leaf 1 true, .op [0] 1 nothingHeld passOn, .op [1] 1 nothingHeld passOn,
    .op [2] 1 nothingHeld passOn, .op [2] 1 nothingHeld passOn]

/-- The Function of `a` has one parent, which `z` and `w` share. The backward
from `z` releases it, and the one from `w` no longer reaches `x`. -/
theorem not_passesAddUp_chain :
    ¬ ∀ (g : Graph Int) (r₁ r₂ : VarId) (s₁ s₂ : Option Int), g.WellFormed → r₁ ≠ r₂ →
      (execute scalarOps g r₁ s₁ false).2 = .ok () →
      (execute scalarOps g r₂ s₂ false).2 = .ok () → g.PassesAddUp scalarOps r₁ s₁ r₂ s₂ := by
  intro hall
  have hrun : Run scalarOps (fun _ _ => True) blankGraph _ := Run.refl.of_run
    (rfl : blankGraph.run scalarOps chainActions = some _)
  have hsum := (hall _ 3 4 none none (hrun.wellFormed blankGraph_initial) (by decide) rfl rfl).sum
    0 rfl
  exact absurd hsum (by decide)

end Graph

end Tenzor
