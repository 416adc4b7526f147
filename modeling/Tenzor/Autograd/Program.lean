import Tenzor.Autograd.EngineSpec

/-!
# Programs that build graphs and run backward

A program creates Variables, directly or by tracked operations, rewires
Functions, lets Variables and Functions go, and calls the engine.

## Implementation notes

A Function is destroyed when nothing points at it any more. A Variable that is
let go keeps its number and no longer has a graph.
-/

namespace Tenzor

open List
open Finset (add_sum_erase sum_congr sum_sdiff)
open Option (ite_none_right_eq_some)

namespace Graph

variable {T : Type} (g : Graph T)

/-- A tracked operation: with gradients needed, the result points at a new
Function, whose `next_functions` are the `grad_fn`s of the inputs. -/
def trackedOp (inputs : List VarId) (data : T) (held : Held)
    (backward : TensorHeap → Held → List T → Except Exn (List T)) : Graph T :=
  let needsGrad := inputs.any fun v => (g.vars v).requiresGrad
  let output : VariableImpl T := { data := data, requiresGrad := needsGrad }
  if needsGrad then
    let created : Graph T :=
      { g with fns := Function.update g.fns g.nextFn { held := held, backward := backward }
               live := insert g.nextFn g.live
               nextFn := g.nextFn + 1
               nextVar := g.nextVar + 1 }
    let linked := (created.setNextFunctions g.nextFn (inputs.map fun v => (g.vars v).gradFn))
      |>.setInputVariables g.nextFn (inputs.map some)
    linked.setVar g.nextVar (output.setGradFn (some g.nextFn))
  else { g with vars := Function.update g.vars g.nextVar output, nextVar := g.nextVar + 1 }

inductive Action (T : Type)
  | leaf (data : T) (requiresGrad : Bool)
  | op (inputs : List VarId) (data : T) (held : Held)
      (backward : TensorHeap → Held → List T → Except Exn (List T))
  | setNextFunctions (f : FnId) (funcs : List (Option FnId))
  | retainGrad (v : VarId)
  | zeroGrad (v : VarId)
  /-- The last handle of a Variable goes away. -/
  | discard (v : VarId)
  /-- The last pointer to a Function went away; its destructor is the default one. -/
  | destroy (f : FnId)
  | execute (root : VarId) (gradient : Option T) (retainGraph : Bool)

local instance : LawfulBEq (Option VarId) := inferInstance

/-- One action; `none` where the program cannot take it. -/
def step [Add T] (ops : TensorOps T) : Action T → Option (Graph T)
  | .leaf data requiresGrad => some { g with
      vars := Function.update g.vars g.nextVar { data := data, requiresGrad := requiresGrad }
      nextVar := g.nextVar + 1 }
  | .op inputs data held backward =>
    if ∀ v ∈ inputs, v < g.nextVar then some (g.trackedOp inputs data held backward) else none
  | .setNextFunctions f funcs =>
    if f ∈ g.live ∧ ∀ entry ∈ funcs, ∀ c ∈ entry, c ∈ g.live then
      some (g.setNextFunctions f funcs)
    else none
  | .retainGrad v => some (g.setVar v { g.vars v with retainGrad := true })
  | .zeroGrad v => some (g.setVar v { g.vars v with grad := none })
  | .discard v =>
    if ∀ f ∈ g.live, some v ∉ (g.fns f).inputVariables then
      some (g.setVar v { data := (g.vars v).data, requiresGrad := false })
    else none
  | .destroy f =>
    if f ∈ g.live ∧ (∀ c ∈ g.live, some f ∉ (g.fns c).nextFunctions) ∧
        ∀ v < g.nextVar, (g.vars v).gradFn ≠ some f then
      some { g with live := g.live.erase f }
    else none
  | .execute root gradient retainGraph =>
    if root < g.nextVar then some (Engine.execute ops g root gradient retainGraph).1.graph
    else none

/-- Nothing was built yet. -/
structure Initial : Prop where
  live_eq : g.live = ∅
  leaf : ∀ v, (g.vars v).gradFn = none ∧ (g.vars v).wasNonLeaf = false ∧ (g.vars v).grad = none

/-- The graphs a program reaches by actions that meet `Ok`. -/
inductive Run [Add T] (ops : TensorOps T) (Ok : Graph T → Action T → Prop) (g₀ : Graph T) :
    Graph T → Prop
  | refl : Run ops Ok g₀ g₀
  | step {g g' : Graph T} {a : Action T} (run : Run ops Ok g₀ g) (ok : Ok g a)
      (hstep : g.step ops a = some g') : Run ops Ok g₀ g'

/-- All actions in turn; `none` as soon as one cannot be taken. -/
def run [Add T] (ops : TensorOps T) (actions : List (Action T)) : Option (Graph T) :=
  actions.foldlM (fun (g : Graph T) a => g.step ops a) g

variable {g} {g₀ g' : Graph T} {x : VariableImpl T} {released : List FnId} {roots : List VarId}
  {Listed : VarId → Prop} {new : List (LogEntry T)} {c f : FnId} in
theorem Run.of_run [Add T] {ops : TensorOps T} {actions : List (Action T)}
    (h : Run ops (fun _ _ => True) g₀ g) (hrun : g.run ops actions = some g') :
    Run ops (fun _ _ => True) g₀ g' := by
  induction actions generalizing g with
  | nil =>
    obtain rfl : g = g' := Option.some.inj hrun
    exact h
  | cons a rest ih =>
    rw [run, foldlM_cons, Option.bind_eq_bind, Option.bind_eq_some_iff] at hrun
    obtain ⟨g₁, hstep, hrest⟩ := hrun
    exact ih (h.step trivial hstep) hrest

/-- Pointers lead to live Functions, numbers in use are below the next ones. -/
structure WellFormed : Prop extends Closed g where
  live_lt : ∀ f ∈ g.live, f < g.nextFn
  unused : ∀ v, g.nextVar ≤ v → (g.vars v).gradFn = none

variable {g}

/-- What a tracked operation that needs gradients adds. -/
theorem trackedOp_spec (hwf : g.WellFormed) {inputs : List VarId} {data : T} {held : Held}
    {backward : TensorHeap → Held → List T → Except Exn (List T)}
    (hneeds : (inputs.any fun v => (g.vars v).requiresGrad) = true) :
    let g' := g.trackedOp inputs data held backward
    let nexts := inputs.map fun v => (g.vars v).gradFn
    g'.live = insert g.nextFn g.live ∧ g'.nextFn = g.nextFn + 1 ∧ g'.nextVar = g.nextVar + 1 ∧
      g'.vars = Function.update g.vars g.nextVar
        { data := data, requiresGrad := true, gradFn := some g.nextFn, wasNonLeaf := true } ∧
      (g'.fns g.nextFn).nextFunctions = nexts ∧ (g'.fns g.nextFn).parentCount = 0 ∧
      ∀ c, c ≠ g.nextFn → SameButCount (g.fns c) (g'.fns c) ∧
        (g'.fns c).parentCount = (g.fns c).parentCount + nexts.count (some c) := by
  intro g' nexts
  have hnew : g.nextFn ∉ g.live := fun h => lt_irrefl _ (hwf.live_lt _ h)
  have hcount : nexts.count (some g.nextFn) = 0 := by
    rw [count_eq_zero, mem_map]
    rintro ⟨v, -, hv⟩
    exact hnew (hwf.gradFn_mem v _ hv)
  let created : Graph T :=
    { g with fns := Function.update g.fns g.nextFn { held := held, backward := backward }
             live := insert g.nextFn g.live
             nextFn := g.nextFn + 1
             nextVar := g.nextVar + 1 }
  have hspec := setNextFunctions_spec created g.nextFn nexts
  have hfns : ∀ c, g'.fns c =
      if c = g.nextFn then
        { (created.setNextFunctions g.nextFn nexts).fns c with inputVariables := inputs.map some }
      else (created.setNextFunctions g.nextFn nexts).fns c := by
    intro c
    by_cases hc : c = g.nextFn
    · subst hc
      simp [g', trackedOp, hneeds, setVar, setInputVariables, setFn, created, nexts]
    · simp [g', trackedOp, hneeds, setVar, setInputVariables, setFn, created, nexts, hc]
  have hself : created.fns g.nextFn = { held := held, backward := backward } :=
    Function.update_self ..
  refine ⟨?_, ?_, ?_, ?_, ?_, ?_, ?_⟩
  · simp [g', trackedOp, hneeds, setVar, setInputVariables, setFn, setNextFunctions]
  · simp [g', trackedOp, hneeds, setVar, setInputVariables, setFn, setNextFunctions]
  · simp [g', trackedOp, hneeds, setVar, setInputVariables, setFn, setNextFunctions]
  · simp [g', trackedOp, hneeds, setVar, setInputVariables, setFn, setNextFunctions,
      VariableImpl.setGradFn]
  · rw [hfns]
    simp [(hspec g.nextFn).2.2.2.1]
  · rw [hfns]
    simp [(hspec g.nextFn).2.2.2.2, hself, hcount]
  · intro c hc
    have hold : created.fns c = g.fns c := Function.update_of_ne hc _ _
    obtain ⟨hheld, hinputs, hbackward, hnext, hparent⟩ := hspec c
    rw [hfns, if_neg hc]
    refine ⟨⟨?_, ?_, ?_, ?_⟩, ?_⟩
    · rw [hheld, hold]
    · rw [hinputs, hold]
    · rw [hnext, if_neg hc, hold]
    · rw [hbackward, hold]
    · rw [hparent, hold, hself]
      simp

theorem WellFormed.setVar (hwf : g.WellFormed) {v : VarId}
    (hx : x.gradFn = none ∨ x.gradFn = (g.vars v).gradFn) : (g.setVar v x).WellFormed := by
  have hgradFn : ∀ w, ((g.setVar v x).vars w).gradFn = none ∨
      ((g.setVar v x).vars w).gradFn = (g.vars w).gradFn := by
    intro w
    by_cases hw : w = v
    · subst hw
      simpa [Graph.setVar] using hx
    · exact .inr (by simp [Graph.setVar, hw])
  refine ⟨⟨hwf.next_mem, ?_⟩, hwf.live_lt, ?_⟩
  · intro w f hf
    rcases hgradFn w with hnone | hsame
    · rw [hnone] at hf
      cases hf
    · exact hwf.gradFn_mem w f (hsame ▸ hf)
  · intro w hw
    rcases hgradFn w with hnone | hsame
    · exact hnone
    · rw [hsame]
      exact hwf.unused w hw

/-- A new Variable without a `grad_fn`. -/
theorem WellFormed.newVar (hwf : g.WellFormed) (hx : x.gradFn = none) :
    ({ g with vars := Function.update g.vars g.nextVar x, nextVar := g.nextVar + 1 } :
      Graph T).WellFormed := by
  have hset : (g.setVar g.nextVar x).WellFormed := hwf.setVar (.inl hx)
  exact ⟨⟨hset.next_mem, hset.gradFn_mem⟩, hset.live_lt,
    fun v hv => hset.unused v ((Nat.le_succ _).trans hv)⟩

theorem WellFormed.trackedOp (hwf : g.WellFormed) (inputs : List VarId) (data : T) (held : Held)
    (backward : TensorHeap → Held → List T → Except Exn (List T)) :
    (g.trackedOp inputs data held backward).WellFormed := by
  cases hneeds : inputs.any fun v => (g.vars v).requiresGrad with
  | false =>
    have heq : g.trackedOp inputs data held backward =
        { g with vars := Function.update g.vars g.nextVar { data := data, requiresGrad := false }
                 nextVar := g.nextVar + 1 } := by
      simp [Graph.trackedOp, hneeds]
    rw [heq]
    exact hwf.newVar rfl
  | true =>
    obtain ⟨hlive, hnextFn, hnextVar, hvars, hnext, -, hsame⟩ :=
      @trackedOp_spec _ _ hwf inputs data held backward hneeds
    refine ⟨⟨?_, ?_⟩, ?_, ?_⟩
    · intro f hf c hc
      rw [hlive] at hf ⊢
      rcases eq_or_ne f g.nextFn with rfl | hne
      · rw [hnext, mem_map] at hc
        obtain ⟨v, -, hv⟩ := hc
        exact Finset.mem_insert_of_mem (hwf.gradFn_mem v c hv)
      · rw [(hsame f hne).1.nextFunctions] at hc
        exact Finset.mem_insert_of_mem
          (hwf.next_mem f (Finset.mem_of_mem_insert_of_ne hf hne) c hc)
    · intro v f hf
      rw [hvars] at hf
      rw [hlive]
      by_cases hv : v = g.nextVar
      · subst hv
        rw [Function.update_self] at hf
        simp [Option.some.inj hf]
      · rw [Function.update_of_ne hv] at hf
        exact Finset.mem_insert_of_mem (hwf.gradFn_mem v f hf)
    · intro f hf
      rw [hlive] at hf
      rw [hnextFn]
      rcases Finset.mem_insert.mp hf with rfl | hf
      · exact Nat.lt_succ_self _
      · exact Nat.lt_succ_of_lt (hwf.live_lt f hf)
    · intro v hv
      rw [hnextVar] at hv
      rw [hvars, Function.update_of_ne (Nat.ne_of_gt hv)]
      exact hwf.unused v ((Nat.le_succ _).trans hv)

variable [Add T] {ops : TensorOps T}

theorem WellFormed.outcome (hwf : g.WellFormed)
    (h : Engine.Outcome ops released roots Listed g new g') : g'.WellFormed := by
  have hlive : g'.live = g.live := by rw [h.rest]
  refine ⟨h.closed hwf.toClosed, ?_, ?_⟩
  · rw [h.rest]
    exact hwf.live_lt
  · intro v hv
    rw [h.rest] at hv
    rcases h.gradFn_eq v with hnone | hsame
    · exact hnone
    · rw [hsame]
      exact hwf.unused v hv

theorem WellFormed.step (hwf : g.WellFormed) {a : Action T} {g' : Graph T}
    (hstep : g.step ops a = some g') : g'.WellFormed := by
  cases a with
  | leaf data requiresGrad =>
    obtain rfl := Option.some.inj hstep
    exact hwf.newVar rfl
  | op inputs data held backward =>
    simp only [Graph.step, ite_none_right_eq_some, Option.some.injEq] at hstep
    obtain ⟨-, rfl⟩ := hstep
    exact hwf.trackedOp inputs data held backward
  | setNextFunctions f funcs =>
    simp only [Graph.step, ite_none_right_eq_some, Option.some.injEq] at hstep
    obtain ⟨⟨hf, hfuncs⟩, rfl⟩ := hstep
    refine ⟨⟨?_, hwf.gradFn_mem⟩, hwf.live_lt, hwf.unused⟩
    intro d hd c hc
    rw [(setNextFunctions_spec g f funcs d).2.2.2.1] at hc
    split_ifs at hc with hdf
    · exact hfuncs (some c) hc c rfl
    · exact hwf.next_mem d hd c hc
  | retainGrad v =>
    obtain rfl := Option.some.inj hstep
    exact hwf.setVar (.inr rfl)
  | zeroGrad v =>
    obtain rfl := Option.some.inj hstep
    exact hwf.setVar (.inr rfl)
  | discard v =>
    simp only [Graph.step, ite_none_right_eq_some, Option.some.injEq] at hstep
    obtain ⟨-, rfl⟩ := hstep
    exact hwf.setVar (.inl rfl)
  | destroy f =>
    simp only [Graph.step, ite_none_right_eq_some, Option.some.injEq] at hstep
    obtain ⟨⟨-, hnext, hvars⟩, rfl⟩ := hstep
    refine ⟨⟨?_, ?_⟩, fun c hc => hwf.live_lt c (Finset.mem_of_mem_erase hc), hwf.unused⟩
    · intro d hd c hc
      have hmem : d ∈ g.live := Finset.mem_of_mem_erase hd
      apply Finset.mem_erase_of_ne_of_mem _ (hwf.next_mem d hmem c hc)
      rintro rfl
      exact hnext d hmem hc
    · intro v c hc
      apply Finset.mem_erase_of_ne_of_mem _ (hwf.gradFn_mem v c hc)
      rintro rfl
      rcases lt_or_ge v g.nextVar with hv | hv
      · exact hvars v hv hc
      · rw [hwf.unused v hv] at hc
        cases hc
  | execute root gradient retainGraph =>
    simp only [Graph.step, ite_none_right_eq_some, Option.some.injEq] at hstep
    obtain ⟨-, rfl⟩ := hstep
    obtain ⟨released, roots, hout, -⟩ := @Engine.execute_spec _ _ ops g hwf.toClosed root
      gradient retainGraph
    exact hwf.outcome hout

omit [Add T] in
theorem Initial.wellFormed (h : g.Initial) : g.WellFormed := by
  refine ⟨⟨?_, ?_⟩, ?_, fun v _ => (h.leaf v).1⟩
  · simp [h.live_eq]
  · intro v f hf
    rw [(h.leaf v).1] at hf
    cases hf
  · simp [h.live_eq]

theorem Run.wellFormed {Ok : Graph T → Action T → Prop} (h : Run ops Ok g₀ g) (hinit : g₀.Initial) :
    g.WellFormed := by
  induction h with
  | refl => exact hinit.wellFormed
  | step run ok hstep ih => exact ih.step hstep

/-! ## A small program over integers as gradients -/

/-- Scalars, all of one dtype. -/
def scalarOps : TensorOps Int where
  shape := fun _ => []
  dtype := fun _ => .float32
  device := fun _ => .cpu
  deviceName := fun _ => "cpu"
  isValid := fun _ => true
  cast := fun t _ => t
  onesLike := fun _ => 1

/-- The backward of an identity. -/
def passOn : TensorHeap → Held → List Int → Except Exn (List Int) := fun _ _ grads => .ok grads

def nothingHeld : Held := { saved := SavedTensors.noneSaved }

def blankGraph : Graph Int where
  fns := fun _ => { held := nothingHeld, backward := passOn }
  vars := fun _ => { data := 0, requiresGrad := false }
  tensors := SavedTensors.rowHeap 0
  live := ∅
  nextFn := 0
  nextVar := 0

theorem blankGraph_initial : blankGraph.Initial := ⟨rfl, fun _ => ⟨rfl, rfl, rfl⟩⟩

/-- A leaf `x`, `y` computed from it, and `z` and `w` computed from `y`. -/
def sharedActions : List (Action Int) :=
  [.leaf 1 true, .op [0] 1 nothingHeld passOn, .op [1] 1 nothingHeld passOn,
    .op [1] 1 nothingHeld passOn]

def sharedGraph : Graph Int := (blankGraph.run scalarOps sharedActions).getD blankGraph

/-- `v` was produced by an operation and `retain_grad` was not called on it. -/
def Intermediate (g : Graph T) (v : VarId) : Prop :=
  (g.vars v).wasNonLeaf = true ∧ (g.vars v).retainGrad = false

/-- No `execute` meets an intermediate Variable whose `grad_fn` was reset, as its
root or as an input of a Function that it reaches. -/
def MeetsNoReset (g : Graph T) : Action T → Prop
  | .execute root _ _ => ∀ v, v = root ∨ Engine.InWalk g root v →
      (g.vars v).requiresGrad = true → g.Intermediate v → (g.vars v).gradFn ≠ none
  | _ => True

theorem gradless_step {a : Action T} (hwf : g.WellFormed) (hok : MeetsNoReset g a)
    (hstep : g.step ops a = some g') (h : ∀ v, g.Intermediate v → (g.vars v).grad = none) :
    ∀ v, g'.Intermediate v → (g'.vars v).grad = none := by
  -- Replacing one Variable by one that is no intermediate or has no gradient.
  have hset : ∀ (x : VariableImpl T) (w : VarId),
      (x.wasNonLeaf = true → x.retainGrad = false → x.grad = none) →
      ∀ v, (Function.update g.vars w x v).wasNonLeaf = true →
        (Function.update g.vars w x v).retainGrad = false →
        (Function.update g.vars w x v).grad = none := by
    intro x w hx v hnon hret
    by_cases hv : v = w
    · subst hv
      simp only [Function.update_self] at hnon hret ⊢
      exact hx hnon hret
    · simp only [Function.update_of_ne hv] at hnon hret ⊢
      exact h v ⟨hnon, hret⟩
  rintro v ⟨hnon, hret⟩
  cases a with
  | leaf data requiresGrad =>
    obtain rfl := Option.some.inj hstep
    exact hset _ _ (fun _ _ => rfl) v hnon hret
  | op inputs data held backward =>
    simp only [Graph.step, ite_none_right_eq_some, Option.some.injEq] at hstep
    obtain ⟨-, rfl⟩ := hstep
    cases hneeds : inputs.any fun v => (g.vars v).requiresGrad with
    | false =>
      simp only [Graph.trackedOp, hneeds, Bool.false_eq_true, if_false] at hnon hret ⊢
      exact hset _ _ (fun _ _ => rfl) v hnon hret
    | true =>
      have hvars := (@trackedOp_spec _ _ hwf inputs data held backward hneeds).2.2.2.1
      rw [hvars] at hnon hret ⊢
      exact hset _ _ (fun _ _ => rfl) v hnon hret
  | setNextFunctions f funcs =>
    simp only [Graph.step, ite_none_right_eq_some, Option.some.injEq] at hstep
    obtain ⟨-, rfl⟩ := hstep
    exact h v ⟨hnon, hret⟩
  | retainGrad w =>
    obtain rfl := Option.some.inj hstep
    exact hset _ _ (fun _ hx => by cases hx) v hnon hret
  | zeroGrad w =>
    obtain rfl := Option.some.inj hstep
    exact hset _ _ (fun _ _ => rfl) v hnon hret
  | discard w =>
    simp only [Graph.step, ite_none_right_eq_some, Option.some.injEq] at hstep
    obtain ⟨-, rfl⟩ := hstep
    exact hset _ _ (fun _ _ => rfl) v hnon hret
  | destroy f =>
    simp only [Graph.step, ite_none_right_eq_some, Option.some.injEq] at hstep
    obtain ⟨-, rfl⟩ := hstep
    exact h v ⟨hnon, hret⟩
  | execute root gradient retainGraph =>
    simp only [Graph.step, ite_none_right_eq_some, Option.some.injEq] at hstep
    obtain ⟨-, rfl⟩ := hstep
    obtain ⟨released, roots, hout, -⟩ := @Engine.execute_spec _ _ ops g hwf.toClosed root
      gradient retainGraph
    rw [hout.vars_eq v] at hnon hret
    have hinter : g.Intermediate v := ⟨hnon, hret⟩
    rw [hout.grad_none v]
    refine ⟨h v hinter, Engine.writesTo_eq_nil ?_⟩
    -- A write goes to a Variable that keeps gradients; `v` does not, having its `grad_fn`.
    intro t hwrote
    obtain ⟨hreq, hkeep, hlisted⟩ := hout.wrote v t hwrote
    have hfn := hok v hlisted hreq hinter
    have hret' : (g.vars v).retainGrad = false := hret
    simp [VariableImpl.keepsGrad, VariableImpl.isLeaf, hret', hfn] at hkeep

/-- No gradient is ever written to an intermediate Variable, in programs whose
`execute` calls meet none that lost its `grad_fn`. -/
theorem intermediate_grad_none {g₀ g : Graph T} (hinit : g₀.Initial)
    (run : Run ops MeetsNoReset g₀ g) : ∀ v, g.Intermediate v → (g.vars v).grad = none := by
  induction run with
  | refl =>
    intro v hv
    exact (hinit.leaf v).2.2
  | step run ok hstep ih => exact gradless_step (run.wellFormed hinit) ok hstep ih

/-- One operation and a backward pass from its result. -/
theorem intermediate_grad_none_once : ∃ g, Run scalarOps MeetsNoReset blankGraph g ∧
    g.Intermediate 1 ∧ (g.vars 0).grad = some 1 ∧ (g.vars 1).grad = none := by
  have run₁ : Run scalarOps MeetsNoReset blankGraph _ :=
    Run.refl.step (a := .leaf 1 true) trivial rfl
  have run₂ := run₁.step (a := .op [0] 1 nothingHeld passOn) trivial rfl
  have run₃ := run₂.step (a := .execute 1 none true) (by
    rintro v - - ⟨hnon, -⟩
    by_cases hv : v = 1
    · subst hv
      decide
    · exact absurd hnon (by
        rcases eq_or_ne v 0 with rfl | h0
        · decide
        · simp [Graph.trackedOp, Graph.setVar, Graph.setInputVariables, Graph.setFn,
            Graph.setNextFunctions, blankGraph, hv, h0])) rfl
  exact ⟨_, run₃, ⟨rfl, rfl⟩, rfl, intermediate_grad_none blankGraph_initial run₃ 1 ⟨rfl, rfl⟩⟩

/-- The backward from `z` resets the `grad_fn` of `y`; the one from `w` then takes
`y` for a leaf and writes its gradient. -/
theorem intermediate_grad_written :
    ¬ ∀ g₀ g : Graph Int, g₀.Initial → Run scalarOps (fun _ _ => True) g₀ g →
      ∀ v, g.Intermediate v → (g.vars v).grad = none := by
  intro hall
  have hrun : Run scalarOps (fun _ _ => True) blankGraph _ := Run.refl.of_run
    (rfl : blankGraph.run scalarOps
      (sharedActions ++ [.execute 2 none false, .execute 3 none false]) = some _)
  have hnone := hall blankGraph _ blankGraph_initial hrun 1 ⟨rfl, rfl⟩
  exact absurd hnone (by decide)

/-! ## Parent counts -/

/-- The entries of `next_functions` of live Functions that point at `c`. -/
def liveEdges (g : Graph T) (c : FnId) : Nat :=
  ∑ f ∈ g.live, (g.fns f).nextFunctions.count (some c)

def CountsAccurate (g : Graph T) : Prop :=
  ∀ c ∈ g.live, (g.fns c).parentCount = g.liveEdges c

/-- Functions are destroyed only when they point at no other. -/
def DestroysBare (g : Graph T) : Action T → Prop
  | .destroy f => ∀ c, some c ∉ (g.fns f).nextFunctions
  | _ => True

omit [Add T] in
omit [Add T] in
theorem liveEdges_of_not_live (hwf : g.WellFormed) (hc : c ∉ g.live) : g.liveEdges c = 0 := by
  apply Finset.sum_eq_zero
  intro f hf
  rw [count_eq_zero]
  exact fun hmem => hc (hwf.next_mem f hf c hmem)

omit [Add T] in
theorem CountsAccurate.setNextFunctions (h : g.CountsAccurate) (hf : f ∈ g.live)
    (funcs : List (Option FnId)) : (g.setNextFunctions f funcs).CountsAccurate := by
  intro c hc
  have hspec := setNextFunctions_spec g f funcs
  have hold : g.liveEdges c = (g.fns f).nextFunctions.count (some c) +
      ∑ d ∈ g.live.erase f, (g.fns d).nextFunctions.count (some c) :=
    (add_sum_erase _ _ hf).symm
  have hnew : (g.setNextFunctions f funcs).liveEdges c = funcs.count (some c) +
      ∑ d ∈ g.live.erase f, (g.fns d).nextFunctions.count (some c) := by
    rw [liveEdges]
    change ∑ d ∈ g.live, _ = _
    rw [← add_sum_erase _ _ hf, (hspec f).2.2.2.1, if_pos rfl]
    congr 1
    apply sum_congr rfl
    intro d hd
    rw [(hspec d).2.2.2.1, if_neg (Finset.ne_of_mem_erase hd)]
  rw [(hspec c).2.2.2.2, h c hc, hold, hnew]
  push_cast
  ring

omit [Add T] in
theorem CountsAccurate.trackedOp (hwf : g.WellFormed) (h : g.CountsAccurate)
    (inputs : List VarId) (data : T) (held : Held)
    (backward : TensorHeap → Held → List T → Except Exn (List T)) :
    (g.trackedOp inputs data held backward).CountsAccurate := by
  cases hneeds : inputs.any fun v => (g.vars v).requiresGrad with
  | false =>
    simp only [Graph.trackedOp, hneeds, Bool.false_eq_true, if_false]
    exact h
  | true =>
    obtain ⟨hlive, -, -, -, hnext, hzero, hsame⟩ :=
      @trackedOp_spec _ _ hwf inputs data held backward hneeds
    have hnot : g.nextFn ∉ g.live := fun hmem => lt_irrefl _ (hwf.live_lt _ hmem)
    have hedges : ∀ c, (g.trackedOp inputs data held backward).liveEdges c =
        (inputs.map fun v => (g.vars v).gradFn).count (some c) + g.liveEdges c := by
      intro c
      rw [liveEdges, hlive, Finset.sum_insert hnot, hnext, liveEdges]
      congr 1
      apply sum_congr rfl
      intro f hf
      rw [(hsame f (ne_of_mem_of_not_mem hf hnot)).1.nextFunctions]
    intro c hc
    rw [hlive] at hc
    rw [hedges c]
    rcases eq_or_ne c g.nextFn with rfl | hne
    · have hno : (inputs.map fun v => (g.vars v).gradFn).count (some g.nextFn) = 0 := by
        rw [count_eq_zero, mem_map]
        rintro ⟨v, -, hv⟩
        exact hnot (hwf.gradFn_mem v _ hv)
      rw [hzero, hno, liveEdges_of_not_live hwf hnot]
      rfl
    · rw [(hsame c hne).2, h c (Finset.mem_of_mem_insert_of_ne hc hne)]
      push_cast
      ring

omit [Add T] in
/-- The entries from distinct live Functions, counted along a list of them. -/
theorem edgesInto_eq_sum {fs : List FnId} (hnodup : fs.Nodup) (c : FnId) :
    g.edgesInto fs c = ∑ f ∈ fs.toFinset, (g.fns f).nextFunctions.count (some c) := by
  rw [edgesInto, sum_toFinset _ hnodup]

theorem CountsAccurate.outcome (h : g.CountsAccurate)
    (hout : Engine.Outcome ops released roots Listed g new g') (hnodup : released.Nodup)
    (hsub : ∀ f ∈ released, f ∈ g.live) : g'.CountsAccurate := by
  have hlive : g'.live = g.live := by rw [hout.rest]
  have hsplit : ∀ c, g.liveEdges c = g.edgesInto released c + g'.liveEdges c := by
    intro c
    have hreleased : released.toFinset ⊆ g.live := by
      intro f hf
      exact hsub f (mem_toFinset.mp hf)
    rw [edgesInto_eq_sum hnodup, liveEdges, liveEdges, hlive, ← sum_sdiff hreleased,
      ← sum_sdiff hreleased (f := fun f => (g'.fns f).nextFunctions.count (some c)),
      add_comm]
    congr 1
    have hzero : ∑ f ∈ released.toFinset, (g'.fns f).nextFunctions.count (some c) = 0 := by
      apply Finset.sum_eq_zero
      intro f hf
      rw [(hout.gone f (mem_toFinset.mp hf)).2.1, count_nil]
    rw [hzero]
    apply sum_congr rfl
    intro f hf
    have hno : f ∉ released := fun hmem =>
      (Finset.mem_sdiff.mp hf).2 (mem_toFinset.mpr hmem)
    rw [(hout.kept f hno).nextFunctions]
  intro c hc
  rw [hlive] at hc
  rw [hout.count_eq c, h c hc, hsplit c]
  push_cast
  ring

theorem CountsAccurate.step (hwf : g.WellFormed) (h : g.CountsAccurate) {a : Action T}
    {g' : Graph T} (hok : DestroysBare g a) (hstep : g.step ops a = some g') :
    g'.CountsAccurate := by
  cases a with
  | leaf data requiresGrad =>
    obtain rfl := Option.some.inj hstep
    exact h
  | op inputs data held backward =>
    simp only [Graph.step, ite_none_right_eq_some, Option.some.injEq] at hstep
    obtain ⟨-, rfl⟩ := hstep
    exact h.trackedOp hwf inputs data held backward
  | setNextFunctions f funcs =>
    simp only [Graph.step, ite_none_right_eq_some, Option.some.injEq] at hstep
    obtain ⟨⟨hf, -⟩, rfl⟩ := hstep
    exact h.setNextFunctions hf funcs
  | retainGrad v =>
    obtain rfl := Option.some.inj hstep
    exact h
  | zeroGrad v =>
    obtain rfl := Option.some.inj hstep
    exact h
  | discard v =>
    simp only [Graph.step, ite_none_right_eq_some, Option.some.injEq] at hstep
    obtain ⟨-, rfl⟩ := hstep
    exact h
  | destroy f =>
    simp only [Graph.step, ite_none_right_eq_some, Option.some.injEq] at hstep
    obtain ⟨⟨hf, -, -⟩, rfl⟩ := hstep
    intro c hc
    have hlive : c ∈ g.live := Finset.mem_of_mem_erase hc
    -- The destroyed Function contributed no edge, so the lost decrement is not missed.
    have hnone : (g.fns f).nextFunctions.count (some c) = 0 := count_eq_zero.mpr (hok c)
    have hsplit : g.liveEdges c = (g.fns f).nextFunctions.count (some c) +
        ∑ d ∈ g.live.erase f, (g.fns d).nextFunctions.count (some c) :=
      (add_sum_erase _ _ hf).symm
    rw [hnone, zero_add] at hsplit
    exact (h c hlive).trans (congrArg Nat.cast hsplit)
  | execute root gradient retainGraph =>
    simp only [Graph.step, ite_none_right_eq_some, Option.some.injEq] at hstep
    obtain ⟨-, rfl⟩ := hstep
    obtain ⟨released, roots, hout, hreleased⟩ := @Engine.execute_spec _ _ ops g hwf.toClosed
      root gradient retainGraph
    rcases hreleased with ⟨rfl, -⟩ | ⟨-, -, f, sorted, hfn, hsort, rfl⟩
    · exact h.outcome hout nodup_nil nofun
    · have hf : f ∈ g.live := hwf.gradFn_mem root f hfn
      have hspec := Engine.topologicalSort_ok hwf.toClosed (by simpa using hf) hsort
      apply h.outcome hout ((nodup_reverse.mp hspec.1.nodup).filter _)
      intro c hc
      obtain ⟨r, hr, hreach⟩ :=
        (hspec.2 c).mp (Engine.mem_computeUnsharedFunctions.mp hc).1
      rw [mem_singleton.mp hr] at hreach
      exact hwf.toClosed.reaches_live hf hreach

theorem Run.countsAccurate (run : Run ops DestroysBare g₀ g) (hinit : g₀.Initial) :
    g.CountsAccurate := by
  induction run with
  | refl =>
    intro c hc
    rw [hinit.live_eq] at hc
    exact absurd hc (Finset.notMem_empty c)
  | step run ok hstep ih => exact ih.step (run.wellFormed hinit) ok hstep

/-- A live Function outside the graph of `f₀` reaches `c`. -/
def SurvivorReaches (g : Graph T) (f₀ c : FnId) : Prop :=
  ∃ o ∈ g.live, ¬ g.Reaches f₀ o ∧ g.Reaches o c

/-- What survivors reach in the graph of `f₀`, some survivor lists itself. -/
def SurvivorsList (g : Graph T) (f₀ : FnId) : Prop :=
  ∀ c, g.Reaches f₀ c → g.SurvivorReaches f₀ c →
    ∃ o ∈ g.live, ¬ g.Reaches f₀ o ∧ some c ∈ (g.fns o).nextFunctions

omit [Add T] in
/-- With accurate counts, a Function of the walk is unshared exactly when no
live Function outside the walk lists it. -/
theorem CountsAccurate.mem_unshared (h : g.CountsAccurate) {sorted : List FnId}
    (hnodup : sorted.Nodup) (hlive : ∀ f ∈ sorted, f ∈ g.live) (hc : c ∈ sorted) :
    c ∈ Engine.computeUnsharedFunctions g sorted ↔
      ∀ o ∈ g.live, o ∉ sorted → some c ∉ (g.fns o).nextFunctions := by
  have hsub : sorted.toFinset ⊆ g.live := fun f hf => hlive f (mem_toFinset.mp hf)
  have hsplit : g.liveEdges c = g.edgesInto sorted c +
      ∑ o ∈ g.live \ sorted.toFinset, (g.fns o).nextFunctions.count (some c) := by
    rw [edgesInto_eq_sum hnodup, liveEdges, ← sum_sdiff hsub, add_comm]
  rw [Engine.mem_computeUnsharedFunctions, and_iff_right hc, h c (hlive c hc), hsplit]
  rw [Nat.cast_add, left_eq_add, Nat.cast_eq_zero, Finset.sum_eq_zero_iff]
  simp only [Finset.mem_sdiff, mem_toFinset, count_eq_zero, and_imp]

/-- In a program whose destroyed Functions point at nothing, every count is the
number of live edges. A call that returns then releases exactly what no
survivor reaches, where survivors list themselves what they reach. -/
theorem parentCount_eq_liveEdges {g₀ g : Graph T} (hinit : g₀.Initial)
    (run : Run ops DestroysBare g₀ g) :
    (∀ c ∈ g.live, (g.fns c).parentCount = g.liveEdges c) ∧
      ∀ root gradient f₀, (g.vars root).requiresGrad = true →
        (g.vars root).gradFn = some f₀ → g.SurvivorsList f₀ →
        (Engine.execute ops g root gradient false).2 = .ok () →
        let g' := (Engine.execute ops g root gradient false).1.graph
        ∀ c, g.Reaches f₀ c →
          (g.SurvivorReaches f₀ c → SameButCount (g.fns c) (g'.fns c)) ∧
          (¬ g.SurvivorReaches f₀ c → (g'.fns c).inputVariables = [] ∧
            (g'.fns c).nextFunctions = [] ∧ (g'.fns c).held.release = (g'.fns c).held) := by
  have hwf := run.wellFormed hinit
  have hcounts := run.countsAccurate hinit
  refine ⟨hcounts, ?_⟩
  intro root gradient f₀ hreq hfn hlist hok g' c hc
  obtain ⟨sorted, hsort, hout, hheld⟩ := Engine.execute_release hwf.toClosed hreq hfn hok
  have hf₀ : f₀ ∈ g.live := hwf.gradFn_mem root f₀ hfn
  have hspec := Engine.topologicalSort_ok hwf.toClosed (by simpa using hf₀) hsort
  have hmem : ∀ f, f ∈ sorted ↔ g.Reaches f₀ f := by
    intro f
    rw [hspec.2 f]
    simp
  have hunshared := hcounts.mem_unshared (nodup_reverse.mp hspec.1.nodup)
    (fun f hf => hwf.toClosed.reaches_live hf₀ ((hmem f).mp hf)) ((hmem c).mpr hc)
  simp only [hmem] at hunshared
  constructor
  · intro hsurvivor
    apply hout.kept
    rw [hunshared]
    intro hall
    obtain ⟨o, ho, hout', hlisted⟩ := hlist c hc hsurvivor
    exact hall o ho hout' hlisted
  · intro hno
    have hgone : c ∈ Engine.computeUnsharedFunctions g sorted := by
      rw [hunshared]
      intro o ho hout' hlisted
      exact hno ⟨o, ho, hout', Relation.ReflTransGen.single hlisted⟩
    exact ⟨(hout.gone c hgone).1, (hout.gone c hgone).2.1, hheld c hgone⟩

/-- In the shared graph `z` and `w` each reach their own Function and that of `y`. -/
theorem sharedGraph_reaches (hf : f = 1 ∨ f = 2) (h : sharedGraph.Reaches f c) : c = f ∨ c = 0 := by
  apply h.mem (fun c => c = f ∨ c = 0) (.inl rfl)
  rintro d (rfl | rfl) e he
  · have hmem : some e ∈ [some 0] := by
      rcases hf with rfl | rfl
      · exact he
      · exact he
    exact .inr (by simpa using hmem)
  · have hmem : some e ∈ [none] := he
    simp at hmem

/-- `z` and `w` share the Function of `y`; the backward from `z` leaves it alone. -/
theorem parentCount_eq_liveEdges_shared : Run scalarOps DestroysBare blankGraph sharedGraph ∧
    (sharedGraph.fns 0).parentCount = sharedGraph.liveEdges 0 ∧ sharedGraph.liveEdges 0 = 2 ∧
    SameButCount (sharedGraph.fns 0)
      ((Engine.execute scalarOps sharedGraph 2 none false).1.graph.fns 0) := by
  have run₁ : Run scalarOps DestroysBare blankGraph _ :=
    Run.refl.step (a := .leaf 1 true) trivial rfl
  have run₂ := run₁.step (a := .op [0] 1 nothingHeld passOn) trivial rfl
  have run₃ := run₂.step (a := .op [1] 1 nothingHeld passOn) trivial rfl
  have run₄ : Run scalarOps DestroysBare blankGraph sharedGraph :=
    run₃.step (a := .op [1] 1 nothingHeld passOn) trivial rfl
  obtain ⟨hcounts, hrelease⟩ := parentCount_eq_liveEdges blankGraph_initial run₄
  have hzw : ¬ sharedGraph.Reaches 1 2 := fun h =>
    absurd (sharedGraph_reaches (Or.inl rfl) h) (by decide)
  have hlist : sharedGraph.SurvivorsList 1 := by
    rintro c hc ⟨o, ho, hout, hreach⟩
    refine ⟨2, by decide, hzw, ?_⟩
    rcases sharedGraph_reaches (Or.inl rfl) hc with rfl | rfl
    · -- Only `w` is outside, and it does not reach the Function of `z`.
      have ho : o = 0 ∨ o = 1 ∨ o = 2 := by
        have hmem : o ∈ ({2, 1, 0} : Finset Nat) := ho
        simp only [Finset.mem_insert, Finset.mem_singleton] at hmem
        tauto
      rcases ho with rfl | rfl | rfl
      · exact absurd (Relation.ReflTransGen.single (mem_singleton_self _)) hout
      · exact absurd Relation.ReflTransGen.refl hout
      · exact absurd (sharedGraph_reaches (Or.inr rfl) hreach) (by decide)
    · decide
  refine ⟨run₄, hcounts 0 (by decide), by decide, ?_⟩
  refine (hrelease 2 none 1 rfl rfl hlist rfl 0 ?_).1 ⟨2, by decide, hzw, ?_⟩
  · exact Relation.ReflTransGen.single (mem_singleton_self _)
  · exact Relation.ReflTransGen.single (mem_singleton_self _)

/-- The loss `z` is let go without a backward pass, and its Function with it; the
Function of `y` still counts it. -/
theorem parentCount_ne_liveEdges :
    ¬ ∀ g₀ g : Graph Int, g₀.Initial → Run scalarOps (fun _ _ => True) g₀ g →
      ∀ c ∈ g.live, (g.fns c).parentCount = g.liveEdges c := by
  intro hall
  have hrun : Run scalarOps (fun _ _ => True) blankGraph _ := Run.refl.of_run
    (rfl : blankGraph.run scalarOps (sharedActions ++ [.discard 2, .destroy 1]) = some _)
  have hcount := hall blankGraph _ blankGraph_initial hrun 0 (by decide)
  exact absurd hcount (by decide)

end Graph

end Tenzor
