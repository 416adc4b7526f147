import Tenzor.Autograd.Graph
import Tenzor.Lib.KeepState

/-!
# The backward engine

`execute` seeds the Function of the root, orders the Functions it reaches so
that consumers come first, calls each `backward` once on the gradients that
arrived, writes gradients to the Variables that keep them and passes the rest
on. What no Function outside the walk counts as a child is then released.

## Implementation notes

The log is not in the source. It records the calls and the writes in the order
in which they happen. `create_graph`, profiling, anomaly detection and the
offload of saved tensors are off.
-/

namespace Tenzor

open Throwing KeepState

inductive LogEntry (T : Type)
  /-- No gradient arrived at the Function. -/
  | skipped (f : FnId)
  /-- `backward` was called. -/
  | called (f : FnId)
  /-- A gradient was accumulated into `.grad`. -/
  | wrote (v : VarId) (t : T)

/-- The state of a running backward pass. -/
structure Pass (T : Type) where
  graph : Graph T
  accumulators : FnId → List T
  /-- The Variables whose gradient the final conversion visits. -/
  touched : List VarId := []
  log : List (LogEntry T) := []

namespace Engine

variable {T : Type} [Add T] (ops : TensorOps T)

def formatShape (shape : List Int) : String :=
  "[" ++ ", ".intercalate (shape.map toString) ++ "]"

def synthesizeOrValidateRootGrad (root : VariableImpl T) : Option T → Except Exn T
  | none => do
      let n ← numel (ops.shape root.data)
      throwIf (n ≠ 1) (.autogradException
        ("grad can be implicitly created only for scalar outputs (tensor has " ++ toString n ++
          " elements)"))
      return ops.onesLike root.data
  | some grad => do
      throwIf (ops.shape grad ≠ ops.shape root.data) (.autogradException
        ("User-supplied gradient shape mismatch: expected " ++
          formatShape (ops.shape root.data) ++ " got " ++ formatShape (ops.shape grad)))
      throwIf (ops.dtype grad ≠ ops.dtype root.data ∨ ops.device grad ≠ ops.device root.data)
        (.autogradException
          ("Mismatched grad dtype/device: expected " ++ dtypeName (ops.dtype root.data) ++
            " on " ++ ops.deviceName (ops.device root.data) ++ ", got " ++
            dtypeName (ops.dtype grad) ++ " on " ++ ops.deviceName (ops.device grad)))
      throwIf (ops.isDifferentiable grad = false) (.autogradException
        ("User-supplied gradient must be floating-point or complex; got " ++
          dtypeName (ops.dtype grad)))
      return grad

/-- `accumulate_grad` of a Variable, and of the engine's input loop. -/
def accumulateGrad (v : VariableImpl T) (t : T) : VariableImpl T :=
  { v with grad := some (ops.accumulate v.grad t) }

/-- Accumulate into `.grad` and record the write. -/
def write (p : Pass T) (v : VarId) (t : T) : Pass T :=
  { p with graph := p.graph.setVar v (accumulateGrad ops (p.graph.vars v) t)
           log := p.log ++ [.wrote v t] }

def topologicalSort (g : Graph T) (roots : List FnId) : Except Exn (List FnId) :=
  PostOrder.sort g.children (.autogradException "Cycle detected in computation graph")
    (∑ f ∈ g.live, ((g.children f).length + 1)) roots

/-- The Functions of the walk whose count is their in-degree within the walk. -/
def computeUnsharedFunctions (g : Graph T) (sorted : List FnId) : List FnId :=
  sorted.filter fun f => (g.edgesInto sorted f : Int) = (g.fns f).parentCount

def validateGradShapeOrThrow (name : String) (i : Nat) (v : VariableImpl T) (grad : T) :
    Except Exn Unit :=
  throwIf (ops.shape grad ≠ ops.shape v.data) (.autogradException
    ("In " ++ name ++ ".backward(): gradient for input " ++ toString i ++ " has shape [" ++
      ",".intercalate ((ops.shape grad).map toString) ++ "], expected [" ++
      ",".intercalate ((ops.shape v.data).map toString) ++ "]"))

/-- Every gradient that has elements is floating-point or complex. -/
def validateGradDtypes (name : String) (grads : List T) : Except Exn Unit :=
  forM grads.zipIdx fun p =>
    throwIf (ops.isValid p.1 = true ∧ 0 < (ops.shape p.1).prod ∧ ops.isDifferentiable p.1 = false)
      (.runtimeError ("Backward function " ++ name ++
        " returned non-floating-point gradient (dtype=" ++ dtypeName (ops.dtype p.1) ++
        " at index " ++ toString p.2 ++ "). Gradients must be floating-point or complex."))

/-- The hooks in turn, each on the result of the one before. -/
def applyHooks (x : VariableImpl T) (grad : T) : T := x.hooks.foldl (fun t hook => hook t) grad

/-- Write the hooked gradient, if the Variable keeps gradients. -/
def deliverTo (p : Pass T) (v : VarId) (hooked : T) : Pass T :=
  if (p.graph.vars v).keepsGrad then { write ops p v hooked with touched := v :: p.touched } else p

/-- One input of the Function. The gradients are part of the state, since a
hook replaces the one that is passed on. -/
def deliver (name : String) (s : Pass T × List T) (input : Option VarId × Nat) :
    (Pass T × List T) × Except Exn Unit :=
  match input.1, s.2[input.2]? with
  | some v, some grad =>
    let x := s.1.graph.vars v
    if x.requiresGrad then
      attempt s (validateGradShapeOrThrow ops name input.2 x grad) fun _ =>
        let hooked := applyHooks x grad
        let grads := if x.hooks.isEmpty then s.2 else s.2.set input.2 hooked
        ((deliverTo ops s.1 v hooked, grads), .ok ())
    else (s, .ok ())
  | _, _ => (s, .ok ())

/-- Hand the gradients to the accumulators of the next Functions. -/
def propagate (acc : FnId → List T) (next : List (Option FnId)) (grads : List T) :
    FnId → List T :=
  (next.zip grads).foldl (fun acc p =>
    match p.1 with
    | none => acc
    | some c => Function.update acc c (acc c ++ [p.2])) acc

def releaseHeld (retainGraph : Bool) (unshared : List FnId) (p : Pass T) (f : FnId) : Pass T :=
  if retainGraph = false ∧ f ∈ unshared then
    { p with graph := p.graph.setFn f { p.graph.fns f with held := (p.graph.fns f).held.release } }
  else p

def process (retainGraph : Bool) (unshared : List FnId) (p : Pass T) (f : FnId) :
    Pass T × Except Exn Unit :=
  let fn := p.graph.fns f
  let name := fn.held.saved.name
  match ops.totalGrad (p.accumulators f) with
  | none => (releaseHeld retainGraph unshared { p with log := p.log ++ [.skipped f] } f, .ok ())
  | some total =>
    attempt p (fn.held.saved.validateSavedTensors p.graph.tensors) fun _ =>
    let called := { p with log := p.log ++ [.called f] }
    attempt called (fn.backward p.graph.tensors fn.held [total]) fun grads =>
    attempt called (validateGradDtypes ops name grads) fun _ =>
    let delivered := loop (deliver ops name) (called, grads) fn.inputVariables.zipIdx
    andThen (delivered.1.1, delivered.2) fun q =>
      let acc := propagate q.accumulators fn.nextFunctions delivered.1.2
      (releaseHeld retainGraph unshared { q with accumulators := acc } f, .ok ())

/-- Convert the stored gradient back to the dtype of the Variable. -/
def restoreDtype (x : VariableImpl T) : VariableImpl T :=
  match x.grad with
  | none => x
  | some t =>
    if ops.dtype t ≠ ops.dtype x.data ∧ x.preserveGradDtype = false then
      { x with grad := some (ops.cast t (ops.dtype x.data)) }
    else x

def finalize (p : Pass T) (roots : List VarId) : Pass T :=
  let onTouched := fun v =>
    if v ∈ p.touched then restoreDtype ops (p.graph.vars v) else p.graph.vars v
  let onRoots := fun v =>
    if v ∈ roots ∧ (onTouched v).requiresGrad = true ∧ (onTouched v).keepsGrad = true then
      restoreDtype ops (onTouched v)
    else onTouched v
  { p with graph := { p.graph with vars := onRoots } }

/-- `if (var.grad_fn() && !var.is_leaf()) var.set_grad_fn(nullptr)`. -/
def resetGradFn (g : Graph T) (v : VarId) : Graph T :=
  if (g.vars v).isLeaf then g else g.setVar v ((g.vars v).setGradFn none)

def resetInput (g : Graph T) : Option VarId → Graph T
  | none => g
  | some v => resetGradFn g v

/-- Drop the edges of one released Function and the `grad_fn` of its inputs. -/
def cleanupFunction (g : Graph T) (f : FnId) : Graph T :=
  let cleared := (g.fns f).inputVariables.foldl resetInput g
  (cleared.setInputVariables f []).setNextFunctions f []

def cleanupGraph (retainGraph : Bool) (unshared sorted : List FnId) (roots : List VarId)
    (g : Graph T) : Graph T :=
  if retainGraph then g
  else
    let g := (sorted.filter (· ∈ unshared)).foldl cleanupFunction g
    roots.foldl resetGradFn g

/-- The loop over the sorted Functions and what follows it. The cleanup runs
also when the loop throws. -/
def runPass (retainGraph : Bool) (sorted : List FnId) (roots : List VarId) (p : Pass T) :
    Pass T × Except Exn Unit :=
  let unshared := computeUnsharedFunctions p.graph sorted
  let looped := loop (process ops retainGraph unshared) p sorted.reverse
  let finished := andThen looped fun q => (finalize ops q roots, .ok ())
  ({ finished.1 with
      graph := cleanupGraph retainGraph unshared sorted roots finished.1.graph
      accumulators := fun _ => [] }, finished.2)

/-- Outside a running pass the accumulators are empty. -/
def start (g : Graph T) : Pass T := { graph := g, accumulators := fun _ => [] }

/-- The seed is also a gradient of the root, if the root keeps gradients. -/
def seeded (g : Graph T) (root : VarId) (seed : T) : Pass T :=
  if (g.vars root).keepsGrad then write ops (start g) root seed else start g

def execute (g : Graph T) (root : VarId) (gradient : Option T) (retainGraph : Bool) :
    Pass T × Except Exn Unit :=
  let x := g.vars root
  if x.requiresGrad = false then (start g, .ok ())
  else attempt (start g) (synthesizeOrValidateRootGrad ops x gradient) fun seed =>
    let p := seeded ops g root seed
    match x.gradFn with
    | none => (p, .ok ())
    | some f =>
      attempt p (topologicalSort p.graph [f]) fun sorted =>
        runPass ops retainGraph sorted [root]
          { p with accumulators := Function.update (fun _ => []) f [seed] }

/-- Add the seed to the one that the root has already, or list the root. -/
def mergeSeed : List (VarId × T) → VarId → T → List (VarId × T)
  | [], root, seed => [(root, seed)]
  | (r, s) :: rest, root, seed =>
    if r = root then (r, s + seed) :: rest else (r, s) :: mergeSeed rest root seed

/-- `root_seeds` in the order of `root_order`. -/
def rootSeeds (g : Graph T) (roots : List (Option VarId × T)) : Except Exn (List (VarId × T)) :=
  roots.foldlM (fun seeds p =>
    match p.1 with
    | none => .ok seeds
    | some root =>
      if (g.vars root).requiresGrad then do
        let seed ← synthesizeOrValidateRootGrad ops (g.vars root) (some p.2)
        return mergeSeed seeds root seed
      else .ok seeds) []

def seedRoot (p : Pass T) (s : VarId × T) : Pass T :=
  if (p.graph.vars s.1).keepsGrad then write ops p s.1 s.2 else p

/-- Hand each seed to the Function of its root. -/
def seedAccumulators (g : Graph T) (seeds : List (VarId × T)) : FnId → List T :=
  seeds.foldl (fun acc s =>
    match (g.vars s.1).gradFn with
    | none => acc
    | some f => Function.update acc f (acc f ++ [s.2])) fun _ => []

def executeMulti (g : Graph T) (roots : List (Option VarId)) (gradients : List T)
    (retainGraph : Bool) : Pass T × Except Exn Unit :=
  if roots.isEmpty then (start g, .ok ())
  else
    attempt (start g) (throwIf (roots.length ≠ gradients.length) (.autogradException
      ("execute_multi: number of roots (" ++ toString roots.length ++
        ") must match number of gradients (" ++ toString gradients.length ++ ")"))) fun _ =>
    attempt (start g) (rootSeeds ops g (roots.zip gradients)) fun seeds =>
      let p := seeds.foldl (seedRoot ops) (start g)
      attempt p (topologicalSort p.graph
          (roots.filterMap fun root => root.bind fun r => (g.vars r).gradFn)) fun sorted =>
        runPass ops retainGraph sorted (roots.filterMap id)
          { p with accumulators := seedAccumulators g seeds }

end Engine

end Tenzor
