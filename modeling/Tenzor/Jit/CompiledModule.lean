import Tenzor.Core.DType
import Tenzor.Lib.Dict
import Tenzor.Lib.Effects

/-!
# Compiled modules

A compiled module keeps the graph of its last trace, the shape key that it was traced for, and a
bounded cache of graphs under their shape keys. A call with another key switches to the cached
graph or traces the source again; a guard in a graph may ask for that as well. A call with inputs
that require gradients replays the current graph.

## Implementation notes

How the source computes, what graph a trace records and how a graph is replayed are parameters.
A graph object has an identity, since its retrace flag stays set until it is reset. Dynamic
dimensions, modules loaded from a file, captured device graphs, metadata and locking are left out.
-/

namespace Tenzor.Jit

open Effects

/-- `Device`, as far as `to_string` tells. -/
inductive DeviceName
  | cpu
  | cuda (index : ℕ)
  | rocm (index : ℕ)
  | oneapi (index : ℕ)
  | vulkan (index : ℕ)
  | mps (index : ℕ)
  deriving DecidableEq

/-- `std::to_string`. -/
def digits (n : ℕ) : List Char := Nat.toDigits 10 n

def DeviceName.toChars : DeviceName → List Char
  | cpu => ['c', 'p', 'u']
  | cuda index => ['c', 'u', 'd', 'a', ':'] ++ digits index
  | rocm index => ['r', 'o', 'c', 'm', ':'] ++ digits index
  | oneapi index => ['o', 'n', 'e', 'a', 'p', 'i', ':'] ++ digits index
  | vulkan index => ['v', 'u', 'l', 'k', 'a', 'n', ':'] ++ digits index
  | mps index => ['m', 'p', 's', ':'] ++ digits index

/-- What a shape key tells of an input. -/
structure TensorInfo where
  shape : List ℕ
  device : DeviceName
  dtype : DType
  deriving DecidableEq

/-- `static_cast<int>(dtype)`. -/
def dtypeIndex (dtype : DType) : ℕ := dtype.ctorIdx

abbrev ShapeKey := List Char

def shapeKeyPart (info : TensorInfo) : ShapeKey :=
  [','].intercalate (info.shape.map digits) ++
    '@' :: (info.device.toChars ++ ':' :: digits (dtypeIndex info.dtype))

/-- `compute_shape_key`; a single input is a vector of one. -/
def computeShapeKey (infos : List TensorInfo) : ShapeKey :=
  ['|'].intercalate (infos.map shapeKeyPart)

/-- What a compiled module works with: `V` are the `Variable`s and `G` the graphs. -/
structure Tracing (V G : Type) where
  info : V → TensorInfo
  requiresGrad : V → Bool
  /-- The source module, or the function of a script, in evaluation mode. -/
  source : List V → Except Exn (List V)
  /-- The graph of a trace with these inputs and outputs. -/
  getGraph : List V → List V → Except Exn G
  /-- `Graph::forward` on as many inputs as the graph has, with the retrace flag before and after,
  and the gradient mode. -/
  replay : G → Bool → Bool → List V → Except Exn (List V) × Bool
  optimize : G → G
  hasSideEffectingNode : G → Bool

structure GraphObject (G : Type) where
  id : ℕ
  ir : G
  inputCount : ℕ

structure CompiledModule (G : Type) where
  graph : GraphObject G
  shapeCache : Dict ShapeKey (GraphObject G)
  tracedShapeKey : ShapeKey
  wasOptimized : Bool
  hasRetraceFn : Bool
  /-- The retrace flags of the graph objects. -/
  needsRetrace : ℕ → Bool
  nextId : ℕ

def maxRetraces : ℕ := 8

def sideEffectRisk : Exn := .runtimeError "CompiledModule: a ShapeGuard mismatch triggered a retrace, but the current graph contains a side-effecting node (in-place mutation, or training-mode Dropout/BatchNorm2d) that may already have executed for real before the guard tripped. Retracing would risk re-running that side effect a second time (JIT-R193). Cannot safely continue."

def noRetraceSource : Exn := .runtimeError "CompiledModule: input shape mismatch detected by a ShapeGuard, but no source module/retrace closure is available to retrace with. Cannot safely continue."

def gradShapeMismatch : Exn := .runtimeError "CompiledModule::forward_grad: input shape (or device/dtype) differs from the shape this differentiable graph was traced for, tripping a ShapeGuard mid-replay. The grad-mode graph cannot self-heal via retrace at this layer (only inference mode caches a retrace closure) — the caller must retrace via jit.compile()'s cache-miss path instead (this exception is expected to be caught there and trigger an eager-autograd fallback)."

def inputCountMismatch : Exn := .runtimeError "Input count mismatch"

def noOutputs : Exn := .runtimeError "CompiledModule produced no outputs"

namespace CompiledModule

variable {V G : Type} (env : Tracing V G)

def shapeKeyOf (inputs : List V) : ShapeKey := computeShapeKey (inputs.map env.info)

/-- `jit::trace`: the source runs for real, and its outputs come with the graph. -/
def jitTrace (inputs : List V) : Except Exn (G × List V) := do
  let outputs ← env.source inputs
  let graph ← env.getGraph inputs outputs
  return (graph, outputs)

/-- The optimization state of the module is mirrored onto a graph. -/
def mirrored (wasOptimized : Bool) (graph : G) : G :=
  if wasOptimized then env.optimize graph else graph

/-- The module of a trace with these inputs, optimized or not. -/
def compile (inputs : List V) (wasOptimized hasRetraceFn : Bool) :
    Except Exn (CompiledModule G) := do
  let (graph, _) ← jitTrace env inputs
  return {
    graph := ⟨0, mirrored env wasOptimized graph, inputs.length⟩
    shapeCache := ∅
    tracedShapeKey := shapeKeyOf env inputs
    wasOptimized := wasOptimized
    hasRetraceFn := hasRetraceFn
    needsRetrace := fun _ => false
    nextId := 1 }

/-- A trace of the source makes a new graph object. -/
def retrace (inputs : List V) :
    Effect (CompiledModule G) Exn (GraphObject G × List V) := do
  let (graph, outputs) ← raise (jitTrace env inputs)
  let m ← get
  set { m with nextId := m.nextId + 1 }
  return (⟨m.nextId, mirrored env m.wasOptimized graph, inputs.length⟩, outputs)

/-- `graph_->forward`. -/
def replayGraph (gradMode : Bool) (inputs : List V) :
    Effect (CompiledModule G) Exn (List V) := fun m =>
  if inputs.length ≠ m.graph.inputCount then (.error inputCountMismatch, m)
  else
    let result := env.replay m.graph.ir (m.needsRetrace m.graph.id) gradMode inputs
    (result.1, { m with needsRetrace := Function.update m.needsRetrace m.graph.id result.2 })

/-- `graph_->reset_retrace()`. -/
def resetRetrace : Effect (CompiledModule G) Exn PUnit := do
  let m ← get
  set { m with needsRetrace := Function.update m.needsRetrace m.graph.id false }

/-- Graphs are cached while there is room. -/
def cached (cache : Dict ShapeKey (GraphObject G)) (key : ShapeKey) (graph : GraphObject G) :
    Dict ShapeKey (GraphObject G) :=
  if cache.keys.length < maxRetraces then cache.insert key graph else cache

/-- The module is brought to the key of the inputs; what a trace for it returned is kept. -/
def switchTo (key : ShapeKey) (traceInputs : List V) :
    Effect (CompiledModule G) Exn (Option (List V)) := do
  let m ← get
  match m.shapeCache.lookup key with
  | some graph =>
    set { m with graph := graph, tracedShapeKey := key }
    return none
  | none =>
    let (graph, outputs) ← retrace env traceInputs
    let m ← get
    set { m with
      graph := graph
      shapeCache := cached m.shapeCache key graph
      tracedShapeKey := key }
    return some outputs

/-- A guard of the current graph has asked for a retrace. -/
def retraceForGuard (key : ShapeKey) (traceInputs inputs : List V) :
    Effect (CompiledModule G) Exn (List V) := do
  resetRetrace
  if inputs = [] then throw noRetraceSource
  else
    let m ← get
    match m.shapeCache.lookup key with
    | some graph =>
      set { m with graph := graph }
      replayGraph env false inputs
    | none =>
      if m.shapeCache.keys.length < maxRetraces then
        if env.hasSideEffectingNode m.graph.ir = true then throw sideEffectRisk
        else
          let (graph, outputs) ← retrace env traceInputs
          let m ← get
          set { m with graph := graph, shapeCache := m.shapeCache.insert key graph }
          return outputs
      else replayGraph env false inputs

/-- The inference path; `traceInputs` are the inputs of a retrace. -/
def forwardInference (traceInputs inputs : List V) : Effect (CompiledModule G) Exn (List V) := do
  let key := shapeKeyOf env inputs
  let m ← get
  let fresh ← (if inputs ≠ [] ∧ key ≠ m.tracedShapeKey then switchTo env key traceInputs
    else pure none)
  match fresh with
  | some outputs => return outputs
  | none =>
    let results ← replayGraph env false inputs
    let m ← get
    if m.needsRetrace m.graph.id = true then retraceForGuard env key traceInputs inputs
    else return results

def forwardGrad (inputs : List V) : Effect (CompiledModule G) Exn (List V) := do
  let results ← replayGraph env true inputs
  let m ← get
  if m.needsRetrace m.graph.id = true then
    resetRetrace
    throw gradShapeMismatch
  else return results

/-- `forward` with a vector. Without a retrace closure a retrace is one of the source module,
which takes the first input. -/
def forwardVector (gradEnabled : Bool) (inputs : List V) :
    Effect (CompiledModule G) Exn (List V) := do
  if gradEnabled = true ∧ ∃ x ∈ inputs, env.requiresGrad x = true then forwardGrad env inputs
  else
    let m ← get
    forwardInference env (if m.hasRetraceFn then inputs else inputs.take 1) inputs

/-- `forward` with a single input, which returns the first output. -/
def forward (gradEnabled : Bool) (input : V) : Effect (CompiledModule G) Exn V := do
  let outputs ←
    (if gradEnabled = true ∧ env.requiresGrad input = true then forwardGrad env [input]
    else forwardInference env [input] [input])
  match outputs with
  | [] => throw noOutputs
  | output :: _ => return output

end CompiledModule

end Tenzor.Jit
