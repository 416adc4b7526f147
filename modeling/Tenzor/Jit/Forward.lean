import Tenzor.Jit.UseLists
import Tenzor.Lib.Dataflow
import Tenzor.Lib.Kahn

/-!
# Executing a graph

`forward` keeps the run-time tensors in a map keyed by value id, executes the
nodes in list order and gathers the outputs. With unique ids a returning run is
one solution of the equations of all nodes, and after `topological_sort` every
solution is what a run computes; so a pass is judged by the solutions of the
graph it leaves behind, wherever it appends its nodes.
-/

namespace Tenzor.Jit

open Dataflow Throwing

/-- The interpreter's switch: what a node computes from its code and the tensors
of its inputs. The address tells apart nodes that keep a state of their own. -/
abbrev Exec (T S : Type) := NodeRef → NodeCode T S → List T → Except Exn (List T)

namespace Graph

variable {T S : Type}

def stmt (exec : Exec T S) (g : Graph T S) (n : NodeRef) : Stmt String T Exn where
  reads := (g.inputsOf n).map g.idOf
  writes := (g.outputsOf n).map g.idOf
  run := exec n (g.codeOf n)

/-- The inputs are bound first; a constant does not overwrite an entry. -/
def initial (g : Graph T S) (ins : List T) : Store String T := fun i =>
  match bindAll (fun _ => none) (g.inputs.map g.idOf) ins i with
  | some t => some t
  | none => g.constants i

def forward (exec : Exec T S) (g : Graph T S) (ins : List T) : Except Exn (List T) := do
  throwIf (ins.length ≠ g.inputs.length) (.runtimeError "Input count mismatch")
  Dataflow.run (fun i => .runtimeError ("Input value not available: " ++ i))
    (fun i => .runtimeError ("Output value not computed: " ++ i))
    (g.initial ins) (g.nodes.map (g.stmt exec)) (g.outputs.map g.idOf)

/-- The nodes that produce the inputs of a node, one for each input that has one. -/
def dependencies (g : Graph T S) (n : NodeRef) : List NodeRef :=
  (g.inputsOf n).filterMap g.producer

def topologicalSort (g : Graph T S) : Except Exn (Graph T S) :=
  match Kahn.sort g.nodes g.dependencies with
  | some sorted => .ok { g with nodes := sorted }
  | none => .error (.runtimeError "Graph contains cycles")

/-- The conversions between tensors and scalars that `If` and `Loop` use. -/
structure Scalars (T : Type) where
  /-- `tensor_condition_to_bool`. -/
  toBool : T → Except Exn Bool
  /-- `item<int64_t>()` of the tensor converted to Int64. -/
  toInt : T → Except Exn Int
  /-- `full({1}, i, Int64)`. -/
  ofIter : Nat → T
  /-- `full({1}, cond ? 1.0 : 0.0, Float64)`. -/
  ofCond : Bool → T

variable (sc : Scalars T)

/-- The rounds `i`, `i + 1`, … of a loop: at most `fuel` of them, while the
condition holds. A body without outputs ends the loop. -/
def loopFrom (body : List T → Except Exn (List T)) :
    (fuel i : Nat) → Bool → List T → Except Exn (List T)
  | 0, _, _, carried => .ok carried
  | fuel + 1, i, cond, carried =>
    if cond then do
      let outs ← body (sc.ofIter i :: sc.ofCond cond :: carried)
      match outs with
      | [] => return carried
      | c :: carried' => do
          let cond' ← sc.toBool c
          loopFrom body fuel (i + 1) cond' carried'
    else .ok carried

/-- The `If` case: the condition picks the branch, the other inputs feed it. -/
def executeIf (fwd : S → List T → Except Exn (List T)) (code : NodeCode T S) :
    List T → Except Exn (List T)
  | [] => .ok []
  | c :: rest =>
    match code.thenBranch with
    | none => .ok []
    | some thenG => do
        let cond ← sc.toBool c
        match if cond then some thenG else code.elseBranch with
        | some branch => fwd branch rest
        | none => return []

/-- The trip count comes from the attribute, else from the first input. -/
def maxIter (code : NodeCode T S) (m : T) : Except Exn Int :=
  if code.attrs.hasIntAttr "max_iter" then .ok (code.attrs.getIntAttr "max_iter")
  else sc.toInt m

def executeLoop (fwd : S → List T → Except Exn (List T)) (code : NodeCode T S) :
    List T → Except Exn (List T)
  | m :: c :: carried =>
    match code.body with
    | none => .ok []
    | some body => do
        let count ← maxIter sc code m
        let cond ← sc.toBool c
        loopFrom sc (fwd body) count.toNat 0 cond carried
  | _ => .ok []

/-- The interpreter with its control-flow cases; `leaf` is every other case. -/
def control (leaf : NodeRef → OpType → Attrs T → List T → Except Exn (List T))
    (fwd : S → List T → Except Exn (List T)) : Exec T S := fun n code xs =>
  match code.opType with
  | .ifOp => executeIf sc fwd code xs
  | .loop => executeLoop sc fwd code xs
  | op => leaf n op code.attrs xs

end Graph

end Tenzor.Jit
