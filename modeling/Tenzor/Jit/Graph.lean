import Tenzor.Core.DType
import Tenzor.Lib.Throwing
import Mathlib.Data.Finmap

/-!
# The IR graph of the JIT compiler

A graph owns Values and Nodes that point at each other: a Node lists its input
and output Values, a Value points back at the Node that produces it and lists
the Nodes that use it, once for each input position. Every rewrite of a pass
goes through the operations of this file.

## Implementation notes

Values and Nodes are addresses of two heaps of the graph. A subgraph of an
`If` or `Loop` node is a value of a type `S`, so that graphs of every nesting
depth are instances. Tensors are an arbitrary type `T`. A Value holds its
producer weakly: `Graph.producer` reads `none` once that Node has left the graph.
-/

namespace Tenzor.Jit

/-- The address of a `Value`. -/
abbrev ValRef := Nat

/-- The address of a `Node`. -/
abbrev NodeRef := Nat

/-- The operations the passes tell apart; every other operation is known by
the text of `op_type_to_string`. -/
inductive OpType
  | add | sub | mul | div | matMul | bmm | relu | softmax | conv2d
  | batchNorm2d | layerNorm | reshape | transpose | sum | mean | max | min
  | exp | log | sqrt | pow | abs | neg | cast | dropout | linear | gelu | rrelu
  | flashAttention | fusedFFN | constant | ifOp | loop | where_
  | other (name : String)
  deriving DecidableEq, Repr

def opTypeToString : OpType → String
  | .add => "Add" | .sub => "Sub" | .mul => "Mul" | .div => "Div"
  | .matMul => "MatMul" | .bmm => "Bmm" | .relu => "ReLU" | .softmax => "Softmax"
  | .conv2d => "Conv2d" | .batchNorm2d => "BatchNorm2d" | .layerNorm => "LayerNorm"
  | .reshape => "Reshape" | .transpose => "Transpose" | .sum => "Sum" | .mean => "Mean"
  | .max => "Max" | .min => "Min" | .exp => "Exp" | .log => "Log" | .sqrt => "Sqrt"
  | .pow => "Pow" | .abs => "Abs" | .neg => "Neg" | .cast => "Cast"
  | .dropout => "Dropout" | .linear => "Linear" | .gelu => "GELU" | .rrelu => "RReLU"
  | .flashAttention => "FlashAttention" | .fusedFFN => "FusedFFN"
  | .constant => "Constant" | .ifOp => "If" | .loop => "Loop" | .where_ => "Where"
  | .other name => name

abbrev AttrMap (α : Type) := Finmap fun _ : String => α

/-- The five attribute maps of a node. Scalars are exact numbers, without a double's signed zeros,
infinities and NaN; no pass below compares them. -/
structure Attrs (T : Type) where
  floats : AttrMap ℚ := ∅
  ints : AttrMap Int := ∅
  vecs : AttrMap (List Int) := ∅
  bools : AttrMap Bool := ∅
  tensors : AttrMap T := ∅

namespace Attrs

variable {T : Type} (a : Attrs T)

def getAttr (name : String) : ℚ := (a.floats.lookup name).getD 0
def getIntAttr (name : String) : Int := (a.ints.lookup name).getD 0
def getVecAttr (name : String) : List Int := (a.vecs.lookup name).getD []
def getBoolAttr (name : String) : Bool := (a.bools.lookup name).getD false

/-- `none` is the empty tensor of a missing attribute. -/
def getTensorAttr (name : String) : Option T := a.tensors.lookup name

def hasFloatAttr (name : String) : Bool := (a.floats.lookup name).isSome
def hasIntAttr (name : String) : Bool := (a.ints.lookup name).isSome
def hasVecAttr (name : String) : Bool := (a.vecs.lookup name).isSome
def hasBoolAttr (name : String) : Bool := (a.bools.lookup name).isSome
def hasTensorAttr (name : String) : Bool := (a.tensors.lookup name).isSome

def hasAttr (name : String) : Bool :=
  a.hasFloatAttr name || a.hasIntAttr name || a.hasVecAttr name ||
    a.hasBoolAttr name || a.hasTensorAttr name

def setAttr (name : String) (x : ℚ) : Attrs T := { a with floats := a.floats.insert name x }
def setIntAttr (name : String) (x : Int) : Attrs T := { a with ints := a.ints.insert name x }
def setBoolAttr (name : String) (x : Bool) : Attrs T := { a with bools := a.bools.insert name x }
def setTensorAttr (name : String) (x : T) : Attrs T :=
  { a with tensors := a.tensors.insert name x }

end Attrs

structure Value where
  id : String
  shape : List Int := []
  dtype : DType := .float32
  node : Option NodeRef := none
  uses : List NodeRef := []

/-- What `execute_node` reads of a node besides the tensors of its inputs. -/
structure NodeCode (T S : Type) where
  opType : OpType
  attrs : Attrs T := {}
  thenBranch : Option S := none
  elseBranch : Option S := none
  body : Option S := none

structure Node (T S : Type) extends NodeCode T S where
  name : String := ""
  inputs : List ValRef := []
  outputs : List ValRef := []

/-- `valAt` and `nodeAt` are the heaps, `nextVal` and `nextNode` their first
unused addresses; the other fields are those of the source. -/
structure Graph (T S : Type) where
  valAt : ValRef → Value
  nodeAt : NodeRef → Node T S
  nextVal : ValRef
  nextNode : NodeRef
  nodes : List NodeRef
  values : String → Option ValRef
  inputs : List ValRef
  outputs : List ValRef
  constants : String → Option T := fun _ => none
  nextNodeId : Nat := 0

namespace Graph

variable {T S : Type} (g : Graph T S)

def idOf (v : ValRef) : String := (g.valAt v).id
def usesOf (v : ValRef) : List NodeRef := (g.valAt v).uses
def inputsOf (n : NodeRef) : List ValRef := (g.nodeAt n).inputs
def outputsOf (n : NodeRef) : List ValRef := (g.nodeAt n).outputs
def opOf (n : NodeRef) : OpType := (g.nodeAt n).opType
def attrsOf (n : NodeRef) : Attrs T := (g.nodeAt n).attrs
def codeOf (n : NodeRef) : NodeCode T S := (g.nodeAt n).toNodeCode

/-- `Value::node()`. -/
def producer (v : ValRef) : Option NodeRef :=
  (g.valAt v).node.filter (· ∈ g.nodes)

def setVal (v : ValRef) (x : Value) : Graph T S :=
  { g with valAt := Function.update g.valAt v x }

def setNode (n : NodeRef) (x : Node T S) : Graph T S :=
  { g with nodeAt := Function.update g.nodeAt n x }

def addUse (v : ValRef) (n : NodeRef) : Graph T S :=
  g.setVal v { g.valAt v with uses := (g.valAt v).uses ++ [n] }

/-- Removes every entry of the node, however often the node reads the value. -/
def removeUse (v : ValRef) (n : NodeRef) : Graph T S :=
  g.setVal v { g.valAt v with uses := (g.valAt v).uses.filter (· ≠ n) }

def clearUses (v : ValRef) : Graph T S :=
  g.setVal v { g.valAt v with uses := [] }

def addInput (n : NodeRef) (v : ValRef) : Graph T S :=
  (g.setNode n { g.nodeAt n with inputs := (g.nodeAt n).inputs ++ [v] }).addUse v n

def addOutput (n : NodeRef) (v : ValRef) : Graph T S :=
  (g.setVal v { g.valAt v with node := some n }).setNode n
    { g.nodeAt n with outputs := (g.nodeAt n).outputs ++ [v] }

/-- The body of `Node::replace_input` after its bounds check: `old` is the
value at position `idx`. -/
def rewire (n : NodeRef) (idx : Nat) (old v : ValRef) : Graph T S :=
  let g₁ := g.removeUse old n
  (g₁.setNode n { g₁.nodeAt n with inputs := (g₁.nodeAt n).inputs.set idx v }).addUse v n

def replaceInput (n : NodeRef) (idx : Nat) (v : ValRef) : Except Exn (Graph T S) :=
  match (g.inputsOf n)[idx]? with
  | none => .error (.runtimeError "Input index out of bounds")
  | some old => .ok (g.rewire n idx old v)

/-- The node is allocated but not yet listed; an empty name is generated from
the counter. -/
def createNode (op : OpType) (name : String) : NodeRef × Graph T S :=
  let auto := name = ""
  let nodeName := if auto then opTypeToString op ++ "_" ++ toString g.nextNodeId else name
  (g.nextNode,
    { g.setNode g.nextNode { opType := op, name := nodeName } with
      nextNode := g.nextNode + 1
      nextNodeId := if auto then g.nextNodeId + 1 else g.nextNodeId })

/-- An entry of `values_` under the same id is overwritten. -/
def createValue (id : String) (shape : List Int) (dtype : DType) : ValRef × Graph T S :=
  (g.nextVal,
    { g.setVal g.nextVal { id := id, shape := shape, dtype := dtype } with
      nextVal := g.nextVal + 1
      values := Function.update g.values id (some g.nextVal) })

def getValue (id : String) : Option ValRef := g.values id

def setConstant (id : String) (t : T) : Graph T S :=
  { g with constants := Function.update g.constants id (some t) }

def addNode (n : NodeRef) : Graph T S := { g with nodes := g.nodes ++ [n] }

def removeNode (n : NodeRef) : Graph T S :=
  (g.inputsOf n).foldl (fun h v => h.removeUse v n) { g with nodes := g.nodes.erase n }

/-- One round of the inner loop of `replace_value`: position `i` of a consumer. -/
def redirectAt (oldId : String) (new : ValRef) (n : NodeRef) (i : Nat) : Graph T S :=
  match (g.inputsOf n)[i]? with
  | none => g
  | some v => if g.idOf v = oldId then g.rewire n i v new else g

def redirectConsumer (oldId : String) (new : ValRef) (n : NodeRef) : Graph T S :=
  (List.range (g.inputsOf n).length).foldl (fun h i => h.redirectAt oldId new n i) g

/-- The consumers are collected before the use lists change. -/
def replaceValue (oldId newId : String) : Graph T S :=
  match g.getValue oldId, g.getValue newId with
  | some old, some new =>
    let g₁ := (g.usesOf old).foldl (fun h n => h.redirectConsumer oldId new n) g
    let g₂ := g₁.clearUses old
    { g₂ with outputs := g₂.outputs.map fun o => if g₂.idOf o = oldId then new else o }
  | _, _ => g

/-- `replace_value` for each pair of ids in turn. -/
def replaceValues (pairs : List (String × String)) : Graph T S :=
  pairs.foldl (fun h p => h.replaceValue p.1 p.2) g

def replaceNode (old new : NodeRef) : Graph T S :=
  (g.replaceValues (((g.outputsOf old).zip (g.outputsOf new)).map
    fun p => (g.idOf p.1, g.idOf p.2))).removeNode old

def replaceNodeWithValue (n : NodeRef) (valueId : String) : Graph T S :=
  (g.replaceValues ((g.outputsOf n).map fun o => (g.idOf o, valueId))).removeNode n

end Graph

end Tenzor.Jit
