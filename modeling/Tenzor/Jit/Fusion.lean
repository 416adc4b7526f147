import Tenzor.Jit.Building
import Tenzor.Jit.Executor

/-!
# Folding a neighbour into a node

The passes `FuseConvBatchNormRelu`, `FuseConvBatchNorm`, `FuseConvRelu`,
`FuseLinearRelu`, `FuseMatMulAdd` and `FuseLayerNormActivation` match a node and
the one consumer of its result, mark the node and delete the consumer. The
matching looks at use counts alone; `Foldable` says when the marked node really
stands for both.
-/

namespace Tenzor.Jit

open Throwing

namespace Graph

variable {T S : Type} (K : Kernels T) (g : Graph T S)

def singleConsumer (v : ValRef) : Option NodeRef :=
  match g.usesOf v with
  | [n] => some n
  | _ => none

/-- The loop of `next_op`: the casts stepped over, the value after them and its
consumer. -/
def walk : Nat → ValRef → Option (List NodeRef × ValRef × NodeRef)
  | 0, _ => none
  | hops + 1, v =>
    match g.singleConsumer v with
    | none => none
    | some c =>
      match g.outputsOf c with
      | [] => some ([], v, c)
      | v' :: _ =>
        if g.opOf c = .cast ∧ (g.inputsOf c).length = 1 then
          (walk hops v').map fun r => (c :: r.1, r.2)
        else some ([], v, c)

def nextOp (v : ValRef) : Option NodeRef := (g.walk 8 v).map fun r => r.2.2

/-- The first output of a node of the given kind, and the operation that reads it. -/
def matchNext (n : NodeRef) (op : OpType) : Option (ValRef × NodeRef) :=
  if g.opOf n = op then
    match g.outputsOf n with
    | [] => none
    | o :: _ => (g.nextOp o).map fun r => (o, r)
  else none

/-- `resolve_constant_tensor`; `fuel` bounds the casts it sees through, of which a
graph without cycles has at most as many as nodes. -/
def resolveConstantTensor : Nat → ValRef → Option T
  | 0, _ => none
  | fuel + 1, v =>
    match g.constants (g.idOf v) with
    | some t => some t
    | none =>
      match g.producer v with
      | none => none
      | some m =>
        if g.opOf m = .constant then (g.attrsOf m).getTensorAttr "value"
        else
          match g.inputsOf m with
          | [w] => if g.opOf m = .cast then resolveConstantTensor fuel w else none
          | _ => none

/-- The tensor with at least one element that a value is known to hold. -/
def resolve (v : ValRef) : Option T :=
  (g.resolveConstantTensor (g.nodes.length + 1) v).filter fun t => K.numel t ≠ 0

structure BnParams (T : Type) where
  gamma : T
  beta : T
  runningMean : T
  runningVar : T

/-- Affine inputs are `(x, gamma, beta, mean, var)`, the others `(x, mean, var)`. -/
def resolveBnParams (bn : NodeRef) : Option (BnParams T) :=
  match g.inputsOf bn with
  | _ :: gamma :: beta :: mean :: var :: _ => do
      let gamma ← g.resolve K gamma
      let beta ← g.resolve K beta
      let mean ← g.resolve K mean
      let var ← g.resolve K var
      return ⟨gamma, beta, mean, var⟩
  | _ :: mean :: var :: _ => do
      let var ← g.resolve K var
      let mean ← g.resolve K mean
      let channels := (K.shape var).headD 0
      return ⟨K.ones channels (K.dtype var), K.zeros channels (K.dtype var), mean, var⟩
  | _ => none

end Graph

/-- The tensor itself when it already has the type. -/
def Kernels.toDType {T : Type} (K : Kernels T) (dt : DType) (t : T) : Except Exn T :=
  if K.dtype t = dt then .ok t else K.convert dt t

/-- The weight is `[out, in, kH, kW]`; the scale is one number for each output channel. -/
def scaleWeight {T : Type} (K : Kernels T) (w scale : T) : Except Exn T :=
  if (K.shape w).length = 4 then K.reshape [(K.shape w).headD 0, 1, 1, 1] scale >>= K.mul w
  else K.mul w scale

/-- `scale * (b - mean) + beta`, or `beta - scale * mean` without a bias. -/
def shiftBias {T : Type} (K : Kernels T) (cdt : DType) (scale mean beta : T) :
    Option T → Except Exn T
  | some b => do
      let b ← K.toDType cdt b
      let centred ← K.sub b mean
      let scaled ← K.mul scale centred
      K.add scaled beta
  | none => do
      let scaled ← K.mul scale mean
      K.sub beta scaled

/-- The weight and bias of a convolution that also normalizes: the parameters of
half types are widened for the computation and the results narrowed back. -/
def foldBnIntoConv {T : Type} (K : Kernels T) (bn : Graph.BnParams T) (eps : ℚ) (weight : T)
    (bias : Option T) : Except Exn (T × T) := do
  let pdt := K.dtype bn.runningVar
  let cdt := if pdt = .float16 ∨ pdt = .bfloat16 then .float32 else pdt
  let gamma ← K.toDType cdt bn.gamma
  let var ← K.toDType cdt bn.runningVar
  let shifted ← K.addScalar var eps
  let root ← K.sqrt shifted
  let scale ← K.div gamma root
  let w ← K.toDType cdt weight
  let fusedWeight ← scaleWeight K w scale
  let fusedWeight ← K.toDType (K.dtype weight) fusedWeight
  let beta ← K.toDType cdt bn.beta
  let mean ← K.toDType cdt bn.runningMean
  let fusedBias ← shiftBias K cdt scale mean beta bias
  let fusedBias ← K.toDType (K.dtype (bias.getD bn.beta)) fusedBias
  return (fusedWeight, fusedBias)

namespace Graph

variable {T S : Type} (K : Kernels T) (g : Graph T S)

/-- Set the attributes of a node. -/
def mapAttrs (n : NodeRef) (f : Attrs T → Attrs T) : Graph T S :=
  g.setNode n { g.nodeAt n with attrs := f (g.attrsOf n) }

/-- The id of the first output, else the node's name. -/
def baseId (n : NodeRef) : String :=
  match g.outputsOf n with
  | [] => (g.nodeAt n).name
  | o :: _ => g.idOf o

/-- A captured constant under the base id with a suffix. -/
def makeConstValue (n : NodeRef) (t : T) (suffix : String) : ValRef × Graph T S :=
  g.installConstant (g.baseId n ++ suffix) (K.shape t) (K.dtype t) t

def installFusedConvWeights (conv : NodeRef) (weight bias : T) : Except Exn (Graph T S) := do
  let w := g.makeConstValue K conv weight "_fused_w"
  let g₁ ← w.2.replaceInput conv 1 w.1
  let b := g₁.makeConstValue K conv bias "_fused_b"
  if 3 ≤ (g₁.inputsOf conv).length then b.2.replaceInput conv 2 b.1
  else return b.2.addInput conv b.1

/-- Redirect the consumers of the first output of `r` to the first output of `s`
and remove `r`; nothing happens when one of them has no output. -/
def absorb (s r : NodeRef) : Graph T S :=
  match g.outputsOf s, g.outputsOf r with
  | o :: _, p :: _ => (g.replaceValue (g.idOf p) (g.idOf o)).removeNode r
  | _, _ => g

/-- The common part of the two batch-norm fusions; `none` when an operand is not
known at compile time. -/
def foldBatchNorm (conv bn : NodeRef) : Except Exn (Option (Graph T S)) :=
  match g.resolveBnParams K bn, g.inputsOf conv with
  | some params, _ :: w :: rest =>
    match g.resolve K w with
    | none => .ok none
    | some weight => do
        let bias := rest.head?.bind fun b => g.resolve K b
        let folded ← foldBnIntoConv K params ((g.attrsOf bn).getAttr "eps") weight bias
        let g₁ := g.mapAttrs conv fun a =>
          (a.setTensorAttr "weight" folded.1).setTensorAttr "bias" folded.2
        let g₂ ← g₁.installFusedConvWeights K conv folded.1 folded.2
        return some (g₂.mapAttrs conv fun a => a.setBoolAttr "fused_bn" true)
  | _, _ => .ok none

def fuseConvBatchNorm (conv bn : NodeRef) : Except Exn (Graph T S) := do
  match ← g.foldBatchNorm K conv bn with
  | none => return g
  | some g₁ => return g₁.absorb conv bn

def fuseConvBatchNormRelu (conv bn relu : NodeRef) : Except Exn (Graph T S) := do
  match ← g.foldBatchNorm K conv bn with
  | none => return g
  | some g₁ =>
    let g₂ := g₁.mapAttrs conv fun a => a.setBoolAttr "fused_relu" true
    match g₂.outputsOf conv, g₂.outputsOf relu with
    | o :: _, p :: _ =>
      let g₃ := g₂.replaceValue (g₂.idOf p) (g₂.idOf o)
      let g₄ := match g₂.outputsOf bn with
        | b :: _ => g₃.replaceValue (g₂.idOf b) (g₂.idOf o)
        | [] => g₃
      return (g₄.removeNode relu).removeNode bn
    | _, _ => return g₂

/-- `FuseConvReluPass` and `FuseLinearReluPass` mark their node the same way. -/
def fuseRelu (s relu : NodeRef) : Graph T S :=
  (g.mapAttrs s fun a => a.setBoolAttr "fused_relu" true).absorb s relu

/-- The operand of the `Add` that is not the product. -/
def biasOperand (o : ValRef) (add : NodeRef) : Option ValRef :=
  match g.inputsOf add with
  | x :: y :: _ =>
    if g.idOf x = g.idOf o then some y else if g.idOf y = g.idOf o then some x else none
  | _ => none

/-- The tensor of a bias that a Constant node produces. -/
def constantBias (bias : ValRef) : Option T :=
  match g.producer bias with
  | none => none
  | some m =>
    if g.opOf m = .constant then
      ((g.attrsOf m).getTensorAttr "value").filter fun t => K.numel t > 0
    else none

def fuseMatMulAdd (matmul add : NodeRef) (bias : ValRef) : Graph T S :=
  let g₁ := g.mapAttrs matmul fun a =>
    let a := match g.constantBias K bias with
      | some t => a.setTensorAttr "fused_bias" t
      | none => a
    a.setBoolAttr "fused_bias" true
  (g₁.addInput matmul bias).absorb matmul add

def fuseLayerNormActivation (ln act : NodeRef) : Graph T S :=
  (g.mapAttrs ln fun a => (a.setBoolAttr "fused_activation" true).setIntAttr
    "fused_activation_type" (if g.opOf act = .relu then 1 else 2)).absorb ln act

end Graph

inductive FusionPass
  | convBatchNormRelu | convBatchNorm | convRelu | linearRelu | matMulAdd | layerNormActivation
  deriving DecidableEq, Repr

namespace FusionPass

open Graph

variable {T S : Type} (K : Kernels T)

/-- What the loop of a pass does with one node of its snapshot. -/
def visit (pass : FusionPass) (g : Graph T S) (n : NodeRef) : Except Exn (Graph T S) :=
  match pass with
  | .convBatchNormRelu =>
    match g.matchNext n .conv2d with
    | some (_, bn) =>
      match g.matchNext bn .batchNorm2d with
      | some (_, relu) =>
        if g.opOf relu = .relu ∧ (g.attrsOf bn).getBoolAttr "training" = false then
          g.fuseConvBatchNormRelu K n bn relu
        else .ok g
      | none => .ok g
    | none => .ok g
  | .convBatchNorm =>
    match g.matchNext n .conv2d with
    | some (_, bn) =>
      if g.opOf bn = .batchNorm2d ∧ (g.attrsOf bn).getBoolAttr "training" = false then
        g.fuseConvBatchNorm K n bn
      else .ok g
    | none => .ok g
  | .convRelu =>
    match g.matchNext n .conv2d with
    | some (_, relu) => if g.opOf relu = .relu then .ok (g.fuseRelu n relu) else .ok g
    | none => .ok g
  | .linearRelu =>
    match g.matchNext n .linear with
    | some (_, relu) => if g.opOf relu = .relu then .ok (g.fuseRelu n relu) else .ok g
    | none => .ok g
  | .matMulAdd =>
    match g.matchNext n .matMul with
    | some (o, add) =>
      if g.opOf add = .add then
        match g.biasOperand o add with
        | some bias =>
          if (g.valAt bias).shape.length = 1 then .ok (g.fuseMatMulAdd K n add bias)
          else .ok g
        | none => .ok g
      else .ok g
    | none => .ok g
  | .layerNormActivation =>
    if (g.attrsOf n).getBoolAttr "fused_activation" then .ok g
    else
      match g.matchNext n .layerNorm with
      | some (_, act) =>
        if g.opOf act = .relu ∨ g.opOf act = .gelu then .ok (g.fuseLayerNormActivation n act)
        else .ok g
      | none => .ok g

/-- A pass walks over a snapshot of the node list. -/
def run (pass : FusionPass) (g : Graph T S) : Except Exn (Graph T S) :=
  g.nodes.foldlM (pass.visit K) g

/-- Any number of iterations of the passes in any order. -/
def runAll (passes : List FusionPass) (g : Graph T S) : Except Exn (Graph T S) :=
  passes.foldlM (fun h pass => pass.run K h) g

end FusionPass

end Tenzor.Jit
