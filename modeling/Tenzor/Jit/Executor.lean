import Tenzor.Jit.Nesting
import Mathlib.Data.List.Sort

/-!
# The interpreter's switch

`execute_node` outside grad mode, for the operations the passes rewrite. A case
decides which kernels it calls and with which attributes; the kernels themselves
are fields of `Kernels`, so that every result holds for each interpretation of
the tensor operations.

## Implementation notes

The operations no pass looks into are one kernel `other`. A `Max` or `Min` along
one dimension always returns its indices as well: the source computes them only
when somebody reads the second output. The texts of `FusedFFN` leave out the
node's name.
-/

namespace Tenzor.Jit

open Throwing

/-- The attributes `set_conv_attrs_from_node` hands to the kernel, one entry of
each list for a spatial dimension. -/
structure ConvAttrs where
  stride : List Int
  padding : List Int
  dilation : List Int
  outputPadding : List Int
  groups : Int
  deriving DecidableEq, Repr

/-- An interpretation of the tensor operations; each may throw. -/
structure Kernels (T : Type) where
  shape : T → List Int
  dtype : T → DType
  /-- `Tensor::to`. -/
  convert : DType → T → Except Exn T
  /-- `Tensor::to` with the dtype number of a `Cast` node. -/
  cast : Int → T → Except Exn T
  add : T → T → Except Exn T
  sub : T → T → Except Exn T
  mul : T → T → Except Exn T
  div : T → T → Except Exn T
  addScalar : T → ℚ → Except Exn T
  matmul : T → T → Except Exn T
  bmm : T → T → Except Exn T
  linear : T → T → T → Except Exn T
  relu : T → Except Exn T
  gelu : T → Except Exn T
  exp : T → Except Exn T
  log : T → Except Exn T
  sqrt : T → Except Exn T
  abs : T → Except Exn T
  neg : T → Except Exn T
  softmax : Int → T → Except Exn T
  transpose : Int → Int → T → Except Exn T
  reshape : List Int → T → Except Exn T
  where_ : T → T → T → Except Exn T
  /-- `dispatch` of the convolution of the spatial rank of its attributes. -/
  conv : ConvAttrs → List T → Except Exn (List T)
  /-- `(x, mean, var)`. -/
  batchNorm : ℚ → List T → Except Exn (List T)
  /-- `(x, mean, var, gamma, beta)`. -/
  batchNormAffine : ℚ → List T → Except Exn (List T)
  layerNorm : ℚ → List Int → List T → Except Exn (List T)
  sum : Option Int → Bool → T → Except Exn T
  mean : Option Int → Bool → T → Except Exn T
  max : Option Int → Bool → T → Except Exn T
  min : Option Int → Bool → T → Except Exn T
  argmax : Int → Bool → T → T
  argmin : Int → Bool → T → T
  pow : T → ℚ → Except Exn T
  floatPower : T → T → Except Exn T
  rrelu : ℚ → ℚ → T → Except Exn T
  /-- The first element as a double. -/
  first : T → Except Exn ℚ
  /-- `full({1}, x, dtype)`. -/
  full1 : ℚ → DType → T
  ones : Int → DType → T
  zeros : Int → DType → T
  /-- The elements of an Int64 tensor in order. -/
  int64s : T → List Int
  /-- `1.0 / std::sqrt(d)`. -/
  invSqrt : Int → ℚ
  /-- The additive causal mask for scores of these queries and keys. -/
  causalMask : T → T → Except Exn T
  /-- `execute_fused_gpu_node`. -/
  fusedGpu : OpType → Attrs T → List T → Except Exn T
  other : String → Attrs T → List T → Except Exn (List T)

namespace Kernels

variable {T : Type} (K : Kernels T)

def numel (x : T) : Int := (K.shape x).prod

/-- Malformed lists are refused. -/
def attrVecOrScalar (a : Attrs T) (name : String) (rank : Nat) (default : Int) :
    Except Exn (List Int) :=
  let values := a.getVecAttr name
  if values ≠ [] then
    let values := if values.length = 1 ∧ 1 < rank then List.replicate rank (values.headD 0)
      else values
    if values.length ≠ rank then
      .error (.runtimeError ("JIT graph attribute '" ++ name ++ "' has " ++
        toString values.length ++ " element(s); expected 0, 1, or " ++ toString rank ++
        " (spatial rank) entries"))
    else .ok values
  else if a.hasIntAttr name then .ok (List.replicate rank (a.getIntAttr name))
  else .ok (List.replicate rank default)

def setConvAttrsFromNode (a : Attrs T) (spatialRank : Nat) : Except Exn ConvAttrs := do
  let stride ← attrVecOrScalar a "stride" spatialRank 1
  let padding ← attrVecOrScalar a "padding" spatialRank 0
  let dilation ← attrVecOrScalar a "dilation" spatialRank 1
  let outputPadding ← attrVecOrScalar a "output_padding" spatialRank 0
  let groups := if a.hasAttr "groups" then a.getIntAttr "groups" else 1
  return ⟨stride, padding, dilation, outputPadding, groups⟩

/-- Axes made non-negative, those out of range dropped, ascending, each once. -/
def normalizeReduceDims (dims : List Int) (rank : Int) : List Int :=
  ((dims.map fun d => if d < 0 then d + rank else d).filter
    fun d => 0 ≤ d ∧ d < rank).insertionSort (· ≤ ·) |>.dedup

def keepdim (a : Attrs T) : Bool := if a.hasAttr "keepdim" then a.getBoolAttr "keepdim" else false

/-- A reduction along the axis `dim`, the axes `dims` from the highest to the
lowest, or all axes. -/
def reduce (kernel : Option Int → Bool → T → Except Exn T) (a : Attrs T) (x : T) :
    Except Exn T :=
  if a.hasIntAttr "dim" then kernel (some (a.getIntAttr "dim")) (keepdim a) x
  else if a.hasVecAttr "dims" then
    (normalizeReduceDims (a.getVecAttr "dims") (K.shape x).length).reverse.foldlM
      (fun acc d => kernel (some d) (keepdim a) acc) x
  else kernel none (keepdim a) x

def eps (a : Attrs T) : ℚ := if a.hasAttr "eps" then a.getAttr "eps" else 1 / 100000

/-- A marker applies the activation to the result. -/
def reluIf (marked : Bool) (x : T) : Except Exn T := if marked then K.relu x else .ok x

/-- The bias is the third input, else the tensor attribute. -/
def addFusedBias (a : Attrs T) (mm : T) (rest : List T) : Except Exn T :=
  if a.getBoolAttr "fused_bias" then
    match rest with
    | bias :: _ => K.add mm bias
    | [] => match a.getTensorAttr "fused_bias" with
        | some bias => K.add mm bias
        | none => .ok mm
  else .ok mm

def executeMatMul (a : Attrs T) : List T → Except Exn (List T)
  | x :: y :: rest => do
      let mm ← K.matmul x y
      let biased ← K.addFusedBias a mm rest
      let out ← K.reluIf (a.getBoolAttr "fused_relu") biased
      return [out]
  | _ => .ok []

/-- `Linear` without a bias multiplies by the transposed weight. -/
def linearOf (x w : T) : List T → Except Exn T
  | b :: _ => K.linear x w b
  | [] => K.transpose 0 1 w >>= K.matmul x

def executeLinear (a : Attrs T) : List T → Except Exn (List T)
  | x :: w :: rest => do
      let lin ← K.linearOf x w rest
      let out ← K.reluIf (a.getBoolAttr "fused_relu") lin
      return [out]
  | _ => .ok []

/-- The result of a kernel that may return several tensors, or none. -/
def activateFirst (act : T → Except Exn T) : List T → Except Exn (List T)
  | [] => .ok []
  | y :: _ => do
      let out ← act y
      return [out]

def executeConv2d (a : Attrs T) : List T → Except Exn (List T)
  | x :: w :: rest => do
      let rank := (K.shape x).length
      throwIf (rank < 3 ∨ 5 < rank) (.runtimeError
        ("JIT Conv replay expects a 3D/4D/5D input (rank " ++ toString rank ++ ")"))
      let convAttrs ← setConvAttrsFromNode a (rank - 2)
      let result ← K.conv convAttrs (x :: w :: rest.take 1)
      activateFirst (K.reluIf (a.getBoolAttr "fused_relu")) result
  | _ => .ok []

/-- The IR order is `(x, gamma, beta, mean, var)`. -/
def executeBatchNorm2d (a : Attrs T) : List T → Except Exn (List T)
  | [] => .ok []
  | [x, gamma, beta, mean, var] => do
      let result ← K.batchNormAffine (eps a) [x, mean, var, gamma, beta]
      return result.take 1
  | [x, mean, var] => do
      let result ← K.batchNorm (eps a) [x, mean, var]
      return result.take 1
  | xs => .error (.runtimeError
      ("JIT: BatchNorm2d replay expects 3 (non-affine) or 5 (affine) inputs, got " ++
        toString xs.length))

/-- 1 is ReLU, anything else GELU. -/
def activate (act : Int) (x : T) : Except Exn T := if act = 1 then K.relu x else K.gelu x

/-- The activation a `LayerNorm` carries. -/
def fusedActivation (a : Attrs T) (x : T) : Except Exn T :=
  if a.getBoolAttr "fused_activation" then K.activate (a.getIntAttr "fused_activation_type") x
  else .ok x

def executeLayerNorm (a : Attrs T) : List T → Except Exn (List T)
  | [] => .ok []
  | x :: rest => do
      let result ← K.layerNorm (eps a) (a.getVecAttr "normalized_shape") (x :: rest)
      activateFirst (K.fusedActivation a) result

/-- The fourth input is an additive mask; without it the node may be causal. -/
def maskScores (a : Attrs T) (q k scaled : T) : Option T → Except Exn T
  | some m => K.add scaled m
  | none =>
    if a.hasBoolAttr "causal" && a.getBoolAttr "causal" then
      K.causalMask q k >>= K.add scaled
    else .ok scaled

/-- `softmax(scale * Q * K^T [+ mask]) * V`. -/
def replayFlashAttentionCore (a : Attrs T) (q k v : T) (mask : Option T) : Except Exn T := do
  throwIf (a.hasFloatAttr "dropout_p" ∧ 0 < a.getAttr "dropout_p") (.runtimeError
    ("JIT replay: FlashAttention with dropout_p > 0 is not " ++
      "wired for differentiable/deterministic replay (the " ++
      "dropout mask is not captured); fall back to eager"))
  let scale := if a.hasFloatAttr "scale" then a.getAttr "scale"
    else K.invSqrt ((K.shape k).getLastD 0)
  let kt ← K.transpose (-2) (-1) k
  let scores ← K.matmul q kt
  let scaled ← K.mul scores (K.full1 scale (K.dtype scores))
  let masked ← K.maskScores a q k scaled mask
  let attn ← K.softmax (-1) masked
  K.matmul attn v

def executeFlashAttention (a : Attrs T) : List T → Except Exn (List T)
  | q :: k :: v :: rest => do
      let out ← K.replayFlashAttentionCore a q k v rest.head?
      return [out]
  | _ => .ok []

/-- The bias that a marker declares, taken from the remaining inputs. -/
def takeBias (declared : Bool) (name : String) : List T → Except Exn (Option T × List T)
  | rest => if declared then
      match rest with
      | b :: rest => .ok (some b, rest)
      | [] => .error (.runtimeError ("JIT: FusedFFN node declares " ++ name ++
          " but is missing the bias input"))
    else .ok (none, rest)

def addBias (x : T) : Option T → Except Exn T
  | some b => K.add x b
  | none => .ok x

/-- Inputs `[x, w1, w2, (b1), (b2)]`. -/
def executeFusedFFN (a : Attrs T) : List T → Except Exn (List T)
  | x :: w1 :: w2 :: rest => do
      let b1 ← takeBias (a.getBoolAttr "has_bias1") "has_bias1" rest
      let b2 ← takeBias (a.getBoolAttr "has_bias2") "has_bias2" b1.2
      let w1t ← K.transpose (-2) (-1) w1
      let h ← K.matmul x w1t
      let h ← K.addBias h b1.1
      let act := if a.hasAttr "activation_type" then a.getIntAttr "activation_type" else 2
      let h ← K.activate act h
      let w2t ← K.transpose (-2) (-1) w2
      let out ← K.matmul h w2t
      let out ← K.addBias out b2.1
      return [out]
  | _ => .ok []

/-- A target without a wildcard whose size does not fit gets one in front. -/
def reshapeTarget (shape : List Int) (numel : Int) : List Int :=
  if shape.any (· < 0) || shape.isEmpty then shape
  else if shape.prod ≠ numel then shape.set 0 (-1)
  else shape

def unary (f : T → Except Exn T) : List T → Except Exn (List T)
  | [] => .ok []
  | x :: _ => do
      let y ← f x
      return [y]

def binary (f : T → T → Except Exn T) : List T → Except Exn (List T)
  | x :: y :: _ => do
      let z ← f x y
      return [z]
  | _ => .ok []

/-- With one axis the indices are a second result. -/
def reduceWithIndex (kernel : Option Int → Bool → T → Except Exn T) (index : Int → Bool → T → T)
    (a : Attrs T) : List T → Except Exn (List T)
  | [] => .ok []
  | x :: _ => do
      let y ← K.reduce kernel a x
      return if a.hasIntAttr "dim" then [y, index (a.getIntAttr "dim") (keepdim a) x] else [y]

/-- The exponent is the second input, else the attribute. -/
def executePow (a : Attrs T) : List T → Except Exn (List T)
  | [] => .ok []
  | [x] => do
      let y ← K.pow x (a.getAttr "exponent")
      return [y]
  | x :: e :: _ => do
      let exponent ← K.first e
      let y ← K.pow x exponent
      return [y]

/-- Replay refuses operations that draw at random. -/
def evalOnly (what : String) (a : Attrs T) (f : List T → Except Exn (List T)) (xs : List T) :
    Except Exn (List T) := do
  throwIf (a.getBoolAttr "training") (.runtimeError what)
  f xs

def dropoutText : String :=
  "JIT replay: Dropout(training=true) is not wired for " ++
    "non-differentiable replay either (mask/scale not " ++ "captured); fall back to eager"

def rreluText : String :=
  "JIT replay: RReLU(training=true) is not wired for " ++
    "replay (the eval-mode fixed-midpoint-slope kernel path " ++
    "is the only one captured; the training path draws fresh " ++
    "per-call randomness that a trace cannot represent); " ++ "fall back to eager"

def executePlain (op : OpType) (a : Attrs T) (xs : List T) : Except Exn (List T) :=
  match op with
  | .add => binary K.add xs
  | .sub => binary K.sub xs
  | .mul => binary K.mul xs
  | .div => binary K.div xs
  | .matMul => K.executeMatMul a xs
  | .bmm => binary K.bmm xs
  | .relu => unary K.relu xs
  | .gelu => unary K.gelu xs
  | .softmax => unary (K.softmax (if a.hasAttr "dim" then a.getIntAttr "dim" else -1)) xs
  | .conv2d => K.executeConv2d a xs
  | .batchNorm2d => K.executeBatchNorm2d a xs
  | .layerNorm => K.executeLayerNorm a xs
  | .reshape => unary (fun x => K.reshape (reshapeTarget (a.getVecAttr "shape") (K.numel x)) x) xs
  | .transpose => unary (K.transpose (a.getIntAttr "dim0") (a.getIntAttr "dim1")) xs
  | .sum => unary (K.reduce K.sum a) xs
  | .mean => unary (K.reduce K.mean a) xs
  | .max => K.reduceWithIndex K.max K.argmax a xs
  | .min => K.reduceWithIndex K.min K.argmin a xs
  | .exp => unary K.exp xs
  | .log => unary K.log xs
  | .sqrt => unary K.sqrt xs
  | .abs => unary K.abs xs
  | .neg => unary K.neg xs
  | .pow => K.executePow a xs
  | .cast => unary (K.cast (a.getIntAttr "target_dtype")) xs
  | .dropout => evalOnly dropoutText a (fun xs => .ok (xs.take 1)) xs
  | .rrelu => evalOnly rreluText a (unary (K.rrelu
      (if a.hasAttr "lower" then a.getAttr "lower" else 1 / 8)
      (if a.hasAttr "high" then a.getAttr "high" else 1 / 3))) xs
  | .linear => K.executeLinear a xs
  | .flashAttention => K.executeFlashAttention a xs
  | .fusedFFN => K.executeFusedFFN a xs
  | .constant => match a.hasAttr "value", a.getTensorAttr "value" with
      | true, some t => .ok [t]
      | _, _ => .ok []
  | .where_ => match xs with
      | c :: x :: y :: _ => do
          let z ← K.where_ c x y
          return [z]
      | _ => .ok []
  | .ifOp => .ok []
  | .loop => .ok []
  | .other name => K.other name a xs

/-- A node that `ExtendedFusionPass` built runs its generated kernel. -/
def leaf (_ : NodeRef) (op : OpType) (a : Attrs T) (xs : List T) : Except Exn (List T) :=
  if a.hasAttr "fusion_kind" then do
    let y ← K.fusedGpu op a xs
    return [y]
  else K.executePlain op a xs

end Kernels

end Tenzor.Jit
