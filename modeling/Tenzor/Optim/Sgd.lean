import Mathlib.Algebra.Order.Field.Basic
import Tenzor.Core.DType
import Tenzor.Lib.Dict
import Tenzor.Lib.Scanner

/-!
# Stochastic gradient descent

The optimizer on the CPU, over exact arithmetic. A parameter is a `Variable`, known by its identity;
what it holds is in the values of a `Training`, since several entries may be the same parameter.

## Implementation notes

A tensor is the list of its elements, and an undefined one is empty. Gradient clipping, hooks, fused
kernels and parameters that are added later are left out.
-/

namespace Tenzor.Optim

open Throwing Scanner

structure Variable where
  id : ℕ
  dtype : DType
  deriving DecidableEq

variable {K : Type} [Field K] [LinearOrder K]

def add (a b : List K) : List K := List.zipWith (· + ·) a b

def sub (a b : List K) : List K := List.zipWith (· - ·) a b

/-- The product with a tensor of one element. -/
def scale (a : List K) (c : K) : List K := a.map (· * c)

/-- The data type that the state of a parameter is kept in. -/
def optimStateDtype : DType → DType
  | .float16 | .bfloat16 => .float32
  | dtype => dtype

def makeOptimState (value : List K) : List K := value.map fun _ => 0

structure ParamGroup (K : Type) where
  params : List (Option Variable)
  lr : K
  weightDecay : K
  momentum : Option K
  dampening : Option K
  nesterov : Option Bool

structure HP (K : Type) where
  lr : K
  momentum : K
  weightDecay : K
  dampening : K
  nesterov : Bool

structure SGD (K : Type) where
  parameters : List (Option Variable)
  paramGroups : List (ParamGroup K)
  lr : K
  momentum : K
  dampening : K
  weightDecay : K
  nesterov : Bool
  velocityBuffers : List (List K)
  velocityInitialized : List Bool

/-- An optimizer and what the parameters hold. -/
structure Training (K : Type) where
  opt : SGD K
  values : Variable → List K

namespace SGD

/-- What the constructors are given; a flat list comes without groups. -/
structure Arguments (K : Type) where
  parameters : List (Option Variable)
  paramGroups : List (ParamGroup K)
  lr : K
  momentum : K
  dampening : K
  weightDecay : K
  nesterov : Bool

/-- The arguments of the constructor of groups. -/
def grouped (groups : List (ParamGroup K))
    (defaultLr defaultMomentum defaultDampening defaultWeightDecay : K) (defaultNesterov : Bool) :
    Arguments K :=
  ⟨groups.flatMap ParamGroup.params, groups, defaultLr, defaultMomentum, defaultDampening,
    defaultWeightDecay, defaultNesterov⟩

def initializeBuffers (values : Variable → List K) (params : List (Option Variable)) :
    List (List K) :=
  params.map fun p => match p with
    | some v => makeOptimState (values v)
    | none => []

/-- The optimizer on parameters that hold these values. -/
def construct (args : Arguments K) (values : Variable → List K) : SGD K where
  parameters := args.parameters
  paramGroups := args.paramGroups
  lr := args.lr
  momentum := args.momentum
  dampening := args.dampening
  weightDecay := args.weightDecay
  nesterov := args.nesterov
  velocityBuffers := initializeBuffers values args.parameters
  velocityInitialized := args.parameters.map fun _ => false

/-- The group of a parameter, the first one that has it. -/
def findGroupForParam (opt : SGD K) (v : Variable) : Option (ParamGroup K) :=
  opt.paramGroups.find? fun g => some v ∈ g.params

def resolve (opt : SGD K) (v : Variable) : HP K :=
  match opt.findGroupForParam v with
  | some g => ⟨g.lr, g.momentum.getD opt.momentum, g.weightDecay, g.dampening.getD opt.dampening,
      g.nesterov.getD opt.nesterov⟩
  | none => ⟨opt.lr, opt.momentum, opt.weightDecay, opt.dampening, opt.nesterov⟩

/-- The gradient with the weight decay. -/
def decayed (hp : HP K) (param grad : List K) : List K :=
  if 0 < hp.weightDecay then add grad (scale param hp.weightDecay) else grad

/-- The momentum buffer. The first step copies the gradient. -/
def velocity (hp : HP K) (initialized : Bool) (vel grad : List K) : List K :=
  if initialized then add (scale vel hp.momentum) (scale grad (1 - hp.dampening)) else grad

def effGrad (hp : HP K) (vel grad : List K) : List K :=
  if hp.nesterov then add grad (scale vel hp.momentum) else vel

/-- The update of entry `i`, which is the parameter `v`, from its gradient. -/
def updateEntry (i : ℕ) (v : Variable) (hp : HP K) (grad : List K) (t : Training K) : Training K :=
  if 0 < hp.momentum then
    let vel := velocity hp (t.opt.velocityInitialized.getD i false)
      (t.opt.velocityBuffers.getD i []) grad
    { opt := { t.opt with
        velocityBuffers := t.opt.velocityBuffers.set i vel
        velocityInitialized := t.opt.velocityInitialized.set i true }
      values := Function.update t.values v
        (sub (t.values v) (scale (effGrad hp vel grad) hp.lr)) }
  else { t with values := Function.update t.values v (sub (t.values v) (scale grad hp.lr)) }

structure CpuEntry (K : Type) where
  param : Variable
  grad : List K
  idx : ℕ
  hp : HP K

/-- An entry that has a gradient is updated at once if its state has another type; otherwise its
gradient is collected. -/
def collect (grads : Variable → Option (List K)) (acc : Training K × List (CpuEntry K))
    (entry : Option Variable × ℕ) : Training K × List (CpuEntry K) :=
  match entry.1 with
  | none => acc
  | some v =>
    match grads v with
    | none => acc
    | some grad =>
      let hp := acc.1.opt.resolve v
      let g := decayed hp (acc.1.values v) grad
      if optimStateDtype v.dtype ≠ v.dtype then (updateEntry entry.2 v hp g acc.1, acc.2)
      else (acc.1, acc.2 ++ [⟨v, g, entry.2, hp⟩])

/-- The update of the entries when none has a momentum. -/
def updateVanilla (t : Training K) (e : CpuEntry K) : Training K :=
  { t with
    values := Function.update t.values e.param (sub (t.values e.param) (scale e.grad e.hp.lr)) }

def stepImpl (grads : Variable → Option (List K)) (t : Training K) : Training K :=
  let (t, cpu) := t.opt.parameters.zipIdx.foldl (collect grads) (t, [])
  if cpu.any fun e => 0 < e.hp.momentum then
    cpu.foldl (fun t e => updateEntry e.idx e.param e.hp e.grad t) t
  else cpu.foldl updateVanilla t

def setLr (lr : K) (opt : SGD K) : SGD K :=
  { opt with
    lr := lr
    paramGroups := opt.paramGroups.map fun g =>
      { g with lr := if opt.lr = 0 then lr else g.lr * (lr / opt.lr) } }

/-- A saved tensor on the CPU. -/
inductive Saved (K : Type)
  | floating (dtype : DType) (values : List K)
  | int64 (values : List Int)

namespace Saved

def dtype : Saved K → DType
  | floating dtype _ => dtype
  | int64 _ => .int64

def mismatch {α : Type} (s : Saved K) : Except Exn α :=
  throw (.runtimeError ("Type mismatch: requested type does not match tensor dtype (expected " ++
    dtypeName s.dtype ++ ")"))

def doubles : Saved K → Except Exn (List K)
  | floating .float64 values => pure values
  | s => s.mismatch

def ints : Saved K → Except Exn (List Int)
  | int64 values => pure values
  | s => s.mismatch

/-- The elements after a conversion to a floating-point type. -/
def toFloating : Saved K → List K
  | floating _ values => values
  | int64 values => values.map fun i => (i : K)

end Saved

def velocityKey (i : ℕ) : List UInt8 := ascii "velocity_" ++ decimal i

/-- The data type of the state of an entry. -/
def stateDtype (p : Option Variable) : DType :=
  match p with
  | some v => optimStateDtype v.dtype
  | none => .float32

def flag (b : Bool) : Int := if b then 1 else 0

/-- The assignments of `state_dict`. -/
def stateEntries (opt : SGD K) : List (List UInt8 × Saved K) :=
  [(ascii "lr", .floating .float64 [opt.lr]),
    (ascii "momentum", .floating .float64 [opt.momentum]),
    (ascii "dampening", .floating .float64 [opt.dampening]),
    (ascii "weight_decay", .floating .float64 [opt.weightDecay]),
    (ascii "nesterov", .int64 [flag opt.nesterov])] ++
  (opt.velocityBuffers.zip opt.parameters).zipIdx.map (fun e =>
    (velocityKey e.2, .floating (stateDtype e.1.2) e.1.1)) ++
  (if opt.velocityInitialized = [] then [] else
    [(ascii "velocity_initialized", .int64 (opt.velocityInitialized.map flag))]) ++
  [(ascii "num_params", .int64 [(opt.velocityBuffers.length : Int)])]

def stateDict (opt : SGD K) : Dict (List UInt8) (Saved K) := Dict.ofEntries opt.stateEntries

/-- The first element of a saved tensor, or what was there before. -/
def readDouble (state : Dict (List UInt8) (Saved K)) (key : String) (old : K) : Except Exn K :=
  match state.lookup (ascii key) with
  | some s => do
      let values ← s.doubles
      pure (values.headD 0)
  | none => pure old

def readInt (state : Dict (List UInt8) (Saved K)) (key : String) (old : Int) : Except Exn Int :=
  match state.lookup (ascii key) with
  | some s => do
      let values ← s.ints
      pure (values.headD 0)
  | none => pure old

def loadVelocities (state : Dict (List UInt8) (Saved K)) (buffers : List (List K)) :
    List (List K) :=
  buffers.zipIdx.map fun e =>
    match state.lookup (velocityKey e.2) with
    | some s => s.toFloating
    | none => e.1

/-- Without saved flags, the buffers that have elements count as initialized. -/
def loadInitialized (state : Dict (List UInt8) (Saved K)) (buffers : List (List K)) :
    Except Exn (List Bool) :=
  match state.lookup (ascii "velocity_initialized") with
  | some s => do
      let flags ← s.ints
      pure (buffers.zipIdx.map fun e => decide (flags.getD e.2 0 ≠ 0))
  | none => pure (buffers.map fun b => decide (b ≠ []))

def isBufferKey (k : List UInt8) : Bool :=
  (ascii "velocity_").isPrefixOf k && decide (k ≠ ascii "velocity_initialized")

def savedCount (state : Dict (List UInt8) (Saved K)) : ℕ := (state.keys.filter isBufferKey).length

def loadStateDict (opt : SGD K) (state : Dict (List UInt8) (Saved K)) : Except Exn (SGD K) := do
  throwIf (0 < savedCount state ∧ savedCount state ≠ opt.velocityBuffers.length)
    (.runtimeError ("SGD::load_state_dict: velocity buffer count mismatch - saved " ++
      toString (savedCount state) ++ " but have " ++ toString opt.velocityBuffers.length ++
      " parameters"))
  let expected ← readInt state "num_params" (opt.velocityBuffers.length : Int)
  throwIf (expected ≠ opt.velocityBuffers.length)
    (.runtimeError ("SGD::load_state_dict: parameter count mismatch - saved " ++
      toString expected ++ " but have " ++ toString opt.velocityBuffers.length))
  let lr ← readDouble state "lr" opt.lr
  let momentum ← readDouble state "momentum" opt.momentum
  let dampening ← readDouble state "dampening" opt.dampening
  let weightDecay ← readDouble state "weight_decay" opt.weightDecay
  let nesterov ← readInt state "nesterov" (flag opt.nesterov)
  let initialized ← loadInitialized state (loadVelocities state opt.velocityBuffers)
  pure { opt with
    lr := lr
    momentum := momentum
    dampening := dampening
    weightDecay := weightDecay
    nesterov := decide (nesterov ≠ 0)
    velocityBuffers := loadVelocities state opt.velocityBuffers
    velocityInitialized := initialized }

end SGD

/-- The gradients that a backward pass leaves, from what the parameters hold. -/
structure Backward (K : Type) where
  grads : (Variable → List K) → Variable → Option (List K)
  length_eq : ∀ values v g, grads values v = some g → g.length = (values v).length

/-- The gradient of the sum of some parameters. -/
def ones (vs : List Variable) : Backward ℚ where
  grads values v := if v ∈ vs then some ((values v).map fun _ => 1) else none
  length_eq values v g h := by
    split at h
    · obtain rfl := Option.some.inj h
      exact List.length_map _
    · exact nomatch h

inductive Action (K : Type)
  | step (backward : Backward K)
  | setLr (lr : K)

def Training.act (t : Training K) : Action K → Training K
  | .step backward => SGD.stepImpl (backward.grads t.values) t
  | .setLr lr => { t with opt := t.opt.setLr lr }

def Training.run (t : Training K) (actions : List (Action K)) : Training K :=
  actions.foldl Training.act t

end Tenzor.Optim
