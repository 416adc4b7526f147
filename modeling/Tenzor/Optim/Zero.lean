import Tenzor.Optim.Sgd

/-!
# The ZeRO optimizer of stage 1

The wrapper of a base optimizer that is SGD: one process, parameters assigned as a whole, no
offload. It updates the parameters by itself and never steps the base optimizer.

## Implementation notes

The data type of the states rounds and is left out, and so are memory counts and profiles. A null
parameter, which the constructor dereferences, is passed over. A parameter has a dimension: the
update of the base optimizer gives one to a parameter without. Parameters are contiguous, and a
parameter keeps its type: without a master copy the momentum step turns one of half precision into
one of type float32.
-/

namespace Tenzor.Optim

variable {K : Type} [Field K] [LinearOrder K]

def SGD.defaults (opt : SGD K) : HP K :=
  ⟨opt.lr, opt.momentum, opt.weightDecay, opt.dampening, opt.nesterov⟩

structure ZeROStage1Config where
  useMasterFp32 : Bool
  balancedPartitioning : Bool

/-- A place of `params`, `momentum` and `master_params` in the partition. Without a master copy the
last one is empty. -/
structure Slot (K : Type) where
  param : Variable
  momentum : List K
  master : List K

structure ZeROStage1Optimizer (K : Type) where
  config : ZeROStage1Config
  baseOptimizer : SGD K
  partition : List (Slot K)
  stepCount : ℕ

/-- A wrapper and what the parameters hold. -/
structure ZeROTraining (K : Type) where
  opt : ZeROStage1Optimizer K
  values : Variable → List K

namespace ZeROStage1Optimizer

/-- The parameters of the only rank: as they are listed, or the large ones first. -/
def partitionParameters (config : ZeROStage1Config) (values : Variable → List K)
    (params : List Variable) : List Variable :=
  let bytes (v : Variable) := (values v).length * dtypeSize v.dtype
  if config.balancedPartitioning then params.mergeSort fun v w => decide (bytes w ≤ bytes v)
  else params

def initializeState (config : ZeROStage1Config) (values : Variable → List K) (v : Variable) :
    Slot K where
  param := v
  momentum := makeOptimState (values v)
  master := if config.useMasterFp32 = true ∧ v.dtype ≠ .float32 then values v else []

/-- The constructor of groups, around a base optimizer. -/
def construct (config : ZeROStage1Config) (groups : List (ParamGroup K)) (base : SGD K)
    (values : Variable → List K) : ZeROStage1Optimizer K where
  config := config
  baseOptimizer := base
  partition := (partitionParameters config values
    (groups.flatMap ParamGroup.params).reduceOption).map (initializeState config values)
  stepCount := 0

def hasMaster (config : ZeROStage1Config) (s : Slot K) : Bool :=
  config.useMasterFp32 && !s.master.isEmpty

/-- What is updated: the master copy, or the parameter. -/
def target (config : ZeROStage1Config) (s : Slot K) (values : Variable → List K) : List K :=
  if hasMaster config s then s.master else values s.param

/-- The new target, which a parameter takes over from its master copy. -/
def store (config : ZeROStage1Config) (s : Slot K) (target : List K)
    (values : Variable → List K) : Slot K × (Variable → List K) :=
  (if hasMaster config s then { s with master := target } else s,
    Function.update values s.param target)

def gradWithDecay (hp : HP K) (target grad : List K) : List K :=
  if hp.weightDecay ≠ 0 then add grad (scale target hp.weightDecay) else grad

/-- The momentum after a step. The first step of the optimizer is not dampened. -/
def momentumStep (hp : HP K) (first : Bool) (momentum grad : List K) : List K :=
  add (scale momentum hp.momentum)
    (if first = true ∨ hp.dampening = 0 then grad else scale grad (1 - hp.dampening))

/-- The body of the loop of `update_partition_sgd`. -/
def updateSlot (config : ZeROStage1Config) (hp : HP K) (first : Bool)
    (grads : Variable → Option (List K)) (s : Slot K) (values : Variable → List K) :
    Slot K × (Variable → List K) :=
  match grads s.param with
  | none => (s, values)
  | some raw =>
    let target := target config s values
    let grad := gradWithDecay hp target raw
    if hp.momentum ≠ 0 then
      let momentum := momentumStep hp first s.momentum grad
      let updateDir := if hp.nesterov then add grad (scale momentum hp.momentum) else momentum
      store config { s with momentum := momentum } (sub target (scale updateDir hp.lr)) values
    else store config s (sub target (scale grad hp.lr)) values

def updatePartitionSgd (config : ZeROStage1Config) (hp : HP K) (first : Bool)
    (grads : Variable → Option (List K)) :
    List (Slot K) → (Variable → List K) → List (Slot K) × (Variable → List K)
  | [], values => ([], values)
  | s :: rest, values =>
    let updated := updateSlot config hp first grads s values
    let others := updatePartitionSgd config hp first grads rest updated.2
    (updated.1 :: others.1, others.2)

end ZeROStage1Optimizer

namespace ZeROTraining

open ZeROStage1Optimizer

def stepImpl (grads : Variable → Option (List K)) (z : ZeROTraining K) : ZeROTraining K :=
  let updated := updatePartitionSgd z.opt.config z.opt.baseOptimizer.defaults
    (z.opt.stepCount == 0) grads z.opt.partition z.values
  { opt := { z.opt with partition := updated.1, stepCount := z.opt.stepCount + 1 }
    values := updated.2 }

def step (z : ZeROTraining K) (backward : Backward K) : ZeROTraining K :=
  z.stepImpl (backward.grads z.values)

/-- A wrapper of an optimizer that was built over the same groups. -/
def start (config : ZeROStage1Config) (args : SGD.Arguments K) (values : Variable → List K) :
    ZeROTraining K :=
  ⟨construct config args.paramGroups (SGD.construct args values) values, values⟩

end ZeROTraining

end Tenzor.Optim
