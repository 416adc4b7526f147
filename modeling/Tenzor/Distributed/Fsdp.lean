import Tenzor.Lib.FlatBuffer
import Tenzor.Lib.ElementwiseTraining

/-!
# Fully sharded data parallel training

The units of a module tree, the four copies of their parameters (the flat buffer,
the shard, its host copy and the parameters themselves), and the calls of a
training loop on all ranks.

## Implementation notes

The ranks make the same calls, so a step takes all of them at once: a collective
reads what every rank sends. A parameter is named by its variable, and two modules
may hold the same one. Elements are exact and of one dtype. Parameters are contiguous and can be
written in place, without which `add_` throws.
-/

namespace Tenzor.Fsdp

open FlatBuffer ElementwiseTraining

inductive ShardingStrategy
  | fullShard
  | shardGradOp
  | noShard
  deriving DecidableEq, Repr

structure FSDPConfig where
  strategy : ShardingStrategy
  cpuOffload : Bool
  autoWrapMinParams : ℕ

inductive ModuleTree (Var : Type)
  | node (ownParameters : List Var) (submodules : List (ModuleTree Var))

mutual

/-- Every registration of a parameter in the tree. -/
def ModuleTree.registered {Var : Type} : ModuleTree Var → List Var
  | .node own subs => own ++ registeredAll subs

def registeredAll {Var : Type} : List (ModuleTree Var) → List Var
  | [] => []
  | m :: ms => m.registered ++ registeredAll ms

end

/-- The shapes of the parameters and the tree that holds them. -/
structure Model (Var : Type) where
  shape : Var → List ℕ
  requiresGrad : Var → Bool
  root : ModuleTree Var
  registers : ∀ v, v ∈ root.registered

abbrev Model.numel {Var : Type} (M : Model Var) (v : Var) : ℕ := (M.shape v).prod

section Units

variable {Var : Type} (M : Model Var) (minParams : ℕ)

def Model.gradNumel (ps : List Var) : ℕ := ((ps.filter M.requiresGrad).map M.numel).sum

mutual

/-- `collect_units`: the parameters left over, and the units carved out below. -/
def collectUnits : ModuleTree Var → List Var × List (List Var)
  | .node own subs =>
    let (remaining, units) := collectSubmodules subs
    (own ++ remaining, units)

/-- The loop of `collect_units` over the submodules. -/
def collectSubmodules : List (ModuleTree Var) → List Var × List (List Var)
  | [] => ([], [])
  | m :: ms =>
    let (childRemaining, units) := collectUnits m
    let (remaining, later) := collectSubmodules ms
    if childRemaining ≠ [] ∧ minParams ≤ M.gradNumel childRemaining then
      (remaining, units ++ childRemaining :: later)
    else (childRemaining ++ remaining, units ++ later)

end

/-- `apply_auto_wrap`: what is left over at the root makes the last unit. -/
def applyAutoWrap : List (List Var) :=
  let (remaining, units) := collectUnits M minParams M.root
  if remaining ≠ [] then units ++ [remaining] else units

end Units

/-- A module wrapped for training. Its units are lists of parameters, and `namedParameters` is what
`named_parameters` of the module of each unit lists; the containers override it. -/
structure FullyShardedDataParallel (Var : Type) where
  model : Model Var
  config : FSDPConfig
  namedParameters : ℕ → List (String × Var)

/-- `local_shard_`, `cpu_shard_` and `flat_param_` hold nothing when freed. -/
structure UnitState (α : Type) where
  flatParam : Option (Flat α)
  localShard : Option (Flat α)
  cpuShard : Option (Flat α)
  paramsFull : Bool
  offloaded : Bool

/-- What a rank holds: the parameters and the optimizer's states, the version counter of every
parameter, the parameters that the recorded operators have saved with the version they had, the
gradients, and the state of every unit. -/
structure Rank {Var : Type} (numel : Var → ℕ) (α σ : Type) where
  learner : Learner numel α σ
  version : Var → ℕ
  saved : List (Var × ℕ)
  grads : Grads numel α
  units : ℕ → UnitState α

structure ShardRange where
  shardNumel : ℕ
  shardOffset : ℕ
  validNumel : ℕ

def computeShardRange (totalNumel worldSize rank : ℕ) : ShardRange :=
  let shardNumel := shardLength totalNumel worldSize
  let shardOffset := rank * shardNumel
  { shardNumel, shardOffset
    validNumel :=
      if shardOffset < totalNumel then min (totalNumel - shardOffset) shardNumel else 0 }

def toFlat {α : Type} [Zero α] {n : ℕ} (t : Fin n → α) : Flat α :=
  ⟨n, fun i => if h : i < n then t ⟨i, h⟩ else 0⟩

namespace UnitState

variable {α : Type} (totalNumel : ℕ)

def offloadToCpu (s : UnitState α) : UnitState α :=
  if s.offloaded ∨ totalNumel = 0 then s
  else { s with cpuShard := s.localShard, localShard := none, offloaded := true }

def reloadFromCpu (s : UnitState α) : UnitState α :=
  if ¬ s.offloaded ∨ totalNumel = 0 then s
  else { s with localShard := s.cpuShard, cpuShard := none, offloaded := false }

/-- `free_full_params`. -/
def freeFullParams (config : FSDPConfig) (s : UnitState α) : UnitState α :=
  if ¬ s.paramsFull ∨ config.strategy ≠ .fullShard then s
  else
    let freed := { s with flatParam := none, paramsFull := false }
    if config.cpuOffload then freed.offloadToCpu totalNumel else freed

/-- The test at the start of `all_gather_params`. -/
def needsGather (config : FSDPConfig) (s : UnitState α) : Bool :=
  totalNumel ≠ 0 && !(s.paramsFull && config.strategy ≠ .shardGradOp)

end UnitState

def Rank.setUnit {Var α σ : Type} {numel : Var → ℕ} (rank : Rank numel α σ) (i : ℕ)
    (s : UnitState α) : Rank numel α σ :=
  { rank with units := Function.update rank.units i s }

namespace FullyShardedDataParallel

variable {Var α σ : Type} (D : FullyShardedDataParallel Var)

abbrev numel (v : Var) : ℕ := D.model.numel v

def units : List (List Var) := applyAutoWrap D.model D.config.autoWrapMinParams

/-- The parameters of a unit. -/
def params (i : ℕ) : List Var := D.units.getD i []

def totalNumel (i : ℕ) : ℕ := total D.numel (D.params i)

def shardNumel (W i : ℕ) : ℕ := shardLength (D.totalNumel i) W

variable [DecidableEq Var]

section Calls

variable [Zero α] {W : ℕ}

/-- The flat buffer that `flatten_params` and `reshard_from_params` build. -/
def flatten (values : Tensors D.numel α) (i : ℕ) : Flat α :=
  write D.numel (fun v => some (toFlat (values v))) (D.params i) (zeros (D.totalNumel i))

/-- The shard of a rank, cut out of the flat buffer and padded with zeros. -/
def shardOf (values : Tensors D.numel α) (r : Fin W) (i : ℕ) : Flat α :=
  let range := computeShardRange (D.totalNumel i) W r
  if 0 < range.validNumel then
    (zeros range.shardNumel).sliceScatter
      ((D.flatten values i).slice range.shardOffset (range.shardOffset + range.validNumel))
      0 range.validNumel
  else zeros range.shardNumel

/-- `flatten_params` and `shard_params` of the constructor. -/
def construct (values : Tensors D.numel α) (r : Fin W) (i : ℕ) : UnitState α :=
  if D.totalNumel i = 0 then ⟨none, none, none, false, false⟩
  else
    let full := D.config.strategy = .fullShard
    let s : UnitState α :=
      { flatParam := if full then none else some (D.flatten values i)
        localShard := some (D.shardOf values r i)
        cpuShard := none, paramsFull := !full, offloaded := false }
    if D.config.cpuOffload then s.offloadToCpu (D.totalNumel i) else s

/-- `reshard_from_params`. -/
def reshardFromParams (r : Fin W) (i : ℕ) (rank : Rank D.numel α σ) : Rank D.numel α σ :=
  if D.totalNumel i = 0 then rank
  else rank.setUnit i
    { rank.units i with localShard := some (D.shardOf rank.learner.values r i) }

/-- What `all_gather_params` does before the collective. -/
def prepareGather (r : Fin W) (i : ℕ) (rank : Rank D.numel α σ) : Rank D.numel α σ :=
  let reloaded := rank.setUnit i ((rank.units i).reloadFromCpu (D.totalNumel i))
  if D.config.strategy = .fullShard ∨ D.config.strategy = .shardGradOp then
    D.reshardFromParams r i reloaded
  else reloaded

/-- `unflatten_params`: the values are written in place, and both writes of `zero_` and `add_`
count in the version. -/
def unflattenParams (i : ℕ) (flat : Flat α) (rank : Rank D.numel α σ) : Rank D.numel α σ :=
  (cuts D.numel 0 (D.params i)).foldl (fun rank c =>
    { rank with
      learner := { rank.learner with
        values := Function.update rank.learner.values c.1 fun j => flat.get (c.2 + j) }
      version := Function.update rank.version c.1 (rank.version c.1 + 2) }) rank

/-- What `all_gather_params` does with the shards of all ranks. -/
def receiveGather (i : ℕ) (gathered : Fin W → Flat α) (rank : Rank D.numel α σ) :
    Rank D.numel α σ :=
  let flat := concat (D.shardNumel W i) gathered
  D.unflattenParams i flat
    (rank.setUnit i { rank.units i with flatParam := some flat, paramsFull := true })

/-- The shard that a rank sends. -/
def sentShard (w : Fin W → Rank D.numel α σ) (i : ℕ) (q : Fin W) : Flat α :=
  ((D.prepareGather q i (w q)).units i).localShard.getD (zeros (D.shardNumel W i))

/-- `all_gather_params` on all ranks. -/
def allGatherParams (i : ℕ) (w : Fin W → Rank D.numel α σ) : Fin W → Rank D.numel α σ := fun r =>
  if ((w r).units i).needsGather (D.totalNumel i) D.config then
    D.receiveGather i (D.sentShard w i) (D.prepareGather r i (w r))
  else w r

def freeFullParams (i : ℕ) (w : Fin W → Rank D.numel α σ) : Fin W → Rank D.numel α σ := fun r =>
  (w r).setUnit i (((w r).units i).freeFullParams (D.totalNumel i) D.config)

def gatherAll (w : Fin W → Rank D.numel α σ) : Fin W → Rank D.numel α σ :=
  (List.range D.units.length).foldl (fun w i => D.allGatherParams i w) w

def freeAll (w : Fin W → Rank D.numel α σ) : Fin W → Rank D.numel α σ :=
  (List.range D.units.length).foldl (fun w i => D.freeFullParams i w) w

/-- `collect_grads`. -/
def collectGrads (W : ℕ) (i : ℕ) (grads : Grads D.numel α) : Flat α :=
  write D.numel (fun v => (grads v).map toFlat) (D.params i) (zeros (D.shardNumel W i * W))

/-- Where the piece of a parameter that starts at `off` and the shard of a rank overlap. -/
def overlapStart (r : Fin W) (i off : ℕ) : ℕ := max off (r * D.shardNumel W i)

def overlapEnd (r : Fin W) (i off : ℕ) (v : Var) : ℕ :=
  min (off + D.numel v) (r * D.shardNumel W i + D.shardNumel W i)

/-- The gradient of a parameter with the overlap taken from the shard, zero elsewhere. -/
def overlapGrad (r : Fin W) (i : ℕ) (flatGrad : Flat α) (off : ℕ) (v : Var) :
    Fin (D.numel v) → α :=
  let overlapNumel := D.overlapEnd r i off v - D.overlapStart r i off
  let bufOffset := D.overlapStart r i off - r * D.shardNumel W i
  let subOffset := D.overlapStart r i off - off
  let gradFlat := (zeros (D.numel v)).sliceScatter
    (flatGrad.slice bufOffset (bufOffset + overlapNumel)) subOffset (subOffset + overlapNumel)
  fun j => gradFlat.get j

/-- `scatter_grads_to_params`, with the mask that the ranks have agreed on. -/
def scatterGradsToParams (r : Fin W) (i : ℕ) (flatGrad : Flat α) (hasGrad : Var → Bool)
    (grads : Grads D.numel α) : Grads D.numel α :=
  (cuts D.numel 0 (D.params i)).foldl (fun grads c =>
    if D.overlapStart r i c.2 < D.overlapEnd r i c.2 c.1 ∧ hasGrad c.1 then
      Function.update grads c.1 (some (D.overlapGrad r i flatGrad c.2 c.1))
    else grads) grads

end Calls

variable [DivisionRing α] {W : ℕ}

/-- The reduced shard of a rank, averaged when there are several ranks. -/
def reducedShard (w : Fin W → Rank D.numel α σ) (i : ℕ) (r : Fin W) : Flat α :=
  let s := D.shardNumel W i
  let chunk (q : Fin W) := (D.collectGrads W i (w q).grads).slice (r * s) (r * s + s)
  ⟨s, fun e =>
    let sum := ∑ q, (chunk q).get e
    if 1 < W then sum / (W : α) else sum⟩

/-- `reduce_scatter_grads` on all ranks. -/
def reduceScatterGrads (i : ℕ) (w : Fin W → Rank D.numel α σ) : Fin W → Rank D.numel α σ :=
  if D.totalNumel i = 0 then w
  else
    let scattered : Fin W → Rank D.numel α σ := fun r =>
      { w r with
        grads := D.scatterGradsToParams r i (D.reducedShard w i r)
          (fun v => ∃ q, ((w q).grads v).isSome) (w r).grads }
    if D.config.strategy = .fullShard then D.freeFullParams i scattered else scattered

/-- What a forward of the module does that concerns a unit: its module is entered or left (where
the hooks run), or an operator saves a parameter for the backward. -/
inductive Event (Var : Type)
  | enter (i : ℕ)
  | leave (i : ℕ)
  | save (v : Var)

def runEvent (w : Fin W → Rank D.numel α σ) : Event Var → Fin W → Rank D.numel α σ
  | .enter i => D.allGatherParams i w
  | .leave i => if D.config.strategy = .fullShard then D.freeFullParams i w else w
  | .save v => fun r => { w r with saved := (v, (w r).version v) :: (w r).saved }

/-- `forward`. -/
def forward (trace : List (Event Var)) (w : Fin W → Rank D.numel α σ) :
    Fin W → Rank D.numel α σ :=
  let ran := trace.foldl D.runEvent (D.gatherAll w)
  if D.config.strategy = .fullShard then D.freeAll ran else ran

def addGrads {numel : Var → ℕ} (old new : Grads numel α) : Grads numel α := fun v =>
  match old v, new v with
  | some a, some b => some fun j => a j + b j
  | none, some b => some b
  | a, none => a

/-- No parameter has been written since an operator saved it. -/
def SavedCurrent (rank : Rank D.numel α σ) : Prop :=
  ∀ s ∈ rank.saved, rank.version s.1 = s.2

instance (rank : Rank D.numel α σ) : Decidable (D.SavedCurrent rank) :=
  List.decidableBAll _ _

/-- The backward of the engine: it throws on a saved tensor that was written, and adds the
gradients to those there are. -/
def backward (round : Round D.numel α (Fin W)) (w : Fin W → Rank D.numel α σ) :
    Option (Fin W → Rank D.numel α σ) :=
  if ∀ r, D.SavedCurrent (w r) then
    some fun r => { w r with
      grads := addGrads (w r).grads (round r (w r).learner.values), saved := [] }
  else none

def finalizeBackward (w : Fin W → Rank D.numel α σ) : Fin W → Rank D.numel α σ :=
  (List.range D.units.length).foldl (fun w i => D.reduceScatterGrads i w)
    (if D.config.strategy = .fullShard then D.gatherAll w else w)

def optimizerStep (opt : Optimizer α σ) (w : Fin W → Rank D.numel α σ) :
    Fin W → Rank D.numel α σ :=
  fun r => { w r with learner := opt.step (w r).grads (w r).learner }

def zeroGrad (w : Fin W → Rank D.numel α σ) : Fin W → Rank D.numel α σ :=
  fun r => { w r with grads := fun _ => none }

inductive Action (numel : Var → ℕ) (α : Type) (W : ℕ)
  | forward (trace : List (Event Var))
  | backward (round : Round numel α (Fin W))
  | finalizeBackward
  | optimizerStep
  | zeroGrad

def act (opt : Optimizer α σ) (w : Fin W → Rank D.numel α σ) :
    Action D.numel α W → Option (Fin W → Rank D.numel α σ)
  | .forward trace => some (D.forward trace w)
  | .backward round => D.backward round w
  | .finalizeBackward => some (D.finalizeBackward w)
  | .optimizerStep => some (D.optimizerStep opt w)
  | .zeroGrad => some (D.zeroGrad w)

/-- A new instance on every rank, with the parameters that its module has there. -/
def start (learners : Fin W → Learner D.numel α σ) : Fin W → Rank D.numel α σ := fun r =>
  { learner := learners r, version := fun _ => 0, saved := [], grads := fun _ => none
    units := fun i => D.construct (learners r).values r i }

/-- What the ranks do in one round of training. -/
structure Batch (numel : Var → ℕ) (α : Type) (W : ℕ) where
  trace : List (Event Var)
  round : Round numel α (Fin W)

def Batch.actions {numel : Var → ℕ} (b : Batch numel α W) : List (Action numel α W) :=
  [.forward b.trace, .backward b.round, .finalizeBackward, .optimizerStep, .zeroGrad]

end FullyShardedDataParallel

end Tenzor.Fsdp
