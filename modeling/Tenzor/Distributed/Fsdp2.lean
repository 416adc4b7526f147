import Tenzor.Lib.FlatBuffer
import Tenzor.Lib.ElementwiseTraining

/-!
# Training with sharded parameters, one tensor each

A parameter is kept as the shard of its distributed tensor, in a full slot and in a
shard slot, and the live tensor is pointed from one to the other. The optimizer
writes into the live one; the gather reads the shard of the distributed tensor.

## Implementation notes

A rank is given by the group it gathers with and its place in it; a mesh has a group
for each position along its other dimensions. The first dimension of a parameter is
cut, so a shard is a range of its elements. There is no mixed precision and no
activation checkpointing.
-/

namespace Tenzor.Fsdp2

open FlatBuffer ElementwiseTraining

/-- The tensor that a parameter is pointed to. -/
inductive Live
  | original
  | unsharded
  | sharded
  deriving DecidableEq, Repr

/-- One parameter of a rank: the tensor it was made with, the shard of its distributed tensor,
and the persistent destinations of `unshard_params` and `reshard_params`. -/
structure Slots (α : Type) where
  original : Flat α
  localTensor : Flat α
  unshardedDst : Option (Flat α)
  shardedDst : Option (Flat α)
  live : Live

namespace Slots

variable {α : Type} (s : Slots α)

def tensor : Flat α :=
  match s.live with
  | .original => s.original
  | .unsharded => s.unshardedDst.getD s.original
  | .sharded => s.shardedDst.getD s.original

/-- An in-place write to the live tensor. -/
def write (t : Flat α) : Slots α :=
  match s.live with
  | .original => { s with original := t }
  | .unsharded => { s with unshardedDst := some t }
  | .sharded => { s with shardedDst := some t }

/-- The full slot gets the gathered tensor, whether it is adopted or copied into the slot. -/
def unshard (full : Flat α) : Slots α := { s with unshardedDst := some full, live := .unsharded }

/-- The shard slot gets the shard of the distributed tensor. -/
def reshard : Slots α := { s with shardedDst := some s.localTensor, live := .sharded }

end Slots

/-- A module wrapped for training on a mesh of `groups` groups of `W` ranks. -/
structure FSDP2 (Var : Type) where
  shape : Var → List ℕ
  reshardAfterForward : Bool

namespace FSDP2

variable {Var α σ : Type} (D : FSDP2 Var)

abbrev numel (v : Var) : ℕ := (D.shape v).prod

/-- The first dimension of every parameter can be cut into `W` equal parts. -/
def Divisible (W : ℕ) : Prop := ∀ v, ∃ d rest, D.shape v = d :: rest ∧ W ∣ d

/-- The shape of a shard of the first dimension. -/
def shardShape (W : ℕ) (v : Var) : List ℕ := (D.shape v).modifyHead (· / W)

def shardNumel (W : ℕ) (v : Var) : ℕ := (D.shardShape W v).prod

structure Rank (α σ : Type) where
  slots : Var → Slots α
  paramsUnsharded : Bool
  used : Tensors D.numel α
  grads : Var → Option (Flat α)
  states : Var → ℕ → σ

variable {D} in
/-- The parameters as the module sees them. -/
def Rank.values (rank : D.Rank α σ) : Tensors D.numel α := fun v j => (rank.slots v).tensor.get j

variable {groups W : ℕ}

section Calls

variable [Zero α]

def toFlat {n : ℕ} (t : Fin n → α) : Flat α := ⟨n, fun i => if h : i < n then t ⟨i, h⟩ else 0⟩

/-- `shard_parameters` and a new optimizer. With one rank in the group the distributed tensor
wraps the parameter. -/
def start (values : Tensors D.numel α) (s₀ : σ) : Fin W → D.Rank α σ := fun b =>
  { slots := fun v =>
      let full := toFlat (values v)
      let s := D.shardNumel W v
      { original := full
        localTensor := if W ≤ 1 then full else full.slice (b * s) (b * s + s)
        unshardedDst := none, shardedDst := none, live := .original }
    paramsUnsharded := false
    used := values
    grads := fun _ => none
    states := fun _ _ => s₀ }

/-- The tensor that a group gathers from the shards of its ranks. -/
def fullTensor (group : Fin W → D.Rank α σ) (v : Var) : Flat α :=
  concat (D.shardNumel W v) fun b => ((group b).slots v).localTensor

/-- `unshard_params`. -/
def unshardParams (group : Fin W → D.Rank α σ) : Fin W → D.Rank α σ := fun b =>
  if (group b).paramsUnsharded ∨ W ≤ 1 then { group b with paramsUnsharded := true }
  else { group b with
    slots := fun v => ((group b).slots v).unshard (D.fullTensor group v)
    paramsUnsharded := true }

/-- `reshard_params`. -/
def reshardParams (group : Fin W → D.Rank α σ) : Fin W → D.Rank α σ := fun b =>
  if ¬ (group b).paramsUnsharded ∨ W ≤ 1 then group b
  else { group b with
    slots := fun v => ((group b).slots v).reshard
    paramsUnsharded := false }

/-- `forward`, which runs the module with the parameters of the moment. -/
def forward (group : Fin W → D.Rank α σ) : Fin W → D.Rank α σ :=
  let ran : Fin W → D.Rank α σ := fun b =>
    { D.unshardParams group b with used := (D.unshardParams group b).values }
  if D.reshardAfterForward ∧ 1 < W then D.reshardParams ran else ran

/-- The shape that the engine compares a gradient with. -/
def liveShape (W : ℕ) (s : Slots α) (v : Var) : List ℕ :=
  match s.live with
  | .sharded => D.shardShape W v
  | _ => D.shape v

def addGrad [Add α] (old new : Option (Flat α)) : Option (Flat α) :=
  match old, new with
  | some a, some b => some ⟨b.numel, fun i => a.get i + b.get i⟩
  | none, some b => some b
  | a, none => a

variable [Fintype Var]

/-- The backward of the engine: it throws on a gradient that has not the shape of the live
tensor. -/
def backward [Add α] (round : Round D.numel α (Fin W)) (group : Fin W → D.Rank α σ) :
    Option (Fin W → D.Rank α σ) :=
  if ∀ b v, (round b (group b).used v).isSome → D.liveShape W ((group b).slots v) v = D.shape v then
    some fun b => { group b with
      grads := fun v => addGrad ((group b).grads v) ((round b (group b).used v).map toFlat) }
  else none

end Calls

variable [DivisionRing α] [Fintype Var]

/-- `backward_hook` skips a parameter without a gradient or with an empty one. -/
def reduces (rank : D.Rank α σ) (v : Var) : Bool := (rank.grads v).any fun g => g.numel ≠ 0

/-- The gradient of a parameter averaged over the group. -/
def averaged (group : Fin W → D.Rank α σ) (v : Var) : Flat α :=
  ⟨D.numel v, fun i => (∑ b, ((group b).grads v).elim 0 (·.get i)) / (W : α)⟩

/-- `backward_hook`. Ranks of a group that reduce different parameters call the collectives in
different orders, which the contract of the process group excludes: that is no result here, whatever
a backend makes of it. -/
def backwardHook (group : Fin W → D.Rank α σ) : Option (Fin W → D.Rank α σ) :=
  if W ≤ 1 then some group
  else
    let full := D.unshardParams group
    if ∀ v b b', D.reduces (full b) v = D.reduces (full b') v then
      some (D.reshardParams fun b => { full b with
        grads := fun v =>
          let s := D.shardNumel W v
          if D.reduces (full b) v then some ((D.averaged full v).slice (b * s) (b * s + s))
          else (full b).grads v })
    else none

/-- The optimizer writes the live tensors in place. -/
def optimizerStep (opt : Optimizer α σ) (group : Fin W → D.Rank α σ) : Fin W → D.Rank α σ :=
  fun b =>
    let next (v : Var) (i : ℕ) : α × σ := opt.element (((group b).slots v).tensor.get i)
      (((group b).grads v).map (·.get i)) ((group b).states v i)
    { group b with
      slots := fun v => ((group b).slots v).write
        ⟨((group b).slots v).tensor.numel, fun i => (next v i).1⟩
      states := fun v i => (next v i).2 }

def zeroGrad (group : Fin W → D.Rank α σ) : Fin W → D.Rank α σ :=
  fun b => { group b with grads := fun _ => none }

/-- One round of training of a group. -/
def round (opt : Optimizer α σ) (group : Fin W → D.Rank α σ) (g : Round D.numel α (Fin W)) :
    Option (Fin W → D.Rank α σ) := do
  let computed ← D.backward g (D.forward group)
  let hooked ← D.backwardHook computed
  return D.zeroGrad (D.optimizerStep opt hooked)

end FSDP2

end Tenzor.Fsdp2
