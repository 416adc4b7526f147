import Tenzor.Lib.Collective
import Mathlib.Data.Rat.Floor

/-!
# Top-k compression of gradients

Of each gradient only the entries of the largest absolute values are reduced. What is left out is
kept as a residual, under the address of the storage object of the gradient, and is added to the
gradient that is found on this storage object later.

## Implementation notes

Elements and the ratio are exact. A training iteration brings fresh gradients; where the allocator
puts storage objects is an input. `contributed`, `localSum`, `storedUnder`, `owner` and `added` are
history: the compressed and the local gradients summed up, the address under which the residual of
a parameter was stored last, the parameter that stored the residual at an address, and who got
whose residual.
-/

namespace Tenzor.Ddp

open FlatBuffer Collective

/-- A gradient on a storage object, which is known by its address. -/
structure Gradient (α : Type) where
  storage : ℕ
  contiguous : Bool
  data : Flat α

/-- The residuals, by the addresses of storage objects. -/
abbrev Residuals (α : Type) := ℕ → Option (Flat α)

structure TopKCompressor where
  ratio : ℚ
  pos : 0 < ratio
  le_one : ratio ≤ 1

namespace TopKCompressor

section Compress

variable {α : Type} [Field α] [LinearOrder α]

/-- A residual of the same size is added; one of another size is dropped. -/
def feedback (residuals : Residuals α) (key : ℕ) (flat : Flat α) : Residuals α × Flat α :=
  match residuals key with
  | some residual =>
    if residual.numel = flat.numel then
      (residuals, ⟨flat.numel, fun j => flat.get j + residual.get j⟩)
    else (Function.update residuals key none, flat)
  | none => (residuals, flat)

/-- The positions in the order of descending absolute values. -/
def sortIndices (flat : Flat α) : List ℕ :=
  (List.range flat.numel).mergeSort fun i j => |flat.get j| ≤ |flat.get i|

def argsort (l : List ℕ) : List ℕ :=
  (List.range l.length).mergeSort fun i j => l.getD i 0 ≤ l.getD j 0

def indicator (k numel : ℕ) : List α :=
  if k < numel then List.replicate k 1 ++ List.replicate (numel - k) 0 else List.replicate numel 1

/-- One at the positions of the `k` largest absolute values. -/
def mask (flat : Flat α) (k : ℕ) (j : ℕ) : α :=
  (indicator k flat.numel).getD ((argsort (sortIndices flat)).getD j 0) 0

def rekeyResidual (residuals : Residuals α) (oldKey newKey : ℕ) : Residuals α :=
  if oldKey = newKey then residuals
  else match residuals oldKey with
    | none => residuals
    | some residual => Function.update (Function.update residuals oldKey none) newKey (some residual)

/-- `compress`: the residuals and the gradient afterwards, which is on the storage object at
`fresh` where it cannot be written in place. -/
def compress (c : TopKCompressor) (fresh : ℕ) (residuals : Residuals α) (gradient : Gradient α) :
    Residuals α × Gradient α :=
  let fed := feedback residuals gradient.storage gradient.data
  let flat := fed.2
  let k := max 1 ⌈(flat.numel : ℚ) * c.ratio⌉.toNat
  let compressed : Flat α := ⟨flat.numel, fun j => flat.get j * mask flat k j⟩
  let residual : Flat α := ⟨flat.numel, fun j => flat.get j - compressed.get j⟩
  let residuals := Function.update fed.1 gradient.storage (some residual)
  if gradient.contiguous then (residuals, { gradient with data := compressed })
  else (rekeyResidual residuals gradient.storage fresh, ⟨fresh, true, compressed⟩)

end Compress

/-- A backward pass on a rank: the gradients, and the addresses of the storage objects that a
gradient is moved to and that its average is put on. -/
structure Pass {Var : Type} (numel : Var → ℕ) (α : Type) where
  grads : Var → Option (Gradient α)
  sized : ∀ v g, grads v = some g → g.data.numel = numel v
  rebound : Var → ℕ
  averaged : Var → ℕ

/-- A training iteration on `W` ranks reduces the parameters in one order. -/
structure Iteration {Var : Type} (numel : Var → ℕ) (α : Type) (W : ℕ) where
  order : List Var
  nodup : order.Nodup
  passes : Fin W → Pass numel α

structure Rank (Var α : Type) where
  residuals : Residuals α
  grads : Var → Option (Gradient α)
  contributed : Var → ℕ → α
  localSum : Var → ℕ → α
  storedUnder : Var → Option ℕ
  owner : ℕ → Option Var
  added : List (Var × Option Var)

namespace Rank

variable {Var α : Type} [Field α]

def initial : Rank Var α where
  residuals _ := none
  grads _ := none
  contributed _ _ := 0
  localSum _ _ := 0
  storedUnder _ := none
  owner _ := none
  added := []

/-- The residual that is stored for a parameter at present. -/
def residual [DecidableEq Var] (rank : Rank Var α) (v : Var) : ℕ → α :=
  match rank.storedUnder v with
  | none => 0
  | some s => if rank.owner s = some v then (rank.residuals s).elim 0 Flat.get else 0

/-- Error feedback loses nothing, and brings no residual to another parameter. -/
structure Lossless [DecidableEq Var] (numel : Var → ℕ) (rank : Rank Var α) : Prop where
  conserved : ∀ v j, j < numel v →
    rank.contributed v j + rank.residual v j = rank.localSum v j
  own : ∀ x ∈ rank.added, x.2 = some x.1

end Rank

variable {Var α : Type} [DecidableEq Var] [Field α] [LinearOrder α] {numel : Var → ℕ} {W : ℕ}

/-- The rank after the reduction of a gradient `g` of `v` to `sum`. -/
def reduced (c : TopKCompressor) (W : ℕ) (pass : Pass numel α) (rank : Rank Var α) (v : Var)
    (g : Gradient α) (sum : Flat α) : Rank Var α :=
  let r := c.compress (pass.rebound v) rank.residuals g
  let grad : Gradient α :=
    if 1 < W then ⟨pass.averaged v, true, ⟨sum.numel, fun j => sum.get j / W⟩⟩
    else { r.2 with data := sum }
  { residuals := r.1
    grads := Function.update rank.grads v (some grad)
    contributed := Function.update rank.contributed v fun j =>
      rank.contributed v j + r.2.data.get j
    localSum := Function.update rank.localSum v fun j => rank.localSum v j + g.data.get j
    storedUnder := Function.update rank.storedUnder v (some r.2.storage)
    owner := Function.update rank.owner r.2.storage (some v)
    added := match rank.residuals g.storage with
      | some residual =>
        if residual.numel = g.data.numel then (v, rank.owner g.storage) :: rank.added
        else rank.added
      | none => rank.added }

/-- One parameter on the compression path of `all_reduce_bucket`. -/
def reduceCompressed (c : TopKCompressor) (W : ℕ) (pass : Pass numel α) (rank : Rank Var α)
    (v : Var) : Prog α (Rank Var α) :=
  match rank.grads v with
  | none => .done rank
  | some g =>
    .allReduce (c.compress (pass.rebound v) rank.residuals g).2.data fun sum =>
      .done (reduced c W pass rank v g sum)

def Iteration.run (c : TopKCompressor) (it : Iteration numel α W) (r : Fin W)
    (rank : Rank Var α) : Prog α (Rank Var α) :=
  it.order.foldlM (reduceCompressed c W (it.passes r)) { rank with grads := (it.passes r).grads }

/-- The iterations complete on all ranks, one after the other. -/
inductive Trains (c : TopKCompressor) :
    (Fin W → Rank Var α) → List (Iteration numel α W) → (Fin W → Rank Var α) → Prop
  | nil (s : Fin W → Rank Var α) : Trains c s [] s
  | cons {s mid s' : Fin W → Rank Var α} {it : Iteration numel α W}
      {its : List (Iteration numel α W)} (first : Completes (fun r => it.run c r (s r)) mid)
      (rest : Trains c mid its s') : Trains c s (it :: its) s'

end TopKCompressor

end Tenzor.Ddp
