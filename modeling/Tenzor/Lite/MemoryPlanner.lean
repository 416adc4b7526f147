import Tenzor.Lite.Graph
import Tenzor.Lib.FirstFit
import Mathlib.Data.List.Sort

/-!
# The memory planner of the lite runtime

`computeMemoryPlan` places the intermediates of a graph, largest first, each at
the lowest offset where it overlaps no placed tensor that is live at the same
time. `validatePlan` is the check that the runtime makes when it loads a model.

## Implementation notes

Sizes and offsets are numbers below `2^64` and `u64` marks each place where the
code's arithmetic can wrap. The retry loop takes fuel; node indices do not pass
the range of `int`.
-/

namespace Tenzor.Lite

open Throwing

/-- Round up to a multiple of `align`. -/
def roundUp (n align : ℕ) : ℕ := u64 (n + align - 1) / align * align

/-- `checked_mul_overflow`: `none` where the product does not fit. -/
def checkedMul (a b : ℕ) : Option ℕ :=
  if a ≠ 0 ∧ b > uint64Max / a then none else some (a * b)

/-- The element count so far is `n`. -/
def bytesFrom (elemSize : ℕ) : List Int64 → ℕ → ℕ
  | [], n => (checkedMul n elemSize).getD uint64Max
  | d :: rest, n =>
    if d.toInt ≤ 0 then 0
    else match checkedMul n d.toInt.toNat with
      | none => uint64Max
      | some prod => bytesFrom elemSize rest prod

/-- Zero for a scalar or a dynamic shape, the largest word on overflow. -/
def bytesOf (tv : TensorValue) : ℕ :=
  if tv.shape = [] then 0 else bytesFrom (dtypeSize tv.dtype) tv.shape 1

def bytesAt (tvs : List TensorValue) (id : Int16) : ℕ :=
  match entryAt tvs id with
  | none => 0
  | some tv => bytesOf tv

structure LiveTensor where
  tensorId : Int16
  bytes : ℕ
  firstUse : ℕ
  lastUse : ℕ
  offset : ℕ
  deriving DecidableEq

/-- Neither an input or output of the graph nor a weight. -/
def Planned (graph : LiteGraph) (tvs : List TensorValue) (id : Int16) : Prop :=
  id ∉ graph.inputIds ∧ id ∉ graph.outputIds ∧
    (entryAt tvs id).elim true (·.source ≠ .weight)

instance (graph : LiteGraph) (tvs : List TensorValue) (id : Int16) :
    Decidable (Planned graph tvs id) := inferInstanceAs (Decidable (_ ∧ _ ∧ _))

/-- Node `i` mentions `id`. An id has at most one record. -/
def observe (graph : LiteGraph) (tvs : List TensorValue) (out : List LiveTensor)
    (id : Int16) (i : ℕ) : List LiveTensor :=
  if ¬ Planned graph tvs id then out
  else if out.any fun lt => lt.tensorId == id then
    out.map fun lt => if lt.tensorId = id then { lt with lastUse := i } else lt
  else out ++ [⟨id, bytesAt tvs id, i, i, 0⟩]

/-- Outputs come first, then inputs. -/
def observeNode (graph : LiteGraph) (tvs : List TensorValue) (out : List LiveTensor)
    (node : LiteNode × ℕ) : List LiveTensor :=
  (node.1.outputIds ++ node.1.inputIds).foldl (fun out id => observe graph tvs out id node.2) out

def computeLiveness (graph : LiteGraph) (tvs : List TensorValue) : List LiveTensor :=
  graph.nodes.zipIdx.foldl (observeNode graph tvs) []

structure Placed where
  offset : ℕ
  stop : ℕ
  firstUse : ℕ
  lastUse : ℕ

/-- `p` is live together with `lt` and overlaps it at `candidate`. -/
def LiveTensor.conflicts (lt : LiveTensor) (need candidate : ℕ) (p : Placed) : Bool :=
  let liveOverlaps := !(decide (lt.lastUse < p.firstUse) || decide (p.lastUse < lt.firstUse))
  let offsetOverlaps := !(decide (u64 (candidate + need) ≤ p.offset) || decide (p.stop ≤ candidate))
  liveOverlaps && offsetOverlaps

def findOffset (align : ℕ) (placed : List Placed) (lt : LiveTensor) (need : ℕ) : ℕ → ℕ → Option ℕ
  | 0, _ => none
  | fuel + 1, candidate =>
    match placed.find? (lt.conflicts need candidate) with
    | none => some candidate
    | some p => findOffset align placed lt need fuel (roundUp p.stop align)

/-- Place one tensor next to those placed so far. -/
def placeTensor (align fuel : ℕ) (state : List LiveTensor × List Placed) (lt : LiveTensor) :
    Option (List LiveTensor × List Placed) := do
  let need := roundUp lt.bytes align
  let candidate ← findOffset align state.2 lt need fuel 0
  pure (state.1 ++ [{ lt with offset := candidate }],
    state.2 ++ [⟨candidate, u64 (candidate + need), lt.firstUse, lt.lastUse⟩])

/-- By size, the largest first, then by id. -/
def LiveTensor.before (a b : LiveTensor) : Bool :=
  if a.bytes ≠ b.bytes then a.bytes > b.bytes else a.tensorId.toInt ≤ b.tensorId.toInt

/-- The tensors that need a slot in the order they are placed. -/
def plannedTensors (graph : LiteGraph) (tvs : List TensorValue) : List LiveTensor :=
  ((computeLiveness graph tvs).filter (·.bytes ≠ 0)).insertionSort fun a b => a.before b

def planAlignment (alignment : ℕ) : ℕ := if alignment = 0 then 64 else alignment

def emitPlan (align : ℕ) (live : List LiveTensor) (placed : List Placed) : MmplPlan :=
  let poolSize := placed.foldl (fun pool p => max pool p.stop) 0
  { poolSizes := if 0 < poolSize then [poolSize] else []
    alignment := align
    placements := (live.map fun lt => ⟨lt.tensorId, 0, lt.offset⟩).insertionSort
      fun a b => a.tensorId.toInt ≤ b.tensorId.toInt }

def computeMemoryPlan (fuel : ℕ) (graph : LiteGraph) (tvs : List TensorValue) (alignment : ℕ) :
    Option MmplPlan := do
  let align := planAlignment alignment
  let (live, placed) ← (plannedTensors graph tvs).foldlM (placeTensor align fuel) ([], [])
  pure (emitPlan align live placed)

def placementError (id : Int16) (what : String) : Exn :=
  .runtimeError ("LiteRuntime::load: MMPL placement for tensor_id " ++ toString id ++ what)

/-- The element count so far is `numel`; `err` words an error. -/
def checkedNumel (err : String → Exn) : List Int64 → ℕ → Except Exn ℕ
  | [], numel => .ok numel
  | dim :: rest, numel => do
      throwIf (dim.toInt < 0) (err " has a negative shape dimension")
      throwIf (dim.toInt.toNat ≠ 0 ∧ numel > uint64Max / dim.toInt.toNat)
        (err " shape element count overflows")
      checkedNumel err rest (numel * dim.toInt.toNat)

theorem numel_overflows {n d : ℕ} : (d ≠ 0 ∧ n > uint64Max / d) ↔ uint64Max < n * d := by
  rcases Nat.eq_zero_or_pos d with rfl | hd
  · simp
  · simp [hd.ne', Nat.div_lt_iff_lt_mul hd]

/-- The table is the one that `load` has indexed by tensor id. -/
def validatePlacement (tvs : List TensorValue) (plan : MmplPlan) (p : MmplPlacement) :
    Except Exn Unit :=
  match plan.poolSizes[p.poolIndex.toNat]? with
  | none => .error (placementError p.tensorId (" references pool_index " ++
      toString p.poolIndex ++ " but the plan declares only " ++
      toString plan.poolSizes.length ++ " pool(s)"))
  | some poolBytes =>
    match entryAt tvs p.tensorId with
    | none => .error (.runtimeError
        ("LiteRuntime::load: MMPL placement references unknown tensor_id " ++
          toString p.tensorId))
    | some tv => do
        let elemSize := dtypeSize tv.dtype
        throwIf (elemSize = 0) (placementError p.tensorId " has an unknown/unsupported dtype")
        let numel ← checkedNumel (placementError p.tensorId) tv.shape 1
        throwIf (numel > uint64Max / elemSize) (placementError p.tensorId " byte size overflows")
        let tensorBytes := numel * elemSize
        throwIf (p.offset > poolBytes ∨ tensorBytes > poolBytes - p.offset)
          (placementError p.tensorId (" (offset " ++ toString p.offset ++ " + " ++
            toString tensorBytes ++ " bytes) does not fit in pool of size " ++
            toString poolBytes))

def validatePlan (tvs : List TensorValue) (plan : MmplPlan) : Except Exn Unit :=
  plan.placements.forM (validatePlacement tvs plan)

end Tenzor.Lite
