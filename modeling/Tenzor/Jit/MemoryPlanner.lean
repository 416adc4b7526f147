import Tenzor.Jit.Nesting
import Mathlib

/-!
# Planning the memory of a graph

`MemoryPlanner::plan` sorts the graph, finds the first and the last node that
needs each intermediate value, and packs the values into pool buffers: two
values share a buffer when their live ranges do not meet.

## Implementation notes

The device of a Value, and the ids that the nodes of a subgraph read, are
parameters of the planner. So is the order in which the hash map of the ranges
is walked: `std::sort` leaves ties in any order, and nothing may depend on it.
-/

namespace Tenzor.Jit

open Throwing

structure BufferAllocation where
  bufferId : Nat
  offset : UInt64
  size : UInt64

/-- From the node that produces the value to the last node that needs it. -/
structure LiveRange (δ : Type) where
  birth : Nat
  death : Nat
  valueId : String
  size : UInt64
  device : δ

abbrev Allocations := AList fun _ : String => BufferAllocation

structure MemoryPlan where
  poolSizes : List UInt64 := []
  valueAllocations : Allocations := ∅
  totalMemory : UInt64 := 0
  numValuesPlanned : Nat := 0
  numValuesReused : Nat := 0

structure MemoryPlanner (S δ : Type) where
  alignment : UInt64 := 64
  device : ValRef → δ
  bodyReads : S → List String
  hashOrder : List (LiveRange δ) → List (LiveRange δ)
  hashOrder_perm : ∀ l, (hashOrder l).Perm l

/-- `checked_mul_overflow`. -/
def checkedMul (a b : UInt64) : Option UInt64 :=
  if a.toNat * b.toNat < 2 ^ 64 then some (a * b) else none

/-- `0` stands for a size that is not known statically. -/
def checkedByteSize (shape : List Int) (elemSize : UInt64) : UInt64 :=
  let numel := shape.foldlM (fun numel dim =>
    if dim ≤ 0 then none else checkedMul numel (UInt64.ofNat dim.toNat)) (1 : UInt64)
  (numel.bind (checkedMul · elemSize)).getD 0

def computeValueSize (v : Value) : UInt64 :=
  if v.shape.isEmpty then UInt64.ofNat (dtypeSize v.dtype)
  else checkedByteSize v.shape (UInt64.ofNat (dtypeSize v.dtype))

namespace MemoryPlanner

variable {T S δ : Type} [DecidableEq δ] (p : MemoryPlanner S δ)

/-- `0` signals that rounding up would wrap around. -/
def alignUp (size : UInt64) : UInt64 :=
  if 18446744073709551615 - (p.alignment - 1) < size then 0
  else (size + p.alignment - 1) &&& ~~~(p.alignment - 1)

def isExcluded (g : Graph T S) (v : ValRef) : Bool :=
  g.inputs.any (g.idOf · = g.idOf v) || g.outputs.any (g.idOf · = g.idOf v) ||
    (g.producer v).any (g.opOf · = .constant)

/-- The first and the last node of each value that is tracked so far. -/
abbrev RangeMap := AList fun _ : String => Nat × Nat

def bear (g : Graph T S) (i : Nat) (m : RangeMap) (out : ValRef) : RangeMap :=
  if isExcluded g out then m else m.insert (g.idOf out) (i, i)

def extend (i : Nat) (m : RangeMap) (id : String) : RangeMap :=
  match m.lookup id with
  | none => m
  | some r => m.insert id (r.1, max r.2 i)

/-- What a node needs: its inputs, and what the nodes of its subgraphs read. -/
def readsOf (g : Graph T S) (n : NodeRef) : List String :=
  (g.inputsOf n).map g.idOf ++ (g.codeOf n).subgraphs.flatMap p.bodyReads

def scanNode (g : Graph T S) (m : RangeMap) (entry : NodeRef × Nat) : RangeMap :=
  (p.readsOf g entry.1).foldl (extend entry.2) ((g.outputsOf entry.1).foldl (bear g entry.2) m)

def rangeMap (g : Graph T S) : RangeMap :=
  g.nodes.zipIdx.foldl (p.scanNode g) ∅

def toLiveRange (g : Graph T S) (id : String) (r : Nat × Nat) : Option (LiveRange δ) :=
  (g.getValue id).bind fun v =>
    let size := computeValueSize (g.valAt v)
    if size = 0 then none
    else some { birth := r.1, death := r.2, valueId := id, size := size, device := p.device v }

def computeLiveRanges (g : Graph T S) : List (LiveRange δ) :=
  (p.rangeMap g).entries.filterMap fun e => p.toLiveRange g e.1 e.2

structure BufferSlot (δ : Type) where
  highWaterMark : UInt64
  intervals : List (Nat × Nat)
  device : δ

/-- The slot is on the device of the value, and none of its intervals meets the
live range; both ends of an interval belong to it. -/
def BufferSlot.admits (slot : BufferSlot δ) (lr : LiveRange δ) : Bool :=
  slot.device = lr.device &&
    slot.intervals.all fun iv => !(lr.birth ≤ iv.2 && iv.1 ≤ lr.death)

/-- The smallest slot that is large enough and the largest that is not. -/
structure Candidates where
  bestFit : Option (Nat × UInt64) := none
  bestGrow : Option (Nat × UInt64) := none

def Candidates.consider (lr : LiveRange δ) (alignedSize : UInt64) (c : Candidates)
    (entry : BufferSlot δ × Nat) : Candidates :=
  let hwm := entry.1.highWaterMark
  if !entry.1.admits lr then c
  else if alignedSize ≤ hwm then
    if c.bestFit.all (hwm < ·.2) then { c with bestFit := some (entry.2, hwm) } else c
  else if c.bestGrow.all (·.2 < hwm) then { c with bestGrow := some (entry.2, hwm) } else c

def chooseSlot (slots : List (BufferSlot δ)) (lr : LiveRange δ) (alignedSize : UInt64) :
    Option Nat :=
  let c := slots.zipIdx.foldl (Candidates.consider lr alignedSize) {}
  (c.bestFit.or c.bestGrow).map Prod.fst

def BufferSlot.occupy (lr : LiveRange δ) (alignedSize : UInt64) (slot : BufferSlot δ) :
    BufferSlot δ :=
  { slot with
    intervals := slot.intervals ++ [(lr.birth, lr.death)]
    highWaterMark := if slot.highWaterMark < alignedSize then alignedSize else slot.highWaterMark }

/-- The slots and the allocations of the loop of `greedy_assign`. -/
structure Packing (δ : Type) where
  slots : List (BufferSlot δ) := []
  allocations : Allocations := ∅

def place (st : Packing δ) (lr : LiveRange δ) : Packing δ :=
  let alignedSize := p.alignUp lr.size
  if alignedSize = 0 then st
  else match chooseSlot st.slots lr alignedSize with
    | some s =>
      { slots := st.slots.modify s (BufferSlot.occupy lr alignedSize)
        allocations := st.allocations.insert lr.valueId ⟨s, 0, lr.size⟩ }
    | none =>
      { slots := st.slots ++ [⟨alignedSize, [(lr.birth, lr.death)], lr.device⟩]
        allocations := st.allocations.insert lr.valueId ⟨st.slots.length, 0, lr.size⟩ }

/-- Larger values first, ties by the earlier birth. -/
def before (a b : LiveRange δ) : Prop :=
  if a.size ≠ b.size then b.size ≤ a.size else a.birth ≤ b.birth

instance : DecidableRel (before (δ := δ)) := fun a b => by
  unfold before
  infer_instance

def greedyAssign (ranges : List (LiveRange δ)) : List UInt64 × Allocations :=
  let packing := ((p.hashOrder ranges).insertionSort before).foldl p.place {}
  (packing.slots.map BufferSlot.highWaterMark, packing.allocations)

/-- Every occupant of a buffer but the first reuses it. -/
def countReused (allocations : Allocations) : Nat :=
  let buffers := allocations.entries.map fun e => e.2.bufferId
  (buffers.dedup.map fun b => buffers.count b - 1).sum

def plan (g : Graph T S) : Except Exn (Graph T S × MemoryPlan) := do
  let sorted ← g.topologicalSort
  let ranges := p.computeLiveRanges sorted
  if ranges.isEmpty then return (sorted, {})
  let (poolSizes, allocations) := p.greedyAssign ranges
  return (sorted,
    { poolSizes := poolSizes
      valueAllocations := allocations
      totalMemory := poolSizes.sum
      numValuesPlanned := ranges.length
      numValuesReused := countReused allocations })

end MemoryPlanner

end Tenzor.Jit
