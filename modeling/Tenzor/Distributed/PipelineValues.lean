import Tenzor.Distributed.PipelinePasses
import Tenzor.Lib.Balanced
import Tenzor.Core.DType
import Tenzor.Lib.Throwing
import Mathlib.Data.List.GetD

/-!
# What the pipeline schedules compute

The stages run their passes on the messages they receive. A run of the pipeline
gives every stage what its neighbours have sent; its outputs and gradients are
compared with those of the composed modules on the whole batch.

## Implementation notes

A tensor is the list of its rows. Modules act row by row, so a module is given by
its value and its two gradients at a row. Gradients are added exactly.
-/

namespace Tenzor.Pipeline

open List

/-- The value at a row, and the gradients of the input and of the parameters for a gradient of
the value. -/
structure RowModule (Row Grad Param : Type) where
  forward : Row → Row
  gradInput : Row → Grad → Grad
  gradParams : Row → Grad → Param

namespace RowModule

variable {Row Grad Param : Type} (f : RowModule Row Grad Param) {a b : List Row} {g h : List Grad}

def run (rows : List Row) : List Row := rows.map f.forward

def inputGrads (rows : List Row) (grads : List Grad) : List Grad :=
  List.zipWith f.gradInput rows grads

def paramGrads [AddCommMonoid Param] (rows : List Row) (grads : List Grad) : Param :=
  (List.zipWith f.gradParams rows grads).sum

theorem run_append (a b : List Row) : f.run (a ++ b) = f.run a ++ f.run b :=
  map_append

theorem inputGrads_append (hlen : a.length = g.length) :
    f.inputGrads (a ++ b) (g ++ h) = f.inputGrads a g ++ f.inputGrads b h :=
  zipWith_append hlen

theorem paramGrads_append [AddCommMonoid Param] (hlen : a.length = g.length) :
    f.paramGrads (a ++ b) (g ++ h) = f.paramGrads a g + f.paramGrads b h := by
  rw [paramGrads, zipWith_append hlen, sum_append]
  rfl

end RowModule

/-- `split_with_sizes` along the first dimension. -/
def splitWithSizes {α : Type} : List ℕ → List α → List (List α)
  | [], _ => []
  | n :: ns, l => l.take n :: splitWithSizes ns (l.drop n)

theorem flatten_splitWithSizes {α : Type} {sizes : List ℕ} {l : List α} (h : sizes.sum = l.length) :
    (splitWithSizes sizes l).flatten = l := by
  induction sizes generalizing l with
  | nil => exact (length_eq_zero_iff.mp h.symm).symm
  | cons n ns ih =>
    rw [sum_cons] at h
    rw [splitWithSizes, flatten_cons, ih (by rw [length_drop]; omega),
      take_append_drop]

theorem length_splitWithSizes {α : Type} (sizes : List ℕ) (l : List α) :
    (splitWithSizes sizes l).length = sizes.length := by
  induction sizes generalizing l with
  | nil => rfl
  | cons n ns ih => rw [splitWithSizes, length_cons, ih, length_cons]

/-- A pipeline, a batch that can be split, and the gradients accumulated so far. -/
structure Training (Row Grad Param : Type) where
  numStages : ℕ
  numMicrobatches : ℕ
  batch : List Row
  module : ℕ → RowModule Row Grad Param
  numel : Row → ℕ
  /-- The dimensions of an activation. -/
  rank : List Row → ℕ
  ones : Row → Grad
  before : ℕ → Param
  numStages_pos : 0 < numStages
  numMicrobatches_pos : 0 < numMicrobatches
  rows_le : numMicrobatches ≤ batch.length

structure StageState (Row Grad Param : Type) where
  incoming : List (List Row)
  gradients : List (List Grad)
  stashedInputs : ℕ → Option (List Row) := fun _ => none
  microOutputs : ℕ → Option (List Row) := fun _ => none
  sentActivations : List (List Row) := []
  sentGradients : List (List Grad) := []
  paramGrad : Param

def disconnected : Exn := .runtimeError "TCPConnection: peer disconnected"

def uninitialized : Exn := .runtimeError "Cannot call backward on uninitialized Variable"

def notScalar (numel : ℕ) : Exn :=
  .autogradException ("grad can be implicitly created only for scalar outputs (tensor has " ++
    toString numel ++ " elements)")

def tooManyDims (rank : ℕ) : Exn :=
  .runtimeError ("pipeline_parallel: activation rank " ++ toString rank ++
    " exceeds metadata header capacity (" ++ toString metaMaxDims ++ ")")

/-- The next message of a neighbour. -/
def recv {α : Type} : List α → Except Exn (α × List α)
  | [] => .error disconnected
  | x :: rest => .ok (x, rest)

namespace Training

variable {Row Grad Param : Type} (t : Training Row Grad Param)

def microInputs : List (List Row) :=
  let base := t.batch.length / t.numMicrobatches
  let remainder := t.batch.length % t.numMicrobatches
  splitWithSizes ((List.range t.numMicrobatches).map fun i => base + if i < remainder then 1 else 0)
    t.batch

theorem flatten_microInputs : t.microInputs.flatten = t.batch :=
  flatten_splitWithSizes (Balanced.sum_count _ t.numMicrobatches_pos)

theorem length_microInputs : t.microInputs.length = t.numMicrobatches := by
  rw [microInputs, length_splitWithSizes, length_map, length_range]

theorem microInputs_eq : t.microInputs =
    (List.range t.numMicrobatches).map fun mb => t.microInputs.getD mb [] := by
  apply ext_getElem
  · rw [length_map, length_range, length_microInputs]
  · intro i hi _
    rw [getElem_map, getElem_range, getD_eq_getElem _ _ hi]

def activationsOf (rows : List Row) : ℕ → List Row
  | 0 => rows
  | s + 1 => (t.module s).run (activationsOf rows s)

/-- The gradient `k` stages before the output, for a gradient of ones at the output. -/
def gradientsOf (rows : List Row) : ℕ → List Grad
  | 0 => (t.activationsOf rows t.numStages).map t.ones
  | k + 1 => (t.module (t.numStages - 1 - k)).inputGrads
      (t.activationsOf rows (t.numStages - 1 - k)) (gradientsOf rows k)

/-- The input of stage `s` for a micro-batch. -/
def activation (s mb : ℕ) : List Row := t.activationsOf (t.microInputs.getD mb []) s

/-- The gradient of the output of stage `s` for a micro-batch. -/
def gradient (s mb : ℕ) : List Grad :=
  t.gradientsOf (t.microInputs.getD mb []) (t.numStages - 1 - s)

theorem gradient_last (mb : ℕ) :
    t.gradient (t.numStages - 1) mb = (t.activation t.numStages mb).map t.ones := by
  rw [gradient, Nat.sub_self]
  rfl

/-- A stage sends back the gradient of the output of the stage before it. -/
theorem gradient_before {s : ℕ} (hs : s + 1 < t.numStages) (mb : ℕ) :
    t.gradient s mb =
      (t.module (s + 1)).inputGrads (t.activation (s + 1) mb) (t.gradient (s + 1) mb) := by
  have hdist : t.numStages - 1 - s = t.numStages - 1 - (s + 1) + 1 := by omega
  have hmodule : t.numStages - 1 - (t.numStages - 1 - (s + 1)) = s + 1 := by omega
  rw [gradient, hdist, gradientsOf, hmodule]
  rfl

section

variable (a b : List Row)

theorem length_activationsOf (s : ℕ) : (t.activationsOf a s).length = a.length := by
  induction s with
  | zero => rfl
  | succ s ih => rw [activationsOf, RowModule.run, length_map, ih]

theorem length_gradientsOf (k : ℕ) : (t.gradientsOf a k).length = a.length := by
  induction k with
  | zero => rw [gradientsOf, length_map, length_activationsOf]
  | succ k ih =>
    rw [gradientsOf, RowModule.inputGrads, length_zipWith, ih, length_activationsOf,
      Nat.min_self]

theorem activationsOf_append (s : ℕ) :
    t.activationsOf (a ++ b) s = t.activationsOf a s ++ t.activationsOf b s := by
  induction s with
  | zero => rfl
  | succ s ih => rw [activationsOf, ih, RowModule.run_append]; rfl

theorem gradientsOf_append (k : ℕ) :
    t.gradientsOf (a ++ b) k = t.gradientsOf a k ++ t.gradientsOf b k := by
  induction k with
  | zero => rw [gradientsOf, activationsOf_append, map_append]; rfl
  | succ k ih =>
    rw [gradientsOf, ih, activationsOf_append, RowModule.inputGrads_append]
    · rfl
    · rw [length_activationsOf, length_gradientsOf]

theorem activationsOf_flatten (xs : List (List Row)) (s : ℕ) :
    t.activationsOf xs.flatten s = xs.flatMap fun x => t.activationsOf x s := by
  induction xs with
  | nil => exact length_eq_zero_iff.mp (t.length_activationsOf [] s)
  | cons x rest ih => rw [flatten_cons, activationsOf_append, ih, flatMap_cons]

variable [AddCommMonoid Param]

def paramGradOf (rows : List Row) (s : ℕ) : Param :=
  (t.module s).paramGrads (t.activationsOf rows s) (t.gradientsOf rows (t.numStages - 1 - s))

theorem paramGradOf_append (s : ℕ) :
    t.paramGradOf (a ++ b) s = t.paramGradOf a s + t.paramGradOf b s := by
  rw [paramGradOf, activationsOf_append, gradientsOf_append, RowModule.paramGrads_append]
  · rfl
  · rw [length_activationsOf, length_gradientsOf]

theorem paramGradOf_flatten (xs : List (List Row)) (s : ℕ) :
    t.paramGradOf xs.flatten s = (xs.map fun x => t.paramGradOf x s).sum := by
  induction xs with
  | nil =>
    have hnil : t.activationsOf [] s = [] :=
      length_eq_zero_iff.mp (t.length_activationsOf [] s)
    rw [flatten_nil, paramGradOf, hnil]
    rfl
  | cons x rest ih =>
    rw [flatten_cons, paramGradOf_append, ih, map_cons, sum_cons]

end

def batchNumel (rows : List Row) : ℕ := (rows.map t.numel).sum

/-- The input of a forward pass, and the activations that are still to be received. -/
def inputOf (stage mb : ℕ) (incoming : List (List Row)) :
    Except Exn (List Row × List (List Row)) :=
  if isFirst stage then .ok (t.microInputs.getD mb [], incoming) else recv incoming

/-- The gradient of an output, and the gradients that are still to be received. -/
def outputGrad (seeded : Bool) (stage : ℕ) (output : List Row) (gradients : List (List Grad)) :
    Except Exn (List Grad × List (List Grad)) :=
  if isLast t.numStages stage then
    if seeded ∨ t.batchNumel output = 1 then .ok (output.map t.ones, gradients)
    else .error (notScalar (t.batchNumel output))
  else recv gradients

variable [AddCommMonoid Param]

def forwardPass (stage mb : ℕ) (st : StageState Row Grad Param) :
    Except Exn (StageState Row Grad Param) := do
  let input ← t.inputOf stage mb st.incoming
  let output := (t.module stage).run input.1
  Throwing.throwIf (¬ isLast t.numStages stage ∧ metaMaxDims < t.rank output)
    (tooManyDims (t.rank output))
  pure
    { st with
      incoming := input.2
      stashedInputs := Function.update st.stashedInputs mb (some input.1)
      microOutputs := Function.update st.microOutputs mb (some output)
      sentActivations :=
        if isLast t.numStages stage then st.sentActivations else st.sentActivations ++ [output] }

def backwardPass (seeded : Bool) (stage mb : ℕ) (st : StageState Row Grad Param) :
    Except Exn (StageState Row Grad Param) :=
  match st.stashedInputs mb, st.microOutputs mb with
  | some input, some output => do
      let grad ← t.outputGrad seeded stage output st.gradients
      pure
        { st with
          gradients := grad.2
          paramGrad := st.paramGrad + (t.module stage).paramGrads input grad.1
          sentGradients :=
            if isFirst stage then st.sentGradients
            else st.sentGradients ++ [(t.module stage).inputGrads input grad.1] }
  | _, _ => .error uninitialized

def runPass (seeded : Bool) (stage : ℕ) (st : StageState Row Grad Param) :
    Pass → Except Exn (StageState Row Grad Param)
  | .forward mb => t.forwardPass stage mb st
  | .backward mb => t.backwardPass seeded stage mb st

def execute (schedule : Schedule) (stage : ℕ) (incoming : List (List Row))
    (gradients : List (List Grad)) : Except Exn (StageState Row Grad Param) :=
  (schedule.passes t.numMicrobatches t.numStages stage).foldlM (t.runPass schedule.seeded stage)
    { incoming := incoming, gradients := gradients, paramGrad := t.before stage }

/-- `concat_microbatches` of the outputs. -/
def output (st : StageState Row Grad Param) : List Row :=
  (List.range t.numMicrobatches).flatMap fun mb => (st.microOutputs mb).getD []

/-- All stages have returned, and each has received what its neighbours have sent. -/
structure Run (schedule : Schedule) where
  activations : ℕ → List (List Row)
  gradients : ℕ → List (List Grad)
  final : ℕ → StageState Row Grad Param
  returns : ∀ s < t.numStages, t.execute schedule s (activations s) (gradients s) = .ok (final s)
  sent_forward : ∀ s, s + 1 < t.numStages → activations (s + 1) = (final s).sentActivations
  sent_backward : ∀ s, s + 1 < t.numStages → gradients s = (final (s + 1)).sentGradients

/-- The stages return, with the output and the gradients of the composed modules on the whole
batch. -/
structure Correct (schedule : Schedule) : Prop where
  returns : Nonempty (t.Run schedule)
  output_eq : ∀ r : t.Run schedule,
    t.output (r.final (t.numStages - 1)) = t.activationsOf t.batch t.numStages
  paramGrad_eq : ∀ r : t.Run schedule, ∀ s < t.numStages,
    (r.final s).paramGrad = t.before s + t.paramGradOf t.batch s

end Training

end Tenzor.Pipeline
