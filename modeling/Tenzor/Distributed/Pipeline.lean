import Tenzor.Lib.SyncChannels

/-!
# Pipeline schedules

Each stage of a pipeline runs its own program: it receives the activations of the
stage before it, sends its own to the next stage, and passes gradients back. GPipe
runs all forward passes before the backward passes; 1F1B alternates them after a
warmup that is longer on earlier stages.

## Implementation notes

A program is the list of its sends and receives. The modules of the stages return,
and their inputs get gradients. `backward` without a gradient throws unless the
output has one element.
-/

namespace Tenzor.Pipeline

open SyncChannels

inductive Pass
  | forward (mb : ℕ)
  | backward (mb : ℕ)
  deriving DecidableEq, Repr

namespace GPipe

def passes (numMicrobatches : ℕ) : List Pass :=
  (List.range numMicrobatches).map .forward ++ (List.range numMicrobatches).reverse.map .backward

end GPipe

namespace OneFOneB

structure Progress where
  fwdMb : ℕ := 0
  backwardQueue : List ℕ := []
  passes : List Pass := []

variable (numMicrobatches : ℕ)

def warmupStep (st : Progress) : Progress :=
  if st.fwdMb < numMicrobatches then
    { fwdMb := st.fwdMb + 1
      backwardQueue := st.backwardQueue ++ [st.fwdMb]
      passes := st.passes ++ [.forward st.fwdMb] }
  else st

def steadyStep (st : Progress) : Progress :=
  if st.fwdMb < numMicrobatches then
    match st.backwardQueue ++ [st.fwdMb] with
    | [] => st
    | bwMb :: queue =>
      { fwdMb := st.fwdMb + 1
        backwardQueue := queue
        passes := st.passes ++ [.forward st.fwdMb, .backward bwMb] }
  else st

variable (numStages stage : ℕ)

def numWarmup : ℕ := numStages - 1 - stage

/-- A negative number of steady steps is none. -/
def numSteady : ℕ := numMicrobatches - numWarmup numStages stage

def warmup : Progress := (warmupStep numMicrobatches)^[numWarmup numStages stage] {}

def steady : Progress :=
  (steadyStep numMicrobatches)^[numSteady numMicrobatches numStages stage]
    (warmup numMicrobatches numStages stage)

/-- The queue is drained from its front. -/
def passes : List Pass :=
  (steady numMicrobatches numStages stage).passes ++
    (steady numMicrobatches numStages stage).backwardQueue.map .backward

end OneFOneB

inductive Schedule
  | gpipe
  | oneFOneB
  deriving DecidableEq, Repr

namespace Schedule

def passes (schedule : Schedule) (numMicrobatches numStages stage : ℕ) : List Pass :=
  match schedule with
  | .gpipe => GPipe.passes numMicrobatches
  | .oneFOneB => OneFOneB.passes numMicrobatches numStages stage

/-- Whether the last stage gives the gradient of its output to `backward`. -/
def seeded : Schedule → Bool
  | .gpipe => true
  | .oneFOneB => false

end Schedule

/-- An activation is preceded by a header with its shape and element type. -/
inductive Message
  | header (mb : ℕ)
  | activation (mb : ℕ)
  | gradient (mb : ℕ)
  deriving DecidableEq, Repr

abbrev Instr := Action ℕ Message

structure Config where
  numStages : ℕ
  numMicrobatches : ℕ
  batchSize : ℕ
  /-- The elements of an output of the last stage. -/
  outputNumel : ℕ → ℕ
  /-- The dimensions of the output of a stage. -/
  outputRank : ℕ → ℕ → ℕ
  numStages_pos : 0 < numStages
  numMicrobatches_pos : 0 < numMicrobatches

def isFirst (stage : ℕ) : Prop := stage = 0

def isLast (numStages stage : ℕ) : Prop := stage = numStages - 1

instance (stage : ℕ) : Decidable (isFirst stage) := inferInstanceAs (Decidable (stage = 0))

instance (numStages stage : ℕ) : Decidable (isLast numStages stage) :=
  inferInstanceAs (Decidable (stage = numStages - 1))

def metaMaxDims : ℕ := 14

/-- A header has no room for more dimensions. -/
def encodeActivationMeta (rank : ℕ) : List Instr := if metaMaxDims < rank then [.abort] else []

def sendActivation (dst mb : ℕ) : List Instr := [.send dst (.header mb), .send dst (.activation mb)]

def recvActivation (src mb : ℕ) : List Instr := [.recv src (.header mb), .recv src (.activation mb)]

namespace Config

variable (c : Config) (stage : ℕ)

/-- `split_microbatches` rejects a batch with fewer rows than micro-batches. -/
def splitMicrobatches : List Instr :=
  if isFirst stage ∧ c.batchSize < c.numMicrobatches then [.abort] else []

def forward (mb : ℕ) : List Instr :=
  (if isFirst stage then [] else recvActivation (stage - 1) mb) ++
    if isLast c.numStages stage then []
    else encodeActivationMeta (c.outputRank stage mb) ++ sendActivation (stage + 1) mb

def backward (seeded : Bool) (mb : ℕ) : List Instr :=
  (if isLast c.numStages stage then if seeded ∨ c.outputNumel mb = 1 then [] else [.abort]
    else [.recv (stage + 1) (.gradient mb)]) ++
    if isFirst stage then [] else [.send (stage - 1) (.gradient mb)]

def pass (seeded : Bool) : Pass → List Instr
  | .forward mb => c.forward stage mb
  | .backward mb => c.backward stage seeded mb

end Config

/-- All stages run the same schedule. -/
def programs (schedule : Schedule) (c : Config) : Programs ℕ Message := fun stage =>
  if stage < c.numStages then
    c.splitMicrobatches stage ++
      (schedule.passes c.numMicrobatches c.numStages stage).flatMap (c.pass stage schedule.seeded)
  else []

end Tenzor.Pipeline
