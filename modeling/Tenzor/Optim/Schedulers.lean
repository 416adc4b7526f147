import Mathlib.Algebra.Order.Field.Basic
import Mathlib.Data.List.FinRange
import Mathlib.Data.List.Sort
import Tenzor.Core.DType
import Tenzor.Lib.Dict
import Tenzor.Lib.Throwing

/-!
# Learning-rate schedulers

A scheduler is given by its virtual functions. They work on the scheduler's own fields and on the
learning rate of the optimizer, which all schedulers of a tree share. A composite calls the
functions of its children and saves what they save under a prefix.

## Implementation notes

The arithmetic is exact, and counters do not overflow. A pair consists of a scheduler's fields and
the optimizer's learning rate. A `SequentialLR` has one milestone less than schedulers by its
type. There are no null children and no null functions, and the arguments that constructors refuse
are not excluded.
-/

namespace Tenzor.Optim

open Throwing

/-- A tensor of one element, or the characters of a name. -/
inductive SavedValue (K : Type)
  | int64 (v : ℤ)
  | float64 (v : K)
  | name (v : String)

abbrev SavedState (K : Type) := Dict (List Char) (SavedValue K)

/-- `data<T>()` on a tensor of another type. -/
def dataTypeMismatch : Exn :=
  .runtimeError "Type mismatch: requested type does not match tensor dtype"

def readScalarI64 {K : Type} : SavedValue K → Except Exn ℤ
  | .int64 v => .ok v
  | _ => .error dataTypeMismatch

def readScalarF64 {K : Type} : SavedValue K → Except Exn K
  | .float64 v => .ok v
  | _ => .error dataTypeMismatch

def readNameTensor {K : Type} : SavedValue K → Except Exn String
  | .name v => .ok v
  | _ => .error dataTypeMismatch

def schedulerTypeKey : List Char := "scheduler_type".toList
def lastLrKey : List Char := "last_lr".toList
def epochKey : List Char := "epoch".toList
def baseLrKey : List Char := "base_lr".toList
def endLrKey : List Char := "end_lr".toList
def stepCountKey : List Char := "step_count".toList
def lambdaNameKey : List Char := "lambda_name".toList
def chainedBaseLrKey : List Char := "chained_base_lr".toList

/-- A field that is saved, with the assignment that restores it. -/
structure SavedField (S K : Type) where
  key : List Char
  value : S → SavedValue K
  restore : SavedValue K → S → Except Exn S

variable {K S : Type}

def int64Field (key : List Char) (get : S → ℕ) (set : ℕ → S → S) : SavedField S K where
  key := key
  value s := .int64 (get s)
  restore v s := (fun n => set n.toNat s) <$> readScalarI64 v

def float64Field (key : List Char) (get : S → K) (set : K → S → S) : SavedField S K where
  key := key
  value s := .float64 (get s)
  restore v s := (fun x => set x s) <$> readScalarF64 v

/-- A field is assigned if the state has its key. -/
def loadField (state : SavedState K) (s : S) (field : SavedField S K) : Except Exn S :=
  match state.lookup field.key with
  | some v => field.restore v s
  | none => .ok s

def loadFields (fields : List (SavedField S K)) (state : SavedState K) (s : S) : Except Exn S :=
  fields.foldlM (loadField state) s

/-- The entries that a scheduler saves for itself. -/
def ownEntries (typeName : String) (fields : List (SavedField S K)) (s : S) :
    List (List Char × SavedValue K) :=
  (schedulerTypeKey, .name typeName) :: fields.map fun field => (field.key, field.value s)

def checkSchedulerType (state : SavedState K) (expected : String) : Except Exn Unit :=
  match state.lookup schedulerTypeKey with
  | none => .ok ()
  | some v => do
      let saved ← readNameTensor v
      throwIf (saved ≠ expected) (.runtimeError s!"LRScheduler::load_state_dict: scheduler type mismatch — saved '{saved}' but destination is '{expected}'. Pass force=true to override.")

def prefixedEntries (pre : List Char) (state : SavedState K) : List (List Char × SavedValue K) :=
  (Dict.pairs state).map (Prod.map (pre ++ ·) id)

structure LRScheduler (K : Type) where
  State : Type
  getLastLr : State → K
  /-- `optimizer()` is not null. -/
  hasOptimizer : Bool
  step : State × K → Except Exn (State × K)
  stateDict : State → SavedState K
  loadStateDict : SavedState K → State × K → Except Exn (State × K)

/-- Steps, one after another. -/
def LRScheduler.stepTimes (s : LRScheduler K) : ℕ → s.State × K → Except Exn (s.State × K)
  | 0, p => .ok p
  | n + 1, p => do
      let q ← s.step p
      s.stepTimes n q

/-- A scheduler without children: each step computes a learning rate and writes it. -/
structure SimpleScheduler (K : Type) where
  Fields : Type
  typeName : String
  /-- The identifier of the function, for the schedulers that have one. -/
  lambdaName : Option String
  lastLr : Fields → K
  /-- The fields of the saver, in the order of the loader. -/
  saved : List (SavedField Fields K)
  advance : Fields → Except Exn Fields

def checkLambdaName (typeName : String) (name : Option String) (state : SavedState K) :
    Except Exn Unit :=
  match name, state.lookup lambdaNameKey with
  | some name, some v => do
      let saved ← readNameTensor v
      throwIf (saved ≠ name) (.runtimeError s!"{typeName}::load_state_dict: lambda name mismatch — saved '{saved}' but destination is '{name}'. Pass force=true to override.")
  | _, _ => .ok ()

def SimpleScheduler.scheduler (c : SimpleScheduler K) : LRScheduler K where
  State := c.Fields
  getLastLr := c.lastLr
  hasOptimizer := true
  step p := do
    let s ← c.advance p.1
    return (s, c.lastLr s)
  stateDict s := Dict.ofEntries (ownEntries c.typeName c.saved s ++
    c.lambdaName.toList.map fun name => (lambdaNameKey, .name name))
  loadStateDict state p := do
    checkSchedulerType state c.typeName
    checkLambdaName c.typeName c.lambdaName state
    let s ← loadFields c.saved state p.1
    return (s, if lastLrKey ∈ state then c.lastLr s else p.2)

structure EpochFields (K : Type) where
  baseLr : K
  lastLr : K
  epoch : ℕ

def EpochFields.saved : List (SavedField (EpochFields K) K) :=
  [int64Field epochKey EpochFields.epoch fun n s => { s with epoch := n },
    float64Field baseLrKey EpochFields.baseLr fun x s => { s with baseLr := x },
    float64Field lastLrKey EpochFields.lastLr fun x s => { s with lastLr := x }]

/-- A scheduler that computes the learning rate from the one at its construction and the epoch. -/
def epochScheduler (typeName : String) (lambdaName : Option String)
    (lr : K → ℕ → Except Exn K) : SimpleScheduler K where
  Fields := EpochFields K
  typeName := typeName
  lambdaName := lambdaName
  lastLr := EpochFields.lastLr
  saved := EpochFields.saved
  advance s := do
    let epoch := s.epoch + 1
    let lastLr ← lr s.baseLr epoch
    return { s with epoch := epoch, lastLr := lastLr }

section Simple

variable [Field K] [LinearOrder K]

def StepLR (stepSize : ℤ) (gamma : K) : SimpleScheduler K :=
  epochScheduler "StepLR" none fun baseLr epoch => do
    throwIf (stepSize = 0) (.runtimeError "StepLR: step_size cannot be zero")
    return baseLr * gamma ^ (epoch : ℤ).tdiv stepSize

def ExponentialLR (gamma : K) : SimpleScheduler K :=
  epochScheduler "ExponentialLR" none fun baseLr epoch => .ok (baseLr * gamma ^ epoch)

def ConstantLR (factor : K) (totalIters : ℤ) : SimpleScheduler K :=
  epochScheduler "ConstantLR" none fun baseLr epoch =>
    .ok (if totalIters ≤ epoch then baseLr else baseLr * factor)

def LinearLR (startFactor endFactor : K) (totalIters : ℤ) : SimpleScheduler K :=
  epochScheduler "LinearLR" none fun baseLr epoch =>
    let factor :=
      if totalIters ≤ epoch then endFactor
      else startFactor + (endFactor - startFactor) * (epoch / totalIters)
    .ok (baseLr * factor)

def LambdaLR (lrLambda : ℕ → K) (name : String) : SimpleScheduler K :=
  epochScheduler "LambdaLR" (some name) fun baseLr epoch => .ok (baseLr * lrLambda epoch)

/-- The constructor sorts the milestones. -/
def MultiStepLR (milestones : List ℤ) (gamma : K) : SimpleScheduler K :=
  epochScheduler "MultiStepLR" none fun baseLr epoch =>
    let passed := (milestones.insertionSort (· ≤ ·)).takeWhile (· ≤ (epoch : ℤ))
    .ok (baseLr * gamma ^ passed.length)

structure MultiplicativeFields (K : Type) where
  lastLr : K
  epoch : ℕ

def MultiplicativeLR (lrLambda : ℕ → K) (name : String) : SimpleScheduler K where
  Fields := MultiplicativeFields K
  typeName := "MultiplicativeLR"
  lambdaName := some name
  lastLr := MultiplicativeFields.lastLr
  saved :=
    [int64Field epochKey MultiplicativeFields.epoch fun n s => { s with epoch := n },
      float64Field lastLrKey MultiplicativeFields.lastLr fun x s => { s with lastLr := x }]
  advance s :=
    let epoch := s.epoch + 1
    .ok { epoch := epoch, lastLr := s.lastLr * lrLambda epoch }

structure PolynomialFields (K : Type) where
  baseLr : K
  endLr : K
  lastLr : K
  epoch : ℕ

/-- `power` raises the progress to the exponent of the scheduler. -/
def PolynomialLR (totalIters : ℤ) (power : K → K) : SimpleScheduler K where
  Fields := PolynomialFields K
  typeName := "PolynomialLR"
  lambdaName := none
  lastLr := PolynomialFields.lastLr
  saved :=
    [int64Field epochKey PolynomialFields.epoch fun n s => { s with epoch := n },
      float64Field baseLrKey PolynomialFields.baseLr fun x s => { s with baseLr := x },
      float64Field endLrKey PolynomialFields.endLr fun x s => { s with endLr := x },
      float64Field lastLrKey PolynomialFields.lastLr fun x s => { s with lastLr := x }]
  advance s :=
    let epoch := s.epoch + 1
    let lastLr :=
      if totalIters ≤ epoch then s.endLr
      else (s.baseLr - s.endLr) * power (1 - epoch / totalIters) + s.endLr
    .ok { s with epoch := epoch, lastLr := lastLr }

end Simple

section Children

variable {n : ℕ} (children : Fin n → LRScheduler K)

/-- The fields of every child. -/
abbrev ChildStates : Type := ∀ i, (children i).State

variable {children}

def stepChild (p : ChildStates children × K) (i : Fin n) :
    Except Exn (ChildStates children × K) := do
  let (s, lr) ← (children i).step (p.1 i, p.2)
  return (Function.update p.1 i s, lr)

def stepAll (p : ChildStates children × K) : Except Exn (ChildStates children × K) :=
  (List.finRange n).foldlM stepChild p

def childPrefix (i : ℕ) : List Char := "child".toList ++ Nat.toDigits 10 i ++ "_.".toList

def childEntries (s : ChildStates children) : List (List Char × SavedValue K) :=
  (List.finRange n).flatMap fun i : Fin n => prefixedEntries (childPrefix i) ((children i).stateDict (s i))

def loadChild (state : SavedState K) (p : ChildStates children × K) (i : Fin n) :
    Except Exn (ChildStates children × K) := do
  let child := (Dict.under (childPrefix i) state).erase schedulerTypeKey
  if child.keys = [] then return p
  else
    let (s, lr) ← (children i).loadStateDict child (p.1 i, p.2)
    return (Function.update p.1 i s, lr)

end Children

section Composite

variable [Field K] [LinearOrder K]

structure WarmupFields (K : Type) where
  stepCount : ℕ
  baseLr : K
  lastLr : K

def WarmupFields.saved : List (SavedField (WarmupFields K) K) :=
  [int64Field stepCountKey WarmupFields.stepCount fun n s => { s with stepCount := n },
    float64Field baseLrKey WarmupFields.baseLr fun x s => { s with baseLr := x },
    float64Field lastLrKey WarmupFields.lastLr fun x s => { s with lastLr := x }]

def basePrefix : List Char := "base_.".toList

def LinearWarmupScheduler (base : LRScheduler K) (warmupSteps : ℕ) (warmupStartFactor : K) :
    LRScheduler K where
  State := WarmupFields K × base.State
  getLastLr s := s.1.lastLr
  hasOptimizer := true
  step p := do
    let stepCount := p.1.1.stepCount + 1
    if stepCount ≤ warmupSteps then
      let progress : K := stepCount / warmupSteps
      let lastLr := p.1.1.baseLr * (warmupStartFactor + (1 - warmupStartFactor) * progress)
      return (({ p.1.1 with stepCount := stepCount, lastLr := lastLr }, p.1.2), lastLr)
    else
      -- The base scheduler catches up with the steps of the warm-up.
      let q ← base.stepTimes (if stepCount = warmupSteps + 1 then warmupSteps else 0) (p.1.2, p.2)
      let q ← base.step q
      return (({ p.1.1 with stepCount := stepCount, lastLr := base.getLastLr q.1 }, q.1), q.2)
  stateDict s := Dict.ofEntries (ownEntries "LinearWarmupScheduler" WarmupFields.saved s.1 ++
    prefixedEntries basePrefix (base.stateDict s.2))
  loadStateDict state p := do
    checkSchedulerType state "LinearWarmupScheduler"
    let own ← loadFields WarmupFields.saved state p.1.1
    let lr := if lastLrKey ∈ state then own.lastLr else p.2
    let child := Dict.under basePrefix state
    if child.keys = [] then return ((own, p.1.2), lr)
    else
      let q ← base.loadStateDict child (p.1.2, lr)
      return ((own, q.1), q.2)

structure SequentialFields (K : Type) where
  epoch : ℕ
  lastLr : K

def SequentialFields.saved : List (SavedField (SequentialFields K) K) :=
  [int64Field epochKey SequentialFields.epoch fun n s => { s with epoch := n },
    float64Field lastLrKey SequentialFields.lastLr fun x s => { s with lastLr := x }]

/-- The scheduler after the last milestone that has been reached. -/
def activeScheduler {n : ℕ} (milestones : Fin n → ℤ) (epoch : ℕ) : Fin (n + 1) :=
  (List.finRange n).foldl (fun idx i => if milestones i ≤ epoch then i.succ else idx) 0

def SequentialLR {n : ℕ} (schedulers : Fin (n + 1) → LRScheduler K) (milestones : Fin n → ℤ) :
    LRScheduler K where
  State := SequentialFields K × ChildStates schedulers
  getLastLr s := s.1.lastLr
  hasOptimizer := true
  step p := do
    let epoch := p.1.1.epoch + 1
    let idx := activeScheduler milestones epoch
    let q ← stepChild (p.1.2, p.2) idx
    return (({ epoch := epoch, lastLr := (schedulers idx).getLastLr (q.1 idx) }, q.1), q.2)
  stateDict s := Dict.ofEntries (ownEntries "SequentialLR" SequentialFields.saved s.1 ++
    childEntries s.2)
  loadStateDict state p := do
    checkSchedulerType state "SequentialLR"
    let own ← loadFields SequentialFields.saved state p.1.1
    let lr := if lastLrKey ∈ state then own.lastLr else p.2
    let q ← (List.finRange (n + 1)).foldlM (loadChild state) (p.1.2, lr)
    return ((own, q.1), q.2)

structure ChainedFields (K : Type) where
  lastLr : K
  chainedBaseLr : K

/-- A field whose saved tensor is converted, if it has an element. -/
def convertedField (key : List Char) (get : S → K) (set : K → S → S) : SavedField S K where
  key := key
  value s := .float64 (get s)
  restore v s := .ok <|
    match v with
    | .float64 x => set x s
    | .int64 n => set n s
    | .name chars => (chars.toUTF8.toList.head?.map fun b => set b.toNat s).getD s

def ChainedFields.saved : List (SavedField (ChainedFields K) K) :=
  [convertedField lastLrKey ChainedFields.lastLr fun x s => { s with lastLr := x },
    convertedField chainedBaseLrKey ChainedFields.chainedBaseLr fun x s =>
      { s with chainedBaseLr := x }]

/-- One child of a chain steps from the base, and its factor is multiplied in. -/
def stepFactor {n : ℕ} {schedulers : Fin n → LRScheduler K} (baseLr : K)
    (acc : (ChildStates schedulers × K) × K) (i : Fin n) :
    Except Exn ((ChildStates schedulers × K) × K) := do
  let q ← stepChild (acc.1.1, baseLr) i
  return (q, acc.2 * (q.2 / baseLr))

def ChainedScheduler {n : ℕ} (schedulers : Fin (n + 1) → LRScheduler K) : LRScheduler K where
  State := ChainedFields K × ChildStates schedulers
  getLastLr s := s.1.lastLr
  hasOptimizer := false
  step p := do
    if ∀ i, (schedulers i).hasOptimizer = false then
      let q ← stepAll (p.1.2, p.2)
      let lastLr := (schedulers (Fin.last n)).getLastLr (q.1 (Fin.last n))
      return (({ p.1.1 with lastLr := lastLr }, q.1), q.2)
    else
      -- The base is captured at the first learning rate that is not zero.
      let baseLr := if p.1.1.chainedBaseLr < 0 then p.2 else p.1.1.chainedBaseLr
      if baseLr = 0 then
        let q ← stepAll (p.1.2, p.2)
        return (({ p.1.1 with lastLr := q.2 }, q.1), q.2)
      else
        let acc ← (List.finRange (n + 1)).foldlM (stepFactor baseLr) ((p.1.2, p.2), 1)
        let finalLr := baseLr * acc.2
        return (({ lastLr := finalLr, chainedBaseLr := baseLr }, acc.1.1), finalLr)
  stateDict s := Dict.ofEntries (ownEntries "ChainedScheduler" ChainedFields.saved s.1 ++
    childEntries s.2)
  loadStateDict state p := do
    checkSchedulerType state "ChainedScheduler"
    let own ← loadFields ChainedFields.saved state p.1.1
    let q ← (List.finRange (n + 1)).foldlM (loadChild state) (p.1.2, p.2)
    return ((own, q.1), q.2)

end Composite

section Trees

variable (K) in
inductive SchedulerTree
  | stepLR (stepSize : ℤ) (gamma : K)
  | exponentialLR (gamma : K)
  | constantLR (factor : K) (totalIters : ℤ)
  | linearLR (startFactor endFactor : K) (totalIters : ℤ)
  | multiplicativeLR (lrLambda : ℕ → K) (name : String)
  | lambdaLR (lrLambda : ℕ → K) (name : String)
  | multiStepLR (milestones : List ℤ) (gamma : K)
  | polynomialLR (totalIters : ℤ) (endLr : K) (power : K → K)
  | linearWarmup (base : SchedulerTree) (warmupSteps : ℕ) (warmupStartFactor : K)
  | sequentialLR {n : ℕ} (schedulers : Fin (n + 1) → SchedulerTree) (milestones : Fin n → ℤ)
  | chained {n : ℕ} (schedulers : Fin (n + 1) → SchedulerTree)

namespace SchedulerTree

variable [Field K] [LinearOrder K]

def scheduler : SchedulerTree K → LRScheduler K
  | stepLR stepSize gamma => (StepLR stepSize gamma).scheduler
  | exponentialLR gamma => (ExponentialLR gamma).scheduler
  | constantLR factor totalIters => (ConstantLR factor totalIters).scheduler
  | linearLR startFactor endFactor totalIters =>
    (LinearLR startFactor endFactor totalIters).scheduler
  | multiplicativeLR lrLambda name => (MultiplicativeLR lrLambda name).scheduler
  | lambdaLR lrLambda name => (LambdaLR lrLambda name).scheduler
  | multiStepLR milestones gamma => (MultiStepLR milestones gamma).scheduler
  | polynomialLR totalIters _ power => (PolynomialLR totalIters power).scheduler
  | linearWarmup base warmupSteps warmupStartFactor =>
    LinearWarmupScheduler base.scheduler warmupSteps warmupStartFactor
  | sequentialLR schedulers milestones =>
    SequentialLR (fun i => (schedulers i).scheduler) milestones
  | chained schedulers => ChainedScheduler fun i => (schedulers i).scheduler

/-- Every scheduler of the tree is as its constructor leaves it, at whatever learning rate the
optimizer had then. -/
def Constructed : (t : SchedulerTree K) → t.scheduler.State → Prop
  | stepLR .., s => ∃ lr, s = (⟨lr, lr, 0⟩ : EpochFields K)
  | exponentialLR .., s => ∃ lr, s = (⟨lr, lr, 0⟩ : EpochFields K)
  | constantLR factor _, s => ∃ lr, s = (⟨lr, lr * factor, 0⟩ : EpochFields K)
  | linearLR startFactor .., s => ∃ lr, s = (⟨lr, lr * startFactor, 0⟩ : EpochFields K)
  | multiplicativeLR .., s => ∃ lr, s = (⟨lr, 0⟩ : MultiplicativeFields K)
  | lambdaLR lrLambda _, s => ∃ lr, s = (⟨lr, lr * lrLambda 0, 0⟩ : EpochFields K)
  | multiStepLR .., s => ∃ lr, s = (⟨lr, lr, 0⟩ : EpochFields K)
  | polynomialLR _ endLr _, s => ∃ lr, s = (⟨lr, endLr, lr, 0⟩ : PolynomialFields K)
  | linearWarmup base _ warmupStartFactor, s =>
    base.Constructed s.2 ∧ ∃ lr, s.1 = ⟨0, lr, lr * warmupStartFactor⟩
  | sequentialLR schedulers _, s => (∀ i, (schedulers i).Constructed (s.2 i)) ∧ ∃ lr, s.1 = ⟨0, lr⟩
  | chained schedulers, s => (∀ i, (schedulers i).Constructed (s.2 i)) ∧ s.1 = ⟨0, -1⟩

end SchedulerTree

end Trees

end Tenzor.Optim
