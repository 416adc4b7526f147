import Tenzor.Lib.RankTwoUpdate
import Tenzor.Optim.Sgd

/-!
# The L-BFGS optimizer

The optimizer over exact arithmetic: the flat vectors of the parameters, the two-loop recursion, the
strong Wolfe search with its bracketing and its zoom, the backtracking search, and a step.

## Implementation notes

An entry of a flat vector is known by the parameter it belongs to and its place there. A quotient by
zero is zero. The entries of the three histories at one place are one `Secant`. What the closure
returns is the value of its `Variable`; the gradients it leaves are new tensors. The learning rate is
the one of the parameter group when there is one. Saved states are left out.
-/

namespace Tenzor.Optim

open RankTwoUpdate

inductive LBFGSLineSearch
  | armijo
  | strongWolfe
  deriving DecidableEq

namespace LBFGS

section Flat

variable {ι K : Type} [Fintype ι] [Field K] [LinearOrder K]

def flatMaxAbs (a : ι → K) : K := Finset.univ.fold max 0 fun i => |a i|

def flatL1 (a : ι → K) : K := ∑ i, |a i|

/-- The first loop, from the newest pair to the oldest: the vector it leaves and the coefficients. -/
def backwardLoop : List (Secant ι K) → (ι → K) → (ι → K) × List K
  | [], q => (q, [])
  | p :: history, q =>
    let (q, alphas) := backwardLoop history q
    let alpha := p.rho * (p.s ⬝ᵥ q)
    (q - alpha • p.y, alpha :: alphas)

/-- The second loop, from the oldest pair to the newest. -/
def forwardLoop : List (Secant ι K) → List K → (ι → K) → ι → K
  | p :: history, alpha :: alphas, r =>
    let beta := p.rho * (p.y ⬝ᵥ r)
    forwardLoop history alphas (r + (alpha - beta) • p.s)
  | _, _, r => r

/-- The factor of the first approximation. -/
def gamma (last : Secant ι K) : K :=
  if 1 / 10 ^ 30 < last.y ⬝ᵥ last.y then (last.s ⬝ᵥ last.y) / (last.y ⬝ᵥ last.y) else 1

def twoLoopRecursion (history : List (Secant ι K)) (grad : ι → K) : ι → K :=
  match history.getLast? with
  | none => (-1 : K) • grad
  | some last =>
    let (q, alphas) := backwardLoop history grad
    (-1 : K) • forwardLoop history alphas (gamma last • q)

/-- The square root is the one of the number system. -/
def cubicInterpolate (sqrt : K → K) (x1 f1 g1 x2 f2 g2 boundMin boundMax : K) : K :=
  let width := x2 - x1
  if |width| < 1 / 10 ^ 30 then x1
  else
    let d1 := g1 + g2 - 3 * (f1 - f2) / width
    let d2Sq := d1 * d1 - g1 * g2
    if 0 ≤ d2Sq then
      let d2 := sqrt d2Sq
      let xMin :=
        if x1 ≤ x2 then x2 - (x2 - x1) * ((g2 + d2 - d1) / (g2 - g1 + 2 * d2))
        else x1 - (x1 - x2) * ((g1 + d2 - d1) / (g1 - g2 + 2 * d2))
      min (max xMin boundMin) boundMax
    else 1 / 2 * (boundMin + boundMax)

end Flat

section Parameters

variable (numel : Variable → ℕ) (parameters : List (Option Variable))

/-- The parameters that are not null. -/
def present : List Variable := parameters.filterMap id

/-- The entries of a flat vector. -/
abbrev Flat : Type := (i : Fin (present parameters).length) × Fin (numel ((present parameters).get i))

variable {K : Type}

/-- What the parameters hold. -/
abbrev Values (numel : Variable → ℕ) (K : Type) : Type := (v : Variable) → Fin (numel v) → K

/-- What a closure evaluates: the loss at these parameters, and the gradients it leaves there. -/
structure Objective (numel : Variable → ℕ) (K : Type) where
  loss : Values numel K → K
  grad : Values numel K → (v : Variable) → Option (Fin (numel v) → K)

variable {numel}

def gatherFlatParams (values : Values numel K) : Flat numel parameters → K :=
  fun e => values ((present parameters).get e.1) e.2

variable [Field K]

/-- A missing gradient counts as zero. -/
def gatherFlatGrad (objective : Objective numel K) (values : Values numel K) :
    Flat numel parameters → K :=
  fun e => ((objective.grad values ((present parameters).get e.1)).getD 0) e.2

def applyFlatDelta (delta : Flat numel parameters → K) (values : Values numel K) :
    Values numel K :=
  (List.finRange (present parameters).length).foldl
    (fun values i => Function.update values ((present parameters).get i)
      (values ((present parameters).get i) + fun j => delta ⟨i, j⟩)) values

end Parameters

section Search

variable {ι K : Type}

/-- What one evaluation gives. -/
structure Probe (ι K : Type) where
  loss : K
  gtd : K
  grad : ι → K
  lossVar : K

/-- The parameters while a line is searched, and what has been spent. -/
structure Walk (numel : Variable → ℕ) (K : Type) where
  values : Values numel K
  currentAlpha : K
  funcEvals : ℤ

/-- A place on the line, with the value and the slope there. -/
structure Point (K : Type) where
  alpha : K
  phi : K
  gtd : K

/-- What a line search hands over. -/
structure Accepted (ι K : Type) where
  alpha : K
  loss : K
  grad : ι → K
  lossVar : K

/-- How a line search was left. -/
inductive LineExit
  | wolfe
  | zoomed
  | fallback
  | unbracketed
  | decreased
  | vanished
  deriving DecidableEq

/-- The step and the slope at the start of a line, and the direction of the line. -/
structure Line (ι K : Type) where
  direction : ι → K
  loss0 : K
  gtd0 : K

variable {numel : Variable → ℕ} (parameters : List (Option Variable))
variable [Field K] [LinearOrder K]

def c1 : K := 1 / 10 ^ 4

def c2 : K := 9 / 10

def evalAt (objective : Objective numel K) (direction : Flat numel parameters → K) (target : K)
    (walk : Walk numel K) : Probe (Flat numel parameters) K × Walk numel K :=
  let deltaAlpha := target - walk.currentAlpha
  let moved :=
    if 0 < |deltaAlpha| then
      { walk with
        values := applyFlatDelta parameters (deltaAlpha • direction) walk.values
        currentAlpha := target }
    else walk
  let grad := gatherFlatGrad parameters objective moved.values
  (⟨objective.loss moved.values, grad ⬝ᵥ direction, grad, objective.loss moved.values⟩,
    { moved with funcEvals := moved.funcEvals + 1 })

/-- The state of the bracketing. -/
structure Bracketing (numel : Variable → ℕ) (parameters : List (Option Variable)) (K : Type) where
  prev : Point K
  alphaCurr : K
  curr : Accepted (Flat numel parameters) K
  lo : Point K
  hi : Point K
  bracketFound : Bool
  wolfeOk : Bool
  accepted : Accepted (Flat numel parameters) K
  lsRemaining : ℤ
  lsIter : ℕ
  walk : Walk numel K

/-- The state of the zoom. -/
structure Zoom (numel : Variable → ℕ) (parameters : List (Option Variable)) (K : Type) where
  lo : Point K
  hi : Point K
  bestAlpha : K
  bestLoss : K
  wolfeOk : Bool
  accepted : Accepted (Flat numel parameters) K
  lsRemaining : ℤ
  walk : Walk numel K

/-- What a line search gives back: what it accepted, where the parameters are, and how it ended. -/
structure Searched (numel : Variable → ℕ) (parameters : List (Option Variable)) (K : Type) where
  accepted : Accepted (Flat numel parameters) K
  walk : Walk numel K
  exit : LineExit

def Probe.at (probe : Probe ι K) (alpha : K) : Accepted ι K :=
  ⟨alpha, probe.loss, probe.grad, probe.lossVar⟩

variable (sqrt : K → K) (objective : Objective numel K) (line : Line (Flat numel parameters) K)

def armijoFails (line : Line ι K) (alpha phi : K) : Prop :=
  line.loss0 + c1 * alpha * line.gtd0 < phi

instance (line : Line ι K) (alpha phi : K) : Decidable (armijoFails line alpha phi) :=
  inferInstanceAs (Decidable (_ < _))

/-- The next step of the bracketing, at least twice the last one or the greatest one. -/
def nextAlpha (prev curr : Point K) (alphaMax : K) : K :=
  let next := cubicInterpolate sqrt prev.alpha prev.phi prev.gtd curr.alpha curr.phi curr.gtd
    (curr.alpha * 2) alphaMax
  if curr.alpha + 1 / 10 ^ 12 < next then next else min (curr.alpha * 2) alphaMax

/-- At most as many probes as the first argument says. -/
def bracketLoop (alphaMax : K) :
    ℕ → Bracketing numel parameters K → Bracketing numel parameters K
  | 0, st => st
  | probes + 1, st =>
    if st.lsRemaining ≤ 0 then st
    else
      let (probe, walk) := evalAt parameters objective line.direction st.alphaCurr st.walk
      let curr : Point K := ⟨st.alphaCurr, probe.loss, probe.gtd⟩
      let st :=
        { st with
          curr := probe.at st.alphaCurr
          walk
          lsRemaining := st.lsRemaining - 1
          lsIter := st.lsIter + 1 }
      if armijoFails line curr.alpha curr.phi ∨ 1 < st.lsIter ∧ st.prev.phi ≤ curr.phi then
        { st with lo := st.prev, hi := curr, bracketFound := true }
      else if |curr.gtd| ≤ -c2 * line.gtd0 then
        { st with wolfeOk := true, accepted := probe.at curr.alpha }
      else if 0 ≤ curr.gtd then
        { st with lo := curr, hi := st.prev, bracketFound := true }
      else
        let next := nextAlpha sqrt st.prev curr alphaMax
        let st := { st with prev := curr, alphaCurr := next }
        if alphaMax ≤ next then
          let (probe, walk) := evalAt parameters objective line.direction alphaMax st.walk
          { st with
            alphaCurr := alphaMax
            walk
            lsRemaining := st.lsRemaining - 1
            accepted := probe.at alphaMax
            wolfeOk := false }
        else bracketLoop alphaMax probes st

/-- The trial step, kept in the half of the bracket at the lower end. -/
def zoomAlpha (lo hi : Point K) : K :=
  let bracketMin := min lo.alpha hi.alpha
  let bracketMax := max lo.alpha hi.alpha
  let width := bracketMax - bracketMin
  let alpha := cubicInterpolate sqrt lo.alpha lo.phi lo.gtd hi.alpha hi.phi hi.gtd
    bracketMin bracketMax
  let epsInner := 1 / 10 * width
  let (clampMin, clampMax) :=
    if lo.alpha < hi.alpha then (bracketMin + epsInner, bracketMin + 1 / 2 * width)
    else (bracketMax - 1 / 2 * width, bracketMax - epsInner)
  let clampMin := if clampMax < clampMin then clampMax else clampMin
  let alpha := if alpha < clampMin then clampMin else alpha
  if clampMax < alpha then clampMax else alpha

def zoomLoop : ℕ → Zoom numel parameters K → Zoom numel parameters K
  | 0, st => st
  | iterations + 1, st =>
    if st.lsRemaining ≤ 0 then st
    else if max st.lo.alpha st.hi.alpha - min st.lo.alpha st.hi.alpha < 1 / 10 ^ 12 then st
    else
      let alpha := zoomAlpha sqrt st.lo st.hi
      let (probe, walk) := evalAt parameters objective line.direction alpha st.walk
      let here : Point K := ⟨alpha, probe.loss, probe.gtd⟩
      let st := { st with walk, lsRemaining := st.lsRemaining - 1 }
      let st :=
        if probe.loss < st.bestLoss then { st with bestLoss := probe.loss, bestAlpha := alpha }
        else st
      if armijoFails line alpha probe.loss ∨ st.lo.phi ≤ probe.loss then
        zoomLoop iterations { st with hi := here }
      else if |probe.gtd| ≤ -c2 * line.gtd0 then
        { st with accepted := probe.at alpha, wolfeOk := true }
      else if 0 ≤ probe.gtd * (st.hi.alpha - st.lo.alpha) then
        zoomLoop iterations { st with hi := st.lo, lo := here }
      else zoomLoop iterations { st with lo := here }

/-- The zoom into the bracket that was found, after the lower end is evaluated again. -/
def zoom (lo hi : Point K) (accepted : Accepted (Flat numel parameters) K) (lsRemaining : ℤ)
    (walk : Walk numel K) : Searched numel parameters K :=
  let (probe, walk) := evalAt parameters objective line.direction lo.alpha walk
  let st := zoomLoop parameters sqrt objective line 25
    { lo := ⟨lo.alpha, probe.loss, probe.gtd⟩
      hi
      bestAlpha := lo.alpha
      bestLoss := probe.loss
      wolfeOk := false
      accepted
      lsRemaining := lsRemaining - 1
      walk }
  if st.wolfeOk then ⟨st.accepted, st.walk, .zoomed⟩
  else
    let (probe, walk) := evalAt parameters objective line.direction st.bestAlpha st.walk
    ⟨probe.at st.bestAlpha, walk, .fallback⟩

def strongWolfe (start : Accepted (Flat numel parameters) K) (lr initStep : K) (maxEval : ℤ)
    (walk : Walk numel K) : Searched numel parameters K :=
  let st := bracketLoop parameters sqrt objective line (max (lr * 10) 10) 25
    { prev := ⟨0, line.loss0, line.gtd0⟩
      alphaCurr := initStep
      curr := ⟨initStep, 0, start.grad, start.lossVar⟩
      lo := ⟨0, 0, 0⟩
      hi := ⟨0, 0, 0⟩
      bracketFound := false
      wolfeOk := false
      accepted := start
      lsRemaining := max 1 (maxEval - walk.funcEvals)
      lsIter := 0
      walk }
  if st.wolfeOk then ⟨st.accepted, st.walk, .wolfe⟩
  else if st.bracketFound then
    zoom parameters sqrt objective line st.lo st.hi st.accepted st.lsRemaining st.walk
  else ⟨{ st.curr with alpha := st.alphaCurr }, st.walk, .unbracketed⟩

def backtrack (maxEval : ℤ) :
    ℕ → Accepted (Flat numel parameters) K → Walk numel K → Searched numel parameters K
  | 0, here, walk => ⟨here, walk, .decreased⟩
  | halvings + 1, here, walk =>
    if armijoFails line here.alpha here.loss then
      let t := here.alpha * (1 / 2)
      if t < 1 / 10 ^ 12 then ⟨{ here with alpha := t }, walk, .vanished⟩
      else
        let (probe, walk) := evalAt parameters objective line.direction t walk
        if maxEval ≤ walk.funcEvals then ⟨probe.at t, walk, .decreased⟩
        else backtrack maxEval halvings (probe.at t) walk
    else ⟨here, walk, .decreased⟩

def armijo (initStep : K) (maxEval : ℤ) (walk : Walk numel K) : Searched numel parameters K :=
  let (probe, walk) := evalAt parameters objective line.direction initStep walk
  backtrack parameters objective line maxEval 25 (probe.at initStep) walk

end Search

/-- What an iteration leaves for the next one. -/
structure Previous (ι K : Type) where
  flatParams : ι → K
  flatGrad : ι → K
  loss : K

end LBFGS

open LBFGS

structure LBFGS (numel : Variable → ℕ) (parameters : List (Option Variable)) (K : Type) where
  lr : K
  maxIter : ℤ
  maxEval : ℤ
  toleranceGrad : K
  toleranceChange : K
  historySize : ℕ
  lineSearch : LBFGSLineSearch
  history : List (Secant (Flat numel parameters) K)
  nIter : ℕ
  prev : Option (Previous (Flat numel parameters) K)

namespace LBFGS

variable {numel : Variable → ℕ} {parameters : List (Option Variable)} {K : Type}

/-- A step under way. -/
structure Loop (numel : Variable → ℕ) (parameters : List (Option Variable)) (K : Type) where
  opt : LBFGS numel parameters K
  values : Values numel K
  funcEvals : ℤ
  loss : K
  flatGrad : Flat numel parameters → K
  lossVar : K

/-- The end of an iteration. -/
structure Iteration (numel : Variable → ℕ) (parameters : List (Option Variable)) (K : Type) where
  after : Loop numel parameters K
  direction : Flat numel parameters → K
  acceptedAlpha : K
  exit : LineExit

/-- A fresh optimizer. A negative bound on the evaluations stands for five quarters of the bound on
the iterations. -/
def construct (lr : K) (maxIter maxEval : ℤ) (toleranceGrad toleranceChange : K) (historySize : ℤ)
    (lineSearch : LBFGSLineSearch) : Except String (LBFGS numel parameters K) :=
  if parameters.isEmpty then .error "LBFGS: parameter list must be non-empty"
  else if historySize ≤ 0 then .error "LBFGS: history_size must be positive"
  else .ok
    { lr
      maxIter
      maxEval := if 0 ≤ maxEval then maxEval else (maxIter * 5).tdiv 4
      toleranceGrad
      toleranceChange
      historySize := historySize.toNat
      lineSearch
      history := []
      nIter := 0
      prev := none }

variable [Field K] [LinearOrder K]

/-- The update of the history at the start of an iteration. -/
def pushHistory (opt : LBFGS numel parameters K) (flatParams flatGrad : Flat numel parameters → K) :
    List (Secant (Flat numel parameters) K) :=
  match opt.prev with
  | none => opt.history
  | some prev =>
    let s := flatParams - prev.flatParams
    let y := flatGrad - prev.flatGrad
    let ys := y ⬝ᵥ s
    if 1 / 10 ^ 10 < ys then
      let kept := if opt.history.length = opt.historySize then opt.history.tail else opt.history
      kept ++ [⟨s, y, 1 / ys⟩]
    else opt.history

/-- The history and the direction of an iteration: steepest descent when the direction that the
history gives does not descend. -/
def chooseDirection (opt : LBFGS numel parameters K)
    (history : List (Secant (Flat numel parameters) K)) (flatGrad : Flat numel parameters → K) :
    List (Secant (Flat numel parameters) K) × (Flat numel parameters → K) :=
  let direction := twoLoopRecursion history flatGrad
  if -opt.toleranceChange < flatGrad ⬝ᵥ direction then ([], (-1 : K) • flatGrad)
  else (history, direction)

def initStep (opt : LBFGS numel parameters K) (flatGrad : Flat numel parameters → K) : K :=
  if opt.nIter = 1 then min 1 (1 / max (flatL1 flatGrad) (1 / 10 ^ 30)) * opt.lr else opt.lr

def iterate (sqrt : K → K) (objective : Objective numel K) (loop : Loop numel parameters K) :
    Iteration numel parameters K :=
  let flatParams := gatherFlatParams parameters loop.values
  let (history, direction) :=
    chooseDirection loop.opt (pushHistory loop.opt flatParams loop.flatGrad) loop.flatGrad
  let opt :=
    { loop.opt with
      nIter := loop.opt.nIter + 1
      history
      prev := some ⟨flatParams, loop.flatGrad, loop.loss⟩ }
  let line : Line (Flat numel parameters) K :=
    ⟨direction, loop.loss, loop.flatGrad ⬝ᵥ direction⟩
  let start : Accepted (Flat numel parameters) K := ⟨0, loop.loss, loop.flatGrad, loop.lossVar⟩
  let walk : Walk numel K := ⟨loop.values, 0, loop.funcEvals⟩
  let searched := match opt.lineSearch with
    | .strongWolfe =>
      strongWolfe parameters sqrt objective line start opt.lr (opt.initStep loop.flatGrad)
        opt.maxEval walk
    | .armijo =>
      armijo parameters objective line (opt.initStep loop.flatGrad) opt.maxEval walk
  { after :=
      { opt
        values := searched.walk.values
        funcEvals := searched.walk.funcEvals
        loss := searched.accepted.loss
        flatGrad := searched.accepted.grad
        lossVar := searched.accepted.lossVar }
    direction
    acceptedAlpha := searched.accepted.alpha
    exit := searched.exit }

/-- Whether an iteration that started from this loss is the last one. -/
def converged (before : K) (it : Iteration numel parameters K) : Prop :=
  flatMaxAbs it.after.flatGrad ≤ it.after.opt.toleranceGrad ∨
    |it.acceptedAlpha| * flatMaxAbs it.direction ≤ it.after.opt.toleranceChange ∨
    |it.after.loss - before| < it.after.opt.toleranceChange ∨
    it.after.opt.maxEval ≤ it.after.funcEvals

instance (before : K) (it : Iteration numel parameters K) : Decidable (converged before it) :=
  inferInstanceAs (Decidable (_ ∨ _ ∨ _ ∨ _))

/-- The iterations of a step, at most as many as the first argument says. -/
def iterations (sqrt : K → K) (objective : Objective numel K) :
    ℕ → Loop numel parameters K → List (Iteration numel parameters K)
  | 0, _ => []
  | n + 1, loop =>
    let it := iterate sqrt objective loop
    if converged loop.loss it then [it] else it :: iterations sqrt objective n it.after

/-- The first evaluation of a step. -/
def start (objective : Objective numel K) (opt : LBFGS numel parameters K)
    (values : Values numel K) : Loop numel parameters K where
  opt
  values
  funcEvals := 1
  loss := objective.loss values
  flatGrad := gatherFlatGrad parameters objective values
  lossVar := objective.loss values

/-- What a step does: its iterations, and the optimizer, the parameters and the loss at its end. -/
structure Stepped (numel : Variable → ℕ) (parameters : List (Option Variable)) (K : Type) where
  iterations : List (Iteration numel parameters K)
  final : Loop numel parameters K

def step (sqrt : K → K) (objective : Objective numel K) (opt : LBFGS numel parameters K)
    (values : Values numel K) : Except String (Stepped numel parameters K) :=
  let first := start objective opt values
  if (present parameters).isEmpty then .error "LBFGS: no parameters to optimize"
  else if flatMaxAbs first.flatGrad ≤ opt.toleranceGrad then .ok ⟨[], first⟩
  else
    let its := iterations sqrt objective opt.maxIter.toNat first
    .ok ⟨its, (its.getLast?.map Iteration.after).getD first⟩

/-- A call of the step: the learning rate set before it, and what happens to the parameters outside
the optimizer. -/
structure Call (numel : Variable → ℕ) (K : Type) where
  lr : K
  edit : Values numel K → Values numel K

def calls (sqrt : K → K) (objective : Objective numel K) :
    List (Call numel K) → LBFGS numel parameters K → Values numel K →
      Except String (List (Stepped numel parameters K))
  | [], _, _ => .ok []
  | call :: rest, opt, values => do
    let stepped ← step sqrt objective { opt with lr := call.lr } (call.edit values)
    let others ← calls sqrt objective rest stepped.final.opt stepped.final.values
    .ok (stepped :: others)

end LBFGS

end Tenzor.Optim
