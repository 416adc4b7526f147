import Mathlib.Analysis.Real.Sqrt
import Mathlib.Data.Rat.Sqrt
import Tenzor.Optim.LbfgsDirection

/-!
# What the iterations of L-BFGS hand over

A line search moves the parameters along its direction through a shared step, and leaves in several
ways. Where it finds what it looks for, or falls back to a step it has evaluated, the step, the loss
and the gradient that it hands over belong to the parameters it leaves.
-/

namespace Tenzor.Optim.LBFGS

open RankTwoUpdate Throwing List

variable {numel : Variable → ℕ} {parameters : List (Option Variable)} {K : Type} [Field K]
  {opt : LBFGS numel parameters K}

theorem gather_foldl_update (hdistinct : (present parameters).Nodup)
    (delta : Flat numel parameters → K) {l : List (Fin (present parameters).length)}
    (hl : l.Nodup) (values : Values numel K) (e : Flat numel parameters) :
    gatherFlatParams parameters
        (l.foldl (fun values i => Function.update values ((present parameters).get i)
          (values ((present parameters).get i) + fun j => delta ⟨i, j⟩)) values) e =
      gatherFlatParams parameters values e + if e.1 ∈ l then delta e else 0 := by
  induction l generalizing values with
  | nil => simp
  | cons i l ih =>
    obtain ⟨hi, hl⟩ := nodup_cons.mp hl
    rw [foldl_cons, ih hl]
    obtain ⟨k, j⟩ := e
    by_cases hk : k = i
    · subst hk
      simp [gatherFlatParams, hi]
    · have hother : (present parameters).get k ≠ (present parameters).get i := fun h =>
        hk (hdistinct.injective_get h)
      simp only [gatherFlatParams, Function.update_of_ne hother, mem_cons, hk, false_or]

/-- With distinct parameters, a displacement of the flat vector moves the flat vector by it. -/
theorem gatherFlatParams_applyFlatDelta (hdistinct : (present parameters).Nodup)
    (delta : Flat numel parameters → K) (values : Values numel K) :
    gatherFlatParams parameters (applyFlatDelta parameters delta values) =
      gatherFlatParams parameters values + delta := by
  ext e
  rw [applyFlatDelta, gather_foldl_update hdistinct delta (nodup_finRange _)]
  simp

section Line

variable (objective : Objective numel K) (origin direction : Flat numel parameters → K)

/-- The parameters are where the shared step says. -/
def OnLine (walk : Walk numel K) : Prop :=
  gatherFlatParams parameters walk.values = origin + walk.currentAlpha • direction

/-- A step that belongs to these parameters, with their loss and their gradient. -/
structure Matches (accepted : Accepted (Flat numel parameters) K) (values : Values numel K) :
    Prop where
  position : gatherFlatParams parameters values = origin + accepted.alpha • direction
  loss : accepted.loss = objective.loss values
  grad : accepted.grad = gatherFlatGrad parameters objective values
  lossVar : accepted.lossVar = objective.loss values

variable {objective origin direction}
variable [LinearOrder K] [IsStrictOrderedRing K]

variable (objective) {walk : Walk numel K} in
theorem exists_evalAt (hdistinct : (present parameters).Nodup)
    (hwalk : OnLine origin direction walk) (target : K) :
    ∃ probe moved, evalAt parameters objective direction target walk = (probe, moved) ∧
      OnLine origin direction moved ∧
      Matches objective origin direction (probe.at target) moved.values := by
  refine ⟨_, _, rfl, ?_⟩
  by_cases hmove : 0 < |target - walk.currentAlpha|
  · have hposition : gatherFlatParams parameters
        (applyFlatDelta parameters ((target - walk.currentAlpha) • direction) walk.values) =
        origin + target • direction := by
      rw [gatherFlatParams_applyFlatDelta hdistinct, hwalk, sub_smul]
      abel
    simp only [if_pos hmove]
    exact ⟨hposition, hposition, rfl, rfl, rfl⟩
  · have hstay : target = walk.currentAlpha := by
      rw [abs_pos, not_not] at hmove
      exact sub_eq_zero.mp hmove
    simp only [if_neg hmove]
    refine ⟨hwalk, ?_, rfl, rfl, rfl⟩
    rw [hstay]
    exact hwalk

variable (objective origin direction) in
/-- The parameters are on the line, and an accepted probe is the one that was evaluated last. -/
structure Bracketing.Sound (st : Bracketing numel parameters K) : Prop where
  walk : OnLine origin direction st.walk
  accepted : st.wolfeOk = true → Matches objective origin direction st.accepted st.walk.values

variable (objective origin direction) in
structure Zoom.Sound (st : Zoom numel parameters K) : Prop where
  walk : OnLine origin direction st.walk
  accepted : st.wolfeOk = true → Matches objective origin direction st.accepted st.walk.values

omit [IsStrictOrderedRing K] in
theorem bracketLoop_spent (sqrt : K → K) (line : Line (Flat numel parameters) K) (alphaMax : K)
    (probes : ℕ) {st : Bracketing numel parameters K} (hspent : st.lsRemaining ≤ 0) :
    bracketLoop parameters sqrt objective line alphaMax probes st = st := by
  cases probes with
  | zero => rfl
  | succ probes => rw [bracketLoop, if_pos hspent]

variable (hdistinct : (present parameters).Nodup)
variable (sqrt : K → K) (line : Line (Flat numel parameters) K)

include hdistinct

variable (objective) in
theorem bracketLoop_sound (alphaMax : K) (probes : ℕ) (st : Bracketing numel parameters K)
    (hwolfe : st.wolfeOk = false) (hwalk : OnLine origin line.direction st.walk) :
    (bracketLoop parameters sqrt objective line alphaMax probes st).Sound objective origin
      line.direction := by
  have hopen {b : Bool} {P : Prop} (hb : b = false) (h : b = true) : P :=
    absurd (hb.symm.trans h) Bool.false_ne_true
  induction probes generalizing st with
  | zero => exact ⟨hwalk, hopen hwolfe⟩
  | succ probes ih =>
    obtain ⟨probe, walk, heval, hmoved, hmatches⟩ :=
      exists_evalAt objective hdistinct hwalk st.alphaCurr
    rw [bracketLoop]
    simp only [heval]
    split
    · exact ⟨hwalk, hopen hwolfe⟩
    · split
      · exact ⟨hmoved, hopen hwolfe⟩
      · split
        · exact ⟨hmoved, fun _ => hmatches⟩
        · split
          · exact ⟨hmoved, hopen hwolfe⟩
          · split
            · -- The greatest step is evaluated, but it is not accepted as a Wolfe point.
              obtain ⟨last, lastWalk, hlast, hlastMoved, -⟩ :=
                exists_evalAt objective hdistinct hmoved alphaMax
              simp only [hlast]
              exact ⟨hlastMoved, hopen rfl⟩
            · exact ih _ hwolfe hmoved

variable (objective) in
theorem zoomLoop_sound (iterations : ℕ) (st : Zoom numel parameters K)
    (hwolfe : st.wolfeOk = false) (hwalk : OnLine origin line.direction st.walk) :
    (zoomLoop parameters sqrt objective line iterations st).Sound objective origin
      line.direction := by
  have hopen {b : Bool} {P : Prop} (hb : b = false) (h : b = true) : P :=
    absurd (hb.symm.trans h) Bool.false_ne_true
  induction iterations generalizing st with
  | zero => exact ⟨hwalk, hopen hwolfe⟩
  | succ iterations ih =>
    obtain ⟨probe, walk, heval, hmoved, hmatches⟩ :=
      exists_evalAt objective hdistinct hwalk (zoomAlpha sqrt st.lo st.hi)
    rw [zoomLoop]
    simp only [heval]
    split
    · exact ⟨hwalk, hopen hwolfe⟩
    · split
      · exact ⟨hwalk, hopen hwolfe⟩
      · -- Remembering the best step so far changes neither the place nor what is accepted.
        by_cases hbest : probe.loss < st.bestLoss
        · simp only [if_pos hbest]
          split
          · exact ih _ hwolfe hmoved
          · split
            · exact ⟨hmoved, fun _ => hmatches⟩
            · split
              · exact ih _ hwolfe hmoved
              · exact ih _ hwolfe hmoved
        · simp only [if_neg hbest]
          split
          · exact ih _ hwolfe hmoved
          · split
            · exact ⟨hmoved, fun _ => hmatches⟩
            · split
              · exact ih _ hwolfe hmoved
              · exact ih _ hwolfe hmoved

/-- The zoom hands over a Wolfe point, or evaluates the best step again. -/
theorem zoom_matches (lo hi : Point K) (accepted : Accepted (Flat numel parameters) K)
    (lsRemaining : ℤ) (hwalk : OnLine origin line.direction walk) :
    Matches objective origin line.direction
      (zoom parameters sqrt objective line lo hi accepted lsRemaining walk).accepted
      (zoom parameters sqrt objective line lo hi accepted lsRemaining walk).walk.values := by
  obtain ⟨probe, moved, heval, hmoved, -⟩ :=
    exists_evalAt objective hdistinct hwalk lo.alpha
  have hsound := zoomLoop_sound objective hdistinct sqrt line 25
    ⟨⟨lo.alpha, probe.loss, probe.gtd⟩, hi, lo.alpha, probe.loss, false, accepted,
      lsRemaining - 1, moved⟩ rfl hmoved
  simp only [zoom, heval]
  generalize zoomLoop parameters sqrt objective line 25 _ = st at hsound ⊢
  by_cases hwolfe : st.wolfeOk = true
  · simp only [if_pos hwolfe]
    exact hsound.accepted hwolfe
  · obtain ⟨last, lastWalk, hlast, -, hmatches⟩ :=
      exists_evalAt objective hdistinct hsound.walk st.bestAlpha
    simp only [if_neg hwolfe, hlast]
    exact hmatches

/-- The strong Wolfe search belongs together unless it ends with neither a Wolfe point nor a
bracket. -/
theorem strongWolfe_matches (start : Accepted (Flat numel parameters) K) (lr initStep : K)
    (maxEval : ℤ) (hwalk : OnLine origin line.direction walk)
    (hexit : (strongWolfe parameters sqrt objective line start lr initStep maxEval walk).exit ≠
      .unbracketed) :
    Matches objective origin line.direction
      (strongWolfe parameters sqrt objective line start lr initStep maxEval walk).accepted
      (strongWolfe parameters sqrt objective line start lr initStep maxEval walk).walk.values := by
  have hsound := bracketLoop_sound objective hdistinct sqrt line
    (max (lr * 10) 10) 25
    ⟨⟨0, line.loss0, line.gtd0⟩, initStep, ⟨initStep, 0, start.grad, start.lossVar⟩,
      ⟨0, 0, 0⟩, ⟨0, 0, 0⟩, false, false, start, max 1 (maxEval - walk.funcEvals), 0, walk⟩
    rfl hwalk
  simp only [strongWolfe] at hexit ⊢
  generalize bracketLoop parameters sqrt objective line (max (lr * 10) 10) 25 _ = st
    at hsound hexit ⊢
  by_cases hwolfe : st.wolfeOk = true
  · simp only [if_pos hwolfe]
    exact hsound.accepted hwolfe
  · by_cases hbracket : st.bracketFound = true
    · simp only [if_neg hwolfe, if_pos hbracket]
      exact zoom_matches hdistinct sqrt line st.lo st.hi st.accepted st.lsRemaining hsound.walk
    · simp only [if_neg hwolfe, if_neg hbracket] at hexit
      exact absurd rfl hexit

theorem backtrack_matches (maxEval : ℤ) (halvings : ℕ) {here : Accepted (Flat numel parameters) K}
    (hwalk : OnLine origin line.direction walk)
    (hhere : Matches objective origin line.direction here walk.values)
    (hexit : (backtrack parameters objective line maxEval halvings here walk).exit ≠ .vanished) :
    Matches objective origin line.direction
      (backtrack parameters objective line maxEval halvings here walk).accepted
      (backtrack parameters objective line maxEval halvings here walk).walk.values := by
  induction halvings generalizing here walk with
  | zero => exact hhere
  | succ halvings ih =>
    obtain ⟨probe, moved, heval, hmoved, hmatches⟩ :=
      exists_evalAt objective hdistinct hwalk (here.alpha * (1 / 2))
    rw [backtrack] at hexit ⊢
    simp only [heval] at hexit ⊢
    split_ifs at hexit ⊢ with hfails hsmall hspent
    · exact absurd rfl hexit
    · exact hmatches
    · exact ih hmoved hmatches hexit
    · exact hhere

/-- Backtracking belongs together unless the step vanishes. -/
theorem armijo_matches (initStep : K) (maxEval : ℤ) (hwalk : OnLine origin line.direction walk)
    (hexit : (armijo parameters objective line initStep maxEval walk).exit ≠ .vanished) :
    Matches objective origin line.direction
      (armijo parameters objective line initStep maxEval walk).accepted
      (armijo parameters objective line initStep maxEval walk).walk.values := by
  obtain ⟨probe, moved, heval, hmoved, hmatches⟩ :=
    exists_evalAt objective hdistinct hwalk initStep
  simp only [armijo, heval] at hexit ⊢
  exact backtrack_matches hdistinct line maxEval 25 hmoved hmatches hexit

end Line

/-! ## Iterations, steps and runs -/

/-- The step that is handed over is the one that was evaluated last. -/
def LineExit.Evaluated (exit : LineExit) : Prop := exit ≠ .unbracketed ∧ exit ≠ .vanished

variable (objective : Objective numel K)

/-- The pair is a difference of parameters and of the gradients there. -/
def IsDifference (p : Secant (Flat numel parameters) K) : Prop :=
  ∃ u w : Values numel K,
    p.s = gatherFlatParams parameters w - gatherFlatParams parameters u ∧
      p.y = gatherFlatGrad parameters objective w - gatherFlatGrad parameters objective u

/-- What the optimizer remembers is about parameters that were there. -/
structure Truthful (opt : LBFGS numel parameters K) : Prop where
  prev : ∀ p, opt.prev = some p → ∃ u : Values numel K,
    p.flatParams = gatherFlatParams parameters u ∧
      p.flatGrad = gatherFlatGrad parameters objective u
  history : ∀ p ∈ opt.history, IsDifference objective p

/-- The loss and the gradient that are kept are those of the current parameters. -/
structure Loop.Exact (loop : Loop numel parameters K) : Prop where
  opt : Truthful objective loop.opt
  loss : loop.loss = objective.loss loop.values
  flatGrad : loop.flatGrad = gatherFlatGrad parameters objective loop.values
  lossVar : loop.lossVar = objective.loss loop.values

/-- The parameters at the end of an iteration are those before it, moved by the accepted step. -/
structure Iteration.Settled (it : Iteration numel parameters K) : Prop where
  position : ∃ p, it.after.opt.prev = some p ∧
    gatherFlatParams parameters it.after.values =
      p.flatParams + it.acceptedAlpha • it.direction
  exact : it.after.Exact objective

variable {objective}

/-- A step starts from the loss and the gradient of the current parameters. -/
theorem start_exact (hopt : Truthful objective opt) (values : Values numel K) :
    (start objective opt values).Exact objective :=
  ⟨hopt, rfl, rfl, rfl⟩

variable [LinearOrder K]

theorem isDifference_pushHistory {loop : Loop numel parameters K} (hloop : loop.Exact objective) :
    ∀ p ∈ pushHistory loop.opt (gatherFlatParams parameters loop.values) loop.flatGrad,
      IsDifference objective p := by
  rw [pushHistory]
  cases hprev : loop.opt.prev with
  | none => exact hloop.opt.history
  | some prev =>
    obtain ⟨u, hparams, hgrad⟩ := hloop.opt.prev prev hprev
    dsimp only
    split
    · intro p hp
      obtain hkept | hnew := mem_append.mp hp
      · split at hkept
        · exact hloop.opt.history p (mem_of_mem_tail hkept)
        · exact hloop.opt.history p hkept
      · rw [mem_singleton.mp hnew]
        refine ⟨u, loop.values, ?_, ?_⟩
        · rw [hparams]
        · rw [hgrad, hloop.flatGrad]
    · exact hloop.opt.history

theorem mem_chooseDirection {history : List (Secant (Flat numel parameters) K)}
    {flatGrad : Flat numel parameters → K} {p : Secant (Flat numel parameters) K}
    (hp : p ∈ (chooseDirection opt history flatGrad).1) : p ∈ history := by
  simp only [chooseDirection] at hp
  split at hp
  · exact absurd hp not_mem_nil
  · exact hp

variable [IsStrictOrderedRing K]

section Run

variable (hdistinct : (present parameters).Nodup) (sqrt : K → K) {loop : Loop numel parameters K}
  {opt : LBFGS numel parameters K} {values : Values numel K}

include hdistinct

theorem iterate_settled (hloop : loop.Exact objective)
    (hexit : (iterate sqrt objective loop).exit.Evaluated) :
    (iterate sqrt objective loop).Settled objective := by
  have hpushed := isDifference_pushHistory hloop
  rw [iterate] at hexit ⊢
  generalize hchosen : chooseDirection loop.opt _ loop.flatGrad = chosen at hexit ⊢
  obtain ⟨history, direction⟩ := chosen
  have hhistory : ∀ p ∈ history, IsDifference objective p := by
    intro p hp
    apply hpushed p
    apply mem_chooseDirection
    rw [hchosen]
    exact hp
  let now : Previous (Flat numel parameters) K :=
    ⟨gatherFlatParams parameters loop.values, loop.flatGrad, loop.loss⟩
  have hnow : ∀ p, some now = some p →
      ∃ u : Values numel K, p.flatParams = gatherFlatParams parameters u ∧
        p.flatGrad = gatherFlatGrad parameters objective u := by
    rintro p ⟨⟩
    exact ⟨loop.values, rfl, hloop.flatGrad⟩
  have hwalk : OnLine (gatherFlatParams parameters loop.values) direction
      ⟨loop.values, 0, loop.funcEvals⟩ := by
    simp [OnLine]
  cases hsearch : loop.opt.lineSearch with
  | strongWolfe =>
    simp only [hsearch] at hexit ⊢
    have hmatches := strongWolfe_matches hdistinct sqrt _ _ _ _ _ hwalk hexit.1
    exact ⟨⟨_, rfl, hmatches.position⟩,
      ⟨hnow, hhistory⟩, hmatches.loss, hmatches.grad, hmatches.lossVar⟩
  | armijo =>
    simp only [hsearch] at hexit ⊢
    have hmatches := armijo_matches hdistinct _ _ _ hwalk hexit.2
    exact ⟨⟨_, rfl, hmatches.position⟩,
      ⟨hnow, hhistory⟩, hmatches.loss, hmatches.grad, hmatches.lossVar⟩

theorem iterations_settled (n : ℕ) (hloop : loop.Exact objective)
    (hexits : ∀ it ∈ iterations sqrt objective n loop, it.exit.Evaluated) :
    ∀ it ∈ iterations sqrt objective n loop, it.Settled objective := by
  induction n generalizing loop with
  | zero => exact fun it hit => absurd hit not_mem_nil
  | succ n ih =>
    rw [iterations] at hexits ⊢
    split at hexits
    next hconverged =>
      rw [if_pos hconverged]
      intro it hit
      rw [mem_singleton.mp hit]
      exact iterate_settled hdistinct sqrt hloop (hexits _ (mem_singleton_self _))
    next hgoes =>
      rw [if_neg hgoes]
      have hfirst := iterate_settled hdistinct sqrt hloop (hexits _ mem_cons_self)
      have hrest := ih hfirst.exact fun it hit => hexits it (mem_cons_of_mem _ hit)
      exact forall_mem_cons.mpr ⟨hfirst, hrest⟩

/-- A step settles each of its iterations, and ends with the loss of the last parameters. -/
theorem step_settled (hopt : Truthful objective opt) {stepped : Stepped numel parameters K}
    (hstep : step sqrt objective opt values = .ok stepped)
    (hexits : ∀ it ∈ stepped.iterations, it.exit.Evaluated) :
    (∀ it ∈ stepped.iterations, it.Settled objective) ∧ stepped.final.Exact objective := by
  have hstart := start_exact hopt values
  rw [step] at hstep
  split_ifs at hstep with hnone hoptimum
  · cases hstep
    exact ⟨fun it hit => absurd hit not_mem_nil, hstart⟩
  · cases hstep
    have hsettled := iterations_settled hdistinct sqrt _ hstart hexits
    refine ⟨hsettled, ?_⟩
    generalize iterations sqrt objective _ _ = its at hsettled
    cases hlast : its.getLast? with
    | none => exact hstart
    | some it => exact (hsettled it (mem_of_getLast? hlast)).exact

theorem calls_settled (hopt : Truthful objective opt) (sequence : List (Call numel K))
    {run : List (Stepped numel parameters K)}
    (hrun : calls sqrt objective sequence opt values = .ok run)
    (hexits : ∀ stepped ∈ run, ∀ it ∈ stepped.iterations, it.exit.Evaluated) :
    ∀ stepped ∈ run, (∀ it ∈ stepped.iterations, it.Settled objective) ∧
      stepped.final.Exact objective := by
  induction sequence generalizing opt values run with
  | nil =>
    cases hrun
    exact fun stepped hstepped => absurd hstepped not_mem_nil
  | cons call rest ih =>
    rw [calls, bind_eq_ok] at hrun
    obtain ⟨first, hfirst, hrun⟩ := hrun
    rw [bind_eq_ok] at hrun
    obtain ⟨others, hothers, hrun⟩ := hrun
    cases hrun
    obtain ⟨hexitsFirst, hexitsOthers⟩ := forall_mem_cons.mp hexits
    have htruthful : Truthful objective { opt with lr := call.lr } := ⟨hopt.prev, hopt.history⟩
    have hsettled := step_settled hdistinct sqrt htruthful hfirst hexitsFirst
    have hrest := ih hsettled.2.opt hothers hexitsOthers
    exact forall_mem_cons.mpr ⟨hsettled, hrest⟩

end Run

omit [LinearOrder K] [IsStrictOrderedRing K] in
theorem construct_truthful {lr : K} {maxIter maxEval : ℤ} {toleranceGrad toleranceChange : K}
    {historySize : ℤ} {lineSearch : LBFGSLineSearch}
    (hopt : construct lr maxIter maxEval toleranceGrad toleranceChange historySize lineSearch =
      .ok opt) : Truthful objective opt := by
  rw [construct] at hopt
  split at hopt
  · cases hopt
  · split at hopt
    · cases hopt
    · cases hopt
      exact ⟨fun p hp => (nomatch hp), fun p hp => (nomatch hp)⟩

/-- In a run from a fresh optimizer whose line searches all end at the step that was evaluated last,
each iteration ends at the parameters before it moved by the accepted step, with their loss and their
gradient, and each step returns the loss of its last parameters. -/
theorem calls_handOver (hdistinct : (present parameters).Nodup) (sqrt : K → K)
    {lr : K} {maxIter maxEval : ℤ} {toleranceGrad toleranceChange : K} {historySize : ℤ}
    {lineSearch : LBFGSLineSearch} {opt : LBFGS numel parameters K}
    (hopt : construct lr maxIter maxEval toleranceGrad toleranceChange historySize lineSearch =
      .ok opt)
    (sequence : List (Call numel K)) (values : Values numel K)
    {run : List (Stepped numel parameters K)}
    (hrun : calls sqrt objective sequence opt values = .ok run)
    (hexits : ∀ stepped ∈ run, ∀ it ∈ stepped.iterations, it.exit.Evaluated) :
    ∀ stepped ∈ run, (∀ it ∈ stepped.iterations, it.Settled objective) ∧
      stepped.final.lossVar = objective.loss stepped.final.values := by
  intro stepped hstepped
  obtain ⟨hsettled, hfinal⟩ := calls_settled hdistinct sqrt (construct_truthful hopt) sequence hrun
    hexits stepped hstepped
  exact ⟨hsettled, hfinal.lossVar⟩

/-! ## A line that falls for ever -/

def weight : Variable := ⟨0, .float32⟩

/-- A line that falls with slope one. -/
noncomputable def falling : Objective (fun _ => 1) ℝ where
  loss values := -values weight 0
  grad _ _ := some fun _ => -1

instance : Unique (Flat (fun _ => 1) [some weight]) where
  default := ⟨⟨0, by decide⟩, 0⟩
  uniq e := by
    obtain ⟨⟨i, hi⟩, j⟩ := e
    have hi0 : i = 0 := Nat.lt_one_iff.mp hi
    subst hi0
    have hj : j = 0 := Subsingleton.elim _ _
    rw [hj]

local instance : Nat.AtLeastTwo 10 := inferInstance

/-- The default settings but a single iteration. -/
noncomputable def single (lineSearch : LBFGSLineSearch) : LBFGS (fun _ => 1) [some weight] ℝ where
  lr := 1
  maxIter := 1
  maxEval := 1
  toleranceGrad := 1 / 10 ^ 7
  toleranceChange := 1 / 10 ^ 9
  historySize := 100
  lineSearch
  history := []
  nIter := 0
  prev := none

theorem flatMaxAbs_unique {ι : Type} [Unique ι] [Fintype ι] (a : ι → ℝ) : flatMaxAbs a = |a default| := by
  rw [flatMaxAbs]
  simp

theorem nextAlpha_falling : nextAlpha Real.sqrt ⟨0, 0, -1⟩ ⟨1, -1, -1⟩ 10 = 2 := by
  have hroot : (0 : ℝ) < Real.sqrt 24 := Real.sqrt_pos.mpr (by norm_num)
  have hback : (1 : ℝ) - (-1 + Real.sqrt 24 + 5) / (2 * Real.sqrt 24) ≤ 2 := by
    have hquotient : 0 ≤ (-1 + Real.sqrt 24 + 5) / (2 * Real.sqrt 24) := by
      apply div_nonneg <;> linarith
    linarith
  have hcubic : cubicInterpolate Real.sqrt 0 0 (-1) 1 (-1) (-1) 2 10 = 2 := by
    norm_num [cubicInterpolate]
    rw [max_eq_right]
    · norm_num
    · linarith
  simp only [nextAlpha, one_mul, hcubic]
  norm_num

theorem evalAt_falling :
    ∃ probe moved, evalAt [some weight] falling 1 1 ⟨fun _ _ => 0, 0, 1⟩ = (probe, moved) ∧
      probe.loss = -1 ∧ probe.gtd = -1 ∧ gatherFlatParams [some weight] moved.values = 1 := by
  have hwalk : OnLine (0 : Flat (fun _ => 1) [some weight] → ℝ) 1 ⟨fun _ _ => 0, 0, 1⟩ := by
    ext e
    simp [gatherFlatParams]
  obtain ⟨probe, moved, heval, -, hmatches⟩ := exists_evalAt falling (by decide) hwalk 1
  have hgtd : probe.gtd = -1 := by
    have hprobe := congrArg (fun out => out.1.gtd) heval
    simpa [evalAt, dotProduct, gatherFlatGrad, falling] using hprobe.symm
  have hplace : gatherFlatParams [some weight] moved.values = 1 := by
    simpa [Probe.at] using hmatches.position
  have hvalue : moved.values weight 0 = 1 := congrFun hplace default
  have hloss : probe.loss = -1 := by
    simpa [falling, Probe.at, hvalue] using hmatches.loss
  exact ⟨probe, moved, heval, hloss, hgtd, hplace⟩

/-- The only probe of the search lies at the step one, and the next one is never made. -/
theorem strongWolfe_falling (start : Accepted (Flat (fun _ => 1) [some weight]) ℝ) :
    ∃ searched, strongWolfe [some weight] Real.sqrt falling ⟨1, 0, -1⟩ start 1 1 1
        ⟨fun _ _ => 0, 0, 1⟩ = searched ∧
      searched.accepted.alpha = 2 ∧
      gatherFlatParams [some weight] searched.walk.values = 1 := by
  obtain ⟨probe, moved, heval, hloss, hgtd, hplace⟩ := evalAt_falling
  simp only [strongWolfe]
  rw [bracketLoop]
  norm_num [heval, hgtd, hloss, armijoFails, c1, c2, nextAlpha_falling, bracketLoop_spent, hplace]

theorem gatherFlatGrad_falling (values : Values (fun _ => 1) ℝ) :
    gatherFlatGrad [some weight] falling values = -1 := by
  ext e
  simp [gatherFlatGrad, falling]

theorem start_falling (opt : LBFGS (fun _ => 1) [some weight] ℝ) :
    start falling opt (fun _ _ => 0) = ⟨opt, fun _ _ => 0, 1, 0, -1, 0⟩ := by
  rw [start, gatherFlatGrad_falling]
  simp [falling]

theorem chooseDirection_falling (lineSearch : LBFGSLineSearch) :
    chooseDirection (single lineSearch) [] (-1) = ([], 1) := by
  have hdirection : twoLoopRecursion [] (-1 : Flat (fun _ => 1) [some weight] → ℝ) = 1 := by
    simp [twoLoopRecursion]
  norm_num [chooseDirection, hdirection]

/-- The first iteration on the falling line. -/
theorem iterate_falling (lineSearch : LBFGSLineSearch) :
    iterate Real.sqrt falling ⟨single lineSearch, fun _ _ => 0, 1, 0, -1, 0⟩ =
      let searched := match lineSearch with
        | .strongWolfe => strongWolfe [some weight] Real.sqrt falling ⟨1, 0, -1⟩ ⟨0, 0, -1, 0⟩ 1 1 1
            ⟨fun _ _ => 0, 0, 1⟩
        | .armijo => armijo [some weight] falling ⟨1, 0, -1⟩ 1 1 ⟨fun _ _ => 0, 0, 1⟩
      ⟨⟨{ single lineSearch with nIter := 1, prev := some ⟨0, -1, 0⟩ }, searched.walk.values,
        searched.walk.funcEvals, searched.accepted.loss, searched.accepted.grad,
        searched.accepted.lossVar⟩, 1, searched.accepted.alpha, searched.exit⟩ := by
  have hzero : gatherFlatParams [some weight] (fun _ _ => 0 : Values (fun _ => 1) ℝ) = 0 := rfl
  have hslope : (-1 : Flat (fun _ => 1) [some weight] → ℝ) ⬝ᵥ 1 = -1 := by
    simp [dotProduct]
  have hpushed : pushHistory (single lineSearch) 0 (-1) = [] := rfl
  have hstep : initStep { single lineSearch with nIter := 1, prev := some ⟨0, -1, 0⟩ } (-1) = 1 := by
    norm_num [initStep, flatL1, single]
  rw [iterate, hzero, hpushed, chooseDirection_falling]
  simp only [hslope]
  cases lineSearch <;> simp only [single, zero_add] at hstep ⊢ <;> rw [hstep]

theorem step_falling (lineSearch : LBFGSLineSearch) :
    ∃ stepped, step Real.sqrt falling (single lineSearch) (fun _ _ => 0) = .ok stepped ∧
      stepped.iterations =
        [iterate Real.sqrt falling ⟨single lineSearch, fun _ _ => 0, 1, 0, -1, 0⟩] := by
  have hmax : ¬ flatMaxAbs (-1 : Flat (fun _ => 1) [some weight] → ℝ) ≤ 1 / 10 ^ 7 := by
    norm_num [flatMaxAbs_unique]
  have hone (loop : Loop (fun _ => 1) [some weight] ℝ) :
      iterations Real.sqrt falling 1 loop = [iterate Real.sqrt falling loop] := by
    rw [iterations]
    split <;> rfl
  rw [step, start_falling]
  refine ⟨_, (if_neg (by decide)).trans (if_neg hmax), hone _⟩

/-- With the default settings and one iteration, the only probe leaves the parameters at the step
one, and the step two is accepted. -/
theorem falling_step_lost :
    construct 1 1 (-1) (1 / 10 ^ 7) (1 / 10 ^ 9) 100 .strongWolfe = .ok (single .strongWolfe) ∧
      ∃ stepped, step Real.sqrt falling (single .strongWolfe) (fun _ _ => 0) = .ok stepped ∧
        ∃ it ∈ stepped.iterations, ¬ it.Settled falling := by
  obtain ⟨stepped, hstep, hiterations⟩ := step_falling .strongWolfe
  obtain ⟨searched, hsearched, halpha, hplace⟩ := strongWolfe_falling ⟨0, 0, -1, 0⟩
  refine ⟨rfl, stepped, hstep, _, hiterations ▸ mem_singleton_self _, ?_⟩
  rintro ⟨⟨prev, hprev, hposition⟩, -⟩
  rw [iterate_falling] at hprev hposition
  simp only [hsearched, halpha, hplace] at hprev hposition
  cases hprev
  have hentry := congrFun hposition default
  norm_num at hentry

/-- A parabola over one parameter. -/
def parabola : Objective (fun _ => 1) ℚ where
  loss values := values weight 0 ^ 2 / 2
  grad values _ := some fun j => values weight j

/-- The backtracking search with up to three iterations. -/
def backtracking : LBFGS (fun _ => 1) [some weight] ℚ where
  lr := 1
  maxIter := 3
  maxEval := 3
  toleranceGrad := 1 / 10 ^ 7
  toleranceChange := 1 / 10 ^ 9
  historySize := 100
  lineSearch := .armijo
  history := []
  nIter := 0
  prev := none

/-- The second iteration pushes the pair of the first one. -/
theorem calls_backtracking : (·.map fun stepped => stepped.iterations.map fun it =>
    (it.exit, it.after.opt.history.length)) <$>
      (calls Rat.sqrt parabola [⟨1, id⟩] backtracking fun _ _ => 4) =
    .ok [[(.decreased, 0), (.decreased, 1)]] := by decide +kernel

theorem calls_handOver_armijo :
    ∃ run, calls Rat.sqrt parabola [⟨1, id⟩] backtracking (fun _ _ => 4) = .ok run ∧
      (run.map fun stepped => stepped.iterations.map fun it =>
        (it.exit, it.after.opt.history.length)) = [[(.decreased, 0), (.decreased, 1)]] ∧
      ∀ stepped ∈ run, (∀ it ∈ stepped.iterations, it.Settled parabola) ∧
        stepped.final.lossVar = parabola.loss stepped.final.values := by
  obtain ⟨run, hrun, hexits⟩ := map_eq_ok.mp calls_backtracking
  have hopt : construct 1 3 (-1) (1 / 10 ^ 7) (1 / 10 ^ 9) 100 .armijo = .ok backtracking := rfl
  refine ⟨run, hrun, hexits, calls_handOver (by decide) Rat.sqrt hopt _ _ hrun ?_⟩
  intro stepped hstepped it hit
  have hexit : it.exit = .decreased := by
    have hits := mem_map_of_mem (f := fun stepped => stepped.iterations.map fun it =>
      (it.exit, it.after.opt.history.length)) hstepped
    have hpair := mem_map_of_mem (f := fun it => (it.exit, it.after.opt.history.length)) hit
    rw [hexits, mem_singleton] at hits
    rw [hits] at hpair
    simp only [mem_cons, Prod.mk.injEq, not_mem_nil, or_false] at hpair
    exact hpair.elim And.left And.left
  rw [LineExit.Evaluated, hexit]
  decide
end Tenzor.Optim.LBFGS
