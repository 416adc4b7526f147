import Mathlib.Algebra.BigOperators.Fin
import Mathlib.Algebra.Order.BigOperators.Ring.Finset
import Mathlib.Tactic.Field
import Tenzor.Optim.Schedulers

/-!
# Chains of schedulers

Six schedulers scale the learning rate that the optimizer had when they were built. Three of them
also write the scaled rate at once, so that what is built later starts from another rate. A chain
takes its children's rates for multiples of one base.

## Implementation notes

`initial` is what a constructor scales the rate by, `factor` what the scheduler has scaled it by
after so many steps.
-/

open Function (update update_of_ne update_self)

namespace Tenzor.Optim

open Throwing List
open Finset (card_univ prod_congr prod_const prod_range)

variable {K : Type}

/-! ## Schedulers that scale a rate -/

variable (K) in
inductive FactorScheduler
  | stepLR (stepSize : ℤ) (gamma : K)
  | exponentialLR (gamma : K)
  | constantLR (factor : K) (totalIters : ℤ)
  | linearLR (startFactor endFactor : K) (totalIters : ℤ)
  | multiStepLR (milestones : List ℤ) (gamma : K)
  | lambdaLR (lrLambda : ℕ → K) (name : String)

namespace FactorScheduler

variable [Field K] {k : FactorScheduler K}

/-- What the constructor multiplies the optimizer's rate by. -/
def initial : FactorScheduler K → K
  | constantLR factor _ => factor
  | linearLR startFactor _ _ => startFactor
  | lambdaLR lrLambda _ => lrLambda 0
  | _ => 1

def stepped : FactorScheduler K → ℕ → K
  | stepLR stepSize gamma, epoch => gamma ^ (epoch : ℤ).tdiv stepSize
  | exponentialLR gamma, epoch => gamma ^ epoch
  | constantLR factor totalIters, epoch => if totalIters ≤ epoch then 1 else factor
  | linearLR startFactor endFactor totalIters, epoch =>
    if totalIters ≤ epoch then endFactor
    else startFactor + (endFactor - startFactor) * (epoch / totalIters)
  | multiStepLR milestones gamma, epoch =>
    gamma ^ ((milestones.insertionSort (· ≤ ·)).takeWhile (· ≤ (epoch : ℤ))).length
  | lambdaLR lrLambda _, epoch => lrLambda epoch

def factor (k : FactorScheduler K) : ℕ → K
  | 0 => k.initial
  | n + 1 => k.stepped (n + 1)

/-- What a step looks at before it computes a rate. -/
def check : FactorScheduler K → Except Exn Unit
  | stepLR stepSize _ =>
    throwIf (stepSize = 0) (.runtimeError "StepLR: step_size cannot be zero")
  | _ => .ok ()

/-- A `StepLR` of step size zero throws at every step. -/
def CanStep (k : FactorScheduler K) : Prop := k.check = .ok ()

def typeName : FactorScheduler K → String
  | stepLR .. => "StepLR"
  | exponentialLR .. => "ExponentialLR"
  | constantLR .. => "ConstantLR"
  | linearLR .. => "LinearLR"
  | multiStepLR .. => "MultiStepLR"
  | lambdaLR .. => "LambdaLR"

def lambdaName : FactorScheduler K → Option String
  | lambdaLR _ name => some name
  | _ => none

def scheduler (k : FactorScheduler K) : LRScheduler K :=
  (epochScheduler k.typeName k.lambdaName fun baseLr epoch => do
    k.check
    return baseLr * k.stepped epoch).scheduler

/-- The constructor: the fields, and the rate it leaves in the optimizer. -/
def construct (k : FactorScheduler K) (lr : K) : EpochFields K × K :=
  (⟨lr, lr * k.initial, 0⟩, lr * k.initial)

/-- The fields after `n` steps from a base rate. -/
def fieldsAfter (k : FactorScheduler K) (baseLr : K) (n : ℕ) : EpochFields K :=
  ⟨baseLr, baseLr * k.factor n, n⟩

theorem step_fieldsAfter (h : k.CanStep) (baseLr lr : K) (n : ℕ) :
    k.scheduler.step (k.fieldsAfter baseLr n, lr) =
      .ok (k.fieldsAfter baseLr (n + 1), baseLr * k.factor (n + 1)) := by
  have hcheck : k.check = .ok () := h
  simp only [scheduler, SimpleScheduler.scheduler, epochScheduler, hcheck]
  rfl

theorem canStep_of_step {p q : k.scheduler.State × K} (h : k.scheduler.step p = .ok q) :
    k.CanStep := by
  obtain ⟨s, hs, -⟩ := bind_eq_ok.mp h
  obtain ⟨lr, hlr, -⟩ := bind_eq_ok.mp hs
  obtain ⟨u, hu, -⟩ := bind_eq_ok.mp hlr
  exact hu

end FactorScheduler

theorem LRScheduler.stepTimes_succ (s : LRScheduler K) (n : ℕ) (p : s.State × K) :
    s.stepTimes (n + 1) p = (s.stepTimes n p >>= s.step) := by
  induction n generalizing p with
  | zero =>
    change (s.step p >>= fun q => .ok q) = s.step p
    cases s.step p <;> rfl
  | succ n ih =>
    calc
      s.stepTimes (n + 1 + 1) p = (s.step p >>= fun q => s.stepTimes (n + 1) q) := rfl
      _ = (s.step p >>= fun q => s.stepTimes n q >>= s.step) := by
        congr 1
        funext q
        exact ih q
      _ = ((s.step p >>= fun q => s.stepTimes n q) >>= s.step) := by
        cases s.step p <;> rfl

/-- A scheduler by itself multiplies its base rate by its factor. -/
theorem FactorScheduler.stepTimes_alone [Field K] {k : FactorScheduler K} (h : k.CanStep) (lr : K)
    (n : ℕ) :
    k.scheduler.stepTimes n (k.construct lr) = .ok (k.fieldsAfter lr n, lr * k.factor n) := by
  induction n with
  | zero => rfl
  | succ n ih =>
    calc
      k.scheduler.stepTimes (n + 1) (k.construct lr) =
          (k.scheduler.stepTimes n (k.construct lr) >>= k.scheduler.step) :=
        LRScheduler.stepTimes_succ _ n _
      _ = k.scheduler.step (k.fieldsAfter lr n, lr * k.factor n) :=
        congrArg (· >>= k.scheduler.step) ih
      _ = .ok (k.fieldsAfter lr (n + 1), lr * k.factor (n + 1)) := step_fieldsAfter h ..

/-! ## A chain -/

section Chain

variable [Field K] {m : ℕ} (children : Fin (m + 1) → FactorScheduler K)

/-- The fields of all children, each after its own number of steps. -/
def childrenAfter (base : Fin (m + 1) → K) (times : Fin (m + 1) → ℕ) :
    ChildStates fun i => (children i).scheduler :=
  fun i => (children i).fieldsAfter (base i) (times i)

variable {children} {base : Fin (m + 1) → K} {times : Fin (m + 1) → ℕ} {i : Fin (m + 1)}
  {l : List (Fin (m + 1))} {lr : K}

theorem stepChild_after (h : (children i).CanStep) (lr : K) :
    stepChild (childrenAfter children base times, lr) i =
      .ok (childrenAfter children base (update times i (times i + 1)),
        base i * (children i).factor (times i + 1)) := by
  have hstates : update (childrenAfter children base times) i
      ((children i).fieldsAfter (base i) (times i + 1)) =
        childrenAfter children base (update times i (times i + 1)) := by
    funext j
    by_cases hj : j = i
    · subst hj
      refine (update_self j _ _).trans ?_
      rw [childrenAfter, update_self]
    · refine (update_of_ne hj _ _).trans ?_
      rw [childrenAfter, childrenAfter, update_of_ne hj]
  rw [← hstates]
  exact congrArg (fun x => x >>= fun q => Except.ok
    (update (childrenAfter children base times) i q.1, q.2))
      (FactorScheduler.step_fieldsAfter h (base i) lr (times i))

/-- The children of a list take one step more. -/
theorem update_then {t : ℕ} (hi : times i = t) :
    (fun j => if j ∈ l then t + 1 else update times i (times i + 1) j) =
      fun j => if j ∈ i :: l then t + 1 else times j := by
  funext j
  by_cases hj : j = i
  · subst hj
    simp [hi]
  · simp [hj]

theorem foldlM_stepFactor {t : ℕ} (baseLr : K) {l : List (Fin (m + 1))} (hnodup : l.Nodup)
    (hcan : ∀ i ∈ l, (children i).CanStep) (htimes : ∀ i ∈ l, times i = t) (lr product : K) :
    ∃ lr', l.foldlM (stepFactor baseLr) ((childrenAfter children base times, lr), product) =
      .ok ((childrenAfter children base fun i => if i ∈ l then t + 1 else times i, lr'),
        product * (l.map fun i => base i * (children i).factor (t + 1) / baseLr).prod) := by
  induction l generalizing times lr product with
  | nil => exact ⟨lr, by simp⟩
  | cons i l ih =>
    obtain ⟨hi, hl⟩ := nodup_cons.mp hnodup
    obtain ⟨hcani, hcanl⟩ := forall_mem_cons.mp hcan
    obtain ⟨hti, htl⟩ := forall_mem_cons.mp htimes
    have htimes' : ∀ j ∈ l, update times i (times i + 1) j = t := by
      intro j hj
      rw [update_of_ne (ne_of_mem_of_not_mem hj hi)]
      exact htl j hj
    have hfirst : stepFactor baseLr ((childrenAfter children base times, lr), product) i =
        .ok ((childrenAfter children base (update times i (times i + 1)),
          base i * (children i).factor (t + 1)),
            product * (base i * (children i).factor (t + 1) / baseLr)) := by
      rw [← hti]
      exact congrArg (fun x => x >>= fun q => Except.ok (q, product * (q.2 / baseLr)))
        (stepChild_after hcani baseLr)
    obtain ⟨lr', hrest⟩ := ih hl hcanl htimes' (base i * (children i).factor (t + 1))
      (product * (base i * (children i).factor (t + 1) / baseLr))
    refine ⟨lr', ?_⟩
    rw [foldlM_cons_eq_ok]
    refine ⟨_, hfirst, ?_⟩
    rw [hrest, update_then hti, map_cons, prod_cons, mul_assoc]

theorem foldlM_stepChild {t : ℕ} {l : List (Fin (m + 1))} (hnodup : l.Nodup)
    (hcan : ∀ i ∈ l, (children i).CanStep) (htimes : ∀ i ∈ l, times i = t) (lr : K) :
    l.foldlM stepChild (childrenAfter children base times, lr) =
      .ok (childrenAfter children base fun i => if i ∈ l then t + 1 else times i,
        (l.map fun i => base i * (children i).factor (t + 1)).getLastD lr) := by
  induction l generalizing times lr with
  | nil => simp
  | cons i l ih =>
    obtain ⟨hi, hl⟩ := nodup_cons.mp hnodup
    obtain ⟨hcani, hcanl⟩ := forall_mem_cons.mp hcan
    obtain ⟨hti, htl⟩ := forall_mem_cons.mp htimes
    have htimes' : ∀ j ∈ l, update times i (times i + 1) j = t := by
      intro j hj
      rw [update_of_ne (ne_of_mem_of_not_mem hj hi)]
      exact htl j hj
    rw [foldlM_cons_eq_ok]
    refine ⟨_, stepChild_after hcani lr, ?_⟩
    rw [ih hl hcanl htimes', update_then hti, hti, map_cons, getLastD_cons]

omit [Field K] in
theorem canStep_of_foldlM {σ : Type} {f : σ → Fin (m + 1) → Except Exn σ}
    (hf : ∀ s i s', f s i = .ok s' → (children i).CanStep) {s s' : σ} (h : l.foldlM f s = .ok s') :
    ∀ i ∈ l, (children i).CanStep := by
  induction l generalizing s with
  | nil => exact nofun
  | cons i l ih =>
    obtain ⟨mid, hi, hl⟩ := foldlM_cons_eq_ok.mp h
    exact forall_mem_cons.mpr ⟨hf s i mid hi, ih hl⟩

variable [LinearOrder K]

variable (children) in
def chain : LRScheduler K := ChainedScheduler fun i => (children i).scheduler

/-- The base that a step of the chain divides by. -/
def baseOf (own : ChainedFields K) (live : K) : K :=
  if own.chainedBaseLr < 0 then live else own.chainedBaseLr

/-- What the chain writes: the last child's rate if there is no base, else the product. -/
def written (children : Fin (m + 1) → FactorScheduler K) (base : Fin (m + 1) → K) (t : ℕ)
    (baseLr : K) : K :=
  if baseLr = 0 then base (Fin.last m) * (children (Fin.last m)).factor t
  else baseLr * ∏ i, base i * (children i).factor t / baseLr

/-- The chain's own fields after a step that writes `lr`. -/
def ownAfter (own : ChainedFields K) (live lr : K) : ChainedFields K :=
  ⟨lr, if baseOf own live = 0 then own.chainedBaseLr else baseOf own live⟩

theorem step_chain_eq (own : ChainedFields K)
    (states : ChildStates fun i => (children i).scheduler) (live : K) :
    (chain children).step ((own, states), live) =
      if baseOf own live = 0 then do
        let q ← stepAll (states, live)
        return (({ own with lastLr := q.2 }, q.1), q.2)
      else do
        let acc ← (List.finRange (m + 1)).foldlM (stepFactor (baseOf own live)) ((states, live), 1)
        let finalLr := baseOf own live * acc.2
        return (({ lastLr := finalLr, chainedBaseLr := baseOf own live }, acc.1.1), finalLr) := by
  have hopt : ¬ ∀ i, ((children i).scheduler).hasOptimizer = false := fun h => nomatch h 0
  exact if_neg hopt

theorem step_chain (hcan : ∀ i, (children i).CanStep) (own : ChainedFields K) (live : K) (t : ℕ) :
    let lr := written children base (t + 1) (baseOf own live)
    (chain children).step ((own, childrenAfter children base fun _ => t), live) =
      .ok ((ownAfter own live lr, childrenAfter children base fun _ => t + 1), lr) := by
  have hnodup := nodup_finRange (m + 1)
  have hall : ∀ i ∈ List.finRange (m + 1), (children i).CanStep := fun i _ => hcan i
  have hfinal : (fun i : Fin (m + 1) => if i ∈ List.finRange (m + 1) then t + 1 else t) =
      fun _ => t + 1 := by
    funext i
    exact if_pos (mem_finRange i)
  intro lr
  rw [step_chain_eq]
  by_cases hzero : baseOf own live = 0
  · have hrun := @foldlM_stepChild K _ m children base (fun _ => t) t _ hnodup hall
      (fun _ _ => rfl) live
    have hlast : ((List.finRange (m + 1)).map fun i =>
        base i * (children i).factor (t + 1)).getLastD live = lr := by
      rw [finRange_succ_last, map_append, map_singleton, getLastD_concat]
      exact (if_pos hzero).symm
    rw [hfinal, hlast] at hrun
    rw [if_pos hzero, stepAll, hrun, ownAfter, if_pos hzero]
    rfl
  · obtain ⟨lr', hrun⟩ := @foldlM_stepFactor K _ m children base (fun _ => t) t (baseOf own live) _
      hnodup hall (fun _ _ => rfl) live 1
    have hprod : baseOf own live * ((List.finRange (m + 1)).map fun i =>
        base i * (children i).factor (t + 1) / baseOf own live).prod = lr := by
      exact (if_neg hzero).symm
    rw [hfinal, one_mul] at hrun
    rw [if_neg hzero, hrun, ownAfter, if_neg hzero, ← hprod]
    rfl

theorem canStep_of_step_chain {p q : (chain children).State × K}
    (h : (chain children).step p = .ok q) (i : Fin (m + 1)) : (children i).CanStep := by
  have hchild : ∀ (s : ChildStates (fun i => (children i).scheduler) × K) i s',
      stepChild s i = .ok s' → (children i).CanStep := by
    intro s i s' hs
    obtain ⟨r, hr, -⟩ := bind_eq_ok.mp hs
    exact FactorScheduler.canStep_of_step hr
  have hfactor : ∀ baseLr (s : (ChildStates (fun i => (children i).scheduler) × K) × K) i s',
      stepFactor baseLr s i = .ok s' → (children i).CanStep := by
    intro baseLr s i s' hs
    obtain ⟨r, hr, -⟩ := bind_eq_ok.mp hs
    exact hchild _ i _ hr
  obtain ⟨⟨own, states⟩, live⟩ := p
  rw [step_chain_eq] at h
  split_ifs at h
  · obtain ⟨r, hr, -⟩ := bind_eq_ok.mp h
    exact canStep_of_foldlM hchild hr i (mem_finRange i)
  · obtain ⟨r, hr, -⟩ := bind_eq_ok.mp h
    exact canStep_of_foldlM (hfactor _) hr i (mem_finRange i)

/-! ## Children built one after another -/

/-- The rate that the constructors before the `i`-th leave. -/
def rateBefore (children : Fin (m + 1) → FactorScheduler K) (lr : K) (i : ℕ) : K :=
  ((List.ofFn children).take i).foldl (fun lr k => (k.construct lr).2) lr

/-- A chain over children that were built in order on one optimizer. -/
def built (children : Fin (m + 1) → FactorScheduler K) (lr : K) : (chain children).State × K :=
  ((⟨0, -1⟩, fun i => ((children i).construct (rateBefore children lr i)).1),
    rateBefore children lr (m + 1))

/-- The factor of the `j`-th constructor. -/
def initialAt (children : Fin (m + 1) → FactorScheduler K) (j : ℕ) : K :=
  if h : j < m + 1 then (children ⟨j, h⟩).initial else 1

omit [LinearOrder K] in
theorem initialAt_fin (i : Fin (m + 1)) : initialAt children i = (children i).initial :=
  dif_pos i.isLt

omit [LinearOrder K] in
theorem rateBefore_eq (lr : K) {i : ℕ} (hi : i ≤ m + 1) :
    rateBefore children lr i = lr * ∏ j ∈ Finset.range i, initialAt children j := by
  induction i with
  | zero => simp [rateBefore]
  | succ i ih =>
    have hlt : i < (List.ofFn children).length := by
      rw [length_ofFn]
      exact hi
    have hinitial : initialAt children i = ((List.ofFn children)[i]).initial := by
      rw [List.getElem_ofFn]
      exact dif_pos hi
    calc
      rateBefore children lr (i + 1) = rateBefore children lr i * initialAt children i := by
        rw [rateBefore, take_succ_eq_append_getElem hlt, List.foldl_concat, hinitial]
        rfl
      _ = lr * ∏ j ∈ Finset.range (i + 1), initialAt children j := by
        rw [ih (by omega), Finset.prod_range_succ, mul_assoc]

/-- The fields of the children that were built in order, after `t` steps. -/
def builtAfter (children : Fin (m + 1) → FactorScheduler K) (lr : K) (t : ℕ) :
    ChildStates fun i => (children i).scheduler :=
  childrenAfter children (fun i => rateBefore children lr i) fun _ => t

def writtenAfter (children : Fin (m + 1) → FactorScheduler K) (lr : K) (t : ℕ) (baseLr : K) : K :=
  written children (fun i => rateBefore children lr i) t baseLr

theorem step_built (hcan : ∀ i, (children i).CanStep) (lr : K) (own : ChainedFields K) (live : K)
    (t : ℕ) :
    (chain children).step ((own, builtAfter children lr t), live) =
      .ok ((ownAfter own live (writtenAfter children lr (t + 1) (baseOf own live)),
        builtAfter children lr (t + 1)), writtenAfter children lr (t + 1) (baseOf own live)) :=
  step_chain hcan own live t

theorem run_chain (hcan : ∀ i, (children i).CanStep) (lr : K) (t : ℕ) :
    ∃ own live, (chain children).stepTimes t (built children lr) =
      .ok ((own, builtAfter children lr t), live) := by
  induction t with
  | zero => exact ⟨_, _, rfl⟩
  | succ t ih =>
    obtain ⟨own, live, hrun⟩ := ih
    rw [LRScheduler.stepTimes_succ, hrun]
    exact ⟨_, _, step_built hcan lr own live t⟩

/-- The chain leaves the rate times the factors of all children. -/
def Multiplies (children : Fin (m + 1) → FactorScheduler K) (lr : K) (n : ℕ) : Prop :=
  ∃ p, (chain children).stepTimes n (built children lr) = .ok p ∧
    p.2 = lr * ∏ i, (children i).factor n

/-- What the law asks of the base that the step divides by. -/
def Divides (children : Fin (m + 1) → FactorScheduler K) (lr : K) (n : ℕ) (baseLr : K) : Prop :=
  if baseLr = 0 then
    rateBefore children lr m * (children (Fin.last m)).factor n = lr * ∏ i, (children i).factor n
  else (∃ i, (children i).factor n = 0) ∨
    ∏ i : Fin (m + 1), rateBefore children lr i = lr * baseLr ^ m

theorem multiplies_zero (lr : K) : Multiplies children lr 0 := by
  refine ⟨built children lr, rfl, ?_⟩
  change rateBefore children lr (m + 1) = _
  rw [rateBefore_eq lr le_rfl, prod_range]
  congr 1
  exact prod_congr rfl fun i _ => initialAt_fin i

theorem written_eq_iff (lr baseLr : K) (t : ℕ) :
    writtenAfter children lr t baseLr = lr * ∏ i, (children i).factor t ↔ Divides children lr t baseLr := by
  unfold writtenAfter written Divides
  split_ifs with hzero
  · rfl
  · have hpow : baseLr ^ m ≠ 0 := pow_ne_zero m hzero
    have hproduct : baseLr * ∏ i : Fin (m + 1), rateBefore children lr i *
        (children i).factor t / baseLr =
          (∏ i : Fin (m + 1), rateBefore children lr i) * (∏ i, (children i).factor t) /
            baseLr ^ m := by
      rw [Finset.prod_div_distrib, Finset.prod_mul_distrib, prod_const, card_univ,
        Fintype.card_fin]
      field
    rw [hproduct, div_eq_iff hpow, mul_right_comm, mul_eq_mul_right_iff, Finset.prod_eq_zero_iff,
      or_comm]
    simp

/-- The law holds after a step exactly if it divides by the right base. -/
theorem multiplies_succ_iff (lr : K) (n : ℕ) :
    Multiplies children lr (n + 1) ↔ (∀ i, (children i).CanStep) ∧
      ∃ p, (chain children).stepTimes n (built children lr) = .ok p ∧
        Divides children lr (n + 1) (baseOf p.1.1 p.2) := by
  constructor
  · rintro ⟨q, hq, heq⟩
    rw [LRScheduler.stepTimes_succ] at hq
    obtain ⟨p, hp, hstep⟩ := bind_eq_ok.mp hq
    have hcan := canStep_of_step_chain hstep
    obtain ⟨own, live, hrun⟩ := run_chain hcan lr n
    obtain rfl := Except.ok.inj (hrun.symm.trans hp)
    obtain rfl := Except.ok.inj ((step_built hcan lr own live n).symm.trans hstep)
    exact ⟨hcan, _, hrun, (written_eq_iff lr _ _).mp heq⟩
  · rintro ⟨hcan, p, hp, hdivides⟩
    obtain ⟨own, live, hrun⟩ := run_chain hcan lr n
    obtain rfl := Except.ok.inj (hrun.symm.trans hp)
    have hstep := step_built hcan lr own live n
    have htimes : (chain children).stepTimes (n + 1) (built children lr) =
        (chain children).step ((own, builtAfter children lr n), live) := by
      rw [LRScheduler.stepTimes_succ, hrun]
      rfl
    exact ⟨_, htimes.trans hstep, (written_eq_iff lr _ _).mpr hdivides⟩

/-- The products of the first elements, and what they lack of the power of the whole product. -/
theorem prod_prefixes {M : Type*} [CommMonoid M] (x : ℕ → M) (m : ℕ) :
    (∏ i ∈ Finset.range (m + 1), ∏ j ∈ Finset.range i, x j) * ∏ j ∈ Finset.range (m + 1), x j ^ j =
      (∏ j ∈ Finset.range (m + 1), x j) ^ m := by
  induction m with
  | zero => simp
  | succ m ih =>
    rw [Finset.prod_range_succ _ (m + 1), Finset.prod_range_succ (fun j => x j ^ j),
      Finset.prod_range_succ x (m + 1), mul_mul_mul_comm, ih, ← mul_assoc, ← pow_succ, ← mul_pow]

variable [IsStrictOrderedRing K]

/-- A positive rate is the base from the first step on. -/
theorem baseOf_run (hcan : ∀ i, (children i).CanStep) (hpos : 0 < rateBefore children lr (m + 1))
    (t : ℕ) :
    ∃ own live, (chain children).stepTimes t (built children lr) =
      .ok ((own, builtAfter children lr t), live) ∧
        baseOf own live = rateBefore children lr (m + 1) := by
  induction t with
  | zero =>
    refine ⟨_, _, rfl, if_pos ?_⟩
    exact neg_one_lt_zero
  | succ t ih =>
    obtain ⟨own, live, hrun, hbase⟩ := ih
    rw [LRScheduler.stepTimes_succ, hrun]
    refine ⟨_, _, step_built hcan lr own live t, ?_⟩
    rw [ownAfter, hbase, if_neg hpos.ne', baseOf, if_neg hpos.le.not_gt]

/-- With positive rates the law asks for a product of powers of the constructors' factors. -/
theorem divides_of_pos (hpos : ∀ i, 0 < (children i).initial) (hlr : 0 < lr) (n : ℕ) :
    Divides children lr n (rateBefore children lr (m + 1)) ↔
      (∃ i, (children i).factor n = 0) ∨ ∏ i, (children i).initial ^ (i : ℕ) = 1 := by
  have hx : ∀ j, 0 < initialAt children j := by
    intro j
    unfold initialAt
    split_ifs with hj
    · exact hpos ⟨j, hj⟩
    · exact one_pos
  have hprefix : 0 < ∏ i ∈ Finset.range (m + 1), ∏ j ∈ Finset.range i, initialAt children j :=
    Finset.prod_pos fun i _ => Finset.prod_pos fun j _ => hx j
  have hbase : rateBefore children lr (m + 1) ≠ 0 := by
    rw [rateBefore_eq lr le_rfl]
    exact (mul_pos hlr (Finset.prod_pos fun j _ => hx j)).ne'
  have hrates : ∏ i : Fin (m + 1), rateBefore children lr i =
      lr ^ (m + 1) * ∏ i ∈ Finset.range (m + 1), ∏ j ∈ Finset.range i, initialAt children j := by
    calc
      ∏ i : Fin (m + 1), rateBefore children lr i =
          ∏ i : Fin (m + 1), lr * ∏ j ∈ Finset.range i, initialAt children j :=
        prod_congr rfl fun i _ => rateBefore_eq lr i.isLt.le
      _ = lr ^ (m + 1) *
          ∏ i ∈ Finset.range (m + 1), ∏ j ∈ Finset.range i, initialAt children j := by
        rw [Finset.prod_mul_distrib, prod_const, card_univ, Fintype.card_fin,
          prod_range fun i => ∏ j ∈ Finset.range i, initialAt children j]
  have hpowers : ∏ j ∈ Finset.range (m + 1), initialAt children j ^ j =
      ∏ i, (children i).initial ^ (i : ℕ) := by
    rw [prod_range]
    exact prod_congr rfl fun i _ => by rw [initialAt_fin]
  rw [Divides, if_neg hbase, hrates, rateBefore_eq lr le_rfl, mul_pow, ← mul_assoc, ← pow_succ',
    mul_right_inj' (pow_pos hlr _).ne', ← prod_prefixes, hpowers, left_eq_mul₀ hprefix.ne']

/-- The chain leaves the product of the factors exactly where no constructor has moved the base:
generally after a step that divides by the right base, and with positive initial factors exactly
where their product, each to the power of its place, is one. -/
theorem multiplies_iff (children : Fin (m + 1) → FactorScheduler K) {lr : K} (hlr : 0 < lr) (n : ℕ) :
    (Multiplies children lr n ↔ n = 0 ∨ (∀ i, (children i).CanStep) ∧
      ∃ p, (chain children).stepTimes (n - 1) (built children lr) = .ok p ∧
        Divides children lr n (baseOf p.1.1 p.2)) ∧
    ((∀ i, 0 < (children i).initial) → (Multiplies children lr n ↔ n = 0 ∨
      (∀ i, (children i).CanStep) ∧
        ((∃ i, (children i).factor n = 0) ∨ ∏ i, (children i).initial ^ (i : ℕ) = 1))) ∧
    ∀ i, (children i).CanStep → (children i).scheduler.stepTimes n ((children i).construct lr) =
      .ok ((children i).fieldsAfter lr n, lr * (children i).factor n) := by
  cases n with
  | zero =>
    have hzero : Multiplies children lr 0 := multiplies_zero lr
    exact ⟨iff_of_true hzero (Or.inl rfl), fun _ => iff_of_true hzero (Or.inl rfl),
      fun i h => FactorScheduler.stepTimes_alone h lr 0⟩
  | succ n =>
    have hne : n + 1 ≠ 0 := n.succ_ne_zero
    refine ⟨?_, fun hpos => ?_, fun i h => FactorScheduler.stepTimes_alone h lr (n + 1)⟩
    · rw [or_iff_right hne]
      exact multiplies_succ_iff lr n
    · rw [or_iff_right hne, multiplies_succ_iff, ← divides_of_pos hpos hlr]
      refine and_congr_right fun hcan => ?_
      have hrate : 0 < rateBefore children lr (m + 1) := by
        rw [rateBefore_eq lr le_rfl]
        refine mul_pos hlr (Finset.prod_pos fun j hj => ?_)
        have hinitial : initialAt children j = _ := initialAt_fin ⟨j, Finset.mem_range.mp hj⟩
        exact hinitial.symm ▸ hpos _
      obtain ⟨own, live, hrun, hbase⟩ := baseOf_run hcan hrate n
      rw [hrun]
      constructor
      · rintro ⟨p, hp, hdivides⟩
        obtain rfl := Except.ok.inj hp
        exact hbase ▸ hdivides
      · exact fun hdivides => ⟨_, rfl, hbase.symm ▸ hdivides⟩

/-- A rate that stays, and one that is halved for ten steps. -/
def stayThenHalve : Fin 2 → FactorScheduler ℚ
  | 0 => .exponentialLR 1
  | 1 => .constantLR (1 / 2) 10

/-- The other way round. -/
def halveThenStay : Fin 2 → FactorScheduler ℚ
  | 0 => .constantLR (1 / 2) 10
  | 1 => .exponentialLR 1

end Chain

theorem multiplies_halveThenStay : Multiplies halveThenStay 1 3 := by
  have hiff := (multiplies_iff halveThenStay one_pos 3).2.1
    (Fin.forall_fin_two.mpr ⟨one_half_pos, one_pos⟩)
  have hpowers : ∏ i : Fin 2, (halveThenStay i).initial ^ (i : ℕ) = 1 := by
    norm_num [halveThenStay, FactorScheduler.initial]
  exact hiff.mpr (Or.inr ⟨Fin.forall_fin_two.mpr ⟨rfl, rfl⟩, Or.inr hpowers⟩)

/-- The optimizer is at one half, and the first step puts it back to one. -/
theorem not_multiplies_stayThenHalve :
    (built stayThenHalve 1).2 = 1 / 2 ∧
      (∃ p, (chain stayThenHalve).stepTimes 1 (built stayThenHalve 1) = .ok p ∧ p.2 = 1) ∧
      (1 : ℚ) * ∏ i, (stayThenHalve i).factor 1 = 1 / 2 ∧ ¬ Multiplies stayThenHalve 1 1 := by
  have hcan : ∀ i, (stayThenHalve i).CanStep := Fin.forall_fin_two.mpr ⟨rfl, rfl⟩
  have hlive : rateBefore stayThenHalve 1 2 = 1 / 2 := by decide +kernel
  have hrun : ∃ p, (chain stayThenHalve).stepTimes 1 (built stayThenHalve 1) = .ok p ∧ p.2 = 1 := by
    refine ⟨_, congrArg (· >>= Except.ok) (step_built hcan 1 ⟨0, -1⟩ _ 0), ?_⟩
    decide +kernel
  have hfactors : (1 : ℚ) * ∏ i, (stayThenHalve i).factor 1 = 1 / 2 := by
    norm_num [stayThenHalve, FactorScheduler.factor, FactorScheduler.stepped]
  refine ⟨hlive, hrun, hfactors, ?_⟩
  rintro ⟨p, hp, hlr⟩
  obtain ⟨q, hq, hone⟩ := hrun
  obtain rfl := Except.ok.inj (hp.symm.trans hq)
  rw [hone, hfactors] at hlr
  norm_num at hlr

end Tenzor.Optim
