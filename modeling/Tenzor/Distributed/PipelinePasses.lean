import Tenzor.Distributed.Pipeline

/-!
# The passes of the schedules

Both schedules run the forward passes in order, and every backward pass after the
forward pass of its micro-batch: GPipe from the last micro-batch to the first, 1F1B
from the first to the last.
-/

namespace Tenzor.Pipeline

open List
open Function (iterate_succ_apply iterate_succ_apply')

/-- The passes lead from `n` finished forward passes to `n'`, and take the backward passes from
the front of `todo`, whose rest is `todo'`. -/
inductive Follows : ℕ → List ℕ → List Pass → ℕ → List ℕ → Prop
  | nil (n : ℕ) (todo : List ℕ) : Follows n todo [] n todo
  | forward {n n' : ℕ} {todo todo' : List ℕ} {ps : List Pass} (h : Follows (n + 1) todo ps n' todo') :
      Follows n todo (.forward n :: ps) n' todo'
  | backward {n n' mb : ℕ} {todo todo' : List ℕ} {ps : List Pass} (hmb : mb < n)
      (h : Follows n todo ps n' todo') : Follows n (mb :: todo) (.backward mb :: ps) n' todo'

namespace Follows

theorem append {n n' n'' : ℕ} {todo todo' todo'' : List ℕ} {ps qs : List Pass}
    (h : Follows n todo ps n' todo') (h' : Follows n' todo' qs n'' todo'') :
    Follows n todo (ps ++ qs) n'' todo'' := by
  induction h with
  | nil => exact h'
  | forward _ ih => exact .forward (ih h')
  | backward hmb _ ih => exact .backward hmb (ih h')

theorem forwards (n k : ℕ) (todo : List ℕ) :
    Follows n todo ((List.range' n k).map .forward) (n + k) todo := by
  induction k generalizing n with
  | zero => exact .nil _ _
  | succ k ih =>
    have hrest := ih (n + 1)
    rw [Nat.add_assoc, Nat.add_comm 1 k] at hrest
    exact .forward hrest

theorem backwards {n : ℕ} {mbs todo : List ℕ} (h : ∀ mb ∈ mbs, mb < n) :
    Follows n (mbs ++ todo) (mbs.map .backward) n todo := by
  induction mbs with
  | nil => exact .nil _ _
  | cons mb rest ih =>
    obtain ⟨hmb, hrest⟩ := forall_mem_cons.mp h
    exact .backward hmb (ih hrest)

/-- Every forward pass between the two is made. -/
theorem forward_mem {n n' mb : ℕ} {todo todo' : List ℕ} {ps : List Pass}
    (h : Follows n todo ps n' todo') (hle : n ≤ mb) (hlt : mb < n') : .forward mb ∈ ps := by
  induction h with
  | nil => omega
  | forward _ ih =>
    obtain rfl | hnext := hle.eq_or_lt
    · exact mem_cons_self
    · exact mem_cons_of_mem _ (ih hnext hlt)
  | backward _ _ ih => exact mem_cons_of_mem _ (ih hle hlt)

end Follows

theorem GPipe.follows (m : ℕ) : Follows 0 (List.range m).reverse (GPipe.passes m) m [] := by
  have hfwd := Follows.forwards 0 m (List.range m).reverse
  rw [Nat.zero_add, ← range_eq_range'] at hfwd
  have hbwd : Follows m ((List.range m).reverse ++ []) ((List.range m).reverse.map .backward) m [] :=
    Follows.backwards fun mb hmb => mem_range.mp (mem_reverse.mp hmb)
  rw [append_nil] at hbwd
  exact hfwd.append hbwd

namespace OneFOneB

variable {m : ℕ} {st : Progress} {b numStages stage : ℕ}

/-- The queue holds the micro-batches between the next backward and the next forward pass. -/
structure Progress.Valid (m b : ℕ) (st : Progress) : Prop where
  le_fwd : b ≤ st.fwdMb
  fwd_le : st.fwdMb ≤ m
  queue_eq : st.backwardQueue = List.range' b (st.fwdMb - b)
  follows : Follows 0 (List.range m) st.passes st.fwdMb (List.range' b (m - b))

theorem valid_start (m : ℕ) : Progress.Valid m 0 {} where
  le_fwd := le_refl _
  fwd_le := Nat.zero_le _
  queue_eq := rfl
  follows := by
    rw [← range_eq_range']
    exact .nil _ _

theorem Progress.Valid.warmupStep (h : st.Valid m b) : (warmupStep m st).Valid m b := by
  unfold OneFOneB.warmupStep
  split
  · next hlt =>
    have hle := h.le_fwd
    refine ⟨Nat.le_succ_of_le hle, hlt, ?_, h.follows.append (.forward (.nil _ _))⟩
    have hlast : b + (st.fwdMb - b) = st.fwdMb := by omega
    rw [h.queue_eq, Nat.succ_sub hle, range'_1_concat, hlast]
  · exact h

theorem Progress.Valid.steadyStep (h : st.Valid m b) : ∃ b', (steadyStep m st).Valid m b' := by
  unfold OneFOneB.steadyStep
  split
  · next hlt =>
    have hle := h.le_fwd
    have hqueue : st.backwardQueue ++ [st.fwdMb] = b :: List.range' (b + 1) (st.fwdMb - b) := by
      have hlast : b + (st.fwdMb - b) = st.fwdMb := by omega
      rw [h.queue_eq, ← range'_succ, range'_1_concat, hlast]
    rw [hqueue]
    refine ⟨b + 1, Nat.succ_le_succ hle, hlt, ?_, ?_⟩
    · rw [Nat.succ_sub_succ]
    · have hfollows := h.follows
      have htodo : List.range' b (m - b) = b :: List.range' (b + 1) (m - (b + 1)) := by
        rw [← range'_succ]
        congr 1
        omega
      rw [htodo] at hfollows
      exact hfollows.append (.forward (.backward (Nat.lt_succ_of_le hle) (.nil _ _)))
  · exact ⟨b, h⟩

theorem valid_warmup (m numStages stage : ℕ) : (warmup m numStages stage).Valid m 0 := by
  unfold warmup
  generalize numWarmup numStages stage = k
  induction k with
  | zero => exact valid_start m
  | succ k ih =>
    rw [iterate_succ_apply']
    exact ih.warmupStep

theorem valid_steady (m numStages stage : ℕ) : ∃ b, (steady m numStages stage).Valid m b := by
  unfold steady
  generalize numSteady m numStages stage = k
  induction k with
  | zero => exact ⟨0, valid_warmup m numStages stage⟩
  | succ k ih =>
    obtain ⟨b, hb⟩ := ih
    rw [iterate_succ_apply']
    exact hb.steadyStep

theorem fwdMb_warmup (m numStages stage : ℕ) :
    (warmup m numStages stage).fwdMb = min m (numWarmup numStages stage) := by
  unfold warmup
  generalize numWarmup numStages stage = k
  induction k with
  | zero => exact (Nat.min_zero m).symm
  | succ k ih =>
    rw [iterate_succ_apply', warmupStep]
    split
    · next hlt =>
      simp only [ih]
      omega
    · next hge =>
      omega

theorem fwdMb_steady (m numStages stage : ℕ) : (steady m numStages stage).fwdMb = m := by
  have hstep : ∀ k (st : Progress), st.fwdMb ≤ m →
      ((steadyStep m)^[k] st).fwdMb = min m (st.fwdMb + k) := by
    intro k st hst
    induction k with
    | zero => exact (Nat.min_eq_right hst).symm
    | succ k ih =>
      rw [iterate_succ_apply', steadyStep]
      split
      · next hlt =>
        cases hqueue : ((steadyStep m)^[k] st).backwardQueue ++ [((steadyStep m)^[k] st).fwdMb] with
        | nil => simp at hqueue
        | cons b queue =>
          simp only [ih]
          omega
      · next hge =>
        omega
  rw [steady, hstep _ _ (valid_warmup m numStages stage).fwd_le, fwdMb_warmup, numSteady]
  omega

theorem follows (m numStages stage : ℕ) :
    Follows 0 (List.range m) (passes m numStages stage) m [] := by
  obtain ⟨b, hb⟩ := valid_steady m numStages stage
  have hfwd := fwdMb_steady m numStages stage
  have hqueue := hb.queue_eq
  have hfollows := hb.follows
  rw [hfwd] at hqueue hfollows
  rw [passes, hqueue]
  refine hfollows.append ?_
  have hbwd : Follows m (List.range' b (m - b) ++ []) ((List.range' b (m - b)).map .backward) m [] := by
    refine Follows.backwards fun mb hmb => ?_
    obtain ⟨i, hi, rfl⟩ := mem_range'.mp hmb
    omega
  rwa [append_nil] at hbwd

/-- On the last stage every forward pass is followed by its backward pass. -/
theorem passes_last (hlast : isLast numStages stage) :
    passes m numStages stage = (List.range m).flatMap fun mb => [.forward mb, .backward mb] := by
  have hwarmup : numWarmup numStages stage = 0 := by
    unfold isLast at hlast
    unfold numWarmup
    omega
  have hsteady : ∀ k ≤ m, (steadyStep m)^[k] {} =
      { fwdMb := k
        passes := (List.range k).flatMap fun mb => [.forward mb, .backward mb] } := by
    intro k hk
    induction k with
    | zero => rfl
    | succ k ih =>
      rw [iterate_succ_apply', ih (Nat.le_of_succ_le hk), steadyStep,
        if_pos (Nat.lt_of_succ_le hk)]
      simp [range_succ, flatMap_append]
  have hcount : numSteady m numStages stage = m := by
    rw [numSteady, hwarmup, Nat.sub_zero]
  rw [passes, steady, warmup, hwarmup, hcount, Function.iterate_zero_apply, hsteady m (le_refl _)]
  exact append_nil _

/-- A step only adds passes. -/
theorem passes_iterate {step : Progress → Progress}
    (hstep : ∀ st, ∃ added, (step st).passes = st.passes ++ added) (k : ℕ) (st : Progress) :
    ∃ added, (step^[k] st).passes = st.passes ++ added := by
  induction k with
  | zero => exact ⟨[], by simp⟩
  | succ k ih =>
    obtain ⟨a, ha⟩ := ih
    obtain ⟨b, hb⟩ := hstep (step^[k] st)
    exact ⟨a ++ b, by rw [iterate_succ_apply', hb, ha, append_assoc]⟩

theorem passes_warmupStep (m : ℕ) (st : Progress) :
    ∃ added, (warmupStep m st).passes = st.passes ++ added := by
  unfold warmupStep
  split
  · exact ⟨_, rfl⟩
  · exact ⟨[], by simp⟩

theorem passes_steadyStep (m : ℕ) (st : Progress) :
    ∃ added, (steadyStep m st).passes = st.passes ++ added := by
  unfold steadyStep
  split
  · split
    · exact ⟨[], by simp⟩
    · exact ⟨_, rfl⟩
  · exact ⟨[], by simp⟩

theorem warmupStep_first (hm : 0 < m) :
    warmupStep m {} = { fwdMb := 1, backwardQueue := [0], passes := [.forward 0] } :=
  if_pos hm

/-- All stages but the last begin with two forward passes. -/
theorem passes_prefix (hstage : stage + 1 < numStages) (hmany : 1 < m) :
    ∃ rest, passes m numStages stage = .forward 0 :: .forward 1 :: rest := by
  have hsteady : ∃ added, (steady m numStages stage).passes = .forward 0 :: .forward 1 :: added := by
    rcases Nat.eq_or_lt_of_le (show 1 ≤ numWarmup numStages stage by unfold numWarmup; omega) with
      hone | htwo
    · obtain ⟨k, hk⟩ : ∃ k, numSteady m numStages stage = k + 1 := by
        unfold numSteady
        exact ⟨m - 2, by omega⟩
      have hwarmup : warmup m numStages stage =
          { fwdMb := 1, backwardQueue := [0], passes := [.forward 0] } := by
        rw [warmup, ← hone, Function.iterate_one, warmupStep_first (by omega)]
      obtain ⟨added, hadded⟩ := passes_iterate (passes_steadyStep m) k
        (steadyStep m (warmup m numStages stage))
      refine ⟨.backward 0 :: added, ?_⟩
      rw [steady, hk, iterate_succ_apply, hadded, hwarmup, steadyStep, if_pos hmany]
      rfl
    · obtain ⟨k, hk⟩ := Nat.exists_eq_add_of_lt htwo
      have hcount : numWarmup numStages stage = k + 1 + 1 := by omega
      obtain ⟨added, hadded⟩ := passes_iterate (passes_warmupStep m) k
        (warmupStep m (warmupStep m {}))
      obtain ⟨added', hadded'⟩ := passes_iterate (passes_steadyStep m)
        (numSteady m numStages stage) (warmup m numStages stage)
      refine ⟨added ++ added', ?_⟩
      rw [steady, hadded', warmup, hcount, iterate_succ_apply,
        iterate_succ_apply, hadded, warmupStep_first (by omega), warmupStep,
        if_pos hmany]
      rfl
  obtain ⟨added, hadded⟩ := hsteady
  refine ⟨added ++ (steady m numStages stage).backwardQueue.map .backward, ?_⟩
  rw [passes, hadded]
  rfl

/-- With one micro-batch a stage does one forward and one backward pass. -/
theorem passes_single (hstage : stage < numStages) :
    passes 1 numStages stage = [.forward 0, .backward 0] := by
  by_cases hlast : isLast numStages stage
  · rw [passes_last hlast]
    rfl
  · obtain ⟨k, hk⟩ : ∃ k, numWarmup numStages stage = k + 1 := by
      unfold isLast at hlast
      unfold numWarmup
      exact ⟨numStages - 1 - stage - 1, by omega⟩
    have hfixed : ∀ st : Progress, st.fwdMb = 1 → warmupStep 1 st = st := by
      intro st hst
      rw [warmupStep, if_neg (by omega)]
    have hcount : numSteady 1 numStages stage = 0 := by
      unfold numSteady
      omega
    rw [passes, steady, hcount, warmup, hk,
      iterate_succ_apply, Function.iterate_fixed (hfixed _ rfl)]
    rfl

end OneFOneB

/-- The order of the backward passes. -/
def Schedule.order (schedule : Schedule) (m : ℕ) : List ℕ :=
  match schedule with
  | .gpipe => (List.range m).reverse
  | .oneFOneB => List.range m

/-- On every stage the passes follow the same order of micro-batches. -/
theorem Schedule.follows (schedule : Schedule) (m numStages stage : ℕ) :
    Follows 0 (schedule.order m) (schedule.passes m numStages stage) m [] := by
  cases schedule with
  | gpipe => exact GPipe.follows m
  | oneFOneB => exact OneFOneB.follows m numStages stage

end Tenzor.Pipeline
