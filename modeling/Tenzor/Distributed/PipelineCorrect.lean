import Tenzor.Distributed.PipelineValues

/-!
# The schedules against the composed modules

What a stage has received determines what it computes. From the first stage on the
activations are those of the composed modules, and from the last stage back the
gradients are.
-/

namespace Tenzor.Pipeline.Training

open Throwing List

variable {Row Grad Param : Type} (t : Training Row Grad Param)
variable {stage n : ℕ} {st st' : StageState Row Grad Param} {seeded : Bool} {mb n' : ℕ}
  {done todo todo' : List ℕ} {ps : List Pass} {schedule : Schedule}

/-- A stage after the forward passes of the first `n` micro-batches. -/
structure ForwardAt (stage n : ℕ) (st : StageState Row Grad Param) : Prop where
  incoming : ¬ isFirst stage →
    st.incoming = (List.range' n (t.numMicrobatches - n)).map (t.activation stage)
  stashed : ∀ k < n, st.stashedInputs k = some (t.activation stage k)
  outputs : ∀ k < n, st.microOutputs k = some (t.activation (stage + 1) k)
  sent : ¬ isLast t.numStages stage →
    st.sentActivations = (List.range n).map (t.activation (stage + 1))

/-- `backward` may be called on the output of a micro-batch. -/
def Seedable (seeded : Bool) (mb : ℕ) : Prop :=
  seeded = true ∨ t.batchNumel (t.activation t.numStages mb) = 1

/-- The output of a stage for a micro-batch fits a header, if it is sent on. -/
def Sendable (stage mb : ℕ) : Prop :=
  ¬ isLast t.numStages stage → t.rank (t.activation (stage + 1) mb) ≤ metaMaxDims

/-- The activations that a stage is sent. -/
def sentTo (stage : ℕ) : List (List Row) := (List.range t.numMicrobatches).map (t.activation stage)

theorem forwardAt_start {incoming : List (List Row)} (gradients : List (List Grad))
    (h : ¬ isFirst stage → incoming = t.sentTo stage) :
    t.ForwardAt stage 0
      { incoming := incoming, gradients := gradients, paramGrad := t.before stage } where
  incoming := by
    intro hfirst
    rw [← range_eq_range']
    exact h hfirst
  stashed := fun k hk => absurd hk (Nat.not_lt_zero k)
  outputs := fun k hk => absurd hk (Nat.not_lt_zero k)
  sent := fun _ => rfl

theorem update_below {α : Type} {f : ℕ → Option α} {g : ℕ → α} (h : ∀ k < n, f k = some (g k)) :
    ∀ k < n + 1, Function.update f n (some (g n)) k = some (g k) := by
  intro k hk
  by_cases hkn : k = n
  · rw [hkn, Function.update_self]
  · rw [Function.update_of_ne hkn, h k (by omega)]

theorem inputOf_eq (hn : n < t.numMicrobatches) (h : t.ForwardAt stage n st) :
    ∃ rest, t.inputOf stage n st.incoming = .ok (t.activation stage n, rest) ∧
      (¬ isFirst stage →
        rest = (List.range' (n + 1) (t.numMicrobatches - (n + 1))).map (t.activation stage)) := by
  by_cases hfirst : isFirst stage
  · refine ⟨st.incoming, ?_, fun hnot => absurd hfirst hnot⟩
    obtain rfl : stage = 0 := hfirst
    rfl
  · have hcount : t.numMicrobatches - n = t.numMicrobatches - (n + 1) + 1 := by omega
    refine ⟨_, ?_, fun _ => rfl⟩
    rw [inputOf, if_neg hfirst, h.incoming hfirst, hcount]
    rfl

/-- A forward pass returns only if its output fits a header. -/
theorem sendable_of_forwardPass (hn : n < t.numMicrobatches) (h : t.ForwardAt stage n st)
    (hpass : t.forwardPass stage n st = .ok st') : t.Sendable stage n := by
  obtain ⟨rest, hinput, -⟩ := t.inputOf_eq hn h
  simp only [forwardPass, hinput, Throwing.bind_eq_ok, throwIf_eq_ok] at hpass
  obtain ⟨input, hin, _, hguard, -⟩ := hpass
  obtain rfl := Except.ok.inj hin
  intro hlast
  exact Nat.le_of_not_lt fun hrank => hguard ⟨hlast, hrank⟩

theorem forwardPass_spec (hn : n < t.numMicrobatches) (h : t.ForwardAt stage n st)
    (hfit : t.Sendable stage n) :
    ∃ st', t.forwardPass stage n st = .ok st' ∧ t.ForwardAt stage (n + 1) st' ∧
      st'.gradients = st.gradients ∧ st'.sentGradients = st.sentGradients ∧
      st'.paramGrad = st.paramGrad := by
  obtain ⟨rest, hinput, hrest⟩ := t.inputOf_eq hn h
  have hguard : ¬ (¬ isLast t.numStages stage ∧
      metaMaxDims < t.rank ((t.module stage).run (t.activation stage n))) :=
    fun hboth => Nat.not_lt.mpr (hfit hboth.1) hboth.2
  refine ⟨{ st with
      incoming := rest
      stashedInputs := Function.update st.stashedInputs n (some (t.activation stage n))
      microOutputs := Function.update st.microOutputs n (some (t.activation (stage + 1) n))
      sentActivations :=
        if isLast t.numStages stage then st.sentActivations
        else st.sentActivations ++ [t.activation (stage + 1) n] },
    ?_, ⟨hrest, ?_, ?_, ?_⟩, rfl, rfl, rfl⟩
  · rw [forwardPass, hinput]
    exact Throwing.bind_eq_ok.mpr ⟨_, rfl, Throwing.bind_eq_ok.mpr ⟨(), throwIf_of_not hguard, rfl⟩⟩
  · exact update_below h.stashed
  · exact update_below h.outputs
  · intro hlast
    rw [if_neg hlast, h.sent hlast, range_succ, map_append]
    rfl

variable [AddCommMonoid Param]

/-- A stage after the backward passes of `done` and before those of `todo`. -/
structure BackwardAt (stage : ℕ) (done todo : List ℕ) (st : StageState Row Grad Param) : Prop where
  gradients : ¬ isLast t.numStages stage → st.gradients = todo.map (t.gradient stage)
  sent : ¬ isFirst stage → st.sentGradients = done.map fun mb =>
    (t.module stage).inputGrads (t.activation stage mb) (t.gradient stage mb)
  paramGrad : st.paramGrad = t.before stage + (done.map fun mb =>
    (t.module stage).paramGrads (t.activation stage mb) (t.gradient stage mb)).sum

/-- A backward pass leaves what the forward passes have computed. -/
theorem backwardPass_frame (h : t.ForwardAt stage n st)
    (hpass : t.backwardPass seeded stage mb st = .ok st') : t.ForwardAt stage n st' := by
  unfold backwardPass at hpass
  split at hpass
  · simp only [Throwing.bind_eq_ok, pure_eq_ok] at hpass
    obtain ⟨grad, -, rfl⟩ := hpass
    exact ⟨h.incoming, h.stashed, h.outputs, h.sent⟩
  · simp at hpass

/-- On the last stage a backward pass returns only if it may be called. -/
theorem seedable_of_backwardPass (hmb : mb < n) (hlast : isLast t.numStages stage)
    (h : t.ForwardAt stage n st) (hpass : t.backwardPass seeded stage mb st = .ok st') :
    t.Seedable seeded mb := by
  have hsucc : stage + 1 = t.numStages := by
    have hpos := t.numStages_pos
    unfold isLast at hlast
    omega
  rw [backwardPass, h.stashed mb hmb, h.outputs mb hmb, hsucc] at hpass
  simp only [Throwing.bind_eq_ok] at hpass
  obtain ⟨grad, hgrad, -⟩ := hpass
  by_contra hnot
  have hneither : ¬ (seeded = true ∨ t.batchNumel (t.activation t.numStages mb) = 1) := hnot
  rw [outputGrad, if_pos hlast, if_neg hneither] at hgrad
  simp at hgrad

theorem backwardPass_spec (hmb : mb < n) (h : t.ForwardAt stage n st)
    (hback : t.BackwardAt stage done (mb :: todo) st)
    (hseed : isLast t.numStages stage → t.Seedable seeded mb) :
    ∃ st', t.backwardPass seeded stage mb st = .ok st' ∧
      t.BackwardAt stage (done ++ [mb]) todo st' := by
  have hgrad : ∃ rest, t.outputGrad seeded stage (t.activation (stage + 1) mb) st.gradients =
      .ok (t.gradient stage mb, rest) ∧
      (¬ isLast t.numStages stage → rest = todo.map (t.gradient stage)) := by
    by_cases hlast : isLast t.numStages stage
    · have hsucc : stage + 1 = t.numStages := by
        have hpos := t.numStages_pos
        unfold isLast at hlast
        omega
      refine ⟨st.gradients, ?_, fun hnot => absurd hlast hnot⟩
      have hg : t.gradient stage mb = (t.activation t.numStages mb).map t.ones := by
        rw [← t.gradient_last, ← hlast]
      have hmay : seeded = true ∨ t.batchNumel (t.activation t.numStages mb) = 1 := hseed hlast
      rw [outputGrad, if_pos hlast, hsucc, if_pos hmay, hg]
    · refine ⟨todo.map (t.gradient stage), ?_, fun _ => rfl⟩
      rw [outputGrad, if_neg hlast, hback.gradients hlast]
      rfl
  obtain ⟨rest, hgrad, hrest⟩ := hgrad
  refine ⟨{ st with
      gradients := rest
      paramGrad := st.paramGrad +
        (t.module stage).paramGrads (t.activation stage mb) (t.gradient stage mb)
      sentGradients :=
        if isFirst stage then st.sentGradients
        else st.sentGradients ++
          [(t.module stage).inputGrads (t.activation stage mb) (t.gradient stage mb)] },
    ?_, ⟨hrest, ?_, ?_⟩⟩
  · rw [backwardPass, h.stashed mb hmb, h.outputs mb hmb]
    simp only [hgrad]
    rfl
  · intro hfirst
    rw [if_neg hfirst, hback.sent hfirst, map_append]
    rfl
  · rw [hback.paramGrad, map_append, sum_append, map_singleton,
      sum_singleton, add_assoc]

theorem Follows.le {n : ℕ} (h : Follows n todo ps n' todo') : n ≤ n' := by
  induction h with
  | nil => exact le_refl _
  | forward _ ih => exact Nat.le_of_succ_le ih
  | backward _ _ ih => exact ih

theorem run_forwardAt (hps : Follows n todo ps n' todo') (hn : n' ≤ t.numMicrobatches)
    (h : t.ForwardAt stage n st) (hrun : ps.foldlM (t.runPass seeded stage) st = .ok st') :
    t.ForwardAt stage n' st' ∧ (∀ mb, n ≤ mb → mb < n' → t.Sendable stage mb) ∧
      (isLast t.numStages stage → ∃ taken, todo = taken ++ todo' ∧
        ∀ mb ∈ taken, t.Seedable seeded mb) := by
  induction hps generalizing st with
  | nil =>
    obtain rfl : st = st' := by simpa using hrun
    exact ⟨h, fun mb hle hlt => absurd hlt (Nat.not_lt.mpr hle), fun _ => ⟨[], rfl, by simp⟩⟩
  | forward hrest ih =>
    rw [foldlM_cons_eq_ok] at hrun
    obtain ⟨mid, hmid, hrun⟩ := hrun
    have hlt := Nat.lt_of_lt_of_le (Nat.lt_of_succ_le (Follows.le hrest)) hn
    have hfit := t.sendable_of_forwardPass hlt h hmid
    obtain ⟨next, hnext, hat, -⟩ := t.forwardPass_spec hlt h hfit
    obtain rfl : next = mid := Except.ok.inj (hnext.symm.trans hmid)
    obtain ⟨hfinal, hfits, htaken⟩ := ih hn hat hrun
    refine ⟨hfinal, fun mb hle hmb => ?_, htaken⟩
    obtain rfl | hnext := hle.eq_or_lt
    · exact hfit
    · exact hfits mb hnext hmb
  | @backward k _ mb rest _ _ hmb hrest ih =>
    rw [foldlM_cons_eq_ok] at hrun
    obtain ⟨mid, hmid, hrun⟩ := hrun
    obtain ⟨hat, hfits, htaken⟩ := ih hn (t.backwardPass_frame h hmid) hrun
    refine ⟨hat, hfits, fun hlast => ?_⟩
    obtain ⟨taken, htodo, hall⟩ := htaken hlast
    refine ⟨mb :: taken, by rw [htodo, cons_append], ?_⟩
    exact forall_mem_cons.mpr ⟨t.seedable_of_backwardPass hmb hlast h hmid, hall⟩

theorem run_spec (hps : Follows n todo ps n' todo') (hn : n' ≤ t.numMicrobatches)
    (h : t.ForwardAt stage n st) (hback : t.BackwardAt stage done todo st)
    (hfits : ∀ mb < n', t.Sendable stage mb)
    (hseed : isLast t.numStages stage → ∀ mb ∈ todo, t.Seedable seeded mb) :
    ∃ st' taken, ps.foldlM (t.runPass seeded stage) st = .ok st' ∧ todo = taken ++ todo' ∧
      t.BackwardAt stage (done ++ taken) todo' st' := by
  induction hps generalizing st done with
  | nil => exact ⟨st, [], rfl, rfl, by rwa [append_nil]⟩
  | forward hrest ih =>
    have hlt := Nat.lt_of_succ_le (Follows.le hrest)
    obtain ⟨next, hnext, hat, hgrads, hsent, hparam⟩ := t.forwardPass_spec
      (Nat.lt_of_lt_of_le hlt hn) h (hfits _ hlt)
    have hback' : t.BackwardAt stage done _ next :=
      ⟨fun hlast => hgrads.trans (hback.gradients hlast),
        fun hfirst => hsent.trans (hback.sent hfirst), hparam.trans hback.paramGrad⟩
    obtain ⟨st', taken, hrun, htodo, hfinal⟩ := ih hn hat hback' hfits hseed
    exact ⟨st', taken, foldlM_cons_eq_ok.mpr ⟨next, hnext, hrun⟩, htodo, hfinal⟩
  | @backward k _ mb rest _ _ hmb hrest ih =>
    obtain ⟨next, hnext, hback'⟩ := t.backwardPass_spec hmb h hback fun hlast =>
      hseed hlast mb mem_cons_self
    obtain ⟨st', taken, hrun, htodo, hfinal⟩ := ih hn (t.backwardPass_frame h hnext) hback'
      hfits fun hlast k hk => hseed hlast k (mem_cons_of_mem _ hk)
    refine ⟨st', mb :: taken, foldlM_cons_eq_ok.mpr ⟨next, hnext, hrun⟩, ?_, ?_⟩
    · rw [htodo, cons_append]
    · rwa [append_assoc] at hfinal

theorem mem_order {m : ℕ} : mb ∈ schedule.order m ↔ mb < m := by
  cases schedule <;> simp [Schedule.order]

theorem order_perm (schedule : Schedule) (m : ℕ) : (schedule.order m).Perm (List.range m) := by
  cases schedule with
  | gpipe => exact reverse_perm _
  | oneFOneB => exact Perm.refl _

section

variable {schedule : Schedule} {incoming : List (List Row)} {gradients : List (List Grad)}

theorem execute_forwardAt (hin : ¬ isFirst stage → incoming = t.sentTo stage)
    (hrun : t.execute schedule stage incoming gradients = .ok st) :
    t.ForwardAt stage t.numMicrobatches st ∧
      (∀ mb < t.numMicrobatches, t.Sendable stage mb) ∧
      (isLast t.numStages stage → ∀ mb < t.numMicrobatches, t.Seedable schedule.seeded mb) := by
  obtain ⟨hat, hfits, htaken⟩ := t.run_forwardAt (schedule.follows t.numMicrobatches t.numStages stage)
    (le_refl _) (t.forwardAt_start gradients hin) hrun
  refine ⟨hat, fun mb hmb => hfits mb (Nat.zero_le mb) hmb, fun hlast mb hmb => ?_⟩
  obtain ⟨taken, htodo, hall⟩ := htaken hlast
  rw [append_nil] at htodo
  exact hall mb (htodo ▸ mem_order.mpr hmb)

theorem execute_spec (hin : ¬ isFirst stage → incoming = t.sentTo stage)
    (hgrads : ¬ isLast t.numStages stage →
      gradients = (schedule.order t.numMicrobatches).map (t.gradient stage))
    (hfits : ∀ mb < t.numMicrobatches, t.Sendable stage mb)
    (hseed : isLast t.numStages stage →
      ∀ mb < t.numMicrobatches, t.Seedable schedule.seeded mb) :
    ∃ st, t.execute schedule stage incoming gradients = .ok st ∧
      t.BackwardAt stage (schedule.order t.numMicrobatches) [] st := by
  have hback : t.BackwardAt stage [] (schedule.order t.numMicrobatches)
      { incoming := incoming, gradients := gradients, paramGrad := t.before stage } :=
    ⟨hgrads, fun _ => rfl, (add_zero _).symm⟩
  obtain ⟨st', taken, hrun, htodo, hfinal⟩ := t.run_spec
    (schedule.follows t.numMicrobatches t.numStages stage) (le_refl _)
    (t.forwardAt_start gradients hin) hback hfits fun hlast mb hmb => hseed hlast mb (mem_order.mp hmb)
  rw [append_nil] at htodo
  rw [← htodo] at hfinal
  exact ⟨st', hrun, hfinal⟩

end

section

variable {schedule : Schedule} (r : t.Run schedule) {s : ℕ}

/-- The activations are those of the composed modules, from the first stage on. -/
theorem final_forwardAt (hs : s < t.numStages) : t.ForwardAt s t.numMicrobatches (r.final s) := by
  induction s with
  | zero => exact (t.execute_forwardAt (fun h => absurd rfl h) (r.returns 0 hs)).1
  | succ s ih =>
    have hlast : ¬ isLast t.numStages s := by
      unfold isLast
      omega
    have hin : r.activations (s + 1) = t.sentTo (s + 1) := by
      rw [r.sent_forward s hs, (ih (Nat.lt_of_succ_lt hs)).sent hlast]
      rfl
    exact (t.execute_forwardAt (fun _ => hin) (r.returns (s + 1) hs)).1

theorem activations_eq (hs : s < t.numStages) (hfirst : ¬ isFirst s) :
    r.activations s = t.sentTo s := by
  obtain ⟨s, rfl⟩ := Nat.exists_eq_succ_of_ne_zero hfirst
  have hlast : ¬ isLast t.numStages s := by
    unfold isLast
    omega
  rw [r.sent_forward s hs, (t.final_forwardAt r (Nat.lt_of_succ_lt hs)).sent hlast]
  rfl

include r in
/-- A run that returns was allowed to call `backward` on every output. -/
theorem seedable_of_run {mb : ℕ} (hmb : mb < t.numMicrobatches) :
    t.Seedable schedule.seeded mb := by
  have hlt : t.numStages - 1 < t.numStages := Nat.sub_lt t.numStages_pos Nat.one_pos
  exact (t.execute_forwardAt (t.activations_eq r hlt) (r.returns _ hlt)).2.2 rfl mb hmb

include r in
theorem sendable_of_run (hs : s < t.numStages) :
    ∀ mb < t.numMicrobatches, t.Sendable s mb :=
  (t.execute_forwardAt (t.activations_eq r hs) (r.returns s hs)).2.1

/-- The gradients are those of the composed modules, from the last stage back. -/
theorem final_backwardAt {k : ℕ} (hs : s + k + 1 = t.numStages) :
    t.BackwardAt s (schedule.order t.numMicrobatches) [] (r.final s) := by
  have hlt : s < t.numStages := by omega
  have hgrads : ¬ isLast t.numStages s →
      r.gradients s = (schedule.order t.numMicrobatches).map (t.gradient s) := by
    intro hlast
    induction k generalizing s with
    | zero =>
      unfold isLast at hlast
      omega
    | succ k ih =>
      have hnext : s + 1 < t.numStages := by omega
      have hback : t.BackwardAt (s + 1) (schedule.order t.numMicrobatches) []
          (r.final (s + 1)) := by
        obtain ⟨st, hrun, hst⟩ := t.execute_spec (t.activations_eq r hnext)
          (fun h => ih (by omega) hnext h) (t.sendable_of_run r hnext)
          fun _ mb hmb => t.seedable_of_run r hmb
        rwa [Except.ok.inj ((r.returns (s + 1) hnext).symm.trans hrun)]
      have hfirst : ¬ isFirst (s + 1) := Nat.succ_ne_zero s
      rw [r.sent_backward s hnext, hback.sent hfirst]
      exact map_congr_left fun mb _ => (t.gradient_before hnext mb).symm
  obtain ⟨st, hrun, hst⟩ := t.execute_spec (t.activations_eq r hlt) hgrads
    (t.sendable_of_run r hlt) fun _ mb hmb => t.seedable_of_run r hmb
  rwa [Except.ok.inj ((r.returns s hlt).symm.trans hrun)]

theorem output_run :
    t.output (r.final (t.numStages - 1)) = t.activationsOf t.batch t.numStages := by
  have hpos := t.numStages_pos
  have hat := t.final_forwardAt r (Nat.sub_lt t.numStages_pos Nat.one_pos)
  have hsucc : t.numStages - 1 + 1 = t.numStages := by omega
  calc t.output (r.final (t.numStages - 1))
      = (List.range t.numMicrobatches).flatMap (t.activation t.numStages) := by
        refine flatMap_congr fun mb hmb => ?_
        rw [hat.outputs mb (mem_range.mp hmb), hsucc]
        rfl
    _ = t.microInputs.flatMap fun x => t.activationsOf x t.numStages := by
        rw [microInputs_eq, flatMap_map]
        rfl
    _ = t.activationsOf t.batch t.numStages := by
        rw [← activationsOf_flatten, flatten_microInputs]

theorem paramGrad_run (hs : s < t.numStages) :
    (r.final s).paramGrad = t.before s + t.paramGradOf t.batch s := by
  have hback : t.BackwardAt s (schedule.order t.numMicrobatches) [] (r.final s) :=
    t.final_backwardAt r (k := t.numStages - 1 - s) (by omega)
  rw [hback.paramGrad]
  congr 1
  calc ((schedule.order t.numMicrobatches).map fun mb =>
        (t.module s).paramGrads (t.activation s mb) (t.gradient s mb)).sum
      = ((List.range t.numMicrobatches).map fun mb =>
          t.paramGradOf (t.microInputs.getD mb []) s).sum :=
        ((order_perm schedule t.numMicrobatches).map _).sum_eq
    _ = (t.microInputs.map fun x => t.paramGradOf x s).sum := by
        conv_rhs => rw [microInputs_eq, map_map]
        rfl
    _ = t.paramGradOf t.batch s := by
        rw [← paramGradOf_flatten, flatten_microInputs]

end

theorem exists_run (hfits : ∀ s < t.numStages, ∀ mb < t.numMicrobatches, t.Sendable s mb)
    (hseed : ∀ mb < t.numMicrobatches, t.Seedable schedule.seeded mb) :
    Nonempty (t.Run schedule) := by
  have hstage : ∀ s, ∃ st, s < t.numStages → t.execute schedule s (t.sentTo s)
      ((schedule.order t.numMicrobatches).map (t.gradient s)) = .ok st ∧
      t.BackwardAt s (schedule.order t.numMicrobatches) [] st := by
    intro s
    by_cases hs : s < t.numStages
    · obtain ⟨st, hst⟩ := t.execute_spec (fun _ => rfl) (fun _ => rfl) (hfits s hs) fun _ => hseed
      exact ⟨st, fun _ => hst⟩
    · exact ⟨{ incoming := [], gradients := [], paramGrad := 0 }, fun hlt => absurd hlt hs⟩
  choose final hfinal using hstage
  refine ⟨⟨t.sentTo, fun s => (schedule.order t.numMicrobatches).map (t.gradient s), final,
    fun s hs => (hfinal s hs).1, fun s hs => ?_, fun s hs => ?_⟩⟩
  · have hlast : ¬ isLast t.numStages s := by
      unfold isLast
      omega
    have hat := t.execute_forwardAt (fun _ => rfl) (hfinal s (Nat.lt_of_succ_lt hs)).1
    rw [hat.1.sent hlast]
    rfl
  · rw [(hfinal (s + 1) hs).2.sent (Nat.succ_ne_zero s)]
    exact map_congr_left fun mb _ => t.gradient_before hs mb

/-- The outputs of all stages but the last fit a header. -/
theorem sendable_iff :
    (∀ s, s + 1 < t.numStages →
      ∀ x ∈ t.microInputs, t.rank (t.activationsOf x (s + 1)) ≤ metaMaxDims) ↔
      ∀ s < t.numStages, ∀ mb < t.numMicrobatches, t.Sendable s mb := by
  rw [microInputs_eq]
  simp only [forall_mem_map, mem_range]
  constructor
  · intro h s hs mb hmb hlast
    have hnext : s + 1 < t.numStages := by
      unfold isLast at hlast
      omega
    exact h s hnext mb hmb
  · intro h s hs mb hmb
    have hlast : ¬ isLast t.numStages s := by
      unfold isLast
      omega
    exact h s (Nat.lt_of_succ_lt hs) mb hmb hlast

end Tenzor.Pipeline.Training
