import Tenzor.Distributed.FsdpGather
import Mathlib.Tactic.FieldSimp

/-!
# Sharded training is training

A rank is right about the elements that its shard covers: their gradients are the
averages, so the optimizer moves them as one process would, and the next gather
brings them to every rank. A parameter of two units is reduced twice.
-/

namespace Tenzor.Fsdp.FullyShardedDataParallel

open FlatBuffer ElementwiseTraining List

variable {Var α σ : Type} {D : FullyShardedDataParallel Var} [DecidableEq Var]
variable [DivisionRing α] {W : ℕ} {i : ℕ} {v : Var}

/-! ## The reduced gradients -/

section Reduce

variable {r : Fin W} {w : Fin W → Rank D.numel α σ} {flatGrad : Flat α} {hasGrad : Var → Bool}
  {grads : Grads D.numel α}

theorem collectGrads_get (grads : Grads D.numel α) (h : v ∈ D.params i) (j : Fin (D.numel v)) :
    (D.collectGrads W i grads).get (D.position i v j) = (grads.at v j).getD 0 := by
  obtain ⟨as, bs, hsplit, -, hpos⟩ := exists_split h
  rw [collectGrads, hpos, hsplit, write_get j.isLt]
  cases hg : grads v with
  | none =>
    rw [Grads.at_of_none hg]
    rfl
  | some d =>
    rw [Grads.at_of_some hg]
    exact toFlat_get d j

/-- The source of an element reduces it to the average. -/
theorem reducedShard_get (h : v ∈ D.params i) (r : Fin W) (j : Fin (D.numel v)) :
    (D.reducedShard w i (D.source r i v j)).get
        (D.position i v j - D.source r i v j * D.shardNumel W i) =
      (∑ q, ((w q).grads.at v j).getD 0) / (W : α) := by
  obtain ⟨hlo, -⟩ := source_covers r h j
  simp only [reducedShard, slice_get, Nat.add_sub_cancel' hlo, collectGrads_get _ h]
  split
  · rfl
  · have hW : W = 1 := by
      have := Fin.pos r
      omega
    subst hW
    rw [Nat.cast_one, div_one]

/-- The loop of `scatter_grads_to_params` writes, of each parameter, only its own gradient. -/
theorem scatter_frame (r : Fin W) (i : ℕ) (flatGrad : Flat α) (hasGrad : Var → Bool)
    (grads : Grads D.numel α) (c : Var × ℕ) (k : Var) (hne : c.1 ≠ k) :
    (if D.overlapStart r i c.2 < D.overlapEnd r i c.2 c.1 ∧ hasGrad c.1 then
      Function.update grads c.1 (some (D.overlapGrad r i flatGrad c.2 c.1)) else grads) k =
      grads k := by
  split
  · exact Function.update_of_ne (Ne.symm hne) _ _
  · rfl

theorem scatterGrads_of_notMem {r : Fin W} (h : v ∉ D.params i) :
    D.scatterGradsToParams r i flatGrad hasGrad grads v = grads v :=
  foldl_cuts_of_notMem D.numel (fun (g : Grads D.numel α) k => g k)
    (scatter_frame r i flatGrad hasGrad) h 0 grads

theorem scatterGrads_of_not {r : Fin W} (hasGrad : Var → Bool) (h : hasGrad v = false) :
    D.scatterGradsToParams r i flatGrad hasGrad grads v = grads v := by
  rw [scatterGradsToParams]
  generalize cuts D.numel 0 (D.params i) = l
  induction l generalizing grads with
  | nil => rfl
  | cons c l ih =>
    rw [foldl_cons, ih]
    by_cases hc : c.1 = v
    · rw [if_neg fun hset => by
        rw [hc, h] at hset
        exact Bool.false_ne_true hset.2]
    · exact scatter_frame r i flatGrad hasGrad grads c v hc

omit [DecidableEq Var] in
/-- An element inside the overlap gets what the shard holds of it. -/
theorem overlapGrad_apply {r : Fin W} (flatGrad : Flat α) {off : ℕ} {j : Fin (D.numel v)}
    (hlo : r * D.shardNumel W i ≤ off + j)
    (hhi : off + j < r * D.shardNumel W i + D.shardNumel W i) :
    D.overlapStart r i off < D.overlapEnd r i off v ∧
      D.overlapGrad r i flatGrad off v j = flatGrad.get (off + j - r * D.shardNumel W i) := by
  have hj := j.isLt
  have hstart : D.overlapStart r i off ≤ off + j := max_le (Nat.le_add_right _ _) hlo
  have hend : off + j < D.overlapEnd r i off v := lt_min (by omega) hhi
  have hoff : off ≤ D.overlapStart r i off := le_max_left _ _
  have hshard : r * D.shardNumel W i ≤ D.overlapStart r i off := le_max_right _ _
  refine ⟨by omega, ?_⟩
  rw [overlapGrad]
  simp only
  rw [sliceScatter_get_inside (by omega) (by omega), slice_get]
  congr 1
  omega

/-- An element of the shard gets its reduced gradient, from the last copy of its parameter. -/
theorem scatterGrads_at (h : v ∈ D.params i) (hg : hasGrad v = true) (r : Fin W)
    (j : Fin (D.numel v)) :
    (D.scatterGradsToParams (D.source r i v j) i flatGrad hasGrad grads).at v j =
      some (flatGrad.get (D.position i v j - D.source r i v j * D.shardNumel W i)) := by
  obtain ⟨hlo, hhi⟩ := source_covers r h j
  obtain ⟨as, bs, hsplit, hbs, hpos⟩ := exists_split h
  rw [hpos] at hlo hhi ⊢
  obtain ⟨hoverlap, happly⟩ := overlapGrad_apply flatGrad hlo hhi
  have hlast := foldl_cuts_last D.numel (fun (g : Grads D.numel α) k => g k)
    (scatter_frame (D.source r i v j) i flatGrad hasGrad) as hbs 0 grads
  rw [← happly]
  refine Grads.at_of_some ?_ j
  rw [scatterGradsToParams, hsplit]
  refine hlast.trans ?_
  simp only [Nat.zero_add]
  rw [if_pos ⟨hoverlap, hg⟩, Function.update_self]

/-- Nothing but the gradients and the state of the unit changes. -/
theorem exists_reduceScatterGrads (i : ℕ) (w : Fin W → Rank D.numel α σ) (r : Fin W) :
    D.reduceScatterGrads i w r = w r ∨
      ∃ g s, D.reduceScatterGrads i w r = { (w r).setUnit i s with grads := g } := by
  rw [reduceScatterGrads]
  split
  · exact .inl rfl
  · split
    · exact .inr ⟨_, _, rfl⟩
    · refine .inr ⟨D.scatterGradsToParams r i (D.reducedShard w i r)
        (fun v => ∃ q, ((w q).grads v).isSome) (w r).grads, (w r).units i, ?_⟩
      rw [Rank.setUnit, Function.update_eq_self]

@[simp] theorem reduceScatterGrads_learner :
    (D.reduceScatterGrads i w r).learner = (w r).learner := by
  cases exists_reduceScatterGrads i w r with
  | inl h => rw [h]
  | inr h =>
    obtain ⟨g, s, hw⟩ := h
    rw [hw]
    rfl

@[simp] theorem reduceScatterGrads_saved : (D.reduceScatterGrads i w r).saved = (w r).saved := by
  cases exists_reduceScatterGrads i w r with
  | inl h => rw [h]
  | inr h =>
    obtain ⟨g, s, hw⟩ := h
    rw [hw]
    rfl

theorem reduceScatterGrads_grads (ht : D.totalNumel i ≠ 0) :
    (D.reduceScatterGrads i w r).grads = D.scatterGradsToParams r i (D.reducedShard w i r)
      (fun v => ∃ q, ((w q).grads v).isSome) (w r).grads := by
  rw [reduceScatterGrads, if_neg ht]
  split
  · rfl
  · rfl

theorem reduceScatterGrads_of_notMem (h : v ∉ D.params i) :
    (D.reduceScatterGrads i w r).grads v = (w r).grads v := by
  by_cases ht : D.totalNumel i = 0
  · rw [reduceScatterGrads, if_pos ht]
  · rw [reduceScatterGrads_grads ht, scatterGrads_of_notMem h]

/-- The source of an element gets the average of its gradients. -/
theorem reduceScatterGrads_at (h : v ∈ D.params i) (r : Fin W) (j : Fin (D.numel v)) :
    (D.reduceScatterGrads i w (D.source r i v j)).grads.at v j =
      (average fun q => (w q).grads).at v j := by
  rw [reduceScatterGrads_grads (totalNumel_ne_zero h j)]
  by_cases hg : ∃ q, ((w q).grads v).isSome
  · obtain ⟨q, hq⟩ := hg
    rw [scatterGrads_at h (decide_eq_true ⟨q, hq⟩), reducedShard_get h,
      average_at_of_some (r := q) hq, Fintype.card_fin]
  · have hnone : ∀ q, (w q).grads v = none := fun q =>
      Option.not_isSome_iff_eq_none.mp fun hq => hg ⟨q, hq⟩
    rw [Grads.at_of_none (average_of_none hnone), Grads.at,
      scatterGrads_of_not (fun v => ∃ q, ((w q).grads v).isSome) (decide_eq_false hg), hnone,
      Option.map_none]

end Reduce

section Finalize

variable {w : Fin W → Rank D.numel α σ}

variable (D) in
/-- No parameter is in two units. -/
def Untied : Prop := D.units.Pairwise fun a b => ∀ v ∈ a, v ∉ b

omit [DecidableEq Var] in
theorem Untied.eq_of_mem (h : D.Untied) {k : ℕ} (hi : v ∈ D.params i) (hk : v ∈ D.params k) :
    i = k := by
  have hlt : ∀ {n : ℕ}, v ∈ D.params n → ∃ hn : n < D.units.length, v ∈ D.units[n] := by
    intro n hn
    by_cases hle : n < D.units.length
    · rw [params, getD_eq_getElem _ _ hle] at hn
      exact ⟨hle, hn⟩
    · rw [params_of_le (not_lt.mp hle)] at hn
      exact absurd hn not_mem_nil
  obtain ⟨hi', hvi⟩ := hlt hi
  obtain ⟨hk', hvk⟩ := hlt hk
  rw [Untied, pairwise_iff_getElem] at h
  rcases Nat.lt_trichotomy i k with hik | hik | hik
  · exact absurd hvk (h i k hi' hk' hik v hvi)
  · exact hik
  · exact absurd hvi (h k i hk' hi' hik v hvk)

theorem foldl_reduce_of_notMem {is : List ℕ} (h : ∀ i ∈ is, v ∉ D.params i) (r : Fin W) :
    (is.foldl (fun w i => D.reduceScatterGrads i w) w r).grads v = (w r).grads v := by
  induction is generalizing w with
  | nil => rfl
  | cons i is ih =>
    rw [foldl_cons, ih fun k hk => h k (mem_cons_of_mem _ hk),
      reduceScatterGrads_of_notMem (h i mem_cons_self)]

@[simp] theorem foldl_reduce_learner (is : List ℕ) (r : Fin W) :
    (is.foldl (fun w i => D.reduceScatterGrads i w) w r).learner = (w r).learner := by
  induction is generalizing w with
  | nil => rfl
  | cons i is ih => rw [foldl_cons, ih, reduceScatterGrads_learner]

@[simp] theorem foldl_reduce_saved (is : List ℕ) (r : Fin W) :
    (is.foldl (fun w i => D.reduceScatterGrads i w) w r).saved = (w r).saved := by
  induction is generalizing w with
  | nil => rfl
  | cons i is ih => rw [foldl_cons, ih, reduceScatterGrads_saved]

/-- A parameter of one unit is reduced once. -/
theorem foldl_reduce_untied (hu : D.Untied) (hv : v ∈ D.params i) (r : Fin W)
    (j : Fin (D.numel v)) :
    ((List.range D.units.length).foldl (fun w i => D.reduceScatterGrads i w) w
        (D.source r (D.home v) v j)).grads.at v j =
      (average fun q => (w q).grads).at v j := by
  obtain ⟨hmem, before, after, hsplit, hbefore⟩ := exists_home hv
  have hafter : ∀ k ∈ after, v ∉ D.params k := fun k hk hin => by
    have hnodup : (before ++ D.home v :: after).Nodup := hsplit ▸ nodup_range
    rw [hu.eq_of_mem hin hmem] at hk
    exact (nodup_cons.mp (nodup_append.mp hnodup).2.1).1 hk
  rw [hsplit, foldl_append, foldl_cons, Grads.at, foldl_reduce_of_notMem hafter]
  refine (reduceScatterGrads_at hmem r j).trans ?_
  refine average_at_congr (fun q => ?_) (fun q => ?_)
  · rw [foldl_reduce_of_notMem hbefore]
  · rw [Grads.at, Grads.at, foldl_reduce_of_notMem hbefore]

/-- A single rank keeps its gradients, however often they are reduced. -/
theorem foldl_reduce_single {w : Fin 1 → Rank D.numel α σ} (is : List ℕ) (v : Var)
    (j : Fin (D.numel v)) :
    (is.foldl (fun w i => D.reduceScatterGrads i w) w 0).grads.at v j = (w 0).grads.at v j := by
  induction is generalizing w with
  | nil => rfl
  | cons i is ih =>
    rw [foldl_cons, ih]
    by_cases hv : v ∈ D.params i
    · rw [Subsingleton.elim (0 : Fin 1) (D.source 0 i v j), reduceScatterGrads_at hv,
        average_at_of_unique, Subsingleton.elim (D.source 0 i v j) 0]
      rfl
    · rw [Grads.at, reduceScatterGrads_of_notMem hv]
      rfl

/-- The sources end with the averages, when no parameter is reduced twice or there is one rank. -/
theorem foldl_reduce_at (hu : W = 1 ∨ D.Untied) (hv : v ∈ D.params i) (r : Fin W)
    (j : Fin (D.numel v)) :
    ((List.range D.units.length).foldl (fun w i => D.reduceScatterGrads i w) w
        (D.source r (D.home v) v j)).grads.at v j =
      (average fun q => (w q).grads).at v j := by
  cases hu with
  | inl hW =>
    subst hW
    rw [Subsingleton.elim (D.source r (D.home v) v j) 0, foldl_reduce_single,
      average_at_of_unique]
    rfl
  | inr hu => exact foldl_reduce_untied hu hv r j

end Finalize

/-! ## A forward -/

section Forward

variable {w : Fin W → Rank D.numel α σ} {full : ℕ → Bool}

variable (D) in
/-- `params_full_` after an event of the module. -/
def flagsAfter (full : ℕ → Bool) : Event Var → ℕ → Bool
  | .enter i => fun k => full k || (k = i && D.totalNumel k ≠ 0)
  | .leave i => fun k => full k && !(k = i && D.config.strategy = .fullShard)
  | .save _ => full

variable (D) {trace : List (Event Var)} in
/-- No unit is gathered again after an operator has saved one of its parameters. -/
def Undisturbed (full : ℕ → Bool) (saved : List Var) : List (Event Var) → Prop
  | [] => True
  | e :: rest =>
    match e with
    | .enter i => (D.gathers full i → ∀ v ∈ saved, v ∉ D.params i) ∧
        Undisturbed (D.flagsAfter full (.enter i)) saved rest
    | .leave i => Undisturbed (D.flagsAfter full (.leave i)) saved rest
    | .save v => Undisturbed full (v :: saved) rest

theorem Flags.runEvent (h : Flags w full) (e : Event Var) :
    Flags (D.runEvent w e) (D.flagsAfter full e) := by
  cases e with
  | enter i => exact h.allGatherParams i
  | leave i =>
    rw [FullyShardedDataParallel.runEvent]
    split
    · exact h.freeFullParams i
    next hne => exact fun r k => by simp [h r k, flagsAfter, hne]
  | save v => exact h

/-- What the ranks agree on, and the rest of the training, through the forward. -/
structure Running (w : Fin W → Rank D.numel α σ) (P : Tensors D.numel α)
    (S : Fin W → Tensors D.numel σ) (saved : List Var) : Prop where
  values : ∀ r v j, (w r).learner.values v j = P v j
  states : ∀ r, (w r).learner.states = S r
  grads : ∀ r v, (w r).grads v = none
  saved : ∀ r, (w r).saved.map Prod.fst = saved
  current : ∀ r, D.SavedCurrent (w r)

variable {P : Tensors D.numel α} {S : Fin W → Tensors D.numel σ} {saved : List Var}

theorem Running.enter (hs : D.config.strategy ≠ .noShard) (h : Running w P S saved)
    (hflags : Flags w full) (hi : D.gathers full i → ∀ v ∈ saved, v ∉ D.params i) :
    Running (D.allGatherParams i w) P S saved where
  values r v j := allGatherParams_keeps hs i (fun q => h.values q v j) r
  states r := allGatherParams_states.trans (h.states r)
  grads r v := by rw [allGatherParams_grads, h.grads]
  saved r := by rw [allGatherParams_saved, h.saved]
  current r s hsaved := by
    rw [allGatherParams_saved] at hsaved
    rw [← h.current r s hsaved]
    cases hg : D.gathers full i with
    | false => rw [allGatherParams_of_not ((hflags.needsGather r i).trans hg)]
    | true =>
      refine allGatherParams_version_of_notMem (hi hg s.1 ?_)
      rw [← h.saved r]
      exact mem_map_of_mem hsaved

theorem Running.save (h : Running w P S saved) (v : Var) :
    Running (D.runEvent w (.save v)) P S (v :: saved) where
  values := h.values
  states := h.states
  grads := h.grads
  saved r := congrArg (v :: ·) (h.saved r)
  current r s hsaved := by
    cases mem_cons.mp hsaved with
    | inl heq => rw [heq]; rfl
    | inr hmem => exact h.current r s hmem

omit [DecidableEq Var] [DivisionRing α] in
theorem Running.free (h : Running w P S saved) (i : ℕ) :
    Running (D.freeFullParams i w) P S saved where
  values := h.values
  states := h.states
  grads := h.grads
  saved := h.saved
  current := h.current

theorem Running.run (hs : D.config.strategy ≠ .noShard) (h : Running w P S saved)
    (hflags : Flags w full) (hu : D.Undisturbed full saved trace) :
    ∃ saved', Running (trace.foldl D.runEvent w) P S saved' := by
  induction trace generalizing w full saved with
  | nil => exact ⟨saved, h⟩
  | cons e rest ih =>
    have hnext := hflags.runEvent e
    cases e with
    | enter i => exact ih (h.enter hs hflags hu.1) hnext hu.2
    | leave i =>
      refine ih ?_ hnext hu
      rw [runEvent]
      split
      · exact h.free i
      · exact h
    | save v => exact ih (h.save v) hnext hu

theorem Flags.run (h : Flags w full) (trace : List (Event Var)) :
    Flags (trace.foldl D.runEvent w) (trace.foldl D.flagsAfter full) := by
  induction trace generalizing w full with
  | nil => exact h
  | cons e rest ih => exact ih (h.runEvent e)

/-- Only units with parameters are full, and all of them unless they are freed. -/
def Sound (full : ℕ → Bool) : Prop :=
  (∀ k, full k = true → D.totalNumel k ≠ 0) ∧
    (D.config.strategy ≠ .fullShard → ∀ k, full k = D.materialized k)

omit [DecidableEq Var] in
theorem sound_flagsAfter {full : ℕ → Bool} (h : D.Sound full) (e : Event Var) :
    D.Sound (D.flagsAfter full e) := by
  refine ⟨fun k hk => ?_, fun hne k => ?_⟩
  · cases e with
    | enter i =>
      simp only [flagsAfter, Bool.or_eq_true, Bool.and_eq_true] at hk
      cases hk with
      | inl hfull => exact h.1 k hfull
      | inr hset => exact of_decide_eq_true hset.2
    | leave i =>
      simp only [flagsAfter, Bool.and_eq_true] at hk
      exact h.1 k hk.1
    | save v => exact h.1 k hk
  · cases e with
    | enter i =>
      simp only [flagsAfter, h.2 hne k, materialized]
      cases decide (D.totalNumel k ≠ 0) with
      | false => simp
      | true => simp
    | leave i =>
      simp [flagsAfter, h.2 hne k, hne]
    | save v => exact h.2 hne k

omit [DecidableEq Var] in
theorem sound_run {full : ℕ → Bool} (h : D.Sound full) (trace : List (Event Var)) :
    D.Sound (trace.foldl D.flagsAfter full) := by
  induction trace generalizing full with
  | nil => exact h
  | cons e rest ih => exact ih (sound_flagsAfter h e)

omit [DecidableEq Var] [DivisionRing α] in
theorem Running.freeAll (h : Running w P S saved) : Running (D.freeAll w) P S saved := by
  rw [FullyShardedDataParallel.freeAll]
  generalize List.range D.units.length = is
  induction is generalizing w with
  | nil => exact h
  | cons i is ih => exact ih (h.free i)

omit [DecidableEq Var] [DivisionRing α] in
theorem Flags.freeAll (h : Flags w full) (hsound : D.Sound full)
    (hstrategy : D.config.strategy = .fullShard) : Flags (D.freeAll w) D.idle := by
  have hfold : ∀ (is : List ℕ) (w : Fin W → Rank D.numel α σ) (full : ℕ → Bool), Flags w full →
      Flags (is.foldl (fun w i => D.freeFullParams i w) w) fun k => full k && !(k ∈ is) := by
    intro is
    induction is with
    | nil => exact fun w full h r k => by simp [h r k]
    | cons i is ih =>
      intro w full h r k
      rw [foldl_cons, ih _ _ (h.freeFullParams i) r k]
      simp [hstrategy, Bool.and_assoc]
  intro r k
  rw [FullyShardedDataParallel.freeAll, hfold _ _ _ h r k, idle, hstrategy]
  by_cases hk : k < D.units.length
  · simp [hk]
  · have hfull : full k = false := by
      cases hf : full k with
      | false => rfl
      | true => exact absurd (totalNumel_of_le (not_lt.mp hk)) (hsound.1 k hf)
    simp [hfull]

omit [DecidableEq Var] [DivisionRing α] in
theorem sound_materialized : D.Sound D.materialized :=
  ⟨fun _ hk => of_decide_eq_true hk, fun _ _ => rfl⟩

theorem Flags.forward (h : Flags w D.idle) (trace : List (Event Var)) :
    Flags (D.forward trace w) D.idle := by
  have hafter := h.gatherAll.run trace
  have hsound : D.Sound (trace.foldl D.flagsAfter D.materialized) :=
    sound_run sound_materialized trace
  rw [FullyShardedDataParallel.forward]
  by_cases hstrategy : D.config.strategy = .fullShard
  · rw [if_pos hstrategy]
    exact hafter.freeAll hsound hstrategy
  · rw [if_neg hstrategy]
    intro r k
    rw [hafter r k, hsound.2 hstrategy k, idle, materialized, decide_eq_true hstrategy,
      Bool.and_true]

/-- A forward leaves every rank with the gathered parameters. -/
theorem Running.forward (hs : D.config.strategy ≠ .noShard) (hflags : Flags w D.idle)
    (h : Running (D.gatherAll w) P S []) (hu : D.Undisturbed D.materialized [] trace) :
    ∃ saved, Running (D.forward trace w) P S saved := by
  obtain ⟨saved, hrun⟩ := h.run hs hflags.gatherAll hu
  refine ⟨saved, ?_⟩
  rw [FullyShardedDataParallel.forward]
  split
  · exact hrun.freeAll
  · exact hrun

end Forward

/-! ## A round -/

section Round

variable {w : Fin W → Rank D.numel α σ} {l : Learner D.numel α σ} {full : ℕ → Bool}

/-- The sources hold the parameters and the states of the single process. -/
structure Tracks (w : Fin W → Rank D.numel α σ) (l : Learner D.numel α σ) : Prop where
  flags : Flags w D.idle
  saved : ∀ r, (w r).saved = []
  grads : ∀ r v, (w r).grads v = none
  same : ∀ r v j, SameAt (w (D.source r (D.home v) v j)).learner l v j

theorem Tracks.gatherAll_values (hs : D.config.strategy ≠ .noShard) (h : Tracks w l) (r : Fin W)
    (v : Var) (j : Fin (D.numel v)) : (D.gatherAll w r).learner.values v j = l.values v j := by
  obtain ⟨i, hv⟩ := exists_unit D v
  rw [FullyShardedDataParallel.gatherAll_values hs h.flags hv, (h.same r v j).1]

@[simp] theorem gatherAll_saved (w : Fin W → Rank D.numel α σ) (r : Fin W) :
    (D.gatherAll w r).saved = (w r).saved := by
  rw [gatherAll]
  generalize List.range D.units.length = is
  induction is generalizing w with
  | nil => rfl
  | cons i is ih => rw [foldl_cons, ih, allGatherParams_saved]

theorem Tracks.running (hs : D.config.strategy ≠ .noShard) (h : Tracks w l) :
    Running (D.gatherAll w) l.values (fun r => (w r).learner.states) [] where
  values := h.gatherAll_values hs
  states := (sameTraining_gatherAll w).states
  grads r v := by rw [(sameTraining_gatherAll w).grads, h.grads]
  saved r := by rw [gatherAll_saved, h.saved, map_nil]
  current r s hsaved := by
    rw [gatherAll_saved, h.saved] at hsaved
    exact absurd hsaved not_mem_nil

theorem Flags.reduceScatterGrads (h : Flags w full)
    (hfull : ∀ k, full k = true → D.totalNumel k ≠ 0) (i : ℕ) :
    Flags (D.reduceScatterGrads i w) fun k =>
      full k && !(k = i && D.config.strategy = .fullShard) := by
  intro r k
  rw [FullyShardedDataParallel.reduceScatterGrads]
  split
  next hzero =>
    rw [h r k]
    by_cases hk : k = i
    · have hnot : full k = false := by
        cases hf : full k with
        | false => rfl
        | true => exact absurd (hk ▸ hzero) (hfull k hf)
      simp [hnot]
    · simp [hk]
  · split
    · exact Flags.freeFullParams (fun r k => h r k) i r k
    next hne =>
      rw [h r k]
      simp [hne]

/-- The units are as between two calls again after the reductions. -/
theorem Flags.foldl_reduce (h : Flags w full) (hsound : D.Sound full) :
    Flags ((List.range D.units.length).foldl (fun w i => D.reduceScatterGrads i w) w) D.idle := by
  have hfold : ∀ (is : List ℕ) (w : Fin W → Rank D.numel α σ) (full : ℕ → Bool), Flags w full →
      (∀ k, full k = true → D.totalNumel k ≠ 0) →
      Flags (is.foldl (fun w i => D.reduceScatterGrads i w) w) fun k =>
        full k && !(k ∈ is && D.config.strategy = .fullShard) := by
    intro is
    induction is with
    | nil => exact fun w full h _ r k => by simp [h r k]
    | cons i is ih =>
      intro w full h hfull r k
      rw [foldl_cons, ih _ _ (h.reduceScatterGrads hfull i) _ r k]
      · by_cases hstrategy : D.config.strategy = .fullShard
        · simp [hstrategy, Bool.and_assoc]
        · simp [hstrategy]
      · exact fun k hk => hfull k (Bool.and_eq_true_iff.mp hk).1
  intro r k
  rw [hfold _ _ _ h hsound.1 r k, idle]
  by_cases hstrategy : D.config.strategy = .fullShard
  · by_cases hk : k < D.units.length
    · simp [hk, hstrategy]
    · have hfull : full k = false := by
        cases hf : full k with
        | false => rfl
        | true => exact absurd (totalNumel_of_le (not_lt.mp hk)) (hsound.1 k hf)
      simp [hfull, hstrategy]
  · simp [hsound.2 hstrategy k, materialized, hstrategy]

omit [DecidableEq Var] in
/-- Gradients are stored as they come when there were none. -/
theorem addGrads_of_none {numel : Var → ℕ} {old new : Grads numel α} (h : ∀ v, old v = none) :
    addGrads old new = new := by
  ext1 v
  rw [addGrads, h]
  cases new v with
  | none => rfl
  | some b => rfl

/-- What a round has come to before the reductions. -/
structure Computed (w : Fin W → Rank D.numel α σ) (P : Tensors D.numel α)
    (S : Fin W → Tensors D.numel σ) (g : Fin W → Grads D.numel α) : Prop where
  values : ∀ r v j, (w r).learner.values v j = P v j
  states : ∀ r, (w r).learner.states = S r
  grads : ∀ r, (w r).grads = g r
  saved : ∀ r, (w r).saved = []

variable {P : Tensors D.numel α} {S : Fin W → Tensors D.numel σ} {g : Fin W → Grads D.numel α}

omit [DecidableEq Var] in
theorem Running.backward {saved : List Var} (h : Running w P S saved) (round : Round D.numel α (Fin W)) :
    ∃ w', D.backward round w = some w' ∧ Computed w' P S (fun r => round r P) ∧
      ∀ full, Flags w full → Flags w' full := by
  refine ⟨_, if_pos h.current, ⟨h.values, h.states, fun r => ?_, fun _ => rfl⟩, fun _ hf => hf⟩
  have hvalues : (w r).learner.values = P := by
    ext v j
    exact h.values r v j
  rw [addGrads_of_none (h.grads r), hvalues]

theorem Computed.gatherAll (hs : D.config.strategy ≠ .noShard) (h : Computed w P S g) :
    Computed (D.gatherAll w) P S g where
  values r v j := foldl_gather_keeps hs _ (fun q => h.values q v j) r
  states r := ((sameTraining_gatherAll w).states r).trans (h.states r)
  grads r := ((sameTraining_gatherAll w).grads r).trans (h.grads r)
  saved r := (gatherAll_saved w r).trans (h.saved r)

theorem Flags.finalizeBackward (h : Flags w D.idle) : Flags (D.finalizeBackward w) D.idle := by
  rw [FullyShardedDataParallel.finalizeBackward]
  by_cases hstrategy : D.config.strategy = .fullShard
  · rw [if_pos hstrategy]
    exact h.gatherAll.foldl_reduce sound_materialized
  · rw [if_neg hstrategy]
    refine h.foldl_reduce ⟨fun k hk => ?_, fun _ k => ?_⟩
    · exact of_decide_eq_true (Bool.and_eq_true_iff.mp hk).1
    · rw [idle, materialized, decide_eq_true hstrategy, Bool.and_true]

/-- After `finalize_backward` the sources hold the averages. -/
theorem Computed.finalizeBackward (hs : D.config.strategy ≠ .noShard) (hu : W = 1 ∨ D.Untied)
    (h : Computed w P S g) :
    (∀ r, (D.finalizeBackward w r).saved = []) ∧
      (∀ r v j, (D.finalizeBackward w r).learner.values v j = P v j) ∧
      (∀ r, (D.finalizeBackward w r).learner.states = S r) ∧
      ∀ r v j, (D.finalizeBackward w (D.source r (D.home v) v j)).grads.at v j =
        (average g).at v j := by
  have hready : Computed (if D.config.strategy = .fullShard then D.gatherAll w else w) P S g := by
    split
    · exact h.gatherAll hs
    · exact h
  rw [FullyShardedDataParallel.finalizeBackward]
  refine ⟨fun r => ?_, fun r v j => ?_, fun r => ?_, fun r v j => ?_⟩
  · rw [foldl_reduce_saved, hready.saved]
  · rw [foldl_reduce_learner, hready.values]
  · rw [foldl_reduce_learner, hready.states]
  · obtain ⟨i, hv⟩ := exists_unit D v
    rw [foldl_reduce_at hu hv]
    simp only [hready.grads]

/-- A round moves the sources as the single process moves. -/
theorem Tracks.round (hs : D.config.strategy ≠ .noShard) (hu : W = 1 ∨ D.Untied)
    (h : Tracks w l) (opt : Optimizer α σ) {b : Batch D.numel α W}
    (hb : D.Undisturbed D.materialized [] b.trace) :
    ∃ w', b.actions.foldlM (D.act opt) w = some w' ∧
      Tracks w' (opt.step (average fun r => b.round r l.values) l) := by
  obtain ⟨saved, hforward⟩ := (h.running hs).forward hs h.flags hb
  obtain ⟨w₂, hbackward, hcomputed, hkeep⟩ := hforward.backward b.round
  obtain ⟨hsaved, hvalues, hstates, hgrads⟩ := hcomputed.finalizeBackward hs hu
  have hflags := (hkeep _ (h.flags.forward b.trace)).finalizeBackward
  refine ⟨D.zeroGrad (D.optimizerStep opt (D.finalizeBackward w₂)), ?_, ?_⟩
  · simp [Batch.actions, act, hbackward]
  · refine ⟨hflags, hsaved, fun _ _ => rfl, fun r v j => ?_⟩
    refine SameAt.step ⟨hvalues _ v j, ?_⟩ (hgrads r v j)
    rw [hstates]
    exact (h.same r v j).2

/-- Training from a world that tracks a single process. -/
theorem Tracks.rounds (hs : D.config.strategy ≠ .noShard) (hu : W = 1 ∨ D.Untied)
    (h : Tracks w l) (opt : Optimizer α σ) {batches : List (Batch D.numel α W)}
    (hb : ∀ b ∈ batches, D.Undisturbed D.materialized [] b.trace) :
    ∃ w', (batches.flatMap Batch.actions).foldlM (D.act opt) w = some w' ∧
      Tracks w' (train opt l (batches.map Batch.round)) := by
  induction batches generalizing w l with
  | nil => exact ⟨w, rfl, h⟩
  | cons b batches ih =>
    obtain ⟨w₁, hw₁, htracks⟩ := h.round hs hu opt (hb b mem_cons_self)
    obtain ⟨w', hw', hdone⟩ := ih htracks fun c hc => hb c (mem_cons_of_mem _ hc)
    refine ⟨w', ?_, hdone⟩
    rw [flatMap_cons, foldlM_append, hw₁]
    exact hw'

end Round

/-! ## From the start -/

omit [DecidableEq Var] in
theorem flags_start (learners : Fin W → Learner D.numel α σ) :
    Flags (D.start learners) D.idle := by
  intro r k
  change (D.construct (learners r).values r k).paramsFull = _
  rw [construct, idle]
  split
  next hzero => simp [hzero]
  next hne =>
    dsimp only
    split
    · rw [UnitState.offloadToCpu]
      split
      · simp [hne]
      · simp [hne]
    · simp [hne]

omit [DecidableEq Var] in
theorem tracks_start (l : Learner D.numel α σ) [DecidableEq Var] :
    Tracks (W := W) (D.start fun _ => l) l :=
  ⟨flags_start _, fun _ => rfl, fun _ _ => rfl, fun _ _ _ => ⟨rfl, rfl⟩⟩

/-- Any rounds of training leave, after the next gather, every rank with the parameters of the
single process that trains on the averaged gradients: when no parameter is in two units, or
there is one rank, and no forward gathers a unit again after a parameter of it was saved. -/
theorem rounds_train (hs : D.config.strategy ≠ .noShard) (hu : W = 1 ∨ D.Untied)
    (opt : Optimizer α σ) (l : Learner D.numel α σ) (batches : List (Batch D.numel α W))
    (hb : ∀ b ∈ batches, D.Undisturbed D.materialized [] b.trace) :
    ∃ w, (batches.flatMap Batch.actions).foldlM (D.act opt) (D.start fun _ => l) = some w ∧
      ∀ r v j, (D.gatherAll w r).learner.values v j =
        (train opt l (batches.map Batch.round)).values v j := by
  obtain ⟨w, hw, htracks⟩ := (tracks_start l).rounds hs hu opt hb
  exact ⟨w, hw, htracks.gatherAll_values hs⟩

end Tenzor.Fsdp.FullyShardedDataParallel

namespace Tenzor.Fsdp

open ElementwiseTraining

/-- Plain gradient descent with rate one. -/
def descent : Optimizer ℚ Unit := ⟨fun x g s => (x - g, s)⟩

def fromZero (numel : Unit → ℕ) : Learner numel ℚ Unit := ⟨fun _ _ => 0, fun _ _ => ()⟩

/-- A module with one parameter of three elements, so that the last shard of two is padded. -/
def oneLayer : FullyShardedDataParallel Unit where
  model :=
    { shape := fun _ => [3], requiresGrad := fun _ => true, root := .node [()] []
      registers := by decide }
  config := { strategy := .fullShard, cpuOffload := false, autoWrapMinParams := 1 }
  namedParameters := fun _ => [("weight", ())]

/-- A round of two ranks, where rank `r` has the gradient `r` everywhere. -/
def rankBatch (D : FullyShardedDataParallel Unit) (trace : List (FullyShardedDataParallel.Event Unit)) :
    FullyShardedDataParallel.Batch D.numel ℚ 2 :=
  ⟨trace, fun r _ _ => some fun _ => (r.val : ℚ)⟩

/-- The layer is entered, its parameter saved, and the layer left. -/
def oneLayerBatch : FullyShardedDataParallel.Batch oneLayer.numel ℚ 2 :=
  rankBatch oneLayer [.enter 0, .save (), .leave 0]

theorem rounds_train_oneLayer :
    ∃ w, ([oneLayerBatch, oneLayerBatch].flatMap FullyShardedDataParallel.Batch.actions).foldlM
        (oneLayer.act descent) (oneLayer.start fun _ => fromZero oneLayer.numel) = some w ∧
      ∀ r v j, (oneLayer.gatherAll w r).learner.values v j =
        (train descent (fromZero oneLayer.numel)
          ([oneLayerBatch, oneLayerBatch].map FullyShardedDataParallel.Batch.round)).values v j :=
  FullyShardedDataParallel.rounds_train (by decide) (.inr (by
      rw [FullyShardedDataParallel.Untied]
      decide +kernel)) descent (fromZero oneLayer.numel) _ fun b hb => by
    have heq : b = oneLayerBatch := by simpa using hb
    rw [heq]
    exact ⟨fun h => absurd h (by decide +kernel), trivial⟩

/-- Two layers that share their parameter, each a unit of its own. -/
def tiedLayers : FullyShardedDataParallel Unit where
  model :=
    { shape := fun _ => [2], requiresGrad := fun _ => true
      root := .node [] [.node [()] [], .node [()] []]
      registers := by decide }
  config := { strategy := .fullShard, cpuOffload := false, autoWrapMinParams := 1 }
  namedParameters := fun _ => [("weight", ())]

def tiedBatch : FullyShardedDataParallel.Batch tiedLayers.numel ℚ 2 :=
  rankBatch tiedLayers [.enter 0, .save (), .leave 0, .enter 1, .save (), .leave 1]

/-- The gradient of a parameter of two units is divided by the number of ranks twice. -/
theorem tied_layers_move_half :
    ¬ ∃ w, ([tiedBatch].flatMap FullyShardedDataParallel.Batch.actions).foldlM
        (tiedLayers.act descent) (tiedLayers.start fun _ => fromZero tiedLayers.numel) = some w ∧
      ∀ r v j, (tiedLayers.gatherAll w r).learner.values v j =
        (train descent (fromZero tiedLayers.numel)
          ([tiedBatch].map FullyShardedDataParallel.Batch.round)).values v j := by
  rintro ⟨w, hw, hvalues⟩
  have hrun : (([tiedBatch].flatMap FullyShardedDataParallel.Batch.actions).foldlM
      (tiedLayers.act descent) (tiedLayers.start fun _ => fromZero tiedLayers.numel)).map
        (fun w => (tiedLayers.gatherAll w 0).learner.values () ⟨0, by decide⟩) = some (-1 / 4) := by
    decide +kernel
  have htrain : (train descent (fromZero tiedLayers.numel)
      ([tiedBatch].map FullyShardedDataParallel.Batch.round)).values () ⟨0, by decide⟩ = -1 / 2 := by
    decide +kernel
  rw [hw, Option.map_some, hvalues] at hrun
  exact absurd hrun (by decide +kernel)

end Tenzor.Fsdp
