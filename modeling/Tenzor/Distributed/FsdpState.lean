import Tenzor.Distributed.FsdpTraining
import Tenzor.Lib.Throwing

/-!
# The saved state of a sharded instance

`state_dict` saves the shard of every unit, and `load_state_dict` puts it back into
the shard. The next gather takes the shards from the parameters of the module, so
what was loaded is never used.
-/

namespace Tenzor.Fsdp

open FlatBuffer ElementwiseTraining Throwing List

/-- The keys of a saved state. A parameter is named by the string that `param_names` finds for it,
and two parameters of a unit may have one name. -/
inductive Key
  | worldSize
  | rank
  | numUnits
  | totalNumel (i : ℕ)
  | shardNumel (i : ℕ)
  | shardOffset (i : ℕ)
  | paramNumel (i : ℕ) (name : String)
  | paramShape (i : ℕ) (name : String)
  | shard (i : ℕ)
  deriving DecidableEq

inductive Entry (α : Type)
  | scalar (n : ℕ)
  | sizes (shape : List ℕ)
  | tensor (t : Option (Flat α))

abbrev StateDict (α : Type) := Key → Option (Entry α)

/-- What `load_state_dict` throws. -/
inductive LoadError
  | missingKey (key : Key)
  | worldSizeMismatch (saved current : ℕ)
  | rankMismatch (saved current : ℕ)
  | numUnitsMismatch (saved current : ℕ)
  | totalNumelMismatch (i saved current : ℕ)
  | shardNumelMismatch (i saved current : ℕ)
  | paramRankMismatch (i : ℕ) (name : String)
  | paramShapeMismatch (i : ℕ) (name : String) (k : ℕ)
  | shardSizeMismatch (expected got : ℕ)
  | uninitializedTensor

namespace FullyShardedDataParallel

variable {Var α σ : Type} (D : FullyShardedDataParallel Var) [DecidableEq Var] {W : ℕ}

/-- The name of one parameter in `param_names`: the last one that the unit's module lists for it. -/
def paramName (i : ℕ) (v : Var) : String :=
  (D.namedParameters i).foldl (fun name e => if e.2 = v then e.1 else name) "<unknown>"

/-- The parameter whose entries `state_dict` writes last under the name. -/
def lastNamed (i : ℕ) (name : String) : Option Var :=
  (D.params i).reverse.find? fun v => D.paramName i v = name

/-- `state_dict` of a rank. -/
def stateDict (r : Fin W) (rank : Rank D.numel α σ) : StateDict α
  | .worldSize => some (.scalar W)
  | .rank => some (.scalar r)
  | .numUnits => some (.scalar D.units.length)
  | .totalNumel i => if i < D.units.length then some (.scalar (D.totalNumel i)) else none
  | .shardNumel i => if i < D.units.length then some (.scalar (D.shardNumel W i)) else none
  | .shardOffset i =>
    if i < D.units.length then some (.scalar (r * D.shardNumel W i)) else none
  | .paramNumel i name => (D.lastNamed i name).map fun v => .scalar (D.numel v)
  | .paramShape i name => (D.lastNamed i name).map fun v => .sizes (D.model.shape v)
  | .shard i => if i < D.units.length then some (.tensor (rank.units i).localShard) else none

/-- The first element of a tensor that `state_dict` has made of a number. -/
def getScalar (state : StateDict α) (key : Key) : Except LoadError ℕ :=
  match state key with
  | some (.scalar n) => .ok n
  | _ => .error (.missingKey key)

def getSizes (state : StateDict α) (key : Key) : Except LoadError (List ℕ) :=
  match state key with
  | some (.sizes shape) => .ok shape
  | _ => .error (.missingKey key)

def getTensor (state : StateDict α) (key : Key) : Except LoadError (Option (Flat α)) :=
  match state key with
  | some (.tensor t) => .ok t
  | _ => .error (.missingKey key)

/-- A tensor that holds nothing has no elements. -/
def numelOf (t : Option (Flat α)) : ℕ := t.elim 0 Flat.numel

/-- `copy_local_shard_from`. The check of the dtypes throws on a tensor that holds nothing. -/
def copyLocalShardFrom (src : Option (Flat α)) (s : UnitState α) :
    Except LoadError (UnitState α) := do
  throwIf (numelOf src ≠ numelOf s.localShard)
    (.shardSizeMismatch (numelOf s.localShard) (numelOf src))
  throwIf (src.isNone ∨ s.localShard.isNone) .uninitializedTensor
  return { s with localShard := src }

/-- The check of a parameter's shape. -/
def checkShape (state : StateDict α) (i : ℕ) (v : Var) : Except LoadError Unit := do
  let name := D.paramName i v
  let saved ← getSizes state (.paramShape i name)
  throwIf (saved.length ≠ (D.model.shape v).length) (.paramRankMismatch i name)
  throwIf (saved ≠ D.model.shape v) (.paramShapeMismatch i name
    ((saved.zip (D.model.shape v)).findIdx fun e => e.1 ≠ e.2))

/-- What `load_state_dict` does for one unit. -/
def loadUnit (state : StateDict α) (W : ℕ) (i : ℕ) (rank : Rank D.numel α σ) :
    Except LoadError (Rank D.numel α σ) := do
  let totalSaved ← getScalar state (.totalNumel i)
  let shardSaved ← getScalar state (.shardNumel i)
  throwIf (totalSaved ≠ D.totalNumel i) (.totalNumelMismatch i totalSaved (D.totalNumel i))
  throwIf (shardSaved ≠ D.shardNumel W i) (.shardNumelMismatch i shardSaved (D.shardNumel W i))
  (D.params i).forM (D.checkShape state i)
  let src ← getTensor state (.shard i)
  let s ← copyLocalShardFrom src (rank.units i)
  return rank.setUnit i s

/-- `load_state_dict` of a rank. -/
def loadStateDict (r : Fin W) (state : StateDict α) (rank : Rank D.numel α σ) :
    Except LoadError (Rank D.numel α σ) := do
  let worldSaved ← getScalar state .worldSize
  let rankSaved ← getScalar state .rank
  let unitsSaved ← getScalar state .numUnits
  throwIf (worldSaved ≠ W) (.worldSizeMismatch worldSaved W)
  throwIf (rankSaved ≠ r) (.rankMismatch rankSaved r)
  throwIf (unitsSaved ≠ D.units.length) (.numUnitsMismatch unitsSaved D.units.length)
  (List.range D.units.length).foldlM (fun rank i => D.loadUnit state W i rank) rank

variable {D} {r : Fin W} {i : ℕ} {v : Var} {saver rank : Rank D.numel α σ}

omit [DecidableEq Var] in
theorem copyLocalShardFrom_eq_ok {src : Option (Flat α)} {s s' : UnitState α} :
    (copyLocalShardFrom src s : Except LoadError _) = .ok s' ↔
      ∃ a b, src = some a ∧ s.localShard = some b ∧ a.numel = b.numel ∧
        s' = { s with localShard := some a } := by
  simp only [copyLocalShardFrom, bind_eq_ok, throwIf_eq_ok, pure_eq_ok, not_or, not_not,
    Bool.not_eq_true, Option.isNone_eq_false_iff, Option.isSome_iff_exists]
  constructor
  · rintro ⟨_, hnumel, _, ⟨⟨a, ha⟩, b, hb⟩, rfl⟩
    rw [ha, hb] at hnumel
    exact ⟨a, b, ha, hb, hnumel, by rw [ha]⟩
  · rintro ⟨a, b, rfl, hb, hnumel, rfl⟩
    exact ⟨(), by rw [hb]; exact hnumel, (), ⟨⟨a, rfl⟩, b, hb⟩, rfl⟩

variable (D) in
/-- Parameters of the unit that share a name share their shape. -/
def NamesFit (i : ℕ) : Prop :=
  ∀ u ∈ D.params i, ∀ v ∈ D.params i,
    D.paramName i u = D.paramName i v → D.model.shape u = D.model.shape v

theorem lastNamed_of_mem (h : v ∈ D.params i) :
    ∃ u ∈ D.params i, D.paramName i u = D.paramName i v ∧
      D.lastNamed i (D.paramName i v) = some u := by
  have hfound : (D.lastNamed i (D.paramName i v)).isSome := by
    rw [lastNamed, find?_isSome]
    exact ⟨v, mem_reverse.mpr h, by simp⟩
  obtain ⟨u, hu⟩ := Option.isSome_iff_exists.mp hfound
  have hname := find?_some hu
  exact ⟨u, mem_reverse.mp (mem_of_find?_eq_some hu), by simpa using hname, hu⟩

/-- A parameter passes the check of its shape when the last one of its name has that shape. -/
theorem checkShape_stateDict {u : Var} (hu : D.lastNamed i (D.paramName i v) = some u) :
    D.checkShape (D.stateDict r saver) i v = .ok () ↔ D.model.shape u = D.model.shape v := by
  have hget : getSizes (D.stateDict r saver) (.paramShape i (D.paramName i v)) =
      .ok (D.model.shape u) := by
    rw [getSizes, stateDict, hu]
    rfl
  simp only [checkShape, hget, bind_eq_ok, throwIf_eq_ok, not_not]
  constructor
  · rintro ⟨_, hsaved, _, -, hshape⟩
    rw [Except.ok.inj hsaved]
    exact hshape
  · intro hshape
    exact ⟨_, rfl, (), congrArg List.length hshape, hshape⟩

theorem checkShapes_stateDict :
    (D.params i).forM (D.checkShape (D.stateDict r saver) i) = .ok () ↔ D.NamesFit i := by
  refine forM_eq_ok.trans ⟨?_, ?_⟩
  · intro h u hu v hv hname
    obtain ⟨w, -, -, hlast⟩ := lastNamed_of_mem hv
    have hcheck := (checkShape_stateDict (by rw [hname]; exact hlast)).mp (h u hu)
    exact hcheck.symm.trans ((checkShape_stateDict hlast).mp (h v hv))
  · intro h v hv
    obtain ⟨u, hu, hname, hlast⟩ := lastNamed_of_mem hv
    exact (checkShape_stateDict hlast).mpr (h u hu v hv hname)

/-- Parameters of one name agree, and both ranks hold a shard of the unit, of one size. -/
def Restorable (saver rank : Rank D.numel α σ) (i : ℕ) : Prop :=
  D.NamesFit i ∧ ∃ a b, (saver.units i).localShard = some a ∧
    (rank.units i).localShard = some b ∧ a.numel = b.numel

/-- Only shards differ. -/
structure SameButShards (rank rank' : Rank D.numel α σ) : Prop where
  learner : rank'.learner = rank.learner
  full : ∀ i, (rank'.units i).paramsFull = (rank.units i).paramsFull

/-- Loading a unit from a state of the same structure checks the shapes and copies the shard. -/
theorem loadUnit_eq_ok {rank' : Rank D.numel α σ} (hi : i < D.units.length) :
    D.loadUnit (D.stateDict r saver) W i rank = .ok rank' ↔
      D.NamesFit i ∧ ∃ a b, (saver.units i).localShard = some a ∧
        (rank.units i).localShard = some b ∧ a.numel = b.numel ∧
        rank' = rank.setUnit i { rank.units i with localShard := some a } := by
  have htotal : getScalar (D.stateDict r saver) (.totalNumel i) = .ok (D.totalNumel i) := by
    rw [getScalar, stateDict, if_pos hi]
  have hshard : getScalar (D.stateDict r saver) (.shardNumel i) = .ok (D.shardNumel W i) := by
    rw [getScalar, stateDict, if_pos hi]
  have hsrc : getTensor (D.stateDict r saver) (.shard i) = .ok (saver.units i).localShard := by
    rw [getTensor, stateDict, if_pos hi]
  rw [loadUnit, htotal, hshard, hsrc]
  simp only [bind_eq_ok, throwIf_eq_ok, pure_eq_ok, copyLocalShardFrom_eq_ok]
  constructor
  · rintro ⟨_, -, _, -, _, -, _, -, _, hfit, _, hsaved, _, ⟨a, b, rfl, hb, hnumel, rfl⟩, rfl⟩
    exact ⟨checkShapes_stateDict.mp hfit, a, b, Except.ok.inj hsaved, hb, hnumel, rfl⟩
  · rintro ⟨hfit, a, b, ha, hb, hnumel, rfl⟩
    exact ⟨_, rfl, _, rfl, (), not_not.mpr rfl, (), not_not.mpr rfl, (), checkShapes_stateDict.mpr hfit,
      _, rfl, _,
      ⟨a, b, ha, hb, hnumel, rfl⟩, rfl⟩

omit [DecidableEq Var] in
theorem sameButShards_setUnit (rank : Rank D.numel α σ) (i : ℕ) (shard : Option (Flat α)) :
    SameButShards rank (rank.setUnit i { rank.units i with localShard := shard }) := by
  refine ⟨rfl, fun k => ?_⟩
  by_cases hk : k = i
  · subst hk
    simp [Rank.setUnit]
  · simp [Rank.setUnit, hk]

theorem restorable_setUnit {k : ℕ} (hk : k ≠ i) (s : UnitState α) :
    Restorable saver (rank.setUnit i s) k ↔ Restorable saver rank k := by
  rw [Restorable, Restorable, Rank.setUnit]
  simp only [Function.update_of_ne hk]

/-- The loop over the units returns exactly when every unit can be restored. -/
theorem loadUnits_ok {is : List ℕ} (hnodup : is.Nodup) (his : ∀ i ∈ is, i < D.units.length) :
    ((∃ rank', is.foldlM (fun rank i => D.loadUnit (D.stateDict r saver) W i rank) rank =
        .ok rank') ↔ ∀ i ∈ is, Restorable saver rank i) ∧
      ∀ rank', is.foldlM (fun rank i => D.loadUnit (D.stateDict r saver) W i rank) rank =
        .ok rank' → SameButShards rank rank' := by
  induction is generalizing rank with
  | nil =>
    refine ⟨⟨fun _ _ h => absurd h not_mem_nil, fun _ => ⟨rank, rfl⟩⟩, ?_⟩
    intro rank' h
    rw [foldlM_nil, pure_eq_ok] at h
    exact h ▸ ⟨rfl, fun _ => rfl⟩
  | cons i is ih =>
    obtain ⟨hnot, hrest⟩ := nodup_cons.mp hnodup
    have hi := his i mem_cons_self
    have hnext := fun rank => @ih rank hrest fun k hk => his k (mem_cons_of_mem _ hk)
    have hmove : ∀ s, (∀ k ∈ is, Restorable saver (rank.setUnit i s) k) ↔
        ∀ k ∈ is, Restorable saver rank k := fun s =>
      forall₂_congr fun k hk => restorable_setUnit (fun heq : k = i => hnot (heq ▸ hk)) s
    refine ⟨?_, fun rank' h => ?_⟩
    · simp only [foldlM_cons_eq_ok, forall_mem_cons]
      constructor
      · rintro ⟨rank', c, hc, hloop⟩
        obtain ⟨hfit, a, b, ha, hb, hnumel, rfl⟩ := (loadUnit_eq_ok hi).mp hc
        exact ⟨⟨hfit, a, b, ha, hb, hnumel⟩, (hmove _).mp ((hnext _).1.mp ⟨rank', hloop⟩)⟩
      · rintro ⟨⟨hfit, a, b, ha, hb, hnumel⟩, hall⟩
        obtain ⟨rank', hloop⟩ := (hnext _).1.mpr ((hmove _).mpr hall)
        exact ⟨rank', _, (loadUnit_eq_ok hi).mpr ⟨hfit, a, b, ha, hb, hnumel, rfl⟩, hloop⟩
    · obtain ⟨c, hc, hloop⟩ := foldlM_cons_eq_ok.mp h
      obtain ⟨-, a, b, ha, hb, hnumel, rfl⟩ := (loadUnit_eq_ok hi).mp hc
      have hstep := sameButShards_setUnit rank i (some a)
      have hafter := (hnext _).2 rank' hloop
      exact ⟨hafter.learner.trans hstep.learner, fun k => (hafter.full k).trans (hstep.full k)⟩

/-- A load from a state of the same structure is the loop over the units. -/
theorem loadStateDict_stateDict :
    D.loadStateDict r (D.stateDict r saver) rank =
      (List.range D.units.length).foldlM
        (fun rank i => D.loadUnit (D.stateDict r saver) W i rank) rank := by
  have hw : getScalar (D.stateDict r saver) .worldSize = .ok W := rfl
  have hr : getScalar (D.stateDict r saver) .rank = .ok r.val := rfl
  have hu : getScalar (D.stateDict r saver) .numUnits = .ok D.units.length := rfl
  rw [loadStateDict, hw, hr, hu]
  simp only [bind, Except.bind, ne_eq, not_true_eq_false, throwIf, if_false]

section Shards

variable [DivisionRing α] {w w' : Fin W → Rank D.numel α σ} {opt : Optimizer α σ}
  {action : Action D.numel α W}

/-- Without offloading every unit with elements has its shard. -/
def HasShards (w : Fin W → Rank D.numel α σ) : Prop :=
  ∀ r i, D.totalNumel i ≠ 0 → ((w r).units i).offloaded = false ∧
    ∃ a, ((w r).units i).localShard = some a ∧ a.numel = D.shardNumel W i

omit [DecidableEq Var] in
theorem hasShards_start (hc : D.config.cpuOffload = false)
    (learners : Fin W → Learner D.numel α σ) : HasShards (D.start learners) := by
  intro r i ht
  have hunit : (D.start learners r).units i = D.construct (learners r).values r i := rfl
  rw [hunit, construct, if_neg ht]
  simp only [hc, Bool.false_eq_true, if_false, Option.some.injEq, exists_eq_left']
  exact ⟨trivial, shardOf_numel _ r⟩

theorem HasShards.allGatherParams (h : HasShards w) (i : ℕ) :
    HasShards (D.allGatherParams i w) := by
  intro r k ht
  by_cases hk : k = i
  · subst hk
    obtain ⟨hoff, a, ha, hnumel⟩ := h r k ht
    rw [FullyShardedDataParallel.allGatherParams]
    split
    · have hreload : ((w r).units k).reloadFromCpu (D.totalNumel k) = (w r).units k :=
        if_pos (.inl (by rw [hoff]; exact Bool.false_ne_true))
      rw [receiveGather, unflattenParams_units]
      by_cases hs : D.config.strategy = .noShard
      · have hprepare : D.prepareGather r k (w r) = w r := by
          rw [prepareGather, hreload, hs]
          simp [Rank.setUnit]
        rw [hprepare]
        simp only [Rank.setUnit, Function.update_self]
        exact ⟨hoff, a, ha, hnumel⟩
      · rw [prepareGather_eq hs ht, hreload]
        simp only [Rank.setUnit, Function.update_self]
        exact ⟨hoff, _, rfl, shardOf_numel _ r⟩
    · exact ⟨hoff, a, ha, hnumel⟩
  · rw [allGatherParams_units_of_ne hk]
    exact h r k ht

omit [DecidableEq Var] [DivisionRing α] in
theorem HasShards.freeFullParams (hc : D.config.cpuOffload = false) (h : HasShards w) (i : ℕ) :
    HasShards (D.freeFullParams i w) := by
  intro r k ht
  obtain ⟨hoff, a, ha, hnumel⟩ := h r k ht
  by_cases hk : k = i
  · subst hk
    rw [FullyShardedDataParallel.freeFullParams, Rank.setUnit]
    simp only [Function.update_self, UnitState.freeFullParams, hc, Bool.false_eq_true, if_false]
    split
    · exact ⟨hoff, a, ha, hnumel⟩
    · exact ⟨hoff, a, ha, hnumel⟩
  · have hne : (D.freeFullParams i w r).units k = (w r).units k := Function.update_of_ne hk _ _
    rw [hne]
    exact ⟨hoff, a, ha, hnumel⟩

theorem HasShards.runEvent (hc : D.config.cpuOffload = false) (h : HasShards w)
    (e : Event Var) : HasShards (D.runEvent w e) := by
  cases e with
  | enter i => exact h.allGatherParams i
  | leave i =>
    rw [FullyShardedDataParallel.runEvent]
    split
    · exact h.freeFullParams hc i
    · exact h
  | save v => exact h

theorem HasShards.reduceScatterGrads (hc : D.config.cpuOffload = false) (h : HasShards w) (i : ℕ) :
    HasShards (D.reduceScatterGrads i w) := by
  rw [FullyShardedDataParallel.reduceScatterGrads]
  split
  · exact h
  · split
    · exact HasShards.freeFullParams hc (fun r k ht => h r k ht) i
    · exact h

theorem HasShards.act (hc : D.config.cpuOffload = false) (h : HasShards w)
    (hw : D.act opt w action = some w') : HasShards w' := by
  cases action with
  | forward trace =>
    cases hw
    have hgather : HasShards (D.gatherAll w) :=
      List.foldlRecOn (motive := HasShards) _ _ h fun _ h i _ => h.allGatherParams i
    have hran : HasShards (trace.foldl D.runEvent (D.gatherAll w)) :=
      List.foldlRecOn (motive := HasShards) _ _ hgather fun _ h e _ => h.runEvent hc e
    rw [forward]
    split
    · exact List.foldlRecOn (motive := HasShards) _ _ hran fun _ h i _ => h.freeFullParams hc i
    · exact hran
  | backward round =>
    rw [FullyShardedDataParallel.act, backward] at hw
    split at hw
    · cases hw
      exact h
    · cases hw
  | finalizeBackward =>
    cases hw
    refine List.foldlRecOn (motive := HasShards) _ _ ?_ fun _ h i _ => h.reduceScatterGrads hc i
    split
    · exact List.foldlRecOn (motive := HasShards) _ _ h fun _ h i _ => h.allGatherParams i
    · exact h
  | optimizerStep =>
    cases hw
    exact h
  | zeroGrad =>
    cases hw
    exact h

theorem Flags.act (h : Flags w D.idle) (hw : D.act opt w action = some w') : Flags w' D.idle := by
  cases action with
  | forward trace =>
    cases hw
    exact h.forward trace
  | backward round =>
    rw [FullyShardedDataParallel.act, backward] at hw
    split at hw
    · cases hw
      exact h
    · cases hw
  | finalizeBackward =>
    cases hw
    exact h.finalizeBackward
  | optimizerStep =>
    cases hw
    exact h
  | zeroGrad =>
    cases hw
    exact h

/-- What every action keeps holds after any run. -/
theorem run_keeps {P : (Fin W → Rank D.numel α σ) → Prop}
    (hstep : ∀ {w w' action}, P w → D.act opt w action = some w' → P w')
    {actions : List (Action D.numel α W)} (h : P w)
    (hrun : actions.foldlM (D.act opt) w = some w') : P w':= by
  induction actions generalizing w with
  | nil =>
    cases hrun
    exact h
  | cons action actions ih =>
    obtain ⟨w₁, hw₁, hrest⟩ := Option.bind_eq_some_iff.mp hrun
    exact ih (hstep h hw₁) hrest

variable (D) in
/-- The rank whose parameter the next forward of a rank uses. -/
def usedFrom (r : Fin W) (v : Var) (j : Fin (D.numel v)) : Fin W :=
  if D.config.strategy = .noShard then r else D.source r (D.home v) v j

/-- The next forward takes the values from the parameters, not from the shards. -/
theorem gatherAll_values_usedFrom (h : Flags w D.idle) (r : Fin W) (v : Var)
    (j : Fin (D.numel v)) :
    (D.gatherAll w r).learner.values v j = (w (D.usedFrom r v j)).learner.values v j := by
  rw [usedFrom]
  by_cases hs : D.config.strategy = .noShard
  · rw [if_pos hs]
    have hstay : ∀ i r, D.allGatherParams i w r = w r := fun i r => by
      refine allGatherParams_of_not ((h.needsGather r i).trans ?_)
      simp [gathers, idle, hs]
    have hall : D.gatherAll w = w :=
      List.foldlRecOn (motive := fun w' => w' = w) _ _ rfl fun _ hw i _ => by
        rw [hw]
        exact funext (hstay i)
    rw [hall]
  · rw [if_neg hs]
    obtain ⟨i, hv⟩ := exists_unit D v
    exact gatherAll_values hs h hv r j

omit [DecidableEq Var] [DivisionRing α] in
theorem SameButShards.flags {w w' : Fin W → Rank D.numel α σ} {full : ℕ → Bool}
    (h : ∀ r, SameButShards (w r) (w' r)) (hflags : Flags w full) : Flags w' full :=
  fun r i => ((h r).full i).trans (hflags r i)

omit [DecidableEq Var] in
/-- A new instance holds a shard exactly of the units with elements, without offloading. -/
theorem localShard_start {learners : Fin W → Learner D.numel α σ} {r : Fin W} {i : ℕ} :
    (∃ a, ((D.start learners r).units i).localShard = some a) ↔
      D.config.cpuOffload = false ∧ D.totalNumel i ≠ 0 := by
  have hunit : (D.start learners r).units i = D.construct (learners r).values r i := rfl
  rw [hunit, construct]
  by_cases ht : D.totalNumel i = 0
  · simp [ht]
  · rw [if_neg ht]
    cases hc : D.config.cpuOffload with
    | false => simp [ht]
    | true => simp [UnitState.offloadToCpu, ht]

omit [DivisionRing α] in
/-- A load returns exactly when every unit can be restored, and changes only shards. -/
theorem loadStateDict_ok (r : Fin W) (saver rank : Rank D.numel α σ) :
    ((∃ rank', D.loadStateDict r (D.stateDict r saver) rank = .ok rank') ↔
        ∀ i < D.units.length, Restorable saver rank i) ∧
      ∀ rank', D.loadStateDict r (D.stateDict r saver) rank = .ok rank' →
        SameButShards rank rank' := by
  rw [loadStateDict_stateDict]
  have hloop := @loadUnits_ok Var α σ D _ W r saver rank (List.range D.units.length)
    nodup_range fun i hi => mem_range.mp hi
  simp only [mem_range] at hloop
  exact hloop

/-- After a load the next forward uses the parameters that the new instance had. -/
theorem gatherAll_of_loaded {fresh : Fin W → Learner D.numel α σ}
    {saver : Fin W → Rank D.numel α σ}
    (hload : ∀ r, D.loadStateDict r (D.stateDict r (saver r)) (D.start fresh r) = .ok (w r))
    (r : Fin W) (v : Var) (j : Fin (D.numel v)) :
    (D.gatherAll w r).learner.values v j = (fresh (D.usedFrom r v j)).values v j := by
  have hsame : ∀ r, SameButShards (D.start fresh r) (w r) := fun r =>
    (loadStateDict_ok r (saver r) _).2 _ (hload r)
  rw [gatherAll_values_usedFrom (SameButShards.flags hsame (flags_start fresh)),
    (hsame _).learner]
  rfl

end Shards

end FullyShardedDataParallel

open FullyShardedDataParallel

/-- A layer after one round of training. -/
def trainedLayer : Fin 2 → Rank oneLayer.numel ℚ Unit :=
  ((oneLayerBatch.actions).foldlM (oneLayer.act descent)
    (oneLayer.start fun _ => fromZero oneLayer.numel)).get (by decide +kernel)

end Tenzor.Fsdp
