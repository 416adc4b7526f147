import Tenzor.Distributed.Fsdp
import Mathlib.Data.List.GetD

/-!
# What a gather restores

Every element of a parameter has a position in the flat buffer of its unit, and one
rank whose shard covers it. After the gather all ranks hold what that rank held.
-/

namespace Tenzor.Fsdp.FullyShardedDataParallel

open FlatBuffer ElementwiseTraining
open Function (update update_idem update_of_ne update_self)

variable {Var α σ : Type}

section Cover

variable (M : Model Var) (minParams : ℕ)

mutual

theorem mem_collectUnits : ∀ (m : ModuleTree Var) {v : Var}, v ∈ m.registered →
    v ∈ (collectUnits M minParams m).1 ∨ ∃ u ∈ (collectUnits M minParams m).2, v ∈ u
  | .node own subs, v, h => by
    rw [ModuleTree.registered, List.mem_append] at h
    simp only [collectUnits]
    cases h with
    | inl hown => exact .inl (List.mem_append_left _ hown)
    | inr hsubs =>
      cases mem_collectSubmodules subs hsubs with
      | inl hrest => exact .inl (List.mem_append_right _ hrest)
      | inr hunit => exact .inr hunit

theorem mem_collectSubmodules : ∀ (ms : List (ModuleTree Var)) {v : Var}, v ∈ registeredAll ms →
    v ∈ (collectSubmodules M minParams ms).1 ∨ ∃ u ∈ (collectSubmodules M minParams ms).2, v ∈ u
  | [], v, h => absurd h List.not_mem_nil
  | m :: ms, v, h => by
    rw [registeredAll, List.mem_append] at h
    have hm : v ∈ m.registered → _ := mem_collectUnits m
    have hms : v ∈ registeredAll ms → _ := mem_collectSubmodules ms
    simp only [collectSubmodules]
    split
    · simp only [List.mem_append, List.mem_cons]
      grind
    · simp only [List.mem_append]
      grind

end

/-- Every parameter is in some unit. -/
theorem exists_unit (D : FullyShardedDataParallel Var) (v : Var) : ∃ i, v ∈ D.params i := by
  have hmem : ∃ u ∈ D.units, v ∈ u := by
    rw [units, applyAutoWrap]
    cases mem_collectUnits D.model D.config.autoWrapMinParams D.model.root (D.model.registers v)
        with
    | inl hrest =>
      simp only [if_pos (List.ne_nil_of_mem hrest)]
      exact ⟨_, List.mem_append_right _ (List.mem_singleton_self _), hrest⟩
    | inr hunit =>
      obtain ⟨u, hu, hv⟩ := hunit
      simp only
      split
      · exact ⟨u, List.mem_append_left _ hu, hv⟩
      · exact ⟨u, hu, hv⟩
  obtain ⟨u, hu, hv⟩ := hmem
  obtain ⟨i, hi, hget⟩ := List.getElem_of_mem hu
  exact ⟨i, by rw [params, List.getD_eq_getElem _ _ hi, hget]; exact hv⟩

end Cover

variable (D : FullyShardedDataParallel Var) [DecidableEq Var] {W : ℕ}

/-- The position of an element in the flat buffer, in the last copy of its parameter. -/
def position (i : ℕ) (v : Var) (j : Fin (D.numel v)) : ℕ :=
  (lastOffset D.numel 0 (D.params i) v).getD 0 + j

/-- The rank whose shard covers an element. Any rank witnesses that there are some. -/
def source (r : Fin W) (i : ℕ) (v : Var) (j : Fin (D.numel v)) : Fin W :=
  ⟨D.position i v j / D.shardNumel W i % W, Nat.mod_lt _ (Fin.pos r)⟩

variable {D} {i : ℕ} {v : Var}

/-- The split of the unit at the last copy of a parameter. -/
theorem exists_split (h : v ∈ D.params i) :
    ∃ as bs, D.params i = as ++ v :: bs ∧ v ∉ bs ∧
      ∀ j : Fin (D.numel v), D.position i v j = total D.numel as + j := by
  obtain ⟨as, bs, hsplit, hbs, hoff⟩ := exists_last D.numel h 0
  refine ⟨as, bs, hsplit, hbs, fun j => ?_⟩
  rw [position, hoff, Option.getD_some, Nat.zero_add]

theorem position_lt (h : v ∈ D.params i) (j : Fin (D.numel v)) :
    D.position i v j < D.totalNumel i := by
  obtain ⟨as, bs, hsplit, -, hpos⟩ := exists_split h
  rw [hpos, totalNumel, hsplit, total_append, total_cons]
  omega

theorem totalNumel_ne_zero (h : v ∈ D.params i) (j : Fin (D.numel v)) : D.totalNumel i ≠ 0 := by
  have := position_lt h j
  omega

/-- The source covers the position. -/
theorem source_covers (r : Fin W) (h : v ∈ D.params i) (j : Fin (D.numel v)) :
    D.source r i v j * D.shardNumel W i ≤ D.position i v j ∧
      D.position i v j < D.source r i v j * D.shardNumel W i + D.shardNumel W i := by
  have hlt := position_lt h j
  have hpos : 0 < D.shardNumel W i :=
    shardLength_pos (by omega) (Fin.pos r)
  have hdiv : D.position i v j / D.shardNumel W i < W :=
    div_shardLength_lt hlt (Fin.pos r)
  have hval : (D.source r i v j : ℕ) = D.position i v j / D.shardNumel W i :=
    Nat.mod_eq_of_lt hdiv
  rw [hval]
  refine ⟨Nat.div_mul_le_self _ _, ?_⟩
  have := Nat.lt_div_mul_add hpos (a := D.position i v j)
  exact this

section Shards

variable [Zero α]

theorem toFlat_get {n : ℕ} (t : Fin n → α) (j : Fin n) : (toFlat t).get j = t j :=
  dif_pos j.isLt

theorem flatten_get (values : Tensors D.numel α) (h : v ∈ D.params i) (j : Fin (D.numel v)) :
    (D.flatten values i).get (D.position i v j) = values v j := by
  obtain ⟨as, bs, hsplit, -, hpos⟩ := exists_split h
  rw [flatten, hpos, hsplit, write_get j.isLt]
  exact toFlat_get (values v) j

omit [DecidableEq Var] in
@[simp] theorem shardOf_numel (values : Tensors D.numel α) (r : Fin W) :
    (D.shardOf values r i).numel = D.shardNumel W i := by
  rw [shardOf]
  split
  · rfl
  · rfl

omit [DecidableEq Var] in
/-- A shard holds the positions it covers. -/
theorem shardOf_get (values : Tensors D.numel α) {r : Fin W} {e : ℕ}
    (hlo : r * D.shardNumel W i ≤ e) (hhi : e < r * D.shardNumel W i + D.shardNumel W i)
    (he : e < D.totalNumel i) :
    (D.shardOf values r i).get (e - r * D.shardNumel W i) = (D.flatten values i).get e := by
  have hvalid : (computeShardRange (D.totalNumel i) W r).validNumel =
      min (D.totalNumel i - r * D.shardNumel W i) (D.shardNumel W i) :=
    if_pos (lt_of_le_of_lt hlo he)
  have hinside : e - r * D.shardNumel W i <
      (computeShardRange (D.totalNumel i) W r).validNumel := by
    rw [hvalid]
    omega
  rw [shardOf, if_pos (by omega), sliceScatter_get_inside (Nat.zero_le _) hinside, slice_get,
    Nat.sub_zero]
  exact congrArg _ (Nat.add_sub_cancel' hlo)

end Shards

section Unflatten

variable (i) (flat : Flat α) (rank : Rank D.numel α σ)

theorem unflattenParams_eq :
    D.unflattenParams i flat rank =
      { rank with
        learner := { rank.learner with
          values := (cuts D.numel 0 (D.params i)).foldl
            (fun values c => update values c.1 fun j => flat.get (c.2 + j))
            rank.learner.values }
        version := (cuts D.numel 0 (D.params i)).foldl
          (fun version c => update version c.1 (version c.1 + 2)) rank.version } := by
  rw [unflattenParams]
  generalize cuts D.numel 0 (D.params i) = l
  induction l generalizing rank with
  | nil => rfl
  | cons c l ih => rw [List.foldl_cons, ih]; rfl

@[simp] theorem unflattenParams_grads : (D.unflattenParams i flat rank).grads = rank.grads := by
  rw [unflattenParams_eq]

@[simp] theorem unflattenParams_saved : (D.unflattenParams i flat rank).saved = rank.saved := by
  rw [unflattenParams_eq]

@[simp] theorem unflattenParams_units : (D.unflattenParams i flat rank).units = rank.units := by
  rw [unflattenParams_eq]

@[simp] theorem unflattenParams_states :
    (D.unflattenParams i flat rank).learner.states = rank.learner.states := by
  rw [unflattenParams_eq]

variable {i}

theorem unflattenParams_values_of_notMem (h : v ∉ D.params i) :
    (D.unflattenParams i flat rank).learner.values v = rank.learner.values v := by
  rw [unflattenParams_eq]
  exact foldl_cuts_of_notMem D.numel (fun (values : Tensors D.numel α) k => values k)
    (fun _ _ _ hne => update_of_ne (Ne.symm hne) _ _) h 0 _

theorem unflattenParams_version_of_notMem (h : v ∉ D.params i) :
    (D.unflattenParams i flat rank).version v = rank.version v := by
  rw [unflattenParams_eq]
  exact foldl_cuts_of_notMem D.numel (fun (version : Var → ℕ) k => version k)
    (fun _ _ _ hne => update_of_ne (Ne.symm hne) _ _) h 0 _

theorem unflattenParams_values_of_mem (h : v ∈ D.params i) (j : Fin (D.numel v)) :
    (D.unflattenParams i flat rank).learner.values v j = flat.get (D.position i v j) := by
  obtain ⟨as, bs, hsplit, hbs, hpos⟩ := exists_split h
  have hlast := foldl_cuts_last D.numel (fun (values : Tensors D.numel α) k => values k)
    (fun (values : Tensors D.numel α) c _ hne => update_of_ne (Ne.symm hne)
      (fun j : Fin (D.numel c.1) => flat.get (c.2 + j)) values) as hbs 0 rank.learner.values
  rw [unflattenParams_eq, hpos, hsplit]
  refine (congrFun hlast j).trans ?_
  simp only [update_self, Nat.zero_add]

end Unflatten

section Gather

variable [Zero α] {r : Fin W} {rank : Rank D.numel α σ} {w : Fin W → Rank D.numel α σ}

omit [DecidableEq Var] in
theorem prepareGather_eq (hs : D.config.strategy ≠ .noShard) (ht : D.totalNumel i ≠ 0) :
    D.prepareGather r i rank = rank.setUnit i
      { (rank.units i).reloadFromCpu (D.totalNumel i) with
        localShard := some (D.shardOf rank.learner.values r i) } := by
  have hstrategy : D.config.strategy = .fullShard ∨ D.config.strategy = .shardGradOp := by
    cases h : D.config.strategy with
    | fullShard => exact .inl rfl
    | shardGradOp => exact .inr rfl
    | noShard => exact absurd h hs
  rw [prepareGather, if_pos hstrategy, reshardFromParams, if_neg ht]
  simp only [Rank.setUnit, update_self, update_idem]

omit [DecidableEq Var] in
/-- Nothing but the state of the unit is touched before the collective. -/
theorem exists_prepareGather (r : Fin W) (i : ℕ) (rank : Rank D.numel α σ) :
    ∃ s, D.prepareGather r i rank = rank.setUnit i s := by
  rw [prepareGather, reshardFromParams]
  split
  · split
    · exact ⟨_, rfl⟩
    · exact ⟨_, by simp only [Rank.setUnit, update_idem]; rfl⟩
  · exact ⟨_, rfl⟩

theorem allGatherParams_of_not (hn : ((w r).units i).needsGather (D.totalNumel i) D.config = false) :
    D.allGatherParams i w r = w r :=
  if_neg (by rw [hn]; exact Bool.false_ne_true)

/-- A gather writes the parameters, their versions and the state of the unit. -/
theorem exists_allGatherParams (i : ℕ) (w : Fin W → Rank D.numel α σ) (r : Fin W) :
    D.allGatherParams i w r = w r ∨
      ∃ flat s, D.allGatherParams i w r = D.unflattenParams i flat ((w r).setUnit i s) := by
  rw [allGatherParams]
  split
  · obtain ⟨s, hs⟩ := exists_prepareGather r i (w r)
    refine .inr ⟨concat (D.shardNumel W i) (D.sentShard w i),
      { s with
        flatParam := some (concat (D.shardNumel W i) (D.sentShard w i)), paramsFull := true }, ?_⟩
    rw [receiveGather, hs]
    simp only [Rank.setUnit, update_self, update_idem]
  · exact .inl rfl

@[simp] theorem allGatherParams_grads : (D.allGatherParams i w r).grads = (w r).grads := by
  cases exists_allGatherParams i w r with
  | inl h => rw [h]
  | inr h =>
    obtain ⟨flat, s, hw⟩ := h
    rw [hw, unflattenParams_grads]
    rfl

@[simp] theorem allGatherParams_saved : (D.allGatherParams i w r).saved = (w r).saved := by
  cases exists_allGatherParams i w r with
  | inl h => rw [h]
  | inr h =>
    obtain ⟨flat, s, hw⟩ := h
    rw [hw, unflattenParams_saved]
    rfl

@[simp] theorem allGatherParams_states :
    (D.allGatherParams i w r).learner.states = (w r).learner.states := by
  cases exists_allGatherParams i w r with
  | inl h => rw [h]
  | inr h =>
    obtain ⟨flat, s, hw⟩ := h
    rw [hw, unflattenParams_states]
    rfl

theorem allGatherParams_units_of_ne {k : ℕ} (hk : k ≠ i) :
    (D.allGatherParams i w r).units k = (w r).units k := by
  cases exists_allGatherParams i w r with
  | inl h => rw [h]
  | inr h =>
    obtain ⟨flat, s, hw⟩ := h
    rw [hw, unflattenParams_units]
    exact update_of_ne hk _ _

theorem allGatherParams_values_of_notMem (h : v ∉ D.params i) :
    (D.allGatherParams i w r).learner.values v = (w r).learner.values v := by
  cases exists_allGatherParams i w r with
  | inl hw => rw [hw]
  | inr hw =>
    obtain ⟨flat, s, hw⟩ := hw
    rw [hw, unflattenParams_values_of_notMem _ _ h]
    rfl

theorem allGatherParams_version_of_notMem (h : v ∉ D.params i) :
    (D.allGatherParams i w r).version v = (w r).version v := by
  cases exists_allGatherParams i w r with
  | inl hw => rw [hw]
  | inr hw =>
    obtain ⟨flat, s, hw⟩ := hw
    rw [hw, unflattenParams_version_of_notMem _ _ h]
    rfl

omit [DecidableEq Var] in
theorem sentShard_eq (hs : D.config.strategy ≠ .noShard) (ht : D.totalNumel i ≠ 0) (q : Fin W) :
    D.sentShard w i q = D.shardOf (w q).learner.values q i := by
  rw [sentShard, prepareGather_eq hs ht]
  simp only [Rank.setUnit, update_self, Option.getD_some]

/-- After a gather a rank holds, of every element of the unit, what the source of the element
held. -/
theorem allGatherParams_values_of_mem (hs : D.config.strategy ≠ .noShard)
    (hn : ((w r).units i).needsGather (D.totalNumel i) D.config = true) (h : v ∈ D.params i)
    (j : Fin (D.numel v)) :
    (D.allGatherParams i w r).learner.values v j =
      (w (D.source r i v j)).learner.values v j := by
  obtain ⟨hlo, hhi⟩ := source_covers r h j
  rw [allGatherParams, if_pos hn, receiveGather, unflattenParams_values_of_mem _ _ h,
    concat_get _ ⟨hlo, hhi⟩, sentShard_eq hs (totalNumel_ne_zero h j),
    shardOf_get _ hlo hhi (position_lt h j), flatten_get _ h]

/-- What all ranks agree on stays as it is. -/
theorem allGatherParams_keeps (hs : D.config.strategy ≠ .noShard) (i : ℕ) {j : Fin (D.numel v)}
    {x : α} (hx : ∀ q, (w q).learner.values v j = x) (r : Fin W) :
    (D.allGatherParams i w r).learner.values v j = x := by
  cases hn : ((w r).units i).needsGather (D.totalNumel i) D.config with
  | false => rw [allGatherParams_of_not hn, hx]
  | true =>
    by_cases hv : v ∈ D.params i
    · rw [allGatherParams_values_of_mem hs hn hv, hx]
    · rw [allGatherParams_values_of_notMem hv, hx]

end Gather

section Flags

variable [Zero α] {r : Fin W} {w : Fin W → Rank D.numel α σ} {full : ℕ → Bool}

/-- `params_full_` of the units, the same on every rank. -/
def Flags (w : Fin W → Rank D.numel α σ) (full : ℕ → Bool) : Prop :=
  ∀ r i, ((w r).units i).paramsFull = full i

variable (D) in
/-- A gather of the unit does something. -/
def gathers (full : ℕ → Bool) (i : ℕ) : Bool :=
  D.totalNumel i ≠ 0 && !(full i && D.config.strategy ≠ .shardGradOp)

omit [DecidableEq Var] in
theorem zero_or_full_of_not_gathers (h : D.gathers full i = false) :
    D.totalNumel i = 0 ∨ full i = true := by
  rw [gathers, Bool.and_eq_false_iff] at h
  cases h with
  | inl hzero => exact .inl (by simpa using hzero)
  | inr hfull =>
    simp only [Bool.not_eq_false', Bool.and_eq_true] at hfull
    exact .inr hfull.1

omit [DecidableEq Var] [Zero α] in
theorem Flags.needsGather (h : Flags w full) (r : Fin W) (i : ℕ) :
    ((w r).units i).needsGather (D.totalNumel i) D.config = D.gathers full i := by
  rw [UnitState.needsGather, h, gathers]

theorem Flags.allGatherParams (h : Flags w full) (i : ℕ) :
    Flags (D.allGatherParams i w) fun k => full k || (k = i && D.totalNumel k ≠ 0) := by
  intro r k
  by_cases hk : k = i
  · subst hk
    cases hn : ((w r).units k).needsGather (D.totalNumel k) D.config with
    | false =>
      rw [allGatherParams_of_not hn, h]
      rw [h.needsGather] at hn
      cases zero_or_full_of_not_gathers hn with
      | inl hzero => simp [hzero]
      | inr hfull => simp [hfull]
    | true =>
      have ht : D.totalNumel k ≠ 0 := by
        rw [UnitState.needsGather, Bool.and_eq_true] at hn
        exact of_decide_eq_true hn.1
      rw [FullyShardedDataParallel.allGatherParams, if_pos hn, receiveGather]
      simp [Rank.setUnit, ht]
  · rw [allGatherParams_units_of_ne hk, h]
    simp [hk]

omit [DecidableEq Var] [Zero α] in
theorem freeFullParams_paramsFull (i : ℕ) (w : Fin W → Rank D.numel α σ) (r : Fin W) :
    ((D.freeFullParams i w r).units i).paramsFull =
      (((w r).units i).paramsFull && D.config.strategy ≠ .fullShard) := by
  rw [freeFullParams, Rank.setUnit]
  simp only [update_self, UnitState.freeFullParams]
  split
  next hkeep =>
    cases hp : ((w r).units i).paramsFull with
    | false => rfl
    | true =>
      rw [hp] at hkeep
      simpa using hkeep
  next hfree =>
    have hstrategy : D.config.strategy = .fullShard := by
      by_contra hne
      exact hfree (.inr hne)
    rw [hstrategy]
    split
    · rw [UnitState.offloadToCpu]
      split
      · simp
      · simp
    · simp

omit [DecidableEq Var] [Zero α] in
theorem Flags.freeFullParams (h : Flags w full) (i : ℕ) :
    Flags (D.freeFullParams i w) fun k =>
      full k && !(k = i && D.config.strategy = .fullShard) := by
  intro r k
  by_cases hk : k = i
  · subst hk
    rw [freeFullParams_paramsFull, h]
    simp
  · have hne : (D.freeFullParams i w r).units k = (w r).units k := update_of_ne hk _ _
    rw [hne, h]
    simp [hk]

end Flags

section GatherAll

variable (D) in
/-- The units that are full between two calls. -/
def idle (i : ℕ) : Bool := D.totalNumel i ≠ 0 && D.config.strategy ≠ .fullShard

variable (D) in
/-- The units that are full while the module runs. -/
def materialized (i : ℕ) : Bool := D.totalNumel i ≠ 0

variable (D) in
/-- The first unit that has the parameter. -/
def home (v : Var) : ℕ := ((List.range D.units.length).find? fun i => v ∈ D.params i).getD 0

omit [DecidableEq Var] in
theorem params_of_le (h : D.units.length ≤ i) : D.params i = [] :=
  List.getD_eq_default _ _ h

omit [DecidableEq Var] in
theorem totalNumel_of_le (h : D.units.length ≤ i) : D.totalNumel i = 0 := by
  rw [totalNumel, params_of_le h, total_nil]

theorem exists_home (hv : v ∈ D.params i) :
    v ∈ D.params (D.home v) ∧
      ∃ before after, List.range D.units.length = before ++ D.home v :: after ∧
        ∀ k ∈ before, v ∉ D.params k := by
  have hi : i ∈ List.range D.units.length := by
    rw [List.mem_range]
    by_contra hle
    rw [params_of_le (not_lt.mp hle)] at hv
    exact List.not_mem_nil hv
  cases hfind : (List.range D.units.length).find? fun i => v ∈ D.params i with
  | none => exact absurd hv (by simpa using List.find?_eq_none.mp hfind i hi)
  | some k =>
    obtain ⟨hk, before, after, hsplit, hbefore⟩ := List.find?_eq_some_iff_append.mp hfind
    have hhome : D.home v = k := by rw [home, hfind, Option.getD_some]
    rw [hhome]
    exact ⟨by simpa using hk, before, after, hsplit, fun b hb => by simpa using hbefore b hb⟩

variable [Zero α] {w : Fin W → Rank D.numel α σ} {full : ℕ → Bool}

theorem Flags.foldl_gather (h : Flags w full) (is : List ℕ) :
    Flags (is.foldl (fun w i => D.allGatherParams i w) w)
      fun k => full k || (k ∈ is && D.totalNumel k ≠ 0) := by
  induction is generalizing w full with
  | nil =>
    intro r k
    rw [List.foldl_nil, h]
    simp
  | cons i is ih =>
    intro r k
    rw [List.foldl_cons, ih (h.allGatherParams i) r k]
    simp only [List.mem_cons, Bool.decide_or, Bool.or_assoc, Bool.and_or_distrib_right]

theorem Flags.gatherAll (h : Flags w D.idle) : Flags (D.gatherAll w) D.materialized := by
  intro r k
  rw [FullyShardedDataParallel.gatherAll, h.foldl_gather _ r k]
  simp only [idle, materialized]
  by_cases hk : k < D.units.length
  · simpa [hk] using fun ht _ => ht
  · simp [totalNumel_of_le (not_lt.mp hk)]

theorem foldl_gather_keeps (hs : D.config.strategy ≠ .noShard) (is : List ℕ)
    {j : Fin (D.numel v)} {x : α} (hx : ∀ q, (w q).learner.values v j = x) (r : Fin W) :
    (is.foldl (fun w i => D.allGatherParams i w) w r).learner.values v j = x := by
  induction is generalizing w with
  | nil => exact hx r
  | cons i is ih => exact ih (allGatherParams_keeps hs i hx)

theorem foldl_gather_of_notMem {is : List ℕ} (h : ∀ i ∈ is, v ∉ D.params i) (r : Fin W) :
    (is.foldl (fun w i => D.allGatherParams i w) w r).learner.values v =
      (w r).learner.values v := by
  induction is generalizing w with
  | nil => rfl
  | cons i is ih =>
    rw [List.foldl_cons, ih fun k hk => h k (List.mem_cons_of_mem _ hk),
      allGatherParams_values_of_notMem (h i List.mem_cons_self)]

/-- After the gathers all ranks hold, of every element, what its source in the first unit held. -/
theorem gatherAll_values (hs : D.config.strategy ≠ .noShard) (h : Flags w D.idle)
    (hv : v ∈ D.params i) (r : Fin W) (j : Fin (D.numel v)) :
    (D.gatherAll w r).learner.values v j =
      (w (D.source r (D.home v) v j)).learner.values v j := by
  obtain ⟨hmem, before, after, hsplit, hbefore⟩ := exists_home hv
  have hnot : D.home v ∉ before := fun hin => hbefore _ hin hmem
  rw [gatherAll, hsplit, List.foldl_append]
  refine foldl_gather_keeps hs after (fun q => ?_) r
  have hn := (h.foldl_gather before).needsGather q (D.home v)
  rw [allGatherParams_values_of_mem hs (hn.trans ?_) hmem, foldl_gather_of_notMem hbefore]
  · rfl
  · have ht := totalNumel_ne_zero hmem j
    cases hc : D.config.strategy with
    | fullShard => simp [gathers, idle, ht, hnot, hc]
    | shardGradOp => simp [gathers, ht, hc]
    | noShard => exact absurd hc hs

/-- The gradients and the optimizer's states are the same. -/
structure SameTraining (w w' : Fin W → Rank D.numel α σ) : Prop where
  grads : ∀ r, (w' r).grads = (w r).grads
  states : ∀ r, (w' r).learner.states = (w r).learner.states

omit [DecidableEq Var] [Zero α] in
theorem SameTraining.refl (w : Fin W → Rank D.numel α σ) : SameTraining w w :=
  ⟨fun _ => rfl, fun _ => rfl⟩

omit [DecidableEq Var] [Zero α] in
theorem SameTraining.trans {w w' w'' : Fin W → Rank D.numel α σ} (h : SameTraining w w')
    (h' : SameTraining w' w'') : SameTraining w w'' :=
  ⟨fun r => (h'.grads r).trans (h.grads r), fun r => (h'.states r).trans (h.states r)⟩

theorem sameTraining_allGatherParams (i : ℕ) (w : Fin W → Rank D.numel α σ) :
    SameTraining w (D.allGatherParams i w) :=
  ⟨fun _ => allGatherParams_grads, fun _ => allGatherParams_states⟩

theorem sameTraining_gatherAll (w : Fin W → Rank D.numel α σ) :
    SameTraining w (D.gatherAll w) := by
  rw [gatherAll]
  generalize List.range D.units.length = is
  induction is generalizing w with
  | nil => exact .refl w
  | cons i is ih => exact (sameTraining_allGatherParams i w).trans (ih _)

end GatherAll

end Tenzor.Fsdp.FullyShardedDataParallel
