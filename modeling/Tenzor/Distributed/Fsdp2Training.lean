import Tenzor.Distributed.Fsdp2

/-!
# What training with one tensor each comes to

A group of several ranks gathers the shards of the distributed tensors, which no
step of the optimizer writes: every forward runs with the first parameters. A group
of one rank trains by itself.
-/

namespace Tenzor.Fsdp2.FSDP2

open FlatBuffer ElementwiseTraining List

variable {Var α σ : Type} {D : FSDP2 Var} {groups W : ℕ} {v : Var}

theorem numel_eq (hD : D.Divisible W) (v : Var) : D.numel v = D.shardNumel W v * W := by
  obtain ⟨d, rest, hshape, c, rfl⟩ := hD v
  cases W with
  | zero => simp [numel, hshape]
  | succ n =>
    have hc : (n + 1) * c / (n + 1) = c := Nat.mul_div_cancel_left c n.succ_pos
    simp only [numel, shardNumel, shardShape, hshape, modifyHead_cons, prod_cons, hc]
    ring

section Slots

variable (s : Slots α) (t : Flat α)

@[simp] theorem write_localTensor : (s.write t).localTensor = s.localTensor := by
  rw [Slots.write]
  cases s.live with
  | original => rfl
  | unsharded => rfl
  | sharded => rfl

@[simp] theorem write_live : (s.write t).live = s.live := by
  cases hl : s.live with
  | original => simp [Slots.write, hl]
  | unsharded => simp [Slots.write, hl]
  | sharded => simp [Slots.write, hl]

/-- What is written is read back. -/
@[simp] theorem tensor_write : (s.write t).tensor = t := by
  rw [Slots.write]
  cases s.live with
  | original => rfl
  | unsharded => rfl
  | sharded => rfl

end Slots

theorem toFlat_get [Zero α] {n : ℕ} (t : Fin n → α) (j : Fin n) : (toFlat t).get j = t j :=
  dif_pos j.isLt

section Several

variable [DivisionRing α] [Fintype Var] {group group' : Fin W → D.Rank α σ}
  {P : Tensors D.numel α} {g : Round D.numel α (Fin W)}

/-- The distributed tensors still hold the first parameters. -/
structure Stale (group : Fin W → D.Rank α σ) (P : Tensors D.numel α) : Prop where
  shards : ∀ b v, ((group b).slots v).localTensor =
    (toFlat (P v)).slice (b * D.shardNumel W v) (b * D.shardNumel W v + D.shardNumel W v)
  resharded : ∀ b, (group b).paramsUnsharded = false
  cleared : ∀ b v, (group b).grads v = none

variable (D) {b : Fin W} in
/-- The gradients of a round can be stored and reduced: with resharding after the forward there
is none but for a parameter whose shard has its shape, and the ranks of the group have gradients
for the same parameters with elements. -/
def Accepted (g : Round D.numel α (Fin W)) (P : Tensors D.numel α) : Prop :=
  (D.reshardAfterForward = true → ∀ b v, (g b P v).isSome → D.shardShape W v = D.shape v) ∧
    ∀ v, D.numel v ≠ 0 → ∀ b b', (g b P v).isSome = (g b' P v).isSome

omit [Fintype Var] in
theorem Stale.fullTensor_get (hD : D.Divisible W) (h : Stale group P) (v : Var)
    (j : Fin (D.numel v)) : (D.fullTensor group v).get j = P v j := by
  have hj : (j : ℕ) < D.shardNumel W v * W := numel_eq hD v ▸ j.isLt
  have hpos : 0 < D.shardNumel W v := Nat.pos_of_ne_zero fun h0 => by
    rw [h0, Nat.zero_mul] at hj
    exact Nat.not_lt_zero _ hj
  have hdiv : (j : ℕ) / D.shardNumel W v < W :=
    Nat.div_lt_of_lt_mul hj
  have hlo := Nat.div_mul_le_self (j : ℕ) (D.shardNumel W v)
  have hhi := Nat.lt_div_mul_add hpos (a := (j : ℕ))
  rw [fullTensor, concat_get (o := ⟨(j : ℕ) / D.shardNumel W v, hdiv⟩) _ ⟨hlo, hhi⟩, h.shards,
    slice_get]
  simp only
  rw [Nat.add_sub_cancel' hlo, toFlat_get]

omit [DivisionRing α] [Fintype Var] in
theorem reshardParams_of_unsharded (hW : 1 < W) (h : (group b).paramsUnsharded = true) :
    D.reshardParams group b = { group b with
      slots := fun v => ((group b).slots v).reshard, paramsUnsharded := false } := by
  rw [reshardParams, if_neg]
  rintro (hsharded | hle)
  · exact hsharded h
  · omega

omit [Fintype Var] in
theorem unshardParams_of_resharded (hW : 1 < W) (h : (group b).paramsUnsharded = false) :
    D.unshardParams group b = { group b with
      slots := fun v => ((group b).slots v).unshard (D.fullTensor group v)
      paramsUnsharded := true } := by
  rw [unshardParams, if_neg]
  rintro (hunsharded | hle)
  · exact absurd hunsharded (by rw [h]; exact Bool.false_ne_true)
  · omega

omit [Fintype Var] in
/-- A forward of a group of several ranks. -/
theorem forward_eq (hW : 1 < W) (h : ∀ b, (group b).paramsUnsharded = false) (b : Fin W) :
    D.forward group b = { group b with
      slots := fun v =>
        let s := ((group b).slots v).unshard (D.fullTensor group v)
        if D.reshardAfterForward then s.reshard else s
      paramsUnsharded := !D.reshardAfterForward
      used := fun v j => (D.fullTensor group v).get j } := by
  have hran := unshardParams_of_resharded hW (h b)
  rw [forward]
  cases hr : D.reshardAfterForward with
  | false =>
    rw [if_neg fun hin => Bool.false_ne_true hin.1]
    simp only [hran]
    rfl
  | true =>
    rw [if_pos ⟨rfl, hW⟩, reshardParams_of_unsharded hW (by simp only [hran])]
    simp only [hran]
    rfl

omit [Fintype Var] in
theorem Stale.forward_used (hW : 1 < W) (hD : D.Divisible W) (h : Stale group P) (b : Fin W) :
    (D.forward group b).used = P := by
  rw [forward_eq hW h.resharded]
  ext v j
  exact h.fullTensor_get hD v j

/-- The engine stores the gradients exactly when those of a resharded forward fit the shards. -/
theorem Stale.backward_eq (hW : 1 < W) (hD : D.Divisible W) (h : Stale group P) :
    D.backward g (D.forward group) =
      if D.reshardAfterForward = true → ∀ b v, (g b P v).isSome → D.shardShape W v = D.shape v then
        some fun b => { D.forward group b with grads := fun v => (g b P v).map toFlat }
      else none := by
  have hshape : ∀ b v, D.liveShape W ((D.forward group b).slots v) v =
      if D.reshardAfterForward then D.shardShape W v else D.shape v := fun b v => by
    rw [forward_eq hW h.resharded]
    cases hr : D.reshardAfterForward with
    | false => simp [liveShape, Slots.unshard]
    | true => simp [liveShape, Slots.reshard]
  have hgrads : ∀ b v, addGrad ((D.forward group b).grads v) ((g b P v).map toFlat) =
      (g b P v).map toFlat := fun b v => by
    rw [forward_eq hW h.resharded]
    simp only [h.cleared]
    cases g b P v with
    | none => rfl
    | some d => rfl
  rw [backward]
  simp only [h.forward_used hW hD, hshape, hgrads]
  cases hr : D.reshardAfterForward with
  | false => simp
  | true => simp

omit [Fintype Var] in
@[simp] theorem unshardParams_grads (group : Fin W → D.Rank α σ) (b : Fin W) :
    (D.unshardParams group b).grads = (group b).grads := by
  rw [unshardParams]
  split
  · rfl
  · rfl

omit [Fintype Var] in
@[simp] theorem unshardParams_localTensor (group : Fin W → D.Rank α σ) (b : Fin W) (v : Var) :
    ((D.unshardParams group b).slots v).localTensor = ((group b).slots v).localTensor := by
  rw [unshardParams]
  split
  · rfl
  · rfl

omit [Fintype Var] [DivisionRing α] in
/-- Resharding a group of several ranks leaves it resharded, with the same distributed tensors. -/
theorem reshardParams_spec (hW : 1 < W) (group : Fin W → D.Rank α σ) (b : Fin W) :
    (D.reshardParams group b).paramsUnsharded = false ∧
      ∀ v, ((D.reshardParams group b).slots v).localTensor = ((group b).slots v).localTensor := by
  rw [reshardParams]
  split
  next hkeep =>
    refine ⟨?_, fun _ => rfl⟩
    cases hkeep with
    | inl hsharded => exact Bool.not_eq_true _ ▸ hsharded
    | inr hle => exact absurd hle (Nat.not_le.mpr hW)
  · exact ⟨rfl, fun _ => rfl⟩

omit [Fintype Var] in
theorem reduces_computed {rank : D.Rank α σ} {d : Grads D.numel α}
    (h : rank.grads = fun v => (d v).map toFlat) (v : Var) :
    D.reduces rank v = ((d v).isSome && D.numel v ≠ 0) := by
  simp only [reduces, h]
  cases d v with
  | none => rfl
  | some t => simp [toFlat]

omit [DivisionRing α] [Fintype Var] in
theorem reduces_iff (g : Round D.numel α (Fin W)) (P : Tensors D.numel α) :
    (∀ v (b b' : Fin W), ((g b P v).isSome && D.numel v ≠ 0) =
        ((g b' P v).isSome && D.numel v ≠ 0)) ↔
      ∀ v, D.numel v ≠ 0 → ∀ b b', (g b P v).isSome = (g b' P v).isSome := by
  refine forall_congr' fun v => ?_
  by_cases hv : D.numel v = 0
  · simp [hv]
  · simp [hv]

omit [Fintype Var] in
/-- What `backward_hook` and the optimizer leave of a group. -/
theorem stale_of_hooked (hW : 1 < W) (opt : Optimizer α σ) {hooked : Fin W → D.Rank α σ}
    (grads : Fin W → Var → Option (Flat α))
    (hlocal : ∀ b v, ((hooked b).slots v).localTensor = ((group b).slots v).localTensor)
    (h : Stale group P) :
    Stale (D.zeroGrad (D.optimizerStep opt
      (D.reshardParams fun b => { hooked b with grads := grads b }))) P := by
  have hspec := reshardParams_spec hW fun b => { hooked b with grads := grads b }
  refine ⟨fun b v => ?_, fun b => (hspec b).1, fun _ _ => rfl⟩
  rw [zeroGrad, optimizerStep]
  simp only [write_localTensor, (hspec b).2, hlocal]
  exact h.shards b v

/-- A round of a group of several ranks goes through exactly when its gradients are accepted, and
leaves the distributed tensors as they were. -/
theorem Stale.round (hW : 1 < W) (hD : D.Divisible W) (h : Stale group P) (opt : Optimizer α σ) :
    ((∃ group', D.round opt group g = some group') ↔ D.Accepted g P) ∧
      ∀ group', D.round opt group g = some group' → Stale group' P := by
  have hlocal : ∀ b v, ((D.forward group b).slots v).localTensor =
      ((group b).slots v).localTensor := fun b v => by
    rw [forward_eq hW h.resharded]
    cases D.reshardAfterForward with
    | false => rfl
    | true => rfl
  rw [FSDP2.round, h.backward_eq hW hD]
  by_cases hfit : D.reshardAfterForward = true → ∀ b v, (g b P v).isSome →
      D.shardShape W v = D.shape v
  · rw [if_pos hfit]
    simp only [Option.bind_eq_bind, Option.bind_some, backwardHook, if_neg (Nat.not_le.mpr hW)]
    have hreduces : ∀ b v, D.reduces (D.unshardParams
        (fun b => { D.forward group b with grads := fun v => (g b P v).map toFlat }) b) v =
        ((g b P v).isSome && D.numel v ≠ 0) := fun b v =>
      reduces_computed (unshardParams_grads _ b) v
    simp only [hreduces, reduces_iff]
    by_cases hsame : ∀ v, D.numel v ≠ 0 → ∀ b b', (g b P v).isSome = (g b' P v).isSome
    · rw [if_pos hsame]
      refine ⟨⟨fun _ => ⟨hfit, hsame⟩, fun _ => ⟨_, rfl⟩⟩, ?_⟩
      rintro group' hgroup
      cases hgroup
      refine stale_of_hooked hW opt _ (fun b v => ?_) h
      rw [unshardParams_localTensor]
      exact hlocal b v
    · rw [if_neg hsame]
      exact ⟨⟨fun ⟨_, hnone⟩ => absurd hnone (by simp), fun ha => absurd ha.2 hsame⟩,
        fun _ hnone => absurd hnone (by simp)⟩
  · rw [if_neg hfit]
    exact ⟨⟨fun ⟨_, hnone⟩ => absurd hnone (by simp), fun ha => absurd ha.1 hfit⟩,
      fun _ hnone => absurd hnone (by simp)⟩

/-- The rounds of a group of several ranks. -/
theorem Stale.rounds (hW : 1 < W) (hD : D.Divisible W) (h : Stale group P) (opt : Optimizer α σ)
    (gs : List (Round D.numel α (Fin W))) :
    ((∃ group', gs.foldlM (D.round opt) group = some group') ↔ ∀ g ∈ gs, D.Accepted g P) ∧
      ∀ group', gs.foldlM (D.round opt) group = some group' → Stale group' P := by
  induction gs generalizing group with
  | nil =>
    refine ⟨⟨fun _ _ hg => absurd hg not_mem_nil, fun _ => ⟨group, rfl⟩⟩, ?_⟩
    intro group' hgroup
    cases hgroup
    exact h
  | cons g gs ih =>
    obtain ⟨hiff, hstale⟩ := h.round (g := g) hW hD opt
    simp only [foldlM_cons, Option.bind_eq_bind, Option.bind_eq_some_iff,
      forall_mem_cons]
    refine ⟨⟨?_, ?_⟩, ?_⟩
    · rintro ⟨group', group₁, hround, hrest⟩
      exact ⟨hiff.mp ⟨group₁, hround⟩, (ih (hstale _ hround)).1.mp ⟨group', hrest⟩⟩
    · rintro ⟨hg, hgs⟩
      obtain ⟨group₁, hround⟩ := hiff.mpr hg
      obtain ⟨group', hrest⟩ := (ih (hstale _ hround)).1.mpr hgs
      exact ⟨group', group₁, hround, hrest⟩
    · rintro group' ⟨group₁, hround, hrest⟩
      exact (ih (hstale _ hround)).2 _ hrest

end Several

section Alone

variable [DivisionRing α] [Fintype Var] {group : Fin 1 → D.Rank α σ} {l : Learner D.numel α σ}

/-- The rank holds what a single process holds. -/
structure Alone (group : Fin 1 → D.Rank α σ) (l : Learner D.numel α σ) : Prop where
  live : ∀ v, ((group 0).slots v).live = .original
  values : ∀ v (j : Fin (D.numel v)), ((group 0).slots v).tensor.get j = l.values v j
  states : ∀ v (j : Fin (D.numel v)), (group 0).states v j = l.states v j
  cleared : ∀ v, (group 0).grads v = none

omit [Fintype Var] in
theorem forward_alone (group : Fin 1 → D.Rank α σ) (b : Fin 1) :
    D.forward group b =
      { group b with paramsUnsharded := true, used := (group b).values } := by
  have hone : ¬ (D.reshardAfterForward = true ∧ 1 < 1) := fun h => absurd h.2 (Nat.lt_irrefl 1)
  rw [forward, if_neg hone, unshardParams, if_pos (.inr (Nat.le_refl 1))]
  rfl

omit [Fintype Var] in
theorem Alone.forward_used (h : Alone group l) (b : Fin 1) : (D.forward group b).used = l.values := by
  rw [forward_alone, Subsingleton.elim b 0]
  ext v j
  exact h.values v j

/-- The rank takes a step on its own gradients. -/
theorem Alone.round (h : Alone group l) (opt : Optimizer α σ) (g : Round D.numel α (Fin 1)) :
    ∃ group', D.round opt group g = some group' ∧
      Alone group' (opt.step (average fun r => g r l.values) l) := by
  have hlive : ∀ b v, ((D.forward group b).slots v).live = .original := fun b v => by
    rw [forward_alone, Subsingleton.elim b 0]
    exact h.live v
  have hshape : ∀ b v, (g b (D.forward group b).used v).isSome →
      D.liveShape 1 ((D.forward group b).slots v) v = D.shape v := fun b v _ => by
    rw [liveShape, hlive]
  have hgrads : ∀ v, addGrad ((D.forward group 0).grads v) ((g 0 l.values v).map toFlat) =
      (g 0 l.values v).map toFlat := fun v => by
    rw [forward_alone, h.cleared]
    cases g 0 l.values v with
    | none => rfl
    | some d => rfl
  rw [FSDP2.round, backward, if_pos hshape]
  refine ⟨_, rfl, ?_⟩
  rw [opt.step_congr (fun v j => average_at_of_unique (fun r => g r l.values) v j) l]
  have hat : ∀ v (j : Fin (D.numel v)),
      ((g 0 l.values v).map toFlat).map (·.get j) = (g 0 l.values).at v j := fun v j => by
    cases hg : g 0 l.values v with
    | none => rw [Grads.at_of_none hg]; rfl
    | some d => rw [Grads.at_of_some hg]; exact congrArg some (toFlat_get d j)
  have hslots : ∀ v, (D.forward group 0).slots v = (group 0).slots v := fun v => by
    rw [forward_alone]
  have hstates : (D.forward group 0).states = (group 0).states := by rw [forward_alone]
  refine ⟨fun v => ?_, fun v j => ?_, fun v j => ?_, fun _ => rfl⟩
  · simp only [zeroGrad, optimizerStep, write_live]
    exact hlive 0 v
  · simp only [zeroGrad, optimizerStep, tensor_write, h.forward_used, hgrads, hslots, hstates,
      h.values, h.states, hat]
    rfl
  · simp only [zeroGrad, optimizerStep, h.forward_used, hgrads, hslots, hstates, h.values,
      h.states, hat]
    rfl

theorem Alone.rounds (h : Alone group l) (opt : Optimizer α σ)
    (gs : List (Round D.numel α (Fin 1))) :
    ∃ group', gs.foldlM (D.round opt) group = some group' ∧ Alone group' (train opt l gs) := by
  induction gs generalizing group l with
  | nil => exact ⟨group, rfl, h⟩
  | cons g gs ih =>
    obtain ⟨group₁, hround, halone⟩ := h.round opt g
    obtain ⟨group', hrest, hdone⟩ := ih halone
    refine ⟨group', ?_, hdone⟩
    rw [foldlM_cons, hround]
    exact hrest

end Alone

section Mesh

variable [DivisionRing α]

/-- The ranks of one group. -/
def ofGroup (a : Fin groups) (g : Round D.numel α (Fin groups × Fin W)) :
    Round D.numel α (Fin W) := fun b => g (a, b)

theorem stale_start (hW : 1 < W) (values : Tensors D.numel α) (s₀ : σ) :
    Stale (W := W) (D.start values s₀) values :=
  ⟨fun _ _ => if_neg (Nat.not_le.mpr hW), fun _ => rfl, fun _ _ => rfl⟩

theorem alone_start (values : Tensors D.numel α) (s₀ : σ) :
    Alone (D.start values s₀) ⟨values, fun _ _ => s₀⟩ :=
  ⟨fun _ => rfl, fun v j => toFlat_get (values v) j, fun _ _ => rfl, fun _ => rfl⟩

variable [Fintype Var]

/-- Without ranks nothing is waited for. -/
theorem rounds_of_no_rank (opt : Optimizer α σ) (group : Fin 0 → D.Rank α σ)
    (gs : List (Round D.numel α (Fin 0))) :
    ∃ group', gs.foldlM (D.round opt) group = some group' := by
  induction gs generalizing group with
  | nil => exact ⟨group, rfl⟩
  | cons g gs ih =>
    have hround : ∃ group₁, D.round opt group g = some group₁ := by
      rw [FSDP2.round, backward]
      simp [backwardHook]
    obtain ⟨group₁, hround⟩ := hround
    rw [foldlM_cons, hround]
    exact ih group₁

/-- After any rounds the next forward runs on every rank with the parameters of the single process
that trains on the averaged gradients exactly when: with groups of one rank, training on the
gradients of each rank alone gives these parameters; with larger groups, the rounds go through
and the single process has not moved from the first parameters. -/
theorem rounds_train_iff (hD : D.Divisible W) (opt : Optimizer α σ) (values : Tensors D.numel α)
    (s₀ : σ) (gs : List (Round D.numel α (Fin groups × Fin W))) :
    (∀ a : Fin groups, ∃ group : Fin W → D.Rank α σ,
        (gs.map (ofGroup a)).foldlM (D.round opt) (D.start values s₀) = some group ∧
        ∀ b v j, (D.forward group b).used v j =
          (train opt ⟨values, fun _ _ => s₀⟩ gs).values v j) ↔
      (W = 1 → ∀ a : Fin groups,
        (train opt ⟨values, fun _ _ => s₀⟩ (gs.map (ofGroup a))).values =
          (train opt ⟨values, fun _ _ => s₀⟩ gs).values) ∧
      (1 < W → ∀ a : Fin groups, (∀ g ∈ gs, D.Accepted (ofGroup a g) values) ∧
        (train opt ⟨values, fun _ _ => s₀⟩ gs).values = values) := by
  rcases Nat.lt_trichotomy W 1 with hW | rfl | hW
  · obtain rfl : W = 0 := by omega
    refine ⟨fun _ => ⟨fun h => absurd h (by omega), fun h => absurd h (by omega)⟩, fun _ a => ?_⟩
    obtain ⟨group, hgroup⟩ := rounds_of_no_rank opt (D.start values s₀) (gs.map (ofGroup a))
    exact ⟨group, hgroup, fun b => b.elim0⟩
  · have hrun := fun a : Fin groups => (alone_start values s₀).rounds opt (gs.map (ofGroup a))
    constructor
    · refine fun h => ⟨fun _ a => ?_, fun hlt => absurd hlt (Nat.lt_irrefl 1)⟩
      obtain ⟨group, hgroup, halone⟩ := hrun a
      obtain ⟨group', hgroup', hused⟩ := h a
      cases hgroup.symm.trans hgroup'
      rw [← halone.forward_used 0]
      ext v j
      exact hused 0 v j
    · intro h a
      obtain ⟨group, hgroup, halone⟩ := hrun a
      exact ⟨group, hgroup, fun b v j => by rw [halone.forward_used, h.1 rfl a]⟩
  · have hrun := fun a : Fin groups =>
      (stale_start hW values s₀).rounds hW hD opt (gs.map (ofGroup a))
    constructor
    · refine fun h => ⟨fun hone => absurd hone (by omega), fun _ a => ?_⟩
      obtain ⟨group, hgroup, hused⟩ := h a
      refine ⟨fun g hg => (hrun a).1.mp ⟨group, hgroup⟩ _ (mem_map_of_mem hg), ?_⟩
      ext v j
      have hstale := ((hrun a).2 group hgroup).forward_used hW hD ⟨0, by omega⟩
      rw [← hused ⟨0, by omega⟩ v j, hstale]
    · intro h a
      obtain ⟨haccepted, hsame⟩ := h.2 hW a
      obtain ⟨group, hgroup⟩ := (hrun a).1.mpr fun g hg => by
        obtain ⟨g', hg', rfl⟩ := mem_map.mp hg
        exact haccepted g' hg'
      refine ⟨group, hgroup, fun b v j => ?_⟩
      rw [((hrun a).2 group hgroup).forward_used hW hD, hsame]

end Mesh

end Tenzor.Fsdp2.FSDP2

namespace Tenzor.Fsdp2

open ElementwiseTraining

/-- One parameter of two elements, kept full after the forward. -/
def pairModule : FSDP2 Unit := ⟨fun _ => [2], false⟩

def rankDescent : Optimizer ℚ Unit := ⟨fun x g s => (x - g, s)⟩

/-- Rank `b` of the group has the gradient `b` everywhere. -/
def placeGradients : Round pairModule.numel ℚ (Fin 1 × Fin 2) :=
  fun r _ _ => some fun _ => (r.2.val : ℚ)

theorem rounds_train_iff_pair :
    (∀ a : Fin 1, ∃ group : Fin 2 → pairModule.Rank ℚ Unit,
        ([placeGradients, placeGradients].map (FSDP2.ofGroup a)).foldlM
          (pairModule.round rankDescent) (pairModule.start (fun _ _ => 0) ()) = some group ∧
        ∀ b v j, (pairModule.forward group b).used v j =
          (train rankDescent ⟨fun _ _ => 0, fun _ _ => ()⟩
            [placeGradients, placeGradients]).values v j) ↔
      (2 = 1 → ∀ a : Fin 1,
        (train rankDescent ⟨fun _ _ => 0, fun _ _ => ()⟩
          ([placeGradients, placeGradients].map (FSDP2.ofGroup a))).values =
          (train rankDescent ⟨fun _ _ => 0, fun _ _ => ()⟩
            [placeGradients, placeGradients]).values) ∧
      (1 < 2 → ∀ a : Fin 1,
        (∀ g ∈ [placeGradients, placeGradients],
          pairModule.Accepted (FSDP2.ofGroup a g) fun _ _ => 0) ∧
        (train rankDescent ⟨fun _ _ => 0, fun _ _ => ()⟩
          [placeGradients, placeGradients]).values = fun _ _ => 0) :=
  FSDP2.rounds_train_iff (fun _ => ⟨2, [], rfl, 1, rfl⟩) rankDescent (fun _ _ => 0) ()
    [placeGradients, placeGradients]

/-- The averaged gradient is one half, and the next forward is back at zero. -/
theorem pair_forgets_step :
    ¬ ∀ a : Fin 1, ∃ group : Fin 2 → pairModule.Rank ℚ Unit,
        ([placeGradients].map (FSDP2.ofGroup a)).foldlM
          (pairModule.round rankDescent) (pairModule.start (fun _ _ => 0) ()) = some group ∧
        ∀ b v j, (pairModule.forward group b).used v j =
          (train rankDescent ⟨fun _ _ => 0, fun _ _ => ()⟩ [placeGradients]).values v j := by
  intro h
  obtain ⟨group, hgroup, hused⟩ := h 0
  have hrun : (([placeGradients].map (FSDP2.ofGroup 0)).foldlM (pairModule.round rankDescent)
      (pairModule.start (fun _ _ => 0) ())).map
        (fun group => (pairModule.forward group 0).used () ⟨0, by decide⟩) = some 0 := by
    decide +kernel
  have htrain : (train rankDescent ⟨fun _ _ => 0, fun _ _ => ()⟩ [placeGradients]).values ()
      ⟨0, by decide⟩ = -1 / 2 := by
    decide +kernel
  rw [hgroup, Option.map_some, hused] at hrun
  exact absurd hrun (by decide +kernel)

end Tenzor.Fsdp2
