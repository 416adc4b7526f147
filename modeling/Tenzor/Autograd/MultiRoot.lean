import Tenzor.Autograd.LinearPass

/-!
# Several roots in one pass

`execute_multi` merges the seeds of equal roots, walks the graphs of all roots
at once and runs one pass. Over additive Functions it gives every Variable what
one call of `execute` after the other gives, in any order of the roots.
-/

namespace Tenzor

open Throwing KeepState PathSum List

namespace Engine

variable {T : Type} [AddCommSemigroup T] {ops : TensorOps T} {g : Graph T} {In : FnId → Prop}
  {kinds : Set DType} {fs sorted : List FnId} {seeds : List (VarId × T)} {root : VarId} {t : T}
  {Listed : VarId → Prop} {g' : Graph T} {roots : List (Option VarId)} {gradients : List T}
  {f : FnId}

/-- What a seed at `root` sends to `v`: the seed itself, and what arrives along
the paths. There are no more steps than live Functions. -/
def Linear.contribution (L : Linear ops g In) (v root : VarId) : WithZero T →+ WithZero T :=
  (if root = v then AddMonoidHom.id _ else 0) +
    match (g.vars root).gradFn with
    | some f => L.pathSum v g.live.card f
    | none => 0

/-- What a list of seeds sends to `v`. -/
def Linear.contributions (L : Linear ops g In) (v : VarId) (seeds : List (VarId × T)) :
    WithZero T :=
  (seeds.map fun s => L.contribution v s.1 (asSum (some s.2))).sum

omit [AddCommSemigroup T] in
/-- A walk has no more Functions than there are. -/
theorem length_sorted_le (hclosed : g.Closed) (hfs : ∀ f ∈ fs, f ∈ g.live)
    (hsort : topologicalSort g fs = .ok sorted) : sorted.length ≤ g.live.card := by
  obtain ⟨horder, hmem⟩ := topologicalSort_ok hclosed hfs hsort
  have hnodup : sorted.Nodup := nodup_reverse.mp horder.nodup
  rw [← toFinset_card_of_nodup hnodup]
  apply Finset.card_le_card
  intro f hf
  obtain ⟨r, hr, hreach⟩ := (hmem f).mp (mem_toFinset.mp hf)
  exact hclosed.reaches_live (hfs r hr) hreach

/-- Seeds waiting at their Functions reach `v` along the paths from each. -/
theorem Linear.sum_seeds (L : Linear ops g In) (hclosed : g.Closed) (hfs : ∀ f ∈ fs, f ∈ g.live)
    (hsort : topologicalSort g fs = .ok sorted) (v : VarId)
    (hseeds : ∀ s ∈ seeds, ∀ f, (g.vars s.1).gradFn = some f → f ∈ fs) :
    (seeds.map fun s => if s.1 = v then asSum (some s.2) else 0).sum +
        ∑ c ∈ sorted.toFinset, L.pathSum v sorted.length c
          ((seeds.map fun s => if (g.vars s.1).gradFn = some c then asSum (some s.2) else 0).sum) =
      L.contributions v seeds := by
  obtain ⟨horder, hmem⟩ := topologicalSort_ok hclosed hfs hsort
  have hlength : sorted.reverse.length ≤ g.live.card := by
    rw [length_reverse]
    exact length_sorted_le hclosed hfs hsort
  induction seeds with
  | nil => simp [Linear.contributions]
  | cons s seeds ih =>
    have hone : ∑ c ∈ sorted.toFinset, L.pathSum v sorted.length c
        (if (g.vars s.1).gradFn = some c then asSum (some s.2) else 0) =
          (match (g.vars s.1).gradFn with
            | some f => L.pathSum v g.live.card f
            | none => 0) (asSum (some s.2)) := by
      cases hfn : (g.vars s.1).gradFn with
      | none => simp
      | some f =>
        have hf : f ∈ sorted := (hmem f).mpr
          ⟨f, hseeds s mem_cons_self f hfn, Relation.ReflTransGen.refl⟩
        have hbound : L.pathSum v g.live.card f = L.pathSum v sorted.length f := by
          rw [Linear.pathSum, pathSum_of_le horder (mem_reverse.mpr hf) hlength,
            length_reverse]
        simp only [hbound]
        rw [Finset.sum_eq_single f, if_pos rfl]
        · intro c _ hne
          rw [if_neg (by simpa using Ne.symm hne), map_zero]
        · intro hnot
          exact absurd (mem_toFinset.mpr hf) hnot
    have hrest := ih fun s hs => hseeds s (mem_cons_of_mem _ hs)
    simp only [Linear.contributions, map_cons, sum_cons, map_add,
      Finset.sum_add_distrib, hone] at hrest ⊢
    rw [← hrest, Linear.contribution, AddMonoidHom.add_apply]
    by_cases hv : s.1 = v
    · simp only [hv, if_true, AddMonoidHom.id_apply]
      abel
    · simp only [hv, if_false, AddMonoidHom.zero_apply]
      abel

/-! ## Merging seeds -/

/-- Merging adds one seed to what the list sends. -/
theorem Linear.contributions_mergeSeed (L : Linear ops g In) (v : VarId)
    (seeds : List (VarId × T)) (root : VarId) (seed : T) :
    L.contributions v (mergeSeed seeds root seed) =
      L.contributions v seeds + L.contribution v root (asSum (some seed)) := by
  induction seeds with
  | nil => simp [Linear.contributions, mergeSeed]
  | cons s seeds ih =>
    rw [mergeSeed]
    split_ifs with hroot
    · simp only [Linear.contributions, map_cons, sum_cons, asSum_some,
        WithZero.coe_add, map_add, hroot]
      abel
    · simp only [Linear.contributions, map_cons, sum_cons] at ih ⊢
      rw [ih, add_assoc]

omit [AddCommSemigroup T] in
theorem mem_mergeSeed [Add T] {seed : T} {s : VarId × T} (h : s ∈ mergeSeed seeds root seed) :
    s ∈ seeds ∨ s = (root, seed) ∨ ∃ t, (root, t) ∈ seeds ∧ s = (root, t + seed) := by
  induction seeds with
  | nil => exact .inr (.inl (mem_singleton.mp h))
  | cons r seeds ih =>
    rw [mergeSeed] at h
    split_ifs at h with hroot
    · rcases mem_cons.mp h with rfl | hmem
      · subst hroot
        exact .inr (.inr ⟨r.2, mem_cons_self, rfl⟩)
      · exact .inl (mem_cons_of_mem _ hmem)
    · rcases mem_cons.mp h with rfl | hmem
      · exact .inl mem_cons_self
      · rcases ih hmem with hin | heq | ⟨t, ht, heq⟩
        · exact .inl (mem_cons_of_mem _ hin)
        · exact .inr (.inl heq)
        · exact .inr (.inr ⟨t, mem_cons_of_mem _ ht, heq⟩)

/-- The calls that `execute_multi` stands for. -/
def calls (roots : List (Option VarId × T)) : List (VarId × T) :=
  roots.filterMap fun p => p.1.map fun root => (root, p.2)

/-- The calls whose root requires gradients. -/
def effective (g : Graph T) (calls : List (VarId × T)) : List (VarId × T) :=
  calls.filter fun c => (g.vars c.1).requiresGrad

omit [AddCommSemigroup T] in
/-- Where all gradients pass the check, the seeds are merged one by one. -/
theorem rootSeeds_eq [Add T] (roots : List (Option VarId × T))
    (hvalid : ∀ c ∈ effective g (calls roots),
      synthesizeOrValidateRootGrad ops (g.vars c.1) (some c.2) = .ok c.2) :
    rootSeeds ops g roots =
      .ok ((effective g (calls roots)).foldl (fun seeds c => mergeSeed seeds c.1 c.2) []) := by
  unfold rootSeeds
  generalize ([] : List (VarId × T)) = seeds
  induction roots generalizing seeds with
  | nil => rfl
  | cons p roots ih =>
    obtain ⟨o, t⟩ := p
    rw [foldlM_cons]
    cases o with
    | none => exact ih hvalid seeds
    | some root =>
      have hcalls : calls ((some root, t) :: roots) = (root, t) :: calls roots := rfl
      rw [hcalls] at hvalid ⊢
      by_cases hreq : (g.vars root).requiresGrad = true
      · have heff : effective g ((root, t) :: calls roots) =
            (root, t) :: effective g (calls roots) := filter_cons_of_pos hreq
        rw [heff] at hvalid ⊢
        have hseed := hvalid (root, t) mem_cons_self
        simp only [hreq, if_true, hseed]
        exact ih (fun c hc => hvalid c (mem_cons_of_mem _ hc)) (mergeSeed seeds root t)
      · have heff : effective g ((root, t) :: calls roots) = effective g (calls roots) :=
          filter_cons_of_neg hreq
        rw [heff] at hvalid ⊢
        simp only [hreq]
        exact ih hvalid seeds

/-- The merged seeds send what the single ones send. -/
theorem Linear.contributions_foldl (L : Linear ops g In) (v : VarId) (l seeds : List (VarId × T)) :
    L.contributions v (l.foldl (fun seeds c => mergeSeed seeds c.1 c.2) seeds) =
      L.contributions v seeds + L.contributions v l := by
  induction l generalizing seeds with
  | nil => exact (add_zero _).symm
  | cons c l ih =>
    rw [foldl_cons, ih, L.contributions_mergeSeed, add_assoc]
    rfl

omit [AddCommSemigroup T] in
/-- What holds of all seeds and of their sums holds of the merged ones. -/
theorem foldl_mergeSeed [Add T] {P : VarId → T → Prop} (hadd : ∀ r a b, P r a → P r b → P r (a + b))
    {l : List (VarId × T)} (hl : ∀ c ∈ l, P c.1 c.2) (hseeds : ∀ s ∈ seeds, P s.1 s.2) :
    ∀ s ∈ l.foldl (fun seeds c => mergeSeed seeds c.1 c.2) seeds, P s.1 s.2 := by
  induction l generalizing seeds with
  | nil => exact hseeds
  | cons c l ih =>
    refine ih (fun d hd => hl d (mem_cons_of_mem _ hd)) fun s hs => ?_
    have hc := hl c mem_cons_self
    rcases mem_mergeSeed hs with hmem | rfl | ⟨t, ht, rfl⟩
    · exact hseeds s hmem
    · exact hc
    · exact hadd c.1 t c.2 (hseeds _ ht) hc

omit [AddCommSemigroup T] in
theorem seedRoot_eq [Add T] (p : Pass T) (s : VarId × T) :
    seedRoot ops p s = { deliverTo ops p s.1 s.2 with touched := p.touched } := by
  unfold seedRoot deliverTo
  split_ifs
  · rfl
  · rfl

/-- Every root that receives gradients has got its seed. -/
theorem foldl_seedRoot (seeds : List (VarId × T)) {p : Pass T}
    (hreads : SameReads (fun _ => True) (fun _ => True) g p.graph) :
    SameReads (fun _ => True) (fun _ => True) g (seeds.foldl (seedRoot ops) p).graph ∧
      handled (seeds.foldl (seedRoot ops) p).log = handled p.log ∧
      ∀ v, Receives g v → sumOf (writesTo v (seeds.foldl (seedRoot ops) p).log) =
        sumOf (writesTo v p.log) +
          (seeds.map fun s => if s.1 = v then asSum (some s.2) else 0).sum := by
  induction seeds generalizing p with
  | nil => exact ⟨hreads, rfl, fun v _ => (add_zero _).symm⟩
  | cons s seeds ih =>
    obtain ⟨hsame, -, hwrites⟩ :=
      @deliverTo_reads _ (fun _ => True) (fun _ => True) _ ops p s.1 s.2
    obtain ⟨hreads', hhandled, hsums⟩ := @ih (seedRoot ops p s)
      (by rw [seedRoot_eq]; exact hreads.trans hsame)
    refine ⟨hreads', ?_, fun v hv => ?_⟩
    · rw [foldl_cons, hhandled, seedRoot_eq]
      exact handled_deliverTo p s.1 s.2
    · have hkeep : (p.graph.vars v).keepsGrad = true := by
        rw [hreads.keeps_eq v trivial, hv.2]
      rw [foldl_cons, hsums v hv, seedRoot_eq]
      simp only [hwrites v, map_cons, sum_cons, sumOf_append, hkeep, and_true]
      by_cases hs : s.1 = v
      · simp [hs, add_assoc]
      · simp [hs]

theorem sumOf_seedAccumulators (seeds : List (VarId × T)) (c : FnId) :
    sumOf (seedAccumulators g seeds c) =
      (seeds.map fun s => if (g.vars s.1).gradFn = some c then asSum (some s.2) else 0).sum := by
  suffices h : ∀ add : (FnId → List T) → VarId × T → FnId → List T,
      (∀ acc s, sumOf (add acc s c) =
        sumOf (acc c) + if (g.vars s.1).gradFn = some c then asSum (some s.2) else 0) →
      ∀ acc, sumOf (seeds.foldl add acc c) = sumOf (acc c) +
        (seeds.map fun s => if (g.vars s.1).gradFn = some c then asSum (some s.2) else 0).sum by
    refine (h _ (fun acc s => ?_) fun _ => []).trans (zero_add _)
    cases hfn : (g.vars s.1).gradFn with
    | none => simp
    | some f =>
      by_cases hf : f = c
      · subst hf
        simp
      · simp [Function.update_of_ne (Ne.symm hf), hf]
  intro add hadd
  induction seeds with
  | nil => exact fun acc => (add_zero _).symm
  | cons s seeds ih =>
    intro acc
    rw [foldl_cons, ih, hadd, map_cons, sum_cons, add_assoc]

omit [AddCommSemigroup T] in
theorem mem_seedAccumulators {c : FnId} (h : t ∈ seedAccumulators g seeds c) :
    ∃ r, (r, t) ∈ seeds ∧ (g.vars r).gradFn = some c := by
  suffices hfold : ∀ add : (FnId → List T) → VarId × T → FnId → List T,
      (∀ acc s, t ∈ add acc s c → t ∈ acc c ∨ t = s.2 ∧ (g.vars s.1).gradFn = some c) →
      ∀ acc, t ∈ seeds.foldl add acc c →
        t ∈ acc c ∨ ∃ r, (r, t) ∈ seeds ∧ (g.vars r).gradFn = some c by
    refine (hfold _ (fun acc s hacc => ?_) _ h).resolve_left not_mem_nil
    cases hfn : (g.vars s.1).gradFn with
    | none =>
      rw [hfn] at hacc
      exact .inl hacc
    | some f =>
      rw [hfn] at hacc
      by_cases hf : f = c
      · subst hf
        simp only [Function.update_self, mem_append, mem_singleton] at hacc
        exact hacc.imp_right fun heq => ⟨heq, rfl⟩
      · simp only [Function.update_of_ne (Ne.symm hf)] at hacc
        exact .inl hacc
  intro add hadd
  clear h
  induction seeds with
  | nil => exact fun acc hmem => .inl hmem
  | cons s seeds ih =>
    intro acc hmem
    rw [foldl_cons] at hmem
    rcases ih _ hmem with hacc | ⟨r, hr, hfn⟩
    · rcases hadd acc s hacc with hacc | ⟨rfl, hfn⟩
      · exact .inl hacc
      · exact .inr ⟨s.1, mem_cons_self, hfn⟩
    · exact .inr ⟨r, mem_cons_of_mem _ hr, hfn⟩

omit [AddCommSemigroup T] in
theorem foldl_seedRoot_frame [Add T] (seeds : List (VarId × T))
    (hseeds : ∀ s ∈ seeds, (g.vars s.1).requiresGrad = true ∧ Listed s.1) :
    Frame ops true [] Listed (start g) (seeds.foldl (seedRoot ops) (start g)).log
      (seeds.foldl (seedRoot ops) (start g)) := by
  suffices h : ∀ (l : List (VarId × T)) (p : Pass T), (∀ s ∈ l, s ∈ seeds) →
      Frame ops true [] Listed (start g) p.log p →
      Frame ops true [] Listed (start g) (l.foldl (seedRoot ops) p).log
        (l.foldl (seedRoot ops) p) from h seeds (start g) (fun _ hs => hs) (Frame.refl _)
  intro l
  induction l with
  | nil => exact fun p _ hp => hp
  | cons s l ih =>
    intro p hsub hp
    apply ih (seedRoot ops p s) fun t ht => hsub t (mem_cons_of_mem _ ht)
    obtain ⟨hreq, hlisted⟩ := hseeds s (hsub s mem_cons_self)
    unfold seedRoot
    split_ifs with hkeep
    · have hreq' : (p.graph.vars s.1).requiresGrad = true := by
        rw [hp.vars_eq s.1]
        exact hreq
      exact hp.trans (@Frame.of_write _ _ ops true [] Listed p s.1 s.2 p.touched hreq' hkeep
        hlisted fun w hw => .inl hw)
    · exact hp

/-! ## One pass and many -/

/-- One call of `execute` after the other, keeping the graph. -/
def executeEach (ops : TensorOps T) (g : Graph T) (calls : List (VarId × T)) :
    Graph T × Except Exn Unit :=
  loop (fun g c =>
    let r := execute ops g c.1 (some c.2) true
    (r.1.graph, r.2)) g calls

/-- The Functions that the roots of the calls reach. -/
def InGraphs (g : Graph T) (calls : List (VarId × T)) (f : FnId) : Prop :=
  ∃ c ∈ calls, InGraph g c.1 f

variable {l : List (VarId × T)}

/-- One call adds its contribution, to the Variables that receive gradients. -/
theorem execute_contribution (L : Linear ops g In) (hexact : ops.Exact kinds) (hclosed : g.Closed)
    (hin : ∀ f, InGraph g root f → In f) (hacyclic : Acyclic g In)
    (hreq : (g.vars root).requiresGrad = true)
    (hvalid : synthesizeOrValidateRootGrad ops (g.vars root) (some t) = .ok t)
    (hfits : ∀ f, (g.vars root).gradFn = some f → L.Fits f t) (retain : Bool) :
    (execute ops g root (some t) retain).2 = .ok () ∧
      ∀ v, Receives g v → sumOf (writesTo v (execute ops g root (some t) retain).1.log) =
        L.contribution v root (asSum (some t)) := by
  cases hfn : (g.vars root).gradFn with
  | none =>
    have hexec : execute ops g root (some t) retain = (seeded ops g root t, .ok ()) := by
      simp [execute, hreq, hvalid, hfn]
    refine ⟨by rw [hexec], fun v hv => ?_⟩
    rw [hexec, sumOf_writesTo_seeded hv]
    by_cases hroot : root = v
    · subst hroot
      simp [Linear.contribution, hfn]
    · simp [Linear.contribution, hfn, hroot]
  | some f₀ =>
    obtain ⟨sorted, hsort, hok, -, hsums⟩ := execute_graph_linear L hexact hclosed hin hacyclic
      hreq hfn hvalid (hfits f₀ hfn) retain
    refine ⟨hok, fun v hv => ?_⟩
    have hstart : ∀ s ∈ [(root, t)], ∀ f, (g.vars s.1).gradFn = some f → f ∈ [f₀] := by
      simp [hfn]
    have hseeds := L.sum_seeds hclosed (by simpa using hclosed.gradFn_mem root f₀ hfn) hsort v
      hstart
    have hwaiting : ∀ c, sumOf (Function.update (fun _ => []) f₀ [t] c) =
        ([(root, t)].map fun s =>
          if (g.vars s.1).gradFn = some c then asSum (some s.2) else 0).sum := by
      intro c
      by_cases hc : f₀ = c
      · subst hc
        simp [hfn]
      · simp [hfn, hc, Function.update_of_ne (Ne.symm hc)]
    simp only [hsums v hv, hwaiting]
    have hsum : L.contributions v [(root, t)] = L.contribution v root (asSum (some t)) := by
      simp [Linear.contributions]
    rw [← hsum, ← hseeds]
    simp

/-- Only gradients have changed. -/
structure OnlyGrads (g g' : Graph T) : Prop where
  closed : g'.Closed
  reads : SameReads (fun _ => True) (fun _ => True) g g'
  gradFn_eq : ∀ v, (g'.vars v).gradFn = (g.vars v).gradFn

omit [AddCommSemigroup T] in
theorem OnlyGrads.of_outcome [Add T] {new : List (LogEntry T)} (hclosed : g.Closed)
    (h : Outcome ops [] [] Listed g new g') : OnlyGrads g g' := by
  have hgradFn : ∀ v, (g'.vars v).gradFn = (g.vars v).gradFn := by
    intro v
    rw [h.vars_eq v]
    simp
  refine ⟨h.closed hclosed, ⟨by rw [h.rest], fun f _ => h.kept f not_mem_nil, ?_, ?_, ?_, ?_⟩,
    hgradFn⟩
  · intro w
    rw [h.vars_eq w]
  · intro w
    rw [h.vars_eq w]
  · intro w
    rw [h.vars_eq w]
  · intro w _
    simp only [VariableImpl.keepsGrad, VariableImpl.isLeaf, hgradFn w]
    rw [h.vars_eq w]

omit [AddCommSemigroup T] in
theorem OnlyGrads.trans {g g'' : Graph T} (h : OnlyGrads g g') (h' : OnlyGrads g' g'') :
    OnlyGrads g g'' :=
  ⟨h'.closed, h.reads.trans h'.reads, fun v => (h'.gradFn_eq v).trans (h.gradFn_eq v)⟩

omit [AddCommSemigroup T] in
theorem OnlyGrads.receives {g : Graph T} (h : OnlyGrads g g') (v : VarId) :
    Receives g' v ↔ Receives g v := by
  rw [Receives, Receives, h.reads.requiresGrad_eq, h.reads.keeps_eq v trivial]

omit [AddCommSemigroup T] in
theorem onlyGrads_execute [Add T] (ops : TensorOps T) (hclosed : g.Closed) (root : VarId)
    (gradient : Option T) : OnlyGrads g (execute ops g root gradient true).1.graph := by
  obtain ⟨released, roots, hout, ⟨rfl, rfl⟩ | ⟨hfalse, -⟩⟩ :=
    @execute_spec _ _ ops g hclosed root gradient true
  · exact OnlyGrads.of_outcome hclosed hout
  · cases hfalse

/-- What the calls need of each other: each seed passes its check and fits. -/
structure Matching (L : Linear ops g In) (calls : List (VarId × T)) : Prop where
  inside : ∀ c ∈ calls, ∀ f, InGraph g c.1 f → In f
  valid : ∀ c ∈ effective g calls,
    synthesizeOrValidateRootGrad ops (g.vars c.1) (some c.2) = .ok c.2
  fits : ∀ c ∈ effective g calls, ∀ f, (g.vars c.1).gradFn = some f → L.Fits f c.2

/-- Calls one after the other add up their contributions. -/
theorem executeEach_spec (L : Linear ops g In) (hexact : ops.Exact kinds) (hclosed : g.Closed)
    (hacyclic : Acyclic g In) (hmatch : Matching L l) (hg' : OnlyGrads g g') :
    (executeEach ops g' l).2 = .ok () ∧
      (∀ v, Receives g v → asSum ((executeEach ops g' l).1.vars v).grad =
        asSum (g'.vars v).grad + L.contributions v (effective g l)) ∧
      ∀ v, ¬ Receives g v → ((executeEach ops g' l).1.vars v).grad = (g'.vars v).grad := by
  induction l generalizing g' with
  | nil => exact ⟨rfl, fun v _ => (add_zero _).symm, fun _ _ => rfl⟩
  | cons c l ih =>
    have hinside := hmatch.inside c mem_cons_self
    have hg'' := hg'.trans (onlyGrads_execute ops hg'.closed c.1 (some c.2))
    by_cases hreq : (g.vars c.1).requiresGrad = true
    · have heff : effective g (c :: l) = c :: effective g l := filter_cons_of_pos hreq
      have hmem : c ∈ effective g (c :: l) := by
        rw [heff]
        exact mem_cons_self
      have hmatch' : Matching L l := by
        refine ⟨fun d hd => hmatch.inside d (mem_cons_of_mem _ hd), fun d hd => ?_,
          fun d hd => ?_⟩
        · exact hmatch.valid d (heff ▸ mem_cons_of_mem _ hd)
        · exact hmatch.fits d (heff ▸ mem_cons_of_mem _ hd)
      obtain ⟨hok, hsum⟩ := execute_contribution L hexact hclosed hinside hacyclic hreq
        (hmatch.valid c hmem) (hmatch.fits c hmem) true
      obtain ⟨hres, hwrites⟩ := @execute_congr _ (fun _ => True) _ ops g g' hclosed hg'.closed c.1
        (hg'.gradFn_eq c.1) (hg'.reads.mono fun _ _ => trivial) (some c.2) true true
      obtain ⟨hrest, hsums, hothers⟩ := ih hmatch' hg''
      have hstep : executeEach ops g' (c :: l) =
          executeEach ops (execute ops g' c.1 (some c.2) true).1.graph l := by
        simp only [executeEach, loop, hres.trans hok, andThen_ok]
      rw [hstep, heff]
      refine ⟨hrest, fun v hv => ?_, fun v hv => ?_⟩
      · rw [hsums v hv, asSum_execute hexact hg'.closed, hwrites v trivial, hsum v hv, add_assoc]
        rfl
      · rw [hothers v hv, grad_of_not_receives hexact hg'.closed]
        rwa [hg'.receives]
    · have heff : effective g (c :: l) = effective g l := filter_cons_of_neg hreq
      have hmatch' : Matching L l := by
        refine ⟨fun d hd => hmatch.inside d (mem_cons_of_mem _ hd), fun d hd => ?_,
          fun d hd => ?_⟩
        · exact hmatch.valid d (heff ▸ hd)
        · exact hmatch.fits d (heff ▸ hd)
      have hstep : executeEach ops g' (c :: l) = executeEach ops g' l := by
        have hreq' : (g'.vars c.1).requiresGrad = false := by
          rw [hg'.reads.requiresGrad_eq]
          simpa using hreq
        have hexec : execute ops g' c.1 (some c.2) true = (start g', .ok ()) := by
          simp [execute, hreq']
        simp only [executeEach, loop, hexec, andThen_ok, start]
      rw [hstep, heff]
      exact ih hmatch' hg'

omit [AddCommSemigroup T] in
theorem topologicalSort_of_eq {g : Graph T} (hfns : g'.fns = g.fns) (hlive : g'.live = g.live)
    (fs : List FnId) : topologicalSort g' fs = topologicalSort g fs := by
  cases g
  cases g'
  cases hfns
  cases hlive
  rfl

omit [AddCommSemigroup T] in
/-- Every Function that `execute_multi` starts from is that of a call. -/
theorem exists_call (hlen : roots.length = gradients.length)
    (hf : f ∈ roots.filterMap fun root => root.bind fun r => (g.vars r).gradFn) :
    ∃ c ∈ calls (roots.zip gradients), (g.vars c.1).gradFn = some f := by
  obtain ⟨o, ho, hfn⟩ := mem_filterMap.mp hf
  obtain ⟨r, rfl, hr⟩ := Option.bind_eq_some_iff.mp hfn
  rw [← map_fst_zip hlen.le, mem_map] at ho
  obtain ⟨⟨o, t⟩, hmem, rfl⟩ := ho
  exact ⟨(r, t), mem_filterMap.mpr ⟨(some r, t), hmem, rfl⟩, hr⟩

omit [AddCommSemigroup T] in
theorem gradFn_mem_starts {c : VarId × T} (hc : c ∈ calls (roots.zip gradients))
    (hf : (g.vars c.1).gradFn = some f) :
    f ∈ roots.filterMap fun root => root.bind fun r => (g.vars r).gradFn := by
  obtain ⟨⟨o, t⟩, hmem, heq⟩ := mem_filterMap.mp hc
  obtain ⟨r, rfl, rfl⟩ := Option.map_eq_some_iff.mp heq
  exact mem_filterMap.mpr ⟨some r, (of_mem_zip hmem).1, hf⟩

/-- One pass from all roots adds up the contributions of the calls it stands for. -/
theorem executeMulti_spec (L : Linear ops g In) (hexact : ops.Exact kinds) (hclosed : g.Closed)
    (hacyclic : Acyclic g In) (hlen : roots.length = gradients.length)
    (hmatch : Matching L (calls (roots.zip gradients))) (retain : Bool) :
    (executeMulti ops g roots gradients retain).2 = .ok () ∧
      (∀ v, Receives g v →
        asSum ((executeMulti ops g roots gradients retain).1.graph.vars v).grad =
          asSum (g.vars v).grad +
            L.contributions v (effective g (calls (roots.zip gradients)))) ∧
      ∀ v, ¬ Receives g v →
        ((executeMulti ops g roots gradients retain).1.graph.vars v).grad = (g.vars v).grad := by
  by_cases hempty : roots = []
  · subst hempty
    exact ⟨rfl, fun v _ => (add_zero _).symm, fun _ _ => rfl⟩
  have hnonempty : roots.isEmpty = false := by simpa using hempty
  let l := effective g (calls (roots.zip gradients))
  let seeds := l.foldl (fun seeds c => mergeSeed seeds c.1 c.2) []
  let fs := roots.filterMap fun root => root.bind fun r => (g.vars r).gradFn
  have hseeds : rootSeeds ops g (roots.zip gradients) = .ok seeds := rootSeeds_eq _ hmatch.valid
  have hlmem : ∀ c ∈ l, c ∈ calls (roots.zip gradients) ∧ (g.vars c.1).requiresGrad = true :=
    fun c hc => mem_filter.mp hc
  -- What the merged seeds inherit from the calls.
  have hrequires : ∀ s ∈ seeds, (g.vars s.1).requiresGrad = true ∧ True :=
    foldl_mergeSeed (P := fun r _ => (g.vars r).requiresGrad = true ∧ True)
      (fun _ _ _ ha _ => ha) (fun c hc => ⟨(hlmem c hc).2, trivial⟩) nofun
  have hstarts : ∀ s ∈ seeds, ∀ f, (g.vars s.1).gradFn = some f → f ∈ fs :=
    foldl_mergeSeed (P := fun r _ => ∀ f, (g.vars r).gradFn = some f → f ∈ fs)
      (fun _ _ _ ha _ => ha) (fun c hc f hf => gradFn_mem_starts (hlmem c hc).1 hf) nofun
  have hfit : ∀ s ∈ seeds, ∀ f, (g.vars s.1).gradFn = some f → L.Fits f s.2 :=
    foldl_mergeSeed (P := fun r t => ∀ f, (g.vars r).gradFn = some f → L.Fits f t)
      (fun r a b ha hb f hf => L.fits_add f a b (ha f hf) (hb f hf)) hmatch.fits nofun
  have hlive : ∀ f ∈ fs, f ∈ g.live := by
    intro f hf
    obtain ⟨c, -, hc⟩ := exists_call hlen hf
    exact hclosed.gradFn_mem c.1 f hc
  have hin : ∀ r ∈ fs, ∀ f, g.Reaches r f → In f := by
    intro r hr f hreach
    obtain ⟨c, hc, hcr⟩ := exists_call hlen hr
    exact hmatch.inside c hc f ⟨r, hcr, hreach⟩
  let p := seeds.foldl (seedRoot ops) (start g)
  have hframe : Frame ops true [] (fun _ => True) (start g) p.log p :=
    foldl_seedRoot_frame seeds hrequires
  have hfns : p.graph.fns = g.fns := by
    funext c
    rcases hframe.fns_eq c with heq | ⟨hretain, -⟩
    · exact heq
    · cases hretain
  have hsame : topologicalSort p.graph fs = topologicalSort g fs :=
    topologicalSort_of_eq hfns (by rw [hframe.rest]; rfl) fs
  rcases topologicalSort_spec hclosed hlive with ⟨sorted, hsort, horder, -⟩ |
    ⟨-, r, hr, c, hc, hcycle⟩
  · let p₀ : Pass T := { p with accumulators := seedAccumulators g seeds }
    have hexec : executeMulti ops g roots gradients retain =
        runPass ops retain sorted (roots.filterMap id) p₀ := by
      simp only [executeMulti, hnonempty, hseeds, attempt_ok]
      rw [if_neg Bool.false_ne_true, (throwIf_eq_ok (u := ())).mpr (by simpa using hlen), attempt_ok]
      rw [show topologicalSort (seeds.foldl (seedRoot ops) (start g)).graph fs = .ok sorted from
        hsame.trans hsort, attempt_ok]
    obtain ⟨hreads, -, hwrites⟩ := @foldl_seedRoot _ _ ops g seeds (start g)
      (SameReads.of_grads fun w => ⟨_, rfl⟩)
    have hfits₀ : ∀ f, In f → ∀ t ∈ p₀.accumulators f, L.Fits f t := by
      intro f _ t ht
      obtain ⟨r, hr, hfn⟩ := mem_seedAccumulators ht
      exact hfit (r, t) hr f hfn
    have hreads₀ : SameReads (fun _ => True) (fun _ => True) g p₀.graph := hreads
    obtain ⟨hok, hsums, -⟩ := runPass_paths L hexact hclosed hlive hsort hin hreads₀ hfits₀ retain
      (roots.filterMap id)
    obtain ⟨new, hlog, hrun⟩ := @runPass_spec _ _ ops retain sorted (roots.filterMap id) p₀
      (fun _ => True) (nodup_reverse.mp horder.nodup) fun _ _ _ _ => trivial
    have hout := Outcome.prepend (p := start g) (q := p₀) { hframe with } hrun
    have hlog' : p.log ++ new = (runPass ops retain sorted (roots.filterMap id) p₀).1.log :=
      hlog.symm
    rw [hlog'] at hout
    refine ⟨by rw [hexec, hok], fun v hv => ?_, fun v hv => ?_⟩
    · have hseedwrites : sumOf (writesTo v p₀.log) =
          (seeds.map fun s => if s.1 = v then asSum (some s.2) else 0).sum :=
        (hwrites v hv).trans (zero_add _)
      have hmerged : L.contributions v seeds = L.contributions v l :=
        (L.contributions_foldl v l []).trans (zero_add _)
      have hacc : ∀ c, sumOf (p₀.accumulators c) = (seeds.map fun s =>
          if (g.vars s.1).gradFn = some c then asSum (some s.2) else 0).sum :=
        sumOf_seedAccumulators seeds
      rw [hexec, hout.grad_eq kinds hexact v, hexact.asSum_accumulateAll, hsums v hv, hseedwrites]
      simp only [hacc]
      rw [L.sum_seeds hclosed hlive hsort v hstarts, hmerged]
      rfl
    · rw [hexec, hout.grad_eq kinds hexact v, writesTo_eq_nil]
      · rfl
      · intro t hmem
        have hwrote := hout.wrote v t hmem
        exact hv ⟨hwrote.1, hwrote.2.1⟩
  · exact absurd hcycle (hacyclic c (hin r hr c hc))

/-- Over additive Functions one pass from all roots gives every Variable the
gradient that the calls of `execute` give one after the other, in any order. -/
theorem executeMulti_eq_executeEach (hexact : ops.Exact kinds) (hclosed : g.Closed)
    {roots : List (Option VarId)} {gradients : List T} (hlen : roots.length = gradients.length)
    (hacyclic : Acyclic g (InGraphs g (calls (roots.zip gradients))))
    (L : Linear ops g (InGraphs g (calls (roots.zip gradients))))
    (hmatch : Matching L (calls (roots.zip gradients)))
    {ordered : List (VarId × T)} (hperm : ordered.Perm (calls (roots.zip gradients))) :
    (executeMulti ops g roots gradients true).2 = .ok () ∧ (executeEach ops g ordered).2 = .ok () ∧
      ∀ v, ((executeMulti ops g roots gradients true).1.graph.vars v).grad =
        ((executeEach ops g ordered).1.vars v).grad := by
  have hsub : (effective g ordered).Perm (effective g (calls (roots.zip gradients))) :=
    hperm.filter _
  have hmatch' : Matching L ordered :=
    ⟨fun c hc => hmatch.inside c (hperm.mem_iff.mp hc),
      fun c hc => hmatch.valid c (hsub.mem_iff.mp hc), fun c hc => hmatch.fits c (hsub.mem_iff.mp hc)⟩
  have hrefl : OnlyGrads g g :=
    ⟨hclosed, SameReads.of_grads fun w => ⟨_, rfl⟩, fun _ => rfl⟩
  obtain ⟨hok, hsums, hothers⟩ := executeMulti_spec L hexact hclosed hacyclic hlen hmatch true
  obtain ⟨hok', hsums', hothers'⟩ := executeEach_spec L hexact hclosed hacyclic hmatch' hrefl
  refine ⟨hok, hok', fun v => ?_⟩
  by_cases hv : Receives g v
  · apply asSum_injective
    rw [hsums v hv, hsums' v hv]
    congr 1
    exact ((hsub.map _).sum_eq).symm
  · rw [hothers v hv, hothers' v hv]

/-- The roots `z`, `y` and `z` again: `y` is an intermediate of `z`. -/
theorem executeMulti_eq_executeEach_twice :
    (∀ v, ((executeMulti Graph.scalarOps twiceGraph [some 2, some 1, some 2] [1, 1, 1]
        true).1.graph.vars v).grad =
      ((executeEach Graph.scalarOps twiceGraph [(1, 1), (2, 1), (2, 1)]).1.vars v).grad) ∧
      ((executeMulti Graph.scalarOps twiceGraph [some 2, some 1, some 2] [1, 1, 1]
        true).1.graph.vars 0).grad = some 10 := by
  have hin : ∀ f, InGraphs twiceGraph (calls ([some 2, some 1, some 2].zip [1, 1, 1])) f →
      f = 1 ∨ f = 0 := by
    rintro f ⟨c, hc, f₀, hf₀, hreach⟩
    refine twiceGraph_reaches ?_ hreach
    have hmem : c ∈ [(2, (1 : Int)), (1, 1), (2, 1)] := hc
    simp only [mem_cons, not_mem_nil, or_false] at hmem
    rcases hmem with rfl | rfl | rfl
    · exact Or.inl (Option.some.inj hf₀).symm
    · exact Or.inr (Option.some.inj hf₀).symm
    · exact Or.inl (Option.some.inj hf₀).symm
  have hvalid : ∀ c ∈ effective twiceGraph (calls ([some 2, some 1, some 2].zip [1, 1, 1])),
      synthesizeOrValidateRootGrad Graph.scalarOps (twiceGraph.vars c.1) (some c.2) = .ok c.2 := by
    intro c hc
    have hmem : c ∈ [(2, (1 : Int)), (1, 1), (2, 1)] := mem_of_mem_filter hc
    simp only [mem_cons, not_mem_nil, or_false] at hmem
    rcases hmem with rfl | rfl | rfl
    · rfl
    · rfl
    · rfl
  exact ⟨(executeMulti_eq_executeEach Graph.scalarOps_exact twiceGraph_closed rfl
    (twiceGraph_acyclic hin) (twiceLinear hin)
    ⟨fun c hc f hf => ⟨c, hc, hf⟩, hvalid, fun _ _ _ _ => trivial⟩ (Perm.swap _ _ _)).2.2, rfl⟩

/-- A backward that is not additive. -/
def squareGrad : TensorHeap → Held → List Int → Except Exn (List Int) :=
  fun _ _ grads => .ok (grads.map fun t => t * t)

/-- A leaf `x`, and `y` computed from it. -/
def squareActions : List (Graph.Action Int) :=
  [.leaf 1 true, .op [0] 1 Graph.nothingHeld squareGrad]

def squareGraph : Graph Int :=
  (Graph.blankGraph.run Graph.scalarOps squareActions).getD Graph.blankGraph

/-- With `y` listed twice its Function squares the sum of the seeds once. -/
theorem executeMulti_ne_executeEach :
    ¬ ∀ (g : Graph Int) (roots : List (Option VarId)) (gradients : List Int), g.WellFormed →
      Acyclic g (InGraphs g (calls (roots.zip gradients))) → roots.length = gradients.length →
      (∀ v < g.nextVar, (g.vars v).hooks = []) →
      (executeMulti Graph.scalarOps g roots gradients true).2 = .ok () →
      (executeEach Graph.scalarOps g (calls (roots.zip gradients))).2 = .ok () →
      ∀ v, (g.vars v).keepsGrad = true →
        ((executeMulti Graph.scalarOps g roots gradients true).1.graph.vars v).grad =
          ((executeEach Graph.scalarOps g (calls (roots.zip gradients))).1.vars v).grad := by
  intro hall
  have hrun : Graph.Run Graph.scalarOps (fun _ _ => True) Graph.blankGraph squareGraph :=
    Graph.Run.refl.of_run (rfl : Graph.blankGraph.run Graph.scalarOps squareActions = some _)
  have hacyclic : Acyclic squareGraph
      (InGraphs squareGraph (calls ([some 1, some 1].zip [1, 1]))) := by
    rintro c ⟨d, hd, f₀, hf₀, hreach⟩ hcycle
    have hf₀' : f₀ = 0 := by
      have hmem : d ∈ [(1, (1 : Int)), (1, 1)] := hd
      simp only [mem_cons, not_mem_nil, or_false, or_self] at hmem
      subst hmem
      exact (Option.some.inj hf₀).symm
    have hnone : ∀ d e, d = 0 → ¬ PostOrder.Child squareGraph.children d e := by
      rintro d e rfl he
      have hmem : some e ∈ [none] := he
      simp at hmem
    have hc : c = 0 := hreach.mem (· = 0) hf₀' fun d hd e he => absurd he (hnone d e hd)
    obtain ⟨e, he, -⟩ := Relation.TransGen.head'_iff.mp hcycle
    exact hnone c e hc he
  have heq := hall squareGraph [some 1, some 1] [1, 1] (hrun.wellFormed Graph.blankGraph_initial)
    hacyclic rfl (by decide) rfl rfl 0 rfl
  exact absurd heq (by decide)

end Engine

end Tenzor
