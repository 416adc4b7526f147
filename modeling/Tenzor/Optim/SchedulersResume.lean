import Tenzor.Optim.Schedulers

/-!
# Resuming a tree of schedulers

A scheduler that loads what it has saved has its fields again, and so have its children, whatever
they were before. Every simple scheduler also writes its learning rate to the optimizer, so that
the last one to load decides what the optimizer is left with.
-/

namespace Tenzor.Optim

open Throwing List

variable {K S : Type} {fields : List (SavedField S K)} {s : S} {state : SavedState K}
  {typeName : String} {others : List (List Char × SavedValue K)} {key : List Char} {n : ℕ}
  {schedulers : Fin (n + 1) → LRScheduler K}

/-- The fields decide the state: restoring each of them restores it. -/
def Determined (fields : List (SavedField S K)) : Prop :=
  ∀ s s₀ : S, fields.foldlM (fun t field => field.restore (field.value s) t) s₀ = .ok s

/-- The state has the values of the fields. -/
def HasFields (fields : List (SavedField S K)) (s : S) (state : SavedState K) : Prop :=
  ∀ field ∈ fields, state.lookup field.key = some (field.value s)

theorem loadFields_eq (h : HasFields fields s state) (s₀ : S) :
    loadFields fields state s₀ =
      fields.foldlM (fun t field => field.restore (field.value s) t) s₀ := by
  induction fields generalizing s₀ with
  | nil => rfl
  | cons field fields ih =>
    obtain ⟨hfield, hrest⟩ := forall_mem_cons.mp h
    have hload : loadField state s₀ field = field.restore (field.value s) s₀ := by
      simp only [loadField, hfield]
    rw [loadFields, foldlM_cons, hload]
    exact bind_congr fun t => ih hrest t

theorem Determined.loadFields (hd : Determined fields) (h : HasFields fields s state) (s₀ : S) :
    loadFields fields state s₀ = .ok s := (loadFields_eq h s₀).trans (hd s s₀)

/-- The keys that a scheduler uses for itself. -/
def ownKeys (fields : List (SavedField S K)) : List (List Char) :=
  schedulerTypeKey :: fields.map SavedField.key

theorem map_fst_ownEntries (typeName : String) (fields : List (SavedField S K)) (s : S) :
    (ownEntries typeName fields s).map Prod.fst = ownKeys fields := by
  rw [ownEntries, map_cons, map_map]
  rfl

/-- Entries with other keys do not get in the way of the own ones. -/
theorem lookup_own {e : List Char × SavedValue K} (hnodup : (ownKeys fields).Nodup)
    (hothers : ∀ o ∈ others, o.1 ∉ ownKeys fields) (he : e ∈ ownEntries typeName fields s) :
    (Dict.ofEntries (ownEntries typeName fields s ++ others)).lookup e.1 = some e.2 := by
  have hkey : e.1 ∈ ownKeys fields :=
    map_fst_ownEntries typeName fields s ▸ mem_map_of_mem he
  have hunique := inj_on_of_nodup_map ((map_fst_ownEntries typeName fields s).symm ▸ hnodup)
  refine Dict.lookup_ofEntries_eq fun v => ?_
  rw [mem_append, Option.some_inj]
  constructor
  · rintro (hv | hv)
    · exact congrArg Prod.snd (hunique he hv rfl)
    · exact absurd hkey (hothers (e.1, v) hv)
  · rintro rfl
    exact .inl he

theorem HasFields.of_own (hnodup : (ownKeys fields).Nodup)
    (hothers : ∀ o ∈ others, o.1 ∉ ownKeys fields) :
    HasFields fields s (Dict.ofEntries (ownEntries typeName fields s ++ others)) := by
  intro field hfield
  have he : (field.key, field.value s) ∈ ownEntries typeName fields s :=
    mem_cons_of_mem _ (mem_map.mpr ⟨field, hfield, rfl⟩)
  exact lookup_own hnodup hothers he

/-- What a scheduler is given to load: its own dictionary, perhaps without the type. -/
structure Carries (s : LRScheduler K) (saved : s.State) (state : SavedState K) : Prop where
  type : state.lookup schedulerTypeKey = none ∨
    state.lookup schedulerTypeKey = (s.stateDict saved).lookup schedulerTypeKey
  others : ∀ key, key ≠ schedulerTypeKey → state.lookup key = (s.stateDict saved).lookup key

/-- A load brings the saved fields back and leaves a learning rate that they determine. -/
structure Restores (s : LRScheduler K) (written : s.State → K) : Prop where
  load : ∀ saved state fresh, Carries s saved state →
    s.loadStateDict state fresh = .ok (saved, written saved)
  saves : ∀ saved, lastLrKey ∈ s.stateDict saved

theorem checkSchedulerType_ok (h : state.lookup schedulerTypeKey = none ∨
      state.lookup schedulerTypeKey = some (.name typeName)) :
    checkSchedulerType state typeName = .ok () := by
  rcases h with h | h
  · simp only [checkSchedulerType, h]
  · simp only [checkSchedulerType, h, readNameTensor, bind_eq_ok, throwIf_eq_ok]
    exact ⟨typeName, rfl, not_not.mpr rfl⟩

/-- What the parts of a loader find in the dictionary. -/
theorem Carries.own {s : LRScheduler K} {saved : s.State} (h : Carries s saved state) {own : S}
    (hdict : s.stateDict saved = Dict.ofEntries (ownEntries typeName fields own ++ others))
    (hnodup : (ownKeys fields).Nodup) (hothers : ∀ o ∈ others, o.1 ∉ ownKeys fields) :
    checkSchedulerType state typeName = .ok () ∧ HasFields fields own state := by
  constructor
  · refine checkSchedulerType_ok (h.type.imp id fun ht => ?_)
    rw [ht, hdict]
    exact lookup_own hnodup hothers (e := (schedulerTypeKey, .name typeName)) mem_cons_self
  · intro field hfield
    have hne : field.key ≠ schedulerTypeKey := by
      intro heq
      exact (nodup_cons.mp hnodup).1 (heq ▸ mem_map_of_mem hfield)
    rw [h.others _ hne, hdict]
    exact HasFields.of_own hnodup hothers field hfield

/-- An entry that is not one of the scheduler's own. -/
theorem Carries.lookup_other {s : LRScheduler K} {saved : s.State} (h : Carries s saved state)
    {own : S}
    (hdict : s.stateDict saved = Dict.ofEntries (ownEntries typeName fields own ++ others))
    (hkey : key ∉ ownKeys fields) {o : Option (SavedValue K)}
    (ho : ∀ v, (key, v) ∈ others ↔ o = some v) : state.lookup key = o := by
  have hne : key ≠ schedulerTypeKey := fun heq => hkey (heq ▸ mem_cons_self)
  rw [h.others _ hne, hdict]
  refine Dict.lookup_ofEntries_eq fun v => ?_
  rw [mem_append, or_iff_right, ho]
  exact fun hv => hkey (map_fst_ownEntries typeName fields own ▸ mem_map_of_mem hv)

/-- A state with the fields has their keys. -/
theorem HasFields.mem (h : HasFields fields s state) (hkey : key ∈ fields.map SavedField.key) :
    key ∈ state := by
  obtain ⟨field, hfield, rfl⟩ := mem_map.mp hkey
  exact AList.lookup_isSome.mp (Option.isSome_of_eq_some (h field hfield))

/-- Keys that are distinct and not those of other entries, `last_lr` being one of them. -/
def PlainKeys (keys : List (List Char)) : Prop :=
  keys.Nodup ∧ lastLrKey ∈ keys ∧ lambdaNameKey ∉ keys ∧
    ∀ key ∈ keys, ¬ basePrefix <+: key ∧ ¬ "child".toList <+: key

instance (keys : List (List Char)) : Decidable (PlainKeys keys) :=
  inferInstanceAs (Decidable (_ ∧ _))

theorem PlainKeys.lastLrKey_mem (h : PlainKeys (ownKeys fields)) :
    lastLrKey ∈ fields.map SavedField.key :=
  (mem_cons.mp h.2.1).resolve_left (by decide)

/-- The fields of a scheduler can be saved among other entries and brought back. -/
structure Savable (fields : List (SavedField S K)) : Prop where
  determined : Determined fields
  plain : PlainKeys (ownKeys fields)

theorem EpochFields.savable : Savable (EpochFields.saved (K := K)) where
  determined _ _ := rfl
  plain := (by decide : PlainKeys [schedulerTypeKey, epochKey, baseLrKey, lastLrKey])

theorem checkLambdaName_ok {name : Option String}
    (h : ∀ n ∈ name, state.lookup lambdaNameKey = some (.name n)) :
    checkLambdaName typeName name state = .ok () := by
  cases name with
  | none => rfl
  | some n =>
    simp only [checkLambdaName, h n rfl, readNameTensor, bind_eq_ok, throwIf_eq_ok]
    exact ⟨n, rfl, not_not.mpr rfl⟩

theorem SimpleScheduler.restores (c : SimpleScheduler K) (h : Savable c.saved) :
    Restores c.scheduler c.lastLr := by
  obtain ⟨hd, hplain⟩ := h
  obtain ⟨hnodup, -, hname, -⟩ := id hplain
  have hothers : ∀ o ∈ c.lambdaName.toList.map fun n => (lambdaNameKey, SavedValue.name (K := K) n),
      o.1 ∉ ownKeys c.saved := by
    rw [forall_mem_map]
    exact fun _ _ => hname
  constructor
  · intro saved state fresh hcarries
    obtain ⟨htype, hfields⟩ := hcarries.own rfl hnodup hothers
    have hlambda : checkLambdaName c.typeName c.lambdaName state = .ok () := by
      refine checkLambdaName_ok fun n hn => ?_
      rw [hcarries.others _ (by decide)]
      refine Dict.lookup_ofEntries_eq fun v => ?_
      rw [mem_append, or_iff_right fun hv => hname (map_fst_ownEntries c.typeName c.saved saved ▸
        mem_map_of_mem hv), hn]
      simp [eq_comm]
    simp only [SimpleScheduler.scheduler, htype, hlambda, hd.loadFields hfields, bind_eq_ok,
      pure_eq_ok]
    exact ⟨(), trivial, (), trivial, saved, rfl, by rw [if_pos (hfields.mem hplain.lastLrKey_mem)]⟩
  · intro saved
    exact (HasFields.of_own hnodup hothers).mem hplain.lastLrKey_mem

theorem epochScheduler_restores (typeName : String) (lambdaName : Option String)
    (lr : K → ℕ → Except Exn K) :
    Restores (epochScheduler typeName lambdaName lr).scheduler EpochFields.lastLr :=
  SimpleScheduler.restores _ EpochFields.savable

section Kinds

variable [Field K]

theorem MultiplicativeLR_restores (lrLambda : ℕ → K) (name : String) :
    Restores (MultiplicativeLR lrLambda name).scheduler MultiplicativeFields.lastLr := by
  refine SimpleScheduler.restores _ ⟨fun _ _ => rfl, ?_⟩
  exact (by decide : PlainKeys [schedulerTypeKey, epochKey, lastLrKey])

theorem PolynomialLR_restores (totalIters : ℤ) (power : K → K) :
    Restores (PolynomialLR totalIters power).scheduler PolynomialFields.lastLr := by
  refine SimpleScheduler.restores _ ⟨fun _ _ => rfl, ?_⟩
  exact (by decide : PlainKeys [schedulerTypeKey, epochKey, baseLrKey, endLrKey, lastLrKey])

end Kinds

theorem childPrefix_inj {i j : ℕ} {rest rest' : List Char}
    (h : childPrefix i ++ rest = childPrefix j ++ rest') : i = j ∧ rest = rest' := by
  have hdigits : ∀ i : ℕ, ∀ c ∈ Nat.toDigits 10 i, (c != '_') = true := by
    intro i c hc
    rw [bne_iff_ne]
    rintro rfl
    exact Nat.underscore_not_in_toDigits hc
  have htake : ∀ (i : ℕ) (rest : List Char),
      (Nat.toDigits 10 i ++ ("_.".toList ++ rest)).takeWhile (· != '_') = Nat.toDigits 10 i := by
    intro i rest
    rw [takeWhile_append_of_pos (hdigits i)]
    exact append_nil _
  rw [childPrefix, childPrefix, append_assoc, append_assoc, append_assoc,
    append_assoc, append_cancel_left_eq] at h
  have hi : Nat.toDigits 10 i = Nat.toDigits 10 j := by
    rw [← htake i rest, h, htake]
  have hij : i = j := by
    rw [← Nat.ofDigitChars_ten_toDigits (n := i), hi, Nat.ofDigitChars_ten_toDigits]
  subst hij
  rw [append_cancel_left_eq, append_cancel_left_eq] at h
  exact ⟨rfl, h⟩

section Children

variable {n : ℕ} {children : Fin n → LRScheduler K} {s : ChildStates children}
  {fields : List (SavedField S K)} {state : SavedState K}

/-- The entries of a child are found under its prefix. -/
theorem mem_childEntries {i : Fin n} {rest : List Char} {v : SavedValue K} :
    (childPrefix i ++ rest, v) ∈ childEntries s ↔
      ((children i).stateDict (s i)).lookup rest = some v := by
  rw [← Dict.mem_pairs, childEntries, mem_flatMap]
  constructor
  · rintro ⟨j, -, hj⟩
    obtain ⟨⟨rest', v'⟩, hmem, heq⟩ := mem_map.mp hj
    obtain ⟨hkey, rfl⟩ := Prod.mk.inj heq
    obtain ⟨hij, rfl⟩ := childPrefix_inj hkey
    rwa [Fin.ext hij] at hmem
  · intro hmem
    exact ⟨i, mem_finRange i, mem_map.mpr ⟨_, hmem, rfl⟩⟩

theorem childEntries_notMem (h : PlainKeys (ownKeys fields)) (s : ChildStates children) :
    ∀ o ∈ childEntries s, o.1 ∉ ownKeys fields := by
  intro o ho hkey
  obtain ⟨i, -, hi⟩ := mem_flatMap.mp ho
  obtain ⟨e, -, rfl⟩ := mem_map.mp hi
  refine (h.2.2.2 _ hkey).2 ⟨Nat.toDigits 10 i ++ "_.".toList ++ e.1, ?_⟩
  simp only [childPrefix, Prod.map, append_assoc]

theorem mem_of_carries {s : LRScheduler K} {saved : s.State} (h : Carries s saved state)
    {written : s.State → K} (hs : Restores s written) : state.keys ≠ [] := by
  have hlookup := h.others lastLrKey (by decide)
  have hmem : lastLrKey ∈ state := by
    rw [← AList.lookup_isSome, hlookup, AList.lookup_isSome]
    exact hs.saves saved
  exact ne_nil_of_mem (AList.mem_keys.mp hmem)

/-- A child is loaded from a dictionary that has the entries of the children. -/
theorem loadChild_eq (hstate : ∀ (i : Fin n) rest, state.lookup (childPrefix i ++ rest) =
      ((children i).stateDict (s i)).lookup rest)
    {written : ∀ i, (children i).State → K} (hs : ∀ i, Restores (children i) (written i))
    (p : ChildStates children × K) (i : Fin n) :
    loadChild state p i = .ok (Function.update p.1 i (s i), written i (s i)) := by
  have hcarries : Carries (children i) (s i)
      ((Dict.under (childPrefix i) state).erase schedulerTypeKey) := by
    constructor
    · exact .inl (AList.lookup_erase ..)
    · intro key hkey
      rw [AList.lookup_erase_ne hkey, Dict.lookup_under, hstate]
  simp only [loadChild, if_neg (mem_of_carries hcarries (hs i)), (hs i).load _ _ _ hcarries]
  rfl

/-- The loop over the children leaves the learning rate that the last one writes. -/
theorem loadChildren_eq (hstate : ∀ (i : Fin n) rest, state.lookup (childPrefix i ++ rest) =
      ((children i).stateDict (s i)).lookup rest)
    {written : ∀ i, (children i).State → K} (hs : ∀ i, Restores (children i) (written i))
    (l : List (Fin n)) (p : ChildStates children × K) :
    l.foldlM (loadChild state) p = .ok (fun i => if i ∈ l then s i else p.1 i,
      l.foldl (fun _ i => written i (s i)) p.2) := by
  induction l generalizing p with
  | nil =>
    rfl
  | cons i l ih =>
    rw [foldlM_cons, loadChild_eq hstate hs]
    refine (ih _).trans ?_
    congr 2
    funext j
    change (if j ∈ l then s j else Function.update p.1 i (s i) j) = _
    by_cases hj : j ∈ l
    · rw [if_pos hj, if_pos (mem_cons_of_mem i hj)]
    · rw [if_neg hj]
      by_cases hij : j = i
      · subst hij
        rw [Function.update_self, if_pos mem_cons_self]
      · simp [hij, hj]

/-- The entries of the children in the dictionary of a composite. -/
theorem Carries.lookup_child {c : LRScheduler K} {saved : c.State} (h : Carries c saved state)
    {typeName : String} {own : S} (hplain : PlainKeys (ownKeys fields))
    (hdict : c.stateDict saved = Dict.ofEntries (ownEntries typeName fields own ++ childEntries s))
    (i : Fin n) (rest : List Char) :
    state.lookup (childPrefix i ++ rest) = ((children i).stateDict (s i)).lookup rest := by
  refine h.lookup_other hdict (fun hkey => (hplain.2.2.2 _ hkey).2 ?_) fun v => mem_childEntries
  rw [childPrefix, append_assoc, append_assoc]
  exact prefix_append ..

theorem loadChildren_all {m : ℕ} {children : Fin (m + 1) → LRScheduler K}
    {s : ChildStates children}
    (hstate : ∀ (i : Fin (m + 1)) rest, state.lookup (childPrefix i ++ rest) =
      ((children i).stateDict (s i)).lookup rest)
    {written : ∀ i, (children i).State → K} (hs : ∀ i, Restores (children i) (written i))
    (p : ChildStates children × K) :
    (List.finRange (m + 1)).foldlM (loadChild state) p =
      .ok (s, written (Fin.last m) (s (Fin.last m))) := by
  rw [loadChildren_eq hstate hs]
  congr 2
  · funext i
    exact if_pos (mem_finRange i)
  · rw [finRange_succ_last, List.foldl_concat]

end Children

theorem SequentialFields.savable : Savable (SequentialFields.saved (K := K)) where
  determined _ _ := rfl
  plain := (by decide : PlainKeys [schedulerTypeKey, epochKey, lastLrKey])

theorem WarmupFields.savable : Savable (WarmupFields.saved (K := K)) where
  determined _ _ := rfl
  plain := (by decide : PlainKeys [schedulerTypeKey, stepCountKey, baseLrKey, lastLrKey])

theorem ChainedFields.savable [Field K] : Savable (ChainedFields.saved (K := K)) where
  determined _ _ := rfl
  plain := (by decide : PlainKeys [schedulerTypeKey, lastLrKey, chainedBaseLrKey])

theorem SequentialLR_restores (milestones : Fin n → ℤ) {written : ∀ i, (schedulers i).State → K}
    (hs : ∀ i, Restores (schedulers i) (written i)) :
    Restores (SequentialLR schedulers milestones)
      fun s => written (Fin.last n) (s.2 (Fin.last n)) := by
  obtain ⟨hd, hplain⟩ := SequentialFields.savable (K := K)
  constructor
  · intro saved state fresh h
    obtain ⟨htype, hfields⟩ := h.own rfl hplain.1 (childEntries_notMem hplain saved.2)
    simp only [SequentialLR, htype, hd.loadFields hfields,
      loadChildren_all (h.lookup_child hplain rfl) hs]
    rfl
  · intro saved
    exact (HasFields.of_own hplain.1 (childEntries_notMem hplain saved.2)).mem hplain.lastLrKey_mem

theorem ChainedScheduler_restores [Field K] [LinearOrder K]
    {written : ∀ i, (schedulers i).State → K} (hs : ∀ i, Restores (schedulers i) (written i)) :
    Restores (ChainedScheduler schedulers)
      fun s => written (Fin.last n) (s.2 (Fin.last n)) := by
  obtain ⟨hd, hplain⟩ := ChainedFields.savable (K := K)
  constructor
  · intro saved state fresh h
    obtain ⟨htype, hfields⟩ := h.own rfl hplain.1 (childEntries_notMem hplain saved.2)
    simp only [ChainedScheduler, htype, hd.loadFields hfields,
      loadChildren_all (h.lookup_child hplain rfl) hs]
    rfl
  · intro saved
    exact (HasFields.of_own hplain.1 (childEntries_notMem hplain saved.2)).mem hplain.lastLrKey_mem

theorem LinearWarmupScheduler_restores [Field K] {base : LRScheduler K} (warmupSteps : ℕ)
    (warmupStartFactor : K) {written : base.State → K} (hs : Restores base written) :
    Restores (LinearWarmupScheduler base warmupSteps warmupStartFactor)
      fun s => written s.2 := by
  obtain ⟨hd, hplain⟩ := WarmupFields.savable (K := K)
  have hothers : ∀ s : base.State, ∀ o ∈ prefixedEntries basePrefix (base.stateDict s),
      o.1 ∉ ownKeys (WarmupFields.saved (K := K)) := by
    intro s o ho hkey
    obtain ⟨e, -, rfl⟩ := mem_map.mp ho
    exact (hplain.2.2.2 _ hkey).1 (prefix_append ..)
  constructor
  · intro saved state fresh h
    obtain ⟨htype, hfields⟩ := h.own rfl hplain.1 (hothers saved.2)
    have hlookup : ∀ rest, (Dict.under basePrefix state).lookup rest =
        (base.stateDict saved.2).lookup rest := by
      intro rest
      rw [Dict.lookup_under]
      refine h.lookup_other rfl (fun hkey => (hplain.2.2.2 _ hkey).1 (prefix_append ..))
        fun v => ?_
      rw [← Dict.mem_pairs, prefixedEntries, mem_map]
      constructor
      · rintro ⟨e, he, heq⟩
        obtain ⟨hkey, rfl⟩ := Prod.mk.inj heq
        obtain rfl := append_cancel_left hkey
        exact he
      · exact fun he => ⟨_, he, rfl⟩
    have hcarries : Carries base saved.2 (Dict.under basePrefix state) :=
      ⟨.inr (hlookup _), fun key _ => hlookup key⟩
    simp only [LinearWarmupScheduler, htype, hd.loadFields hfields,
      if_neg (mem_of_carries hcarries hs), hs.load _ _ _ hcarries]
    rfl
  · intro saved
    exact (HasFields.of_own hplain.1 (hothers saved.2)).mem hplain.lastLrKey_mem

namespace SchedulerTree

variable [Field K] [LinearOrder K]

/-- The learning rate that the last simple scheduler of the tree has computed last. -/
def lastLeafLr : (t : SchedulerTree K) → t.scheduler.State → K
  | linearWarmup base .., s => base.lastLeafLr s.2
  | sequentialLR schedulers _, s => (schedulers (Fin.last _)).lastLeafLr (s.2 (Fin.last _))
  | chained schedulers, s => (schedulers (Fin.last _)).lastLeafLr (s.2 (Fin.last _))
  | stepLR stepSize gamma, s => (stepLR stepSize gamma).scheduler.getLastLr s
  | exponentialLR gamma, s => (exponentialLR gamma).scheduler.getLastLr s
  | constantLR factor totalIters, s => (constantLR factor totalIters).scheduler.getLastLr s
  | linearLR startFactor endFactor totalIters, s =>
    (linearLR startFactor endFactor totalIters).scheduler.getLastLr s
  | multiplicativeLR lrLambda name, s => (multiplicativeLR lrLambda name).scheduler.getLastLr s
  | lambdaLR lrLambda name, s => (lambdaLR lrLambda name).scheduler.getLastLr s
  | multiStepLR milestones gamma, s => (multiStepLR milestones gamma).scheduler.getLastLr s
  | polynomialLR totalIters endLr power, s =>
    (polynomialLR totalIters endLr power).scheduler.getLastLr s

/-- A tree that loads its own state is restored; the last leaf has written the learning rate. -/
theorem restores (t : SchedulerTree K) : Restores t.scheduler t.lastLeafLr := by
  induction t with
  | stepLR stepSize gamma => exact epochScheduler_restores ..
  | exponentialLR gamma => exact epochScheduler_restores ..
  | constantLR factor totalIters => exact epochScheduler_restores ..
  | linearLR startFactor endFactor totalIters => exact epochScheduler_restores ..
  | multiplicativeLR lrLambda name => exact MultiplicativeLR_restores lrLambda name
  | lambdaLR lrLambda name => exact epochScheduler_restores ..
  | multiStepLR milestones gamma => exact epochScheduler_restores ..
  | polynomialLR totalIters endLr power => exact PolynomialLR_restores totalIters power
  | linearWarmup base warmupSteps warmupStartFactor ih =>
    exact LinearWarmupScheduler_restores warmupSteps warmupStartFactor ih
  | sequentialLR schedulers milestones ih => exact SequentialLR_restores milestones ih
  | chained schedulers ih => exact ChainedScheduler_restores ih

/-- What a constructed tree and its optimizer have come to after some steps. -/
def Reaches (t : SchedulerTree K) (now : t.scheduler.State × K) : Prop :=
  ∃ start n, t.Constructed start.1 ∧ t.scheduler.stepTimes n start = .ok now

/-- A tree that is constructed again and loads what this one saves has its learning rate, and
every number of further steps leaves both with the same. -/
def Resumes (t : SchedulerTree K) (now : t.scheduler.State × K) : Prop :=
  ∀ fresh : t.scheduler.State × K, t.Constructed fresh.1 →
    ∃ loaded, t.scheduler.loadStateDict (t.scheduler.stateDict now.1) fresh = .ok loaded ∧
      loaded.2 = now.2 ∧
      ∀ m, Prod.snd <$> t.scheduler.stepTimes m loaded = Prod.snd <$> t.scheduler.stepTimes m now

/-- What a tree loads of its own. -/
theorem load_stateDict (t : SchedulerTree K) (now fresh : t.scheduler.State × K) :
    t.scheduler.loadStateDict (t.scheduler.stateDict now.1) fresh =
      .ok (now.1, t.lastLeafLr now.1) :=
  t.restores.load now.1 _ fresh ⟨.inr rfl, fun _ _ => rfl⟩

/-- The trees that resume are those whose last leaf has computed the learning rate that the
optimizer has. -/
theorem resumes_iff (t : SchedulerTree K) {now : t.scheduler.State × K} (h : t.Reaches now) :
    t.Resumes now ↔ t.lastLeafLr now.1 = now.2 := by
  constructor
  · intro hresumes
    obtain ⟨start, n, hstart, -⟩ := h
    obtain ⟨loaded, hloaded, hlr, -⟩ := hresumes start hstart
    obtain rfl := Except.ok.inj ((t.load_stateDict now start).symm.trans hloaded)
    exact hlr
  · intro hlr fresh _
    refine ⟨_, t.load_stateDict now fresh, hlr, fun m => ?_⟩
    rw [hlr]

/-- An `ExponentialLR` after one step. -/
theorem resumes_exponentialLR :
    (exponentialLR (1 / 2 : ℚ)).Resumes ((⟨1, 1 / 2, 1⟩ : EpochFields ℚ), 1 / 2) := by
  refine (resumes_iff (exponentialLR (1 / 2 : ℚ)) ?_).mpr rfl
  refine ⟨((⟨1, 1, 0⟩ : EpochFields ℚ), 1), 1, ⟨1, rfl⟩, ?_⟩
  have hstep : (1 : ℚ) * (1 / 2) ^ 1 = 1 / 2 := by norm_num
  exact congrArg (fun lr => Except.ok ((⟨1, lr, 1⟩ : EpochFields ℚ), lr)) hstep

/-- In the middle of the warm-up the base scheduler, which has not stepped yet, writes its own
learning rate when it loads. -/
theorem not_resumes_linearWarmup :
    (linearWarmup (stepLR 30 (1 / 10 : ℚ)) 2 0).Reaches
        (((⟨1, 1, 1 / 2⟩ : WarmupFields ℚ), (⟨1, 1, 0⟩ : EpochFields ℚ)), 1 / 2) ∧
      ¬ (linearWarmup (stepLR 30 (1 / 10 : ℚ)) 2 0).Resumes
        (((⟨1, 1, 1 / 2⟩ : WarmupFields ℚ), (⟨1, 1, 0⟩ : EpochFields ℚ)), 1 / 2) := by
  have hstart : (linearWarmup (stepLR 30 (1 / 10 : ℚ)) 2 0).Constructed
      ((⟨0, 1, 1 * 0⟩ : WarmupFields ℚ), (⟨1, 1, 0⟩ : EpochFields ℚ)) := ⟨⟨1, rfl⟩, 1, rfl⟩
  constructor
  · refine ⟨(_, 1 * 0), 1, hstart, ?_⟩
    have hstep : (1 : ℚ) * (0 + (1 - 0) * (((0 + 1 : ℕ) : ℚ) / (2 : ℕ))) = 1 / 2 := by norm_num
    exact congrArg (fun lr => Except.ok
      (((⟨1, 1, lr⟩ : WarmupFields ℚ), (⟨1, 1, 0⟩ : EpochFields ℚ)), lr)) hstep
  · intro hresumes
    obtain ⟨loaded, hloaded, hlr, -⟩ := hresumes (_, 1 * 0) hstart
    obtain rfl := Except.ok.inj ((load_stateDict _ _ _).symm.trans hloaded)
    have hne : (1 : ℚ) ≠ 1 / 2 := by norm_num
    exact hne hlr

end SchedulerTree

end Tenzor.Optim
