import Tenzor.Distributed.FsdpGather

/-!
# The units of a module tree

A registration of a parameter is known by the submodules on the way to it. It goes to the innermost
of them that is wrapped, or to the unit of the root. A parameter belongs to one unit when all its
registrations go the same way.
-/

namespace Tenzor.Fsdp

open List

variable {Var : Type}

/-- The submodules on the way to a module that registers the parameter. -/
inductive ModuleTree.RegisteredAt : ModuleTree Var → List ℕ → Var → Prop
  | own {own : List Var} {subs : List (ModuleTree Var)} {v : Var} (hv : v ∈ own) :
      RegisteredAt (.node own subs) [] v
  | sub {own : List Var} {subs : List (ModuleTree Var)} {i : ℕ} {m : ModuleTree Var}
      {path : List ℕ} {v : Var} (hm : subs[i]? = some m) (h : RegisteredAt m path v) :
      RegisteredAt (.node own subs) (i :: path) v

section Wrapping

variable (M : Model Var) (minParams : ℕ)

/-- At least one parameter, and enough trainable elements. -/
def Reaches (amount : ℕ × ℕ) : Prop := amount.1 ≠ 0 ∧ minParams ≤ amount.2

instance (amount : ℕ × ℕ) : Decidable (Reaches minParams amount) :=
  inferInstanceAs (Decidable (_ ∧ _))

mutual

/-- The parameters and the trainable elements of a subtree outside the modules wrapped in it. -/
def ModuleTree.amount : ModuleTree Var → ℕ × ℕ
  | .node own subs => (own.length, M.gradNumel own) + amountAll subs

def amountAll : List (ModuleTree Var) → ℕ × ℕ
  | [] => 0
  | m :: ms => (if Reaches minParams m.amount then 0 else m.amount) + amountAll ms

end

/-- The submodule makes a unit of its own. -/
def ModuleTree.Wrapped (m : ModuleTree Var) : Prop := Reaches minParams (m.amount M minParams)

instance (m : ModuleTree Var) : Decidable (m.Wrapped M minParams) :=
  inferInstanceAs (Decidable (Reaches _ _))

/-- The innermost wrapped module on a way down, if there is one. -/
def ModuleTree.home : ModuleTree Var → List ℕ → Option (List ℕ)
  | _, [] => none
  | .node _ subs, i :: path =>
    match subs[i]? with
    | none => none
    | some m =>
      match m.home path with
      | some π => some (i :: π)
      | none => if m.Wrapped M minParams then some [i] else none

/-- The same below the module at position `i`. -/
def homeBelow (i : ℕ) (m : ModuleTree Var) (path : List ℕ) : Option (List ℕ) :=
  match m.home M minParams path with
  | some π => some (i :: π)
  | none => if m.Wrapped M minParams then some [i] else none

mutual

/-- The wrapped modules below, in the order of their units. -/
def ModuleTree.wraps : ModuleTree Var → List (List ℕ)
  | .node _ subs => wrapsAll 0 subs

def wrapsAll : ℕ → List (ModuleTree Var) → List (List ℕ)
  | _, [] => []
  | i, m :: ms =>
    m.wraps.map (i :: ·) ++ (if m.Wrapped M minParams then [[i]] else []) ++ wrapsAll (i + 1) ms

end

variable {M minParams} {m : ModuleTree Var} {own u : List Var} {subs ms : List (ModuleTree Var)}
  {i : ℕ} {path π : List ℕ} {v : Var}

theorem gradNumel_append (l l' : List Var) :
    M.gradNumel (l ++ l') = M.gradNumel l + M.gradNumel l' := by
  simp [Model.gradNumel]

mutual

theorem amount_eq : ∀ m : ModuleTree Var, m.amount M minParams =
    ((collectUnits M minParams m).1.length, M.gradNumel (collectUnits M minParams m).1)
  | .node own subs => by
    rw [ModuleTree.amount, amountAll_eq subs]
    simp [collectUnits, gradNumel_append]

theorem amountAll_eq : ∀ ms : List (ModuleTree Var), amountAll M minParams ms =
    ((collectSubmodules M minParams ms).1.length,
      M.gradNumel (collectSubmodules M minParams ms).1)
  | [] => rfl
  | m :: ms => by
    have hreaches : Reaches minParams (m.amount M minParams) ↔
        (collectUnits M minParams m).1 ≠ [] ∧
          minParams ≤ M.gradNumel (collectUnits M minParams m).1 := by
      rw [amount_eq m, Reaches, ne_eq, length_eq_zero_iff]
    rw [amountAll, amountAll_eq ms, collectSubmodules]
    by_cases hwrap : Reaches minParams (m.amount M minParams)
    · simp only [if_pos hwrap, if_pos (hreaches.mp hwrap), zero_add]
    · rw [if_neg hwrap, amount_eq m]
      simp [if_neg (fun h => hwrap (hreaches.mpr h)), gradNumel_append]

end

theorem wrapped_iff : m.Wrapped M minParams ↔
    (collectUnits M minParams m).1 ≠ [] ∧
      minParams ≤ M.gradNumel (collectUnits M minParams m).1 := by
  rw [ModuleTree.Wrapped, amount_eq m, Reaches, ne_eq, length_eq_zero_iff]

theorem home_cons (hm : subs[i]? = some m) :
    (ModuleTree.node own subs).home M minParams (i :: path) = homeBelow M minParams i m path := by
  rw [ModuleTree.home, hm, homeBelow]

theorem homeBelow_eq_none :
    homeBelow M minParams i m path = none ↔
      m.home M minParams path = none ∧ ¬ m.Wrapped M minParams := by
  unfold homeBelow
  cases m.home M minParams path with
  | some ρ => simp
  | none => simp

theorem homeBelow_eq_some :
    homeBelow M minParams i m path = some π ↔
      (∃ ρ, m.home M minParams path = some ρ ∧ π = i :: ρ) ∨
        (m.home M minParams path = none ∧ m.Wrapped M minParams ∧ π = [i]) := by
  unfold homeBelow
  cases m.home M minParams path with
  | some ρ => simp [eq_comm]
  | none => simp [eq_comm]

theorem mem_wrapsAll :
    π ∈ wrapsAll M minParams i ms ↔ ∃ j m, ms[j]? = some m ∧
      ((∃ ρ ∈ m.wraps M minParams, π = (i + j) :: ρ) ∨
        (m.Wrapped M minParams ∧ π = [i + j])) := by
  induction ms generalizing i with
  | nil => simp [wrapsAll]
  | cons m ms ih =>
    rw [wrapsAll, mem_append, mem_append, mem_map, ih]
    constructor
    · rintro ((⟨ρ, hρ, rfl⟩ | hwrap) | ⟨j, m', hm', h⟩)
      · exact ⟨0, m, rfl, .inl ⟨ρ, hρ, rfl⟩⟩
      · split at hwrap
        next hw => exact ⟨0, m, rfl, .inr ⟨hw, mem_singleton.mp hwrap⟩⟩
        next hw => exact absurd hwrap not_mem_nil
      · rw [add_assoc, add_comm 1] at h
        exact ⟨j + 1, m', hm', h⟩
    · rintro ⟨j, m', hm', h⟩
      cases j with
      | zero =>
        obtain rfl : m = m' := Option.some.inj hm'
        obtain ⟨ρ, hρ, rfl⟩ | ⟨hw, rfl⟩ := h
        · exact .inl (.inl ⟨ρ, hρ, rfl⟩)
        · refine .inl (.inr ?_)
          rw [if_pos hw]
          exact mem_singleton_self _
      | succ j =>
        refine .inr ⟨j, m', hm', ?_⟩
        rwa [add_assoc, add_comm 1]

/-- A way down ends at a wrapped module of the list. -/
theorem home_mem_wraps (h : m.home M minParams path = some π) : π ∈ m.wraps M minParams := by
  induction path generalizing m π with
  | nil =>
    cases h
  | cons i path ih =>
    obtain ⟨own, subs⟩ := m
    cases hm : subs[i]? with
    | none =>
      rw [ModuleTree.home, hm] at h
      cases h
    | some m =>
      rw [home_cons hm] at h
      rw [ModuleTree.wraps, mem_wrapsAll]
      refine ⟨i, m, hm, ?_⟩
      rw [zero_add]
      obtain ⟨ρ, hρ, rfl⟩ | ⟨-, hw, rfl⟩ := homeBelow_eq_some.mp h
      · exact .inl ⟨ρ, ih hρ, rfl⟩
      · exact .inr ⟨hw, rfl⟩

mutual

theorem nodup_wraps : ∀ m : ModuleTree Var, (m.wraps M minParams).Nodup ∧
    ∀ π ∈ m.wraps M minParams, π ≠ []
  | .node own subs => by
    rw [ModuleTree.wraps]
    refine ⟨(nodup_wrapsAll subs) 0, fun π hπ => ?_⟩
    obtain ⟨j, m, -, ⟨ρ, -, rfl⟩ | ⟨-, rfl⟩⟩ := mem_wrapsAll.mp hπ
    · exact cons_ne_nil _ _
    · exact cons_ne_nil _ _

theorem nodup_wrapsAll : ∀ (ms : List (ModuleTree Var)) (i : ℕ), (wrapsAll M minParams i ms).Nodup
  | [], _ => nodup_nil
  | m :: ms, i => by
    obtain ⟨hnodup, hne⟩ := nodup_wraps m
    rw [wrapsAll, nodup_append, nodup_append]
    refine ⟨⟨hnodup.map (cons_injective), ?_, ?_⟩, nodup_wrapsAll ms (i + 1), ?_⟩
    · split <;> simp
    · rintro a ha b hb rfl
      obtain ⟨ρ, hρ, rfl⟩ := mem_map.mp ha
      split at hb
      · have hsingle := mem_singleton.mp hb
        exact hne ρ hρ (cons_eq_cons.mp hsingle).2
      · exact absurd hb not_mem_nil
    · rintro a ha b hb rfl
      -- here the first step is `i`, later it is past `i`
      have hfirst : a.head? = some i := by
        obtain ha | ha := mem_append.mp ha
        · obtain ⟨ρ, -, rfl⟩ := mem_map.mp ha
          rfl
        · split at ha
          · rw [mem_singleton.mp ha]
            rfl
          · exact absurd ha not_mem_nil
      obtain ⟨j, m', -, ⟨ρ, -, rfl⟩ | ⟨-, rfl⟩⟩ := mem_wrapsAll.mp hb
      · have hstep : i + 1 + j = i := Option.some.inj hfirst
        omega
      · have hstep : i + 1 + j = i := Option.some.inj hfirst
        omega

end

variable (M minParams) in
/-- A registration below the modules, the first of which is at position `i`. -/
def RegisteredBelow (i : ℕ) (ms : List (ModuleTree Var)) (home : Option (List ℕ)) (v : Var) : Prop :=
  ∃ j m path, ms[j]? = some m ∧ m.RegisteredAt path v ∧
    homeBelow M minParams (i + j) m path = home

theorem registeredBelow_cons {home : Option (List ℕ)} :
    RegisteredBelow M minParams i (m :: ms) home v ↔
      (∃ path, m.RegisteredAt path v ∧ homeBelow M minParams i m path = home) ∨
        RegisteredBelow M minParams (i + 1) ms home v := by
  constructor
  · rintro ⟨j, m', path, hm, hreg, hhome⟩
    cases j with
    | zero =>
      obtain rfl : m = m' := Option.some.inj hm
      exact .inl ⟨path, hreg, hhome⟩
    | succ j =>
      refine .inr ⟨j, m', path, hm, hreg, ?_⟩
      rwa [add_assoc, add_comm 1]
  · rintro (⟨path, hreg, hhome⟩ | ⟨j, m', path, hm, hreg, hhome⟩)
    · exact ⟨0, m, path, rfl, hreg, hhome⟩
    · refine ⟨j + 1, m', path, hm, hreg, ?_⟩
      rwa [add_assoc, add_comm 1] at hhome

theorem registeredAt_node {home : Option (List ℕ)} :
    (∃ path, (ModuleTree.node own subs).RegisteredAt path v ∧
        (ModuleTree.node own subs).home M minParams path = home) ↔
      (v ∈ own ∧ home = none) ∨ RegisteredBelow M minParams 0 subs home v := by
  constructor
  · rintro ⟨path, hreg, rfl⟩
    cases hreg with
    | own hv => exact .inl ⟨hv, by rw [ModuleTree.home]⟩
    | @sub _ _ i m path _ hm hreg =>
      refine .inr ⟨i, m, path, hm, hreg, ?_⟩
      rw [home_cons hm, zero_add]
  · rintro (⟨hv, rfl⟩ | ⟨i, m, path, hm, hreg, hhome⟩)
    · exact ⟨[], .own hv, by rw [ModuleTree.home]⟩
    · refine ⟨i :: path, .sub hm hreg, ?_⟩
      rwa [home_cons hm, ← zero_add i]

/-- The first step of the home of a registration. -/
theorem RegisteredBelow.first (h : RegisteredBelow M minParams i ms (some π) v) :
    ∃ j ρ, π = (i + j) :: ρ := by
  obtain ⟨j, m, path, -, -, hhome⟩ := h
  obtain ⟨ρ, -, rfl⟩ | ⟨-, -, rfl⟩ := homeBelow_eq_some.mp hhome
  · exact ⟨j, ρ, rfl⟩
  · exact ⟨j, [], rfl⟩

theorem homeBelow_first (h : homeBelow M minParams i m path = some π) : ∃ ρ, π = i :: ρ := by
  obtain ⟨ρ, -, rfl⟩ | ⟨-, -, rfl⟩ := homeBelow_eq_some.mp h
  · exact ⟨ρ, rfl⟩
  · exact ⟨[], rfl⟩

variable (M minParams) in
/-- The parameters are those whose registrations have this home. -/
def Holds (m : ModuleTree Var) (home : Option (List ℕ)) (u : List Var) : Prop :=
  ∀ v, v ∈ u ↔ ∃ path, m.RegisteredAt path v ∧ m.home M minParams path = home

variable (M minParams) in
def HoldsBelow (i : ℕ) (ms : List (ModuleTree Var)) (home : Option (List ℕ)) (u : List Var) :
    Prop := ∀ v, v ∈ u ↔ RegisteredBelow M minParams i ms home v

theorem forall₂_imp_of_mem {α β : Type*} {R S : α → β → Prop} {l : List α} {l' : List β}
    (h : List.Forall₂ R l l') (himp : ∀ a ∈ l, ∀ b, R a b → S a b) : List.Forall₂ S l l' := by
  induction h with
  | nil => exact Forall₂.nil
  | cons hab _ ih =>
    obtain ⟨hhead, htail⟩ := forall_mem_cons.mp himp
    exact Forall₂.cons (hhead _ hab) (ih htail)

/-- The units below the first module keep what they hold. -/
theorem HoldsBelow.of_first {ρ : List ℕ} (h : ∀ v, v ∈ u ↔ ∃ path, m.RegisteredAt path v ∧
      homeBelow M minParams i m path = some (i :: ρ)) :
    HoldsBelow M minParams i (m :: ms) (some (i :: ρ)) u := by
  intro v
  rw [registeredBelow_cons, h v]
  refine (or_iff_left fun hlater => ?_).symm
  obtain ⟨j, ρ', hstep⟩ := hlater.first
  have hstep : i = i + 1 + j := (cons_eq_cons.mp hstep).1
  omega

theorem HoldsBelow.of_later (hπ : π ∈ wrapsAll M minParams (i + 1) ms)
    (h : HoldsBelow M minParams (i + 1) ms (some π) u) :
    HoldsBelow M minParams i (m :: ms) (some π) u := by
  intro v
  rw [registeredBelow_cons, h v]
  refine (or_iff_right ?_).symm
  rintro ⟨path, -, hhome⟩
  obtain ⟨ρ, rfl⟩ := homeBelow_first hhome
  obtain ⟨j, m', -, ⟨ρ', -, heq⟩ | ⟨-, heq⟩⟩ := mem_wrapsAll.mp hπ
  · have hstep : i = i + 1 + j := (cons_eq_cons.mp heq).1
    omega
  · have hstep : i = i + 1 + j := (cons_eq_cons.mp heq).1
    omega

mutual

theorem collectUnits_holds : ∀ m : ModuleTree Var,
    Holds M minParams m none (collectUnits M minParams m).1 ∧
      List.Forall₂ (fun π u => Holds M minParams m (some π) u) (m.wraps M minParams)
        (collectUnits M minParams m).2
  | .node own subs => by
    obtain ⟨hrest, hunits⟩ := collectSubmodules_holds subs 0
    simp only [collectUnits, ModuleTree.wraps]
    constructor
    · intro v
      rw [registeredAt_node, mem_append, hrest v]
      simp
    · refine hunits.imp fun π u h v => ?_
      rw [registeredAt_node, h v]
      simp

theorem collectSubmodules_holds : ∀ (ms : List (ModuleTree Var)) (i : ℕ),
    HoldsBelow M minParams i ms none (collectSubmodules M minParams ms).1 ∧
      List.Forall₂ (fun π u => HoldsBelow M minParams i ms (some π) u) (wrapsAll M minParams i ms)
        (collectSubmodules M minParams ms).2
  | [], i => by
    constructor
    · intro v
      simp [collectSubmodules, RegisteredBelow]
    · exact Forall₂.nil
  | m :: ms, i => by
    obtain ⟨hleft, hunits⟩ := collectUnits_holds m
    obtain ⟨hrest, hlater⟩ := collectSubmodules_holds ms (i + 1)
    have hbelow : List.Forall₂ (fun π u => HoldsBelow M minParams i (m :: ms) (some π) u)
        ((m.wraps M minParams).map (i :: ·)) (collectUnits M minParams m).2 := by
      rw [forall₂_map_left_iff]
      refine forall₂_imp_of_mem hunits fun ρ hρ u hu => HoldsBelow.of_first fun v => ?_
      have hne := (nodup_wraps m).2 ρ hρ
      rw [hu v]
      simp [homeBelow_eq_some, hne]
    have hlater : List.Forall₂ (fun π u => HoldsBelow M minParams i (m :: ms) (some π) u)
        (wrapsAll M minParams (i + 1) ms) (collectSubmodules M minParams ms).2 :=
      forall₂_imp_of_mem hlater fun π hπ u hu => HoldsBelow.of_later hπ hu
    simp only [collectSubmodules, wrapsAll]
    by_cases hw : m.Wrapped M minParams
    · rw [if_pos hw, if_pos (wrapped_iff.mp hw)]
      constructor
      · intro v
        rw [hrest v, registeredBelow_cons]
        simp [homeBelow_eq_none, hw]
      · rw [append_assoc]
        refine rel_append hbelow (Forall₂.cons ?_ hlater)
        refine HoldsBelow.of_first fun v => ?_
        have hroot : ∀ path, m.home M minParams path ≠ some [] := fun path hhome =>
          (nodup_wraps m).2 [] (home_mem_wraps hhome) rfl
        rw [hleft v]
        simp [homeBelow_eq_some, hw, hroot]
    · rw [if_neg hw, if_neg (fun h => hw (wrapped_iff.mpr h)), append_nil]
      constructor
      · intro v
        rw [mem_append, hleft v, hrest v, registeredBelow_cons]
        simp [homeBelow_eq_none, hw]
      · exact rel_append hbelow hlater

end

variable (M minParams) in
/-- The homes that have a unit: the wrapped modules, and the root if anything is left there. -/
def unitHomes : List (Option (List ℕ)) :=
  (M.root.wraps M minParams).map some ++
    if (collectUnits M minParams M.root).1 ≠ [] then [none] else []

variable (M minParams) in
theorem nodup_unitHomes : (unitHomes M minParams).Nodup := by
  rw [unitHomes, nodup_append]
  refine ⟨(nodup_wraps M.root).1.map (Option.some_injective _), by split <;> simp, ?_⟩
  rintro a ha b hb rfl
  obtain ⟨π, -, rfl⟩ := mem_map.mp ha
  split at hb
  · exact absurd (mem_singleton.mp hb) (by simp)
  · exact absurd hb not_mem_nil

variable (M minParams) in
theorem applyAutoWrap_holds :
    List.Forall₂ (Holds M minParams M.root) (unitHomes M minParams) (applyAutoWrap M minParams) := by
  have hleft : Holds M minParams M.root none (collectUnits M minParams M.root).1 :=
    (collectUnits_holds M.root).1
  have hbelow : List.Forall₂ (Holds M minParams M.root) ((M.root.wraps M minParams).map some)
      (collectUnits M minParams M.root).2 :=
    forall₂_map_left_iff.mpr (collectUnits_holds M.root).2
  rw [unitHomes, applyAutoWrap]
  by_cases hrest : (collectUnits M minParams M.root).1 ≠ []
  · simp only [if_pos hrest]
    exact rel_append hbelow (Forall₂.cons hleft Forall₂.nil)
  · simp only [if_neg hrest, append_nil]
    exact hbelow

/-- The home of a registration has a unit. -/
theorem home_mem_unitHomes (h : M.root.RegisteredAt path v) :
    M.root.home M minParams path ∈ unitHomes M minParams := by
  rw [unitHomes, mem_append]
  cases hhome : M.root.home M minParams path with
  | some π => exact .inl (mem_map_of_mem (home_mem_wraps hhome))
  | none =>
    refine .inr ?_
    have hmem : v ∈ (collectUnits M minParams M.root).1 :=
      ((collectUnits_holds M.root).1 v).mpr ⟨path, h, hhome⟩
    rw [if_pos (ne_nil_of_mem hmem)]
    exact mem_singleton_self _

end Wrapping

namespace FullyShardedDataParallel

variable (D : FullyShardedDataParallel Var)

/-- Every parameter belongs to exactly one unit. -/
def AssignedOnce : Prop := ∀ v, ∃! i, v ∈ D.params i

/-- All registrations of a parameter have the same innermost wrapped module. -/
def OneHome : Prop :=
  ∀ v p q, D.model.root.RegisteredAt p v → D.model.root.RegisteredAt q v →
    D.model.root.home D.model D.config.autoWrapMinParams p =
      D.model.root.home D.model D.config.autoWrapMinParams q

/-- The homes that have a unit. -/
abbrev homes : List (Option (List ℕ)) := unitHomes D.model D.config.autoWrapMinParams

/-- A unit has the parameters with a registration whose home is the unit's. -/
theorem mem_params_iff {i : ℕ} {v : Var} : v ∈ D.params i ↔
    ∃ path, D.model.root.RegisteredAt path v ∧
      D.homes[i]? = some (D.model.root.home D.model D.config.autoWrapMinParams path) := by
  obtain ⟨hlen, hholds⟩ := forall₂_iff_get.mp
    (applyAutoWrap_holds D.model D.config.autoWrapMinParams)
  obtain hi | hi := Nat.lt_or_ge i D.homes.length
  · have hunit : i < D.units.length := by rwa [units, ← hlen]
    have hget : v ∈ D.params i ↔ ∃ path, D.model.root.RegisteredAt path v ∧
        D.model.root.home D.model D.config.autoWrapMinParams path = D.homes.get ⟨i, hi⟩ := by
      rw [params, getD_eq_getElem _ _ hunit]
      exact hholds i hi hunit v
    rw [hget, getElem?_eq_getElem hi]
    simp only [Option.some.injEq, get_eq_getElem, eq_comm]
  · have hunit : D.units.length ≤ i := by rwa [units, ← hlen]
    rw [params, getD_eq_default _ _ hunit, getElem?_eq_none hi]
    simp

/-- Every parameter is in exactly one unit just when its registrations have one home. -/
theorem assignedOnce_iff : D.AssignedOnce ↔ D.OneHome := by
  have hnodup := nodup_unitHomes D.model D.config.autoWrapMinParams
  constructor
  · intro h v p q hp hq
    obtain ⟨i, -, hunique⟩ := h v
    obtain ⟨a, ha, hgeta⟩ := getElem_of_mem (home_mem_unitHomes hp)
    obtain ⟨b, hb, hgetb⟩ := getElem_of_mem (home_mem_unitHomes hq)
    have hia : a = i := hunique a
      (D.mem_params_iff.mpr ⟨p, hp, by rw [getElem?_eq_getElem ha, hgeta]⟩)
    have hib : b = i := hunique b
      (D.mem_params_iff.mpr ⟨q, hq, by rw [getElem?_eq_getElem hb, hgetb]⟩)
    subst hia hib
    rw [← hgeta, ← hgetb]
  · intro h v
    obtain ⟨i, hi⟩ := exists_unit D v
    refine ⟨i, hi, fun k hk => ?_⟩
    obtain ⟨p, hp, hgeti⟩ := D.mem_params_iff.mp hi
    obtain ⟨q, hq, hgetk⟩ := D.mem_params_iff.mp hk
    rw [← h v p q hp hq] at hgetk
    have hlt := (List.getElem?_eq_some_iff.mp hgetk).1
    exact (getElem?_inj hlt hnodup).mp (hgetk.trans hgeti.symm)

end FullyShardedDataParallel

/-- Two layers with one weight. -/
def weightSharers : FullyShardedDataParallel Unit where
  model :=
    { shape := fun _ => [1]
      requiresGrad := fun _ => true
      root := .node [] [.node [()] [], .node [()] []]
      registers := fun _ => List.mem_cons_self }
  config := ⟨.fullShard, false, 1⟩
  namedParameters := fun _ => [("weight", ())]

/-- The weight is in the unit of each layer. -/
theorem weightSharers_units :
    weightSharers.units = [[()], [()]] ∧ ¬ weightSharers.AssignedOnce := by
  have hunits : weightSharers.units = [[()], [()]] := by decide
  refine ⟨hunits, fun h => ?_⟩
  obtain ⟨i, -, hunique⟩ := h ()
  have hfirst : 0 = i := hunique 0 (by simp [FullyShardedDataParallel.params, hunits])
  have hsecond : 1 = i := hunique 1 (by simp [FullyShardedDataParallel.params, hunits])
  omega

end Tenzor.Fsdp
