import Tenzor.Nn.Module

/-!
# Every parameter once

`parameters()` and `named_parameters()` are what an optimizer steps over, so each `Variable` has
to be listed once. The base class drops repetitions at every level; the containers list what
their positions list, one after another.
-/

namespace Tenzor

open List
open Prod (fst snd)

/-- The `Variable`s at each position of a container, given those of its modules. -/
def Items.positions : Items (List VariableId) → List (List VariableId)
  | .none => []
  | .sequential modules => modules
  | .moduleList modules => modules
  | .moduleDict modules => modules.map Prod.snd
  | .parameterList params => params.map fun p => [p]
  | .parameterDict params => params.map fun p => [p.2]

def Items.IsContainer {M : Type} (items : Items M) : Prop := items ≠ .none

namespace Module

/-- The parameters registered on the module or reached through its submodules and items. -/
def registered : Module → List VariableId :=
  fold fun parameters _ submodules items =>
    (Dict.pairs parameters).map Prod.snd ++ submodules.flatMap Prod.snd ++ items.positions.flatten

/-- The module itself and everything below it. -/
inductive Node : Module → Module → Prop
  | self (m : Module) : Node m m
  | submodule {parameters buffers submodules items n} {e : Key × Module} (he : e ∈ submodules)
      (hn : Node e.2 n) : Node (.mk parameters buffers submodules items) n
  | item {parameters buffers submodules items n} {m : Module} (hm : m ∈ Items.modules items)
      (hn : Node m n) : Node (.mk parameters buffers submodules items) n

/-- How often an optimizer that is constructed from the list updates the `Variable` in a step. -/
def updates (params : List VariableId) (v : VariableId) : ℕ := params.count v

/-- Both lists have each reachable `Variable` once and no other. -/
def ListsOnce (m : Module) : Prop :=
  ∀ v, updates m.parameters v = (if v ∈ m.registered then 1 else 0) ∧
    updates (m.namedParameters.map Prod.snd) v = if v ∈ m.registered then 1 else 0

/-- A container's positions have no `Variable` in common, and whatever is registered on it is at
one of them. -/
def Separate : Module → Prop
  | .mk parameters _ submodules items =>
    items.IsContainer →
      let positions := (items.map registered).positions
      positions.Pairwise List.Disjoint ∧
        ∀ v ∈ (Dict.pairs parameters).map Prod.snd ++ submodules.flatMap fun e => e.2.registered,
          v ∈ positions.flatten

variable {parameters buffers : Dict Key VariableId} {submodules : List (Key × Module)}
  {items : Items Module} {v : VariableId} {m : Module} {g : Module → List VariableId} {α M : Type}

theorem registered_mk : (Module.mk parameters buffers submodules items).registered =
    (Dict.pairs parameters).map snd ++ (submodules.flatMap fun e => e.2.registered) ++
      (items.map registered).positions.flatten := by
  rw [registered, fold_mk, flatMap_map]

theorem updates_eq_iff {params reachable : List VariableId} :
    (∀ v, updates params v = if v ∈ reachable then 1 else 0) ↔
      params.Nodup ∧ ∀ v, v ∈ params ↔ v ∈ reachable := by
  constructor
  · intro h
    constructor
    · rw [nodup_iff_count_le_one]
      intro v
      have hv := h v
      rw [updates] at hv
      split at hv <;> omega
    · intro v
      have hv := h v
      rw [updates] at hv
      rw [← count_pos_iff]
      split at hv
      next hin => exact iff_of_true (by omega) hin
      next hout => exact iff_of_false (by omega) hout
  · rintro ⟨hnodup, hmem⟩ v
    split
    next hin => exact count_eq_one_of_mem hnodup ((hmem v).mpr hin)
    next hout => exact count_eq_zero_of_not_mem fun hv => hout ((hmem v).mp hv)

theorem foldl_addUnseen (l params : List VariableId) (hnodup : params.Nodup) :
    (l.foldl addUnseen params).Nodup ∧ ∀ v, v ∈ l.foldl addUnseen params ↔ v ∈ params ∨ v ∈ l := by
  induction l generalizing params with
  | nil => exact ⟨hnodup, fun v => by simp⟩
  | cons p l ih =>
    rw [foldl_cons, addUnseen]
    split
    next hin =>
      obtain ⟨hnd, hmem⟩ := ih params hnodup
      refine ⟨hnd, fun v => ?_⟩
      rw [hmem, mem_cons]
      constructor
      · rintro (h | h)
        · exact .inl h
        · exact .inr (.inr h)
      · rintro (h | rfl | h)
        · exact .inl h
        · exact .inl hin
        · exact .inr h
    next hout =>
      obtain ⟨hnd, hmem⟩ := ih (params ++ [p]) (hnodup.append (nodup_singleton p)
        (disjoint_singleton.mpr hout))
      refine ⟨hnd, fun v => ?_⟩
      rw [hmem, mem_append, mem_singleton, mem_cons, or_assoc]

/-- Forgetting the names, the named list is built like the other. -/
theorem map_foldl_addUnseenNamed (l params : List (Key × VariableId)) :
    (l.foldl addUnseenNamed params).map snd =
      (l.map snd).foldl addUnseen (params.map snd) := by
  induction l generalizing params with
  | nil => rfl
  | cons e l ih =>
    rw [foldl_cons, map_cons, foldl_cons, ih, addUnseenNamed, addUnseen]
    split
    · rfl
    · rw [map_append, map_singleton]

theorem map_underName (e : Key × List (Key × VariableId)) :
    (underName e).map snd = e.2.map snd := by
  rw [underName, map_map]
  rfl

theorem mem_ownParameters :
    v ∈ ownParameters parameters ↔ v ∈ (Dict.pairs parameters).map snd := by
  have hvalue : v ∈ (Dict.pairs parameters).map snd ↔ ∃ k, (k, v) ∈ Dict.pairs parameters := by
    simp
  rw [hvalue, ownParameters, mem_append, mem_append, Option.mem_toList, Option.mem_toList,
    ← Dict.mem_pairs, ← Dict.mem_pairs]
  constructor
  · rintro ((hw | hb) | ho)
    · exact ⟨_, hw⟩
    · exact ⟨_, hb⟩
    · obtain ⟨e, he, rfl⟩ := mem_map.mp ho
      exact ⟨e.1, (mem_filter.mp he).1⟩
  · rintro ⟨k, hk⟩
    by_cases hw : k = weightName
    · exact .inl (.inl (hw ▸ hk))
    · by_cases hb : k = biasName
      · exact .inl (.inr (hb ▸ hk))
      · refine .inr (mem_map.mpr ⟨(k, v), mem_filter.mpr ⟨hk, ?_⟩, rfl⟩)
        simpa using ⟨hw, hb⟩

/-- What stands at the positions: modules, or `Variable`s. -/
def parts : Items Module → List (Module ⊕ VariableId)
  | .none => []
  | .sequential modules => modules.map .inl
  | .moduleList modules => modules.map .inl
  | .moduleDict modules => modules.map fun e => .inl e.2
  | .parameterList params => params.map .inr
  | .parameterDict params => params.map fun e => .inr e.2

theorem positions_map (g : Module → List VariableId) :
    (items.map g).positions = (parts items).map (Sum.elim g fun p => [p]) := by
  cases items <;> simp [Items.map, Items.positions, parts, Function.comp_def]

theorem mem_modules_of_parts (hm : .inl m ∈ parts items) : m ∈ items.modules := by
  cases items with
  | none => exact absurd hm not_mem_nil
  | sequential modules => simpa [parts, Items.modules] using hm
  | moduleList modules => simpa [parts, Items.modules] using hm
  | moduleDict modules => simpa [parts, Items.modules] using hm
  | parameterList params => simp [parts] at hm
  | parameterDict params => simp [parts] at hm

/-- The functions that list positions one after another list each `Variable` once when the
positions have nothing in common. -/
theorem nodup_positions (hg : ∀ m ∈ items.modules, (g m).Nodup ∧ ∀ v, v ∈ g m ↔ v ∈ m.registered) :
    ((items.map g).positions.flatten.Nodup ↔
      (items.map registered).positions.Pairwise List.Disjoint) ∧
      ∀ v, v ∈ (items.map g).positions.flatten ↔ v ∈ (items.map registered).positions.flatten := by
  have hpart : ∀ part ∈ parts items, (Sum.elim g (fun p => [p]) part).Nodup ∧
      ∀ v, v ∈ Sum.elim g (fun p => [p]) part ↔ v ∈ Sum.elim registered (fun p => [p]) part := by
    intro part hin
    cases part with
    | inl m => exact hg m (mem_modules_of_parts hin)
    | inr p => exact ⟨nodup_singleton p, fun _ => Iff.rfl⟩
  rw [positions_map, positions_map]
  constructor
  · rw [nodup_flatten, pairwise_map, pairwise_map]
    have hnodup : ∀ l ∈ (parts items).map (Sum.elim g fun p => [p]), l.Nodup := by
      intro l hl
      obtain ⟨part, hin, rfl⟩ := mem_map.mp hl
      exact (hpart part hin).1
    rw [and_iff_right hnodup]
    apply Pairwise.iff_of_mem
    intro a b ha hb
    simp only [List.Disjoint, (hpart a ha).2, (hpart b hb).2]
  · intro v
    simp only [mem_flatten, mem_map, exists_exists_and_eq_and]
    constructor
    · rintro ⟨part, hin, hv⟩
      exact ⟨part, hin, ((hpart part hin).2 v).mp hv⟩
    · rintro ⟨part, hin, hv⟩
      exact ⟨part, hin, ((hpart part hin).2 v).mpr hv⟩

theorem flatten_singletons (f : α → VariableId) (l : List α) :
    (l.map fun a => [f a]).flatten = l.map f := map_eq_flatMap.symm

theorem parameters_container (hc : items.IsContainer) :
    (Module.mk parameters buffers submodules items).parameters =
      (items.map Module.parameters).positions.flatten := by
  rw [Module.parameters, fold_mk]
  cases items with
  | none => exact absurd rfl hc
  | sequential modules => rfl
  | moduleList modules => rfl
  | moduleDict modules => rfl
  | parameterList params =>
    rw [Items.map, Items.positions, flatten_singletons, map_id']
    rfl
  | parameterDict params =>
    rw [Items.map, Items.positions, flatten_singletons]
    rfl

theorem map_zipIdx {β : Type} (f : α → β) (l : List α) :
    (l.zipIdx.map fun e => f e.1) = l.map f := by
  calc (l.zipIdx.map fun e => f e.1) = (l.zipIdx.map fst).map f := (map_map ..).symm
    _ = l.map f := by rw [zipIdx_map_fst]

/-- The names list the modules in order. -/
theorem map_named (items : Items M) : items.named.map snd = items.modules := by
  cases items with
  | sequential modules =>
    rw [Items.named, map_map]
    exact (map_zipIdx id modules).trans (map_id modules)
  | moduleList modules =>
    rw [Items.named, map_map]
    exact (map_zipIdx id modules).trans (map_id modules)
  | _ => rfl

theorem modules_map {N : Type} (f : M → N) (items : Items M) :
    (items.map f).modules = items.modules.map f := by
  cases items <;> simp [Items.map, Items.modules]

theorem map_flatMap_underName (l : List (Key × List (Key × VariableId))) :
    (l.flatMap underName).map snd = ((l.map snd).map (List.map snd)).flatten := by
  rw [map_flatMap, List.flatMap, map_map]
  congr 1
  exact map_congr_left fun e _ => map_underName e

theorem namedParameters_container (hc : items.IsContainer) :
    (Module.mk parameters buffers submodules items).namedParameters.map snd =
      (items.map fun m => m.namedParameters.map snd).positions.flatten := by
  have hmodules : ((items.map namedParameters).named.flatMap underName).map snd =
      (items.modules.map fun m => m.namedParameters.map snd).flatten := by
    rw [map_flatMap_underName, map_named, modules_map, map_map]
    rfl
  rw [Module.namedParameters, fold_mk]
  cases items with
  | none => exact absurd rfl hc
  | sequential modules => exact hmodules
  | moduleList modules => exact hmodules
  | moduleDict modules =>
    refine hmodules.trans ?_
    simp only [Items.map, Items.modules, Items.positions, map_map]
    rfl
  | parameterList params =>
    rw [Items.map, Items.map, Items.positions, flatten_singletons, map_id', namedParametersStep,
      map_map]
    exact (map_zipIdx id params).trans (map_id params)
  | parameterDict params =>
    rw [Items.map, Items.map, Items.positions, flatten_singletons]
    rfl

theorem registered_container_iff :
    v ∈ (Module.mk parameters buffers submodules items).registered ↔
      v ∈ (Dict.pairs parameters).map snd ++ (submodules.flatMap fun e => e.2.registered) ∨
        v ∈ (items.map registered).positions.flatten := by
  rw [registered_mk, mem_append]

/-- What a function lists, as a set with repetitions. -/
def Once (g : Module → List VariableId) (m : Module) : Prop :=
  (g m).Nodup ∧ ∀ v, v ∈ g m ↔ v ∈ m.registered

theorem listsOnce_iff :
    m.ListsOnce ↔ Once Module.parameters m ∧ Once (fun m => m.namedParameters.map snd) m := by
  rw [ListsOnce, forall_and, updates_eq_iff, updates_eq_iff]
  rfl

/-- For a function that lists the positions of a container one after another. -/
theorem once_container (hc : items.IsContainer)
    (hg : g (.mk parameters buffers submodules items) = (items.map g).positions.flatten)
    (hitems : ∀ m ∈ items.modules, Once g m) :
    Once g (.mk parameters buffers submodules items) ↔
      (Module.mk parameters buffers submodules items).Separate := by
  obtain ⟨hnodup, hmem⟩ := nodup_positions hitems
  rw [Once, hg, hnodup]
  simp only [hmem, registered_container_iff]
  constructor
  · rintro ⟨hdisjoint, hall⟩ -
    exact ⟨hdisjoint, fun v hv => (hall v).mpr (.inl hv)⟩
  · intro h
    obtain ⟨hdisjoint, hall⟩ := h hc
    refine ⟨hdisjoint, fun v => ⟨.inr, ?_⟩⟩
    rintro (hv | hv)
    · exact hall v hv
    · exact hv

/-- The base class lists what its submodules list, without repetitions. -/
theorem once_plain {own : List VariableId}
    (hown : ∀ v, v ∈ own ↔ v ∈ (Dict.pairs parameters).map snd)
    (hg : g (.mk parameters buffers submodules .none) =
      (own ++ submodules.flatMap fun e => g e.2).foldl addUnseen [])
    (hsub : ∀ e ∈ submodules, Once g e.2) : Once g (.mk parameters buffers submodules .none) := by
  obtain ⟨hnodup, hmem⟩ := foldl_addUnseen (own ++ submodules.flatMap fun e => g e.2) []
    nodup_nil
  rw [Once, hg]
  refine ⟨hnodup, fun v => ?_⟩
  rw [hmem, registered_mk]
  simp only [not_mem_nil, false_or, mem_append, mem_flatMap, hown, Items.map,
    Items.positions, flatten_nil, or_false]
  apply or_congr Iff.rfl
  constructor
  · rintro ⟨e, he, hv⟩
    exact ⟨e, he, ((hsub e he).2 v).mp hv⟩
  · rintro ⟨e, he, hv⟩
    exact ⟨e, he, ((hsub e he).2 v).mpr hv⟩

theorem parameters_plain :
    (Module.mk parameters buffers submodules .none).parameters =
      (ownParameters parameters ++ submodules.flatMap fun e => e.2.parameters).foldl addUnseen [] := by
  rw [Module.parameters, fold_mk, Items.map, parametersStep, flatMap_map]

theorem namedParameters_plain :
    (Module.mk parameters buffers submodules .none).namedParameters.map snd =
      (((Dict.pairs parameters).insertionSort fun a b => a.1 ≤ b.1).map snd ++
        submodules.flatMap fun e => e.2.namedParameters.map snd).foldl addUnseen [] := by
  rw [Module.namedParameters, fold_mk, Items.map, namedParametersStep, map_foldl_addUnseenNamed,
    map_append, map_flatMap_underName, map_map, map_map]
  rfl

/-- A node lists every `Variable` once if and only if its positions are separate, once the nodes
below it do. -/
theorem listsOnce_mk_iff (hsub : ∀ e ∈ submodules, ListsOnce e.2)
    (hitems : ∀ m ∈ items.modules, ListsOnce m) :
    (Module.mk parameters buffers submodules items).ListsOnce ↔
      (Module.mk parameters buffers submodules items).Separate := by
  have hsub' := fun e he => listsOnce_iff.mp (hsub e he)
  have hitems' := fun m hm => listsOnce_iff.mp (hitems m hm)
  rw [listsOnce_iff]
  by_cases hc : items.IsContainer
  · rw [once_container hc (parameters_container hc) fun m hm => (hitems' m hm).1,
      once_container hc (namedParameters_container hc) fun m hm => (hitems' m hm).2, and_self_iff]
  · obtain rfl : items = .none := not_not.mp hc
    apply iff_of_true
    · constructor
      · exact once_plain (fun v => mem_ownParameters) parameters_plain fun e he => (hsub' e he).1
      · apply once_plain (fun v => ?_) namedParameters_plain fun e he => (hsub' e he).2
        exact ((perm_insertionSort _ _).map snd).mem_iff
    · exact fun hcontainer => absurd hcontainer hc

/-- A module with one parameter. -/
def layer : Module := .mk (Dict.ofEntries [(weightName, 0)]) ∅ [] .none

/-- `Sequential` with the same layer at both positions. -/
def twice : Module :=
  .mk ∅ ∅ [(['m', 'o', 'd', 'u', 'l', 'e', '_', '0'], layer),
    (['m', 'o', 'd', 'u', 'l', 'e', '_', '1'], layer)] (.sequential [layer, layer])

end Module

end Tenzor
