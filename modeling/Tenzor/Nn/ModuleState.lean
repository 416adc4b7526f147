import Tenzor.Nn.Module
import Mathlib.Data.List.Induction

/-!
# Loading what was saved

The saver of a container lists its items, the loader its registrations, and the loader takes keys
apart by the prefixes of the submodules. Each registered `Variable` is a slot with a key; a load
writes the slots whose keys the state has, and a key is unexpected as soon as one module that it
is routed to rejects it.
-/

namespace Tenzor

open Effects List
open Throwing (throwIf_eq_ok throwIf_of throwIf_of_not pure_eq_ok)
open Prod (fst snd)
open Option (map_some some_inj)

/-- Keys under the prefix of a submodule. -/
def prefixed {β : Type} (name : Key) (l : List (Key × β)) : List (Key × β) :=
  l.map (Prod.map (dotted name ++ ·) id)

namespace Module

/-- The registered `Variable`s with their keys, in the order in which they are loaded. -/
def slots : Module → List (Key × VariableId) :=
  fold fun parameters buffers submodules _ =>
    Dict.pairs parameters ++ Dict.pairs buffers ++ submodules.flatMap fun e => prefixed e.1 e.2

/-- The key is routed to a module that has no use for it. -/
def Rejects : Module → Key → Prop :=
  fold fun parameters buffers submodules _ key =>
    ¬ Consumes parameters buffers (submodules.map Prod.fst) key ∨
      ∃ e ∈ submodules, ∃ rest, key = dotted e.1 ++ rest ∧ e.2 rest

/-- The `Variable` that is saved under each key. -/
def saved (m : Module) : Dict Key VariableId := m.stateDict id

end Module

variable {convert : DType → ℚ → ℚ} {live : Variables} {mem mem' : Contents} {state : Dict Key StateTensor}
  {parameters buffers : Dict Key VariableId} {submodules : List (Key × Module)}
  {items : Items Module} {key name k : Key} {s : Key × VariableId} {m : Module} {w : VariableId}
  {β M : Type} {read : VariableId → β}

theorem Module.slots_mk : (Module.mk parameters buffers submodules items).slots =
    Dict.pairs parameters ++ Dict.pairs buffers ++
      submodules.flatMap fun e => prefixed e.1 e.2.slots := by
  rw [slots, fold_mk, flatMap_map]

theorem Module.rejects_mk :
    (Module.mk parameters buffers submodules items).Rejects key ↔
      ¬ Consumes parameters buffers (submodules.map fst) key ∨
        ∃ e ∈ submodules, ∃ rest, key = dotted e.1 ++ rest ∧ e.2.Rejects rest := by
  rw [Rejects, fold_mk]
  simp only [map_map, mem_map, exists_exists_and_eq_and]
  rfl

theorem lookup_subState (name rest : Key) :
    (subState name state).lookup rest = state.lookup (dotted name ++ rest) :=
  Dict.lookup_under (dotted name) rest state

theorem mem_subState {rest : Key} : rest ∈ subState name state ↔ dotted name ++ rest ∈ state := by
  rw [← AList.lookup_isSome, ← AList.lookup_isSome, lookup_subState]

/-! ## Slots -/

/-- `add_` takes the tensor. -/
def LiveTensor.Writable (t : LiveTensor) : Prop :=
  t.requiresGrad = false ∧ t.contiguous = true ∧ isFp8 t.dtype = false

/-- A tensor of this shape and this type can be loaded into the `Variable`. -/
structure Variables.Takes (live : Variables) (v : VariableId) (shape : List ℕ) (dtype : DType) :
    Prop where
  shape_eq : (live.tensor v).shape = shape
  castable : dtype = (live.tensor v).dtype ∨
    isQuantized (live.tensor v).dtype = false ∧ isQuantized dtype = false
  writable : isFloatingType (live.tensor v).dtype = true → (live.tensor v).Writable

/-- The `Variable`s take the tensors that the state has for the slots. -/
def SlotsFit (live : Variables) (state : Dict Key StateTensor) (slots : List (Key × VariableId)) :
    Prop :=
  ∀ s ∈ slots, ∀ t, state.lookup s.1 = some t → live.Takes s.2 t.shape t.dtype

/-- A slot is loaded if the state has its key. -/
def writeSlot (convert : DType → ℚ → ℚ) (live : Variables) (state : Dict Key StateTensor)
    (mem : Contents) (s : Key × VariableId) : Contents :=
  match state.lookup s.1 with
  | some t => live.store s.2 (t.cast convert (live.tensor s.2).dtype) mem
  | none => mem

theorem slotsFit_append {l l' : List (Key × VariableId)} :
    SlotsFit live state (l ++ l') ↔ SlotsFit live state l ∧ SlotsFit live state l' := by
  simp only [SlotsFit, mem_append, or_imp, forall_and]

/-- The slots of a submodule, before and after its prefix is taken off. -/
theorem slotsFit_prefixed {slots : List (Key × VariableId)} :
    SlotsFit live state (prefixed name slots) ↔ SlotsFit live (subState name state) slots := by
  simp only [SlotsFit, prefixed, forall_mem_map, Prod.map, id, lookup_subState]

theorem foldl_writeSlot_prefixed (name : Key) (slots : List (Key × VariableId)) (mem : Contents) :
    (prefixed name slots).foldl (writeSlot convert live state) mem =
      slots.foldl (writeSlot convert live (subState name state)) mem := by
  rw [prefixed, foldl_map]
  congr 1
  funext mem s
  simp only [writeSlot, Prod.map, id, lookup_subState]

/-! ## Loops of the loader -/

variable {t : StateTensor} {v : VariableId} {shape : List ℕ} {dtype : DType}

theorem StateTensor.to_eq_ok {u : StateTensor} (h : t.to convert dtype = .ok u) :
    u.data = t.cast convert dtype ∧
      (t.dtype = dtype ∨ isQuantized dtype = false ∧ isQuantized t.dtype = false) := by
  unfold StateTensor.to at h
  split at h
  next heq =>
    obtain rfl := pure_eq_ok.mp h
    exact ⟨(if_pos heq).symm, .inl heq⟩
  next =>
    simp only [Throwing.bind_eq_ok, throwIf_eq_ok, Bool.not_eq_true, pure_eq_ok] at h
    obtain ⟨-, hto, -, hfrom, rfl⟩ := h
    exact ⟨rfl, .inr ⟨hto, hfrom⟩⟩

theorem StateTensor.exists_to (convert : DType → ℚ → ℚ)
    (h : t.dtype = dtype ∨ isQuantized dtype = false ∧ isQuantized t.dtype = false) :
    ∃ u, t.to convert dtype = .ok u := by
  unfold StateTensor.to
  split
  next => exact ⟨t, rfl⟩
  next hne =>
    obtain ⟨hto, hfrom⟩ := h.resolve_left hne
    rw [hto, hfrom]
    exact ⟨_, rfl⟩

/-- Zeroing and adding is storing. -/
theorem Variables.modify_add_zero (live : Variables) (v : VariableId) (data : List ℚ)
    (mem : Contents) :
    live.modify v (fun i x => x + data.getD i 0) (live.modify v (fun _ _ => 0) mem) =
      live.store v data mem := by
  funext c
  unfold Variables.store Variables.modify
  cases live.indexOf v c with
  | none => rfl
  | some i => exact zero_add _

theorem addInPlace_spec (live : Variables) (v : VariableId) (t : StateTensor) (mem : Contents) :
    ((live.tensor v).Writable → live.addInPlace v t mem =
      (.ok (), live.modify v (fun i x => x + t.data.getD i 0) mem)) ∧
    (¬ (live.tensor v).Writable → ∃ e mem', live.addInPlace v t mem = (.error e, mem')) := by
  unfold Variables.addInPlace
  by_cases hgrad : (live.tensor v).requiresGrad = true
  · rw [raise_bind_of_error (throwIf_of hgrad)]
    exact ⟨fun h => absurd (hgrad.symm.trans h.1) Bool.noConfusion, fun _ => ⟨_, _, rfl⟩⟩
  rw [raise_bind_of_ok (throwIf_of_not hgrad)]
  by_cases hgap : (live.tensor v).contiguous = false
  · rw [raise_bind_of_error (throwIf_of hgap)]
    exact ⟨fun h => absurd (hgap.symm.trans h.2.1) Bool.noConfusion, fun _ => ⟨_, _, rfl⟩⟩
  rw [raise_bind_of_ok (throwIf_of_not hgap)]
  by_cases hfp8 : isFp8 (live.tensor v).dtype = true
  · rw [raise_bind_of_error (throwIf_of hfp8)]
    exact ⟨fun h => absurd (hfp8.symm.trans h.2.2) Bool.noConfusion, fun _ => ⟨_, _, rfl⟩⟩
  rw [raise_bind_of_ok (throwIf_of_not hfp8)]
  exact ⟨fun _ => rfl, fun h => absurd ⟨Bool.eq_false_iff.mpr hgrad, Bool.not_eq_false _ ▸ hgap,
    Bool.eq_false_iff.mpr hfp8⟩ h⟩

/-- What `load_param_in_place` does. -/
theorem loadParamInPlace_spec (convert : DType → ℚ → ℚ) (live : Variables) (v : VariableId)
    (t : StateTensor) (name : Key) (kind : String) (mem : Contents) :
    (live.Takes v t.shape t.dtype → loadParamInPlace convert live v t name kind mem =
      (.ok (), live.store v (t.cast convert (live.tensor v).dtype) mem)) ∧
    (¬ live.Takes v t.shape t.dtype → ∃ e mem',
      loadParamInPlace convert live v t name kind mem = (.error e, mem')) := by
  unfold loadParamInPlace
  by_cases hshape : (live.tensor v).shape = t.shape
  · rw [raise_bind_of_ok (throwIf_of_not (not_not.mpr hshape))]
    cases hto : t.to convert (live.tensor v).dtype with
    | error e =>
      rw [raise_bind_of_error rfl]
      refine ⟨fun h => ?_, fun _ => ⟨e, mem, rfl⟩⟩
      obtain ⟨u, hu⟩ := StateTensor.exists_to convert h.castable
      cases hto.symm.trans hu
    | ok u =>
      obtain ⟨hdata, hcast⟩ := StateTensor.to_eq_ok hto
      rw [raise_bind_of_ok rfl, bind_of_ok (get_apply mem), ← hdata]
      by_cases hfloat : isFloatingType (live.tensor v).dtype = true
      · rw [if_pos hfloat, bind_of_ok (set_apply mem _)]
        obtain ⟨hok, herror⟩ := addInPlace_spec live v u (live.modify v (fun _ _ => 0) mem)
        rw [Variables.modify_add_zero] at hok
        exact ⟨fun h => hok (h.writable hfloat),
          fun h => herror fun hw => h ⟨hshape, hcast, fun _ => hw⟩⟩
      · rw [if_neg hfloat]
        exact ⟨fun _ => rfl, fun h => absurd ⟨hshape, hcast, fun hf => absurd hf hfloat⟩ h⟩
  · rw [raise_bind_of_error (throwIf_of hshape)]
    exact ⟨fun h => absurd h.shape_eq hshape, fun _ => ⟨_, _, rfl⟩⟩

/-- The loop over registered `Variable`s writes their slots, or throws at one that does not fit. -/
theorem forM_loadEntry (convert : DType → ℚ → ℚ) (live : Variables) (state : Dict Key StateTensor)
    (kind : String) (l : List (Key × VariableId)) (mem : Contents) :
    (SlotsFit live state l → l.forM (loadEntry convert live state kind) mem =
      (.ok ⟨⟩, l.foldl (writeSlot convert live state) mem)) ∧
      (¬ SlotsFit live state l → ∃ e mem', l.forM (loadEntry convert live state kind) mem =
        (.error e, mem')) := by
  induction l generalizing mem with
  | nil => exact ⟨fun _ => rfl, fun h => absurd (fun _ hs => absurd hs not_mem_nil) h⟩
  | cons s l ih =>
    have hfits : SlotsFit live state (s :: l) ↔
        (∀ t, state.lookup s.1 = some t → live.Takes s.2 t.shape t.dtype) ∧
          SlotsFit live state l := by
      rw [SlotsFit, forall_mem_cons]
      rfl
    have hentry : ∀ {mem'}, loadEntry convert live state kind s mem = (.ok (), mem') →
        (s :: l).forM (loadEntry convert live state kind) mem =
          l.forM (loadEntry convert live state kind) mem' := bind_of_ok
    rw [hfits]
    cases ht : state.lookup s.1 with
    | none =>
      have hskip : loadEntry convert live state kind s mem = (.ok (), mem) := by
        rw [loadEntry, ht]
        rfl
      have hwrite : writeSlot convert live state mem s = mem := by rw [writeSlot, ht]
      rw [hentry hskip, foldl_cons, hwrite, and_iff_right fun t h => nomatch h]
      exact ih mem
    | some t =>
      obtain ⟨hok, herror⟩ := loadParamInPlace_spec convert live s.2 t s.1 kind mem
      have hone : (∀ t', some t = some t' → live.Takes s.2 t'.shape t'.dtype) ↔
          live.Takes s.2 t.shape t.dtype := by
        simp only [some_inj, forall_eq']
      rw [hone]
      by_cases htakes : live.Takes s.2 t.shape t.dtype
      · have hload : loadEntry convert live state kind s mem =
            (.ok (), writeSlot convert live state mem s) := by
          rw [loadEntry, writeSlot, ht]
          exact hok htakes
        rw [hentry hload, foldl_cons, and_iff_right htakes]
        exact ih _
      · refine ⟨fun h => absurd h.1 htakes, fun _ => ?_⟩
        obtain ⟨e, mem', he⟩ := herror htakes
        refine ⟨e, mem', bind_of_error ?_⟩
        rw [loadEntry, ht]
        exact he

/-- What the loader of a module does. -/
def Loads (convert : DType → ℚ → ℚ) (live : Variables) (m : Module) : Prop :=
  ∀ (state : Dict Key StateTensor) (mem : Contents),
    (SlotsFit live state m.slots → ∃ report, m.loadReport convert live state mem =
        (.ok report, m.slots.foldl (writeSlot convert live state) mem) ∧
      (∀ key, key ∈ report.1 ↔ key ∈ m.slots.map Prod.fst ∧ key ∉ state) ∧
      ∀ key, key ∈ report.2 ↔ key ∈ state ∧ m.Rejects key) ∧
    (¬ SlotsFit live state m.slots → ∃ e mem', m.loadReport convert live state mem = (.error e, mem'))

theorem loadSubmodule_ok (hm : Loads convert live m)
    (hfit : SlotsFit live state (prefixed name m.slots)) :
    ∃ report, loadSubmodule state (name, m.loadReport convert live) mem =
        (.ok report, (prefixed name m.slots).foldl (writeSlot convert live state) mem) ∧
      (∀ key, key ∈ report.1 ↔ key ∈ (prefixed name m.slots).map fst ∧ key ∉ state) ∧
      ∀ key, key ∈ report.2 ↔ key ∈ state ∧ ∃ rest, key = dotted name ++ rest ∧ m.Rejects rest := by
  obtain ⟨report, hrun, hmissing, hunexpected⟩ :=
    (hm (subState name state) mem).1 (slotsFit_prefixed.mp hfit)
  refine ⟨(report.1.map (dotted name ++ ·), report.2.map (dotted name ++ ·)), ?_, ?_, ?_⟩
  · rw [foldl_writeSlot_prefixed]
    exact bind_of_ok hrun
  · intro key
    rw [mem_map, prefixed, map_map]
    constructor
    · rintro ⟨rest, hrest, rfl⟩
      obtain ⟨hslot, hnot⟩ := (hmissing rest).mp hrest
      obtain ⟨s, hs, rfl⟩ := mem_map.mp hslot
      exact ⟨mem_map.mpr ⟨s, hs, rfl⟩, mem_subState.not.mp hnot⟩
    · rintro ⟨hslot, hnot⟩
      obtain ⟨s, hs, rfl⟩ := mem_map.mp hslot
      exact ⟨s.1, (hmissing s.1).mpr ⟨mem_map.mpr ⟨s, hs, rfl⟩, mem_subState.not.mpr hnot⟩, rfl⟩
  · intro key
    rw [mem_map]
    constructor
    · rintro ⟨rest, hrest, rfl⟩
      obtain ⟨hin, hrej⟩ := (hunexpected rest).mp hrest
      exact ⟨mem_subState.mp hin, rest, rfl, hrej⟩
    · rintro ⟨hin, rest, rfl, hrej⟩
      exact ⟨rest, (hunexpected rest).mpr ⟨mem_subState.mpr hin, hrej⟩, rfl⟩

theorem loadSubmodule_error (hm : Loads convert live m)
    (hmisfit : ¬ SlotsFit live state (prefixed name m.slots)) :
    ∃ e mem', loadSubmodule state (name, m.loadReport convert live) mem = (.error e, mem') := by
  obtain ⟨e, mem', hrun⟩ := (hm (subState name state) mem).2 (slotsFit_prefixed.not.mp hmisfit)
  exact ⟨e, mem', bind_of_error hrun⟩

/-- The loaders of the submodules. -/
def loaders (convert : DType → ℚ → ℚ) (live : Variables) (l : List (Key × Module)) :
    List (Key × (Dict Key StateTensor → Effect Contents Exn KeyReport)) :=
  l.map fun e => (e.1, e.2.loadReport convert live)

theorem mapM_loadSubmodule (state : Dict Key StateTensor) (l : List (Key × Module))
    (hl : ∀ e ∈ l, Loads convert live e.2) (mem : Contents) :
    (SlotsFit live state (l.flatMap fun e => prefixed e.1 e.2.slots) →
      ∃ reports, (loaders convert live l).mapM (loadSubmodule state) mem = (.ok reports,
          (l.flatMap fun e => prefixed e.1 e.2.slots).foldl (writeSlot convert live state) mem) ∧
        (∀ key, key ∈ reports.flatMap fst ↔
          key ∈ (l.flatMap fun e => prefixed e.1 e.2.slots).map fst ∧ key ∉ state) ∧
        ∀ key, key ∈ reports.flatMap snd ↔
          key ∈ state ∧ ∃ e ∈ l, ∃ rest, key = dotted e.1 ++ rest ∧ e.2.Rejects rest) ∧
    (¬ SlotsFit live state (l.flatMap fun e => prefixed e.1 e.2.slots) →
      ∃ e mem', (loaders convert live l).mapM (loadSubmodule state) mem = (.error e, mem')) := by
  induction l generalizing mem with
  | nil =>
    refine ⟨fun _ => ⟨[], rfl, ?_, ?_⟩, fun h => absurd (fun _ hs => absurd hs not_mem_nil) h⟩
    · simp
    · simp
  | cons e l ih =>
    obtain ⟨he, hl⟩ := forall_mem_cons.mp hl
    simp only [flatMap_cons, slotsFit_append]
    have hcons : (loaders convert live (e :: l)).mapM (loadSubmodule state) =
        (do
          let report ← loadSubmodule state (e.1, e.2.loadReport convert live)
          let reports ← (loaders convert live l).mapM (loadSubmodule state)
          return report :: reports) := mapM_cons
    by_cases hfit : SlotsFit live state (prefixed e.1 e.2.slots)
    · obtain ⟨report, hrun, hmissing, hunexpected⟩ := loadSubmodule_ok he hfit
      obtain ⟨hok, herror⟩ := ih hl ((prefixed e.1 e.2.slots).foldl (writeSlot convert live state) mem)
      constructor
      · rintro ⟨-, hrest⟩
        obtain ⟨reports, hruns, hmissings, hunexpecteds⟩ := hok hrest
        refine ⟨report :: reports, ?_, fun key => ?_, fun key => ?_⟩
        · rw [hcons, bind_of_ok hrun, bind_of_ok hruns, foldl_append]
          rfl
        · rw [flatMap_cons, mem_append, hmissing, hmissings, map_append,
            mem_append, or_and_right]
        · rw [flatMap_cons, mem_append, hunexpected, hunexpecteds, ← and_or_left,
            exists_mem_cons_iff]
      · intro hmisfit
        obtain ⟨x, mem', hruns⟩ := herror fun h => hmisfit ⟨hfit, h⟩
        exact ⟨x, mem', by rw [hcons, bind_of_ok hrun, bind_of_error hruns]⟩
    · refine ⟨fun h => absurd h.1 hfit, fun _ => ?_⟩
      obtain ⟨x, mem', hrun⟩ := loadSubmodule_error he hfit
      exact ⟨x, mem', by rw [hcons, bind_of_error hrun]⟩

theorem mem_keys_filter_notMem {d : Dict Key VariableId} :
    key ∈ d.keys.filter (· ∉ state) ↔ key ∈ (Dict.pairs d).map fst ∧ key ∉ state := by
  rw [mem_filter, Dict.map_fst_pairs, decide_eq_true_eq]

/-- The loader of any module writes its slots and reports the keys that it finds missing or
rejects. -/
theorem loads (m : Module) : Loads convert live m := by
  induction m using Module.ofChildren with
  | h parameters buffers submodules items hsub _ =>
    intro state mem
    have hstep : (Module.mk parameters buffers submodules items).loadReport convert live state =
        loadStep convert live parameters buffers (loaders convert live submodules)
          (items.map fun m => m.loadReport convert live) state := by
      rw [Module.loadReport, Module.fold_mk]
      rfl
    have hnames : (loaders convert live submodules).map fst = submodules.map fst := by
      rw [loaders, map_map]
      rfl
    rw [hstep, Module.slots_mk, slotsFit_append, slotsFit_append, loadStep]
    obtain ⟨hfitP, hmisfitP⟩ := forM_loadEntry convert live state "parameter" (Dict.pairs parameters) mem
    by_cases hp : SlotsFit live state (Dict.pairs parameters)
    · rw [bind_of_ok (hfitP hp), and_iff_right hp]
      obtain ⟨hfitB, hmisfitB⟩ := forM_loadEntry convert live state "buffer" (Dict.pairs buffers)
        ((Dict.pairs parameters).foldl (writeSlot convert live state) mem)
      by_cases hb : SlotsFit live state (Dict.pairs buffers)
      · rw [bind_of_ok (hfitB hb), and_iff_right hb]
        obtain ⟨hfitS, hmisfitS⟩ := mapM_loadSubmodule state submodules hsub
          ((Dict.pairs buffers).foldl (writeSlot convert live state)
            ((Dict.pairs parameters).foldl (writeSlot convert live state) mem))
        constructor
        · intro hs
          obtain ⟨reports, hruns, hmissing, hunexpected⟩ := hfitS hs
          refine ⟨(reports.flatMap fst ++ parameters.keys.filter (· ∉ state) ++
              buffers.keys.filter (· ∉ state),
            reports.flatMap snd ++ state.keys.filter fun key =>
              ¬ Consumes parameters buffers ((loaders convert live submodules).map fst) key),
            ?_, fun key => ?_, fun key => ?_⟩
          · rw [bind_of_ok hruns, foldl_append, foldl_append]
            rfl
          · simp only [mem_append, hmissing, mem_keys_filter_notMem, map_append]
            tauto
          · rw [mem_append, hunexpected, mem_filter, decide_eq_true_eq, hnames,
              Module.rejects_mk, AList.mem_keys, ← and_or_left, or_comm]
        · intro hs
          obtain ⟨e, mem', hruns⟩ := hmisfitS hs
          exact ⟨e, mem', bind_of_error hruns⟩
      · refine ⟨fun h => absurd h.1 hb, fun _ => ?_⟩
        obtain ⟨e, mem', hrun⟩ := hmisfitB hb
        exact ⟨e, mem', bind_of_error hrun⟩
    · refine ⟨fun h => absurd h.1.1 hp, fun _ => ?_⟩
      obtain ⟨e, mem', hrun⟩ := hmisfitP hp
      exact ⟨e, mem', bind_of_error hrun⟩

/-! ## Cells -/

/-- The slot that writes a cell last, and the number of the element there. -/
def lastWrite (live : Variables) (slots : List (Key × VariableId)) (c : Cell) :
    Option ((Key × VariableId) × ℕ) :=
  slots.reverse.findSome? fun s => (live.indexOf s.2 c).map (s, ·)

/-- What a slot writes for the element. -/
def written (convert : DType → ℚ → ℚ) (live : Variables) (state : Dict Key StateTensor)
    (e : (Key × VariableId) × ℕ) : ℚ :=
  match state.lookup e.1.1 with
  | some t => (t.cast convert (live.tensor e.1.2).dtype).getD e.2 0
  | none => 0

theorem lastWrite_concat (slots : List (Key × VariableId)) (c : Cell) :
    lastWrite live (slots ++ [s]) c =
      match live.indexOf s.2 c with
      | some i => some (s, i)
      | none => lastWrite live slots c := by
  rw [lastWrite, reverse_append, reverse_singleton, singleton_append, findSome?_cons]
  cases live.indexOf s.2 c <;> rfl

theorem Variables.cell_of_indexOf {c : Cell} {i : ℕ} (h : live.indexOf v c = some i) :
    live.cell v i = c ∧ i < live.numel v :=
  ⟨by simpa using find?_some h, mem_range.mp (mem_of_find?_eq_some h)⟩

theorem mem_of_lastWrite {slots : List (Key × VariableId)} {c : Cell}
    {e : (Key × VariableId) × ℕ} (h : lastWrite live slots c = some e) :
    e.1 ∈ slots ∧ live.indexOf e.1.2 c = some e.2 := by
  obtain ⟨s, hs, hfound⟩ := exists_of_findSome?_eq_some h
  obtain ⟨i, hi, rfl⟩ := Option.map_eq_some_iff.mp hfound
  exact ⟨mem_reverse.mp hs, hi⟩

/-- The last write of a cell decides what is there. -/
theorem foldl_writeSlot_apply (convert : DType → ℚ → ℚ) {slots : List (Key × VariableId)}
    (hkeys : ∀ s ∈ slots, s.1 ∈ state) (mem : Contents) (c : Cell) :
    slots.foldl (writeSlot convert live state) mem c =
      match lastWrite live slots c with
      | some e => written convert live state e
      | none => mem c := by
  induction slots using List.reverseRecOn with
  | nil => rfl
  | append_singleton slots s ih =>
    obtain ⟨hinit, hs⟩ := forall_mem_append.mp hkeys
    obtain ⟨t, ht⟩ := Option.isSome_iff_exists.mp
      (AList.lookup_isSome.mpr (hs s (mem_singleton_self s)))
    rw [List.foldl_concat, lastWrite_concat]
    simp only [writeSlot, ht, Variables.store, Variables.modify, written]
    cases live.indexOf s.2 c with
    | none => exact ih hinit
    | some i => simp only [ht]

/-- `Variable`s with a common cell have the same type. -/
theorem Variables.dtype_of_cell {v w : VariableId} {i j : ℕ}
    (h : live.cell v i = live.cell w j) : (live.tensor v).dtype = (live.tensor w).dtype := by
  unfold Variables.cell at h
  dsimp only at h
  split at h <;> split at h
  · exact live.oneType v w (Cell.element.inj h).1
  · cases h
  · cases h
  · rw [(Cell.value.inj h).1]

/-- The entries of a submodule under its prefix. -/
theorem map_pairs_prefixed (h : Dict.Aligned read (m.stateDict read) m.saved) :
    (Dict.pairs (m.stateDict read)).map (Prod.map (dotted name ++ ·) id) =
      ((Dict.pairs m.saved).map (Prod.map (dotted name ++ ·) id)).map (Prod.map id read) := by
  rw [h, map_map, map_map]
  rfl

theorem Items.named_map {N : Type} (f : M → N) (items : Items M) :
    (items.map f).named = items.named.map fun e => (e.1, f e.2) := by
  cases items <;> simp [Items.map, Items.named, zipIdx_map, Function.comp_def]

theorem Items.mem_named {items : Items M} {e : Key × M} (he : e ∈ items.named) :
    e.2 ∈ items.modules := by
  cases items with
  | none => exact absurd he not_mem_nil
  | sequential modules =>
    obtain ⟨i, hi, rfl⟩ := mem_map.mp he
    exact fst_mem_of_mem_zipIdx hi
  | moduleList modules =>
    obtain ⟨i, hi, rfl⟩ := mem_map.mp he
    exact fst_mem_of_mem_zipIdx hi
  | moduleDict modules => exact mem_map_of_mem he
  | parameterList params => exact absurd he not_mem_nil
  | parameterDict params => exact absurd he not_mem_nil

/-- The entries of several modules, each under its prefix. -/
theorem flatMap_pairs_prefixed {l : List (Key × Module)}
    (h : ∀ e ∈ l, Dict.Aligned read (e.2.stateDict read) e.2.saved) :
    (l.map fun e => (e.1, e.2.stateDict read)).flatMap
        (fun e => (Dict.pairs e.2).map (Prod.map (dotted e.1 ++ ·) id)) =
      ((l.map fun e => (e.1, e.2.saved)).flatMap
        fun e => (Dict.pairs e.2).map (Prod.map (dotted e.1 ++ ·) id)).map (Prod.map id read) := by
  induction l with
  | nil => rfl
  | cons e l ih =>
    obtain ⟨he, hl⟩ := forall_mem_cons.mp h
    simp only [map_cons, flatMap_cons, map_append, ih hl, map_pairs_prefixed he]

/-- Saving commutes with reading the `Variable`s. -/
theorem aligned_stateDict (read : VariableId → β) (m : Module) :
    Dict.Aligned read (m.stateDict read) m.saved := by
  induction m using Module.ofChildren with
  | h parameters buffers submodules items hsub hitems =>
    have hnamed := flatMap_pairs_prefixed fun e he => hitems e.2 (Items.mem_named he)
    rw [← Items.named_map, ← Items.named_map] at hnamed
    have hentries : Module.stateEntries read parameters buffers
          (submodules.map fun e => (e.1, e.2.stateDict read)) (items.map (Module.stateDict read)) =
        (Module.stateEntries id parameters buffers
          (submodules.map fun e => (e.1, e.2.saved)) (items.map Module.saved)).map
            (Prod.map id read) := by
      cases items with
      | none =>
        simp only [Items.map, Module.stateEntries, map_append,
          flatMap_pairs_prefixed hsub, map_map]
        rfl
      | sequential modules => exact hnamed
      | moduleList modules => exact hnamed
      | moduleDict modules => exact hnamed
      | parameterList params =>
        simp only [Items.map, Module.stateEntries, map_map]
        rfl
      | parameterDict params =>
        simp only [Items.map, Module.stateEntries, map_map]
        rfl
    rw [Module.stateDict, Module.saved, Module.stateDict, Module.fold_mk, Module.fold_mk]
    exact hentries ▸ Dict.aligned_ofEntries _

theorem lookup_stateDict (read : VariableId → β) (m : Module) (key : Key) :
    (m.stateDict read).lookup key = (m.saved.lookup key).map read :=
  (aligned_stateDict read m).lookup key

/-! ## Round trips -/

/-- Tensors under a common key have the same shape and the same type. -/
def SameKindsOf (state state' : Dict Key StateTensor) : Prop :=
  ∀ key t t', state.lookup key = some t → state'.lookup key = some t' →
    t.shape = t'.shape ∧ t.dtype = t'.dtype

/-- A strict load of any state with the keys of the module's own restores it, and the load of any
other reports the two differences of the key sets. -/
def LoadsExactly (convert : DType → ℚ → ℚ) (m : Module) (live : Variables) (mem : Contents) : Prop :=
  ∀ state : Dict Key StateTensor, SameKindsOf state (m.stateDict (live.clone mem)) →
    ((∀ key, key ∈ state ↔ key ∈ m.stateDict (live.clone mem)) →
      ∃ mem', m.loadStateDict convert live state true mem = (.ok (), mem') ∧
        ∀ key, (m.stateDict (live.clone mem')).lookup key = state.lookup key) ∧
    (¬ (∀ key, key ∈ state ↔ key ∈ m.stateDict (live.clone mem)) →
      ∃ report mem', m.loadReport convert live state mem = (.ok report, mem') ∧
        m.loadStateDict convert live state true mem =
          (.error (.runtimeError (loadErrors report)), mem') ∧
        (∀ key, key ∈ report.1 ↔ key ∈ m.stateDict (live.clone mem) ∧ key ∉ state) ∧
        ∀ key, key ∈ report.2 ↔ key ∈ state ∧ key ∉ m.stateDict (live.clone mem))

/-- Every slot has a key that is saved and takes what is saved there, no saved key is routed to a
module that rejects it, no saved `Variable` is quantized, and every element of a saved `Variable` is
written last by a slot with its key, as the element that it is. -/
structure Restorable (m : Module) (live : Variables) : Prop where
  saves : ∀ s ∈ m.slots, s.1 ∈ m.saved
  accepts : ∀ key ∈ m.saved, ¬ m.Rejects key
  takes : ∀ s ∈ m.slots, ∀ w, m.saved.lookup s.1 = some w →
    live.Takes s.2 (live.tensor w).shape (live.tensor w).dtype
  plain : ∀ key w, m.saved.lookup key = some w → isQuantized (live.tensor w).dtype = false
  last : ∀ key w, m.saved.lookup key = some w → ∀ i < live.numel w,
    ∃ v, lastWrite live m.slots (live.cell w i) = some ((key, v), i)

theorem mem_stateDict (read : VariableId → β) : key ∈ m.stateDict read ↔ key ∈ m.saved := by
  rw [← AList.lookup_isSome, ← AList.lookup_isSome, lookup_stateDict, Option.isSome_map]

/-- A key without a slot is rejected wherever its prefixes lead. -/
theorem rejects_of_notMem_slots (m : Module) (h : key ∉ m.slots.map fst) : m.Rejects key := by
  induction m using Module.ofChildren generalizing key with
  | h parameters buffers submodules items hsub _ =>
    rw [Module.slots_mk, map_append, map_append, mem_append, mem_append,
      Dict.map_fst_pairs, Dict.map_fst_pairs] at h
    rw [Module.rejects_mk]
    by_cases hc : Consumes parameters buffers (submodules.map fst) key
    · obtain hp | hb | ⟨name, hname, rest, rfl⟩ := hc
      · exact absurd (.inl (.inl hp)) h
      · exact absurd (.inl (.inr hb)) h
      · obtain ⟨e, he, rfl⟩ := mem_map.mp hname
        refine .inr ⟨e, he, rest, rfl, hsub e he fun hrest => h (.inr ?_)⟩
        obtain ⟨s, hs, rfl⟩ := mem_map.mp hrest
        refine mem_map.mpr ⟨(dotted e.1 ++ s.1, s.2), ?_, rfl⟩
        exact mem_flatMap.mpr ⟨e, he, mem_map.mpr ⟨s, hs, rfl⟩⟩
    · exact .inl hc

theorem loadStateDict_of_report {report : KeyReport}
    (h : m.loadReport convert live state mem = (.ok report, mem')) :
    m.loadStateDict convert live state true mem =
      if report.1 ≠ [] ∨ report.2 ≠ [] then (.error (.runtimeError (loadErrors report)), mem')
      else (.ok (), mem') := by
  rw [Module.loadStateDict, bind_of_ok h]
  by_cases hreport : report.1 ≠ [] ∨ report.2 ≠ []
  · rw [if_pos ⟨rfl, hreport⟩, if_pos hreport]
    rfl
  · rw [if_neg fun h => hreport h.2, if_neg hreport]
    rfl

/-- When a strict load returns, and what it leaves. -/
theorem strict_load_ok_iff :
    m.loadStateDict convert live state true mem = (.ok (), mem') ↔
      SlotsFit live state m.slots ∧ (∀ s ∈ m.slots, s.1 ∈ state) ∧
        (∀ key ∈ state, ¬ m.Rejects key) ∧
        mem' = m.slots.foldl (writeSlot convert live state) mem := by
  by_cases hfit : SlotsFit live state m.slots
  · obtain ⟨report, hrun, hmissing, hunexpected⟩ := (loads m state mem).1 hfit
    have hmissing_nil : report.1 = [] ↔ ∀ s ∈ m.slots, s.1 ∈ state := by
      simp only [eq_nil_iff_forall_not_mem, hmissing, not_and, not_not, forall_mem_map]
    have hunexpected_nil : report.2 = [] ↔ ∀ key ∈ state, ¬ m.Rejects key := by
      simp only [eq_nil_iff_forall_not_mem, hunexpected, not_and]
    rw [loadStateDict_of_report hrun, and_iff_right hfit, ← hmissing_nil, ← hunexpected_nil]
    by_cases hreport : report.1 ≠ [] ∨ report.2 ≠ []
    · rw [if_pos hreport]
      constructor
      · exact fun h => absurd (congrArg fst h) nofun
      · exact fun ⟨hm, hu, _⟩ => absurd hreport (by rw [hm, hu]; simp)
    · rw [if_neg hreport]
      rw [not_or, not_not, not_not] at hreport
      constructor
      · exact fun h => ⟨hreport.1, hreport.2, (congrArg snd h).symm⟩
      · exact fun ⟨_, _, h⟩ => by rw [h]
  · obtain ⟨e, mem'', hrun⟩ := (loads m state mem).2 hfit
    have herror : m.loadStateDict convert live state true mem = (.error e, mem'') :=
      bind_of_error hrun
    rw [herror]
    exact iff_of_false (fun h => absurd (congrArg fst h) nofun) fun h => hfit h.1

theorem StateTensor.cast_self (t : StateTensor) : t.cast convert t.dtype = t.data := if_pos rfl

/-- Tensors without quantization are determined by their kind and their elements. -/
theorem StateTensor.eq_of_data {t' : StateTensor} (hplain : isQuantized t.dtype = false)
    (hshape : t.shape = t'.shape) (hdtype : t.dtype = t'.dtype) (hdata : t.data = t'.data) :
    t = t' := by
  have hquant := t.quant_eq hplain
  have hquant' := t'.quant_eq (hdtype ▸ hplain)
  obtain ⟨shape, dtype, data, quant, hlength, hq⟩ := t
  obtain ⟨shape', dtype', data', quant', hlength', hq'⟩ := t'
  subst hshape hdtype hdata hquant hquant'
  rfl

/-- The tensor of a kind with the given elements. -/
def StateTensor.ofFn (shape : List ℕ) (dtype : DType) (f : ℕ → ℚ) : StateTensor where
  shape := shape
  dtype := dtype
  data := (range shape.prod).map f
  length_eq := by rw [length_map, length_range]
  quant_eq := quant_default dtype

theorem StateTensor.getElem?_ofFn {shape : List ℕ} {dtype : DType} {f : ℕ → ℚ} {i : ℕ} :
    (ofFn shape dtype f).data[i]? = if i < shape.prod then some (f i) else none := by
  have hdata : (ofFn shape dtype f).data = (range shape.prod).map f := rfl
  rw [hdata, getElem?_map]
  split
  next hi => rw [getElem?_range hi, map_some]
  next hi => rw [getElem?_eq_none ((length_range).trans_le (not_lt.mp hi)), Option.map_none]

/-- An element of a converted tensor depends on that element alone. -/
theorem StateTensor.getD_cast_congr (convert : DType → ℚ → ℚ) {t t' : StateTensor}
    (hdtype : t.dtype = t'.dtype) {j : ℕ} (h : t.data[j]? = t'.data[j]?) :
    (t.cast convert dtype).getD j 0 = (t'.cast convert dtype).getD j 0 := by
  rw [getD_eq_getElem?_getD, getD_eq_getElem?_getD, cast, cast, hdtype]
  split
  · rw [h]
  · rw [getElem?_map, getElem?_map, h]

theorem Variables.getElem?_clone (live : Variables) (mem : Contents) (v : VariableId) {i : ℕ}
    (hi : i < live.numel v) : (live.clone mem v).data[i]? = some (mem (live.cell v i)) := by
  have hdata : (live.clone mem v).data = (range (live.numel v)).map fun i => mem (live.cell v i) :=
    rfl
  rw [hdata, getElem?_map, getElem?_range hi, map_some]

namespace Restorable

variable {m : Module} (h : Restorable m live) {key : Key}

include h

theorem mem_slots_iff : key ∈ m.slots.map fst ↔ key ∈ m.saved := by
  constructor
  · intro hkey
    obtain ⟨s, hs, rfl⟩ := mem_map.mp hkey
    exact h.saves s hs
  · intro hkey
    by_contra hslot
    exact h.accepts key hkey (rejects_of_notMem_slots m hslot)

theorem rejects_iff : m.Rejects key ↔ key ∉ m.saved := by
  constructor
  · exact fun hrej hkey => h.accepts key hkey hrej
  · exact fun hkey => rejects_of_notMem_slots m (h.mem_slots_iff.not.mpr hkey)

theorem slotsFit (hk : SameKindsOf state (m.stateDict (live.clone mem))) :
    SlotsFit live state m.slots := by
  intro s hs t ht
  obtain ⟨w, hw⟩ := Option.isSome_iff_exists.mp (AList.lookup_isSome.mpr (h.saves s hs))
  have hown : (m.stateDict (live.clone mem)).lookup s.1 = some (live.clone mem w) := by
    rw [lookup_stateDict, hw, map_some]
  obtain ⟨hshape, hdtype⟩ := hk s.1 t _ ht hown
  rw [hshape, hdtype]
  exact h.takes s hs w hw

/-- What is saved after a load of a state with the same keys. -/
theorem lookup_stateDict_foldl (convert : DType → ℚ → ℚ)
    (hk : SameKindsOf state (m.stateDict (live.clone mem)))
    (hkeys : ∀ key, key ∈ state ↔ key ∈ m.stateDict (live.clone mem)) (key : Key) :
    (m.stateDict (live.clone (m.slots.foldl (writeSlot convert live state) mem))).lookup key =
      state.lookup key := by
  rw [lookup_stateDict]
  cases hw : m.saved.lookup key with
  | none =>
    have hnot : key ∉ state := by
      rw [hkeys, mem_stateDict, ← AList.lookup_eq_none, hw]
    rw [AList.lookup_eq_none.mpr hnot, Option.map_none]
  | some w =>
    have hown : (m.stateDict (live.clone mem)).lookup key = some (live.clone mem w) := by
      rw [lookup_stateDict, hw, map_some]
    have hin : key ∈ state := (hkeys key).mpr (AList.lookup_isSome.mp (by rw [hown]; rfl))
    obtain ⟨t, ht⟩ := Option.isSome_iff_exists.mp (AList.lookup_isSome.mpr hin)
    obtain ⟨hshape, hdtype⟩ := hk key t _ ht hown
    have hall : ∀ s ∈ m.slots, s.1 ∈ state := fun s hs =>
      (hkeys s.1).mpr ((mem_stateDict _).mpr (h.saves s hs))
    rw [ht, map_some, some_inj]
    refine StateTensor.eq_of_data (h.plain key w hw) hshape.symm hdtype.symm ?_
    have hlength : t.data.length = live.numel w := by
      rw [t.length_eq, hshape]
      rfl
    refine ext_getElem (by simp [Variables.clone, hlength]) fun i hi hi' => ?_
    obtain ⟨v, hlast⟩ := h.last key w hw i (hlength ▸ hi')
    have hsame := live.dtype_of_cell (Variables.cell_of_indexOf (mem_of_lastWrite hlast).2).1
    simp only [Variables.clone, getElem_map, getElem_range, foldl_writeSlot_apply convert hall,
      hlast, written, ht]
    have hcast : t.dtype = (live.tensor v).dtype := hdtype.trans hsame.symm
    rw [← hcast, StateTensor.cast_self, getD_eq_getElem _ _ hi']

theorem loadsExactly (convert : DType → ℚ → ℚ) (mem : Contents) :
    LoadsExactly convert m live mem := by
  intro state hk
  have hfit := h.slotsFit hk
  constructor
  · intro hkeys
    refine ⟨m.slots.foldl (writeSlot convert live state) mem, ?_,
      h.lookup_stateDict_foldl convert hk hkeys⟩
    have hsaved : ∀ key, key ∈ state ↔ key ∈ m.saved := fun key =>
      (hkeys key).trans (mem_stateDict _)
    exact strict_load_ok_iff.mpr ⟨hfit, fun s hs => (hsaved s.1).mpr (h.saves s hs),
      fun key hkey => h.accepts key ((hsaved key).mp hkey), rfl⟩
  · intro hkeys
    obtain ⟨report, hrun, hmissing, hunexpected⟩ := (loads m state mem).1 hfit
    simp only [h.mem_slots_iff, ← mem_stateDict (live.clone mem)] at hmissing
    simp only [h.rejects_iff, ← mem_stateDict (live.clone mem)] at hunexpected
    refine ⟨report, _, hrun, ?_, hmissing, hunexpected⟩
    rw [loadStateDict_of_report hrun, if_pos]
    by_contra hreport
    rw [not_or, not_not, not_not] at hreport
    refine hkeys fun key => ⟨fun hin => ?_, fun hin => ?_⟩
    · by_contra hout
      exact absurd ((hunexpected key).mpr ⟨hin, hout⟩) (hreport.2 ▸ not_mem_nil)
    · by_contra hout
      exact absurd ((hmissing key).mpr ⟨hin, hout⟩) (hreport.1 ▸ not_mem_nil)

end Restorable

theorem sameKindsOf_insert {own : Dict Key StateTensor} {u : StateTensor}
    (hu : own.lookup key = some u) (hshape : t.shape = u.shape) (hdtype : t.dtype = u.dtype) :
    SameKindsOf (own.insert key t) own := by
  intro k a b ha hb
  by_cases hk : k = key
  · subst hk
    rw [AList.lookup_insert, some_inj] at ha
    rw [hu, some_inj] at hb
    subst ha hb
    exact ⟨hshape, hdtype⟩
  · rw [AList.lookup_insert_ne hk, hb, some_inj] at ha
    subst ha
    exact ⟨rfl, rfl⟩

namespace LoadsExactly

variable {m : Module} (h : LoadsExactly convert m live mem) {key : Key} {w : VariableId}

include h

/-- The module's own state can be loaded. -/
theorem own : ∃ mem', m.loadStateDict convert live (m.stateDict (live.clone mem)) true mem =
    (.ok (), mem') := by
  have hself : SameKindsOf (m.stateDict (live.clone mem)) (m.stateDict (live.clone mem)) := by
    intro key t t' ht ht'
    obtain rfl := Option.some.inj (ht.symm.trans ht')
    exact ⟨rfl, rfl⟩
  obtain ⟨mem', hrun, -⟩ := (h _ hself).1 fun _ => Iff.rfl
  exact ⟨mem', hrun⟩

/-- Under a saved key the module takes any tensor of the right kind. -/
theorem takes (hw : m.saved.lookup key = some w) {t : StateTensor}
    (hshape : t.shape = (live.tensor w).shape) (hdtype : t.dtype = (live.tensor w).dtype) :
    (∀ s ∈ m.slots, s.1 ∈ (m.stateDict (live.clone mem)).insert key t) ∧
      live.clone (m.slots.foldl
        (writeSlot convert live ((m.stateDict (live.clone mem)).insert key t)) mem) w = t := by
  have hown : (m.stateDict (live.clone mem)).lookup key = some (live.clone mem w) := by
    rw [lookup_stateDict, hw, map_some]
  have hkeys : ∀ k, k ∈ (m.stateDict (live.clone mem)).insert key t ↔
      k ∈ m.stateDict (live.clone mem) := by
    intro k
    rw [AList.mem_insert, or_iff_right_of_imp]
    rintro rfl
    exact AList.lookup_isSome.mp (by rw [hown]; rfl)
  obtain ⟨mem', hrun, hlookup⟩ := (h _ (sameKindsOf_insert hown hshape hdtype)).1 hkeys
  obtain ⟨-, hall, -, rfl⟩ := strict_load_ok_iff.mp hrun
  have hkey := hlookup key
  rw [lookup_stateDict, hw, map_some, AList.lookup_insert, some_inj] at hkey
  exact ⟨hall, hkey⟩

/-- A quantization would be lost. -/
theorem plain (hw : m.saved.lookup key = some w) : isQuantized (live.tensor w).dtype = false := by
  by_contra hquantized
  let t : StateTensor := { StateTensor.ofFn (live.tensor w).shape (live.tensor w).dtype 0 with
    quant := { scale := 1 }
    quant_eq := fun hplain => absurd hplain hquantized }
  have hquant := congrArg StateTensor.quant (h.takes hw (t := t) rfl rfl).2
  have hscale : (0 : ℚ) = 1 := congrArg QuantParams.scale hquant
  exact zero_ne_one hscale

/-- The value that a load leaves in an element of a saved `Variable`. -/
theorem written_eq (hw : m.saved.lookup key = some w) (f : ℕ → ℚ) {i : ℕ} (hi : i < live.numel w) :
    (match lastWrite live m.slots (live.cell w i) with
      | some e => written convert live ((m.stateDict (live.clone mem)).insert key
          (StateTensor.ofFn (live.tensor w).shape (live.tensor w).dtype f)) e
      | none => mem (live.cell w i)) = f i := by
  obtain ⟨hall, htakes⟩ := h.takes hw
    (t := StateTensor.ofFn (live.tensor w).shape (live.tensor w).dtype f) rfl rfl
  have hprod : i < (live.tensor w).shape.prod := hi
  have hdata := congrArg (fun t => t.data[i]?) htakes
  rw [Variables.getElem?_clone live _ w hi, StateTensor.getElem?_ofFn, if_pos hprod, some_inj,
    foldl_writeSlot_apply convert hall] at hdata
  exact hdata

/-- Each element is written last under its own key: otherwise it would not matter there. -/
theorem last (hw : m.saved.lookup key = some w) {i : ℕ} (hi : i < live.numel w) :
    ∃ v, lastWrite live m.slots (live.cell w i) = some ((key, v), i) := by
  have hzero := h.written_eq hw (fun _ => 0) hi
  have hone := h.written_eq hw (fun j => if j = i then 1 else 0) hi
  rw [if_pos rfl] at hone
  cases hlast : lastWrite live m.slots (live.cell w i) with
  | none =>
    rw [hlast] at hzero hone
    exact absurd (hzero.symm.trans hone) zero_ne_one
  | some e =>
    obtain ⟨⟨k, v⟩, j⟩ := e
    rw [hlast] at hzero hone
    by_cases hk : k = key
    · subst hk
      refine ⟨v, ?_⟩
      by_cases hj : j = i
      · rw [hj]
      · simp only [written, AList.lookup_insert] at hzero hone
        refine absurd (hzero.symm.trans (Eq.trans ?_ hone)) zero_ne_one
        refine StateTensor.getD_cast_congr convert (by rfl) ?_
        rw [StateTensor.getElem?_ofFn, StateTensor.getElem?_ofFn, if_neg hj]
    · simp only [written, AList.lookup_insert_ne hk] at hzero hone
      exact absurd (hzero.symm.trans hone) zero_ne_one

theorem restorable : Restorable m live := by
  obtain ⟨mem', hrun⟩ := h.own
  obtain ⟨hfit, hsaves, haccepts, -⟩ := strict_load_ok_iff.mp hrun
  constructor
  · exact fun s hs => (mem_stateDict _).mp (hsaves s hs)
  · exact fun key hkey => haccepts key ((mem_stateDict _).mpr hkey)
  · intro s hs w hw
    exact hfit s hs (live.clone mem w) (by rw [lookup_stateDict, hw, map_some])
  · exact fun key w hw => h.plain hw
  · exact fun key w hw i hi => h.last hw hi

end LoadsExactly

/-- The modules whose strict loads restore what is loaded. -/
theorem loadsExactly_iff_restorable (convert : DType → ℚ → ℚ) (m : Module) (live : Variables)
    (mem : Contents) : LoadsExactly convert m live mem ↔ Restorable m live :=
  ⟨LoadsExactly.restorable, fun h => h.loadsExactly convert mem⟩

/-- A child is called `a` and another `a.b`; each has a parameter `w`. -/
def dottedNames : Module :=
  .mk ∅ ∅ [(['a'], .mk (Dict.ofEntries [(['w'], 0)]) ∅ [] .none),
    (['a', '.', 'b'], .mk (Dict.ofEntries [(['w'], 1)]) ∅ [] .none)] .none

/-- Every `Variable` has a storage with one element. -/
def singles : Variables where
  tensor v :=
    { shape := [1], dtype := .float32, storage := v, positions := [0], contiguous := true
      requiresGrad := false, length_positions := rfl, consecutive := fun _ => ⟨0, rfl⟩ }
  oneType _ _ _ := rfl

/-- The key `a.b.w` is routed to `a` as well, which has no `b.w`. -/
theorem not_loadsExactly_dottedNames :
    ¬ LoadsExactly (fun _ x => x) dottedNames singles fun _ => 0 := by
  intro h
  have hrestorable := h.restorable
  have hsaved : ['a', '.', 'b', '.', 'w'] ∈ dottedNames.saved := by decide +kernel
  refine hrestorable.accepts _ hsaved ?_
  rw [dottedNames]
  refine Or.inr ⟨_, mem_cons_self, ['b', '.', 'w'], rfl, ?_⟩
  exact Or.inl (by decide +kernel)

end Tenzor
