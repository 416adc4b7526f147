import Tenzor.Jit.Rewrites
import Mathlib.Algebra.Order.BigOperators.Group.List

/-!
# Adding nodes and constants to a graph

A pass builds a node in steps: it allocates the node, attaches inputs, creates
output values and lists the node at last. `Draft` describes the graph between
these steps, whatever their order, and `Appended` the graph once the node is
listed. An appended node whose output ids are new keeps a graph well formed, and
a solution extends to it when the node returns.
-/

open Function (update update_of_ne update_self)

namespace Tenzor.Jit

open Dataflow List

namespace Graph

variable {T S : Type} {exec : Exec T S} {g k : Graph T S} {v : ValRef} {n : NodeRef}
  {ins outs : List T} {e : ValRef → Option T}

/-- No value the graph refers to has this id, nor does a constant. -/
structure FreshId (g : Graph T S) (id : String) : Prop where
  live : ∀ v, g.Live v → g.idOf v ≠ id
  constant : g.constants id = none

/-! ## Values that may be read -/

/-- A value nodes may be wired to. -/
structure Usable (g : Graph T S) (v : ValRef) : Prop where
  lt : v < g.nextVal
  values : g.values (g.idOf v) = some v
  defined : g.Defined v
  node_mem : ∀ n, (g.valAt v).node = some n → n ∈ g.nodes ∧ v ∈ g.outputsOf n

theorem WellFormed.usable (h : g.WellFormed) (hv : g.Live v) (hd : g.Defined v) : g.Usable v :=
  ⟨h.live_lt v hv, h.values_eq v hv, hd, fun n => h.node_mem v n hv⟩

theorem WellFormed.usable_input (h : g.WellFormed) (hn : n ∈ g.nodes) (hv : v ∈ g.inputsOf n) :
    g.Usable v :=
  h.usable (live_inputsOf hn hv) (h.reads_defined n hn v hv)

theorem WellFormed.usable_output (h : g.WellFormed) (hn : n ∈ g.nodes) (hv : v ∈ g.outputsOf n) :
    g.Usable v :=
  h.usable (live_outputsOf hn hv) (.inr (.inr ⟨n, hn, hv⟩))

theorem WellFormed.usable_outputs (h : g.WellFormed) (hv : v ∈ g.outputs) : g.Usable v :=
  h.usable (live_output hv) (h.outputs_defined v hv)

theorem WellFormed.usable_live (h : g.WellFormed) (hv : g.Live v) : g.Usable v := by
  obtain hv | hv | ⟨n, hn, hv | hv⟩ := hv
  · exact h.usable (live_input hv) (.inl hv)
  · exact h.usable_outputs hv
  · exact h.usable_input hn hv
  · exact h.usable_output hn hv

theorem defined_of_skeleton (hs : k.skeleton = g.skeleton) : k.Defined v ↔ g.Defined v := by
  have hin : k.inputs = g.inputs := eq_of_skeleton hs Graph.inputs fun _ => rfl
  have hc : k.constants = g.constants := eq_of_skeleton hs Graph.constants fun _ => rfl
  have hout : k.outputsOf = g.outputsOf := funext (outputsOf_of_skeleton hs)
  simp only [Defined, hin, hc, hout, idOf_of_skeleton hs, nodes_of_skeleton hs]

/-- What well-formedness says of the nodes, the graph inputs and the outputs of
nodes, whatever the nodes read. -/
structure Framed (g : Graph T S) : Prop where
  nodes_nodup : g.nodes.Nodup
  nodes_lt : ∀ n ∈ g.nodes, n < g.nextNode
  inputs_nodup : g.inputs.Nodup
  outputs_nodup : (g.nodes.flatMap g.outputsOf).Nodup
  input_apart : ∀ v ∈ g.inputs, g.constants (g.idOf v) = none
  output_apart : ∀ n ∈ g.nodes, ∀ v ∈ g.outputsOf n,
    v ∉ g.inputs ∧ g.constants (g.idOf v) = none
  node_eq : ∀ n ∈ g.nodes, ∀ v ∈ g.outputsOf n, (g.valAt v).node = some n
  usable_input : ∀ v ∈ g.inputs, g.Usable v
  usable_output : ∀ n ∈ g.nodes, ∀ v ∈ g.outputsOf n, g.Usable v

theorem WellFormed.framed (h : g.WellFormed) : g.Framed where
  nodes_nodup := h.nodes_nodup
  nodes_lt := h.nodes_lt
  inputs_nodup := h.inputs_nodup
  outputs_nodup := h.outputs_nodup
  input_apart := h.input_apart
  output_apart := h.output_apart
  node_eq := h.node_eq
  usable_input _ hv := h.usable (live_input hv) (.inl hv)
  usable_output _ hn _ hv := h.usable_output hn hv

/-- Inputs and graph outputs that are usable and close no cycle make a frame a
well-formed graph. -/
theorem Framed.rewired (h : g.Framed) (hs : k.skeleton = g.skeleton)
    (hu : k.UsesExact) (hin : ∀ n ∈ g.nodes, ∀ v ∈ k.inputsOf n, g.Usable v)
    (hout : ∀ v ∈ k.outputs, g.Usable v) {rank : NodeRef → Nat}
    (hrank : ∀ n ∈ g.nodes, ∀ v ∈ k.inputsOf n, ∀ m ∈ g.nodes, v ∈ g.outputsOf m →
      rank m < rank n) : k.WellFormed := by
  have hnodes := nodes_of_skeleton hs
  have hinputs : k.inputs = g.inputs := eq_of_skeleton hs Graph.inputs fun _ => rfl
  have hconst : k.constants = g.constants := eq_of_skeleton hs Graph.constants fun _ => rfl
  have hnext : k.nextNode = g.nextNode := eq_of_skeleton hs Graph.nextNode fun _ => rfl
  have houtputs : k.outputsOf = g.outputsOf := funext (outputsOf_of_skeleton hs)
  have hid : k.idOf = g.idOf := funext (idOf_of_skeleton hs)
  have hlive : ∀ v, k.Live v → g.Usable v := by
    rintro v (hv | hv | ⟨n, hn, hv | hv⟩)
    · rw [hinputs] at hv
      exact h.usable_input v hv
    · exact hout v hv
    · rw [hnodes] at hn
      exact hin n hn v hv
    · rw [hnodes] at hn
      rw [houtputs] at hv
      exact h.usable_output n hn v hv
  exact {
    nodes_nodup := by
      rw [hnodes]
      exact h.nodes_nodup
    nodes_lt := by
      rw [hnodes, hnext]
      exact h.nodes_lt
    exact := hu
    values_eq := fun v hv => by
      rw [values_of_skeleton hs, hid]
      exact (hlive v hv).values
    live_lt := fun v hv => by
      rw [nextVal_of_skeleton hs]
      exact (hlive v hv).lt
    inputs_nodup := by
      rw [hinputs]
      exact h.inputs_nodup
    outputs_nodup := by
      rw [hnodes, houtputs]
      exact h.outputs_nodup
    input_apart := by
      rw [hinputs, hconst, hid]
      exact h.input_apart
    output_apart := by
      rw [hnodes, houtputs, hinputs, hconst, hid]
      exact h.output_apart
    node_eq := fun n hn v hv => by
      rw [hnodes] at hn
      rw [houtputs] at hv
      rw [node_of_skeleton hs]
      exact h.node_eq n hn v hv
    node_mem := fun v n hv hp => by
      rw [node_of_skeleton hs] at hp
      rw [hnodes, houtputs]
      exact (hlive v hv).node_mem n hp
    reads_defined := fun n hn v hv => by
      rw [hnodes] at hn
      exact (defined_of_skeleton hs).mpr (hin n hn v hv).defined
    outputs_defined := fun v hv => (defined_of_skeleton hs).mpr (hout v hv).defined
    acyclic := by
      refine ⟨rank, ?_⟩
      unfold Ranked
      rw [hnodes, houtputs]
      exact hrank }

theorem WellFormed.addInput (h : g.WellFormed) {n : NodeRef} (hn : n ∈ g.nodes) {v : ValRef}
    (hv : g.Usable v) {rank : NodeRef → Nat} (hr : g.Ranked rank)
    (hrank : ∀ m ∈ g.nodes, v ∈ g.outputsOf m → rank m < rank n) :
    (g.addInput n v).WellFormed := by
  have hmem : ∀ m w, w ∈ (g.addInput n v).inputsOf m → w ∈ g.inputsOf m ∨ m = n ∧ w = v := by
    intro m w hw
    rw [inputsOf_addInput] at hw
    split_ifs at hw with hm
    · subst hm
      simpa using hw
    · exact .inl hw
  apply h.framed.rewired (skeleton_addInput g n v) (h.exact.addInput hn v)
  · intro m hm w hw
    obtain hw | ⟨-, rfl⟩ := hmem m w hw
    · exact h.usable_input hm hw
    · exact hv
  · exact fun w hw => h.usable_outputs hw
  · intro m hm w hw m' hm' hwm
    obtain hw | ⟨rfl, rfl⟩ := hmem m w hw
    · exact hr m hm w hw m' hm' hwm
    · exact hrank m' hm' hwm

/-- A tensor for each value such that inputs, constants and the equation of every
node agree with it. -/
structure Assigns (exec : Exec T S) (g : Graph T S) (ins outs : List T)
    (e : ValRef → Option T) : Prop where
  inputs : ∀ (i : Nat) v, g.inputs[i]? = some v → e v = ins[i]?
  constants : ∀ v t, g.Live v → g.constants (g.idOf v) = some t → e v = some t
  nodes : ∀ n ∈ g.nodes, ∃ xs ys, (g.inputsOf n).map e = xs.map some ∧
    exec n (g.codeOf n) xs = .ok ys ∧
    ∀ (i : Nat) v, (g.outputsOf n)[i]? = some v → e v = ys[i]?
  outputs : g.outputs.map e = outs.map some

/-- The equation of a node, by address. -/
theorem holds_stmt_iff {E : Store String T} :
    (g.stmt exec n).Holds E ↔ ∃ xs ys, (g.inputsOf n).map (fun v => E (g.idOf v)) = xs.map some ∧
      exec n (g.codeOf n) xs = .ok ys ∧
      ∀ (i : Nat) v, (g.outputsOf n)[i]? = some v → E (g.idOf v) = ys[i]? := by
  constructor
  · rintro ⟨xs, ys, hxs, hys, hw⟩
    refine ⟨xs, ys, ?_, hys, fun i v hv => hw i (g.idOf v) ?_⟩
    · rw [← hxs]
      simp [stmt]
    · simp [stmt, hv]
  · rintro ⟨xs, ys, hxs, hys, hw⟩
    refine ⟨xs, ys, ?_, hys, fun i w hi => ?_⟩
    · rw [← hxs]
      simp [stmt]
    · simp only [stmt, getElem?_map, Option.map_eq_some_iff] at hi
      obtain ⟨v, hv, rfl⟩ := hi
      exact hw i v hv

theorem assigns_of_yields (h : g.WellFormed) (hy : g.Yields exec ins outs) :
    ins.length = g.inputs.length ∧ ∃ e, g.Assigns exec ins outs e := by
  obtain ⟨hlen, E, hE, houts⟩ := hy
  refine ⟨hlen, fun v => E (g.idOf v), ?_⟩
  constructor
  · intro i v hv
    have hlt : i < ins.length := hlen ▸ (List.getElem?_eq_some_iff.mp hv).1
    have hinit := initial_input h hlen hv
    rw [getElem?_eq_getElem hlt] at hinit ⊢
    exact hE.init _ _ hinit
  · intro v t hv ht
    have hnot : v ∉ g.inputs := fun hin => by simp [h.input_apart v hin] at ht
    apply hE.init
    rw [initial_of_not_input h hv hnot, ht]
  · intro n hn
    exact holds_stmt_iff.mp (hE.holds _ (mem_map_of_mem hn))
  · rw [← houts, map_map]
    rfl

theorem yields_of_assigns (h : g.WellFormed) (hlen : ins.length = g.inputs.length)
    (he : g.Assigns exec ins outs e) : g.Yields exec ins outs := by
  classical
  let E : Store String T := fun i =>
    if hv : ∃ v, g.Live v ∧ g.idOf v = i then e hv.choose else g.initial ins i
  have hE : ∀ v, g.Live v → E (g.idOf v) = e v := by
    intro v hv
    have hex : ∃ w, g.Live w ∧ g.idOf w = g.idOf v := ⟨v, hv, rfl⟩
    have hch : hex.choose = v := h.id_inj hex.choose_spec.1 hv hex.choose_spec.2
    simp only [E, dif_pos hex, hch]
  refine ⟨hlen, E, ⟨fun i x hi => ?_, fun s hs => ?_⟩, ?_⟩
  · by_cases hex : ∃ v, g.Live v ∧ g.idOf v = i
    · obtain ⟨v, hv, rfl⟩ := hex
      rw [hE v hv]
      by_cases hin : v ∈ g.inputs
      · obtain ⟨j, hj⟩ := getElem?_of_mem hin
        rw [initial_input h hlen hj] at hi
        rw [he.inputs j v hj, hi]
      · rw [initial_of_not_input h hv hin] at hi
        exact he.constants v x hv hi
    · simp only [E, dif_neg hex, hi]
  · obtain ⟨n, hn, rfl⟩ := mem_map.mp hs
    obtain ⟨xs, ys, hxs, hys, hw⟩ := he.nodes n hn
    refine holds_stmt_iff.mpr ⟨xs, ys, ?_, hys, fun i v hv => ?_⟩
    · rw [← hxs]
      exact map_congr_left fun v hv => hE v (live_inputsOf hn hv)
    · rw [hE v (live_outputsOf hn (mem_of_getElem? hv))]
      exact hw i v hv
  · rw [← he.outputs, map_map]
    exact map_congr_left fun v hv => hE v (live_output hv)

/-! ## Redirecting several values and dropping nodes -/

section Substitute

variable {olds : List ValRef} {v new : ValRef}

/-- Readers of every value of `olds` read `new`. -/
def redirectAny (olds : List ValRef) (new v : ValRef) : ValRef := if v ∈ olds then new else v

theorem redirectAny_of_mem (new : ValRef) (hv : v ∈ olds) :
    redirectAny olds new v = new := if_pos hv

theorem redirectAny_of_not_mem (new : ValRef) (hv : v ∉ olds) :
    redirectAny olds new v = v := if_neg hv

theorem redirectAny_cons {old : ValRef} (hnew : new ∉ olds) (v : ValRef) :
    redirectAny olds new (redirect old new v) = redirectAny (old :: olds) new v := by
  by_cases hv : v = old
  · subst hv
    simp [redirectAny, hnew]
  · simp [redirectAny, redirect, hv]

/-- `replace_value` from each of the values to one other. -/
def redirectAll (g : Graph T S) (olds : List ValRef) (new : ValRef) : Graph T S :=
  g.replaceValues (olds.map fun old => (g.idOf old, g.idOf new))

theorem redirectAll_cons (g : Graph T S) (old new : ValRef) (olds : List ValRef) :
    g.redirectAll (old :: olds) new =
      (g.replaceValue (g.idOf old) (g.idOf new)).redirectAll olds new := by
  have hid : (g.replaceValue (g.idOf old) (g.idOf new)).idOf = g.idOf :=
    funext (idOf_of_skeleton (skeleton_replaceValue g _ _))
  rw [redirectAll, redirectAll, hid]
  rfl

/-- Names found under their own id are told apart by it. -/
def Named (g : Graph T S) (v : ValRef) : Prop := g.values (g.idOf v) = some v

theorem Named.id_inj {w : ValRef} (hv : g.Named v) (hw : g.Named w) (he : g.idOf v = g.idOf w) :
    v = w := by
  unfold Named at hv hw
  rw [he, hw] at hv
  exact (Option.some.inj hv).symm

theorem redirectAll_spec (hu : g.UsesExact) (hin : ∀ n ∈ g.nodes, ∀ v ∈ g.inputsOf n, g.Named v)
    (hout : ∀ v ∈ g.outputs, g.Named v) (holds : ∀ v ∈ olds, g.Named v) (hnamed : g.Named new)
    (hnew : new ∉ olds) :
    (g.redirectAll olds new).skeleton = g.skeleton ∧ (g.redirectAll olds new).UsesExact ∧
      (∀ n ∈ g.nodes, (g.redirectAll olds new).inputsOf n =
        (g.inputsOf n).map (redirectAny olds new)) ∧
      (g.redirectAll olds new).outputs = g.outputs.map (redirectAny olds new) := by
  induction olds generalizing g with
  | nil =>
    have hnil : redirectAny [] new = id := funext fun v => by simp [redirectAny]
    simp only [hnil, map_id]
    exact ⟨rfl, hu, fun _ _ => rfl, rfl⟩
  | cons old olds ih =>
    have hne : new ≠ old := fun he => hnew (by simp [he])
    have hnew' : new ∉ olds := fun hm => hnew (by simp [hm])
    have hold := holds old (by simp)
    have hids : g.idOf new ≠ g.idOf old := fun he => hne (hnamed.id_inj hold he)
    obtain ⟨hrep, hro⟩ := replaceValue_spec hu hold hnamed hne hids
      (fun n hn x hx => ⟨fun he => (hin n hn x hx).id_inj hold he, fun he => by rw [he]⟩)
    generalize hk : g.replaceValue (g.idOf old) (g.idOf new) = k at hrep hro
    have hs := hrep.skeleton
    have hname : ∀ v, g.Named v → k.Named v := by
      intro v hv
      unfold Named
      rw [values_of_skeleton hs, idOf_of_skeleton hs]
      exact hv
    have hred : ∀ v, g.Named v → k.Named (redirect old new v) := by
      intro v hv
      unfold redirect
      split_ifs
      · exact hname new hnamed
      · exact hname v hv
    have hro' : k.outputs = g.outputs.map (redirect old new) := by
      rw [hro]
      apply map_congr_left
      intro o ho
      have hiff : g.idOf o = g.idOf old ↔ o = old :=
        ⟨fun he => (hout o ho).id_inj hold he, fun he => by rw [he]⟩
      simp only [redirect, hiff]
    have hin' : ∀ n ∈ k.nodes, ∀ v ∈ k.inputsOf n, k.Named v := by
      intro n hn v hv
      rw [nodes_of_skeleton hs] at hn
      rw [hrep.inputsOf n hn] at hv
      obtain ⟨w, hw, rfl⟩ := mem_map.mp hv
      exact hred w (hin n hn w hw)
    have hout' : ∀ v ∈ k.outputs, k.Named v := by
      intro v hv
      rw [hro'] at hv
      obtain ⟨w, hw, rfl⟩ := mem_map.mp hv
      exact hred w (hout w hw)
    obtain ⟨hsk, hex, hi, ho⟩ := ih hrep.exact hin' hout'
      (fun v hv => hname v (holds v (by simp [hv]))) (hname new hnamed) hnew'
    have hcomp : redirectAny olds new ∘ redirect old new = redirectAny (old :: olds) new :=
      funext (redirectAny_cons hnew')
    rw [redirectAll_cons, hk]
    refine ⟨hsk.trans hs, hex, fun n hn => ?_, ?_⟩
    · rw [hi n (by rwa [nodes_of_skeleton hs]), hrep.inputsOf n hn, map_map, hcomp]
    · rw [ho, hro', map_map, hcomp]

/-- Redirect the readers of `olds` to `new`, then drop the nodes `ds`. -/
def substitute (g : Graph T S) (olds : List ValRef) (new : ValRef) (ds : List NodeRef) :
    Graph T S :=
  (g.redirectAll olds new).removeNodes ds

/-- What is left after a substitution. -/
structure Substituted (g k : Graph T S) (olds : List ValRef) (new : ValRef) (ds : List NodeRef) :
    Prop where
  rewiring : Rewiring g k (g.nodes.filter (· ∉ ds))
  inputsOf : ∀ n ∈ g.nodes, k.inputsOf n = (g.inputsOf n).map (redirectAny olds new)
  outputs : k.outputs = g.outputs.map (redirectAny olds new)

theorem WellFormed.named (h : g.WellFormed) (hv : g.Live v) : g.Named v :=
  h.values_eq v hv

theorem WellFormed.substituted (h : g.WellFormed) (holds : ∀ v ∈ olds, g.Live v)
    (hlive : g.Live new) (hnew : new ∉ olds) (ds : List NodeRef) :
    Substituted g (g.substitute olds new ds) olds new ds := by
  obtain ⟨hs, hu, hi, ho⟩ := redirectAll_spec h.exact
    (fun n hn v hv => h.named (live_inputsOf hn hv)) (fun v hv => h.named (live_output hv))
    (fun v hv => h.named (holds v hv)) (h.named hlive) hnew
  have hnodes := nodes_of_skeleton hs
  obtain ⟨hds, hdo, hdi, hdu⟩ := removeNodes_spec (g.redirectAll olds new) ds
  have hnd : (g.redirectAll olds new).nodes.Nodup := by
    rw [hnodes]
    exact h.nodes_nodup
  refine ⟨⟨?_, filter_sublist, hdu hnd hu⟩, fun n hn => ?_, ?_⟩
  · rw [substitute, hds, hnodes, h.nodes_nodup.sdiff_eq_filter]
    have hframe : ∀ k : Graph T S, ({ k with nodes := g.nodes.filter (· ∉ ds) } : Graph T S).skeleton =
        { k.skeleton with nodes := g.nodes.filter (· ∉ ds) } := fun _ => rfl
    rw [hframe, hframe, hs]
  · rw [substitute, hdi, hi n hn]
  · rw [substitute, hdo, ho]

/-- A substitution keeps the graph well formed when the nodes left read nothing
that a dropped node produces, and no cycle arises. -/
theorem WellFormed.substitute (h : g.WellFormed) {ds : List NodeRef} (holds : ∀ v ∈ olds, g.Live v)
    (hlive : g.Live new)
    (hdef : g.Defined new) (hnew : new ∉ olds)
    (hnewleft : ∀ m ∈ g.nodes, new ∈ g.outputsOf m → m ∉ ds)
    (hreads : ∀ n ∈ g.nodes, n ∉ ds → ∀ v ∈ g.inputsOf n, v ∉ olds → ∀ m ∈ g.nodes,
      v ∈ g.outputsOf m → m ∉ ds)
    (houts : ∀ v ∈ g.outputs, v ∉ olds → ∀ m ∈ g.nodes, v ∈ g.outputsOf m → m ∉ ds)
    {rank : NodeRef → Nat}
    (hrank : ∀ n ∈ g.nodes, n ∉ ds → ∀ v ∈ g.inputsOf n, ∀ m ∈ g.nodes, m ∉ ds →
      redirectAny olds new v ∈ g.outputsOf m → rank m < rank n) :
    (g.substitute olds new ds).WellFormed := by
  obtain ⟨r, hi, ho⟩ := h.substituted holds hlive hnew ds
  have hleft : ∀ n, n ∈ g.nodes.filter (· ∉ ds) ↔ n ∈ g.nodes ∧ n ∉ ds := by simp
  have hkept : ∀ v, g.Live v → g.Defined v →
      (v ∉ olds → ∀ m ∈ g.nodes, v ∈ g.outputsOf m → m ∉ ds) →
      Kept g (g.nodes.filter (· ∉ ds)) (redirectAny olds new v) := by
    intro v hv hd hm
    unfold redirectAny
    split_ifs with hmem
    · exact ⟨hlive, hdef, fun m hmn hvm => (hleft m).mpr ⟨hmn, hnewleft m hmn hvm⟩⟩
    · exact ⟨hv, hd, fun m hmn hvm => (hleft m).mpr ⟨hmn, hm hmem m hmn hvm⟩⟩
  apply r.wellFormed h
  · intro n hn v hv
    obtain ⟨hn, hnd⟩ := (hleft n).mp hn
    rw [hi n hn] at hv
    obtain ⟨w, hw, rfl⟩ := mem_map.mp hv
    exact hkept w (live_inputsOf hn hw) (h.reads_defined n hn w hw)
      fun hmem m hm hvm => hreads n hn hnd w hw hmem m hm hvm
  · intro v hv
    rw [ho] at hv
    obtain ⟨w, hw, rfl⟩ := mem_map.mp hv
    exact hkept w (live_output hw) (h.outputs_defined w hw)
      fun hmem m hm hvm => houts w hw hmem m hm hvm
  · intro n hn v hv m hm hvm
    obtain ⟨hn, hnd⟩ := (hleft n).mp hn
    obtain ⟨hm, hmd⟩ := (hleft m).mp hm
    rw [hi n hn] at hv
    obtain ⟨w, hw, rfl⟩ := mem_map.mp hv
    exact hrank n hn hnd w hw m hm hmd hvm

end Substitute

/-- `k` is `g` with one more node, not listed yet: it has this code, these inputs
and one new output value for each of the ids. -/
structure Draft (g k : Graph T S) (code : NodeCode T S) (ins : List ValRef)
    (ids : List String) : Prop where
  nodes : k.nodes = g.nodes
  nextNode : k.nextNode = g.nextNode + 1
  nextVal : k.nextVal = g.nextVal + ids.length
  nodeAt : ∀ m, m ≠ g.nextNode → k.nodeAt m = g.nodeAt m
  inputsOf : k.inputsOf g.nextNode = ins
  outputsOf : k.outputsOf g.nextNode = (List.range ids.length).map (g.nextVal + ·)
  codeOf : k.codeOf g.nextNode = code
  idOf : ∀ v < g.nextVal, k.idOf v = g.idOf v
  node : ∀ v < g.nextVal, (k.valAt v).node = (g.valAt v).node
  newId : ∀ (i : Nat) (id : String), ids[i]? = some id → k.idOf (g.nextVal + i) = id
  newNode : ∀ i < ids.length, (k.valAt (g.nextVal + i)).node = some g.nextNode
  uses : ∀ v m, (k.usesOf v).count m =
    (g.usesOf v).count m + if m = g.nextNode then ins.count v else 0
  values : ∀ id, id ∉ ids → k.values id = g.values id
  newValue : ∀ (i : Nat) (id : String), ids[i]? = some id → k.values id = some (g.nextVal + i)
  inputs : k.inputs = g.inputs
  outputs : k.outputs = g.outputs
  constants : k.constants = g.constants

/-- Nothing refers to an address that has not been handed out. -/
theorem WellFormed.usesOf_nextVal (h : g.WellFormed) (hv : g.nextVal ≤ v) : g.usesOf v = [] := by
  apply eq_nil_iff_forall_not_mem.mpr
  intro n hn
  obtain ⟨hn, hv'⟩ := h.exact.mem_usesOf_iff.mp hn
  have hlt := h.live_lt v (live_inputsOf hn hv')
  exact absurd hlt (Nat.not_lt.mpr hv)

namespace Draft

variable {code : NodeCode T S} {ins : List ValRef} {ids : List String}

theorem createNode (g : Graph T S) (op : OpType) (name : String) :
    Draft g (g.createNode op name).2 { opType := op } [] [] := by
  constructor
  case nodeAt =>
    intro m hm
    simp [Graph.createNode, setNode, hm]
  case uses =>
    simp [Graph.createNode, setNode, usesOf]
  all_goals simp [Graph.createNode, setNode, Graph.inputsOf, Graph.outputsOf, Graph.codeOf, Graph.idOf]

theorem setAttrs (d : Draft g k code ins ids) (a : Attrs T) :
    Draft g (k.setNode g.nextNode { k.nodeAt g.nextNode with attrs := a })
      { code with attrs := a } ins ids := by
  constructor
  case nodeAt =>
    intro m hm
    simpa [setNode, hm] using d.nodeAt m hm
  case inputsOf => simpa [setNode, Graph.inputsOf] using d.inputsOf
  case outputsOf => simpa [setNode, Graph.outputsOf] using d.outputsOf
  case codeOf =>
    have hcode := d.codeOf
    unfold Graph.codeOf at hcode
    simp only [setNode, Graph.codeOf, update_self, hcode]
  case uses => exact d.uses
  case idOf => exact d.idOf
  case node => exact d.node
  case newId => exact d.newId
  case newNode => exact d.newNode
  case values => exact d.values
  case newValue => exact d.newValue
  case nodes => exact d.nodes
  case nextNode => exact d.nextNode
  case nextVal => exact d.nextVal
  case inputs => exact d.inputs
  case outputs => exact d.outputs
  case constants => exact d.constants

theorem addInput (d : Draft g k code ins ids) (v : ValRef) :
    Draft g (k.addInput g.nextNode v) code (ins ++ [v]) ids := by
  have hs := skeleton_addInput k g.nextNode v
  constructor
  case nodeAt =>
    intro m hm
    have hk : (k.addInput g.nextNode v).nodeAt m = k.nodeAt m := by
      simp [Graph.addInput, addUse, setVal, setNode, hm]
    rw [hk, d.nodeAt m hm]
  case inputsOf => rw [inputsOf_addInput, if_pos rfl, d.inputsOf]
  case outputsOf => rw [outputsOf_of_skeleton hs, d.outputsOf]
  case codeOf => rw [codeOf_of_skeleton hs, d.codeOf]
  case uses =>
    intro w m
    rw [count_addInput, d.uses w m, count_append]
    by_cases hm : m = g.nextNode
    · by_cases hw : w = v
      · simp [hm, hw]
        omega
      · simp [hm, hw, Ne.symm hw]
    · simp [hm]
  case idOf =>
    intro w hw
    rw [idOf_of_skeleton hs, d.idOf w hw]
  case node =>
    intro w hw
    rw [node_of_skeleton hs, d.node w hw]
  case newId =>
    intro i id hi
    rw [idOf_of_skeleton hs, d.newId i id hi]
  case newNode =>
    intro i hi
    rw [node_of_skeleton hs, d.newNode i hi]
  case values => exact d.values
  case newValue => exact d.newValue
  case nodes => exact d.nodes
  case nextNode => exact d.nextNode
  case nextVal => exact d.nextVal
  case inputs => exact d.inputs
  case outputs => exact d.outputs
  case constants => exact d.constants

theorem addInputs (d : Draft g k code ins ids) (vs : List ValRef) :
    Draft g (vs.foldl (fun h v => h.addInput g.nextNode v) k) code (ins ++ vs) ids := by
  induction vs generalizing k ins with
  | nil => simpa using d
  | cons v vs ih =>
    have hstep := ih (d.addInput v)
    simpa using hstep

theorem createOutput (h : g.WellFormed) (d : Draft g k code ins ids)
    (hins : ∀ v ∈ ins, v < g.nextVal) {id : String} (hid : id ∉ ids) (shape : List Int)
    (dtype : DType) :
    Draft g ((k.createValue id shape dtype).2.addOutput g.nextNode k.nextVal) code ins
      (ids ++ [id]) := by
  have hnv : (k.nextVal : Nat) = g.nextVal + ids.length := d.nextVal
  have hne : ∀ v : Nat, v < g.nextVal + ids.length → v ≠ k.nextVal :=
    fun v hv => Nat.ne_of_lt (hnv ▸ hv)
  have hval : ∀ v, v ≠ k.nextVal →
      (((k.createValue id shape dtype).2.addOutput g.nextNode k.nextVal).valAt v) = k.valAt v := by
    intro v hv
    simp [createValue, addOutput, setVal, setNode, hv]
  have hnew : (((k.createValue id shape dtype).2.addOutput g.nextNode k.nextVal).valAt k.nextVal) =
      { id := id, shape := shape, dtype := dtype, node := some g.nextNode } := by
    simp [createValue, addOutput, setVal, setNode]
  have hget : ∀ (i : Nat) (id' : String), (ids ++ [id])[i]? = some id' →
      ids[i]? = some id' ∧ i < ids.length ∨ i = ids.length ∧ id' = id := by
    intro i id' hi
    obtain hlt | hge := Nat.lt_or_ge i ids.length
    · rw [getElem?_append_left hlt] at hi
      exact .inl ⟨hi, hlt⟩
    · rw [getElem?_append_right hge] at hi
      obtain ⟨hz, he⟩ := List.getElem?_eq_some_iff.mp hi
      simp only [length_singleton, Nat.lt_one_iff] at hz
      refine .inr ⟨by omega, ?_⟩
      simpa [hz] using he.symm
  constructor
  case nodes => exact d.nodes
  case nextNode => exact d.nextNode
  case nextVal =>
    rw [length_append, ← Nat.add_assoc, ← hnv]
    rfl
  case nodeAt =>
    intro m hm
    rw [← d.nodeAt m hm]
    simp [createValue, addOutput, setVal, setNode, hm]
  case inputsOf =>
    rw [← d.inputsOf]
    simp [createValue, addOutput, setVal, setNode, Graph.inputsOf]
  case outputsOf =>
    have hout := d.outputsOf
    unfold Graph.outputsOf at hout
    simp only [createValue, addOutput, setVal, setNode, Graph.outputsOf, update_self, hout,
      length_append, length_singleton, range_succ, map_append, hnv]
    rfl
  case codeOf =>
    rw [← d.codeOf]
    simp [createValue, addOutput, setVal, setNode, Graph.codeOf]
  case idOf =>
    intro v hv
    rw [Graph.idOf, hval v (hne v (Nat.lt_add_right _ hv))]
    exact d.idOf v hv
  case node =>
    intro v hv
    rw [hval v (hne v (Nat.lt_add_right _ hv))]
    exact d.node v hv
  case newId =>
    intro i id' hi
    obtain ⟨hi, hlt⟩ | ⟨rfl, rfl⟩ := hget i id' hi
    · rw [Graph.idOf, hval _ (hne _ (Nat.add_lt_add_left hlt _))]
      exact d.newId i id' hi
    · rw [Graph.idOf, ← hnv, hnew]
  case newNode =>
    intro i hi
    simp only [length_append, length_singleton] at hi
    by_cases hlt : i < ids.length
    · rw [hval _ (hne _ (Nat.add_lt_add_left hlt _))]
      exact d.newNode i hlt
    · have hi' : i = ids.length := by omega
      rw [hi', ← hnv, hnew]
  case uses =>
    intro v m
    by_cases hv : v = k.nextVal
    · have hle : g.nextVal ≤ v := hv ▸ hnv ▸ Nat.le_add_right _ _
      have hnil : g.usesOf v = [] := h.usesOf_nextVal hle
      have hnot : v ∉ ins := fun hmem => absurd (hins v hmem) (Nat.not_lt.mpr hle)
      rw [Graph.usesOf, hv, hnew, ← hv, hnil]
      simp [count_eq_zero_of_not_mem hnot]
    · rw [Graph.usesOf, hval v hv]
      exact d.uses v m
  case values =>
    intro id' hid'
    rw [mem_append, mem_singleton, not_or] at hid'
    rw [← d.values id' hid'.1]
    simp [createValue, addOutput, setVal, setNode, hid'.2]
  case newValue =>
    intro i id' hi
    obtain ⟨hi, hlt⟩ | ⟨rfl, rfl⟩ := hget i id' hi
    · have hne' : id' ≠ id := fun he => hid (he ▸ mem_of_getElem? hi)
      rw [← d.newValue i id' hi]
      simp [createValue, addOutput, setVal, setNode, hne']
    · rw [← hnv]
      simp [createValue, addOutput, setVal, setNode]
  case inputs => exact d.inputs
  case outputs => exact d.outputs
  case constants => exact d.constants

section AddNode

variable (h : g.WellFormed) (d : Draft g k code ins ids) {m : NodeRef} {v : ValRef}

include h d

theorem nodeAt_of_mem (hm : m ∈ g.nodes) : k.nodeAt m = g.nodeAt m :=
  d.nodeAt m (Nat.ne_of_lt (h.nodes_lt m hm))

theorem inputsOf_of_mem (hm : m ∈ g.nodes) : k.inputsOf m = g.inputsOf m := by
  rw [Graph.inputsOf, d.nodeAt_of_mem h hm]
  rfl

theorem outputsOf_of_mem (hm : m ∈ g.nodes) : k.outputsOf m = g.outputsOf m := by
  rw [Graph.outputsOf, d.nodeAt_of_mem h hm]
  rfl

theorem codeOf_of_mem (hm : m ∈ g.nodes) : k.codeOf m = g.codeOf m := by
  rw [Graph.codeOf, d.nodeAt_of_mem h hm]
  rfl

omit h in
theorem mem_addNode : m ∈ (k.addNode g.nextNode).nodes ↔ m ∈ g.nodes ∨ m = g.nextNode := by
  simp [addNode, d.nodes]

omit h in
theorem mem_outputsOf_nextNode :
    v ∈ k.outputsOf g.nextNode ↔ ∃ i < ids.length, v = g.nextVal + i := by
  rw [d.outputsOf, mem_map]
  constructor
  · rintro ⟨i, hi, rfl⟩
    exact ⟨i, mem_range.mp hi, rfl⟩
  · rintro ⟨i, hi, rfl⟩
    exact ⟨i, mem_range.mpr hi, rfl⟩

/-- A value of the new graph is one of the old graph, an input of the new node or
one of its outputs. -/
theorem live_addNode (hv : (k.addNode g.nextNode).Live v) :
    g.Live v ∨ v ∈ ins ∨ v ∈ k.outputsOf g.nextNode := by
  obtain hv | hv | ⟨n, hn, hv⟩ := hv
  · exact .inl (live_input (d.inputs ▸ hv))
  · exact .inl (live_output (d.outputs ▸ hv))
  · obtain hn | rfl := d.mem_addNode.mp hn
    · have hmem : v ∈ g.inputsOf n ∨ v ∈ g.outputsOf n := by
        rw [← d.inputsOf_of_mem h hn, ← d.outputsOf_of_mem h hn]
        exact hv
      exact .inl (.inr (.inr ⟨n, hn, hmem⟩))
    · exact .inr (hv.imp_left fun hv => d.inputsOf ▸ hv)

theorem defined_addNode (hv : v < g.nextVal) (hd : g.Defined v) :
    (k.addNode g.nextNode).Defined v := by
  obtain hd | hd | ⟨n, hn, hvn⟩ := hd
  · exact .inl (d.inputs.symm ▸ hd)
  · refine .inr (.inl ?_)
    change k.constants (k.idOf v) ≠ none
    rw [d.constants, d.idOf v hv]
    exact hd
  · refine .inr (.inr ⟨n, d.mem_addNode.mpr (.inl hn), ?_⟩)
    change v ∈ k.outputsOf n
    rwa [d.outputsOf_of_mem h hn]

theorem usesExact_addNode : (k.addNode g.nextNode).UsesExact := by
  intro v m
  change (k.usesOf v).count m = if m ∈ (k.addNode g.nextNode).nodes then (k.inputsOf m).count v else 0
  rw [d.uses v m, h.exact v m]
  simp only [d.mem_addNode]
  by_cases hm : m = g.nextNode
  · subst hm
    have hnot : g.nextNode ∉ g.nodes := fun hmem => Nat.lt_irrefl _ (h.nodes_lt _ hmem)
    simp [hnot, d.inputsOf]
  · by_cases hmem : m ∈ g.nodes
    · simp [hm, hmem, d.inputsOf_of_mem h hmem]
    · simp [hm, hmem]

/-- A value that may be read before may be read after, unless a new value takes its id. -/
theorem usable_old (hu : g.Usable v) (hid : g.idOf v ∉ ids) : (k.addNode g.nextNode).Usable v := by
  constructor
  case lt =>
    change v < k.nextVal
    rw [d.nextVal]
    exact Nat.lt_add_right _ hu.lt
  case values =>
    change k.values (k.idOf v) = some v
    rw [d.idOf v hu.lt, d.values _ hid, hu.values]
  case defined => exact d.defined_addNode h hu.lt hu.defined
  case node_mem =>
    intro n hn
    change (k.valAt v).node = some n at hn
    rw [d.node v hu.lt] at hn
    obtain ⟨hn, hvn⟩ := hu.node_mem n hn
    refine ⟨d.mem_addNode.mpr (.inl hn), ?_⟩
    change v ∈ k.outputsOf n
    rwa [d.outputsOf_of_mem h hn]

omit h in
theorem usable_new (hv : v ∈ k.outputsOf g.nextNode) : (k.addNode g.nextNode).Usable v := by
  obtain ⟨i, hi, rfl⟩ := d.mem_outputsOf_nextNode.mp hv
  have hi' : ids[i]? = some ids[i] := getElem?_eq_getElem hi
  constructor
  case lt =>
    change _ < k.nextVal
    rw [d.nextVal]
    exact Nat.add_lt_add_left hi _
  case values =>
    change k.values (k.idOf (g.nextVal + i)) = some (g.nextVal + i)
    rw [d.newId i _ hi', d.newValue i _ hi']
  case defined => exact .inr (.inr ⟨_, d.mem_addNode.mpr (.inr rfl), hv⟩)
  case node_mem =>
    intro n hn
    obtain rfl := Option.some.inj ((d.newNode i hi).symm.trans hn)
    exact ⟨d.mem_addNode.mpr (.inr rfl), hv⟩

theorem usable_addNode (hins : ∀ v ∈ ins, g.Usable v) (hfresh : ∀ id ∈ ids, g.FreshId id)
    (hv : (k.addNode g.nextNode).Live v) : (k.addNode g.nextNode).Usable v := by
  obtain hv | hv | hv := d.live_addNode h hv
  · exact d.usable_old h (h.usable_live hv) fun hmem => (hfresh _ hmem).live v hv rfl
  · have hu := hins v hv
    refine d.usable_old h hu fun hmem => ?_
    -- a usable value is live or a constant, and its id is not new
    obtain hd | hd | ⟨n, hn, hvn⟩ := hu.defined
    · exact (hfresh _ hmem).live v (live_input hd) rfl
    · exact hd (hfresh _ hmem).constant
    · exact (hfresh _ hmem).live v (live_outputsOf hn hvn) rfl
  · exact d.usable_new hv

theorem outputs_nodup_addNode :
    ((k.addNode g.nextNode).nodes.flatMap (k.addNode g.nextNode).outputsOf).Nodup := by
  have hnodes : (k.addNode g.nextNode).nodes = g.nodes ++ [g.nextNode] := by
    rw [← d.nodes]
    rfl
  have hflat : g.nodes.flatMap (k.addNode g.nextNode).outputsOf = g.nodes.flatMap g.outputsOf :=
    flatMap_congr fun n hn => d.outputsOf_of_mem h hn
  have hsingle : [g.nextNode].flatMap (k.addNode g.nextNode).outputsOf = k.outputsOf g.nextNode := by
    rw [flatMap_singleton]
    rfl
  rw [hnodes, flatMap_append, nodup_append, hflat, hsingle]
  refine ⟨h.outputs_nodup, ?_, fun a ha b hb he => ?_⟩
  · rw [d.outputsOf]
    exact nodup_range.map fun i j hij => Nat.add_left_cancel hij
  · obtain ⟨n, hn, han⟩ := mem_flatMap.mp ha
    obtain ⟨i, -, rfl⟩ := d.mem_outputsOf_nextNode.mp hb
    have hlt := h.live_lt a (live_outputsOf hn han)
    rw [he] at hlt
    exact absurd hlt (Nat.not_lt.mpr (Nat.le_add_right _ _))

/-- The new node ranks above all others. -/
theorem acyclic_addNode (hins : ∀ v ∈ ins, g.Usable v) :
    ∃ rank, (k.addNode g.nextNode).Ranked rank := by
  obtain ⟨rank, hrank⟩ := h.acyclic
  have hne : ∀ {m}, m ∈ g.nodes → m ≠ g.nextNode := fun hm => Nat.ne_of_lt (h.nodes_lt _ hm)
  refine ⟨update rank g.nextNode (1 + (g.nodes.map rank).sum), ?_⟩
  intro n hn v hv m hm hvm
  have hlt : v < g.nextVal := by
    obtain hn | rfl := d.mem_addNode.mp hn
    · exact h.live_lt v (live_inputsOf hn (d.inputsOf_of_mem h hn ▸ hv))
    · exact (hins v (d.inputsOf ▸ hv)).lt
  have hm' : m ∈ g.nodes := by
    obtain hm | rfl := d.mem_addNode.mp hm
    · exact hm
    · obtain ⟨i, -, rfl⟩ := d.mem_outputsOf_nextNode.mp hvm
      exact absurd hlt (Nat.not_lt.mpr (Nat.le_add_right _ _))
  rw [update_of_ne (hne hm')]
  obtain hn | rfl := d.mem_addNode.mp hn
  · rw [update_of_ne (hne hn)]
    exact hrank n hn v (d.inputsOf_of_mem h hn ▸ hv) m hm' (d.outputsOf_of_mem h hm' ▸ hvm)
  · rw [update_self]
    have hle : rank m ≤ (g.nodes.map rank).sum := le_sum_of_mem (mem_map_of_mem hm')
    omega

/-- Listing the node keeps the graph well formed when its inputs may be read and
its ids are new. -/
theorem wellFormed_addNode (hins : ∀ v ∈ ins, g.Usable v)
    (hfresh : ∀ id ∈ ids, g.FreshId id) : (k.addNode g.nextNode).WellFormed := by
  have husable : ∀ v, (k.addNode g.nextNode).Live v → (k.addNode g.nextNode).Usable v :=
    fun v hv => d.usable_addNode h hins hfresh hv
  exact {
    nodes_nodup := by
      have hnodes : (k.addNode g.nextNode).nodes = g.nodes ++ [g.nextNode] := by
        rw [← d.nodes]
        rfl
      rw [hnodes]
      exact nodup_append.mpr ⟨h.nodes_nodup, nodup_singleton _, fun a ha b hb he => by
        rw [mem_singleton] at hb
        exact Nat.lt_irrefl _ (h.nodes_lt _ (hb ▸ he ▸ ha))⟩
    nodes_lt := fun n hn => by
      change n < k.nextNode
      rw [d.nextNode]
      obtain hn | rfl := d.mem_addNode.mp hn
      · exact Nat.lt_succ_of_lt (h.nodes_lt n hn)
      · exact Nat.lt_succ_self _
    exact := d.usesExact_addNode h
    values_eq := fun v hv => (husable v hv).values
    live_lt := fun v hv => (husable v hv).lt
    inputs_nodup := by
      change k.inputs.Nodup
      rw [d.inputs]
      exact h.inputs_nodup
    outputs_nodup := d.outputs_nodup_addNode h
    input_apart := fun v hv => by
      have hv' : v ∈ g.inputs := d.inputs ▸ hv
      change k.constants (k.idOf v) = none
      rw [d.constants, d.idOf v (h.live_lt v (live_input hv'))]
      exact h.input_apart v hv'
    output_apart := fun n hn v hv => by
      change v ∉ k.inputs ∧ k.constants (k.idOf v) = none
      rw [d.inputs, d.constants]
      obtain hn | rfl := d.mem_addNode.mp hn
      · have hv' : v ∈ g.outputsOf n := d.outputsOf_of_mem h hn ▸ hv
        rw [d.idOf v (h.live_lt v (live_outputsOf hn hv'))]
        exact h.output_apart n hn v hv'
      · obtain ⟨i, hi, rfl⟩ := d.mem_outputsOf_nextNode.mp hv
        refine ⟨fun hin => ?_, ?_⟩
        · exact absurd (h.live_lt _ (live_input hin)) (Nat.not_lt.mpr (Nat.le_add_right _ _))
        · rw [d.newId i _ (getElem?_eq_getElem hi)]
          exact (hfresh _ (getElem_mem hi)).constant
    node_eq := fun n hn v hv => by
      change (k.valAt v).node = some n
      obtain hn | rfl := d.mem_addNode.mp hn
      · have hv' : v ∈ g.outputsOf n := d.outputsOf_of_mem h hn ▸ hv
        rw [d.node v (h.live_lt v (live_outputsOf hn hv'))]
        exact h.node_eq n hn v hv'
      · obtain ⟨i, hi, rfl⟩ := d.mem_outputsOf_nextNode.mp hv
        exact d.newNode i hi
    node_mem := fun v n hv hp => (husable v hv).node_mem n hp
    reads_defined := fun n hn v hv => (husable v (live_inputsOf hn hv)).defined
    outputs_defined := fun v hv => (husable v (live_output hv)).defined
    acyclic := d.acyclic_addNode h hins }

omit h in
/-- The tensors of the new graph: those of the old one and the node's results. -/
theorem assigns_addNode (h : g.WellFormed) {args outs xs ys : List T} {e : ValRef → Option T}
    (he : g.Assigns exec args outs e) (hins : ∀ v ∈ ins, g.Usable v)
    (hconst : ∀ v ∈ ins, ∀ t, g.constants (g.idOf v) = some t → e v = some t)
    (hxs : ins.map e = xs.map some) (hys : exec g.nextNode code xs = .ok ys)
    (hfresh : ∀ id ∈ ids, g.FreshId id) :
    (k.addNode g.nextNode).Assigns exec args outs
      fun v => if v < g.nextVal then e v else ys[v - g.nextVal]? := by
  have hmap : ∀ l : List ValRef, (∀ v ∈ l, v < g.nextVal) →
      l.map (fun v => if v < g.nextVal then e v else ys[v - g.nextVal]?) = l.map e :=
    fun l hl => map_congr_left fun v hv => if_pos (hl v hv)
  constructor
  · intro i v hv
    rw [show (k.addNode g.nextNode).inputs = g.inputs from d.inputs] at hv
    rw [if_pos (h.live_lt v (live_input (mem_of_getElem? hv)))]
    exact he.inputs i v hv
  · intro v t hv ht
    change k.constants (k.idOf v) = some t at ht
    rw [d.constants] at ht
    obtain hv | hv | hv := d.live_addNode h hv
    · have hlt := h.live_lt v hv
      rw [d.idOf v hlt] at ht
      rw [if_pos hlt]
      exact he.constants v t hv ht
    · have hlt := (hins v hv).lt
      rw [d.idOf v hlt] at ht
      rw [if_pos hlt]
      exact hconst v hv t ht
    · obtain ⟨i, hi, rfl⟩ := d.mem_outputsOf_nextNode.mp hv
      rw [d.newId i _ (getElem?_eq_getElem hi)] at ht
      rw [(hfresh _ (getElem_mem hi)).constant] at ht
      exact absurd ht (by simp)
  · intro n hn
    obtain hn | rfl := d.mem_addNode.mp hn
    · obtain ⟨xs', ys', hxs', hys', hw⟩ := he.nodes n hn
      refine ⟨xs', ys', ?_, ?_, fun i v hv => ?_⟩
      · change (k.inputsOf n).map _ = _
        rw [d.inputsOf_of_mem h hn, hmap _ fun v hv => h.live_lt v (live_inputsOf hn hv), hxs']
      · change exec n (k.codeOf n) xs' = _
        rw [d.codeOf_of_mem h hn, hys']
      · change (k.outputsOf n)[i]? = some v at hv
        rw [d.outputsOf_of_mem h hn] at hv
        rw [if_pos (h.live_lt v (live_outputsOf hn (mem_of_getElem? hv)))]
        exact hw i v hv
    · refine ⟨xs, ys, ?_, ?_, fun i v hv => ?_⟩
      · change (k.inputsOf g.nextNode).map _ = _
        rw [d.inputsOf, hmap _ fun v hv => (hins v hv).lt, hxs]
      · change exec _ (k.codeOf g.nextNode) xs = _
        rw [d.codeOf, hys]
      · change (k.outputsOf g.nextNode)[i]? = some v at hv
        rw [d.outputsOf, getElem?_map, Option.map_eq_some_iff] at hv
        obtain ⟨j, hj, rfl⟩ := hv
        obtain ⟨hlt, he⟩ := List.getElem?_eq_some_iff.mp hj
        rw [getElem_range] at he
        subst he
        simp
  · change k.outputs.map _ = _
    rw [d.outputs, hmap _ fun v hv => h.live_lt v (live_output hv), he.outputs]

end AddNode

end Draft

/-! ## Captured constants -/

section Constants

variable {id : String} {shape : List Int} {dtype : DType} {t : T} {v old : ValRef} {i : Nat}
  {n : NodeRef}

/-- `create_value` and `set_constant` under one id. -/
def installConstant (g : Graph T S) (id : String) (shape : List Int) (dtype : DType) (t : T) :
    ValRef × Graph T S :=
  ((g.createValue id shape dtype).1, (g.createValue id shape dtype).2.setConstant id t)

theorem valAt_installConstant_of_ne (hv : v ≠ g.nextVal) :
    (g.installConstant id shape dtype t).2.valAt v = g.valAt v := by
  simp [installConstant, createValue, setConstant, setVal, hv]

theorem values_installConstant_of_ne {i : String} (hi : i ≠ id) :
    (g.installConstant id shape dtype t).2.values i = g.values i := by
  simp [installConstant, createValue, setConstant, setVal, hi]

theorem constants_installConstant (i : String) :
    (g.installConstant id shape dtype t).2.constants i =
      if i = id then some t else g.constants i := by
  simp only [installConstant, createValue, setConstant, setVal, Function.update_apply]

theorem WellFormed.idOf_installConstant (h : g.WellFormed) (hv : g.Live v) :
    (g.installConstant id shape dtype t).2.idOf v = g.idOf v := by
  rw [idOf, valAt_installConstant_of_ne (Nat.ne_of_lt (h.live_lt v hv))]
  rfl

theorem UsesExact.installConstant (h : g.UsesExact) (hnil : g.usesOf g.nextVal = []) :
    (g.installConstant id shape dtype t).2.UsesExact := by
  intro v n
  by_cases hv : v = g.nextVal
  · have hnew : (g.installConstant id shape dtype t).2.usesOf v = [] := by
      simp [Graph.installConstant, createValue, setConstant, setVal, usesOf, hv]
    have hex := h v n
    rw [hv, hnil, ← hv] at hex
    rw [hnew]
    exact hex
  · rw [usesOf, valAt_installConstant_of_ne hv]
    exact h v n

/-- The values of the graph stay usable, those named by the new id apart. -/
theorem WellFormed.usable_installConstant (h : g.WellFormed) (hv : g.Live v) (hd : g.Defined v)
    (hid : g.idOf v ≠ id) : (g.installConstant id shape dtype t).2.Usable v := by
  have hidOf : (g.installConstant id shape dtype t).2.idOf v = g.idOf v :=
    h.idOf_installConstant hv
  refine ⟨Nat.lt_succ_of_lt (h.live_lt v hv), ?_, ?_, fun n hn => ?_⟩
  · rw [hidOf, values_installConstant_of_ne hid]
    exact h.values_eq v hv
  · obtain hd | hd | hd := hd
    · exact .inl hd
    · refine .inr (.inl ?_)
      rw [hidOf, constants_installConstant, if_neg hid]
      exact hd
    · exact .inr (.inr hd)
  · rw [valAt_installConstant_of_ne (Nat.ne_of_lt (h.live_lt v hv))] at hn
    exact h.node_mem v n hv hn

/-- The new constant may be read. -/
theorem usable_nextVal_installConstant (g : Graph T S) :
    (g.installConstant id shape dtype t).2.Usable g.nextVal := by
  have hid : (g.installConstant id shape dtype t).2.idOf g.nextVal = id := by
    simp [Graph.installConstant, createValue, setConstant, setVal, idOf]
  refine ⟨Nat.lt_succ_self _, ?_, .inr (.inl ?_), fun n hn => ?_⟩
  · rw [hid]
    simp [Graph.installConstant, createValue, setConstant]
  · rw [hid, constants_installConstant]
    simp
  · simp [Graph.installConstant, createValue, setConstant, setVal] at hn

/-- A constant leaves the frame alone unless its id is that of a graph input or of
the output of a node. -/
theorem WellFormed.framed_installConstant (h : g.WellFormed)
    (hin : ∀ v ∈ g.inputs, g.idOf v ≠ id)
    (hout : ∀ n ∈ g.nodes, ∀ v ∈ g.outputsOf n, g.idOf v ≠ id) :
    (g.installConstant id shape dtype t).2.Framed := by
  have hconst : ∀ v, g.Live v → g.idOf v ≠ id → (g.installConstant id shape dtype t).2.constants
      ((g.installConstant id shape dtype t).2.idOf v) = g.constants (g.idOf v) := by
    intro v hv hid
    rw [h.idOf_installConstant hv, constants_installConstant, if_neg hid]
  exact {
    nodes_nodup := h.nodes_nodup
    nodes_lt := h.nodes_lt
    inputs_nodup := h.inputs_nodup
    outputs_nodup := h.outputs_nodup
    input_apart := fun v hv => by
      rw [hconst v (live_input hv) (hin v hv)]
      exact h.input_apart v hv
    output_apart := fun n hn v hv => by
      rw [hconst v (live_outputsOf hn hv) (hout n hn v hv)]
      exact h.output_apart n hn v hv
    node_eq := fun n hn v hv => by
      rw [valAt_installConstant_of_ne (Nat.ne_of_lt (h.live_lt v (live_outputsOf hn hv)))]
      exact h.node_eq n hn v hv
    usable_input := fun v hv => h.usable_installConstant (live_input hv) (.inl hv) (hin v hv)
    usable_output := fun n hn v hv => h.usable_installConstant (live_outputsOf hn hv)
      (.inr (.inr ⟨n, hn, hv⟩)) (hout n hn v hv) }

/-- The node of a rewired input takes its tensor from a new constant; nobody else
reads a value of that id. -/
structure OwnId (g : Graph T S) (n : NodeRef) (old : ValRef) (id : String) : Prop where
  inputs : ∀ v ∈ g.inputs, g.idOf v ≠ id
  outputs : ∀ v ∈ g.outputs, g.idOf v ≠ id
  produced : ∀ m ∈ g.nodes, ∀ v ∈ g.outputsOf m, g.idOf v ≠ id
  reads : ∀ m ∈ g.nodes, ∀ v ∈ g.inputsOf m, g.idOf v = id → m = n ∧ v = old

theorem not_mem_set {l : List ValRef} {new : ValRef} (hold : l[i]? = some old)
    (honce : l.count old = 1) (hne : new ≠ old) : old ∉ l.set i new := by
  obtain ⟨hlt, hget⟩ := List.getElem?_eq_some_iff.mp hold
  rw [← count_eq_zero, count_set hlt, hget, honce]
  simp [hne]

/-- What the nodes read once a new constant stands at one position. -/
theorem WellFormed.mem_inputsOf_rewireConstant (h : g.WellFormed) (hn : n ∈ g.nodes)
    (hold : (g.inputsOf n)[i]? = some old) (honce : (g.inputsOf n).count old = 1) {m : NodeRef}
    (hv : v ∈ ((g.installConstant id shape dtype t).2.rewire n i old g.nextVal).inputsOf m) :
    m = n ∧ v = g.nextVal ∨ v ∈ g.inputsOf m ∧ (m = n → v ≠ old) := by
  rw [inputsOf_rewire] at hv
  split_ifs at hv with hmn
  · subst hmn
    have hne : g.nextVal ≠ old := fun he => by
      have hlt := h.live_lt old (live_inputsOf hn (mem_of_getElem? hold))
      exact Nat.lt_irrefl _ (he ▸ hlt)
    by_cases hvn : v = g.nextVal
    · exact .inl ⟨rfl, hvn⟩
    · refine .inr ⟨(mem_or_eq_of_mem_set hv).resolve_right hvn, fun _ he => ?_⟩
      exact not_mem_set hold honce hne (he ▸ hv)
  · exact .inr ⟨hv, fun he => absurd he hmn⟩

theorem WellFormed.rewireConstant (h : g.WellFormed) (hn : n ∈ g.nodes)
    (hold : (g.inputsOf n)[i]? = some old) (honce : (g.inputsOf n).count old = 1)
    (hid : g.OwnId n old id) :
    ((g.installConstant id shape dtype t).2.rewire n i old g.nextVal).WellFormed := by
  obtain ⟨rank, hrank⟩ := h.acyclic
  have hf : (g.installConstant id shape dtype t).2.Framed :=
    h.framed_installConstant hid.inputs hid.produced
  have hu : (g.installConstant id shape dtype t).2.UsesExact :=
    h.exact.installConstant (h.usesOf_nextVal le_rfl)
  apply hf.rewired (skeleton_rewire _ n i old g.nextVal) (hu.rewire hn hold honce _)
  · intro m hm v hv
    obtain ⟨-, rfl⟩ | ⟨hvm, hne⟩ := h.mem_inputsOf_rewireConstant hn hold honce hv
    · exact usable_nextVal_installConstant g
    · refine h.usable_installConstant (live_inputsOf hm hvm) (h.reads_defined m hm v hvm) ?_
      intro he
      obtain ⟨hmn, hvo⟩ := hid.reads m hm v hvm he
      exact hne hmn hvo
  · intro v hv
    exact h.usable_installConstant (live_output hv) (h.outputs_defined v hv) (hid.outputs v hv)
  · intro m hm v hv m' hm' hvm'
    obtain ⟨-, rfl⟩ | ⟨hvm, -⟩ := h.mem_inputsOf_rewireConstant hn hold honce hv
    · exact absurd (h.live_lt _ (live_outputsOf hm' hvm')) (Nat.lt_irrefl _)
    · exact hrank m hm v hvm m' hm' hvm'

theorem WellFormed.addConstant (h : g.WellFormed) (hn : n ∈ g.nodes)
    (hid : ∀ v, g.Live v → g.idOf v ≠ id) :
    ((g.installConstant id shape dtype t).2.addInput n g.nextVal).WellFormed := by
  obtain ⟨rank, hrank⟩ := h.acyclic
  have hf : (g.installConstant id shape dtype t).2.Framed :=
    h.framed_installConstant (fun v hv => hid v (live_input hv))
      fun m hm v hv => hid v (live_outputsOf hm hv)
  have hu : (g.installConstant id shape dtype t).2.UsesExact :=
    h.exact.installConstant (h.usesOf_nextVal le_rfl)
  have hmem : ∀ m v, v ∈ ((g.installConstant id shape dtype t).2.addInput n g.nextVal).inputsOf m →
      v ∈ g.inputsOf m ∨ v = g.nextVal := by
    intro m v hv
    rw [inputsOf_addInput] at hv
    split_ifs at hv with hmn
    · subst hmn
      rw [mem_append, mem_singleton] at hv
      exact hv
    · exact .inl hv
  apply hf.rewired (skeleton_addInput _ n g.nextVal) (hu.addInput hn _)
  · intro m hm v hv
    obtain hvm | rfl := hmem m v hv
    · have hlive := live_inputsOf hm hvm
      exact h.usable_installConstant hlive (h.reads_defined m hm v hvm) (hid v hlive)
    · exact usable_nextVal_installConstant g
  · intro v hv
    exact h.usable_installConstant (live_output hv) (h.outputs_defined v hv) (hid v (live_output hv))
  · intro m hm v hv m' hm' hvm'
    obtain hvm | rfl := hmem m v hv
    · exact hrank m hm v hvm m' hm' hvm'
    · exact absurd (h.live_lt _ (live_outputsOf hm' hvm')) (Nat.lt_irrefl _)

end Constants

/-- The equations of all nodes but `s` hold. -/
structure AssignsOff (exec : Exec T S) (g : Graph T S) (s : NodeRef) (ins outs : List T)
    (e : ValRef → Option T) : Prop where
  inputs : ∀ (i : Nat) v, g.inputs[i]? = some v → e v = ins[i]?
  constants : ∀ v t, g.Live v → g.constants (g.idOf v) = some t → e v = some t
  nodes : ∀ n ∈ g.nodes, n ≠ s → ∃ xs ys, (g.inputsOf n).map e = xs.map some ∧
    exec n (g.codeOf n) xs = .ok ys ∧
    ∀ (i : Nat) v, (g.outputsOf n)[i]? = some v → e v = ys[i]?
  outputs : g.outputs.map e = outs.map some

theorem Assigns.off (he : g.Assigns exec ins outs e) (s : NodeRef) :
    g.AssignsOff exec s ins outs e :=
  ⟨he.inputs, he.constants, fun n hn _ => he.nodes n hn, he.outputs⟩

namespace AssignsOff

variable {s : NodeRef} {ins outs : List T} {e : ValRef → Option T}
  (he : g.AssignsOff exec s ins outs e) {id : String} {shape : List Int} {dtype : DType} {t : T}

include he

theorem setCode (x : Node T S) (hin : x.inputs = g.inputsOf s) (hout : x.outputs = g.outputsOf s) :
    (g.setNode s x).AssignsOff exec s ins outs e := by
  have hnode : ∀ m, m ≠ s → (g.setNode s x).nodeAt m = g.nodeAt m := fun m hm => by
    simp [setNode, hm]
  have hinputs : ∀ m, (g.setNode s x).inputsOf m = g.inputsOf m := by
    intro m
    by_cases hm : m = s
    · simp [setNode, inputsOf, hm, hin]
    · simp [inputsOf, hnode m hm]
  have houtputs : ∀ m, (g.setNode s x).outputsOf m = g.outputsOf m := by
    intro m
    by_cases hm : m = s
    · simp [setNode, outputsOf, hm, hout]
    · simp [outputsOf, hnode m hm]
  have hlive : ∀ v, (g.setNode s x).Live v → g.Live v := by
    intro v hv
    unfold Live at hv
    simp only [hinputs, houtputs] at hv
    exact hv
  refine ⟨he.inputs, fun v t hv => he.constants v t (hlive v hv), fun n hn hns => ?_, he.outputs⟩
  obtain ⟨xs, ys, hxs, hys, hw⟩ := he.nodes n hn hns
  refine ⟨xs, ys, by rw [hinputs, hxs], ?_, fun i v hv => hw i v (houtputs n ▸ hv)⟩
  rw [codeOf, hnode n hns]
  exact hys

theorem addInput {v : ValRef} (hv : ∀ t, g.constants (g.idOf v) = some t → e v = some t) :
    (g.addInput s v).AssignsOff exec s ins outs e := by
  have hs := skeleton_addInput g s v
  have hlive : ∀ w, (g.addInput s v).Live w → g.Live w ∨ w = v := by
    rintro w (hw | hw | ⟨n, hn, hw⟩)
    · exact .inl (live_input hw)
    · exact .inl (live_output hw)
    · rw [inputsOf_addInput, outputsOf_of_skeleton hs] at hw
      by_cases hns : n = s
      · subst hns
        rw [if_pos rfl, mem_append, mem_singleton, or_assoc] at hw
        obtain hw | rfl | hw := hw
        · exact .inl (live_inputsOf hn hw)
        · exact .inr rfl
        · exact .inl (live_outputsOf hn hw)
      · rw [if_neg hns] at hw
        exact .inl (.inr (.inr ⟨n, hn, hw⟩))
  refine ⟨he.inputs, fun w t hw ht => ?_, fun n hn hns => ?_, he.outputs⟩
  · rw [idOf_of_skeleton hs] at ht
    obtain hw | rfl := hlive w hw
    · exact he.constants w t hw ht
    · exact hv t ht
  · obtain ⟨xs, ys, hxs, hys, hw⟩ := he.nodes n hn hns
    refine ⟨xs, ys, ?_, ?_, ?_⟩
    · rw [inputsOf_addInput, if_neg hns, hxs]
    · rw [codeOf_of_skeleton hs, hys]
    · rw [outputsOf_of_skeleton hs]
      exact hw

omit he in
/-- Updating an address that was never handed out changes no tensor in use. -/
theorem map_update (h : g.WellFormed) (x : Option T) {l : List ValRef} (hl : ∀ v ∈ l, g.Live v) :
    l.map (update e g.nextVal x) = l.map e :=
  map_congr_left fun v hv => update_of_ne (Nat.ne_of_lt (h.live_lt v (hl v hv))) ..

/-- A new constant that only `s` reads. -/
theorem wireConstant (h : g.WellFormed)
    (hs : k.skeleton = (g.installConstant id shape dtype t).2.skeleton)
    (hout : k.outputs = g.outputs) (hin : ∀ n ∈ g.nodes, n ≠ s → k.inputsOf n = g.inputsOf n)
    (hlive : ∀ v, k.Live v → v = g.nextVal ∨ g.Live v ∧ g.idOf v ≠ id) :
    k.AssignsOff exec s ins outs (update e g.nextVal (some t)) := by
  have hinputs : k.inputs = g.inputs := eq_of_skeleton hs Graph.inputs fun _ => rfl
  have hnodes : k.nodes = g.nodes := eq_of_skeleton hs Graph.nodes fun _ => rfl
  have hconst : k.constants = (g.installConstant id shape dtype t).2.constants :=
    eq_of_skeleton hs Graph.constants fun _ => rfl
  constructor
  · intro i v hv
    rw [hinputs] at hv
    have hne := Nat.ne_of_lt (h.live_lt v (live_input (mem_of_getElem? hv)))
    rw [update_of_ne hne]
    exact he.inputs i v hv
  · intro v t' hv ht
    rw [hconst, idOf_of_skeleton hs] at ht
    obtain rfl | ⟨hv, hid⟩ := hlive v hv
    · have hnew : (g.installConstant id shape dtype t).2.idOf g.nextVal = id := by
        simp [Graph.installConstant, createValue, setConstant, setVal, idOf]
      rw [hnew, constants_installConstant, if_pos rfl] at ht
      rw [update_self, ht]
    · rw [h.idOf_installConstant hv, constants_installConstant, if_neg hid] at ht
      rw [update_of_ne (Nat.ne_of_lt (h.live_lt v hv))]
      exact he.constants v t' hv ht
  · intro n hn hns
    rw [hnodes] at hn
    obtain ⟨xs, ys, hxs, hys, hw⟩ := he.nodes n hn hns
    have hcode : k.codeOf n = g.codeOf n := codeOf_of_skeleton hs n
    have houtputs : k.outputsOf n = g.outputsOf n := outputsOf_of_skeleton hs n
    refine ⟨xs, ys, ?_, by rw [hcode, hys], fun i v hv => ?_⟩
    · rw [hin n hn hns, map_update h _ fun v hv => live_inputsOf hn hv, hxs]
    · rw [houtputs] at hv
      have hne := Nat.ne_of_lt (h.live_lt v (live_outputsOf hn (mem_of_getElem? hv)))
      rw [update_of_ne hne]
      exact hw i v hv
  · rw [hout, map_update h _ fun v hv => live_output hv, he.outputs]

theorem rewireConstant (h : g.WellFormed) (hs : s ∈ g.nodes) {i : Nat} {old : ValRef}
    (hold : (g.inputsOf s)[i]? = some old) (honce : (g.inputsOf s).count old = 1)
    (hid : g.OwnId s old id) :
    ((g.installConstant id shape dtype t).2.rewire s i old g.nextVal).AssignsOff exec s ins outs
      (update e g.nextVal (some t)) := by
  have hsk := skeleton_rewire (g.installConstant id shape dtype t).2 s i old g.nextVal
  apply he.wireConstant h hsk rfl
  · intro n _ hns
    rw [inputsOf_rewire, if_neg hns]
    rfl
  · rintro v (hv | hv | ⟨n, hn, hv | hv⟩)
    · exact .inr ⟨live_input hv, hid.inputs v hv⟩
    · exact .inr ⟨live_output hv, hid.outputs v hv⟩
    · obtain ⟨-, rfl⟩ | ⟨hvn, hne⟩ := h.mem_inputsOf_rewireConstant hs hold honce hv
      · exact .inl rfl
      · refine .inr ⟨live_inputsOf hn hvn, fun hv' => ?_⟩
        obtain ⟨hn', hv'⟩ := hid.reads n hn v hvn hv'
        exact hne hn' hv'
    · rw [outputsOf_of_skeleton hsk] at hv
      exact .inr ⟨live_outputsOf hn hv, hid.produced n hn v hv⟩

theorem addConstant (h : g.WellFormed) (hid : ∀ v, g.Live v → g.idOf v ≠ id) :
    ((g.installConstant id shape dtype t).2.addInput s g.nextVal).AssignsOff exec s ins outs
      (update e g.nextVal (some t)) := by
  have hsk := skeleton_addInput (g.installConstant id shape dtype t).2 s g.nextVal
  have hor : ∀ v, g.Live v → v = g.nextVal ∨ g.Live v ∧ g.idOf v ≠ id :=
    fun v hv => .inr ⟨hv, hid v hv⟩
  apply he.wireConstant h hsk rfl
  · intro n _ hns
    rw [inputsOf_addInput, if_neg hns]
    rfl
  · rintro v (hv | hv | ⟨n, hn, hv | hv⟩)
    · exact hor v (live_input hv)
    · exact hor v (live_output hv)
    · rw [inputsOf_addInput] at hv
      split_ifs at hv with hns
      · subst hns
        rw [mem_append, mem_singleton] at hv
        obtain hv | rfl := hv
        · exact hor v (live_inputsOf hn hv)
        · exact .inl rfl
      · exact hor v (live_inputsOf hn hv)
    · rw [outputsOf_of_skeleton hsk] at hv
      exact hor v (live_outputsOf hn hv)

end AssignsOff

end Graph

end Tenzor.Jit
