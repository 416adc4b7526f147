import Tenzor.Jit.Forward

/-!
# Well-formed graphs and the solutions of their equations

A well-formed graph names every value once and keeps its pointers consistent.
For such a graph a returning `forward` is a solution of the node equations, and
after `topological_sort` the converse holds, so a rewriting pass preserves
`forward` as soon as it carries solutions over.
-/

namespace Tenzor.Jit

open Dataflow Throwing List

namespace Graph

variable {T S : Type} {exec : Exec T S} {g : Graph T S} {ins outs : List T}
  {l before after : List NodeRef} {n m : NodeRef}

/-- A value the graph refers to. -/
def Live (g : Graph T S) (v : ValRef) : Prop :=
  v ∈ g.inputs ∨ v ∈ g.outputs ∨ ∃ n ∈ g.nodes, v ∈ g.inputsOf n ∨ v ∈ g.outputsOf n

/-- A value some run binds: an input, a constant or the output of a node. -/
def Defined (g : Graph T S) (v : ValRef) : Prop :=
  v ∈ g.inputs ∨ g.constants (g.idOf v) ≠ none ∨ ∃ n ∈ g.nodes, v ∈ g.outputsOf n

/-- Every node ranks above the nodes that produce what it reads. -/
def Ranked (g : Graph T S) (rank : NodeRef → Nat) : Prop :=
  ∀ n ∈ g.nodes, ∀ v ∈ g.inputsOf n, ∀ m ∈ g.nodes, v ∈ g.outputsOf m → rank m < rank n

/-- Unique ids, exact use lists, producer pointers both ways, nothing undefined
and no cycle. -/
structure WellFormed (g : Graph T S) : Prop where
  nodes_nodup : g.nodes.Nodup
  nodes_lt : ∀ n ∈ g.nodes, n < g.nextNode
  exact : g.UsesExact
  values_eq : ∀ v, g.Live v → g.values (g.idOf v) = some v
  live_lt : ∀ v, g.Live v → v < g.nextVal
  inputs_nodup : g.inputs.Nodup
  outputs_nodup : (g.nodes.flatMap g.outputsOf).Nodup
  input_apart : ∀ v ∈ g.inputs, g.constants (g.idOf v) = none
  output_apart : ∀ n ∈ g.nodes, ∀ v ∈ g.outputsOf n,
    v ∉ g.inputs ∧ g.constants (g.idOf v) = none
  node_eq : ∀ n ∈ g.nodes, ∀ v ∈ g.outputsOf n, (g.valAt v).node = some n
  node_mem : ∀ v n, g.Live v → (g.valAt v).node = some n → n ∈ g.nodes ∧ v ∈ g.outputsOf n
  reads_defined : ∀ n ∈ g.nodes, ∀ v ∈ g.inputsOf n, g.Defined v
  outputs_defined : ∀ v ∈ g.outputs, g.Defined v
  acyclic : ∃ rank, g.Ranked rank

section Live

variable {g : Graph T S} {v : ValRef} {n : NodeRef}

theorem live_input (hv : v ∈ g.inputs) : g.Live v := Or.inl hv

theorem live_output (hv : v ∈ g.outputs) : g.Live v := Or.inr (Or.inl hv)

theorem live_inputsOf (hn : n ∈ g.nodes) (hv : v ∈ g.inputsOf n) : g.Live v :=
  .inr (.inr ⟨n, hn, .inl hv⟩)

theorem live_outputsOf (hn : n ∈ g.nodes) (hv : v ∈ g.outputsOf n) : g.Live v :=
  .inr (.inr ⟨n, hn, .inr hv⟩)

end Live

namespace WellFormed

variable {g : Graph T S} (h : g.WellFormed) {v : ValRef} {n m : NodeRef}

include h

theorem id_inj {w : ValRef} (hv : g.Live v) (hw : g.Live w) (he : g.idOf v = g.idOf w) : v = w := by
  have h₁ := h.values_eq v hv
  rw [he, h.values_eq w hw] at h₁
  exact (Option.some.inj h₁).symm

theorem producer_eq (hn : n ∈ g.nodes) (hv : v ∈ g.outputsOf n) : g.producer v = some n := by
  rw [producer, h.node_eq n hn v hv]
  simp [Option.filter, hn]

theorem producer_mem (hv : g.Live v) (hp : g.producer v = some n) :
    n ∈ g.nodes ∧ v ∈ g.outputsOf n := by
  obtain ⟨hnode, -⟩ := Option.filter_eq_some_iff.mp hp
  exact h.node_mem v n hv hnode

/-- A value has one producer. -/
theorem producer_unique (hn : n ∈ g.nodes) (hv : v ∈ g.outputsOf n) (hm : m ∈ g.nodes)
    (hv' : v ∈ g.outputsOf m) : n = m := by
  have h₁ := h.node_eq n hn v hv
  rw [h.node_eq m hm v hv'] at h₁
  exact (Option.some.inj h₁).symm

theorem mem_dependencies (hv : v ∈ g.inputsOf n) (hm : m ∈ g.nodes) (hvm : v ∈ g.outputsOf m) :
    m ∈ g.dependencies n :=
  mem_filterMap.mpr ⟨v, hv, h.producer_eq hm hvm⟩

end WellFormed

section Initial

variable {g : Graph T S} {ins : List T} {v : ValRef}

theorem initial_input (h : g.WellFormed) (hlen : ins.length = g.inputs.length) {i : Nat}
    (hv : g.inputs[i]? = some v) : g.initial ins (g.idOf v) = ins[i]? := by
  have hnd : (g.inputs.map g.idOf).Nodup :=
    Nodup.map_on (fun x hx y hy he => h.id_inj (live_input hx) (live_input hy) he)
      h.inputs_nodup
  have hget : (g.inputs.map g.idOf)[i]? = some (g.idOf v) := by simp [hv]
  have hlt : i < ins.length := hlen ▸ (List.getElem?_eq_some_iff.mp hv).1
  simp [initial, bindAll_getElem hnd hget, hlt]

theorem initial_of_not_input (h : g.WellFormed) (hv : g.Live v) (hnot : v ∉ g.inputs) :
    g.initial ins (g.idOf v) = g.constants (g.idOf v) := by
  have hmem : g.idOf v ∉ g.inputs.map g.idOf := by
    intro hm
    obtain ⟨w, hw, he⟩ := mem_map.mp hm
    exact hnot (h.id_inj (live_input hw) hv he ▸ hw)
  simp [initial, bindAll_of_not_mem hmem]

/-- A run binds what is an input or a constant before the first node. -/
theorem initial_ne_none (h : g.WellFormed) (hlen : ins.length = g.inputs.length) (hv : g.Live v)
    (hdef : v ∈ g.inputs ∨ g.constants (g.idOf v) ≠ none) : g.initial ins (g.idOf v) ≠ none := by
  by_cases hin : v ∈ g.inputs
  · obtain ⟨i, hi⟩ := getElem?_of_mem hin
    have hlt : i < ins.length := hlen ▸ (List.getElem?_eq_some_iff.mp hi).1
    simp [initial_input h hlen hi, hlt]
  · rw [initial_of_not_input h hv hin]
    exact hdef.resolve_left hin

theorem singleAssignment (h : g.WellFormed) :
    SingleAssignment (g.initial ins) (g.nodes.map (g.stmt exec)) where
  nodup := by
    have hmap : (g.nodes.map (g.stmt exec)).flatMap Stmt.writes =
        (g.nodes.flatMap g.outputsOf).map g.idOf := by
      rw [flatMap_map, map_flatMap]
      rfl
    rw [hmap]
    apply Nodup.map_on _ h.outputs_nodup
    intro x hx y hy he
    obtain ⟨n, hn, hxn⟩ := mem_flatMap.mp hx
    obtain ⟨m, hm, hym⟩ := mem_flatMap.mp hy
    exact h.id_inj (live_outputsOf hn hxn) (live_outputsOf hm hym) he
  fresh s hs w hw := by
    obtain ⟨n, hn, rfl⟩ := mem_map.mp hs
    obtain ⟨v, hv, rfl⟩ := mem_map.mp hw
    obtain ⟨hin, hconst⟩ := h.output_apart n hn v hv
    rw [initial_of_not_input h (live_outputsOf hn hv) hin, hconst]

end Initial

/-- The outputs belong to some solution of the equations of all nodes. -/
def Yields (exec : Exec T S) (g : Graph T S) (ins outs : List T) : Prop :=
  ins.length = g.inputs.length ∧
    Dataflow.Yields (g.initial ins) (g.nodes.map (g.stmt exec)) (g.outputs.map g.idOf) outs

theorem yields_of_forward (h : g.WellFormed) (hf : g.forward exec ins = .ok outs) :
    g.Yields exec ins outs := by
  simp only [forward, bind_eq_ok, throwIf_eq_ok, not_not] at hf
  obtain ⟨-, hlen, hrun⟩ := hf
  exact ⟨hlen, yields_of_run (singleAssignment h) hrun⟩

/-- The list order respects the dependencies. -/
def InOrder (g : Graph T S) : Prop := g.Ranked (g.nodes.idxOf ·)

theorem mem_of_idxOf_lt (hnd : l.Nodup) (hsplit : l = before ++ n :: after)
    (hlt : l.idxOf m < l.idxOf n) : m ∈ before := by
  have hn : n ∉ before := by
    rw [hsplit] at hnd
    exact fun hb => (nodup_append.mp hnd).2.2 n hb n (by simp) rfl
  by_contra hm
  rw [hsplit, idxOf_append_of_notMem hm, idxOf_append_of_notMem hn] at hlt
  simp at hlt

theorem idxOf_lt_of_mem (hnd : l.Nodup) (hsplit : l = before ++ n :: after) (hm : m ∈ before) :
    l.idxOf m < l.idxOf n := by
  have hn : n ∉ before := by
    rw [hsplit] at hnd
    exact fun hb => (nodup_append.mp hnd).2.2 n hb n (by simp) rfl
  rw [hsplit, idxOf_append_of_mem hm, idxOf_append_of_notMem hn]
  have := idxOf_lt_length_of_mem hm
  omega

theorem available (h : g.WellFormed) (hord : g.InOrder) (hlen : ins.length = g.inputs.length) :
    Available (fun i => g.initial ins i ≠ none) (g.nodes.map (g.stmt exec)) := by
  apply available_of_split
  intro before s after hsplit i hi
  obtain ⟨before', rest, hnodes, rfl, hrest⟩ := map_eq_append_iff.mp hsplit
  obtain ⟨n, after', rfl, rfl, -⟩ := map_eq_cons_iff.mp hrest
  obtain ⟨v, hv, rfl⟩ := mem_map.mp hi
  have hn : n ∈ g.nodes := by simp [hnodes]
  obtain hin | hconst | ⟨m, hm, hvm⟩ := h.reads_defined n hn v hv
  · exact .inl (initial_ne_none h hlen (live_inputsOf hn hv) (.inl hin))
  · exact .inl (initial_ne_none h hlen (live_inputsOf hn hv) (.inr hconst))
  · have hbefore := mem_of_idxOf_lt h.nodes_nodup hnodes (hord n hn v hv m hm hvm)
    exact .inr ⟨g.stmt exec m, mem_map_of_mem hbefore, mem_map_of_mem hvm⟩

theorem output_bound (h : g.WellFormed) (hlen : ins.length = g.inputs.length) {v : ValRef}
    (hv : v ∈ g.outputs) :
    g.initial ins (g.idOf v) ≠ none ∨
      g.idOf v ∈ (g.nodes.map (g.stmt exec)).flatMap Stmt.writes := by
  obtain hin | hconst | ⟨m, hm, hvm⟩ := h.outputs_defined v hv
  · exact .inl (initial_ne_none h hlen (live_output hv) (.inl hin))
  · exact .inl (initial_ne_none h hlen (live_output hv) (.inr hconst))
  · refine .inr (mem_flatMap.mpr ⟨g.stmt exec m, mem_map_of_mem hm, ?_⟩)
    exact mem_map_of_mem hvm

/-- A graph whose list is in order computes every solution. -/
theorem forward_of_yields (h : g.WellFormed) (hord : g.InOrder) (hy : g.Yields exec ins outs) :
    g.forward exec ins = .ok outs := by
  obtain ⟨hlen, hy⟩ := hy
  simp only [forward, bind_eq_ok, throwIf_eq_ok, not_not]
  refine ⟨(), hlen, run_of_yields (available h hord hlen) ?_ hy⟩
  intro i hi
  obtain ⟨v, hv, rfl⟩ := mem_map.mp hi
  exact output_bound h hlen hv

theorem WellFormed.reorder (h : g.WellFormed) (hperm : l.Perm g.nodes) :
    ({ g with nodes := l } : Graph T S).WellFormed := by
  have hmem : ∀ n, n ∈ l ↔ n ∈ g.nodes := fun n => hperm.mem_iff
  have hlive : ∀ v, ({ g with nodes := l } : Graph T S).Live v ↔ g.Live v := by
    intro v
    simp only [Live, hmem]
    rfl
  have hdef : ∀ v, ({ g with nodes := l } : Graph T S).Defined v ↔ g.Defined v := by
    intro v
    simp only [Defined, hmem]
    rfl
  exact {
    nodes_nodup := hperm.nodup_iff.mpr h.nodes_nodup
    nodes_lt := fun n hn => h.nodes_lt n ((hmem n).mp hn)
    exact := fun v n => by
      have := h.exact v n
      simp only [← hmem n] at this
      exact this
    values_eq := fun v hv => h.values_eq v ((hlive v).mp hv)
    live_lt := fun v hv => h.live_lt v ((hlive v).mp hv)
    inputs_nodup := h.inputs_nodup
    outputs_nodup := (hperm.flatMap_right g.outputsOf).nodup_iff.mpr h.outputs_nodup
    input_apart := h.input_apart
    output_apart := fun n hn => h.output_apart n ((hmem n).mp hn)
    node_eq := fun n hn => h.node_eq n ((hmem n).mp hn)
    node_mem := fun v n hv hp =>
      (h.node_mem v n ((hlive v).mp hv) hp).imp_left (hmem n).mpr
    reads_defined := fun n hn v hv =>
      (hdef v).mpr (h.reads_defined n ((hmem n).mp hn) v hv)
    outputs_defined := fun v hv => (hdef v).mpr (h.outputs_defined v hv)
    acyclic := by
      obtain ⟨rank, hrank⟩ := h.acyclic
      exact ⟨rank, fun n hn v hv m hm hvm =>
        hrank n ((hmem n).mp hn) v hv m ((hmem m).mp hm) hvm⟩ }

theorem yields_reorder (hperm : l.Perm g.nodes) (hy : g.Yields exec ins outs) :
    ({ g with nodes := l } : Graph T S).Yields exec ins outs := by
  obtain ⟨hlen, E, hE, houts⟩ := hy
  refine ⟨hlen, E, ⟨hE.init, fun s hs => hE.holds s ?_⟩, houts⟩
  obtain ⟨n, hn, rfl⟩ := mem_map.mp hs
  exact mem_map.mpr ⟨n, hperm.mem_iff.mp hn, rfl⟩

/-- Sorting a well-formed graph only rearranges its nodes, into dependency order. -/
theorem topologicalSort_sorted (h : g.WellFormed) :
    ∃ l, g.topologicalSort = .ok { g with nodes := l } ∧ l.Perm g.nodes ∧
      ({ g with nodes := l } : Graph T S).InOrder := by
  obtain ⟨rank, hrank⟩ := h.acyclic
  have hdep : ∀ n ∈ g.nodes, ∀ m ∈ g.dependencies n,
      ∃ v ∈ g.inputsOf n, m ∈ g.nodes ∧ v ∈ g.outputsOf m := by
    intro n hn m hm
    obtain ⟨v, hv, hp⟩ := mem_filterMap.mp hm
    exact ⟨v, hv, h.producer_mem (live_inputsOf hn hv) hp⟩
  have hnodes : ∀ n ∈ g.nodes, ∀ m ∈ g.dependencies n, m ∈ g.nodes := by
    intro n hn m hm
    obtain ⟨v, -, hmem, -⟩ := hdep n hn m hm
    exact hmem
  have hdec : ∀ n ∈ g.nodes, ∀ m ∈ g.dependencies n, rank m < rank n := by
    intro n hn m hm
    obtain ⟨v, hv, hmem, hvm⟩ := hdep n hn m hm
    exact hrank n hn v hv m hmem hvm
  obtain ⟨sorted, hsort, hperm, hord⟩ := Kahn.sort_spec h.nodes_nodup hnodes hdec
  have hwf := h.reorder hperm
  have hin : ({ g with nodes := sorted } : Graph T S).InOrder := by
    intro n hn v hv m hm hvm
    obtain ⟨before, after, hsplit⟩ := append_of_mem (show n ∈ sorted from hn)
    apply idxOf_lt_of_mem hwf.nodes_nodup hsplit
    exact hord before n after hsplit m (h.mem_dependencies hv (hperm.mem_iff.mp hm) hvm)
  exact ⟨sorted, by rw [topologicalSort, hsort], hperm, hin⟩

/-- Sorting a well-formed graph succeeds, and the sorted graph computes every
solution of the unsorted one. -/
theorem topologicalSort_spec {g : Graph T S} (h : g.WellFormed) :
    ∃ g', g.topologicalSort = .ok g' ∧ g'.WellFormed ∧ g'.InOrder ∧
      ∀ ins outs, g.Yields exec ins outs → g'.forward exec ins = .ok outs := by
  obtain ⟨l, hsort, hperm, hin⟩ := topologicalSort_sorted h
  refine ⟨_, hsort, h.reorder hperm, hin, fun ins outs hy => ?_⟩
  exact forward_of_yields (h.reorder hperm) hin (yields_reorder hperm hy)

end Graph

end Tenzor.Jit
