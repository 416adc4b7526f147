import Tenzor.Jit.Solutions

/-!
# Graphs written out

A graph given by the lists of its values and nodes. Well-formedness of such a
graph is a finite check.
-/

namespace Tenzor.Jit

open List

variable {T S : Type}

/-- The heaps as lists; the position of an entry is its address. -/
structure GraphLiteral (T S : Type) where
  vals : List Value
  nodeList : List (Node T S)
  order : List NodeRef
  inputs : List ValRef
  outputs : List ValRef
  constants : List (String × T) := []
  nextNodeId : Nat := 0

namespace GraphLiteral

def toGraph (l : GraphLiteral T S) : Graph T S where
  valAt v := l.vals.getD v { id := "" }
  nodeAt n := l.nodeList.getD n { opType := .constant }
  nextVal := l.vals.length
  nextNode := l.nodeList.length
  nodes := l.order
  values i := if i ∈ l.vals.map Value.id then some ((l.vals.map Value.id).idxOf i) else none
  inputs := l.inputs
  outputs := l.outputs
  constants i := l.constants.lookup i
  nextNodeId := l.nextNodeId

/-- The finite check. -/
def Valid (l : GraphLiteral T S) : Prop :=
  let g := l.toGraph
  l.order.Nodup ∧ (∀ n ∈ l.order, n < l.nodeList.length) ∧
  (l.vals.map Value.id).Nodup ∧
  (∀ v < l.vals.length, ∀ n < l.nodeList.length,
    (g.usesOf v).count n = if n ∈ l.order then (g.inputsOf n).count v else 0) ∧
  (∀ v < l.vals.length, ∀ n ∈ g.usesOf v, n < l.nodeList.length) ∧
  (∀ n ∈ l.order, (∀ v ∈ g.inputsOf n, v < l.vals.length) ∧ ∀ v ∈ g.outputsOf n, v < l.vals.length) ∧
  (∀ v ∈ l.inputs, v < l.vals.length) ∧ (∀ v ∈ l.outputs, v < l.vals.length) ∧
  l.inputs.Nodup ∧ (l.order.flatMap g.outputsOf).Nodup ∧
  (∀ v ∈ l.inputs, (l.constants.lookup (g.idOf v)).isNone) ∧
  (∀ n ∈ l.order, ∀ v ∈ g.outputsOf n,
    v ∉ l.inputs ∧ (l.constants.lookup (g.idOf v)).isNone ∧ (g.valAt v).node = some n) ∧
  (∀ v < l.vals.length, ∀ n ∈ (g.valAt v).node, n ∈ l.order ∧ v ∈ g.outputsOf n) ∧
  (∀ n ∈ l.order, ∀ v ∈ g.inputsOf n, v ∈ l.inputs ∨
    (l.constants.lookup (g.idOf v)).isSome ∨ ∃ m ∈ l.order, v ∈ g.outputsOf m) ∧
  (∀ v ∈ l.outputs, v ∈ l.inputs ∨
    (l.constants.lookup (g.idOf v)).isSome ∨ ∃ m ∈ l.order, v ∈ g.outputsOf m) ∧
  ∀ n ∈ l.order, ∀ v ∈ g.inputsOf n, ∀ m ∈ l.order, v ∈ g.outputsOf m →
    l.order.idxOf m < l.order.idxOf n

instance (l : GraphLiteral T S) : Decidable l.Valid := by
  delta Valid
  dsimp only
  infer_instance

section Check

variable {l : GraphLiteral T S} {v : ValRef}

theorem usesOf_of_le (hv : l.vals.length ≤ v) : l.toGraph.usesOf v = [] := by
  simp [Graph.usesOf, toGraph, List.getD, getElem?_eq_none hv]

theorem values_idOf (hnd : (l.vals.map Value.id).Nodup) (hv : v < l.vals.length) :
    l.toGraph.values (l.toGraph.idOf v) = some v := by
  have hlen : v < (l.vals.map Value.id).length := by simpa using hv
  have hid : l.toGraph.idOf v = (l.vals.map Value.id)[v] := by
    simp [Graph.idOf, toGraph, List.getD, hv]
  have hmem : l.toGraph.idOf v ∈ l.vals.map Value.id := hid ▸ getElem_mem hlen
  change (if _ then _ else _) = _
  rw [if_pos hmem, hid, Nodup.idxOf_getElem hnd]

theorem usesExact (hlt : ∀ n ∈ l.order, n < l.nodeList.length)
    (hu : ∀ v < l.vals.length, ∀ n < l.nodeList.length, (l.toGraph.usesOf v).count n =
      if n ∈ l.order then (l.toGraph.inputsOf n).count v else 0)
    (hn : ∀ v < l.vals.length, ∀ n ∈ l.toGraph.usesOf v, n < l.nodeList.length)
    (hin : ∀ n ∈ l.order, ∀ v ∈ l.toGraph.inputsOf n, v < l.vals.length) :
    l.toGraph.UsesExact := by
  intro v n
  change _ = if n ∈ l.order then _ else _
  by_cases hv : v < l.vals.length
  · by_cases hnlt : n < l.nodeList.length
    · exact hu v hv n hnlt
    · rw [if_neg fun hmem => hnlt (hlt n hmem), count_eq_zero]
      exact fun hmem => hnlt (hn v hv n hmem)
  · rw [usesOf_of_le (Nat.not_lt.mp hv)]
    split_ifs with hmem
    · rw [count_nil, eq_comm, count_eq_zero]
      exact fun h => hv (hin n hmem v h)
    · rfl

theorem wellFormed (h : l.Valid) : l.toGraph.WellFormed ∧ l.toGraph.InOrder := by
  obtain ⟨hnd, hlt, hids, hu, hun, hrw, hinlt, houtlt, hinnd, houtnd, hinc, hout, hnode, hrd, hod,
    hord⟩ := h
  have hlive : ∀ v, l.toGraph.Live v → v < l.vals.length := by
    rintro v (hv | hv | ⟨n, hn, hv | hv⟩)
    · exact hinlt v hv
    · exact houtlt v hv
    · exact (hrw n hn).1 v hv
    · exact (hrw n hn).2 v hv
  have hdef : ∀ v, (v ∈ l.inputs ∨ (l.constants.lookup (l.toGraph.idOf v)).isSome ∨
      ∃ m ∈ l.order, v ∈ l.toGraph.outputsOf m) → l.toGraph.Defined v := by
    rintro v (hv | hv | hv)
    · exact .inl hv
    · exact .inr (.inl (Option.isSome_iff_ne_none.mp hv))
    · exact .inr (.inr hv)
  refine ⟨?_, hord⟩
  exact {
    nodes_nodup := hnd
    nodes_lt := hlt
    exact := usesExact hlt hu hun fun n hn => (hrw n hn).1
    values_eq := fun v hv => values_idOf hids (hlive v hv)
    live_lt := hlive
    inputs_nodup := hinnd
    outputs_nodup := houtnd
    input_apart := fun v hv => Option.isNone_iff_eq_none.mp (hinc v hv)
    output_apart := fun n hn v hv =>
      ⟨(hout n hn v hv).1, Option.isNone_iff_eq_none.mp (hout n hn v hv).2.1⟩
    node_eq := fun n hn v hv => (hout n hn v hv).2.2
    node_mem := fun v n hv hp => hnode v (hlive v hv) n hp
    reads_defined := fun n hn v hv => hdef v (hrd n hn v hv)
    outputs_defined := fun v hv => hdef v (hod v hv)
    acyclic := ⟨_, hord⟩ }

end Check

end GraphLiteral

end Tenzor.Jit
