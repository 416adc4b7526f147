import Tenzor.Jit.Solutions

/-!
# The rewriting steps of the passes

Every pass is built from three steps: redirect the readers of one value to
another, drop nodes nobody reads, append a node. Each step keeps a graph
well formed and carries its solutions over, under the condition stated here.
-/

namespace Tenzor.Jit

open Dataflow List

namespace Graph

variable {T S : Type} {exec : Exec T S} {g : Graph T S}

/-- `k` is `g` with some nodes dropped and the inputs of nodes and the outputs of
the graph rewired; `l` are the nodes left. -/
structure Rewiring (g k : Graph T S) (l : List NodeRef) : Prop where
  skeleton : k.skeleton = ({ g with nodes := l } : Graph T S).skeleton
  sub : l.Sublist g.nodes
  exact : k.UsesExact

/-- A value that nodes may read after the rewiring: its producer, if it has one, is left. -/
structure Kept (g : Graph T S) (l : List NodeRef) (v : ValRef) : Prop where
  live : g.Live v
  defined : g.Defined v
  producer : ∀ m ∈ g.nodes, v ∈ g.outputsOf m → m ∈ l

namespace Rewiring

variable {k : Graph T S} {l : List NodeRef} (r : Rewiring g k l)

include r

theorem nodes_eq : k.nodes = l := nodes_of_skeleton r.skeleton

theorem nextNode_eq : k.nextNode = g.nextNode :=
  eq_of_skeleton r.skeleton Graph.nextNode fun _ => rfl

theorem nextVal_eq : k.nextVal = g.nextVal := eq_of_skeleton r.skeleton Graph.nextVal fun _ => rfl

theorem idOf_eq (v : ValRef) : k.idOf v = g.idOf v := idOf_of_skeleton r.skeleton v

theorem outputsOf_eq (n : NodeRef) : k.outputsOf n = g.outputsOf n :=
  outputsOf_of_skeleton r.skeleton n

theorem codeOf_eq (n : NodeRef) : k.codeOf n = g.codeOf n := codeOf_of_skeleton r.skeleton n

theorem node_eq (v : ValRef) : (k.valAt v).node = (g.valAt v).node := by
  have h := node_of_skeleton r.skeleton v
  exact h

theorem inputs_eq : k.inputs = g.inputs :=
  eq_of_skeleton r.skeleton Graph.inputs fun _ => rfl

theorem constants_eq : k.constants = g.constants :=
  eq_of_skeleton r.skeleton Graph.constants fun _ => rfl

/-- The rewired graph is well formed when everything it reads is kept. -/
theorem wellFormed (h : g.WellFormed) (hin : ∀ n ∈ l, ∀ v ∈ k.inputsOf n, Kept g l v)
    (hout : ∀ v ∈ k.outputs, Kept g l v) {rank : NodeRef → Nat}
    (hrank : ∀ n ∈ l, ∀ v ∈ k.inputsOf n, ∀ m ∈ l, v ∈ g.outputsOf m → rank m < rank n) :
    k.WellFormed := by
  have hmem : ∀ n, n ∈ k.nodes ↔ n ∈ l := fun n => by rw [r.nodes_eq]
  have hsub : ∀ n, n ∈ l → n ∈ g.nodes := fun n hn => r.sub.subset hn
  have hnode : ∀ v, (k.valAt v).node = (g.valAt v).node := r.node_eq
  have hlive : ∀ v, k.Live v → g.Live v ∧ ∀ m ∈ g.nodes, v ∈ g.outputsOf m → m ∈ l := by
    rintro v (hv | hv | ⟨n, hn, hv | hv⟩)
    · rw [r.inputs_eq] at hv
      exact ⟨live_input hv, fun m hm hvm => absurd hv (h.output_apart m hm v hvm).1⟩
    · exact ⟨(hout v hv).live, (hout v hv).producer⟩
    · have := hin n ((hmem n).mp hn) v hv
      exact ⟨this.live, this.producer⟩
    · rw [r.outputsOf_eq] at hv
      have hn := (hmem n).mp hn
      refine ⟨live_outputsOf (hsub n hn) hv, fun m hm hvm => ?_⟩
      rwa [h.producer_unique hm hvm (hsub n hn) hv]
  have hdef : ∀ v, Kept g l v → k.Defined v := by
    intro v hv
    obtain hd | hd | ⟨m, hm, hvm⟩ := hv.defined
    · exact .inl (by rwa [r.inputs_eq])
    · exact .inr (.inl (by rwa [r.constants_eq, r.idOf_eq]))
    · refine .inr (.inr ⟨m, (hmem m).mpr (hv.producer m hm hvm), ?_⟩)
      rwa [r.outputsOf_eq]
  have houtputs : k.outputsOf = g.outputsOf := funext r.outputsOf_eq
  exact {
    nodes_nodup := by
      rw [r.nodes_eq]
      exact h.nodes_nodup.sublist r.sub
    nodes_lt := fun n hn => by
      have hnext : k.nextNode = g.nextNode :=
        eq_of_skeleton r.skeleton Graph.nextNode fun _ => rfl
      rw [hnext]
      exact h.nodes_lt n (hsub n ((hmem n).mp hn))
    exact := r.exact
    values_eq := fun v hv => by
      rw [values_of_skeleton r.skeleton, r.idOf_eq]
      exact h.values_eq v (hlive v hv).1
    live_lt := fun v hv => by
      rw [nextVal_of_skeleton r.skeleton]
      exact h.live_lt v (hlive v hv).1
    inputs_nodup := by
      rw [r.inputs_eq]
      exact h.inputs_nodup
    outputs_nodup := by
      rw [r.nodes_eq, houtputs]
      exact h.outputs_nodup.sublist (r.sub.flatMap _)
    input_apart := fun v hv => by
      rw [r.inputs_eq] at hv
      rw [r.constants_eq, r.idOf_eq]
      exact h.input_apart v hv
    output_apart := fun n hn v hv => by
      rw [r.outputsOf_eq] at hv
      rw [r.inputs_eq, r.constants_eq, r.idOf_eq]
      exact h.output_apart n (hsub n ((hmem n).mp hn)) v hv
    node_eq := fun n hn v hv => by
      rw [r.outputsOf_eq] at hv
      rw [hnode]
      exact h.node_eq n (hsub n ((hmem n).mp hn)) v hv
    node_mem := fun v n hv hp => by
      rw [hnode] at hp
      obtain ⟨hn, hvn⟩ := h.node_mem v n (hlive v hv).1 hp
      rw [hmem, r.outputsOf_eq]
      exact ⟨(hlive v hv).2 n hn hvn, hvn⟩
    reads_defined := fun n hn v hv => hdef v (hin n ((hmem n).mp hn) v hv)
    outputs_defined := fun v hv => hdef v (hout v hv)
    acyclic := by
      refine ⟨rank, fun n hn v hv m hm hvm => ?_⟩
      rw [r.outputsOf_eq] at hvm
      exact hrank n ((hmem n).mp hn) v hv m ((hmem m).mp hm) hvm }

end Rewiring

def removeNodes (g : Graph T S) (ds : List NodeRef) : Graph T S := ds.foldl removeNode g

theorem removeNodes_spec (g : Graph T S) (ds : List NodeRef) :
    (g.removeNodes ds).skeleton = ({ g with nodes := g.nodes.diff ds } : Graph T S).skeleton ∧
      (g.removeNodes ds).outputs = g.outputs ∧
      (∀ m, (g.removeNodes ds).inputsOf m = g.inputsOf m) ∧
      (g.nodes.Nodup → g.UsesExact → (g.removeNodes ds).UsesExact) := by
  induction ds generalizing g with
  | nil => exact ⟨rfl, rfl, fun _ => rfl, fun _ h => h⟩
  | cons d ds ih =>
    obtain ⟨hs, ho, hi, hu⟩ := ih (g.removeNode d)
    have hsk := removeNode_skeleton g d
    have hnodes := nodes_removeNode g d
    refine ⟨?_, ho.trans (outputs_removeNode g d),
      fun m => (hi m).trans (inputsOf_removeNode g d m), fun hnd h => ?_⟩
    · change ((g.removeNode d).removeNodes ds).skeleton = _
      rw [hs, hnodes, diff_cons]
      change ({ (g.removeNode d).skeleton with nodes := _ } : Graph T S) = _
      rw [hsk]
      rfl
    · apply hu
      · rw [hnodes]
        exact hnd.erase d
      · exact h.removeNode (.inl (nodup_iff_count_le_one.mp hnd d))

end Graph

end Tenzor.Jit
