import Tenzor.Jit.Rewrites

/-!
# Subgraphs

The branches of an `If` and the body of a `Loop` are graphs of their own: they
receive tensors through `forward` and see nothing of the outer graph.
-/

namespace Tenzor.Jit

variable {T S : Type}

namespace NodeCode

def subgraphs (c : NodeCode T S) : List S :=
  c.thenBranch.toList ++ c.elseBranch.toList ++ c.body.toList

end NodeCode

namespace Graph

variable {g : Graph T S}

/-- Every node gets new code; the wiring stays. -/
def withCode (g : Graph T S) (c : NodeRef → NodeCode T S) : Graph T S :=
  { g with nodeAt := fun n => { g.nodeAt n with toNodeCode := c n } }

theorem WellFormed.withCode (h : g.WellFormed) (c : NodeRef → NodeCode T S) :
    (g.withCode c).WellFormed :=
  ⟨h.nodes_nodup, h.nodes_lt, h.exact, h.values_eq, h.live_lt, h.inputs_nodup, h.outputs_nodup,
    h.input_apart, h.output_apart, h.node_eq, h.node_mem, h.reads_defined, h.outputs_defined,
    h.acyclic⟩

end Graph

end Tenzor.Jit
