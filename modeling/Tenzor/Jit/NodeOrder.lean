import Tenzor.Autograd.SharedGraphs
import Tenzor.Jit.Forward

/-!
# The two topological sorts

The engine walks from a root with a stack, the graph compiler counts edges down with a queue. Both
find a cycle exactly if there is one, and both give up no node and repeat none.

## Implementation notes

The vector of the engine is in reverse: it lists what a Function reads before the Function. The
engine takes it from its end. A node that the graph has given up is alive while a caller holds it.
-/

namespace Tenzor

open Relation PostOrder

/-- Every node of the list stands after all that must come before it. -/
def Respects {N : Type} (Before : N → N → Prop) (l : List N) : Prop :=
  ∀ earlier n later, l = earlier ++ n :: later → ∀ m ∈ l, Before m n → m ∈ earlier

theorem Respects.of_parentsFirst {N : Type} {children : N → List (Option N)} {l : List N}
    (h : ParentsFirst children l) : Respects (Child children) l := by
  rintro earlier n later rfl m hm hchild
  exact h.parent_mem hm hchild

def cycleDetected : Exn := .autogradException "Cycle detected in computation graph"

/-- The rounds of the walk over a whole graph. -/
def Graph.rounds {T : Type} (g : Graph T) : ℕ := ∑ f ∈ g.live, ((g.children f).length + 1)

section Engine

variable {T : Type} {g : Graph T} {root : FnId}

theorem topologicalSort_cases (hlive : ∀ f, g.Reaches root f → f ∈ g.live) :
    (∃ sorted, Engine.topologicalSort g [root] = .ok sorted ∧
        ParentsFirst g.children sorted.reverse ∧ ∀ f, f ∈ sorted ↔ g.Reaches root f) ∨
      (Engine.topologicalSort g [root] = .error cycleDetected ∧
        ∃ f, g.Reaches root f ∧ TransGen (Child g.children) f f) := by
  have hroots : ∀ r ∈ [root], ∀ f, g.Reaches r f → f ∈ g.live := by simpa using hlive
  rcases @sort_spec FnId Exn g.children _ cycleDetected g.live g.rounds [root] hroots le_rfl with
    ⟨sorted, hok, horder, hmem⟩ | ⟨herror, r, hr, hcycle⟩
  · refine .inl ⟨sorted, hok, horder, fun f => ?_⟩
    rw [hmem]
    simp [Graph.Reaches]
  · rw [List.mem_singleton.mp hr] at hcycle
    exact .inr ⟨herror, hcycle⟩

theorem topologicalSort_error_iff (hlive : ∀ f, g.Reaches root f → f ∈ g.live) :
    Engine.topologicalSort g [root] = .error cycleDetected ↔
      ∃ f, g.Reaches root f ∧ TransGen (Child g.children) f f := by
  rcases topologicalSort_cases hlive with ⟨sorted, hok, horder, hmem⟩ | ⟨herror, hcycle⟩
  · rw [hok]
    constructor
    · exact nofun
    · rintro ⟨f, hreach, hcycle⟩
      exact absurd hcycle (horder.not_cyclic (List.mem_reverse.mpr ((hmem f).mpr hreach)))
  · exact iff_of_true herror hcycle

theorem topologicalSort_listed (hlive : ∀ f, g.Reaches root f → f ∈ g.live) {sorted : List FnId}
    (hsort : Engine.topologicalSort g [root] = .ok sorted) :
    sorted.Nodup ∧ (∀ f, f ∈ sorted ↔ g.Reaches root f) ∧
      Respects (Child g.children) sorted.reverse := by
  rcases topologicalSort_cases hlive with ⟨sorted', hok, horder, hmem⟩ | ⟨herror, -⟩
  · obtain rfl := Except.ok.inj (hok.symm.trans hsort)
    exact ⟨List.nodup_reverse.mp horder.nodup, hmem, .of_parentsFirst horder⟩
  · exact absurd (herror.symm.trans hsort) nofun

/-- More rounds change nothing. -/
theorem topologicalSort_rounds (hlive : ∀ f, g.Reaches root f → f ∈ g.live) {fuel : ℕ}
    (hfuel : g.rounds ≤ fuel) :
    PostOrder.sort g.children cycleDetected fuel [root] = Engine.topologicalSort g [root] :=
  sort_congr (by simpa [Graph.Reaches] using hlive) (fun _ _ _ _ => rfl) le_rfl hfuel

end Engine

namespace Jit.Graph

variable {T S : Type} {g : Graph T S}

/-- `Value::node()` while a caller holds some nodes. -/
def lockedProducer (g : Graph T S) (held : List NodeRef) (v : ValRef) : Option NodeRef :=
  (g.valAt v).node.filter fun n => n ∈ g.nodes ∨ n ∈ held

def lockedDependencies (g : Graph T S) (held : List NodeRef) (n : NodeRef) : List NodeRef :=
  (g.inputsOf n).filterMap (g.lockedProducer held)

def topologicalSortHolding (g : Graph T S) (held : List NodeRef) : Except Exn (Graph T S) :=
  match Kahn.sort g.nodes (g.lockedDependencies held) with
  | some nodes => .ok { g with nodes := nodes }
  | none => .error (.runtimeError "Graph contains cycles")

variable {held : List NodeRef}

/-- The passes run while no other node is held. -/
theorem topologicalSortHolding_nil : g.topologicalSortHolding [] = g.topologicalSort := by
  have hproducer : g.lockedProducer [] = g.producer := by
    funext v
    simp [lockedProducer, producer]
  have hdependencies : g.lockedDependencies [] = g.dependencies := by
    funext n
    rw [lockedDependencies, dependencies, hproducer]
  rw [topologicalSortHolding, hdependencies]
  rfl

/-- A node reads what a node off the list has made. -/
def ReadsUnlisted (g : Graph T S) (held : List NodeRef) : Prop :=
  ∃ n ∈ g.nodes, ∃ p ∈ g.lockedDependencies held n, p ∉ g.nodes

def Cyclic (g : Graph T S) (held : List NodeRef) : Prop :=
  ∃ n ∈ g.nodes, TransGen (Kahn.Dep (g.lockedDependencies held)) n n

theorem sort_eq_none_iff (hnd : g.nodes.Nodup) :
    Kahn.sort g.nodes (g.lockedDependencies held) = none ↔ g.ReadsUnlisted held ∨ g.Cyclic held := by
  by_cases hreads : g.ReadsUnlisted held
  · refine iff_of_true ?_ (.inl hreads)
    obtain ⟨n, hn, p, hp, hunlisted⟩ := hreads
    by_contra hsome
    obtain ⟨sorted, hsorted⟩ := Option.ne_none_iff_exists'.mp hsome
    obtain ⟨hperm, hordered⟩ := Kahn.sort_eq_some hnd hsorted
    obtain ⟨earlier, later, hsplit⟩ := List.append_of_mem (hperm.mem_iff.mpr hn)
    have hbefore := hordered earlier n later hsplit p hp
    exact hunlisted (hperm.mem_iff.mp (hsplit ▸ List.mem_append_left _ hbefore))
  · rw [Kahn.sort_eq_none_iff hnd fun n hn p hp => by_contra fun hp' => hreads ⟨n, hn, p, hp, hp'⟩]
    exact (or_iff_right hreads).symm

theorem topologicalSort_error_iff (hnd : g.nodes.Nodup) :
    g.topologicalSortHolding held = .error (.runtimeError "Graph contains cycles") ↔
      g.ReadsUnlisted held ∨ g.Cyclic held := by
  rw [← sort_eq_none_iff hnd, topologicalSortHolding]
  cases Kahn.sort g.nodes (g.lockedDependencies held) with
  | none => exact ⟨fun _ => rfl, fun _ => rfl⟩
  | some sorted => exact ⟨nofun, nofun⟩

theorem topologicalSort_listed (hnd : g.nodes.Nodup)
    (hno : ¬ (g.ReadsUnlisted held ∨ g.Cyclic held)) :
    ∃ sorted, g.topologicalSortHolding held = .ok { g with nodes := sorted } ∧
      sorted.Perm g.nodes ∧ Respects (fun p n => p ∈ g.lockedDependencies held n) sorted := by
  obtain ⟨sorted, hsorted⟩ := Option.ne_none_iff_exists'.mp (mt (sort_eq_none_iff hnd).mp hno)
  obtain ⟨hperm, hordered⟩ := Kahn.sort_eq_some hnd hsorted
  refine ⟨sorted, by rw [topologicalSortHolding, hsorted], hperm, ?_⟩
  intro earlier n later hl p _ hp
  exact hordered earlier n later hl p hp

/-- What the loop has sorted after so many rounds. -/
def sortedAfter (g : Graph T S) (held : List NodeRef) (rounds : ℕ) : List NodeRef :=
  Kahn.loop (Kahn.successors g.nodes (g.lockedDependencies held)) rounds
    (Kahn.inDegree (g.lockedDependencies held))
    (g.nodes.filter fun n => Kahn.inDegree (g.lockedDependencies held) n = 0) []

/-- More rounds than nodes change nothing. -/
theorem sortedAfter_of_le (hnd : g.nodes.Nodup) {rounds : ℕ} (h : g.nodes.length ≤ rounds) :
    g.sortedAfter held rounds = g.sortedAfter held g.nodes.length :=
  Kahn.loop_eq_of_le hnd (Kahn.Progress.init hnd) (by simp) rounds h

end Jit.Graph

/-- Either sort ends, throws exactly if it can come round a cycle, and else lists what it covers
once each. The engine reads its list from the end, consumers first; the compiler leaves producers
first, and throws also if it meets a producer that is not in the list. -/
theorem topologicalSorts (T S : Type) :
    (∀ (g : Graph T) (root : FnId), (∀ f, g.Reaches root f → f ∈ g.live) →
      (∀ fuel ≥ g.rounds, PostOrder.sort g.children cycleDetected fuel [root] =
        Engine.topologicalSort g [root]) ∧
      (Engine.topologicalSort g [root] = .error cycleDetected ↔
        ∃ f, g.Reaches root f ∧ TransGen (Child g.children) f f) ∧
      ((¬ ∃ f, g.Reaches root f ∧ TransGen (Child g.children) f f) →
        ∃ sorted, Engine.topologicalSort g [root] = .ok sorted ∧ sorted.Nodup ∧
          (∀ f, f ∈ sorted ↔ g.Reaches root f) ∧ Respects (Child g.children) sorted.reverse)) ∧
    ∀ (g : Jit.Graph T S) (held : List Jit.NodeRef), g.nodes.Nodup →
      (∀ rounds ≥ g.nodes.length, g.sortedAfter held rounds = g.sortedAfter held g.nodes.length) ∧
      (g.topologicalSortHolding held = .error (.runtimeError "Graph contains cycles") ↔
        g.ReadsUnlisted held ∨ g.Cyclic held) ∧
      (¬ (g.ReadsUnlisted held ∨ g.Cyclic held) →
        ∃ sorted, g.topologicalSortHolding held = .ok { g with nodes := sorted } ∧
          sorted.Perm g.nodes ∧ Respects (fun p n => p ∈ g.lockedDependencies held n) sorted) := by
  constructor
  · intro g root hlive
    refine ⟨fun fuel => topologicalSort_rounds hlive, topologicalSort_error_iff hlive, fun hno => ?_⟩
    cases hsort : Engine.topologicalSort g [root] with
    | ok sorted => exact ⟨sorted, rfl, topologicalSort_listed hlive hsort⟩
    | error e =>
      rcases topologicalSort_cases hlive with ⟨sorted, hok, -⟩ | ⟨-, hcycle⟩
      · exact absurd (hok.symm.trans hsort) nofun
      · exact absurd hcycle hno
  · intro g held hnd
    exact ⟨fun rounds => Jit.Graph.sortedAfter_of_le hnd, Jit.Graph.topologicalSort_error_iff hnd,
      Jit.Graph.topologicalSort_listed hnd⟩

/-- A negated constant, its nodes the wrong way round. -/
def negatedConstant : Jit.Graph Int Empty where
  valAt v := match v with
    | 0 => { id := "c", node := some 0, uses := [1] }
    | _ => { id := "negated", node := some 1 }
  nodeAt n := match n with
    | 0 => { opType := .constant, outputs := [0] }
    | _ => { opType := .neg, inputs := [0], outputs := [1] }
  nextVal := 2
  nextNode := 2
  nodes := [1, 0]
  values i := if i = "c" then some 0 else if i = "negated" then some 1 else none
  inputs := []
  outputs := [1]

theorem topologicalSorts_small :
    (∃ sorted, Engine.topologicalSort Graph.sharedGraph [1] = .ok sorted ∧ sorted.Nodup ∧
      (∀ f, f ∈ sorted ↔ Graph.sharedGraph.Reaches 1 f) ∧
      Respects (Child Graph.sharedGraph.children) sorted.reverse) ∧
    ∃ sorted, negatedConstant.topologicalSortHolding [0] =
        .ok { negatedConstant with nodes := sorted } ∧ sorted.Perm [1, 0] ∧
      Respects (fun p n => p ∈ negatedConstant.lockedDependencies [0] n) sorted := by
  obtain ⟨hengine, hjit⟩ := topologicalSorts Int Empty
  constructor
  · obtain ⟨-, hcycle, hsorted⟩ := hengine Graph.sharedGraph 1 fun f =>
      Graph.sharedGraph_closed.reaches_live (by decide)
    exact hsorted (mt hcycle.mpr nofun)
  · obtain ⟨-, herror, hsorted⟩ := hjit negatedConstant [0] (by decide)
    exact hsorted (mt herror.mpr nofun)

/-- The negation is left in the list, the constant is only held. -/
def keptNegation : Jit.Graph Int Empty := { negatedConstant with nodes := [1] }

theorem keptNegation_acyclic : ¬ keptNegation.Cyclic [0] := by
  rintro ⟨n, hn, hcycle⟩
  obtain rfl := List.mem_singleton.mp hn
  obtain ⟨p, hp, hback⟩ := TransGen.head'_iff.mp hcycle
  obtain rfl := List.mem_singleton.mp (show p ∈ [0] from hp)
  obtain heq | ⟨q, hq, -⟩ := hback.cases_head
  · exact absurd heq (by decide)
  · exact absurd (show q ∈ [] from hq) List.not_mem_nil

/-- The vector itself lists the Function that is read before the one that reads it. The compiler
takes a held producer for a cycle. -/
theorem topologicalSort_reversed :
    (Engine.topologicalSort Graph.sharedGraph [1] = .ok [0, 1] ∧
      Child Graph.sharedGraph.children 1 0 ∧
      ¬ Respects (Child Graph.sharedGraph.children) [0, 1]) ∧
    ¬ keptNegation.Cyclic [0] ∧
      keptNegation.topologicalSortHolding [0] = .error (.runtimeError "Graph contains cycles") := by
  have hchild : some 0 ∈ Graph.sharedGraph.children 1 := by decide
  refine ⟨⟨rfl, hchild, fun h => ?_⟩, keptNegation_acyclic, rfl⟩
  exact absurd (h [] 0 [1] rfl 1 (by decide) hchild) List.not_mem_nil

end Tenzor
