import Tenzor.Jit.Graph
import Mathlib.Tactic.IntervalCases

/-!
# Use lists under the graph operations

The use list of a value is exact when it holds each node of the graph as often
as that node reads the value. `add_use` inserts one entry for each input
position, `remove_use` drops all entries of a node, so the operations keep the
lists exact only where the two agree.
-/

namespace Tenzor.Jit

open List

namespace Graph

variable {T S : Type} {g : Graph T S} {v old new : ValRef} {n : NodeRef}

/-! ## What no rewiring changes -/

/-- The graph without its wiring: use lists, node inputs and graph outputs are
blanked. Two graphs with one skeleton differ in their wiring only. -/
def skeleton (g : Graph T S) : Graph T S :=
  { g with
    valAt := fun v => { g.valAt v with uses := [] }
    nodeAt := fun n => { g.nodeAt n with inputs := [] }
    outputs := [] }

section Skeleton

variable {g h : Graph T S} (hs : h.skeleton = g.skeleton)

include hs

theorem eq_of_skeleton {α : Type} (f : Graph T S → α) (hf : ∀ k, f k.skeleton = f k) :
    f h = f g := by
  rw [← hf h, hs, hf]

theorem idOf_of_skeleton (v : ValRef) : h.idOf v = g.idOf v :=
  eq_of_skeleton hs (fun k => k.idOf v) fun _ => rfl

theorem node_of_skeleton (v : ValRef) : (h.valAt v).node = (g.valAt v).node :=
  eq_of_skeleton hs (fun k => (k.valAt v).node) fun _ => rfl

theorem outputsOf_of_skeleton (n : NodeRef) : h.outputsOf n = g.outputsOf n :=
  eq_of_skeleton hs (fun k => k.outputsOf n) fun _ => rfl

theorem opOf_of_skeleton (n : NodeRef) : h.opOf n = g.opOf n :=
  eq_of_skeleton hs (fun k => k.opOf n) fun _ => rfl

theorem codeOf_of_skeleton (n : NodeRef) : h.codeOf n = g.codeOf n :=
  eq_of_skeleton hs (fun k => k.codeOf n) fun _ => rfl

theorem nodes_of_skeleton : h.nodes = g.nodes := eq_of_skeleton hs Graph.nodes fun _ => rfl

theorem values_of_skeleton : h.values = g.values := eq_of_skeleton hs Graph.values fun _ => rfl

theorem nextVal_of_skeleton : h.nextVal = g.nextVal :=
  eq_of_skeleton hs Graph.nextVal fun _ => rfl

end Skeleton

theorem skeleton_setVal {x : Value} (hx : { x with uses := [] } = { g.valAt v with uses := [] }) :
    (g.setVal v x).skeleton = g.skeleton := by
  simp only [skeleton, setVal, Graph.mk.injEq, and_true]
  ext w
  all_goals
    by_cases hw : w = v
    · simp_all [Function.update]
    · simp [Function.update, hw]

@[simp] theorem skeleton_addUse (g : Graph T S) (v : ValRef) (n : NodeRef) :
    (g.addUse v n).skeleton = g.skeleton := skeleton_setVal rfl

@[simp] theorem skeleton_removeUse (g : Graph T S) (v : ValRef) (n : NodeRef) :
    (g.removeUse v n).skeleton = g.skeleton := skeleton_setVal rfl

@[simp] theorem skeleton_clearUses (g : Graph T S) (v : ValRef) :
    (g.clearUses v).skeleton = g.skeleton := skeleton_setVal rfl

theorem skeleton_setInputs (g : Graph T S) (n : NodeRef) (l : List ValRef) :
    (g.setNode n { g.nodeAt n with inputs := l }).skeleton = g.skeleton := by
  simp only [skeleton, setNode, Graph.mk.injEq, and_true, true_and]
  funext m
  by_cases hm : m = n
  · simp [Function.update, hm]
  · simp [Function.update, hm]

@[simp] theorem skeleton_addInput (g : Graph T S) (n : NodeRef) (v : ValRef) :
    (g.addInput n v).skeleton = g.skeleton := by
  rw [addInput, skeleton_addUse, skeleton_setInputs]

@[simp] theorem skeleton_rewire (g : Graph T S) (n : NodeRef) (i : Nat) (old v : ValRef) :
    (g.rewire n i old v).skeleton = g.skeleton := by
  simp only [rewire, skeleton_addUse, skeleton_setInputs, skeleton_removeUse]

theorem inputsOf_addInput (g : Graph T S) (n m : NodeRef) (v : ValRef) :
    (g.addInput n v).inputsOf m = if m = n then g.inputsOf n ++ [v] else g.inputsOf m := by
  by_cases hm : m = n
  · simp [addInput, addUse, setVal, setNode, inputsOf, hm]
  · simp [addInput, addUse, setVal, setNode, inputsOf, hm]

theorem inputsOf_rewire (g : Graph T S) (n m : NodeRef) (i : Nat) (old v : ValRef) :
    (g.rewire n i old v).inputsOf m =
      if m = n then (g.inputsOf n).set i v else g.inputsOf m := by
  by_cases hm : m = n
  · simp [rewire, addUse, removeUse, setVal, setNode, inputsOf, hm]
  · simp [rewire, addUse, removeUse, setVal, setNode, inputsOf, hm]

@[simp] theorem outputs_rewire (g : Graph T S) (n : NodeRef) (i : Nat) (old v : ValRef) :
    (g.rewire n i old v).outputs = g.outputs := rfl

theorem usesOf_setVal (g : Graph T S) (v w : ValRef) (x : Value) :
    (g.setVal v x).usesOf w = if w = v then x.uses else g.usesOf w := by
  by_cases hw : w = v
  · simp [setVal, usesOf, hw]
  · simp [setVal, usesOf, hw]

theorem count_addUse (g : Graph T S) (v w : ValRef) (n m : NodeRef) :
    ((g.addUse v n).usesOf w).count m =
      (g.usesOf w).count m + if w = v ∧ m = n then 1 else 0 := by
  rw [addUse, usesOf_setVal]
  by_cases hw : w = v
  · subst hw
    by_cases hm : m = n
    · simp [hm, usesOf]
    · simp [hm, usesOf, Ne.symm hm]
  · simp [hw]

theorem count_removeUse (g : Graph T S) (v w : ValRef) (n m : NodeRef) :
    ((g.removeUse v n).usesOf w).count m =
      if w = v ∧ m = n then 0 else (g.usesOf w).count m := by
  rw [removeUse, usesOf_setVal]
  by_cases hw : w = v
  · subst hw
    by_cases hm : m = n
    · subst hm
      simp [count_eq_zero, mem_filter]
    · simp [hm, usesOf, count_filter]
  · simp [hw]

theorem count_addInput (g : Graph T S) (n m : NodeRef) (v w : ValRef) :
    ((g.addInput n v).usesOf w).count m =
      (g.usesOf w).count m + if w = v ∧ m = n then 1 else 0 := by
  rw [addInput, count_addUse]
  rfl

theorem count_rewire (g : Graph T S) (n m : NodeRef) (i : Nat) (old v w : ValRef) :
    ((g.rewire n i old v).usesOf w).count m =
      (if w = old ∧ m = n then 0 else (g.usesOf w).count m) +
        if w = v ∧ m = n then 1 else 0 := by
  rw [rewire, count_addUse, ← count_removeUse]
  rfl

/-- Every node of the graph stands in the use list of a value once for each of
its inputs that is this value, and no other node does. -/
def UsesExact (g : Graph T S) : Prop :=
  ∀ v n, (g.usesOf v).count n = if n ∈ g.nodes then (g.inputsOf n).count v else 0

theorem UsesExact.mem_nodes (h : g.UsesExact) (hn : n ∈ g.usesOf v) : n ∈ g.nodes := by
  by_contra hnot
  have hcount := h v n
  rw [if_neg hnot, count_eq_zero] at hcount
  exact hcount hn

theorem UsesExact.mem_usesOf_iff (h : g.UsesExact) :
    n ∈ g.usesOf v ↔ n ∈ g.nodes ∧ v ∈ g.inputsOf n := by
  rw [← count_pos_iff, h v n]
  split_ifs with hn
  · simp [hn, count_pos_iff]
  · simp [hn]

/-! ## One consumer of a replaced value -/

/-- The value a reader of `v` reads after `old` has been replaced by `new`. -/
def redirect (old new v : ValRef) : ValRef := if v = old then new else v

@[simp] theorem redirect_self (old new : ValRef) : redirect old new old = new := by
  simp [redirect]

theorem redirect_of_ne (new : ValRef) (h : v ≠ old) : redirect old new v = v := by
  simp [redirect, h]

theorem redirect_idem (hne : new ≠ old) (v : ValRef) :
    redirect old new (redirect old new v) = redirect old new v := by
  by_cases hv : v = old
  · simp [redirect, hv, hne]
  · simp [redirect, hv]

theorem map_redirect_idem (hne : new ≠ old) (l : List ValRef) :
    (l.map (redirect old new)).map (redirect old new) = l.map (redirect old new) := by
  rw [map_map]
  exact map_congr_left fun v _ => redirect_idem hne v

theorem map_redirect_of_not_mem (new : ValRef) {l : List ValRef} (h : old ∉ l) :
    l.map (redirect old new) = l := by
  calc
    l.map (redirect old new) = l.map id :=
      map_congr_left fun x hx => redirect_of_ne new fun he => h (he ▸ hx)
    _ = l := map_id l

theorem count_map_redirect (hne : new ≠ old) (w : ValRef) (l : List ValRef) :
    (l.map (redirect old new)).count w =
      if w = old then 0 else l.count w + if w = new then l.count old else 0 := by
  induction l with
  | nil => simp
  | cons x l ih =>
    rw [map_cons, count_cons]
    by_cases hx : x = old
    · grind [redirect_self]
    · rw [redirect_of_ne new hx]
      grind

section Consumer

variable {g : Graph T S} {oldId : String} {old new : ValRef} {n : NodeRef} {k : Nat}

/-- The first `k` rounds of the inner loop of `replace_value`. -/
def redirectFirst (g : Graph T S) (oldId : String) (new : ValRef) (n : NodeRef) (k : Nat) :
    Graph T S :=
  (List.range k).foldl (fun h i => h.redirectAt oldId new n i) g

theorem redirectFirst_succ (k : Nat) :
    g.redirectFirst oldId new n (k + 1) =
      (g.redirectFirst oldId new n k).redirectAt oldId new n k := by
  simp [redirectFirst, range_succ]

theorem skeleton_redirectAt (i : Nat) :
    (g.redirectAt oldId new n i).skeleton = g.skeleton := by
  unfold redirectAt
  split
  · rfl
  · split_ifs
    · simp
    · rfl

theorem skeleton_redirectFirst (k : Nat) :
    (g.redirectFirst oldId new n k).skeleton = g.skeleton := by
  induction k with
  | zero => rfl
  | succ k ih => rw [redirectFirst_succ, skeleton_redirectAt, ih]

theorem outputs_redirectFirst (k : Nat) :
    (g.redirectFirst oldId new n k).outputs = g.outputs := by
  induction k with
  | zero => rfl
  | succ k ih =>
    rw [redirectFirst_succ, redirectAt]
    split
    · exact ih
    · split_ifs
      · rw [outputs_rewire, ih]
      · exact ih

theorem inputsOf_redirectFirst_of_ne {m : NodeRef} (hm : m ≠ n) (k : Nat) :
    (g.redirectFirst oldId new n k).inputsOf m = g.inputsOf m := by
  induction k with
  | zero => rfl
  | succ k ih =>
    rw [redirectFirst_succ, redirectAt]
    split
    · exact ih
    · split_ifs
      · rw [inputsOf_rewire, if_neg hm, ih]
      · exact ih

theorem redirectAt_eq {x : ValRef} {i : Nat} (hget : (g.inputsOf n)[i]? = some x)
    (hx : g.idOf x = oldId ↔ x = old) :
    g.redirectAt oldId new n i = if x = old then g.rewire n i old new else g := by
  rw [redirectAt, hget]
  simp only [hx]
  split_ifs with hold
  · rw [hold]
  · rfl

theorem skeleton_redirectConsumer :
    (g.redirectConsumer oldId new n).skeleton = g.skeleton :=
  skeleton_redirectFirst _

theorem outputs_redirectConsumer :
    (g.redirectConsumer oldId new n).outputs = g.outputs :=
  outputs_redirectFirst _

variable (hid : ∀ x ∈ g.inputsOf n, g.idOf x = oldId ↔ x = old)

include hid

/-- After `k` rounds the first `k` inputs are redirected. -/
theorem inputsOf_redirectFirst (hk : k ≤ (g.inputsOf n).length) :
    (g.redirectFirst oldId new n k).inputsOf n =
      ((g.inputsOf n).take k).map (redirect old new) ++ (g.inputsOf n).drop k := by
  induction k with
  | zero => simp [redirectFirst]
  | succ k ih =>
    have hlt : k < (g.inputsOf n).length := hk
    have ih := ih hlt.le
    have hget : ((g.redirectFirst oldId new n k).inputsOf n)[k]? = some (g.inputsOf n)[k] := by
      rw [ih]
      simp [Nat.min_eq_left hlt.le, hlt]
    have hsame : ∀ x, (g.redirectFirst oldId new n k).idOf x = g.idOf x :=
      idOf_of_skeleton (skeleton_redirectFirst k)
    have hx := hid _ (getElem_mem hlt)
    rw [← hsame] at hx
    rw [redirectFirst_succ, redirectAt_eq hget hx, take_succ_eq_append_getElem hlt,
      map_append]
    by_cases hold : (g.inputsOf n)[k] = old
    · rw [if_pos hold, inputsOf_rewire, ih, drop_eq_getElem_cons hlt]
      simp [Nat.min_eq_left hlt.le, hold]
    · rw [if_neg hold, ih]
      simp [redirect_of_ne new hold]

theorem redirectFirst_succ_eq (hlt : k < (g.inputsOf n).length) :
    g.redirectFirst oldId new n (k + 1) =
      if (g.inputsOf n)[k] = old then (g.redirectFirst oldId new n k).rewire n k old new
      else g.redirectFirst oldId new n k := by
  rw [redirectFirst_succ]
  apply redirectAt_eq
  · rw [inputsOf_redirectFirst hid hlt.le]
    simp [Nat.min_eq_left hlt.le, hlt]
  · rw [idOf_of_skeleton (skeleton_redirectFirst k)]
    exact hid _ (getElem_mem hlt)

/-- The entries of the consumer move from `old` to `new`: those of `old` go with
the first redirected position, `new` gains one for each. -/
theorem count_redirectFirst (hne : new ≠ old) (hk : k ≤ (g.inputsOf n).length) (w : ValRef)
    (m : NodeRef) :
    ((g.redirectFirst oldId new n k).usesOf w).count m =
      if m = n ∧ w = old ∧ old ∈ (g.inputsOf n).take k then 0
      else (g.usesOf w).count m +
        if m = n ∧ w = new then ((g.inputsOf n).take k).count old else 0 := by
  induction k with
  | zero => simp [redirectFirst]
  | succ k ih =>
    have hlt : k < (g.inputsOf n).length := hk
    have ih := ih hlt.le
    rw [redirectFirst_succ_eq hid hlt, take_succ_eq_append_getElem hlt]
    by_cases hold : (g.inputsOf n)[k] = old
    · rw [if_pos hold, count_rewire]
      grind
    · have hmem : old ∈ (g.inputsOf n).take k ++ [(g.inputsOf n)[k]] ↔
          old ∈ (g.inputsOf n).take k := by
        rw [mem_append, mem_singleton, or_iff_left (Ne.symm hold)]
      have hcount : ((g.inputsOf n).take k ++ [(g.inputsOf n)[k]]).count old =
          ((g.inputsOf n).take k).count old := by
        rw [count_append, count_singleton, if_neg (by simpa using hold), add_zero]
      rw [if_neg hold, ih, hcount]
      simp only [hmem]

theorem inputsOf_redirectConsumer (m : NodeRef) :
    (g.redirectConsumer oldId new n).inputsOf m =
      if m = n then (g.inputsOf n).map (redirect old new) else g.inputsOf m := by
  by_cases hm : m = n
  · subst hm
    rw [if_pos rfl]
    refine (inputsOf_redirectFirst hid le_rfl).trans ?_
    rw [take_length, drop_length, append_nil]
  · rw [if_neg hm]
    exact inputsOf_redirectFirst_of_ne hm _

/-- Redirecting all positions of one consumer keeps the lists exact. -/
theorem UsesExact.redirectConsumer (h : g.UsesExact) (hne : new ≠ old) (hn : n ∈ g.nodes) :
    (g.redirectConsumer oldId new n).UsesExact := by
  intro w m
  have hcount := count_redirectFirst hid hne le_rfl w m
  rw [nodes_of_skeleton skeleton_redirectConsumer, inputsOf_redirectConsumer hid]
  refine hcount.trans ?_
  by_cases hm : m = n
  · subst hm
    simp only [true_and, if_pos hn, if_true, h w m, count_map_redirect hne]
    grind
  · simp [hm, h w m]

end Consumer

section ReplaceValue

variable {g : Graph T S} {oldId newId : String} {old new : ValRef}

theorem skeleton_redirectConsumers (consumers : List NodeRef) :
    (consumers.foldl (fun h n => h.redirectConsumer oldId new n) g).skeleton = g.skeleton := by
  induction consumers generalizing g with
  | nil => rfl
  | cons n rest ih => rw [foldl_cons, ih, skeleton_redirectConsumer]

theorem skeleton_replaceValue (g : Graph T S) (oldId newId : String) :
    (g.replaceValue oldId newId).skeleton = g.skeleton := by
  unfold replaceValue
  split
  · exact (skeleton_clearUses _ _).trans (skeleton_redirectConsumers _)
  · rfl

theorem skeleton_replaceValues (g : Graph T S) (pairs : List (String × String)) :
    (g.replaceValues pairs).skeleton = g.skeleton := by
  unfold replaceValues
  induction pairs generalizing g with
  | nil => rfl
  | cons p ps ih => rw [foldl_cons, ih, skeleton_replaceValue]

/-- The loop over the consumers, from the list collected before it. -/
theorem redirectConsumers_spec (h : g.UsesExact) (hne : new ≠ old)
    (hid : ∀ n ∈ g.nodes, ∀ x ∈ g.inputsOf n, g.idOf x = oldId ↔ x = old)
    (hnew : g.idOf new ≠ oldId) {consumers : List NodeRef} (hc : ∀ n ∈ consumers, n ∈ g.nodes) :
    let k := consumers.foldl (fun h n => h.redirectConsumer oldId new n) g
    k.skeleton = g.skeleton ∧ k.outputs = g.outputs ∧ k.UsesExact ∧
      ∀ m, k.inputsOf m =
        if m ∈ consumers then (g.inputsOf m).map (redirect old new) else g.inputsOf m := by
  induction consumers generalizing g with
  | nil => simp [h]
  | cons n rest ih =>
    have hn : n ∈ g.nodes := hc n (by simp)
    have hs : (g.redirectConsumer oldId new n).skeleton = g.skeleton :=
      skeleton_redirectConsumer
    have hin : ∀ m, (g.redirectConsumer oldId new n).inputsOf m =
        if m = n then (g.inputsOf n).map (redirect old new) else g.inputsOf m :=
      inputsOf_redirectConsumer (hid n hn)
    have hid' : ∀ m ∈ (g.redirectConsumer oldId new n).nodes,
        ∀ x ∈ (g.redirectConsumer oldId new n).inputsOf m,
          (g.redirectConsumer oldId new n).idOf x = oldId ↔ x = old := by
      intro m hm x hx
      rw [nodes_of_skeleton hs] at hm
      rw [idOf_of_skeleton hs]
      rw [hin m] at hx
      split_ifs at hx with hmn
      · obtain ⟨y, hy, rfl⟩ := mem_map.mp hx
        by_cases hyold : y = old
        · simp [hyold, hnew, hne]
        · rw [redirect_of_ne new hyold]
          exact hid n hn y hy
      · exact hid m hm x hx
    obtain ⟨hs', ho', hu', hi'⟩ := ih (h.redirectConsumer (hid n hn) hne hn) hid'
      (by rwa [idOf_of_skeleton hs])
      (fun m hm => by rw [nodes_of_skeleton hs]; exact hc m (by simp [hm]))
    refine ⟨hs'.trans hs, ho'.trans outputs_redirectConsumer, hu', fun m => ?_⟩
    rw [foldl_cons, hi' m, hin m]
    by_cases hmn : m = n
    · subst hmn
      simp [map_redirect_idem hne]
    · simp [hmn]

/-- What `replace_value` does to a graph with exact use lists, when the two ids
name different values: every reader of `old` reads `new`, and nothing else changes. -/
structure Replaced (g k : Graph T S) (old new : ValRef) : Prop where
  skeleton : k.skeleton = g.skeleton
  inputsOf : ∀ n ∈ g.nodes, k.inputsOf n = (g.inputsOf n).map (redirect old new)
  exact : k.UsesExact

theorem replaceValue_spec (h : g.UsesExact) (hold : g.values oldId = some old)
    (hnewv : g.values newId = some new) (hne : new ≠ old) (hnew : g.idOf new ≠ oldId)
    (hid : ∀ n ∈ g.nodes, ∀ x ∈ g.inputsOf n, g.idOf x = oldId ↔ x = old) :
    Replaced g (g.replaceValue oldId newId) old new ∧
      (g.replaceValue oldId newId).outputs =
        g.outputs.map fun o => if g.idOf o = oldId then new else o := by
  have hc : ∀ n ∈ g.usesOf old, n ∈ g.nodes := fun n hn => h.mem_nodes hn
  obtain ⟨hs, ho, hu, hi⟩ := redirectConsumers_spec h hne hid hnew hc
  simp only [replaceValue, getValue, hold, hnewv]
  set k := (g.usesOf old).foldl (fun h n => h.redirectConsumer oldId new n) g with hk
  have hsk : (k.clearUses old).skeleton = g.skeleton := (skeleton_clearUses k old).trans hs
  have hin : ∀ n ∈ g.nodes, k.inputsOf n = (g.inputsOf n).map (redirect old new) := by
    intro n hn
    rw [hi n]
    split_ifs with hmem
    · rfl
    · have hnot : old ∉ g.inputsOf n := fun hr => hmem (h.mem_usesOf_iff.mpr ⟨hn, hr⟩)
      exact (map_redirect_of_not_mem new hnot).symm
  refine ⟨⟨?_, ?_, ?_⟩, ?_⟩
  · exact hsk
  · exact hin
  · intro w m
    change ((k.clearUses old).usesOf w).count m = _
    rw [clearUses, usesOf_setVal]
    change _ = if m ∈ k.nodes then (k.inputsOf m).count w else 0
    split_ifs with hw hm hm
    · rw [nodes_of_skeleton hs] at hm
      rw [hw, hin m hm, count_map_redirect hne, if_pos rfl, count_nil]
    · rfl
    · rw [hu w m, if_pos hm]
    · rw [hu w m, if_neg hm]
  · change k.outputs.map _ = _
    rw [ho]
    apply map_congr_left
    intro o _
    rw [idOf_of_skeleton hsk]

end ReplaceValue

theorem foldl_removeUse_spec (g : Graph T S) (l : List ValRef) (n : NodeRef) :
    let k := l.foldl (fun h v => h.removeUse v n) g
    k.skeleton = g.skeleton ∧ k.outputs = g.outputs ∧ (∀ m, k.inputsOf m = g.inputsOf m) ∧
      ∀ w m, (k.usesOf w).count m = if w ∈ l ∧ m = n then 0 else (g.usesOf w).count m := by
  induction l generalizing g with
  | nil => simp
  | cons v l ih =>
    obtain ⟨hs, ho, hi, hu⟩ := ih (g.removeUse v n)
    refine ⟨hs.trans (skeleton_removeUse g v n), ho, hi, fun w m => ?_⟩
    rw [foldl_cons, hu w m, count_removeUse]
    grind

theorem removeNode_skeleton (g : Graph T S) (n : NodeRef) :
    (g.removeNode n).skeleton = ({ g with nodes := g.nodes.erase n } : Graph T S).skeleton :=
  (foldl_removeUse_spec _ (g.inputsOf n) n).1

theorem outputs_removeNode (g : Graph T S) (n : NodeRef) :
    (g.removeNode n).outputs = g.outputs :=
  (foldl_removeUse_spec { g with nodes := g.nodes.erase n } (g.inputsOf n) n).2.1

theorem inputsOf_removeNode (g : Graph T S) (n m : NodeRef) :
    (g.removeNode n).inputsOf m = g.inputsOf m :=
  (foldl_removeUse_spec { g with nodes := g.nodes.erase n } (g.inputsOf n) n).2.2.1 m

theorem nodes_removeNode (g : Graph T S) (n : NodeRef) :
    (g.removeNode n).nodes = g.nodes.erase n :=
  nodes_of_skeleton (removeNode_skeleton g n)

theorem count_removeNode (g : Graph T S) (n m : NodeRef) (w : ValRef) :
    ((g.removeNode n).usesOf w).count m =
      if w ∈ g.inputsOf n ∧ m = n then 0 else (g.usesOf w).count m :=
  (foldl_removeUse_spec { g with nodes := g.nodes.erase n } (g.inputsOf n) n).2.2.2 w m

/-! ## One operation -/

/-- Distinct Values have distinct ids, `values_` finds a Value under its own id,
and the nodes read Values of the heap. -/
structure WellNamed (g : Graph T S) : Prop where
  id_inj : ∀ v w, v < g.nextVal → w < g.nextVal → g.idOf v = g.idOf w → v = w
  values_id : ∀ i v, g.values i = some v → v < g.nextVal ∧ g.idOf v = i
  reads_lt : ∀ n ∈ g.nodes, ∀ v ∈ g.inputsOf n, v < g.nextVal

theorem WellNamed.of_skeleton {k : Graph T S} (h : g.WellNamed)
    (hs : k.skeleton = g.skeleton)
    (hr : ∀ n ∈ g.nodes, ∀ v ∈ k.inputsOf n, v < g.nextVal) : k.WellNamed where
  id_inj v w hv hw he := by
    rw [nextVal_of_skeleton hs] at hv hw
    rw [idOf_of_skeleton hs, idOf_of_skeleton hs] at he
    exact h.id_inj v w hv hw he
  values_id i v hv := by
    rw [values_of_skeleton hs] at hv
    rw [nextVal_of_skeleton hs, idOf_of_skeleton hs]
    exact h.values_id i v hv
  reads_lt n hn v hv := by
    rw [nodes_of_skeleton hs] at hn
    rw [nextVal_of_skeleton hs]
    exact hr n hn v hv

/-- The graph operations that rewire, with the pointers and ids they are given. -/
inductive Edit
  | addInput (n : NodeRef) (v : ValRef)
  | replaceInput (n : NodeRef) (idx : Nat) (v : ValRef)
  | removeNode (n : NodeRef)
  | replaceValue (oldId newId : String)
  | replaceNode (old new : NodeRef)
  | replaceNodeWithValue (n : NodeRef) (valueId : String)

/-- A call that throws leaves the graph as it is. -/
def Edit.apply (g : Graph T S) : Edit → Graph T S
  | .addInput n v => g.addInput n v
  | .replaceInput n idx v => (g.replaceInput n idx v).toOption.getD g
  | .removeNode n => g.removeNode n
  | .replaceValue oldId newId => g.replaceValue oldId newId
  | .replaceNode old new => g.replaceNode old new
  | .replaceNodeWithValue n valueId => g.replaceNodeWithValue n valueId

/-- The Values a call is given by pointer. -/
def Edit.valueArgs : Edit → List ValRef
  | .addInput _ v | .replaceInput _ _ v => [v]
  | _ => []

/-- Removing the node forgets no entry of a second listing of it. -/
def RemovesOnce (g : Graph T S) (n : NodeRef) : Prop :=
  g.nodes.count n ≤ 1 ∨ g.inputsOf n = []

/-- The two ids differ, or nobody reads the value. -/
def ReplacesApart (g : Graph T S) (p : String × String) : Prop :=
  p.1 = p.2 → ∀ v, g.values p.1 = some v → g.usesOf v = []

/-- Every call of `replace_value` for the pairs in turn replaces a value by another one. -/
def AllApart : List (String × String) → Graph T S → Prop
  | [], _ => True
  | p :: ps, g => g.ReplacesApart p ∧ AllApart ps (g.replaceValue p.1 p.2)

/-- The state before the call in which the call keeps exact use lists exact. -/
def Edit.Meets (g : Graph T S) : Edit → Prop
  | .addInput n _ => n ∈ g.nodes
  | .replaceInput n idx _ => ∀ old, (g.inputsOf n)[idx]? = some old →
      n ∈ g.nodes ∧ (g.inputsOf n).count old = 1
  | .removeNode n => g.RemovesOnce n
  | .replaceValue oldId newId => g.ReplacesApart (oldId, newId)
  | .replaceNode old new =>
    let pairs := ((g.outputsOf old).zip (g.outputsOf new)).map
      fun p => (g.idOf p.1, g.idOf p.2)
    g.AllApart pairs ∧ (g.replaceValues pairs).RemovesOnce old
  | .replaceNodeWithValue n valueId =>
    let pairs := (g.outputsOf n).map fun o => (g.idOf o, valueId)
    g.AllApart pairs ∧ (g.replaceValues pairs).RemovesOnce n

theorem UsesExact.addInput {g : Graph T S} (h : g.UsesExact) {n : NodeRef} (hn : n ∈ g.nodes)
    (v : ValRef) : (g.addInput n v).UsesExact := by
  intro w m
  rw [count_addInput, h w m, nodes_of_skeleton (skeleton_addInput g n v), inputsOf_addInput]
  by_cases hm : m = n
  · subst hm
    grind
  · simp [hm]

theorem UsesExact.rewire (h : g.UsesExact) (hn : n ∈ g.nodes) {i : Nat}
    (hold : (g.inputsOf n)[i]? = some old) (honce : (g.inputsOf n).count old = 1) (v : ValRef) :
    (g.rewire n i old v).UsesExact := by
  intro w m
  rw [count_rewire, h w m, nodes_of_skeleton (skeleton_rewire g n i old v), inputsOf_rewire]
  by_cases hm : m = n
  · subst hm
    obtain ⟨hi, hget⟩ := List.getElem?_eq_some_iff.mp hold
    grind
  · simp [hm]

theorem UsesExact.removeNode (h : g.UsesExact) (hn : g.RemovesOnce n) :
    (g.removeNode n).UsesExact := by
  intro w m
  rw [count_removeNode, h w m, nodes_removeNode, inputsOf_removeNode]
  by_cases hm : m = n
  · subst hm
    obtain hcount | hnil := hn
    · have hnot : m ∉ g.nodes.erase m := by
        rw [← count_eq_zero, count_erase_self]
        omega
      split_ifs with hw hmem
      · rfl
      · rw [count_eq_zero]
        exact fun hw' => hw ⟨hw', rfl⟩
      · rfl
    · simp [hnil]
  · simp [hm, mem_erase_of_ne hm]

/-- Exact use lists under distinct names, the invariant of the rewiring operations. -/
structure Wired (g : Graph T S) : Prop where
  named : g.WellNamed
  exact : g.UsesExact

namespace Wired

variable {g : Graph T S} (h : g.Wired) {n : NodeRef} {v : ValRef}

include h

theorem of_skeleton {k : Graph T S} (hs : k.skeleton = g.skeleton) (hu : k.UsesExact)
    (hr : ∀ n ∈ g.nodes, ∀ v ∈ k.inputsOf n, v < g.nextVal) : k.Wired :=
  ⟨h.named.of_skeleton hs hr, hu⟩

theorem addInput {n : NodeRef} (hn : n ∈ g.nodes) {v : ValRef} (hv : v < g.nextVal) :
    (g.addInput n v).Wired := by
  apply h.of_skeleton (skeleton_addInput g n v) (h.exact.addInput hn v)
  intro m hm w hw
  rw [inputsOf_addInput] at hw
  split_ifs at hw with hmn
  · obtain hw | hw := mem_append.mp hw
    · exact h.named.reads_lt n hn w hw
    · rw [mem_singleton.mp hw]
      exact hv
  · exact h.named.reads_lt m hm w hw

theorem rewire (hn : n ∈ g.nodes) {i : Nat} {old : ValRef} (hold : (g.inputsOf n)[i]? = some old)
    (honce : (g.inputsOf n).count old = 1) (hv : v < g.nextVal) : (g.rewire n i old v).Wired := by
  apply h.of_skeleton (skeleton_rewire g n i old v) (h.exact.rewire hn hold honce v)
  intro m hm w hw
  rw [inputsOf_rewire] at hw
  split_ifs at hw with hmn
  · obtain hw | rfl := mem_or_eq_of_mem_set hw
    · exact h.named.reads_lt n hn w hw
    · exact hv
  · exact h.named.reads_lt m hm w hw

theorem removeNode (hn : g.RemovesOnce n) : (g.removeNode n).Wired := by
  have hnamed : ({ g with nodes := g.nodes.erase n } : Graph T S).WellNamed :=
    ⟨h.named.id_inj, h.named.values_id,
      fun m hm => h.named.reads_lt m (mem_of_mem_erase hm)⟩
  refine ⟨hnamed.of_skeleton (removeNode_skeleton g n) ?_, h.exact.removeNode hn⟩
  intro m hm w hw
  rw [inputsOf_removeNode] at hw
  exact hnamed.reads_lt m hm w hw

/-- A value nobody reads is replaced by itself: only the graph outputs are written. -/
theorem replaceValue_self {i : String} (hv : g.values i = some v) (hu : g.usesOf v = []) :
    (g.replaceValue i i).Wired := by
  have hs : (g.replaceValue i i).skeleton = g.skeleton := by
    simp only [replaceValue, getValue, hv, hu, foldl_nil]
    exact skeleton_clearUses g v
  have hi : ∀ n, (g.replaceValue i i).inputsOf n = g.inputsOf n := by
    intro n
    simp only [replaceValue, getValue, hv, hu, foldl_nil]
    rfl
  have huse : ∀ w, (g.replaceValue i i).usesOf w = g.usesOf w := by
    intro w
    simp only [replaceValue, getValue, hv, hu, foldl_nil]
    change (g.clearUses v).usesOf w = g.usesOf w
    rw [clearUses, usesOf_setVal]
    split_ifs with hw
    · rw [hw, hu]
    · rfl
  apply h.of_skeleton hs
  · intro w m
    rw [huse, hi, nodes_of_skeleton hs]
    exact h.exact w m
  · intro n hn w hw
    rw [hi] at hw
    exact h.named.reads_lt n hn w hw

theorem replaceValue {oldId newId : String} (hap : g.ReplacesApart (oldId, newId)) :
    (g.replaceValue oldId newId).Wired := by
  cases hold : g.values oldId with
  | none => simpa [Graph.replaceValue, getValue, hold] using h
  | some old =>
    cases hnew : g.values newId with
    | none => simpa [Graph.replaceValue, getValue, hnew] using h
    | some new =>
      obtain ⟨holdlt, holdid⟩ := h.named.values_id _ _ hold
      obtain ⟨hnewlt, hnewid⟩ := h.named.values_id _ _ hnew
      by_cases hids : oldId = newId
      · subst hids
        exact h.replaceValue_self hold (hap rfl old hold)
      · have hnewne : g.idOf new ≠ oldId := fun he => hids (he.symm.trans hnewid)
        have hne : new ≠ old := fun he => hnewne (he ▸ holdid)
        have hid : ∀ n ∈ g.nodes, ∀ x ∈ g.inputsOf n, g.idOf x = oldId ↔ x = old := by
          intro n hn x hx
          refine ⟨fun he => ?_, fun he => he ▸ holdid⟩
          exact h.named.id_inj x old (h.named.reads_lt n hn x hx) holdlt
            (he.trans holdid.symm)
        obtain ⟨hrep, -⟩ := replaceValue_spec h.exact hold hnew hne hnewne hid
        apply h.of_skeleton hrep.skeleton hrep.exact
        intro n hn w hw
        rw [hrep.inputsOf n hn] at hw
        obtain ⟨y, hy, rfl⟩ := mem_map.mp hw
        unfold redirect
        split_ifs
        · exact hnewlt
        · exact h.named.reads_lt n hn y hy

omit h in
theorem replaceValues {pairs : List (String × String)} {g : Graph T S} (h : g.Wired)
    (hap : AllApart pairs g) : (g.replaceValues pairs).Wired := by
  induction pairs generalizing g with
  | nil => exact h
  | cons p ps ih => exact ih (h.replaceValue hap.1) hap.2

theorem apply (e : Edit) (hargs : ∀ v ∈ e.valueArgs, v < g.nextVal) (he : e.Meets g) :
    (e.apply g).Wired := by
  cases e with
  | addInput n v => exact h.addInput he (hargs v (by simp [Edit.valueArgs]))
  | replaceInput n idx v =>
    simp only [Edit.apply, Graph.replaceInput]
    cases hold : (g.inputsOf n)[idx]? with
    | none => exact h
    | some old =>
      obtain ⟨hn, honce⟩ := he old hold
      exact h.rewire hn hold honce (hargs v (by simp [Edit.valueArgs]))
  | removeNode n => exact h.removeNode he
  | replaceValue oldId newId => exact h.replaceValue he
  | replaceNode old new => exact (h.replaceValues he.1).removeNode he.2
  | replaceNodeWithValue n valueId => exact (h.replaceValues he.1).removeNode he.2

end Wired

/-- The graphs a sequence of calls passes through. -/
def states (g : Graph T S) (es : List Edit) : List (Graph T S) :=
  es.scanl Edit.apply g

/-- Every call of the sequence meets its condition when it is made. -/
def RunMeets : List Edit → Graph T S → Prop
  | [], _ => True
  | e :: es, g => e.Meets g ∧ RunMeets es (e.apply g)

theorem nextVal_removeNode (g : Graph T S) (n : NodeRef) :
    (g.removeNode n).nextVal = g.nextVal := by
  have h := nextVal_of_skeleton (removeNode_skeleton g n)
  exact h

theorem nextVal_apply (g : Graph T S) (e : Edit) : (e.apply g).nextVal = g.nextVal := by
  cases e with
  | addInput n v => rfl
  | replaceInput n idx v =>
    simp only [Edit.apply, replaceInput]
    cases (g.inputsOf n)[idx]? with
    | none => rfl
    | some old => exact nextVal_of_skeleton (skeleton_rewire g n idx old v)
  | removeNode n => exact nextVal_removeNode g n
  | replaceValue oldId newId => exact nextVal_of_skeleton (skeleton_replaceValue g oldId newId)
  | replaceNode old new =>
    exact (nextVal_removeNode _ _).trans (nextVal_of_skeleton (skeleton_replaceValues g _))
  | replaceNodeWithValue n valueId =>
    exact (nextVal_removeNode _ _).trans (nextVal_of_skeleton (skeleton_replaceValues g _))

theorem Wired.states {es : List Edit} (h : g.Wired)
    (hargs : ∀ e ∈ es, ∀ v ∈ e.valueArgs, v < g.nextVal) (hrun : RunMeets es g) :
    ∀ k ∈ g.states es, k.Wired := by
  induction es generalizing g with
  | nil => simpa [Graph.states] using h
  | cons e es ih =>
    have hstep : (e.apply g).Wired := h.apply e (hargs e (by simp)) hrun.1
    have hargs' : ∀ e' ∈ es, ∀ v ∈ e'.valueArgs, v < (e.apply g).nextVal := by
      intro e' he' v hv
      rw [nextVal_apply]
      exact hargs e' (by simp [he']) v hv
    intro k hk
    rw [Graph.states, scanl_cons, mem_cons] at hk
    obtain rfl | hk := hk
    · exact h
    · exact ih hstep hargs' hrun.2 k hk

/-- Calls that meet their condition keep every use list exact, in every graph
the sequence passes through. -/
theorem usesExact_of_runMeets {g : Graph T S} (hn : g.WellNamed) (h : g.UsesExact)
    (es : List Edit) (hargs : ∀ e ∈ es, ∀ v ∈ e.valueArgs, v < g.nextVal)
    (hrun : RunMeets es g) : ∀ k ∈ g.states es, k.UsesExact :=
  fun k hk => (Wired.states ⟨hn, h⟩ hargs hrun k hk).exact

/-- `Add(x, x)` beside an unread value `y`. -/
def doubledRead : Graph Unit Empty where
  valAt v := match v with
    | 0 => { id := "x", uses := [0, 0] }
    | 1 => { id := "y" }
    | 2 => { id := "sum", node := some 0 }
    | _ => { id := "" }
  nodeAt n := match n with
    | 0 => { opType := .add, inputs := [0, 0], outputs := [2] }
    | _ => { opType := .constant }
  nextVal := 3
  nextNode := 1
  nodes := [0]
  values i := if i = "x" then some 0 else if i = "y" then some 1
    else if i = "sum" then some 2 else none
  inputs := [0, 1]
  outputs := [2]

theorem wellNamed_doubledRead : doubledRead.WellNamed where
  id_inj v w hv hw he := by
    change v < 3 at hv
    change w < 3 at hw
    interval_cases v <;> interval_cases w <;> first | rfl | exact absurd he (by decide)
  values_id i v hv := by
    simp only [doubledRead] at hv
    split_ifs at hv with h0 h1 h2 <;> cases hv <;> simp_all [doubledRead, idOf]
  reads_lt n hn v hv := by
    obtain rfl : n = 0 := by simpa [doubledRead] using hn
    simp only [doubledRead, inputsOf, mem_cons, not_mem_nil, or_false, or_self] at hv
    simp [hv, doubledRead]

theorem usesExact_doubledRead : doubledRead.UsesExact := by
  intro v n
  match v, n with
  | 0, 0 => decide
  | 1, 0 => decide
  | 2, 0 => decide
  | v + 3, 0 => simp [doubledRead, usesOf, inputsOf]
  | 0, n + 1 => simp [doubledRead, usesOf]
  | 1, n + 1 => simp [doubledRead, usesOf]
  | 2, n + 1 => simp [doubledRead, usesOf]
  | v + 3, n + 1 => simp [doubledRead, usesOf]

/-- A sequence that reaches every kind of call with its condition met. -/
theorem usesExact_doubledRead_states :
    doubledRead.UsesExact ∧
      ∀ k ∈ doubledRead.states [.addInput 0 1, .replaceInput 0 2 1, .replaceValue "x" "y",
        .replaceNodeWithValue 0 "y"], k.UsesExact := by
  refine ⟨usesExact_doubledRead, ?_⟩
  apply usesExact_of_runMeets wellNamed_doubledRead usesExact_doubledRead
  · decide
  · refine ⟨?_, fun old hold => ?_, fun hids => absurd hids (by decide), ⟨⟨?_, trivial⟩, ?_⟩,
      trivial⟩
    · exact mem_singleton.mpr rfl
    · obtain rfl : 1 = old := Option.some.inj hold
      decide
    · exact fun hids => absurd hids (by decide)
    · exact Or.inl (by decide)

/-- Replacing one of the two reads of `x` drops both of its entries, and
replacing `x` by itself drops all of them. -/
theorem not_usesExact_replaceInput :
    doubledRead.WellNamed ∧ doubledRead.UsesExact ∧
      ¬ ((Edit.replaceInput 0 0 1).apply doubledRead).UsesExact ∧
      ¬ ((Edit.replaceValue "x" "x").apply doubledRead).UsesExact := by
  refine ⟨wellNamed_doubledRead, usesExact_doubledRead, fun h => ?_, fun h => ?_⟩
  · exact absurd (h 0 0) (by decide)
  · exact absurd (h 0 0) (by decide)

end Graph

end Tenzor.Jit
