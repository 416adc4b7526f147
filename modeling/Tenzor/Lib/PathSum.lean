import Tenzor.Lib.PostOrder
import Mathlib.Algebra.BigOperators.Group.Finset.Lemmas
import Mathlib.Algebra.BigOperators.Group.Finset.Piecewise
import Mathlib.Tactic.Abel

/-!
# Sums over the paths of a graph

Every node lists numbered slots that lead to other nodes or to outputs, and
carries one additive map for each slot. The sum over all paths from a node to
an output, of the maps along the path, is what a single pass in parents-first
order computes: each node adds the images of what has arrived at it to the
nodes and outputs its slots lead to.
-/

namespace PathSum

open PostOrder List

variable {N V M : Type*} [AddCommMonoid M] {α : Type*} {n : Nat} {f c : N} {es : List Nat}
  {l : List N}

/-- What slot `i` leads to. -/
def entry {α : Type*} (l : List (Option α)) (i : Nat) : Option α := l[i]?.join

theorem mem_of_entry {l : List (Option α)} {i : Nat} {a : α} (h : entry l i = some a) :
    some a ∈ l ∧ i < l.length := by
  have hget : l[i]? = some (some a) := Option.join_eq_some_iff.mp h
  exact ⟨mem_of_getElem? hget, (List.getElem?_eq_some_iff.mp hget).1⟩

variable (next : N → List (Option N)) (out : N → List (Option V)) (map : N → Nat → M →+ M)

/-- A path is the list of the slots taken between nodes and the last slot. -/
abbrev Path := List Nat × Nat

/-- The node that a list of slots leads to. -/
def follow (f : N) : List Nat → Option N
  | [] => some f
  | i :: es => (entry (next f) i).bind fun c => follow c es

def IsPath (f : N) (p : Path) (v : V) : Prop :=
  ∃ c, follow next f p.1 = some c ∧ entry (out c) p.2 = some v

/-- The composition of the maps along a path. -/
def along (f : N) : List Nat → Nat → M →+ M
  | [], slot => map f slot
  | i :: es, slot =>
    match entry (next f) i with
    | some c => (along c es slot).comp (map f i)
    | none => 0

variable [DecidableEq V] (v : V)

/-- All paths to `v` with fewer than `n` steps between nodes. -/
def paths : Nat → N → List Path
  | 0, _ => []
  | n + 1, f =>
    ((List.range (out f).length).filter fun i => entry (out f) i = some v).map (fun i => ([], i)) ++
      (List.range (next f).length).flatMap fun i =>
        match entry (next f) i with
        | some c => (paths n c).map fun p => (i :: p.1, p.2)
        | none => []

variable {p : Path}

theorem mem_paths : p ∈ paths next out v n f ↔ IsPath next out f p v ∧ p.1.length < n := by
  induction n generalizing f p with
  | zero => simp [paths]
  | succ n ih =>
    obtain ⟨es, slot⟩ := p
    simp only [paths, mem_append, mem_map, mem_filter, mem_range,
      decide_eq_true_eq, mem_flatMap]
    cases es with
    | nil =>
      constructor
      · rintro (⟨i, ⟨-, hi⟩, heq⟩ | ⟨i, -, hi⟩)
        · obtain rfl : i = slot := congrArg Prod.snd heq
          exact ⟨⟨f, rfl, hi⟩, Nat.succ_pos n⟩
        · split at hi <;> simp at hi
      · rintro ⟨⟨c, hc, hslot⟩, -⟩
        obtain rfl : f = c := Option.some.inj hc
        exact .inl ⟨slot, ⟨(mem_of_entry hslot).2, hslot⟩, rfl⟩
    | cons j es =>
      constructor
      · rintro (⟨i, -, heq⟩ | ⟨i, -, hi⟩)
        · cases heq
        · split at hi
          · rename_i c hc
            obtain ⟨q, hq, heq⟩ := mem_map.mp hi
            obtain ⟨⟨rfl, rfl⟩, rfl⟩ : (i = j ∧ q.1 = es) ∧ q.2 = slot := by simpa using heq
            obtain ⟨⟨d, hd, hout⟩, hlen⟩ := ih.mp hq
            exact ⟨⟨d, by rw [follow, hc, Option.bind_some, hd], hout⟩, Nat.succ_lt_succ hlen⟩
          · cases hi
      · rintro ⟨⟨d, hd, hout⟩, hlen⟩
        rw [follow, Option.bind_eq_some_iff] at hd
        obtain ⟨c, hc, hd⟩ := hd
        refine .inr ⟨j, (mem_of_entry hc).2, ?_⟩
        rw [hc]
        exact mem_map.mpr
          ⟨(es, slot), ih.mpr ⟨⟨d, hd, hout⟩, Nat.lt_of_succ_lt_succ hlen⟩, rfl⟩

theorem nodup_paths (n : Nat) (f : N) : (paths next out v n f).Nodup := by
  induction n generalizing f with
  | zero => exact nodup_nil
  | succ n ih =>
    rw [paths, nodup_append']
    refine ⟨?_, ?_, ?_⟩
    · apply Nodup.map _ (nodup_range.filter _)
      intro i j hij
      exact congrArg Prod.snd hij
    · rw [nodup_flatMap]
      constructor
      · intro i _
        split
        · apply Nodup.map _ (ih _)
          intro p q hpq
          simpa [Prod.ext_iff] using hpq
        · exact nodup_nil
      · -- Paths through different first slots differ in their first slot.
        apply nodup_range.imp
        intro i j hne p hi hj
        simp only at hi hj
        split at hi
        · split at hj
          · obtain ⟨q, -, rfl⟩ := mem_map.mp hi
            obtain ⟨q', -, heq⟩ := mem_map.mp hj
            exact hne (by simpa using (congrArg (fun p : Path => p.1.head?) heq).symm)
          · cases hj
        · cases hi
    · intro p hp hq
      obtain ⟨i, -, rfl⟩ := mem_map.mp hp
      obtain ⟨j, -, hj⟩ := mem_flatMap.mp hq
      split at hj <;> simp at hj

/-- What the slots of `l` that lead to `a` contribute. -/
def sumInto {α : Type*} [DecidableEq α] (l : List (Option α)) (h : Nat → M) (a : α) : M :=
  ∑ i ∈ Finset.range l.length, if entry l i = some a then h i else 0

@[simp] theorem sumInto_nil [DecidableEq α] (h : Nat → M) (a : α) : sumInto [] h a = 0 := rfl

theorem sumInto_cons [DecidableEq α] (o : Option α) (l : List (Option α)) (h : Nat → M) (a : α) :
    sumInto (o :: l) h a = (if o = some a then h 0 else 0) + sumInto l (fun i => h (i + 1)) a := by
  rw [sumInto, length_cons, Finset.sum_range_succ', add_comm]
  rfl

theorem sumInto_zero [DecidableEq α] (l : List (Option α)) (a : α) :
    sumInto l (fun _ => (0 : M)) a = 0 := by
  simp only [sumInto, ite_self, Finset.sum_const_zero]

/-- The sum over all paths from `f` to `v` with fewer than `n` steps. -/
def pathSum : Nat → N → M →+ M
  | 0, _ => 0
  | n + 1, f =>
    (∑ i ∈ Finset.range (out f).length, if entry (out f) i = some v then map f i else 0) +
      ∑ i ∈ Finset.range (next f).length,
        match entry (next f) i with
        | some c => (pathSum n c).comp (map f i)
        | none => 0

theorem sum_range_eq_list (n : Nat) (h : Nat → M) :
    ∑ i ∈ Finset.range n, h i = ((List.range n).map h).sum := rfl

theorem sum_map_filter (p : α → Bool) (h : α → M) (l : List α) :
    ((l.filter p).map h).sum = (l.map fun a => if p a then h a else 0).sum := by
  induction l with
  | nil => rfl
  | cons a l ih =>
    cases hp : p a with
    | false => simp [hp, ih]
    | true => simp [hp, ih]

theorem pathSum_eq (n : Nat) (f : N) (m : M) :
    pathSum next out map v n f m =
      ((paths next out v n f).map fun p => along next map f p.1 p.2 m).sum := by
  induction n generalizing f m with
  | zero => simp [pathSum, paths]
  | succ n ih =>
    rw [pathSum, paths, AddMonoidHom.add_apply, map_append, sum_append,
      AddMonoidHom.finsetSum_apply, AddMonoidHom.finsetSum_apply, sum_range_eq_list,
      sum_range_eq_list, map_map, sum_map_filter, map_flatMap, List.flatMap,
      sum_flatten, map_map]
    congr 2
    · apply map_congr_left
      intro i _
      by_cases hi : entry (out f) i = some v <;> simp [hi, along]
    · apply map_congr_left
      intro i _
      cases hc : entry (next f) i with
      | none => simp [hc]
      | some c => simp [hc, ih, along, Function.comp_def]

variable {next out map v}

/-- A path leads to a node that is reached. -/
theorem reaches_of_follow (hc : follow next f es = some c) :
    Relation.ReflTransGen (Child next) f c := by
  induction es generalizing f with
  | nil =>
    obtain rfl : f = c := Option.some.inj hc
    exact Relation.ReflTransGen.refl
  | cons i es ih =>
    rw [follow, Option.bind_eq_some_iff] at hc
    obtain ⟨d, hd, hc⟩ := hc
    exact Relation.ReflTransGen.head (mem_of_entry hd).1 (ih hc)

/-- In a parents-first list every step of a path moves to a later node. -/
theorem length_lt_of_follow (h : ParentsFirst next l) (hf : f ∈ l)
    (hc : follow next f es = some c) : es.length < l.length:= by
  induction es generalizing l f with
  | nil => exact length_pos_of_mem hf
  | cons i es ih =>
    rw [follow, Option.bind_eq_some_iff] at hc
    obtain ⟨d, hd, hc⟩ := hc
    obtain ⟨l₁, l₂, rfl⟩ := append_of_mem hf
    have hsplit := h.split
    have hlt := ih hsplit.2.2 (hsplit.1 d (mem_of_entry hd).1) hc
    simp only [length_cons, length_append]
    omega

/-- From a node of a parents-first list, all paths are among the bounded ones. -/
theorem mem_paths_length (h : ParentsFirst next l) (hf : f ∈ l) :
    p ∈ paths next out v l.length f ↔ IsPath next out f p v := by
  rw [mem_paths, and_iff_left_iff_imp]
  rintro ⟨c, hc, -⟩
  exact length_lt_of_follow h hf hc

theorem pathSum_succ (h : ParentsFirst next l) (hf : f ∈ l) (hn : l.length ≤ n) :
    pathSum next out map v (n + 1) f = pathSum next out map v n f := by
  induction n generalizing l f with
  | zero => exact absurd (length_pos_of_mem hf) (by omega)
  | succ n ih =>
    obtain ⟨l₁, l₂, rfl⟩ := append_of_mem hf
    have hsplit := h.split
    rw [pathSum]
    congr 1
    apply Finset.sum_congr rfl
    intro i _
    cases hc : entry (next f) i with
    | none => rfl
    | some c =>
      have hlen : l₂.length ≤ n := by
        simp only [length_append, length_cons] at hn
        omega
      simp only [ih hsplit.2.2 (hsplit.1 c (mem_of_entry hc).1) hlen]

/-- More steps than there are nodes add no paths. -/
theorem pathSum_of_le (h : ParentsFirst next l) (hf : f ∈ l) (hn : l.length ≤ n) :
    pathSum next out map v n f = pathSum next out map v l.length f := by
  induction n, hn using Nat.le_induction with
  | base => rfl
  | succ n hn ih => rw [pathSum_succ h hf hn, ih]

variable [DecidableEq N] (next out map v)

/-- One node of the pass: what arrived at `f` goes through the map of each slot
to where the slot leads. The second component collects what reaches `v`. -/
def push (s : (N → M) × M) (f : N) : (N → M) × M :=
  (fun c => s.1 c + sumInto (next f) (fun i => map f i (s.1 f)) c,
    s.2 + sumInto (out f) (fun i => map f i (s.1 f)) v)

variable {next out map v}

/-- Slots that lead into a list of distinct nodes, summed node by node. -/
theorem sum_sumInto {l : List (Option N)} {nodes : Finset N} (φ : N → M →+ M) (h : Nat → M)
    (hmem : ∀ c, some c ∈ l → c ∈ nodes) :
    ∑ c ∈ nodes, φ c (sumInto l h c) =
      ∑ i ∈ Finset.range l.length,
        match entry l i with
        | some c => φ c (h i)
        | none => 0 := by
  simp only [sumInto, map_sum]
  rw [Finset.sum_comm]
  apply Finset.sum_congr rfl
  intro i _
  cases hc : entry l i with
  | none => simp
  | some c =>
    have hterm : ∀ d ∈ nodes, φ d (if some c = some d then h i else 0) =
        if c = d then φ c (h i) else 0 := by
      intro d _
      by_cases hcd : c = d
      · subst hcd
        simp
      · simp [hcd]
    rw [Finset.sum_congr rfl hterm, Finset.sum_ite_eq, if_pos (hmem c (mem_of_entry hc).1)]

/-- Nothing is lost when a node passes on what arrived at it. -/
theorem push_conserves {rest : List N} (h : ParentsFirst next (f :: rest))
    (hn : (f :: rest).length ≤ n) (s : (N → M) × M) :
    (push next out map v s f).2 +
        ∑ c ∈ rest.toFinset, pathSum next out map v n c ((push next out map v s f).1 c) =
      s.2 + ∑ c ∈ (f :: rest).toFinset, pathSum next out map v n c (s.1 c) := by
  have hnot : f ∉ rest.toFinset := fun hmem => h.2.1 (mem_toFinset.mp hmem)
  have hsplit : pathSum next out map v n f (s.1 f) =
      sumInto (out f) (fun i => map f i (s.1 f)) v +
        ∑ c ∈ rest.toFinset,
          pathSum next out map v n c (sumInto (next f) (fun i => map f i (s.1 f)) c) := by
    rw [← pathSum_succ h mem_cons_self hn, pathSum, AddMonoidHom.add_apply,
      AddMonoidHom.finsetSum_apply, AddMonoidHom.finsetSum_apply,
      sum_sumInto _ _ fun c hc => mem_toFinset.mpr (h.1 c hc)]
    congr 1
    · apply Finset.sum_congr rfl
      intro i _
      by_cases hi : entry (out f) i = some v <;> simp [hi]
    · apply Finset.sum_congr rfl
      intro i _
      cases hc : entry (next f) i <;> simp
  rw [toFinset_cons, Finset.sum_insert hnot, hsplit]
  simp only [push, map_add, Finset.sum_add_distrib]
  abel

/-- The pass collects, for every node, the sum over its paths of what was there. -/
theorem foldl_push (h : ParentsFirst next l) (hn : l.length ≤ n) (s : (N → M) × M) :
    (l.foldl (push next out map v) s).2 =
      s.2 + ∑ c ∈ l.toFinset, pathSum next out map v n c (s.1 c) := by
  induction l generalizing s with
  | nil => simp
  | cons f rest ih =>
    rw [foldl_cons, ih h.2.2 (by simp only [length_cons] at hn; omega),
      push_conserves h hn]

end PathSum
