import Mathlib

/-!
# Iterative post-order walk

A depth-first walk with an explicit stack over nodes that list their children,
possibly with gaps and repetitions. A node is appended to the result when all
its children have been looked at, so children come before parents. A child that
is still on the stack is a cycle.

## Implementation notes

A frame keeps the children it has not looked at yet. The walk takes fuel; the
weight of the nodes of any finite set closed under children is enough.
-/

namespace PostOrder

open Relation List

variable {N : Type*} {ε : Type*}

variable (children : N → List (Option N))

/-- `c` is listed among the children of `n`. -/
def Child (n c : N) : Prop := some c ∈ children n

/-- A list without repetitions in which every child comes after its parents. -/
def ParentsFirst : List N → Prop
  | [] => True
  | n :: rest => (∀ c, Child children n c → c ∈ rest) ∧ n ∉ rest ∧ ParentsFirst rest

variable {children} {l sorted : List N} {n m : N} {stack rest : List (N × List (Option N))} {e : ε}
  {nodes : Finset N}

theorem ParentsFirst.nodup (h : ParentsFirst children l) : l.Nodup := by
  induction l with
  | nil => exact nodup_nil
  | cons n rest ih => exact nodup_cons.mpr ⟨h.2.1, ih h.2.2⟩

theorem ParentsFirst.child_mem (h : ParentsFirst children l) {c : N} (hn : n ∈ l)
    (hc : Child children n c) : c ∈ l := by
  induction l with
  | nil => cases hn
  | cons m rest ih =>
    rcases mem_cons.mp hn with rfl | hn
    · exact mem_cons_of_mem _ (h.1 c hc)
    · exact mem_cons_of_mem _ (ih h.2.2 hn)

theorem ParentsFirst.reachable_mem (h : ParentsFirst children l) (hn : n ∈ l)
    (hreach : ReflTransGen (Child children) n m) : m ∈ l := by
  induction hreach with
  | refl => exact hn
  | tail _ hc ih => exact h.child_mem ih hc

/-- The part of the list from a node on already has all that it reaches. -/
theorem ParentsFirst.split {l₁ l₂ : List N} (h : ParentsFirst children (l₁ ++ n :: l₂)) :
    ParentsFirst children (n :: l₂) := by
  induction l₁ with
  | nil => exact h
  | cons m rest ih => exact ih h.2.2

/-- Nothing in such a list is among its own descendants. -/
theorem ParentsFirst.not_cyclic (h : ParentsFirst children l) (hn : n ∈ l) :
    ¬ TransGen (Child children) n n := by
  obtain ⟨before, after, rfl⟩ := append_of_mem hn
  obtain ⟨hchildren, hnot, hafter⟩ := h.split
  intro hcycle
  obtain ⟨c, hc, hcn⟩ := TransGen.head'_iff.mp hcycle
  exact hnot (hafter.reachable_mem (hchildren c hc) hcn)

/-- Every parent in the list stands before its child. -/
theorem ParentsFirst.parent_mem {before after : List N}
    (h : ParentsFirst children (before ++ n :: after)) (hm : m ∈ before ++ n :: after)
    (hchild : Child children m n) : m ∈ before := by
  obtain ⟨hchildren, hnot, hafter⟩ := h.split
  rcases mem_append.mp hm with hm | hm
  · exact hm
  · rcases mem_cons.mp hm with rfl | hm
    · exact absurd (hchildren m hchild) hnot
    · exact absurd (hafter.child_mem hm hchild) hnot

structure State (N : Type*) where
  /-- Open nodes, the latest first, each with the children not looked at yet. -/
  stack : List (N × List (Option N)) := []
  visited : Finset N := ∅
  onStack : Finset N := ∅
  sorted : List N := []

/-- The open nodes, the latest first. -/
def State.openNodes (s : State N) : List N := s.stack.map Prod.fst

section Program

variable [DecidableEq N] (children : N → List (Option N)) (cycle : ε)

/-- Open a node that was not visited before. -/
def State.push (s : State N) (n : N) : State N where
  stack := (n, children n) :: s.stack
  visited := insert n s.visited
  onStack := insert n s.onStack
  sorted := s.sorted

/-- One round of the loop; an empty stack stays as it is. -/
def step (s : State N) : Except ε (State N) :=
  match s.stack with
  | [] => .ok s
  | (n, []) :: rest =>
    .ok { s with stack := rest, onStack := s.onStack.erase n, sorted := s.sorted ++ [n] }
  | (n, none :: cs) :: rest => .ok { s with stack := (n, cs) :: rest }
  | (n, some c :: cs) :: rest =>
    if c ∈ s.onStack then .error cycle
    else if c ∈ s.visited then .ok { s with stack := (n, cs) :: rest }
    else .ok (State.push children { s with stack := (n, cs) :: rest } c)

def walk : Nat → State N → Except ε (State N)
  | 0, s => .ok s
  | fuel + 1, s =>
    if s.stack.isEmpty then .ok s
    else do
      let s' ← step children cycle s
      walk fuel s'

/-- Walk from one root, unless an earlier walk has been there. -/
def visit (fuel : Nat) (s : State N) (root : N) : Except ε (State N) :=
  if root ∈ s.visited then .ok s
  else walk children cycle fuel (s.push children root)

def sort (fuel : Nat) (roots : List N) : Except ε (List N) := do
  let s ← roots.foldlM (visit children cycle fuel) {}
  return s.sorted

end Program

/-! ## The invariant of the walk -/

variable (children) in
/-- Every open node but the latest has the one opened after it as a child, and
the children it has looked at are closed, except for that one. -/
def Frames (sorted : List N) : Option N → List (N × List (Option N)) → Prop
  | _, [] => True
  | above, (n, cs) :: rest =>
    (∀ c, above = some c → Child children n c) ∧
      (∃ seen, children n = seen ++ cs ∧
        ∀ c, some c ∈ seen → c ∈ sorted ∨ above = some c) ∧
      Frames sorted (some n) rest

variable (children) in
/-- What holds between two rounds, where `above` is a child about to be opened. -/
structure Inv (Root : N → Prop) (above : Option N) (s : State N) : Prop where
  visited_iff : ∀ n, n ∈ s.visited ↔ n ∈ s.openNodes ∨ n ∈ s.sorted
  onStack_iff : ∀ n, n ∈ s.onStack ↔ n ∈ s.openNodes
  nodup : s.openNodes.Nodup
  disjoint : ∀ n ∈ s.openNodes, n ∉ s.sorted
  order : ParentsFirst children s.sorted.reverse
  frames : Frames children s.sorted above s.stack
  reach : ∀ n ∈ s.visited, ∃ r, Root r ∧ ReflTransGen (Child children) r n

theorem Frames.close (h : Frames children sorted (some n) stack) :
    Frames children (sorted ++ [n]) none stack := by
  -- Only the frame below `n` knows `n` as the child opened last.
  have grow : ∀ (stack : List (N × List (Option N))) (above : Option N),
      Frames children sorted above stack → Frames children (sorted ++ [n]) above stack := by
    intro stack
    induction stack with
    | nil => exact fun _ _ => trivial
    | cons frame rest ih =>
      rintro above ⟨hchild, ⟨seen, heq, hseen⟩, hrest⟩
      refine ⟨hchild, ⟨seen, heq, fun c hc => ?_⟩, ih _ hrest⟩
      exact (hseen c hc).imp_left (mem_append_left _)
  cases stack with
  | nil => trivial
  | cons frame rest =>
    obtain ⟨-, ⟨seen, heq, hseen⟩, hrest⟩ := h
    refine ⟨nofun, ⟨seen, heq, fun c hc => .inl ?_⟩, grow _ _ hrest⟩
    rcases hseen c hc with hmem | heq
    · exact mem_append_left _ hmem
    · simp [Option.some.inj heq]

/-- The latest open node is reached from all others. -/
theorem Frames.transGen {a : N} (h : Frames children sorted (some a) stack)
    (hm : m ∈ stack.map Prod.fst) : TransGen (Child children) m a := by
  induction stack generalizing a with
  | nil => cases hm
  | cons frame rest ih =>
    obtain ⟨hchild, -, hrest⟩ := h
    have hna : Child children frame.1 a := hchild a rfl
    rcases mem_cons.mp hm with rfl | hm
    · exact TransGen.single hna
    · exact (ih hrest hm).tail hna

variable {s s' : State N} {Root : N → Prop}

/-- The latest open node looks at its next child. -/
theorem Inv.look {o : Option N} {cs : List (Option N)} {above : Option N}
    (h : Inv children Root none s) (hstack : s.stack = (n, o :: cs) :: rest)
    (hseen : ∀ c, o = some c → c ∈ s.sorted ∨ above = some c)
    (hchild : ∀ c, above = some c → Child children n c) :
    Inv children Root above { s with stack := (n, cs) :: rest } := by
  have hopen : State.openNodes { s with stack := (n, cs) :: rest } = s.openNodes := by
    simp [State.openNodes, hstack]
  have hframes := h.frames
  rw [hstack] at hframes
  obtain ⟨-, ⟨seen, heq, hsorted⟩, hbelow⟩ := hframes
  refine ⟨?_, ?_, ?_, ?_, h.order, ⟨hchild, ⟨seen ++ [o], by simp [heq], ?_⟩, hbelow⟩, h.reach⟩
  · intro m
    rw [hopen]
    exact h.visited_iff m
  · intro m
    rw [hopen]
    exact h.onStack_iff m
  · rw [hopen]
    exact h.nodup
  · rw [hopen]
    exact h.disjoint
  · intro c hc
    rcases mem_append.mp hc with hc | hc
    · exact (hsorted c hc).imp_right nofun
    · exact hseen c (mem_singleton.mp hc).symm

variable [DecidableEq N] {cycle : ε}

theorem step_ok (h : step children cycle s = .ok s') :
    (s.stack = [] ∧ s' = s) ∨
      (∃ n rest, s.stack = (n, []) :: rest ∧
        s' = { s with stack := rest, onStack := s.onStack.erase n, sorted := s.sorted ++ [n] }) ∨
      (∃ n o cs rest, s.stack = (n, o :: cs) :: rest ∧
        (∀ c, o = some c → c ∉ s.onStack ∧ c ∈ s.visited) ∧
        s' = { s with stack := (n, cs) :: rest }) ∨
      (∃ n c cs rest, s.stack = (n, some c :: cs) :: rest ∧ c ∉ s.visited ∧
        s' = State.push children { s with stack := (n, cs) :: rest } c) := by
  unfold step at h
  split at h
  · rename_i heq
    exact .inl ⟨heq, (Except.ok.inj h).symm⟩
  · rename_i n rest heq
    exact .inr (.inl ⟨n, rest, heq, (Except.ok.inj h).symm⟩)
  · rename_i n cs rest heq
    exact .inr (.inr (.inl ⟨n, none, cs, rest, heq, by simp, (Except.ok.inj h).symm⟩))
  · rename_i n c cs rest heq
    split_ifs at h with hon hvis
    · refine .inr (.inr (.inl ⟨n, some c, cs, rest, heq, ?_, (Except.ok.inj h).symm⟩))
      rintro c' ⟨⟩
      exact ⟨hon, hvis⟩
    · exact .inr (.inr (.inr ⟨n, c, cs, rest, heq, hvis, (Except.ok.inj h).symm⟩))

theorem step_error (h : step children cycle s = .error e) :
    e = cycle ∧ ∃ n c cs rest, s.stack = (n, some c :: cs) :: rest ∧ c ∈ s.onStack := by
  unfold step at h
  split at h
  · cases h
  · cases h
  · cases h
  · rename_i n c cs rest heq
    split_ifs at h with hon
    exact ⟨(Except.error.inj h).symm, n, c, cs, rest, heq, hon⟩

theorem Inv.push (h : Inv children Root (some n) s) (hn : n ∉ s.visited)
    (hreach : ∃ r, Root r ∧ ReflTransGen (Child children) r n) :
    Inv children Root none (s.push children n) := by
  have hnot : n ∉ s.openNodes ∧ n ∉ s.sorted := by
    rw [h.visited_iff] at hn
    exact not_or.mp hn
  refine ⟨?_, ?_, ?_, ?_, h.order, ⟨nofun, ⟨[], rfl, nofun⟩, h.frames⟩, ?_⟩
  · simp [State.push, State.openNodes, h.visited_iff, or_assoc]
  · simp [State.push, State.openNodes, h.onStack_iff]
  · exact nodup_cons.mpr ⟨hnot.1, h.nodup⟩
  · intro m hm
    rcases mem_cons.mp hm with rfl | hm
    · exact hnot.2
    · exact h.disjoint m hm
  · intro m hm
    rcases Finset.mem_insert.mp hm with rfl | hm
    · exact hreach
    · exact h.reach m hm

/-- The latest open node has looked at all its children and is closed. -/
theorem Inv.pop (h : Inv children Root none s) (hstack : s.stack = (n, []) :: rest) :
    Inv children Root none
      { s with stack := rest, onStack := s.onStack.erase n, sorted := s.sorted ++ [n] } := by
  have hopen : s.openNodes = n :: rest.map Prod.fst := by simp [State.openNodes, hstack]
  have hnodup := nodup_cons.mp (hopen ▸ h.nodup)
  have hframes := h.frames
  rw [hstack] at hframes
  obtain ⟨-, ⟨seen, heq, hchildren⟩, hbelow⟩ := hframes
  refine ⟨?_, ?_, hnodup.2, ?_, ?_, hbelow.close, h.reach⟩
  · intro m
    rw [h.visited_iff m, hopen, mem_cons, mem_append, mem_singleton]
    simp only [State.openNodes]
    rw [or_assoc, or_comm, or_assoc]
  · intro m
    rw [Finset.mem_erase, h.onStack_iff m, hopen]
    constructor
    · rintro ⟨hne, hm⟩
      exact (mem_cons.mp hm).resolve_left hne
    · intro hm
      exact ⟨ne_of_mem_of_not_mem hm hnodup.1, mem_cons_of_mem _ hm⟩
  · intro m hm hmem
    rcases mem_append.mp hmem with hmem | hmem
    · exact h.disjoint m (hopen ▸ mem_cons_of_mem _ hm) hmem
    · rw [mem_singleton.mp hmem] at hm
      exact hnodup.1 hm
  · rw [reverse_append]
    refine ⟨fun c hc => ?_, fun hn => ?_, h.order⟩
    · rw [Child, heq, append_nil] at hc
      simpa using hchildren c hc
    · exact h.disjoint n (hopen ▸ mem_cons_self) (mem_reverse.mp hn)

theorem Inv.round (h : Inv children Root none s) (hstep : step children cycle s = .ok s') :
    Inv children Root none s' := by
  obtain ⟨-, rfl⟩ | ⟨n, rest, hstack, rfl⟩ | ⟨n, o, cs, rest, hstack, hseen, rfl⟩ |
    ⟨n, c, cs, rest, hstack, hc, rfl⟩ := step_ok hstep
  · exact h
  · exact h.pop hstack
  · refine h.look hstack (fun c hc => ?_) nofun
    obtain ⟨hon, hvis⟩ := hseen c hc
    rw [h.onStack_iff] at hon
    exact .inl (((h.visited_iff c).mp hvis).resolve_left hon)
  · have hchild : Child children n c := by
      have hframes := h.frames
      rw [hstack] at hframes
      obtain ⟨-, ⟨seen, heq, -⟩, -⟩ := hframes
      simp [Child, heq]
    have hn : n ∈ s.visited :=
      (h.visited_iff n).mpr (.inl (by simp [State.openNodes, hstack]))
    obtain ⟨r, hr, hrn⟩ := h.reach n hn
    have hlook : Inv children Root (some c) { s with stack := (n, cs) :: rest } :=
      h.look hstack (fun _ hc' => .inr hc') fun c' hc' => Option.some.inj hc' ▸ hchild
    exact hlook.push hc ⟨r, hr, hrn.tail hchild⟩

/-- A walk that stops early has found a cycle among the nodes it reached. -/
theorem Inv.cycle_of_error (h : Inv children Root none s)
    (hstep : step children cycle s = .error e) :
    e = cycle ∧ ∃ r c, Root r ∧ ReflTransGen (Child children) r c ∧
      TransGen (Child children) c c := by
  obtain ⟨he, n, c, cs, rest, hstack, hon⟩ := step_error hstep
  have hopen : s.openNodes = n :: rest.map Prod.fst := by simp [State.openNodes, hstack]
  have hframes := h.frames
  rw [hstack] at hframes
  obtain ⟨-, ⟨seen, heq, -⟩, hbelow⟩ := hframes
  have hchild : Child children n c := by simp [Child, heq]
  rw [h.onStack_iff] at hon
  obtain ⟨r, hr, hrc⟩ := h.reach c ((h.visited_iff c).mpr (.inl hon))
  refine ⟨he, r, c, hr, hrc, ?_⟩
  rw [hopen] at hon
  rcases mem_cons.mp hon with rfl | hon
  · exact TransGen.single hchild
  · exact (hbelow.transGen hon).tail hchild

omit [DecidableEq N] in
theorem Inv.initial : Inv children Root none ({} : State N) :=
  ⟨by simp [State.openNodes], by simp [State.openNodes], nodup_nil, nofun, trivial, trivial,
    by simp⟩

theorem visited_subset_of_step (h : step children cycle s = .ok s') : s.visited ⊆ s'.visited := by
  obtain ⟨-, rfl⟩ | ⟨n, rest, -, rfl⟩ | ⟨n, o, cs, rest, -, -, rfl⟩ | ⟨n, c, cs, rest, -, -, rfl⟩ :=
    step_ok h
  · exact Finset.Subset.refl _
  · exact Finset.Subset.refl _
  · exact Finset.Subset.refl _
  · exact Finset.subset_insert _ _

variable (children) in
/-- The rounds left: one for each child not looked at and one for each node to close. -/
def weight (nodes : Finset N) (s : State N) : Nat :=
  ∑ n ∈ nodes \ s.visited, ((children n).length + 1) +
    (s.stack.map fun frame => frame.2.length + 1).sum

theorem weight_push {nodes : Finset N} {n : N} (hn : n ∈ nodes) (hnew : n ∉ s.visited) :
    weight children nodes (s.push children n) = weight children nodes s := by
  have hmem : n ∈ nodes \ s.visited := Finset.mem_sdiff.mpr ⟨hn, hnew⟩
  have herase : nodes \ insert n s.visited = (nodes \ s.visited).erase n := by
    ext m
    simp only [Finset.mem_sdiff, Finset.mem_insert, Finset.mem_erase]
    tauto
  simp only [weight, State.push, map_cons, sum_cons, herase]
  rw [← Finset.sum_erase_add _ _ hmem]
  omega

theorem weight_step (h : Inv children Root none s)
    (hnodes : ∀ r n, Root r → ReflTransGen (Child children) r n → n ∈ nodes) (hopen : s.stack ≠ [])
    (hstep : step children cycle s = .ok s') :
    weight children nodes s' < weight children nodes s := by
  have hround := h.round hstep
  obtain ⟨hnil, -⟩ | ⟨n, rest, hstack, rfl⟩ | ⟨n, o, cs, rest, hstack, -, rfl⟩ |
    ⟨n, c, cs, rest, hstack, hc, rfl⟩ := step_ok hstep
  · exact absurd hnil hopen
  · simp only [weight, hstack, map_cons, sum_cons, length_nil]
    omega
  · simp only [weight, hstack, map_cons, sum_cons, length_cons]
    omega
  · obtain ⟨r, hr, hrc⟩ := hround.reach c (Finset.mem_insert_self _ _)
    have hsame := @weight_push _ children { s with stack := (n, cs) :: rest } _ nodes c
      (hnodes r c hr hrc) hc
    rw [hsame]
    simp only [weight, hstack, map_cons, sum_cons, length_cons]
    omega

/-- Enough fuel: the walk closes every node it opens, or stops at a cycle. -/
theorem walk_spec (hnodes : ∀ r n, Root r → ReflTransGen (Child children) r n → n ∈ nodes)
    (fuel : Nat) (h : Inv children Root none s) (hfuel : weight children nodes s ≤ fuel) :
    (∃ s', walk children cycle fuel s = .ok s' ∧ Inv children Root none s' ∧ s'.stack = [] ∧
        s.visited ⊆ s'.visited) ∨
      (walk children cycle fuel s = .error cycle ∧
        ∃ r c, Root r ∧ ReflTransGen (Child children) r c ∧ TransGen (Child children) c c) := by
  induction fuel generalizing s with
  | zero =>
    refine .inl ⟨s, rfl, h, ?_, Finset.Subset.refl _⟩
    cases hstack : s.stack with
    | nil => rfl
    | cons frame rest =>
      simp only [weight, hstack, map_cons, sum_cons] at hfuel
      omega
  | succ fuel ih =>
    by_cases hstack : s.stack = []
    · exact .inl ⟨s, by simp [walk, hstack], h, hstack, Finset.Subset.refl _⟩
    · have hne : s.stack.isEmpty = false := by simpa using hstack
      simp only [walk, hne, Bool.false_eq_true, if_false]
      cases hstep : step children cycle s with
      | error e =>
        obtain ⟨rfl, hcycle⟩ := h.cycle_of_error hstep
        exact .inr ⟨rfl, hcycle⟩
      | ok s₁ =>
        have hlt := weight_step h hnodes hstack hstep
        rcases ih (h.round hstep) (by omega) with ⟨s', hwalk, hinv, hdone, hsub⟩ | hcycle
        · exact .inl ⟨s', hwalk, hinv, hdone, (visited_subset_of_step hstep).trans hsub⟩
        · exact .inr hcycle

theorem visit_spec {nodes : Finset N} {fuel : Nat} {root : N}
    (hnodes : ∀ r n, Root r → ReflTransGen (Child children) r n → n ∈ nodes)
    (hfuel : ∑ n ∈ nodes, ((children n).length + 1) ≤ fuel) (hroot : Root root)
    (h : Inv children Root none s) (hdone : s.stack = []) :
    (∃ s', visit children cycle fuel s root = .ok s' ∧ Inv children Root none s' ∧
        s'.stack = [] ∧ s.visited ⊆ s'.visited ∧ root ∈ s'.visited) ∨
      (visit children cycle fuel s root = .error cycle ∧
        ∃ r c, Root r ∧ ReflTransGen (Child children) r c ∧ TransGen (Child children) c c) := by
  by_cases hvis : root ∈ s.visited
  · exact .inl ⟨s, by simp [visit, hvis], h, hdone, Finset.Subset.refl _, hvis⟩
  · have hframes : Inv children Root (some root) s := { h with frames := by simp [hdone, Frames] }
    have hpush := hframes.push hvis ⟨root, hroot, ReflTransGen.refl⟩
    have hweight : weight children nodes (s.push children root) ≤ fuel := by
      rw [weight_push (hnodes root root hroot ReflTransGen.refl) hvis, weight, hdone]
      exact (Finset.sum_le_sum_of_subset Finset.sdiff_subset).trans hfuel
    simp only [visit, hvis, if_false]
    rcases walk_spec hnodes fuel hpush hweight with ⟨s', hwalk, hinv, hempty, hsub⟩ | hcycle
    · refine .inl ⟨s', hwalk, hinv, hempty, ?_, hsub (Finset.mem_insert_self _ _)⟩
      exact (Finset.subset_insert _ _).trans hsub
    · exact .inr hcycle

/-- The walk lists exactly the nodes the roots reach, each once and after its
children, or there is a cycle among them. -/
theorem sort_spec {nodes : Finset N} {fuel : Nat} {roots : List N}
    (hnodes : ∀ r ∈ roots, ∀ n, ReflTransGen (Child children) r n → n ∈ nodes)
    (hfuel : ∑ n ∈ nodes, ((children n).length + 1) ≤ fuel) :
    (∃ sorted, sort children cycle fuel roots = .ok sorted ∧
        ParentsFirst children sorted.reverse ∧
        ∀ n, n ∈ sorted ↔ ∃ r ∈ roots, ReflTransGen (Child children) r n) ∨
      (sort children cycle fuel roots = .error cycle ∧
        ∃ r ∈ roots, ∃ c, ReflTransGen (Child children) r c ∧ TransGen (Child children) c c) := by
  have hloop : ∀ (done todo : List N) (s : State N), roots = done ++ todo →
      Inv children (· ∈ roots) none s → s.stack = [] → (∀ r ∈ done, r ∈ s.visited) →
      (∃ s', todo.foldlM (visit children cycle fuel) s = .ok s' ∧
          Inv children (· ∈ roots) none s' ∧ s'.stack = [] ∧ ∀ r ∈ roots, r ∈ s'.visited) ∨
        (todo.foldlM (visit children cycle fuel) s = .error cycle ∧
          ∃ r ∈ roots, ∃ c, ReflTransGen (Child children) r c ∧ TransGen (Child children) c c) := by
    intro done todo
    induction todo generalizing done with
    | nil =>
      intro s hroots h hdone hvis
      exact .inl ⟨s, rfl, h, hdone, by simpa [hroots] using hvis⟩
    | cons root rest ih =>
      intro s hroots h hdone hvis
      have hroot : root ∈ roots := by simp [hroots]
      rw [foldlM_cons]
      rcases visit_spec (fun r n hr => hnodes r hr n) hfuel hroot h hdone with
        ⟨s₁, hvisit, hinv, hempty, hsub, hmem⟩ | ⟨herror, r, c, hr, hrc, hcycle⟩
      · rw [hvisit]
        apply ih (done ++ [root]) s₁ (by simp [hroots]) hinv hempty
        intro r hr
        rcases mem_append.mp hr with hr | hr
        · exact hsub (hvis r hr)
        · rwa [mem_singleton.mp hr]
      · rw [herror]
        exact .inr ⟨rfl, r, hr, c, hrc, hcycle⟩
  rcases hloop [] roots {} rfl Inv.initial rfl nofun with ⟨s', hrun, hinv, hempty, hvis⟩ | ⟨herror, hcycle⟩
  · refine .inl ⟨s'.sorted, by simp [sort, hrun, bind, Except.bind, pure, Except.pure],
      hinv.order, ?_⟩
    have hsorted : ∀ n, n ∈ s'.visited ↔ n ∈ s'.sorted := by
      simp [hinv.visited_iff, State.openNodes, hempty]
    intro n
    constructor
    · intro hn
      exact hinv.reach n ((hsorted n).mpr hn)
    · rintro ⟨r, hr, hreach⟩
      have hmem : r ∈ s'.sorted.reverse := by
        rw [mem_reverse, ← hsorted]
        exact hvis r hr
      exact mem_reverse.mp (hinv.order.reachable_mem hmem hreach)
  · exact .inr ⟨by simp [sort, herror, bind, Except.bind], hcycle⟩

section Congr

variable {children' : N → List (Option N)}

theorem Inv.step_congr (h : Inv children Root none s)
    (hsame : ∀ r n, Root r → ReflTransGen (Child children) r n → children' n = children n) :
    step children' cycle s = step children cycle s := by
  unfold step
  split
  · rfl
  · rfl
  · rfl
  · rename_i n c cs rest hstack
    have hframes := h.frames
    rw [hstack] at hframes
    obtain ⟨-, ⟨seen, heq, -⟩, -⟩ := hframes
    have hchild : Child children n c := by simp [Child, heq]
    have hn : n ∈ s.visited :=
      (h.visited_iff n).mpr (.inl (by simp [State.openNodes, hstack]))
    obtain ⟨r, hr, hrn⟩ := h.reach n hn
    rw [State.push, State.push, hsame r c hr (hrn.tail hchild)]

theorem walk_of_done (hstack : s.stack = []) (fuel : Nat) :
    walk children cycle fuel s = .ok s := by
  cases fuel with
  | zero => rfl
  | succ fuel => simp [walk, hstack]

/-- Any two amounts of fuel that are enough give the same walk. -/
theorem walk_congr {nodes : Finset N}
    (hnodes : ∀ r n, Root r → ReflTransGen (Child children) r n → n ∈ nodes)
    (hsame : ∀ r n, Root r → ReflTransGen (Child children) r n → children' n = children n)
    (fuel fuel' : Nat) (h : Inv children Root none s) (hfuel : weight children nodes s ≤ fuel)
    (hfuel' : weight children nodes s ≤ fuel') :
    walk children' cycle fuel' s = walk children cycle fuel s := by
  induction fuel generalizing s fuel' with
  | zero =>
    have hstack : s.stack = [] := by
      cases hcons : s.stack with
      | nil => rfl
      | cons frame rest =>
        simp only [weight, hcons, map_cons, sum_cons] at hfuel
        omega
    rw [walk_of_done hstack, walk_of_done hstack]
  | succ fuel ih =>
    by_cases hstack : s.stack = []
    · rw [walk_of_done hstack, walk_of_done hstack]
    · cases fuel' with
      | zero =>
        obtain ⟨frame, rest, hcons⟩ := exists_cons_of_ne_nil hstack
        simp only [weight, hcons, map_cons, sum_cons] at hfuel'
        omega
      | succ fuel' =>
        have hne : s.stack.isEmpty = false := by simpa using hstack
        simp only [walk, hne, Bool.false_eq_true, if_false, h.step_congr hsame]
        cases hstep : step children cycle s with
        | error e => rfl
        | ok s₁ =>
          have hlt := weight_step h hnodes hstack hstep
          exact ih fuel' (h.round hstep) (by omega) (by omega)

theorem sort_congr {nodes : Finset N} {fuel fuel' : Nat} {roots : List N}
    (hnodes : ∀ r ∈ roots, ∀ n, ReflTransGen (Child children) r n → n ∈ nodes)
    (hsame : ∀ r ∈ roots, ∀ n, ReflTransGen (Child children) r n → children' n = children n)
    (hfuel : ∑ n ∈ nodes, ((children n).length + 1) ≤ fuel)
    (hfuel' : ∑ n ∈ nodes, ((children n).length + 1) ≤ fuel') :
    sort children' cycle fuel' roots = sort children cycle fuel roots := by
  have hloop : ∀ (todo : List N) (s : State N), (∀ r ∈ todo, r ∈ roots) →
      Inv children (· ∈ roots) none s → s.stack = [] →
      todo.foldlM (visit children' cycle fuel') s = todo.foldlM (visit children cycle fuel) s := by
    intro todo
    induction todo with
    | nil => exact fun _ _ _ _ => rfl
    | cons root rest ih =>
      intro s hsub h hdone
      have hroot : root ∈ roots := hsub root mem_cons_self
      have hvisit : visit children' cycle fuel' s root = visit children cycle fuel s root := by
        by_cases hvis : root ∈ s.visited
        · simp [visit, hvis]
        · have hframes : Inv children (· ∈ roots) (some root) s :=
            { h with frames := by simp [hdone, Frames] }
          have hpush := hframes.push hvis ⟨root, hroot, ReflTransGen.refl⟩
          have hweight : weight children nodes (s.push children root) ≤
              ∑ n ∈ nodes, ((children n).length + 1) := by
            rw [weight_push (hnodes root hroot root ReflTransGen.refl) hvis, weight, hdone]
            exact Finset.sum_le_sum_of_subset Finset.sdiff_subset
          have heq : s.push children' root = s.push children root := by
            rw [State.push, State.push, hsame root hroot root ReflTransGen.refl]
          simp only [visit, hvis, if_false, heq]
          exact walk_congr (fun r n hr => hnodes r hr n) (fun r n hr => hsame r hr n) _ _ hpush
            (hweight.trans hfuel) (hweight.trans hfuel')
      rw [foldlM_cons, foldlM_cons, hvisit]
      rcases visit_spec (fun r n hr => hnodes r hr n) hfuel hroot h hdone with
        ⟨s₁, hok, hinv, hempty, -, -⟩ | ⟨herror, -⟩
      · rw [hok]
        exact ih s₁ (fun r hr => hsub r (mem_cons_of_mem _ hr)) hinv hempty
      · rw [herror]
        rfl
  rw [sort, sort, hloop roots {} (fun _ hr => hr) Inv.initial rfl]

end Congr

end PostOrder
