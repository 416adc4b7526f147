import Mathlib.Data.Finset.Card

/-!
# Sorting by dependencies

Kahn's algorithm over a list of nodes. `preds n` lists the nodes that `n`
depends on, one entry for each edge; a node is taken from the queue when every
one of its edges has been counted down. On an acyclic list the result is a
permutation in which everything comes after what it depends on.
-/

namespace Kahn

open List

variable {α : Type} [DecidableEq α]

/-- The nodes that depend on `p`, once for each edge, in list order. -/
def successors (nodes : List α) (preds : α → List α) (p : α) : List α :=
  nodes.flatMap fun n => List.replicate ((preds n).count p) n

/-- Count down one edge to each node of the list; a node that reaches zero is queued. -/
def visit (deg : α → Int) (queue : List α) : List α → (α → Int) × List α
  | [] => (deg, queue)
  | s :: ss =>
    let deg' := Function.update deg s (deg s - 1)
    if deg' s = 0 then visit deg' (queue ++ [s]) ss else visit deg' queue ss

/-- Each round takes one node from the queue; there are no more rounds than nodes. -/
def loop (succs : α → List α) : Nat → (α → Int) → List α → List α → List α
  | 0, _, _, sorted => sorted
  | _ + 1, _, [], sorted => sorted
  | k + 1, deg, n :: queue, sorted =>
    let next := visit deg queue (succs n)
    loop succs k next.1 next.2 (sorted ++ [n])

def inDegree (preds : α → List α) (n : α) : Int := (preds n).length

/-- `none` when some nodes are left over: the dependencies are cyclic. -/
def sort (nodes : List α) (preds : α → List α) : Option (List α) :=
  let sorted := loop (successors nodes preds) nodes.length (inDegree preds)
    (nodes.filter fun n => inDegree preds n = 0) []
  if sorted.length = nodes.length then some sorted else none

theorem count_successors {nodes : List α} (hnd : nodes.Nodup) (preds : α → List α) (p m : α) :
    (successors nodes preds p).count m = if m ∈ nodes then (preds m).count p else 0 := by
  induction nodes with
  | nil => simp [successors]
  | cons n nodes ih =>
    rw [nodup_cons] at hnd
    have ih := ih hnd.2
    simp only [successors, flatMap_cons, count_append, count_replicate] at ih ⊢
    rw [ih]
    by_cases hm : m = n
    · subst hm
      simp [hnd.1]
    · simp [hm, Ne.symm hm]

/-- Each node loses as many as the list holds; exactly those that reach zero are queued. -/
theorem visit_spec {deg : α → Int} {queue ss : List α}
    (hdeg : ∀ m ∈ ss, (ss.count m : Int) ≤ deg m) :
    (∀ m, (visit deg queue ss).1 m = deg m - ss.count m) ∧
      ∃ new, (visit deg queue ss).2 = queue ++ new ∧ new.Nodup ∧
        ∀ m, m ∈ new ↔ m ∈ ss ∧ deg m = ss.count m := by
  induction ss generalizing deg queue with
  | nil => exact ⟨by simp [visit], [], by simp [visit]⟩
  | cons s ss ih =>
    have hs : (ss.count s : Int) + 1 ≤ deg s := by
      simpa using hdeg s (by simp)
    set deg' := Function.update deg s (deg s - 1) with hdeg'
    have hself : deg' s = deg s - 1 := by simp [hdeg']
    have hother : ∀ m, m ≠ s → deg' m = deg m := fun m hm => by simp [hdeg', hm]
    have hle : ∀ m ∈ ss, (ss.count m : Int) ≤ deg' m := by
      intro m hm
      by_cases hms : m = s
      · subst hms
        omega
      · have := hdeg m (by simp [hm])
        rw [count_cons_of_ne (Ne.symm hms)] at this
        rwa [hother m hms]
    have hsub : ∀ m, deg' m - (ss.count m : Int) = deg m - ((s :: ss).count m : Int) := by
      intro m
      by_cases hms : m = s
      · subst hms
        rw [count_cons_self]
        omega
      · rw [hother m hms, count_cons_of_ne (Ne.symm hms)]
    have hkeep : ∀ m, m ≠ s → (m ∈ ss ∧ deg' m = ss.count m ↔
        m ∈ s :: ss ∧ deg m = (s :: ss).count m) := by
      intro m hms
      rw [hother m hms, count_cons_of_ne (Ne.symm hms)]
      simp [hms]
    by_cases hzero : deg' s = 0
    · obtain ⟨h₁, new, h₂, hnd, hmem⟩ := @ih deg' (queue ++ [s]) hle
      have hnotmem : s ∉ ss := by
        intro hmem
        have := count_pos_iff.mpr hmem
        omega
      have heq : visit deg queue (s :: ss) = visit deg' (queue ++ [s]) ss := by
        rw [visit, if_pos hzero]
      rw [heq]
      refine ⟨fun m => (h₁ m).trans (hsub m), s :: new, by rw [h₂]; simp, ?_, fun m => ?_⟩
      · rw [nodup_cons]
        exact ⟨fun h => hnotmem ((hmem s).mp h).1, hnd⟩
      · by_cases hms : m = s
        · subst hms
          have hc := count_eq_zero.mpr hnotmem
          simp only [mem_cons, true_or, count_cons_self, hc, true_and, true_iff]
          omega
        · rw [mem_cons, or_iff_right hms, hmem m]
          exact hkeep m hms
    · obtain ⟨h₁, new, h₂, hnd, hmem⟩ := @ih deg' queue hle
      have heq : visit deg queue (s :: ss) = visit deg' queue ss := by
        rw [visit, if_neg hzero]
      rw [heq]
      refine ⟨fun m => (h₁ m).trans (hsub m), new, h₂, hnd, fun m => ?_⟩
      by_cases hms : m = s
      · subst hms
        rw [hmem m, count_cons_self]
        constructor
        · rintro ⟨-, hc⟩
          exact ⟨by simp, by omega⟩
        · rintro ⟨-, hc⟩
          have hpos : 0 < ss.count m := by omega
          exact ⟨count_pos_iff.mp hpos, by omega⟩
      · rw [hmem m]
        exact hkeep m hms

section Loop

variable {nodes : List α} {preds : α → List α} {sorted : List α} {n : α} {rank : α → Nat}
  {deg : α → Int}

/-- The edges of `n` that are still to be counted down. -/
def pending (preds : α → List α) (sorted : List α) (n : α) : Nat :=
  (preds n).countP (· ∉ sorted)

/-- What the loop keeps: the degrees count the pending edges, the nodes without
any are those sorted or queued, and what is sorted is in order. -/
structure Progress (nodes : List α) (preds : α → List α) (deg : α → Int)
    (queue sorted : List α) : Prop where
  nodup : (sorted ++ queue).Nodup
  mem_nodes : ∀ n ∈ sorted ++ queue, n ∈ nodes
  deg_eq : ∀ n ∈ nodes, deg n = pending preds sorted n
  ready_iff : ∀ n ∈ nodes, pending preds sorted n = 0 ↔ n ∈ sorted ++ queue
  ordered : ∀ before n after, sorted = before ++ n :: after → ∀ p ∈ preds n, p ∈ before

theorem pending_eq_zero : pending preds sorted n = 0 ↔ ∀ p ∈ preds n, p ∈ sorted := by
  simp [pending, countP_eq_zero]

theorem pending_snoc (hn : n ∉ sorted) (m : α) :
    pending preds (sorted ++ [n]) m + (preds m).count n = pending preds sorted m := by
  simp only [pending, mem_append, mem_singleton]
  induction preds m with
  | nil => simp
  | cons p l ih =>
    rw [countP_cons, countP_cons, count_cons]
    by_cases hp : p = n
    · subst hp
      simp only [or_true, not_true, decide_false, hn, not_false_eq_true, decide_true,
        beq_self_eq_true, Bool.false_eq_true, if_false, if_true]
      omega
    · have hbeq : (p == n) = false := by simpa using hp
      simp only [hp, or_false, hbeq, Bool.false_eq_true, if_false]
      omega

theorem Progress.init (hnd : nodes.Nodup) :
    Progress nodes preds (inDegree preds) (nodes.filter fun n => inDegree preds n = 0) [] where
  nodup := hnd.filter _
  mem_nodes n hn := by simp at hn; exact hn.1
  deg_eq n _ := by simp [inDegree, pending]
  ready_iff n hn := by simp [inDegree, pending, hn]
  ordered before n after h := by simp at h

theorem Progress.step (hnd : nodes.Nodup) {deg : α → Int} {n : α} {queue sorted : List α}
    (h : Progress nodes preds deg (n :: queue) sorted) :
    Progress nodes preds (visit deg queue (successors nodes preds n)).1
      (visit deg queue (successors nodes preds n)).2 (sorted ++ [n]) := by
  have hn : n ∈ nodes := h.mem_nodes n (by simp)
  have hnot : n ∉ sorted := fun hs => by
    have := (nodup_append.mp h.nodup).2.2 n hs n (by simp)
    exact this rfl
  have hcount := fun m => count_successors hnd preds n m
  have hpend : ∀ m, pending preds (sorted ++ [n]) m + (preds m).count n =
      pending preds sorted m := pending_snoc hnot
  have hle : ∀ m ∈ successors nodes preds n,
      ((successors nodes preds n).count m : Int) ≤ deg m := by
    intro m hm
    have hmn : m ∈ nodes := by
      by_contra hmn
      have := count_pos_iff.mpr hm
      rw [hcount, if_neg hmn] at this
      omega
    rw [hcount, if_pos hmn, h.deg_eq m hmn, ← hpend m]
    omega
  obtain ⟨hdeg, new, hnew, hnewnd, hmem⟩ := @visit_spec α _ deg queue _ hle
  have hnew_iff : ∀ m ∈ nodes, m ∈ new ↔
      pending preds (sorted ++ [n]) m = 0 ∧ pending preds sorted m ≠ 0 := by
    intro m hm
    rw [hmem m, ← count_pos_iff, hcount, if_pos hm, h.deg_eq m hm, ← hpend m]
    omega
  have hnew_nodes : ∀ m ∈ new, m ∈ nodes := by
    intro m hm
    by_contra hmn
    have := count_pos_iff.mpr ((hmem m).mp hm).1
    rw [hcount, if_neg hmn] at this
    omega
  rw [hnew]
  refine ⟨?_, ?_, ?_, ?_, ?_⟩
  · have hsep : ∀ a ∈ sorted ++ n :: queue, ∀ b ∈ new, a ≠ b := by
      rintro a ha b hb rfl
      have ha' := hnew_nodes a hb
      exact ((hnew_iff a ha').mp hb).2 ((h.ready_iff a ha').mpr ha)
    have hall := nodup_append.mpr ⟨h.nodup, hnewnd, hsep⟩
    simpa using hall
  · intro m hm
    simp only [mem_append, mem_singleton] at hm
    obtain (hm | rfl) | hm | hm := hm
    · exact h.mem_nodes m (by simp [hm])
    · exact hn
    · exact h.mem_nodes m (by simp [hm])
    · exact hnew_nodes m hm
  · intro m hm
    rw [hdeg m, hcount, if_pos hm, h.deg_eq m hm, ← hpend m]
    omega
  · intro m hm
    have hold := h.ready_iff m hm
    have hp := hpend m
    simp only [mem_append, mem_cons] at hold ⊢
    by_cases hzero : pending preds sorted m = 0
    · grind
    · grind
  · intro before x after hsplit p hp
    obtain rfl | ⟨after, y, rfl⟩ := after.eq_nil_or_concat'
    · obtain ⟨rfl, hx⟩ := append_inj' hsplit rfl
      obtain rfl : n = x := by simpa using hx
      exact pending_eq_zero.mp ((h.ready_iff n hn).mpr (by simp)) p hp
    · have hsplit' : sorted ++ [n] = (before ++ x :: after) ++ [y] := by simpa using hsplit
      obtain ⟨hs, -⟩ := append_inj' hsplit' rfl
      exact h.ordered before x after hs p hp

/-- With an empty queue nothing is left: a node of least rank among the rest
would have no pending edge. -/
theorem Progress.mem_sorted (hpreds : ∀ n ∈ nodes, ∀ p ∈ preds n, p ∈ nodes)
    (hrank : ∀ n ∈ nodes, ∀ p ∈ preds n, rank p < rank n) (h : Progress nodes preds deg [] sorted) :
    ∀ r, ∀ n ∈ nodes, rank n = r → n ∈ sorted := by
  intro r
  induction r using Nat.strongRecOn with
  | _ r ih =>
    rintro n hn rfl
    have hall : ∀ p ∈ preds n, p ∈ sorted := fun p hp =>
      ih (rank p) (hrank n hn p hp) p (hpreds n hn p hp) rfl
    simpa using (h.ready_iff n hn).mp (pending_eq_zero.mpr hall)

/-- A loop with enough rounds ends with everything sorted, when the dependencies
decrease a rank. -/
theorem loop_spec (hnd : nodes.Nodup) (hpreds : ∀ n ∈ nodes, ∀ p ∈ preds n, p ∈ nodes)
    (hrank : ∀ n ∈ nodes, ∀ p ∈ preds n, rank p < rank n) {k : Nat} {queue : List α}
    (h : Progress nodes preds deg queue sorted) (hk : nodes.length ≤ k + sorted.length) :
    (loop (successors nodes preds) k deg queue sorted).Perm nodes ∧
      ∀ before n after, loop (successors nodes preds) k deg queue sorted =
        before ++ n :: after → ∀ p ∈ preds n, p ∈ before := by
  induction k generalizing deg queue sorted with
  | zero =>
    have hsub : sorted.Subperm nodes := subperm_of_subset h.nodup.of_append_left
      fun n hn => h.mem_nodes n (mem_append_left _ hn)
    exact ⟨hsub.perm_of_length_le (by omega), h.ordered⟩
  | succ k ih =>
    cases queue with
    | nil =>
      refine ⟨?_, h.ordered⟩
      apply (perm_ext_iff_of_nodup h.nodup.of_append_left hnd).mpr
      exact fun n => ⟨fun hn => h.mem_nodes n (mem_append_left _ hn),
        fun hn => h.mem_sorted hpreds hrank _ n hn rfl⟩
    | cons n queue =>
      apply ih (h.step hnd)
      rw [length_append, length_singleton]
      omega

/-- An acyclic list is sorted. -/
theorem sort_spec (hnd : nodes.Nodup) (hpreds : ∀ n ∈ nodes, ∀ p ∈ preds n, p ∈ nodes)
    {rank : α → Nat} (hrank : ∀ n ∈ nodes, ∀ p ∈ preds n, rank p < rank n) :
    ∃ sorted, sort nodes preds = some sorted ∧ sorted.Perm nodes ∧
      ∀ before n after, sorted = before ++ n :: after → ∀ p ∈ preds n, p ∈ before := by
  have hle : nodes.length ≤ nodes.length + ([] : List α).length := by simp
  obtain ⟨hperm, hord⟩ := loop_spec hnd hpreds hrank (Progress.init hnd) hle
  exact ⟨_, by rw [sort, if_pos hperm.length_eq], hperm, hord⟩

end Loop

section Cycles

open Relation

variable {nodes : List α} {preds : α → List α} {n : α} {deg : α → Int} {queue sorted : List α}

/-- `n` depends on `p`. -/
def Dep (preds : α → List α) (n p : α) : Prop := p ∈ preds n

/-- A list in which everything comes after what it depends on. -/
def Ordered (preds : α → List α) (l : List α) : Prop :=
  ∀ before n after, l = before ++ n :: after → ∀ p ∈ preds n, p ∈ before

omit [DecidableEq α] in
theorem Ordered.not_cyclic {l : List α} (h : Ordered preds l) (hnd : l.Nodup) (hn : n ∈ l) :
    ¬ TransGen (Dep preds) n n := by
  have hbefore : ∀ m, TransGen (Dep preds) n m → ∀ before after, l = before ++ n :: after →
      m ∈ before := by
    intro m hm before after hl
    induction hm with
    | single hp => exact h before n after hl _ hp
    | tail _ hp ih =>
      obtain ⟨before₁, after₁, rfl⟩ := append_of_mem ih
      exact mem_append_left _
        (h before₁ _ (after₁ ++ n :: after) (by rw [hl, append_assoc]; rfl) _ hp)
  intro hcycle
  obtain ⟨before, after, hl⟩ := append_of_mem hn
  have hmem := hbefore n hcycle before after hl
  rw [hl] at hnd
  exact (nodup_append.mp hnd).2.2 n hmem n mem_cons_self rfl

open Classical in
/-- How many nodes a node depends on, along chains. -/
noncomputable def height (nodes : List α) (preds : α → List α) (n : α) : ℕ :=
  (nodes.toFinset.filter (TransGen (Dep preds) n)).card

theorem height_lt {p : α} (hp : p ∈ preds n) (hmem : p ∈ nodes)
    (hacyclic : ¬ TransGen (Dep preds) p p) : height nodes preds p < height nodes preds n := by
  classical
  apply Finset.card_lt_card
  rw [Finset.ssubset_iff_of_subset]
  · refine ⟨p, ?_, fun hself => hacyclic (Finset.mem_filter.mp hself).2⟩
    exact Finset.mem_filter.mpr ⟨mem_toFinset.mpr hmem, TransGen.single hp⟩
  · intro m hm
    rw [Finset.mem_filter] at hm ⊢
    exact ⟨hm.1, TransGen.head hp hm.2⟩

/-- The loop keeps its invariant to the end. -/
theorem loop_progress (hnd : nodes.Nodup) (k : ℕ) (h : Progress nodes preds deg queue sorted) :
    ∃ deg' queue', Progress nodes preds deg' queue'
      (loop (successors nodes preds) k deg queue sorted) := by
  induction k generalizing deg queue sorted with
  | zero => exact ⟨deg, queue, h⟩
  | succ k ih =>
    cases queue with
    | nil => exact ⟨deg, [], h⟩
    | cons n queue => exact ih (h.step hnd)

/-- More rounds than nodes change nothing. -/
theorem loop_eq_of_le (hnd : nodes.Nodup) {k : ℕ} (h : Progress nodes preds deg queue sorted)
    (hk : nodes.length ≤ k + sorted.length) (k' : ℕ) (hk' : k ≤ k') :
    loop (successors nodes preds) k' deg queue sorted =
      loop (successors nodes preds) k deg queue sorted := by
  induction k generalizing deg queue sorted k' with
  | zero =>
    have hqueue : queue = [] := by
      have hle := (subperm_of_subset h.nodup h.mem_nodes).length_le
      rw [length_append] at hle
      exact length_eq_zero_iff.mp (by omega)
    rw [hqueue]
    cases k' <;> rfl
  | succ k ih =>
    obtain ⟨k', rfl⟩ := Nat.exists_eq_add_of_le' (Nat.one_le_of_lt hk')
    cases queue with
    | nil => rfl
    | cons n queue =>
      apply ih (h.step hnd)
      · rw [length_append, length_singleton]
        omega
      · omega

/-- What is sorted is a rearrangement in order. -/
theorem sort_eq_some (hnd : nodes.Nodup) (h : sort nodes preds = some sorted) :
    sorted.Perm nodes ∧ Ordered preds sorted := by
  have hinit : Progress nodes preds (inDegree preds) _ [] := Progress.init hnd
  obtain ⟨deg, queue, hprogress⟩ := loop_progress hnd nodes.length hinit
  unfold sort at h
  dsimp only at h
  split_ifs at h with hlen
  obtain rfl := Option.some.inj h
  have hsub := subperm_of_subset hprogress.nodup.of_append_left
    fun n hn => hprogress.mem_nodes n (mem_append_left _ hn)
  exact ⟨hsub.perm_of_length_le hlen.ge, hprogress.ordered⟩

/-- The sort fails exactly if the dependencies are cyclic. -/
theorem sort_eq_none_iff (hnd : nodes.Nodup) (hpreds : ∀ n ∈ nodes, ∀ p ∈ preds n, p ∈ nodes) :
    sort nodes preds = none ↔ ∃ n ∈ nodes, TransGen (Dep preds) n n := by
  constructor
  · contrapose!
    intro hacyclic
    have hheight : ∀ n ∈ nodes, ∀ p ∈ preds n, height nodes preds p < height nodes preds n :=
      fun n hn p hp => height_lt hp (hpreds n hn p hp) (hacyclic p (hpreds n hn p hp))
    obtain ⟨sorted, hsort, -⟩ := sort_spec hnd hpreds hheight
    rw [hsort]
    exact Option.some_ne_none sorted
  · rintro ⟨n, hn, hcycle⟩
    cases hsort : sort nodes preds with
    | none => rfl
    | some sorted =>
      obtain ⟨hperm, hordered⟩ := sort_eq_some hnd hsort
      exact absurd hcycle (hordered.not_cyclic (hperm.nodup_iff.mpr hnd) (hperm.mem_iff.mpr hn))

end Cycles

end Kahn
