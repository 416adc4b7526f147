import Mathlib.Algebra.Field.Basic
import Mathlib.Data.Fintype.BigOperators

/-!
# Training with an element-wise optimizer

Tensors of known lengths, an optimizer that treats every element by itself, and
the training of one process on the gradients averaged over the ranks.
-/

namespace ElementwiseTraining

variable {Var α σ : Type*} {numel : Var → ℕ} {v : Var}

abbrev Tensors (numel : Var → ℕ) (α : Type*) := (v : Var) → Fin (numel v) → α

/-- A gradient for some of the tensors. -/
abbrev Grads (numel : Var → ℕ) (α : Type*) := (v : Var) → Option (Fin (numel v) → α)

def Grads.at (g : Grads numel α) (v : Var) (j : Fin (numel v)) : Option α := (g v).map (· j)

variable {g : Grads numel α}

@[simp] theorem Grads.at_of_none (h : g v = none) (j : Fin (numel v)) : g.at v j = none := by
  rw [Grads.at, h, Option.map_none]

@[simp] theorem Grads.at_of_some {d : Fin (numel v) → α} (h : g v = some d) (j : Fin (numel v)) :
    g.at v j = some (d j) := by
  rw [Grads.at, h, Option.map_some]

/-- The new value and the new state of an element, from its value, its gradient and its state. -/
structure Optimizer (α σ : Type*) where
  update : α → α → σ → α × σ

/-- An element without a gradient is left as it is. -/
def Optimizer.element (opt : Optimizer α σ) (value : α) (grad : Option α) (state : σ) : α × σ :=
  match grad with
  | some d => opt.update value d state
  | none => (value, state)

/-- The parameters and what the optimizer keeps of them. -/
structure Learner (numel : Var → ℕ) (α σ : Type*) where
  values : Tensors numel α
  states : Tensors numel σ

def Optimizer.step (opt : Optimizer α σ) (g : Grads numel α) (l : Learner numel α σ) :
    Learner numel α σ where
  values v j := (opt.element (l.values v j) (g.at v j) (l.states v j)).1
  states v j := (opt.element (l.values v j) (g.at v j) (l.states v j)).2

/-- A step sees the gradients element by element. -/
theorem Optimizer.step_congr (opt : Optimizer α σ) {g' : Grads numel α}
    (h : ∀ v j, g.at v j = g'.at v j) (l : Learner numel α σ) : opt.step g l = opt.step g' l := by
  simp only [Optimizer.step, h]

/-- Two learners hold the same at an element. -/
def SameAt (l l' : Learner numel α σ) (v : Var) (j : Fin (numel v)) : Prop :=
  l.values v j = l'.values v j ∧ l.states v j = l'.states v j

theorem SameAt.step {opt : Optimizer α σ} {l l' : Learner numel α σ} {g g' : Grads numel α}
    {v : Var} {j : Fin (numel v)} (h : SameAt l l' v j) (hg : g.at v j = g'.at v j) :
    SameAt (opt.step g l) (opt.step g' l') v j := by
  constructor
  · simp only [Optimizer.step, h.1, h.2, hg]
  · simp only [Optimizer.step, h.1, h.2, hg]

section Average

variable [DivisionRing α] {ι : Type*} [Fintype ι] {g : ι → Grads numel α} {v : Var} {r : ι}

/-- The average over the ranks. A rank without a gradient counts as zero, and a tensor that no
rank has a gradient for gets none. -/
def average (g : ι → Grads numel α) : Grads numel α := fun v =>
  if ∃ r, (g r v).isSome then
    some fun j => (∑ r, ((g r).at v j).getD 0) / (Fintype.card ι : α)
  else none

theorem average_of_some (h : (g r v).isSome) :
    average g v = some fun j => (∑ r, ((g r).at v j).getD 0) / (Fintype.card ι : α) :=
  if_pos ⟨r, h⟩

theorem average_at_of_some (h : (g r v).isSome) (j : Fin (numel v)) :
    (average g).at v j = some ((∑ r, ((g r).at v j).getD 0) / (Fintype.card ι : α)) :=
  Grads.at_of_some (average_of_some h) j

theorem average_of_none (h : ∀ r, g r v = none) : average g v = none :=
  if_neg fun ⟨r, hr⟩ => by rw [h r] at hr; simp at hr

/-- The average is taken element by element. -/
theorem average_at_congr {g' : ι → Grads numel α} (hsome : ∀ r, (g r v).isSome = (g' r v).isSome)
    {j : Fin (numel v)} (hat : ∀ r, (g r).at v j = (g' r).at v j) :
    (average g).at v j = (average g').at v j := by
  by_cases h : ∃ r, (g r v).isSome
  · obtain ⟨r, hr⟩ := h
    rw [average_at_of_some hr, average_at_of_some (by rw [← hsome r]; exact hr)]
    simp only [hat]
  · rw [Grads.at_of_none (if_neg h), Grads.at_of_none]
    exact if_neg fun ⟨r, hr⟩ => h ⟨r, by rw [hsome r]; exact hr⟩

/-- One rank is its own average. -/
theorem average_at_of_unique [Unique ι] (g : ι → Grads numel α) (v : Var) (j : Fin (numel v)) :
    (average g).at v j = (g default).at v j := by
  cases hg : g default v with
  | none =>
    have hnone : ∀ r, g r v = none := fun r => by rw [Unique.eq_default r, hg]
    rw [Grads.at_of_none (average_of_none hnone), Grads.at_of_none hg]
  | some d =>
    rw [average_at_of_some (r := default) (by rw [hg]; rfl), Fintype.sum_unique, Fintype.card_unique, Nat.cast_one, div_one, Grads.at_of_some hg]
    rfl

/-- What the ranks do in a round: the gradient of each at the parameters. -/
abbrev Round (numel : Var → ℕ) (α ι : Type*) := ι → Tensors numel α → Grads numel α

/-- One process trains on the averaged gradients. -/
def train (opt : Optimizer α σ) (l : Learner numel α σ) (rounds : List (Round numel α ι)) :
    Learner numel α σ :=
  rounds.foldl (fun l round => opt.step (average fun r => round r l.values) l) l

end Average

end ElementwiseTraining
