import Mathlib.Logic.Basic

/-!
# Programs that keep their state when they throw

A program over a state `S` returns the state it left and whether it threw. A
throw skips the rest of the program; what was done before stays done.
-/

namespace KeepState

variable {ε S S' A : Type*} {α : Type*} {s s' : S} {r : S × Except ε Unit} {P : S → Prop}
  {l : List A} {Q : S → S' → Prop} {x : Except ε α} {next : α → S × Except ε Unit}

/-- Continue after `r` unless it threw. -/
def andThen (r : S × Except ε Unit) (next : S → S × Except ε Unit) : S × Except ε Unit :=
  match r.2 with
  | .ok _ => next r.1
  | .error e => (r.1, .error e)

/-- Use the value of a check that does not touch the state. -/
def attempt {α : Type*} (s : S) (x : Except ε α) (next : α → S × Except ε Unit) :
    S × Except ε Unit :=
  match x with
  | .ok a => next a
  | .error e => (s, .error e)

def loop (body : S → A → S × Except ε Unit) : S → List A → S × Except ε Unit
  | s, [] => (s, .ok ())
  | s, a :: rest => andThen (body s a) fun s' => loop body s' rest

@[simp] theorem andThen_ok (s : S) (u : Unit) (next : S → S × Except ε Unit) :
    andThen (s, .ok u) next = next s := rfl

@[simp] theorem andThen_error (s : S) (e : ε) (next : S → S × Except ε Unit) :
    andThen (s, .error e) next = (s, .error e) := rfl

@[simp] theorem attempt_ok (s : S) (a : α) (next : α → S × Except ε Unit) :
    attempt s (.ok a) next = next a := rfl

@[simp] theorem attempt_error (s : S) (e : ε) (next : α → S × Except ε Unit) :
    attempt s (.error e) next = (s, .error e) := rfl

theorem attempt_eq_ok :
    attempt s x next = (s', .ok ()) ↔ ∃ a, x = .ok a ∧ next a = (s', .ok ()) := by
  cases x with
  | error e => simp [attempt]
  | ok a => simp [attempt]

theorem andThen_eq_ok {next : S → S × Except ε Unit} :
    andThen r next = (s', .ok ()) ↔ r.2 = .ok () ∧ next r.1 = (s', .ok ()) := by
  obtain ⟨s, e | u⟩ := r
  · simp [andThen]
  · simp [andThen]

variable {body : S → A → S × Except ε Unit}

/-- What both parts preserve, the sequence preserves. -/
theorem andThen_invariant {next : S → S × Except ε Unit} (hr : P r.1)
    (hnext : ∀ s, P s → P (next s).1) : P (andThen r next).1 := by
  obtain ⟨s, e | u⟩ := r
  · exact hr
  · exact hnext s hr

theorem attempt_invariant (hs : P s) (hnext : ∀ a, x = .ok a → P (next a).1) :
    P (attempt s x next).1 := by
  cases x with
  | error e => exact hs
  | ok a => exact hnext a rfl

/-- What every round preserves, thrown or not, the loop preserves. -/
theorem loop_invariant (P : S → Prop) (step : ∀ s, ∀ a ∈ l, P s → P (body s a).1) (hs : P s) :
    P (loop body s l).1 := by
  induction l generalizing s with
  | nil => exact hs
  | cons a rest ih =>
    apply andThen_invariant (step s a List.mem_cons_self hs)
    intro s' hs'
    exact ih (fun s b hb => step s b (List.mem_cons_of_mem _ hb)) hs'

/-- A returning loop has taken every round to its end. -/
theorem loop_returned (P : List A → S → Prop)
    (step : ∀ s a rest s', P (a :: rest) s → body s a = (s', .ok ()) → P rest s')
    (hloop : loop body s l = (s', .ok ())) (hs : P l s) : P [] s' := by
  induction l generalizing s with
  | nil =>
    obtain rfl : s = s' := congrArg Prod.fst hloop
    exact hs
  | cons a rest ih =>
    rcases hbody : body s a with ⟨s₁, e | u⟩
    · simp [loop, hbody] at hloop
    · rw [loop, hbody] at hloop
      exact ih hloop (step s a rest s₁ hs hbody)

/-- A loop whose rounds all return, returns. -/
theorem loop_returns (P : List A → S → Prop)
    (step : ∀ s a rest, P (a :: rest) s → ∃ s', body s a = (s', .ok ()) ∧ P rest s') (hs : P l s) :
    ∃ s', loop body s l = (s', .ok ()) ∧ P [] s' := by
  induction l generalizing s with
  | nil => exact ⟨s, rfl, hs⟩
  | cons a rest ih =>
    obtain ⟨s₁, hbody, hs₁⟩ := step s a rest hs
    obtain ⟨s', hloop, hs'⟩ := ih hs₁
    exact ⟨s', by rw [loop, hbody, andThen_ok, hloop], hs'⟩

/-- Two attempts of the same computation from related states. -/
theorem attempt_simulation {s' : S'} {x' : Except ε α} {next' : α → S' × Except ε Unit}
    (hs : Q s s') (hx : x' = x) (hnext : ∀ a, (next a).2 = (next' a).2 ∧ Q (next a).1 (next' a).1) :
    (attempt s x next).2 = (attempt s' x' next').2 ∧
      Q (attempt s x next).1 (attempt s' x' next').1 := by
  subst hx
  cases x' with
  | error e => exact ⟨rfl, hs⟩
  | ok a => exact hnext a

theorem andThen_simulation {r' : S' × Except ε Unit} {next : S → S × Except ε Unit}
    {next' : S' → S' × Except ε Unit} (hres : r.2 = r'.2) (hr : Q r.1 r'.1)
    (hnext : (next r.1).2 = (next' r'.1).2 ∧ Q (next r.1).1 (next' r'.1).1) :
    (andThen r next).2 = (andThen r' next').2 ∧ Q (andThen r next).1 (andThen r' next').1 := by
  obtain ⟨s, e | u⟩ := r
  · obtain ⟨s', r'⟩ := r'
    obtain rfl : .error e = r' := hres
    exact ⟨rfl, hr⟩
  · obtain ⟨s', r'⟩ := r'
    obtain rfl : .ok u = r' := hres
    exact hnext

/-- Two loops in lockstep: related states stay related while the rounds return,
and what is left by a throw is related by `Q`. -/
theorem loop_simulation {body' : S' → A → S' × Except ε Unit} (R : List A → S → S' → Prop)
    (Q : S → S' → Prop) (hQ : ∀ l s s', R l s s' → Q s s')
    (step : ∀ s s' a rest, R (a :: rest) s s' → (body s a).2 = (body' s' a).2 ∧
      Q (body s a).1 (body' s' a).1 ∧
      ((body s a).2 = .ok () → R rest (body s a).1 (body' s' a).1))
    {l : List A} {s : S} {s' : S'} (h : R l s s') :
    (loop body s l).2 = (loop body' s' l).2 ∧ Q (loop body s l).1 (loop body' s' l).1 := by
  induction l generalizing s s' with
  | nil => exact ⟨rfl, hQ _ s s' h⟩
  | cons a rest ih =>
    obtain ⟨hres, hq, hok⟩ := step s s' a rest h
    simp only [loop]
    rcases hbody' : body' s' a with ⟨s₁', r'⟩
    rcases hbody : body s a with ⟨s₁, e | u⟩
    · rw [hbody, hbody'] at hres
      obtain rfl : .error e = r' := hres
      rw [hbody, hbody'] at hq
      exact ⟨rfl, hq⟩
    · rw [hbody, hbody'] at hres hok
      obtain rfl : .ok u = r' := hres
      exact ih (hok rfl)

end KeepState
