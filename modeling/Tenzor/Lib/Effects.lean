import Mathlib.Init

/-!
# Programs that leave their state behind

A program that throws leaves what it has done so far. Its runs are put together from the runs
of its parts.
-/

namespace Effects

/-- A program over a state that returns or throws, and leaves the state either way. -/
abbrev Effect (σ ε α : Type) := ExceptT ε (StateM σ) α

variable {σ ε α β : Type} {p : Effect σ ε α} {f : α → Effect σ ε β} {s s' : σ} {a : α} {e : ε}
  {x : Except ε α}

/-- A computation without a state. -/
def raise (x : Except ε α) : Effect σ ε α := fun s => (x, s)

@[simp] theorem pure_apply (a : α) (s : σ) : (pure a : Effect σ ε α) s = (.ok a, s) := rfl

@[simp] theorem get_apply (s : σ) : (get : Effect σ ε σ) s = (.ok s, s) := rfl

@[simp] theorem set_apply (s s' : σ) : (set s' : Effect σ ε PUnit) s = (.ok ⟨⟩, s') := rfl

theorem bind_of_ok (h : p s = (.ok a, s')) : (p >>= f) s = f a s' := by
  change (ExceptT.bindCont f (p s).1) (p s).2 = _
  rw [h]
  rfl

theorem bind_of_error (h : p s = (.error e, s')) : (p >>= f) s = (.error e, s') := by
  change (ExceptT.bindCont f (p s).1) (p s).2 = _
  rw [h]
  rfl

theorem bind_eq_ok {b : β} :
    (p >>= f) s = (.ok b, s') ↔ ∃ a mid, p s = (.ok a, mid) ∧ f a mid = (.ok b, s') := by
  constructor
  · intro h
    rcases hp : p s with ⟨e | a, mid⟩
    · rw [bind_of_error hp] at h
      exact absurd (Prod.mk.inj h).1 nofun
    · rw [bind_of_ok hp] at h
      exact ⟨a, mid, rfl, h⟩
  · rintro ⟨a, mid, ha, hb⟩
    rw [bind_of_ok ha, hb]

theorem raise_bind_of_ok (h : x = .ok a) : (raise x >>= f) s = f a s := by
  rw [h]
  exact bind_of_ok rfl

theorem raise_bind_of_error (h : x = .error e) : (raise x >>= f) s = (.error e, s) := by
  rw [h]
  exact bind_of_error rfl

end Effects
