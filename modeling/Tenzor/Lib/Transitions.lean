import Tenzor.Lib.Throwing

/-!
# Programs over a state

A program returns a value and the state it leaves, or throws. What relates the state it leaves to
the one it found is put together from its parts.
-/

namespace Transitions

variable {σ ε α β κ : Type} {p : StateT σ (Except ε) α} {f : α → StateT σ (Except ε) β} {s : σ}
  {R : σ → σ → Prop}

theorem bind_eq_ok {s' : σ} {b : β} :
    (p >>= f) s = .ok (b, s') ↔ ∃ a mid, p s = .ok (a, mid) ∧ f a mid = .ok (b, s') := by
  constructor
  · intro h
    obtain ⟨⟨a, mid⟩, ha, hb⟩ := Throwing.bind_eq_ok.mp h
    exact ⟨a, mid, ha, hb⟩
  · rintro ⟨a, mid, ha, hb⟩
    exact Throwing.bind_eq_ok.mpr ⟨(a, mid), ha, hb⟩

/-- What follows a program that has returned. -/
theorem bind_apply_ok {mid : σ} {a : α} (h : p s = .ok (a, mid)) : (p >>= f) s = f a mid := by
  change (p s >>= fun r => f r.1 r.2) = f a mid
  rw [h]
  rfl

/-- The states that the program leaves are related to those it found. -/
def Steps (R : σ → σ → Prop) (p : StateT σ (Except ε) α) : Prop :=
  ∀ s a s', p s = .ok (a, s') → R s s'

namespace Steps

variable {R : σ → σ → Prop}

theorem throw (e : ε) : Steps R (throw e : StateT σ (Except ε) α) := fun _ _ _ h => nomatch h

theorem modify {f : σ → σ} (h : ∀ s, R s (f s)) :
    Steps R (modify f : StateT σ (Except ε) PUnit) := by
  intro s a s' hs
  obtain ⟨-, rfl⟩ := Prod.mk.inj (Except.ok.inj hs)
  exact h s

theorem ite {c : Prop} [Decidable c] {p q : StateT σ (Except ε) α} (hp : Steps R p)
    (hq : Steps R q) : Steps R (if c then p else q) := by
  split
  · exact hp
  · exact hq

theorem dite_bind {c : Prop} [Decidable c] {p : c → StateT σ (Except ε) α}
    {q : ¬ c → StateT σ (Except ε) α} {f : α → StateT σ (Except ε) β}
    (hp : ∀ h, Steps R (p h >>= f)) (hq : ∀ h, Steps R (q h >>= f)) :
    Steps R (dite c p q >>= f) := by
  split
  · exact hp _
  · exact hq _

variable [Std.Refl R]

theorem pure (a : α) : Steps R (Pure.pure a : StateT σ (Except ε) α) := by
  intro s b s' h
  obtain ⟨-, rfl⟩ := Prod.mk.inj (Except.ok.inj h)
  exact Std.Refl.refl s

theorem get : Steps R (get : StateT σ (Except ε) σ) := by
  intro s b s' h
  obtain ⟨-, rfl⟩ := Prod.mk.inj (Except.ok.inj h)
  exact Std.Refl.refl s

theorem lift (x : Except ε α) : Steps R (liftM x : StateT σ (Except ε) α) := by
  intro s a s' h
  obtain ⟨b, -, h⟩ := Throwing.bind_eq_ok.mp h
  obtain ⟨-, rfl⟩ := Prod.mk.inj (Except.ok.inj h)
  exact Std.Refl.refl s

end Steps

theorem Steps.bind [IsTrans σ R] (hp : Steps R p) (hf : ∀ a, Steps R (f a)) :
    Steps R (p >>= f) := by
  intro s b s' h
  obtain ⟨a, mid, ha, hb⟩ := bind_eq_ok.mp h
  exact IsTrans.trans _ _ _ (hp s a mid ha) (hf a mid b s' hb)

theorem Steps.mapM [Std.Refl R] [IsTrans σ R] {f : κ → StateT σ (Except ε) α}
    (hf : ∀ k, Steps R (f k)) (l : List κ) : Steps R (l.mapM f) := by
  induction l with
  | nil => exact Steps.pure []
  | cons k l ih =>
    rw [List.mapM_cons]
    exact (hf k).bind fun a => ih.bind fun as => Steps.pure (a :: as)

/-- What is looked at before the rest may be used there. -/
theorem Steps.inspect {f : σ → StateT σ (Except ε) β}
    (hf : ∀ s b s', f s s = .ok (b, s') → R s s') : Steps R (MonadState.get >>= f):= by
  intro s b s' h
  obtain ⟨a, mid, ha, hb⟩ := bind_eq_ok.mp h
  obtain ⟨rfl, rfl⟩ := Prod.mk.inj (Except.ok.inj ha)
  exact hf _ b s' hb

end Transitions
