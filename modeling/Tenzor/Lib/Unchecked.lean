import Tenzor.Lib.Metered
import Tenzor.Lib.Transitions

/-!
# Programs with unchecked accesses

A program reads sequences at positions that it has not checked, so that it may leave them, and its
loops may run out of rounds. A program that does neither throws or returns, like one over the
exceptions alone.

## Implementation notes

`Lands P x` says that `x` throws or returns what meets `P`. `Simulates R m p` says that `m`, from a
state that is related to one of `p`, throws what `p` throws or returns what `p` returns in a related
state; the faults are on the side of `m` alone.
-/

namespace Unchecked

open List

open Metered (Fault)

variable {σ τ ε α β γ κ : Type} {xs : List α} {start n : ℕ} {e : ε}

/-- The elements from a position on, without a check. -/
def slice (xs : List α) (start n : ℕ) : Except (Fault ε) (List α) :=
  if start + n ≤ xs.length then .ok ((xs.drop start).take n) else .error .outOfBounds

/-- The element at a position, without a check. -/
def item (xs : List α) (i : ℕ) : Except (Fault ε) α :=
  match xs[i]? with
  | some a => .ok a
  | none => .error .outOfBounds

/-- A little-endian word of `n` bytes, without a check. -/
def word (bytes : List UInt8) (start n : ℕ) : Except (Fault ε) ℕ := do
  let taken ← slice bytes start n
  pure (Wire.ofLeBytes taken)

def thrown (e : ε) : Except (Fault ε) α := .error (.thrown e)

def thrownIf (c : Prop) [Decidable c] (e : ε) : Except (Fault ε) Unit :=
  if c then thrown e else .ok ()

/-- A program that accesses nothing. -/
def within (x : Except ε α) : Except (Fault ε) α := x.mapError .thrown

theorem slice_of_le (h : start + n ≤ xs.length) :
    (slice xs start n : Except (Fault ε) (List α)) = .ok ((xs.drop start).take n) := if_pos h

theorem item_of_lt {i : ℕ} (h : i < xs.length) : (item xs i : Except (Fault ε) α) = .ok xs[i] := by
  rw [item, getElem?_eq_getElem h]

/-- Elements at positions one after another. -/
theorem mapM_item (h : start + n ≤ xs.length) :
    (List.range' start n).mapM (fun i => (item xs i : Except (Fault ε) α)) =
      .ok ((xs.drop start).take n) := by
  induction n generalizing start with
  | zero => rfl
  | succ n ih =>
    have hlt : start < xs.length := by omega
    have hle : start + 1 + n ≤ xs.length := by omega
    rw [range'_succ, mapM_cons, item_of_lt hlt, ih hle, drop_eq_getElem_cons hlt]
    rfl

/-- A loop over elements at positions one after another. -/
theorem forM_item (h : start + n ≤ xs.length) (f : α → Except (Fault ε) Unit) :
    ((List.range' start n).forM fun i => item xs i >>= f) =
      ((xs.drop start).take n).forM f := by
  induction n generalizing start with
  | zero => rfl
  | succ n ih =>
    have hlt : start < xs.length := by omega
    have hle : start + 1 + n ≤ xs.length := by omega
    have hrest := ih hle
    rw [drop_eq_getElem_cons hlt]
    change ((item xs start >>= f) >>= fun _ => _) = (f xs[start] >>= fun _ => _)
    rw [item_of_lt hlt, hrest]
    rfl

theorem forM_thrownIf {p : α → Prop} [DecidablePred p] :
    (xs.forM fun a => thrownIf (p a) e) =
      if xs.any (fun a => decide (p a)) = true then thrown e else .ok () := by
  induction xs with
  | nil => rfl
  | cons a xs ih =>
    change (thrownIf (p a) e >>= fun _ => xs.forM _) = _
    rw [ih, any_cons]
    by_cases ha : p a
    · rw [thrownIf, if_pos ha, decide_eq_true ha]
      rfl
    · rw [thrownIf, if_neg ha, decide_eq_false ha]
      rfl

/-- The program throws, or returns what meets `P`. -/
inductive Lands (P : α → Prop) : Except (Fault ε) α → Prop
  | returns {a : α} (h : P a) : Lands P (.ok a)
  | throws (e : ε) : Lands P (.error (.thrown e))

namespace Lands

variable {P Q : α → Prop} {x : Except (Fault ε) α} {a : α} {c : Prop} {start n : ℕ} {l : List κ}

theorem pure (h : P a) : Lands P (Pure.pure a : Except (Fault ε) α) := returns h

theorem ok (h : Lands P (.ok a : Except (Fault ε) α)) : P a := by
  cases h with
  | returns h => exact h

theorem mono (h : Lands P x) (hPQ : ∀ a, P a → Q a) : Lands Q x := by
  cases h with
  | returns h => exact returns (hPQ _ h)
  | throws e => exact throws e

theorem bind {P : α → Prop} {Q : β → Prop} {x : Except (Fault ε) α} {k : α → Except (Fault ε) β}
    (hx : Lands P x) (hk : ∀ a, P a → Lands Q (k a)) : Lands Q (x >>= k) := by
  cases hx with
  | returns h => exact hk _ h
  | throws e => exact throws e

/-- What the program returns is remembered. -/
theorem keep (h : Lands P x) : Lands (fun a => P a ∧ x = .ok a) x := by
  cases h with
  | returns h => exact returns ⟨h, rfl⟩
  | throws e => exact throws e

theorem ite [Decidable c] {y : Except (Fault ε) α} (hx : c → Lands P x) (hy : ¬ c → Lands P y) :
    Lands P (if c then x else y) := by
  split
  · next h => exact hx h
  · next h => exact hy h

/-- What follows a check may rely on it. -/
theorem thrownIf [Decidable c] {e : ε} {k : Unit → Except (Fault ε) α} (hk : ¬ c → Lands P (k ())) :
    Lands P (Unchecked.thrownIf c e >>= k) := by
  unfold Unchecked.thrownIf
  split
  · exact throws e
  · next h => exact hk h

theorem within (x : Except ε α) : Lands (fun a => x = .ok a) (Unchecked.within x) := by
  cases x with
  | error e => exact throws e
  | ok a => exact returns rfl

theorem slice {xs : List α} (h : start + n ≤ xs.length) :
    Lands (fun ys => ys = (xs.drop start).take n)
      (Unchecked.slice xs start n : Except (Fault ε) (List α)) := by
  rw [slice_of_le h]
  exact returns rfl

theorem word {bytes : List UInt8} (h : start + n ≤ bytes.length) :
    Lands (fun w => w < 256 ^ n) (Unchecked.word bytes start n : Except (Fault ε) ℕ) := by
  refine (slice h).bind fun taken htaken => pure ?_
  have hlength : taken.length = n := by
    rw [htaken, length_take, length_drop]
    omega
  rw [← hlength]
  exact Wire.ofLeBytes_lt taken

end Lands

/-- The program does what the other one does, which accesses nothing. -/
def Mirrors (x : Except (Fault ε) α) (y : Except ε α) : Prop := x = within y

namespace Mirrors

variable {x : Except (Fault ε) α} {y : Except ε α} {k : α → Except (Fault ε) β} {c : Prop}

theorem pure (a : α) : Mirrors (Pure.pure a : Except (Fault ε) α) (Pure.pure a) := rfl

theorem within (y : Except ε α) : Mirrors (Unchecked.within y) y := rfl

theorem bind {q : α → Except ε β} (hx : Mirrors x y) (hk : ∀ a, y = .ok a → Mirrors (k a) (q a)) :
    Mirrors (x >>= k) (y >>= q) := by
  subst hx
  cases y with
  | error e => rfl
  | ok a => exact hk a rfl

/-- The program returns something that stands for what the other one returns. -/
theorem bind_map {f : α → γ} {P : α → Prop} {y : Except ε γ} {q : γ → Except ε β}
    (hx : Mirrors (f <$> x) y) (hP : Lands P x) (hk : ∀ a, P a → Mirrors (k a) (q (f a))) :
    Mirrors (x >>= k) (y >>= q) := by
  cases y with
  | error e =>
    cases hP with
    | returns _ => exact nomatch hx
    | throws e' => exact congrArg Except.error (Except.error.inj hx)
  | ok c =>
    cases hP with
    | returns h =>
      obtain rfl := Except.ok.inj hx
      exact hk _ h
    | throws _ => exact nomatch hx

/-- Nothing is made of what the other program returns. -/
theorem bind_forget {x : Except (Fault ε) Unit} {y : Except ε γ} {k : Unit → Except (Fault ε) α}
    {q : Except ε α} (hx : Mirrors x (y >>= fun _ => Pure.pure ())) (hk : Mirrors (k ()) q) :
    Mirrors (x >>= k) (y >>= fun _ => q) := by
  subst hx
  cases y with
  | error e => rfl
  | ok c => exact hk

/-- What follows a check may rely on it. -/
theorem thrownIf [Decidable c] {e : ε} {k : Unit → Except (Fault ε) α} {q : Unit → Except ε α}
    (hk : ¬ c → Mirrors (k ()) (q ())) :
    Mirrors (Unchecked.thrownIf c e >>= k) (Throwing.throwIf c e >>= q) := by
  unfold Unchecked.thrownIf Throwing.throwIf
  split
  · rfl
  · next h => exact hk h

theorem ite [Decidable c] {x' : Except (Fault ε) α} {y' : Except ε α} (h : c → Mirrors x y)
    (h' : ¬ c → Mirrors x' y') : Mirrors (if c then x else x') (if c then y else y') := by
  split
  · next hc => exact h hc
  · next hc => exact h' hc

/-- An access that stays inside. -/
theorem access {b : β} {z : Except (Fault ε) β} {k : β → Except (Fault ε) α} (hz : z = .ok b)
    (h : Mirrors (k b) y) : Mirrors (z >>= k) y := by
  subst hz
  exact h

end Mirrors

/-- One program does what the other does, up to related states. -/
inductive Follows (R : σ → τ → Prop) : Except (Fault ε) (α × σ) → Except ε (α × τ) → Prop
  | returns {a : α} {s : σ} {t : τ} (h : R s t) : Follows R (.ok (a, s)) (.ok (a, t))
  | throws (e : ε) : Follows R (.error (.thrown e)) (.error e)

def Simulates (R : σ → τ → Prop) (m : StateT σ (Except (Fault ε)) α)
    (p : StateT τ (Except ε) α) : Prop :=
  ∀ s t, R s t → Follows R (m s) (p t)

namespace Simulates

variable {R : σ → τ → Prop} {m : StateT σ (Except (Fault ε)) α} {p : StateT τ (Except ε) α}
  {k : α → StateT σ (Except (Fault ε)) β} {q : α → StateT τ (Except ε) β} {g : τ → τ}

theorem pure (a : α) : Simulates R (Pure.pure a : StateT σ (Except (Fault ε)) α)
    (Pure.pure a : StateT τ (Except ε) α) := fun _ _ h => .returns h

theorem throw (e : ε) : Simulates R (throw (.thrown e) : StateT σ (Except (Fault ε)) α)
    (throw e : StateT τ (Except ε) α) := fun _ _ _ => .throws e

theorem bind (hm : Simulates R m p) (hk : ∀ a, Simulates R (k a) (q a)) :
    Simulates R (m >>= k) (p >>= q) := by
  intro s t h
  change Follows R (m s >>= fun r => k r.1 r.2) (p t >>= fun r => q r.1 r.2)
  have hfollows := hm s t h
  generalize m s = x, p t = y at hfollows
  cases hfollows with
  | returns h' => exact hk _ _ _ h'
  | throws e => exact .throws e

theorem ite {c : Prop} [Decidable c] {m' : StateT σ (Except (Fault ε)) α}
    {p' : StateT τ (Except ε) α} (h : c → Simulates R m p) (h' : ¬ c → Simulates R m' p') :
    Simulates R (if c then m else m') (if c then p else p') := by
  split
  · next hc => exact h hc
  · next hc => exact h' hc

/-- What is looked at before the rest may be used there. -/
theorem inspect {f : σ → StateT σ (Except (Fault ε)) α} {g : τ → StateT τ (Except ε) α}
    (h : ∀ s t, R s t → Follows R (f s s) (g t t)) :
    Simulates R (MonadState.get >>= f) (MonadState.get >>= g) := h

/-- A step of the other program alone. -/
theorem skip {q : PUnit → StateT τ (Except ε) α} (hg : ∀ s t, R s t → R s (g t))
    (h : Simulates R m (q ⟨⟩)) : Simulates R m (modify g >>= q) :=
  fun s t hs => h s (g t) (hg s t hs)

theorem modify {f : σ → σ} (h : ∀ s t, R s t → R (f s) (g t)) :
    Simulates R (modify f : StateT σ (Except (Fault ε)) PUnit)
      (modify g : StateT τ (Except ε) PUnit) := fun s t hs => .returns (h s t hs)

/-- An access that stays inside. -/
theorem access {x : Except (Fault ε) β} {b : β} {k : β → StateT σ (Except (Fault ε)) α}
    (hx : x = .ok b) (h : Simulates R (k b) p) : Simulates R (liftM x >>= k) p := by
  subst hx
  exact h

theorem lift {x : Except (Fault ε) α} {y : Except ε α} (hx : Mirrors x y) :
    Simulates R (liftM x : StateT σ (Except (Fault ε)) α) (liftM y : StateT τ (Except ε) α) := by
  subst hx
  intro s t h
  cases y with
  | error e => exact .throws e
  | ok a => exact .returns h

theorem mapM {f : κ → StateT σ (Except (Fault ε)) α} {g : κ → StateT τ (Except ε) α}
    (h : ∀ k, Simulates R (f k) (g k)) (l : List κ) : Simulates R (l.mapM f) (l.mapM g) := by
  induction l with
  | nil => exact pure []
  | cons k l ih =>
    rw [mapM_cons, mapM_cons]
    exact (h k).bind fun a => ih.bind fun as => pure (a :: as)

end Simulates

end Unchecked
