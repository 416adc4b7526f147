import Tenzor.Lib.FlatBuffer
import Mathlib.Data.Fintype.BigOperators

/-!
# Programs with a collective sum

The program of a rank stops at each collective with the buffer that it gives to the sum, and goes
on with the sum. Ranks complete when they all meet at every collective, with buffers of one length,
and all return.
-/

namespace Collective

open FlatBuffer

universe u

variable {ι : Type*} {α β γ σ : Type u} {κ : Type*}

inductive Prog (α β : Type u)
  | done (result : β)
  | allReduce (buffer : Flat α) (next : Flat α → Prog α β)

namespace Prog

protected def bind : Prog α β → (β → Prog α γ) → Prog α γ
  | done b, f => f b
  | allReduce t next, f => allReduce t fun sum => (next sum).bind f

instance : Monad (Prog α) where
  pure := done
  bind := Prog.bind

/-- Whatever the sums are, the result is such a one. -/
def Ensures (P : β → Prop) : Prog α β → Prop
  | done b => P b
  | allReduce _ next => ∀ sum, (next sum).Ensures P

namespace Ensures

variable {P : β → Prop} {Q : γ → Prop} {p : Prog α β}

theorem bind {f : β → Prog α γ} (hp : p.Ensures P) (hf : ∀ b, P b → (f b).Ensures Q) :
    (p >>= f).Ensures Q := by
  induction p with
  | done b => exact hf b hp
  | allReduce t next ih => exact fun sum => ih sum (hp sum)

theorem imp {P' : β → Prop} (hp : p.Ensures P) (h : ∀ b, P b → P' b) : p.Ensures P' := by
  induction p with
  | done b => exact h b hp
  | allReduce t next ih => exact fun sum => ih sum (hp sum)

/-- What holds before the rest of a list holds at its end. -/
theorem foldlM {f : β → κ → Prog α β} (P : List κ → β → Prop)
    (step : ∀ k rest b, P (k :: rest) b → (f b k).Ensures (P rest)) {l : List κ} {b : β}
    (h : P l b) : (l.foldlM f b).Ensures (P []) := by
  induction l generalizing b with
  | nil => exact h
  | cons k l ih => exact (step k l b h).bind fun b' hb' => ih hb'

end Ensures

end Prog

section Completes

variable [Fintype ι] [AddCommMonoid α]

/-- The sum of the buffers of all ranks. -/
def sum (n : ℕ) (t : ι → Flat α) : Flat α := ⟨n, fun i => ∑ r, (t r).get i⟩

inductive Completes : (ι → Prog α β) → (ι → β) → Prop
  | done (b : ι → β) : Completes (fun r => .done (b r)) b
  | allReduce {t : ι → Flat α} {next : ι → Flat α → Prog α β} {n : ℕ} {b : ι → β}
      (hn : ∀ r, (t r).numel = n) (rest : Completes (fun r => next r (sum n t)) b) :
      Completes (fun r => .allReduce (t r) (next r)) b

namespace Completes

variable {p : ι → Prog α β} {b b' : ι → β}

/-- What a rank ensures by itself holds when all ranks complete. -/
theorem ensures (h : Completes p b) {P : β → Prop} {r : ι} (hp : (p r).Ensures P) : P (b r) := by
  induction h with
  | done b => exact hp
  | allReduce hn rest ih => exact ih (hp _)

end Completes

end Completes

end Collective
