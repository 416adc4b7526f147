import Tenzor.Lib.Wire
import Mathlib.Logic.Relation

/-!
# Frames on a byte stream

Writers that share a stream take its lock for a whole frame and write the frame in pieces. A
reader takes frames off the stream until one of them is missing or cut short.

## Implementation notes

A writer whose write fails keeps the lock: the stream takes no more bytes either way. A reader
sees any front part of what was written.
-/

namespace FramedStream

open Wire List

variable {ι W α : Type} {ε : Type*} {frame : ι → List UInt8} {xs : List ι} {received : List UInt8}

/-- `holder` has the lock and these bytes of its frame still to write; the frames of `begun`
have been started, in this order. -/
structure Connection (ι W : Type) where
  written : List UInt8 := []
  holder : Option (W × List UInt8) := none
  begun : List ι := []

inductive Step (frame : ι → List UInt8) (s : Connection ι W) : Connection ι W → Prop
  | lock (w : W) (x : ι) (hh : s.holder = none) :
      Step frame s { s with holder := some (w, frame x), begun := s.begun ++ [x] }
  | write (w : W) (piece left : List UInt8) (hh : s.holder = some (w, piece ++ left)) :
      Step frame s { s with written := s.written ++ piece, holder := some (w, left) }
  | unlock (w : W) (hh : s.holder = some (w, [])) : Step frame s { s with holder := none }

abbrev Reaches (frame : ι → List UInt8) : Connection ι W → Connection ι W → Prop :=
  Relation.ReflTransGen (Step frame)

/-- What is missing from the frames is what the holder of the lock has to write. -/
def Ordered (frame : ι → List UInt8) (s : Connection ι W) : Prop :=
  s.begun.flatMap frame = s.written ++ s.holder.elim [] Prod.snd

theorem Ordered.step {s t : Connection ι W} (hs : Ordered frame s) (h : Step frame s t) :
    Ordered frame t := by
  cases h with
  | lock w x hh => simpa [Ordered, hh] using hs
  | write w piece left hh => simpa [Ordered, hh] using hs
  | unlock w hh => simpa [Ordered, hh] using hs

/-- However the writers interleave, the stream is made of their frames in the order of the lock. -/
theorem written_isPrefix {s : Connection ι W} (h : Reaches frame {} s) :
    s.written <+: s.begun.flatMap frame := by
  have hordered : Ordered frame s := by
    induction h with
    | refl => rfl
    | tail _ h ih => exact ih.step h
  exact ⟨_, hordered.symm⟩

/-- The bytes are part of the first frame, but not all of it. -/
def Cut (frame : ι → List UInt8) : List ι → List UInt8 → Prop
  | [], tail => tail = []
  | x :: _, tail => tail <+: frame x ∧ tail ≠ frame x

theorem exists_whole (h : received <+: xs.flatMap frame) : ∃ whole pending tail,
    xs = whole ++ pending ∧ received = whole.flatMap frame ++ tail ∧ Cut frame pending tail := by
  induction xs generalizing received with
  | nil => exact ⟨[], [], [], rfl, by simpa using h, rfl⟩
  | cons x xs ih =>
    rw [flatMap_cons] at h
    by_cases hx : frame x <+: received
    · obtain ⟨later, rfl⟩ := hx
      obtain ⟨whole, pending, tail, rfl, rfl, hcut⟩ := ih (by simpa using h)
      exact ⟨x :: whole, pending, tail, rfl, by simp, hcut⟩
    · refine ⟨[], x :: xs, received, rfl, rfl, ?_, fun heq => hx (heq ▸ prefix_rfl)⟩
      have hor := prefix_or_prefix_of_prefix (prefix_append _ _) h
      exact hor.resolve_left hx

/-- Takes frames off the stream, at most `rounds` of them. -/
def drain (p : Reader ε α) : ℕ → List UInt8 → List α
  | 0, _ => []
  | rounds + 1, stream => match p stream with
    | .ok (a, rest) => a :: drain p rounds rest
    | .error _ => []

/-- Draining stops where the frames are cut. -/
theorem drain_whole {p : Reader ε α} {whole : List ι} {as : List α} {tail : List UInt8} {e : ε}
    (hread : Forall₂ (fun x a => Reads p (frame x) a) whole as) (htail : p tail = .error e)
    (rounds : ℕ) : drain p rounds (whole.flatMap frame ++ tail) = as.take rounds := by
  induction hread generalizing rounds with
  | nil => cases rounds <;> simp [drain, htail]
  | cons ha _ ih =>
    cases rounds with
    | zero => rfl
    | succ rounds => simp [drain, append_assoc, ha _, ih]

end FramedStream
