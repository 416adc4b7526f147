import Tenzor.Lib.Wire

/-!
# Parsers that read a buffer at an offset

A parser keeps an offset into a buffer. It compares sizes in 64-bit words and copies bytes
without a check of its own; a copy that leaves the buffer is a fault.

## Implementation notes

`Parses p bytes a` says that `p` takes exactly `bytes` and returns `a`, wherever they stand.
`Safe buf n p P` says that `p` never faults and never goes back from an offset with `n` bytes
left, and that every value it returns meets `P`.
-/

namespace Cursor

open List

variable {α β : Type} {buf : List UInt8} {off : ℕ}

inductive Fault
  | rejected
  | outOfBounds
  deriving DecidableEq, Repr

def Parser (α : Type) := List UInt8 → ℕ → Except Fault (α × ℕ)

instance : Monad Parser where
  pure a _ off := .ok (a, off)
  bind p k buf off := p buf off >>= fun r => k r.1 buf r.2

/-- The number of values of a word. -/
def words : ℕ := 18446744073709551616

/-- The bytes at the offset, which moves behind them. -/
def copy (n : ℕ) : Parser (List UInt8) := fun buf off =>
  if off + n ≤ buf.length then .ok ((buf.drop off).take n, off + n) else .error .outOfBounds

def rejectIf (c : Prop) [Decidable c] : Parser Unit := fun _ off =>
  if c then .error .rejected else .ok ((), off)

def orReject : Option α → Parser α
  | some a => pure a
  | none => fun _ _ => .error .rejected

/-- `off + n > size` rejects. -/
def checkEnd (n : ℕ) : Parser Unit := fun buf off =>
  if buf.length < (off + n) % words then .error .rejected else .ok ((), off)

/-- `n > size - off` rejects. -/
def checkLeft (n : ℕ) : Parser Unit := fun buf off =>
  if (buf.length + words - off) % words < n then .error .rejected else .ok ((), off)

def parseMany (p : Parser α) : ℕ → Parser (List α)
  | 0 => pure []
  | n + 1 => do
      let a ← p
      let rest ← parseMany p n
      pure (a :: rest)

theorem bind_apply (p : Parser α) (k : α → Parser β) (buf : List UInt8) (off : ℕ) :
    (p >>= k) buf off = p buf off >>= fun r => k r.1 buf r.2 := rfl

theorem bind_eq_ok {p : Parser α} {k : α → Parser β} {r : β × ℕ} :
    (p >>= k) buf off = .ok r ↔ ∃ a mid, p buf off = .ok (a, mid) ∧ k a buf mid = .ok r := by
  rw [bind_apply, Throwing.bind_eq_ok, Prod.exists]

/-- The end that is computed is the end, in a buffer of less than `2 ^ 63` bytes. -/
theorem checkEnd_apply {n : ℕ} (hbuf : buf.length < words / 2) (hoff : off ≤ buf.length)
    (hn : n < words / 2) :
    checkEnd n buf off = if buf.length < off + n then .error .rejected else .ok ((), off) := by
  rw [checkEnd, Nat.mod_eq_of_lt (by omega)]

theorem checkLeft_apply (n : ℕ) (hbuf : buf.length < words / 2) (hoff : off ≤ buf.length) :
    checkLeft n buf off = if buf.length - off < n then .error .rejected else .ok ((), off) := by
  have hsplit : buf.length + words - off = (buf.length - off) + words := by omega
  rw [checkLeft, hsplit, Nat.add_mod_right, Nat.mod_eq_of_lt (by omega)]

/-- `p` takes exactly `bytes` and returns `a`. -/
def Parses (p : Parser α) (bytes : List UInt8) (a : α) : Prop :=
  ∀ before after, (before ++ (bytes ++ after)).length < words / 2 →
    p (before ++ (bytes ++ after)) before.length = .ok (a, before.length + bytes.length)

namespace Parses

variable {p : Parser α} {k : α → Parser β} {bytes rest : List UInt8} {a : α} {b : β}

theorem pure (a : α) : Parses (Pure.pure a) [] a := fun _ _ _ => rfl

theorem bind (hp : Parses p bytes a) (hk : Parses (k a) rest b) :
    Parses (p >>= k) (bytes ++ rest) b := by
  intro before after hlen
  have hfirst := hp before (rest ++ after)
  have hnext := hk (before ++ bytes) after
  simp only [append_assoc, length_append, Nat.add_assoc] at hlen hfirst hnext ⊢
  rw [bind_eq_ok]
  exact ⟨a, _, hfirst hlen, hnext hlen⟩

/-- A step that takes nothing. -/
theorem bind_nil (hp : Parses p [] a) (hk : Parses (k a) rest b) : Parses (p >>= k) rest b :=
  hp.bind hk

/-- The last field of a record. -/
theorem map (hp : Parses p bytes a) (f : α → β) :
    Parses (p >>= fun a => Pure.pure (f a)) bytes (f a) := by
  have hpure : Parses (Pure.pure (f a) : Parser β) [] (f a) := Parses.pure (f a)
  have h := hp.bind (k := fun a => Pure.pure (f a)) hpure
  rwa [append_nil] at h

theorem rejectIf {c : Prop} [Decidable c] {k : Unit → Parser β} (hc : ¬ c)
    (hk : Parses (k ()) bytes b) : Parses (rejectIf c >>= k) bytes b := by
  intro before after hlen
  rw [bind_eq_ok]
  exact ⟨(), before.length, if_neg hc, hk before after hlen⟩

theorem orReject {o : Option α} (ho : o = some a) (hk : Parses (k a) bytes b) :
    Parses (orReject o >>= k) bytes b := by
  subst ho
  exact hk

theorem checkLeft {n : ℕ} {k : Unit → Parser β} (hn : n ≤ bytes.length)
    (hk : Parses (k ()) bytes b) : Parses (checkLeft n >>= k) bytes b := by
  intro before after hlen
  rw [bind_eq_ok]
  refine ⟨(), before.length, ?_, hk before after hlen⟩
  rw [checkLeft_apply n hlen (by simp), if_neg]
  simp only [length_append]
  omega

theorem copy (bytes : List UInt8) : Parses (copy bytes.length) bytes bytes := by
  intro before after _
  rw [Cursor.copy, if_pos (by simp), drop_left, take_left]

theorem checkEnd_copy (bytes : List UInt8) :
    Parses (do checkEnd bytes.length; Cursor.copy bytes.length) bytes bytes := by
  intro before after hlen
  rw [bind_eq_ok]
  refine ⟨(), before.length, ?_, copy bytes before after hlen⟩
  have hle := hlen
  simp only [length_append] at hle
  rw [checkEnd_apply hlen (by simp) (by omega), if_neg]
  simp only [length_append]
  omega

/-- Elements whose parsing forgets or adds something. -/
theorem many {ι : Type} {enc : ι → List UInt8} {f : ι → α} {xs : List ι}
    (h : ∀ x ∈ xs, Parses p (enc x) (f x)) :
    Parses (parseMany p xs.length) (xs.flatMap enc) (xs.map f) := by
  induction xs with
  | nil => exact Parses.pure []
  | cons x xs ih =>
    obtain ⟨hx, hxs⟩ := forall_mem_cons.mp h
    exact hx.bind ((ih hxs).map (f x :: ·))

/-- A buffer that holds just what is taken. -/
theorem run (hp : Parses p bytes a) (hlen : bytes.length < words / 2) :
    p bytes 0 = .ok (a, bytes.length) := by
  have h := hp [] []
  rw [append_nil, length_nil, Nat.zero_add] at h
  exact h hlen

end Parses

/-- A result that is a rejection, or a value of `P` at an offset that has not gone back. -/
def SafeResult (buf : List UInt8) (off : ℕ) (P : α → Prop) : Except Fault (α × ℕ) → Prop
  | .ok (a, off') => off ≤ off' ∧ off' ≤ buf.length ∧ P a
  | .error e => e = .rejected

/-- From an offset with `n` bytes left, `p` stays in the buffer and returns what meets `P`. -/
def Safe (buf : List UInt8) (n : ℕ) (p : Parser α) (P : α → Prop) : Prop :=
  ∀ off, off + n ≤ buf.length → SafeResult buf off P (p buf off)

namespace Safe

variable {buf : List UInt8} {n : ℕ} {p : Parser α} {k : α → Parser β} {P : α → Prop} {Q : β → Prop}

theorem pure {a : α} (h : P a) : Safe buf n (Pure.pure a) P := fun off hoff =>
  ⟨Nat.le_refl off, by omega, h⟩

theorem mono {P' : α → Prop} (hp : Safe buf n p P) (h : ∀ a, P a → P' a) : Safe buf n p P' := by
  intro off hoff
  have hresult := hp off hoff
  cases hr : p buf off with
  | error e =>
    rw [hr] at hresult
    exact hresult
  | ok r =>
    rw [hr] at hresult
    exact ⟨hresult.1, hresult.2.1, h _ hresult.2.2⟩

theorem bind (hp : Safe buf n p P) (hk : ∀ a, P a → Safe buf 0 (k a) Q) :
    Safe buf n (p >>= k) Q := by
  intro off hoff
  have hfirst := hp off hoff
  rw [bind_apply]
  cases hr : p buf off with
  | error e =>
    rw [hr] at hfirst
    exact hfirst
  | ok r =>
    obtain ⟨a, mid⟩ := r
    rw [hr] at hfirst
    obtain ⟨hmid, hle, ha⟩ := hfirst
    have hnext := hk a ha mid hle
    change SafeResult buf off Q (k a buf mid)
    cases hr' : k a buf mid with
    | error e =>
      rw [hr'] at hnext
      exact hnext
    | ok r =>
      rw [hr'] at hnext
      exact ⟨hmid.trans hnext.1, hnext.2⟩

/-- A step that does not move the offset keeps what is known to be left. -/
theorem stay (hp : ∀ off, p buf off = .error .rejected ∨ ∃ a, P a ∧ p buf off = .ok (a, off))
    (hk : ∀ a, P a → Safe buf n (k a) Q) : Safe buf n (p >>= k) Q := by
  intro off hoff
  rw [bind_apply]
  rcases hp off with hr | ⟨a, ha, hr⟩
  · rw [hr]
    rfl
  · rw [hr]
    exact hk a ha off hoff

theorem rejectIf {c : Prop} [Decidable c] {k : Unit → Parser β}
    (hk : ¬ c → Safe buf n (k ()) Q) : Safe buf n (rejectIf c >>= k) Q := by
  refine stay (P := fun _ => ¬ c) (fun off => ?_) fun _ hc => hk hc
  by_cases hc : c
  · exact .inl (if_pos hc)
  · exact .inr ⟨(), hc, if_neg hc⟩

theorem orReject {o : Option α} (hk : ∀ a, o = some a → Safe buf n (k a) Q) :
    Safe buf n (orReject o >>= k) Q := by
  refine stay (P := fun a => o = some a) (fun off => ?_) hk
  cases o with
  | none => exact .inl rfl
  | some a => exact .inr ⟨a, rfl, rfl⟩

theorem checkLeft (hbuf : buf.length < words / 2) {m : ℕ} {k : Unit → Parser β}
    (hk : Safe buf m (k ()) Q) : Safe buf n (checkLeft m >>= k) Q := by
  intro off hoff
  rw [bind_apply, checkLeft_apply m hbuf (by omega)]
  split
  · rfl
  · exact hk off (by omega)

theorem copy (n : ℕ) :
    Safe buf n (copy n) fun bytes => bytes.length = n ∧ bytes <:+: buf := by
  intro off hoff
  rw [Cursor.copy, if_pos hoff]
  refine ⟨Nat.le_add_right _ _, hoff, ?_, ?_⟩
  · rw [length_take, length_drop]
    omega
  · exact (List.take_prefix _ _).isInfix.trans (drop_suffix _ _).isInfix

theorem checkEnd_copy (hbuf : buf.length < words / 2) {m : ℕ} (hm : m < words / 2) :
    Safe buf n (do checkEnd m; Cursor.copy m) fun bytes => bytes.length = m ∧ bytes <:+: buf := by
  intro off hoff
  rw [bind_apply, checkEnd_apply hbuf (by omega) hm]
  split
  · rfl
  · exact copy m off (by omega)

theorem parseMany (hp : Safe buf 0 p P) (m : ℕ) :
    Safe buf 0 (parseMany p m) fun xs => xs.length = m ∧ ∀ a ∈ xs, P a := by
  induction m with
  | zero => exact pure ⟨rfl, forall_mem_nil P⟩
  | succ m ih =>
    refine hp.bind fun a ha => ih.bind fun xs hxs => pure ?_
    exact ⟨congrArg (· + 1) hxs.1, forall_mem_cons.mpr ⟨ha, hxs.2⟩⟩

end Safe

end Cursor
