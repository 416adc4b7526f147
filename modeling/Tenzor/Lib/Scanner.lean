import Tenzor.Lib.Wire
import Mathlib.Data.Nat.Digits.Defs

/-!
# Scanning text

Readers of text look at the byte that follows what they take: a loop goes on until a byte
stands there, a number ends before the first byte that is no digit.

## Implementation notes

`Scans P p bytes a` says that `p` takes exactly `bytes` and returns `a` before every rest that
meets `P`. A loop is bounded by the number of bytes that are left, which does not stop it when
its body takes something in every round.
-/

namespace Scanner

open Wire List

variable {ε : Type} {α β ι : Type} {P : UInt8 → Prop} {c : UInt8} {rest : List UInt8}
  {p : Reader ε α} {k : α → Reader ε β} {n : ℕ}

def ascii (s : String) : List UInt8 := s.toList.map fun c => UInt8.ofNat c.toNat

def asString (t : List UInt8) : String := String.ofList (t.map fun c => Char.ofNat c.toNat)

/-- The rest starts with such a byte. -/
def Starts (P : UInt8 → Prop) (rest : List UInt8) : Prop := ∃ c tail, rest = c :: tail ∧ P c

theorem starts_cons (h : P c) : Starts P (c :: rest) := ⟨c, rest, rfl, h⟩

theorem Starts.append {bytes : List UInt8} (h : Starts P bytes) (rest : List UInt8) :
    Starts P (bytes ++ rest) := by
  obtain ⟨c, tail, rfl, hc⟩ := h
  exact ⟨c, tail ++ rest, rfl, hc⟩

theorem Starts.mono {Q : UInt8 → Prop} (h : Starts P rest) (hPQ : ∀ c, P c → Q c) :
    Starts Q rest := by
  obtain ⟨c, tail, heq, hc⟩ := h
  exact ⟨c, tail, heq, hPQ c hc⟩

/-- `p` takes exactly `bytes` and returns `a`, before such a rest. -/
def Scans (P : List UInt8 → Prop) (p : Reader ε α) (bytes : List UInt8) (a : α) : Prop :=
  ∀ rest, P rest → p (bytes ++ rest) = .ok (a, rest)

namespace Scans

variable {P Q : List UInt8 → Prop} {p : Reader ε α} {k : α → Reader ε β}
  {bytes bytes' : List UInt8} {a : α} {b : β}

theorem bind (hp : Scans Q p bytes a) (hk : Scans P (k a) bytes' b)
    (hnext : ∀ rest, P rest → Q (bytes' ++ rest)) : Scans P (p >>= k) (bytes ++ bytes') b := by
  intro rest hrest
  rw [bind_eq_ok, append_assoc]
  exact ⟨a, bytes' ++ rest, hp _ (hnext rest hrest), hk rest hrest⟩

/-- A reader that does not look ahead. -/
theorem last (hp : Reads p bytes a) : Scans P p bytes a := fun rest _ => hp rest

/-- A reader that does not look ahead comes first. -/
theorem of_reads (hp : Reads p bytes a) (hk : Scans P (k a) bytes' b) :
    Scans P (p >>= k) (bytes ++ bytes') b :=
  bind (Q := fun _ => True) (fun rest _ => hp rest) hk fun _ _ => trivial

/-- A step that takes nothing. -/
theorem bind_nil (hp : Scans Q p [] a) (hk : Scans P (k a) bytes b)
    (hnext : ∀ rest, P rest → Q (bytes ++ rest)) : Scans P (p >>= k) bytes b := bind hp hk hnext

/-- The last part of a record. -/
theorem map (hp : Scans P p bytes a) (f : α → β) :
    Scans P (p >>= fun a => Pure.pure (f a)) bytes (f a) := by
  intro rest hrest
  rw [bind_eq_ok]
  exact ⟨a, rest, hp rest hrest, rfl⟩

theorem mono (hp : Scans Q p bytes a) (h : ∀ rest, P rest → Q rest) : Scans P p bytes a :=
  fun rest hrest => hp rest (h rest hrest)

theorem reads (hp : Scans (fun _ => True) p bytes a) : Reads p bytes a := fun rest => hp rest trivial

end Scans

/-- The reader never puts bytes back. -/
def Keeps (p : Reader ε α) : Prop := ∀ s a s', p s = .ok (a, s') → s'.length ≤ s.length

/-- The reader takes something. -/
def Takes (p : Reader ε α) : Prop := ∀ s a s', p s = .ok (a, s') → s'.length < s.length

theorem Takes.keeps (h : Takes p) : Keeps p := fun s a s' hp => (h s a s' hp).le

theorem Keeps.pure (a : α) : Keeps (Pure.pure a : Reader ε α) := by
  intro s b s' h
  obtain ⟨-, rfl⟩ := Prod.mk.inj (Except.ok.inj h)
  exact le_rfl

theorem Keeps.bind (hp : Keeps p) (hk : ∀ a, Keeps (k a)) : Keeps (p >>= k) := by
  intro s b s' h
  obtain ⟨a, mid, ha, hb⟩ := bind_eq_ok.mp h
  exact (hk a mid b s' hb).trans (hp s a mid ha)

theorem Takes.bind (hp : Takes p) (hk : ∀ a, Keeps (k a)) : Takes (p >>= k) := by
  intro s b s' h
  obtain ⟨a, mid, ha, hb⟩ := bind_eq_ok.mp h
  exact (hk a mid b s' hb).trans_lt (hp s a mid ha)

/-- Rounds of the body until the byte stands there or the text ends. -/
def loopUntil (stop : UInt8) (stuck : ε) (body : β → Reader ε β) : ℕ → β → Reader ε β
  | _, b, [] => .ok (b, [])
  | 0, b, c :: rest => if c = stop then .ok (b, c :: rest) else .error stuck
  | fuel + 1, b, c :: rest =>
    if c = stop then .ok (b, c :: rest)
    else body b (c :: rest) >>= fun r => loopUntil stop stuck body fuel r.1 r.2

def whileNot (stop : UInt8) (stuck : ε) (body : β → Reader ε β) (b : β) : Reader ε β := fun s =>
  loopUntil stop stuck body s.length b s

section Loop

variable {stop : UInt8} {stuck : ε} {body : β → Reader ε β} {s : List UInt8} {sep : UInt8}
  {enc : ι → List UInt8} {xs : List ι}

theorem loopUntil_stop (fuel : ℕ) (b : β) {rest : List UInt8} (h : Starts (· = stop) rest) :
    loopUntil stop stuck body fuel b rest = .ok (b, rest) := by
  obtain ⟨c, tail, rfl, rfl⟩ := h
  cases fuel with
  | zero => exact if_pos rfl
  | succ fuel => exact if_pos rfl

theorem loopUntil_step (fuel : ℕ) (b : β) (h : Starts (· ≠ stop) s) :
    loopUntil stop stuck body (fuel + 1) b s =
      body b s >>= fun r => loopUntil stop stuck body fuel r.1 r.2 := by
  obtain ⟨c, tail, rfl, hc⟩ := h
  exact if_neg hc

/-- The rounds do not run out when there are as many as bytes. -/
theorem loopUntil_fuel (hbody : ∀ b, Takes (body b)) {fuel fuel' : ℕ} {stuck' : ε} (b : β)
    (h : s.length ≤ fuel) (h' : s.length ≤ fuel') :
    loopUntil stop stuck body fuel b s = loopUntil stop stuck' body fuel' b s := by
  induction fuel generalizing b s fuel' with
  | zero =>
    obtain rfl := length_eq_zero_iff.mp (Nat.le_zero.mp h)
    cases fuel' <;> rfl
  | succ fuel ih =>
    cases s with
    | nil => cases fuel' <;> rfl
    | cons c rest =>
      cases fuel' with
      | zero => exact absurd h' (Nat.not_succ_le_zero _)
      | succ fuel' =>
        by_cases hc : c = stop
        · rw [loopUntil_stop _ _ (starts_cons hc), loopUntil_stop _ _ (starts_cons hc)]
        · rw [loopUntil_step _ _ (starts_cons hc), loopUntil_step _ _ (starts_cons hc)]
          cases hr : body b (c :: rest) with
          | error e => rfl
          | ok r =>
            have hlt := hbody b _ _ _ hr
            exact ih r.1 (by omega) (by omega)

/-- What every round keeps holds when the loop returns. -/
theorem invariant_whileNot {I : β → List UInt8 → Prop}
    (hbody : ∀ b s r, I b s → body b s = .ok r → I r.1 r.2) {b r : β} {s' : List UInt8}
    (hstart : I b s) (hs : whileNot stop stuck body b s = .ok (r, s')) : I r s' := by
  have h : ∀ fuel b s, I b s → loopUntil stop stuck body fuel b s = .ok (r, s') → I r s' := by
    intro fuel
    induction fuel with
    | zero =>
      intro b s hb h
      cases s with
      | nil =>
        obtain ⟨rfl, rfl⟩ := Prod.mk.inj (Except.ok.inj h)
        exact hb
      | cons c rest =>
        rw [loopUntil] at h
        split at h
        · obtain ⟨rfl, rfl⟩ := Prod.mk.inj (Except.ok.inj h)
          exact hb
        · cases h
    | succ fuel ih =>
      intro b s hb h
      cases s with
      | nil =>
        obtain ⟨rfl, rfl⟩ := Prod.mk.inj (Except.ok.inj h)
        exact hb
      | cons c rest =>
        rw [loopUntil] at h
        split at h
        · obtain ⟨rfl, rfl⟩ := Prod.mk.inj (Except.ok.inj h)
          exact hb
        · obtain ⟨mid, hmid, h⟩ := Throwing.bind_eq_ok.mp h
          exact ih mid.1 mid.2 (hbody b _ _ hb hmid) h
  exact h s.length b s hstart hs

theorem returns_whileNot {P : β → Prop} (hbody : ∀ b, P b → Returns (body b) P) {b : β} (hb : P b) :
    Returns (whileNot stop stuck body b) P := fun _ _ _ hs =>
  invariant_whileNot (I := fun b _ => P b) (fun b _ _ hb h => hbody b hb _ _ _ h) hb hs

/-- The loop puts no bytes back when its body does not. -/
theorem keeps_whileNot (hbody : ∀ b, Keeps (body b)) (b : β) :
    Keeps (whileNot stop stuck body b) := fun s _ _ hs =>
  invariant_whileNot (I := fun _ s' => s'.length ≤ s.length)
    (fun b _ _ hle h => (hbody b _ _ _ h).trans hle) le_rfl hs

/-- The items of a sequence with a separator between them. -/
def joined (sep : UInt8) (enc : ι → List UInt8) : List ι → List UInt8
  | [] => []
  | [x] => enc x
  | x :: y :: xs => enc x ++ (sep :: joined sep enc (y :: xs))

theorem length_le_joined (h : ∀ x ∈ xs, 0 < (enc x).length) :
    xs.length ≤ (joined sep enc xs).length := by
  induction xs with
  | nil => exact Nat.zero_le _
  | cons x xs ih =>
    obtain ⟨hx, hxs⟩ := forall_mem_cons.mp h
    cases xs with
    | nil => exact hx
    | cons y xs =>
      have hrest := ih hxs
      simp only [joined, length_append, length_cons] at hrest ⊢
      omega

/-- A loop reads a sequence back; an item is followed by the separator and the next item, or by
the byte that stops the loop. -/
theorem scans_whileNot {f : β → ι → β} {F : UInt8 → Prop} (hfirst : ∀ x ∈ xs, Starts F (enc x))
    (hstop : ∀ c, F c → c ≠ stop)
    (hmore : ∀ x ∈ xs, ∀ b, Scans (Starts F) (body b) (enc x ++ [sep]) (f b x))
    (hlast : ∀ x ∈ xs, ∀ b, Scans (Starts (· = stop)) (body b) (enc x) (f b x)) (b : β) :
    Scans (Starts (· = stop)) (whileNot stop stuck body b) (joined sep enc xs) (xs.foldl f b) := by
  have h : ∀ (fuel : ℕ) (xs : List ι) (b : β), xs.length ≤ fuel →
      (∀ x ∈ xs, Starts F (enc x)) →
      (∀ x ∈ xs, ∀ b, Scans (Starts F) (body b) (enc x ++ [sep]) (f b x)) →
      (∀ x ∈ xs, ∀ b, Scans (Starts (· = stop)) (body b) (enc x) (f b x)) →
      Scans (Starts (· = stop)) (loopUntil stop stuck body fuel b) (joined sep enc xs)
        (xs.foldl f b) := by
    intro fuel
    induction fuel with
    | zero =>
      intro xs b hle _ _ _ rest hrest
      obtain rfl := length_eq_zero_iff.mp (Nat.le_zero.mp hle)
      exact loopUntil_stop 0 b hrest
    | succ fuel ih =>
      intro xs b hle hfirst hmore hlast rest hrest
      cases xs with
      | nil => exact loopUntil_stop _ b hrest
      | cons x xs =>
        have hgo : Starts (· ≠ stop) (enc x) := (hfirst x mem_cons_self).mono hstop
        cases xs with
        | nil =>
          rw [joined, loopUntil_step _ _ (hgo.append rest),
            hlast x mem_cons_self b rest hrest]
          exact loopUntil_stop fuel _ hrest
        | cons y ys =>
          have hnext : Starts F (joined sep enc (y :: ys) ++ rest) := by
            have hy := hfirst y (mem_cons_of_mem x mem_cons_self)
            cases ys with
            | nil => exact hy.append rest
            | cons z zs => exact (hy.append _).append rest
          have hround := hmore x mem_cons_self b _ hnext
          rw [append_assoc, singleton_append] at hround
          rw [joined, append_assoc, cons_append,
            loopUntil_step _ _ (hgo.append _), hround]
          exact ih (y :: ys) (f b x) (Nat.le_of_succ_le_succ hle)
            (fun z hz => hfirst z (mem_cons_of_mem x hz))
            (fun z hz => hmore z (mem_cons_of_mem x hz))
            (fun z hz => hlast z (mem_cons_of_mem x hz)) rest hrest
  intro rest hrest
  refine h _ xs b ?_ hfirst hmore hlast rest hrest
  rw [length_append]
  refine (length_le_joined fun x hx => ?_).trans (Nat.le_add_right _ _)
  obtain ⟨c, tail, heq, -⟩ := hfirst x hx
  rw [heq]
  exact Nat.succ_pos _

end Loop

def isDigit (c : UInt8) : Bool := 48 ≤ c && c ≤ 57

def decimal (n : ℕ) : List UInt8 :=
  if n = 0 then [48] else (Nat.digits 10 n).reverse.map fun d => UInt8.ofNat (48 + d)

/-- The number that digits stand for, the first one being the most significant. -/
def digitsValue (digits : List UInt8) : ℕ := digits.foldl (fun v c => v * 10 + (c.toNat - 48)) 0

theorem mem_decimal (h : c ∈ decimal n) : ∃ d < 10, c = UInt8.ofNat (48 + d) := by
  unfold decimal at h
  split at h
  · exact ⟨0, by decide, mem_singleton.mp h⟩
  · obtain ⟨d, hd, rfl⟩ := mem_map.mp h
    exact ⟨d, Nat.digits_lt_base (by decide) (mem_reverse.mp hd), rfl⟩

theorem toNat_digit {d : ℕ} (h : d < 10) : (UInt8.ofNat (48 + d)).toNat = 48 + d :=
  UInt8.toNat_ofNat_of_lt' (by simp only [UInt8.size]; omega)

theorem isDigit_of_mem (h : c ∈ decimal n) : isDigit c = true := by
  obtain ⟨d, hd, rfl⟩ := mem_decimal h
  have hle : (48 : UInt8) ≤ UInt8.ofNat (48 + d) ∧ UInt8.ofNat (48 + d) ≤ 57 := by
    rw [UInt8.le_iff_toNat_le, UInt8.le_iff_toNat_le, toNat_digit hd]
    exact ⟨Nat.le_add_right _ _, by simp; omega⟩
  rw [isDigit, Bool.and_eq_true, decide_eq_true_eq, decide_eq_true_eq]
  exact hle

theorem decimal_ne_nil (n : ℕ) : decimal n ≠ [] := by
  unfold decimal
  split
  · exact cons_ne_nil _ _
  next hn => simpa [Nat.digits_ne_nil_iff_ne_zero] using hn

theorem digitsValue_decimal (n : ℕ) : digitsValue (decimal n) = n := by
  unfold decimal
  split
  next hn => rw [hn]; rfl
  next =>
    rw [digitsValue, foldl_map, foldl_reverse]
    conv_rhs => rw [← Nat.ofDigits_digits 10 n]
    have hlt : ∀ d ∈ Nat.digits 10 n, d < 10 := fun d hd => Nat.digits_lt_base (by decide) hd
    generalize Nat.digits 10 n = ds at hlt
    induction ds with
    | nil => rfl
    | cons d ds ih =>
      obtain ⟨hd, hds⟩ := forall_mem_cons.mp hlt
      rw [foldr_cons, ih hds, toNat_digit hd, Nat.ofDigits_cons]
      omega

/-- Digits are taken up to a byte that is none. -/
theorem span_decimal (n : ℕ) (h : Starts (isDigit · = false) rest) :
    (decimal n ++ rest).takeWhile isDigit = decimal n ∧
      (decimal n ++ rest).dropWhile isDigit = rest := by
  obtain ⟨c, tail, rfl, hc⟩ := h
  constructor
  · rw [takeWhile_append_of_pos fun d hd => isDigit_of_mem hd, takeWhile_cons, hc]
    simp
  · rw [dropWhile_append_of_pos fun d hd => isDigit_of_mem hd, dropWhile_cons, hc]
    simp

end Scanner
