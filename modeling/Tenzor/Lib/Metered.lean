import Tenzor.Lib.Wire

/-!
# Readers that account for what they do

A reader takes bytes from the front of a buffer or throws; a copy or a cast that it has not
checked may also fail. On the way it records what it is about to reserve or to loop over, with the
number of bytes that are unread then, and each round of its loops.

## Implementation notes

A tariff says which events are allowed, what each costs and how long the buffer may be.
`Spends T c left taken m P` says that from `left` bytes on `m` stays in the buffer, records allowed events only, and returns
what meets `P` behind at least `taken` bytes; that costs at most `c` for each byte taken, and
`c` for each byte there is and `c` more where it throws.
-/

namespace Metered

open List
open Nat (zero_add zero_le)

variable {ε α β γ : Type} {n : ℕ} {s rest : List UInt8} {as : List α}

inductive Fault (ε : Type)
  | thrown (e : ε)
  | outOfBounds
  | outOfRange
  | outOfFuel

inductive Event
  | demand (amount left : ℕ)
  | revisit (amount left : ℕ)
  | round
  deriving DecidableEq, Repr

/-- No more is reserved than there are bytes unread. -/
def Event.Backed : Event → Prop
  | .demand amount left => amount ≤ left
  | .revisit _ _ => True
  | .round => True

structure Run (ε α : Type) where
  events : List Event
  result : Except (Fault ε) (α × List UInt8)

def Reading (ε α : Type) := List UInt8 → Run ε α

instance : Monad (Reading ε) where
  pure a s := ⟨[], .ok (a, s)⟩
  bind m k s :=
    let r := m s
    match r.result with
    | .error f => ⟨r.events, .error f⟩
    | .ok (a, rest) => ⟨r.events ++ (k a rest).events, (k a rest).result⟩

/-! ## Steps -/

def throwing (e : ε) : Reading ε α := fun _ => ⟨[], .error (.thrown e)⟩

def failIf (c : Prop) [Decidable c] (e : ε) : Reading ε Unit := fun s =>
  if c then throwing e s else ⟨[], .ok ((), s)⟩

def ofExcept : Except ε α → Reading ε α
  | .ok a => pure a
  | .error e => throwing e

/-- The number of bytes left. -/
def unread : Reading ε ℕ := fun s => ⟨[], .ok (s.length, s)⟩

/-- The next bytes, without a check. -/
def copy (n : ℕ) : Reading ε (List UInt8) := fun s =>
  if n ≤ s.length then ⟨[], .ok (s.take n, s.drop n)⟩ else ⟨[], .error .outOfBounds⟩

/-- About to reserve, or to loop over, so many elements. -/
def demand (amount : ℕ) : Reading ε Unit := fun s => ⟨[.demand amount s.length], .ok ((), s)⟩

/-- About to loop over so many elements that have been read before. -/
def revisit (amount : ℕ) : Reading ε Unit := fun s => ⟨[.revisit amount s.length], .ok ((), s)⟩

def round : Reading ε Unit := fun s => ⟨[.round], .ok ((), s)⟩

/-- An enumerator from its code, without a check. -/
def cast : Option α → Reading ε α
  | some a => pure a
  | none => fun _ => ⟨[], .error .outOfRange⟩

/-- No further nesting. -/
def outOfFuel : Reading ε α := fun _ => ⟨[], .error .outOfFuel⟩

def checkLeft (e : ε) (n : ℕ) : Reading ε Unit := do
  let left ← unread
  failIf (left < n) e

/-- A count of elements of at least `size` bytes fits what is left. -/
def checkCount (e : ε) (n size : ℕ) : Reading ε Unit := do
  let left ← unread
  failIf (n > left / size) e

def readBytes (eof : ε) (n : ℕ) : Reading ε (List UInt8) := do
  checkLeft eof n
  copy n

def readPod (eof : ε) (α : Type) [Wire.Pod α] : Reading ε α := do
  let bytes ← readBytes eof (Wire.Pod.width α)
  pure (Wire.Pod.ofNat (Wire.ofLeBytes bytes))

def readMany (m : Reading ε α) : ℕ → Reading ε (List α)
  | 0 => pure []
  | n + 1 => do
      round
      let a ← m
      let rest ← readMany m n
      pure (a :: rest)

def readCounted (eof : ε) (γ : Type) [Wire.Pod γ] (tooMany : γ → ε) (size : ℕ)
    (m : Reading ε α) : Reading ε (List α) := do
  let n ← readPod eof γ
  checkCount (tooMany n) (Wire.Pod.toNat n) size
  demand (Wire.Pod.toNat n)
  readMany m (Wire.Pod.toNat n)

/-- A reader of its own for the next bytes, without a check; then the bytes behind them. -/
def window (n : ℕ) (m : Reading ε α) : Reading ε α := fun s =>
  if n ≤ s.length then
    let r := m (s.take n)
    ⟨r.events, r.result.map fun a => (a.1, s.drop n)⟩
  else ⟨[], .error .outOfBounds⟩

/-! ## Running a sequence -/

section Runs

variable {m : Reading ε α} {k : α → Reading ε β} {s : List UInt8} {a : α} {rest bytes : List UInt8}
  {e eof : ε} {r : Unit × List UInt8} {n : ℕ}

theorem bind_apply_ok (h : (m s).result = .ok (a, rest)) :
    (m >>= k) s = ⟨(m s).events ++ (k a rest).events, (k a rest).result⟩ := by
  change (match (m s).result with
    | .error f => (⟨(m s).events, .error f⟩ : Run ε β)
    | .ok (a, rest) => ⟨(m s).events ++ (k a rest).events, (k a rest).result⟩) = _
  rw [h]

theorem bind_apply_error {f : Fault ε} (h : (m s).result = .error f) :
    (m >>= k) s = ⟨(m s).events, .error f⟩ := by
  change (match (m s).result with
    | .error f => (⟨(m s).events, .error f⟩ : Run ε β)
    | .ok (a, rest) => ⟨(m s).events ++ (k a rest).events, (k a rest).result⟩) = _
  rw [h]

theorem bind_assoc (m : Reading ε α) (k : α → Reading ε β) (l : β → Reading ε γ) :
    (m >>= k) >>= l = m >>= fun a => k a >>= l := by
  funext s
  cases h : (m s).result with
  | error f =>
    have hmk : ((m >>= k) s).result = .error f := by
      rw [bind_apply_error h]
    rw [bind_apply_error hmk, bind_apply_error h, bind_apply_error h]
  | ok r =>
    obtain ⟨a, rest⟩ := r
    cases h' : (k a rest).result with
    | error f =>
      have hmk : ((m >>= k) s).result = .error f := by
        rw [bind_apply_ok h, h']
      rw [bind_apply_error hmk, bind_apply_ok h, bind_apply_ok h, bind_apply_error h']
    | ok r' =>
      obtain ⟨b, rest'⟩ := r'
      have hmk : ((m >>= k) s).result = .ok (b, rest') := by
        rw [bind_apply_ok h, h']
      rw [bind_apply_ok hmk, bind_apply_ok h, bind_apply_ok h, bind_apply_ok h',
        append_assoc]

theorem pure_bind (a : α) (k : α → Reading ε β) : (pure a >>= k) = k a := by
  funext s
  rfl

theorem bind_result_ok {r : β × List UInt8} : ((m >>= k) s).result = .ok r ↔
    ∃ a rest, (m s).result = .ok (a, rest) ∧ (k a rest).result = .ok r := by
  cases h : (m s).result with
  | error f => simp [bind_apply_error h]
  | ok r =>
    obtain ⟨a, rest⟩ := r
    simp [bind_apply_ok h]

@[simp] theorem failIf_result_ok {c : Prop} [Decidable c] :
    (failIf c e s).result = .ok r ↔ ¬ c ∧ ((), s) = r := by
  unfold failIf throwing
  split <;> simp_all

theorem failIf_bind (c : Prop) [Decidable c] (e : ε) (k : Unit → Reading ε β) (s : List UInt8) :
    (failIf c e >>= k) s = if c then ⟨[], .error (.thrown e)⟩ else k () s := by
  by_cases hc : c
  · rw [if_pos hc, bind_apply_error (by rw [failIf, if_pos hc]; rfl), failIf, if_pos hc]
    rfl
  · rw [if_neg hc, bind_apply_ok (failIf_result_ok.mpr ⟨hc, rfl⟩), failIf, if_neg hc]
    rfl

@[simp] theorem pure_result_ok {r : α × List UInt8} :
    ((pure a : Reading ε α) s).result = .ok r ↔ (a, s) = r := by
  change Except.ok (a, s) = .ok r ↔ _
  rw [Except.ok.injEq]

@[simp] theorem unread_result_ok {r : ℕ × List UInt8} :
    ((unread : Reading ε ℕ) s).result = .ok r ↔ (s.length, s) = r := by
  rw [unread, Except.ok.injEq]

@[simp] theorem demand_result_ok :
    ((demand n : Reading ε Unit) s).result = .ok r ↔ ((), s) = r := by
  rw [demand, Except.ok.injEq]

@[simp] theorem round_result_ok : ((round : Reading ε Unit) s).result = .ok r ↔ ((), s) = r := by
  rw [round, Except.ok.injEq]

@[simp] theorem ofExcept_result_ok {x : Except ε α} {r : α × List UInt8} :
    (ofExcept x s).result = .ok r ↔ ∃ a, x = .ok a ∧ (a, s) = r := by
  cases x with
  | error e => simp [ofExcept, throwing]
  | ok a => simp [ofExcept]

theorem checkLeft_apply (e : ε) (n : ℕ) (s : List UInt8) :
    checkLeft e n s = if s.length < n then ⟨[], .error (.thrown e)⟩ else ⟨[], .ok ((), s)⟩ := by
  rw [checkLeft, bind_apply_ok rfl, failIf]
  split <;> rfl

@[simp] theorem checkLeft_result_ok :
    (checkLeft e n s).result = .ok r ↔ n ≤ s.length ∧ ((), s) = r := by
  simp [checkLeft, bind_result_ok]

@[simp] theorem checkCount_result_ok {size : ℕ} :
    (checkCount e n size s).result = .ok r ↔ n ≤ s.length / size ∧ ((), s) = r := by
  simp [checkCount, bind_result_ok]

@[simp] theorem copy_result_ok :
    ((copy n : Reading ε (List UInt8)) s).result = .ok (bytes, rest) ↔
      bytes.length = n ∧ s = bytes ++ rest := by
  unfold copy
  constructor
  · intro h
    split at h
    · rename_i hn
      obtain ⟨rfl, rfl⟩ := Prod.mk.inj (Except.ok.inj h)
      rw [length_take, Nat.min_eq_left hn, take_append_drop]
      exact ⟨rfl, rfl⟩
    · exact nomatch h
  · rintro ⟨rfl, rfl⟩
    rw [if_pos (by simp), take_left, drop_left]

theorem window_result_ok :
    (window n m s).result = .ok (a, rest) ↔
      n ≤ s.length ∧ (∃ rest', (m (s.take n)).result = .ok (a, rest')) ∧ s.drop n = rest := by
  unfold window
  by_cases hn : n ≤ s.length
  · rw [if_pos hn]
    dsimp only
    cases (m (s.take n)).result with
    | error f => simp [Except.map]
    | ok r => simp [Except.map, hn, Prod.ext_iff]
  · simp [hn]

@[simp] theorem readBytes_result_ok :
    (readBytes eof n s).result = .ok (bytes, rest) ↔ bytes.length = n ∧ s = bytes ++ rest := by
  simp only [readBytes, bind_result_ok, checkLeft_result_ok, copy_result_ok]
  constructor
  · rintro ⟨_, mid, ⟨-, hmid⟩, h⟩
    obtain rfl := (Prod.mk.inj hmid).2
    exact h
  · rintro ⟨rfl, rfl⟩
    exact ⟨(), bytes ++ rest, ⟨by simp, rfl⟩, rfl, rfl⟩

@[simp] theorem readPod_result_ok [Wire.Pod α] :
    (readPod eof α s).result = .ok (a, rest) ↔ s = Wire.appendPod a ++ rest := by
  simp only [readPod, bind_result_ok, readBytes_result_ok, pure_result_ok]
  constructor
  · rintro ⟨bytes, rest', ⟨hlen, rfl⟩, h⟩
    obtain ⟨rfl, rfl⟩ := Prod.mk.inj h
    rw [Wire.appendPod_ofNat hlen]
  · rintro rfl
    refine ⟨Wire.appendPod a, rest, ⟨Wire.length_appendPod a, rfl⟩, ?_⟩
    rw [Wire.ofNat_appendPod]

end Runs

variable {m : Reading ε α}

theorem length_of_readMany (h : (readMany m n s).result = .ok (as, rest)) : as.length = n := by
  induction n generalizing s as with
  | zero => rw [← (Prod.mk.inj (pure_result_ok.mp h)).1, length_nil]
  | succ n ih =>
    obtain ⟨_, _, -, h⟩ := bind_result_ok.mp h
    obtain ⟨a, _, -, h⟩ := bind_result_ok.mp h
    obtain ⟨tail, _, htail, h⟩ := bind_result_ok.mp h
    obtain ⟨rfl, rfl⟩ := Prod.mk.inj (pure_result_ok.mp h)
    rw [length_cons, ih htail]

/-! ## Forgetting the account -/

/-- Without its account `m` is `p`. -/
def Erases (m : Reading ε α) (p : Wire.Reader ε α) : Prop :=
  ∀ s, (m s).result = (p s).mapError .thrown

namespace Erases

variable {m : Reading ε α} {p : Wire.Reader ε α} {k : α → Reading ε β}
  {q : α → Wire.Reader ε β} {e : ε}

theorem pure (a : α) : Erases (Pure.pure a : Reading ε α) (Pure.pure a) := fun _ => rfl

theorem throwing (e : ε) : Erases (throwing e : Reading ε α) fun _ => .error e := fun _ => rfl

theorem bind (hm : Erases m p) (hk : ∀ a, Erases (k a) (q a)) : Erases (m >>= k) (p >>= q) := by
  intro s
  have hs := hm s
  have hbind : (p >>= q) s = p s >>= fun r => q r.1 r.2 := rfl
  rw [hbind]
  cases hp : p s with
  | error e =>
    rw [hp] at hs
    rw [bind_apply_error hs]
    rfl
  | ok r =>
    obtain ⟨a, rest⟩ := r
    rw [hp] at hs
    rw [bind_apply_ok hs]
    exact hk a rest

theorem failIf (c : Prop) [Decidable c] (e : ε) :
    Erases (Metered.failIf c e) (Wire.failIf c e) := by
  intro s
  unfold Metered.failIf Wire.failIf Metered.throwing
  split <;> rfl

theorem unread : Erases (unread : Reading ε ℕ) Wire.remaining := fun _ => rfl

/-- A step of the account alone. -/
theorem step {m : Reading ε Unit} {k : Unit → Reading ε β} {q : Wire.Reader ε β}
    (hm : ∀ s, (m s).result = .ok ((), s)) (hk : Erases (k ()) q) : Erases (m >>= k) q := by
  intro s
  rw [bind_apply_ok (hm s)]
  exact hk s

theorem demand (n : ℕ) {k : Unit → Reading ε β} {q : Wire.Reader ε β} (hk : Erases (k ()) q) :
    Erases (Metered.demand n >>= k) q := step (fun _ => rfl) hk

theorem round {k : Unit → Reading ε β} {q : Wire.Reader ε β} (hk : Erases (k ()) q) :
    Erases (round >>= k) q := step (fun _ => rfl) hk

theorem checkLeft (e : ε) (n : ℕ) {k : Unit → Reading ε β} {q : ℕ → Wire.Reader ε β}
    (hk : ∀ left, Erases (k ()) (q left)) :
    Erases (checkLeft e n >>= k)
      (Wire.remaining >>= fun left => Wire.failIf (left < n) e >>= fun _ => q left) := by
  rw [Metered.checkLeft, bind_assoc]
  exact unread.bind fun left => (failIf _ e).bind fun _ => hk left

theorem checkCount (e : ε) (n size : ℕ) :
    Erases (checkCount e n size) (Wire.checkCount e n size) := unread.bind fun _ => failIf _ e

/-- What follows a check may rely on it. -/
theorem checkCount_bind {e : ε} {n size : ℕ} {k : Unit → Reading ε β} {q : Unit → Wire.Reader ε β}
    (hsize : 0 < size)
    (hk : ∀ s, n * size ≤ s.length → (k () s).result = (q () s).mapError .thrown) :
    Erases (Metered.checkCount e n size >>= k) (Wire.checkCount e n size >>= q) := by
  intro s
  have hcheck := Erases.checkCount e n size s
  have hbind : (Wire.checkCount e n size >>= q) s =
      Wire.checkCount e n size s >>= fun r => q r.1 r.2 := rfl
  by_cases hn : n > s.length / size
  · have hfail : Wire.checkCount e n size s = .error e := if_pos hn
    rw [hfail] at hcheck
    rw [hbind, hfail, bind_apply_error hcheck]
    rfl
  · have hpass : Wire.checkCount e n size s = .ok ((), s) := if_neg hn
    rw [hpass] at hcheck
    rw [hbind, hpass, bind_apply_ok hcheck]
    exact hk s ((Nat.le_div_iff_mul_le hsize).mp (Nat.not_lt.mp hn))

/-- A window is read like the bytes that it has. -/
theorem window {n : ℕ} (hm : Erases m p) {s : List UInt8} (hn : n ≤ s.length) :
    (window n m s).result = ((p (s.take n)).map fun r => (r.1, s.drop n)).mapError .thrown := by
  rw [Metered.window, if_pos hn]
  dsimp only
  rw [hm (s.take n)]
  cases p (s.take n) <;> rfl

theorem readBytes (eof : ε) (n : ℕ) : Erases (readBytes eof n) (Wire.readBytes eof n) := by
  intro s
  unfold Metered.readBytes Wire.readBytes
  by_cases hn : s.length < n
  · have hcheck : (Metered.checkLeft eof n s).result = .error (.thrown eof) := by
      rw [checkLeft_apply, if_pos hn]
    rw [bind_apply_error hcheck, if_pos hn]
    rfl
  · have hcheck : (Metered.checkLeft eof n s).result = .ok ((), s) := by
      rw [checkLeft_apply, if_neg hn]
    rw [bind_apply_ok hcheck, if_neg hn, copy, if_pos (Nat.not_lt.mp hn)]
    rfl

theorem readPod (eof : ε) (α : Type) [Wire.Pod α] :
    Erases (readPod eof α) (Wire.readPod eof α) := (readBytes eof _).bind fun _ => pure _

theorem readMany (hm : Erases m p) (n : ℕ) : Erases (readMany m n) (Wire.readMany p n) := by
  induction n with
  | zero => exact pure []
  | succ n ih => exact round (hm.bind fun a => ih.bind fun rest => pure (a :: rest))

theorem readCounted (eof : ε) (γ : Type) [Wire.Pod γ] (tooMany : γ → ε) (size : ℕ)
    (hm : Erases m p) :
    Erases (readCounted eof γ tooMany size m) (Wire.readCounted eof γ tooMany size p) :=
  (readPod eof γ).bind fun _ => (checkCount _ _ size).bind fun _ => demand _ (hm.readMany _)

end Erases

/-- What `m` returns, `p` returns. -/
def Refines (m : Reading ε α) (p : Wire.Reader ε α) : Prop :=
  ∀ s r, (m s).result = .ok r → p s = .ok r

theorem Erases.refines {p : Wire.Reader ε α} (h : Erases m p) : Refines m p := by
  intro s r hr
  rw [h s] at hr
  cases hp : p s with
  | error e => simp [hp, Except.mapError] at hr
  | ok r' =>
    rw [hp] at hr
    exact congrArg Except.ok (Except.ok.inj hr)

namespace Refines

variable {m : Reading ε α} {p : Wire.Reader ε α} {k : α → Reading ε β}
  {q : α → Wire.Reader ε β}

theorem bind (hm : Refines m p) (hk : ∀ a, Refines (k a) (q a)) : Refines (m >>= k) (p >>= q) := by
  intro s r h
  obtain ⟨a, rest, ha, hr⟩ := bind_result_ok.mp h
  exact Wire.bind_eq_ok.mpr ⟨a, rest, hm s _ ha, hk a rest r hr⟩

/-- The values that are returned may differ. -/
theorem bind_of {α' : Type} {p : Wire.Reader ε α'} {q : α' → Wire.Reader ε β} {R : α → α' → Prop}
    (hm : ∀ s a rest, (m s).result = .ok (a, rest) → ∃ b, p s = .ok (b, rest) ∧ R a b)
    (hk : ∀ a b, R a b → Refines (k a) (q b)) : Refines (m >>= k) (p >>= q) := by
  intro s r h
  obtain ⟨a, rest, ha, hr⟩ := bind_result_ok.mp h
  obtain ⟨b, hb, hab⟩ := hm s a rest ha
  exact Wire.bind_eq_ok.mpr ⟨b, rest, hb, hk a b hab rest r hr⟩

/-- A check that `m` makes too. -/
theorem failIf {c c' : Prop} [Decidable c] [Decidable c'] {e e' : ε} {k : Unit → Reading ε β}
    {q : Unit → Wire.Reader ε β} (hc : ¬ c → ¬ c') (hk : ¬ c → Refines (k ()) (q ())) :
    Refines (Metered.failIf c e >>= k) (Wire.failIf c' e' >>= q) := by
  intro s r h
  obtain ⟨_, rest, ha, hr⟩ := bind_result_ok.mp h
  obtain ⟨hnot, hs⟩ := failIf_result_ok.mp ha
  obtain rfl := (Prod.mk.inj hs).2
  refine Wire.bind_eq_ok.mpr ⟨(), s, ?_, hk hnot s r hr⟩
  rw [Wire.failIf, if_neg (hc hnot)]

/-- A step of `m` alone that takes nothing. -/
theorem step {q : Wire.Reader ε β} (hm : ∀ s a rest, (m s).result = .ok (a, rest) → rest = s)
    (hk : ∀ a, Refines (k a) q) : Refines (m >>= k) q := by
  intro s r h
  obtain ⟨a, rest, ha, hr⟩ := bind_result_ok.mp h
  obtain rfl := hm s a rest ha
  exact hk a rest r hr

/-- Bytes that are there. -/
theorem copy (eof : ε) (n : ℕ) : Refines (copy n) (Wire.readBytes eof n) := by
  rintro s ⟨bytes, rest⟩ h
  obtain ⟨rfl, rfl⟩ := copy_result_ok.mp h
  rw [Wire.readBytes, if_neg (by simp), take_left, drop_left]

theorem readMany (hm : Refines m p) (n : ℕ) : Refines (readMany m n) (Wire.readMany p n) := by
  induction n with
  | zero => exact (Erases.pure []).refines
  | succ n ih =>
    refine step (fun s _ rest h => ?_) fun _ =>
      hm.bind fun a => ih.bind fun rest => (Erases.pure (a :: rest)).refines
    exact ((Prod.mk.inj (round_result_ok.mp h)).2).symm

end Refines

structure Tariff where
  Allowed : Event → Prop
  price : Event → ℕ
  limit : Option ℕ := none

/-- Everything that is reserved is backed and paid for. -/
def byAmount : Tariff where
  Allowed := Event.Backed
  price
    | .demand amount _ => amount
    | .revisit amount _ => amount
    | .round => 1

/-- Only the rounds are paid for. -/
def byRound : Tariff where
  Allowed _ := True
  price
    | .demand _ _ => 0
    | .revisit _ _ => 0
    | .round => 1

/-- Buffers of this length are considered. -/
def Tariff.Covers (T : Tariff) (n : ℕ) : Prop := ∀ limit ∈ T.limit, n ≤ limit

theorem Tariff.Covers.of_le {T : Tariff} {m : ℕ} (h : T.Covers n) (hle : m ≤ n) : T.Covers m :=
  fun limit hlimit => hle.trans (h limit hlimit)

@[simp] theorem byAmount_covers (n : ℕ) : byAmount.Covers n := nofun

@[simp] theorem byRound_covers (n : ℕ) : byRound.Covers n := nofun

def Tariff.total (T : Tariff) (events : List Event) : ℕ := (events.map T.price).sum

@[simp] theorem Tariff.total_nil (T : Tariff) : T.total [] = 0 := rfl

@[simp] theorem Tariff.total_append (T : Tariff) (l l' : List Event) :
    T.total (l ++ l') = T.total l + T.total l' := by
  rw [total, total, total, map_append, sum_append]

@[simp] theorem Tariff.total_singleton (T : Tariff) (e : Event) : T.total [e] = T.price e := by
  simp [total]

/-! ## What a reader spends -/

/-- From `left` bytes on `m` returns what meets `P` after `taken` bytes, or throws, for `c` a
byte. -/
def Spends (T : Tariff) (c left taken : ℕ) (m : Reading ε α) (P : α → Prop) : Prop :=
  ∀ s, T.Covers s.length → left ≤ s.length → (∀ e ∈ (m s).events, T.Allowed e) ∧
    match (m s).result with
    | .ok (a, rest) => P a ∧ rest <:+ s ∧ rest.length + taken ≤ s.length ∧
        T.total (m s).events + c * rest.length ≤ c * s.length
    | .error (.thrown _) => T.total (m s).events ≤ c * s.length + c
    | .error _ => False

namespace Spends

variable {T : Tariff} {c left taken : ℕ} {m : Reading ε α} {k : α → Reading ε β} {P : α → Prop}
  {Q : β → Prop} {a : α} {c' left' taken' n size : ℕ} {s : List UInt8} {b : Prop} {e : ε}

theorem pure (h : P a) : Spends T c left 0 (Pure.pure a : Reading ε α) P := by
  intro s _ _
  refine ⟨fun e he => (nomatch he), h, suffix_rfl, le_rfl, ?_⟩
  exact (zero_add _).le

theorem throwing (e : ε) : Spends T c left taken (throwing e : Reading ε α) P :=
  fun _ _ _ => ⟨fun _ he => (nomatch he), zero_le _⟩

theorem mono {P' : α → Prop} (hm : Spends T c left taken m P) (hc : c ≤ c') (hleft : left ≤ left')
    (htaken : taken' ≤ taken) (hP : ∀ a, P a → P' a) : Spends T c' left' taken' m P' := by
  intro s hcovers hs
  obtain ⟨hallowed, hresult⟩ := hm s hcovers (hleft.trans hs)
  refine ⟨hallowed, ?_⟩
  cases hr : (m s).result with
  | error f =>
    rw [hr] at hresult
    cases f with
    | thrown e =>
      have hmul : c * s.length ≤ c' * s.length := Nat.mul_le_mul_right _ hc
      omega
    | outOfBounds => exact hresult
    | outOfRange => exact hresult
    | outOfFuel => exact hresult
  | ok r =>
    obtain ⟨a, rest⟩ := r
    rw [hr] at hresult
    obtain ⟨ha, hrest, htake, hcost⟩ := hresult
    refine ⟨hP a ha, hrest, by omega, ?_⟩
    obtain ⟨d, rfl⟩ := Nat.exists_eq_add_of_le hc
    obtain ⟨t, ht⟩ := Nat.exists_eq_add_of_le (show rest.length ≤ s.length by omega)
    rw [ht] at hcost ⊢
    simp only [Nat.mul_add, Nat.add_mul] at hcost ⊢
    omega

theorem forget (hm : Spends T c left taken m P) : Spends T c left 0 m P :=
  hm.mono le_rfl le_rfl (zero_le _) fun _ h => h

theorem widen (hc : c ≤ c') (hm : Spends T c left taken m P) :
    Spends T c' left taken m P := hm.mono hc le_rfl le_rfl fun _ h => h

theorem of_ok {rest : List UInt8} (hm : Spends T c left taken m P) (hcovers : T.Covers s.length)
    (hs : left ≤ s.length) (h : (m s).result = .ok (a, rest)) :
    P a ∧ rest <:+ s ∧ T.total (m s).events + c * rest.length ≤ c * s.length := by
  have hresult := (hm s hcovers hs).2
  rw [h] at hresult
  exact ⟨hresult.1, hresult.2.1, hresult.2.2.2⟩

theorem of_error {f : Fault ε} (hm : Spends T c left taken m P) (hcovers : T.Covers s.length)
    (hs : left ≤ s.length) (h : (m s).result = .error f) :
    (∃ e, f = .thrown e) ∧ T.total (m s).events ≤ c * s.length + c := by
  have hresult := (hm s hcovers hs).2
  rw [h] at hresult
  cases f with
  | thrown e => exact ⟨⟨e, rfl⟩, hresult⟩
  | outOfBounds => exact hresult.elim
  | outOfRange => exact hresult.elim
  | outOfFuel => exact hresult.elim

/-- Behind what has been taken the limit may be another one. -/
theorem bind_limit {limit : Option ℕ}
    (hlimit : ∀ n, T.Covers (n + taken) → ({ T with limit := limit } : Tariff).Covers n)
    (hm : Spends T c left taken m P)
    (hk : ∀ a, P a → Spends { T with limit := limit } c 0 taken' (k a) Q) :
    Spends T c left (taken + taken') (m >>= k) Q := by
  intro s hcovers hs
  obtain ⟨hallowed, hresult⟩ := hm s hcovers hs
  cases hr : (m s).result with
  | error f =>
    rw [hr] at hresult
    rw [bind_apply_error hr]
    refine ⟨hallowed, ?_⟩
    cases f <;> exact hresult
  | ok r =>
    obtain ⟨a, rest⟩ := r
    rw [hr] at hresult
    obtain ⟨ha, hrest, htake, hcost⟩ := hresult
    obtain ⟨hallowed', hresult'⟩ :=
      hk a ha rest (hlimit _ (hcovers.of_le htake)) (zero_le _)
    have htotal : ({ T with limit := limit } : Tariff).total = T.total := rfl
    rw [bind_apply_ok hr]
    refine ⟨fun e he => ?_, ?_⟩
    · rcases mem_append.mp he with he | he
      · exact hallowed e he
      · exact hallowed' e he
    · cases hr' : (k a rest).result with
      | error f =>
        rw [hr', htotal] at hresult'
        cases f with
        | thrown e =>
          simp only [Tariff.total_append] at hresult' ⊢
          omega
        | outOfBounds => exact hresult'
        | outOfRange => exact hresult'
        | outOfFuel => exact hresult'
      | ok r =>
        rw [hr', htotal] at hresult'
        obtain ⟨hb, hrest', htake', hcost'⟩ := hresult'
        simp only [Tariff.total_append]
        exact ⟨hb, hrest'.trans hrest, by omega, by omega⟩

theorem bind (hm : Spends T c left taken m P) (hk : ∀ a, P a → Spends T c 0 taken' (k a) Q) :
    Spends T c left (taken + taken') (m >>= k) Q :=
  bind_limit (fun _ h => h.of_le (Nat.le_add_right _ _)) hm hk

/-- What comes first has taken enough. -/
theorem followed (hm : Spends T c left taken m P) (hk : ∀ a, P a → Spends T c 0 0 (k a) Q) :
    Spends T c left taken (m >>= k) Q := hm.bind hk

/-- A step that takes nothing, records nothing and returns keeps what is known to be left. -/
theorem stay (hm : ∀ s, (∃ e, m s = ⟨[], .error (.thrown e)⟩) ∨
      ∃ a, m s = ⟨[], .ok (a, s)⟩ ∧ P a ∧ (left ≤ s.length → left' ≤ s.length))
    (hk : ∀ a, P a → Spends T c left' taken (k a) Q) : Spends T c left taken (m >>= k) Q := by
  intro s hcovers hs
  rcases hm s with ⟨e, he⟩ | ⟨a, ha, hP, hleft⟩
  · rw [bind_apply_error (by rw [he] : (m s).result = .error (.thrown e)), he]
    exact ⟨fun e he => (nomatch he), zero_le _⟩
  · rw [bind_apply_ok (by rw [ha] : (m s).result = .ok (a, s)), ha]
    exact hk a hP s hcovers (hleft hs)

theorem failIf [Decidable b] {k : Unit → Reading ε β} (hk : ¬ b → Spends T c left taken (k ()) Q) :
    Spends T c left taken (failIf b e >>= k) Q := by
  refine stay (P := fun _ => ¬ b) (fun s => ?_) fun _ hb => hk hb
  by_cases hb : b
  · exact .inl ⟨e, if_pos hb⟩
  · exact .inr ⟨(), if_neg hb, hb, id⟩

/-- The number that is read is what is left. -/
theorem unread_left {k : ℕ → Reading ε β} (hk : ∀ n, Spends T c n taken (k n) Q) :
    Spends T c left taken (Metered.unread >>= k) Q := by
  intro s hcovers _
  exact hk s.length s hcovers le_rfl

theorem ofExcept {x : Except ε α} (hk : ∀ a, x = .ok a → Spends T c left taken (k a) Q) :
    Spends T c left taken (ofExcept x >>= k) Q := by
  refine stay (P := fun a => x = .ok a) (fun s => ?_) hk
  cases x with
  | error e => exact .inl ⟨e, rfl⟩
  | ok a => exact .inr ⟨a, rfl, rfl, id⟩

theorem checkLeft {k : Unit → Reading ε β} (hk : Spends T c n taken (k ()) Q) :
    Spends T c left taken (checkLeft e n >>= k) Q := by
  refine stay (P := fun _ => True) (fun s => ?_) fun _ _ => hk
  rw [checkLeft_apply]
  split
  · exact .inl ⟨e, rfl⟩
  · exact .inr ⟨(), rfl, trivial, fun _ => by omega⟩

/-- A check of what is left beside another one. -/
theorem checkOr [Decidable b] {k : Unit → Reading ε β} (hk : ¬ b → Spends T c n taken (k ()) Q) :
    Spends T c left taken
      (Metered.unread >>= fun l => Metered.failIf (b ∨ l < n) e >>= k) Q := by
  rw [← bind_assoc]
  refine stay (P := fun _ => ¬ b) (fun s => ?_) fun _ hb => hk hb
  rw [bind_apply_ok rfl, Metered.failIf]
  split
  · exact .inl ⟨e, rfl⟩
  · rename_i hn
    exact .inr ⟨(), rfl, fun hb => hn (.inl hb), fun _ => by omega⟩

theorem checkCount {k : Unit → Reading ε β} (hsize : 0 < size)
    (hk : Spends T c (n * size) taken (k ()) Q) :
    Spends T c left taken (checkCount e n size >>= k) Q := by
  refine stay (P := fun _ => True) (fun s => ?_) fun _ _ => hk
  rw [Metered.checkCount, bind_apply_ok rfl, Metered.failIf]
  split
  · exact .inl ⟨e, rfl⟩
  · rename_i hn
    refine .inr ⟨(), rfl, trivial, fun _ => ?_⟩
    exact (Nat.le_div_iff_mul_le hsize).mp (Nat.not_lt.mp hn)

/-- A step of the account. -/
theorem step {m : Reading ε Unit} {k : Unit → Reading ε β} {n : ℕ}
    (hm : ∀ s, left ≤ s.length → ∃ e, m s = ⟨[e], .ok ((), s)⟩ ∧ T.Allowed e ∧ T.price e ≤ n)
    (hleft : n ≤ left ∨ n ≤ 1) (htaken : n ≤ taken) (hk : Spends T c left taken (k ()) Q) :
    Spends T (c + 1) left taken (m >>= k) Q := by
  intro s hcovers hs
  obtain ⟨e, he, hallowed, hprice⟩ := hm s hs
  obtain ⟨hallowed', hresult⟩ := hk s hcovers hs
  rw [bind_apply_ok (by rw [he] : (m s).result = .ok ((), s)), he]
  refine ⟨fun e' he' => ?_, ?_⟩
  · rcases mem_append.mp he' with he' | he'
    · obtain rfl := mem_singleton.mp he'
      exact hallowed
    · exact hallowed' e' he'
  · simp only [Tariff.total_append, Tariff.total_singleton, Nat.add_mul]
    cases hr : (k () s).result with
    | error f =>
      rw [hr] at hresult
      cases f with
      | thrown e' =>
        omega
      | outOfBounds => exact hresult
      | outOfRange => exact hresult
      | outOfFuel => exact hresult
    | ok r =>
      rw [hr] at hresult
      obtain ⟨hb, hrest, htake, hcost⟩ := hresult
      exact ⟨hb, hrest, htake, by omega⟩

/-- What is reserved is known to be left, and is taken. -/
theorem demand {k : Unit → Reading ε β} (hleft : n ≤ left) (htaken : n ≤ taken)
    (hk : Spends byAmount c left taken (k ()) Q) :
    Spends byAmount (c + 1) left taken (demand n >>= k) Q :=
  step (fun s hs => ⟨.demand n s.length, rfl, hleft.trans hs, le_rfl⟩) (.inl hleft) htaken hk

/-- A step of the account for which nothing is paid. -/
theorem step_free {m : Reading ε Unit} {k : Unit → Reading ε β}
    (hm : ∀ s, T.Covers s.length → left ≤ s.length →
      ∃ e, m s = ⟨[e], .ok ((), s)⟩ ∧ T.Allowed e ∧ T.price e = 0)
    (hk : Spends T c left taken (k ()) Q) : Spends T c left taken (m >>= k) Q := by
  intro s hcovers hs
  obtain ⟨e, he, hallowed, hprice⟩ := hm s hcovers hs
  obtain ⟨hallowed', hresult⟩ := hk s hcovers hs
  rw [bind_apply_ok (by rw [he] : (m s).result = .ok ((), s)), he]
  refine ⟨fun e' he' => ?_, ?_⟩
  · rcases mem_append.mp he' with he' | he'
    · obtain rfl := mem_singleton.mp he'
      exact hallowed
    · exact hallowed' e' he'
  · simp only [Tariff.total_append, Tariff.total_singleton, hprice, zero_add]
    exact hresult

theorem demand_free {k : Unit → Reading ε β} (hk : Spends byRound c left taken (k ()) Q) :
    Spends byRound c left taken (Metered.demand n >>= k) Q :=
  step_free (fun s _ _ => ⟨.demand n s.length, rfl, trivial, rfl⟩) hk

/-- Where nothing has a price any rate will do. -/
theorem unpriced (hfree : ∀ e, T.price e = 0) (hm : Spends T c left taken m P) :
    Spends T c' left taken m P := by
  have hzero : ∀ l, T.total l = 0 := by
    intro l
    induction l with
    | nil => rfl
    | cons e l ih => rw [← singleton_append, T.total_append, T.total_singleton, hfree, ih]
  intro s hcovers hs
  obtain ⟨hallowed, hresult⟩ := hm s hcovers hs
  refine ⟨hallowed, ?_⟩
  cases hr : (m s).result with
  | error f =>
    rw [hr] at hresult
    cases f with
    | thrown e => exact (hzero _).le.trans (zero_le _)
    | outOfBounds => exact hresult
    | outOfRange => exact hresult
    | outOfFuel => exact hresult
  | ok r =>
    rw [hr] at hresult
    obtain ⟨ha, hrest, htake, -⟩ := hresult
    refine ⟨ha, hrest, htake, ?_⟩
    rw [hzero, zero_add]
    exact Nat.mul_le_mul_left _ hrest.length_le

theorem cast {x : Option α} {k : α → Reading ε β} (hx : x = some a)
    (hk : Spends T c left taken (k a) Q) : Spends T c left taken (cast x >>= k) Q := by
  rw [hx, Metered.cast]
  exact hk

/-- What is known to be left is covered. -/
theorem covered (hm : T.Covers left → Spends T c left taken m P) : Spends T c left taken m P :=
  fun s hcovers hs => hm (hcovers.of_le hs) s hcovers hs

theorem round {k : Unit → Reading ε β} (hround : T.Allowed .round ∧ T.price .round ≤ 1)
    (htaken : 1 ≤ taken) (hk : Spends T c left taken (k ()) Q) :
    Spends T (c + 1) left taken (round >>= k) Q :=
  step (fun _ _ => ⟨.round, rfl, hround.1, hround.2⟩) (.inr le_rfl) htaken hk

/-- A round that is paid for by what it reads. -/
theorem round_bind (hround : T.Allowed .round ∧ T.price .round ≤ 1) (htaken : 1 ≤ taken)
    (hm : Spends T c 0 taken m P) (hk : ∀ a, P a → Spends T (c + 1) 0 taken' (k a) Q) :
    Spends T (c + 1) left (taken + taken') (Metered.round >>= fun _ => m >>= k) Q := by
  have hfirst : Spends T (c + 1) left taken (Metered.round >>= fun _ => m) P :=
    round hround htaken (hm.mono le_rfl (zero_le _) le_rfl fun _ ha => ha)
  rw [← bind_assoc]
  exact hfirst.bind hk

theorem copy (n : ℕ) :
    Spends T c n n (copy n : Reading ε (List UInt8)) fun bytes => bytes.length = n := by
  intro s _ hs
  rw [Metered.copy, if_pos hs]
  refine ⟨fun e he => (nomatch he), ?_⟩
  simp only [length_take, length_drop, Tariff.total_nil, zero_add]
  exact ⟨Nat.min_eq_left hs, drop_suffix _ _, by omega,
    Nat.mul_le_mul_left _ (Nat.sub_le _ _)⟩

theorem readBytes (eof : ε) (n : ℕ) :
    Spends T c left n (readBytes eof n) fun bytes => bytes.length = n := checkLeft (copy n)

theorem readPod (eof : ε) (γ : Type) [Wire.Pod γ] :
    Spends T c left (Wire.Pod.width γ) (readPod eof γ) fun _ => True :=
  (readBytes eof (Wire.Pod.width γ)).bind fun _ _ => pure trivial

/-- A buffer that is too short ends the reader. -/
theorem starved {γ : Type} [Wire.Pod γ] {eof : ε} {k : γ → Reading ε β} (hlimit : T.limit = some n)
    (hn : n < Wire.Pod.width γ) : Spends T c left taken (Metered.readPod eof γ >>= k) Q := by
  intro s hcovers _
  have hs : s.length < Wire.Pod.width γ := (hcovers n hlimit).trans_lt hn
  have hcheck : (Metered.checkLeft eof (Wire.Pod.width γ) s).result = .error (.thrown eof) := by
    rw [checkLeft_apply, if_pos hs]
  have hcheck' : (Metered.checkLeft eof (Wire.Pod.width γ) s).events = [] := by
    rw [checkLeft_apply, if_pos hs]
  have hread : (Metered.readPod eof γ >>= k) s = ⟨[], .error (.thrown eof)⟩ := by
    rw [Metered.readPod, Metered.readBytes, bind_assoc, bind_assoc, bind_apply_error hcheck, hcheck']
  rw [hread]
  exact ⟨fun e he => (nomatch he), zero_le _⟩

theorem readMany (hround : T.Allowed .round ∧ T.price .round ≤ 1) (htaken : 1 ≤ taken)
    (hm : Spends T c 0 taken m P) (n : ℕ) :
    Spends T (c + 1) left (n * taken) (readMany m n) fun as => as.length = n ∧ ∀ a ∈ as, P a := by
  induction n generalizing left with
  | zero =>
    rw [Nat.zero_mul]
    exact pure ⟨rfl, forall_mem_nil P⟩
  | succ n ih =>
    rw [Nat.succ_mul, Nat.add_comm (n * taken)]
    refine round_bind hround htaken hm fun a ha => ?_
    exact ih.followed fun as has =>
      pure ⟨congrArg (· + 1) has.1, forall_mem_cons.mpr ⟨ha, has.2⟩⟩

/-- Each element takes what the check has asked for, so the reservation is taken as well. -/
theorem readCounted (eof : ε) (γ : Type) [Wire.Pod γ] (tooMany : γ → ε) (hsize : 0 < size)
    (hm : Spends byAmount c 0 size m P) :
    Spends byAmount (c + 2) left (Wire.Pod.width γ)
      (readCounted eof γ tooMany size m) fun as => ∀ a ∈ as, P a := by
  refine (readPod eof γ).followed fun n _ => checkCount hsize ?_
  have hle : Wire.Pod.toNat n ≤ Wire.Pod.toNat n * size := Nat.le_mul_of_pos_right _ hsize
  have hmany : Spends byAmount (c + 1) (Wire.Pod.toNat n * size) (Wire.Pod.toNat n * size)
      (Metered.readMany m (Wire.Pod.toNat n))
      fun as => as.length = Wire.Pod.toNat n ∧ ∀ a ∈ as, P a :=
    readMany ⟨trivial, le_rfl⟩ hsize hm _
  exact (demand hle hle hmany).mono le_rfl le_rfl (zero_le _) fun _ h => h.2

theorem window (hm : Spends T c 0 0 m P) : Spends T c n n (window n m) P := by
  intro s hcovers hs
  obtain ⟨hallowed, hresult⟩ :=
    hm (s.take n) (hcovers.of_le (length_take_le' n s)) (zero_le _)
  have hlen : (s.take n).length = n := by
    rw [length_take, Nat.min_eq_left hs]
  have hmul : c * n ≤ c * s.length := Nat.mul_le_mul_left _ hs
  rw [Metered.window, if_pos hs]
  refine ⟨hallowed, ?_⟩
  dsimp only
  cases hr : (m (s.take n)).result with
  | error f =>
    rw [hr] at hresult
    cases f with
    | thrown e =>
      simp only [hlen] at hresult
      simp only [Except.map]
      omega
    | outOfBounds => exact hresult
    | outOfRange => exact hresult
    | outOfFuel => exact hresult
  | ok r =>
    rw [hr] at hresult
    obtain ⟨ha, -, -, hcost⟩ := hresult
    rw [hlen] at hcost
    simp only [Except.map, length_drop]
    refine ⟨ha, drop_suffix _ _, by omega, ?_⟩
    rw [Nat.mul_sub]
    omega

end Spends

/-- A list is not longer than what its count has been compared with. -/
theorem length_le_of_readCounted {eof : ε} {γ : Type} [Wire.Pod γ] {tooMany : γ → ε} {size : ℕ}
    (h : (readCounted eof γ tooMany size m s).result = .ok (as, rest)) : as.length ≤ s.length := by
  obtain ⟨n, afterCount, hcount, h⟩ := bind_result_ok.mp h
  obtain ⟨_, _, hcheck, h⟩ := bind_result_ok.mp h
  obtain ⟨hle, hs⟩ := checkCount_result_ok.mp hcheck
  calc as.length = Wire.Pod.toNat n := length_of_readMany h
    _ ≤ afterCount.length / size := hle
    _ ≤ afterCount.length := Nat.div_le_self _ _
    _ ≤ s.length := by
      rw [readPod_result_ok.mp hcount, length_append]
      exact Nat.le_add_left _ _

/-! ## Events that are met -/

/-- `m` records nothing. -/
def Silent (m : Reading ε α) : Prop := ∀ s, (m s).events = []

namespace Silent

variable {m : Reading ε α} {k : α → Reading ε β}

theorem pure (a : α) : Silent (Pure.pure a : Reading ε α) := fun _ => rfl

theorem bind (hm : Silent m) (hk : ∀ a, Silent (k a)) : Silent (m >>= k) := by
  intro s
  cases h : (m s).result with
  | error f =>
    rw [bind_apply_error h]
    exact hm s
  | ok r =>
    obtain ⟨a, rest⟩ := r
    rw [bind_apply_ok h, hm s]
    exact hk a rest

theorem failIf (c : Prop) [Decidable c] (e : ε) : Silent (failIf c e) := by
  intro s
  unfold Metered.failIf
  split <;> rfl

theorem checkLeft (e : ε) (n : ℕ) : Silent (checkLeft e n) := by
  intro s
  rw [checkLeft_apply]
  split <;> rfl

theorem readBytes (eof : ε) (n : ℕ) : Silent (readBytes eof n) := by
  refine (checkLeft eof n).bind fun _ s => ?_
  unfold copy
  split <;> rfl

theorem readPod (eof : ε) (α : Type) [Wire.Pod α] : Silent (readPod eof α) :=
  (readBytes eof _).bind fun _ => pure _

end Silent

/-- `m` records such an event on `s`. -/
def Meets (B : Event → Prop) (m : Reading ε α) (s : List UInt8) : Prop :=
  ∃ e ∈ (m s).events, B e

/-- `m` returns exactly when a word of the language stands in front. -/
def Accepts (m : Reading ε α) (L : List UInt8 → Prop) : Prop :=
  ∀ s rest, (∃ a, (m s).result = .ok (a, rest)) ↔ ∃ bytes, L bytes ∧ s = bytes ++ rest

section Meets

variable {B : Event → Prop} {m : Reading ε α} {k : α → Reading ε β} {s : List UInt8}

theorem meets_bind : Meets B (m >>= k) s ↔
    Meets B m s ∨ ∃ a rest, (m s).result = .ok (a, rest) ∧ Meets B (k a) rest := by
  cases h : (m s).result with
  | error f =>
    simp [Meets, bind_apply_error h]
  | ok r =>
    obtain ⟨a, rest⟩ := r
    simp only [Meets, bind_apply_ok h, mem_append, or_and_right, exists_or]
    refine or_congr_right ?_
    constructor
    · rintro he
      exact ⟨a, rest, rfl, he⟩
    · rintro ⟨a', rest', heq, he⟩
      obtain ⟨rfl, rfl⟩ := Prod.mk.inj (Except.ok.inj heq)
      exact he

/-- A step without events in front. -/
theorem Silent.meets_bind (hm : Silent m) : Meets B (m >>= k) s ↔
    ∃ a rest, (m s).result = .ok (a, rest) ∧ Meets B (k a) rest := by
  rw [Metered.meets_bind, Meets, hm s]
  simp

theorem Silent.not_meets (hm : Silent m) : ¬ Meets B m s := by
  rintro ⟨e, he, -⟩
  rw [hm s] at he
  exact nomatch he

theorem meets_step {m : Reading ε Unit} {k : Unit → Reading ε β} {e : Event}
    (hm : m s = ⟨[e], .ok ((), s)⟩) : Meets B (m >>= k) s ↔ B e ∨ Meets B (k ()) s := by
  rw [meets_bind]
  constructor
  · rintro (⟨e', he', hB⟩ | ⟨a, rest, hr, he⟩)
    · rw [hm] at he'
      obtain rfl := mem_singleton.mp he'
      exact .inl hB
    · rw [hm] at hr
      obtain ⟨rfl, rfl⟩ := Prod.mk.inj (Except.ok.inj hr)
      exact .inr he
  · rintro (hB | he)
    · exact .inl ⟨e, by rw [hm]; exact mem_singleton_self e, hB⟩
    · exact .inr ⟨(), s, by rw [hm], he⟩

/-- A loop meets an event behind some words that its body has accepted. -/
theorem meets_readMany {L : List UInt8 → Prop} (hround : ¬ B .round) (hm : Accepts m L) (n : ℕ) :
    Meets B (readMany m n) s ↔ ∃ (words : List (List UInt8)) (rest : List UInt8),
      words.length < n ∧ (∀ w ∈ words, L w) ∧
      s = words.flatten ++ rest ∧ Meets B m rest := by
  induction n generalizing s with
  | zero =>
    constructor
    · rintro ⟨e, he, -⟩
      exact nomatch he
    · rintro ⟨words, rest, hlt, -⟩
      exact absurd hlt (Nat.not_lt_zero _)
  | succ n ih =>
    have hpure : ∀ (a : α) (as : List α) (t : List UInt8),
        ¬ Meets B (pure (a :: as) : Reading ε (List α)) t :=
      fun _ _ _ => (Silent.pure _).not_meets
    have hstep : Meets B (readMany m (n + 1)) s ↔
        Meets B m s ∨ ∃ bytes rest, L bytes ∧ s = bytes ++ rest ∧ Meets B (readMany m n) rest := by
      rw [readMany, meets_step rfl, or_iff_right hround, meets_bind]
      refine or_congr_right ?_
      constructor
      · rintro ⟨a, rest, ha, he⟩
        obtain ⟨bytes, hL, hs⟩ := (hm s rest).mp ⟨a, ha⟩
        rcases meets_bind.mp he with he | ⟨as, t, -, he⟩
        · exact ⟨bytes, rest, hL, hs, he⟩
        · exact absurd he (hpure a as t)
      · rintro ⟨bytes, rest, hL, hs, he⟩
        obtain ⟨a, ha⟩ := (hm s rest).mpr ⟨bytes, hL, hs⟩
        exact ⟨a, rest, ha, meets_bind.mpr (.inl he)⟩
    rw [hstep]
    constructor
    · rintro (he | ⟨bytes, rest, hL, rfl, he⟩)
      · exact ⟨[], s, Nat.succ_pos n, forall_mem_nil _, rfl, he⟩
      · obtain ⟨words, rest', hlt, hwords, rfl, he'⟩ := ih.mp he
        refine ⟨bytes :: words, rest', Nat.succ_lt_succ hlt,
          forall_mem_cons.mpr ⟨hL, hwords⟩, ?_, he'⟩
        rw [flatten_cons, append_assoc]
    · rintro ⟨words, rest, hlt, hwords, rfl, he⟩
      cases words with
      | nil => exact .inl he
      | cons bytes words =>
        obtain ⟨hL, hwords⟩ := forall_mem_cons.mp hwords
        refine .inr ⟨bytes, words.flatten ++ rest, hL, ?_, ih.mpr ?_⟩
        · rw [flatten_cons, append_assoc]
        · exact ⟨words, rest, Nat.lt_of_succ_lt_succ hlt, hwords, rfl, he⟩

end Meets

end Metered
