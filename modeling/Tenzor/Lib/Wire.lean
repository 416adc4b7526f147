import Tenzor.Lib.Throwing
import Mathlib.Tactic.Ring

/-!
# Byte formats

A reader takes bytes from the front of a buffer or throws. Fixed-width values
are little-endian words; a list is its elements after their number.

## Implementation notes

`Reads p bytes a` says that `p` takes exactly `bytes` and returns `a`, whatever
follows them. `Returns p P` bounds the values of a reader on every input: it
says what cannot come back from a buffer.
-/

namespace Wire

open List

variable {ε : Type*} {α β γ : Type} {n size : ℕ} {bytes : List UInt8} {a : α} {b : β} {c : Prop}
  {e : ε} {enc : α → List UInt8} {xs : List α} {P : α → Prop} {Q : List UInt8 → β → Prop}

/-- The `w` low bytes of `n`, the lowest first. -/
def leBytes : ℕ → ℕ → List UInt8
  | 0, _ => []
  | w + 1, n => UInt8.ofNat n :: leBytes w (n / 256)

def ofLeBytes : List UInt8 → ℕ
  | [] => 0
  | b :: rest => b.toNat + 256 * ofLeBytes rest

@[simp] theorem length_leBytes (w n : ℕ) : (leBytes w n).length = w := by
  induction w generalizing n with
  | zero => rfl
  | succ w ih => rw [leBytes, length_cons, ih]

theorem ofLeBytes_lt (bytes : List UInt8) : ofLeBytes bytes < 256 ^ bytes.length := by
  induction bytes with
  | nil => simp [ofLeBytes]
  | cons b rest ih =>
    have hb := b.toNat_lt
    rw [ofLeBytes, length_cons]
    omega

/-- The word comes back as far as its width goes. -/
theorem ofLeBytes_leBytes (w n : ℕ) : ofLeBytes (leBytes w n) = n % 256 ^ w := by
  induction w generalizing n with
  | zero => simp [leBytes, ofLeBytes, Nat.mod_one]
  | succ w ih =>
    rw [leBytes, ofLeBytes, ih, UInt8.toNat_ofNat', pow_succ' 256 w, Nat.mod_mul]

/-- Bytes are the word that they are. -/
theorem leBytes_ofLeBytes (bytes : List UInt8) : leBytes bytes.length (ofLeBytes bytes) = bytes := by
  induction bytes with
  | nil => rfl
  | cons b rest ih =>
    have hb := b.toNat_lt
    have hlow : UInt8.ofNat (b.toNat + 256 * ofLeBytes rest) = b := by
      rw [← UInt8.toNat_inj, UInt8.toNat_ofNat']
      omega
    have hhigh : (b.toNat + 256 * ofLeBytes rest) / 256 = ofLeBytes rest := by omega
    rw [length_cons, ofLeBytes, leBytes, hlow, hhigh, ih]

/-- Plain values of a fixed width. `ofNat` keeps the low bytes, as a cast does. -/
class Pod (α : Type) where
  width : ℕ
  toNat : α → ℕ
  ofNat : ℕ → α
  toNat_ofNat : ∀ n, toNat (ofNat n) = n % 256 ^ width
  ofNat_toNat : ∀ a, ofNat (toNat a) = a

instance : Pod UInt8 :=
  ⟨1, UInt8.toNat, UInt8.ofNat, fun _ => UInt8.toNat_ofNat', fun _ => UInt8.ofNat_toNat⟩

instance : Pod UInt16 :=
  ⟨2, UInt16.toNat, UInt16.ofNat, fun _ => UInt16.toNat_ofNat', fun _ => UInt16.ofNat_toNat⟩

instance : Pod UInt32 :=
  ⟨4, UInt32.toNat, UInt32.ofNat, fun _ => UInt32.toNat_ofNat', fun _ => UInt32.ofNat_toNat⟩

instance : Pod UInt64 :=
  ⟨8, UInt64.toNat, UInt64.ofNat, fun _ => UInt64.toNat_ofNat', fun _ => UInt64.ofNat_toNat⟩

instance : Pod Int16 :=
  ⟨2, fun i => i.toUInt16.toNat, fun n => (UInt16.ofNat n).toInt16,
    fun _ => UInt16.toNat_ofNat', fun i => by simp⟩

instance : Pod Int32 :=
  ⟨4, fun i => i.toUInt32.toNat, fun n => (UInt32.ofNat n).toInt32,
    fun _ => UInt32.toNat_ofNat', fun i => by simp⟩

instance : Pod Int64 :=
  ⟨8, fun i => i.toUInt64.toNat, fun n => (UInt64.ofNat n).toInt64,
    fun _ => UInt64.toNat_ofNat', fun i => by simp⟩

theorem Pod.toNat_lt [Pod α] (a : α) : Pod.toNat a < 256 ^ Pod.width α := by
  rw [← Pod.ofNat_toNat a, Pod.toNat_ofNat]
  exact Nat.mod_lt _ (Nat.pow_pos (by decide))

theorem Pod.toNat_ofNat_of_lt [Pod α] (h : n < 256 ^ Pod.width α) :
    Pod.toNat (Pod.ofNat n : α) = n := by
  rw [Pod.toNat_ofNat, Nat.mod_eq_of_lt h]

def Reader (ε : Type*) (α : Type) := List UInt8 → Except ε (α × List UInt8)

instance : Monad (Reader ε) where
  pure a s := .ok (a, s)
  bind p k s := p s >>= fun r => k r.1 r.2

def failIf (c : Prop) [Decidable c] (e : ε) : Reader ε Unit := fun s =>
  if c then .error e else .ok ((), s)

/-- The number of bytes left. -/
def remaining : Reader ε ℕ := fun s => .ok (s.length, s)

/-- The next `n` bytes, or `eof`. -/
def readBytes (eof : ε) (n : ℕ) : Reader ε (List UInt8) := fun s =>
  if s.length < n then .error eof else .ok (s.take n, s.drop n)

def readPod (eof : ε) (α : Type) [Pod α] : Reader ε α := do
  let bytes ← readBytes eof (Pod.width α)
  pure (Pod.ofNat (ofLeBytes bytes))

/-- A word whose highest byte comes first. -/
def readBE (eof : ε) (α : Type) [Pod α] : Reader ε α := do
  let bytes ← readBytes eof (Pod.width α)
  pure (Pod.ofNat (ofLeBytes bytes.reverse))

/-- A count of elements of at least `size` bytes fits what is left. -/
def checkCount (e : ε) (n size : ℕ) : Reader ε Unit := do
  let left ← remaining
  failIf (n > left / size) e

def readMany (p : Reader ε α) : ℕ → Reader ε (List α)
  | 0 => pure []
  | n + 1 => do
      let a ← p
      let rest ← readMany p n
      pure (a :: rest)

def appendPod [Pod α] (a : α) : List UInt8 := leBytes (Pod.width α) (Pod.toNat a)

@[simp] theorem length_appendPod [Pod α] (a : α) : (appendPod a).length = Pod.width α :=
  length_leBytes _ _

theorem appendPod_ofNat [Pod α] (h : bytes.length = Pod.width α) :
    appendPod (Pod.ofNat (ofLeBytes bytes) : α) = bytes := by
  rw [appendPod, Pod.toNat_ofNat_of_lt (h ▸ ofLeBytes_lt bytes), ← h, leBytes_ofLeBytes]

def appendBE [Pod α] (a : α) : List UInt8 := (appendPod a).reverse

@[simp] theorem length_appendBE [Pod α] (a : α) : (appendBE a).length = Pod.width α := by
  rw [appendBE, length_reverse, length_appendPod]

/-- A list after its number of elements. -/
def appendCounted (γ : Type) [Pod γ] (enc : α → List UInt8) (xs : List α) : List UInt8 :=
  appendPod (Pod.ofNat xs.length : γ) ++ xs.flatMap enc

def readCounted (eof : ε) (γ : Type) [Pod γ] (tooMany : γ → ε) (size : ℕ) (p : Reader ε α) :
    Reader ε (List α) := do
  let n ← readPod eof γ
  checkCount (tooMany n) (Pod.toNat n) size
  readMany p (Pod.toNat n)

variable {p : Reader ε α} {k : α → Reader ε β}

theorem bind_eq_ok {s : List UInt8} {r : β × List UInt8} :
    (p >>= k) s = .ok r ↔ ∃ a s', p s = .ok (a, s') ∧ k a s' = .ok r := by
  change (p s >>= fun r => k r.1 r.2) = .ok r ↔ _
  rw [Throwing.bind_eq_ok, Prod.exists]

theorem reader_bind_assoc (p : Reader ε α) (k : α → Reader ε β) (l : β → Reader ε γ) :
    (p >>= k) >>= l = p >>= fun a => k a >>= l := by
  funext s
  change ((p s >>= fun r => k r.1 r.2) >>= fun r => l r.1 r.2) =
    p s >>= fun r => k r.1 r.2 >>= fun r => l r.1 r.2
  cases p s <;> rfl

/-- `p` takes exactly `bytes` and returns `a`. -/
def Reads (p : Reader ε α) (bytes : List UInt8) (a : α) : Prop :=
  ∀ rest, p (bytes ++ rest) = .ok (a, rest)

theorem Reads.pure (a : α) : Reads (Pure.pure a : Reader ε α) [] a := fun _ => rfl

theorem Reads.bind {bytes' : List UInt8} (hp : Reads p bytes a) (hk : Reads (k a) bytes' b) :
    Reads (p >>= k) (bytes ++ bytes') b := by
  intro rest
  rw [bind_eq_ok, append_assoc]
  exact ⟨a, bytes' ++ rest, hp _, hk rest⟩

/-- The last field of a record. -/
theorem Reads.map (hp : Reads p bytes a) (f : α → β) :
    Reads (p >>= fun a => Pure.pure (f a)) bytes (f a) := by
  have hpure : Reads (Pure.pure (f a) : Reader ε β) [] (f a) := Reads.pure (f a)
  have h := hp.bind (k := fun a => Pure.pure (f a)) hpure
  rwa [append_nil] at h

theorem Reads.failIf [Decidable c] {k : Unit → Reader ε β} (hc : ¬ c) (hk : Reads (k ()) bytes b) :
    Reads (failIf c e >>= k) bytes b := by
  intro rest
  rw [bind_eq_ok]
  exact ⟨(), bytes ++ rest, if_neg hc, hk rest⟩

theorem Reads.checkCount {k : Unit → Reader ε β} (hsize : 0 < size) (hn : n * size ≤ bytes.length)
    (hk : Reads (k ()) bytes b) : Reads (checkCount e n size >>= k) bytes b := by
  intro rest
  have hle : n ≤ (bytes ++ rest).length / size := by
    rw [Nat.le_div_iff_mul_le hsize, length_append]
    omega
  rw [bind_eq_ok]
  exact ⟨(), bytes ++ rest, if_neg (Nat.not_lt.mpr hle), hk rest⟩

/-- Looking at what is left takes nothing. -/
theorem Reads.remaining {k : ℕ → Reader ε β}
    (hk : ∀ left, bytes.length ≤ left → Reads (k left) bytes b) :
    Reads (remaining >>= k) bytes b := by
  intro rest
  rw [bind_eq_ok]
  refine ⟨(bytes ++ rest).length, bytes ++ rest, rfl, hk _ ?_ rest⟩
  rw [length_append]
  exact Nat.le_add_right _ _

theorem reads_bytes (eof : ε) (bytes : List UInt8) :
    Reads (readBytes eof bytes.length) bytes bytes := by
  intro rest
  rw [readBytes, if_neg (by simp), take_left, drop_left]

theorem ofNat_appendPod [Pod α] (a : α) : (Pod.ofNat (ofLeBytes (appendPod a)) : α) = a := by
  rw [appendPod, ofLeBytes_leBytes, Nat.mod_eq_of_lt (Pod.toNat_lt a), Pod.ofNat_toNat]

theorem reads_pod (eof : ε) [Pod α] (a : α) : Reads (readPod eof α) (appendPod a) a := by
  have hbytes : Reads (readBytes eof (Pod.width α)) (appendPod a) (appendPod a) := by
    have h := reads_bytes eof (appendPod a)
    rwa [length_appendPod] at h
  have h : Reads (readPod eof α) _ _ := hbytes.map fun bytes => (Pod.ofNat (ofLeBytes bytes) : α)
  rwa [ofNat_appendPod] at h

theorem reads_be (eof : ε) [Pod α] (a : α) : Reads (readBE eof α) (appendBE a) a := by
  have hbytes : Reads (readBytes eof (Pod.width α)) (appendBE a) (appendBE a) := by
    have h := reads_bytes eof (appendBE a)
    rwa [length_appendBE] at h
  have h : Reads (readBE eof α) _ _ := hbytes.map fun bytes =>
    (Pod.ofNat (ofLeBytes bytes.reverse) : α)
  rwa [appendBE, reverse_reverse, ofNat_appendPod] at h

/-- Elements whose reading forgets or adds something. -/
theorem reads_manyMap {p : Reader ε β} {f : α → β} (h : ∀ a ∈ xs, Reads p (enc a) (f a)) :
    Reads (readMany p xs.length) (xs.flatMap enc) (xs.map f) := by
  induction xs with
  | nil => exact Reads.pure []
  | cons a rest ih =>
    obtain ⟨ha, hrest⟩ := forall_mem_cons.mp h
    exact ha.bind ((ih hrest).map (f a :: ·))

theorem reads_many (h : ∀ a ∈ xs, Reads p (enc a) a) :
    Reads (readMany p xs.length) (xs.flatMap enc) xs := by
  have hmap : Reads (readMany p xs.length) (xs.flatMap enc) (xs.map id) := reads_manyMap h
  rwa [map_id] at hmap

theorem le_length_flatMap (h : ∀ a ∈ xs, size ≤ (enc a).length) :
    xs.length * size ≤ (xs.flatMap enc).length := by
  induction xs with
  | nil => simp
  | cons a rest ih =>
    obtain ⟨ha, hrest⟩ := forall_mem_cons.mp h
    have hlen := ih hrest
    rw [length_cons, flatMap_cons, length_append, Nat.add_mul]
    omega

theorem reads_counted (eof : ε) [Pod γ] (tooMany : γ → ε) (hsize : 0 < size)
    (h : ∀ a ∈ xs, Reads p (enc a) a ∧ size ≤ (enc a).length)
    (hcount : xs.length < 256 ^ Pod.width γ) :
    Reads (readCounted eof γ tooMany size p) (appendCounted γ enc xs) xs := by
  apply (reads_pod eof _).bind
  rw [Pod.toNat_ofNat_of_lt hcount]
  apply Reads.checkCount hsize (le_length_flatMap fun a ha => (h a ha).2)
  exact reads_many fun a ha => (h a ha).1

/-- Every value that `p` returns meets `P`. -/
def Returns (p : Reader ε α) (P : α → Prop) : Prop := ∀ s a s', p s = .ok (a, s') → P a

theorem Returns.pure (h : P a) : Returns (Pure.pure a : Reader ε α) P := by
  intro s b s' hb
  obtain ⟨rfl, -⟩ := Prod.mk.inj (Except.ok.inj hb)
  exact h

theorem Returns.bind {Q : β → Prop} (hp : Returns p P) (hk : ∀ a, P a → Returns (k a) Q) :
    Returns (p >>= k) Q := by
  intro s b s' h
  obtain ⟨a, s'', ha, hb⟩ := bind_eq_ok.mp h
  exact hk a (hp s a s'' ha) s'' b s' hb

theorem Returns.mono {Q : α → Prop} (hp : Returns p P) (h : ∀ a, P a → Q a) :
    Returns p Q := fun s a s' ha => h a (hp s a s' ha)

theorem returns_true (p : Reader ε α) : Returns p fun _ => True := fun _ _ _ _ => trivial

theorem returns_failIf [Decidable c] (e : ε) : Returns (failIf c e) fun _ => ¬ c := by
  intro s u s' h hc
  rw [failIf, if_pos hc] at h
  cases h

theorem returns_bytes (eof : ε) (n : ℕ) :
    Returns (readBytes eof n) fun bytes => bytes.length = n := by
  intro s bytes s' h
  unfold readBytes at h
  split_ifs at h with hn
  obtain ⟨rfl, -⟩ := Prod.mk.inj (Except.ok.inj h)
  rw [length_take, Nat.min_eq_left (Nat.not_lt.mp hn)]

theorem returns_many (hp : Returns p P) (n : ℕ) :
    Returns (readMany p n) fun xs => xs.length = n ∧ ∀ a ∈ xs, P a := by
  induction n with
  | zero =>
    refine Returns.pure ?_
    simp
  | succ n ih =>
    refine hp.bind fun a ha => ih.bind fun xs hxs => Returns.pure ?_
    exact ⟨congrArg (· + 1) hxs.1, forall_mem_cons.mpr ⟨ha, hxs.2⟩⟩

/-- A count that is read is a word of its width. -/
theorem returns_counted (eof : ε) [Pod γ] (tooMany : γ → ε) (size : ℕ) (hp : Returns p P) :
    Returns (readCounted eof γ tooMany size p) fun xs =>
      xs.length < 256 ^ Pod.width γ ∧ ∀ a ∈ xs, P a := by
  refine (returns_true _).bind fun n _ => (returns_true _).bind fun _ _ => ?_
  refine (returns_many hp _).mono fun xs hxs => ?_
  exact ⟨hxs.1 ▸ Pod.toNat_lt n, hxs.2⟩

/-- `p` fails with `e`, or takes bytes and returns a value that are in the relation `P`. -/
def Splits (e : ε) (p : Reader ε α) (P : List UInt8 → α → Prop) : Prop :=
  ∀ s, p s = .error e ∨ ∃ bytes a rest, p s = .ok (a, rest) ∧ s = bytes ++ rest ∧ P bytes a

theorem Splits.pure {P : List UInt8 → α → Prop} (h : P [] a) :
    Splits e (Pure.pure a) P := fun s => .inr ⟨[], a, s, rfl, rfl, h⟩

theorem Splits.bind {P : List UInt8 → α → Prop} (hp : Splits e p P)
    (hk : ∀ bytes a, P bytes a → Splits e (k a) fun rest b => Q (bytes ++ rest) b) :
    Splits e (p >>= k) Q := by
  intro s
  have hbind : (p >>= k) s = p s >>= fun r => k r.1 r.2 := rfl
  rw [hbind]
  rcases hp s with hr | ⟨bytes, a, rest, hr, rfl, ha⟩
  · rw [hr]
    exact .inl rfl
  · rw [hr]
    rcases hk bytes a ha rest with hr' | ⟨bytes', b, rest', hr', rfl, hb⟩
    · exact .inl hr'
    · exact .inr ⟨bytes ++ bytes', b, rest', hr', (append_assoc ..).symm, hb⟩

theorem Splits.failIf [Decidable c] {k : Unit → Reader ε β} (hk : ¬ c → Splits e (k ()) Q) :
    Splits e (failIf c e >>= k) Q := by
  intro s
  by_cases hc : c
  · refine .inl ?_
    change (Wire.failIf c e s >>= fun r => k r.1 r.2) = _
    rw [Wire.failIf, if_pos hc]
    rfl
  · have hstep : (Wire.failIf c e >>= k) s = k () s := by
      change (Wire.failIf c e s >>= fun r => k r.1 r.2) = _
      rw [Wire.failIf, if_neg hc]
      rfl
    rw [hstep]
    exact hk hc s

theorem splits_bytes (e : ε) (n : ℕ) :
    Splits e (readBytes e n) fun bytes a => a = bytes ∧ bytes.length = n := by
  intro s
  unfold readBytes
  split
  · exact .inl rfl
  · refine .inr ⟨s.take n, s.take n, s.drop n, rfl, (take_append_drop n s).symm, rfl, ?_⟩
    rw [length_take]
    omega

theorem splits_be (e : ε) (α : Type) [Pod α] : Splits e (readBE e α) fun _ _ => True :=
  (splits_bytes e (Pod.width α)).bind fun _ _ _ => Splits.pure trivial

end Wire
