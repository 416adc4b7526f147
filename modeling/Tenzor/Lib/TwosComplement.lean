import Mathlib.Algebra.Order.Ring.Int
import Tenzor.Lib.Wire

/-!
# Two's complement

The signed integer that little-endian bytes denote. The highest bit of the last byte is the sign.
Appending bytes that repeat the sign does not change the integer, and an integer above the first
bytes is zero or minus one exactly when it is made of such bytes.
-/

namespace TwosComplement

variable {low high bytes : List UInt8}

open Wire List

/-- The sign bit of a byte. -/
def highBit (b : UInt8) : Bool := decide (128 ≤ b.toNat)

/-- The sign of the integer. No bytes are zero. -/
def negative (bytes : List UInt8) : Bool := highBit (bytes.getLastD 0)

def signed (bytes : List UInt8) : ℤ :=
  (ofLeBytes bytes : ℤ) - if negative bytes then 256 ^ bytes.length else 0

/-- The byte that repeats the sign. -/
def fill (sign : Bool) : UInt8 := if sign then 255 else 0

/-- The integer that a sign repeated for ever denotes. -/
def extension (sign : Bool) : ℤ := if sign then -1 else 0

@[simp] theorem signed_nil : signed [] = 0 := rfl

theorem signed_singleton (b : UInt8) :
    signed [b] = b.toNat - if highBit b then 256 else 0 := by
  simp [signed, negative, ofLeBytes]

theorem signed_cons (b c : UInt8) (bytes : List UInt8) :
    signed (b :: c :: bytes) = b.toNat + 256 * signed (c :: bytes) := by
  have hsign : negative (b :: c :: bytes) = negative (c :: bytes) := rfl
  simp only [signed, hsign, ofLeBytes, length_cons, pow_succ]
  push_cast
  split <;> ring

theorem ofLeBytes_append (low high : List UInt8) :
    ofLeBytes (low ++ high) = ofLeBytes low + 256 ^ low.length * ofLeBytes high := by
  induction low with
  | nil => simp [ofLeBytes]
  | cons b low ih =>
    rw [cons_append, ofLeBytes, ih, ofLeBytes, length_cons]
    ring

theorem negative_append (hhigh : high ≠ []) : negative (low ++ high) = negative high := by
  rw [negative, negative, getLastD_eq_getLast?, getLastD_eq_getLast?,
    getLast?_append_of_ne_nil _ hhigh]

/-- The first bytes add their unsigned value. -/
theorem signed_append (hhigh : high ≠ []) :
    signed (low ++ high) = ofLeBytes low + 256 ^ low.length * signed high := by
  simp only [signed, negative_append hhigh, ofLeBytes_append, length_append, pow_add]
  push_cast
  split <;> ring

theorem toNat_lt (b : UInt8) : b.toNat < 256 := b.toNat_lt

theorem eq_fill_iff (b : UInt8) (sign : Bool) (h : highBit b = sign) :
    signed [b] = extension sign ↔ b = fill sign := by
  rw [signed_singleton, h, ← UInt8.toNat_inj]
  cases sign
  · simp [extension, fill]
  · simp only [extension, fill, if_true]
    change _ ↔ b.toNat = 255
    omega

/-- An integer is its sign for ever exactly if all its bytes repeat the sign. -/
theorem signed_eq_extension_iff (hne : bytes ≠ []) :
    signed bytes = extension (negative bytes) ↔ ∀ b ∈ bytes, b = fill (negative bytes) := by
  induction bytes with
  | nil => exact absurd rfl hne
  | cons b bytes ih =>
    cases bytes with
    | nil =>
      rw [forall_mem_singleton]
      exact eq_fill_iff b _ rfl
    | cons c bytes =>
      have hb := toNat_lt b
      have hsign : negative (b :: c :: bytes) = negative (c :: bytes) := rfl
      have hrest := ih (cons_ne_nil _ _)
      rw [← hsign] at hrest
      rw [forall_mem_cons, ← hrest, signed_cons, ← UInt8.toNat_inj]
      cases negative (b :: c :: bytes)
      · simp only [extension, fill, Bool.false_eq_true, if_false]
        change _ ↔ b.toNat = 0 ∧ _
        omega
      · simp only [extension, fill, if_true]
        change _ ↔ b.toNat = 255 ∧ _
        omega

/-- The integer has a representation of this many bytes. -/
def Fits (width : ℕ) (x : ℤ) : Prop := -(256 ^ width : ℤ) ≤ 2 * x ∧ 2 * x < 256 ^ width

theorem two_dvd_pow {n : ℕ} (hn : n ≠ 0) : ∃ half : ℕ, 256 ^ n = 2 * half := by
  obtain ⟨m, rfl⟩ := Nat.exists_eq_succ_of_ne_zero hn
  exact ⟨128 * 256 ^ m, by rw [pow_succ]; ring⟩

theorem negative_iff (hne : bytes ≠ []) :
    negative bytes = true ↔ 256 ^ bytes.length ≤ 2 * ofLeBytes bytes := by
  induction bytes with
  | nil => exact absurd rfl hne
  | cons b bytes ih =>
    have hb := toNat_lt b
    cases bytes with
    | nil =>
      simp only [negative, highBit, getLastD_cons, getLastD_nil, decide_eq_true_eq,
        length_singleton, pow_one, ofLeBytes]
      omega
    | cons c bytes =>
      have hsign : negative (b :: c :: bytes) = negative (c :: bytes) := rfl
      have hvalue : ofLeBytes (b :: c :: bytes) = b.toNat + 256 * ofLeBytes (c :: bytes) := rfl
      obtain ⟨half, hhalf⟩ := @two_dvd_pow (c :: bytes).length (by simp)
      have hpow : 256 ^ (b :: c :: bytes).length = 256 * (2 * half) := by
        rw [length_cons, pow_succ, hhalf, mul_comm]
      rw [hsign, ih (cons_ne_nil _ _)]
      omega

theorem signed_neg_iff (bytes : List UInt8) : signed bytes < 0 ↔ negative bytes = true := by
  have hlt : (ofLeBytes bytes : ℤ) < 256 ^ bytes.length := by exact_mod_cast ofLeBytes_lt bytes
  rw [signed]
  split_ifs with hneg
  · exact iff_of_true (by omega) hneg
  · exact iff_of_false (by omega) hneg

theorem fits_signed (hne : bytes ≠ []) : Fits bytes.length (signed bytes) := by
  have hlt : (ofLeBytes bytes : ℤ) < 256 ^ bytes.length := by exact_mod_cast ofLeBytes_lt bytes
  have hsign : negative bytes = true ↔ (256 : ℤ) ^ bytes.length ≤ 2 * ofLeBytes bytes := by
    rw [negative_iff hne]
    exact_mod_cast Iff.rfl
  rw [signed]
  split_ifs with hneg
  · have hle := hsign.mp hneg
    constructor <;> omega
  · have hlow := mt hsign.mpr hneg
    constructor <;> omega

theorem Fits.mono {v w : ℕ} {x : ℤ} (h : Fits v x) (hle : v ≤ w) : Fits w x := by
  have hpow : (256 : ℤ) ^ v ≤ 256 ^ w := pow_le_pow_right₀ (by norm_num) hle
  obtain ⟨hlo, hhi⟩ := h
  constructor <;> omega

/-- Bytes that are more than sign do not fit into the ones before them. -/
theorem fits_append_iff (hlow : low ≠ []) (hhigh : high ≠ []) :
    Fits low.length (signed (low ++ high)) ↔
      (∀ b ∈ high, b = fill (negative high)) ∧ negative low = negative high := by
  have hlt : (ofLeBytes low : ℤ) < 256 ^ low.length := by exact_mod_cast ofLeBytes_lt low
  have hsign : negative low = true ↔ (256 : ℤ) ^ low.length ≤ 2 * ofLeBytes low := by
    rw [negative_iff hlow]
    exact_mod_cast Iff.rfl
  have hneg := signed_neg_iff high
  have hnonneg : (0 : ℤ) ≤ ofLeBytes low := Int.natCast_nonneg _
  rw [← signed_eq_extension_iff hhigh, Fits, signed_append hhigh]
  generalize (256 : ℤ) ^ low.length = width at *
  generalize signed high = y at *
  have hzero : y = 0 ∨ y = -1 ∨ 1 ≤ y ∨ y ≤ -2 := by omega
  rcases hzero with rfl | rfl | hy | hy
  · have hhigh : negative high = false := by simpa using hneg
    rw [hhigh, ← Bool.not_eq_true, hsign]
    simp only [extension, Bool.false_eq_true, if_false, true_and]
    constructor
    · omega
    · intro h
      constructor <;> omega
  · have hhigh : negative high = true := by simpa using hneg
    rw [hhigh, hsign]
    simp only [extension, if_true, true_and]
    constructor
    · omega
    · intro h
      constructor <;> omega
  · have hwide : width ≤ width * y := le_mul_of_one_le_right (by omega) hy
    have hne : y ≠ extension (negative high) := by
      rw [extension]
      split <;> omega
    exact iff_of_false (fun h => by omega) fun h => hne h.1
  · have hwide : width * y ≤ width * (-2) := mul_le_mul_of_nonneg_left hy (by omega)
    have hne : y ≠ extension (negative high) := by
      rw [extension]
      split <;> omega
    exact iff_of_false (fun h => by omega) fun h => hne h.1

/-- What repeats the sign of the bytes before it does not change the integer. -/
theorem signed_append_fill (hhigh : high ≠ []) (hfill : ∀ b ∈ high, b = fill (negative high))
    (hsign : negative low = negative high) : signed (low ++ high) = signed low := by
  rw [signed_append hhigh, (signed_eq_extension_iff hhigh).mpr hfill, ← hsign, signed, extension]
  split <;> ring

theorem highBit_fill (sign : Bool) : highBit (fill sign) = sign := by cases sign <;> rfl

theorem negative_of_fill {sign : Bool} (hne : bytes ≠ []) (h : ∀ b ∈ bytes, b = fill sign) :
    negative bytes = sign := by
  rw [negative, getLastD_eq_getLast?, getLast?_eq_getLast_of_ne_nil hne, Option.getD_some,
    h _ (getLast_mem hne), highBit_fill]

/-- However often the sign is repeated, the integer stays. -/
theorem signed_append_padding {padding : List UInt8}
    (h : ∀ b ∈ padding, b = fill (negative bytes)) : signed (bytes ++ padding) = signed bytes:= by
  by_cases hne : padding = []
  · rw [hne, append_nil]
  · have hsign := negative_of_fill hne h
    exact signed_append_fill hne (hsign.symm ▸ h) hsign.symm

end TwosComplement
