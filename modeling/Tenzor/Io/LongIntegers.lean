import Tenzor.Io.Unpickler
import Tenzor.Lib.TwosComplement

/-!
# Long integers of a pickle program

`LONG1` and `LONG4` have decoders of their own. Each looks at the bytes above the eighth, puts the
first eight into a word and repeats the sign above the last byte of a shorter integer.

## Implementation notes

The arithmetic on `int64_t` is that of 64-bit words.
-/

namespace Tenzor.TorchPickle

variable {val : BitVec 64} {b : UInt8} {n : ℕ} {buf bytes tail rest : List UInt8} {s : Unpickler}

open Throwing Wrap64 TwosComplement List
open Transitions hiding bind_eq_ok

def tooLarge (opcode : String) : Exn :=
  .runtimeError ("torch_pickle: " ++ opcode ++ " integer too large for int64_t")

/-- `buf[i] & 0x80`. -/
def signBitAt (buf : List UInt8) (i : ℕ) : Bool := decide (buf.getD i 0 &&& 0x80 ≠ 0)

def isNegative (buf : List UInt8) : Bool := decide (0 < buf.length) && signBitAt buf (buf.length - 1)

/-- The bytes above the low eight are sign-fill, and bit 63 carries the sign. -/
def checkWide (opcode : String) (buf : List UInt8) : Except Exn Unit :=
  if 8 < buf.length then do
    let fill : UInt8 := if isNegative buf then 0xff else 0x00
    (List.range' 8 (buf.length - 8)).forM fun i =>
      throwIf (buf.getD i 0 ≠ fill) (tooLarge opcode)
    throwIf (isNegative buf ≠ signBitAt buf 7) (tooLarge opcode)
  else pure ()

/-- `val |= static_cast<int64_t>(b) << (8 * i)`. -/
def orByte (val : BitVec 64) (b : UInt8) (i : ℕ) : BitVec 64 :=
  val ||| (BitVec.ofNat 64 b.toNat <<< (8 * i))

def lowBytes (buf : List UInt8) : BitVec 64 :=
  (List.range (min buf.length 8)).foldl (fun val i => orByte val (buf.getD i 0) i) 0

/-- The bytes from the `n`-th to the eighth become ones. -/
def signExtend (n : ℕ) (val : BitVec 64) : BitVec 64 :=
  (List.range' n (8 - n)).foldl (fun val i => orByte val 0xff i) val

def decodeLong1 (buf : List UInt8) : Except Exn Int := do
  checkWide "LONG1" buf
  let val := lowBytes buf
  return (if 0 < buf.length ∧ buf.length < 8 ∧ signBitAt buf (buf.length - 1) = true then
    signExtend buf.length val else val).toInt

def decodeLong4 (buf : List UInt8) : Except Exn Int := do
  checkWide "LONG4" buf
  let val := lowBytes buf
  return (if isNegative buf then signExtend buf.length val else val).toInt

theorem and_sign_eq (b : UInt8) : decide (b &&& 0x80 ≠ 0) = highBit b := by
  obtain ⟨b⟩ := b
  revert b
  decide

theorem toNat_orByte {i : ℕ} (hval : val.toNat < 256 ^ i) (hi : i < 8) :
    (orByte val b i).toNat = val.toNat + 256 ^ i * b.toNat := by
  have hb := toNat_lt b
  have hpow : 256 ^ i = 2 ^ (8 * i) := by rw [pow_mul]; norm_num
  have hbound : 256 ^ i * 256 ≤ 2 ^ 64 := by
    calc
      256 ^ i * 256 = 256 ^ (i + 1) := (pow_succ 256 i).symm
      _ ≤ 256 ^ 8 := Nat.pow_le_pow_right (by decide) hi
  have hsmall : b.toNat < 2 ^ 64 := lt_trans hb (by norm_num)
  have hfits : b.toNat * 256 ^ i < 2 ^ 64 := by nlinarith
  rw [orByte, BitVec.toNat_or, BitVec.toNat_shiftLeft, BitVec.toNat_ofNat,
    Nat.mod_eq_of_lt hsmall, Nat.shiftLeft_eq, ← hpow, Nat.mod_eq_of_lt hfits, hpow, Nat.or_comm,
    ← Nat.shiftLeft_eq, ← Nat.shiftLeft_add_eq_or_of_lt (hpow ▸ hval), Nat.shiftLeft_eq]
  ring

theorem toNat_lowBytes (buf : List UInt8) : (lowBytes buf).toNat = Wire.ofLeBytes (buf.take 8) := by
  have hloop : ∀ k ≤ min buf.length 8,
      ((List.range k).foldl (fun val i => orByte val (buf.getD i 0) i) 0).toNat =
        Wire.ofLeBytes (buf.take k) := by
    intro k
    induction k with
    | zero => exact fun _ => rfl
    | succ k ih =>
      intro hk
      have hlt : k < buf.length := by omega
      have hlen : (buf.take k).length = k := length_take_of_le (by omega)
      have hsmall := Wire.ofLeBytes_lt (buf.take k)
      rw [hlen, ← ih (by omega)] at hsmall
      rw [range_succ, List.foldl_concat, toNat_orByte hsmall (by omega), ih (by omega),
        take_succ_eq_append_getElem hlt, ofLeBytes_append, hlen,
        getD_eq_getElem _ _ hlt]
      simp [Wire.ofLeBytes]
  rw [lowBytes, hloop _ le_rfl]
  congr 1
  rw [Nat.min_comm]
  exact take_eq_take_min.symm

theorem signExtend_of_le (hn : 8 ≤ n) : signExtend n val = val := by
  rw [signExtend, Nat.sub_eq_zero_of_le hn]
  rfl

theorem toNat_signExtend (hn : n ≤ 8) (hval : val.toNat < 256 ^ n) :
    (signExtend n val).toNat = val.toNat + (256 ^ 8 - 256 ^ n) := by
  have hloop : ∀ k, n + k ≤ 8 →
      ((List.range' n k).foldl (fun val i => orByte val 0xff i) val).toNat + 256 ^ n =
        val.toNat + 256 ^ (n + k) := by
    intro k
    induction k with
    | zero => exact fun _ => rfl
    | succ k ih =>
      intro hk
      rw [range'_concat, List.foldl_concat, one_mul, toNat_orByte (by omega) (by omega)]
      change _ + 256 ^ (n + k) * 255 + _ = _
      have hpow : 256 ^ (n + (k + 1)) = 256 ^ (n + k) * 256 := by rw [← add_assoc, pow_succ]
      omega
  have hall := hloop (8 - n) (by omega)
  have hpow : 256 ^ n ≤ 256 ^ 8 := Nat.pow_le_pow_right (by decide) hn
  rw [Nat.add_sub_cancel' hn] at hall
  rw [signExtend]
  omega

theorem signBitAt_eq (buf : List UInt8) (i : ℕ) : signBitAt buf i = highBit (buf.getD i 0) :=
  and_sign_eq _

theorem negative_eq_getD (hne : buf ≠ []) :
    negative buf = highBit (buf.getD (buf.length - 1) 0) := by
  rw [negative, getLastD_eq_getLast?, getLast?_eq_getElem?, getD_eq_getElem?_getD]

theorem isNegative_eq_negative (buf : List UInt8) : isNegative buf = negative buf := by
  rw [isNegative, signBitAt_eq]
  cases buf with
  | nil => rfl
  | cons b buf =>
    rw [negative_eq_getD (cons_ne_nil b buf)]
    simp

theorem inInt64_iff_fits (x : ℤ) : InInt64 x ↔ Fits 8 x := by
  simp only [InInt64, int64Min, int64Max, Fits]
  omega

theorem inInt64_signed (hlen : buf.length ≤ 8) : InInt64 (signed buf) := by
  cases buf with
  | nil => decide
  | cons b buf => exact (inInt64_iff_fits _).mpr ((fits_signed (cons_ne_nil b buf)).mono hlen)

theorem drop_eq_map_getD (buf : List UInt8) (n : ℕ) :
    buf.drop n = (List.range' n (buf.length - n)).map fun i => buf.getD i 0 := by
  apply ext_getElem
  · simp
  · intro i hi hi'
    rw [length_drop] at hi
    rw [getElem_drop, getElem_map, getElem_range', one_mul,
      getD_eq_getElem _ _ (by omega)]

theorem exists_ne_fill_iff (buf : List UInt8) (fill : UInt8) :
    (∃ i ∈ List.range' 8 (buf.length - 8), buf.getD i 0 ≠ fill) ↔ ¬ ∀ b ∈ buf.drop 8, b = fill := by
  rw [drop_eq_map_getD, forall_mem_map]
  simp only [not_forall, exists_prop]

theorem parts_of_wide (hlen : 8 < buf.length) :
    buf.take 8 ≠ [] ∧ buf.drop 8 ≠ [] ∧ negative (buf.drop 8) = negative buf := by
  have hlow : buf.take 8 ≠ [] := by
    rw [ne_eq, take_eq_nil_iff, ← length_eq_zero_iff]
    omega
  have hhigh : buf.drop 8 ≠ [] := by
    rw [ne_eq, drop_eq_nil_iff]
    omega
  have hsign : negative (buf.drop 8) = negative buf := by
    rw [← negative_append hhigh, take_append_drop]
  exact ⟨hlow, hhigh, hsign⟩

/-- What does not fit is what the checks find. -/
theorem not_inInt64_iff (hlen : 8 < buf.length) :
    ¬ InInt64 (signed buf) ↔
      (∃ i ∈ List.range' 8 (buf.length - 8), buf.getD i 0 ≠ fill (negative buf)) ∨
        negative buf ≠ signBitAt buf 7 := by
  obtain ⟨hlow, hhigh, hsign⟩ := parts_of_wide hlen
  have hwidth : (buf.take 8).length = 8 := length_take_of_le hlen.le
  have hseven : negative (buf.take 8) = signBitAt buf 7 := by
    rw [negative_eq_getD hlow, hwidth, signBitAt_eq, getD_eq_getElem?_getD,
      getElem?_take_of_lt (by decide), getD_eq_getElem?_getD]
  have hfits := fits_append_iff hlow hhigh
  rw [take_append_drop, hwidth, hsign, hseven] at hfits
  rw [inInt64_iff_fits, hfits, exists_ne_fill_iff, not_and_or, ne_comm]

theorem checkWide_eq (opcode : String) (buf : List UInt8) :
    checkWide opcode buf = throwIf (¬ InInt64 (signed buf)) (tooLarge opcode) := by
  by_cases hlen : 8 < buf.length
  · calc
      checkWide opcode buf =
          ((List.range' 8 (buf.length - 8)).forM fun i =>
            throwIf (buf.getD i 0 ≠ fill (isNegative buf)) (tooLarge opcode)) >>= fun _ =>
              throwIf (isNegative buf ≠ signBitAt buf 7) (tooLarge opcode) := if_pos hlen
      _ = throwIf (¬ InInt64 (signed buf)) (tooLarge opcode) := by
        rw [isNegative_eq_negative, forM_throwIf, throwIf_bind_throwIf]
        exact throwIf_congr (not_inInt64_iff hlen).symm
  · calc
      checkWide opcode buf = .ok () := if_neg hlen
      _ = throwIf (¬ InInt64 (signed buf)) (tooLarge opcode) :=
        (throwIf_of_not (not_not.mpr (inInt64_signed (by omega)))).symm

/-- The low bytes keep the sign and the integer. -/
theorem signed_take (h : InInt64 (signed buf)) :
    signed (buf.take 8) = signed buf ∧ negative (buf.take 8) = negative buf := by
  by_cases hlen : 8 < buf.length
  · obtain ⟨hlow, hhigh, hsign⟩ := parts_of_wide hlen
    have hfits := (fits_append_iff hlow hhigh).mp
    rw [take_append_drop, length_take_of_le hlen.le] at hfits
    obtain ⟨hfill, hsame⟩ := hfits ((inInt64_iff_fits _).mp h)
    have hvalue := signed_append_fill hhigh hfill hsame
    rw [take_append_drop] at hvalue
    exact ⟨hvalue.symm, hsame.trans hsign⟩
  · rw [take_of_length_le (by omega)]
    exact ⟨rfl, rfl⟩

theorem toInt_word {x : ℤ} (h : InInt64 x)
    (hval : (val.toNat : ℤ) = x + if x < 0 then 256 ^ 8 else 0) : val.toInt = x := by
  simp only [InInt64, int64Min, int64Max] at h
  rw [BitVec.toInt_eq_toNat_cond]
  split_ifs at hval ⊢ <;> omega

theorem toNat_signExtend_lowBytes (buf : List UInt8) :
    (signExtend buf.length (lowBytes buf)).toNat + 256 ^ (buf.take 8).length =
      Wire.ofLeBytes (buf.take 8) + 256 ^ 8 := by
  have hlt := Wire.ofLeBytes_lt (buf.take 8)
  rw [← toNat_lowBytes] at hlt ⊢
  by_cases hlen : buf.length ≤ 8
  · rw [length_take, Nat.min_eq_right hlen] at hlt ⊢
    have hpow : 256 ^ buf.length ≤ 256 ^ 8 := Nat.pow_le_pow_right (by decide) hlen
    rw [toNat_signExtend hlen hlt]
    omega
  · rw [signExtend_of_le (by omega), length_take_of_le (by omega)]

/-- The word that is read, with the bytes above a short negative integer filled. -/
theorem extended_eq (h : InInt64 (signed buf)) :
    (if negative buf then signExtend buf.length (lowBytes buf) else lowBytes buf).toInt =
      signed buf := by
  obtain ⟨hvalue, hsign⟩ := signed_take h
  have hneg := signed_neg_iff buf
  rw [signed, hsign] at hvalue
  apply toInt_word h
  split_ifs with hn hlow hlow
  · have hextended : (((signExtend buf.length (lowBytes buf)).toNat + 256 ^ (buf.take 8).length : ℕ)
        : ℤ) = (Wire.ofLeBytes (buf.take 8) + 256 ^ 8 : ℕ) :=
      congrArg Nat.cast (toNat_signExtend_lowBytes buf)
    push_cast at hextended
    omega
  · exact absurd (hneg.mpr hn) hlow
  · exact absurd (hneg.mp hlow) hn
  · rw [if_neg hn] at hvalue
    rw [toNat_lowBytes]
    omega

theorem decodeLong4_eq (buf : List UInt8) :
    decodeLong4 buf =
      if InInt64 (signed buf) then .ok (signed buf) else .error (tooLarge "LONG4") := by
  rw [decodeLong4, checkWide_eq, isNegative_eq_negative]
  by_cases h : InInt64 (signed buf)
  · rw [throwIf_of_not (not_not.mpr h), if_pos h]
    exact congrArg Except.ok (extended_eq h)
  · rw [throwIf, if_pos h, if_neg h]
    rfl

/-- From eight bytes on there is nothing to fill. -/
theorem extended_short (buf : List UInt8) (val : BitVec 64) :
    (if 0 < buf.length ∧ buf.length < 8 ∧ signBitAt buf (buf.length - 1) = true then
      signExtend buf.length val else val) =
      if isNegative buf then signExtend buf.length val else val := by
  by_cases hlen : buf.length < 8
  · simp [isNegative, hlen]
  · rw [signExtend_of_le (by omega), ite_self, ite_self]

theorem decodeLong1_eq (buf : List UInt8) :
    decodeLong1 buf =
      if InInt64 (signed buf) then .ok (signed buf) else .error (tooLarge "LONG1") := by
  rw [decodeLong1, checkWide_eq]
  dsimp only
  rw [extended_short, isNegative_eq_negative]
  by_cases h : InInt64 (signed buf)
  · rw [throwIf_of_not (not_not.mpr h), if_pos h]
    exact congrArg Except.ok (extended_eq h)
  · rw [throwIf, if_pos h, if_neg h]
    rfl

theorem wrap64_low (h : InInt64 (signed buf)) :
    wrap64 (if negative buf ∧ buf.length < 8 then
      (Wire.ofLeBytes (buf.take 8) : ℤ) - 256 ^ buf.length else Wire.ofLeBytes (buf.take 8)) =
      signed buf := by
  obtain ⟨hvalue, hsign⟩ := signed_take h
  rw [signed, hsign] at hvalue
  split_ifs with hshort
  · rw [if_pos hshort.1, take_of_length_le hshort.2.le] at hvalue
    rw [take_of_length_le hshort.2.le, hvalue, wrap64_of_inInt64 h]
  · by_cases hn : negative buf = true
    · have hlen : (buf.take 8).length = 8 := length_take_of_le
        (not_lt.mp fun hlt => hshort ⟨hn, hlt⟩)
      rw [if_pos hn, hlen] at hvalue
      rw [← wrap64_of_inInt64 h, ← hvalue]
      exact (Int.sub_bmod_right _ 18446744073709551616).symm
    · rw [if_neg hn, sub_zero] at hvalue
      rw [hvalue, wrap64_of_inInt64 h]

theorem longValue_eq_signed (opcode : String) (buf : List UInt8) :
    longValue opcode buf =
      liftM (if InInt64 (signed buf) then .ok (signed buf) else .error (tooLarge opcode) :
        Except Exn ℤ) := by
  have hfill : (buf.drop 8).any (· ≠ fill (negative buf)) = true ↔
      ∃ i ∈ List.range' 8 (buf.length - 8), buf.getD i 0 ≠ fill (negative buf) := by
    rw [exists_ne_fill_iff, any_eq_true]
    simp only [decide_eq_true_eq, not_forall, exists_prop]
  have hwide : ¬ InInt64 (signed buf) ↔
      (8 < buf.length ∧ (buf.drop 8).any (· ≠ fill (negative buf)) = true) ∨
        (8 < buf.length ∧ negative buf ≠ highBit (buf.getD 7 0)) := by
    rw [← and_or_left, hfill, ← signBitAt_eq]
    constructor
    · intro h
      have hlen : 8 < buf.length := not_le.mp fun hle => h (inInt64_signed hle)
      exact ⟨hlen, (not_inInt64_iff hlen).mp h⟩
    · rintro ⟨hlen, h⟩
      exact (not_inInt64_iff hlen).mpr h
  change (if 8 < buf.length ∧ (buf.drop 8).any (· ≠ fill (negative buf)) = true then _
    else if 8 < buf.length ∧ negative buf ≠ highBit (buf.getD 7 0) then _
    else pure (wrap64 (if negative buf ∧ buf.length < 8 then _ else _))) = _
  by_cases h : InInt64 (signed buf)
  · have hno := mt hwide.mpr (not_not.mpr h)
    rw [not_or] at hno
    rw [if_neg hno.1, if_neg hno.2, wrap64_low h, if_pos h]
    rfl
  · rw [if_neg h]
    rcases hwide.mp h with hf | hs
    · rw [if_pos hf]
      rfl
    · rw [if_pos hs, ite_self]
      rfl

/-- The machine after an integer has been read up to `tail`. -/
def pushed (value : ℤ) (tail : List UInt8) (s : Unpickler) : Unpickler where
  rest := tail
  heap := Function.update s.heap s.next (.int value)
  next := s.next + 1
  stack := s.next :: s.stack
  memo := s.memo
  memoNext := s.memoNext
  links := s.links

theorem readBytes_append (eof : String) (h : s.rest = bytes ++ tail) :
    readBytes eof bytes.length s = .ok (bytes, { s with rest := tail }) := by
  have hlen : ¬ s.rest.length < bytes.length := by simp [h]
  change (if s.rest.length < bytes.length then fail eof else do
    set { s with rest := s.rest.drop bytes.length }
    pure (s.rest.take bytes.length) : Machine (List UInt8)) s = _
  rw [if_neg hlen, h, take_left, drop_left]
  rfl

/-- What follows a size that has been read. -/
theorem sized_apply {size : Machine ℕ} (eof opcode : String)
    (hsize : size s = .ok (buf.length, { s with rest := buf ++ tail })) :
    (do
      let n ← size
      let buf ← readBytes eof n
      let value ← longValue opcode buf
      push (.int value) : Machine Unit) s =
      if InInt64 (signed buf) then .ok ((), pushed (signed buf) tail s)
      else .error (tooLarge opcode) := by
  rw [Transitions.bind_apply_ok hsize, Transitions.bind_apply_ok (readBytes_append eof rfl),
    longValue_eq_signed]
  split_ifs
  · rfl
  · rfl

theorem readU8_cons (h : s.rest = b :: rest) : readU8 s = .ok (b.toNat, { s with rest }) := by
  have hbyte : readByte s = .ok (b, { s with rest }) := by
    cases s
    obtain rfl := h
    rfl
  exact Transitions.bind_apply_ok hbyte

theorem readLe_append (hlen : bytes.length = n) (h : s.rest = bytes ++ rest) :
    readLe n s = .ok (Wire.ofLeBytes bytes, { s with rest }) := by
  subst hlen
  exact Transitions.bind_apply_ok (readBytes_append "read past EOF" h)

theorem handleOp_of_find {zip : ZipReader} {archivePrefix : Lite.Text} {op : UInt8}
    {e : UInt8 × Opcode} (hfind : opcodes.find? (fun e => e.1 = op) = some e) (hstop : e.2 ≠ .stop)
    (s : Unpickler) :
    handleOp zip archivePrefix op s =
      (execute zip archivePrefix e.2 s >>= fun x => .ok (false, x.2)) := by
  rw [handleOp, hfind]
  exact congrFun (if_neg hstop) s

/-- Both opcodes push the integer that the bytes denote, or throw if `int64_t` does not hold it. -/
theorem handleOp_long (zip : ZipReader) (archivePrefix : Lite.Text) (buf tail : List UInt8)
    (s : Unpickler) :
    (buf.length < 256 → s.rest = Wire.leBytes 1 buf.length ++ (buf ++ tail) →
      handleOp zip archivePrefix 0x8a s =
        if InInt64 (signed buf) then .ok (false, pushed (signed buf) tail s)
        else .error (tooLarge "LONG1")) ∧
    (buf.length < 256 ^ 4 → s.rest = Wire.leBytes 4 buf.length ++ (buf ++ tail) →
      handleOp zip archivePrefix 0x8b s =
        if InInt64 (signed buf) then .ok (false, pushed (signed buf) tail s)
        else .error (tooLarge "LONG4")) ∧
    decodeLong1 buf =
      (if InInt64 (signed buf) then .ok (signed buf) else .error (tooLarge "LONG1")) ∧
    decodeLong4 buf =
      (if InInt64 (signed buf) then .ok (signed buf) else .error (tooLarge "LONG4")) ∧
    (∀ padding, (∀ b ∈ padding, b = fill (negative buf)) → signed (buf ++ padding) = signed buf) ∧
    signed [] = 0 := by
  refine ⟨?_, ?_, decodeLong1_eq buf, decodeLong4_eq buf, fun _ => signed_append_padding, signed_nil⟩
  · intro hlen hrest
    have hsize : readU8 s = .ok (buf.length, { s with rest := buf ++ tail }) := by
      have hbyte : (UInt8.ofNat buf.length).toNat = buf.length := UInt8.toNat_ofNat_of_lt' hlen
      rw [readU8_cons hrest, hbyte]
      rfl
    have hrun : execute zip archivePrefix .long1 s = _ := sized_apply "read past EOF" "LONG1" hsize
    rw [handleOp_of_find (e := (0x8a, .long1)) rfl (by decide), hrun]
    split_ifs <;> rfl
  · intro hlen hrest
    have hsize : readLe 4 s = .ok (buf.length, { s with rest := buf ++ tail }) := by
      rw [readLe_append (Wire.length_leBytes 4 _) hrest, Wire.ofLeBytes_leBytes, Nat.mod_eq_of_lt hlen]
    have hrun : execute zip archivePrefix .long4 s = _ :=
      sized_apply "LONG4 length past EOF" "LONG4" hsize
    rw [handleOp_of_find (e := (0x8b, .long4)) rfl (by decide), hrun]
    split_ifs <;> rfl

theorem handleOp_long_minus_two :
    handleOp ⟨[]⟩ [] 0x8a (start [2, 0xfe, 0xff, 46]) =
      .ok (false, pushed (-2) [46] (start [2, 0xfe, 0xff, 46])) ∧
    handleOp ⟨[]⟩ [] 0x8b (start [2, 0, 0, 0, 0xfe, 0xff, 46]) =
      .ok (false, pushed (-2) [46] (start [2, 0, 0, 0, 0xfe, 0xff, 46])) := by
  have h1 := handleOp_long ⟨[]⟩ [] [0xfe, 0xff] [46] (start [2, 0xfe, 0xff, 46])
  have h4 := handleOp_long ⟨[]⟩ [] [0xfe, 0xff] [46] (start [2, 0, 0, 0, 0xfe, 0xff, 46])
  have hsigned : signed [0xfe, 0xff] = -2 := by decide
  exact ⟨h1.1 (by decide) rfl, h4.2.1 (by decide) rfl⟩

end Tenzor.TorchPickle
