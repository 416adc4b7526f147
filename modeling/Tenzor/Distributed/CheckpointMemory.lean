import Tenzor.Distributed.CheckpointFormat
import Tenzor.Nn.SerializerMemory

/-!
# What reading a shard file reserves

`deserialize_state` bounds names and dimensions by what is left of the file, and the products of
the dimensions by `int64_t`. It then makes the tensor and only afterwards compares its size with
the recorded one and with what is left.

## Implementation notes

The size of the vector of dimensions is compared in words of 64 bits; one that wraps is beyond the
largest vector, whose `length_error` is written as an `invalidArgument`.
-/

namespace Tenzor.Checkpoint

open Wrap64 Declared List
open Nat (zero_le)
open Wire (appendPod)

namespace Accounted

open Metered

def readInt64 : Reading Exn ℤ := do
  let n ← readPod truncated Int64
  pure n.toInt

def readSpec (hasShardMeta : Bool) (name : Name) (ndim : ℕ) : Reading Exn ShardSpec :=
  if hasShardMeta then do
    let flag ← readPod truncated UInt8
    let dim ← readInt64
    failIf (flag ≠ 0 ∧ ndim = 0) (nameError "tensor " name " marked sharded but has 0 dims")
    failIf (flag ≠ 0 ∧ (dim < 0 ∨ (ndim : ℤ) ≤ dim))
      (ckptError ("invalid shard dim " ++ toString dim ++ " for tensor '" ++ name.text ++
        "' with " ++ toString ndim ++ " dims"))
    pure { sharded := flag ≠ 0, dim := dim }
  else pure {}

def readName : Reading Exn Name := do
  let nameLen ← readInt64
  let left ← unread
  failIf (nameLen < 0 ∨ left < nameLen.toNat) (ckptError "invalid or truncated tensor name")
  demand nameLen.toNat
  copy nameLen.toNat

/-- The vector of dimensions takes eight bytes for each. -/
def readShape (name : Name) : Reading Exn (List Int × Int) := do
  let ndim ← readInt64
  let left ← unread
  failIf (ndim < 0 ∨ left < ndim.toNat * 8 % 18446744073709551616)
    (nameError "invalid or truncated tensor shape for " name "")
  failIf (1152921504606846975 < ndim.toNat)
    (.invalidArgument "cannot create std::vector larger than max_size()")
  demand (ndim.toNat * 8)
  Declared.readDims truncated (nameError "negative dimension in shape for " name "")
    (nameError "tensor element count overflow for " name "") 1 ndim.toNat

/-- The tensor is made and filled. -/
def readData (name : Name) (dims : List Int × Int) (dtype : DType) (dataBytes : ℤ) :
    Reading Exn (List UInt8) := do
  let _ ← makeTensor dims.1 dtype
  failIf (int64Max / dtypeSize dtype < dims.2)
    (nameError "tensor byte size overflow for " name "")
  failIf (dataBytes ≠ dims.2 * dtypeSize dtype)
    (nameError "data size mismatch for " name (" (expected " ++
      toString (dims.2 * dtypeSize dtype) ++ ", got " ++ toString dataBytes ++ ")"))
  checkLeft (nameError "truncated checkpoint data for " name "") dataBytes.toNat
  copy dataBytes.toNat

def readEntry (hasShardMeta : Bool) : Reading Exn (Name × Blob × ShardSpec) := do
  let name ← readName
  let dims ← readShape name
  let raw ← readPod truncated UInt32
  let dtype ← ofExcept (checkedDtype raw name)
  let spec ← readSpec hasShardMeta name dims.1.length
  let dataBytes ← readInt64
  let data ← readData name dims dtype dataBytes
  pure (name, { shape := dims.1.map Int.toNat, dtype := dtype, data := data }, spec)

def readState : Reading Exn ShardContents := do
  let m ← readPod truncated UInt32
  failIf (m ≠ magic) (ckptError "invalid checkpoint magic number")
  let v ← readPod truncated UInt32
  failIf (v ≠ version ∧ v ≠ versionLegacyNoShardMeta)
    (ckptError ("unsupported checkpoint version " ++ toString v.toNat))
  let worldSize ← readInt64
  let numEntries ← readInt64
  failIf (numEntries < 0) (ckptError "negative entry count in checkpoint")
  let entries ← readMany (readEntry (version ≤ v)) numEntries.toNat
  pure
    { tensors := entries.foldl (fun m e => m.insert e.1 e.2.1) ∅
      worldSize := worldSize
      version := v
      shardSpecs := entries.foldl (fun m e => m.insert e.1 e.2.2) ∅ }

end Accounted

section Refines

open Metered (Erases Refines)

theorem erases_readInt64 : Erases Accounted.readInt64 readInt64 :=
  (Erases.readPod truncated Int64).bind fun _ => Erases.pure _

theorem erases_readSpec (hasShardMeta : Bool) (name : Name) (ndim : ℕ) :
    Erases (Accounted.readSpec hasShardMeta name ndim) (readSpec hasShardMeta name ndim) := by
  unfold Accounted.readSpec readSpec
  split
  · exact (Erases.readPod truncated UInt8).bind fun _ => erases_readInt64.bind fun _ =>
      (Erases.failIf _ _).bind fun _ => (Erases.failIf _ _).bind fun _ => Erases.pure _
  · exact Erases.pure _

theorem erases_ofExcept {α : Type} (x : Except Exn α) :
    Erases (Metered.ofExcept x) (liftExcept x) := by
  intro s
  cases x with
  | error e => rfl
  | ok a => rfl

/-- The dimensions and their product are not negative. -/
structure SameDims (dims : List Int × Int) (dims' : List ℕ × ℕ) : Prop where
  shape : dims'.1 = dims.1.map Int.toNat
  numel : (dims'.2 : Int) = dims.2

theorem readDims_same (name : Name) (ndim : ℕ) {n : ℕ} {s rest : List UInt8}
    {dims : List Int × Int}
    (h : (Declared.readDims truncated (nameError "negative dimension in shape for " name "")
      (nameError "tensor element count overflow for " name "") n ndim s).result =
        .ok (dims, rest)) :
    ∃ dims', readDims name ndim n s = .ok (dims', rest) ∧ SameDims dims dims' := by
  induction ndim generalizing n s dims with
  | zero =>
    obtain ⟨rfl, rfl⟩ := Prod.mk.inj (Metered.pure_result_ok.mp h)
    exact ⟨([], n), rfl, rfl, rfl⟩
  | succ ndim ih =>
    simp only [Declared.readDims, Metered.bind_result_ok, Metered.round_result_ok,
      Metered.failIf_result_ok, Metered.pure_result_ok] at h
    obtain ⟨_, _, hmid, word, mid, hword, _, _, ⟨hneg, h⟩, _, _, ⟨hover, h'⟩, tail, last, htail,
      hr⟩ := h
    obtain rfl := (Prod.mk.inj hmid).2
    obtain rfl := (Prod.mk.inj h).2
    obtain rfl := (Prod.mk.inj h').2
    obtain ⟨rfl, rfl⟩ := Prod.mk.inj hr
    have hdim : (word.toInt.toNat : Int) = word.toInt := Int.toNat_of_nonneg (not_lt.mp hneg)
    have hmul : (n : Int) * word.toInt = (n * word.toInt.toNat : ℕ) := by
      rw [Nat.cast_mul, hdim]
    rw [hmul] at htail
    obtain ⟨tail', htail', hsame⟩ := ih htail
    have hread : readInt64 s = .ok (word.toInt, mid) :=
      erases_readInt64.refines s _ (Metered.bind_result_ok.mpr ⟨word, mid, hword, rfl⟩)
    have hover' : ¬ (word.toInt ≠ 0 ∧ maxInt64 / word.toInt.toNat < n) := by
      rintro ⟨hne, hlt⟩
      refine hover ⟨hne, ?_⟩
      rw [← hdim]
      change (9223372036854775807 : Int) / _ < _
      exact_mod_cast hlt
    refine ⟨(word.toInt.toNat :: tail'.1, tail'.2), ?_, ?_, hsame.numel⟩
    · simp only [readDims, Wire.bind_eq_ok]
      exact ⟨word.toInt, mid, hread, (), mid, if_neg hneg, (), mid, if_neg hover', tail', last,
        htail', rfl⟩
    · rw [map_cons, hsame.shape]

theorem refines_readEntry (hasShardMeta : Bool) :
    Refines (Accounted.readEntry hasShardMeta) (readEntry hasShardMeta) := by
  have hdemand : ∀ (n : ℕ) (s : List UInt8) (a : Unit) (rest : List UInt8),
      (Metered.demand n s : Metered.Run Exn Unit).result = .ok (a, rest) → rest = s :=
    fun n s a rest h => (Prod.mk.inj (Metered.demand_result_ok.mp h)).2.symm
  simp only [Accounted.readEntry, Accounted.readName, Accounted.readShape, Accounted.readData,
    Metered.checkLeft, Metered.bind_assoc]
  refine erases_readInt64.refines.bind fun nameLen => Erases.unread.refines.bind fun left =>
    Refines.failIf id fun _ => Refines.step (hdemand _) fun _ => (Refines.copy _ _).bind fun name =>
      erases_readInt64.refines.bind fun ndim => Erases.unread.refines.bind fun left => ?_
  -- the vector that would be too large is refused before its size matters
  have hcheck : ∀ {β : Type} {m : Metered.Reading Exn β} {p : Wire.Reader Exn β}, Refines m p →
      Refines (do
        Metered.failIf (ndim < 0 ∨ left < ndim.toNat * 8 % 18446744073709551616)
          (nameError "invalid or truncated tensor shape for " name "")
        Metered.failIf (1152921504606846975 < ndim.toNat)
          (.invalidArgument "cannot create std::vector larger than max_size()")
        m) (do
        Wire.failIf (ndim < 0 ∨ left < ndim.toNat * 8)
          (nameError "invalid or truncated tensor shape for " name "")
        p) := by
    intro β m p hm s r h
    obtain ⟨_, _, h₁, h⟩ := Metered.bind_result_ok.mp h
    obtain ⟨_, _, h₂, h⟩ := Metered.bind_result_ok.mp h
    obtain ⟨hsmall, hs⟩ := Metered.failIf_result_ok.mp h₁
    obtain ⟨hmax, hs'⟩ := Metered.failIf_result_ok.mp h₂
    obtain rfl := (Prod.mk.inj hs).2
    obtain rfl := (Prod.mk.inj hs').2
    refine Wire.bind_eq_ok.mpr ⟨(), s, if_neg (by omega), hm s r h⟩
  refine hcheck <| Refines.step (hdemand _) fun _ =>
    Refines.bind_of (fun s dims rest h => readDims_same name ndim.toNat h)
      fun dims dims' hsame => (Erases.readPod truncated UInt32).refines.bind fun raw =>
        (erases_ofExcept _).refines.bind fun dtype => ?_
  have hlength : dims'.1.length = dims.1.length := by
    rw [hsame.shape, length_map]
  rw [hlength, ← hsame.numel, ← hsame.shape]
  refine (erases_readSpec hasShardMeta name _).refines.bind fun spec =>
    erases_readInt64.refines.bind fun dataBytes =>
      Refines.step (fun s t rest h => (makeTensor_ok.mp h).2.symm) fun _ => ?_
  refine Refines.failIf (fun hle hlt => hle ?_) fun _ => Refines.failIf id fun _ =>
    Erases.unread.refines.bind fun left => Refines.failIf id fun _ =>
      (Refines.copy _ _).bind fun data => (Erases.pure _).refines
  change (9223372036854775807 : Int) / _ < _
  exact_mod_cast hlt

theorem refines_readState : Refines Accounted.readState readState :=
  (Erases.readPod truncated UInt32).refines.bind fun _ => Refines.failIf id fun _ =>
    (Erases.readPod truncated UInt32).refines.bind fun _ => Refines.failIf id fun _ =>
      erases_readInt64.refines.bind fun _ => erases_readInt64.refines.bind fun num =>
        Refines.failIf id fun _ => ((refines_readEntry _).readMany num.toNat).bind fun _ =>
          (Erases.pure _).refines

/-- What is read with an account is what `deserialize_state` returns. -/
theorem deserializeState_of_accounted {data rest : List UInt8} {contents : ShardContents}
    (h : (Accounted.readState data).result = .ok (contents, rest)) :
    deserializeState data = .ok contents := by
  rw [deserializeState, refines_readState data _ h]
  rfl

end Refines

/-- The sharding fields of a tensor with so many dimensions. -/
def IsSpec (hasShardMeta : Bool) (ndim : ℕ) (bytes : List UInt8) : Prop :=
  if hasShardMeta then ∃ (flag : UInt8) (dim : Int64), bytes = appendPod flag ++ appendPod dim ∧
    (flag ≠ 0 → 0 ≤ dim.toInt ∧ dim.toInt < ndim)
  else bytes = []

/-- The fields of a tensor up to the recorded size of its data. -/
structure EntryFields where
  name : Name
  shape : List Int
  dtype : DType
  spec : List UInt8
  dataBytes : ℤ

namespace EntryFields

variable (f : EntryFields)

def bytes : List UInt8 :=
  appendInt64 f.name.length ++ (f.name ++ (appendInt64 f.shape.length ++
    (shapeBytes f.shape ++ (appendPod (Lite.dtypeCode f.dtype).toUInt32 ++
      (f.spec ++ appendInt64 f.dataBytes)))))

structure Valid (hasShardMeta : Bool) : Prop where
  name_le : f.name.length ≤ maxInt64
  rank_le : f.shape.length ≤ 1152921504606846975
  declares : Declares f.shape f.dtype
  spec : IsSpec hasShardMeta f.shape.length f.spec
  dataBytes : Fits f.dataBytes

end EntryFields

/-- The bytes of a tensor with all its data. -/
def IsEntry (hasShardMeta : Bool) (bytes : List UInt8) : Prop :=
  ∃ (f : EntryFields) (data : List UInt8), f.Valid hasShardMeta ∧ bytes = f.bytes ++ data ∧
    f.dataBytes = f.shape.prod * dtypeSize f.dtype ∧ (data.length : ℤ) = f.dataBytes

/-- The fields of a tensor that declares more data than follows. -/
def DeclaresMore (hasShardMeta : Bool) (bytes : List UInt8) : Prop :=
  ∃ (f : EntryFields) (rest : List UInt8), f.Valid hasShardMeta ∧ bytes = f.bytes ++ rest ∧
    (rest.length : ℤ) < f.shape.prod * dtypeSize f.dtype

/-- A shard file that ends in the data of one of the tensors it counts. -/
def CutShort (file : List UInt8) : Prop :=
  ∃ (v : UInt32) (worldSize numEntries : ℤ) (entries : List (List UInt8)) (rest : List UInt8),
    file = appendPod magic ++ (appendPod v ++ (appendInt64 worldSize ++
        (appendInt64 numEntries ++ (entries.flatten ++ rest)))) ∧
      (v = version ∨ v = versionLegacyNoShardMeta) ∧ Fits worldSize ∧ Fits numEntries ∧
      (entries.length : ℤ) < numEntries ∧ (∀ e ∈ entries, IsEntry (version ≤ v) e) ∧
      DeclaresMore (version ≤ v) rest

section Takes

open Metered hiding readPod readBytes

variable {s rest : List UInt8} {name : Name} {dtype : DType} {hasShardMeta : Bool} {dataBytes : ℤ}
  {T : Tariff} {c : ℕ}

theorem readInt64_ok {n : ℤ} : (Accounted.readInt64 s).result = .ok (n, rest) ↔
    Fits n ∧ s = appendInt64 n ++ rest := by
  simp only [Accounted.readInt64, bind_result_ok, readPod_result_ok, pure_result_ok]
  constructor
  · rintro ⟨w, mid, rfl, h⟩
    obtain ⟨rfl, rfl⟩ := Prod.mk.inj h
    refine ⟨⟨w.le_toInt, ?_⟩, ?_⟩
    · have := w.toInt_lt
      unfold maxInt64
      omega
    · rw [appendInt64, Int64.ofInt_toInt]
  · rintro ⟨hfits, rfl⟩
    refine ⟨Int64.ofInt n, rest, rfl, ?_⟩
    rw [Int64.toInt_ofInt_of_le hfits.1 (by have := hfits.2; unfold maxInt64 at this; omega)]

theorem readName_ok : (Accounted.readName s).result = .ok (name, rest) ↔
    name.length ≤ maxInt64 ∧ s = appendInt64 name.length ++ (name ++ rest) := by
  simp only [Accounted.readName, bind_result_ok, readInt64_ok, unread_result_ok,
    failIf_result_ok, demand_result_ok, copy_result_ok]
  constructor
  · rintro ⟨n, _, ⟨hfits, rfl⟩, _, _, hleft, _, _, ⟨hok, h⟩, _, _, h', hlen, hrest⟩
    obtain ⟨rfl, rfl⟩ := Prod.mk.inj hleft
    obtain rfl := (Prod.mk.inj h).2
    obtain rfl := (Prod.mk.inj h').2
    have hn : (name.length : ℤ) = n := by omega
    have hmax := hfits.2
    refine ⟨by omega, ?_⟩
    rw [hn, hrest]
  · rintro ⟨hle, rfl⟩
    refine ⟨name.length, name ++ rest, ⟨fits_nat hle, rfl⟩, _, _, rfl, (), _, ⟨?_, rfl⟩, (), _,
      rfl, (Int.toNat_natCast _).symm, rfl⟩
    rw [length_append]
    omega

theorem readShape_ok {r : List Int × Int} :
    (Accounted.readShape name s).result = .ok (r, rest) ↔
      r.1.length ≤ 1152921504606846975 ∧ r.2 = r.1.prod ∧ Declared.CountFits 1 r.1 ∧
        s = appendInt64 r.1.length ++ (shapeBytes r.1 ++ rest) := by
  simp only [Accounted.readShape, bind_result_ok, readInt64_ok, unread_result_ok,
    failIf_result_ok, demand_result_ok, readDims_ok, one_mul]
  constructor
  · rintro ⟨n, _, ⟨hfits, rfl⟩, _, _, hleft, _, _, ⟨hok, h⟩, _, _, ⟨hmax, h'⟩, _, _, h'', hlen,
      hprod, hcount, hrest⟩
    obtain ⟨rfl, rfl⟩ := Prod.mk.inj hleft
    obtain rfl := (Prod.mk.inj h).2
    obtain rfl := (Prod.mk.inj h').2
    obtain rfl := (Prod.mk.inj h'').2
    have hn : (r.1.length : ℤ) = n := by omega
    refine ⟨by omega, hprod, hcount, ?_⟩
    rw [hn, hrest]
  · rintro ⟨hle, hprod, hcount, rfl⟩
    have hfits : Fits r.1.length := fits_nat (hle.trans (by decide))
    refine ⟨r.1.length, shapeBytes r.1 ++ rest, ⟨hfits, rfl⟩, _, _, rfl, (), _, ⟨?_, rfl⟩, (), _,
      ⟨?_, rfl⟩, (), _, rfl, (Int.toNat_natCast _).symm, hprod, hcount, rfl⟩
    · rw [length_append, shapeBytes_length]
      omega
    · omega

theorem checkedDtype_ok {raw : UInt32} :
    checkedDtype raw name = .ok dtype ↔ raw = (Lite.dtypeCode dtype).toUInt32 := by
  constructor
  · intro h
    cases hdt : Lite.dtypes[raw.toNat]? with
    | none => simp [checkedDtype, hdt] at h
    | some dt =>
      simp only [checkedDtype, hdt, Except.ok.injEq] at h
      obtain rfl := h
      apply UInt32.toNat_inj.mp
      rw [dtypes_eq_some_iff.mp hdt, UInt8.toNat_toUInt32]
  · rintro rfl
    exact checkedDtype_code dtype name

theorem readSpec_ok {ndim : ℕ} :
    (∃ spec, (Accounted.readSpec hasShardMeta name ndim s).result = .ok (spec, rest)) ↔
      ∃ bytes, IsSpec hasShardMeta ndim bytes ∧ s = bytes ++ rest := by
  cases hasShardMeta with
  | false =>
    simp only [Accounted.readSpec, IsSpec, Bool.false_eq_true, if_false, pure_result_ok]
    constructor
    · rintro ⟨spec, h⟩
      exact ⟨[], rfl, (Prod.mk.inj h).2⟩
    · rintro ⟨_, rfl, rfl⟩
      exact ⟨_, rfl⟩
  | true =>
    simp only [Accounted.readSpec, IsSpec, if_true, bind_result_ok, readPod_result_ok,
      readInt64_ok, failIf_result_ok, pure_result_ok]
    constructor
    · rintro ⟨spec, flag, _, rfl, dim, _, ⟨hfits, rfl⟩, _, _, ⟨hzero, h⟩, _, _, ⟨hrange, h'⟩,
        h''⟩
      obtain rfl := (Prod.mk.inj h).2
      obtain rfl := (Prod.mk.inj h').2
      obtain rfl := (Prod.mk.inj h'').2
      have hdim : (Int64.ofInt dim).toInt = dim :=
        Int64.toInt_ofInt_of_le hfits.1 (by have := hfits.2; unfold maxInt64 at this; omega)
      refine ⟨_, ⟨flag, Int64.ofInt dim, rfl, fun hflag => ?_⟩, ?_⟩
      · have hin : ¬ (dim < 0 ∨ (ndim : ℤ) ≤ dim) := fun hout => hrange ⟨hflag, hout⟩
        omega
      · rw [appendInt64, append_assoc]
    · rintro ⟨_, ⟨flag, dim, rfl, hflag⟩, rfl⟩
      refine ⟨_, flag, appendPod dim ++ rest, ?_, dim.toInt, rest, ⟨⟨dim.le_toInt, ?_⟩, ?_⟩, (),
        rest, ⟨?_, rfl⟩, (), rest, ⟨?_, rfl⟩, rfl⟩
      · rw [append_assoc]
      · have := dim.toInt_lt
        unfold maxInt64
        omega
      · rw [appendInt64, Int64.ofInt_toInt]
      · rintro ⟨hne, hzero⟩
        have := hflag hne
        omega
      · rintro ⟨hne, hout⟩
        have := hflag hne
        omega

/-- What stands before the data. -/
def readFields (hasShardMeta : Bool) :
    Reading Exn (Name × (List Int × Int) × DType × ShardSpec × ℤ) := do
  let name ← Accounted.readName
  let dims ← Accounted.readShape name
  let raw ← Metered.readPod truncated UInt32
  let dtype ← ofExcept (checkedDtype raw name)
  let spec ← Accounted.readSpec hasShardMeta name dims.1.length
  let dataBytes ← Accounted.readInt64
  pure (name, dims, dtype, spec, dataBytes)

/-- The data, and the entry with it. -/
def readRest (f : Name × (List Int × Int) × DType × ShardSpec × ℤ) :
    Reading Exn (Name × Blob × ShardSpec) := do
  let data ← Accounted.readData f.1 f.2.1 f.2.2.1 f.2.2.2.2
  pure (f.1, { shape := f.2.1.1.map Int.toNat, dtype := f.2.2.1, data := data }, f.2.2.2.1)

theorem readEntry_eq (hasShardMeta : Bool) :
    Accounted.readEntry hasShardMeta = readFields hasShardMeta >>= readRest := by
  simp only [Accounted.readEntry, readFields, Metered.bind_assoc, Metered.pure_bind]
  rfl

theorem readFields_ok {shape : List Int} {n : Int} :
    (∃ spec, (readFields hasShardMeta s).result =
        .ok ((name, (shape, n), dtype, spec, dataBytes), rest)) ↔
      name.length ≤ maxInt64 ∧ shape.length ≤ 1152921504606846975 ∧ n = shape.prod ∧
        Declared.CountFits 1 shape ∧ Fits dataBytes ∧ ∃ spec, IsSpec hasShardMeta shape.length spec ∧
          s = (EntryFields.mk name shape dtype spec dataBytes).bytes ++ rest := by
  simp only [readFields, bind_result_ok, readName_ok, readShape_ok, readPod_result_ok,
    ofExcept_result_ok, checkedDtype_ok, readInt64_ok, pure_result_ok]
  constructor
  · rintro ⟨spec, name', _, ⟨hname, rfl⟩, dims, _, ⟨hrank, hprod, hcount, rfl⟩, raw, _, rfl,
      dtype', _, ⟨_, rfl, h⟩, spec', afterSpec, hspec, n', _, ⟨hfits, rfl⟩, hr⟩
    obtain rfl := (Prod.mk.inj h).2
    obtain ⟨⟨rfl, rfl, rfl, rfl, rfl⟩, rfl⟩ :
        (name' = name ∧ dims = (shape, n) ∧ dtype' = dtype ∧ spec' = spec ∧ n' = dataBytes) ∧
          _ = rest := by
      simpa only [Prod.mk.injEq] using hr
    obtain ⟨bytes, hbytes, rfl⟩ := readSpec_ok.mp ⟨spec', hspec⟩
    refine ⟨hname, hrank, hprod, hcount, hfits, bytes, hbytes, ?_⟩
    simp only [EntryFields.bytes, (Prod.mk.inj h).1, append_assoc]
  · rintro ⟨hname, hrank, rfl, hcount, hfits, spec, hspec, rfl⟩
    obtain ⟨spec', hspec'⟩ := readSpec_ok.mpr ⟨spec, hspec, rfl⟩
    refine ⟨spec', name, _, ⟨hname, ?_⟩, (shape, shape.prod), _, ⟨hrank, rfl, hcount, rfl⟩, _, _,
      rfl, dtype, _, ⟨dtype, rfl, rfl⟩, spec', _, hspec', dataBytes, rest, ⟨hfits, rfl⟩, rfl⟩
    simp only [EntryFields.bytes, append_assoc]

theorem readData_ok {dims : List Int × Int} {data : List UInt8} :
    (Accounted.readData name dims dtype dataBytes s).result = .ok (data, rest) ↔
      (∃ t, TensorImpl.allocate 0 dims.1 dtype = .ok t) ∧ dims.2 ≤ int64Max / dtypeSize dtype ∧
        dataBytes = dims.2 * dtypeSize dtype ∧ data.length = dataBytes.toNat ∧ s = data ++ rest := by
  simp only [Accounted.readData, bind_result_ok, makeTensor_ok, failIf_result_ok,
    checkLeft_result_ok, copy_result_ok, not_lt, not_not]
  constructor
  · rintro ⟨t, _, ⟨ht, rfl⟩, _, _, ⟨hover, h⟩, _, _, ⟨hsize, h'⟩, _, _, ⟨-, h''⟩, hlen, hrest⟩
    obtain rfl := (Prod.mk.inj h).2
    obtain rfl := (Prod.mk.inj h').2
    obtain rfl := (Prod.mk.inj h'').2
    exact ⟨⟨t, ht⟩, hover, hsize, hlen, hrest⟩
  · rintro ⟨⟨t, ht⟩, hover, hsize, hlen, rfl⟩
    have hleft : dataBytes.toNat ≤ (data ++ rest).length := by
      rw [← hlen, length_append]
      exact Nat.le_add_right _ _
    exact ⟨t, _, ⟨ht, rfl⟩, (), _, ⟨hover, rfl⟩, (), _, ⟨hsize, rfl⟩, (), _, ⟨hleft, rfl⟩, hlen,
      rfl⟩

theorem accepts_readEntry (hasShardMeta : Bool) :
    Accepts (Accounted.readEntry hasShardMeta) (IsEntry hasShardMeta) := by
  intro s rest
  rw [readEntry_eq]
  simp only [bind_result_ok, readRest, pure_result_ok]
  constructor
  · rintro ⟨_, ⟨name, ⟨shape, n⟩, dtype, spec, dataBytes⟩, mid, hfields, data, _, hdata, hr⟩
    obtain rfl := (Prod.mk.inj hr).2
    obtain ⟨hname, hrank, rfl, hcount, hfits, bytes, hspec, rfl⟩ := readFields_ok.mp ⟨spec, hfields⟩
    obtain ⟨halloc, -, hsize, hlen, rfl⟩ := readData_ok.mp hdata
    refine ⟨_, ⟨⟨name, shape, dtype, bytes, dataBytes⟩, data,
      ⟨hname, hrank, ⟨hcount, halloc⟩, hspec, hfits⟩, rfl, hsize, ?_⟩, ?_⟩
    · have hnn : 0 ≤ shape.prod := Strided.prod_nonneg (TensorImpl.allocate_ok halloc.choose_spec).1
      have hpos : 0 ≤ shape.prod * (dtypeSize dtype : ℤ) := mul_nonneg hnn (by omega)
      rw [hlen, Int.toNat_of_nonneg (hsize ▸ hpos)]
    · rw [append_assoc]
  · rintro ⟨_, ⟨⟨name, shape, dtype, bytes, dataBytes⟩, data,
      ⟨hname, hrank, ⟨hcount, t, ht⟩, hspec, hfits⟩, rfl, hsize, hlen⟩, rfl⟩
    obtain ⟨spec, hfields⟩ : ∃ spec, (readFields hasShardMeta ((EntryFields.mk name shape dtype
        bytes dataBytes).bytes ++ data ++ rest)).result =
        .ok ((name, (shape, shape.prod), dtype, spec, dataBytes), data ++ rest) :=
      readFields_ok.mpr ⟨hname, hrank, rfl, hcount, hfits, bytes, hspec, (append_assoc ..)⟩
    have hdata : data.length = dataBytes.toNat := by
      rw [← show (data.length : ℤ) = dataBytes from hlen, Int.toNat_natCast]
    have hbytes := (TensorImpl.allocate_ok ht).2.2.2.1
    have hpos : (0 : ℤ) < dtypeSize dtype := by exact_mod_cast dtypeSize_pos dtype
    have hover : shape.prod ≤ int64Max / dtypeSize dtype :=
      (Int.le_ediv_iff_mul_le hpos).mpr hbytes
    exact ⟨_, _, _, hfields, data, rest,
      readData_ok.mpr ⟨⟨t, ht⟩, hover, hsize, hdata, rfl⟩, rfl⟩

/-! ## What the readers reserve -/

theorem spends_readInt64 {left : ℕ} : Spends T c left 8 Accounted.readInt64 fun _ => True :=
  (Spends.readPod truncated Int64).followed fun _ _ => Spends.pure trivial

theorem spends_readName : Spends byAmount 1 0 0 Accounted.readName fun _ => True := by
  refine (spends_readInt64.mono le_rfl le_rfl (zero_le _) fun _ h => h).followed fun n _ =>
    Spends.checkOr fun _ => ?_
  exact (Spends.demand le_rfl le_rfl (Spends.copy n.toNat)).mono le_rfl le_rfl (zero_le _)
    fun _ _ => trivial

theorem spends_readShape : Spends byAmount 2 0 0 (Accounted.readShape name) fun _ => True := by
  refine (spends_readInt64.mono le_rfl le_rfl (zero_le _) fun _ h => h).followed fun n _ =>
    Spends.checkOr fun _ => Spends.failIf fun hmax => ?_
  have hword : n.toNat * 8 % 18446744073709551616 = n.toNat * 8 :=
    Nat.mod_eq_of_lt (by omega)
  have hdims : Spends byAmount 1 (n.toNat * 8) (n.toNat * 8) (Declared.readDims truncated
      (nameError "negative dimension in shape for " name "")
      (nameError "tensor element count overflow for " name "") 1 n.toNat) fun _ => True :=
    (spends_readDims ⟨trivial, le_rfl⟩ 1 n.toNat).mono le_rfl (zero_le _) le_rfl fun _ h => h
  rw [hword]
  exact (Spends.demand le_rfl le_rfl hdims).mono le_rfl le_rfl (zero_le _) fun _ h => h

theorem spends_readSpec (hasShardMeta : Bool) (ndim : ℕ) :
    Spends T c 0 0 (Accounted.readSpec hasShardMeta name ndim) fun _ => True := by
  unfold Accounted.readSpec
  split
  · have hflag : Spends T c 0 0 (Metered.readPod truncated UInt8) fun _ => True :=
      (Spends.readPod truncated UInt8).mono le_rfl le_rfl (zero_le _) fun _ h => h
    refine hflag.followed fun _ _ => (spends_readInt64.mono le_rfl le_rfl (zero_le _)
      fun _ h => h).followed fun _ _ => Spends.failIf fun _ => Spends.failIf fun _ => ?_
    exact Spends.pure trivial
  · exact Spends.pure trivial

/-- The fields behind the dimensions. -/
theorem spends_tail (hasShardMeta : Bool) (dims : List Int × Int) :
    Spends T c 0 0 (do
      let raw ← Metered.readPod truncated UInt32
      let dtype ← ofExcept (checkedDtype raw name)
      let spec ← Accounted.readSpec hasShardMeta name dims.1.length
      let dataBytes ← Accounted.readInt64
      pure (name, dims, dtype, spec, dataBytes)) fun _ => True :=
  ((Spends.readPod truncated UInt32).followed fun _ _ => Spends.ofExcept fun _ _ =>
    (spends_readSpec hasShardMeta dims.1.length).followed fun _ _ =>
      (spends_readInt64.mono le_rfl le_rfl (zero_le _) fun _ h => h).followed fun _ _ =>
        Spends.pure trivial).mono le_rfl le_rfl (zero_le _) fun _ h => h

theorem spends_readFields (hasShardMeta : Bool) :
    Spends byAmount 2 0 0 (readFields hasShardMeta) fun _ => True :=
  (spends_readName.mono (by decide) le_rfl le_rfl fun _ h => h).followed fun _ _ =>
    spends_readShape.followed fun dims _ => spends_tail hasShardMeta dims

/-- The rounds of an entry are paid for by its dimensions. -/
theorem spends_readEntry (hasShardMeta : Bool) :
    Spends byRound 1 0 8 (Accounted.readEntry hasShardMeta) fun _ => True := by
  have hname : Spends byRound 1 0 8 Accounted.readName fun _ => True :=
    spends_readInt64.followed fun n _ => Spends.checkOr fun _ => Spends.demand_free
      ((Spends.copy n.toNat).mono le_rfl le_rfl (zero_le _) fun _ _ => trivial)
  have hshape : ∀ name, Spends byRound 1 0 0 (Accounted.readShape name) fun _ => True :=
    fun name => (spends_readInt64.mono le_rfl le_rfl (zero_le _) fun _ h => h).followed
      fun n _ => Spends.checkOr fun _ => Spends.failIf fun _ => Spends.demand_free
        ((spends_readDims ⟨trivial, le_rfl⟩ 1 n.toNat).mono le_rfl (zero_le _)
          (zero_le _) fun _ h => h)
  have hdata : ∀ name dims dtype dataBytes, Spends byRound 1 0 0
      (Accounted.readData name dims dtype dataBytes) fun _ => True := by
    intro name dims dtype dataBytes
    refine (spends_makeTensor _ _).followed fun _ _ => Spends.failIf fun _ => Spends.failIf
      fun _ => Spends.checkLeft ?_
    exact (Spends.copy dataBytes.toNat).mono le_rfl le_rfl (zero_le _) fun _ _ => trivial
  have hfields : Spends byRound 1 0 8 (readFields hasShardMeta) fun _ => True :=
    hname.followed fun name _ => (hshape name).followed fun dims _ => spends_tail hasShardMeta dims
  rw [readEntry_eq]
  exact hfields.followed fun f _ => (hdata _ _ _ _).followed fun _ _ => Spends.pure trivial

/-- Every round of the reader takes bytes, so that they are bounded by the file. -/
theorem spends_readState : Spends byRound 2 0 0 Accounted.readState fun _ => True := by
  have hpod : Spends byRound 2 0 0 (Metered.readPod truncated UInt32) fun _ => True :=
    (Spends.readPod truncated UInt32).mono le_rfl le_rfl (zero_le _) fun _ h => h
  have hint : Spends byRound 2 0 0 Accounted.readInt64 fun _ => True :=
    spends_readInt64.mono le_rfl le_rfl (zero_le _) fun _ h => h
  refine hpod.followed fun _ _ => Spends.failIf fun _ => hpod.followed fun v _ =>
    Spends.failIf fun _ => hint.followed fun _ _ => hint.followed fun num _ =>
      Spends.failIf fun _ => ?_
  exact ((Spends.readMany ⟨trivial, le_rfl⟩ (by decide) (spends_readEntry _) num.toNat).mono
    le_rfl le_rfl (zero_le _) fun _ _ => trivial).followed fun _ _ => Spends.pure trivial

theorem not_meets_readFields : ¬ Meets Overdrawn (readFields hasShardMeta) s := by
  rintro ⟨e, he, hover⟩
  exact hover ((spends_readFields hasShardMeta s (byAmount_covers _) (zero_le _)).1 e he)

/-- The tensor is made before its size is compared. -/
theorem meets_readRest {f : Name × (List Int × Int) × DType × ShardSpec × ℤ} :
    Meets Overdrawn (readRest f) s ↔ Meets Overdrawn (makeTensor f.2.1.1 f.2.2.1) s := by
  have htail : Silent (do
      failIf (int64Max / dtypeSize f.2.2.1 < f.2.1.2)
        (nameError "tensor byte size overflow for " f.1 "")
      failIf (f.2.2.2.2 ≠ f.2.1.2 * dtypeSize f.2.2.1)
        (nameError "data size mismatch for " f.1 (" (expected " ++
          toString (f.2.1.2 * dtypeSize f.2.2.1) ++ ", got " ++ toString f.2.2.2.2 ++ ")"))
      Metered.readBytes (nameError "truncated checkpoint data for " f.1 "") f.2.2.2.2.toNat) :=
    (Silent.failIf _ _).bind fun _ => (Silent.failIf _ _).bind fun _ => Silent.readBytes _ _
  have hdata : Meets Overdrawn (Accounted.readData f.1 f.2.1 f.2.2.1 f.2.2.2.2) s ↔
      Meets Overdrawn (makeTensor f.2.1.1 f.2.2.1) s := by
    rw [Accounted.readData, meets_bind, or_iff_left]
    rintro ⟨t, rest, -, hmeets⟩
    exact htail.not_meets hmeets
  rw [readRest, meets_bind, or_iff_left, hdata]
  rintro ⟨data, rest, -, hmeets⟩
  exact (Silent.pure _).not_meets hmeets

theorem meets_readEntry :
    Meets Overdrawn (Accounted.readEntry hasShardMeta) s ↔ DeclaresMore hasShardMeta s := by
  rw [readEntry_eq, meets_bind, or_iff_right not_meets_readFields]
  constructor
  · rintro ⟨⟨name, ⟨shape, n⟩, dtype, spec, dataBytes⟩, rest, hfields, hmeets⟩
    obtain ⟨hname, hrank, -, hcount, hfits, bytes, hspec, rfl⟩ :=
      readFields_ok.mp ⟨spec, hfields⟩
    obtain ⟨halloc, hlt⟩ := meets_makeTensor.mp (meets_readRest.mp hmeets)
    exact ⟨⟨name, shape, dtype, bytes, dataBytes⟩, rest,
      ⟨hname, hrank, ⟨hcount, halloc⟩, hspec, hfits⟩, rfl, hlt⟩
  · rintro ⟨⟨name, shape, dtype, bytes, dataBytes⟩, rest,
      ⟨hname, hrank, ⟨hcount, halloc⟩, hspec, hfits⟩, rfl, hlt⟩
    obtain ⟨spec, hfields⟩ :=
      readFields_ok.mpr ⟨hname, hrank, rfl, hcount, hfits, bytes, hspec, rfl⟩
    exact ⟨_, rest, hfields, meets_readRest.mpr (meets_makeTensor.mpr ⟨halloc, hlt⟩)⟩

/-- The file makes a tensor larger than what is left exactly when it is cut short. -/
theorem meets_readState (file : List UInt8) :
    Meets Overdrawn Accounted.readState file ↔ CutShort file := by
  have hint : Silent Accounted.readInt64 :=
    (Silent.readPod truncated Int64).bind fun _ => Silent.pure _
  have hlast : ∀ (k : List (Name × Blob × ShardSpec) → ShardContents) (b : Bool) (n : ℕ)
      (t : List UInt8), Meets Overdrawn (do
        let entries ← readMany (Accounted.readEntry b) n
        pure (k entries)) t ↔ Meets Overdrawn (readMany (Accounted.readEntry b) n) t := by
    intro k b n t
    rw [meets_bind, or_iff_left]
    rintro ⟨entries, rest, -, hmeets⟩
    exact (Silent.pure _).not_meets hmeets
  simp only [Accounted.readState, (Silent.readPod truncated UInt32).meets_bind, hint.meets_bind,
    (Silent.failIf _ _).meets_bind, readPod_result_ok, readInt64_ok, failIf_result_ok, hlast,
    meets_readMany not_overdrawn_round (accepts_readEntry _), meets_readEntry]
  constructor
  · rintro ⟨m, _, rfl, _, _, ⟨hm, h⟩, v, _, rfl, _, _, ⟨hv, h'⟩, worldSize, _, ⟨hworld, rfl⟩,
      num, _, ⟨hnum, rfl⟩, _, _, ⟨hneg, h''⟩, entries, rest, hlt, hentries, hrest, hmore⟩
    obtain rfl := (Prod.mk.inj h).2
    obtain rfl := (Prod.mk.inj h').2
    obtain rfl := (Prod.mk.inj h'').2
    obtain rfl : m = magic := not_not.mp hm
    refine ⟨v, worldSize, num, entries, rest, ?_, by tauto, hworld, hnum, by omega, hentries, hmore⟩
    rw [hrest]
  · rintro ⟨v, worldSize, num, entries, rest, rfl, hv, hworld, hnum, hlt, hentries, hmore⟩
    exact ⟨magic, _, rfl, (), _, ⟨not_not.mpr rfl, rfl⟩, v, _, rfl, (), _, ⟨by tauto, rfl⟩,
      worldSize, _, ⟨hworld, rfl⟩, num, _, ⟨hnum, rfl⟩, (), _, ⟨by omega, rfl⟩, entries, rest,
      by omega, hentries, rfl, hmore⟩

end Takes

/-- Each reader stays within the files that are not cut short in the data of a tensor, and only
within these. What is read with an account is what the reader returns. -/
theorem readers_stay_within_iff (file : List UInt8) :
    (ReadsWithin Nn.Serializer.Accounted.readDict file ↔ ¬ Nn.Serializer.CutShort file) ∧
      (ReadsWithin Accounted.readState file ↔ ¬ CutShort file) ∧
      (Nn.Serializer.Accounted.readDict file).result =
        (Nn.Serializer.readDict file).mapError .thrown ∧
      ∀ contents rest, (Accounted.readState file).result = .ok (contents, rest) →
        deserializeState file = .ok contents := by
  refine ⟨?_, ?_, Nn.Serializer.erases_readDict file, fun _ _ => deserializeState_of_accounted⟩
  · rw [readsWithin_iff Nn.Serializer.spends_readDict, Nn.Serializer.meets_readDict]
  · rw [readsWithin_iff spends_readState, meets_readState]

/-- A nameless tensor of 1048576 numbers, none of which follows. -/
theorem not_readsWithin_header :
    ¬ ReadsWithin Nn.Serializer.Accounted.readDict
        (appendPod Nn.Serializer.magic ++ (appendPod Nn.Serializer.version ++
          (appendPod (1 : UInt32) ++ Nn.Serializer.entryHeader [] .float32 [1048576]))) ∧
      ¬ ReadsWithin Accounted.readState
        (appendPod magic ++ (appendPod versionLegacyNoShardMeta ++ (appendInt64 1 ++
          (appendInt64 1 ++ (EntryFields.mk [] [1048576] .float32 [] 4194304).bytes)))) := by
  have hcount : Declared.CountFits 1 [1048576] := ⟨by decide, by decide, .inr (by decide), trivial⟩
  have hdeclares : Declares [1048576] .float32 := ⟨hcount, _, rfl⟩
  have hone : Fits 1 := fits_nat (n := 1) (by decide)
  have hsize : Fits 4194304 := fits_nat (n := 4194304) (by decide)
  constructor
  · rw [readsWithin_iff Nn.Serializer.spends_readDict, Nn.Serializer.meets_readDict, not_not]
    refine ⟨1, [], Nn.Serializer.entryHeader [] .float32 [1048576], rfl, by decide,
      forall_mem_nil _, [], .float32, [1048576], [], ⟨by decide, by decide, hdeclares⟩, ?_,
      by decide⟩
    rw [append_nil]
  · rw [readsWithin_iff spends_readState, meets_readState, not_not]
    refine ⟨versionLegacyNoShardMeta, 1, 1, [], (EntryFields.mk [] [1048576] .float32 []
      4194304).bytes, rfl, .inr rfl, hone, hone, by decide, forall_mem_nil _,
      ⟨[], [1048576], .float32, [], 4194304⟩, [], ⟨by decide, by decide, hdeclares, rfl, hsize⟩, ?_,
      by decide⟩
    rw [append_nil]

end Tenzor.Checkpoint
