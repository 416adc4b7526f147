import Tenzor.Core.DeclaredTensors
import Tenzor.Nn.Serializer

/-!
# What loading a state dictionary reserves

`load` bounds a name and a list of dimensions by what is left of the file before it makes them.
The tensor is made from its dimensions, and compared with what is left afterwards: a file that
declares more data than it has left makes a tensor of that size first.

## Implementation notes

An allocation that fails reserves nothing.
-/

namespace Tenzor.Nn.Serializer

open Declared Tenzor.Lite List
open UInt32 (ofNat ofNat_toNat)
open Nat (zero_le)
open Wire (appendPod)

namespace Accounted

open Metered

def readString : Reading Exn Text := do
  let size ← readPod endOfFile UInt32
  checkLeft (serializerError "string length exceeds remaining file size") size.toNat
  demand size.toNat
  readBytes (serializerError "unexpected end of file while reading string") size.toNat

def readDtype : Reading Exn DType := do
  let code ← readPod endOfFile UInt8
  match dtypes[code.toNat]? with
  | some dtype => pure dtype
  | none => Metered.throwing (serializerError ("unknown dtype in file: " ++ toString code.toNat))

def readShape : ℕ → Reading Exn (List Int × Int) :=
  Declared.readDims endOfFile (serializerError "negative dimension in shape")
    (serializerError "tensor element count overflow") 1

/-- The vector of dimensions takes eight bytes for each. -/
def readTensor : Reading Exn (Text × LoadedTensor) := do
  let name ← readString
  let dtype ← readDtype
  let ndim ← readPod endOfFile UInt32
  checkLeft (serializerError "shape dimension count exceeds remaining file size")
    (ndim.toNat * 8)
  demand (ndim.toNat * 8)
  let shape ← readShape ndim.toNat
  let t ← Declared.makeTensor shape.1 dtype
  checkLeft (serializerError "tensor data exceeds remaining file size") t.storage.sizeBytes
  let data ← readBytes (serializerError "unexpected end of file while reading tensor data")
    t.storage.sizeBytes
  pure (name, ⟨t, data⟩)

def readDict : Reading Exn (List (Text × LoadedTensor)) := do
  let fileMagic ← readPod endOfFile UInt32
  failIf (fileMagic ≠ magic) (.runtimeError "Invalid file format: magic number mismatch")
  let fileVersion ← readPod endOfFile UInt32
  failIf (fileVersion ≠ version)
    (.runtimeError ("Unsupported file format version: " ++ toString fileVersion.toNat))
  let numTensors ← readPod endOfFile UInt32
  let entries ← readMany readTensor numTensors.toNat
  pure (entries.foldl Dict.assignEntry [])

end Accounted

section Erases


open Metered (Erases)

theorem erases_readString : Erases Accounted.readString readString :=
  (Erases.readPod endOfFile UInt32).bind fun _ =>
    Erases.checkLeft _ _ fun _ => Erases.demand _ (Erases.readBytes _ _)

theorem erases_readDtype : Erases Accounted.readDtype readDtype := by
  refine (Erases.readPod endOfFile UInt8).bind fun code => ?_
  cases dtypes[code.toNat]? with
  | none => exact Erases.throwing _
  | some dtype => exact Erases.pure dtype

theorem erases_readDims (n : Int) (ndim : ℕ) :
    Erases (Declared.readDims endOfFile (serializerError "negative dimension in shape")
      (serializerError "tensor element count overflow") n ndim) (readShape n ndim) := by
  induction ndim generalizing n with
  | zero => exact Erases.pure _
  | succ ndim ih =>
    exact Erases.round ((Erases.readPod endOfFile Int64).bind fun word =>
      (Erases.failIf _ _).bind fun _ => (Erases.failIf _ _).bind fun _ =>
        (ih _).bind fun rest => Erases.pure _)

theorem erases_makeTensor (shape : List Int) (dtype : DType) :
    Erases (Declared.makeTensor shape dtype) (makeTensor shape dtype) := by
  intro s
  unfold Declared.makeTensor makeTensor
  cases h : TensorImpl.allocate 0 shape dtype with
  | error e => rfl
  | ok t => rfl

theorem erases_readTensor : Erases Accounted.readTensor readTensor :=
  erases_readString.bind fun _ => erases_readDtype.bind fun dtype =>
    (Erases.readPod endOfFile UInt32).bind fun ndim => Erases.checkLeft _ _ fun _ =>
      Erases.demand _ ((erases_readDims 1 ndim.toNat).bind fun shape =>
        (erases_makeTensor shape.1 dtype).bind fun _ => Erases.checkLeft _ _ fun _ =>
          (Erases.readBytes _ _).bind fun _ => Erases.pure _)

/-- The account is kept of the loader itself. -/
theorem erases_readDict : Erases Accounted.readDict readDict :=
  (Erases.readPod endOfFile UInt32).bind fun _ => (Erases.failIf _ _).bind fun _ =>
    (Erases.readPod endOfFile UInt32).bind fun _ => (Erases.failIf _ _).bind fun _ =>
      (Erases.readPod endOfFile UInt32).bind fun _ =>
        (erases_readTensor.readMany _).bind fun _ => Erases.pure _

end Erases

/-- The bytes of a tensor before its data. -/
def entryHeader (name : Text) (dtype : DType) (shape : List Int) : List UInt8 :=
  writeString name ++ (appendPod (dtypeCode dtype) ++
    (appendPod (UInt32.ofNat shape.length) ++ shapeBytes shape))

structure HeaderFits (name : Text) (dtype : DType) (shape : List Int) : Prop where
  name_lt : name.length < 4294967296
  rank_lt : shape.length < 4294967296
  declares : Declares shape dtype

/-- The bytes of a tensor with all its data. -/
def IsEntry (bytes : List UInt8) : Prop :=
  ∃ (name : Text) (dtype : DType) (shape : List Int) (data : List UInt8),
    HeaderFits name dtype shape ∧ bytes = entryHeader name dtype shape ++ data ∧
      (data.length : Int) = shape.prod * dtypeSize dtype

/-- The bytes of a tensor that declares more data than follows. -/
def DeclaresMore (bytes : List UInt8) : Prop :=
  ∃ (name : Text) (dtype : DType) (shape : List Int) (rest : List UInt8),
    HeaderFits name dtype shape ∧ bytes = entryHeader name dtype shape ++ rest ∧
      (rest.length : Int) < shape.prod * dtypeSize dtype

/-- A file that ends in the data of one of the tensors it counts. -/
def CutShort (file : List UInt8) : Prop :=
  ∃ (num : UInt32) (entries : List (List UInt8)) (rest : List UInt8),
    file = appendPod magic ++ (appendPod version ++ (appendPod num ++ (entries.flatten ++ rest))) ∧
      entries.length < num.toNat ∧ (∀ e ∈ entries, IsEntry e) ∧ DeclaresMore rest

section Takes


open Metered hiding readPod readBytes

variable {s rest : List UInt8} {name : Text} {dtype : DType}

theorem readString_ok : (Accounted.readString s).result = .ok (name, rest) ↔
    name.length < 4294967296 ∧ s = writeString name ++ rest := by
  simp only [Accounted.readString, bind_result_ok, readPod_result_ok, checkLeft_result_ok,
    demand_result_ok, readBytes_result_ok]
  constructor
  · rintro ⟨size, _, rfl, _, _, ⟨-, h⟩, _, _, h', hlen, hrest⟩
    obtain rfl := (Prod.mk.inj h).2
    obtain rfl := (Prod.mk.inj h').2
    refine ⟨hlen ▸ size.toNat_lt, ?_⟩
    rw [writeString, hlen, ofNat_toNat, hrest, append_assoc]
  · rintro ⟨hlt, rfl⟩
    have hlen : (ofNat name.length).toNat = name.length := UInt32.toNat_ofNat_of_lt' hlt
    refine ⟨ofNat name.length, name ++ rest, ?_, (), name ++ rest, ⟨?_, rfl⟩, (),
      name ++ rest, rfl, hlen.symm, rfl⟩
    · rw [writeString, append_assoc]
    · rw [hlen, length_append]
      exact Nat.le_add_right _ _

theorem readDtype_ok : (Accounted.readDtype s).result = .ok (dtype, rest) ↔
    s = appendPod (dtypeCode dtype) ++ rest := by
  simp only [Accounted.readDtype, bind_result_ok, readPod_result_ok]
  constructor
  · rintro ⟨code, mid, rfl, h⟩
    cases hdt : dtypes[code.toNat]? with
    | none => simp [hdt, Metered.throwing] at h
    | some dt =>
      simp only [hdt, pure_result_ok] at h
      obtain ⟨rfl, rfl⟩ := Prod.mk.inj h
      rw [UInt8.toNat_inj.mp (dtypes_eq_some_iff.mp hdt)]
  · rintro rfl
    refine ⟨dtypeCode dtype, rest, rfl, ?_⟩
    rw [dtypes_eq_some_iff.mpr rfl]
    rfl

/-- The fields before the data. -/
def readFields : Reading Exn (Text × DType × List Int) := do
  let name ← Accounted.readString
  let dtype ← Accounted.readDtype
  let ndim ← Metered.readPod endOfFile UInt32
  checkLeft (serializerError "shape dimension count exceeds remaining file size")
    (ndim.toNat * 8)
  demand (ndim.toNat * 8)
  let shape ← Accounted.readShape ndim.toNat
  pure (name, dtype, shape.1)

/-- The tensor is made, and its data is read. -/
def readData (fields : Text × DType × List Int) : Reading Exn (Text × LoadedTensor) := do
  let t ← Declared.makeTensor fields.2.2 fields.2.1
  checkLeft (serializerError "tensor data exceeds remaining file size") t.storage.sizeBytes
  let data ← Metered.readBytes
    (serializerError "unexpected end of file while reading tensor data") t.storage.sizeBytes
  pure (fields.1, ⟨t, data⟩)

theorem readTensor_eq : Accounted.readTensor = readFields >>= readData := by
  simp only [Accounted.readTensor, readFields, Metered.bind_assoc, Metered.pure_bind]
  rfl

theorem readFields_ok {shape : List Int} :
    (readFields s).result = .ok ((name, dtype, shape), rest) ↔
      name.length < 4294967296 ∧ shape.length < 4294967296 ∧ Declared.CountFits 1 shape ∧
        s = entryHeader name dtype shape ++ rest := by
  simp only [readFields, bind_result_ok, readPod_result_ok, checkLeft_result_ok,
    demand_result_ok, pure_result_ok]
  constructor
  · rintro ⟨name', afterName, hname, dtype', afterDtype, hdtype, ndim, afterRank, hrank, _, _,
      ⟨-, h⟩, _, _, h', shape', last, hshape, hr⟩
    obtain rfl := (Prod.mk.inj h).2
    obtain rfl := (Prod.mk.inj h').2
    obtain ⟨rfl, rfl, rfl, rfl⟩ : name' = name ∧ dtype' = dtype ∧ shape'.1 = shape ∧ last = rest :=
      by simpa [and_assoc] using hr
    obtain ⟨hlt, rfl⟩ := readString_ok.mp hname
    obtain rfl := readDtype_ok.mp hdtype
    obtain ⟨hlen, -, hfits, rfl⟩ := readDims_ok.mp hshape
    refine ⟨hlt, hlen ▸ ndim.toNat_lt, hfits, ?_⟩
    rw [entryHeader, hrank, hlen, ofNat_toNat]
    simp only [append_assoc]
  · rintro ⟨hlt, hranklt, hfits, rfl⟩
    have hlen : (ofNat shape.length).toNat = shape.length :=
      UInt32.toNat_ofNat_of_lt' hranklt
    have hname : (Accounted.readString (entryHeader name dtype shape ++ rest)).result =
        .ok (name, appendPod (dtypeCode dtype) ++
          (appendPod (ofNat shape.length) ++ (shapeBytes shape ++ rest))) :=
      readString_ok.mpr ⟨hlt, by simp only [entryHeader, append_assoc]⟩
    have hleft : (ofNat shape.length).toNat * 8 ≤ (shapeBytes shape ++ rest).length := by
      rw [hlen, length_append, shapeBytes_length]
      exact Nat.le_add_right _ _
    have hshape : (Accounted.readShape (ofNat shape.length).toNat
        (shapeBytes shape ++ rest)).result = .ok ((shape, 1 * shape.prod), rest) :=
      readDims_ok.mpr ⟨hlen.symm, rfl, hfits, rfl⟩
    exact ⟨name, _, hname, dtype, _, readDtype_ok.mpr rfl, _, _, rfl, (), _, ⟨hleft, rfl⟩, (), _,
      rfl, (shape, 1 * shape.prod), rest, hshape, rfl⟩

theorem accepts_readTensor : Accepts Accounted.readTensor IsEntry := by
  intro s rest
  rw [readTensor_eq]
  simp only [bind_result_ok, readData, checkLeft_result_ok, readBytes_result_ok, pure_result_ok]
  constructor
  · rintro ⟨_, ⟨name, dtype, shape⟩, mid, hfields, t, mid', ht, _, _, ⟨-, h⟩, data, _,
      ⟨hlen, hdata⟩, hr⟩
    obtain rfl := (Prod.mk.inj h).2
    obtain rfl := (Prod.mk.inj hr).2
    obtain ⟨hname, hrank, hfits, rfl⟩ := readFields_ok.mp hfields
    obtain ⟨halloc, rfl⟩ := makeTensor_ok.mp ht
    refine ⟨_, ⟨name, dtype, shape, data, ⟨hname, hrank, hfits, t, halloc⟩, rfl, ?_⟩, ?_⟩
    · rw [hlen, sizeBytes_eq halloc]
    · rw [hdata, append_assoc]
  · rintro ⟨_, ⟨name, dtype, shape, data, ⟨hname, hrank, hfits, t, halloc⟩, rfl, hlen⟩, rfl⟩
    have hsize : data.length = t.storage.sizeBytes := by
      have := sizeBytes_eq halloc
      omega
    have hleft : t.storage.sizeBytes ≤ (data ++ rest).length := by
      rw [← hsize, length_append]
      exact Nat.le_add_right _ _
    refine ⟨(name, ⟨t, data⟩), (name, dtype, shape), data ++ rest, readFields_ok.mpr
      ⟨hname, hrank, hfits, (append_assoc ..)⟩, t, _, makeTensor_ok.mpr ⟨halloc, rfl⟩, (), _,
      ⟨hleft, rfl⟩, data, rest, ⟨hsize, rfl⟩, rfl⟩

theorem spends_readString : Spends byAmount 1 0 4 Accounted.readString fun _ => True := by
  refine (Spends.readPod endOfFile UInt32).followed fun size _ => Spends.checkLeft ?_
  exact (Spends.demand le_rfl le_rfl (Spends.readBytes _ size.toNat)).mono le_rfl le_rfl
    (zero_le _) fun _ _ => trivial

theorem spends_readDtype {T : Tariff} {c : ℕ} :
    Spends T c 0 0 Accounted.readDtype fun _ => True := by
  refine ((Spends.readPod endOfFile UInt8).followed fun code _ => ?_).mono le_rfl le_rfl
    (zero_le _) fun _ h => h
  cases dtypes[code.toNat]? with
  | none => exact Spends.throwing _
  | some dtype => exact Spends.pure trivial

theorem spends_readFields : Spends byAmount 2 0 0 readFields fun _ => True := by
  refine ((spends_readString.mono (by decide) le_rfl (zero_le _) fun _ h => h).followed
    fun _ _ => spends_readDtype.followed fun _ _ => ?_)
  refine ((Spends.readPod endOfFile UInt32).mono le_rfl le_rfl (zero_le _)
    fun _ h => h).followed fun ndim _ => Spends.checkLeft ?_
  have hshape : Spends byAmount 1 (ndim.toNat * 8) (ndim.toNat * 8)
      (Accounted.readShape ndim.toNat) fun _ => True :=
    (spends_readDims ⟨trivial, le_rfl⟩ 1 ndim.toNat).mono le_rfl (zero_le _) le_rfl
      fun _ h => h
  exact (Spends.demand le_rfl le_rfl
    (hshape.followed fun _ _ => Spends.pure trivial)).mono le_rfl le_rfl (zero_le _)
      fun _ h => h

/-- The rounds of a tensor are paid for by its dimensions. -/
theorem spends_readTensor : Spends byRound 1 0 4 Accounted.readTensor fun _ => True := by
  have hname : Spends byRound 1 0 4 Accounted.readString fun _ => True :=
    (Spends.readPod endOfFile UInt32).followed fun size _ => Spends.checkLeft
      (Spends.demand_free ((Spends.readBytes _ size.toNat).mono le_rfl le_rfl (zero_le _)
        fun _ _ => trivial))
  refine hname.followed fun _ _ => spends_readDtype.followed fun dtype _ => ?_
  refine ((Spends.readPod endOfFile UInt32).mono le_rfl le_rfl (zero_le _)
    fun _ h => h).followed fun ndim _ => Spends.checkLeft (Spends.demand_free ?_)
  refine ((spends_readDims ⟨trivial, le_rfl⟩ 1 ndim.toNat).mono le_rfl (zero_le _)
    (zero_le _) fun _ h => h).followed fun shape _ => ?_
  refine (spends_makeTensor shape.1 dtype).followed fun t _ => Spends.checkLeft ?_
  exact ((Spends.readBytes _ _).mono le_rfl le_rfl (zero_le _) fun _ _ => trivial).followed
    fun _ _ => Spends.pure trivial

/-- Every round of the loader takes bytes, so that they are bounded by the file. -/
theorem spends_readDict : Spends byRound 2 0 0 Accounted.readDict fun _ => True := by
  have hpod : Spends byRound 2 0 0 (Metered.readPod endOfFile UInt32) fun _ => True :=
    (Spends.readPod endOfFile UInt32).mono le_rfl le_rfl (zero_le _) fun _ h => h
  refine hpod.followed fun _ _ => Spends.failIf fun _ => hpod.followed fun _ _ =>
    Spends.failIf fun _ => hpod.followed fun num _ => ?_
  exact ((Spends.readMany ⟨trivial, le_rfl⟩ (by decide) spends_readTensor num.toNat).mono le_rfl
    le_rfl (zero_le _) fun _ _ => trivial).followed fun _ _ => Spends.pure trivial

theorem not_meets_readFields : ¬ Meets Overdrawn readFields s := by
  rintro ⟨e, he, hover⟩
  exact hover ((spends_readFields s (byAmount_covers _) (zero_le _)).1 e he)

/-- The tensor is made before its size is compared. -/
theorem meets_readData {fields : Text × DType × List Int} : Meets Overdrawn (readData fields) s ↔
    Meets Overdrawn (Declared.makeTensor fields.2.2 fields.2.1) s := by
  have htail : ∀ (t : TensorImpl), Silent (do
      checkLeft (serializerError "tensor data exceeds remaining file size") t.storage.sizeBytes
      let data ← Metered.readBytes
        (serializerError "unexpected end of file while reading tensor data") t.storage.sizeBytes
      pure (fields.1, (⟨t, data⟩ : LoadedTensor))) := fun t =>
    (Silent.checkLeft _ _).bind fun _ => (Silent.readBytes _ _).bind fun _ => Silent.pure _
  rw [readData, meets_bind, or_iff_left]
  rintro ⟨t, rest, -, hmeets⟩
  exact (htail t).not_meets hmeets

theorem meets_readTensor : Meets Overdrawn Accounted.readTensor s ↔ DeclaresMore s := by
  rw [readTensor_eq, meets_bind, or_iff_right not_meets_readFields]
  constructor
  · rintro ⟨⟨name, dtype, shape⟩, rest, hfields, hmeets⟩
    obtain ⟨hname, hrank, hfits, rfl⟩ := readFields_ok.mp hfields
    obtain ⟨halloc, hlt⟩ := meets_makeTensor.mp (meets_readData.mp hmeets)
    exact ⟨name, dtype, shape, rest, ⟨hname, hrank, hfits, halloc⟩, rfl, hlt⟩
  · rintro ⟨name, dtype, shape, rest, ⟨hname, hrank, hfits, halloc⟩, rfl, hlt⟩
    exact ⟨(name, dtype, shape), rest, readFields_ok.mpr ⟨hname, hrank, hfits, rfl⟩,
      meets_readData.mpr (meets_makeTensor.mpr ⟨halloc, hlt⟩)⟩

/-- The file makes a tensor larger than what is left exactly when it is cut short. -/
theorem meets_readDict (file : List UInt8) :
    Meets Overdrawn Accounted.readDict file ↔ CutShort file := by
  have hlast : ∀ num : UInt32, ∀ t : List UInt8, Meets Overdrawn (do
      let entries ← readMany Accounted.readTensor num.toNat
      pure (entries.foldl Dict.assignEntry [])) t ↔ Meets Overdrawn
        (readMany Accounted.readTensor num.toNat) t := by
    intro num t
    rw [meets_bind, or_iff_left]
    rintro ⟨entries, rest, -, hmeets⟩
    exact (Silent.pure _).not_meets hmeets
  simp only [Accounted.readDict, (Silent.readPod endOfFile UInt32).meets_bind,
    (Silent.failIf _ _).meets_bind, readPod_result_ok, failIf_result_ok, hlast,
    meets_readMany not_overdrawn_round accepts_readTensor, meets_readTensor, not_not]
  constructor
  · rintro ⟨m, _, rfl, _, _, ⟨rfl, h⟩, v, _, rfl, _, _, ⟨rfl, h'⟩, num, _, rfl, entries, rest,
      hlt, hentries, rfl, hmore⟩
    obtain rfl := (Prod.mk.inj h).2
    obtain rfl := (Prod.mk.inj h').2
    exact ⟨num, entries, rest, rfl, hlt, hentries, hmore⟩
  · rintro ⟨num, entries, rest, rfl, hlt, hentries, hmore⟩
    exact ⟨magic, _, rfl, (), _, ⟨rfl, rfl⟩, version, _, rfl, (), _, ⟨rfl, rfl⟩, num, _, rfl,
      entries, rest, hlt, hentries, rfl, hmore⟩

end Takes

end Tenzor.Nn.Serializer
