import Tenzor.Lib.Metered
import Tenzor.Lite.SavedModels

/-!
# What loading a model costs

Every count of a TZLITE file is compared with what is left of the buffer or of the section before
anything is reserved for it or looped over. The sections are windows of the buffer behind the node
table; the ids that they give are copied into the graph at the end.

## Implementation notes

A string is reserved with its characters, a vector with its elements. An element that is added to
a vector, a map or the graph counts with the round that adds it.
-/

namespace Tenzor.Lite

open Throwing
open Wire (Pod)

/-! ## Loading with an account -/

namespace Accounted

open Metered

/-- The loops over the four values of an array. -/
def readFour (p : Reading Exn α) : Reading Exn (Vector α 4) := do
  round
  let a ← p
  round
  let b ← p
  round
  let c ← p
  round
  let d ← p
  pure ⟨#[a, b, c, d], List.size_toArray⟩

def readPods (γ : Type) [Pod γ] (α : Type) [Pod α] (what : String) : Reading Exn (List α) :=
  readCounted eof γ (fun n => countError what (Pod.toNat n)) (Pod.width α) (readPod eof α)

def readExtras (version : UInt32) : Reading Exn (List Int64 × List UInt32) :=
  if 3 ≤ version then do
    let extraI ← readPods UInt32 Int64 "node extra_i"
    let extraF ← readPods UInt32 UInt32 "node extra_f"
    pure (extraI, extraF)
  else pure ([], [])

def readNode (version : UInt32) : Reading Exn LiteNode := do
  let op ← readPod eof UInt16
  let inputIds ← readPods UInt16 Int16 "node inputs"
  let outputIds ← readPods UInt16 Int16 "node outputs"
  let f ← readFour (readPod eof UInt32)
  let i ← readFour (readPod eof Int64)
  let extras ← readExtras version
  pure ⟨op, inputIds, outputIds, ⟨f, i, extras.1, extras.2⟩⟩

def readTvalEntry : Reading Exn LoadedValue := do
  let tensorId ← readPod eof Int16
  failIf (tensorId.toInt < 0) (readerError "negative tensor_id in TVAL section")
  let src ← readPod eof UInt8
  let ndim ← readPod eof UInt8
  let dt ← readPod eof UInt16
  let inputIndex ← readPod eof UInt32
  let weightOffset ← readPod eof UInt64
  let weightNbytes ← readPod eof UInt64
  checkCount (countError "TVAL shape" ndim.toNat) ndim.toNat 8
  demand ndim.toNat
  let shape ← readMany (readPod eof Int64) ndim.toNat
  pure ⟨tensorId, src, dt.toUInt8, shape, weightOffset, weightNbytes, inputIndex⟩

def parseTvalPayload : Reading Exn (List LoadedValue) :=
  readCounted eof UInt32 (fun n => countError "TVAL" n.toNat) 26 readTvalEntry

def readId (what : String) : Reading Exn Int16 := do
  let id ← readPod eof Int16
  failIf (id.toInt < 0) (readerError ("negative " ++ what))
  pure id

def parseIospPayload : Reading Exn (List Int16 × List Int16) := do
  let inputs ← readCounted eof UInt32 (fun n => countError "IOSP inputs" n.toNat) 2
    (readId "input tensor_id in IOSP section")
  let outputs ← readCounted eof UInt32 (fun n => countError "IOSP outputs" n.toNat) 2
    (readId "output tensor_id in IOSP section")
  pure (inputs, outputs)

def readText (what : String) : Reading Exn Text := do
  let len ← readPod eof UInt32
  checkCount (readerError ("META " ++ what ++ " length exceeds remaining payload")) len.toNat 1
  demand len.toNat
  readBytes eof len.toNat

def readMetaEntry : Reading Exn (Text × Text) := do
  let k ← readText "key"
  let v ← readText "value"
  pure (k, v)

/-- The map is not reserved. -/
def parseMetaPayload : Reading Exn (List (Text × Text)) := do
  let count ← readPod eof UInt32
  checkCount (countError "META" count.toNat) count.toNat 8
  let entries ← readMany readMetaEntry count.toNat
  pure (entries.foldl emplace [])

def readPlacement : Reading Exn MmplPlacement := do
  let tensorId ← readId "tensor_id in MMPL placement"
  let poolIndex ← readPod eof UInt8
  let offset ← readPod eof UInt64
  pure ⟨tensorId, poolIndex, offset.toNat⟩

def readWord : Reading Exn ℕ := do
  let w ← readPod eof UInt64
  pure w.toNat

def parseMmplPayload : Reading Exn MmplPlan := do
  let alignment ← readWord
  let poolSizes ← readCounted eof UInt32 (fun n => countError "MMPL pools" n.toNat) 8 readWord
  let placements ← readCounted eof UInt32 (fun n => countError "MMPL placements" n.toNat) 11
    readPlacement
  pure ⟨poolSizes, planAlignment alignment, placements⟩

/-- The header is copied as a whole. -/
def readHeader : Reading Exn TZLiteHeader :=
  window 24 do
    let magic ← readPod eof UInt32
    let version ← readPod eof UInt32
    let numNodes ← readPod eof UInt32
    let numWeights ← readPod eof UInt32
    let weightDataOffset ← readPod eof UInt64
    pure ⟨magic, version, numNodes, numWeights, weightDataOffset⟩

/-- The cursor moves behind the payload after its parser. -/
def applySection (m : LoadedModel) (tag : UInt32) (size : ℕ) : Reading Exn LoadedModel :=
  if tag = tagTval then do
    let tvs ← window size parseTvalPayload
    pure { m with tensorValues := tvs }
  else if tag = tagWgts then do
    demand size
    let payload ← copy size
    pure { m with weightBlob := payload }
  else if tag = tagIosp then do
    let io ← window size parseIospPayload
    pure { m with inputIds := io.1, outputIds := io.2 }
  else if tag = tagMeta then do
    let entries ← window size parseMetaPayload
    pure { m with metadata := entries }
  else if tag = tagMmpl then do
    let plan ← window size parseMmplPayload
    pure { m with memoryPlan := some plan }
  else do
    let _ ← copy size
    pure m

def readSection (m : LoadedModel) : Reading Exn LoadedModel := do
  let tag ← readPod eof UInt32
  let size ← readPod eof UInt64
  checkCount (readerError "TLV section overruns end of buffer") size.toNat 1
  applySection m tag size.toNat

def readSections (m : LoadedModel) : ℕ → Reading Exn LoadedModel
  | 0 => pure m
  | n + 1 => do
      round
      let m ← readSection m
      readSections m n

def readSectionTable (m : LoadedModel) : Reading Exn LoadedModel := do
  let count ← readPod eof UInt32
  checkCount (countError "TLV sections" count.toNat) count.toNat 12
  readSections m count.toNat

/-- The node table of a buffer of so many bytes. -/
def readNodes (size : ℕ) : Reading Exn (ℕ × LoadedModel) := do
  failIf (size < 24) (readerError "invalid input data")
  let header ← readHeader
  failIf (header.magic ≠ tzliteMagic) (readerError "bad magic — not a TZLITE file")
  failIf (header.version < tzliteVersionMinSupported ∨ tzliteVersion < header.version)
    (readerError ("unsupported TZLITE version " ++ toString header.version.toNat ++
      " (this build supports versions 1..3)"))
  let nodes ← readMany (readNode header.version) header.numNodes.toNat
  pure (header.weightDataOffset.toNat, ⟨⟨nodes, [], []⟩, [], [], [], [], [], none⟩)

/-- The cursor moves forward to the table. -/
def readTable (size tlvStart : ℕ) (m : LoadedModel) : Reading Exn LoadedModel := do
  let left ← unread
  failIf (tlvStart < size - left) (readerError "weight_data_offset overlaps the node table")
  let _ ← copy (tlvStart - (size - left))
  readSectionTable m

/-- The lists of ids are copied. -/
def handOver (m : LoadedModel) : Reading Exn LoadedModel := do
  demand m.inputIds.length
  demand m.outputIds.length
  pure m.handOver

def loadFull (size : ℕ) : Reading Exn LoadedModel := do
  let nodes ← readNodes size
  if nodes.1 < size then do
    let m ← readTable size nodes.1 nodes.2
    handOver m
  else pure nodes.2

end Accounted

/-! ## The account changes nothing -/

section Erases

open Metered (Erases)

theorem erases_readFour {α : Type} {m : Metered.Reading Exn α} {p : Wire.Reader Exn α}
    (h : Erases m p) : Erases (Accounted.readFour m) (readFour p) :=
  Erases.round (h.bind fun _ => Erases.round (h.bind fun _ => Erases.round (h.bind fun _ =>
    Erases.round (h.bind fun _ => Erases.pure _))))

theorem erases_readPods (γ : Type) [Pod γ] (α : Type) [Pod α] (what : String) :
    Erases (Accounted.readPods γ α what) (readPods γ α what) :=
  Erases.readCounted eof γ _ _ (Erases.readPod eof α)

theorem erases_readExtras (version : UInt32) :
    Erases (Accounted.readExtras version) (readExtras version) := by
  unfold Accounted.readExtras readExtras
  split
  · exact (erases_readPods UInt32 Int64 _).bind fun _ =>
      (erases_readPods UInt32 UInt32 _).bind fun _ => Erases.pure _
  · exact Erases.pure _

theorem erases_readNode (version : UInt32) :
    Erases (Accounted.readNode version) (readNode version) :=
  (Erases.readPod eof UInt16).bind fun _ => (erases_readPods UInt16 Int16 _).bind fun _ =>
    (erases_readPods UInt16 Int16 _).bind fun _ =>
      (erases_readFour (Erases.readPod eof UInt32)).bind fun _ =>
        (erases_readFour (Erases.readPod eof Int64)).bind fun _ =>
          (erases_readExtras version).bind fun _ => Erases.pure _

theorem erases_readTvalEntry : Erases Accounted.readTvalEntry readTvalEntry :=
  (Erases.readPod eof Int16).bind fun _ => (Erases.failIf _ _).bind fun _ =>
    (Erases.readPod eof UInt8).bind fun _ => (Erases.readPod eof UInt8).bind fun ndim =>
      (Erases.readPod eof UInt16).bind fun _ => (Erases.readPod eof UInt32).bind fun _ =>
        (Erases.readPod eof UInt64).bind fun _ => (Erases.readPod eof UInt64).bind fun _ =>
          (Erases.checkCount _ _ _).bind fun _ => Erases.demand _
            (((Erases.readPod eof Int64).readMany ndim.toNat).bind fun _ => Erases.pure _)

theorem erases_parseTvalPayload : Erases Accounted.parseTvalPayload parseTvalPayload :=
  Erases.readCounted eof UInt32 _ _ erases_readTvalEntry

theorem erases_readId (what : String) : Erases (Accounted.readId what) (readId what) :=
  (Erases.readPod eof Int16).bind fun _ => (Erases.failIf _ _).bind fun _ => Erases.pure _

theorem erases_parseIospPayload : Erases Accounted.parseIospPayload parseIospPayload :=
  (Erases.readCounted eof UInt32 _ _ (erases_readId _)).bind fun _ =>
    (Erases.readCounted eof UInt32 _ _ (erases_readId _)).bind fun _ => Erases.pure _

theorem erases_readText (what : String) : Erases (Accounted.readText what) (readText what) :=
  (Erases.readPod eof UInt32).bind fun _ => (Erases.checkCount _ _ _).bind fun _ =>
    Erases.demand _ (Erases.readBytes _ _)

theorem erases_readMetaEntry : Erases Accounted.readMetaEntry readMetaEntry :=
  (erases_readText _).bind fun _ => (erases_readText _).bind fun _ => Erases.pure _

theorem erases_parseMetaPayload : Erases Accounted.parseMetaPayload parseMetaPayload := by
  rw [parseMetaPayload, Wire.readCounted, Wire.reader_bind_assoc]
  refine (Erases.readPod eof UInt32).bind fun count => ?_
  rw [Wire.reader_bind_assoc]
  exact (Erases.checkCount _ _ _).bind fun _ =>
    (erases_readMetaEntry.readMany count.toNat).bind fun _ => Erases.pure _

theorem erases_readPlacement : Erases Accounted.readPlacement readPlacement :=
  (erases_readId _).bind fun _ => (Erases.readPod eof UInt8).bind fun _ =>
    (Erases.readPod eof UInt64).bind fun _ => Erases.pure _

theorem erases_readWord : Erases Accounted.readWord readWord :=
  (Erases.readPod eof UInt64).bind fun _ => Erases.pure _

theorem erases_parseMmplPayload : Erases Accounted.parseMmplPayload parseMmplPayload :=
  erases_readWord.bind fun _ => (Erases.readCounted eof UInt32 _ _ erases_readWord).bind fun _ =>
    (Erases.readCounted eof UInt32 _ _ erases_readPlacement).bind fun _ => Erases.pure _

theorem erases_header : Erases (do
    let magic ← Metered.readPod eof UInt32
    let version ← Metered.readPod eof UInt32
    let numNodes ← Metered.readPod eof UInt32
    let numWeights ← Metered.readPod eof UInt32
    let weightDataOffset ← Metered.readPod eof UInt64
    pure (⟨magic, version, numNodes, numWeights, weightDataOffset⟩ : TZLiteHeader)) readHeader :=
  (Erases.readPod eof UInt32).bind fun _ => (Erases.readPod eof UInt32).bind fun _ =>
    (Erases.readPod eof UInt32).bind fun _ => (Erases.readPod eof UInt32).bind fun _ =>
      (Erases.readPod eof UInt64).bind fun _ => Erases.pure _

/-- A section whose payload is there. -/
theorem applySection_result (m : LoadedModel) (tag : UInt32) {size : ℕ} {s : List UInt8}
    (hsize : size ≤ s.length) : (Accounted.applySection m tag size s).result =
      ((applySection m tag (s.take size)).map fun m => (m, s.drop size)).mapError .thrown := by
  have hcopy : (Metered.copy size s : Metered.Run Exn (List UInt8)).result =
      .ok (s.take size, s.drop size) := by
    rw [Metered.copy, if_pos hsize]
  have hparse : ∀ {α : Type} {p : Metered.Reading Exn α} {q : Wire.Reader Exn α}
      (f : α → LoadedModel), Erases p q →
      ((Metered.window size p >>= fun a => pure (f a)) s).result =
        (((parse q (s.take size)).map f).map fun m => (m, s.drop size)).mapError .thrown := by
    intro α p q f hpq
    have hwindow := hpq.window hsize
    cases hq : q (s.take size) with
    | error e =>
      rw [hq] at hwindow
      rw [Metered.bind_apply_error hwindow, parse, hq]
      rfl
    | ok r =>
      rw [hq] at hwindow
      rw [Metered.bind_apply_ok hwindow, parse, hq]
      rfl
  unfold Accounted.applySection applySection
  split
  · exact hparse _ erases_parseTvalPayload
  split
  · rw [Metered.bind_apply_ok (Metered.demand_result_ok.mpr rfl), Metered.bind_apply_ok hcopy]
    rfl
  split
  · exact hparse _ erases_parseIospPayload
  split
  · exact hparse _ erases_parseMetaPayload
  split
  · exact hparse _ erases_parseMmplPayload
  · rw [Metered.bind_apply_ok hcopy]
    rfl

theorem erases_readSection (m : LoadedModel) :
    Erases (Accounted.readSection m) (readSection m) := by
  refine (Erases.readPod eof UInt32).bind fun tag => (Erases.readPod eof UInt64).bind fun size =>
    Erases.checkCount_bind Nat.one_pos fun s hs => ?_
  rw [Nat.mul_one] at hs
  have hbytes : Wire.readBytes eof size.toNat s = .ok (s.take size.toNat, s.drop size.toNat) := by
    rw [Wire.readBytes, if_neg (Nat.not_lt.mpr hs)]
  rw [applySection_result m tag hs]
  change _ = Except.mapError Metered.Fault.thrown (Wire.readBytes eof size.toNat s >>= fun r => do
    let m ← applySection m tag r.1
    pure (m, r.2))
  rw [hbytes]
  change _ = Except.mapError Metered.Fault.thrown (applySection m tag (s.take size.toNat) >>=
    fun m => pure (m, s.drop size.toNat))
  cases applySection m tag (s.take size.toNat) <;> rfl

theorem erases_readSections (m : LoadedModel) (n : ℕ) :
    Erases (Accounted.readSections m n) (readSections m n) := by
  induction n generalizing m with
  | zero => exact Erases.pure m
  | succ n ih => exact Erases.round ((erases_readSection m).bind ih)

theorem erases_readSectionTable (m : LoadedModel) :
    Erases (Accounted.readSectionTable m) (readSectionTable m) :=
  (Erases.readPod eof UInt32).bind fun count => (Erases.checkCount _ _ _).bind fun _ =>
    erases_readSections m count.toNat

end Erases

/-! ## What the parsers cost -/

section Spends

variable {c : ℕ}


open Metered hiding readPod

/-- An id that a section gives is not negative. -/
def IsId (id : Int16) : Prop := 0 ≤ id.toInt

theorem spends_readFour {α : Type} {p : Reading Exn α} {taken : ℕ} (htaken : 1 ≤ taken)
    (h : Spends byAmount 0 0 taken p fun _ => True) :
    Spends byAmount 1 0 0 (Accounted.readFour p) fun _ => True := by
  have hround : byAmount.Allowed .round ∧ byAmount.price .round ≤ 1 := ⟨trivial, le_rfl⟩
  exact (Spends.round_bind hround htaken h fun _ _ => Spends.round_bind hround htaken h fun _ _ =>
    Spends.round_bind hround htaken h fun _ _ => Spends.round_bind hround htaken h fun _ _ =>
      Spends.pure trivial).forget

theorem spends_readPods (γ : Type) [Pod γ] (α : Type) [Pod α] (what : String)
    (hwidth : 0 < Pod.width α) :
    Spends byAmount 2 0 0 (Accounted.readPods γ α what) fun _ => True :=
  ((Spends.readCounted eof γ _ hwidth (Spends.readPod eof α)).mono le_rfl le_rfl le_rfl
    fun _ _ => trivial).forget

theorem spends_readNode (version : UInt32) :
    Spends byAmount 2 0 2 (Accounted.readNode version) fun _ => True := by
  have hextras : Spends byAmount 2 0 0 (Accounted.readExtras version) fun _ => True := by
    unfold Accounted.readExtras
    split
    · exact (spends_readPods UInt32 Int64 _ (by decide)).followed fun _ _ =>
        (spends_readPods UInt32 UInt32 _ (by decide)).followed fun _ _ => Spends.pure trivial
    · exact Spends.pure trivial
  have hfloats : Spends byAmount 1 0 0 (Accounted.readFour (Metered.readPod eof UInt32))
      fun _ => True := spends_readFour (by decide) (Spends.readPod eof UInt32)
  have hints : Spends byAmount 1 0 0 (Accounted.readFour (Metered.readPod eof Int64))
      fun _ => True := spends_readFour (by decide) (Spends.readPod eof Int64)
  exact (Spends.readPod eof UInt16).followed fun _ _ =>
    (spends_readPods UInt16 Int16 _ (by decide)).followed fun _ _ =>
      (spends_readPods UInt16 Int16 _ (by decide)).followed fun _ _ =>
        (hfloats.widen (by decide)).followed fun _ _ =>
          (hints.widen (by decide)).followed fun _ _ =>
            hextras.followed fun _ _ => Spends.pure trivial

/-- The fields of an entry before its dimensions pay for the entry. -/
theorem spends_readTvalEntry :
    Spends byAmount 2 0 26 Accounted.readTvalEntry fun tv => IsId tv.tensorId := by
  have hshape : ∀ (ndim : UInt8) (k : List Int64 → LoadedValue) (tensorId : Int16),
      IsId tensorId → (∀ shape, (k shape).tensorId = tensorId) →
      Spends byAmount 2 0 0 (do
        checkCount (countError "TVAL shape" ndim.toNat) ndim.toNat 8
        demand ndim.toNat
        let shape ← readMany (Metered.readPod eof Int64) ndim.toNat
        pure (k shape)) fun tv => IsId tv.tensorId := by
    intro ndim k tensorId hid hk
    have hdims : Spends byAmount 1 (ndim.toNat * 8) (ndim.toNat * 8)
        (readMany (Metered.readPod eof Int64) ndim.toNat)
        fun shape => shape.length = ndim.toNat ∧ ∀ d ∈ shape, True :=
      Spends.readMany ⟨trivial, le_rfl⟩ (by decide) (Spends.readPod eof Int64) _
    have hvalue : Spends byAmount 1 (ndim.toNat * 8) (ndim.toNat * 8) (do
        let shape ← readMany (Metered.readPod eof Int64) ndim.toNat
        pure (k shape)) fun tv => IsId tv.tensorId :=
      hdims.followed fun shape _ => Spends.pure ((hk shape).symm ▸ hid)
    exact Spends.checkCount (by decide) (Spends.demand (by omega) (by omega) hvalue).forget
  have hprefix : ∀ (tensorId : Int16), IsId tensorId →
      Spends byAmount 2 0 (1 + (1 + (2 + (4 + (8 + (8 + 0)))))) (do
        let src ← Metered.readPod eof UInt8
        let ndim ← Metered.readPod eof UInt8
        let dt ← Metered.readPod eof UInt16
        let inputIndex ← Metered.readPod eof UInt32
        let weightOffset ← Metered.readPod eof UInt64
        let weightNbytes ← Metered.readPod eof UInt64
        checkCount (countError "TVAL shape" ndim.toNat) ndim.toNat 8
        demand ndim.toNat
        let shape ← readMany (Metered.readPod eof Int64) ndim.toNat
        pure (⟨tensorId, src, dt.toUInt8, shape, weightOffset, weightNbytes, inputIndex⟩ :
          LoadedValue)) fun tv => IsId tv.tensorId := fun tensorId hid =>
    (Spends.readPod eof UInt8).bind fun _ _ => (Spends.readPod eof UInt8).bind fun ndim _ =>
      (Spends.readPod eof UInt16).bind fun _ _ => (Spends.readPod eof UInt32).bind fun _ _ =>
        (Spends.readPod eof UInt64).bind fun _ _ => (Spends.readPod eof UInt64).bind fun _ _ =>
          hshape ndim _ tensorId hid fun _ => rfl
  have hentry : Spends byAmount 2 0 (2 + 24) Accounted.readTvalEntry fun tv => IsId tv.tensorId :=
    (Spends.readPod eof Int16).bind fun tensorId _ => Spends.failIf fun hneg =>
      hprefix tensorId (not_lt.mp hneg)
  exact hentry

theorem spends_parseTvalPayload : Spends byAmount 4 0 0 Accounted.parseTvalPayload
    fun tvs => ∀ tv ∈ tvs, IsId tv.tensorId :=
  (Spends.readCounted eof UInt32 _ (by decide) spends_readTvalEntry).forget

theorem spends_readId (what : String) : Spends byAmount c 0 2 (Accounted.readId what) IsId :=
  (Spends.readPod eof Int16).followed fun _ _ => Spends.failIf fun hneg =>
    Spends.pure (not_lt.mp hneg)

theorem spends_parseIospPayload : Spends byAmount 2 0 0 Accounted.parseIospPayload
    fun io => (∀ id ∈ io.1, IsId id) ∧ ∀ id ∈ io.2, IsId id :=
  (Spends.readCounted eof UInt32 _ (by decide) (spends_readId _)).forget.followed fun _ hin =>
    (Spends.readCounted eof UInt32 _ (by decide) (spends_readId _)).forget.followed fun _ hout =>
      Spends.pure ⟨hin, hout⟩

theorem spends_readText (what : String) :
    Spends byAmount 1 0 4 (Accounted.readText what) fun _ => True :=
  (Spends.readPod eof UInt32).followed fun len _ => Spends.checkCount Nat.one_pos
    ((Spends.demand (by omega) le_rfl (Spends.readBytes eof len.toNat)).mono le_rfl le_rfl
      (Nat.zero_le _) fun _ _ => trivial)

theorem spends_parseMetaPayload :
    Spends byAmount 2 0 0 Accounted.parseMetaPayload fun _ => True := by
  have hentry : Spends byAmount 1 0 8 Accounted.readMetaEntry fun _ => True :=
    (spends_readText _).bind fun _ _ => (spends_readText _).followed fun _ _ => Spends.pure trivial
  exact (Spends.readPod eof UInt32).forget.followed fun count _ => Spends.checkCount (by decide)
    ((Spends.readMany ⟨trivial, le_rfl⟩ (by decide) hentry count.toNat).forget.followed
      fun _ _ => Spends.pure trivial)

theorem spends_readPlacement :
    Spends byAmount c 0 11 Accounted.readPlacement fun p => IsId p.tensorId := by
  have hfields : Spends byAmount c 0 (2 + (1 + 8)) Accounted.readPlacement
      fun p => IsId p.tensorId :=
    (spends_readId _).bind fun _ hid => (Spends.readPod eof UInt8).bind fun _ _ =>
      (Spends.readPod eof UInt64).followed fun _ _ => Spends.pure hid
  exact hfields

theorem spends_readWord : Spends byAmount c 0 8 Accounted.readWord fun _ => True :=
  (Spends.readPod eof UInt64).followed fun _ _ => Spends.pure trivial

theorem spends_parseMmplPayload : Spends byAmount 2 0 0 Accounted.parseMmplPayload
    fun plan => ∀ p ∈ plan.placements, IsId p.tensorId :=
  spends_readWord.forget.followed fun _ _ =>
    (Spends.readCounted eof UInt32 _ (by decide) spends_readWord).forget.followed fun _ _ =>
      (Spends.readCounted eof UInt32 _ (by decide) spends_readPlacement).forget.followed
        fun _ hids => Spends.pure hids

/-- No id that a section gives is negative. -/
structure LoadedModel.IdsOk (m : LoadedModel) : Prop where
  values : ∀ tv ∈ m.tensorValues, IsId tv.tensorId
  inputs : ∀ id ∈ m.inputIds, IsId id
  outputs : ∀ id ∈ m.outputIds, IsId id
  plan : ∀ plan ∈ m.memoryPlan, ∀ p ∈ plan.placements, IsId p.tensorId
  graphInputs : ∀ id ∈ m.graph.inputIds, IsId id
  graphOutputs : ∀ id ∈ m.graph.outputIds, IsId id

variable {m : LoadedModel}

/-- A section is paid for by its payload. -/
theorem spends_applySection (hm : m.IdsOk) (tag : UInt32) (size : ℕ) :
    Spends byAmount 4 size size (Accounted.applySection m tag size) LoadedModel.IdsOk := by
  unfold Accounted.applySection
  split
  · exact (Spends.window spends_parseTvalPayload).followed fun tvs htvs =>
      Spends.pure { hm with values := htvs }
  split
  · have hpayload : Spends byAmount 3 size size (do
        let payload ← copy size
        pure { m with weightBlob := payload } : Reading Exn LoadedModel) LoadedModel.IdsOk :=
      (Spends.copy size).followed fun _ _ => Spends.pure { hm with }
    exact Spends.demand le_rfl le_rfl hpayload
  split
  · exact ((Spends.window spends_parseIospPayload).widen (by decide)).followed fun io hio =>
      Spends.pure { hm with inputs := hio.1, outputs := hio.2 }
  split
  · exact ((Spends.window spends_parseMetaPayload).widen (by decide)).followed fun _ _ =>
      Spends.pure { hm with }
  split
  · refine ((Spends.window spends_parseMmplPayload).widen (by decide)).followed fun plan hplan =>
      Spends.pure { hm with plan := ?_ }
    intro p hp
    obtain rfl := Option.some.inj hp
    exact hplan
  · exact (Spends.copy size).followed fun _ _ => Spends.pure hm

theorem spends_readSection (hm : m.IdsOk) :
    Spends byAmount 4 0 4 (Accounted.readSection m) LoadedModel.IdsOk := by
  refine (Spends.readPod eof UInt32).followed fun tag _ => (Spends.readPod eof UInt64).forget.followed
    fun size _ => Spends.checkCount Nat.one_pos ?_
  rw [Nat.mul_one]
  exact (spends_applySection hm tag size.toNat).forget

/-- A section takes its tag, so that it pays for its round. -/
theorem spends_readSections (hm : m.IdsOk) (n : ℕ) :
    Spends byAmount 5 0 0 (Accounted.readSections m n) LoadedModel.IdsOk := by
  induction n generalizing m with
  | zero => exact Spends.pure hm
  | succ n ih =>
    exact (Spends.round_bind ⟨trivial, le_rfl⟩ (by decide) (spends_readSection hm)
      fun _ hm' => ih hm').forget

theorem spends_readSectionTable (hm : m.IdsOk) :
    Spends byAmount 5 0 0 (Accounted.readSectionTable m) LoadedModel.IdsOk :=
  (Spends.readPod eof UInt32).forget.followed fun count _ => Spends.checkCount (by decide)
    (((spends_readSections hm count.toNat)).mono le_rfl (Nat.zero_le _) le_rfl fun _ h => h)

theorem spends_readHeader : Spends byAmount c 24 24 Accounted.readHeader fun _ => True :=
  Spends.window ((Spends.readPod eof UInt32).followed fun _ _ =>
    (Spends.readPod eof UInt32).forget.followed fun _ _ =>
      (Spends.readPod eof UInt32).forget.followed fun _ _ =>
        (Spends.readPod eof UInt32).forget.followed fun _ _ =>
          (Spends.readPod eof UInt64).forget.followed fun _ _ => Spends.pure trivial).forget

theorem spends_readNodes (size : ℕ) :
    Spends byAmount 5 size 0 (Accounted.readNodes size) fun nodes => nodes.2.IdsOk := by
  refine Spends.failIf fun hsize => ?_
  have hheader : Spends byAmount 5 size 0 Accounted.readHeader fun _ => True :=
    spends_readHeader.mono le_rfl (not_lt.mp hsize) (Nat.zero_le _) fun _ h => h
  refine hheader.followed fun header _ => Spends.failIf fun _ => Spends.failIf fun _ => ?_
  have hnodes : Spends byAmount 5 0 0 (readMany (Accounted.readNode header.version)
      header.numNodes.toNat) fun nodes => nodes.length = header.numNodes.toNat ∧ ∀ n ∈ nodes, True :=
    ((Spends.readMany ⟨trivial, le_rfl⟩ (by decide) (spends_readNode _) _).widen (by decide)).forget
  exact hnodes.followed fun nodes _ => Spends.pure
    ⟨by simp, by simp, by simp, by simp, by simp, by simp⟩

/-- The table begins before the end of the buffer. -/
theorem spends_readTable {size tlvStart : ℕ} (hm : m.IdsOk) (hlt : tlvStart < size) :
    Spends byAmount 5 0 0 (Accounted.readTable size tlvStart m) LoadedModel.IdsOk := by
  refine Spends.unread_left fun left => Spends.failIf fun _ => ?_
  have hcopy : Spends byAmount 5 left 0 (copy (tlvStart - (size - left)) : Reading Exn _)
      fun bytes => bytes.length = tlvStart - (size - left) :=
    (Spends.copy _).mono le_rfl (by omega) (Nat.zero_le _) fun _ h => h
  exact hcopy.followed fun _ _ => spends_readSectionTable hm

end Spends

/-- The node table of `loadFull`, and where the sections begin. -/
def loadNodes (data : List UInt8) : Except Exn ((ℕ × LoadedModel) × List UInt8) := do
  throwIf (data.length < 24) (readerError "invalid input data")
  let (header, body) ← readHeader data
  throwIf (header.magic ≠ tzliteMagic) (readerError "bad magic — not a TZLITE file")
  throwIf (header.version < tzliteVersionMinSupported ∨ tzliteVersion < header.version)
    (readerError ("unsupported TZLITE version " ++ toString header.version.toNat ++
      " (this build supports versions 1..3)"))
  let (nodes, rest) ← Wire.readMany (readNode header.version) header.numNodes.toNat body
  pure ((header.weightDataOffset.toNat, ⟨⟨nodes, [], []⟩, [], [], [], [], [], none⟩), rest)

/-- The sections of `loadFull`. -/
def loadTable (data : List UInt8) (nodes : (ℕ × LoadedModel) × List UInt8) :
    Except Exn LoadedModel := do
  throwIf (nodes.1.1 < data.length - nodes.2.length)
    (readerError "weight_data_offset overlaps the node table")
  parse (readSectionTable nodes.1.2) (data.drop nodes.1.1)

theorem loadFull_eq (data : List UInt8) : loadFull data = (do
    let nodes ← loadNodes data
    if nodes.1.1 < data.length then do
      let m ← loadTable data nodes
      pure m.handOver
    else pure nodes.1.2) := by
  simp only [loadFull, loadNodes, loadTable, bind_assoc, pure_bind]

theorem loadNodes_of_header {data body : List UInt8} {header : TZLiteHeader}
    (hsize : ¬ data.length < 24) (hread : readHeader data = .ok (header, body)) :
    loadNodes data =
      if header.magic ≠ tzliteMagic then .error (readerError "bad magic — not a TZLITE file")
      else if header.version < tzliteVersionMinSupported ∨ tzliteVersion < header.version then
        .error (readerError ("unsupported TZLITE version " ++ toString header.version.toNat ++
          " (this build supports versions 1..3)"))
      else (Wire.readMany (readNode header.version) header.numNodes.toNat body).map fun r =>
        ((header.weightDataOffset.toNat, ⟨⟨r.1, [], []⟩, [], [], [], [], [], none⟩), r.2) := by
  simp only [loadNodes, hread, throwIf, bind, Except.bind, if_neg hsize]
  by_cases hmagic : header.magic ≠ tzliteMagic
  · simp only [if_pos hmagic]
  by_cases hversion : header.version < tzliteVersionMinSupported ∨ tzliteVersion < header.version
  · simp only [if_neg hmagic, if_pos hversion]
  simp only [if_neg hmagic, if_neg hversion]
  cases Wire.readMany (readNode header.version) header.numNodes.toNat body <;> rfl

section Whole

variable {data rest s : List UInt8} {tlvStart size n : ℕ}

open Metered hiding readPod readBytes

theorem exists_header {bytes : List UInt8} (h : bytes.length = 24) :
    ∃ header, writeHeader header = bytes := by
  have hpod : ∀ (α : Type) [Pod α] (i : ℕ), i + Pod.width α ≤ 24 →
      Wire.appendPod (Pod.ofNat (Wire.ofLeBytes ((bytes.drop i).take (Pod.width α))) : α) =
        (bytes.drop i).take (Pod.width α) := by
    intro α _ i hi
    apply Wire.appendPod_ofNat
    rw [List.length_take, List.length_drop]
    omega
  have hsplit : ∀ i w, (bytes.drop i).take w ++ bytes.drop (i + w) = bytes.drop i := by
    intro i w
    rw [← List.drop_drop, List.take_append_drop]
  refine ⟨⟨Pod.ofNat (Wire.ofLeBytes ((bytes.drop 0).take 4)),
    Pod.ofNat (Wire.ofLeBytes ((bytes.drop 4).take 4)),
    Pod.ofNat (Wire.ofLeBytes ((bytes.drop 8).take 4)),
    Pod.ofNat (Wire.ofLeBytes ((bytes.drop 12).take 4)),
    Pod.ofNat (Wire.ofLeBytes ((bytes.drop 16).take 8))⟩, ?_⟩
  have hlast : (bytes.drop 16).take 8 = bytes.drop 16 :=
    List.take_of_length_le (by rw [List.length_drop, h])
  calc writeHeader _ = (bytes.drop 0).take 4 ++ ((bytes.drop 4).take 4 ++
        ((bytes.drop 8).take 4 ++ ((bytes.drop 12).take 4 ++ (bytes.drop 16).take 8))) := by
        exact congrArg₂ _ (hpod UInt32 0 (by decide)) (congrArg₂ _ (hpod UInt32 4 (by decide))
          (congrArg₂ _ (hpod UInt32 8 (by decide)) (congrArg₂ _ (hpod UInt32 12 (by decide))
            (hpod UInt64 16 (by decide)))))
    _ = bytes := by
        rw [hlast, hsplit 12 4, hsplit 8 4, hsplit 4 4, hsplit 0 4, List.drop_zero]

theorem readNodes_result (data : List UInt8) :
    (Accounted.readNodes data.length data).result = (loadNodes data).mapError .thrown := by
  rw [Accounted.readNodes, failIf_bind]
  by_cases hsize : data.length < 24
  · rw [if_pos hsize, loadNodes, throwIf, if_pos hsize]
    rfl
  have hlen : (data.take 24).length = 24 := by
    rw [List.length_take, Nat.min_eq_left (not_lt.mp hsize)]
  obtain ⟨header, hbytes⟩ := exists_header hlen
  have hread : readHeader data = .ok (header, data.drop 24) := by
    have h := reads_header header (data.drop 24)
    rwa [hbytes, List.take_append_drop] at h
  have hwindow : readHeader (data.take 24) = .ok (header, []) := by
    have h := reads_header header []
    rwa [List.append_nil, hbytes] at h
  have haccounted : (Accounted.readHeader data).result = .ok (header, data.drop 24) := by
    rw [Accounted.readHeader, erases_header.window (not_lt.mp hsize), hwindow]
    rfl
  have hnodes := (erases_readNode header.version).readMany header.numNodes.toNat (data.drop 24)
  rw [if_neg hsize, bind_apply_ok haccounted, loadNodes_of_header hsize hread]
  simp only [failIf_bind]
  split
  · rfl
  split
  · rfl
  cases hr : Wire.readMany (readNode header.version) header.numNodes.toNat (data.drop 24) with
  | error e =>
    rw [hr] at hnodes
    rw [bind_apply_error hnodes]
    rfl
  | ok r =>
    rw [hr] at hnodes
    rw [bind_apply_ok hnodes]
    rfl

variable {m : LoadedModel}

/-- The cursor moves forward in what the node table has left. -/
theorem readTable_result (hrest : rest <:+ data) (hlt : tlvStart < data.length) :
    ((Accounted.readTable data.length tlvStart m rest).result.map Prod.fst) =
      (loadTable data ((tlvStart, m), rest)).mapError .thrown := by
  obtain ⟨taken, rfl⟩ := hrest
  rw [Accounted.readTable, bind_apply_ok (unread_result_ok.mpr rfl), failIf_bind, loadTable, throwIf]
  have hoffset : (taken ++ rest).length - rest.length = taken.length := by
    rw [List.length_append, Nat.add_sub_cancel]
  rw [hoffset]
  by_cases hover : tlvStart < taken.length
  · rw [if_pos hover, if_pos hover]
    rfl
  have hdrop : (taken ++ rest).drop tlvStart = rest.drop (tlvStart - taken.length) := by
    rw [List.drop_append, List.drop_eq_nil_of_le (not_lt.mp hover), List.nil_append]
  have hle : tlvStart - taken.length ≤ rest.length := by
    omega
  have hcopy : (copy (tlvStart - taken.length) rest : Run Exn (List UInt8)).result =
      .ok (rest.take (tlvStart - taken.length), rest.drop (tlvStart - taken.length)) := by
    rw [copy, if_pos hle]
  rw [if_neg hover, if_neg hover, bind_apply_ok hcopy, hdrop]
  rw [erases_readSectionTable m (rest.drop (tlvStart - taken.length))]
  rw [parse]
  cases readSectionTable m (rest.drop (tlvStart - taken.length)) <;> rfl

/-- The account is kept of the loader itself. -/
theorem loadFull_result (data : List UInt8) :
    (Accounted.loadFull data.length data).result.map Prod.fst =
      (loadFull data).mapError .thrown := by
  have hnodes := readNodes_result data
  have hspends := (spends_readNodes data.length data (byAmount_covers _) le_rfl).2
  rw [Accounted.loadFull, loadFull_eq]
  cases h : loadNodes data with
  | error e =>
    rw [h] at hnodes
    rw [bind_apply_error hnodes]
    rfl
  | ok nodes =>
    obtain ⟨⟨tlvStart, m⟩, rest⟩ := nodes
    rw [h] at hnodes
    rw [bind_apply_ok hnodes]
    rw [hnodes] at hspends
    change ((if tlvStart < data.length then _ else _ : Reading Exn LoadedModel) rest).result.map
      Prod.fst = Except.mapError Fault.thrown (if tlvStart < data.length then
        loadTable data ((tlvStart, m), rest) >>= fun m => pure m.handOver else pure m)
    by_cases hlt : tlvStart < data.length
    · have htable := readTable_result (m := m) hspends.2.1 hlt
      rw [if_pos hlt, if_pos hlt]
      cases ht : (Accounted.readTable data.length tlvStart m rest).result with
      | error f =>
        rw [bind_apply_error ht]
        rw [ht] at htable
        cases hl : loadTable data ((tlvStart, m), rest) with
        | error e =>
          rw [hl] at htable
          exact htable
        | ok m' =>
          rw [hl] at htable
          exact nomatch htable
      | ok r =>
        rw [bind_apply_ok ht]
        rw [ht] at htable
        cases hl : loadTable data ((tlvStart, m), rest) with
        | error e =>
          rw [hl] at htable
          exact nomatch htable
        | ok m' =>
          rw [hl] at htable
          obtain rfl : r.1 = m' := Except.ok.inj htable
          rfl
    · rw [if_neg hlt, if_neg hlt]
      rfl

/-- The lists of ids are not longer than the buffer. -/
def LoadedModel.FewIds (m : LoadedModel) (size : ℕ) : Prop :=
  m.inputIds.length ≤ size ∧ m.outputIds.length ≤ size

theorem fewIds_of_parseIosp {io : List Int16 × List Int16}
    (h : (Accounted.parseIospPayload s).result = .ok (io, rest)) :
    io.1.length ≤ s.length ∧ io.2.length ≤ s.length := by
  obtain ⟨inputs, mid, hin, h⟩ := bind_result_ok.mp h
  obtain ⟨outputs, _, hout, h⟩ := bind_result_ok.mp h
  obtain rfl := (Prod.mk.inj (pure_result_ok.mp h)).1
  have hmid : mid <:+ s := ((Spends.readCounted eof UInt32 _ (by decide)
    (spends_readId (c := 0) _)).of_ok (byAmount_covers _) (Nat.zero_le _) hin).2.1
  exact ⟨length_le_of_readCounted hin, (length_le_of_readCounted hout).trans hmid.length_le⟩

/-- The node table gives no ids. -/
theorem fewIds_of_readNodes {nodes : ℕ × LoadedModel}
    (h : (Accounted.readNodes size s).result = .ok (nodes, rest)) : nodes.2.FewIds n := by
  obtain ⟨_, _, -, h⟩ := bind_result_ok.mp h
  obtain ⟨header, _, -, h⟩ := bind_result_ok.mp h
  obtain ⟨_, _, -, h⟩ := bind_result_ok.mp h
  obtain ⟨_, _, -, h⟩ := bind_result_ok.mp h
  obtain ⟨_, _, -, h⟩ := bind_result_ok.mp h
  obtain rfl := (Prod.mk.inj (pure_result_ok.mp h)).1
  exact ⟨Nat.zero_le _, Nat.zero_le _⟩

variable {m' : LoadedModel}

theorem fewIds_of_applySection {tag : UInt32} (hm : m.FewIds n) (hn : s.length ≤ n)
    (h : (Accounted.applySection m tag size s).result = .ok (m', rest)) : m'.FewIds n := by
  unfold Accounted.applySection at h
  split at h
  · obtain ⟨_, _, -, h⟩ := bind_result_ok.mp h
    obtain rfl := (Prod.mk.inj (pure_result_ok.mp h)).1
    exact hm
  split at h
  · obtain ⟨_, _, -, h⟩ := bind_result_ok.mp h
    obtain ⟨_, _, -, h⟩ := bind_result_ok.mp h
    obtain rfl := (Prod.mk.inj (pure_result_ok.mp h)).1
    exact hm
  split at h
  · obtain ⟨io, _, hio, h⟩ := bind_result_ok.mp h
    obtain rfl := (Prod.mk.inj (pure_result_ok.mp h)).1
    obtain ⟨-, ⟨_, hparse⟩, -⟩ := window_result_ok.mp hio
    have htake : (s.take size).length ≤ n := (List.length_take_le' size s).trans hn
    obtain ⟨hin, hout⟩ := fewIds_of_parseIosp hparse
    exact ⟨hin.trans htake, hout.trans htake⟩
  split at h
  · obtain ⟨_, _, -, h⟩ := bind_result_ok.mp h
    obtain rfl := (Prod.mk.inj (pure_result_ok.mp h)).1
    exact hm
  split at h
  · obtain ⟨_, _, -, h⟩ := bind_result_ok.mp h
    obtain rfl := (Prod.mk.inj (pure_result_ok.mp h)).1
    exact hm
  · obtain ⟨_, _, -, h⟩ := bind_result_ok.mp h
    obtain rfl := (Prod.mk.inj (pure_result_ok.mp h)).1
    exact hm

theorem fewIds_of_readSections {k : ℕ} (hids : m.IdsOk) (hm : m.FewIds n) (hn : s.length ≤ n)
    (h : (Accounted.readSections m k s).result = .ok (m', rest)) : m'.FewIds n := by
  induction k generalizing m s with
  | zero =>
    obtain rfl := (Prod.mk.inj (pure_result_ok.mp h)).1
    exact hm
  | succ k ih =>
    obtain ⟨_, _, hround, h⟩ := bind_result_ok.mp h
    obtain rfl := (Prod.mk.inj (round_result_ok.mp hround)).2
    obtain ⟨m₁, mid, hsection, h⟩ := bind_result_ok.mp h
    obtain ⟨hids₁, hmid, -⟩ := (spends_readSection hids).of_ok (byAmount_covers _) (Nat.zero_le _) hsection
    refine ih hids₁ ?_ (hmid.length_le.trans hn) h
    obtain ⟨tag, s₁, htag, hsection⟩ := bind_result_ok.mp hsection
    obtain ⟨size, s₂, hsize, hsection⟩ := bind_result_ok.mp hsection
    obtain ⟨_, s₃, hcheck, hsection⟩ := bind_result_ok.mp hsection
    obtain ⟨-, hs⟩ := checkCount_result_ok.mp hcheck
    obtain rfl := (Prod.mk.inj hs).2
    have htag' : s₁ <:+ s := ⟨_, (readPod_result_ok.mp htag).symm⟩
    have hsize' : s₂ <:+ s₁ := ⟨_, (readPod_result_ok.mp hsize).symm⟩
    exact fewIds_of_applySection hm ((hsize'.trans htag').length_le.trans hn) hsection

theorem fewIds_of_readTable (hids : m.IdsOk) (hm : m.FewIds n) (hn : s.length ≤ n)
    (h : (Accounted.readTable n tlvStart m s).result = .ok (m', rest)) : m'.FewIds n := by
  obtain ⟨left, _, hleft, h⟩ := bind_result_ok.mp h
  obtain ⟨rfl, rfl⟩ := Prod.mk.inj (unread_result_ok.mp hleft)
  obtain ⟨_, _, hover, h⟩ := bind_result_ok.mp h
  obtain rfl := (Prod.mk.inj (failIf_result_ok.mp hover).2).2
  obtain ⟨_, s₁, hcopy, h⟩ := bind_result_ok.mp h
  obtain ⟨count, s₂, hcount, h⟩ := bind_result_ok.mp h
  obtain ⟨_, s₃, hcheck, h⟩ := bind_result_ok.mp h
  obtain ⟨-, hs⟩ := checkCount_result_ok.mp hcheck
  obtain rfl := (Prod.mk.inj hs).2
  have hcopy' : s₁ <:+ s := ⟨_, (copy_result_ok.mp hcopy).2.symm⟩
  have hcount' : s₂ <:+ s₁ := ⟨_, (readPod_result_ok.mp hcount).symm⟩
  exact fewIds_of_readSections hids hm ((hcount'.trans hcopy').length_le.trans hn) h

/-- The loader stays in the buffer, its rounds and what it reserves are linear in the length of the
buffer, and no id that it returns is negative. -/
structure LoadsWithin (data : List UInt8) : Prop where
  same : (Accounted.loadFull data.length data).result.map Prod.fst =
    (loadFull data).mapError .thrown
  inside : ∀ f, (Accounted.loadFull data.length data).result = .error f → ∃ e, f = .thrown e
  linear : byAmount.total (Accounted.loadFull data.length data).events ≤ 7 * data.length + 5
  ids : ∀ m, loadFull data = .ok m → m.IdsOk

theorem LoadedModel.IdsOk.handOver (hm : m.IdsOk) : m.handOver.IdsOk := by
  have hhanded : ∀ ids own : List Int16, (∀ id ∈ ids, IsId id) → (∀ id ∈ own, IsId id) →
      ∀ id ∈ handedIds ids own, IsId id := by
    intro ids own hids hown
    unfold handedIds
    split
    · exact hown
    · exact hids
  exact { hm with
    graphInputs := hhanded _ _ hm.inputs hm.graphInputs
    graphOutputs := hhanded _ _ hm.outputs hm.graphOutputs }

theorem total_loadFull (data : List UInt8) :
    byAmount.total (Accounted.loadFull data.length data).events ≤ 7 * data.length + 5 := by
  have hnodes := spends_readNodes data.length
  cases hr : (Accounted.readNodes data.length data).result with
  | error f =>
    obtain ⟨-, hcost⟩ := hnodes.of_error (byAmount_covers _) le_rfl hr
    rw [Accounted.loadFull, bind_apply_error hr]
    dsimp only
    omega
  | ok r =>
    obtain ⟨⟨tlvStart, m⟩, rest⟩ := r
    obtain ⟨hids, hrest, hcost⟩ := hnodes.of_ok (byAmount_covers _) le_rfl hr
    rw [Accounted.loadFull, bind_apply_ok hr]
    dsimp only at hids ⊢
    rw [Tariff.total_append]
    by_cases hlt : tlvStart < data.length
    · rw [if_pos hlt]
      have htable := spends_readTable hids hlt
      cases ht : (Accounted.readTable data.length tlvStart m rest).result with
      | error f =>
        obtain ⟨-, hcost'⟩ := htable.of_error (byAmount_covers _) (Nat.zero_le _) ht
        rw [bind_apply_error ht]
        dsimp only
        omega
      | ok r =>
        obtain ⟨m', rest'⟩ := r
        obtain ⟨-, -, hcost'⟩ := htable.of_ok (byAmount_covers _) (Nat.zero_le _) ht
        obtain ⟨hin, hout⟩ : m'.FewIds data.length :=
          fewIds_of_readTable hids (fewIds_of_readNodes hr) hrest.length_le ht
        have hhand : byAmount.total (Accounted.handOver m' rest').events =
            m'.inputIds.length + m'.outputIds.length := rfl
        rw [bind_apply_ok ht, Tariff.total_append]
        omega
    · rw [if_neg hlt]
      change _ + byAmount.total [] ≤ _
      rw [Tariff.total_nil]
      omega

theorem idsOk_of_loadFull (h : (Accounted.loadFull data.length data).result = .ok (m, rest)) :
    m.IdsOk := by
  obtain ⟨⟨tlvStart, m₀⟩, mid, hnodes, h⟩ := bind_result_ok.mp h
  have hids := ((spends_readNodes data.length).of_ok (byAmount_covers _) le_rfl hnodes).1
  split at h
  · rename_i hlt
    obtain ⟨m₁, _, htable, h⟩ := bind_result_ok.mp h
    have hids₁ := ((spends_readTable hids hlt).of_ok (byAmount_covers _) (Nat.zero_le _) htable).1
    obtain rfl := (Prod.mk.inj (pure_result_ok.mp h)).1
    exact hids₁.handOver
  · obtain rfl := (Prod.mk.inj (pure_result_ok.mp h)).1
    exact hids

theorem loadFull_within (data : List UInt8) : LoadsWithin data where
  same := loadFull_result data
  inside := by
    intro f hf
    have hsame := loadFull_result data
    rw [hf] at hsame
    cases h : loadFull data with
    | error e =>
      rw [h] at hsame
      exact ⟨e, Except.error.inj hsame⟩
    | ok m =>
      rw [h] at hsame
      exact nomatch hsame
  linear := total_loadFull data
  ids := by
    intro m hm
    have hsame := loadFull_result data
    rw [hm] at hsame
    cases hr : (Accounted.loadFull data.length data).result with
    | error f =>
      rw [hr] at hsame
      exact nomatch hsame
    | ok r =>
      rw [hr] at hsame
      obtain rfl : r.1 = m := Except.ok.inj hsame
      exact idsOk_of_loadFull hr

end Whole

end Tenzor.Lite
