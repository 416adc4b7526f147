import Tenzor.Io.Unpickler
import Tenzor.Lib.Cursor
import Tenzor.Lib.Unchecked

/-!
# Archives of checkpoints

The bytes of a file are read as an archive with stored entries. Offsets, lengths and counts are
taken from the file and combined in 64-bit words; an access to the file checks nothing by itself.

## Implementation notes

A pointer into the file is an offset. The table of entries has no order of its own, and what goes
through it gets the entries in some order.
-/

namespace Tenzor.TorchPickle

open Scanner Tenzor.Lite Unchecked
open Metered (Fault)
open Cursor (words)

/-- The bytes of a file, whose size is a signed word. -/
structure File where
  bytes : List UInt8
  length_lt : bytes.length < 9223372036854775808

structure ZipEntry where
  name : Text
  localHeaderOffset : ℕ
  compressedSize : ℕ
  uncompressedSize : ℕ
  compressionMethod : ℕ

/-- In which order the entries of a table come. -/
structure IterationOrder where
  arrange : List (Text × ZipEntry) → List (Text × ZipEntry)
  perm : ∀ entries, (arrange entries).Perm entries

structure Archive where
  file : File
  entries : List (Text × ZipEntry)

abbrev Access := Except (Fault Exn)

def reject {α : Type} (message : String) : Access α :=
  thrown (.runtimeError ("torch_pickle: " ++ message))

def rejectIf (c : Prop) [Decidable c] (message : String) : Access Unit :=
  thrownIf c (.runtimeError ("torch_pickle: " ++ message))

section Reading

variable (data : List UInt8)

def readU16 (p : ℕ) : Access ℕ := word data p 2

def readU32 (p : ℕ) : Access ℕ := word data p 4

def readU64 (p : ℕ) : Access ℕ := word data p 8

/-- A field of the extended information, and the position behind it. -/
def takeField (z size : ℕ) (needed : Bool) (zpos dst : ℕ) : Access (ℕ × ℕ) :=
  if needed ∧ zpos + 8 ≤ size then do
    let value ← readU64 data (z + zpos)
    pure (value, zpos + 8)
  else pure (dst, zpos)

/-- The rounds of `apply_zip64_extra`, for the fields that are needed. -/
def applyZip64Extra (e : ZipEntry) (extra extraLen : ℕ) (needUncomp needComp needOffset : Bool) :
    ℕ → ℕ → Access ZipEntry
  | 0, _ => .error .outOfFuel
  | fuel + 1, pos => do
      let missing : Access ZipEntry := do
        rejectIf (needUncomp ∨ needComp ∨ needOffset) ("ZIP entry '" ++ asString e.name ++
          "' uses a ZIP64 sentinel but has no ZIP64 extra field " ++
          "(unsupported / corrupt >4GB archive)")
        pure e
      if pos + 4 ≤ extraLen then do
        let id ← readU16 data (extra + pos)
        let size ← readU16 data (extra + pos + 2)
        if extraLen < pos + 4 + size then missing
        else if id = 1 then do
          let z := extra + pos + 4
          let (uncompressedSize, zpos) ← takeField data z size needUncomp 0 e.uncompressedSize
          let (compressedSize, zpos) ← takeField data z size needComp zpos e.compressedSize
          let (localHeaderOffset, _) ← takeField data z size needOffset zpos e.localHeaderOffset
          pure { e with uncompressedSize, compressedSize, localHeaderOffset }
        else applyZip64Extra e extra extraLen needUncomp needComp needOffset fuel (pos + (4 + size))
      else missing

def localDataOffset (e : ZipEntry) : Access ℕ := do
  let p := e.localHeaderOffset
  rejectIf (data.length < p ∨ data.length - p < 30) "truncated local header"
  let signature ← readU32 data p
  rejectIf (signature ≠ 0x04034b50) ("bad local header signature for " ++ asString e.name)
  let nameLen ← readU16 data (p + 26)
  let extraLen ← readU16 data (p + 28)
  pure ((p + 30 + nameLen + extraLen) % words)

/-- Where the bytes of an entry are, and how many. -/
def entryView (e : ZipEntry) (pastEnd : String) : Access (ℕ × ℕ) := do
  rejectIf (e.compressionMethod ≠ 0) ("entry " ++ asString e.name ++ " uses compression method " ++
    toString e.compressionMethod ++ "; only STORED (0) is supported")
  let off ← localDataOffset data e
  rejectIf (data.length < off ∨ data.length - off < e.uncompressedSize)
    ("entry " ++ asString e.name ++ pastEnd)
  pure (off, e.uncompressedSize)

def readEntry (e : ZipEntry) : Access (List UInt8) := do
  let (off, size) ← entryView data e " data past EOF"
  slice data off size

/-- The rounds that look for the end of the directory, from `i` down to `scanStart`. -/
def findEocd (scanStart : ℕ) : ℕ → Access (Option ℕ)
  | 0 => pure none
  | i + 1 =>
    if scanStart < i + 1 then do
      let signature ← readU32 data i
      if signature = 0x06054b50 then pure (some i) else findEocd scanStart i
    else pure none

/-- The number of the entries and the size and the offset of the directory. -/
structure Directory where
  totalEntries : ℕ
  size : ℕ
  offset : ℕ

def zip64Directory (path : String) (eocd : ℕ) : Access Directory := do
  rejectIf (eocd < 20) ("ZIP64 sentinel present but no ZIP64 EOCD locator (corrupt >4GB archive): " ++
    path)
  let loc := eocd - 20
  let signature ← readU32 data loc
  rejectIf (signature ≠ 0x07064b50)
    ("ZIP64 EOCD locator signature not found (corrupt >4GB archive): " ++ path)
  let z ← readU64 data (loc + 8)
  rejectIf (data.length < z ∨ data.length - z < 56) ("ZIP64 EOCD record past EOF: " ++ path)
  let signature ← readU32 data z
  rejectIf (signature ≠ 0x06064b50) ("bad ZIP64 EOCD record signature: " ++ path)
  let totalEntries ← readU64 data (z + 32)
  let size ← readU64 data (z + 40)
  let offset ← readU64 data (z + 48)
  pure ⟨totalEntries, size, offset⟩

def directory (path : String) (eocd : ℕ) : Access Directory := do
  let totalEntries ← readU16 data (eocd + 10)
  let size ← readU32 data (eocd + 12)
  let offset ← readU32 data (eocd + 16)
  if totalEntries = 0xFFFF ∨ size = 0xFFFFFFFF ∨ offset = 0xFFFFFFFF then zip64Directory data path eocd
  else pure ⟨totalEntries, size, offset⟩

/-- The entry at the cursor, which moves behind it. -/
def directoryEntry (cdEnd i cursor : ℕ) : Access (ZipEntry × ℕ) := do
  rejectIf (cdEnd < cursor ∨ cdEnd - cursor < 46) "ZIP central directory entry truncated"
  let signature ← readU32 data cursor
  rejectIf (signature ≠ 0x02014b50) ("bad central directory signature at entry " ++ toString i)
  let method ← readU16 data (cursor + 10)
  let compSize ← readU32 data (cursor + 20)
  let uncompSize ← readU32 data (cursor + 24)
  let nameLen ← readU16 data (cursor + 28)
  let extraLen ← readU16 data (cursor + 30)
  let commentLen ← readU16 data (cursor + 32)
  let lhOff ← readU32 data (cursor + 42)
  rejectIf (cdEnd - cursor - 46 < nameLen + extraLen) "ZIP central directory entry truncated"
  let name ← slice data (cursor + 46) nameLen
  let needUncomp := decide (uncompSize = 0xFFFFFFFF)
  let needComp := decide (compSize = 0xFFFFFFFF)
  let needOffset := decide (lhOff = 0xFFFFFFFF)
  let e : ZipEntry := ⟨name, lhOff, compSize, uncompSize, method⟩
  let e ← if needUncomp ∨ needComp ∨ needOffset then
      applyZip64Extra data e (cursor + 46 + nameLen) extraLen needUncomp needComp needOffset
        (extraLen + 1) 0
    else pure e
  pure (e, (cursor + (46 + nameLen + extraLen + commentLen)) % words)

/-- `emplace`: an entry of a name that is there already is dropped. -/
def emplace (entries : List (Text × ZipEntry)) (e : ZipEntry) : List (Text × ZipEntry) :=
  if e.name ∈ entries.map Prod.fst then entries else entries ++ [(e.name, e)]

/-- The rounds over the entries that are left, from the `i`-th on. -/
def directoryEntries (cdEnd : ℕ) :
    ℕ → ℕ → ℕ → List (Text × ZipEntry) → Access (List (Text × ZipEntry))
  | 0, _, _, entries => pure entries
  | left + 1, i, cursor, entries => do
      let (e, cursor) ← directoryEntry data cdEnd i cursor
      directoryEntries cdEnd left (i + 1) cursor (emplace entries e)

def parseCentralDirectory (path : String) : Access (List (Text × ZipEntry)) := do
  rejectIf (data.length < 22) ("file too short for ZIP EOCD: " ++ path)
  let scanStart := if data.length < 0xFFFF + 22 then 0 else data.length - (0xFFFF + 22)
  let found ← findEocd data scanStart (data.length - 22 + 1)
  match found with
  | none => reject ("ZIP EOCD signature not found — not a torch.save " ++
      "ZIP archive (legacy pre-1.6 PyTorch checkpoints aren't " ++
      "supported; see audit H2).  If you have a .pth from PyTorch " ++
      ">= 1.6 that Tenzor still can't load, re-export it to " ++
      ".safetensors via `safetensors.torch.save_file` — Tenzor's " ++
      "safetensors loader has full coverage.  File: " ++ path)
  | some eocd => do
      let cd ← directory data path eocd
      rejectIf (data.length < cd.offset ∨ data.length - cd.offset < cd.size)
        "ZIP central directory past EOF"
      directoryEntries data ((cd.offset + cd.size) % words) cd.totalEntries 0 cd.offset []

end Reading

/-- `ZipReader`: the table of the entries of a file. -/
def openArchive (order : IterationOrder) (file : File) (path : String) : Access Archive := do
  rejectIf (file.bytes.length < 22) ("file too small to be a ZIP archive: " ++ path)
  let entries ← parseCentralDirectory file.bytes path
  pure ⟨file, order.arrange entries⟩

namespace Archive

variable (archive : Archive)

def hasEntry (name : Text) : Bool := archive.entries.any (·.1 = name)

def findSuffix (suffix : Text) : Text :=
  ((archive.entries.find? fun e => suffix.isSuffixOf e.1).map Prod.fst).getD []

def find (name : Text) : Access ZipEntry :=
  match archive.entries.find? (·.1 = name) with
  | some e => pure e.2
  | none => reject ("archive entry not found: " ++ asString name)

/-- A copy of the bytes of an entry. -/
def read (name : Text) : Access (List UInt8) := do
  let e ← archive.find name
  readEntry archive.file.bytes e

/-- Where the bytes of an entry are, without a copy. -/
def readView (name : Text) : Access (ℕ × ℕ) := do
  let e ← archive.find name
  entryView archive.file.bytes e " data extends past EOF"

end Archive

end Tenzor.TorchPickle
