import Tenzor.Io.ZipArchive

/-!
# Archives stay within their file

Whatever bytes a file has, reading it as an archive ends without an access outside of it, and the
bytes of an entry that is found are a part of the file.
-/

namespace Tenzor.TorchPickle

open Tenzor.Lite Unchecked
open Metered (Fault)
open Cursor (words)
open List

section Reading

variable {data : List UInt8} {p : ℕ} {eocd cdEnd : ℕ}

theorem lands_readU16 (h : p + 2 ≤ data.length) : Lands (· < 65536) (readU16 data p) :=
  Lands.word h

theorem lands_readU32 (h : p + 4 ≤ data.length) : Lands (· < 4294967296) (readU32 data p) :=
  Lands.word h

theorem lands_readU64 (h : p + 8 ≤ data.length) : Lands (fun _ => True) (readU64 data p) :=
  (Lands.word h).mono fun _ _ => trivial

theorem lands_rejectIf {α : Type} {P : α → Prop} {c : Prop} [Decidable c] {message : String}
    {k : Unit → Access α} (hk : ¬ c → Lands P (k ())) : Lands P (rejectIf c message >>= k) :=
  Lands.thrownIf hk

theorem lands_takeField {z size : ℕ} (h : z + size ≤ data.length) (needed : Bool) (zpos dst : ℕ) :
    Lands (fun _ => True) (takeField data z size needed zpos dst) := by
  refine Lands.ite (fun hfits => ?_) fun _ => Lands.pure trivial
  have hvalue : z + zpos + 8 ≤ data.length := by omega
  exact (lands_readU64 hvalue).bind fun _ _ => Lands.pure trivial

/-- Each round moves the position by at least four bytes, and it stays in the extra field. -/
theorem lands_applyZip64Extra {e : ZipEntry} {extra extraLen : ℕ}
    (h : extra + extraLen ≤ data.length) (needUncomp needComp needOffset : Bool) {fuel pos : ℕ}
    (hpos : pos ≤ extraLen) (hfuel : extraLen < pos + fuel) :
    Lands (fun _ => True)
      (applyZip64Extra data e extra extraLen needUncomp needComp needOffset fuel pos) := by
  induction fuel generalizing pos with
  | zero => exact absurd hfuel (Nat.not_lt.mpr hpos)
  | succ fuel ih =>
    have hmissing (message : String) :
        Lands (fun _ => True) (do
          rejectIf (needUncomp ∨ needComp ∨ needOffset) message
          pure e) :=
      lands_rejectIf fun _ => Lands.pure trivial
    refine Lands.ite (fun hheader => ?_) fun _ => hmissing _
    refine (lands_readU16 (by omega)).bind fun id _ => ?_
    refine (lands_readU16 (by omega)).bind fun size _ => ?_
    refine Lands.ite (fun _ => hmissing _) fun hsize => ?_
    refine Lands.ite (fun _ => ?_) fun _ => ih (by omega) (by omega)
    have hfield : extra + pos + 4 + size ≤ data.length := by omega
    refine (lands_takeField hfield _ _ _).bind fun uncompressed _ => ?_
    refine (lands_takeField hfield _ _ _).bind fun compressed _ => ?_
    exact (lands_takeField hfield _ _ _).bind fun offset _ => Lands.pure trivial

theorem lands_localDataOffset (e : ZipEntry) :
    Lands (fun _ => True) (localDataOffset data e) := by
  refine lands_rejectIf fun hheader => ?_
  refine (lands_readU32 (by omega)).bind fun signature _ => lands_rejectIf fun _ => ?_
  refine (lands_readU16 (by omega)).bind fun nameLen _ => ?_
  exact (lands_readU16 (by omega)).bind fun extraLen _ => Lands.pure trivial

theorem lands_entryView (e : ZipEntry) (pastEnd : String) :
    Lands (fun r => r.1 + r.2 ≤ data.length) (entryView data e pastEnd) := by
  refine lands_rejectIf fun _ => (lands_localDataOffset e).bind fun off _ => ?_
  refine lands_rejectIf fun hinside => Lands.pure ?_
  omega

theorem lands_readEntry (e : ZipEntry) :
    Lands (fun bytes => bytes.length ≤ data.length) (readEntry data e) := by
  refine (lands_entryView e _).bind fun r hr => (Lands.slice hr).mono fun bytes hbytes => ?_
  rw [hbytes, length_take]
  omega

theorem lands_findEocd {scanStart i : ℕ} (h : i + 21 ≤ data.length) :
    Lands (fun found => ∀ eocd, found = some eocd → eocd + 22 ≤ data.length)
      (findEocd data scanStart i) := by
  induction i with
  | zero => exact Lands.pure fun _ hnone => nomatch hnone
  | succ i ih =>
    refine Lands.ite (fun _ => ?_) fun _ => Lands.pure fun _ hnone => nomatch hnone
    refine (lands_readU32 (by omega)).bind fun signature _ => ?_
    refine Lands.ite (fun _ => Lands.pure fun eocd heocd => ?_) fun _ => ih (by omega)
    obtain rfl := Option.some.inj heocd
    omega

theorem lands_zip64Directory (path : String) (h : eocd + 22 ≤ data.length) :
    Lands (fun _ => True) (zip64Directory data path eocd) := by
  refine lands_rejectIf fun hlocator => ?_
  refine (lands_readU32 (by omega)).bind fun signature _ => lands_rejectIf fun _ => ?_
  refine (lands_readU64 (by omega)).bind fun z _ => lands_rejectIf fun hrecord => ?_
  refine (lands_readU32 (by omega)).bind fun signature _ => lands_rejectIf fun _ => ?_
  refine (lands_readU64 (by omega)).bind fun totalEntries _ => ?_
  refine (lands_readU64 (by omega)).bind fun size _ => ?_
  exact (lands_readU64 (by omega)).bind fun offset _ => Lands.pure trivial

theorem lands_directory (path : String) (h : eocd + 22 ≤ data.length) :
    Lands (fun _ => True) (directory data path eocd) := by
  refine (lands_readU16 (by omega)).bind fun totalEntries _ => ?_
  refine (lands_readU32 (by omega)).bind fun size _ => ?_
  refine (lands_readU32 (by omega)).bind fun offset _ => ?_
  exact Lands.ite (fun _ => lands_zip64Directory path h) fun _ => Lands.pure trivial

/-- An entry starts with a header that the directory has room for; its name and its extra field are
in the directory, too. -/
theorem lands_directoryEntry (h : cdEnd ≤ data.length) (i cursor : ℕ) :
    Lands (fun _ => True) (directoryEntry data cdEnd i cursor) := by
  refine lands_rejectIf fun hheader => ?_
  refine (lands_readU32 (by omega)).bind fun signature _ => lands_rejectIf fun _ => ?_
  refine (lands_readU16 (by omega)).bind fun method _ => ?_
  refine (lands_readU32 (by omega)).bind fun compSize _ => ?_
  refine (lands_readU32 (by omega)).bind fun uncompSize _ => ?_
  refine (lands_readU16 (by omega)).bind fun nameLen _ => ?_
  refine (lands_readU16 (by omega)).bind fun extraLen _ => ?_
  refine (lands_readU16 (by omega)).bind fun commentLen _ => ?_
  refine (lands_readU32 (by omega)).bind fun lhOff _ => lands_rejectIf fun hfields => ?_
  have hname : cursor + 46 + nameLen ≤ data.length := by omega
  have hextra : cursor + 46 + nameLen + extraLen ≤ data.length := by omega
  refine (Lands.slice hname).bind fun name _ => ?_
  refine Lands.ite (fun _ => ?_) fun _ => Lands.pure trivial
  have hfuel : extraLen < 0 + (extraLen + 1) := by omega
  exact (lands_applyZip64Extra hextra _ _ _ (Nat.zero_le extraLen) hfuel).bind
    fun e _ => Lands.pure trivial

theorem lands_directoryEntries (h : cdEnd ≤ data.length) (left i cursor : ℕ)
    (entries : List (Text × ZipEntry)) :
    Lands (fun _ => True) (directoryEntries data cdEnd left i cursor entries) := by
  induction left generalizing i cursor entries with
  | zero => exact Lands.pure trivial
  | succ left ih => exact (lands_directoryEntry h i cursor).bind fun _ _ => ih _ _ _

theorem lands_parseCentralDirectory (hdata : data.length < words) (path : String) :
    Lands (fun _ => True) (parseCentralDirectory data path) := by
  refine lands_rejectIf fun hlength => ?_
  refine (lands_findEocd (by omega)).bind fun found hfound => ?_
  cases found with
  | none => exact Lands.throws _
  | some eocd =>
    refine (lands_directory path (hfound eocd rfl)).bind fun cd _ => ?_
    refine lands_rejectIf fun hinside => lands_directoryEntries ?_ _ _ _ _
    -- The end of the directory does not wrap, since the directory is in the file.
    have hend : cd.offset + cd.size ≤ data.length := by omega
    rwa [Nat.mod_eq_of_lt (hend.trans_lt hdata)]

end Reading

theorem File.length_lt_words (file : File) : file.bytes.length < words :=
  file.length_lt.trans (by decide)

theorem lands_openArchive (order : IterationOrder) (file : File) (path : String) :
    Lands (fun archive => archive.file = file) (openArchive order file path) :=
  lands_rejectIf fun _ => (lands_parseCentralDirectory file.length_lt_words path).bind
    fun _ _ => Lands.pure rfl

namespace Archive

variable (archive : Archive) {r : ℕ × ℕ}

theorem lands_find (name : Text) : Lands (fun _ => True) (archive.find name) := by
  unfold find
  split
  · exact Lands.pure trivial
  · exact Lands.throws _

theorem lands_read (name : Text) :
    Lands (fun bytes => bytes.length ≤ archive.file.bytes.length) (archive.read name) :=
  (archive.lands_find name).bind fun e _ => lands_readEntry e

theorem lands_readView (name : Text) :
    Lands (fun r => r.1 + r.2 ≤ archive.file.bytes.length) (archive.readView name) :=
  (archive.lands_find name).bind fun e _ => lands_entryView e _

/-- The part of the file that a view is. -/
def part (r : ℕ × ℕ) : List UInt8 := (archive.file.bytes.drop r.1).take r.2

theorem length_part (h : r.1 + r.2 ≤ archive.file.bytes.length) :
    (archive.part r).length = r.2 := by
  rw [part, length_take, length_drop]
  omega

/-- Bytes of a view are bytes of the file. -/
theorem take_drop_part {off n : ℕ} (h : off + n ≤ r.2) :
    ((archive.part r).drop off).take n = (archive.file.bytes.drop (r.1 + off)).take n := by
  have hle : n ≤ r.2 - off := by omega
  rw [part, drop_take, take_take, min_eq_left hle, drop_drop]

/-- The archive of the checked loader has these entries and the bytes of their views. -/
structure Depicts (zip : ZipReader) : Prop where
  hasEntry : ∀ name, zip.hasEntry name = archive.hasEntry name
  findSuffix : ∀ suffix, zip.findSuffix suffix = archive.findSuffix suffix
  read : ∀ name, Mirrors (archive.part <$> archive.readView name) (zip.read name)

theorem exists_depicts : ∃ zip, archive.Depicts zip := by
  have hview (e : ZipEntry) : ∃ x : Except Exn (List UInt8),
      Mirrors (archive.part <$> entryView archive.file.bytes e " data extends past EOF") x := by
    have hlands : Lands _ (entryView archive.file.bytes e " data extends past EOF") :=
      lands_entryView e _
    generalize entryView archive.file.bytes e " data extends past EOF" = view at hlands
    cases hlands with
    | returns _ => exact ⟨.ok _, rfl⟩
    | throws e => exact ⟨.error e, rfl⟩
  choose contents hcontents using hview
  refine ⟨⟨archive.entries.map fun e => (e.1, contents e.2)⟩, fun name => ?_, fun suffix => ?_,
    fun name => ?_⟩
  · rw [ZipReader.hasEntry, any_map]
    rfl
  · rw [ZipReader.findSuffix, find?_map, Option.map_map]
    rfl
  · have hnames : archive.entries.find? ((fun e => decide (e.1 = name)) ∘
        fun e => (e.1, contents e.2)) = archive.entries.find? (·.1 = name) := rfl
    rw [ZipReader.read, find?_map, hnames, readView, find]
    cases archive.entries.find? (·.1 = name) with
    | none => rfl
    | some e => exact hcontents e.2

end Archive

end Tenzor.TorchPickle
