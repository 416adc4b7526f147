import Tenzor.Nn.Serializer
import Tenzor.Lite.FormatReads

/-!
# Loading a saved state dictionary

The file of a dictionary is read back as the same dictionary, whatever views its tensors
are, as long as the lengths that are written fit their 32 bits.
-/

namespace Tenzor.Nn

open Throwing Wrap64 Tenzor.Lite List
open UInt32 (ofNat toNat_ofNat_of_lt')
open Prod (fst)
open Wire hiding bind_eq_ok

/-- A loaded dictionary has the names of the one that was saved, and their tensors. -/
structure SameDict (mem : Bytes) (dict : List (Text × TensorImpl))
    (loaded : List (Text × LoadedTensor)) : Prop where
  names : (loaded.map Prod.fst).Perm (dict.map Prod.fst)
  tensors : ∀ e ∈ dict, ∀ l, (e.1, l) ∈ loaded → SameTensor mem e.2 l

namespace Serializer

variable {mem : Bytes} {entries : List (Text × LoadedTensor)} {dict : List (Text × TensorImpl)}
  {file : List UInt8}

theorem reads_string {s : Text} (h : s.length < 4294967296) :
    Reads readString (writeString s) s := by
  have hlen : (ofNat s.length).toNat = s.length := toNat_ofNat_of_lt' h
  apply (reads_pod endOfFile (ofNat s.length)).bind
  rw [hlen]
  refine Reads.remaining fun left hle => Reads.failIf (Nat.not_lt.mpr hle) ?_
  exact reads_bytes _ s

theorem returns_string : Returns readString fun s => s.length < 4294967296 := by
  refine (returns_true _).bind fun size _ => (returns_true _).bind fun _ _ => ?_
  refine (returns_true _).bind fun _ _ => ?_
  exact (returns_bytes _ _).mono fun s hs => hs ▸ size.toNat_lt

theorem reads_dtype (dtype : DType) : Reads readDtype (appendPod (dtypeCode dtype)) dtype := by
  have hcode : dtypes[(dtypeCode dtype).toNat]? = some dtype := by
    cases dtype <;> decide
  have h : Reads readDtype (appendPod (dtypeCode dtype) ++ []) dtype := by
    apply (reads_pod endOfFile (dtypeCode dtype)).bind
    rw [hcode]
    exact Reads.pure dtype
  rwa [append_nil] at h

theorem reads_shape {shape : List Int} {n m : Int} (hn : 0 ≤ n) (hnn : ∀ d ∈ shape, 0 ≤ d)
    (hsize : ∀ d ∈ shape, d ≤ int64Max) (h : shape.foldlM numelStep n = .ok m) :
    Reads (readShape n shape.length) (shape.flatMap fun d => appendPod (Int64.ofInt d))
      (shape, m) := by
  induction shape generalizing n with
  | nil =>
    obtain rfl : n = m := pure_eq_ok.mp h
    exact Reads.pure _
  | cons d shape ih =>
    obtain ⟨x, hx, hrest⟩ := foldlM_cons_eq_ok.mp h
    obtain ⟨rfl, hle⟩ := numelStep_eq_ok hx
    have hd := hnn d mem_cons_self
    have hmax := hsize d mem_cons_self
    have hword : (Int64.ofInt d).toInt = d :=
      Int64.toInt_ofInt_of_le (by omega)
        (by simp only [int64Max] at hmax; omega)
    apply (reads_pod endOfFile (Int64.ofInt d)).bind
    rw [hword]
    refine Reads.failIf (Int.not_lt.mpr hd) (Reads.failIf ?_ ?_)
    · rintro ⟨hne, hlt⟩
      have hpos : 0 < d := lt_of_le_of_ne hd (Ne.symm hne)
      exact absurd ((Int.le_ediv_iff_mul_le hpos).mpr hle) (Int.not_le.mpr hlt)
    · exact (ih (mul_nonneg hn hd) (fun e he => hnn e (mem_cons_of_mem _ he))
        (fun e he => hsize e (mem_cons_of_mem _ he)) hrest).map fun rest =>
          (d :: rest.1, rest.2)

theorem length_shapeBytes (shape : List Int) :
    (shape.flatMap fun d => appendPod (Int64.ofInt d)).length = shape.length * 8 := by
  induction shape with
  | nil => rfl
  | cons d shape ih =>
    rw [flatMap_cons, length_append, ih, length_appendPod, length_cons]
    simp only [Pod.width]
    ring

theorem reads_tensor {name : Text} {t : TensorImpl} {bytes : List UInt8} (hwf : t.WellFormed)
    (hb : t.InBounds) (hwrite : writeTensor mem name t = .ok bytes)
    (hname : name.length < 4294967296) (hrank : t.shape.length < 4294967296) :
    ∃ l, Reads readTensor bytes (name, l) ∧ SameTensor mem t l := by
  simp only [writeTensor, bind_eq_ok, pure_eq_ok] at hwrite
  obtain ⟨⟨cpu, source⟩, hcpu, n, hn, -, -, rfl⟩ := hwrite
  obtain ⟨hdtype, hshape, hstrides, hfits, hsource⟩ := TensorImpl.toCpu_ok hwf hb hcpu
  rw [hshape] at hn
  obtain rfl := numel_eq_prod hn
  obtain ⟨u, halloc⟩ := TensorImpl.allocate_of_fits 0 hwf.nonneg hstrides hn hfits
  refine ⟨_, ?_, sameTensor_of_allocate halloc hsource⟩
  have hlen : (ofNat t.shape.length).toNat = t.shape.length :=
    toNat_ofNat_of_lt' hrank
  have hsize : u.storage.sizeBytes = (tensorData mem t t.shape.prod source).length := by
    rw [TensorImpl.allocate_sizeBytes halloc, length_tensorData]
  rw [hdtype, hshape]
  apply (reads_string hname).bind
  apply (reads_dtype t.dtype).bind
  apply (reads_pod endOfFile (ofNat t.shape.length)).bind
  rw [hlen]
  refine Reads.remaining fun left hle => Reads.failIf ?_ ?_
  · rw [length_append, length_shapeBytes] at hle
    omega
  apply (reads_shape zero_le_one hwf.nonneg hwf.size_le hn).bind
  have hmake : Reads (makeTensor t.shape t.dtype) [] u := fun rest => by
    rw [makeTensor, halloc]
    rfl
  refine hmake.bind (Reads.remaining fun left hle => Reads.failIf ?_ ?_)
  · rw [hsize]
    exact Nat.not_lt.mpr hle
  rw [hsize]
  exact (reads_bytes _ _).map fun data => (name, (⟨u, data⟩ : LoadedTensor))

/-- The lengths that are written as 32-bit words. -/
def LengthsFit (dict : List (Text × TensorImpl)) : Prop :=
  dict.length < 4294967296 ∧
    ∀ e ∈ dict, e.1.length < 4294967296 ∧ e.2.shape.length < 4294967296

theorem reads_tensors {tensors : List (List UInt8)}
    (hvalid : ∀ e ∈ dict, e.2.WellFormed ∧ e.2.InBounds)
    (hfit : ∀ e ∈ dict, e.1.length < 4294967296 ∧ e.2.shape.length < 4294967296)
    (h : dict.mapM (fun e => writeTensor mem e.1 e.2) = .ok tensors) :
    ∃ entries, Reads (readMany readTensor dict.length) tensors.flatten entries ∧
      List.Forall₂ (fun e l => l.1 = e.1 ∧ SameTensor mem e.2 l.2) dict entries := by
  induction dict generalizing tensors with
  | nil =>
    obtain rfl : [] = tensors := pure_eq_ok.mp h
    exact ⟨[], Reads.pure [], .nil⟩
  | cons e dict ih =>
    rw [mapM_cons] at h
    simp only [bind_eq_ok, pure_eq_ok] at h
    obtain ⟨bytes, hbytes, rest, hrest, rfl⟩ := h
    obtain ⟨hname, hrank⟩ := hfit e mem_cons_self
    obtain ⟨hwf, hb⟩ := hvalid e mem_cons_self
    obtain ⟨l, hl, hsame⟩ := reads_tensor hwf hb hbytes hname hrank
    obtain ⟨entries, hentries, hall⟩ := ih (fun e he => hvalid e (mem_cons_of_mem _ he))
      (fun e he => hfit e (mem_cons_of_mem _ he)) hrest
    refine ⟨(e.1, l) :: entries, ?_, .cons ⟨rfl, hsame⟩ hall⟩
    exact hl.bind (hentries.map ((e.1, l) :: ·))

/-- An entry that is read back is one that was written. -/
theorem exists_saved (h : List.Forall₂ (fun e l => l.1 = e.1 ∧ SameTensor mem e.2 l.2) dict entries)
    {x : Text × LoadedTensor} (hx : x ∈ entries) :
    ∃ e ∈ dict, x.1 = e.1 ∧ SameTensor mem e.2 x.2 := by
  induction h with
  | nil => exact absurd hx not_mem_nil
  | cons hhead _ ih =>
    rcases mem_cons.mp hx with rfl | hx
    · exact ⟨_, mem_cons_self, hhead⟩
    · obtain ⟨e, he, hsame⟩ := ih hx
      exact ⟨e, mem_cons_of_mem _ he, hsame⟩

/-- A saved dictionary whose lengths fit is read back. -/
theorem load_save (hnames : (dict.map fst).Nodup)
    (hvalid : ∀ e ∈ dict, e.2.WellFormed ∧ e.2.InBounds) (hfit : LengthsFit dict)
    (hsave : save mem dict = .ok file) :
    ∃ loaded, load file = .ok loaded ∧ SameDict mem dict loaded := by
  simp only [save, bind_eq_ok, pure_eq_ok] at hsave
  obtain ⟨tensors, htensors, rfl⟩ := hsave
  obtain ⟨entries, hread, hall⟩ := reads_tensors hvalid hfit.2 htensors
  have hkeys : entries.map fst = dict.map fst := by
    clear hread htensors hnames hvalid hfit
    induction hall with
    | nil => rfl
    | cons h _ ih => rw [map_cons, map_cons, h.1, ih]
  have hassign : entries.foldl Dict.assignEntry [] = entries := Dict.foldl_assignEntry entries [] (by
    rw [nil_append, hkeys]
    exact hnames)
  have hlen : (ofNat dict.length).toNat = dict.length := toNat_ofNat_of_lt' hfit.1
  have hdict : Reads readDict (appendPod magic ++ (appendPod version ++
      (appendPod (ofNat dict.length) ++ tensors.flatten))) entries := by
    apply (reads_pod endOfFile magic).bind
    refine Reads.failIf (fun hne => hne rfl) ?_
    apply (reads_pod endOfFile version).bind
    refine Reads.failIf (fun hne => hne rfl) ?_
    apply (reads_pod endOfFile (ofNat dict.length)).bind
    rw [hlen]
    have hmap := hread.map fun entries => entries.foldl Dict.assignEntry []
    rwa [hassign] at hmap
  refine ⟨entries, ?_, hkeys ▸ Perm.refl _, fun e he l hl => ?_⟩
  · have h := hdict []
    rw [append_nil] at h
    rw [load, parse, h]
    rfl
  · obtain ⟨x, hx, hname, hsame⟩ := exists_saved hall hl
    obtain rfl := inj_on_of_nodup_map hnames hx he hname.symm
    exact hsame

theorem returns_shape (n : Int) (ndim : ℕ) :
    Returns (readShape n ndim) fun shape => shape.1.length = ndim := by
  induction ndim generalizing n with
  | zero => exact Returns.pure rfl
  | succ ndim ih =>
    refine (returns_true _).bind fun word _ => (returns_true _).bind fun _ _ => ?_
    refine (returns_true _).bind fun _ _ => (ih _).bind fun rest hrest => Returns.pure ?_
    rw [length_cons, hrest]

theorem returns_tensor : Returns readTensor fun e =>
    e.1.length < 4294967296 ∧ e.2.impl.shape.length < 4294967296 := by
  refine returns_string.bind fun name hname => (returns_true _).bind fun dtype _ => ?_
  refine (returns_true _).bind fun ndim _ => (returns_true _).bind fun _ _ => ?_
  refine (returns_true _).bind fun _ _ => (returns_shape 1 ndim.toNat).bind fun shape hshape => ?_
  have hmake : Returns (makeTensor shape.1 dtype) fun t => t.shape = shape.1 := fun s t s' h => by
    simp only [makeTensor, bind_eq_ok, pure_eq_ok] at h
    obtain ⟨u, hu, heq⟩ := h
    obtain ⟨rfl, -⟩ := Prod.mk.inj heq
    exact (TensorImpl.allocate_ok hu).2.2.2.2.1
  refine hmake.bind fun t ht => (returns_true _).bind fun _ _ => ?_
  refine (returns_true _).bind fun _ _ => (returns_true _).bind fun _ _ => Returns.pure ⟨hname, ?_⟩
  rw [ht, hshape]
  exact ndim.toNat_lt

theorem returns_dict : Returns readDict fun loaded => loaded.length < 4294967296 ∧
    ∀ e ∈ loaded, e.1.length < 4294967296 ∧ e.2.impl.shape.length < 4294967296 := by
  refine (returns_true _).bind fun _ _ => (returns_true _).bind fun _ _ => ?_
  refine (returns_true _).bind fun _ _ => (returns_true _).bind fun _ _ => ?_
  refine (returns_true _).bind fun count _ => ?_
  refine (returns_many returns_tensor _).bind fun entries hentries => Returns.pure ?_
  obtain ⟨hlen, hmem⟩ := Dict.foldl_assignEntry_le entries []
  refine ⟨?_, fun e he => ?_⟩
  · rw [length_nil, Nat.zero_add, hentries.1] at hlen
    exact lt_of_le_of_lt hlen count.toNat_lt
  · rcases hmem e he with he | he
    · exact absurd he not_mem_nil
    · exact hentries.2 e he

/-- A dictionary that is read back from a file has lengths of 32 bits. -/
theorem lengthsFit_of_load {loaded : List (Text × LoadedTensor)} (hload : load file = .ok loaded)
    (hsame : SameDict mem dict loaded) : LengthsFit dict := by
  simp only [load, parse, bind_eq_ok, pure_eq_ok] at hload
  obtain ⟨⟨read, rest⟩, hread, rfl⟩ := hload
  obtain ⟨hcount, hentries⟩ := returns_dict _ _ _ hread
  refine ⟨?_, fun e he => ?_⟩
  · have hlen := hsame.names.length_eq
    rw [length_map, length_map] at hlen
    exact hlen ▸ hcount
  · have hmem : e.1 ∈ read.map fst := hsame.names.mem_iff.mpr (mem_map_of_mem he)
    obtain ⟨⟨name, l⟩, hl, rfl⟩ := mem_map.mp hmem
    obtain ⟨hname, hrank⟩ := hentries _ hl
    rw [← (hsame.tensors e he l hl).shape]
    exact ⟨hname, hrank⟩

/-- A saved dictionary comes back exactly when the lengths that are written fit 32 bits. -/
theorem load_save_iff {mem : Bytes} {dict : List (Text × TensorImpl)} {file : List UInt8}
    (hnames : (dict.map Prod.fst).Nodup) (hvalid : ∀ e ∈ dict, e.2.WellFormed ∧ e.2.InBounds)
    (hsave : save mem dict = .ok file) :
    (∃ loaded, load file = .ok loaded ∧ SameDict mem dict loaded) ↔ LengthsFit dict :=
  ⟨fun ⟨_, hload, hsame⟩ => lengthsFit_of_load hload hsame,
    fun hfit => load_save hnames hvalid hfit hsave⟩

/-- Every byte holds its own address. -/
def addressBytes : Bytes := fun _ a => UInt8.ofNat a.toNat

/-- A transposed view of four bytes. -/
def transposedBytes : TensorImpl where
  storage := .ofBytes 0 4
  shape := [2, 2]
  strides := [1, 2]
  dtype := .uint8

def transposedFile : List UInt8 :=
  [0x52, 0x5A, 0x4E, 0x54, 1, 0, 0, 0, 1, 0, 0, 0, 1, 0, 0, 0, 119, 8, 2, 0, 0, 0,
    2, 0, 0, 0, 0, 0, 0, 0, 2, 0, 0, 0, 0, 0, 0, 0, 0, 2, 1, 3]

theorem transposedBytes_valid : transposedBytes.WellFormed ∧ transposedBytes.InBounds := by
  refine ⟨⟨rfl, by decide, by decide⟩, fun idx hidx => ?_⟩
  obtain ⟨i, j, rfl, hi, hj⟩ : ∃ i j, idx = [i, j] ∧ (0 ≤ i ∧ i < 2) ∧ (0 ≤ j ∧ j < 2) := by
    cases hidx with
    | cons hi hrest =>
      cases hrest with
      | cons hj hnil =>
        cases hnil
        exact ⟨_, _, rfl, hi, hj⟩
  have haddr : transposedBytes.addr [i, j] = i + 2 * j := by
    simp [TensorImpl.addr, transposedBytes]
    ring
  have hsize : transposedBytes.storageElements = 4 := by decide
  omega

theorem load_save_iff_transposed :
    ∃ loaded, load transposedFile = .ok loaded ∧
      SameDict addressBytes [([119], transposedBytes)] loaded := by
  refine (load_save_iff (by decide) (fun e he => ?_) (by decide +kernel)).mpr
    ⟨by decide, fun e he => ?_⟩
  · cases mem_singleton.mp he
    exact transposedBytes_valid
  · cases mem_singleton.mp he
    exact ⟨by decide, by decide⟩

/-- One byte under a name of `2 ^ 32` bytes. -/
def longNamed : List (Text × TensorImpl) :=
  [(List.replicate 4294967296 97,
    { storage := .ofBytes 0 1, shape := [], strides := [], dtype := .uint8 })]

/-- The length of the name is written as zero. -/
theorem long_name_is_lost : ∃ file, save addressBytes longNamed = .ok file ∧
    ¬ ∃ loaded, load file = .ok loaded ∧ SameDict addressBytes longNamed loaded := by
  have hsave : ∀ name : Text, ∃ file, save addressBytes [(name,
      { storage := .ofBytes 0 1, shape := [], strides := [], dtype := .uint8 })] =
        .ok file := fun name => ⟨_, rfl⟩
  obtain ⟨file, hfile⟩ := hsave (List.replicate 4294967296 97)
  refine ⟨file, hfile, fun ⟨loaded, hload, hsame⟩ => ?_⟩
  have hfit := (lengthsFit_of_load hload hsame).2 _ mem_cons_self
  rw [length_replicate] at hfit
  exact absurd hfit.1 (Nat.lt_irrefl _)

end Serializer

end Tenzor.Nn
