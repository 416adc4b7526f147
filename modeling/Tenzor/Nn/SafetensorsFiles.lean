import Tenzor.Nn.SafetensorsHeader
import Tenzor.Nn.SavedDicts

/-!
# Loading a saved SafeTensors file

A dictionary comes back from its file exactly when no tensor has the reserved name and the
header is not too long. The regions of the tensors divide the data section.
-/

namespace Tenzor.Nn

open Throwing Wrap64 Scanner Tenzor.Lite List
open UInt64 (ofNat)
open Prod (fst)
open Wire hiding bind_eq_ok

namespace SafeTensors

variable {mem : Bytes} {dict ordered : List (Text × TensorImpl)} {path : String} {start : ℕ}
  {data : List (List UInt8)} {file : List UInt8} {offsets : List ℕ}
  {loaded : List (Text × LoadedTensor)}

/-- The regions of parts that follow on one another. -/
def placed (start : ℕ) : List (List UInt8) → List (ℕ × ℕ)
  | [] => []
  | d :: data => (start, start + d.length) :: placed (start + d.length) data

theorem head_offsetsFrom (start : ℕ) (sizes : List ℕ) :
    offsetsFrom start sizes = start :: (offsetsFrom start sizes).tail := by
  cases sizes <;> rfl

/-- Sums of sizes that fit a word do not wrap around. -/
theorem regions_offsetsFrom (h : start + data.flatten.length < 18446744073709551616) :
    regions (offsetsFrom start (data.map List.length)) = placed start data := by
  induction data generalizing start with
  | nil => rfl
  | cons d data ih =>
    rw [flatten_cons, length_append] at h
    have hsum : (start + d.length) % 18446744073709551616 = start + d.length :=
      Nat.mod_eq_of_lt (by omega)
    have hrest : regions (offsetsFrom (start + d.length) _) = _ := ih (by omega)
    rw [regions, map_cons, offsetsFrom, hsum, tail_cons]
    rw [head_offsetsFrom, zip_cons_cons, placed, ← hrest, regions,
      ← head_offsetsFrom]

theorem length_placed (start : ℕ) (data : List (List UInt8)) :
    (placed start data).length = data.length := by
  induction data generalizing start with
  | nil => rfl
  | cons d data ih => rw [placed, length_cons, length_cons, ih]

theorem placed_bounds {r : ℕ × ℕ} (h : r ∈ placed start data) :
    start ≤ r.1 ∧ r.1 ≤ r.2 ∧ r.2 ≤ start + data.flatten.length := by
  induction data generalizing start with
  | nil => exact absurd h not_mem_nil
  | cons d data ih =>
    rw [flatten_cons, length_append]
    rcases mem_cons.mp h with rfl | h
    · exact ⟨le_rfl, Nat.le_add_right _ _, by omega⟩
    · have hrest := ih h
      omega

theorem pairwise_placed (start : ℕ) (data : List (List UInt8)) :
    (placed start data).Pairwise fun a b => a.2 ≤ b.1 := by
  induction data generalizing start with
  | nil => exact .nil
  | cons d data ih => exact pairwise_cons.mpr ⟨fun r hr => (placed_bounds hr).1, ih _⟩

theorem placed_covers {k : ℕ} (hle : start ≤ k) (hlt : k < start + data.flatten.length) :
    ∃ r ∈ placed start data, r.1 ≤ k ∧ k < r.2 := by
  induction data generalizing start with
  | nil => exact absurd hlt (Nat.not_lt.mpr hle)
  | cons d data ih =>
    rw [flatten_cons, length_append] at hlt
    by_cases hk : k < start + d.length
    · exact ⟨_, mem_cons_self, hle, hk⟩
    · obtain ⟨r, hr, hin⟩ := ih (Nat.not_lt.mp hk) (by omega)
      exact ⟨r, mem_cons_of_mem _ hr, hin⟩

theorem contiguousFrom_placed (start : ℕ) (data : List (List UInt8)) :
    contiguousFrom start (placed start data) = .ok (start + data.flatten.length) := by
  induction data generalizing start with
  | nil => rfl
  | cons d data ih =>
    rw [placed, contiguousFrom, throwIf_of_not (fun h => h rfl)]
    rw [flatten_cons, length_append, ← Nat.add_assoc]
    exact ih _

theorem checkedNumel_of_ok {name : Text} {shape : List Int} {n m : Int} (hn : 0 ≤ n)
    (hnn : ∀ d ∈ shape, 0 ≤ d) (h : shape.foldlM numelStep n = .ok m) :
    checkedNumel name n shape = .ok m := by
  induction shape generalizing n with
  | nil => exact h
  | cons d shape ih =>
    obtain ⟨x, hx, hrest⟩ := foldlM_cons_eq_ok.mp h
    obtain ⟨rfl, hle⟩ := numelStep_eq_ok hx
    have hd := hnn d mem_cons_self
    have hfits : ¬ (n ≠ 0 ∧ int64Max / n < d) := by
      rintro ⟨hne, hlt⟩
      have hpos : 0 < n := lt_of_le_of_ne hn (Ne.symm hne)
      exact absurd ((Int.le_ediv_iff_mul_le hpos).mpr (mul_comm n d ▸ hle)) (Int.not_le.mpr hlt)
    rw [checkedNumel, throwIf_of_not (Int.not_lt.mpr hd), throwIf_of_not hfits]
    exact ih (mul_nonneg hn hd) (fun e he => hnn e (mem_cons_of_mem _ he)) hrest

/-- The data of a tensor has the size that is planned for it, and is read back. -/
theorem loadTensor_of_saved {t : TensorImpl} {size : ℕ} {bytes : List UInt8} (name : Text)
    (pre post : List UInt8) (hwf : t.WellFormed) (hb : t.InBounds)
    (hsize : byteSize t = .ok size) (hbytes : tensorBytes mem t = .ok bytes) :
    size = bytes.length ∧ ∃ l, loadTensor (pre ++ (bytes ++ post))
        (name, ⟨t.dtype, t.shape, pre.length, pre.length + bytes.length⟩) = .ok (name, l) ∧
      SameTensor mem t l := by
  simp only [tensorBytes, bind_eq_ok, pure_eq_ok] at hbytes
  obtain ⟨⟨contiguous, source⟩, hcont, n, hn, -, -, rfl⟩ := hbytes
  obtain ⟨hdtype, hshape, hstrides, hfits, hsource⟩ := TensorImpl.contiguous_ok hwf hb hcont
  rw [hshape] at hn
  obtain rfl := numel_eq_prod hn
  obtain ⟨u, halloc⟩ := TensorImpl.allocate_of_fits 0 hwf.nonneg hstrides hn hfits
  have hpos : 0 ≤ t.shape.prod := Strided.prod_nonneg hwf.nonneg
  have hlen : (tensorData mem t t.shape.prod source).length =
      t.shape.prod.toNat * dtypeSize t.dtype := length_tensorData ..
  have hword : t.shape.prod.toNat * dtypeSize t.dtype ≤ 9223372036854775807 := by
    have hcast : ((t.shape.prod.toNat * dtypeSize t.dtype : ℕ) : Int) ≤ 9223372036854775807 := by
      rw [Nat.cast_mul, Int.toNat_of_nonneg hpos]
      exact hfits
    exact_mod_cast hcast
  constructor
  · simp only [byteSize, hn, bind_eq_ok, pure_eq_ok] at hsize
    obtain ⟨_, hprod, rfl⟩ := hsize
    cases Except.ok.inj hprod
    rw [hlen, Nat.mod_eq_of_lt (by omega)]
  · refine ⟨_, ?_, sameTensor_of_allocate halloc hsource⟩
    generalize hdata : tensorData mem t t.shape.prod source = bytes at hlen ⊢
    have hcount : checkedNumel name 1 t.shape = .ok t.shape.prod :=
      checkedNumel_of_ok zero_le_one hwf.nonneg hn
    have hbytes : ¬ (t.shape.prod ≠ 0 ∧
        18446744073709551615 / t.shape.prod.toNat < dtypeSize t.dtype) := by
      rintro ⟨hne, hlt⟩
      have hle : dtypeSize t.dtype ≤ 18446744073709551615 / t.shape.prod.toNat := by
        refine (Nat.le_div_iff_mul_le (by omega)).mpr ?_
        rw [Nat.mul_comm]
        omega
      omega
    have htake : ((pre ++ (bytes ++ post)).drop pre.length).take
        (pre.length + bytes.length - pre.length) = bytes := by
      rw [drop_left, Nat.add_sub_cancel_left, take_left]
    have hlast : ¬ (pre ++ (bytes ++ post)).length < pre.length + bytes.length := by
      rw [length_append, length_append]
      omega
    simp only [loadTensor, bind_eq_ok, pure_eq_ok]
    refine ⟨(), throwIf_of_not (by omega), (), throwIf_of_not hlast, _, hcount, (),
      throwIf_of_not hbytes, (), throwIf_of_not (by omega), u, halloc, ?_⟩
    rw [htake]

theorem loadTensor_name {data : List UInt8} {e : Text × TensorMeta} {r : Text × LoadedTensor}
    (h : loadTensor data e = .ok r) : r.1 = e.1 := by
  simp only [loadTensor, bind_eq_ok, pure_eq_ok] at h
  obtain ⟨_, -, _, -, n, -, _, -, _, -, t, -, rfl⟩ := h
  rfl

theorem loads_tensors {sizes : List ℕ} (hvalid : ∀ e ∈ ordered, e.2.WellFormed ∧ e.2.InBounds)
    (hsizes : ordered.mapM (fun e => byteSize e.2) = .ok sizes)
    (hdata : ordered.mapM (fun e => tensorBytes mem e.2) = .ok data) (pre : List UInt8) :
    sizes = data.map List.length ∧ ordered.length = data.length ∧
      ∃ entries, (metasOf (ordered.zip (placed pre.length data))).mapM
          (loadTensor (pre ++ data.flatten)) = .ok entries ∧
        List.Forall₂ (fun e l => l.1 = e.1 ∧ SameTensor mem e.2 l.2) ordered entries := by
  induction ordered generalizing sizes data pre with
  | nil =>
    obtain rfl : [] = sizes := pure_eq_ok.mp hsizes
    obtain rfl : [] = data := pure_eq_ok.mp hdata
    exact ⟨rfl, rfl, [], rfl, .nil⟩
  | cons e ordered ih =>
    rw [mapM_cons] at hsizes hdata
    simp only [bind_eq_ok, pure_eq_ok] at hsizes hdata
    obtain ⟨size, hsize, sizes, hsizes, rfl⟩ := hsizes
    obtain ⟨bytes, hbytes, data, hdata, rfl⟩ := hdata
    obtain ⟨hwf, hb⟩ := hvalid e mem_cons_self
    obtain ⟨rfl, l, hload, hsame⟩ :=
      loadTensor_of_saved e.1 pre data.flatten hwf hb hsize hbytes
    obtain ⟨rfl, hlen, entries, hentries, hall⟩ :=
      ih (fun x hx => hvalid x (mem_cons_of_mem _ hx)) hsizes hdata (pre ++ bytes)
    refine ⟨rfl, congrArg Nat.succ hlen, (e.1, l) :: entries, ?_, .cons ⟨rfl, hsame⟩ hall⟩
    rw [length_append, append_assoc] at hentries
    rw [placed, zip_cons_cons, metasOf, map_cons, mapM_cons]
    simp only [bind_eq_ok, pure_eq_ok]
    exact ⟨_, hload, entries, hentries, rfl⟩

/-- What is written: the header for the places of the data, and the data in their order. -/
structure Written (mem : Bytes) (dict : List (Text × TensorImpl)) (file : List UInt8)
    (offsets : List ℕ) (data : List (List UInt8)) : Prop where
  regions_eq : regions offsets = placed 0 data
  file_eq : file = appendPod (UInt64.ofNat (buildHeaderJson (sortedByName dict) offsets).length) ++
    (buildHeaderJson (sortedByName dict) offsets ++ data.flatten)
  fits : (file.length : Int) ≤ int64Max
  tensors : (sortedByName dict).length = data.length ∧
    ∃ entries, (metasOf ((sortedByName dict).zip (placed 0 data))).mapM
        (loadTensor data.flatten) = .ok entries ∧
      List.Forall₂ (fun e l => l.1 = e.1 ∧ SameTensor mem e.2 l.2) (sortedByName dict) entries

theorem sortedByName_perm (dict : List (Text × TensorImpl)) : (sortedByName dict).Perm dict :=
  mergeSort_perm _ _

theorem written_of_save (hvalid : ∀ e ∈ dict, e.2.WellFormed ∧ e.2.InBounds)
    (hsave : save mem dict path = .ok file) :
    ∃ offsets data, Written mem dict file offsets data := by
  simp only [save, bind_eq_ok, pure_eq_ok, throwIf_eq_ok] at hsave
  obtain ⟨sizes, hsizes, data, hdata, _, hfits, rfl⟩ := hsave
  obtain ⟨rfl, hlen, entries, hentries, hall⟩ := loads_tensors
    (fun e he => hvalid e ((sortedByName_perm dict).mem_iff.mp he)) hsizes hdata []
  refine ⟨_, data, ⟨regions_offsetsFrom ?_, rfl, Int.not_lt.mp hfits, hlen, entries, hentries, hall⟩⟩
  rw [length_append, length_append] at hfits
  simp only [int64Max] at hfits
  omega

/-- The regions that a header announces divide the data section. -/
structure DividesData (file : List UInt8) (header data : List UInt8) (regions : List (ℕ × ℕ)) :
    Prop where
  file_eq : file = appendPod (UInt64.ofNat header.length) ++ (header ++ data)
  bounds : ∀ r ∈ regions, r.1 ≤ r.2 ∧ r.2 ≤ data.length
  disjoint : regions.Pairwise fun a b => a.2 ≤ b.1
  covers : ∀ k < data.length, ∃ r ∈ regions, r.1 ≤ k ∧ k < r.2

theorem Written.dividesData (h : Written mem dict file offsets data) :
    DividesData file (buildHeaderJson (sortedByName dict) offsets) data.flatten
      (regions offsets) := by
  refine ⟨h.file_eq, fun r hr => ?_, ?_, fun k hk => ?_⟩
  · rw [h.regions_eq] at hr
    have hbounds := placed_bounds hr
    omega
  · rw [h.regions_eq]
    exact pairwise_placed 0 data
  · rw [h.regions_eq]
    exact placed_covers (Nat.zero_le k) (by omega)

/-- The length of the header is read back. -/
theorem headerSize_eq {header : List UInt8} (h : header.length < 18446744073709551616)
    (data : List UInt8) :
    ofLeBytes ((appendPod (ofNat header.length) ++ (header ++ data)).take 8) =
      header.length := by
  have hlen : (appendPod (ofNat header.length)).length = 8 := length_appendPod _
  have hnat : (ofNat header.length).toNat = header.length := UInt64.toNat_ofNat_of_lt' h
  rw [take_left' hlen, appendPod, ofLeBytes_leBytes]
  exact (Nat.mod_eq_of_lt (Pod.toNat_lt _)).trans hnat

theorem Written.split (h : Written mem dict file offsets data) :
    8 ≤ file.length ∧
      ofLeBytes (file.take 8) = (buildHeaderJson (sortedByName dict) offsets).length ∧
      file.drop 8 = buildHeaderJson (sortedByName dict) offsets ++ data.flatten := by
  have hfits := h.fits
  obtain ⟨-, rfl, -, -⟩ := h
  generalize buildHeaderJson (sortedByName dict) offsets = header at hfits ⊢
  have hlen : (appendPod (ofNat header.length)).length = 8 := length_appendPod _
  rw [length_append, length_append] at hfits
  simp only [int64Max] at hfits
  refine ⟨?_, headerSize_eq (by omega) _, drop_left' hlen⟩
  rw [length_append]
  exact Nat.le_add_right _ _

theorem checkRegions_placed (hlen : ordered.length = data.length) :
    checkRegions (metasOf (ordered.zip (placed 0 data))) data.flatten.length = .ok () := by
  have hle : ordered.length = (placed 0 data).length := hlen.trans (length_placed 0 data).symm
  have hregions : (metasOf (ordered.zip (placed 0 data))).map
      (fun e => (e.2.dataStart, e.2.dataEnd)) = placed 0 data := by
    rw [metasOf, map_map]
    exact map_snd_zip hle.ge
  have hsort : (placed 0 data).mergeSort (fun a b => a.1 < b.1 || (a.1 = b.1 && a.2 ≤ b.2)) =
      placed 0 data := by
    refine mergeSort_of_pairwise ((pairwise_placed 0 data).imp_of_mem fun ha hb hab => ?_)
    have ha := placed_bounds ha
    have hb := placed_bounds hb
    simp only [Bool.or_eq_true, Bool.and_eq_true, decide_eq_true_eq]
    omega
  simp only [checkRegions, hregions, hsort, bind_eq_ok]
  refine ⟨(), forM_eq_ok.mpr fun e he => ?_, _, contiguousFrom_placed 0 data, ?_⟩
  · have hmem : (e.2.dataStart, e.2.dataEnd) ∈ placed 0 data := hregions ▸ mem_map_of_mem he
    exact throwIf_of_not (Nat.not_lt.mpr (placed_bounds hmem).2.1)
  · split
    next hnil =>
      cases data with
      | nil => rfl
      | cons d data => cases hnil
    next => exact throwIf_of_not fun hne => hne (Nat.zero_add _)

theorem Written.exists_load (h : Written mem dict file offsets data)
    (hnames : (dict.map fst).Nodup) (hvalid : ∀ e ∈ dict, e.2.WellFormed ∧ e.2.InBounds)
    (hreserved : ascii "__metadata__" ∉ dict.map fst)
    (hheader : ofLeBytes (file.take 8) ≤ maxHeaderSize) :
    ∃ loaded, load file path = .ok loaded ∧ SameDict mem dict loaded := by
  obtain ⟨height, hsize, hdrop⟩ := h.split
  obtain ⟨hlen, entries, hentries, hall⟩ := h.tensors
  have hperm := sortedByName_perm dict
  have hzip : (sortedByName dict).length = (placed 0 data).length :=
    hlen.trans (length_placed 0 data).symm
  have hflat : data.flatten.length ≤ file.length := by
    have hlong := congrArg List.length h.file_eq
    rw [length_append, length_append] at hlong
    omega
  have hfits := h.fits
  have hparse : parseHeaderJson (buildHeaderJson (sortedByName dict) offsets) =
      .ok (metasOf ((sortedByName dict).zip (placed 0 data))) := by
    rw [← h.regions_eq]
    refine parseHeaderJson_of_printable (fun e he => ?_) ?_ fun e he => ?_
    · rw [h.regions_eq] at he
      obtain ⟨hdict, hplaced⟩ := of_mem_zip he
      have hwf := (hvalid _ (hperm.mem_iff.mp hdict)).1
      have hbounds := placed_bounds hplaced
      exact ⟨hwf.nonneg, hwf.size_le, by omega, by omega⟩
    · have hfst : ((sortedByName dict).zip (regions offsets)).map (fun e => e.1.1) =
          (sortedByName dict).map fst := by
        have hmap := congrArg (List.map fst) (map_fst_zip hzip.le)
        rwa [map_map, ← h.regions_eq] at hmap
      rw [hfst]
      exact (hperm.map fst).nodup_iff.mpr hnames
    · intro heq
      refine hreserved (heq ▸ mem_map_of_mem ?_)
      exact hperm.mem_iff.mp (of_mem_zip he).1
  refine ⟨entries, ?_, ?_, fun e he l hl => ?_⟩
  · have hdata : (buildHeaderJson (sortedByName dict) offsets ++ data.flatten).drop
        (buildHeaderJson (sortedByName dict) offsets).length = data.flatten := drop_left
    have hlong : ¬ file.length < 8 + (buildHeaderJson (sortedByName dict) offsets).length := by
      have hrest := congrArg List.length hdrop
      rw [length_drop, length_append] at hrest
      omega
    rw [hsize] at hheader
    simp only [load, hsize, hdrop, take_left, hdata, bind_eq_ok]
    exact ⟨(), throwIf_of_not (Nat.not_lt.mpr height), (), throwIf_of_not (Nat.not_lt.mpr hheader),
      (), throwIf_of_not hlong, _, hparse, (), checkRegions_placed hlen, hentries⟩
  · have hkeys : entries.map fst = (sortedByName dict).map fst := by
      have hfst := Forall₂.imp (fun _ _ hname => hname.1.symm) hall
      exact (forall₂_eq_eq_eq ▸ forall₂_map_left_iff.mpr
        (forall₂_map_right_iff.mpr hfst)).symm
    rw [hkeys]
    exact hperm.map fst
  · obtain ⟨x, hx, hname, hsame⟩ := Serializer.exists_saved hall hl
    obtain rfl := inj_on_of_nodup_map hnames (hperm.mem_iff.mp hx) he hname.symm
    exact hsame

theorem mapM_loadTensor_keys {data : List UInt8} {metas : List (Text × TensorMeta)}
    (h : metas.mapM (loadTensor data) = .ok loaded) : loaded.map fst = metas.map fst := by
  induction metas generalizing loaded with
  | nil =>
    obtain rfl : [] = loaded := pure_eq_ok.mp h
    rfl
  | cons e metas ih =>
    rw [mapM_cons] at h
    simp only [bind_eq_ok, pure_eq_ok] at h
    obtain ⟨r, hr, rest, hrest, rfl⟩ := h
    rw [map_cons, map_cons, ih hrest, loadTensor_name hr]

/-- A dictionary that comes back has no reserved name and a header that is not too long. -/
theorem readable_of_load (hload : load file path = .ok loaded) (hsame : SameDict mem dict loaded) :
    ascii "__metadata__" ∉ dict.map fst ∧ ofLeBytes (file.take 8) ≤ maxHeaderSize := by
  simp only [load, bind_eq_ok, throwIf_eq_ok] at hload
  obtain ⟨_, -, _, hheader, _, -, metas, hmetas, _, -, hloaded⟩ := hload
  refine ⟨fun hmem => reserved_notMem hmetas ?_, Nat.not_lt.mp hheader⟩
  rw [← mapM_loadTensor_keys hloaded]
  exact hsame.names.mem_iff.mpr hmem

/-- A saved dictionary comes back exactly when no tensor has the reserved name and the header is
not too long; the regions of the tensors divide the data section. -/
theorem loads_back_iff {file : List UInt8} (hnames : (dict.map Prod.fst).Nodup)
    (hvalid : ∀ e ∈ dict, e.2.WellFormed ∧ e.2.InBounds) (hsave : save mem dict path = .ok file) :
    ((∃ loaded, load file path = .ok loaded ∧ SameDict mem dict loaded) ↔
      ascii "__metadata__" ∉ dict.map Prod.fst ∧ ofLeBytes (file.take 8) ≤ maxHeaderSize) ∧
    ∃ offsets data, (regions offsets).length = dict.length ∧
      DividesData file (buildHeaderJson (sortedByName dict) offsets) data (regions offsets) := by
  obtain ⟨offsets, data, h⟩ := written_of_save hvalid hsave
  refine ⟨⟨?_, ?_⟩, offsets, data.flatten, ?_, h.dividesData⟩
  · rintro ⟨loaded, hload, hsame⟩
    exact readable_of_load hload hsame
  · rintro ⟨hreserved, hheader⟩
    exact h.exists_load hnames hvalid hreserved hheader
  · rw [h.regions_eq, length_placed, ← h.tensors.1, (sortedByName_perm dict).length_eq]

/-- A name with a quote, a backslash, a line feed and a control character. -/
def oddName : Text := [97, 34, 92, 10, 1]

def oddFile : List UInt8 :=
  appendPod (UInt64.ofNat 62) ++ (ascii "\x7b\"a\\\"\\\\\\n" ++ 1 :: (ascii
    "\":\x7b\"dtype\":\"U8\",\"shape\":[2,2],\"data_offsets\":[0,4]\x7d\x7d" ++ [0, 2, 1, 3]))

theorem loads_back_iff_odd : ∃ loaded, load oddFile "w" = .ok loaded ∧
    SameDict Serializer.addressBytes [(oddName, Serializer.transposedBytes)] loaded := by
  have hsave : save Serializer.addressBytes [(oddName, Serializer.transposedBytes)] "w" =
      .ok oddFile := by
    decide +kernel
  refine (loads_back_iff (by decide) (fun e he => ?_) hsave).1.mpr ⟨by decide, by decide +kernel⟩
  cases mem_singleton.mp he
  exact Serializer.transposedBytes_valid

/-- One byte. -/
def oneByte : TensorImpl where
  storage := .ofBytes 0 1
  shape := []
  strides := []
  dtype := .uint8

theorem oneByte_valid : oneByte.WellFormed ∧ oneByte.InBounds := by
  refine ⟨⟨rfl, by decide, by decide⟩, fun idx hidx => ?_⟩
  cases hidx
  decide

theorem length_escape (s : Text) :
    s.length ≤ (escapeJsonString s).length ∧ (escapeJsonString s).length ≤ 2 * s.length := by
  induction s with
  | nil => exact ⟨le_rfl, le_rfl⟩
  | cons c s ih =>
    have hchar : 1 ≤ (escapeChar c).length ∧ (escapeChar c).length ≤ 2 := by
      unfold escapeChar
      split_ifs <;> simp
    rw [escapeJsonString, flatMap_cons, ← escapeJsonString, length_append,
      length_cons]
    omega

theorem length_oneByte_header (name : Text) :
    name.length ≤ (buildHeaderJson [(name, oneByte)] [0, 1]).length ∧
      (buildHeaderJson [(name, oneByte)] [0, 1]).length ≤ 2 * name.length + 100 := by
  have hescape := length_escape name
  have hfields : (joined 44 fst (fields ((name, oneByte), 0, 1))).length ≤ 60 :=
    have h : (joined 44 fst (fields (([], oneByte), 0, 1))).length ≤ 60 := by decide +kernel
    h
  have hopen : (ascii "\x7b").length = 1 := by decide
  have hclose : (ascii "\x7d").length = 1 := by decide
  have hlen : (buildHeaderJson [(name, oneByte)] [0, 1]).length = 1 +
      ((escapeJsonString name).length + 2 +
        (2 + (joined 44 fst (fields ((name, oneByte), 0, 1))).length + 1) + 1) := by
    simp only [buildHeaderJson, regions, tail_cons, zip_cons_cons, zip_nil_right,
      joined, tensorJson_eq, quoted, length_append, length_cons, length_nil, hopen,
      hclose]
    ring
  omega

theorem exists_save_oneByte (name : Text) (path : String) (h : (2 * name.length + 1000 : Int) ≤ int64Max) :
    ∃ file, save Serializer.addressBytes [(name, oneByte)] path = .ok file ∧
      name.length ≤ ofLeBytes (file.take 8) := by
  obtain ⟨hlong, hshort⟩ := length_oneByte_header name
  have hsort : sortedByName [(name, oneByte)] = [(name, oneByte)] := mergeSort_singleton _
  have hsizes : [(name, oneByte)].mapM (fun e => byteSize e.2) = .ok [1] := rfl
  have hdata : [(name, oneByte)].mapM (fun e => tensorBytes Serializer.addressBytes e.2) =
      .ok [[0]] := rfl
  have hsave : save Serializer.addressBytes [(name, oneByte)] path = .ok
      (appendPod (ofNat (buildHeaderJson [(name, oneByte)] [0, 1]).length) ++
        (buildHeaderJson [(name, oneByte)] [0, 1] ++ [0])) := by
    simp only [save, hsort, hsizes, hdata, bind_eq_ok, pure_eq_ok]
    refine ⟨[1], rfl, [[0]], rfl, (), throwIf_of_not ?_, rfl⟩
    have hoffsets : offsetsFrom 0 [1] = [0, 1] := rfl
    rw [hoffsets, length_append, length_append, length_appendPod]
    simp only [Pod.width, int64Max, flatten_cons, flatten_nil, append_nil,
      length_singleton] at h ⊢
    omega
  refine ⟨_, hsave, ?_⟩
  simp only [int64Max] at h
  rw [headerSize_eq (by omega)]
  exact hlong

theorem reserved_and_long_names_are_lost : (oneByte.WellFormed ∧ oneByte.InBounds) ∧
    (∃ file, save Serializer.addressBytes [(ascii "__metadata__", oneByte)] "m" = .ok file ∧
      ¬ ∃ loaded, load file "m" = .ok loaded ∧
        SameDict Serializer.addressBytes [(ascii "__metadata__", oneByte)] loaded) ∧
    ∃ file, save Serializer.addressBytes [(List.replicate 104857601 97, oneByte)] "m" = .ok file ∧
      ¬ ∃ loaded, load file "m" = .ok loaded ∧
        SameDict Serializer.addressBytes [(List.replicate 104857601 97, oneByte)] loaded := by
  refine ⟨oneByte_valid, ?_, ?_⟩
  · obtain ⟨file, hfile, -⟩ := exists_save_oneByte (ascii "__metadata__") "m" (by decide)
    refine ⟨file, hfile, fun ⟨loaded, hload, hsame⟩ => ?_⟩
    exact (readable_of_load hload hsame).1 mem_cons_self
  · obtain ⟨file, hfile, hlong⟩ := exists_save_oneByte (List.replicate 104857601 97) "m"
      (by rw [length_replicate]; decide)
    refine ⟨file, hfile, fun ⟨loaded, hload, hsame⟩ => ?_⟩
    have hshort := (readable_of_load hload hsame).2
    rw [length_replicate] at hlong
    simp only [maxHeaderSize] at hshort
    omega

end SafeTensors

end Tenzor.Nn
