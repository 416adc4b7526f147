import Tenzor.Distributed.DeviceMesh
import Tenzor.Lib.Reindexing

/-!
# Coordinates and groups of a mesh

Device ids and coordinates are the two readings of a row-major number. The color is the row-major
number of the coordinates off the axis, so a group that is split off is the submesh of its members,
in the order of their coordinates along the axis.
-/

namespace Tenzor.Mesh

open Strided Reindexing Throwing Wrap64 List

namespace DeviceMesh

section Construction

variable {meshShape : List Int} {meshDimNames : List String} {size total : Int}

theorem checkedSize_ok {i : ℕ} (h : checkedSize i size meshShape = .ok total) :
    (∀ n ∈ meshShape, 0 < n) ∧ total = meshShape.foldl (fun size n => wrap64 (size * n)) size := by
  induction meshShape generalizing i size with
  | nil =>
    obtain rfl : size = total := Except.ok.inj h
    simp
  | cons n meshShape ih =>
    simp only [checkedSize, bind_eq_ok, throwIf_eq_ok, not_le] at h
    obtain ⟨-, hn, h⟩ := h
    obtain ⟨hrest, htotal⟩ := ih h
    exact ⟨forall_mem_cons.mpr ⟨hn, hrest⟩, htotal⟩

theorem checkNames_ok {seen : List String} (h : checkNames seen meshDimNames = .ok ()) :
    meshDimNames.Nodup ∧ ∀ name ∈ meshDimNames, name ∉ seen := by
  induction meshDimNames generalizing seen with
  | nil => simp
  | cons name meshDimNames ih =>
    simp only [checkNames, bind_eq_ok, throwIf_eq_ok] at h
    obtain ⟨-, hname, h⟩ := h
    obtain ⟨hnodup, hrest⟩ := ih h
    constructor
    · exact nodup_cons.mpr ⟨fun hmem => hrest name hmem mem_cons_self, hnodup⟩
    · refine forall_mem_cons.mpr ⟨hname, fun other hmem hseen => ?_⟩
      exact hrest other hmem (mem_cons_of_mem name hseen)

theorem validateAndInit_ok (h : validateAndInit meshShape meshDimNames = .ok total) :
    meshShape.length = meshDimNames.length ∧ meshShape ≠ [] ∧ (∀ n ∈ meshShape, 0 < n) ∧
      meshDimNames.Nodup ∧ total = meshShape.foldl (fun size n => wrap64 (size * n)) 1 := by
  simp only [validateAndInit, bind_eq_ok, throwIf_eq_ok, pure_eq_ok, ne_eq, not_not] at h
  obtain ⟨-, hlen, -, hne, _, hsize, _, hnames, rfl⟩ := h
  obtain ⟨hpos, htotal⟩ := checkedSize_ok hsize
  exact ⟨hlen, hne, hpos, (checkNames_ok hnames).1, htotal⟩

/-- The size is exact while it is a word. -/
theorem foldl_size_eq (hpos : ∀ n ∈ meshShape, 0 < n) (hsize : 0 < size)
    (hfit : size * meshShape.prod ≤ int64Max) :
    meshShape.foldl (fun size n => wrap64 (size * n)) size = size * meshShape.prod := by
  induction meshShape generalizing size with
  | nil => simp
  | cons n meshShape ih =>
    obtain ⟨hn, hpos⟩ := forall_mem_cons.mp hpos
    rw [prod_cons, ← mul_assoc] at hfit
    have hnext : 0 < size * n := mul_pos hsize hn
    have hle : size * n ≤ size * n * meshShape.prod :=
      le_mul_of_one_le_right hnext.le (Strided.prod_pos hpos)
    rw [foldl_cons, wrap64_of_nonneg hnext.le (hle.trans hfit), ih hpos hnext hfit, prod_cons, mul_assoc]

end Construction

/-! ## Coordinates -/

section Coordinates

variable {meshShape coord : List Int} {id : Int} {k : ℕ}

theorem prod_drop_le (hpos : ∀ n ∈ meshShape, 0 < n) (k : ℕ) :
    (meshShape.drop k).prod ≤ meshShape.prod := by
  have hdrop : 0 < (meshShape.drop k).prod :=
    Strided.prod_pos fun n hn => hpos n (mem_of_mem_drop hn)
  have htake : 0 < (meshShape.take k).prod :=
    Strided.prod_pos fun n hn => hpos n (mem_of_mem_take hn)
  calc
    (meshShape.drop k).prod ≤ (meshShape.take k).prod * (meshShape.drop k).prod :=
      le_mul_of_one_le_left hdrop.le htake
    _ = meshShape.prod := by rw [← prod_append, take_append_drop]

theorem drop_eq_getD_cons {l : List Int} (hk : k < l.length) :
    l.drop k = l.getD k 0 :: l.drop (k + 1) := by
  rw [getD_eq_getElem _ _ hk, getElem_cons_drop]

/-- The loop has read the axes from `k` on. -/
theorem deviceIdFrom_eq_ok (id : Int) (hpos : ∀ n ∈ meshShape, 0 < n)
    (hfit : meshShape.prod ≤ int64Max) (hlen : coord.length = meshShape.length)
    (hk : k ≤ meshShape.length) (hread : Within (coord.drop k) (meshShape.drop k)) :
    deviceIdFrom meshShape coord k (dot (coord.drop k) (rowMajor (meshShape.drop k)))
        (meshShape.drop k).prod = .ok id ↔
      Within coord meshShape ∧ id = dot coord (rowMajor meshShape) := by
  induction k with
  | zero =>
    rw [deviceIdFrom, Except.ok.injEq]
    exact ⟨fun h => ⟨hread, h.symm⟩, fun h => h.2.symm⟩
  | succ k ih =>
    have hkc : k < coord.length := by omega
    have hdropShape := drop_eq_getD_cons (l := meshShape) (k := k) (by omega)
    have hdropCoord := drop_eq_getD_cons hkc
    simp only [deviceIdFrom, bind_eq_ok, throwIf_eq_ok]
    by_cases hin : 0 ≤ coord.getD k 0 ∧ coord.getD k 0 < meshShape.getD k 0
    · have hwithin : Within (coord.drop k) (meshShape.drop k) := by
        rw [hdropShape, hdropCoord]
        exact within_cons.mpr ⟨hin, hread⟩
      have hbounds := dot_rowMajor_bounds hwithin
      have hbounds' := dot_rowMajor_bounds hread
      have hprod := (prod_drop_le hpos k).trans hfit
      have hdot : dot (coord.drop k) (rowMajor (meshShape.drop k)) =
          dot (coord.drop (k + 1)) (rowMajor (meshShape.drop (k + 1))) +
            coord.getD k 0 * (meshShape.drop (k + 1)).prod := by
        rw [hdropShape, hdropCoord, rowMajor, dot_cons, add_comm]
      have hnext : (meshShape.drop k).prod =
          (meshShape.drop (k + 1)).prod * meshShape.getD k 0 := by
        rw [hdropShape, prod_cons, mul_comm]
      have hterm : 0 ≤ coord.getD k 0 * (meshShape.drop (k + 1)).prod :=
        mul_nonneg hin.1 (by omega)
      rw [← ih (by omega) hwithin, hdot, hnext, wrap64_of_nonneg hterm (by omega),
        wrap64_of_nonneg (by omega) (by omega), wrap64_of_nonneg (by omega) (by omega)]
      constructor
      · rintro ⟨-, -, h⟩
        exact h
      · exact fun h => ⟨(), by omega, h⟩
    · constructor
      · rintro ⟨-, hcheck, -⟩
        exact absurd (by omega) hin
      · rintro ⟨hwithin, -⟩
        exact absurd (within_getD hwithin (by omega)) hin

/-- The id of a coordinate is its row-major number. -/
theorem getDeviceId_eq_ok (mesh : DeviceMesh) (hpos : ∀ n ∈ mesh.meshShape, 0 < n)
    (hfit : mesh.meshShape.prod ≤ int64Max) :
    mesh.getDeviceId coord = .ok id ↔
      Within coord mesh.meshShape ∧ id = dot coord (rowMajor mesh.meshShape) := by
  have hloop : coord.length = mesh.meshShape.length →
      (deviceIdFrom mesh.meshShape coord mesh.meshShape.length 0 1 = .ok id ↔
        Within coord mesh.meshShape ∧ id = dot coord (rowMajor mesh.meshShape)) := by
    intro hlen
    have hcoord : coord.drop mesh.meshShape.length = [] := drop_eq_nil_of_le (by omega)
    have hiff := deviceIdFrom_eq_ok id hpos hfit hlen le_rfl
      (by rw [hcoord, drop_length]; exact within_nil)
    rwa [hcoord, drop_length] at hiff
  simp only [getDeviceId, ndim, bind_eq_ok, throwIf_eq_ok, ne_eq, not_not, Nat.cast_inj]
  constructor
  · rintro ⟨-, hlen, h⟩
    exact (hloop hlen).mp h
  · intro h
    have hlen := h.1.length_eq
    exact ⟨(), hlen, (hloop hlen).mpr h⟩

theorem unravel_concat (hpos : ∀ n ∈ meshShape, 0 < n) {n : Int} (hn : 0 < n) (k : Int) :
    unravel (meshShape ++ [n]) k = unravel meshShape (k / n) ++ [k % n] := by
  induction meshShape with
  | nil => simp [unravel]
  | cons m meshShape ih =>
    obtain ⟨-, hpos⟩ := forall_mem_cons.mp hpos
    have hdiv : k / (meshShape.prod * n) = k / n / meshShape.prod := by
      rw [mul_comm, Int.ediv_ediv_of_nonneg hn.le]
    rw [cons_append, unravel, ih hpos, prod_append, prod_singleton, hdiv, unravel,
      cons_append]

/-- The loop reads the digits of what remains. -/
theorem coordinateFrom_eq (hpos : ∀ n ∈ meshShape, 0 < n) (hk : k ≤ meshShape.length)
    {remaining : Int} (hnn : 0 ≤ remaining) (known : List Int) :
    coordinateFrom meshShape k remaining known = unravel (meshShape.take k) remaining ++ known := by
  induction k generalizing remaining known with
  | zero => rfl
  | succ k ih =>
    have hn : 0 < meshShape.getD k 0 := by
      rw [getD_eq_getElem _ _ hk]
      exact hpos _ (getElem_mem hk)
    have htake : meshShape.take (k + 1) = meshShape.take k ++ [meshShape.getD k 0] := by
      rw [getD_eq_getElem _ _ hk, take_append_getElem]
    rw [coordinateFrom, Int.tmod_eq_emod_of_nonneg hnn, Int.tdiv_eq_ediv_of_nonneg hnn,
      ih (by omega) (Int.ediv_nonneg hnn hn.le), htake,
      unravel_concat (fun n hmem => hpos n (mem_of_mem_take hmem)) hn, append_assoc,
      singleton_append]

/-- The coordinate of an id is its multi-index in row-major order. -/
theorem getCoordinate_eq_ok (mesh : DeviceMesh) (hpos : ∀ n ∈ mesh.meshShape, 0 < n)
    (hfit : mesh.meshShape.prod ≤ int64Max) :
    mesh.getCoordinate id = .ok coord ↔
      (0 ≤ id ∧ id < mesh.meshShape.prod) ∧ coord = unravel mesh.meshShape id := by
  have hsize : mesh.size = mesh.meshShape.prod := by
    rw [size, foldl_size_eq hpos one_pos (by rwa [one_mul]), one_mul]
  simp only [getCoordinate, hsize, bind_eq_ok, throwIf_eq_ok, pure_eq_ok, not_or, not_lt, not_le]
  constructor
  · rintro ⟨-, hid, rfl⟩
    refine ⟨hid, ?_⟩
    rw [coordinateFrom_eq hpos le_rfl hid.1, take_length, append_nil]
  · rintro ⟨hid, rfl⟩
    refine ⟨(), hid, ?_⟩
    rw [coordinateFrom_eq hpos le_rfl hid.1, take_length, append_nil]

/-- Ids and coordinates are inverse readings of each other. -/
theorem coordinate_iff_deviceId {mesh : DeviceMesh} (hpos : ∀ n ∈ mesh.meshShape, 0 < n)
    (hfit : mesh.meshShape.prod ≤ int64Max) :
    mesh.getCoordinate id = .ok coord ↔ mesh.getDeviceId coord = .ok id := by
  rw [getCoordinate_eq_ok mesh hpos hfit, getDeviceId_eq_ok mesh hpos hfit]
  constructor
  · rintro ⟨hid, rfl⟩
    refine ⟨within_unravel hpos id, ?_⟩
    rw [dot_unravel hpos, Int.emod_eq_of_lt hid.1 hid.2]
  · rintro ⟨hwithin, rfl⟩
    exact ⟨dot_rowMajor_bounds hwithin, (unravel_dot hwithin).symm⟩

end Coordinates

section Colors

variable {meshShape coord : List Int} {color : Int}

/-- One more digit, with room for the others. -/
theorem digit_word {c n rest : Int} (hcolor : 0 ≤ color) (hc : 0 ≤ c ∧ c < n) (hrest : 0 < rest)
    (hfit : (color + 1) * (n * rest) ≤ int64Max) :
    wrap64 (wrap64 (color * n) + c) = color * n + c ∧ 0 ≤ color * n + c ∧
      (color * n + c + 1) * rest ≤ int64Max := by
  have hmul : 0 ≤ color * n := mul_nonneg hcolor (by omega)
  have hroom : (color * n + c + 1) * rest ≤ int64Max := by
    calc
      (color * n + c + 1) * rest ≤ (color * n + n) * rest :=
        mul_le_mul_of_nonneg_right (by omega) hrest.le
      _ = (color + 1) * (n * rest) := by ring
      _ ≤ int64Max := hfit
  have hle : color * n + c + 1 ≤ (color * n + c + 1) * rest :=
    le_mul_of_one_le_right (by omega) hrest
  rw [wrap64_of_nonneg hmul (by omega), wrap64_of_nonneg (by omega) (by omega)]
  exact ⟨rfl, by omega, hroom⟩

/-- Past the axis every coordinate is a digit. -/
theorem colorFrom_past {dimIdx d : ℕ} (hd : dimIdx < d) (hcoord : Within coord meshShape)
    (hcolor : 0 ≤ color) (hfit : (color + 1) * meshShape.prod ≤ int64Max) :
    colorFrom dimIdx d meshShape coord color =
      color * meshShape.prod + dot coord (rowMajor meshShape) := by
  induction hcoord generalizing d color with
  | nil => simp [colorFrom]
  | @cons c n coord meshShape hc hrest ih =>
    obtain ⟨hword, hnn, hroom⟩ := digit_word hcolor hc (Strided.prod_pos (Within.pos hrest)) hfit
    rw [colorFrom, if_neg (by omega), hword, ih (by omega) hnn hroom, rowMajor, dot_cons,
      prod_cons]
    ring

/-- The color is the row-major number of the coordinates off the axis. -/
theorem colorFrom_eq {dimIdx d k : ℕ} (hd : dimIdx = d + k) (hk : k < meshShape.length)
    (hcoord : Within coord meshShape) (hcolor : 0 ≤ color)
    (hfit : (color + 1) * (meshShape.eraseIdx k).prod ≤ int64Max) :
    colorFrom dimIdx d meshShape coord color =
      color * (meshShape.eraseIdx k).prod +
        dot (coord.eraseIdx k) (rowMajor (meshShape.eraseIdx k)) := by
  induction hcoord generalizing d k color with
  | nil => simp at hk
  | @cons c n coord meshShape hc hrest ih =>
    cases k with
    | zero =>
      rw [colorFrom, if_pos (by omega)]
      exact colorFrom_past (by omega) hrest hcolor hfit
    | succ k =>
      have hpos : 0 < (meshShape.eraseIdx k).prod :=
        Strided.prod_pos fun m hm => Within.pos hrest m (mem_of_mem_eraseIdx hm)
      obtain ⟨hword, hnn, hroom⟩ := digit_word hcolor hc hpos hfit
      rw [colorFrom, if_neg (by omega), hword,
        ih (by omega) (by simpa using hk) hnn hroom, eraseIdx_cons_succ,
        eraseIdx_cons_succ, rowMajor, dot_cons, prod_cons]
      ring

end Colors

end DeviceMesh

/-- Members with different keys are in the order of their keys. -/
theorem membersOf_eq {colors keys : List Int} {color : Int} {l : List ℕ}
    (hsorted : l.Pairwise fun p q => keys.getD p 0 < keys.getD q 0)
    (hmem : ∀ p, p ∈ l ↔ p < colors.length ∧ colors.getD p 0 = color) :
    membersOf colors keys color = l := by
  have hnodup : l.Nodup := hsorted.imp fun {p q} hlt heq => by
    rw [heq] at hlt
    exact lt_irrefl _ hlt
  apply @List.Perm.eq_of_pairwise _ fun p q => memberLe keys p q = true
  · intro p q _ _ hpq hqp
    simp only [memberLe, decide_eq_true_eq] at hpq hqp
    omega
  · apply pairwise_mergeSort
    · intro p q r hpq hqr
      simp only [memberLe, decide_eq_true_eq] at hpq hqr ⊢
      omega
    · simp only [memberLe, Bool.or_eq_true, decide_eq_true_eq]
      omega
  · refine hsorted.imp fun {p q} hlt => ?_
    simp only [memberLe, decide_eq_true_eq]
    exact .inl hlt
  · refine (mergeSort_perm _ _).trans ?_
    refine (perm_ext_iff_of_nodup (nodup_range.filter _) hnodup).mpr fun p => ?_
    rw [hmem, mem_filter, mem_range, decide_eq_true_eq]

theorem nodup_membersOf (colors keys : List Int) (color : Int) :
    (membersOf colors keys color).Nodup :=
  (mergeSort_perm _ _).nodup_iff.mpr (nodup_range.filter _)

namespace DeviceMesh

/-! ## Meshes of one group -/

/-- The processes of the attached group hold one rank of the mesh each. -/
structure Spans (meshShape : List Int) (meshDimNames : List String) (devices : List Int) :
    Prop where
  valid : ∃ total, validateAndInit meshShape meshDimNames = .ok total
  numbering : devices.Perm ((List.range meshShape.prod.toNat).map Int.ofNat)
  world_le : (devices.length : Int) ≤ intMax

/-- The mesh of process `p`, before any group has been split off. -/
def meshOf (meshShape : List Int) (meshDimNames : List String) (devices : List Int) (p : ℕ) :
    DeviceMesh :=
  ⟨meshShape, meshDimNames, devices.getD p 0, some ⟨List.range devices.length, p⟩, []⟩

section Spans

variable {meshShape : List Int} {meshDimNames : List String} {devices : List Int}

namespace Spans

variable (h : Spans meshShape meshDimNames devices) {id : Int} {p : ℕ}

include h

theorem pos : ∀ n ∈ meshShape, 0 < n := by
  obtain ⟨total, hvalid⟩ := h.valid
  exact (validateAndInit_ok hvalid).2.2.1

theorem length_eq : (devices.length : Int) = meshShape.prod := by
  have hprod := Strided.prod_pos h.pos
  rw [h.numbering.length_eq, length_map, length_range]
  omega

theorem prod_le : meshShape.prod ≤ intMax := h.length_eq ▸ h.world_le

theorem fits : meshShape.prod ≤ int64Max := h.prod_le.trans (by decide)

theorem nodup : devices.Nodup := by
  rw [h.numbering.nodup_iff]
  exact nodup_range.map Int.ofNat_injective

theorem mem_devices : id ∈ devices ↔ 0 ≤ id ∧ id < meshShape.prod := by
  rw [h.numbering.mem_iff, mem_map]
  constructor
  · rintro ⟨k, hk, rfl⟩
    have hk := mem_range.mp hk
    simp only [Int.ofNat_eq_natCast]
    omega
  · rintro ⟨hnn, hlt⟩
    exact ⟨id.toNat, mem_range.mpr (by omega), Int.toNat_of_nonneg hnn⟩

theorem device_bounds (hp : p < devices.length) :
    0 ≤ devices.getD p 0 ∧ devices.getD p 0 < meshShape.prod := by
  rw [getD_eq_getElem _ _ hp]
  exact h.mem_devices.mp (getElem_mem hp)

/-- The process that holds a rank. -/
theorem idxOf_device (hp : p < devices.length) : devices.idxOf (devices.getD p 0) = p := by
  rw [getD_eq_getElem _ _ hp]
  exact h.nodup.idxOf_getElem p hp

theorem device_idxOf (hid : 0 ≤ id ∧ id < meshShape.prod) :
    devices.idxOf id < devices.length ∧ devices.getD (devices.idxOf id) 0 = id := by
  have hlt := idxOf_lt_length_iff.mpr (h.mem_devices.mpr hid)
  refine ⟨hlt, ?_⟩
  rw [getD_eq_getElem _ _ hlt, getElem_idxOf]

theorem getDim_eq {d : ℕ} (hd : d < meshShape.length) (p : ℕ) :
    (meshOf meshShape meshDimNames devices p).getDim (meshDimNames.getD d "") = .ok d := by
  obtain ⟨total, hvalid⟩ := h.valid
  obtain ⟨hlen, -, -, hnodup, -⟩ := validateAndInit_ok hvalid
  have hdn : d < meshDimNames.length := hlen ▸ hd
  have hfind : meshDimNames.idxOf? (meshDimNames.getD d "") = some d := by
    rw [getD_eq_getElem _ _ hdn, idxOf?_eq_some_iff]
    refine ⟨hdn, rfl, fun j hj heq => ?_⟩
    exact hj.ne (hnodup.getElem_inj_iff.mp heq)
  simp only [getDim, meshOf, hfind]

theorem getCoordinate_eq (hp : p < devices.length) :
    (meshOf meshShape meshDimNames devices p).getCoordinate (devices.getD p 0) =
      .ok (unravel meshShape (devices.getD p 0)) :=
  (getCoordinate_eq_ok (meshOf meshShape meshDimNames devices p) h.pos h.fits).mpr
    ⟨h.device_bounds hp, rfl⟩

end Spans

/-- The ids along the axis through a coordinate. -/
def lineThrough (meshShape coord : List Int) (d : ℕ) : List Int :=
  (List.range (meshShape.getD d 0).toNat).map fun i : ℕ =>
    dot (coord.set d i) (rowMajor meshShape)

section Lines

variable {coord coord' : List Int} {d : ℕ}

theorem within_set_axis {x : Int} (hcoord : Within coord meshShape)
    (hx : 0 ≤ x ∧ x < meshShape.getD d 0) : Within (coord.set d x) meshShape := by
  refine within_set (n := meshShape.getD d 0) ?_ hx
  rwa [set_getD_self]

/-- Coordinates that agree off the axis differ by their value on it. -/
theorem set_of_eraseIdx_eq (hd : d < coord.length) (hd' : d < coord'.length)
    (heq : coord.eraseIdx d = coord'.eraseIdx d) : coord.set d (coord'.getD d 0) = coord' := by
  have hset := insertIdx_eraseIdx_getD (l := coord.set d (coord'.getD d 0)) 0 (by simpa using hd)
  rw [eraseIdx_set_eq, getD_set_self _ hd, heq, insertIdx_eraseIdx_getD 0 hd'] at hset
  exact hset.symm

/-- The color tells the coordinates off the axis. -/
theorem dot_eraseIdx_inj (hcoord : Within coord meshShape) (hcoord' : Within coord' meshShape) :
    dot (coord.eraseIdx d) (rowMajor (meshShape.eraseIdx d)) =
        dot (coord'.eraseIdx d) (rowMajor (meshShape.eraseIdx d)) ↔
      coord.eraseIdx d = coord'.eraseIdx d := by
  constructor
  · intro heq
    rw [← unravel_dot (within_eraseIdx d hcoord), heq, unravel_dot (within_eraseIdx d hcoord')]
  · exact fun heq => heq ▸ rfl

theorem mem_lineThrough (hd : d < meshShape.length) (hcoord : Within coord meshShape)
    (hcoord' : Within coord' meshShape) :
    dot coord' (rowMajor meshShape) ∈ lineThrough meshShape coord d ↔
      coord'.eraseIdx d = coord.eraseIdx d := by
  have hlen : d < coord.length := by rwa [hcoord.length_eq]
  have hlen' : d < coord'.length := by rwa [hcoord'.length_eq]
  have hb := within_getD hcoord' hd
  rw [lineThrough, mem_map]
  constructor
  · rintro ⟨i, hi, heq⟩
    have hi := mem_range.mp hi
    have hwithin := within_set_axis (d := d) (x := i) hcoord (by omega)
    rw [← unravel_dot hcoord', ← heq, unravel_dot hwithin, eraseIdx_set_eq]
  · intro heq
    refine ⟨(coord'.getD d 0).toNat, mem_range.mpr (by omega), ?_⟩
    rw [Int.toNat_of_nonneg hb.1, set_of_eraseIdx_eq hlen hlen' heq.symm]

end Lines

namespace Spans

variable (h : Spans meshShape meshDimNames devices) {d : ℕ}

include h

theorem getSubmesh_eq (hd : d < meshShape.length) {p : ℕ} (hp : p < devices.length) :
    (meshOf meshShape meshDimNames devices p).getSubmesh (meshDimNames.getD d "") =
      .ok (lineThrough meshShape (unravel meshShape (devices.getD p 0)) d) := by
  have hcoord := within_unravel h.pos (devices.getD p 0)
  simp only [getSubmesh, bind_eq_ok]
  refine ⟨d, h.getDim_eq hd p, _, h.getCoordinate_eq hp, ?_⟩
  refine mapM_eq_map fun i hi => ?_
  have hi : i < (meshShape.getD d 0).toNat := mem_range.mp hi
  have hlt : (i : Int) < meshShape.getD d 0 := by omega
  refine (getDeviceId_eq_ok (meshOf meshShape meshDimNames devices p) h.pos h.fits).mpr
    ⟨?_, rfl⟩
  exact within_set_axis hcoord ⟨by omega, hlt⟩

end Spans

/-! ## The groups that are split off -/

/-- The color that process `p` asks for. -/
def colorOf (meshShape devices : List Int) (d p : ℕ) : Int :=
  dot ((unravel meshShape (devices.getD p 0)).eraseIdx d) (rowMajor (meshShape.eraseIdx d))

/-- Its coordinate along the axis. -/
def keyOf (meshShape devices : List Int) (d p : ℕ) : Int :=
  (unravel meshShape (devices.getD p 0)).getD d 0

/-- One value for each process. -/
def perProcess (devices : List Int) (f : ℕ → Int) : List Int :=
  (List.range devices.length).map f

theorem getD_perProcess {f : ℕ → Int} {p : ℕ} (hp : p < devices.length) :
    (perProcess devices f).getD p 0 = f p := by
  rw [perProcess, getD_eq_getElem _ _ (by simpa using hp)]
  simp

/-- The parent group is the group of the axis. -/
def Whole (meshShape devices : List Int) (d : ℕ) : Prop :=
  meshShape.length = 1 ∨ (devices.length : Int) = 1 ∨ meshShape.getD d 0 = devices.length

namespace Spans

variable (h : Spans meshShape meshDimNames devices) {d : ℕ}

include h

theorem processGroupForDim_whole (hd : d < meshShape.length) (hwhole : Whole meshShape devices d)
    (p : ℕ) :
    (meshOf meshShape meshDimNames devices p).processGroupForDim (meshDimNames.getD d "") =
      .ok (.returned (some ⟨List.range devices.length, p⟩)) := by
  have hworld : (ProcessGroup.mk (List.range devices.length) p).worldSize = devices.length := by
    simp [ProcessGroup.worldSize]
  rw [processGroupForDim, h.getDim_eq hd p]
  by_cases hsingle : (meshOf meshShape meshDimNames devices p).ndim = 1
  · exact if_pos hsingle
  · have hfast : (ProcessGroup.mk (List.range devices.length) p).worldSize = 1 ∨
        meshShape.getD d 0 = (ProcessGroup.mk (List.range devices.length) p).worldSize := by
      rw [hworld]
      obtain hone | hrest := hwhole
      · exact absurd (by simp [ndim, meshOf, hone]) hsingle
      · exact hrest
    exact (if_neg hsingle).trans (if_pos hfast)

theorem color_bounds (p : ℕ) : 0 ≤ colorOf meshShape devices d p ∧
    colorOf meshShape devices d p < (meshShape.eraseIdx d).prod :=
  dot_rowMajor_bounds (within_eraseIdx d (within_unravel h.pos _))

/-- The axis times the others. -/
theorem prod_split (hd : d < meshShape.length) :
    meshShape.getD d 0 * (meshShape.eraseIdx d).prod = meshShape.prod ∧
      0 < meshShape.getD d 0 ∧ 0 < (meshShape.eraseIdx d).prod := by
  refine ⟨?_, ?_, Strided.prod_pos fun n hn => h.pos n (mem_of_mem_eraseIdx hn)⟩
  · rw [getD_eq_getElem _ _ hd]
    exact (getElem_cons_eraseIdx_perm hd).prod_eq
  · rw [getD_eq_getElem _ _ hd]
    exact h.pos _ (getElem_mem hd)

theorem prod_eraseIdx_le (hd : d < meshShape.length) :
    (meshShape.eraseIdx d).prod ≤ intMax ∧ meshShape.getD d 0 ≤ intMax := by
  obtain ⟨hsplit, hn, hrest⟩ := h.prod_split hd
  have hle := h.prod_le
  rw [← hsplit] at hle
  exact ⟨(le_mul_of_one_le_left hrest.le hn).trans hle,
    (le_mul_of_one_le_right hn.le hrest).trans hle⟩

theorem processGroupForDim_split (hd : d < meshShape.length) (hsplit : ¬ Whole meshShape devices d)
    {p : ℕ} (hp : p < devices.length) :
    (meshOf meshShape meshDimNames devices p).processGroupForDim (meshDimNames.getD d "") =
      .ok (.split (colorOf meshShape devices d p) (keyOf meshShape devices d p)) := by
  have hworld : (ProcessGroup.mk (List.range devices.length) p).worldSize = devices.length := by
    simp [ProcessGroup.worldSize]
  have hcoord := within_unravel h.pos (devices.getD p 0)
  obtain ⟨hcolors, hkeys⟩ := h.prod_eraseIdx_le hd
  have hcolor := h.color_bounds (d := d) p
  have hkey : keyOf meshShape devices d p < meshShape.getD d 0 := (within_getD hcoord hd).2
  have hdigits : colorFrom d 0 meshShape (unravel meshShape (devices.getD p 0)) 0 =
      colorOf meshShape devices d p := by
    have hfit : (0 + 1) * (meshShape.eraseIdx d).prod ≤ int64Max := by
      rw [zero_add, one_mul]
      exact hcolors.trans (by decide)
    rw [colorFrom_eq (zero_add d).symm hd hcoord le_rfl hfit, zero_mul, zero_add, colorOf]
  have hndim : (meshOf meshShape meshDimNames devices p).ndim ≠ 1 := by
    intro hone
    exact hsplit (.inl (by simpa [ndim, meshOf] using hone))
  have hslow : ¬ ((ProcessGroup.mk (List.range devices.length) p).worldSize = 1 ∨
      meshShape.getD d 0 = (ProcessGroup.mk (List.range devices.length) p).worldSize) := by
    rw [hworld]
    exact fun hfast => hsplit (.inr hfast)
  have hguard : ¬ (intMax < colorOf meshShape devices d p ∨
      intMax < keyOf meshShape devices d p) := by omega
  rw [processGroupForDim, h.getDim_eq hd p]
  refine (if_neg hndim).trans ((if_neg hslow).trans ?_)
  refine bind_eq_ok.mpr ⟨_, h.getCoordinate_eq hp, ?_⟩
  refine bind_eq_ok.mpr ⟨(), throwIf_eq_ok.mpr (hdigits ▸ hguard), ?_⟩
  exact congrArg (fun color => Except.ok (Request.split color (keyOf meshShape devices d p))) hdigits

theorem color_eq_iff (p q : ℕ) :
    colorOf meshShape devices d q = colorOf meshShape devices d p ↔
      (unravel meshShape (devices.getD q 0)).eraseIdx d =
        (unravel meshShape (devices.getD p 0)).eraseIdx d :=
  dot_eraseIdx_inj (within_unravel h.pos _) (within_unravel h.pos _)

/-- The ranks of the new group hold the ids along the axis, in order. -/
theorem membersOf_color (hd : d < meshShape.length) (p : ℕ) :
    membersOf (perProcess devices (colorOf meshShape devices d))
        (perProcess devices (keyOf meshShape devices d)) (colorOf meshShape devices d p) =
      (lineThrough meshShape (unravel meshShape (devices.getD p 0)) d).map devices.idxOf := by
  have hcoord := within_unravel h.pos (devices.getD p 0)
  have hlen : d < (unravel meshShape (devices.getD p 0)).length := by simpa using hd
  have hline : ∀ i : ℕ, (i : Int) < meshShape.getD d 0 →
      Within ((unravel meshShape (devices.getD p 0)).set d (i : Int)) meshShape := fun i hi =>
    within_set_axis hcoord ⟨by omega, hi⟩
  have hdevice : ∀ i : ℕ, (i : Int) < meshShape.getD d 0 →
      devices.idxOf (dot ((unravel meshShape (devices.getD p 0)).set d (i : Int))
        (rowMajor meshShape)) < devices.length ∧
      devices.getD (devices.idxOf (dot ((unravel meshShape (devices.getD p 0)).set d (i : Int))
        (rowMajor meshShape))) 0 =
        dot ((unravel meshShape (devices.getD p 0)).set d (i : Int)) (rowMajor meshShape) :=
    fun i hi => h.device_idxOf (dot_rowMajor_bounds (hline i hi))
  apply membersOf_eq
  · rw [lineThrough, map_map, pairwise_map]
    refine pairwise_lt_range.imp_of_mem fun {i j} hi hj hij => ?_
    have hj := mem_range.mp hj
    have hkey : ∀ k : ℕ, (k : Int) < meshShape.getD d 0 →
        (perProcess devices (keyOf meshShape devices d)).getD (devices.idxOf
          (dot ((unravel meshShape (devices.getD p 0)).set d (k : Int)) (rowMajor meshShape))) 0 =
          k := by
      intro k hk
      obtain ⟨hlt, hget⟩ := hdevice k hk
      rw [getD_perProcess hlt, keyOf, hget, unravel_dot (hline k hk), getD_set_self _ hlen]
    simp only [Function.comp_apply]
    rw [hkey i (by omega), hkey j (by omega)]
    exact_mod_cast hij
  · intro q
    rw [mem_map]
    constructor
    · rintro ⟨id, hid, rfl⟩
      obtain ⟨i, hi, rfl⟩ := mem_map.mp hid
      have hi := mem_range.mp hi
      obtain ⟨hlt, hget⟩ := hdevice i (by omega)
      refine ⟨by simpa [perProcess] using hlt, ?_⟩
      rw [getD_perProcess hlt, h.color_eq_iff, hget, unravel_dot (hline i (by omega)),
        eraseIdx_set_eq]
    · rintro ⟨hq, hcolor⟩
      have hq : q < devices.length := by simpa [perProcess] using hq
      rw [getD_perProcess hq, h.color_eq_iff] at hcolor
      refine ⟨devices.getD q 0, ?_, h.idxOf_device hq⟩
      have hbounds := h.device_bounds hq
      have hmem := (mem_lineThrough hd hcoord (within_unravel h.pos (devices.getD q 0))).mpr hcolor
      rwa [dot_unravel h.pos, Int.emod_eq_of_lt hbounds.1 hbounds.2] at hmem

/-- Where the parent is the group of the axis, there is one color. -/
theorem prod_eraseIdx_of_whole (hd : d < meshShape.length) (hwhole : Whole meshShape devices d) :
    (meshShape.eraseIdx d).prod = 1 := by
  obtain ⟨hsplit, hn, hrest⟩ := h.prod_split hd
  have hlen := h.length_eq
  obtain hsingle | hone | haxis := hwhole
  · have hempty : meshShape.eraseIdx d = [] := by
      rw [← length_eq_zero_iff, length_eraseIdx_of_lt hd, hsingle]
    rw [hempty, prod_nil]
  · have hle := le_mul_of_one_le_left hrest.le hn
    omega
  · have hself : meshShape.getD d 0 * (meshShape.eraseIdx d).prod = meshShape.getD d 0 * 1 := by
      omega
    exact mul_left_cancel₀ hn.ne' hself

theorem lineThrough_perm (hd : d < meshShape.length) (hwhole : Whole meshShape devices d) (p : ℕ) :
    (lineThrough meshShape (unravel meshShape (devices.getD p 0)) d).Perm devices := by
  have hcoord := within_unravel h.pos (devices.getD p 0)
  have hnodup : (lineThrough meshShape (unravel meshShape (devices.getD p 0)) d).Nodup := by
    have hmembers := nodup_membersOf (perProcess devices (colorOf meshShape devices d))
      (perProcess devices (keyOf meshShape devices d)) (colorOf meshShape devices d p)
    rw [h.membersOf_color hd] at hmembers
    exact hmembers.of_map _
  refine (perm_ext_iff_of_nodup hnodup h.nodup).mpr fun id => ?_
  rw [h.mem_devices]
  constructor
  · intro hid
    obtain ⟨i, hi, rfl⟩ := mem_map.mp hid
    have hi := mem_range.mp hi
    exact dot_rowMajor_bounds (within_set_axis hcoord (by omega))
  · intro hid
    have hself : dot (unravel meshShape id) (rowMajor meshShape) = id := by
      rw [dot_unravel h.pos, Int.emod_eq_of_lt hid.1 hid.2]
    have hone := h.prod_eraseIdx_of_whole hd hwhole
    have hcolor := dot_rowMajor_bounds (within_eraseIdx d (within_unravel h.pos id))
    have hcolor' := dot_rowMajor_bounds (within_eraseIdx d hcoord)
    rw [← hself, mem_lineThrough hd hcoord (within_unravel h.pos id),
      ← dot_eraseIdx_inj (within_unravel h.pos id) hcoord]
    omega

/-- What process `p` is given has the ids along the axis in order, and `p` at its coordinate. -/
theorem split_eq (hd : d < meshShape.length) {p : ℕ} (hp : p < devices.length) :
    ∃ g, (∀ masterPort mySplitId, (ProcessGroup.mk (List.range devices.length) p).split
        masterPort mySplitId (perProcess devices (colorOf meshShape devices d))
        (perProcess devices (keyOf meshShape devices d)) =
          if IsPort (newPort masterPort mySplitId (colorOf meshShape devices d p)) then .ok (some g)
          else .error (portOutOfRange masterPort mySplitId (colorOf meshShape devices d p))) ∧
      g.processes.map (devices.getD · 0) =
        lineThrough meshShape (unravel meshShape (devices.getD p 0)) d ∧
      (g.rank : Int) = keyOf meshShape devices d p := by
  have hcolor := h.color_bounds (d := d) p
  have hcoord := within_unravel h.pos (devices.getD p 0)
  have hkey : 0 ≤ keyOf meshShape devices d p ∧ keyOf meshShape devices d p < meshShape.getD d 0 :=
    within_getD hcoord hd
  have hmembers := h.membersOf_color hd p
  have hnodup := nodup_membersOf (perProcess devices (colorOf meshShape devices d))
    (perProcess devices (keyOf meshShape devices d)) (colorOf meshShape devices d p)
  refine ⟨⟨(membersOf (perProcess devices (colorOf meshShape devices d))
      (perProcess devices (keyOf meshShape devices d))
      (colorOf meshShape devices d p)).map ((List.range devices.length).getD · 0),
    (membersOf (perProcess devices (colorOf meshShape devices d))
      (perProcess devices (keyOf meshShape devices d)) (colorOf meshShape devices d p)).idxOf p⟩,
    ?_, ?_, ?_⟩
  · intro masterPort mySplitId
    simp only [ProcessGroup.split, getD_perProcess hp]
    rw [if_neg (by omega)]
    by_cases hport : IsPort (newPort masterPort mySplitId (colorOf meshShape devices d p))
    · rw [if_pos hport, throwIf_of_not (not_not.mpr hport)]
      rfl
    · rw [if_neg hport, throwIf, if_pos hport]
      rfl
  · rw [hmembers, map_map, map_map]
    refine (map_congr_left fun id hid => ?_).trans (map_id _)
    obtain ⟨i, hi, rfl⟩ := mem_map.mp hid
    have hi := mem_range.mp hi
    obtain ⟨hlt, hget⟩ := h.device_idxOf
      (dot_rowMajor_bounds (within_set_axis (d := d) (x := (i : Int)) hcoord (by omega)))
    have hrange : ∀ k < devices.length, (List.range devices.length).getD k 0 = k := by
      intro k hk
      rw [getD_eq_getElem _ _ (by simpa using hk), getElem_range]
    simp only [Function.comp_apply]
    rw [hrange _ hlt, hget, id_eq]
  · have hline : (membersOf (perProcess devices (colorOf meshShape devices d))
        (perProcess devices (keyOf meshShape devices d))
        (colorOf meshShape devices d p))[(keyOf meshShape devices d p).toNat]? = some p := by
      have hself : (unravel meshShape (devices.getD p 0)).set d (keyOf meshShape devices d p) =
          unravel meshShape (devices.getD p 0) := set_getD_self _ _
      have hbounds := h.device_bounds hp
      rw [hmembers, lineThrough, map_map, getElem?_map,
        getElem?_range (by omega), Option.map_some, Function.comp_apply,
        Int.toNat_of_nonneg hkey.1, hself, dot_unravel h.pos,
        Int.emod_eq_of_lt hbounds.1 hbounds.2, h.idxOf_device hp]
    obtain ⟨hlt, hget⟩ := List.getElem?_eq_some_iff.mp hline
    have hidx := hnodup.idxOf_getElem _ hlt
    rw [hget] at hidx
    rw [hidx]
    exact Int.toNat_of_nonneg hkey.1

end Spans

/-- The attached group serves the axis: it has the ranks of the submesh. -/
structure ParentAlong (meshShape : List Int) (meshDimNames : List String) (devices : List Int)
    (d : ℕ) : Prop where
  returned : ∀ p < devices.length,
    (meshOf meshShape meshDimNames devices p).processGroupForDim (meshDimNames.getD d "") =
      .ok (.returned (some ⟨List.range devices.length, p⟩))
  submesh : ∀ p < devices.length, ∃ sub,
    (meshOf meshShape meshDimNames devices p).getSubmesh (meshDimNames.getD d "") = .ok sub ∧
      sub.Perm devices

/-- Groups by color: one for each choice of the other coordinates, in the order of the submesh. -/
structure SplitAlong (meshShape : List Int) (meshDimNames : List String) (devices : List Int)
    (d : ℕ) (colors keys : List Int) : Prop where
  length_colors : colors.length = devices.length
  requested : ∀ p < devices.length,
    (meshOf meshShape meshDimNames devices p).processGroupForDim (meshDimNames.getD d "") =
      .ok (.split (colors.getD p 0) (keys.getD p 0))
  same_color_iff : ∀ p < devices.length, ∀ q < devices.length, ∃ a b,
    (meshOf meshShape meshDimNames devices p).getCoordinate (devices.getD p 0) = .ok a ∧
      (meshOf meshShape meshDimNames devices q).getCoordinate (devices.getD q 0) = .ok b ∧
      (colors.getD p 0 = colors.getD q 0 ↔ a.eraseIdx d = b.eraseIdx d)
  group : ∀ p < devices.length, ∃ coord sub g,
    (meshOf meshShape meshDimNames devices p).getCoordinate (devices.getD p 0) = .ok coord ∧
      (meshOf meshShape meshDimNames devices p).getSubmesh (meshDimNames.getD d "") = .ok sub ∧
      (∀ masterPort mySplitId,
        (ProcessGroup.mk (List.range devices.length) p).split masterPort mySplitId colors keys =
          if IsPort (newPort masterPort mySplitId (colors.getD p 0)) then .ok (some g)
          else .error (portOutOfRange masterPort mySplitId (colors.getD p 0))) ∧
      g.processes.map (devices.getD · 0) = sub ∧ (g.rank : Int) = coord.getD d 0

theorem Spans.parentAlong (h : Spans meshShape meshDimNames devices) {d : ℕ}
    (hd : d < meshShape.length) (hwhole : Whole meshShape devices d) :
    ParentAlong meshShape meshDimNames devices d := by
  refine ⟨fun p _ => h.processGroupForDim_whole hd hwhole p, fun p hp => ?_⟩
  exact ⟨_, h.getSubmesh_eq hd hp, h.lineThrough_perm hd hwhole p⟩

theorem Spans.splitAlong (h : Spans meshShape meshDimNames devices) {d : ℕ}
    (hd : d < meshShape.length) (hsplit : ¬ Whole meshShape devices d) :
    SplitAlong meshShape meshDimNames devices d (perProcess devices (colorOf meshShape devices d))
      (perProcess devices (keyOf meshShape devices d)) := by
  constructor
  · simp [perProcess]
  · intro p hp
    rw [getD_perProcess hp, getD_perProcess hp, h.processGroupForDim_split hd hsplit hp]
  · intro p hp q hq
    refine ⟨_, _, h.getCoordinate_eq hp, h.getCoordinate_eq hq, ?_⟩
    rw [getD_perProcess hp, getD_perProcess hq, h.color_eq_iff]
  · intro p hp
    obtain ⟨g, hg, hprocesses, hrank⟩ := h.split_eq hd hp
    refine ⟨_, _, g, h.getCoordinate_eq hp, h.getSubmesh_eq hd hp, ?_, hprocesses, hrank⟩
    rw [getD_perProcess hp]
    exact hg

/-- Coordinates invert device ids, and the groups of every axis are its submeshes. -/
theorem coordinates_and_groups {total : Int}
    (hvalid : validateAndInit meshShape meshDimNames = .ok total)
    (hfit : meshShape.prod ≤ int64Max) :
    (∀ (mesh : DeviceMesh) (id : Int) (coord : List Int), mesh.meshShape = meshShape →
      (mesh.getCoordinate id = .ok coord ↔ mesh.getDeviceId coord = .ok id)) ∧
    ∀ devices, Spans meshShape meshDimNames devices → ∀ d < meshShape.length,
      (Whole meshShape devices d → ParentAlong meshShape meshDimNames devices d) ∧
      (¬ Whole meshShape devices d →
        ∃ colors keys, SplitAlong meshShape meshDimNames devices d colors keys) := by
  obtain ⟨-, -, hpos, -⟩ := validateAndInit_ok hvalid
  constructor
  · rintro mesh id coord rfl
    exact coordinate_iff_deviceId hpos hfit
  · intro devices h d hd
    exact ⟨h.parentAlong hd, fun hsplit => ⟨_, _, h.splitAlong hd hsplit⟩⟩

end Spans

/-- A two by two grid whose ranks are not in the order of the processes. -/
theorem coordinates_and_groups_grid :
    (∀ (mesh : DeviceMesh) (id : Int) (coord : List Int), mesh.meshShape = [2, 2] →
      (mesh.getCoordinate id = .ok coord ↔ mesh.getDeviceId coord = .ok id)) ∧
    ∃ colors keys, SplitAlong [2, 2] ["dp", "tp"] [3, 1, 0, 2] 1 colors keys := by
  have hvalid : validateAndInit [2, 2] ["dp", "tp"] = .ok 4 := rfl
  have hspans : Spans [2, 2] ["dp", "tp"] [3, 1, 0, 2] := ⟨⟨4, hvalid⟩, by decide, by decide⟩
  have hsplit : ¬ Whole [2, 2] [3, 1, 0, 2] 1 := by
    unfold Whole
    decide
  obtain ⟨hinverse, hgroups⟩ := coordinates_and_groups hvalid (by decide)
  exact ⟨hinverse, (hgroups _ hspans 1 (by decide)).2 hsplit⟩

/-- On a mesh of one axis the attached group is returned, whatever ranks its processes hold. -/
theorem parent_keeps_its_ranks :
    Spans [2] ["dp"] [1, 0] ∧
      (meshOf [2] ["dp"] [1, 0] 0).processGroupForDim "dp" =
        .ok (.returned (some ⟨[0, 1], 0⟩)) ∧
      (meshOf [2] ["dp"] [1, 0] 0).getCoordinate 1 = .ok [1] ∧
      ¬ ∀ pg coord, (meshOf [2] ["dp"] [1, 0] 0).processGroupForDim "dp" =
          .ok (.returned (some pg)) →
        (meshOf [2] ["dp"] [1, 0] 0).getCoordinate 1 = .ok coord →
        (pg.rank : Int) = coord.getD 0 0 := by
  have hreturned : (meshOf [2] ["dp"] [1, 0] 0).processGroupForDim "dp" =
      .ok (.returned (some ⟨[0, 1], 0⟩)) := rfl
  have hcoord : (meshOf [2] ["dp"] [1, 0] 0).getCoordinate 1 = .ok [1] := rfl
  refine ⟨⟨⟨2, rfl⟩, by decide, by decide⟩, hreturned, hcoord, fun h => ?_⟩
  exact absurd (h _ _ hreturned hcoord) (by decide)

end DeviceMesh

end Tenzor.Mesh
