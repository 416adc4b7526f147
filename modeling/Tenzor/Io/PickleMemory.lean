import Tenzor.Io.RawUnpicklerSpec
import Tenzor.Io.StateDictsSpec

/-!
# What a loaded checkpoint refers to

Whatever bytes a file has, loading it as a checkpoint ends without an access outside of what is
accessed, and every tensor that is loaded has its bytes in the storage entry that it names.
-/

namespace Tenzor.TorchPickle.Raw

variable {zip : ZipReader} {archivePrefix : Text} {p : Ptr} {source : Rebuild} {t : LoadedTensor}

open Throwing Strided Tenzor.Lite Unchecked

/-- From its offset on, all that the shape and the strides of the tensor reach is in the entry of its
storage, which is a part of the file. -/
structure InEntry (archive : Archive) (archivePrefix : Text) (source : Rebuild) (t : LoadedTensor)
    (view : ℕ × ℕ) : Prop where
  entry : ∃ name, storageEntry archive archivePrefix source.storageKey = .ok name ∧
    archive.readView name = .ok view
  inside : view.1 + view.2 ≤ archive.file.bytes.length
  dtype : t.impl.dtype = source.info.dtype
  shape : t.impl.shape = source.shape
  strides : source.stride = [] ∨ t.impl.strides = source.stride
  nonneg : 0 ≤ source.storageOffset
  start : source.storageOffset * dtypeSize t.impl.dtype ≤ view.2
  reaches : (∀ n ∈ t.impl.shape, n ≠ 0) →
    0 ≤ (reach (source.storageOffset, source.storageOffset)
      (t.impl.shape.zip t.impl.strides)).1 ∧
    ((reach (source.storageOffset, source.storageOffset)
      (t.impl.shape.zip t.impl.strides)).2 + 1) * dtypeSize t.impl.dtype ≤ view.2
  data : t.data = ((archive.part view).drop
    (source.storageOffset.toNat * dtypeSize t.impl.dtype)).take
      (t.impl.shape.prod.toNat * dtypeSize t.impl.dtype)

/-- A tensor that was rebuilt has the row-major strides of a shape without negative axes. -/
theorem layout_of_built
    (h : TorchPickle.buildTensorFromStorage zip archivePrefix p source = .ok t) :
    (∀ n ∈ t.impl.shape, 0 ≤ n) ∧ t.impl.strides = rowMajor t.impl.shape := by
  simp only [TorchPickle.buildTensorFromStorage, bind_eq_ok, pure_eq_ok] at h
  obtain ⟨_, -, _, -, _, -, n, -, _, -, _, -, _, -, _, -, u, hu, rfl⟩ := h
  obtain ⟨hnonneg, -, -, -, hshape, hstrides, -⟩ := TensorImpl.allocate_ok hu
  rw [hshape]
  exact ⟨hnonneg, hstrides⟩

theorem exists_inEntry {archive : Archive} (h : archive.Depicts zip)
    (hbuilt : TorchPickle.buildTensorFromStorage zip archivePrefix p source = .ok t) :
    ∃ view, InEntry archive archivePrefix source t view := by
  have hfaithful := buildTensorFromStorage_ok hbuilt
  obtain ⟨name, bytes, hname, hbytes, hnonneg, hsize, hdata⟩ := hfaithful.bytes
  obtain ⟨hshape, hstrides⟩ := layout_of_built hbuilt
  have hentry : storageEntry archive archivePrefix source.storageKey = .ok name := by
    have hmirrors : Mirrors (storageEntry archive archivePrefix source.storageKey) _ :=
      storageEntry_mirrors h source.storageKey
    rwa [hname] at hmirrors
  have hread : archive.part <$> archive.readView name = .ok bytes := by
    have hmirrors := h.read name
    rwa [hbytes] at hmirrors
  obtain ⟨view, hview, rfl⟩ := map_eq_ok.mp hread
  have hlands := archive.lands_readView name
  rw [hview] at hlands
  have hinside := hlands.ok
  rw [archive.length_part hinside, ← hfaithful.dtype, ← hfaithful.shape] at hsize
  have hprod : 0 ≤ t.impl.shape.prod := prod_nonneg hshape
  have hbound : (source.storageOffset + t.impl.shape.prod) * dtypeSize t.impl.dtype ≤ view.2 := by
    zify at hsize
    rwa [Int.toNat_of_nonneg hnonneg, Int.toNat_of_nonneg hprod] at hsize
  have hsizeNonneg : (0 : Int) ≤ dtypeSize t.impl.dtype := Int.natCast_nonneg _
  refine ⟨view, ⟨name, hentry, hview⟩, hinside, hfaithful.dtype, hfaithful.shape,
    hfaithful.stride, hnonneg, ?_, fun hne => ?_, ?_⟩
  · calc
      source.storageOffset * (dtypeSize t.impl.dtype : Int)
          ≤ (source.storageOffset + t.impl.shape.prod) * dtypeSize t.impl.dtype :=
        mul_le_mul_of_nonneg_right (le_add_of_nonneg_right hprod) hsizeNonneg
      _ ≤ view.2 := hbound
  · have hpos : ∀ n ∈ t.impl.shape, 0 < n := fun n hn => lt_of_le_of_ne (hshape n hn) (hne n hn).symm
    obtain ⟨hlow, hhigh⟩ := reach_rowMajor hpos source.storageOffset
    rw [hstrides]
    refine ⟨hnonneg.trans hlow, ?_⟩
    exact (mul_le_mul_of_nonneg_right (Int.add_one_le_of_lt hhigh) hsizeNonneg).trans hbound
  · rw [hdata, hfaithful.dtype, hfaithful.shape]

theorem lands_pickleName (archive : Archive) (path : String) :
    Lands (fun _ => True) (pickleName archive path) :=
  lands_rejectIf fun _ => Lands.pure trivial

/-- Whatever the bytes of the file are, the loader throws or returns, within the rounds that its
loops are given and without an access outside of the file, the program or the stack; and the tensors
that it returns are in the entries of their storages. -/
theorem loadTorchPickle_lands (order : IterationOrder) (file : File) (path : String) :
    Lands (fun state => ∃ archive name bytes root s, openArchive order file path = .ok archive ∧
      archive.file = file ∧ pickleName archive path = .ok name ∧ archive.read name = .ok bytes ∧
      load archive (prefixOf name) bytes = .ok (root, s) ∧
      ∀ e ∈ state, ∃ p source view, s.heap p = .tensorObj source e.2 ∧
        InEntry archive (prefixOf name) source e.2 view) (loadTorchPickle order file path) := by
  refine (lands_openArchive order file path).keep.bind fun archive harchive => ?_
  refine (lands_pickleName archive path).keep.bind fun name hname => ?_
  refine (archive.lands_read name).keep.bind fun bytes hbytes => ?_
  obtain ⟨zip, hzip⟩ := archive.exists_depicts
  have hsmall : bytes.length < Cursor.words := hbytes.1.trans_lt archive.file.length_lt_words
  have hfollows : Follows Shows (load archive (prefixOf name) bytes) _ := follows_load hzip hsmall
  generalize hload : load archive (prefixOf name) bytes = x at hfollows
  generalize hbuilt : TorchPickle.load zip (prefixOf name) bytes = y at hfollows
  cases hfollows with
  | throws e => exact .throws e
  | @returns root s t hs =>
    refine (Lands.within _).mono fun state hstate => ?_
    refine ⟨archive, name, bytes, root, s, harchive.2, harchive.1, hname.2, hbytes.2, hload, ?_⟩
    intro e he
    rcases (collect_collects hstate).sound e he with hold | ⟨p, source, -, hp⟩
    · exact (List.not_mem_nil hold).elim
    · have hp' : t.heap p = .tensorObj source e.2 := by rw [hs.heap, hp]
      obtain ⟨view, hview⟩ := exists_inEntry hzip (load_built hbuilt p source e.2 hp')
      exact ⟨p, source, view, hp, hview⟩

end Tenzor.TorchPickle.Raw
