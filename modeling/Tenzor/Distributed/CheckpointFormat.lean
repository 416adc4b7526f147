import Tenzor.Distributed.Checkpoint

/-!
# Reading a shard file back

What `serialize_state` writes, `deserialize_state` reads: the same tensors under
the same names, but without their quantization metadata, the recorded world size,
and the declared sharding.
-/

namespace Tenzor.Checkpoint

variable {n : ℕ} {α : Type} {name : Name} {state : Tensors} {worldSize : ℤ} {specs : Specs}
  {data : List UInt8}

open Throwing Wire List

/-- A number that an `int64_t` holds. -/
def Fits (n : ℤ) : Prop := -2 ^ 63 ≤ n ∧ n ≤ maxInt64

theorem fits_nat (h : n ≤ maxInt64) : Fits n := by
  unfold Fits maxInt64 at *
  omega

@[simp] theorem length_appendInt64 (n : ℤ) : (appendInt64 n).length = 8 := length_appendPod _

theorem reads_int64 {n : ℤ} (h : Fits n) : Reads readInt64 (appendInt64 n) n := by
  have hword : (Int64.ofInt n).toInt = n := by
    refine Int64.toInt_ofInt_of_le h.1 ?_
    have hle := h.2
    unfold maxInt64 at hle
    omega
  have hread : Reads readInt64 (appendInt64 n) (Int64.ofInt n).toInt :=
    (reads_pod truncated (Int64.ofInt n)).map Int64.toInt
  rwa [hword] at hread

theorem Reads.liftExcept {β : Type} {x : Except Exn α} {a : α} (hx : x = .ok a)
    {k : α → Reader Exn β} {bytes : List UInt8} {b : β} (hk : Reads (k a) bytes b) :
    Reads (liftExcept x >>= k) bytes b := by
  intro rest
  rw [Wire.bind_eq_ok]
  exact ⟨a, bytes ++ rest, by rw [hx]; rfl, hk rest⟩

/-- What the construction of a tensor has checked. -/
structure Blob.Allocated (t : Blob) : Prop where
  rank_le : t.shape.length ≤ maxInt64
  dim_le : ∀ d ∈ t.shape, d ≤ maxInt64
  numel_eq : checkedNumel t.shape = some t.shape.prod
  bytes_le : t.shape.prod * dtypeSize t.dtype ≤ maxInt64
  length_eq : t.data.length = t.shape.prod * dtypeSize t.dtype

/-- The dimensions pass the checks that the count of their elements has passed. -/
theorem reads_dims (name : Name) {shape : List ℕ} (hdims : ∀ d ∈ shape, d ≤ maxInt64) {m : ℕ}
    (h : shape.foldlM (fun numel d =>
      if d ≠ 0 ∧ maxInt64 / d < numel then none else some (numel * d)) n = some m) :
    Reads (readDims name shape.length n) (shape.flatMap fun d : ℕ => appendInt64 d) (shape, m) := by
  induction shape generalizing n with
  | nil =>
    obtain rfl : n = m := by simpa using h
    exact Reads.pure _
  | cons d rest ih =>
    obtain ⟨hd, hrest⟩ := forall_mem_cons.mp hdims
    rw [foldlM_cons] at h
    split_ifs at h with hover
    · simp at h
    · apply (reads_int64 (fits_nat hd)).bind
      apply Reads.failIf (by omega)
      apply Reads.failIf (by simpa using hover)
      exact (ih hrest h).map fun r => (d :: r.1, r.2)

theorem checkedDtype_code (dt : DType) (name : Name) :
    checkedDtype (Lite.dtypeCode dt).toUInt32 name = .ok dt := by
  cases dt <;> rfl

/-- What is recorded of a sharding. -/
def ShardSpec.written (spec : ShardSpec) : ShardSpec where
  sharded := spec.sharded
  dim := if spec.sharded then spec.dim else 0

/-- The dimension of a sharded tensor is one of its own. -/
def ShardSpec.Within (spec : ShardSpec) (ndim : ℕ) : Prop :=
  spec.sharded = true → 0 ≤ spec.dim ∧ spec.dim < ndim

variable {t : Blob} {spec : ShardSpec}

theorem within_of_resolve {declared : Option ShardSpec}
    (h : resolveSpec name t declared = .ok spec) : spec.Within t.shape.length:= by
  intro hs
  cases declared with
  | none =>
    obtain rfl := Except.ok.inj h
    simp at hs
  | some d =>
    simp only [resolveSpec] at h
    split_ifs at h with hd hzero hneg hout hout
    all_goals obtain rfl := Except.ok.inj h
    · simpa using hout
    · simpa using hout
    · exact absurd hs hd

theorem reads_spec (name : Name) {ndim : ℕ} (hrank : ndim ≤ maxInt64) (h : spec.Within ndim) :
    Reads (readSpec true name ndim) (appendPod (if spec.sharded then 1 else 0 : UInt8) ++
      appendInt64 (if spec.sharded then spec.dim else 0)) spec.written := by
  have hdim : Fits (if spec.sharded then spec.dim else 0) := by
    split_ifs with hs
    · obtain ⟨hlo, hhi⟩ := h hs
      unfold Fits maxInt64 at *
      omega
    · exact fits_nat (Nat.zero_le _)
  apply (reads_pod truncated _).bind
  have hlast : Reads _ (appendInt64 (if spec.sharded then spec.dim else 0) ++ []) spec.written :=
    (reads_int64 hdim).bind (k := fun dim : ℤ => do
      failIf ((if spec.sharded then 1 else 0 : UInt8) ≠ 0 ∧ ndim = 0)
        (nameError "tensor " name " marked sharded but has 0 dims")
      failIf ((if spec.sharded then 1 else 0 : UInt8) ≠ 0 ∧ (dim < 0 ∨ (ndim : ℤ) ≤ dim))
        (ckptError ("invalid shard dim " ++ toString dim ++ " for tensor '" ++ name.text ++
          "' with " ++ toString ndim ++ " dims"))
      pure { sharded := (if spec.sharded then 1 else 0 : UInt8) ≠ 0, dim := dim }) ?_
  · rwa [append_nil] at hlast
  · cases hs : spec.sharded with
    | true =>
      obtain ⟨hlo, hhi⟩ := h hs
      apply Reads.failIf
      · omega
      apply Reads.failIf
      · rintro ⟨-, hout⟩
        omega
      have hw : spec.written = { sharded := true, dim := spec.dim } := by
        simp [ShardSpec.written, hs]
      rw [hw]
      exact Reads.pure _
    | false =>
      have hw : spec.written = { sharded := false, dim := 0 } := by
        simp [ShardSpec.written, hs]
      rw [hw]
      exact Reads.pure _

theorem reads_entry (hname : name.length ≤ maxInt64) (ht : t.Allocated)
    (hspec : spec.Within t.shape.length) :
    Reads (readEntry true) (serializeEntry name t spec) (name, t.stored, spec.written) := by
  apply (reads_int64 (fits_nat hname)).bind
  apply Reads.remaining
  intro left hleft
  apply Reads.failIf
  · rw [length_append] at hleft
    rintro (hneg | hlt)
    · omega
    · omega
  apply (reads_bytes truncated name).bind
  apply (reads_int64 (fits_nat ht.rank_le)).bind
  apply Reads.remaining
  intro left hleft
  apply Reads.failIf
  · have hdims : t.shape.length * 8 ≤ (t.shape.flatMap fun d : ℕ => appendInt64 d).length :=
      le_length_flatMap fun d _ => (length_appendInt64 _).ge
    rw [length_append] at hleft
    rintro (hneg | hlt)
    · omega
    · omega
  apply (reads_dims name ht.dim_le ht.numel_eq).bind
  apply (reads_pod truncated _).bind
  apply Reads.liftExcept (checkedDtype_code t.dtype name)
  apply (reads_spec name ht.rank_le hspec).bind
  apply (reads_int64 (fits_nat (ht.length_eq ▸ ht.bytes_le))).bind
  apply Reads.failIf
  · rw [Nat.not_lt, Nat.le_div_iff_mul_le (dtypeSize_pos t.dtype)]
    exact ht.bytes_le
  apply Reads.failIf
  · rw [ht.length_eq]
    simp
  apply Reads.remaining
  intro left hleft
  apply Reads.failIf
  · rw [Nat.not_lt]
    exact hleft
  exact (reads_bytes truncated t.data).map fun data =>
    (name, ({ shape := t.shape, dtype := t.dtype, data := data } : Blob), spec.written)

/-- Entries with distinct keys, inserted one after the other. -/
theorem lookup_foldl_insert (f : (Σ _ : Name, Blob) → α) {l : List (Σ _ : Name, Blob)}
    (hnd : l.NodupKeys) (m : AList fun _ : Name => α) (k : Name) :
    (l.foldl (fun m e => m.insert e.1 (f e)) m).lookup k =
      ((l.dlookup k).map fun b => f ⟨k, b⟩).or (m.lookup k) := by
  induction l generalizing m with
  | nil => rfl
  | cons e rest ih =>
    obtain ⟨hfresh, hrest⟩ := nodupKeys_cons.mp hnd
    rw [foldl_cons, ih hrest]
    by_cases hk : k = e.1
    · subst hk
      rw [dlookup_eq_none.mpr hfresh, AList.lookup_insert]
      rw [dlookup_cons_eq]
      rfl
    · rw [AList.lookup_insert_ne hk]
      rw [dlookup_cons_ne _ _ hk]

/-- The limits of memory: tensors, names and the table of a state. -/
structure Storable (state : Tensors) : Prop where
  blobs : ∀ e ∈ state.entries, e.1.length ≤ maxInt64 ∧ e.2.Allocated
  count_le : state.entries.length ≤ maxInt64

/-- The sharding that is written for an entry. -/
def resolved (specs : Specs) (e : Σ _ : Name, Blob) : ShardSpec :=
  match resolveSpec e.1 e.2 (specs.lookup e.1) with
  | .ok spec => spec
  | .error _ => {}

theorem serializeState_eq (h : serializeState state worldSize specs = .ok data) :
    (∀ e ∈ state.entries, resolveSpec e.1 e.2 (specs.lookup e.1) = .ok (resolved specs e)) ∧
      data = appendPod magic ++ (appendPod version ++ (appendInt64 worldSize ++
        (appendInt64 state.entries.length ++
          state.entries.flatMap fun e => serializeEntry e.1 e.2 (resolved specs e)))) := by
  have hmap : ∀ (l : List (Σ _ : Name, Blob)) (bs : List (List UInt8)),
      (l.mapM fun e => do
        let spec ← resolveSpec e.1 e.2 (specs.lookup e.1)
        pure (serializeEntry e.1 e.2 spec)) = .ok bs →
      (∀ e ∈ l, resolveSpec e.1 e.2 (specs.lookup e.1) = .ok (resolved specs e)) ∧
        bs.flatten = l.flatMap fun e => serializeEntry e.1 e.2 (resolved specs e) := by
    intro l
    induction l with
    | nil =>
      intro bs hbs
      obtain rfl : [] = bs := by simpa using hbs
      exact ⟨by simp, rfl⟩
    | cons e rest ih =>
      intro bs hbs
      rw [mapM_cons] at hbs
      simp only [Throwing.bind_eq_ok, pure_eq_ok] at hbs
      obtain ⟨b, ⟨spec, hspec, rfl⟩, bs', hbs', rfl⟩ := hbs
      obtain ⟨hall, hflat⟩ := ih bs' hbs'
      have hres : resolved specs e = spec := by
        rw [resolved, hspec]
      refine ⟨forall_mem_cons.mpr ⟨by rw [hspec, hres], hall⟩, ?_⟩
      rw [flatten_cons, flatMap_cons, hflat, hres]
  simp only [serializeState, Throwing.bind_eq_ok, pure_eq_ok] at h
  obtain ⟨bs, hbs, rfl⟩ := h
  obtain ⟨hall, hflat⟩ := hmap _ _ hbs
  exact ⟨hall, by rw [hflat]⟩

/-- A file that was saved is read back as it was written. -/
theorem deserializeState_serialize (hstate : Storable state) (hworld : Fits worldSize)
    (h : serializeState state worldSize specs = .ok data) :
    ∃ c, deserializeState data = .ok c ∧ c.worldSize = worldSize ∧ c.version = version ∧
      (∀ name, c.tensors.lookup name = (state.lookup name).map Blob.stored) ∧
      ∀ name, c.shardSpecs.lookup name =
        (state.lookup name).map fun t => (resolved specs ⟨name, t⟩).written := by
  obtain ⟨hspecs, rfl⟩ := serializeState_eq h
  let entries := state.entries.map fun e => (e.1, e.2.stored, (resolved specs e).written)
  have hentries : Reads (readMany (readEntry true) state.entries.length)
      (state.entries.flatMap fun e => serializeEntry e.1 e.2 (resolved specs e)) entries := by
    have hone : ∀ e ∈ state.entries, Reads (readEntry true)
        (serializeEntry e.1 e.2 (resolved specs e)) (e.1, e.2.stored, (resolved specs e).written) := by
      intro e he
      obtain ⟨hname, ht⟩ := hstate.blobs e he
      exact reads_entry hname ht (within_of_resolve (hspecs e he))
    exact reads_manyMap hone
  let c : ShardContents :=
    { tensors := entries.foldl (fun m e => m.insert e.1 e.2.1) ∅
      worldSize := worldSize
      version := version
      shardSpecs := entries.foldl (fun m e => m.insert e.1 e.2.2) ∅ }
  have hread : Reads readState (appendPod magic ++ (appendPod version ++ (appendInt64 worldSize ++
      (appendInt64 state.entries.length ++
        state.entries.flatMap fun e => serializeEntry e.1 e.2 (resolved specs e))))) c := by
    apply (reads_pod truncated magic).bind
    apply Reads.failIf (by simp)
    apply (reads_pod truncated version).bind
    apply Reads.failIf (by simp)
    apply (reads_int64 hworld).bind
    apply (reads_int64 (fits_nat hstate.count_le)).bind
    apply Reads.failIf (by simp)
    exact hentries.map _
  refine ⟨c, ?_, rfl, rfl, ?_, ?_⟩
  · have hrun := hread []
    rw [append_nil] at hrun
    rw [deserializeState, hrun]
    rfl
  · intro name
    simp only [c, entries, foldl_map]
    refine (lookup_foldl_insert (fun e => e.2.stored) state.nodupKeys ∅ name).trans ?_
    simp only [AList.lookup]
    cases List.dlookup name state.entries <;> rfl
  · intro name
    simp only [c, entries, foldl_map]
    refine (lookup_foldl_insert (fun e => (resolved specs e).written) state.nodupKeys ∅ name).trans ?_
    simp only [AList.lookup]
    cases List.dlookup name state.entries <;> rfl

end Tenzor.Checkpoint
