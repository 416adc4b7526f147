import Tenzor.Lite.FormatReads
import Mathlib.Data.Int.Interval

/-!
# Saved models are read back

What `loadFull` and `constants` make of a file that `save` wrote.
-/

namespace Tenzor.Lite

open Throwing Wire Wrap64 List
open UInt32 (ofNat toNat_ofNat_of_lt')
open Prod (fst)

variable {graph : LiteGraph} {opts : WriteOptions}

/-! ## The tensor table -/

/-- The declared type and shape of an input, the default where there is none. -/
def WriteOptions.inputSpec (opts : WriteOptions) (id : Int16) : DType × List Int64 :=
  (opts.inputSpecs.lookup id).getD (.float32, [])

/-- The entries once the inputs `ins`, the weights `ws` and the produced ids
`outs` are added. -/
structure Describes (opts : WriteOptions) (ins : List Int16) (ws : List (Int16 × Weight × ℕ))
    (outs : List Int16) (tvs : List TensorValue) : Prop where
  nodup : (tvs.map TensorValue.tensorId).Nodup
  ids : ∀ id, id ∈ tvs.map TensorValue.tensorId ↔ id ∈ ins ∨ id ∈ ws.map Prod.fst ∨ id ∈ outs
  source : ∀ tv ∈ tvs, tv.source =
    if tv.tensorId ∈ outs then .intermediate
    else if tv.tensorId ∈ ws.map Prod.fst then .weight else .input
  weight : ∀ tv ∈ tvs, ∀ w offset, (tv.tensorId, w, offset) ∈ ws →
    tv.dtype = w.dtype ∧ tv.shape = w.shape ∧ tv.weightOffset = UInt64.ofNat offset ∧
      tv.weightNbytes = UInt64.ofNat w.bytes.length
  input : ∀ tv ∈ tvs, tv.tensorId ∉ ws.map Prod.fst → tv.tensorId ∈ ins →
    (tv.dtype, tv.shape) = opts.inputSpec tv.tensorId
  other : ∀ tv ∈ tvs, tv.tensorId ∉ ws.map Prod.fst → tv.tensorId ∉ ins →
    tv.dtype = .float32 ∧ tv.shape = []

section AddOrUpdate

variable {tvs : List TensorValue} {id : Int16} {src : TensorSource}
  {set : TensorValue → TensorValue}

/-- An entry is untouched, updated or fresh. -/
theorem mem_addOrUpdate {tv : TensorValue} (h : tv ∈ addOrUpdate tvs id src set) :
    (tv ∈ tvs ∧ tv.tensorId ≠ id) ∨
      (∃ old ∈ tvs, old.tensorId = id ∧ tv = set { old with source := src }) ∨
      (id ∉ tvs.map TensorValue.tensorId ∧ tv = set ⟨id, src, .float32, [], 0, 0, 0⟩) := by
  unfold addOrUpdate at h
  split_ifs at h with hknown
  · obtain ⟨old, hold, rfl⟩ := mem_map.mp h
    split_ifs with hid
    · exact .inr (.inl ⟨old, hold, hid, rfl⟩)
    · exact .inl ⟨hold, hid⟩
  · have hnew : id ∉ tvs.map TensorValue.tensorId := by
      simpa using hknown
    rcases mem_append.mp h with hmem | hmem
    · refine .inl ⟨hmem, ?_⟩
      rintro rfl
      exact hnew (mem_map_of_mem hmem)
    · exact .inr (.inr ⟨hnew, mem_singleton.mp hmem⟩)

theorem map_addOrUpdate (hset : ∀ tv, (set tv).tensorId = tv.tensorId) :
    (addOrUpdate tvs id src set).map TensorValue.tensorId =
      if id ∈ tvs.map TensorValue.tensorId then tvs.map TensorValue.tensorId
      else tvs.map TensorValue.tensorId ++ [id] := by
  have hknown : (tvs.any fun tv => tv.tensorId = id) = true ↔ id ∈ tvs.map TensorValue.tensorId := by
    simp
  unfold addOrUpdate
  split_ifs with h h' h'
  · rw [map_map]
    apply map_congr_left
    intro tv _
    simp only [Function.comp_apply]
    split_ifs
    · rw [hset]
    · rfl
  · exact absurd (hknown.mp h) h'
  · exact absurd (hknown.mpr h') h
  · rw [map_append, map_singleton, hset]

theorem mem_map_addOrUpdate (hset : ∀ tv, (set tv).tensorId = tv.tensorId) {j : Int16} :
    j ∈ (addOrUpdate tvs id src set).map TensorValue.tensorId ↔
      j ∈ tvs.map TensorValue.tensorId ∨ j = id := by
  rw [map_addOrUpdate hset]
  split_ifs with h
  · exact ⟨.inl, fun h' => h'.elim (fun h' => h') fun h' => h' ▸ h⟩
  · rw [mem_append, mem_singleton]

theorem nodup_addOrUpdate (hset : ∀ tv, (set tv).tensorId = tv.tensorId)
    (h : (tvs.map TensorValue.tensorId).Nodup) :
    ((addOrUpdate tvs id src set).map TensorValue.tensorId).Nodup := by
  rw [map_addOrUpdate hset]
  split_ifs with hmem
  · exact h
  · rw [nodup_append]
    refine ⟨h, nodup_singleton _, ?_⟩
    rintro a ha b hb rfl
    exact hmem (mem_singleton.mp hb ▸ ha)

end AddOrUpdate

variable {ins outs : List Int16} {ws : List (Int16 × Weight × ℕ)} {tvs : List TensorValue}
  {tv : TensorValue} {id : Int16} {α κ ν : Type} {payload bytes : List UInt8} {p : Reader Exn α}
  {a : α} {entries : List (κ × ν)}

theorem Describes.nil : Describes opts [] [] [] [] :=
  ⟨by simp, by simp, by simp, by simp, by simp, by simp⟩

@[simp] theorem setSpec_tensorId (tv : TensorValue) : (setSpec opts tv).tensorId = tv.tensorId := by
  unfold setSpec
  split <;> rfl

@[simp] theorem setSpec_source (tv : TensorValue) : (setSpec opts tv).source = tv.source := by
  unfold setSpec
  split <;> rfl

theorem setSpec_declares
    (h : (tv.dtype, tv.shape) = (.float32, []) ∨ (tv.dtype, tv.shape) = opts.inputSpec tv.tensorId) :
    ((setSpec opts tv).dtype, (setSpec opts tv).shape) = opts.inputSpec tv.tensorId := by
  unfold setSpec WriteOptions.inputSpec at *
  cases hlookup : opts.inputSpecs.lookup tv.tensorId with
  | none => simpa [hlookup] using h
  | some spec => rfl

theorem Describes.addInput (h : Describes opts ins [] [] tvs) (input : Int16 × ℕ) :
    Describes opts (ins ++ [input.1]) [] [] (Lite.addInput opts tvs input) := by
  have hset : ∀ tv : TensorValue,
      (setSpec opts { tv with inputIndex := ofNat input.2 }).tensorId = tv.tensorId :=
    fun tv => setSpec_tensorId _
  have hentry : ∀ tv ∈ Lite.addInput opts tvs input, tv.source = .input ∧
      (tv.dtype, tv.shape) = opts.inputSpec tv.tensorId := by
    intro tv htv
    have hold : ∀ old ∈ tvs, old.source = .input ∧
        (old.dtype, old.shape) = opts.inputSpec old.tensorId := by
      intro old hold
      have hmem : old.tensorId ∈ ins := by
        simpa using (h.ids old.tensorId).mp (mem_map_of_mem hold)
      exact ⟨by simpa using h.source old hold, h.input old hold (by simp) hmem⟩
    rcases mem_addOrUpdate htv with ⟨hmem, -⟩ | ⟨old, hmem, hid, rfl⟩ | ⟨-, rfl⟩
    · exact hold tv hmem
    · rw [setSpec_source, setSpec_tensorId]
      exact ⟨rfl, setSpec_declares (.inr (hold old hmem).2)⟩
    · rw [setSpec_source, setSpec_tensorId]
      exact ⟨rfl, setSpec_declares (.inl rfl)⟩
  constructor
  · exact nodup_addOrUpdate hset h.nodup
  · intro id
    rw [Lite.addInput, mem_map_addOrUpdate hset, h.ids]
    simp
  · intro tv htv
    simpa using (hentry tv htv).1
  · simp
  · intro tv htv _ _
    exact (hentry tv htv).2
  · intro tv htv _ hnot
    have hmem : tv.tensorId ∈ (Lite.addInput opts tvs input).map TensorValue.tensorId :=
      mem_map_of_mem htv
    rw [Lite.addInput, mem_map_addOrUpdate hset, h.ids] at hmem
    simp at hmem hnot
    tauto

theorem Describes.addWeight (h : Describes opts ins ws [] tvs) {weight : Int16 × Weight × ℕ}
    (hnew : weight.1 ∉ ws.map fst) :
    Describes opts ins (ws ++ [weight]) [] (Lite.addWeight tvs weight) := by
  obtain ⟨id, w, offset⟩ := weight
  have hset : ∀ tv : TensorValue,
      ({ tv with
        dtype := w.dtype
        shape := w.shape
        weightOffset := UInt64.ofNat offset
        weightNbytes := UInt64.ofNat w.bytes.length } : TensorValue).tensorId = tv.tensorId :=
    fun _ => rfl
  have hids : ∀ j, j ∈ (Lite.addWeight tvs (id, w, offset)).map TensorValue.tensorId ↔
      j ∈ tvs.map TensorValue.tensorId ∨ j = id := fun j => mem_map_addOrUpdate hset
  -- An entry is an old one of another id, or the new weight.
  have hentry : ∀ tv ∈ Lite.addWeight tvs (id, w, offset), (tv ∈ tvs ∧ tv.tensorId ≠ id) ∨
      (tv.tensorId = id ∧ tv.source = .weight ∧ tv.dtype = w.dtype ∧ tv.shape = w.shape ∧
        tv.weightOffset = UInt64.ofNat offset ∧
        tv.weightNbytes = UInt64.ofNat w.bytes.length) := by
    intro tv htv
    rcases mem_addOrUpdate htv with hmem | ⟨old, hmem, hid, rfl⟩ | ⟨-, rfl⟩
    · exact .inl hmem
    · exact .inr ⟨hid, rfl, rfl, rfl, rfl, rfl⟩
    · exact .inr ⟨rfl, rfl, rfl, rfl, rfl, rfl⟩
  constructor
  · exact nodup_addOrUpdate hset h.nodup
  · intro j
    rw [hids, h.ids]
    simp only [map_append, map_singleton, mem_append, mem_singleton]
    tauto
  · intro tv htv
    rcases hentry tv htv with ⟨hmem, hne⟩ | ⟨hid, hsource, -⟩
    · have hiff : tv.tensorId ∈ (ws ++ [(id, w, offset)]).map fst ↔
          tv.tensorId ∈ ws.map fst := by
        simp [hne]
      rw [h.source tv hmem]
      simp only [hiff]
    · simp [hid, hsource]
  · intro tv htv w' offset' hmem'
    rw [mem_append, mem_singleton] at hmem'
    rcases hentry tv htv with ⟨hmem, hne⟩ | ⟨hid, -, hrest⟩
    · rcases hmem' with hmem' | heq
      · exact h.weight tv hmem w' offset' hmem'
      · exact absurd (Prod.mk.inj heq).1 hne
    · rcases hmem' with hmem' | heq
      · have hknown : tv.tensorId ∈ ws.map fst := mem_map_of_mem hmem'
        exact absurd (hid ▸ hknown) hnew
      · obtain ⟨-, heq⟩ := Prod.mk.inj heq
        obtain ⟨rfl, rfl⟩ := Prod.mk.inj heq
        exact hrest
  · intro tv htv hnot hin
    rw [map_append, mem_append, not_or] at hnot
    rcases hentry tv htv with ⟨hmem, -⟩ | ⟨hid, -⟩
    · exact h.input tv hmem hnot.1 hin
    · exact absurd (by simp [hid]) hnot.2
  · intro tv htv hnot hin
    rw [map_append, mem_append, not_or] at hnot
    rcases hentry tv htv with ⟨hmem, -⟩ | ⟨hid, -⟩
    · exact h.other tv hmem hnot.1 hin
    · exact absurd (by simp [hid]) hnot.2

theorem Describes.addIntermediate (h : Describes opts ins ws outs tvs) (id : Int16) :
    Describes opts ins ws (outs ++ [id]) (Lite.addIntermediate tvs id) := by
  have hids : ∀ j, j ∈ (Lite.addIntermediate tvs id).map TensorValue.tensorId ↔
      j ∈ tvs.map TensorValue.tensorId ∨ j = id := fun j => mem_map_addOrUpdate fun _ => rfl
  -- What the source is overwritten in keeps its other fields.
  have hentry : ∀ tv ∈ Lite.addIntermediate tvs id,
      (∃ old ∈ tvs, tv.tensorId = old.tensorId ∧ tv.dtype = old.dtype ∧ tv.shape = old.shape ∧
        tv.weightOffset = old.weightOffset ∧ tv.weightNbytes = old.weightNbytes ∧
        tv.source = if tv.tensorId = id then .intermediate else old.source) ∨
      (tv.tensorId = id ∧ id ∉ tvs.map TensorValue.tensorId ∧ tv.source = .intermediate ∧
        tv.dtype = .float32 ∧ tv.shape = []) := by
    intro tv htv
    rcases mem_addOrUpdate htv with ⟨hmem, hne⟩ | ⟨old, hmem, hid, rfl⟩ | ⟨hnew, rfl⟩
    · exact .inl ⟨tv, hmem, rfl, rfl, rfl, rfl, rfl, by rw [if_neg hne]⟩
    · exact .inl ⟨old, hmem, rfl, rfl, rfl, rfl, rfl, by rw [if_pos hid]⟩
    · exact .inr ⟨rfl, hnew, rfl, rfl, rfl⟩
  constructor
  · exact nodup_addOrUpdate (fun _ => rfl) h.nodup
  · intro j
    rw [hids, h.ids]
    simp only [mem_append, mem_singleton]
    tauto
  · intro tv htv
    rcases hentry tv htv with ⟨old, hmem, hid, -, -, -, -, hsource⟩ | ⟨hid, -, hsource, -⟩
    · rw [hsource, h.source old hmem, hid]
      split_ifs <;> simp_all
    · simp [hsource, hid]
  · intro tv htv w offset hmem'
    rcases hentry tv htv with ⟨old, hmem, hid, hdtype, hshape, hoffset, hbytes, -⟩ | ⟨hid, hnew, -⟩
    · rw [hdtype, hshape, hoffset, hbytes]
      exact h.weight old hmem w offset (hid ▸ hmem')
    · have hknown : tv.tensorId ∈ ws.map fst := mem_map_of_mem hmem'
      rw [hid] at hknown
      exact absurd ((h.ids id).mpr (.inr (.inl hknown))) hnew
  · intro tv htv hnot hin
    rcases hentry tv htv with ⟨old, hmem, hid, hdtype, hshape, -⟩ | ⟨hid, hnew, -⟩
    · rw [hdtype, hshape, hid]
      exact h.input old hmem (hid ▸ hnot) (hid ▸ hin)
    · exact absurd ((h.ids id).mpr (.inl (hid ▸ hin))) hnew
  · intro tv htv hnot hin
    rcases hentry tv htv with ⟨old, hmem, hid, hdtype, hshape, -⟩ | ⟨-, -, -, hdefault⟩
    · rw [hdtype, hshape]
      exact h.other old hmem (hid ▸ hnot) (hid ▸ hin)
    · exact hdefault

variable {w : Weight}

/-- Every weight has its bytes at its place in the payload. -/
theorem mem_locateWeights {l : List (Int16 × Weight)} {start : ℕ} {offset : ℕ}
    (h : (id, w, offset) ∈ locateWeights start l) :
    (id, w) ∈ l ∧ ∃ before after, l.flatMap (fun w => w.2.bytes) = before ++ (w.bytes ++ after) ∧
      offset = start + before.length := by
  induction l generalizing start with
  | nil => simp [locateWeights] at h
  | cons first rest ih =>
    obtain ⟨firstId, firstWeight⟩ := first
    rw [locateWeights, mem_cons] at h
    rcases h with heq | h
    · obtain ⟨rfl, hrest⟩ := Prod.mk.inj heq
      obtain ⟨rfl, rfl⟩ := Prod.mk.inj hrest
      exact ⟨mem_cons_self, [], rest.flatMap fun w => w.2.bytes, rfl, rfl⟩
    · obtain ⟨hmem, before, after, hbytes, rfl⟩ := ih h
      refine ⟨mem_cons_of_mem _ hmem, firstWeight.bytes ++ before, after, ?_, ?_⟩
      · rw [flatMap_cons, hbytes, append_assoc]
      · rw [length_append]
        omega

theorem map_locateWeights (l : List (Int16 × Weight)) (start : ℕ) :
    (locateWeights start l).map (fun w => (w.1, w.2.1)) = l := by
  induction l generalizing start with
  | nil => rfl
  | cons first rest ih => rw [locateWeights, map_cons, ih]

theorem map_fst_locateWeights (l : List (Int16 × Weight)) (start : ℕ) :
    (locateWeights start l).map fst = l.map fst := by
  have h := congrArg (List.map fst) (map_locateWeights l start)
  rwa [map_map] at h

theorem mem_sortedWeights {weight : Int16 × Weight} :
    weight ∈ opts.sortedWeights ↔ weight ∈ opts.weights := mem_insertionSort _

theorem mem_map_sortedWeights :
    id ∈ opts.sortedWeights.map fst ↔ id ∈ opts.weights.map fst :=
  ((perm_insertionSort _ opts.weights).map fst).mem_iff

theorem sortedWeights_nodup (opts : WriteOptions) : (opts.sortedWeights.map fst).Nodup :=
  ((perm_insertionSort _ opts.weights).map fst).nodup_iff.mpr opts.weights_nodup

/-- The entries hold every id with its last source and its declared type. -/
theorem describes_tensorEntries (graph : LiteGraph) (opts : WriteOptions) :
    Describes opts opts.inputIds (locateWeights 0 opts.sortedWeights) (producedIds graph opts)
      (tensorEntries graph opts) := by
  have hinputs : ∀ (l : List (Int16 × ℕ)) ins tvs, Describes opts ins [] [] tvs →
      Describes opts (ins ++ l.map fst) [] [] (l.foldl (addInput opts) tvs) := by
    intro l
    induction l with
    | nil => simp
    | cons input rest ih =>
      intro ins tvs h
      have hrest := ih _ _ (h.addInput input)
      simpa using hrest
  have hweights : ∀ (l : List (Int16 × Weight × ℕ)) ws ins tvs, Describes opts ins ws [] tvs →
      ((ws ++ l).map fst).Nodup →
      Describes opts ins (ws ++ l) [] (l.foldl addWeight tvs) := by
    intro l
    induction l with
    | nil =>
      intro ws ins tvs h _
      simpa using h
    | cons weight rest ih =>
      intro ws ins tvs h hnodup
      have hnew : weight.1 ∉ ws.map fst := by
        rw [map_append, nodup_append] at hnodup
        intro hmem
        exact hnodup.2.2 weight.1 hmem weight.1 mem_cons_self rfl
      have hrest := ih _ _ _ (h.addWeight hnew) (by simpa using hnodup)
      simpa using hrest
  have hproduced : ∀ (l : List Int16) outs ins ws tvs, Describes opts ins ws outs tvs →
      Describes opts ins ws (outs ++ l) (l.foldl addIntermediate tvs) := by
    intro l
    induction l with
    | nil => simp
    | cons id rest ih =>
      intro outs ins ws tvs h
      have hrest := ih _ _ _ _ (h.addIntermediate id)
      simpa using hrest
  have h₁ := hinputs opts.inputIds.zipIdx [] [] Describes.nil
  rw [zipIdx_map_fst] at h₁
  have h₂ := hweights (locateWeights 0 opts.sortedWeights) [] _ _ h₁
    (by simpa [map_fst_locateWeights] using sortedWeights_nodup opts)
  have h₃ := hproduced (producedIds graph opts) [] _ _ _ h₂
  rwa [nil_append] at h₃

/-! ## The sections -/

theorem parse_of_reads (h : Reads p payload a) : parse p payload = .ok a := by
  have hread := h []
  rw [append_nil] at hread
  rw [parse, hread]
  rfl

variable {m m' : LoadedModel}

theorem reads_section {sec : UInt32 × List UInt8} (hlen : sec.2.length < 18446744073709551616)
    (h : applySection m sec.1 sec.2 = .ok m') : Reads (readSection m) (writeSection sec) m' := by
  have hsize : (UInt64.ofNat sec.2.length).toNat = sec.2.length := UInt64.toNat_ofNat_of_lt' hlen
  have happly : Reads (fun s => do
      let m ← applySection m sec.1 sec.2
      pure (m, s) : Reader Exn LoadedModel) [] m' := by
    intro rest
    rw [h]
    rfl
  apply (reads_pod eof sec.1).bind
  apply (reads_pod eof (UInt64.ofNat sec.2.length)).bind
  rw [hsize]
  apply Reads.checkCount Nat.one_pos (by rw [Nat.mul_one])
  have hread := (reads_bytes eof sec.2).bind (k := fun payload => (fun s => do
      let m ← applySection m sec.1 payload
      pure (m, s) : Reader Exn LoadedModel)) happly
  rwa [append_nil] at hread

theorem reads_sections {secs : List (UInt32 × List UInt8)}
    (hlen : ∀ sec ∈ secs, sec.2.length < 18446744073709551616)
    (h : secs.foldlM (fun m sec => applySection m sec.1 sec.2) m = .ok m') :
    Reads (readSections m secs.length) (secs.flatMap writeSection) m' := by
  induction secs generalizing m with
  | nil =>
    obtain rfl : m = m' := by simpa using h
    exact Reads.pure m
  | cons sec rest ih =>
    obtain ⟨hsec, hrest⟩ := forall_mem_cons.mp hlen
    obtain ⟨m₁, hm₁, hm'⟩ := foldlM_cons_eq_ok.mp h
    exact (reads_section hsec hm₁).bind (ih hrest hm')

/-- Everything that is counted fits its field, and every id that indexes a
table is no negative one. -/
structure Encodable (graph : LiteGraph) (opts : WriteOptions) : Prop where
  nodes : graph.nodes.length < 4294967296
  extras : ∀ node ∈ graph.nodes, node.ExtrasFit
  inputs : opts.inputIds.length < 4294967296
  outputs : opts.outputIds.length < 4294967296
  entries : ∀ tv ∈ tensorEntries graph opts, 0 ≤ tv.tensorId.toInt ∧ tv.shape.length < 256
  metadata : opts.metadata.length < 4294967296
  texts : ∀ kv ∈ opts.metadata, EntryFits kv
  plan : ∀ plan ∈ opts.memoryPlan, plan.Fits

/-- What `loadFull` returns for a saved model. -/
def loadedModel (graph : LiteGraph) (opts : WriteOptions) : LoadedModel where
  graph := ⟨graph.nodes, opts.inputIds, opts.outputIds⟩
  tensorValues := (tensorTable graph opts).map TensorValue.loaded
  weightBlob := opts.wgtsPayload
  inputIds := opts.inputIds
  outputIds := opts.outputIds
  metadata := opts.metadata
  memoryPlan := opts.memoryPlan.map MmplPlan.loaded

/-- A list of distinct ids is no longer than there are ids. -/
theorem length_le_of_nodup {ids : List Int16} (h : ids.Nodup) : ids.length ≤ 65536 := by
  have hints : (ids.map Int16.toInt).Nodup := h.map fun a b => Int16.toInt_inj.mp
  have hsub : (ids.map Int16.toInt).toFinset ⊆ Finset.Icc (-32768) 32767 := by
    intro i hi
    obtain ⟨id, -, rfl⟩ := mem_map.mp (mem_toFinset.mp hi)
    have hlt : id.toInt < 32768 := id.toInt_lt
    exact Finset.mem_Icc.mpr ⟨id.le_toInt, Int.le_of_lt_add_one hlt⟩
  have hcard := Finset.card_le_card hsub
  rw [toFinset_card_of_nodup hints] at hcard
  simpa using hcard

theorem tensorTable_perm (graph : LiteGraph) (opts : WriteOptions) :
    (tensorTable graph opts).Perm (tensorEntries graph opts) := perm_insertionSort _ _

theorem mem_tensorTable : tv ∈ tensorTable graph opts ↔ tv ∈ tensorEntries graph opts :=
  (tensorTable_perm graph opts).mem_iff

theorem tensorTable_nodup (graph : LiteGraph) (opts : WriteOptions) :
    ((tensorTable graph opts).map TensorValue.tensorId).Nodup :=
  ((tensorTable_perm graph opts).map _).nodup_iff.mpr (describes_tensorEntries graph opts).nodup

/-- An id that has a role has an entry. -/
theorem exists_entry (graph : LiteGraph)
    (h : id ∈ opts.inputIds ∨ id ∈ opts.weights.map fst ∨ id ∈ producedIds graph opts) :
    ∃ tv ∈ tensorEntries graph opts, tv.tensorId = id := by
  have hids := (describes_tensorEntries graph opts).ids id
  rw [map_fst_locateWeights, mem_map_sortedWeights] at hids
  exact mem_map.mp (hids.mpr h)

theorem Encodable.nonneg (h : Encodable graph opts)
    (hid : id ∈ opts.inputIds ∨ id ∈ opts.weights.map fst ∨ id ∈ producedIds graph opts) :
    0 ≤ id.toInt := by
  obtain ⟨tv, htv, rfl⟩ := exists_entry graph hid
  exact (h.entries tv htv).1

theorem parse_tval (h : Encodable graph opts) :
    parse parseTvalPayload (buildTvalPayload (tensorTable graph opts)) =
      .ok ((tensorTable graph opts).map TensorValue.loaded) := by
  have hlen := length_le_of_nodup (tensorTable_nodup graph opts)
  rw [length_map] at hlen
  have hcount : ((tensorTable graph opts).map TensorValue.loaded).length < 4294967296 := by
    rw [length_map]
    omega
  -- The entries of the payload, one for each value that is read back.
  have hentries : ∀ tvs : List TensorValue, (∀ tv ∈ tvs, tv ∈ tensorEntries graph opts) →
      Reads (readMany readTvalEntry tvs.length) (tvs.flatMap tvalEntry)
        (tvs.map TensorValue.loaded) := by
    intro tvs
    induction tvs with
    | nil => exact fun _ => Reads.pure []
    | cons tv rest ih =>
      intro hmem
      obtain ⟨htv, hrest⟩ := forall_mem_cons.mp hmem
      have hlegal := h.entries tv htv
      exact (reads_tvalEntry hlegal.1 hlegal.2).bind ((ih hrest).map (tv.loaded :: ·))
  apply parse_of_reads
  apply (reads_pod eof (ofNat (tensorTable graph opts).length)).bind
  have htoNat : (ofNat (tensorTable graph opts).length).toNat =
      (tensorTable graph opts).length := toNat_ofNat_of_lt' (by
        rw [length_map] at hcount
        exact hcount)
  rw [show Pod.toNat (ofNat (tensorTable graph opts).length) =
    (tensorTable graph opts).length from htoNat]
  apply Reads.checkCount (by decide) (le_length_flatMap fun tv _ => le_length_tvalEntry tv)
  exact hentries _ fun tv htv => mem_tensorTable.mp htv

/-- The sections set the parts of the model one after the other. -/
theorem apply_sections (h : Encodable graph opts) :
    (sections graph opts).foldlM (fun m sec => applySection m sec.1 sec.2)
        ⟨⟨graph.nodes, [], []⟩, [], [], [], [], [], none⟩ =
      .ok { loadedModel graph opts with graph := ⟨graph.nodes, [], []⟩ } := by
  have htval : ∀ m : LoadedModel,
      applySection m tagTval (buildTvalPayload (tensorTable graph opts)) =
        .ok { m with tensorValues := (tensorTable graph opts).map TensorValue.loaded } := by
    intro m
    rw [applySection, parse_tval h]
    rfl
  have hwgts : ∀ m : LoadedModel, m.weightBlob = [] →
      (if opts.wgtsPayload = [] then [] else [(tagWgts, opts.wgtsPayload)]).foldlM
        (fun m sec => applySection m sec.1 sec.2) m =
          .ok { m with weightBlob := opts.wgtsPayload } := by
    intro m hm
    split_ifs with hempty
    · rw [hempty, ← hm]
      rfl
    · rfl
  have hiosp : ∀ m : LoadedModel, m.inputIds = [] → m.outputIds = [] →
      (if opts.inputIds = [] ∧ opts.outputIds = [] then []
        else [(tagIosp, buildIospPayload opts.inputIds opts.outputIds)]).foldlM
          (fun m sec => applySection m sec.1 sec.2) m =
            .ok { m with inputIds := opts.inputIds, outputIds := opts.outputIds } := by
    intro m hins houts
    split_ifs with hempty
    · cases m
      simp_all
    · have hread := parse_of_reads (reads_iosp
        (fun id hid => h.nonneg (.inl hid))
        (fun id hid => h.nonneg (.inr (.inr (mem_append_left _ hid)))) h.inputs h.outputs)
      rw [foldlM_cons]
      simp only [applySection, hread]
      rfl
  have hmeta : ∀ m : LoadedModel, m.metadata = [] →
      (if opts.metadata = [] then [] else [(tagMeta, buildMetaPayload opts.metadata)]).foldlM
        (fun m sec => applySection m sec.1 sec.2) m = .ok { m with metadata := opts.metadata } := by
    intro m hm
    split_ifs with hempty
    · rw [hempty, ← hm]
      rfl
    · have hread := parse_of_reads (reads_meta opts.metadata_nodup h.metadata h.texts)
      rw [foldlM_cons]
      simp only [applySection, hread]
      rfl
  have hmmpl : ∀ m : LoadedModel, m.memoryPlan = none →
      (opts.memoryPlan.toList.map fun plan => (tagMmpl, buildMmplPayload plan)).foldlM
        (fun m sec => applySection m sec.1 sec.2) m =
          .ok { m with memoryPlan := opts.memoryPlan.map MmplPlan.loaded } := by
    intro m hm
    cases hplan : opts.memoryPlan with
    | none =>
      cases m
      simp_all
    | some plan =>
      have hread := parse_of_reads
        (reads_mmpl (opts.plan_words plan hplan) (h.plan plan hplan))
      rw [Option.toList_some, map_singleton, foldlM_cons]
      simp only [applySection, hread]
      rfl
  rw [sections, foldlM_append, Throwing.bind_eq_ok]
  refine ⟨_, foldlM_cons_eq_ok.mpr ⟨_, htval _, rfl⟩, ?_⟩
  rw [foldlM_append, Throwing.bind_eq_ok]
  refine ⟨_, hwgts _ rfl, ?_⟩
  rw [foldlM_append, Throwing.bind_eq_ok]
  refine ⟨_, hiosp _ rfl rfl, ?_⟩
  rw [foldlM_append, Throwing.bind_eq_ok]
  refine ⟨_, hmeta _ rfl, ?_⟩
  exact hmmpl _ rfl

theorem length_writeHeader (header : TZLiteHeader) : (writeHeader header).length = 24 := by
  simp [writeHeader, Pod.width]

theorem reads_header (header : TZLiteHeader) : Reads readHeader (writeHeader header) header := by
  apply (reads_pod eof header.magic).bind
  apply (reads_pod eof header.version).bind
  apply (reads_pod eof header.numNodes).bind
  apply (reads_pod eof header.numWeights).bind
  exact (reads_pod eof header.weightDataOffset).map fun offset =>
    (⟨header.magic, header.version, header.numNodes, header.numWeights, offset⟩ : TZLiteHeader)

theorem mem_serialise {version : UInt32} {nodeBytes : List UInt8}
    (h : serialiseNodeTable graph version = .ok nodeBytes) :
    nodeBytes = graph.nodes.flatMap (serialiseNode version) ∧
      ∀ node ∈ graph.nodes, node.inputIds.length ≤ 65535 ∧ node.outputIds.length ≤ 65535 := by
  simp only [serialiseNodeTable, Throwing.bind_eq_ok, throwIf_eq_ok, exists_const, pure_eq_ok]
    at h
  obtain ⟨-, harity, rfl⟩ := h
  refine ⟨rfl, fun node hnode => ?_⟩
  have hfit : ¬ (node.inputIds.length > 65535 ∨ node.outputIds.length > 65535) :=
    fun hbig => harity ⟨node, hnode, hbig⟩
  omega

@[simp] theorem handedIds_nil (ids : List Int16) : handedIds ids [] = ids := by
  unfold handedIds
  split_ifs with h
  · exact h.symm
  · rfl

theorem handOver_loadedModel (graph : LiteGraph) (opts : WriteOptions) :
    LoadedModel.handOver { loadedModel graph opts with graph := ⟨graph.nodes, [], []⟩ } =
      loadedModel graph opts := by
  simp only [LoadedModel.handOver, loadedModel, handedIds_nil]

theorem length_writeSection (sec : UInt32 × List UInt8) :
    (writeSection sec).length = 12 + sec.2.length := by
  simp only [writeSection, length_append, length_appendPod, Pod.width]
  omega

/-- The size of a section fits its field. -/
theorem section_lt (hsave : save graph opts = .ok bytes) :
    ∀ sec ∈ sections graph opts, sec.2.length < 18446744073709551616 := by
  intro sec hsec
  simp only [save, Throwing.bind_eq_ok, throwIf_eq_ok, exists_const, pure_eq_ok] at hsave
  obtain ⟨nodeBytes, -, hsize, -⟩ := hsave
  have hle : (writeSection sec).length ≤ ((sections graph opts).flatMap writeSection).length :=
    (sublist_flatten_of_mem (mem_map_of_mem hsec)).length_le
  rw [length_writeSection] at hle
  simp only [length_append, int64Max] at hsize
  omega

theorem wgtsPayload_lt (hsave : save graph opts = .ok bytes) :
    opts.wgtsPayload.length < 18446744073709551616 := by
  by_cases hempty : opts.wgtsPayload = []
  · simp [hempty]
  · exact section_lt hsave (tagWgts, opts.wgtsPayload) (by simp [sections, hempty])

/-- What was saved, with counts that fit, is loaded. -/
theorem loadFull_save (hsave : save graph opts = .ok bytes) (h : Encodable graph opts) :
    loadFull bytes = .ok (loadedModel graph opts) := by
  have hsecLength := section_lt hsave
  simp only [save, Throwing.bind_eq_ok, throwIf_eq_ok, exists_const, pure_eq_ok] at hsave
  obtain ⟨nodeBytes, hnodes, hsize, rfl⟩ := hsave
  obtain ⟨rfl, harity⟩ := mem_serialise hnodes
  set tlv := appendPod (ofNat (sections graph opts).length) ++
    (sections graph opts).flatMap writeSection with htlv
  set nodeBytes := graph.nodes.flatMap (serialiseNode tzliteVersion) with hnodeBytes
  set header : TZLiteHeader := ⟨tzliteMagic, tzliteVersion, ofNat graph.nodes.length,
    ofNat opts.weights.length, UInt64.ofNat (24 + nodeBytes.length)⟩ with hheader
  simp only [length_append, length_writeHeader, int64Max] at hsize
  have htlvLength : 4 ≤ tlv.length := by
    rw [length_append]
    exact Nat.le_add_right 4 _
  have hcount : (sections graph opts).length ≤ 5 := by
    simp only [sections, length_append, length_map]
    split_ifs <;> cases opts.memoryPlan <;> simp
  have htable : parse (readSectionTable ⟨⟨graph.nodes, [], []⟩, [], [], [], [], [], none⟩) tlv =
      .ok { loadedModel graph opts with graph := ⟨graph.nodes, [], []⟩ } := by
    have htoNat : (ofNat (sections graph opts).length).toNat =
        (sections graph opts).length := toNat_ofNat_of_lt' (by
          have hlt : (sections graph opts).length < 4294967296 := by omega
          exact hlt)
    apply parse_of_reads
    apply (reads_pod eof (ofNat (sections graph opts).length)).bind
    rw [htoNat]
    apply Reads.checkCount (by decide) (le_length_flatMap fun sec _ => ?_)
    · exact reads_sections hsecLength (apply_sections h)
    · rw [length_writeSection]
      exact Nat.le_add_right 12 _
  have hnodesRead : readMany (readNode tzliteVersion) graph.nodes.length (nodeBytes ++ tlv) =
      .ok (graph.nodes, tlv) :=
    reads_many (fun node hnode => reads_node (harity node hnode) (h.extras node hnode)) tlv
  have hnumNodes : (ofNat graph.nodes.length).toNat = graph.nodes.length :=
    toNat_ofNat_of_lt' h.nodes
  have hoffset : (UInt64.ofNat (24 + nodeBytes.length)).toNat = 24 + nodeBytes.length :=
    UInt64.toNat_ofNat_of_lt' (by
      have hlt : 24 + nodeBytes.length < 18446744073709551616 := by omega
      exact hlt)
  have hdrop : (writeHeader header ++ (nodeBytes ++ tlv)).drop (24 + nodeBytes.length) = tlv := by
    rw [← append_assoc, drop_left']
    rw [length_append, length_writeHeader]
  have hlength : (writeHeader header ++ (nodeBytes ++ tlv)).length =
      24 + nodeBytes.length + tlv.length := by
    simp only [length_append, length_writeHeader]
    omega
  simp only [loadFull, Throwing.bind_eq_ok, throwIf_eq_ok, exists_const, Prod.exists]
  refine ⟨by omega, header, nodeBytes ++ tlv, reads_header header _, by simp [header], ?_,
    graph.nodes, tlv, ?_, ?_⟩
  · simp only [header]
    decide
  · rw [hnumNodes]
    exact hnodesRead
  · rw [if_pos (by rw [hoffset]; omega), hoffset, hdrop, htable]
    simp only [Throwing.bind_eq_ok, throwIf_eq_ok, exists_const, pure_eq_ok]
    exact ⟨by omega, _, rfl, handOver_loadedModel graph opts⟩

def Weight.constant (w : Weight) : Constant := ⟨dtypeCode w.dtype, w.shape, w.bytes⟩

theorem sizeOfCode_dtypeCode (dt : DType) : sizeOfCode (dtypeCode dt) = dtypeSize dt := by
  cases dt <;> decide

/-- The element counts of the tensor, of the runtime and of the blob agree. -/
theorem numel_agrees {shape : List Int64} {r n : Int} (err : String → Exn)
    (hdims : ∀ d ∈ shape, 0 ≤ d.toInt) (hr : 0 ≤ r)
    (h : (shape.map Int64.toInt).foldlM numelStep r = .ok n) :
    0 ≤ n ∧ checkedNumel err shape r.toNat = .ok n.toNat ∧ shape.foldlM fromBlobStep r = .ok n := by
  induction shape generalizing r with
  | nil =>
    obtain rfl : r = n := by simpa using h
    exact ⟨hr, rfl, rfl⟩
  | cons d rest ih =>
    obtain ⟨hd, hrest⟩ := forall_mem_cons.mp hdims
    obtain ⟨x, hx, hfold⟩ := foldlM_cons_eq_ok.mp h
    obtain ⟨hxmul, hle⟩ := numelStep_eq_ok hx
    have hx0 : 0 ≤ x := hxmul ▸ Int.mul_nonneg hr hd
    have hnat : r.toNat * d.toInt.toNat = x.toNat := by
      rw [hxmul, Int.toNat_mul hr hd]
    obtain ⟨hn, hnumel, hblob⟩ := ih hrest hx0 hfold
    refine ⟨hn, ?_, ?_⟩
    · rw [checkedNumel, throwIf, if_neg (by omega), throwIf, if_neg]
      · rw [hnat]
        exact hnumel
      · rw [numel_overflows, uint64Max]
        simp only [int64Max] at hle
        omega
    · refine foldlM_cons_eq_ok.mpr ⟨x, ?_, hblob⟩
      unfold numelStep at hx
      split_ifs at hx with hguard
      simp only [fromBlobStep, Throwing.bind_eq_ok, throwIf_eq_ok, exists_const, pure_eq_ok]
      exact ⟨by omega, hguard, Except.ok.inj hx⟩

/-- The entry of a weight gives its tensor. -/
theorem constantOf_weight {before after : List UInt8} (hdtype : tv.dtype = w.dtype)
    (hshape : tv.shape = w.shape) (hoffset : tv.weightOffset = UInt64.ofNat before.length)
    (hnbytes : tv.weightNbytes = UInt64.ofNat w.bytes.length)
    (hsize : (before ++ (w.bytes ++ after)).length < 18446744073709551616) :
    constantOf (before ++ (w.bytes ++ after)) tv.loaded = .ok (tv.tensorId, w.constant) := by
  obtain ⟨strides, hstrides⟩ := w.strides_ok
  obtain ⟨n, hn, hbytes⟩ := w.bytes_ok
  have hlength : (before ++ (w.bytes ++ after)).length =
      before.length + (w.bytes.length + after.length) := by
    simp only [length_append]
  obtain ⟨hn0, hnumel, hblob⟩ :=
    numel_agrees (weightError tv.tensorId) w.dims_nonneg Int.one_nonneg hn
  have hoff : tv.weightOffset.toNat = before.length := by
    rw [hoffset]
    exact UInt64.toNat_ofNat_of_lt' (by rw [UInt64.size]; omega)
  have hlen : tv.weightNbytes.toNat = w.bytes.length := by
    rw [hnbytes]
    exact UInt64.toNat_ofNat_of_lt' (by rw [UInt64.size]; omega)
  have helem := dtypeSize_pos w.dtype
  have hmax : n.toNat ≤ uint64Max / dtypeSize w.dtype := by
    rw [Nat.le_div_iff_mul_le helem, uint64Max]
    omega
  have hcut : ((before ++ (w.bytes ++ after)).drop before.length).take w.bytes.length = w.bytes := by
    rw [drop_left, take_left]
  have hfrom : fromBlob w.bytes w.shape (dtypeCode w.dtype) = .ok w.constant := by
    simp only [fromBlob, Throwing.bind_eq_ok, throwIf_eq_ok, exists_const, pure_eq_ok,
      sizeOfCode_dtypeCode]
    exact ⟨strides, hstrides, n, hblob, by omega, rfl⟩
  simp only [constantOf, TensorValue.loaded, hdtype, hshape, hoff, hlen, sizeOfCode_dtypeCode,
    Throwing.bind_eq_ok, throwIf_eq_ok, exists_const, pure_eq_ok, hcut]
  refine ⟨by omega, helem.ne', n.toNat, hnumel, by omega, ?_, _, hfrom, rfl⟩
  rw [hbytes, not_not]

/-- The table by id has exactly the weights of the list. -/
theorem indexTensorValues_weights {tvs : List LoadedValue}
    (hnodup : (tvs.map LoadedValue.tensorId).Nodup) (hnonneg : ∀ tv ∈ tvs, 0 ≤ tv.tensorId.toInt) :
    ∃ table, indexTensorValues tvs = .ok table ∧
      ∀ tv : LoadedValue, tv.source = sourceCode .weight → (tv ∈ table ↔ tv ∈ tvs) := by
  have hmax : ∀ (l : List LoadedValue) (hi : Int),
      hi ≤ l.foldl (fun hi tv => max hi tv.tensorId.toInt) hi ∧
        ∀ tv ∈ l, tv.tensorId.toInt ≤ l.foldl (fun hi tv => max hi tv.tensorId.toInt) hi := by
    intro l
    induction l with
    | nil => exact fun hi => ⟨le_rfl, by simp⟩
    | cons tv rest ih =>
      intro hi
      obtain ⟨hle, hrest⟩ := ih (max hi tv.tensorId.toInt)
      refine ⟨(le_max_left _ _).trans hle, forall_mem_cons.mpr ⟨?_, hrest⟩⟩
      exact (le_max_right _ _).trans hle
  have hchecks : tvs.forM (fun tv => throwIf (tv.tensorId.toInt < 0) (.runtimeError
      ("LiteRuntime: negative tensor_id (" ++ toString tv.tensorId ++ ") in model"))) =
        (.ok () : Except Exn Unit) :=
    forM_eq_ok.mpr fun tv htv => throwIf_eq_ok.mpr (not_lt.mpr (hnonneg tv htv))
  refine ⟨_, by rw [indexTensorValues, hchecks]; rfl, ?_⟩
  intro tv hsource
  rw [mem_map]
  constructor
  · rintro ⟨i, -, heq⟩
    cases hfind : tvs.reverse.find? fun tv => tv.tensorId = Int16.ofNat i with
    | none =>
      rw [hfind] at heq
      rw [← heq] at hsource
      have hcode : sourceCode .intermediate ≠ sourceCode .weight := by decide
      exact absurd hsource hcode
    | some found =>
      rw [hfind] at heq
      rw [← heq]
      exact mem_reverse.mp (mem_of_find?_eq_some hfind)
  · intro htv
    have hid : Int16.ofNat tv.tensorId.toInt.toNat = tv.tensorId := by
      rw [← Int16.ofInt_eq_ofNat, Int.toNat_of_nonneg (hnonneg tv htv), Int16.ofInt_toInt]
    refine ⟨tv.tensorId.toInt.toNat, ?_, ?_⟩
    · rw [mem_range]
      have hle := (hmax tvs (-1)).2 tv htv
      have h0 := hnonneg tv htv
      omega
    · rw [hid]
      cases hfind : tvs.reverse.find? fun t => t.tensorId = tv.tensorId with
      | none =>
        rw [find?_eq_none] at hfind
        exact absurd (hfind tv (mem_reverse.mpr htv)) (by simp)
      | some found =>
        have hkey : found.tensorId = tv.tensorId := by simpa using find?_some hfind
        have hmem : found ∈ tvs := mem_reverse.mp (mem_of_find?_eq_some hfind)
        exact inj_on_of_nodup_map hnodup hmem htv hkey

/-- The weight of an id, in the options and in the payload. -/
theorem exists_located (h : (id, w) ∈ opts.weights) :
    ∃ offset, (id, w, offset) ∈ locateWeights 0 opts.sortedWeights := by
  have hlocated : (id, w) ∈ (locateWeights 0 opts.sortedWeights).map fun w => (w.1, w.2.1) := by
    rw [map_locateWeights]
    exact mem_sortedWeights.mpr h
  obtain ⟨⟨id', w', offset⟩, hplace, heq⟩ := mem_map.mp hlocated
  obtain ⟨rfl, rfl⟩ := Prod.mk.inj heq
  exact ⟨offset, hplace⟩

theorem not_mem_located (h : id ∉ opts.weights.map fst) :
    id ∉ (locateWeights 0 opts.sortedWeights).map fst := by
  rwa [map_fst_locateWeights, mem_map_sortedWeights]

/-- A run of the model starts with the weights, each where its entry points. -/
theorem constants_loadedModel (h : Encodable graph opts)
    (hsize : opts.wgtsPayload.length < 18446744073709551616)
    (hroles : ∀ id ∈ opts.weights.map fst, id ∉ producedIds graph opts)
    (hblob : opts.weights = [] ∨ ∃ weight ∈ opts.weights, weight.2.bytes ≠ []) :
    ∃ cs, constants (loadedModel graph opts) = .ok cs ∧
      ∀ id c, (id, c) ∈ cs ↔ ∃ w, (id, w) ∈ opts.weights ∧ c = w.constant := by
  have hdescribes := describes_tensorEntries graph opts
  have hids : ((loadedModel graph opts).tensorValues.map LoadedValue.tensorId).Nodup := by
    have hnodup := tensorTable_nodup graph opts
    rwa [loadedModel, map_map]
  have hnonneg : ∀ tv ∈ (loadedModel graph opts).tensorValues, 0 ≤ tv.tensorId.toInt := by
    intro tv htv
    obtain ⟨old, hold, rfl⟩ := mem_map.mp htv
    exact (h.entries old (mem_tensorTable.mp hold)).1
  obtain ⟨table, htable, hmem⟩ := indexTensorValues_weights hids hnonneg
  -- The entries of weights are those of the ids in `weights`.
  have hentry : ∀ tv ∈ tensorEntries graph opts,
      tv.source = .weight ↔ tv.tensorId ∈ opts.weights.map fst := by
    intro tv htv
    have hsource := hdescribes.source tv htv
    simp only [map_fst_locateWeights, mem_map_sortedWeights] at hsource
    rw [hsource]
    split_ifs with hout hweight
    · exact iff_of_false (by simp) fun hw => hroles _ hw hout
    · exact iff_of_true rfl hweight
    · exact iff_of_false (by simp) hweight
  have hconstant : ∀ tv ∈ tensorEntries graph opts, ∀ w, (tv.tensorId, w) ∈ opts.weights →
      constantOf opts.wgtsPayload tv.loaded = .ok (tv.tensorId, w.constant) := by
    intro tv htv w hw
    obtain ⟨offset, hplace⟩ := exists_located hw
    obtain ⟨-, before, after, hbytes, hoffset⟩ := mem_locateWeights hplace
    obtain ⟨hdtype, hshape, hoff, hnbytes⟩ := hdescribes.weight tv htv w offset hplace
    rw [Nat.zero_add] at hoffset
    rw [WriteOptions.wgtsPayload, hbytes] at hsize ⊢
    exact constantOf_weight hdtype hshape (hoffset ▸ hoff) hnbytes hsize
  have hsourceCode : ∀ tv : TensorValue,
      tv.loaded.source = sourceCode .weight ↔ tv.source = .weight := by
    intro tv
    cases hs : tv.source <;> simp [TensorValue.loaded, hs, sourceCode]
  have hfilter : ∀ a ∈ table.filter fun tv => tv.source = sourceCode .weight,
      ∃ tv ∈ tensorEntries graph opts, a = tv.loaded ∧ ∃ w, (tv.tensorId, w) ∈ opts.weights ∧
        constantOf opts.wgtsPayload a = .ok (tv.tensorId, w.constant) := by
    intro a ha
    rw [mem_filter, decide_eq_true_eq] at ha
    obtain ⟨tv, htv, rfl⟩ := mem_map.mp ((hmem a ha.2).mp ha.1)
    rw [mem_tensorTable] at htv
    obtain ⟨⟨id, w⟩, hw, hid⟩ := mem_map.mp ((hentry tv htv).mp ((hsourceCode tv).mp ha.2))
    obtain rfl : id = tv.tensorId := hid
    exact ⟨tv, htv, rfl, w, hw, hconstant tv htv w hw⟩
  obtain ⟨cs, hcs, hcsmem⟩ := mapM_total fun a ha => by
    obtain ⟨tv, -, -, w, -, hconst⟩ := hfilter a ha
    exact ⟨_, hconst⟩
  have hiff : ∀ id c, (id, c) ∈ cs ↔ ∃ w, (id, w) ∈ opts.weights ∧ c = w.constant := by
    intro id c
    rw [hcsmem]
    constructor
    · rintro ⟨a, ha, hac⟩
      obtain ⟨tv, -, -, w, hw, hconst⟩ := hfilter a ha
      obtain ⟨rfl, rfl⟩ := Prod.mk.inj (Except.ok.inj (hconst.symm.trans hac))
      exact ⟨w, hw, rfl⟩
    · rintro ⟨w, hw, rfl⟩
      have hknown : id ∈ opts.weights.map fst := mem_map_of_mem hw
      obtain ⟨tv, htv, rfl⟩ := exists_entry graph (.inr (.inl hknown))
      have hsource := (hsourceCode tv).mpr ((hentry tv htv).mpr hknown)
      refine ⟨tv.loaded, ?_, hconstant tv htv w hw⟩
      rw [mem_filter, decide_eq_true_eq]
      refine ⟨(hmem _ hsource).mpr (mem_map_of_mem ?_), hsource⟩
      exact mem_tensorTable.mpr htv
  simp only [constants, htable, Throwing.bind_eq_ok, Except.ok.injEq, exists_eq_left']
  split_ifs with hempty
  · refine ⟨[], rfl, fun id c => iff_of_false not_mem_nil ?_⟩
    rintro ⟨w, hw, rfl⟩
    rcases hempty with rfl | hempty
    · obtain ⟨a, ha, -⟩ := (hcsmem _).mp ((hiff id w.constant).mpr ⟨w, hw, rfl⟩)
      simp at ha
    · rcases hblob with hnone | ⟨weight, hmem, hbytes⟩
      · rw [hnone] at hw
        exact not_mem_nil hw
      · have hnil := flatMap_eq_nil_iff.mp hempty weight (mem_sortedWeights.mpr hmem)
        exact hbytes hnil
  · exact ⟨cs, hcs, hiff⟩

/-! ## Round trips -/

/-- An id of the graph's inputs, weights, outputs or node outputs. -/
def Mentioned (graph : LiteGraph) (opts : WriteOptions) (id : Int16) : Prop :=
  id ∈ opts.inputIds ∨ id ∈ opts.weights.map Prod.fst ∨ id ∈ producedIds graph opts

/-- A value has the source class, the type and the shape that the options give
its id. -/
structure Declared (opts : WriteOptions) (tv : LoadedValue) : Prop where
  input : tv.tensorId ∈ opts.inputIds → tv.source = sourceCode .input ∧
    tv.dtype = dtypeCode (opts.inputSpec tv.tensorId).1 ∧
    tv.shape = (opts.inputSpec tv.tensorId).2
  weight : ∀ w, (tv.tensorId, w) ∈ opts.weights → tv.source = sourceCode .weight ∧
    tv.dtype = dtypeCode w.dtype ∧ tv.shape = w.shape
  intermediate : tv.tensorId ∉ opts.inputIds → tv.tensorId ∉ opts.weights.map Prod.fst →
    tv.source = sourceCode .intermediate ∧ tv.dtype = dtypeCode .float32 ∧ tv.shape = []

/-- The loaded model is the saved one, and a run of it starts with the weights. -/
structure SameModel (graph : LiteGraph) (opts : WriteOptions) (m : LoadedModel) : Prop where
  nodes : m.graph.nodes = graph.nodes
  inputIds : m.graph.inputIds = opts.inputIds
  outputIds : m.graph.outputIds = opts.outputIds
  metadata : ∀ k, m.metadata.lookup k = opts.metadata.lookup k
  memoryPlan : m.memoryPlan = opts.memoryPlan.map MmplPlan.loaded
  nodup : (m.tensorValues.map LoadedValue.tensorId).Nodup
  values : ∀ id, id ∈ m.tensorValues.map LoadedValue.tensorId ↔ Mentioned graph opts id
  declared : ∀ tv ∈ m.tensorValues, Declared opts tv
  weights : ∃ cs, constants m = .ok cs ∧
    ∀ id c, (id, c) ∈ cs ↔ ∃ w, (id, w) ∈ opts.weights ∧ c = w.constant

/-- Every count fits its field and every id indexes a table. -/
structure CountsFit (graph : LiteGraph) (opts : WriteOptions) : Prop where
  inputRanks : ∀ id ∈ opts.inputIds, (opts.inputSpec id).2.length < 256
  weightRanks : ∀ weight ∈ opts.weights, weight.2.shape.length < 256
  nonneg : ∀ id, Mentioned graph opts id → 0 ≤ id.toInt
  nodeCount : graph.nodes.length < 4294967296
  extras : ∀ node ∈ graph.nodes, node.ExtrasFit
  inputCount : opts.inputIds.length < 4294967296
  outputCount : opts.outputIds.length < 4294967296
  metadataCount : opts.metadata.length < 4294967296
  texts : ∀ kv ∈ opts.metadata, EntryFits kv
  plan : ∀ plan ∈ opts.memoryPlan, plan.Fits

/-- Moreover no id has two roles and the weights are not all empty. -/
structure RoundTrips (graph : LiteGraph) (opts : WriteOptions) : Prop
    extends CountsFit graph opts where
  inputs : ∀ id ∈ opts.inputIds,
    id ∉ opts.weights.map Prod.fst ∧ id ∉ producedIds graph opts
  weights : ∀ id ∈ opts.weights.map Prod.fst, id ∉ producedIds graph opts
  blob : opts.weights = [] ∨ ∃ weight ∈ opts.weights, weight.2.bytes ≠ []

theorem mem_tensorEntries_map :
    id ∈ (tensorEntries graph opts).map TensorValue.tensorId ↔ Mentioned graph opts id := by
  rw [(describes_tensorEntries graph opts).ids, map_fst_locateWeights, mem_map_sortedWeights]
  rfl

theorem CountsFit.encodable (h : CountsFit graph opts) : Encodable graph opts := by
  refine ⟨h.nodeCount, h.extras, h.inputCount, h.outputCount, ?_, h.metadataCount, h.texts, h.plan⟩
  intro tv htv
  have hdescribes := describes_tensorEntries graph opts
  have hmentioned := mem_tensorEntries_map.mp (mem_map_of_mem htv)
  refine ⟨h.nonneg _ hmentioned, ?_⟩
  by_cases hweight : tv.tensorId ∈ opts.weights.map fst
  · obtain ⟨⟨id, w⟩, hw, hid⟩ := mem_map.mp hweight
    obtain rfl : id = tv.tensorId := hid
    obtain ⟨offset, hplace⟩ := exists_located hw
    rw [(hdescribes.weight tv htv w offset hplace).2.1]
    exact h.weightRanks _ hw
  · by_cases hinput : tv.tensorId ∈ opts.inputIds
    · have hspec := hdescribes.input tv htv (not_mem_located hweight) hinput
      rw [(Prod.mk.inj hspec).2]
      exact h.inputRanks _ hinput
    · rw [(hdescribes.other tv htv (not_mem_located hweight) hinput).2]
      exact Nat.zero_lt_succ _

/-- The loaded table declares what the options do when no id has two roles. -/
theorem declared_loaded
    (hinputs : ∀ id ∈ opts.inputIds, id ∉ opts.weights.map fst ∧ id ∉ producedIds graph opts)
    (hweights : ∀ id ∈ opts.weights.map fst, id ∉ producedIds graph opts)
    (htv : tv ∈ tensorEntries graph opts) : Declared opts tv.loaded := by
  have hdescribes := describes_tensorEntries graph opts
  have hsource := hdescribes.source tv htv
  simp only [map_fst_locateWeights, mem_map_sortedWeights] at hsource
  constructor
  · intro hin
    obtain ⟨hnotWeight, hnotOut⟩ := hinputs _ hin
    replace hnotWeight : tv.tensorId ∉ opts.weights.map fst := hnotWeight
    replace hnotOut : tv.tensorId ∉ producedIds graph opts := hnotOut
    rw [if_neg hnotOut, if_neg hnotWeight] at hsource
    obtain ⟨hdtype, hshape⟩ :=
      Prod.mk.inj (hdescribes.input tv htv (not_mem_located hnotWeight) hin)
    exact ⟨congrArg sourceCode hsource, congrArg dtypeCode hdtype, hshape⟩
  · intro w hw
    have hknown : tv.tensorId ∈ opts.weights.map fst := mem_map_of_mem hw
    rw [if_neg (hweights _ hknown), if_pos hknown] at hsource
    obtain ⟨offset, hplace⟩ := exists_located hw
    obtain ⟨hdtype, hshape, -⟩ := hdescribes.weight tv htv w offset hplace
    exact ⟨congrArg sourceCode hsource, congrArg dtypeCode hdtype, hshape⟩
  · intro hnotIn hnotWeight
    have hproduced : tv.tensorId ∈ producedIds graph opts :=
      ((mem_tensorEntries_map.mp (mem_map_of_mem htv)).resolve_left hnotIn).resolve_left
        hnotWeight
    rw [if_pos hproduced] at hsource
    obtain ⟨hdtype, hshape⟩ := hdescribes.other tv htv (not_mem_located hnotWeight) hnotIn
    exact ⟨congrArg sourceCode hsource, congrArg dtypeCode hdtype, hshape⟩

theorem mem_map_loadedModel :
    id ∈ (loadedModel graph opts).tensorValues.map LoadedValue.tensorId ↔
      Mentioned graph opts id := by
  rw [← mem_tensorEntries_map, loadedModel, map_map]
  exact ((tensorTable_perm graph opts).map TensorValue.tensorId).mem_iff

theorem nodup_loadedModel (graph : LiteGraph) (opts : WriteOptions) :
    ((loadedModel graph opts).tensorValues.map LoadedValue.tensorId).Nodup := by
  have hnodup := tensorTable_nodup graph opts
  rwa [loadedModel, map_map]

theorem RoundTrips.same (h : RoundTrips graph opts)
    (hsize : opts.wgtsPayload.length < 18446744073709551616) :
    SameModel graph opts (loadedModel graph opts) where
  nodes := rfl
  inputIds := rfl
  outputIds := rfl
  metadata _ := rfl
  memoryPlan := rfl
  nodup := nodup_loadedModel graph opts
  values _ := mem_map_loadedModel
  declared := by
    intro tv htv
    obtain ⟨old, hold, rfl⟩ := mem_map.mp htv
    exact declared_loaded h.inputs h.weights (mem_tensorTable.mp hold)
  weights := constants_loadedModel h.encodable hsize h.weights h.blob

/-- What the reader accepts is bounded, whatever the bytes are. -/
structure LoadedModel.Bounded (m : LoadedModel) : Prop where
  nodes : m.graph.nodes.length < 4294967296
  extras : ∀ node ∈ m.graph.nodes, node.ExtrasFit
  inputs : m.inputIds.length < 4294967296
  outputs : m.outputIds.length < 4294967296
  graphInputs : m.graph.inputIds.length < 4294967296
  graphOutputs : m.graph.outputIds.length < 4294967296
  legal : ∀ tv ∈ m.tensorValues, tv.Legal
  metadata : m.metadata.length < 4294967296
  texts : ∀ kv ∈ m.metadata, EntryFits kv
  plan : ∀ plan ∈ m.memoryPlan, plan.Fits

theorem parse_returns {P : α → Prop} (hp : Returns p P) (h : parse p payload = .ok a) : P a := by
  simp only [parse, Throwing.bind_eq_ok, pure_eq_ok] at h
  obtain ⟨⟨a', rest⟩, hread, rfl⟩ := h
  exact hp payload a' rest hread

theorem bounded_applySection {tag : UInt32} (h : applySection m tag payload = .ok m')
    (hm : m.Bounded) : m'.Bounded := by
  unfold applySection at h
  split_ifs at h
  · simp only [Throwing.bind_eq_ok, pure_eq_ok] at h
    obtain ⟨tvs, htvs, rfl⟩ := h
    have hlegal := parse_returns (returns_counted eof _ _ returns_tvalEntry) htvs
    exact { hm with legal := hlegal.2 }
  · obtain rfl := Except.ok.inj h
    exact { hm with }
  · simp only [Throwing.bind_eq_ok, pure_eq_ok] at h
    obtain ⟨io, hio, rfl⟩ := h
    have hids := parse_returns returns_iosp hio
    exact { hm with inputs := hids.1, outputs := hids.2 }
  · simp only [Throwing.bind_eq_ok, pure_eq_ok] at h
    obtain ⟨entries, hentries, rfl⟩ := h
    have hmeta := parse_returns returns_meta hentries
    exact { hm with metadata := hmeta.1, texts := hmeta.2 }
  · simp only [Throwing.bind_eq_ok, pure_eq_ok] at h
    obtain ⟨plan, hplan, rfl⟩ := h
    have hfits := parse_returns returns_mmpl hplan
    exact { hm with plan := fun _ heq => Option.some.inj heq ▸ hfits }
  · obtain rfl := Except.ok.inj h
    exact hm

theorem returns_sections (hm : m.Bounded) (n : ℕ) :
    Returns (readSections m n) LoadedModel.Bounded := by
  induction n generalizing m with
  | zero => exact Returns.pure hm
  | succ n ih =>
    have hsection : Returns (readSection m) LoadedModel.Bounded := by
      refine (returns_true _).bind fun tag _ => (returns_true _).bind fun size _ => ?_
      refine (returns_true _).bind fun _ _ => (returns_true _).bind fun payload _ => ?_
      intro s m' s' h
      simp only [Throwing.bind_eq_ok, pure_eq_ok, Prod.mk.injEq] at h
      obtain ⟨m'', happly, rfl, -⟩ := h
      exact bounded_applySection happly hm
    exact hsection.bind fun _ hm₁ => ih hm₁

theorem loadFull_bounded (h : loadFull bytes = .ok m) : m.Bounded := by
  simp only [loadFull, Throwing.bind_eq_ok, throwIf_eq_ok, exists_const, Prod.exists] at h
  obtain ⟨-, header, body, -, -, -, nodes, rest, hnodes, h⟩ := h
  obtain ⟨hcount, hextras⟩ := returns_many (returns_node header.version) _ body nodes rest hnodes
  have hlength : nodes.length < 4294967296 := hcount ▸ header.numNodes.toNat_lt
  have hempty : LoadedModel.Bounded ⟨⟨nodes, [], []⟩, [], [], [], [], [], none⟩ :=
    ⟨hlength, hextras, by simp, by simp, by simp, by simp, by simp, by simp, by simp, by simp⟩
  split_ifs at h
  · simp only [Throwing.bind_eq_ok, throwIf_eq_ok, exists_const, pure_eq_ok] at h
    obtain ⟨-, m', htable, rfl⟩ := h
    have hreturns : Returns (readSectionTable ⟨⟨nodes, [], []⟩, [], [], [], [], [], none⟩)
        LoadedModel.Bounded :=
      (returns_true _).bind fun _ _ => (returns_true _).bind fun _ _ => returns_sections hempty _
    have hbounded := parse_returns hreturns htable
    have hids : ∀ ids own : List Int16, ids.length < 4294967296 → own.length < 4294967296 →
        (handedIds ids own).length < 4294967296 := by
      intro ids own hids hown
      unfold handedIds
      split_ifs
      · exact hown
      · exact hids
    exact { hbounded with
      graphInputs := hids _ _ hbounded.inputs hbounded.graphInputs
      graphOutputs := hids _ _ hbounded.outputs hbounded.graphOutputs }
  · obtain rfl := Except.ok.inj h
    exact hempty

theorem mem_of_lookup [BEq κ] [LawfulBEq κ] {k : κ} {v : ν} (h : entries.lookup k = some v) :
    (k, v) ∈ entries := by
  obtain ⟨before, after, rfl, -⟩ := lookup_eq_some_iff.mp h
  exact mem_append_right _ mem_cons_self

theorem lookup_of_mem [BEq κ] [LawfulBEq κ] (hnodup : (entries.map fst).Nodup) {kv : κ × ν}
    (h : kv ∈ entries) : entries.lookup kv.1 = some kv.2 := by
  cases hlookup : entries.lookup kv.1 with
  | none =>
    rw [lookup_eq_none_iff] at hlookup
    exact absurd (hlookup kv h) (by simp)
  | some v =>
    have heq : (kv.1, v) = kv :=
      inj_on_of_nodup_map hnodup (mem_of_lookup hlookup) h rfl
    rw [← heq]

/-- A model that is loaded as it was saved has no count that wraps. -/
theorem SameModel.countsFit (h : SameModel graph opts m) (hm : m.Bounded) :
    CountsFit graph opts := by
  have hvalue : ∀ id, Mentioned graph opts id →
      ∃ tv ∈ m.tensorValues, tv.tensorId = id ∧ tv.Legal ∧ Declared opts tv := by
    intro id hid
    obtain ⟨tv, htv, rfl⟩ := mem_map.mp ((h.values id).mpr hid)
    exact ⟨tv, htv, rfl, hm.legal tv htv, h.declared tv htv⟩
  have hentry : ∀ kv ∈ opts.metadata, kv ∈ m.metadata := by
    intro kv hkv
    have hlookup := lookup_of_mem opts.metadata_nodup hkv
    rw [← h.metadata] at hlookup
    exact mem_of_lookup hlookup
  constructor
  case inputRanks =>
    intro id hid
    obtain ⟨tv, -, rfl, hlegal, hdeclared⟩ := hvalue id (.inl hid)
    exact (hdeclared.input hid).2.2 ▸ hlegal.2
  case weightRanks =>
    rintro ⟨id, w⟩ hw
    obtain ⟨tv, -, rfl, hlegal, hdeclared⟩ :=
      hvalue id (.inr (.inl (mem_map_of_mem hw)))
    exact (hdeclared.weight w hw).2.2 ▸ hlegal.2
  case nonneg =>
    intro id hid
    obtain ⟨tv, -, rfl, hlegal, -⟩ := hvalue id hid
    exact hlegal.1
  case nodeCount => exact h.nodes ▸ hm.nodes
  case extras => exact h.nodes ▸ hm.extras
  case inputCount => exact h.inputIds ▸ hm.graphInputs
  case outputCount => exact h.outputIds ▸ hm.graphOutputs
  case metadataCount =>
    have hsub : opts.metadata.map fst ⊆ m.metadata.map fst :=
      map_subset _ hentry
    have hle := (opts.metadata_nodup.subperm hsub).length_le
    rw [length_map, length_map] at hle
    exact hle.trans_lt hm.metadata
  case texts =>
    intro kv hkv
    exact hm.texts kv (hentry kv hkv)
  case plan =>
    intro plan hplan
    have hloaded : plan.loaded ∈ m.memoryPlan := by
      rw [h.memoryPlan, Option.mem_def.mp hplan]
      rfl
    have hfits := hm.plan _ hloaded
    exact ⟨hfits.pools, hfits.count, hfits.ids⟩

theorem SameModel.roundTrips (h : SameModel graph opts (loadedModel graph opts))
    (hcounts : CountsFit graph opts) : RoundTrips graph opts := by
  have hdescribes := describes_tensorEntries graph opts
  have hvalue : ∀ id, Mentioned graph opts id → ∃ tv ∈ tensorEntries graph opts,
      tv.tensorId = id ∧ Declared opts tv.loaded := by
    intro id hid
    obtain ⟨tv, htv, rfl⟩ := mem_map.mp (mem_tensorEntries_map.mpr hid)
    exact ⟨tv, htv, rfl, h.declared _ (mem_map_of_mem (mem_tensorTable.mpr htv))⟩
  -- A produced id is loaded as an intermediate.
  have hproduced : ∀ tv ∈ tensorEntries graph opts, tv.tensorId ∈ producedIds graph opts →
      tv.loaded.source = sourceCode .intermediate := by
    intro tv htv hout
    have hsource := hdescribes.source tv htv
    rw [if_pos hout] at hsource
    exact congrArg sourceCode hsource
  refine { hcounts with inputs := ?_, weights := ?_, blob := ?_ }
  · intro id hid
    obtain ⟨tv, htv, rfl, hdeclared⟩ := hvalue id (.inl hid)
    have hinput : tv.loaded.source = sourceCode .input := (hdeclared.input hid).1
    constructor
    · intro hweight
      obtain ⟨⟨id, w⟩, hw, hkey⟩ := mem_map.mp hweight
      obtain rfl : id = tv.tensorId := hkey
      have hsource := (hdeclared.weight w hw).1
      rw [hinput] at hsource
      exact absurd hsource (by decide)
    · intro hout
      have hsource := hproduced tv htv hout
      rw [hinput] at hsource
      exact absurd hsource (by decide)
  · intro id hweight hout
    obtain ⟨⟨id', w⟩, hw, rfl⟩ := mem_map.mp hweight
    obtain ⟨tv, htv, rfl, hdeclared⟩ := hvalue _ (.inr (.inl hweight))
    have hsource := hproduced tv htv hout
    rw [(hdeclared.weight w hw).1] at hsource
    exact absurd hsource (by decide)
  · by_contra hall
    rw [not_or, not_exists] at hall
    obtain ⟨hne, hempty⟩ := hall
    have hblob : opts.wgtsPayload = [] := by
      apply flatMap_eq_nil_iff.mpr
      intro weight hw
      by_contra hbytes
      exact hempty weight ⟨mem_sortedWeights.mp hw, hbytes⟩
    obtain ⟨cs, hcs, hmem⟩ := h.weights
    simp only [constants, Throwing.bind_eq_ok] at hcs
    obtain ⟨table, -, hcs⟩ := hcs
    have hnone : table = [] ∨ (loadedModel graph opts).weightBlob = [] := .inr hblob
    rw [if_pos hnone] at hcs
    obtain rfl := Except.ok.inj hcs
    obtain ⟨⟨id, w⟩, hw⟩ := exists_mem_of_ne_nil _ hne
    exact not_mem_nil ((hmem id w.constant).mpr ⟨w, hw, rfl⟩)

/-- Loading gives the saved model back exactly when no id has two roles, every
count fits its field and the weights are not all empty. -/
theorem loadFull_save_iff {bytes : List UInt8} (hsave : save graph opts = .ok bytes) :
    (∃ m, loadFull bytes = .ok m ∧ SameModel graph opts m) ↔ RoundTrips graph opts := by
  constructor
  · rintro ⟨m, hload, hsame⟩
    have hcounts := hsame.countsFit (loadFull_bounded hload)
    rw [loadFull_save hsave hcounts.encodable, Except.ok.injEq] at hload
    obtain rfl := hload
    exact hsame.roundTrips hcounts
  · intro h
    exact ⟨_, loadFull_save hsave h.encodable, h.same (wgtsPayload_lt hsave)⟩

/-- One node that reads the input `0` and the weight `1` and writes `2`. -/
def scaled : LiteGraph := ⟨[⟨0, [0, 1], [2], default⟩], [0], [2]⟩

def scale : Weight where
  dtype := .uint8
  shape := [1]
  bytes := [7]
  dims_nonneg := by simp
  strides_ok := ⟨[1], rfl⟩
  bytes_ok := ⟨1, rfl, rfl⟩

def scaledOptions (outputIds : List Int16) : WriteOptions where
  weights := [(1, scale)]
  inputIds := [0]
  outputIds := outputIds
  inputSpecs := [(0, .uint8, [1])]
  metadata := []
  memoryPlan := none
  weights_nodup := nodup_singleton _
  metadata_nodup := nodup_nil
  plan_words := by simp

theorem save_scaled (outputIds : List Int16) (h : outputIds = [2] ∨ outputIds = [2, 1]) :
    ∃ bytes, save scaled (scaledOptions outputIds) = .ok bytes := by
  have hsome : (save scaled (scaledOptions outputIds)).toOption.isSome = true := by
    rcases h with rfl | rfl <;> decide +kernel
  cases hsave : save scaled (scaledOptions outputIds) with
  | error e => simp [hsave, Except.toOption] at hsome
  | ok bytes => exact ⟨bytes, rfl⟩

theorem loadFull_save_scaled :
    ∃ bytes, save scaled (scaledOptions [2]) = .ok bytes ∧
      ∃ m, loadFull bytes = .ok m ∧ SameModel scaled (scaledOptions [2]) m := by
  obtain ⟨bytes, hsave⟩ := save_scaled [2] (Or.inl rfl)
  refine ⟨bytes, hsave, (loadFull_save_iff hsave).mpr ?_⟩
  refine ⟨⟨?_, ?_, ?_, ?_, ?_, ?_, ?_, ?_, ?_, ?_⟩, ?_, ?_, ?_⟩
  case refine_5 =>
    intro node hnode
    obtain rfl := mem_singleton.mp hnode
    exact ⟨by decide, by decide⟩
  all_goals simp [scaled, scaledOptions, scale, Mentioned, producedIds, WriteOptions.inputSpec]

/-- A weight that is also an output loses its source class. -/
theorem loadFull_save_weightOutput :
    ∃ bytes, save scaled (scaledOptions [2, 1]) = .ok bytes ∧
      ¬ ∃ m, loadFull bytes = .ok m ∧ SameModel scaled (scaledOptions [2, 1]) m := by
  obtain ⟨bytes, hsave⟩ := save_scaled [2, 1] (Or.inr rfl)
  refine ⟨bytes, hsave, ?_⟩
  rintro ⟨m, hload, hsame⟩
  have hcounts := hsame.countsFit (loadFull_bounded hload)
  rw [loadFull_save hsave hcounts.encodable, Except.ok.injEq] at hload
  obtain rfl := hload
  exact (hsame.roundTrips hcounts).weights 1 (by decide) (by decide)

end Tenzor.Lite
