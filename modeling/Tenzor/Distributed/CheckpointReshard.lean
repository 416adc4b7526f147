import Tenzor.Distributed.CheckpointHistory
import Tenzor.Lib.Balanced

/-!
# Loading a save with another world size

The shards of a tensor are joined along its shard dimension and cut again into
balanced parts. What the ranks of the new world load is compared, for each name,
with what the ranks of the old world saved.
-/

open Function (comp_apply comp_def)

namespace Tenzor.Checkpoint

open Throwing List
open Option (isSome_map map_some)

/-! ## Joining the parts of a tensor -/

namespace Blob

/-- Tensors that may be parts of one tensor along a dimension. -/
def Alike (t u : Blob) (dim : ℕ) : Prop :=
  t.dtype = u.dtype ∧ t.withExtent dim 0 = u.withExtent dim 0

/-- The bytes of a tensor are those of its blocks. -/
def Filled (t : Blob) (dim : ℕ) : Prop :=
  t.data.length = t.outer dim * (t.extent dim * t.inner dim)

variable {t u : Blob} {dim : ℕ}

theorem Alike.length_eq (h : t.Alike u dim) : t.shape.length = u.shape.length := by
  have hlen := congrArg List.length h.2
  rwa [withExtent, withExtent, length_set, length_set] at hlen

theorem Alike.outer_eq (h : t.Alike u dim) : t.outer dim = u.outer dim := by
  have htake := congrArg (List.take dim) h.2
  rw [withExtent, withExtent, take_set_of_le (Nat.le_refl _),
    take_set_of_le (Nat.le_refl _)] at htake
  rw [outer, outer, htake]

theorem Alike.inner_eq (h : t.Alike u dim) : t.inner dim = u.inner dim := by
  have hdrop := congrArg (List.drop (dim + 1)) h.2
  rw [withExtent, withExtent, drop_set_of_lt (Nat.lt_succ_self _),
    drop_set_of_lt (Nat.lt_succ_self _)] at hdrop
  rw [inner, inner, hdrop, h.1]

theorem prod_shape (hdim : dim < t.shape.length) :
    t.shape.prod = (t.shape.take dim).prod * (t.extent dim * (t.shape.drop (dim + 1)).prod) := by
  calc t.shape.prod = (t.shape.take dim ++ t.shape.drop dim).prod := by rw [take_append_drop]
    _ = _ := by
      rw [prod_append, drop_eq_getElem_cons hdim, prod_cons, extent,
        getD_eq_getElem _ _ hdim]

theorem Allocated.filled (h : t.Allocated) (hdim : dim < t.shape.length) : t.Filled dim := by
  rw [Filled, h.length_eq, prod_shape hdim, outer, inner]
  ring

end Blob

/-- The tensor whose parts are given, none without parts. -/
def joined (dim : ℕ) (ts : List Blob) : Option Blob :=
  ts.head?.map fun t => joinBlobs t ts dim

theorem joined_stored (dim : ℕ) (ts : List Blob) :
    joined dim (ts.map Blob.stored) = joined dim ts := by
  rw [joined, head?_map, Option.map_map]
  congr 1
  simp only [joinBlobs, map_map]
  rfl

section

variable {t : Blob} {ts : List Blob} {dim : ℕ}

theorem outer_withExtent (n : ℕ) : ((t.withExtent dim n).take dim).prod = t.outer dim := by
  rw [Blob.withExtent, take_set_of_le (Nat.le_refl _), Blob.outer]

theorem inner_withExtent (n : ℕ) :
    ((t.withExtent dim n).drop (dim + 1)).prod * dtypeSize t.dtype = t.inner dim := by
  rw [Blob.withExtent, drop_set_of_lt (Nat.lt_succ_self _), Blob.inner]

theorem extent_withExtent (hdim : dim < t.shape.length) (n : ℕ) :
    (t.withExtent dim n).getD dim 0 = n := by
  simp [Blob.withExtent, hdim]

theorem extent_joinBlobs (hdim : dim < t.shape.length) :
    (joinBlobs t ts dim).extent dim = (ts.map (·.extent dim)).sum := by
  exact extent_withExtent hdim _

theorem outer_joinBlobs : (joinBlobs t ts dim).outer dim = t.outer dim :=
  outer_withExtent _

theorem inner_joinBlobs : (joinBlobs t ts dim).inner dim = t.inner dim :=
  inner_withExtent _

theorem filled_joinBlobs (hdim : dim < t.shape.length)
    (hts : ∀ u ∈ ts, u.Alike t dim ∧ u.Filled dim) : (joinBlobs t ts dim).Filled dim := by
  have hparts : ∀ p ∈ ts.map (fun u : Blob => (u.extent dim * u.inner dim, u.data)),
      p.2.length = t.outer dim * p.1 := by
    intro p hp
    obtain ⟨u, hu, rfl⟩ := mem_map.mp hp
    obtain ⟨halike, hfilled⟩ := hts u hu
    rw [← halike.outer_eq]
    exact hfilled
  have hsum : (ts.map (fun u : Blob => (u.extent dim * u.inner dim, u.data))).map Prod.fst =
      ts.map fun u => u.extent dim * t.inner dim := by
    rw [map_map]
    refine map_congr_left fun u hu => ?_
    rw [comp_apply, (hts u hu).1.inner_eq]
  rw [Blob.Filled, extent_joinBlobs hdim, outer_joinBlobs, inner_joinBlobs, joinBlobs,
    AxisBlocks.length_join hparts, hsum, sum_map_mul_right]

/-- Balanced cuts of a tensor are its parts. -/
theorem joined_cuts {w : ℕ} (hw : 0 < w) (hdim : dim < t.shape.length) (hfilled : t.Filled dim) :
    joined dim ((List.range w).map fun r => t.slice dim (Balanced.start (t.extent dim) w r)
      (Balanced.start (t.extent dim) w r + Balanced.count (t.extent dim) w r)) =
      some t.stored := by
  let bound := Balanced.start (t.extent dim) w
  let len := Balanced.count (t.extent dim) w
  have hlen : ∀ r, bound r + len r - bound r = len r := fun r => Nat.add_sub_cancel_left _ _
  have hextent : ∀ r, (t.slice dim (bound r) (bound r + len r)).extent dim = len r := fun r => by
    rw [Blob.slice, Blob.extent, extent_withExtent hdim, hlen]
  have hsum : ((List.range w).map len).sum = t.extent dim := Balanced.sum_count _ hw
  have hdata : AxisBlocks.join (t.outer dim) ((List.range w).map fun r =>
      (len r * t.inner dim, AxisBlocks.cut (t.outer dim) (t.extent dim * t.inner dim)
        (bound r * t.inner dim) (len r * t.inner dim) t.data)) = t.data := by
    apply AxisBlocks.join_cuts hfilled
    · simp [bound]
    · intro r
      rw [← Nat.add_mul]
      exact congrArg (· * t.inner dim) (Balanced.start_succ _ _ _)
    · exact congrArg (· * t.inner dim) (Balanced.start_last _ hw)
    · intro r hr
      rw [← Nat.add_mul]
      exact Nat.mul_le_mul_right _ (Balanced.end_le hr)
  have hshape : (t.slice dim (bound 0) (bound 0 + len 0)).withExtent dim
      ((((List.range w).map fun r => t.slice dim (bound r) (bound r + len r)).map
        (·.extent dim)).sum) = t.shape := by
    rw [map_map, comp_def]
    simp only [hextent, hsum]
    rw [Blob.withExtent, Blob.slice, Blob.withExtent, set_set, Blob.extent,
      getD_eq_getElem _ _ hdim, set_getElem_self]
  have hblocks : AxisBlocks.join ((t.slice dim (bound 0) (bound 0 + len 0)).outer dim)
      (((List.range w).map fun r => t.slice dim (bound r) (bound r + len r)).map
        fun u => (u.extent dim * u.inner dim, u.data)) = t.data := by
    have houter : (t.slice dim (bound 0) (bound 0 + len 0)).outer dim = t.outer dim :=
      outer_withExtent _
    have hinner : ∀ r, (t.slice dim (bound r) (bound r + len r)).inner dim = t.inner dim :=
      fun r => inner_withExtent _
    have hcut : ∀ r, (t.slice dim (bound r) (bound r + len r)).data =
        AxisBlocks.cut (t.outer dim) (t.extent dim * t.inner dim) (bound r * t.inner dim)
          (len r * t.inner dim) t.data := fun r => by rw [Blob.slice, hlen]
    rw [map_map, comp_def, houter]
    simp only [hextent, hinner, hcut]
    exact hdata
  rw [joined, head?_map, head?_range, if_neg hw.ne', map_some, map_some]
  congr 1
  change Blob.mk _ _ _ _ = Blob.mk _ _ _ _
  rw [hshape, hblocks]
  rfl

/-- `cat` joins two or more tensors of one element type that may be parts of one tensor. -/
theorem cat_alike (conv : Conversion) (hdim : dim < t.shape.length) (hmany : ts ≠ [])
    (hts : ∀ u ∈ ts, u.Alike t dim) :
    cat conv (t :: ts) dim = .ok (joinBlobs t (t :: ts) dim) := by
  have hall : ∀ u ∈ t :: ts, u.Alike t dim := forall_mem_cons.mpr ⟨⟨rfl, rfl⟩, hts⟩
  have hdtype : commonDtype (t :: ts) = t.dtype := by
    refine List.foldlRecOn (motive := (· = t.dtype)) ts _ rfl fun dt hdt u hu => ?_
    rw [hdt, (hts u hu).1, promoteTypes_self]
  have hcast : ((t :: ts).map fun u => if u.dtype = t.dtype then u else conv.castTo t.dtype u) =
      t :: ts := by
    conv_rhs => rw [← map_id (t :: ts)]
    refine map_congr_left fun u hu => ?_
    rw [if_pos (hall u hu).1, id_eq]
  obtain ⟨u, us, rfl⟩ := exists_cons_of_ne_nil hmany
  have hneg : ¬ (dim : ℤ) < 0 := by omega
  have hin : ¬ ((dim : ℤ) < 0 ∨ (t.shape.length : ℤ) ≤ dim) := by omega
  have hrank : ¬ ∃ v ∈ t :: u :: us, v.shape.length ≠ t.shape.length := by
    rintro ⟨v, hv, hne⟩
    exact hne (hall v hv).length_eq
  have hshape : ¬ ∃ v ∈ t :: u :: us, v.withExtent dim 0 ≠ t.withExtent dim 0 := by
    rintro ⟨v, hv, hne⟩
    exact hne (hall v hv).2
  rw [cat]
  · rw [hdtype, hcast]
    simp only [if_neg hneg, Int.toNat_natCast, throwIf, if_neg hin, if_neg hrank, if_neg hshape]
    rfl
  · simp
  · simp

end

/-! ## What a save promises -/

namespace Snapshot

variable (s : Snapshot)

/-- The sharding that the file of a rank records for a name. -/
def spec (r : ℕ) (name : Name) : Option ShardSpec :=
  ((s.states r).lookup name).map fun t => (resolved (s.specs r) ⟨name, t⟩).written

def Saved (name : Name) : Prop := ∃ r < s.worldSize, name ∈ s.states r

def OnAll (name : Name) : Prop := ∀ r < s.worldSize, name ∈ s.states r

def Replicated (name : Name) (t : Blob) : Prop :=
  ∃ r < s.worldSize, (s.states r).lookup name = some t ∧ s.spec r name = some { sharded := false }

def ShardedAlong (name : Name) (dim : ℤ) : Prop :=
  ∃ r < s.worldSize, s.spec r name = some { sharded := true, dim := dim }

/-- The ranks agree on how a name is sharded, its copies are equal when it is replicated, and
its shards are parts of one tensor when it is sharded. -/
structure Coherent : Prop where
  spec_eq : ∀ r < s.worldSize, ∀ r' < s.worldSize, ∀ name, name ∈ s.states r → name ∈ s.states r' →
    s.spec r name = s.spec r' name
  replicated_eq : ∀ name t u, s.Replicated name t → s.Replicated name u → t = u
  shards_alike : ∀ r < s.worldSize, ∀ r' < s.worldSize, ∀ name t u dim,
    (s.states r).lookup name = some t → (s.states r').lookup name = some u →
    s.ShardedAlong name dim → t.Alike u dim.toNat

end Snapshot

/-- The tensors of a name, in the order of the ranks that hold it. -/
def shardsOf (states : ℕ → Tensors) (n : ℕ) (name : Name) : List Blob :=
  (List.range n).filterMap fun r => (states r).lookup name

/-- What `n` loading ranks are promised. -/
structure Reassembled (s : Snapshot) (n : ℕ) (loaded : ℕ → Tensors) : Prop where
  sharded : ∀ name dim, s.ShardedAlong name dim →
    joined dim.toNat (shardsOf loaded n name) = joined dim.toNat (shardsOf s.states s.worldSize name)
  replicated : ∀ name t, s.Replicated name t → ∀ r < n, (loaded r).lookup name = some t
  present : ∀ name, s.Saved name → ∃ r < n, name ∈ loaded r

/-- `n` copies of the shard of rank zero join to the same tensor as the saved shards. -/
def CopiesJoin (s : Snapshot) (n : ℕ) (name : Name) (dim : ℤ) : Prop :=
  ∀ t, (s.states 0).lookup name = some t →
    joined dim.toNat (List.replicate n t) = joined dim.toNat (shardsOf s.states s.worldSize name)

/-- When the loading ranks get what was saved. With another number of ranks every name is
taken from rank zero, and shards are joined only if two or more ranks hold the name. -/
structure Recoverable (s : Snapshot) (n : ℕ) : Prop where
  unquantized : ∀ name t, s.Replicated name t → t.quant = {}
  same_size : n = s.worldSize → ∀ name t, s.Replicated name t → s.OnAll name
  on_zero : n ≠ s.worldSize → ∀ name, s.Saved name → name ∈ s.states 0
  joins : n ≠ s.worldSize → ∀ name dim, s.ShardedAlong name dim →
    s.OnAll name ∧ 1 < s.worldSize ∨ CopiesJoin s n name dim

section

variable {s : Snapshot} {dir : Directory} {name : Name} {r n : ℕ} {sp : ShardSpec} {t : Blob}
  {dim : ℤ} {states : ℕ → Tensors}

theorem Snapshot.spec_isSome (h : name ∈ s.states r) :
    ∃ t, (s.states r).lookup name = some t ∧
      s.spec r name = some (resolved (s.specs r) ⟨name, t⟩).written := by
  obtain ⟨t, ht⟩ := Option.isSome_iff_exists.mp (AList.lookup_isSome.mpr h)
  exact ⟨t, ht, by rw [Snapshot.spec, ht, map_some]⟩

theorem readExpected_of_saves (hdir : saves [s] = .ok dir) (hr : r < s.worldSize) :
    readExpected dir s.worldSize r = .ok (s.contents r).tensors := by
  obtain ⟨hall, hlookup⟩ := saves_spec hdir
  obtain ⟨hread, hsize, -⟩ := (hall s (by simp)).read_file hr
  rw [readExpected, hlookup, latest_singleton, if_pos hr]
  simp only [map_some, hread]
  simp only [bind, Except.bind, throwIf, hsize, ne_eq, not_true_eq_false, if_false]
  rfl

/-- Results computed one by one and kept under distinct names. -/
theorem lookup_foldlM_insert {f : Name → Blob → Except Exn Blob} {l : List (Σ _ : Name, Blob)}
    (hnd : l.NodupKeys) {m result : Tensors}
    (h : l.foldlM (fun m e => do
      let part ← f e.1 e.2
      pure (AList.insert e.1 part m)) m = .ok result) (k : Name) :
    (∀ t, l.dlookup k = some t → ∃ part, f k t = .ok part ∧ result.lookup k = some part) ∧
      (l.dlookup k = none → result.lookup k = m.lookup k) := by
  induction l generalizing m with
  | nil =>
    obtain rfl : m = result := by simpa using h
    exact ⟨by simp, fun _ => rfl⟩
  | cons e rest ih =>
    obtain ⟨hfresh, hrest⟩ := nodupKeys_cons.mp hnd
    simp only [foldlM_cons_eq_ok, Throwing.bind_eq_ok, pure_eq_ok] at h
    obtain ⟨_, ⟨part, hpart, rfl⟩, h⟩ := h
    obtain ⟨hsome, hnone⟩ := ih hrest h
    obtain ⟨k', t'⟩ := e
    by_cases hk : k = k'
    · subst hk
      rw [dlookup_cons_eq]
      refine ⟨fun t ht => ?_, by simp⟩
      obtain rfl := Option.some.inj ht
      refine ⟨part, hpart, ?_⟩
      rw [hnone (dlookup_eq_none.mpr hfresh), AList.lookup_insert]
    · rw [dlookup_cons_ne _ _ hk]
      refine ⟨hsome, fun hnone' => ?_⟩
      rw [hnone hnone', AList.lookup_insert_ne hk]

/-- The tensors of all files. -/
def Snapshot.shards (s : Snapshot) : List Tensors :=
  (List.range s.worldSize).map fun r => (s.contents r).tensors

/-- What the resharding path takes from the files of one save. -/
theorem loadAll_of_saves (conv : Conversion) (hdir : saves [s] = .ok dir) {rank n : ℕ}
    {result : Tensors} (h : loadAll conv dir rank n = .ok result) :
    (∀ t, (s.states 0).lookup name = some t → ∃ part,
      reshard conv (shardDim version (s.contents 0).shardSpecs s.shards) s.shards rank n name
        t.stored = .ok part ∧ result.lookup name = some part) ∧
    ((s.states 0).lookup name = none → result.lookup name = none) := by
  obtain ⟨hall, hlookup⟩ := saves_spec hdir
  obtain ⟨hread, hsize, hversion, htensors, -⟩ := (hall s (by simp)).read_file s.pos
  have hreads : (List.range (s.worldSize - 1)).mapM (fun r => readExpected dir s.worldSize (r + 1)) =
      .ok ((List.range (s.worldSize - 1)).map fun r => (s.contents (r + 1)).tensors) := by
    calc (List.range (s.worldSize - 1)).mapM (fun r => readExpected dir s.worldSize (r + 1))
        = (List.range (s.worldSize - 1)).mapM fun r => pure (s.contents (r + 1)).tensors := by
          refine mapM_congr fun r hr => ?_
          have hr := mem_range.mp hr
          exact readExpected_of_saves hdir (by omega)
      _ = _ := mapM_pure
  have hshards : (s.contents 0).tensors ::
        ((List.range (s.worldSize - 1)).map fun r => (s.contents (r + 1)).tensors) =
      s.shards := by
    obtain ⟨k, hk⟩ := Nat.exists_eq_succ_of_ne_zero s.pos.ne'
    rw [Snapshot.shards, hk, Nat.succ_eq_add_one, range_succ_eq_map, map_cons,
      map_map]
    rfl
  simp only [loadAll, Throwing.bind_eq_ok, throwIf_eq_ok, hlookup, latest_singleton, if_pos s.pos,
    map_some] at h
  obtain ⟨_, -, c, hc, _, -, others, hothers, _, -, hresult⟩ := h
  obtain rfl := Except.ok.inj (hread.symm.trans hc)
  rw [hsize, Int.toNat_natCast, hreads] at hothers
  obtain rfl := Except.ok.inj hothers
  rw [hshards, hversion] at hresult
  obtain ⟨hsome, hnone⟩ := lookup_foldlM_insert (s.contents 0).tensors.nodupKeys hresult name
  constructor
  · intro t ht
    apply hsome
    rw [← AList.lookup, htensors, ht, map_some]
  · intro ht
    rw [hnone]
    · rfl
    · rw [← AList.lookup, htensors, ht, Option.map_none]

/-! ## One name on the resharding path -/

theorem lookup_contents (hdir : saves [s] = .ok dir) (hr : r < s.worldSize) :
    (s.contents r).tensors.lookup name = ((s.states r).lookup name).map Blob.stored := by
  obtain ⟨hall, -⟩ := saves_spec hdir
  exact ((hall s (by simp)).read_file hr).2.2.2.1 name

theorem lookup_shardSpecs (hdir : saves [s] = .ok dir) :
    (s.contents 0).shardSpecs.lookup name = s.spec 0 name := by
  obtain ⟨hall, -⟩ := saves_spec hdir
  exact ((hall s (by simp)).read_file s.pos).2.2.2.2 name

theorem presentInAll_shards (hdir : saves [s] = .ok dir) :
    presentInAll s.shards name = true ↔ s.OnAll name := by
  simp only [presentInAll, Snapshot.shards, all_map, all_eq_true, mem_range,
    comp_apply]
  refine forall₂_congr fun r hr => ?_
  rw [lookup_contents hdir hr, isSome_map, AList.lookup_isSome]

theorem filterMap_shards (hdir : saves [s] = .ok dir) :
    s.shards.filterMap (·.lookup name) = (shardsOf s.states s.worldSize name).map Blob.stored := by
  rw [Snapshot.shards, filterMap_map, shardsOf, map_filterMap]
  refine filterMap_congr fun r hr => ?_
  rw [comp_apply, lookup_contents hdir (mem_range.mp hr)]

theorem shardDim_of_saves (hdir : saves [s] = .ok dir) (hspec : s.spec 0 name = some sp)
    (t : Blob) :
    shardDim version (s.contents 0).shardSpecs s.shards name t =
      if sp.sharded ∧ presentInAll s.shards name ∧ 1 < s.worldSize then some sp.dim else none := by
  have hlen : s.shards.length = s.worldSize := by
    rw [Snapshot.shards, length_map, length_range]
  rw [shardDim, if_pos (UInt32.le_refl _), lookup_shardSpecs hdir, hspec]
  simp only [hlen]

/-- A name that is not joined is taken as rank zero has saved it. -/
theorem reshard_kept (conv : Conversion) (hdir : saves [s] = .ok dir)
    (hspec : s.spec 0 name = some sp) (hkept : ¬ (sp.sharded ∧ s.OnAll name ∧ 1 < s.worldSize))
    (rank n : ℕ) (t : Blob) :
    reshard conv (shardDim version (s.contents 0).shardSpecs s.shards) s.shards rank n name t =
      .ok t := by
  rw [reshard, shardDim_of_saves hdir hspec, if_neg]
  rwa [presentInAll_shards hdir]

/-- The dimension of a saved shard is one of its own. -/
theorem within_of_saves (hdir : saves [s] = .ok dir) (hr : r < s.worldSize)
    (ht : (s.states r).lookup name = some t) :
    t.Allocated ∧ (resolved (s.specs r) ⟨name, t⟩).Within t.shape.length := by
  obtain ⟨hall, -⟩ := saves_spec hdir
  have hmem := AList.mem_lookup_iff.mp ht
  constructor
  · exact ((s.storable r hr).blobs ⟨name, t⟩ hmem).2
  · exact within_of_resolve ((serializeState_eq (hall s (by simp) r hr)).1 ⟨name, t⟩ hmem)

theorem dim_of_spec (hdir : saves [s] = .ok dir) (hr : r < s.worldSize)
    (ht : (s.states r).lookup name = some t)
    (hspec : s.spec r name = some { sharded := true, dim := dim }) :
    0 ≤ dim ∧ dim < t.shape.length := by
  rw [Snapshot.spec, ht, map_some] at hspec
  have hwritten := Option.some.inj hspec
  have hsharded : (resolved (s.specs r) ⟨name, t⟩).sharded = true :=
    congrArg ShardSpec.sharded hwritten
  have hdim := congrArg ShardSpec.dim hwritten
  rw [ShardSpec.written, hsharded] at hdim
  obtain rfl : (resolved (s.specs r) ⟨name, t⟩).dim = dim := hdim
  exact (within_of_saves hdir hr ht).2 hsharded

theorem mem_shardsOf : t ∈ shardsOf states n name ↔ ∃ r < n, (states r).lookup name = some t := by
  simp [shardsOf]

theorem length_shardsOf (h : ∀ r < n, name ∈ states r) : (shardsOf states n name).length = n := by
  rw [shardsOf, length_filterMap_eq_countP, countP_eq_length.mpr, length_range]
  intro r hr
  exact AList.lookup_isSome.mpr (h r (mem_range.mp hr))

/-- A name that is joined is cut out of the tensor whose parts were saved. -/
theorem reshard_joined (conv : Conversion) (hdir : saves [s] = .ok dir) (hco : s.Coherent)
    (hsharded : s.ShardedAlong name dim) (hall : s.OnAll name) (hmany : 1 < s.worldSize) :
    ∃ full : Blob, joined dim.toNat (shardsOf s.states s.worldSize name) = some full ∧
      full.stored = full ∧ dim.toNat < full.shape.length ∧ full.Filled dim.toNat ∧
      ∀ rank n t part,
        reshard conv (shardDim version (s.contents 0).shardSpecs s.shards) s.shards rank n name t =
          .ok part →
        part = full.slice dim.toNat (Balanced.start (full.extent dim.toNat) n rank)
          (Balanced.start (full.extent dim.toNat) n rank +
            Balanced.count (full.extent dim.toNat) n rank) := by
  obtain ⟨r, hr, hspec⟩ := hsharded
  have hspec₀ : s.spec 0 name = some { sharded := true, dim := dim } := by
    rw [← hspec]
    exact hco.spec_eq 0 s.pos r hr name (hall 0 s.pos) (hall r hr)
  have hpart : ∀ u ∈ shardsOf s.states s.worldSize name,
      0 ≤ dim ∧ dim < u.shape.length ∧ u.Filled dim.toNat := by
    intro u hu
    obtain ⟨k, hk, hlookup⟩ := mem_shardsOf.mp hu
    have hspec' : s.spec k name = some { sharded := true, dim := dim } := by
      rw [← hspec]
      exact hco.spec_eq k hk r hr name (hall k hk) (hall r hr)
    obtain ⟨hlo, hhi⟩ := dim_of_spec hdir hk hlookup hspec'
    exact ⟨hlo, hhi, (within_of_saves hdir hk hlookup).1.filled (by omega)⟩
  have halike : ∀ u ∈ shardsOf s.states s.worldSize name, ∀ v ∈ shardsOf s.states s.worldSize name,
      u.Alike v dim.toNat := by
    intro u hu v hv
    obtain ⟨k, hk, hlookup⟩ := mem_shardsOf.mp hu
    obtain ⟨k', hk', hlookup'⟩ := mem_shardsOf.mp hv
    exact hco.shards_alike k hk k' hk' name u v dim hlookup hlookup' ⟨r, hr, hspec⟩
  have hlen := length_shardsOf hall
  have hshards : s.shards.filterMap (·.lookup name) = _ := filterMap_shards hdir
  rw [← joined_stored]
  cases hparts : shardsOf s.states s.worldSize name with
  | nil =>
    rw [hparts, length_nil] at hlen
    omega
  | cons t ts =>
    rw [hparts] at hpart halike hlen hshards
    obtain ⟨hlo, hhi, hfilled⟩ := hpart t mem_cons_self
    have hdim : dim.toNat < t.stored.shape.length := by
      change dim.toNat < t.shape.length
      omega
    have hcast : (dim.toNat : ℤ) = dim := Int.toNat_of_nonneg hlo
    have hrest : ts.map Blob.stored ≠ [] := by
      intro hnil
      rw [map_eq_nil_iff] at hnil
      rw [hnil, length_singleton] at hlen
      omega
    have hstored : ∀ u ∈ ts.map Blob.stored, u.Alike t.stored dim.toNat := by
      intro u hu
      obtain ⟨v, hv, rfl⟩ := mem_map.mp hu
      exact halike v (mem_cons_of_mem _ hv) t mem_cons_self
    have hjoin := cat_alike conv hdim hrest hstored
    rw [hcast] at hjoin
    refine ⟨joinBlobs t.stored (t.stored :: ts.map Blob.stored) dim.toNat, rfl, rfl, ?_, ?_, ?_⟩
    · rwa [joinBlobs, Blob.withExtent, length_set]
    · apply filled_joinBlobs hdim
      rw [← map_cons]
      intro u hu
      obtain ⟨v, hv, rfl⟩ := mem_map.mp hu
      exact ⟨halike v hv t mem_cons_self, (hpart v hv).2.2⟩
    · intro rank n u part hpart
      rw [reshard, shardDim_of_saves hdir hspec₀,
        if_pos ⟨rfl, (presentInAll_shards hdir).mpr hall, hmany⟩, hshards] at hpart
      simp only [map_cons, hjoin, Throwing.bind_eq_ok, throwIf_eq_ok, pure_eq_ok] at hpart
      obtain ⟨full, hfull, -, -, rfl⟩ := hpart
      obtain rfl := Except.ok.inj hfull
      rfl

theorem shardsOf_eq_map {f : ℕ → Blob} (h : ∀ r < n, (states r).lookup name = some (f r)) :
    shardsOf states n name = (List.range n).map f := by
  rw [← filterMap_eq_map]
  exact filterMap_congr fun r hr => h r (mem_range.mp hr)

end

section

variable (conv : Conversion) {s : Snapshot} {dir : Directory} {n : ℕ} {loaded : ℕ → Tensors}

theorem lookup_loaded_same (hdir : saves [s] = .ok dir)
    (hload : ∀ r < s.worldSize, load conv dir r s.worldSize = .ok (loaded r)) {r : ℕ}
    (hr : r < s.worldSize) (name : Name) :
    (loaded r).lookup name = ((s.states r).lookup name).map Blob.stored := by
  have hrank := hload r hr
  rw [load_of_saves conv hdir (by omega) (by omega), latest_singleton, Int.toNat_natCast,
    if_pos hr] at hrank
  simp only [if_true] at hrank
  rw [← Except.ok.inj hrank, lookup_contents hdir hr]

theorem loadAll_of_load (hdir : saves [s] = .ok dir) (hne : n ≠ s.worldSize)
    (hload : ∀ r < n, load conv dir r n = .ok (loaded r)) {r : ℕ} (hr : r < n) :
    loadAll conv dir r n = .ok (loaded r) := by
  have hrank := hload r hr
  have hsize : ¬ (s.worldSize : ℤ) = n := by omega
  rw [load_of_saves conv hdir (by omega) (by omega), latest_singleton, Int.toNat_natCast,
    Int.toNat_natCast] at hrank
  by_cases hlt : r < s.worldSize
  · rw [if_pos hlt] at hrank
    simpa only [if_neg hsize] using hrank
  · rwa [if_neg hlt] at hrank

theorem reassembled_same_size (hdir : saves [s] = .ok dir) (hco : s.Coherent)
    (hload : ∀ r < s.worldSize, load conv dir r s.worldSize = .ok (loaded r)) :
    Reassembled s s.worldSize loaded ↔ Recoverable s s.worldSize := by
  have hlookup := fun {r} (hr : r < s.worldSize) => lookup_loaded_same conv hdir hload hr
  constructor
  · intro h
    refine ⟨?_, ?_, fun hne => absurd rfl hne, fun hne => absurd rfl hne⟩
    · rintro name t ⟨r, hr, ht, hspec⟩
      have hfound := h.replicated name t ⟨r, hr, ht, hspec⟩ r hr
      rw [hlookup hr, ht] at hfound
      rw [← Option.some.inj hfound]
      rfl
    · rintro - name t hrep r hr
      have hfound := h.replicated name t hrep r hr
      rw [hlookup hr] at hfound
      apply AList.lookup_isSome.mp
      rw [← isSome_map (f := Blob.stored), hfound]
      rfl
  · intro h
    refine ⟨?_, ?_, ?_⟩
    · intro name dim hsharded
      have hshards : shardsOf loaded s.worldSize name =
          (shardsOf s.states s.worldSize name).map Blob.stored := by
        rw [shardsOf, shardsOf, map_filterMap]
        exact filterMap_congr fun r hr => hlookup (mem_range.mp hr) name
      rw [hshards, joined_stored]
    · intro name t hrep r hr
      have hall := h.same_size rfl name t hrep
      obtain ⟨r', hr', ht, hspec⟩ := id hrep
      obtain ⟨u, hu, -⟩ := Snapshot.spec_isSome (hall r hr)
      have hrep' : s.Replicated name u := by
        refine ⟨r, hr, hu, ?_⟩
        rw [hco.spec_eq r hr r' hr' name (hall r hr) (hall r' hr'), hspec]
      obtain rfl := hco.replicated_eq name t u hrep hrep'
      rw [hlookup hr, hu, map_some, Blob.stored, ← h.unquantized name t hrep]
    · rintro name ⟨r, hr, hmem⟩
      refine ⟨r, hr, AList.lookup_isSome.mp ?_⟩
      rw [hlookup hr, isSome_map]
      exact AList.lookup_isSome.mpr hmem

theorem reassembled_other_size (hdir : saves [s] = .ok dir) (hco : s.Coherent) (hpos : 0 < n)
    (hne : n ≠ s.worldSize) (hload : ∀ r < n, load conv dir r n = .ok (loaded r)) :
    Reassembled s n loaded ↔ Recoverable s n := by
  have hfound : ∀ {r} (hr : r < n) (name : Name), _ := fun {r} hr name =>
    @loadAll_of_saves s dir name conv hdir _ _ _ (loadAll_of_load conv hdir hne hload hr)
  have hzero : ∀ {r} (hr : r < n) {name : Name}, name ∈ loaded r → name ∈ s.states 0 := by
    intro r hr name hmem
    by_contra hnot
    have hnone := (hfound hr name).2 (AList.lookup_eq_none.mpr hnot)
    exact AList.lookup_eq_none.mp hnone hmem
  have hkept : ∀ {name t sp}, (s.states 0).lookup name = some t → s.spec 0 name = some sp →
      ¬ (sp.sharded ∧ s.OnAll name ∧ 1 < s.worldSize) →
      ∀ r < n, (loaded r).lookup name = some t.stored := by
    intro name t sp ht hspec hkept r hr
    obtain ⟨part, hpart, hlookup⟩ := (hfound hr name).1 t ht
    rw [reshard_kept conv hdir hspec hkept] at hpart
    rw [hlookup, Except.ok.inj hpart]
  -- the copy of rank zero is the copy of every rank
  have hreplicated : ∀ {name t}, s.Replicated name t → name ∈ s.states 0 →
      (s.states 0).lookup name = some t ∧ ∀ r < n, (loaded r).lookup name = some t.stored := by
    intro name t hrep hmem
    obtain ⟨r, hr, ht, hspec⟩ := id hrep
    obtain ⟨u, hu, -⟩ := Snapshot.spec_isSome hmem
    have hspec₀ : s.spec 0 name = some { sharded := false } := by
      rw [← hspec]
      exact hco.spec_eq 0 s.pos r hr name hmem (AList.lookup_isSome.mp (by rw [ht]; rfl))
    obtain rfl := hco.replicated_eq name t u hrep ⟨0, s.pos, hu, hspec₀⟩
    exact ⟨hu, hkept hu hspec₀ (by simp)⟩
  have hsharded : ∀ {name dim}, s.ShardedAlong name dim → name ∈ s.states 0 →
      s.spec 0 name = some { sharded := true, dim := dim } := by
    rintro name dim ⟨r, hr, hspec⟩ hmem
    rw [← hspec]
    refine hco.spec_eq 0 s.pos r hr name hmem (AList.lookup_isSome.mp ?_)
    rw [← isSome_map, ← Snapshot.spec, hspec]
    rfl
  have hcopies : ∀ {name dim t}, s.ShardedAlong name dim → (s.states 0).lookup name = some t →
      ¬ (s.OnAll name ∧ 1 < s.worldSize) →
      joined dim.toNat (shardsOf loaded n name) = joined dim.toNat (List.replicate n t) := by
    intro name dim t hsh ht hnot
    have hmem : name ∈ s.states 0 := AList.lookup_isSome.mp (by rw [ht]; rfl)
    have hall := hkept ht (hsharded hsh hmem) fun h => hnot h.2
    rw [shardsOf_eq_map hall, map_const', length_range, ← joined_stored,
      ← joined_stored _ (List.replicate n t), map_replicate, map_replicate]
    rfl
  constructor
  · intro h
    have honZero : ∀ name, s.Saved name → name ∈ s.states 0 := by
      intro name hsaved
      obtain ⟨r, hr, hmem⟩ := h.present name hsaved
      exact hzero hr hmem
    refine ⟨?_, fun heq => absurd heq hne, fun _ => honZero, ?_⟩
    · intro name t hrep
      obtain ⟨r, hr, ht, -⟩ := id hrep
      have hmem := honZero name ⟨r, hr, AList.lookup_isSome.mp (by rw [ht]; rfl)⟩
      have hstored := (hreplicated hrep hmem).2 0 hpos
      rw [h.replicated name t hrep 0 hpos] at hstored
      rw [Option.some.inj hstored]
      rfl
    · rintro - name dim hsh
      by_cases hall : s.OnAll name ∧ 1 < s.worldSize
      · exact .inl hall
      · refine .inr fun t ht => ?_
        rw [← hcopies hsh ht hall, h.sharded name dim hsh]
  · intro h
    refine ⟨?_, ?_, ?_⟩
    · intro name dim hsh
      obtain ⟨r, hr, hspec⟩ := id hsh
      have hsaved : s.Saved name := by
        refine ⟨r, hr, AList.lookup_isSome.mp ?_⟩
        rw [← isSome_map, ← Snapshot.spec, hspec]
        rfl
      obtain ⟨t, ht, -⟩ := Snapshot.spec_isSome (h.on_zero hne name hsaved)
      by_cases hall : s.OnAll name ∧ 1 < s.worldSize
      · obtain ⟨full, hfull, hstored, hdim, hfilled, hparts⟩ :=
          reshard_joined conv hdir hco hsh hall.1 hall.2
        have hslices : ∀ r < n, (loaded r).lookup name =
            some (full.slice dim.toNat (Balanced.start (full.extent dim.toNat) n r)
              (Balanced.start (full.extent dim.toNat) n r +
                Balanced.count (full.extent dim.toNat) n r)) := by
          intro r hr
          obtain ⟨part, hpart, hlookup⟩ := (hfound hr name).1 t ht
          rw [hlookup, hparts r n t.stored part hpart]
        rw [shardsOf_eq_map hslices, joined_cuts hpos hdim hfilled, hstored, hfull]
      · obtain hboth | hcopy := h.joins hne name dim hsh
        · exact absurd hboth hall
        · rw [hcopies hsh ht hall, hcopy t ht]
    · intro name t hrep r hr
      obtain ⟨r', hr', ht, -⟩ := id hrep
      have hmem := h.on_zero hne name ⟨r', hr', AList.lookup_isSome.mp (by rw [ht]; rfl)⟩
      rw [(hreplicated hrep hmem).2 r hr, Blob.stored, ← h.unquantized name t hrep]
    · intro name hsaved
      obtain ⟨t, ht, -⟩ := Snapshot.spec_isSome (h.on_zero hne name hsaved)
      obtain ⟨part, -, hlookup⟩ := (hfound hpos name).1 t ht
      exact ⟨0, hpos, AList.lookup_isSome.mp (by rw [hlookup]; rfl)⟩

/-- Saving on `s.worldSize` ranks and loading on `n` gives back what was saved exactly when the
save is recoverable. -/
theorem reassembled_iff (hdir : saves [s] = .ok dir) (hco : s.Coherent) (hpos : 0 < n)
    (hload : ∀ r < n, load conv dir r n = .ok (loaded r)) :
    Reassembled s n loaded ↔ Recoverable s n := by
  by_cases hn : n = s.worldSize
  · subst hn
    exact reassembled_same_size conv hdir hco hload
  · exact reassembled_other_size conv hdir hco hpos hn hload

end

def row (b : UInt8) : Blob where
  shape := [1]
  dtype := .uint8
  data := [b]

/-- A tensor of `n` rows, each on a rank of its own. -/
def rows (n : ℕ) (hpos : 0 < n) (hfits : n ≤ maxInt64) (value : ℕ → UInt8) : Snapshot where
  worldSize := n
  states := fun r => AList.singleton [] (row (value r))
  specs := fun _ => AList.singleton [] { sharded := true, dim := 0 }
  order := List.range n
  perm := (uniform n hpos hfits 0).perm
  pos := hpos
  fits := hfits
  storable := by
    intro r hr
    constructor
    · intro e he
      obtain rfl := mem_singleton.mp he
      exact ⟨Nat.zero_le _, by
        constructor <;> simp [row, checkedNumel, dtypeSize, maxInt64]⟩
    · simp [maxInt64]

section

variable {n : ℕ} {hpos : 0 < n} {hfits : n ≤ maxInt64} {value : ℕ → UInt8} {r : ℕ} {name : Name}

theorem mem_rows : name ∈ (rows n hpos hfits value).states r ↔ name = [] := by
  rw [rows, AList.mem_keys, AList.keys_singleton, mem_singleton]

theorem lookup_rows {t : Blob} (h : ((rows n hpos hfits value).states r).lookup name = some t) :
    name = [] ∧ t = row (value r) := by
  have hname : name = [] := mem_rows.mp (AList.lookup_isSome.mp (by rw [h]; rfl))
  subst hname
  exact ⟨rfl, (Option.some.inj h).symm⟩

theorem spec_rows {sp : ShardSpec} (h : (rows n hpos hfits value).spec r name = some sp) :
    sp = { sharded := true, dim := 0 } := by
  rw [Snapshot.spec, Option.map_eq_some_iff] at h
  obtain ⟨t, ht, rfl⟩ := h
  obtain ⟨rfl, rfl⟩ := lookup_rows ht
  rfl

theorem coherent_rows : (rows n hpos hfits value).Coherent where
  spec_eq := by
    intro r hr r' hr' name hmem hmem'
    obtain ⟨t, -, hspec⟩ := Snapshot.spec_isSome hmem
    obtain ⟨t', -, hspec'⟩ := Snapshot.spec_isSome hmem'
    rw [hspec, hspec', spec_rows hspec, spec_rows hspec']
  replicated_eq := by
    rintro name t u ⟨r, -, -, hspec⟩ -
    have hsp := spec_rows hspec
    simp at hsp
  shards_alike := by
    intro r hr r' hr' name t u dim ht hu hsh
    obtain ⟨-, rfl⟩ := lookup_rows ht
    obtain ⟨-, rfl⟩ := lookup_rows hu
    exact ⟨rfl, rfl⟩

end

/-- Two rows, saved by two ranks, are loaded by one. -/
theorem reassembled_rows : ∃ (s : Snapshot) (dir : Directory) (loaded : ℕ → Tensors),
    saves [s] = .ok dir ∧ load ⟨fun _ t => t⟩ dir 0 1 = .ok (loaded 0) ∧ Reassembled s 1 loaded := by
  let s := rows 2 (by decide) (by decide) fun r => if r = 0 then 1 else 2
  have hfound : found ⟨fun _ t => t⟩ [s] 0 1 [] = some ⟨[2], .uint8, [1, 2], {}⟩ := by
    decide +kernel
  obtain ⟨dir, tensors, hdir, hload, -⟩ := found_eq_some hfound
  let loaded : ℕ → Tensors := fun _ => tensors
  have hall : ∀ r : ℕ, r < 1 → load ⟨fun _ t => t⟩ dir r (1 : ℕ) = .ok (loaded r) := by
    intro r hr
    obtain rfl := Nat.lt_one_iff.mp hr
    exact hload
  refine ⟨s, dir, loaded, hdir, hload, ?_⟩
  refine (reassembled_iff ⟨fun _ t => t⟩ hdir coherent_rows Nat.one_pos hall).mpr ⟨?_, ?_, ?_, ?_⟩
  · rintro name t ⟨r, -, ht, -⟩
    obtain ⟨-, rfl⟩ := lookup_rows ht
    rfl
  · intro heq
    exact absurd heq (by decide)
  · rintro - name ⟨r, -, hmem⟩
    exact mem_rows.mpr (mem_rows.mp hmem)
  · rintro - name dim ⟨r, -, hspec⟩
    refine Or.inl ⟨fun r' hr' => mem_rows.mpr ?_, by decide⟩
    rw [Snapshot.spec, Option.map_eq_some_iff] at hspec
    obtain ⟨t, ht, -⟩ := hspec
    exact (lookup_rows ht).1

/-- One rank saves a sharded row, and two ranks load it: both are given the whole tensor. -/
theorem single_shard_duplicated :
    ¬ ∀ (s : Snapshot) (dir : Directory) (n : ℕ) (loaded : ℕ → Tensors),
      saves [s] = .ok dir → s.Coherent → 0 < n →
      (∀ r < n, load ⟨fun _ t => t⟩ dir r n = .ok (loaded r)) → Reassembled s n loaded := by
  intro hall
  let s := rows 1 (by decide) (by decide) fun _ => 1
  have hzero : found ⟨fun _ t => t⟩ [s] 0 2 [] = some (row 1) := by decide +kernel
  have hone : found ⟨fun _ t => t⟩ [s] 1 2 [] = some (row 1) := by decide +kernel
  obtain ⟨dir, tensors, hdir, hload, ht⟩ := found_eq_some hzero
  obtain ⟨dir', tensors', hdir', hload', ht'⟩ := found_eq_some hone
  obtain rfl := Except.ok.inj (hdir.symm.trans hdir')
  let loaded : ℕ → Tensors := fun r => if r = 0 then tensors else tensors'
  have hloads : ∀ r : ℕ, r < 2 → load ⟨fun _ t => t⟩ dir r (2 : ℕ) = .ok (loaded r) := by
    intro r hr
    obtain rfl | rfl : r = 0 ∨ r = 1 := by omega
    · exact hload
    · exact hload'
  have hsharded : s.ShardedAlong [] 0 := ⟨0, by decide, rfl⟩
  have hjoined := (hall s dir 2 loaded hdir coherent_rows (by decide) hloads).sharded [] 0 hsharded
  have hcopies : shardsOf loaded 2 [] = [row 1, row 1] := by
    refine (shardsOf_eq_map (f := fun _ => row 1) fun r hr => ?_).trans rfl
    obtain rfl | rfl : r = 0 ∨ r = 1 := by omega
    · exact ht
    · exact ht'
  rw [hcopies] at hjoined
  exact absurd hjoined (by decide +kernel)

end Tenzor.Checkpoint
