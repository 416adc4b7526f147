import Tenzor.Core.QuantizedViews
import Tenzor.Nn.KvCacheSpec

/-!
# Calls on a key-value cache

What a cache is for is a history: at each position of a layer, the keys are those of the last
update that covered the position since the last reset. Here are the calls, the history they
leave, and what each of them does.

## Implementation notes

Between two calls the caller may do what it likes outside the cache's own storages.
-/

namespace Tenzor

open Wrap64 Strided RawMemory List
open Effects hiding bind_eq_ok
open Throwing

/-! ## Calls and their history -/

/-- A call, with the state of the tracer. -/
inductive KVCall
  | update (tracing : Bool) (layer : Int) (newK newV : TensorImpl) (pos : Int)
  | resetLayer (layer : Int)
  | reset
  | getKeys (tracing : Bool) (layer seqLen : Int)
  | getValues (tracing : Bool) (layer seqLen : Int)

/-- The tensors that a call returns. -/
def KVCall.exec (cache : KVCache) : KVCall → OnHeap (List TensorImpl)
  | .update tracing layer newK newV pos => do
      let views ← cache.update tracing layer newK newV pos
      return [views.1, views.2]
  | .resetLayer layer => do
      cache.resetLayer layer
      return []
  | .reset => do
      cache.reset
      return []
  | .getKeys tracing layer seqLen => do
      let view ← cache.getKeys tracing layer seqLen
      return [view]
  | .getValues tracing layer seqLen => do
      let view ← cache.getValues tracing layer seqLen
      return [view]

/-- Keys or values. -/
inductive Side
  | key
  | value
  deriving DecidableEq

/-- The one that belongs to the side. -/
def Side.pick {α : Type} (side : Side) (key value : α) : α :=
  match side with
  | .key => key
  | .value => value

def KVCache.buffers (cache : KVCache) (side : Side) : List TensorImpl :=
  side.pick cache.kCaches cache.vCaches

/-- What a call has changed: the elements that a successful update has written, or a reset. -/
inductive KVEvent
  | update (layer pos newSeqLen : Int) (written : Side → List Int → List UInt8)
  | resetLayer (layer : Int)
  | reset

/-- The elements that the last update has written at a multi-index of a layer since the last
reset; the newest event comes first. -/
def lastWritten (dtype : DType) (side : Side) (layer : Int) : List KVEvent → List Int → List UInt8
  | [], _ => List.replicate (dtypeSize dtype) 0
  | .reset :: _, _ => List.replicate (dtypeSize dtype) 0
  | .resetLayer l :: older, idx =>
    if l = layer then List.replicate (dtypeSize dtype) 0
    else lastWritten dtype side layer older idx
  | .update l pos newSeqLen written :: older, idx =>
    if l = layer ∧ pos ≤ idx.getD 2 0 ∧ idx.getD 2 0 < pos + newSeqLen then
      written side (idx.set 2 (idx.getD 2 0 - pos))
    else lastWritten dtype side layer older idx

/-- What a returning call adds to the history. -/
def KVCall.events (h : Heap UInt8) : KVCall → List KVEvent
  | .update _ layer newK newV pos => [.update layer pos (newK.shape.getD 2 0) fun side idx =>
    let input := side.pick newK newV
    elementBytes h.bytes input (input.addr idx)]
  | .resetLayer layer => [.resetLayer layer]
  | .reset => [.reset]
  | .getKeys _ _ _ => []
  | .getValues _ _ _ => []

/-- The tensors that a call is given are live. -/
def KVCall.Live (h : Heap UInt8) : KVCall → Prop
  | .update _ _ newK newV _ => Tenzor.Live h newK ∧ Tenzor.Live h newV
  | _ => True

/-- The cache's storages are as they were, whatever happened to the others. -/
structure KVCache.Untouched (cache : KVCache) (h h' : Heap UInt8) : Prop where
  next_le : h.next ≤ h'.next
  size_eq : ∀ side, ∀ t ∈ cache.buffers side, h'.size t.storage.id = h.size t.storage.id
  bytes_eq : ∀ side, ∀ t ∈ cache.buffers side, h'.bytes t.storage.id = h.bytes t.storage.id

/-- Runs of calls that all meet `P`. The history comes with the state. -/
inductive KVRun (cache : KVCache) (P : KVCall → Prop) (h₀ : Heap UInt8) :
    List KVEvent → Heap UInt8 → Prop
  | start : KVRun cache P h₀ [] h₀
  | elsewhere {log h h'} : KVRun cache P h₀ log h → cache.Untouched h h' → KVRun cache P h₀ log h'
  | returns {log h h'} (call : KVCall) {views : List TensorImpl} : KVRun cache P h₀ log h →
      call.Live h → P call → call.exec cache h = (.ok views, h') →
      KVRun cache P h₀ (call.events h ++ log) h'
  | throws {log h h'} (call : KVCall) {e : Exn} : KVRun cache P h₀ log h →
      call.Live h → P call → call.exec cache h = (.error (.exn e), h') →
      KVRun cache P h₀ log h'

/-- The layer and the shapes are those of the cache, nothing is being traced, and the position
is not negative. -/
structure KVCacheConfig.Shaped (config : KVCacheConfig) (tracing : Bool) (layer : Int)
    (newK newV : TensorImpl) (pos : Int) : Prop where
  not_tracing : tracing = false
  layer_nonneg : 0 ≤ layer
  layer_lt : layer < config.numLayers
  shape_k : newK.shape = [config.batchSize, config.numKvHeads, newK.shape.getD 2 0, config.headDim]
  shape_v : newV.shape = newK.shape
  pos_nonneg : 0 ≤ pos
  len_nonneg : 0 ≤ newK.shape.getD 2 0

/-- The update fits the cache, over the integers, and has its type. -/
structure KVCacheConfig.Acceptable (config : KVCacheConfig) (tracing : Bool) (layer : Int)
    (newK newV : TensorImpl) (pos : Int) : Prop extends
    config.Shaped tracing layer newK newV pos where
  end_le : pos + newK.shape.getD 2 0 ≤ config.maxSeqLen
  dtype_k : newK.dtype = config.dtype
  dtype_v : newV.dtype = config.dtype

/-- The elements of a reader's view are the last ones written. -/
def KVCache.Shows (cache : KVCache) (h : Heap UInt8) (log : List KVEvent) (side : Side)
    (layer : Int) (view : TensorImpl) : Prop :=
  ∀ idx, Within idx view.shape → Within idx cache.config.cacheShape ∧
    elementBytes h.bytes view (view.addr idx) =
      lastWritten cache.config.dtype side layer log idx

/-- The call that reads one side. -/
def KVCall.read (side : Side) : Bool → Int → Int → KVCall := side.pick .getKeys .getValues

/-- What a call should do in a state with this history. -/
structure KVCall.Correct (cache : KVCache) (log : List KVEvent) (h : Heap UInt8)
    (call : KVCall) : Prop where
  no_fault : ∀ h', call.exec cache h ≠ (.error .fault, h')
  throws_untouched : ∀ e h', call.exec cache h = (.error (.exn e), h') → cache.Untouched h h'
  update_throws_iff : ∀ tracing layer newK newV pos, call = .update tracing layer newK newV pos →
    ((∃ e h', call.exec cache h = (.error (.exn e), h')) ↔
      ¬ cache.config.Acceptable tracing layer newK newV pos)
  read_shows : ∀ side tracing layer seqLen views h', call = .read side tracing layer seqLen →
    call.exec cache h = (.ok views, h') → ∃ view, views = [view] ∧ cache.Shows h' log side layer view
  read_returns : ∀ side layer seqLen, call = .read side false layer seqLen → 0 ≤ layer →
    layer < cache.config.numLayers → 0 ≤ seqLen → seqLen ≤ cache.config.maxSeqLen →
    ∃ view, call.exec cache h = (.ok [view], h) ∧
      view.shape = [cache.config.batchSize, cache.config.numKvHeads, seqLen, cache.config.headDim]

/-- The rows of the inputs that are read in place lie apart from what is written before. -/
def KVCache.InputsApart (cache : KVCache) (layer : Int) (newK newV : TensorImpl) (pos : Int) :
    Prop :=
  let n := newK.shape.getD 2 0
  ∀ kCache vCache, cache.kCaches[layer.toNat]? = some kCache →
    cache.vCaches[layer.toNat]? = some vCache →
    (newK.strides = rowMajor newK.shape → ReadsApart cache.config kCache newK n pos) ∧
      (newV.strides = rowMajor newV.shape → ReadsApart cache.config kCache newV n pos ∧
        ReadsApart cache.config vCache newV n pos)

/-- An update with matching shapes meets this when its end is a word and, if it fits, both inputs
have the type of the cache and no row is written over what is still to be read. -/
def KVCall.Meets (cache : KVCache) : KVCall → Prop
  | .update tracing layer newK newV pos =>
    cache.config.Shaped tracing layer newK newV pos →
      pos + newK.shape.getD 2 0 ≤ int64Max ∧
        (pos + newK.shape.getD 2 0 ≤ cache.config.maxSeqLen →
          newK.dtype = cache.config.dtype ∧ newV.dtype = cache.config.dtype ∧
            cache.InputsApart layer newK newV pos)
  | _ => True

/-! ## The cache's own storages -/

/-- Every buffer is allocated, on a storage of its own. -/
structure KVCache.Serving (cache : KVCache) (h : Heap UInt8) : Prop where
  positive : cache.config.Positive
  length_eq : ∀ side, (cache.buffers side).length = cache.config.numLayers.toNat
  buffer : ∀ side, ∀ t ∈ cache.buffers side, BufferOf cache.config h t
  distinct : ∀ side (i : ℕ) (t : TensorImpl) side' (i' : ℕ) (t' : TensorImpl),
    (cache.buffers side)[i]? = some t → (cache.buffers side')[i']? = some t' →
    t.storage.id = t'.storage.id → side = side' ∧ i = i'

/-- The buffers hold what the history says. -/
def KVCache.Stores (cache : KVCache) (h : Heap UInt8) (log : List KVEvent) : Prop :=
  ∀ side i t, (cache.buffers side)[i]? = some t → ∀ idx, Within idx cache.config.cacheShape →
    elementBytes h.bytes t (t.addr idx) =
      lastWritten cache.config.dtype side (i : ℕ) log idx

variable {cache : KVCache} {h h' : Heap UInt8} {log : List KVEvent} {layer pos n seqLen : Int}
  {α : Type} {l : List Int} {config : KVCacheConfig} {tracing : Bool}
  {newK newV buffer view t u : TensorImpl} {mid : Heap UInt8} {side : Side}

theorem KVCache.Untouched.refl (cache : KVCache) (h : Heap UInt8) : cache.Untouched h h :=
  ⟨le_rfl, fun _ _ _ => rfl, fun _ _ _ => rfl⟩

theorem KVCache.Serving.untouched (hs : cache.Serving h) (he : Extends h h') :
    cache.Untouched h h' where
  next_le := he.next_le
  size_eq side t ht := he.size_eq _ (hs.buffer side t ht).below
  bytes_eq side t ht := he.bytes_eq _ (hs.buffer side t ht).below

theorem KVCache.Serving.of_sizes (hs : cache.Serving h) (hnext : h.next ≤ h'.next)
    (hsize : ∀ side, ∀ t ∈ cache.buffers side, h'.size t.storage.id = h.size t.storage.id) :
    cache.Serving h' where
  positive := hs.positive
  length_eq := hs.length_eq
  buffer side t ht :=
    { allocated := (hs.buffer side t ht).allocated
      below := (hs.buffer side t ht).below.trans_le hnext
      size_eq := (hsize side t ht).trans (hs.buffer side t ht).size_eq }
  distinct := hs.distinct

theorem KVCache.Stores.of_bytes (hst : cache.Stores h log)
    (hbytes : ∀ side, ∀ t ∈ cache.buffers side, h'.bytes t.storage.id = h.bytes t.storage.id) :
    cache.Stores h' log := by
  intro side i t ht idx hidx
  rw [elementBytes_congr (hbytes side t (mem_of_getElem? ht))]
  exact hst side i t ht idx hidx

/-- A layer in range has its buffer. -/
theorem KVCache.Serving.exists_buffer (hs : cache.Serving h) (side : Side) (hlayer : 0 ≤ layer)
    (hlt : layer < cache.config.numLayers) : ∃ t, (cache.buffers side)[layer.toNat]? = some t := by
  have hlen := hs.length_eq side
  have hin : layer.toNat < (cache.buffers side).length := by omega
  exact ⟨_, getElem?_eq_getElem hin⟩

theorem entry_of_some {l : List α} {i : ℕ} {a : α} (ha : l[i]? = some a) :
    entry l i h = (.ok a, h) := by
  rw [entry, ha]
  rfl

theorem length_eq_four :
    (l.length : Int) = 4 ↔ l = [l.getD 0 0, l.getD 1 0, l.getD 2 0, l.getD 3 0] := by
  constructor
  · intro hlen
    obtain ⟨a, b, c, d, rfl⟩ := List.length_eq_four.mp (by exact_mod_cast hlen)
    rfl
  · intro hl
    rw [hl]
    rfl

theorem KVCacheConfig.checkShapes_eq_ok :
    config.checkShapes tracing layer newK newV pos = .ok () ↔
      config.Shaped tracing layer newK newV pos := by
  simp only [KVCacheConfig.checkShapes, KVCacheConfig.checkLayer, bind_eq_ok, throwIf_eq_ok]
  simp only [TensorImpl.ndim, not_or, not_lt, not_le, ne_eq, not_not, Bool.not_eq_true]
  constructor
  · rintro ⟨-, ⟨hlayer, hlt⟩, -, htracing, -, ⟨hk, -⟩, -, ⟨hb, hh, hd⟩, -, hv, hpos, hn⟩
    refine ⟨htracing, hlayer, hlt, ?_, hv, hpos, hn⟩
    rw [← hb, ← hh, ← hd]
    exact length_eq_four.mp hk
  · rintro ⟨htracing, hlayer, hlt, hk, hv, hpos, hn⟩
    have hlen : (newK.shape.length : Int) = 4 := by
      rw [hk]
      rfl
    have hget : newK.shape.getD 0 0 = config.batchSize ∧ newK.shape.getD 1 0 = config.numKvHeads ∧
        newK.shape.getD 3 0 = config.headDim := by
      rw [hk]
      exact ⟨rfl, rfl, rfl⟩
    exact ⟨(), ⟨hlayer, hlt⟩, (), htracing, (), ⟨hlen, hv ▸ hlen⟩, (), hget, (), hv, hpos, hn⟩

theorem KVCacheConfig.checkEnd_eq_ok :
    config.checkEnd n pos = .ok () ↔ wrap64 (pos + n) ≤ config.maxSeqLen := by
  rw [KVCacheConfig.checkEnd, throwIf_eq_ok, not_lt]

theorem throwing_eq (x : Except Exn α) (h : Heap UInt8) :
    (∃ a, x = .ok a ∧ throwing x h = (.ok a, h)) ∨
      ∃ e, x = .error e ∧ throwing x h = (.error (.exn e), h) := by
  cases x with
  | ok a => exact .inl ⟨a, rfl, rfl⟩
  | error e => exact .inr ⟨e, rfl, rfl⟩

theorem le_prod_of_mem (hpos : ∀ n ∈ l, 0 < n) (hn : n ∈ l) : n ≤ l.prod := by
  induction l with
  | nil => exact absurd hn not_mem_nil
  | cons m l ih =>
    obtain ⟨hm, hl⟩ := forall_mem_cons.mp hpos
    have hprod : 0 < l.prod := Strided.prod_pos hl
    rcases mem_cons.mp hn with rfl | hn
    · exact le_mul_of_one_le_right hm.le hprod
    · exact (ih hl hn).trans (le_mul_of_one_le_left hprod.le hm)

theorem KVCacheConfig.Positive.cacheShape (hp : config.Positive) :
    ∀ n ∈ config.cacheShape, 0 < n := by
  simp only [KVCacheConfig.cacheShape, forall_mem_cons, not_mem_nil, false_implies,
    implies_true, and_true]
  exact ⟨hp.batchSize, hp.numKvHeads, hp.maxSeqLen, hp.headDim⟩

theorem BufferOf.size_le (hp : config.Positive) (hb : BufferOf config h buffer) :
    ∀ n ∈ config.cacheShape, n ≤ int64Max := by
  intro n hn
  have hprod := Strided.prod_pos hp.cacheShape
  have hbytes := (TensorImpl.allocate_ok hb.allocated).2.2.2.1
  have helem : (1 : Int) ≤ dtypeSize config.dtype := by exact_mod_cast dtypeSize_pos config.dtype
  calc n ≤ config.cacheShape.prod := le_prod_of_mem hp.cacheShape hn
    _ ≤ config.cacheShape.prod * dtypeSize config.dtype := le_mul_of_one_le_right hprod.le helem
    _ ≤ int64Max := hbytes

theorem BufferOf.live (hp : config.Positive)
    (hb : BufferOf config h buffer) : Live h buffer where
  wellFormed := TensorImpl.wellFormed_allocate (hb.size_le hp) hb.allocated
  inBounds := TensorImpl.inBounds_allocate hb.allocated
  allocated := hb.below
  size_eq := hb.size_eq

theorem BufferOf.shape_eq (hb : BufferOf config h buffer) : buffer.shape = config.cacheShape :=
  (TensorImpl.allocate_ok hb.allocated).2.2.2.2.1

theorem KVCache.prefixOf_shows (hp : config.Positive) (hb : BufferOf config h buffer)
    (hview : buffer.slice buffer.storage.id 2 0 seqLen 1 = .ok view) {idx : List Int}
    (hidx : Within idx view.shape) : Within idx config.cacheShape ∧
      elementBytes h.bytes view (view.addr idx) = elementBytes h.bytes buffer (buffer.addr idx) := by
  have hre := TensorImpl.reindexes_slice (hb.live hp).wellFormed (hb.live hp).inBounds (by decide)
    hview
  have hdim : (normalizeDim 2 buffer.ndim).toNat = 2 := rfl
  have hstart : normalizeDim 0 (buffer.shape.getD 2 0) = 0 := rfl
  simp only [hdim, hstart, zero_add, mul_one] at hre
  have hsame : idx.set 2 (idx.getD 2 0) = idx := by
    apply ext_getElem?
    intro k
    rw [getElem?_set]
    split_ifs with hk hlt
    · subst hk
      rw [getD_eq_getElem _ _ hlt, getElem?_eq_getElem hlt]
    · subst hk
      exact (getElem?_eq_none (not_lt.mp hlt)).symm
    · rfl
  have hwithin := hre.within idx hidx
  have haddr := hre.addr_eq idx hidx
  rw [hsame] at hwithin haddr
  refine ⟨hb.shape_eq ▸ hwithin, ?_⟩
  obtain ⟨d, first, last, -, -, -, -, -, -, -, -, rfl⟩ := TensorImpl.slice_ok hview
  rw [haddr]
  rfl

theorem sliceReachStep_nonneg {high s : Int} (hn : 0 < n) (hs : 0 ≤ s) (hhigh : 0 ≤ high)
    (hbound : high + (n - 1) * s ≤ int64Max) :
    TensorImpl.sliceReachStep (0, high) (n, s) = .ok (0, high + (n - 1) * s) := by
  have hextent : 0 ≤ (n - 1) * s := mul_nonneg (by omega) hs
  rw [TensorImpl.sliceReachStep_eq hn (by decide) hhigh, min_eq_left hextent, max_eq_right hextent,
    add_zero]
  · rw [min_eq_left hextent, add_zero]
  · rw [max_eq_right hextent]
    exact hbound

/-- The empty view of a buffer. -/
theorem KVCache.prefixOf_empty (hp : config.Positive) (hb : BufferOf config h buffer) :
    ∃ view, buffer.slice buffer.storage.id 2 0 0 1 = .ok view ∧
      view.shape = config.inputShape 0 := by
  obtain ⟨-, -, -, -, hshape, hstrides, hoff, -⟩ := TensorImpl.allocate_ok hb.allocated
  have hS := hp.maxSeqLen
  have hD := hp.headDim
  have hHS : 0 < config.numKvHeads * (config.maxSeqLen * config.headDim) :=
    mul_pos hp.numKvHeads (mul_pos hS hD)
  have hSD : 0 < config.maxSeqLen * config.headDim := mul_pos hS hD
  have hprod : config.batchSize * (config.numKvHeads * (config.maxSeqLen * config.headDim)) ≤
      int64Max := by
    have hle := numel_le (TensorImpl.allocate_ok hb.allocated).2.2.1
    simp only [KVCacheConfig.cacheShape, prod_cons, prod_nil, mul_one] at hle
    exact hle
  have hB : (config.batchSize - 1) * (config.numKvHeads * (config.maxSeqLen * config.headDim)) +
      config.numKvHeads * (config.maxSeqLen * config.headDim) ≤ int64Max := by
    rwa [sub_mul, one_mul, sub_add_cancel]
  have hH : (config.numKvHeads - 1) * (config.maxSeqLen * config.headDim) +
      config.maxSeqLen * config.headDim = config.numKvHeads * (config.maxSeqLen * config.headDim) := by
    rw [sub_mul, one_mul, sub_add_cancel]
  have hrest : config.headDim ≤ config.maxSeqLen * config.headDim :=
    le_mul_of_one_le_left hD.le hS
  have hlow : 0 ≤ (config.batchSize - 1) *
      (config.numKvHeads * (config.maxSeqLen * config.headDim)) :=
    mul_nonneg (by have := hp.batchSize; omega) hHS.le
  have hmid : 0 ≤ (config.numKvHeads - 1) * (config.maxSeqLen * config.headDim) :=
    mul_nonneg (by have := hp.numKvHeads; omega) hSD.le
  -- The empty axis is passed over; the others stay below the number of elements.
  have hfold : ((config.cacheShape.set 2 0).zip (rowMajor config.cacheShape)).foldlM
      TensorImpl.sliceReachStep (0, 0) = .ok (0, 0 + (config.batchSize - 1) *
        (config.numKvHeads * (config.maxSeqLen * config.headDim)) +
        (config.numKvHeads - 1) * (config.maxSeqLen * config.headDim) +
        (config.headDim - 1) * 1) := by
    simp only [KVCacheConfig.cacheShape, rowMajor, set_cons_succ, set_cons_zero,
      zip_cons_cons, zip_nil_right, prod_cons, prod_nil, mul_one]
    apply foldlM_cons_eq_ok.mpr ⟨_, sliceReachStep_nonneg hp.batchSize hHS.le le_rfl (by omega), ?_⟩
    apply foldlM_cons_eq_ok.mpr ⟨_, sliceReachStep_nonneg hp.numKvHeads hSD.le (by omega)
      (by omega), ?_⟩
    apply foldlM_cons_eq_ok.mpr ⟨_, rfl, ?_⟩
    refine foldlM_cons_eq_ok.mpr ⟨_, sliceReachStep_nonneg hD (by decide) (by omega) (by omega), ?_⟩
    rw [mul_one]
    rfl
  have hcount : (config.cacheShape.set 2 0).foldl (fun r n => wrap64 (r * n)) 1 = 0 := by
    simp [KVCacheConfig.cacheShape, wrap64]
  refine ⟨{ buffer.copy with
    shape := config.cacheShape.set 2 0
    strides := buffer.strides
    offset := 0
    viewBase := buffer.baseFor buffer.storage.id }, ?_, rfl⟩
  have hndim : buffer.ndim = 4 := by
    rw [TensorImpl.ndim, hshape]
    rfl
  have hget : buffer.shape.getD 2 0 = config.maxSeqLen := by
    rw [hshape]
    rfl
  have hsize : TensorImpl.sliceSize 0 0 1 = 0 := by decide
  have hnorm : normalizeDim 0 config.maxSeqLen = 0 := rfl
  have hdim : normalizeDim 2 4 = 2 := rfl
  have htwo : (2 : Int).toNat = 2 := rfl
  have hword : InInt64 0 := by decide
  simp only [TensorImpl.slice, hndim, hdim, htwo, hget, hnorm, throwIf, checkedMul, checkedAdd,
    hoff, zero_mul, add_zero, if_pos hword, bind, Except.bind, hsize]
  rw [hstrides, hshape]
  have hone : ¬ (1 : Int) ≠ 1 := by decide
  have hsmall : ¬ ((0 : Int) < 0 ∨ config.maxSeqLen < 0) := by omega
  have hrange : ¬ ((2 : Int) < 0 ∨ (4 : Int) ≤ 2) := by decide
  have hstep : ¬ (1 : Int) ≤ 0 := by decide
  simp only [if_neg hone, if_neg hsmall, if_neg hrange, if_neg hstep, if_neg (lt_irrefl (0 : Int)),
    hfold, hcount]
  rfl

/-- The first positions of a buffer are a view of it. -/
theorem KVCache.prefixOf_returns (hp : config.Positive) (hb : BufferOf config h buffer)
    (hn : 0 ≤ seqLen) (hle : seqLen ≤ config.maxSeqLen) :
    ∃ view, buffer.slice buffer.storage.id 2 0 seqLen 1 = .ok view ∧
      view.shape = config.inputShape seqLen := by
  rcases hn.eq_or_lt with rfl | hn'
  · exact prefixOf_empty hp hb
  have hshape := hb.shape_eq
  have hlive := hb.live hp
  have hget : buffer.shape.getD 2 0 = config.maxSeqLen := by
    rw [hshape]
    rfl
  have hlen : 2 < buffer.shape.length := by
    rw [hshape]
    exact (by decide : 2 < 4)
  have hstart : normalizeDim 0 (buffer.shape.getD 2 0) = 0 := rfl
  have hstop : normalizeDim seqLen (buffer.shape.getD 2 0) = seqLen := if_neg (by omega)
  have hsize : TensorImpl.sliceSize 0 seqLen 1 = seqLen := by
    have hword := hb.size_le hp config.maxSeqLen (by simp [KVCacheConfig.cacheShape])
    rw [TensorImpl.sliceSize_exact hn (by decide) (by omega)]
    simp
  have hset : buffer.shape.set 2 seqLen = config.inputShape seqLen := by
    rw [hshape]
    rfl
  have hpos : ∀ n ∈ config.inputShape seqLen, 0 < n := by
    simp only [KVCacheConfig.inputShape, forall_mem_cons, not_mem_nil, false_implies,
      implies_true, and_true]
    exact ⟨hp.batchSize, hp.numKvHeads, hn', hp.headDim⟩
  obtain ⟨view, hview⟩ := @TensorImpl.slice_returns buffer.storage.id buffer 2 0 seqLen 1 2
    hlive.wellFormed hlive.inBounds (by decide) rfl hlen (by rw [hstart]) (by rw [hstop]; exact hn) (by rw [hstop, hget]; exact hle)
    (by decide) (by rw [hstart, hstop, hsize, hset]; exact hpos)
  refine ⟨view, hview, ?_⟩
  obtain ⟨d, first, last, -, hd, hfirst, hlast, -, -, -, -, rfl⟩ := TensorImpl.slice_ok hview
  have hd' : (2 : Int) = d := hd
  obtain rfl : d = 2 := by omega
  rw [hstart] at hfirst
  rw [hstop] at hlast
  subst hfirst hlast
  simp only [hsize, hset]

/-- The elements of the buffers after an update of a layer from `newK` and `newV`. -/
structure KVCache.Updated (cache : KVCache) (h h' : Heap UInt8) (layer : ℕ)
    (newK newV : TensorImpl) (n pos : Int) : Prop where
  next_le : h.next ≤ h'.next
  size_eq : ∀ side, ∀ t ∈ cache.buffers side, h'.size t.storage.id = h.size t.storage.id
  elements : ∀ side i t, (cache.buffers side)[i]? = some t →
    ∀ b g p d, Within [b, g, p, d] cache.config.cacheShape →
      elementBytes h'.bytes t (t.addr [b, g, p, d]) =
        if i = layer ∧ pos ≤ p ∧ p < pos + n then
          elementBytes h.bytes (side.pick newK newV) ((side.pick newK newV).addr [b, g, p - pos, d])
        else elementBytes h.bytes t (t.addr [b, g, p, d])

theorem Live.of_sizes (hl : Live h t) (hnext : h'.next = h.next)
    (hsize : h'.size = h.size) : Live h' t where
  wellFormed := hl.wellFormed
  inBounds := hl.inBounds
  allocated := hnext ▸ hl.allocated
  size_eq := hsize ▸ hl.size_eq

theorem writeBoth_ok {layer : ℕ} {kCache vCache w : TensorImpl} (hs : cache.Serving h)
    (hk : cache.kCaches[layer]? = some kCache) (hv : cache.vCaches[layer]? = some vCache)
    (hu : Source cache.config h u n) (hw : Source cache.config h w n) (hn : 0 ≤ n) (hpos : 0 ≤ pos)
    (hle : pos + n ≤ cache.config.maxSeqLen) (hku : ReadsApart cache.config kCache u n pos)
    (hkw : ReadsApart cache.config kCache w n pos) (hvw : ReadsApart cache.config vCache w n pos) :
    ∃ mid h', cache.config.writeInplace kCache u n pos h = (.ok (), mid) ∧
      cache.config.writeInplace vCache w n pos mid = (.ok (), h') ∧
      cache.Updated h h' layer u w n pos := by
  have hkMem : kCache ∈ cache.buffers .key := mem_of_getElem? hk
  have hvMem : vCache ∈ cache.buffers .value := mem_of_getElem? hv
  obtain ⟨mid, hmid, hwritten⟩ :=
    writeInplace_ok hs.positive (hs.buffer .key _ hkMem) hu hn hpos hle hku
  have hs' : cache.Serving mid := hs.of_sizes hwritten.next_eq.ge
    fun _ _ _ => congrFun hwritten.size_eq _
  have hw' : Source cache.config mid w n :=
    { hw with live := hw.live.of_sizes hwritten.next_eq hwritten.size_eq }
  obtain ⟨h', hh', hwritten'⟩ :=
    writeInplace_ok hs'.positive (hs'.buffer .value _ hvMem) hw' hn hpos hle hvw
  have hne : kCache.storage.id ≠ vCache.storage.id := fun heq =>
    nomatch (hs.distinct .key layer kCache .value layer vCache hk hv heq).1
  refine ⟨mid, h', hmid, hh', ?_, ?_, ?_⟩
  · rw [hwritten'.next_eq, hwritten.next_eq]
  · intro _ _ _
    rw [hwritten'.size_eq, hwritten.size_eq]
  · intro side i t ht b g p d hidx
    by_cases hi : i = layer
    · subst hi
      cases side with
      | key =>
        obtain rfl : t = kCache := Option.some.inj (ht.symm.trans hk)
        rw [elementBytes_congr (hwritten'.others _ hne), hwritten.elements b g p d hidx]
        simp only [true_and, Side.pick]
      | value =>
        obtain rfl : t = vCache := Option.some.inj (ht.symm.trans hv)
        rw [hwritten'.elements b g p d hidx, elementBytes_congr (hwritten.others _ hne.symm)]
        simp only [true_and, Side.pick]
        split
        next hin =>
          exact hwritten.kept w hw hkw _ _ _ _ (within_inputShape hidx hin)
        next => rfl
    · have hk' : t.storage.id ≠ kCache.storage.id := fun heq =>
        hi (hs.distinct side i t .key layer kCache ht hk heq).2
      have hv' : t.storage.id ≠ vCache.storage.id := fun heq =>
        hi (hs.distinct side i t .value layer vCache ht hv heq).2
      rw [if_neg (fun h => hi h.1), elementBytes_congr (hwritten'.others _ hv'),
        elementBytes_congr (hwritten.others _ hk')]

theorem BufferOf.extend (hb : BufferOf config h t)
    (he : Extends h h') : BufferOf config h' t where
  allocated := hb.allocated
  below := hb.below.trans_le he.next_le
  size_eq := (he.size_eq _ hb.below).trans hb.size_eq

/-- The input of an update as it is copied from. -/
theorem MadeContiguous.source (hu : MadeContiguous h mid t u)
    (hshape : t.shape = config.inputShape n)
    (hdtype : t.dtype = config.dtype) : Source config mid u n where
  live := hu.live
  shape := hu.shape.trans hshape
  strides := hshape ▸ hu.strides
  dtype := hu.dtype.trans hdtype

/-- A copy lies apart from everything that was there. -/
theorem MadeContiguous.readsApart {dst : TensorImpl} (hu : MadeContiguous h mid t u)
    (hdst : dst.storage.id < h.next)
    (hapart : t.strides = rowMajor t.shape → ReadsApart config dst t n pos) :
    ReadsApart config dst u n pos := by
  rcases hu.itself_or_copy with ⟨rfl, -, hrow⟩ | hnew
  · exact hapart hrow
  · intro r _ r' _ heq
    omega

/-- What an acceptable update does. -/
theorem KVCache.update_ok (hs : cache.Serving h) (hk : Live h newK) (hv : Live h newV)
    (hacc : cache.config.Acceptable tracing layer newK newV pos)
    (hapart : cache.InputsApart layer newK newV pos) :
    ∃ views h', cache.update tracing layer newK newV pos h = (.ok views, h') ∧
      cache.Updated h h' layer.toNat newK newV (newK.shape.getD 2 0) pos := by
  have hpos := hacc.pos_nonneg
  have hn := hacc.len_nonneg
  have hle := hacc.end_le
  set n := newK.shape.getD 2 0 with hnDef
  obtain ⟨kCache, hkCache⟩ : ∃ t, cache.kCaches[layer.toNat]? = some t :=
    hs.exists_buffer .key hacc.layer_nonneg hacc.layer_lt
  obtain ⟨vCache, hvCache⟩ : ∃ t, cache.vCaches[layer.toNat]? = some t :=
    hs.exists_buffer .value hacc.layer_nonneg hacc.layer_lt
  have hkb := hs.buffer .key _ (mem_of_getElem? hkCache)
  have hvb := hs.buffer .value _ (mem_of_getElem? hvCache)
  obtain ⟨hku, hkw, hvw⟩ : (newK.strides = rowMajor newK.shape →
      ReadsApart cache.config kCache newK n pos) ∧
      (newV.strides = rowMajor newV.shape → ReadsApart cache.config kCache newV n pos) ∧
      (newV.strides = rowMajor newV.shape → ReadsApart cache.config vCache newV n pos) := by
    obtain ⟨hku, hvs⟩ := hapart kCache vCache hkCache hvCache
    exact ⟨hku, fun hrow => (hvs hrow).1, fun hrow => (hvs hrow).2⟩
  -- An input is no larger than a buffer, so a copy of it can be allocated.
  have hfits : Fits (cache.config.inputShape n) cache.config.cacheShape := by
    have hp := hs.positive
    refine .cons ⟨hp.batchSize.le, le_rfl⟩ (.cons ⟨hp.numKvHeads.le, le_rfl⟩
      (.cons ⟨hn, by omega⟩ (.cons ⟨hp.headDim.le, le_rfl⟩ .nil)))
  have hshapeK : newK.shape = cache.config.inputShape n := hacc.shape_k
  have hshapeV : newV.shape = cache.config.inputShape n := hacc.shape_v.trans hshapeK
  have hstrides : computeStrides (cache.config.inputShape n) =
      .ok (rowMajor (cache.config.inputShape n)) :=
    computeStrides_of_fits hfits (TensorImpl.allocate_ok hkb.allocated).2.1
  have halloc : ∀ id, ∃ u, TensorImpl.allocate id (cache.config.inputShape n)
      cache.config.dtype = .ok u := allocate_smaller hfits hkb.allocated
  obtain ⟨u, h₁, hu, hmadeU⟩ := contiguousOnHeap_ok hk (hshapeK ▸ hstrides)
    (by rw [hshapeK, hacc.dtype_k]; exact halloc)
  obtain ⟨w, h₂, hw, hmadeW⟩ := contiguousOnHeap_ok (hv.extend hmadeU.extends_heap)
    (hshapeV ▸ hstrides) (by rw [hshapeV, hacc.dtype_v]; exact halloc)
  have hext : Extends h h₂ := hmadeU.extends_heap.trans hmadeW.extends_heap
  have hsourceU := hmadeU.source hshapeK hacc.dtype_k
  have hs₂ : cache.Serving h₂ := hs.of_sizes hext.next_le (hs.untouched hext).size_eq
  obtain ⟨mid, h', hmid, hh', hupdated⟩ := writeBoth_ok hs₂ hkCache hvCache
    { hsourceU with live := hmadeU.live.extend hmadeW.extends_heap }
    (hmadeW.source hshapeV hacc.dtype_v) hn hpos hle (hmadeU.readsApart hkb.below hku)
    (hmadeW.readsApart (hkb.extend hmadeU.extends_heap).below hkw)
    (hmadeW.readsApart (hvb.extend hmadeU.extends_heap).below hvw)
  have htotal : wrap64 (pos + n) = pos + n := by
    have hword := hkb.size_le hs.positive cache.config.maxSeqLen (by simp [KVCacheConfig.cacheShape])
    exact wrap64_of_nonneg (by omega) (by omega)
  have hend : wrap64 (pos + n) ≤ cache.config.maxSeqLen := htotal.trans_le hle
  obtain ⟨viewK, hviewK, -⟩ := prefixOf_returns hs.positive hkb (add_nonneg hpos hn) hle
  obtain ⟨viewV, hviewV, -⟩ := prefixOf_returns hs.positive hvb (add_nonneg hpos hn) hle
  refine ⟨(viewK, viewV), h', ?_, ?_, ?_, ?_⟩
  · rw [update, bind_of_ok (throwing_of_ok (KVCacheConfig.checkShapes_eq_ok.mpr hacc.toShaped))]
    rw [bind_of_ok (throwing_of_ok (KVCacheConfig.checkEnd_eq_ok.mpr hend)),
      bind_of_ok hu, bind_of_ok hw, bind_of_ok (entry_of_some hkCache),
      bind_of_ok (entry_of_some hvCache), bind_of_ok hmid, bind_of_ok hh', htotal, prefixOf,
      bind_of_ok (throwing_of_ok hviewK), prefixOf, bind_of_ok (throwing_of_ok hviewV)]
    rfl
  · exact hext.next_le.trans hupdated.next_le
  · intro side t ht
    rw [hupdated.size_eq side t ht, (hs.untouched hext).size_eq side t ht]
  · intro side i t ht b g p d hidx
    rw [hupdated.elements side i t ht b g p d hidx,
      elementBytes_congr ((hs.untouched hext).bytes_eq side t (mem_of_getElem? ht))]
    split
    next hin =>
      have hin' := within_inputShape hidx hin.2
      cases side with
      | key =>
        simp only [Side.pick]
        rw [elementBytes_congr (hmadeW.extends_heap.bytes_eq _ hmadeU.live.allocated)]
        exact hmadeU.elements _ (hshapeK ▸ hin')
      | value =>
        simp only [Side.pick]
        rw [hmadeW.elements _ (hshapeV ▸ hin'),
          elementBytes_congr (hmadeU.extends_heap.bytes_eq _ hv.allocated)]
    next => rfl

/-- An update that the cache cannot take throws before it has done anything. -/
theorem KVCache.update_throws (hmeets : (KVCall.update tracing layer newK newV pos).Meets cache)
    (hacc : ¬ cache.config.Acceptable tracing layer newK newV pos) (h : Heap UInt8) :
    ∃ e, cache.update tracing layer newK newV pos h = (.error (.exn e), h) := by
  rcases throwing_eq (cache.config.checkShapes tracing layer newK newV pos) h with
    ⟨_, hok, hrun⟩ | ⟨e, -, hrun⟩
  · have hshaped := KVCacheConfig.checkShapes_eq_ok.mp hok
    obtain ⟨hword, hfits⟩ := hmeets hshaped
    rcases throwing_eq (cache.config.checkEnd (newK.shape.getD 2 0) pos) h with
      ⟨_, hok', -⟩ | ⟨e, -, hrun'⟩
    · have hend := KVCacheConfig.checkEnd_eq_ok.mp hok'
      have hexact : wrap64 (pos + newK.shape.getD 2 0) = pos + newK.shape.getD 2 0 := by
        have := hshaped.pos_nonneg
        have := hshaped.len_nonneg
        exact wrap64_of_nonneg (by omega) hword
      rw [hexact] at hend
      obtain ⟨hk, hv, -⟩ := hfits hend
      exact absurd ⟨hshaped, hend, hk, hv⟩ hacc
    · exact ⟨e, by rw [update, bind_of_ok hrun, bind_of_error hrun']⟩
  · exact ⟨e, by rw [update, bind_of_error hrun]⟩

/-! ## Resets and readers -/

theorem KVCacheConfig.checkLayer_eq (function : String) (layer : Int) (h : Heap UInt8) :
    (0 ≤ layer ∧ layer < config.numLayers ∧
      throwing (config.checkLayer function layer) h = (.ok (), h)) ∨
      ∃ e, throwing (config.checkLayer function layer) h = (.error (.exn e), h) := by
  rcases throwing_eq (config.checkLayer function layer) h with ⟨_, hok, hrun⟩ | ⟨e, -, hrun⟩
  · have hrange := throwIf_eq_ok.mp hok
    exact .inl ⟨by omega, by omega, hrun⟩
  · exact .inr ⟨e, hrun⟩

/-- A whole buffer is cleared. -/
theorem memset_buffer (hp : config.Positive) (hb : BufferOf config h t) :
    ∃ h', h.memset t.storage.id (dataPtr t) 0 config.totalBytes = some h' ∧ h'.next = h.next ∧
      h'.size = h.size ∧ (∀ id ≠ t.storage.id, h'.bytes id = h.bytes id) ∧
      ∀ idx, Within idx config.cacheShape →
        elementBytes h'.bytes t (t.addr idx) = List.replicate (dtypeSize config.dtype) 0 := by
  have hoff : t.offset = 0 := (TensorImpl.allocate_ok hb.allocated).2.2.2.2.2.2.1
  have hdtype : t.dtype = config.dtype := (TensorImpl.allocate_ok hb.allocated).2.2.2.2.2.2.2.1
  have hdata : dataPtr t = 0 := by rw [dataPtr, hoff, zero_mul]
  have hfit := hb.fits
  have hnonneg : 0 ≤ config.batchSize * config.numKvHeads * config.maxSeqLen :=
    mul_nonneg (config.rows_pos hp).le hp.maxSeqLen.le
  have htotal : (config.totalBytes : Int) =
      config.batchSize * config.numKvHeads * config.maxSeqLen * config.tokenBytes := by
    rw [KVCacheConfig.totalBytes, config.asSizeT_mul hp hfit hnonneg le_rfl,
      Int.toNat_of_nonneg (mul_nonneg hnonneg (config.tokenBytes_pos hp).le)]
  have hinside : h.Inside t.storage.id (dataPtr t) config.totalBytes := by
    rw [hdata, Heap.Inside, zero_add, hb.size, htotal]
    exact ⟨le_rfl, le_rfl⟩
  obtain ⟨h', hh', hwritten⟩ := memset_ok 0 hinside
  refine ⟨h', hh', hwritten.next_eq, hwritten.size_eq, hwritten.others, fun idx hidx => ?_⟩
  have hbounds := dot_rowMajor_bounds hidx
  rw [← TensorImpl.addr_allocate hb.allocated] at hbounds
  have hprod : config.cacheShape.prod * (dtypeSize config.dtype : Int) = config.totalBytes := by
    rw [htotal]
    simp only [KVCacheConfig.cacheShape, KVCacheConfig.tokenBytes, prod_cons, prod_nil]
    ring
  rw [elementBytes, hdtype, eq_replicate_iff]
  refine ⟨by simp, fun byte hbyte => ?_⟩
  obtain ⟨k, hk, rfl⟩ := mem_map.mp hbyte
  have hk := mem_range.mp hk
  apply hwritten.inside
  rw [hdata, zero_add, ← hprod]
  constructor
  · have := mul_nonneg hbounds.1 (Int.natCast_nonneg (dtypeSize config.dtype))
    omega
  · exact mul_add_lt hbounds.2 (by omega) (by omega)

/-- The elements of the buffers after some layers have been reset. -/
structure KVCache.Cleared (cache : KVCache) (h h' : Heap UInt8) (layers : ℕ → Prop)
    [DecidablePred layers] : Prop where
  next_eq : h'.next = h.next
  size_eq : h'.size = h.size
  elements : ∀ side i t, (cache.buffers side)[i]? = some t →
    ∀ idx, Within idx cache.config.cacheShape → elementBytes h'.bytes t (t.addr idx) =
      if layers i then List.replicate (dtypeSize cache.config.dtype) 0
      else elementBytes h.bytes t (t.addr idx)

theorem KVCache.resetLayer_ok (hs : cache.Serving h) (hlayer : 0 ≤ layer)
    (hlt : layer < cache.config.numLayers) :
    ∃ h', cache.resetLayer layer h = (.ok (), h') ∧ cache.Cleared h h' (· = layer.toNat) := by
  obtain ⟨kCache, hk⟩ : ∃ t, cache.kCaches[layer.toNat]? = some t :=
    hs.exists_buffer .key hlayer hlt
  obtain ⟨vCache, hv⟩ : ∃ t, cache.vCaches[layer.toNat]? = some t :=
    hs.exists_buffer .value hlayer hlt
  obtain ⟨mid, hmid, hnext, hsize, hothers, hzero⟩ :=
    memset_buffer hs.positive (hs.buffer .key _ (mem_of_getElem? hk))
  have hs' : cache.Serving mid := hs.of_sizes hnext.ge fun _ _ _ => congrFun hsize _
  obtain ⟨h', hh', hnext', hsize', hothers', hzero'⟩ :=
    memset_buffer hs'.positive (hs'.buffer .value _ (mem_of_getElem? hv))
  have hne : kCache.storage.id ≠ vCache.storage.id := fun heq =>
    nomatch (hs.distinct .key _ kCache .value _ vCache hk hv heq).1
  have hcheck : throwing (cache.config.checkLayer "reset_layer" layer) h = (.ok (), h) :=
    throwing_of_ok (throwIf_of_not (by omega))
  refine ⟨h', ?_, hnext'.trans hnext, hsize'.trans hsize, fun side i t ht idx hidx => ?_⟩
  · rw [resetLayer, bind_of_ok hcheck, bind_of_ok (entry_of_some hk),
      bind_of_ok (entry_of_some hv), bind_of_ok (access_of_some hmid)]
    exact access_of_some hh'
  · by_cases hi : i = layer.toNat
    · subst hi
      rw [if_pos rfl]
      cases side with
      | key =>
        obtain rfl : t = kCache := Option.some.inj (ht.symm.trans hk)
        rw [elementBytes_congr (hothers' _ hne)]
        exact hzero idx hidx
      | value =>
        obtain rfl : t = vCache := Option.some.inj (ht.symm.trans hv)
        exact hzero' idx hidx
    · have hk' : t.storage.id ≠ kCache.storage.id := fun heq =>
        hi (hs.distinct side i t .key _ kCache ht hk heq).2
      have hv' : t.storage.id ≠ vCache.storage.id := fun heq =>
        hi (hs.distinct side i t .value _ vCache ht hv heq).2
      rw [if_neg hi, elementBytes_congr (hothers' _ hv'), elementBytes_congr (hothers _ hk')]

theorem KVCache.resetLayers_ok (hs : cache.Serving h) {m : ℕ}
    (hm : m ≤ cache.config.numLayers.toNat) :
    ∃ h', (List.range m).forM (fun i : ℕ => cache.resetLayer i) h = (.ok ⟨⟩, h') ∧
      cache.Cleared h h' (· < m) := by
  induction m with
  | zero => exact ⟨h, rfl, rfl, rfl, fun _ _ _ _ _ _ => (if_neg (Nat.not_lt_zero _)).symm⟩
  | succ m ih =>
    obtain ⟨mid, hmid, hcleared⟩ := ih (by omega)
    have hs' : cache.Serving mid :=
      hs.of_sizes hcleared.next_eq.ge fun _ _ _ => congrFun hcleared.size_eq _
    obtain ⟨h', hh', hcleared'⟩ := resetLayer_ok hs' (Int.natCast_nonneg m) (by omega)
    refine ⟨h', ?_, hcleared'.next_eq.trans hcleared.next_eq,
      hcleared'.size_eq.trans hcleared.size_eq, fun side i t ht idx hidx => ?_⟩
    · rw [range_succ]
      change forM (List.range m ++ [m]) (fun i : ℕ => cache.resetLayer i) h = _
      rw [forM_append]
      refine (bind_of_ok hmid).trans ?_
      rw [forM_cons, bind_of_ok hh']
      rfl
    · rw [hcleared'.elements side i t ht idx hidx, hcleared.elements side i t ht idx hidx]
      split_ifs <;> first | rfl | omega

theorem KVCache.checkRead_eq_ok {function : String} :
    cache.checkRead function tracing layer = .ok () ↔
      (0 ≤ layer ∧ layer < cache.config.numLayers) ∧ tracing = false := by
  simp only [checkRead, KVCacheConfig.checkLayer, bind_eq_ok, throwIf_eq_ok]
  simp only [not_or, not_lt, not_le, Bool.not_eq_true, exists_const]

/-- What both readers do. -/
def KVCache.readSide (cache : KVCache) (side : Side) (tracing : Bool) (layer seqLen : Int) :
    OnHeap TensorImpl :=
  side.pick (cache.getKeys tracing layer seqLen) (cache.getValues tracing layer seqLen)

theorem KVCache.readSide_eq (side : Side) (tracing : Bool) (layer seqLen : Int) :
    cache.readSide side tracing layer seqLen = (do
      throwing (cache.checkRead (side.pick "get_keys" "get_values") tracing layer)
      let buffer ← entry (cache.buffers side) layer.toNat
      prefixOf buffer seqLen) := by
  cases side <;> rfl

theorem KVCall.read_exec (side : Side) (tracing : Bool) (layer seqLen : Int) :
    (KVCall.read side tracing layer seqLen).exec cache = (do
      let view ← cache.readSide side tracing layer seqLen
      return [view]) := by
  cases side <;> rfl

theorem KVCall.read_of_ok (hread : cache.readSide side tracing layer seqLen h = (.ok view, h')) :
    (KVCall.read side tracing layer seqLen).exec cache h = (.ok [view], h') := by
  rw [read_exec]
  exact bind_of_ok hread

theorem KVCall.read_of_error {e : Failure}
    (hread : cache.readSide side tracing layer seqLen h = (.error e, h')) :
    (KVCall.read side tracing layer seqLen).exec cache h = (.error e, h') := by
  rw [read_exec]
  exact bind_of_error hread

/-- A reader throws, or returns a view of the buffer of its layer. -/
theorem KVCache.read_cases (hs : cache.Serving h) (side : Side) (tracing : Bool)
    (layer seqLen : Int) :
    (∃ e, (KVCall.read side tracing layer seqLen).exec cache h = (.error (.exn e), h)) ∨
      ∃ t view, 0 ≤ layer ∧ (cache.buffers side)[layer.toNat]? = some t ∧
        t.slice t.storage.id 2 0 seqLen 1 = .ok view ∧
        (KVCall.read side tracing layer seqLen).exec cache h = (.ok [view], h) := by
  rcases throwing_eq (cache.checkRead (side.pick "get_keys" "get_values") tracing layer) h with
    ⟨_, hok, hrun⟩ | ⟨e, -, hrun⟩
  · obtain ⟨⟨hlayer, hlt⟩, -⟩ := checkRead_eq_ok.mp hok
    obtain ⟨t, ht⟩ := hs.exists_buffer side hlayer hlt
    rcases throwing_eq (t.slice t.storage.id 2 0 seqLen 1) h with
      ⟨view, hview, hslice⟩ | ⟨e, -, hslice⟩
    · refine .inr ⟨t, view, hlayer, ht, hview, ?_⟩
      apply KVCall.read_of_ok
      rw [readSide_eq, bind_of_ok hrun, bind_of_ok (entry_of_some ht), prefixOf, hslice]
    · refine .inl ⟨e, KVCall.read_of_error ?_⟩
      rw [readSide_eq, bind_of_ok hrun, bind_of_ok (entry_of_some ht), prefixOf, hslice]
  · refine .inl ⟨e, KVCall.read_of_error ?_⟩
    rw [readSide_eq, bind_of_error hrun]

/-- A reader of a layer in range returns the positions that it is asked for. -/
theorem KVCache.read_returns (hs : cache.Serving h) (side : Side) (hlayer : 0 ≤ layer)
    (hlt : layer < cache.config.numLayers) (hn : 0 ≤ seqLen)
    (hle : seqLen ≤ cache.config.maxSeqLen) :
    ∃ view, (KVCall.read side false layer seqLen).exec cache h = (.ok [view], h) ∧
      view.shape = cache.config.inputShape seqLen := by
  obtain ⟨t, ht⟩ := hs.exists_buffer side hlayer hlt
  obtain ⟨view, hview, hshape⟩ :=
    prefixOf_returns hs.positive (hs.buffer side t (mem_of_getElem? ht)) hn hle
  refine ⟨view, ?_, hshape⟩
  apply KVCall.read_of_ok
  rw [readSide_eq, bind_of_ok (throwing_of_ok (checkRead_eq_ok.mpr ⟨⟨hlayer, hlt⟩, rfl⟩)),
    bind_of_ok (entry_of_some ht), prefixOf, throwing_of_ok hview]

end Tenzor
