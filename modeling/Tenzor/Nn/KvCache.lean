import Tenzor.Core.TensorBytes
import Tenzor.Lib.Effects
import Tenzor.Lib.RawMemory

/-!
# The key-value cache

Each layer has a key and a value buffer with room for `maxSeqLen` positions. An update copies
its blocks straight into the buffers, at offsets computed from the configuration and the
position it is given; the readers return views.

## Implementation notes

The cache is on the CPU, where its buffers are contiguous from the start and every update goes
through the copy. A pointer is a byte address in its storage; adding an offset wraps. An access
outside the storage, or a copy onto its own source, is a fault. `tracing` is the state of the
tracer at the call.
-/

namespace Tenzor

open Throwing Wrap64 RawMemory Effects

/-- How a call fails: it throws, or it touches memory that it must not. -/
inductive Failure
  | exn (e : Exn)
  | fault

/-- A program over the storages. -/
abbrev OnHeap (α : Type) := Effect (Heap UInt8) Failure α

/-- A computation that may throw. -/
def throwing {α : Type} (x : Except Exn α) : OnHeap α := raise (x.mapError Failure.exn)

/-- An access past the end of a vector is a fault. -/
def entry {α : Type} (l : List α) (i : ℕ) : OnHeap α := raise (l[i]?.elim (.error .fault) .ok)

/-- What `memcpy` and `memset` leave. -/
def access (after : Heap UInt8 → Option (Heap UInt8)) : OnHeap Unit := fun h =>
  match after h with
  | some h' => (.ok (), h')
  | none => (.error .fault, h)

/-- `zeros`: a tensor on a new storage. -/
def zeros (shape : List Int) (dtype : DType) : OnHeap TensorImpl := do
  let h ← get
  let t ← throwing (TensorImpl.allocate h.next shape dtype)
  set (h.alloc t.storage.sizeBytes fun _ => 0)
  return t

/-- The bytes of a copy in row-major order. -/
def copiedBytes (h : Heap UInt8) (t : TensorImpl) (a : Int) : UInt8 :=
  let size : Int := dtypeSize t.dtype
  h.bytes t.storage.id (t.contiguousSource (a / size) * size + a % size)

/-- `is_contiguous() ? t : t.contiguous()`. A copy is on a new storage. -/
def contiguousOnHeap (t : TensorImpl) : OnHeap TensorImpl := do
  let contiguous ← throwing t.isContiguous
  if contiguous then return t
  else
    let h ← get
    let copy ← throwing (TensorImpl.allocate h.next t.shape t.dtype)
    set (h.alloc copy.storage.sizeBytes (copiedBytes h t))
    return copy

/-- `data_ptr()`, from the start of the storage. -/
def dataPtr (t : TensorImpl) : Int := t.offset * dtypeSize t.dtype

structure KVCacheConfig where
  numLayers : Int
  maxSeqLen : Int
  numKvHeads : Int
  headDim : Int
  batchSize : Int := 1
  dtype : DType := .float32

/-- The shape of every buffer. -/
def KVCacheConfig.cacheShape (config : KVCacheConfig) : List Int :=
  [config.batchSize, config.numKvHeads, config.maxSeqLen, config.headDim]

structure KVCache where
  config : KVCacheConfig
  kCaches : List TensorImpl
  vCaches : List TensorImpl

def KVCacheConfig.check (config : KVCacheConfig) : Except Exn Unit := do
  throwIf (config.numLayers ≤ 0) (.invalidArgument "KVCache: num_layers must be positive")
  throwIf (config.maxSeqLen ≤ 0) (.invalidArgument "KVCache: max_seq_len must be positive")
  throwIf (config.numKvHeads ≤ 0) (.invalidArgument "KVCache: num_kv_heads must be positive")
  throwIf (config.headDim ≤ 0) (.invalidArgument "KVCache: head_dim must be positive")
  throwIf (config.batchSize ≤ 0) (.invalidArgument "KVCache: batch_size must be positive")

/-- One round of the loop that allocates the buffers. -/
def allocateLayer (config : KVCacheConfig) (caches : List TensorImpl × List TensorImpl) :
    OnHeap (List TensorImpl × List TensorImpl) := do
  let k ← zeros config.cacheShape config.dtype
  let v ← zeros config.cacheShape config.dtype
  return (caches.1 ++ [k], caches.2 ++ [v])

/-- The constructor. -/
def KVCache.construct (config : KVCacheConfig) : OnHeap KVCache := do
  throwing config.check
  let caches ← (List.range config.numLayers.toNat).foldlM
    (fun caches _ => allocateLayer config caches) ([], [])
  return { config := config, kCaches := caches.1, vCaches := caches.2 }

/-- The range check that every member function begins with. -/
def KVCacheConfig.checkLayer (config : KVCacheConfig) (function : String) (layer : Int) :
    Except Exn Unit :=
  throwIf (layer < 0 ∨ config.numLayers ≤ layer) (.outOfRange
    s!"KVCache::{function}: layer index {layer} out of range [0, {config.numLayers})")

/-- What `update` checks before it computes the end of the written range. -/
def KVCacheConfig.checkShapes (config : KVCacheConfig) (tracing : Bool) (layer : Int)
    (newK newV : TensorImpl) (pos : Int) : Except Exn Unit := do
  config.checkLayer "update" layer
  throwIf (tracing = true) (.runtimeError
    "KVCache::update: cannot be JIT-traced — `pos` is baked into the compiled graph as a constant and the cache buffer is frozen at its trace-time snapshot, so a later call at a different position (the standard autoregressive decode loop) would silently replay stale/wrong-shaped cache content. Call outside jit.compile()/jit.trace().")
  throwIf (newK.ndim ≠ 4 ∨ newV.ndim ≠ 4) (.invalidArgument
    s!"KVCache::update: new_k/new_v must be 4-D [batch, num_kv_heads, new_seq_len, head_dim]; got new_k.ndim()={newK.ndim}, new_v.ndim()={newV.ndim}")
  let newShape := newK.shape
  throwIf (newShape.getD 0 0 ≠ config.batchSize ∨ newShape.getD 1 0 ≠ config.numKvHeads ∨
      newShape.getD 3 0 ≠ config.headDim) (.invalidArgument
    s!"KVCache::update: new_k shape [{newShape.getD 0 0}, {newShape.getD 1 0}, {newShape.getD 2 0}, {newShape.getD 3 0}] does not match cache config \x7bbatch_size={config.batchSize}, num_kv_heads={config.numKvHeads}, *, head_dim={config.headDim}\x7d")
  throwIf (newV.shape ≠ newShape)
    (.invalidArgument "KVCache::update: new_v shape must equal new_k shape")
  let newSeqLen := newShape.getD 2 0
  throwIf (pos < 0 ∨ newSeqLen < 0) (.outOfRange
    s!"KVCache::update: pos ({pos}) and new_seq_len ({newSeqLen}) must be non-negative")

/-- The test of the end of the written range; the sum is not checked for overflow. -/
def KVCacheConfig.checkEnd (config : KVCacheConfig) (newSeqLen pos : Int) : Except Exn Unit :=
  throwIf (config.maxSeqLen < wrap64 (pos + newSeqLen)) (.runtimeError
    s!"KVCache::update: pos ({pos}) + new_seq_len ({newSeqLen}) exceeds max_seq_len ({config.maxSeqLen})")

/-- Where row `r` is written to, as a `size_t`. -/
def KVCacheConfig.dstOff (config : KVCacheConfig) (pos : Int) (r : ℕ) : Int :=
  TensorImpl.asSizeT ((r * config.maxSeqLen + pos) * config.headDim * dtypeSize config.dtype)

/-- Where row `r` is read from, as a `size_t`. -/
def KVCacheConfig.srcOff (config : KVCacheConfig) (newSeqLen : Int) (r : ℕ) : Int :=
  TensorImpl.asSizeT (r * newSeqLen * config.headDim * dtypeSize config.dtype)

/-- The bytes of one row of the input, as a `size_t`. -/
def KVCacheConfig.blockBytes (config : KVCacheConfig) (newSeqLen : Int) : ℕ :=
  (TensorImpl.asSizeT (newSeqLen * config.headDim * dtypeSize config.dtype)).toNat

/-- The address that row `r` is written to. -/
def KVCacheConfig.dstAt (config : KVCacheConfig) (dst : TensorImpl) (pos : Int) (r : ℕ) : Int :=
  wrap64 (dataPtr dst + config.dstOff pos r)

/-- The address that row `r` is read from. -/
def KVCacheConfig.srcAt (config : KVCacheConfig) (src : TensorImpl) (newSeqLen : Int) (r : ℕ) :
    Int :=
  wrap64 (dataPtr src + config.srcOff newSeqLen r)

/-- The number of blocks that an update copies. -/
def KVCacheConfig.rows (config : KVCacheConfig) : ℕ :=
  (wrap64 (config.batchSize * config.numKvHeads)).toNat

/-- The bytes that `reset_layer` clears in each buffer, as a `size_t`. -/
def KVCacheConfig.totalBytes (config : KVCacheConfig) : ℕ :=
  (TensorImpl.asSizeT (config.batchSize * config.numKvHeads * config.maxSeqLen * config.headDim *
    dtypeSize config.dtype)).toNat

/-- `write_inplace`: one `memcpy` for each row. -/
def KVCacheConfig.writeInplace (config : KVCacheConfig) (dst src : TensorImpl)
    (newSeqLen pos : Int) : OnHeap Unit :=
  access fun h => h.copyRows dst.storage.id (config.dstAt dst pos)
    src.storage.id (config.srcAt src newSeqLen) (config.blockBytes newSeqLen) config.rows

namespace KVCache

variable (cache : KVCache)

/-- The positions before `seqLen`, as a view. -/
def prefixOf (buffer : TensorImpl) (seqLen : Int) : OnHeap TensorImpl :=
  throwing (buffer.slice buffer.storage.id 2 0 seqLen 1)

def update (tracing : Bool) (layer : Int) (newK newV : TensorImpl) (pos : Int) :
    OnHeap (TensorImpl × TensorImpl) := do
  throwing (cache.config.checkShapes tracing layer newK newV pos)
  let newSeqLen := newK.shape.getD 2 0
  throwing (cache.config.checkEnd newSeqLen pos)
  let newKContig ← contiguousOnHeap newK
  let newVContig ← contiguousOnHeap newV
  let kCache ← entry cache.kCaches layer.toNat
  let vCache ← entry cache.vCaches layer.toNat
  cache.config.writeInplace kCache newKContig newSeqLen pos
  cache.config.writeInplace vCache newVContig newSeqLen pos
  let totalLen := wrap64 (pos + newSeqLen)
  let cachedK ← prefixOf kCache totalLen
  let cachedV ← prefixOf vCache totalLen
  return (cachedK, cachedV)

/-- What a reader checks. -/
def checkRead (function : String) (tracing : Bool) (layer : Int) : Except Exn Unit := do
  cache.config.checkLayer function layer
  throwIf (tracing = true) (.runtimeError
    s!"KVCache::{function}: cannot be JIT-traced — the cache buffer is frozen at its trace-time snapshot, so a later call would silently return stale content. Call outside jit.compile()/jit.trace().")

def getKeys (tracing : Bool) (layer seqLen : Int) : OnHeap TensorImpl := do
  throwing (cache.checkRead "get_keys" tracing layer)
  let buffer ← entry cache.kCaches layer.toNat
  prefixOf buffer seqLen

def getValues (tracing : Bool) (layer seqLen : Int) : OnHeap TensorImpl := do
  throwing (cache.checkRead "get_values" tracing layer)
  let buffer ← entry cache.vCaches layer.toNat
  prefixOf buffer seqLen


def resetLayer (layer : Int) : OnHeap Unit := do
  throwing (cache.config.checkLayer "reset_layer" layer)
  let kCache ← entry cache.kCaches layer.toNat
  let vCache ← entry cache.vCaches layer.toNat
  access fun h => h.memset kCache.storage.id (dataPtr kCache) 0 cache.config.totalBytes
  access fun h => h.memset vCache.storage.id (dataPtr vCache) 0 cache.config.totalBytes

def reset : OnHeap Unit :=
  (List.range cache.config.numLayers.toNat).forM fun i => cache.resetLayer i

end KVCache

end Tenzor
