import Tenzor.Lib.Tiling
import Mathlib.Data.Finmap
import Mathlib.Data.Finset.Max

/-!
# The CUDA caching allocator

One device of `CachingAllocator`. Freed blocks stay in a cache: `allocate`
takes the smallest cached block that is large enough and splits off what is
left over, `free` joins the freed block with its free neighbours of the same
`cudaMalloc` region.

## Implementation notes

A `Block` is an object of `heap`; `allBlocks` owns it, `blocksByAddr` and
`freeBlocks` point at it. `none` is an access to a `Block` that has been
destroyed. Addresses are numbers. A call that throws keeps the state it left.
The driver is a parameter; events and the event pool do not touch the blocks
and are not modelled, nor are the counters of calls.
-/

namespace Tenzor

open Tiling

/-- The address of a `Block` object on the host. -/
abbrev BlockRef := ℕ

abbrev Stream := ℕ

/-- The result of unsigned 64-bit arithmetic. -/
def sizeT (n : ℕ) : ℕ := n % 18446744073709551616

def sizeMax : ℕ := 18446744073709551615

structure Block where
  ptr : ℕ
  size : ℕ
  allocated : Bool
  stream : Stream
  originalPtr : ℕ
  deriving DecidableEq, Repr

/-- `BlockComparator`: by size, then by address. -/
def Block.before (a b : Block) : Bool :=
  if a.size ≠ b.size then a.size < b.size else a.ptr < b.ptr

/-- Neither block is before the other. -/
def Block.equivalent (a b : Block) : Bool := !a.before b && !b.before a

structure MemoryStats where
  allocatedBytes : ℕ
  reservedBytes : ℕ
  cachedBytes : ℕ
  deriving DecidableEq, Repr

/-- What the driver holds: its live regions by address, how often it was
called and the regions given back to it. -/
structure Driver where
  calls : ℕ
  regions : Finmap fun _ : ℕ => ℕ
  freed : List Span

/-- The CUDA runtime: whether `cudaSetDevice` succeeds and what `cudaMalloc`
answers, at a call number and with the regions that are live. -/
structure CudaRuntime where
  setDevice : ℕ → Bool
  malloc : ℕ → (Finmap fun _ : ℕ => ℕ) → ℕ → Option ℕ

inductive AllocExn
  | badAlloc
  | runtimeError (what : String)
  | invalidArgument (what : String)
  deriving DecidableEq, Repr

structure Settings where
  alignment : ℕ := 512
  maxCachedMemory : ℕ := 0
  mergeEnabled : Bool := true
  minSplitSize : ℕ := 512

structure DeviceAllocator where
  heap : BlockRef → Option Block
  nextRef : BlockRef
  freeBlocks : List BlockRef
  allBlocks : Finmap fun _ : ℕ => BlockRef
  blocksByAddr : Finmap fun _ : ℕ => BlockRef
  stats : MemoryStats
  driver : Driver

namespace DeviceAllocator

/-- A device that has not been used. -/
def empty : DeviceAllocator where
  heap := fun _ => none
  nextRef := 0
  freeBlocks := []
  allBlocks := ∅
  blocksByAddr := ∅
  stats := ⟨0, 0, 0⟩
  driver := ⟨0, ∅, []⟩

variable (d : DeviceAllocator)

def put (r : BlockRef) (b : Block) : DeviceAllocator :=
  { d with heap := Function.update d.heap r (some b) }

def withStats (s : MemoryStats) : DeviceAllocator := { d with stats := s }

/-- `all_blocks[b.ptr] = make_unique<Block>(b)`, which destroys the object the
key held before, and `blocks_by_addr[b.ptr] = ..`. -/
def own (b : Block) : DeviceAllocator :=
  let heap := match d.allBlocks.lookup b.ptr with
    | some old => Function.update d.heap old none
    | none => d.heap
  { d with
    heap := Function.update heap d.nextRef (some b)
    nextRef := d.nextRef + 1
    allBlocks := d.allBlocks.insert b.ptr d.nextRef
    blocksByAddr := d.blocksByAddr.insert b.ptr d.nextRef }

/-- Erase the entry of `ptr` from both indexes and destroy its object `r`. -/
def disown (ptr : ℕ) (r : BlockRef) : DeviceAllocator :=
  { d with
    heap := Function.update d.heap r none
    allBlocks := d.allBlocks.erase ptr
    blocksByAddr := d.blocksByAddr.erase ptr }

/-- The members in their order, as the comparator reads them. -/
def members : Option (List (BlockRef × Block)) :=
  d.freeBlocks.mapM fun r => (d.heap r).map (Prod.mk r)

def insertFree (r : BlockRef) : Option DeviceAllocator := do
  let block ← d.heap r
  let members ← d.members
  if members.any fun m => m.2.equivalent block then
    pure d
  else
    let lower := members.takeWhile fun m => m.2.before block
    let upper := members.dropWhile fun m => m.2.before block
    pure { d with freeBlocks := lower.map Prod.fst ++ r :: upper.map Prod.fst }

def eraseFree (block : Block) : Option DeviceAllocator := do
  let members ← d.members
  pure { d with freeBlocks := (members.filter fun m => !m.2.equivalent block).map Prod.fst }

/-- `lower_bound`: the smallest free block of at least `size` bytes. -/
def bestFit (size : ℕ) : Option (Option BlockRef) := do
  let members ← d.members
  pure ((members.find? fun m => !m.2.before ⟨0, size, false, 0, 0⟩).map Prod.fst)

/-- `cudaFree` of the start of a live region; any other address is an error
that the allocator only logs. -/
def cudaFree (ptr : ℕ) : DeviceAllocator :=
  match d.driver.regions.lookup ptr with
  | none => d
  | some n => { d with driver := { d.driver with
      regions := d.driver.regions.erase ptr, freed := d.driver.freed ++ [⟨ptr, n⟩] } }

/-- Another tracked block belongs to the same region. -/
def hasSibling (r : BlockRef) (block : Block) : Bool :=
  decide (∃ addr ∈ d.allBlocks.keys, (d.allBlocks.lookup addr).any fun s =>
    s != r && (d.heap s).any fun other => other.originalPtr == block.originalPtr)

def releaseBlock (r : BlockRef) : Option (DeviceAllocator × Bool) := do
  let block ← d.heap r
  if block.ptr ≠ block.originalPtr then
    pure (d, false)
  else if d.hasSibling r block then
    pure (d, false)
  else
    let d ← d.eraseFree block
    let d := d.cudaFree block.ptr
    let stats := d.stats
    let reserved := if stats.reservedBytes ≥ block.size then stats.reservedBytes - block.size
      else stats.reservedBytes
    let cached := if stats.cachedBytes ≥ block.size then stats.cachedBytes - block.size
      else stats.cachedBytes
    pure ((d.withStats ⟨stats.allocatedBytes, reserved, cached⟩).disown block.ptr r, true)

/-- Release every block that was free when the call began. -/
def emptyCache : Option DeviceAllocator :=
  d.freeBlocks.foldlM (fun d r => Prod.fst <$> d.releaseBlock r) d

/-- Each round takes the largest block out of the set, so the rounds are
bounded by its size. -/
def enforceLoop (settings : Settings) :
    ℕ → DeviceAllocator → List BlockRef → Option (DeviceAllocator × List BlockRef)
  | 0, _, _ => none
  | n + 1, d, skipped =>
    if d.stats.cachedBytes > settings.maxCachedMemory then
      match d.freeBlocks.getLast? with
      | none => some (d, skipped)
      | some r => do
          let (d, released) ←
            { d with freeBlocks := d.freeBlocks.dropLast }.releaseBlock r
          enforceLoop settings n d (if released then skipped else skipped ++ [r])
    else some (d, skipped)

def enforceCacheLimit (settings : Settings) : Option DeviceAllocator := do
  let (d, skipped) ← enforceLoop settings (d.freeBlocks.length + 1) d []
  skipped.foldlM insertFree d

/-- Absorb the following block into `r`. -/
def mergeNext (r : BlockRef) : Option (DeviceAllocator × Bool) := do
  let block ← d.heap r
  let nextPtr := block.ptr + block.size
  match d.allBlocks.lookup nextPtr with
  | none => pure (d, false)
  | some s => do
      let next ← d.heap s
      if !next.allocated && next.originalPtr == block.originalPtr then
        let d ← d.eraseFree next
        let d := d.put r { block with size := sizeT (block.size + next.size) }
        pure (d.disown nextPtr s, true)
      else
        pure (d, false)

/-- The entry of the address index before `ptr`. -/
def predecessor (ptr : ℕ) : Option BlockRef :=
  match (d.blocksByAddr.keys.filter (· < ptr)).max with
  | none => none
  | some addr => d.blocksByAddr.lookup addr

/-- Absorb the preceding block into `r`, which moves to its address. -/
def mergePrev (r : BlockRef) : Option (DeviceAllocator × Bool) := do
  let block ← d.heap r
  if (d.blocksByAddr.lookup block.ptr).isNone then
    pure (d, false)
  else
    match d.predecessor block.ptr with
    | none => pure (d, false)
    | some s => do
        let prev ← d.heap s
        if prev.ptr + prev.size = block.ptr ∧ prev.allocated = false ∧
            prev.originalPtr = block.originalPtr then
          let d ← d.eraseFree prev
          let d := d.put r { block with ptr := prev.ptr, size := sizeT (block.size + prev.size) }
          let d := d.disown prev.ptr s
          -- The entry of `r` moves from its old address to the new one.
          let node ← d.allBlocks.lookup block.ptr
          pure ({ d with
            allBlocks := (d.allBlocks.erase block.ptr).insert prev.ptr node
            blocksByAddr := (d.blocksByAddr.erase block.ptr).insert prev.ptr r }, true)
        else
          pure (d, false)

/-- Each pass that joins takes a block out of the free set, so the passes are
bounded by its size. -/
def mergeLoop (r : BlockRef) : ℕ → DeviceAllocator → Option DeviceAllocator
  | 0, _ => none
  | n + 1, d => do
      let (d, next) ← d.mergeNext r
      let (d, prev) ← d.mergePrev r
      if next || prev then mergeLoop r n d else pure d

def tryMergeBlocks (r : BlockRef) : Option DeviceAllocator :=
  mergeLoop r (d.freeBlocks.length + 1) d

/-- The caller has found `size ≤ block.size`. -/
def splitBlock (settings : Settings) (r : BlockRef) (size : ℕ) : Option DeviceAllocator := do
  let block ← d.heap r
  if block.size < sizeT (size + settings.minSplitSize) then
    pure d
  else
    let remainingSize := block.size - size
    let newRef := d.nextRef
    let d := d.own ⟨block.ptr + size, remainingSize, false, block.stream, block.originalPtr⟩
    let d ← d.insertFree newRef
    let d := d.put r { block with size := size }
    pure (d.withStats { d.stats with cachedBytes := sizeT (d.stats.cachedBytes + remainingSize) })

/-- The block leaves the free set and the cached total. -/
def take (r : BlockRef) (block : Block) (stream : Stream) : DeviceAllocator :=
  let cached := if d.stats.cachedBytes ≥ block.size then d.stats.cachedBytes - block.size else 0
  { d with
    heap := Function.update d.heap r (some { block with stream := stream })
    freeBlocks := d.freeBlocks.erase r
    stats := ⟨d.stats.allocatedBytes, d.stats.reservedBytes, cached⟩ }

def tryAllocateFromCache (settings : Settings) (size : ℕ) (stream : Stream) :
    Option (DeviceAllocator × Option BlockRef) := do
  match ← d.bestFit size with
  | none => pure (d, none)
  | some r => do
      let block ← d.heap r
      let d := d.take r block stream
      if block.size ≥ sizeT (size + settings.minSplitSize) then
        let d ← d.splitBlock settings r size
        pure (d, some r)
      else
        pure (d, some r)

def cudaMalloc (cuda : CudaRuntime) (size : ℕ) : DeviceAllocator × Option ℕ :=
  match cuda.malloc d.driver.calls d.driver.regions size with
  | none => ({ d with driver := { d.driver with calls := d.driver.calls + 1 } }, none)
  | some ptr => ({ d with driver := { d.driver with
      calls := d.driver.calls + 1, regions := d.driver.regions.insert ptr size } }, some ptr)

/-- Evict the cache and ask again, while that gives memory back. -/
def retryMalloc (cuda : CudaRuntime) (size : ℕ) :
    ℕ → DeviceAllocator × Option ℕ → Option (DeviceAllocator × Option ℕ)
  | _, (d, some ptr) => some (d, some ptr)
  | 0, (d, none) => some (d, none)
  | retries + 1, (d, none) => do
      let evicted ← d.emptyCache
      if evicted.stats.reservedBytes < d.stats.reservedBytes then
        retryMalloc cuda size retries (evicted.cudaMalloc cuda size)
      else
        some (evicted, none)

/-- Track a new region as one block. -/
def adopt (ptr size : ℕ) (stream : Stream) : DeviceAllocator :=
  (d.own ⟨ptr, size, false, stream, ptr⟩).withStats
    { d.stats with reservedBytes := sizeT (d.stats.reservedBytes + size) }

def allocateNewBlock (cuda : CudaRuntime) (size : ℕ) (stream : Stream) :
    Option (DeviceAllocator × Except AllocExn BlockRef) :=
  if !cuda.setDevice d.driver.calls then
    some (d, .error (.runtimeError "Failed to set CUDA device"))
  else do
    match ← retryMalloc cuda size 3 (d.cudaMalloc cuda size) with
    | (d, none) => pure (d, .error (.runtimeError "CUDA memory allocation failed"))
    | (d, some ptr) => pure (d.adopt ptr size stream, .ok d.nextRef)

/-- Round up to the alignment, or throw where that passes the largest size. -/
def roundSize (settings : Settings) (size : ℕ) : Option ℕ :=
  if size > sizeMax - (settings.alignment - 1) then none
  else some ((size + settings.alignment - 1) / settings.alignment * settings.alignment)

def markAllocated (r : BlockRef) : Option (DeviceAllocator × Except AllocExn ℕ) := do
  let block ← d.heap r
  let d := d.put r { block with allocated := true }
  pure (d.withStats { d.stats with
    allocatedBytes := sizeT (d.stats.allocatedBytes + block.size) }, .ok block.ptr)

/-- Address `0` is the null pointer. -/
def allocate (cuda : CudaRuntime) (settings : Settings) (size : ℕ) (stream : Stream) :
    Option (DeviceAllocator × Except AllocExn ℕ) :=
  if size = 0 then
    some (d, .ok 0)
  else
    match roundSize settings size with
    | none => some (d, .error .badAlloc)
    | some size => do
        match ← d.tryAllocateFromCache settings size stream with
        | (d, some r) => d.markAllocated r
        | (d, none) =>
          match ← d.allocateNewBlock cuda size stream with
          | (d, .error e) => pure (d, .error e)
          | (d, .ok r) => d.markAllocated r

/-- The block counts as cached from here on. -/
def unmark (r : BlockRef) (block : Block) : DeviceAllocator :=
  let allocated := if d.stats.allocatedBytes ≥ block.size
    then d.stats.allocatedBytes - block.size else d.stats.allocatedBytes
  (d.put r { block with allocated := false }).withStats
    ⟨allocated, d.stats.reservedBytes, sizeT (d.stats.cachedBytes + block.size)⟩

def coalesce (settings : Settings) (r : BlockRef) : Option DeviceAllocator :=
  if settings.mergeEnabled then d.tryMergeBlocks r else some d

def limitCache (settings : Settings) : Option DeviceAllocator :=
  if settings.maxCachedMemory > 0 then d.enforceCacheLimit settings else some d

/-- Join the block with its neighbours, enter it into the free set and enforce
the limit, as the settings ask. -/
def recycle (settings : Settings) (r : BlockRef) : Option DeviceAllocator := do
  let d ← d.coalesce settings r
  let d ← d.insertFree r
  d.limitCache settings

def free (settings : Settings) (ptr : ℕ) : Option (DeviceAllocator × Except AllocExn Unit) :=
  if ptr = 0 then
    some (d, .ok ())
  else
    match d.allBlocks.lookup ptr with
    | none => some (d, .error
        (.runtimeError "Attempted to free pointer not allocated by CachingAllocator"))
    | some r => do
        let block ← d.heap r
        if !block.allocated then
          pure (d, .error (.runtimeError "Attempted to free already freed pointer"))
        else
          let d ← (d.unmark r block).recycle settings r
          pure (d, .ok ())

end DeviceAllocator

def Settings.setAlignment (s : Settings) (alignment : ℕ) : Except AllocExn Settings :=
  if alignment = 0 ∨ alignment &&& (alignment - 1) ≠ 0 then
    .error (.invalidArgument "Alignment must be a power of 2")
  else .ok { s with alignment := alignment }

end Tenzor
