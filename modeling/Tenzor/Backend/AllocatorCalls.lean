import Tenzor.Backend.AllocatorSpec

/-!
# The calls of the caching allocator

`free` hands a block back to a tracked state and `allocate` takes one out of
it. The remainder of a split must not be empty: an empty block would be
entered under the address where the next block starts.
-/

namespace Tenzor

open Tiling Function List
open Option (bind_eq_bind bind_some elim_some map_some)

/-- `cudaMalloc` returns fresh regions of the address space, apart from the live ones. -/
structure CudaRuntime.Lawful (cuda : CudaRuntime) : Prop where
  fresh : ∀ k regions n p, cuda.malloc k regions n = some p → regions.lookup p = none
  bounded : ∀ k regions n p, cuda.malloc k regions n = some p →
    0 < p ∧ p + n ≤ 18446744073709551616
  apart : ∀ k regions n p o m, cuda.malloc k regions n = some p → regions.lookup o = some m →
    (Span.mk p n).Apart (Span.mk o m)

/-- A cached block of exactly `size` bytes is handed out without a split. -/
def Settings.KeepsExactFit (settings : Settings) (size : ℕ) : Prop :=
  0 < settings.minSplitSize ∧ size + settings.minSplitSize < 18446744073709551616

namespace DeviceAllocator

variable {d : DeviceAllocator} {held : List BlockRef} {due : ℕ} {d' e : DeviceAllocator}
  {r : BlockRef} {b : Block} {size p : ℕ} {settings : Settings} {cuda : CudaRuntime}

/-- The state in which the freed block is counted as cached. -/
theorem Tracked.unmark (h : Tracked d [] 0) (hb : d.heap r = some b)
    (hallocated : b.allocated = true)
    (hheap : d'.heap = update d.heap r (some { b with allocated := false }))
    (hnext : d'.nextRef = d.nextRef) (hindexed : Indexed d') (hfree : d'.freeBlocks = d.freeBlocks)
    (hdriver : d'.driver = d.driver)
    (hin : d'.stats.allocatedBytes = d.stats.allocatedBytes - b.size)
    (hcached : d'.stats.cachedBytes = d.stats.cachedBytes + b.size)
    (hreserved : d'.stats.reservedBytes = d.stats.reservedBytes) : Tracked d' [r] 0 := by
  have htotal (w : Block → ℕ) : total d'.heap d'.nextRef w + w b =
      total d.heap d.nextRef w + w { b with allocated := false } := by
    rw [hheap, hnext]
    have hupdate : total (update d.heap r _) d.nextRef w + _ = _ :=
      total_update (h.indexed.lt_nextRef hb) (some { b with allocated := false })
    rwa [hb] at hupdate
  have hregions : d'.regions = d.regions := by
    funext o
    rw [regions, regions, hdriver]
  constructor
  · constructor
    · rw [cells_of_update hheap, hregions, map_some]
      have hsame : update d.cells r (some b.cell) = d.cells :=
        (congrArg _ (cells_eq hb).symm).trans (update_eq_self r d.cells)
      rw [show Block.cell { b with allocated := false } = b.cell from rfl, hsame]
      exact h.tiled.tiles
    · rw [hregions]
      exact h.tiled.bounded
  · exact hindexed
  · constructor
    · rw [hfree]
      exact h.free.nodup
    · intro s
      rw [hfree, h.free.mem, hheap]
      rcases eq_or_ne s r with rfl | hne
      · simp [hb, hallocated]
      · simp [hne]
  · have hinuse := htotal Block.inUse
    have hidle := htotal Block.idle
    have hsize := htotal Block.size
    simp only [Block.inUse, Block.idle, hallocated, if_true, Bool.false_eq_true, if_false,
      Nat.add_zero] at hinuse hidle hsize
    constructor
    · rw [hin, h.totals.allocated]
      exact (Nat.eq_sub_of_add_eq hinuse).symm
    · have hsum := h.totals.cached
      rw [hcached]
      exact (congrArg (· + b.size) hsum).trans hidle.symm
    · rw [hreserved, h.totals.reserved]
      exact (Nat.add_right_cancel hsize).symm

theorem unmark_spec (h : Tracked d [] 0) (hb : d.heap r = some b)
    (hallocated : b.allocated = true) : Tracked (d.unmark r b) [r] 0:= by
  have hinuse : b.size ≤ d.stats.allocatedBytes := by
    have hle := le_total (w := Block.inUse) (h.indexed.lt_nextRef hb) hb
    rw [← h.totals.allocated] at hle
    simpa [Block.inUse, hallocated] using hle
  have hfit : sizeT (d.stats.cachedBytes + b.size) = d.stats.cachedBytes + b.size := by
    apply sizeT_of_lt
    have hlt := h.tiled.total_lt d.nextRef
    have hsplit := total_inUse_add_idle (d := d) d.nextRef
    have hcached := h.totals.cached
    have hin := h.totals.allocated
    omega
  apply h.unmark hb hallocated
  · rfl
  · rfl
  · have hindexed : Indexed (d.put r { b with allocated := false }) := h.indexed.put hb rfl
    exact hindexed.congr rfl rfl rfl rfl
  · rfl
  · rfl
  · simp [unmark, withStats, hinuse]
  · simp [unmark, withStats, hfit]
  · rfl

/-- Joining, entering the free set and the cache limit touch free blocks only. -/
theorem recycle_spec (settings : Settings) (h : Tracked d [r] 0) (hb : d.heap r = some b)
    (hidle : b.allocated = false) :
    ∃ d', d.recycle settings r = some d' ∧ Tracked d' [] 0 ∧ Spares d d' := by
  obtain ⟨d₁, hmerge, h₁⟩ : ∃ d₁, d.coalesce settings r = some d₁ ∧ Merges d d₁ r false := by
    rw [coalesce]
    split_ifs
    · exact mergeLoop_spec h hb hidle (Nat.lt_succ_self _)
    · exact ⟨d, rfl, Merges.nothing h hb hidle⟩
  obtain ⟨b₁, hb₁, hidle₁⟩ := h₁.idle
  obtain ⟨l, hinsert, h₂⟩ := insertFree_spec h₁.tracked hb₁ hidle₁ not_mem_nil
  have hspares₂ : Spares d { d₁ with freeBlocks := l } :=
    ⟨h₁.spares.kept, h₁.spares.only, h₁.spares.freed⟩
  simp only [recycle, hmerge, hinsert, bind_eq_bind, bind_some, limitCache]
  split_ifs
  · obtain ⟨d', heq, h', hspares⟩ := enforceCacheLimit_spec settings h₂
    exact ⟨d', heq, h', hspares₂.trans hspares⟩
  · exact ⟨_, rfl, h₂, hspares₂⟩

/-- A call that returns has freed an allocated block; any other leaves the
device as it was. -/
theorem free_spec (settings : Settings) (h : Tracked d [] 0) (ptr : ℕ) :
    ∃ d' res, d.free settings ptr = some (d', res) ∧ Tracked d' [] 0 ∧
      ((d' = d ∧ (res = .ok () → ptr = 0)) ∨
        ∃ r b, d.heap r = some b ∧ b.ptr = ptr ∧ b.allocated = true ∧ res = .ok () ∧
          Spares (d.put r { b with allocated := false }) d') := by
  rw [free]
  split_ifs with hnull
  · exact ⟨d, _, rfl, h, .inl ⟨rfl, fun _ => hnull⟩⟩
  cases hl : d.allBlocks.lookup ptr with
  | none => exact ⟨d, _, rfl, h, .inl ⟨rfl, fun hok => by cases hok⟩⟩
  | some r =>
    obtain ⟨b, hb, hptr⟩ := (h.indexed.keys _ _).mp hl
    simp only [hb, bind_eq_bind, bind_some, Option.pure_def]
    split_ifs with hfreed
    · exact ⟨d, _, rfl, h, .inl ⟨rfl, fun hok => by cases hok⟩⟩
    have hallocated : b.allocated = true := by simpa using hfreed
    have hb₁ : (d.unmark r b).heap r = some { b with allocated := false } := by
      simp [unmark, withStats, put]
    obtain ⟨d', heq, h', hspares⟩ := recycle_spec settings (unmark_spec h hb hallocated) hb₁ rfl
    rw [heq]
    exact ⟨d', .ok (), rfl, h', .inr ⟨r, b, hb, hptr, hallocated, rfl,
      ⟨hspares.kept, hspares.only, hspares.freed⟩⟩⟩

theorem bestFit_spec (h : FreeSet d held) (size : ℕ) :
    ∃ fit, d.bestFit size = some fit ∧ ∀ r, fit = some r →
      r ∈ d.freeBlocks ∧ ∃ b, d.heap r = some b ∧ size ≤ b.size := by
  obtain ⟨ms, hms, hfst, hmem⟩ := members_eq h.live
  refine ⟨_, by rw [bestFit, hms]; rfl, ?_⟩
  intro r hr
  obtain ⟨m, hfind, rfl⟩ := Option.map_eq_some_iff.mp hr
  have hm : m ∈ ms := mem_of_find?_eq_some hfind
  have hfits := find?_some hfind
  by_contra hlt
  have hbefore : m.2.before ⟨0, size, false, 0, 0⟩ = true := by
    simp only [Block.before]
    grind
  simp [hbefore] at hfits

/-- The block that is being handed out is neither free nor counted. -/
theorem take_spec (h : Tracked d [] 0) (hb : d.heap r = some b) (hmem : r ∈ d.freeBlocks)
    (stream : Stream) : Tracked (d.take r b stream) [r] b.size ∧ Spares d (d.take r b stream) := by
  have hidle : b.allocated = false := by
    obtain ⟨-, c, hc, hcidle⟩ := (h.free.mem r).mp hmem
    obtain rfl : b = c := Option.some.inj (hb.symm.trans hc)
    exact hcidle
  have hcached : b.size ≤ d.stats.cachedBytes := by
    have hle := le_total (w := Block.idle) (h.indexed.lt_nextRef hb) hb
    rw [← h.totals.cached] at hle
    simpa [Block.idle, hidle] using hle
  have htotal (w : Block → ℕ) (hw : w { b with stream := stream } = w b) :
      total (d.take r b stream).heap d.nextRef w = total d.heap d.nextRef w := by
    have hupdate : total (update d.heap r _) d.nextRef w + _ = _ :=
      total_update (h.indexed.lt_nextRef hb) (some { b with stream := stream })
    rw [hb, elim_some, elim_some, hw] at hupdate
    exact Nat.add_right_cancel hupdate
  constructor
  · constructor
    · constructor
      · rw [cells_of_update (d := d) rfl, map_some]
        have hsame : update d.cells r (some b.cell) = d.cells :=
          (congrArg _ (cells_eq hb).symm).trans (update_eq_self r d.cells)
        rw [show Block.cell { b with stream := stream } = b.cell from rfl, hsame]
        exact h.tiled.tiles
      · exact h.tiled.bounded
    · have hindexed : Indexed (d.put r { b with stream := stream }) := h.indexed.put hb rfl
      exact hindexed.congr rfl rfl rfl rfl
    · constructor
      · exact h.free.nodup.erase r
      · intro s
        simp only [take, h.free.nodup.mem_erase_iff, h.free.mem, mem_singleton]
        rcases eq_or_ne s r with rfl | hne
        · simp
        · simp [hne]
    · constructor
      · exact h.totals.allocated.trans (htotal Block.inUse rfl).symm
      · have hsum := h.totals.cached
        have hsame := htotal Block.idle rfl
        simp only [take, if_pos hcached] at hsame ⊢
        omega
      · exact h.totals.reserved.trans (htotal Block.size rfl).symm
  · apply Spares.of_free
    · rfl
    · intro s
      rcases eq_or_ne s r with rfl | hne
      · simp [take, hb, hidle]
      · simp [take, update_of_ne hne]

/-- The held block keeps its first `size` bytes; the rest is a new free block. -/
theorem Tracked.split (h : Tracked d [r] b.size) (hb : d.heap r = some b)
    (hidle : b.allocated = false)
    (hpos : 0 < size) (hlt : size < b.size)
    (hheap : d'.heap = update (update d.heap r (some { b with size := size })) d.nextRef
      (some ⟨b.ptr + size, b.size - size, false, b.stream, b.originalPtr⟩))
    (hnext : d'.nextRef = d.nextRef + 1) (hindexed : Indexed d')
    (hfree : d'.freeBlocks.Perm (d.nextRef :: d.freeBlocks)) (hdriver : d'.driver = d.driver)
    (hin : d'.stats.allocatedBytes = d.stats.allocatedBytes)
    (hcached : d'.stats.cachedBytes = d.stats.cachedBytes + (b.size - size))
    (hreserved : d'.stats.reservedBytes = d.stats.reservedBytes) : Tracked d' [r] size := by
  have hnone : d.heap d.nextRef = none := h.indexed.fresh _ le_rfl
  have hr : r ≠ d.nextRef := (h.indexed.lt_nextRef hb).ne
  have hnew : d.nextRef ∉ d.freeBlocks := by
    intro hmem
    obtain ⟨-, c, hc, -⟩ := (h.free.mem _).mp hmem
    rw [hnone] at hc
    cases hc
  have htotal (w : Block → ℕ) : total d'.heap d'.nextRef w + w b = total d.heap d.nextRef w +
      w { b with size := size } + w ⟨b.ptr + size, b.size - size, false, b.stream, b.originalPtr⟩ := by
    have hput : total (update d.heap r (some { b with size := size })) d.nextRef w + _ = _ :=
      total_update (h.indexed.lt_nextRef hb) _
    have hadd : total (update (update d.heap r (some { b with size := size })) d.nextRef _) _ w = _ :=
      total_new (some ⟨b.ptr + size, b.size - size, false, b.stream, b.originalPtr⟩)
    rw [hb, elim_some, elim_some] at hput
    rw [hheap, hnext, hadd, elim_some]
    omega
  have hregions : d'.regions = d.regions := by
    funext o
    rw [regions, regions, hdriver]
  have hhalves : b.span.bytes = (Span.mk b.ptr size).bytes ∪
      (Span.mk (b.ptr + size) (b.size - size)).bytes := by
    rw [← bytes_union rfl, Nat.add_sub_of_le hlt.le]
    rfl
  constructor
  · constructor
    · rw [cells_of_update (d := d.put r { b with size := size }) hheap,
        cells_of_update (d := d) (r := r) rfl, hregions]
      apply h.tiled.tiles.split (cells_eq hb)
      · simp [cells, hnone]
      · exact hpos
      · exact Nat.sub_pos_of_lt hlt
      · exact (Span.apart_iff hpos (Nat.sub_pos_of_lt hlt)).mpr (.inl le_rfl)
      · exact hhalves
    · rw [hregions]
      exact h.tiled.bounded
  · exact hindexed
  · constructor
    · exact hfree.nodup_iff.mpr (nodup_cons.mpr ⟨hnew, h.free.nodup⟩)
    · intro s
      rw [hfree.mem_iff, mem_cons, h.free.mem, hheap]
      rcases eq_or_ne s d.nextRef with rfl | hs
      · simp [hr.symm]
      · rcases eq_or_ne s r with rfl | hsr
        · simp [hr]
        · simp [update_of_ne hsr, hs]
  · have hinuse := htotal Block.inUse
    have hidlesum := htotal Block.idle
    have hsize := htotal Block.size
    simp only [Block.inUse, Block.idle, hidle, Bool.false_eq_true, if_false,
      Nat.add_zero] at hinuse hidlesum hsize
    have hcachedsum := h.totals.cached
    constructor
    · rw [hin, h.totals.allocated]
      exact hinuse.symm
    · omega
    · rw [hreserved, h.totals.reserved]
      omega

theorem splitBlock_spec (h : Tracked d [r] b.size) (hb : d.heap r = some b)
    (hidle : b.allocated = false) (hpos : 0 < size) (hlt : size < b.size)
    (hsplit : sizeT (size + settings.minSplitSize) ≤ b.size) :
    ∃ d', d.splitBlock settings r size = some d' ∧ Tracked d' [r] size ∧ Spares d d' ∧
      d'.heap r = some { b with size := size } := by
  have hr : r ≠ d.nextRef := (h.indexed.lt_nextRef hb).ne
  have hnone : d.heap d.nextRef = none := h.indexed.fresh _ le_rfl
  -- No block starts inside another one.
  have hkey : d.allBlocks.lookup (b.ptr + size) = none := by
    apply h.indexed.lookup_eq_none
    intro s c hc hptr
    have hne : r ≠ s := by
      rintro rfl
      obtain rfl : b = c := Option.some.inj (hb.symm.trans hc)
      omega
    have hmem : c.ptr ∈ b.span.bytes := by
      rw [Span.mem_bytes]
      simp only [Block.span]
      omega
    exact Finset.disjoint_left.mp (span_apart h.tiled hb hc hne) hmem
      (Span.start_mem (s := c.span) (size_pos h.tiled hc))
  generalize hrest : (⟨b.ptr + size, b.size - size, false, b.stream, b.originalPtr⟩ : Block) = rest
  have hrestptr : rest.ptr = b.ptr + size := by rw [← hrest]
  have hkey : d.allBlocks.lookup rest.ptr = none := hrestptr ▸ hkey
  have hown : Indexed (d.own rest) := h.indexed.own hkey
  have hownheap := Indexed.own_heap hkey
  have hlive : ∀ s ∈ (d.own rest).freeBlocks, ∃ c, (d.own rest).heap s = some c := by
    intro s hs
    obtain ⟨c, hc⟩ := h.free.live s hs
    have hne : s ≠ d.nextRef := (h.indexed.lt_nextRef hc).ne
    exact ⟨c, by rw [hownheap, update_of_ne hne, hc]⟩
  have hnew : d.nextRef ∉ d.freeBlocks := by
    intro hmem
    obtain ⟨c, hc⟩ := h.free.live _ hmem
    rw [hnone] at hc
    cases hc
  obtain ⟨l, hinsert, hperm⟩ := insertFree_eq (r := d.nextRef) (b := rest) hown hlive
    (by rw [hownheap, update_self]) hnew
  have hfit : sizeT (d.stats.cachedBytes + (b.size - size)) = d.stats.cachedBytes + (b.size - size) := by
    apply sizeT_of_lt
    have hlt' := h.tiled.total_lt d.nextRef
    have hsum := total_inUse_add_idle (d := d) d.nextRef
    have hcached := h.totals.cached
    omega
  simp only [splitBlock, hb, bind_eq_bind, bind_some, Option.pure_def,
    if_neg (Nat.not_lt.mpr hsplit), hrest, hinsert]
  refine ⟨_, rfl, ?_, ?_, ?_⟩
  · apply h.split hb hidle hpos hlt
    · simp only [withStats, put]
      rw [hownheap, hrest, update_comm hr.symm]
    · rfl
    · have hput : Indexed ((d.own rest).put r { b with size := size }) :=
        hown.put (b := b) (by rw [hownheap, update_of_ne hr, hb]) rfl
      exact hput.congr rfl rfl rfl rfl
    · exact hperm
    · rfl
    · rfl
    · exact hfit
    · rfl
  · apply Spares.of_free
    · rfl
    · intro s
      simp only [withStats, put]
      rw [hownheap]
      rcases eq_or_ne s r with rfl | hsr
      · simp [hb, hidle]
      · rcases eq_or_ne s d.nextRef with rfl | hs
        · simp [update_of_ne hsr, hnone, ← hrest]
        · left
          rw [update_of_ne hsr, update_of_ne hs]
  · simp [withStats, put]

/-- A free block of at least `size` bytes has been set aside for the caller. -/
structure Offers (d d' : DeviceAllocator) (r : BlockRef) (size : ℕ) : Prop where
  tracked : ∃ b, d'.heap r = some b ∧ b.allocated = false ∧ size ≤ b.size ∧ Tracked d' [r] b.size
  spares : Spares d d'

theorem tryAllocateFromCache_spec (settings : Settings) (h : Tracked d [] 0)
    (hpos : 0 < size) (stream : Stream)
    (hexact : ∀ r b, d.bestFit size = some (some r) → d.heap r = some b → b.size = size →
      settings.KeepsExactFit size) :
    ∃ d' fit, d.tryAllocateFromCache settings size stream = some (d', fit) ∧
      (fit = none → d' = d) ∧ ∀ r, fit = some r → Offers d d' r size := by
  obtain ⟨fit, hfit, hspec⟩ := bestFit_spec h.free size
  simp only [tryAllocateFromCache, hfit, bind_eq_bind, bind_some, Option.pure_def]
  cases fit with
  | none => exact ⟨d, none, rfl, fun _ => rfl, fun r hr => by cases hr⟩
  | some r =>
    obtain ⟨hmem, b, hb, hle⟩ := hspec r rfl
    obtain ⟨htake, hspares⟩ := take_spec h hb hmem stream
    have hidle : b.allocated = false := by
      obtain ⟨-, c, hc, hcidle⟩ := (h.free.mem r).mp hmem
      obtain rfl : b = c := Option.some.inj (hb.symm.trans hc)
      exact hcidle
    have hb₁ : (d.take r b stream).heap r = some { b with stream := stream } := by simp [take]
    simp only [hb, bind_some]
    split_ifs with hsplit
    · have hlt : size < b.size := by
        refine lt_of_le_of_ne hle fun heq => ?_
        obtain ⟨hmin, hfits⟩ := hexact r b hfit hb heq.symm
        rw [sizeT_of_lt hfits] at hsplit
        omega
      obtain ⟨d', heq, h', hspares', hheap⟩ := splitBlock_spec
        (b := { b with stream := stream }) htake hb₁ hidle hpos hlt hsplit
      simp only [heq, bind_some]
      refine ⟨d', some r, rfl, fun hf => absurd hf (by simp), ?_⟩
      intro s hs
      obtain rfl := Option.some.inj hs
      exact ⟨⟨_, hheap, hidle, le_rfl, h'⟩, hspares.trans hspares'⟩
    · refine ⟨_, some r, rfl, fun hf => absurd hf (by simp), ?_⟩
      intro s hs
      obtain rfl := Option.some.inj hs
      exact ⟨⟨_, hb₁, hidle, hle, htake⟩, hspares⟩

/-! ## Asking the driver -/

theorem cudaMalloc_none (h : Tracked d [] 0) (hmalloc : d.cudaMalloc cuda size = (d', none)) :
    Tracked d' [] 0 ∧ Spares d d' := by
  unfold cudaMalloc at hmalloc
  split at hmalloc
  · obtain ⟨rfl, -⟩ := Prod.mk.inj hmalloc
    exact ⟨⟨⟨h.tiled.tiles, h.tiled.bounded⟩, h.indexed.congr rfl rfl rfl rfl,
      ⟨h.free.nodup, h.free.mem⟩, ⟨h.totals.allocated, h.totals.cached, h.totals.reserved⟩⟩,
      ⟨fun _ _ hb _ => hb, fun _ _ hb _ => hb, [], by simp, by simp⟩⟩
  · cases hmalloc

/-- The state a request to the driver leaves: tracked, or one allocation away
from a tracked state. -/
def Asked (cuda : CudaRuntime) (size : ℕ) (d : DeviceAllocator) :
    DeviceAllocator × Option ℕ → Prop
  | (d', none) => Tracked d' [] 0 ∧ Spares d d'
  | (d', some p) => ∃ e, Tracked e [] 0 ∧ Spares d e ∧ e.cudaMalloc cuda size = (d', some p)

theorem asked_cudaMalloc (h : Tracked e [] 0) (hspares : Spares d e) :
    Asked cuda size d (e.cudaMalloc cuda size) := by
  rcases hmalloc : e.cudaMalloc cuda size with ⟨d', _ | p⟩
  · obtain ⟨h', hspares'⟩ := cudaMalloc_none h hmalloc
    exact ⟨h', hspares.trans hspares'⟩
  · exact ⟨e, h, hspares, hmalloc⟩

theorem retryMalloc_spec (retries : ℕ) {x : DeviceAllocator × Option ℕ} (hx : Asked cuda size d x) :
    ∃ y, retryMalloc cuda size retries x = some y ∧ Asked cuda size d y := by
  induction retries generalizing x with
  | zero =>
    obtain ⟨d₁, _ | p⟩ := x
    · exact ⟨_, rfl, hx⟩
    · exact ⟨_, rfl, hx⟩
  | succ n ih =>
    obtain ⟨d₁, _ | p⟩ := x
    · obtain ⟨h₁, hspares₁⟩ := hx
      obtain ⟨d₂, hempty, h₂, hspares₂⟩ := emptyCache_spec h₁
      simp only [retryMalloc, hempty, bind_eq_bind, bind_some]
      split_ifs
      · exact ih (asked_cudaMalloc h₂ (hspares₁.trans hspares₂))
      · exact ⟨_, rfl, h₂, hspares₁.trans hspares₂⟩
    · exact ⟨_, rfl, hx⟩

/-- A new region starts as one block, which is being handed out. -/
theorem Tracked.addRegion (h : Tracked d [] 0) (hidle : b.allocated = false) (hpos : 0 < b.size)
    (horig : b.originalPtr = b.ptr) (hregion : d.regions b.ptr = none) (hstart : 0 < b.ptr)
    (hstop : b.ptr + b.size ≤ 18446744073709551616)
    (hapart : ∀ o R, d.regions o = some R → b.span.Apart R)
    (hheap : d'.heap = update d.heap d.nextRef (some b)) (hnext : d'.nextRef = d.nextRef + 1)
    (hindexed : Indexed d') (hfree : d'.freeBlocks = d.freeBlocks)
    (hregions : d'.regions = update d.regions b.ptr (some b.span))
    (hfreed : d'.driver.freed = d.driver.freed)
    (hin : d'.stats.allocatedBytes = d.stats.allocatedBytes)
    (hcached : d'.stats.cachedBytes = d.stats.cachedBytes)
    (hreserved : d'.stats.reservedBytes = sizeT (d.stats.reservedBytes + b.size)) :
    Tracked d' [d.nextRef] b.size ∧ Spares d d' := by
  have hnone : d.heap d.nextRef = none := h.indexed.fresh _ le_rfl
  have htotal (w : Block → ℕ) : total d'.heap d'.nextRef w = total d.heap d.nextRef w + w b := by
    rw [hheap, hnext]
    exact total_new (some b)
  have htiled : Tiled d' := by
    constructor
    · rw [cells_of_update hheap, hregions, map_some,
        show b.cell = ⟨b.span, b.ptr⟩ by rw [Block.cell, horig]]
      exact h.tiled.tiles.addRegion (by simp [cells, hnone]) hregion hpos hapart
    · intro o R hR
      rw [hregions] at hR
      rcases eq_or_ne o b.ptr with rfl | hne
      · obtain rfl : b.span = R := by simpa using hR
        exact ⟨hstart, hstop⟩
      · rw [update_of_ne hne] at hR
        exact h.tiled.bounded o R hR
  have hfit : sizeT (d.stats.reservedBytes + b.size) = d.stats.reservedBytes + b.size := by
    apply sizeT_of_lt
    rw [h.totals.reserved, ← htotal]
    exact htiled.total_lt _
  refine ⟨⟨htiled, hindexed, ⟨?_, ?_⟩, ⟨?_, ?_, ?_⟩⟩, ?_⟩
  · rw [hfree]
    exact h.free.nodup
  · intro s
    rw [hfree, h.free.mem, hheap]
    rcases eq_or_ne s d.nextRef with rfl | hne
    · simp [hnone]
    · simp [hne]
  · rw [hin, htotal, h.totals.allocated]
    simp [Block.inUse, hidle]
  · rw [hcached, htotal, ← h.totals.cached]
    simp [Block.idle, hidle]
  · rw [hreserved, hfit, htotal, h.totals.reserved]
  · apply Spares.of_free hfreed
    intro s
    rcases eq_or_ne s d.nextRef with rfl | hne
    · simp [hnone, hheap, hidle]
    · left
      rw [hheap, update_of_ne hne]

/-- The block of a fresh region can be handed out. -/
theorem adopt_spec {driver : Driver} (h : Tracked d [] 0) (hpos : 0 < size) (hstart : 0 < p)
    (hstop : p + size ≤ 18446744073709551616) (hregion : d.regions p = none)
    (hapart : ∀ o R, d.regions o = some R → (Span.mk p size).Apart R)
    (hregions : driver.regions = d.driver.regions.insert p size)
    (hfreed : driver.freed = d.driver.freed) (stream : Stream) :
    Offers d ({ d with driver := driver }.adopt p size stream) d.nextRef size := by
  -- A block at the start of the new region would share an address with it.
  have hkey : d.allBlocks.lookup p = none := by
    apply h.indexed.lookup_eq_none
    rintro r b hb rfl
    obtain ⟨R, hR, hsub⟩ := regions_inside h.tiled hb
    exact Finset.disjoint_left.mp (hapart _ R hR) (Span.start_mem (s := ⟨b.ptr, size⟩) hpos)
      (hsub (Span.start_mem (s := b.span) (size_pos h.tiled hb)))
  have hindexed : Indexed (d.own ⟨p, size, false, stream, p⟩) := h.indexed.own hkey
  have hheap : (d.own ⟨p, size, false, stream, p⟩).heap = _ := Indexed.own_heap hkey
  have hnew : Tracked ({ d with driver := driver }.adopt p size stream) [d.nextRef] size ∧
      Spares d ({ d with driver := driver }.adopt p size stream) := by
    apply h.addRegion (b := ⟨p, size, false, stream, p⟩) rfl hpos rfl hregion hstart hstop hapart
    · exact hheap
    · rfl
    · exact hindexed.congr rfl rfl rfl rfl
    · rfl
    · funext o
      rcases eq_or_ne o p with rfl | hne
      · simp [regions, adopt, withStats, own, Block.span, hregions]
      · simp [regions, adopt, withStats, own, hregions, Finmap.lookup_insert_of_ne _ hne,
          update_of_ne hne]
    · exact hfreed
    · rfl
    · rfl
    · rfl
  refine ⟨⟨⟨p, size, false, stream, p⟩, ?_, rfl, le_rfl, hnew.1⟩, hnew.2⟩
  exact (congrFun hheap _).trans (update_self _ _ _)

theorem Offers.of_spares (h : Offers e d' r size) (hspares : Spares d e) :
    Offers d d' r size := ⟨h.tracked, hspares.trans h.spares⟩

/-- A successful request has recorded the region and nothing else. -/
theorem cudaMalloc_some (h : d.cudaMalloc cuda size = (d', some p)) :
    cuda.malloc d.driver.calls d.driver.regions size = some p ∧
      ∃ driver, d' = { d with driver := driver } ∧
        driver.regions = d.driver.regions.insert p size ∧ driver.freed = d.driver.freed := by
  unfold cudaMalloc at h
  split at h
  · cases h
  · next hp =>
      obtain ⟨rfl, heq⟩ := Prod.mk.inj h
      obtain rfl := Option.some.inj heq
      exact ⟨hp, _, rfl, rfl, rfl⟩

theorem allocateNewBlock_spec (hcuda : cuda.Lawful) (h : Tracked d [] 0) (hpos : 0 < size)
    (stream : Stream) :
    ∃ d' res, d.allocateNewBlock cuda size stream = some (d', res) ∧
      (∀ e, res = .error e → Tracked d' [] 0 ∧ Spares d d') ∧
      ∀ r, res = .ok r → Offers d d' r size := by
  unfold allocateNewBlock
  split_ifs
  · exact ⟨d, _, rfl, fun _ _ => ⟨h, Spares.refl d⟩, fun r hr => by cases hr⟩
  have hfirst : Asked cuda size d (d.cudaMalloc cuda size) := asked_cudaMalloc h (Spares.refl d)
  obtain ⟨⟨d₁, ptr⟩, hretry, hasked⟩ := retryMalloc_spec 3 hfirst
  simp only [hretry, bind_eq_bind, bind_some, Option.pure_def]
  cases ptr with
  | none => exact ⟨d₁, _, rfl, fun _ _ => hasked, fun r hr => by cases hr⟩
  | some p =>
    obtain ⟨e, he, hspares, hmalloc⟩ := hasked
    obtain ⟨hanswer, driver, rfl, hregions, hfreed⟩ := cudaMalloc_some hmalloc
    obtain ⟨hstart, hstop⟩ := hcuda.bounded _ _ _ _ hanswer
    have hregion : e.regions p = none := by simp [regions, hcuda.fresh _ _ _ _ hanswer]
    have hapart : ∀ o R, e.regions o = some R → (Span.mk p size).Apart R := by
      intro o R hR
      simp only [regions, Option.map_eq_some_iff] at hR
      obtain ⟨m, hm, rfl⟩ := hR
      exact hcuda.apart _ _ _ _ _ _ hanswer hm
    have hoffers := adopt_spec he hpos hstart hstop hregion hapart hregions hfreed stream
    refine ⟨_, _, rfl, fun _ hr => absurd hr (by simp), ?_⟩
    intro r hr
    obtain rfl := Except.ok.inj hr
    exact hoffers.of_spares hspares

/-- Rounding up reaches at least the requested size. -/
theorem roundSize_spec {n : ℕ} (halign : 0 < settings.alignment) (hpos : 0 < size)
    (h : roundSize settings size = some n) : 0 < n ∧ size ≤ n := by
  unfold roundSize at h
  split_ifs at h
  obtain rfl := Option.some.inj h
  have hdiv := Nat.div_add_mod (size + settings.alignment - 1) settings.alignment
  have hmod := Nat.mod_lt (size + settings.alignment - 1) halign
  rw [Nat.mul_comm] at hdiv
  omega

/-- The block set aside is now live. -/
theorem markAllocated_spec (h : Tracked d [r] b.size) (hb : d.heap r = some b)
    (hidle : b.allocated = false) :
    ∃ d', d.markAllocated r = some (d', .ok b.ptr) ∧ Tracked d' [] 0 ∧
      d'.heap = update d.heap r (some { b with allocated := true }) ∧ d'.driver = d.driver := by
  have htotal (w : Block → ℕ) : total (update d.heap r (some { b with allocated := true })) d.nextRef w +
      w b = total d.heap d.nextRef w + w { b with allocated := true } := by
    have hupdate : total (update d.heap r _) d.nextRef w + _ = _ :=
      total_update (h.indexed.lt_nextRef hb) (some { b with allocated := true })
    rwa [hb] at hupdate
  have hinuse := htotal Block.inUse
  have hidlesum := htotal Block.idle
  have hsize := htotal Block.size
  simp only [Block.inUse, Block.idle, hidle, if_true, Bool.false_eq_true, if_false,
    Nat.add_zero] at hinuse hidlesum hsize
  have hin := h.totals.allocated
  have hcached := h.totals.cached
  have hreserved := h.totals.reserved
  have hlt := h.tiled.total_lt d.nextRef
  have hsum := total_inUse_add_idle (d := d) d.nextRef
  have hfit : sizeT (d.stats.allocatedBytes + b.size) = d.stats.allocatedBytes + b.size := by
    apply sizeT_of_lt
    omega
  simp only [markAllocated, hb, bind_eq_bind, bind_some, Option.pure_def]
  refine ⟨_, rfl, ⟨⟨?_, h.tiled.bounded⟩, ?_, ⟨h.free.nodup, ?_⟩, ⟨?_, ?_, ?_⟩⟩, rfl, rfl⟩
  · rw [cells_of_update (d := d) rfl, map_some]
    have hsame : update d.cells r (some b.cell) = d.cells :=
      (congrArg _ (cells_eq hb).symm).trans (update_eq_self r d.cells)
    rw [show Block.cell { b with allocated := true } = b.cell from rfl, hsame]
    exact h.tiled.tiles
  · have hindexed : Indexed (d.put r { b with allocated := true }) := h.indexed.put hb rfl
    exact hindexed.congr rfl rfl rfl rfl
  · intro s
    have hmem := h.free.mem s
    simp only [withStats, put, not_mem_nil, not_false_eq_true, true_and]
    rw [hmem]
    rcases eq_or_ne s r with rfl | hne
    · simp
    · simp [hne]
  · exact hfit.trans ((congrArg (· + b.size) hin).trans hinuse.symm)
  · exact Nat.add_right_cancel (hcached.trans hidlesum.symm)
  · exact hreserved.trans (Nat.add_right_cancel hsize).symm

/-- A call that returns an address has set a block aside and marked it. -/
theorem allocate_spec (hcuda : cuda.Lawful) (h : Tracked d [] 0) (halign : 0 < settings.alignment)
    (stream : Stream)
    (hexact : ∀ n r b, roundSize settings size = some n → d.bestFit n = some (some r) →
      d.heap r = some b → b.size = n → settings.KeepsExactFit n) :
    ∃ d' res, d.allocate cuda settings size stream = some (d', res) ∧ Tracked d' [] 0 ∧
      (Spares d d' ∧ (∀ p, res = .ok p → size = 0) ∨
        ∃ d₁ r b, Spares d d₁ ∧ Tracked d₁ [r] b.size ∧ d₁.heap r = some b ∧
          b.allocated = false ∧ size ≤ b.size ∧ 0 < size ∧ res = .ok b.ptr ∧
          d'.heap = update d₁.heap r (some { b with allocated := true }) ∧
          d'.driver = d₁.driver) := by
  unfold allocate
  split_ifs with hzero
  · exact ⟨d, _, rfl, h, .inl ⟨Spares.refl d, fun _ _ => hzero⟩⟩
  have hpos : 0 < size := Nat.pos_of_ne_zero hzero
  cases hround : roundSize settings size with
  | none => exact ⟨d, _, rfl, h, .inl ⟨Spares.refl d, fun p hp => by cases hp⟩⟩
  | some n =>
    obtain ⟨hn, hle⟩ := roundSize_spec halign hpos hround
    have hmark : ∀ {d₁ r}, Offers d d₁ r n → ∃ d' res, d₁.markAllocated r = some (d', res) ∧
        Tracked d' [] 0 ∧ (Spares d d' ∧ (∀ p, res = .ok p → size = 0) ∨
        ∃ d₁ r b, Spares d d₁ ∧ Tracked d₁ [r] b.size ∧ d₁.heap r = some b ∧
          b.allocated = false ∧ size ≤ b.size ∧ 0 < size ∧ res = .ok b.ptr ∧
          d'.heap = update d₁.heap r (some { b with allocated := true }) ∧
          d'.driver = d₁.driver) := by
      intro d₁ r hoffers
      obtain ⟨b, hb, hidle, hnb, h₁⟩ := hoffers.tracked
      obtain ⟨d', heq, h', hheap, hdriver⟩ := markAllocated_spec h₁ hb hidle
      exact ⟨d', _, heq, h', .inr ⟨d₁, r, b, hoffers.spares, h₁, hb, hidle, hle.trans hnb, hpos,
        rfl, hheap, hdriver⟩⟩
    obtain ⟨d₁, fit, htry, hmiss, hhit⟩ := tryAllocateFromCache_spec settings h hn stream
      fun r b hr hb heq => hexact n r b hround hr hb heq
    simp only [htry, bind_eq_bind, bind_some, Option.pure_def]
    cases fit with
    | some r => exact hmark (hhit r rfl)
    | none =>
      obtain rfl := hmiss rfl
      obtain ⟨d₂, res, hnew, hfail, hok⟩ := allocateNewBlock_spec hcuda h hn stream
      simp only [hnew, bind_some]
      cases res with
      | error e =>
        obtain ⟨h₂, hspares⟩ := hfail e rfl
        exact ⟨d₂, _, rfl, h₂, .inl ⟨hspares, fun p hp => by cases hp⟩⟩
      | ok r => exact hmark (hok r rfl)

end DeviceAllocator

end Tenzor
