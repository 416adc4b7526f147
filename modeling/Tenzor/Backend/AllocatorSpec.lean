import Tenzor.Backend.CachingAllocator
import Mathlib.Tactic.Linarith

/-!
# What each allocator operation keeps

The tracked blocks tile the live regions, the three indexes name exactly the
tracked blocks and the totals are sums over them. Inside an operation some
free blocks are held outside the free set, and `cached_bytes` may still leave
out the block that is being handed out.
-/

namespace Tenzor

open Tiling Function List
open Option (bind_eq_bind bind_some elim_none)

def Block.span (b : Block) : Span := ⟨b.ptr, b.size⟩

def Block.cell (b : Block) : Cell ℕ := ⟨b.span, b.originalPtr⟩

/-- The bytes of a block that count as allocated. -/
def Block.inUse (b : Block) : ℕ := if b.allocated then b.size else 0

/-- The bytes of a block that count as cached. -/
def Block.idle (b : Block) : ℕ := if b.allocated then 0 else b.size

theorem Block.inUse_add_idle (b : Block) : b.inUse + b.idle = b.size := by
  cases h : b.allocated <;> simp [Block.inUse, Block.idle, h]

theorem Block.equivalent_iff {a b : Block} :
    a.equivalent b = true ↔ a.size = b.size ∧ a.ptr = b.ptr := by
  simp only [Block.equivalent, Block.before]
  grind

theorem sizeT_of_lt {n : ℕ} (h : n < 18446744073709551616) : sizeT n = n := Nat.mod_eq_of_lt h

namespace DeviceAllocator

variable {d' : DeviceAllocator} {s r : BlockRef} {b c : Block} {o fuel p : ℕ} {R : Span}
  {l : List BlockRef}

def cells (d : DeviceAllocator) : BlockRef → Option (Cell ℕ) := fun r => (d.heap r).map Block.cell

/-- The live regions of the driver by the address they start at. -/
def regions (d : DeviceAllocator) : ℕ → Option Span :=
  fun o => (d.driver.regions.lookup o).map (Span.mk o)

/-- The two indexes name each block once, under its address. -/
structure Indexed (d : DeviceAllocator) : Prop where
  fresh : ∀ r, d.nextRef ≤ r → d.heap r = none
  keys : ∀ p r, d.allBlocks.lookup p = some r ↔ ∃ b, d.heap r = some b ∧ b.ptr = p
  byAddr : d.blocksByAddr = d.allBlocks

/-- The members of the free set are the free blocks that are not held. -/
structure FreeSet (d : DeviceAllocator) (held : List BlockRef) : Prop where
  nodup : d.freeBlocks.Nodup
  mem : ∀ r, r ∈ d.freeBlocks ↔ r ∉ held ∧ ∃ b, d.heap r = some b ∧ b.allocated = false

/-- The running totals, where `due` bytes of free blocks are not yet counted. -/
structure Totals (d : DeviceAllocator) (due : ℕ) : Prop where
  allocated : d.stats.allocatedBytes = total d.heap d.nextRef Block.inUse
  cached : d.stats.cachedBytes + due = total d.heap d.nextRef Block.idle
  reserved : d.stats.reservedBytes = total d.heap d.nextRef Block.size

/-- The blocks tile the live regions, which lie between address `1` and the
end of the address space. -/
structure Tiled (d : DeviceAllocator) : Prop where
  tiles : Tiles d.cells d.regions
  bounded : ∀ o R, d.regions o = some R → 0 < o ∧ R.stop ≤ 18446744073709551616

structure Tracked (d : DeviceAllocator) (held : List BlockRef) (due : ℕ) : Prop where
  tiled : Tiled d
  indexed : Indexed d
  free : FreeSet d held
  totals : Totals d due

/-- Allocated blocks pass through unchanged, none appears, and no byte of one
lies in a region that was given back. -/
structure Spares (d d' : DeviceAllocator) : Prop where
  kept : ∀ r b, d.heap r = some b → b.allocated = true → d'.heap r = some b
  only : ∀ r b, d'.heap r = some b → b.allocated = true → d.heap r = some b
  freed : ∃ gone, d'.driver.freed = d.driver.freed ++ gone ∧
    ∀ g ∈ gone, ∀ r b, d.heap r = some b → b.allocated = true → b.span.Apart g

theorem Spares.refl (d : DeviceAllocator) : Spares d d where
  kept := fun _ _ hb _ => hb
  only := fun _ _ hb _ => hb
  freed := ⟨[], by simp, by simp⟩

theorem Spares.trans {d d'' : DeviceAllocator} (h : Spares d d') (h' : Spares d' d'') :
    Spares d d'' where
  kept := fun r b hb ha => h'.kept r b (h.kept r b hb ha) ha
  only := fun r b hb ha => h.only r b (h'.only r b hb ha) ha
  freed := by
    obtain ⟨gone, heq, hgone⟩ := h.freed
    obtain ⟨gone', heq', hgone'⟩ := h'.freed
    refine ⟨gone ++ gone', by rw [heq', heq, append_assoc], ?_⟩
    intro g hg r b hb ha
    rcases mem_append.mp hg with hg | hg
    · exact hgone g hg r b hb ha
    · exact hgone' g hg r b (h.kept r b hb ha) ha

/-- A step that only touches free blocks and gives no region back. -/
theorem Spares.of_free {d : DeviceAllocator} (hfreed : d'.driver.freed = d.driver.freed)
    (hheap : ∀ r, d'.heap r = d.heap r ∨
      ((∀ b, d.heap r = some b → b.allocated = false) ∧
        ∀ b, d'.heap r = some b → b.allocated = false)) : Spares d d' where
  kept := by
    intro r b hb ha
    rcases hheap r with heq | ⟨hfree, -⟩
    · rw [heq, hb]
    · simp [hfree b hb] at ha
  only := by
    intro r b hb ha
    rcases hheap r with heq | ⟨-, hfree⟩
    · rw [← heq, hb]
    · simp [hfree b hb] at ha
  freed := ⟨[], by simp [hfreed], by simp⟩

variable {d : DeviceAllocator} {held : List BlockRef} {due : ℕ}

/-! ## The indexes -/

namespace Indexed

variable {r : BlockRef} {b : Block}

theorem lookup_ptr (h : Indexed d) (hb : d.heap r = some b) :
    d.allBlocks.lookup b.ptr = some r := (h.keys b.ptr r).mpr ⟨b, hb, rfl⟩

theorem ptr_inj (h : Indexed d) {s : BlockRef} {c : Block} (hb : d.heap r = some b)
    (hc : d.heap s = some c) (hptr : b.ptr = c.ptr) : r = s := by
  have hr := h.lookup_ptr hb
  rw [hptr, h.lookup_ptr hc] at hr
  exact (Option.some.inj hr).symm

theorem lt_nextRef (h : Indexed d) (hb : d.heap r = some b) : r < d.nextRef := by
  by_contra hle
  rw [h.fresh r (Nat.le_of_not_lt hle)] at hb
  cases hb

/-- No block starts at an address that is no key. -/
theorem lookup_eq_none (h : Indexed d) {p : ℕ} (hp : ∀ r b, d.heap r = some b → b.ptr ≠ p) :
    d.allBlocks.lookup p = none := by
  cases hl : d.allBlocks.lookup p with
  | none => rfl
  | some r =>
    obtain ⟨b, hb, hptr⟩ := (h.keys p r).mp hl
    exact absurd hptr (hp r b hb)

theorem congr {d' : DeviceAllocator} (h : Indexed d) (hheap : d'.heap = d.heap)
    (hnext : d'.nextRef = d.nextRef) (hall : d'.allBlocks = d.allBlocks)
    (haddr : d'.blocksByAddr = d.blocksByAddr) : Indexed d' where
  fresh := by simpa [hheap, hnext] using h.fresh
  keys := by simpa [hheap, hall] using h.keys
  byAddr := by rw [haddr, hall, h.byAddr]

theorem put (h : Indexed d) {b' : Block} (hb : d.heap r = some b)
    (hptr : b'.ptr = b.ptr) : Indexed (d.put r b') where
  fresh := by
    intro s hs
    have hne : s ≠ r := fun heq => absurd (h.lt_nextRef hb) (heq ▸ Nat.not_lt.mpr hs)
    simpa [DeviceAllocator.put, update_of_ne hne] using h.fresh s hs
  keys := by
    intro p s
    simp only [DeviceAllocator.put, h.keys]
    rcases eq_or_ne s r with rfl | hne
    · simp [hb, hptr]
    · simp [update_of_ne hne]
  byAddr := h.byAddr

theorem own_heap (hkey : d.allBlocks.lookup b.ptr = none) :
    (d.own b).heap = update d.heap d.nextRef (some b) := by
  simp [DeviceAllocator.own, hkey]

theorem own (h : Indexed d) (hkey : d.allBlocks.lookup b.ptr = none) :
    Indexed (d.own b) where
  fresh := by
    intro s hs
    have hs' : d.nextRef + 1 ≤ s := hs
    rw [own_heap hkey, update_of_ne (Nat.lt_of_succ_le hs').ne']
    exact h.fresh s (Nat.le_of_succ_le hs')
  keys := by
    intro p s
    have hall : (d.own b).allBlocks = d.allBlocks.insert b.ptr d.nextRef := rfl
    rw [own_heap hkey, hall]
    rcases eq_or_ne s d.nextRef with rfl | hs
    · rcases eq_or_ne p b.ptr with rfl | hp
      · simp
      · simp [Finmap.lookup_insert_of_ne _ hp, h.keys, h.fresh, hp.symm]
    · rcases eq_or_ne p b.ptr with rfl | hp
      · rw [update_of_ne hs, ← h.keys, hkey]
        simp [hs.symm]
      · rw [Finmap.lookup_insert_of_ne _ hp, update_of_ne hs, h.keys]
  byAddr := by simp [DeviceAllocator.own, h.byAddr]

theorem disown (h : Indexed d) (hb : d.heap r = some b) :
    Indexed (d.disown b.ptr r) where
  fresh := by
    intro s hs
    rcases eq_or_ne s r with rfl | hne
    · simp [DeviceAllocator.disown]
    · simpa [DeviceAllocator.disown, update_of_ne hne] using h.fresh s hs
  keys := by
    intro p s
    simp only [DeviceAllocator.disown]
    rcases eq_or_ne p b.ptr with rfl | hp
    · rw [Finmap.lookup_erase]
      rcases eq_or_ne s r with rfl | hs
      · simp
      · rw [update_of_ne hs]
        simp only [reduceCtorEq, false_iff, not_exists, not_and]
        exact fun c hc hptr => hs (h.ptr_inj hc hb hptr)
    · rw [Finmap.lookup_erase_ne hp, h.keys]
      rcases eq_or_ne s r with rfl | hs
      · simp [hb, hp.symm]
      · rw [update_of_ne hs]
  byAddr := by simp [DeviceAllocator.disown, h.byAddr]

end Indexed

theorem members_eq (hlive : ∀ r ∈ d.freeBlocks, ∃ b, d.heap r = some b) :
    ∃ ms, d.members = some ms ∧ ms.map Prod.fst = d.freeBlocks ∧
      ∀ m ∈ ms, d.heap m.1 = some m.2 := by
  unfold members
  revert hlive
  induction d.freeBlocks with
  | nil => exact fun _ => ⟨[], rfl, rfl, by simp⟩
  | cons r rest ih =>
    intro hlive
    obtain ⟨⟨b, hb⟩, hrest⟩ := forall_mem_cons.mp hlive
    obtain ⟨ms, hms, hfst, hmem⟩ := ih hrest
    refine ⟨(r, b) :: ms, ?_, by simp [hfst], ?_⟩
    · simp [mapM_cons, hb, hms]
    · exact forall_mem_cons.mpr ⟨hb, hmem⟩

theorem eraseFree_eq (h : Indexed d) (hlive : ∀ r ∈ d.freeBlocks, ∃ b, d.heap r = some b)
    (hb : d.heap s = some b) :
    d.eraseFree b = some { d with freeBlocks := d.freeBlocks.filter (· ≠ s) } := by
  obtain ⟨ms, hms, hfst, hmem⟩ := members_eq hlive
  simp only [eraseFree, hms, bind_eq_bind, bind_some, Option.pure_def,
    Option.some.injEq]
  congr 1
  rw [← hfst, filter_map]
  congr 1
  apply filter_congr
  intro m hm
  have hiff : m.2.equivalent b = true ↔ m.1 = s := by
    rw [Block.equivalent_iff]
    constructor
    · exact fun heq => h.ptr_inj (hmem m hm) hb heq.2
    · intro heq
      obtain rfl : m.2 = b := Option.some.inj ((heq ▸ hmem m hm).symm.trans hb)
      exact ⟨rfl, rfl⟩
  by_cases hs : m.1 = s
  · simp [hs, hiff.mpr hs]
  · have hne : m.2.equivalent b = false := by
      rw [Bool.eq_false_iff, Ne, hiff]
      exact hs
    simp [hs, hne]

theorem insertFree_eq (h : Indexed d) (hlive : ∀ r ∈ d.freeBlocks, ∃ b, d.heap r = some b)
    (hb : d.heap r = some b) (hr : r ∉ d.freeBlocks) :
    ∃ l, d.insertFree r = some { d with freeBlocks := l } ∧ l.Perm (r :: d.freeBlocks) := by
  obtain ⟨ms, hms, hfst, hmem⟩ := members_eq hlive
  have hnew : ms.any (fun m => m.2.equivalent b) = false := by
    rw [any_eq_false]
    intro m hm heq
    have hrm : m.1 = r := h.ptr_inj (hmem m hm) hb (Block.equivalent_iff.mp heq).2
    exact hr (hfst ▸ mem_map.mpr ⟨m, hm, hrm⟩)
  refine ⟨_, by simp only [insertFree, hb, hms, bind_eq_bind, bind_some, hnew,
    Bool.false_eq_true, if_false, Option.pure_def]; rfl, ?_⟩
  refine perm_middle.trans (Perm.cons r ?_)
  rw [← map_append, takeWhile_append_dropWhile, hfst]

namespace FreeSet

theorem live (h : FreeSet d held) : ∀ r ∈ d.freeBlocks, ∃ b, d.heap r = some b := by
  intro r hr
  obtain ⟨-, b, hb, -⟩ := (h.mem r).mp hr
  exact ⟨b, hb⟩

end FreeSet

/-! ## Cells and totals -/

theorem cells_eq (hb : d.heap r = some b) : d.cells r = some b.cell := by
  simp [cells, hb]

theorem of_cells_eq {c : Cell ℕ} (hc : d.cells r = some c) :
    ∃ b, d.heap r = some b ∧ b.cell = c := by
  simpa [cells] using hc

theorem cells_of_update {x : Option Block} (h : d'.heap = update d.heap r x) :
    d'.cells = update d.cells r (x.map Block.cell) := by
  funext s
  rw [cells, h]
  rcases eq_or_ne s r with rfl | hne
  · simp
  · simp [update_of_ne hne, cells]

theorem regions_inside (h : Tiled d) (hb : d.heap r = some b) :
    ∃ R, d.regions b.originalPtr = some R ∧ b.span.bytes ⊆ R.bytes :=
  h.tiles.inside (cells_eq hb)

/-- A live region starts at its name. -/
theorem regions_start (hR : d.regions o = some R) : R.start = o := by
  simp only [regions, Option.map_eq_some_iff] at hR
  obtain ⟨n, -, rfl⟩ := hR
  rfl

theorem size_pos (h : Tiled d) (hb : d.heap r = some b) : 0 < b.size :=
  h.tiles.pos (cells_eq hb)

theorem span_apart (h : Tiled d) (hb : d.heap r = some b) (hc : d.heap s = some c) (hne : r ≠ s) :
    b.span.Apart c.span :=
  h.tiles.apart (cells_eq hb) (cells_eq hc) hne

/-- A block ends inside the address space. -/
theorem Tiled.end_le (h : Tiled d) (hb : d.heap r = some b) :
    0 < b.ptr ∧ b.ptr + b.size ≤ 18446744073709551616 := by
  obtain ⟨R, hR, hsub⟩ := regions_inside h hb
  obtain ⟨hpos, hstop⟩ := h.bounded _ R hR
  have hstart := regions_start hR
  have hsize := size_pos h hb
  have hfirst := Span.mem_bytes.mp (hsub (Span.start_mem (s := b.span) hsize))
  have hlast : b.ptr + (b.size - 1) ∈ b.span.bytes := by
    rw [Span.mem_bytes]
    simp only [Block.span]
    omega
  have hlast := Span.mem_bytes.mp (hsub hlast)
  simp only [Block.span, Span.stop] at *
  omega

/-- All blocks together are smaller than the address space. -/
theorem Tiled.total_lt (h : Tiled d) (n : ℕ) :
    total d.heap n Block.size < 18446744073709551616 := by
  have hle : total d.heap n (fun b => b.span.size) ≤ (Finset.Ico 1 18446744073709551616).card := by
    apply total_size_le
    · intro r b hb x hx
      have hend := h.end_le hb
      rw [Span.mem_bytes] at hx
      simp only [Block.span] at hx
      rw [Finset.mem_Ico]
      omega
    · intro r s b c hb hc hne
      exact span_apart h hb hc hne
  rw [Nat.card_Ico] at hle
  exact lt_of_le_of_lt hle (by decide)

theorem total_inUse_add_idle (n : ℕ) :
    total d.heap n Block.inUse + total d.heap n Block.idle = total d.heap n Block.size := by
  rw [← total_add]
  congr 1
  funext b
  exact b.inUse_add_idle

/-- Holding back an object that is gone means nothing. -/
theorem FreeSet.unhold (h : FreeSet d (r :: held)) (hr : d.heap r = none) :
    FreeSet d held where
  nodup := h.nodup
  mem := by
    intro s
    rw [h.mem, mem_cons]
    rcases eq_or_ne s r with rfl | hne
    · simp [hr]
    · simp [hne]

theorem Tracked.unhold (h : Tracked d (r :: held) due) (hr : d.heap r = none) :
    Tracked d held due where
  tiled := h.tiled
  indexed := h.indexed
  free := h.free.unhold hr
  totals := h.totals

theorem sole_of_hasSibling (h : Indexed d) (hsib : d.hasSibling r b = false) :
    ∀ s c, d.heap s = some c → c.originalPtr = b.originalPtr → s = r := by
  intro s c hc horig
  by_contra hne
  rw [hasSibling, decide_eq_false_iff_not] at hsib
  apply hsib
  have hl := h.lookup_ptr hc
  refine ⟨c.ptr, Finmap.mem_keys.mpr (Finmap.mem_iff.mpr ⟨s, hl⟩), ?_⟩
  simp [hl, hc, hne, horig]

theorem regions_cudaFree (hR : d.regions o = some R) :
    (d.cudaFree o).regions = update d.regions o none ∧
      (d.cudaFree o).driver.freed = d.driver.freed ++ [R] ∧
      d.cudaFree o = { d with driver := (d.cudaFree o).driver } := by
  simp only [regions, Option.map_eq_some_iff] at hR
  obtain ⟨n, hn, rfl⟩ := hR
  simp only [cudaFree, hn, and_true]
  funext q
  rcases eq_or_ne q o with rfl | hne
  · simp [regions]
  · simp [regions, Finmap.lookup_erase_ne hne, update_of_ne hne]

/-- Drop a block that is alone in its region together with the region. -/
theorem Tracked.drop (h : Tracked d held 0) (hb : d.heap r = some b) (hidle : b.allocated = false)
    (hsole : ∀ s c, d.heap s = some c → c.originalPtr = b.originalPtr → s = r)
    (hheap : d'.heap = update d.heap r none) (hnext : d'.nextRef = d.nextRef)
    (hindexed : Indexed d') (hfree : d'.freeBlocks = d.freeBlocks.filter (· ≠ r))
    (hregions : d'.regions = update d.regions b.originalPtr none)
    (hallocated : d'.stats.allocatedBytes = d.stats.allocatedBytes)
    (hreserved : d'.stats.reservedBytes = d.stats.reservedBytes - b.size)
    (hcached : d'.stats.cachedBytes = d.stats.cachedBytes - b.size) : Tracked d' held 0 := by
  have hcells : ∀ s e, d.cells s = some e → e.home = b.cell.home → s = r := by
    intro s e he hhome
    obtain ⟨c, hc, rfl⟩ := of_cells_eq he
    exact hsole s c hc hhome
  have htotal (w : Block → ℕ) : total d'.heap d'.nextRef w + w b = total d.heap d.nextRef w := by
    rw [hnext]
    have hupdate : total (update d.heap r none) d.nextRef w + _ = _ :=
      total_update (h.indexed.lt_nextRef hb) none
    rwa [hb, elim_none, ← hheap] at hupdate
  have hidlesize : b.idle = b.size := by simp [Block.idle, hidle]
  have hinuse : b.inUse = 0 := by simp [Block.inUse, hidle]
  constructor
  · constructor
    · rw [cells_of_update hheap, hregions]
      exact h.tiled.tiles.dropRegion (cells_eq hb) hcells
    · intro o Q hQ
      rw [hregions] at hQ
      rcases eq_or_ne o b.originalPtr with rfl | hne
      · simp at hQ
      · rw [update_of_ne hne] at hQ
        exact h.tiled.bounded o Q hQ
  · exact hindexed
  · constructor
    · rw [hfree]
      exact h.free.nodup.filter _
    · intro s
      rw [hfree, hheap]
      rcases eq_or_ne s r with rfl | hne
      · simp
      · simp [h.free.mem, hne]
  · constructor
    · have hin := htotal Block.inUse
      rw [hallocated, h.totals.allocated]
      omega
    · have hin := htotal Block.idle
      have hsum := h.totals.cached
      omega
    · have hin := htotal Block.size
      have hsum := h.totals.reserved
      omega

theorem releaseBlock_spec (h : Tracked d held 0) (hb : d.heap r = some b)
    (hidle : b.allocated = false) :
    ∃ d' released, d.releaseBlock r = some (d', released) ∧ Tracked d' held 0 ∧ Spares d d' ∧
      (released = false → d' = d) ∧
      (released = true → d'.heap = update d.heap r none ∧
        d'.freeBlocks = d.freeBlocks.filter (· ≠ r)) := by
  have hkeep : ∃ d' released, some (d, false) = some (d', released) ∧ Tracked d' held 0 ∧
      Spares d d' ∧ (released = false → d' = d) ∧
      (released = true → d'.heap = update d.heap r none ∧
        d'.freeBlocks = d.freeBlocks.filter (· ≠ r)) :=
    ⟨d, false, rfl, h, Spares.refl d, fun _ => rfl, fun hf => absurd hf (by decide)⟩
  simp only [releaseBlock, hb, bind_eq_bind, bind_some, Option.pure_def]
  split_ifs with horig hsib
  · exact hkeep
  · exact hkeep
  rw [not_not] at horig
  rw [Bool.not_eq_true] at hsib
  have hsole := sole_of_hasSibling h.indexed hsib
  obtain ⟨R, hR, hsub⟩ := regions_inside h.tiled hb
  rw [eraseFree_eq h.indexed h.free.live hb, bind_some]
  obtain ⟨hregions, hfreed, hdriver⟩ :=
    regions_cudaFree (d := { d with freeBlocks := d.freeBlocks.filter (· ≠ r) }) (horig ▸ hR)
  have hreserved : b.size ≤ d.stats.reservedBytes := by
    rw [h.totals.reserved]
    exact le_total (h.indexed.lt_nextRef hb) hb
  have hcached : b.size ≤ d.stats.cachedBytes := by
    have hle := le_total (w := Block.idle) (h.indexed.lt_nextRef hb) hb
    rw [← h.totals.cached] at hle
    simpa [Block.idle, hidle] using hle
  rw [hdriver]
  simp only [if_pos hreserved, if_pos hcached]
  refine ⟨_, true, rfl, ?_, ?_, fun hf => absurd hf (by decide), fun _ => ⟨rfl, rfl⟩⟩
  · apply h.drop hb hidle hsole
    · rfl
    · rfl
    · exact (h.indexed.disown hb).congr rfl rfl rfl rfl
    · rfl
    · rw [← horig]
      exact hregions
    · rfl
    · rfl
    · rfl
  · have hne : ∀ s c, d.heap s = some c → c.allocated = true → s ≠ r := by
      rintro s c hc ha rfl
      obtain rfl : b = c := Option.some.inj (hb.symm.trans hc)
      simp [hidle] at ha
    constructor
    · intro s c hc ha
      simp [disown, withStats, update_of_ne (hne s c hc ha), hc]
    · intro s c hc ha
      rcases eq_or_ne s r with rfl | hs
      · simp [disown, withStats] at hc
      · simpa [disown, withStats, update_of_ne hs] using hc
    · refine ⟨[R], hfreed, ?_⟩
      intro g hg s c hc ha
      obtain rfl := mem_singleton.mp hg
      have hcells : ∀ s e, d.cells s = some e → e.home = b.cell.home → s = r := by
        intro s e he hhome
        obtain ⟨c, hc, rfl⟩ := of_cells_eq he
        exact hsole s c hc hhome
      rw [← h.tiled.tiles.span_eq_of_sole (cells_eq hb) hR hcells]
      exact span_apart h.tiled hc hb (hne s c hc ha)

theorem releaseAll_spec (h : Tracked d held 0) (hnodup : l.Nodup)
    (hl : ∀ r ∈ l, ∃ b, d.heap r = some b ∧ b.allocated = false) :
    ∃ d', l.foldlM (fun d r => Prod.fst <$> d.releaseBlock r) d = some d' ∧
      Tracked d' held 0 ∧ Spares d d' := by
  induction l generalizing d with
  | nil => exact ⟨d, rfl, h, Spares.refl d⟩
  | cons r rest ih =>
    obtain ⟨hr, hrest⟩ := nodup_cons.mp hnodup
    obtain ⟨⟨b, hb, hidle⟩, hl⟩ := forall_mem_cons.mp hl
    obtain ⟨d₁, released, hrelease, h₁, hspare, hkept, hgone⟩ := releaseBlock_spec h hb hidle
    have hl₁ : ∀ s ∈ rest, ∃ c, d₁.heap s = some c ∧ c.allocated = false := by
      intro s hs
      cases released with
      | false => exact hkept rfl ▸ hl s hs
      | true =>
        have hne : s ≠ r := fun heq => hr (heq ▸ hs)
        rw [(hgone rfl).1, update_of_ne hne]
        exact hl s hs
    obtain ⟨d', hfold, h', hspare'⟩ := ih h₁ hrest hl₁
    refine ⟨d', ?_, h', hspare.trans hspare'⟩
    rw [foldlM_cons, hrelease]
    exact hfold

theorem emptyCache_spec (h : Tracked d held 0) :
    ∃ d', d.emptyCache = some d' ∧ Tracked d' held 0 ∧ Spares d d' :=
  releaseAll_spec h h.free.nodup fun r hr => ((h.free.mem r).mp hr).2

theorem insertFree_spec (h : Tracked d (r :: held) due) (hb : d.heap r = some b)
    (hidle : b.allocated = false) (hr : r ∉ held) :
    ∃ l, d.insertFree r = some { d with freeBlocks := l } ∧
      Tracked { d with freeBlocks := l } held due := by
  have hout : r ∉ d.freeBlocks := fun hmem => ((h.free.mem r).mp hmem).1 mem_cons_self
  obtain ⟨l, hinsert, hperm⟩ := insertFree_eq h.indexed h.free.live hb hout
  refine ⟨l, hinsert, ⟨h.tiled.tiles, h.tiled.bounded⟩, h.indexed.congr rfl rfl rfl rfl,
    ⟨?_, ?_⟩, ⟨h.totals.allocated, h.totals.cached, h.totals.reserved⟩⟩
  · exact hperm.nodup_iff.mpr (nodup_cons.mpr ⟨hout, h.free.nodup⟩)
  · intro s
    rw [hperm.mem_iff, mem_cons, h.free.mem]
    rcases eq_or_ne s r with rfl | hne
    · simp [hb, hidle, hr]
    · simp [hne]

theorem reinsert_spec (h : Tracked d l due) (hnodup : l.Nodup)
    (hl : ∀ r ∈ l, ∃ b, d.heap r = some b ∧ b.allocated = false) :
    ∃ d', l.foldlM insertFree d = some d' ∧ Tracked d' [] due ∧ Spares d d' := by
  induction l generalizing d with
  | nil => exact ⟨d, rfl, h, Spares.refl d⟩
  | cons r rest ih =>
    obtain ⟨hr, hrest⟩ := nodup_cons.mp hnodup
    obtain ⟨⟨b, hb, hidle⟩, hl⟩ := forall_mem_cons.mp hl
    obtain ⟨free, hinsert, h₁⟩ := insertFree_spec h hb hidle hr
    obtain ⟨d', hfold, h', hspare⟩ := ih h₁ hrest hl
    refine ⟨d', by simp [foldlM_cons, hinsert, hfold], h', ?_⟩
    exact ⟨hspare.kept, hspare.only, hspare.freed⟩

/-- Taking the largest block out of the free set holds it. -/
theorem Tracked.pop (h : Tracked d held due) (hlast : d.freeBlocks.getLast? = some r) :
    Tracked { d with freeBlocks := d.freeBlocks.dropLast } (r :: held) due := by
  have hsplit : d.freeBlocks = d.freeBlocks.dropLast ++ [r] :=
    (dropLast_append_getLast? r hlast).symm
  have hnodup := h.free.nodup
  rw [hsplit, nodup_append] at hnodup
  obtain ⟨hdrop, -, hdisj⟩ := hnodup
  refine ⟨⟨h.tiled.tiles, h.tiled.bounded⟩, h.indexed.congr rfl rfl rfl rfl, ⟨hdrop, ?_⟩,
    ⟨h.totals.allocated, h.totals.cached, h.totals.reserved⟩⟩
  intro s
  have hmem := h.free.mem s
  rw [hsplit, mem_append] at hmem
  rcases eq_or_ne s r with rfl | hne
  · have hout : s ∉ d.freeBlocks.dropLast := fun hs => hdisj s hs s (mem_singleton_self s) rfl
    simp [hout]
  · simpa [hne] using hmem

theorem Tracked.held_congr {held' : List BlockRef} (h : Tracked d held due)
    (hheld : ∀ r, r ∈ held' ↔ r ∈ held) : Tracked d held' due where
  tiled := h.tiled
  indexed := h.indexed
  free := ⟨h.free.nodup, fun r => by rw [hheld, h.free.mem]⟩
  totals := h.totals

theorem enforceLoop_spec (settings : Settings) {skipped : List BlockRef} (h : Tracked d skipped 0)
    (hnodup : skipped.Nodup) (hl : ∀ r ∈ skipped, ∃ b, d.heap r = some b ∧ b.allocated = false)
    (hfuel : d.freeBlocks.length < fuel) :
    ∃ d' skipped', enforceLoop settings fuel d skipped = some (d', skipped') ∧
      Tracked d' skipped' 0 ∧ Spares d d' ∧ skipped'.Nodup ∧
      ∀ r ∈ skipped', ∃ b, d'.heap r = some b ∧ b.allocated = false := by
  induction fuel generalizing d skipped with
  | zero => exact absurd hfuel (Nat.not_lt_zero _)
  | succ n ih =>
    rw [enforceLoop]
    split_ifs with hover
    · cases hlast : d.freeBlocks.getLast? with
      | none => exact ⟨d, skipped, rfl, h, Spares.refl d, hnodup, hl⟩
      | some r =>
        have hmem : r ∈ d.freeBlocks := mem_of_getLast? hlast
        obtain ⟨hr, b, hb, hidle⟩ := (h.free.mem r).mp hmem
        have hlen : d.freeBlocks.dropLast.length < n := by
          have hpos := length_pos_of_mem hmem
          rw [length_dropLast]
          omega
        obtain ⟨d₁, released, hrelease, h₁, hspare, hkept, hgone⟩ :=
          releaseBlock_spec (h.pop hlast) hb hidle
        simp only [hrelease, bind_eq_bind, bind_some]
        -- Reading `d` or the state without its largest free block is the same here.
        have hspare : Spares d d₁ := ⟨hspare.kept, hspare.only, hspare.freed⟩
        cases released with
        | false =>
          obtain rfl := hkept rfl
          have h₂ : Tracked _ (skipped ++ [r]) 0 := h₁.held_congr (by simp [or_comm])
          obtain ⟨d', skipped', heq, h', hspare', hnodup', hl'⟩ := ih h₂
            (nodup_append.mpr ⟨hnodup, nodup_singleton r, by
              rintro s hs q hq rfl
              exact hr (mem_singleton.mp hq ▸ hs)⟩)
            (by
              intro s hs
              rcases mem_append.mp hs with hs | hs
              · exact hl s hs
              · exact mem_singleton.mp hs ▸ ⟨b, hb, hidle⟩) hlen
          exact ⟨d', skipped', heq, h', hspare.trans hspare', hnodup', hl'⟩
        | true =>
          obtain ⟨hheap, hfree⟩ := hgone rfl
          have h₂ : Tracked d₁ skipped 0 := h₁.unhold (by simp [hheap])
          obtain ⟨d', skipped', heq, h', hspare', hnodup', hl'⟩ := ih h₂ hnodup
            (by
              intro s hs
              have hne : s ≠ r := fun heq => hr (heq ▸ hs)
              rw [hheap, update_of_ne hne]
              exact hl s hs)
            (by
              rw [hfree]
              exact lt_of_le_of_lt (length_filter_le _ _) hlen)
          exact ⟨d', skipped', heq, h', hspare.trans hspare', hnodup', hl'⟩
    · exact ⟨d, skipped, rfl, h, Spares.refl d, hnodup, hl⟩

theorem enforceCacheLimit_spec (settings : Settings) (h : Tracked d [] 0) :
    ∃ d', d.enforceCacheLimit settings = some d' ∧ Tracked d' [] 0 ∧ Spares d d' := by
  obtain ⟨d₁, skipped, hloop, h₁, hspare, hnodup, hl⟩ :=
    enforceLoop_spec settings h nodup_nil (by simp) (Nat.lt_succ_self _)
  obtain ⟨d', hfold, h', hspare'⟩ := reinsert_spec h₁ hnodup hl
  refine ⟨d', ?_, h', hspare.trans hspare'⟩
  simp [enforceCacheLimit, hloop, hfold]

/-- Block `r` moves to an address that was no key. -/
theorem Indexed.move (h : Indexed d)
    (hb : d.heap r = some b) (b' : Block) (hkey : d.allBlocks.lookup b'.ptr = none)
    (hheap : d'.heap = update d.heap r (some b')) (hnext : d'.nextRef = d.nextRef)
    (hall : d'.allBlocks = (d.allBlocks.erase b.ptr).insert b'.ptr r)
    (haddr : d'.blocksByAddr = d'.allBlocks) : Indexed d' where
  fresh := by
    intro s hs
    rw [hnext] at hs
    have hne : s ≠ r := fun heq => absurd (h.lt_nextRef hb) (heq ▸ Nat.not_lt.mpr hs)
    rw [hheap, update_of_ne hne]
    exact h.fresh s hs
  keys := by
    intro p s
    rw [hall, hheap]
    rcases eq_or_ne p b'.ptr with rfl | hp
    · rcases eq_or_ne s r with rfl | hs
      · simp
      · rw [update_of_ne hs, ← h.keys, hkey]
        simp [hs.symm]
    · rw [Finmap.lookup_insert_of_ne _ hp]
      rcases eq_or_ne p b.ptr with rfl | hp'
      · rcases eq_or_ne s r with rfl | hs
        · simp [hp.symm]
        · rw [update_of_ne hs, ← h.keys, h.lookup_ptr hb]
          simp [hs.symm]
      · rw [Finmap.lookup_erase_ne hp', h.keys]
        rcases eq_or_ne s r with rfl | hs
        · simp [hb, hp.symm, hp'.symm]
        · rw [update_of_ne hs]
  byAddr := haddr

/-- Adjacent spans are one span. -/
theorem bytes_union {q n m : ℕ} (h : p + n = q) :
    (Span.mk p (n + m)).bytes = (Span.mk p n).bytes ∪ (Span.mk q m).bytes := by
  ext x
  simp only [Finset.mem_union, Span.mem_bytes]
  omega

/-- What a merge attempt on the held free block `r` does. -/
structure Merges (d d' : DeviceAllocator) (r : BlockRef) (merged : Bool) : Prop where
  tracked : Tracked d' [r] 0
  spares : Spares d d'
  idle : ∃ b, d'.heap r = some b ∧ b.allocated = false
  fewer : d'.freeBlocks.length + (if merged then 1 else 0) ≤ d.freeBlocks.length

theorem Merges.nothing (h : Tracked d [r] 0) (hb : d.heap r = some b)
    (hidle : b.allocated = false) : Merges d d r false:=
  ⟨h, Spares.refl d, ⟨b, hb, hidle⟩, by simp⟩

/-- The held block `r` takes over the addresses of the free block `s`. -/
theorem Merges.join (h : Tracked d [r] 0) (hrs : r ≠ s) (hb : d.heap r = some b)
    (hc : d.heap s = some c) (hbidle : b.allocated = false) (hcidle : c.allocated = false)
    (horig : b.originalPtr = c.originalPtr) (b' : Block) (hbidle' : b'.allocated = false)
    (horig' : b'.originalPtr = b.originalPtr) (hunion : b'.span.bytes = b.span.bytes ∪ c.span.bytes)
    (hsize : b'.size = b.size + c.size)
    (hheap : d'.heap = update (update d.heap r (some b')) s none) (hnext : d'.nextRef = d.nextRef)
    (hindexed : Indexed d') (hfree : d'.freeBlocks = d.freeBlocks.filter (· ≠ s))
    (hdriver : d'.driver = d.driver) (hstats : d'.stats = d.stats) : Merges d d' r true := by
  have htotal (w : Block → ℕ) (hw : w b' = w b + w c) :
      total d'.heap d'.nextRef w = total d.heap d.nextRef w := by
    have hput : total (update d.heap r (some b')) d.nextRef w + _ = _ :=
      total_update (h.indexed.lt_nextRef hb) (some b')
    have hdrop : total (update (update d.heap r (some b')) s none) d.nextRef w +
        (update d.heap r (some b') s).elim 0 w = _ :=
      total_update (h.indexed.lt_nextRef hc) none
    rw [update_of_ne hrs.symm, hc] at hdrop
    simp only [hb, Option.elim_some, elim_none] at hput hdrop
    rw [hheap, hnext]
    omega
  have hregions : d'.regions = d.regions := by
    funext o
    rw [regions, regions, hdriver]
  have hmem : s ∈ d.freeBlocks := (h.free.mem s).mpr ⟨by simpa using hrs.symm, c, hc, hcidle⟩
  constructor
  · constructor
    · constructor
      · have hcells : d'.cells = update (update d.cells r (some b'.cell)) s none := by
          rw [cells_of_update (d := d.put r b') hheap, cells_of_update (d := d) rfl]
          rfl
        rw [hcells, hregions, show b'.cell = ⟨b'.span, b.cell.home⟩ by simp [Block.cell, horig']]
        exact h.tiled.tiles.join hrs (cells_eq hb) (cells_eq hc) horig hunion
      · rw [hregions]
        exact h.tiled.bounded
    · exact hindexed
    · constructor
      · rw [hfree]
        exact h.free.nodup.filter _
      · intro q
        rw [hfree, hheap, mem_filter, h.free.mem]
        rcases eq_or_ne q s with rfl | hqs
        · simp
        · rcases eq_or_ne q r with rfl | hqr
          · simp
          · simp [update_of_ne hqr, hqs]
    · constructor
      · rw [hstats, htotal _ (by simp [Block.inUse, hbidle, hbidle', hcidle])]
        exact h.totals.allocated
      · rw [hstats, htotal _ (by simp [Block.idle, hbidle, hbidle', hcidle, hsize])]
        exact h.totals.cached
      · rw [hstats, htotal _ hsize]
        exact h.totals.reserved
  · apply Spares.of_free (by rw [hdriver])
    intro q
    rw [hheap]
    rcases eq_or_ne q s with rfl | hqs
    · simp [hc, hcidle]
    · rcases eq_or_ne q r with rfl | hqr
      · simp [update_of_ne hqs, hb, hbidle, hbidle']
      · left
        rw [update_of_ne hqs, update_of_ne hqr]
  · exact ⟨b', by rw [hheap, update_of_ne hrs, update_self], hbidle'⟩
  · rw [hfree]
    exact length_filter_lt_length_iff_exists.mpr ⟨s, hmem, by simp⟩

theorem mergeNext_spec (h : Tracked d [r] 0) (hb : d.heap r = some b)
    (hidle : b.allocated = false) :
    ∃ d' merged, d.mergeNext r = some (d', merged) ∧ Merges d d' r merged := by
  simp only [mergeNext, hb, bind_eq_bind, bind_some, Option.pure_def]
  cases hl : d.allBlocks.lookup (b.ptr + b.size) with
  | none => exact ⟨d, false, rfl, Merges.nothing h hb hidle⟩
  | some s =>
    obtain ⟨c, hc, hptr⟩ := (h.indexed.keys _ _).mp hl
    simp only [hc, bind_some]
    split_ifs with hjoin
    · simp only [Bool.and_eq_true, Bool.not_eq_eq_eq_not, Bool.not_true, beq_iff_eq] at hjoin
      obtain ⟨hcidle, horig⟩ := hjoin
      have hpos := size_pos h.tiled hb
      have hrs : r ≠ s := by
        rintro rfl
        obtain rfl : b = c := Option.some.inj (hb.symm.trans hc)
        omega
      have hfit : sizeT (b.size + c.size) = b.size + c.size := by
        have hb' := h.tiled.end_le hb
        have hc' := h.tiled.end_le hc
        exact sizeT_of_lt (by omega)
      rw [eraseFree_eq h.indexed h.free.live hc, hfit, ← hptr]
      have hindexed : Indexed (d.put r { b with size := b.size + c.size }) :=
        h.indexed.put hb rfl
      have hc' : (d.put r { b with size := b.size + c.size }).heap s = some c := by
        simp [put, update_of_ne hrs.symm, hc]
      refine ⟨_, true, rfl, ?_⟩
      apply Merges.join h hrs hb hc hidle hcidle horig.symm { b with size := b.size + c.size } hidle
      · rfl
      · exact bytes_union hptr.symm
      · rfl
      · rfl
      · rfl
      · exact (hindexed.disown hc').congr rfl rfl rfl rfl
      · rfl
      · rfl
      · rfl
    · exact ⟨d, false, rfl, Merges.nothing h hb hidle⟩

theorem predecessor_lookup (h : d.predecessor p = some s) :
    ∃ addr, d.blocksByAddr.lookup addr = some s := by
  unfold predecessor at h
  split at h
  · cases h
  · exact ⟨_, h⟩

theorem mergePrev_spec (h : Tracked d [r] 0) (hb : d.heap r = some b)
    (hidle : b.allocated = false) :
    ∃ d' merged, d.mergePrev r = some (d', merged) ∧ Merges d d' r merged := by
  simp only [mergePrev, hb, bind_eq_bind, bind_some, Option.pure_def,
    h.indexed.byAddr, h.indexed.lookup_ptr hb, Option.isNone_some, Bool.false_eq_true, if_false]
  cases hp : d.predecessor b.ptr with
  | none => exact ⟨d, false, rfl, Merges.nothing h hb hidle⟩
  | some s =>
    obtain ⟨addr, hl⟩ := predecessor_lookup hp
    rw [h.indexed.byAddr] at hl
    obtain ⟨c, hc, -⟩ := (h.indexed.keys _ _).mp hl
    simp only [hc, bind_some]
    split_ifs with hjoin
    · obtain ⟨hend, hcidle, horig⟩ := hjoin
      have hpos := size_pos h.tiled hc
      have hrs : r ≠ s := by
        rintro rfl
        obtain rfl : b = c := Option.some.inj (hb.symm.trans hc)
        omega
      have hfit : sizeT (b.size + c.size) = b.size + c.size := by
        have hb' := h.tiled.end_le hb
        have hc' := h.tiled.end_le hc
        exact sizeT_of_lt (by omega)
      have hptr : b.ptr ≠ c.ptr := by omega
      have hnode : (d.allBlocks.erase c.ptr).lookup b.ptr = some r := by
        rw [Finmap.lookup_erase_ne hptr, h.indexed.lookup_ptr hb]
      rw [eraseFree_eq h.indexed h.free.live hc, hfit]
      simp only [disown, put, hnode, bind_some, h.indexed.byAddr]
      refine ⟨_, true, rfl, ?_⟩
      apply Merges.join h hrs hb hc hidle hcidle horig.symm
        { b with ptr := c.ptr, size := b.size + c.size } hidle
      · rfl
      · rw [Finset.union_comm]
        simp only [Block.span, Nat.add_comm b.size]
        exact bytes_union hend
      · rfl
      · rfl
      · rfl
      · -- First drop the predecessor, then move the block to its address.
        have hb' : (d.disown c.ptr s).heap r = some b := by simp [disown, update_of_ne hrs, hb]
        apply (h.indexed.disown hc).move hb' { b with ptr := c.ptr, size := b.size + c.size }
        · exact Finmap.lookup_erase _ _
        · exact update_comm hrs _ _ _
        · rfl
        · rfl
        · rfl
      · rfl
      · rfl
      · rfl
    · exact ⟨d, false, rfl, Merges.nothing h hb hidle⟩

theorem mergeLoop_spec (h : Tracked d [r] 0) (hb : d.heap r = some b) (hidle : b.allocated = false)
    (hfuel : d.freeBlocks.length < fuel) :
    ∃ d', mergeLoop r fuel d = some d' ∧ Merges d d' r false := by
  induction fuel generalizing d b with
  | zero => exact absurd hfuel (Nat.not_lt_zero _)
  | succ n ih =>
    obtain ⟨d₁, next, hnext, h₁⟩ := mergeNext_spec h hb hidle
    obtain ⟨b₁, hb₁, hidle₁⟩ := h₁.idle
    obtain ⟨d₂, prev, hprev, h₂⟩ := mergePrev_spec h₁.tracked hb₁ hidle₁
    obtain ⟨b₂, hb₂, hidle₂⟩ := h₂.idle
    have hspares := h₁.spares.trans h₂.spares
    have hnextfewer := h₁.fewer
    have hprevfewer := h₂.fewer
    simp only [mergeLoop, hnext, hprev, bind_eq_bind, bind_some, Option.pure_def]
    split_ifs with hagain
    · have hless : d₂.freeBlocks.length < n := by
        cases next <;> cases prev <;> simp at hagain hnextfewer hprevfewer <;> omega
      obtain ⟨d', hloop, h'⟩ := ih h₂.tracked hb₂ hidle₂ hless
      have hfewer := h'.fewer
      refine ⟨d', hloop, h'.tracked, hspares.trans h'.spares, h'.idle, ?_⟩
      omega
    · refine ⟨d₂, rfl, h₂.tracked, hspares, h₂.idle, ?_⟩
      simp
      omega

end DeviceAllocator

end Tenzor
