import Tenzor.Backend.AllocatorCalls
import Mathlib

/-!
# Runs of the caching allocator

A session is one device together with what its clients hold. Every call keeps
it consistent, as long as no call splits a cached block of exactly the size
that is asked for.
-/

namespace Tenzor

open Tiling Function List
open Option (bind_eq_bind bind_eq_some_iff bind_some)

/-- One device, the settings, the allocations that clients hold with the sizes
they asked for, and the regions given back to the driver, each with the
allocations that were live throughout that call. -/
structure Session where
  device : DeviceAllocator
  settings : Settings
  live : List Span
  released : List (Span × List Span)

inductive AllocOp
  | allocate (size : ℕ) (stream : Stream)
  | free (ptr : ℕ)
  | emptyCache
  | setAlignment (alignment : ℕ)
  | setMaxCachedMemory (maxBytes : ℕ)
  | setMergeEnabled (enable : Bool)
  | setMinSplitSize (minSize : ℕ)
  deriving DecidableEq, Repr

namespace Session

variable {cuda : CudaRuntime} {s : Session} {op : AllocOp} {d' : DeviceAllocator}

def initial : Session := ⟨.empty, {}, [], []⟩

/-- Record what a call has left. -/
def after (s : Session) (d : DeviceAllocator) (live : List Span) : Session where
  device := d
  settings := s.settings
  live := live
  released := s.released ++ (d.driver.freed.drop s.device.driver.freed.length).map fun g =>
    (g, live.filter (· ∈ s.live))

/-- One call; what it throws is caught by the client. -/
def step (cuda : CudaRuntime) (s : Session) : AllocOp → Option Session
  | .allocate size stream => do
      match ← s.device.allocate cuda s.settings size stream with
      | (d, .ok ptr) => pure (s.after d (if size = 0 then s.live else ⟨ptr, size⟩ :: s.live))
      | (d, .error _) => pure (s.after d s.live)
  | .free ptr => do
      match ← s.device.free s.settings ptr with
      | (d, .ok _) => pure (s.after d (s.live.filter (·.start ≠ ptr)))
      | (d, .error _) => pure (s.after d s.live)
  | .emptyCache => do
      let d ← s.device.emptyCache
      pure (s.after d s.live)
  | .setAlignment alignment =>
    match s.settings.setAlignment alignment with
    | .ok settings => some { s with settings := settings }
    | .error _ => some s
  | .setMaxCachedMemory maxBytes =>
    some { s with settings := { s.settings with maxCachedMemory := maxBytes } }
  | .setMergeEnabled enable =>
    some { s with settings := { s.settings with mergeEnabled := enable } }
  | .setMinSplitSize minSize =>
    some { s with settings := { s.settings with minSplitSize := minSize } }

def run (cuda : CudaRuntime) (s : Session) (ops : List AllocOp) : Option Session :=
  ops.foldlM (step cuda) s

/-- The tracked blocks partition the live regions and the three indexes and the
totals describe them; every live allocation has an allocated block of its own
that is large enough, shares no byte with another one, and no region was given
back under it. -/
structure Consistent (s : Session) : Prop where
  tracked : s.device.Tracked [] 0
  served : ∀ a ∈ s.live, 0 < a.size ∧ ∃ r b, s.device.heap r = some b ∧ b.ptr = a.start ∧
    b.allocated = true ∧ a.size ≤ b.size
  inUse : ∀ r b, s.device.heap r = some b → b.allocated = true → ∃ n, ⟨b.ptr, n⟩ ∈ s.live
  apart : s.live.Pairwise Span.Apart
  released : ∀ g ∈ s.released, ∀ a ∈ g.2, a.Apart g.1
  aligned : 0 < s.settings.alignment

/-- A call that finds a cached block of exactly the size it asks for takes it
without a split. -/
def Meets (s : Session) : AllocOp → Prop
  | .allocate size _ => ∀ n r b, DeviceAllocator.roundSize s.settings size = some n →
      s.device.bestFit n = some (some r) → s.device.heap r = some b → b.size = n →
      s.settings.KeepsExactFit n
  | _ => True

def RunMeets (cuda : CudaRuntime) : Session → List AllocOp → Prop
  | _, [] => True
  | s, op :: ops => s.Meets op ∧ ∀ s', s.step cuda op = some s' → RunMeets cuda s' ops

/-- The calls that leave the settings as they are. -/
def KeepsSettings : AllocOp → Prop
  | .allocate _ _ | .free _ | .emptyCache => True
  | _ => False

theorem step_settings {s' : Session} (hop : KeepsSettings op) (h : s.step cuda op = some s') :
    s'.settings = s.settings := by
  cases op with
  | allocate size stream =>
    simp only [step, bind_eq_bind, bind_eq_some_iff] at h
    obtain ⟨⟨d, res⟩, -, h⟩ := h
    cases res <;> exact (congrArg settings (Option.some.inj h)).symm
  | free ptr =>
    simp only [step, bind_eq_bind, bind_eq_some_iff] at h
    obtain ⟨⟨d, res⟩, -, h⟩ := h
    cases res <;> exact (congrArg settings (Option.some.inj h)).symm
  | emptyCache =>
    simp only [step, bind_eq_bind, bind_eq_some_iff] at h
    obtain ⟨d, -, h⟩ := h
    exact (congrArg settings (Option.some.inj h)).symm
  | setAlignment alignment => exact hop.elim
  | setMaxCachedMemory maxBytes => exact hop.elim
  | setMergeEnabled enable => exact hop.elim
  | setMinSplitSize minSize => exact hop.elim

/-- Settings that never split an exact fit need no look at the cache. -/
theorem runMeets_of_keepsExactFit {ops : List AllocOp}
    (hkeeps : ∀ op ∈ ops, KeepsSettings op)
    (hfit : ∀ size stream, .allocate size stream ∈ ops → ∀ n,
      DeviceAllocator.roundSize s.settings size = some n → s.settings.KeepsExactFit n) :
    RunMeets cuda s ops := by
  induction ops generalizing s with
  | nil => trivial
  | cons op rest ih =>
    obtain ⟨hop, hrest⟩ := forall_mem_cons.mp hkeeps
    refine ⟨?_, fun s' hstep => ih hrest ?_⟩
    · cases op with
      | allocate size stream =>
        exact fun n r b hround _ _ _ => hfit size stream mem_cons_self n hround
      | _ => trivial
    · intro size stream hmem
      rw [step_settings hop hstep]
      exact hfit size stream (mem_cons_of_mem _ hmem)

theorem initial_consistent : Consistent initial where
  tracked :=
    { tiled := ⟨⟨by simp [initial, DeviceAllocator.empty, DeviceAllocator.cells],
        by simp [initial, DeviceAllocator.empty, DeviceAllocator.cells],
        by simp [initial, DeviceAllocator.empty, DeviceAllocator.cells],
        by simp [initial, DeviceAllocator.empty, DeviceAllocator.regions]⟩,
        by simp [initial, DeviceAllocator.empty, DeviceAllocator.regions]⟩
      indexed := ⟨fun _ _ => rfl, by simp [initial, DeviceAllocator.empty], rfl⟩
      free := ⟨nodup_nil, by simp [initial, DeviceAllocator.empty]⟩
      totals := ⟨rfl, rfl, rfl⟩ }
  served := by simp [initial]
  inUse := by simp [initial, DeviceAllocator.empty]
  apart := Pairwise.nil
  released := by simp [initial]
  aligned := by decide

/-- A block serves an allocation: it starts there and is large enough. -/
theorem apart_of_blocks {a b : Span} {c e : Block} (hac : c.ptr = a.start) (hbe : e.ptr = b.start)
    (ha : a.size ≤ c.size) (hb : b.size ≤ e.size) (h : c.span.Apart e.span) : a.Apart b := by
  have hsub : ∀ {s : Span} {x : Block}, x.ptr = s.start → s.size ≤ x.size →
      s.bytes ⊆ x.span.bytes := by
    intro s x hptr hle y hy
    rw [Span.mem_bytes] at hy ⊢
    simp only [Block.span]
    omega
  exact Finset.disjoint_of_subset_left (hsub hac ha)
    (Finset.disjoint_of_subset_right (hsub hbe hb) h)

/-- What a call that spares the live blocks gives back lies under no live allocation. -/
theorem released_after (h : Consistent s) {d : DeviceAllocator} {live : List Span}
    (hdriver : d.driver = s.device.driver) (hspares : d.Spares d')
    (hblock : ∀ a ∈ live, a ∈ s.live → ∃ r b, d.heap r = some b ∧ b.ptr = a.start ∧
      b.allocated = true ∧ a.size ≤ b.size) :
    ∀ g ∈ (s.after d' live).released, ∀ a ∈ g.2, a.Apart g.1 := by
  intro g hg a ha
  rcases mem_append.mp hg with hg | hg
  · exact h.released g hg a ha
  · obtain ⟨gone, hgone, hapart⟩ := hspares.freed
    obtain ⟨R, hR, rfl⟩ := mem_map.mp hg
    rw [hgone, hdriver, drop_left] at hR
    obtain ⟨halive, hold⟩ := mem_filter.mp ha
    obtain ⟨r, b, hb, hptr, hallocated, hle⟩ := hblock a halive (by simpa using hold)
    have hsub : a.bytes ⊆ b.span.bytes := by
      intro x hx
      rw [Span.mem_bytes] at hx ⊢
      simp only [Block.span]
      omega
    exact Finset.disjoint_of_subset_left hsub (hapart R hR r b hb hallocated)

/-- A call that spares every live block and hands nothing out. -/
theorem Consistent.spared (h : Consistent s) (h' : d'.Tracked [] 0)
    (hspares : s.device.Spares d') : Consistent (s.after d' s.live) where
  tracked := h'
  served := by
    intro a ha
    obtain ⟨hpos, r, b, hb, hptr, hallocated, hle⟩ := h.served a ha
    exact ⟨hpos, r, b, hspares.kept r b hb hallocated, hptr, hallocated, hle⟩
  inUse := fun r b hb hallocated => h.inUse r b (hspares.only r b hb hallocated) hallocated
  apart := h.apart
  released := released_after h rfl hspares fun a ha _ => (h.served a ha).2
  aligned := h.aligned

theorem Consistent.configure (h : Consistent s) {settings : Settings}
    (halign : 0 < settings.alignment) : Consistent { s with settings := settings } where
  tracked := h.tracked
  served := h.served
  inUse := h.inUse
  apart := h.apart
  released := h.released
  aligned := halign

theorem allocate_consistent (hcuda : cuda.Lawful) (h : Consistent s) {size : ℕ} {stream : Stream}
    (hmeets : s.Meets (.allocate size stream)) :
    ∃ s', s.step cuda (.allocate size stream) = some s' ∧ Consistent s' := by
  obtain ⟨d', res, heq, h', hcases⟩ :=
    DeviceAllocator.allocate_spec hcuda h.tracked h.aligned stream hmeets
  simp only [step, heq, bind_eq_bind, bind_some, Option.pure_def]
  rcases hcases with ⟨hspares, hnull⟩ | ⟨d₁, r, b, hspares, h₁, hb, hidle, hle, hpos, rfl, hheap, hdriver⟩
  · cases res with
    | error e => exact ⟨_, rfl, h.spared h' hspares⟩
    | ok p =>
      obtain rfl := hnull p rfl
      exact ⟨_, rfl, h.spared h' hspares⟩
  refine ⟨_, rfl, ?_⟩
  rw [if_neg hpos.ne']
  -- The blocks of the older allocations are still there, next to the new one.
  have hold : ∀ a ∈ s.live, 0 < a.size ∧ ∃ q c, q ≠ r ∧ d₁.heap q = some c ∧ c.ptr = a.start ∧
      c.allocated = true ∧ a.size ≤ c.size := by
    intro a ha
    obtain ⟨hapos, q, c, hc, hptr, hallocated, hsize⟩ := h.served a ha
    have hc₁ := hspares.kept q c hc hallocated
    have hne : q ≠ r := by
      rintro rfl
      obtain rfl : b = c := Option.some.inj (hb.symm.trans hc₁)
      simp [hidle] at hallocated
    exact ⟨hapos, q, c, hne, hc₁, hptr, hallocated, hsize⟩
  have hspares' : s.device.Spares { d₁ with driver := d'.driver } := by
    rw [hdriver]
    exact hspares
  constructor
  · exact h'
  · intro a ha
    rcases mem_cons.mp ha with rfl | ha
    · refine ⟨hpos, r, { b with allocated := true }, ?_, rfl, rfl, hle⟩
      exact (congrFun hheap r).trans (update_self _ _ _)
    · obtain ⟨hapos, q, c, hne, hc, hptr, hallocated, hsize⟩ := hold a ha
      refine ⟨hapos, q, c, ?_, hptr, hallocated, hsize⟩
      exact (congrFun hheap q).trans ((update_of_ne hne _ _).trans hc)
  · intro q c hc hallocated
    replace hc : update d₁.heap r (some { b with allocated := true }) q = some c := hheap ▸ hc
    rcases eq_or_ne q r with rfl | hne
    · rw [update_self] at hc
      obtain rfl := Option.some.inj hc
      exact ⟨size, mem_cons_self⟩
    · rw [update_of_ne hne] at hc
      obtain ⟨n, hn⟩ := h.inUse q c (hspares.only q c hc hallocated) hallocated
      exact ⟨n, mem_cons_of_mem _ hn⟩
  · refine pairwise_cons.mpr ⟨?_, h.apart⟩
    intro a ha
    obtain ⟨-, q, c, hne, hc, hptr, -, hsize⟩ := hold a ha
    exact apart_of_blocks rfl hptr hle hsize (DeviceAllocator.span_apart h₁.tiled hb hc hne.symm)
  · have hfreed : ∀ g ∈ (s.after { d₁ with driver := d'.driver } (⟨b.ptr, size⟩ :: s.live)).released,
        ∀ a ∈ g.2, a.Apart g.1 :=
      released_after h rfl hspares' fun a _ ha => (h.served a ha).2
    exact hfreed
  · exact h.aligned

theorem free_consistent (h : Consistent s) (ptr : ℕ) :
    ∃ s', s.step cuda (.free ptr) = some s' ∧ Consistent s' := by
  obtain ⟨d', res, heq, h', hcases⟩ := DeviceAllocator.free_spec s.settings h.tracked ptr
  simp only [step, heq, bind_eq_bind, bind_some, Option.pure_def]
  rcases hcases with ⟨rfl, hnull⟩ | ⟨r, b, hb, rfl, hallocated, rfl, hspares⟩
  · cases res with
    | error e => exact ⟨_, rfl, h.spared h' (DeviceAllocator.Spares.refl _)⟩
    | ok u =>
      obtain rfl := hnull rfl
      -- No block starts at the null pointer.
      have hall : s.live.filter (·.start ≠ 0) = s.live := by
        rw [filter_eq_self]
        intro a ha
        obtain ⟨-, q, c, hc, hptr, -⟩ := h.served a ha
        have hend := h.tracked.tiled.end_le hc
        simp only [ne_eq, decide_not, Bool.not_eq_eq_eq_not, Bool.not_true,
          decide_eq_false_iff_not]
        omega
      rw [hall]
      exact ⟨_, rfl, h.spared h' (DeviceAllocator.Spares.refl _)⟩
  refine ⟨_, rfl, ?_⟩
  -- The other allocations are served by other blocks.
  have hold : ∀ a ∈ s.live.filter (·.start ≠ b.ptr), 0 < a.size ∧ ∃ q c,
      (s.device.put r { b with allocated := false }).heap q = some c ∧ c.ptr = a.start ∧
      c.allocated = true ∧ a.size ≤ c.size := by
    intro a ha
    obtain ⟨ha, hne⟩ := mem_filter.mp ha
    obtain ⟨hapos, q, c, hc, hptr, hcallocated, hsize⟩ := h.served a ha
    have hqr : q ≠ r := by
      rintro rfl
      obtain rfl : b = c := Option.some.inj (hb.symm.trans hc)
      simp [hptr] at hne
    refine ⟨hapos, q, c, ?_, hptr, hcallocated, hsize⟩
    simp [DeviceAllocator.put, update_of_ne hqr, hc]
  constructor
  · exact h'
  · intro a ha
    obtain ⟨hapos, q, c, hc, hptr, hcallocated, hsize⟩ := hold a ha
    exact ⟨hapos, q, c, hspares.kept q c hc hcallocated, hptr, hcallocated, hsize⟩
  · intro q c hc hcallocated
    have hc := hspares.only q c hc hcallocated
    have hqr : q ≠ r := by
      rintro rfl
      simp only [DeviceAllocator.put, update_self, Option.some.injEq] at hc
      subst hc
      simp at hcallocated
    simp only [DeviceAllocator.put, update_of_ne hqr] at hc
    obtain ⟨n, hn⟩ := h.inUse q c hc hcallocated
    refine ⟨n, mem_filter.mpr ⟨hn, ?_⟩⟩
    have hne : c.ptr ≠ b.ptr := fun hptr => hqr (h.tracked.indexed.ptr_inj hc hb hptr)
    simpa using hne
  · exact h.apart.filter _
  · exact released_after (d := s.device.put r { b with allocated := false }) h rfl hspares
      fun a ha _ => (hold a ha).2
  · exact h.aligned

/-- A call that meets the condition returns to a consistent session. -/
theorem step_consistent (hcuda : cuda.Lawful) (h : Consistent s) (hmeets : s.Meets op) :
    ∃ s', s.step cuda op = some s' ∧ Consistent s' := by
  cases op with
  | allocate size stream => exact allocate_consistent hcuda h hmeets
  | free ptr => exact free_consistent h ptr
  | emptyCache =>
    obtain ⟨d', heq, h', hspares⟩ := DeviceAllocator.emptyCache_spec h.tracked
    exact ⟨_, by simp only [step, heq]; rfl, h.spared h' hspares⟩
  | setAlignment alignment =>
    simp only [step, Settings.setAlignment]
    split_ifs with hbad
    · exact ⟨s, rfl, h⟩
    · refine ⟨_, rfl, h.configure ?_⟩
      exact Nat.pos_of_ne_zero fun hzero => hbad (.inl hzero)
  | setMaxCachedMemory maxBytes => exact ⟨_, rfl, h.configure h.aligned⟩
  | setMergeEnabled enable => exact ⟨_, rfl, h.configure h.aligned⟩
  | setMinSplitSize minSize => exact ⟨_, rfl, h.configure h.aligned⟩

/-- In every run whose calls meet the condition each call returns, and the
session it leaves is consistent. -/
theorem run_consistent (cuda : CudaRuntime) (hcuda : cuda.Lawful) (ops : List AllocOp)
    (hmeets : RunMeets cuda initial ops) :
    ∃ s, run cuda initial ops = some s ∧ Consistent s := by
  have hrun : ∀ s, Consistent s → RunMeets cuda s ops →
      ∃ s', run cuda s ops = some s' ∧ Consistent s' := by
    clear hmeets
    induction ops with
    | nil => exact fun s h _ => ⟨s, rfl, h⟩
    | cons op rest ih =>
      intro s h hmeets
      obtain ⟨s₁, hstep, h₁⟩ := step_consistent hcuda h hmeets.1
      obtain ⟨s', hrest, h'⟩ := ih s₁ h₁ (hmeets.2 s₁ hstep)
      refine ⟨s', ?_, h'⟩
      rw [run, foldlM_cons, hstep]
      exact hrest
  exact hrun initial initial_consistent hmeets

end Session

/-- A driver that hands out addresses in increasing order. -/
def bumpRuntime : CudaRuntime where
  setDevice _ := true
  malloc _ regions size :=
    let ptr := 4096 + regions.keys.sup fun o => o + (regions.lookup o).getD 0
    if ptr + size ≤ 18446744073709551616 then some ptr else none

theorem bumpRuntime_lawful : bumpRuntime.Lawful := by
  have hanswer : ∀ {k regions n p}, bumpRuntime.malloc k regions n = some p →
      p + n ≤ 18446744073709551616 ∧ 4096 ≤ p ∧ ∀ o m, regions.lookup o = some m → o + m < p := by
    intro k regions n p h
    simp only [bumpRuntime] at h
    split_ifs at h with hfit
    obtain rfl := Option.some.inj h
    refine ⟨hfit, Nat.le_add_right _ _, ?_⟩
    intro o m hm
    have hmem : o ∈ regions.keys := Finmap.mem_keys.mpr (Finmap.mem_iff.mpr ⟨m, hm⟩)
    have hle := Finset.le_sup (f := fun o => o + (regions.lookup o).getD 0) hmem
    simp only [hm, Option.getD_some] at hle
    omega
  constructor
  · intro k regions n p h
    obtain ⟨-, -, hlt⟩ := hanswer h
    cases hl : regions.lookup p with
    | none => rfl
    | some m => exact absurd (hlt p m hl) (by omega)
  · intro k regions n p h
    obtain ⟨hfit, hle, -⟩ := hanswer h
    exact ⟨by omega, hfit⟩
  · intro k regions n p o m h hm
    obtain ⟨-, -, hlt⟩ := hanswer h
    have hom := hlt o m hm
    apply Finset.disjoint_left.mpr
    intro x hx hx'
    simp only [Span.mem_bytes] at hx hx'
    omega

namespace Session

/-- A block is freed, split, and its halves are joined again. -/
def splitAndJoin : List AllocOp :=
  [.allocate 1024 0, .free 4096, .allocate 512 0, .allocate 512 1, .free 4608, .free 4096, .emptyCache]

theorem run_consistent_splitAndJoin :
    ∃ s, run bumpRuntime initial splitAndJoin = some s ∧ Consistent s := by
  apply run_consistent bumpRuntime bumpRuntime_lawful
  apply runMeets_of_keepsExactFit
  · simp [splitAndJoin, KeepsSettings]
  · intro size stream hmem n hround
    have hsize : size = 1024 ∨ size = 512 := by
      simp only [splitAndJoin, mem_cons, AllocOp.allocate.injEq, not_mem_nil] at hmem
      grind
    obtain rfl | rfl := hsize
    · obtain rfl : 1024 = n := Option.some.inj hround
      exact ⟨by decide, by decide⟩
    · obtain rfl : 512 = n := Option.some.inj hround
      exact ⟨by decide, by decide⟩

/-- The second half of a region is live when the first half, of exactly the
size asked for, is split at its end. -/
def emptyRemainder : List AllocOp :=
  [.allocate 1024 0, .free 4096, .allocate 512 0, .allocate 512 0, .free 4096,
    .setMinSplitSize 0, .allocate 512 0, .free 4096, .emptyCache]

/-- The region is given back under the live second half. -/
theorem run_emptyRemainder :
    ∃ s, run bumpRuntime initial emptyRemainder = some s ∧ ¬ Consistent s := by
  have hrun : (run bumpRuntime initial emptyRemainder).map released =
      some [(⟨4096, 1024⟩, [⟨4608, 512⟩])] := by decide +kernel
  obtain ⟨s, hs, hreleased⟩ := Option.map_eq_some_iff.mp hrun
  refine ⟨s, hs, fun h => ?_⟩
  have hapart := h.released (⟨4096, 1024⟩, [⟨4608, 512⟩]) (by simp [hreleased]) ⟨4608, 512⟩
    (mem_singleton_self _)
  rw [Span.apart_iff (by decide) (by decide)] at hapart
  simp [Span.stop] at hapart

end Session

end Tenzor
