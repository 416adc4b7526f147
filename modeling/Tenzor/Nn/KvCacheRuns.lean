import Tenzor.Nn.KvCacheCalls

/-!
# Runs of a key-value cache

From the constructor on, the buffers hold what the history says, and the next call does what it
should, as long as every update has the type of the cache, ends at a word and does not write
over what it reads.
-/

namespace Tenzor

open Wrap64 RawMemory List
open Effects hiding bind_eq_ok
open Throwing

variable {cache : KVCache} {h h' : Heap UInt8} {log : List KVEvent} {t newK newV : TensorImpl}
  {config : KVCacheConfig} {h₀ : Heap UInt8} {pos layer : Int} {tracing : Bool} {layers : ℕ → Prop}

/-- The buffers allocated so far are on consecutive storages. -/
structure Allocating (config : KVCacheConfig) (start : ℕ) (h : Heap UInt8)
    (caches : List TensorImpl × List TensorImpl) (m : ℕ) : Prop where
  next_eq : h.next = start + 2 * m
  length_eq : ∀ side : Side, (side.pick caches.1 caches.2).length = m
  buffer : ∀ (side : Side) (i : ℕ) (t : TensorImpl), (side.pick caches.1 caches.2)[i]? = some t →
    BufferOf config h t ∧ t.storage.id = start + 2 * i + side.pick 0 1 ∧
      h.bytes t.storage.id = fun _ => 0

theorem zeros_ok {shape : List Int} {dtype : DType} (hz : zeros shape dtype h = (.ok t, h')) :
    TensorImpl.allocate h.next shape dtype = .ok t ∧
      h' = h.alloc t.storage.sizeBytes fun _ => 0 := by
  rw [zeros, bind_of_ok (get_apply h)] at hz
  rcases throwing_eq (TensorImpl.allocate h.next shape dtype) h with
    ⟨u, hu, hrun⟩ | ⟨e, -, hrun⟩
  · rw [bind_of_ok hrun, bind_of_ok (set_apply _ _)] at hz
    obtain ⟨hut, rfl⟩ := Prod.mk.inj hz
    obtain rfl := Except.ok.inj hut
    exact ⟨hu, rfl⟩
  · rw [bind_of_error hrun] at hz
    exact absurd (Prod.mk.inj hz).1 nofun

/-- A new buffer, full of zeros. -/
theorem zeros_buffer (hz : zeros config.cacheShape config.dtype h = (.ok t, h')) :
    Extends h h' ∧ h'.next = h.next + 1 ∧ BufferOf config h' t ∧ t.storage.id = h.next ∧
      h'.bytes t.storage.id = fun _ => 0 := by
  obtain ⟨halloc, rfl⟩ := zeros_ok hz
  have hid := TensorImpl.allocate_storageId halloc
  refine ⟨extends_alloc h _ _, rfl, ⟨hid ▸ halloc, ?_, ?_⟩, hid, ?_⟩
  · rw [hid]
    exact Nat.lt_succ_self _
  · rw [hid, alloc_size]
  · rw [hid, alloc_bytes]

theorem Allocating.step {config : KVCacheConfig} {start m : ℕ}
    {caches caches' : List TensorImpl × List TensorImpl} (ha : Allocating config start h caches m)
    (hl : allocateLayer config caches h = (.ok caches', h')) :
    Allocating config start h' caches' (m + 1) := by
  rw [allocateLayer, Effects.bind_eq_ok] at hl
  obtain ⟨k, mid, hk, hl⟩ := hl
  rw [Effects.bind_eq_ok] at hl
  obtain ⟨v, last, hv, hl⟩ := hl
  obtain ⟨hout, rfl⟩ := Prod.mk.inj hl
  obtain rfl := Except.ok.inj hout
  obtain ⟨hext, hnext, hkb, hkid, hkzero⟩ := zeros_buffer hk
  obtain ⟨hext', hnext', hvb, hvid, hvzero⟩ := zeros_buffer hv
  have hstart := ha.next_eq
  refine ⟨by omega, fun side => ?_, fun side i t ht => ?_⟩
  · have := ha.length_eq side
    cases side <;> simpa [Side.pick] using this
  · have hlen := ha.length_eq side
    have hout : side.pick (caches.1 ++ [k]) (caches.2 ++ [v]) =
        side.pick caches.1 caches.2 ++ [side.pick k v] := by
      cases side <;> rfl
    rw [hout, getElem?_append] at ht
    split at ht
    next hlt =>
      obtain ⟨hb, hid, hzero⟩ := ha.buffer side i t ht
      have hb' := hb.extend hext
      refine ⟨hb'.extend hext', hid, ?_⟩
      rw [hext'.bytes_eq _ hb'.below, hext.bytes_eq _ hb.below, hzero]
    next hge =>
      obtain ⟨hi, rfl⟩ := List.getElem?_eq_some_iff.mp ht
      have him : i = m := by
        rw [length_singleton] at hi
        omega
      subst him
      simp only [hlen, Nat.sub_self, getElem_cons_zero]
      cases side with
      | key =>
        refine ⟨hkb.extend hext', by simp only [Side.pick]; omega, ?_⟩
        exact (hext'.bytes_eq _ hkb.below).trans hkzero
      | value => exact ⟨hvb, by simp only [Side.pick]; omega, hvzero⟩

theorem Allocating.loop {m : ℕ}
    {caches : List TensorImpl × List TensorImpl}
    (hl : (List.range m).foldlM (fun caches _ => allocateLayer config caches) ([], []) h₀ =
      (.ok caches, h)) : Allocating config h₀.next h caches m := by
  induction m generalizing h caches with
  | zero =>
    obtain ⟨hout, rfl⟩ := Prod.mk.inj hl
    obtain rfl := Except.ok.inj hout
    refine ⟨rfl, fun side => ?_, fun side i t ht => ?_⟩
    · cases side <;> rfl
    · cases side <;> exact absurd ht nofun
  | succ m ih =>
    rw [range_succ, foldlM_append, Effects.bind_eq_ok] at hl
    obtain ⟨caches₁, mid, hmid, hl⟩ := hl
    rw [foldlM_cons, Effects.bind_eq_ok] at hl
    obtain ⟨caches₂, last, hlast, hl⟩ := hl
    obtain ⟨hout, rfl⟩ := Prod.mk.inj hl
    obtain rfl := Except.ok.inj hout
    exact (ih hmid).step hlast

/-- A new cache serves, and holds zeros. -/
theorem KVCache.construct_ok (hc : construct config h₀ = (.ok cache, h)) :
    cache.Serving h ∧ cache.Stores h [] ∧ cache.config = config := by
  rw [construct] at hc
  rcases throwing_eq config.check h₀ with ⟨_, hcheck, hrun⟩ | ⟨e, -, hrun⟩
  · rw [bind_of_ok hrun, Effects.bind_eq_ok] at hc
    obtain ⟨caches, mid, hloop, hc⟩ := hc
    obtain ⟨hout, rfl⟩ := Prod.mk.inj hc
    obtain rfl := Except.ok.inj hout
    have hp := KVCacheConfig.check_eq_ok.mp hcheck
    have ha := Allocating.loop hloop
    have hbuffer : ∀ side : Side, ∀ t ∈ side.pick caches.1 caches.2, BufferOf config mid t := by
      intro side t ht
      obtain ⟨i, hi⟩ := getElem?_of_mem ht
      exact (ha.buffer side i t hi).1
    refine ⟨⟨hp, ha.length_eq, hbuffer, ?_⟩, ?_, rfl⟩
    · intro side i t side' i' t' ht ht' heq
      have hid := (ha.buffer side i t ht).2.1
      have hid' := (ha.buffer side' i' t' ht').2.1
      cases side <;> cases side' <;> simp only [Side.pick] at hid hid' <;>
        first | exact ⟨rfl, by omega⟩ | omega
    · intro side i t ht idx hidx
      obtain ⟨hb, -, hzero⟩ := ha.buffer side i t ht
      have hdtype : t.dtype = config.dtype :=
        (TensorImpl.allocate_ok hb.allocated).2.2.2.2.2.2.2.1
      rw [elementBytes, hzero, hdtype, lastWritten, map_const', length_range]
  · rw [bind_of_error hrun] at hc
    cases (Prod.mk.inj hc).1

/-- What a call can do to a cache that serves and stores its history. -/
inductive KVCall.Outcome (cache : KVCache) (log : List KVEvent) (h : Heap UInt8) (call : KVCall) :
    Prop where
  | throws (e : Exn) (hrun : call.exec cache h = (.error (.exn e), h))
  | returns (views : List TensorImpl) (h' : Heap UInt8)
      (hrun : call.exec cache h = (.ok views, h')) (hserving : cache.Serving h')
      (hstores : cache.Stores h' (call.events h ++ log))

theorem KVCache.Updated.serving {layer : ℕ} {n : Int}
    (hu : cache.Updated h h' layer newK newV n pos) (hs : cache.Serving h) : cache.Serving h' :=
  hs.of_sizes hu.next_le hu.size_eq

/-- An update adds itself to the history. -/
theorem KVCache.Updated.stores (hlayer : 0 ≤ layer) (hst : cache.Stores h log)
    (hu : cache.Updated h h' layer.toNat newK newV (newK.shape.getD 2 0) pos) :
    cache.Stores h' ((KVCall.update tracing layer newK newV pos).events h ++ log) := by
  intro side i t ht idx hidx
  obtain ⟨b, g, p, d, rfl, -⟩ := within_four hidx
  rw [hu.elements side i t ht b g p d hidx, hst side i t ht _ hidx]
  have hcond : (i = layer.toNat ∧ pos ≤ p ∧ p < pos + newK.shape.getD 2 0) ↔
      (layer = (i : Int) ∧ pos ≤ [b, g, p, d].getD 2 0 ∧
        [b, g, p, d].getD 2 0 < pos + newK.shape.getD 2 0) := by
    constructor
    · rintro ⟨rfl, hp⟩
      exact ⟨(Int.toNat_of_nonneg hlayer).symm, hp⟩
    · rintro ⟨rfl, hp⟩
      exact ⟨(Int.toNat_natCast i).symm, hp⟩
  rw [if_congr hcond rfl rfl]
  rfl

/-- A reset adds itself to the history. -/
theorem KVCache.Cleared.stores [DecidablePred layers] {event : KVEvent}
    (hc : cache.Cleared h h' layers) (hst : cache.Stores h log)
    (hevent : ∀ side, ∀ i < cache.config.numLayers.toNat, ∀ idx,
      lastWritten cache.config.dtype side (i : ℕ) (event :: log) idx =
        if layers i then List.replicate (dtypeSize cache.config.dtype) 0
        else lastWritten cache.config.dtype side (i : ℕ) log idx) (hs : cache.Serving h) :
    cache.Stores h' (event :: log) := by
  intro side i t ht idx hidx
  have hi : i < cache.config.numLayers.toNat := by
    rw [← hs.length_eq side]
    exact (List.getElem?_eq_some_iff.mp ht).1
  rw [hc.elements side i t ht idx hidx, hst side i t ht idx hidx, hevent side i hi idx]

theorem KVCache.Cleared.serving [DecidablePred layers] (hc : cache.Cleared h h' layers)
    (hs : cache.Serving h) : cache.Serving h' :=
  hs.of_sizes hc.next_eq.ge fun _ _ _ => congrFun hc.size_eq _

/-- One step of a run. -/
theorem KVCall.outcome (hs : cache.Serving h) (hst : cache.Stores h log) (call : KVCall)
    (hlive : call.Live h) (hmeets : call.Meets cache) : call.Outcome cache log h := by
  cases call with
  | update tracing layer newK newV pos =>
    by_cases hacc : cache.config.Acceptable tracing layer newK newV pos
    · obtain ⟨-, hfits⟩ := hmeets hacc.toShaped
      obtain ⟨views, h', hrun, hupdated⟩ :=
        KVCache.update_ok hs hlive.1 hlive.2 hacc (hfits hacc.end_le).2.2
      exact .returns _ h' (bind_of_ok hrun) (hupdated.serving hs)
        (hupdated.stores hacc.layer_nonneg hst)
    · obtain ⟨e, hrun⟩ := KVCache.update_throws hmeets hacc h
      exact .throws e (bind_of_error hrun)
  | resetLayer layer =>
    rcases cache.config.checkLayer_eq "reset_layer" layer h with ⟨hlayer, hlt, -⟩ | ⟨e, hrun⟩
    · obtain ⟨h', hrun, hcleared⟩ := KVCache.resetLayer_ok hs hlayer hlt
      refine .returns [] h' (bind_of_ok hrun) (hcleared.serving hs)
        (hcleared.stores hst (fun side i _ idx => ?_) hs)
      have hcond : layer = (i : Int) ↔ i = layer.toNat := by omega
      rw [lastWritten, if_congr hcond rfl rfl]
    · exact .throws e (bind_of_error (bind_of_error hrun))
  | reset =>
    obtain ⟨h', hrun, hcleared⟩ := KVCache.resetLayers_ok hs le_rfl
    refine .returns [] h' (bind_of_ok hrun) (hcleared.serving hs)
      (hcleared.stores hst (fun side i hi idx => ?_) hs)
    rw [lastWritten, if_pos hi]
  | getKeys tracing layer seqLen =>
    rcases KVCache.read_cases hs .key tracing layer seqLen with ⟨e, hrun⟩ | ⟨t, view, -, -, -, hrun⟩
    · exact .throws e hrun
    · exact .returns [view] h hrun hs hst
  | getValues tracing layer seqLen =>
    rcases KVCache.read_cases hs .value tracing layer seqLen with
      ⟨e, hrun⟩ | ⟨t, view, -, -, -, hrun⟩
    · exact .throws e hrun
    · exact .returns [view] h hrun hs hst

/-- In every state of a run the buffers hold what the history says. -/
theorem KVRun.stores {start : Heap UInt8} (hc : KVCache.construct config start = (.ok cache, h₀))
    (hrun : KVRun cache (KVCall.Meets cache) h₀ log h) : cache.Serving h ∧ cache.Stores h log := by
  induction hrun with
  | start => exact ⟨(KVCache.construct_ok hc).1, (KVCache.construct_ok hc).2.1⟩
  | elsewhere _ huntouched ih =>
    exact ⟨ih.1.of_sizes huntouched.next_le huntouched.size_eq, ih.2.of_bytes huntouched.bytes_eq⟩
  | returns call _ hlive hmeets hexec ih =>
    cases call.outcome ih.1 ih.2 hlive hmeets with
    | throws e hrun =>
      rw [hrun] at hexec
      exact absurd (Prod.mk.inj hexec).1 nofun
    | returns views h' hrun hserving hstores =>
      rw [hrun] at hexec
      obtain ⟨-, rfl⟩ := Prod.mk.inj hexec
      exact ⟨hserving, hstores⟩
  | throws call _ hlive hmeets hexec ih =>
    cases call.outcome ih.1 ih.2 hlive hmeets with
    | throws e hrun =>
      rw [hrun] at hexec
      obtain ⟨-, rfl⟩ := Prod.mk.inj hexec
      exact ih
    | returns views h' hrun _ _ =>
      rw [hrun] at hexec
      exact absurd (Prod.mk.inj hexec).1 nofun

/-- An update with live inputs throws exactly when the cache cannot take it. -/
theorem KVCache.update_throws_iff (hs : cache.Serving h) (hlive : Live h newK ∧ Live h newV)
    (hmeets : (KVCall.update tracing layer newK newV pos).Meets cache) :
    (∃ e h', (KVCall.update tracing layer newK newV pos).exec cache h = (.error (.exn e), h')) ↔
      ¬ cache.config.Acceptable tracing layer newK newV pos := by
  constructor
  · rintro ⟨e, h', hexec⟩ hacc
    obtain ⟨-, hfits⟩ := hmeets hacc.toShaped
    obtain ⟨views, _, hrun, -⟩ := update_ok hs hlive.1 hlive.2 hacc (hfits hacc.end_le).2.2
    have hreturns := bind_of_ok (f := fun views => pure [views.1, views.2]) hrun
    rw [show (KVCall.update tracing layer newK newV pos).exec cache h = _ from hreturns] at hexec
    exact absurd (Prod.mk.inj hexec).1 nofun
  · intro hacc
    obtain ⟨e, hrun⟩ := update_throws hmeets hacc h
    exact ⟨e, h, bind_of_error hrun⟩

/-- A reader's view shows the history of its layer. -/
theorem KVCache.read_shows (hs : cache.Serving h) (hst : cache.Stores h log) {side : Side}
    {seqLen : Int} {views : List TensorImpl}
    (hexec : (KVCall.read side tracing layer seqLen).exec cache h = (.ok views, h')) :
    ∃ view, views = [view] ∧ cache.Shows h' log side layer view := by
  rcases read_cases hs side tracing layer seqLen with ⟨e, hrun⟩ | ⟨t, view, hlayer, ht, hview, hrun⟩
  · rw [hrun] at hexec
    exact absurd (Prod.mk.inj hexec).1 nofun
  · rw [hrun] at hexec
    obtain ⟨hviews, rfl⟩ := Prod.mk.inj hexec
    obtain rfl := Except.ok.inj hviews
    refine ⟨view, rfl, fun idx hidx => ?_⟩
    obtain ⟨hwithin, hsame⟩ :=
      prefixOf_shows hs.positive (hs.buffer side t (mem_of_getElem? ht)) hview hidx
    refine ⟨hwithin, ?_⟩
    rw [hsame, hst side _ t ht idx hwithin, Int.toNat_of_nonneg hlayer]

theorem KVCall.correct_of_meets (hs : cache.Serving h) (hst : cache.Stores h log) {call : KVCall}
    (hlive : call.Live h) (hmeets : call.Meets cache) : call.Correct cache log h where
  no_fault h' hexec := by
    cases call.outcome hs hst hlive hmeets with
    | throws e hrun =>
      rw [hrun] at hexec
      exact absurd (Prod.mk.inj hexec).1 nofun
    | returns views h' hrun _ _ =>
      rw [hrun] at hexec
      exact absurd (Prod.mk.inj hexec).1 nofun
  throws_untouched e h' hexec := by
    cases call.outcome hs hst hlive hmeets with
    | throws e hrun =>
      rw [hrun] at hexec
      obtain ⟨-, rfl⟩ := Prod.mk.inj hexec
      exact KVCache.Untouched.refl cache h
    | returns views h' hrun _ _ =>
      rw [hrun] at hexec
      exact absurd (Prod.mk.inj hexec).1 nofun
  update_throws_iff tracing layer newK newV pos hcall := by
    subst hcall
    exact KVCache.update_throws_iff hs hlive hmeets
  read_shows side tracing layer seqLen views h' hcall hexec := by
    subst hcall
    exact KVCache.read_shows hs hst hexec
  read_returns side layer seqLen hcall hlayer hlt hn hle := by
    subst hcall
    exact KVCache.read_returns hs side hlayer hlt hn hle

/-- A cache is a history of its updates, in every state of a run whose updates are of its type,
end at a word and do not write over what they read. -/
theorem kvCache_is_history {config : KVCacheConfig} {start h₀ : Heap UInt8}
    (hc : KVCache.construct config start = (.ok cache, h₀))
    (hrun : KVRun cache (KVCall.Meets cache) h₀ log h) {call : KVCall} (hlive : call.Live h)
    (hmeets : call.Meets cache) : call.Correct cache log h :=
  KVCall.correct_of_meets (hrun.stores hc).1 (hrun.stores hc).2 hlive hmeets

/-- No storage is allocated. -/
def emptyHeap : Heap UInt8 := ⟨0, fun _ => 0, fun _ _ => 0⟩

def onePosition : KVCacheConfig where
  numLayers := 1
  maxSeqLen := 1
  numKvHeads := 1
  headDim := 1

theorem dtypeSize_le_int64Max (dtype : DType) : (dtypeSize dtype : Int) ≤ int64Max := by
  cases dtype <;> decide

/-- A tensor with one position and one element. -/
def oneToken (id : ℕ) (dtype : DType) : TensorImpl where
  storage := ⟨id, dtypeSize dtype, dtypeSize_le_int64Max dtype⟩
  shape := [1, 1, 1, 1]
  strides := [1, 1, 1, 1]
  dtype := dtype

def onePositionCache : KVCache where
  config := onePosition
  kCaches := [oneToken 0 .float32]
  vCaches := [oneToken 1 .float32]

/-- The storages of the cache. -/
def onePositionHeap : Heap UInt8 := (emptyHeap.alloc 4 fun _ => 0).alloc 4 fun _ => 0

/-- The storages of the cache, and a tensor with one element. -/
def inputHeap (dtype : DType) : Heap UInt8 :=
  onePositionHeap.alloc (dtypeSize dtype) fun _ => 0

theorem construct_onePosition :
    KVCache.construct onePosition emptyHeap = (.ok onePositionCache, onePositionHeap) := rfl

theorem live_oneToken (dtype : DType) : Live (inputHeap dtype) (oneToken 2 dtype) := by
  have halloc : TensorImpl.allocate 2 [1, 1, 1, 1] dtype = .ok (oneToken 2 dtype) := by
    cases dtype <;> rfl
  exact live_alloc (h := onePositionHeap) (by decide) halloc _

theorem run_input (P : KVCall → Prop) (dtype : DType) :
    KVRun onePositionCache P onePositionHeap [] (inputHeap dtype) :=
  .elsewhere .start
    ((KVCache.construct_ok construct_onePosition).1.untouched (extends_alloc _ _ _))

/-- Without a check of the type, an update reads past the end of an input of a smaller type. With
an unchecked sum, a position near the largest word writes in front of the buffer. -/
theorem update_can_fault :
    (∃ call : KVCall, KVRun onePositionCache (fun _ => True) onePositionHeap [] (inputHeap .float16) ∧
        call.Live (inputHeap .float16) ∧ ¬ call.Correct onePositionCache [] (inputHeap .float16)) ∧
      ∃ call : KVCall, KVRun onePositionCache (fun _ => True) onePositionHeap [] (inputHeap .float32) ∧
        call.Live (inputHeap .float32) ∧
        ¬ call.Correct onePositionCache [] (inputHeap .float32) := by
  constructor
  · refine ⟨.update false 0 (oneToken 2 .float16) (oneToken 2 .float16) 0, run_input _ _,
      ⟨live_oneToken _, live_oneToken _⟩, fun hcorrect => hcorrect.no_fault (inputHeap .float16) ?_⟩
    rfl
  · refine ⟨.update false 0 (oneToken 2 .float32) (oneToken 2 .float32) int64Max, run_input _ _,
      ⟨live_oneToken _, live_oneToken _⟩, fun hcorrect => hcorrect.no_fault (inputHeap .float32) ?_⟩
    rfl

theorem kvCache_is_history_onePosition :
    (KVCall.update false 0 (oneToken 2 .float32) (oneToken 2 .float32) 0).Correct onePositionCache []
      (inputHeap .float32) := by
  have hlive := live_oneToken .float32
  have hapart : ∀ id < 2, ReadsApart onePosition (oneToken id .float32) (oneToken 2 .float32) 1 0 := by
    intro id hid r _ r' _ heq
    exact absurd heq hid.ne
  refine kvCache_is_history construct_onePosition (run_input _ .float32) ⟨hlive, hlive⟩
    fun _ => ⟨by decide, fun _ => ⟨rfl, rfl, fun kCache vCache hk hv => ?_⟩⟩
  obtain rfl : oneToken 0 .float32 = kCache := Option.some.inj hk
  obtain rfl : oneToken 1 .float32 = vCache := Option.some.inj hv
  constructor
  · exact fun _ => hapart 0 (by decide)
  · exact fun _ => ⟨hapart 0 (by decide), hapart 1 (by decide)⟩

end Tenzor
