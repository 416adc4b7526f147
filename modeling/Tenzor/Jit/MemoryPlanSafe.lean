import Tenzor.Jit.MemoryPlanner
import Tenzor.Jit.GraphLiteral
import Tenzor.Lib.SharedStorage

/-!
# A memory plan does not disturb the run

A live range reaches from the node that produces a value to the last node that
reads it. The loop over the ranges never lets two ranges of one buffer meet. So
a value is still in its buffer whenever a node reads it, and a run that stores
planned values in their buffers reads what a run with private storage reads.
-/

namespace Tenzor.Jit

open Dataflow Throwing List
open Option (map_eq_some_iff map_some mem_toList)

namespace MemoryPlanner

variable {T S δ : Type} [DecidableEq δ] {p : MemoryPlanner S δ} {size alignedSize : UInt64}
  {slots : List (BufferSlot δ)}

/-- Rounding up with a mask does not lose bytes, for any mask. -/
theorem le_roundUp {mask : UInt64} (h : size.toNat + mask.toNat < 2 ^ 64) :
    size.toNat ≤ ((size + mask) &&& ~~~mask).toNat := by
  have hsplit : ((size + mask) &&& mask) + ((size + mask) &&& ~~~mask) = size + mask := by
    apply UInt64.toBitVec_inj.mp
    simp only [UInt64.toBitVec_add, UInt64.toBitVec_and, UInt64.toBitVec_not]
    rw [BitVec.add_eq_or_of_and_eq_zero _ _ (by ext i; simp; tauto)]
    ext i hi
    cases hm : mask.toBitVec[i] <;> simp [hm]
  have hle : ((size + mask) &&& mask).toNat ≤ mask.toNat := by
    exact Nat.and_le_right
  have hadd := congrArg UInt64.toNat hsplit
  rw [UInt64.toNat_add, UInt64.toNat_add] at hadd
  omega

omit [DecidableEq δ] in
theorem le_alignUp (h : p.alignUp size ≠ 0) : size.toNat ≤ (p.alignUp size).toNat := by
  unfold alignUp at h ⊢
  split_ifs at h ⊢ with hlt
  · exact absurd rfl h
  · have hle : (size.toNat + (p.alignment - 1).toNat) < 2 ^ 64 := by
      rw [UInt64.lt_iff_toNat_lt, Nat.not_lt, UInt64.toNat_sub] at hlt
      have hmask := (p.alignment - 1).toNat_lt
      simp at hlt
      omega
    rw [UInt64.sub_eq_add_neg, UInt64.add_assoc, ← UInt64.sub_eq_add_neg]
    exact le_roundUp hle

section Ranges

omit [DecidableEq δ]

variable {g : Graph T S} {m : RangeMap} {i : Nat} {k : Nat} {id : String} {r : Nat × Nat}

theorem lookup_bear (outs : List ValRef) (id : String) :
    (outs.foldl (bear g i) m).lookup id =
      if ∃ v ∈ outs, isExcluded g v = false ∧ g.idOf v = id then some (i, i) else m.lookup id := by
  induction outs generalizing m with
  | nil => simp
  | cons v rest ih =>
    rw [foldl_cons, ih]
    by_cases hrest : ∃ w ∈ rest, isExcluded g w = false ∧ g.idOf w = id
    · obtain ⟨w, hw, hid⟩ := hrest
      rw [if_pos ⟨w, hw, hid⟩, if_pos ⟨w, mem_cons_of_mem _ hw, hid⟩]
    · rw [if_neg hrest]
      by_cases hv : isExcluded g v = false ∧ g.idOf v = id
      · rw [if_pos ⟨v, mem_cons_self, hv⟩, bear, hv.1, if_neg (by simp), hv.2,
          AList.lookup_insert]
      · rw [if_neg]
        · unfold bear
          split_ifs with hex
          · rfl
          · refine AList.lookup_insert_ne fun he => hv ⟨?_, he.symm⟩
            simpa using hex
        · rintro ⟨w, hw, hid⟩
          obtain rfl | hw := mem_cons.mp hw
          · exact hv hid
          · exact hrest ⟨w, hw, hid⟩

theorem lookup_extend (ids : List String) (id : String) :
    (ids.foldl (extend i) m).lookup id =
      (m.lookup id).map fun r => if id ∈ ids then (r.1, max r.2 i) else r := by
  induction ids generalizing m with
  | nil => simp
  | cons x rest ih =>
    rw [foldl_cons, ih]
    unfold extend
    cases hx : m.lookup x with
    | none =>
      by_cases hid : id = x
      · subst hid
        rw [hx]
        rfl
      · simp [hid]
    | some r =>
      by_cases hid : id = x
      · subst hid
        rw [hx]
        by_cases hmem : id ∈ rest <;> simp [hmem]
      · simp [hid]

/-- What the scan of the first `k` nodes knows about a range. -/
structure Tracked (p : MemoryPlanner S δ) (g : Graph T S) (k : Nat) (id : String)
    (r : Nat × Nat) : Prop where
  birth_lt : r.1 < k
  birth_le : r.1 ≤ r.2
  born : ∃ n v, g.nodes[r.1]? = some n ∧ v ∈ g.outputsOf n ∧ g.idOf v = id ∧
    isExcluded g v = false
  covers : ∀ j n, j < k → r.1 ≤ j → g.nodes[j]? = some n → id ∈ p.readsOf g n → j ≤ r.2

theorem Tracked.scanNode {n : NodeRef} (hn : g.nodes[k]? = some n)
    (h : ∀ id r, m.lookup id = some r → Tracked p g k id r)
    (hr : (p.scanNode g m (n, k)).lookup id = some r) : Tracked p g (k + 1) id r := by
  rw [MemoryPlanner.scanNode, lookup_extend, map_eq_some_iff] at hr
  obtain ⟨r₀, hr₀, hread⟩ := hr
  have hborn : r₀.1 ≤ k ∧ r₀.1 ≤ r₀.2 ∧ (∃ n v, g.nodes[r₀.1]? = some n ∧ v ∈ g.outputsOf n ∧
      g.idOf v = id ∧ isExcluded g v = false) ∧
      ∀ j n, j < k → r₀.1 ≤ j → g.nodes[j]? = some n → id ∈ p.readsOf g n → j ≤ r₀.2 := by
    rw [lookup_bear] at hr₀
    split_ifs at hr₀ with hout
    · obtain rfl := Option.some.inj hr₀
      obtain ⟨v, hv, hex, hid⟩ := hout
      refine ⟨Nat.le_refl k, Nat.le_refl k, ⟨n, v, hn, hv, hid, hex⟩, ?_⟩
      intro j _ hj hkj
      exact absurd hkj (Nat.not_le.mpr hj)
    · have ht := h id r₀ hr₀
      exact ⟨Nat.le_of_lt ht.birth_lt, ht.birth_le, ht.born, ht.covers⟩
  obtain ⟨hle, hbirth, hout, hcov⟩ := hborn
  -- The range now reaches at least to `k` when this node needs the value.
  have hfst : r.1 = r₀.1 := by
    rw [← hread]
    split_ifs <;> rfl
  have hsnd : r₀.2 ≤ r.2 ∧ (id ∈ p.readsOf g n → k ≤ r.2) := by
    rw [← hread]
    split_ifs with hmem
    · exact ⟨Nat.le_max_left _ _, fun _ => Nat.le_max_right _ _⟩
    · exact ⟨Nat.le_refl _, fun hm => absurd hm hmem⟩
  refine ⟨by omega, by omega, by rwa [hfst], ?_⟩
  intro j n' hj hbj hn' hmem
  obtain hlt | rfl := Nat.lt_succ_iff_lt_or_eq.mp hj
  · exact (hcov j n' hlt (hfst ▸ hbj) hn' hmem).trans hsnd.1
  · obtain rfl : n = n' := Option.some.inj (hn.symm.trans hn')
    exact hsnd.2 hmem

theorem Tracked.scanAll {l : List NodeRef} (hl : g.nodes.drop k = l)
    (h : ∀ id r, m.lookup id = some r → Tracked p g k id r)
    (hr : ((l.zipIdx k).foldl (p.scanNode g) m).lookup id = some r) :
    Tracked p g (k + l.length) id r := by
  induction l generalizing m k with
  | nil => exact h id r hr
  | cons n rest ih =>
    have hn : g.nodes[k]? = some n := by
      rw [← head?_drop, hl]
      rfl
    have hrest : g.nodes.drop (k + 1) = rest := by
      rw [← drop_drop, hl]
      rfl
    have := ih hrest (fun id r hr => Tracked.scanNode hn h hr) hr
    rwa [length_cons, Nat.add_comm rest.length, ← Nat.add_assoc]

theorem tracked_rangeMap (hr : (p.rangeMap g).lookup id = some r) :
    Tracked p g g.nodes.length id r := by
  have h := Tracked.scanAll (p := p) (g := g) (m := ∅) (l := g.nodes) (k := 0) rfl
    (fun id r hr => by simp at hr) hr
  rwa [Nat.zero_add] at h

theorem mem_computeLiveRanges {lr : LiveRange δ} (h : lr ∈ p.computeLiveRanges g) :
    (p.rangeMap g).lookup lr.valueId = some (lr.birth, lr.death) ∧ lr.size ≠ 0 := by
  obtain ⟨⟨id, r⟩, hmem, heq⟩ := mem_filterMap.mp h
  simp only [toLiveRange, Option.bind_eq_some_iff] at heq
  obtain ⟨v, -, heq⟩ := heq
  split_ifs at heq with hsize
  obtain rfl := Option.some.inj heq
  exact ⟨AList.mem_lookup_iff.mpr hmem, hsize⟩

theorem nodup_computeLiveRanges :
    ((p.computeLiveRanges g).map LiveRange.valueId).Nodup := by
  have hkeys : ((p.rangeMap g).entries.map Sigma.fst).Nodup := (p.rangeMap g).nodupKeys
  refine Nodup.sublist ?_ hkeys
  unfold computeLiveRanges
  generalize (p.rangeMap g).entries = entries
  induction entries with
  | nil => exact Sublist.refl _
  | cons e rest ih =>
    cases he : p.toLiveRange g e.1 e.2 with
    | none =>
      simp only [filterMap_cons, he, map_cons]
      exact ih.cons _
    | some lr =>
      have hid : lr.valueId = e.1 := by
        simp only [toLiveRange, Option.bind_eq_some_iff] at he
        obtain ⟨v, -, heq⟩ := he
        split_ifs at heq
        exact congrArg LiveRange.valueId (Option.some.inj heq).symm
      simp only [filterMap_cons, he, map_cons, hid]
      exact ih.cons_cons _

end Ranges

/-! ## Buffers -/

/-- Two inclusive live ranges do not meet. -/
def LiveRange.Apart (a b : LiveRange δ) : Prop := a.death < b.birth ∨ b.death < a.birth

/-- The slot keeps the range and is large enough for its value. -/
structure Hosts (slot : BufferSlot δ) (lr : LiveRange δ) : Prop where
  device_eq : slot.device = lr.device
  mem : (lr.birth, lr.death) ∈ slot.intervals
  fits : lr.size.toNat ≤ slot.highWaterMark.toNat

variable {lr : LiveRange δ}

theorem apart_of_admits {slot : BufferSlot δ} {lr' : LiveRange δ} (h : slot.admits lr = true)
    (h' : Hosts slot lr') : LiveRange.Apart lr lr' := by
  simp only [BufferSlot.admits, Bool.and_eq_true, all_eq_true] at h
  have hiv := h.2 _ h'.mem
  simp only [Bool.not_eq_true', Bool.and_eq_false_iff, decide_eq_false_iff_not, not_le] at hiv
  exact hiv.symm

theorem consider_admits {c : Candidates} {entry : BufferSlot δ × Nat}
    (hentry : slots[entry.2]? = some entry.1)
    (hc : ∀ s ∈ c.bestFit.toList ++ c.bestGrow.toList,
      ∃ slot, slots[s.1]? = some slot ∧ slot.admits lr = true) :
    ∀ s ∈ (c.consider lr alignedSize entry).bestFit.toList ++
        (c.consider lr alignedSize entry).bestGrow.toList,
      ∃ slot, slots[s.1]? = some slot ∧ slot.admits lr = true := by
  unfold Candidates.consider
  by_cases hadm : entry.1.admits lr = true
  · have hnew : ∃ slot, slots[entry.2]? = some slot ∧ slot.admits lr = true :=
      ⟨_, hentry, hadm⟩
    simp only [mem_append, mem_toList] at hc ⊢
    split_ifs with h₁ h₂ h₃ h₄
    · exact hc
    · rintro s (hs | hs)
      · obtain rfl := Option.some.inj hs
        exact hnew
      · exact hc s (.inr hs)
    · exact hc
    · rintro s (hs | hs)
      · exact hc s (.inl hs)
      · obtain rfl := Option.some.inj hs
        exact hnew
    · exact hc
  · simpa [hadm] using hc

/-- The chosen slot exists and admits the range. -/
theorem chooseSlot_spec {s : Nat} (h : chooseSlot slots lr alignedSize = some s) :
    ∃ slot, slots[s]? = some slot ∧ slot.admits lr = true := by
  have hfold : ∀ (l : List (BufferSlot δ × Nat)) (c : Candidates),
      (∀ entry ∈ l, slots[entry.2]? = some entry.1) →
      (∀ s ∈ c.bestFit.toList ++ c.bestGrow.toList,
        ∃ slot, slots[s.1]? = some slot ∧ slot.admits lr = true) →
      ∀ s ∈ (l.foldl (Candidates.consider lr alignedSize) c).bestFit.toList ++
          (l.foldl (Candidates.consider lr alignedSize) c).bestGrow.toList,
        ∃ slot, slots[s.1]? = some slot ∧ slot.admits lr = true := by
    intro l
    induction l with
    | nil => exact fun c _ hc => hc
    | cons entry rest ih =>
      intro c hl hc
      obtain ⟨hentry, hrest⟩ := forall_mem_cons.mp hl
      exact ih _ hrest (consider_admits hentry hc)
  have hall := hfold slots.zipIdx {} (fun entry he => mem_zipIdx_iff_getElem?.mp he)
    (by simp)
  simp only [chooseSlot, map_eq_some_iff] at h
  obtain ⟨best, hbest, rfl⟩ := h
  refine hall best ?_
  rw [Option.or_eq_some_iff] at hbest
  simp only [mem_append, mem_toList]
  exact hbest.imp_right And.right

/-- Every allocation has its range in its slot, and the ranges of one slot do
not meet. -/
structure Packed (done : List (LiveRange δ)) (st : Packing δ) : Prop where
  known : ∀ id a, st.allocations.lookup id = some a → id ∈ done.map LiveRange.valueId
  placed : ∀ lr ∈ done, ∀ a, st.allocations.lookup lr.valueId = some a →
    a.offset = 0 ∧ a.size = lr.size ∧ ∃ slot, st.slots[a.bufferId]? = some slot ∧ Hosts slot lr
  apart : ∀ lr ∈ done, ∀ lr' ∈ done, lr.valueId ≠ lr'.valueId → ∀ a a',
    st.allocations.lookup lr.valueId = some a → st.allocations.lookup lr'.valueId = some a' →
      a.bufferId = a'.bufferId → LiveRange.Apart lr lr'

omit [DecidableEq δ] in
theorem Packed.empty : Packed ([] : List (LiveRange δ)) {} :=
  ⟨fun _ _ ha => by simp at ha, fun _ h => by simp at h, fun _ h => by simp at h⟩

section Packing

variable {done : List (LiveRange δ)} {st : Packing δ} {lr : LiveRange δ} {x : LiveRange δ} {s : Nat}
  {alignedSize : UInt64} {slot : BufferSlot δ}

omit [DecidableEq δ] in
theorem Packed.mem_of_lookup (h : Packed done st) (hnew : lr.valueId ∉ done.map LiveRange.valueId)
    (hx : x ∈ done ++ [lr]) {a : BufferAllocation} (ha : st.allocations.lookup x.valueId = some a) :
    x ∈ done := by
  obtain hx | hx := mem_append.mp hx
  · exact hx
  · obtain rfl := mem_singleton.mp hx
    exact absurd (h.known _ a ha) hnew

omit [DecidableEq δ] in
theorem Packed.skip (h : Packed done st) (hnew : lr.valueId ∉ done.map LiveRange.valueId) :
    Packed (done ++ [lr]) st where
  known id a ha := by
    rw [map_append]
    exact mem_append_left _ (h.known id a ha)
  placed x hx a ha := h.placed x (h.mem_of_lookup hnew hx ha) a ha
  apart x hx y hy hne a b ha hb heq :=
    h.apart x (h.mem_of_lookup hnew hx ha) y (h.mem_of_lookup hnew hy hb) hne a b ha hb heq

omit [DecidableEq δ] in
/-- One more range in slot `s`. -/
theorem Packed.insert (h : Packed done st) (hnew : lr.valueId ∉ done.map LiveRange.valueId)
    {slots : List (BufferSlot δ)}
    (hkeep : ∀ (i : Nat) slot, st.slots[i]? = some slot → ∃ slot', slots[i]? = some slot' ∧
      ∀ x, Hosts slot x → Hosts slot' x)
    (hhost : ∃ slot, slots[s]? = some slot ∧ Hosts slot lr)
    (hfree : ∀ slot, st.slots[s]? = some slot → ∀ x, Hosts slot x → LiveRange.Apart lr x) :
    Packed (done ++ [lr])
      { slots := slots, allocations := st.allocations.insert lr.valueId ⟨s, 0, lr.size⟩ } := by
  have hold : ∀ x ∈ done ++ [lr], ∀ a,
      (st.allocations.insert lr.valueId ⟨s, 0, lr.size⟩).lookup x.valueId = some a →
      (x = lr ∧ a = ⟨s, 0, lr.size⟩) ∨
        x ∈ done ∧ st.allocations.lookup x.valueId = some a := by
    intro x hx a ha
    obtain hx | hx := mem_append.mp hx
    · have hne : x.valueId ≠ lr.valueId := fun he => hnew (he ▸ mem_map_of_mem hx)
      rw [AList.lookup_insert_ne hne] at ha
      exact .inr ⟨hx, ha⟩
    · obtain rfl := mem_singleton.mp hx
      rw [AList.lookup_insert] at ha
      exact .inl ⟨rfl, (Option.some.inj ha).symm⟩
  -- A range placed before sits in a slot the new one was checked against.
  have hnewApart : ∀ x ∈ done, ∀ a, st.allocations.lookup x.valueId = some a →
      s = a.bufferId → LiveRange.Apart lr x := by
    intro x hx a ha hs
    obtain ⟨-, -, slot, hslot, hhosts⟩ := h.placed x hx a ha
    exact hfree slot (hs ▸ hslot) x hhosts
  refine ⟨?_, ?_, ?_⟩
  · intro id a ha
    rw [map_append]
    by_cases hid : id = lr.valueId
    · exact mem_append_right _ (by simp [hid])
    · rw [AList.lookup_insert_ne hid] at ha
      exact mem_append_left _ (h.known id a ha)
  · intro x hx a ha
    obtain ⟨rfl, rfl⟩ | ⟨hx, ha⟩ := hold x hx a ha
    · exact ⟨rfl, rfl, hhost⟩
    · obtain ⟨hoff, hsize, slot, hslot, hhosts⟩ := h.placed x hx a ha
      obtain ⟨slot', hslot', hmono⟩ := hkeep _ _ hslot
      exact ⟨hoff, hsize, slot', hslot', hmono x hhosts⟩
  · intro x hx y hy hne a b ha hb heq
    obtain ⟨rfl, rfl⟩ | ⟨hx', ha'⟩ := hold x hx a ha
    · obtain ⟨rfl, -⟩ | ⟨hy', hb'⟩ := hold y hy b hb
      · exact absurd rfl hne
      · exact hnewApart y hy' b hb' heq
    · obtain ⟨rfl, rfl⟩ | ⟨hy', hb'⟩ := hold y hy b hb
      · exact (hnewApart x hx' a ha' heq.symm).symm
      · exact h.apart x hx' y hy' hne a b ha' hb' heq

omit [DecidableEq δ] in
theorem le_occupy (slot : BufferSlot δ) :
    slot.highWaterMark.toNat ≤ (slot.occupy lr alignedSize).highWaterMark.toNat ∧
      alignedSize.toNat ≤ (slot.occupy lr alignedSize).highWaterMark.toNat := by
  unfold BufferSlot.occupy
  dsimp only
  split_ifs with hlt
  · exact ⟨Nat.le_of_lt (UInt64.lt_iff_toNat_lt.mp hlt), Nat.le_refl _⟩
  · rw [UInt64.lt_iff_toNat_lt, Nat.not_lt] at hlt
    exact ⟨Nat.le_refl _, hlt⟩

/-- The three ways to place a range. -/
theorem place_cases (st : Packing δ) (lr : LiveRange δ) :
    p.place st lr = st ∨ p.alignUp lr.size ≠ 0 ∧
      ((∃ s, chooseSlot st.slots lr (p.alignUp lr.size) = some s ∧ p.place st lr =
        { slots := st.slots.modify s (BufferSlot.occupy lr (p.alignUp lr.size))
          allocations := st.allocations.insert lr.valueId ⟨s, 0, lr.size⟩ }) ∨
      p.place st lr =
        { slots := st.slots ++ [⟨p.alignUp lr.size, [(lr.birth, lr.death)], lr.device⟩]
          allocations := st.allocations.insert lr.valueId ⟨st.slots.length, 0, lr.size⟩ }) := by
  unfold MemoryPlanner.place
  generalize p.alignUp lr.size = alignedSize
  by_cases hzero : alignedSize = 0
  · exact .inl (if_pos hzero)
  · refine .inr ⟨hzero, ?_⟩
    simp only [hzero, if_false]
    cases chooseSlot st.slots lr alignedSize with
    | some s => exact .inl ⟨s, rfl, rfl⟩
    | none => exact .inr rfl

omit [DecidableEq δ] in
theorem Hosts.occupy (h : Hosts slot x) : Hosts (slot.occupy lr alignedSize) x :=
  ⟨h.device_eq, mem_append_left _ h.mem, h.fits.trans (le_occupy slot).1⟩

omit [DecidableEq δ] in
theorem hosts_occupy (hdev : slot.device = lr.device) (hfits : lr.size.toNat ≤ alignedSize.toNat) :
    Hosts (slot.occupy lr alignedSize) lr :=
  ⟨hdev, mem_append_right _ mem_cons_self, hfits.trans (le_occupy slot).2⟩

/-- The range goes into a slot that admits it. -/
theorem Packed.reuse (h : Packed done st) (hnew : lr.valueId ∉ done.map LiveRange.valueId)
    (hfits : lr.size.toNat ≤ alignedSize.toNat) (hslot : st.slots[s]? = some slot)
    (hadm : slot.admits lr = true) :
    Packed (done ++ [lr])
      { slots := st.slots.modify s (BufferSlot.occupy lr alignedSize)
        allocations := st.allocations.insert lr.valueId ⟨s, 0, lr.size⟩ } := by
  have hdev : slot.device = lr.device := by
    simp only [BufferSlot.admits, Bool.and_eq_true, decide_eq_true_eq] at hadm
    exact hadm.1
  refine h.insert hnew ?_ ⟨slot.occupy lr alignedSize, ?_, hosts_occupy hdev hfits⟩ ?_
  · intro i x hx
    by_cases his : s = i
    · subst his
      exact ⟨x.occupy lr alignedSize, by simp [hx], fun y hy => hy.occupy⟩
    · exact ⟨x, by simp [his, hx], fun y hy => hy⟩
  · simp [hslot]
  · intro slot' hslot' x hx
    obtain rfl := Option.some.inj (hslot.symm.trans hslot')
    exact apart_of_admits hadm hx

omit [DecidableEq δ] in
/-- The range gets a slot of its own. -/
theorem Packed.fresh (h : Packed done st) (hnew : lr.valueId ∉ done.map LiveRange.valueId)
    (hfits : lr.size.toNat ≤ alignedSize.toNat) :
    Packed (done ++ [lr])
      { slots := st.slots ++ [⟨alignedSize, [(lr.birth, lr.death)], lr.device⟩]
        allocations := st.allocations.insert lr.valueId ⟨st.slots.length, 0, lr.size⟩ } := by
  refine h.insert hnew ?_ ⟨⟨alignedSize, [(lr.birth, lr.death)], lr.device⟩, ?_, ?_⟩ ?_
  · intro i x hx
    refine ⟨x, ?_, fun y hy => hy⟩
    rw [getElem?_append_left (List.getElem?_eq_some_iff.mp hx).1, hx]
  · exact getElem?_concat_length
  · exact ⟨rfl, mem_singleton_self _, hfits⟩
  · intro slot' hslot'
    simp at hslot'

theorem Packed.place (h : Packed done st) (hnew : lr.valueId ∉ done.map LiveRange.valueId) :
    Packed (done ++ [lr]) (p.place st lr) := by
  obtain heq | ⟨hzero, ⟨s, hs, heq⟩ | heq⟩ := p.place_cases st lr
  · rw [heq]
    exact h.skip hnew
  · obtain ⟨slot, hslot, hadm⟩ := chooseSlot_spec hs
    rw [heq]
    exact h.reuse hnew (le_alignUp hzero) hslot hadm
  · rw [heq]
    exact h.fresh hnew (le_alignUp hzero)

theorem Packed.foldl (h : Packed done st) (rest : List (LiveRange δ))
    (hnd : ((done ++ rest).map LiveRange.valueId).Nodup) :
    Packed (done ++ rest) (rest.foldl p.place st) := by
  induction rest generalizing done st with
  | nil => simpa using h
  | cons lr rest ih =>
    have hnew : lr.valueId ∉ done.map LiveRange.valueId := by
      rw [map_append] at hnd
      exact fun hmem => (nodup_append.mp hnd).2.2 _ hmem _ mem_cons_self rfl
    have := ih (h.place (p := p) hnew) (by simpa using hnd)
    simpa using this

/-- The greedy assignment packs every range, whatever order it takes them in. -/
theorem greedyAssign_packed {ranges : List (LiveRange δ)}
    (hnd : (ranges.map LiveRange.valueId).Nodup) :
    ∃ st, Packed ranges st ∧
      p.greedyAssign ranges = (st.slots.map BufferSlot.highWaterMark, st.allocations) := by
  have hperm : ((p.hashOrder ranges).insertionSort before).Perm ranges :=
    (perm_insertionSort _ _).trans (p.hashOrder_perm ranges)
  have h := Packed.empty.foldl (p := p) ((p.hashOrder ranges).insertionSort before)
    ((hperm.map LiveRange.valueId).nodup_iff.mpr hnd)
  refine ⟨_, ⟨?_, ?_, ?_⟩, rfl⟩
  · exact fun id a ha => (hperm.map LiveRange.valueId).mem_iff.mp (h.known id a ha)
  · exact fun x hx => h.placed x (hperm.mem_iff.mpr hx)
  · exact fun x hx y hy => h.apart x (hperm.mem_iff.mpr hx) y (hperm.mem_iff.mpr hy)

/-- The bytes of the buffers. -/
def poolBytes (slots : List (BufferSlot δ)) : ℕ := (slots.map fun x => x.highWaterMark.toNat).sum

omit [DecidableEq δ] in
theorem poolBytes_occupy (slots : List (BufferSlot δ)) (s : Nat) :
    poolBytes (slots.modify s (BufferSlot.occupy lr alignedSize)) ≤
      poolBytes slots + alignedSize.toNat := by
  unfold poolBytes
  induction slots generalizing s with
  | nil => simp
  | cons slot slots ih =>
    cases s with
    | zero =>
      have hgrown : (slot.occupy lr alignedSize).highWaterMark.toNat ≤
          slot.highWaterMark.toNat + alignedSize.toNat := by
        unfold BufferSlot.occupy
        dsimp only
        split_ifs <;> omega
      simp only [modify_zero_cons, map_cons, sum_cons]
      omega
    | succ s =>
      have hrest := ih s
      simp only [modify_succ_cons, map_cons, sum_cons]
      omega

omit [DecidableEq δ] in
theorem poolBytes_concat (slots : List (BufferSlot δ)) (slot : BufferSlot δ) :
    poolBytes (slots ++ [slot]) = poolBytes slots + slot.highWaterMark.toNat := by
  simp [poolBytes]

/-- A range adds at most one buffer, and at most its own aligned size. -/
theorem place_grows (st : Packing δ) (lr : LiveRange δ) :
    (p.place st lr).slots.length ≤ st.slots.length + 1 ∧
      poolBytes (p.place st lr).slots ≤ poolBytes st.slots + (p.alignUp lr.size).toNat := by
  have hcases := p.place_cases st lr
  generalize p.alignUp lr.size = alignedSize at hcases ⊢
  obtain heq | ⟨-, ⟨s, -, heq⟩ | heq⟩ := hcases
  · rw [heq]
    exact ⟨Nat.le_succ _, Nat.le_add_right _ _⟩
  · rw [heq, length_modify]
    exact ⟨Nat.le_succ _, poolBytes_occupy _ s⟩
  · rw [heq, poolBytes_concat, length_append]
    exact ⟨Nat.le_refl _, Nat.le_refl _⟩

theorem foldl_place_grows (ranges : List (LiveRange δ)) (st : Packing δ) :
    (ranges.foldl p.place st).slots.length ≤ st.slots.length + ranges.length ∧
      poolBytes (ranges.foldl p.place st).slots ≤
        poolBytes st.slots + (ranges.map fun lr => (p.alignUp lr.size).toNat).sum := by
  induction ranges generalizing st with
  | nil => simp
  | cons lr ranges ih =>
    obtain ⟨hlen, hbytes⟩ := p.place_grows st lr
    obtain ⟨hlens, hall⟩ := ih (p.place st lr)
    rw [map_cons, sum_cons, foldl_cons, length_cons]
    generalize (p.alignUp lr.size).toNat = n at hbytes ⊢
    omega

/-- The pools are never more, nor larger, than a buffer for each value. -/
theorem greedyAssign_le (ranges : List (LiveRange δ)) :
    (p.greedyAssign ranges).1.length ≤ ranges.length ∧
      ((p.greedyAssign ranges).1.map UInt64.toNat).sum ≤
        (ranges.map fun lr => (p.alignUp lr.size).toNat).sum := by
  have hperm : ((p.hashOrder ranges).insertionSort before).Perm ranges :=
    (perm_insertionSort _ _).trans (p.hashOrder_perm ranges)
  obtain ⟨hlen, hbytes⟩ := p.foldl_place_grows ((p.hashOrder ranges).insertionSort before) {}
  have hnone : poolBytes (Packing.slots ({} : Packing δ)) = 0 := rfl
  rw [hperm.length_eq, length_nil, Nat.zero_add] at hlen
  rw [(hperm.map _).sum_eq, hnone, Nat.zero_add] at hbytes
  rw [greedyAssign, length_map, map_map]
  exact ⟨hlen, hbytes⟩

end Packing

/-! ## The shared run -/

/-- A planned value is stored in its buffer, every other one under its id. -/
def location (plan : MemoryPlan) (id : String) : String ⊕ Nat :=
  match plan.valueAllocations.lookup id with
  | some a => .inr a.bufferId
  | none => .inl id

/-- The buffers hold whatever an earlier run left there. -/
def initialIn (g : Graph T S) (stale : Nat → Option T) (ins : List T) : Store (String ⊕ Nat) T
  | .inl id => g.initial ins id
  | .inr b => stale b

def notAvailable (id : String) : Exn := .runtimeError ("Input value not available: " ++ id)

/-- `forward` with every planned value stored in its buffer. -/
def forwardIn (plan : MemoryPlan) (stale : Nat → Option T) (exec : Exec T S) (g : Graph T S)
    (ins : List T) : Except Exn (List T) := do
  throwIf (ins.length ≠ g.inputs.length) (.runtimeError "Input count mismatch")
  Dataflow.run (fun _ => .runtimeError "Input value not available")
    (fun _ => .runtimeError "Output value not computed")
    (initialIn g stale ins) ((g.nodes.map (g.stmt exec)).map (Stmt.place (location plan)))
    ((g.outputs.map g.idOf).map (location plan))

variable (p) in
/-- What the planner owes to a sorted graph. -/
structure Safe (g : Graph T S) (plan : MemoryPlan) : Prop where
  /-- An allocation is that of a live range, which starts at the producer. -/
  ranged : ∀ id a, plan.valueAllocations.lookup id = some a →
    ∃ lr ∈ p.computeLiveRanges g, lr.valueId = id ∧ a.size = lr.size ∧
      ∃ n, g.nodes[lr.birth]? = some n ∧ id ∈ (g.outputsOf n).map g.idOf
  /-- A node reads a value after its producer and within the range. -/
  reads : ∀ lr ∈ p.computeLiveRanges g, ∀ (j : Nat) n, g.nodes[j]? = some n →
    lr.valueId ∈ (g.inputsOf n).map g.idOf → lr.birth < j ∧ j ≤ lr.death
  /-- The range reaches over the subgraphs that mention the value. -/
  bodies : ∀ lr ∈ p.computeLiveRanges g, ∀ (j : Nat) n, g.nodes[j]? = some n →
    lr.valueId ∈ p.readsOf g n → lr.birth ≤ j → j ≤ lr.death
  apart : ∀ lr ∈ p.computeLiveRanges g, ∀ lr' ∈ p.computeLiveRanges g,
    lr.valueId ≠ lr'.valueId → ∀ a a', plan.valueAllocations.lookup lr.valueId = some a →
      plan.valueAllocations.lookup lr'.valueId = some a' → a.bufferId = a'.bufferId →
        LiveRange.Apart lr lr' ∧ lr.device = lr'.device
  fits : ∀ id a, plan.valueAllocations.lookup id = some a →
    ∃ size, plan.poolSizes[a.bufferId]? = some size ∧
      a.offset.toNat + a.size.toNat ≤ size.toNat
  private_io : ∀ v, v ∈ g.inputs ∨ v ∈ g.outputs →
    plan.valueAllocations.lookup (g.idOf v) = none
  /-- As far as a run with private storage gets, the run with shared buffers
  gets too, and the next node reads the same tensors. -/
  sameReads : ∀ (exec : Exec T S) (stale : Nat → Option T) (ins : List T) (k : Nat) σ,
    execAll notAvailable ((g.nodes.map (g.stmt exec)).take k) (g.initial ins) = .ok σ →
      ∃ σ', execAll (fun _ => Exn.runtimeError "Input value not available")
          (((g.nodes.map (g.stmt exec)).map (Stmt.place (location plan))).take k)
          (initialIn g stale ins) = .ok σ' ∧
        ∀ n, g.nodes[k]? = some n → ∀ xs : List T,
          ((g.inputsOf n).map g.idOf).map σ = xs.map some →
            ((g.inputsOf n).map fun v => location plan (g.idOf v)).map σ' = xs.map some
  sameOutputs : ∀ (exec : Exec T S) (stale : Nat → Option T) (ins outs : List T),
    g.forward exec ins = .ok outs → forwardIn plan stale exec g ins = .ok outs

section Run

variable {g : Graph T S} {plan : MemoryPlan} {lr : LiveRange δ}

omit [DecidableEq δ] in
theorem excluded_of_idOf {v w : ValRef} (hv : v ∈ g.inputs ∨ v ∈ g.outputs)
    (hid : g.idOf v = g.idOf w) : isExcluded g w = true := by
  unfold isExcluded
  simp only [Bool.or_eq_true, any_eq_true, decide_eq_true_eq]
  exact .inl (hv.imp (fun h => ⟨v, h, hid⟩) fun h => ⟨v, h, hid⟩)

omit [DecidableEq δ] in
/-- The producer of a tracked value is the node at the start of its range. -/
theorem idxOf_birth (h : g.WellFormed) (hlr : lr ∈ p.computeLiveRanges g) {m : NodeRef}
    (hm : m ∈ g.nodes) {w : ValRef} (hw : w ∈ g.outputsOf m) (hid : g.idOf w = lr.valueId) :
    g.nodes.idxOf m = lr.birth := by
  obtain ⟨hlookup, -⟩ := mem_computeLiveRanges hlr
  obtain ⟨n, v, hn, hv, hvid, -⟩ := (tracked_rangeMap hlookup).born
  have hmem : n ∈ g.nodes := mem_of_getElem? hn
  have hvw : v = w := h.id_inj (Graph.live_outputsOf hmem hv) (Graph.live_outputsOf hm hw)
    (hvid.trans hid.symm)
  obtain rfl : n = m := h.producer_unique hmem hv hm (hvw ▸ hw)
  obtain ⟨hlt, hget⟩ := List.getElem?_eq_some_iff.mp hn
  rw [← hget, h.nodes_nodup.idxOf_getElem]

omit [DecidableEq δ] in
theorem reads_between (h : g.WellFormed) (hord : g.InOrder) (hlr : lr ∈ p.computeLiveRanges g)
    {j : Nat} {n : NodeRef} (hn : g.nodes[j]? = some n)
    (hread : lr.valueId ∈ (g.inputsOf n).map g.idOf) : lr.birth < j ∧ j ≤ lr.death := by
  obtain ⟨hlookup, -⟩ := mem_computeLiveRanges hlr
  have ht := tracked_rangeMap hlookup
  obtain ⟨v, hv, hvid⟩ := mem_map.mp hread
  obtain ⟨m, w, hm, hw, hwid, -⟩ := ht.born
  have hnmem : n ∈ g.nodes := mem_of_getElem? hn
  have hmmem : m ∈ g.nodes := mem_of_getElem? hm
  have hvw : v = w := h.id_inj (Graph.live_inputsOf hnmem hv) (Graph.live_outputsOf hmmem hw)
    (hvid.trans hwid.symm)
  have hlt := hord n hnmem v hv m hmmem (hvw ▸ hw)
  obtain ⟨hj, hget⟩ := List.getElem?_eq_some_iff.mp hn
  simp only [idxOf_birth h hlr hmmem hw hwid, ← hget, h.nodes_nodup.idxOf_getElem] at hlt
  refine ⟨hlt, ht.covers j n hj (Nat.le_of_lt hlt) hn ?_⟩
  exact mem_append_left _ hread

omit [DecidableEq δ] in
/-- The values of one buffer are on one device. -/
theorem Packed.device_eq {done : List (LiveRange δ)} {st : Packing δ} (h : Packed done st)
    {lr' : LiveRange δ} (hlr : lr ∈ done) (hlr' : lr' ∈ done) {a a' : BufferAllocation}
    (ha : st.allocations.lookup lr.valueId = some a)
    (ha' : st.allocations.lookup lr'.valueId = some a') (heq : a.bufferId = a'.bufferId) :
    lr.device = lr'.device := by
  obtain ⟨-, -, slot, hslot, hhosts⟩ := h.placed lr hlr a ha
  obtain ⟨-, -, slot', hslot', hhosts'⟩ := h.placed lr' hlr' a' ha'
  obtain rfl : slot = slot' := Option.some.inj (hslot.symm.trans (heq ▸ hslot'))
  exact hhosts.device_eq.symm.trans hhosts'.device_eq

omit [DecidableEq δ] in
theorem location_of_none {id : String} (h : plan.valueAllocations.lookup id = none) :
    location plan id = .inl id := by
  simp [location, h]

omit [DecidableEq δ] in
/-- Two names share a location only as planned values of one buffer. -/
theorem eq_or_planned {i j : String} (h : location plan i = location plan j) :
    i = j ∨ ∃ a b, plan.valueAllocations.lookup i = some a ∧
      plan.valueAllocations.lookup j = some b ∧ a.bufferId = b.bufferId := by
  unfold location at h
  cases hi : plan.valueAllocations.lookup i with
  | none =>
    cases hj : plan.valueAllocations.lookup j with
    | none => exact .inl (by simpa [hi, hj] using h)
    | some b => simp [hi, hj] at h
  | some a =>
    cases hj : plan.valueAllocations.lookup j with
    | none => simp [hi, hj] at h
    | some b => exact .inr ⟨a, b, rfl, rfl, by simpa [hi, hj] using h⟩

section Planned

variable {st : Packing δ} (hst : Packed (p.computeLiveRanges g) st)
  (halloc : plan.valueAllocations = st.allocations) {id : String} {a : BufferAllocation}

omit [DecidableEq δ] in
include hst halloc in
/-- A planned value is the output of a node, and no input or output of the graph. -/
theorem range_of_lookup (ha : plan.valueAllocations.lookup id = some a) :
    ∃ lr ∈ p.computeLiveRanges g, lr.valueId = id ∧ a.size = lr.size ∧
      ∃ n v, g.nodes[lr.birth]? = some n ∧ v ∈ g.outputsOf n ∧ g.idOf v = id ∧
        isExcluded g v = false := by
  rw [halloc] at ha
  obtain ⟨lr, hlr, rfl⟩ := mem_map.mp (hst.known id a ha)
  obtain ⟨-, hsize, -⟩ := hst.placed lr hlr a ha
  exact ⟨lr, hlr, rfl, hsize, (tracked_rangeMap (mem_computeLiveRanges hlr).1).born⟩

omit [DecidableEq δ] in
include hst halloc in
theorem lookup_io {v : ValRef} (hv : v ∈ g.inputs ∨ v ∈ g.outputs) :
    plan.valueAllocations.lookup (g.idOf v) = none := by
  by_contra hne
  obtain ⟨a, ha⟩ := Option.ne_none_iff_exists'.mp hne
  obtain ⟨-, -, -, -, n, w, -, -, hid, hex⟩ := range_of_lookup hst halloc ha
  rw [excluded_of_idOf hv hid.symm] at hex
  exact Bool.noConfusion hex

omit [DecidableEq δ] in
include hst halloc in
/-- A planned value is not bound before its producer runs. -/
theorem initial_of_planned (h : g.WellFormed) {ins : List T}
    (ha : plan.valueAllocations.lookup id = some a) : g.initial ins id = none := by
  obtain ⟨_, -, -, -, n, v, hn, hv, rfl, -⟩ := range_of_lookup hst halloc ha
  have hmem : n ∈ g.nodes := mem_of_getElem? hn
  obtain ⟨hin, hconst⟩ := h.output_apart n hmem v hv
  rw [Graph.initial_of_not_input h (Graph.live_outputsOf hmem hv) hin, hconst]

omit [DecidableEq δ] in
include hst halloc in
/-- A write never reaches the buffer of a value that is still read. -/
theorem apart_location (h : g.WellFormed) (hord : g.InOrder) (exec : Exec T S) (ins : List T) :
    Dataflow.Apart (g.initial ins) (g.nodes.map (g.stmt exec)) (g.outputs.map g.idOf)
      (location plan) := by
  intro k s hs w hw v hawait hassign heq
  obtain hvw | ⟨a, b, ha, hb, hab⟩ := eq_or_planned heq
  · exact hvw
  by_contra hne
  rw [getElem?_map, map_eq_some_iff] at hs
  obtain ⟨n, hn, rfl⟩ := hs
  obtain ⟨lv, hlv, rfl, -⟩ := range_of_lookup hst halloc ha
  obtain ⟨lw, hlw, rfl, -⟩ := range_of_lookup hst halloc hb
  have hbirth : ∀ (lr : LiveRange δ), lr ∈ p.computeLiveRanges g → ∀ (j : Nat) m,
      g.nodes[j]? = some m → lr.valueId ∈ (g.stmt exec m).writes → lr.birth = j := by
    intro lr hlr j m hm hmem
    obtain ⟨x, hx, hid⟩ := mem_map.mp hmem
    obtain ⟨hj, hget⟩ := List.getElem?_eq_some_iff.mp hm
    rw [← idxOf_birth h hlr (mem_of_getElem? hm) hx hid, ← hget,
      h.nodes_nodup.idxOf_getElem]
  -- `w` is born at `k`; `v` was written by then and is read after `k`.
  have hkw : lw.birth = k := hbirth lw hlw k n hn hw
  have hvk : lv.birth ≤ k := by
    obtain hinit | ⟨j, s, hj, hsj, hmem⟩ := hassign
    · exact absurd (initial_of_planned hst halloc h ha) hinit
    · rw [getElem?_map, map_eq_some_iff] at hsj
      obtain ⟨m, hm, rfl⟩ := hsj
      rw [hbirth lv hlv j m hm hmem]
      exact Nat.le_of_lt_succ hj
  have hkv : k < lv.death := by
    obtain hout | ⟨j, s, hj, hsj, hmem⟩ := hawait
    · obtain ⟨x, hx, hid⟩ := mem_map.mp hout
      rw [← hid, lookup_io hst halloc (.inr hx)] at ha
      simp at ha
    · rw [getElem?_map, map_eq_some_iff] at hsj
      obtain ⟨m, hm, rfl⟩ := hsj
      exact Nat.lt_of_lt_of_le hj (reads_between h hord hlv hm hmem).2
  have hbw := (tracked_rangeMap (mem_computeLiveRanges hlw).1).birth_le
  rw [halloc] at ha hb
  obtain hlt | hlt := hst.apart lv hlv lw hlw hne a b ha hb hab
  · omega
  · dsimp only at hbw
    omega

omit [DecidableEq δ] in
include hst halloc in
theorem holds_initialIn (h : g.WellFormed) (exec : Exec T S) (stale : Nat → Option T)
    (ins : List T) :
    Holds (Awaited (g.nodes.map (g.stmt exec)) (g.outputs.map g.idOf) 0) (location plan)
      (g.initial ins) (initialIn g stale ins) := by
  intro v x _ hx
  cases ha : plan.valueAllocations.lookup v with
  | none =>
    rw [location_of_none ha]
    exact hx
  | some a => simp [initial_of_planned hst halloc h ha] at hx

omit [DecidableEq δ] in
/-- A plan that packs the live ranges is safe. -/
theorem safe_of_packed (h : g.WellFormed) (hord : g.InOrder)
    (hst : Packed (p.computeLiveRanges g) st) (halloc : plan.valueAllocations = st.allocations)
    (hpool : plan.poolSizes = st.slots.map BufferSlot.highWaterMark) : Safe p g plan where
  ranged id a ha := by
    obtain ⟨lr, hlr, hid, hsize, n, v, hn, hv, hvid, -⟩ := range_of_lookup hst halloc ha
    exact ⟨lr, hlr, hid, hsize, n, hn, mem_map.mpr ⟨v, hv, hvid⟩⟩
  reads lr hlr j n hn hread := reads_between h hord hlr hn hread
  bodies lr hlr j n hn hread hj := by
    obtain ⟨hlt, -⟩ := List.getElem?_eq_some_iff.mp hn
    exact (tracked_rangeMap (mem_computeLiveRanges hlr).1).covers j n hlt hj hn hread
  apart lr hlr lr' hlr' hne a a' ha ha' heq := by
    rw [halloc] at ha ha'
    exact ⟨hst.apart lr hlr lr' hlr' hne a a' ha ha' heq, hst.device_eq hlr hlr' ha ha' heq⟩
  fits id a ha := by
    rw [halloc] at ha
    obtain ⟨lr, hlr, rfl⟩ := mem_map.mp (hst.known id a ha)
    obtain ⟨hoff, hsize, slot, hslot, hhosts⟩ := hst.placed lr hlr a ha
    refine ⟨slot.highWaterMark, by rw [hpool, getElem?_map, hslot, map_some], ?_⟩
    rw [hoff, hsize, UInt64.toNat_zero, Nat.zero_add]
    exact hhosts.fits
  private_io v hv := lookup_io hst halloc hv
  sameReads exec stale ins k σ hσ := by
    obtain ⟨σ', hσ', hholds⟩ := execAll_place (fun _ => Exn.runtimeError "Input value not available")
      (apart_location hst halloc h hord exec ins) (holds_initialIn hst halloc h exec stale ins) hσ
    refine ⟨σ', hσ', fun n hn xs hxs => ?_⟩
    have hreads := hholds.map_eq (fun v hv => .inr ⟨k, g.stmt exec n, Nat.le_refl k,
      by rw [getElem?_map, hn, map_some], hv⟩) hxs
    simpa [Graph.stmt, map_map, Function.comp_def] using hreads
  sameOutputs exec stale ins outs hrun := by
    simp only [Graph.forward, forwardIn, bind_eq_ok, throwIf_eq_ok] at hrun ⊢
    obtain ⟨u, hlen, hrun⟩ := hrun
    exact ⟨u, hlen, run_place (apart_location hst halloc h hord exec ins)
      (holds_initialIn hst halloc h exec stale ins) hrun⟩

end Planned

end Run

/-- Planning sorts the graph and leaves a plan that is safe for it, whatever the
alignment and the order in which the ranges are taken. -/
theorem plan_safe {g : Graph T S} (h : g.WellFormed) :
    ∃ l plan, p.plan g = .ok ({ g with nodes := l }, plan) ∧ l.Perm g.nodes ∧
      Safe p { g with nodes := l } plan := by
  obtain ⟨l, hsort, hperm, hord⟩ := Graph.topologicalSort_sorted h
  have hwf := h.reorder hperm
  let g' : Graph T S := { g with nodes := l }
  obtain ⟨st, hst, hgreedy⟩ := greedyAssign_packed (p := p)
    (nodup_computeLiveRanges : ((p.computeLiveRanges g').map LiveRange.valueId).Nodup)
  by_cases hempty : (p.computeLiveRanges g').isEmpty
  · have hnone : Packed (p.computeLiveRanges g') {} := by
      rw [List.isEmpty_iff.mp hempty]
      exact Packed.empty
    refine ⟨l, {}, ?_, hperm, safe_of_packed hwf hord hnone rfl rfl⟩
    rw [MemoryPlanner.plan, hsort]
    exact if_pos hempty
  · have hplan : p.plan g = .ok (g',
        { poolSizes := (p.greedyAssign (p.computeLiveRanges g')).1
          valueAllocations := (p.greedyAssign (p.computeLiveRanges g')).2
          totalMemory := (p.greedyAssign (p.computeLiveRanges g')).1.sum
          numValuesPlanned := (p.computeLiveRanges g').length
          numValuesReused := countReused (p.greedyAssign (p.computeLiveRanges g')).2 }) := by
      rw [MemoryPlanner.plan, hsort]
      exact if_neg hempty
    exact ⟨l, _, hplan, hperm, safe_of_packed hwf hord hst (congrArg Prod.snd hgreedy)
      (congrArg Prod.fst hgreedy)⟩

/-- Four activations in a row: the first and the third share a buffer. -/
def activationChain : GraphLiteral Int Empty where
  vals := [{ id := "x", uses := [0] }, { id := "a", node := some 0, uses := [1] },
    { id := "b", node := some 1, uses := [2] }, { id := "c", node := some 2, uses := [3] },
    { id := "y", node := some 3 }]
  nodeList := [{ opType := .neg, inputs := [0], outputs := [1] },
    { opType := .relu, inputs := [1], outputs := [2] },
    { opType := .neg, inputs := [2], outputs := [3] },
    { opType := .relu, inputs := [3], outputs := [4] }]
  order := [0, 1, 2, 3]
  inputs := [0]
  outputs := [4]

def cpuPlanner : MemoryPlanner Empty Unit where
  device _ := ()
  bodyReads := nofun
  hashOrder l := l
  hashOrder_perm _ := Perm.refl _

example : ((cpuPlanner.plan activationChain.toGraph).toOption.map fun r =>
    r.2.valueAllocations.entries.map fun e => (e.1, e.2.bufferId)) =
      some [("c", 0), ("b", 1), ("a", 0)] := by
  decide +kernel

theorem plan_safe_chain : ∃ l plan,
    cpuPlanner.plan activationChain.toGraph =
      .ok ({ activationChain.toGraph with nodes := l }, plan) ∧
    l.Perm [0, 1, 2, 3] ∧ Safe cpuPlanner { activationChain.toGraph with nodes := l } plan :=
  plan_safe (GraphLiteral.wellFormed (by decide +kernel)).1

end MemoryPlanner

end Tenzor.Jit
