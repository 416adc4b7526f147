import Tenzor.Lite.MemoryPlanner
import Mathlib.Algebra.Order.BigOperators.GroupWithZero.List

/-!
# Plans of the lite memory planner

The planner follows first-fit placement with unbounded numbers exactly as long
as nothing wraps, and then the plan passes the check at load time, keeps
tensors that are live together apart and stays inside its pool.
-/

namespace Tenzor.Lite

variable {shape : List Int64} {elem n i alignment : ℕ} {id : Int16} {met : List (Int16 × ℕ)}
  {out items : List LiveTensor} {p : Placed} {state state' : List LiveTensor × List Placed}
  {placed : List Placed} {plan : MmplPlan}

open Throwing FirstFit List
open Option (bind_eq_bind bind_eq_some_iff)

/-- Every dimension is positive and the exact byte size fits a word. -/
def Sized (tv : TensorValue) : Prop :=
  (∀ d ∈ tv.shape, 0 < d.toInt) ∧
    (tv.shape.map fun d => d.toInt.toNat).prod * dtypeSize tv.dtype ≤ uint64Max

theorem checkedMul_eq_some {a b r : ℕ} :
    checkedMul a b = some r ↔ a * b ≤ uint64Max ∧ r = a * b := by
  unfold checkedMul
  rcases Nat.eq_zero_or_pos a with rfl | ha
  · simp [uint64Max, eq_comm]
  · simp only [ne_eq, ha.ne', not_false_eq_true, true_and, gt_iff_lt, Nat.div_lt_iff_lt_mul ha,
      Nat.mul_comm b a]
    split_ifs with h
    · simp only [false_iff, not_and]
      omega
    · simp only [Option.some.injEq]
      omega

theorem prod_pos_of_forall (hpos : ∀ d ∈ shape, 0 < d.toInt) :
    0 < (shape.map fun d => d.toInt.toNat).prod := by
  apply List.prod_pos
  intro m hm
  obtain ⟨d, hd, rfl⟩ := mem_map.mp hm
  have hd := hpos d hd
  omega

/-- Sizes that fit are computed exactly, by the planner and by the loader. -/
theorem bytesFrom_eq (helem : 0 < elem) (hpos : ∀ d ∈ shape, 0 < d.toInt)
    (hfit : n * (shape.map fun d => d.toInt.toNat).prod * elem ≤ uint64Max) (err : String → Exn) :
    bytesFrom elem shape n = n * (shape.map fun d => d.toInt.toNat).prod * elem ∧
      checkedNumel err shape n = .ok (n * (shape.map fun d => d.toInt.toNat).prod) := by
  induction shape generalizing n with
  | nil =>
    simp only [map_nil, prod_nil, Nat.mul_one] at hfit ⊢
    exact ⟨by rw [bytesFrom, checkedMul_eq_some.mpr ⟨hfit, rfl⟩, Option.getD_some], rfl⟩
  | cons d rest ih =>
    obtain ⟨hd, hrest⟩ := forall_mem_cons.mp hpos
    have hprod := prod_pos_of_forall hrest
    rw [map_cons, prod_cons, ← Nat.mul_assoc] at hfit ⊢
    have hle : n * d.toInt.toNat ≤ uint64Max := by
      calc n * d.toInt.toNat
          ≤ n * d.toInt.toNat * (rest.map fun d => d.toInt.toNat).prod :=
            Nat.le_mul_of_pos_right _ hprod
        _ ≤ n * d.toInt.toNat * (rest.map fun d => d.toInt.toNat).prod * elem :=
            Nat.le_mul_of_pos_right _ helem
        _ ≤ uint64Max := hfit
    obtain ⟨hbytes, hnumel⟩ := ih hrest hfit
    constructor
    · rw [bytesFrom, if_neg (by omega), checkedMul_eq_some.mpr ⟨hle, rfl⟩]
      exact hbytes
    · rw [checkedNumel, throwIf, if_neg (by omega), throwIf,
        if_neg (by rw [numel_overflows]; omega)]
      exact hnumel

/-- A size that the loader accepts and the planner does not drop fits. -/
theorem sized_of_checkedNumel {m : ℕ} {err : String → Exn}
    (hnumel : checkedNumel err shape n = .ok m) (hbytes : bytesFrom elem shape n ≠ 0) :
    (∀ d ∈ shape, 0 < d.toInt) ∧ m = n * (shape.map fun d => d.toInt.toNat).prod := by
  induction shape generalizing n with
  | nil =>
    obtain rfl : n = m := Except.ok.inj hnumel
    simp
  | cons d rest ih =>
    simp only [checkedNumel, bind_eq_ok, throwIf_eq_ok, exists_const] at hnumel
    obtain ⟨-, hfit, hrest⟩ := hnumel
    rw [numel_overflows, Nat.not_lt] at hfit
    rw [bytesFrom] at hbytes
    split_ifs at hbytes with hd
    · exact absurd rfl hbytes
    rw [checkedMul_eq_some.mpr ⟨hfit, rfl⟩] at hbytes
    obtain ⟨hpos, rfl⟩ := ih hrest hbytes
    refine ⟨forall_mem_cons.mpr ⟨by omega, hpos⟩, ?_⟩
    rw [map_cons, prod_cons, Nat.mul_assoc]

theorem entryAt_of_bytesAt {tvs : List TensorValue} (h : bytesAt tvs id ≠ 0) :
    ∃ tv, entryAt tvs id = some tv ∧ bytesAt tvs id = bytesFrom (dtypeSize tv.dtype) tv.shape 1 := by
  cases hentry : entryAt tvs id with
  | none => simp [bytesAt, hentry] at h
  | some tv =>
    refine ⟨tv, rfl, ?_⟩
    simp only [bytesAt, hentry, bytesOf] at h ⊢
    split_ifs at h ⊢
    · exact absurd rfl h
    · rfl

/-! ## Live ranges -/

/-- Node `i` reads or writes `id`. -/
def Mentions (graph : LiteGraph) (id : Int16) (i : ℕ) : Prop :=
  ∃ node, graph.nodes[i]? = some node ∧ (id ∈ node.outputIds ∨ id ∈ node.inputIds)

/-- Node `k` lies between two nodes that mention `id`. -/
def LiveAt (graph : LiteGraph) (id : Int16) (k : ℕ) : Prop :=
  ∃ i j, Mentions graph id i ∧ Mentions graph id j ∧ i ≤ k ∧ k ≤ j

def LiveTogether (graph : LiteGraph) (a b : Int16) : Prop :=
  ∃ k, LiveAt graph a k ∧ LiveAt graph b k

/-- Every mention in the order the planner meets it. -/
def mentions (nodes : List LiteNode) : List (Int16 × ℕ) :=
  nodes.zipIdx.flatMap fun n => (n.1.outputIds ++ n.1.inputIds).map fun id => (id, n.2)

theorem mem_mentions {graph : LiteGraph} :
    (id, i) ∈ mentions graph.nodes ↔ Mentions graph id i := by
  simp only [mentions, mem_flatMap, mem_map, Prod.mk.injEq, mem_append, Mentions]
  constructor
  · rintro ⟨⟨node, j⟩, hmem, id', hid, rfl, rfl⟩
    exact ⟨node, mk_mem_zipIdx_iff_getElem?.mp hmem, hid⟩
  · rintro ⟨node, hnode, hid⟩
    exact ⟨(node, i), mk_mem_zipIdx_iff_getElem?.mpr hnode, id, hid, rfl, rfl⟩

theorem computeLiveness_eq (graph : LiteGraph) (tvs : List TensorValue) :
    computeLiveness graph tvs =
      (mentions graph.nodes).foldl (fun out m => observe graph tvs out m.1 m.2) [] := by
  simp only [computeLiveness, mentions, foldl_flatMap, foldl_map]
  rfl

theorem mentions_sorted (nodes : List LiteNode) :
    (mentions nodes).Pairwise fun a b => a.2 ≤ b.2 := by
  have hzip : ∀ (l : List LiteNode) (k : ℕ), (l.zipIdx k).Pairwise fun a b => a.2 ≤ b.2 := by
    intro l
    induction l with
    | nil => exact fun k => Pairwise.nil
    | cons node rest ih =>
      intro k
      refine pairwise_cons.mpr ⟨?_, ih (k + 1)⟩
      rintro ⟨n, j⟩ hmem
      exact (Nat.le_succ k).trans (le_snd_of_mem_zipIdx hmem)
  refine pairwise_flatMap.mpr ⟨?_, (hzip nodes 0).imp ?_⟩
  · rintro ⟨node, i⟩ -
    rw [pairwise_map]
    exact pairwise_of_forall fun _ _ => le_rfl
  · rintro ⟨n, i⟩ ⟨m, j⟩ hle a ha b hb
    obtain ⟨x, -, rfl⟩ := mem_map.mp ha
    obtain ⟨y, -, rfl⟩ := mem_map.mp hb
    exact hle

/-- The records describe the mentions met so far. -/
structure Recorded (graph : LiteGraph) (tvs : List TensorValue) (met : List (Int16 × ℕ))
    (out : List LiveTensor) : Prop where
  nodup : (out.map LiveTensor.tensorId).Nodup
  planned : ∀ lt ∈ out, Planned graph tvs lt.tensorId
  bytes : ∀ lt ∈ out, lt.bytes = bytesAt tvs lt.tensorId
  covers : ∀ lt ∈ out, ∀ i, (lt.tensorId, i) ∈ met → lt.firstUse ≤ i ∧ i ≤ lt.lastUse
  complete : ∀ id i, (id, i) ∈ met → Planned graph tvs id → ∃ lt ∈ out, lt.tensorId = id

variable {graph : LiteGraph} {tvs : List TensorValue}

/-- A mention of an id that has a record extends its range. -/
theorem Recorded.extend (h : Recorded graph tvs met out) (hlast : ∀ m ∈ met, m.2 ≤ i)
    (hknown : ∃ lt ∈ out, lt.tensorId = id) (hfirst : ∀ lt ∈ out, lt.firstUse ≤ i) :
    Recorded graph tvs (met ++ [(id, i)])
      (out.map fun lt => if lt.tensorId = id then { lt with lastUse := i } else lt) := by
  have hids : ∀ lt : LiveTensor,
      (if lt.tensorId = id then { lt with lastUse := i } else lt).tensorId = lt.tensorId := by
    intro lt
    split_ifs <;> rfl
  constructor
  · have heq : (LiveTensor.tensorId ∘ fun lt : LiveTensor =>
        if lt.tensorId = id then { lt with lastUse := i } else lt) = LiveTensor.tensorId :=
      funext hids
    rw [map_map, heq]
    exact h.nodup
  · intro lt hlt
    obtain ⟨old, hold, rfl⟩ := mem_map.mp hlt
    rw [hids]
    exact h.planned old hold
  · intro lt hlt
    obtain ⟨old, hold, rfl⟩ := mem_map.mp hlt
    split_ifs
    · exact h.bytes old hold
    · exact h.bytes old hold
  · intro lt hlt j hj
    obtain ⟨old, hold, rfl⟩ := mem_map.mp hlt
    rw [hids, mem_append, mem_singleton] at hj
    rcases hj with hj | hj
    · have hrange := h.covers old hold j hj
      split_ifs
      · exact ⟨hrange.1, hlast _ hj⟩
      · exact hrange
    · obtain ⟨hid, rfl⟩ := Prod.mk.inj hj
      rw [if_pos hid]
      exact ⟨hfirst old hold, le_rfl⟩
  · intro id' j hj hplanned
    have hold : ∃ lt ∈ out, lt.tensorId = id' := by
      rcases mem_append.mp hj with hj | hj
      · exact h.complete id' j hj hplanned
      · obtain ⟨rfl, -⟩ := Prod.mk.inj (mem_singleton.mp hj)
        exact hknown
    obtain ⟨lt, hlt, rfl⟩ := hold
    exact ⟨_, mem_map_of_mem hlt, hids lt⟩

theorem Recorded.insert (h : Recorded graph tvs met out) (hplanned : Planned graph tvs id)
    (hnew : ∀ lt ∈ out, lt.tensorId ≠ id) :
    Recorded graph tvs (met ++ [(id, i)]) (out ++ [⟨id, bytesAt tvs id, i, i, 0⟩]) := by
  have hunmet : ∀ j, (id, j) ∉ met := by
    intro j hj
    obtain ⟨lt, hlt, hid⟩ := h.complete id j hj hplanned
    exact hnew lt hlt hid
  constructor
  · rw [map_append, nodup_append]
    refine ⟨h.nodup, nodup_singleton _, ?_⟩
    rintro a ha b hb rfl
    obtain ⟨lt, hlt, rfl⟩ := mem_map.mp ha
    exact hnew lt hlt (by simpa using hb)
  · intro lt hlt
    rcases mem_append.mp hlt with hlt | hlt
    · exact h.planned lt hlt
    · obtain rfl := mem_singleton.mp hlt
      exact hplanned
  · intro lt hlt
    rcases mem_append.mp hlt with hlt | hlt
    · exact h.bytes lt hlt
    · obtain rfl := mem_singleton.mp hlt
      rfl
  · intro lt hlt j hj
    rw [mem_append, mem_singleton] at hlt hj
    rcases hlt with hlt | rfl
    · rcases hj with hj | hj
      · exact h.covers lt hlt j hj
      · exact absurd (Prod.mk.inj hj).1 (hnew lt hlt)
    · rcases hj with hj | hj
      · exact absurd hj (hunmet j)
      · obtain ⟨-, rfl⟩ := Prod.mk.inj hj
        exact ⟨le_rfl, le_rfl⟩
  · intro id' j hj hplanned'
    rcases mem_append.mp hj with hj | hj
    · obtain ⟨lt, hlt, hid⟩ := h.complete id' j hj hplanned'
      exact ⟨lt, mem_append_left _ hlt, hid⟩
    · obtain ⟨rfl, -⟩ := Prod.mk.inj (mem_singleton.mp hj)
      exact ⟨_, mem_append_right _ (mem_singleton_self _), rfl⟩

theorem Recorded.observe (h : Recorded graph tvs met out) (hlast : ∀ m ∈ met, m.2 ≤ i)
    (hfirst : ∀ lt ∈ out, lt.firstUse ≤ i) :
    Recorded graph tvs (met ++ [(id, i)]) (Lite.observe graph tvs out id i) ∧
      ∀ lt ∈ Lite.observe graph tvs out id i, lt.firstUse ≤ i := by
  unfold Lite.observe
  by_cases hplanned : Planned graph tvs id
  · split_ifs with hknown
    · simp only [any_eq_true, beq_iff_eq] at hknown
      refine ⟨h.extend hlast hknown hfirst, ?_⟩
      intro lt hlt
      obtain ⟨old, hold, rfl⟩ := mem_map.mp hlt
      split_ifs
      · exact hfirst old hold
      · exact hfirst old hold
    · have hnew : ∀ lt ∈ out, lt.tensorId ≠ id := by simpa using hknown
      refine ⟨h.insert hplanned hnew, ?_⟩
      intro lt hlt
      rcases mem_append.mp hlt with hlt | hlt
      · exact hfirst lt hlt
      · obtain rfl := mem_singleton.mp hlt
        exact le_rfl
  · rw [if_pos hplanned]
    refine ⟨⟨h.nodup, h.planned, h.bytes, ?_, ?_⟩, hfirst⟩
    · intro lt hlt j hj
      rcases mem_append.mp hj with hj | hj
      · exact h.covers lt hlt j hj
      · obtain ⟨rfl, -⟩ := Prod.mk.inj (mem_singleton.mp hj)
        exact absurd (h.planned lt hlt) hplanned
    · intro id' j hj hplanned'
      rcases mem_append.mp hj with hj | hj
      · exact h.complete id' j hj hplanned'
      · obtain ⟨rfl, -⟩ := Prod.mk.inj (mem_singleton.mp hj)
        exact absurd hplanned' hplanned

/-- The planner's records: one for each planned id, over all its mentions. -/
theorem computeLiveness_recorded (graph : LiteGraph) (tvs : List TensorValue) :
    Recorded graph tvs (mentions graph.nodes) (computeLiveness graph tvs) := by
  rw [computeLiveness_eq]
  have hall : ∀ met rest, met ++ rest = mentions graph.nodes →
      Recorded graph tvs met (met.foldl (fun out m => observe graph tvs out m.1 m.2) []) ∧
        ∀ lt ∈ met.foldl (fun out m => observe graph tvs out m.1 m.2) [], ∀ m ∈ rest,
          lt.firstUse ≤ m.2 := by
    intro met
    induction met using List.reverseRecOn with
    | nil =>
      intro rest _
      exact ⟨⟨by simp, by simp, by simp, by simp, by simp⟩, by simp⟩
    | append_singleton met m ih =>
      intro rest heq
      have hsorted := mentions_sorted graph.nodes
      rw [← heq, append_assoc] at hsorted
      obtain ⟨-, hrest, hmet⟩ := pairwise_append.mp hsorted
      obtain ⟨hrecorded, hfirst⟩ := ih (m :: rest) (by rw [← heq]; simp)
      have hlast : ∀ n ∈ met, n.2 ≤ m.2 := fun n hn => hmet n hn m mem_cons_self
      have hstep : Recorded graph tvs (met ++ [m]) (observe graph tvs _ m.1 m.2) ∧ _ :=
        hrecorded.observe hlast fun lt hlt => hfirst lt hlt m mem_cons_self
      rw [foldl_append, foldl_cons]
      refine ⟨hstep.1, fun lt hlt n hn => (hstep.2 lt hlt).trans ?_⟩
      exact (pairwise_cons.mp hrest).1 n hn
  exact (hall (mentions graph.nodes) [] (append_nil _)).1

/-- Records of ids that are live together overlap in time. -/
theorem Recorded.overlap (h : Recorded graph tvs (mentions graph.nodes) out) {a b : LiveTensor}
    (ha : a ∈ out) (hb : b ∈ out) (htogether : LiveTogether graph a.tensorId b.tensorId) :
    a.firstUse ≤ b.lastUse ∧ b.firstUse ≤ a.lastUse := by
  obtain ⟨k, ⟨i, j, hi, hj, hik, hkj⟩, ⟨i', j', hi', hj', hik', hkj'⟩⟩ := htogether
  have hai := h.covers a ha i (mem_mentions.mpr hi)
  have haj := h.covers a ha j (mem_mentions.mpr hj)
  have hbi := h.covers b hb i' (mem_mentions.mpr hi')
  have hbj := h.covers b hb j' (mem_mentions.mpr hj')
  omega

/-! ## Placement with unbounded numbers -/

/-- `n` rounded up to a multiple of `align`. -/
def alignUp (n align : ℕ) : ℕ := (n + align - 1) / align * align

theorem roundUp_eq {align : ℕ} (h : n + align - 1 < 18446744073709551616) :
    roundUp n align = alignUp n align := by
  rw [roundUp, u64_of_lt h, alignUp]

theorem alignUp_of_dvd {align : ℕ} (halign : 0 < align) (h : align ∣ n) : alignUp n align = n := by
  obtain ⟨m, rfl⟩ := h
  have hdiv : (align * m + align - 1) / align = m := by
    rw [Nat.add_sub_assoc halign, Nat.mul_add_div halign, Nat.div_eq_of_lt (by omega)]
    rfl
  rw [alignUp, hdiv, Nat.mul_comm]

theorem le_alignUp {align : ℕ} (halign : 0 < align) : n ≤ alignUp n align := by
  have hdiv := Nat.div_add_mod (n + align - 1) align
  have hmod := Nat.mod_lt (n + align - 1) halign
  rw [Nat.mul_comm] at hdiv
  simp only [alignUp]
  omega

/-- A tensor that has bytes takes at least one multiple of the alignment. -/
theorem align_le_alignUp {align : ℕ} (halign : 0 < align) (hn : 0 < n) :
    align ≤ alignUp n align := by
  have hpos : 0 < alignUp n align := lt_of_lt_of_le hn (le_alignUp halign)
  exact Nat.le_of_dvd hpos (Dvd.intro_left _ rfl)

/-- First fit with unbounded numbers, for tensors that are live together. -/
def exactRules (align : ℕ) : Rules LiveTensor where
  clash a b := !(decide (a.lastUse < b.firstUse) || decide (b.lastUse < a.firstUse))
  need lt := alignUp lt.bytes align
  align := align
  need_dvd _ := Dvd.intro_left _ rfl

/-- What the planner keeps of a slot. -/
def placedOf (s : Slot LiveTensor) : Placed := ⟨s.start, s.stop, s.item.firstUse, s.item.lastUse⟩

def liveOf (s : Slot LiveTensor) : LiveTensor := { s.item with offset := s.start }

variable {slots : List (Slot LiveTensor)} {lt : LiveTensor} {align fuel need total x c : ℕ}

theorem conflicts_iff : lt.conflicts need x p = true ↔
    (p.firstUse ≤ lt.lastUse ∧ lt.firstUse ≤ p.lastUse) ∧ p.offset < u64 (x + need) ∧ x < p.stop := by
  simp [LiveTensor.conflicts]

theorem blocks_iff {s : Slot LiveTensor} : (exactRules align).blocks lt x s = true ↔
    (s.item.firstUse ≤ lt.lastUse ∧ lt.firstUse ≤ s.item.lastUse) ∧
      s.start < x + alignUp lt.bytes align ∧ x < s.stop := by
  simp [Rules.blocks, exactRules]

theorem conflicts_eq (hx : x + alignUp lt.bytes align < 18446744073709551616)
    (s : Slot LiveTensor) :
    lt.conflicts (alignUp lt.bytes align) x (placedOf s) = (exactRules align).blocks lt x s := by
  rw [Bool.eq_iff_iff, conflicts_iff, blocks_iff, u64_of_lt hx]
  rfl

theorem find_conflict_eq (hx : x + alignUp lt.bytes align < 18446744073709551616) :
    (slots.map placedOf).find? (lt.conflicts (alignUp lt.bytes align) x) =
      (slots.find? ((exactRules align).blocks lt x)).map placedOf := by
  rw [find?_map]
  congr 2
  funext s
  exact conflicts_eq hx s

/-- The planner retraces an exact search whose result does not wrap. -/
theorem findOffset_of_search (halign : 0 < align) (hbytes : 0 < lt.bytes)
    (hstop : ∀ s ∈ slots, align ∣ s.stop)
    (hfit : c + alignUp lt.bytes align < 18446744073709551616)
    (h : (exactRules align).search slots lt fuel x = some c) :
    findOffset align (slots.map placedOf) lt (alignUp lt.bytes align) fuel x = some c := by
  induction fuel generalizing x with
  | zero => simp [Rules.search] at h
  | succ n ih =>
    have hxc := Rules.le_of_search h
    rw [Rules.search] at h
    rw [findOffset, find_conflict_eq (by omega)]
    cases hfind : slots.find? ((exactRules align).blocks lt x) with
    | none =>
      rw [hfind] at h
      exact h
    | some s =>
      rw [hfind] at h
      have hsc : s.stop ≤ c := Rules.le_of_search h
      have hneed := align_le_alignUp halign hbytes
      have hround : roundUp s.stop align = s.stop := by
        rw [roundUp_eq (by omega),
          alignUp_of_dvd halign (hstop s (mem_of_find?_eq_some hfind))]
      simp only [Option.map_some, placedOf, hround]
      exact ih h

/-- A search of the planner whose result does not wrap is exact, or has come
back to the offset `0` on its way. -/
theorem search_or_restart (halign : 0 < align) (hstop : ∀ s ∈ slots, align ∣ s.stop)
    (hword : ∀ s ∈ slots, s.stop < 18446744073709551616)
    (hfit : c + alignUp lt.bytes align < 18446744073709551616)
    (h : findOffset align (slots.map placedOf) lt (alignUp lt.bytes align) fuel x = some c) :
    (exactRules align).search slots lt fuel x = some c ∨
      ∃ g < fuel, findOffset align (slots.map placedOf) lt (alignUp lt.bytes align) g 0 = some c := by
  induction fuel generalizing x with
  | zero => simp [findOffset] at h
  | succ n ih =>
    rw [findOffset] at h
    cases hcode : (slots.map placedOf).find? (lt.conflicts (alignUp lt.bytes align) x) with
    | none =>
      rw [hcode] at h
      obtain rfl : x = c := Option.some.inj h
      rw [find_conflict_eq hfit, Option.map_eq_none_iff] at hcode
      exact .inl (by rw [Rules.search, hcode])
    | some p =>
      rw [hcode] at h
      obtain ⟨s, hs, rfl⟩ := mem_map.mp (mem_of_find?_eq_some hcode)
      have hx : x < s.stop := (conflicts_iff.mp (find?_some hcode)).2.2
      by_cases hwrap : s.stop + align - 1 < 18446744073709551616
      · have hround : roundUp s.stop align = s.stop := by
          rw [roundUp_eq hwrap, alignUp_of_dvd halign (hstop s hs)]
        simp only [placedOf, hround] at h
        rcases ih h with hexact | ⟨g, hg, hrestart⟩
        · have hsc := Rules.le_of_search hexact
          rw [find_conflict_eq (by omega), Option.map_eq_some_iff] at hcode
          obtain ⟨q, hq, hqs⟩ := hcode
          have hqstop : q.stop = s.stop := congrArg Placed.stop hqs
          rw [← hqstop] at hexact
          exact .inl (by rw [Rules.search, hq]; exact hexact)
        · exact .inr ⟨g, hg.trans n.lt_succ_self, hrestart⟩
      · -- Rounding the end of the last slot up wraps to `0`.
        have hzero : roundUp s.stop align = 0 := by
          have hword := hword s hs
          have hsmall : u64 (s.stop + align - 1) < align := by
            unfold u64
            rcases Nat.lt_or_ge align 18446744073709551616 with ha | ha
            · omega
            · exact lt_of_lt_of_le (Nat.mod_lt _ (by decide)) ha
          rw [roundUp, Nat.div_eq_of_lt hsmall, Nat.zero_mul]
        simp only [placedOf, hzero] at h
        exact .inr ⟨n, n.lt_succ_self, h⟩

/-- The shortest search never comes back. -/
theorem search_of_findOffset (halign : 0 < align) (hstop : ∀ s ∈ slots, align ∣ s.stop)
    (hword : ∀ s ∈ slots, s.stop < 18446744073709551616)
    (hfit : c + alignUp lt.bytes align < 18446744073709551616)
    (h : findOffset align (slots.map placedOf) lt (alignUp lt.bytes align) fuel 0 = some c) :
    (exactRules align).search slots lt (slots.length + 1) 0 = some c := by
  induction fuel using Nat.strong_induction_on with
  | _ fuel ih =>
    rcases search_or_restart halign hstop hword hfit h with hexact | ⟨g, hg, hrestart⟩
    · obtain ⟨c', hc'⟩ := Rules.search_total (R := exactRules align) slots lt 0
      rw [hc', Rules.search_unique hexact hc']
    · exact ih g hg hrestart

theorem placeTensor_prefix (h : items.foldlM (placeTensor align fuel) state = some state') :
    state.1 <+: state'.1 := by
  induction items generalizing state with
  | nil => exact Option.some.inj h ▸ prefix_refl _
  | cons lt rest ih =>
    rw [foldlM_cons, bind_eq_bind, bind_eq_some_iff] at h
    obtain ⟨next, hplace, hrest⟩ := h
    simp only [placeTensor, bind_eq_bind, bind_eq_some_iff, Option.pure_def,
      Option.some.injEq] at hplace
    obtain ⟨c, -, rfl⟩ := hplace
    exact (prefix_append state.1 _).trans (ih hrest)

/-- The tensors are placed in their order. -/
theorem placeTensor_items (h : items.foldlM (placeTensor align fuel) state = some state') :
    state'.1.map (fun lt => (lt.tensorId, lt.bytes)) =
      state.1.map (fun lt => (lt.tensorId, lt.bytes)) ++
        items.map fun lt => (lt.tensorId, lt.bytes) := by
  induction items generalizing state with
  | nil =>
    obtain rfl : state = state' := Option.some.inj h
    simp
  | cons lt rest ih =>
    rw [foldlM_cons, bind_eq_bind, bind_eq_some_iff] at h
    obtain ⟨next, hplace, hrest⟩ := h
    simp only [placeTensor, bind_eq_bind, bind_eq_some_iff, Option.pure_def,
      Option.some.injEq] at hplace
    obtain ⟨c, -, rfl⟩ := hplace
    rw [ih hrest]
    simp

/-- The slots end within so many bytes. Unless these exceed a word, nothing has wrapped. -/
def Within (align total : ℕ) (placed : List Placed) : Prop :=
  ∀ p ∈ placed, p.stop ≤ total ∧ (total < 18446744073709551616 → align ∣ p.stop)

theorem findOffset_within (halign : 0 < align) (hplaced : Within align total placed)
    (hword : total < 18446744073709551616) (hx : x ≤ total ∧ align ∣ x)
    (h : findOffset align placed lt need fuel x = some c) : c ≤ total ∧ align ∣ c := by
  induction fuel generalizing x with
  | zero => cases h
  | succ fuel ih =>
    rw [findOffset] at h
    split at h
    · exact Option.some.inj h ▸ hx
    · next p hp =>
        obtain ⟨hstop, hdvd⟩ := hplaced p (mem_of_find?_eq_some hp)
        refine ih ⟨?_, Dvd.intro_left _ rfl⟩ h
        have hround : roundUp p.stop align ≤ alignUp p.stop align :=
          Nat.mul_le_mul_right _ (Nat.div_le_div_right (Nat.mod_le _ _))
        rw [alignUp_of_dvd halign (hdvd hword)] at hround
        exact hround.trans hstop

theorem placeTensor_within (halign : 0 < align) (hplaced : Within align total state.2)
    (h : placeTensor align fuel state lt = some state') :
    Within align (total + roundUp lt.bytes align) state'.2 := by
  simp only [placeTensor, bind_eq_bind, bind_eq_some_iff, Option.pure_def,
    Option.some.injEq] at h
  obtain ⟨c, hc, rfl⟩ := h
  refine forall_mem_append.mpr ⟨fun p hp => ?_, forall_mem_singleton.mpr ?_⟩
  · exact ⟨(hplaced p hp).1.trans (Nat.le_add_right _ _),
      fun hword => (hplaced p hp).2 (by omega)⟩
  · by_cases hword : total + roundUp lt.bytes align < 18446744073709551616
    · obtain ⟨hle, hdvd⟩ := findOffset_within halign hplaced (by omega) ⟨Nat.zero_le _, dvd_zero _⟩ hc
      have hsum : c + roundUp lt.bytes align < 18446744073709551616 := by omega
      rw [u64_of_lt hsum]
      exact ⟨Nat.add_le_add_right hle _, fun _ => Nat.dvd_add hdvd (Dvd.intro_left _ rfl)⟩
    · exact ⟨(Nat.mod_lt _ (by decide)).le.trans (not_lt.mp hword), fun h => absurd h hword⟩

theorem foldlM_within (halign : 0 < align) (hplaced : Within align total state.2)
    (h : items.foldlM (placeTensor align fuel) state = some state') :
    Within align (total + (items.map fun lt => roundUp lt.bytes align).sum) state'.2 := by
  induction items generalizing state total with
  | nil => exact Option.some.inj h ▸ hplaced
  | cons lt rest ih =>
    rw [foldlM_cons, bind_eq_bind, bind_eq_some_iff] at h
    obtain ⟨next, hplace, hrest⟩ := h
    rw [map_cons, sum_cons, ← Nat.add_assoc]
    exact ih (placeTensor_within halign hplaced hplace) hrest

/-- A tensor that takes its slot without a wrap. -/
theorem placeTensor_eq {c : ℕ} (hround : lt.bytes + align - 1 < 18446744073709551616)
    (hfit : c + alignUp lt.bytes align < 18446744073709551616)
    (h : findOffset align (slots.map placedOf) lt (alignUp lt.bytes align) fuel 0 = some c) :
    placeTensor align fuel (slots.map liveOf, slots.map placedOf) lt =
      some ((slots ++ [(⟨c, c + alignUp lt.bytes align, lt⟩ : Slot LiveTensor)]).map liveOf,
        (slots ++ [(⟨c, c + alignUp lt.bytes align, lt⟩ : Slot LiveTensor)]).map placedOf) := by
  simp [placeTensor, roundUp_eq hround, h, u64_of_lt hfit, liveOf, placedOf]

theorem foldlM_of_exact (halign : 0 < align) {slots' : List (Slot LiveTensor)}
    (hslots : (exactRules align).Fits slots)
    (hitems : ∀ lt ∈ items, 0 < lt.bytes ∧ lt.bytes + align - 1 < 18446744073709551616)
    (hexact : items.foldlM (exactRules align).place slots = some slots')
    (hword : ∀ s ∈ slots', s.stop < 18446744073709551616) (hfuel : slots'.length < fuel) :
    items.foldlM (placeTensor align fuel) (slots.map liveOf, slots.map placedOf) =
      some (slots'.map liveOf, slots'.map placedOf) := by
  induction items generalizing slots with
  | nil =>
    obtain rfl : slots = slots' := Option.some.inj hexact
    rfl
  | cons lt rest ih =>
    obtain ⟨⟨hbytes, hround⟩, hitems⟩ := forall_mem_cons.mp hitems
    rw [foldlM_cons, bind_eq_bind, bind_eq_some_iff] at hexact
    obtain ⟨next, hplace, hrest⟩ := hexact
    obtain ⟨c, hc, rfl⟩ := Rules.place_eq_some.mp hplace
    have hpre := Rules.foldlM_prefix hrest
    have hfit : c + alignUp lt.bytes align < 18446744073709551616 :=
      hword ⟨c, c + alignUp lt.bytes align, lt⟩ (hpre.subset (by simp [exactRules]))
    have hlen : slots.length + 1 ≤ fuel := by
      have hle := hpre.length_le
      rw [length_append] at hle
      omega
    have hfind := findOffset_of_search halign hbytes hslots.dvd_stop hfit
      (Rules.search_mono hlen hc)
    rw [foldlM_cons, placeTensor_eq hround hfit hfind]
    exact ih (hslots.place hc) hitems hrest

theorem exact_of_foldlM (halign : 0 < align) (hslots : (exactRules align).Fits slots)
    (hword : ∀ s ∈ slots, s.stop < 18446744073709551616)
    (hcode : items.foldlM (placeTensor align fuel) (slots.map liveOf, slots.map placedOf) = some state)
    (hstate : ∀ lt ∈ state.1, lt.bytes + align - 1 < 18446744073709551616 ∧
      lt.offset + alignUp lt.bytes align < 18446744073709551616) :
    ∃ slots', items.foldlM (exactRules align).place slots = some slots' ∧
      ∀ s ∈ slots', s.stop < 18446744073709551616 := by
  induction items generalizing slots with
  | nil => exact ⟨slots, rfl, hword⟩
  | cons lt rest ih =>
    rw [foldlM_cons, bind_eq_bind, bind_eq_some_iff] at hcode
    obtain ⟨next, hplace, hrest⟩ := hcode
    have hpre := placeTensor_prefix hrest
    have hplaced := hplace
    simp only [placeTensor, bind_eq_bind, bind_eq_some_iff, Option.pure_def,
      Option.some.injEq] at hplaced
    obtain ⟨c, hfind, rfl⟩ := hplaced
    obtain ⟨hround, hfit⟩ := hstate { lt with offset := c } (hpre.subset (by simp))
    replace hround : lt.bytes + align - 1 < 18446744073709551616 := hround
    replace hfit : c + alignUp lt.bytes align < 18446744073709551616 := hfit
    rw [roundUp_eq hround] at hfind
    rw [placeTensor_eq hround hfit hfind, Option.some.injEq] at hplace
    rw [← hplace] at hrest
    have hc := search_of_findOffset halign hslots.dvd_stop hword hfit hfind
    obtain ⟨slots', hexact, hword'⟩ := ih (hslots.place hc)
      (by
        intro s hs
        rcases mem_append.mp hs with hs | hs
        · exact hword s hs
        · obtain rfl := mem_singleton.mp hs
          exact hfit)
      hrest
    refine ⟨slots', ?_, hword'⟩
    rw [foldlM_cons, Rules.place_eq_some.mpr ⟨c, hc, rfl⟩]
    exact hexact

/-! ## Sound plans -/

/-- The loader accepts the plan; tensors that are live together hold disjoint
bytes of the pool, at multiples of the alignment, and nothing that was rounded
up or added to find their places wraps. -/
structure PlanIsSound (graph : LiteGraph) (tvs : List TensorValue) (plan : MmplPlan) : Prop where
  accepted : validatePlan tvs plan = .ok ()
  once : (plan.placements.map MmplPlacement.tensorId).Nodup
  apart : ∀ p ∈ plan.placements, ∀ q ∈ plan.placements, p.tensorId ≠ q.tensorId →
    LiveTogether graph p.tensorId q.tensorId →
    p.offset + bytesAt tvs p.tensorId ≤ q.offset ∨ q.offset + bytesAt tvs q.tensorId ≤ p.offset
  aligned : ∀ p ∈ plan.placements, plan.alignment ∣ p.offset
  inside : ∀ p ∈ plan.placements, ∃ pool, plan.poolSizes[p.poolIndex.toNat]? = some pool ∧
    p.offset + bytesAt tvs p.tensorId ≤ pool
  unwrapped : ∀ p ∈ plan.placements,
    bytesAt tvs p.tensorId + plan.alignment - 1 < 18446744073709551616 ∧
    p.offset + alignUp (bytesAt tvs p.tensorId) plan.alignment < 18446744073709551616

/-- No size of a planned tensor overflows, rounded up or not, and first fit
with unbounded numbers ends every slot below `2^64`. -/
structure FitsWords (graph : LiteGraph) (tvs : List TensorValue) (alignment : ℕ) : Prop where
  sized : ∀ lt ∈ plannedTensors graph tvs, ∃ tv, entryAt tvs lt.tensorId = some tv ∧ Sized tv
  rounded : ∀ lt ∈ plannedTensors graph tvs,
    lt.bytes + planAlignment alignment - 1 < 18446744073709551616
  placed : ∀ slots, (exactRules (planAlignment alignment)).placeAll (plannedTensors graph tvs) =
    some slots → ∀ s ∈ slots, s.stop < 18446744073709551616

theorem planAlignment_pos (alignment : ℕ) : 0 < planAlignment alignment := by
  unfold planAlignment
  split_ifs <;> omega

theorem mem_plannedTensors :
    lt ∈ plannedTensors graph tvs ↔ lt ∈ computeLiveness graph tvs ∧ lt.bytes ≠ 0 := by
  simp [plannedTensors]

theorem bytes_of_planned (h : lt ∈ plannedTensors graph tvs) :
    lt.bytes = bytesAt tvs lt.tensorId ∧ 0 < lt.bytes := by
  obtain ⟨hmem, hne⟩ := mem_plannedTensors.mp h
  exact ⟨(computeLiveness_recorded graph tvs).bytes lt hmem, Nat.pos_of_ne_zero hne⟩

theorem plannedTensors_nodup (graph : LiteGraph) (tvs : List TensorValue) :
    ((plannedTensors graph tvs).map LiveTensor.tensorId).Nodup := by
  have hperm : (plannedTensors graph tvs).Perm ((computeLiveness graph tvs).filter (·.bytes ≠ 0)) :=
    perm_insertionSort _ _
  rw [(hperm.map LiveTensor.tensorId).nodup_iff]
  exact (computeLiveness_recorded graph tvs).nodup.sublist (filter_sublist.map _)

theorem emitPlan_placements {live : List LiveTensor} :
    (emitPlan align live placed).placements.Perm
      (live.map fun lt => ⟨lt.tensorId, 0, lt.offset⟩) := perm_insertionSort _ _

/-- The pool reaches to the end of the last slot. -/
theorem stop_le_pool (align : ℕ) (hp : p ∈ placed) (hpos : 0 < p.stop) (live : List LiveTensor) :
    ∃ pool, (emitPlan align live placed).poolSizes = [pool] ∧ p.stop ≤ pool := by
  have hle : ∀ (l : List Placed) (n : ℕ), n ≤ l.foldl (fun pool p => max pool p.stop) n ∧
      ∀ q ∈ l, q.stop ≤ l.foldl (fun pool p => max pool p.stop) n := by
    intro l
    induction l with
    | nil => exact fun n => ⟨le_rfl, by simp⟩
    | cons q rest ih =>
      intro n
      obtain ⟨hn, hrest⟩ := ih (max n q.stop)
      refine ⟨(le_max_left n q.stop).trans hn, forall_mem_cons.mpr ⟨?_, hrest⟩⟩
      exact (le_max_right n q.stop).trans hn
  have hpool := (hle placed 0).2 p hp
  refine ⟨_, ?_, hpool⟩
  simp only [emitPlan]
  rw [if_pos (hpos.trans_le hpool)]

/-- A planned tensor of a size that fits passes the check inside a pool it fits. -/
theorem validatePlacement_of_sized {p : MmplPlacement} {tv : TensorValue} {pool : ℕ}
    (hentry : entryAt tvs p.tensorId = some tv) (hsized : Sized tv)
    (hbytes : bytesAt tvs p.tensorId ≠ 0) (hpool : plan.poolSizes[p.poolIndex.toNat]? = some pool)
    (hinside : p.offset + bytesAt tvs p.tensorId ≤ pool) :
    validatePlacement tvs plan p = .ok () := by
  obtain ⟨tv', htv', hfrom⟩ := entryAt_of_bytesAt hbytes
  obtain rfl := Option.some.inj (htv'.symm.trans hentry)
  obtain ⟨hpos, hfit⟩ := hsized
  have helem : 0 < dtypeSize tv'.dtype := by
    cases tv'.dtype <;> decide
  rw [← Nat.one_mul (List.prod _)] at hfit
  obtain ⟨hexact, hnumel⟩ := bytesFrom_eq helem hpos hfit (placementError p.tensorId)
  simp only [validatePlacement, hpool, hentry, bind_eq_ok, throwIf_eq_ok, exists_const]
  refine ⟨helem.ne', _, hnumel, ?_, by omega⟩
  rw [gt_iff_lt, Nat.div_lt_iff_lt_mul helem]
  omega

/-- What the check computes of an accepted placement. -/
theorem sized_of_validatePlacement {p : MmplPlacement} (h : validatePlacement tvs plan p = .ok ())
    (hbytes : bytesAt tvs p.tensorId ≠ 0) : ∃ tv, entryAt tvs p.tensorId = some tv ∧ Sized tv := by
  obtain ⟨tv, hentry, hfrom⟩ := entryAt_of_bytesAt hbytes
  refine ⟨tv, hentry, ?_⟩
  cases hpool : plan.poolSizes[p.poolIndex.toNat]? with
  | none => simp [validatePlacement, hpool] at h
  | some pool =>
    simp only [validatePlacement, hpool, hentry, bind_eq_ok, throwIf_eq_ok, exists_const] at h
    obtain ⟨helem, numel, hnumel, hfit, -⟩ := h
    obtain ⟨hpos, rfl⟩ := sized_of_checkedNumel hnumel (hfrom ▸ hbytes)
    refine ⟨hpos, ?_⟩
    rw [gt_iff_lt, Nat.div_lt_iff_lt_mul (Nat.pos_of_ne_zero helem), Nat.one_mul] at hfit
    omega

theorem validatePlan_eq_ok : validatePlan tvs plan = .ok () ↔
    ∀ p ∈ plan.placements, validatePlacement tvs plan p = .ok () := forM_eq_ok

theorem exactRules_symm (a b : LiveTensor) :
    (exactRules align).clash a b = (exactRules align).clash b a := by
  simp only [exactRules, Bool.or_comm]

/-- The plan of a placement that does not wrap is sound. -/
theorem PlanIsSound.of_fits {slots : List (Slot LiveTensor)}
    (hfits : FitsWords graph tvs alignment)
    (hslots : (exactRules (planAlignment alignment)).placeAll (plannedTensors graph tvs) =
      some slots) :
    PlanIsSound graph tvs
      (emitPlan (planAlignment alignment) (slots.map liveOf) (slots.map placedOf)) := by
  have hexact := Rules.placeAll_fits hslots
  have hitems := Rules.placeAll_items hslots
  have hword := hfits.placed slots hslots
  have halign := planAlignment_pos alignment
  have hmem : ∀ s ∈ slots, s.item ∈ plannedTensors graph tvs := by
    intro s hs
    rw [← hitems]
    exact mem_map_of_mem hs
  have hplacement : ∀ p ∈ (emitPlan (planAlignment alignment) (slots.map liveOf)
      (slots.map placedOf)).placements, ∃ s ∈ slots, p = ⟨s.item.tensorId, 0, s.start⟩ := by
    intro p hp
    obtain ⟨lt, hlt, rfl⟩ := mem_map.mp (emitPlan_placements.mem_iff.mp hp)
    obtain ⟨s, hs, rfl⟩ := mem_map.mp hlt
    exact ⟨s, hs, rfl⟩
  have hsize : ∀ s ∈ slots, bytesAt tvs s.item.tensorId = s.item.bytes ∧ 0 < s.item.bytes ∧
      s.start + s.item.bytes ≤ s.stop ∧ s.stop = s.start + alignUp s.item.bytes
        (planAlignment alignment) := by
    intro s hs
    obtain ⟨hbytes, hpos⟩ := bytes_of_planned (hmem s hs)
    have hstop : s.stop = s.start + alignUp s.item.bytes (planAlignment alignment) :=
      hexact.size s hs
    have hle := le_alignUp (n := s.item.bytes) halign
    exact ⟨hbytes.symm, hpos, by omega, hstop⟩
  have hpool : ∀ s ∈ slots, ∃ pool, (emitPlan (planAlignment alignment) (slots.map liveOf)
      (slots.map placedOf)).poolSizes[0]? = some pool ∧ s.stop ≤ pool := by
    intro s hs
    obtain ⟨-, hpos, hle, -⟩ := hsize s hs
    have hstop : 0 < s.stop := by omega
    obtain ⟨pool, heq, hpool⟩ := stop_le_pool (planAlignment alignment)
      (mem_map_of_mem (f := placedOf) hs) hstop (slots.map liveOf)
    exact ⟨pool, by rw [heq]; rfl, hpool⟩
  constructor
  case accepted =>
    rw [validatePlan_eq_ok]
    intro p hp
    obtain ⟨s, hs, rfl⟩ := hplacement p hp
    obtain ⟨hbytes, hpos, hle, -⟩ := hsize s hs
    obtain ⟨pool, heq, hpool⟩ := hpool s hs
    obtain ⟨tv, hentry, hsized⟩ := hfits.sized s.item (hmem s hs)
    apply validatePlacement_of_sized (p := ⟨s.item.tensorId, 0, s.start⟩) hentry hsized _ heq
    · simp only [hbytes]
      omega
    · simp only [hbytes]
      omega
  case once =>
    rw [(emitPlan_placements.map MmplPlacement.tensorId).nodup_iff, map_map, map_map]
    have hids := plannedTensors_nodup graph tvs
    rw [← hitems, map_map] at hids
    exact hids
  case apart =>
    intro p hp q hq hne htogether
    obtain ⟨s, hs, rfl⟩ := hplacement p hp
    obtain ⟨t, ht, rfl⟩ := hplacement q hq
    have hrecorded := computeLiveness_recorded graph tvs
    obtain ⟨hst, hts⟩ := hrecorded.overlap (mem_plannedTensors.mp (hmem s hs)).1
      (mem_plannedTensors.mp (hmem t ht)).1 htogether
    have hclash : (exactRules (planAlignment alignment)).clash t.item s.item = true := by
      simp only [exactRules, Bool.not_eq_true', Bool.or_eq_false_iff, decide_eq_false_iff_not]
      omega
    have hneq : s ≠ t := by
      rintro rfl
      exact hne rfl
    have hapart := hexact.apart_of_mem exactRules_symm hs ht hneq hclash
    obtain ⟨hsbytes, -, hsle, -⟩ := hsize s hs
    obtain ⟨htbytes, -, htle, -⟩ := hsize t ht
    simp only [hsbytes, htbytes]
    omega
  case aligned =>
    intro p hp
    obtain ⟨s, hs, rfl⟩ := hplacement p hp
    exact hexact.aligned s hs
  case inside =>
    intro p hp
    obtain ⟨s, hs, rfl⟩ := hplacement p hp
    obtain ⟨hbytes, -, hle, -⟩ := hsize s hs
    obtain ⟨pool, heq, hpool⟩ := hpool s hs
    refine ⟨pool, heq, ?_⟩
    simp only [hbytes]
    omega
  case unwrapped =>
    intro p hp
    obtain ⟨s, hs, rfl⟩ := hplacement p hp
    obtain ⟨hbytes, -, -, hstop⟩ := hsize s hs
    have hs' := hword s hs
    simp only [hbytes]
    exact ⟨hfits.rounded s.item (hmem s hs), hstop ▸ hs'⟩

/-- A sound plan comes from a placement that does not wrap. -/
theorem PlanIsSound.fits (hplan : computeMemoryPlan fuel graph tvs alignment = some plan)
    (h : PlanIsSound graph tvs plan) : FitsWords graph tvs alignment := by
  simp only [computeMemoryPlan, bind_eq_bind, bind_eq_some_iff, Option.pure_def,
    Option.some.injEq, Prod.exists] at hplan
  obtain ⟨live, placed, hcode, rfl⟩ := hplan
  have halign := planAlignment_pos alignment
  have hitems := placeTensor_items hcode
  have hplacement : ∀ lt ∈ live, (⟨lt.tensorId, 0, lt.offset⟩ : MmplPlacement) ∈
      (emitPlan (planAlignment alignment) live placed).placements := by
    intro lt hlt
    exact emitPlan_placements.mem_iff.mpr (mem_map_of_mem hlt)
  have hlive : ∀ lt ∈ plannedTensors graph tvs,
      ∃ l ∈ live, l.tensorId = lt.tensorId ∧ l.bytes = lt.bytes := by
    intro lt hlt
    have hmem : (lt.tensorId, lt.bytes) ∈ live.map fun lt => (lt.tensorId, lt.bytes) := by
      rw [hitems]
      exact mem_append_right _ (mem_map_of_mem hlt)
    obtain ⟨l, hl, heq⟩ := mem_map.mp hmem
    exact ⟨l, hl, Prod.mk.inj heq⟩
  have hunwrapped : ∀ l ∈ live,
      l.bytes + planAlignment alignment - 1 < 18446744073709551616 ∧
        l.offset + alignUp l.bytes (planAlignment alignment) < 18446744073709551616 := by
    intro l hl
    have hmem : (l.tensorId, l.bytes) ∈ live.map fun lt => (lt.tensorId, lt.bytes) :=
      mem_map_of_mem hl
    rw [hitems, map_nil] at hmem
    obtain ⟨lt, hlt, heq⟩ := mem_map.mp hmem
    obtain ⟨hid, hbytes⟩ := Prod.mk.inj heq
    have hfit := h.unwrapped _ (hplacement l hl)
    rw [← hbytes, (bytes_of_planned hlt).1, hid]
    exact hfit
  obtain ⟨slots, hslots, hword⟩ :=
    exact_of_foldlM halign Rules.fits_nil (by simp) hcode hunwrapped
  constructor
  · intro lt hlt
    obtain ⟨l, hl, hid, -⟩ := hlive lt hlt
    obtain ⟨hbytes, hpos⟩ := bytes_of_planned hlt
    have haccepted := validatePlan_eq_ok.mp h.accepted _ (hplacement l hl)
    rw [← hid]
    have hsize : bytesAt tvs l.tensorId ≠ 0 := by
      rw [hid]
      omega
    exact sized_of_validatePlacement (p := ⟨l.tensorId, 0, l.offset⟩) haccepted hsize
  · intro lt hlt
    obtain ⟨l, hl, -, hbytes⟩ := hlive lt hlt
    rw [← hbytes]
    exact (hunwrapped l hl).1
  · intro slots' hslots'
    obtain rfl := Option.some.inj (hslots.symm.trans hslots')
    exact hword

/-- The planner ends with a sound plan exactly when nothing it computes
overflows a word. -/
theorem computeMemoryPlan_sound_iff (graph : LiteGraph) (tvs : List TensorValue) (alignment : ℕ) :
    (∃ fuel plan, computeMemoryPlan fuel graph tvs alignment = some plan ∧
      PlanIsSound graph tvs plan) ↔ FitsWords graph tvs alignment := by
  constructor
  · rintro ⟨fuel, plan, hplan, hsound⟩
    exact hsound.fits hplan
  · intro hfits
    have halign := planAlignment_pos alignment
    obtain ⟨slots, hslots⟩ :=
      Rules.placeAll_total (R := exactRules (planAlignment alignment)) (plannedTensors graph tvs)
    refine ⟨slots.length + 1, _, ?_, PlanIsSound.of_fits hfits hslots⟩
    have hcode : (plannedTensors graph tvs).foldlM
        (placeTensor (planAlignment alignment) (slots.length + 1)) ([], []) =
          some (slots.map liveOf, slots.map placedOf) :=
      foldlM_of_exact halign Rules.fits_nil
        (fun lt hlt => ⟨(bytes_of_planned hlt).2, hfits.rounded lt hlt⟩) hslots
        (hfits.placed slots hslots) (Nat.lt_succ_self _)
    simp only [computeMemoryPlan, hcode, Option.bind_eq_bind, Option.bind_some, Option.pure_def]

/-- Two nodes; the tensor between them has `2^64` bytes. -/
def hugeIntermediate : LiteGraph where
  nodes := [⟨0, [0], [1], default⟩, ⟨0, [1], [2], default⟩]
  inputIds := [0]
  outputIds := [2]

def hugeTable : List TensorValue :=
  [⟨0, .input, .uint8, [1], 0, 0, 0⟩,
    ⟨1, .intermediate, .uint8, [4611686018427387904, 4], 0, 0, 0⟩,
    ⟨2, .intermediate, .uint8, [1], 0, 0, 0⟩]

/-- Rounding the overflow marker up wraps to zero, the pool is empty and the
loader rejects the plan. -/
theorem computeMemoryPlan_hugeIntermediate :
    ¬ ∃ fuel plan, computeMemoryPlan fuel hugeIntermediate hugeTable 64 = some plan ∧
      PlanIsSound hugeIntermediate hugeTable plan := by
  rintro ⟨fuel, plan, hplan, hsound⟩
  have hplanned : plannedTensors hugeIntermediate hugeTable = [⟨1, uint64Max, 0, 1, 0⟩] := by
    decide +kernel
  have hneed : roundUp uint64Max 64 = 0 := by decide
  simp only [computeMemoryPlan, hplanned] at hplan
  cases fuel with
  | zero => exact absurd hplan (by simp [placeTensor, findOffset])
  | succ n =>
    obtain rfl : (⟨[], 64, [⟨1, 0, 0⟩]⟩ : MmplPlan) = plan := by
      simpa [placeTensor, findOffset, planAlignment, hneed, emitPlan, u64] using hplan
    exact absurd hsound.accepted (by decide +kernel)

/-- The pool of a plan is never larger than its tensors, rounded up, next to each other. -/
theorem computeMemoryPlan_pool_le (h : computeMemoryPlan fuel graph tvs alignment = some plan) :
    plan.poolSizes.sum ≤ ((plannedTensors graph tvs).map fun lt =>
      roundUp lt.bytes (planAlignment alignment)).sum := by
  simp only [computeMemoryPlan, bind_eq_bind, bind_eq_some_iff, Option.pure_def,
    Option.some.injEq, Prod.exists] at h
  obtain ⟨live, placed, hcode, rfl⟩ := h
  have hnone : Within (planAlignment alignment) 0 [] := forall_mem_nil _
  have hwithin := foldlM_within (planAlignment_pos alignment) hnone hcode
  rw [Nat.zero_add] at hwithin
  have hpool := foldlRecOn (motive := (· ≤ ((plannedTensors graph tvs).map fun lt =>
    roundUp lt.bytes (planAlignment alignment)).sum)) placed (fun pool p => max pool p.stop)
      (Nat.zero_le _) fun pool hpool p hp => max_le hpool (hwithin p hp).1
  simp only [emitPlan]
  split_ifs
  · simpa using hpool
  · simp

/-- A tensor of one byte next to one whose size wraps. -/
theorem computeMemoryPlan_pool_le_huge : ([64] : List ℕ).sum ≤
    ((plannedTensors { hugeIntermediate with outputIds := [] } hugeTable).map fun lt =>
      roundUp lt.bytes (planAlignment 64)).sum := by
  have hplan : computeMemoryPlan 1 { hugeIntermediate with outputIds := [] } hugeTable 64 =
      some ⟨[64], 64, [⟨1, 0, 0⟩, ⟨2, 0, 0⟩]⟩ := by decide +kernel
  exact computeMemoryPlan_pool_le hplan

end Tenzor.Lite
