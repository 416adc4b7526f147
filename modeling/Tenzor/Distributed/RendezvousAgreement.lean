import Tenzor.Distributed.Rendezvous
import Mathlib.Order.Basic
import Mathlib.Data.List.Pairwise

/-!
# Agreement in the elastic rendezvous

A slot of a round is claimed once, since its counter only grows. The world size
of a round is published by the owner of slot zero, and once. The guard of a
round is won once, by a worker that entered the round when it was current; so
the current round moves up by one at a time.
-/

namespace Tenzor.Elastic

open List
open Function (update_of_ne update_self)

namespace Pc

/-- The round and slot of a join that can still return. -/
def held : Pc → Option (ℤ × ℤ)
  | .announce r k | .checkClosed r k | .barrier r k | .freeze r k _ | .awaitSize r k => some (r, k)
  | _ => none

/-- The slot of a worker that has not come past the barrier and its freeze. -/
def unfrozen : Pc → Option (ℤ × ℤ)
  | .announce r k | .checkClosed r k | .barrier r k | .freeze r k _ => some (r, k)
  | _ => none

/-- The round a join works on. -/
def round : Pc → Option ℤ
  | .outside => none
  | .claim r | .announce r _ | .checkClosed r _ | .barrier r _ | .freeze r _ _ | .awaitSize r _
  | .drop r _ | .guard r _ | .advanceRead r _ | .advanceSet r _ | .advanceReport r _ => some r

/-- The round whose guard the worker has won and not yet advanced past. -/
def winning : Pc → Option ℤ
  | .advanceRead r _ | .advanceSet r _ => some r
  | _ => none

theorem held_of_unfrozen {p : Pc} {c : ℤ × ℤ} (h : p.unfrozen = some c) : p.held = some c := by
  cases p <;> simp_all [unfrozen, held]

end Pc

namespace World

variable {ω : Type} [DecidableEq ω] {s : World ω} {cfg : RendezvousConfig} {s' s₁ : World ω} {w : ω}
  {p : Pc} {r k n : ℤ}

/-! ## What the store operations change -/

section Store

omit [DecidableEq ω]

variable (s) {k k' : Key} {r : ℤ}

@[simp] theorem number_set_self (k : Key) (n : ℤ) : (s.set k (.number n)).number k = n := by
  simp [number, set]

theorem number_set_ne (h : k' ≠ k) (e : Entry ω) : (s.set k e).number k' = s.number k' := by
  simp [number, set, update_of_ne h]

theorem number_delete_ne (h : k' ≠ k) : (s.delete k).number k' = s.number k' := by
  simp [number, delete, update_of_ne h]

theorem frozenSize_set_ne (h : .worldSize r ≠ k) (e : Entry ω) :
    (s.set k e).frozenSize r = s.frozenSize r := by
  simp [frozenSize, set, update_of_ne h]

theorem frozenSize_delete_ne (h : .worldSize r ≠ k) :
    (s.delete k).frozenSize r = s.frozenSize r := by
  simp [frozenSize, delete, update_of_ne h]

@[simp] theorem frozenSize_set_self (r n : ℤ) :
    (s.set (.worldSize r) (.number n)).frozenSize r = some n := by
  simp [frozenSize, set]

theorem set_store_ne (h : k' ≠ k) (e : Entry ω) : (s.set k e).store k' = s.store k' :=
  update_of_ne h ..

theorem delete_store_ne (h : k' ≠ k) : (s.delete k).store k' = s.store k' :=
  update_of_ne h ..

theorem frozenSize_increment (r r' : ℤ) :
    (s.increment (.slotCounter r)).frozenSize r' = s.frozenSize r' :=
  frozenSize_set_ne s (by simp) _

end Store

section Leave

variable (s)

theorem number_leave {k : Key} (h : ∀ r n, k ≠ .leave r n) (w : ω) :
    (s.leave w).number k = s.number k := by
  unfold World.leave
  split
  · exact number_set_ne s (h _ _) _
  · rfl

theorem frozenSize_leave (w : ω) (r : ℤ) : (s.leave w).frozenSize r = s.frozenSize r := by
  unfold World.leave
  split
  · next r' n _ => exact frozenSize_set_ne s (show Key.worldSize r ≠ .leave r' n by simp) (.number 1)
  · rfl

theorem leave_worldSize (w : ω) (r : ℤ) :
    (s.leave w).store (.worldSize r) = s.store (.worldSize r) := by
  unfold World.leave
  split
  · next r' n _ => exact set_store_ne s (show Key.worldSize r ≠ .leave r' n by simp) (.number 1)
  · rfl

theorem leave_eq (w : ω) : (s.leave w).pc = s.pc ∧ (s.leave w).results = s.results ∧
    (s.leave w).refused = s.refused ∧ (s.leave w).published = s.published := by
  unfold World.leave
  split <;> exact ⟨rfl, rfl, rfl, rfl⟩

end Leave

section Goto

variable (s)

@[simp] theorem goto_pc_self (w : ω) (p : Pc) : (s.goto w p).pc w = p := update_self ..

theorem goto_pc_ne {w w' : ω} (h : w' ≠ w) (p : Pc) : (s.goto w p).pc w' = s.pc w' :=
  update_of_ne h ..

@[simp] theorem goto_number (w : ω) (p : Pc) (k : Key) : (s.goto w p).number k = s.number k := rfl

@[simp] theorem goto_frozenSize (w : ω) (p : Pc) (r : ℤ) :
    (s.goto w p).frozenSize r = s.frozenSize r := rfl

end Goto

/-! ## Slots -/

/-- What is true of slots, world sizes and results between any two ticks. -/
structure Slots (cfg : RendezvousConfig) (s : World ω) : Prop where
  counted : ∀ r, 0 ≤ s.number (.slotCounter r)
  held_lt : ∀ w r k, (s.pc w).held = some (r, k) → 0 ≤ k ∧ k < s.number (.slotCounter r)
  held_inj : ∀ w w' c, (s.pc w).held = some c → (s.pc w').held = some c → w = w'
  valid : ∀ w, s.pc w ≠ .outside → cfg.Valid
  freezing : ∀ w r k n, s.pc w = .freeze r k n → k = 0 ∧ cfg.minWorkers ≤ n
  frozen : ∀ r n, s.frozenSize r = some n →
    0 < s.number (.slotCounter r) ∧ cfg.minWorkers ≤ n ∧ n ≤ cfg.maxWorkers ∧
      ∀ w, (s.pc w).unfrozen ≠ some (r, 0)
  result_lt : ∀ a ∈ s.results, 0 ≤ a.rank ∧ a.rank < s.number (.slotCounter a.round)
  result_free : ∀ a ∈ s.results, ∀ w, (s.pc w).held ≠ some (a.round, a.rank)
  result_size : ∀ a ∈ s.results, s.frozenSize a.round = some a.worldSize ∧ a.rank < a.worldSize
  result_apart : s.results.Pairwise fun a b => (a.round, a.rank) ≠ (b.round, b.rank)

/-- A tick that touches neither a slot counter nor a world size nor a result,
and gives its worker no slot it did not hold. -/
theorem Slots.frame (h : Slots cfg s) (w : ω)
    (hcount : ∀ r, s'.number (.slotCounter r) = s.number (.slotCounter r))
    (hsize : ∀ r, s'.frozenSize r = s.frozenSize r) (hres : s'.results = s.results)
    (hpc : ∀ w', w' ≠ w → s'.pc w' = s.pc w')
    (hheld : ∀ c, (s'.pc w).held = some c → (s.pc w).held = some c)
    (hunfrozen : ∀ c, (s'.pc w).unfrozen = some c → (s.pc w).unfrozen = some c)
    (hvalid : s'.pc w ≠ .outside → cfg.Valid)
    (hfreezing : ∀ r k n, s'.pc w = .freeze r k n → k = 0 ∧ cfg.minWorkers ≤ n) : Slots cfg s' := by
  have hheld' : ∀ w' c, (s'.pc w').held = some c → (s.pc w').held = some c := by
    intro w' c hc
    by_cases hw : w' = w
    · subst hw
      exact hheld c hc
    · rwa [hpc w' hw] at hc
  refine ⟨?_, ?_, ?_, ?_, ?_, ?_, ?_, ?_, ?_, ?_⟩
  · intro r
    rw [hcount]
    exact h.counted r
  · intro w' r k hk
    rw [hcount]
    exact h.held_lt w' r k (hheld' w' _ hk)
  · intro w₁ w₂ c h₁ h₂
    exact h.held_inj w₁ w₂ c (hheld' w₁ c h₁) (hheld' w₂ c h₂)
  · intro w' hw'
    by_cases hw : w' = w
    · subst hw
      exact hvalid hw'
    · rw [hpc w' hw] at hw'
      exact h.valid w' hw'
  · intro w' r k n hf
    by_cases hw : w' = w
    · subst hw
      exact hfreezing r k n hf
    · rw [hpc w' hw] at hf
      exact h.freezing w' r k n hf
  · intro r n hn
    rw [hsize] at hn
    obtain ⟨hpos, hmin, hmax, hnone⟩ := h.frozen r n hn
    refine ⟨by rwa [hcount], hmin, hmax, fun w' hc => ?_⟩
    by_cases hw : w' = w
    · subst hw
      exact hnone w' (hunfrozen _ hc)
    · rw [hpc w' hw] at hc
      exact hnone w' hc
  · intro a ha
    rw [hres] at ha
    rw [hcount]
    exact h.result_lt a ha
  · intro a ha w' hc
    rw [hres] at ha
    exact h.result_free a ha w' (hheld' w' _ hc)
  · intro a ha
    rw [hres] at ha
    rw [hsize]
    exact h.result_size a ha
  · rw [hres]
    exact h.result_apart

/-- The worker goes on; the store changed at most in keys that are no counter
and no world size. -/
theorem Slots.goto (h : Slots cfg s)
    (hcount : ∀ r, s₁.number (.slotCounter r) = s.number (.slotCounter r))
    (hsize : ∀ r, s₁.frozenSize r = s.frozenSize r) (hres : s₁.results = s.results)
    (hpc : s₁.pc = s.pc) (hheld : ∀ c, p.held = some c → (s.pc w).held = some c)
    (hunfrozen : ∀ c, p.unfrozen = some c → (s.pc w).unfrozen = some c) (hvalid : cfg.Valid)
    (hfreezing : ∀ r k n, p = .freeze r k n → k = 0 ∧ cfg.minWorkers ≤ n) :
    Slots cfg (s₁.goto w p) := by
  have hself := s₁.goto_pc_self w p
  refine h.frame w hcount hsize hres ?_ ?_ ?_ (fun _ => hvalid) ?_
  · intro w' hw
    rw [goto_pc_ne s₁ hw, hpc]
  · rwa [hself]
  · rwa [hself]
  · rwa [hself]

/-- A worker that is going to throw gives its slot up. -/
theorem Slots.goto_failing (h : Slots cfg s)
    (hcount : ∀ r, s₁.number (.slotCounter r) = s.number (.slotCounter r))
    (hsize : ∀ r, s₁.frozenSize r = s.frozenSize r) (hres : s₁.results = s.results)
    (hpc : s₁.pc = s.pc) (hw : s.pc w ≠ .outside) (hnone : p.held = none) :
    Slots cfg (s₁.goto w p) := by
  refine h.goto hcount hsize hres hpc ?_ ?_ (h.valid w hw) ?_
  · intro c hc
    simp [hnone] at hc
  · intro c hc
    simp [Pc.held_of_unfrozen hc] at hnone
  · rintro r k n rfl
    simp [Pc.held] at hnone

/-- The next slot of the round. -/
theorem Slots.claim (h : Slots cfg s) (hw : s.pc w = .claim r) :
    Slots cfg ((s.increment (.slotCounter r)).goto w (.announce r (s.number (.slotCounter r)))) := by
  have hvalid := h.valid w (by simp [hw])
  have hcount : ∀ r', s.number (.slotCounter r') ≤
      ((s.increment (.slotCounter r)).goto w (.announce r (s.number (.slotCounter r)))).number
        (.slotCounter r') := by
    intro r'
    by_cases hr : r' = r
    · subst hr
      exact (Int.le_add_one (Int.le_refl _)).trans_eq (number_set_self s _ _).symm
    · exact (number_set_ne s (k := .slotCounter r) (by simpa using hr) _).ge
  have hnew : s.number (.slotCounter r) <
      ((s.increment (.slotCounter r)).goto w (.announce r (s.number (.slotCounter r)))).number
        (.slotCounter r) :=
    (Int.lt_add_one_of_le (Int.le_refl _)).trans_eq (number_set_self s _ _).symm
  have hsize : ∀ r', ((s.increment (.slotCounter r)).goto w
      (.announce r (s.number (.slotCounter r)))).frozenSize r' = s.frozenSize r' :=
    fun r' => s.frozenSize_increment r r'
  -- Every slot held or returned so far is below the new one.
  have hheld : ∀ w' c, (((s.increment (.slotCounter r)).goto w
      (.announce r (s.number (.slotCounter r)))).pc w').held = some c →
      (w' = w ∧ c = (r, s.number (.slotCounter r))) ∨ (w' ≠ w ∧ (s.pc w').held = some c) := by
    intro w' c hc
    by_cases hww : w' = w
    · subst hww
      rw [goto_pc_self] at hc
      exact .inl ⟨rfl, (Option.some.inj hc).symm⟩
    · rw [goto_pc_ne _ hww] at hc
      exact .inr ⟨hww, hc⟩
  have hfresh : ∀ w' , (s.pc w').held ≠ some (r, s.number (.slotCounter r)) := by
    intro w' hc
    exact absurd (h.held_lt w' _ _ hc).2 (lt_irrefl _)
  refine ⟨?_, ?_, ?_, ?_, ?_, ?_, ?_, ?_, ?_, ?_⟩
  · exact fun r' => (h.counted r').trans (hcount r')
  · intro w' r' k hk
    obtain ⟨-, heq⟩ | ⟨-, hold⟩ := hheld w' _ hk
    · obtain ⟨rfl, rfl⟩ := Prod.mk.inj heq
      exact ⟨h.counted r', hnew⟩
    · exact ⟨(h.held_lt w' r' k hold).1, (h.held_lt w' r' k hold).2.trans_le (hcount r')⟩
  · intro w₁ w₂ c h₁ h₂
    obtain ⟨rfl, rfl⟩ | ⟨-, hold₁⟩ := hheld w₁ c h₁
    · obtain ⟨rfl, -⟩ | ⟨-, hold₂⟩ := hheld w₂ _ h₂
      · rfl
      · exact absurd hold₂ (hfresh w₂)
    · obtain ⟨rfl, rfl⟩ | ⟨-, hold₂⟩ := hheld w₂ c h₂
      · exact absurd hold₁ (hfresh w₁)
      · exact h.held_inj w₁ w₂ c hold₁ hold₂
  · exact fun _ _ => hvalid
  · intro w' r' k n hf
    by_cases hww : w' = w
    · subst hww
      simp at hf
    · rw [goto_pc_ne _ hww] at hf
      exact h.freezing w' r' k n hf
  · intro r' n hn
    obtain ⟨hpos, hmin, hmax, hnone⟩ := h.frozen r' n hn
    refine ⟨hpos.trans_le (hcount r'), hmin, hmax, fun w' hc => ?_⟩
    obtain ⟨-, heq⟩ | ⟨hww, hold⟩ := hheld w' _ (Pc.held_of_unfrozen hc)
    · -- The slot is not the first one: the round was frozen by its owner.
      obtain ⟨rfl, hzero⟩ := Prod.mk.inj heq
      exact absurd hzero (ne_of_lt hpos)
    · rw [goto_pc_ne _ hww] at hc
      exact hnone w' hc
  · exact fun a ha => ⟨(h.result_lt a ha).1, (h.result_lt a ha).2.trans_le (hcount _)⟩
  · intro a ha w' hc
    obtain ⟨-, heq⟩ | ⟨-, hold⟩ := hheld w' _ hc
    · obtain ⟨hr, hk⟩ := Prod.mk.inj heq
      have hlt := (h.result_lt a ha).2
      rw [hr, hk] at hlt
      exact absurd hlt (lt_irrefl _)
    · exact h.result_free a ha w' hold
  · intro a ha
    exact h.result_size a ha
  · exact h.result_apart

omit [DecidableEq ω] in
/-- Nobody published the world size before the owner of slot zero does. -/
theorem Slots.unset (h : Slots cfg s) (hw : s.pc w = .freeze r k n) : s.frozenSize r = none := by
  obtain ⟨rfl, -⟩ := h.freezing w r k n hw
  by_contra hne
  obtain ⟨m, hm⟩ := Option.ne_none_iff_exists'.mp hne
  exact (h.frozen r m hm).2.2.2 w (by rw [hw]; rfl)

/-- The owner of slot zero publishes the world size. -/
theorem Slots.freeze (h : Slots cfg s) (hw : s.pc w = .freeze r k n) :
    Slots cfg ((s.set (.worldSize r) (.number (min n cfg.maxWorkers))).goto w (.awaitSize r k)) := by
  obtain ⟨rfl, hmin⟩ := h.freezing w r k n hw
  have hvalid := h.valid w (by simp [hw])
  have hheldw : (s.pc w).held = some (r, 0) := by rw [hw]; rfl
  have hunset := h.unset hw
  have hsize : ∀ r' m, ((s.set (.worldSize r) (.number (min n cfg.maxWorkers))).goto w
      (.awaitSize r 0)).frozenSize r' = some m →
      (r' = r ∧ m = min n cfg.maxWorkers) ∨ (r' ≠ r ∧ s.frozenSize r' = some m) := by
    intro r' m hm
    by_cases hr : r' = r
    · subst hr
      exact .inl ⟨rfl, (Option.some.inj ((frozenSize_set_self s _ _).symm.trans hm)).symm⟩
    · refine .inr ⟨hr, ?_⟩
      rw [← hm]
      exact (frozenSize_set_ne s (by simpa using hr) _).symm
  have hheld : ∀ w' c, (((s.set (.worldSize r) (.number (min n cfg.maxWorkers))).goto w
      (.awaitSize r 0)).pc w').held = some c → (s.pc w').held = some c := by
    intro w' c hc
    by_cases hww : w' = w
    · subst hww
      rw [goto_pc_self] at hc
      rwa [hheldw]
    · rwa [goto_pc_ne _ hww] at hc
  have hunfrozen : ∀ w' c, (((s.set (.worldSize r) (.number (min n cfg.maxWorkers))).goto w
      (.awaitSize r 0)).pc w').unfrozen = some c → w' ≠ w ∧ (s.pc w').unfrozen = some c := by
    intro w' c hc
    by_cases hww : w' = w
    · subst hww
      simp [Pc.unfrozen] at hc
    · rw [goto_pc_ne _ hww] at hc
      exact ⟨hww, hc⟩
  refine ⟨h.counted, ?_, ?_, ?_, ?_, ?_, h.result_lt, ?_, ?_, h.result_apart⟩
  · exact fun w' r' k' hk => h.held_lt w' r' k' (hheld w' _ hk)
  · exact fun w₁ w₂ c h₁ h₂ => h.held_inj w₁ w₂ c (hheld w₁ c h₁) (hheld w₂ c h₂)
  · exact fun _ _ => hvalid
  · intro w' r' k' n' hf
    by_cases hww : w' = w
    · subst hww
      simp at hf
    · rw [goto_pc_ne _ hww] at hf
      exact h.freezing w' r' k' n' hf
  · intro r' m hm
    obtain ⟨rfl, rfl⟩ | ⟨-, hold⟩ := hsize r' m hm
    · refine ⟨(h.held_lt w _ _ hheldw).2, le_min hmin hvalid.2, min_le_right _ _, ?_⟩
      intro w' hc
      obtain ⟨hww, hold⟩ := hunfrozen w' _ hc
      exact hww (h.held_inj w' w _ (Pc.held_of_unfrozen hold) hheldw)
    · obtain ⟨hpos, hmin', hmax, hnone⟩ := h.frozen r' m hold
      exact ⟨hpos, hmin', hmax, fun w' hc => hnone w' (hunfrozen w' _ hc).2⟩
  · exact fun a ha w' hc => h.result_free a ha w' (hheld w' _ hc)
  · intro a ha
    obtain ⟨hold, hlt⟩ := h.result_size a ha
    have hne : a.round ≠ r := by
      intro heq
      simp [heq, hunset] at hold
    refine ⟨?_, hlt⟩
    rw [← hold]
    exact frozenSize_set_ne s (by simpa using hne) _

/-- A worker inside the frozen size returns with its slot as rank. -/
theorem Slots.returns (h : Slots cfg s) {w : ω} {r k n : ℤ} (hw : s.pc w = .awaitSize r k)
    (hn : s.frozenSize r = some n) (hlt : k < n) : Slots cfg (s.returns w r k n) := by
  have hheldw : (s.pc w).held = some (r, k) := by rw [hw]; rfl
  have hself : (s.returns w r k n).pc w = .outside := update_self ..
  have hne : ∀ w', w' ≠ w → (s.returns w r k n).pc w' = s.pc w' :=
    fun w' hww => update_of_ne hww ..
  have hheld : ∀ w' c, ((s.returns w r k n).pc w').held = some c →
      w' ≠ w ∧ (s.pc w').held = some c := by
    intro w' c hc
    by_cases hww : w' = w
    · subst hww
      rw [hself] at hc
      simp [Pc.held] at hc
    · rw [hne w' hww] at hc
      exact ⟨hww, hc⟩
  have hmem : ∀ a ∈ (s.returns w r k n).results, a ∈ s.results ∨ a = ⟨r, k, n, w⟩ := by
    intro a ha
    exact (mem_append.mp ha).imp_right mem_singleton.mp
  refine ⟨h.counted, ?_, ?_, ?_, ?_, ?_, ?_, ?_, ?_, ?_⟩
  · exact fun w' r' k' hk => h.held_lt w' r' k' (hheld w' _ hk).2
  · exact fun w₁ w₂ c h₁ h₂ => h.held_inj w₁ w₂ c (hheld w₁ c h₁).2 (hheld w₂ c h₂).2
  · exact fun _ _ => h.valid w (by simp [hw])
  · intro w' r' k' n' hf
    by_cases hww : w' = w
    · subst hww
      simp [hself] at hf
    · rw [hne w' hww] at hf
      exact h.freezing w' r' k' n' hf
  · intro r' m hm
    obtain ⟨hpos, hmin, hmax, hnone⟩ := h.frozen r' m hm
    refine ⟨hpos, hmin, hmax, fun w' hc => ?_⟩
    obtain ⟨hww, -⟩ := hheld w' _ (Pc.held_of_unfrozen hc)
    rw [hne w' hww] at hc
    exact hnone w' hc
  · intro a ha
    obtain ha | rfl := hmem a ha
    · exact h.result_lt a ha
    · exact h.held_lt w r k hheldw
  · intro a ha w' hc
    obtain ⟨hww, hold⟩ := hheld w' _ hc
    obtain ha | rfl := hmem a ha
    · exact h.result_free a ha w' hold
    · exact hww (h.held_inj w' w _ hold hheldw)
  · intro a ha
    obtain ha | rfl := hmem a ha
    · exact h.result_size a ha
    · exact ⟨hn, hlt⟩
  · refine pairwise_append.mpr ⟨h.result_apart, pairwise_singleton _ _, ?_⟩
    intro a ha b hb heq
    obtain rfl := mem_singleton.mp hb
    exact h.result_free a ha w (heq ▸ hheldw)

/-- Past the barrier the coordinator has counted enough workers. -/
theorem Slots.afterBarrier (h : Slots cfg s) (hw : s.pc w = .barrier r k)
    (hmin : cfg.minWorkers ≤ n) : Slots cfg (s.afterBarrier w r k n) := by
  have hvalid := h.valid w (by simp [hw])
  unfold World.afterBarrier
  split_ifs with hk
  · refine h.goto (fun _ => rfl) (fun _ => rfl) rfl rfl (by simp [hw, Pc.held])
      (by simp [hw, Pc.unfrozen]) hvalid ?_
    intro r' k' n' hf
    obtain ⟨-, rfl, rfl⟩ := Pc.freeze.inj hf
    exact ⟨hk, hmin⟩
  · exact h.goto (fun _ => rfl) (fun _ => rfl) rfl rfl (by simp [hw, Pc.held])
      (by simp [Pc.unfrozen]) hvalid (by simp)

theorem Slots.poll (h : Slots cfg s) {t : Tick ω} (hw : s.pc t.worker = .barrier r k) :
    Slots cfg (s.poll cfg t r k) := by
  have hvalid := h.valid t.worker (by simp [hw])
  unfold World.poll
  dsimp only
  split_ifs with hmax hgrace hdeadline hmin
  · exact h.afterBarrier hw (hvalid.2.trans hmax)
  · exact h.afterBarrier hw hgrace.1
  · exact h.afterBarrier hw hmin
  · exact h.goto_failing (fun _ => rfl) (fun _ => rfl) rfl rfl (by simp [hw]) rfl
  · exact h

theorem Slots.step (h : Slots cfg s) (t : Tick ω) : Slots cfg (s.step cfg t) := by
  have hbusy : ∀ {p : Pc}, s.pc t.worker = p → p ≠ .outside → s.pc t.worker ≠ .outside :=
    fun he hne => by rwa [he]
  cases hpc : s.pc t.worker with
  | outside =>
    simp only [World.step, hpc]
    split_ifs with hleaves hvalid
    · obtain ⟨hpcs, hres, -⟩ := s.leave_eq t.worker
      refine h.frame t.worker (fun _ => number_leave s (by simp) _) (frozenSize_leave s _) hres
        (fun _ _ => by rw [hpcs]) ?_ ?_ ?_ ?_ <;> simp [hpcs, hpc, Pc.held, Pc.unfrozen]
    · exact h.goto (fun _ => rfl) (fun _ => rfl) rfl rfl (by simp [Pc.held])
        (by simp [Pc.unfrozen]) hvalid (by simp)
    · exact h
  | claim r =>
    simp only [World.step, hpc]
    exact h.claim hpc
  | announce r k =>
    simp only [World.step, hpc]
    exact h.goto (fun _ => number_set_ne s (by simp) _) (fun _ => frozenSize_set_ne s (by simp) _)
      rfl rfl (by simp [hpc, Pc.held]) (by simp [hpc, Pc.unfrozen])
      (h.valid _ (hbusy hpc (by simp))) (by simp)
  | checkClosed r k =>
    simp only [World.step, hpc]
    split_ifs
    · exact h.goto_failing (fun _ => rfl) (fun _ => rfl) rfl rfl (hbusy hpc (by simp)) rfl
    · exact h.goto (fun _ => rfl) (fun _ => rfl) rfl rfl (by simp [hpc, Pc.held])
        (by simp [hpc, Pc.unfrozen]) (h.valid _ (hbusy hpc (by simp))) (by simp)
  | barrier r k =>
    simp only [World.step, hpc]
    exact h.poll hpc
  | freeze r k n =>
    simp only [World.step, hpc]
    exact h.freeze hpc
  | awaitSize r k =>
    simp only [World.step, hpc]
    unfold World.readSize
    split
    · rename_i size hsize
      split_ifs with hlt
      · exact h.returns hpc hsize hlt
      · exact h.goto_failing (fun _ => rfl) (fun _ => rfl) rfl rfl (hbusy hpc (by simp)) rfl
    · split_ifs
      · exact h.goto_failing (fun _ => rfl) (fun _ => rfl) rfl rfl (hbusy hpc (by simp)) rfl
      · exact h
  | drop r k =>
    simp only [World.step, hpc]
    exact h.goto_failing (fun _ => number_delete_ne s (by simp))
      (fun _ => frozenSize_delete_ne s (by simp)) rfl rfl (hbusy hpc (by simp)) rfl
  | guard r k =>
    simp only [World.step, hpc]
    refine h.goto_failing (fun _ => number_set_ne s (by simp) _)
      (fun _ => frozenSize_set_ne s (by simp) _) rfl rfl (hbusy hpc (by simp)) ?_
    split_ifs <;> rfl
  | advanceRead r k =>
    simp only [World.step, hpc]
    refine h.goto_failing (fun _ => rfl) (fun _ => rfl) rfl rfl (hbusy hpc (by simp)) ?_
    split_ifs <;> rfl
  | advanceSet r k =>
    simp only [World.step, hpc]
    refine h.frame t.worker
      (fun i => number_set_ne s (show Key.slotCounter i ≠ .currentRound by simp)
        (.number (r + 1)))
      (fun i => frozenSize_set_ne s (show Key.worldSize i ≠ .currentRound by simp)
        (.number (r + 1))) rfl
      (fun w hw => goto_pc_ne _ hw _) ?_ ?_
      (fun _ => h.valid _ (hbusy hpc (by simp))) ?_ <;> simp [Pc.held, Pc.unfrozen]
  | advanceReport r k =>
    simp only [World.step, hpc]
    refine h.frame t.worker (fun _ => rfl) (fun _ => rfl) rfl
      (fun w hw => update_of_ne hw ..) ?_ ?_ ?_ ?_ <;>
      simp [World.throws, Pc.held, Pc.unfrozen]

/-- What is true of the current round and the guards between any two ticks. -/
structure Rounds (s : World ω) : Prop where
  current : 0 ≤ s.number .currentRound
  inside : ∀ w r, (s.pc w).round = some r → 0 ≤ r ∧ r ≤ s.number .currentRound
  guarded : ∀ r, 0 ≤ s.number (.advanceGuard r)
  past : ∀ r, 0 ≤ r → r < s.number .currentRound → 0 < s.number (.advanceGuard r)
  future : ∀ r, s.number .currentRound < r → s.number (.advanceGuard r) = 0
  winner : ∀ w r, (s.pc w).winning = some r →
    r = s.number .currentRound ∧ 0 < s.number (.advanceGuard r)
  winner_inj : ∀ w w' r, (s.pc w).winning = some r → (s.pc w').winning = some r → w = w'
  sorted : s.published.Pairwise (· < ·)
  published : ∀ r ∈ s.published, 0 < r ∧ r ≤ s.number .currentRound
  latest : s.number .currentRound = s.published.getLastD 0

/-- A tick that touches neither the current round nor a guard. -/
theorem Rounds.frame (h : Rounds s) (w : ω)
    (hcur : s'.number .currentRound = s.number .currentRound)
    (hguard : ∀ r, s'.number (.advanceGuard r) = s.number (.advanceGuard r))
    (hpub : s'.published = s.published) (hpc : ∀ w', w' ≠ w → s'.pc w' = s.pc w')
    (hround : ∀ r, (s'.pc w).round = some r → 0 ≤ r ∧ r ≤ s.number .currentRound)
    (hwin : ∀ r, (s'.pc w).winning = some r → (s.pc w).winning = some r) : Rounds s' := by
  have hwin' : ∀ w' r, (s'.pc w').winning = some r → (s.pc w').winning = some r := by
    intro w' r hr
    by_cases hw : w' = w
    · subst hw
      exact hwin r hr
    · rwa [hpc w' hw] at hr
  refine ⟨?_, ?_, ?_, ?_, ?_, ?_, ?_, ?_, ?_, ?_⟩
  · rw [hcur]
    exact h.current
  · intro w' r hr
    rw [hcur]
    by_cases hw : w' = w
    · subst hw
      exact hround r hr
    · rw [hpc w' hw] at hr
      exact h.inside w' r hr
  · intro r
    rw [hguard]
    exact h.guarded r
  · intro r hr hlt
    rw [hcur] at hlt
    rw [hguard]
    exact h.past r hr hlt
  · intro r hlt
    rw [hcur] at hlt
    rw [hguard]
    exact h.future r hlt
  · intro w' r hr
    rw [hcur, hguard]
    exact h.winner w' r (hwin' w' r hr)
  · exact fun w₁ w₂ r h₁ h₂ => h.winner_inj w₁ w₂ r (hwin' w₁ r h₁) (hwin' w₂ r h₂)
  · rw [hpub]
    exact h.sorted
  · rw [hpub, hcur]
    exact h.published
  · rw [hpub, hcur]
    exact h.latest

/-- The worker stays in its round, and does not become a winner. -/
theorem Rounds.goto (h : Rounds s) (hcur : s₁.number .currentRound = s.number .currentRound)
    (hguard : ∀ r, s₁.number (.advanceGuard r) = s.number (.advanceGuard r))
    (hpub : s₁.published = s.published) (hpc : s₁.pc = s.pc)
    (hround : ∀ r, p.round = some r → (s.pc w).round = some r)
    (hwin : ∀ r, p.winning = some r → (s.pc w).winning = some r) : Rounds (s₁.goto w p) := by
  have hself := s₁.goto_pc_self w p
  refine h.frame w hcur hguard hpub ?_ ?_ ?_
  · intro w' hw
    rw [goto_pc_ne s₁ hw, hpc]
  · intro r hr
    rw [hself] at hr
    exact h.inside w r (hround r hr)
  · rwa [hself]

/-- The first worker at the guard of a round wins it, and that round is current. -/
theorem Rounds.guard (h : Rounds s) (hw : s.pc w = .guard r k) :
    Rounds ((s.increment (.advanceGuard r)).goto w
      (if s.number (.advanceGuard r) + 1 = 1 then .advanceRead r k else .advanceReport r k)) := by
  obtain ⟨hnonneg, hle⟩ := h.inside w r (by rw [hw]; rfl)
  have hcur : (s.increment (.advanceGuard r)).number .currentRound = s.number .currentRound :=
    number_set_ne s (by simp) _
  have hguard : ∀ r', s.number (.advanceGuard r') ≤
      (s.increment (.advanceGuard r)).number (.advanceGuard r') := by
    intro r'
    by_cases hr : r' = r
    · subst hr
      exact (Int.le_add_one (Int.le_refl _)).trans_eq (number_set_self s _ _).symm
    · exact (number_set_ne s (k := .advanceGuard r) (by simpa using hr) _).ge
  have hpos : 0 < (s.increment (.advanceGuard r)).number (.advanceGuard r) :=
    (Int.lt_add_one_of_le (h.guarded r)).trans_eq (number_set_self s _ _).symm
  -- Only the first worker at the guard becomes a winner, and it is alone.
  have hwin : ∀ w' r', (((s.increment (.advanceGuard r)).goto w
      (if s.number (.advanceGuard r) + 1 = 1 then Pc.advanceRead r k
        else .advanceReport r k)).pc w').winning = some r' →
      (w' = w ∧ r' = r ∧ s.number (.advanceGuard r) = 0) ∨
        (w' ≠ w ∧ (s.pc w').winning = some r') := by
    intro w' r' hr'
    by_cases hww : w' = w
    · subst hww
      rw [goto_pc_self] at hr'
      split_ifs at hr' with hzero
      · exact .inl ⟨rfl, (Option.some.inj hr').symm, by omega⟩
      · simp [Pc.winning] at hr'
    · rw [goto_pc_ne _ hww] at hr'
      exact .inr ⟨hww, hr'⟩
  have halone : s.number (.advanceGuard r) = 0 → ∀ w', (s.pc w').winning ≠ some r := by
    intro hzero w' hw'
    have := (h.winner w' r hw').2
    omega
  refine ⟨?_, ?_, ?_, ?_, ?_, ?_, ?_, h.sorted, ?_, ?_⟩
  · exact h.current
  · intro w' r' hr'
    by_cases hww : w' = w
    · subst hww
      rw [goto_pc_self] at hr'
      split_ifs at hr' <;> exact Option.some.inj hr' ▸ ⟨hnonneg, hle⟩
    · rw [goto_pc_ne _ hww] at hr'
      exact h.inside w' r' hr'
  · exact fun r' => (h.guarded r').trans (hguard r')
  · intro r' hr' hlt
    exact (h.past r' hr' hlt).trans_le (hguard r')
  · intro r' hlt
    rw [goto_number] at hlt
    have hne : r' ≠ r := by omega
    exact (number_set_ne s (k := .advanceGuard r) (by simpa using hne) _).trans (h.future r' hlt)
  · intro w' r' hr'
    rw [goto_number]
    obtain ⟨-, rfl, hzero⟩ | ⟨-, hold⟩ := hwin w' r' hr'
    · refine ⟨?_, hpos⟩
      by_contra hne
      have := h.past r' hnonneg (by omega)
      omega
    · exact ⟨(h.winner w' r' hold).1, (h.winner w' r' hold).2.trans_le (hguard r')⟩
  · intro w₁ w₂ r' h₁ h₂
    obtain ⟨rfl, rfl, hzero⟩ | ⟨-, hold₁⟩ := hwin w₁ r' h₁
    · obtain ⟨rfl, -⟩ | ⟨-, hold₂⟩ := hwin w₂ _ h₂
      · rfl
      · exact absurd hold₂ (halone hzero w₂)
    · obtain ⟨rfl, rfl, hzero⟩ | ⟨-, hold₂⟩ := hwin w₂ r' h₂
      · exact absurd hold₁ (halone hzero w₁)
      · exact h.winner_inj w₁ w₂ r' hold₁ hold₂
  · intro r' hr'
    exact h.published r' hr'
  · exact h.latest

/-- The winner publishes the round after the current one. -/
theorem Rounds.advance (h : Rounds s) (hw : s.pc w = .advanceSet r k) :
    Rounds { (s.set .currentRound (.number (r + 1))).goto w (.advanceReport r k) with
      published := s.published ++ [r + 1] } := by
  have hwinw : (s.pc w).winning = some r := by rw [hw]; rfl
  obtain ⟨rfl, hpos⟩ := h.winner w r hwinw
  generalize hc : s.number .currentRound = c at *
  have hcur : (s.set .currentRound (.number (c + 1))).number .currentRound = c + 1 :=
    number_set_self s _ _
  have hguard : ∀ r', (s.set .currentRound (.number (c + 1))).number (.advanceGuard r') =
      s.number (.advanceGuard r') := fun r' => number_set_ne s (by simp) _
  have hle : ∀ r' ∈ s.published, 0 < r' ∧ r' ≤ c := fun r' hr' => hc ▸ h.published r' hr'
  have hnonneg : 0 ≤ c := hc ▸ h.current
  -- No other worker is a winner: it would have won the same guard.
  have hwin : ∀ w' r', (((s.set .currentRound (.number (c + 1))).goto w
      (.advanceReport c k)).pc w').winning = some r' → False := by
    intro w' r' hr'
    by_cases hww : w' = w
    · subst hww
      simp [Pc.winning] at hr'
    · rw [goto_pc_ne _ hww] at hr'
      have heq : r' = c := hc ▸ (h.winner w' r' hr').1
      exact hww (h.winner_inj w' w c (heq ▸ hr') hwinw)
  refine ⟨?_, ?_, ?_, ?_, ?_, ?_, ?_, ?_, ?_, ?_⟩
  · exact (Int.le_add_one hnonneg).trans_eq hcur.symm
  · intro w' r' hr'
    have hold : 0 ≤ r' ∧ r' ≤ c := by
      by_cases hww : w' = w
      · subst hww
        have hself : some c = some r' := (congrArg Pc.round (goto_pc_self _ _ _)).symm.trans hr'
        exact Option.some.inj hself ▸ ⟨hnonneg, le_refl c⟩
      · rw [← hc]
        exact h.inside w' r' ((congrArg Pc.round (goto_pc_ne _ hww _)).symm.trans hr')
    exact ⟨hold.1, (Int.le_add_one hold.2).trans_eq hcur.symm⟩
  · exact fun r' => (h.guarded r').trans_eq (hguard r').symm
  · intro r' hr' hlt
    have hlt : r' < c + 1 := hlt.trans_eq hcur
    have hold : 0 < s.number (.advanceGuard r') := by
      by_cases heq : r' = c
      · exact heq ▸ hpos
      · exact h.past r' hr' (by omega)
    exact hold.trans_eq (hguard r').symm
  · intro r' hlt
    have hlt : c + 1 < r' := hcur.symm.trans_lt hlt
    exact (hguard r').trans (h.future r' (by omega))
  · exact fun w' r' hr' => (hwin w' r' hr').elim
  · exact fun w' _ r' hr' _ => (hwin w' r' hr').elim
  · refine pairwise_append.mpr ⟨h.sorted, pairwise_singleton _ _, ?_⟩
    intro a ha b hb
    obtain rfl := mem_singleton.mp hb
    exact Int.lt_add_one_of_le (hle a ha).2
  · intro r' hr'
    refine ⟨?_, ?_⟩
    · obtain hr' | hr' := mem_append.mp hr'
      · exact (hle r' hr').1
      · rw [mem_singleton.mp hr']
        omega
    · obtain hr' | hr' := mem_append.mp hr'
      · exact Int.le_add_one (hle r' hr').2
      · exact (mem_singleton.mp hr').le
  · refine hcur.trans ?_
    simp

theorem Rounds.step (h : Rounds s) (t : Tick ω) : Rounds (s.step cfg t) := by
  cases hpc : s.pc t.worker with
  | outside =>
    simp only [World.step, hpc]
    split_ifs with hleaves hvalid
    · obtain ⟨hpcs, -, -, hpub⟩ := s.leave_eq t.worker
      refine h.frame t.worker (number_leave s (by simp) _) (fun _ => number_leave s (by simp) _)
        hpub (fun _ _ => by rw [hpcs]) ?_ ?_ <;> simp [hpcs, hpc, Pc.round, Pc.winning]
    · refine h.frame t.worker rfl (fun _ => rfl) rfl (fun w hw => goto_pc_ne _ hw _) ?_ ?_
      · simp [Pc.round, World.currentRound, max_eq_right h.current, h.current]
      · simp [Pc.winning]
    · exact h
  | claim r =>
    simp only [World.step, hpc]
    exact h.goto (number_set_ne s (by simp) _) (fun _ => number_set_ne s (by simp) _) rfl rfl
      (by simp [hpc, Pc.round]) (by simp [Pc.winning])
  | announce r k =>
    simp only [World.step, hpc]
    exact h.goto (number_set_ne s (by simp) _) (fun _ => number_set_ne s (by simp) _) rfl rfl
      (by simp [hpc, Pc.round]) (by simp [Pc.winning])
  | checkClosed r k =>
    simp only [World.step, hpc]
    split_ifs <;>
      exact h.goto rfl (fun _ => rfl) rfl rfl (by simp [hpc, Pc.round]) (by simp [Pc.winning])
  | barrier r k =>
    simp only [World.step, hpc, World.poll, World.afterBarrier]
    split_ifs <;> first
      | exact h
      | exact h.goto rfl (fun _ => rfl) rfl rfl (by simp [hpc, Pc.round]) (by simp [Pc.winning])
  | freeze r k n =>
    simp only [World.step, hpc]
    exact h.goto (number_set_ne s (by simp) _) (fun _ => number_set_ne s (by simp) _) rfl rfl
      (by simp [hpc, Pc.round]) (by simp [Pc.winning])
  | awaitSize r k =>
    simp only [World.step, hpc, World.readSize]
    split
    · split_ifs
      · refine h.frame t.worker rfl (fun _ => rfl) rfl (fun w hw => update_of_ne hw ..)
          ?_ ?_ <;> simp [World.returns, Pc.round, Pc.winning]
      · exact h.goto rfl (fun _ => rfl) rfl rfl (by simp [hpc, Pc.round]) (by simp [Pc.winning])
    · split_ifs
      · exact h.goto rfl (fun _ => rfl) rfl rfl (by simp [hpc, Pc.round]) (by simp [Pc.winning])
      · exact h
  | drop r k =>
    simp only [World.step, hpc]
    exact h.goto (number_delete_ne s (by simp)) (fun _ => number_delete_ne s (by simp)) rfl rfl
      (by simp [hpc, Pc.round]) (by simp [Pc.winning])
  | guard r k =>
    simp only [World.step, hpc]
    exact h.guard hpc
  | advanceRead r k =>
    simp only [World.step, hpc]
    split_ifs <;>
      exact h.goto rfl (fun _ => rfl) rfl rfl (by simp [hpc, Pc.round]) (by simp [hpc, Pc.winning])
  | advanceSet r k =>
    simp only [World.step, hpc]
    exact h.advance hpc
  | advanceReport r k =>
    simp only [World.step, hpc]
    refine h.frame t.worker rfl (fun _ => rfl) rfl (fun w hw => update_of_ne hw ..) ?_ ?_
      <;> simp [World.throws, Pc.round, Pc.winning]

omit [DecidableEq ω] in
theorem slots_initial : Slots cfg (initial : World ω) := by
  refine ⟨?_, ?_, ?_, ?_, ?_, ?_, ?_, ?_, ?_, ?_⟩ <;>
    simp [initial, number, frozenSize, Pc.held]

omit [DecidableEq ω] in
theorem rounds_initial : Rounds (initial : World ω) := by
  refine ⟨?_, ?_, ?_, ?_, ?_, ?_, ?_, ?_, ?_, ?_⟩ <;> simp [initial, number, Pc.round, Pc.winning]

theorem Slots.run (h : Slots cfg s) (ticks : List (Tick ω)) : Slots cfg (s.run cfg ticks) := by
  induction ticks generalizing s with
  | nil => exact h
  | cons t rest ih => exact ih (h.step t)

theorem Rounds.run (h : Rounds s) (ticks : List (Tick ω)) : Rounds (s.run cfg ticks) := by
  induction ticks generalizing s with
  | nil => exact h
  | cons t rest ih => exact ih (h.step t)

/-- What is published stays, and later rounds follow it. -/
theorem published_step (t : Tick ω) : s.published <+: (s.step cfg t).published := by
  cases hpc : s.pc t.worker with
  | outside =>
    simp only [World.step, hpc]
    split_ifs
    · exact (s.leave_eq t.worker).2.2.2 ▸ prefix_refl _
    · exact prefix_refl _
    · exact prefix_refl _
  | barrier r k =>
    simp only [World.step, hpc, World.poll, World.afterBarrier]
    split_ifs <;> exact prefix_refl _
  | awaitSize r k =>
    simp only [World.step, hpc, World.readSize]
    split <;> split_ifs <;> exact prefix_refl _
  | checkClosed r k =>
    simp only [World.step, hpc]
    split_ifs <;> exact prefix_refl _
  | advanceSet r k =>
    simp only [World.step, hpc]
    exact prefix_append _ _
  | _ =>
    simp only [World.step, hpc]
    exact prefix_refl _

theorem published_run (ticks : List (Tick ω)) : s.published <+: (s.run cfg ticks).published := by
  induction ticks generalizing s with
  | nil => exact prefix_refl _
  | cons t rest ih => exact (published_step t).trans ih

end World

open World

/-- Every interleaving of any number of joins, with any timeouts, departures and
retries: the joins that returned for one round agree on a world size within the
limits and hold different ranks below it, and the round numbers that were
published go up, the last one being current. -/
theorem join_agrees {ω : Type} [DecidableEq ω] (cfg : RendezvousConfig)
    (ticks more : List (Tick ω)) :
    let s := (initial : World ω).run cfg ticks
    (∀ a ∈ s.results, ∀ b ∈ s.results, a.round = b.round → a.worldSize = b.worldSize) ∧
    (s.results.Pairwise fun a b => a.round = b.round → a.rank ≠ b.rank) ∧
    (∀ a ∈ s.results, 0 ≤ a.rank ∧ a.rank < a.worldSize ∧
      cfg.minWorkers ≤ a.worldSize ∧ a.worldSize ≤ cfg.maxWorkers) ∧
    s.published.Pairwise (· < ·) ∧ s.currentRound = s.published.getLastD 0 ∧
    s.published <+: (s.run cfg more).published ∧
    s.currentRound ≤ (s.run cfg more).currentRound := by
  intro s
  have hslots : Slots cfg s := slots_initial.run ticks
  have hrounds : Rounds s := rounds_initial.run ticks
  have hlater : Rounds (s.run cfg more) := hrounds.run more
  have hcur : s.currentRound = s.published.getLastD 0 := by
    rw [World.currentRound, max_eq_right hrounds.current, hrounds.latest]
  refine ⟨?_, ?_, ?_, hrounds.sorted, hcur, published_run more, ?_⟩
  · intro a ha b hb hab
    have hsize := (hslots.result_size a ha).1
    rw [hab, (hslots.result_size b hb).1] at hsize
    exact (Option.some.inj hsize).symm
  · exact hslots.result_apart.imp fun hne hround hrank => hne (Prod.ext hround hrank)
  · intro a ha
    obtain ⟨hsize, hlt⟩ := hslots.result_size a ha
    obtain ⟨-, hmin, hmax, -⟩ := hslots.frozen _ _ hsize
    exact ⟨(hslots.result_lt a ha).1, hlt, hmin, hmax⟩
  · rw [hcur]
    cases hlast : s.published.getLast? with
    | none =>
      rw [getLastD_eq_getLast?, hlast]
      exact le_max_left _ _
    | some r =>
      have hmem : r ∈ s.published := mem_of_getLast? hlast
      rw [getLastD_eq_getLast?, hlast]
      exact (hlater.published r ((published_run more).mem hmem)).2.trans (le_max_right _ _)

end Tenzor.Elastic
