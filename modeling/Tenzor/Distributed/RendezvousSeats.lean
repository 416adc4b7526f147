import Tenzor.Distributed.RendezvousAgreement
import Mathlib.Data.Fintype.Basic

/-!
# Slots that are counted and lost

A worker looks whether its round is closed after it has claimed a slot. The
coordinator may have counted that slot and published the world size in between:
then the worker throws and the group waits for a rank that left. As long as no
world size is published over an unchecked slot it counts, every counted slot
belongs to a worker that returns with it.
-/

namespace Tenzor.Elastic

open List

namespace Pc

/-- The slot of a worker that has not yet looked whether its round is closed. -/
def unchecked : Pc → Option (ℤ × ℤ)
  | .announce r k | .checkClosed r k => some (r, k)
  | _ => none

/-- The slot of a worker that is going to throw. -/
def failing : Pc → Option (ℤ × ℤ)
  | .drop r k | .guard r k | .advanceRead r k | .advanceSet r k | .advanceReport r k => some (r, k)
  | _ => none

/-- The first worker is about to publish a world size that counts the slot of
the second, which the second has not checked. -/
def overtakes (cfg : RendezvousConfig) : Pc → Pc → Bool
  | .freeze r _ n, .announce r' k | .freeze r _ n, .checkClosed r' k =>
    r' = r && k < min n cfg.maxWorkers
  | _, _ => false

theorem le_of_not_overtakes {cfg : RendezvousConfig} {p : Pc} {r j n k : ℤ}
    (h : overtakes cfg (.freeze r j n) p = false) (hp : p.unchecked = some (r, k)) :
    min n cfg.maxWorkers ≤ k := by
  have hlt : ¬ k < min n cfg.maxWorkers := by
    cases p <;> simp_all [unchecked, overtakes]
  exact Int.not_lt.mp hlt

end Pc

namespace World

variable {ω : Type} [DecidableEq ω] {s : World ω} {cfg : RendezvousConfig} {w : ω} {r k n : ℤ}

/-- No deadline expires, and no world size is published over an unchecked slot. -/
def Meets (cfg : RendezvousConfig) (s : World ω) (t : Tick ω) : Prop :=
  t.deadlineOver = false ∧ ∀ w, Pc.overtakes cfg (s.pc t.worker) (s.pc w) = false

instance [Fintype ω] (t : Tick ω) : Decidable (s.Meets cfg t) :=
  inferInstanceAs (Decidable (_ ∧ _))

def RunMeets (cfg : RendezvousConfig) : World ω → List (Tick ω) → Prop
  | _, [] => True
  | s, t :: rest => s.Meets cfg t ∧ RunMeets cfg (s.step cfg t) rest

/-- The join that claimed the slot has thrown, or is going to. -/
def Lost (s : World ω) (c : ℤ × ℤ) : Prop := c ∈ s.refused ∨ ∃ w, (s.pc w).failing = some c

def Owned (s : World ω) (r k : ℤ) : Prop :=
  (∃ w, (s.pc w).held = some (r, k)) ∨ (∃ a ∈ s.results, a.round = r ∧ a.rank = k) ∨ s.Lost (r, k)

/-- A worker that is failing as before, while the others stay, loses no slot. -/
theorem lost_congr {s s' : World ω} {w : ω} (hrefused : s'.refused = s.refused)
    (hpc : ∀ w', w' ≠ w → s'.pc w' = s.pc w') (hfailing : (s'.pc w).failing = (s.pc w).failing)
    (c : ℤ × ℤ) : s'.Lost c ↔ s.Lost c := by
  refine or_congr (by rw [hrefused]) (exists_congr fun w' => ?_)
  by_cases hww : w' = w
  · rw [hww, hfailing]
  · rw [hpc w' hww]

/-- What is true of counted slots between any two ticks that meet the condition. -/
structure Seats (s : World ω) : Prop where
  readable : ∀ r, (s.store (.worldSize r)).isSome → ∃ n, s.frozenSize r = some n
  counted : ∀ w r k n, s.pc w = .freeze r k n → n ≤ s.number (.slotCounter r)
  size_le : ∀ r n, s.frozenSize r = some n → n ≤ s.number (.slotCounter r)
  owned : ∀ r k, 0 ≤ k → k < s.number (.slotCounter r) → s.Owned r k
  checked : ∀ r n, s.frozenSize r = some n → ∀ w k, (s.pc w).unchecked = some (r, k) → n ≤ k
  late : ∀ r k, s.Lost (r, k) → ∃ n, s.frozenSize r = some n ∧ n ≤ k

/-- A tick that keeps the counters, the sizes and the results, and whose worker
keeps its slot or loses it too late. -/
theorem Seats.frame (h : Seats s) {s' : World ω} (w : ω)
    (hstore : ∀ r, s'.store (.worldSize r) = s.store (.worldSize r))
    (hcount : ∀ r, s'.number (.slotCounter r) = s.number (.slotCounter r))
    (hres : s'.results = s.results) (hpc : ∀ w', w' ≠ w → s'.pc w' = s.pc w')
    (hfreeze : ∀ r k n, s'.pc w = .freeze r k n → n ≤ s.number (.slotCounter r))
    (hkeep : ∀ r k, (s.pc w).held = some (r, k) →
      (s'.pc w).held = some (r, k) ∨ s'.Lost (r, k))
    (hunchecked : ∀ c, (s'.pc w).unchecked = some c → (s.pc w).unchecked = some c)
    (hlost : ∀ c, s.Lost c → s'.Lost c)
    (hlate : ∀ r k, s'.Lost (r, k) → s.Lost (r, k) ∨ ∃ n, s.frozenSize r = some n ∧ n ≤ k) :
    Seats s' := by
  have hsize : ∀ r, s'.frozenSize r = s.frozenSize r := by
    intro r
    simp only [frozenSize, hstore]
  refine ⟨?_, ?_, ?_, ?_, ?_, ?_⟩
  · intro r hr
    rw [hstore] at hr
    rw [hsize]
    exact h.readable r hr
  · intro w' r k n hf
    rw [hcount]
    by_cases hw : w' = w
    · subst hw
      exact hfreeze r k n hf
    · rw [hpc w' hw] at hf
      exact h.counted w' r k n hf
  · intro r n hn
    rw [hsize] at hn
    rw [hcount]
    exact h.size_le r n hn
  · intro r k hk hlt
    rw [hcount] at hlt
    obtain ⟨w', hw'⟩ | hret | hl := h.owned r k hk hlt
    · by_cases hw : w' = w
      · subst hw
        exact (hkeep r k hw').imp (fun hh => ⟨w', hh⟩) .inr
      · exact .inl ⟨w', by rwa [hpc w' hw]⟩
    · exact .inr (.inl (by rwa [hres]))
    · exact .inr (.inr (hlost _ hl))
  · intro r n hn w' k hk
    rw [hsize] at hn
    by_cases hw : w' = w
    · subst hw
      exact h.checked r n hn w' k (hunchecked _ hk)
    · rw [hpc w' hw] at hk
      exact h.checked r n hn w' k hk
  · intro r k hl
    rw [hsize]
    obtain hold | hnew := hlate r k hl
    · exact h.late r k hold
    · exact hnew

/-- The worker moves on to `p` and loses no slot. -/
theorem Seats.goto (h : Seats s) {s₁ : World ω} {p : Pc}
    (hstore : ∀ r, s₁.store (.worldSize r) = s.store (.worldSize r))
    (hcount : ∀ r, s₁.number (.slotCounter r) = s.number (.slotCounter r))
    (hres : s₁.results = s.results) (hpc : s₁.pc = s.pc) (hrefused : s₁.refused = s.refused)
    (hfreeze : ∀ r k n, p = .freeze r k n → n ≤ s.number (.slotCounter r))
    (hheld : ∀ c, (s.pc w).held = some c → p.held = some c)
    (hunchecked : ∀ c, p.unchecked = some c → (s.pc w).unchecked = some c)
    (hfailing : p.failing = (s.pc w).failing) : Seats (s₁.goto w p) := by
  have hself := s₁.goto_pc_self w p
  have hlost : ∀ c, (s₁.goto w p).Lost c ↔ s.Lost c :=
    lost_congr hrefused (fun w' hw => by rw [goto_pc_ne s₁ hw, hpc]) (by rw [hself, hfailing])
  refine h.frame w hstore hcount hres ?_ ?_ ?_ ?_ (fun c => (hlost c).mpr)
    fun r k hl => .inl ((hlost _).mp hl)
  · intro w' hw
    rw [goto_pc_ne s₁ hw, hpc]
  · rwa [hself]
  · intro r k hk
    rw [hself]
    exact .inl (hheld _ hk)
  · rwa [hself]

/-- The worker starts to fail: its round is closed and its slot not counted. -/
theorem Seats.fail (h : Seats s) (hw : (s.pc w).held = some (r, k))
    (hsize : s.frozenSize r = some n) (hle : n ≤ k) : Seats (s.goto w (.drop r k)) := by
  have hself := s.goto_pc_self w (.drop r k)
  have hnone : (s.pc w).failing = none := by
    cases hp : s.pc w <;> simp_all [Pc.held, Pc.failing]
  have hnew : (s.goto w (.drop r k)).Lost (r, k) := .inr ⟨w, by rw [hself]; rfl⟩
  refine h.frame w (fun _ => rfl) (fun _ => rfl) rfl (fun w' hw' => goto_pc_ne s hw' _) ?_ ?_ ?_ ?_
    ?_
  · simp
  · intro r' k' hk'
    obtain ⟨rfl, rfl⟩ := Prod.mk.inj (Option.some.inj (hw.symm.trans hk'))
    exact .inr hnew
  · simp [Pc.unchecked]
  · rintro c (hc | ⟨w', hw'⟩)
    · exact .inl hc
    · have hne : w' ≠ w := by
        rintro rfl
        simp [hnone] at hw'
      exact .inr ⟨w', by rwa [goto_pc_ne s hne]⟩
  · rintro r' k' (hc | ⟨w', hw'⟩)
    · exact .inl (.inl hc)
    · by_cases hww : w' = w
      · subst hww
        rw [hself] at hw'
        obtain ⟨rfl, rfl⟩ := Prod.mk.inj (Option.some.inj hw')
        exact .inr ⟨n, hsize, hle⟩
      · rw [goto_pc_ne s hww] at hw'
        exact .inl (.inr ⟨w', hw'⟩)

theorem Seats.claim (h : Seats s) (hw : s.pc w = .claim r) :
    Seats ((s.increment (.slotCounter r)).goto w (.announce r (s.number (.slotCounter r)))) := by
  have hself := (s.increment (.slotCounter r)).goto_pc_self w
    (.announce r (s.number (.slotCounter r)))
  have hcount : ∀ r', s.number (.slotCounter r') ≤
      (s.increment (.slotCounter r)).number (.slotCounter r') := by
    intro r'
    by_cases hr : r' = r
    · subst hr
      exact (Int.le_add_one (Int.le_refl _)).trans_eq (number_set_self s _ _).symm
    · exact (number_set_ne s (k := .slotCounter r) (by simpa using hr) _).ge
  have hsize : ∀ r', (s.increment (.slotCounter r)).frozenSize r' = s.frozenSize r' :=
    s.frozenSize_increment r
  have hlost : ∀ c, ((s.increment (.slotCounter r)).goto w
      (.announce r (s.number (.slotCounter r)))).Lost c ↔ s.Lost c :=
    lost_congr rfl (fun _ hww => goto_pc_ne _ hww _) (by rw [hself, hw]; rfl)
  refine ⟨?_, ?_, ?_, ?_, ?_, ?_⟩
  · intro r' hr'
    have hstore := set_store_ne s (show Key.worldSize r' ≠ .slotCounter r by simp)
      (.number (s.number (.slotCounter r) + 1))
    exact h.readable r' ((congrArg Option.isSome hstore).symm.trans hr')
  · intro w' r' k n hf
    refine le_trans ?_ (hcount r')
    by_cases hww : w' = w
    · subst hww
      simp at hf
    · rw [goto_pc_ne _ hww] at hf
      exact h.counted w' r' k n hf
  · intro r' n hn
    exact (h.size_le r' n hn).trans (hcount r')
  · intro r' k hk hlt
    rw [goto_number] at hlt
    by_cases hlast : k < s.number (.slotCounter r')
    · obtain ⟨w', hw'⟩ | hret | hl := h.owned r' k hk hlast
      · have hne : w' ≠ w := by
          rintro rfl
          simp [hw, Pc.held] at hw'
        exact .inl ⟨w', by rwa [goto_pc_ne _ hne]⟩
      · exact .inr (.inl hret)
      · exact .inr (.inr ((hlost _).mpr hl))
    · -- The slot that was just claimed.
      have hr : r' = r := by
        by_contra hr
        exact hlast (hlt.trans_eq (number_set_ne s (k := .slotCounter r) (by simpa using hr) _))
      subst hr
      rw [World.increment, number_set_self] at hlt
      obtain rfl : k = s.number (.slotCounter r') := by omega
      exact .inl ⟨w, by rw [hself]; rfl⟩
  · intro r' n hn w' k hk
    by_cases hww : w' = w
    · subst hww
      rw [hself] at hk
      obtain ⟨rfl, rfl⟩ := Prod.mk.inj (Option.some.inj hk)
      exact h.size_le r n hn
    · rw [goto_pc_ne _ hww] at hk
      exact h.checked r' n hn w' k hk
  · intro r' k hl
    exact h.late r' k ((hlost _).mp hl)

/-- The world size is published while no counted slot is unchecked. -/
theorem Seats.freeze (h : Seats s) (hw : s.pc w = .freeze r k n) (hunset : s.frozenSize r = none)
    (hover : ∀ w', Pc.overtakes cfg (.freeze r k n) (s.pc w') = false) :
    Seats ((s.set (.worldSize r) (.number (min n cfg.maxWorkers))).goto w (.awaitSize r k)) := by
  have hself := (s.set (.worldSize r) (.number (min n cfg.maxWorkers))).goto_pc_self w
    (.awaitSize r k)
  have hcount : ∀ r', (s.set (.worldSize r) (.number (min n cfg.maxWorkers))).number
      (.slotCounter r') = s.number (.slotCounter r') := fun r' => number_set_ne s (by simp) _
  have hsize : ∀ r' m, (s.set (.worldSize r) (.number (min n cfg.maxWorkers))).frozenSize r' =
      some m → (r' = r ∧ m = min n cfg.maxWorkers) ∨ (r' ≠ r ∧ s.frozenSize r' = some m) := by
    intro r' m hm
    by_cases hr : r' = r
    · subst hr
      exact .inl ⟨rfl, (Option.some.inj ((frozenSize_set_self s _ _).symm.trans hm)).symm⟩
    · refine .inr ⟨hr, ?_⟩
      rw [← hm]
      exact (frozenSize_set_ne s (by simpa using hr) _).symm
  have hother : ∀ r', r' ≠ r → (s.set (.worldSize r)
      (.number (min n cfg.maxWorkers))).frozenSize r' = s.frozenSize r' :=
    fun r' hr => frozenSize_set_ne s (by simpa using hr) _
  have hlost : ∀ c, ((s.set (.worldSize r) (.number (min n cfg.maxWorkers))).goto w
      (.awaitSize r k)).Lost c ↔ s.Lost c :=
    lost_congr rfl (fun _ hww => goto_pc_ne _ hww _) (by rw [hself, hw]; rfl)
  refine ⟨?_, ?_, ?_, ?_, ?_, ?_⟩
  · intro r' hr'
    rw [goto_frozenSize]
    by_cases hr : r' = r
    · subst hr
      exact ⟨_, frozenSize_set_self s _ _⟩
    · rw [hother r' hr]
      have hstore := set_store_ne s (show Key.worldSize r' ≠ .worldSize r by simpa using hr)
        (.number (min n cfg.maxWorkers))
      exact h.readable r' ((congrArg Option.isSome hstore).symm.trans hr')
  · intro w' r' k' n' hf
    by_cases hww : w' = w
    · subst hww
      simp at hf
    · rw [goto_pc_ne _ hww] at hf
      exact h.counted w' r' k' n' hf
  · intro r' m hm
    obtain ⟨rfl, rfl⟩ | ⟨-, hold⟩ := hsize r' m hm
    · exact (min_le_left _ _).trans (h.counted w r' k n hw)
    · exact h.size_le r' m hold
  · intro r' k' hk' hlt
    obtain ⟨w', hw'⟩ | hret | hl := h.owned r' k' hk' hlt
    · refine .inl ⟨w', ?_⟩
      by_cases hww : w' = w
      · subst hww
        rw [hself]
        rwa [hw] at hw'
      · rwa [goto_pc_ne _ hww]
    · exact .inr (.inl hret)
    · exact .inr (.inr ((hlost _).mpr hl))
  · intro r' m hm w' k' hk'
    have hww : w' ≠ w := by
      rintro rfl
      simp [Pc.unchecked] at hk'
    rw [goto_pc_ne _ hww] at hk'
    obtain ⟨rfl, rfl⟩ | ⟨-, hold⟩ := hsize r' m hm
    · exact Pc.le_of_not_overtakes (hover w') hk'
    · exact h.checked r' m hold w' k' hk'
  · intro r' k' hl
    obtain ⟨m, hm, hle⟩ := h.late r' k' ((hlost _).mp hl)
    have hr : r' ≠ r := by
      rintro rfl
      simp [hunset] at hm
    exact ⟨m, (hother r' hr).trans hm, hle⟩

theorem Seats.returns (h : Seats s) {w : ω} {r k n : ℤ} (hw : s.pc w = .awaitSize r k) :
    Seats (s.returns w r k n) := by
  have hself : (s.returns w r k n).pc w = .outside := Function.update_self ..
  have hne : ∀ w', w' ≠ w → (s.returns w r k n).pc w' = s.pc w' :=
    fun w' hww => Function.update_of_ne hww ..
  have hlost : ∀ c, (s.returns w r k n).Lost c ↔ s.Lost c :=
    lost_congr rfl hne (by rw [hself, hw]; rfl)
  refine ⟨h.readable, ?_, h.size_le, ?_, ?_, ?_⟩
  · intro w' r' k' n' hf
    by_cases hww : w' = w
    · subst hww
      simp [hself] at hf
    · rw [hne w' hww] at hf
      exact h.counted w' r' k' n' hf
  · intro r' k' hk' hlt
    obtain ⟨w', hw'⟩ | ⟨a, ha, har⟩ | hl := h.owned r' k' hk' hlt
    · by_cases hww : w' = w
      · subst hww
        rw [hw] at hw'
        obtain ⟨rfl, rfl⟩ := Prod.mk.inj (Option.some.inj hw')
        exact .inr (.inl ⟨⟨r, k, n, w'⟩, mem_append_right _ mem_cons_self, rfl, rfl⟩)
      · exact .inl ⟨w', by rwa [hne w' hww]⟩
    · exact .inr (.inl ⟨a, mem_append_left _ ha, har⟩)
    · exact .inr (.inr ((hlost _).mpr hl))
  · intro r' m hm w' k' hk'
    by_cases hww : w' = w
    · subst hww
      simp [hself, Pc.unchecked] at hk'
    · rw [hne w' hww] at hk'
      exact h.checked r' m hm w' k' hk'
  · exact fun r' k' hl => h.late r' k' ((hlost _).mp hl)

/-- The join throws at last. -/
theorem Seats.throws (h : Seats s) (hw : s.pc w = .advanceReport r k) : Seats (s.throws w r k) := by
  have hself : (s.throws w r k).pc w = .outside := Function.update_self ..
  have hne : ∀ w', w' ≠ w → (s.throws w r k).pc w' = s.pc w' :=
    fun w' hww => Function.update_of_ne hww ..
  have hfailing : (s.pc w).failing = some (r, k) := by rw [hw]; rfl
  refine h.frame w (fun _ => rfl) (fun _ => rfl) rfl hne ?_ ?_ ?_ ?_ ?_
  · simp [hself]
  · simp [hw, Pc.held]
  · simp [hself, Pc.unchecked]
  · rintro c (hc | ⟨w', hw'⟩)
    · exact .inl (mem_append_left _ hc)
    · by_cases hww : w' = w
      · subst hww
        rw [hfailing] at hw'
        exact .inl (mem_append_right _ (by simpa using hw'.symm))
      · exact .inr ⟨w', by rwa [hne w' hww]⟩
  · rintro r' k' (hc | ⟨w', hw'⟩)
    · refine .inl ?_
      obtain hc | hc := mem_append.mp hc
      · exact .inl hc
      · rw [mem_singleton.mp hc]
        exact .inr ⟨w, hfailing⟩
    · by_cases hww : w' = w
      · subst hww
        simp [hself, Pc.failing] at hw'
      · rw [hne w' hww] at hw'
        exact .inl (.inr ⟨w', hw'⟩)

theorem Seats.poll (h : Seats s) {t : Tick ω} (hw : s.pc t.worker = .barrier r k)
    (hdeadline : t.deadlineOver = false) : Seats (s.poll cfg t r k) := by
  have hbarrier : ∀ n, n = s.number (.slotCounter r) → Seats (s.afterBarrier t.worker r k n) := by
    rintro n rfl
    unfold World.afterBarrier
    split_ifs
    · refine h.goto (fun _ => rfl) (fun _ => rfl) rfl rfl rfl ?_ (by simp [hw, Pc.held])
        (by simp [Pc.unchecked]) (by rw [hw]; rfl)
      intro r' k' n' hf
      obtain ⟨rfl, -, rfl⟩ := Pc.freeze.inj hf
      exact Int.le_refl _
    · exact h.goto (fun _ => rfl) (fun _ => rfl) rfl rfl rfl (by simp) (by simp [hw, Pc.held])
        (by simp [Pc.unchecked]) (by rw [hw]; rfl)
  unfold World.poll
  simp only [hdeadline, Bool.false_eq_true, if_false]
  split_ifs
  · exact hbarrier _ rfl
  · exact hbarrier _ rfl
  · exact h

theorem Seats.step (h : Seats s) (hslots : Slots cfg s) {t : Tick ω} (hmeets : s.Meets cfg t) :
    Seats (s.step cfg t) := by
  obtain ⟨hdeadline, hover⟩ := hmeets
  cases hpc : s.pc t.worker with
  | outside =>
    simp only [World.step, hpc]
    split_ifs
    · obtain ⟨hpcs, hres, hrefused, -⟩ := s.leave_eq t.worker
      have hlost : ∀ c, (s.leave t.worker).Lost c ↔ s.Lost c := by
        intro c
        rw [World.Lost, World.Lost, hrefused, hpcs]
      refine h.frame t.worker (leave_worldSize s _) (fun _ => number_leave s (by simp) _) hres
        (fun _ _ => by rw [hpcs]) ?_ ?_ ?_ (fun c => (hlost c).mpr)
        fun r k hl => .inl ((hlost _).mp hl)
      · simp [hpcs, hpc]
      · simp [hpc, Pc.held]
      · simp [hpcs]
    · exact h.goto (fun _ => rfl) (fun _ => rfl) rfl rfl rfl (by simp) (by simp [hpc, Pc.held])
        (by simp [Pc.unchecked]) (by rw [hpc]; rfl)
    · exact h
  | claim r =>
    simp only [World.step, hpc]
    exact h.claim hpc
  | announce r k =>
    simp only [World.step, hpc]
    exact h.goto (fun _ => set_store_ne s (by simp) _) (fun _ => number_set_ne s (by simp) _) rfl
      rfl rfl (by simp) (by simp [hpc, Pc.held]) (by simp [hpc, Pc.unchecked]) (by rw [hpc]; rfl)
  | checkClosed r k =>
    simp only [World.step, hpc]
    split_ifs with hclosed
    · -- The slot was claimed after the round had closed.
      obtain ⟨n, hn⟩ := h.readable r hclosed
      exact h.fail (by rw [hpc]; rfl) hn (h.checked r n hn t.worker k (by rw [hpc]; rfl))
    · exact h.goto (fun _ => rfl) (fun _ => rfl) rfl rfl rfl (by simp) (by simp [hpc, Pc.held])
        (by simp [Pc.unchecked]) (by rw [hpc]; rfl)
  | barrier r k =>
    simp only [World.step, hpc]
    exact h.poll hpc hdeadline
  | freeze r k n =>
    simp only [World.step, hpc]
    rw [hpc] at hover
    exact h.freeze hpc (hslots.unset hpc) hover
  | awaitSize r k =>
    simp only [World.step, hpc, World.readSize, hdeadline]
    split
    · rename_i n hn
      split_ifs with hlt
      · exact h.returns hpc
      · exact h.fail (by rw [hpc]; rfl) hn (Int.not_lt.mp hlt)
    · exact h
  | drop r k =>
    simp only [World.step, hpc]
    exact h.goto (fun _ => delete_store_ne s (by simp)) (fun _ => number_delete_ne s (by simp)) rfl
      rfl rfl (by simp) (by simp [hpc, Pc.held]) (by simp [Pc.unchecked]) (by rw [hpc]; rfl)
  | guard r k =>
    simp only [World.step, hpc]
    refine h.goto (fun _ => set_store_ne s (by simp) _) (fun _ => number_set_ne s (by simp) _) rfl
      rfl rfl ?_ (by simp [hpc, Pc.held]) ?_ ?_
    · split_ifs <;> simp
    · split_ifs <;> simp [Pc.unchecked]
    · split_ifs <;> rw [hpc] <;> rfl
  | advanceRead r k =>
    simp only [World.step, hpc]
    refine h.goto (fun _ => rfl) (fun _ => rfl) rfl rfl rfl ?_ (by simp [hpc, Pc.held]) ?_ ?_
    · split_ifs <;> simp
    · split_ifs <;> simp [Pc.unchecked]
    · split_ifs <;> rw [hpc] <;> rfl
  | advanceSet r k =>
    simp only [World.step, hpc]
    have hgoto : Seats ((s.set .currentRound (.number (r + 1))).goto t.worker
        (.advanceReport r k)) :=
      h.goto (fun _ => set_store_ne s (by simp) _) (fun _ => number_set_ne s (by simp) _) rfl rfl
        rfl (by simp) (by simp [hpc, Pc.held]) (by simp [Pc.unchecked]) (by rw [hpc]; rfl)
    exact ⟨hgoto.readable, hgoto.counted, hgoto.size_le, hgoto.owned, hgoto.checked, hgoto.late⟩
  | advanceReport r k =>
    simp only [World.step, hpc]
    exact h.throws hpc

omit [DecidableEq ω] in
theorem seats_initial : Seats (initial : World ω) := by
  refine ⟨?_, ?_, ?_, ?_, ?_, ?_⟩ <;>
    simp [initial, number, frozenSize, Pc.unchecked, Lost, Pc.failing]
  intro r k hk hlt
  omega

theorem Seats.run (h : Seats s) (hslots : Slots cfg s) {ticks : List (Tick ω)}
    (hmeets : RunMeets cfg s ticks) : Seats (s.run cfg ticks) := by
  induction ticks generalizing s with
  | nil => exact h
  | cons t rest ih => exact ih (h.step hslots hmeets.1) (hslots.step t) hmeets.2

/-- A worker behind its check returns by its own ticks once its round is frozen
above its slot. -/
theorem returns_alone (hslots : Slots cfg s) (hseats : Seats s) (hw : (s.pc w).held = some (r, k))
    (hn : s.frozenSize r = some n) (hk : k < n) :
    ∃ more : List (Tick ω), (∀ t ∈ more, t.worker = w ∧ t.deadlineOver = false) ∧
      ⟨r, k, n, w⟩ ∈ (s.run cfg more).results := by
  have hlast : ∀ s' : World ω, s'.pc w = .awaitSize r k → s'.frozenSize r = some n →
      ⟨r, k, n, w⟩ ∈ (s'.step cfg { worker := w }).results := by
    intro s' hpc hsize
    simp only [World.step, hpc, World.readSize, hsize, if_pos hk, World.returns]
    exact mem_append_right _ mem_cons_self
  cases hpc : s.pc w with
  | awaitSize r' k' =>
    obtain ⟨rfl, rfl⟩ : r' = r ∧ k' = k := by simpa [hpc, Pc.held] using hw
    refine ⟨[{ worker := w }], by simp, hlast s hpc hn⟩
  | barrier r' k' =>
    obtain ⟨rfl, rfl⟩ : r' = r ∧ k' = k := by simpa [hpc, Pc.held] using hw
    obtain ⟨-, hmin, -, hnone⟩ := hslots.frozen r' n hn
    have hcount : cfg.minWorkers ≤ s.number (.slotCounter r') :=
      hmin.trans (hseats.size_le r' n hn)
    have hzero : k' ≠ 0 := by
      rintro rfl
      exact hnone w (by rw [hpc]; rfl)
    have hstep : s.step cfg { worker := w, graceOver := true } = s.goto w (.awaitSize r' k') := by
      simp [World.step, hpc, World.poll, World.afterBarrier, hcount, hzero]
    refine ⟨[{ worker := w, graceOver := true }, { worker := w }], by simp, ?_⟩
    rw [World.run, foldl_cons, hstep]
    exact hlast _ (goto_pc_self _ _ _) hn
  | announce r' k' =>
    obtain ⟨rfl, rfl⟩ : r' = r ∧ k' = k := by simpa [hpc, Pc.held] using hw
    exact absurd (hseats.checked r' n hn w k' (by rw [hpc]; rfl)) (Int.not_le.mpr hk)
  | checkClosed r' k' =>
    obtain ⟨rfl, rfl⟩ : r' = r ∧ k' = k := by simpa [hpc, Pc.held] using hw
    exact absurd (hseats.checked r' n hn w k' (by rw [hpc]; rfl)) (Int.not_le.mpr hk)
  | freeze r' k' m =>
    obtain ⟨rfl, rfl⟩ : r' = r ∧ k' = k := by simpa [hpc, Pc.held] using hw
    simp [hslots.unset hpc] at hn
  | _ => simp [hpc, Pc.held] at hw

end World

open World

/-- In every run in which no deadline expires and no world size is published
over an unchecked slot it counts: a join whose slot is below the published size
of its round never throws, and each such slot is returned as a rank, or its
worker returns it by its own next ticks. -/
theorem counted_slots_return {ω : Type} [DecidableEq ω] (cfg : RendezvousConfig)
    (ticks : List (Tick ω)) (hmeets : RunMeets cfg initial ticks) :
    let s := (initial : World ω).run cfg ticks
    (∀ a ∈ s.results, s.frozenSize a.round = some a.worldSize) ∧
    ∀ r n, s.frozenSize r = some n →
      (∀ k, (r, k) ∈ s.refused → n ≤ k) ∧
      ∀ k, 0 ≤ k → k < n →
        (∃ a ∈ s.results, a.round = r ∧ a.rank = k ∧ a.worldSize = n) ∨
        ∃ w, ∃ more : List (Tick ω), (∀ t ∈ more, t.worker = w ∧ t.deadlineOver = false) ∧
          ⟨r, k, n, w⟩ ∈ (s.run cfg more).results := by
  intro s
  have hslots : Slots cfg s := slots_initial.run ticks
  have hseats : Seats s := seats_initial.run slots_initial hmeets
  refine ⟨fun a ha => (hslots.result_size a ha).1, fun r n hn => ⟨?_, ?_⟩⟩
  · intro k hk
    obtain ⟨m, hm, hle⟩ := hseats.late r k (Or.inl hk)
    obtain rfl := Option.some.inj (hn.symm.trans hm)
    exact hle
  · intro k hk hlt
    obtain ⟨w, hw⟩ | ⟨a, ha, rfl, rfl⟩ | hl := hseats.owned r k hk
      (hlt.trans_le (hseats.size_le r n hn))
    · exact Or.inr ⟨w, returns_alone hslots hseats hw hn hlt⟩
    · refine Or.inl ⟨a, ha, rfl, rfl, ?_⟩
      exact Option.some.inj ((hslots.result_size a ha).1.symm.trans hn)
    · obtain ⟨m, hm, hle⟩ := hseats.late r k hl
      obtain rfl := Option.some.inj (hn.symm.trans hm)
      exact absurd hlt (Int.not_lt.mpr hle)

/-- One tick of each worker in turn. -/
def turns (ws : List Bool) : List (Tick Bool) := ws.map fun w => { worker := w }

/-- Both workers check before the coordinator publishes. -/
theorem counted_slots_return_pair :
    let ticks := turns [false, false, true, true, false, false, true, true, false, false, false]
    let s := (initial : World Bool).run ⟨2, 2⟩ ticks
    (∀ a ∈ s.results, s.frozenSize a.round = some a.worldSize) ∧
    ∀ r n, s.frozenSize r = some n →
      (∀ k, (r, k) ∈ s.refused → n ≤ k) ∧
      ∀ k, 0 ≤ k → k < n →
        (∃ a ∈ s.results, a.round = r ∧ a.rank = k ∧ a.worldSize = n) ∨
        ∃ w, ∃ more : List (Tick Bool), (∀ t ∈ more, t.worker = w ∧ t.deadlineOver = false) ∧
          ⟨r, k, n, w⟩ ∈ (s.run ⟨2, 2⟩ more).results :=
  counted_slots_return ⟨2, 2⟩ _ (by unfold turns; simp only [List.map, RunMeets]; decide +kernel)

/-- The coordinator publishes a world of two while the second worker stands
between its claim and its check: the coordinator returns, the second throws. -/
theorem counted_slot_throws :
    let ticks := turns [false, false, true, true, false, false, false, false, false,
      true, true, true, true, true, true, true]
    let s := (initial : World Bool).run ⟨2, 2⟩ ticks
    (∀ t ∈ ticks, t.deadlineOver = false) ∧ s.results = [⟨0, 0, 2, false⟩] ∧
      s.refused = [(0, 1)] := by
  decide +kernel

end Tenzor.Elastic
