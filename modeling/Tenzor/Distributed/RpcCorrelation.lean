import Tenzor.Distributed.RpcAgents

/-!
# Responses reach their own calls

Everything one step can do to each part of the state is said once. Then a request number belongs
to one call, a promise in the table is the promise of the call with its number, and whatever
completes a promise was produced for the request of that call or by a shutdown of its agent.

## Implementation notes

The recorded `set_value`s and responses are proof-only: no step reads them except to return the
value of a promise.
-/

namespace Tenzor.Rpc

open Agents List
open Function (update update_apply update_of_ne update_self)

variable {W C D R : Type}

namespace Stage

variable {a b : Stage R}

def IsUnnumbered : Stage R → Prop
  | idle | checked => True
  | _ => False

/-- The promise has not been put in the table. -/
def IsEarly : Stage R → Prop
  | idle | checked | numbered => True
  | _ => False

/-- The promise may be in the table. -/
def MayWait : Stage R → Prop
  | registered | failed | executing | responding _ | waiting | timedOut => True
  | _ => False

/-- What one step does to the stage of a call. -/
inductive Follows : Stage R → Stage R → Prop
  | refuse : Follows idle threw
  | check : Follows idle checked
  | number : Follows checked numbered
  | register : Follows numbered registered
  | go {a b : Stage R} (ha : a.MayWait) (hb : b.MayWait) : Follows a b
  | finish {a : Stage R} (o : Outcome R) (ha : a.MayWait) : Follows a (returned o)
  | throw {a : Stage R} (ha : a.MayWait) : Follows a threw

theorem MayWait.not_isUnnumbered (h : a.MayWait) : ¬a.IsUnnumbered := by
  cases a <;> simp_all [IsUnnumbered, MayWait]

theorem MayWait.not_isEarly (h : a.MayWait) : ¬a.IsEarly := by
  cases a <;> simp_all [IsEarly, MayWait]

theorem Follows.isUnnumbered (h : Follows a b) (hb : b.IsUnnumbered) : a.IsUnnumbered := by
  cases h with
  | refuse | check => trivial
  | go _ hb' => exact absurd hb hb'.not_isUnnumbered
  | number | register | finish | throw => exact hb.elim

/-- A call does not come back to the stages before the table. -/
theorem Follows.isEarly (h : Follows a b) (hb : b.IsEarly) : a.IsEarly := by
  cases h with
  | refuse | check | number | register => trivial
  | go _ hb' => exact absurd hb hb'.not_isEarly
  | finish | throw => exact hb.elim

end Stage

variable [DecidableEq W] {c : C} {id : ℕ}

theorem Agents.pending_setPending (s : Agents W C D R) (w w' : W) (id id' : ℕ) (entry : Option C) :
    (s.setPending w' id' entry).pending w id =
      if w = w' ∧ id = id' then entry else s.pending w id := by
  by_cases hw : w = w'
  · subst hw
    by_cases hid : id = id' <;> simp [setPending, hid]
  · simp [setPending, hw]

variable [DecidableEq C] {calls : Calls W C D} {s t : Agents W C D R}

namespace Step

variable {c : C} {w : W}

theorem stage_cases (h : Step calls s t) :
    t.stage = s.stage ∨ ∃ c x, (s.stage c).Follows x ∧ t.stage = update s.stage c x := by
  cases h with
  | receiveRequest | respond | giveUp | receiveResponse | stop | abort => exact .inl rfl
  | refuse c hc => exact .inr ⟨c, _, hc ▸ .refuse, rfl⟩
  | check c hc => exact .inr ⟨c, _, hc ▸ .check, rfl⟩
  | number c hc => exact .inr ⟨c, _, hc ▸ .number, rfl⟩
  | register c id hc => exact .inr ⟨c, _, hc ▸ .register, rfl⟩
  | transmit c id hc | fail c hc | dispatch c hc | ignore c hc | handle c id r hc
  | deliver c id r hc | timeout c hc =>
    refine .inr ⟨c, _, .go (by rw [hc]; trivial) ?_, rfl⟩
    trivial
  | erase c id hc =>
    refine .inr ⟨c, _, .throw ?_, rfl⟩
    rcases hc with hc | hc <;> rw [hc] <;> trivial
  | finish c o hc => exact .inr ⟨c, _, .finish o (by rw [hc]; trivial), rfl⟩

theorem isUnnumbered (h : Step calls s t) (hc : (t.stage c).IsUnnumbered) :
    (s.stage c).IsUnnumbered := by
  rcases h.stage_cases with ht | ⟨d, x, hx, ht⟩
  · exact ht ▸ hc
  · by_cases hd : c = d
    · subst hd
      exact hx.isUnnumbered (by simpa [ht] using hc)
    · simpa [ht, hd] using hc

theorem isEarly (h : Step calls s t) (hc : (t.stage c).IsEarly) : (s.stage c).IsEarly := by
  rcases h.stage_cases with ht | ⟨d, x, hx, ht⟩
  · exact ht ▸ hc
  · by_cases hd : c = d
    · subst hd
      exact hx.isEarly (by simpa [ht] using hc)
    · simpa [ht, hd] using hc

/-- A request takes the next number of its agent. -/
theorem requestId_cases (h : Step calls s t) :
    (t.requestId = s.requestId ∧ t.nextRequestId = s.nextRequestId) ∨
      ∃ c, s.stage c = .checked ∧ t.stage c = .numbered ∧
        t.requestId = update s.requestId c (some (s.nextRequestId (calls.owner c))) ∧
        t.nextRequestId = update s.nextRequestId (calls.owner c)
          (s.nextRequestId (calls.owner c) + 1) := by
  cases h with
  | number c hc => exact .inr ⟨c, hc, update_self .., rfl, rfl⟩
  | _ => exact .inl ⟨rfl, rfl⟩

/-- Only `send` puts a promise in the table. -/
theorem pending_cases (h : Step calls s t) {id : ℕ} (hp : t.pending w id = some c) :
    s.pending w id = some c ∨ s.stage c = .numbered ∧ t.stage c = .registered ∧
      calls.owner c = w ∧ s.requestId c = some id := by
  cases h with
  | register d id' hd hid =>
    rw [pending_setPending] at hp
    split at hp
    · next hn =>
      obtain ⟨rfl, rfl⟩ := hn
      cases hp
      exact .inr ⟨hd, update_self .., rfl, hid⟩
    · exact .inl hp
  | deliver | erase | receiveResponse =>
    simp only [complete, pending_setPending] at hp
    split at hp
    · cases hp
    · exact .inl hp
  | abort w' =>
    simp only [Agents.abort, update_apply] at hp
    split at hp
    · cases hp
    · exact .inl hp
  | _ => exact .inl hp

/-- A promise leaves the table when it is completed, with a response that has arrived or was
returned in process, or by the shutdown of its agent. -/
theorem settings_cases (h : Step calls s t) (c : C) :
    t.settings c = s.settings c ∨ ∃ w id o, s.pending w id = some c ∧ t.pending w id = none ∧
      t.settings c = s.settings c ++ [o] ∧
      match o with
      | .agentShutdown => s.running w = false
      | .response r => .response w id r ∈ s.inFlight ∨
          ∃ d, s.stage d = .responding r ∧ calls.owner d = w ∧ s.requestId d = some id := by
  cases h with
  | deliver d id r hd hid =>
    cases hp : s.pending (calls.owner d) id with
    | none => simp [complete, goto, hp]
    | some e =>
      by_cases he : c = e
      · subst he
        refine .inr ⟨_, id, .response r, hp, ?_, ?_, .inr ⟨d, hd, rfl, hid⟩⟩
        · simp [complete, pending_setPending]
        · simp [complete, goto, hp]
      · simp [complete, goto, hp, he]
  | receiveResponse w id r before after hf =>
    cases hp : s.pending w id with
    | none => simp [complete, hp]
    | some e =>
      by_cases he : c = e
      · subst he
        refine .inr ⟨_, id, .response r, hp, ?_, ?_, .inl (by simp [hf])⟩
        · simp [complete, pending_setPending]
        · simp [complete, hp]
      · simp [complete, hp, he]
  | abort w waiting hr hw =>
    by_cases hc : waiting c
    · obtain ⟨id, hp⟩ := (hw c).mp hc
      exact .inr ⟨w, id, .agentShutdown, hp, by simp [Agents.abort], if_pos hc, hr⟩
    · exact .inl (if_neg hc)
  | _ => exact .inl rfl

theorem produced (h : Step calls s t) : s.produced ⊆ t.produced := by
  cases h with
  | handle | respond => exact subset_cons_self ..
  | _ => exact fun _ hx => hx

theorem running (h : Step calls s t) (hw : s.running w = false) : t.running w = false := by
  cases h with
  | stop w' => by_cases hww : w = w' <;> simp [hww, hw]
  | _ => exact hw

/-- A request is sent once by its call, and a response by whoever produced it. -/
theorem inFlight_cases (h : Step calls s t) {f : Frame W D R} (hf : f ∈ t.inFlight) :
    f ∈ s.inFlight ∨ (∃ c id, s.requestId c = some id ∧ f = .request (calls.request c id)) ∨
      ∃ q r, q ∈ s.executions ∧ (q, r) ∈ t.produced ∧ f = .response q.src q.requestId r := by
  cases h with
  | transmit c id _ hid =>
    rcases mem_cons.mp hf with rfl | hf
    · exact .inr (.inl ⟨c, id, hid, rfl⟩)
    · exact .inl hf
  | receiveRequest q before after hs | receiveResponse _ _ _ before after hs =>
    have hf : f ∈ before ++ after := hf
    grind
  | respond q r before after hs =>
    rcases mem_cons.mp hf with rfl | hf
    · exact .inr (.inr ⟨q, r, by simp [hs], mem_cons_self, rfl⟩)
    · exact .inl hf
  | _ => exact .inl hf

theorem executions_cases (h : Step calls s t) {q : Request W D} (hq : q ∈ t.executions) :
    q ∈ s.executions ∨ .request q ∈ s.inFlight := by
  cases h with
  | receiveRequest q' before after hs =>
    rcases mem_cons.mp hq with rfl | hq
    · exact .inr (by simp [hs])
    · exact .inl hq
  | respond _ _ before after hs | giveUp _ before after hs =>
    grind
  | _ => exact .inl hq

theorem responding_cases (h : Step calls s t) {r : R} (hc : t.stage c = .responding r) :
    s.stage c = .responding r ∨
      ∃ id, s.requestId c = some id ∧ (calls.request c id, r) ∈ t.produced := by
  cases h with
  | handle d id r' _ hid =>
    by_cases hd : c = d
    · subst hd
      obtain rfl : r' = r := by simpa [goto] using hc
      exact .inr ⟨id, hid, mem_cons_self⟩
    · exact .inl (by simpa [goto, hd] using hc)
  | receiveRequest | respond | giveUp | receiveResponse | stop | abort => exact .inl hc
  | refuse d | check d | number d | register d | transmit d | fail d | dispatch d | ignore d
  | deliver d | timeout d | erase d | finish d =>
    by_cases hd : c = d
    · simp [complete, setPending, goto, hd] at hc
    · exact .inl (by simpa [complete, setPending, goto, hd] using hc)

theorem returned_cases (h : Step calls s t) {o : Outcome R} (hc : t.stage c = .returned o) :
    s.stage c = .returned o ∨ o ∈ s.settings c := by
  cases h with
  | finish d o' _ ho =>
    by_cases hd : c = d
    · subst hd
      obtain rfl : o' = o := by simpa [goto] using hc
      exact .inr ho
    · exact .inl (by simpa [goto, hd] using hc)
  | receiveRequest | respond | giveUp | receiveResponse | stop | abort => exact .inl hc
  | refuse d | check d | number d | register d | transmit d | fail d | dispatch d | ignore d
  | handle d | deliver d | timeout d | erase d =>
    by_cases hd : c = d
    · simp [complete, setPending, goto, hd] at hc
    · exact .inl (by simpa [complete, setPending, goto, hd] using hc)

end Step

/-- A number belongs to one call of its agent. -/
structure Numbered (calls : Calls W C D) (s : Agents W C D R) : Prop where
  unnumbered : ∀ {c}, (s.stage c).IsUnnumbered → s.requestId c = none
  lt : ∀ {c id}, s.requestId c = some id → id < s.nextRequestId (calls.owner c)
  injective : ∀ {c d id}, s.requestId c = some id → s.requestId d = some id →
    calls.owner c = calls.owner d → c = d

omit [DecidableEq W] [DecidableEq C] in
theorem numbered_initial : Numbered calls (initial : Agents W C D R) :=
  ⟨fun _ => rfl, nofun, nofun⟩

theorem Numbered.step (hs : Numbered calls s) (h : Step calls s t) : Numbered calls t := by
  rcases h.requestId_cases with ⟨hid, hnext⟩ | ⟨e, he, hte, hid, hnext⟩
  · refine ⟨fun hc => ?_, fun hc => ?_, fun hc hd => ?_⟩
    · exact hid ▸ hs.unnumbered (h.isUnnumbered hc)
    · rw [hid] at hc
      exact hnext ▸ hs.lt hc
    · rw [hid] at hc hd
      exact hs.injective hc hd
  · refine ⟨@fun c hc => ?_, @fun c id hc => ?_, @fun c d id hc hd howner => ?_⟩
    · have hce : c ≠ e := by
        rintro rfl
        rw [hte] at hc
        exact hc
      rw [hid, update_of_ne hce]
      exact hs.unnumbered (h.isUnnumbered hc)
    · rw [hnext, update_apply]
      rw [hid, update_apply] at hc
      split at hc
      · next hce =>
        subst hce
        cases hc
        simp
      · have hlt := hs.lt hc
        split
        · next ho => rw [ho] at hlt; omega
        · exact hlt
    · rw [hid, update_apply] at hc hd
      -- An older number is below the one that is new.
      split at hc <;> split at hd
      · next hce hde => exact hce.trans hde.symm
      · next hce _ =>
        cases hc
        have hlt := hs.lt hd
        rw [← howner, hce] at hlt
        exact absurd hlt (Nat.lt_irrefl _)
      · next _ hde =>
        cases hd
        have hlt := hs.lt hc
        rw [howner, hde] at hlt
        exact absurd hlt (Nat.lt_irrefl _)
      · exact hs.injective hc hd howner

/-- The number of a call does not change. -/
theorem Numbered.requestId_step (hs : Numbered calls s) (h : Step calls s t)
    (hc : s.requestId c = some id) : t.requestId c = some id := by
  rcases h.requestId_cases with ⟨hid, _⟩ | ⟨e, he, _, hid, _⟩
  · rw [hid, hc]
  · have hce : c ≠ e := by
      rintro rfl
      rw [hs.unnumbered (by rw [he]; trivial)] at hc
      cases hc
    rw [hid, update_of_ne hce, hc]

/-- The response was produced for the request of the call. -/
def Answered (calls : Calls W C D) (s : Agents W C D R) (c : C) (r : R) : Prop :=
  ∃ id, s.requestId c = some id ∧ (calls.request c id, r) ∈ s.produced

theorem Answered.step {c : C} {r : R} (hc : Answered calls s c r) (hs : Numbered calls s)
    (h : Step calls s t) : Answered calls t c r :=
  hc.imp fun _ ⟨hid, hr⟩ => ⟨hs.requestId_step h hid, h.produced hr⟩

/-- The request belongs to a call. -/
def Asked (calls : Calls W C D) (s : Agents W C D R) (q : Request W D) : Prop :=
  ∃ c id, s.requestId c = some id ∧ q = calls.request c id

theorem Asked.step {q : Request W D} (hq : Asked calls s q) (hs : Numbered calls s)
    (h : Step calls s t) : Asked calls t q :=
  hq.imp fun _ ⟨id, hid, hq⟩ => ⟨id, hs.requestId_step h hid, hq⟩

/-- What is on its way belongs to a call. -/
structure Addressed (calls : Calls W C D) (s : Agents W C D R) : Prop where
  requests : ∀ {q}, .request q ∈ s.inFlight → Asked calls s q
  executions : ∀ {q}, q ∈ s.executions → Asked calls s q
  responses : ∀ {w id r}, .response w id r ∈ s.inFlight →
    ∃ c, calls.owner c = w ∧ s.requestId c = some id ∧ Answered calls s c r
  responding : ∀ {c r}, s.stage c = .responding r → Answered calls s c r

omit [DecidableEq W] [DecidableEq C] in
theorem addressed_initial : Addressed calls (initial : Agents W C D R) :=
  ⟨nofun, nofun, nofun, nofun⟩

theorem Addressed.step (hs : Addressed calls s) (hn : Numbered calls s) (h : Step calls s t) :
    Addressed calls t := by
  refine ⟨@fun q hq => ?_, @fun q hq => ?_, @fun w id r hr => ?_, @fun c r hc => ?_⟩
  · rcases h.inFlight_cases hq with hq | ⟨c, id, hid, hq⟩ | ⟨_, _, _, _, hq⟩
    · exact (hs.requests hq).step hn h
    · cases hq
      exact ⟨c, id, hn.requestId_step h hid, rfl⟩
    · cases hq
  · rcases h.executions_cases hq with hq | hq
    · exact (hs.executions hq).step hn h
    · exact (hs.requests hq).step hn h
  · rcases h.inFlight_cases hr with hr | ⟨_, _, _, hr⟩ | ⟨q, r', hq, hp, hr⟩
    · obtain ⟨c, ho, hid, ha⟩ := hs.responses hr
      exact ⟨c, ho, hn.requestId_step h hid, ha.step hn h⟩
    · cases hr
    · cases hr
      -- The request that was handled is the one of its call.
      obtain ⟨c, id, hid, rfl⟩ := hs.executions hq
      have hid := hn.requestId_step h hid
      exact ⟨c, rfl, hid, id, hid, hp⟩
  · rcases h.responding_cases hc with hc | ⟨id, hid, hp⟩
    · exact (hs.responding hc).step hn h
    · exact ⟨id, hn.requestId_step h hid, hp⟩

/-- The promise of the call may be completed with this. -/
def Justified (calls : Calls W C D) (s : Agents W C D R) (c : C) : Outcome R → Prop
  | .response r => Answered calls s c r
  | .agentShutdown => s.running (calls.owner c) = false

theorem Justified.step {c : C} {o : Outcome R} (hc : Justified calls s c o)
    (hs : Numbered calls s) (h : Step calls s t) : Justified calls t c o := by
  cases o with
  | response r => exact Answered.step hc hs h
  | agentShutdown => exact h.running hc

/-- A promise in the table is that of the call with its number and has not been completed; one
that is completed is completed once. -/
structure Correlated (calls : Calls W C D) (s : Agents W C D R) : Prop where
  early : ∀ {c}, (s.stage c).IsEarly → s.settings c = []
  pending : ∀ {w id c}, s.pending w id = some c →
    calls.owner c = w ∧ s.requestId c = some id ∧ ¬(s.stage c).IsEarly ∧ s.settings c = []
  settings : ∀ c, s.settings c = [] ∨ ∃ o, s.settings c = [o] ∧ Justified calls s c o
  returned : ∀ {c o}, s.stage c = .returned o → o ∈ s.settings c

omit [DecidableEq W] [DecidableEq C] in
theorem correlated_initial : Correlated calls (initial : Agents W C D R) :=
  ⟨fun _ => rfl, nofun, fun _ => .inl rfl, nofun⟩

omit [DecidableEq W] [DecidableEq C] in
/-- Whatever completes a promise was meant for it. -/
theorem Correlated.justified (hs : Correlated calls s) (hn : Numbered calls s)
    (ha : Addressed calls s) {w : W} (hp : s.pending w id = some c)
    {o : Outcome R}
    (ho : match o with
      | .agentShutdown => s.running w = false
      | .response r => .response w id r ∈ s.inFlight ∨
          ∃ d, s.stage d = .responding r ∧ calls.owner d = w ∧ s.requestId d = some id) :
    Justified calls s c o := by
  obtain ⟨rfl, hid, -, -⟩ := hs.pending hp
  cases o with
  | agentShutdown => exact ho
  | response r =>
    rcases ho with ho | ⟨d, hd, howner, hdid⟩
    · obtain ⟨d, howner, hdid, hr⟩ := ha.responses ho
      exact hn.injective hid hdid howner.symm ▸ hr
    · exact hn.injective hid hdid howner.symm ▸ ha.responding hd

theorem Correlated.step (hs : Correlated calls s) (hn : Numbered calls s)
    (ha : Addressed calls s) (h : Step calls s t) : Correlated calls t := by
  refine ⟨@fun c hc => ?_, @fun w id c hc => ?_, fun c => ?_, @fun c o hc => ?_⟩
  · rcases h.settings_cases c with hset | ⟨_, _, _, hp, -⟩
    · exact hset ▸ hs.early (h.isEarly hc)
    · exact absurd (h.isEarly hc) (hs.pending hp).2.2.1
  · rcases h.pending_cases hc with hp | ⟨hstage, hlater, howner, hid⟩
    · obtain ⟨howner, hid, hlate, hset⟩ := hs.pending hp
      refine ⟨howner, hn.requestId_step h hid, fun he => hlate (h.isEarly he), ?_⟩
      rcases h.settings_cases c with hset' | ⟨w', id', _, hp', ht, -⟩
      · rw [hset', hset]
      · -- A completed promise has left the table.
        obtain ⟨howner', hid', -⟩ := hs.pending hp'
        obtain rfl : id = id' := by simpa [hid] using hid'
        subst howner howner'
        rw [ht] at hc
        cases hc
    · refine ⟨howner, hn.requestId_step h hid, by rw [hlater]; exact fun he => he, ?_⟩
      have hset := hs.early (c := c) (by rw [hstage]; trivial)
      rcases h.settings_cases c with hset' | ⟨_, _, _, hp, -⟩
      · rw [hset', hset]
      · exact absurd (by rw [hstage]; trivial) (hs.pending hp).2.2.1
  · rcases h.settings_cases c with hset | ⟨w, id, o, hp, -, hset, ho⟩
    · rw [hset]
      exact (hs.settings c).imp_right fun ⟨o, hc, ho⟩ => ⟨o, hc, ho.step hn h⟩
    · refine .inr ⟨o, ?_, (hs.justified hn ha hp ho).step hn h⟩
      rw [hset, (hs.pending hp).2.2.2, nil_append]
  · have ho : o ∈ s.settings c := (h.returned_cases hc).elim hs.returned id
    rcases h.settings_cases c with hset | ⟨_, _, _, -, -, hset, -⟩
    · exact hset ▸ ho
    · exact hset ▸ mem_append_left _ ho

theorem invariants_of_reaches (h : Reaches calls initial s) :
    Numbered calls s ∧ Addressed calls s ∧ Correlated calls s := by
  induction h with
  | refl => exact ⟨numbered_initial, addressed_initial, correlated_initial⟩
  | tail _ h ih =>
    obtain ⟨hn, ha, hs⟩ := ih
    exact ⟨hn.step h, ha.step hn h, hs.step hn ha h⟩

/-- A promise that has left the table does not come back. -/
theorem Step.not_pending (h : Step calls s t) (hc : ¬(s.stage c).IsEarly)
    (hp : ∀ w id, s.pending w id ≠ some c) (w : W) (id : ℕ) : t.pending w id ≠ some c := by
  intro ht
  rcases h.pending_cases ht with hs | ⟨hs, -⟩
  · exact hp w id hs
  · exact hc (by rw [hs]; trivial)

theorem Reaches.not_pending (h : Reaches calls s t) (hc : ¬(s.stage c).IsEarly)
    (hp : ∀ w id, s.pending w id ≠ some c) :
    ¬(t.stage c).IsEarly ∧ ∀ w id, t.pending w id ≠ some c := by
  induction h with
  | refl => exact ⟨hc, hp⟩
  | tail _ h ih => exact ⟨fun ht => ih.1 (h.isEarly ht), h.not_pending ih.1 ih.2⟩

omit [DecidableEq C] in
/-- A shutdown leaves none of its agent's calls in the table. -/
theorem Correlated.abort (hs : Correlated calls s) (waiting : C → Prop) [DecidablePred waiting]
    (w : W) (id : ℕ) : (s.abort (calls.owner c) waiting).pending w id ≠ some c := by
  intro hp
  by_cases hw : w = calls.owner c
  · simp [Agents.abort, hw] at hp
  · simp only [Agents.abort, update_of_ne hw] at hp
    exact hw (hs.pending hp).1.symm

/-- In every run the promise of a call is completed at most once, with the response that was
produced for its own request or by the shutdown of its agent, and a call that is in the table
when a shutdown empties it is never in it again. -/
theorem send_correlates (h : Reaches calls initial s) (c : C) :
    (∀ o, s.stage c = .returned o → o ∈ s.settings c) ∧ (s.settings c).length ≤ 1 ∧
      (∀ r, .response r ∈ s.settings c →
        ∃ id, s.requestId c = some id ∧ (calls.request c id, r) ∈ s.produced ∧
          ∀ d id', s.requestId d = some id' → calls.request d id' = calls.request c id → d = c) ∧
      (.agentShutdown ∈ s.settings c → s.running (calls.owner c) = false) ∧
      ∀ (waiting : C → Prop) [DecidablePred waiting] (t : Agents W C D R),
        Reaches calls (s.abort (calls.owner c) waiting) t → ¬(s.stage c).IsEarly →
          ∀ w id, t.pending w id ≠ some c := by
  obtain ⟨hn, -, hs⟩ := invariants_of_reaches h
  have hjustified {o : Outcome R} (ho : o ∈ s.settings c) : Justified calls s c o := by
    rcases hs.settings c with hset | ⟨o', hset, ho'⟩
    · simp [hset] at ho
    · obtain rfl : o = o' := by simpa [hset] using ho
      exact ho'
  refine ⟨fun o ho => hs.returned ho, ?_, fun r hr => ?_, fun ho => hjustified ho, ?_⟩
  · rcases hs.settings c with hset | ⟨o, hset, -⟩ <;> simp [hset]
  · obtain ⟨id, hid, hp⟩ : Answered calls s c r := hjustified hr
    refine ⟨id, hid, hp, fun d id' hd heq => ?_⟩
    obtain rfl : id' = id := congrArg Request.requestId heq
    exact hn.injective hd hid (congrArg Request.src heq)
  · intro waiting _ t ht hc
    exact (ht.not_pending hc (hs.abort waiting)).2

/-- Worker 0 asks worker 1. -/
def oneCall : Calls (Fin 2) Unit Unit := ⟨fun _ => 0, fun _ => 1, fun _ => ()⟩

/-- The promise of `oneCall` is in the table and its request on the way. -/
theorem exists_sent : ∃ s : Agents (Fin 2) Unit Unit Bool, Reaches oneCall initial s ∧
    s.stage () = .waiting ∧ s.pending 0 0 = some () ∧
      s.inFlight = [.request (oneCall.request () 0)] := by
  refine ⟨_, .tail (.tail (.tail (.tail .refl (.check () rfl rfl)) (.number () rfl))
    (.register () 0 rfl rfl)) (.transmit () 0 rfl rfl ?_), rfl, rfl, rfl⟩
  decide

theorem exists_answered : ∃ s : Agents (Fin 2) Unit Unit Bool, Reaches oneCall initial s ∧
    s.stage () = .returned (.response true) := by
  obtain ⟨s, hs, hc, hp, hf⟩ := exists_sent
  have hreceived := hs.tail (.receiveRequest (oneCall.request () 0) [] [] hf)
  have hresponded := hreceived.tail (.respond (oneCall.request () 0) true [] _ rfl)
  have hcompleted := hresponded.tail (.receiveResponse 0 0 true [] _ rfl)
  refine ⟨_, hcompleted.tail (.finish () (.response true) hc ?_), rfl⟩
  simp [complete, hp]

theorem send_correlates_oneCall : ∃ s : Agents (Fin 2) Unit Unit Bool,
    s.stage () = .returned (.response true) ∧
      ∃ id, s.requestId () = some id ∧ (oneCall.request () id, true) ∈ s.produced := by
  obtain ⟨s, hs, hreturned⟩ := exists_answered
  obtain ⟨hmem, -, hanswered, -⟩ := send_correlates hs ()
  obtain ⟨id, hid, hp, -⟩ := hanswered true (hmem _ hreturned)
  exact ⟨s, hreturned, id, hid, hp⟩

/-- A shutdown completes the promise with an error of its own, and `send` returns it. -/
theorem shutdown_returns_an_error : ¬∀ s : Agents (Fin 2) Unit Unit Bool,
    Reaches oneCall initial s → ∀ o, s.stage () = .returned o →
      ∃ r id, o = .response r ∧ s.requestId () = some id ∧
        (oneCall.request () id, r) ∈ s.produced := by
  intro hall
  obtain ⟨s, hs, hc, hp, -⟩ := exists_sent
  have hstopped := hs.tail (.stop 0)
  have haborted := hstopped.tail (.abort 0 (fun _ => True) rfl fun c => ⟨fun _ => ⟨0, hp⟩,
    fun _ => trivial⟩)
  have hfinished := haborted.tail (.finish () .agentShutdown hc (by simp [Agents.abort]))
  obtain ⟨r, _, ho, _⟩ := hall _ hfinished .agentShutdown rfl
  cases ho

end Tenzor.Rpc
