import Mathlib.Data.List.Forall2
import Mathlib.Data.List.Induction

/-!
# Programs that may throw

Rules for reading a returned value back through a program over `Except`: a
sequence returns exactly when each part does, a guard passes exactly when its
condition is false, and a throwing loop that returns has kept any invariant
of its body.
-/

namespace Throwing

open List

universe u v w
variable {ε : Type u} {α : Type w} {β : Type v} {c : Prop} {e : ε} {u : Unit} {γ δ : Type v}
  {r b : β} {a : α} {l : List α} {f : β → α → Except ε β} {P : β → α → Prop} {x : Except ε γ}

/-- Throw `e` when the condition holds, otherwise go on. -/
def throwIf (c : Prop) [Decidable c] (e : ε) : Except ε Unit :=
  if c then .error e else .ok ()

@[simp] theorem throwIf_eq_ok [Decidable c] : throwIf c e = .ok u ↔ ¬ c := by
  unfold throwIf
  split <;> simp_all

theorem throwIf_of_not [Decidable c] (h : ¬ c) : throwIf c e = .ok () := if_neg h

theorem throwIf_of [Decidable c] (h : c) : throwIf c e = .error e := if_pos h

@[simp] theorem bind_eq_ok {f : γ → Except ε δ} {r : δ} :
    (x >>= f) = .ok r ↔ ∃ a, x = .ok a ∧ f a = .ok r := by
  cases x with
  | error e => simp [bind, Except.bind]
  | ok a => simp [bind, Except.bind]

@[simp] theorem pure_eq_ok {r : α} : (pure a : Except ε α) = .ok r ↔ a = r := by
  simp [pure, Except.pure]

@[simp] theorem map_eq_ok {f : γ → δ} {r : δ} : (f <$> x) = .ok r ↔ ∃ a, x = .ok a ∧ f a = r := by
  cases x with
  | error e => simp [Functor.map, Except.map]
  | ok a => simp [Functor.map, Except.map]

/-- A search goes on past a guard exactly when its condition holds. -/
@[simp] theorem guard_eq_some [Decidable c] : (guard c : Option Unit) = some u ↔ c := by
  unfold guard
  split <;> simp_all

/-- A program without a result throws exactly when it does not return. -/
theorem throws_iff {x : Except ε Unit} : (∃ e, x = .error e) ↔ ¬ x = .ok () := by
  cases x with
  | error e => simp
  | ok u => simp

/-- A loop of checks passes exactly when each check does. -/
theorem forM_eq_ok {f : α → Except ε Unit} : forM l f = .ok () ↔ ∀ a ∈ l, f a = .ok () := by
  induction l with
  | nil => simp
  | cons a l ih =>
    rw [forM_cons, bind_eq_ok, forall_mem_cons]
    exact ⟨fun ⟨_, ha, hl⟩ => ⟨ha, ih.mp hl⟩, fun ⟨ha, hl⟩ => ⟨(), ha, ih.mpr hl⟩⟩

theorem throwIf_congr {p q : Prop} [Decidable p] [Decidable q] (h : p ↔ q) :
    throwIf p e = throwIf q e := by
  unfold throwIf
  split_ifs <;> tauto

theorem throwIf_bind_throwIf (p q : Prop) [Decidable p] [Decidable q] (e : ε) :
    (throwIf p e >>= fun _ => throwIf q e) = throwIf (p ∨ q) e := by
  unfold throwIf
  split_ifs <;> first | rfl | tauto

theorem forM_throwIf (p : α → Prop) [DecidablePred p] (e : ε) (l : List α) :
    (l.forM fun a => throwIf (p a) e) = throwIf (∃ a ∈ l, p a) e := by
  induction l with
  | nil => exact (throwIf_of_not (by simp)).symm
  | cons a l ih =>
    have hcons : (p a ∨ ∃ b ∈ l, p b) ↔ ∃ b ∈ a :: l, p b := by simp
    calc
      ((a :: l).forM fun a => throwIf (p a) e) =
          (throwIf (p a) e >>= fun _ => throwIf (∃ b ∈ l, p b) e) := by rw [← ih]; rfl
      _ = throwIf (p a ∨ ∃ b ∈ l, p b) e := throwIf_bind_throwIf ..
      _ = throwIf (∃ b ∈ a :: l, p b) e := throwIf_congr hcons

/-- A returning loop has passed an intermediate state after its first round. -/
theorem foldlM_cons_eq_ok :
    (a :: l).foldlM f b = .ok r ↔ ∃ c, f b a = .ok c ∧ l.foldlM f c = .ok r := by
  rw [foldlM_cons, bind_eq_ok]

/-- A map whose rounds all return what `g` says. -/
theorem mapM_eq_map {α β : Type v} {f : α → Except ε β} {g : α → β} {l : List α}
    (h : ∀ a ∈ l, f a = .ok (g a)) : l.mapM f = .ok (l.map g) := by
  induction l with
  | nil => rfl
  | cons a l ih =>
    obtain ⟨ha, hl⟩ := forall_mem_cons.mp h
    simp [mapM_cons, ha, ih hl]

/-- A map whose every round returns. -/
theorem mapM_total {α β : Type v} {f : α → Except ε β} {l : List α} (h : ∀ a ∈ l, ∃ b, f a = .ok b) :
    ∃ bs, l.mapM f = .ok bs ∧ ∀ b, b ∈ bs ↔ ∃ a ∈ l, f a = .ok b := by
  induction l with
  | nil => exact ⟨[], rfl, by simp⟩
  | cons a rest ih =>
    obtain ⟨⟨b, hb⟩, hrest⟩ := forall_mem_cons.mp h
    obtain ⟨bs, hbs, hmem⟩ := ih hrest
    refine ⟨b :: bs, by simp [mapM_cons, hb, hbs], fun c => ?_⟩
    rw [mem_cons, hmem]
    constructor
    · rintro (rfl | ⟨a', ha', hc⟩)
      · exact ⟨a, mem_cons_self, hb⟩
      · exact ⟨a', mem_cons_of_mem a ha', hc⟩
    · rintro ⟨a', ha', hc⟩
      rcases mem_cons.mp ha' with rfl | ha'
      · exact .inl (Except.ok.inj (hc.symm.trans hb))
      · exact .inr ⟨a', ha', hc⟩

/-- A map returns the list of what its rounds return. -/
theorem mapM_eq_ok {α β : Type v} {f : α → Except ε β} {l : List α} {bs : List β} :
    l.mapM f = .ok bs ↔ List.Forall₂ (fun a b => f a = .ok b) l bs := by
  induction l generalizing bs with
  | nil =>
    rw [mapM_nil, pure_eq_ok, forall₂_nil_left_iff, eq_comm]
  | cons a l ih =>
    simp only [mapM_cons, bind_eq_ok, pure_eq_ok, forall₂_cons_left_iff, ih]
    constructor
    · rintro ⟨b, hb, rest, hrest, rfl⟩
      exact ⟨b, rest, hb, hrest, rfl⟩
    · rintro ⟨b, rest, hb, hrest, rfl⟩
      exact ⟨b, hb, rest, hrest, rfl⟩

/-- A map that returns, each of whose rounds can only return what `g` says. -/
theorem mapM_returns {α β : Type v} {f : α → Except ε β} {g : α → β} {l : List α} {bs : List β}
    (h : l.mapM f = .ok bs) (hg : ∀ a ∈ l, ∀ b, f a = .ok b → b = g a) :
    bs = l.map g ∧ ∀ a ∈ l, f a = .ok (g a) := by
  induction l generalizing bs with
  | nil =>
    obtain rfl : [] = bs := by simpa using h
    simp
  | cons a l ih =>
    rw [mapM_cons] at h
    simp only [bind_eq_ok, pure_eq_ok] at h
    obtain ⟨b, hb, rest, hrest, rfl⟩ := h
    obtain ⟨rfl, hall⟩ := ih hrest fun a ha => hg a (mem_cons_of_mem _ ha)
    obtain rfl := hg a mem_cons_self b hb
    exact ⟨rfl, forall_mem_cons.mpr ⟨hb, hall⟩⟩

theorem mapM_congr {α β : Type v} {f g : α → Except ε β} {l : List α} (h : ∀ a ∈ l, f a = g a) :
    l.mapM f = l.mapM g := by
  induction l with
  | nil => rfl
  | cons a rest ih =>
    obtain ⟨ha, hrest⟩ := forall_mem_cons.mp h
    rw [mapM_cons, mapM_cons, ha, ih hrest]

/-- A throwing loop that returns is the loop of what its rounds return. -/
theorem foldlM_returns (step : β → α → β) (h : l.foldlM f b = .ok r)
    (hstep : ∀ b a c, f b a = .ok c → c = step b a) : r = l.foldl step b := by
  induction l generalizing b with
  | nil => exact (pure_eq_ok.mp h).symm
  | cons a l ih =>
    obtain ⟨c, hc, hl⟩ := foldlM_cons_eq_ok.mp h
    obtain rfl := hstep b a c hc
    exact ih hl

/-- One more round of a counted loop. -/
theorem foldlM_range_succ (f : β → ℕ → Except ε β) (b : β) (j : ℕ) :
    (List.range (j + 1)).foldlM f b = ((List.range j).foldlM f b >>= fun r => f r j) := by
  rw [range_succ]
  simp

/-- What each round of a throwing loop preserves holds when the loop returns. -/
theorem foldlM_invariant (P : β → Prop) (step : ∀ b a c, P b → f b a = .ok c → P c)
    (h : l.foldlM f b = .ok r) (hb : P b) : P r := by
  induction l generalizing b with
  | nil =>
    obtain rfl : b = r := by simpa using h
    exact hb
  | cons a l ih =>
    obtain ⟨c, hc, hrest⟩ := foldlM_cons_eq_ok.mp h
    exact ih hrest (step b a c hb hc)

/-- The same, where a round may use what held before it and which part of the
list has been passed. -/
theorem foldlM_invariant_prefix (P : β → Prop) (hb : P b)
    (step : ∀ done a c d, done ++ [a] <+: l → done.foldlM f b = .ok c → P c → f c a = .ok d → P d) :
    ∀ done r, done <+: l → done.foldlM f b = .ok r → P r := by
  intro done
  induction done using List.reverseRecOn with
  | nil =>
    intro r _ h
    obtain rfl : b = r := by simpa using h
    exact hb
  | append_singleton done a ih =>
    intro r hpre h
    rw [foldlM_append, bind_eq_ok] at h
    obtain ⟨c, hc, hlast⟩ := h
    rw [foldlM_cons, bind_eq_ok] at hlast
    obtain ⟨d, hd, hnil⟩ := hlast
    obtain rfl : d = r := by simpa using hnil
    have hdone : done <+: l := (prefix_append done [a]).trans hpre
    exact step done a c d hpre hc (ih c hdone hc) hd

/-- Every round of a throwing loop, in the state it starts in, meets `P`. -/
def Along (f : β → α → Except ε β) (P : β → α → Prop) : β → List α → Prop
  | _, [] => True
  | b, a :: l => P b a ∧ ∀ c, f b a = .ok c → Along f P c l

/-- What the rounds that meet the condition preserve holds when the loop returns. -/
theorem foldlM_along (Q : β → Prop) (step : ∀ b a c, a ∈ l → Q b → P b a → f b a = .ok c → Q c)
    (h : l.foldlM f b = .ok r) (hP : Along f P b l) (hb : Q b) : Q r := by
  induction l generalizing b with
  | nil =>
    obtain rfl : b = r := by simpa using h
    exact hb
  | cons a l ih =>
    obtain ⟨c, hc, hrest⟩ := foldlM_cons_eq_ok.mp h
    have hQ : Q c := step b a c mem_cons_self hb hP.1 hc
    apply ih _ hrest (hP.2 c hc) hQ
    intro b' a' c' ha'
    exact step b' a' c' (mem_cons_of_mem a ha')

/-- Rounds that change nothing need only meet the condition once each. -/
theorem along_append_of_fixed {l' : List α} (h : ∀ a ∈ l, P b a ∧ f b a = .ok b)
    (h' : Along f P b l') : Along f P b (l ++ l') := by
  induction l with
  | nil => exact h'
  | cons a l ih =>
    obtain ⟨⟨hP, hfix⟩, hl⟩ := forall_mem_cons.mp h
    refine ⟨hP, fun c hc => ?_⟩
    rw [hfix, Except.ok.injEq] at hc
    exact hc ▸ ih hl

theorem along_of_fixed (h : ∀ a ∈ l, P b a ∧ f b a = .ok b) : Along f P b l := by
  have hnil : Along f P b [] := trivial
  simpa using along_append_of_fixed h hnil

/-- The same for a loop that cannot throw. -/
def Through (f : β → α → β) (P : β → α → Prop) : β → List α → Prop
  | _, [] => True
  | b, a :: l => P b a ∧ Through f P (f b a) l

theorem foldl_through {f : β → α → β} (Q : β → Prop) (step : ∀ b a, a ∈ l → Q b → P b a → Q (f b a))
    (hP : Through f P b l) (hb : Q b) : Q (l.foldl f b) := by
  induction l generalizing b with
  | nil => exact hb
  | cons a l ih =>
    apply ih _ hP.2 (step b a mem_cons_self hb hP.1)
    intro b' a' ha'
    exact step b' a' (mem_cons_of_mem a ha')

theorem through_of_fixed {f : β → α → β} (h : ∀ a ∈ l, P b a ∧ f b a = b) : Through f P b l := by
  induction l with
  | nil => trivial
  | cons a l ih =>
    obtain ⟨⟨hP, hfix⟩, hl⟩ := forall_mem_cons.mp h
    exact ⟨hP, hfix.symm ▸ ih hl⟩

end Throwing
