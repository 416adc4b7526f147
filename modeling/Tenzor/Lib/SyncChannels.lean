import Mathlib.Algebra.Order.BigOperators.Group.Finset

/-!
# Programs over synchronous channels

A send completes together with the receive that matches it. Programs that are the
parts of one script never block, and every message meets the receive that waits
for it. Two processes that send to each other, or one that has given up, block.
-/

namespace SyncChannels

open List
open Relation.ReflTransGen (head refl)
open Function (update_of_ne update_self)

variable {ι M : Type*}

/-- What a process does next. A receive says which message it is meant for. -/
inductive Action (ι M : Type*)
  | send (dst : ι) (msg : M)
  | recv (src : ι) (wanted : M)
  | abort
  deriving DecidableEq, Repr

abbrev Programs (ι M : Type*) := ι → List (Action ι M)

variable [DecidableEq ι]

inductive Step (P : Programs ι M) : Programs ι M → Prop
  | exchange {p q : ι} {msg wanted : M} {ps qs : List (Action ι M)} (hpq : p ≠ q)
      (hp : P p = .send q msg :: ps) (hq : P q = .recv p wanted :: qs) :
      Step P (Function.update (Function.update P p ps) q qs)

abbrev Reaches (P P' : Programs ι M) : Prop := Relation.ReflTransGen Step P P'

def Finished (P : Programs ι M) : Prop := ∀ p, P p = []

def Stuck (P : Programs ι M) : Prop := (∀ P', ¬ Step P P') ∧ ¬ Finished P

/-- No reachable state is stuck. -/
def Live (P : Programs ι M) : Prop := ∀ P', Reaches P P' → ¬ Stuck P'

/-- A receive gets the message that it is meant for. -/
def Matched (P : Programs ι M) : Prop :=
  ∀ P', Reaches P P' → ∀ p q msg wanted ps qs, P' p = .send q msg :: ps →
    P' q = .recv p wanted :: qs → msg = wanted

structure Event (ι M : Type*) where
  src : ι
  dst : ι
  msg : M

def part (p : ι) (e : Event ι M) : Option (Action ι M) :=
  if e.src = p then some (.send e.dst e.msg)
  else if e.dst = p then some (.recv e.src e.msg)
  else none

/-- Each process does its part of the script. -/
def parts (script : List (Event ι M)) : Programs ι M := fun p => script.filterMap (part p)

theorem parts_append (a b : List (Event ι M)) (p : ι) : parts (a ++ b) p = parts a p ++ parts b p :=
  filterMap_append

theorem parts_flatMap {α : Type*} (l : List α) (f : α → List (Event ι M)) (p : ι) :
    parts (l.flatMap f) p = l.flatMap fun a => parts (f a) p := by
  induction l with
  | nil => rfl
  | cons a rest ih => rw [flatMap_cons, flatMap_cons, parts_append, ih]

section

variable {p q r : ι} {e : Event ι M} {msg : M} {script : List (Event ι M)} {P : Programs ι M}

theorem part_src (e : Event ι M) : part e.src e = some (.send e.dst e.msg) :=
  if_pos rfl

theorem part_dst (h : e.src ≠ e.dst) : part e.dst e = some (.recv e.src e.msg) := by
  rw [part, if_neg h, if_pos rfl]

theorem part_none (hsrc : e.src ≠ r) (hdst : e.dst ≠ r) : part r e = none := by
  rw [part, if_neg hsrc, if_neg hdst]

theorem part_send (h : part p e = some (.send q msg)) : e.src = p ∧ e.dst = q ∧ e.msg = msg := by
  unfold part at h
  split_ifs at h with hsrc hdst
  · simp only [Option.some.injEq, Action.send.injEq] at h
    exact ⟨hsrc, h⟩
  · simp at h

theorem part_recv (h : part q e = some (.recv p msg)) : e.src = p ∧ e.dst = q ∧ e.msg = msg := by
  unfold part at h
  split_ifs at h with hsrc hdst
  · simp at h
  · simp only [Option.some.injEq, Action.recv.injEq] at h
    exact ⟨h.1, hdst, h.2⟩

/-- The send and the receive that meet are the two parts of one event. -/
theorem meet_parts {wanted : M} {ps qs : List (Action ι M)}
    (hp : parts script p = .send q msg :: ps) (hq : parts script q = .recv p wanted :: qs) :
    msg = wanted ∧ ∃ pre e post, script = pre ++ e :: post ∧ e.src = p ∧ e.dst = q ∧
      ps = parts (pre ++ post) p ∧ qs = parts (pre ++ post) q := by
  obtain ⟨pre, e, post, rfl, hpre, he, hps⟩ := filterMap_eq_cons_iff.mp hp
  obtain ⟨pre', e', post', hscript, hpre', he', hqs⟩ := filterMap_eq_cons_iff.mp hq
  obtain ⟨hsrc, hdst, hmsg⟩ := part_send he
  obtain ⟨hsrc', hdst', hmsg'⟩ := part_recv he'
  -- an event between the two would be the first one of `p` or of `q`
  have hfirst : pre = pre' ∧ e :: post = e' :: post' := by
    rcases append_eq_append_iff.mp hscript with ⟨l, hl, htail⟩ | ⟨l, hl, htail⟩
    · cases l with
      | nil => exact ⟨by simpa using hl.symm, by simpa using htail⟩
      | cons x rest =>
        obtain ⟨rfl, -⟩ := List.cons.inj htail
        have hnone := hpre' e (by rw [hl]; simp)
        unfold part at hnone
        split_ifs at hnone
    · cases l with
      | nil => exact ⟨by simpa using hl, by simpa using htail.symm⟩
      | cons x rest =>
        obtain ⟨rfl, -⟩ := List.cons.inj htail
        have hnone := hpre e' (by rw [hl]; simp)
        unfold part at hnone
        split_ifs at hnone
  obtain ⟨rfl, htail⟩ := hfirst
  obtain ⟨rfl, rfl⟩ := List.cons.inj htail
  refine ⟨hmsg.symm.trans hmsg', pre, e, post, rfl, hsrc, hdst, ?_, ?_⟩
  · rw [parts_append, parts, filterMap_eq_nil_iff.mpr hpre]
    exact hps.symm
  · rw [parts_append, parts, filterMap_eq_nil_iff.mpr hpre']
    exact hqs.symm

/-- A step of the parts of a script takes one event out of it. -/
theorem step_parts (h : Step (parts script) P) :
    ∃ pre e post, script = pre ++ e :: post ∧ P = parts (pre ++ post) := by
  cases h with
  | @exchange p q msg wanted ps qs hpq hp hq =>
    obtain ⟨-, pre, e, post, rfl, hsrc, hdst, rfl, rfl⟩ := meet_parts hp hq
    refine ⟨pre, e, post, rfl, ?_⟩
    ext1 r
    by_cases hrq : r = q
    · subst hrq
      rw [update_self]
    · rw [update_of_ne hrq]
      by_cases hrp : r = p
      · subst hrp
        rw [update_self]
      · rw [update_of_ne hrp, parts_append, parts_append, parts, parts, parts,
          filterMap_cons_none]
        exact part_none (fun hs => hrp (hs.symm.trans hsrc)) fun hd => hrq (hd.symm.trans hdst)

/-- No process of a script sends to itself. -/
def Proper (script : List (Event ι M)) : Prop := ∀ e ∈ script, e.src ≠ e.dst

omit [DecidableEq ι] in
theorem Proper.append {a b : List (Event ι M)} (ha : Proper a) (hb : Proper b) : Proper (a ++ b) :=
  fun e he => (mem_append.mp he).elim (ha e) (hb e)

omit [DecidableEq ι] in
theorem Proper.flatMap {α : Type*} {l : List α} {f : α → List (Event ι M)}
    (h : ∀ a, Proper (f a)) : Proper (l.flatMap f) := by
  intro e he
  obtain ⟨a, -, he⟩ := mem_flatMap.mp he
  exact h a e he

theorem reaches_parts (hproper : Proper script) (h : Reaches (parts script) P) :
    ∃ rest, Proper rest ∧ P = parts rest := by
  induction h with
  | refl => exact ⟨script, hproper, rfl⟩
  | tail hreach hstep ih =>
    obtain ⟨rest, hrest, rfl⟩ := ih
    obtain ⟨pre, e, post, rfl, rfl⟩ := step_parts hstep
    refine ⟨pre ++ post, fun x hx => hrest x ?_, rfl⟩
    rcases mem_append.mp hx with hx | hx
    · exact mem_append_left _ hx
    · exact mem_append_right _ (mem_cons_of_mem _ hx)

/-- The first event of a script can always take place. -/
theorem live_parts (hproper : Proper script) : Live (parts script) := by
  rintro P hreach ⟨hnone, hunfinished⟩
  obtain ⟨rest, hrest, rfl⟩ := reaches_parts hproper hreach
  cases rest with
  | nil => exact hunfinished fun p => rfl
  | cons e rest =>
    have hne := hrest e mem_cons_self
    have hsend : parts (e :: rest) e.src = .send e.dst e.msg :: parts rest e.src :=
      filterMap_cons_some (part_src e)
    have hrecv : parts (e :: rest) e.dst = .recv e.src e.msg :: parts rest e.dst :=
      filterMap_cons_some (part_dst hne)
    exact hnone _ (.exchange hne hsend hrecv)

theorem matched_parts (hproper : Proper script) : Matched (parts script) := by
  intro P hreach p q msg wanted ps qs hp hq
  obtain ⟨rest, -, rfl⟩ := reaches_parts hproper hreach
  exact (meet_parts hp hq).1

/-- Programs that begin with the parts of a script may run it to its end. -/
theorem reaches_of_parts (hproper : Proper script) (R : Programs ι M) :
    Reaches (fun p => parts script p ++ R p) R := by
  induction script with
  | nil => exact refl
  | cons e rest ih =>
    have hne := hproper e mem_cons_self
    refine head ?_ (ih fun x hx => hproper x (mem_cons_of_mem _ hx))
    have hsend : parts (e :: rest) e.src ++ R e.src =
        .send e.dst e.msg :: (parts rest e.src ++ R e.src) := by
      rw [parts, filterMap_cons_some (part_src e)]
      rfl
    have hrecv : parts (e :: rest) e.dst ++ R e.dst =
        .recv e.src e.msg :: (parts rest e.dst ++ R e.dst) := by
      rw [parts, filterMap_cons_some (part_dst hne)]
      rfl
    have hstep := Step.exchange (P := fun p => parts (e :: rest) p ++ R p) hne hsend hrecv
    convert hstep using 1
    ext1 r
    by_cases hdst : r = e.dst
    · rw [hdst, update_self]
    · rw [update_of_ne hdst]
      by_cases hsrc : r = e.src
      · rw [hsrc, update_self]
      · rw [update_of_ne hsrc, parts, parts,
          filterMap_cons_none (part_none (Ne.symm hsrc) (Ne.symm hdst))]

end

section

variable {P : Programs ι M} {s : Finset ι} {P' : Programs ι M} {p : ι}

theorem length_step (h : Step P P') :
    (∀ p, (P' p).length ≤ (P p).length) ∧ ∃ p, (P' p).length < (P p).length := by
  cases h with
  | @exchange p q msg wanted ps qs hpq hp hq =>
    constructor
    · intro r
      by_cases hrq : r = q
      · rw [hrq, update_self, hq]
        exact Nat.le_succ _
      · rw [update_of_ne hrq]
        by_cases hrp : r = p
        · rw [hrp, update_self, hp]
          exact Nat.le_succ _
        · rw [update_of_ne hrp]
    · refine ⟨q, ?_⟩
      rw [update_self, hq]
      exact Nat.lt_succ_self _

/-- Every run of finitely many processes comes to an end. -/
theorem exists_final (hs : ∀ p ∉ s, P p = []) :
    ∃ P', Reaches P P' ∧ ∀ P'', ¬ Step P' P'' := by
  generalize hn : ∑ p ∈ s, (P p).length = n
  induction n using Nat.strong_induction_on generalizing P with
  | h n ih =>
    by_cases hstep : ∃ P', Step P P'
    · obtain ⟨P', hstep⟩ := hstep
      obtain ⟨hle, p, hlt⟩ := length_step hstep
      have hmem : p ∈ s := by
        by_contra hnot
        rw [hs p hnot] at hlt
        exact Nat.not_lt_zero _ hlt
      have hs' : ∀ r ∉ s, P' r = [] := by
        intro r hr
        apply length_eq_zero_iff.mp
        have hle := hle r
        rw [hs r hr] at hle
        exact Nat.le_zero.mp hle
      have hsum : ∑ r ∈ s, (P' r).length < n := by
        rw [← hn]
        exact Finset.sum_lt_sum (fun r _ => hle r) ⟨p, hmem, hlt⟩
      obtain ⟨F, hreach, hfinal⟩ := ih _ hsum hs' rfl
      exact ⟨F, head hstep hreach, hfinal⟩
    · exact ⟨P, refl, fun P'' h => hstep ⟨P'', h⟩⟩

/-- What every step keeps and no finished state has is never finished. -/
theorem not_live_of_kept (hs : ∀ p ∉ s, P p = []) {I : Programs ι M → Prop} (hI : I P)
    (hstep : ∀ P P', I P → Step P P' → I P') (hunfinished : ∀ P, I P → ¬ Finished P) :
    ¬ Live P := by
  intro hlive
  obtain ⟨F, hreach, hfinal⟩ := exists_final hs
  have hIF : I F := by
    clear hfinal hlive
    induction hreach with
    | refl => exact hI
    | tail _ hlast ih => exact hstep _ _ ih hlast
  exact hlive F hreach ⟨hfinal, hunfinished F hIF⟩

theorem not_live_of_abort (hs : ∀ p ∉ s, P p = []) (h : .abort ∈ P p) : ¬ Live P := by
  refine not_live_of_kept (I := fun P => .abort ∈ P p) hs h ?_ ?_
  · intro P P' hmem hstep
    cases hstep with
    | @exchange a b msg wanted ps qs hab ha hb =>
      by_cases hpb : p = b
      · subst hpb
        rw [hb] at hmem
        simpa using hmem
      · rw [update_of_ne hpb]
        by_cases hpa : p = a
        · subst hpa
          rw [ha] at hmem
          simpa using hmem
        · rwa [update_of_ne hpa]
  · intro P hmem hfinished
    rw [hfinished p] at hmem
    exact not_mem_nil hmem

/-- Two processes that send to each other wait forever. -/
theorem not_live_of_crossing (hs : ∀ p ∉ s, P p = []) {q : ι} {a b : M} {ps qs : List (Action ι M)}
    (hp : P p = .send q a :: ps) (hq : P q = .send p b :: qs) : ¬ Live P := by
  refine not_live_of_kept (I := fun P => P p = .send q a :: ps ∧ P q = .send p b :: qs) hs
    ⟨hp, hq⟩ ?_ ?_
  · rintro P P' ⟨hp, hq⟩ hstep
    cases hstep with
    | @exchange c d msg wanted cs ds hcd hc hd =>
      have hpd : p ≠ d := by
        rintro rfl
        rw [hp] at hd
        simp at hd
      have hqd : q ≠ d := by
        rintro rfl
        rw [hq] at hd
        simp at hd
      have hpc : p ≠ c := by
        rintro rfl
        rw [hp] at hc
        simp only [List.cons.injEq, Action.send.injEq] at hc
        exact hqd hc.1.1
      have hqc : q ≠ c := by
        rintro rfl
        rw [hq] at hc
        simp only [List.cons.injEq, Action.send.injEq] at hc
        exact hpd hc.1.1
      rw [update_of_ne hpd, update_of_ne hpc, update_of_ne hqd,
        update_of_ne hqc]
      exact ⟨hp, hq⟩
  · rintro P ⟨hp, -⟩ hfinished
    rw [hfinished p] at hp
    simp at hp

theorem Live.of_reaches (h : Live P) (hreach : Reaches P P') : Live P' :=
  fun P'' hreach' => h P'' (hreach.trans hreach')

end

end SyncChannels
