import Tenzor.Lib.Throwing
import Mathlib.Data.List.Nodup

/-!
# Straight-line dataflow programs

A statement reads names from a store, computes, and writes its results back
under other names. A program is a list of statements, executed in order. When
every name is written once, the final store satisfies the equation of every
statement; and a store that satisfies all equations is what any execution in
dependency order computes. So a rewriting of a program is justified by one
solution of its equations, whatever the order of its statements.
-/

namespace Dataflow

open Throwing List
open Function (update update_of_ne update_self)

variable {ν τ ε : Type} [DecidableEq ν] {missing missingOut : ν → ε} {names ws outs : List ν}
  {xs ys : List τ} {v : ν} {known : ν → Prop}

/-- A value for each bound name. -/
abbrev Store (ν τ : Type) := ν → Option τ

structure Stmt (ν τ ε : Type) where
  reads : List ν
  writes : List ν
  run : List τ → Except ε (List τ)

/-- Bind names to results in order; the longer list is cut. -/
def bindAll : Store ν τ → List ν → List τ → Store ν τ
  | σ, w :: ws, y :: ys => bindAll (Function.update σ w (some y)) ws ys
  | σ, _, _ => σ

/-- Read the names in turn; `missing` is thrown for the first unbound one. -/
def fetch (missing : ν → ε) (σ : Store ν τ) (names : List ν) : Except ε (List τ) :=
  names.mapM fun v => match σ v with
    | some x => .ok x
    | none => .error (missing v)

def Stmt.exec (missing : ν → ε) (σ : Store ν τ) (s : Stmt ν τ ε) : Except ε (Store ν τ) := do
  let xs ← fetch missing σ s.reads
  let ys ← s.run xs
  return bindAll σ s.writes ys

def execAll (missing : ν → ε) (prog : List (Stmt ν τ ε)) (σ : Store ν τ) :
    Except ε (Store ν τ) :=
  prog.foldlM (Stmt.exec missing) σ

variable {σ : Store ν τ}

omit [DecidableEq ν] in
/-- Reading succeeds exactly when every name is bound. -/
theorem fetch_eq_ok : fetch missing σ names = .ok xs ↔ names.map σ = xs.map some := by
  unfold fetch
  induction names generalizing xs with
  | nil =>
    cases xs with
    | nil => simp
    | cons x xs => simp
  | cons v names ih =>
    rw [mapM_cons]
    simp only [bind_eq_ok, pure_eq_ok, map_cons]
    cases hv : σ v with
    | none =>
      cases xs with
      | nil => simp
      | cons x xs => simp
    | some x =>
      cases xs with
      | nil => simp
      | cons y ys =>
        simp only [Except.ok.injEq, map_cons, List.cons.injEq, Option.some.injEq]
        constructor
        · rintro ⟨a, rfl, zs, hzs, rfl, rfl⟩
          exact ⟨rfl, ih.mp hzs⟩
        · rintro ⟨rfl, h⟩
          exact ⟨x, rfl, ys, ih.mpr h, rfl, rfl⟩

variable {σ' : Store ν τ}

omit [DecidableEq ν] in
theorem map_eq_of_extends (h : ∀ v x, σ v = some x → σ' v = some x)
    (hxs : names.map σ = xs.map some) : names.map σ' = xs.map some := by
  induction names generalizing xs with
  | nil => simpa using hxs
  | cons v names ih =>
    cases xs with
    | nil => simp at hxs
    | cons x xs =>
      simp only [map_cons, List.cons.injEq] at hxs ⊢
      exact ⟨h v x hxs.1, ih hxs.2⟩

theorem bindAll_of_not_mem (h : v ∉ ws) : bindAll σ ws ys v = σ v := by
  induction ws generalizing σ ys with
  | nil => rfl
  | cons w ws ih =>
    cases ys with
    | nil => rfl
    | cons y ys =>
      simp only [mem_cons, not_or] at h
      rw [bindAll, ih h.2, update_of_ne h.1]

theorem bindAll_getElem (hnd : ws.Nodup) {i : Nat} {w : ν} (hi : ws[i]? = some w) :
    bindAll σ ws ys w = if i < ys.length then ys[i]? else σ w := by
  induction ws generalizing σ ys i with
  | nil => simp at hi
  | cons x ws ih =>
    rw [nodup_cons] at hnd
    cases ys with
    | nil => simp [bindAll]
    | cons y ys =>
      rw [bindAll]
      cases i with
      | zero =>
        obtain rfl : x = w := by simpa using hi
        rw [bindAll_of_not_mem hnd.1]
        simp
      | succ i =>
        have hne : w ≠ x := fun he => hnd.1 (he ▸ mem_of_getElem? hi)
        rw [ih hnd.2 hi, update_of_ne hne]
        simp

/-- Every bound name keeps its value when no bound name is written. -/
theorem bindAll_of_some {x : τ} (hfresh : ∀ w ∈ ws, σ w = none) (h : σ v = some x) :
    bindAll σ ws ys v = some x := by
  rw [bindAll_of_not_mem fun hv => by simp [hfresh v hv] at h]
  exact h

/-- The store satisfies the equation of the statement. -/
def Stmt.Holds (E : Store ν τ) (s : Stmt ν τ ε) : Prop :=
  ∃ xs ys, s.reads.map E = xs.map some ∧ s.run xs = .ok ys ∧
    ∀ (i : Nat) (w : ν), s.writes[i]? = some w → E w = ys[i]?

/-- The store extends the initial one and satisfies every equation. -/
structure Solves (init : Store ν τ) (prog : List (Stmt ν τ ε)) (E : Store ν τ) : Prop where
  init : ∀ v x, init v = some x → E v = some x
  holds : ∀ s ∈ prog, s.Holds E

/-- Every name is written at most once, and no initially bound name is. -/
structure SingleAssignment (init : Store ν τ) (prog : List (Stmt ν τ ε)) : Prop where
  nodup : (prog.flatMap Stmt.writes).Nodup
  fresh : ∀ s ∈ prog, ∀ w ∈ s.writes, init w = none

variable {prog : List (Stmt ν τ ε)}

theorem exec_of_not_mem (h : execAll missing prog σ = .ok σ') (hv : v ∉ prog.flatMap Stmt.writes) :
    σ' v = σ v := by
  induction prog generalizing σ with
  | nil =>
    obtain rfl : σ = σ' := by simpa [execAll] using h
    rfl
  | cons s prog ih =>
    obtain ⟨σ₁, h₁, hrest⟩ := foldlM_cons_eq_ok.mp h
    simp only [Stmt.exec, bind_eq_ok, pure_eq_ok] at h₁
    obtain ⟨xs, -, ys, -, rfl⟩ := h₁
    rw [flatMap_cons, mem_append, not_or] at hv
    rw [ih hrest hv.2, bindAll_of_not_mem hv.1]

/-- The final store of an execution solves the equations. -/
theorem solves_of_execAll (hsa : SingleAssignment σ prog) (h : execAll missing prog σ = .ok σ') :
    Solves σ prog σ' := by
  induction prog generalizing σ with
  | nil =>
    obtain rfl : σ = σ' := by simpa [execAll] using h
    exact ⟨fun _ _ h => h, by simp⟩
  | cons s prog ih =>
    obtain ⟨σ₁, h₁, hrest⟩ := foldlM_cons_eq_ok.mp h
    simp only [Stmt.exec, bind_eq_ok, pure_eq_ok] at h₁
    obtain ⟨xs, hxs, ys, hys, rfl⟩ := h₁
    have hxs : s.reads.map σ = xs.map some := fetch_eq_ok.mp hxs
    have hnd : (s.writes ++ prog.flatMap Stmt.writes).Nodup := hsa.nodup
    have hsep : ∀ w ∈ s.writes, w ∉ prog.flatMap Stmt.writes := fun w hw hw' =>
      (nodup_append.mp hnd).2.2 w hw w hw' rfl
    have hsa' : SingleAssignment (bindAll σ s.writes ys) prog := by
      refine ⟨hnd.of_append_right, fun s' hs' w hw => ?_⟩
      have hmem : w ∈ prog.flatMap Stmt.writes := mem_flatMap.mpr ⟨s', hs', hw⟩
      rw [bindAll_of_not_mem fun hw' => hsep w hw' hmem]
      exact hsa.fresh s' (by simp [hs']) w hw
    have hsol := ih hsa' hrest
    have hkeep : ∀ v x, σ v = some x → σ' v = some x := fun v x hv =>
      hsol.init v x (bindAll_of_some (hsa.fresh s (by simp)) hv)
    refine ⟨hkeep, fun s' hs' => ?_⟩
    obtain rfl | hs' := mem_cons.mp hs'
    · refine ⟨xs, ys, ?_, hys, fun i w hi => ?_⟩
      · exact map_eq_of_extends hkeep hxs
      · have hw : w ∈ s'.writes := mem_of_getElem? hi
        rw [exec_of_not_mem hrest (hsep w hw), bindAll_getElem hnd.of_append_left hi]
        split_ifs with hlt
        · rfl
        · rw [hsa.fresh s' (by simp) w hw, getElem?_eq_none (Nat.not_lt.mp hlt)]
    · exact hsol.holds s' hs'

/-- Every name a statement reads is known when its turn comes. -/
def Available (known : ν → Prop) : List (Stmt ν τ ε) → Prop
  | [] => True
  | s :: prog => (∀ v ∈ s.reads, known v) ∧ Available (fun v => known v ∨ v ∈ s.writes) prog

omit [DecidableEq ν] in
/-- Availability, read off the place of each statement in the list. -/
theorem available_of_split (h : ∀ before s after, prog = before ++ s :: after → ∀ v ∈ s.reads,
      known v ∨ ∃ s' ∈ before, v ∈ s'.writes) : Available known prog := by
  induction prog generalizing known with
  | nil => trivial
  | cons s prog ih =>
    refine ⟨fun v hv => ?_, ih fun before t after hsplit v hv => ?_⟩
    · simpa using h [] s prog rfl v hv
    · obtain hk | ⟨s', hs', hw⟩ := h (s :: before) t after (by rw [hsplit]; rfl) v hv
      · exact .inl (.inl hk)
      · obtain rfl | hs' := mem_cons.mp hs'
        · exact .inl (.inr hw)
        · exact .inr ⟨s', hs', hw⟩

variable {E : Store ν τ}

/-- Writing what a solution says keeps agreement with the solution. -/
theorem bindAll_agrees (hσ : ∀ v x, σ v = some x → E v = some x)
    (hw : ∀ (i : Nat) (w : ν), ws[i]? = some w → E w = ys[i]?) :
    (∀ v x, bindAll σ ws ys v = some x → E v = some x) ∧
      ∀ v, σ v = E v ∨ v ∈ ws → bindAll σ ws ys v = E v := by
  induction ws generalizing σ ys with
  | nil => exact ⟨hσ, fun v hv => by simpa [bindAll] using hv⟩
  | cons w ws ih =>
    have hrest : ∀ (i : Nat) (w' : ν), ws[i]? = some w' → E w' = ys[i + 1]? :=
      fun i w' hi => hw (i + 1) w' (by simpa using hi)
    cases ys with
    | nil =>
      refine ⟨hσ, fun v hv => ?_⟩
      obtain hv | hv := hv
      · exact hv
      · obtain ⟨i, hi⟩ := getElem?_of_mem hv
        have hnone : E v = none := hw i v hi
        cases hσv : σ v with
        | none => simpa [bindAll, hnone] using hσv
        | some x => simp [hσ v x hσv] at hnone
    | cons y ys =>
      have hy : E w = some y := hw 0 w rfl
      have hσ' : ∀ v x, update σ w (some y) v = some x → E v = some x := by
        intro v x hv
        by_cases hvw : v = w
        · subst hvw
          rw [update_self] at hv
          rw [hy, hv]
        · rw [update_of_ne hvw] at hv
          exact hσ v x hv
      have hrest' : ∀ (i : Nat) (w' : ν), ws[i]? = some w' → E w' = ys[i]? :=
        fun i w' hi => by simpa using hrest i w' hi
      obtain ⟨h₁, h₂⟩ := ih hσ' hrest'
      refine ⟨h₁, fun v hv => h₂ v ?_⟩
      by_cases hvw : v = w
      · subst hvw
        exact .inl (by rw [update_self, hy])
      · rw [update_of_ne hvw]
        exact hv.imp_right fun h => (mem_cons.mp h).resolve_left hvw

/-- A solution is what an execution in dependency order computes. -/
theorem execAll_of_solution (hE : ∀ s ∈ prog, s.Holds E) (hav : Available known prog)
    (hσ : ∀ v x, σ v = some x → E v = some x) (hk : ∀ v, known v → σ v = E v) :
    ∃ σ', execAll missing prog σ = .ok σ' ∧
      ∀ v, known v ∨ v ∈ prog.flatMap Stmt.writes → σ' v = E v := by
  induction prog generalizing σ known with
  | nil => exact ⟨σ, rfl, fun v hv => hk v (by simpa using hv)⟩
  | cons s prog ih =>
    obtain ⟨xs, ys, hxs, hys, hw⟩ := hE s (by simp)
    have hfetch : fetch missing σ s.reads = .ok xs := by
      rw [fetch_eq_ok, ← hxs]
      exact map_congr_left fun v hv => hk v (hav.1 v hv)
    have hstep : s.exec missing σ = .ok (bindAll σ s.writes ys) := by
      simp only [Stmt.exec, bind_eq_ok, pure_eq_ok]
      exact ⟨xs, hfetch, ys, hys, rfl⟩
    obtain ⟨h₁, h₂⟩ := bindAll_agrees hσ hw
    have hk' : ∀ v, known v ∨ v ∈ s.writes → bindAll σ s.writes ys v = E v :=
      fun v hv => h₂ v (hv.imp_left (hk v))
    obtain ⟨σ', hrun, hfinal⟩ := ih (fun s' hs' => hE s' (by simp [hs'])) hav.2 h₁ hk'
    refine ⟨σ', foldlM_cons_eq_ok.mpr ⟨_, hstep, hrun⟩, fun v hv => hfinal v ?_⟩
    simpa [or_assoc] using hv

/-- Execute the statements and read the outputs. -/
def run (missing missingOut : ν → ε) (init : Store ν τ) (prog : List (Stmt ν τ ε))
    (outs : List ν) : Except ε (List τ) := do
  let σ ← execAll missing prog init
  fetch missingOut σ outs

/-- Some solution of the equations has these outputs. -/
def Yields (init : Store ν τ) (prog : List (Stmt ν τ ε)) (outs : List ν) (ys : List τ) : Prop :=
  ∃ E, Solves init prog E ∧ outs.map E = ys.map some

variable {init : Store ν τ}

theorem yields_of_run (hsa : SingleAssignment init prog)
    (h : run missing missingOut init prog outs = .ok ys) : Yields init prog outs ys := by
  simp only [run, bind_eq_ok] at h
  obtain ⟨σ, hexec, hfetch⟩ := h
  exact ⟨σ, solves_of_execAll hsa hexec, fetch_eq_ok.mp hfetch⟩

theorem run_of_yields (hav : Available (fun v => init v ≠ none) prog)
    (houts : ∀ v ∈ outs, init v ≠ none ∨ v ∈ prog.flatMap Stmt.writes)
    (h : Yields init prog outs ys) : run missing missingOut init prog outs = .ok ys := by
  obtain ⟨E, hE, hys⟩ := h
  have hk : ∀ v, init v ≠ none → init v = E v := by
    intro v hv
    obtain ⟨x, hx⟩ := Option.ne_none_iff_exists'.mp hv
    rw [hx, hE.init v x hx]
  obtain ⟨σ, hexec, hσ⟩ := execAll_of_solution hE.holds hav hE.init hk
  simp only [run, bind_eq_ok]
  refine ⟨σ, hexec, fetch_eq_ok.mpr ?_⟩
  rw [← hys]
  exact map_congr_left fun v hv => hσ v (houts v hv)

end Dataflow
