import Tenzor.Lib.Dataflow

/-!
# Storage shared between names

A placement gives every name of a straight-line program a location. Names may
share one: a write then destroys what the other had there. The program still
reads what it would read with a location for each name, as long as no write
goes to the location of a name that is defined and read later.
-/

namespace Dataflow

open Throwing List

variable {ν κ τ ε : Type} [DecidableEq ν] [DecidableEq κ]

/-- The statement over locations. -/
def Stmt.place (ρ : ν → κ) (s : Stmt ν τ ε) : Stmt κ τ ε where
  reads := s.reads.map ρ
  writes := s.writes.map ρ
  run := s.run

section Conflicts

variable (init : Store ν τ) (prog : List (Stmt ν τ ε)) (outs : List ν)

/-- Read from statement `k` on, or gathered at the end. -/
def Awaited (k : ℕ) (v : ν) : Prop :=
  v ∈ outs ∨ ∃ j s, k ≤ j ∧ prog[j]? = some s ∧ v ∈ s.reads

/-- Bound at the start or written before statement `k`. -/
def Assigned (k : ℕ) (v : ν) : Prop :=
  init v ≠ none ∨ ∃ j s, j < k ∧ prog[j]? = some s ∧ v ∈ s.writes

/-- No write reaches the location of another name that holds what is awaited. -/
def Apart (ρ : ν → κ) : Prop :=
  ∀ k s, prog[k]? = some s → ∀ w ∈ s.writes, ∀ v, Awaited prog outs (k + 1) v →
    Assigned init prog (k + 1) v → ρ v = ρ w → v = w

end Conflicts

/-- The locations hold what the names do, as far as it matters. -/
def Holds (P : ν → Prop) (ρ : ν → κ) (σ : Store ν τ) (σ' : Store κ τ) : Prop :=
  ∀ v x, P v → σ v = some x → σ' (ρ v) = some x

variable {init : Store ν τ} {prog : List (Stmt ν τ ε)} {outs : List ν} {ρ : ν → κ} {k : ℕ} {v : ν}
  {P : ν → Prop} {σ : Store ν τ} {σ' init' : Store κ τ} {ys : List τ} {missing : ν → ε}

omit [DecidableEq ν] in
theorem Awaited.of_succ (h : Awaited prog outs (k + 1) v) : Awaited prog outs k v :=
  h.imp_right fun ⟨j, s, hj, hget, hmem⟩ => ⟨j, s, Nat.le_of_succ_le hj, hget, hmem⟩

omit [DecidableEq ν] in
theorem Assigned.succ (h : Assigned init prog k v) : Assigned init prog (k + 1) v :=
  h.imp_right fun ⟨j, s, hj, hget, hmem⟩ => ⟨j, s, Nat.lt_succ_of_lt hj, hget, hmem⟩

theorem Holds.bindAll {ws : List ν} (h : Holds P ρ σ σ')
    (hws : ∀ w ∈ ws, ∀ v, P v → ρ v = ρ w → v = w) :
    Holds P ρ (bindAll σ ws ys) (bindAll σ' (ws.map ρ) ys) := by
  induction ws generalizing σ σ' ys with
  | nil => exact h
  | cons w rest ih =>
    obtain ⟨hw, hrest⟩ := forall_mem_cons.mp hws
    cases ys with
    | nil => exact h
    | cons y ys =>
      refine ih ?_ hrest
      intro v x hv hx
      by_cases hvw : v = w
      · subst hvw
        rw [Function.update_self] at hx ⊢
        exact hx
      · rw [Function.update_of_ne hvw] at hx
        rw [Function.update_of_ne fun heq => hvw (hw v hv heq)]
        exact h v x hv hx

omit [DecidableEq ν] [DecidableEq κ] in
theorem Holds.map_eq {names : List ν} {xs : List τ} (h : Holds P ρ σ σ') (hP : ∀ v ∈ names, P v)
    (hxs : names.map σ = xs.map some) : (names.map ρ).map σ' = xs.map some := by
  induction names generalizing xs with
  | nil => simpa using hxs
  | cons v rest ih =>
    obtain ⟨hv, hrest⟩ := forall_mem_cons.mp hP
    cases xs with
    | nil => simp at hxs
    | cons x xs =>
      simp only [map_cons, List.cons.injEq] at hxs ⊢
      exact ⟨h v x hv hxs.1, ih hrest hxs.2⟩

/-- The last of the first `k + 1` statements. -/
theorem execAll_take_succ (hs : prog[k]? = some s)
    (h : execAll missing (prog.take (k + 1)) init = .ok σ) :
    ∃ σ₀ xs ys, execAll missing (prog.take k) init = .ok σ₀ ∧ fetch missing σ₀ s.reads = .ok xs ∧
      s.run xs = .ok ys ∧ bindAll σ₀ s.writes ys = σ := by
  rw [take_add_one, hs, execAll, foldlM_append, bind_eq_ok] at h
  obtain ⟨σ₀, hσ₀, hlast⟩ := h
  obtain ⟨σ₁, hexec, hnil⟩ := foldlM_cons_eq_ok.mp hlast
  obtain rfl : σ₁ = σ := by simpa using hnil
  simp only [Stmt.exec, bind_eq_ok, pure_eq_ok] at hexec
  obtain ⟨xs, hxs, ys, hys, hσ⟩ := hexec
  exact ⟨σ₀, xs, ys, hσ₀, hxs, hys, hσ⟩

/-- What a name holds after `k` statements was bound or written before. -/
theorem assigned_of_execAll (h : execAll missing (prog.take k) init = .ok σ) (hv : σ v ≠ none) :
    Assigned init prog k v := by
  induction k generalizing σ v with
  | zero =>
    obtain rfl : init = σ := by simpa [execAll] using h
    exact .inl hv
  | succ k ih =>
    cases hs : prog[k]? with
    | none =>
      rw [take_of_length_le (by
        have hle := List.getElem?_eq_none_iff.mp hs
        omega)] at h
      have hk := ih (σ := σ) (by
        rwa [take_of_length_le (List.getElem?_eq_none_iff.mp hs)]) hv
      exact hk.succ
    | some s =>
      obtain ⟨σ₀, xs, ys, hσ₀, -, -, rfl⟩ := execAll_take_succ hs h
      by_cases hw : v ∈ s.writes
      · exact .inr ⟨k, s, Nat.lt_succ_self k, hs, hw⟩
      · rw [bindAll_of_not_mem hw] at hv
        exact (ih hσ₀ hv).succ

/-- As far as the program runs with a location for each name, it runs the same
with shared ones: every statement reads the same. -/
theorem execAll_place (missing' : κ → ε) (happart : Apart init prog outs ρ)
    (hinit : Holds (Awaited prog outs 0) ρ init init')
    (h : execAll missing (prog.take k) init = .ok σ) :
    ∃ σ', execAll missing' ((prog.map (Stmt.place ρ)).take k) init' = .ok σ' ∧
      Holds (Awaited prog outs k) ρ σ σ' := by
  induction k generalizing σ with
  | zero =>
    obtain rfl : init = σ := by simpa [execAll] using h
    exact ⟨init', rfl, hinit⟩
  | succ k ih =>
    cases hs : prog[k]? with
    | none =>
      have hlen := List.getElem?_eq_none_iff.mp hs
      rw [take_of_length_le (by omega)] at h
      obtain ⟨σ', hσ', hholds⟩ := ih (σ := σ) (by rwa [take_of_length_le hlen])
      refine ⟨σ', ?_, ?_⟩
      · rw [take_of_length_le (by rw [length_map]; omega)] at hσ' ⊢
        exact hσ'
      · intro v x hv hx
        exact hholds v x hv.of_succ hx
    | some s =>
      have hassigned : ∀ v, σ v ≠ none → Assigned init prog (k + 1) v := fun v hv =>
        assigned_of_execAll h hv
      obtain ⟨σ₀, xs, ys, hσ₀, hxs, hys, rfl⟩ := execAll_take_succ hs h
      obtain ⟨σ₀', hσ₀', hholds⟩ := ih hσ₀
      have hreads : fetch missing' σ₀' (s.place ρ).reads = .ok xs := by
        rw [fetch_eq_ok] at hxs ⊢
        exact hholds.map_eq (fun v hv => .inr ⟨k, s, Nat.le_refl k, hs, hv⟩) hxs
      refine ⟨bindAll σ₀' (s.writes.map ρ) ys, ?_, ?_⟩
      · rw [take_add_one, getElem?_map, hs, Option.map_some, execAll, foldlM_append, bind_eq_ok]
        refine ⟨σ₀', hσ₀', foldlM_cons_eq_ok.mpr ⟨_, ?_, rfl⟩⟩
        simp only [Stmt.exec, bind_eq_ok, pure_eq_ok]
        exact ⟨xs, hreads, ys, hys, rfl⟩
      · -- Only names that are awaited and assigned have to be held.
        have hsplit : Holds (fun v => Awaited prog outs (k + 1) v ∧
            Assigned init prog (k + 1) v) ρ (bindAll σ₀ s.writes ys)
            (bindAll σ₀' (s.writes.map ρ) ys) := by
          refine Holds.bindAll ?_ fun w hw v hv => happart k s hs w hw v hv.1 hv.2
          intro v x hv hx
          exact hholds v x hv.1.of_succ hx
        intro v x hv hx
        exact hsplit v x ⟨hv, hassigned v (by rw [hx]; exact Option.some_ne_none x)⟩ hx

/-- The outputs are the same. -/
theorem run_place {missingOut : ν → ε} {missing' missingOut' : κ → ε}
    (happart : Apart init prog outs ρ) (hinit : Holds (Awaited prog outs 0) ρ init init')
    (h : run missing missingOut init prog outs = .ok ys) :
    run missing' missingOut' init' (prog.map (Stmt.place ρ)) (outs.map ρ) = .ok ys := by
  simp only [run, bind_eq_ok] at h ⊢
  obtain ⟨σ, hσ, houts⟩ := h
  rw [← prog.take_length] at hσ
  obtain ⟨σ', hσ', hholds⟩ := execAll_place missing' happart hinit hσ
  rw [take_of_length_le (Nat.le_of_eq (length_map _))] at hσ'
  refine ⟨σ', hσ', ?_⟩
  rw [fetch_eq_ok] at houts ⊢
  exact hholds.map_eq (fun v hv => .inl hv) houts

end Dataflow
