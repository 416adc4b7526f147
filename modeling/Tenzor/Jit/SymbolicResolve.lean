import Tenzor.Jit.SymbolicShape
import Mathlib.Data.List.GetD

/-!
# Resolving symbolic shapes

What an operator or a broadcast builds before the names are bound resolves to
what the numbers give afterwards. For the operators this holds wherever the
arithmetic is defined. The broadcast of two dimensions that are both numbers or
both unknown takes the larger one, which is the broadcast unless a size of one
meets a smaller size.
-/

namespace Tenzor.Jit

open Throwing Wrap64 List

namespace SymbolicShapeEnvironment

variable {env : SymbolicShapeEnvironment} {a b d1 d2 : SymbolicDim} {x y v1 v2 v : Int}
  {sizes : List Int}

theorem resolve_expr {op : ExprOp} (ha : env.resolve a = .ok x) (hb : env.resolve b = .ok y) :
    env.resolve (.expr op a b) = applyOp op x y := by
  simp only [resolve, ha, hb, Except.bind, Bind.bind]

@[simp] theorem resolve_concrete {n : Int} : env.resolve (.concrete n) = .ok x ↔ n = x := by
  simp [resolve]

theorem resolve_add (ha : env.resolve a = .ok x) (hb : env.resolve b = .ok y)
    (hfit : InInt64 (x + y)) : env.resolve (a.add b) = .ok (x + y) := by
  unfold SymbolicDim.add
  split
  · rw [resolve_concrete] at ha hb ⊢
    rw [ha, hb, wrap64_of_inInt64 hfit]
  · split_ifs with hr hl
    · rw [hr, resolve_concrete] at hb
      rwa [← hb, add_zero]
    · rw [hl, resolve_concrete] at ha
      rwa [← ha, zero_add]
    · rw [resolve_expr ha hb, applyOp, wrap64_of_inInt64 hfit]

theorem resolve_sub (ha : env.resolve a = .ok x) (hb : env.resolve b = .ok y)
    (hfit : InInt64 (x - y)) : env.resolve (a.sub b) = .ok (x - y) := by
  unfold SymbolicDim.sub
  split
  · rw [resolve_concrete] at ha hb ⊢
    rw [ha, hb, wrap64_of_inInt64 hfit]
  · split_ifs with hr
    · rw [hr, resolve_concrete] at hb
      rwa [← hb, sub_zero]
    · rw [resolve_expr ha hb, applyOp, wrap64_of_inInt64 hfit]

theorem resolve_mul (ha : env.resolve a = .ok x) (hb : env.resolve b = .ok y)
    (hfit : InInt64 (x * y)) : env.resolve (a.mul b) = .ok (x * y) := by
  unfold SymbolicDim.mul
  split
  · rw [resolve_concrete] at ha hb ⊢
    rw [ha, hb, wrap64_of_inInt64 hfit]
  · split_ifs with hr0 hl0 hr1 hl1
    · rw [hr0, resolve_concrete] at hb
      rw [resolve_concrete, ← hb, mul_zero]
    · rw [hl0, resolve_concrete] at ha
      rw [resolve_concrete, ← ha, zero_mul]
    · rw [hr1, resolve_concrete] at hb
      rwa [← hb, mul_one]
    · rw [hl1, resolve_concrete] at ha
      rwa [← ha, one_mul]
    · rw [resolve_expr ha hb, applyOp, wrap64_of_inInt64 hfit]

theorem resolve_div (ha : env.resolve a = .ok x) (hb : env.resolve b = .ok y) (hy : y ≠ 0)
    (hfit : InInt64 (x.tdiv y)) :
    ∃ q, a.div b = .ok q ∧ env.resolve q = .ok (x.tdiv y) := by
  unfold SymbolicDim.div
  split
  · rw [resolve_concrete] at ha hb
    rw [ha, hb, if_neg hy]
    refine ⟨_, rfl, ?_⟩
    rw [resolve_concrete, wrap64_of_inInt64 hfit]
  · split_ifs with hr hl
    · rw [hr, resolve_concrete] at hb
      refine ⟨_, rfl, ?_⟩
      rwa [← hb, Int.tdiv_one]
    · rw [hl, resolve_concrete] at ha
      refine ⟨_, rfl, ?_⟩
      rw [resolve_concrete, ← ha, Int.zero_tdiv]
    · refine ⟨_, rfl, ?_⟩
      rw [resolve_expr ha hb, applyOp, if_neg hy, wrap64_of_inInt64 hfit]

/-- Each operator resolves to the operation on numbers wherever that is defined
and a word. -/
structure OperatorsResolve (env : SymbolicShapeEnvironment) (a b : SymbolicDim) (x y : Int) :
    Prop where
  add : InInt64 (x + y) → env.resolve (a.add b) = .ok (x + y)
  sub : InInt64 (x - y) → env.resolve (a.sub b) = .ok (x - y)
  mul : InInt64 (x * y) → env.resolve (a.mul b) = .ok (x * y)
  div : y ≠ 0 → InInt64 (x.tdiv y) → ∃ q, a.div b = .ok q ∧ env.resolve q = .ok (x.tdiv y)

theorem operatorsResolve (ha : env.resolve a = .ok x) (hb : env.resolve b = .ok y) :
    OperatorsResolve env a b x y :=
  ⟨resolve_add ha hb, resolve_sub ha hb, resolve_mul ha hb, resolve_div ha hb⟩

/-- A size of one on one side and a smaller one on the other. -/
def UnitMeetsSmaller (v1 v2 : Int) : Prop := (v1 = 1 ∧ v2 < 1) ∨ (v2 = 1 ∧ v1 < 1)

theorem broadcastSize_cases (h : broadcastSize v1 v2 = .ok v) :
    (v1 = v2 ∧ v = v1) ∨ (v1 = 1 ∧ v = v2) ∨ (v2 = 1 ∧ v = v1) := by
  unfold broadcastSize at h
  split_ifs at h with heq h1 h2
  · exact .inl ⟨heq, (Except.ok.inj h).symm⟩
  · exact .inr (.inl ⟨h1, (Except.ok.inj h).symm⟩)
  · exact .inr (.inr ⟨h2, (Except.ok.inj h).symm⟩)

/-- The larger size is the broadcast unless a size of one meets a smaller one. -/
theorem max_eq_broadcastSize (h : broadcastSize v1 v2 = .ok v) :
    max v1 v2 = v ↔ ¬ UnitMeetsSmaller v1 v2 := by
  unfold UnitMeetsSmaller
  rcases broadcastSize_cases h with ⟨rfl, rfl⟩ | ⟨rfl, rfl⟩ | ⟨rfl, rfl⟩ <;> omega

theorem exists_concrete {d : SymbolicDim} (h : d.isConcrete = true) : ∃ n, d = .concrete n := by
  cases d with
  | concrete n => exact ⟨n, rfl⟩
  | symbolic name => cases h
  | expr op lhs rhs => cases h

theorem not_unitMeetsSmaller_self (v : Int) : ¬ UnitMeetsSmaller v v := by
  unfold UnitMeetsSmaller
  omega

/-- The dimension that broadcasting picks always exists and resolves. It is the
broadcast of the numbers unless both are numbers, or both unknown, and a size
of one meets a smaller one. -/
theorem broadcastDim_resolves (h1 : env.resolve d1 = .ok v1) (h2 : env.resolve d2 = .ok v2)
    (h : broadcastSize v1 v2 = .ok v) :
    ∃ d w, broadcastDim d1 d2 = .ok d ∧ env.resolve d = .ok w ∧
      (w = v ↔ (d1.isConcrete = d2.isConcrete → ¬ UnitMeetsSmaller v1 v2)) := by
  have hcases := broadcastSize_cases h
  unfold broadcastDim
  split
  · rename_i n1 n2
    rw [resolve_concrete] at h1 h2
    subst h1 h2
    have hbroad : n1 = n2 ∨ n1 = 1 ∨ n2 = 1 := by tauto
    refine ⟨_, _, if_pos hbroad, rfl, ?_⟩
    rw [max_eq_broadcastSize h]
    simp [SymbolicDim.isConcrete]
  · rename_i hnot
    -- One of the two is unknown, and a number on the other side decides.
    have hmixed : ∀ d, (d1.isConcrete = true ∨ d2.isConcrete = true) → env.resolve d = .ok v →
        ∃ d' w, Except.ok d = Except.ok (ε := Exn) d' ∧ env.resolve d' = .ok w ∧
          (w = v ↔ (d1.isConcrete = d2.isConcrete → ¬ UnitMeetsSmaller v1 v2)) := by
      intro d hone hd
      refine ⟨d, v, rfl, hd, iff_of_true rfl fun hsame => ?_⟩
      rw [hsame, or_self] at hone
      obtain ⟨n1, rfl⟩ := exists_concrete (hsame.trans hone)
      obtain ⟨n2, rfl⟩ := exists_concrete hone
      exact absurd rfl (hnot n1 n2 rfl)
    split_ifs with hd1 hd2 hc1 hc2 heq
    · subst hd1
      rw [resolve_concrete] at h1
      apply hmixed d2 (.inl rfl)
      obtain rfl : v = v2 := by omega
      exact h2
    · subst hd2
      rw [resolve_concrete] at h2
      apply hmixed d1 (.inr rfl)
      obtain rfl : v = v1 := by omega
      exact h1
    · apply hmixed d1 (.inl hc1)
      obtain ⟨n, rfl⟩ := exists_concrete hc1
      rw [resolve_concrete] at h1
      have hne : v1 ≠ 1 := fun hv => hd1 (by rw [h1, hv])
      obtain rfl : v = v1 := by omega
      rw [resolve_concrete]
      exact h1
    · apply hmixed d2 (.inr hc2)
      obtain ⟨n, rfl⟩ := exists_concrete hc2
      rw [resolve_concrete] at h2
      have hne : v2 ≠ 1 := fun hv => hd2 (by rw [h2, hv])
      obtain rfl : v = v2 := by omega
      rw [resolve_concrete]
      exact h2
    · subst heq
      obtain rfl : v1 = v2 := Except.ok.inj (h1.symm.trans h2)
      obtain rfl : v = v1 := by omega
      exact ⟨d1, v, rfl, h1, iff_of_true rfl fun _ => not_unitMeetsSmaller_self v⟩
    · refine ⟨_, _, rfl, resolve_expr h1 h2, ?_⟩
      have hmax : (if v2 < v1 then v1 else v2) = max v1 v2 := by
        split_ifs <;> omega
      rw [hmax, max_eq_broadcastSize h]
      simp [hc1, hc2]

theorem length_of_mapM {α β : Type} {f : α → Except Exn β} {l : List α} {bs : List β}
    (h : l.mapM f = .ok bs) : bs.length = l.length :=
  (mapM_eq_ok.mp h).length_eq.symm

/-- Resolving commutes with reading from the right. -/
theorem resolve_fromRight {shape : SymbolicShape} (h : env.resolveShape shape = .ok sizes) (i : ℕ) :
    env.resolve (fromRight shape (.concrete 1) i) = .ok (fromRight sizes 1 i) := by
  have hall := mapM_eq_ok.mp h
  have hlen := hall.length_eq
  unfold fromRight
  by_cases hi : i < shape.length
  · rw [if_pos hi, if_pos (hlen ▸ hi), ← hlen, getD_eq_getElem _ _ (by omega),
      getD_eq_getElem _ _ (by omega)]
    exact forall₂_iff_get.mp hall |>.2 _ (by omega) (by omega)
  · rw [if_neg hi, if_neg (hlen ▸ hi)]
    rfl

/-- The dimensions picked one by one resolve to the sizes broadcast one by one,
where none of them takes the larger size in place of a smaller one. -/
theorem picks_resolve {l : List ℕ} {pick : ℕ → Except Exn SymbolicDim} {P : ℕ → Prop}
    {size : ℕ → Except Exn Int} (h : List.Forall₂ (fun i n => size i = .ok n) l sizes)
    (hpick : ∀ i n, size i = .ok n → ∃ d w, pick i = .ok d ∧ env.resolve d = .ok w ∧ (w = n ↔ P i)) :
    ∃ dims ws, List.Forall₂ (fun i d => pick i = .ok d) l dims ∧
      List.Forall₂ (fun d w => env.resolve d = .ok w) dims ws ∧ (ws = sizes ↔ ∀ i ∈ l, P i) := by
  induction h with
  | nil => exact ⟨[], [], .nil, .nil, by simp⟩
  | cons hn _ ih =>
    obtain ⟨d, w, hd, hw, hiff⟩ := hpick _ _ hn
    obtain ⟨dims, ws, hdims, hws, hrest⟩ := ih
    refine ⟨d :: dims, w :: ws, .cons hd hdims, .cons hw hws, ?_⟩
    rw [List.cons.injEq, hiff, hrest, forall_mem_cons]

/-- Broadcasting the symbolic shapes always returns where the numbers can be
broadcast, and resolves to their broadcast unless two dimensions that are both
numbers or both unknown resolve to one and to less. -/
theorem broadcastSymbolicShapes_resolves {s1 s2 : SymbolicShape} {r1 r2 r : List Int}
    (h1 : env.resolveShape s1 = .ok r1) (h2 : env.resolveShape s2 = .ok r2)
    (h : broadcastShapes r1 r2 = .ok r) :
    (∃ s, broadcastSymbolicShapes s1 s2 = .ok s ∧ env.resolveShape s = .ok r) ↔
      ∀ i < max s1.length s2.length,
        (fromRight s1 (.concrete 1) i).isConcrete = (fromRight s2 (.concrete 1) i).isConcrete →
          ¬ UnitMeetsSmaller (fromRight r1 1 i) (fromRight r2 1 i) := by
  rw [broadcastShapes, length_of_mapM h1, length_of_mapM h2, bind_eq_ok] at h
  obtain ⟨sizes, hsizes, hr⟩ := h
  obtain rfl := pure_eq_ok.mp hr
  obtain ⟨dims, ws, hdims, hws, hiff⟩ := picks_resolve (mapM_eq_ok.mp hsizes) fun i n hn =>
    broadcastDim_resolves (resolve_fromRight h1 i) (resolve_fromRight h2 i) hn
  have hsym : broadcastSymbolicShapes s1 s2 = .ok dims.reverse :=
    bind_eq_ok.mpr ⟨dims, mapM_eq_ok.mpr hdims, rfl⟩
  have hres : env.resolveShape dims.reverse = .ok ws.reverse :=
    mapM_eq_ok.mpr (forall₂_reverse_iff.mpr hws)
  simp only [mem_range] at hiff
  rw [← hiff]
  constructor
  · rintro ⟨s, hs, hrs⟩
    obtain rfl := Except.ok.inj (hsym.symm.trans hs)
    exact reverse_injective (Except.ok.inj (hres.symm.trans hrs))
  · rintro rfl
    exact ⟨_, hsym, hres⟩

/-- Symbolic shapes commute with binding: the operators always do, and a
broadcast does exactly when no two aligned dimensions that are both numbers or
both unknown resolve to one and to less. -/
theorem symbolic_commutes_iff (env : SymbolicShapeEnvironment) :
    (∀ (s1 s2 : SymbolicShape) (r1 r2 r : List Int), env.resolveShape s1 = .ok r1 →
      env.resolveShape s2 = .ok r2 → broadcastShapes r1 r2 = .ok r →
      ((∃ s, broadcastSymbolicShapes s1 s2 = .ok s ∧ env.resolveShape s = .ok r) ↔
        ∀ i < max s1.length s2.length,
          (fromRight s1 (.concrete 1) i).isConcrete = (fromRight s2 (.concrete 1) i).isConcrete →
            ¬ UnitMeetsSmaller (fromRight r1 1 i) (fromRight r2 1 i))) ∧
    ∀ (a b : SymbolicDim) (x y : Int), env.resolve a = .ok x → env.resolve b = .ok y →
      OperatorsResolve env a b x y := by
  constructor
  · intro s1 s2 r1 r2 r h1 h2 h
    exact broadcastSymbolicShapes_resolves h1 h2 h
  · intro a b x y ha hb
    exact operatorsResolve ha hb

/-- A batch of four, and two rows. -/
def batchEnvironment : SymbolicShapeEnvironment := ⟨Dict.ofEntries [("batch", 4), ("rows", 2)]⟩

theorem symbolic_commutes_batch :
    (∃ s, broadcastSymbolicShapes [.symbolic "batch", .concrete 1] [.symbolic "rows"] = .ok s ∧
      batchEnvironment.resolveShape s = .ok [4, 2]) ∧
    OperatorsResolve batchEnvironment (.symbolic "batch") (.symbolic "rows") 4 2 := by
  obtain ⟨hbroad, hops⟩ := symbolic_commutes_iff batchEnvironment
  refine ⟨(hbroad _ _ [4, 1] [2] [4, 2] rfl rfl rfl).mpr ?_, hops _ _ 4 2 rfl rfl⟩
  unfold UnitMeetsSmaller
  decide

/-- An empty axis against an axis of size one is broadcast to size one, where
the sizes broadcast to zero. -/
theorem empty_axis_lost :
    ∃ s, broadcastSymbolicShapes [.concrete 0] [.concrete 1] = .ok s ∧
      batchEnvironment.resolveShape s ≠ broadcastShapes [0] [1] := by
  exact ⟨_, rfl, by decide⟩

end SymbolicShapeEnvironment

end Tenzor.Jit
