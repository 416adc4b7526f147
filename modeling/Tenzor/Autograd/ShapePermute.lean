import Tenzor.Autograd.ShapeReads

/-!
# Permutations and their inverses

The backward of `permute` permutes by the inverse, which the constructor of its function computes
once.
-/

namespace Tenzor.ShapeOps

open Strided Reindexing Throwing List
open Int (ofNat toNat)

variable {R : Type}

theorem length_foldl_set (ps : List (ℕ × Int)) (l : List Int) :
    (ps.foldl (fun l p => l.set p.1 p.2) l).length = l.length := by
  induction ps generalizing l with
  | nil => rfl
  | cons p ps ih => rw [foldl_cons, ih, length_set]

/-- The entry at each listed position is what was set there last. -/
theorem getD_foldl_set {ps : List (ℕ × Int)} {l : List Int} {k : ℕ} {i : Int}
    (hnodup : (ps.map Prod.fst).Nodup) (hlt : ∀ p ∈ ps, p.1 < l.length) (hmem : (k, i) ∈ ps) :
    (ps.foldl (fun l p => l.set p.1 p.2) l).getD k 0 = i := by
  have hkeep : ∀ (ps : List (ℕ × Int)) (l : List Int), (∀ p ∈ ps, p.1 < l.length ∧ p.1 ≠ k) →
      (ps.foldl (fun l p => l.set p.1 p.2) l).getD k 0 = l.getD k 0 := by
    intro ps
    induction ps with
    | nil => exact fun _ _ => rfl
    | cons p ps ih =>
      intro l hps
      obtain ⟨⟨hp, hpk⟩, hps⟩ := forall_mem_cons.mp hps
      rw [foldl_cons, ih _ (by simpa using hps), getD_set _ _ _ _ _ hp,
        if_neg (Ne.symm hpk)]
  induction ps generalizing l with
  | nil => simp at hmem
  | cons p ps ih =>
    obtain ⟨hp, hlt'⟩ := forall_mem_cons.mp hlt
    obtain ⟨hnot, hnodup⟩ := nodup_cons.mp hnodup
    rw [foldl_cons]
    rcases mem_cons.mp hmem with rfl | hmem
    · rw [hkeep, getD_set_self _ hp]
      intro q hq
      rw [length_set]
      have hmem : q.1 ∈ ps.map Prod.fst := mem_map_of_mem hq
      exact ⟨hlt' q hq, fun he => hnot (he ▸ hmem)⟩
    · exact ih hnodup (by simpa using hlt') hmem

/-- What the constructor of `PermuteBackward` computes for a permutation. -/
theorem inverseDims_ok {dims inv : List Int} {pos : List ℕ}
    (hperm : pos.Perm (List.range pos.length))
    (hdims : dims.map (normalizeDim · dims.length) = pos.map ofNat)
    (h : inverseDims dims = .ok inv) :
    inv = (List.range pos.length).map fun j => (pos.idxOf j : Int) := by
  have hlen : dims.length = pos.length := by simpa using congrArg List.length hdims
  have hfold := foldlM_returns (fun inv (p : Int × ℕ) =>
    inv.set (normalizeDim p.1 dims.length).toNat (p.2 : Int)) h (by
      intro b p c hc
      simp only [bind_eq_ok, throwIf_eq_ok, pure_eq_ok] at hc
      obtain ⟨-, -, rfl⟩ := hc
      rfl)
  have hps : dims.zipIdx.map (fun p => ((normalizeDim p.1 dims.length).toNat, (p.2 : Int))) =
      pos.zipIdx.map fun p => (p.1, (p.2 : Int)) := by
    have hcast := congrArg (fun l => l.zipIdx.map fun p : Int × ℕ => (p.1.toNat, (p.2 : Int))) hdims
    simpa [zipIdx_map, Function.comp_def] using hcast
  have hinv : inv = (pos.zipIdx.map fun p => (p.1, (p.2 : Int))).foldl
      (fun l p => l.set p.1 p.2) (List.replicate dims.length 0) := by
    rw [hfold, ← hps, foldl_map]
  have hkeys : (pos.zipIdx.map fun p => (p.1, (p.2 : Int))).map Prod.fst = pos := by
    rw [map_map]
    exact zipIdx_map_fst 0 pos
  have hinvlen : inv.length = pos.length := by
    rw [hinv, length_foldl_set, length_replicate, hlen]
  apply ext_getD (by simp [hinvlen])
  intro j hj
  rw [hinvlen] at hj
  rw [hinv, getD_foldl_set (i := (pos.idxOf j : Int))]
  · rw [getD_eq_getElem _ _ (by simpa using hj), getElem_map, getElem_range]
  · rw [hkeys]
    exact hperm.nodup_iff.mpr nodup_range
  · intro p hp
    rw [length_replicate, hlen]
    refine (mem_of_perm_range hperm).mp ?_
    rw [← hkeys]
    exact mem_map_of_mem hp
  · refine mem_map.mpr ⟨(j, pos.idxOf j), ?_, rfl⟩
    have hlt := idxOf_lt_of_perm hperm hj
    rw [mk_mem_zipIdx_iff_getElem?, getElem?_eq_getElem hlt]
    exact congrArg some (getElem_idxOf hlt)

theorem exists_inverseDims {dims : List Int} (h : ∀ d ∈ dims, 0 ≤ d ∧ d < dims.length) :
    ∃ inv, inverseDims dims = .ok inv := by
  have hround : ∀ (ps : List (Int × ℕ)) (inv : List Int),
      (∀ p ∈ ps, 0 ≤ p.1 ∧ p.1 < (dims.length : Int)) → ∃ r, ps.foldlM (fun inv p => do
        let d := normalizeDim p.1 dims.length
        throwIf (d < 0 ∨ (dims.length : Int) ≤ d)
          (Exn.outOfRange "PermuteBackward: permutation dim out of range")
        return inv.set d.toNat (p.2 : Int)) inv = .ok r := by
    intro ps
    induction ps with
    | nil => exact fun inv _ => ⟨inv, rfl⟩
    | cons p ps ih =>
      intro inv hps
      obtain ⟨hp, hps⟩ := forall_mem_cons.mp hps
      obtain ⟨r, hr⟩ := ih (inv.set p.1.toNat (p.2 : Int)) hps
      have hnorm : normalizeDim p.1 dims.length = p.1 := if_neg (by omega)
      have hguard : ¬ (p.1 < 0 ∨ (dims.length : Int) ≤ p.1) := by omega
      refine ⟨r, foldlM_cons_eq_ok.mpr ⟨_, ?_, hr⟩⟩
      simp only [hnorm, throwIf_of_not hguard]
      rfl
  exact hround _ _ fun p hp => h p.1 (fst_mem_of_mem_zipIdx hp)

section Inverse

variable {pos : List ℕ} (hperm : pos.Perm (List.range pos.length)) {c : List Int}

include hperm

theorem scatter_gather (hc : c.length = pos.length) :
    Strided.scatter pos (Strided.gather pos c) = c := by
  apply ext_getD (by simp [hc])
  intro j hj
  rw [scatter_length] at hj
  rw [scatter_getD hj, gather_getD (idxOf_lt_of_perm hperm hj), getD_idxOf_of_perm hperm hj]

theorem gather_scatter (hc : c.length = pos.length) :
    Strided.gather pos (Strided.scatter pos c) = c := by
  apply ext_getD (by simp [hc])
  intro k hk
  rw [gather_length] at hk
  have hlt : pos.getD k 0 < pos.length := by
    rw [getD_eq_getElem _ _ hk]
    exact (mem_of_perm_range hperm).mp (getElem_mem hk)
  rw [gather_getD hk, scatter_getD hlt, idxOf_getD_of_perm hperm hk]

omit hperm in
theorem gather_inverse (l : List Int) :
    Strided.gather ((List.range pos.length).map pos.idxOf) l = Strided.scatter pos l := by
  rw [Strided.gather, map_map]
  rfl

/-- Reading through the inverse permutation is moving the entries back. -/
theorem scatter_inverse {inv : List ℕ} (hinvperm : inv.Perm (List.range inv.length))
    (hinv : inv = (List.range pos.length).map pos.idxOf) :
    Strided.scatter inv c = Strided.gather pos c := by
  have hlen : inv.length = pos.length := by simp [hinv]
  apply ext_getD (by simp [hlen])
  intro k hk
  rw [scatter_length] at hk
  have hk' : k < pos.length := by omega
  have hlt : pos.getD k 0 < pos.length := by
    rw [getD_eq_getElem _ _ hk']
    exact (mem_of_perm_range hperm).mp (getElem_mem hk')
  have hidx : inv.idxOf k = pos.getD k 0 := by
    have hget : inv.getD (pos.getD k 0) 0 = k := by
      rw [getD_eq_getElem _ _ (by omega)]
      simp only [hinv, getElem_map, getElem_range]
      exact idxOf_getD_of_perm hperm hk'
    conv_lhs => rw [← hget]
    exact idxOf_getD_of_perm hinvperm (by omega)
  rw [scatter_getD hk, gather_getD hk', hidx]

end Inverse

theorem foldlM_permuteStep {n : Int} {dims seen : List Int} (hdims : ∀ d ∈ dims, 0 ≤ d ∧ d < n)
    (hnodup : (seen ++ dims).Nodup) :
    dims.foldlM (TensorImpl.permuteStep n) seen = .ok (seen ++ dims) := by
  induction dims generalizing seen with
  | nil => simp
  | cons d dims ih =>
    obtain ⟨hd, hdims⟩ := forall_mem_cons.mp hdims
    have hsplit : seen ++ d :: dims = (seen ++ [d]) ++ dims := by simp
    rw [hsplit] at hnodup ⊢
    have hnot : d ∉ seen := by
      intro hmem
      have hdisj := (nodup_append.mp (nodup_append.mp hnodup).1).2.2
      exact hdisj d hmem d (by simp) rfl
    refine foldlM_cons_eq_ok.mpr ⟨seen ++ [d], ?_, ih hdims hnodup⟩
    have hnorm : normalizeDim d n = d := if_neg (by omega)
    simp only [TensorImpl.permuteStep, hnorm, bind_eq_ok, throwIf_eq_ok, pure_eq_ok]
    exact ⟨(), by omega, (), hnot, trivial⟩

namespace Tensor

variable {t y : Tensor R} {dims : List Int}

theorem permute_ok (h : t.permute dims = .ok y) :
    ∃ pos : List ℕ, pos.Perm (List.range pos.length) ∧ pos.length = t.shape.length ∧
      dims.map (normalizeDim · t.ndim) = pos.map ofNat ∧
      y.shape = Strided.gather pos t.shape ∧ Reads t y (Strided.scatter pos) := by
  simp only [permute, bind_eq_ok, throwIf_eq_ok] at h
  obtain ⟨-, hlen, result, hfold, h⟩ := h
  obtain ⟨-, hshape, hval⟩ := make_eq_ok.mp h
  obtain ⟨heq, hmem, hnodup⟩ := TensorImpl.permute_dims_ok (n := t.shape.length) hfold
  rw [nil_append] at heq
  rw [← heq] at hmem
  have hcast := TensorImpl.map_ofNat_toNat fun d hd => (hmem d hd).1
  have hl : (result.map toNat).length = t.shape.length := by
    have hl : (dims.length : Int) = t.ndim := not_not.mp hlen
    simp only [heq, length_map, ndim] at hl ⊢
    omega
  have hperm : (result.map toNat).Perm (List.range (result.map toNat).length) := by
    have hnd : (result.map toNat).Nodup := by
      have h := hnodup nodup_nil
      rw [← hcast] at h
      exact h.of_map
    have hsub : result.map toNat ⊆ List.range (result.map toNat).length := by
      intro k hk
      obtain ⟨d, hd, rfl⟩ := mem_map.mp hk
      have := hmem d hd
      exact mem_range.mpr (by omega)
    exact (subperm_of_subset hnd hsub).perm_of_length_le (by simp)
  refine ⟨result.map toNat, hperm, hl, heq.symm.trans hcast.symm, hshape, ?_, ?_⟩
  · intro c hc
    exact within_scatter hperm hl.symm (hshape ▸ hc)
  · intro c _
    rw [hval]

theorem exists_permute {t : Tensor R} (hlen : dims.length = t.shape.length)
    (hdims : ∀ d ∈ dims, 0 ≤ d ∧ d < t.ndim) (hnodup : dims.Nodup) :
    ∃ r, t.permute dims = .ok r := by
  have hnn : ∀ n ∈ Strided.gather (dims.map toNat) t.shape, 0 ≤ n := by
    intro n hn
    obtain ⟨k, hk, rfl⟩ := mem_map.mp hn
    obtain ⟨d, hd, rfl⟩ := mem_map.mp hk
    have hb := hdims d hd
    refine t.nonneg_getD ?_
    unfold Tensor.ndim at hb
    omega
  obtain ⟨r, hr, -⟩ :=
    exists_make (fun c => t.value (Strided.scatter (dims.map toNat) c)) hnn
  refine ⟨r, ?_⟩
  have hguard : ¬ (dims.length : Int) ≠ t.ndim := by
    rw [hlen]
    exact not_not.mpr rfl
  have hfold : dims.foldlM (TensorImpl.permuteStep t.ndim) [] = .ok ([] ++ dims) :=
    foldlM_permuteStep hdims hnodup
  simp only [permute, throwIf_of_not hguard]
  exact bind_eq_ok.mpr ⟨(), rfl, bind_eq_ok.mpr ⟨dims, hfold, hr⟩⟩

end Tensor

end Tenzor.ShapeOps
