import Mathlib.Data.List.Perm.Basic
import Tenzor.Lib.Dealing

/-!
# The distributed sampler

Each replica draws its share of an epoch's order of the dataset: every so many indices, from its rank
on, of the order made as long as a multiple of the number of replicas.

## Implementation notes

A count of indices is a natural number. The random shuffle of the standard library depends on its
seed and on the list that it is given.
-/

namespace Tenzor.Data

open Dealing

/-- A shuffle of the standard library: it only reorders what it is given. -/
structure Shuffler where
  shuffle : BitVec 64 → List ℕ → List ℕ
  perm : ∀ seed l, (shuffle seed l).Perm l

/-- A sampler as its constructor accepts it. -/
structure DistributedSampler where
  datasetSize : ℕ
  numReplicas : ℤ
  rank : ℤ
  shuffle : Bool
  seed : BitVec 64
  dropLast : Bool
  indices : List ℕ
  positive : 0 < numReplicas
  inRange : 0 ≤ rank ∧ rank < numReplicas

namespace DistributedSampler

/-- The order of an epoch: all indices, shuffled if the sampler does so. -/
def epochOrder (shuffler : Shuffler) (datasetSize : ℕ) (shuffle : Bool) (seed epoch : BitVec 64) :
    List ℕ :=
  let allIndices := List.range datasetSize
  if shuffle then shuffler.shuffle (seed + epoch) allIndices else allIndices

/-- One more index at the end: the one at this place modulo the size of the dataset. -/
def padOnce (datasetSize : ℕ) (allIndices : List ℕ) (i : ℕ) : List ℕ :=
  allIndices ++ [allIndices.getD (i % datasetSize) 0]

/-- The order made as long as a multiple of the number of replicas. -/
def evened (datasetSize numReplicas : ℕ) (dropLast : Bool) (allIndices : List ℕ) : List ℕ :=
  if !dropLast then
    let remainder := allIndices.length % numReplicas
    if remainder ≠ 0 then
      (List.range (numReplicas - remainder)).foldl (padOnce datasetSize) allIndices
    else allIndices
  else
    let perRank := allIndices.length / numReplicas
    allIndices.take (perRank * numReplicas)

def reset (shuffler : Shuffler) (sampler : DistributedSampler) (epoch : BitVec 64) :
    DistributedSampler :=
  let order := epochOrder shuffler sampler.datasetSize sampler.shuffle sampler.seed epoch
  let allIndices :=
    evened sampler.datasetSize sampler.numReplicas.toNat sampler.dropLast order
  { sampler with indices := deal allIndices sampler.numReplicas.toNat sampler.rank.toNat }

def construct (shuffler : Shuffler) (datasetSize : ℕ) (numReplicas rank : ℤ) (shuffle : Bool)
    (seed : BitVec 64) (dropLast : Bool) : Except String DistributedSampler :=
  if hpositive : numReplicas ≤ 0 then .error "num_replicas must be positive"
  else if hrange : rank < 0 ∨ numReplicas ≤ rank then
    .error "rank must be in [0, num_replicas)"
  else
    .ok (reset shuffler ⟨datasetSize, numReplicas, rank, shuffle, seed, dropLast, [],
      not_le.mp hpositive, not_lt.mp fun h => hrange (.inl h),
      not_le.mp fun h => hrange (.inr h)⟩ 0)

variable {datasetSize numReplicas : ℕ} {order : List ℕ}

/-- What an order repeats after its end. -/
def repeated (order : List ℕ) (n : ℕ) : List ℕ :=
  (List.range n).map fun i => order.getD (i % order.length) 0

theorem repeated_length (order : List ℕ) : repeated order order.length = order := by
  apply List.ext_getElem
  · simp [repeated]
  · intro i hi _
    have hlt : i < order.length := by simpa [repeated] using hi
    simp [repeated, Nat.mod_eq_of_lt hlt, hlt]

theorem foldl_padOnce (horder : order ≠ []) (n : ℕ) :
    (List.range n).foldl (padOnce order.length) order = repeated order (order.length + n) := by
  induction n with
  | zero => exact (repeated_length order).symm
  | succ n ih =>
    have hpos : 0 < order.length := List.length_pos_iff.mpr horder
    have hmod : n % order.length < order.length := Nat.mod_lt n hpos
    have hread : (repeated order (order.length + n)).getD (n % order.length) 0 =
        order.getD ((order.length + n) % order.length) 0 := by
      have hin : n % order.length < order.length + n := by omega
      simp [repeated, hin]
    rw [List.range_succ, List.foldl_append, ih, List.foldl_cons, padOnce, hread]
    simp [repeated, ← Nat.add_assoc, List.range_succ]

/-- The number of indices that each replica draws. -/
def perReplica (datasetSize numReplicas : ℕ) (dropLast : Bool) : ℕ :=
  if dropLast then datasetSize / numReplicas else (datasetSize + numReplicas - 1) / numReplicas

theorem perReplica_dropLast (datasetSize : ℕ) (hreplicas : 0 < numReplicas) :
    perReplica datasetSize numReplicas true * numReplicas ≤ datasetSize ∧
      datasetSize < perReplica datasetSize numReplicas true * numReplicas + numReplicas := by
  have hmod := Nat.mod_lt datasetSize hreplicas
  have hdiv := Nat.div_add_mod datasetSize numReplicas
  rw [Nat.mul_comm] at hdiv
  simp only [perReplica, if_true]
  omega

theorem perReplica_padded (datasetSize : ℕ) (hreplicas : 0 < numReplicas) :
    datasetSize ≤ perReplica datasetSize numReplicas false * numReplicas ∧
      perReplica datasetSize numReplicas false * numReplicas < datasetSize + numReplicas := by
  have hmod := Nat.mod_lt (datasetSize + numReplicas - 1) hreplicas
  have hdiv := Nat.div_add_mod (datasetSize + numReplicas - 1) numReplicas
  rw [Nat.mul_comm] at hdiv
  simp only [perReplica, Bool.false_eq_true, if_false]
  omega

/-- The padding makes the order as long as the least multiple that holds it. -/
theorem padding_eq (hreplicas : 0 < numReplicas) (hremainder : datasetSize % numReplicas ≠ 0) :
    datasetSize + (numReplicas - datasetSize % numReplicas) =
      perReplica datasetSize numReplicas false * numReplicas := by
  have hmod := Nat.mod_lt datasetSize hreplicas
  have hdiv := Nat.div_add_mod datasetSize numReplicas
  have hceil : perReplica datasetSize numReplicas false = datasetSize / numReplicas + 1 := by
    simp only [perReplica, Bool.false_eq_true, if_false]
    have hsplit : datasetSize + numReplicas - 1 =
        datasetSize % numReplicas - 1 + numReplicas * (datasetSize / numReplicas + 1) := by
      rw [Nat.mul_succ]
      omega
    rw [hsplit, Nat.add_mul_div_left _ _ hreplicas, Nat.div_eq_of_lt (by omega), Nat.zero_add]
  rw [hceil, Nat.succ_mul, Nat.mul_comm]
  omega

theorem evened_eq (hreplicas : 0 < numReplicas) (dropLast : Bool) (order : List ℕ) :
    evened order.length numReplicas dropLast order =
      if dropLast then order.take (perReplica order.length numReplicas dropLast * numReplicas)
      else repeated order (perReplica order.length numReplicas dropLast * numReplicas) := by
  cases dropLast with
  | true => rfl
  | false =>
    simp only [evened, Bool.not_false, if_true, Bool.false_eq_true, if_false]
    by_cases hremainder : order.length % numReplicas = 0
    · have hceil : perReplica order.length numReplicas false * numReplicas = order.length := by
        obtain ⟨hholds, hleast⟩ := perReplica_padded order.length hreplicas
        have hmultiple := Nat.div_mul_cancel (Nat.dvd_of_mod_eq_zero hremainder)
        have hge : order.length / numReplicas ≤ perReplica order.length numReplicas false :=
          Nat.le_of_mul_le_mul_right (hmultiple.trans_le hholds) hreplicas
        have hlt : perReplica order.length numReplicas false < order.length / numReplicas + 1 := by
          refine Nat.lt_of_mul_lt_mul_right (lt_of_lt_of_eq hleast ?_)
          rw [Nat.succ_mul, hmultiple]
        rw [Nat.le_antisymm (Nat.lt_succ_iff.mp hlt) hge, hmultiple]
      rw [if_neg (not_not.mpr hremainder), hceil, repeated_length]
    · have horder : order ≠ [] := by
        rintro rfl
        exact hremainder (Nat.zero_mod _)
      rw [if_pos hremainder, foldl_padOnce horder, padding_eq hreplicas hremainder]

theorem length_evened (hreplicas : 0 < numReplicas) (dropLast : Bool) (order : List ℕ) :
    (evened order.length numReplicas dropLast order).length =
      perReplica order.length numReplicas dropLast * numReplicas := by
  rw [evened_eq hreplicas]
  cases dropLast with
  | true =>
    obtain ⟨hholds, -⟩ := perReplica_dropLast order.length hreplicas
    simp [hholds]
  | false => simp [repeated]

/-- Without dropping, the evened order begins with the whole order. -/
theorem mem_evened (hreplicas : 0 < numReplicas) {index : ℕ} (hindex : index ∈ order) :
    index ∈ evened order.length numReplicas false order := by
  obtain ⟨hholds, -⟩ := perReplica_padded order.length hreplicas
  obtain ⟨i, hi, hread⟩ := List.mem_iff_getElem.mp hindex
  simp only [evened_eq hreplicas, Bool.false_eq_true, if_false, repeated, List.mem_map,
    List.mem_range]
  refine ⟨i, lt_of_lt_of_le hi hholds, ?_⟩
  rw [Nat.mod_eq_of_lt hi, List.getD_eq_getElem?_getD, List.getElem?_eq_getElem hi, hread,
    Option.getD_some]

theorem epochOrder_perm (shuffler : Shuffler) (datasetSize : ℕ) (shuffle : Bool)
    (seed epoch : BitVec 64) :
    (epochOrder shuffler datasetSize shuffle seed epoch).Perm (List.range datasetSize) := by
  simp only [epochOrder]
  split
  · exact shuffler.perm _ _
  · exact List.Perm.refl _

/-- The constructor accepts exactly the ranks below a positive number of replicas. -/
theorem exists_construct_iff (shuffler : Shuffler) (datasetSize : ℕ) (replicas rank : ℤ)
    (shuffle : Bool) (seed : BitVec 64) (dropLast : Bool) :
    (∃ sampler, construct shuffler datasetSize replicas rank shuffle seed dropLast =
      .ok sampler) ↔ 0 ≤ rank ∧ rank < replicas := by
  rw [construct]
  split
  · simp only [reduceCtorEq, exists_false, false_iff]
    omega
  · split
    · simp only [reduceCtorEq, exists_false, false_iff]
      omega
    · simp only [Except.ok.injEq, exists_eq', true_iff]
      omega

theorem indices_reset_of_construct {shuffler : Shuffler} {replicas rank : ℤ} {shuffle : Bool}
    {seed : BitVec 64} {dropLast : Bool} {sampler : DistributedSampler}
    (hsampler : construct shuffler datasetSize replicas rank shuffle seed dropLast =
      .ok sampler) (epoch : BitVec 64) :
    (reset shuffler sampler epoch).indices =
      deal (evened datasetSize replicas.toNat dropLast
        (epochOrder shuffler datasetSize shuffle seed epoch)) replicas.toNat rank.toNat := by
  rw [construct] at hsampler
  split at hsampler
  · cases hsampler
  · split at hsampler
    · cases hsampler
    · cases hsampler
      rfl

/-- The replicas of an epoch draw equally many indices. Laid together rank by rank these are the
order of the epoch, repeated from its start or cut to that many indices for each replica; and unless
the last indices are dropped, every index is drawn. -/
theorem replicas_share_epoch (shuffler : Shuffler) (datasetSize : ℕ) {replicas : ℤ}
    (hreplicas : 0 < replicas) (shuffle : Bool) (seed epoch : BitVec 64) (dropLast : Bool) :
    let order := epochOrder shuffler datasetSize shuffle seed epoch
    let count := perReplica datasetSize replicas.toNat dropLast
    ∃ drawn : ℕ → List ℕ,
      (∀ rank < replicas.toNat,
        ∃ sampler, construct shuffler datasetSize replicas rank shuffle seed dropLast =
            .ok sampler ∧
          (reset shuffler sampler epoch).indices = drawn rank ∧ (drawn rank).length = count) ∧
      order.Perm (List.range datasetSize) ∧
      interleave replicas.toNat count drawn =
        (if dropLast then order.take (count * replicas.toNat)
          else repeated order (count * replicas.toNat)) ∧
      (if dropLast then count * replicas.toNat ≤ datasetSize
        else datasetSize ≤ count * replicas.toNat) ∧
      (dropLast = false → ∀ index < datasetSize, ∃ rank < replicas.toNat, index ∈ drawn rank) := by
  intro order count
  have hpos : 0 < replicas.toNat := by omega
  have hperm : order.Perm (List.range datasetSize) := epochOrder_perm shuffler _ shuffle seed epoch
  have hsize : order.length = datasetSize := by
    rw [hperm.length_eq, List.length_range]
  have hlength := length_evened hpos dropLast order
  rw [hsize] at hlength
  refine ⟨deal (evened datasetSize replicas.toNat dropLast order) replicas.toNat, ?_, hperm, ?_,
    ?_, ?_⟩
  · intro rank hrank
    obtain ⟨sampler, hsampler⟩ := (exists_construct_iff shuffler datasetSize replicas rank shuffle
      seed dropLast).mpr ⟨Int.natCast_nonneg rank, by omega⟩
    refine ⟨sampler, hsampler, ?_, length_deal hlength hrank⟩
    rw [indices_reset_of_construct hsampler epoch, Int.toNat_natCast]
  · rw [interleave_deal hpos hlength]
    have hevened := evened_eq hpos dropLast order
    rw [hsize] at hevened
    exact hevened
  · cases dropLast with
    | true => exact (perReplica_dropLast datasetSize hpos).1
    | false => exact (perReplica_padded datasetSize hpos).1
  · rintro rfl index hindex
    apply exists_mem_deal hpos
    have hmem : index ∈ order := hperm.mem_iff.mpr (List.mem_range.mpr hindex)
    rw [← hsize]
    exact mem_evened hpos hmem

/-- Seven replicas of a dataset of three, so that the order is repeated more than once. -/
theorem replicas_share_epoch_seven :
    let shuffler : Shuffler := ⟨fun _ l => l.reverse, fun _ l => l.reverse_perm⟩
    let order := epochOrder shuffler 3 true 5 2
    let count := perReplica 3 (7 : ℤ).toNat false
    ∃ drawn : ℕ → List ℕ,
      (∀ rank < (7 : ℤ).toNat,
        ∃ sampler, construct shuffler 3 7 rank true 5 false = .ok sampler ∧
          (reset shuffler sampler 2).indices = drawn rank ∧ (drawn rank).length = count) ∧
      order.Perm (List.range 3) ∧
      interleave (7 : ℤ).toNat count drawn = repeated order (count * (7 : ℤ).toNat) ∧
      3 ≤ count * (7 : ℤ).toNat ∧
      (false = false → ∀ index < 3, ∃ rank < (7 : ℤ).toNat, index ∈ drawn rank) :=
  replicas_share_epoch ⟨fun _ l => l.reverse, fun _ l => l.reverse_perm⟩ 3 (by decide) true 5 2 false

end DistributedSampler

end Tenzor.Data
