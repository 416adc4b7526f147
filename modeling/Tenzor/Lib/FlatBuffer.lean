import Mathlib.Data.List.FinRange
import Mathlib.Algebra.BigOperators.Group.List.Basic
import Mathlib.Tactic.Ring

/-!
# Flat buffers

Pieces of fixed sizes are written one after another into one buffer and read back
at the same offsets. The buffer is cut into shards of one length, the last ones
padded, and put together again.
-/

namespace FlatBuffer

open List

variable {κ α : Type*} {n start stop i W e s : ℕ} {σ : Type*} {β : κ → Type*} {k : κ}
  {step : σ → κ × ℕ → σ} {o : Fin W}

/-- A one-dimensional buffer. Positions from `numel` on are never read. -/
structure Flat (α : Type*) where
  numel : ℕ
  get : ℕ → α

def zeros [Zero α] (n : ℕ) : Flat α := ⟨n, fun _ => 0⟩

/-- The positions from `start` to `stop`. -/
def Flat.slice (t : Flat α) (start stop : ℕ) : Flat α :=
  ⟨stop - start, fun i => t.get (start + i)⟩

/-- The buffer with the positions from `start` to `stop` taken from `src`. -/
def Flat.sliceScatter (t src : Flat α) (start stop : ℕ) : Flat α :=
  ⟨t.numel, fun i => if start ≤ i ∧ i < stop then src.get (i - start) else t.get i⟩

@[simp] theorem slice_get (t : Flat α) (start stop i : ℕ) :
    (t.slice start stop).get i = t.get (start + i) := rfl

variable {t src : Flat α}

theorem sliceScatter_get_inside (hs : start ≤ i) (ht : i < stop) :
    (t.sliceScatter src start stop).get i = src.get (i - start) :=
  if_pos ⟨hs, ht⟩

theorem sliceScatter_get_outside (h : i < start ∨ stop ≤ i) :
    (t.sliceScatter src start stop).get i = t.get i :=
  if_neg fun hin => by omega

variable (size : κ → ℕ)

def total (ks : List κ) : ℕ := (ks.map size).sum

@[simp] theorem total_nil : total size [] = 0 := rfl

@[simp] theorem total_cons (k : κ) (ks : List κ) :
    total size (k :: ks) = size k + total size ks := by
  rw [total, total, map_cons, sum_cons]

@[simp] theorem total_append (as bs : List κ) :
    total size (as ++ bs) = total size as + total size bs := by
  rw [total, map_append, sum_append]
  rfl

/-- Each key with the offset at which its piece starts. -/
def cuts : ℕ → List κ → List (κ × ℕ)
  | _, [] => []
  | off, k :: ks => (k, off) :: cuts (off + size k) ks

theorem cuts_append (off : ℕ) (as bs : List κ) :
    cuts size off (as ++ bs) = cuts size off as ++ cuts size (off + total size as) bs := by
  induction as generalizing off with
  | nil => rfl
  | cons k ks ih =>
    simp only [cons_append, cuts, ih, total_cons]
    rw [Nat.add_assoc]

/-- A loop over the pieces whose steps write, of each key, only what belongs to that key. -/
theorem foldl_cuts_of_notMem (val : σ → (k : κ) → β k)
    (hframe : ∀ s c k, c.1 ≠ k → val (step s c) k = val s k) {ks : List κ} (hk : k ∉ ks) (off : ℕ)
    (s : σ) : val ((cuts size off ks).foldl step s) k = val s k := by
  induction ks generalizing off s with
  | nil => rfl
  | cons x xs ih =>
    have hx : x ≠ k := fun h => hk (h ▸ mem_cons_self)
    rw [cuts, foldl_cons, ih (fun h => hk (mem_cons_of_mem _ h)), hframe s _ k hx]

/-- The last step for a key decides what it holds afterwards. -/
theorem foldl_cuts_last (val : σ → (k : κ) → β k)
    (hframe : ∀ s c k, c.1 ≠ k → val (step s c) k = val s k) (as : List κ) {bs : List κ}
    (hk : k ∉ bs) (off : ℕ) (s : σ) :
    val ((cuts size off (as ++ k :: bs)).foldl step s) k =
      val (step ((cuts size off as).foldl step s) (k, off + total size as)) k := by
  rw [cuts_append, foldl_append, cuts, foldl_cons,
    foldl_cuts_of_notMem size val hframe hk]

/-- Writes the pieces there are, each at its offset. -/
def write (piece : κ → Option (Flat α)) (ks : List κ) (t : Flat α) : Flat α :=
  (cuts size 0 ks).foldl (fun t c =>
    match piece c.1 with
    | some p => t.sliceScatter p c.2 (c.2 + size c.1)
    | none => t) t

section Write

variable {size} {piece : κ → Option (Flat α)}

private theorem writeFrom_get_below {off i : ℕ} (hi : i < off) (ks : List κ) (t : Flat α) :
    ((cuts size off ks).foldl (fun t c =>
      match piece c.1 with
      | some p => t.sliceScatter p c.2 (c.2 + size c.1)
      | none => t) t).get i = t.get i := by
  induction ks generalizing off t with
  | nil => rfl
  | cons k ks ih =>
    rw [cuts, foldl_cons, ih (by omega)]
    cases piece k with
    | none => rfl
    | some p => exact sliceScatter_get_outside (.inl hi)

private theorem writeFrom_get {as bs : List κ} {k : κ} {off j : ℕ} (hj : j < size k)
    (t : Flat α) :
    ((cuts size off (as ++ k :: bs)).foldl (fun t c =>
      match piece c.1 with
      | some p => t.sliceScatter p c.2 (c.2 + size c.1)
      | none => t) t).get (off + total size as + j) =
      (piece k).elim (t.get (off + total size as + j)) (·.get j) := by
  induction as generalizing off t with
  | nil =>
    rw [nil_append, cuts, foldl_cons, writeFrom_get_below (by simp; omega)]
    cases piece k with
    | none => rfl
    | some p =>
      refine (sliceScatter_get_inside (by simp) (by simpa using hj)).trans ?_
      rw [total_nil, Nat.add_zero, Nat.add_sub_cancel_left]
      rfl
  | cons a as ih =>
    rw [cons_append, cuts, foldl_cons, total_cons, ← Nat.add_assoc off, ih]
    cases piece a with
    | none => rfl
    | some p => rw [sliceScatter_get_outside (.inr (by dsimp only; omega))]

/-- A piece stands at its offset; where there is none, what stood there before. -/
theorem write_get {as bs : List κ} {k : κ} {j : ℕ} (hj : j < size k) (t : Flat α) :
    (write size piece (as ++ k :: bs) t).get (total size as + j) =
      (piece k).elim (t.get (total size as + j)) (·.get j) := by
  have h := @writeFrom_get κ α size piece as bs k 0 j hj t
  rwa [Nat.zero_add] at h

end Write

section LastOffset

variable [DecidableEq κ] {ks : List κ} {k : κ}

/-- Where the last piece of the key starts. -/
def lastOffset : ℕ → List κ → κ → Option ℕ
  | _, [], _ => none
  | off, x :: xs, k =>
    (lastOffset (off + size x) xs k).or (if x = k then some off else none)

theorem lastOffset_of_notMem {off : ℕ} (h : k ∉ ks) : lastOffset size off ks k = none := by
  induction ks generalizing off with
  | nil => rfl
  | cons x xs ih =>
    have hx : x ≠ k := fun hx => h (hx ▸ mem_cons_self)
    rw [lastOffset, ih (fun hm => h (mem_cons_of_mem _ hm)), if_neg hx]
    rfl

/-- A list with the key splits at the last copy, and this is the offset that is found. -/
theorem exists_last (h : k ∈ ks) (off : ℕ) :
    ∃ as bs, ks = as ++ k :: bs ∧ k ∉ bs ∧
      lastOffset size off ks k = some (off + total size as) := by
  induction ks generalizing off with
  | nil => exact absurd h not_mem_nil
  | cons x xs ih =>
    by_cases hx : k ∈ xs
    · obtain ⟨as, bs, rfl, hbs, hoff⟩ := ih hx (off + size x)
      refine ⟨x :: as, bs, rfl, hbs, ?_⟩
      rw [lastOffset, hoff, Nat.add_assoc]
      rfl
    · have hk : x = k := by
        cases mem_cons.mp h with
        | inl heq => exact heq.symm
        | inr hm => exact absurd hm hx
      refine ⟨[], xs, by rw [hk, nil_append], hx, ?_⟩
      rw [lastOffset, lastOffset_of_notMem size hx, if_pos hk]
      rfl

end LastOffset

/-- The length of a shard when `n` positions are cut into `W` shards. -/
def shardLength (n W : ℕ) : ℕ := (n + W - 1) / W

theorem le_shardLength_mul (hW : 0 < W) : n ≤ shardLength n W * W := by
  have h := Nat.div_add_mod (n + W - 1) W
  have hlt := Nat.mod_lt (n + W - 1) hW
  rw [shardLength, Nat.mul_comm]
  omega

theorem shardLength_pos (hn : 0 < n) (hW : 0 < W) : 0 < shardLength n W :=
  Nat.div_pos (by omega) hW

theorem div_shardLength_lt (he : e < n) (hW : 0 < W) : e / shardLength n W < W := by
  rw [Nat.div_lt_iff_lt_mul (shardLength_pos (by omega) hW)]
  exact lt_of_lt_of_le he (by simpa [Nat.mul_comm] using le_shardLength_mul (n := n) hW)

/-- The shards put one after another. -/
def concat [Zero α] {W : ℕ} (s : ℕ) (shards : Fin W → Flat α) : Flat α :=
  (List.finRange W).foldl
    (fun t i => t.sliceScatter (shards i) (i * s) (i * s + s)) (zeros (s * W))

private theorem concatOn_get (shards : Fin W → Flat α) (l : List (Fin W))
    (ho : o * s ≤ e ∧ e < o * s + s) (t : Flat α) :
    (l.foldl (fun t i => t.sliceScatter (shards i) (i * s) (i * s + s)) t).get e =
      if o ∈ l then (shards o).get (e - o * s) else t.get e := by
  induction l generalizing t with
  | nil => rfl
  | cons i l ih =>
    rw [foldl_cons, ih]
    by_cases hol : o ∈ l
    · rw [if_pos hol, if_pos (mem_cons_of_mem _ hol)]
    · rw [if_neg hol]
      by_cases hoi : o = i
      · rw [if_pos (hoi ▸ mem_cons_self), ← hoi,
          sliceScatter_get_inside ho.1 ho.2]
      · have hne : (o : ℕ) ≠ i := fun h => hoi (Fin.ext h)
        have hout : e < i * s ∨ i * s + s ≤ e := by
          rcases Nat.lt_or_gt_of_ne hne with hlt | hgt
          · have := Nat.mul_le_mul_right s (Nat.succ_le_of_lt hlt)
            rw [Nat.succ_mul] at this
            omega
          · have := Nat.mul_le_mul_right s (Nat.succ_le_of_lt hgt)
            rw [Nat.succ_mul] at this
            omega
        rw [sliceScatter_get_outside hout, if_neg]
        exact fun hm => (mem_cons.mp hm).elim hoi hol

/-- A position of the whole is a position of the shard that covers it. -/
theorem concat_get [Zero α] (shards : Fin W → Flat α) (ho : o * s ≤ e ∧ e < o * s + s) :
    (concat s shards).get e = (shards o).get (e - o * s) := by
  rw [concat, concatOn_get shards _ ho, if_pos (mem_finRange o)]

end FlatBuffer
