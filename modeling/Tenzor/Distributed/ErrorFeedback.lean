import Tenzor.Distributed.GradientCompression
import Tenzor.Lib.Throwing

/-!
# Error feedback

As long as every parameter comes with the storage object under which its own residual was stored
last, and with no other parameter's, error feedback loses nothing. A fresh storage object loses the
residual.
-/

namespace Tenzor.Ddp

open FlatBuffer Collective Throwing
open Function (update update_of_ne update_self)

namespace TopKCompressor

variable {Var α : Type} [Field α] [LinearOrder α] {numel : Var → ℕ} {W : ℕ} {s storage : ℕ}
  {rank : Rank Var α} {v : Var} {g : Gradient α}

omit [LinearOrder α] in
theorem feedback_numel (residuals : Residuals α) (key : ℕ) (flat : Flat α) :
    (feedback residuals key flat).2.numel = flat.numel := by
  unfold feedback
  split
  · split <;> rfl
  · rfl

omit [LinearOrder α] in
theorem feedback_of_ne (residuals : Residuals α) {key : ℕ} (flat : Flat α) (h : s ≠ key) :
    (feedback residuals key flat).1 s = residuals s := by
  unfold feedback
  split
  · split
    · rfl
    · exact update_of_ne h _ _
  · rfl

omit [Field α] [LinearOrder α] in
theorem rekeyResidual_eq {residuals : Residuals α} {oldKey newKey : ℕ} {residual : Flat α}
    (h : residuals oldKey = some residual) (hne : oldKey ≠ newKey) :
    rekeyResidual residuals oldKey newKey =
      update (update residuals oldKey none) newKey (some residual) := by
  rw [rekeyResidual, if_neg hne]
  simp only [h]

/-- The address of the storage object that a compressed gradient is on. -/
def storedKey (fresh : ℕ) (g : Gradient α) : ℕ := if g.contiguous then g.storage else fresh

/-- What is sent and what is kept make up what was fed in, and no other residual is touched. -/
structure Splits (fresh : ℕ) (residuals : Residuals α) (g : Gradient α)
    (r : Residuals α × Gradient α) (residual : Flat α) : Prop where
  storage : r.2.storage = storedKey fresh g
  kept : r.1 (storedKey fresh g) = some residual
  size : residual.numel = g.data.numel
  sum : ∀ j, r.2.data.get j + residual.get j = (feedback residuals g.storage g.data).2.get j
  moved : g.storage ≠ storedKey fresh g → r.1 g.storage = none
  frame : ∀ s, s ≠ g.storage → s ≠ storedKey fresh g → r.1 s = residuals s

theorem compress_splits (c : TopKCompressor) (fresh : ℕ) (residuals : Residuals α)
    (g : Gradient α) : ∃ residual, Splits fresh residuals g (c.compress fresh residuals g) residual := by
  simp only [compress]
  generalize hfed : feedback residuals g.storage g.data = fed
  have hsize : fed.2.numel = g.data.numel := hfed ▸ feedback_numel residuals g.storage g.data
  have hframe : ∀ s, s ≠ g.storage → fed.1 s = residuals s := fun s hs =>
    hfed ▸ feedback_of_ne residuals g.data hs
  generalize max 1 ⌈(fed.2.numel : ℚ) * c.ratio⌉.toNat = k
  generalize hkept : (⟨fed.2.numel, fun j => fed.2.get j - fed.2.get j * mask fed.2 k j⟩ : Flat α) =
    residual
  have hself : update fed.1 g.storage (some residual) g.storage = some residual :=
    update_self ..
  refine ⟨residual, ?_⟩
  split
  next hcont =>
    have hkey : storedKey fresh g = g.storage := if_pos hcont
    refine ⟨hkey.symm, hkey ▸ hself, hkept ▸ hsize, fun j => ?_, fun hne => absurd hkey.symm hne,
      fun s hs _ => ?_⟩
    · rw [hfed, ← hkept]
      exact add_sub_cancel _ _
    · exact (update_of_ne hs _ _).trans (hframe s hs)
  next hcont =>
    have hkey : storedKey fresh g = fresh := if_neg hcont
    by_cases hne : g.storage = fresh
    · have hrekey : ∀ residuals : Residuals α, rekeyResidual residuals g.storage fresh = residuals :=
        fun _ => if_pos hne
      rw [hrekey]
      refine ⟨hkey.symm, ?_, hkept ▸ hsize, fun j => ?_, fun h => absurd (hne.trans hkey.symm) h,
        fun s hs _ => ?_⟩
      · rw [hkey, ← hne]
        exact hself
      · rw [hfed, ← hkept]
        exact add_sub_cancel _ _
      · exact (update_of_ne hs _ _).trans (hframe s hs)
    · rw [rekeyResidual_eq hself hne]
      refine ⟨hkey.symm, ?_, hkept ▸ hsize, fun j => ?_, fun _ => ?_, fun s hs hs' => ?_⟩
      · rw [hkey]
        exact update_self ..
      · rw [hfed, ← hkept]
        exact add_sub_cancel _ _
      · exact (update_of_ne hne _ _).trans (update_self ..)
      · rw [hkey] at hs'
        exact ((update_of_ne hs' _ _).trans (update_of_ne hs _ _)).trans
          ((update_of_ne hs _ _).trans (hframe s hs))

/-- A call of `compress` on a rank: where the gradient is found, and where it is left. -/
structure Call (Var : Type) where
  param : Var
  storage : ℕ
  stored : ℕ

/-- Where each parameter was left last. -/
def leave [DecidableEq Var] (keys : Var → Option ℕ) (call : Call Var) : Var → Option ℕ :=
  Function.update keys call.param (some call.stored)

/-- The parameter comes on the storage object on which it was left, if it was there before, and no
other parameter's residual is stored under its addresses. -/
def OwnStorage (keys : Var → Option ℕ) (call : Call Var) : Prop :=
  (∀ s, keys call.param = some s → s = call.storage) ∧
    ∀ w ≠ call.param, keys w ≠ some call.storage ∧ keys w ≠ some call.stored

def Pass.call (pass : Pass numel α) (v : Var) : Option (Call Var) :=
  (pass.grads v).map fun g => ⟨v, g.storage, storedKey (pass.rebound v) g⟩

/-- The calls of `compress` on a rank, in their order. -/
def calls (r : Fin W) (its : List (Iteration numel α W)) : List (Call Var) :=
  its.flatMap fun it => it.order.filterMap (it.passes r).call

variable [DecidableEq Var]

/-- Nothing is lost so far, and the residuals are stored under the addresses at which their
parameters were left. -/
structure Tracked (numel : Var → ℕ) (rank : Rank Var α) : Prop where
  lossless : rank.Lossless numel
  stored : ∀ v s, rank.storedUnder v = some s →
    rank.owner s = some v ∧ ∃ x, rank.residuals s = some x ∧ x.numel = numel v
  entries : ∀ s x, rank.residuals s = some x → ∃ v, rank.storedUnder v = some s

omit [LinearOrder α] in
theorem residual_of_stored {x : Flat α} (hs : rank.storedUnder v = some s)
    (ho : rank.owner s = some v) (hx : rank.residuals s = some x) : rank.residual v = x.get := by
  simp only [Rank.residual, hs, ho, hx, if_true, Option.elim]

omit [LinearOrder α] in
/-- The residual that is added is that of the parameter. -/
theorem feedback_of_own (h : Tracked numel rank) {call : Call Var}
    (hown : OwnStorage rank.storedUnder call) (hcall : call.storage = g.storage)
    (hg : g.data.numel = numel call.param) (j : ℕ) :
    (feedback rank.residuals g.storage g.data).2.get j =
        g.data.get j + rank.residual call.param j ∧
      ∀ x, rank.residuals g.storage = some x → rank.owner g.storage = some call.param := by
  cases hx : rank.residuals g.storage with
  | none =>
    have hnone : rank.storedUnder call.param = none := by
      refine Option.eq_none_iff_forall_ne_some.mpr fun s hs => ?_
      obtain ⟨-, x, hsome, -⟩ := h.stored _ s hs
      rw [hown.1 s hs, hcall, hx] at hsome
      cases hsome
    simp only [feedback, hx, Rank.residual, hnone, Pi.zero_apply, add_zero]
    exact ⟨trivial, fun x hsome => nomatch hsome⟩
  | some x =>
    obtain ⟨w, hw⟩ := h.entries _ _ hx
    obtain rfl : w = call.param := by
      by_contra hne
      exact (hown.2 w hne).1 (hcall ▸ hw)
    obtain ⟨ho, y, hy, hsize⟩ := h.stored _ _ hw
    obtain rfl : x = y := Option.some.inj (hx.symm.trans hy)
    rw [residual_of_stored hw ho hx]
    simp only [feedback, hx, hsize.trans hg.symm, if_true]
    exact ⟨trivial, fun _ _ => ho⟩

/-- One reduction with a storage object of one's own. -/
theorem Tracked.reduced (h : Tracked numel rank) (c : TopKCompressor) (pass : Pass numel α)
    (hg : g.data.numel = numel v)
    (hown : OwnStorage rank.storedUnder ⟨v, g.storage, storedKey (pass.rebound v) g⟩)
    (sum : Flat α) : Tracked numel (reduced c W pass rank v g sum):= by
  obtain ⟨residual, hsplit⟩ := compress_splits c (pass.rebound v) rank.residuals g
  have hfed := feedback_of_own h hown rfl hg
  have hfeed : ∀ j, (c.compress (pass.rebound v) rank.residuals g).2.data.get j + residual.get j =
      g.data.get j + rank.residual v j := fun j => (hsplit.sum j).trans (hfed j).1
  set new := TopKCompressor.reduced c W pass rank v g sum with hnew
  have hstored : new.storedUnder v = some (storedKey (pass.rebound v) g) := by
    simp only [hnew, TopKCompressor.reduced, update_self, hsplit.storage]
  have howner : new.owner (storedKey (pass.rebound v) g) = some v := by
    simp only [hnew, TopKCompressor.reduced, hsplit.storage, update_self]
  have hkept : new.residuals (storedKey (pass.rebound v) g) = some residual := hsplit.kept
  have hother : ∀ w, w ≠ v → new.storedUnder w = rank.storedUnder w := fun w hw =>
    update_of_ne hw _ _
  -- the storage objects of other parameters are left alone
  have hapart : ∀ w s, w ≠ v → rank.storedUnder w = some s →
      new.owner s = rank.owner s ∧ new.residuals s = rank.residuals s := by
    intro w s hw hs
    obtain ⟨hne, hne'⟩ := hown.2 w hw
    rw [hs] at hne hne'
    have hkey : s ≠ storedKey (pass.rebound v) g := fun h => hne' (congrArg some h)
    refine ⟨?_, hsplit.frame s (fun h => hne (congrArg some h)) hkey⟩
    exact update_of_ne (hsplit.storage ▸ hkey) _ _
  refine ⟨⟨fun w j hj => ?_, fun x hx => ?_⟩, fun w s hs => ?_, fun s x hx => ?_⟩
  · by_cases hw : w = v
    · subst hw
      have hold := h.lossless.conserved w j hj
      have hcontributed : new.contributed w j = rank.contributed w j +
          (c.compress (pass.rebound w) rank.residuals g).2.data.get j := by
        simp only [hnew, TopKCompressor.reduced, update_self]
      have hlocal : new.localSum w j = rank.localSum w j + g.data.get j := by
        simp only [hnew, TopKCompressor.reduced, update_self]
      rw [hcontributed, hlocal, residual_of_stored hstored howner hkept, ← hold, add_assoc, hfeed]
      ring
    · have hresidual : new.residual w = rank.residual w := by
        simp only [Rank.residual, hother w hw]
        cases hs : rank.storedUnder w with
        | none => rfl
        | some s =>
          obtain ⟨ho, hr⟩ := hapart w s hw hs
          simp only [ho, hr]
      have hcontributed : new.contributed w = rank.contributed w := update_of_ne hw _ _
      have hlocal : new.localSum w = rank.localSum w := update_of_ne hw _ _
      rw [hresidual, hcontributed, hlocal]
      exact h.lossless.conserved w j hj
  · simp only [hnew, TopKCompressor.reduced] at hx
    split at hx
    next y hy =>
      split at hx
      · rcases List.mem_cons.mp hx with rfl | hx
        · exact (hfed 0).2 y hy
        · exact h.lossless.own x hx
      · exact h.lossless.own x hx
    next => exact h.lossless.own x hx
  · by_cases hw : w = v
    · subst hw
      obtain rfl := Option.some.inj (hstored.symm.trans hs)
      exact ⟨howner, residual, hkept, hsplit.size.trans hg⟩
    · rw [hother w hw] at hs
      obtain ⟨ho, hr⟩ := hapart w s hw hs
      rw [ho, hr]
      exact h.stored w s hs
  · by_cases hkey : s = storedKey (pass.rebound v) g
    · exact ⟨v, hkey ▸ hstored⟩
    · have hne : s ≠ g.storage := by
        rintro rfl
        have hnone : new.residuals g.storage = none := hsplit.moved hkey
        rw [hnone] at hx
        cases hx
      have hold : rank.residuals s = some x := (hsplit.frame s hne hkey).symm.trans hx
      obtain ⟨w, hw⟩ := h.entries s x hold
      have hwv : w ≠ v := by
        rintro rfl
        exact hne (hown.1 s hw)
      exact ⟨w, (hother w hwv).trans hw⟩

omit [LinearOrder α] in
theorem tracked_initial : Tracked numel (Rank.initial : Rank Var α) := by
  refine ⟨⟨fun v j _ => ?_, fun x hx => absurd hx List.not_mem_nil⟩, fun v s hs => (nomatch hs),
    fun s x hx => (nomatch hx)⟩
  simp only [Rank.initial, Rank.residual, Pi.zero_apply, add_zero]

/-- An iteration keeps track, and leads to the calls of the next one. -/
theorem ensures_run (c : TopKCompressor) (it : Iteration numel α W) (r : Fin W)
    {later : List (Call Var)} (h : Tracked numel rank)
    (hown : Through leave OwnStorage rank.storedUnder
      (it.order.filterMap (it.passes r).call ++ later)) :
    (it.run c r rank).Ensures fun rank =>
      Tracked numel rank ∧ Through leave OwnStorage rank.storedUnder later := by
  let P : List Var → Rank Var α → Prop := fun rest rank =>
    Tracked numel rank ∧
      Through leave OwnStorage rank.storedUnder (rest.filterMap (it.passes r).call ++ later) ∧
      rest.Nodup ∧ ∀ v ∈ rest, rank.grads v = (it.passes r).grads v
  have hstart : P it.order { rank with grads := (it.passes r).grads } :=
    ⟨⟨⟨h.lossless.conserved, h.lossless.own⟩, h.stored, h.entries⟩, hown, it.nodup, fun _ _ => rfl⟩
  refine (Prog.Ensures.foldlM P (fun v rest rank hP => ?_) hstart).imp fun rank hP => ?_
  · obtain ⟨htracked, hthrough, hnodup, hgrads⟩ := hP
    obtain ⟨hnotMem, hrest⟩ := List.nodup_cons.mp hnodup
    have hgrad := hgrads v List.mem_cons_self
    cases hg : (it.passes r).grads v with
    | none =>
      have hcall : (it.passes r).call v = none := by rw [Pass.call, hg, Option.map_none]
      rw [List.filterMap_cons, hcall] at hthrough
      simp only [reduceCompressed, hgrad, hg]
      exact ⟨htracked, hthrough, hrest, fun w hw => hgrads w (List.mem_cons_of_mem v hw)⟩
    | some g =>
      have hcall : (it.passes r).call v =
          some ⟨v, g.storage, storedKey ((it.passes r).rebound v) g⟩ := by
        rw [Pass.call, hg, Option.map_some]
      rw [List.filterMap_cons, hcall] at hthrough
      obtain ⟨hown, hthrough⟩ := hthrough
      obtain ⟨residual, hsplit⟩ := compress_splits c ((it.passes r).rebound v) rank.residuals g
      simp only [reduceCompressed, hgrad, hg]
      intro sum
      refine ⟨htracked.reduced c _ ((it.passes r).sized v g hg) hown sum, ?_, hrest,
        fun w hw => ?_⟩
      · simp only [TopKCompressor.reduced, hsplit.storage]
        exact hthrough
      · have hne : w ≠ v := fun heq => hnotMem (heq ▸ hw)
        exact (update_of_ne hne _ _).trans (hgrads w (List.mem_cons_of_mem v hw))
  · exact ⟨hP.1, hP.2.1⟩

/-- Error feedback loses nothing in a run in which every gradient is found on the storage object
under which the residual of its parameter is stored, and no other residual is stored there. -/
theorem lossless_of_own_storage {c : TopKCompressor} {its : List (Iteration numel α W)}
    {s : Fin W → Rank Var α} (hrun : Trains c (fun _ => Rank.initial) its s)
    (hown : ∀ r, Through leave OwnStorage (fun _ => none) (calls r its)) (r : Fin W) :
    (s r).Lossless numel := by
  have htracked : ∀ {s s' : Fin W → Rank Var α} {its : List (Iteration numel α W)},
      Trains c s its s' → Tracked numel (s r) →
      Through leave OwnStorage (s r).storedUnder (calls r its) → Tracked numel (s' r) := by
    intro s s' its hrun
    induction hrun with
    | nil s => exact fun h _ => h
    | @cons s mid s' it its first rest ih =>
      intro h hown
      obtain ⟨hmid, hlater⟩ := first.ensures (ensures_run c it r h hown)
      exact ih hmid hlater
  exact (htracked hrun tracked_initial (hown r)).lossless

/-- Half of the entries are sent. -/
def half : TopKCompressor := ⟨1 / 2, by norm_num, by norm_num⟩

def gradientOn (storage : ℕ) : Gradient ℚ := ⟨storage, true, ⟨2, fun j => if j = 0 then 2 else 1⟩⟩

def passOn (storage : ℕ) : Pass (fun _ : Unit => 2) ℚ where
  grads _ := some (gradientOn storage)
  sized := by
    rintro v g h
    cases h
    rfl
  rebound _ := 0
  averaged _ := 0

def iterationOn (storage : ℕ) : Iteration (fun _ : Unit => 2) ℚ 1 where
  order := [()]
  nodup := List.nodup_singleton ()
  passes _ := passOn storage

def after (storage : ℕ) (rank : Rank Unit ℚ) : Rank Unit ℚ :=
  reduced half 1 (passOn storage) { rank with grads := (passOn storage).grads } ()
    (gradientOn storage)
    (Collective.sum 2 fun _ : Fin 1 =>
      (half.compress 0 rank.residuals (gradientOn storage)).2.data)

theorem completes_on (storage : ℕ) (rank : Rank Unit ℚ) :
    Completes (fun r : Fin 1 => (iterationOn storage).run half r rank) fun _ => after storage rank :=
  have hn : (half.compress 0 rank.residuals (gradientOn storage)).2.data.numel = 2 :=
    feedback_numel rank.residuals storage (gradientOn storage).data
  .allReduce (fun _ => hn) (.done _)

theorem trains_on (first second : ℕ) :
    Trains half (fun _ => Rank.initial) [iterationOn first, iterationOn second] fun _ =>
      after second (after first Rank.initial) :=
  .cons (completes_on first _) (.cons (completes_on second _) (.nil _))

theorem lossless_of_own_storage_reused :
    (after 7 (after 7 Rank.initial)).Lossless fun _ : Unit => 2 := by
  refine lossless_of_own_storage (trains_on 7 7) (fun r => ?_) 0
  refine ⟨⟨fun s hs => (nomatch hs), fun w hw => absurd rfl hw⟩,
    ⟨fun s hs => (Option.some.inj hs).symm, fun w hw => absurd rfl hw⟩, trivial⟩

/-- The second of two entries is left out when it is not the larger one. -/
theorem mask_of_descending {flat : Flat ℚ} (hn : flat.numel = 2)
    (h : |flat.get 1| ≤ |flat.get 0|) : mask flat 1 1 = 0 := by
  have hsort : sortIndices flat = [0, 1] := by
    rw [sortIndices, hn]
    exact List.mergeSort_of_pairwise (by simpa [List.range_succ] using h)
  have hargsort : argsort [0, 1] = [0, 1] :=
    List.mergeSort_of_pairwise (by decide)
  rw [mask, hsort, hargsort, hn]
  decide

/-- On a storage object without a residual the second entry is kept back. -/
theorem compress_fresh {residuals : Residuals ℚ} (h : residuals storage = none) :
    (half.compress 0 residuals (gradientOn storage)).2.data.get 1 = 0 ∧
      ∃ x : Flat ℚ, x.get 1 = 1 ∧
        (half.compress 0 residuals (gradientOn storage)).1 =
          update residuals storage (some x) := by
  have hk : max 1 ⌈((2 : ℕ) : ℚ) * half.ratio⌉.toNat = 1 := by
    norm_num [half]
  have hfed : feedback residuals (gradientOn storage).storage (gradientOn storage).data =
      (residuals, (gradientOn storage).data) := by
    have hnone : residuals (gradientOn storage).storage = none := h
    rw [feedback, hnone]
  have hmask : mask (gradientOn storage).data
      (max 1 ⌈((gradientOn storage).data.numel : ℚ) * half.ratio⌉.toNat) 1 = 0 := by
    have hnumel : (gradientOn storage).data.numel = 2 := rfl
    rw [hnumel, hk]
    exact mask_of_descending rfl (by norm_num [gradientOn])
  have hcont : (gradientOn storage).contiguous = true := rfl
  simp only [compress, hfed, hcont, if_true, hmask, mul_zero, true_and]
  refine ⟨_, ?_, rfl⟩
  simp only [hmask]
  norm_num [gradientOn]

theorem after_fresh {rank : Rank Unit ℚ} (h : rank.residuals storage = none) :
    (after storage rank).contributed () 1 = rank.contributed () 1 ∧
      (after storage rank).localSum () 1 = rank.localSum () 1 + 1 ∧
      (after storage rank).residual () 1 = 1 ∧
      ∀ s, s ≠ storage → (after storage rank).residuals s = rank.residuals s := by
  obtain ⟨hsent, x, hx, hres⟩ := compress_fresh h
  refine ⟨?_, ?_, ?_, fun s hs => ?_⟩
  · simp only [after, reduced, passOn, update_self, hsent, add_zero]
  · simp [after, reduced, gradientOn]
  · have hstored : (after storage rank).storedUnder () = some storage := rfl
    have howner : (after storage rank).owner storage = some () := update_self ..
    have hkept : (after storage rank).residuals storage = some x :=
      (congrFun hres storage).trans (update_self ..)
    rw [residual_of_stored hstored howner hkept, hx]
  · exact (congrFun hres s).trans (update_of_ne hs _ _)

theorem fresh_storage_loses : ∃ s, Trains half (fun _ => Rank.initial)
    [iterationOn 7, iterationOn 8] s ∧ ¬ (s 0).Lossless fun _ : Unit => 2 := by
  refine ⟨_, trains_on 7 8, fun h => ?_⟩
  have hconserved := h.conserved () 1 (by decide)
  obtain ⟨hsent, hlocal, -, hframe⟩ := after_fresh (show Rank.initial.residuals 7 = none from rfl)
  obtain ⟨hsent', hlocal', hresidual, -⟩ :=
    after_fresh ((hframe 8 (by decide)).trans rfl)
  rw [hsent', hsent, hlocal', hlocal, hresidual] at hconserved
  norm_num [Rank.initial] at hconserved

end TopKCompressor

end Tenzor.Ddp
