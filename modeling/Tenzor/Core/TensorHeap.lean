import Tenzor.Core.Quantization

/-!
# Tensors in memory

A handle is the address of a `TensorImpl`. Views allocate new ones that share
the storage and record the base of their chain; in-place operations write
bytes and bump the version counter of the one `TensorImpl` they are called on.

## Implementation notes

Counters are 64-bit and wrap. An in-place kernel may bump the counter itself;
`dispatch_inplace` bumps it once more only when the kernel left it unchanged.
-/

namespace Tenzor

open Throwing

/-- Addresses below `next` are in use; a view's base was allocated before it. -/
structure TensorHeap where
  impls : TensorId → TensorImpl
  next : TensorId
  bytes : Memory
  base_lt : ∀ id b, id < next → (impls id).viewBase = some b → b < id

/-- The operations that record the base of the view chain. -/
def ViewOp.RecordsBase : ViewOp → Prop
  | .asStrided _ _ _ | .unfold _ _ _ => False
  | _ => True

theorem TensorImpl.baseFor_eq (t : TensorImpl) (self : TensorId) :
    t.baseFor self = some (t.viewBase.getD self) := by
  cases h : t.viewBase <;> simp [TensorImpl.baseFor, h]

/-- A new view records the base of its parent's chain or nothing. -/
theorem viewBase_apply {self : TensorId} {t t' : TensorImpl} {op : ViewOp}
    (h : op.apply self t = .ok (.fresh t')) :
    (op.RecordsBase ∧ t'.viewBase = t.baseFor self) ∨
      (¬ op.RecordsBase ∧ t'.viewBase = none) := by
  cases op <;> simp only [ViewOp.apply, TensorImpl.squeeze, map_eq_ok, ViewResult.fresh.injEq,
    exists_eq_right] at h
  case view =>
    obtain ⟨-, -, shape, -, rfl⟩ := TensorImpl.view_ok h
    exact .inl ⟨trivial, rfl⟩
  case transpose =>
    obtain ⟨i, j, -, -, -, -, rfl⟩ := TensorImpl.transpose_ok h
    exact .inl ⟨trivial, rfl⟩
  case permute =>
    obtain ⟨pos, -, -, rfl⟩ := TensorImpl.permute_ok h
    exact .inl ⟨trivial, rfl⟩
  case squeeze dim =>
    cases dim with
    | none =>
      obtain ⟨-, heq⟩ := TensorImpl.squeezeAll_ok h
      obtain rfl := ViewResult.fresh.inj heq
      exact .inl ⟨trivial, rfl⟩
    | some dim =>
      obtain ⟨d, -, -, ⟨-, heq⟩ | ⟨-, -, heq⟩⟩ := TensorImpl.squeezeDim_ok h
      · cases heq
      · obtain rfl := ViewResult.fresh.inj heq
        exact .inl ⟨trivial, rfl⟩
  case unsqueeze =>
    obtain ⟨d, contiguous, -, -, -, rfl⟩ := TensorImpl.unsqueeze_ok h
    exact .inl ⟨trivial, rfl⟩
  case slice =>
    obtain ⟨d, first, last, -, -, -, -, -, -, -, -, rfl⟩ := TensorImpl.slice_ok h
    exact .inl ⟨trivial, rfl⟩
  case index =>
    obtain ⟨row, i, s, -, -, -, -, hrow, hs, heq⟩ := TensorImpl.index_ok h
    obtain ⟨d, first, last, -, -, -, -, -, -, -, -, hrowEq⟩ := TensorImpl.slice_ok hrow
    have hbase : row.viewBase = t.baseFor self := by rw [hrowEq]
    obtain rfl := ViewResult.fresh.inj heq
    -- The squeezed row takes over the base the row recorded.
    obtain ⟨d', -, -, ⟨-, rfl⟩ | ⟨-, -, rfl⟩⟩ := TensorImpl.squeezeDim_ok hs
    · exact .inl ⟨trivial, hbase⟩
    · refine .inl ⟨trivial, ?_⟩
      rw [row.baseFor_eq, hbase, t.baseFor_eq]
      rfl
  case asStrided =>
    obtain ⟨low, high, empty, -, -, -, -, rfl⟩ := TensorImpl.asStrided_ok h
    exact .inr ⟨id, rfl⟩
  case unfold =>
    obtain ⟨d, -, -, -, -, -, h⟩ := TensorImpl.unfold_ok h
    obtain ⟨low, high, empty, -, -, -, -, rfl⟩ := TensorImpl.asStrided_ok h
    exact .inr ⟨id, rfl⟩
  case detach =>
    obtain rfl : t.detach self = t' := by simpa using h
    exact .inl ⟨trivial, rfl⟩
  case intRepr =>
    obtain ⟨-, -, rfl⟩ := TensorImpl.intRepr_ok h
    exact .inl ⟨trivial, rfl⟩

namespace TensorHeap

variable (h : TensorHeap) {id parent w : TensorId} {op : ViewOp}

/-- The base a view of a tensor in use records is itself in use. -/
theorem baseFor_lt {b : TensorId} (hid : id < h.next) (hb : (h.impls id).baseFor id = some b) :
    b < h.next := by
  rw [TensorImpl.baseFor_eq] at hb
  cases hbase : (h.impls id).viewBase with
  | none =>
    rw [hbase] at hb
    simp only [Option.getD_none, Option.some.injEq] at hb
    exact hb ▸ hid
  | some b' =>
    rw [hbase] at hb
    simp only [Option.getD_some, Option.some.injEq] at hb
    exact hb ▸ lt_trans (h.base_lt id b' hid hbase) hid

/-- Place a new `TensorImpl` at the next address. -/
def alloc (t : TensorImpl) (ht : ∀ b, t.viewBase = some b → b < h.next) : TensorHeap where
  impls := Function.update h.impls h.next t
  next := h.next + 1
  bytes := h.bytes
  base_lt := by
    intro id b hid hb
    by_cases hnew : id = h.next
    · subst hnew
      rw [Function.update_self] at hb
      exact ht b hb
    · rw [Function.update_of_ne hnew] at hb
      exact h.base_lt id b (lt_of_le_of_ne (Nat.lt_succ_iff.mp hid) hnew) hb

/-- Take a view of the tensor at `parent`; a `squeeze` that removes nothing
hands the same handle back. -/
def view (parent : TensorId) (op : ViewOp) : Except Exn (TensorHeap × TensorId) :=
  if hp : parent < h.next then
    match hop : op.apply parent (h.impls parent) with
    | .error e => .error e
    | .ok .same => .ok (h, parent)
    | .ok (.fresh t') =>
      have ht : ∀ b, t'.viewBase = some b → b < h.next := by
        intro b hb
        rcases viewBase_apply hop with ⟨-, heq⟩ | ⟨-, heq⟩
        · exact h.baseFor_lt hp (heq ▸ hb)
        · rw [heq] at hb
          cases hb
      .ok (h.alloc t' ht, h.next)
  else .error (.runtimeError "Operation on uninitialized tensor")

theorem view_ok {h' : TensorHeap} (hview : h.view parent op = .ok (h', w)) :
    parent < h.next ∧
      ((h' = h ∧ w = parent) ∨
        ∃ t', op.apply parent (h.impls parent) = .ok (.fresh t') ∧ w = h.next ∧
          h'.impls = Function.update h.impls h.next t' ∧ h'.next = h.next + 1) := by
  simp only [view] at hview
  split at hview
  · rename_i hp
    refine ⟨hp, ?_⟩
    split at hview
    · cases hview
    · obtain ⟨rfl, rfl⟩ : h = h' ∧ parent = w := by simpa using hview
      exact .inl ⟨rfl, rfl⟩
    · rename_i t' hop
      obtain ⟨rfl, rfl⟩ := Prod.mk.inj (Except.ok.inj hview)
      exact .inr ⟨t', hop, rfl, rfl, rfl⟩
  · cases hview

/-- The counter after an in-place kernel that bumped it `kernelBumps` times. -/
def dispatchVersion (inferenceMode : Bool) (version kernelBumps : Nat) : Nat :=
  let after := (version + kernelBumps) % 18446744073709551616
  if after = version ∧ inferenceMode = false then (after + 1) % 18446744073709551616 else after

theorem dispatchVersion_ne (version kernelBumps : Nat) :
    dispatchVersion false version kernelBumps ≠ version := by
  simp only [dispatchVersion]
  split_ifs with h
  · omega
  · simpa using h

/-- An in-place operation through `target` that leaves the given bytes. `fill_`
is the case of one bump; outside inference mode the counter always moves. -/
def inplace (target : TensorId) (bytes : Memory) (kernelBumps : Nat) : TensorHeap where
  impls := Function.update h.impls target
    { h.impls target with version := dispatchVersion false (h.impls target).version kernelBumps }
  next := h.next
  bytes := bytes
  base_lt := by
    intro id b hid hb
    apply h.base_lt id b hid
    by_cases hid' : id = target
    · subst hid'
      rwa [Function.update_self] at hb
    · rwa [Function.update_of_ne hid'] at hb

/-- What a program does with tensors between two observations. -/
inductive Event
  | view (parent : TensorId) (op : ViewOp)
  | inplace (target : TensorId) (bytes : Memory) (kernelBumps : Nat)

/-- The one tensor whose counter an event moves. -/
def Event.Writes : Event → TensorId → Prop
  | .view _ _, _ => False
  | .inplace target _ _, id => target = id

def step : Event → Except Exn TensorHeap
  | .view parent op => Prod.fst <$> h.view parent op
  | .inplace target bytes kernelBumps => .ok (h.inplace target bytes kernelBumps)

def run (events : List Event) : Except Exn TensorHeap :=
  events.foldlM step h

variable {h} {h' : TensorHeap}

theorem impls_inplace_of_ne {target : TensorId} (bytes : Memory) (kernelBumps : Nat)
    (hne : id ≠ target) : (h.inplace target bytes kernelBumps).impls id = h.impls id :=
  Function.update_of_ne hne _ _

theorem version_inplace_ne (target : TensorId) (bytes : Memory) (kernelBumps : Nat) :
    ((h.inplace target bytes kernelBumps).impls target).version ≠ (h.impls target).version := by
  simp only [inplace, Function.update_self]
  exact dispatchVersion_ne _ _

theorem viewBase_inplace (target : TensorId) (bytes : Memory) (kernelBumps : Nat)
    (id : TensorId) :
    ((h.inplace target bytes kernelBumps).impls id).viewBase = (h.impls id).viewBase := by
  by_cases hid : id = target
  · subst hid
    simp only [inplace, Function.update_self]
  · rw [impls_inplace_of_ne bytes kernelBumps hid]

/-- A view changes no tensor already in use. -/
theorem view_frame (hview : h.view parent op = .ok (h', w)) :
    h.next ≤ h'.next ∧ ∀ id < h.next, h'.impls id = h.impls id := by
  obtain ⟨-, ⟨rfl, -⟩ | ⟨t', -, -, himpls, hnext⟩⟩ := h.view_ok hview
  · exact ⟨le_rfl, fun _ _ => rfl⟩
  · refine ⟨hnext ▸ Nat.le_succ _, ?_⟩
    intro id hid
    rw [himpls]
    exact Function.update_of_ne (ne_of_lt hid) _ _

theorem step_frame {e : Event} (hstep : h.step e = .ok h') :
    h.next ≤ h'.next ∧
      (∀ id < h.next, (h'.impls id).viewBase = (h.impls id).viewBase) ∧
      ∀ id < h.next, ¬ e.Writes id → h'.impls id = h.impls id := by
  cases e with
  | view parent op =>
    simp only [step, map_eq_ok] at hstep
    obtain ⟨⟨h'', w⟩, hview, rfl⟩ := hstep
    obtain ⟨hnext, himpls⟩ := view_frame hview
    exact ⟨hnext, fun id hid => by rw [himpls id hid], fun id hid _ => himpls id hid⟩
  | inplace target bytes kernelBumps =>
    obtain rfl := Except.ok.inj hstep
    refine ⟨le_rfl, fun id _ => viewBase_inplace target bytes kernelBumps id, ?_⟩
    intro id _ hwrites
    exact impls_inplace_of_ne bytes kernelBumps (Ne.symm hwrites)

theorem run_frame {events : List Event} (hrun : h.run events = .ok h') :
    h.next ≤ h'.next ∧
      (∀ id < h.next, (h'.impls id).viewBase = (h.impls id).viewBase) ∧
      ∀ id < h.next, (∀ e ∈ events, ¬ e.Writes id) → h'.impls id = h.impls id := by
  induction events generalizing h with
  | nil =>
    obtain rfl : h = h' := by simpa [run] using hrun
    exact ⟨le_rfl, fun _ _ => rfl, fun _ _ _ => rfl⟩
  | cons e rest ih =>
    obtain ⟨h₁, hstep, hrest⟩ := foldlM_cons_eq_ok.mp hrun
    obtain ⟨hle, hbase, himpls⟩ := step_frame hstep
    obtain ⟨hle', hbase', himpls'⟩ := ih hrest
    refine ⟨hle.trans hle', ?_, ?_⟩
    · intro id hid
      rw [hbase' id (lt_of_lt_of_le hid hle), hbase id hid]
    · intro id hid hwrites
      rw [himpls' id (lt_of_lt_of_le hid hle) fun e he => hwrites e (List.mem_cons_of_mem _ he),
        himpls id hid (hwrites e List.mem_cons_self)]

end TensorHeap

open TensorHeap

/-- `w` is obtained from `x` by the listed views, each of the result of the one
before, with any of the allowed events in between. -/
inductive ViewChain (allow : Event → Prop) (h : TensorHeap) (x : TensorId) :
    List ViewOp → TensorHeap → TensorId → Prop
  | refl : ViewChain allow h x [] h x
  | view {ops op h₁ h₂ w w'} (chain : ViewChain allow h x ops h₁ w)
      (hview : h₁.view w op = .ok (h₂, w')) : ViewChain allow h x (ops ++ [op]) h₂ w'
  | other {ops e h₁ h₂ w} (chain : ViewChain allow h x ops h₁ w) (hallow : allow e)
      (hstep : h₁.step e = .ok h₂) : ViewChain allow h x ops h₂ w

namespace ViewChain

variable {allow : Event → Prop} {h h' : TensorHeap} {x w : TensorId} {ops : List ViewOp}

theorem frame (chain : ViewChain allow h x ops h' w) :
    h.next ≤ h'.next ∧
      (∀ id < h.next, (h'.impls id).viewBase = (h.impls id).viewBase) ∧
      ∀ id < h.next, (∀ e, allow e → ¬ e.Writes id) → h'.impls id = h.impls id := by
  induction chain with
  | refl => exact ⟨le_rfl, fun _ _ => rfl, fun _ _ _ => rfl⟩
  | view chain hview ih =>
    obtain ⟨hle, hbase, himpls⟩ := ih
    obtain ⟨hle', himpls'⟩ := view_frame hview
    refine ⟨hle.trans hle', ?_, ?_⟩
    · intro id hid
      rw [himpls' id (lt_of_lt_of_le hid hle), hbase id hid]
    · intro id hid hwrites
      rw [himpls' id (lt_of_lt_of_le hid hle), himpls id hid hwrites]
  | other chain hallow hstep ih =>
    obtain ⟨hle, hbase, himpls⟩ := ih
    obtain ⟨hle', hbase', himpls'⟩ := step_frame hstep
    refine ⟨hle.trans hle', ?_, ?_⟩
    · intro id hid
      rw [hbase' id (lt_of_lt_of_le hid hle), hbase id hid]
    · intro id hid hwrites
      rw [himpls' id (lt_of_lt_of_le hid hle) (hwrites _ hallow), himpls id hid hwrites]

/-- The end of a chain is its start or a tensor allocated along the way. -/
theorem origin (chain : ViewChain allow h x ops h' w) (hx : x < h.next) :
    w < h'.next ∧ (w = x ∨ h.next ≤ w) := by
  induction chain with
  | refl => exact ⟨hx, .inl rfl⟩
  | view chain hview ih =>
    obtain ⟨-, ⟨rfl, rfl⟩ | ⟨t', -, rfl, -, hnext⟩⟩ := view_ok _ hview
    · exact ih
    · exact ⟨hnext ▸ Nat.lt_succ_self _, .inr chain.frame.1⟩
  | other chain hallow hstep ih => exact ⟨lt_of_lt_of_le ih.1 (step_frame hstep).1, ih.2⟩

/-- Views that record their base all record the base of the first one's parent. -/
theorem viewBase_eq (chain : ViewChain allow h x ops h' w) (hx : x < h.next)
    (hops : ∀ op ∈ ops, op.RecordsBase) :
    w = x ∨ (h'.impls w).viewBase = (h.impls x).baseFor x := by
  induction chain with
  | refl => exact .inl rfl
  | @view ops op h₁ h₂ w w' chain hview ih =>
    have ih := ih fun op hop => hops op (List.mem_append_left _ hop)
    obtain ⟨-, ⟨rfl, rfl⟩ | ⟨t', hop, rfl, himpls, -⟩⟩ := view_ok _ hview
    · exact ih
    · obtain ⟨-, ht⟩ | ⟨hno, -⟩ := viewBase_apply hop
      · right
        rw [himpls, Function.update_self, ht, TensorImpl.baseFor_eq, TensorImpl.baseFor_eq]
        rcases ih with rfl | ih
        · rw [chain.frame.2.1 w hx]
        · rw [ih, TensorImpl.baseFor_eq, Option.getD_some]
      · exact absurd (hops op (by simp)) hno
  | other chain hallow hstep ih =>
    rcases ih hops with rfl | ih
    · exact .inl rfl
    · right
      rw [(step_frame hstep).2.1 _ (chain.origin hx).1, ih]

end ViewChain

end Tenzor
