import Tenzor.Core.TensorHeap

/-!
# Saved tensors and their version check

`save_for_backward` stores handles together with the version counters of the
tensors and of their view bases. `validate_saved_tensors` compares them again
before a backward reads the tensors.

## Implementation notes

A recorded base version of zero stands for "not a view". Copies made by an
offload live in a storage of their own, numbered by `fresh`.
-/

namespace Tenzor

open Strided Throwing List

inductive OffloadPolicy
  | inherit
  | always
  | never
  deriving DecidableEq, Repr

/-- The part of a `Function` that concerns its saved tensors. -/
structure SavedTensors where
  name : String
  needsSavedTensor : Nat → Bool
  offloadPolicy : OffloadPolicy := .inherit
  offloadMinBytes : Nat := 0
  savedTensors : List TensorId := []
  savedVersions : List Nat := []
  savedViewBaseVersions : List Nat := []
  preOffloadVersions : List Nat := []
  offloadedDevices : List Device := []
  offloadedDevice : Device := .cpu
  tensorsOffloaded : Bool := false
  wasOffloaded : Bool := false

/-- `to(Device::cpu())` of a tensor on another device: a contiguous copy with a
version counter of its own and no view base. -/
def TensorHeap.toHost (h : TensorHeap) (fresh : TensorHeap → Nat) (id : TensorId) :
    Except Exn (TensorHeap × TensorId) := do
  let t := h.impls id
  let copy ← TensorImpl.allocate (fresh h) t.shape t.dtype
  let host : TensorImpl := { copy with requiresGrad := t.requiresGrad, viewBase := none }
  let size : Int := dtypeSize t.dtype
  let bytes := Function.update h.bytes (fresh h)
    fun b => h.bytes t.storage.id (t.contiguousSource (b / size) * size + b % size)
  let h' := { h with bytes := bytes }
  return (h'.alloc host (by simp [host]), h.next)

/-- The state of the offload loop of `save_for_backward`. -/
structure Offloading where
  heap : TensorHeap
  handles : List TensorId := []
  devices : List Device := []
  /-- The source of the first tensor offloaded. -/
  first : Option Device := none

namespace SavedTensors

variable (s : SavedTensors)

def shouldOffload (enabled : Bool) (t : TensorImpl) : Except Exn Bool :=
  if t.device = .cpu then .ok false
  else if s.offloadPolicy = .never then .ok false
  else if s.offloadPolicy = .inherit ∧ enabled = false then .ok false
  else if 0 < s.offloadMinBytes then do
    let n ← numel t.shape
    let tensorBytes := TensorImpl.asSizeT n * dtypeSize t.dtype % 18446744073709551616
    return !decide (tensorBytes < s.offloadMinBytes)
  else .ok true

def offloadStep (enabled : Bool) (fresh : TensorHeap → Nat) (o : Offloading) (id : TensorId) :
    Except Exn Offloading := do
  let t := o.heap.impls id
  let offload ← s.shouldOffload enabled t
  if offload then do
    let (heap, copy) ← o.heap.toHost fresh id
    return { heap := heap, handles := o.handles ++ [copy], devices := o.devices ++ [t.device],
             first := o.first.or (some t.device) }
  else return { o with handles := o.handles ++ [id], devices := o.devices ++ [.cpu] }

/-- What is recorded of the view base: zero for a tensor that is not a view. -/
def viewBaseVersion (h : TensorHeap) (id : TensorId) : Nat :=
  match (h.impls id).viewBase with
  | some b => (h.impls b).version
  | none => 0

def saveForBackward (enabled : Bool) (fresh : TensorHeap → Nat) (h : TensorHeap)
    (tensors : List TensorId) : Except Exn (SavedTensors × TensorHeap) := do
  let o ← tensors.foldlM (s.offloadStep enabled fresh) { heap := h }
  return ({ s with
    savedTensors := o.handles
    savedVersions := o.handles.map fun id => (o.heap.impls id).version
    savedViewBaseVersions := o.handles.map (viewBaseVersion o.heap)
    preOffloadVersions := tensors.map fun id => (h.impls id).version
    offloadedDevices := o.devices
    offloadedDevice := o.first.getD s.offloadedDevice
    tensorsOffloaded := s.tensorsOffloaded || o.first.isSome
    wasOffloaded := s.wasOffloaded || o.first.isSome }, o.heap)

/-- The check of one saved tensor. -/
def validateSavedTensor (h : TensorHeap) (i : Nat) (id : TensorId) : Except Exn Unit :=
  if s.needsSavedTensor i = false then .ok ()
  else if s.wasOffloaded then .ok ()
  else do
    throwIf ((h.impls id).version ≠ s.savedVersions.getD i 0) (.runtimeError
      ("one of the variables needed for gradient computation has been modified by an " ++
        "in-place operation: saved tensor " ++ toString i ++ " in " ++ s.name ++
        ". Use .clone() before in-place ops on tensors used in autograd computation, or " ++
        "check that the backward function overrides needs_saved_tensor() for inputs it " ++
        "doesn't read."))
    if i < s.savedViewBaseVersions.length ∧ s.savedViewBaseVersions.getD i 0 ≠ 0 then
      match (h.impls id).viewBase with
      | some b =>
        throwIf ((h.impls b).version ≠ s.savedViewBaseVersions.getD i 0) (.runtimeError
          ("a view's base tensor has been modified by an in-place operation after the " ++
            "forward pass. This invalidates the saved view. Use .clone() on the view " ++
            "before the in-place modification."))
      | none => return ()
    else return ()

def validateSavedTensors (h : TensorHeap) : Except Exn Unit := do
  throwIf (s.savedTensors.length ≠ s.savedVersions.length) (.runtimeError
    ("saved_tensors_/saved_versions_ size mismatch: " ++ toString s.savedTensors.length ++
      " tensors vs " ++ toString s.savedVersions.length ++ " versions in " ++ s.name))
  forM s.savedTensors.zipIdx fun p => s.validateSavedTensor h p.2 p.1

/-- The saved tensor, or the base recorded for it, was modified since the save. -/
def Stale (h : TensorHeap) (i : Nat) (id : TensorId) : Prop :=
  (h.impls id).version ≠ s.savedVersions.getD i 0 ∨
    (i < s.savedViewBaseVersions.length ∧ s.savedViewBaseVersions.getD i 0 ≠ 0) ∧
      ∃ b, (h.impls id).viewBase = some b ∧ (h.impls b).version ≠ s.savedViewBaseVersions.getD i 0

variable {s} {h : TensorHeap} {enabled : Bool} {fresh : TensorHeap → Nat}

theorem validateSavedTensor_eq_ok {i : Nat} {id : TensorId} :
    s.validateSavedTensor h i id = .ok () ↔
      (s.needsSavedTensor i = true → s.wasOffloaded = false → ¬ s.Stale h i id) := by
  unfold validateSavedTensor Stale
  generalize s.savedViewBaseVersions.getD i 0 = baseVersion
  split_ifs with hneeds hoff hbase
  · simp [hneeds]
  · simp [hoff]
  · cases hv : (h.impls id).viewBase <;> simp_all
  · simp_all

theorem validateSavedTensors_eq_ok :
    s.validateSavedTensors h = .ok () ↔
      s.savedTensors.length = s.savedVersions.length ∧
        ∀ i id, s.savedTensors[i]? = some id → s.needsSavedTensor i = true →
          s.wasOffloaded = false → ¬ s.Stale h i id := by
  simp only [validateSavedTensors, bind_eq_ok, throwIf_eq_ok, forM_eq_ok, not_not, Prod.forall,
    mem_zipIdx_iff_getElem?, validateSavedTensor_eq_ok]
  constructor
  · rintro ⟨-, hlen, hall⟩
    exact ⟨hlen, fun i id => hall id i⟩
  · rintro ⟨hlen, hall⟩
    exact ⟨(), hlen, fun id i => hall i id⟩

/-- The check throws exactly when the sizes disagree or some tensor that is
needed and was not offloaded is stale. -/
theorem validateSavedTensors_throws :
    (∃ e, s.validateSavedTensors h = .error e) ↔
      (s.savedTensors.length = s.savedVersions.length →
        ∃ i id, s.savedTensors[i]? = some id ∧ s.needsSavedTensor i = true ∧
          s.wasOffloaded = false ∧ s.Stale h i id) := by
  rw [throws_iff, validateSavedTensors_eq_ok]
  push Not
  rfl

theorem offloadStep_kept {enabled : Bool} {fresh : TensorHeap → Nat} {o : Offloading}
    {tensors : List TensorId}
    (hkeep : ∀ id ∈ tensors, s.shouldOffload enabled (o.heap.impls id) = .ok false) :
    tensors.foldlM (s.offloadStep enabled fresh) o =
      .ok { o with handles := o.handles ++ tensors,
                   devices := o.devices ++ tensors.map fun _ => .cpu } := by
  induction tensors generalizing o with
  | nil => simp [pure, Except.pure]
  | cons id rest ih =>
    have hrest := @ih { o with handles := o.handles ++ [id], devices := o.devices ++ [.cpu] }
      fun id' hid' => hkeep id' (mem_cons_of_mem _ hid')
    have hstep : s.offloadStep enabled fresh o id =
        .ok { o with handles := o.handles ++ [id], devices := o.devices ++ [.cpu] } := by
      simp [offloadStep, hkeep id mem_cons_self, bind, Except.bind, pure, Except.pure]
    rw [foldlM_cons, hstep]
    simpa [Except.bind] using hrest

/-- Nothing offloaded: the handles themselves are kept, with the counters they
and their bases have now, and memory is not touched. -/
theorem saveForBackward_kept {tensors : List TensorId}
    (hkeep : ∀ id ∈ tensors, s.shouldOffload enabled (h.impls id) = .ok false) :
    s.saveForBackward enabled fresh h tensors =
      .ok ({ s with
        savedTensors := tensors
        savedVersions := tensors.map fun id => (h.impls id).version
        savedViewBaseVersions := tensors.map (viewBaseVersion h)
        preOffloadVersions := tensors.map fun id => (h.impls id).version
        offloadedDevices := tensors.map fun _ => .cpu }, h) := by
  have hloop := @offloadStep_kept s enabled fresh { heap := h } tensors hkeep
  simp [saveForBackward, hloop, bind, Except.bind, pure, Except.pure]

/-- After a save of one tensor that is kept and needed, the check throws when
its counter moved or, for a view of a base modified before the save, when the
base's counter moved. -/
theorem validate_saved_one {s' : SavedTensors} {v : TensorId} {h₁ h₂ : TensorHeap}
    (hneeds : s.needsSavedTensor 0 = true) (hnever : s.wasOffloaded = false)
    (hkeep : s.shouldOffload enabled (h.impls v) = .ok false)
    (hsave : s.saveForBackward enabled fresh h [v] = .ok (s', h₁)) :
    h₁ = h ∧ ((∃ e, s'.validateSavedTensors h₂ = .error e) ↔
      (h₂.impls v).version ≠ (h.impls v).version ∨
        viewBaseVersion h v ≠ 0 ∧
          ∃ b, (h₂.impls v).viewBase = some b ∧ (h₂.impls b).version ≠ viewBaseVersion h v) := by
  rw [saveForBackward_kept (by simpa using hkeep)] at hsave
  obtain ⟨rfl, rfl⟩ := Prod.mk.inj (Except.ok.inj hsave)
  refine ⟨rfl, ?_⟩
  rw [validateSavedTensors_throws]
  simp only [length_cons, length_nil, map_cons, map_nil, true_implies]
  constructor
  · rintro ⟨i, id, hid, -, -, hstale⟩
    cases i with
    | zero =>
      obtain rfl : v = id := by simpa using hid
      simpa [Stale] using hstale
    | succ i => simp at hid
  · intro hstale
    exact ⟨0, v, rfl, hneeds, hnever, by simpa [Stale] using hstale⟩

/-- One row of two bytes, already modified the given number of times. -/
def rowHeap (version : Nat) : TensorHeap where
  impls := fun _ => { storage := ⟨0, 2, by decide⟩, shape := [1, 2], strides := [2, 1],
                      dtype := .uint8, version := version }
  next := 1
  bytes := fun _ _ => 0
  base_lt := by simp

/-- A function that needs all it saves, before any save. -/
def noneSaved : SavedTensors := { name := "MulBackward", needsSavedTensor := fun _ => true }

/-- The event moves neither the counter of `id` nor that of its base. -/
def Spares (h : TensorHeap) (id : TensorId) (e : TensorHeap.Event) : Prop :=
  ¬ e.Writes id ∧ ∀ b, (h.impls id).viewBase = some b → ¬ e.Writes b

/-- A view is saved and then its parent `base` is modified, with any other work
in between. The check notices when the view is `base` itself, or when `base` is
no view and had been modified before the save. -/
theorem base_write_detected_iff {h h₁ h₂ h₃ h₄ : TensorHeap} {base v : TensorId}
    {ops : List ViewOp} {s s' : SavedTensors} {enabled : Bool} {fresh : TensorHeap → Nat}
    {before after : List TensorHeap.Event} {bytes : Memory} {kernelBumps : Nat}
    (hlive : base < h.next) (chain : ViewChain (fun _ => True) h base ops h₁ v)
    (hops : ∀ op ∈ ops, op.RecordsBase) (hneeds : s.needsSavedTensor 0 = true)
    (hnever : s.wasOffloaded = false)
    (hkeep : s.shouldOffload enabled (h₁.impls v) = .ok false)
    (hsave : s.saveForBackward enabled fresh h₁ [v] = .ok (s', h₂))
    (hbefore : h₂.run before = .ok h₃)
    (hafter : (h₃.inplace base bytes kernelBumps).run after = .ok h₄)
    (hspare : ∀ e ∈ before ++ after, Spares h₁ base e ∧ ¬ e.Writes v) :
    (∃ e, s'.validateSavedTensors h₄ = .error e) ↔
      v = base ∨ (h₁.impls base).viewBase = none ∧ (h₁.impls base).version ≠ 0 := by
  obtain ⟨rfl, hthrows⟩ := validate_saved_one hneeds hnever hkeep hsave
  rw [hthrows]
  obtain ⟨hle, hbase, himpls⟩ := TensorHeap.run_frame hbefore
  obtain ⟨-, hbase', himpls'⟩ := TensorHeap.run_frame hafter
  have hlive₂ : base < h₂.next := lt_of_lt_of_le hlive chain.frame.1
  have hv : v < h₂.next := (chain.origin hlive).1
  -- Only `base` is written, so every other tensor in use is as it was at the save.
  have hother : ∀ id < h₂.next, id ≠ base → (∀ e ∈ before ++ after, ¬ e.Writes id) →
      h₄.impls id = h₂.impls id := by
    intro id hid hne hno
    rw [himpls' id (lt_of_lt_of_le hid hle) fun e he => hno e (mem_append_right _ he),
      TensorHeap.impls_inplace_of_ne bytes kernelBumps hne,
      himpls id hid fun e he => hno e (mem_append_left _ he)]
  have hmoved : (h₄.impls base).version ≠ (h₂.impls base).version := by
    rw [himpls' base (lt_of_lt_of_le hlive₂ hle) fun e he =>
        (hspare e (mem_append_right _ he)).1.1,
      ← himpls base hlive₂ fun e he => (hspare e (mem_append_left _ he)).1.1]
    exact TensorHeap.version_inplace_ne base bytes kernelBumps
  by_cases hvb : v = base
  · subst hvb
    simp [hmoved]
  · have hsame : h₄.impls v = h₂.impls v := hother v hv hvb fun e he => (hspare e he).2
    have hviewBase : (h₂.impls v).viewBase = some ((h₂.impls base).viewBase.getD base) := by
      have heq := (chain.viewBase_eq hlive hops).resolve_left hvb
      rw [heq, TensorImpl.baseFor_eq, chain.frame.2.1 base hlive]
    rw [hsame]
    simp only [viewBaseVersion, hviewBase, ne_eq, not_true_eq_false, false_or, hvb,
      Option.some.injEq, exists_eq_left']
    cases hroot : (h₂.impls base).viewBase with
    | none => simp [hmoved]
    | some b =>
      have hb : b < base := h₂.base_lt base b hlive₂ hroot
      have hunmoved : h₄.impls b = h₂.impls b :=
        hother b (lt_trans hb hlive₂) (ne_of_lt hb) fun e he => (hspare e he).1.2 b hroot
      simp [hunmoved]

/-- The transposed view of a row that was modified once before. -/
theorem base_write_detected_modified : ∃ h₁ s' h₂,
    (rowHeap 1).view 0 (.transpose 0 1) = .ok (h₁, 1) ∧
      noneSaved.saveForBackward false (fun _ => 7) h₁ [1] = .ok (s', h₂) ∧
      ∃ e, s'.validateSavedTensors (h₂.inplace 0 (fun _ _ => 5) 1) = .error e := by
  refine ⟨_, _, _, rfl, rfl, ?_⟩
  have chain := (@ViewChain.refl (fun _ => True) (rowHeap 1) 0).view
    (show (rowHeap 1).view 0 (.transpose 0 1) = .ok _ from rfl)
  apply (base_write_detected_iff (by decide) chain (by simp [ViewOp.RecordsBase]) rfl rfl rfl
    (show noneSaved.saveForBackward false (fun _ => 7) _ [1] = .ok _ from rfl)
    (show TensorHeap.run _ [] = .ok _ from rfl) (show TensorHeap.run _ [] = .ok _ from rfl)
    (by simp)).mpr
  exact Or.inr ⟨rfl, by decide⟩

/-- A base never modified before the save: its recorded version is zero, which
reads as "not a view", and the write goes unnoticed. -/
theorem base_write_missed :
    ¬ ∀ (h h₁ h₂ : TensorHeap) (base v : TensorId) (ops : List ViewOp) (s s' : SavedTensors)
      (enabled : Bool) (fresh : TensorHeap → Nat) (bytes : Memory) (kernelBumps : Nat),
      base < h.next → ops ≠ [] → ViewChain (fun _ => True) h base ops h₁ v →
      (∀ op ∈ ops, op.RecordsBase) → s.needsSavedTensor 0 = true → s.wasOffloaded = false →
      s.shouldOffload enabled (h₁.impls v) = .ok false →
      s.saveForBackward enabled fresh h₁ [v] = .ok (s', h₂) →
      ∃ e, s'.validateSavedTensors (h₂.inplace base bytes kernelBumps) = .error e := by
  intro hall
  have chain := (@ViewChain.refl (fun _ => True) (rowHeap 0) 0).view
    (show (rowHeap 0).view 0 (.transpose 0 1) = .ok _ from rfl)
  obtain ⟨e, he⟩ := hall _ _ _ _ _ _ noneSaved _ false (fun _ => 7) (fun _ _ => 5) 1 (by decide)
    (by simp) chain (by simp [ViewOp.RecordsBase]) rfl rfl rfl rfl
  cases he

/-- The new bytes differ in a byte that an element of `id` is read from. -/
def ReadsChanged (h : TensorHeap) (id : TensorId) (bytes : Memory) : Prop :=
  ∃ idx, Within idx (h.impls id).shape ∧ ∃ k < dtypeSize (h.impls id).dtype,
    bytes (h.impls id).storage.id ((h.impls id).addr idx * dtypeSize (h.impls id).dtype + k) ≠
      h.bytes (h.impls id).storage.id ((h.impls id).addr idx * dtypeSize (h.impls id).dtype + k)

/-- A tensor is saved and a chain of views of it, begun before the save or after,
ends in the tensor that is written. The check notices a write to what the saved
tensor reads only when the chain led back to the saved handle. -/
theorem view_write_detected_iff {h h₁ h₂ h₃ : TensorHeap} {x u w : TensorId}
    {ops₁ ops₂ : List ViewOp} {s s' : SavedTensors} {enabled : Bool}
    {fresh : TensorHeap → Nat} {bytes : Memory} {kernelBumps : Nat}
    (hlive : x < h.next) (chain₁ : ViewChain (fun _ => True) h x ops₁ h₁ u)
    (hneeds : s.needsSavedTensor 0 = true) (hnever : s.wasOffloaded = false)
    (hkeep : s.shouldOffload enabled (h₁.impls x) = .ok false)
    (hsave : s.saveForBackward enabled fresh h₁ [x] = .ok (s', h₂))
    (chain₂ : ViewChain (Spares h₁ x) h₂ u ops₂ h₃ w) :
    (ReadsChanged h₃ x bytes →
        ∃ e, s'.validateSavedTensors (h₃.inplace w bytes kernelBumps) = .error e) ↔
      (ReadsChanged h₃ x bytes → w = x) := by
  obtain ⟨rfl, hthrows⟩ := validate_saved_one hneeds hnever hkeep hsave
  rw [hthrows]
  have hx : x < h₂.next := lt_of_lt_of_le hlive chain₁.frame.1
  have hsame : h₃.impls x = h₂.impls x := chain₂.frame.2.2 x hx fun e he => he.1
  -- A chain that leaves `x` ends in a tensor newer than `x` and the base of `x`.
  have hnew : w = x ∨ h.next ≤ w := by
    rcases (chain₂.origin (chain₁.origin hlive).1).2 with rfl | hle
    · exact (chain₁.origin hlive).2
    · exact Or.inr (chain₁.frame.1.trans hle)
  apply forall_congr'
  intro _
  by_cases hwx : w = x
  · subst hwx
    have hmoved := TensorHeap.version_inplace_ne (h := h₃) w bytes kernelBumps
    rw [hsame] at hmoved
    simp [hmoved]
  · have hle : h.next ≤ w := hnew.resolve_left hwx
    have hkept : ∀ id < h.next,
        (h₃.inplace w bytes kernelBumps).impls id = h₃.impls id := by
      intro id hid
      exact TensorHeap.impls_inplace_of_ne bytes kernelBumps (ne_of_lt (lt_of_lt_of_le hid hle))
    rw [hkept x hlive, hsame]
    simp only [ne_eq, not_true_eq_false, false_or, hwx, iff_false, not_and, not_exists, not_not]
    intro _ b hb
    have hbx : b < x := h₂.base_lt x b hx hb
    rw [hkept b (lt_trans hbx hlive), chain₂.frame.2.2 b (lt_trans hbx hx) fun e he => he.2 b hb]
    simp [viewBaseVersion, hb]

/-- A `squeeze` of an axis that has two entries hands the saved row back. -/
theorem view_write_detected_squeezed : ∃ s' h₁,
    noneSaved.saveForBackward false (fun _ => 7) (rowHeap 0) [0] = .ok (s', h₁) ∧
      h₁.view 0 (.squeeze (some 1)) = .ok (h₁, 0) ∧ ReadsChanged h₁ 0 (fun _ _ => 5) ∧
      ∃ e, s'.validateSavedTensors (h₁.inplace 0 (fun _ _ => 5) 1) = .error e := by
  have hreads : ReadsChanged (rowHeap 0) 0 (fun _ _ => 5) :=
    ⟨[0, 0], by simp [rowHeap, Within], 0, by decide, by decide⟩
  have chain := (@ViewChain.refl (Spares (rowHeap 0) 0) (rowHeap 0) 0).view
    (show (rowHeap 0).view 0 (.squeeze (some 1)) = .ok _ from rfl)
  refine ⟨_, _, rfl, rfl, hreads, ?_⟩
  exact (view_write_detected_iff (by decide) .refl rfl rfl rfl
    (show noneSaved.saveForBackward false (fun _ => 7) _ [0] = .ok _ from rfl) chain).mpr
    (fun _ => rfl) hreads

/-- A write through `x.detach()` leaves the counter of the saved `x` alone. -/
theorem view_write_missed :
    ¬ ∀ (h h₁ h₂ h₃ : TensorHeap) (x u w : TensorId) (ops₁ ops₂ : List ViewOp)
      (s s' : SavedTensors) (enabled : Bool) (fresh : TensorHeap → Nat) (bytes : Memory)
      (kernelBumps : Nat),
      x < h.next → ViewChain (fun _ => True) h x ops₁ h₁ u → s.needsSavedTensor 0 = true →
      s.wasOffloaded = false → s.shouldOffload enabled (h₁.impls x) = .ok false →
      s.saveForBackward enabled fresh h₁ [x] = .ok (s', h₂) →
      ViewChain (Spares h₁ x) h₂ u ops₂ h₃ w → ReadsChanged h₃ x bytes →
      ∃ e, s'.validateSavedTensors (h₃.inplace w bytes kernelBumps) = .error e := by
  intro hall
  have chain := (@ViewChain.refl (Spares (rowHeap 0) 0) (rowHeap 0) 0).view
    (show (rowHeap 0).view 0 .detach = .ok _ from rfl)
  obtain ⟨e, he⟩ := hall _ _ _ _ _ _ _ _ _ noneSaved _ false (fun _ => 7) (fun _ _ => 5) 1
    (by decide) .refl rfl rfl rfl rfl chain
    ⟨[0, 0], by simp [rowHeap, Within, TensorHeap.alloc], 0, by decide, by decide⟩
  cases he

end SavedTensors

end Tenzor
