import Tenzor.Io.Unpickler

/-!
# What a pickle program builds

Every tensor of a program is on a storage object of its own and has the type, the shape, the
strides and the bytes that the call that rebuilt it describes.
-/

namespace Tenzor.TorchPickle

open Throwing Wrap64 Tenzor.Lite List
open Transitions hiding bind_eq_ok

/-- The tensor at `p` is what its source describes. -/
structure Faithful (zip : ZipReader) (archivePrefix : Text) (p : Ptr) (source : Rebuild)
    (t : LoadedTensor) : Prop where
  own : t.impl.storage.id = p
  dtype : t.impl.dtype = source.info.dtype
  shape : t.impl.shape = source.shape
  offset : t.impl.offset = 0
  strides : t.impl.strides = Strided.rowMajor source.shape
  stride : source.stride = [] ∨ t.impl.strides = source.stride
  bytes : ∃ entry view, storageEntry zip archivePrefix source.storageKey = .ok entry ∧
    zip.read entry = .ok view ∧ 0 ≤ source.storageOffset ∧
    (source.storageOffset.toNat + source.shape.prod.toNat) * dtypeSize source.info.dtype ≤
      view.length ∧
    t.data = (view.drop (source.storageOffset.toNat * dtypeSize source.info.dtype)).take
      (source.shape.prod.toNat * dtypeSize source.info.dtype)

/-- The count of the elements is their product, when it does not overflow. -/
theorem foldlM_countStep {shape : List Int} {a n : Int} (h : shape.foldlM countStep a = .ok n) :
    n = a * shape.prod := by
  induction shape generalizing a with
  | nil =>
    obtain rfl : a = n := pure_eq_ok.mp h
    exact (mul_one a).symm
  | cons d shape ih =>
    obtain ⟨x, hx, hrest⟩ := foldlM_cons_eq_ok.mp h
    simp only [countStep, bind_eq_ok, pure_eq_ok] at hx
    obtain ⟨_, -, _, -, rfl⟩ := hx
    rw [ih hrest, prod_cons, mul_assoc]

/-- Strides that pass the check are the row-major ones. -/
theorem eq_of_checkStrides {shape stride strides : List Int} {i : ℕ} {e : Int}
    (hlen : stride.length = shape.length) (hstrides : computeStrides shape = .ok strides)
    (h : checkStrides i (shape.zip stride) = .ok e) :
    strides = stride ∧ e = wrap64 ((strides.headD 1) * (shape.headD 1)) := by
  induction shape using computeStrides.induct generalizing stride strides i e with
  | case1 =>
    obtain rfl := length_eq_zero_iff.mp hlen
    obtain rfl := Except.ok.inj hstrides
    obtain rfl := Except.ok.inj h
    exact ⟨rfl, by decide⟩
  | case2 d =>
    obtain ⟨s, rfl⟩ := length_eq_one_iff.mp hlen
    obtain rfl := Except.ok.inj hstrides
    simp only [zip_cons_cons, zip_nil_right, checkStrides, bind_eq_ok, pure_eq_ok,
      throwIf_eq_ok, not_not] at h
    obtain ⟨expected, rfl, _, rfl, rfl⟩ := h
    exact ⟨rfl, rfl⟩
  | case3 d m rest ih =>
    cases stride with
    | nil => cases hlen
    | cons s stride =>
      simp only [computeStrides, bind_eq_ok, pure_eq_ok] at hstrides
      obtain ⟨tail, htail, x, hx, rfl⟩ := hstrides
      obtain ⟨hin, rfl⟩ := checkedMul_eq_ok.mp hx
      rw [zip_cons_cons, checkStrides] at h
      simp only [bind_eq_ok, pure_eq_ok, throwIf_eq_ok, not_not] at h
      obtain ⟨expected, hexpected, _, rfl, rfl⟩ := h
      obtain ⟨rfl, hvalue⟩ := ih (Nat.succ.inj hlen) htail hexpected
      rw [headD_cons, wrap64_of_inInt64 hin] at hvalue
      rw [hvalue]
      exact ⟨rfl, rfl⟩

/-- A built tensor is what its source describes. -/
theorem buildTensorFromStorage_ok {zip : ZipReader} {archivePrefix : Text} {p : Ptr}
    {source : Rebuild} {t : LoadedTensor}
    (h : buildTensorFromStorage zip archivePrefix p source = .ok t) :
    Faithful zip archivePrefix p source t := by
  simp only [buildTensorFromStorage, bind_eq_ok, pure_eq_ok, throwIf_eq_ok, not_and, not_not,
    not_or, not_lt] at h
  obtain ⟨entry, hentry, view, hview, _, hoffset, n, hn, _, -, _, hsize, _, hrank, e, hcheck, u,
    hu, rfl⟩ := h
  obtain ⟨-, hstrides, -, -, hshape, hrow, hstart, hdtype, -⟩ := TensorImpl.allocate_ok hu
  obtain rfl := foldlM_countStep hn
  rw [one_mul, source.info.size_eq] at hsize
  refine ⟨TensorImpl.allocate_storageId hu, hdtype, hshape, hstart, hrow, ?_, entry, view, hentry, hview,
    hoffset, ?_, ?_⟩
  · by_cases hnil : source.stride = []
    · exact .inl hnil
    · rw [if_neg hnil] at hcheck
      exact .inr (hrow.trans (eq_of_checkStrides (hrank hnil) hstrides hcheck).1)
  · rw [Nat.add_mul]
    exact hsize
  · rw [one_mul, source.info.size_eq]

section Machine

variable (zip : ZipReader) (archivePrefix : Text)

/-- Every tensor is what its source describes. -/
def Good (s : Unpickler) : Prop :=
  ∀ p source t, s.heap p = .tensorObj source t → Faithful zip archivePrefix p source t

/-- Every tensor has been rebuilt from its source. -/
def Built (s : Unpickler) : Prop :=
  ∀ p source t, s.heap p = .tensorObj source t →
    buildTensorFromStorage zip archivePrefix p source = .ok t

/-- Nothing is put back into the program, and the tensors stay those that were rebuilt. -/
structure Advances (s s' : Unpickler) : Prop where
  rest : s'.rest.length ≤ s.rest.length
  built : Built zip archivePrefix s → Built zip archivePrefix s'

instance : Std.Refl (Advances zip archivePrefix) where
  refl _ := ⟨le_rfl, id⟩

instance : IsTrans Unpickler (Advances zip archivePrefix) where
  trans _ _ _ h h' := ⟨h'.rest.trans h.rest, h'.built ∘ h.built⟩

variable {zip archivePrefix} {s s' : Unpickler} {v : PValue} {size : Machine ℕ} {bytes : List UInt8}
  {root : Ptr}

/-- A step that leaves the heap alone. -/
theorem Advances.of_heap (hrest : s'.rest.length ≤ s.rest.length) (hheap : s'.heap = s.heap) :
    Advances zip archivePrefix s s' := by
  refine ⟨hrest, fun h p source t hp => ?_⟩
  rw [hheap] at hp
  exact h p source t hp

/-- A value that is no tensor, or one that has been rebuilt from its source, is stored. -/
theorem Advances.update {p : Ptr} (hrest : s'.rest.length ≤ s.rest.length)
    (hheap : s'.heap = Function.update s.heap p v)
    (hv : ∀ source t, v = .tensorObj source t →
      buildTensorFromStorage zip archivePrefix p source = .ok t) :
    Advances zip archivePrefix s s' := by
  refine ⟨hrest, fun h q source t hq => ?_⟩
  rw [hheap] at hq
  by_cases hqp : q = p
  · subst hqp
    rw [Function.update_self] at hq
    exact hv source t hq
  · rw [Function.update_of_ne hqp] at hq
    exact h q source t hq

theorem steps_fail {α : Type} (message : String) :
    Steps (Advances zip archivePrefix) (fail message : Machine α) := Steps.throw _

/-- A byte that is read is gone. -/
theorem steps_readByte : Steps (Advances zip archivePrefix) readByte := by
  refine Steps.inspect fun s b s' h => ?_
  cases hrest : s.rest with
  | nil =>
    rw [hrest] at h
    exact nomatch h
  | cons c rest =>
    rw [hrest] at h
    obtain ⟨-, rfl⟩ := Prod.mk.inj (Except.ok.inj h)
    refine .of_heap ?_ rfl
    rw [hrest]
    exact Nat.le_succ _

theorem steps_readBytes (eof : String) (n : ℕ) :
    Steps (Advances zip archivePrefix) (readBytes eof n) := by
  refine Steps.inspect fun s b s' h => ?_
  split at h
  · exact nomatch h
  · obtain ⟨-, rfl⟩ := Prod.mk.inj (Except.ok.inj h)
    refine .of_heap ?_ rfl
    rw [length_drop]
    exact Nat.sub_le _ _

theorem steps_readU8 : Steps (Advances zip archivePrefix) readU8 :=
  steps_readByte.bind fun _ => Steps.pure _

theorem steps_readLe (n : ℕ) : Steps (Advances zip archivePrefix) (readLe n) :=
  (steps_readBytes _ n).bind fun _ => Steps.pure _

theorem steps_readLine : Steps (Advances zip archivePrefix) readLine := by
  refine Steps.inspect fun s b s' h => ?_
  cases hrest : s.rest.dropWhile (· ≠ 10) with
  | nil =>
    simp only [hrest] at h
    exact nomatch h
  | cons c rest =>
    simp only [hrest] at h
    obtain ⟨-, rfl⟩ := Prod.mk.inj (Except.ok.inj h)
    refine .of_heap ?_ rfl
    have hle := (dropWhile_suffix (· ≠ 10) (l := s.rest)).length_le
    rw [hrest] at hle
    exact (Nat.le_succ _).trans hle

theorem steps_pushPtr (p : Ptr) : Steps (Advances zip archivePrefix) (pushPtr p) :=
  Steps.modify fun _ => .of_heap le_rfl rfl

theorem steps_push (hv : ∀ source t, v ≠ .tensorObj source t) :
    Steps (Advances zip archivePrefix) (push v) :=
  Steps.modify fun _ => .update le_rfl rfl fun source t h => (hv source t h).elim

theorem steps_store (p : Ptr) (hv : ∀ source t, v ≠ .tensorObj source t) :
    Steps (Advances zip archivePrefix) (store p v) :=
  Steps.modify fun _ => .update le_rfl rfl fun source t h => (hv source t h).elim

/-- A look at the top of the stack. -/
theorem steps_ofStack {what : String} {f : Ptr → List Ptr → Unpickler → Machine Ptr}
    (hf : ∀ p stack s b s', f p stack s s = .ok (b, s') → Advances zip archivePrefix s s') :
    Steps (Advances zip archivePrefix) (do
      let s ← get
      match s.stack with
      | [] => fail what
      | p :: stack => f p stack s) := by
  refine Steps.inspect fun s b s' h => ?_
  cases hstack : s.stack with
  | nil =>
    rw [hstack] at h
    exact nomatch h
  | cons p stack =>
    rw [hstack] at h
    exact hf p stack s b s' h

theorem steps_pop : Steps (Advances zip archivePrefix) pop :=
  steps_ofStack fun _ _ _ _ _ h => (Prod.mk.inj (Except.ok.inj h)).2 ▸ .of_heap le_rfl rfl

theorem steps_top : Steps (Advances zip archivePrefix) top :=
  steps_ofStack fun _ _ _ _ _ h => (Prod.mk.inj (Except.ok.inj h)).2 ▸ .of_heap le_rfl rfl

theorem steps_object (p : Ptr) : Steps (Advances zip archivePrefix) (object p) :=
  Steps.get.bind fun _ => Steps.pure _

/-- The heap stays when the stack is taken down to a mark. -/
theorem steps_popToMark : Steps (Advances zip archivePrefix) popToMark := by
  refine Steps.inspect fun s b s' h => ?_
  cases hmark : splitAtMark s.heap s.stack with
  | none =>
    rw [hmark] at h
    exact nomatch h
  | some r =>
    rw [hmark] at h
    obtain ⟨-, rfl⟩ := Prod.mk.inj (Except.ok.inj h)
    exact .of_heap le_rfl rfl

theorem steps_linkNext (ps : List Ptr) : Steps (Advances zip archivePrefix) (linkNext ps) :=
  Steps.modify fun _ => .of_heap le_rfl rfl

theorem steps_linkTop (state : Ptr) : Steps (Advances zip archivePrefix) (linkTop state) := by
  refine Steps.modify fun s => ?_
  split
  · exact .of_heap le_rfl rfl
  · exact .of_heap le_rfl rfl

theorem steps_memoize (key : ℕ) : Steps (Advances zip archivePrefix) (memoize key) :=
  steps_top.bind fun _ => Steps.modify fun _ => .of_heap le_rfl rfl

theorem steps_recall (opcode : String) (key : ℕ) :
    Steps (Advances zip archivePrefix) (recallMemo opcode key) := by
  refine Steps.get.bind fun s => ?_
  split
  · exact steps_fail _
  · exact steps_pushPtr _

theorem steps_longValue (opcode : String) (buf : List UInt8) :
    Steps (Advances zip archivePrefix) (longValue opcode buf) := by
  exact Steps.ite (steps_fail _) (Steps.ite (steps_fail _) (Steps.pure _))

theorem steps_resolvePersistentId (items : List Ptr) :
    Steps (Advances zip archivePrefix) (resolvePersistentId items >>= push) := by
  unfold resolvePersistentId
  rw [bind_assoc]
  refine (steps_object _).bind fun first => ?_
  refine Steps.dite_bind (fun h => ?_) fun h => Steps.throw _
  exact steps_push fun _ _ h => nomatch h

theorem steps_toIntVec (p : Ptr) : Steps (Advances zip archivePrefix) (toIntVec p) := by
  refine (steps_object p).bind fun v => ?_
  cases v with
  | tuple seq | list seq =>
    refine Steps.mapM (fun q => (steps_object q).bind fun v => ?_) seq
    cases v <;> first | exact Steps.pure _ | exact steps_fail _
  | _ => exact steps_fail _

/-- Reading the arguments makes no tensor. -/
theorem steps_rebuildArgs (fnName : Text) (args : List Ptr) :
    Steps (Advances zip archivePrefix) (rebuildArgs fnName args) := by
  match args with
  | [] | [_] | [_, _] | [_, _, _] => exact steps_fail _
  | storage :: offset :: size :: stride :: _ =>
    refine (steps_object storage).bind fun v => ?_
    cases v with
    | persistentId pid =>
      refine (steps_object _).bind fun dtype => ?_
      cases dtype with
      | global g =>
        refine (Steps.lift (torchStorageNameToDtype g)).bind fun info => ?_
        refine (steps_object _).bind fun key => ?_
        cases key with
        | string key =>
          refine (Steps.pure key).bind fun key => (steps_object _).bind fun offset => ?_
          cases offset with
          | int i =>
            exact (Steps.pure i).bind fun offset => (steps_toIntVec size).bind
              fun shape => (steps_toIntVec stride).bind fun stride => Steps.pure _
          | _ => exact steps_fail _
        | _ => exact steps_fail _
      | _ => exact steps_fail _
    | _ => exact steps_fail _

/-- The tensor that is pushed has been built from its source. -/
theorem steps_pushRebuilt (fnName : Text) (args : List Ptr) :
    Steps (Advances zip archivePrefix) (pushRebuilt zip archivePrefix fnName args) := by
  refine (steps_rebuildArgs fnName args).bind fun source => Steps.inspect fun s b s' h => ?_
  obtain ⟨tensor, mid, htensor, hpush⟩ := Transitions.bind_eq_ok.mp h
  obtain ⟨built, hbuilt, hmid⟩ := bind_eq_ok.mp htensor
  obtain ⟨rfl, rfl⟩ := Prod.mk.inj (Except.ok.inj hmid)
  obtain ⟨-, rfl⟩ := Prod.mk.inj (Except.ok.inj hpush)
  refine .update le_rfl rfl fun source' t hv => ?_
  obtain ⟨rfl, rfl⟩ := PValue.tensorObj.inj hv
  exact hbuilt

theorem steps_rebuildFromType (outer : List Ptr) :
    Steps (Advances zip archivePrefix) (rebuildFromType zip archivePrefix outer) := by
  match outer with
  | [] | [_] | [_, _] => exact steps_fail _
  | fn :: _ :: inner :: _ =>
    refine (steps_object fn).bind fun fn => ?_
    cases fn with
    | global g =>
      refine (steps_object inner).bind fun inner => ?_
      cases inner with
      | tuple seq => exact steps_pushRebuilt _ seq
      | list seq => exact steps_pushRebuilt _ seq
      | _ => exact steps_fail _
    | _ => exact steps_fail _

/-- Only the calls of the rebuilding functions make tensors. -/
theorem steps_reduceTo (g : GlobalRef) (args : Ptr) (seq : Option (List Ptr)) :
    Steps (Advances zip archivePrefix) (reduceTo zip archivePrefix g args seq) := by
  have hdict : Steps (Advances zip archivePrefix) (push (.dict [])) :=
    steps_push fun _ _ h => nomatch h
  have hcall (args : List Ptr) : Steps (Advances zip archivePrefix) (push (.reduceCall g args)) :=
    steps_push fun _ _ h => nomatch h
  cases seq with
  | none => exact Steps.ite hdict (hcall [args])
  | some seq =>
    exact Steps.ite (steps_rebuildFromType seq) (Steps.ite (steps_pushRebuilt _ seq)
      (Steps.ite hdict (hcall seq)))

theorem steps_doReduce : Steps (Advances zip archivePrefix) (doReduce zip archivePrefix) := by
  refine steps_pop.bind fun args => steps_pop.bind fun callable =>
    (steps_object callable).bind fun callable => ?_
  cases callable with
  | global g =>
    exact (steps_linkNext [args]).bind fun _ => (steps_object args).bind fun v =>
      steps_reduceTo g args _
  | _ => exact steps_fail _

theorem steps_addEntries (opcode : String) (entries : List (Ptr × Ptr)) :
    Steps (Advances zip archivePrefix) (addEntries opcode entries) := by
  refine steps_top.bind fun d => (steps_object d).bind fun v => ?_
  cases v with
  | dict old => exact steps_store d fun _ _ h => nomatch h
  | _ => exact steps_fail _

theorem steps_addItems (opcode : String) (items : List Ptr) :
    Steps (Advances zip archivePrefix) (addItems opcode items) := by
  refine steps_top.bind fun d => (steps_object d).bind fun v => ?_
  cases v with
  | list old => exact steps_store d fun _ _ h => nomatch h
  | _ => exact steps_fail _

theorem steps_pushString (hsize : Steps (Advances zip archivePrefix) size) :
    Steps (Advances zip archivePrefix) (pushString size) :=
  hsize.bind fun n => (steps_readBytes _ n).bind fun _ => steps_push fun _ _ h => nomatch h

theorem steps_pushBytes (hsize : Steps (Advances zip archivePrefix) size) :
    Steps (Advances zip archivePrefix) (pushBytes size) :=
  hsize.bind fun n => (steps_readBytes _ n).bind fun _ => steps_push fun _ _ h => nomatch h

/-- What an opcode does. -/
theorem steps_execute (op : Opcode) :
    Steps (Advances zip archivePrefix) (execute zip archivePrefix op) := by
  have htuple (items : List Ptr) : Steps (Advances zip archivePrefix) (push (.tuple items)) :=
    steps_push fun _ _ h => nomatch h
  have hint (i : Int) : Steps (Advances zip archivePrefix) (push (.int i)) :=
    steps_push fun _ _ h => nomatch h
  cases op with
  | stop => exact Steps.pure _
  | proto => exact steps_readByte.bind fun _ => Steps.pure _
  | frame => exact (steps_readLe 8).bind fun _ => Steps.pure _
  | mark => exact steps_push fun _ _ h => nomatch h
  | pushNone => exact steps_push fun _ _ h => nomatch h
  | newTrue => exact steps_push fun _ _ h => nomatch h
  | newFalse => exact steps_push fun _ _ h => nomatch h
  | binInt1 => exact steps_readU8.bind fun n => hint n
  | binInt2 => exact (steps_readLe 2).bind fun n => hint n
  | binInt => exact (steps_readLe 4).bind fun n => hint _
  | long1 =>
    exact steps_readU8.bind fun n => (steps_readBytes _ n).bind fun buf =>
      (steps_longValue _ buf).bind hint
  | long4 =>
    exact (steps_readLe 4).bind fun n => (steps_readBytes _ n).bind fun buf =>
      (steps_longValue _ buf).bind hint
  | binFloat => exact (steps_readBytes _ 8).bind fun _ => steps_push fun _ _ h => nomatch h
  | binUnicode => exact steps_pushString (steps_readLe 4)
  | shortBinUnicode => exact steps_pushString steps_readU8
  | binUnicode8 => exact steps_pushString (steps_readLe 8)
  | binString => exact steps_pushBytes (steps_readLe 4)
  | shortBinString => exact steps_pushBytes steps_readU8
  | binBytes => exact steps_pushBytes (steps_readLe 4)
  | shortBinBytes => exact steps_pushBytes steps_readU8
  | binBytes8 => exact steps_pushBytes (steps_readLe 8)
  | emptyDict => exact steps_push fun _ _ h => nomatch h
  | emptyList => exact steps_push fun _ _ h => nomatch h
  | emptyTuple => exact htuple []
  | tuple1 => exact steps_pop.bind fun a => htuple [a]
  | tuple2 => exact steps_pop.bind fun b => steps_pop.bind fun a => htuple [a, b]
  | tuple3 =>
    exact steps_pop.bind fun c => steps_pop.bind fun b => steps_pop.bind fun a => htuple [a, b, c]
  | tuple => exact steps_popToMark.bind htuple
  | list => exact steps_popToMark.bind fun items => steps_push fun _ _ h => nomatch h
  | binPut => exact steps_readU8.bind steps_memoize
  | longBinPut => exact (steps_readLe 4).bind steps_memoize
  | binGet => exact steps_readU8.bind (steps_recall _)
  | longBinGet => exact (steps_readLe 4).bind (steps_recall _)
  | memoize =>
    exact Steps.get.bind fun s => (steps_memoize _).bind fun _ =>
      Steps.modify fun _ => .of_heap le_rfl rfl
  | setItem => exact steps_pop.bind fun value => steps_pop.bind fun key => steps_addEntries _ _
  | setItems => exact steps_popToMark.bind fun items => Steps.ite (steps_fail _) (steps_addEntries _ _)
  | append => exact steps_pop.bind fun v => steps_addItems _ _
  | appends => exact steps_popToMark.bind fun items => steps_addItems _ items
  | pushGlobal =>
    exact steps_readLine.bind fun _ => steps_readLine.bind fun _ =>
      steps_push fun _ _ h => nomatch h
  | stackGlobal =>
    refine steps_pop.bind fun name => steps_pop.bind fun moduleName =>
      (steps_object name).bind fun name => (steps_object moduleName).bind fun moduleName => ?_
    cases name with
    | string name =>
      cases moduleName with
      | string moduleName => exact steps_push fun _ _ h => nomatch h
      | _ => exact steps_fail _
    | _ => exact steps_fail _
  | binPersId =>
    refine steps_pop.bind fun tup => (steps_object tup).bind fun v => ?_
    cases v with
    | tuple seq => exact steps_resolvePersistentId seq
    | _ => exact steps_fail _
  | reduce => exact steps_doReduce
  | build => exact steps_pop.bind steps_linkTop
  | emptySet => exact steps_push fun _ _ h => nomatch h

theorem steps_handleOp (op : UInt8) :
    Steps (Advances zip archivePrefix) (handleOp zip archivePrefix op) := by
  unfold handleOp
  cases opcodes.find? fun e => e.1 = op with
  | none => exact steps_fail _
  | some e =>
    exact Steps.ite (Steps.pure true) ((steps_execute e.2).bind fun _ => Steps.pure false)

/-- By induction on the rounds, from what an opcode does. -/
theorem steps_run (fuel : ℕ) : Steps (Advances zip archivePrefix) (run zip archivePrefix fuel) := by
  induction fuel with
  | zero => exact steps_fail _
  | succ fuel ih =>
    refine Steps.get.bind fun s => Steps.ite (steps_fail _) (steps_readByte.bind fun op =>
      (steps_handleOp op).bind fun stop => Steps.ite (Steps.get.bind fun s => ?_) ih)
    cases s.stack with
    | nil => exact steps_fail _
    | cons root stack => exact Steps.pure root

/-- What follows a round: the root on the top of the stack, or the rounds that are left. -/
def afterRound (zip : ZipReader) (archivePrefix : Text) (fuel : ℕ) (stop : Bool) : Machine Ptr :=
  if stop then do
    let s ← get
    match s.stack with
    | [] => fail "STOP with empty stack"
    | root :: _ => pure root
  else run zip archivePrefix fuel

theorem run_nil (h : s.rest = []) (fuel : ℕ) :
    run zip archivePrefix fuel s =
      .error (.runtimeError "torch_pickle: pickle stream ended without STOP") := by
  cases fuel with
  | zero => rfl
  | succ fuel =>
    cases s
    subst h
    rfl

theorem run_cons {op : UInt8} {rest : List UInt8} (h : s.rest = op :: rest) (fuel : ℕ) :
    run zip archivePrefix (fuel + 1) s =
      (handleOp zip archivePrefix op >>= afterRound zip archivePrefix fuel) { s with rest } := by
  cases s
  subst h
  rfl

/-- Every tensor of a loaded program has been rebuilt: a fresh machine has none. -/
theorem load_built (h : load zip archivePrefix bytes = .ok (root, s)) : Built zip archivePrefix s :=
  (steps_run bytes.length (start bytes) root s h).built fun _ _ _ hp => nomatch hp

/-- Every tensor of a loaded program is what its source describes. -/
theorem load_good (h : load zip archivePrefix bytes = .ok (root, s)) : Good zip archivePrefix s :=
  fun p source t hp => buildTensorFromStorage_ok (load_built h p source t hp)

end Machine

end Tenzor.TorchPickle
