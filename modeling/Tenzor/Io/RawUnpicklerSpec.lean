import Tenzor.Io.RawUnpickler
import Tenzor.Io.UnpicklerSpec
import Tenzor.Io.ZipArchiveSafe

/-!
# The unchecked accesses of the stack machine

The machine with unchecked accesses does what the machine over lists does, whatever program it is
given: each access is inside of what it is into, and each loop ends before its rounds do.
-/

namespace Tenzor.TorchPickle.Raw

variable {α : Type} {s : Unpickler} {n fuel : ℕ} {size : Machine ℕ} {size' : TorchPickle.Machine ℕ}
  {archive : Archive} {zip : ZipReader}

open Throwing Wrap64 Scanner Tenzor.Lite Unchecked
open Metered (Fault)
open Cursor (words)
open List

section Tensors

variable {archive : Archive} {zip : ZipReader} {archivePrefix : Text} {shape stride : List Int}

/-- The entry of a storage is found under the same name. -/
theorem storageEntry_mirrors (h : archive.Depicts zip) (storageKey : Text) :
    Mirrors (storageEntry archive archivePrefix storageKey)
      (TorchPickle.storageEntry zip archivePrefix storageKey) := by
  unfold storageEntry TorchPickle.storageEntry
  rw [h.hasEntry, h.hasEntry, h.findSuffix]
  refine Mirrors.ite (fun _ => rfl) fun _ => Mirrors.ite (fun _ => rfl) fun _ => ?_
  exact Mirrors.thrownIf fun _ => rfl

/-- The check of the axes from `i` on leaves the stride that the check of those before expects. -/
theorem checkStrides_mirrors (hlen : stride.length = shape.length) {i : ℕ} (hi : i ≤ shape.length) :
    Mirrors (within (TorchPickle.checkStrides i ((shape.zip stride).drop i)) >>=
        checkStrides shape stride i)
      (TorchPickle.checkStrides 0 (shape.zip stride) >>= fun _ => pure ()) := by
  induction i with
  | zero => exact (Mirrors.within _).bind fun _ _ => rfl
  | succ i ih =>
    have hshape : i < shape.length := hi
    have hstride : i < stride.length := hlen ▸ hshape
    have hzip : i < (shape.zip stride).length := by
      rw [length_zip]
      omega
    have hprev := ih (Nat.le_of_succ_le hi)
    rw [drop_eq_getElem_cons hzip, getElem_zip, TorchPickle.checkStrides] at hprev
    cases hrest : TorchPickle.checkStrides (i + 1) ((shape.zip stride).drop (i + 1)) with
    | error e =>
      rw [hrest] at hprev
      exact hprev
    | ok expected =>
      rw [hrest] at hprev
      refine Eq.trans ?_ hprev
      change checkStrides shape stride (i + 1) expected = _
      rw [checkStrides, item_of_lt hstride, item_of_lt hshape]
      change (thrownIf (stride[i] ≠ expected) _ >>= fun _ => checkStrides shape stride i _) =
        within (throwIf (stride[i] ≠ expected) _ >>= fun _ => pure _) >>= _
      unfold thrownIf throwIf
      split
      · rfl
      · rfl

/-- Strides of the rank of the shape are checked inside their vector. -/
theorem checkStride_mirrors (hrank : stride ≠ [] → stride.length = shape.length) :
    Mirrors (checkStride shape stride)
      (TorchPickle.checkStrides 0 (if stride = [] then [] else shape.zip stride) >>=
        fun _ => pure ()) := by
  unfold checkStride
  split
  · rfl
  · next hstride =>
      have hall := checkStrides_mirrors (hrank hstride) le_rfl
      have hend : (shape.zip stride).drop shape.length = [] := by
        rw [drop_eq_nil_iff, length_zip]
        exact min_le_left _ _
      rw [hend] at hall
      exact hall

/-- A tensor is built from the same bytes, and no read leaves them. -/
theorem buildTensorFromStorage_mirrors (h : archive.Depicts zip) (storageId : ℕ) (r : Rebuild) :
    Mirrors (buildTensorFromStorage archive archivePrefix storageId r)
      (TorchPickle.buildTensorFromStorage zip archivePrefix storageId r) := by
  refine (storageEntry_mirrors h _).bind fun full _ => ?_
  refine (h.read full).bind_map (archive.lands_readView full) fun view hview => ?_
  rw [archive.length_part hview]
  refine Mirrors.thrownIf fun hoffset => (Mirrors.within _).bind fun n hn => ?_
  refine Mirrors.thrownIf fun _ => Mirrors.thrownIf fun hsize => Mirrors.thrownIf fun hrank => ?_
  refine (checkStride_mirrors fun hne => ?_).bind_forget ?_
  · by_contra hlen
    exact hrank ⟨hne, hlen⟩
  refine (Mirrors.within _).bind fun t ht => ?_
  -- The bytes are in the view, and the new storage has room for them.
  have hinside : view.1 + r.storageOffset.toNat * r.info.elemSize + n.toNat * r.info.elemSize ≤
      archive.file.bytes.length := by omega
  have hroom : ¬ t.storage.sizeBytes < n.toNat * r.info.elemSize := by
    rw [TensorImpl.allocate_sizeBytes ht, foldlM_countStep hn, one_mul, r.info.size_eq]
    exact Nat.lt_irrefl _
  refine Mirrors.access (slice_of_le hinside) ?_
  rw [if_neg hroom, archive.take_drop_part (Nat.not_lt.mp hsize)]
  exact Mirrors.pure _

end Tensors

/-- The cursor is in the program, and the bytes behind it are those that are left. -/
structure Shows (s : Unpickler) (t : TorchPickle.Unpickler) : Prop where
  inside : s.cursor ≤ s.data.length
  small : s.data.length < words
  rest : t.rest = s.data.drop s.cursor
  heap : t.heap = s.heap
  next : t.next = s.next
  stack : t.stack = s.stack
  memo : t.memo = s.memo
  memoNext : t.memoNext = s.memoNext

namespace Shows

variable {s : Unpickler} {t : TorchPickle.Unpickler}

theorem length_rest (h : Shows s t) : t.rest.length = s.data.length - s.cursor := by
  rw [h.rest, length_drop]

theorem advance (h : Shows s t) {n : ℕ} (hn : s.cursor + n ≤ s.data.length) :
    Shows { s with cursor := s.cursor + n } { t with rest := t.rest.drop n } :=
  { h with
    inside := hn
    rest := by rw [h.rest, drop_drop] }

theorem with_stack (h : Shows s t) (stack : List Ptr) :
    Shows { s with stack } { t with stack } :=
  { h with stack := rfl }

end Shows

theorem simulates_fail (message : String) :
    Simulates Shows (fail message : Machine α) (TorchPickle.fail message) := Simulates.throw _

/-- The cursor is compared with the length before it is used. -/
theorem simulates_readByte : Simulates Shows readByte TorchPickle.readByte := by
  refine Simulates.inspect fun s t h => ?_
  by_cases hend : s.data.length ≤ s.cursor
  · rw [if_pos hend, h.rest, drop_eq_nil_of_le hend]
    exact .throws _
  · have hlt : s.cursor < s.data.length := Nat.not_le.mp hend
    rw [if_neg hend, h.rest, drop_eq_getElem_cons hlt, pick, item_of_lt hlt]
    exact .returns { h with inside := hlt, rest := rfl }

theorem readBytes_of_le (h : s.cursor + n ≤ s.data.length) (eof : String) : readBytes eof n s =
      .ok ((s.data.drop s.cursor).take n, { s with cursor := s.cursor + n }) := by
  have hlong : ¬ (s.data.length < n ∨ s.data.length - n < s.cursor) := by omega
  change (if s.data.length < n ∨ s.data.length - n < s.cursor then _ else _ :
    Machine (List UInt8)) s = _
  rw [if_neg hlong, slice_of_le h]
  rfl

theorem readBytes_of_lt (h : s.data.length < s.cursor + n) (eof : String) :
    readBytes eof n s = .error (.thrown (.runtimeError ("torch_pickle: " ++ eof))) := by
  have hshort : s.data.length < n ∨ s.data.length - n < s.cursor := by omega
  change (if s.data.length < n ∨ s.data.length - n < s.cursor then _ else _ :
    Machine (List UInt8)) s = _
  rw [if_pos hshort]
  rfl

theorem simulates_readBytes (eof : String) (n : ℕ) :
    Simulates Shows (readBytes eof n) (TorchPickle.readBytes eof n) := by
  intro s t h
  have hinside := h.inside
  have hlength := h.length_rest
  change Follows Shows (readBytes eof n s)
    ((if t.rest.length < n then _ else _ : TorchPickle.Machine (List UInt8)) t)
  by_cases hc : t.rest.length < n
  · rw [if_pos hc, readBytes_of_lt (by omega)]
    exact .throws _
  · have hn : s.cursor + n ≤ s.data.length := by omega
    rw [if_neg hc, readBytes_of_le hn, ← h.rest]
    exact .returns (h.advance hn)

theorem simulates_readU8 : Simulates Shows readU8 TorchPickle.readU8 :=
  simulates_readByte.bind fun _ => Simulates.pure _

theorem simulates_readLe (n : ℕ) : Simulates Shows (readLe n) (TorchPickle.readLe n) :=
  (simulates_readBytes _ n).bind fun _ => Simulates.pure _

/-- A round takes a byte. -/
theorem readLineFrom_of_lt (h : s.cursor < s.data.length) (fuel : ℕ) (line : Text) :
    readLineFrom (fuel + 1) line s =
      (if s.data[s.cursor] = 10 then pure line
        else readLineFrom fuel (line ++ [s.data[s.cursor]])) { s with cursor := s.cursor + 1 } := by
  change (if s.cursor < s.data.length then _ else _ : Machine Text) s = _
  rw [if_pos h, pick, item_of_lt h]
  rfl

theorem readLineFrom_of_le (h : s.data.length ≤ s.cursor) (fuel : ℕ) (line : Text) :
    readLineFrom (fuel + 1) line s =
      .error (.thrown (.runtimeError "torch_pickle: unterminated line")) := by
  change (if s.cursor < s.data.length then _ else _ : Machine Text) s = _
  rw [if_neg (Nat.not_lt.mpr h)]
  rfl

/-- The rounds take the bytes of the line one by one. -/
theorem follows_readLineFrom {t : TorchPickle.Unpickler} (line : Text) (h : Shows s t)
    (hfuel : t.rest.length < fuel) :
    Follows Shows (readLineFrom fuel line s) (match t.rest.dropWhile (· ≠ 10) with
      | [] => .error (.runtimeError "torch_pickle: unterminated line")
      | _ :: rest => .ok (line ++ t.rest.takeWhile (· ≠ 10), { t with rest })) := by
  induction fuel generalizing line s t with
  | zero => exact absurd hfuel (Nat.not_lt_zero _)
  | succ fuel ih =>
    by_cases hend : s.data.length ≤ s.cursor
    · rw [readLineFrom_of_le hend, h.rest, drop_eq_nil_of_le hend]
      exact .throws _
    · have hlt : s.cursor < s.data.length := Nat.not_le.mp hend
      have hnext : Shows { s with cursor := s.cursor + 1 }
          { t with rest := s.data.drop (s.cursor + 1) } := { h with inside := hlt, rest := rfl }
      have hrest : t.rest = s.data[s.cursor] :: s.data.drop (s.cursor + 1) := by
        rw [h.rest, drop_eq_getElem_cons hlt]
      rw [readLineFrom_of_lt hlt]
      rw [hrest] at hfuel
      by_cases hc : s.data[s.cursor] = 10
      · rw [if_pos hc, hrest, dropWhile_cons_of_neg (by simp [hc]),
          takeWhile_cons_of_neg (by simp [hc]), append_nil]
        exact .returns hnext
      · rw [if_neg hc, hrest, dropWhile_cons_of_pos (by simp [hc]),
          takeWhile_cons_of_pos (by simp [hc])]
        have hline := ih (line ++ [s.data[s.cursor]]) hnext (Nat.lt_of_succ_lt_succ hfuel)
        rwa [append_assoc] at hline

theorem simulates_readLine : Simulates Shows readLine TorchPickle.readLine := by
  refine Simulates.inspect fun s t h => ?_
  have hfuel : t.rest.length < s.data.length + 1 := by
    rw [h.length_rest]
    omega
  have hline := follows_readLineFrom [] h hfuel
  cases hdrop : t.rest.dropWhile (· ≠ 10) with
  | nil =>
    rw [hdrop] at hline
    exact hline
  | cons c rest =>
    rw [hdrop] at hline
    exact hline

/-! ## The stack -/

theorem simulates_pushPtr (p : Ptr) : Simulates Shows (pushPtr p) (TorchPickle.pushPtr p) :=
  Simulates.modify fun _ _ h => { h with stack := congrArg (p :: ·) h.stack }

theorem simulates_push (v : PValue) : Simulates Shows (push v) (TorchPickle.push v) := by
  refine Simulates.modify fun s t h => { h with heap := ?_, next := ?_, stack := ?_ }
  · rw [h.heap, h.next]
  · rw [h.next]
  · rw [h.next, h.stack]

theorem simulates_store (p : Ptr) (v : PValue) :
    Simulates Shows (store p v) (TorchPickle.store p v) :=
  Simulates.modify fun _ _ h => { h with heap := congrArg (Function.update · p v) h.heap }

theorem simulates_object (p : Ptr) : Simulates Shows (object p) (TorchPickle.object p) := by
  refine Simulates.inspect fun s t h => ?_
  rw [h.heap]
  exact .returns h

section Stack

variable {s : Unpickler} {p : Ptr} {stack : List Ptr}

theorem back_of_cons (h : s.stack = p :: stack) : back s = .ok (p, s) := by
  have hback : back s = pick s.stack 0 s := rfl
  rw [hback, h]
  rfl

/-- The stack is not empty when its last element is taken. -/
theorem popBack_of_cons (h : s.stack = p :: stack) : popBack s = .ok ((), { s with stack }) := by
  cases s
  subst h
  rfl

end Stack

theorem simulates_pop : Simulates Shows pop TorchPickle.pop := by
  refine Simulates.inspect fun s t h => ?_
  rw [h.stack]
  cases hstack : s.stack with
  | nil => exact .throws _
  | cons p stack =>
    have hpop : (back >>= fun v => popBack >>= fun _ => pure v) s =
        .ok (p, { s with stack }) := by
      rw [Transitions.bind_apply_ok (back_of_cons hstack),
        Transitions.bind_apply_ok (popBack_of_cons hstack)]
      rfl
    rw [if_neg (cons_ne_nil p stack), hpop]
    exact .returns (h.with_stack stack)

theorem simulates_top : Simulates Shows top TorchPickle.top := by
  refine Simulates.inspect fun s t h => ?_
  rw [h.stack]
  cases hstack : s.stack with
  | nil => exact .throws _
  | cons p stack =>
    rw [if_neg (cons_ne_nil p stack), back_of_cons hstack]
    exact .returns h

def isMark : PValue → Bool
  | .mark => true
  | _ => false

/-- The stack is split at its topmost mark. -/
theorem splitAtMark_eq (heap : Ptr → PValue) (stack : List Ptr) :
    splitAtMark heap stack = match stack.dropWhile fun p => !isMark (heap p) with
      | [] => none
      | _ :: below => some (stack.takeWhile fun p => !isMark (heap p), below) := by
  induction stack with
  | nil => rfl
  | cons p stack ih =>
    rw [splitAtMark]
    cases hp : heap p with
    | mark => simp [hp, isMark]
    | _ =>
      rw [ih, dropWhile_cons_of_pos (by simp [hp, isMark]),
        takeWhile_cons_of_pos (by simp [hp, isMark])]
      cases stack.dropWhile fun p => !isMark (heap p) <;> rfl

theorem popItems_of_nil (h : s.stack = []) (fuel : ℕ) (items : List Ptr) :
    popItems (fuel + 1) items s = .ok (items, s) := by
  change (if s.stack = [] then _ else _ : Machine (List Ptr)) s = _
  rw [if_pos h]
  rfl

theorem popItems_of_cons {p : Ptr} {stack : List Ptr} (h : s.stack = p :: stack) (fuel : ℕ)
    (items : List Ptr) : popItems (fuel + 1) items s =
      if isMark (s.heap p) then .ok (items, s)
      else popItems fuel (items ++ [p]) { s with stack } := by
  change (if s.stack = [] then _ else _ : Machine (List Ptr)) s = _
  rw [if_neg (by rw [h]; exact cons_ne_nil p stack)]
  have hobject : object p s = .ok (s.heap p, s) := rfl
  rw [Transitions.bind_apply_ok (back_of_cons h), Transitions.bind_apply_ok hobject]
  cases s.heap p with
  | mark => rfl
  | _ => exact Transitions.bind_apply_ok (popBack_of_cons h)

/-- The rounds of `pop_to_mark` take what is above the topmost mark. -/
theorem popItems_eq (items : List Ptr) (h : s.stack.length < fuel) :
    popItems fuel items s = .ok (items ++ s.stack.takeWhile fun p => !isMark (s.heap p),
      { s with stack := s.stack.dropWhile fun p => !isMark (s.heap p) }) := by
  induction fuel generalizing items s with
  | zero => exact absurd h (Nat.not_lt_zero _)
  | succ fuel ih =>
    cases hstack : s.stack with
    | nil =>
      rw [popItems_of_nil hstack, takeWhile_nil, append_nil, dropWhile_nil,
        ← hstack]
    | cons p stack =>
      rw [hstack] at h
      rw [popItems_of_cons hstack]
      by_cases hp : isMark (s.heap p) = true
      · rw [if_pos hp, takeWhile_cons_of_neg (by simp [hp]),
          dropWhile_cons_of_neg (by simp [hp]), append_nil, ← hstack]
      · rw [if_neg hp, takeWhile_cons_of_pos (by simp [hp]),
          dropWhile_cons_of_pos (by simp [hp]), ih _ (Nat.lt_of_succ_lt_succ h),
          append_assoc, singleton_append]

theorem simulates_popToMark : Simulates Shows popToMark TorchPickle.popToMark := by
  refine Simulates.inspect fun s t h => ?_
  rw [h.heap, h.stack, splitAtMark_eq]
  rw [Transitions.bind_apply_ok (popItems_eq [] (Nat.lt_succ_self _))]
  cases s.stack.dropWhile fun p => !isMark (s.heap p) with
  | nil => exact .throws _
  | cons m below => exact .returns { h with heap := rfl, stack := rfl }

theorem simulates_memoize (key : ℕ) :
    Simulates Shows (memoize key) (TorchPickle.memoize key) :=
  simulates_top.bind fun p => Simulates.modify fun _ _ h =>
    { h with memo := congrArg (Function.update · key (some p)) h.memo }

theorem simulates_recall (opcode : String) (key : ℕ) :
    Simulates Shows (recallMemo opcode key) (TorchPickle.recallMemo opcode key) := by
  refine Simulates.inspect fun s t h => ?_
  rw [h.memo]
  cases s.memo key with
  | none => exact .throws _
  | some p => exact simulates_pushPtr p s t h

/-- An argument at a position that there is. -/
theorem simulates_pick {xs : List Ptr} {i : ℕ} (h : i < xs.length) {k : Ptr → Machine α}
    {p : TorchPickle.Machine α} (hk : Simulates Shows (k (xs.getD i 0)) p) :
    Simulates Shows (pick xs i >>= k) p := by
  rw [getD_eq_getElem _ _ h] at hk
  exact Simulates.access (item_of_lt h) hk

theorem simulates_resolvePersistentId (tup : List Ptr) :
    Simulates Shows (resolvePersistentId tup) (TorchPickle.resolvePersistentId tup) := by
  unfold resolvePersistentId TorchPickle.resolvePersistentId
  by_cases hlen : tup.length < 5
  · intro s t h
    have hobject : TorchPickle.object (tup.headD 0) t = .ok (t.heap (tup.headD 0), t) := rfl
    have hshort (named : Bool) : ¬ (5 ≤ tup.length ∧ named = true) :=
      fun hall => Nat.not_le.mpr hlen hall.1
    rw [dif_pos hlen, Transitions.bind_apply_ok hobject, dif_neg (hshort _)]
    exact .throws _
  · have hpos : 0 < tup.length := by omega
    have hfirst : tup.headD 0 = tup.getD 0 0 := by cases tup <;> rfl
    have hlong : 5 ≤ tup.length := Nat.not_lt.mp hlen
    rw [dif_neg hlen, hfirst]
    refine simulates_pick hpos ((simulates_object _).bind fun v => ?_)
    cases v with
    | string s =>
      dsimp only
      by_cases hs : s = ascii "storage"
      · rw [if_pos hs, dif_pos ⟨hlong, decide_eq_true hs⟩]
        exact Simulates.pure _
      · rw [if_neg hs, dif_neg fun hall => hs (of_decide_eq_true hall.2)]
        exact simulates_fail _
    | _ =>
      rw [dif_neg fun hall => Bool.false_ne_true hall.2]
      exact simulates_fail _

theorem simulates_intEntry (p : Ptr) : Simulates Shows (do
    let v ← object p
    match v with
    | .int i => pure i
    | _ => fail "size/stride entry must be int") (do
    let v ← TorchPickle.object p
    match v with
    | .int i => pure i
    | _ => TorchPickle.fail "size/stride entry must be int") := by
  refine (simulates_object p).bind fun v => ?_
  cases v with
  | int i => exact Simulates.pure i
  | _ => exact simulates_fail _

theorem simulates_toIntVec (p : Ptr) :
    Simulates Shows (toIntVec p) (TorchPickle.toIntVec p) := by
  refine (simulates_object p).bind fun v => ?_
  cases v with
  | tuple seq => exact Simulates.mapM simulates_intEntry seq
  | list seq => exact Simulates.mapM simulates_intEntry seq
  | _ => exact simulates_fail _

/-- Each argument is looked at only after the number of arguments. -/
theorem simulates_rebuildArgs (fnName : Text) (args : List Ptr) :
    Simulates Shows (rebuildArgs fnName args) (TorchPickle.rebuildArgs fnName args) := by
  match args with
  | [] | [_] | [_, _] | [_, _, _] => exact simulates_fail _
  | storage :: offset :: size :: stride :: rest =>
    unfold rebuildArgs
    refine simulates_pick (by simp) ((simulates_object storage).bind fun v => ?_)
    cases v with
    | persistentId pid =>
      have hsize := pid.size
      refine simulates_pick (by omega) ((simulates_object _).bind fun dtype => ?_)
      cases dtype with
      | global g =>
        refine (Simulates.lift (Mirrors.within _)).bind fun info => ?_
        refine simulates_pick (by omega) ((simulates_object _).bind fun key => ?_)
        cases key with
        | string key =>
          refine (Simulates.pure key).bind fun key => ?_
          refine simulates_pick (by simp) ((simulates_object _).bind fun offset => ?_)
          cases offset with
          | int i =>
            refine (Simulates.pure i).bind fun offset => ?_
            refine simulates_pick (by simp) ((simulates_toIntVec _).bind fun shape => ?_)
            refine simulates_pick (by simp) ((simulates_toIntVec _).bind fun stride => ?_)
            exact Simulates.pure _
          | _ => exact simulates_fail _
        | _ => exact simulates_fail _
      | _ => exact simulates_fail _
    | _ => exact simulates_fail _

section Program

variable {archive : Archive} {zip : ZipReader} {archivePrefix : Text}

theorem simulates_pushRebuilt (h : archive.Depicts zip) (fnName : Text) (args : List Ptr) :
    Simulates Shows (pushRebuilt archive archivePrefix fnName args)
      (TorchPickle.pushRebuilt zip archivePrefix fnName args) := by
  refine (simulates_rebuildArgs fnName args).bind fun source => Simulates.inspect fun s t hs => ?_
  rw [hs.next]
  exact (Simulates.lift (buildTensorFromStorage_mirrors h _ source)).bind
    (fun tensor => simulates_push _) s t hs

theorem simulates_rebuildFromType (h : archive.Depicts zip) (outer : List Ptr) :
    Simulates Shows (rebuildFromType archive archivePrefix outer)
      (TorchPickle.rebuildFromType zip archivePrefix outer) := by
  match outer with
  | [] | [_] | [_, _] => exact simulates_fail _
  | fn :: newType :: inner :: rest =>
    unfold rebuildFromType
    refine simulates_pick (by simp) ((simulates_object fn).bind fun fn => ?_)
    cases fn with
    | global g =>
      refine simulates_pick (by simp) ((simulates_object inner).bind fun inner => ?_)
      cases inner with
      | tuple seq => exact simulates_pushRebuilt h _ seq
      | list seq => exact simulates_pushRebuilt h _ seq
      | _ => exact simulates_fail _
    | _ => exact simulates_fail _

/-- A class that is known is called with its arguments. -/
theorem simulates_reduceTo (h : archive.Depicts zip) (g : GlobalRef) (args : Ptr)
    (seq : Option (List Ptr)) : Simulates Shows (reduceTo archive archivePrefix g args seq)
      (TorchPickle.reduceTo zip archivePrefix g args seq) := by
  have hdict (args : List Ptr) : Simulates Shows
      (if isDict g then push (.dict []) else push (.reduceCall g args))
      (if isDict g then TorchPickle.push (.dict []) else TorchPickle.push (.reduceCall g args)) :=
    Simulates.ite (fun _ => simulates_push _) fun _ => simulates_push _
  cases seq with
  | none => exact hdict [args]
  | some seq =>
    refine Simulates.ite (fun _ => simulates_rebuildFromType h seq) fun _ => ?_
    exact Simulates.ite (fun _ => simulates_pushRebuilt h _ seq) fun _ => hdict seq

theorem simulates_doReduce (h : archive.Depicts zip) :
    Simulates Shows (doReduce archive archivePrefix)
      (TorchPickle.doReduce zip archivePrefix) := by
  refine simulates_pop.bind fun args => simulates_pop.bind fun callable => ?_
  refine (simulates_object callable).bind fun callable => ?_
  cases callable with
  | global g =>
    refine Simulates.skip (fun s t hs => { hs with }) ?_
    exact (simulates_object args).bind fun v => simulates_reduceTo h g args _
  | _ => exact simulates_fail _

end Program

/-! ## Opcodes -/

theorem isNegative_eq (buf : List UInt8) :
    isNegative buf = .ok (decide (128 ≤ (buf.getLastD 0).toNat)) := by
  unfold isNegative
  split
  · next hpos =>
      have hlast : buf.getLastD 0 = buf[buf.length - 1] := by
        rw [getLastD_eq_getLast?, getLast?_eq_getElem?,
          getElem?_eq_getElem (Nat.sub_lt hpos Nat.one_pos)]
        rfl
      rw [item_of_lt (Nat.sub_lt hpos Nat.one_pos), hlast]
      rfl
  · next hempty =>
      obtain rfl := length_eq_zero_iff.mp (Nat.eq_zero_of_not_pos hempty)
      rfl

/-- The bytes beyond the eighth must repeat the sign. -/
theorem checkWide_eq (opcode : String) (buf : List UInt8) (negative : Bool) :
    checkWide opcode buf negative =
      if 8 < buf.length ∧ (buf.drop 8).any (· ≠ if negative then 255 else 0) then
        reject (opcode ++ " integer too large for int64_t")
      else if 8 < buf.length ∧ negative ≠ decide (128 ≤ (buf.getD 7 0).toNat) then
        reject (opcode ++ " integer too large for int64_t")
      else .ok () := by
  unfold checkWide
  by_cases hlen : 8 < buf.length
  · have hle : 8 + (buf.length - 8) ≤ buf.length := by omega
    have hhigh := forM_item (ε := Exn) hle fun b => rejectIf (b ≠ if negative then 255 else 0)
      (opcode ++ " integer too large for int64_t")
    have hall : (buf.drop 8).take (buf.length - 8) = buf.drop 8 :=
      take_of_length_le length_drop.le
    have hseventh : buf.getD 7 0 = buf[7] := getD_eq_getElem _ _ _
    rw [hall] at hhigh
    rw [if_pos hlen, hseventh]
    dsimp only
    rw [hhigh, item_of_lt (by omega)]
    change ((buf.drop 8).forM (fun b => thrownIf _ _) >>= fun _ => thrownIf _ _) = _
    rw [forM_thrownIf]
    by_cases hany : (buf.drop 8).any (fun b => decide (b ≠ if negative then 255 else 0)) = true
    · rw [if_pos hany, if_pos ⟨hlen, hany⟩]
      rfl
    · rw [if_neg hany, if_neg fun h => hany h.2]
      by_cases hsign : negative ≠ decide (128 ≤ buf[7].toNat)
      · rw [if_pos ⟨hlen, hsign⟩]
        exact if_pos hsign
      · rw [if_neg fun h => hsign h.2]
        exact if_neg hsign
  · rw [if_neg hlen, if_neg fun h => hlen h.1, if_neg fun h => hlen h.1]
    rfl

theorem longValue_eq (opcode : String) (buf : List UInt8) :
    longValue opcode buf = (checkWide opcode buf (decide (128 ≤ (buf.getLastD 0).toNat)) >>=
      fun _ => .ok (wrap64 (if decide (128 ≤ (buf.getLastD 0).toNat) ∧ buf.length < 8 then
        (Wire.ofLeBytes (buf.take 8) : Int) - 256 ^ buf.length else Wire.ofLeBytes (buf.take 8)))) := by
  have hlow : (List.range (min buf.length 8)).mapM (fun i => (item buf i : Access UInt8)) =
      .ok (buf.take 8) := by
    rw [range_eq_range', mapM_item (by omega), drop_zero, min_comm,
      ← take_eq_take_min]
  unfold longValue
  rw [isNegative_eq, hlow]
  rfl

theorem simulates_longValue (opcode : String) (buf : List UInt8) :
    Simulates Shows (liftM (longValue opcode buf)) (TorchPickle.longValue opcode buf) := by
  rw [longValue_eq, checkWide_eq]
  unfold TorchPickle.longValue
  generalize decide (128 ≤ (buf.getLastD 0).toNat) = negative
  by_cases hfill : 8 < buf.length ∧ (buf.drop 8).any (· ≠ if negative then 255 else 0)
  · rw [if_pos hfill, if_pos hfill]
    exact simulates_fail _
  · rw [if_neg hfill, if_neg hfill]
    by_cases hsign : 8 < buf.length ∧ negative ≠ decide (128 ≤ (buf.getD 7 0).toNat)
    · rw [if_pos hsign, if_pos hsign]
      exact simulates_fail _
    · rw [if_neg hsign, if_neg hsign]
      exact Simulates.pure _

theorem map_getD_pairs (items : List Ptr) :
    (List.range (items.length / 2)).map (fun k => (items.getD (2 * k) 0, items.getD (2 * k + 1) 0)) =
      TorchPickle.pairs items := by
  induction items using TorchPickle.pairs.induct with
  | case1 key value items ih =>
    have hlen : (key :: value :: items).length / 2 = items.length / 2 + 1 := by
      simp only [length_cons]
      omega
    rw [hlen, range_succ_eq_map, map_cons, map_map, TorchPickle.pairs, ← ih]
    rfl
  | case2 items hshort =>
    match items with
    | [] => rfl
    | [p] =>
      have hlen : [p].length / 2 = 0 := Nat.div_eq_of_lt (Nat.lt_succ_self 1)
      rw [hlen]
      rfl
    | key :: value :: items => exact (hshort key value items rfl).elim

/-- An even number of items makes pairs of keys and values. -/
theorem pairs_mirrors {items : List Ptr} (h : items.length % 2 = 0) :
    Mirrors (pairs items) (.ok (TorchPickle.pairs items)) := by
  have hcount : (items.length + 1) / 2 = items.length / 2 := by omega
  have hpairs : pairs items = .ok ((List.range (items.length / 2)).map
      fun k => (items.getD (2 * k) 0, items.getD (2 * k + 1) 0)) := by
    rw [pairs, hcount]
    apply mapM_eq_map
    intro k hk
    have hlt := mem_range.mp hk
    have hkey : 2 * k < items.length := by omega
    have hvalue : 2 * k + 1 < items.length := by omega
    rw [item_of_lt hkey, item_of_lt hvalue, getD_eq_getElem _ _ hkey,
      getD_eq_getElem _ _ hvalue]
    rfl
  rw [hpairs, map_getD_pairs]
  rfl

theorem simulates_addEntries (opcode : String) {entries : Access (List (Ptr × Ptr))}
    {entries' : List (Ptr × Ptr)} (h : Mirrors entries (.ok entries')) :
    Simulates Shows (addEntries opcode entries) (TorchPickle.addEntries opcode entries') := by
  refine simulates_top.bind fun d => (simulates_object d).bind fun v => ?_
  cases v with
  | dict old => exact Simulates.access h (simulates_store d _)
  | _ => exact simulates_fail _

theorem simulates_addItems (opcode : String) (items : List Ptr) :
    Simulates Shows (addItems opcode items) (TorchPickle.addItems opcode items) := by
  refine simulates_top.bind fun lst => (simulates_object lst).bind fun v => ?_
  cases v with
  | list old => exact simulates_store lst _
  | _ => exact simulates_fail _

theorem simulates_pushString (h : Simulates Shows size size') :
    Simulates Shows (pushString size) (TorchPickle.pushString size') :=
  h.bind fun n => (simulates_readBytes _ n).bind fun _ => simulates_push _

theorem simulates_pushBytes (h : Simulates Shows size size') :
    Simulates Shows (pushBytes size) (TorchPickle.pushBytes size') :=
  h.bind fun n => (simulates_readBytes _ n).bind fun _ => simulates_push _

/-- The number of bytes that are left does not wrap. -/
theorem readLong4_apply (hinside : s.cursor ≤ s.data.length) (hsmall : s.data.length < words)
    (n : ℕ) : readLong4 n s = readBytes "LONG4 length past EOF" n s := by
  have hget : (get : Machine Unpickler) s = .ok (s, s) := rfl
  have hleft : (s.data.length + words - s.cursor) % words = s.data.length - s.cursor := by
    have hsplit : s.data.length + words - s.cursor = (s.data.length - s.cursor) + words := by omega
    rw [hsplit, Nat.add_mod_right, Nat.mod_eq_of_lt ((Nat.sub_le _ _).trans_lt hsmall)]
  rw [readLong4, Transitions.bind_apply_ok hget, hleft]
  by_cases hc : s.data.length - s.cursor < n
  · rw [if_pos hc, readBytes_of_lt (by omega)]
    rfl
  · rw [if_neg hc, readBytes_of_le (by omega), readBytes_of_le (by omega)]

theorem simulates_readLong4 (n : ℕ) : Simulates Shows (readLong4 n)
    (TorchPickle.readBytes "LONG4 length past EOF" n) := by
  intro s t h
  rw [readLong4_apply h.inside h.small]
  exact simulates_readBytes _ n s t h

/-- What an opcode does. -/
theorem simulates_execute (h : archive.Depicts zip) (archivePrefix : Text) (op : Opcode) :
    Simulates Shows (execute archive archivePrefix op)
      (TorchPickle.execute zip archivePrefix op) := by
  cases op with
  | stop => exact Simulates.pure _
  | proto => exact simulates_readByte.bind fun _ => Simulates.pure _
  | frame => exact (simulates_readLe 8).bind fun _ => Simulates.pure _
  | mark => exact simulates_push _
  | pushNone => exact simulates_push _
  | newTrue => exact simulates_push _
  | newFalse => exact simulates_push _
  | binInt1 => exact simulates_readU8.bind fun n => simulates_push _
  | binInt2 => exact (simulates_readLe 2).bind fun n => simulates_push _
  | binInt => exact (simulates_readLe 4).bind fun n => simulates_push _
  | long1 =>
    refine simulates_readU8.bind fun n => (simulates_readBytes _ n).bind fun buf => ?_
    exact (simulates_longValue _ buf).bind fun value => simulates_push _
  | long4 =>
    refine (simulates_readLe 4).bind fun n => ?_
    exact (simulates_readLong4 n).bind fun buf =>
      (simulates_longValue _ buf).bind fun value => simulates_push _
  | binFloat => exact (simulates_readBytes _ 8).bind fun _ => simulates_push _
  | binUnicode => exact simulates_pushString (simulates_readLe 4)
  | shortBinUnicode => exact simulates_pushString simulates_readU8
  | binUnicode8 => exact simulates_pushString (simulates_readLe 8)
  | binString => exact simulates_pushBytes (simulates_readLe 4)
  | shortBinString => exact simulates_pushBytes simulates_readU8
  | binBytes => exact simulates_pushBytes (simulates_readLe 4)
  | shortBinBytes => exact simulates_pushBytes simulates_readU8
  | binBytes8 => exact simulates_pushBytes (simulates_readLe 8)
  | emptyDict => exact simulates_push _
  | emptyList => exact simulates_push _
  | emptyTuple => exact simulates_push _
  | tuple1 => exact simulates_pop.bind fun a => simulates_push _
  | tuple2 => exact simulates_pop.bind fun b => simulates_pop.bind fun a => simulates_push _
  | tuple3 =>
    exact simulates_pop.bind fun c => simulates_pop.bind fun b => simulates_pop.bind fun a =>
      simulates_push _
  | tuple => exact simulates_popToMark.bind fun items => simulates_push _
  | list => exact simulates_popToMark.bind fun items => simulates_push _
  | binPut => exact simulates_readU8.bind simulates_memoize
  | longBinPut => exact (simulates_readLe 4).bind simulates_memoize
  | binGet => exact simulates_readU8.bind (simulates_recall _)
  | longBinGet => exact (simulates_readLe 4).bind (simulates_recall _)
  | memoize =>
    refine Simulates.inspect fun s t hs => ?_
    rw [hs.memoNext]
    refine ((simulates_memoize s.memoNext).bind fun _ => ?_) s t hs
    exact Simulates.modify fun _ _ h => { h with memoNext := congrArg (· + 1) h.memoNext }
  | setItem =>
    exact simulates_pop.bind fun value => simulates_pop.bind fun key =>
      simulates_addEntries _ (Mirrors.pure _)
  | setItems =>
    refine simulates_popToMark.bind fun items => ?_
    exact Simulates.ite (fun _ => simulates_fail _) fun heven =>
      simulates_addEntries _ (pairs_mirrors (not_not.mp heven))
  | append => exact simulates_pop.bind fun v => simulates_addItems _ _
  | appends => exact simulates_popToMark.bind fun items => simulates_addItems _ _
  | pushGlobal =>
    exact simulates_readLine.bind fun _ => simulates_readLine.bind fun _ => simulates_push _
  | stackGlobal =>
    refine simulates_pop.bind fun name => simulates_pop.bind fun moduleName => ?_
    refine (simulates_object name).bind fun name => ?_
    refine (simulates_object moduleName).bind fun moduleName => ?_
    cases name with
    | string name =>
      cases moduleName with
      | string moduleName => exact simulates_push _
      | _ => exact simulates_fail _
    | _ => exact simulates_fail _
  | binPersId =>
    refine simulates_pop.bind fun tup => (simulates_object tup).bind fun v => ?_
    cases v with
    | tuple seq => exact (simulates_resolvePersistentId seq).bind fun pid => simulates_push pid
    | _ => exact simulates_fail _
  | reduce => exact simulates_doReduce h
  | build =>
    refine simulates_pop.bind fun state s t hs => .returns ?_
    -- Only the history of the checked machine changes.
    dsimp only
    split
    · exact hs
    · exact { hs with }
  | emptySet => exact simulates_push _

/-- An unknown opcode is an error of both. -/
theorem simulates_handleOp (h : archive.Depicts zip) (archivePrefix : Text) (op : UInt8) :
    Simulates Shows (handleOp archive archivePrefix op)
      (TorchPickle.handleOp zip archivePrefix op) := by
  unfold handleOp TorchPickle.handleOp
  cases opcodes.find? fun e => e.1 = op with
  | none => exact simulates_fail _
  | some e =>
    refine Simulates.ite (fun _ => Simulates.pure true) fun _ => ?_
    exact (simulates_execute h archivePrefix e.2).bind fun _ => Simulates.pure false

section Programs

variable {archive : Archive} {zip : ZipReader} {archivePrefix : Text} {s : Unpickler}
  {bytes : List UInt8}

/-- What follows a round. -/
def afterRound (archive : Archive) (archivePrefix : Text) (fuel : ℕ) (stop : Bool) : Machine Ptr :=
  if stop then do
    let s ← get
    if s.stack = [] then fail "STOP with empty stack"
    else back
  else run archive archivePrefix fuel

theorem run_of_le (h : s.data.length ≤ s.cursor) (fuel : ℕ) :
    run archive archivePrefix (fuel + 1) s =
      .error (.thrown (.runtimeError "torch_pickle: pickle stream ended without STOP")) := by
  have hget : (get : Machine Unpickler) s = .ok (s, s) := rfl
  rw [run, Transitions.bind_apply_ok hget, if_neg (Nat.not_lt.mpr h)]
  rfl

theorem readByte_of_lt (h : s.cursor < s.data.length) :
    readByte s = .ok (s.data[s.cursor], { s with cursor := s.cursor + 1 }) := by
  have hget : (get : Machine Unpickler) s = .ok (s, s) := rfl
  rw [readByte, Transitions.bind_apply_ok hget, if_neg (Nat.not_le.mpr h), pick, item_of_lt h]
  rfl

/-- A round that has a byte. -/
theorem run_of_lt (h : s.cursor < s.data.length) (fuel : ℕ) :
    run archive archivePrefix (fuel + 1) s =
      (handleOp archive archivePrefix s.data[s.cursor] >>= afterRound archive archivePrefix fuel)
        { s with cursor := s.cursor + 1 } := by
  have hget : (get : Machine Unpickler) s = .ok (s, s) := rfl
  rw [run, Transitions.bind_apply_ok hget, if_pos h, Transitions.bind_apply_ok (readByte_of_lt h)]
  rfl

theorem simulates_root : Simulates Shows
    (do let s ← get; if s.stack = [] then fail "STOP with empty stack" else back)
    (do
      let s ← get
      match s.stack with
      | [] => TorchPickle.fail "STOP with empty stack"
      | root :: _ => pure root) := by
  refine Simulates.inspect fun s t h => ?_
  rw [h.stack]
  cases hstack : s.stack with
  | nil => exact .throws _
  | cons root stack =>
    rw [if_neg (cons_ne_nil root stack), back_of_cons hstack]
    exact .returns h

/-- Each round takes a byte, so that the rounds do not end before the program does. -/
theorem follows_run (h : archive.Depicts zip) {fuel fuel' : ℕ} {t : TorchPickle.Unpickler}
    (hs : Shows s t) (hfuel : t.rest.length < fuel) (hfuel' : t.rest.length ≤ fuel') :
    Follows Shows (run archive archivePrefix fuel s)
      (TorchPickle.run zip archivePrefix fuel' t) := by
  induction fuel generalizing fuel' s t with
  | zero => exact absurd hfuel (Nat.not_lt_zero _)
  | succ fuel ih =>
    by_cases hend : s.data.length ≤ s.cursor
    · have hnil : t.rest = [] := by rw [hs.rest, drop_eq_nil_of_le hend]
      rw [run_of_le hend, TorchPickle.run_nil hnil]
      exact .throws _
    · have hlt : s.cursor < s.data.length := Nat.not_le.mp hend
      have hrest : t.rest = s.data[s.cursor] :: s.data.drop (s.cursor + 1) := by
        rw [hs.rest, drop_eq_getElem_cons hlt]
      have hnext : Shows { s with cursor := s.cursor + 1 }
          { t with rest := s.data.drop (s.cursor + 1) } := { hs with inside := hlt, rest := rfl }
      rw [hrest] at hfuel hfuel'
      obtain ⟨fuel', rfl⟩ := Nat.exists_eq_succ_of_ne_zero (Nat.ne_of_gt (Nat.zero_lt_of_lt hfuel'))
      rw [run_of_lt hlt, TorchPickle.run_cons hrest]
      have hop := simulates_handleOp h archivePrefix s.data[s.cursor] _ _ hnext
      have hsteps : Transitions.Steps (Advances zip archivePrefix)
          (TorchPickle.handleOp zip archivePrefix s.data[s.cursor]) := steps_handleOp _
      replace hsteps := hsteps { t with rest := s.data.drop (s.cursor + 1) }
      change Follows Shows (handleOp archive archivePrefix _ _ >>= _)
        (TorchPickle.handleOp zip archivePrefix _ _ >>= _)
      generalize handleOp archive archivePrefix s.data[s.cursor] _ = x at hop
      generalize TorchPickle.handleOp zip archivePrefix s.data[s.cursor] _ = y at hop hsteps
      cases hop with
      | throws e => exact .throws e
      | @returns stop s' t' hs' =>
        have hle : t'.rest.length ≤ (s.data.drop (s.cursor + 1)).length :=
          (hsteps stop t' rfl).rest
        cases stop with
        | true => exact simulates_root s' t' hs'
        | false =>
          exact ih hs' (hle.trans_lt (Nat.lt_of_succ_lt_succ hfuel))
            (hle.trans (Nat.le_of_succ_le_succ hfuel'))

/-- Both machines start at the first byte. -/
theorem shows_start (h : bytes.length < words) : Shows (start bytes) (TorchPickle.start bytes) :=
  ⟨Nat.zero_le _, h, rfl, rfl, rfl, rfl, rfl, rfl⟩

/-- The loader with unchecked accesses does what the checked one does, for every program. -/
theorem follows_load (h : archive.Depicts zip) (hbytes : bytes.length < words) :
    Follows Shows (load archive archivePrefix bytes) (TorchPickle.load zip archivePrefix bytes) :=
  follows_run h (shows_start hbytes) (Nat.lt_succ_self bytes.length) le_rfl

end Programs

end Tenzor.TorchPickle.Raw
