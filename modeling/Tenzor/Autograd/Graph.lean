import Tenzor.Autograd.SavedTensors
import Tenzor.Lib.PostOrder

/-!
# The graph of Variables and Functions

Variables are handles of `VariableImpl`s that several Functions may list as
inputs; a Function points at the Functions of its inputs through its
`next_functions`. `set_next_functions` keeps in every Function a count of the
entries that point at it.

## Implementation notes

Gradients are tensors of an arbitrary type `T`, with the operations that the
engine uses. Functions and Variables are numbered; a `shared_ptr` is a number
and a null pointer is `none`. The count is an unbounded integer here.
-/

namespace Tenzor

abbrev FnId := Nat
abbrev VarId := Nat

/-- The tensor operations the engine uses on gradients, besides addition. -/
structure TensorOps (T : Type) where
  shape : T → List Int
  dtype : T → DType
  device : T → Device
  deviceName : Device → String
  isValid : T → Bool
  /-- `to(dtype)`. -/
  cast : T → DType → T
  onesLike : T → T

namespace TensorOps

variable {T : Type} (ops : TensorOps T)

def isDifferentiable (t : T) : Bool :=
  isFloatingType (ops.dtype t) || isComplexType (ops.dtype t)

def castTo (d : DType) (t : T) : T := if ops.dtype t = d then t else ops.cast t d

/-- No conversion changes a value: all tensors have one dtype, or the
arithmetic is exact. -/
structure Exact (kinds : Set DType) : Prop where
  dtype_mem : ∀ t, ops.dtype t ∈ kinds
  promote_mem : ∀ a ∈ kinds, ∀ b ∈ kinds, promoteTypes a b ∈ kinds
  cast_eq : ∀ t, ∀ d ∈ kinds, ops.dtype t ≠ d → ops.cast t d = t

variable {ops} in
theorem Exact.castTo_eq {kinds : Set DType} (h : ops.Exact kinds) {d : DType} (hd : d ∈ kinds)
    (t : T) : ops.castTo d t = t := by
  unfold castTo
  split_ifs with heq
  · rfl
  · exact h.cast_eq t d hd heq

/-- `existing + incoming` in the promoted dtype. -/
def addPromoted [Add T] (existing incoming : T) : T :=
  let target := promoteTypes (ops.dtype existing) (ops.dtype incoming)
  ops.castTo target existing + ops.castTo target incoming

/-- The gradient stored after one more contribution. -/
def accumulate [Add T] (grad : Option T) (t : T) : T :=
  match grad with
  | none => t
  | some existing => ops.addPromoted existing t

/-- Add all gradients that arrived at a Function, in their common dtype. -/
def totalGrad [Add T] : List T → Option T
  | [] => none
  | first :: rest =>
    let target := rest.foldl (fun d t => promoteTypes d (ops.dtype t)) (ops.dtype first)
    some (rest.foldl (fun total t => total + ops.castTo target t) (ops.castTo target first))

end TensorOps

/-- What a Function keeps from forward for its backward. -/
structure Held where
  saved : SavedTensors
  savedVariables : List VarId := []
  /-- Caches that subclasses hold besides the two common buckets. -/
  opState : Option TensorId := none

structure Function (T : Type) where
  held : Held
  inputVariables : List (Option VarId) := []
  nextFunctions : List (Option FnId) := []
  parentCount : Int := 0
  /-- `backward()`, reading what the Function holds. -/
  backward : TensorHeap → Held → List T → Except Exn (List T)

structure VariableImpl (T : Type) where
  data : T
  requiresGrad : Bool
  grad : Option T := none
  gradFn : Option FnId := none
  retainGrad : Bool := false
  preserveGradDtype : Bool := false
  wasNonLeaf : Bool := false
  /-- Backward hooks, in the order of their ids. -/
  hooks : List (T → T) := []

namespace VariableImpl

variable {T : Type} (v : VariableImpl T)

def isLeaf : Bool := v.gradFn.isNone

/-- The Variables whose `.grad` a backward pass writes. -/
def keepsGrad : Bool := v.isLeaf || v.retainGrad

def setGradFn (f : Option FnId) : VariableImpl T :=
  { v with gradFn := f, wasNonLeaf := v.wasNonLeaf || f.isSome }

end VariableImpl

/-- `release_saved_tensors`, which leaves the recorded base versions and devices. -/
def SavedTensors.release (s : SavedTensors) : SavedTensors :=
  { s with savedTensors := [], savedVersions := [], preOffloadVersions := [],
           wasOffloaded := false, tensorsOffloaded := false }

/-- `release_saved_tensors`, `clear_saved_variables` and `release_op_specific_state`. -/
def Held.release (h : Held) : Held :=
  { saved := h.saved.release, savedVariables := [], opState := none }

/-- All Functions and Variables of a program, and the tensors they save. -/
structure Graph (T : Type) where
  fns : FnId → Function T
  vars : VarId → VariableImpl T
  tensors : TensorHeap
  live : Finset FnId
  nextFn : FnId
  nextVar : VarId

namespace Graph

variable {T : Type} (g : Graph T)

def setVar (v : VarId) (x : VariableImpl T) : Graph T :=
  { g with vars := Function.update g.vars v x }

def setFn (f : FnId) (x : Function T) : Graph T :=
  { g with fns := Function.update g.fns f x }

/-- Add `delta` to the count of every Function listed, once for each entry. -/
def addParents (fns : FnId → Function T) (delta : Int) (funcs : List (Option FnId)) :
    FnId → Function T :=
  funcs.foldl (fun fns entry =>
    match entry with
    | none => fns
    | some c => Function.update fns c { fns c with parentCount := (fns c).parentCount + delta })
    fns

def setNextFunctions (f : FnId) (funcs : List (Option FnId)) : Graph T :=
  let fns := addParents (addParents g.fns (-1) (g.fns f).nextFunctions) 1 funcs
  { g with fns := Function.update fns f { fns f with nextFunctions := funcs } }

def setInputVariables (f : FnId) (inputs : List (Option VarId)) : Graph T :=
  g.setFn f { g.fns f with inputVariables := inputs }

/-- The entries of `next_functions` that point at `c`, over the given Functions. -/
def edgesInto (fs : List FnId) (c : FnId) : Nat :=
  (fs.map fun f => (g.fns f).nextFunctions.count (some c)).sum

/-- The Functions a Function points at. -/
def children (f : FnId) : List (Option FnId) := (g.fns f).nextFunctions

/-- `f` reaches `c` through `next_functions`. -/
def Reaches (f c : FnId) : Prop := Relation.ReflTransGen (PostOrder.Child g.children) f c

/-- Nothing points at a Function that is gone. -/
structure Closed : Prop where
  next_mem : ∀ f ∈ g.live, ∀ c, some c ∈ (g.fns f).nextFunctions → c ∈ g.live
  gradFn_mem : ∀ v f, (g.vars v).gradFn = some f → f ∈ g.live

variable {g} {f c : FnId}

/-- What is closed under `next_functions` contains all that it reaches. -/
theorem Reaches.mem (hreach : g.Reaches f c) (S : FnId → Prop) (hf : S f)
    (hnext : ∀ d, S d → ∀ e, some e ∈ (g.fns d).nextFunctions → S e) : S c := by
  induction hreach with
  | refl => exact hf
  | tail _ hchild ih => exact hnext _ ih _ hchild

theorem Closed.reaches_live (h : g.Closed) (hf : f ∈ g.live) (hreach : g.Reaches f c) :
    c ∈ g.live :=
  hreach.mem (· ∈ g.live) hf h.next_mem

/-- `set_next_functions` changes the edges of one Function and otherwise only counts. -/
structure SameButCount (x y : Function T) : Prop where
  held : y.held = x.held
  inputVariables : y.inputVariables = x.inputVariables
  nextFunctions : y.nextFunctions = x.nextFunctions
  backward : y.backward = x.backward

theorem SameButCount.refl (x : Function T) : SameButCount x x := ⟨rfl, rfl, rfl, rfl⟩

theorem SameButCount.trans {x y z : Function T} (h : SameButCount x y) (h' : SameButCount y z) :
    SameButCount x z :=
  ⟨h'.held.trans h.held, h'.inputVariables.trans h.inputVariables,
    h'.nextFunctions.trans h.nextFunctions, h'.backward.trans h.backward⟩

theorem addParents_spec (fns : FnId → Function T) (delta : Int) (funcs : List (Option FnId))
    (c : FnId) :
    SameButCount (fns c) (addParents fns delta funcs c) ∧
      (addParents fns delta funcs c).parentCount =
        (fns c).parentCount + delta * funcs.count (some c) := by
  induction funcs generalizing fns with
  | nil => exact ⟨SameButCount.refl _, by simp [addParents]⟩
  | cons entry rest ih =>
    cases entry with
    | none => simpa [addParents] using ih fns
    | some d =>
      let fns₁ := Function.update fns d { fns d with parentCount := (fns d).parentCount + delta }
      obtain ⟨hsame, hcount⟩ := ih fns₁
      have hcons : addParents fns delta (some d :: rest) = addParents fns₁ delta rest := rfl
      rw [hcons, hcount]
      by_cases hc : c = d
      · subst hc
        have hfns : fns₁ c = { fns c with parentCount := (fns c).parentCount + delta } :=
          Function.update_self ..
        refine ⟨SameButCount.trans ?_ hsame, ?_⟩
        · rw [hfns]
          exact ⟨rfl, rfl, rfl, rfl⟩
        · rw [hfns, List.count_cons_self]
          push_cast
          ring
      · have hfns : fns₁ c = fns c := Function.update_of_ne hc _ _
        rw [hfns] at hsame ⊢
        refine ⟨hsame, ?_⟩
        rw [List.count_cons_of_ne (by simpa using Ne.symm hc)]

theorem setNextFunctions_spec (g : Graph T) (f : FnId) (funcs : List (Option FnId)) (c : FnId) :
    ((g.setNextFunctions f funcs).fns c).held = (g.fns c).held ∧
      ((g.setNextFunctions f funcs).fns c).inputVariables = (g.fns c).inputVariables ∧
      ((g.setNextFunctions f funcs).fns c).backward = (g.fns c).backward ∧
      ((g.setNextFunctions f funcs).fns c).nextFunctions =
        (if c = f then funcs else (g.fns c).nextFunctions) ∧
      ((g.setNextFunctions f funcs).fns c).parentCount =
        (g.fns c).parentCount - (g.fns f).nextFunctions.count (some c) + funcs.count (some c) := by
  obtain ⟨hsame₁, hcount₁⟩ := addParents_spec g.fns (-1) (g.fns f).nextFunctions c
  obtain ⟨hsame₂, hcount₂⟩ := addParents_spec (addParents g.fns (-1) (g.fns f).nextFunctions) 1
    funcs c
  have hsame := hsame₁.trans hsame₂
  by_cases hc : c = f
  · subst hc
    simp only [setNextFunctions, Function.update_self, if_true]
    refine ⟨hsame.held, hsame.inputVariables, hsame.backward, trivial, ?_⟩
    rw [hcount₂, hcount₁]
    ring
  · simp only [setNextFunctions, Function.update_of_ne hc, if_neg hc]
    refine ⟨hsame.held, hsame.inputVariables, hsame.backward, hsame.nextFunctions, ?_⟩
    rw [hcount₂, hcount₁]
    ring

end Graph

end Tenzor
