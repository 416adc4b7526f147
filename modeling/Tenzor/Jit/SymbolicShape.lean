import Tenzor.Core.DType
import Tenzor.Lib.Dict
import Tenzor.Lib.Throwing

/-!
# Symbolic shapes

A dimension of a symbolic shape is a number, a name or an expression over
dimensions. The operators fold constants and drop identities when they build an
expression, and broadcasting picks the dimension of the result from what is
known before any name is bound. Both are read against the numbers that a later
binding gives.

## Implementation notes

Values are 64-bit words, written as integers; the operators and `resolve` leave
their arithmetic unchecked.
-/

namespace Tenzor.Jit

open Wrap64

inductive ExprOp
  | add | sub | mul | div | max
  deriving DecidableEq, Repr

/-- `operator==` is structural. -/
inductive SymbolicDim
  | concrete (value : Int)
  | symbolic (name : String)
  | expr (op : ExprOp) (lhs rhs : SymbolicDim)
  deriving DecidableEq, Repr

abbrev SymbolicShape := List SymbolicDim

namespace SymbolicDim

def isConcrete : SymbolicDim → Bool
  | .concrete _ => true
  | _ => false

def add : SymbolicDim → SymbolicDim → SymbolicDim
  | .concrete l, .concrete r => .concrete (wrap64 (l + r))
  | lhs, rhs =>
    if rhs = .concrete 0 then lhs
    else if lhs = .concrete 0 then rhs
    else .expr .add lhs rhs

def sub : SymbolicDim → SymbolicDim → SymbolicDim
  | .concrete l, .concrete r => .concrete (wrap64 (l - r))
  | lhs, rhs => if rhs = .concrete 0 then lhs else .expr .sub lhs rhs

def mul : SymbolicDim → SymbolicDim → SymbolicDim
  | .concrete l, .concrete r => .concrete (wrap64 (l * r))
  | lhs, rhs =>
    if rhs = .concrete 0 then .concrete 0
    else if lhs = .concrete 0 then .concrete 0
    else if rhs = .concrete 1 then lhs
    else if lhs = .concrete 1 then rhs
    else .expr .mul lhs rhs

/-- C++ division truncates towards zero. -/
def div : SymbolicDim → SymbolicDim → Except Exn SymbolicDim
  | .concrete l, .concrete r =>
    if r = 0 then .error (.runtimeError "Division by zero in symbolic dimension arithmetic")
    else .ok (.concrete (wrap64 (l.tdiv r)))
  | lhs, rhs =>
    if rhs = .concrete 1 then .ok lhs
    else if lhs = .concrete 0 then .ok (.concrete 0)
    else .ok (.expr .div lhs rhs)

end SymbolicDim

structure SymbolicShapeEnvironment where
  bindings : Dict String Int

namespace SymbolicShapeEnvironment

variable (env : SymbolicShapeEnvironment)

def get (name : String) : Except Exn Int :=
  match env.bindings.lookup name with
  | some value => .ok value
  | none => .error (.runtimeError s!"SymbolicShapeEnvironment: unbound symbol '{name}'")

/-- The number an expression stands for. -/
def applyOp : ExprOp → Int → Int → Except Exn Int
  | .add, l, r => .ok (wrap64 (l + r))
  | .sub, l, r => .ok (wrap64 (l - r))
  | .mul, l, r => .ok (wrap64 (l * r))
  | .div, l, r =>
    if r = 0 then .error (.runtimeError "Division by zero resolving symbolic expression")
    else .ok (wrap64 (l.tdiv r))
  | .max, l, r => .ok (if r < l then l else r)

def resolve : SymbolicDim → Except Exn Int
  | .concrete value => .ok value
  | .symbolic name => env.get name
  | .expr op lhs rhs => do
      let l ← resolve lhs
      let r ← resolve rhs
      applyOp op l r

def resolveShape (shape : SymbolicShape) : Except Exn (List Int) := shape.mapM env.resolve

end SymbolicShapeEnvironment

/-- The `i`-th entry from the right, or the default beyond the left end. -/
def fromRight {α : Type} (l : List α) (default : α) (i : ℕ) : α :=
  if i < l.length then l.getD (l.length - 1 - i) default else default

/-- One dimension of a broadcast, from what is known of the two. -/
def broadcastDim (dim1 dim2 : SymbolicDim) : Except Exn SymbolicDim :=
  match dim1, dim2 with
  | .concrete v1, .concrete v2 =>
    if v1 = v2 ∨ v1 = 1 ∨ v2 = 1 then .ok (.concrete (max v1 v2))
    else .error (.runtimeError "Symbolic shapes are not broadcastable")
  | dim1, dim2 =>
    if dim1 = .concrete 1 then .ok dim2
    else if dim2 = .concrete 1 then .ok dim1
    else if dim1.isConcrete then .ok dim1
    else if dim2.isConcrete then .ok dim2
    else if dim1 = dim2 then .ok dim1
    else .ok (.expr .max dim1 dim2)

def broadcastSymbolicShapes (shape1 shape2 : SymbolicShape) : Except Exn SymbolicShape := do
  let dims ← (List.range (max shape1.length shape2.length)).mapM fun i =>
    broadcastDim (fromRight shape1 (.concrete 1) i) (fromRight shape2 (.concrete 1) i)
  return dims.reverse

/-- One dimension of the broadcast of two shapes of tensors. -/
def broadcastSize (dim1 dim2 : Int) : Except Exn Int :=
  if dim1 = dim2 then .ok dim1
  else if dim1 = 1 then .ok dim2
  else if dim2 = 1 then .ok dim1
  else .error (.runtimeError "Shapes are not broadcastable")

def broadcastShapes (shape1 shape2 : List Int) : Except Exn (List Int) := do
  let sizes ← (List.range (max shape1.length shape2.length)).mapM fun i =>
    broadcastSize (fromRight shape1 1 i) (fromRight shape2 1 i)
  return sizes.reverse

end Tenzor.Jit
