import Tenzor.Lib.Wrap64

/-!
# Element types, exceptions and checked arithmetic

`DType` lists the element types in the order of the source enumeration. An
operation that throws is a value of `Except Exn`, where `Exn` keeps the C++
exception class together with its text.
-/

namespace Tenzor

open Wrap64

/-- The exception classes the modelled code throws, with their texts. -/
inductive Exn
  | runtimeError (what : String)
  | invalidArgument (what : String)
  | outOfRange (what : String)
  | overflowError (what : String)
  | autogradException (what : String)
  deriving DecidableEq, Repr

inductive DType
  | float32 | float64 | float16 | bfloat16
  | int8 | int16 | int32 | int64
  | uint8 | uint16 | uint32 | uint64
  | bool | complex64 | complex128
  | fp8E4M3 | fp8E5M2
  | qint8 | quint8 | qint4x2
  | fp8E4M3FNUZ | fp8E5M2FNUZ
  deriving DecidableEq, Repr

/-- Bytes of one element. `qint4x2` packs two values in its byte. -/
def dtypeSize : DType → Nat
  | .float32 | .int32 | .uint32 => 4
  | .float64 | .int64 | .uint64 | .complex64 => 8
  | .float16 | .bfloat16 | .int16 | .uint16 => 2
  | .int8 | .uint8 | .bool => 1
  | .complex128 => 16
  | .fp8E4M3 | .fp8E5M2 | .fp8E4M3FNUZ | .fp8E5M2FNUZ => 1
  | .qint8 | .quint8 | .qint4x2 => 1

theorem dtypeSize_pos (dt : DType) : 0 < dtypeSize dt := by
  cases dt <;> decide

def dtypeName : DType → String
  | .float32 => "float32" | .float64 => "float64" | .float16 => "float16"
  | .bfloat16 => "bfloat16" | .int8 => "int8" | .int16 => "int16" | .int32 => "int32"
  | .int64 => "int64" | .uint8 => "uint8" | .uint16 => "uint16" | .uint32 => "uint32"
  | .uint64 => "uint64" | .bool => "bool" | .complex64 => "complex64"
  | .complex128 => "complex128" | .fp8E4M3 => "fp8_e4m3" | .fp8E5M2 => "fp8_e5m2"
  | .qint8 => "qint8" | .quint8 => "quint8" | .qint4x2 => "qint4x2"
  | .fp8E4M3FNUZ => "fp8_e4m3fnuz" | .fp8E5M2FNUZ => "fp8_e5m2fnuz"

def isQuantized (dt : DType) : Bool :=
  dt = .qint8 || dt = .quint8 || dt = .qint4x2

def isFp8 (dt : DType) : Bool :=
  dt = .fp8E4M3 || dt = .fp8E5M2 || dt = .fp8E4M3FNUZ || dt = .fp8E5M2FNUZ

def isFnuz (dt : DType) : Bool := dt = .fp8E4M3FNUZ || dt = .fp8E5M2FNUZ

def isFloatingType (dt : DType) : Bool :=
  dt = .float32 || dt = .float64 || dt = .float16 || dt = .bfloat16 || isFp8 dt

def isUnsignedIntegerType (dt : DType) : Bool :=
  dt = .uint8 || dt = .uint16 || dt = .uint32 || dt = .uint64

def isSignedIntegerType (dt : DType) : Bool :=
  dt = .int8 || dt = .int16 || dt = .int32 || dt = .int64

def isIntegerType (dt : DType) : Bool := isSignedIntegerType dt || isUnsignedIntegerType dt

def isComplexType (dt : DType) : Bool := dt = .complex64 || dt = .complex128

/-- Priority ordering for type promotion; quantized types have none. -/
def dtypePriority : DType → Int
  | .bool => 0 | .uint8 => 1 | .int8 => 2 | .uint16 => 3 | .int16 => 4
  | .uint32 => 5 | .int32 => 6 | .uint64 => 7 | .int64 => 8
  | .fp8E4M3 | .fp8E5M2 | .fp8E4M3FNUZ | .fp8E5M2FNUZ => 8
  | .float16 => 9 | .bfloat16 => 10 | .float32 => 11 | .float64 => 12
  | .complex64 => 13 | .complex128 => 14
  | .qint8 | .quint8 | .qint4x2 => -1

/-- The operand with the higher priority, the left one on a tie. -/
def higherPriority (a b : DType) : DType :=
  if dtypePriority b ≤ dtypePriority a then a else b

def atLeastFloat32 (dt : DType) : DType :=
  if dtypePriority .float32 ≤ dtypePriority dt then dt else .float32

/-- The signed type that holds the range of an unsigned type mixed with a
signed type of at most its width. -/
def promoteUnsigned : DType → Option DType
  | .uint8 => some .int16
  | .uint16 => some .int32
  | .uint32 => some .int64
  | .uint64 => some .float64
  | _ => none

def promoteIntegers (a b : DType) : DType :=
  if isUnsignedIntegerType a != isUnsignedIntegerType b then
    let unsignedDt := if isUnsignedIntegerType a then a else b
    let signedDt := if isUnsignedIntegerType a then b else a
    if dtypeSize signedDt ≤ dtypeSize unsignedDt then
      (promoteUnsigned unsignedDt).getD (higherPriority a b)
    else higherPriority a b
  else higherPriority a b

def promoteFp8 (a b : DType) : DType :=
  if isFp8 a && isFp8 b then
    if isFnuz a && isFnuz b then .fp8E5M2FNUZ
    else if !isFnuz a && !isFnuz b then .fp8E5M2
    else .float32
  else
    let other := if isFp8 a then b else a
    if other = .float64 then .float64 else atLeastFloat32 other

/-- The common type of two operands. -/
def promoteTypes (a b : DType) : DType :=
  if a = b then a
  else if a = .bool && !isQuantized b then b
  else if b = .bool && !isQuantized a then a
  else if isComplexType a && isComplexType b then higherPriority a b
  else if isComplexType a then if b = .float64 then .complex128 else a
  else if isComplexType b then if a = .float64 then .complex128 else b
  else if isQuantized a || isQuantized b then
    if isFloatingType a then atLeastFloat32 a
    else if isFloatingType b then atLeastFloat32 b
    else if isQuantized a && isQuantized b then .qint8
    else .float32
  else if isFp8 a || isFp8 b then promoteFp8 a b
  else if isFloatingType a && isIntegerType b then
    if a = .float16 || a = .bfloat16 then .float32 else a
  else if isFloatingType b && isIntegerType a then
    if b = .float16 || b = .bfloat16 then .float32 else b
  else if isFloatingType a && isFloatingType b then
    if (a = .float16 && b = .bfloat16) || (a = .bfloat16 && b = .float16) then .float32
    else higherPriority a b
  else if isIntegerType a && isIntegerType b then promoteIntegers a b
  else higherPriority a b

@[simp] theorem promoteTypes_self (dt : DType) : promoteTypes dt dt = dt := by
  simp [promoteTypes]

/-- Multiply two words, throwing on overflow. -/
def checkedMul (a b : Int) : Except Exn Int :=
  if InInt64 (a * b) then .ok (a * b)
  else .error (.overflowError "Integer overflow in multiplication")

/-- Add two words, throwing on overflow. -/
def checkedAdd (a b : Int) : Except Exn Int :=
  if InInt64 (a + b) then .ok (a + b)
  else .error (.overflowError "Integer overflow in addition")

theorem checkedMul_eq_ok {a b c : Int} :
    checkedMul a b = .ok c ↔ InInt64 (a * b) ∧ c = a * b := by
  unfold checkedMul
  split <;> simp_all [eq_comm]

theorem checkedAdd_eq_ok {a b c : Int} :
    checkedAdd a b = .ok c ↔ InInt64 (a + b) ∧ c = a + b := by
  unfold checkedAdd
  split <;> simp_all [eq_comm]

/-- Absolute value as an unsigned word; the smallest word has no negation. -/
def safeAbs (v : Int) : Nat := v.natAbs

end Tenzor
