import Tenzor.Core.DType
import Tenzor.Lib.Throwing

/-!
# Graphs of the lite runtime

Nodes name tensors by 16-bit ids. A table of tensor values says where each id
comes from and, for a saved model, where its bytes are.

## Implementation notes

A float is its 32-bit pattern and an operation its 16-bit code; nothing here
computes with either.
-/

namespace Tenzor.Lite

structure LiteAttributes where
  f : Vector UInt32 4
  i : Vector Int64 4
  extraI : List Int64
  extraF : List UInt32
  deriving DecidableEq, Inhabited

structure LiteNode where
  op : UInt16
  inputIds : List Int16
  outputIds : List Int16
  attrs : LiteAttributes
  deriving DecidableEq

structure LiteGraph where
  nodes : List LiteNode
  inputIds : List Int16
  outputIds : List Int16
  deriving DecidableEq

/-- How the storage of a tensor id is sourced. -/
inductive TensorSource
  | input | weight | intermediate
  deriving DecidableEq, Repr

structure TensorValue where
  tensorId : Int16
  source : TensorSource
  dtype : DType
  shape : List Int64
  weightOffset : UInt64
  weightNbytes : UInt64
  inputIndex : UInt32
  deriving DecidableEq

structure MmplPlacement where
  tensorId : Int16
  poolIndex : UInt8
  offset : ℕ
  deriving DecidableEq

structure MmplPlan where
  poolSizes : List ℕ
  alignment : ℕ
  placements : List MmplPlacement
  deriving DecidableEq

/-- The result of unsigned 64-bit arithmetic. -/
def u64 (n : ℕ) : ℕ := n % 18446744073709551616

def uint64Max : ℕ := 18446744073709551615

theorem u64_of_lt {n : ℕ} (h : n < 18446744073709551616) : u64 n = n := Nat.mod_eq_of_lt h

/-- The entry of an id; a negative id is an index past every table. -/
def entryAt (tvs : List TensorValue) (id : Int16) : Option TensorValue :=
  if id.toInt < 0 then none else tvs[id.toInt.toNat]?

end Tenzor.Lite
