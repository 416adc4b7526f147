import Tenzor.Io.Unpickler

/-!
# State dictionaries of checkpoints

The object that a pickle program leaves is flattened: a tensor gets the keys and the indices on the
way to it as its name. Every tensor that is reached through dictionaries, lists and tuples is in the
result; nothing is looked up in the arguments of other calls or in the states of objects.
-/

namespace Tenzor.TorchPickle

open Throwing Scanner Tenzor.Lite

def maxFlattenDepth : ℕ := 256

def joinName (pre name : Text) : Text := if pre = [] then name else pre ++ 46 :: name

/-- `flatten_state_dict`, with the levels that are left. -/
def flattenStateDict (heap : Ptr → PValue) :
    ℕ → Ptr → Text → List (Text × LoadedTensor) → Except Exn (List (Text × LoadedTensor))
  | 0, _, _, _ => throw (.runtimeError ("torch_pickle: state-dict nesting exceeds maximum depth (" ++
      toString maxFlattenDepth ++ ") — refusing to recurse further (possible malicious or " ++
      "malformed file)"))
  | levels + 1, node, pre, out =>
    match heap node with
    | .dict entries => entries.foldlM (fun out e =>
      match heap e.1 with
      | .string name | .bytes name =>
        flattenStateDict heap levels e.2 (joinName pre name) out
      | _ => throw (.runtimeError ("torch_pickle: state-dict key is not a string/bytes name " ++
          "(cannot build a flattened parameter name)"))) out
    | .tensorObj _ t =>
      if pre ∈ out.map Prod.fst then throw (.runtimeError
        ("torch_pickle: duplicate flattened tensor name '" ++ asString pre ++ "' in state dict"))
      else pure (out ++ [(pre, t)])
    | .list seq | .tuple seq => seq.zipIdx.foldlM (fun out e =>
      flattenStateDict heap levels e.1 (joinName pre (decimal e.2)) out) out
    | _ => pure out

/-- The first dictionary among the values that has tensors. -/
def firstSubDict (heap : Ptr → PValue) :
    List (Ptr × Ptr) → Except Exn (List (Text × LoadedTensor))
  | [] => pure []
  | e :: entries =>
    match heap e.2 with
    | .dict _ => do
        let trial ← flattenStateDict heap (maxFlattenDepth + 1) e.2 [] []
        if trial.isEmpty then firstSubDict heap entries else pure trial
    | _ => firstSubDict heap entries

def collect (heap : Ptr → PValue) (root : Ptr) : Except Exn (List (Text × LoadedTensor)) := do
  let state ← flattenStateDict heap (maxFlattenDepth + 1) root [] []
  if state.isEmpty then
    match heap root with
    | .dict entries => firstSubDict heap entries
    | _ => pure state
  else pure state

/-- The name of the pickle program in an archive. -/
def pickleName (zip : ZipReader) (path : String) : Except Exn Text := do
  let found := zip.findSuffix (ascii "/data.pkl")
  let name := if found = [] ∧ zip.hasEntry (ascii "data.pkl") then ascii "data.pkl" else found
  throwIf (name = []) (.runtimeError ("torch_pickle: no `data.pkl` entry in archive — not a " ++
    "recognised torch.save layout. File: " ++ path))
  pure name

/-- Everything up to the last slash. -/
def prefixOf (name : Text) : Text := (name.reverse.dropWhile (· ≠ 47)).reverse

/-- The root and the objects of the pickle program of an archive. -/
def unpickle (zip : ZipReader) (path : String) : Except Exn (Ptr × Unpickler) := do
  let name ← pickleName zip path
  let bytes ← zip.read name
  load zip (prefixOf name) bytes

def loadTorchPickle (zip : ZipReader) (path : String) : Except Exn (List (Text × LoadedTensor)) := do
  let (root, s) ← unpickle zip path
  collect s.heap root

end Tenzor.TorchPickle
