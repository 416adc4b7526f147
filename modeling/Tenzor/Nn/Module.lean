import Tenzor.Core.Tensor
import Tenzor.Lib.Dict
import Tenzor.Lib.Effects
import Mathlib

/-!
# Module trees

A module registers parameters, buffers and submodules under names. The containers keep a second
record of what they contain, in order, and override the functions that list or save parameters
with a traversal of that record; the loader is the one of the base class for all of them.

## Implementation notes

A name is a list of characters. Maps are listed in the order of iteration, which for the
source's hash maps is any order. A `Variable` is its identity, so that sharing can be expressed;
the elements of its tensor are in the state. The same module object at two places is the same tree
twice. Values are exact, and `convert` is the conversion of an element to a type. What is loaded has
memory of its own, as what `state_dict()` returns has.
-/

namespace Tenzor

open Effects List Throwing

/-- A parameter, buffer or submodule name, and the keys built from them. -/
abbrev Key := List Char

/-- The identity of a `Variable`. -/
abbrev VariableId := ℕ

/-- What a container keeps beside the registrations. -/
inductive Items (M : Type)
  /-- A module that is no container. -/
  | none
  | sequential (modules : List M)
  | moduleList (modules : List M)
  /-- The entries in insertion order. -/
  | moduleDict (modules : List (Key × M))
  | parameterList (params : List VariableId)
  /-- The entries in insertion order. -/
  | parameterDict (params : List (Key × VariableId))

inductive Module
  | mk (parameters buffers : Dict Key VariableId) (submodules : List (Key × Module))
      (items : Items Module)

def Items.map {M N : Type} (f : M → N) : Items M → Items N
  | .none => .none
  | .sequential modules => .sequential (modules.map f)
  | .moduleList modules => .moduleList (modules.map f)
  | .moduleDict modules => .moduleDict (modules.map fun e => (e.1, f e.2))
  | .parameterList params => .parameterList params
  | .parameterDict params => .parameterDict params

/-- The modules among the items. -/
def Items.modules {M : Type} : Items M → List M
  | .none => []
  | .sequential modules => modules
  | .moduleList modules => modules
  | .moduleDict modules => modules.map Prod.snd
  | .parameterList _ => []
  | .parameterDict _ => []

namespace Module

variable {R : Type} (f : Dict Key VariableId → Dict Key VariableId → List (Key × R) → Items R → R)

mutual

/-- A member function that calls itself on the submodules: `f` has their results in the place of
the submodules. -/
def fold : Module → R
  | .mk parameters buffers submodules items =>
    f parameters buffers (foldNamed submodules) (foldItems items)

def foldNamed : List (Key × Module) → List (Key × R)
  | [] => []
  | e :: rest => foldEntry e :: foldNamed rest

def foldEntry : Key × Module → Key × R
  | (name, m) => (name, fold m)

def foldList : List Module → List R
  | [] => []
  | m :: rest => fold m :: foldList rest

def foldItems : Items Module → Items R
  | .none => .none
  | .sequential modules => .sequential (foldList modules)
  | .moduleList modules => .moduleList (foldList modules)
  | .moduleDict modules => .moduleDict (foldNamed modules)
  | .parameterList params => .parameterList params
  | .parameterDict params => .parameterDict params

end

theorem foldNamed_eq (l : List (Key × Module)) :
    foldNamed f l = l.map fun e => (e.1, fold f e.2) := by
  induction l with
  | nil => simp only [foldNamed, map_nil]
  | cons e rest ih =>
    obtain ⟨name, m⟩ := e
    simp only [foldNamed, foldEntry, map_cons, ih]

theorem foldList_eq (l : List Module) : foldList f l = l.map (fold f) := by
  induction l with
  | nil => simp only [foldList, map_nil]
  | cons m rest ih => simp only [foldList, map_cons, ih]

theorem foldItems_eq (items : Items Module) : foldItems f items = items.map (fold f) := by
  cases items <;> simp only [foldItems, Items.map, foldNamed_eq, foldList_eq]

/-- One call of the member function. -/
theorem fold_mk (parameters buffers : Dict Key VariableId) (submodules : List (Key × Module))
    (items : Items Module) :
    fold f (.mk parameters buffers submodules items) =
      f parameters buffers (submodules.map fun e => (e.1, fold f e.2)) (items.map (fold f)) := by
  rw [fold, foldNamed_eq, foldItems_eq]

/-- What holds of a module when it holds of its submodules and items holds of all. -/
theorem ofChildren {P : Module → Prop}
    (h : ∀ parameters buffers submodules items, (∀ e ∈ submodules, P e.2) →
      (∀ m ∈ Items.modules items, P m) → P (.mk parameters buffers submodules items)) :
    ∀ m, P m := by
  exact @Module.rec P (fun l => ∀ e ∈ l, P e.2) (fun items => ∀ m ∈ items.modules, P m)
    (fun e => P e.2) (fun l => ∀ m ∈ l, P m) h
    (fun _ he => absurd he not_mem_nil)
    (fun _ _ hhead htail => forall_mem_cons.mpr ⟨hhead, htail⟩)
    (fun _ he => absurd he not_mem_nil) (fun _ ih => ih) (fun _ ih => ih)
    (fun _ ih m hm => by
      obtain ⟨e, he, rfl⟩ := mem_map.mp hm
      exact ih e he)
    (fun _ _ he => absurd he not_mem_nil) (fun _ _ he => absurd he not_mem_nil)
    (fun _ _ hm => hm) (fun _ he => absurd he not_mem_nil)
    fun _ _ hhead htail => forall_mem_cons.mpr ⟨hhead, htail⟩

end Module

/-- `std::to_string` of an index. -/
def indexName (i : ℕ) : Key := Nat.toDigits 10 i

/-- The prefix of the keys of a submodule. -/
def dotted (name : Key) : Key := name ++ ['.']

/-- The names under which the items list their contents. -/
def Items.named {M : Type} : Items M → List (Key × M)
  | .none => []
  | .sequential modules =>
    modules.zipIdx.map fun e => (['m', 'o', 'd', 'u', 'l', 'e', '_'] ++ indexName e.2, e.1)
  | .moduleList modules => modules.zipIdx.map fun e => (indexName e.2, e.1)
  | .moduleDict modules => modules
  | .parameterList _ => []
  | .parameterDict _ => []

namespace Module

/-- `add`: a `Variable` is taken once. -/
def addUnseen (params : List VariableId) (p : VariableId) : List VariableId :=
  if p ∈ params then params else params ++ [p]

def weightName : Key := ['w', 'e', 'i', 'g', 'h', 't']

def biasName : Key := ['b', 'i', 'a', 's']

/-- The weight, the bias, and the others. -/
def ownParameters (parameters : Dict Key VariableId) : List VariableId :=
  (parameters.lookup weightName).toList ++ (parameters.lookup biasName).toList ++
    ((Dict.pairs parameters).filter fun e => e.1 ≠ weightName ∧ e.1 ≠ biasName).map Prod.snd

/-- `parameters()`; the containers do not look for repetitions. -/
def parametersStep (parameters _buffers : Dict Key VariableId) (submodules : List (Key × List VariableId)) :
    Items (List VariableId) → List VariableId
  | .none => (ownParameters parameters ++ submodules.flatMap Prod.snd).foldl addUnseen []
  | .sequential modules => modules.flatten
  | .moduleList modules => modules.flatten
  | .moduleDict modules => modules.flatMap Prod.snd
  | .parameterList params => params
  | .parameterDict params => params.map Prod.snd

def parameters : Module → List VariableId := fold parametersStep

/-- A named `Variable` is taken once, under its first name. -/
def addUnseenNamed (params : List (Key × VariableId)) (e : Key × VariableId) : List (Key × VariableId) :=
  if e.2 ∈ params.map Prod.snd then params else params ++ [e]

/-- The parameters of a submodule under its name. -/
def underName (e : Key × List (Key × VariableId)) : List (Key × VariableId) :=
  e.2.map fun p => (dotted e.1 ++ p.1, p.2)

/-- `named_parameters()`; the containers do not look for repetitions. -/
def namedParametersStep (parameters _buffers : Dict Key VariableId)
    (submodules : List (Key × List (Key × VariableId))) :
    Items (List (Key × VariableId)) → List (Key × VariableId)
  | .none =>
    let own := (Dict.pairs parameters).insertionSort fun a b => a.1 ≤ b.1
    (own ++ submodules.flatMap underName).foldl addUnseenNamed []
  | .parameterList params => params.zipIdx.map fun e => (indexName e.2, e.1)
  | .parameterDict params => params
  | items => items.named.flatMap underName

def namedParameters : Module → List (Key × VariableId) := fold namedParametersStep

/-- The entries that `state_dict()` assigns, in order; `read` clones a tensor. -/
def stateEntries {β : Type} (read : VariableId → β) (parameters buffers : Dict Key VariableId)
    (submodules : List (Key × Dict Key β)) : Items (Dict Key β) → List (Key × β)
  | .none =>
    (Dict.pairs parameters).map (Prod.map id read) ++
      (Dict.pairs buffers).map (Prod.map id read) ++
      submodules.flatMap fun e => (Dict.pairs e.2).map (Prod.map (dotted e.1 ++ ·) id)
  | .parameterList params => params.zipIdx.map fun e => (indexName e.2, read e.1)
  | .parameterDict params => params.map (Prod.map id read)
  | items => items.named.flatMap fun e => (Dict.pairs e.2).map (Prod.map (dotted e.1 ++ ·) id)

/-- `state_dict()`. -/
def stateDict {β : Type} (read : VariableId → β) : Module → Dict Key β :=
  fold fun parameters buffers submodules items =>
    Dict.ofEntries (stateEntries read parameters buffers submodules items)

end Module

/-- A tensor as it is saved: its elements in row-major order. -/
structure StateTensor where
  shape : List ℕ
  dtype : DType
  data : List ℚ
  quant : QuantParams := {}
  length_eq : data.length = shape.prod
  quant_eq : isQuantized dtype = false → quant = {}
  deriving DecidableEq

theorem StateTensor.quant_default (dtype : DType) :
    isQuantized dtype = false → ({} : QuantParams) = {} := fun _ => rfl

/-- A tensor in use: the positions of its elements in its storage, in row-major order. -/
structure LiveTensor where
  shape : List ℕ
  dtype : DType
  storage : ℕ
  positions : List ℕ
  contiguous : Bool
  requiresGrad : Bool
  length_positions : positions.length = shape.prod
  consecutive : contiguous = true → ∃ offset, positions = range' offset shape.prod

/-- The tensors of all `Variable`s. A storage has elements of one type. -/
structure Variables where
  tensor : VariableId → LiveTensor
  oneType : ∀ v w, (tensor v).storage = (tensor w).storage → (tensor v).dtype = (tensor w).dtype

/-- Where an element is kept. A tensor that is written in place has its elements in its storage,
which others may share; a tensor that is replaced as a whole has values of its own. -/
inductive Cell
  | element (storage position : ℕ)
  | value (v : VariableId) (i : ℕ)
  deriving DecidableEq

abbrev Contents := Cell → ℚ

namespace Variables

variable (live : Variables)

def numel (v : VariableId) : ℕ := (live.tensor v).shape.prod

def cell (v : VariableId) (i : ℕ) : Cell :=
  let t := live.tensor v
  if isFloatingType t.dtype then .element t.storage (t.positions.getD i 0) else .value v i

/-- The number of the element in a cell. -/
def indexOf (v : VariableId) (c : Cell) : Option ℕ := (range (live.numel v)).find? (live.cell v · = c)

/-- Every element of a tensor becomes what `f` makes of it. -/
def modify (v : VariableId) (f : ℕ → ℚ → ℚ) (mem : Contents) : Contents := fun c =>
  match live.indexOf v c with
  | some i => f i (mem c)
  | none => mem c

def store (v : VariableId) (data : List ℚ) : Contents → Contents := live.modify v fun i _ => data.getD i 0

/-- `clone()`; the copy has no quantization. -/
def clone (mem : Contents) (v : VariableId) : StateTensor where
  shape := (live.tensor v).shape
  dtype := (live.tensor v).dtype
  data := (range (live.numel v)).map fun i => mem (live.cell v i)
  length_eq := by rw [length_map, length_range, numel]
  quant_eq := StateTensor.quant_default (live.tensor v).dtype

/-- `add_`, from a tensor of the same shape and type. -/
def addInPlace (v : VariableId) (other : StateTensor) : Effect Contents Exn Unit := do
  let t := live.tensor v
  raise (throwIf t.requiresGrad (.runtimeError
    "In-place operation not allowed on a tensor that requires grad. Use the non-inplace version instead."))
  raise (throwIf (t.contiguous = false)
    (.runtimeError "In-place add requires contiguous tensor"))
  raise (throwIf (isFp8 t.dtype) (.runtimeError "add_inplace: unsupported dtype"))
  let mem ← get
  set (live.modify v (fun i x => x + other.data.getD i 0) mem)

end Variables

section Loading

variable (convert : DType → ℚ → ℚ) (live : Variables)

/-- The elements as elements of a type. -/
def StateTensor.cast (t : StateTensor) (dtype : DType) : List ℚ :=
  if t.dtype = dtype then t.data else t.data.map (convert dtype)

/-- `to(dtype)`. -/
def StateTensor.to (t : StateTensor) (dtype : DType) : Except Exn StateTensor :=
  if t.dtype = dtype then pure t
  else do
    throwIf (isQuantized dtype) (.runtimeError
      ".to(quantized dtype) is not supported — use tenzor::quantize_per_tensor(x, scale, zero_point, dtype) or quantize_per_channel() to build a quantized tensor")
    throwIf (isQuantized t.dtype) (.runtimeError
      ".to(dtype) on a quantized tensor is not supported — call dequantize() first, then cast the resulting float tensor")
    return {
      shape := t.shape
      dtype := dtype
      data := t.cast convert dtype
      length_eq := by
        unfold cast
        split
        · exact t.length_eq
        · exact (length_map _).trans t.length_eq
      quant_eq := StateTensor.quant_default dtype }

/-- `load_param_in_place`: the payload is adapted to the live tensor's type. -/
def loadParamInPlace (dst : VariableId) (src : StateTensor) (name : Key) (kind : String) :
    Effect Contents Exn Unit := do
  raise (throwIf ((live.tensor dst).shape ≠ src.shape)
    (.runtimeError s!"Shape mismatch for {kind} '{String.ofList name}'"))
  let adapted ← raise (src.to convert (live.tensor dst).dtype)
  let mem ← get
  if isFloatingType (live.tensor dst).dtype then do
    set (live.modify dst (fun _ _ => 0) mem)
    live.addInPlace dst adapted
  else set (live.store dst adapted.data mem)

/-- A registered `Variable` is loaded if the state has its name. -/
def loadEntry (state : Dict Key StateTensor) (kind : String) (e : Key × VariableId) :
    Effect Contents Exn Unit :=
  match state.lookup e.1 with
  | some t => loadParamInPlace convert live e.2 t e.1 kind
  | none => pure ()

/-- The entries of the state under the prefix of a submodule. -/
def subState (name : Key) (state : Dict Key StateTensor) : Dict Key StateTensor :=
  Dict.ofEntries ((Dict.pairs state).filterMap fun e =>
    if dotted name <+: e.1 then some (e.1.drop (dotted name).length, e.2) else none)

/-- The missing and the unexpected keys. -/
abbrev KeyReport := List Key × List Key

/-- The report of a submodule, under its prefix. -/
def loadSubmodule (state : Dict Key StateTensor)
    (e : Key × (Dict Key StateTensor → Effect Contents Exn KeyReport)) :
    Effect Contents Exn KeyReport := do
  let report ← e.2 (subState e.1 state)
  return (report.1.map (dotted e.1 ++ ·), report.2.map (dotted e.1 ++ ·))

/-- The key has been used by a registered `Variable` or lies under a submodule. -/
def Consumes (parameters buffers : Dict Key VariableId) (names : List Key) (key : Key) : Prop :=
  key ∈ parameters ∨ key ∈ buffers ∨ ∃ name ∈ names, dotted name <+: key

instance (parameters buffers : Dict Key VariableId) (names : List Key) (key : Key) :
    Decidable (Consumes parameters buffers names key) :=
  inferInstanceAs (Decidable (_ ∨ _ ∨ _))

/-- The base class loader with `strict` off: the containers do not override it. -/
def loadStep (parameters buffers : Dict Key VariableId)
    (submodules : List (Key × (Dict Key StateTensor → Effect Contents Exn KeyReport)))
    (_items : Items (Dict Key StateTensor → Effect Contents Exn KeyReport))
    (state : Dict Key StateTensor) : Effect Contents Exn KeyReport := do
  (Dict.pairs parameters).forM (loadEntry convert live state "parameter")
  (Dict.pairs buffers).forM (loadEntry convert live state "buffer")
  let reports ← submodules.mapM (loadSubmodule state)
  let missing := reports.flatMap Prod.fst ++
    parameters.keys.filter (· ∉ state) ++ buffers.keys.filter (· ∉ state)
  let unexpected := reports.flatMap Prod.snd ++
    state.keys.filter fun key => ¬ Consumes parameters buffers (submodules.map Prod.fst) key
  return (missing, unexpected)

/-- `load_state_dict` with its two lists, `strict` off. -/
def Module.loadReport : Module → Dict Key StateTensor → Effect Contents Exn KeyReport :=
  Module.fold (loadStep convert live)

/-- Keys in quotes, with commas between them. -/
def quotedKeys (keys : List Key) : String :=
  ", ".intercalate (keys.map fun key => "\"" ++ String.ofList key ++ "\"")

/-- The text of the exception. -/
def loadErrors (report : KeyReport) : String :=
  "Error(s) in loading state_dict:" ++
    (if report.1 ≠ [] then "\n  Missing key(s): " ++ quotedKeys report.1 else "") ++
    (if report.2 ≠ [] then "\n  Unexpected key(s): " ++ quotedKeys report.2 else "")

/-- `load_state_dict(state, strict)`. -/
def Module.loadStateDict (m : Module) (state : Dict Key StateTensor) (strict : Bool) :
    Effect Contents Exn Unit := do
  let report ← m.loadReport convert live state
  if strict = true ∧ (report.1 ≠ [] ∨ report.2 ≠ []) then
    throw (.runtimeError (loadErrors report))
  else return ()

end Loading

end Tenzor
