import Tenzor.Core.DType
import Tenzor.Lib.Strided
import Tenzor.Lib.Throwing

/-!
# Device meshes

A mesh is a grid of ranks in row-major order with a name for each axis. The group of an axis is
split off the attached process group: ranks that agree on all other axes ask for one color, and
their coordinate along the axis is the key.

## Implementation notes

The mesh has no list of devices: a device id is a rank of the mesh. A process group is known by its
processes in the order of their ranks. Splitting is collective, so one process only gives its
request; the answer is a function of all requests. A port is added up as an exact number.
-/

namespace Tenzor.Mesh

open Throwing Wrap64

/-- A process group, as one of its processes sees it. -/
structure ProcessGroup where
  processes : List ℕ
  rank : ℕ
  deriving DecidableEq

def ProcessGroup.worldSize (pg : ProcessGroup) : Int := pg.processes.length

structure DeviceMesh where
  meshShape : List Int
  meshDimNames : List String
  localRank : Int
  pg : Option ProcessGroup
  /-- The groups of the axes that have been split off. -/
  subPgCache : List (String × Option ProcessGroup)

namespace DeviceMesh

/-- The product of the sizes from axis `i` on. -/
def checkedSize (i : ℕ) (size : Int) : List Int → Except Exn Int
  | [] => .ok size
  | n :: meshShape => do
      throwIf (n ≤ 0) (.invalidArgument s!"DeviceMesh: mesh_shape[{i}] = {n} must be positive")
      checkedSize (i + 1) (wrap64 (size * n)) meshShape

def checkNames (seen : List String) : List String → Except Exn Unit
  | [] => .ok ()
  | name :: meshDimNames => do
      throwIf (name ∈ seen)
        (.invalidArgument s!"DeviceMesh: duplicate dimension name '{name}'")
      checkNames (name :: seen) meshDimNames

def validateAndInit (meshShape : List Int) (meshDimNames : List String) : Except Exn Int := do
  throwIf (meshShape.length ≠ meshDimNames.length) (.invalidArgument
    s!"DeviceMesh: mesh_shape has {meshShape.length} dimensions but {meshDimNames.length} names were provided")
  throwIf (meshShape = []) (.invalidArgument "DeviceMesh: mesh_shape must not be empty")
  let size ← checkedSize 0 1 meshShape
  checkNames [] meshDimNames
  return size

variable (mesh : DeviceMesh)

def ndim : Int := mesh.meshShape.length

def size : Int := mesh.meshShape.foldl (fun size n => wrap64 (size * n)) 1

/-- The axes below `i`, from the last to the first. -/
def deviceIdFrom (meshShape coord : List Int) : ℕ → Int → Int → Except Exn Int
  | 0, flatId, _ => .ok flatId
  | i + 1, flatId, stride => do
      let c := coord.getD i 0
      let n := meshShape.getD i 0
      throwIf (c < 0 ∨ n ≤ c) (.outOfRange
        s!"DeviceMesh::get_device_id: coordinate[{i}] = {c} is out of range [0, {n})")
      deviceIdFrom meshShape coord i (wrap64 (flatId + wrap64 (c * stride))) (wrap64 (stride * n))

def getDeviceId (coord : List Int) : Except Exn Int := do
  throwIf ((coord.length : Int) ≠ mesh.ndim) (.outOfRange
    s!"DeviceMesh::get_device_id: expected {mesh.ndim} coordinates, got {coord.length}")
  deviceIdFrom mesh.meshShape coord mesh.meshShape.length 0 1

/-- The coordinates below axis `i`, before those that are known. -/
def coordinateFrom (meshShape : List Int) : ℕ → Int → List Int → List Int
  | 0, _, coord => coord
  | i + 1, remaining, coord =>
    coordinateFrom meshShape i (remaining.tdiv (meshShape.getD i 0))
      (remaining.tmod (meshShape.getD i 0) :: coord)

def getCoordinate (flatId : Int) : Except Exn (List Int) := do
  throwIf (flatId < 0 ∨ mesh.size ≤ flatId) (.outOfRange
    s!"DeviceMesh::get_coordinate: flat_id {flatId} is out of range [0, {mesh.size})")
  return coordinateFrom mesh.meshShape mesh.meshShape.length flatId []

def getDim (name : String) : Except Exn ℕ :=
  match mesh.meshDimNames.idxOf? name with
  | some i => .ok i
  | none => .error (.invalidArgument s!"DeviceMesh::get_dim: dimension name '{name}' not found")

/-- The ranks that differ from this one along the axis only. -/
def getSubmesh (dimName : String) : Except Exn (List Int) := do
  let dimIdx ← mesh.getDim dimName
  let myCoord ← mesh.getCoordinate mesh.localRank
  (List.range (mesh.meshShape.getD dimIdx 0).toNat).mapM fun i : ℕ =>
    mesh.getDeviceId (myCoord.set dimIdx i)

def intMax : Int := 2147483647

/-- The row-major number of the coordinates off the axis, from axis `d` on. -/
def colorFrom (dimIdx : ℕ) : ℕ → List Int → List Int → Int → Int
  | d, n :: meshShape, c :: coord, color =>
    colorFrom dimIdx (d + 1) meshShape coord
      (if d = dimIdx then color else wrap64 (wrap64 (color * n) + c))
  | _, _, _, color => color

/-- A group that is there, or what is asked of the attached one. -/
inductive Request
  | returned (pg : Option ProcessGroup)
  | split (color key : Int)
  deriving DecidableEq

def processGroupForDim (dimName : String) : Except Exn Request := do
  let dimIdx ← mesh.getDim dimName
  if mesh.ndim = 1 then return .returned mesh.pg
  else
    match mesh.pg with
    | none => return .returned none
    | some pg =>
      if pg.worldSize = 1 ∨ mesh.meshShape.getD dimIdx 0 = pg.worldSize then
        return .returned (some pg)
      else
        match mesh.subPgCache.lookup dimName with
        | some sub => return .returned sub
        | none => do
            let myCoord ← mesh.getCoordinate mesh.localRank
            let color := colorFrom dimIdx 0 mesh.meshShape myCoord 0
            throwIf (intMax < color ∨ intMax < myCoord.getD dimIdx 0) (.overflowError
              s!"DeviceMesh::process_group_for_dim: sub-PG color/key exceeds the int range supported by ProcessGroup::split for axis '{dimName}'")
            return .split color (myCoord.getD dimIdx 0)

end DeviceMesh

/-- The order of the members of a new group: by key, then by rank. -/
def memberLe (keys : List Int) (p q : ℕ) : Bool :=
  decide (keys.getD p 0 < keys.getD q 0 ∨ (keys.getD p 0 = keys.getD q 0 ∧ p ≤ q))

/-- The ranks that ask for a color, in the order of the new group. -/
def membersOf (colors keys : List Int) (color : Int) : List ℕ :=
  ((List.range colors.length).filter fun p => colors.getD p 0 = color).mergeSort (memberLe keys)

/-- The port of a group that is split off. -/
def newPort (masterPort mySplitId color : Int) : Int :=
  masterPort + 1000 + mySplitId * 10000 + color

def portOutOfRange (masterPort mySplitId color : Int) : Exn :=
  .runtimeError s!"GlooProcessGroup::split: derived port {newPort masterPort mySplitId color} out of range [1, 65535] (master_port={masterPort}, split_id={mySplitId}, color={color}); too many splits for the available port range"

/-- A TCP port. -/
def IsPort (port : Int) : Prop := 1 ≤ port ∧ port ≤ 65535

instance (port : Int) : Decidable (IsPort port) := inferInstanceAs (Decidable (_ ∧ _))

/-- `split`, when process `rank` of the parent asks for its color and key among those of all, after
`mySplitId` other splits. -/
def ProcessGroup.split (pg : ProcessGroup) (masterPort mySplitId : Int) (colors keys : List Int) :
    Except Exn (Option ProcessGroup) := do
  let color := colors.getD pg.rank 0
  if color < 0 then return none
  else
    let members := membersOf colors keys color
    throwIf (¬ IsPort (newPort masterPort mySplitId color))
      (portOutOfRange masterPort mySplitId color)
    return some ⟨members.map (pg.processes.getD · 0), members.idxOf pg.rank⟩

end Tenzor.Mesh
