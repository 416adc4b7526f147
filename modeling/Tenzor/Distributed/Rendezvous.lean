import Mathlib.Data.Int.Order.Basic
import Mathlib.Data.List.Basic

/-!
# The elastic rendezvous

Workers meet through a shared key-value store. `C10dRendezvous::join` is a
sequence of store operations, each atomic on its own; between two of them any
other worker may run. A tick runs one worker up to and including its next store
operation, so a list of ticks is an interleaving.

## Implementation notes

Clocks are not modelled: a tick says whether the grace window and the deadline
of its worker count as over. The keys below one `run_id` are constructors, and
the numbers that `std::to_string` and `std::stoll` carry through the store are
stored as numbers. What joins have returned or thrown, and the round numbers
that were published, are recorded beside the store.
-/

namespace Tenzor.Elastic

structure RendezvousConfig where
  minWorkers : ℤ
  maxWorkers : ℤ
  deriving DecidableEq, Repr

/-- The check at the head of `join`. -/
def RendezvousConfig.Valid (cfg : RendezvousConfig) : Prop :=
  1 ≤ cfg.minWorkers ∧ cfg.minWorkers ≤ cfg.maxWorkers

instance (cfg : RendezvousConfig) : Decidable cfg.Valid :=
  inferInstanceAs (Decidable (_ ∧ _))

/-- `current_round`, `round_r/slot_counter`, `round_r/world_size`,
`round_r/member/k`, `round_r/advance_guard` and `round_r/leave_k`. -/
inductive Key
  | currentRound
  | slotCounter (round : ℤ)
  | worldSize (round : ℤ)
  | member (round slot : ℤ)
  | advanceGuard (round : ℤ)
  | leave (round rank : ℤ)
  deriving DecidableEq, Repr

inductive Entry (ω : Type)
  | number (n : ℤ)
  | worker (id : ω)

/-- Where a worker stands in `join`: the store operation it does next. From
`drop` on the call is going to throw. -/
inductive Pc
  | outside
  | claim (round : ℤ)
  | announce (round slot : ℤ)
  | checkClosed (round slot : ℤ)
  | barrier (round slot : ℤ)
  | freeze (round slot count : ℤ)
  | awaitSize (round slot : ℤ)
  | drop (round slot : ℤ)
  | guard (round slot : ℤ)
  | advanceRead (round slot : ℤ)
  | advanceSet (round slot : ℤ)
  | advanceReport (round slot : ℤ)
  deriving DecidableEq, Repr

/-- `RendezvousResult` with its round and the worker it was returned to. -/
structure Joined (ω : Type) where
  round : ℤ
  rank : ℤ
  worldSize : ℤ
  worker : ω
  deriving DecidableEq, Repr

/-- The store, and for each worker its next step and the round and rank of its
last successful join until it leaves. -/
structure World (ω : Type) where
  store : Key → Option (Entry ω)
  pc : ω → Pc
  member : ω → Option (ℤ × ℤ)
  results : List (Joined ω)
  refused : List (ℤ × ℤ)
  published : List ℤ

structure Tick (ω : Type) where
  worker : ω
  graceOver : Bool := false
  deadlineOver : Bool := false
  leaves : Bool := false

namespace World

variable {ω : Type} [DecidableEq ω] (s : World ω)

def initial : World ω where
  store _ := none
  pc _ := .outside
  member _ := none
  results := []
  refused := []
  published := []

/-- A counter that is missing counts as zero. -/
def number (k : Key) : ℤ :=
  match s.store k with
  | some (.number n) => n
  | _ => 0

def set (k : Key) (e : Entry ω) : World ω := { s with store := Function.update s.store k (some e) }

def delete (k : Key) : World ω := { s with store := Function.update s.store k none }

/-- The store after `add(k, 1)`; the operation returns the new number. -/
def increment (k : Key) : World ω := s.set k (.number (s.number k + 1))

def goto (w : ω) (p : Pc) : World ω := { s with pc := Function.update s.pc w p }

/-- `read_current_round`. -/
def currentRound : ℤ := max 0 (s.number .currentRound)

/-- `get` of the world size, none while it is missing. -/
def frozenSize (round : ℤ) : Option ℤ :=
  match s.store (.worldSize round) with
  | some (.number n) => some n
  | _ => none

def returns (w : ω) (round slot size : ℤ) : World ω :=
  { s with
    pc := Function.update s.pc w .outside
    member := Function.update s.member w (some (round, slot))
    results := s.results ++ [⟨round, slot, size, w⟩] }

def throws (w : ω) (round slot : ℤ) : World ω :=
  { s with
    pc := Function.update s.pc w .outside
    refused := s.refused ++ [(round, slot)] }

def leave (w : ω) : World ω :=
  match s.member w with
  | some (round, rank) =>
    { s.set (.leave round rank) (.number 1) with
      member := Function.update s.member w none }
  | none => s

/-- After the barrier the coordinator goes on to freeze the world size. -/
def afterBarrier (w : ω) (round slot count : ℤ) : World ω :=
  s.goto w (if slot = 0 then .freeze round slot count else .awaitSize round slot)

def poll (cfg : RendezvousConfig) (t : Tick ω) (round slot : ℤ) : World ω :=
  let count := s.number (.slotCounter round)
  if cfg.maxWorkers ≤ count then s.afterBarrier t.worker round slot count
  else if cfg.minWorkers ≤ count ∧ t.graceOver then s.afterBarrier t.worker round slot count
  else if t.deadlineOver then
    if cfg.minWorkers ≤ count then s.afterBarrier t.worker round slot count
    else s.goto t.worker (.drop round slot)
  else s

def readSize (t : Tick ω) (round slot : ℤ) : World ω :=
  match s.frozenSize round with
  | some size =>
    if slot < size then s.returns t.worker round slot size
    else s.goto t.worker (.drop round slot)
  | none => if t.deadlineOver then s.goto t.worker (.drop round slot) else s

def step (cfg : RendezvousConfig) (t : Tick ω) : World ω :=
  let w := t.worker
  match s.pc w with
  | .outside =>
    if t.leaves then s.leave w
    else if cfg.Valid then s.goto w (.claim s.currentRound)
    else s
  | .claim round =>
    (s.increment (.slotCounter round)).goto w (.announce round (s.number (.slotCounter round)))
  | .announce round slot =>
    (s.set (.member round slot) (.worker w)).goto w (.checkClosed round slot)
  | .checkClosed round slot =>
    if (s.store (.worldSize round)).isSome then s.goto w (.drop round slot)
    else s.goto w (.barrier round slot)
  | .barrier round slot => s.poll cfg t round slot
  | .freeze round slot count =>
    (s.set (.worldSize round) (.number (min count cfg.maxWorkers))).goto w (.awaitSize round slot)
  | .awaitSize round slot => s.readSize t round slot
  | .drop round slot => (s.delete (.member round slot)).goto w (.guard round slot)
  | .guard round slot =>
    (s.increment (.advanceGuard round)).goto w
      (if s.number (.advanceGuard round) + 1 = 1 then .advanceRead round slot
      else .advanceReport round slot)
  | .advanceRead round slot =>
    s.goto w (if s.currentRound < round + 1 then .advanceSet round slot
      else .advanceReport round slot)
  | .advanceSet round slot =>
    { (s.set .currentRound (.number (round + 1))).goto w (.advanceReport round slot) with
      published := s.published ++ [round + 1] }
  | .advanceReport round slot => s.throws w round slot

def run (cfg : RendezvousConfig) (ticks : List (Tick ω)) (s : World ω) : World ω :=
  ticks.foldl (fun s t => s.step cfg t) s

end World

end Tenzor.Elastic
