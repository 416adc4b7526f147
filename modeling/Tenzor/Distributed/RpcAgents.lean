import Mathlib.Data.Nat.Init
import Mathlib.Logic.Function.Basic
import Mathlib.Logic.Relation

/-!
# RPC agents

An agent numbers its requests, keeps a table of the promises that wait for their responses, and
completes a promise when a response with its number arrives. Every access to a shared variable is
a step of its own, so that sends, handlers, arrivals, timeouts and a shutdown can interleave.

## Implementation notes

`W` are the workers, `C` the calls of `send` in all of them, `D` the contents of requests and `R`
those of responses, errors included. A handler may answer anything. Frames in flight arrive in any
order, or never. What handlers have produced, and every `set_value` on the promise of a call, is
recorded. Request numbers do not overflow, and sockets, threads and authentication are left out.
-/

namespace Tenzor.Rpc

/-- What a promise is completed with. -/
inductive Outcome (R : Type)
  | response (r : R)
  /-- The `RPC_ERROR` with the text "agent shutdown". -/
  | agentShutdown
  deriving DecidableEq

/-- Where a call of `send` stands. -/
inductive Stage (R : Type)
  | idle
  /-- The agent was running. -/
  | checked
  /-- The request has a number. -/
  | numbered
  /-- The promise is in the table. -/
  | registered
  /-- The connection or the write has failed. -/
  | failed
  /-- The handler runs in process. -/
  | executing
  /-- The handler has returned in process. -/
  | responding (r : R)
  | waiting
  | timedOut
  | returned (o : Outcome R)
  | threw
  deriving DecidableEq

structure Request (W D : Type) where
  src : W
  dst : W
  requestId : ℕ
  body : D

inductive Frame (W D R : Type)
  | request (q : Request W D)
  | response (dst : W) (requestId : ℕ) (r : R)

/-- The calls that are going to be made. -/
structure Calls (W C D : Type) where
  owner : C → W
  dst : C → W
  body : C → D

structure Agents (W C D R : Type) where
  running : W → Bool
  nextRequestId : W → ℕ
  /-- The call whose promise waits under a number. -/
  pending : W → ℕ → Option C
  stage : C → Stage R
  requestId : C → Option ℕ
  /-- The arguments of `set_value` on the promise of a call. -/
  settings : C → List (Outcome R)
  inFlight : List (Frame W D R)
  /-- Requests that are being handled for a remote worker. -/
  executions : List (Request W D)
  produced : List (Request W D × R)

namespace Agents

variable {W C D R : Type} [DecidableEq W] [DecidableEq C]

/-- Before any call. -/
def initial : Agents W C D R where
  running _ := true
  nextRequestId _ := 0
  pending _ _ := none
  stage _ := .idle
  requestId _ := none
  settings _ := []
  inFlight := []
  executions := []
  produced := []

variable (s : Agents W C D R)

def goto (c : C) (stage : Stage R) : Agents W C D R :=
  { s with stage := Function.update s.stage c stage }

def setPending (w : W) (id : ℕ) (entry : Option C) : Agents W C D R :=
  { s with pending := Function.update s.pending w (Function.update (s.pending w) id entry) }

/-- A response completes the promise under its number, if there is one. -/
def complete (w : W) (id : ℕ) (o : Outcome R) : Agents W C D R :=
  { s.setPending w id none with
    settings := match s.pending w id with
      | some c => Function.update s.settings c (s.settings c ++ [o])
      | none => s.settings }

/-- `shutdown` under the lock of the table: every promise in it is completed. -/
def abort (w : W) (waiting : C → Prop) [DecidablePred waiting] : Agents W C D R :=
  { s with
    pending := Function.update s.pending w fun _ => none
    settings := fun c => if waiting c then s.settings c ++ [.agentShutdown] else s.settings c }

end Agents



variable {W C D R : Type} [DecidableEq W] [DecidableEq C] (calls : Calls W C D)

/-- The request of a call. -/
def Calls.request (c : C) (id : ℕ) : Request W D := ⟨calls.owner c, calls.dst c, id, calls.body c⟩

inductive Step (s : Agents W C D R) : Agents W C D R → Prop
  /-- `send` throws when the agent is not running. -/
  | refuse (c : C) (hc : s.stage c = .idle) (hr : s.running (calls.owner c) = false) :
      Step s (s.goto c .threw)
  | check (c : C) (hc : s.stage c = .idle) (hr : s.running (calls.owner c) = true) :
      Step s (s.goto c .checked)
  | number (c : C) (hc : s.stage c = .checked) :
      Step s { s.goto c .numbered with
        requestId := Function.update s.requestId c (some (s.nextRequestId (calls.owner c)))
        nextRequestId := Function.update s.nextRequestId (calls.owner c)
          (s.nextRequestId (calls.owner c) + 1) }
  | register (c : C) (id : ℕ) (hc : s.stage c = .numbered) (hid : s.requestId c = some id) :
      Step s ((s.goto c .registered).setPending (calls.owner c) id (some c))
  | transmit (c : C) (id : ℕ) (hc : s.stage c = .registered) (hid : s.requestId c = some id)
      (hd : calls.dst c ≠ calls.owner c) :
      Step s { s.goto c .waiting with
        inFlight := .request (calls.request c id) :: s.inFlight }
  | fail (c : C) (hc : s.stage c = .registered) (hd : calls.dst c ≠ calls.owner c) :
      Step s (s.goto c .failed)
  | dispatch (c : C) (hc : s.stage c = .registered) (hd : calls.dst c = calls.owner c) :
      Step s (s.goto c .executing)
  /-- There is no handler for the request. -/
  | ignore (c : C) (hc : s.stage c = .executing) : Step s (s.goto c .waiting)
  | handle (c : C) (id : ℕ) (r : R) (hc : s.stage c = .executing) (hid : s.requestId c = some id) :
      Step s { s.goto c (.responding r) with
        produced := (calls.request c id, r) :: s.produced }
  | deliver (c : C) (id : ℕ) (r : R) (hc : s.stage c = .responding r)
      (hid : s.requestId c = some id) :
      Step s ((s.goto c .waiting).complete (calls.owner c) id (.response r))
  | receiveRequest (q : Request W D) (before after : List (Frame W D R))
      (hf : s.inFlight = before ++ .request q :: after) :
      Step s { s with inFlight := before ++ after, executions := q :: s.executions }
  | respond (q : Request W D) (r : R) (before after : List (Request W D))
      (he : s.executions = before ++ q :: after) :
      Step s { s with
        executions := before ++ after
        produced := (q, r) :: s.produced
        inFlight := .response q.src q.requestId r :: s.inFlight }
  /-- There is no handler for the request, or its response cannot be sent. -/
  | giveUp (q : Request W D) (before after : List (Request W D))
      (he : s.executions = before ++ q :: after) :
      Step s { s with executions := before ++ after }
  | receiveResponse (w : W) (id : ℕ) (r : R) (before after : List (Frame W D R))
      (hf : s.inFlight = before ++ .response w id r :: after) :
      Step s ({ s with inFlight := before ++ after }.complete w id (.response r))
  | timeout (c : C) (hc : s.stage c = .waiting) (hs : s.settings c = []) :
      Step s (s.goto c .timedOut)
  /-- The entry of a call that is going to throw is erased. -/
  | erase (c : C) (id : ℕ) (hc : s.stage c = .timedOut ∨ s.stage c = .failed)
      (hid : s.requestId c = some id) :
      Step s ((s.goto c .threw).setPending (calls.owner c) id none)
  | finish (c : C) (o : Outcome R) (hc : s.stage c = .waiting) (ho : o ∈ s.settings c) :
      Step s (s.goto c (.returned o))
  | stop (w : W) : Step s { s with running := Function.update s.running w false }
  | abort (w : W) (waiting : C → Prop) [DecidablePred waiting] (hr : s.running w = false)
      (hw : ∀ c, waiting c ↔ ∃ id, s.pending w id = some c) :
      Step s (s.abort w waiting)

abbrev Reaches : Agents W C D R → Agents W C D R → Prop := Relation.ReflTransGen (Step calls)

end Tenzor.Rpc
