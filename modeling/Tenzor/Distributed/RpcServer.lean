import Tenzor.Distributed.RpcReceive

/-!
# Serving requests

An agent that listens beyond its own host serves only requests that carry its token. Whatever
else arrives between them changes neither what it stores nor what it runs and answers. What it
stores is deleted only for its owner.

## Implementation notes

A registered function returns tensors or throws; what is no `std::exception` has no text.
The handlers are those of `init`. Where a response goes is left out: it is sent back, or it
completes a promise of the agent itself. The host is little-endian.
-/

namespace Tenzor.Rpc

open Wire

variable {T : Type}

namespace MessageType

def rpcCall : UInt8 := 0
def rpcResponse : UInt8 := 1
def rpcError : UInt8 := 2
def rrefFetch : UInt8 := 3
def rrefDelete : UInt8 := 4
def heartbeatAck : UInt8 := 6

end MessageType

/-- Tensors with their owners. -/
abbrev RRefStore (T : Type) := Int64 → Option (T × Int32)

def RRefStore.fetch (store : RRefStore T) (id : Int64) (requester : Int32) : Except String T :=
  match store id with
  | none => .error s!"RRef not found: {id}"
  | some (t, owner) =>
    if owner = requester then .ok t
    else .error s!"RRef access denied: worker {requester} is not the owner of rref {id}"

def RRefStore.remove (store : RRefStore T) (id : Int64) (requester : Int32) :
    Except String (RRefStore T) :=
  match store id with
  | none => .ok store
  | some (_, owner) =>
    if owner = requester then .ok (Function.update store id none)
    else .error s!"RRef delete denied: worker {requester} is not the owner of rref {id}"

/-- What requests do not change. `ctEq` compares digests of the tokens where there is OpenSSL. -/
structure Agent (T : Type) where
  self : Int32
  loopbackOnly : Bool
  authToken : List UInt8
  ctEq : List UInt8 → List UInt8 → Bool
  getFunction : List UInt8 → Option (List T → Except (Option String) (List T))

/-- `called` are the functions that have been run. -/
structure Served (T : Type) where
  store : RRefStore T
  called : List (List UInt8)

namespace Agent

variable (a : Agent T) (s : Served T) (m : Message T)

def authorize : Bool :=
  a.loopbackOnly || a.authToken ≠ [] && a.ctEq m.authToken a.authToken

def respond (type : UInt8) : Message T :=
  ⟨type, a.self, m.srcWorker, m.requestId, [], [], [], []⟩

def refuse (what : String) (name : List UInt8) : Message T :=
  { a.respond m MessageType.rpcError with functionName := what.toUTF8.toList ++ name }

/-- Every handler but that of heartbeats begins with this check. -/
def ifAuthorized (name : String) (served : Served T × Message T) : Served T × Message T :=
  if a.authorize m then served
  else (s, a.refuse m (name ++ ": authentication required") [])

def handleRpcCall : Served T × Message T :=
  a.ifAuthorized s m "RPC_CALL" <| match a.getFunction m.functionName with
    | none => (s, a.refuse m "Function not found: " m.functionName)
    | some fn =>
      ({ s with called := s.called ++ [m.functionName] }, match fn m.tensors with
        | .ok tensors => { a.respond m MessageType.rpcResponse with tensors := tensors }
        | .error (some what) => a.refuse m what []
        | .error none => a.refuse m "RPC function threw a non-standard exception" [])

def rrefId : Int64 := Pod.ofNat (ofLeBytes m.bytes)

def handleRRefFetch : Served T × Message T :=
  a.ifAuthorized s m "RREF_FETCH" <|
    if m.bytes.length ≠ 8 then (s, a.refuse m "RREF_FETCH: malformed rref id" [])
    else match s.store.fetch (rrefId m) m.srcWorker with
      | .ok t => (s, { a.respond m MessageType.rpcResponse with tensors := [t] })
      | .error what => (s, a.refuse m what [])

def handleRRefDelete : Served T × Message T :=
  a.ifAuthorized s m "RREF_DELETE" <|
    if m.bytes.length ≠ 8 then (s, a.respond m MessageType.rpcResponse)
    else match s.store.remove (rrefId m) m.srcWorker with
      | .ok store => ({ s with store := store }, a.respond m MessageType.rpcResponse)
      | .error what => (s, a.refuse m what [])

/-- `dispatch_message` for anything but a response; the promise that a response completes is not
part of the state. -/
def dispatchMessage : Served T × Option (Message T) :=
  if m.type ∈ [MessageType.rpcResponse, MessageType.rpcError, MessageType.heartbeatAck] ∨
      m.dstWorker ≠ a.self then (s, none)
  else if m.type = MessageType.rpcCall then (a.handleRpcCall s m).map id some
  else if m.type = MessageType.heartbeat then (s, some (a.respond m MessageType.heartbeatAck))
  else if m.type = MessageType.rrefFetch then (a.handleRRefFetch s m).map id some
  else if m.type = MessageType.rrefDelete then (a.handleRRefDelete s m).map id some
  else (s, none)

/-- The messages one after another, and the responses. -/
def dispatchAll (s : Served T) : List (Message T) → Served T × List (Message T)
  | [] => (s, [])
  | m :: ms =>
    let (s, response) := a.dispatchMessage s m
    (dispatchAll s ms).map id (response.toList ++ ·)

/-- What a run leaves and the results that it sends. -/
def results (run : Served T × List (Message T)) : Served T × List (Message T) :=
  run.map id fun ms => ms.filter fun m => m.type = MessageType.rpcResponse

/-- A request of its owner to delete what is stored under an id. -/
structure Deletes (id : Int64) : Prop where
  type_eq : m.type = MessageType.rrefDelete
  authorized : a.authorize m
  rrefId_eq : rrefId m = id
  owned : ∃ t, s.store id = some (t, m.srcWorker)

variable {a s m}

theorem dispatchMessage_unauthorized (h : a.authorize m = false) :
    (a.dispatchMessage s m).1 = s ∧
      ∀ r ∈ (a.dispatchMessage s m).2, r.type ≠ MessageType.rpcResponse := by
  unfold dispatchMessage handleRpcCall handleRRefFetch handleRRefDelete
  simp only [ifAuthorized, h, Bool.false_eq_true, if_false]
  split_ifs <;> simp [refuse, respond, MessageType.rpcError, MessageType.rpcResponse,
    MessageType.heartbeatAck]

theorem results_dispatchAll_cons (ms : List (Message T)) :
    results (a.dispatchAll s (m :: ms)) =
      (results (a.dispatchAll (a.dispatchMessage s m).1 ms)).map id
        ((a.dispatchMessage s m).2.toList.filter (·.type = MessageType.rpcResponse) ++ ·) := by
  simp [results, dispatchAll, Prod.map]

/-- Messages without the token of an agent that listens beyond its own host, wherever they
arrive among others, change neither its state nor the results that it sends. -/
theorem dispatchAll_authenticated (hpublic : a.loopbackOnly = false)
    (hct : ∀ token, a.ctEq token a.authToken → token = a.authToken) (ms : List (Message T)) :
    results (a.dispatchAll s ms) =
      results (a.dispatchAll s (ms.filter fun m => m.authToken = a.authToken)) := by
  induction ms generalizing s with
  | nil => rfl
  | cons m ms ih =>
    by_cases hm : m.authToken = a.authToken
    · rw [List.filter_cons_of_pos (by simpa using hm), results_dispatchAll_cons,
        results_dispatchAll_cons, ih]
    · have hrefused : a.authorize m = false := by
        have hne : a.ctEq m.authToken a.authToken = false :=
          Bool.eq_false_iff.mpr fun h => hm (hct _ h)
        simp [authorize, hpublic, hne]
      obtain ⟨hstate, hnone⟩ := dispatchMessage_unauthorized (s := s) hrefused
      rw [List.filter_cons_of_neg (by simpa using hm), results_dispatchAll_cons, hstate, ih,
        List.filter_eq_nil_iff.mpr (by simpa using hnone)]
      rfl

/-- A call without the token before one that carries it. -/
theorem dispatchAll_authenticated_stranger :
    let a : Agent Unit := ⟨1, false, [7], fun x y => x = y, fun _ => none⟩
    let s : Served Unit := ⟨fun _ => none, []⟩
    let call : List UInt8 → Message Unit := fun token =>
      ⟨MessageType.rpcCall, 0, 1, 3, [102], [], token, []⟩
    results (a.dispatchAll s [call [], call [7]]) = results (a.dispatchAll s [call [7]]) := by
  intro a s call
  exact dispatchAll_authenticated rfl (fun token h => of_decide_eq_true h) [call [], call [7]]

theorem remove_store {store : RRefStore T} {id' : Int64} {requester : Int32}
    (h : s.store.remove id' requester = .ok store) (id : Int64) :
    store id = s.store id ∨
      store id = none ∧ id' = id ∧ ∃ t, s.store id = some (t, requester) := by
  unfold RRefStore.remove at h
  split at h
  · exact .inl (Except.ok.inj h ▸ rfl)
  · next t owner hstored =>
      split_ifs at h with howner
      obtain rfl := Except.ok.inj h
      by_cases hid : id = id'
      · subst hid
        exact .inr ⟨Function.update_self .., rfl, t, howner ▸ hstored⟩
      · exact .inl (Function.update_of_ne hid ..)

theorem dispatchMessage_store (id : Int64) :
    (a.dispatchMessage s m).1.store id = s.store id ∨
      (a.dispatchMessage s m).1.store id = none ∧ a.Deletes s m id := by
  unfold dispatchMessage
  split_ifs with h₁ hcall hbeat hfetch hdelete
  · exact .inl rfl
  · refine .inl ?_
    simp only [handleRpcCall, ifAuthorized]
    split_ifs
    · split <;> rfl
    · rfl
  · exact .inl rfl
  · refine .inl ?_
    simp only [handleRRefFetch, ifAuthorized]
    split_ifs
    · rfl
    · split <;> rfl
    · rfl
  · simp only [handleRRefDelete, ifAuthorized]
    split_ifs with hauth hlen
    · exact .inl rfl
    · split
      · next store hremove =>
          obtain hsame | ⟨hnone, hid, howned⟩ := remove_store hremove id
          · exact .inl hsame
          · exact .inr ⟨hnone, hdelete, hauth, hid, howned⟩
      · exact .inl rfl
    · exact .inl rfl
  · exact .inl rfl

/-- What is stored stays as it is until its owner asks for it to be deleted. -/
theorem dispatchAll_store (ms : List (Message T)) (id : Int64) :
    (a.dispatchAll s ms).1.store id = s.store id ∨
      (a.dispatchAll s ms).1.store id = none ∧ ∃ m ∈ ms, a.Deletes s m id := by
  induction ms generalizing s with
  | nil => exact .inl rfl
  | cons m ms ih =>
    change (a.dispatchAll (a.dispatchMessage s m).1 ms).1.store id = _ ∨
      (a.dispatchAll (a.dispatchMessage s m).1 ms).1.store id = none ∧ _
    obtain hsame | ⟨hnone, hdeletes⟩ := dispatchMessage_store id (a := a) (s := s) (m := m)
    · obtain hlater | ⟨hgone, m', hm', hdeletes⟩ := ih (s := (a.dispatchMessage s m).1)
      · exact .inl (hlater.trans hsame)
      · exact .inr ⟨hgone, m', List.mem_cons_of_mem m hm',
          { hdeletes with owned := hsame ▸ hdeletes.owned }⟩
    · refine .inr ⟨?_, m, List.mem_cons_self, hdeletes⟩
      obtain hlater | ⟨hgone, -⟩ := ih (s := (a.dispatchMessage s m).1)
      · exact hlater.trans hnone
      · exact hgone

end Agent

end Tenzor.Rpc
