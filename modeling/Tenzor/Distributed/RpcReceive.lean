import Tenzor.Distributed.RpcFrames
import Tenzor.Lib.FramedStream

/-!
# A connection of the RPC agent

Any thread may send on a connection; it holds the lock of the connection for a whole frame. The
agent at the other end learns who is sending from the first message, and its receive loop
dispatches the others.

## Implementation notes

`rounds` is how often the receive loop finds `running_` set. A read that times out or meets the
end of the connection finds the bytes that have come so far.
-/

namespace Tenzor.Rpc

open Wire FramedStream List

variable {T W : Type} {payload tail : List UInt8}

def MessageType.heartbeat : UInt8 := 5

/-- Handshake only; it is not dispatched. -/
def Message.isHandshake (m : Message T) : Bool :=
  m.requestId < 0 && m.type = MessageType.heartbeat

/-- What `receive_loop` dispatches. -/
def receiveLoop : ℕ → List UInt8 → List (Message LoadedTensor)
  | 0, _ => []
  | rounds + 1, stream => match deserializeMessage stream with
    | .error _ => []
    | .ok (m, rest) =>
      if m.isHandshake then receiveLoop rounds rest else m :: receiveLoop rounds rest

def maxInboundConnections : ℕ := 1024

/-- A peer gives no id, or it is new and as many others as may be are connected. -/
def refused (inbound : List Int32) (hello : Message LoadedTensor) : Prop :=
  hello.srcWorker < 0 ∨ hello.srcWorker ∉ inbound ∧ maxInboundConnections ≤ inbound.length

instance (inbound : List Int32) (hello : Message LoadedTensor) : Decidable (refused inbound hello) :=
  inferInstanceAs (Decidable (_ ∨ _))

/-- One round of `accept_loop`: the id of the peer, and what its receive loop dispatches. -/
def serve (inbound : List Int32) (rounds : ℕ) (stream : List UInt8) :
    Option (Int32 × List (Message LoadedTensor)) :=
  match deserializeMessage stream with
  | .error _ => none
  | .ok (hello, rest) =>
    if refused inbound hello then none else some (hello.srcWorker, receiveLoop rounds rest)

theorem receiveLoop_eq (rounds : ℕ) (stream : List UInt8) :
    receiveLoop rounds stream =
      (drain deserializeMessage rounds stream).filter fun m => !m.isHandshake := by
  induction rounds generalizing stream with
  | zero => rfl
  | succ rounds ih =>
    rw [receiveLoop, drain]
    cases deserializeMessage stream with
    | error _ => rfl
    | ok r => cases h : r.1.isHandshake <;> simp [h, ih]

theorem readPayload_cut (hlen : payload.length ≤ maxPayloadBytes) (htail : tail <+: frame payload)
    (hne : tail ≠ frame payload) : readPayload tail = .error .rejected := by
  have hshort : tail.length < (frame payload).length :=
    lt_of_le_of_ne htail.length_le fun heq => hne (htail.eq_of_length heq)
  rw [frame, length_append, length_appendBE] at hshort
  by_cases hheader : tail.length < Pod.width UInt32
  · simp only [readPayload, readBE, readBytes, bind, if_pos hheader, Except.bind]
  · obtain ⟨body, rfl⟩ : appendBE (UInt32.ofNat payload.length) <+: tail :=
      prefix_of_prefix_length_le (prefix_append _ _) htail
        (by rw [length_appendBE]; exact Nat.not_lt.mp hheader)
    have hn : (UInt32.ofNat payload.length).toNat = payload.length :=
      UInt32.toNat_ofNat_of_lt' (lt_of_le_of_lt hlen (by decide))
    have hbody : readPayload (appendBE (UInt32.ofNat payload.length) ++ body) =
        readBody payload.length body := by
      simp only [readPayload, bind, reads_be Cursor.Fault.rejected (UInt32.ofNat payload.length) body,
        Except.bind, hn, failIf, if_neg (Nat.not_lt.mpr hlen)]
    rw [hbody]
    refine (splits_body payload.length body).resolve_right ?_
    rintro ⟨bytes, -, rest, -, rfl, -, hbytes⟩
    simp only [length_append, length_appendBE, hbytes] at hshort
    omega

theorem deserializeMessage_cut (hlen : payload.length ≤ maxPayloadBytes)
    (htail : tail <+: frame payload) (hne : tail ≠ frame payload) :
    deserializeMessage tail = .error .rejected := by
  rw [deserializeMessage, readPayload_cut hlen htail hne]
  rfl

/-- A message of a size and with tensors that can be received, as it is when it is sent. -/
structure Sending where
  mem : Bytes
  message : Message TensorImpl
  payload : List UInt8
  serialized : serializeMessage mem message = .ok payload
  valid : ∀ t ∈ message.tensors, t.WellFormed ∧ t.InBounds
  rank_le : ∀ t ∈ message.tensors, t.shape.length ≤ 4096
  fits : payload.length ≤ maxPayloadBytes

def Sending.bytes (x : Sending) : List UInt8 := frame x.payload

theorem Sending.reads (x : Sending) :
    ∃ m, Reads deserializeMessage x.bytes m ∧ SameMessage x.mem x.message m := by
  obtain ⟨m, hparses, hsame⟩ := parses_message x.valid x.rank_le x.serialized x.fits
  exact ⟨m, reads_message x.fits hparses, hsame⟩

/-- Wherever a connection is cut off, the messages whose frames have arrived whole are received
in the order in which their senders had the lock. The first of them is only the handshake. -/
theorem connection_delivers {s : Connection Sending W} (h : FramedStream.Reaches Sending.bytes {} s)
    {received : List UInt8} (hreceived : received <+: s.written) :
    ∃ whole pending tail ms, s.begun = whole ++ pending ∧
      received = whole.flatMap Sending.bytes ++ tail ∧ Cut Sending.bytes pending tail ∧
      Forall₂ (fun x m => SameMessage x.mem x.message m) whole ms ∧
      (∀ rounds, receiveLoop rounds received =
        (ms.take rounds).filter fun m => !m.isHandshake) ∧
      ∀ inbound rounds, serve inbound rounds received = ms.head?.bind fun hello =>
        if refused inbound hello then none
        else some (hello.srcWorker, (ms.tail.take rounds).filter fun m => !m.isHandshake) := by
  obtain ⟨whole, pending, tail, hbegun, rfl, hcut⟩ :=
    exists_whole (hreceived.trans (written_isPrefix h))
  have htail : deserializeMessage tail = .error .rejected := by
    cases pending with
    | nil =>
      obtain rfl : tail = [] := hcut
      have hfits : ([] : List UInt8).length ≤ maxPayloadBytes := by simp
      exact deserializeMessage_cut hfits nil_prefix (by decide)
    | cons x _ => exact deserializeMessage_cut x.fits hcut.1 hcut.2
  have hreads : Forall₂ (fun x m => Reads deserializeMessage (Sending.bytes x) m) whole
      (whole.map fun x => x.reads.choose) :=
    forall₂_map_right_iff.mpr (forall₂_same.mpr fun x _ => x.reads.choose_spec.1)
  refine ⟨whole, pending, tail, _, hbegun, rfl, hcut, forall₂_map_right_iff.mpr
    (forall₂_same.mpr fun x _ => x.reads.choose_spec.2), fun rounds => ?_, fun inbound rounds => ?_⟩
  · rw [receiveLoop_eq, drain_whole hreads htail]
  · rw [serve]
    cases hreads with
    | nil => simp [htail]
    | cons hx hlater =>
      simp [append_assoc, hx _, receiveLoop_eq, drain_whole hlater htail]

/-- What `get_or_connect` of worker 0 sends to worker 1. -/
def hello : Sending where
  mem _ _ := 0
  message := ⟨MessageType.heartbeat, 0, 1, -1, [], [], [], []⟩
  payload := _
  serialized := rfl
  valid := by simp
  rank_le := by simp
  fits := by simp [maxPayloadBytes, appendString, Pod.width]

/-- A handshake that is written in two pieces. -/
theorem connection_delivers_hello : ∃ ms : List (Message LoadedTensor), ∀ rounds,
    receiveLoop rounds hello.bytes = (ms.take rounds).filter fun m => !m.isHandshake := by
  have h : FramedStream.Reaches Sending.bytes {} ⟨[] ++ hello.bytes.take 3 ++ hello.bytes.drop 3,
      some (0, []), [hello]⟩ :=
    .tail (.tail (.single (.lock 0 hello rfl))
      (.write 0 _ (hello.bytes.drop 3) (by simp))) (.write 0 _ [] (by simp))
  have hreceived : hello.bytes <+: [] ++ hello.bytes.take 3 ++ hello.bytes.drop 3 := by simp
  obtain ⟨_, _, _, ms, -, -, -, -, hloop, -⟩ := connection_delivers h hreceived
  exact ⟨ms, hloop⟩

end Tenzor.Rpc
