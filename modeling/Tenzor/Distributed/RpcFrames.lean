import Tenzor.Distributed.Rpc

/-!
# Receiving a frame

A message whose payload fits a frame is received as it was sent, as long as no tensor has a
rank that the receiver calls implausible. Whatever the bytes are, the receiver stays inside
the payload.
-/

namespace Tenzor.Rpc

variable {payload : List UInt8} {shape : List Int} {mem : Bytes} {ts : List TensorImpl}
  {tensors : List (List UInt8)}

open Throwing Wrap64 Strided Tenzor.Lite
open UInt32 (ofNat size toNat_ofNat_of_lt')
open Wire hiding bind_eq_ok
open Cursor hiding bind_eq_ok
open List

/-- A received message has the fields of the one that was sent, and tensors with the elements of
those that were sent. -/
structure SameMessage (mem : Bytes) (m : Message TensorImpl) (m' : Message LoadedTensor) :
    Prop where
  type : m'.type = m.type
  srcWorker : m'.srcWorker = m.srcWorker
  dstWorker : m'.dstWorker = m.dstWorker
  requestId : m'.requestId = m.requestId
  functionName : m'.functionName = m.functionName
  bytes : m'.bytes = m.bytes
  authToken : m'.authToken = m.authToken
  tensors : List.Forall₂ (SameTensor mem) m.tensors m'.tensors
  fresh : ∀ l ∈ m'.tensors, l.impl.Fresh

/-- The data of a received tensor is its elements, taken from the payload. -/
structure FromPayload (payload : List UInt8) (l : LoadedTensor) : Prop where
  rank_le : l.impl.shape.length ≤ 4096
  length_data : l.data.length = l.impl.shape.prod.toNat * dtypeSize l.impl.dtype
  sizeBytes : l.impl.storage.sizeBytes = l.data.length
  infix_payload : l.data <:+: payload

theorem reads_body (body : List UInt8) : Reads (readBody body.length) body body := by
  induction hlen : body.length using Nat.strong_induction_on generalizing body with
  | _ n ih =>
    subst hlen
    rw [readBody]
    split
    next hzero =>
      rw [length_eq_zero_iff.mp hzero]
      exact Reads.pure []
    next hne =>
      obtain ⟨chunk, rest, rfl, hchunk⟩ : ∃ chunk rest, body = chunk ++ rest ∧
          chunk.length = min body.length chunkBytes :=
        ⟨body.take (min body.length chunkBytes), body.drop (min body.length chunkBytes),
          (take_append_drop _ _).symm, by rw [length_take]; omega⟩
      have hpos : 0 < chunk.length :=
        hchunk ▸ lt_min (Nat.pos_of_ne_zero hne) (by decide : 0 < chunkBytes)
      have hleft : (chunk ++ rest).length - chunk.length = rest.length := by
        rw [length_append, Nat.add_sub_cancel_left]
      have hrest := ih rest.length (by omega) rest rfl
      rw [← hchunk, hleft]
      exact (reads_bytes Fault.rejected chunk).bind (hrest.map (chunk ++ ·))

theorem splits_body (remaining : ℕ) :
    Splits .rejected (readBody remaining) fun bytes body =>
      body = bytes ∧ bytes.length = remaining := by
  induction remaining using readBody.induct with
  | case1 =>
    rw [readBody]
    exact Splits.pure ⟨rfl, rfl⟩
  | case2 remaining hne ih =>
    rw [readBody, if_neg hne]
    refine (splits_bytes _ _).bind fun bytes chunk hchunk => ih.bind fun bytes' rest hrest => ?_
    obtain ⟨rfl, hlen⟩ := hchunk
    obtain ⟨rfl, hlen'⟩ := hrest
    refine Splits.pure ?_
    rw [append_nil, length_append]
    exact ⟨rfl, by omega⟩

theorem reads_payload (h : payload.length ≤ maxPayloadBytes) :
    Reads readPayload (frame payload) payload := by
  have hlen : (ofNat payload.length).toNat = payload.length :=
    toNat_ofNat_of_lt' (lt_of_le_of_lt h (by decide))
  apply (reads_be Fault.rejected (ofNat payload.length)).bind
  rw [hlen]
  exact Reads.failIf (Nat.not_lt.mpr h) (reads_body payload)

theorem splits_payload : Splits .rejected readPayload fun bytes payload =>
    payload <:+ bytes ∧ payload.length ≤ maxPayloadBytes := by
  refine (splits_be _ UInt32).bind fun header len _ => Splits.failIf fun hle => ?_
  intro s
  rcases splits_body len.toNat s with hr | ⟨bytes, a, rest, hr, hs, rfl, hlen⟩
  · exact .inl hr
  · exact .inr ⟨a, a, rest, hr, hs, suffix_append header a, by omega⟩

theorem parses_word {α : Type} [Pod α] (a : α) : Parses (takeWord α) (appendBE a) a := by
  have hbytes := Parses.checkEnd_copy (appendBE a)
  rw [length_appendBE] at hbytes
  have h : Parses (takeWord α) _ _ := hbytes.map fun bytes =>
    (Pod.ofNat (ofLeBytes bytes.reverse) : α)
  rwa [appendBE, reverse_reverse, ofNat_appendPod] at h

theorem parses_string {s : List UInt8} (h : s.length < 4294967296) :
    Parses takeString (appendString s) s := by
  have hlen : (ofNat s.length).toNat = s.length := toNat_ofNat_of_lt' h
  apply (parses_word (ofNat s.length)).bind
  rw [hlen]
  exact Parses.checkLeft le_rfl (Parses.copy s)

theorem parses_dims (hnn : ∀ d ∈ shape, 0 ≤ d) (hmax : ∀ d ∈ shape, d ≤ int64Max) :
    Parses (parseMany (takeWord Int64) shape.length)
      (shape.flatMap fun d => appendBE (Int64.ofInt d)) (shape.map Int64.ofInt) ∧
      (shape.map Int64.ofInt).map Int64.toInt = shape := by
  refine ⟨Parses.many fun d _ => parses_word (Int64.ofInt d), ?_⟩
  rw [map_map]
  refine (map_congr_left fun d hd => ?_).trans (map_id shape)
  have hlo := hnn d hd
  have hhi := hmax d hd
  simp only [int64Max] at hhi
  exact Int64.toInt_ofInt_of_le (by omega) (by omega)

theorem parses_numel {n m : Int} (hn : 0 ≤ n) (hnn : ∀ d ∈ shape, 0 ≤ d)
    (h : shape.foldlM numelStep n = .ok m) : Parses (checkedNumel n shape) [] m := by
  induction shape generalizing n with
  | nil =>
    obtain rfl : n = m := pure_eq_ok.mp h
    exact Parses.pure n
  | cons d shape ih =>
    obtain ⟨x, hx, hrest⟩ := foldlM_cons_eq_ok.mp h
    obtain ⟨rfl, hle⟩ := numelStep_eq_ok hx
    have hd := hnn d mem_cons_self
    have hprod : 0 ≤ n * d := mul_nonneg hn hd
    refine Parses.rejectIf (Int.not_lt.mpr hd) (Parses.rejectIf (not_not.mpr ?_) ?_)
    · exact ⟨le_trans (by decide) hprod, hle⟩
    · exact ih hprod (fun e he => hnn e (mem_cons_of_mem _ he)) hrest

theorem parses_tensor {t : TensorImpl} {bytes : List UInt8} (hwf : t.WellFormed) (hb : t.InBounds)
    (hrank : t.shape.length ≤ 4096) (h : appendTensor mem t = .ok bytes) :
    ∃ l, Parses takeTensor bytes l ∧ SameTensor mem t l ∧ l.impl.Fresh := by
  simp only [appendTensor, bind_eq_ok, pure_eq_ok] at h
  obtain ⟨⟨cpu, source⟩, hcpu, n, hn, -, -, rfl⟩ := h
  obtain ⟨hdtype, hshape, hstrides, hfits, hsource⟩ := TensorImpl.contiguous_ok hwf hb hcpu
  rw [hshape] at hn
  obtain rfl := numel_eq_prod hn
  obtain ⟨u, halloc⟩ := TensorImpl.allocate_of_fits 0 hwf.nonneg hstrides hn hfits
  refine ⟨_, ?_, sameTensor_of_allocate halloc hsource, TensorImpl.allocate_fresh halloc⟩
  have hlen : (tensorData mem t t.shape.prod source).length =
      t.shape.prod.toNat * dtypeSize t.dtype := length_tensorData ..
  have hbytes : (tensorData mem t t.shape.prod source).length < 9223372036854775808 := by
    have hcast : ((t.shape.prod.toNat * dtypeSize t.dtype : ℕ) : Int) ≤ int64Max := by
      push_cast
      rwa [Int.toNat_of_nonneg (Strided.prod_nonneg hwf.nonneg)]
    simp only [int64Max] at hcast
    omega
  have hnbytes : (UInt64.ofNat (tensorData mem t t.shape.prod source).length).toNat =
      (tensorData mem t t.shape.prod source).length := UInt64.toNat_ofNat_of_lt' (by
    simp only [UInt64.size]
    omega)
  have hndim : (ofNat t.shape.length).toNat = t.shape.length :=
    toNat_ofNat_of_lt' (by simp only [size]; omega)
  obtain ⟨hdims, hwords⟩ := parses_dims hwf.nonneg hwf.size_le
  have hcode : dtypes[(dtypeCode t.dtype).toUInt32.toUInt8.toNat]? = some t.dtype := by
    cases t.dtype <;> decide
  rw [hdtype, hshape, ← hlen, hnbytes, take_length]
  apply (parses_word (dtypeCode t.dtype).toUInt32).bind
  apply (parses_word (ofNat t.shape.length)).bind
  rw [hndim]
  refine Parses.rejectIf (Nat.not_lt.mpr hrank) ?_
  apply hdims.bind
  rw [hwords]
  refine (parses_numel zero_le_one hwf.nonneg hn).bind_nil ?_
  apply (parses_word (UInt64.ofNat (tensorData mem t t.shape.prod source).length)).bind
  rw [hnbytes]
  refine Parses.checkLeft le_rfl (Parses.orReject hcode ?_)
  refine Parses.rejectIf (by rw [words]; omega) (Parses.rejectIf (not_not.mpr hlen) ?_)
  refine Parses.orReject (a := u) (by rw [halloc]; rfl) ?_
  exact (Parses.copy _).map fun data => (⟨u, data⟩ : LoadedTensor)

theorem parses_tensors (hvalid : ∀ t ∈ ts, t.WellFormed ∧ t.InBounds)
    (hrank : ∀ t ∈ ts, t.shape.length ≤ 4096) (h : ts.mapM (appendTensor mem) = .ok tensors) :
    ∃ ls, Parses (parseMany takeTensor ts.length) tensors.flatten ls ∧
      List.Forall₂ (SameTensor mem) ts ls ∧ ∀ l ∈ ls, l.impl.Fresh := by
  induction ts generalizing tensors with
  | nil =>
    obtain rfl : [] = tensors := pure_eq_ok.mp h
    exact ⟨[], Parses.pure [], .nil, forall_mem_nil _⟩
  | cons t ts ih =>
    rw [mapM_cons] at h
    simp only [Throwing.bind_eq_ok, pure_eq_ok] at h
    obtain ⟨bytes, hbytes, rest, hrest, rfl⟩ := h
    obtain ⟨hwf, hb⟩ := hvalid t mem_cons_self
    obtain ⟨l, hl, hsame, hfresh⟩ := parses_tensor hwf hb (hrank t mem_cons_self) hbytes
    obtain ⟨ls, hls, hall, hrest⟩ := ih (fun t ht => hvalid t (mem_cons_of_mem _ ht))
      (fun t ht => hrank t (mem_cons_of_mem _ ht)) hrest
    exact ⟨l :: ls, hl.bind (hls.map (l :: ·)), .cons hsame hall,
      forall_mem_cons.mpr ⟨hfresh, hrest⟩⟩

/-- Every tensor takes bytes. -/
theorem length_le_length_flatten (h : ts.mapM (appendTensor mem) = .ok tensors) :
    ts.length ≤ tensors.flatten.length := by
  induction ts generalizing tensors with
  | nil => exact Nat.zero_le _
  | cons t ts ih =>
    rw [mapM_cons] at h
    simp only [appendTensor, Throwing.bind_eq_ok, pure_eq_ok] at h
    obtain ⟨bytes, ⟨-, -, n, -, -, -, rfl⟩, rest, hrest, rfl⟩ := h
    have hle := ih hrest
    simp only [length_cons, flatten_cons, length_append, length_appendBE, Pod.width]
    omega

theorem parses_message {m : Message TensorImpl}
    (hvalid : ∀ t ∈ m.tensors, t.WellFormed ∧ t.InBounds)
    (hrank : ∀ t ∈ m.tensors, t.shape.length ≤ 4096) (h : serializeMessage mem m = .ok payload)
    (hlen : payload.length ≤ maxPayloadBytes) :
    ∃ m', Parses parseMessage payload m' ∧ SameMessage mem m m' := by
  simp only [serializeMessage, Throwing.bind_eq_ok, pure_eq_ok] at h
  obtain ⟨tensors, htensors, rfl⟩ := h
  have hcount := length_le_length_flatten htensors
  simp only [appendString, length_append, length_appendBE, maxPayloadBytes] at hlen
  obtain ⟨ls, hls, hall, hfresh⟩ := parses_tensors hvalid hrank htensors
  refine ⟨⟨m.type, m.srcWorker, m.dstWorker, m.requestId, m.functionName, m.bytes, m.authToken, ls⟩,
    ?_, rfl, rfl, rfl, rfl, rfl, rfl, rfl, hall, hfresh⟩
  have hnt : (ofNat m.tensors.length).toNat = m.tensors.length :=
    toNat_ofNat_of_lt' (by simp only [size]; omega)
  apply (parses_word m.type).bind
  apply (parses_word m.srcWorker).bind
  apply (parses_word m.dstWorker).bind
  apply (parses_word m.requestId).bind
  apply (parses_string (s := m.functionName) (by omega)).bind
  apply (parses_string (s := m.bytes) (by omega)).bind
  apply (parses_string (s := m.authToken) (by omega)).bind
  apply (parses_word (ofNat m.tensors.length)).bind
  rw [hnt]
  exact hls.map fun ls => (⟨m.type, m.srcWorker, m.dstWorker, m.requestId, m.functionName, m.bytes,
    m.authToken, ls⟩ : Message LoadedTensor)

section Safe

variable {buf : List UInt8} (hbuf : buf.length < words / 2)

include hbuf

theorem safe_word {α : Type} [Pod α] (h : Pod.width α < words / 2) :
    Safe buf 0 (takeWord α) fun _ => True :=
  (Safe.checkEnd_copy hbuf h).bind fun _ _ => Safe.pure trivial

theorem safe_string : Safe buf 0 takeString fun _ => True := by
  refine (safe_word hbuf (by decide)).bind fun len _ => Safe.checkLeft hbuf ?_
  exact (Safe.copy len.toNat).mono fun _ _ => trivial

omit hbuf in
theorem safe_numel (n : Int) (shape : List Int) :
    Safe buf 0 (checkedNumel n shape) fun m => m = n * shape.prod := by
  induction shape generalizing n with
  | nil => exact Safe.pure (by rw [prod_nil, mul_one])
  | cons d shape ih =>
    refine Safe.rejectIf fun _ => Safe.rejectIf fun _ => (ih (n * d)).mono fun m hm => ?_
    rw [hm, prod_cons, mul_assoc]

theorem safe_tensor : Safe buf 0 takeTensor (FromPayload buf) := by
  refine (safe_word hbuf (by decide)).bind fun dtypeWord _ => ?_
  refine (safe_word hbuf (by decide)).bind fun ndim _ => Safe.rejectIf fun hrank => ?_
  refine ((safe_word hbuf (by decide)).parseMany ndim.toNat).bind fun dims hdims => ?_
  refine (safe_numel 1 (dims.map Int64.toInt)).bind fun n hn => ?_
  refine (safe_word hbuf (by decide)).bind fun nbytes _ => Safe.checkLeft hbuf ?_
  refine Safe.orReject fun dtype _ => Safe.rejectIf fun _ => Safe.rejectIf fun hsize => ?_
  refine Safe.orReject fun t ht => (Safe.copy nbytes.toNat).bind fun data hdata => Safe.pure ?_
  obtain ⟨hlen, hinfix⟩ := hdata
  have halloc : TensorImpl.allocate 0 (dims.map Int64.toInt) dtype = .ok t := by
    cases hr : TensorImpl.allocate 0 (dims.map Int64.toInt) dtype with
    | error e =>
      rw [hr] at ht
      cases ht
    | ok u =>
      rw [hr] at ht
      rw [Option.some.inj ht]
  obtain ⟨-, -, -, -, hshape, -, -, hdtype, -⟩ := TensorImpl.allocate_ok halloc
  rw [one_mul] at hn
  rw [not_not, hn] at hsize
  refine ⟨?_, ?_, ?_, hinfix⟩
  · rw [hshape, length_map, hdims.1]
    exact Nat.not_lt.mp hrank
  · rw [hlen, hsize, hshape, hdtype]
  · rw [TensorImpl.allocate_sizeBytes halloc, hlen, hsize]

theorem safe_message :
    Safe buf 0 parseMessage fun m => ∀ l ∈ m.tensors, FromPayload buf l := by
  refine (safe_word hbuf (by decide)).bind fun type _ => ?_
  refine (safe_word hbuf (by decide)).bind fun src _ => ?_
  refine (safe_word hbuf (by decide)).bind fun dst _ => ?_
  refine (safe_word hbuf (by decide)).bind fun rid _ => ?_
  refine (safe_string hbuf).bind fun functionName _ => ?_
  refine (safe_string hbuf).bind fun bytes _ => ?_
  refine (safe_string hbuf).bind fun authToken _ => ?_
  refine (safe_word hbuf (by decide)).bind fun nt _ => ?_
  exact ((safe_tensor hbuf).parseMany nt.toNat).bind fun ls hls => Safe.pure hls.2

end Safe

theorem reads_message {m : Message LoadedTensor} (hlen : payload.length ≤ maxPayloadBytes)
    (h : Parses parseMessage payload m) : Reads deserializeMessage (frame payload) m := by
  intro rest
  have hparse := h.run (lt_of_le_of_lt hlen (by decide))
  simp only [deserializeMessage, Throwing.bind_eq_ok]
  exact ⟨_, reads_payload hlen rest, _, hparse, rfl⟩

theorem splits_message : Splits .rejected deserializeMessage fun bytes m =>
    ∃ payload, payload <:+ bytes ∧ payload.length ≤ maxPayloadBytes ∧
      ∀ l ∈ m.tensors, FromPayload payload l := by
  intro stream
  unfold deserializeMessage
  rcases splits_payload stream with hr | ⟨bytes, payload, rest, hr, rfl, hsuffix, hlen⟩
  · refine .inl ?_
    rw [hr]
    rfl
  · have hsafe := safe_message (lt_of_le_of_lt hlen (by decide)) 0 (Nat.zero_le _)
    rw [hr]
    cases hp : parseMessage payload 0 with
    | error e =>
      rw [hp] at hsafe
      obtain rfl : e = .rejected := hsafe
      refine .inl ?_
      change (parseMessage payload 0 >>= _) = _
      rw [hp]
      rfl
    | ok r =>
      rw [hp] at hsafe
      refine .inr ⟨bytes, r.1, rest, ?_, rfl, payload, hsuffix, hlen, hsafe.2.2⟩
      change (parseMessage payload 0 >>= _) = _
      rw [hp]
      rfl

/-- A message is received as it was sent, and the receiver stays inside any payload. -/
theorem deserialize_sendFramed {mem : Bytes} {m : Message TensorImpl} {payload : List UInt8}
    (hvalid : ∀ t ∈ m.tensors, t.WellFormed ∧ t.InBounds)
    (hrank : ∀ t ∈ m.tensors, t.shape.length ≤ 4096) (hser : serializeMessage mem m = .ok payload)
    (hlen : payload.length ≤ maxPayloadBytes) :
    (∃ bytes m', sendFramed mem m = .ok bytes ∧ SameMessage mem m m' ∧
      ∀ rest, deserializeMessage (bytes ++ rest) = .ok (m', rest)) ∧
    ∀ stream, deserializeMessage stream = .error .rejected ∨
      ∃ bytes m' rest, deserializeMessage stream = .ok (m', rest) ∧ stream = bytes ++ rest ∧
        ∃ payload, payload <:+ bytes ∧ payload.length ≤ maxPayloadBytes ∧
          ∀ l ∈ m'.tensors, FromPayload payload l := by
  obtain ⟨m', hparses, hsame⟩ := parses_message hvalid hrank hser hlen
  refine ⟨⟨frame payload, m', ?_, hsame, reads_message hlen hparses⟩, splits_message⟩
  rw [sendFramed, hser]
  rfl

/-- Two bytes, every second one of a storage. -/
def everyOther : TensorImpl where
  storage := ⟨0, 3, by decide⟩
  shape := [2]
  strides := [2]
  dtype := .uint8

def smallMessage : Message TensorImpl :=
  ⟨0, 1, 2, 3, [102], [], [7, 7], [everyOther]⟩

theorem deserialize_sendFramed_smallMessage :
    ∃ bytes m', sendFramed (fun _ a => UInt8.ofNat a.toNat) smallMessage = .ok bytes ∧
      SameMessage (fun _ a => UInt8.ofNat a.toNat) smallMessage m' ∧
      ∀ rest, deserializeMessage (bytes ++ rest) = .ok (m', rest) := by
  have hvalid : everyOther.WellFormed ∧ everyOther.InBounds := by
    refine ⟨⟨rfl, by decide, by decide⟩, fun idx hidx => ?_⟩
    obtain ⟨i, rfl, hi⟩ : ∃ i, idx = [i] ∧ (0 ≤ i ∧ i < 2) := by
      cases hidx with
      | cons hi hnil =>
        cases hnil
        exact ⟨_, rfl, hi⟩
    have haddr : everyOther.addr [i] = i * 2 := by
      simp [TensorImpl.addr, everyOther]
    have hsize : everyOther.storageElements = 3 := by decide
    omega
  obtain ⟨payload, hser, hlen⟩ : ∃ payload,
      serializeMessage (fun _ a => UInt8.ofNat a.toNat) smallMessage = .ok payload ∧
        payload.length ≤ maxPayloadBytes := ⟨_, rfl, by decide +kernel⟩
  refine (deserialize_sendFramed (fun t ht => ?_) (fun t ht => ?_) hser hlen).1
  · cases mem_singleton.mp ht
    exact hvalid
  · cases mem_singleton.mp ht
    decide

/-- One byte under a number of dimensions. -/
def unitTensor (rank : ℕ) : TensorImpl where
  storage := .ofBytes 0 1
  shape := List.replicate rank 1
  strides := List.replicate rank 1
  dtype := .uint8

theorem computeStrides_replicate (rank : ℕ) :
    computeStrides (List.replicate rank 1) = .ok (List.replicate rank 1) := by
  induction rank with
  | zero => rfl
  | succ rank ih =>
    cases rank with
    | zero => rfl
    | succ rank =>
      change (do
        let tail ← computeStrides (List.replicate (rank + 1) 1)
        let s ← checkedMul (tail.headD 1) 1
        return s :: tail) = _
      rw [ih]
      rfl

theorem numel_replicate (rank : ℕ) : numel (List.replicate rank 1) = .ok 1 := by
  induction rank with
  | zero => rfl
  | succ rank ih => exact ih

theorem valid_unitTensor (rank : ℕ) :
    (unitTensor rank).WellFormed ∧ (unitTensor rank).InBounds := by
  have hone : ∀ n ∈ (unitTensor rank).shape, n = 1 := fun n hn => eq_of_mem_replicate hn
  refine ⟨⟨by simp [unitTensor], fun n hn => ?_, fun n hn => ?_⟩, fun idx hidx => ?_⟩
  · exact hone n hn ▸ zero_le_one
  · exact hone n hn ▸ by decide
  · have hzero : dot idx (List.replicate rank 1) = 0 := by
      induction rank generalizing idx with
      | zero => cases hidx; rfl
      | succ rank ih =>
        cases hidx with
        | cons hi hrest =>
          have hrest' := ih (fun n hn => eq_of_mem_replicate hn) _ hrest
          rw [replicate_succ, dot_cons]
          omega
    have haddr : (unitTensor rank).addr idx = 0 := by
      rw [TensorImpl.addr, unitTensor, hzero]
      rfl
    have hsize : (unitTensor rank).storageElements = 1 := Nat.div_self one_pos
    rw [haddr, hsize]
    exact ⟨le_rfl, zero_lt_one⟩

theorem appendTensor_unitTensor (mem : Bytes) (rank : ℕ) :
    ∃ bytes, appendTensor mem (unitTensor rank) = .ok bytes ∧ bytes.length = 17 + 8 * rank := by
  have hcont : (unitTensor rank).contiguous =
      .ok (unitTensor rank, fun i => (unitTensor rank).offset + i) := by
    have h : (unitTensor rank).isContiguous = .ok true := by
      rw [TensorImpl.isContiguous, unitTensor, computeStrides_replicate]
      simp
    rw [TensorImpl.contiguous, h]
    rfl
  have hdims : (((List.replicate rank 1).flatMap fun d => appendBE (Int64.ofInt d)).length) =
      8 * rank := by
    rw [List.length_flatMap, map_replicate, sum_replicate]
    exact mul_comm rank 8
  have hdata : (tensorData mem (unitTensor rank) 1 fun i => (unitTensor rank).offset + i).length =
      1 := length_tensorData ..
  rw [appendTensor, hcont]
  simp only [Throwing.bind_eq_ok, pure_eq_ok]
  refine ⟨_, ⟨_, rfl, 1, numel_replicate rank, 0, rfl, rfl⟩, ?_⟩
  simp only [unitTensor] at hdata ⊢
  simp only [length_append, length_appendBE, Pod.width, length_take, hdata, hdims]
  have hnbytes : (UInt64.ofNat (Int.toNat 1 * dtypeSize .uint8)).toNat = 1 := by decide
  omega

/-- One quantized element. -/
def quantizedUnit : TensorImpl := { unitTensor 1 with dtype := .qint8, qScale := 2 }

theorem quantizedUnit_loses_scale :
    (quantizedUnit.WellFormed ∧ quantizedUnit.InBounds) ∧
      ∃ payload, serializeMessage (fun _ _ => 7) ⟨0, 0, 1, 0, [], [], [], [quantizedUnit]⟩ =
          .ok payload ∧ payload.length ≤ maxPayloadBytes ∧
        ∃ m' l, deserializeMessage (frame payload) = .ok (m', []) ∧ m'.tensors = [l] ∧
          l.impl.qScale ≠ quantizedUnit.qScale := by
  obtain ⟨hwf, hbounds⟩ := valid_unitTensor 1
  have hvalid : quantizedUnit.WellFormed ∧ quantizedUnit.InBounds :=
    ⟨⟨hwf.1, hwf.2, hwf.3⟩, hbounds⟩
  obtain ⟨payload, hser, hlen⟩ : ∃ payload,
      serializeMessage (fun _ _ => 7) ⟨0, 0, 1, 0, [], [], [], [quantizedUnit]⟩ = .ok payload ∧
        payload.length ≤ maxPayloadBytes := ⟨_, rfl, by decide +kernel⟩
  have hrank : quantizedUnit.shape.length ≤ 4096 := by decide
  have hall : ∀ t ∈ [quantizedUnit], (t.WellFormed ∧ t.InBounds) ∧ t.shape.length ≤ 4096 :=
    forall_mem_singleton.mpr ⟨hvalid, hrank⟩
  obtain ⟨m', hparses, hsame⟩ := parses_message (fun t ht => (hall t ht).1)
    (fun t ht => (hall t ht).2) hser hlen
  obtain ⟨l, ls, -, hnil, htensors⟩ := forall₂_cons_left_iff.mp hsame.tensors
  cases hnil
  have hrun := reads_message hlen hparses []
  rw [append_nil] at hrun
  have hscale : l.impl.qScale = 0 :=
    congrArg TensorImpl.qScale (hsame.fresh l (htensors ▸ mem_cons_self))
  refine ⟨hvalid, payload, hser, hlen, m', l, hrun, htensors, fun heq => ?_⟩
  have hzero : (0 : ℚ) = 2 := hscale.symm.trans heq
  exact absurd hzero (by decide)

/-- The receiver drops the frame of a tensor of rank 4097, and a received tensor has lost the
scale of one that is quantized. -/
theorem rank_4097_is_dropped :
    ((quantizedUnit.WellFormed ∧ quantizedUnit.InBounds) ∧
      ∃ payload, serializeMessage (fun _ _ => 7) ⟨0, 0, 1, 0, [], [], [], [quantizedUnit]⟩ =
          .ok payload ∧ payload.length ≤ maxPayloadBytes ∧
        ∃ m' l, deserializeMessage (frame payload) = .ok (m', []) ∧ m'.tensors = [l] ∧
          l.impl.qScale ≠ quantizedUnit.qScale) ∧
    (∀ t ∈ [unitTensor 4097], t.WellFormed ∧ t.InBounds) ∧
      ∃ payload, serializeMessage (fun _ _ => 7) ⟨0, 0, 1, 0, [], [], [], [unitTensor 4097]⟩ =
          .ok payload ∧ payload.length ≤ maxPayloadBytes ∧
        ¬ ∃ m', SameMessage (fun _ _ => 7) ⟨0, 0, 1, 0, [], [], [], [unitTensor 4097]⟩ m' ∧
          deserializeMessage (frame payload) = .ok (m', []) := by
  refine ⟨quantizedUnit_loses_scale, fun t ht => mem_singleton.mp ht ▸ valid_unitTensor 4097, ?_⟩
  obtain ⟨bytes, hbytes, hlen⟩ := appendTensor_unitTensor (fun _ _ => 7) 4097
  have hser : ∃ payload, serializeMessage (fun _ _ => 7)
      ⟨0, 0, 1, 0, [], [], [], [unitTensor 4097]⟩ = .ok payload ∧
        payload.length ≤ maxPayloadBytes := by
    refine ⟨_, by rw [serializeMessage, mapM_cons, hbytes]; rfl, ?_⟩
    simp [appendString, length_appendBE, Pod.width, hlen, maxPayloadBytes]
  obtain ⟨payload, hpayload, hle⟩ := hser
  refine ⟨payload, hpayload, hle, fun ⟨m', hsame, hm'⟩ => ?_⟩
  rcases splits_message (frame payload) with hr | ⟨bytes, r, rest, hr, -, payload, -, -, hall⟩
  · cases hr.symm.trans hm'
  · obtain ⟨rfl, -⟩ := Prod.mk.inj (Except.ok.inj (hr.symm.trans hm'))
    obtain ⟨l, ls, hl, -, htensors⟩ := forall₂_cons_left_iff.mp hsame.tensors
    have hle := (hall l (htensors ▸ mem_cons_self)).rank_le
    rw [hl.shape, unitTensor, length_replicate] at hle
    omega

end Tenzor.Rpc
