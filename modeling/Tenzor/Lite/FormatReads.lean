import Tenzor.Lib.Dict
import Tenzor.Lite.ModelFormat
import Mathlib.Tactic.IntervalCases

/-!
# What the TZLITE readers read back

Every payload builder has its reader: the reader returns what was written as
long as the counts fit their fields, and nothing that it returns has a count
that does not.
-/

namespace Tenzor.Lite

open Wire
open UInt64 (ofNat)

variable {α : Type} {γ κ ν : Type}

/-- A counted list of words is read back. -/
theorem reads_pods [Pod γ] [Pod α] (what : String) {xs : List α} (hwidth : 0 < Pod.width α)
    (hcount : xs.length < 256 ^ Pod.width γ) :
    Reads (readPods γ α what) (appendCounted γ appendPod xs) xs := by
  apply reads_counted eof _ hwidth _ hcount
  intro a _
  exact ⟨reads_pod eof a, (length_appendPod a).ge⟩

/-- Four values are read back. -/
theorem reads_four {p : Reader Exn α} {enc : α → List UInt8} (h : ∀ a, Reads p (enc a) a)
    (v : Vector α 4) : Reads (readFour p) (v.toList.flatMap enc) v := by
  have hv : v = #v[v[0], v[1], v[2], v[3]] := by
    ext i hi
    interval_cases i <;> rfl
  have hbytes : v.toList.flatMap enc = enc v[0] ++ (enc v[1] ++ (enc v[2] ++ enc v[3])) := by
    conv_lhs => rw [hv]
    simp
  rw [hbytes]
  conv => rhs; rw [hv]
  apply (h v[0]).bind
  apply (h v[1]).bind
  apply (h v[2]).bind
  exact (h v[3]).map fun d => (#v[v[0], v[1], v[2], d] : Vector α 4)

/-- The counts of the extra attributes fit 32 bits. -/
def LiteNode.ExtrasFit (node : LiteNode) : Prop :=
  node.attrs.extraI.length < 4294967296 ∧ node.attrs.extraF.length < 4294967296

/-- A node whose counts fit is read back. -/
theorem reads_node {node : LiteNode}
    (harity : node.inputIds.length ≤ 65535 ∧ node.outputIds.length ≤ 65535)
    (hextras : node.ExtrasFit) :
    Reads (readNode tzliteVersion) (serialiseNode tzliteVersion node) node := by
  have hversion : (3 : UInt32) ≤ tzliteVersion := by decide
  have hread : Reads (readExtras tzliteVersion)
      (appendCounted UInt32 appendPod node.attrs.extraI ++
        appendCounted UInt32 appendPod node.attrs.extraF)
      (node.attrs.extraI, node.attrs.extraF) := by
    apply (reads_pods "node extra_i" (by decide) hextras.1).bind
    exact (reads_pods "node extra_f" (by decide) hextras.2).map _
  apply (reads_pod eof node.op).bind
  apply (reads_pods "node inputs" (by decide) (Nat.lt_succ_of_le harity.1)).bind
  apply (reads_pods "node outputs" (by decide) (Nat.lt_succ_of_le harity.2)).bind
  apply (reads_four (reads_pod eof) node.attrs.f).bind
  apply (reads_four (reads_pod eof) node.attrs.i).bind
  exact hread.map fun extras => (⟨node.op, node.inputIds, node.outputIds,
    ⟨node.attrs.f, node.attrs.i, extras.1, extras.2⟩⟩ : LiteNode)

theorem returns_pods [Pod γ] [Pod α] (what : String) :
    Returns (readPods γ α what) fun xs => xs.length < 256 ^ Pod.width γ :=
  (returns_counted eof _ _ (returns_true _)).mono fun _ h => h.1

/-- A node that is read has counts that fit. -/
theorem returns_node (version : UInt32) : Returns (readNode version) LiteNode.ExtrasFit := by
  have hextras : Returns (readExtras version) fun extras =>
      extras.1.length < 4294967296 ∧ extras.2.length < 4294967296 := by
    unfold readExtras
    split_ifs
    · refine (returns_pods _).bind fun _ hi => (returns_pods _).bind fun _ hf => ?_
      exact Returns.pure ⟨hi, hf⟩
    · exact Returns.pure ⟨by simp, by simp⟩
  refine (returns_true _).bind fun _ _ => (returns_true _).bind fun _ _ => ?_
  refine (returns_true _).bind fun _ _ => (returns_true _).bind fun _ _ => ?_
  refine (returns_true _).bind fun _ _ => hextras.bind fun _ h => ?_
  exact Returns.pure h

/-- What a value is read back as. -/
def TensorValue.loaded (tv : TensorValue) : LoadedValue :=
  ⟨tv.tensorId, sourceCode tv.source, dtypeCode tv.dtype, tv.shape, tv.weightOffset,
    tv.weightNbytes, tv.inputIndex⟩

theorem length_flatMap_appendPod [Pod α] (xs : List α) :
    (xs.flatMap appendPod).length = xs.length * Pod.width α := by
  induction xs with
  | nil => simp
  | cons a rest ih =>
    rw [List.flatMap_cons, List.length_append, ih, length_appendPod, List.length_cons]
    ring

/-- A value of the table is read back. -/
theorem reads_tvalEntry {tv : TensorValue} (hid : 0 ≤ tv.tensorId.toInt)
    (hrank : tv.shape.length < 256) : Reads readTvalEntry (tvalEntry tv) tv.loaded := by
  have hndim : (UInt8.ofNat tv.shape.length).toNat = tv.shape.length :=
    UInt8.toNat_ofNat_of_lt' hrank
  apply (reads_pod eof tv.tensorId).bind
  apply Reads.failIf (not_lt.mpr hid)
  apply (reads_pod eof (sourceCode tv.source)).bind
  apply (reads_pod eof (UInt8.ofNat tv.shape.length)).bind
  apply (reads_pod eof (dtypeCode tv.dtype).toUInt16).bind
  apply (reads_pod eof tv.inputIndex).bind
  apply (reads_pod eof tv.weightOffset).bind
  apply (reads_pod eof tv.weightNbytes).bind
  rw [hndim]
  apply Reads.checkCount (by decide) (length_flatMap_appendPod tv.shape).ge
  have hshape := (reads_many fun d _ => reads_pod eof d : Reads _ _ tv.shape).map fun shape =>
    (⟨tv.tensorId, sourceCode tv.source, (dtypeCode tv.dtype).toUInt16.toUInt8, shape,
      tv.weightOffset, tv.weightNbytes, tv.inputIndex⟩ : LoadedValue)
  have hcode : (dtypeCode tv.dtype).toUInt16.toUInt8 = dtypeCode tv.dtype := by simp
  rw [hcode] at hshape ⊢
  exact hshape

/-- An entry of the table has at least 26 bytes. -/
theorem le_length_tvalEntry (tv : TensorValue) : 26 ≤ (tvalEntry tv).length := by
  simp only [tvalEntry, List.length_append, length_appendPod, Pod.width]
  omega

/-- What the table reader accepts. -/
def LoadedValue.Legal (tv : LoadedValue) : Prop := 0 ≤ tv.tensorId.toInt ∧ tv.shape.length < 256

theorem returns_tvalEntry : Returns readTvalEntry LoadedValue.Legal := by
  refine (returns_true _).bind fun id _ => (returns_failIf _).bind fun _ hid => ?_
  refine (returns_true _).bind fun _ _ => (returns_true _).bind fun ndim _ => ?_
  refine (returns_true _).bind fun _ _ => (returns_true _).bind fun _ _ => ?_
  refine (returns_true _).bind fun _ _ => (returns_true _).bind fun _ _ => ?_
  refine (returns_true _).bind fun _ _ => ?_
  refine (returns_many (returns_true _) _).bind fun shape hshape => ?_
  exact Returns.pure ⟨not_lt.mp hid, hshape.1 ▸ ndim.toNat_lt⟩

theorem reads_id {id : Int16} (h : 0 ≤ id.toInt) (what : String) :
    Reads (readId what) (appendPod id) id := by
  have hpure : Reads (pure id : Reader Exn Int16) [] id := Reads.pure id
  have hread : Reads (readId what) (appendPod id ++ []) id :=
    (reads_pod eof id).bind (Reads.failIf (k := fun _ => pure id) (not_lt.mpr h) hpure)
  rwa [List.append_nil] at hread

theorem returns_id (what : String) : Returns (readId what) fun id => 0 ≤ id.toInt := by
  refine (returns_true _).bind fun _ _ => (returns_failIf _).bind fun _ hid => ?_
  exact Returns.pure (not_lt.mp hid)

/-- Ids that index a table are read back. -/
theorem reads_ids {ids : List Int16} (hids : ∀ id ∈ ids, 0 ≤ id.toInt)
    (hcount : ids.length < 4294967296) (tooMany : UInt32 → Exn) (what : String) :
    Reads (readCounted eof UInt32 tooMany 2 (readId what)) (appendCounted UInt32 appendPod ids)
      ids := by
  apply reads_counted eof tooMany (by decide) _ hcount
  intro id hid
  exact ⟨reads_id (hids id hid) what, (length_appendPod id).ge⟩

theorem reads_iosp {inputs outputs : List Int16} (hin : ∀ id ∈ inputs, 0 ≤ id.toInt)
    (hout : ∀ id ∈ outputs, 0 ≤ id.toInt) (hins : inputs.length < 4294967296)
    (houts : outputs.length < 4294967296) :
    Reads parseIospPayload (buildIospPayload inputs outputs) (inputs, outputs) := by
  apply (reads_ids hin hins _ _).bind
  exact (reads_ids hout houts _ _).map fun outs => (inputs, outs)

theorem returns_iosp : Returns parseIospPayload fun io =>
    io.1.length < 4294967296 ∧ io.2.length < 4294967296 := by
  refine (returns_counted eof _ _ (returns_true _)).bind fun _ hin => ?_
  refine (returns_counted eof _ _ (returns_true _)).bind fun _ hout => ?_
  exact Returns.pure ⟨hin.1, hout.1⟩

/-- A text is read back if its length fits 32 bits. -/
theorem reads_text {t : Text} (h : t.length < 4294967296) (what : String) :
    Reads (readText what) (appendText t) t := by
  have hlen : (UInt32.ofNat t.length).toNat = t.length := UInt32.toNat_ofNat_of_lt' h
  rw [appendText, hlen, List.take_length]
  apply (reads_pod eof (UInt32.ofNat t.length)).bind
  rw [hlen]
  apply Reads.checkCount Nat.one_pos (by rw [Nat.mul_one])
  exact reads_bytes eof t

theorem returns_text (what : String) : Returns (readText what) fun t => t.length < 4294967296 := by
  refine (returns_true _).bind fun len _ => (returns_true _).bind fun _ _ => ?_
  exact (returns_bytes eof _).mono fun t ht => ht ▸ len.toNat_lt

/-- Both texts of an entry have a length that fits 32 bits. -/
def EntryFits (kv : Text × Text) : Prop := kv.1.length < 4294967296 ∧ kv.2.length < 4294967296

theorem reads_metaEntry {kv : Text × Text} (h : EntryFits kv) :
    Reads readMetaEntry (metaEntry kv) kv := by
  apply (reads_text h.1 "key").bind
  exact (reads_text h.2 "value").map fun v => (kv.1, v)

theorem returns_metaEntry : Returns readMetaEntry EntryFits := by
  refine (returns_text _).bind fun _ hk => (returns_text _).bind fun _ hv => ?_
  exact Returns.pure ⟨hk, hv⟩

/-- Distinct keys are entered in order. -/
theorem foldl_emplace [DecidableEq κ] {entries : List (κ × ν)} (done : List (κ × ν))
    (h : ((done ++ entries).map Prod.fst).Nodup) : entries.foldl emplace done = done ++ entries :=
  Dict.foldl_put_eq (fun _ _ hnew => if_neg hnew) entries done h

/-- Of equal keys the first one stays. -/
theorem emplace_sublist [DecidableEq κ] (entries done : List (κ × ν)) :
    (entries.foldl emplace done).length ≤ done.length + entries.length ∧
      ∀ kv ∈ entries.foldl emplace done, kv ∈ done ∨ kv ∈ entries := by
  apply Dict.foldl_put_le
  · intro done e
    unfold emplace
    split <;> simp
  · intro done e x hx
    unfold emplace at hx
    split at hx
    · exact .inl hx
    · simpa using hx

/-- The metadata are read back. -/
theorem reads_meta {entries : List (Text × Text)} (hnodup : (entries.map Prod.fst).Nodup)
    (hcount : entries.length < 4294967296) (hfit : ∀ kv ∈ entries, EntryFits kv) :
    Reads parseMetaPayload (buildMetaPayload entries) entries := by
  have hcounted : Reads (readCounted eof UInt32 (fun n => countError "META" n.toNat) 8
      readMetaEntry) (buildMetaPayload entries) entries := by
    apply reads_counted eof _ (by decide) _ hcount
    intro kv hkv
    refine ⟨reads_metaEntry (hfit kv hkv), ?_⟩
    simp only [metaEntry, appendText, List.length_append, length_appendPod, Pod.width]
    omega
  have hread := hcounted.map fun entries => entries.foldl emplace []
  have heq : entries.foldl emplace [] = entries := foldl_emplace [] hnodup
  rwa [heq] at hread

theorem returns_meta : Returns parseMetaPayload fun entries =>
    entries.length < 4294967296 ∧ ∀ kv ∈ entries, EntryFits kv := by
  refine (returns_counted eof _ _ returns_metaEntry).bind fun entries h => ?_
  obtain ⟨hlen, hmem⟩ := emplace_sublist entries []
  refine Returns.pure ⟨?_, fun kv hkv => ?_⟩
  · exact (hlen.trans (by simp)).trans_lt h.1
  · exact h.2 kv ((hmem kv hkv).resolve_left List.not_mem_nil)

/-- The plan that is read back: no alignment stands for the default. -/
def MmplPlan.loaded (plan : MmplPlan) : MmplPlan :=
  { plan with alignment := planAlignment plan.alignment }

/-- The counts of a plan fit 32 bits and its ids index a table. -/
structure MmplPlan.Fits (plan : MmplPlan) : Prop where
  pools : plan.poolSizes.length < 4294967296
  count : plan.placements.length < 4294967296
  ids : ∀ p ∈ plan.placements, 0 ≤ p.tensorId.toInt

/-- A word is read back if it fits 64 bits. -/
theorem reads_word {n : ℕ} (h : n < 18446744073709551616) :
    Reads readWord (appendPod (ofNat n)) n := by
  have hread := (reads_pod eof (ofNat n)).map UInt64.toNat
  have hn : (ofNat n).toNat = n := UInt64.toNat_ofNat_of_lt' h
  rwa [hn] at hread

theorem reads_placement {p : MmplPlacement} (hid : 0 ≤ p.tensorId.toInt)
    (hword : p.offset < 18446744073709551616) :
    Reads readPlacement (appendPlacement p) p := by
  apply (reads_id hid _).bind
  apply (reads_pod eof p.poolIndex).bind
  have hread := (reads_pod eof (ofNat p.offset)).map fun w =>
    (⟨p.tensorId, p.poolIndex, w.toNat⟩ : MmplPlacement)
  have hn : (ofNat p.offset).toNat = p.offset := UInt64.toNat_ofNat_of_lt' hword
  rwa [hn] at hread

/-- A memory plan is read back. -/
theorem reads_mmpl {plan : MmplPlan} (hwords : plan.Words) (hfits : plan.Fits) :
    Reads parseMmplPayload (buildMmplPayload plan) plan.loaded := by
  apply (reads_word hwords.alignment).bind
  apply (reads_counted eof _ (by decide)
    (fun s hs => ⟨reads_word (hwords.poolSizes s hs), (length_appendPod _).ge⟩) hfits.pools).bind
  have hplacements : Reads (readCounted eof UInt32 (fun n => countError "MMPL placements" n.toNat)
      11 readPlacement) (appendCounted UInt32 appendPlacement plan.placements)
      plan.placements := by
    apply reads_counted eof _ (by decide) _ hfits.count
    intro p hp
    refine ⟨reads_placement (hfits.ids p hp) (hwords.offsets p hp), ?_⟩
    simp [appendPlacement, Pod.width]
  exact hplacements.map fun placements =>
    (⟨plan.poolSizes, planAlignment plan.alignment, placements⟩ : MmplPlan)

theorem returns_mmpl : Returns parseMmplPayload MmplPlan.Fits := by
  have hid : Returns readPlacement fun p => 0 ≤ p.tensorId.toInt := by
    refine (returns_id _).bind fun _ hid => (returns_true _).bind fun _ _ => ?_
    exact (returns_true _).bind fun _ _ => Returns.pure hid
  refine (returns_true _).bind fun _ _ => ?_
  refine (returns_counted eof _ _ (returns_true _)).bind fun _ hpools => ?_
  refine (returns_counted eof _ _ hid).bind fun _ hplacements => ?_
  exact Returns.pure ⟨hpools.1, hplacements.1, hplacements.2⟩

end Tenzor.Lite
