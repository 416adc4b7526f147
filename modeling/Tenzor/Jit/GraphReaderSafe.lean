import Tenzor.Jit.GraphReader

/-!
# What reading a graph file can do

Every count that a graph file declares is compared with what is left of the file, so that no loop
and no reservation for it is larger. The dimensions of a tensor are walked through once more when
they have been read; what is left of the file may be shorter than that. A nested graph begins
behind a byte of its own, which bounds the nesting by the length of the file.
-/

namespace Tenzor.Jit.GraphFile

open Throwing Metered List
open Lite (uint64Max)

/-- The values that the nodes and the lists of a graph name exist, and so in the graphs inside. -/
inductive Graph.WellFormed : Graph → Prop
  | mk {metadata values nodes inputs outputs constants}
      (hnodes : ∀ node ∈ nodes, ∀ id ∈ node.inputs ++ node.outputs, id ∈ values)
      (hsubgraphs : ∀ node ∈ nodes, ∀ g ∈ node.subgraphs, WellFormed g)
      (hlists : ∀ id ∈ inputs ++ outputs, id ∈ values) :
      WellFormed (.mk metadata values nodes inputs outputs constants)

inductive Graph.NestsAtMost : ℕ → Graph → Prop
  | mk {n metadata values nodes inputs outputs constants}
      (hsubgraphs : ∀ node ∈ nodes, ∀ g ∈ node.subgraphs, NestsAtMost n g) :
      NestsAtMost (n + 1) (.mk metadata values nodes inputs outputs constants)

/-- Counts of the file fit what is left, and nothing is walked through that is longer than `size`;
the buffer has at most `n` bytes. -/
def graphTariff (size n : ℕ) : Tariff where
  Allowed
    | .demand amount left => amount ≤ left
    | .revisit amount _ => amount ≤ size
    | .round => True
  price _ := 0
  limit := some n

section Spends

variable {α : Type} {size n left taken : ℕ} {m : Reading Exn α} {P : α → Prop} {β : Type}
  {amount : ℕ} {sub : Reading Exn (Option Graph)} {k : Unit → Reading Exn β} {Q : β → Prop}

theorem spends_demand (hle : amount ≤ left)
    (hk : Spends (graphTariff size n) 0 left taken (k ()) Q) :
    Spends (graphTariff size n) 0 left taken (demand amount >>= k) Q :=
  Spends.step_free (fun s _ hs => ⟨.demand amount s.length, rfl, hle.trans hs, rfl⟩) hk

theorem spends_revisit (hn : n ≤ size) (hcovers : (graphTariff size n).Covers amount)
    (hk : Spends (graphTariff size n) 0 left taken (k ()) Q) :
    Spends (graphTariff size n) 0 left taken (revisit amount >>= k) Q :=
  Spends.step_free
    (fun s _ _ => ⟨.revisit amount s.length, rfl, (hcovers n rfl).trans hn, rfl⟩) hk

theorem spends_readUInt64 : Spends (graphTariff size n) 0 0 8 readUInt64 fun _ => True :=
  Spends.readPod _ UInt64

theorem spends_readBool : Spends (graphTariff size n) 0 0 0 readBool fun _ => True :=
  ((Spends.readPod _ UInt8).followed fun _ _ => Spends.pure trivial).forget

theorem spends_readString : Spends (graphTariff size n) 0 0 8 readString fun _ => True :=
  spends_readUInt64.followed fun size _ => Spends.checkLeft (spends_demand le_rfl
    ((Spends.readBytes _ size.toNat).mono le_rfl le_rfl (Nat.zero_le _) fun _ _ => trivial))

/-- A list is not longer than the file. -/
theorem spends_readList {tooMany : UInt64 → Exn} {width : ℕ} (hwidth : 0 < width)
    (htaken : 1 ≤ taken) (hm : Spends (graphTariff size n) 0 0 taken m P) :
    Spends (graphTariff size n) 0 0 8 (readList tooMany width m)
      fun as => (graphTariff size n).Covers as.length ∧ ∀ a ∈ as, P a := by
  refine (Spends.readPod _ UInt64).followed fun count _ => Spends.checkCount hwidth
    (Spends.covered fun hcovers => ?_)
  have hle : Wire.Pod.toNat count ≤ Wire.Pod.toNat count * width :=
    Nat.le_mul_of_pos_right _ hwidth
  have hmany : Spends (graphTariff size n) 0 (Wire.Pod.toNat count * width) 0
      (readMany m (Wire.Pod.toNat count))
      fun as => as.length = Wire.Pod.toNat count ∧ ∀ a ∈ as, P a :=
    ((Spends.readMany ⟨trivial, Nat.zero_le 1⟩ htaken hm _).unpriced fun _ => rfl).forget
  exact spends_demand hle (hmany.mono le_rfl le_rfl le_rfl fun as h =>
    ⟨hcovers.of_le (h.1.trans_le hle), h.2⟩)

theorem spends_readInt64Vector : Spends (graphTariff size n) 0 0 8 readInt64Vector
    fun shape => (graphTariff size n).Covers shape.length :=
  (spends_readList (by decide) (by decide) (Spends.readPod _ Int64)).mono le_rfl le_rfl le_rfl
    fun _ h => h.1

theorem spends_readDType (reader : String) :
    Spends (graphTariff size n) 0 0 0 (readDType reader) fun _ => True := by
  refine (Spends.readPod _ UInt32).forget.followed fun raw _ => Spends.failIf fun hraw => ?_
  have hlt : raw.toNat < Lite.dtypes.length := by
    rw [show Lite.dtypes.length = 22 from rfl]
    omega
  rw [getElem?_eq_getElem hlt]
  exact Spends.pure trivial

theorem spends_readDeviceType (reader : String) :
    Spends (graphTariff size n) 0 0 0 (readDeviceType reader) fun _ => True := by
  refine (Spends.readPod _ UInt32).forget.followed fun raw _ => Spends.failIf fun hraw => ?_
  have hlt : raw.toNat < deviceTypes.length := by
    rw [show deviceTypes.length = 6 from rfl]
    omega
  rw [getElem?_eq_getElem hlt]
  exact Spends.pure trivial

theorem checkedNumel_ok {shape : List Int64} {k numel : ℕ} (h : checkedNumel shape k = .ok numel) :
    (numel : ℤ) = k * (shape.map Int64.toInt).prod := by
  induction shape generalizing k with
  | nil =>
    obtain rfl := pure_eq_ok.mp h
    simp
  | cons d shape ih =>
    simp only [checkedNumel, bind_eq_ok, throwIf_eq_ok, exists_const] at h
    obtain ⟨hneg, hover, h⟩ := h
    have hle : k * d.toInt.toNat ≤ uint64Max :=
      not_lt.mp fun hlt => hover (Lite.numel_overflows.mpr hlt)
    have hmod : k * d.toInt.toNat % 18446744073709551616 = k * d.toInt.toNat :=
      Nat.mod_eq_of_lt (Nat.lt_of_le_of_lt hle (by decide))
    rw [hmod] at h
    rw [ih h, map_cons, prod_cons]
    push_cast
    rw [Int.toNat_of_nonneg (not_lt.mp hneg), mul_assoc]

/-- The size of the tensor is the one that is compared with what is left. -/
theorem spends_readTensor (hn : n ≤ size) :
    Spends (graphTariff size n) 0 0 8 readTensor fun _ => True := by
  refine spends_readInt64Vector.followed fun shape hshape =>
    (spends_readDType _).followed fun dtype _ => (spends_readDeviceType _).followed fun _ _ =>
      (Spends.readPod _ Int64).forget.followed fun _ _ =>
        spends_readUInt64.forget.followed fun dataSize _ => spends_revisit hn hshape ?_
  refine Spends.ofExcept fun numel hnumel => Spends.failIf fun hover => Spends.failIf fun hsize =>
    Spends.unread_left fun unread => Spends.failIf fun hleft => spends_revisit hn hshape ?_
  have hbytes : numel * dtypeSize dtype ≤ uint64Max := not_lt.mp fun hlt =>
    hover ⟨(dtypeSize_pos dtype).ne', (Nat.div_lt_iff_lt_mul (dtypeSize_pos dtype)).mpr hlt⟩
  have hdata : dataSize.toNat = numel * dtypeSize dtype := by
    rw [not_not.mp hsize]
    exact Nat.mod_eq_of_lt (Nat.lt_of_le_of_lt hbytes (by decide))
  have hmake : Spends (graphTariff size n) 0 unread 0
      (Declared.makeTensor (shape.map Int64.toInt) dtype) fun _ => True := by
    refine Spends.ofExcept fun t ht => spends_demand ?_ (Spends.pure trivial)
    have hsizeBytes := Declared.sizeBytes_eq ht
    have hprod := checkedNumel_ok hnumel
    rw [Nat.cast_one, one_mul] at hprod
    rw [← hprod] at hsizeBytes
    omega
  exact hmake.followed fun t _ => (Spends.readBytes _ dataSize.toNat).forget.followed
    fun _ _ => Spends.pure trivial

variable {values : Dict Text Value}

theorem spends_readValue : Spends (graphTariff size n) 0 0 8 readValue fun _ => True :=
  spends_readString.followed fun _ _ => spends_readInt64Vector.forget.followed fun _ _ =>
    (spends_readDType _).followed fun _ _ => (spends_readDeviceType _).followed fun _ _ =>
      (Spends.readPod _ Int64).forget.followed fun _ _ => Spends.pure trivial

theorem spends_readValues : Spends (graphTariff size n) 0 0 0 readValues fun _ => True :=
  (spends_readList (by decide) (by decide) spends_readValue).forget.followed
    fun _ _ => Spends.pure trivial

theorem spends_readReferences (what : String) (err : Text → Exn) :
    Spends (graphTariff size n) 0 0 0 (readReferences values what err)
      fun ids => ∀ id ∈ ids, id ∈ values := by
  have hone : Spends (graphTariff size n) 0 0 8 (readReference values err) fun id => id ∈ values := by
    refine spends_readString.followed fun id _ => Spends.failIf fun hnone => Spends.pure ?_
    rw [← AList.lookup_isSome, Option.isSome_iff_ne_none]
    intro h
    exact hnone (by rw [h]; rfl)
  exact ((spends_readList (by decide) (by decide) hone).mono le_rfl le_rfl le_rfl
    fun _ h => h.2).forget

/-- What stands behind a name. -/
theorem spends_named (hm : Spends (graphTariff size n) 0 0 0 m fun _ => True) :
    Spends (graphTariff size n) 0 0 8 (do
      let name ← readString
      let val ← m
      pure (name, val)) fun _ => True :=
  spends_readString.followed fun _ _ => hm.followed fun _ _ => Spends.pure trivial

theorem spends_readAttrs (what : String)
    (hm : Spends (graphTariff size n) 0 0 0 m fun _ => True) :
    Spends (graphTariff size n) 0 0 0 (readAttrs what m) fun _ => True :=
  (spends_readList (by decide) (by decide) (spends_named hm)).forget.followed
    fun _ _ => Spends.pure trivial

/-- A nested graph is behind the byte that announces it. -/
theorem spends_readSubgraph {sub : Reading Exn Graph} {P : Graph → Prop}
    (hsub : Spends (graphTariff size n) 0 0 0 sub P) :
    Spends (graphTariff size n) 0 0 0 (readSubgraph sub) fun o => ∀ g ∈ o, P g := by
  refine spends_readBool.followed fun present _ => ?_
  split
  · refine hsub.followed fun g hg => Spends.pure ?_
    rintro _ ⟨⟩
    exact hg
  · exact Spends.pure (by simp)

/-- The values that a node names exist, and the graphs inside are as they should be. -/
structure Node.Sound (values : Dict Text Value) (P : Graph → Prop) (node : Node Graph) : Prop where
  references : ∀ id ∈ node.inputs ++ node.outputs, id ∈ values
  subgraphs : ∀ g ∈ node.subgraphs, P g

theorem spends_readNode {P : Graph → Prop} (hn : n ≤ size)
    (hsub : Spends (graphTariff size n) 0 0 0 sub fun o => ∀ g ∈ o, P g) :
    Spends (graphTariff size n) 0 0 4 (readNode values sub) (Node.Sound values P) := by
  refine (Spends.readPod _ UInt32).followed fun rawOp _ => Spends.failIf fun hop => ?_
  have hlt : rawOp.toNat < 170 := by
    omega
  refine Spends.cast (dif_pos hlt) (spends_readString.forget.followed fun name _ =>
    (spends_readReferences _ _).followed fun inputs hin =>
      (spends_readReferences _ _).followed fun outputs hout => ?_)
  refine (spends_readAttrs _ (Spends.readPod _ UInt64).forget).followed fun _ _ =>
    (spends_readAttrs _ (Spends.readPod _ Int64).forget).followed fun _ _ =>
      (spends_readAttrs _ (spends_readInt64Vector.mono le_rfl le_rfl (Nat.zero_le _)
        fun _ _ => trivial)).followed fun _ _ =>
        (spends_readAttrs _ spends_readBool).followed fun _ _ =>
          (spends_readAttrs _ (spends_readTensor hn).forget).followed fun _ _ => ?_
  refine hsub.followed fun thenBranch hthen => hsub.followed fun elseBranch helse =>
    hsub.followed fun body hbody => Spends.pure ⟨?_, ?_⟩
  · intro id hid
    rcases mem_append.mp hid with hid | hid
    · exact hin id hid
    · exact hout id hid
  · intro g hg
    simp only [Node.subgraphs, mem_append, Option.mem_toList] at hg
    rcases hg with (hg | hg) | hg
    · exact hthen g hg
    · exact helse g hg
    · exact hbody g hg

theorem spends_readNodes {P : Graph → Prop} (hn : n ≤ size)
    (hsub : Spends (graphTariff size n) 0 0 0 sub fun o => ∀ g ∈ o, P g) (numNodes : ℕ) :
    Spends (graphTariff size n) 0 0 0 (readNodes numNodes values sub)
      fun nodes => ∀ node ∈ nodes, node.Sound values P := by
  have hmany : Spends (graphTariff size n) 0 (numNodes * 8) 0
      (readMany (readNode values sub) numNodes)
      fun nodes => nodes.length = numNodes ∧ ∀ node ∈ nodes, node.Sound values P :=
    ((Spends.readMany ⟨trivial, Nat.zero_le 1⟩ (by decide) (spends_readNode hn hsub) _).unpriced
      fun _ => rfl).forget
  exact Spends.checkCount (by decide) (spends_demand (Nat.le_mul_of_pos_right _ (by decide))
    (hmany.mono le_rfl le_rfl le_rfl fun _ h => h.2))

theorem spends_readIoLists : Spends (graphTariff size n) 0 0 0 (readIoLists values)
    fun io => ∀ id ∈ io.1 ++ io.2, id ∈ values := by
  refine (spends_readReferences _ _).followed fun ins hin =>
    (spends_readReferences _ _).followed fun outs hout => Spends.pure fun id hid => ?_
  rcases mem_append.mp hid with hid | hid
  · exact hin id hid
  · exact hout id hid

theorem spends_readConstants (hn : n ≤ size) :
    Spends (graphTariff size n) 0 0 0 readConstants fun _ => True :=
  (spends_readList (by decide) (by decide) (spends_named (spends_readTensor hn).forget)).forget.followed
    fun _ _ => Spends.pure trivial

/-- The graph is read behind the number of its nodes. -/
theorem spends_sections {k : ℕ} (hn : n ≤ size)
    (hsub : Spends (graphTariff size n) 0 0 0 sub fun o => ∀ g ∈ o, g.WellFormed ∧ g.NestsAtMost k)
    (numNodes : UInt64) :
    Spends (graphTariff size n) 0 0 0 (do
      let _ ← readUInt64
      let _ ← readUInt64
      let _ ← readUInt64
      let pairs ← readList (fun n => graphError ("read_metadata: metadata pair count (" ++
        toString n.toNat ++ ") exceeds remaining file bytes")) 1 (do
          let key ← readString
          let value ← readString
          pure (key, value))
      let values ← readValues
      let nodes ← readNodes numNodes.toNat values sub
      let io ← readIoLists values
      let constants ← readConstants
      pure (Graph.mk (Dict.ofEntries pairs) values nodes io.1 io.2 constants))
      fun g => g.WellFormed ∧ g.NestsAtMost (k + 1) := by
  have hword : Spends (graphTariff size n) 0 0 0 readUInt64 fun _ => True :=
    spends_readUInt64.forget
  refine hword.followed fun _ _ => hword.followed fun _ _ => hword.followed fun _ _ => ?_
  refine (spends_readList (by decide) (by decide)
    (spends_named spends_readString.forget)).forget.followed fun pairs _ =>
      spends_readValues.followed fun values _ =>
        (spends_readNodes hn hsub numNodes.toNat).followed fun nodes hnodes =>
          spends_readIoLists.followed fun io hio =>
            (spends_readConstants hn).followed fun constants _ => Spends.pure ⟨?_, ?_⟩
  · exact .mk (fun node hnode => (hnodes node hnode).references)
      (fun node hnode g hg => ((hnodes node hnode).subgraphs g hg).1) hio
  · exact .mk fun node hnode g hg => ((hnodes node hnode).subgraphs g hg).2

/-- The fuel is used up where the buffer is: a nested graph has at least a byte before it. -/
theorem spends_readGraph (hn : n ≤ size) :
    Spends (graphTariff size n) 0 0 8 (readGraph (n + 1))
      fun g => g.WellFormed ∧ g.NestsAtMost (n + 1) := by
  induction n with
  | zero =>
    rw [readGraph, readMetadata, Metered.bind_assoc]
    exact Spends.starved rfl (by decide)
  | succ n ih =>
    rw [readGraph, readMetadata]
    simp only [Metered.bind_assoc, Metered.pure_bind]
    have hsub := spends_readSubgraph (ih (by omega)).forget
    refine Spends.bind_limit (fun k hk limit hlimit => ?_) spends_readUInt64 fun numNodes _ =>
      spends_sections (by omega) hsub numNodes
    obtain rfl := Option.some.inj hlimit
    have := hk _ rfl
    omega

theorem spends_read (size : ℕ) : Spends (graphTariff size size) 0 0 0
    (do
      readHeader
      readGraph size)
    fun g => g.WellFormed ∧ g.NestsAtMost size := by
  cases size with
  | zero =>
    rw [readHeader, Metered.bind_assoc]
    exact Spends.starved rfl (by decide)
  | succ n =>
    have hgraph : Spends (graphTariff (n + 1) n) 0 0 0 (readGraph (n + 1))
        fun g => g.WellFormed ∧ g.NestsAtMost (n + 1) := (spends_readGraph (by omega)).forget
    have hmagic : Spends (graphTariff (n + 1) (n + 1)) 0 0 4 readUInt32 fun _ => True :=
      Spends.readPod _ UInt32
    rw [readHeader]
    simp only [Metered.bind_assoc]
    refine (Spends.bind_limit (fun k hk limit hlimit => ?_) hmagic fun _ _ =>
      Spends.failIf fun _ => (Spends.readPod _ UInt32).forget.followed fun _ _ =>
        Spends.failIf fun _ => hgraph).forget
    obtain rfl := Option.some.inj hlimit
    have := hk _ rfl
    omega

end Spends

/-- The reader throws or returns a graph whose references exist, and no cast or copy fails; a count
of the file fits what is left when it is looped over or reserved for, the dimensions of a tensor are
not more than the file has bytes when they are walked through once more, and the graph nests no
deeper than the file is long. -/
structure ReadsSafely (file : List UInt8) : Prop where
  ends : ∀ f, (read file).result = .error f → ∃ e, f = .thrown e
  counts : ∀ amount left, .demand amount left ∈ (read file).events → amount ≤ left
  walks : ∀ amount left, .revisit amount left ∈ (read file).events → amount ≤ file.length
  graph : ∀ g rest, (read file).result = .ok (g, rest) →
    g.WellFormed ∧ g.NestsAtMost file.length

theorem read_safely (file : List UInt8) : ReadsSafely file := by
  have hcovers : (graphTariff file.length file.length).Covers file.length := by
    rintro _ ⟨⟩
    exact le_rfl
  have hread := spends_read file.length
  have hallowed := (hread file hcovers (Nat.zero_le _)).1
  exact
    { ends := fun f hf => (hread.of_error hcovers (Nat.zero_le _) hf).1
      counts := fun amount left h => hallowed _ h
      walks := fun amount left h => hallowed _ h
      graph := fun g rest hg => (hread.of_ok hcovers (Nat.zero_le _) hg).1 }

/-- No loop and no reservation is larger than what is left. -/
def WithinUnread : Event → Prop
  | .demand amount left => amount ≤ left
  | .revisit amount left => amount ≤ left
  | .round => True

/-- The only constant of the file is an empty tensor of one dimension, at the end of it. -/
theorem not_withinUnread_dimensions : ¬ ∀ e ∈ (read (Wire.appendPod magicNumber ++
    (Wire.appendPod serializationVersion ++ (List.replicate 64 0 ++
      (Wire.appendPod (1 : UInt64) ++ (List.replicate 8 0 ++
        (Wire.appendPod (1 : UInt64) ++ List.replicate 32 0))))))).events, WithinUnread e := by
  intro h
  have hwithin : 1 ≤ 0 := h (.revisit 1 0) (by decide +kernel)
  omega

end Tenzor.Jit.GraphFile
