import Tenzor.Jit.Folding

/-!
# A new node in the place of old ones

The passes that build a node append it to the list, redirect the readers of the
result it stands for and remove the nodes that computed it. `Region` says which
part of the graph the node replaces; `Region.zone` turns it into the zone of the
new node, whose one result takes the place of the final value.

`Evolves` is what every step of such a pass keeps, and all a later step of the same
pass needs to know about a node of the snapshot it walks over.
-/

namespace Tenzor.Jit

open List

namespace Graph

variable {T S : Type} {exec : Exec T S} {g g' g'' k : Graph T S} {args : List T} {l : List NodeRef}
  {ins : List ValRef}

/-- The node `d` computes the final value `f`; the values `zs` are internal, read by
the casts `cs` and the nodes `ds` only. The new node reads `ins`, the readers of
`olds` are redirected to it and the nodes `ds` removed. -/
structure Region (g : Graph T S) (ins : List ValRef) (f : ValRef) (d : NodeRef)
    (zs : List ValRef) (cs ds : List NodeRef) (olds : List ValRef) : Prop where
  mem : d ∈ g.nodes
  final : f ∈ g.outputsOf d
  ds_mem : ∀ n ∈ ds, n ∈ g.nodes
  cs_mem : ∀ c ∈ cs, c ∈ g.nodes
  olds_cases : ∀ v ∈ olds, v = f ∨ v ∈ zs
  olds_produced : ∀ v ∈ olds, ∃ n ∈ ds, v ∈ g.outputsOf n
  dropped : ∀ n ∈ ds, ∀ v ∈ g.outputsOf n, v ∈ olds ∨ v ∈ zs ∧ ∀ c ∈ cs, v ∉ g.inputsOf c
  unobserved : ∀ z ∈ zs, z ∉ g.outputs
  produced : ∀ z ∈ zs, ∃ n, z ∈ g.outputsOf n ∧ (n ∈ cs ∨ n ∈ ds)
  reads : ∀ n ∈ g.nodes, n ∉ cs → n ∉ ds → ∀ v ∈ g.inputsOf n, v ∉ zs
  casts : ∀ c ∈ cs, (∃ z ∈ zs, g.inputsOf c = [z]) ∧ ∃ z ∈ zs, g.outputsOf c = [z]
  live : ∀ v ∈ ins, g.Live v
  usable : ∀ v ∈ ins, g.Usable v
  apart : ∀ v ∈ ins, v ∉ olds ∧ v ∉ zs
  below : ∀ rank, g.Ranked rank → ∀ v ∈ ins, ∀ m ∈ g.nodes, v ∈ g.outputsOf m → rank m < rank d

namespace Region

variable {ins : List ValRef} {f : ValRef} {d : NodeRef} {zs : List ValRef} {cs ds : List NodeRef}
  {olds : List ValRef} {code : NodeCode T S} {id : String}
  (h : g.WellFormed) (r : Region g ins f d zs cs ds olds) (dr : Draft g k code ins [id])

/-- The new node goes right below the one that computed the final value; casts that
are left over go above everything, as nobody reads them. -/
def newRank (g : Graph T S) (d : NodeRef) (cs : List NodeRef) (rank : NodeRef → Nat) :
    NodeRef → Nat := fun n =>
  if n = g.nextNode then 2 * rank d
  else if n ∈ cs then 2 * rank d + 2 * rank n + 1
  else 2 * rank n + 1

include h in
theorem newRank_of_mem {n : NodeRef} (hn : n ∈ g.nodes) (rank : NodeRef → Nat) :
    newRank g d cs rank n = if n ∈ cs then 2 * rank d + 2 * rank n + 1 else 2 * rank n + 1 := by
  unfold newRank
  rw [if_neg]
  exact fun he => Nat.lt_irrefl _ (he ▸ h.nodes_lt n hn)

include dr in
theorem outputsOf_new : k.outputsOf g.nextNode = [g.nextVal] := by simp [dr.outputsOf]

include h dr in
/-- A value produced in the extended graph is old, or the new result. -/
theorem producer_cases {m : NodeRef} {v : ValRef} (hm : m ∈ (k.addNode g.nextNode).nodes)
    (hv : v ∈ k.outputsOf m) :
    (m = g.nextNode ∧ v = g.nextVal) ∨ (m ∈ g.nodes ∧ v ∈ g.outputsOf m ∧ v < g.nextVal) := by
  rw [dr.mem_addNode] at hm
  obtain hm | rfl := hm
  · rw [dr.outputsOf_of_mem h hm] at hv
    exact .inr ⟨hm, hv, h.live_lt v (live_outputsOf hm hv)⟩
  · rw [outputsOf_new dr] at hv
    exact .inl ⟨rfl, mem_singleton.mp hv⟩

include h r dr

theorem rankedAfter {rank : NodeRef → Nat} (hrank : g.Ranked rank) :
    (k.addNode g.nextNode).RankedAfter olds g.nextVal ds (newRank g d cs rank) := by
  have hnew : newRank g d cs rank g.nextNode = 2 * rank d := if_pos rfl
  have hcast : ∀ c ∈ cs, ∀ v ∈ g.outputsOf c, v ∈ zs := by
    intro c hc v hv
    obtain ⟨-, z, hz, hout⟩ := r.casts c hc
    rw [hout, mem_singleton] at hv
    exact hv ▸ hz
  intro n hn _ v hv m hm _ hvm
  rw [dr.mem_addNode] at hn
  obtain hn | rfl := hn
  · have hv : v ∈ g.inputsOf n := (dr.inputsOf_of_mem h hn) ▸ hv
    have hlt : v < g.nextVal := h.live_lt v (live_inputsOf hn hv)
    rw [newRank_of_mem h hn]
    by_cases hold : v ∈ olds
    · -- the reader of a replaced value reads the new node
      rw [redirectAny_of_mem _ hold] at hvm
      obtain ⟨rfl, -⟩ | ⟨-, -, hlt'⟩ := producer_cases h dr hm hvm
      · by_cases hnc : n ∈ cs
        · rw [if_pos hnc]
          omega
        · rw [if_neg hnc]
          by_cases hnd : n ∈ ds
          · contradiction
          · have hz : v ∉ zs := r.reads n hn hnc hnd v hv
            obtain rfl : v = f := (r.olds_cases v hold).resolve_right hz
            have := hrank n hn v hv d r.mem r.final
            omega
      · exact absurd hlt' (Nat.lt_irrefl _)
    · rw [redirectAny_of_not_mem _ hold] at hvm
      obtain ⟨-, rfl⟩ | ⟨hm, hvm, -⟩ := producer_cases h dr hm hvm
      · exact absurd hlt (Nat.lt_irrefl _)
      · have hlt := hrank n hn v hv m hm hvm
        rw [newRank_of_mem h hm]
        by_cases hnc : n ∈ cs
        · split_ifs
          · omega
          · omega
        · have hmc : m ∉ cs := by
            intro hmc
            by_cases hnd : n ∈ ds
            · contradiction
            · exact r.reads n hn hnc hnd v hv (hcast m hmc v hvm)
          rw [if_neg hnc, if_neg hmc]
          omega
  · have hv : v ∈ ins := dr.inputsOf ▸ hv
    obtain ⟨hold, hz⟩ := r.apart v hv
    rw [redirectAny_of_not_mem _ hold] at hvm
    obtain ⟨-, rfl⟩ | ⟨hm, hvm, -⟩ := producer_cases h dr hm hvm
    · exact absurd (r.usable _ hv).lt (Nat.lt_irrefl _)
    · have hmc : m ∉ cs := fun hmc => hz (hcast m hmc v hvm)
      have hlt := r.below rank hrank v hv m hm hvm
      rw [newRank_of_mem h hm, if_neg hmc]
      omega

/-- The zone of the new node in the extended graph. -/
theorem zone :
    Zone (k.addNode g.nextNode) g.nextNode g.nextVal (g.nextVal :: zs) cs ds olds := by
  obtain ⟨rank, hrank⟩ := h.acyclic
  have hnot : g.nextNode ∉ g.nodes := fun hmem => Nat.lt_irrefl _ (h.nodes_lt _ hmem)
  have hmem : ∀ n, n ∈ (k.addNode g.nextNode).nodes ↔ n ∈ g.nodes ∨ n = g.nextNode :=
    fun n => dr.mem_addNode
  have hin : ∀ n ∈ g.nodes, (k.addNode g.nextNode).inputsOf n = g.inputsOf n :=
    fun n hn => dr.inputsOf_of_mem h hn
  have hout : ∀ n ∈ g.nodes, (k.addNode g.nextNode).outputsOf n = g.outputsOf n :=
    fun n hn => dr.outputsOf_of_mem h hn
  have hfresh : ∀ n ∈ g.nodes, g.nextVal ∉ g.inputsOf n := fun n hn hv =>
    absurd (h.live_lt _ (live_inputsOf hn hv)) (Nat.lt_irrefl _)
  have hown : (k.addNode g.nextNode).outputsOf g.nextNode = [g.nextVal] := by
    change k.outputsOf g.nextNode = [g.nextVal]
    exact outputsOf_new dr
  exact {
    mem := by simp [hmem]
    left := fun hd => hnot (r.ds_mem _ hd)
    apart := fun hc => hnot (r.cs_mem _ hc)
    out := hown
    first := by simp
    unobserved := by
      intro z hz
      change z ∉ k.outputs
      rw [dr.outputs]
      obtain rfl | hz := mem_cons.mp hz
      · exact fun hv => absurd (h.live_lt _ (live_output hv)) (Nat.lt_irrefl _)
      · exact r.unobserved z hz
    produced := by
      intro z hz
      obtain rfl | hz := mem_cons.mp hz
      · exact ⟨g.nextNode, by simp [hmem], by simp [hown], .inl rfl⟩
      · obtain ⟨n, hzn, hor⟩ := r.produced z hz
        have hn : n ∈ g.nodes := hor.elim (r.cs_mem n) (r.ds_mem n)
        exact ⟨n, by simp [hmem, hn], by rw [hout n hn]; exact hzn, .inr hor⟩
    reads := by
      intro n hn hnc hnd v hv hz
      obtain hn | rfl := (hmem n).mp hn
      · rw [hin n hn] at hv
        obtain rfl | hz := mem_cons.mp hz
        · exact hfresh n hn hv
        · exact r.reads n hn hnc hnd v hv hz
      · have hv : v ∈ ins := dr.inputsOf ▸ hv
        obtain rfl | hz := mem_cons.mp hz
        · exact absurd (r.usable _ hv).lt (Nat.lt_irrefl _)
        · exact (r.apart v hv).2 hz
    casts := by
      intro c hc
      have hcn := r.cs_mem c hc
      obtain ⟨⟨z, hz, hcin⟩, z', hz', hcout⟩ := r.casts c hc
      rw [hin c hcn, hout c hcn]
      exact ⟨⟨z, mem_cons_of_mem _ hz, hcin⟩, z', mem_cons_of_mem _ hz', hcout⟩
    dropped := by
      intro n hn v hv
      rw [hout n (r.ds_mem n hn)] at hv
      obtain hold | ⟨hz, hc⟩ := r.dropped n hn v hv
      · exact .inl hold
      · refine .inr ⟨mem_cons_of_mem _ hz, fun c hcs => ?_⟩
        rw [hin c (r.cs_mem c hcs)]
        exact hc c hcs
    olds_produced := by
      intro v hv
      obtain ⟨n, hn, hvn⟩ := r.olds_produced v hv
      have hn' := r.ds_mem n hn
      exact ⟨n, hn, by simp [hmem, hn'], by rw [hout n hn']; exact hvn⟩
    survivor := by
      intro v hv
      exact (r.apart v (dr.inputsOf ▸ hv)).1
    order := ⟨_, r.rankedAfter h dr hrank⟩ }

theorem wellFormed (hid : g.FreshId id) :
    ((k.addNode g.nextNode).substitute olds g.nextVal ds).WellFormed := by
  apply (r.zone h dr).wellFormed
  exact dr.wellFormed_addNode h r.usable (by simpa using hid)

/-- The new node computes the final value, so the graph yields what it yielded. -/
theorem assigns (hid : g.FreshId id) {args outs xs : List T} {e : ValRef → Option T} {x : T}
    (he : g.Assigns exec args outs e) (hf : e f = some x)
    (hcast : ∀ c ∈ cs, exec c (g.codeOf c) [x] = .ok [x]) (hxs : ins.map e = xs.map some)
    (hys : exec g.nextNode code xs = .ok [x]) :
    ∃ e', ((k.addNode g.nextNode).substitute olds g.nextVal ds).Assigns exec args outs e' := by
  have hwf : (k.addNode g.nextNode).WellFormed := dr.wellFormed_addNode h r.usable (by simpa using hid)
  have he₁ := dr.assigns_addNode h he r.usable (fun v hv t => he.constants v t (r.live v hv)) hxs hys
    (by simpa using hid)
  have hreads : ins.map (fun v => if v < g.nextVal then e v else [x][v - g.nextVal]?) =
      xs.map some := by
    rw [← hxs]
    exact map_congr_left fun v hv => if_pos (r.usable v hv).lt
  have hown : ∃ xs, ((k.addNode g.nextNode).inputsOf g.nextNode).map
      (fun v => if v < g.nextVal then e v else [x][v - g.nextVal]?) = xs.map some ∧
      exec g.nextNode ((k.addNode g.nextNode).codeOf g.nextNode) xs = .ok [x] := by
    rw [show (k.addNode g.nextNode).inputsOf g.nextNode = ins from dr.inputsOf,
      show (k.addNode g.nextNode).codeOf g.nextNode = code from dr.codeOf]
    exact ⟨xs, hreads, hys⟩
  refine ⟨_, (r.zone h dr).assigns hwf (he₁.off g.nextNode) ?_ ?_ hown⟩
  · intro v hv hz
    rw [mem_cons, not_or] at hz
    obtain rfl : v = f := (r.olds_cases v hv).resolve_right hz.2
    rw [if_pos (h.live_lt v (live_outputsOf r.mem r.final)), hf]
  · intro c hc
    rw [show (k.addNode g.nextNode).codeOf c = g.codeOf c from dr.codeOf_of_mem h (r.cs_mem c hc)]
    exact hcast c hc

end Region

/-- What a step keeps: the graph computes on `args` what it computed, and nodes and
values that were there keep their outputs and producers. -/
structure Evolves (exec : Exec T S) (args : List T) (g g' : Graph T S) : Prop where
  wf : g'.WellFormed
  yields : ∀ outs, g.Yields exec args outs → g'.Yields exec args outs
  nextNode : g.nextNode ≤ g'.nextNode
  nextVal : (g.nextVal : Nat) ≤ g'.nextVal
  outputsOf : ∀ n < g.nextNode, g'.outputsOf n = g.outputsOf n
  node : ∀ v < g.nextVal, (g'.valAt v).node = (g.valAt v).node

namespace Evolves

variable {args : List T}

theorem refl (h : g.WellFormed) : Evolves exec args g g :=
  ⟨h, fun _ hy => hy, le_rfl, le_rfl, fun _ _ => rfl, fun _ _ => rfl⟩

theorem trans (h : Evolves exec args g g') (h' : Evolves exec args g' g'') :
    Evolves exec args g g'' where
  wf := h'.wf
  yields := fun outs hy => h'.yields outs (h.yields outs hy)
  nextNode := h.nextNode.trans h'.nextNode
  nextVal := h.nextVal.trans h'.nextVal
  outputsOf := fun n hn => (h'.outputsOf n (hn.trans_le h.nextNode)).trans (h.outputsOf n hn)
  node := fun v hv => (h'.node v (Nat.lt_of_lt_of_le hv h.nextVal)).trans (h.node v hv)

end Evolves

/-- The outputs of the nodes still point back at them, whether they are listed or not. -/
def Snapshot (g : Graph T S) (l : List NodeRef) : Prop :=
  ∀ n ∈ l, n < g.nextNode ∧ ∀ v ∈ g.outputsOf n, v < g.nextVal ∧ (g.valAt v).node = some n

theorem WellFormed.snapshot (h : g.WellFormed) : g.Snapshot g.nodes := fun n hn =>
  ⟨h.nodes_lt n hn, fun v hv => ⟨h.live_lt v (live_outputsOf hn hv), h.node_eq n hn v hv⟩⟩

theorem Snapshot.evolves (hs : g.Snapshot l) (h : Evolves exec args g g') : g'.Snapshot l := by
  intro n hn
  obtain ⟨hlt, hout⟩ := hs n hn
  refine ⟨hlt.trans_le h.nextNode, fun v hv => ?_⟩
  rw [h.outputsOf n hlt] at hv
  obtain ⟨hv, hnode⟩ := hout v hv
  exact ⟨Nat.lt_of_lt_of_le hv h.nextVal, by rw [h.node v hv, hnode]⟩

/-- A node of the snapshot whose result somebody reads is still listed. -/
theorem Snapshot.mem_of_read (hs : g.Snapshot l) (h : g.WellFormed) {n m : NodeRef} (hn : n ∈ l)
    {v : ValRef} (hv : v ∈ g.outputsOf n) (hm : m ∈ g.nodes) (hread : v ∈ g.inputsOf m) :
    n ∈ g.nodes :=
  (h.node_mem v n (live_inputsOf hm hread) ((hs n hn).2 v hv).2).1

theorem Region.evolves {f : ValRef} {d : NodeRef} {zs : List ValRef}
    {cs ds : List NodeRef} {olds : List ValRef} {code : NodeCode T S} {id : String}
    (h : g.WellFormed) (r : Region g ins f d zs cs ds olds) (dr : Draft g k code ins [id])
    (hid : g.FreshId id) (hsem : ∀ outs e, g.Assigns exec args outs e → ∃ x xs, e f = some x ∧
      (∀ c ∈ cs, exec c (g.codeOf c) [x] = .ok [x]) ∧ ins.map e = xs.map some ∧
      exec g.nextNode code xs = .ok [x]) :
    Evolves exec args g ((k.addNode g.nextNode).substitute olds g.nextVal ds) := by
  have hrew := ((r.zone h dr).substituted (dr.wellFormed_addNode h r.usable
    (by simpa using hid))).rewiring
  constructor
  case wf => exact r.wellFormed h dr hid
  case yields =>
    intro outs hy
    obtain ⟨hlen, e, he⟩ := assigns_of_yields h hy
    obtain ⟨x, xs, hf, hcast, hxs, hys⟩ := hsem outs e he
    obtain ⟨e', he'⟩ := r.assigns h dr hid he hf hcast hxs hys
    apply yields_of_assigns (r.wellFormed h dr hid) _ he'
    rw [hrew.inputs_eq, hlen]
    exact congrArg List.length dr.inputs.symm
  case nextNode =>
    rw [hrew.nextNode_eq]
    exact Nat.le_of_lt (dr.nextNode ▸ Nat.lt_succ_self g.nextNode)
  case nextVal =>
    rw [hrew.nextVal_eq]
    exact dr.nextVal ▸ Nat.le_add_right g.nextVal _
  case outputsOf =>
    intro n hn
    rw [hrew.outputsOf_eq]
    exact congrArg Node.outputs (dr.nodeAt n (Nat.ne_of_lt hn))
  case node =>
    intro v hv
    rw [hrew.node_eq]
    exact dr.node v hv

/-- The name `create_node` gives. -/
def nodeName (g : Graph T S) (op : OpType) (name : String) : String :=
  if name = "" then opTypeToString op ++ "_" ++ toString g.nextNodeId else name

/-- A node with its inputs and attributes, neither listed nor with outputs yet. -/
def draftNode (g : Graph T S) (op : OpType) (name : String) (ins : List ValRef) (attrs : Attrs T) :
    NodeRef × Graph T S :=
  let q := g.createNode op name
  let k := ins.foldl (fun h v => h.addInput q.1 v) q.2
  (q.1, k.setNode q.1 { k.nodeAt q.1 with attrs := attrs })

/-- A node with one output, whose id is the node's name with a suffix; the node is
listed last. -/
def buildNode (g : Graph T S) (op : OpType) (name : String) (ins : List ValRef) (attrs : Attrs T)
    (suffix : String) (shape : List Int) (dtype : DType) : ValRef × Graph T S :=
  let q := g.draftNode op name ins attrs
  let v := q.2.createValue ((q.2.nodeAt q.1).name ++ suffix) shape dtype
  (v.1, (v.2.addOutput q.1 v.1).addNode q.1)

theorem name_addInputs (k : Graph T S) (n : NodeRef) (ins : List ValRef) :
    ((ins.foldl (fun h v => h.addInput n v) k).nodeAt n).name = (k.nodeAt n).name := by
  induction ins generalizing k with
  | nil => rfl
  | cons v vs ih =>
    rw [foldl_cons, ih]
    simp [addInput, addUse, setVal, setNode]

/-- The extended graph, and the value it hands out. -/
theorem buildNode_draft (h : g.WellFormed) (op : OpType) (name : String) (attrs : Attrs T)
    (suffix : String) (shape : List Int) (dtype : DType) (hins : ∀ v ∈ ins, g.Usable v) :
    ∃ k, Draft g k { opType := op, attrs := attrs } ins [g.nodeName op name ++ suffix] ∧
      g.buildNode op name ins attrs suffix shape dtype = (g.nextVal, k.addNode g.nextNode) := by
  have d := ((Draft.createNode g op name).addInputs ins).setAttrs attrs
  generalize hk : ins.foldl (fun h v => h.addInput g.nextNode v) (g.createNode op name).2 = k at d
  have hname : (k.nodeAt g.nextNode).name = g.nodeName op name := by
    rw [← hk, name_addInputs]
    simp [createNode, nodeName, setNode]
  have hnext : k.nextVal = g.nextVal := d.nextVal
  have hlt : ∀ v ∈ [] ++ ins, v < g.nextVal := fun v hv => (hins v hv).lt
  refine ⟨_, d.createOutput h hlt not_mem_nil shape dtype, ?_⟩
  rw [buildNode, draftNode, show (g.createNode op name).1 = g.nextNode from rfl, hk]
  simp only [setNode, Function.update_self, hname, createValue, hnext]

end Graph

end Tenzor.Jit
