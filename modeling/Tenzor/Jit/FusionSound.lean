import Tenzor.Jit.Folding

/-!
# The folding passes preserve `forward`

One round of a pass folds at most one match. `FusionPass.Meets` is the condition
on the match under which the fold is sound; a run in which every match meets it
computes the same outputs.
-/

open Function (update update_of_ne update_self)

namespace Tenzor.Jit

open Throwing List

namespace Graph

variable {T S : Type} (K : Kernels T) (g : Graph T S)

/-! ## The condition on a match -/

/-- No generated kernel stands for the node. -/
def Plain (n : NodeRef) : Prop := (g.attrsOf n).hasAttr "fusion_kind" = false

instance (n : NodeRef) : Decidable (g.Plain n) :=
  inferInstanceAs (Decidable ((g.attrsOf n).hasAttr "fusion_kind" = false))

/-- A cast stepped over returns what it is given, and only the next node of the
match sees its result. -/
structure Passed (c : NodeRef) : Prop where
  identity : ∀ x, K.leaf c .cast (g.attrsOf c) [x] = .ok [x]
  single : (g.outputsOf c).length = 1
  unobserved : ∀ v ∈ g.outputsOf c, v ∉ g.outputs

/-- The consumer `r` may be folded into `s`: the tensors in between are no graph
outputs, and `r` reads the result of `s` as its operand. -/
structure Foldable (s r : NodeRef) : Prop where
  plain : g.Plain s ∧ g.Plain r
  single : (g.outputsOf s).length = 1 ∧ (g.outputsOf r).length = 1
  unobserved : ∀ v ∈ g.outputsOf s, v ∉ g.outputs
  casts : ∀ o ∈ g.outputsOf s, ∀ cs w, g.walk 8 o = some (cs, w, r) → ∀ c ∈ cs, g.Passed K c

/-- The consumer reads the value as its first operand. -/
def FirstOperand (s r : NodeRef) : Prop :=
  ∀ o ∈ g.outputsOf s, ∀ cs w, g.walk 8 o = some (cs, w, r) → (g.inputsOf r).head? = some w

/-- The casts that `resolve_constant_tensor` sees through return what they are given. -/
def SeenThrough : Nat → ValRef → Prop
  | 0, _ => True
  | fuel + 1, v =>
    g.constants (g.idOf v) = none → ∀ m, g.producer v = some m →
      (g.opOf m = .constant → g.Plain m) ∧
      ∀ w, g.inputsOf m = [w] → g.opOf m = .cast →
        (∀ x, K.leaf m .cast (g.attrsOf m) [x] = .ok [x]) ∧ SeenThrough fuel w

/-- What a compile-time fold of the normalization takes for granted. -/
structure FoldsBatchNorm (conv bn : NodeRef) : Prop where
  unmarked : (g.attrsOf conv).getBoolAttr "fused_relu" = false
  eps : (g.attrsOf bn).hasAttr "eps" = true
  bias : ∀ b, (g.inputsOf conv)[2]? = some b → (g.resolve K b).isSome = true
  seen : ∀ v ∈ (g.inputsOf bn).tail ++ (g.inputsOf conv).tail,
    g.SeenThrough K (g.nodes.length + 1) v
  installable : g.Installable conv

end Graph

namespace FusionPass

open Graph

variable {T S : Type} (K : Kernels T)

/-- The match of the pass at a node, if there is one, meets the condition. -/
def Meets (pass : FusionPass) (g : Graph T S) (n : NodeRef) : Prop :=
  match pass with
  | .convBatchNormRelu => ∀ o bn b relu, g.matchNext n .conv2d = some (o, bn) →
      g.matchNext bn .batchNorm2d = some (b, relu) → g.opOf relu = .relu →
      (g.attrsOf bn).getBoolAttr "training" = false →
      g.Foldable K n bn ∧ g.FirstOperand n bn ∧ g.Foldable K bn relu ∧ g.FirstOperand bn relu ∧
        g.FoldsBatchNorm K n bn
  | .convBatchNorm => ∀ o bn, g.matchNext n .conv2d = some (o, bn) → g.opOf bn = .batchNorm2d →
      (g.attrsOf bn).getBoolAttr "training" = false →
      g.Foldable K n bn ∧ g.FirstOperand n bn ∧ g.FoldsBatchNorm K n bn
  | .convRelu => ∀ o relu, g.matchNext n .conv2d = some (o, relu) → g.opOf relu = .relu →
      g.Foldable K n relu ∧ g.FirstOperand n relu
  | .linearRelu => ∀ o relu, g.matchNext n .linear = some (o, relu) → g.opOf relu = .relu →
      g.Foldable K n relu ∧ g.FirstOperand n relu
  | .matMulAdd => ∀ o add bias, g.matchNext n .matMul = some (o, add) → g.opOf add = .add →
      g.biasOperand o add = some bias → (g.valAt bias).shape.length = 1 →
      g.Foldable K n add ∧ (g.inputsOf n).length = 2 ∧
        (g.attrsOf n).getBoolAttr "fused_bias" = false ∧
        (g.attrsOf n).getBoolAttr "fused_relu" = false
  | .layerNormActivation => ∀ o act, g.matchNext n .layerNorm = some (o, act) →
      g.opOf act = .relu ∨ g.opOf act = .gelu → g.Foldable K n act ∧ g.FirstOperand n act

/-- The operations a fold keeps. -/
def anchors : List OpType := [.conv2d, .linear, .matMul, .layerNorm]

end FusionPass

namespace Graph

variable {T S : Type} {K : Kernels T} {g g₁ : Graph T S} (sc : Scalars T)
  (fwd : S → List T → Except Exn (List T)) {n : NodeRef}

/-- The interpreter. -/
abbrev interp (K : Kernels T) (sc : Scalars T) (fwd : S → List T → Except Exn (List T)) : Exec T S :=
  control sc K.leaf fwd

theorem interp_of_op {c : NodeCode T S} (hif : c.opType ≠ .ifOp) (hloop : c.opType ≠ .loop)
    (xs : List T) : interp K sc fwd n c xs = K.leaf n c.opType c.attrs xs := by
  unfold interp control
  split
  · contradiction
  · contradiction
  · rfl

theorem interp_plain (hplain : g.Plain n) {op : OpType} (hop : g.opOf n = op) (hif : op ≠ .ifOp)
    (hloop : op ≠ .loop) (xs : List T) :
    interp K sc fwd n (g.codeOf n) xs = K.executePlain op (g.attrsOf n) xs := by
  have hop' : (g.codeOf n).opType = op := hop
  rw [interp_of_op sc fwd (by rw [hop']; exact hif) (by rw [hop']; exact hloop), hop']
  unfold Kernels.leaf
  rw [if_neg]
  · rfl
  · intro hattr
    have := hplain
    rw [show (g.codeOf n).attrs = g.attrsOf n from rfl, this] at hattr
    exact absurd hattr (by decide)

/-- What one fold keeps. -/
structure FoldKeeps (g g' : Graph T S) (exec : Exec T S) : Prop where
  wf : g'.WellFormed
  yields : ∀ ins outs, g.Yields exec ins outs → g'.Yields exec ins outs
  opOf : ∀ n, g'.opOf n = g.opOf n
  anchors : ∀ n ∈ g.nodes, g.opOf n ∈ FusionPass.anchors → n ∈ g'.nodes

theorem FoldKeeps.refl (h : g.WellFormed) (exec : Exec T S) : FoldKeeps g g exec :=
  ⟨h, fun _ _ hy => hy, fun _ => rfl, fun _ hn _ => hn⟩

section Values

variable {sc fwd} {ins outs : List T} {e : ValRef → Option T} {exec : Exec T S} {v : ValRef}
  {x t : T}

/-- A node that is listed has a tensor for everything it reads. -/
theorem Assigns.bound (he : g.Assigns exec ins outs e) {n : NodeRef} (hn : n ∈ g.nodes)
    (hv : v ∈ g.inputsOf n) : ∃ x, e v = some x := by
  obtain ⟨xs, -, hxs, -, -⟩ := he.nodes n hn
  have hmem : e v ∈ xs.map some := hxs ▸ mem_map_of_mem hv
  obtain ⟨x, -, hx⟩ := mem_map.mp hmem
  exact ⟨x, hx.symm⟩

theorem Leads.bound {o w : ValRef} {cs : List NodeRef} {r : NodeRef} (h : g.Leads o cs w r)
    (he : g.Assigns exec ins outs e) : ∃ x, e o = some x := by
  cases h with
  | here hn hv _ => exact he.bound hn hv
  | step hc _ hin _ _ _ => exact he.bound hc (by simp [hin])

/-- A `Constant` node hands out its attribute. -/
theorem constant_value (h : g.WellFormed) (he : g.Assigns (interp K sc fwd) ins outs e)
    {m : NodeRef} (hv : g.Live v) (hx : e v = some x) (hp : g.producer v = some m)
    (hop : g.opOf m = .constant) (hplain : g.Plain m)
    (ht : (g.attrsOf m).getTensorAttr "value" = some t) : x = t := by
  obtain ⟨hm, hvm⟩ := h.producer_mem hv hp
  obtain ⟨i, hi⟩ := getElem?_of_mem hvm
  obtain ⟨xs, ys, hxs, hys, hw⟩ := he.nodes m hm
  have hget : ys[i]? = some x := by rw [← hw i v hi, hx]
  rw [interp_plain sc fwd hplain hop (by decide) (by decide)] at hys
  have hattr : (g.attrsOf m).hasAttr "value" = true := by
    have htensor : (g.attrsOf m).hasTensorAttr "value" = true := by
      unfold Attrs.hasTensorAttr
      unfold Attrs.getTensorAttr at ht
      simp [ht]
    simp [Attrs.hasAttr, htensor]
  simp only [Kernels.executePlain, hattr, ht, Except.ok.injEq] at hys
  subst hys
  obtain ⟨hlt, heq⟩ := List.getElem?_eq_some_iff.mp hget
  simpa using heq.symm

/-- Folding nodes see the tensor a value holds at run time. -/
theorem resolveConstantTensor_value (h : g.WellFormed) (he : g.Assigns (interp K sc fwd) ins outs e)
    {fuel : Nat} (hv : g.Live v) (hx : e v = some x) (hr : g.resolveConstantTensor fuel v = some t)
    (hseen : g.SeenThrough K fuel v) : x = t := by
  induction fuel generalizing v x with
  | zero => simp [resolveConstantTensor] at hr
  | succ fuel ih =>
    rw [resolveConstantTensor] at hr
    cases hc : g.constants (g.idOf v) with
    | some t' =>
      simp only [hc, Option.some.injEq] at hr
      subst hr
      rw [he.constants v t' hv hc] at hx
      exact (Option.some.inj hx).symm
    | none =>
      simp only [hc] at hr
      cases hp : g.producer v with
      | none => simp [hp] at hr
      | some m =>
        simp only [hp] at hr
        obtain ⟨hplain, hcast⟩ := hseen hc m hp
        by_cases hop : g.opOf m = .constant
        · rw [if_pos hop] at hr
          exact constant_value h he hv hx hp hop (hplain hop) hr
        · rw [if_neg hop] at hr
          split at hr
          · next w hin =>
              by_cases hopc : g.opOf m = .cast
              swap
              · simp [hopc] at hr
              rw [if_pos hopc] at hr
              obtain ⟨hid, hseen'⟩ := hcast w hin hopc
              obtain ⟨hm, hvm⟩ := h.producer_mem hv hp
              obtain ⟨i, hi⟩ := getElem?_of_mem hvm
              obtain ⟨xs, ys, hxs, hys, hw⟩ := he.nodes m hm
              have hget : ys[i]? = some x := by rw [← hw i v hi, hx]
              obtain ⟨y, hy⟩ := he.bound hm (by simp [hin] : w ∈ g.inputsOf m)
              obtain rfl : xs = [y] := by
                have hxs' : xs.map some = [some y] := by simpa [hin, hy] using hxs.symm
                simpa using hxs'
              have hopc' : (g.codeOf m).opType = .cast := hopc
              rw [interp_of_op sc fwd (by rw [hopc']; decide) (by rw [hopc']; decide), hopc'] at hys
              have hys' : ys = [y] := Except.ok.inj (hys.symm.trans (hid y))
              subst hys'
              obtain ⟨hlt, heq⟩ := List.getElem?_eq_some_iff.mp hget
              obtain rfl : y = x := by simpa using heq
              exact ih (live_inputsOf hm (by simp [hin])) hy hr hseen'
          · exact absurd hr (by simp)

theorem resolve_value (h : g.WellFormed) (he : g.Assigns (interp K sc fwd) ins outs e)
    (hv : g.Live v) (hx : e v = some x) (hr : g.resolve K v = some t)
    (hseen : g.SeenThrough K (g.nodes.length + 1) v) : x = t :=
  resolveConstantTensor_value h he hv hx (Option.filter_eq_some_iff.mp hr).1 hseen

end Values

/-! ## One consumer -/

section Pair

variable {sc fwd} {s r : NodeRef} {o p w : ValRef} {cs : List NodeRef} {op : OpType}
  {ins outs : List T} {e : ValRef → Option T}

/-- A match as the passes find it. -/
structure Matched (g : Graph T S) (s : NodeRef) (o : ValRef) (cs : List NodeRef) (w : ValRef)
    (r : NodeRef) (p : ValRef) : Prop where
  mem : s ∈ g.nodes
  out : g.outputsOf s = [o]
  op : g.opOf s ≠ .cast
  leads : g.Leads o cs w r
  consumerOp : g.opOf r ≠ .cast
  consumerOut : g.outputsOf r = [p]
  unobserved : ∀ v ∈ g.zone o cs, v ∉ g.outputs

namespace Matched

variable (mt : g.Matched s o cs w r p)

include mt

theorem rank_lt {rank : NodeRef → Nat} (hr : g.Ranked rank) : rank s < rank r :=
  mt.leads.rank_lt hr mt.mem (by simp [mt.out])

theorem ne (h : g.WellFormed) : s ≠ r := by
  obtain ⟨rank, hrank⟩ := h.acyclic
  intro he
  exact Nat.lt_irrefl _ (he ▸ mt.rank_lt hrank)

theorem not_mem_casts : s ∉ cs := fun hs => mt.op (mt.leads.casts hs).2.1

theorem consumer_not_mem_casts : r ∉ cs := fun hr => mt.consumerOp (mt.leads.casts hr).2.1

/-- Preparing the survivor keeps the match, if the survivor reads nothing of it. -/
theorem prepared (h : g.WellFormed) (pr : Prepared g g₁ s)
    (hz : ∀ z ∈ g.zone o cs, z ∉ g₁.inputsOf s) : g₁.Matched s o cs w r p where
  mem := by
    rw [pr.nodes]
    exact mt.mem
  out := by rw [pr.outputsOf, mt.out]
  op := by
    rw [pr.opOf]
    exact mt.op
  leads := mt.leads.congr mt.not_mem_casts (mt.ne h) pr.nodes pr.outputsOf pr.opOf pr.inputsOf hz
  consumerOp := by
    rw [pr.opOf]
    exact mt.consumerOp
  consumerOut := by rw [pr.outputsOf, mt.consumerOut]
  unobserved := by
    have hzone : g₁.zone o cs = g.zone o cs := by
      rw [Graph.zone, Graph.zone, funext pr.outputsOf]
    rw [hzone, pr.outputs]
    exact mt.unobserved

theorem zone (h : g.WellFormed) : Zone g s o (g.zone o cs) cs [r] [p] := by
  obtain ⟨rank, hrank⟩ := h.acyclic
  have hold : ∀ v ∈ [p], ∃ d ∈ [r], d ∈ g.nodes ∧ v ∈ g.outputsOf d := by
    intro v hv
    exact ⟨r, by simp, mt.leads.consumer.1, by simp [mt.consumerOut, hv]⟩
  have hbelow : ∀ d ∈ [r], rank s < rank d := by
    intro d hd
    rw [mem_singleton] at hd
    rw [hd]
    exact mt.rank_lt hrank
  have ho : o ∈ g.outputsOf s := by simp [mt.out]
  obtain ⟨hsurvivor, horder⟩ := rankedAfter_of_below h hrank mt.mem ho hold hbelow
  exact {
    mem := mt.mem
    left := by
      rw [mem_singleton]
      exact mt.ne h
    apart := mt.not_mem_casts
    out := mt.out
    first := by simp [Graph.zone]
    unobserved := mt.unobserved
    produced := by
      intro z hz
      rw [Graph.zone, mem_cons] at hz
      obtain rfl | hz := hz
      · exact ⟨s, mt.mem, by simp [mt.out], .inl rfl⟩
      · obtain ⟨c, hc, hzc⟩ := mem_flatMap.mp hz
        exact ⟨c, (mt.leads.casts hc).1, hzc, .inr (.inl hc)⟩
    reads := by
      intro n hn hnc hnd v hv hz
      exact (mt.leads.reads hz hn hv).elim hnc fun he => hnd (by simp [he])
    casts := fun c hc => (mt.leads.casts hc).2.2
    dropped := by
      intro d hd v hv
      rw [mem_singleton] at hd
      rw [hd, mt.consumerOut] at hv
      exact .inl hv
    olds_produced := hold
    survivor := hsurvivor
    order := ⟨rank, horder⟩ }

end Matched

theorem absorb_eq_substitute (hs : g.outputsOf s = [o]) (hr : g.outputsOf r = [p]) :
    g.absorb s r = g.substitute [p] o [r] := by
  rw [absorb, hs, hr]
  rfl

/-- A zone whose survivor computes the absorbed result yields what the graph yielded. -/
theorem Zone.keeps {zs : List ValRef} {ds : List NodeRef} {olds : List ValRef}
    (h : g.WellFormed) (pr : Prepared g g₁ s) (z : Zone g₁ s o zs cs ds olds)
    (hcast : ∀ c ∈ cs, g.opOf c = .cast ∧ ∀ x, K.leaf c .cast (g.attrsOf c) [x] = .ok [x])
    (hds : ∀ d ∈ ds, g.opOf d ∉ FusionPass.anchors)
    (hsem : ∀ ins outs e, g.Assigns (interp K sc fwd) ins outs e → ∃ e₁ x,
      g₁.AssignsOff (interp K sc fwd) s ins outs e₁ ∧ (∀ v ∈ olds, v ∉ zs → e₁ v = some x) ∧
      ∃ xs, (g₁.inputsOf s).map e₁ = xs.map some ∧
        interp K sc fwd s (g₁.codeOf s) xs = .ok [x]) :
    FoldKeeps g (g₁.substitute olds o ds) (interp K sc fwd) := by
  have r := (z.substituted pr.wf).rewiring
  refine ⟨z.wellFormed pr.wf, fun ins outs hy => ?_, fun n => ?_, fun n hn ha => ?_⟩
  · obtain ⟨hlen, e, he⟩ := assigns_of_yields h hy
    obtain ⟨e₁, x, he₁, hold, hs⟩ := hsem ins outs e he
    have hlen₁ : ins.length = (g₁.substitute olds o ds).inputs.length := by
      rw [r.inputs_eq, pr.graphInputs, hlen]
    apply yields_of_assigns (z.wellFormed pr.wf) hlen₁ (z.assigns pr.wf he₁ hold _ hs)
    intro c hc
    have hcs : c ≠ s := fun heq => z.apart (heq ▸ hc)
    obtain ⟨hop, hid⟩ := hcast c hc
    have hop' : (g.codeOf c).opType = .cast := hop
    rw [pr.codeOf c hcs, interp_of_op sc fwd (by rw [hop']; decide) (by rw [hop']; decide), hop']
    exact hid x
  · have hcode := r.codeOf_eq n
    exact (congrArg NodeCode.opType hcode).trans (pr.opOf n)
  · rw [r.nodes_eq, pr.nodes]
    simp only [mem_filter, decide_eq_true_eq]
    exact ⟨hn, fun hd => hds n hd ha⟩

/-- Folding one consumer. -/
theorem Matched.keeps (mt : g.Matched s o cs w r p) (h : g.WellFormed) (pr : Prepared g g₁ s)
    (hz : ∀ z ∈ g.zone o cs, z ∉ g₁.inputsOf s) (hpass : ∀ c ∈ cs, g.Passed K c)
    (hr : g.opOf r ∉ FusionPass.anchors)
    (hsem : ∀ ins outs e, g.Assigns (interp K sc fwd) ins outs e → ∃ e₁ x,
      g₁.AssignsOff (interp K sc fwd) s ins outs e₁ ∧ e₁ p = some x ∧
      ∃ xs, (g₁.inputsOf s).map e₁ = xs.map some ∧
        interp K sc fwd s (g₁.codeOf s) xs = .ok [x]) :
    FoldKeeps g (g₁.absorb s r) (interp K sc fwd) := by
  have mt₁ := mt.prepared h pr hz
  rw [absorb_eq_substitute mt₁.out mt₁.consumerOut]
  apply (mt₁.zone pr.wf).keeps h pr
  · exact fun c hc => ⟨(mt.leads.casts hc).2.1, (hpass c hc).identity⟩
  · intro d hd
    rw [mem_singleton] at hd
    rw [hd]
    exact hr
  · intro ins outs e he
    obtain ⟨e₁, x, he₁, hp, hs⟩ := hsem ins outs e he
    refine ⟨e₁, x, he₁, fun v hv _ => ?_, hs⟩
    rw [mem_singleton] at hv
    rw [hv, hp]

/-- What the passes find is a match once the condition holds. -/
theorem Foldable.matched (h : g.WellFormed) (hs : s ∈ g.nodes) (hm : g.matchNext s op = some (o, r))
    (hop : op ≠ .cast) (hopr : g.opOf r ≠ .cast) (hf : g.Foldable K s r) :
    ∃ cs w p, g.walk 8 o = some (cs, w, r) ∧ g.Matched s o cs w r p ∧ (∀ c ∈ cs, g.Passed K c) ∧
      g.opOf s = op := by
  unfold matchNext at hm
  split_ifs at hm with hops
  split at hm
  · exact absurd hm (by simp)
  · next o' os hout =>
      simp only [Option.map_eq_some_iff, nextOp, Prod.mk.injEq] at hm
      obtain ⟨r', ⟨⟨cs, w, r''⟩, hwalk, rfl⟩, rfl, rfl⟩ := hm
      have hos : os = [] := by simpa [hout] using hf.single.1
      obtain ⟨p, hp⟩ := length_eq_one_iff.mp hf.single.2
      have hpass := hf.casts o' (by simp [hout]) cs w hwalk
      have hlead := leads_of_walk h.exact hwalk fun c hc => (hpass c hc).single
      refine ⟨cs, w, p, hwalk, ⟨hs, hos ▸ hout, hops ▸ hop, hlead, hopr, hp, ?_⟩, hpass, hops⟩
      intro v hv
      rw [zone, mem_cons] at hv
      obtain rfl | hv := hv
      · exact hf.unobserved v (by simp [hout])
      · obtain ⟨c, hc, hvc⟩ := mem_flatMap.mp hv
        exact (hpass c hc).unobserved v hvc

/-- The tensor of the survivor arrives at its consumer. -/
theorem Matched.values (mt : g.Matched s o cs w r p) (hpass : ∀ c ∈ cs, g.Passed K c)
    (he : g.Assigns (interp K sc fwd) ins outs e) : ∃ x, e o = some x ∧ e w = some x := by
  obtain ⟨x, hx⟩ := mt.leads.bound he
  have heq := fun c (hc : c ∈ cs) => he.nodes c (mt.leads.casts hc).1
  refine ⟨x, hx, mt.leads.value hx heq fun c hc y => ?_⟩
  have hop' : (g.codeOf c).opType = .cast := (mt.leads.casts hc).2.1
  rw [interp_of_op sc fwd (by rw [hop']; decide) (by rw [hop']; decide), hop']
  exact (hpass c hc).identity y

/-- A unary consumer that reads the result of the survivor first. -/
theorem Matched.unary (mt : g.Matched s o cs w r p) (hpass : ∀ c ∈ cs, g.Passed K c)
    (hfirst : (g.inputsOf r).head? = some w) (hplain : g.Plain r) {f : T → Except Exn T}
    (hop : g.opOf r = op) (hif : op ≠ .ifOp) (hloop : op ≠ .loop)
    (hexec : ∀ xs, K.executePlain op (g.attrsOf r) xs = Kernels.unary f xs)
    (he : g.Assigns (interp K sc fwd) ins outs e) :
    ∃ y z, e o = some y ∧ f y = .ok z ∧ e p = some z := by
  obtain ⟨y, hy, hw⟩ := mt.values hpass he
  obtain ⟨xs, ys, hxs, hys, hout⟩ := he.nodes r mt.leads.consumer.1
  rw [interp_plain sc fwd hplain hop hif hloop, hexec] at hys
  obtain ⟨ws, hin⟩ := head?_eq_some_iff.mp hfirst
  rw [hin, map_cons, hw] at hxs
  cases xs with
  | nil => simp at hxs
  | cons x xs =>
    obtain ⟨rfl, -⟩ : y = x ∧ _ := by simpa using hxs
    simp only [Kernels.unary, bind_eq_ok, pure_eq_ok] at hys
    obtain ⟨z, hz, rfl⟩ := hys
    refine ⟨y, z, hy, hz, ?_⟩
    simpa using hout 0 p (by simp [mt.consumerOut])

theorem Matched.not_read (mt : g.Matched s o cs w r p) (h : g.WellFormed) {z : ValRef}
    (hz : z ∈ g.zone o cs) : z ∉ g.inputsOf s := fun hmem =>
  (mt.leads.reads hz mt.mem hmem).elim mt.not_mem_casts (mt.ne h)

/-- Marking the survivor and folding a unary consumer. -/
theorem Matched.mark (mt : g.Matched s o cs w r p) (h : g.WellFormed)
    (hpass : ∀ c ∈ cs, g.Passed K c) (hfirst : (g.inputsOf r).head? = some w)
    (hplain : g.Plain s ∧ g.Plain r) {act : T → Except Exn T} {opr : OpType}
    (hopr : g.opOf r = opr) (hopr' : opr = .relu ∨ opr = .gelu)
    (hact : ∀ xs, K.executePlain opr (g.attrsOf r) xs = Kernels.unary act xs)
    (hop : g.opOf s = op) (hop' : op ∈ FusionPass.anchors) {f : Attrs T → Attrs T}
    (hkind : (f (g.attrsOf s)).hasAttr "fusion_kind" = (g.attrsOf s).hasAttr "fusion_kind")
    (hmark : ∀ xs ys y z, K.executePlain op (g.attrsOf s) xs = .ok ys → ys[0]? = some y →
      act y = .ok z → K.executePlain op (f (g.attrsOf s)) xs = .ok [z]) :
    FoldKeeps g ((g.mapAttrs s f).absorb s r) (interp K sc fwd) := by
  have hne : op ≠ .ifOp ∧ op ≠ .loop := by
    constructor
    · rintro rfl
      exact absurd hop' (by decide)
    · rintro rfl
      exact absurd hop' (by decide)
  have hner : opr ≠ .ifOp ∧ opr ≠ .loop ∧ opr ∉ FusionPass.anchors := by
    obtain rfl | rfl := hopr'
    · decide
    · decide
  apply mt.keeps h (h.mapAttrs s f)
  · intro z hz
    rw [inputsOf_mapAttrs]
    exact mt.not_read h hz
  · exact hpass
  · rw [hopr]
    exact hner.2.2
  · intro ins outs e he
    obtain ⟨y, z, hy, hz, hp⟩ :=
      mt.unary hpass hfirst hplain.2 hopr hner.1 hner.2.1 hact he
    obtain ⟨xs, ys, hxs, hys, hout⟩ := he.nodes s mt.mem
    rw [interp_plain sc fwd hplain.1 hop hne.1 hne.2] at hys
    have hy0 : ys[0]? = some y := by rw [← hout 0 o (by simp [mt.out]), hy]
    have hattrs : (g.mapAttrs s f).attrsOf s = f (g.attrsOf s) :=
      congrArg NodeCode.attrs (codeOf_mapAttrs g s f)
    have hplain' : (g.mapAttrs s f).Plain s := by
      unfold Plain
      rw [hattrs, hkind]
      exact hplain.1
    have hop₁ : (g.mapAttrs s f).opOf s = op := ((h.mapAttrs s f).opOf s).trans hop
    refine ⟨e, z, (he.off s).mapAttrs f, hp, xs, ?_, ?_⟩
    · rw [inputsOf_mapAttrs, hxs]
    · rw [interp_plain sc fwd hplain' hop₁ hne.1 hne.2, hattrs]
      exact hmark xs ys y z hys hy0 hz

theorem fuseRelu_keeps (hK : FusionLaws K) (h : g.WellFormed) (hs : s ∈ g.nodes)
    (hop : op = .conv2d ∨ op = .linear) (hm : g.matchNext s op = some (o, r))
    (hr : g.opOf r = .relu) (hf : g.Foldable K s r) (hfirst : g.FirstOperand s r) :
    FoldKeeps g (g.fuseRelu s r) (interp K sc fwd) := by
  have hnc : op ≠ .cast := by
    obtain rfl | rfl := hop
    · decide
    · decide
  obtain ⟨cs, w, p, hwalk, mt, hpass, hops⟩ := hf.matched h hs hm hnc (by rw [hr]; decide)
  have hw := hfirst o (by simp [mt.out]) cs w hwalk
  apply mt.mark h hpass hw hf.plain hr (.inl rfl) (fun _ => rfl) hops
  · obtain rfl | rfl := hop
    · decide
    · decide
  · exact Attrs.hasAttr_setBoolAttr_of_ne _ (by decide) true
  · intro xs ys y z hys hy hz
    obtain rfl | rfl := hop
    · exact Kernels.executeConv2d_relu hK hys hy hz
    · exact Kernels.executeLinear_relu hK hys hy hz

theorem fuseLayerNormActivation_keeps (h : g.WellFormed) (hs : s ∈ g.nodes)
    (hm : g.matchNext s .layerNorm = some (o, r)) (hr : g.opOf r = .relu ∨ g.opOf r = .gelu)
    (hun : (g.attrsOf s).getBoolAttr "fused_activation" = false)
    (hf : g.Foldable K s r) (hfirst : g.FirstOperand s r) :
    FoldKeeps g (g.fuseLayerNormActivation s r) (interp K sc fwd) := by
  have hrc : g.opOf r ≠ .cast := by
    obtain hr | hr := hr
    · rw [hr]
      decide
    · rw [hr]
      decide
  obtain ⟨cs, w, p, hwalk, mt, hpass, hops⟩ := hf.matched h hs hm (by decide) hrc
  have hw := hfirst o (by simp [mt.out]) cs w hwalk
  have hact : ∀ xs, K.executePlain (g.opOf r) (g.attrsOf r) xs =
      Kernels.unary (K.activate (if g.opOf r = .relu then 1 else 2)) xs := by
    intro xs
    obtain hr | hr := hr
    · rw [hr]
      rfl
    · rw [hr]
      rfl
  apply mt.mark h hpass hw hf.plain rfl hr hact hops (by decide)
  · rw [Attrs.hasAttr_setIntAttr_of_ne _ (by decide), Attrs.hasAttr_setBoolAttr_of_ne _ (by decide)]
  · intro xs ys y z hys hy hz
    exact Kernels.executeLayerNorm_activation hun hys hy hz

end Pair

section Bias

variable {sc fwd} {s r : NodeRef} {o p w bias : ValRef} {cs : List NodeRef}

theorem Prepared.addInput (hwf : (g.addInput s bias).WellFormed) : Prepared g (g.addInput s bias) s where
  wf := hwf
  nodes := rfl
  outputs := rfl
  graphInputs := rfl
  outputsOf n := outputsOf_of_skeleton (skeleton_addInput g s bias) n
  opOf n := opOf_of_skeleton (skeleton_addInput g s bias) n
  inputsOf n hn := by rw [inputsOf_addInput, if_neg hn]
  codeOf n _ := codeOf_of_skeleton (skeleton_addInput g s bias) n

/-- A node whose only reader also reads `bias` may read `bias` itself. -/
theorem WellFormed.addInput_of_reader (h : g.WellFormed) (hs : s ∈ g.nodes) (hr : r ∈ g.nodes)
    (hout : g.outputsOf s = [o]) (hsole : ∀ m ∈ g.nodes, o ∈ g.inputsOf m → m = r)
    (ho : o ∈ g.inputsOf r) (hb : bias ∈ g.inputsOf r) (hne : bias ≠ o) :
    (g.addInput s bias).WellFormed := by
  obtain ⟨rank, hrank⟩ := h.acyclic
  have hsr : rank s < rank r := hrank r hr o ho s hs (by simp [hout])
  have hrs : r ≠ s := fun he => Nat.lt_irrefl _ (he ▸ hsr)
  -- `s` moves up to just below its reader
  have hranked : g.Ranked fun n => if n = s then 2 * rank r - 1 else 2 * rank n := by
    intro n hn v hv m hm hvm
    have hlt := hrank n hn v hv m hm hvm
    by_cases hms : m = s
    · subst hms
      rw [hout, mem_singleton] at hvm
      subst hvm
      obtain rfl := hsole n hn hv
      simp only [if_true, if_neg hrs]
      omega
    · by_cases hns : n = s
      · simp only [if_neg hms, if_pos hns]
        subst hns
        omega
      · simp only [if_neg hms, if_neg hns]
        omega
  apply h.addInput hs (h.usable_input hr hb) hranked
  intro m hm hbm
  have hlt := hrank r hr bias hb m hm hbm
  have hms : m ≠ s := by
    rintro rfl
    rw [hout, mem_singleton] at hbm
    exact hne hbm
  simp only [if_true, if_neg hms]
  omega

theorem singleConsumer_of_walk {hops : Nat} {v : ValRef} {n : NodeRef}
    (hw : g.walk hops v = some ([], w, n)) : g.singleConsumer v = some n ∧ w = v := by
  cases hops with
  | zero => simp [walk] at hw
  | succ hops =>
    rw [walk] at hw
    split at hw
    · exact absurd hw (by simp)
    · next c hc =>
        rw [hc]
        split at hw
        · simp only [Option.some.injEq, Prod.mk.injEq, true_and] at hw
          exact ⟨by rw [hw.2], hw.1.symm⟩
        · split_ifs at hw
          · simp at hw
          · simp only [Option.some.injEq, Prod.mk.injEq, true_and] at hw
            exact ⟨by rw [hw.2], hw.1.symm⟩

/-- The operands of the `Add`: the product and the bias, which is another value. -/
theorem biasOperand_spec (h : g.WellFormed) (hr : r ∈ g.nodes) (ho : g.Live o)
    (hcount : (g.inputsOf r).count o = 1) (hb : g.biasOperand o r = some bias) :
    bias ≠ o ∧ ∃ rest, g.inputsOf r = o :: bias :: rest ∨ g.inputsOf r = bias :: o :: rest := by
  unfold biasOperand at hb
  split at hb
  · next x y rest hin =>
      have hx : g.Live x := live_inputsOf hr (by simp [hin])
      have hy : g.Live y := live_inputsOf hr (by simp [hin])
      rw [hin] at hcount ⊢
      split_ifs at hb with hxo hyo
      · obtain rfl := h.id_inj hx ho hxo
        obtain rfl := Option.some.inj hb
        refine ⟨?_, rest, .inl rfl⟩
        rintro rfl
        simp at hcount
      · obtain rfl := h.id_inj hy ho hyo
        obtain rfl := Option.some.inj hb
        exact ⟨fun he => hxo (by rw [he]), rest, .inr rfl⟩
  · exact absurd hb (by simp)

theorem mem_of_biasOperand (h : g.WellFormed) (hr : r ∈ g.nodes) (ho : g.Live o)
    (hb : g.biasOperand o r = some bias) : o ∈ g.inputsOf r := by
  unfold biasOperand at hb
  split at hb
  · next x y rest hin =>
      have hx : g.Live x := live_inputsOf hr (by simp [hin])
      have hy : g.Live y := live_inputsOf hr (by simp [hin])
      split_ifs at hb with hxo hyo
      · simp [hin, h.id_inj hx ho hxo]
      · simp [hin, h.id_inj hy ho hyo]
  · exact absurd hb (by simp)

variable (K r bias) in
/-- What the pass does to the attributes. -/
theorem fuseMatMulAdd_eq (hunr : (g.attrsOf s).getBoolAttr "fused_relu" = false) :
    ∃ f : Attrs T → Attrs T,
      g.fuseMatMulAdd K s r bias = ((g.mapAttrs s f).addInput s bias).absorb s r ∧
      (f (g.attrsOf s)).getBoolAttr "fused_bias" = true ∧
      (f (g.attrsOf s)).getBoolAttr "fused_relu" = false ∧
      (f (g.attrsOf s)).hasAttr "fusion_kind" = (g.attrsOf s).hasAttr "fusion_kind" := by
  refine ⟨_, rfl, (Attrs.getBoolAttr_setBoolAttr _ _ _ _).trans (if_pos rfl),
    (Attrs.getBoolAttr_setBoolAttr _ _ _ _).trans ((if_neg (by decide)).trans ?_),
    (Attrs.hasAttr_setBoolAttr_of_ne _ (by decide) true).trans ?_⟩
  · split
    · exact hunr
    · exact hunr
  · split
    · exact Attrs.hasAttr_setTensorAttr_of_ne _ (by decide) _
    · rfl

/-- An `Add` gives the sum of its first two operands, in either order. -/
theorem sum_of_add (hK : FusionLaws K) {ins outs : List T} {e : ValRef → Option T}
    (he : g.Assigns (interp K sc fwd) ins outs e) (hrn : r ∈ g.nodes) (hplain : g.Plain r)
    (hr : g.opOf r = .add) (hout : g.outputsOf r = [p]) {rest : List ValRef}
    (hin : g.inputsOf r = o :: bias :: rest ∨ g.inputsOf r = bias :: o :: rest) {y β : T}
    (hy : e o = some y) (hβ : e bias = some β) : ∃ z, K.add y β = .ok z ∧ e p = some z := by
  obtain ⟨xs, ys, hxs, hys, hresult⟩ := he.nodes r hrn
  rw [interp_plain sc fwd hplain hr (by decide) (by decide)] at hys
  have hfirst : ∀ u v, xs = u :: v :: xs.drop 2 → ∃ z, K.add u v = .ok z ∧ e p = some z := by
    intro u v huv
    rw [huv] at hys
    simp only [Kernels.executePlain, Kernels.binary, bind_eq_ok, pure_eq_ok] at hys
    obtain ⟨z, hz, rfl⟩ := hys
    exact ⟨z, hz, by simpa using hresult 0 p (by simp [hout])⟩
  have hshape : ∀ c d C D, g.inputsOf r = c :: d :: rest → e c = some C → e d = some D →
      xs = C :: D :: xs.drop 2 := by
    intro c d C D hcd hC hD
    rw [hcd, map_cons, map_cons, hC, hD] at hxs
    obtain _ | ⟨C', _ | ⟨D', tl⟩⟩ := xs
    · simp at hxs
    · simp at hxs
    · simp only [map_cons, List.cons.injEq, Option.some.injEq] at hxs
      simp [hxs.1, hxs.2.1]
  obtain hin | hin := hin
  · exact hfirst y β (hshape o bias y β hin hy hβ)
  · obtain ⟨z, hz, hp⟩ := hfirst β y (hshape bias o β y hin hβ hy)
    exact ⟨z, hK.add_comm hz, hp⟩

theorem fuseMatMulAdd_keeps (hK : FusionLaws K) (h : g.WellFormed) (hs : s ∈ g.nodes)
    (hm : g.matchNext s .matMul = some (o, r)) (hr : g.opOf r = .add)
    (hb : g.biasOperand o r = some bias) (hf : g.Foldable K s r)
    (htwo : (g.inputsOf s).length = 2) (hunb : (g.attrsOf s).getBoolAttr "fused_bias" = false)
    (hunr : (g.attrsOf s).getBoolAttr "fused_relu" = false) :
    FoldKeeps g (g.fuseMatMulAdd K s r bias) (interp K sc fwd) := by
  obtain ⟨cs, w, p, hwalk, mt, hpass, hops⟩ := hf.matched h hs hm (by decide) (by rw [hr]; decide)
  have hrn := mt.leads.consumer.1
  have holive : g.Live o := live_outputsOf hs (by simp [mt.out])
  -- the `Add` reads the product itself, so no cast stands between
  have hor : o ∈ g.inputsOf r := mem_of_biasOperand h hrn holive hb
  obtain rfl : cs = [] := by
    cases cs with
    | nil => rfl
    | cons c cs =>
      cases mt.leads with
      | step hc hopc hin hout sole tail =>
        rw [← sole r hrn hor, hr] at hopc
        exact absurd hopc (by decide)
  obtain ⟨hsingle, rfl⟩ := singleConsumer_of_walk hwalk
  have huses : g.usesOf w = [r] := by
    unfold singleConsumer at hsingle
    split at hsingle
    · next m hm' => rw [hm', Option.some.inj hsingle]
    · exact absurd hsingle (by simp)
  have hcount : (g.inputsOf r).count w = 1 := by
    have hex := h.exact w r
    rw [huses, if_pos hrn] at hex
    simpa using hex.symm
  obtain ⟨hne, rest, hin⟩ := biasOperand_spec h hrn holive hcount hb
  have hbr : bias ∈ g.inputsOf r := by
    obtain hin | hin := hin
    · simp [hin]
    · simp [hin]
  obtain ⟨-, -, hsole⟩ := sole_of_singleConsumer h.exact hsingle
  obtain ⟨f, heq, hbias', hrelu', hkind⟩ := fuseMatMulAdd_eq K r bias hunr
  have hpr₁ := h.mapAttrs s f
  have hwf₂ : ((g.mapAttrs s f).addInput s bias).WellFormed := by
    apply hpr₁.wf.addInput_of_reader hs hrn (by rw [outputsOf_mapAttrs, mt.out])
    · intro m hm' ho
      rw [inputsOf_mapAttrs] at ho
      exact hsole m hm' ho
    · rw [inputsOf_mapAttrs]
      exact hor
    · rw [inputsOf_mapAttrs]
      exact hbr
    · exact hne
  have hpr := hpr₁.trans (Prepared.addInput hwf₂)
  have hinputs : ((g.mapAttrs s f).addInput s bias).inputsOf s = g.inputsOf s ++ [bias] := by
    rw [inputsOf_addInput, if_pos rfl, inputsOf_mapAttrs]
  have hattrs : ((g.mapAttrs s f).addInput s bias).attrsOf s = f (g.attrsOf s) :=
    (congrArg NodeCode.attrs (codeOf_of_skeleton (skeleton_addInput _ s bias) s)).trans
      (congrArg NodeCode.attrs (codeOf_mapAttrs g s f))
  rw [heq]
  apply mt.keeps h hpr
  · intro z hz
    have hz' : z = w := by simpa [Graph.zone] using hz
    rw [hinputs, hz', mem_append, mem_singleton, not_or]
    exact ⟨mt.not_read h (by simp [Graph.zone]), hne.symm⟩
  · simp
  · rw [hr]
    decide
  · intro ins outs e he
    obtain ⟨xs, ys, hxs, hys, hout⟩ := he.nodes s hs
    obtain ⟨a, b, hab⟩ := length_eq_two.mp htwo
    obtain ⟨A, hA⟩ := he.bound hs (by simp [hab] : a ∈ g.inputsOf s)
    obtain ⟨B, hB⟩ := he.bound hs (by simp [hab] : b ∈ g.inputsOf s)
    obtain ⟨β, hβ⟩ := he.bound hrn hbr
    obtain ⟨y, hy⟩ := he.bound hrn hor
    obtain rfl : xs = [A, B] := by
      have hxs' : xs.map some = [A, B].map some := by rw [← hxs, hab]; simp [hA, hB]
      exact map_injective_iff.mpr (Option.some_injective T) hxs'
    rw [interp_plain sc fwd hf.plain.1 hops (by decide) (by decide)] at hys
    have hy0 : ys[0]? = some y := by rw [← hout 0 w (by simp [mt.out]), hy]
    obtain ⟨z, hz, hp⟩ := sum_of_add hK he hrn hf.plain.2 hr mt.consumerOut hin hy hβ
    have hoff : ((g.mapAttrs s f).addInput s bias).AssignsOff (interp K sc fwd) s ins outs e :=
      ((he.off s).mapAttrs f).addInput fun t ht => he.constants bias t (live_inputsOf hrn hbr) ht
    refine ⟨e, z, hoff, hp, [A, B, β], ?_, ?_⟩
    · rw [hinputs, hab]
      simp [hA, hB, hβ]
    · have hplain' : ((g.mapAttrs s f).addInput s bias).Plain s := by
        unfold Plain
        rw [hattrs, hkind]
        exact hf.plain.1
      rw [interp_plain sc fwd hplain' ((hpr.opOf s).trans hops) (by decide) (by decide), hattrs]
      exact Kernels.executeMatMul_bias hunb hunr hys hy0 hz hbias' hrelu'

end Bias

end Graph

/-! ## A normalization -/

namespace Kernels

variable {T : Type} {K : Kernels T} {a : Attrs T} {xs zs : List T} {z : T}

/-- A normalization of something returns a tensor. -/
theorem executeBatchNorm2d_bound (hK : FusionLaws K) (h : K.executeBatchNorm2d a xs = .ok zs)
    (hxs : xs ≠ []) : ∃ z, zs[0]? = some z := by
  have htake : ∀ result : List T, result ≠ [] → result.take 1 = zs → ∃ z, zs[0]? = some z := by
    intro result hne hr
    cases result with
    | nil => exact absurd rfl hne
    | cons r rs => exact ⟨r, by simp [← hr]⟩
  unfold executeBatchNorm2d at h
  split at h
  · exact absurd rfl hxs
  · simp only [bind_eq_ok, pure_eq_ok] at h
    obtain ⟨result, hresult, hr⟩ := h
    exact htake result (hK.batchNormAffine_ne_nil hresult) hr
  · simp only [bind_eq_ok, pure_eq_ok] at h
    obtain ⟨result, hresult, hr⟩ := h
    exact htake result (hK.batchNorm_ne_nil hresult) hr
  · exact absurd h (by simp)

/-- A normalization that returns has been given three or five tensors. -/
theorem executeBatchNorm2d_cases (h : K.executeBatchNorm2d a xs = .ok zs) (hz : zs[0]? = some z) :
    (∃ y gamma beta mean var rs, xs = [y, gamma, beta, mean, var] ∧
      K.batchNormAffine (eps a) [y, mean, var, gamma, beta] = .ok (z :: rs)) ∨
    ∃ y mean var rs, xs = [y, mean, var] ∧ K.batchNorm (eps a) [y, mean, var] = .ok (z :: rs) := by
  have hhead : ∀ result : List T, result.take 1 = zs → ∃ rs, result = z :: rs := by
    intro result hr
    cases result with
    | nil => simp [← hr] at hz
    | cons r rs =>
      have : r = z := by simpa [← hr] using hz
      exact ⟨rs, by rw [this]⟩
  unfold executeBatchNorm2d at h
  split at h
  · obtain rfl := Except.ok.inj h
    simp at hz
  · next y gamma beta mean var =>
      simp only [bind_eq_ok, pure_eq_ok] at h
      obtain ⟨result, hresult, hr⟩ := h
      obtain ⟨rs, rfl⟩ := hhead result hr
      exact .inl ⟨y, gamma, beta, mean, var, rs, rfl, hresult⟩
  · next y mean var =>
      simp only [bind_eq_ok, pure_eq_ok] at h
      obtain ⟨result, hresult, hr⟩ := h
      obtain ⟨rs, rfl⟩ := hhead result hr
      exact .inr ⟨y, mean, var, rs, rfl, hresult⟩
  · exact absurd h (by simp)

end Kernels

namespace Graph

variable {T S : Type} {K : Kernels T} {g g₁ : Graph T S} {sc : Scalars T}
  {fwd : S → List T → Except Exn (List T)} {conv bn : NodeRef}

theorem Installable.mapAttrs (hi : g.Installable conv) (f : Attrs T → Attrs T) :
    (g.mapAttrs conv f).Installable conv := by
  have hin := inputsOf_mapAttrs g conv
  have hout := outputsOf_mapAttrs g conv
  have hlive : ∀ v, (g.mapAttrs conv f).Live v ↔ g.Live v := by
    intro v
    simp only [Live, hin, hout]
    rfl
  have hbase : (g.mapAttrs conv f).baseId conv = g.baseId conv := by
    unfold baseId
    rw [hout]
    cases g.outputsOf conv with
    | nil => simp [Graph.mapAttrs, setNode]
    | cons o os => rfl
  have hown : ∀ v id, g.OwnId conv v id → (g.mapAttrs conv f).OwnId conv v id := by
    intro v id h
    refine ⟨h.inputs, h.outputs, fun m hm w hw => ?_, fun m hm w hw => ?_⟩
    · rw [hout] at hw
      exact h.produced m hm w hw
    · rw [hin] at hw
      exact h.reads m hm w hw
  constructor
  · rw [hin]
    exact hi.nodup
  · intro w hw
    rw [hin] at hw
    rw [hbase]
    exact hown w _ (hi.weight w hw)
  · intro b hb
    rw [hin] at hb
    rw [hbase]
    exact hown b _ (hi.bias b hb)
  · intro hb v hv
    rw [hin] at hb
    rw [hbase]
    exact hi.noBias hb v ((hlive v).mp hv)

/-- The parameters found at compile time are the tensors the node receives, so
folding them into the weights gives the normalized result. -/
theorem resolveBnParams_law (hK : FusionLaws K) (h : g.WellFormed) {ins outs : List T}
    {e : ValRef → Option T} (he : g.Assigns (interp K sc fwd) ins outs e) (hb : bn ∈ g.nodes)
    {xs : List T} (hxs : (g.inputsOf bn).map e = xs.map some) {params : BnParams T}
    (hp : g.resolveBnParams K bn = some params)
    (hseen : ∀ v ∈ (g.inputsOf bn).tail, g.SeenThrough K (g.nodes.length + 1) v)
    {a : Attrs T} {zs : List T} {y z : T} (hrun : K.executeBatchNorm2d a xs = .ok zs)
    (hz : zs[0]? = some z) (hy : xs.head? = some y) {ca : ConvAttrs} {x w : T} {b : Option T}
    {rs : List T} (hconv : K.conv ca (x :: w :: b.toList) = .ok (y :: rs)) {w' b' : T}
    (hfold : foldBnIntoConv K params (Kernels.eps a) w b = .ok (w', b')) :
    ∃ rs', K.conv ca [x, w', b'] = .ok (z :: rs') := by
  -- a parameter that resolves resolves to its tensor
  have hval : ∀ v t u, v ∈ (g.inputsOf bn).tail → e v = some u → g.resolve K v = some t → u = t :=
    fun v t u hv hu ht => resolve_value h he (live_inputsOf hb (mem_of_mem_tail hv)) hu ht
      (hseen v hv)
  obtain ⟨y', gamma, beta, mean, var, rs', rfl, hbn⟩ | ⟨y', mean, var, rs', rfl, hbn⟩ :=
    Kernels.executeBatchNorm2d_cases hrun hz
  · obtain rfl : y' = y := by simpa using hy
    obtain ⟨v₀, v₁, v₂, v₃, v₄, hin⟩ : ∃ v₀ v₁ v₂ v₃ v₄, g.inputsOf bn = [v₀, v₁, v₂, v₃, v₄] := by
      have hlen : (g.inputsOf bn).length = 5 := by simpa using congrArg List.length hxs
      match g.inputsOf bn, hlen with
      | [v₀, v₁, v₂, v₃, v₄], _ => exact ⟨v₀, v₁, v₂, v₃, v₄, rfl⟩
    rw [hin] at hxs hval
    simp only [map_cons, map_nil, List.cons.injEq, and_true] at hxs
    obtain ⟨-, h₁, h₂, h₃, h₄⟩ := hxs
    simp only [resolveBnParams, hin, Option.bind_eq_bind, Option.bind_eq_some_iff, Option.pure_def,
      Option.some.injEq] at hp
    obtain ⟨t₁, ht₁, t₂, ht₂, t₃, ht₃, t₄, ht₄, rfl⟩ := hp
    obtain rfl := hval v₁ t₁ gamma (by simp) h₁ ht₁
    obtain rfl := hval v₂ t₂ beta (by simp) h₂ ht₂
    obtain rfl := hval v₃ t₃ mean (by simp) h₃ ht₃
    obtain rfl := hval v₄ t₄ var (by simp) h₄ ht₄
    exact hK.conv_affine hconv hbn hfold
  · obtain rfl : y' = y := by simpa using hy
    obtain ⟨v₀, v₁, v₂, hin⟩ : ∃ v₀ v₁ v₂, g.inputsOf bn = [v₀, v₁, v₂] := by
      have hlen : (g.inputsOf bn).length = 3 := by simpa using congrArg List.length hxs
      match g.inputsOf bn, hlen with
      | [v₀, v₁, v₂], _ => exact ⟨v₀, v₁, v₂, rfl⟩
    rw [hin] at hxs hval
    simp only [map_cons, map_nil, List.cons.injEq, and_true] at hxs
    obtain ⟨-, h₁, h₂⟩ := hxs
    simp only [resolveBnParams, hin, Option.bind_eq_bind, Option.bind_eq_some_iff, Option.pure_def,
      Option.some.injEq] at hp
    obtain ⟨t₂, ht₂, t₁, ht₁, rfl⟩ := hp
    obtain rfl := hval v₁ t₁ mean (by simp) h₁ ht₁
    obtain rfl := hval v₂ t₂ var (by simp) h₂ ht₂
    exact hK.conv_plain hconv hbn hfold

/-- The convolution of `k` computes what the normalization of `g` computes. -/
structure NormFolded (sc : Scalars T) (fwd : S → List T → Except Exn (List T)) (K : Kernels T)
    (g k : Graph T S) (conv bn : NodeRef) : Prop where
  prepared : Prepared g k conv
  reads : ∀ v ∈ k.inputsOf conv, v ∈ g.inputsOf conv ∨ g.nextVal ≤ v
  unmarked : (k.attrsOf conv).getBoolAttr "fused_relu" = false
  plain : k.Plain conv
  computes : ∀ {ins outs : List T} {e : ValRef → Option T} {o b w : ValRef} {y z : T},
    g.Assigns (interp K sc fwd) ins outs e → g.outputsOf conv = [o] → g.outputsOf bn = [b] →
    (g.inputsOf bn).head? = some w → e o = some y → e w = some y → e b = some z →
    ∃ e₁ xs, k.AssignsOff (interp K sc fwd) conv ins outs e₁ ∧ (∀ v, g.Live v → e₁ v = e v) ∧
      (k.inputsOf conv).map e₁ = xs.map some ∧ K.executeConv2d (k.attrsOf conv) xs = .ok [z]

/-- What the fold sets. -/
def foldedAttrs (w b : T) (a : Attrs T) : Attrs T :=
  ((a.setTensorAttr "weight" w).setTensorAttr "bias" b).setBoolAttr "fused_bn" true

/-- The executor reads none of the new attributes. -/
theorem hasAttr_foldedAttrs (w b : T) (a : Attrs T) {name : String} (h₁ : name ≠ "fused_bn")
    (h₂ : name ≠ "weight") (h₃ : name ≠ "bias") : (foldedAttrs w b a).hasAttr name = a.hasAttr name :=
  (Attrs.hasAttr_setBoolAttr_of_ne _ h₁ true).trans
    ((Attrs.hasAttr_setTensorAttr_of_ne _ h₃ b).trans (Attrs.hasAttr_setTensorAttr_of_ne _ h₂ w))

theorem fusedRelu_foldedAttrs (w b : T) (a : Attrs T) :
    (foldedAttrs w b a).getBoolAttr "fused_relu" = a.getBoolAttr "fused_relu" :=
  (Attrs.getBoolAttr_setBoolAttr _ _ _ true).trans (if_neg (by decide))

theorem setConvAttrs_foldedAttrs (w b : T) (a : Attrs T) (rank : ℕ) :
    Kernels.setConvAttrsFromNode (foldedAttrs w b a) rank = Kernels.setConvAttrsFromNode a rank := by
  apply Kernels.setConvAttrsFromNode_congr
  · rfl
  · rfl
  · exact hasAttr_foldedAttrs w b a (by decide) (by decide) (by decide)

/-- The tensors of operands that start with two known ones. -/
theorem operands_eq {e : ValRef → Option T} {v₀ w : ValRef} {rest : List ValRef} {xs : List T}
    {x weight : T} (hxs : (v₀ :: w :: rest).map e = xs.map some) (hx : e v₀ = some x)
    (hw : e w = some weight) : ∃ R, xs = x :: weight :: R ∧ rest.map e = R.map some := by
  rw [map_cons, map_cons, hx, hw] at hxs
  obtain _ | ⟨X', _ | ⟨W', R⟩⟩ := xs
  · simp at hxs
  · simp at hxs
  · simp only [map_cons, List.cons.injEq, Option.some.injEq] at hxs
    exact ⟨R, by rw [hxs.1, hxs.2.1], hxs.2.2⟩

/-- The bias that the fold resolves is the one that the convolution reads. -/
theorem resolved_bias (h : g.WellFormed) {ins outs : List T} {e : ValRef → Option T}
    (he : g.Assigns (interp K sc fwd) ins outs e) (hs : conv ∈ g.nodes) {v₀ w : ValRef}
    {rest : List ValRef} (hin : g.inputsOf conv = v₀ :: w :: rest)
    (hbias : ∀ b₀, (g.inputsOf conv)[2]? = some b₀ → (g.resolve K b₀).isSome)
    (hseen : ∀ v ∈ rest, g.SeenThrough K (g.nodes.length + 1) v) {R : List T}
    (hR : rest.map e = R.map some) : (rest.head?.bind fun b => g.resolve K b) = R.head? := by
  cases rest with
  | nil =>
    obtain rfl : R = [] := by simpa using hR.symm
    rfl
  | cons b₀ rest =>
    obtain ⟨t, ht⟩ := Option.isSome_iff_exists.mp (hbias b₀ (by simp [hin]))
    obtain ⟨u, hu⟩ := he.bound hs (by simp [hin] : b₀ ∈ g.inputsOf conv)
    obtain rfl := resolve_value h he (live_inputsOf hs (by simp [hin])) hu ht (hseen b₀ (by simp))
    cases R with
    | nil => simp at hR
    | cons r R =>
      simp only [map_cons, hu, List.cons.injEq, Option.some.injEq] at hR
      simp [ht, hR.1]

theorem foldBatchNorm_spec (hK : FusionLaws K) (h : g.WellFormed) (hs : conv ∈ g.nodes)
    (hb : bn ∈ g.nodes) (hop : g.opOf conv = .conv2d) (hopb : g.opOf bn = .batchNorm2d)
    (hplain : g.Plain conv ∧ g.Plain bn) (hc : g.FoldsBatchNorm K conv bn) {k : Graph T S}
    (hk : g.foldBatchNorm K conv bn = .ok (some k)) : NormFolded sc fwd K g k conv bn := by
  unfold foldBatchNorm at hk
  split at hk
  swap
  · exact absurd (Except.ok.inj hk) (by simp)
  next params v₀ w rest hparams hin =>
  split at hk
  · exact absurd (Except.ok.inj hk) (by simp)
  next weight hweight =>
  simp only [bind_eq_ok, pure_eq_ok, Option.some.injEq] at hk
  obtain ⟨⟨w', b'⟩, hfold, g₂, hinst, rfl⟩ := hk
  generalize hf₁ : (fun a : Attrs T => (a.setTensorAttr "weight" w').setTensorAttr "bias" b') = f₁ at hinst
  generalize hf₂ : (fun a : Attrs T => a.setBoolAttr "fused_bn" true) = f₂
  have hpr₁ := h.mapAttrs conv f₁
  have hin₁ : (g.mapAttrs conv f₁).inputsOf conv = v₀ :: w :: rest := by rw [inputsOf_mapAttrs, hin]
  have hi : Installed (interp K sc fwd) (g.mapAttrs conv f₁) g₂ conv v₀ rest.tail w' b' :=
    installFusedConvWeights_spec hpr₁.wf (hpr₁.nodes ▸ hs) hin₁ (hc.installable.mapAttrs f₁) hinst
  have hpr₂ := hpr₁.trans hi.prepared
  have hpr := hpr₂.trans (hi.prepared.wf.mapAttrs conv f₂)
  have hinputs : (g₂.mapAttrs conv f₂).inputsOf conv =
      v₀ :: g.nextVal :: (g.nextVal + 1) :: rest.tail := by
    rw [inputsOf_mapAttrs]
    exact hi.inputs
  have hattrs : (g₂.mapAttrs conv f₂).attrsOf conv = foldedAttrs w' b' (g.attrsOf conv) := by
    have h₂ : (g₂.mapAttrs conv f₂).attrsOf conv = f₂ (g₂.attrsOf conv) :=
      congrArg NodeCode.attrs (codeOf_mapAttrs g₂ conv f₂)
    have h₁ : g₂.attrsOf conv = (g.mapAttrs conv f₁).attrsOf conv := congrArg NodeCode.attrs hi.code
    have h₀ : (g.mapAttrs conv f₁).attrsOf conv = f₁ (g.attrsOf conv) :=
      congrArg NodeCode.attrs (codeOf_mapAttrs g conv f₁)
    rw [h₂, h₁, h₀, ← hf₁, ← hf₂]
    rfl
  constructor
  case prepared => exact hpr
  case reads =>
    intro v hv
    rw [hinputs] at hv
    rw [hin]
    simp only [mem_cons] at hv ⊢
    obtain rfl | rfl | rfl | hv := hv
    · exact .inl (.inl rfl)
    · exact .inr le_rfl
    · exact .inr (Nat.le_succ _)
    · exact .inl (.inr (.inr (mem_of_mem_tail hv)))
  case unmarked => rw [hattrs, fusedRelu_foldedAttrs, hc.unmarked]
  case plain =>
    unfold Plain
    rw [hattrs, hasAttr_foldedAttrs _ _ _ (by decide) (by decide) (by decide)]
    exact hplain.1
  case computes =>
    intro ins outs e o b wb y z he hout houtb hfirst hy hwy hz
    obtain ⟨xs, ys, hxs, hys, hw⟩ := he.nodes conv hs
    rw [interp_plain sc fwd hplain.1 hop (by decide) (by decide)] at hys
    have hy0 : ys[0]? = some y := by rw [← hw 0 o (by simp [hout]), hy]
    obtain ⟨xb, zs, hxb, hzs, hwb⟩ := he.nodes bn hb
    rw [interp_plain sc fwd hplain.2 hopb (by decide) (by decide)] at hzs
    have hz0 : zs[0]? = some z := by rw [← hwb 0 b (by simp [houtb]), hz]
    have hheadb : xb.head? = some y := by
      have hh := congrArg List.head? hxb
      rw [head?_map, hfirst, Option.map_some, hwy] at hh
      simpa using hh.symm
    -- the operands of the convolution
    obtain ⟨X, hX⟩ := he.bound hs (by simp [hin] : v₀ ∈ g.inputsOf conv)
    obtain ⟨W, hW⟩ := he.bound hs (by simp [hin] : w ∈ g.inputsOf conv)
    have hseen : ∀ v, v ∈ w :: rest → g.SeenThrough K (g.nodes.length + 1) v := by
      intro v hv
      apply hc.seen v
      rw [mem_append, hin]
      exact .inr hv
    obtain rfl : W = weight := resolve_value h he (live_inputsOf hs (by simp [hin])) hW hweight
      (hseen w (by simp))
    obtain ⟨R, rfl, hR⟩ := operands_eq (hin ▸ hxs) hX hW
    have hbias : (rest.head?.bind fun b => g.resolve K b) = R.head? :=
      resolved_bias h he hs hin hc.bias (fun v hv => hseen v (mem_cons_of_mem _ hv)) hR
    rw [hbias] at hfold
    have heps : (g.attrsOf bn).getAttr "eps" = Kernels.eps (g.attrsOf bn) := by
      rw [Kernels.eps, if_pos hc.eps]
    rw [heps] at hfold
    have hoff : (g₂.mapAttrs conv f₂).AssignsOff (interp K sc fwd) conv ins outs
        (update (update e g.nextVal (some w')) (g.nextVal + 1) (some b')) :=
      (hi.assigns ((he.off conv).mapAttrs f₁)).mapAttrs f₂
    generalize he₁ : update (update e g.nextVal (some w'))
      (g.nextVal + 1) (some b') = e₁ at hoff
    have hkeep : ∀ v, g.Live v → e₁ v = e v := by
      intro v hv
      have hlt := h.live_lt v hv
      rw [← he₁, update_of_ne (Nat.ne_of_lt (Nat.lt_succ_of_lt hlt)),
        update_of_ne (Nat.ne_of_lt hlt)]
    have hw' : e₁ g.nextVal = some w' := by
      rw [← he₁, update_of_ne (Nat.ne_of_lt (Nat.lt_succ_self _)), update_self]
    have hb' : e₁ (g.nextVal + 1) = some b' := by
      rw [← he₁]
      exact update_self ..
    refine ⟨e₁, X :: w' :: b' :: R.tail, hoff, hkeep, ?_, ?_⟩
    · have htail : rest.tail.map e₁ = R.tail.map some := by
        have hlive : ∀ v ∈ rest.tail, g.Live v := fun v hv =>
          live_inputsOf hs (by rw [hin]; simp [mem_of_mem_tail hv])
        calc
          rest.tail.map e₁ = rest.tail.map e := map_congr_left fun v hv => hkeep v (hlive v hv)
          _ = (rest.map e).tail := map_tail ..
          _ = (R.map some).tail := by rw [hR]
          _ = R.tail.map some := (map_tail ..).symm
      rw [hinputs, map_cons, map_cons, map_cons, htail, hw', hb',
        hkeep v₀ (live_inputsOf hs (by simp [hin])), hX]
      rfl
    · rw [hattrs]
      apply Kernels.executeConv2d_folded hc.unmarked hys hy0 _ hfold
        (setConvAttrs_foldedAttrs w' b' _) ((fusedRelu_foldedAttrs w' b' _).trans hc.unmarked)
      intro ca rs hconv hfold'
      exact resolveBnParams_law hK h he hb hxb hparams
        (fun v hv => hc.seen v (mem_append_left _ hv)) hzs hz0 hheadb hconv hfold'

section Norm

variable {k : Graph T S} {o w b : ValRef} {cs : List NodeRef} {z : ValRef} {g' : Graph T S}

/-- The survivor reads nothing of the zone after the fold either. -/
theorem NormFolded.not_read (nf : NormFolded sc fwd K g k conv bn) (h : g.WellFormed)
    (hz : z ∉ g.inputsOf conv) (hlive : g.Live z) : z ∉ k.inputsOf conv := by
  intro hmem
  obtain hmem | hle := nf.reads z hmem
  · exact hz hmem
  · exact absurd (h.live_lt z hlive) (Nat.not_lt.mpr hle)

theorem Matched.live_zone (mt : g.Matched conv o cs w bn b) (hz : z ∈ g.zone o cs) : g.Live z := by
  rw [Graph.zone, mem_cons] at hz
  obtain rfl | hz := hz
  · exact live_outputsOf mt.mem (by simp [mt.out])
  · obtain ⟨c, hc, hzc⟩ := mem_flatMap.mp hz
    exact live_outputsOf (mt.leads.casts hc).1 hzc

/-- The tensors of a match of a convolution and a normalization. -/
theorem NormFolded.values (hK : FusionLaws K) (nf : NormFolded sc fwd K g k conv bn)
    (mt : g.Matched conv o cs w bn b) (hpass : ∀ c ∈ cs, g.Passed K c)
    (hfirst : (g.inputsOf bn).head? = some w) (hopb : g.opOf bn = .batchNorm2d)
    (hplain : g.Plain bn) {ins outs : List T} {e : ValRef → Option T}
    (he : g.Assigns (interp K sc fwd) ins outs e) :
    ∃ z e₁ xs, e b = some z ∧ k.AssignsOff (interp K sc fwd) conv ins outs e₁ ∧
      (∀ v, g.Live v → e₁ v = e v) ∧ (k.inputsOf conv).map e₁ = xs.map some ∧
      K.executeConv2d (k.attrsOf conv) xs = .ok [z] := by
  obtain ⟨y, hy, hw⟩ := mt.values hpass he
  obtain ⟨xb, zs, hxb, hzs, hwb⟩ := he.nodes bn mt.leads.consumer.1
  rw [interp_plain sc fwd hplain hopb (by decide) (by decide)] at hzs
  have hne : xb ≠ [] := by
    rintro rfl
    obtain ⟨ws, hin⟩ := head?_eq_some_iff.mp hfirst
    simp [hin] at hxb
  obtain ⟨z, hz⟩ := Kernels.executeBatchNorm2d_bound hK hzs hne
  have hb : e b = some z := by rw [hwb 0 b (by simp [mt.consumerOut]), hz]
  obtain ⟨e₁, xs, hoff, hkeep, hxs, hrun⟩ := nf.computes he mt.out mt.consumerOut hfirst hy hw hb
  exact ⟨z, e₁, xs, hb, hoff, hkeep, hxs, hrun⟩

theorem fuseConvBatchNorm_keeps (hK : FusionLaws K) (h : g.WellFormed) (hs : conv ∈ g.nodes)
    (hm : g.matchNext conv .conv2d = some (o, bn)) (hopb : g.opOf bn = .batchNorm2d)
    (hf : g.Foldable K conv bn) (hfirst : g.FirstOperand conv bn) (hc : g.FoldsBatchNorm K conv bn)
    (hg : g.fuseConvBatchNorm K conv bn = .ok g') : FoldKeeps g g' (interp K sc fwd) := by
  obtain ⟨cs, w, b, hwalk, mt, hpass, hops⟩ := hf.matched h hs hm (by decide) (by rw [hopb]; decide)
  have hw := hfirst o (by simp [mt.out]) cs w hwalk
  simp only [fuseConvBatchNorm, bind_eq_ok] at hg
  obtain ⟨r, hr, hg⟩ := hg
  cases r with
  | none =>
    obtain rfl := pure_eq_ok.mp hg
    exact FoldKeeps.refl h _
  | some k =>
    obtain rfl := pure_eq_ok.mp hg
    have nf : NormFolded sc fwd K g k conv bn :=
      foldBatchNorm_spec hK h hs mt.leads.consumer.1 hops hopb hf.plain hc hr
    apply mt.keeps h nf.prepared
    · exact fun z hz => nf.not_read h (mt.not_read h hz) (mt.live_zone hz)
    · exact hpass
    · rw [hopb]
      decide
    · intro ins outs e he
      obtain ⟨z, e₁, xs, hb, hoff, hkeep, hxs, hrun⟩ :=
        nf.values hK mt hpass hw hopb hf.plain.2 he
      have hblive : g.Live b := live_outputsOf mt.leads.consumer.1 (by simp [mt.consumerOut])
      refine ⟨e₁, z, hoff, by rw [hkeep b hblive, hb], xs, hxs, ?_⟩
      have hopk : k.opOf conv = .conv2d := (nf.prepared.opOf conv).trans hops
      rw [interp_plain sc fwd nf.plain hopk (by decide) (by decide)]
      exact hrun

variable {relu : NodeRef} {w₂ p : ValRef} {cs₂ : List NodeRef}

/-- The zone of a survivor that absorbs two consumers. -/
theorem Matched.zone₂ (h : g.WellFormed) (mt : g.Matched conv o cs w bn b)
    (mt₂ : g.Matched bn b cs₂ w₂ relu p) :
    Zone g conv o (g.zone o cs ++ g.zone b cs₂) (cs ++ cs₂) [relu, bn] [p, b] := by
  obtain ⟨rank, hrank⟩ := h.acyclic
  have hold : ∀ v ∈ [p, b], ∃ d ∈ [relu, bn], d ∈ g.nodes ∧ v ∈ g.outputsOf d := by
    intro v hv
    simp only [mem_cons, not_mem_nil, or_false] at hv
    obtain rfl | rfl := hv
    · exact ⟨relu, by simp, mt₂.leads.consumer.1, by simp [mt₂.consumerOut]⟩
    · exact ⟨bn, by simp, mt₂.mem, by simp [mt₂.out]⟩
  have hbelow : ∀ d ∈ [relu, bn], rank conv < rank d := by
    intro d hd
    have h₁ := mt.rank_lt hrank
    have h₂ := mt₂.rank_lt hrank
    simp only [mem_cons, not_mem_nil, or_false] at hd
    obtain rfl | rfl := hd
    · exact h₁.trans h₂
    · exact h₁
  have ho : o ∈ g.outputsOf conv := by simp [mt.out]
  obtain ⟨hsurvivor, horder⟩ := rankedAfter_of_below h hrank mt.mem ho hold hbelow
  exact {
    mem := mt.mem
    left := by
      have h₁ := mt.rank_lt hrank
      have h₂ := mt₂.rank_lt hrank
      simp only [mem_cons, not_mem_nil, or_false, not_or]
      constructor
      · rintro rfl
        omega
      · rintro rfl
        omega
    apart := by
      rw [mem_append, not_or]
      exact ⟨mt.not_mem_casts, fun hc => mt.op (mt₂.leads.casts hc).2.1⟩
    out := mt.out
    first := by simp [Graph.zone]
    unobserved := by
      intro z hz
      obtain hz | hz := mem_append.mp hz
      · exact mt.unobserved z hz
      · exact mt₂.unobserved z hz
    produced := by
      intro z hz
      obtain hz | hz := mem_append.mp hz
      · obtain ⟨n, hn, hzn, hor | hor | hor⟩ := (mt.zone h).produced z hz
        · exact ⟨n, hn, hzn, .inl hor⟩
        · exact ⟨n, hn, hzn, .inr (.inl (by simp [hor]))⟩
        · exact ⟨n, hn, hzn, .inr (.inr (by simp [mem_singleton.mp hor]))⟩
      · obtain ⟨n, hn, hzn, hor | hor | hor⟩ := (mt₂.zone h).produced z hz
        · exact ⟨n, hn, hzn, .inr (.inr (by simp [hor]))⟩
        · exact ⟨n, hn, hzn, .inr (.inl (by simp [hor]))⟩
        · exact ⟨n, hn, hzn, .inr (.inr (by simp [mem_singleton.mp hor]))⟩
    reads := by
      intro n hn hnc hnd v hv hz
      simp only [mem_append, not_or] at hnc
      simp only [mem_cons, not_mem_nil, or_false, not_or] at hnd
      obtain hz | hz := mem_append.mp hz
      · exact (mt.leads.reads hz hn hv).elim hnc.1 hnd.2
      · exact (mt₂.leads.reads hz hn hv).elim hnc.2 hnd.1
    casts := by
      intro c hc
      obtain hc | hc := mem_append.mp hc
      · obtain ⟨⟨z, hz, hin⟩, z', hz', hout⟩ := (mt.leads.casts hc).2.2
        exact ⟨⟨z, mem_append_left _ hz, hin⟩, z', mem_append_left _ hz', hout⟩
      · obtain ⟨⟨z, hz, hin⟩, z', hz', hout⟩ := (mt₂.leads.casts hc).2.2
        exact ⟨⟨z, mem_append_right _ hz, hin⟩, z', mem_append_right _ hz', hout⟩
    dropped := by
      intro d hd v hv
      simp only [mem_cons, not_mem_nil, or_false] at hd ⊢
      obtain rfl | rfl := hd
      · exact .inl (.inl (by simpa [mt₂.consumerOut] using hv))
      · exact .inl (.inr (by simpa [mt₂.out] using hv))
    olds_produced := hold
    survivor := hsurvivor
    order := ⟨rank, horder⟩ }

theorem fuseConvBatchNormRelu_keeps (hK : FusionLaws K) (h : g.WellFormed) (hs : conv ∈ g.nodes)
    (hm : g.matchNext conv .conv2d = some (o, bn))
    (hm₂ : g.matchNext bn .batchNorm2d = some (b, relu)) (hopr : g.opOf relu = .relu)
    (hf : g.Foldable K conv bn) (hfirst : g.FirstOperand conv bn) (hf₂ : g.Foldable K bn relu)
    (hfirst₂ : g.FirstOperand bn relu) (hc : g.FoldsBatchNorm K conv bn)
    (hg : g.fuseConvBatchNormRelu K conv bn relu = .ok g') : FoldKeeps g g' (interp K sc fwd) := by
  have hopb : g.opOf bn = .batchNorm2d := by
    unfold matchNext at hm₂
    by_contra hne
    simp [hne] at hm₂
  obtain ⟨cs, w, b', hwalk, mt, hpass, hops⟩ := hf.matched h hs hm (by decide) (by rw [hopb]; decide)
  have hbn := mt.leads.consumer.1
  obtain ⟨cs₂, w₂, p, hwalk₂, mt₂, hpass₂, -⟩ := hf₂.matched h hbn hm₂ (by decide) (by rw [hopr]; decide)
  obtain rfl : b' = b := by simpa [mt₂.out] using mt.consumerOut.symm
  have hw := hfirst o (by simp [mt.out]) cs w hwalk
  have hw₂ := hfirst₂ b' (by simp [mt₂.out]) cs₂ w₂ hwalk₂
  simp only [fuseConvBatchNormRelu, bind_eq_ok] at hg
  obtain ⟨r, hr, hg⟩ := hg
  cases r with
  | none =>
    obtain rfl := pure_eq_ok.mp hg
    exact FoldKeeps.refl h _
  | some k =>
    have nf : NormFolded sc fwd K g k conv bn :=
      foldBatchNorm_spec hK h hs hbn hops hopb hf.plain hc hr
    generalize hfm : (fun a : Attrs T => a.setBoolAttr "fused_relu" true) = f at hg
    have hpr := nf.prepared.trans (nf.prepared.wf.mapAttrs conv f)
    have hout : (k.mapAttrs conv f).outputsOf conv = [o] := by rw [hpr.outputsOf, mt.out]
    have houtr : (k.mapAttrs conv f).outputsOf relu = [p] := by rw [hpr.outputsOf, mt₂.consumerOut]
    have houtb : (k.mapAttrs conv f).outputsOf bn = [b'] := by rw [hpr.outputsOf, mt₂.out]
    simp only [hout, houtr, houtb, pure_eq_ok] at hg
    have hsub : (k.mapAttrs conv f).substitute [p, b'] o [relu, bn] = g' := hg
    rw [← hsub]
    -- both matches survive the preparation of the convolution
    have hcs₂ : conv ∉ cs₂ := fun hmem => mt.op (mt₂.leads.casts hmem).2.1
    have hconvrelu : conv ≠ relu := by
      rintro rfl
      rw [hops] at hopr
      exact absurd hopr (by decide)
    have hzone : ∀ z ∈ g.zone o cs, z ∉ (k.mapAttrs conv f).inputsOf conv := by
      intro z hz
      rw [inputsOf_mapAttrs]
      exact nf.not_read h (mt.not_read h hz) (mt.live_zone hz)
    have hzone₂ : ∀ z ∈ g.zone b' cs₂, z ∉ (k.mapAttrs conv f).inputsOf conv := by
      intro z hz
      rw [inputsOf_mapAttrs]
      apply nf.not_read h _ (mt₂.live_zone hz)
      exact fun hmem => (mt₂.leads.reads hz hs hmem).elim hcs₂ hconvrelu
    have mt' := mt.prepared h hpr hzone
    have hz₂ : (k.mapAttrs conv f).zone b' cs₂ = g.zone b' cs₂ := by
      rw [Graph.zone, Graph.zone, funext hpr.outputsOf]
    have mt₂' : (k.mapAttrs conv f).Matched bn b' cs₂ w₂ relu p := {
      mem := by
        rw [hpr.nodes]
        exact hbn
      out := houtb
      op := by
        rw [hpr.opOf]
        exact mt₂.op
      leads := mt₂.leads.congr hcs₂ hconvrelu hpr.nodes hpr.outputsOf hpr.opOf hpr.inputsOf hzone₂
      consumerOp := by
        rw [hpr.opOf]
        exact mt₂.consumerOp
      consumerOut := houtr
      unobserved := by
        rw [hz₂, hpr.outputs]
        exact mt₂.unobserved }
    apply (mt'.zone₂ hpr.wf mt₂').keeps h hpr
    · intro c hc'
      obtain hc' | hc' := mem_append.mp hc'
      · exact ⟨(mt.leads.casts hc').2.1, (hpass c hc').identity⟩
      · exact ⟨(mt₂.leads.casts hc').2.1, (hpass₂ c hc').identity⟩
    · intro d hd
      simp only [mem_cons, not_mem_nil, or_false] at hd
      obtain rfl | rfl := hd
      · rw [hopr]
        decide
      · rw [hopb]
        decide
    · intro ins outs e he
      obtain ⟨z, e₁, xs, hbz, hoff, hkeep, hxs, hrun⟩ :=
        nf.values hK mt hpass hw hopb hf.plain.2 he
      obtain ⟨y, x, hy, hx, hp⟩ := mt₂.unary hpass₂ hw₂ hf₂.plain.2 hopr (by decide) (by decide)
        (fun _ => rfl) he
      obtain rfl : y = z := Option.some.inj (hy.symm.trans hbz)
      have hplive : g.Live p := live_outputsOf mt₂.leads.consumer.1 (by simp [mt₂.consumerOut])
      have hattrs : (k.mapAttrs conv f).attrsOf conv = f (k.attrsOf conv) :=
        congrArg NodeCode.attrs (codeOf_mapAttrs k conv f)
      have hkind : (k.mapAttrs conv f).Plain conv := by
        unfold Plain
        rw [hattrs, ← hfm]
        exact (Attrs.hasAttr_setBoolAttr_of_ne _ (by decide) true).trans nf.plain
      refine ⟨e₁, x, hoff.mapAttrs f, fun v hv hnot => ?_, xs, ?_, ?_⟩
      · simp only [mem_cons, not_mem_nil, or_false] at hv
        obtain rfl | rfl := hv
        · rw [hkeep v hplive, hp]
        · exact absurd (mem_append_right _ (by simp [Graph.zone])) hnot
      · rw [inputsOf_mapAttrs, hxs]
      · rw [interp_plain sc fwd hkind ((hpr.opOf conv).trans hops) (by decide) (by decide), hattrs,
          ← hfm]
        exact Kernels.executeConv2d_relu hK hrun rfl hx

end Norm

end Graph

namespace FusionPass

open Graph

variable {T S : Type} {K : Kernels T} {g g' : Graph T S} {sc : Scalars T}
  {fwd : S → List T → Except Exn (List T)}

/-- One visit keeps what the graph computes when its match meets the condition. -/
theorem visit_keeps (hK : FusionLaws K) (pass : FusionPass) (h : g.WellFormed) {n : NodeRef}
    (hn : g.opOf n ∈ anchors → n ∈ g.nodes) (hm : pass.Meets K g n)
    (hv : pass.visit K g n = .ok g') : FoldKeeps g g' (interp K sc fwd) := by
  have hrefl : ∀ k, (Except.ok g : Except Exn (Graph T S)) = .ok k →
      FoldKeeps g k (interp K sc fwd) := by
    intro k hk
    obtain rfl := Except.ok.inj hk
    exact FoldKeeps.refl h _
  have hmem : ∀ op r, op ∈ anchors → g.matchNext n op = some r → n ∈ g.nodes := by
    intro op r hop hmatch
    apply hn
    unfold matchNext at hmatch
    by_cases heq : g.opOf n = op
    · rwa [heq]
    · simp [heq] at hmatch
  cases pass with
  | convBatchNormRelu =>
    simp only [visit] at hv
    split at hv
    · next o bn hmatch =>
        split at hv
        · next b relu hmatch₂ =>
            split_ifs at hv with hcond
            · obtain ⟨hf, h₁, hf₂, h₂, hc⟩ := hm o bn b relu hmatch hmatch₂ hcond.1 hcond.2
              exact fuseConvBatchNormRelu_keeps hK h (hmem _ _ (by decide) hmatch) hmatch hmatch₂
                hcond.1 hf h₁ hf₂ h₂ hc hv
            · exact hrefl _ hv
        · exact hrefl _ hv
    · exact hrefl _ hv
  | convBatchNorm =>
    simp only [visit] at hv
    split at hv
    · next o bn hmatch =>
        split_ifs at hv with hcond
        · obtain ⟨hf, h₁, hc⟩ := hm o bn hmatch hcond.1 hcond.2
          exact fuseConvBatchNorm_keeps hK h (hmem _ _ (by decide) hmatch) hmatch hcond.1 hf h₁ hc hv
        · exact hrefl _ hv
    · exact hrefl _ hv
  | convRelu =>
    simp only [visit] at hv
    split at hv
    · next o relu hmatch =>
        split_ifs at hv with hop
        · obtain rfl := Except.ok.inj hv
          obtain ⟨hf, h₁⟩ := hm o relu hmatch hop
          exact fuseRelu_keeps hK h (hmem _ _ (by decide) hmatch) (.inl rfl) hmatch hop hf h₁
        · exact hrefl _ hv
    · exact hrefl _ hv
  | linearRelu =>
    simp only [visit] at hv
    split at hv
    · next o relu hmatch =>
        split_ifs at hv with hop
        · obtain rfl := Except.ok.inj hv
          obtain ⟨hf, h₁⟩ := hm o relu hmatch hop
          exact fuseRelu_keeps hK h (hmem _ _ (by decide) hmatch) (.inr rfl) hmatch hop hf h₁
        · exact hrefl _ hv
    · exact hrefl _ hv
  | matMulAdd =>
    simp only [visit] at hv
    split at hv
    · next o add hmatch =>
        split_ifs at hv with hop
        · split at hv
          · next bias hbias =>
              split_ifs at hv with hshape
              · obtain rfl := Except.ok.inj hv
                obtain ⟨hf, htwo, hb, hr⟩ := hm o add bias hmatch hop hbias hshape
                exact fuseMatMulAdd_keeps hK h (hmem _ _ (by decide) hmatch) hmatch hop hbias hf htwo
                  hb hr
              · exact hrefl _ hv
          · exact hrefl _ hv
        · exact hrefl _ hv
    · exact hrefl _ hv
  | layerNormActivation =>
    simp only [visit] at hv
    split_ifs at hv with hmarked
    · exact hrefl _ hv
    · split at hv
      · next o act hmatch =>
          split_ifs at hv with hop
          · obtain rfl := Except.ok.inj hv
            obtain ⟨hf, h₁⟩ := hm o act hmatch hop
            exact fuseLayerNormActivation_keeps h (hmem _ _ (by decide) hmatch) hmatch hop
              (by simpa using hmarked) hf h₁
          · exact hrefl _ hv
      · exact hrefl _ hv

end FusionPass

end Tenzor.Jit
