import Tenzor.Jit.Replacing
import Tenzor.Jit.FusionRun

/-!
# Feed-forward fusion

`FuseFFNPass` finds `Linear → (GELU | ReLU) → Linear` by data flow and puts one
`FusedFFN` node in the place of the three. The new node is always called
`fused_ffn`, takes the operands of the two linear layers and nothing of their
attributes, and the readers of all three results are redirected to it.

## Main statements

* `FeedForward.forward_run`: after `FuseLinearReluPass` and `FuseFFNPass` the sorted
  graph returns what the original returned, if every match meets the condition.
-/

namespace Tenzor.Jit

open Throwing List

namespace Graph

variable {T S : Type} (K : Kernels T) (g : Graph T S)

/-- The markers of the fused node. -/
def ffnAttrs (hasBias1 hasBias2 : Bool) (act : OpType) : Attrs T :=
  ((({} : Attrs T).setBoolAttr "has_bias1" hasBias1).setBoolAttr "has_bias2" hasBias2).setIntAttr
    "activation_type" (if act = .relu then 1 else 2)

def fuseTriple (linear1 act linear2 : NodeRef) : Graph T S :=
  match g.inputsOf linear1, g.inputsOf linear2, g.outputsOf linear1, g.outputsOf linear2 with
  | x :: w1 :: rest1, _ :: w2 :: rest2, out1 :: _, old :: _ =>
    let ins := x :: w1 :: w2 :: (rest1.take 1 ++ rest2.take 1)
    let attrs := ffnAttrs (!rest1.isEmpty) (!rest2.isEmpty) (g.opOf act)
    let new := g.buildNode .fusedFFN "fused_ffn" ins attrs "_out" (g.valAt old).shape
      (g.valAt old).dtype
    new.2.substitute (old :: out1 :: (g.outputsOf act).take 1) new.1 [linear2, act, linear1]
  | _, _, _, _ => g

/-- What the loop of `FuseFFNPass` does with one node of its snapshot. -/
def visitFFN (n : NodeRef) : Graph T S :=
  match g.matchNext n .linear with
  | some (_, act) =>
    if g.opOf act = .gelu ∨ g.opOf act = .relu then
      match g.matchNext act (g.opOf act) with
      | some (_, linear2) => if g.opOf linear2 = .linear then g.fuseTriple n act linear2 else g
      | none => g
    else g
  | none => g

def fuseFFN : Graph T S := g.nodes.foldl visitFFN g

end Graph

/-- Operands shaped as the kernel documents them: a weight `[out, in]`, an input whose
last dimension is `in` and, if there is one, a bias `[out]`. -/
def LinearShaped {T : Type} (K : Kernels T) : List T → Prop
  | x :: w :: rest => ∃ o i, K.shape w = [o, i] ∧ (K.shape x).getLast? = some i ∧
      ∀ b ∈ rest.head?, K.shape b = [o]
  | _ => True

/-- A linear layer multiplies by the transposed weight and adds its bias. -/
structure LinearLaws {T : Type} (K : Kernels T) : Prop where
  linear_eq : ∀ {x w b y}, LinearShaped K [x, w, b] → K.linear x w b = .ok y →
    ∃ wt mm, K.transpose (-2) (-1) w = .ok wt ∧ K.matmul x wt = .ok mm ∧ K.add mm b = .ok y
  transpose_eq : ∀ {w}, (K.shape w).length = 2 → K.transpose 0 1 w = K.transpose (-2) (-1) w

namespace Kernels

variable {T : Type} {K : Kernels T}

/-- The two halves of `FusedFFN`. -/
def affine (K : Kernels T) (x w : T) (b : Option T) : Except Exn T := do
  let wt ← K.transpose (-2) (-1) w
  let mm ← K.matmul x wt
  K.addBias mm b

theorem affine_of_linearOf (hL : LinearLaws K) {x w y : T} {rest : List T}
    (hs : LinearShaped K (x :: w :: rest)) (h : K.linearOf x w rest = .ok y) :
    K.affine x w rest.head? = .ok y := by
  cases rest with
  | nil =>
    obtain ⟨o, i, hw, -⟩ := hs
    have hrank : (K.shape w).length = 2 := by simp [hw]
    simp only [linearOf, hL.transpose_eq hrank, bind_eq_ok] at h
    obtain ⟨wt, ht, hmm⟩ := h
    simp [affine, addBias, ht, hmm]
  | cons b rest =>
    obtain ⟨o, i, hw, hx, hb⟩ := hs
    obtain ⟨wt, mm, ht, hmm, hadd⟩ :=
      hL.linear_eq ⟨o, i, hw, hx, fun b' hb' => hb b' (by simpa using hb')⟩ h
    simp only [affine, addBias, head?_cons, bind_eq_ok]
    exact ⟨wt, ht, mm, hmm, hadd⟩

theorem takeBias_toList {name : String} (b : Option T) (rest : List T) :
    takeBias b.isSome name (b.toList ++ rest) = .ok (b, rest) := by
  cases b with
  | none => simp [takeBias]
  | some b => simp [takeBias]

theorem ffnAttrs_bias (hasBias1 hasBias2 : Bool) (act : OpType) :
    (Graph.ffnAttrs hasBias1 hasBias2 act : Attrs T).getBoolAttr "has_bias1" = hasBias1 ∧
      (Graph.ffnAttrs hasBias1 hasBias2 act : Attrs T).getBoolAttr "has_bias2" = hasBias2 := by
  simp [Graph.ffnAttrs, Attrs.getBoolAttr, Attrs.setBoolAttr, Attrs.setIntAttr,
    Finmap.lookup_insert_of_ne]

theorem ffnAttrs_activation (hasBias1 hasBias2 : Bool) (act : OpType) :
    (Graph.ffnAttrs hasBias1 hasBias2 act : Attrs T).hasAttr "activation_type" = true ∧
      (Graph.ffnAttrs hasBias1 hasBias2 act : Attrs T).getIntAttr "activation_type" =
        if act = .relu then 1 else 2 := by
  simp [Graph.ffnAttrs, Attrs.getIntAttr, Attrs.hasAttr, Attrs.hasIntAttr, Attrs.setBoolAttr,
    Attrs.setIntAttr]

theorem ffnAttrs_plain (hasBias1 hasBias2 : Bool) (act : OpType) :
    (Graph.ffnAttrs hasBias1 hasBias2 act : Attrs T).hasAttr "fusion_kind" = false := by
  simp [Graph.ffnAttrs, Attrs.hasAttr, Attrs.hasIntAttr, Attrs.hasBoolAttr, Attrs.hasFloatAttr,
    Attrs.hasVecAttr, Attrs.hasTensorAttr, Attrs.setBoolAttr, Attrs.setIntAttr,
    Finmap.lookup_insert_of_ne]

/-- The fused node applies both layers with the activation in between. -/
theorem executeFusedFFN_eq {x w1 w2 h z y : T} {b1 b2 : Option T} {act : OpType}
    (h₁ : K.affine x w1 b1 = .ok h) (hact : K.activate (if act = .relu then 1 else 2) h = .ok z)
    (h₂ : K.affine z w2 b2 = .ok y) :
    K.executeFusedFFN (Graph.ffnAttrs b1.isSome b2.isSome act)
      (x :: w1 :: w2 :: (b1.toList ++ b2.toList)) = .ok [y] := by
  obtain ⟨hb1, hb2⟩ := @ffnAttrs_bias T b1.isSome b2.isSome act
  obtain ⟨hset, htype⟩ := @ffnAttrs_activation T b1.isSome b2.isSome act
  have htake₂ : takeBias b2.isSome "has_bias2" b2.toList = .ok (b2, []) := by
    simpa using takeBias_toList b2 []
  simp only [affine, bind_eq_ok] at h₁ h₂
  obtain ⟨w1t, hw1, mm1, hmm1, hh⟩ := h₁
  obtain ⟨w2t, hw2, mm2, hmm2, hy⟩ := h₂
  simp only [executeFusedFFN, hb1, hb2, hset, htype, takeBias_toList, hw1, hw2, if_true,
    bind_eq_ok, pure_eq_ok]
  exact ⟨_, rfl, _, htake₂, _, rfl, mm1, hmm1, h, hh, z, hact, _, rfl, mm2, hmm2, y, hy, rfl⟩

end Kernels

namespace Graph

variable {T S : Type} {K : Kernels T} {g : Graph T S} {sc : Scalars T}
  {fwd : S → List T → Except Exn (List T)}

/-- The fused node stands for the chain: nothing of it is seen from outside, no marker
is lost, the id is free and the layers are shaped as their kernel expects. -/
structure FusesFFN (K : Kernels T) (sc : Scalars T) (fwd : S → List T → Except Exn (List T))
    (args : List T) (g : Graph T S) (linear1 act linear2 : NodeRef) : Prop where
  first : g.Foldable K linear1 act ∧ g.FirstOperand linear1 act
  second : g.Foldable K act linear2 ∧ g.FirstOperand act linear2
  unmarked1 : (g.attrsOf linear1).getBoolAttr "fused_relu" = false ∨ g.opOf act = .relu
  unmarked2 : (g.attrsOf linear2).getBoolAttr "fused_relu" = false
  fresh : g.FreshId "fused_ffn_out"
  shaped : ∀ n ∈ [linear1, linear2], ∀ outs e, g.Assigns (interp K sc fwd) args outs e →
    ∀ xs, (g.inputsOf n).map e = xs.map some → LinearShaped K xs

/-- The match of the pass at a node, if there is one, meets the condition. -/
def MeetsFFN (K : Kernels T) (sc : Scalars T) (fwd : S → List T → Except Exn (List T))
    (args : List T) (g : Graph T S) (n : NodeRef) : Prop :=
  ∀ o act a linear2, g.matchNext n .linear = some (o, act) →
    g.opOf act = .gelu ∨ g.opOf act = .relu → g.matchNext act (g.opOf act) = some (a, linear2) →
    g.opOf linear2 = .linear → 2 ≤ (g.inputsOf n).length → 2 ≤ (g.inputsOf linear2).length →
    g.FusesFFN K sc fwd args n act linear2

/-! ## The region of a chain -/

section Chain

variable {linear1 act linear2 : NodeRef} {o a f w w₂ : ValRef} {cs cs₂ : List NodeRef}
  {v x w1 w2 : ValRef} {n : NodeRef} {rest rest1 rest2 : List ValRef}

theorem Leads.eq_of_read {z : ValRef} (h : g.Leads v cs w n) (hn : n ∉ cs) (hz : z ∈ g.zone v cs)
    (hread : z ∈ g.inputsOf n) : z = w := by
  induction h with
  | here _ _ _ => simpa [zone] using hz
  | @step v v' w c n cs hc hop hin hout sole tail ih =>
    simp only [zone, flatMap_cons, hout, singleton_append, mem_cons] at hz
    simp only [mem_cons, not_or] at hn
    obtain rfl | hz := hz
    · exact absurd (sole n tail.consumer.1 hread) hn.1
    · exact ih hn.2 (by simpa [zone] using hz) hread

theorem usesOf_of_walk {hops : Nat} (h : g.walk hops v = some (cs, w, n)) : g.usesOf w = [n] := by
  induction hops generalizing v cs with
  | zero => simp [walk] at h
  | succ hops ih =>
    have hsingle : ∀ c, g.singleConsumer v = some c → g.usesOf v = [c] := by
      intro c hc
      unfold singleConsumer at hc
      split at hc
      · next m huses => rw [huses, Option.some.inj hc]
      · cases hc
    simp only [walk] at h
    split at h
    · cases h
    · next c hc =>
        split at h
        · simp only [Option.some.injEq, Prod.mk.injEq] at h
          obtain ⟨-, rfl, rfl⟩ := h
          exact hsingle c hc
        · split_ifs at h
          · simp only [Option.map_eq_some_iff, Prod.mk.injEq] at h
            obtain ⟨⟨cs', w', n'⟩, hwalk, -, rfl, rfl⟩ := h
            exact ih hwalk
          · simp only [Option.some.injEq, Prod.mk.injEq] at h
            obtain ⟨-, rfl, rfl⟩ := h
            exact hsingle c hc

/-- The second operand and the bias of the last layer are not the value on the way. -/
theorem WellFormed.not_mem_tail (h : g.WellFormed) (hn : n ∈ g.nodes) (huses : g.usesOf w = [n])
    (hin : g.inputsOf n = w :: rest) : w ∉ rest := by
  have hcount := h.exact w n
  rw [if_pos hn, huses, hin] at hcount
  simp only [count_cons_self, count_nil, Nat.zero_add] at hcount
  exact count_eq_zero.mp (by omega)

/-- What the fused node reads comes from one of the two layers. -/
theorem mem_ffnInputs {x x₂ w1 w2 : ValRef} {rest1 rest2 : List ValRef}
    (hin₁ : g.inputsOf linear1 = x :: w1 :: rest1) (hin₂ : g.inputsOf linear2 = x₂ :: w2 :: rest2)
    {v : ValRef} (hv : v ∈ x :: w1 :: w2 :: (rest1.take 1 ++ rest2.take 1)) :
    v ∈ g.inputsOf linear1 ∨ v ∈ w2 :: rest2 := by
  simp only [mem_cons, mem_append] at hv
  rw [hin₁]
  obtain rfl | rfl | rfl | hv | hv := hv
  · exact .inl (by simp)
  · exact .inl (by simp)
  · exact .inr (by simp)
  · exact .inl (by simp [mem_of_mem_take hv])
  · exact .inr (by simp [mem_of_mem_take hv])

theorem ffnRegion (h : g.WellFormed) (mt : g.Matched linear1 o cs w act a)
    (mt₂ : g.Matched act a cs₂ w₂ linear2 f) (hin₁ : g.inputsOf linear1 = x :: w1 :: rest1)
    (hin₂ : g.inputsOf linear2 = w₂ :: w2 :: rest2) (huses : g.usesOf w₂ = [linear2])
    (hlin : linear2 ∉ cs) (hact : linear2 ≠ act) :
    Region g (x :: w1 :: w2 :: (rest1.take 1 ++ rest2.take 1)) f linear2
      (g.zone o cs ++ g.zone a cs₂) (cs ++ cs₂) [linear2, act, linear1] [f, o, a] := by
  have z := mt.zone₂ h mt₂
  have hl₁ := mt.mem
  have ha := mt₂.mem
  have hl₂ := mt₂.leads.consumer.1
  have hout₁ := mt.out
  have houta := mt₂.out
  have hout₂ := mt₂.consumerOut
  have hsrc := fun {v : ValRef} => @mem_ffnInputs T S g linear1 linear2 x w₂ w1 w2 rest1 rest2 hin₁ hin₂ v
  -- an input of the second layer other than the first is not on the way
  have htail : ∀ v ∈ w2 :: rest2, v ∉ g.zone o cs ++ g.zone a cs₂ := by
    intro v hv hz
    have hread : v ∈ g.inputsOf linear2 := hin₂ ▸ mem_cons_of_mem _ hv
    obtain hz | hz := mem_append.mp hz
    · exact (mt.leads.reads hz hl₂ hread).elim hlin hact
    · have heq := mt₂.leads.eq_of_read mt₂.consumer_not_mem_casts hz hread
      exact h.not_mem_tail hl₂ huses hin₂ (heq ▸ hv)
  have hread : ∀ v, v ∈ g.inputsOf linear1 ∨ v ∈ w2 :: rest2 →
      ∃ n ∈ g.nodes, v ∈ g.inputsOf n ∧ (n = linear1 ∨ n = linear2) := by
    rintro v (hv | hv)
    · exact ⟨linear1, hl₁, hv, .inl rfl⟩
    · exact ⟨linear2, hl₂, hin₂ ▸ mem_cons_of_mem _ hv, .inr rfl⟩
  have hbelow : ∀ rank, g.Ranked rank → ∀ v, v ∈ g.inputsOf linear1 ∨ v ∈ w2 :: rest2 →
      ∀ m ∈ g.nodes, v ∈ g.outputsOf m → rank m < rank linear2 := by
    intro rank hr v hv m hm hvm
    obtain ⟨n, hn, hvn, rfl | rfl⟩ := hread v hv
    · exact (hr n hn v hvn m hm hvm).trans ((mt.rank_lt hr).trans (mt₂.rank_lt hr))
    · exact hr n hn v hvn m hm hvm
  constructor
  case mem => exact hl₂
  case final => simp [hout₂]
  case ds_mem =>
    intro n hn
    simp only [mem_cons, not_mem_nil, or_false] at hn
    obtain rfl | rfl | rfl := hn
    · exact hl₂
    · exact ha
    · exact hl₁
  case cs_mem =>
    intro c hc
    obtain hc | hc := mem_append.mp hc
    · exact (mt.leads.casts hc).1
    · exact (mt₂.leads.casts hc).1
  case olds_cases =>
    intro v hv
    simp only [mem_cons, not_mem_nil, or_false] at hv
    obtain rfl | rfl | rfl := hv
    · exact .inl rfl
    · exact .inr (by simp [zone])
    · exact .inr (by simp [zone])
  case olds_produced =>
    intro v hv
    simp only [mem_cons, not_mem_nil, or_false] at hv
    obtain rfl | rfl | rfl := hv
    · exact ⟨linear2, by simp, by simp [hout₂]⟩
    · exact ⟨linear1, by simp, by simp [hout₁]⟩
    · exact ⟨act, by simp, by simp [houta]⟩
  case dropped =>
    intro n hn v hv
    simp only [mem_cons, not_mem_nil, or_false] at hn
    obtain rfl | rfl | rfl := hn
    · exact .inl (by simp_all)
    · exact .inl (by simp_all)
    · exact .inl (by simp_all)
  case unobserved => exact z.unobserved
  case produced =>
    intro v hv
    obtain ⟨n, -, hvn, rfl | hn | hn⟩ := z.produced v hv
    · exact ⟨n, hvn, .inr (by simp)⟩
    · exact ⟨n, hvn, .inl hn⟩
    · simp only [mem_cons, not_mem_nil, or_false] at hn
      obtain rfl | rfl := hn
      · exact ⟨n, hvn, .inr (by simp)⟩
      · exact ⟨n, hvn, .inr (by simp)⟩
  case reads =>
    intro n hn hnc hnd
    apply z.reads n hn hnc
    simp only [mem_cons, not_mem_nil, or_false, not_or] at hnd ⊢
    exact ⟨hnd.1, hnd.2.1⟩
  case casts => exact z.casts
  case live =>
    intro v hv
    obtain ⟨n, hn, hvn, -⟩ := hread v (hsrc hv)
    exact live_inputsOf hn hvn
  case usable =>
    intro v hv
    obtain ⟨n, hn, hvn, -⟩ := hread v (hsrc hv)
    exact h.usable_input hn hvn
  case apart =>
    intro v hv
    have hz : v ∉ g.zone o cs ++ g.zone a cs₂ := by
      obtain hv | hv := hsrc hv
      · exact z.survivor_reads hv
      · exact htail v hv
    refine ⟨fun hold => ?_, hz⟩
    simp only [mem_cons, not_mem_nil, or_false] at hold
    obtain rfl | rfl | rfl := hold
    · obtain ⟨rank, hrank⟩ := h.acyclic
      exact Nat.lt_irrefl _ (hbelow rank hrank v (hsrc hv) linear2 hl₂ (by simp [hout₂]))
    · exact hz (by simp [zone])
    · exact hz (by simp [zone])
  case below => exact fun rank hr v hv => hbelow rank hr v (hsrc hv)

variable {args outs : List T} {e : ValRef → Option T}

/-- The tensors of a linear layer. -/
theorem linear_values (he : g.Assigns (interp K sc fwd) args outs e) (hn : n ∈ g.nodes)
    (hplain : g.Plain n) (hop : g.opOf n = .linear) (hin : g.inputsOf n = x :: w1 :: rest)
    (hout : g.outputsOf n = [o]) :
    ∃ X W R lin out, e x = some X ∧ e w1 = some W ∧ rest.map e = R.map some ∧
      K.linearOf X W R = .ok lin ∧
      K.reluIf ((g.attrsOf n).getBoolAttr "fused_relu") lin = .ok out ∧ e o = some out := by
  obtain ⟨xs, ys, hxs, hys, hw⟩ := he.nodes n hn
  rw [hin] at hxs
  rw [interp_plain sc fwd hplain hop (by decide) (by decide)] at hys
  match xs with
  | [] => simp at hxs
  | [_] => simp at hxs
  | X :: W :: R =>
    simp only [map_cons, List.cons.injEq] at hxs
    simp only [Kernels.executePlain, Kernels.executeLinear, bind_eq_ok, pure_eq_ok] at hys
    obtain ⟨lin, hlin, out, hrelu, rfl⟩ := hys
    refine ⟨X, W, R, lin, out, hxs.1, hxs.2.1, hxs.2.2, hlin, hrelu, ?_⟩
    simpa using hw 0 o (by simp [hout])

/-- The three nodes of a chain computed what the fused node computes. -/
theorem ffn_values (hK : FusionLaws K) (hL : LinearLaws K) (mt : g.Matched linear1 o cs w act a)
    (mt₂ : g.Matched act a cs₂ w₂ linear2 f) (hpass : ∀ c ∈ cs, g.Passed K c)
    (hpass₂ : ∀ c ∈ cs₂, g.Passed K c) (hfirst : (g.inputsOf act).head? = some w)
    (hin₁ : g.inputsOf linear1 = x :: w1 :: rest1) (hin₂ : g.inputsOf linear2 = w₂ :: w2 :: rest2)
    (hops : g.opOf linear1 = .linear) (hop : g.opOf act = .gelu ∨ g.opOf act = .relu)
    (hop₂ : g.opOf linear2 = .linear) (hc : g.FusesFFN K sc fwd args linear1 act linear2)
    (he : g.Assigns (interp K sc fwd) args outs e) :
    ∃ y xs, e f = some y ∧
      (x :: w1 :: w2 :: (rest1.take 1 ++ rest2.take 1)).map e = xs.map some ∧
      K.executeFusedFFN (ffnAttrs (!rest1.isEmpty) (!rest2.isEmpty) (g.opOf act)) xs = .ok [y] := by
  obtain ⟨X, W1, R1, lin, out, hX, hW1, hR1, hlin, hmark, hout⟩ :=
    linear_values he mt.mem hc.first.1.plain.1 hops hin₁ mt.out
  obtain ⟨Z', W2, R2, lin₂, y, hZ', hW2, hR2, hlin₂, hmark₂, hy⟩ :=
    linear_values he mt₂.leads.consumer.1 hc.second.1.plain.2 hop₂ hin₂ mt₂.consumerOut
  have hexec : ∀ xs, K.executePlain (g.opOf act) (g.attrsOf act) xs =
      Kernels.unary (K.activate (if g.opOf act = .relu then 1 else 2)) xs := by
    intro xs
    obtain hop | hop := hop
    · rw [hop]
      rfl
    · rw [hop]
      rfl
  have hne : g.opOf act ≠ .ifOp ∧ g.opOf act ≠ .loop := by
    obtain hop | hop := hop
    · simp [hop]
    · simp [hop]
  obtain ⟨y', z, hy', hz, haz⟩ :=
    mt.unary hpass hfirst hc.first.1.plain.2 rfl hne.1 hne.2 hexec he
  obtain rfl : out = y' := Option.some.inj (hout.symm.trans hy')
  obtain ⟨z', haz', hwz⟩ := mt₂.values hpass₂ he
  obtain rfl : z = z' := Option.some.inj (haz.symm.trans haz')
  obtain rfl : Z' = z := Option.some.inj (hZ'.symm.trans hwz)
  -- a marker of the first layer is harmless before a ReLU
  have hact : K.activate (if g.opOf act = .relu then 1 else 2) lin = .ok Z' := by
    obtain hfree | hrelu := hc.unmarked1
    · obtain rfl : lin = out := by simpa [hfree, Kernels.reluIf] using hmark
      exact hz
    · simp only [hrelu, if_true, Kernels.activate] at hz ⊢
      exact Kernels.reluIf_relu hK hmark hz
  obtain rfl : lin₂ = y := by simpa [hc.unmarked2, Kernels.reluIf] using hmark₂
  have hshape₁ : LinearShaped K (X :: W1 :: R1) :=
    hc.shaped linear1 (by simp) outs e he _ (by simp [hin₁, hX, hW1, hR1])
  have hshape₂ : LinearShaped K (Z' :: W2 :: R2) :=
    hc.shaped linear2 (by simp) outs e he _ (by simp [hin₂, hZ', hW2, hR2])
  have hrun := Kernels.executeFusedFFN_eq (Kernels.affine_of_linearOf hL hshape₁ hlin) hact
    (Kernels.affine_of_linearOf hL hshape₂ hlin₂)
  have hempty : ∀ {rest : List ValRef} {R : List T}, rest.map e = R.map some →
      (!rest.isEmpty) = R.head?.isSome ∧ (rest.take 1).map e = R.head?.toList.map some := by
    intro rest R hR
    cases rest with
    | nil =>
      obtain rfl : R = [] := by simpa using hR.symm
      simp
    | cons v rest =>
      cases R with
      | nil => simp at hR
      | cons t R =>
        obtain ⟨hv, -⟩ : e v = some t ∧ rest.map e = R.map some := by simpa using hR
        simp [hv]
  refine ⟨lin₂, X :: W1 :: W2 :: (R1.head?.toList ++ R2.head?.toList), hy, ?_, ?_⟩
  · simp only [map_cons, map_append, hX, hW1, hW2, (hempty hR1).2, (hempty hR2).2]
  · rw [(hempty hR1).1, (hempty hR2).1]
    exact hrun

/-- Replacing one chain keeps what the graph computes. -/
theorem fuseTriple_evolves (hK : FusionLaws K) (hL : LinearLaws K) (h : g.WellFormed)
    (hs : linear1 ∈ g.nodes) (hm : g.matchNext linear1 .linear = some (o, act))
    (hop : g.opOf act = .gelu ∨ g.opOf act = .relu)
    (hm₂ : g.matchNext act (g.opOf act) = some (a, linear2)) (hop₂ : g.opOf linear2 = .linear)
    (hlen : 2 ≤ (g.inputsOf linear1).length) (hlen₂ : 2 ≤ (g.inputsOf linear2).length)
    (hc : g.FusesFFN K sc fwd args linear1 act linear2) :
    Evolves (interp K sc fwd) args g (g.fuseTriple linear1 act linear2) := by
  have hcast : g.opOf act ≠ .cast := by
    obtain hop | hop := hop
    · simp [hop]
    · simp [hop]
  obtain ⟨cs, w, a', hwalk, mt, hpass, hops⟩ := hc.first.1.matched h hs hm (by decide) hcast
  obtain ⟨cs₂, w₂, f, hwalk₂, mt₂, hpass₂, -⟩ :=
    hc.second.1.matched h mt.leads.consumer.1 hm₂ hcast (by simp [hop₂])
  obtain rfl : a' = a := by simpa [mt₂.out] using mt.consumerOut.symm
  have hfirst : (g.inputsOf act).head? = some w := hc.first.2 o (by simp [mt.out]) cs w hwalk
  have hfirst₂ : (g.inputsOf linear2).head? = some w₂ := hc.second.2 a' (by simp [mt₂.out]) cs₂ w₂ hwalk₂
  obtain ⟨x, w1, rest1, hin₁⟩ : ∃ x w1 rest1, g.inputsOf linear1 = x :: w1 :: rest1 := by
    match hin : g.inputsOf linear1 with
    | [] => simp [hin] at hlen
    | [_] => simp [hin] at hlen
    | x :: w1 :: rest1 => exact ⟨x, w1, rest1, rfl⟩
  obtain ⟨w2, rest2, hin₂⟩ : ∃ w2 rest2, g.inputsOf linear2 = w₂ :: w2 :: rest2 := by
    match hin : g.inputsOf linear2 with
    | [] => simp [hin] at hlen₂
    | [_] => simp [hin] at hlen₂
    | x :: w2 :: rest2 =>
      rw [hin, head?_cons, Option.some.injEq] at hfirst₂
      exact ⟨w2, rest2, by rw [hfirst₂]⟩
  have hlin : linear2 ∉ cs := fun hmem => absurd (mt.leads.casts hmem).2.1 (by simp [hop₂])
  have hne : linear2 ≠ act := fun heq => mt₂.ne h heq.symm
  have r := ffnRegion h mt mt₂ hin₁ hin₂ (usesOf_of_walk hwalk₂) hlin hne
  obtain ⟨k, dr, hbuild⟩ := buildNode_draft h .fusedFFN "fused_ffn"
    (ffnAttrs (!rest1.isEmpty) (!rest2.isEmpty) (g.opOf act)) "_out" (g.valAt f).shape
    (g.valAt f).dtype r.usable
  have hfuse : g.fuseTriple linear1 act linear2 =
      (k.addNode g.nextNode).substitute [f, o, a'] g.nextVal [linear2, act, linear1] := by
    simp only [fuseTriple, hin₁, hin₂, mt.out, mt₂.consumerOut, mt₂.out, hbuild]
    rfl
  rw [hfuse]
  apply r.evolves h dr hc.fresh
  intro outs e he
  obtain ⟨y, xs, hy, hxs, hrun⟩ := ffn_values hK hL mt mt₂ hpass hpass₂ hfirst hin₁ hin₂ hops hop hop₂ hc he
  refine ⟨y, xs, hy, fun c hmem => ?_, hxs, ?_⟩
  · obtain ⟨hopc, hid⟩ : g.opOf c = .cast ∧ ∀ x, K.leaf c .cast (g.attrsOf c) [x] = .ok [x] := by
      obtain hmem | hmem := mem_append.mp hmem
      · exact ⟨(mt.leads.casts hmem).2.1, (hpass c hmem).identity⟩
      · exact ⟨(mt₂.leads.casts hmem).2.1, (hpass₂ c hmem).identity⟩
    have hop' : (g.codeOf c).opType = .cast := hopc
    rw [interp_of_op sc fwd (by simp [hop']) (by simp [hop']), hop']
    exact hid y
  · rw [interp_of_op sc fwd (by simp) (by simp)]
    simp only [Kernels.leaf, Kernels.ffnAttrs_plain, Kernels.executePlain, hrun]
    rfl

end Chain

variable {args outs : List T} {g₁ : Graph T S} {l : List NodeRef} {n : NodeRef}

/-- A node whose result has a reader is listed, if the snapshot still describes it. -/
theorem Snapshot.mem_of_matchNext (hl : g.Snapshot l) (h : g.WellFormed) {r : NodeRef} {op : OpType}
    {o : ValRef} (hn : n ∈ l) (hm : g.matchNext n op = some (o, r)) : n ∈ g.nodes := by
  unfold matchNext at hm
  split_ifs at hm
  split at hm
  · cases hm
  · next o' os hout =>
      simp only [Option.map_eq_some_iff, nextOp] at hm
      obtain ⟨r', ⟨⟨cs, w, r''⟩, hwalk, -⟩, -⟩ := hm
      have hread : ∃ c ∈ g.nodes, o' ∈ g.inputsOf c := by
        rw [walk] at hwalk
        split at hwalk
        · cases hwalk
        · next c hc =>
            obtain ⟨hcn, hoc, -⟩ := sole_of_singleConsumer h.exact hc
            exact ⟨c, hcn, hoc⟩
      obtain ⟨c, hc, hoc⟩ := hread
      exact hl.mem_of_read h hn (by simp [hout]) hc hoc

/-- One round keeps what the graph computes when its match meets the condition. -/
theorem visitFFN_evolves (hK : FusionLaws K) (hL : LinearLaws K) (h : g.WellFormed)
    (hl : g.Snapshot l) (hn : n ∈ l) (hm : g.MeetsFFN K sc fwd args n) :
    Evolves (interp K sc fwd) args g (g.visitFFN n) := by
  unfold visitFFN
  split
  · next o act hmatch =>
      split_ifs with hop
      · split
        · next a linear2 hmatch₂ =>
            split_ifs with hop₂
            · by_cases hlen : 2 ≤ (g.inputsOf n).length ∧ 2 ≤ (g.inputsOf linear2).length
              · exact fuseTriple_evolves hK hL h (hl.mem_of_matchNext h hn hmatch) hmatch hop hmatch₂
                  hop₂ hlen.1 hlen.2 (hm o act a linear2 hmatch hop hmatch₂ hop₂ hlen.1 hlen.2)
              · -- a layer without a weight is left alone
                have hself : g.fuseTriple n act linear2 = g := by
                  unfold fuseTriple
                  split
                  · next hin₁ hin₂ _ _ => simp [hin₁, hin₂] at hlen
                  · rfl
                rw [hself]
                exact Evolves.refl h
            · exact Evolves.refl h
        · exact Evolves.refl h
      · exact Evolves.refl h
  · exact Evolves.refl h

/-- Every match of the pass meets the condition. -/
def RunMeetsFFN (K : Kernels T) (sc : Scalars T) (fwd : S → List T → Except Exn (List T))
    (args : List T) (g : Graph T S) : Prop :=
  Through visitFFN (fun k n => k.MeetsFFN K sc fwd args n) g g.nodes

theorem fuseFFN_evolves (hK : FusionLaws K) (hL : LinearLaws K) (h : g.WellFormed)
    (hm : g.RunMeetsFFN K sc fwd args) : Evolves (interp K sc fwd) args g g.fuseFFN := by
  apply foldl_through (fun k => Evolves (interp K sc fwd) args g k) _ hm (Evolves.refl h)
  intro k n hn hk hmeets
  exact hk.trans (visitFFN_evolves hK hL hk.wf (h.snapshot.evolves hk) hn hmeets)

/-- After the two passes the sorted graph returns what the original returned. -/
theorem forward_fuseFFN (hK : FusionLaws K) (hL : LinearLaws K) (h : g.WellFormed)
    (hm : FusionPass.linearRelu.RunMeets K g) (hr : FusionPass.linearRelu.run K g = .ok g₁)
    (hm₂ : g₁.RunMeetsFFN K sc fwd args) (hf : g.forward (interp K sc fwd) args = .ok outs) :
    ∃ g', g₁.fuseFFN.topologicalSort = .ok g' ∧ g'.forward (interp K sc fwd) args = .ok outs := by
  have hkeeps : FoldKeeps g g₁ (interp K sc fwd) := FusionPass.run_keeps hK _ h hm hr
  have hffn := fuseFFN_evolves hK hL hkeeps.wf hm₂
  obtain ⟨g', hsort, -, -, hfwd⟩ := @topologicalSort_spec T S (interp K sc fwd) _ hffn.wf
  have hy := hffn.yields outs (hkeeps.yields args outs (yields_of_forward h hf))
  exact ⟨g', hsort, hfwd args outs hy⟩

/-! ## An instance -/

theorem rationalKernels_linearLaws (shape : List Int) : LinearLaws (rationalKernels shape) where
  linear_eq := by
    intro x w b y _ h
    exact ⟨w, x * w, rfl, rfl, h⟩
  transpose_eq := by
    intro w _
    rfl

/-- `x + linear(relu(relu(linear(x))))`: the first layer takes up one ReLU, and the
marked layer starts a chain with the other. -/
def residualFFN : GraphLiteral ℚ Empty where
  vals := [{ id := "x", uses := [0, 4] }, { id := "w1", uses := [0] }, { id := "w2", uses := [3] },
    { id := "h", node := some 0, uses := [1] }, { id := "a", node := some 1, uses := [2] },
    { id := "b", node := some 2, uses := [3] }, { id := "f", node := some 3, uses := [4] },
    { id := "y", node := some 4 }]
  nodeList := [{ opType := .linear, inputs := [0, 1], outputs := [3] },
    { opType := .relu, inputs := [3], outputs := [4] },
    { opType := .relu, inputs := [4], outputs := [5] },
    { opType := .linear, inputs := [5, 2], outputs := [6] },
    { opType := .add, inputs := [0, 6], outputs := [7] }]
  order := [0, 1, 2, 3, 4]
  inputs := [0]
  outputs := [7]
  constants := [("w1", 2), ("w2", 3)]

theorem residualFFN_wellFormed : residualFFN.toGraph.WellFormed :=
  (GraphLiteral.wellFormed (by decide +kernel)).1

/-- The graph after the first pass. -/
def markedFFN : Graph ℚ Empty := residualFFN.toGraph.fuseRelu 0 1

theorem residualFFN_meets :
    FusionPass.linearRelu.RunMeets (rationalKernels [1, 1]) residualFFN.toGraph := by
  have hmatch : residualFFN.toGraph.matchNext 0 .linear = some (3, 1) := by decide +kernel
  have hfirst : FusionPass.linearRelu.Meets (rationalKernels [1, 1]) residualFFN.toGraph 0 := by
    intro o relu hm _
    obtain ⟨-, rfl⟩ : 3 = o ∧ 1 = relu := by simpa [hmatch] using hm
    constructor
    · exact foldable_of_walk (by decide +kernel) rfl rfl (by decide +kernel) (by decide +kernel)
    · exact firstOperand_of_walk rfl (by decide +kernel) rfl
  -- no other node is followed by a ReLU
  have hskip : ∀ n ∈ [1, 2, 3, 4],
      FusionPass.linearRelu.Meets (rationalKernels [1, 1]) markedFFN n ∧
        FusionPass.linearRelu.visit (rationalKernels [1, 1]) markedFFN n = .ok markedFFN := by
    have hnone : ∀ n ∈ [1, 2, 3, 4], ∀ r ∈ markedFFN.matchNext n .linear,
        markedFFN.opOf r.2 ≠ .relu := by decide +kernel
    intro n hn
    constructor
    · intro o relu hm hop
      exact absurd hop (hnone n hn (o, relu) hm)
    · simp only [FusionPass.visit]
      split
      · next o relu hm => rw [if_neg (hnone n hn (o, relu) hm)]
      · rfl
  have hstep : FusionPass.linearRelu.visit (rationalKernels [1, 1]) residualFFN.toGraph 0 =
      .ok markedFFN := by rfl
  refine ⟨hfirst, fun c hc => ?_⟩
  rw [hstep, Except.ok.injEq] at hc
  exact hc ▸ along_of_fixed hskip

theorem residualFFN_run : FusionPass.linearRelu.run (rationalKernels [1, 1]) residualFFN.toGraph =
    .ok markedFFN := by rfl

theorem markedFFN_wellFormed : markedFFN.WellFormed :=
  have hkeeps : FoldKeeps residualFFN.toGraph markedFFN
      (interp (rationalKernels [1, 1]) rationalScalars Empty.elim) :=
    FusionPass.run_keeps (rationalKernels_laws _) _ residualFFN_wellFormed residualFFN_meets
      residualFFN_run
  hkeeps.wf

theorem residualFFN_fuses : markedFFN.FusesFFN (rationalKernels [1, 1]) rationalScalars Empty.elim
    [5] 0 2 3 where
  first := by
    constructor
    · exact foldable_of_walk (by decide +kernel) rfl rfl (by decide +kernel) (by decide +kernel)
    · exact firstOperand_of_walk rfl (by decide +kernel) rfl
  second := by
    constructor
    · exact foldable_of_walk (by decide +kernel) rfl rfl (by decide +kernel) (by decide +kernel)
    · exact firstOperand_of_walk rfl (by decide +kernel) rfl
  unmarked1 := .inr (by decide +kernel)
  unmarked2 := by decide +kernel
  fresh := by
    have hids : ∀ v < 8, markedFFN.idOf v ≠ "fused_ffn_out" := by decide +kernel
    exact ⟨fun v hv => hids v (markedFFN_wellFormed.live_lt v hv), by decide +kernel⟩
  shaped := by
    have htwo : ∀ n ∈ [0, 3], (markedFFN.inputsOf n).length = 2 := by decide +kernel
    intro n hn outs e _ xs hxs
    have hlen : xs.length = 2 := by
      rw [← htwo n hn]
      simpa using (congrArg List.length hxs).symm
    obtain ⟨x, w, rfl⟩ := length_eq_two.mp hlen
    exact ⟨1, 1, rfl, rfl, by simp⟩

theorem residualFFN_meetsFFN : markedFFN.RunMeetsFFN (rationalKernels [1, 1]) rationalScalars
    Empty.elim [5] := by
  have hmatch : markedFFN.matchNext 0 .linear = some (3, 2) := by decide +kernel
  have hmatch₂ : markedFFN.matchNext 2 (markedFFN.opOf 2) = some (5, 3) := by decide +kernel
  -- no other linear layer is followed by an activation
  have hnone : ∀ n ∈ [2, 3, 4], ∀ r ∈ (markedFFN.visitFFN 0).matchNext n .linear,
      ¬ ((markedFFN.visitFFN 0).opOf r.2 = .gelu ∨ (markedFFN.visitFFN 0).opOf r.2 = .relu) := by
    decide +kernel
  refine ⟨?_, through_of_fixed fun n hn => ⟨?_, ?_⟩⟩
  · intro o act a linear2 hm _ hm₂ _ _ _
    obtain ⟨-, rfl⟩ : 3 = o ∧ 2 = act := by simpa [hmatch] using hm
    obtain ⟨-, rfl⟩ : 5 = a ∧ 3 = linear2 := by simpa [hmatch₂] using hm₂
    exact residualFFN_fuses
  · intro o act a linear2 hm hop
    exact absurd hop (hnone n hn (o, act) hm)
  · generalize hk : markedFFN.visitFFN 0 = k at hnone ⊢
    unfold visitFFN
    split
    · next o act hm => rw [if_neg (hnone n hn (o, act) hm)]
    · rfl

theorem forward_fuseFFN_residual : ∃ g₁ g',
    FusionPass.linearRelu.run (rationalKernels [1, 1]) residualFFN.toGraph = .ok g₁ ∧
    g₁.fuseFFN.topologicalSort = .ok g' ∧
    g'.forward (interp (rationalKernels [1, 1]) rationalScalars Empty.elim) [5] = .ok [35] := by
  have hf : residualFFN.toGraph.forward
      (interp (rationalKernels [1, 1]) rationalScalars Empty.elim) [5] = .ok [35] := by
    decide +kernel
  obtain ⟨g', h⟩ := forward_fuseFFN (rationalKernels_laws _) (rationalKernels_linearLaws _)
    residualFFN_wellFormed residualFFN_meets residualFFN_run residualFFN_meetsFFN hf
  exact ⟨_, g', residualFFN_run, h⟩

/-- `relu(linear(gelu(linear(x))))` with a bias in the second layer. -/
def ffnThenRelu : GraphLiteral ℚ Empty where
  vals := [{ id := "x", uses := [0] }, { id := "w1", uses := [0] }, { id := "w2", uses := [2] },
    { id := "b2", uses := [2] }, { id := "h", node := some 0, uses := [1] },
    { id := "a", node := some 1, uses := [2] }, { id := "f", node := some 2, uses := [3] },
    { id := "y", node := some 3 }]
  nodeList := [{ opType := .linear, inputs := [0, 1], outputs := [4] },
    { opType := .gelu, inputs := [4], outputs := [5] },
    { opType := .linear, inputs := [5, 2, 3], outputs := [6] },
    { opType := .relu, inputs := [6], outputs := [7] }]
  order := [0, 1, 2, 3]
  inputs := [0]
  outputs := [7]
  constants := [("w1", 1), ("w2", 1), ("b2", -1)]

/-- The marker on the second layer is gone with the layer. -/
theorem forward_ffnThenRelu :
    FusionLaws (rationalKernels [1]) ∧ LinearLaws (rationalKernels [1]) ∧
    ffnThenRelu.toGraph.WellFormed ∧
    ffnThenRelu.toGraph.forward (interp (rationalKernels [1]) rationalScalars Empty.elim) [0] =
      .ok [0] ∧
    (do
      let g₁ ← FusionPass.linearRelu.run (rationalKernels [1]) ffnThenRelu.toGraph
      let g' ← g₁.fuseFFN.topologicalSort
      g'.forward (interp (rationalKernels [1]) rationalScalars Empty.elim) [0]) = .ok [-1] :=
  ⟨rationalKernels_laws _, rationalKernels_linearLaws _,
    (GraphLiteral.wellFormed (by decide +kernel)).1, by decide +kernel, by decide +kernel⟩

end Graph

end Tenzor.Jit
