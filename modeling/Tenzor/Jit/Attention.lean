import Tenzor.Jit.FeedForward

/-!
# Attention fusion

`FuseAttentionPass` looks for `MatMul → Mul(scale) → Softmax → MatMul` around each
`Softmax` and puts one `FlashAttention` node in the place of the four. The executor
of that node transposes its second operand, which the first `MatMul` did not; of the
four results only the first is checked for other readers.

## Main statements

* `Graph.forward_fuseAttention`: the sorted graph returns what the original returned,
  if every match meets the condition.
-/

namespace Tenzor.Jit

open Throwing List

namespace Graph

variable {T S : Type} (K : Kernels T) (g : Graph T S)

/-! ## The pass -/

/-- `(batch, seq, dim)` or `(batch, heads, seq, dim)`. -/
def validateAttentionShapes (q k v : List Int) : Bool :=
  match q, k, v with
  | [b, h, _, d], [b', h', s', d'], [b'', h'', s'', _] =>
    b = b' ∧ b = b'' ∧ h = h' ∧ h = h'' ∧ d = d' ∧ s' = s''
  | [b, _, d], [b', s', d'], [b'', s'', _] => b = b' ∧ b = b'' ∧ d = d' ∧ s' = s''
  | _, _, _ => false

/-- The axis a `Softmax` normalizes. -/
def softmaxDim (softmax : NodeRef) : Int :=
  if (g.attrsOf softmax).hasIntAttr "dim" then (g.attrsOf softmax).getIntAttr "dim" else -1

/-- The axis is the last one of the recorded shape. -/
def lastAxis (softmax : NodeRef) (x : ValRef) : Bool :=
  let rank : Int := (g.valAt x).shape.length
  let dim := g.softmaxDim softmax
  let dim := if dim < 0 then dim + rank else dim
  ¬ (0 < rank ∧ dim ≠ rank - 1)

/-- The `Mul` before the `Softmax`, and whether an `Add` of a mask is in between. -/
def scaleNode (x : ValRef) : Option (NodeRef × Bool) :=
  match g.producer x with
  | none => none
  | some pre =>
    if g.opOf pre = .add then
      match ((g.inputsOf pre).head?).bind g.producer with
      | some m => if g.opOf m = .mul then some (m, true) else none
      | none => none
    else if g.opOf pre = .mul then some (pre, false) else none

/-- The first operand of the `Mul` that a `MatMul` produces. -/
def qkMatmul (scale : NodeRef) : Option NodeRef :=
  (g.inputsOf scale).findSome? fun v => (g.producer v).filter fun m => g.opOf m = .matMul

/-- The tensor of a `Constant` node with one element. -/
def scalarConstant (v : ValRef) : Option T :=
  ((g.producer v).filter fun m => g.opOf m = .constant).bind fun m =>
    ((g.attrsOf m).getTensorAttr "value").filter fun t => K.numel t = 1

/-- The other operand of the `Mul` is a scalar constant. -/
def scaledByConstant (qk scale : NodeRef) : Bool :=
  let qkId := match g.outputsOf qk with
    | [] => ""
    | o :: _ => g.idOf o
  match (g.inputsOf scale).find? fun v => ¬ (qkId ≠ "" ∧ g.idOf v = qkId) with
  | some v => (g.scalarConstant K v).isSome
  | none => false

/-- The operand of the last `MatMul` that is not the result of the `Softmax`. -/
def otherOperand (av : NodeRef) (probs : ValRef) : Option ValRef :=
  (g.inputsOf av).find? fun v => g.idOf v ≠ g.idOf probs

/-- The scale rounded to Float32, when the first constant operand is a scalar. -/
def attentionAttrs (scale : NodeRef) : Except Exn (Attrs T) :=
  match (g.inputsOf scale).find? fun v => (g.producer v).any fun m => g.opOf m = .constant with
  | none => .ok {}
  | some v =>
    match g.scalarConstant K v with
    | none => .ok {}
    | some t => do
        let t ← K.convert .float32 t
        let x ← K.first t
        return ({} : Attrs T).setAttr "scale" x

def fuseAttention (qk scale softmax av : NodeRef) (probs : ValRef) : Except Exn (Graph T S) :=
  match g.inputsOf qk, g.otherOperand av probs with
  | q :: k :: _, some v => do
      let attrs ← g.attentionAttrs K scale
      match g.outputsOf av with
      | [] => return (g.draftNode .flashAttention "flash_attention" [q, k, v] attrs).2
      | old :: _ =>
        let new := g.buildNode .flashAttention "flash_attention" [q, k, v] attrs "_out"
          (g.valAt old).shape (g.valAt old).dtype
        return new.2.substitute [old] new.1 [av, softmax, scale, qk]
  | _, _ => .ok g

/-- The four nodes around a `Softmax`, its result, and whether a mask is added. -/
structure AttentionMatch where
  qk : NodeRef
  scale : NodeRef
  av : NodeRef
  probs : ValRef
  masked : Bool
  deriving DecidableEq, Repr

/-- The search around a `Softmax`. -/
def matchAttention (softmax : NodeRef) : Option AttentionMatch :=
  if g.opOf softmax = .softmax then
    match g.inputsOf softmax, g.outputsOf softmax with
    | x :: _, probs :: _ => do
        guard (g.lastAxis softmax x)
        let (scale, masked) ← g.scaleNode x
        guard (2 ≤ (g.inputsOf scale).length)
        let qk ← g.qkMatmul scale
        guard (2 ≤ (g.inputsOf qk).length)
        guard (g.scaledByConstant K qk scale)
        guard (((g.outputsOf qk).head?).all fun o => (g.usesOf o).length ≤ 1)
        let av ← (g.usesOf probs).find? fun n => g.opOf n = .matMul
        guard (2 ≤ (g.inputsOf av).length)
        let v ← g.otherOperand av probs
        let q ← (g.inputsOf qk)[0]?
        let k ← (g.inputsOf qk)[1]?
        guard (validateAttentionShapes (g.valAt q).shape (g.valAt k).shape (g.valAt v).shape)
        return ⟨qk, scale, av, probs, masked⟩
    | _, _ => none
  else none

/-- A match with a mask is refused. -/
def visitAttention (n : NodeRef) : Except Exn (Graph T S) :=
  match g.matchAttention K n with
  | some m => if m.masked then .ok g else g.fuseAttention K m.qk m.scale n m.av m.probs
  | none => .ok g

/-- One round of the loop over positions of the node list, which changes under it. -/
def visitAttentionAt (i : Nat) : Except Exn (Graph T S) :=
  match g.nodes[i]? with
  | some n => g.visitAttention K n
  | none => .ok g

/-- No round makes the list longer, so the positions of the first list are enough. -/
def fuseAttentions : Except Exn (Graph T S) :=
  (List.range g.nodes.length).foldlM (fun h i => h.visitAttentionAt K i) g

section Match

variable {K} {g} {n : NodeRef} {m : AttentionMatch}

structure MatchedAttention (K : Kernels T) (g : Graph T S) (n : NodeRef) (m : AttentionMatch) :
    Prop where
  op : g.opOf n = .softmax
  operand : ∃ x xs, g.inputsOf n = x :: xs ∧ g.scaleNode x = some (m.scale, m.masked)
  probs : ∃ ps, g.outputsOf n = m.probs :: ps
  scaleInputs : 2 ≤ (g.inputsOf m.scale).length
  qk : g.qkMatmul m.scale = some m.qk
  qkInputs : 2 ≤ (g.inputsOf m.qk).length
  scaled : g.scaledByConstant K m.qk m.scale = true
  qkUses : ∀ o, (g.outputsOf m.qk).head? = some o → (g.usesOf o).length ≤ 1
  avInputs : 2 ≤ (g.inputsOf m.av).length
  av : (g.usesOf m.probs).find? (fun n => g.opOf n = .matMul) = some m.av
  value : ∃ v, g.otherOperand m.av m.probs = some v

theorem matchAttention_spec (h : g.matchAttention K n = some m) : MatchedAttention K g n m := by
  unfold matchAttention at h
  split_ifs at h with hop
  split at h
  · next x xs probs ps hin hout =>
      simp only [Option.bind_eq_bind, Option.bind_eq_some_iff, guard_eq_some, Prod.exists,
        Option.pure_def, Option.some.injEq] at h
      obtain ⟨-, -, scale, masked, hscale, -, htwo, qk, hqk, -, hlen, -, hscaled, -, huses, av, hav, -, htwo', v,
        hv, q, hq, k, hk, -, -, rfl⟩ := h
      exact {
        op := hop
        operand := ⟨x, xs, hin, hscale⟩
        probs := ⟨ps, hout⟩
        scaleInputs := htwo
        qk := hqk
        qkInputs := hlen
        scaled := hscaled
        qkUses := by
          intro o ho
          simpa [ho] using huses
        avInputs := htwo'
        av := hav
        value := ⟨v, hv⟩ }
  · cases h

end Match

end Graph

/-- Products commute, a one-element factor acts as the number it holds, and the last
axis of a softmax may be named from either end. -/
structure AttentionLaws {T : Type} (K : Kernels T) : Prop where
  mul_comm : ∀ {x y z}, K.mul x y = .ok z → K.mul y x = .ok z
  mul_scalar : ∀ {x c z s}, K.numel c = 1 → (K.shape c).length ≤ (K.shape x).length →
    promoteTypes (K.dtype x) (K.dtype c) = K.dtype x → K.first c = .ok s → K.mul x c = .ok z →
    K.mul x (K.full1 s (K.dtype x)) = .ok z
  softmax_last : ∀ {dim : Int} {x y}, dim + 1 = (K.shape x).length → K.softmax dim x = .ok y →
    K.softmax (-1) x = .ok y

/-- The fused node sees the same scores: the second operand may be transposed, the
constant is a number that Float32 holds and does not widen the scores, and the
softmax runs over their last axis. -/
structure SameScores {T : Type} (K : Kernels T) (dim : Int) (a b c scores scaled : T) : Prop where
  transposed : ∃ bt, K.transpose (-2) (-1) b = .ok bt ∧ K.matmul a bt = .ok scores
  exact : ∀ c', K.convert .float32 c = .ok c' → K.first c' = K.first c
  rank : (K.shape c).length ≤ (K.shape scores).length
  dtype : promoteTypes (K.dtype scores) (K.dtype c) = K.dtype scores
  last : dim = -1 ∨ dim + 1 = (K.shape scaled).length

namespace Graph

variable {T S : Type} {K : Kernels T} {g : Graph T S} {sc : Scalars T}
  {fwd : S → List T → Except Exn (List T)} {args outs : List T} {e : ValRef → Option T}
  {n : NodeRef} {g' : Graph T S}

/-- The axis the interpreter takes. -/
def executedDim (g : Graph T S) (softmax : NodeRef) : Int :=
  if (g.attrsOf softmax).hasAttr "dim" then (g.attrsOf softmax).getIntAttr "dim" else -1

/-- The fused node stands for the four: nobody else reads or returns what they compute
on the way, no marker is lost, the operands are where the pass expects them, the id is
free, and at run time the scores are those of the fused node. -/
structure FusesAttention (K : Kernels T) (sc : Scalars T) (fwd : S → List T → Except Exn (List T))
    (args : List T) (g : Graph T S) (n : NodeRef) (m : AttentionMatch) : Prop where
  plain : ∀ d ∈ [m.qk, m.scale, n, m.av], g.Plain d
  single : ∀ d ∈ [m.qk, m.scale, n, m.av], (g.outputsOf d).length = 1
  unmarked : ∀ d ∈ [m.qk, m.av], (g.attrsOf d).getBoolAttr "fused_bias" = false ∧
    (g.attrsOf d).getBoolAttr "fused_relu" = false
  scaledSole : ∀ v ∈ g.outputsOf m.scale, g.usesOf v = [n]
  probsSole : ∀ v ∈ g.outputsOf n, g.usesOf v = [m.av]
  unobserved : ∀ d ∈ [m.qk, m.scale, n], ∀ v ∈ g.outputsOf d, v ∉ g.outputs
  left : (g.inputsOf m.av).head? = some m.probs
  factors : ∀ v ∈ g.outputsOf m.qk, v ∈ (g.inputsOf m.scale).take 2
  constant : ∀ c ∈ g.inputsOf m.scale, ∀ d, g.producer c = some d → g.opOf d = .constant → g.Plain d
  fresh : g.FreshId "flash_attention_out"
  scores : ∀ outs e, g.Assigns (interp K sc fwd) args outs e → ∀ q k rest a b c scores scaled,
    g.inputsOf m.qk = q :: k :: rest → e q = some a → e k = some b →
    (∃ v ∈ (g.inputsOf m.scale).take 2, g.scalarConstant K v = some c) →
    K.matmul a b = .ok scores → K.mul scores c = .ok scaled →
    SameScores K (g.executedDim n) a b c scores scaled

/-- The match at a node, if there is one, meets the condition. -/
def MeetsAttention (K : Kernels T) (sc : Scalars T) (fwd : S → List T → Except Exn (List T))
    (args : List T) (g : Graph T S) (n : NodeRef) : Prop :=
  ∀ m, g.matchAttention K n = some m → m.masked = false → g.FusesAttention K sc fwd args n m

/-! ## Reading a match -/

section Read

variable {n : NodeRef} {m : AttentionMatch} {scale qk : NodeRef}

/-- The addresses of a match: the results of the four nodes and the scale constant. -/
structure AttentionParts (K : Kernels T) (g : Graph T S) (n : NodeRef) (m : AttentionMatch)
    (q k v o c p f : ValRef) (t : T) : Prop where
  mem : ∀ d ∈ [m.qk, m.scale, n, m.av], d ∈ g.nodes
  ops : g.opOf m.qk = .matMul ∧ g.opOf m.scale = .mul ∧ g.opOf n = .softmax ∧ g.opOf m.av = .matMul
  outs : g.outputsOf m.qk = [o] ∧ g.outputsOf m.scale = [p] ∧ g.outputsOf n = [m.probs] ∧
    g.outputsOf m.av = [f]
  qkInputs : ∃ rest, g.inputsOf m.qk = q :: k :: rest
  scaleInputs : (g.inputsOf m.scale).take 2 = [o, c] ∨ (g.inputsOf m.scale).take 2 = [c, o]
  softmaxInputs : ∃ rest, g.inputsOf n = p :: rest
  avInputs : ∃ rest, g.inputsOf m.av = m.probs :: v :: rest
  other : g.otherOperand m.av m.probs = some v
  ne : v ≠ m.probs
  uses : g.usesOf o = [m.scale] ∧ g.usesOf p = [n] ∧ g.usesOf m.probs = [m.av]
  scalar : g.scalarConstant K c = some t
  attrs : (g.inputsOf m.scale).find? (fun v => (g.producer v).any fun d => g.opOf d = .constant) =
    some c

theorem scaleNode_spec {x : ValRef} (h : g.scaleNode x = some (scale, false)) :
    g.producer x = some scale ∧ g.opOf scale = .mul := by
  unfold scaleNode at h
  split at h
  · cases h
  · next pre hpre =>
      split_ifs at h with hadd hmul
      · split at h
        · simp at h
        · cases h
      · obtain rfl : pre = scale := by simpa using h
        exact ⟨hpre, hmul⟩

theorem qkMatmul_spec (h : g.qkMatmul scale = some qk) :
    ∃ v ∈ g.inputsOf scale, g.producer v = some qk ∧ g.opOf qk = .matMul := by
  obtain ⟨v, hv, hp⟩ := exists_of_findSome?_eq_some h
  obtain ⟨hp, hop⟩ := Option.filter_eq_some_iff.mp hp
  exact ⟨v, hv, hp, by simpa using hop⟩

theorem scalarConstant_spec {v : ValRef} {t : T} (h : g.scalarConstant K v = some t) :
    ∃ d, g.producer v = some d ∧ g.opOf d = .constant ∧
      (g.attrsOf d).getTensorAttr "value" = some t ∧ K.numel t = 1 := by
  obtain ⟨d, hd, ht⟩ := Option.bind_eq_some_iff.mp h
  obtain ⟨hd, hop⟩ := Option.filter_eq_some_iff.mp hd
  obtain ⟨ht, hone⟩ := Option.filter_eq_some_iff.mp ht
  exact ⟨d, hd, by simpa using hop, ht, by simpa using hone⟩

/-- One of the two factors is the product, the other the scale. -/
theorem scaleOperands (h : g.WellFormed) {o : ValRef} (hs : scale ∈ g.nodes)
    (hout : g.outputsOf qk = [o]) (hp : g.producer o = some qk) (hop : g.opOf qk = .matMul)
    (hlen : 2 ≤ (g.inputsOf scale).length) (ho : o ∈ (g.inputsOf scale).take 2)
    (huses : (g.usesOf o).length ≤ 1) (hc : g.scaledByConstant K qk scale = true) :
    ∃ c t, ((g.inputsOf scale).take 2 = [o, c] ∨ (g.inputsOf scale).take 2 = [c, o]) ∧
      g.scalarConstant K c = some t ∧
      (g.inputsOf scale).find? (fun v => (g.producer v).any fun d => g.opOf d = .constant) =
        some c := by
  have hnot : g.scalarConstant K o = none := by simp [scalarConstant, hp, hop]
  obtain ⟨x, y, rest, hin⟩ : ∃ x y rest, g.inputsOf scale = x :: y :: rest := by
    match hin : g.inputsOf scale with
    | [] => simp [hin] at hlen
    | [_] => simp [hin] at hlen
    | x :: y :: rest => exact ⟨x, y, rest, rfl⟩
  have hx : g.Live x := live_inputsOf hs (by simp [hin])
  have hy : g.Live y := live_inputsOf hs (by simp [hin])
  have hcount : (g.inputsOf scale).count o ≤ 1 := by
    have hexact := h.exact o scale
    rw [if_pos hs] at hexact
    rw [← hexact]
    exact count_le_length.trans huses
  rw [hin] at ho hcount ⊢
  simp only [scaledByConstant, hout, hin] at hc
  simp only [take_succ_cons, take_zero, mem_cons, not_mem_nil, or_false] at ho ⊢
  have hconst : ∀ v t, g.scalarConstant K v = some t →
      (g.producer v).any (fun d => g.opOf d = .constant) = true := by
    intro v t ht
    obtain ⟨d, hd, hopd, -⟩ := scalarConstant_spec ht
    simp [hd, hopd]
  have hprod : (g.producer o).any (fun d => g.opOf d = .constant) = false := by simp [hp, hop]
  -- the first operand that is not the product is the scalar
  obtain rfl | rfl := ho
  · have hne : g.idOf y ≠ g.idOf o := by
      intro hid
      obtain rfl := h.id_inj hy hx hid
      simp at hcount
    by_cases hid : g.idOf o = ""
    · simp [hid, hnot] at hc
    · have hy : (g.scalarConstant K y).isSome = true := by simpa [hid, hne] using hc
      obtain ⟨t, ht⟩ := Option.isSome_iff_exists.mp hy
      exact ⟨y, t, .inl rfl, ht, by simp [hprod, hconst y t ht]⟩
  · have hne : g.idOf x ≠ g.idOf o := by
      intro hid
      obtain rfl := h.id_inj hx hy hid
      simp at hcount
    have hx : (g.scalarConstant K x).isSome = true := by simpa [hne] using hc
    obtain ⟨t, ht⟩ := Option.isSome_iff_exists.mp hx
    exact ⟨x, t, .inr rfl, ht, by simp [hconst x t ht]⟩

theorem attentionParts (h : g.WellFormed) (hn : n ∈ g.nodes) (hm : MatchedAttention K g n m)
    (hmask : m.masked = false) (hc : g.FusesAttention K sc fwd args n m) :
    ∃ q k v o c p f t, AttentionParts K g n m q k v o c p f t := by
  have hsingle : ∀ d ∈ [m.qk, m.scale, n, m.av], ∃ v, g.outputsOf d = [v] :=
    fun d hd => length_eq_one_iff.mp (hc.single d hd)
  obtain ⟨o, ho⟩ := hsingle m.qk (by simp)
  obtain ⟨p, hp⟩ := hsingle m.scale (by simp)
  obtain ⟨f, hf⟩ := hsingle m.av (by simp)
  obtain ⟨ps, hps⟩ := hm.probs
  have hprobs : g.outputsOf n = [m.probs] := by
    obtain ⟨r, hr⟩ := hsingle n (by simp)
    rw [hps] at hr
    rw [hps, (List.cons.inj hr).2]
  -- the softmax reads the result of the scale
  obtain ⟨x, xs, hx, hscale⟩ := hm.operand
  rw [hmask] at hscale
  obtain ⟨hpx, hmul⟩ := scaleNode_spec hscale
  have hxlive : g.Live x := live_inputsOf hn (by simp [hx])
  obtain ⟨hscale, hxout⟩ := h.producer_mem hxlive hpx
  obtain rfl : x = p := by simpa [hp] using hxout
  -- the scale reads the product
  obtain ⟨o', ho', hpo, hmat⟩ := qkMatmul_spec hm.qk
  obtain ⟨hqk, hoout⟩ := h.producer_mem (live_inputsOf hscale ho') hpo
  obtain rfl : o' = o := by simpa [ho] using hoout
  have huses := hm.qkUses o' (by simp [ho])
  obtain ⟨c, t, hpair, ht, hattr⟩ := scaleOperands h hscale ho hpo hmat hm.scaleInputs
    (hc.factors o' (by simp [ho])) huses hm.scaled
  have huse : g.usesOf o' = [m.scale] := by
    have hmem : m.scale ∈ g.usesOf o' := h.exact.mem_usesOf_iff.mpr ⟨hscale, ho'⟩
    match hu : g.usesOf o' with
    | [] => simp [hu] at hmem
    | [_] => simpa [hu, eq_comm] using hmem
    | _ :: _ :: _ => simp [hu] at huses
  -- the last product reads the probabilities
  have hav : m.av ∈ g.usesOf m.probs := mem_of_find?_eq_some hm.av
  have hopav : g.opOf m.av = .matMul := by simpa using find?_some hm.av
  obtain ⟨hav, -⟩ := h.exact.mem_usesOf_iff.mp hav
  obtain ⟨v, hv⟩ := hm.value
  have hvne : v ≠ m.probs := by
    have hne := find?_some hv
    rintro rfl
    simp at hne
  have hprobsUses := hc.probsSole m.probs (by simp [hprobs])
  obtain ⟨rest, hin⟩ : ∃ rest, g.inputsOf m.av = m.probs :: v :: rest := by
    have hlen := hm.avInputs
    match hin : g.inputsOf m.av with
    | [] => simp [hin] at hlen
    | [_] => simp [hin] at hlen
    | a :: b :: rest =>
      obtain rfl : a = m.probs := by simpa [hin] using hc.left
      have hb : b ≠ m.probs := fun heq =>
        h.not_mem_tail hav hprobsUses hin (heq ▸ mem_cons_self)
      have hid : g.idOf b ≠ g.idOf m.probs := fun hid =>
        hb (h.id_inj (live_inputsOf hav (by simp [hin])) (live_inputsOf hav (by simp [hin])) hid)
      obtain rfl : b = v := by simpa [otherOperand, hin, hid] using hv
      exact ⟨rest, rfl⟩
  obtain ⟨q, k, rest', hqin⟩ : ∃ q k rest', g.inputsOf m.qk = q :: k :: rest' := by
    have hlen := hm.qkInputs
    match hin : g.inputsOf m.qk with
    | [] => simp [hin] at hlen
    | [_] => simp [hin] at hlen
    | a :: b :: rest => exact ⟨a, b, rest, rfl⟩
  exact ⟨q, k, v, o', c, x, f, t, {
    mem := by
      intro d hd
      simp only [mem_cons, not_mem_nil, or_false] at hd
      obtain rfl | rfl | rfl | rfl := hd
      · exact hqk
      · exact hscale
      · exact hn
      · exact hav
    ops := ⟨hmat, hmul, hm.op, hopav⟩
    outs := ⟨ho, hp, hprobs, hf⟩
    qkInputs := ⟨rest', hqin⟩
    scaleInputs := hpair
    softmaxInputs := ⟨xs, hx⟩
    avInputs := ⟨rest, hin⟩
    other := hv
    ne := hvne
    uses := ⟨huse, hc.scaledSole x (by simp [hp]), hprobsUses⟩
    scalar := ht
    attrs := hattr }⟩

namespace AttentionParts

variable {q k v o c p f : ValRef} {t : T} (pt : AttentionParts K g n m q k v o c p f t) {z : ValRef}
  {d : NodeRef} {scores scaled : T}

include pt

theorem o_mem : o ∈ g.inputsOf m.scale := by
  obtain hin | hin := pt.scaleInputs
  · exact mem_of_mem_take (i := 2) (by simp [hin])
  · exact mem_of_mem_take (i := 2) (by simp [hin])

/-- The order of the four nodes. -/
theorem ranks {rank : NodeRef → Nat} (hr : g.Ranked rank) :
    rank m.qk < rank m.scale ∧ rank m.scale < rank n ∧ rank n < rank m.av := by
  obtain ⟨hqk, hscale, hn, hav⟩ : m.qk ∈ g.nodes ∧ m.scale ∈ g.nodes ∧ n ∈ g.nodes ∧ m.av ∈ g.nodes := by
    simpa using pt.mem
  obtain ⟨ho, hp, hprobs, -⟩ := pt.outs
  obtain ⟨xs, hx⟩ := pt.softmaxInputs
  obtain ⟨ys, hy⟩ := pt.avInputs
  refine ⟨hr _ hscale o pt.o_mem _ hqk (by simp [ho]), ?_, ?_⟩
  · exact hr _ hn p (by simp [hx]) _ hscale (by simp [hp])
  · exact hr _ hav m.probs (by simp [hy]) _ hn (by simp [hprobs])

/-- Each result on the way has one reader. -/
theorem reader (h : g.WellFormed) (hd : d ∈ g.nodes) (hz : z ∈ g.inputsOf d) :
    (z = o → d = m.scale) ∧ (z = p → d = n) ∧ (z = m.probs → d = m.av) := by
  have hmem : d ∈ g.usesOf z := h.exact.mem_usesOf_iff.mpr ⟨hd, hz⟩
  obtain ⟨h₁, h₂, h₃⟩ := pt.uses
  refine ⟨?_, ?_, ?_⟩
  · rintro rfl
    simpa [h₁] using hmem
  · rintro rfl
    simpa [h₂] using hmem
  · rintro rfl
    simpa [h₃] using hmem

/-- What the fused node reads comes from one of the two products. -/
theorem source {w : ValRef} (hw : w ∈ [q, k, v]) :
    (∃ d ∈ [m.qk, m.av], w ∈ g.inputsOf d) ∧ (w ∈ g.inputsOf m.qk ∨ w = v) := by
  obtain ⟨xs, hx⟩ := pt.qkInputs
  obtain ⟨ys, hy⟩ := pt.avInputs
  simp only [mem_cons, not_mem_nil, or_false] at hw
  obtain rfl | rfl | rfl := hw
  · exact ⟨⟨m.qk, by simp, by simp [hx]⟩, .inl (by simp [hx])⟩
  · exact ⟨⟨m.qk, by simp, by simp [hx]⟩, .inl (by simp [hx])⟩
  · exact ⟨⟨m.av, by simp, by simp [hy]⟩, .inr rfl⟩

theorem region (h : g.WellFormed) (hc : g.FusesAttention K sc fwd args n m) :
    Region g [q, k, v] f m.av [o, p, m.probs] [] [m.av, n, m.scale, m.qk] [f] := by
  obtain ⟨hqk, hscale, hn, hav⟩ : m.qk ∈ g.nodes ∧ m.scale ∈ g.nodes ∧ n ∈ g.nodes ∧ m.av ∈ g.nodes := by
    simpa using pt.mem
  obtain ⟨ho, hp, hprobs, hf⟩ := pt.outs
  obtain ⟨hopqk, hopscale, hopn, hopav⟩ := pt.ops
  have hlisted : ∀ w ∈ [q, k, v], ∃ d ∈ [m.qk, m.av], d ∈ g.nodes ∧ w ∈ g.inputsOf d := by
    intro w hw
    obtain ⟨⟨d, hd, hwd⟩, -⟩ := pt.source hw
    exact ⟨d, hd, pt.mem d (by simp at hd ⊢; tauto), hwd⟩
  have hrankle : ∀ rank, g.Ranked rank → ∀ d ∈ [m.qk, m.av], rank d ≤ rank m.av := by
    intro rank hr d hd
    obtain ⟨h₁, h₂, h₃⟩ := pt.ranks hr
    simp only [mem_cons, not_mem_nil, or_false] at hd
    obtain rfl | rfl := hd
    · exact Nat.le_of_lt (h₁.trans (h₂.trans h₃))
    · exact le_rfl
  constructor
  case mem => exact hav
  case final => simp [hf]
  case ds_mem =>
    intro d hd
    exact pt.mem d (by simp at hd ⊢; tauto)
  case cs_mem => simp
  case olds_cases => simp
  case olds_produced =>
    intro w hw
    exact ⟨m.av, by simp, by simp [hf, hw]⟩
  case dropped =>
    intro d hd w hw
    simp only [mem_cons, not_mem_nil, or_false] at hd
    obtain rfl | rfl | rfl | rfl := hd
    · exact .inl (by simpa [hf] using hw)
    · exact .inr (by simp_all)
    · exact .inr (by simp_all)
    · exact .inr (by simp_all)
  case unobserved =>
    intro z hz
    simp only [mem_cons, not_mem_nil, or_false] at hz
    obtain rfl | rfl | rfl := hz
    · exact hc.unobserved m.qk (by simp) _ (by simp [ho])
    · exact hc.unobserved m.scale (by simp) _ (by simp [hp])
    · exact hc.unobserved n (by simp) _ (by simp [hprobs])
  case produced =>
    intro z hz
    simp only [mem_cons, not_mem_nil, or_false] at hz
    obtain rfl | rfl | rfl := hz
    · exact ⟨m.qk, by simp [ho], by simp⟩
    · exact ⟨m.scale, by simp [hp], by simp⟩
    · exact ⟨n, by simp [hprobs], by simp⟩
  case reads =>
    intro d hd _ hnd w hw hz
    obtain ⟨h₁, h₂, h₃⟩ := pt.reader h hd hw
    simp only [mem_cons, not_mem_nil, or_false, not_or] at hz hnd
    obtain rfl | rfl | rfl := hz
    · exact hnd.2.2.1 (h₁ rfl)
    · exact hnd.2.1 (h₂ rfl)
    · exact hnd.1 (h₃ rfl)
  case casts => simp
  case live =>
    intro w hw
    obtain ⟨d, -, hd, hwd⟩ := hlisted w hw
    exact live_inputsOf hd hwd
  case usable =>
    intro w hw
    obtain ⟨d, -, hd, hwd⟩ := hlisted w hw
    exact h.usable_input hd hwd
  case apart =>
    intro w hw
    obtain ⟨rank, hrank⟩ := h.acyclic
    obtain ⟨r₁, r₂, r₃⟩ := pt.ranks hrank
    constructor
    · intro hwf
      rw [mem_singleton] at hwf
      subst hwf
      obtain ⟨d, hdm, hd, hwd⟩ := hlisted w hw
      have hlt := hrank d hd w hwd m.av hav (by simp [hf])
      exact absurd hlt (Nat.not_lt.mpr (hrankle rank hrank d hdm))
    · intro hz
      have hdiff : ∀ d ∈ [m.qk, m.av], d ≠ m.scale ∧ d ≠ n := by
        intro d hd
        simp only [mem_cons, not_mem_nil, or_false] at hd
        obtain rfl | rfl := hd
        · exact ⟨fun he => by simp [he, hopscale] at hopqk, fun he => by simp [he, hopn] at hopqk⟩
        · exact ⟨fun he => by simp [he, hopscale] at hopav, fun he => by simp [he, hopn] at hopav⟩
      obtain ⟨d, hdm, hd, hwd⟩ := hlisted w hw
      obtain ⟨h₁, h₂, -⟩ := pt.reader h hd hwd
      simp only [mem_cons, not_mem_nil, or_false] at hz
      obtain rfl | rfl | rfl := hz
      · exact (hdiff d hdm).1 (h₁ rfl)
      · exact (hdiff d hdm).2 (h₂ rfl)
      · obtain ⟨-, hwq | hwv⟩ := pt.source hw
        · have heq := (pt.reader h hqk hwq).2.2 rfl
          rw [heq] at r₁
          omega
        · exact pt.ne hwv.symm
  case below =>
    intro rank hr w hw d hd hwd
    obtain ⟨d', hdm, hd', hwd'⟩ := hlisted w hw
    exact (hr d' hd' w hwd' d hd hwd).trans_le (hrankle rank hr d' hdm)

omit pt in
/-- An unmarked product. -/
theorem matmul_values (he : g.Assigns (interp K sc fwd) args outs e) (hd : d ∈ g.nodes)
    (hplain : g.Plain d) (hop : g.opOf d = .matMul)
    (hmark : (g.attrsOf d).getBoolAttr "fused_bias" = false ∧
      (g.attrsOf d).getBoolAttr "fused_relu" = false) {x y : ValRef} {rest : List ValRef}
    (hin : g.inputsOf d = x :: y :: rest) (hout : g.outputsOf d = [z]) :
    ∃ a b r, e x = some a ∧ e y = some b ∧ K.matmul a b = .ok r ∧ e z = some r := by
  obtain ⟨xs, ys, hxs, hys, hw⟩ := he.nodes d hd
  rw [hin, map_cons, map_cons] at hxs
  rw [interp_plain sc fwd hplain hop (by decide) (by decide)] at hys
  match xs with
  | [] => simp at hxs
  | [_] => simp at hxs
  | a :: b :: xs =>
    simp only [map_cons, List.cons.injEq] at hxs
    simp only [Kernels.executePlain, Kernels.executeMatMul, Kernels.addFusedBias, Kernels.reluIf,
      hmark, Bool.false_eq_true, if_false, bind_eq_ok, pure_eq_ok, Except.ok.injEq] at hys
    obtain ⟨r, hr, _, rfl, _, rfl, rfl⟩ := hys
    refine ⟨a, b, r, hxs.1, hxs.2.1, hr, ?_⟩
    simpa using hw 0 z (by simp [hout])

/-- The scaled scores: the constant may be either factor. -/
theorem scaled_values (hA : AttentionLaws K) (h : g.WellFormed)
    (he : g.Assigns (interp K sc fwd) args outs e) (hc : g.FusesAttention K sc fwd args n m)
    (hscores : e o = some scores) : ∃ scaled, K.mul scores t = .ok scaled ∧ e p = some scaled := by
  have hscale : m.scale ∈ g.nodes := pt.mem m.scale (by simp)
  obtain ⟨xs, ys, hxs, hys, hw⟩ := he.nodes m.scale hscale
  rw [interp_plain sc fwd (hc.plain m.scale (by simp)) pt.ops.2.1 (by decide) (by decide)] at hys
  have hout : ∀ r, ys = [r] → e p = some r := by
    rintro r rfl
    simpa using hw 0 p (by simp [pt.outs.2.1])
  have hcin : c ∈ g.inputsOf m.scale := by
    obtain hin | hin := pt.scaleInputs
    · exact mem_of_mem_take (i := 2) (by simp [hin])
    · exact mem_of_mem_take (i := 2) (by simp [hin])
  have hct : e c = some t := by
    obtain ⟨x, hx⟩ := he.bound hscale hcin
    obtain ⟨d, hd, hop, ht, -⟩ := scalarConstant_spec pt.scalar
    rw [hx, constant_value h he (live_inputsOf hscale hcin) hx hd hop (hc.constant c hcin d hd hop) ht]
  have htake : ((g.inputsOf m.scale).take 2).map e = (xs.take 2).map some := by
    rw [map_take, hxs, map_take]
  obtain ⟨a, b, xs, rfl⟩ : ∃ a b rest, xs = a :: b :: rest := by
    have hlen : ((g.inputsOf m.scale).take 2).length = 2 := by
      obtain hin | hin := pt.scaleInputs
      · simp [hin]
      · simp [hin]
    have hlen' := congrArg List.length htake
    rw [length_map, hlen] at hlen'
    match xs with
    | [] => simp at hlen'
    | [_] => simp at hlen'
    | a :: b :: rest => exact ⟨a, b, rest, rfl⟩
  simp only [Kernels.executePlain, Kernels.binary, bind_eq_ok, pure_eq_ok] at hys
  obtain ⟨r, hr, rfl⟩ := hys
  refine ⟨r, ?_, hout r rfl⟩
  obtain hin | hin := pt.scaleInputs
  · obtain ⟨rfl, rfl⟩ : scores = a ∧ t = b := by simpa [hin, hscores, hct] using htake
    exact hr
  · obtain ⟨rfl, rfl⟩ : t = a ∧ scores = b := by simpa [hin, hscores, hct] using htake
    exact hA.mul_comm hr

/-- The probabilities, over the last axis. -/
theorem softmax_values (he : g.Assigns (interp K sc fwd) args outs e)
    (hc : g.FusesAttention K sc fwd args n m) (hscaled : e p = some scaled) :
    ∃ r, K.softmax (g.executedDim n) scaled = .ok r ∧ e m.probs = some r := by
  obtain ⟨xs, ys, hxs, hys, hw⟩ := he.nodes n (pt.mem n (by simp))
  rw [interp_plain sc fwd (hc.plain n (by simp)) pt.ops.2.2.1 (by decide) (by decide)] at hys
  obtain ⟨rest, hin⟩ := pt.softmaxInputs
  rw [hin, map_cons, hscaled] at hxs
  match xs with
  | [] => simp at hxs
  | x :: xs =>
    obtain ⟨rfl, -⟩ : scaled = x ∧ _ := by simpa using hxs
    simp only [Kernels.executePlain, Kernels.unary, bind_eq_ok, pure_eq_ok] at hys
    obtain ⟨r, hr, rfl⟩ := hys
    exact ⟨r, hr, by simpa using hw 0 m.probs (by simp [pt.outs.2.2.1])⟩

omit pt in
/-- What the fused node computes when its scores are those of the chain. -/
theorem executeFlashAttention_eq (hA : AttentionLaws K) {dim : Int} {a b c probs v y : T}
    (hs : SameScores K dim a b c scores scaled) (hone : K.numel c = 1) {x : ℚ}
    (hx : K.first c = .ok x) (hscaled : K.mul scores c = .ok scaled)
    (hprobs : K.softmax dim scaled = .ok probs) (hy : K.matmul probs v = .ok y) :
    K.executeFlashAttention (({} : Attrs T).setAttr "scale" x) [a, b, v] = .ok [y] := by
  obtain ⟨bt, hbt, hmm⟩ := hs.transposed
  have hmul := hA.mul_scalar hone hs.rank hs.dtype hx hscaled
  have hsoft : K.softmax (-1) scaled = .ok probs := by
    obtain rfl | hdim := hs.last
    · exact hprobs
    · exact hA.softmax_last hdim hprobs
  have hdrop : (({} : Attrs T).setAttr "scale" x).hasFloatAttr "dropout_p" = false := by
    simp [Attrs.hasFloatAttr, Attrs.setAttr]
  have hset : (({} : Attrs T).setAttr "scale" x).hasFloatAttr "scale" = true := by
    simp [Attrs.hasFloatAttr, Attrs.setAttr]
  have hget : (({} : Attrs T).setAttr "scale" x).getAttr "scale" = x := by
    simp [Attrs.getAttr, Attrs.setAttr]
  have hcausal : (({} : Attrs T).setAttr "scale" x).hasBoolAttr "causal" = false := by
    simp [Attrs.hasBoolAttr, Attrs.setAttr]
  simp only [Kernels.executeFlashAttention, Kernels.replayFlashAttentionCore, hdrop, hset, hget,
    Kernels.maskScores, hcausal, bind_eq_ok, pure_eq_ok, throwIf_eq_ok, head?_nil]
  exact ⟨y, ⟨(), by simp, bt, hbt, scores, hmm, scaled, hmul, scaled, rfl, probs, hsoft, hy⟩, rfl⟩

end AttentionParts

end Read

/-- Replacing one match keeps what the graph computes. -/
theorem fuseAttention_evolves (hA : AttentionLaws K) (h : g.WellFormed) (hn : n ∈ g.nodes)
    {m : AttentionMatch} (hm : g.matchAttention K n = some m) (hmask : m.masked = false)
    (hc : g.FusesAttention K sc fwd args n m)
    (hg : g.fuseAttention K m.qk m.scale n m.av m.probs = .ok g') :
    Evolves (interp K sc fwd) args g g' := by
  obtain ⟨q, k, v, o, c, p, f, t, pt⟩ := attentionParts h hn (matchAttention_spec hm) hmask hc
  have r := pt.region h hc
  obtain ⟨rest, hqk⟩ := pt.qkInputs
  obtain ⟨rest', hav⟩ := pt.avInputs
  obtain ⟨-, -, -, hf⟩ := pt.outs
  -- the scale attribute is the constant's number, rounded
  have hattrs : ∀ attrs, g.attentionAttrs K m.scale = .ok attrs → ∃ t' x,
      K.convert .float32 t = .ok t' ∧ K.first t' = .ok x ∧ attrs = ({} : Attrs T).setAttr "scale" x := by
    intro attrs ha
    simp only [attentionAttrs, pt.attrs, pt.scalar, bind_eq_ok, pure_eq_ok] at ha
    obtain ⟨t', ht', x, hx, rfl⟩ := ha
    exact ⟨t', x, ht', hx, rfl⟩
  simp only [fuseAttention, hqk, pt.other, hf, bind_eq_ok, pure_eq_ok] at hg
  obtain ⟨attrs, ha, hg⟩ := hg
  obtain ⟨t', x, ht', hx, rfl⟩ := hattrs attrs ha
  obtain ⟨k', dr, hbuild⟩ := buildNode_draft h .flashAttention "flash_attention"
    (({} : Attrs T).setAttr "scale" x) "_out" (g.valAt f).shape (g.valAt f).dtype r.usable
  rw [hbuild] at hg
  subst hg
  apply r.evolves h dr hc.fresh
  intro outs e he
  obtain ⟨hqkn, -, -, havn⟩ : m.qk ∈ g.nodes ∧ m.scale ∈ g.nodes ∧ n ∈ g.nodes ∧ m.av ∈ g.nodes := by
    simpa using pt.mem
  obtain ⟨a, b, scores, hqa, hkb, hmm, ho⟩ := AttentionParts.matmul_values he hqkn
    (hc.plain m.qk (by simp)) pt.ops.1 (hc.unmarked m.qk (by simp)) hqk pt.outs.1
  obtain ⟨scaled, hmul, hp⟩ := pt.scaled_values hA h he hc ho
  obtain ⟨probs, hsoft, hprobs⟩ := pt.softmax_values he hc hp
  obtain ⟨probs', w, y, hprobs', hvw, hy, hfy⟩ := AttentionParts.matmul_values he havn
    (hc.plain m.av (by simp)) pt.ops.2.2.2 (hc.unmarked m.av (by simp)) hav hf
  obtain rfl : probs = probs' := Option.some.inj (hprobs.symm.trans hprobs')
  have hctake : c ∈ (g.inputsOf m.scale).take 2 := by
    obtain hin | hin := pt.scaleInputs
    · simp [hin]
    · simp [hin]
  have hs := hc.scores outs e he q k rest a b t scores scaled hqk hqa hkb ⟨c, hctake, pt.scalar⟩ hmm hmul
  obtain ⟨-, -, -, -, hone⟩ := scalarConstant_spec pt.scalar
  have hrun := AttentionParts.executeFlashAttention_eq hA hs hone ((hs.exact t' ht').symm.trans hx) hmul
    hsoft hy
  refine ⟨y, [a, b, w], hfy, by simp, by simp [hqa, hkb, hvw], ?_⟩
  rw [interp_of_op sc fwd (by simp) (by simp)]
  have hplain : (({} : Attrs T).setAttr "scale" x).hasAttr "fusion_kind" = false := by
    simp [Attrs.hasAttr, Attrs.hasIntAttr, Attrs.hasBoolAttr, Attrs.hasFloatAttr, Attrs.hasVecAttr,
      Attrs.hasTensorAttr, Attrs.setAttr]
  simp only [Kernels.leaf, hplain, Kernels.executePlain, hrun]
  rfl

theorem visitAttention_evolves (hA : AttentionLaws K) (h : g.WellFormed) (hn : n ∈ g.nodes)
    (hm : g.MeetsAttention K sc fwd args n) (hg : g.visitAttention K n = .ok g') :
    Evolves (interp K sc fwd) args g g' := by
  unfold visitAttention at hg
  split at hg
  · next m hmatch =>
      split_ifs at hg with hmask
      · obtain rfl := Except.ok.inj hg
        exact Evolves.refl h
      · have hfree : m.masked = false := by simpa using hmask
        exact fuseAttention_evolves hA h hn hmatch hfree (hm m hmatch hfree) hg
  · obtain rfl := Except.ok.inj hg
    exact Evolves.refl h

/-- Every match of the pass meets the condition. -/
def RunMeetsAttention (K : Kernels T) (sc : Scalars T) (fwd : S → List T → Except Exn (List T))
    (args : List T) (g : Graph T S) : Prop :=
  Along (fun k i => k.visitAttentionAt K i)
    (fun k i => ∀ n ∈ k.nodes[i]?, k.MeetsAttention K sc fwd args n) g (List.range g.nodes.length)

theorem fuseAttentions_evolves (hA : AttentionLaws K) (h : g.WellFormed)
    (hm : g.RunMeetsAttention K sc fwd args) (hg : g.fuseAttentions K = .ok g') :
    Evolves (interp K sc fwd) args g g' := by
  apply foldlM_along (fun k => Evolves (interp K sc fwd) args g k) _ hg hm (Evolves.refl h)
  intro k i k' _ hk hmeets hv
  apply hk.trans
  unfold visitAttentionAt at hv
  split at hv
  · next n hn => exact visitAttention_evolves hA hk.wf (mem_of_getElem? hn) (hmeets n hn) hv
  · obtain rfl := Except.ok.inj hv
    exact Evolves.refl hk.wf

/-- After the pass the sorted graph returns what the original returned. -/
theorem forward_fuseAttention (hA : AttentionLaws K) (h : g.WellFormed)
    (hm : g.RunMeetsAttention K sc fwd args) {g₁ : Graph T S} (hg : g.fuseAttentions K = .ok g₁)
    (hf : g.forward (interp K sc fwd) args = .ok outs) :
    ∃ g', g₁.topologicalSort = .ok g' ∧ g'.forward (interp K sc fwd) args = .ok outs := by
  have hev := fuseAttentions_evolves hA h hm hg
  obtain ⟨g', hsort, -, -, hfwd⟩ := @topologicalSort_spec T S (interp K sc fwd) _ hev.wf
  exact ⟨g', hsort, hfwd args outs (hev.yields outs (yields_of_forward h hf))⟩

end Graph

/-! ## An instance -/

/-- The number `rational + logs * ln 2`. -/
structure LogNumber where
  rational : ℚ
  logs : ℚ
  deriving DecidableEq

/-- A scalar, or a batch of one 2 × 2 matrix. -/
inductive LogTensor
  | scalar (x : LogNumber)
  | square (a b c d : LogNumber)
  deriving DecidableEq

namespace LogNumber

def ofRat (x : ℚ) : LogNumber := ⟨x, 0⟩

def add (x y : LogNumber) : LogNumber := ⟨x.rational + y.rational, x.logs + y.logs⟩

/-- The product of two logarithms is not a number of this form. -/
def mul (x y : LogNumber) : Except Exn LogNumber :=
  if x.logs * y.logs = 0 then
    .ok ⟨x.rational * y.rational, x.rational * y.logs + x.logs * y.rational⟩
  else .error (.runtimeError "inexact")

theorem mul_comm (x y : LogNumber) : x.mul y = y.mul x := by
  unfold mul
  rw [Rat.mul_comm x.logs, Rat.mul_comm x.rational, Rat.add_comm, Rat.mul_comm x.logs,
    Rat.mul_comm x.rational]

/-- The softmax of two numbers whose difference is a power's logarithm. -/
def softmax2 (x y : LogNumber) : Except Exn (LogNumber × LogNumber) :=
  if x.rational = y.rational ∧ (y.logs - x.logs).den = 1 then
    let p : ℚ := 2 ^ (y.logs - x.logs).num
    .ok (ofRat (1 / (1 + p)), ofRat (p / (1 + p)))
  else .error (.runtimeError "inexact")

/-- `x * a + y * b`. -/
def dot (x y a b : LogNumber) : Except Exn LogNumber := do
  let l ← x.mul a
  let r ← y.mul b
  return l.add r

end LogNumber

namespace LogTensor

open LogNumber

def shape : LogTensor → List Int
  | scalar _ => [1]
  | square .. => [1, 2, 2]

def mul : LogTensor → LogTensor → Except Exn LogTensor
  | scalar x, scalar y => scalar <$> x.mul y
  | scalar x, square a b c d | square a b c d, scalar x => do
      let a ← x.mul a
      let b ← x.mul b
      let c ← x.mul c
      let d ← x.mul d
      return square a b c d
  | square a b c d, square a' b' c' d' => do
      let a ← a.mul a'
      let b ← b.mul b'
      let c ← c.mul c'
      let d ← d.mul d'
      return square a b c d

def matmul : LogTensor → LogTensor → Except Exn LogTensor
  | square a b c d, square a' b' c' d' => do
      let x ← dot a b a' c'
      let y ← dot a b b' d'
      let z ← dot c d a' c'
      let w ← dot c d b' d'
      return square x y z w
  | _, _ => .error (.runtimeError "matmul")

def transpose (i j : Int) : LogTensor → Except Exn LogTensor
  | square a b c d => if i = -2 ∧ j = -1 then .ok (square a c b d) else .error (.runtimeError "transpose")
  | scalar _ => .error (.runtimeError "transpose")

def softmax (dim : Int) : LogTensor → Except Exn LogTensor
  | square a b c d =>
    if dim = -1 ∨ dim = 2 then do
      let ab ← softmax2 a b
      let cd ← softmax2 c d
      return square ab.1 ab.2 cd.1 cd.2
    else .error (.runtimeError "softmax")
  | scalar _ => if dim = -1 ∨ dim = 0 then .ok (scalar (ofRat 1)) else .error (.runtimeError "softmax")

def first : LogTensor → Except Exn ℚ
  | scalar x | square x _ _ _ => if x.logs = 0 then .ok x.rational else .error (.runtimeError "inexact")

end LogTensor

/-- An interpretation in which every kernel throws. -/
def Kernels.refusing {T : Type} (shape : T → List Int) (dtype : T → DType) (zero : T) : Kernels T where
  shape := shape
  dtype := dtype
  convert _ _ := .error (.runtimeError "convert")
  cast _ _ := .error (.runtimeError "cast")
  add _ _ := .error (.runtimeError "add")
  sub _ _ := .error (.runtimeError "sub")
  mul _ _ := .error (.runtimeError "mul")
  div _ _ := .error (.runtimeError "div")
  addScalar _ _ := .error (.runtimeError "add")
  matmul _ _ := .error (.runtimeError "matmul")
  bmm _ _ := .error (.runtimeError "bmm")
  linear _ _ _ := .error (.runtimeError "linear")
  relu _ := .error (.runtimeError "relu")
  gelu _ := .error (.runtimeError "gelu")
  exp _ := .error (.runtimeError "exp")
  log _ := .error (.runtimeError "log")
  sqrt _ := .error (.runtimeError "sqrt")
  abs _ := .error (.runtimeError "abs")
  neg _ := .error (.runtimeError "neg")
  softmax _ _ := .error (.runtimeError "softmax")
  transpose _ _ _ := .error (.runtimeError "transpose")
  reshape _ _ := .error (.runtimeError "reshape")
  where_ _ _ _ := .error (.runtimeError "where")
  conv _ _ := .error (.runtimeError "conv")
  batchNorm _ _ := .error (.runtimeError "batch_norm")
  batchNormAffine _ _ := .error (.runtimeError "batch_norm")
  layerNorm _ _ _ := .error (.runtimeError "layer_norm")
  sum _ _ _ := .error (.runtimeError "sum")
  mean _ _ _ := .error (.runtimeError "mean")
  max _ _ _ := .error (.runtimeError "max")
  min _ _ _ := .error (.runtimeError "min")
  argmax _ _ _ := zero
  argmin _ _ _ := zero
  pow _ _ := .error (.runtimeError "pow")
  floatPower _ _ := .error (.runtimeError "float_power")
  rrelu _ _ _ := .error (.runtimeError "rrelu")
  first _ := .error (.runtimeError "item")
  full1 _ _ := zero
  ones _ _ := zero
  zeros _ _ := zero
  int64s _ := []
  invSqrt _ := 1
  causalMask _ _ := .error (.runtimeError "triu")
  fusedGpu _ _ _ := .error (.runtimeError "no device")
  other _ _ _ := .error (.runtimeError "other")

/-- The kernels a fused attention needs, over exact numbers. -/
def logKernels : Kernels LogTensor :=
  { Kernels.refusing LogTensor.shape (fun _ => .float32) (.scalar (LogNumber.ofRat 0)) with
    convert := fun _ x => .ok x
    mul := LogTensor.mul
    matmul := LogTensor.matmul
    transpose := LogTensor.transpose
    softmax := LogTensor.softmax
    first := LogTensor.first
    full1 := fun x _ => .scalar (LogNumber.ofRat x) }

theorem logKernels_laws : AttentionLaws logKernels where
  mul_comm := by
    intro x y z h
    change LogTensor.mul x y = .ok z at h
    change LogTensor.mul y x = .ok z
    cases x <;> cases y <;> simpa only [LogTensor.mul, LogNumber.mul_comm] using h
  mul_scalar := by
    intro x c z s hone _ _ hs hmul
    cases c with
    | scalar c =>
      have hc : c = LogNumber.ofRat s := by
        obtain ⟨r, l⟩ := c
        change (if l = 0 then Except.ok r else _) = Except.ok s at hs
        split_ifs at hs with hl
        rw [hl, Except.ok.inj hs]
        rfl
      rw [hc] at hmul
      exact hmul
    | square a b c d => simp [Kernels.numel, logKernels, Kernels.refusing, LogTensor.shape] at hone
  softmax_last := by
    intro dim x y hdim h
    change LogTensor.softmax dim x = .ok y at h
    change LogTensor.softmax (-1) x = .ok y
    cases x with
    | scalar x =>
      have h0 : dim = 0 := by
        change dim + 1 = 1 at hdim
        omega
      simpa [LogTensor.softmax, h0] using h
    | square a b c d =>
      have h2 : dim = 2 := by
        change dim + 1 = 3 at hdim
        omega
      simpa [LogTensor.softmax, h2] using h

open Graph

def logScalars : Scalars LogTensor where
  toBool _ := .ok true
  toInt _ := .ok 0
  ofIter i := .scalar (LogNumber.ofRat i)
  ofCond _ := .scalar (LogNumber.ofRat 1)

/-- `softmax((A B) * 1) V`, one batch of 2 × 2 matrices each. -/
def attentionChain : GraphLiteral LogTensor Empty where
  vals := [{ id := "A", shape := [1, 2, 2], uses := [1] },
    { id := "B", shape := [1, 2, 2], uses := [1] }, { id := "V", shape := [1, 2, 2], uses := [4] },
    { id := "c", shape := [1], node := some 0, uses := [2] },
    { id := "qk", shape := [1, 2, 2], node := some 1, uses := [2] },
    { id := "scaled", shape := [1, 2, 2], node := some 2, uses := [3] },
    { id := "probs", shape := [1, 2, 2], node := some 3, uses := [4] },
    { id := "out", shape := [1, 2, 2], node := some 4 }]
  nodeList := [{ opType := .constant, outputs := [3], attrs :=
      { tensors := Finmap.singleton "value" (.scalar (LogNumber.ofRat 1)) } },
    { opType := .matMul, inputs := [0, 1], outputs := [4] },
    { opType := .mul, inputs := [4, 3], outputs := [5] },
    { opType := .softmax, inputs := [5], outputs := [6] },
    { opType := .matMul, inputs := [6, 2], outputs := [7] }]
  order := [0, 1, 2, 3, 4]
  inputs := [0, 1, 2]
  outputs := [7]

/-- A matrix of rational numbers, and one of multiples of `ln 2`. -/
def rationalMatrix (a b c d : ℚ) : LogTensor :=
  .square (LogNumber.ofRat a) (LogNumber.ofRat b) (LogNumber.ofRat c) (LogNumber.ofRat d)

def logMatrix (a b c d : ℚ) : LogTensor := .square ⟨0, a⟩ ⟨0, b⟩ ⟨0, c⟩ ⟨0, d⟩

theorem attentionChain_wellFormed : attentionChain.toGraph.WellFormed :=
  (GraphLiteral.wellFormed (by decide +kernel)).1

theorem attentionChain_match :
    attentionChain.toGraph.matchAttention logKernels 3 = some ⟨1, 2, 4, 6, false⟩ := by
  decide +kernel

theorem attentionChain_fuses : attentionChain.toGraph.FusesAttention logKernels logScalars Empty.elim
    [logMatrix 1 0 0 1, rationalMatrix 0 1 1 0, rationalMatrix 1 0 0 1] 3 ⟨1, 2, 4, 6, false⟩ where
  plain := by decide +kernel
  single := by decide +kernel
  unmarked := by decide +kernel
  scaledSole := by decide +kernel
  probsSole := by decide +kernel
  unobserved := by decide +kernel
  left := by decide +kernel
  factors := by decide +kernel
  constant := by
    intro c _ d hd hop
    have hone : d = 0 := by
      obtain ⟨-, hmem⟩ := Option.filter_eq_some_iff.mp hd
      have hlist : ∀ d ∈ attentionChain.toGraph.nodes, attentionChain.toGraph.opOf d = .constant →
          d = 0 := by decide +kernel
      exact hlist d (by simpa using hmem) hop
    rw [hone]
    decide +kernel
  fresh := by
    have hids : ∀ v < 8, attentionChain.toGraph.idOf v ≠ "flash_attention_out" := by decide +kernel
    exact ⟨fun v hv => hids v (attentionChain_wellFormed.live_lt v hv), by decide +kernel⟩
  scores := by
    intro outs e he q k rest a b c scores scaled hin hq hk hc hmm hmul
    obtain ⟨rfl, rfl, -⟩ : 0 = q ∧ 1 = k ∧ [] = rest := by
      have hval : attentionChain.toGraph.inputsOf 1 = [0, 1] := by decide +kernel
      simpa [hval] using hin
    obtain rfl : logMatrix 1 0 0 1 = a := by simpa [hq] using (he.inputs 0 0 rfl).symm
    obtain rfl : rationalMatrix 0 1 1 0 = b := by simpa [hk] using (he.inputs 1 1 rfl).symm
    obtain rfl : LogTensor.scalar (LogNumber.ofRat 1) = c := by
      obtain ⟨v, hv, hcv⟩ := hc
      have hall : ∀ v ∈ (attentionChain.toGraph.inputsOf 2).take 2,
          ∀ c ∈ attentionChain.toGraph.scalarConstant logKernels v,
            LogTensor.scalar (LogNumber.ofRat 1) = c := by decide +kernel
      exact hall v hv c hcv
    obtain rfl : logMatrix 0 1 1 0 = scores := by
      have hval : logKernels.matmul (logMatrix 1 0 0 1) (rationalMatrix 0 1 1 0) =
          .ok (logMatrix 0 1 1 0) := by decide +kernel
      exact Except.ok.inj (hval.symm.trans hmm)
    exact {
      transposed := ⟨rationalMatrix 0 1 1 0, by decide +kernel, by decide +kernel⟩
      exact := by
        intro c' hc'
        rw [← Except.ok.inj hc']
      rank := by decide +kernel
      dtype := by decide +kernel
      last := .inl (by decide +kernel) }

theorem attentionChain_meets : attentionChain.toGraph.RunMeetsAttention logKernels logScalars
    Empty.elim [logMatrix 1 0 0 1, rationalMatrix 0 1 1 0, rationalMatrix 1 0 0 1] := by
  have hnone : ∀ n ∈ [0, 1, 2], attentionChain.toGraph.matchAttention logKernels n = none := by
    decide +kernel
  have hlist : ∀ i ∈ [0, 1, 2, 3], attentionChain.toGraph.nodes[i]? = some i := by decide +kernel
  have hskip : ∀ i ∈ [0, 1, 2],
      (∀ n ∈ attentionChain.toGraph.nodes[i]?, attentionChain.toGraph.MeetsAttention logKernels
        logScalars Empty.elim
        [logMatrix 1 0 0 1, rationalMatrix 0 1 1 0, rationalMatrix 1 0 0 1] n) ∧
      attentionChain.toGraph.visitAttentionAt logKernels i = .ok attentionChain.toGraph := by
    intro i hi
    have hget := hlist i (by simp at hi ⊢; tauto)
    constructor
    · intro n hn m hm
      obtain rfl : i = n := by simpa [hget] using hn
      simp [hnone i hi] at hm
    · simp [visitAttentionAt, visitAttention, hget, hnone i hi]
  change Along _ _ _ ([0, 1, 2] ++ [3, 4])
  apply along_append_of_fixed hskip
  refine ⟨fun n hn m hm _ => ?_, fun c hc => ⟨fun n hn => ?_, fun _ _ => trivial⟩⟩
  · obtain rfl : 3 = n := by simpa [hlist 3 (by simp)] using hn
    obtain rfl := Option.some.inj (attentionChain_match.symm.trans hm)
    exact attentionChain_fuses
  · -- two nodes are left
    have hnodes : (attentionChain.toGraph.visitAttentionAt logKernels 3).map (fun c => c.nodes) =
        .ok [0, 5] := by decide +kernel
    rw [show attentionChain.toGraph.visitAttentionAt logKernels 3 = .ok c from hc] at hnodes
    have hc' : c.nodes = [0, 5] := Except.ok.inj hnodes
    simp [hc'] at hn

theorem forward_fuseAttention_symmetric : ∃ g₁ g',
    attentionChain.toGraph.fuseAttentions logKernels = .ok g₁ ∧ g₁.topologicalSort = .ok g' ∧
    g'.forward (interp logKernels logScalars Empty.elim)
      [logMatrix 1 0 0 1, rationalMatrix 0 1 1 0, rationalMatrix 1 0 0 1] =
        .ok [rationalMatrix (1 / 3) (2 / 3) (2 / 3) (1 / 3)] := by
  have hok : (attentionChain.toGraph.fuseAttentions logKernels).toBool = true := by decide +kernel
  cases hr : attentionChain.toGraph.fuseAttentions logKernels with
  | error err => simp [hr, Except.toBool] at hok
  | ok g₁ =>
    have hf : attentionChain.toGraph.forward (interp logKernels logScalars Empty.elim)
        [logMatrix 1 0 0 1, rationalMatrix 0 1 1 0, rationalMatrix 1 0 0 1] =
          .ok [rationalMatrix (1 / 3) (2 / 3) (2 / 3) (1 / 3)] := by decide +kernel
    obtain ⟨g', h⟩ := forward_fuseAttention logKernels_laws attentionChain_wellFormed
      attentionChain_meets hr hf
    exact ⟨g₁, g', rfl, h⟩

/-- With a second operand that is not symmetric the fused node computes other scores. -/
theorem forward_attentionChain_transposed :
    AttentionLaws logKernels ∧ attentionChain.toGraph.WellFormed ∧
    attentionChain.toGraph.forward (interp logKernels logScalars Empty.elim)
      [logMatrix 1 0 0 1, rationalMatrix 0 1 0 0, rationalMatrix 1 0 0 1] =
        .ok [rationalMatrix (1 / 3) (2 / 3) (1 / 2) (1 / 2)] ∧
    (do
      let g₁ ← attentionChain.toGraph.fuseAttentions logKernels
      let g' ← g₁.topologicalSort
      g'.forward (interp logKernels logScalars Empty.elim)
        [logMatrix 1 0 0 1, rationalMatrix 0 1 0 0, rationalMatrix 1 0 0 1]) =
        .ok [rationalMatrix (1 / 2) (1 / 2) (2 / 3) (1 / 3)] :=
  ⟨logKernels_laws, attentionChain_wellFormed, by decide +kernel, by decide +kernel⟩

end Tenzor.Jit
