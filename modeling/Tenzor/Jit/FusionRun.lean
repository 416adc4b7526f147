import Tenzor.Jit.FusionSound
import Tenzor.Jit.GraphLiteral
import Mathlib.Data.Rat.Sqrt
import Mathlib.Tactic.FieldSimp
import Mathlib.Tactic.Ring

/-!
# Runs of the folding passes

Any number of iterations of the six folding passes in any order, followed by the
sort that ends `Compiler::optimize`. Each visit keeps what the graph computes when
its match meets the condition, so a run whose visits all do keeps it too.

## Main statements

* `FusionPass.forward_runAll`: the sorted graph returns what the original returned.
-/

namespace Tenzor.Jit

variable {shape : List Int} {w : ℚ} {b : Option ℚ} {T S : Type} {s r : NodeRef} {o : ValRef}
  {g : Graph T S}

open Throwing

namespace Graph

variable {T S : Type} {g g' g'' : Graph T S} {exec : Exec T S}

theorem FoldKeeps.trans (h : FoldKeeps g g' exec) (h' : FoldKeeps g' g'' exec) :
    FoldKeeps g g'' exec where
  wf := h'.wf
  yields := fun ins outs hy => h'.yields ins outs (h.yields ins outs hy)
  opOf := fun n => (h'.opOf n).trans (h.opOf n)
  anchors := by
    intro n hn hop
    have hmid : n ∈ g'.nodes := h.anchors n hn hop
    exact h'.anchors n hmid (by rwa [h.opOf n])

end Graph

namespace FusionPass

open Graph

variable {T S : Type} {K : Kernels T} {g g' : Graph T S} {sc : Scalars T}
  {fwd : S → List T → Except Exn (List T)}

/-- Every match of the pass meets the condition. -/
def RunMeets (K : Kernels T) (g : Graph T S) (pass : FusionPass) : Prop :=
  Along (pass.visit K) (pass.Meets K) g g.nodes

/-- A pass keeps what the graph computes when its matches meet the condition. -/
theorem run_keeps (hK : FusionLaws K) (pass : FusionPass) (h : g.WellFormed)
    (hm : pass.RunMeets K g) (hr : pass.run K g = .ok g') : FoldKeeps g g' (interp K sc fwd) := by
  apply foldlM_along (fun k => FoldKeeps g k (interp K sc fwd)) _ hr hm (FoldKeeps.refl h _)
  intro b n c hn hb hmeets hv
  -- a node of the snapshot that a pass anchors at is still listed
  have hlisted : b.opOf n ∈ anchors → n ∈ b.nodes := by
    intro hop
    exact hb.anchors n hn (by rwa [← hb.opOf n])
  exact hb.trans (visit_keeps hK pass hb.wf hlisted hmeets hv)

theorem runAll_keeps (hK : FusionLaws K) (passes : List FusionPass) (h : g.WellFormed)
    (hm : Along (fun k pass => pass.run K k) (RunMeets K) g passes)
    (hr : runAll K passes g = .ok g') : FoldKeeps g g' (interp K sc fwd) := by
  apply foldlM_along (fun k => FoldKeeps g k (interp K sc fwd)) _ hr hm (FoldKeeps.refl h _)
  intro b pass c _ hb hmeets hrun
  exact hb.trans (run_keeps hK pass hb.wf hmeets hrun)

/-- The sorted graph returns what the original returned, for every run of the
passes whose matches all meet the condition. -/
theorem forward_runAll (hK : FusionLaws K) (passes : List FusionPass) (h : g.WellFormed)
    (hm : Along (fun k pass => pass.run K k) (RunMeets K) g passes)
    (hr : runAll K passes g = .ok g') {ins outs : List T}
    (hf : g.forward (interp K sc fwd) ins = .ok outs) :
    ∃ g'', g'.topologicalSort = .ok g'' ∧ g''.forward (interp K sc fwd) ins = .ok outs := by
  have hkeeps : FoldKeeps g g' (interp K sc fwd) := runAll_keeps hK passes h hm hr
  obtain ⟨g'', hsort, -, -, hfwd⟩ := @topologicalSort_spec T S (interp K sc fwd) g' hkeeps.wf
  exact ⟨g'', hsort, hfwd ins outs (hkeeps.yields ins outs (yields_of_forward h hf))⟩

end FusionPass

open Graph

/-- The exact square root. -/
def rationalSqrt (x : ℚ) : Except Exn ℚ :=
  if Rat.sqrt x * Rat.sqrt x = x then .ok (Rat.sqrt x) else .error (.runtimeError "inexact")

/-- Tensors of one element, all of one shape, with exact arithmetic; what has no exact
value throws. -/
def rationalKernels (shape : List Int) : Kernels ℚ where
  shape _ := shape
  dtype _ := .float64
  convert _ x := .ok x
  cast _ x := .ok x
  add x y := .ok (x + y)
  sub x y := .ok (x - y)
  mul x y := .ok (x * y)
  div x y := .ok (x / y)
  addScalar x c := .ok (x + c)
  matmul x y := .ok (x * y)
  bmm x y := .ok (x * y)
  linear x w b := .ok (x * w + b)
  relu x := .ok (max x 0)
  gelu x := if x = 0 then .ok 0 else .error (.runtimeError "inexact")
  exp x := if x = 0 then .ok 1 else .error (.runtimeError "inexact")
  log x := if x = 1 then .ok 0 else .error (.runtimeError "inexact")
  sqrt x := rationalSqrt x
  abs x := .ok |x|
  neg x := .ok (-x)
  softmax _ _ := .ok 1
  transpose _ _ x := .ok x
  reshape _ x := .ok x
  where_ c x y := .ok (if c = 0 then y else x)
  conv _ xs := match xs with
    | [x, w] => .ok [x * w]
    | [x, w, b] => .ok [x * w + b]
    | _ => .error (.runtimeError "conv")
  batchNorm eps xs := match xs with
    | [x, mean, var] => do
        let root ← rationalSqrt (var + eps)
        return [(x - mean) / root]
    | _ => .error (.runtimeError "batch_norm")
  batchNormAffine eps xs := match xs with
    | [x, mean, var, gamma, beta] => do
        let root ← rationalSqrt (var + eps)
        return [(x - mean) / root * gamma + beta]
    | _ => .error (.runtimeError "batch_norm")
  layerNorm _ _ _ := .ok [0]
  sum _ _ x := .ok x
  mean _ _ x := .ok x
  max _ _ x := .ok x
  min _ _ x := .ok x
  argmax _ _ _ := 0
  argmin _ _ _ := 0
  pow _ _ := .error (.runtimeError "inexact")
  floatPower _ _ := .error (.runtimeError "inexact")
  rrelu lower upper x := .ok (if 0 ≤ x then x else (lower + upper) / 2 * x)
  first x := .ok x
  full1 x _ := x
  ones _ _ := 1
  zeros _ _ := 0
  int64s x := [x.floor]
  invSqrt _ := 1
  causalMask _ _ := .ok 0
  fusedGpu _ _ _ := .error (.runtimeError "no device")
  other _ _ xs := .ok xs

theorem rationalKernels_conv {a : ConvAttrs} {x : ℚ} :
    (rationalKernels shape).conv a (x :: w :: b.toList) = .ok [x * w + b.getD 0] := by
  cases b with
  | none => simp [rationalKernels]
  | some b => simp [rationalKernels]

theorem scaleWeight_rational (w scale : ℚ) :
    scaleWeight (rationalKernels shape) w scale = .ok (w * scale) := by
  unfold scaleWeight
  split_ifs
  · rfl
  · rfl

/-- The folded weight and bias over exact numbers. -/
theorem foldBnIntoConv_rational {gamma beta mean var eps w' b' : ℚ}
    (h : foldBnIntoConv (rationalKernels shape) ⟨gamma, beta, mean, var⟩ eps w b = .ok (w', b')) :
    ∃ root, rationalSqrt (var + eps) = .ok root ∧ w' = w * (gamma / root) ∧
      b' = gamma / root * (b.getD 0 - mean) + beta := by
  cases b with
  | none =>
    simp only [foldBnIntoConv, scaleWeight_rational] at h
    simp [rationalKernels, Kernels.toDType, shiftBias] at h
    obtain ⟨root, hroot, rfl, rfl⟩ := h
    exact ⟨root, hroot, rfl, by simp; ring⟩
  | some b =>
    simp only [foldBnIntoConv, scaleWeight_rational] at h
    simp [rationalKernels, Kernels.toDType, shiftBias] at h
    obtain ⟨root, hroot, rfl, rfl⟩ := h
    exact ⟨root, hroot, rfl, by simp⟩

theorem rationalKernels_laws (shape : List Int) : FusionLaws (rationalKernels shape) where
  relu_relu := by
    intro x y h
    obtain rfl : max x 0 = y := by simpa [rationalKernels] using h
    simp [rationalKernels]
  add_comm := by
    simpa [rationalKernels, add_comm] using h
  batchNorm_ne_nil := by
    intro eps xs zs h
    simp only [rationalKernels] at h
    split at h
    · simp only [bind_eq_ok, pure_eq_ok] at h
      obtain ⟨root, -, rfl⟩ := h
      simp
    · cases h
  batchNormAffine_ne_nil := by
    intro eps xs zs h
    simp only [rationalKernels] at h
    split at h
    · simp only [bind_eq_ok, pure_eq_ok] at h
      obtain ⟨root, -, rfl⟩ := h
      simp
    · cases h
  conv_affine := by
    intro a x w b y ys z zs eps gamma beta mean var w' b' hconv hbn hfold
    obtain ⟨root, hroot, rfl, rfl⟩ := foldBnIntoConv_rational hfold
    rw [rationalKernels_conv] at hconv
    obtain ⟨rfl, -⟩ : x * w + b.getD 0 = y ∧ [] = ys := by simpa using hconv
    obtain ⟨hz, -⟩ : (x * w + b.getD 0 - mean) / root * gamma + beta = z ∧ [] = zs := by
      simpa [rationalKernels, hroot] using hbn
    refine ⟨[], ?_⟩
    rw [← hz]
    simp only [rationalKernels, Except.ok.injEq, List.cons.injEq, and_true]
    ring
  conv_plain := by
    intro a x w b y ys z zs eps mean var w' b' hconv hbn hfold
    obtain ⟨root, hroot, rfl, rfl⟩ := foldBnIntoConv_rational hfold
    rw [rationalKernels_conv] at hconv
    obtain ⟨rfl, -⟩ : x * w + b.getD 0 = y ∧ [] = ys := by simpa using hconv
    obtain ⟨hz, -⟩ : (x * w + b.getD 0 - mean) / root = z ∧ [] = zs := by
      simpa [rationalKernels, hroot] using hbn
    refine ⟨[], ?_⟩
    rw [← hz]
    simp only [rationalKernels, Except.ok.injEq, List.cons.injEq, and_true]
    ring

def rationalScalars : Scalars ℚ where
  toBool x := .ok (x ≠ 0)
  toInt x := .ok x.floor
  ofIter i := i
  ofCond b := if b then 1 else 0

/-- `relu(batch_norm(conv(x)))` with captured parameters. -/
def convNormRelu : GraphLiteral ℚ Empty where
  vals := [{ id := "x", uses := [0] }, { id := "w", uses := [0] }, { id := "gamma", uses := [1] },
    { id := "beta", uses := [1] }, { id := "mean", uses := [1] }, { id := "var", uses := [1] },
    { id := "c", node := some 0, uses := [1] }, { id := "n", node := some 1, uses := [2] },
    { id := "y", node := some 2 }]
  nodeList := [{ opType := .conv2d, inputs := [0, 1], outputs := [6] },
    { opType := .batchNorm2d, attrs := { floats := Finmap.singleton "eps" 1 },
      inputs := [6, 2, 3, 4, 5], outputs := [7] },
    { opType := .relu, inputs := [7], outputs := [8] }]
  order := [0, 1, 2]
  inputs := [0]
  outputs := [8]
  constants := [("w", 2), ("gamma", 3), ("beta", 1), ("mean", 1), ("var", 3)]

theorem foldable_of_walk {K : Kernels T} (hplain : g.Plain s ∧ g.Plain r) (hs : g.outputsOf s = [o])
    (hr : (g.outputsOf r).length = 1)
    (ho : o ∉ g.outputs) (hwalk : g.walk 8 o = some ([], o, r)) : g.Foldable K s r where
  plain := hplain
  single := ⟨by simp [hs], hr⟩
  unobserved := by simpa [hs] using ho
  casts := by
    intro o' ho' cs w hw
    obtain rfl : o' = o := by simpa [hs] using ho'
    obtain ⟨rfl, -⟩ : [] = cs ∧ _ := by simpa [hwalk] using hw
    simp

theorem firstOperand_of_walk (hs : g.outputsOf s = [o]) (hwalk : g.walk 8 o = some ([], o, r))
    (hr : (g.inputsOf r).head? = some o) : g.FirstOperand s r := by
  intro o' ho' cs w hw
  obtain rfl : o' = o := by simpa [hs] using ho'
  obtain ⟨-, rfl⟩ : [] = cs ∧ o' = w := by simpa [hwalk] using hw
  exact hr

theorem convNormRelu_wellFormed : convNormRelu.toGraph.WellFormed :=
  (GraphLiteral.wellFormed (by decide +kernel)).1

theorem convNormRelu_folds : convNormRelu.toGraph.FoldsBatchNorm (rationalKernels [1, 1, 1, 1]) 0 1 where
  unmarked := by decide +kernel
  eps := by decide +kernel
  bias := by
    intro b hb
    exact absurd hb (by decide +revert)
  seen := by
    have hknown : ∀ v ∈ (convNormRelu.toGraph.inputsOf 1).tail ++
        (convNormRelu.toGraph.inputsOf 0).tail,
        convNormRelu.toGraph.constants (convNormRelu.toGraph.idOf v) ≠ none := by decide +kernel
    intro v hv hnone
    exact absurd hnone (hknown v hv)
  installable := {
    nodup := by decide +kernel
    weight := by
      intro w hw
      obtain rfl : 1 = w := Option.some.inj hw
      exact ⟨by decide +kernel, by decide +kernel, by decide +kernel, by decide +kernel⟩
    bias := by
      intro b hb
      cases hb
    noBias := by
      have hids : ∀ v < 9, convNormRelu.toGraph.idOf v ≠ "c_fused_b" := by decide +kernel
      intro _ v hv
      exact hids v (convNormRelu_wellFormed.live_lt v hv) }

theorem convNormRelu_meets :
    FusionPass.RunMeets (rationalKernels [1, 1, 1, 1]) convNormRelu.toGraph .convBatchNormRelu := by
  have hconv : convNormRelu.toGraph.matchNext 0 .conv2d = some (6, 1) := by decide +kernel
  have hnorm : convNormRelu.toGraph.matchNext 1 .batchNorm2d = some (7, 2) := by decide +kernel
  -- only the convolution starts a match
  have hskip : ∀ (c : Graph ℚ Empty) (n : NodeRef), c.opOf n ≠ .conv2d →
      FusionPass.convBatchNormRelu.Meets (rationalKernels [1, 1, 1, 1]) c n := by
    intro c n hop o bn b relu hmatch
    simp [matchNext, hop] at hmatch
  have hfirst : FusionPass.convBatchNormRelu.Meets (rationalKernels [1, 1, 1, 1]) convNormRelu.toGraph 0 := by
    intro o bn b relu hbn hrelu _ _
    obtain ⟨-, rfl⟩ : 6 = o ∧ 1 = bn := by simpa [hconv] using hbn
    obtain ⟨-, rfl⟩ : 7 = b ∧ 2 = relu := by simpa [hnorm] using hrelu
    refine ⟨?_, ?_, ?_, ?_, convNormRelu_folds⟩
    · exact foldable_of_walk (by decide +kernel) rfl rfl (by decide +kernel) (by decide +kernel)
    · exact firstOperand_of_walk rfl (by decide +kernel) rfl
    · exact foldable_of_walk (by decide +kernel) rfl rfl (by decide +kernel) (by decide +kernel)
    · exact firstOperand_of_walk rfl (by decide +kernel) rfl
  refine ⟨hfirst, fun c hc => ?_⟩
  have hkeeps : FoldKeeps convNormRelu.toGraph c
      (interp (rationalKernels [1, 1, 1, 1]) rationalScalars Empty.elim) :=
    FusionPass.visit_keeps (rationalKernels_laws _) .convBatchNormRelu convNormRelu_wellFormed
      (by decide +kernel) hfirst hc
  have hother : ∀ n ∈ [1, 2], c.opOf n ≠ .conv2d := by
    intro n hn
    rw [hkeeps.opOf n]
    exact (by decide +kernel : ∀ n ∈ [1, 2], convNormRelu.toGraph.opOf n ≠ .conv2d) n hn
  refine ⟨hskip c 1 (hother 1 (by simp)), fun d hd => ?_⟩
  obtain rfl : c = d := by
    simpa [FusionPass.visit, matchNext, hother 1 (by simp)] using hd
  exact ⟨hskip c 2 (hother 2 (by simp)), fun _ _ => trivial⟩

theorem forward_runAll_convNormRelu : ∃ g' g'',
    FusionPass.runAll (rationalKernels [1, 1, 1, 1]) [.convBatchNormRelu] convNormRelu.toGraph = .ok g' ∧
    g'.topologicalSort = .ok g'' ∧
    g''.forward (interp (rationalKernels [1, 1, 1, 1]) rationalScalars Empty.elim) [3] = .ok [17 / 2] := by
  have hok : (FusionPass.runAll (rationalKernels [1, 1, 1, 1]) [.convBatchNormRelu] convNormRelu.toGraph).toBool =
      true := by decide +kernel
  cases hr : FusionPass.runAll (rationalKernels [1, 1, 1, 1]) [.convBatchNormRelu] convNormRelu.toGraph with
  | error e => simp [hr, Except.toBool] at hok
  | ok g' =>
    have hf : convNormRelu.toGraph.forward (interp (rationalKernels [1, 1, 1, 1]) rationalScalars Empty.elim) [3] =
        .ok [17 / 2] := by decide +kernel
    obtain ⟨g'', h⟩ := FusionPass.forward_runAll (rationalKernels_laws _) [.convBatchNormRelu]
      convNormRelu_wellFormed ⟨convNormRelu_meets, fun _ _ => trivial⟩ hr hf
    exact ⟨g', g'', rfl, h⟩

/-- `linear(x, w)` and its ReLU are both outputs. -/
def observedLinear : GraphLiteral ℚ Empty where
  vals := [{ id := "x", uses := [0] }, { id := "w", uses := [0] },
    { id := "l", node := some 0, uses := [1] }, { id := "y", node := some 1 }]
  nodeList := [{ opType := .linear, inputs := [0, 1], outputs := [2] },
    { opType := .relu, inputs := [2], outputs := [3] }]
  order := [0, 1]
  inputs := [0]
  outputs := [2, 3]
  constants := [("w", 1)]

/-- The marked node overwrites the intermediate that is an output. -/
theorem forward_observedLinear :
    FusionLaws (rationalKernels [1, 1, 1, 1]) ∧ observedLinear.toGraph.WellFormed ∧
    observedLinear.toGraph.forward (interp (rationalKernels [1, 1, 1, 1]) rationalScalars Empty.elim) [-2] =
      .ok [-2, 0] ∧
    (do
      let g' ← FusionPass.runAll (rationalKernels [1, 1, 1, 1]) [.linearRelu] observedLinear.toGraph
      let g'' ← g'.topologicalSort
      g''.forward (interp (rationalKernels [1, 1, 1, 1]) rationalScalars Empty.elim) [-2]) = .ok [0, 0] :=
  ⟨rationalKernels_laws _, (GraphLiteral.wellFormed (by decide +kernel)).1, by decide +kernel,
    by decide +kernel⟩

end Tenzor.Jit
