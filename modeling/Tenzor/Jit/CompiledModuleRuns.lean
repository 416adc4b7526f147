import Tenzor.Jit.CompiledModule
import Tenzor.Lib.Throwing

/-!
# What compiled modules return

If graphs agree with the source on the inputs whose shape keys they were traced for, a module keeps
such graphs only, each under its key. Calls that replay a graph for another key may return anything:
a gradient call does that, and so does a retrace that drops inputs.
-/

namespace Tenzor.Jit

variable {c sep : Char}

open Effects List

theorem notMem_digits {n : ℕ} (hc : c.isDigit = false) : c ∉ digits n := by
  intro h
  rw [Nat.isDigit_of_mem_toDigits (by decide) (by decide) h] at hc
  exact absurd hc (by decide)

theorem digits_injective : Function.Injective digits := by
  intro n k h
  rw [← Nat.ofDigitChars_ten_toDigits (n := n), ← digits, h, digits,
    Nat.ofDigitChars_ten_toDigits]

/-- What stands before and after the first separator. -/
theorem append_cons_inj {a a' b b' : List Char} (ha : sep ∉ a) (ha' : sep ∉ a')
    (h : a ++ sep :: b = a' ++ sep :: b') : a = a' ∧ b = b' := by
  induction a generalizing a' with
  | nil =>
    cases a' with
    | nil => exact ⟨rfl, (List.cons.inj h).2⟩
    | cons c a' => exact absurd ((List.cons.inj h).1 ▸ mem_cons_self) ha'
  | cons c a ih =>
    cases a' with
    | nil => exact absurd ((List.cons.inj h).1 ▸ mem_cons_self) ha
    | cons c' a' =>
      obtain ⟨rfl, htail⟩ := List.cons.inj h
      obtain ⟨rfl, hb⟩ := ih (fun hc => ha (mem_cons_of_mem c hc))
        (fun hc => ha' (mem_cons_of_mem c hc)) htail
      exact ⟨rfl, hb⟩

/-- Parts that are not empty and do not have the separator can be told apart. -/
theorem intercalate_inj {l l' : List (List Char)} (h : ∀ part ∈ l, part ≠ [] ∧ sep ∉ part)
    (h' : ∀ part ∈ l', part ≠ [] ∧ sep ∉ part) (heq : [sep].intercalate l = [sep].intercalate l') :
    l = l' := by
  have hne : ∀ l : List (List Char), (∀ part ∈ l, part ≠ [] ∧ sep ∉ part) →
      [sep].intercalate l = [] → l = [] := by
    intro l hl hnil
    cases l with
    | nil => rfl
    | cons part rest =>
      cases rest with
      | nil =>
        rw [intercalate_singleton] at hnil
        exact absurd hnil (hl part mem_cons_self).1
      | cons part' rest =>
        rw [intercalate_cons_cons, append_eq_nil_iff, append_eq_nil_iff] at hnil
        exact absurd hnil.1.1 (hl part mem_cons_self).1
  by_cases hl : l = []
  · subst hl
    exact (hne l' h' heq.symm).symm
  · have hl' : l' ≠ [] := by
      rintro rfl
      exact hl (hne l h heq)
    rw [← splitOn_intercalate sep (fun part hp => (h part hp).2) hl, heq,
      splitOn_intercalate sep (fun part hp => (h' part hp).2) hl']

theorem DeviceName.toChars_inj {d d' : DeviceName} (h : d.toChars = d'.toChars) : d = d' := by
  cases d <;> cases d' <;> simp_all [DeviceName.toChars, digits_injective.eq_iff]

theorem dtypeIndex_inj {dtype dtype' : DType} (h : dtypeIndex dtype = dtypeIndex dtype') :
    dtype = dtype' := by
  rw [← DType.ofNat_ctorIdx dtype, ← DType.ofNat_ctorIdx dtype']
  exact congrArg DType.ofNat h

theorem shape_chars (shape : List ℕ) :
    ∀ c ∈ [','].intercalate (shape.map digits), c = ',' ∨ c.isDigit = true := by
  induction shape with
  | nil => exact fun c hc => absurd hc not_mem_nil
  | cons n shape ih =>
    intro c hc
    cases shape with
    | nil =>
      rw [map_singleton, intercalate_singleton] at hc
      exact .inr (Nat.isDigit_of_mem_toDigits (by decide) (by decide) hc)
    | cons n' shape =>
      rw [map_cons, map_cons, intercalate_cons_cons, mem_append,
        mem_append, mem_singleton] at hc
      rcases hc with (hc | hc) | hc
      · exact .inr (Nat.isDigit_of_mem_toDigits (by decide) (by decide) hc)
      · exact .inl hc
      · exact ih c hc

theorem notMem_shape_chars (hc : c ≠ ',') (hd : c.isDigit = false) (shape : List ℕ) :
    c ∉ [','].intercalate (shape.map digits) := by
  intro h
  rcases shape_chars shape c h with h | h
  · exact hc h
  · rw [h] at hd
    exact absurd hd (by decide)

theorem digits_parts (shape : List ℕ) : ∀ part ∈ shape.map digits, part ≠ [] ∧ ',' ∉ part := by
  rw [forall_mem_map]
  exact fun n _ => ⟨Nat.toDigits_ne_nil, notMem_digits (by decide)⟩

theorem shapeKeyPart_injective : Function.Injective shapeKeyPart := by
  intro info info' h
  have hat : ∀ shape : List ℕ, '@' ∉ [','].intercalate (shape.map digits) :=
    notMem_shape_chars (by decide) (by decide)
  obtain ⟨hshape, hrest⟩ := append_cons_inj (hat _) (hat _) h
  have hcolon : ∀ n : ℕ, ':' ∉ (digits n).reverse := fun n hc =>
    notMem_digits (by decide) (mem_reverse.mp hc)
  have hreverse := congrArg List.reverse hrest
  simp only [reverse_append, reverse_cons, append_assoc, singleton_append]
    at hreverse
  obtain ⟨hdtype, hdevice⟩ := append_cons_inj (hcolon _) (hcolon _) hreverse
  obtain ⟨shape, device, dtype⟩ := info
  obtain ⟨shape', device', dtype'⟩ := info'
  obtain rfl := map_injective_iff.mpr digits_injective
    (intercalate_inj (digits_parts shape) (digits_parts shape') hshape)
  obtain rfl := DeviceName.toChars_inj (reverse_injective hdevice)
  obtain rfl := dtypeIndex_inj (digits_injective (reverse_injective hdtype))
  rfl

theorem notMem_toChars (d : DeviceName) : '|' ∉ d.toChars := by
  cases d <;> simp [DeviceName.toChars, notMem_digits]

theorem shapeKeyPart_parts (infos : List TensorInfo) :
    ∀ part ∈ infos.map shapeKeyPart, part ≠ [] ∧ '|' ∉ part := by
  rw [forall_mem_map]
  intro info _
  constructor
  · simp [shapeKeyPart]
  · simp only [shapeKeyPart, mem_append, mem_cons, not_or]
    exact ⟨notMem_shape_chars (by decide) (by decide) _, by decide, notMem_toChars _, by decide,
      notMem_digits (by decide)⟩

/-- The shape key tells the shape, the device and the type of every input. -/
theorem computeShapeKey_injective : Function.Injective computeShapeKey := by
  intro infos infos' h
  exact map_injective_iff.mpr shapeKeyPart_injective
    (intercalate_inj (shapeKeyPart_parts infos) (shapeKeyPart_parts infos') h)

variable {V G : Type} (env : Tracing V G)

/-- A call of one of the two overloads, with gradients enabled or not. -/
inductive Call (V : Type)
  | single (gradEnabled : Bool) (input : V)
  | vector (gradEnabled : Bool) (inputs : List V)

namespace Call

def inputs : Call V → List V
  | single _ input => [input]
  | vector _ inputs => inputs

/-- The call replays the graph for gradients. -/
def TakesGradient : Call V → Prop
  | single gradEnabled input => gradEnabled = true ∧ env.requiresGrad input = true
  | vector gradEnabled inputs => gradEnabled = true ∧ ∃ x ∈ inputs, env.requiresGrad x = true

def run : Call V → Effect (CompiledModule G) Exn (List V)
  | single gradEnabled input => do
      let output ← CompiledModule.forward env gradEnabled input
      return [output]
  | vector gradEnabled inputs => CompiledModule.forwardVector env gradEnabled inputs

/-- The call throws or returns what the source returns. -/
def Right (c : Call V) (result : Except Exn (List V)) : Prop :=
  ∀ outputs, result = .ok outputs →
    match c with
    | single _ input => ∃ output others,
        env.source [input] = .ok (output :: others) ∧ outputs = [output]
    | vector _ inputs => env.source inputs = .ok outputs

/-- A gradient call has the key of the current graph, and other calls can be traced with all of
their inputs. -/
structure Safe (m : CompiledModule G) (c : Call V) : Prop where
  gradient : c.TakesGradient env → CompiledModule.shapeKeyOf env c.inputs = m.tracedShapeKey
  traceable : ¬ c.TakesGradient env → m.hasRetraceFn = true ∨ c.inputs.length ≤ 1

end Call

/-- Every call of a run has what its theorem asks for when it starts. -/
def SafeRun : CompiledModule G → List (Call V) → Prop
  | _, [] => True
  | m, c :: calls => c.Safe env m ∧ SafeRun (c.run env m).2 calls

/-- Every call of a run throws or returns what the source returns. -/
def RightRun : CompiledModule G → List (Call V) → Prop
  | _, [] => True
  | m, c :: calls => c.Right env (c.run env m).1 ∧ RightRun (c.run env m).2 calls

/-- On inputs like these the graph asks for no retrace and returns what the source returns, or
throws. -/
def Agrees (graph : G) (infos : List TensorInfo) : Prop :=
  ∀ inputs, inputs.map env.info = infos → ∀ gradMode,
    (env.replay graph false gradMode inputs).2 = false ∧
      ∀ outputs, (env.replay graph false gradMode inputs).1 = .ok outputs →
        env.source inputs = .ok outputs

/-- The graph of a trace agrees with the source on inputs like those of the trace. -/
def TracesAgree (wasOptimized : Bool) : Prop :=
  ∀ inputs outputs graph, env.source inputs = .ok outputs →
    env.getGraph inputs outputs = .ok graph →
      Agrees env (CompiledModule.mirrored env wasOptimized graph) (inputs.map env.info)

namespace CompiledModule

/-- The graph object belongs to the key. -/
def Belongs (graph : GraphObject G) (key : ShapeKey) : Prop :=
  ∃ infos, computeShapeKey infos = key ∧ graph.inputCount = infos.length ∧ Agrees env graph.ir infos

/-- The current graph and the cached ones belong to their keys, and no retrace is pending. -/
structure Coherent (m : CompiledModule G) : Prop where
  current : Belongs env m.graph m.tracedShapeKey
  cache : ∀ key graph, m.shapeCache.lookup key = some graph → Belongs env graph key
  settled : m.needsRetrace = fun _ => false
  traces : TracesAgree env m.wasOptimized

/-- What a part of a call does: it keeps the module coherent, and what it returns satisfies `Q`. -/
structure Keeps {α : Type} (Q : α → CompiledModule G → Prop)
    (p : Effect (CompiledModule G) Exn α) (m : CompiledModule G) : Prop where
  coherent : Coherent env (p m).2
  retraceFn : (p m).2.hasRetraceFn = m.hasRetraceFn
  returns : ∀ a, (p m).1 = .ok a → Q a (p m).2

variable {env} {m : CompiledModule G} {inputs : List V} {α β : Type}
  {Q : α → CompiledModule G → Prop} {R : β → CompiledModule G → Prop}
  {p : Effect (CompiledModule G) Exn α} {f : α → Effect (CompiledModule G) Exn β}
  {graph : GraphObject G}

theorem Keeps.of_eq {result : Except Exn α × CompiledModule G} (h : p m = result)
    (hm : Coherent env result.2) (hfn : result.2.hasRetraceFn = m.hasRetraceFn)
    (hq : ∀ a, result.1 = .ok a → Q a result.2) : Keeps env Q p m := by
  subst h
  exact ⟨hm, hfn, hq⟩

theorem Keeps.bind (hp : Keeps env Q p m)
    (hf : ∀ a m', Coherent env m' → m'.hasRetraceFn = m.hasRetraceFn → Q a m' →
      Keeps env R (f a) m') : Keeps env R (p >>= f) m := by
  obtain ⟨hm, hfn, hq⟩ := hp
  rcases hrun : p m with ⟨e | a, m'⟩
  · rw [hrun] at hm hfn
    exact Keeps.of_eq (bind_of_error hrun) hm hfn nofun
  · rw [hrun] at hm hfn hq
    obtain ⟨hm', hfn', hr⟩ := hf a m' hm hfn (hq a rfl)
    exact Keeps.of_eq (bind_of_ok hrun) hm' (hfn'.trans hfn) hr

theorem Keeps.pure (hm : Coherent env m) {a : α} (hq : Q a m) :
    Keeps env Q (Pure.pure a) m := by
  refine Keeps.of_eq rfl hm rfl fun b hb => ?_
  obtain rfl := Except.ok.inj hb
  exact hq

theorem Keeps.throw (hm : Coherent env m) (e : Exn) : Keeps env Q (MonadExcept.throw e) m :=
  Keeps.of_eq rfl hm rfl nofun

theorem Belongs.agrees (h : Belongs env graph (shapeKeyOf env inputs)) :
    graph.inputCount = inputs.length ∧ Agrees env graph.ir (inputs.map env.info) := by
  obtain ⟨infos, hkey, hcount, hagrees⟩ := h
  obtain rfl := computeShapeKey_injective hkey
  exact ⟨hcount.trans (length_map _), hagrees⟩

/-- The replay of a graph that belongs to the key of the inputs leaves the module as it is. -/
theorem replayGraph_eq (hm : Coherent env m) (hg : Belongs env m.graph (shapeKeyOf env inputs))
    (gradMode : Bool) :
    replayGraph env gradMode inputs m = ((env.replay m.graph.ir false gradMode inputs).1, m) := by
  obtain ⟨hcount, hagrees⟩ := hg.agrees
  have hflag : m.needsRetrace m.graph.id = false := congrFun hm.settled _
  have hupdate : Function.update m.needsRetrace m.graph.id false = m.needsRetrace := by
    rw [← hflag, Function.update_eq_self]
  simp only [replayGraph, hcount, ne_eq, not_true_eq_false, if_false, hflag,
    (hagrees inputs rfl gradMode).1, hupdate]

theorem replayGraph_keeps (hm : Coherent env m) (hg : Belongs env m.graph (shapeKeyOf env inputs))
    (gradMode : Bool) :
    Keeps env (fun outputs m' => env.source inputs = .ok outputs ∧ m' = m)
      (replayGraph env gradMode inputs) m := by
  refine Keeps.of_eq (replayGraph_eq hm hg gradMode) hm rfl fun outputs ho => ?_
  exact ⟨(hg.agrees.2 inputs rfl gradMode).2 outputs ho, rfl⟩

theorem retrace_keeps (hm : Coherent env m) (inputs : List V) :
    Keeps env (fun traced _ => Belongs env traced.1 (shapeKeyOf env inputs) ∧
      env.source inputs = .ok traced.2) (retrace env inputs) m := by
  rcases htrace : jitTrace env inputs with e | ⟨graph, outputs⟩
  · exact Keeps.of_eq (raise_bind_of_error htrace) hm rfl nofun
  · have hjit : env.source inputs = .ok outputs ∧ env.getGraph inputs outputs = .ok graph := by
      simp only [jitTrace, Throwing.bind_eq_ok, Throwing.pure_eq_ok] at htrace
      obtain ⟨outputs', hsource, graph', hgraph, heq⟩ := htrace
      obtain ⟨rfl, rfl⟩ := Prod.mk.inj heq
      exact ⟨hsource, hgraph⟩
    refine Keeps.of_eq (raise_bind_of_ok htrace) ⟨hm.current, hm.cache, hm.settled, hm.traces⟩ rfl
      fun traced htraced => ?_
    obtain rfl := Except.ok.inj htraced
    exact ⟨⟨inputs.map env.info, rfl, (length_map _).symm,
      hm.traces inputs outputs graph hjit.1 hjit.2⟩, hjit.1⟩

theorem cached_belongs {cache : Dict ShapeKey (GraphObject G)} {key : ShapeKey}
    (hcache : ∀ k g, cache.lookup k = some g → Belongs env g k) (hg : Belongs env graph key) :
    ∀ k g, (cached cache key graph).lookup k = some g → Belongs env g k := by
  intro k g hk
  rw [cached] at hk
  split at hk
  · by_cases heq : k = key
    · subst heq
      rw [AList.lookup_insert, Option.some_inj] at hk
      exact hk ▸ hg
    · rw [AList.lookup_insert_ne heq] at hk
      exact hcache k g hk
  · exact hcache k g hk

/-- Switching the module leaves it with a graph for the key. -/
theorem switchTo_keeps (hm : Coherent env m) (inputs : List V) :
    Keeps env (fun fresh m' => m'.tracedShapeKey = shapeKeyOf env inputs ∧
      ∀ outputs, fresh = some outputs → env.source inputs = .ok outputs)
      (switchTo env (shapeKeyOf env inputs) inputs) m := by
  cases hlookup : m.shapeCache.lookup (shapeKeyOf env inputs) with
  | some graph =>
    have hrun : switchTo env (shapeKeyOf env inputs) inputs m =
        (.ok none, { m with graph := graph, tracedShapeKey := shapeKeyOf env inputs }) := by
      rw [switchTo, bind_of_ok (get_apply m)]
      simp only [hlookup]
      rfl
    refine Keeps.of_eq hrun ⟨hm.cache _ graph hlookup, hm.cache, hm.settled, hm.traces⟩ rfl
      fun fresh hfresh => ⟨rfl, ?_⟩
    obtain rfl := Except.ok.inj hfresh
    exact nofun
  | none =>
    have hrun : switchTo env (shapeKeyOf env inputs) inputs m =
        (do
          let traced ← retrace env inputs
          let m ← get
          set { m with
            graph := traced.1
            shapeCache := cached m.shapeCache (shapeKeyOf env inputs) traced.1
            tracedShapeKey := shapeKeyOf env inputs }
          return some traced.2 : Effect (CompiledModule G) Exn (Option (List V))) m := by
      rw [switchTo, bind_of_ok (get_apply m)]
      simp only [hlookup]
    have hkeeps := (retrace_keeps hm inputs).bind
      (R := fun fresh m' => m'.tracedShapeKey = shapeKeyOf env inputs ∧
        ∀ outputs, fresh = some outputs → env.source inputs = .ok outputs)
      (f := fun traced => (do
          let m ← get
          set { m with
            graph := traced.1
            shapeCache := cached m.shapeCache (shapeKeyOf env inputs) traced.1
            tracedShapeKey := shapeKeyOf env inputs }
          return some traced.2)) fun traced m' hm' hfn h => by
        obtain ⟨hg, hsource⟩ := h
        refine Keeps.of_eq rfl ⟨hg, cached_belongs hm'.cache hg, hm'.settled, hm'.traces⟩ rfl
          fun fresh hfresh => ⟨rfl, fun outputs ho => ?_⟩
        obtain rfl := Except.ok.inj hfresh
        exact (Option.some.inj ho) ▸ hsource
    exact Keeps.of_eq (hrun.trans rfl) hkeeps.coherent hkeeps.retraceFn hkeeps.returns

/-- A coherent module asks for no retrace. -/
theorem settled_keeps {outputs : List V} {p : Effect (CompiledModule G) Exn (List V)}
    (hm : Coherent env m) (hsource : env.source inputs = .ok outputs) :
    Keeps env (fun outputs _ => env.source inputs = .ok outputs)
      (do
        let m ← get
        if m.needsRetrace m.graph.id = true then p else return outputs) m := by
  have hflag : m.needsRetrace m.graph.id ≠ true := by
    rw [hm.settled]
    exact Bool.false_ne_true
  have hrun : (do
      let m ← get
      if m.needsRetrace m.graph.id = true then p else return outputs :
        Effect (CompiledModule G) Exn (List V)) m = (.ok outputs, m) := by
    rw [bind_of_ok (get_apply m), if_neg hflag]
    rfl
  refine Keeps.of_eq hrun hm rfl fun outputs' ho => ?_
  obtain rfl := Except.ok.inj ho
  exact hsource

/-- Without inputs a graph that was traced with some throws. -/
theorem replayGraph_nil (hm : Coherent env m) (h : shapeKeyOf env ([] : List V) ≠ m.tracedShapeKey)
    (gradMode : Bool) : replayGraph env gradMode [] m = (.error inputCountMismatch, m) := by
  obtain ⟨infos, hkey, hcount, -⟩ := hm.current
  have hne : m.graph.inputCount ≠ 0 := by
    intro hzero
    rw [hcount, length_eq_zero_iff] at hzero
    subst hzero
    exact h hkey
  have hlen : ([] : List V).length ≠ m.graph.inputCount := hne.symm
  rw [replayGraph, if_pos hlen]

theorem forwardInference_keeps (hm : Coherent env m) (inputs : List V) :
    Keeps env (fun outputs _ => env.source inputs = .ok outputs)
      (forwardInference env inputs inputs) m := by
  let P : Option (List V) → CompiledModule G → Prop := fun fresh m' =>
    (∀ outputs, fresh = some outputs → env.source inputs = .ok outputs) ∧
      (m'.tracedShapeKey = shapeKeyOf env inputs ∨
        inputs = [] ∧ shapeKeyOf env inputs ≠ m'.tracedShapeKey)
  have hswitch : Keeps env P
      (if inputs ≠ [] ∧ shapeKeyOf env inputs ≠ m.tracedShapeKey then
        switchTo env (shapeKeyOf env inputs) inputs else pure none) m := by
    by_cases hkey : shapeKeyOf env inputs = m.tracedShapeKey
    · rw [if_neg fun h => h.2 hkey]
      exact Keeps.pure hm ⟨nofun, .inl hkey.symm⟩
    · by_cases hnil : inputs = []
      · rw [if_neg fun h => h.1 hnil]
        exact Keeps.pure hm ⟨nofun, .inr ⟨hnil, hkey⟩⟩
      · rw [if_pos ⟨hnil, hkey⟩]
        obtain ⟨hm', hfn, hq⟩ := switchTo_keeps hm inputs
        exact ⟨hm', hfn, fun fresh hf => ⟨(hq fresh hf).2, .inl (hq fresh hf).1⟩⟩
  have hget : Keeps env (fun a m' => a = m ∧ m' = m) get m :=
    Keeps.of_eq (get_apply m) hm rfl fun a ha => ⟨(Except.ok.inj ha).symm, rfl⟩
  refine hget.bind ?_
  rintro _ _ - - ⟨rfl, rfl⟩
  refine hswitch.bind ?_
  rintro fresh m' hm' - ⟨hfresh, hkey⟩
  cases fresh with
  | some outputs => exact Keeps.pure hm' (hfresh outputs rfl)
  | none =>
    rcases hkey with hkey | ⟨hnil, hne⟩
    · refine (replayGraph_keeps hm' (hkey ▸ hm'.current) false).bind ?_
      rintro outputs m'' hm'' - ⟨hsource, -⟩
      exact settled_keeps hm'' hsource
    · subst hnil
      exact Keeps.of_eq (bind_of_error (replayGraph_nil hm' hne false)) hm' rfl nofun

theorem forwardGrad_keeps (hm : Coherent env m)
    (hkey : shapeKeyOf env inputs = m.tracedShapeKey) :
    Keeps env (fun outputs _ => env.source inputs = .ok outputs) (forwardGrad env inputs) m := by
  refine (replayGraph_keeps hm (hkey ▸ hm.current) true).bind ?_
  rintro outputs m' hm' - ⟨hsource, -⟩
  exact settled_keeps hm' hsource

/-- A compiled module is coherent from the start. -/
theorem coherent_compile {wasOptimized hasRetraceFn : Bool} (ht : TracesAgree env wasOptimized)
    (h : compile env inputs wasOptimized hasRetraceFn = .ok m) : Coherent env m := by
  simp only [compile, jitTrace, Throwing.bind_eq_ok, Throwing.pure_eq_ok] at h
  obtain ⟨_, ⟨outputs, hsource, graph, hgraph, rfl⟩, rfl⟩ := h
  constructor
  · exact ⟨inputs.map env.info, rfl, (length_map _).symm, ht inputs outputs graph hsource hgraph⟩
  · exact fun key graph h => 
      absurd (h.symm.trans (AList.lookup_empty key)) (Option.some_ne_none graph)
  · rfl
  · exact ht

end CompiledModule

open CompiledModule

variable {env} {m : CompiledModule G}

/-- What one call does. -/
theorem Call.run_keeps {c : Call V} (hm : Coherent env m) (hsafe : c.Safe env m) :
    Coherent env (c.run env m).2 ∧ c.Right env (c.run env m).1 := by
  cases c with
  | single gradEnabled input =>
    have houtputs : Keeps env (fun outputs _ => env.source [input] = .ok outputs)
        (if gradEnabled = true ∧ env.requiresGrad input = true then forwardGrad env [input]
        else forwardInference env [input] [input]) m := by
      split
      next hgrad => exact forwardGrad_keeps hm (hsafe.gradient hgrad)
      next => exact forwardInference_keeps hm [input]
    have hforward : Keeps env
        (fun output _ => ∃ others, env.source [input] = .ok (output :: others))
        (CompiledModule.forward env gradEnabled input) m := by
      refine houtputs.bind fun outputs m' hm' _ hsource => ?_
      cases outputs with
      | nil => exact Keeps.throw hm' noOutputs
      | cons output others => exact Keeps.pure hm' ⟨others, hsource⟩
    have hrun : Keeps env (fun outputs _ => ∃ output others,
        env.source [input] = .ok (output :: others) ∧ outputs = [output])
        ((single gradEnabled input).run env) m :=
      hforward.bind fun output m' hm' _ ⟨others, hsource⟩ =>
        Keeps.pure hm' ⟨output, others, hsource, rfl⟩
    exact ⟨hrun.coherent, hrun.returns⟩
  | vector gradEnabled inputs =>
    have hrun : Keeps env (fun outputs _ => env.source inputs = .ok outputs)
        ((vector gradEnabled inputs).run env) m := by
      by_cases hgrad : gradEnabled = true ∧ ∃ x ∈ inputs, env.requiresGrad x = true
      · have hkeeps := forwardGrad_keeps hm (hsafe.gradient hgrad)
        refine Keeps.of_eq ?_ hkeeps.coherent hkeeps.retraceFn hkeeps.returns
        simp only [run, forwardVector, if_pos hgrad]
        rfl
      · have htrace : (if m.hasRetraceFn then inputs else inputs.take 1) = inputs := by
          rcases hsafe.traceable hgrad with hfn | hlen
          · rw [if_pos hfn]
          · split
            · rfl
            · exact take_of_length_le hlen
        have hkeeps := forwardInference_keeps hm inputs
        refine Keeps.of_eq ?_ hkeeps.coherent hkeeps.retraceFn hkeeps.returns
        simp only [run, forwardVector, if_neg hgrad]
        rw [bind_of_ok (get_apply m), htrace]
    exact ⟨hrun.coherent, hrun.returns⟩

theorem rightRun_of_coherent (hm : Coherent env m) {calls : List (Call V)}
    (hsafe : SafeRun env m calls) : RightRun env m calls := by
  induction calls generalizing m with
  | nil => trivial
  | cons c calls ih =>
    obtain ⟨hc, hrest⟩ := hsafe
    obtain ⟨hm', hright⟩ := Call.run_keeps hm hc
    exact ⟨hright, ih hm' hrest⟩

/-- In every run whose calls are safe, each call throws or returns what the source returns. -/
theorem rightRun_of_safeRun {wasOptimized hasRetraceFn : Bool} {sample : List V}
    (ht : TracesAgree env wasOptimized)
    (hm : compile env sample wasOptimized hasRetraceFn = .ok m) {calls : List (Call V)}
    (hsafe : SafeRun env m calls) : RightRun env m calls :=
  rightRun_of_coherent (coherent_compile ht hm) hsafe

/-- A tensor of one value everywhere, and whether it requires a gradient. -/
structure Filled where
  info : TensorInfo
  requiresGrad : Bool
  value : ℕ

/-- The source adds the number of elements; a trace records that number as a constant. -/
def addsNumel : Tracing Filled ℕ where
  info := Filled.info
  requiresGrad := Filled.requiresGrad
  source
    | [x] => .ok [{ x with value := x.value + x.info.shape.prod }]
    | _ => .error inputCountMismatch
  getGraph inputs _ := .ok (inputs.flatMap fun x => x.info.shape).prod
  replay numel flag _ inputs :=
    (.ok (inputs.map fun x => { x with value := x.value + numel }), flag)
  optimize numel := numel
  hasSideEffectingNode _ := false

def filled (n : ℕ) (requiresGrad : Bool) : Filled := ⟨⟨[n], .cpu, .float32⟩, requiresGrad, 0⟩

/-- What a trace with a tensor of two elements gives. -/
def tracedWithTwo : CompiledModule ℕ where
  graph := ⟨0, 2, 1⟩
  shapeCache := ∅
  tracedShapeKey := shapeKeyOf addsNumel [filled 2 false]
  wasOptimized := false
  hasRetraceFn := false
  needsRetrace _ := false
  nextId := 1

theorem tracesAgree_addsNumel : TracesAgree addsNumel false := by
  intro inputs outputs graph hsource hgraph inputs' hinfos gradMode
  refine ⟨rfl, fun outputs' ho => ?_⟩
  obtain rfl := Except.ok.inj hgraph
  obtain rfl := Except.ok.inj ho
  match inputs, hsource with
  | [x], _ =>
    obtain ⟨y, rfl, hy⟩ := map_eq_singleton_iff.mp hinfos
    have hprod : y.info.shape.prod = ([x].flatMap fun x => x.info.shape).prod := by
      rw [flatMap_singleton]
      exact congrArg (fun info => info.shape.prod) hy
    change Except.ok [{ y with value := y.value + y.info.shape.prod }] = _
    rw [hprod]
    rfl

/-- A call with another shape traces the source again, and a gradient call with the same shape
replays that trace. -/
theorem rightRun_tracedWithTwo :
    RightRun addsNumel tracedWithTwo [.single true (filled 3 false), .single true (filled 3 true)] := by
  refine rightRun_of_safeRun tracesAgree_addsNumel
    (rfl : compile addsNumel [filled 2 false] false false = .ok tracedWithTwo)
    ⟨⟨fun h => absurd h.2 nofun, fun _ => Or.inr le_rfl⟩, ⟨fun _ => ?_, fun h => ?_⟩, trivial⟩
  · decide +kernel
  · exact absurd ⟨rfl, rfl⟩ h

/-- A gradient call with another shape replays the old trace. -/
theorem not_rightRun_gradient :
    compile addsNumel [filled 2 false] false false = .ok tracedWithTwo ∧
      TracesAgree addsNumel false ∧
      ¬ RightRun addsNumel tracedWithTwo [.single true (filled 3 true)] := by
  refine ⟨rfl, tracesAgree_addsNumel, fun h => ?_⟩
  obtain ⟨output, others, hsource, houtput⟩ := h.1 [⟨(filled 3 true).info, true, 2⟩] rfl
  have hvalue : (3 : ℕ) = output.value :=
    congrArg Filled.value (List.cons.inj (Except.ok.inj hsource)).1
  have hreplayed : (2 : ℕ) = output.value := congrArg Filled.value (List.cons.inj houtput).1
  exact absurd (hvalue.trans hreplayed.symm) (by decide)

end Tenzor.Jit
