import Tenzor.Jit.Fusion

/-!
# When a consumer folds into its producer

A fold replaces the tensor of one value: the survivor now computes what the
absorbed node computed. Every value between the two, the results of the casts
stepped over included, changes its tensor with it, so nobody else may read them.
-/

namespace Tenzor.Jit

open Throwing List

namespace Graph

variable {T S : Type} {K : Kernels T} {exec : Exec T S} {g g₁ : Graph T S} {v : ValRef}
  {n : NodeRef}

/-- From `v` the casts `cs` lead to `w`, which only `n` reads. -/
inductive Leads (g : Graph T S) : ValRef → List NodeRef → ValRef → NodeRef → Prop
  | here {v : ValRef} {n : NodeRef} (hn : n ∈ g.nodes) (hv : v ∈ g.inputsOf n)
      (sole : ∀ m ∈ g.nodes, v ∈ g.inputsOf m → m = n) : Leads g v [] v n
  | step {v v' w : ValRef} {c n : NodeRef} {cs : List NodeRef} (hc : c ∈ g.nodes)
      (hop : g.opOf c = .cast) (hin : g.inputsOf c = [v]) (hout : g.outputsOf c = [v'])
      (sole : ∀ m ∈ g.nodes, v ∈ g.inputsOf m → m = c) (tail : Leads g v' cs w n) :
      Leads g v (c :: cs) w n

/-- The values on the way. -/
def zone (g : Graph T S) (v : ValRef) (cs : List NodeRef) : List ValRef :=
  v :: cs.flatMap g.outputsOf

theorem sole_of_singleConsumer (hu : g.UsesExact) (h : g.singleConsumer v = some n) :
    n ∈ g.nodes ∧ v ∈ g.inputsOf n ∧ ∀ m ∈ g.nodes, v ∈ g.inputsOf m → m = n := by
  unfold singleConsumer at h
  split at h
  · next m huses =>
      obtain rfl := Option.some.inj h
      have hmem : m ∈ g.usesOf v := by simp [huses]
      obtain ⟨hn, hv⟩ := hu.mem_usesOf_iff.mp hmem
      refine ⟨hn, hv, fun m' hm' hv' => ?_⟩
      have hmem' : m' ∈ g.usesOf v := hu.mem_usesOf_iff.mpr ⟨hm', hv'⟩
      rw [huses] at hmem'
      exact mem_singleton.mp hmem'
  · exact absurd h (by simp)

theorem leads_of_walk (hu : g.UsesExact) {hops : Nat} {w : ValRef} {cs : List NodeRef}
    (h : g.walk hops v = some (cs, w, n)) (hone : ∀ c ∈ cs, (g.outputsOf c).length = 1) :
    g.Leads v cs w n := by
  induction hops generalizing v cs with
  | zero => simp [walk] at h
  | succ hops ih =>
    simp only [walk] at h
    split at h
    · exact absurd h (by simp)
    · next c hc =>
        obtain ⟨hcn, hv, sole⟩ := sole_of_singleConsumer hu hc
        split at h
        · next hout =>
            obtain ⟨rfl, rfl, rfl⟩ := h
            exact Leads.here hcn hv sole
        · next v' rest hout =>
            split_ifs at h with hcast
            · simp only [Option.map_eq_some_iff, Prod.mk.injEq] at h
              obtain ⟨⟨cs', w', n'⟩, hwalk, rfl, rfl, rfl⟩ := h
              have hlen := hone c (by simp)
              have hnil : rest = [] := by simpa [hout] using hlen
              obtain ⟨x, hx⟩ := length_eq_one_iff.mp hcast.2
              obtain rfl : v = x := by simpa [hx] using hv
              refine Leads.step hcn hcast.1 hx (hnil ▸ hout) sole ?_
              exact ih hwalk fun c' hc' => hone c' (by simp [hc'])
            · obtain ⟨rfl, rfl, rfl⟩ := h
              exact Leads.here hcn hv sole

namespace Leads

variable {v w : ValRef} {cs : List NodeRef} {n : NodeRef} {s : NodeRef}

theorem consumer (h : g.Leads v cs w n) : n ∈ g.nodes ∧ w ∈ g.inputsOf n := by
  induction h with
  | here hn hv _ => exact ⟨hn, hv⟩
  | step _ _ _ _ _ _ ih => exact ih

theorem reads (h : g.Leads v cs w n) {z : ValRef} (hz : z ∈ g.zone v cs) {m : NodeRef}
    (hm : m ∈ g.nodes) (hzm : z ∈ g.inputsOf m) : m ∈ cs ∨ m = n := by
  induction h with
  | @here v n hn hv sole =>
    obtain rfl : z = v := by simpa [zone] using hz
    exact .inr (sole m hm hzm)
  | @step v v' w c n cs hc hop hin hout sole tail ih =>
    simp only [zone, flatMap_cons, hout, singleton_append, mem_cons] at hz
    obtain rfl | hz := hz
    · exact .inl (by simp [sole m hm hzm])
    · obtain hmem | rfl := ih (by simpa [zone] using hz)
      · exact .inl (by simp [hmem])
      · exact .inr rfl

theorem casts (h : g.Leads v cs w n) {c : NodeRef} (hc : c ∈ cs) :
    c ∈ g.nodes ∧ g.opOf c = .cast ∧ (∃ z ∈ g.zone v cs, g.inputsOf c = [z]) ∧
      ∃ z ∈ g.zone v cs, g.outputsOf c = [z] := by
  induction h with
  | here _ _ _ => simp at hc
  | @step v v' w c' n cs hc' hop hin hout sole tail ih =>
    have hsub : ∀ z, z ∈ g.zone v' cs → z ∈ g.zone v (c' :: cs) := by
      intro z hz
      simp only [zone, flatMap_cons, hout, singleton_append, mem_cons] at hz ⊢
      exact .inr hz
    obtain rfl | hmem := mem_cons.mp hc
    · exact ⟨hc', hop, ⟨v, by simp [zone], hin⟩, v', hsub v' (by simp [zone]), hout⟩
    · obtain ⟨h₁, h₂, ⟨z, hz, hzin⟩, z', hz', hzout⟩ := ih hmem
      exact ⟨h₁, h₂, ⟨z, hsub z hz, hzin⟩, z', hsub z' hz', hzout⟩

/-- The producer of the first value ranks below the consumer. -/
theorem rank_lt (h : g.Leads v cs w n) {rank : NodeRef → Nat} (hr : g.Ranked rank)
    (hs : s ∈ g.nodes) (hv : v ∈ g.outputsOf s) : rank s < rank n := by
  induction h generalizing s with
  | here hn hvn _ => exact hr _ hn _ hvn s hs hv
  | @step v v' w c n cs hc hop hin hout sole tail ih =>
    have hlt : rank s < rank c := hr c hc v (by simp [hin]) s hs hv
    exact hlt.trans (ih hc (by simp [hout]))

/-- Casts that return their argument hand the tensor of `v` to the consumer. -/
theorem value (h : g.Leads v cs w n) {e : ValRef → Option T} {x : T} (hx : e v = some x)
    (heq : ∀ c ∈ cs, ∃ xs ys, (g.inputsOf c).map e = xs.map some ∧ exec c (g.codeOf c) xs = .ok ys ∧
      ∀ (i : Nat) z, (g.outputsOf c)[i]? = some z → e z = ys[i]?)
    (hid : ∀ c ∈ cs, ∀ y, exec c (g.codeOf c) [y] = .ok [y]) : e w = some x := by
  induction h with
  | here _ _ _ => exact hx
  | @step v v' w c n cs hc hop hin hout sole tail ih =>
    apply ih
    · obtain ⟨xs, ys, hxs, hys, hw⟩ := heq c (by simp)
      have hxs' : xs.map some = [some x] := by simpa [hin, hx] using hxs.symm
      obtain rfl : xs = [x] := by simpa using hxs'
      rw [hid c (by simp) x] at hys
      obtain rfl := Except.ok.inj hys
      simpa using hw 0 v' (by simp [hout])
    · exact fun c' hc' => heq c' (by simp [hc'])
    · exact fun c' hc' => hid c' (by simp [hc'])

/-- A change at another node leaves the way alone. -/
theorem congr (h : g.Leads v cs w n) (hs : s ∉ cs) (hsn : s ≠ n) (hnodes : g₁.nodes = g.nodes)
    (hout : ∀ m, g₁.outputsOf m = g.outputsOf m) (hop : ∀ m, g₁.opOf m = g.opOf m)
    (hin : ∀ m, m ≠ s → g₁.inputsOf m = g.inputsOf m) (hz : ∀ z ∈ g.zone v cs, z ∉ g₁.inputsOf s) :
    g₁.Leads v cs w n := by
  induction h with
  | @here v n hn hv sole =>
    refine Leads.here (by rwa [hnodes]) (by rwa [hin n hsn.symm]) fun m hm hvm => ?_
    rw [hnodes] at hm
    by_cases hms : m = s
    · exact absurd (hms ▸ hvm) (hz v (by simp [zone]))
    · exact sole m hm (hin m hms ▸ hvm)
  | @step v v' w c n cs hc hopc hinc houtc sole tail ih =>
    have hcs : c ≠ s := fun he => hs (by simp [he])
    refine Leads.step (by rwa [hnodes]) (by rwa [hop]) (by rwa [hin c hcs]) (by rwa [hout])
      (fun m hm hvm => ?_) (ih (fun hm => hs (by simp [hm])) hsn fun z hzz => hz z ?_)
    · rw [hnodes] at hm
      by_cases hms : m = s
      · exact absurd (hms ▸ hvm) (hz v (by simp [zone]))
      · exact sole m hm (hin m hms ▸ hvm)
    · simp only [zone, flatMap_cons, houtc, singleton_append, mem_cons] at hzz ⊢
      exact .inr hzz

end Leads

/-- A ranking of what is left when the readers of `olds` read `o` and the nodes `ds`
are gone. -/
def RankedAfter (g : Graph T S) (olds : List ValRef) (o : ValRef) (ds : List NodeRef)
    (rank : NodeRef → Nat) : Prop :=
  ∀ n ∈ g.nodes, n ∉ ds → ∀ v ∈ g.inputsOf n, ∀ m ∈ g.nodes, m ∉ ds →
    redirectAny olds o v ∈ g.outputsOf m → rank m < rank n

/-- The values `zs` between the survivor `s` and the nodes `ds` it absorbs: only
the casts `cs` and the absorbed nodes read them. The readers of `olds` are
redirected to the result `o` of the survivor. -/
structure Zone (g : Graph T S) (s : NodeRef) (o : ValRef) (zs : List ValRef)
    (cs ds : List NodeRef) (olds : List ValRef) : Prop where
  mem : s ∈ g.nodes
  left : s ∉ ds
  apart : s ∉ cs
  out : g.outputsOf s = [o]
  first : o ∈ zs
  unobserved : ∀ z ∈ zs, z ∉ g.outputs
  produced : ∀ z ∈ zs, ∃ n ∈ g.nodes, z ∈ g.outputsOf n ∧ (n = s ∨ n ∈ cs ∨ n ∈ ds)
  reads : ∀ n ∈ g.nodes, n ∉ cs → n ∉ ds → ∀ v ∈ g.inputsOf n, v ∉ zs
  casts : ∀ c ∈ cs, (∃ z ∈ zs, g.inputsOf c = [z]) ∧ ∃ z ∈ zs, g.outputsOf c = [z]
  dropped : ∀ d ∈ ds, ∀ v ∈ g.outputsOf d, v ∈ olds ∨ v ∈ zs ∧ ∀ c ∈ cs, v ∉ g.inputsOf c
  olds_produced : ∀ v ∈ olds, ∃ d ∈ ds, d ∈ g.nodes ∧ v ∈ g.outputsOf d
  survivor : ∀ v ∈ g.inputsOf s, v ∉ olds
  order : ∃ rank, g.RankedAfter olds o ds rank

/-- A survivor below the nodes it absorbs takes their place in the order. -/
theorem rankedAfter_of_below (h : g.WellFormed) {s : NodeRef} {o : ValRef} {ds : List NodeRef}
    {olds : List ValRef} {rank : NodeRef → Nat} (hrank : g.Ranked rank) (hs : s ∈ g.nodes)
    (ho : o ∈ g.outputsOf s) (hold : ∀ v ∈ olds, ∃ d ∈ ds, d ∈ g.nodes ∧ v ∈ g.outputsOf d)
    (hbelow : ∀ d ∈ ds, rank s < rank d) :
    (∀ v ∈ g.inputsOf s, v ∉ olds) ∧ g.RankedAfter olds o ds rank := by
  constructor
  · intro v hv hmem
    obtain ⟨d, hd, hdn, hvd⟩ := hold v hmem
    exact absurd (hrank s hs v hv d hdn hvd) (Nat.lt_asymm (hbelow d hd))
  · intro n hn _ v hv m hm _ hvm
    by_cases hmem : v ∈ olds
    · -- the reader of an absorbed result now reads the survivor
      rw [redirectAny_of_mem o hmem] at hvm
      obtain rfl := h.producer_unique hm hvm hs ho
      obtain ⟨d, hd, hdn, hvd⟩ := hold v hmem
      exact (hbelow d hd).trans (hrank n hn v hv d hdn hvd)
    · rw [redirectAny_of_not_mem o hmem] at hvm
      exact hrank n hn v hv m hm hvm

namespace Zone

variable {s : NodeRef} {o : ValRef} {zs : List ValRef} {cs ds : List NodeRef} {olds : List ValRef}
  (h : g.WellFormed) (z : Zone g s o zs cs ds olds) {v : ValRef}

include z

theorem mem_out : o ∈ g.outputsOf s := by simp [z.out]

include h

theorem not_mem_olds : o ∉ olds := by
  intro ho
  obtain ⟨d, hd, hdn, hod⟩ := z.olds_produced o ho
  rw [h.producer_unique hdn hod z.mem z.mem_out] at hd
  exact z.left hd

omit h in
theorem live_olds (hv : v ∈ olds) : g.Live v := by
  obtain ⟨d, -, hdn, hvd⟩ := z.olds_produced v hv
  exact live_outputsOf hdn hvd

theorem substituted : Substituted g (g.substitute olds o ds) olds o ds :=
  h.substituted (fun _ => z.live_olds) (live_outputsOf z.mem z.mem_out) (z.not_mem_olds h) ds

theorem wellFormed : (g.substitute olds o ds).WellFormed := by
  obtain ⟨rank, hrank⟩ := z.order
  apply h.substitute (fun _ => z.live_olds) (live_outputsOf z.mem z.mem_out)
    (.inr (.inr ⟨s, z.mem, z.mem_out⟩)) (z.not_mem_olds h) _ _ _ hrank
  · exact fun m hm hom => h.producer_unique hm hom z.mem z.mem_out ▸ z.left
  · intro n hn hnd v hv hold m _ hvm hmd
    obtain hmem | ⟨hz, hcast⟩ := z.dropped m hmd v hvm
    · exact hold hmem
    · by_cases hnc : n ∈ cs
      · exact hcast n hnc hv
      · exact z.reads n hn hnc hnd v hv hz
  · intro v hv hold m _ hvm hmd
    exact (z.dropped m hmd v hvm).elim hold fun hz => z.unobserved v hz.1 hv

omit h in
theorem survivor_reads (hv : v ∈ g.inputsOf s) : v ∉ zs :=
  z.reads s z.mem z.apart z.left v hv

/-- The survivor computes `x`, which the absorbed nodes computed, and every value
of the zone holds it. -/
theorem assigns {ins outs : List T} {e : ValRef → Option T} {x : T}
    (he : g.AssignsOff exec s ins outs e) (hold : ∀ v ∈ olds, v ∉ zs → e v = some x)
    (hcast : ∀ c ∈ cs, exec c (g.codeOf c) [x] = .ok [x])
    (hs : ∃ xs, (g.inputsOf s).map e = xs.map some ∧ exec s (g.codeOf s) xs = .ok [x]) :
    (g.substitute olds o ds).Assigns exec ins outs fun v => if v ∈ zs then some x else e v := by
  obtain ⟨r, hin, hout⟩ := z.substituted h
  have hid : ∀ v, (g.substitute olds o ds).idOf v = g.idOf v := r.idOf_eq
  have hleft : ∀ n, n ∈ (g.substitute olds o ds).nodes ↔ n ∈ g.nodes ∧ n ∉ ds := by
    rw [r.nodes_eq]
    simp
  -- a value outside the zone keeps its tensor through the redirection
  have hkeep : ∀ v, v ∉ zs → (if redirectAny olds o v ∈ zs then some x
      else e (redirectAny olds o v)) = e v := by
    intro v hv
    by_cases hmem : v ∈ olds
    · rw [redirectAny_of_mem o hmem, if_pos z.first, hold v hmem hv]
    · rw [redirectAny_of_not_mem o hmem, if_neg hv]
  have hmap : ∀ l : List ValRef, (∀ v ∈ l, v ∉ zs) →
      (l.map (redirectAny olds o)).map (fun v => if v ∈ zs then some x else e v) = l.map e := by
    intro l hl
    rw [map_map]
    exact map_congr_left fun v hv => hkeep v (hl v hv)
  -- an output of a node that is neither the survivor nor a cast is outside the zone
  have houtside : ∀ n ∈ g.nodes, n ∉ ds → n ≠ s → n ∉ cs → ∀ v ∈ g.outputsOf n, v ∉ zs := by
    intro n hn hnd hns hnc v hv hz
    obtain ⟨m, hm, hvm, hmem⟩ := z.produced v hz
    rw [h.producer_unique hm hvm hn hv] at hmem
    exact hmem.elim hns fun hor => hor.elim hnc hnd
  constructor
  · intro i v hv
    rw [r.inputs_eq] at hv
    have hz : v ∉ zs := by
      intro hz
      obtain ⟨m, hm, hvm, -⟩ := z.produced v hz
      exact (h.output_apart m hm v hvm).1 (mem_of_getElem? hv)
    simp only [if_neg hz]
    exact he.inputs i v hv
  · intro v t hv ht
    rw [r.constants_eq, hid] at ht
    have hz : v ∉ zs := by
      intro hz
      obtain ⟨m, hm, hvm, -⟩ := z.produced v hz
      simp [(h.output_apart m hm v hvm).2] at ht
    simp only [if_neg hz]
    -- what is live after the fold was live before
    have hlive : g.Live v := by
      obtain hv | hv | ⟨n, hn, hv | hv⟩ := hv
      · exact live_input (r.inputs_eq ▸ hv)
      · rw [hout] at hv
        obtain ⟨w, hw, rfl⟩ := mem_map.mp hv
        unfold redirectAny
        split_ifs
        · exact live_outputsOf z.mem z.mem_out
        · exact live_output hw
      · rw [hin n ((hleft n).mp hn).1] at hv
        obtain ⟨w, hw, rfl⟩ := mem_map.mp hv
        unfold redirectAny
        split_ifs
        · exact live_outputsOf z.mem z.mem_out
        · exact live_inputsOf ((hleft n).mp hn).1 hw
      · rw [r.outputsOf_eq] at hv
        exact live_outputsOf ((hleft n).mp hn).1 hv
    exact he.constants v t hlive ht
  · intro n hn
    obtain ⟨hn, hnd⟩ := (hleft n).mp hn
    rw [hin n hn, r.codeOf_eq, r.outputsOf_eq]
    by_cases hns : n = s
    · subst hns
      obtain ⟨xs, hxs, hys⟩ := hs
      refine ⟨xs, [x], ?_, hys, fun i v hv => ?_⟩
      · rw [hmap _ fun v hv => z.survivor_reads hv, hxs]
      · rw [z.out] at hv
        obtain ⟨hi, rfl⟩ := List.getElem?_eq_some_iff.mp hv
        obtain rfl : i = 0 := by simpa using hi
        simp [z.first]
    · by_cases hnc : n ∈ cs
      · obtain ⟨⟨z₁, hz₁, hin₁⟩, z₂, hz₂, hout₂⟩ := z.casts n hnc
        refine ⟨[x], [x], ?_, hcast n hnc, fun i v hv => ?_⟩
        · have hz' : redirectAny olds o z₁ ∈ zs := by
            unfold redirectAny
            split_ifs
            · exact z.first
            · exact hz₁
          simp [hin₁, hz']
        · rw [hout₂] at hv
          obtain ⟨hi, rfl⟩ := List.getElem?_eq_some_iff.mp hv
          obtain rfl : i = 0 := by simpa using hi
          simp [hz₂]
      · obtain ⟨xs, ys, hxs, hys, hw⟩ := he.nodes n hn hns
        refine ⟨xs, ys, ?_, hys, fun i v hv => ?_⟩
        · rw [hmap _ fun v hv => z.reads n hn hnc hnd v hv, hxs]
        · rw [if_neg (houtside n hn hnd hns hnc v (mem_of_getElem? hv))]
          exact hw i v hv
  · rw [hout, hmap _ fun v hv hz => z.unobserved v hz hv, he.outputs]

end Zone

end Graph

/-! ## Marked nodes -/

namespace Attrs

variable {T : Type} (a : Attrs T) (name name' : String)

theorem getBoolAttr_setBoolAttr (x : Bool) :
    (a.setBoolAttr name x).getBoolAttr name' = if name' = name then x else a.getBoolAttr name' := by
  by_cases h : name' = name
  · subst h
    simp [setBoolAttr, getBoolAttr]
  · simp [setBoolAttr, getBoolAttr, h]

theorem getIntAttr_setIntAttr (x : Int) :
    (a.setIntAttr name x).getIntAttr name' = if name' = name then x else a.getIntAttr name' := by
  by_cases h : name' = name
  · subst h
    simp [setIntAttr, getIntAttr]
  · simp [setIntAttr, getIntAttr, h]

variable {name name'} (h : name' ≠ name)

include h

theorem hasAttr_setBoolAttr_of_ne (x : Bool) : (a.setBoolAttr name x).hasAttr name' = a.hasAttr name' := by
  have hb : (a.setBoolAttr name x).hasBoolAttr name' = a.hasBoolAttr name' := by
    simp [hasBoolAttr, setBoolAttr, h]
  rw [hasAttr, hb]
  rfl

theorem hasAttr_setIntAttr_of_ne (x : Int) : (a.setIntAttr name x).hasAttr name' = a.hasAttr name' := by
  have hb : (a.setIntAttr name x).hasIntAttr name' = a.hasIntAttr name' := by
    simp [hasIntAttr, setIntAttr, h]
  rw [hasAttr, hb]
  rfl

theorem hasAttr_setTensorAttr_of_ne (x : T) :
    (a.setTensorAttr name x).hasAttr name' = a.hasAttr name' := by
  have hb : (a.setTensorAttr name x).hasTensorAttr name' = a.hasTensorAttr name' := by
    simp [hasTensorAttr, setTensorAttr, h]
  rw [hasAttr, hb]
  rfl

end Attrs

/-- The identities the passes rely on. -/
structure FusionLaws {T : Type} (K : Kernels T) : Prop where
  relu_relu : ∀ {x y}, K.relu x = .ok y → K.relu y = .ok y
  add_comm : ∀ {x y z}, K.add x y = .ok z → K.add y x = .ok z
  batchNorm_ne_nil : ∀ {eps xs zs}, K.batchNorm eps xs = .ok zs → zs ≠ []
  batchNormAffine_ne_nil : ∀ {eps xs zs}, K.batchNormAffine eps xs = .ok zs → zs ≠ []
  /-- Normalizing in eval mode after a convolution is a convolution with folded weights. -/
  conv_affine : ∀ {a x w b y ys z zs eps gamma beta mean var w' b'},
    K.conv a (x :: w :: Option.toList b) = .ok (y :: ys) →
    K.batchNormAffine eps [y, mean, var, gamma, beta] = .ok (z :: zs) →
    foldBnIntoConv K ⟨gamma, beta, mean, var⟩ eps w b = .ok (w', b') →
    ∃ rest, K.conv a [x, w', b'] = .ok (z :: rest)
  conv_plain : ∀ {a x w b y ys z zs eps mean var w' b'},
    K.conv a (x :: w :: Option.toList b) = .ok (y :: ys) →
    K.batchNorm eps [y, mean, var] = .ok (z :: zs) →
    foldBnIntoConv K ⟨K.ones ((K.shape var).headD 0) (K.dtype var),
      K.zeros ((K.shape var).headD 0) (K.dtype var), mean, var⟩ eps w b = .ok (w', b') →
    ∃ rest, K.conv a [x, w', b'] = .ok (z :: rest)

namespace Kernels

variable {T : Type} {K : Kernels T} {a a' : Attrs T} {xs ys : List T} {y z : T}

theorem setConvAttrsFromNode_congr (hi : a'.ints = a.ints) (hv : a'.vecs = a.vecs)
    (hg : a'.hasAttr "groups" = a.hasAttr "groups") (rank : Nat) :
    setConvAttrsFromNode a' rank = setConvAttrsFromNode a rank := by
  obtain ⟨f, i, v, b, t⟩ := a
  obtain ⟨f', i', v', b', t'⟩ := a'
  obtain rfl : i' = i := hi
  obtain rfl : v' = v := hv
  simp only [setConvAttrsFromNode, hg]
  rfl

theorem reluIf_relu (hK : FusionLaws K) {m : Bool} {x : T} (hy : K.reluIf m x = .ok y)
    (hz : K.relu y = .ok z) : K.relu x = .ok z := by
  cases m with
  | false =>
    obtain rfl : x = y := by simpa [reluIf] using hy
    exact hz
  | true =>
    have hy : K.relu x = .ok y := by simpa [reluIf] using hy
    rw [hK.relu_relu hy] at hz
    rw [hy, hz]

/-- An activation has a result when the kernel has returned one. -/
theorem activateFirst_head {act : T → Except Exn T} {result : List T}
    (h : activateFirst act result = .ok ys) (hy : ys[0]? = some y) :
    ∃ r rs, result = r :: rs ∧ act r = .ok y := by
  cases result with
  | nil =>
    obtain rfl : ys = [] := by simpa [activateFirst] using h.symm
    simp at hy
  | cons r rs =>
    simp only [activateFirst, bind_eq_ok, pure_eq_ok] at h
    obtain ⟨y', hy', rfl⟩ := h
    obtain rfl : y' = y := by simpa using hy
    exact ⟨r, rs, rfl, hy'⟩

/-- A convolution marked with a ReLU computes the ReLU of what it computed before. -/
theorem executeConv2d_relu (hK : FusionLaws K) (h : K.executeConv2d a xs = .ok ys)
    (hy : ys[0]? = some y) (hz : K.relu y = .ok z) :
    K.executeConv2d (a.setBoolAttr "fused_relu" true) xs = .ok [z] := by
  have hattrs : ∀ rank, setConvAttrsFromNode (a.setBoolAttr "fused_relu" true) rank =
      setConvAttrsFromNode a rank := setConvAttrsFromNode_congr rfl rfl
    (a.hasAttr_setBoolAttr_of_ne (by decide) true)
  rcases xs with _ | ⟨x, _ | ⟨w, rest⟩⟩
  · obtain rfl : ys = [] := by simpa [executeConv2d] using h.symm
    simp at hy
  · obtain rfl : ys = [] := by simpa [executeConv2d] using h.symm
    simp at hy
  · simp only [executeConv2d, hattrs, bind_eq_ok, throwIf_eq_ok] at h ⊢
    obtain ⟨u, hrank, ca, hca, result, hconv, hact⟩ := h
    obtain ⟨r, rs, rfl, hr⟩ := activateFirst_head hact hy
    refine ⟨u, hrank, ca, hca, r :: rs, hconv, bind_eq_ok.mpr ⟨z, ?_, rfl⟩⟩
    rw [Attrs.getBoolAttr_setBoolAttr]
    exact reluIf_relu hK hr hz

theorem executeLinear_relu (hK : FusionLaws K) (h : K.executeLinear a xs = .ok ys)
    (hy : ys[0]? = some y) (hz : K.relu y = .ok z) :
    K.executeLinear (a.setBoolAttr "fused_relu" true) xs = .ok [z] := by
  rcases xs with _ | ⟨x, _ | ⟨w, rest⟩⟩
  · obtain rfl : ys = [] := by simpa [executeLinear] using h.symm
    simp at hy
  · obtain rfl : ys = [] := by simpa [executeLinear] using h.symm
    simp at hy
  · simp only [executeLinear, bind_eq_ok, pure_eq_ok] at h ⊢
    obtain ⟨lin, hlin, y', hy', rfl⟩ := h
    obtain rfl : y' = y := by simpa using hy
    refine ⟨lin, hlin, z, ?_, rfl⟩
    rw [Attrs.getBoolAttr_setBoolAttr]
    exact reluIf_relu hK hy' hz

/-- An unmarked normalization computes the activation it is marked with. -/
theorem executeLayerNorm_activation (hm : a.getBoolAttr "fused_activation" = false)
    (h : K.executeLayerNorm a xs = .ok ys) (hy : ys[0]? = some y) {code : Int}
    (hz : K.activate code y = .ok z) :
    K.executeLayerNorm ((a.setBoolAttr "fused_activation" true).setIntAttr
      "fused_activation_type" code) xs = .ok [z] := by
  have heps : eps ((a.setBoolAttr "fused_activation" true).setIntAttr "fused_activation_type" code) =
      eps a := by
    have hhas : ((a.setBoolAttr "fused_activation" true).setIntAttr
        "fused_activation_type" code).hasAttr "eps" = a.hasAttr "eps" := by
      rw [Attrs.hasAttr_setIntAttr_of_ne _ (by decide), Attrs.hasAttr_setBoolAttr_of_ne _ (by decide)]
    rw [eps, hhas]
    rfl
  cases xs with
  | nil =>
    obtain rfl : ys = [] := by simpa [executeLayerNorm] using h.symm
    simp at hy
  | cons x rest =>
    simp only [executeLayerNorm, heps, bind_eq_ok] at h ⊢
    obtain ⟨result, hln, hact⟩ := h
    obtain ⟨r, rs, rfl, hr⟩ := activateFirst_head hact hy
    obtain rfl : r = y := by simpa [fusedActivation, hm] using hr
    refine ⟨r :: rs, hln, bind_eq_ok.mpr ⟨z, ?_, rfl⟩⟩
    have hmark : ((a.setBoolAttr "fused_activation" true).setIntAttr
        "fused_activation_type" code).getBoolAttr "fused_activation" = true :=
      (Attrs.getBoolAttr_setBoolAttr a _ _ true).trans (if_pos rfl)
    rw [fusedActivation, hmark, Attrs.getIntAttr_setIntAttr]
    exact hz

/-- An unmarked product of two operands adds a bias it is given as a third. -/
theorem executeMatMul_bias {x w b : T} (hbias : a.getBoolAttr "fused_bias" = false)
    (hrelu : a.getBoolAttr "fused_relu" = false) (h : K.executeMatMul a [x, w] = .ok ys)
    (hy : ys[0]? = some y) (hz : K.add y b = .ok z) (hb' : a'.getBoolAttr "fused_bias" = true)
    (hr' : a'.getBoolAttr "fused_relu" = false) : K.executeMatMul a' [x, w, b] = .ok [z] := by
  simp only [executeMatMul, addFusedBias, hbias, hrelu, reluIf, bind_eq_ok, pure_eq_ok, if_false,
    Bool.false_eq_true, Except.ok.injEq] at h
  obtain ⟨mm, hmm, biased, rfl, out, rfl, rfl⟩ := h
  obtain rfl : mm = y := by simpa using hy
  simp only [executeMatMul, addFusedBias, hb', hr', reluIf, bind_eq_ok, pure_eq_ok, if_true, if_false,
    Bool.false_eq_true, Except.ok.injEq]
  exact ⟨mm, hmm, z, hz, z, rfl, rfl⟩

/-- A convolution with folded weights computes the normalized result. -/
theorem executeConv2d_folded {x w y z w' b' : T} {rest rest' : List T} {eps : ℚ} {bn : Graph.BnParams T}
    (hm : a.getBoolAttr "fused_relu" = false) (h : K.executeConv2d a (x :: w :: rest) = .ok ys)
    (hy : ys[0]? = some y)
    (hlaw : ∀ ca rs, K.conv ca (x :: w :: rest.head?.toList) = .ok (y :: rs) →
      foldBnIntoConv K bn eps w rest.head? = .ok (w', b') →
      ∃ rs', K.conv ca [x, w', b'] = .ok (z :: rs'))
    (hfold : foldBnIntoConv K bn eps w rest.head? = .ok (w', b'))
    (hattrs : ∀ rank, setConvAttrsFromNode a' rank = setConvAttrsFromNode a rank)
    (hm' : a'.getBoolAttr "fused_relu" = false) :
    K.executeConv2d a' (x :: w' :: b' :: rest') = .ok [z] := by
  have htake : rest.take 1 = rest.head?.toList := by cases rest <;> simp
  simp only [executeConv2d, hattrs, htake, bind_eq_ok, throwIf_eq_ok] at h ⊢
  obtain ⟨u, hrank, ca, hca, result, hconv, hact⟩ := h
  obtain ⟨r, rs, rfl, hr⟩ := activateFirst_head hact hy
  obtain rfl : r = y := by simpa [hm, reluIf] using hr
  obtain ⟨rs', hrs'⟩ := hlaw ca rs hconv hfold
  refine ⟨u, hrank, ca, hca, z :: rs', by simpa using hrs', ?_⟩
  simp [activateFirst, hm', reluIf]

end Kernels

namespace Graph

variable {T S : Type} {K : Kernels T} {exec : Exec T S} {g g₁ g₂ : Graph T S} {s : NodeRef}

/-- `g₁` is `g` with other code and other inputs of `s`. -/
structure Prepared (g g₁ : Graph T S) (s : NodeRef) : Prop where
  wf : g₁.WellFormed
  nodes : g₁.nodes = g.nodes
  outputs : g₁.outputs = g.outputs
  graphInputs : g₁.inputs = g.inputs
  outputsOf : ∀ n, g₁.outputsOf n = g.outputsOf n
  opOf : ∀ n, g₁.opOf n = g.opOf n
  inputsOf : ∀ n, n ≠ s → g₁.inputsOf n = g.inputsOf n
  codeOf : ∀ n, n ≠ s → g₁.codeOf n = g.codeOf n

theorem Prepared.trans (h₁ : Prepared g g₁ s) (h₂ : Prepared g₁ g₂ s) :
    Prepared g g₂ s where
  wf := h₂.wf
  nodes := h₂.nodes.trans h₁.nodes
  outputs := h₂.outputs.trans h₁.outputs
  graphInputs := h₂.graphInputs.trans h₁.graphInputs
  outputsOf n := (h₂.outputsOf n).trans (h₁.outputsOf n)
  opOf n := (h₂.opOf n).trans (h₁.opOf n)
  inputsOf n hn := (h₂.inputsOf n hn).trans (h₁.inputsOf n hn)
  codeOf n hn := (h₂.codeOf n hn).trans (h₁.codeOf n hn)

theorem mapAttrs_eq_withCode (g : Graph T S) (n : NodeRef) (f : Attrs T → Attrs T) :
    g.mapAttrs n f =
      g.withCode (Function.update g.codeOf n { g.codeOf n with attrs := f (g.attrsOf n) }) := by
  unfold mapAttrs withCode setNode
  congr 1
  funext m
  by_cases hm : m = n
  · subst hm
    simp [codeOf]
  · simp [hm, codeOf]

theorem codeOf_mapAttrs (g : Graph T S) (n : NodeRef) (f : Attrs T → Attrs T) :
    (g.mapAttrs n f).codeOf n = { g.codeOf n with attrs := f (g.attrsOf n) } := by
  simp [mapAttrs, setNode, codeOf]

@[simp] theorem inputsOf_mapAttrs (g : Graph T S) (n m : NodeRef) (f : Attrs T → Attrs T) :
    (g.mapAttrs n f).inputsOf m = g.inputsOf m := by
  by_cases hm : m = n
  · simp [mapAttrs, setNode, inputsOf, hm]
  · simp [mapAttrs, setNode, inputsOf, hm]

@[simp] theorem outputsOf_mapAttrs (g : Graph T S) (n m : NodeRef) (f : Attrs T → Attrs T) :
    (g.mapAttrs n f).outputsOf m = g.outputsOf m := by
  by_cases hm : m = n
  · simp [mapAttrs, setNode, outputsOf, hm]
  · simp [mapAttrs, setNode, outputsOf, hm]

theorem WellFormed.mapAttrs (h : g.WellFormed) (n : NodeRef) (f : Attrs T → Attrs T) :
    Prepared g (g.mapAttrs n f) n where
  wf := by
    rw [mapAttrs_eq_withCode]
    exact h.withCode _
  nodes := rfl
  outputs := rfl
  graphInputs := rfl
  outputsOf m := outputsOf_mapAttrs g n m f
  opOf m := by
    by_cases hm : m = n
    · simp [Graph.mapAttrs, setNode, Graph.opOf, hm]
    · simp [Graph.mapAttrs, setNode, Graph.opOf, hm]
  inputsOf m _ := inputsOf_mapAttrs g n m f
  codeOf m hm := by simp [Graph.mapAttrs, setNode, Graph.codeOf, hm]

theorem AssignsOff.mapAttrs {ins outs : List T} {e : ValRef → Option T}
    (he : g.AssignsOff exec s ins outs e) (f : Attrs T → Attrs T) :
    (g.mapAttrs s f).AssignsOff exec s ins outs e :=
  he.setCode _ rfl rfl

section Install

variable {s : NodeRef} {old : ValRef} {i : Nat} {id : String} {shape : List Int} {dtype : DType}
  {t : T}

theorem Prepared.rewireConstant (h : g.WellFormed) (hs : s ∈ g.nodes)
    (hold : (g.inputsOf s)[i]? = some old) (honce : (g.inputsOf s).count old = 1)
    (hid : g.OwnId s old id) :
    Prepared g ((g.installConstant id shape dtype t).2.rewire s i old g.nextVal) s := by
  have hsk := skeleton_rewire (g.installConstant id shape dtype t).2 s i old g.nextVal
  constructor
  case wf => exact h.rewireConstant hs hold honce hid
  case nodes => rfl
  case outputs => rfl
  case graphInputs => rfl
  case outputsOf => exact fun n => outputsOf_of_skeleton hsk n
  case opOf => exact fun n => opOf_of_skeleton hsk n
  case inputsOf =>
    intro n hn
    rw [inputsOf_rewire, if_neg hn]
    rfl
  case codeOf => exact fun n _ => codeOf_of_skeleton hsk n

theorem Prepared.addConstant (h : g.WellFormed) (hs : s ∈ g.nodes)
    (hid : ∀ v, g.Live v → g.idOf v ≠ id) :
    Prepared g ((g.installConstant id shape dtype t).2.addInput s g.nextVal) s := by
  have hsk := skeleton_addInput (g.installConstant id shape dtype t).2 s g.nextVal
  constructor
  case wf => exact h.addConstant hs hid
  case nodes => rfl
  case outputs => rfl
  case graphInputs => rfl
  case outputsOf => exact fun n => outputsOf_of_skeleton hsk n
  case opOf => exact fun n => opOf_of_skeleton hsk n
  case inputsOf =>
    intro n hn
    rw [inputsOf_addInput, if_neg hn]
    rfl
  case codeOf => exact fun n _ => codeOf_of_skeleton hsk n

/-- The convolution reads its operands once, and nobody else uses the ids of the
folded weights. -/
structure Installable (g : Graph T S) (conv : NodeRef) : Prop where
  nodup : (g.inputsOf conv).Nodup
  weight : ∀ w, (g.inputsOf conv)[1]? = some w → g.OwnId conv w (g.baseId conv ++ "_fused_w")
  bias : ∀ b, (g.inputsOf conv)[2]? = some b → g.OwnId conv b (g.baseId conv ++ "_fused_b")
  noBias : (g.inputsOf conv)[2]? = none → ∀ v, g.Live v → g.idOf v ≠ g.baseId conv ++ "_fused_b"

theorem fused_ids_ne (base : String) : base ++ "_fused_w" ≠ base ++ "_fused_b" := by
  intro h
  have hl := congrArg String.toList h
  simp at hl

theorem count_of_nodup {l : List ValRef} (hnd : l.Nodup) (h : l[i]? = some old) :
    l.count old = 1 := count_eq_one_of_mem hnd (mem_of_getElem? h)

/-- The convolution reads the folded weight and bias; everybody else keeps his tensors. -/
structure Installed (exec : Exec T S) (g k : Graph T S) (conv : NodeRef) (x : ValRef)
    (rest : List ValRef) (weight bias : T) : Prop where
  prepared : Prepared g k conv
  code : k.codeOf conv = g.codeOf conv
  inputs : k.inputsOf conv = x :: g.nextVal :: (g.nextVal + 1) :: rest
  assigns : ∀ {ins outs : List T} {e : ValRef → Option T}, g.AssignsOff exec conv ins outs e →
    k.AssignsOff exec conv ins outs (Function.update (Function.update e g.nextVal (some weight))
      (g.nextVal + 1) (some bias))

/-- The graph once the folded weight is wired. -/
structure WeightWired (exec : Exec T S) (g k : Graph T S) (conv : NodeRef) (weight : T) : Prop where
  prepared : Prepared g k conv
  code : k.codeOf conv = g.codeOf conv
  inputs : k.inputsOf conv = (g.inputsOf conv).set 1 g.nextVal
  nextVal : k.nextVal = g.nextVal + 1
  assigns : ∀ {ins outs : List T} {e : ValRef → Option T}, g.AssignsOff exec conv ins outs e →
    k.AssignsOff exec conv ins outs (Function.update e g.nextVal (some weight))
  idOf : ∀ v, g.Live v → k.idOf v = g.idOf v
  idNew : k.idOf g.nextVal = g.baseId conv ++ "_fused_w"
  baseId : k.baseId conv = g.baseId conv
  reads : ∀ m ∈ g.nodes, ∀ v ∈ k.inputsOf m, v = g.nextVal ∨ v ∈ g.inputsOf m

variable (K exec) in
theorem weightWired (h : g.WellFormed) {conv : NodeRef} (hs : conv ∈ g.nodes) {w : ValRef}
    (hw : (g.inputsOf conv)[1]? = some w) (hi : g.Installable conv) (weight : T) :
    WeightWired exec g ((g.makeConstValue K conv weight "_fused_w").2.rewire conv 1 w g.nextVal) conv
      weight := by
  have hwonce := count_of_nodup hi.nodup hw
  have hwid := hi.weight w hw
  have hidOf : ∀ v, g.Live v → ((g.makeConstValue K conv weight "_fused_w").2.rewire conv 1 w
      g.nextVal).idOf v = g.idOf v := by
    intro v hv
    rw [idOf_of_skeleton (skeleton_rewire ..)]
    exact h.idOf_installConstant hv
  have hprep : Prepared g ((g.makeConstValue K conv weight "_fused_w").2.rewire conv 1 w g.nextVal)
      conv := .rewireConstant h hs hw hwonce hwid
  constructor
  case prepared => exact hprep
  case code => exact codeOf_of_skeleton (skeleton_rewire ..) conv
  case inputs =>
    rw [inputsOf_rewire, if_pos rfl]
    rfl
  case nextVal => rfl
  case assigns => exact fun he => he.rewireConstant h hs hw hwonce hwid
  case idOf => exact hidOf
  case idNew =>
    rw [idOf_of_skeleton (skeleton_rewire ..)]
    simp [makeConstValue, installConstant, createValue, setConstant, setVal, Graph.idOf]
  case baseId =>
    unfold Graph.baseId
    rw [hprep.outputsOf]
    cases hout : g.outputsOf conv with
    | nil =>
      simp [rewire, removeUse, addUse, setVal, setNode, makeConstValue, installConstant, createValue,
        setConstant]
    | cons o os => exact hidOf o (live_outputsOf hs (by simp [hout]))
  case reads =>
    intro m _ v hv
    exact (h.mem_inputsOf_rewireConstant hs hw hwonce hv).imp And.right And.left

variable {weight : T}

/-- The id of the folded bias is still new. -/
theorem WeightWired.freshBias {k : Graph T S} {conv : NodeRef}
    (hwired : WeightWired exec g k conv weight)
    (hno : ∀ v, g.Live v → g.idOf v ≠ g.baseId conv ++ "_fused_b") :
    ∀ v, k.Live v → k.idOf v ≠ k.baseId conv ++ "_fused_b" := by
  have hprep := hwired.prepared
  have hold : ∀ v, g.Live v → k.idOf v ≠ k.baseId conv ++ "_fused_b" := by
    intro v hv
    rw [hwired.idOf v hv, hwired.baseId]
    exact hno v hv
  rintro v (hv | hv | ⟨m, hm, hv | hv⟩)
  · exact hold v (live_input (hprep.graphInputs ▸ hv))
  · exact hold v (live_output (hprep.outputs ▸ hv))
  · rw [hprep.nodes] at hm
    obtain rfl | hv := hwired.reads m hm v hv
    · rw [hwired.idNew, hwired.baseId]
      exact fused_ids_ne _
    · exact hold v (live_inputsOf hm hv)
  · rw [hprep.nodes] at hm
    rw [hprep.outputsOf] at hv
    exact hold v (live_outputsOf hm hv)

/-- The id of the folded bias still belongs to the old bias. -/
theorem WeightWired.ownBias {k : Graph T S} {conv : NodeRef} {b : ValRef}
    (hwired : WeightWired exec g k conv weight)
    (hbid : g.OwnId conv b (g.baseId conv ++ "_fused_b")) :
    k.OwnId conv b (k.baseId conv ++ "_fused_b") := by
  have hprep := hwired.prepared
  rw [hwired.baseId]
  constructor
  · intro v hv
    rw [hprep.graphInputs] at hv
    rw [hwired.idOf v (live_input hv)]
    exact hbid.inputs v hv
  · intro v hv
    rw [hprep.outputs] at hv
    rw [hwired.idOf v (live_output hv)]
    exact hbid.outputs v hv
  · intro m hm v hv
    rw [hprep.nodes] at hm
    rw [hprep.outputsOf] at hv
    rw [hwired.idOf v (live_outputsOf hm hv)]
    exact hbid.produced m hm v hv
  · intro m hm v hv he
    rw [hprep.nodes] at hm
    obtain rfl | hv := hwired.reads m hm v hv
    · rw [hwired.idNew] at he
      exact absurd he (fused_ids_ne _)
    · rw [hwired.idOf v (live_inputsOf hm hv)] at he
      exact hbid.reads m hm v hv he

theorem installFusedConvWeights_spec (h : g.WellFormed) {conv : NodeRef} (hs : conv ∈ g.nodes)
    {x w : ValRef} {rest : List ValRef} (hin : g.inputsOf conv = x :: w :: rest)
    (hi : g.Installable conv) {weight bias : T} {k : Graph T S}
    (hk : g.installFusedConvWeights K conv weight bias = .ok k) :
    Installed exec g k conv x rest.tail weight bias := by
  have hw : (g.inputsOf conv)[1]? = some w := by simp [hin]
  have hwired := weightWired K exec h hs hw hi weight
  have hrun : g.installFusedConvWeights K conv weight bias =
      let g₁ := (g.makeConstValue K conv weight "_fused_w").2.rewire conv 1 w g.nextVal
      if 3 ≤ (g₁.inputsOf conv).length then
        (g₁.makeConstValue K conv bias "_fused_b").2.replaceInput conv 2 g₁.nextVal
      else .ok ((g₁.makeConstValue K conv bias "_fused_b").2.addInput conv g₁.nextVal) := by
    have hget : ((g.makeConstValue K conv weight "_fused_w").2.inputsOf conv)[1]? = some w := hw
    simp only [installFusedConvWeights, replaceInput, hget]
    rfl
  rw [hrun] at hk
  dsimp only at hk
  generalize (g.makeConstValue K conv weight "_fused_w").2.rewire conv 1 w g.nextVal = g₁ at hwired hk
  have hprep := hwired.prepared
  have hin₁ : g₁.inputsOf conv = x :: g.nextVal :: rest := by
    rw [hwired.inputs, hin]
    rfl
  cases rest with
  | nil =>
    have hlen : ¬ 3 ≤ (g₁.inputsOf conv).length := by simp [hin₁]
    rw [if_neg hlen] at hk
    obtain rfl := Except.ok.inj hk
    have hfresh := hwired.freshBias (hi.noBias (by simp [hin]))
    refine ⟨hprep.trans (Prepared.addConstant hprep.wf (hprep.nodes ▸ hs) hfresh), ?_, ?_, fun he => ?_⟩
    · rw [← hwired.code]
      exact codeOf_of_skeleton (skeleton_addInput ..) conv
    · rw [inputsOf_addInput, if_pos rfl]
      change g₁.inputsOf conv ++ [g₁.nextVal] = _
      rw [hin₁, hwired.nextVal]
      rfl
    · rw [← hwired.nextVal]
      exact (hwired.assigns he).addConstant hprep.wf hfresh
  | cons b rest =>
    have hlen : 3 ≤ (g₁.inputsOf conv).length := by simp [hin₁]
    have hb : (g.inputsOf conv)[2]? = some b := by simp [hin]
    have hb₁ : (g₁.inputsOf conv)[2]? = some b := by simp [hin₁]
    have hget : ((g₁.makeConstValue K conv bias "_fused_b").2.inputsOf conv)[2]? = some b := hb₁
    rw [if_pos hlen] at hk
    simp only [replaceInput, hget] at hk
    obtain rfl := Except.ok.inj hk
    have hown := hwired.ownBias (hi.bias b hb)
    have honce : (g₁.inputsOf conv).count b = 1 := by
      have hne : b ≠ g.nextVal := Nat.ne_of_lt (h.live_lt b (live_inputsOf hs (mem_of_getElem? hb)))
      have hnd := hi.nodup
      rw [hin] at hnd
      simp only [nodup_cons, mem_cons, not_or] at hnd
      rw [hin₁]
      simp [hnd.1.2.1, hne.symm, count_eq_zero_of_not_mem hnd.2.2.1]
    refine ⟨hprep.trans (Prepared.rewireConstant hprep.wf (hprep.nodes ▸ hs) hb₁ honce hown), ?_, ?_,
      fun he => ?_⟩
    · rw [← hwired.code]
      exact codeOf_of_skeleton (skeleton_rewire ..) conv
    · rw [inputsOf_rewire, if_pos rfl]
      change (g₁.inputsOf conv).set 2 g₁.nextVal = _
      rw [hin₁, hwired.nextVal]
      rfl
    · rw [← hwired.nextVal]
      exact (hwired.assigns he).rewireConstant hprep.wf (hprep.nodes ▸ hs) hb₁ honce hown

end Install

end Graph

end Tenzor.Jit
