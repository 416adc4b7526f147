import Tenzor.Distributed.CheckpointFormat

/-!
# Saves of changing world sizes into one path

A save replaces the files of its own ranks and leaves the files of higher ranks.
What `load` returns is compared with what it returns from a path that has seen
the last save only.
-/

namespace Tenzor.Checkpoint

variable {dir : Directory}

open Throwing List

/-- The state dicts of all ranks, and the order in which their files appear. -/
structure Snapshot where
  worldSize : ℕ
  states : ℕ → Tensors
  specs : ℕ → Specs
  order : List ℕ
  perm : order.Perm (List.range worldSize)
  pos : 0 < worldSize
  fits : worldSize ≤ maxInt64
  storable : ∀ r < worldSize, Storable (states r)

/-- A save on all its ranks. -/
def saveAll (dir : Directory) (s : Snapshot) : Except Exn Directory :=
  s.order.foldlM (fun dir r => save dir (s.states r) r s.worldSize (s.specs r)) dir

/-- The directory after saves, each finished before the next. -/
def saves (history : List Snapshot) : Except Exn Directory := history.foldlM saveAll ∅

namespace Snapshot

def file (s : Snapshot) (r : ℕ) : List UInt8 :=
  match serializeState (s.states r) s.worldSize (s.specs r) with
  | .ok data => data
  | .error _ => []

/-- Every rank could write its file. -/
def Complete (s : Snapshot) : Prop :=
  ∀ r < s.worldSize, serializeState (s.states r) s.worldSize (s.specs r) = .ok (s.file r)

/-- What the file of a rank is read back as. -/
def contents (s : Snapshot) (r : ℕ) : ShardContents :=
  match deserializeState (s.file r) with
  | .ok c => c
  | .error _ => ⟨∅, 0, 0, ∅⟩

variable {s : Snapshot} {r : ℕ}

theorem Complete.read_file (h : s.Complete) (hr : r < s.worldSize) :
    deserializeState (s.file r) = .ok (s.contents r) ∧ (s.contents r).worldSize = s.worldSize ∧
      (s.contents r).version = version ∧
      (∀ name, (s.contents r).tensors.lookup name =
        ((s.states r).lookup name).map Blob.stored) ∧
      ∀ name, (s.contents r).shardSpecs.lookup name =
        ((s.states r).lookup name).map fun t => (resolved (s.specs r) ⟨name, t⟩).written := by
  obtain ⟨c, hc, hrest⟩ := deserializeState_serialize (s.storable r hr) (fits_nat s.fits) (h r hr)
  have hcontents : s.contents r = c := by
    rw [contents, hc]
  rw [hcontents]
  exact ⟨hc, hrest⟩

end Snapshot

/-- The save that has last written the file of the rank. -/
def latest (history : List Snapshot) (r : ℕ) : Option Snapshot :=
  history.reverse.find? fun s => r < s.worldSize

variable {history : List Snapshot} {s : Snapshot}

theorem latest_spec {r : ℕ} (h : latest history r = some s) : s ∈ history ∧ r < s.worldSize := by
  constructor
  · exact mem_reverse.mp (mem_of_find?_eq_some h)
  · simpa using find?_some h

theorem saveAll_spec {dir' : Directory} (h : saveAll dir s = .ok dir') :
    s.Complete ∧
      ∀ r, dir'.lookup r = if r < s.worldSize then some (s.file r) else dir.lookup r := by
  have hranks : ∀ (l : List ℕ) (dir : Directory),
      l.foldlM (fun dir r => save dir (s.states r) r s.worldSize (s.specs r)) dir = .ok dir' →
      (∀ r ∈ l, serializeState (s.states r) s.worldSize (s.specs r) = .ok (s.file r)) ∧
        ∀ r, dir'.lookup r = if r ∈ l then some (s.file r) else dir.lookup r := by
    intro l
    induction l with
    | nil =>
      intro dir hdir
      obtain rfl : dir = dir' := by simpa using hdir
      exact ⟨by simp, by simp⟩
    | cons k rest ih =>
      intro dir hdir
      simp only [foldlM_cons_eq_ok, save, Throwing.bind_eq_ok, pure_eq_ok] at hdir
      obtain ⟨_, ⟨data, hdata, rfl⟩, hrest⟩ := hdir
      obtain ⟨hall, hlookup⟩ := ih _ hrest
      have hfile : s.file k = data := by
        rw [Snapshot.file, hdata]
      refine ⟨forall_mem_cons.mpr ⟨by rw [hdata, hfile], hall⟩, fun r => ?_⟩
      rw [hlookup]
      by_cases hr : r ∈ rest
      · simp [hr]
      · by_cases hk : r = k
        · subst hk
          simp [hr, hfile]
        · simp [hr, hk, AList.lookup_insert_ne]
  obtain ⟨hall, hlookup⟩ := hranks s.order dir h
  have hmem : ∀ r, r ∈ s.order ↔ r < s.worldSize := fun r => by
    rw [s.perm.mem_iff, mem_range]
  refine ⟨fun r hr => hall r ((hmem r).mpr hr), fun r => ?_⟩
  rw [hlookup]
  simp only [hmem]

/-- After a history of saves, each file is that of the last save that reached its rank. -/
theorem saves_spec (h : saves history = .ok dir) :
    (∀ s ∈ history, s.Complete) ∧ ∀ r, dir.lookup r = (latest history r).map (·.file r) := by
  have hfrom : ∀ (l : List Snapshot) (dir₀ : Directory), l.foldlM saveAll dir₀ = .ok dir →
      (∀ s ∈ l, s.Complete) ∧
        ∀ r, dir.lookup r = ((latest l r).map (·.file r)).or (dir₀.lookup r) := by
    intro l
    induction l with
    | nil =>
      intro dir₀ hdir
      obtain rfl : dir₀ = dir := by simpa using hdir
      exact ⟨by simp, fun r => rfl⟩
    | cons s rest ih =>
      intro dir₀ hdir
      rw [foldlM_cons_eq_ok] at hdir
      obtain ⟨dir₁, hs, hrest⟩ := hdir
      obtain ⟨hcomplete, hlookup₁⟩ := saveAll_spec hs
      obtain ⟨hall, hlookup⟩ := ih dir₁ hrest
      refine ⟨forall_mem_cons.mpr ⟨hcomplete, hall⟩, fun r => ?_⟩
      rw [hlookup, hlookup₁, latest, latest, reverse_cons, find?_append]
      cases List.find? (fun s => decide (r < s.worldSize)) rest.reverse with
      | some s' => simp
      | none => by_cases hr : r < s.worldSize <;> simp [hr]
  obtain ⟨hall, hlookup⟩ := hfrom history ∅ h
  refine ⟨hall, fun r => ?_⟩
  rw [hlookup]
  cases latest history r <;> rfl

section

variable (conv : Conversion) {history : List Snapshot} {dir : Directory} {rank worldSize : ℤ}
  {n : ℕ} {t : Tensors} {last : Snapshot}

theorem load_of_saves (hdir : saves history = .ok dir) (hlo : 0 ≤ rank) (hhi : rank < worldSize) :
    load conv dir rank worldSize =
      match latest history rank.toNat with
      | some s =>
        if (s.worldSize : ℤ) = worldSize then .ok (s.contents rank.toNat).tensors
        else loadAll conv dir rank.toNat worldSize.toNat
      | none => loadAll conv dir rank.toNat worldSize.toNat := by
  obtain ⟨hall, hlookup⟩ := saves_spec hdir
  have hworld : ¬ worldSize < 1 := by omega
  have hrank : ¬ (rank < 0 ∨ worldSize ≤ rank) := by omega
  simp only [load, throwIf, if_neg hworld, if_neg hrank, hlookup]
  cases hlatest : latest history rank.toNat with
  | none => rfl
  | some s =>
    obtain ⟨hmem, hr⟩ := latest_spec hlatest
    obtain ⟨hread, hsize, -⟩ := (hall s hmem).read_file hr
    simp only [Option.map_some, hread]
    rw [← hsize]
    rfl

theorem max_keys_lt (hpos : 0 < n) {keys : List ℕ} (h : ∀ k ∈ keys, k < n) :
    keys.foldl max 0 < n := by
  refine List.foldlRecOn (motive := (· < n)) keys max hpos fun m hm k hk => ?_
  exact max_lt hm (h k hk)

/-- Resharding reads the files below the recorded world size, and only when there are no
others. -/
theorem loadAll_of_agree {dir dir' : Directory} {rank worldSize : ℕ} (hpos : 0 < n)
    (hsize : ∀ data c, dir.lookup 0 = some data → deserializeState data = .ok c → c.worldSize = n)
    (hagree : ∀ r < n, dir'.lookup r = dir.lookup r) (hbeyond : ∀ r, n ≤ r → dir'.lookup r = none)
    (h : loadAll conv dir rank worldSize = .ok t) : loadAll conv dir' rank worldSize = .ok t := by
  simp only [loadAll, Throwing.bind_eq_ok, throwIf_eq_ok] at h ⊢
  obtain ⟨_, -, h⟩ := h
  have hzero := hagree 0 hpos
  have hkeys : ∀ k ∈ dir'.keys, k < n := by
    intro k hk
    by_contra hge
    have hnone := hbeyond k (Nat.le_of_not_lt hge)
    exact AList.lookup_eq_none.mp hnone (AList.mem_keys.mpr hk)
  cases hdata : dir.lookup 0 with
  | none =>
    rw [hdata] at h
    cases h
  | some data =>
    rw [hdata] at h hzero
    simp only [Throwing.bind_eq_ok, throwIf_eq_ok] at h
    obtain ⟨shard₀, hshard₀, _, hvalid, others, hothers, _, -, hresult⟩ := h
    have hn : shard₀.worldSize = n := hsize data shard₀ hdata hshard₀
    have hnonempty : dir'.keys ≠ [] := by
      intro hnil
      have hmem : (0 : ℕ) ∈ dir' := AList.lookup_isSome.mp (by rw [hzero]; rfl)
      rw [AList.mem_keys, hnil] at hmem
      exact not_mem_nil hmem
    have hreads : (List.range (shard₀.worldSize.toNat - 1)).mapM
          (fun r => readExpected dir' shard₀.worldSize (r + 1)) =
        (List.range (shard₀.worldSize.toNat - 1)).mapM
          fun r => readExpected dir shard₀.worldSize (r + 1) := by
      refine mapM_congr fun r hr => ?_
      have hr := mem_range.mp hr
      rw [readExpected, readExpected, hagree (r + 1) (by omega)]
    refine ⟨(), hnonempty, ?_⟩
    rw [hzero]
    simp only [Throwing.bind_eq_ok, throwIf_eq_ok]
    refine ⟨shard₀, hshard₀, (), hvalid, others, ?_, (), ?_, hresult⟩
    · rw [hreads, hothers]
    · have hmax := max_keys_lt hpos hkeys
      omega

/-- The rank lies beyond the last save, and the last save that reached it had the world
size of the load. -/
def Stale (sizes : List ℕ) (last : ℕ) (rank worldSize : ℤ) : Prop :=
  0 ≤ rank ∧ rank < worldSize ∧ (last : ℤ) ≤ rank ∧
    (sizes.reverse.find? fun n : ℕ => rank < n) = some worldSize.toNat

theorem find_size {history : List Snapshot} (hlo : 0 ≤ rank) :
    ((history.map Snapshot.worldSize).reverse.find? fun n : ℕ => rank < n) =
      (latest history rank.toNat).map Snapshot.worldSize := by
  rw [← map_reverse, find?_map]
  congr 2
  funext s
  have hiff : rank < s.worldSize ↔ rank.toNat < s.worldSize := by omega
  exact decide_eq_decide.mpr hiff

theorem latest_append {history : List Snapshot} {last : Snapshot} {r : ℕ} :
    latest (history ++ [last]) r = if r < last.worldSize then some last else latest history r := by
  by_cases hr : r < last.worldSize <;> simp [hr, latest]

theorem latest_singleton {r : ℕ} :
    latest [last] r = if r < last.worldSize then some last else none :=
  @latest_append [] last r

/-- A rank below the last save, or without a file of the world size of the load, is given
what the last save alone would give it. -/
theorem load_of_last_save {lastDir : Directory} (hdir : saves (history ++ [last]) = .ok dir)
    (hlast : saves [last] = .ok lastDir)
    (hstale : ¬ Stale (history.map Snapshot.worldSize) last.worldSize rank worldSize)
    (ht : load conv dir rank worldSize = .ok t) : load conv lastDir rank worldSize = .ok t := by
  have hargs : ¬ worldSize < 1 ∧ ¬ (rank < 0 ∨ worldSize ≤ rank) := by
    simp only [load, Throwing.bind_eq_ok, throwIf_eq_ok] at ht
    obtain ⟨_, hworld, _, hrank, -⟩ := ht
    exact ⟨hworld, hrank⟩
  have hlo : 0 ≤ rank := by omega
  have hhi : rank < worldSize := by omega
  obtain ⟨hall, hlookup⟩ := saves_spec hdir
  obtain ⟨-, hlookupLast⟩ := saves_spec hlast
  have hfiles : ∀ r < last.worldSize, lastDir.lookup r = dir.lookup r := by
    intro r hr
    rw [hlookup, hlookupLast, latest_append, latest_singleton, if_pos hr, if_pos hr]
  have hbeyond : ∀ r, last.worldSize ≤ r → lastDir.lookup r = none := by
    intro r hr
    rw [hlookupLast, latest_singleton, if_neg (Nat.not_lt.mpr hr)]
    rfl
  have hsize : ∀ data c, dir.lookup 0 = some data → deserializeState data = .ok c →
      c.worldSize = last.worldSize := by
    intro data c hdata hc
    rw [hlookup, latest_append, if_pos last.pos] at hdata
    obtain rfl : last.file 0 = data := by simpa using hdata
    obtain ⟨hread, hworld, -⟩ := (hall last (by simp)).read_file last.pos
    obtain rfl := Except.ok.inj (hread.symm.trans hc)
    exact hworld
  have hreshard : ∀ {t}, loadAll conv dir rank.toNat worldSize.toNat = .ok t →
      loadAll conv lastDir rank.toNat worldSize.toNat = .ok t :=
    fun h => loadAll_of_agree conv last.pos hsize hfiles hbeyond h
  rw [load_of_saves conv hdir hlo hhi, latest_append] at ht
  rw [load_of_saves conv hlast hlo hhi, latest_singleton]
  by_cases hr : rank.toNat < last.worldSize
  · rw [if_pos hr] at ht ⊢
    simp only at ht ⊢
    split_ifs at ht ⊢ with hsame
    · exact ht
    · exact hreshard ht
  · rw [if_neg hr] at ht ⊢
    cases hlatest : latest history rank.toNat with
    | none =>
      rw [hlatest] at ht
      exact hreshard ht
    | some s =>
      rw [hlatest] at ht
      simp only at ht
      split_ifs at ht with hsame
      · refine absurd ⟨hlo, hhi, by omega, ?_⟩ hstale
        rw [find_size hlo, hlatest, Option.map_some, ← hsame, Int.toNat_natCast]
      · exact hreshard ht

/-- A rank whose file is stale is given the shard of the earlier save. -/
theorem load_stale (hdir : saves (history ++ [last]) = .ok dir)
    (hstale : Stale (history.map Snapshot.worldSize) last.worldSize rank worldSize) :
    ∃ s ∈ history, rank < s.worldSize ∧
      load conv dir rank worldSize = .ok (s.contents rank.toNat).tensors := by
  obtain ⟨hlo, hhi, hbeyond, hfind⟩ := hstale
  rw [find_size hlo, Option.map_eq_some_iff] at hfind
  obtain ⟨s, hlatest, hsame⟩ := hfind
  obtain ⟨hmem, hr⟩ := latest_spec hlatest
  refine ⟨s, hmem, by omega, ?_⟩
  rw [load_of_saves conv hdir hlo hhi, latest_append, if_neg (by omega), hlatest]
  simp only
  rw [if_pos (by omega)]

end

def byteBlob (b : UInt8) : Blob where
  shape := []
  dtype := .uint8
  data := [b]

/-- One byte under one name. -/
def byteState (b : UInt8) : Tensors := AList.singleton [] (byteBlob b)

theorem storable_byteState (b : UInt8) : Storable (byteState b) where
  blobs := by
    intro e he
    obtain rfl := mem_singleton.mp he
    exact ⟨Nat.zero_le _, by constructor <;> simp [byteBlob, checkedNumel, dtypeSize, maxInt64]⟩
  count_le := by
    simp [byteState, maxInt64]

/-- The same state on every rank. -/
def uniform (n : ℕ) (hpos : 0 < n) (hfits : n ≤ maxInt64) (b : UInt8) : Snapshot where
  worldSize := n
  states := fun _ => byteState b
  specs := fun _ => ∅
  order := List.range n
  perm := Perm.refl _
  pos := hpos
  fits := hfits
  storable := fun _ _ => storable_byteState b

theorem complete_uniform {n : ℕ} (hpos : 0 < n) (hfits : n ≤ maxInt64) (b : UInt8) :
    (uniform n hpos hfits b).Complete := by
  intro r hr
  rfl

/-- Whether a save can write its files does not depend on the directory. -/
theorem Snapshot.Complete.saveAll (h : s.Complete) (dir : Directory) :
    ∃ dir', saveAll dir s = .ok dir' := by
  have hranks : ∀ (l : List ℕ), (∀ r ∈ l, r < s.worldSize) → ∀ dir : Directory,
      ∃ dir', l.foldlM (fun dir r => save dir (s.states r) r s.worldSize (s.specs r)) dir =
        .ok dir' := by
    intro l
    induction l with
    | nil => exact fun _ dir => ⟨dir, rfl⟩
    | cons r rest ih =>
      intro hlt dir
      obtain ⟨hr, hrest⟩ := forall_mem_cons.mp hlt
      rw [foldlM_cons, save, h r hr]
      exact ih hrest _
  refine hranks s.order (fun r hr => ?_) dir
  exact mem_range.mp (s.perm.mem_iff.mp hr)

theorem saves_append {history : List Snapshot} {dir : Directory} (h : saves history = .ok dir)
    (s : Snapshot) : saves (history ++ [s]) = saveAll dir s := by
  rw [saves, foldlM_append, ← saves, h]
  exact bind_pure (saveAll dir s)

/-- Saves of given sizes whose state is one byte. -/
theorem exists_uniform {sizes : List ℕ} (hsizes : ∀ n ∈ sizes, 0 < n ∧ n ≤ maxInt64) (b : UInt8) :
    ∃ history : List Snapshot, history.map Snapshot.worldSize = sizes ∧
      (∀ s ∈ history, ∀ r, s.states r = byteState b) ∧ ∃ dir, saves history = .ok dir := by
  induction sizes using List.reverseRecOn with
  | nil => exact ⟨[], rfl, by simp, ∅, rfl⟩
  | append_singleton sizes n ih =>
    obtain ⟨history, hmap, hstates, dir, hdir⟩ := ih fun k hk =>
      hsizes k (mem_append_left _ hk)
    obtain ⟨hpos, hfits⟩ := hsizes n (by simp)
    obtain ⟨dir', hdir'⟩ := (complete_uniform hpos hfits b).saveAll dir
    refine ⟨history ++ [uniform n hpos hfits b], by simp [hmap, uniform], ?_, dir', ?_⟩
    · intro s hs
      rcases mem_append.mp hs with hs | hs
      · exact hstates s hs
      · obtain rfl := mem_singleton.mp hs
        exact fun _ => rfl
    · rw [saves_append hdir, hdir']

/-- What a rank finds under a name when it loads after the saves. -/
def found (conv : Conversion) (history : List Snapshot) (rank worldSize : ℤ) (name : Name) :
    Option Blob := do
  let dir ← (saves history).toOption
  let tensors ← (load conv dir rank worldSize).toOption
  tensors.lookup name

theorem found_eq_some {conv : Conversion} {rank worldSize : ℤ} {name : Name} {t : Blob}
    (h : found conv history rank worldSize name = some t) :
    ∃ dir tensors, saves history = .ok dir ∧ load conv dir rank worldSize = .ok tensors ∧
      tensors.lookup name = some t := by
  simp only [found, Option.bind_eq_bind, Option.bind_eq_some_iff] at h
  obtain ⟨dir, hdir, tensors, htensors, ht⟩ := h
  have hok : ∀ {α : Type} {x : Except Exn α} {a : α}, x.toOption = some a → x = .ok a := by
    intro α x a hx
    cases x with
    | error e => simp [Except.toOption] at hx
    | ok b => simpa [Except.toOption] using hx
  exact ⟨dir, tensors, hok hdir, hok htensors, ht⟩

/-- `load` returns data of the last save only, whatever the earlier saves contained, unless the
file of the rank is stale and has the world size of the load. -/
theorem load_of_last_save_iff (conv : Conversion) {sizes : List ℕ}
    (hsizes : ∀ n ∈ sizes, 0 < n ∧ n ≤ maxInt64) {last : Snapshot} {lastDir : Directory}
    (hlast : saves [last] = .ok lastDir) (rank worldSize : ℤ) :
    (∀ earlier dir t, earlier.map Snapshot.worldSize = sizes →
      saves (earlier ++ [last]) = .ok dir → load conv dir rank worldSize = .ok t →
      load conv lastDir rank worldSize = .ok t) ↔ ¬ Stale sizes last.worldSize rank worldSize := by
  constructor
  · intro hall hstale
    have hcomplete : last.Complete := (saves_spec hlast).1 last (by simp)
    -- the same sizes with two states: the loads would both be the load after the last save
    have hloaded : ∀ b, ∃ t : Tensors, load conv lastDir rank worldSize = .ok t ∧
        t.lookup [] = some (byteBlob b) := by
      intro b
      obtain ⟨earlier, hmap, hstates, dir, hdir⟩ := exists_uniform hsizes b
      obtain ⟨dir', hdir'⟩ := hcomplete.saveAll dir
      rw [← saves_append hdir] at hdir'
      obtain ⟨s, hs, hr, hload⟩ := load_stale conv hdir' (hmap ▸ hstale)
      refine ⟨_, hall earlier dir' _ hmap hdir' hload, ?_⟩
      have hs' : s.Complete := (saves_spec hdir).1 s hs
      have hlo := hstale.1
      rw [(hs'.read_file (by omega)).2.2.2.1, hstates s hs]
      rfl
    obtain ⟨t₀, hload₀, h₀⟩ := hloaded 0
    obtain ⟨t₁, hload₁, h₁⟩ := hloaded 1
    obtain rfl := Except.ok.inj (hload₀.symm.trans hload₁)
    rw [h₀] at h₁
    simp [byteBlob] at h₁
  · intro hstale earlier dir t hmap hdir ht
    exact load_of_last_save conv hdir hlast (hmap ▸ hstale) ht

/-- After a save of four ranks and one of two, rank two of three loads the last save. -/
theorem load_of_last_save_four_two :
    ∃ lastDir, saves [uniform 2 (by decide) (by decide) 2] = .ok lastDir ∧
      ∀ earlier dir t, earlier.map Snapshot.worldSize = [4] →
        saves (earlier ++ [uniform 2 (by decide) (by decide) 2]) = .ok dir →
        load ⟨fun _ t => t⟩ dir 2 3 = .ok t → load ⟨fun _ t => t⟩ lastDir 2 3 = .ok t := by
  obtain ⟨lastDir, hlast⟩ :=
    (@complete_uniform 2 (by decide) (by decide) 2).saveAll ∅
  have hlast : saves [uniform 2 (by decide) (by decide) 2] = .ok lastDir :=
    (@saves_append [] ∅ rfl _).trans hlast
  refine ⟨lastDir, hlast, ?_⟩
  have hsizes : ∀ n ∈ [4], 0 < n ∧ n ≤ maxInt64 := by decide
  refine (load_of_last_save_iff ⟨fun _ t => t⟩ hsizes hlast 2 3).mpr ?_
  intro hstale
  have hfind := hstale.2.2.2
  simp at hfind

/-- Four ranks save, then two, and rank three of four loads the file it had saved before. -/
theorem stale_shard_loads :
    ¬ ∀ (earlier : List Snapshot) (last : Snapshot) (dir lastDir : Directory) (t : Tensors)
      (rank worldSize : ℤ), saves (earlier ++ [last]) = .ok dir → saves [last] = .ok lastDir →
      load ⟨fun _ t => t⟩ dir rank worldSize = .ok t →
      load ⟨fun _ t => t⟩ lastDir rank worldSize = .ok t := by
  intro hall
  let first := uniform 4 (by decide) (by decide) 1
  let last := uniform 2 (by decide) (by decide) 2
  have hboth : found ⟨fun _ t => t⟩ ([first] ++ [last]) 3 4 [] = some (byteBlob 1) := by
    decide +kernel
  have hlast : found ⟨fun _ t => t⟩ [last] 3 4 [] = some (byteBlob 2) := by
    decide +kernel
  obtain ⟨dir, t, hdir, hload, ht⟩ := found_eq_some hboth
  obtain ⟨lastDir, t', hlastDir, hload', ht'⟩ := found_eq_some hlast
  have hsame := hall [first] last dir lastDir t 3 4 hdir hlastDir hload
  obtain rfl := Except.ok.inj (hsame.symm.trans hload')
  rw [ht] at ht'
  simp [byteBlob] at ht'

end Tenzor.Checkpoint
