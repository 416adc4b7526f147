import Mathlib.Data.List.AList

/-!
# Dictionaries

A finite map that is built by assignments, the last one to a key deciding its value.
-/

variable {κ β : Type}

abbrev Dict (κ β : Type) := AList fun _ : κ => β

namespace Dict

open List
open Prod (fst)

variable [DecidableEq κ] {entries : List (κ × β)} {d : Dict κ β} {k : κ} {v : β}

def assign (d : Dict κ β) (e : κ × β) : Dict κ β := d.insert e.1 e.2

def ofEntries (entries : List (κ × β)) : Dict κ β := entries.foldl assign ∅

theorem mem_foldl_assign : k ∈ entries.foldl assign d ↔ k ∈ d ∨ k ∈ entries.map fst := by
  induction entries generalizing d with
  | nil => simp
  | cons e entries ih =>
    rw [foldl_cons, ih, assign, AList.mem_insert, map_cons, mem_cons]
    tauto

@[simp] theorem mem_ofEntries : k ∈ ofEntries entries ↔ k ∈ entries.map fst := by
  simp [ofEntries, mem_foldl_assign]

/-- Assignments to other keys leave a value as it is. -/
theorem lookup_foldl_assign_of_notMem (h : k ∉ entries.map fst) :
    (entries.foldl assign d).lookup k = d.lookup k := by
  induction entries generalizing d with
  | nil => rfl
  | cons e entries ih =>
    rw [map_cons, mem_cons, not_or] at h
    rw [foldl_cons, ih h.2, assign, AList.lookup_insert_ne h.1]

theorem lookup_foldl_assign (hnodup : (entries.map fst).Nodup) (h : (k, v) ∈ entries) :
    (entries.foldl assign d).lookup k = some v := by
  induction entries generalizing d with
  | nil => exact (not_mem_nil h).elim
  | cons e entries ih =>
    rw [map_cons, nodup_cons] at hnodup
    rw [foldl_cons]
    rcases mem_cons.mp h with rfl | h
    · rw [lookup_foldl_assign_of_notMem hnodup.1, assign, AList.lookup_insert]
    · exact ih hnodup.2 h

theorem lookup_ofEntries (hnodup : (entries.map fst).Nodup) (h : (k, v) ∈ entries) :
    (ofEntries entries).lookup k = some v := lookup_foldl_assign hnodup h

theorem mem_of_lookup_foldl_assign (h : (entries.foldl assign d).lookup k = some v) :
    (k, v) ∈ entries ∨ d.lookup k = some v := by
  induction entries generalizing d with
  | nil => exact .inr h
  | cons e entries ih =>
    rcases ih h with hmem | hlookup
    · exact .inl (mem_cons_of_mem e hmem)
    · by_cases hk : k = e.1
      · subst hk
        rw [assign, AList.lookup_insert] at hlookup
        obtain rfl := Option.some.inj hlookup
        exact .inl mem_cons_self
      · rw [assign, AList.lookup_insert_ne hk] at hlookup
        exact .inr hlookup

theorem mem_of_lookup_ofEntries (h : (ofEntries entries).lookup k = some v) : (k, v) ∈ entries :=
  (mem_of_lookup_foldl_assign h).resolve_right nofun

/-- Entries that agree on a key determine its value. -/
theorem lookup_ofEntries_iff (hunique : ∀ v v', (k, v) ∈ entries → (k, v') ∈ entries → v = v') :
    (ofEntries entries).lookup k = some v ↔ (k, v) ∈ entries := by
  constructor
  · exact mem_of_lookup_ofEntries
  · intro h
    have hk : k ∈ ofEntries entries := mem_ofEntries.mpr (mem_map.mpr ⟨(k, v), h, rfl⟩)
    obtain ⟨w, hw⟩ := Option.isSome_iff_exists.mp (AList.lookup_isSome.mpr hk)
    rw [hw, hunique v w h (mem_of_lookup_ofEntries hw)]

theorem lookup_ofEntries_eq {o : Option β} (h : ∀ v, (k, v) ∈ entries ↔ o = some v) :
    (ofEntries entries).lookup k = o := by
  apply Option.ext
  intro v
  rw [lookup_ofEntries_iff, h]
  intro v v' hv hv'
  exact Option.some.inj (((h v).mp hv).symm.trans ((h v').mp hv'))

theorem lookup_ofEntries_of_notMem (h : k ∉ entries.map fst) :
    (ofEntries entries).lookup k = none :=
  AList.lookup_eq_none.mpr (mem_ofEntries.not.mpr h)

theorem keys_ofEntries_perm (h : (entries.map fst).Nodup) :
    (ofEntries entries).keys.Perm (entries.map fst) := by
  rw [perm_ext_iff_of_nodup (AList.keys_nodup _) h]
  intro k
  rw [← AList.mem_keys, mem_ofEntries]

/-- The entries, in the order of iteration. -/
def pairs (d : Dict κ β) : List (κ × β) := d.entries.map fun e => (e.1, e.2)

omit [DecidableEq κ] in
theorem map_fst_pairs (d : Dict κ β) : d.pairs.map fst = d.keys := by
  rw [pairs, map_map]
  rfl

theorem mem_pairs : (k, v) ∈ d.pairs ↔ d.lookup k = some v := by
  have hmem : d.lookup k = some v ↔ (⟨k, v⟩ : Sigma fun _ : κ => β) ∈ d.entries :=
    AList.mem_lookup_iff
  rw [hmem, pairs, mem_map]
  constructor
  · rintro ⟨e, he, heq⟩
    obtain ⟨rfl, rfl⟩ := Prod.mk.inj heq
    exact he
  · intro h
    exact ⟨⟨k, v⟩, h, rfl⟩

variable {γ : Type} {f : β → γ}

/-- The same keys in the same order, with the images of the values. -/
def Aligned (f : β → γ) (d' : Dict κ γ) (d : Dict κ β) : Prop :=
  d'.pairs = d.pairs.map (Prod.map id f)

theorem pairs_assign (d : Dict κ β) (e : κ × β) :
    (assign d e).pairs = e :: d.pairs.eraseP fun p => e.1 = p.1 := by
  rw [assign, pairs, pairs, AList.entries_insert, eraseP_map]
  rfl

variable {d' : Dict κ γ}

theorem Aligned.assign (h : Aligned f d' d) (k : κ) (v : β) :
    Aligned f (assign d' (k, f v)) (assign d (k, v)) := by
  rw [Aligned, pairs_assign, pairs_assign, h, eraseP_map]
  rfl

theorem Aligned.foldl (h : Aligned f d' d) :
    Aligned f ((entries.map (Prod.map id f)).foldl Dict.assign d') (entries.foldl Dict.assign d) := by
  induction entries generalizing d' d with
  | nil => exact h
  | cons e entries ih => exact ih (h.assign e.1 e.2)

theorem aligned_ofEntries (entries : List (κ × β)) :
    Aligned f (ofEntries (entries.map (Prod.map id f))) (ofEntries entries) :=
  Aligned.foldl rfl

theorem Aligned.lookup (h : Aligned f d' d) (k : κ) : d'.lookup k = (d.lookup k).map f := by
  apply Option.ext
  intro w
  rw [← mem_pairs, h, mem_map, Option.map_eq_some_iff]
  constructor
  · rintro ⟨⟨k', v⟩, hv, heq⟩
    obtain ⟨rfl, rfl⟩ := Prod.mk.inj heq
    exact ⟨v, mem_pairs.mp hv, rfl⟩
  · rintro ⟨v, hv, rfl⟩
    exact ⟨(k, v), mem_pairs.mpr hv, rfl⟩

section Prefixes

variable {α : Type} [DecidableEq α]

/-- The entries whose keys have the prefix, without it. -/
def under (pre : List α) (d : Dict (List α) β) : Dict (List α) β :=
  ofEntries (d.pairs.filterMap fun e =>
    if pre <+: e.1 then some (e.1.drop pre.length, e.2) else none)

theorem lookup_under (pre rest : List α) (d : Dict (List α) β) :
    (under pre d).lookup rest = d.lookup (pre ++ rest) := by
  refine lookup_ofEntries_eq fun v => ?_
  rw [mem_filterMap, ← mem_pairs]
  constructor
  · rintro ⟨⟨key, u⟩, he, heq⟩
    split at heq
    next hprefix =>
      obtain ⟨tail, rfl⟩ := hprefix
      obtain ⟨hrest, rfl⟩ := Prod.mk.inj (Option.some.inj heq)
      rw [drop_left] at hrest
      exact hrest ▸ he
    next => exact absurd heq nofun
  · intro he
    refine ⟨_, he, ?_⟩
    rw [if_pos (prefix_append _ _), drop_left]

end Prefixes

/-! ## Entries in the order of insertion -/

/-- An assignment in a list of entries; a new key comes last. -/
def assignEntry (l : List (κ × β)) (e : κ × β) : List (κ × β) :=
  if e.1 ∈ l.map Prod.fst then l.map fun old => if old.1 = e.1 then e else old else l ++ [e]

theorem mem_of_assignEntry {l : List (κ × β)} {e x : κ × β} (h : x ∈ assignEntry l e) :
    x ∈ l ∨ x = e := by
  unfold assignEntry at h
  split at h
  · obtain ⟨old, hold, rfl⟩ := mem_map.mp h
    split
    · exact .inr rfl
    · exact .inl hold
  · simpa using h

theorem length_assignEntry_le (l : List (κ × β)) (e : κ × β) :
    (assignEntry l e).length ≤ l.length + 1 := by
  unfold assignEntry
  split <;> simp

section Put

variable {put : List (κ × β) → κ × β → List (κ × β)}

omit [DecidableEq κ] in
/-- Entries with distinct keys that are put at the end when they are new. -/
theorem foldl_put_eq (hnew : ∀ done e, e.1 ∉ done.map fst → put done e = done ++ [e])
    (entries : List (κ × β)) : ∀ done : List (κ × β), ((done ++ entries).map fst).Nodup →
      entries.foldl put done = done ++ entries := by
  induction entries with
  | nil => simp
  | cons e rest ih =>
    intro done hnodup
    have hfresh : e.1 ∉ done.map fst := by
      rw [map_append, nodup_append] at hnodup
      intro hmem
      exact hnodup.2.2 e.1 hmem e.1 mem_cons_self rfl
    rw [foldl_cons, hnew done e hfresh, ih _ (by simpa using hnodup)]
    simp

omit [DecidableEq κ] in
/-- Putting entries one by one leaves no more than there were, and only such ones. -/
theorem foldl_put_le (hlen : ∀ done e, (put done e).length ≤ done.length + 1)
    (hput : ∀ done e x, x ∈ put done e → x ∈ done ∨ x = e) (entries done : List (κ × β)) :
    (entries.foldl put done).length ≤ done.length + entries.length ∧
      ∀ e ∈ entries.foldl put done, e ∈ done ∨ e ∈ entries := by
  induction entries generalizing done with
  | nil => simp
  | cons e rest ih =>
    obtain ⟨hle, hmem⟩ := ih (put done e)
    have hone := hlen done e
    refine ⟨by rw [foldl_cons, length_cons]; omega, fun x hx => ?_⟩
    rcases hmem x hx with hx | hx
    · exact (hput done e x hx).imp_right fun (h : x = e) => h ▸ mem_cons_self
    · exact .inr (mem_cons_of_mem _ hx)

end Put

theorem foldl_assignEntry (entries done : List (κ × β)) (h : ((done ++ entries).map fst).Nodup) :
    entries.foldl assignEntry done = done ++ entries :=
  foldl_put_eq (fun _ _ hnew => if_neg hnew) entries done h

theorem foldl_assignEntry_le (entries done : List (κ × β)) :
    (entries.foldl assignEntry done).length ≤ done.length + entries.length ∧
      ∀ e ∈ entries.foldl assignEntry done, e ∈ done ∨ e ∈ entries :=
  foldl_put_le length_assignEntry_le (fun _ _ _ => mem_of_assignEntry) entries done

end Dict
