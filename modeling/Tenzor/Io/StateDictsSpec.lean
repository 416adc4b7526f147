import Tenzor.Io.StateDicts
import Tenzor.Io.UnpicklerSpec

/-!
# What a loaded state dictionary holds

The names of a loaded dictionary are distinct, and its tensors are those that are reached from the
root through the values of dictionaries and the items of lists and tuples. What was only an argument
of a call or a state of an object is not there.
-/

namespace Tenzor.TorchPickle

variable {p q node : Ptr} {out out' state : List (Text × LoadedTensor)} {α : Type}

open Throwing Scanner Tenzor.Lite List
open Relation (ReflTransGen)

/-- The values of a dictionary and the items of a list or a tuple. -/
def PValue.children : PValue → List Ptr
  | .dict entries => entries.map Prod.snd
  | .list seq | .tuple seq => seq
  | _ => []

def PValue.isTensor : PValue → Bool
  | .tensorObj .. => true
  | _ => false

theorem PValue.exists_of_isTensor {v : PValue} (h : v.isTensor = true) :
    ∃ source t, v = .tensorObj source t := by
  cases v with
  | tensorObj source t => exact ⟨source, t, rfl⟩
  | _ => exact nomatch h

variable (heap : Ptr → PValue)

def Within (p q : Ptr) : Prop := q ∈ (heap p).children

/-- From `out` to `out'`, the tensors that are reached were added under new names. -/
structure Collected (reached : Ptr → Prop) (out out' : List (Text × LoadedTensor)) : Prop where
  kept : out ⊆ out'
  distinct : (out.map Prod.fst).Nodup → (out'.map Prod.fst).Nodup
  complete : ∀ p source t, reached p → heap p = .tensorObj source t → ∃ name, (name, t) ∈ out'
  sound : ∀ e ∈ out', e ∈ out ∨ ∃ p source, reached p ∧ heap p = .tensorObj source e.2

variable {heap}

namespace Collected

variable {reached reached' : Ptr → Prop} {out out' : List (Text × LoadedTensor)}

theorem nil (h : ∀ p source t, reached p → heap p ≠ .tensorObj source t) :
    Collected heap reached out out :=
  ⟨fun _ => id, id, fun p source t hp ht => (h p source t hp ht).elim, fun _ => .inl⟩

theorem trans {mid : List (Text × LoadedTensor)} (h : Collected heap reached out mid)
    (h' : Collected heap reached' mid out') :
    Collected heap (fun p => reached p ∨ reached' p) out out' := by
  refine ⟨fun e he => h'.kept (h.kept he), h'.distinct ∘ h.distinct, ?_, fun e he => ?_⟩
  · rintro p source t (hp | hp) ht
    · obtain ⟨name, hname⟩ := h.complete p source t hp ht
      exact ⟨name, h'.kept hname⟩
    · exact h'.complete p source t hp ht
  · rcases h'.sound e he with he | ⟨p, source, hp, ht⟩
    · rcases h.sound e he with he | ⟨p, source, hp, ht⟩
      · exact .inl he
      · exact .inr ⟨p, source, .inl hp, ht⟩
    · exact .inr ⟨p, source, .inr hp, ht⟩

theorem congr (h : Collected heap reached out out')
    (heq : ∀ p source t, heap p = .tensorObj source t → (reached p ↔ reached' p)) :
    Collected heap reached' out out' := by
  refine ⟨h.kept, h.distinct, fun p source t hp ht => ?_, fun e he => ?_⟩
  · exact h.complete p source t ((heq p source t ht).mpr hp) ht
  · refine (h.sound e he).imp_right ?_
    rintro ⟨p, source, hp, ht⟩
    exact ⟨p, source, (heq p source e.2 ht).mp hp, ht⟩

theorem foldlM {κ : Type} {reached : κ → Ptr → Prop}
    {f : List (Text × LoadedTensor) → κ → Except Exn (List (Text × LoadedTensor))} {l : List κ}
    (hf : ∀ k ∈ l, ∀ out out', f out k = .ok out' → Collected heap (reached k) out out')
    (h : l.foldlM f out = .ok out') : Collected heap (fun p => ∃ k ∈ l, reached k p) out out' := by
  induction l generalizing out with
  | nil =>
    obtain rfl := pure_eq_ok.mp h
    exact nil fun p source t hp => by simp at hp
  | cons k l ih =>
    obtain ⟨hk, hl⟩ := forall_mem_cons.mp hf
    obtain ⟨mid, hmid, hrest⟩ := foldlM_cons_eq_ok.mp h
    apply ((hk out mid hmid).trans (ih hl hrest)).congr
    intro p source t hp
    rw [exists_mem_cons_iff]

end Collected

theorem reaches_iff :
    ReflTransGen (Within heap) p q ↔ p = q ∨ ∃ r, Within heap p r ∧ ReflTransGen (Within heap) r q :=
  Relation.ReflTransGen.cases_head_iff

/-- What is reached below a container. -/
theorem collected_container {κ : Type} {l : List κ} (item : κ → Ptr)
    (hnode : ∀ source t, heap node ≠ .tensorObj source t)
    (hwithin : ∀ q, Within heap node q ↔ ∃ k ∈ l, item k = q)
    (h : Collected heap (fun p => ∃ k ∈ l, ReflTransGen (Within heap) (item k) p) out out') :
    Collected heap (ReflTransGen (Within heap) node) out out' := by
  apply h.congr
  intro p source t ht
  rw [reaches_iff]
  constructor
  · rintro ⟨k, hk, hp⟩
    exact .inr ⟨item k, (hwithin _).mpr ⟨k, hk, rfl⟩, hp⟩
  · rintro (rfl | ⟨r, hr, hp⟩)
    · exact (hnode source t ht).elim
    · obtain ⟨k, hk, rfl⟩ := (hwithin r).mp hr
      exact ⟨k, hk, hp⟩

/-- Nothing is reached from an object that is no container, except itself. -/
theorem eq_of_reaches (hnode : (heap p).children = []) (h : ReflTransGen (Within heap) p q) :
    p = q := by
  rcases reaches_iff.mp h with rfl | ⟨r, hr, -⟩
  · rfl
  · rw [Within, hnode] at hr
    exact (not_mem_nil hr).elim

theorem mem_map_zipIdx {l : List α} {a : α} : (∃ e ∈ l.zipIdx, e.1 = a) ↔ a ∈ l := by
  rw [← mem_map, zipIdx_map_fst]

theorem flattenStateDict_collects {levels : ℕ} {pre : Text}
    (h : flattenStateDict heap levels node pre out = .ok out') :
    Collected heap (ReflTransGen (Within heap) node) out out' := by
  induction levels generalizing node pre out out' with
  | zero => exact nomatch h
  | succ levels ih =>
    have hseq {seq : List Ptr} (hnode : ∀ source t, heap node ≠ .tensorObj source t)
        (hchildren : (heap node).children = seq)
        (h : seq.zipIdx.foldlM (fun out e => flattenStateDict heap levels e.1
          (joinName pre (decimal e.2)) out) out = .ok out') :
        Collected heap (ReflTransGen (Within heap) node) out out' := by
      subst hchildren
      apply collected_container Prod.fst hnode fun q => mem_map_zipIdx.symm
      exact Collected.foldlM (fun e _ out out' he => ih he) h
    have hplain (hchildren : (heap node).children = [])
        (hnode : ∀ source t, heap node ≠ .tensorObj source t) (h : out = out') :
        Collected heap (ReflTransGen (Within heap) node) out out' := by
      subst h
      refine Collected.nil fun p source t hp => ?_
      rw [← eq_of_reaches hchildren hp]
      exact hnode source t
    rw [flattenStateDict] at h
    cases hnode : heap node with
    | dict entries =>
      simp only [hnode] at h
      apply collected_container Prod.snd (l := entries) (by simp [hnode])
      · intro q
        rw [Within, hnode]
        exact mem_map
      · refine Collected.foldlM (fun e _ out out' he => ?_) h
        split at he
        · exact ih he
        · exact ih he
        · exact nomatch he
    | tensorObj source t =>
      simp only [hnode] at h
      split at h
      · exact nomatch h
      · next hnew =>
          obtain rfl := pure_eq_ok.mp h
          have hself {q : Ptr} : ReflTransGen (Within heap) node q → node = q :=
            eq_of_reaches (by rw [hnode]; rfl)
          refine ⟨subset_append_left _ _, fun hd => ?_, ?_, fun e he => ?_⟩
          · rw [map_append, nodup_append]
            refine ⟨hd, nodup_singleton _, ?_⟩
            rintro name hname _ hpre rfl
            obtain rfl := mem_singleton.mp hpre
            exact hnew hname
          · intro p source' t' hp ht
            obtain rfl := hself hp
            obtain ⟨-, rfl⟩ := PValue.tensorObj.inj (hnode.symm.trans ht)
            exact ⟨pre, by simp⟩
          · rcases mem_append.mp he with he | he
            · exact .inl he
            · obtain rfl := mem_singleton.mp he
              exact .inr ⟨node, source, .refl, hnode⟩
    | list seq =>
      simp only [hnode] at h
      exact hseq (by simp [hnode]) (by rw [hnode]; rfl) h
    | tuple seq =>
      simp only [hnode] at h
      exact hseq (by simp [hnode]) (by rw [hnode]; rfl) h
    | _ =>
      simp only [hnode] at h
      exact hplain (by rw [hnode]; rfl) (by simp [hnode]) (pure_eq_ok.mp h)

/-- When nothing is found from the root, nothing is found from its values. -/
theorem firstSubDict_eq_nil {entries : List (Ptr × Ptr)}
    (hnone : ∀ e ∈ entries, ∀ p source t, ReflTransGen (Within heap) e.2 p →
      heap p ≠ .tensorObj source t)
    (h : firstSubDict heap entries = .ok state) : state = [] := by
  induction entries with
  | nil => exact (pure_eq_ok.mp h).symm
  | cons e entries ih =>
    obtain ⟨he, hentries⟩ := forall_mem_cons.mp hnone
    rw [firstSubDict] at h
    split at h
    · obtain ⟨trial, htrial, h⟩ := bind_eq_ok.mp h
      have hnil : trial = [] := by
        by_contra hne
        obtain ⟨found, hfound⟩ := exists_mem_of_ne_nil trial hne
        rcases (flattenStateDict_collects htrial).sound found hfound with hold | ⟨p, source, hp, ht⟩
        · exact not_mem_nil hold
        · exact he p source found.2 hp ht
      subst hnil
      exact ih hentries h
    · exact ih hentries h

theorem collect_collects {root : Ptr} (h : collect heap root = .ok state) :
    Collected heap (ReflTransGen (Within heap) root) [] state := by
  obtain ⟨found, hfound, h⟩ := bind_eq_ok.mp h
  have hcollected := flattenStateDict_collects hfound
  split at h
  · next hempty =>
      obtain rfl := List.isEmpty_iff.mp hempty
      split at h
      · next entries hroot =>
          have hvalue : ∀ e ∈ entries, Within heap root e.2 := by
            intro e he
            rw [Within, hroot]
            exact mem_map_of_mem he
          have hnone : ∀ e ∈ entries, ∀ p source t, ReflTransGen (Within heap) e.2 p →
              heap p ≠ .tensorObj source t := by
            intro e he p source t hp ht
            obtain ⟨name, hname⟩ := hcollected.complete p source t (.head (hvalue e he) hp) ht
            exact not_mem_nil hname
          obtain rfl := firstSubDict_eq_nil hnone h
          exact hcollected
      · obtain rfl := pure_eq_ok.mp h
        exact hcollected
  · obtain rfl := pure_eq_ok.mp h
    exact hcollected

/-- The program of `_rebuild_tensor` on a byte storage, for a tensor without axes. -/
def tensorProgram : List UInt8 :=
  ascii "ctorch._utils\n_rebuild_tensor\n((" ++ (0x8c :: 7 :: ascii "storagectorch\nByteStorage\n") ++
    (0x8c :: 1 :: ascii "0NNtQK") ++ (0 :: ascii "))tR")

/-- A dictionary `w` of what the bytes `value` push. -/
def dictProgram (value : List UInt8) : List UInt8 := ascii "\x7dU" ++ (1 :: ascii "w") ++ value ++ ascii "s."

def archive (program : List UInt8) : ZipReader :=
  ⟨[(ascii "a/data.pkl", .ok program), (ascii "a/0", .ok [7])]⟩

/-- A call has one tensor as its argument and its result another one as its state. -/
def callArchive : ZipReader :=
  archive (dictProgram (ascii "cm\nC\n(" ++ tensorProgram ++ ascii "tR" ++ tensorProgram ++ ascii "b"))

theorem exists_of_checked {x : Except Exn α} {check : α → Bool} (h : x.toOption.any check = true) :
    ∃ a, x = .ok a ∧ check a = true := by
  cases x with
  | error e => exact nomatch h
  | ok a => exact ⟨a, rfl, h⟩

end Tenzor.TorchPickle
