import Tenzor.Distributed.PipelinePasses

/-!
# When a pipeline schedule completes

GPipe does its part of one script, so it never blocks. 1F1B does so with a single
micro-batch; with more, the stage before the last sends its second activation while
the last stage sends its first gradient.
-/

namespace Tenzor.Pipeline

open SyncChannels List
open Nat (lt_succ_of_lt lt_succ_self)

def forwardLinks (mb k : ℕ) : List (Event ℕ Message) :=
  (List.range k).flatMap fun s => [⟨s, s + 1, .header mb⟩, ⟨s, s + 1, .activation mb⟩]

def backwardLinks (mb k : ℕ) : List (Event ℕ Message) :=
  (List.range k).reverse.map fun s => ⟨s + 1, s, .gradient mb⟩

theorem proper_forwardLinks (mb k : ℕ) : Proper (forwardLinks mb k) := by
  intro e he
  simp only [forwardLinks, mem_flatMap, mem_cons, not_mem_nil, or_false] at he
  obtain ⟨s, -, rfl | rfl⟩ := he
  · exact (lt_succ_self s).ne
  · exact (lt_succ_self s).ne

theorem proper_backwardLinks (mb k : ℕ) : Proper (backwardLinks mb k) := by
  intro e he
  obtain ⟨s, -, rfl⟩ := mem_map.mp he
  exact (lt_succ_self s).ne'

theorem parts_forwardLinks (mb k stage : ℕ) :
    parts (forwardLinks mb k) stage =
      (if stage = 0 ∨ k < stage then [] else recvActivation (stage - 1) mb) ++
        if stage < k then sendActivation (stage + 1) mb else [] := by
  induction k with
  | zero =>
    have hnone : stage = 0 ∨ 0 < stage := Nat.eq_zero_or_pos stage
    rw [if_pos hnone]
    rfl
  | succ k ih =>
    have hlink : parts [⟨k, k + 1, .header mb⟩, ⟨k, k + 1, .activation mb⟩] stage =
        if stage = k then sendActivation (k + 1) mb
        else if stage = k + 1 then recvActivation k mb else [] := by
      by_cases hsrc : k = stage
      · subst hsrc
        simp [parts, part, sendActivation]
      · by_cases hdst : k + 1 = stage
        · subst hdst
          simp [parts, part, recvActivation]
        · simp [parts, part, hsrc, hdst, Ne.symm hsrc, Ne.symm hdst]
    rw [forwardLinks, range_succ, flatMap_append, parts_append, ← forwardLinks, ih,
      flatMap_singleton, hlink]
    rcases lt_trichotomy stage k with hlt | rfl | hgt
    · rw [if_neg hlt.ne, if_neg (by omega : ¬ stage = k + 1), append_nil, if_pos hlt,
        if_pos (lt_succ_of_lt hlt)]
      simp only [not_lt_of_gt hlt, not_lt_of_gt (lt_succ_of_lt hlt)]
    · rw [if_pos rfl, if_neg (lt_irrefl stage), append_nil, if_pos (lt_succ_self stage)]
      simp only [lt_irrefl, not_lt_of_gt (lt_succ_self stage)]
    · rw [if_pos (Or.inr hgt), if_neg hgt.ne', if_neg (not_lt_of_gt hgt),
        if_neg (by omega : ¬ stage < k + 1), append_nil, nil_append, append_nil]
      by_cases hnext : stage = k + 1
      · rw [if_pos hnext, if_neg (by omega), hnext, Nat.add_sub_cancel]
      · rw [if_neg hnext, if_pos (by omega)]

theorem parts_backwardLinks (mb k stage : ℕ) :
    parts (backwardLinks mb k) stage =
      (if stage < k then [.recv (stage + 1) (.gradient mb)] else []) ++
        if stage = 0 ∨ k < stage then [] else [.send (stage - 1) (.gradient mb)] := by
  induction k with
  | zero =>
    have hnone : stage = 0 ∨ 0 < stage := Nat.eq_zero_or_pos stage
    rw [if_pos hnone]
    rfl
  | succ k ih =>
    have hlink : parts [⟨k + 1, k, Message.gradient mb⟩] stage =
        if stage = k + 1 then [.send k (.gradient mb)]
        else if stage = k then [.recv (k + 1) (.gradient mb)] else [] := by
      by_cases hsrc : k + 1 = stage
      · subst hsrc
        simp [parts, part]
      · by_cases hdst : k = stage
        · subst hdst
          simp [parts, part]
        · simp [parts, part, hsrc, hdst, Ne.symm hsrc, Ne.symm hdst]
    have hsplit : backwardLinks mb (k + 1) = [⟨k + 1, k, Message.gradient mb⟩] ++ backwardLinks mb k := by
      rw [backwardLinks, range_succ, reverse_append]
      rfl
    rw [hsplit, parts_append, ih, hlink]
    rcases lt_trichotomy stage k with hlt | rfl | hgt
    · rw [if_neg (by omega : ¬ stage = k + 1), if_neg hlt.ne, nil_append, if_pos hlt,
        if_pos (lt_succ_of_lt hlt)]
      simp only [not_lt_of_gt hlt, not_lt_of_gt (lt_succ_of_lt hlt)]
    · rw [if_neg (by omega : ¬ stage = stage + 1), if_pos rfl, if_neg (lt_irrefl stage),
        nil_append, if_pos (lt_succ_self stage)]
      simp only [lt_irrefl, not_lt_of_gt (lt_succ_self stage)]
    · rw [if_pos (Or.inr hgt), if_neg hgt.ne', if_neg (not_lt_of_gt hgt),
        if_neg (by omega : ¬ stage < k + 1), append_nil, append_nil, nil_append]
      by_cases hnext : stage = k + 1
      · rw [if_pos hnext, if_neg (by omega), hnext, Nat.add_sub_cancel]
      · rw [if_neg hnext, if_pos (by omega)]

namespace Config

variable (c : Config) {stage : ℕ} {seeded : Bool} {mb : ℕ}

/-- Every activation that is sent on fits a header. -/
def RanksFit : Prop :=
  ∀ stage, stage + 1 < c.numStages → ∀ mb < c.numMicrobatches, c.outputRank stage mb ≤ metaMaxDims

variable {c} in
theorem RanksFit.encode (hranks : c.RanksFit) (hnext : stage + 1 < c.numStages)
    (hmb : mb < c.numMicrobatches) : encodeActivationMeta (c.outputRank stage mb) = [] :=
  if_neg (Nat.not_lt.mpr (hranks stage hnext mb hmb))

/-- A forward pass is the part of the stage in passing a micro-batch on. -/
theorem forward_eq_parts (hranks : c.RanksFit) (hstage : stage < c.numStages)
    (hmb : mb < c.numMicrobatches) :
    c.forward stage mb = parts (forwardLinks mb (c.numStages - 1)) stage := by
  have hfirst : (stage = 0 ∨ c.numStages - 1 < stage) ↔ isFirst stage := by
    unfold isFirst
    omega
  have hlast : stage < c.numStages - 1 ↔ ¬ isLast c.numStages stage := by
    unfold isLast
    omega
  rw [forward, parts_forwardLinks]
  simp only [hfirst, hlast, ite_not]
  by_cases hend : isLast c.numStages stage
  · rw [if_pos hend, if_pos hend]
  · have hnext : stage + 1 < c.numStages := by
      have hlt := hlast.mpr hend
      omega
    rw [if_neg hend, if_neg hend, hranks.encode hnext hmb, nil_append]

theorem backward_eq_parts (hstage : stage < c.numStages) (hseed : seeded ∨ c.outputNumel mb = 1) :
    c.backward stage seeded mb = parts (backwardLinks mb (c.numStages - 1)) stage := by
  have hfirst : (stage = 0 ∨ c.numStages - 1 < stage) ↔ isFirst stage := by
    unfold isFirst
    omega
  have hlast : stage < c.numStages - 1 ↔ ¬ isLast c.numStages stage := by
    unfold isLast
    omega
  rw [backward, parts_backwardLinks, if_pos hseed]
  simp only [hfirst, hlast, ite_not]

theorem splitMicrobatches_nil (hrows : c.numMicrobatches ≤ c.batchSize) (stage : ℕ) :
    c.splitMicrobatches stage = [] :=
  if_neg fun h => absurd hrows (Nat.not_le.mpr h.2)

def script : List (Event ℕ Message) :=
  (List.range c.numMicrobatches).flatMap (fun mb => forwardLinks mb (c.numStages - 1)) ++
    (List.range c.numMicrobatches).reverse.flatMap fun mb => backwardLinks mb (c.numStages - 1)

theorem proper_script : Proper c.script :=
  (Proper.flatMap fun mb => proper_forwardLinks mb _).append
    (Proper.flatMap fun mb => proper_backwardLinks mb _)

theorem parts_script (hranks : c.RanksFit) (seeded : Bool) (hstage : stage < c.numStages)
    (hseed : ∀ mb < c.numMicrobatches, seeded ∨ c.outputNumel mb = 1) :
    parts c.script stage = (List.range c.numMicrobatches).flatMap (c.forward stage) ++
      (List.range c.numMicrobatches).reverse.flatMap (c.backward stage seeded) := by
  rw [script, parts_append, parts_flatMap, parts_flatMap]
  congr 1
  · exact flatMap_congr fun mb hmb => (c.forward_eq_parts hranks hstage (mem_range.mp hmb)).symm
  · refine flatMap_congr fun mb hmb => ?_
    rw [mem_reverse, mem_range] at hmb
    exact (c.backward_eq_parts hstage (hseed mb hmb)).symm

theorem parts_script_beyond (hstage : c.numStages ≤ stage) : parts c.script stage = [] := by
  have hfwd : ∀ mb, parts (forwardLinks mb (c.numStages - 1)) stage = [] := fun mb => by
    rw [parts_forwardLinks, if_pos (by omega), if_neg (by omega), append_nil]
  have hbwd : ∀ mb, parts (backwardLinks mb (c.numStages - 1)) stage = [] := fun mb => by
    rw [parts_backwardLinks, if_neg (by omega), if_pos (by omega), append_nil]
  rw [script, parts_append, parts_flatMap, parts_flatMap]
  simp [hfwd, hbwd]

theorem gpipe_eq_parts (hranks : c.RanksFit) (hrows : c.numMicrobatches ≤ c.batchSize) :
    programs .gpipe c = parts c.script := by
  ext1 stage
  by_cases hstage : stage < c.numStages
  · rw [programs, if_pos hstage, c.parts_script hranks true hstage fun mb _ => Or.inl rfl,
      c.splitMicrobatches_nil hrows]
    simp only [Schedule.passes, GPipe.passes, flatMap_append, flatMap_map]
    rfl
  · rw [programs, if_neg hstage, c.parts_script_beyond (Nat.le_of_not_lt hstage)]

theorem pass_nil {stage : ℕ} (hfirst : isFirst stage) (hlast : isLast c.numStages stage)
    (hseed : seeded ∨ c.outputNumel mb = 1) :
    c.forward stage mb = [] ∧ c.backward stage seeded mb = [] := by
  rw [forward, backward, if_pos hfirst, if_pos hlast, if_pos hlast, if_pos hseed, if_pos hfirst]
  exact ⟨rfl, rfl⟩

/-- With one stage or one micro-batch, 1F1B does its part of a script, too. -/
theorem oneFOneB_eq_parts (hranks : c.RanksFit) (hrows : c.numMicrobatches ≤ c.batchSize)
    (hscalar : ∀ mb < c.numMicrobatches, c.outputNumel mb = 1)
    (hfew : c.numStages = 1 ∨ c.numMicrobatches = 1) : programs .oneFOneB c = parts c.script := by
  ext1 stage
  by_cases hstage : stage < c.numStages
  · rw [programs, if_pos hstage,
      c.parts_script hranks false hstage fun mb hmb => Or.inr (hscalar mb hmb),
      c.splitMicrobatches_nil hrows]
    simp only [Schedule.passes, Schedule.seeded]
    rcases hfew with hone | hsingle
    · have hfirst : isFirst stage := by
        unfold isFirst
        omega
      have hlast : isLast c.numStages stage := by
        unfold isLast
        omega
      have hnil : ∀ mb ∈ List.range c.numMicrobatches,
          c.forward stage mb = [] ∧ c.backward stage false mb = [] := fun mb hmb =>
        c.pass_nil hfirst hlast (Or.inr (hscalar mb (mem_range.mp hmb)))
      rw [OneFOneB.passes_last hlast, flatMap_assoc,
        flatMap_eq_nil_iff.mpr fun mb hmb => (hnil mb hmb).1,
        flatMap_eq_nil_iff.mpr fun mb hmb => (hnil mb (mem_reverse.mp hmb)).2]
      refine flatMap_eq_nil_iff.mpr fun mb hmb => ?_
      simp [pass, hnil mb hmb]
    · rw [hsingle, OneFOneB.passes_single hstage]
      simp [pass]
  · rw [programs, if_neg hstage, c.parts_script_beyond (Nat.le_of_not_lt hstage)]

/-- The stage before the last and the last stage meet in sends to each other. -/
theorem not_live_oneFOneB (hranks : c.RanksFit) (hrows : c.numMicrobatches ≤ c.batchSize)
    (hscalar : ∀ mb < c.numMicrobatches, c.outputNumel mb = 1) (hstages : 1 < c.numStages)
    (hmany : 1 < c.numMicrobatches) : ¬ Live (programs .oneFOneB c) := by
  obtain ⟨n, hn⟩ := Nat.exists_eq_add_of_lt hstages
  -- two micro-batches on their way, the second as far as the stage before the last
  let opening := forwardLinks 0 (n + 1) ++ forwardLinks 1 n
  have hproper : Proper opening := (proper_forwardLinks 0 _).append (proper_forwardLinks 1 _)
  have hlink : c.numStages - 1 = n + 1 := by omega
  have hlastStage : ∃ rest, programs .oneFOneB c (n + 1) =
      parts opening (n + 1) ++ (.send n (.gradient 0) :: rest) := by
    have hlast : isLast c.numStages (n + 1) := hlink.symm
    obtain ⟨k, hk⟩ := Nat.exists_eq_add_of_lt hmany
    have hback : c.backward (n + 1) false 0 = [.send n (.gradient 0)] := by
      rw [c.backward_eq_parts (by omega) (Or.inr (hscalar 0 (by omega))), hlink,
        parts_backwardLinks]
      simp
    have hquiet : parts (forwardLinks 1 n) (n + 1) = [] := by
      rw [parts_forwardLinks]
      simp
    have hcount : c.numMicrobatches = k + 1 + 1 := by omega
    rw [programs, if_pos (by omega), c.splitMicrobatches_nil hrows]
    simp only [Schedule.passes, Schedule.seeded]
    rw [OneFOneB.passes_last hlast, flatMap_assoc, hcount, range_succ_eq_map,
      flatMap_cons, parts_append, hquiet]
    simp only [pass, flatMap_cons, flatMap_nil, append_nil, hback]
    rw [c.forward_eq_parts hranks (by omega) (by omega), hlink]
    simp
  have hothers : ∀ stage < n + 1, ∃ rest, programs .oneFOneB c stage =
      parts opening stage ++ ((if stage = n then sendActivation (n + 1) 1 else []) ++ rest) := by
    intro stage hstage
    obtain ⟨rest, hrest⟩ :=
      OneFOneB.passes_prefix (show stage + 1 < c.numStages by omega) hmany
    refine ⟨rest.flatMap (c.pass stage false), ?_⟩
    have hsecond : parts (forwardLinks 1 (n + 1)) stage = parts (forwardLinks 1 n) stage ++
        if stage = n then sendActivation (n + 1) 1 else [] := by
      rw [parts_forwardLinks, parts_forwardLinks]
      by_cases heq : stage = n
      · subst heq
        simp
      · have hlt : stage < n := by omega
        simp [heq, hlt, lt_succ_of_lt hlt, Nat.not_lt_of_lt hlt,
          Nat.not_lt_of_lt (lt_succ_of_lt hlt)]
    rw [programs, if_pos (by omega), c.splitMicrobatches_nil hrows, nil_append]
    simp only [Schedule.passes, Schedule.seeded, hrest, flatMap_cons, pass]
    rw [c.forward_eq_parts hranks (by omega) (by omega),
      c.forward_eq_parts hranks (by omega) (by omega), hlink, hsecond, parts_append]
    simp only [append_assoc]
  have hprefix : ∀ stage, ∃ rest, programs .oneFOneB c stage = parts opening stage ++ rest := by
    intro stage
    rcases lt_trichotomy stage (n + 1) with hlt | rfl | hgt
    · obtain ⟨rest, hrest⟩ := hothers stage hlt
      exact ⟨_, hrest⟩
    · obtain ⟨rest, hrest⟩ := hlastStage
      exact ⟨_, hrest⟩
    · refine ⟨[], ?_⟩
      rw [programs, if_neg (by omega), parts_append, parts_forwardLinks, parts_forwardLinks,
        if_pos (Or.inr hgt), if_neg (by omega), if_pos (Or.inr (by omega)), if_neg (by omega)]
      rfl
  choose R hR using hprefix
  have hreach : Reaches (programs .oneFOneB c) R := by
    have hsplit : programs .oneFOneB c = fun stage => parts opening stage ++ R stage :=
      funext hR
    rw [hsplit]
    exact reaches_of_parts hproper R
  have hsupport : ∀ stage ∉ Finset.range c.numStages, R stage = [] := by
    intro stage hstage
    rw [Finset.mem_range] at hstage
    have hnil := hR stage
    rw [programs, if_neg hstage] at hnil
    exact (append_eq_nil_iff.mp hnil.symm).2
  obtain ⟨rest, hrest⟩ := hlastStage
  obtain ⟨rest', hrest'⟩ := hothers n (lt_succ_self n)
  have hlastR : R (n + 1) = .send n (.gradient 0) :: rest :=
    append_cancel_left ((hR (n + 1)).symm.trans hrest)
  have hbeforeR : R n = .send (n + 1) (.header 1) :: (.send (n + 1) (.activation 1) :: rest') := by
    rw [if_pos rfl] at hrest'
    exact append_cancel_left ((hR n).symm.trans hrest')
  intro hlive
  exact not_live_of_crossing hsupport hbeforeR hlastR (hlive.of_reaches hreach)

theorem programs_support (schedule : Schedule) :
    ∀ stage ∉ Finset.range c.numStages, programs schedule c stage = [] :=
  fun _ hstage => if_neg fun hlt => hstage (Finset.mem_range.mpr hlt)

theorem abort_mem_split (schedule : Schedule) (hrows : c.batchSize < c.numMicrobatches) :
    .abort ∈ programs schedule c 0 := by
  have hsplit : .abort ∈ c.splitMicrobatches 0 := by
    rw [splitMicrobatches, if_pos ⟨rfl, hrows⟩]
    exact mem_singleton_self _
  rw [programs.eq_def, if_pos c.numStages_pos]
  exact mem_append_left _ hsplit

theorem abort_mem_backward (hmb : mb < c.numMicrobatches) (hmany : c.outputNumel mb ≠ 1) :
    .abort ∈ programs .oneFOneB c (c.numStages - 1) := by
  have hlast : isLast c.numStages (c.numStages - 1) := rfl
  have hpos := c.numStages_pos
  have habort : .abort ∈ c.backward (c.numStages - 1) false mb := by
    rw [backward, if_pos hlast, if_neg (by simpa using hmany)]
    exact mem_append_left _ (mem_singleton_self _)
  have hpass : Pass.backward mb ∈
      OneFOneB.passes c.numMicrobatches c.numStages (c.numStages - 1) := by
    rw [OneFOneB.passes_last hlast]
    exact mem_flatMap.mpr ⟨mb, mem_range.mpr hmb, by simp⟩
  rw [programs, if_pos (by omega)]
  exact mem_append_right _ (mem_flatMap.mpr ⟨_, hpass, habort⟩)

/-- A stage throws before it sends an activation with too many dimensions. -/
theorem abort_mem_forward (schedule : Schedule) (hnext : stage + 1 < c.numStages)
    (hmb : mb < c.numMicrobatches) (hrank : metaMaxDims < c.outputRank stage mb) :
    .abort ∈ programs schedule c stage := by
  have hlast : ¬ isLast c.numStages stage := by
    unfold isLast
    omega
  have habort : .abort ∈ c.forward stage mb := by
    rw [forward, if_neg hlast, encodeActivationMeta, if_pos hrank]
    exact mem_append_right _ (mem_append_left _ (mem_singleton_self _))
  have hpass := (schedule.follows c.numMicrobatches c.numStages stage).forward_mem
    (Nat.zero_le mb) hmb
  rw [programs, if_pos (Nat.lt_of_succ_lt hnext)]
  exact mem_append_right _ (mem_flatMap.mpr ⟨_, hpass, habort⟩)

end Config

end Tenzor.Pipeline
