import Tenzor.Core.TensorBytes
import Tenzor.Lib.Metered
import Tenzor.Lite.ModelFormat

/-!
# Tensors that a file declares

A reader of tensors takes the dimensions one after the other and checks the products of the first
of them. The tensor is made from its dimensions.

## Implementation notes

An allocation that fails reserves nothing.
-/

namespace Tenzor.Declared

variable {dtype : DType} {shape : List Int} {t : TensorImpl}

open Wrap64 Metered List
open Wire (appendPod)

/-- The dimensions from an element count on. -/
def readDims (eof negative overflow : Exn) (n : Int) : ℕ → Reading Exn (List Int × Int)
  | 0 => pure ([], n)
  | ndim + 1 => do
      round
      let word ← readPod eof Int64
      let dim := word.toInt
      failIf (dim < 0) negative
      failIf (dim ≠ 0 ∧ int64Max / dim < n) overflow
      let rest ← readDims eof negative overflow (n * dim) ndim
      pure (dim :: rest.1, rest.2)

/-- A tensor on a storage of its own. -/
def makeTensor (shape : List Int) (dtype : DType) : Reading Exn TensorImpl := do
  let t ← ofExcept (TensorImpl.allocate 0 shape dtype)
  demand t.storage.sizeBytes
  pure t

/-- The dimensions and the products of the first of them are not negative and fit `int64_t`. -/
def CountFits : Int → List Int → Prop
  | _, [] => True
  | n, dim :: dims =>
    0 ≤ dim ∧ dim ≤ int64Max ∧ (dim = 0 ∨ n ≤ int64Max / dim) ∧ CountFits (n * dim) dims

def shapeBytes (shape : List Int) : List UInt8 := shape.flatMap fun d => appendPod (Int64.ofInt d)

/-- A tensor of this shape and type can be made. -/
structure Declares (shape : List Int) (dtype : DType) : Prop where
  count : CountFits 1 shape
  allocates : ∃ t, TensorImpl.allocate 0 shape dtype = .ok t

/-- The code of a type is the only one that names it. -/
theorem dtypes_eq_some_iff {code : ℕ} :
    Lite.dtypes[code]? = some dtype ↔ code = (Lite.dtypeCode dtype).toNat := by
  have hcode : Lite.dtypes[(Lite.dtypeCode dtype).toNat]? = some dtype := by
    cases dtype <;> decide
  constructor
  · intro h
    have hlt : code < Lite.dtypes.length := (List.getElem?_eq_some_iff.mp h).1
    exact (getElem?_inj hlt (by decide)).mp (h.trans hcode.symm)
  · rintro rfl
    exact hcode

theorem shapeBytes_length (shape : List Int) : (shapeBytes shape).length = shape.length * 8 := by
  induction shape with
  | nil => rfl
  | cons d shape ih =>
    rw [shapeBytes, flatMap_cons, length_append, ← shapeBytes, Wire.length_appendPod, length_cons]
    simp only [Wire.Pod.width]
    omega

variable {s rest : List UInt8} {eof negative overflow : Exn}

theorem readDims_ok {n : Int} {ndim : ℕ} {r : List Int × Int} :
    (readDims eof negative overflow n ndim s).result = .ok (r, rest) ↔
      r.1.length = ndim ∧ r.2 = n * r.1.prod ∧ CountFits n r.1 ∧ s = shapeBytes r.1 ++ rest := by
  induction ndim generalizing n r s with
  | zero =>
    simp only [readDims, pure_result_ok, length_eq_zero_iff]
    constructor
    · rintro h
      obtain ⟨rfl, rfl⟩ := Prod.mk.inj h
      exact ⟨rfl, (mul_one n).symm, trivial, rfl⟩
    · rintro ⟨hnil, hprod, -, rfl⟩
      obtain ⟨shape, m⟩ := r
      obtain rfl : shape = [] := hnil
      obtain rfl : m = n := by simpa using hprod
      rfl
  | succ ndim ih =>
    simp only [readDims, bind_result_ok, round_result_ok, readPod_result_ok,
      failIf_result_ok, pure_result_ok]
    constructor
    · rintro ⟨_, mid, hmid, word, mid', hword, _, _, ⟨hneg, h⟩, _, _, ⟨hover, h'⟩, tail, last,
        htail, hr⟩
      obtain rfl := (Prod.mk.inj hmid).2
      obtain rfl := (Prod.mk.inj h).2
      obtain rfl := (Prod.mk.inj h').2
      obtain ⟨rfl, rfl⟩ := Prod.mk.inj hr
      obtain ⟨hlen, hprod, hfits, rfl⟩ := ih.mp htail
      refine ⟨congrArg (· + 1) hlen, ?_, ⟨by omega, ?_, ?_, hfits⟩, ?_⟩
      · rw [hprod, prod_cons, mul_assoc]
      · have := word.toInt_lt
        simp only [int64Max]
        omega
      · by_contra hnot
        simp only [not_or, not_le] at hnot
        exact hover hnot
      · rw [hword, shapeBytes, shapeBytes, flatMap_cons, Int64.ofInt_toInt,
          append_assoc]
    · rintro ⟨hlen, hprod, hfits, rfl⟩
      obtain ⟨shape, m⟩ := r
      cases shape with
      | nil => exact absurd hlen (Nat.succ_ne_zero ndim).symm
      | cons dim dims =>
        obtain ⟨hnn, hmax, hle, hfits⟩ := hfits
        obtain rfl : m = n * dim * dims.prod := by
          rw [mul_assoc]
          exact hprod
        have hword : (Int64.ofInt dim).toInt = dim :=
          Int64.toInt_ofInt_of_le (by omega)
            (by simp only [int64Max] at hmax; omega)
        have hover : ¬ (dim ≠ 0 ∧ int64Max / dim < n) := by
          rintro ⟨hne, hlt⟩
          rcases hle with hzero | hle
          · exact hne hzero
          · exact absurd hlt (not_lt.mpr hle)
        have htail : (readDims eof negative overflow (n * dim) ndim
            (shapeBytes dims ++ rest)).result = .ok ((dims, n * dim * dims.prod), rest) :=
          ih.mpr ⟨Nat.succ.inj hlen, rfl, hfits, rfl⟩
        refine ⟨(), _, rfl, Int64.ofInt dim, shapeBytes dims ++ rest, ?_, (), _,
          ⟨by rwa [hword, not_lt], rfl⟩, (), _, ⟨by rwa [hword], rfl⟩,
          (dims, n * dim * dims.prod), rest, ?_, ?_⟩
        · rw [shapeBytes, shapeBytes, flatMap_cons, append_assoc]
        · rw [hword]
          exact htail
        · rw [hword]

theorem makeTensor_ok :
    (makeTensor shape dtype s).result = .ok (t, rest) ↔
      TensorImpl.allocate 0 shape dtype = .ok t ∧ s = rest := by
  simp only [makeTensor, bind_result_ok, ofExcept_result_ok, demand_result_ok,
    pure_result_ok]
  constructor
  · rintro ⟨u, _, ⟨u', hu, h⟩, _, _, h', h''⟩
    obtain ⟨rfl, rfl⟩ := Prod.mk.inj h
    obtain rfl := (Prod.mk.inj h').2
    obtain ⟨rfl, rfl⟩ := Prod.mk.inj h''
    exact ⟨hu, rfl⟩
  · rintro ⟨ht, rfl⟩
    exact ⟨t, s, ⟨t, ht, rfl⟩, (), s, rfl, rfl⟩

/-- The bytes of a tensor that is made are what its dimensions declare. -/
theorem sizeBytes_eq (h : TensorImpl.allocate 0 shape dtype = .ok t) :
    (t.storage.sizeBytes : Int) = shape.prod * dtypeSize dtype := by
  have hnn := Strided.prod_nonneg (TensorImpl.allocate_ok h).1
  rw [TensorImpl.allocate_sizeBytes h]
  push_cast
  rw [Int.toNat_of_nonneg hnn]

theorem spends_readDims {T : Tariff} (hround : T.Allowed .round ∧ T.price .round ≤ 1) (n : Int)
    (ndim : ℕ) : Spends T 1 0 (ndim * 8) (readDims eof negative overflow n ndim) fun _ => True := by
  induction ndim generalizing n with
  | zero =>
    exact Spends.pure trivial
  | succ ndim ih =>
    rw [Nat.succ_mul, Nat.add_comm]
    exact Spends.round_bind hround (by decide) (Spends.readPod eof Int64) fun word _ =>
      Spends.failIf fun _ => Spends.failIf fun _ => (ih _).followed fun _ _ => Spends.pure trivial

theorem spends_makeTensor (shape : List Int) (dtype : DType) :
    Spends byRound 1 0 0 (makeTensor shape dtype) fun _ => True :=
  Spends.ofExcept fun _ _ => Spends.demand_free (Spends.pure trivial)

/-- More is reserved than there are bytes unread. -/
def Overdrawn (e : Event) : Prop := ¬ e.Backed

theorem not_overdrawn_round : ¬ Overdrawn .round := not_not.mpr trivial

/-- The reader ends inside the file, after rounds that are paid for by its bytes, and all that it
reserves on the way fits what is unread. -/
structure ReadsWithin {α : Type} (m : Reading Exn α) (file : List UInt8) : Prop where
  ends : ∀ f, (m file).result = .error f → ∃ e, f = .thrown e
  rounds : byRound.total (m file).events ≤ 2 * file.length + 2
  backed : ∀ e ∈ (m file).events, e.Backed

/-- A reader whose rounds take bytes stays within every file that it does not overdraw. -/
theorem readsWithin_iff {α : Type} {m : Reading Exn α} {P : α → Prop} (hm : Spends byRound 2 0 0 m P)
    (file : List UInt8) : ReadsWithin m file ↔ ¬ Meets Overdrawn m file := by
  constructor
  · rintro h ⟨e, he, hover⟩
    exact hover (h.backed e he)
  · intro hmeets
    have hover : ∀ e ∈ (m file).events, e.Backed :=
      fun e he => not_not.mp fun hover => hmeets ⟨e, he, hover⟩
    cases hr : (m file).result with
    | ok r =>
      obtain ⟨-, -, hcost⟩ := hm.of_ok (byRound_covers _) (Nat.zero_le _) hr
      exact ⟨fun f hf => (nomatch hr.symm.trans hf), by omega, hover⟩
    | error f =>
      obtain ⟨hthrown, hcost⟩ := hm.of_error (byRound_covers _) (Nat.zero_le _) hr
      refine ⟨fun f' hf => ?_, hcost, hover⟩
      obtain rfl := Except.error.inj (hr.symm.trans hf)
      exact hthrown

/-- The tensor that is made is larger than what is left. -/
theorem meets_makeTensor :
    Meets Overdrawn (makeTensor shape dtype) s ↔
      (∃ t, TensorImpl.allocate 0 shape dtype = .ok t) ∧
        (s.length : Int) < shape.prod * dtypeSize dtype := by
  cases h : TensorImpl.allocate 0 shape dtype with
  | error e =>
    have hrun : makeTensor shape dtype s = ⟨[], .error (.thrown e)⟩ := by
      rw [makeTensor, h]
      rfl
    simp [Meets, hrun]
  | ok t =>
    have hrun : makeTensor shape dtype s =
        ⟨[.demand t.storage.sizeBytes s.length], .ok (t, s)⟩ := by
      rw [makeTensor, h]
      rfl
    rw [← sizeBytes_eq h]
    simp [Meets, hrun, Overdrawn, Event.Backed]

end Tenzor.Declared
