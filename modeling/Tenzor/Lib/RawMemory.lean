import Mathlib.Algebra.Order.Group.Nat
import Mathlib.Algebra.Order.Group.Unbundled.Int

/-!
# Raw memory

Buffers of bytes are copied and filled block by block. A block that leaves its buffer, or
that a copy reads and writes at once, is a fault.
-/

namespace RawMemory
open Function (update_of_ne update_self)

/-- Buffers by number, with their sizes and contents. From `next` on no buffer is allocated. -/
structure Heap (β : Type*) where
  next : ℕ
  size : ℕ → ℕ
  bytes : ℕ → Int → β

variable {β : Type*} {h h' : Heap β} {start : Int}

/-- A new buffer with the given contents. -/
def Heap.alloc (h : Heap β) (size : ℕ) (contents : Int → β) : Heap β where
  next := h.next + 1
  size := Function.update h.size h.next size
  bytes := Function.update h.bytes h.next contents

@[simp] theorem alloc_bytes (h : Heap β) (size : ℕ) (contents : Int → β) :
    (h.alloc size contents).bytes h.next = contents :=
  update_self _ _ _

@[simp] theorem alloc_size (h : Heap β) (size : ℕ) (contents : Int → β) :
    (h.alloc size contents).size h.next = size :=
  update_self _ _ _

/-- The block lies in the buffer. -/
def Heap.Inside (h : Heap β) (id : ℕ) (start : Int) (count : ℕ) : Prop :=
  0 ≤ start ∧ start + count ≤ h.size id

instance (h : Heap β) (id : ℕ) (start : Int) (count : ℕ) : Decidable (h.Inside id start count) :=
  inferInstanceAs (Decidable (_ ∧ _))

/-- Two blocks of one length have no byte in common. -/
def Apart (dst : ℕ) (dstStart : Int) (src : ℕ) (srcStart : Int) (count : ℕ) : Prop :=
  dst = src → dstStart + count ≤ srcStart ∨ srcStart + count ≤ dstStart

instance (dst : ℕ) (dstStart : Int) (src : ℕ) (srcStart : Int) (count : ℕ) :
    Decidable (Apart dst dstStart src srcStart count) :=
  inferInstanceAs (Decidable (_ → _))

def Heap.memcpy (h : Heap β) (dst : ℕ) (dstStart : Int) (src : ℕ) (srcStart : Int) (count : ℕ) :
    Option (Heap β) :=
  if count = 0 then some h
  else if h.Inside dst dstStart count ∧ h.Inside src srcStart count ∧
      Apart dst dstStart src srcStart count then
    some { h with bytes := Function.update h.bytes dst fun a =>
      if dstStart ≤ a ∧ a < dstStart + count then h.bytes src (srcStart + (a - dstStart))
      else h.bytes dst a }
  else none

def Heap.memset (h : Heap β) (dst : ℕ) (start : Int) (value : β) (count : ℕ) : Option (Heap β) :=
  if count = 0 then some h
  else if h.Inside dst start count then
    some { h with bytes := Function.update h.bytes dst fun a =>
      if start ≤ a ∧ a < start + count then value else h.bytes dst a }
  else none

/-- The allocated buffers are still there as they were. -/
structure Extends (h h' : Heap β) : Prop where
  next_le : h.next ≤ h'.next
  size_eq : ∀ id < h.next, h'.size id = h.size id
  bytes_eq : ∀ id < h.next, h'.bytes id = h.bytes id

theorem Extends.refl (h : Heap β) : Extends h h := ⟨le_rfl, fun _ _ => rfl, fun _ _ => rfl⟩

theorem Extends.trans {h₁ h₂ h₃ : Heap β} (h₁₂ : Extends h₁ h₂) (h₂₃ : Extends h₂ h₃) :
    Extends h₁ h₃ where
  next_le := h₁₂.next_le.trans h₂₃.next_le
  size_eq id hid := (h₂₃.size_eq id (hid.trans_le h₁₂.next_le)).trans (h₁₂.size_eq id hid)
  bytes_eq id hid := (h₂₃.bytes_eq id (hid.trans_le h₁₂.next_le)).trans (h₁₂.bytes_eq id hid)

theorem extends_alloc (h : Heap β) (size : ℕ) (contents : Int → β) :
    Extends h (h.alloc size contents) := by
  constructor
  · exact Nat.le_succ _
  · intro id hid
    exact update_of_ne hid.ne _ _
  · intro id hid
    exact update_of_ne hid.ne _ _

/-- One buffer has been written to: the bytes where `touched` holds are now `value`. -/
structure Written (h h' : Heap β) (dst : ℕ) (touched : Int → Prop) (value : Int → β) : Prop where
  next_eq : h'.next = h.next
  size_eq : h'.size = h.size
  others : ∀ id ≠ dst, h'.bytes id = h.bytes id
  inside : ∀ a, touched a → h'.bytes dst a = value a
  outside : ∀ a, ¬ touched a → h'.bytes dst a = h.bytes dst a

theorem memcpy_ok {dst src count : ℕ} {dstStart srcStart : Int}
    (hdst : h.Inside dst dstStart count) (hsrc : h.Inside src srcStart count)
    (hapart : Apart dst dstStart src srcStart count) :
    ∃ h', h.memcpy dst dstStart src srcStart count = some h' ∧
      Written h h' dst (fun a => dstStart ≤ a ∧ a < dstStart + count)
        fun a => h.bytes src (srcStart + (a - dstStart)) := by
  by_cases hcount : count = 0
  · refine ⟨h, if_pos hcount, rfl, rfl, fun _ _ => rfl, fun a ha => ?_, fun _ _ => rfl⟩
    omega
  · refine ⟨_, (if_neg hcount).trans (if_pos ⟨hdst, hsrc, hapart⟩), rfl, rfl, ?_, ?_, ?_⟩
    · intro id hid
      exact update_of_ne hid _ _
    · intro a ha
      simp only [update_self, if_pos ha]
    · intro a ha
      simp only [update_self, if_neg ha]

theorem memset_ok {dst count : ℕ} (value : β) (hdst : h.Inside dst start count) :
    ∃ h', h.memset dst start value count = some h' ∧
      Written h h' dst (fun a => start ≤ a ∧ a < start + count) fun _ => value := by
  by_cases hcount : count = 0
  · refine ⟨h, if_pos hcount, rfl, rfl, fun _ _ => rfl, fun a ha => ?_, fun _ _ => rfl⟩
    omega
  · refine ⟨_, (if_neg hcount).trans (if_pos hdst), rfl, rfl, ?_, ?_, ?_⟩
    · intro id hid
      exact update_of_ne hid _ _
    · intro a ha
      simp only [update_self, if_pos ha]
    · intro a ha
      simp only [update_self, if_neg ha]

/-- Rows of one length are copied one after another. -/
def Heap.copyRows (h : Heap β) (dst : ℕ) (dstAt : ℕ → Int) (src : ℕ) (srcAt : ℕ → Int)
    (count rows : ℕ) : Option (Heap β) :=
  (List.range rows).foldlM (fun h r => h.memcpy dst (dstAt r) src (srcAt r) count) h

/-- What a copy of rows leaves. -/
structure RowsCopied (h h' : Heap β) (dst : ℕ) (dstAt : ℕ → Int) (src : ℕ) (srcAt : ℕ → Int)
    (count rows : ℕ) : Prop where
  next_eq : h'.next = h.next
  size_eq : h'.size = h.size
  others : ∀ id ≠ dst, h'.bytes id = h.bytes id
  row : ∀ r < rows, ∀ k : ℕ, k < count → h'.bytes dst (dstAt r + k) = h.bytes src (srcAt r + k)
  outside : ∀ a, (∀ r < rows, a < dstAt r ∨ dstAt r + count ≤ a) → h'.bytes dst a = h.bytes dst a

variable {dst src count rows : ℕ} {dstAt srcAt : ℕ → Int}

/-- The bytes of a block away from every written row are those it had. -/
theorem RowsCopied.source (hc : RowsCopied h h' dst dstAt src srcAt count rows) {id : ℕ} {k : ℕ}
    (hk : k < count) (hapart : ∀ r < rows, Apart dst (dstAt r) id start count) :
    h'.bytes id (start + k) = h.bytes id (start + k) := by
  by_cases hid : dst = id
  · subst hid
    refine hc.outside _ fun r hr => ?_
    rcases hapart r hr rfl with h | h <;> omega
  · rw [hc.others id (Ne.symm hid)]

theorem copyRows_ok (hdst : ∀ r < rows, h.Inside dst (dstAt r) count)
    (hsrc : ∀ r < rows, h.Inside src (srcAt r) count)
    (hrows : ∀ r < rows, ∀ r' < r, dstAt r' + count ≤ dstAt r)
    (hapart : ∀ r < rows, ∀ r' < rows, Apart dst (dstAt r) src (srcAt r') count) :
    ∃ h', h.copyRows dst dstAt src srcAt count rows = some h' ∧
      RowsCopied h h' dst dstAt src srcAt count rows := by
  induction rows with
  | zero => exact ⟨h, rfl, rfl, rfl, fun _ _ => rfl, fun _ hr => by omega, fun _ _ => rfl⟩
  | succ rows ih =>
    obtain ⟨mid, hmid, hcopied⟩ := ih (fun r hr => hdst r (by omega)) (fun r hr => hsrc r (by omega))
      (fun r hr => hrows r (by omega)) fun r hr r' hr' => hapart r (by omega) r' (by omega)
    have hsize : ∀ id start, mid.Inside id start count ↔ h.Inside id start count := by
      intro id start
      rw [Heap.Inside, Heap.Inside, hcopied.size_eq]
    obtain ⟨h', hh', hwritten⟩ := memcpy_ok (h := mid) ((hsize _ _).mpr (hdst rows (by omega)))
      ((hsize _ _).mpr (hsrc rows (by omega))) (hapart rows (by omega) rows (by omega))
    refine ⟨h', ?_, ?_, ?_, ?_, ?_, ?_⟩
    · rw [Heap.copyRows, List.range_succ, List.foldlM_append]
      rw [Heap.copyRows] at hmid
      rw [hmid]
      simpa using hh'
    · rw [hwritten.next_eq, hcopied.next_eq]
    · rw [hwritten.size_eq, hcopied.size_eq]
    · intro id hid
      rw [hwritten.others id hid, hcopied.others id hid]
    · intro r hr k hk
      by_cases hlast : r = rows
      · subst hlast
        have hin : dstAt r ≤ dstAt r + k ∧ dstAt r + (k : Int) < dstAt r + count := by omega
        rw [hwritten.inside _ hin, add_sub_cancel_left]
        exact hcopied.source hk fun r' hr' => hapart r' (by omega) r (by omega)
      · have hbefore := hrows rows (by omega) r (by omega)
        rw [hwritten.outside _ (by omega)]
        exact hcopied.row r (by omega) k hk
    · intro a ha
      have hrow := ha rows (by omega)
      rw [hwritten.outside _ (by omega)]
      exact hcopied.outside a fun r hr => ha r (by omega)

end RawMemory
