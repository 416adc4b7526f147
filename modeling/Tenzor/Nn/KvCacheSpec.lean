import Tenzor.Nn.KvCache

/-!
# What the calls on a key-value cache do to the storages

A tensor is live when its storage is allocated with the size that the tensor records. Allocation,
the contiguous copy and the block copies of an update keep every live tensor and say which bytes
they leave.
-/

namespace Tenzor

open Wrap64 Strided RawMemory List
open Effects hiding bind_eq_ok
open Throwing

/-- The storage of the tensor is allocated, and all its elements lie inside. -/
structure Live (h : Heap UInt8) (t : TensorImpl) : Prop where
  wellFormed : t.WellFormed
  inBounds : t.InBounds
  allocated : t.storage.id < h.next
  size_eq : h.size t.storage.id = t.storage.sizeBytes

variable {h h' : Heap UInt8} {t : TensorImpl} {mem mem' : Bytes} {r d a b c j n : Int}
  {small big : List Int} {dtype : DType} {k : ℕ} {dst src : TensorImpl}

theorem Live.extend (hl : Live h t) (he : Extends h h') : Live h' t where
  wellFormed := hl.wellFormed
  inBounds := hl.inBounds
  allocated := hl.allocated.trans_le he.next_le
  size_eq := (he.size_eq _ hl.allocated).trans hl.size_eq

/-- The elements of a tensor depend on its own storage only. -/
theorem elementBytes_congr (hid : mem' t.storage.id = mem t.storage.id) (e : Int) :
    elementBytes mem' t e = elementBytes mem t e := by
  rw [elementBytes, elementBytes, hid]

theorem throwing_of_ok {α : Type} {x : Except Exn α} {a : α} (hx : x = .ok a) :
    throwing x h = (.ok a, h) := by
  rw [hx]
  rfl

/-- The sizes of one shape are at most those of the other. -/
def Fits (small big : List Int) : Prop := List.Forall₂ (fun n m => 0 ≤ n ∧ n ≤ m) small big

theorem numel_of_fits (hf : Fits small big) {R N : Int} (hr : 0 ≤ r) (hle : r ≤ R)
    (h : big.foldlM numelStep R = .ok N) :
    small.foldlM numelStep r = .ok (r * small.prod) ∧ r * small.prod ≤ N := by
  induction hf generalizing r R with
  | nil =>
    obtain rfl : R = N := by simpa using h
    simpa using hle
  | @cons n m small big hnm _ ih =>
    obtain ⟨x, hx, hrest⟩ := foldlM_cons_eq_ok.mp h
    obtain ⟨rfl, hfit⟩ := numelStep_eq_ok hx
    have hmul : r * n ≤ R * m := mul_le_mul hle hnm.2 hnm.1 (hr.trans hle)
    have hnonneg : 0 ≤ r * n := Int.mul_nonneg hr hnm.1
    obtain ⟨hfold, hbound⟩ := ih hnonneg hmul hrest
    rw [prod_cons, ← mul_assoc]
    have hstep := (numelStep_eq_ok_iff hr hnm.1).mpr ⟨hmul.trans hfit, rfl⟩
    exact ⟨foldlM_cons_eq_ok.mpr ⟨_, hstep, hfold⟩, hbound⟩

theorem Fits.prod (hf : Fits small big) : 0 ≤ small.prod ∧ small.prod ≤ big.prod := by
  induction hf with
  | nil => exact ⟨by decide, le_rfl⟩
  | cons hnm _ ih =>
    constructor
    · exact Int.mul_nonneg hnm.1 ih.1
    · exact mul_le_mul hnm.2 ih.2 ih.1 (hnm.1.trans hnm.2)

theorem Fits.nonneg (hf : Fits small big) : ∀ n ∈ small, 0 ≤ n := by
  induction hf with
  | nil => exact nofun
  | cons hnm _ ih => exact forall_mem_cons.mpr ⟨hnm.1, ih⟩

theorem computeStrides_of_fits {strides : List Int} (hf : Fits small big)
    (h : computeStrides big = .ok strides) : computeStrides small = .ok (rowMajor small) := by
  induction big using computeStrides.induct generalizing small strides with
  | case1 =>
    cases hf
    rfl
  | case2 m =>
    obtain ⟨n, rest, -, hrest, rfl⟩ := forall₂_cons_right_iff.mp hf
    cases hrest
    rfl
  | case3 a m rest ih =>
    obtain ⟨n, tail, -, htail, rfl⟩ := forall₂_cons_right_iff.mp hf
    obtain ⟨k, last, -, hlast, rfl⟩ := forall₂_cons_right_iff.mp htail
    simp only [computeStrides, bind_eq_ok, pure_eq_ok] at h
    obtain ⟨strides', hstrides, s, hs, -⟩ := h
    obtain rfl := computeStrides_eq_rowMajor hstrides
    obtain ⟨hword, -⟩ := checkedMul_eq_ok.mp hs
    have hbig : rest.prod * m ≤ int64Max := hword.2
    have hprod : 0 ≤ last.prod * k ∧ last.prod * k ≤ rest.prod * m := by
      have := Fits.prod htail
      rwa [mul_comm last.prod, mul_comm rest.prod]
    have hsmall : InInt64 ((rowMajor (k :: last)).headD 1 * k) :=
      ⟨(by decide : int64Min ≤ 0).trans hprod.1, hprod.2.trans hbig⟩
    simp only [computeStrides, bind_eq_ok, pure_eq_ok]
    refine ⟨_, ih htail hstrides, _, checkedMul_eq_ok.mpr ⟨hsmall, rfl⟩, ?_⟩
    simp [rowMajor, mul_comm]

/-- What can be allocated can be allocated smaller. -/
theorem allocate_smaller (hf : Fits small big) {id : ℕ}
    (h : TensorImpl.allocate id big dtype = .ok t) (id' : ℕ) :
    ∃ u, TensorImpl.allocate id' small dtype = .ok u := by
  obtain ⟨-, hstrides, hnumel, hbytes, -⟩ := TensorImpl.allocate_ok h
  obtain ⟨hfold, hle⟩ := numel_of_fits hf (by decide) le_rfl hnumel
  rw [one_mul] at hfold hle
  apply TensorImpl.allocate_of_fits id' hf.nonneg (computeStrides_of_fits hf hstrides) hfold
  exact (mul_le_mul_of_nonneg_right hle (by omega)).trans hbytes

theorem live_alloc {shape : List Int} (hsize : ∀ n ∈ shape, n ≤ int64Max)
    (ht : TensorImpl.allocate h.next shape dtype = .ok t) (contents : Int → UInt8) :
    Live (h.alloc t.storage.sizeBytes contents) t := by
  have hid := TensorImpl.allocate_storageId ht
  constructor
  · exact TensorImpl.wellFormed_allocate hsize ht
  · exact TensorImpl.inBounds_allocate ht
  · rw [hid]
    exact Nat.lt_succ_self _
  · rw [hid, alloc_size]

/-- The input itself, or a copy on a new storage: a live tensor in row-major order with the same
elements. -/
structure MadeContiguous (h h' : Heap UInt8) (t u : TensorImpl) : Prop where
  extends_heap : Extends h h'
  live : Live h' u
  shape : u.shape = t.shape
  dtype : u.dtype = t.dtype
  strides : u.strides = rowMajor t.shape
  elements : ∀ idx, Within idx t.shape →
    elementBytes h'.bytes u (u.addr idx) = elementBytes h.bytes t (t.addr idx)
  itself_or_copy : (u = t ∧ h' = h ∧ t.strides = rowMajor t.shape) ∨ h.next ≤ u.storage.id

theorem elementBytes_copy {size : ℕ} (hk : k < size) (e : Int) :
    (e * size + k) / size = e ∧ (e * size + k) % (size : Int) = k := by
  have hpos : (0 : Int) < size := by omega
  constructor
  · rw [add_comm, Int.add_mul_ediv_right _ _ hpos.ne',
      Int.ediv_eq_zero_of_lt (by omega) (by omega), zero_add]
  · rw [add_comm, Int.add_mul_emod_self_right, Int.emod_eq_of_lt (by omega) (by omega)]

theorem contiguousOnHeap_ok (hl : Live h t)
    (hstrides : computeStrides t.shape = .ok (rowMajor t.shape))
    (hfit : ∀ id, ∃ u, TensorImpl.allocate id t.shape t.dtype = .ok u) :
    ∃ u h', contiguousOnHeap t h = (.ok u, h') ∧ MadeContiguous h h' t u := by
  have hcont := TensorImpl.isContiguous_eq hstrides
  by_cases hc : t.strides = rowMajor t.shape
  · refine ⟨t, h, ?_, ⟨Extends.refl h, hl, rfl, rfl, hc, fun _ _ => rfl, .inl ⟨rfl, rfl, hc⟩⟩⟩
    rw [contiguousOnHeap, bind_of_ok (throwing_of_ok hcont), if_pos (by simpa using hc)]
    rfl
  · obtain ⟨u, hu⟩ := hfit h.next
    obtain ⟨-, -, -, -, hshape, hus, -, hdtype, -⟩ := TensorImpl.allocate_ok hu
    refine ⟨u, h.alloc u.storage.sizeBytes (copiedBytes h t), ?_, ⟨extends_alloc h _ _, live_alloc hl.wellFormed.size_le hu _, hshape, hdtype,
      hus, ?_, .inr (TensorImpl.allocate_storageId hu).ge⟩⟩
    · rw [contiguousOnHeap, bind_of_ok (throwing_of_ok hcont), if_neg (by simpa using hc),
        bind_of_ok (get_apply h), bind_of_ok (throwing_of_ok hu)]
      rfl
    · intro idx hidx
      have hbounds := dot_rowMajor_bounds hidx
      have hsource : t.contiguousSource (u.addr idx) = t.addr idx := by
        rw [TensorImpl.addr_allocate hu, TensorImpl.contiguousSource_eq hl.wellFormed
          (hidx.pos) hbounds.1 hbounds.2, unravel_dot hidx]
      rw [elementBytes, hdtype]
      apply map_congr_left
      intro k hk
      obtain ⟨hdiv, hmod⟩ := elementBytes_copy (mem_range.mp hk) (u.addr idx)
      rw [TensorImpl.allocate_storageId hu, alloc_bytes, copiedBytes, hdiv, hmod, hsource]

/-! ## The blocks of an update -/

/-- A buffer of the cache, as it was allocated. -/
structure BufferOf (config : KVCacheConfig) (h : Heap UInt8) (t : TensorImpl) : Prop where
  allocated : TensorImpl.allocate t.storage.id config.cacheShape config.dtype = .ok t
  below : t.storage.id < h.next
  size_eq : h.size t.storage.id = t.storage.sizeBytes

/-- The constructor has accepted the configuration. -/
structure KVCacheConfig.Positive (config : KVCacheConfig) : Prop where
  numLayers : 0 < config.numLayers
  maxSeqLen : 0 < config.maxSeqLen
  numKvHeads : 0 < config.numKvHeads
  headDim : 0 < config.headDim
  batchSize : 0 < config.batchSize

variable {config : KVCacheConfig}

theorem KVCacheConfig.check_eq_ok : config.check = .ok () ↔ config.Positive := by
  simp only [KVCacheConfig.check, bind_eq_ok, throwIf_eq_ok]
  constructor
  · rintro ⟨-, hl, -, hs, -, hh, -, hd, hb⟩
    constructor <;> omega
  · rintro ⟨hl, hs, hh, hd, hb⟩
    exact ⟨(), by omega, (), by omega, (), by omega, (), by omega, by omega⟩

/-- A number with a digit before and a digit behind. -/
theorem mul_add_lt {x m y w : Int} (hx : x < m) (hy : y < w) (hw : 0 ≤ w) : x * w + y < m * w := by
  have hstep : (x + 1) * w ≤ m * w := mul_le_mul_of_nonneg_right hx hw
  rw [add_mul] at hstep
  omega

/-- The number of bytes of one position of one head. -/
def KVCacheConfig.tokenBytes (config : KVCacheConfig) : Int :=
  config.headDim * dtypeSize config.dtype

section Offsets

variable {config : KVCacheConfig} (hp : config.Positive) {x n : Int}
include hp

theorem KVCacheConfig.tokenBytes_pos : 0 < config.tokenBytes :=
  mul_pos hp.headDim (by exact_mod_cast dtypeSize_pos config.dtype)

theorem KVCacheConfig.rows_pos : 0 < config.batchSize * config.numKvHeads :=
  mul_pos hp.batchSize hp.numKvHeads

variable (hfit : config.batchSize * config.numKvHeads * config.maxSeqLen * config.tokenBytes ≤
  int64Max)
include hfit

theorem KVCacheConfig.mul_tokenBytes_le
    (hx : x ≤ config.batchSize * config.numKvHeads * config.maxSeqLen) :
    x * config.tokenBytes ≤ int64Max :=
  (mul_le_mul_of_nonneg_right hx (config.tokenBytes_pos hp).le).trans hfit

theorem KVCacheConfig.asSizeT_mul (hx : 0 ≤ x)
    (hle : x ≤ config.batchSize * config.numKvHeads * config.maxSeqLen) :
    TensorImpl.asSizeT (x * config.headDim * dtypeSize config.dtype) = x * config.tokenBytes := by
  have hbound := config.mul_tokenBytes_le hp hfit hle
  have hnonneg : 0 ≤ x * config.tokenBytes := mul_nonneg hx (config.tokenBytes_pos hp).le
  rw [mul_assoc]
  apply Int.emod_eq_of_lt hnonneg
  rw [int64Max] at hbound
  omega

theorem KVCacheConfig.rows_eq : (config.rows : Int) = config.batchSize * config.numKvHeads := by
  have hpos := config.rows_pos hp
  have hbound : config.batchSize * config.numKvHeads * 1 ≤
      config.batchSize * config.numKvHeads * (config.maxSeqLen * config.tokenBytes) :=
    mul_le_mul_of_nonneg_left (mul_pos hp.maxSeqLen (config.tokenBytes_pos hp)) hpos.le
  rw [← mul_assoc] at hbound
  rw [KVCacheConfig.rows, wrap64_of_inInt64, Int.toNat_of_nonneg hpos.le]
  constructor
  · simp only [int64Min]
    omega
  · omega

variable {r : ℕ} (hr : r < config.rows)
include hr

/-- The positions of row `r` end before those of the last row do. -/
theorem KVCacheConfig.row_le {i : Int} (hi : i ≤ config.maxSeqLen) :
    r * config.maxSeqLen + i ≤ config.batchSize * config.numKvHeads * config.maxSeqLen := by
  have hlt : (r : Int) + 1 ≤ config.batchSize * config.numKvHeads := by
    rw [← config.rows_eq hp hfit]
    exact_mod_cast hr
  have hstep := mul_le_mul_of_nonneg_right hlt hp.maxSeqLen.le
  rw [add_mul] at hstep
  omega

theorem KVCacheConfig.dstOff_eq {pos : Int} (hpos : 0 ≤ pos) (hle : pos ≤ config.maxSeqLen) :
    config.dstOff pos r = (r * config.maxSeqLen + pos) * config.tokenBytes := by
  apply config.asSizeT_mul hp hfit _ (config.row_le hp hfit hr hle)
  exact add_nonneg (mul_nonneg (by omega) hp.maxSeqLen.le) hpos

theorem KVCacheConfig.srcOff_eq (hn : 0 ≤ n) (hle : n ≤ config.maxSeqLen) :
    config.srcOff n r = r * n * config.tokenBytes := by
  apply config.asSizeT_mul hp hfit (mul_nonneg (by omega) hn)
  have hrow := config.row_le hp hfit hr hp.maxSeqLen.le
  have hmul : (r : Int) * n ≤ r * config.maxSeqLen := mul_le_mul_of_nonneg_left hle (by omega)
  omega

theorem KVCacheConfig.blockBytes_eq (hn : 0 ≤ n) (hle : n ≤ config.maxSeqLen) :
    (config.blockBytes n : Int) = n * config.tokenBytes := by
  have hrow := config.row_le hp hfit hr hle
  have hnonneg : 0 ≤ (r : Int) * config.maxSeqLen := mul_nonneg (by omega) hp.maxSeqLen.le
  rw [KVCacheConfig.blockBytes, config.asSizeT_mul hp hfit hn (by omega),
    Int.toNat_of_nonneg (mul_nonneg hn (config.tokenBytes_pos hp).le)]

end Offsets

theorem within_four {idx : List Int} (h : Within idx [a, b, c, d]) :
    ∃ i j k l, idx = [i, j, k, l] ∧ (0 ≤ i ∧ i < a) ∧ (0 ≤ j ∧ j < b) ∧ (0 ≤ k ∧ k < c) ∧
      0 ≤ l ∧ l < d := by
  obtain ⟨i, _, hi, hb, rfl⟩ := forall₂_cons_right_iff.mp h
  obtain ⟨j, _, hj, hc, rfl⟩ := forall₂_cons_right_iff.mp hb
  obtain ⟨k, _, hk, hd, rfl⟩ := forall₂_cons_right_iff.mp hc
  obtain ⟨l, _, hl, hnil, rfl⟩ := forall₂_cons_right_iff.mp hd
  obtain rfl := forall₂_nil_right_iff.mp hnil
  exact ⟨i, j, k, l, rfl, hi, hj, hk, hl⟩

theorem within_of_four {i k l : Int} (hi : 0 ≤ i ∧ i < a) (hj : 0 ≤ j ∧ j < b) (hk : 0 ≤ k ∧ k < c)
    (hl : 0 ≤ l ∧ l < d) : Within [i, j, k, l] [a, b, c, d] := by
  simp only [within_cons, within_nil, and_true]
  exact ⟨hi, hj, hk, hl⟩

theorem dot_four (i j k l a b c d : Int) :
    dot [i, j, k, l] (rowMajor [a, b, c, d]) = ((i * b + j) * c + k) * d + l := by
  simp [rowMajor]
  ring

/-! ## One buffer is written -/

/-- The shape of an update with `n` positions. -/
def KVCacheConfig.inputShape (config : KVCacheConfig) (n : Int) : List Int :=
  [config.batchSize, config.numKvHeads, n, config.headDim]

/-- A written position, counted from the first of the update. -/
theorem within_inputShape {config : KVCacheConfig} {n pos b g p d : Int}
    (hidx : Within [b, g, p, d] config.cacheShape) (hp : pos ≤ p ∧ p < pos + n) :
    Within [b, g, p - pos, d] (config.inputShape n) := by
  have hidx' : (0 ≤ b ∧ b < config.batchSize) ∧ (0 ≤ g ∧ g < config.numKvHeads) ∧
      (0 ≤ p ∧ p < config.maxSeqLen) ∧ (0 ≤ d ∧ d < config.headDim) := by
    simpa [KVCacheConfig.cacheShape] using hidx
  exact within_of_four hidx'.1 hidx'.2.1 (by omega) hidx'.2.2.2

/-- What the copy reads from: a live tensor in row-major order with the type of the cache. -/
structure Source (config : KVCacheConfig) (h : Heap UInt8) (src : TensorImpl) (n : Int) :
    Prop where
  live : Live h src
  shape : src.shape = config.inputShape n
  strides : src.strides = rowMajor (config.inputShape n)
  dtype : src.dtype = config.dtype

section Rows

variable {config : KVCacheConfig} {dst src : TensorImpl} {n pos : Int} {r : ℕ}

theorem BufferOf.fits (hb : BufferOf config h dst) :
    config.batchSize * config.numKvHeads * config.maxSeqLen * config.tokenBytes ≤ int64Max := by
  obtain ⟨-, -, -, hbytes, -⟩ := TensorImpl.allocate_ok hb.allocated
  have hprod : config.cacheShape.prod * (dtypeSize config.dtype : Int) =
      config.batchSize * config.numKvHeads * config.maxSeqLen * config.tokenBytes := by
    simp only [KVCacheConfig.cacheShape, KVCacheConfig.tokenBytes, prod_cons, prod_nil]
    ring
  rwa [hprod] at hbytes

theorem BufferOf.size (hb : BufferOf config h dst) :
    (h.size dst.storage.id : Int) =
      config.batchSize * config.numKvHeads * config.maxSeqLen * config.tokenBytes := by
  have hnn : 0 ≤ config.cacheShape.prod := Strided.prod_nonneg (TensorImpl.allocate_ok hb.allocated).1
  rw [hb.size_eq, TensorImpl.allocate_sizeBytes hb.allocated]
  push_cast
  rw [Int.toNat_of_nonneg hnn]
  simp only [KVCacheConfig.cacheShape, KVCacheConfig.tokenBytes, prod_cons, prod_nil]
  ring

variable (hp : config.Positive) (hb : BufferOf config h dst) (hr : r < config.rows)
include hp hb hr

theorem BufferOf.dstAt_eq (hpos : 0 ≤ pos) (hle : pos ≤ config.maxSeqLen) :
    config.dstAt dst pos r = (r * config.maxSeqLen + pos) * config.tokenBytes := by
  have hoff : dst.offset = 0 := (TensorImpl.allocate_ok hb.allocated).2.2.2.2.2.2.1
  have hrow := config.row_le hp hb.fits hr hle
  have hnonneg : 0 ≤ (r : Int) * config.maxSeqLen + pos :=
    add_nonneg (mul_nonneg (by omega) hp.maxSeqLen.le) hpos
  rw [KVCacheConfig.dstAt, dataPtr, hoff, zero_mul, zero_add, config.dstOff_eq hp hb.fits hr hpos hle,
    wrap64_of_inInt64]
  constructor
  · have := mul_nonneg hnonneg (config.tokenBytes_pos hp).le
    simp only [int64Min]
    omega
  · exact config.mul_tokenBytes_le hp hb.fits hrow

theorem BufferOf.inside (hpos : 0 ≤ pos) (hn : 0 ≤ n) (hle : pos + n ≤ config.maxSeqLen) :
    h.Inside dst.storage.id (config.dstAt dst pos r) (config.blockBytes n) := by
  have hrow := config.row_le hp hb.fits hr hle
  have hnonneg : 0 ≤ (r : Int) * config.maxSeqLen + pos :=
    add_nonneg (mul_nonneg (by omega) hp.maxSeqLen.le) hpos
  rw [Heap.Inside, hb.dstAt_eq hp hr hpos (by omega), hb.size,
    config.blockBytes_eq hp hb.fits hr hn (by omega)]
  constructor
  · exact mul_nonneg hnonneg (config.tokenBytes_pos hp).le
  · rw [← add_mul]
    apply mul_le_mul_of_nonneg_right _ (config.tokenBytes_pos hp).le
    omega

/-- A row of the input starts and ends inside the storage. -/
theorem Source.row_bounds (hs : Source config h src n) (hn : 0 < n) :
    0 ≤ src.offset + r * n * config.headDim ∧
      src.offset + r * n * config.headDim + n * config.headDim ≤ src.storageElements := by
  have hrows := config.rows_eq hp hb.fits
  have hheads := hp.numKvHeads
  have hhead := hp.headDim
  have hb' : 0 ≤ (r : Int) / config.numKvHeads ∧ (r : Int) / config.numKvHeads < config.batchSize := by
    constructor
    · exact Int.ediv_nonneg (by omega) hheads.le
    · apply Int.ediv_lt_of_lt_mul hheads
      omega
  have hh : 0 ≤ (r : Int) % config.numKvHeads ∧ (r : Int) % config.numKvHeads < config.numKvHeads :=
    ⟨Int.emod_nonneg _ hheads.ne', Int.emod_lt_of_pos _ hheads⟩
  have hsplit : (r : Int) / config.numKvHeads * config.numKvHeads + (r : Int) % config.numKvHeads = r :=
    Int.ediv_mul_add_emod _ _
  have haddr : ∀ k l, src.addr [(r : Int) / config.numKvHeads, (r : Int) % config.numKvHeads, k, l] =
      src.offset + (r * n * config.headDim + k * config.headDim + l) := by
    intro k l
    rw [TensorImpl.addr, hs.strides, KVCacheConfig.inputShape, dot_four, hsplit]
    ring
  have hin : ∀ k l, 0 ≤ k ∧ k < n → 0 ≤ l ∧ l < config.headDim →
      0 ≤ src.addr [(r : Int) / config.numKvHeads, (r : Int) % config.numKvHeads, k, l] ∧
      src.addr [(r : Int) / config.numKvHeads, (r : Int) % config.numKvHeads, k, l] <
        src.storageElements := by
    intro k l hk hl
    apply hs.live.inBounds
    rw [hs.shape]
    exact within_of_four hb' hh hk hl
  have hfirst := hin 0 0 (by omega) (by omega)
  have hlast := hin (n - 1) (config.headDim - 1) (by omega) (by omega)
  have hblock : (n - 1) * config.headDim + (config.headDim - 1) = n * config.headDim - 1 := by ring
  rw [haddr] at hfirst hlast
  omega

theorem Source.srcAt_eq (hs : Source config h src n) (hn : 0 < n) (hle : n ≤ config.maxSeqLen) :
    config.srcAt src n r = (src.offset + r * n * config.headDim) * dtypeSize config.dtype ∧
      (src.offset + r * n * config.headDim) * dtypeSize config.dtype + n * config.tokenBytes ≤
        src.storage.sizeBytes := by
  obtain ⟨hfirst, hlast⟩ := hs.row_bounds hp hb hr hn
  have helem : (0 : Int) < dtypeSize config.dtype := by exact_mod_cast dtypeSize_pos config.dtype
  have hsize : (src.storageElements : Int) * dtypeSize config.dtype ≤ src.storage.sizeBytes := by
    rw [TensorImpl.storageElements, hs.dtype]
    exact_mod_cast Nat.div_mul_le_self _ _
  have hend : (src.offset + r * n * config.headDim) * dtypeSize config.dtype +
      n * config.tokenBytes ≤ src.storage.sizeBytes := by
    calc (src.offset + r * n * config.headDim) * (dtypeSize config.dtype : Int) +
          n * config.tokenBytes
        = (src.offset + r * n * config.headDim + n * config.headDim) * dtypeSize config.dtype := by
          rw [KVCacheConfig.tokenBytes]
          ring
      _ ≤ src.storageElements * dtypeSize config.dtype :=
          mul_le_mul_of_nonneg_right hlast helem.le
      _ ≤ src.storage.sizeBytes := hsize
  refine ⟨?_, hend⟩
  have hsum : dataPtr src + config.srcOff n r =
      (src.offset + r * n * config.headDim) * dtypeSize config.dtype := by
    rw [dataPtr, hs.dtype, config.srcOff_eq hp hb.fits hr hn.le hle, KVCacheConfig.tokenBytes]
    ring
  rw [KVCacheConfig.srcAt, hsum, wrap64_of_inInt64]
  have hword := src.storage.size_le
  have hblock : 0 ≤ n * config.tokenBytes := mul_nonneg hn.le (config.tokenBytes_pos hp).le
  have hnonneg := mul_nonneg hfirst helem.le
  constructor
  · simp only [int64Min]
    omega
  · omega

theorem Source.inside (hs : Source config h src n) (hn : 0 < n) (hle : n ≤ config.maxSeqLen) :
    h.Inside src.storage.id (config.srcAt src n r) (config.blockBytes n) := by
  obtain ⟨haddr, hend⟩ := hs.srcAt_eq hp hb hr hn hle
  have helem : (0 : Int) < dtypeSize config.dtype := by exact_mod_cast dtypeSize_pos config.dtype
  rw [Heap.Inside, haddr, hs.live.size_eq, config.blockBytes_eq hp hb.fits hr hn.le hle]
  exact ⟨mul_nonneg (hs.row_bounds hp hb hr hn).1 helem.le, hend⟩

end Rows

/-- No row is written over a part of the input that is still to be read. -/
def ReadsApart (config : KVCacheConfig) (dst src : TensorImpl) (n pos : Int) : Prop :=
  ∀ r < config.rows, ∀ r' < config.rows, Apart dst.storage.id (config.dstAt dst pos r)
    src.storage.id (config.srcAt src n r') (config.blockBytes n)

/-- The buffer after an update: the new positions are those of the input, the others are kept. -/
structure BufferWritten (config : KVCacheConfig) (h h' : Heap UInt8) (dst src : TensorImpl)
    (n pos : Int) : Prop where
  next_eq : h'.next = h.next
  size_eq : h'.size = h.size
  others : ∀ id ≠ dst.storage.id, h'.bytes id = h.bytes id
  elements : ∀ b g i d, Within [b, g, i, d] config.cacheShape →
    elementBytes h'.bytes dst (dst.addr [b, g, i, d]) =
      if pos ≤ i ∧ i < pos + n then elementBytes h.bytes src (src.addr [b, g, i - pos, d])
      else elementBytes h.bytes dst (dst.addr [b, g, i, d])
  kept : ∀ other, Source config h other n → ReadsApart config dst other n pos →
    ∀ b g j d, Within [b, g, j, d] (config.inputShape n) →
      elementBytes h'.bytes other (other.addr [b, g, j, d]) =
        elementBytes h.bytes other (other.addr [b, g, j, d])

section Written

variable {config : KVCacheConfig} {dst src : TensorImpl} {n pos : Int} (hp : config.Positive)
  (hb : BufferOf config h dst) {b g i d : Int} {r r' : ℕ}
include hp hb

/-- Heads of all batches are numbered in order. -/
theorem BufferOf.row_of (hbatch : 0 ≤ b ∧ b < config.batchSize)
    (hhead : 0 ≤ g ∧ g < config.numKvHeads) :
    ∃ r < config.rows, (r : Int) = b * config.numKvHeads + g := by
  have hlt := mul_add_lt hbatch.2 hhead.2 hp.numKvHeads.le
  have hnonneg : 0 ≤ b * config.numKvHeads + g :=
    add_nonneg (mul_nonneg hbatch.1 hp.numKvHeads.le) hhead.1
  have hcast := Int.toNat_of_nonneg hnonneg
  refine ⟨(b * config.numKvHeads + g).toNat, ?_, hcast⟩
  have := config.rows_eq hp hb.fits
  omega

/-- Where an element of the buffer is, from the position that its row is written at. -/
theorem BufferOf.addr_eq (hidx : Within [b, g, i, d] config.cacheShape) :
    ∃ r < config.rows, (r : Int) = b * config.numKvHeads + g ∧
      dst.addr [b, g, i, d] = (r * config.maxSeqLen + i) * config.headDim + d := by
  obtain ⟨hbatch, hhead, hi, hd, -⟩ : (0 ≤ b ∧ b < config.batchSize) ∧
      (0 ≤ g ∧ g < config.numKvHeads) ∧ (0 ≤ i ∧ i < config.maxSeqLen) ∧
      (0 ≤ d ∧ d < config.headDim) ∧ True := by
    simpa [KVCacheConfig.cacheShape] using hidx
  obtain ⟨r, hr, hrow⟩ := hb.row_of hp hbatch hhead
  refine ⟨r, hr, hrow, ?_⟩
  rw [TensorImpl.addr_allocate hb.allocated, KVCacheConfig.cacheShape, dot_four, hrow]

variable (hn : 0 < n) (hpos : 0 ≤ pos) (hle : pos + n ≤ config.maxSeqLen)
include hn hpos hle

/-- Rows are written in order, each behind the one before. -/
theorem BufferOf.rows_ordered (hr : r < config.rows) (hlt : r' < r) :
    config.dstAt dst pos r' + config.blockBytes n ≤ config.dstAt dst pos r := by
  have hstep : ((r' : Int) + 1) * config.maxSeqLen ≤ r * config.maxSeqLen :=
    mul_le_mul_of_nonneg_right (by omega) hp.maxSeqLen.le
  rw [add_mul] at hstep
  rw [hb.dstAt_eq hp hr hpos (by omega), hb.dstAt_eq hp (by omega) hpos (by omega),
    config.blockBytes_eq hp hb.fits hr hn.le (by omega), ← add_mul]
  apply mul_le_mul_of_nonneg_right _ (config.tokenBytes_pos hp).le
  omega

/-- A byte of a position that is not written lies outside every row. -/
theorem BufferOf.outside (hr' : r' < config.rows) {k : ℕ} (hi : 0 ≤ i ∧ i < config.maxSeqLen)
    (hd : 0 ≤ d ∧ d < config.headDim) (hk : k < dtypeSize config.dtype)
    (hout : ¬ (pos ≤ i ∧ i < pos + n)) :
    let a := ((r * config.maxSeqLen + i) * config.headDim + d) * dtypeSize config.dtype + k
    a < config.dstAt dst pos r' ∨ config.dstAt dst pos r' + config.blockBytes n ≤ a := by
  intro a
  have hT := config.tokenBytes_pos hp
  -- The byte is one of the token's, and tokens are numbered across the rows.
  have hoff : 0 ≤ d * dtypeSize config.dtype + (k : Int) ∧
      d * dtypeSize config.dtype + (k : Int) < config.tokenBytes := by
    constructor
    · exact add_nonneg (mul_nonneg hd.1 (by omega)) (by omega)
    · exact mul_add_lt hd.2 (by omega) (by omega)
  have ha : a = (r * config.maxSeqLen + i) * config.tokenBytes +
      (d * dtypeSize config.dtype + k) := by
    simp only [a, KVCacheConfig.tokenBytes]
    ring
  rw [hb.dstAt_eq hp hr' hpos (by omega), config.blockBytes_eq hp hb.fits hr' hn.le (by omega), ← add_mul]
  rcases lt_or_ge (r * config.maxSeqLen + i) (r' * config.maxSeqLen + pos) with hlt | hge
  · have := mul_add_lt hlt hoff.2 hT.le
    omega
  · have hend : (r' : Int) * config.maxSeqLen + pos + n ≤ r * config.maxSeqLen + i := by
      rcases lt_trichotomy r r' with hrr | rfl | hrr
      · have hstep : ((r : Int) + 1) * config.maxSeqLen ≤ r' * config.maxSeqLen :=
          mul_le_mul_of_nonneg_right (by omega) hp.maxSeqLen.le
        rw [add_mul] at hstep
        omega
      · omega
      · have hstep : ((r' : Int) + 1) * config.maxSeqLen ≤ r * config.maxSeqLen :=
          mul_le_mul_of_nonneg_right (by omega) hp.maxSeqLen.le
        rw [add_mul] at hstep
        omega
    have := mul_le_mul_of_nonneg_right hend hT.le
    omega

end Written

theorem elementBytes_eq {u u' : TensorImpl} {e e' : Int}
    (hdtype : u'.dtype = u.dtype)
    (h : ∀ k < dtypeSize u.dtype, mem' u'.storage.id (e' * dtypeSize u.dtype + (k : ℕ)) =
      mem u.storage.id (e * dtypeSize u.dtype + (k : ℕ))) :
    elementBytes mem' u' e' = elementBytes mem u e := by
  rw [elementBytes, hdtype]
  exact map_congr_left fun k hk => h k (mem_range.mp hk)

theorem copyRows_zero {dst src rows : ℕ} {dstAt srcAt : ℕ → Int} :
    h.copyRows dst dstAt src srcAt 0 rows = some h := by
  induction rows with
  | zero => rfl
  | succ rows ih =>
    rw [Heap.copyRows] at ih
    rw [Heap.copyRows, range_succ, foldlM_append, ih]
    rfl

theorem access_of_some {after : Heap UInt8 → Option (Heap UInt8)} (ha : after h = some h') :
    access after h = (.ok (), h') := by
  rw [access, ha]

/-- A byte of a row, counted from the start of the row. -/
theorem BufferOf.place (hp : config.Positive) (hb : BufferOf config h dst) {r : ℕ}
    (hr : r < config.rows) (hn : 0 ≤ n) (hle : n ≤ config.maxSeqLen) (hj : 0 ≤ j ∧ j < n)
    (hd : 0 ≤ d ∧ d < config.headDim) (hk : k < dtypeSize config.dtype) :
    ∃ m < config.blockBytes n, (m : Int) = (j * config.headDim + d) * dtypeSize config.dtype + k := by
  have hnonneg : 0 ≤ (j * config.headDim + d) * dtypeSize config.dtype + (k : Int) := by
    have hrow := add_nonneg (mul_nonneg hj.1 hp.headDim.le) hd.1
    have := mul_nonneg hrow (Int.natCast_nonneg (dtypeSize config.dtype))
    omega
  have hlt : (j * config.headDim + d) * dtypeSize config.dtype + (k : Int) <
      config.blockBytes n := by
    rw [config.blockBytes_eq hp hb.fits hr hn hle, KVCacheConfig.tokenBytes, ← mul_assoc]
    exact mul_add_lt (mul_add_lt hj.2 hd.2 hp.headDim.le) (by omega) (by omega)
  exact ⟨_, (Int.toNat_lt hnonneg).mpr hlt, Int.toNat_of_nonneg hnonneg⟩

/-- Where a byte of the input is, from the address that its row is read at. -/
theorem Source.byte_eq (hp : config.Positive) (hb : BufferOf config h dst)
    (hs : Source config h src n) (hn : 0 < n) (hle : n ≤ config.maxSeqLen) {r : ℕ}
    (hr : r < config.rows) {g : Int} (hrow : (r : Int) = b * config.numKvHeads + g) {m : ℕ}
    (hm : (m : Int) = (j * config.headDim + d) * dtypeSize config.dtype + k) :
    config.srcAt src n r + m = src.addr [b, g, j, d] * dtypeSize config.dtype + k := by
  rw [(hs.srcAt_eq hp hb hr hn hle).1, TensorImpl.addr, hs.strides, KVCacheConfig.inputShape,
    dot_four, hm, hrow]
  ring

theorem writeInplace_ok {pos : Int} (hp : config.Positive) (hb : BufferOf config h dst)
    (hs : Source config h src n) (hn : 0 ≤ n) (hpos : 0 ≤ pos) (hle : pos + n ≤ config.maxSeqLen)
    (hapart : ReadsApart config dst src n pos) :
    ∃ h', config.writeInplace dst src n pos h = (.ok (), h') ∧
      BufferWritten config h h' dst src n pos := by
  rcases hn.eq_or_lt with rfl | hn'
  · have hblock : config.blockBytes 0 = 0 := by
      rw [KVCacheConfig.blockBytes, zero_mul, zero_mul]
      rfl
    refine ⟨h, ?_, rfl, rfl, fun _ _ => rfl, fun b g i d _ => ?_, fun _ _ _ _ _ _ _ _ => rfl⟩
    · apply access_of_some
      rw [hblock, copyRows_zero]
    · rw [if_neg (by omega)]
  obtain ⟨h', hcopy, hcopied⟩ := copyRows_ok
    (fun r hr => hb.inside hp hr hpos hn hle)
    (fun r hr => hs.inside hp hb hr hn' (by omega))
    (fun r hr r' hr' => hb.rows_ordered hp hn' hpos hle hr hr') hapart
  refine ⟨h', access_of_some hcopy, hcopied.next_eq, hcopied.size_eq, hcopied.others, ?_, ?_⟩
  · intro b g i d hidx
    obtain ⟨r, hr, hrow, haddr⟩ := hb.addr_eq hp hidx
    obtain ⟨-, -, hi, hd, -⟩ : (0 ≤ b ∧ b < config.batchSize) ∧
        (0 ≤ g ∧ g < config.numKvHeads) ∧ (0 ≤ i ∧ i < config.maxSeqLen) ∧
        (0 ≤ d ∧ d < config.headDim) ∧ True := by
      simpa [KVCacheConfig.cacheShape] using hidx
    have hdst : dst.dtype = config.dtype := (TensorImpl.allocate_ok hb.allocated).2.2.2.2.2.2.2.1
    split
    next hin =>
      apply elementBytes_eq (hdst.trans hs.dtype.symm)
      intro k hk
      rw [hs.dtype] at hk ⊢
      obtain ⟨m, hm, hplace⟩ := hb.place hp hr hn (by omega)
        (⟨by omega, by omega⟩ : 0 ≤ i - pos ∧ i - pos < n) hd hk
      have hto : config.dstAt dst pos r + m = dst.addr [b, g, i, d] * dtypeSize config.dtype + k := by
        rw [hb.dstAt_eq hp hr hpos (by omega), haddr, hplace, KVCacheConfig.tokenBytes]
        ring
      rw [← hto, ← hs.byte_eq hp hb hn' (by omega) hr hrow hplace]
      exact hcopied.row r hr m hm
    next hout =>
      apply elementBytes_eq rfl
      intro k hk
      rw [hdst] at hk ⊢
      apply hcopied.outside
      intro r' hr'
      rw [haddr]
      exact hb.outside hp hn' hpos hle hr' hi hd hk hout
  · intro other hother haway b g j d hidx
    obtain ⟨hbatch, hhead, hj, hd, -⟩ : (0 ≤ b ∧ b < config.batchSize) ∧
        (0 ≤ g ∧ g < config.numKvHeads) ∧ (0 ≤ j ∧ j < n) ∧
        (0 ≤ d ∧ d < config.headDim) ∧ True := by
      simpa [KVCacheConfig.inputShape] using hidx
    obtain ⟨r, hr, hrow⟩ := hb.row_of hp hbatch hhead
    apply elementBytes_eq rfl
    intro k hk
    rw [hother.dtype] at hk ⊢
    obtain ⟨m, hm, hplace⟩ := hb.place hp hr hn (by omega) hj hd hk
    rw [← hother.byte_eq hp hb hn' (by omega) hr hrow hplace]
    exact hcopied.source hm fun r' hr' => haway r' hr' r hr

end Tenzor
