import Tenzor.Nn.Safetensors
import Mathlib.Data.List.DropRight

/-!
# Parsing a header that was written

The parser takes every field, every tensor and the whole header back, for names of any bytes
but the reserved one.
-/

namespace Tenzor.Nn

open Throwing Wire Wrap64 Scanner Tenzor.Lite List
open Prod (fst)

namespace SafeTensors

variable {size : ℕ} {rest : List UInt8} {c : UInt8} {d : Int} {P : List UInt8 → Prop}
  {sep s : List UInt8} {shape : List Int} {e : (Text × TensorImpl) × ℕ × ℕ}
  {x : Text × (TensorMeta → TensorMeta)} {β : Type} {metas : List (Text × TensorMeta)}

theorem dropWhile_isSpace (h : Starts (isSpace · = false) rest) : rest.dropWhile isSpace = rest := by
  obtain ⟨c, tail, rfl, hc⟩ := h
  rw [dropWhile_cons, hc]
  rfl

theorem scans_skipWs : Scans (Starts (isSpace · = false)) skipWs [] () := by
  intro rest h
  rw [nil_append, skipWs, dropWhile_isSpace h]

theorem reads_expect (h : isSpace c = false) : Reads (expectByte size c) [c] () := by
  intro rest
  have hdrop : ([c] ++ rest).dropWhile isSpace = c :: rest := dropWhile_isSpace (starts_cons h)
  simp only [expectByte, hdrop, head?_cons, if_true, tail_cons]

theorem scans_peek (c : UInt8) : Scans (Starts (· = c)) peek [] (some c) := by
  rintro _ ⟨d, tail, rfl, rfl⟩
  rfl

theorem stringBody_quote (rest : List UInt8) : stringBody (34 :: rest) = ([], 34 :: rest) := by
  cases rest <;> simp [stringBody]

theorem stringBody_escaped (c : UInt8) (rest : List UInt8) :
    stringBody (92 :: c :: rest) = (unescape c :: (stringBody rest).1, (stringBody rest).2) := by
  rfl

theorem stringBody_plain (hquote : c ≠ 34) (hslash : c ≠ 92) (rest : List UInt8) :
    stringBody (c :: rest) = (c :: (stringBody rest).1, (stringBody rest).2) := by
  cases rest <;> simp [stringBody, hquote, hslash]

theorem stringBody_escapeChar (c : UInt8) (rest : List UInt8) :
    stringBody (escapeChar c ++ rest) = (c :: (stringBody rest).1, (stringBody rest).2) := by
  unfold escapeChar
  split_ifs with hquote hslash hline hreturn htab
  · rw [hquote]
    exact stringBody_escaped 34 rest
  · rw [hslash]
    exact stringBody_escaped 92 rest
  · rw [hline]
    exact stringBody_escaped 110 rest
  · rw [hreturn]
    exact stringBody_escaped 114 rest
  · rw [htab]
    exact stringBody_escaped 116 rest
  · exact stringBody_plain hquote hslash rest

/-- Escaping is undone, up to the quote that closes the string. -/
theorem stringBody_escape (s : Text) (rest : List UInt8) :
    stringBody (escapeJsonString s ++ 34 :: rest) = (s, 34 :: rest) := by
  induction s with
  | nil => exact stringBody_quote rest
  | cons c s ih =>
    rw [escapeJsonString, flatMap_cons, ← escapeJsonString, append_assoc,
      stringBody_escapeChar, ih]

theorem reads_string (s : Text) : Reads (parseString size) (quoted (escapeJsonString s)) s := by
  intro rest
  have hopen : expectByte size 34 ([34] ++ (escapeJsonString s ++ 34 :: rest)) =
      .ok ((), escapeJsonString s ++ 34 :: rest) := reads_expect (by decide) _
  have hclose : expectByte size 34 ([34] ++ rest) = .ok ((), rest) := reads_expect (by decide) _
  have hbytes : quoted (escapeJsonString s) ++ rest =
      [34] ++ (escapeJsonString s ++ 34 :: rest) := by
    rw [quoted, cons_append, append_assoc]
    rfl
  rw [hbytes, parseString, Wire.bind_eq_ok]
  refine ⟨(), _, hopen, ?_⟩
  rw [Wire.bind_eq_ok]
  refine ⟨s, 34 :: rest, congrArg Except.ok (stringBody_escape s rest), ?_⟩
  rw [Wire.bind_eq_ok]
  exact ⟨(), rest, hclose, rfl⟩

theorem isDigit_iff (c : UInt8) : isDigit c = true ↔ 48 ≤ c.toNat ∧ c.toNat ≤ 57 := by
  rw [isDigit, Bool.and_eq_true, decide_eq_true_eq, decide_eq_true_eq]
  exact Iff.rfl

/-- A digit is no space, no minus sign, no comma and no bracket. -/
theorem of_isDigit (h : isDigit c = true) : isSpace c = false ∧ c ≠ 45 ∧ c ≠ 44 ∧ c ≠ 93 := by
  rw [isDigit_iff] at h
  simp only [isSpace, Bool.or_eq_false_iff, Bool.and_eq_false_iff, decide_eq_false_iff_not,
    UInt8.le_iff_toNat_le, ne_eq, ← UInt8.toNat_inj]
  simp
  omega

theorem starts_decimal (n : ℕ) : Starts (isDigit · = true) (decimal n) := by
  obtain ⟨c, tail, heq⟩ := exists_cons_of_ne_nil (decimal_ne_nil n)
  exact ⟨c, tail, heq, isDigit_of_mem (heq ▸ mem_cons_self)⟩

theorem scans_number {n : ℕ} (h : (n : Int) ≤ int64Max) :
    Scans (Starts (isDigit · = false)) parseNumber (decimal n) n := by
  intro rest hrest
  have hstart := (starts_decimal n).append rest
  obtain ⟨htake, hdrop⟩ := span_decimal n hrest
  have hminus : skipMinus (decimal n ++ rest) = .ok (false, decimal n ++ rest) := by
    obtain ⟨c, tail, heq, hc⟩ := hstart
    rw [heq]
    exact if_neg fun hsome => (of_isDigit hc).2.1 (Option.some.inj hsome)
  have hvalue : stoll false (decimal n) = .ok (n : Int) := by
    have hin : InInt64 (n : Int) := ⟨by simp only [int64Min]; omega, h⟩
    simp only [stoll, if_neg (decimal_ne_nil n), digitsValue_decimal, Bool.false_eq_true, if_false,
      if_pos hin]
    rfl
  rw [parseNumber, Wire.bind_eq_ok]
  refine ⟨(), _, scans_skipWs _ (hstart.mono fun c hc => (of_isDigit hc).1), ?_⟩
  rw [Wire.bind_eq_ok]
  refine ⟨false, _, hminus, ?_⟩
  rw [Wire.bind_eq_ok]
  refine ⟨decimal n, rest, ?_, ?_⟩
  · rw [digitChars, htake, hdrop]
  · rw [hvalue]
    rfl

/-- Nothing is skipped before the byte that ends a sequence. -/
theorem scans_afterItem_last :
    Scans (Starts fun c => isSpace c = false ∧ c ≠ 44) afterItem [] () := by
  rintro _ ⟨c, tail, rfl, hc, hne⟩
  have hskip := scans_skipWs (c :: tail) (starts_cons hc)
  have hcomma : skipComma (c :: tail) = .ok ((), c :: tail) := by
    rw [skipComma, head?_cons, if_neg fun h => hne (Option.some.inj h)]
  rw [afterItem, Wire.bind_eq_ok]
  refine ⟨(), _, hskip, ?_⟩
  rw [Wire.bind_eq_ok]
  exact ⟨(), _, hcomma, hskip⟩

theorem scans_afterItem_comma : Scans (Starts (isSpace · = false)) afterItem [44] () := by
  intro rest hrest
  rw [afterItem, Wire.bind_eq_ok]
  refine ⟨(), _, scans_skipWs _ (starts_cons (by decide)), ?_⟩
  rw [Wire.bind_eq_ok]
  exact ⟨(), rest, rfl, scans_skipWs rest hrest⟩

theorem decimalInt_of_nonneg (h : 0 ≤ d) : decimalInt d = decimal d.toNat :=
  if_neg (Int.not_lt.mpr h)

theorem foldl_concat (dims shape : List Int) :
    shape.foldl (fun dims d => dims ++ [d]) dims = dims ++ shape := by
  induction shape generalizing dims with
  | nil => exact (append_nil dims).symm
  | cons d shape ih => rw [foldl_cons, ih, append_assoc, singleton_append]

theorem scans_dim (hnn : 0 ≤ d) (hsize : d ≤ int64Max) (hsep : Scans P afterItem sep ())
    (hnext : ∀ rest, P rest → Starts (isDigit · = false) (sep ++ rest)) (dims : List Int) :
    Scans P (do
      let n ← parseNumber
      afterItem
      pure (dims ++ [n])) (decimalInt d ++ sep) (dims ++ [d]) := by
  have hcast : ((d.toNat : ℕ) : Int) = d := Int.toNat_of_nonneg hnn
  have hnumber : Scans (Starts (isDigit · = false)) parseNumber (decimalInt d) d := by
    exact hcast ▸ scans_number (hcast.symm ▸ hsize)
  exact hnumber.bind (hsep.map fun _ => dims ++ [d]) hnext

theorem starts_joined (hnn : ∀ d ∈ shape, 0 ≤ d) (rest : List UInt8) :
    Starts (isSpace · = false) (joined 44 decimalInt shape ++ 93 :: rest) := by
  match shape with
  | [] => exact starts_cons (by decide)
  | [d] =>
    rw [joined, decimalInt_of_nonneg (hnn d mem_cons_self)]
    exact ((starts_decimal _).append _).mono fun c hc => (of_isDigit hc).1
  | d :: e :: shape =>
    rw [joined, decimalInt_of_nonneg (hnn d mem_cons_self), append_assoc]
    exact ((starts_decimal _).append _).mono fun c hc => (of_isDigit hc).1

theorem reads_parseShape (hnn : ∀ d ∈ shape, 0 ≤ d) (hsize : ∀ d ∈ shape, d ≤ int64Max)
    (dims : List Int) :
    Reads (parseShape size dims) (91 :: (joined 44 decimalInt shape ++ [93])) (dims ++ shape) := by
  have hloop : Scans (Starts (· = 93)) (whileNot 93 noProgress (fun dims => do
      let n ← parseNumber
      afterItem
      pure (dims ++ [n])) dims) (joined 44 decimalInt shape) (dims ++ shape) := by
    rw [← foldl_concat]
    refine scans_whileNot (F := (isDigit · = true)) (fun d hd => ?_)
      (fun c hc => (of_isDigit hc).2.2.2) (fun d hd dims => ?_) (fun d hd dims => ?_) dims
    · rw [decimalInt_of_nonneg (hnn d hd)]
      exact starts_decimal _
    · refine scans_dim (hnn d hd) (hsize d hd) (scans_afterItem_comma.mono ?_) ?_ dims
      · exact fun rest hrest => hrest.mono fun c hc => (of_isDigit hc).1
      · exact fun rest _ => starts_cons (by decide)
    · have hlast := scans_dim (P := Starts (· = 93)) (hnn d hd) (hsize d hd)
        (scans_afterItem_last.mono ?_) ?_ dims
      · rwa [append_nil] at hlast
      · exact fun rest hrest => hrest.mono fun c hc => by rw [hc]; decide
      · exact fun rest hrest => hrest.mono fun c hc => by rw [hc]; decide
  have hall : Scans (fun _ => True) (parseShape size dims)
      ([91] ++ (joined 44 decimalInt shape ++ [93])) (dims ++ shape) := by
    refine Scans.of_reads (reads_expect (by decide)) (Scans.bind_nil scans_skipWs ?_ ?_)
    · refine hloop.bind (.last ?_) fun rest _ => starts_cons rfl
      exact (reads_expect (by decide)).map fun _ => dims ++ shape
    · intro rest _
      rw [append_assoc]
      exact starts_joined hnn rest
  exact hall.reads

theorem reads_parseOffsets {start stop : ℕ} (hstart : (start : Int) ≤ int64Max)
    (hstop : (stop : Int) ≤ int64Max) :
    Reads (parseOffsets size) (91 :: (decimal start ++ 44 :: (decimal stop ++ [93])))
      (start, stop) := by
  have hword : ∀ n : ℕ, (n : Int) ≤ int64Max →
      ((n : Int) % 18446744073709551616).toNat = n := fun n hn => by
    simp only [int64Max] at hn
    omega
  have hall : Scans (fun _ => True) (parseOffsets size)
      ([91] ++ (decimal start ++ ([44] ++ (decimal stop ++ [93])))) (start, stop) := by
    refine Scans.of_reads (reads_expect (by decide)) ?_
    refine (scans_number hstart).bind ?_ fun rest _ => starts_cons (by decide)
    refine Scans.of_reads (reads_expect (by decide)) ?_
    refine (scans_number hstop).bind (.last ?_) fun rest _ => starts_cons (by decide)
    rw [hword start hstart, hword stop hstop]
    exact (reads_expect (by decide)).map fun _ => (start, stop)
  exact hall.reads

/-! ## Fields -/

theorem reads_dtype (dtype : DType) :
    Reads (lift (stStringToDtype (dtypeToStString dtype))) [] dtype := by
  intro rest
  cases dtype <;> rfl

theorem escape_dtype (dtype : DType) :
    escapeJsonString (dtypeToStString dtype) = dtypeToStString dtype := by
  cases dtype <;> decide

/-- Numbers that the parser of a header reads back. -/
structure Printable (e : (Text × TensorImpl) × ℕ × ℕ) : Prop where
  nonneg : ∀ d ∈ e.1.2.shape, 0 ≤ d
  size_le : ∀ d ∈ e.1.2.shape, d ≤ int64Max
  start_le : (e.2.1 : Int) ≤ int64Max
  stop_le : (e.2.2 : Int) ≤ int64Max

/-- The fields of a tensor, each with what it stores. -/
def fields (e : (Text × TensorImpl) × ℕ × ℕ) : List (Text × (TensorMeta → TensorMeta)) :=
  [(quoted (ascii "dtype") ++ 58 :: quoted (dtypeToStString e.1.2.dtype),
      fun info => { info with dtype := e.1.2.dtype }),
    (quoted (ascii "shape") ++ 58 :: 91 :: (joined 44 decimalInt e.1.2.shape ++ [93]),
      fun info => { info with shape := info.shape ++ e.1.2.shape }),
    (quoted (ascii "data_offsets") ++ 58 :: 91 :: (decimal e.2.1 ++ 44 :: (decimal e.2.2 ++ [93])),
      fun info => { info with dataStart := e.2.1, dataEnd := e.2.2 })]

def metaOf (e : (Text × TensorImpl) × ℕ × ℕ) : TensorMeta :=
  ⟨e.1.2.dtype, e.1.2.shape, e.2.1, e.2.2⟩

theorem tensorJson_eq (e : (Text × TensorImpl) × ℕ × ℕ) :
    tensorJson e = quoted (escapeJsonString e.1.1) ++
      58 :: 123 :: (joined 44 fst (fields e) ++ [125]) := by
  have hopen : ascii ":\x7b" = [58, 123] := by decide
  have hclose : ascii "\x7d" = [125] := by decide
  have hcolon : ascii ":" = [58] := by decide
  have hcomma : ascii "," = [44] := by decide
  have hbracket : ascii ":[" = [58, 91] := by decide
  have hend : ascii "]" = [93] := by decide
  simp only [tensorJson, fields, joined, hopen, hclose, hcolon, hcomma, hbracket, hend,
    append_assoc, cons_append, nil_append]

theorem scans_field {key value : List UInt8} {info info' : TensorMeta}
    (hkey : escapeJsonString key = key) (hvalue : Reads (parseValue size key info) value info')
    (hsep : Scans P afterItem sep ()) :
    Scans P (parseField size info) ((quoted key ++ 58 :: value) ++ sep) info' := by
  have hstring : Reads (parseString size) (quoted key) key := by
    have h : Reads (parseString size) (quoted (escapeJsonString key)) key := reads_string key
    rwa [hkey] at h
  have hall : Scans P (parseField size info) (quoted key ++ ([58] ++ (value ++ sep))) info' :=
    Scans.of_reads hstring (Scans.of_reads (reads_expect (by decide))
      (Scans.of_reads hvalue (hsep.map fun _ => info')))
  rwa [append_assoc]

theorem scans_fields (he : Printable e) (hsep : Scans P afterItem sep ()) (hx : x ∈ fields e)
    (info : TensorMeta) : Scans P (parseField size info) (x.1 ++ sep) (x.2 info) := by
  simp only [fields, mem_cons, not_mem_nil, or_false] at hx
  rcases hx with rfl | rfl | rfl
  · refine scans_field (by decide) ?_ hsep
    have hstring : Reads (parseString size) _ _ := reads_string (dtypeToStString e.1.2.dtype)
    rw [escape_dtype] at hstring
    have hall : Reads (parseValue size (ascii "dtype") info)
        (quoted (dtypeToStString e.1.2.dtype) ++ []) { info with dtype := e.1.2.dtype } := by
      exact hstring.bind ((reads_dtype e.1.2.dtype).map fun dtype => { info with dtype })
    rwa [append_nil] at hall
  · refine scans_field (by decide) ?_ hsep
    exact (reads_parseShape he.nonneg he.size_le info.shape).map fun shape => { info with shape }
  · refine scans_field (by decide) ?_ hsep
    exact (reads_parseOffsets he.start_le he.stop_le).map fun r =>
      { info with dataStart := r.1, dataEnd := r.2 }

/-- The first key is that of the type. -/
theorem scans_firstKey (e : (Text × TensorImpl) × ℕ × ℕ) :
    Scans (fun rest => ∃ tail, rest = 123 :: (joined 44 fst (fields e) ++ tail))
      (firstKeyIsMetadata size) [] false := by
  rintro _ ⟨tail, rfl⟩
  have hstring : Reads (parseString size) _ _ := reads_string (ascii "dtype")
  have hkey : escapeJsonString (ascii "dtype") = ascii "dtype" := by decide
  rw [hkey] at hstring
  obtain ⟨more, hmore⟩ : ∃ more, joined 44 fst (fields e) ++ tail =
      quoted (ascii "dtype") ++ more := by
    exact ⟨_, rfl⟩
  have hinner : (quoted (ascii "dtype") ++ more).dropWhile isSpace =
      quoted (ascii "dtype") ++ more := dropWhile_isSpace (starts_cons (by decide))
  have hnot : ¬ (quoted (ascii "dtype") ++ more = [] ∨
      (quoted (ascii "dtype") ++ more).head? = some 125) := by
    rw [quoted]
    simp
  rw [nil_append, hmore]
  simp only [firstKeyIsMetadata, tail_cons, hinner, if_neg hnot, hstring more]
  rfl

theorem foldl_fields (e : (Text × TensorImpl) × ℕ × ℕ) :
    (fields e).foldl (fun info x => x.2 info) ({} : TensorMeta) = metaOf e := by
  simp only [fields, foldl_cons, foldl_nil, nil_append, metaOf]

theorem scans_isMetadata (hname : e.1.1 ≠ ascii "__metadata__") :
    Scans (fun rest => ∃ tail, rest = 123 :: (joined 44 fst (fields e) ++ tail))
      (objectIsMetadata size e.1.1 (some 123)) [] false := by
  rw [objectIsMetadata, if_neg hname]
  exact scans_firstKey e

theorem starts_fields (hx : x ∈ fields e) : Starts (· = 34) x.1 := by
  simp only [fields, mem_cons, not_mem_nil, or_false] at hx
  rcases hx with rfl | rfl | rfl <;> exact starts_cons rfl

theorem scans_entry (he : Printable e) (hname : e.1.1 ≠ ascii "__metadata__")
    (hsep : Scans P afterItem sep ()) (metas : List (Text × TensorMeta)) :
    Scans P (parseEntry size metas) (tensorJson e ++ sep) (Dict.assignEntry metas (e.1.1, metaOf e)) := by
  have hloop : Scans (Starts (· = 125)) (whileNot 125 noProgress (parseField size) {})
      (joined 44 fst (fields e)) (metaOf e) := by
    rw [← foldl_fields]
    refine scans_whileNot (F := (· = 34)) (fun x hx => starts_fields hx)
      (fun c hc => by rw [hc]; decide) (fun x hx info => ?_) (fun x hx info => ?_) _
    · refine scans_fields he (scans_afterItem_comma.mono fun rest hrest => ?_) hx info
      exact hrest.mono fun c hc => by rw [hc]; decide
    · have hlast : Scans (Starts (· = 125)) (parseField size info) _ _ := scans_fields he
        (scans_afterItem_last.mono fun rest hrest => hrest.mono fun c hc => by rw [hc]; decide)
        hx info
      rwa [append_nil] at hlast
  have hobject : Scans P (do
      expectByte size 123
      let info ← whileNot 125 noProgress (parseField size) {}
      expectByte size 125
      afterItem
      pure (Dict.assignEntry metas (e.1.1, info)))
      ([123] ++ (joined 44 fst (fields e) ++ ([125] ++ sep)))
      (Dict.assignEntry metas (e.1.1, metaOf e)) := by
    refine Scans.of_reads (reads_expect (by decide)) (hloop.bind ?_ fun rest _ => starts_cons rfl)
    exact Scans.of_reads (reads_expect (by decide)) (hsep.map fun _ => Dict.assignEntry metas (e.1.1, metaOf e))
  have hall : Scans P (parseEntry size metas) (quoted (escapeJsonString e.1.1) ++ ([58] ++
      ([123] ++ (joined 44 fst (fields e) ++ ([125] ++ sep)))))
      (Dict.assignEntry metas (e.1.1, metaOf e)) := by
    refine Scans.of_reads (reads_string e.1.1) (Scans.of_reads (reads_expect (by decide)) ?_)
    refine Scans.bind_nil scans_skipWs ?_ fun rest _ => starts_cons (by decide)
    refine Scans.bind_nil (scans_peek 123) ?_ fun rest _ => starts_cons rfl
    refine Scans.bind_nil (scans_isMetadata hname) hobject fun rest _ => ?_
    rw [append_assoc, append_assoc]
    exact ⟨_, rfl⟩
  rw [tensorJson_eq]
  simpa only [append_assoc, cons_append, nil_append] using hall

theorem starts_tensorJson (e : (Text × TensorImpl) × ℕ × ℕ) : Starts (· = 34) (tensorJson e) :=
  starts_cons rfl

/-- The entries of a header, in the order in which they are written. -/
def metasOf (entries : List ((Text × TensorImpl) × ℕ × ℕ)) : List (Text × TensorMeta) :=
  entries.map fun e => (e.1.1, metaOf e)

/-- A written header is parsed back. -/
theorem parseHeaderJson_of_printable {ordered : List (Text × TensorImpl)} {offsets : List ℕ}
    (hprint : ∀ e ∈ ordered.zip (regions offsets), Printable e)
    (hnames : ((ordered.zip (regions offsets)).map fun e => e.1.1).Nodup)
    (hmeta : ∀ e ∈ ordered.zip (regions offsets), e.1.1 ≠ ascii "__metadata__") :
    parseHeaderJson (buildHeaderJson ordered offsets) =
      .ok (metasOf (ordered.zip (regions offsets))) := by
  generalize hentries : ordered.zip (regions offsets) = entries at *
  have hmetas : entries.foldl (fun metas e => Dict.assignEntry metas (e.1.1, metaOf e)) [] =
      metasOf entries := by
    rw [← foldl_map (f := fun e => (e.1.1, metaOf e)) (g := Dict.assignEntry)]
    refine Dict.foldl_assignEntry (metasOf entries) [] ?_
    rwa [nil_append, metasOf, map_map]
  have hloop : ∀ size, Scans (Starts (· = 125))
      (whileNot 125 noProgress (parseEntry size) []) (joined 44 tensorJson entries)
      (metasOf entries) := by
    intro size
    rw [← hmetas]
    refine scans_whileNot (F := (· = 34)) (fun e _ => starts_tensorJson e)
      (fun c hc => by rw [hc]; decide) (fun e he metas => ?_) (fun e he metas => ?_) []
    · refine scans_entry (hprint e he) (hmeta e he)
        (scans_afterItem_comma.mono fun rest hrest => ?_) metas
      exact hrest.mono fun c hc => by rw [hc]; decide
    · have hlast : Scans (Starts (· = 125)) (parseEntry size metas) _ _ :=
        scans_entry (hprint e he) (hmeta e he)
        (scans_afterItem_last.mono fun rest hrest => hrest.mono fun c hc => by rw [hc]; decide)
        metas
      rwa [append_nil] at hlast
  have hstart : ∀ rest, Starts (isSpace · = false) (joined 44 tensorJson entries ++ 125 :: rest) := by
    intro rest
    match entries with
    | [] => exact starts_cons (by decide)
    | [e] => exact starts_cons (by decide)
    | e :: e' :: entries => exact starts_cons (by decide)
  have hopen : ascii "\x7b" = [123] := by decide
  have hclose : ascii "\x7d" = [125] := by decide
  have hall : ∀ size, Scans (Starts (· = 125)) (parseHeader size)
      ([123] ++ joined 44 tensorJson entries) (metasOf entries) := by
    intro size
    refine Scans.bind_nil scans_skipWs ?_ fun rest _ => starts_cons (by decide)
    refine Scans.of_reads (reads_expect (by decide)) (Scans.bind_nil scans_skipWs (hloop size) ?_)
    rintro _ ⟨c, tail, rfl, rfl⟩
    exact hstart tail
  have hjson : buildHeaderJson ordered offsets = [123] ++ joined 44 tensorJson entries ++ [125] := by
    rw [buildHeaderJson, hentries, hopen, hclose, append_assoc]
  rw [hjson, parseHeaderJson, hall _ _ (starts_cons rfl)]
  rfl

/-! ## Progress -/

theorem takes_expect (c : UInt8) : Takes (expectByte size c) := by
  intro s u s' h
  simp only [expectByte] at h
  split at h
  next hhead =>
    obtain ⟨-, rfl⟩ := Prod.mk.inj (Except.ok.inj h)
    have hle : (s.dropWhile isSpace).length ≤ s.length := (dropWhile_suffix isSpace).length_le
    obtain ⟨tail, heq⟩ := head?_eq_some_iff.mp hhead
    rw [heq] at hle
    rw [heq]
    exact hle
  next => cases h

theorem keeps_skipWs : Keeps skipWs := by
  intro s u s' h
  obtain ⟨-, rfl⟩ := Prod.mk.inj (Except.ok.inj h)
  exact (dropWhile_suffix isSpace).length_le

theorem keeps_lift {α : Type} (x : Except Exn α) : Keeps (lift x) := by
  intro s a s' h
  simp only [lift, Throwing.bind_eq_ok] at h
  obtain ⟨b, -, h⟩ := h
  obtain ⟨-, rfl⟩ := Prod.mk.inj (Except.ok.inj h)
  exact le_rfl

theorem length_stringBody_le (s : List UInt8) : (stringBody s).2.length ≤ s.length := by
  fun_induction stringBody s with
  | case1 => exact le_rfl
  | case2 => exact le_rfl
  | case3 => exact Nat.zero_le _
  | case4 _ _ _ r ih =>
    rw [length_cons, length_cons]
    exact ih.trans (by omega)
  | case5 _ _ _ _ r ih =>
    rw [length_cons]
    exact ih.trans (by omega)

theorem takes_string : Takes (parseString size) := by
  refine (takes_expect 34).bind fun _ => Keeps.bind ?_ fun s =>
    (takes_expect 34).keeps.bind fun _ => Keeps.pure s
  intro s a s' h
  obtain ⟨-, rfl⟩ := Prod.mk.inj (Except.ok.inj h)
  exact length_stringBody_le s

theorem keeps_afterItem : Keeps afterItem := by
  refine keeps_skipWs.bind fun _ => Keeps.bind ?_ fun _ => keeps_skipWs
  intro s u s' h
  obtain ⟨-, rfl⟩ := Prod.mk.inj (Except.ok.inj h)
  split
  · exact (tail_suffix s).length_le
  · exact le_rfl

/-- A number that is read has a digit. -/
theorem takes_number : Takes parseNumber := by
  intro s n s' h
  simp only [parseNumber, Wire.bind_eq_ok] at h
  obtain ⟨_, s₁, hskip, negative, s₂, hminus, digits, s₃, hdigits, hvalue⟩ := h
  have h₁ := keeps_skipWs _ _ _ hskip
  have h₂ : s₂.length ≤ s₁.length := by
    unfold skipMinus at hminus
    split at hminus
    · obtain ⟨-, rfl⟩ := Prod.mk.inj (Except.ok.inj hminus)
      exact (tail_suffix s₁).length_le
    · obtain ⟨-, rfl⟩ := Prod.mk.inj (Except.ok.inj hminus)
      exact le_rfl
  obtain ⟨rfl, rfl⟩ := Prod.mk.inj (Except.ok.inj hdigits)
  simp only [lift, Throwing.bind_eq_ok] at hvalue
  obtain ⟨m, hstoll, hend⟩ := hvalue
  obtain ⟨-, rfl⟩ := Prod.mk.inj (Except.ok.inj hend)
  have hne : s₂.takeWhile isDigit ≠ [] := by
    intro hnil
    simp only [stoll, hnil, if_true] at hstoll
    cases hstoll
  have hpos := length_pos_iff.mpr hne
  have hsum := congrArg List.length (takeWhile_append_dropWhile (p := isDigit) (l := s₂))
  rw [length_append] at hsum
  omega

theorem takes_dim (dims : List Int) : Takes (do
    let n ← parseNumber
    afterItem
    pure (dims ++ [n])) :=
  takes_number.bind fun n => keeps_afterItem.bind fun _ => Keeps.pure (dims ++ [n])

theorem keeps_value (key : Text) (info : TensorMeta) : Keeps (parseValue size key info) := by
  unfold parseValue
  split_ifs
  · exact takes_string.keeps.bind fun s => (keeps_lift _).bind fun dtype => Keeps.pure _
  · refine Keeps.bind ?_ fun shape => Keeps.pure _
    refine (takes_expect 91).keeps.bind fun _ => keeps_skipWs.bind fun _ => ?_
    refine (keeps_whileNot (fun dims => (takes_dim dims).keeps) info.shape).bind fun shape => ?_
    exact (takes_expect 93).keeps.bind fun _ => Keeps.pure shape
  · refine Keeps.bind ?_ fun r => Keeps.pure _
    refine (takes_expect 91).keeps.bind fun _ => takes_number.keeps.bind fun start => ?_
    refine (takes_expect 44).keeps.bind fun _ => takes_number.keeps.bind fun stop => ?_
    exact (takes_expect 93).keeps.bind fun _ => Keeps.pure _
  · exact Keeps.pure info

theorem takes_field (info : TensorMeta) : Takes (parseField size info) :=
  takes_string.bind fun key => (takes_expect 58).keeps.bind fun _ =>
    (keeps_value key info).bind fun info => keeps_afterItem.bind fun _ => Keeps.pure info

theorem length_afterObject_le (depth : Int) (s : List UInt8) :
    (afterObject depth s).length ≤ s.length := by
  induction s generalizing depth with
  | nil => exact le_rfl
  | cons c s ih =>
    rw [afterObject]
    split_ifs
    · exact (ih _).trans (Nat.le_succ _)
    · exact Nat.le_succ _
    · exact (ih _).trans (Nat.le_succ _)
    · exact (ih _).trans (Nat.le_succ _)

theorem keeps_firstKey : Keeps (firstKeyIsMetadata size) := by
  intro s b s' h
  simp only [firstKeyIsMetadata] at h
  split at h
  · obtain ⟨-, rfl⟩ := Prod.mk.inj (Except.ok.inj h)
    exact le_rfl
  · obtain ⟨r, -, h⟩ := Throwing.bind_eq_ok.mp h
    obtain ⟨-, rfl⟩ := Prod.mk.inj (Except.ok.inj h)
    exact le_rfl

theorem keeps_isMetadata (name : Text) (next : Option UInt8) :
    Keeps (objectIsMetadata size name next) := by
  unfold objectIsMetadata
  split_ifs
  · exact Keeps.pure false
  · exact Keeps.pure true
  · exact keeps_firstKey

theorem takes_entry (metas : List (Text × TensorMeta)) : Takes (parseEntry size metas) := by
  refine takes_string.bind fun name => (takes_expect 58).keeps.bind fun _ => ?_
  refine keeps_skipWs.bind fun _ => Keeps.bind ?_ fun next =>
    (keeps_isMetadata name next).bind fun isMetadata => ?_
  · intro s a s' h
    obtain ⟨-, rfl⟩ := Prod.mk.inj (Except.ok.inj h)
    exact le_rfl
  · split_ifs
    · refine Keeps.bind ?_ fun _ => keeps_afterItem.bind fun _ => Keeps.pure metas
      intro s u s' h
      obtain ⟨-, rfl⟩ := Prod.mk.inj (Except.ok.inj h)
      exact length_afterObject_le 0 s
    · refine (takes_expect 123).keeps.bind fun _ => ?_
      refine (keeps_whileNot (fun info => (takes_field info).keeps) {}).bind fun info => ?_
      exact (takes_expect 125).keeps.bind fun _ => keeps_afterItem.bind fun _ => Keeps.pure _

/-- The loops of the parser end before their bounds do: neither a larger bound nor the error of
a spent one makes a difference. -/
theorem loops_end (stuck : Exn) (extra : ℕ) :
    (∀ dims, loopUntil 93 stuck (fun dims => do
        let n ← parseNumber
        afterItem
        pure (dims ++ [n])) (s.length + extra) dims s =
      whileNot 93 noProgress (fun dims => do
        let n ← parseNumber
        afterItem
        pure (dims ++ [n])) dims s) ∧
    (∀ info, loopUntil 125 stuck (parseField size) (s.length + extra) info s =
      whileNot 125 noProgress (parseField size) info s) ∧
    ∀ metas, loopUntil 125 stuck (parseEntry size) (s.length + extra) metas s =
      whileNot 125 noProgress (parseEntry size) metas s :=
  have hle : s.length ≤ s.length + extra := Nat.le_add_right _ _
  ⟨fun dims => loopUntil_fuel takes_dim dims hle le_rfl,
    fun info => loopUntil_fuel takes_field info hle le_rfl,
    fun metas => loopUntil_fuel takes_entry metas hle le_rfl⟩

theorem assign_keys {metas : List (Text × β)} {e : Text × β} {name : Text}
    (h : name ∈ (Dict.assignEntry metas e).map fst) : name ∈ metas.map fst ∨ name = e.1 := by
  obtain ⟨x, hx, rfl⟩ := mem_map.mp h
  exact (Dict.mem_of_assignEntry hx).imp mem_map_of_mem (congrArg fst)

/-- An object under the reserved name is metadata, and nothing else can stand there. -/
theorem isMetadata_of_name {isMetadata : Bool} {s' s'' : List UInt8} (hs : s.dropWhile isSpace = s)
    (hkind : objectIsMetadata size (ascii "__metadata__") s.head? s = .ok (isMetadata, s'))
    (hopen : isMetadata = false → expectByte size 123 s' = .ok ((), s'')) : isMetadata = true := by
  unfold objectIsMetadata at hkind
  rw [if_pos rfl] at hkind
  split at hkind
  next hhead =>
    obtain ⟨rfl, rfl⟩ := Prod.mk.inj (Except.ok.inj hkind)
    have hnone := hopen rfl
    simp only [expectByte, hs, if_neg hhead] at hnone
    cases hnone
  next =>
    obtain ⟨rfl, -⟩ := Prod.mk.inj (Except.ok.inj hkind)
    rfl

/-- No tensor is read under the reserved name. -/
theorem returns_entry (hmetas : ascii "__metadata__" ∉ metas.map fst) :
    Returns (parseEntry size metas) fun metas => ascii "__metadata__" ∉ metas.map fst := by
  intro s metas' s' h
  simp only [parseEntry, Wire.bind_eq_ok] at h
  obtain ⟨name, s₁, -, _, s₂, -, _, s₃, hskip, next, s₄, hpeek, isMetadata, s₅, hkind, h⟩ := h
  obtain ⟨-, rfl⟩ := Prod.mk.inj (Except.ok.inj hskip)
  obtain ⟨rfl, rfl⟩ := Prod.mk.inj (Except.ok.inj hpeek)
  split at h
  · simp only [Wire.bind_eq_ok] at h
    obtain ⟨_, s₆, -, _, s₇, -, h⟩ := h
    obtain ⟨rfl, -⟩ := Prod.mk.inj (Except.ok.inj h)
    exact hmetas
  next hnot =>
    simp only [Wire.bind_eq_ok] at h
    obtain ⟨_, s₆, hopen, info, s₇, -, _, s₈, -, _, s₉, -, h⟩ := h
    obtain ⟨rfl, -⟩ := Prod.mk.inj (Except.ok.inj h)
    intro hmem
    rcases assign_keys hmem with hmem | rfl
    · exact hmetas hmem
    · exact hnot (isMetadata_of_name (dropWhile_idempotent _ _) hkind fun _ => hopen)

theorem reserved_notMem {json : Text} (h : parseHeaderJson json = .ok metas) :
    ascii "__metadata__" ∉ metas.map fst := by
  rw [parseHeaderJson, Throwing.bind_eq_ok] at h
  obtain ⟨r, hr, h⟩ := h
  obtain rfl := pure_eq_ok.mp h
  have hall : Returns (parseHeader json.length)
      fun metas => ascii "__metadata__" ∉ metas.map fst := by
    refine (returns_true _).bind fun _ _ => (returns_true _).bind fun _ _ => ?_
    refine (returns_true _).bind fun _ _ => ?_
    exact returns_whileNot (fun metas hmetas => returns_entry hmetas) not_mem_nil
  exact hall _ _ _ hr

end SafeTensors

end Tenzor.Nn
