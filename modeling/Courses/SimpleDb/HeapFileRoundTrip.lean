import Courses.SimpleDb.HeapFileEncoder
import Mathlib.Data.List.ReduceOption

/-!
# Heap files read back

The file that `HeapFileEncoder` writes for integer tuples is the data of heap pages that
hold these tuples in order: full pages, then one with the rest.
-/
namespace Courses.SimpleDb

open Courses.Lib

/-! ## Numbers -/

/-- A character of the text of a number. -/
def Plain (c : UInt16) : Prop :=
  c ≠ comma ∧ c ≠ newline ∧ c ≠ carriageReturn ∧ 32 < c

theorem toNat_digitChar {d : ℕ} (h : d < 10) : (UInt16.ofNat (48 + d)).toNat = 48 + d :=
  UInt16.toNat_ofNat_of_lt' (show 48 + d < 2 ^ 16 by omega)

theorem digit_digitChar {d : ℕ} (h : d < 10) : digit (.ofNat (48 + d)) = some d := by
  have hrange : 48 ≤ 48 + d ∧ 48 + d < 58 := by omega
  rw [digit, toNat_digitChar h, if_pos hrange, Nat.add_sub_cancel_left]

theorem plain_digitText {n : ℕ} {c : UInt16} (h : c ∈ digitText n) : Plain c ∧ c ≠ minusSign ∧
    c ≠ plusSign := by
  obtain ⟨d, hd, rfl⟩ := List.mem_map.1 h
  have hlt := lt_of_mem_decimal hd
  have hnat := toNat_digitChar hlt
  have hne : ∀ x : UInt16, x.toNat < 48 → UInt16.ofNat (48 + d) ≠ x := by
    rintro x hx rfl
    omega
  refine ⟨⟨hne _ (by decide), hne _ (by decide), hne _ (by decide), ?_⟩, hne _ (by decide),
    hne _ (by decide)⟩
  rw [UInt16.lt_iff_toNat_lt, hnat]
  change 32 < 48 + d
  omega

theorem plain_valueOf {v : UInt32} {c : UInt16} (h : c ∈ valueOf v) : Plain c := by
  simp only [valueOf] at h
  split_ifs at h
  · obtain rfl | h := List.mem_cons.1 h
    · exact ⟨by decide, by decide, by decide, by decide⟩
    · exact (plain_digitText h).1
  · exact (plain_digitText h).1

theorem digitText_ne_nil (n : ℕ) : digitText n ≠ [] := by
  rw [digitText, ne_eq, List.map_eq_nil_iff]
  exact decimal_ne_nil n

theorem valueOf_ne_nil (v : UInt32) : valueOf v ≠ [] := by
  simp only [valueOf]
  split_ifs
  · exact List.cons_ne_nil _ _
  · exact digitText_ne_nil _

theorem mapM_digit (n : ℕ) : (digitText n).mapM digit = some (decimal n) := by
  have hall : ∀ ds : List ℕ, (∀ d ∈ ds, d < 10) →
      (ds.map fun d => UInt16.ofNat (48 + d)).mapM digit = some ds := by
    intro ds hds
    induction ds with
    | nil => rfl
    | cons d ds ih =>
      have hd := digit_digitChar (hds d (by simp))
      have hrest := ih fun x hx => hds x (List.mem_cons_of_mem d hx)
      rw [List.map_cons, List.mapM_cons, hd, hrest]
      rfl
  exact hall (decimal n) fun d hd => lt_of_mem_decimal hd

theorem parseInt_valueOf (v : UInt32) : parseInt (valueOf v) = some (intValue v) := by
  have hrange := intValue_range v
  obtain ⟨c, rest, htext⟩ := List.exists_cons_of_ne_nil (digitText_ne_nil (intValue v).natAbs)
  have hdigits := mapM_digit (intValue v).natAbs
  by_cases hneg : intValue v < 0
  · have hvalue : -((intValue v).natAbs : ℤ) = intValue v := by omega
    simp only [parseInt, valueOf, if_pos hneg, if_true, if_neg (digitText_ne_nil _), hdigits,
      bind, Option.bind, ofDecimal_decimal, hvalue, if_pos hrange]
  · have hvalue : ((intValue v).natAbs : ℤ) = intValue v := by omega
    have hsign := (plain_digitText (n := (intValue v).natAbs) (c := c) (by simp [htext])).2
    rw [htext] at hdigits
    simp only [parseInt, valueOf, if_neg hneg, htext, if_neg hsign.1, if_neg hsign.2,
      reduceCtorEq, if_false, hdigits, bind, Option.bind, ofDecimal_decimal, Bool.false_eq_true,
      hvalue, if_pos hrange]

theorem dropWhile_plain {s : List UInt16} (h : ∀ c ∈ s, Plain c) : s.dropWhile (· ≤ 32) = s := by
  cases s with
  | nil => rfl
  | cons c s =>
    have hc : ¬ c ≤ 32 := UInt16.not_le.2 (h c (by simp)).2.2.2
    rw [List.dropWhile_cons_of_neg (by simpa using hc)]

theorem trim_plain {s : List UInt16} (h : ∀ c ∈ s, Plain c) : trim s = s := by
  have hreverse : ∀ c ∈ s.reverse, Plain c := fun c hc => h c (List.mem_reverse.1 hc)
  rw [trim, dropWhile_plain h, dropWhile_plain hreverse, List.reverse_reverse]

theorem length_valueOf (v : UInt32) : (valueOf v).length ≤ 11 := by
  have hrange := intValue_range v
  have hdigits : (digitText (intValue v).natAbs).length ≤ 10 := by
    rw [digitText, List.length_map]
    exact length_decimal_le (by decide) (by omega)
  simp only [valueOf]
  split_ifs
  · rw [List.length_cons]
    omega
  · omega

/-- The field that was written is the field that is read. -/
theorem fieldBytes_valueOf (v : UInt32) :
    EncoderState.fieldBytes .intType (valueOf v) = Field.serialize (.intField v) := by
  have hbits : (intValue v % 2 ^ 32).toNat = v.toNat := by
    have hcond := BitVec.toInt_eq_toNat_cond v.toBitVec
    have hlt := v.toNat_lt
    simp only [UInt32.toNat_toBitVec] at hcond
    rw [intValue, hcond]
    split_ifs <;> omega
  simp only [EncoderState.fieldBytes, trim_plain fun c => plain_valueOf, parseInt_valueOf,
    Field.serialize, hbits]

/-! ## Lines of the text -/

namespace EncoderState

variable {p : PageLayout} {s : EncoderState}

/-- The characters of a number go to the buffer. -/
theorem readChars_plain {text : List UInt16} (h : ∀ c ∈ text, Plain c)
    (hlength : s.buf.length + text.length ≤ bufSize) :
    text.foldlM (readChar p) s = .ok { s with
      buf := s.buf ++ text
      first := if text = [] then s.first else false } := by
  induction text generalizing s with
  | nil => simp [pure, Except.pure]
  | cons c text ih =>
    obtain ⟨hcomma, hnewline, hreturn, -⟩ := h c (by simp)
    have hlt : s.buf.length < bufSize := by
      rw [List.length_cons] at hlength
      omega
    have hread : readChar p s c = .ok { s with buf := s.buf ++ [c], first := false } := by
      simp [readChar, hcomma, hnewline, hreturn, hlt]
    have hrest := ih (s := { s with buf := s.buf ++ [c], first := false })
      (fun x hx => h x (List.mem_cons_of_mem c hx)) (by simp at hlength ⊢; omega)
    rw [List.foldlM_cons, hread]
    simp only [bind, Except.bind, hrest]
    simp

/-- The characters of a number, read into an empty buffer. -/
theorem readChars_valueOf (v : UInt32) (hbuf : s.buf = []) :
    (valueOf v).foldlM (readChar p) s = .ok { s with buf := valueOf v, first := false } := by
  have hlength : s.buf.length + (valueOf v).length ≤ bufSize := by
    have hle := length_valueOf v
    rw [hbuf, List.length_nil, bufSize]
    omega
  rw [readChars_plain (fun c hc => plain_valueOf hc) hlength, hbuf, List.nil_append,
    if_neg (valueOf_ne_nil v)]

/-- The characters of a field and the comma after it. -/
theorem readChars_field (v : UInt32) (hbuf : s.buf = [])
    (htype : p.typeAr[s.fieldNo]? = some .intType) (hcount : (s.recordcount : ℤ) < p.nrecords) :
    (valueOf v ++ [comma]).foldlM (readChar p) s = .ok { s with
      page := s.page ++ Field.serialize (.intField v)
      fieldNo := s.fieldNo + 1
      first := false } := by
  have hflush : ∀ s' : EncoderState, s'.recordcount = s.recordcount → flush p false s' = s' := by
    intro s' hs'
    have hnot : ¬ p.nrecords ≤ (s.recordcount : ℤ) := not_le.2 hcount
    simp [flush, hs', hnot]
  have hcomma : comma ≠ carriageReturn ∧ comma ≠ newline := by decide
  rw [List.foldlM_append, readChars_valueOf v hbuf]
  simp only [bind, Except.bind, List.foldlM_cons, List.foldlM_nil, readChar, endField, if_neg hcomma.1,
    hcomma.2, false_and, if_false, true_or, if_true, htype, Except.map, fieldBytes_valueOf,
    hflush, hbuf]
  rfl

/-- The characters of the last field and the end of the line. -/
theorem readChars_last (v : UInt32) (hbuf : s.buf = [])
    (htype : p.typeAr[s.fieldNo]? = some .intType) :
    (valueOf v ++ [newline]).foldlM (readChar p) s = .ok (flush p false { s with
      page := s.page ++ Field.serialize (.intField v)
      fieldNo := 0
      recordcount := s.recordcount + 1
      first := true }) := by
  have hnewline : newline ≠ carriageReturn := by decide
  rw [List.foldlM_append, readChars_valueOf v hbuf]
  simp only [bind, Except.bind, List.foldlM_cons, List.foldlM_nil, readChar, endField,
    if_neg hnewline, true_and, Bool.false_eq_true, if_false, or_true, if_true, htype, Except.map,
    fieldBytes_valueOf, hbuf]
  rfl

/-- The bytes of a row of numbers. -/
def rowBytes (vs : List UInt32) : List UInt8 := vs.flatMap fun v => Field.serialize (.intField v)

/-- A line of the text is a row of the page. -/
theorem readChars_line {numFields : ℕ} (htypes : p.typeAr = List.replicate numFields .intType)
    (tuple : List UInt32) {vs : List UInt32} (hne : vs ≠ []) (hfields : s.fieldNo + vs.length = numFields)
    (hbuf : s.buf = []) (hcount : (s.recordcount : ℤ) < p.nrecords) :
    ∃ line, writeTuple numFields tuple s.fieldNo vs = .ok line ∧
      (line ++ [newline]).foldlM (readChar p) s = .ok (flush p false { s with
        page := s.page ++ rowBytes vs
        fieldNo := 0
        recordcount := s.recordcount + 1
        first := true }) := by
  induction vs generalizing s with
  | nil => exact absurd rfl hne
  | cons v vs ih =>
    rw [List.length_cons] at hfields
    have htype : p.typeAr[s.fieldNo]? = some .intType := by
      rw [htypes, List.getElem?_replicate, if_pos (by omega)]
    have hbound : ¬ s.fieldNo + 1 > numFields := by omega
    cases vs with
    | nil =>
      have hlast : ¬ s.fieldNo + 1 < numFields := by
        rw [List.length_nil] at hfields
        omega
      refine ⟨valueOf v, ?_, ?_⟩
      · simp [writeTuple, hbound, hlast, bind, Except.bind, pure, Except.pure]
      · rw [readChars_last v hbuf htype]
        simp [rowBytes]
    | cons w ws =>
      have hmore : s.fieldNo + 1 < numFields := by
        rw [List.length_cons] at hfields
        omega
      obtain ⟨line, hline, hread⟩ := ih (s := { s with
        page := s.page ++ Field.serialize (.intField v)
        fieldNo := s.fieldNo + 1
        first := false }) (by simp) (by simp at hfields ⊢; omega) hbuf hcount
      refine ⟨valueOf v ++ ([comma] ++ line), ?_, ?_⟩
      · rw [writeTuple]
        simp only [if_neg hbound, if_pos hmore, bind, Except.bind, hline]
        rfl
      · rw [← List.append_assoc, List.append_assoc, List.foldlM_append,
          readChars_field v hbuf htype hcount]
        simp only [bind, Except.bind, hread]
        simp [rowBytes]

/-! ## The whole text -/

/-- The page that is written for some rows. -/
def pageBytes (p : PageLayout) (rows : List (List UInt32)) : List UInt8 :=
  headerBytes p.nheaderbytes rows.length ++ rows.flatMap rowBytes ++
    List.replicate (wrap32 (p.npagebytes -
      wrap32 (wrap32 (rows.length * p.nrecbytes) + p.nheaderbytes))).toNat 0

/-- Between two lines: the pages `full` are in the file, and the rows `cur` on the page. -/
structure Between (p : PageLayout) (s : EncoderState) (full : List (List (List UInt32)))
    (cur : List (List UInt32)) : Prop where
  buf : s.buf = []
  fieldNo : s.fieldNo = 0
  out : s.out = full.flatMap (pageBytes p)
  page : s.page = cur.flatMap rowBytes
  count : s.recordcount = cur.length
  npages : s.npages = full.length
  room : (cur.length : ℤ) < p.nrecords
  fits : ∀ rows ∈ full, (rows.length : ℤ) ≤ p.nrecords

theorem out_flushPage {full : List (List (List UInt32))} {cur : List (List UInt32)}
    (hout : s.out = full.flatMap (pageBytes p)) (hpage : s.page = cur.flatMap rowBytes)
    (hcount : s.recordcount = cur.length) :
    (s.flushPage p).out = (full ++ [cur]).flatMap (pageBytes p) := by
  simp [flushPage, hout, hpage, hcount, pageBytes]

theorem between_flush {full : List (List (List UInt32))} {cur : List (List UInt32)}
    (hs : Between p s full cur) (vs : List UInt32) (hpos : 0 < p.nrecords) :
    ∃ full' cur', Between p (flush p false { s with
        page := s.page ++ rowBytes vs
        fieldNo := 0
        recordcount := s.recordcount + 1
        first := true }) full' cur' ∧
      full'.flatten ++ cur' = full.flatten ++ (cur ++ [vs]) := by
  have hroom := hs.room
  have hcount : s.recordcount + 1 = (cur ++ [vs]).length := by simp [hs.count]
  have hpage : s.page ++ rowBytes vs = (cur ++ [vs]).flatMap rowBytes := by simp [hs.page]
  by_cases hfull : p.nrecords ≤ ((s.recordcount + 1 : ℕ) : ℤ)
  · refine ⟨full ++ [cur ++ [vs]], [], ?_, by simp⟩
    simp only [flush, if_pos (Or.inl hfull)]
    refine ⟨hs.buf, rfl, out_flushPage hs.out hpage hcount, rfl, rfl, ?_, hpos, fun rows hrows => ?_⟩
    · simp [flushPage, hs.npages]
    · obtain hrows | hrows := List.mem_append.1 hrows
      · exact hs.fits rows hrows
      · rw [List.mem_singleton.1 hrows, List.length_append, List.length_singleton]
        omega
  · refine ⟨full, cur ++ [vs], ?_, rfl⟩
    have hnot : ¬ (p.nrecords ≤ ((s.recordcount + 1 : ℕ) : ℤ) ∨
        (false = true ∧ s.recordcount + 1 > 0) ∨ (false = true ∧ s.npages = 0)) := by
      simpa using hfull
    simp only [flush, if_neg hnot]
    refine ⟨hs.buf, rfl, hs.out, hpage, hcount, hs.npages, ?_, hs.fits⟩
    rw [← hcount]
    exact not_le.1 hfull

theorem readChars_lines {numFields : ℕ} (htypes : p.typeAr = List.replicate numFields .intType)
    (hpos : 0 < p.nrecords) (hnum : 0 < numFields) {tuples : List (List UInt32)}
    (htuples : ∀ t ∈ tuples, t.length = numFields) {full : List (List (List UInt32))}
    {cur : List (List UInt32)} (hs : Between p s full cur) :
    ∃ text s' full' cur', writeTuples numFields tuples = .ok text ∧
      text.foldlM (readChar p) s = .ok s' ∧ Between p s' full' cur' ∧
      full'.flatten ++ cur' = full.flatten ++ (cur ++ tuples) := by
  induction tuples generalizing s full cur with
  | nil => exact ⟨[], s, full, cur, rfl, rfl, hs, by simp⟩
  | cons t tuples ih =>
    have ht := htuples t (by simp)
    have hne : t ≠ [] := by
      rintro rfl
      simp at ht
      omega
    obtain ⟨line, hline, hread⟩ := readChars_line htypes t hne
      (by rw [hs.fieldNo, ht, Nat.zero_add]) hs.buf (hs.count ▸ hs.room)
    rw [hs.fieldNo] at hline
    obtain ⟨full₁, cur₁, hs₁, hrows₁⟩ := between_flush hs t hpos
    obtain ⟨text, s', full', cur', htext, hrest, hs', hrows'⟩ :=
      ih (fun x hx => htuples x (List.mem_cons_of_mem t hx)) hs₁
    refine ⟨line ++ newline :: text, s', full', cur', ?_, ?_, hs', ?_⟩
    · simp only [writeTuples, hline, htext, bind, Except.bind]
      rfl
    · rw [← List.singleton_append, ← List.append_assoc, List.foldlM_append, hread]
      exact hrest
    · rw [hrows', ← List.append_assoc, hrows₁]
      simp

/-- The file is made of the pages of rows that are the tuples in order. -/
theorem convert_pages {numFields : ℕ} (hnum : 0 < numFields) {npagebytes : ℤ}
    {tuples : List (List UInt32)} (htuples : ∀ t ∈ tuples, t.length = numFields)
    (hp : PageLayout.new npagebytes numFields (List.replicate numFields .intType) = .ok p)
    (htypes : p.typeAr = List.replicate numFields .intType) (hpos : 0 < p.nrecords) :
    ∃ pages : List (List (List UInt32)),
      convert tuples npagebytes numFields = .ok (pages.flatMap (pageBytes p)) ∧
      pages.flatten = tuples ∧ ∀ rows ∈ pages, (rows.length : ℤ) ≤ p.nrecords := by
  have hstart : Between p start [] [] :=
    ⟨rfl, rfl, rfl, rfl, rfl, rfl, hpos, by simp⟩
  obtain ⟨text, s, full, cur, htext, hread, hs, hrows⟩ :=
    readChars_lines htypes hpos hnum htuples hstart
  have hconvert : convert tuples npagebytes numFields =
      .ok (flush p true { s with first := false }).out := by
    simp only [convert, convertText, htext, hp, hread, bind, Except.bind]
    rfl
  rw [hconvert]
  simp only [List.flatten_nil, List.nil_append] at hrows
  by_cases hflush : p.nrecords ≤ (s.recordcount : ℤ) ∨ (true = true ∧ s.recordcount > 0) ∨
      (true = true ∧ s.npages = 0)
  · refine ⟨full ++ [cur], ?_, by simpa using hrows, fun rows hmem => ?_⟩
    · rw [flush, if_pos hflush]
      exact congrArg Except.ok (out_flushPage (s := { s with first := false }) hs.out hs.page hs.count)
    · obtain hmem | hmem := List.mem_append.1 hmem
      · exact hs.fits rows hmem
      · rw [List.mem_singleton.1 hmem]
        exact hs.room.le
  · refine ⟨full, ?_, ?_, hs.fits⟩
    · rw [flush, if_neg hflush]
      exact congrArg Except.ok hs.out
    · have hcur : cur = [] := by
        have hzero : ¬ s.recordcount > 0 := fun h => hflush (.inr (.inl ⟨rfl, h⟩))
        rw [hs.count] at hzero
        exact List.length_eq_zero_iff.1 (by omega)
      simpa [hcur] using hrows

end EncoderState

/-! ## The header -/

theorem slotBit_append_left {l : List UInt8} {i : ℕ} (x : UInt8) (h : i / 8 < l.length) :
    slotBit (l ++ [x]) i = slotBit l i := by
  simp only [slotBit, List.getD_append _ _ _ _ h]

theorem slotBit_append_last {l : List UInt8} {i : ℕ} (x : UInt8) (h : i / 8 = l.length) :
    slotBit (l ++ [x]) i = x.toBitVec.getLsbD (i % 8) := by
  simp [slotBit, h]

/-- The byte of a round has one bit more. -/
theorem getLsbD_headerRound {recordcount j b : ℕ} {byte : UInt8} (_ : b < 8)
    (hbyte : byte.toBitVec.getLsbD b = decide (b < j % 8 ∧ j / 8 * 8 + b < recordcount)) :
    (if j < recordcount then UInt8.ofBitVec (byte.toBitVec ||| 1#8 <<< (j % 8))
      else byte).toBitVec.getLsbD b =
      decide (b < j % 8 + 1 ∧ j / 8 * 8 + b < recordcount) := by
  have hmask : (1#8 <<< (j % 8)).getLsbD b = decide (b = j % 8) := by
    rw [BitVec.getLsbD_shiftLeft, BitVec.getLsbD_one]
    by_cases h : b = j % 8
    · simp [h, Nat.mod_lt j (show 8 > 0 by decide)]
    · simp only [h, decide_false, Bool.and_eq_false_iff, decide_eq_false_iff_not,
        Bool.not_eq_eq_eq_not, Bool.not_false, decide_eq_true_eq]
      omega
  split_ifs with hj
  · rw [UInt8.toBitVec_ofBitVec, BitVec.getLsbD_or, hmask, hbyte, ← Bool.decide_or]
    exact decide_eq_decide.2 (by omega)
  · rw [hbyte]
    exact decide_eq_decide.2 (by omega)

/-- After `j` rounds the whole bytes say which of their slots are in use, and the byte that is
being made says it of the slots so far. -/
theorem foldl_headerRound (recordcount j : ℕ) :
    ((List.range j).foldl (headerRound recordcount) (0, [])).2.length = j / 8 ∧
      (∀ i < j / 8 * 8, slotBit ((List.range j).foldl (headerRound recordcount) (0, [])).2 i =
        decide (i < recordcount)) ∧
      ∀ b < 8, ((List.range j).foldl (headerRound recordcount) (0, [])).1.toBitVec.getLsbD b =
        decide (b < j % 8 ∧ j / 8 * 8 + b < recordcount) := by
  induction j with
  | zero => simp
  | succ j ih =>
    obtain ⟨hlength, hbits, hbyte⟩ := ih
    rw [List.range_succ, List.foldl_append]
    generalize (List.range j).foldl (headerRound recordcount) (0, []) = acc at hlength hbits hbyte
    have hnext : ∀ b < 8, _ := fun b hb => getLsbD_headerRound hb (hbyte b hb)
    simp only [List.foldl_cons, List.foldl_nil, headerRound]
    generalize (if j < recordcount then UInt8.ofBitVec (acc.1.toBitVec ||| 1#8 <<< (j % 8))
      else acc.1) = byte at hnext
    split_ifs with hj
    · -- the byte is complete
      refine ⟨by simp only [List.length_append, List.length_singleton, hlength]; omega,
        fun i hi => ?_, fun b hb => ?_⟩
      · by_cases hold : i < j / 8 * 8
        · rw [slotBit_append_left byte (by omega), hbits i hold]
        · rw [slotBit_append_last byte (by omega), hnext _ (Nat.mod_lt i (by decide))]
          exact decide_eq_decide.2 (by omega)
      · rw [show (0 : UInt8).toBitVec = 0#8 from rfl, BitVec.getLsbD_zero]
        exact (decide_eq_false (by omega)).symm
    · refine ⟨by simp only [hlength]; omega, fun i hi => hbits i (by omega), fun b hb => ?_⟩
      rw [hnext b hb]
      exact decide_eq_decide.2 (by omega)

theorem headerBytes_eq (n recordcount : ℕ) :
    headerBytes n recordcount =
      ((List.range (n * 8)).foldl (headerRound recordcount) (0, [])).2 := by
  have hbits : ((n : ℤ) * 8).toNat = n * 8 := by omega
  have hmod : ¬ n * 8 % 8 > 0 := by omega
  simp only [headerBytes, hbits, if_neg hmod]

theorem length_headerBytes (n recordcount : ℕ) : (headerBytes n recordcount).length = n := by
  rw [headerBytes_eq, (foldl_headerRound recordcount (n * 8)).1]
  omega

theorem slotBit_headerBytes {n i : ℕ} (recordcount : ℕ) (hi : i < n * 8) :
    slotBit (headerBytes n recordcount) i = decide (i < recordcount) := by
  rw [headerBytes_eq]
  exact (foldl_headerRound recordcount (n * 8)).2.1 i (by omega)

/-! ## The pages -/

/-- An all-integer schema. -/
def intDesc (numFields : ℕ) (h : 0 < numFields) : TupleDesc :=
  ⟨List.replicate numFields .intType, by simp; omega⟩

/-- A tuple of numbers, cut or filled up to the schema. -/
def rowTuple (td : TupleDesc) (vs : List UInt32) : Tuple :=
  ⟨td, none, (vs.takeD td.numFields 0).map fun v => some (.intField v), by simp⟩

theorem rowTuple_fields {td : TupleDesc} {vs : List UInt32} (h : vs.length = td.numFields) :
    (rowTuple td vs).fields = vs.map fun v => some (.intField v) := by
  simp only [rowTuple, List.takeD_eq_take _ h.ge, List.take_of_length_le h.le]

namespace HeapPage

theorem addIfUsed_ok {page : HeapPage} {i : ℕ} (hi : i < page.tuples.length)
    (tups : List (Option Tuple)) :
    page.addIfUsed tups i =
      .ok (if slotBit page.header i then tups ++ [page.tuples[i]?.join] else tups) := by
  rw [addIfUsed, getSlot_natCast (page.slot_lt hi)]
  cases hb : slotBit page.header i <;> rfl

theorem foldlM_addIfUsed {page : HeapPage} (is : List ℕ) (his : ∀ i ∈ is, i < page.tuples.length)
    (tups : List (Option Tuple)) :
    is.foldlM page.addIfUsed tups =
      .ok (tups ++ (is.filter (slotBit page.header)).map fun i => page.tuples[i]?.join) := by
  induction is generalizing tups with
  | nil => simp [pure, Except.pure]
  | cons i is ih =>
    have hrest := fun tups => ih (fun x hx => his x (List.mem_cons_of_mem i hx)) tups
    rw [List.foldlM_cons, addIfUsed_ok (his i (by simp))]
    cases hb : slotBit page.header i <;> simp [hb, bind, Except.bind, hrest]

/-- The iterator gives the contents of the slots in use. -/
theorem iterator_eq (page : HeapPage) :
    page.iterator = .ok (((List.range page.tuples.length).filter (slotBit page.header)).map
      fun i => page.tuples[i]?.join) :=
  foldlM_addIfUsed _ (fun _ hi => List.mem_range.1 hi) []

end HeapPage

section

variable {numFields : ℕ} (hnum : 0 < numFields)

theorem rowBytes_intDesc : (intDesc numFields hnum).rowBytes = 4 * numFields := by
  simp [TupleDesc.rowBytes, intDesc, FieldType.getLen, Nat.mul_comm]

theorem values_rowTuple {td : TupleDesc} {vs : List UInt32} (h : vs.length = td.numFields) :
    (rowTuple td vs).values = vs.map .intField := by
  simp [Tuple.values, rowTuple_fields h, List.reduceOption]

theorem fits_ints (decode : List UInt8 → List UInt16) (vs : List UInt32) :
    List.Forall₂ (Fits decode) (List.replicate vs.length .intType) (vs.map .intField) := by
  induction vs with
  | nil => exact .nil
  | cons v vs ih => exact .cons (.int v) ih

theorem fitsRow_rowTuple (decode : List UInt8 → List UInt16) {vs : List UInt32}
    (h : vs.length = numFields) :
    FitsRow decode (intDesc numFields hnum) (rowTuple (intDesc numFields hnum) vs) := by
  have hfields : vs.length = (intDesc numFields hnum).numFields := by
    simp [TupleDesc.numFields, intDesc, h]
  refine ⟨rfl, ?_, ?_⟩
  · rw [values_rowTuple hfields, rowTuple_fields hfields, List.map_map]
    rfl
  · rw [values_rowTuple hfields]
    change List.Forall₂ (Fits decode) (List.replicate numFields .intType) _
    rw [← h]
    exact fits_ints decode vs

variable {N : ℕ} (hN : getNumTuples (intDesc numFields hnum) = N)

/-- The page with the rows in its first slots. -/
def rowPage (pid : HeapPageId) (rows : List (List UInt32)) (hrows : rows.length ≤ N) : HeapPage where
  pid := pid
  td := intDesc numFields hnum
  header := headerBytes ((N + 7) / 8 : ℕ) rows.length
  tuples := rows.map (fun vs => some (rowTuple (intDesc numFields hnum) vs)) ++
    List.replicate (N - rows.length) none
  numSlots_nonneg := by rw [hN]; omega
  header_length := by rw [length_headerBytes, getHeaderSize_eq hN, Int.toNat_natCast]
  tuples_length := by rw [hN]; simp; omega

variable {pid : HeapPageId} {rows : List (List UInt32)} (hrows : rows.length ≤ N)
  (hlength : ∀ vs ∈ rows, vs.length = numFields)

theorem length_rowPage : (rowPage hnum hN pid rows hrows).tuples.length = N := by
  simp [rowPage]
  omega

theorem slotBit_rowPage {i : ℕ} (hi : i < N) :
    slotBit (rowPage hnum hN pid rows hrows).header i = decide (i < rows.length) :=
  slotBit_headerBytes rows.length (by omega)

theorem tuples_rowPage {i : ℕ} (hi : i < rows.length) :
    (rowPage hnum hN pid rows hrows).tuples[i]? =
      some (some (rowTuple (intDesc numFields hnum) rows[i])) := by
  rw [rowPage, List.getElem?_append_left (by simpa using hi)]
  simp [hi]

include hlength in
theorem decodable_rowPage (decode : List UInt8 → List UInt16) :
    (rowPage hnum hN pid rows hrows).Decodable decode := by
  intro i hi hb
  rw [length_rowPage] at hi
  rw [slotBit_rowPage hnum hN hrows hi, decide_eq_true_eq] at hb
  exact ⟨_, tuples_rowPage hnum hN hrows hb,
    fitsRow_rowTuple hnum decode (hlength _ (List.getElem_mem hb))⟩

theorem occupant_rowPage {i : ℕ} (hi : i < N) :
    (rowPage hnum hN pid rows hrows).occupant i =
      rows[i]?.map (rowTuple (intDesc numFields hnum)) := by
  rw [HeapPage.occupant, slotBit_rowPage hnum hN hrows hi]
  by_cases hlt : i < rows.length
  · rw [tuples_rowPage hnum hN hrows hlt]
    simp [hlt]
  · simp [hlt]

include hlength in
theorem slotBytes_rowPage {i : ℕ} (hi : i < rows.length) :
    (rowPage hnum hN pid rows hrows).slotBytes i = EncoderState.rowBytes rows[i] := by
  have hrow : rows[i].length = (intDesc numFields hnum).numFields := by
    rw [hlength _ (List.getElem_mem hi)]
    simp [TupleDesc.numFields, intDesc]
  rw [HeapPage.slotBytes, occupant_rowPage hnum hN hrows (by omega), List.getElem?_eq_getElem hi]
  simp only [Option.map_some, values_rowTuple hrow, List.flatMap_map]
  rfl

theorem slotBytes_rowPage_empty {i : ℕ} (hi : i < N) (hle : rows.length ≤ i) :
    (rowPage hnum hN pid rows hrows).slotBytes i = List.replicate (4 * numFields) 0 := by
  rw [HeapPage.slotBytes, occupant_rowPage hnum hN hrows hi, List.getElem?_eq_none hle,
    ← rowBytes_intDesc hnum]
  rfl

omit hnum hN in
theorem range_split {k : ℕ} (h : k ≤ N) : List.range N = List.range k ++ List.range' k (N - k) := by
  have happend := @List.range'_append_1 0 k (N - k)
  rw [Nat.zero_add, Nat.add_sub_cancel' h] at happend
  rw [List.range_eq_range', List.range_eq_range', happend]

include hlength in
/-- The slots of the page: the rows, and zeros for the others. -/
theorem slots_rowPage :
    (List.range N).flatMap (rowPage hnum hN pid rows hrows).slotBytes =
      rows.flatMap EncoderState.rowBytes ++
        List.replicate ((N - rows.length) * (4 * numFields)) 0 := by
  have hrange := range_split hrows
  have hused : (List.range rows.length).map (rowPage hnum hN pid rows hrows).slotBytes =
      rows.map EncoderState.rowBytes := by
    refine List.ext_getElem (by simp) fun i hi hi' => ?_
    rw [List.getElem_map, List.getElem_range, List.getElem_map]
    exact slotBytes_rowPage hnum hN hrows hlength (by simpa using hi)
  have hempty : (List.range' rows.length (N - rows.length)).map
      (rowPage hnum hN pid rows hrows).slotBytes =
      List.replicate (N - rows.length) (List.replicate (4 * numFields) 0) := by
    refine List.ext_getElem (by simp) fun i hi hi' => ?_
    rw [List.getElem_map, List.getElem_range', List.getElem_replicate]
    simp only [List.length_map, List.length_range'] at hi
    exact slotBytes_rowPage_empty hnum hN hrows (by omega) (by omega)
  rw [hrange, List.flatMap_append, List.flatMap_def, List.flatMap_def, hused, hempty,
    List.flatten_replicate_replicate, ← List.flatMap_def]

/-- The iterator of the page that is read back gives the rows in order. -/
theorem iterator_rowPage :
    (rowPage hnum hN pid rows hrows).image.iterator =
      .ok ((List.range rows.length).map fun i =>
        (rows[i]?.map (rowTuple (intDesc numFields hnum))).map (·.setRecordId ⟨pid, i⟩)) := by
  have hcount : (rowPage hnum hN pid rows hrows).image.tuples.length = N := by
    simp [HeapPage.image, length_rowPage]
  have hfilter : (List.range N).filter (slotBit (rowPage hnum hN pid rows hrows).image.header) =
      List.range rows.length := by
    have hbit : ∀ i < N, slotBit (rowPage hnum hN pid rows hrows).image.header i =
        decide (i < rows.length) := fun i hi =>
      @slotBit_rowPage _ hnum _ hN pid _ hrows i hi
    rw [List.filter_congr fun i hi => hbit i (List.mem_range.1 hi), range_split hrows,
      List.filter_append, List.filter_eq_self.2 fun i hi => ?_,
      List.filter_eq_nil_iff.2 fun i hi => ?_, List.append_nil]
    · simpa using (List.mem_range'_1.1 hi).1
    · simpa using List.mem_range.1 hi
  rw [HeapPage.iterator_eq, hcount, hfilter]
  congr 1
  refine List.map_congr_left fun i hi => ?_
  have hlt : i < N := Nat.lt_of_lt_of_le (List.mem_range.1 hi) hrows
  rw [HeapPage.image_tuples (by rwa [length_rowPage]), HeapPage.reread,
    occupant_rowPage hnum hN hrows hlt]
  rfl

/-- The fields of the tuples that are read are the numbers of the rows. -/
def numbers (tup : Option Tuple) : Option (List (Option Field)) := tup.map Tuple.fields

include hlength in
theorem numbers_iterator :
    ((List.range rows.length).map fun i =>
      (rows[i]?.map (rowTuple (intDesc numFields hnum))).map (·.setRecordId ⟨pid, i⟩)).map numbers =
      rows.map fun vs => some (vs.map fun v => some (.intField v)) := by
  refine List.ext_getElem (by simp) fun i hi hi' => ?_
  simp only [List.length_map, List.length_range] at hi
  have hrow : rows[i].length = (intDesc numFields hnum).numFields := by
    rw [hlength _ (List.getElem_mem hi)]
    simp [TupleDesc.numFields, intDesc]
  rw [List.getElem_map, List.getElem_map, List.getElem_map, List.getElem_range,
    List.getElem?_eq_getElem hi]
  exact congrArg some (rowTuple_fields hrow)

variable (hfit : numFields * 4 + 1 ≤ pageSize)

include hfit in
/-- The encoder computes the sizes of the page. -/
theorem layout_eq : ∃ N : ℕ, 0 < N ∧ getNumTuples (intDesc numFields hnum) = N ∧
    PageLayout.new pageSize numFields (List.replicate numFields .intType) =
      .ok ⟨pageSize, (4 * numFields : ℕ), N, ((N + 7) / 8 : ℕ), List.replicate numFields .intType⟩ := by
  have hrow := rowBytes_intDesc hnum
  have hpage : pageSize = 4096 := rfl
  have hsmall : (intDesc numFields hnum).rowBytes * 8 + 1 < 2 ^ 31 := by omega
  have hN := (intDesc numFields hnum).getNumTuples_eq hsmall
  have hsize : (intDesc numFields hnum).getSize = (4 * numFields : ℕ) := by
    rw [(intDesc numFields hnum).getSize_eq (by omega), hrow]
  rw [hrow] at hN
  generalize hcount : pageSize * 8 / (4 * numFields * 8 + 1) = N at hN
  have hpos : 0 < N := hcount ▸ Nat.div_pos (by omega) (by omega)
  refine ⟨N, hpos, hN, ?_⟩
  have hrecbytes : ((List.replicate numFields FieldType.intType).take numFields).foldl
      (fun n t => wrap32 (n + t.getLen)) 0 = (4 * numFields : ℕ) := by
    rw [List.take_of_length_le (by simp)]
    exact hsize
  have hrecords : (wrap32 ((pageSize : ℤ) * 8)).tdiv
      (wrap32 (wrap32 (((4 * numFields : ℕ) : ℤ) * 8) + 1)) = N := by
    rw [← hN, getNumTuples, hsize]
    rfl
  have hheader : (if (N : ℤ).tdiv 8 * 8 < N then (N : ℤ).tdiv 8 + 1 else (N : ℤ).tdiv 8) =
      ((N + 7) / 8 : ℕ) := by
    rw [Int.tdiv_eq_ediv_of_nonneg (Int.natCast_nonneg N)]
    split_ifs <;> omega
  have htypes : ¬ (List.replicate numFields FieldType.intType).length < numFields := by simp
  simp only [PageLayout.new, if_neg htypes, hrecbytes, hrecords, hheader]

omit hnum hN in
theorem toNat_wrap32_sub {used all head size : ℕ} (hle : used ≤ all) (hcapacity : head + all ≤ size)
    (hsize : size < 2 ^ 31) :
    (wrap32 ((size : ℤ) - wrap32 (wrap32 used + head))).toNat =
      (all - used) + (size - (head + all)) := by
  have hused : wrap32 (used : ℤ) = used := wrap32_eq (by omega) (by omega)
  have hfilled : wrap32 ((used : ℤ) + head) = used + head := wrap32_eq (by omega) (by omega)
  rw [hused, hfilled, wrap32_eq (by omega) (by omega)]
  omega

/-- The padding of the encoder covers the empty slots and the padding of the page. -/
theorem zeros_eq (hcapacity : (rowPage hnum hN pid rows hrows).header.length +
      (rowPage hnum hN pid rows hrows).tuples.length *
        (rowPage hnum hN pid rows hrows).td.rowBytes ≤ pageSize) :
    (wrap32 ((pageSize : ℤ) - wrap32 (wrap32 (rows.length * ((4 * numFields : ℕ) : ℤ)) +
      ((N + 7) / 8 : ℕ)))).toNat =
      (N - rows.length) * (4 * numFields) + (rowPage hnum hN pid rows hrows).padding := by
  have hrow : (rowPage hnum hN pid rows hrows).td.rowBytes = 4 * numFields := rowBytes_intDesc hnum
  have hheader : (rowPage hnum hN pid rows hrows).header.length = (N + 7) / 8 :=
    length_headerBytes _ _
  have hle : rows.length * (4 * numFields) ≤ N * (4 * numFields) := Nat.mul_le_mul_right _ hrows
  rw [hheader, length_rowPage, hrow] at hcapacity
  rw [HeapPage.padding, hheader, length_rowPage, hrow, Nat.sub_mul, ← Nat.cast_mul,
    toNat_wrap32_sub hle hcapacity (by decide)]

include hfit hlength in
/-- The page that is written is the data of the page with the rows. -/
theorem new_pageBytes {p : PageLayout} (decode : List UInt8 → List UInt16)
    (hp : p = ⟨pageSize, (4 * numFields : ℕ), N, ((N + 7) / 8 : ℕ),
      List.replicate numFields .intType⟩) :
    (EncoderState.pageBytes p rows).length = pageSize ∧
      HeapPage.new decode pid (intDesc numFields hnum) (EncoderState.pageBytes p rows) =
        .ok (rowPage hnum hN pid rows hrows).image := by
  have hpage : pageSize = 4096 := rfl
  have hrow := rowBytes_intDesc hnum
  have hdec := @decodable_rowPage _ hnum _ hN pid _ hrows hlength decode
  have hsmall : (rowPage hnum hN pid rows hrows).td.Small := by
    intro _
    change (intDesc numFields hnum).rowBytes * 8 + 1 < 2 ^ 31
    omega
  have hcapacity := HeapPage.capacity hsmall
  have hdata := HeapPage.getPageData_eq hdec hsmall
  obtain ⟨data, hget, hlen, hnew⟩ := HeapPage.new_getPageData hdec hsmall
  rw [hdata] at hget
  obtain rfl := Except.ok.inj hget
  have hbytes : EncoderState.pageBytes p rows = (rowPage hnum hN pid rows hrows).header ++
      (List.range (rowPage hnum hN pid rows hrows).tuples.length).flatMap
        (rowPage hnum hN pid rows hrows).slotBytes ++
      List.replicate (rowPage hnum hN pid rows hrows).padding 0 := by
    have hheader : (rowPage hnum hN pid rows hrows).header =
        headerBytes ((N + 7) / 8 : ℕ) rows.length := rfl
    have hzeros := zeros_eq hnum hN hrows hcapacity
    rw [length_rowPage, slots_rowPage hnum hN hrows hlength, ← List.append_assoc, List.append_assoc,
      List.replicate_append_replicate, EncoderState.pageBytes, hp, hheader, ← hzeros]
  rw [hbytes]
  exact ⟨hlen, hnew⟩

include hN hfit in
/-- Reading the pages of rows gives the rows. -/
theorem readPages_rows {p : PageLayout} (decode : List UInt8 → List UInt16) (tableId : ℤ)
    (hp : p = ⟨pageSize, (4 * numFields : ℕ), N, ((N + 7) / 8 : ℕ),
      List.replicate numFields .intType⟩) {pages : List (List (List UInt32))}
    (hpages : ∀ rows ∈ pages, rows.length ≤ N ∧ ∀ vs ∈ rows, vs.length = numFields) (pgNo : ℕ) :
    ∃ tups, readPages decode tableId (intDesc numFields hnum) pgNo
        (pages.map (EncoderState.pageBytes p)) = .ok tups ∧
      tups.map numbers = pages.flatten.map fun vs => some (vs.map fun v => some (.intField v)) := by
  induction pages generalizing pgNo with
  | nil => exact ⟨[], rfl, rfl⟩
  | cons rows pages ih =>
    obtain ⟨hcount, hlength⟩ := hpages rows (by simp)
    obtain ⟨tups, hread, hnumbers⟩ := ih (fun r hr => hpages r (List.mem_cons_of_mem rows hr)) (pgNo + 1)
    have hnew := (@new_pageBytes _ hnum _ hN ⟨tableId, pgNo⟩ rows hcount hlength hfit p decode hp).2
    have hiterator := @iterator_rowPage _ hnum _ hN ⟨tableId, pgNo⟩ rows hcount
    have hrows := @numbers_iterator _ hnum ⟨tableId, pgNo⟩ rows hlength
    generalize (List.range rows.length).map _ = first at hiterator hrows
    refine ⟨first ++ tups, ?_, ?_⟩
    · simp only [List.map_cons, readPages, hnew, hiterator, hread, bind, Except.bind]
      rfl
    · rw [List.map_append, hrows, hnumbers, List.flatten_cons, List.map_append]

end

/-- The file of a list of tuples is whole pages, and reading them gives the tuples in order. -/
theorem convert_roundTrip (decode : List UInt8 → List UInt16) (tableId : ℤ) {numFields : ℕ}
    (hnum : 0 < numFields) (hfit : numFields * 4 + 1 ≤ pageSize) (tuples : List (List UInt32))
    (htuples : ∀ t ∈ tuples, t.length = numFields) :
    ∃ (pages : List (List UInt8)) (tups : List (Option Tuple)),
      convert tuples pageSize numFields = .ok pages.flatten ∧
      (∀ page ∈ pages, page.length = 4096) ∧
      readPages decode tableId (intDesc numFields hnum) 0 pages = .ok tups ∧
      tups.map numbers = tuples.map fun vs => some (vs.map fun v => some (.intField v)) := by
  obtain ⟨N, hpos, hN, hlayout⟩ := layout_eq hnum hfit
  obtain ⟨pages, hconvert, hflatten, hpages⟩ :=
    EncoderState.convert_pages hnum htuples hlayout rfl (Int.natCast_pos.2 hpos)
  generalize hp : PageLayout.mk _ _ _ _ _ = p at hconvert hpages
  have hlengths : ∀ rows ∈ pages, rows.length ≤ N ∧ ∀ vs ∈ rows, vs.length = numFields := by
    intro rows hrows
    refine ⟨?_, fun vs hvs => htuples vs (hflatten ▸ List.mem_flatten.2 ⟨rows, hrows, hvs⟩)⟩
    have hle := hpages rows hrows
    rw [← hp] at hle
    exact Int.ofNat_le.1 hle
  obtain ⟨tups, hread, hnumbers⟩ := readPages_rows hnum hN hfit decode tableId hp.symm hlengths 0
  refine ⟨pages.map (EncoderState.pageBytes p), tups, ?_, fun page hpage => ?_, hread, ?_⟩
  · rw [hconvert, List.flatMap_def]
  · obtain ⟨rows, hmem, rfl⟩ := List.mem_map.1 hpage
    exact (@new_pageBytes _ hnum _ hN ⟨tableId, 0⟩ rows (hlengths rows hmem).1 (hlengths rows hmem).2 hfit
      p decode hp.symm).1
  · rw [hnumbers, hflatten]

/-- The tuples (1, -5) and (70000, 0). -/
def twoPairs : List (List UInt32) := [[1, -5], [70000, 0]]

theorem convert_roundTrip_twoPairs :
    (∀ t ∈ twoPairs, t.length = 2) ∧ ∃ (pages : List (List UInt8)) (tups : List (Option Tuple)),
      convert twoPairs pageSize 2 = .ok pages.flatten ∧
      (∀ page ∈ pages, page.length = 4096) ∧
      readPages HeapPage.decodeLatin1 1 (intDesc 2 (by decide)) 0 pages = .ok tups ∧
      tups.map numbers = twoPairs.map fun vs => some (vs.map fun v => some (.intField v)) :=
  ⟨by decide,
    convert_roundTrip HeapPage.decodeLatin1 1 (by decide) (by decide) twoPairs (by decide)⟩

end Courses.SimpleDb
