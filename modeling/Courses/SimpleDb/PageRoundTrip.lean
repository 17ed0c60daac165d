import Courses.Lib.Fallible
import Courses.SimpleDb.HeapPage

/-!
# Pages on their way to disk and back

`getPageData` promises that its bytes give an identical page back. It keeps the
promise when each field takes the bytes its column's type declares, and fails
for the empty string a new tuple starts with, whose size is four bytes larger
than that of its column.
-/
namespace Courses.SimpleDb

open Courses.Lib

/-! ## Sizes -/

/-- If a page has slots at all, the computation of their number stays within `int`. -/
def TupleDesc.Small (td : TupleDesc) : Prop :=
  getNumTuples td ≠ 0 → td.rowBytes * 8 + 1 < 2 ^ 31

theorem TupleDesc.getNumTuples_eq {td : TupleDesc} (h : td.rowBytes * 8 + 1 < 2 ^ 31) :
    getNumTuples td = ((pageSize * 8 / (td.rowBytes * 8 + 1) : ℕ) : ℤ) := by
  have hmul : wrap32 ((td.rowBytes : ℤ) * 8) = (td.rowBytes * 8 : ℕ) := by
    rw [wrap32_eq] <;> omega
  have hadd : wrap32 (((td.rowBytes * 8 : ℕ) : ℤ) + 1) = (td.rowBytes * 8 + 1 : ℕ) := by
    rw [wrap32_eq] <;> omega
  rw [getNumTuples, td.getSize_eq (by omega), hmul, hadd,
    Int.tdiv_eq_ediv_of_nonneg (Int.natCast_nonneg _), Int.natCast_ediv]

theorem getHeaderSize_eq {td : TupleDesc} {n : ℕ} (h : getNumTuples td = n) :
    getHeaderSize td = ((n + 7) / 8 : ℕ) := by
  rw [getHeaderSize, h, Int.tmod_eq_emod_of_nonneg (Int.natCast_nonneg n),
    Int.tdiv_eq_ediv_of_nonneg (Int.natCast_nonneg n)]
  split_ifs <;> omega

namespace HeapPage

theorem numSlots (page : HeapPage) : getNumTuples page.td = page.tuples.length := by
  have h := page.numSlots_nonneg
  rw [page.tuples_length]
  omega

theorem headerBytes (page : HeapPage) : page.header.length = (page.tuples.length + 7) / 8 := by
  rw [page.header_length, getHeaderSize_eq page.numSlots, Int.toNat_natCast]

theorem slot_lt (page : HeapPage) {i : ℕ} (hi : i < page.tuples.length) :
    i / 8 < page.header.length := by
  rw [page.headerBytes]
  omega

theorem rowBytes_lt {page : HeapPage} (h : page.td.Small) (hn : page.tuples.length ≠ 0) :
    page.td.rowBytes * 8 + 1 < 2 ^ 31 := by
  refine h ?_
  rw [page.numSlots]
  exact_mod_cast hn

theorem getSize_eq {page : HeapPage} (h : page.td.Small) {i : ℕ} (hi : i < page.tuples.length) :
    page.td.getSize = page.td.rowBytes := by
  have hlt := rowBytes_lt h (by omega)
  exact page.td.getSize_eq (by omega)

/-- The header and the rows leave the padding of a page, which is never negative. -/
theorem capacity {page : HeapPage} (h : page.td.Small) :
    page.header.length + page.tuples.length * page.td.rowBytes ≤ pageSize := by
  rw [page.headerBytes]
  by_cases hn : page.tuples.length = 0
  · simp [hn]
  have hslots : page.tuples.length = pageSize * 8 / (page.td.rowBytes * 8 + 1) := by
    have h' := page.numSlots
    rw [page.td.getNumTuples_eq (rowBytes_lt h hn)] at h'
    exact_mod_cast h'.symm
  have hmul : page.tuples.length * (page.td.rowBytes * 8 + 1) ≤ pageSize * 8 := by
    rw [hslots]
    exact Nat.div_mul_le_self _ _
  have hexp : page.tuples.length * (page.td.rowBytes * 8 + 1) =
      8 * (page.tuples.length * page.td.rowBytes) + page.tuples.length := by ring
  omega

end HeapPage

/-! ## Rows -/

/-- The fields of a tuple that are set. -/
def Tuple.values (t : Tuple) : List Field := t.fields.reduceOption

/-- A tuple of the schema all of whose fields fit their columns. -/
structure FitsRow (decode : List UInt8 → List UInt16) (td : TupleDesc) (t : Tuple) : Prop where
  td_eq : t.td = td
  fields_eq : t.fields = t.values.map some
  fits : List.Forall₂ (Fits decode) td.types t.values

variable {decode : List UInt8 → List UInt16}

theorem serialize_length {types : List FieldType} {fs : List Field}
    (h : List.Forall₂ (Fits decode) types fs) :
    (fs.flatMap Field.serialize).length = (types.map FieldType.getLen).sum := by
  induction h with
  | nil => rfl
  | cons hf _ ih =>
    rw [List.flatMap_cons, List.length_append, hf.serialize_length, ih, List.map_cons,
      List.sum_cons]

theorem readFields_serialize {types : List FieldType} {fs : List Field}
    (h : List.Forall₂ (Fits decode) types fs) (rest : List UInt8) (t : Tuple)
    (pre post : List (Option Field)) (ht : t.fields = pre ++ post)
    (hpost : post.length = types.length) :
    ∃ t', readFields decode types pre.length t (fs.flatMap Field.serialize ++ rest) =
      .ok (t', rest) ∧ t'.td = t.td ∧ t'.rid = t.rid ∧ t'.fields = pre ++ fs.map some := by
  induction h generalizing t pre post with
  | nil =>
    have hnil : post = [] := List.length_eq_zero_iff.mp hpost
    exact ⟨t, rfl, rfl, rfl, by rw [ht, hnil]; rfl⟩
  | @cons type f types fs hf _ ih =>
    cases post with
    | nil => simp at hpost
    | cons x post =>
      have hset : (t.setField pre.length (some f)).fields = (pre ++ [some f]) ++ post := by
        simp [Tuple.setField, ht]
      obtain ⟨t', hread, htd, hrid, hfields⟩ :=
        ih (t.setField pre.length (some f)) (pre ++ [some f]) post hset (by simpa using hpost)
      refine ⟨t', ?_, htd, hrid, ?_⟩
      · simp only [readFields, List.flatMap_cons, List.append_assoc, hf.parse_serialize]
        simpa [bind, Except.bind] using hread
      · rw [hfields]
        simp

namespace FitsRow

variable {td : TupleDesc} {t : Tuple}

theorem numFields (h : FitsRow decode td t) : td.numFields = t.values.length := h.fits.length_eq

theorem getFields (h : FitsRow decode td t) :
    (List.range td.numFields).mapM t.getField = .ok t.values := by
  have hget : ∀ j ∈ List.range td.numFields, t.getField j = .ok (t.values.getD j (.intField 0)) := by
    intro j hj
    have hlt : j < t.values.length := h.numFields ▸ List.mem_range.mp hj
    have hsome : t.fields[j]? = some (some t.values[j]) := by
      rw [h.fields_eq, List.getElem?_map, List.getElem?_eq_getElem hlt, Option.map_some]
    rw [Tuple.getField, hsome, List.getD_eq_getElem _ _ hlt]
  rw [mapM_ok hget]
  congr 1
  refine List.ext_getElem (by simp [h.numFields]) ?_
  intro j _ hj
  rw [List.getElem_map, List.getElem_range, List.getD_eq_getElem _ _ hj]

theorem setRecordId (h : FitsRow decode td t) (rid : RecordId) :
    FitsRow decode td (t.setRecordId rid) :=
  ⟨h.td_eq, h.fields_eq, h.fits⟩

end FitsRow

/-! ## Slots -/

namespace HeapPage

/-- Every slot in use holds a tuple that fits the schema. -/
def Decodable (decode : List UInt8 → List UInt16) (page : HeapPage) : Prop :=
  ∀ i < page.tuples.length, slotBit page.header i = true →
    ∃ t, page.tuples[i]? = some (some t) ∧ FitsRow decode page.td t

/-- The bytes of a slot. -/
def slotBytes (page : HeapPage) (i : ℕ) : List UInt8 :=
  match page.occupant i with
  | some t => t.values.flatMap Field.serialize
  | none => List.replicate page.td.rowBytes 0

/-- The tuple the constructor makes of a slot. -/
def reread (page : HeapPage) (i : ℕ) : Option Tuple :=
  (page.occupant i).map fun t => t.setRecordId ⟨page.pid, i⟩

/-- The page as it is read back: the slots not in use hold nothing any more. -/
def image (page : HeapPage) : HeapPage :=
  { page with
    tuples := (List.range page.tuples.length).map page.reread
    tuples_length := by rw [List.length_map, List.length_range, page.tuples_length] }

variable {page : HeapPage}

theorem image_tuples {i : ℕ} (hi : i < page.tuples.length) :
    page.image.tuples[i]? = some (page.reread i) := by
  rw [image, List.getElem?_map, List.getElem?_range hi]
  rfl

theorem occupant_eq_none {i : ℕ} (h : page.tuples.length ≤ i) : page.occupant i = none := by
  rw [occupant, List.getElem?_eq_none h]
  split_ifs <;> rfl

theorem occupant_image (i : ℕ) : page.image.occupant i = page.reread i := by
  rcases lt_or_ge i page.tuples.length with hi | hi
  · have hheader : page.image.header = page.header := rfl
    rw [occupant, image_tuples hi, hheader]
    cases hb : slotBit page.header i <;> simp [hb, reread, occupant]
  · have himage : page.image.tuples.length ≤ i := by simpa [image] using hi
    rw [occupant_eq_none himage, reread, occupant_eq_none hi]
    rfl

theorem occupant_cases (h : page.Decodable decode) {i : ℕ} (hi : i < page.tuples.length) :
    (slotBit page.header i = false ∧ page.occupant i = none) ∨
      ∃ t, slotBit page.header i = true ∧ page.tuples[i]? = some (some t) ∧
        page.occupant i = some t ∧ FitsRow decode page.td t := by
  cases hb : slotBit page.header i with
  | false => exact .inl ⟨rfl, by simp [occupant, hb]⟩
  | true =>
    obtain ⟨t, ht, hfit⟩ := h i hi hb
    exact .inr ⟨t, rfl, ht, by simp [occupant, hb, ht], hfit⟩

theorem slotData_eq (h : page.Decodable decode) (hs : page.td.Small) {i : ℕ}
    (hi : i < page.tuples.length) : page.slotData i = .ok (page.slotBytes i) := by
  rw [slotData, getSlot_natCast (page.slot_lt hi), slotBytes]
  rcases occupant_cases h hi with ⟨hb, hocc⟩ | ⟨t, hb, ht, hocc, hfit⟩
  · rw [hb, hocc, getSize_eq hs hi]
    rfl
  · rw [hb, hocc, ht]
    simp only [bind, Except.bind, if_true, hfit.getFields]
    rfl

theorem slotBytes_length (h : page.Decodable decode) {i : ℕ} (hi : i < page.tuples.length) :
    (page.slotBytes i).length = page.td.rowBytes := by
  rw [slotBytes]
  rcases occupant_cases h hi with ⟨_, hocc⟩ | ⟨t, _, _, hocc, hfit⟩
  · rw [hocc, List.length_replicate]
  · rw [hocc]
    exact serialize_length hfit.fits

theorem readNextTuple_slotBytes (h : page.Decodable decode) (hs : page.td.Small) {i : ℕ}
    (hi : i < page.tuples.length) (rest : List UInt8) :
    readNextTuple decode page.pid page.td page.header i (page.slotBytes i ++ rest) =
      .ok (page.reread i, rest) := by
  have hlen := slotBytes_length h hi
  rw [readNextTuple, getSlot_natCast (page.slot_lt hi), getSize_eq hs hi, Int.toNat_natCast]
  rcases occupant_cases h hi with ⟨hb, hocc⟩ | ⟨t, hb, _, hocc, hfit⟩
  · have hlt : ¬ (page.slotBytes i ++ rest).length < page.td.rowBytes := by
      rw [List.length_append, hlen]
      omega
    rw [hb, reread, hocc]
    simp only [bind, Except.bind, Bool.false_eq_true, if_false, if_neg hlt,
      List.drop_left' hlen]
    rfl
  · obtain ⟨t', hread, htd, hrid, hfields⟩ := readFields_serialize hfit.fits rest
      ((Tuple.new page.td).setRecordId ⟨page.pid, i⟩) [] _ rfl
      (Tuple.new page.td).length_eq
    have ht' : t' = t.setRecordId ⟨page.pid, i⟩ := by
      obtain ⟨td, rid, fields, _⟩ := t'
      obtain ⟨td₀, rid₀, fields₀, _⟩ := t
      have h1 : td = td₀ := htd.trans hfit.td_eq.symm
      have h2 : fields = fields₀ := hfields.trans hfit.fields_eq.symm
      subst h1 h2 hrid
      rfl
    rw [hb, reread, slotBytes, hocc]
    simp only [List.length_nil] at hread
    simp only [bind, Except.bind, if_true, hread, ht']
    rfl

theorem readTuples_slotBytes (h : page.Decodable decode) (hs : page.td.Small) (n i : ℕ)
    (hn : i + n ≤ page.tuples.length) (rest : List UInt8) :
    readTuples decode page.pid page.td page.header n i
        ((List.range' i n).flatMap page.slotBytes ++ rest) =
      .ok ((List.range' i n).map page.reread) := by
  induction n generalizing i with
  | zero => rfl
  | succ n ih =>
    rw [List.range'_succ, List.flatMap_cons, List.append_assoc, readTuples,
      readNextTuple_slotBytes h hs (by omega)]
    simp only [ih (i + 1) (by omega), List.map_cons]
    rfl

/-- The padding after the last slot. -/
def padding (page : HeapPage) : ℕ :=
  pageSize - (page.header.length + page.tuples.length * page.td.rowBytes)

theorem getPageData_eq (h : page.Decodable decode) (hs : page.td.Small) :
    page.getPageData = .ok (page.header ++
      (List.range page.tuples.length).flatMap page.slotBytes ++
      List.replicate page.padding 0) := by
  have hcap := capacity hs
  have hzero : wrap32 ((pageSize : ℤ) -
      (page.header.length + page.td.getSize * page.tuples.length)) = page.padding := by
    have hpad : (pageSize : ℤ) - (page.header.length + page.td.getSize * page.tuples.length) =
        page.padding := by
      have hrows : page.td.getSize * page.tuples.length =
          ((page.tuples.length * page.td.rowBytes : ℕ) : ℤ) := by
        by_cases hn : page.tuples.length = 0
        · simp [hn]
        · rw [getSize_eq hs (Nat.pos_of_ne_zero hn), Nat.cast_mul]
          ring
      rw [hrows, padding]
      omega
    have hle : page.padding ≤ pageSize := Nat.sub_le _ _
    have hpage : pageSize < 2 ^ 31 := by decide
    rw [hpad, wrap32_eq] <;> omega
  have hslots := mapM_ok fun i hi => slotData_eq h hs (List.mem_range.mp hi)
  have hneg : ¬ (page.padding : ℤ) < 0 := by omega
  rw [getPageData, hslots, List.flatMap_def]
  simp only [bind, Except.bind, hzero, if_neg hneg, Int.toNat_natCast]
  rfl

theorem getPageData_length (h : page.Decodable decode) (hs : page.td.Small) :
    (page.header ++ (List.range page.tuples.length).flatMap page.slotBytes ++
      List.replicate page.padding 0).length = pageSize := by
  have hslots : ((List.range page.tuples.length).flatMap page.slotBytes).length =
      page.tuples.length * page.td.rowBytes := by
    have hconst : (List.range page.tuples.length).map (fun i => (page.slotBytes i).length) =
        List.replicate page.tuples.length page.td.rowBytes := by
      rw [List.eq_replicate_iff]
      refine ⟨by simp, ?_⟩
      intro n hn
      obtain ⟨i, hi, rfl⟩ := List.mem_map.mp hn
      exact slotBytes_length h (List.mem_range.mp hi)
    rw [List.length_flatMap, hconst, List.sum_replicate, smul_eq_mul]
  have hcap := capacity hs
  rw [List.length_append, List.length_append, hslots, List.length_replicate, padding]
  omega

/-- The constructor on data from which its header and all its tuples are read. -/
theorem new_of_readTuples {pid : HeapPageId} {td : TupleDesc} {header rest : List UInt8}
    {tuples : List (Option Tuple)} {n : ℕ} (hn : getNumTuples td = n)
    (hh : header.length = (n + 7) / 8)
    (ht : readTuples decode pid td header n 0 rest = .ok tuples) :
    ∃ page : HeapPage, page.pid = pid ∧ page.td = td ∧ page.header = header ∧
      page.tuples = tuples ∧
      HeapPage.new decode pid td (header ++ rest) = page.getPageData.map fun _ => page := by
  have hsize : (getHeaderSize td).toNat = header.length := by
    rw [getHeaderSize_eq hn, hh, Int.toNat_natCast]
  have h1 : ¬ getHeaderSize td < 0 := by
    rw [getHeaderSize_eq hn]
    omega
  have h2 : ¬ (header ++ rest).length < (getHeaderSize td).toNat := by
    rw [hsize, List.length_append]
    omega
  have h3 : ¬ getNumTuples td < 0 := by
    rw [hn]
    omega
  have hread : readTuples decode pid td ((header ++ rest).take (getHeaderSize td).toNat)
      (getNumTuples td).toNat 0 ((header ++ rest).drop (getHeaderSize td).toNat) = .ok tuples := by
    rw [hsize, List.take_left, List.drop_left, hn, Int.toNat_natCast]
    exact ht
  let page : HeapPage := {
    pid := pid
    td := td
    header := header
    tuples := tuples
    numSlots_nonneg := by omega
    header_length := hsize.symm
    tuples_length := readTuples_length _ _ _ hread }
  refine ⟨page, rfl, rfl, rfl, rfl, ?_⟩
  unfold HeapPage.new
  rw [if_neg h1, dif_neg h2, dif_neg h3]
  dsimp only
  split
  · next e he =>
    rw [hread] at he
    cases he
  · next ts hts =>
    rw [hread] at hts
    cases hts
    have hpage : (⟨pid, td, (header ++ rest).take (getHeaderSize td).toNat, tuples, by omega,
        by rw [hsize, List.take_left], readTuples_length _ _ _ hread⟩ : HeapPage) = page := by
      rw [HeapPage.mk.injEq]
      exact ⟨rfl, rfl, by rw [hsize, List.take_left], rfl⟩
    rw [hpage]

/-! ## Pages a client can build -/

theorem new_ok {pid : HeapPageId} {td : TupleDesc} {data : List UInt8}
    (h : HeapPage.new decode pid td data = .ok page) :
    page.pid = pid ∧ page.td = td ∧ page.header = data.take (getHeaderSize td).toNat := by
  unfold HeapPage.new at h
  split_ifs at h
  dsimp only at h
  split at h
  · cases h
  · generalize hp : HeapPage.mk _ _ _ _ _ _ _ = p at h
    cases hd : p.getPageData with
    | error e => simp [hd, Except.map] at h
    | ok d =>
      simp only [hd, Except.map, Except.ok.injEq] at h
      subst h hp
      exact ⟨rfl, rfl, rfl⟩

theorem slotBit_zero {header : List UInt8} (h : ∀ b ∈ header, b = 0) (i : ℕ) :
    slotBit header i = false := by
  have hz : header.getD (i / 8) 0 = 0 := by
    by_cases hi : i / 8 < header.length
    · rw [List.getD_eq_getElem _ _ hi]
      exact h _ (List.getElem_mem hi)
    · exact List.getD_eq_default _ _ (by omega)
  rw [slotBit, hz]
  simp

theorem decodable_empty {pid : HeapPageId} {td : TupleDesc}
    (h : HeapPage.new decode pid td createEmptyPageData = .ok page) : page.Decodable decode := by
  intro i _ hb
  have hz : ∀ b ∈ page.header, b = 0 := by
    rw [(new_ok h).2.2]
    intro b hb
    exact List.eq_of_mem_replicate (List.mem_of_mem_take hb)
  rw [slotBit_zero hz] at hb
  cases hb

theorem getFirstEmptySlot_eq {i : ℕ} (h : page.getFirstEmptySlot = i) :
    i < page.tuples.length ∧ slotBit page.header i = false := by
  unfold getFirstEmptySlot at h
  split at h
  · next k hk =>
    have hki : k = i := by exact_mod_cast h
    rw [hki] at hk
    have hlt : i < page.tuples.length := List.mem_range.mp (List.mem_of_find?_eq_some hk)
    have hfree := List.find?_some hk
    rw [getSlot_natCast (page.slot_lt hlt)] at hfree
    refine ⟨hlt, ?_⟩
    cases hb : slotBit page.header i with
    | false => rfl
    | true => simp [hb] at hfree
  · omega

/-- A successful `addTuple` fills one free slot. -/
theorem addTuple_ok {page' : HeapPage} {t : Tuple} (h : page.addTuple t = .ok page') :
    t.td = page.td ∧ ∃ i < page.tuples.length, slotBit page.header i = false ∧
      page'.pid = page.pid ∧ page'.td = page.td ∧
      page'.tuples = page.tuples.set i (some (t.setRecordId ⟨page.pid, i⟩)) ∧
      ∀ j, slotBit page'.header j = if j = i then true else slotBit page.header j := by
  unfold addTuple at h
  dsimp only at h
  split_ifs at h with htd hempty hneg
  obtain ⟨i, hi⟩ : ∃ i : ℕ, page.getFirstEmptySlot = i :=
    ⟨page.getFirstEmptySlot.toNat, by omega⟩
  obtain ⟨hlt, hfree⟩ := getFirstEmptySlot_eq hi
  obtain ⟨header', hset⟩ := setSlot_natCast (page.slot_lt hlt) true
  refine ⟨TupleDesc.equals_iff.mp (Bool.eq_true_of_not_eq_false htd), i, hlt, hfree, ?_⟩
  split at h
  · cases h
  · next header hs =>
    rw [hi, hset] at hs
    cases hs
    cases h
    refine ⟨rfl, rfl, by simp only [hi, Int.toNat_natCast], fun j => ?_⟩
    simpa only [Nat.cast_inj] using setSlot_bits hset j

/-- A successful `deleteTuple` only clears the bit of its slot. -/
theorem deleteTuple_ok {page' : HeapPage} {t : Tuple} (h : page.deleteTuple t = .ok page') :
    ∃ rid, t.rid = some rid ∧ page'.pid = page.pid ∧ page'.td = page.td ∧
      page'.tuples = page.tuples ∧
      ∀ j : ℕ, slotBit page'.header j = if j = rid.tupleno then false else slotBit page.header j := by
  unfold deleteTuple at h
  split at h
  · cases h
  · next rid hrid =>
    split_ifs at h
    split at h
    · cases h
    · cases h
    · split at h
      · cases h
      · next header hs =>
        cases h
        exact ⟨rid, hrid, rfl, rfl, rfl, setSlot_bits hs⟩

end HeapPage

/-- The tuple of an `addTuple` fits the schema. -/
def PageOp.Fits (decode : List UInt8 → List UInt16) (page : HeapPage) : PageOp → Prop
  | .addTuple t => FitsRow decode page.td t
  | .deleteTuple _ => True

namespace HeapPage

variable {page : HeapPage}

/-- A step is a call that does not throw. -/
theorem step_cases {page' : HeapPage} {op : PageOp} (hs : page.step op = some page') :
    (∃ t, op = .addTuple t ∧ page.addTuple t = .ok page') ∨
      ∃ t, op = .deleteTuple t ∧ page.deleteTuple t = .ok page' := by
  cases op with
  | addTuple t =>
    simp only [step] at hs
    cases ha : page.addTuple t with
    | error e => simp [ha, Except.toOption] at hs
    | ok p => exact .inl ⟨t, rfl, by simpa [ha, Except.toOption] using hs⟩
  | deleteTuple t =>
    simp only [step] at hs
    cases ha : page.deleteTuple t with
    | error e => simp [ha, Except.toOption] at hs
    | ok p => exact .inr ⟨t, rfl, by simpa [ha, Except.toOption] using hs⟩

theorem decodable_step {page' : HeapPage} {op : PageOp} (h : page.Decodable decode)
    (hop : op.Fits decode page) (hs : page.step op = some page') :
    page'.Decodable decode ∧ page'.pid = page.pid ∧ page'.td = page.td := by
  obtain ⟨t, rfl, hp⟩ | ⟨t, rfl, hp⟩ := step_cases hs
  · obtain ⟨_, i, hi, _, hpid, htd, htuples, hbits⟩ := addTuple_ok hp
    refine ⟨?_, hpid, htd⟩
    intro j hj hb
    rw [htuples, List.length_set] at hj
    rw [htd, htuples]
    by_cases hji : j = i
    · subst hji
      exact ⟨_, by rw [List.getElem?_set_self hj], FitsRow.setRecordId hop _⟩
    · rw [List.getElem?_set_ne (fun h => hji h.symm)]
      have hold : slotBit page.header j = true := by simpa [hbits, hji] using hb
      exact h j hj hold
  · obtain ⟨rid, _, hpid, htd, htuples, hbits⟩ := deleteTuple_ok hp
    refine ⟨?_, hpid, htd⟩
    intro j hj hb
    rw [htuples] at hj ⊢
    rw [htd]
    rw [hbits] at hb
    split_ifs at hb
    exact h j hj hb

theorem decodable_image (h : page.Decodable decode) : page.image.Decodable decode := by
  intro i hi hb
  have hi' : i < page.tuples.length := by simpa [image] using hi
  rcases occupant_cases h hi' with ⟨hb', _⟩ | ⟨t, _, _, hocc, hfit⟩
  · exact absurd (hb.symm.trans hb') (by decide)
  · refine ⟨t.setRecordId ⟨page.pid, i⟩, ?_, hfit.setRecordId _⟩
    rw [image_tuples hi', reread, hocc]
    rfl

/-- A page whose tuples fit is read back from its data. -/
theorem new_getPageData (h : page.Decodable decode) (hs : page.td.Small) :
    ∃ data, page.getPageData = .ok data ∧ data.length = pageSize ∧
      HeapPage.new decode page.pid page.td data = .ok page.image := by
  have hread := readTuples_slotBytes h hs page.tuples.length 0 (by omega)
    (List.replicate page.padding 0)
  rw [← List.range_eq_range'] at hread
  obtain ⟨page', hpid, htd, hheader, htuples, hnew⟩ :=
    new_of_readTuples page.numSlots page.headerBytes hread
  have himage : page' = page.image := by
    obtain ⟨pid', td', header', tuples', _, _, _⟩ := page'
    dsimp only at hpid htd hheader htuples
    subst hpid htd hheader htuples
    rfl
  refine ⟨_, getPageData_eq h hs, getPageData_length h hs, ?_⟩
  rw [List.append_assoc, hnew, himage, getPageData_eq (decodable_image h) hs]
  rfl

/-- Every page built from an empty one by `deleteTuple` and by `addTuple` with
tuples that fit gives `PAGE_SIZE` bytes, from which the constructor makes a page
with the same header and the same fields in the same slots. -/
theorem getPageData_identical {pid : HeapPageId} {td : TupleDesc} (hs : td.Small)
    {empty page : HeapPage} (h₀ : HeapPage.new decode pid td createEmptyPageData = .ok empty)
    (h : Reaches step (fun page op => op.Fits decode page) empty page) :
    ∃ data page', page.getPageData = .ok data ∧ data.length = pageSize ∧
      HeapPage.new decode pid td data = .ok page' ∧ page'.header = page.header ∧
      ∀ i < page.tuples.length,
        (page'.occupant i).map Tuple.fields = (page.occupant i).map Tuple.fields := by
  obtain ⟨hdec, hpid, htd⟩ : page.Decodable decode ∧ page.pid = pid ∧ page.td = td := by
    refine h.invariant (I := fun p => p.Decodable decode ∧ p.pid = pid ∧ p.td = td) ?_ ?_
    · exact ⟨decodable_empty h₀, (new_ok h₀).1, (new_ok h₀).2.1⟩
    · rintro p op p' ⟨hp, hpid, htd⟩ hop hstep
      obtain ⟨hp', hpid', htd'⟩ := decodable_step hp hop hstep
      exact ⟨hp', hpid'.trans hpid, htd'.trans htd⟩
  subst hpid htd
  obtain ⟨data, hdata, hlen, hnew⟩ := new_getPageData hdec hs
  refine ⟨data, page.image, hdata, hlen, hnew, rfl, fun i _ => ?_⟩
  rw [occupant_image, reread, Option.map_map]
  rfl

/-- The charset ISO-8859-1. -/
def decodeLatin1 (bs : List UInt8) : List UInt16 := bs.map UInt8.toUInt16

/-- A number and a string. -/
def pairDesc : TupleDesc := ⟨[.intType, .stringType], by simp⟩

/-- The row `7, "ok"`. -/
def pairTuple : Tuple :=
  ⟨pairDesc, none, [some (.intField 7), some (.stringField (.new [111, 107] stringLen))], rfl⟩

/-- A page of pairs with one row. -/
theorem getPageData_identical_pair :
    ∃ empty page page' data, HeapPage.new decodeLatin1 ⟨0, 0⟩ pairDesc createEmptyPageData =
        .ok empty ∧ empty.addTuple pairTuple = .ok page ∧ page.getPageData = .ok data ∧
      HeapPage.new decodeLatin1 ⟨0, 0⟩ pairDesc data = .ok page' ∧
      page'.header = page.header := by
  have hrun : ((HeapPage.new decodeLatin1 ⟨0, 0⟩ pairDesc createEmptyPageData).bind
      fun empty => empty.addTuple pairTuple).isOk = true := by decide +kernel
  cases h₀ : HeapPage.new decodeLatin1 ⟨0, 0⟩ pairDesc createEmptyPageData with
  | error e => simp [h₀, Except.bind, Except.isOk, Except.toBool] at hrun
  | ok empty =>
    cases h₁ : empty.addTuple pairTuple with
    | error e => simp [h₀, h₁, Except.bind, Except.isOk, Except.toBool] at hrun
    | ok page =>
      have hfit : (PageOp.addTuple pairTuple).Fits decodeLatin1 empty := by
        rw [PageOp.Fits, (new_ok h₀).2.1]
        exact ⟨rfl, rfl, .cons (.int 7) (.cons (.string _ rfl (by decide)) .nil)⟩
      have hreach : Reaches step (fun page op => op.Fits decodeLatin1 page) empty page :=
        Reaches.refl.tail (e := .addTuple pairTuple) hfit (by simp [step, h₁, Except.toOption])
      obtain ⟨data, page', hdata, _, hnew, hheader, _⟩ :=
        getPageData_identical (fun _ => by decide) h₀ hreach
      exact ⟨empty, page, page', data, rfl, h₁, hdata, hnew, hheader⟩

/-- Rows of 31 strings, of which a page holds one. -/
def wideDesc : TupleDesc := ⟨List.replicate 31 .stringType, by simp⟩

/-- A page with a tuple just as `Tuple` makes it: its strings take 136 bytes each
where the columns have 132, and the data is too long. -/
theorem getPageData_too_long :
    ∃ empty page data, HeapPage.new decodeLatin1 ⟨0, 0⟩ wideDesc createEmptyPageData =
        .ok empty ∧ (Tuple.new wideDesc).td = wideDesc ∧ Reachable step empty page ∧
      page.getPageData = .ok data ∧ data.length ≠ pageSize := by
  have hrun : ((HeapPage.new decodeLatin1 ⟨0, 0⟩ wideDesc createEmptyPageData).bind fun empty =>
      (empty.addTuple (Tuple.new wideDesc)).bind fun page =>
        page.getPageData.map List.length).toOption = some 4220 := by decide +kernel
  cases h₀ : HeapPage.new decodeLatin1 ⟨0, 0⟩ wideDesc createEmptyPageData with
  | error e => simp [h₀, Except.bind, Except.toOption] at hrun
  | ok empty =>
    cases h₁ : empty.addTuple (Tuple.new wideDesc) with
    | error e => simp [h₀, h₁, Except.bind, Except.toOption] at hrun
    | ok page =>
      cases h₂ : page.getPageData with
      | error e => simp [h₀, h₁, h₂, Except.bind, Except.map, Except.toOption] at hrun
      | ok data =>
        have hlen : data.length = 4220 := by
          simpa [h₀, h₁, h₂, Except.bind, Except.map, Except.toOption] using hrun
        have hstep : step empty (.addTuple (Tuple.new wideDesc)) = some page := by
          simp [step, h₁, Except.toOption]
        exact ⟨empty, page, data, rfl, rfl, Reaches.refl.tail trivial hstep, h₂,
          by rw [hlen]; decide⟩

end HeapPage

end Courses.SimpleDb
