import Courses.Lib.Bytes
import Courses.Lib.Runs
import Mathlib.Data.List.GetD

/-!
# Fields, schemas and tuples of simpledb

The classes `Type`, `IntField`, `StringField`, `TupleDesc` and `Tuple` as far as
pages use them. Java's `int` is its bit pattern where it is data and an integer
wrapped to 32 bits where it is computed with; a string is its sequence of UTF-16
code units. The platform's charset, which `new String(bytes)` decodes with, is
the parameter `decode`.
-/
namespace Courses.SimpleDb

open Courses.Lib

/-- The value of an `int` expression with the given integer result. -/
def wrap32 (n : ℤ) : ℤ := n.bmod (2 ^ 32)

theorem wrap32_add (m n : ℤ) : wrap32 (wrap32 m + n) = wrap32 (m + n) := Int.bmod_add_bmod

theorem wrap32_eq {n : ℤ} (h : 0 ≤ n) (hlt : n < 2 ^ 31) : wrap32 n = n := by
  rw [wrap32, Int.bmod_eq_of_le] <;> omega

/-- The enumeration `Type`. -/
inductive FieldType
  | intType
  | stringType
  deriving DecidableEq, Repr

def stringLen : ℕ := 128

def FieldType.getLen : FieldType → ℕ
  | .intType => 4
  | .stringType => stringLen + 4

/-- A `StringField`. Its constructor cuts the string to the maximal size. -/
structure StringField where
  value : List UInt16
  maxSize : ℕ
  length_le : value.length ≤ maxSize
  deriving DecidableEq

def StringField.new (s : List UInt16) (maxSize : ℕ) : StringField :=
  ⟨s.take maxSize, maxSize, List.length_take_le _ _⟩

inductive Field
  | intField (value : UInt32)
  | stringField (f : StringField)
  deriving DecidableEq

/-- `DataOutputStream.writeInt`. -/
def writeInt (n : ℕ) : List UInt8 := beBytes 4 n

/-- `DataOutputStream.writeBytes`, which keeps the low byte of each character. -/
def writeBytes (s : List UInt16) : List UInt8 := s.map UInt16.toUInt8

def StringField.serialize (f : StringField) : List UInt8 :=
  let overflow : ℤ := f.maxSize - f.value.length
  let s := if overflow < 0 then f.value.take f.maxSize else f.value
  writeInt s.length ++ writeBytes s ++ List.replicate overflow.toNat 0

def Field.serialize : Field → List UInt8
  | .intField value => writeInt value.toNat
  | .stringField f => f.serialize

/-- What the methods of the page classes throw. The first group are the
`DbException`s of `HeapPage`, the second run-time exceptions of Java, the last the
end of the data on the way into a `ParseException` or `NoSuchElementException`. -/
inductive PageError
  | tupleDescMismatch
  | pageIsFull
  | pageMismatch
  | slotAlreadyEmpty (tupleno : ℤ)
  | arrayIndexOutOfBounds
  | nullPointer
  | negativeArraySize
  | endOfData
  deriving DecidableEq, Repr

/-- `DataInputStream.readInt` on the bytes that are left. -/
def readInt (dis : List UInt8) : Except PageError (ℕ × List UInt8) :=
  if dis.length < 4 then .error .endOfData else .ok (ofBe (dis.take 4), dis.drop 4)

/-- `Type.parse`. `read(bs)` leaves zeros where the data ends early, and
`skipBytes` of a negative number skips nothing. -/
def FieldType.parse (decode : List UInt8 → List UInt16) :
    FieldType → List UInt8 → Except PageError (Field × List UInt8)
  | .intType, dis => do
    let (n, dis) ← readInt dis
    return (.intField (.ofNat n), dis)
  | .stringType, dis => do
    let (strLen, dis) ← readInt dis
    if 2 ^ 31 ≤ strLen then throw .negativeArraySize
    let bs := (dis.take strLen).takeD strLen 0
    return (.stringField (.new (decode bs) stringLen),
      (dis.drop strLen).drop (stringLen - strLen))

/-- A schema. The field names play no part in what follows. -/
@[ext] structure TupleDesc where
  types : List FieldType
  ne_nil : types ≠ []
  deriving DecidableEq

namespace TupleDesc

def numFields (td : TupleDesc) : ℕ := td.types.length

/-- The sum is an `int`. -/
def getSize (td : TupleDesc) : ℤ :=
  td.types.foldl (fun len t => wrap32 (len + t.getLen)) 0

/-- The bytes of a row, as the schema promises them. -/
def rowBytes (td : TupleDesc) : ℕ := (td.types.map FieldType.getLen).sum

def equals (td other : TupleDesc) : Bool := td.types == other.types

theorem equals_iff {td other : TupleDesc} : td.equals other = true ↔ td = other :=
  beq_iff_eq.trans TupleDesc.ext_iff.symm

theorem rowBytes_pos (td : TupleDesc) : 0 < td.rowBytes := by
  obtain ⟨types, hne⟩ := td
  cases types with
  | nil => exact absurd rfl hne
  | cons t types =>
    have ht : 0 < t.getLen := by cases t <;> decide
    simp only [rowBytes, List.map_cons, List.sum_cons]
    omega

theorem foldl_wrap32 (types : List FieldType) (n : ℕ) :
    types.foldl (fun len t => wrap32 (len + t.getLen)) (wrap32 n) =
      wrap32 (n + (types.map FieldType.getLen).sum : ℕ) := by
  induction types generalizing n with
  | nil => rw [List.foldl_nil, List.map_nil, List.sum_nil, Nat.add_zero]
  | cons t types ih =>
    have h := ih (n + t.getLen)
    rw [Nat.cast_add, ← wrap32_add] at h
    rw [List.foldl_cons, List.map_cons, List.sum_cons, ← Nat.add_assoc]
    exact h

theorem getSize_eq (td : TupleDesc) (h : td.rowBytes < 2 ^ 31) : td.getSize = td.rowBytes := by
  have hsum := foldl_wrap32 td.types 0
  rw [Nat.zero_add, wrap32_eq (by omega) (by omega)] at hsum
  have hwrap : wrap32 (td.rowBytes : ℤ) = td.rowBytes := wrap32_eq (by omega) (by omega)
  exact hsum.trans hwrap

end TupleDesc

structure HeapPageId where
  tableId : ℤ
  pgNo : ℤ
  deriving DecidableEq, Repr

structure RecordId where
  pid : HeapPageId
  tupleno : ℤ
  deriving DecidableEq, Repr

/-- A tuple has one field, possibly `null`, for each type of its schema. -/
structure Tuple where
  td : TupleDesc
  rid : Option RecordId
  fields : List (Option Field)
  length_eq : fields.length = td.numFields
  deriving DecidableEq

namespace Tuple

/-- The value `Tuple` gives a field of a new tuple. -/
def defaultField : FieldType → Field
  | .intType => .intField 0
  | .stringType => .stringField (.new [] FieldType.stringType.getLen)

def new (td : TupleDesc) : Tuple :=
  ⟨td, none, td.types.map fun t => some (defaultField t), by simp [TupleDesc.numFields]⟩

def setField (t : Tuple) (i : ℕ) (f : Option Field) : Tuple :=
  { t with fields := t.fields.set i f, length_eq := by simp [t.length_eq] }

def setRecordId (t : Tuple) (rid : RecordId) : Tuple := { t with rid := some rid }

/-- `getField` followed by a call on the field. -/
def getField (t : Tuple) (i : ℕ) : Except PageError Field :=
  match t.fields[i]? with
  | some (some f) => .ok f
  | some none => .error .nullPointer
  | none => .error .arrayIndexOutOfBounds

end Tuple

/-! ## Fields survive the way to bytes and back -/

/-- The field has the type of its column and, if it is a string, the size of the
column and only characters the charset gives back for their low bytes. -/
inductive Fits (decode : List UInt8 → List UInt16) : FieldType → Field → Prop
  | int (value : UInt32) : Fits decode .intType (.intField value)
  | string (f : StringField) (hsize : f.maxSize = stringLen)
      (hchars : decode (writeBytes f.value) = f.value) : Fits decode .stringType (.stringField f)

theorem StringField.serialize_eq (f : StringField) : f.serialize =
    writeInt f.value.length ++ writeBytes f.value ++
      List.replicate (f.maxSize - f.value.length) 0 := by
  have h := f.length_le
  have hn : ¬ ((f.maxSize : ℤ) - f.value.length < 0) := by omega
  have ht : ((f.maxSize : ℤ) - f.value.length).toNat = f.maxSize - f.value.length := by omega
  simp only [serialize, if_neg hn, ht]

variable {decode : List UInt8 → List UInt16}

theorem Fits.serialize_length {t : FieldType} {f : Field} (h : Fits decode t f) :
    f.serialize.length = t.getLen := by
  cases h with
  | int value => simp [Field.serialize, writeInt, FieldType.getLen]
  | string f hsize _ =>
    have hle := f.length_le
    rw [hsize] at hle
    simp only [Field.serialize, StringField.serialize_eq, writeInt, writeBytes, hsize,
      List.length_append, beBytes_length, List.length_map, List.length_replicate,
      FieldType.getLen]
    omega

theorem readInt_writeInt {n : ℕ} (h : n < 2 ^ 32) (rest : List UInt8) :
    readInt (writeInt n ++ rest) = .ok (n, rest) := by
  have hlen : (writeInt n).length = 4 := beBytes_length 4 n
  have hlt : ¬ (writeInt n ++ rest).length < 4 := by simp [hlen]
  rw [readInt, if_neg hlt, List.take_left' hlen, List.drop_left' hlen, writeInt,
    ofBe_beBytes_of_lt (by simpa using h)]

theorem Fits.parse_serialize {t : FieldType} {f : Field} (h : Fits decode t f)
    (rest : List UInt8) : t.parse decode (f.serialize ++ rest) = .ok (f, rest) := by
  cases h with
  | int value =>
    have hv : value.toNat < 2 ^ 32 := value.toNat_lt
    simp only [FieldType.parse, Field.serialize, readInt_writeInt hv]
    simp [bind, Except.bind, pure, Except.pure]
  | string f hsize hchars =>
    obtain ⟨value, maxSize, hle⟩ := f
    dsimp only at hsize hchars
    subst hsize
    have hlen : value.length ≤ 128 := hle
    have hb : (writeBytes value).length = value.length := by simp [writeBytes]
    have hneg : ¬ 2 ^ 31 ≤ value.length := by omega
    simp only [FieldType.parse, Field.serialize, StringField.serialize_eq, List.append_assoc,
      readInt_writeInt (show value.length < 2 ^ 32 by omega)]
    simp only [bind, Except.bind, pure, Except.pure, if_neg hneg]
    rw [List.take_left' hb, List.drop_left' hb]
    have htake : (writeBytes value).takeD value.length 0 = writeBytes value := by
      rw [List.takeD_eq_take _ (le_of_eq hb.symm), ← hb, List.take_length]
    have hrest : (List.replicate (stringLen - value.length) 0 ++ rest).drop
        (stringLen - value.length) = rest := List.drop_left' List.length_replicate
    have hval : value.take stringLen = value := List.take_of_length_le hle
    simp only [htake, hchars, hrest, StringField.new, hval]

end Courses.SimpleDb

/-!
# Heap pages

`HeapPage.java`: a page is a bit for every slot in its header bytes and an array
of tuples. The functions on the header follow Java's arithmetic on `int` and
`byte`, for every `int` a caller can pass as a slot number. A page carries the
sizes its constructor gives the two arrays.
-/
namespace Courses.SimpleDb

open Courses.Lib

/-- `BufferPool.PAGE_SIZE` -/
def pageSize : ℕ := 4096

def getNumTuples (td : TupleDesc) : ℤ :=
  ((pageSize * 8 : ℕ) : ℤ).tdiv (wrap32 (wrap32 (td.getSize * 8) + 1))

def getHeaderSize (td : TupleDesc) : ℤ :=
  if (getNumTuples td).tmod 8 = 0 then (getNumTuples td).tdiv 8
  else (getNumTuples td).tdiv 8 + 1

/-! ## The header -/

/-- The distance of the shifts by `i % 8`, of which Java takes the low five bits. -/
def slotShift (i : ℤ) : ℕ := (i.tmod 8 % 32).toNat

/-- `header[i / 8]` -/
def headerByte (header : List UInt8) (i : ℤ) : Except PageError UInt8 :=
  if i.tdiv 8 < 0 then .error .arrayIndexOutOfBounds
  else match header[(i.tdiv 8).toNat]? with
    | none => .error .arrayIndexOutOfBounds
    | some b => .ok b

/-- `b >> j & 1`, after the promotion of the byte to `int`. -/
def bitOf (b : UInt8) (j : ℕ) : Bool := ((b.toBitVec.signExtend 32).sshiftRight j).getLsbD 0

def getSlot (header : List UInt8) (i : ℤ) : Except PageError Bool :=
  (headerByte header i).map fun b => bitOf b (slotShift i)

def setSlot (header : List UInt8) (i : ℤ) (value : Bool) : Except PageError (List UInt8) :=
  (headerByte header i).map fun orig =>
    let mask : BitVec 8 := (1#32 <<< slotShift i).setWidth 8
    header.set (i.tdiv 8).toNat (.ofBitVec
      (if value then orig.toBitVec ||| mask else orig.toBitVec &&& ~~~mask))

def getNumEmptySlots (header : List UInt8) : ℕ :=
  (header.map fun b => (List.range 8).countP fun j => !bitOf b j).sum

/-- The bit of a slot, for slots the header has. -/
def slotBit (header : List UInt8) (i : ℕ) : Bool :=
  (header.getD (i / 8) 0).toBitVec.getLsbD (i % 8)

theorem bitOf_eq (b : UInt8) {j : ℕ} (h : j < 8) : bitOf b j = b.toBitVec.getLsbD j := by
  rw [bitOf, BitVec.getLsbD_sshiftRight, BitVec.getLsbD_signExtend]
  have h32 : j < 32 := by omega
  simp [h, h32]

theorem slotShift_natCast (i : ℕ) : slotShift (i : ℤ) = i % 8 := by
  have hnn : (0 : ℤ) ≤ i := Int.natCast_nonneg i
  rw [slotShift, Int.tmod_eq_emod_of_nonneg hnn]
  omega

theorem tdiv_natCast (i : ℕ) : (i : ℤ).tdiv 8 = ((i / 8 : ℕ) : ℤ) := by
  rw [Int.tdiv_eq_ediv_of_nonneg (Int.natCast_nonneg i)]
  omega

theorem headerByte_ok {header : List UInt8} {i : ℤ} {b : UInt8}
    (h : headerByte header i = .ok b) :
    0 ≤ i.tdiv 8 ∧ header[(i.tdiv 8).toNat]? = some b := by
  unfold headerByte at h
  split_ifs at h with hneg
  split at h
  · cases h
  · next hb =>
    cases h
    exact ⟨Int.not_lt.mp hneg, hb⟩

theorem headerByte_natCast {header : List UInt8} {i : ℕ} (h : i / 8 < header.length) :
    headerByte header (i : ℤ) = .ok (header.getD (i / 8) 0) := by
  have hnn : ¬ ((i / 8 : ℕ) : ℤ) < 0 := by omega
  rw [headerByte, tdiv_natCast, if_neg hnn, Int.toNat_natCast, List.getElem?_eq_getElem h,
    List.getD_eq_getElem _ _ h]

theorem getSlot_natCast {header : List UInt8} {i : ℕ} (h : i / 8 < header.length) :
    getSlot header (i : ℤ) = .ok (slotBit header i) := by
  rw [getSlot, headerByte_natCast h, slotShift_natCast, slotBit,
    ← bitOf_eq _ (Nat.mod_lt i (by decide))]
  rfl

theorem setSlot_length {header header' : List UInt8} {i : ℤ} {value : Bool}
    (h : setSlot header i value = .ok header') : header'.length = header.length := by
  unfold setSlot at h
  cases hb : headerByte header i with
  | error e => simp [hb, Except.map] at h
  | ok b =>
    simp only [hb, Except.map, Except.ok.injEq] at h
    rw [← h, List.length_set]

theorem mask_getLsbD {sh j : ℕ} (hsh : sh < 32) (hj : j < 8) :
    ((1#32 <<< sh).setWidth 8).getLsbD j = decide (j = sh) := by
  rw [BitVec.getLsbD_setWidth, BitVec.getLsbD_shiftLeft, BitVec.getLsbD_one]
  by_cases h : j = sh
  · simp [h, hsh, show sh < 8 by omega]
  · simp only [h, decide_false, Bool.and_eq_false_iff, decide_eq_false_iff_not,
      Bool.not_eq_eq_eq_not, Bool.not_false, decide_eq_true_eq]
    omega

/-- The slot numbers that are negative and still reach a byte reach none of its bits. -/
theorem slotShift_iff {i : ℤ} (hi : 0 ≤ i.tdiv 8) (j : ℕ) :
    j / 8 = (i.tdiv 8).toNat ∧ j % 8 = slotShift i ↔ (j : ℤ) = i := by
  unfold slotShift
  rcases lt_or_ge i 0 with hneg | hnn
  · have hmod := Int.tmod_add_mul_tdiv i 8
    have hle : -8 < i.tmod 8 := Int.lt_tmod_of_pos i (by decide)
    constructor
    · rintro ⟨_, h⟩
      omega
    · intro h
      omega
  · rw [Int.tdiv_eq_ediv_of_nonneg hnn, Int.tmod_eq_emod_of_nonneg hnn]
    omega

/-- `setSlot` changes the bit of its slot and no other, whatever the slot number. -/
theorem setSlot_bits {header header' : List UInt8} {i : ℤ} {value : Bool}
    (h : setSlot header i value = .ok header') (j : ℕ) :
    slotBit header' j = if (j : ℤ) = i then value else slotBit header j := by
  unfold setSlot at h
  cases hb : headerByte header i with
  | error e => simp [hb, Except.map] at h
  | ok b =>
    simp only [hb, Except.map, Except.ok.injEq] at h
    subst h
    obtain ⟨hnn, hget⟩ := headerByte_ok hb
    obtain ⟨hlt, hbyte⟩ := List.getElem?_eq_some_iff.mp hget
    have hshift : slotShift i < 32 := by
      unfold slotShift
      omega
    have hj : j % 8 < 8 := Nat.mod_lt j (by decide)
    have hiff := slotShift_iff hnn j
    unfold slotBit
    by_cases hk : j / 8 = (i.tdiv 8).toNat
    · rw [hk, List.getD_eq_getElem _ _ (by simpa using hlt), List.getElem_set_self,
        List.getD_eq_getElem _ _ hlt, hbyte, UInt8.toBitVec_ofBitVec]
      simp only [hk, true_and] at hiff
      cases value with
      | true =>
        rw [if_pos rfl, BitVec.getLsbD_or, mask_getLsbD hshift hj]
        by_cases hji : j % 8 = slotShift i <;> simp [hji, ← hiff]
      | false =>
        rw [if_neg Bool.false_ne_true, BitVec.getLsbD_and, BitVec.getLsbD_not,
          mask_getLsbD hshift hj]
        by_cases hji : j % 8 = slotShift i <;> simp [hji, ← hiff, hj]
    · have hne : (j : ℤ) ≠ i := fun h => hk (hiff.mpr h).1
      rw [if_neg hne, List.getD_eq_getElem?_getD, List.getElem?_set_ne (fun h => hk h.symm),
        ← List.getD_eq_getElem?_getD]

theorem setSlot_natCast {header : List UInt8} {i : ℕ} (hi : i / 8 < header.length)
    (value : Bool) : ∃ header', setSlot header (i : ℤ) value = .ok header' :=
  ⟨_, by rw [setSlot, headerByte_natCast hi]; rfl⟩

/-! ## The page -/

structure HeapPage where
  pid : HeapPageId
  td : TupleDesc
  header : List UInt8
  tuples : List (Option Tuple)
  numSlots_nonneg : 0 ≤ getNumTuples td
  header_length : header.length = (getHeaderSize td).toNat
  tuples_length : tuples.length = (getNumTuples td).toNat

/-- The loop of `readNextTuple` over the fields from the `j`-th on. -/
def readFields (decode : List UInt8 → List UInt16) :
    List FieldType → ℕ → Tuple → List UInt8 → Except PageError (Tuple × List UInt8)
  | [], _, t, dis => .ok (t, dis)
  | type :: types, j, t, dis => do
    let (f, dis) ← type.parse decode dis
    readFields decode types (j + 1) (t.setField j (some f)) dis

def readNextTuple (decode : List UInt8 → List UInt16) (pid : HeapPageId) (td : TupleDesc)
    (header : List UInt8) (slotId : ℕ) (dis : List UInt8) :
    Except PageError (Option Tuple × List UInt8) := do
  if ← getSlot header slotId then
    let (t, dis) ← readFields decode td.types 0 ((Tuple.new td).setRecordId ⟨pid, slotId⟩) dis
    return (some t, dis)
  else if dis.length < td.getSize.toNat then throw .endOfData
  else return (none, dis.drop td.getSize.toNat)

/-- The loop of the constructor over the `n` slots from the `i`-th on. The end of
the data, a `NoSuchElementException` there, leaves the rest of the array `null`. -/
def readTuples (decode : List UInt8 → List UInt16) (pid : HeapPageId) (td : TupleDesc)
    (header : List UInt8) : ℕ → ℕ → List UInt8 → Except PageError (List (Option Tuple))
  | 0, _, _ => .ok []
  | n + 1, i, dis =>
    match readNextTuple decode pid td header i dis with
    | .ok (t, dis) => (t :: ·) <$> readTuples decode pid td header n (i + 1) dis
    | .error .endOfData => .ok (List.replicate (n + 1) none)
    | .error e => .error e

theorem readTuples_length {decode : List UInt8 → List UInt16} {pid : HeapPageId} {td : TupleDesc}
    {header : List UInt8} (n i : ℕ) (dis : List UInt8) {tuples : List (Option Tuple)}
    (h : readTuples decode pid td header n i dis = .ok tuples) : tuples.length = n := by
  induction n generalizing i dis tuples with
  | zero =>
    cases h
    rfl
  | succ n ih =>
    simp only [readTuples] at h
    split at h
    · next t dis' _ =>
      cases hr : readTuples decode pid td header n (i + 1) dis' with
      | error e => simp [hr, Functor.map, Except.map] at h
      | ok ts =>
        simp only [hr, Functor.map, Except.map, Except.ok.injEq] at h
        rw [← h, List.length_cons, ih _ _ hr]
    · cases h
      simp
    · cases h

namespace HeapPage

/-- What `getPageData` writes for one slot. -/
def slotData (page : HeapPage) (i : ℕ) : Except PageError (List UInt8) := do
  if ← getSlot page.header i then
    match page.tuples[i]? with
    | some (some t) => do
      let fields ← (List.range page.td.numFields).mapM t.getField
      return fields.flatMap Field.serialize
    | _ => throw .nullPointer
  else return List.replicate page.td.getSize.toNat 0

def getPageData (page : HeapPage) : Except PageError (List UInt8) := do
  let slots ← (List.range page.tuples.length).mapM page.slotData
  let zerolen := wrap32 (pageSize - (page.header.length + page.td.getSize * page.tuples.length))
  if zerolen < 0 then throw .negativeArraySize
  return page.header ++ slots.flatten ++ List.replicate zerolen.toNat 0

/-- The constructor; the call of `setBeforeImage` at its end can throw. -/
def new (decode : List UInt8 → List UInt16) (pid : HeapPageId) (td : TupleDesc)
    (data : List UInt8) : Except PageError HeapPage :=
  if getHeaderSize td < 0 then .error .negativeArraySize
  else if hdata : data.length < (getHeaderSize td).toNat then .error .endOfData
  else if hslots : getNumTuples td < 0 then .error .negativeArraySize
  else
    let header := data.take (getHeaderSize td).toNat
    match htuples : readTuples decode pid td header (getNumTuples td).toNat 0
        (data.drop (getHeaderSize td).toNat) with
    | .error e => .error e
    | .ok tuples =>
      let page : HeapPage := {
        pid := pid
        td := td
        header := header
        tuples := tuples
        numSlots_nonneg := by omega
        header_length := by simp only [header, List.length_take]; omega
        tuples_length := readTuples_length _ _ _ htuples }
      page.getPageData.map fun _ => page

def createEmptyPageData : List UInt8 := List.replicate pageSize 0

/-- The number of the first slot whose bit is clear, `-1` if there is none. -/
def getFirstEmptySlot (page : HeapPage) : ℤ :=
  match (List.range page.tuples.length).find?
      fun (i : ℕ) => getSlot page.header i matches .ok false with
  | some i => i
  | none => -1

def addTuple (page : HeapPage) (t : Tuple) : Except PageError HeapPage :=
  if t.td.equals page.td = false then .error .tupleDescMismatch
  else if getNumEmptySlots page.header = 0 then .error .pageIsFull
  else
    let tupleno := page.getFirstEmptySlot
    if tupleno < 0 then .error .arrayIndexOutOfBounds
    else match hset : setSlot page.header tupleno true with
      | .error e => .error e
      | .ok header => .ok { page with
          header := header
          tuples := page.tuples.set tupleno.toNat (some (t.setRecordId ⟨page.pid, tupleno⟩))
          header_length := (setSlot_length hset).trans page.header_length
          tuples_length := List.length_set.trans page.tuples_length }

def deleteTuple (page : HeapPage) (t : Tuple) : Except PageError HeapPage :=
  match t.rid with
  | none => .error .nullPointer
  | some rid =>
    if page.pid ≠ rid.pid then .error .pageMismatch
    else match getSlot page.header rid.tupleno with
      | .error e => .error e
      | .ok false => .error (.slotAlreadyEmpty rid.tupleno)
      | .ok true =>
        match hset : setSlot page.header rid.tupleno false with
        | .error e => .error e
        | .ok header => .ok { page with
            header := header
            header_length := (setSlot_length hset).trans page.header_length }

end HeapPage

/-- A call that changes a page. -/
inductive PageOp
  | addTuple (t : Tuple)
  | deleteTuple (t : Tuple)

namespace HeapPage

/-- A call that throws leaves the page as it is, so only the others are steps. -/
def step (page : HeapPage) : PageOp → Option HeapPage
  | .addTuple t => (page.addTuple t).toOption
  | .deleteTuple t => (page.deleteTuple t).toOption

/-- The tuple in a slot, for slots in use. -/
def occupant (page : HeapPage) (i : ℕ) : Option Tuple :=
  if slotBit page.header i then page.tuples[i]?.join else none

end HeapPage

end Courses.SimpleDb
