import Courses.Lib.Numbers
import Courses.SimpleDb.Operators
import Courses.SimpleDb.PageRoundTrip

/-!
# Encoding heap files

`HeapFileEncoder`: a list of integer tuples is written as text, one line a tuple, and the
text is read back character by character into pages. Text is a list of UTF-16 code units.
-/
namespace Courses.SimpleDb

open Courses.Lib

inductive EncodeError
  | tooManyFields (numFields : ℕ) (tuple : List UInt32)
  | arrayIndexOutOfBounds
  deriving DecidableEq

def comma : UInt16 := 44

def newline : UInt16 := 10

def carriageReturn : UInt16 := 13

def minusSign : UInt16 := 45

def plusSign : UInt16 := 43

/-! ## Numbers as text -/

/-- The text of a number without sign. -/
def digitText (n : ℕ) : List UInt16 := (decimal n).map fun d => .ofNat (48 + d)

/-- `String.valueOf` of an `Integer`. -/
def valueOf (field : UInt32) : List UInt16 :=
  let n := intValue field
  if n < 0 then minusSign :: digitText n.natAbs else digitText n.natAbs

/-- `Character.digit` in base ten, for the characters of ASCII. -/
def digit (c : UInt16) : Option ℕ :=
  if 48 ≤ c.toNat ∧ c.toNat < 58 then some (c.toNat - 48) else none

/-- `Integer.parseInt`, `none` for a `NumberFormatException`. -/
def parseInt (s : List UInt16) : Option ℤ := do
  let (negative, digits) :=
    match s with
    | c :: rest => if c = minusSign then (true, rest) else if c = plusSign then (false, rest)
      else (false, s)
    | [] => (false, [])
  if digits = [] then none
  let n := ofDecimal (← digits.mapM digit)
  let value : ℤ := if negative then -n else n
  if -2 ^ 31 ≤ value ∧ value < 2 ^ 31 then some value else none

/-- `String.trim` -/
def trim (s : List UInt16) : List UInt16 :=
  ((s.dropWhile (· ≤ 32)).reverse.dropWhile (· ≤ 32)).reverse

/-! ## The text of the tuples -/

/-- The loop over the fields of a tuple. -/
def writeTuple (numFields : ℕ) (tuple : List UInt32) :
    ℕ → List UInt32 → Except EncodeError (List UInt16)
  | _, [] => return []
  | writtenFields, field :: fields => do
    if writtenFields + 1 > numFields then throw (.tooManyFields numFields tuple)
    let rest ← writeTuple numFields tuple (writtenFields + 1) fields
    return valueOf field ++ ((if writtenFields + 1 < numFields then [comma] else []) ++ rest)

/-- The temporary file. -/
def writeTuples (numFields : ℕ) : List (List UInt32) → Except EncodeError (List UInt16)
  | [] => return []
  | tuple :: tuples => do
    let line ← writeTuple numFields tuple 0 tuple
    return line ++ newline :: (← writeTuples numFields tuples)

/-! ## The pages of the text -/

/-- What `convert` computes before its loop. -/
structure PageLayout where
  npagebytes : ℤ
  nrecbytes : ℤ
  nrecords : ℤ
  nheaderbytes : ℤ
  typeAr : List FieldType

def PageLayout.new (npagebytes : ℤ) (numFields : ℕ) (typeAr : List FieldType) :
    Except EncodeError PageLayout :=
  if typeAr.length < numFields then .error .arrayIndexOutOfBounds
  else
    let nrecbytes := (typeAr.take numFields).foldl (fun n t => wrap32 (n + t.getLen)) 0
    let nrecords := (wrap32 (npagebytes * 8)).tdiv (wrap32 (wrap32 (nrecbytes * 8) + 1))
    let nheaderbytes := nrecords.tdiv 8
    .ok ⟨npagebytes, nrecbytes, nrecords,
      if nheaderbytes * 8 < nrecords then nheaderbytes + 1 else nheaderbytes, typeAr⟩

/-- The variables of the loop, with the bytes written to the page and to the file. -/
structure EncoderState where
  buf : List UInt16
  recordcount : ℕ
  npages : ℕ
  fieldNo : ℕ
  first : Bool
  page : List UInt8
  out : List UInt8

/-- One round of the loop that writes the header bits. -/
def headerRound (recordcount : ℕ) (acc : UInt8 × List UInt8) (i : ℕ) : UInt8 × List UInt8 :=
  let headerbyte : UInt8 :=
    if i < recordcount then .ofBitVec (acc.1.toBitVec ||| 1#8 <<< (i % 8)) else acc.1
  if (i + 1) % 8 = 0 then (0, acc.2 ++ [headerbyte]) else (headerbyte, acc.2)

/-- The header of a page. -/
def headerBytes (nheaderbytes : ℤ) (recordcount : ℕ) : List UInt8 :=
  let nheaderbits := (nheaderbytes * 8).toNat
  let acc := (List.range nheaderbits).foldl (headerRound recordcount) (0, [])
  if nheaderbits % 8 > 0 then acc.2 ++ [acc.1] else acc.2

namespace EncoderState

/-- A buffer of `char`s that is too small for the text of a field. -/
def bufSize : ℕ := 1024

def start : EncoderState := ⟨[], 0, 0, 0, true, [], []⟩

/-- Write the page to the file. -/
def flushPage (p : PageLayout) (s : EncoderState) : EncoderState :=
  let zeros := wrap32 (p.npagebytes - wrap32 (wrap32 (s.recordcount * p.nrecbytes) + p.nheaderbytes))
  { s with
    out := s.out ++ headerBytes p.nheaderbytes s.recordcount ++ s.page ++
      List.replicate zeros.toNat 0
    page := []
    recordcount := 0
    npages := s.npages + 1 }

/-- The end of a round of the loop. -/
def flush (p : PageLayout) (done : Bool) (s : EncoderState) : EncoderState :=
  if p.nrecords ≤ s.recordcount ∨ done ∧ s.recordcount > 0 ∨ done ∧ s.npages = 0 then s.flushPage p
  else s

/-- The bytes of a field of the text. A number that is not one is only reported. -/
def fieldBytes (type : FieldType) (s : List UInt16) : List UInt8 :=
  match type with
  | .intType =>
    match parseInt (trim s) with
    | some n => writeInt (n % 2 ^ 32).toNat
    | none => []
  | .stringType =>
    let s := trim s
    let overflow : ℤ := stringLen - s.length
    let s := if overflow < 0 then s.take stringLen else s
    writeInt s.length ++ writeBytes s ++ List.replicate overflow.toNat 0

/-- The end of a field. -/
def endField (p : PageLayout) (c : UInt16) (s : EncoderState) : Except EncodeError EncoderState :=
  match p.typeAr[s.fieldNo]? with
  | none => .error .arrayIndexOutOfBounds
  | some type => .ok
    { s with
      page := s.page ++ fieldBytes type s.buf
      buf := []
      fieldNo := if c = newline then 0 else s.fieldNo + 1 }

/-- A round of the loop for a character. -/
def readChar (p : PageLayout) (s : EncoderState) (c : UInt16) : Except EncodeError EncoderState :=
  if c = carriageReturn then .ok s
  else if c = newline ∧ s.first then .ok s
  else
    let s := if c = newline then { s with recordcount := s.recordcount + 1, first := true }
      else { s with first := false }
    if c = comma ∨ c = newline then (s.endField p c).map (flush p false)
    else if s.buf.length < bufSize then .ok { s with buf := s.buf ++ [c] }
    else .error .arrayIndexOutOfBounds

end EncoderState

/-- `convert` of a text file. -/
def convertText (text : List UInt16) (npagebytes : ℤ) (numFields : ℕ) (typeAr : List FieldType) :
    Except EncodeError (List UInt8) := do
  let p ← PageLayout.new npagebytes numFields typeAr
  let s ← text.foldlM (EncoderState.readChar p) .start
  return (EncoderState.flush p true { s with first := false }).out

/-- `convert` of a list of tuples. -/
def convert (tuples : List (List UInt32)) (npagebytes : ℤ) (numFields : ℕ) :
    Except EncodeError (List UInt8) := do
  let text ← writeTuples numFields tuples
  convertText text npagebytes numFields (List.replicate numFields .intType)

/-- A round of the loop in the constructor of a page's iterator. -/
def HeapPage.addIfUsed (page : HeapPage) (tups : List (Option Tuple)) (i : ℕ) :
    Except PageError (List (Option Tuple)) := do
  if ← getSlot page.header i then return tups ++ [page.tuples[i]?.join] else return tups

/-- The tuples of a page's iterator: those of the slots in use. -/
def HeapPage.iterator (page : HeapPage) : Except PageError (List (Option Tuple)) :=
  (List.range page.tuples.length).foldlM page.addIfUsed []

/-- The tuples of the pages of a table, read in order. -/
def readPages (decode : List UInt8 → List UInt16) (tableId : ℤ) (td : TupleDesc) :
    ℕ → List (List UInt8) → Except PageError (List (Option Tuple))
  | _, [] => return []
  | pgNo, data :: pages => do
    let page ← HeapPage.new decode ⟨tableId, pgNo⟩ td data
    let tups ← page.iterator
    return tups ++ (← readPages decode tableId td (pgNo + 1) pages)

end Courses.SimpleDb
