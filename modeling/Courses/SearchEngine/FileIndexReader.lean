import Courses.SearchEngine.FileIndexWriter

/-!
# Reading an index file

The readers of `hw3`: `FileIndexReader` checks the header, the length and the checksum
of a file, and hands out readers for its two tables; those look keys up through the
offsets in the file. Every `Verify333` is an assertion. A reader keeps the offset of its
table and the number of buckets it read when it was made.
-/
namespace Courses.SearchEngine

open Courses.Lib Courses.Lib.DiskM

structure IndexFileHeader where
  magicNumber : ℕ
  checksum : ℕ
  doctableSize : ℕ
  indexSize : ℕ
  deriving Repr, DecidableEq

structure HashTableReader where
  offset : ℕ
  numBuckets : ℕ
  deriving Repr, DecidableEq

/-- `Verify333(fread(..., n, 1, f) == 1)`. -/
def readExactly (n : ℕ) : DiskM (List UInt8) := do
  let bs ← fread n
  verify (bs.length = n)
  return bs

/-- `Verify333(fseek(...) == 0)`. -/
def seekTo (offset : ℕ) : DiskM Unit := do
  verify ((← fseek offset) = 0)

/-- The `i`-th number of four bytes in a record. -/
def field32 (bs : List UInt8) (i : ℕ) : ℕ := ofBe ((bs.drop i).take 4)

/-! ## The file -/

/-- The checksum loop: read and fold up to 512 bytes until none are left to read. -/
def validateLoop : ℕ → ℕ → UInt32 → DiskM UInt32
  | 0, _, _ => halt .fuel
  | fuel + 1, leftToRead, crc => do
    if leftToRead > 0 then
      let buf ← fread 512
      validateLoop fuel (sub32 leftToRead buf.length) (buf.foldl foldByteIntoCRC crc)
    else
      return crc

/-- The constructor. Each turn of the checksum loop reads a byte or more until the end of
the file, so a loop that takes more turns than there are bytes never ends. -/
def fileIndexReader (validate : Bool) : DiskM IndexFileHeader := do
  verify (← openRead)
  let bs ← readExactly HEADER_SIZE
  let header : IndexFileHeader := ⟨field32 bs 0, field32 bs 4, field32 bs 8, field32 bs 12⟩
  verify (header.magicNumber = MAGIC_NUMBER)
  let stSize ← size
  verify (u32 stSize = u32 (HEADER_SIZE + header.doctableSize + header.indexSize))
  if validate then
    let leftToRead := u32 (header.doctableSize + header.indexSize)
    let crc ← validateLoop (stSize + 1) leftToRead crcInitial
    verify ((getFinalCRC crc).toNat = header.checksum)
    return header
  else
    return header

/-- The constructor of a table reader. -/
def hashTableReader (offset : ℕ) : DiskM HashTableReader := do
  seekTo offset
  let bs ← readExactly 4
  return ⟨offset, field32 bs 0⟩

def getDocTableReader : DiskM HashTableReader := hashTableReader HEADER_SIZE

def getIndexTableReader (header : IndexFileHeader) : DiskM HashTableReader :=
  hashTableReader (u32 (HEADER_SIZE + header.doctableSize))

/-! ## Lookups -/

/-- The loop over the element positions of a bucket. -/
def readElementPositions : ℕ → DiskM (List ℕ)
  | 0 => return []
  | n + 1 => do
    let bs ← readExactly 4
    return field32 bs 0 :: (← readElementPositions n)

def lookupElementPositions (r : HashTableReader) (hashKey : HTKey) : DiskM (List ℕ) := do
  if r.numBuckets = 0 then
    halt .fault
  else
    let bucketNum := hashKey.toNat % r.numBuckets
    seekTo (u32 (r.offset + 4 + 8 * bucketNum))
    let bs ← readExactly 8
    let chainLen := field32 bs 0
    if chainLen = 0 then
      return []
    else
      seekTo (field32 bs 4)
      readElementPositions chainLen

/-- The first eight bytes as a document id. -/
def fieldDocID (bs : List UInt8) : HTKey := UInt64.ofNat (ofBe (bs.take 8))

/-- The loop of `DocTableReader::LookupDocID`. -/
def docTableLoop (docid : HTKey) : List ℕ → DiskM (Option (List UInt8))
  | [] => return none
  | nextOffset :: elements => do
    seekTo nextOffset
    let bs ← readExactly 10
    if fieldDocID bs = docid then
      return some (← readExactly (ofBe (bs.drop 8)))
    else
      docTableLoop docid elements

/-- `DocTableReader::LookupDocID`: the file name, or `none` for false. -/
def lookupDocName (r : HashTableReader) (docid : HTKey) : DiskM (Option (List UInt8)) := do
  docTableLoop docid (← lookupElementPositions r docid)

/-- The loop over the positions of a word in a document. -/
def readPositions : ℕ → DiskM (List UInt32)
  | 0 => return []
  | n + 1 => do
    let bs ← readExactly 4
    return UInt32.ofNat (field32 bs 0) :: (← readPositions n)

/-- The loop of `DocIDTableReader::LookupDocID`. -/
def docIDTableLoop (docid : HTKey) : List ℕ → DiskM (Option (List UInt32))
  | [] => return none
  | nextOffset :: elements => do
    seekTo nextOffset
    let bs ← readExactly 12
    if fieldDocID bs = docid then
      return some (← readPositions (field32 bs 8))
    else
      docIDTableLoop docid elements

/-- `DocIDTableReader::LookupDocID`: the positions, or `none` for false. -/
def lookupDocID (r : HashTableReader) (docid : HTKey) : DiskM (Option (List UInt32)) := do
  docIDTableLoop docid (← lookupElementPositions r docid)

/-- The chain of a bucket in `GetDocIDList`: `left` elements from the `j`-th on. -/
def docIDChain (bucketPosition : ℕ) : ℕ → ℕ → DiskM (List (HTKey × ℕ))
  | 0, _ => return []
  | left + 1, j => do
    seekTo (bucketPosition + 4 * j)
    let ep ← readExactly 4
    seekTo (field32 ep 0)
    let bs ← readExactly 12
    return (fieldDocID bs, field32 bs 8) :: (← docIDChain bucketPosition left (j + 1))

/-- The buckets of `GetDocIDList`: `left` of them from the `i`-th on. -/
def docIDBuckets (r : HashTableReader) : ℕ → ℕ → DiskM (List (HTKey × ℕ))
  | 0, _ => return []
  | left + 1, i => do
    seekTo (4 + 8 * i + r.offset)
    let bs ← readExactly 8
    let chain ← docIDChain (field32 bs 4) (field32 bs 0) 0
    return chain ++ (← docIDBuckets r left (i + 1))

/-- `GetDocIDList`: the documents of the table, with their numbers of positions. -/
def getDocIDList (r : HashTableReader) : DiskM (List (HTKey × ℕ)) :=
  docIDBuckets r r.numBuckets 0

/-- The loop of `LookupWord`. -/
def lookupWordLoop (word : List UInt8) : List ℕ → DiskM (Option HashTableReader)
  | [] => return none
  | nextOffset :: elements => do
    seekTo nextOffset
    let bs ← readExactly 6
    let wordLen := ofBe (bs.take 2)
    if wordLen ≠ word.length then
      lookupWordLoop word elements
    else if (← readExactly wordLen) = word then
      return some (← hashTableReader (u32 (nextOffset + 6 + wordLen)))
    else
      lookupWordLoop word elements

/-- `IndexTableReader::LookupWord`: a reader for the documents of the word, or `none`
for NULL. -/
def lookupWord (r : HashTableReader) (word : List UInt8) : DiskM (Option HashTableReader) := do
  lookupWordLoop word (← lookupElementPositions r (fnvHash64 word (u32 word.length)))

end Courses.SearchEngine
