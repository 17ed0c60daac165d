import Courses.Lib.Bytes
import Courses.Lib.Disk
import Courses.SearchEngine.HashTable

/-!
# Writing an index file

`hw3/fileindexwriter.cc`: a document table and an inverted index, written as chained
hash tables with absolute offsets, the tables of positions nested inside the elements
of the index. Numbers are big endian, as in `filelayout.h`. Offsets and sizes are
32-bit and wrap; zero is the answer for an error, as in the source.
-/
namespace Courses.SearchEngine

open Courses.Lib Courses.Lib.DiskM

/-! ## What is written -/

/-- A C string: its bytes up to the terminator. -/
structure CString where
  bytes : List UInt8
  nonul : 0 ∉ bytes
  deriving DecidableEq

namespace CString

/-! No letter is the null byte; the strings of one letter take it from here. -/

theorem nonul_a : (0 : UInt8) ∉ [97] := by decide
theorem nonul_b : (0 : UInt8) ∉ [98] := by decide
theorem nonul_f : (0 : UInt8) ∉ [102] := by decide

end CString

def strlen (s : CString) : ℕ := s.bytes.length

/-- A hash table as its chains, in the order an iterator meets them. -/
structure Table (V : Type) where
  buckets : List (List (HTKeyValue V))
  nonempty : buckets ≠ []
  placed : ∀ i chain, buckets[i]? = some chain →
    ∀ e ∈ chain, e.key.toNat % buckets.length = i
  nodup : (buckets.flatten.map HTKeyValue.key).Nodup

namespace Table

variable {V : Type}

def entries (t : Table V) : List (HTKeyValue V) := t.buckets.flatten

def lookup (t : Table V) (key : HTKey) : Option V :=
  (t.entries.find? fun e => e.key = key).map HTKeyValue.value

end Table

/-- A new index has 128 chains. -/
theorem indexBuckets_pos : (0 : ℕ) < 128 := by decide

/-- Entries in the chains their keys hash to. -/
def placeEntries {V : Type} (numBuckets : ℕ) (entries : List (HTKeyValue V)) :
    List (List (HTKeyValue V)) :=
  (List.range numBuckets).map fun i => entries.filter fun e => e.key.toNat % numBuckets = i

section Place

variable {V : Type} (numBuckets : ℕ) (entries : List (HTKeyValue V))

theorem placed_placeEntries :
    ∀ i chain, (placeEntries numBuckets entries)[i]? = some chain →
      ∀ e ∈ chain, e.key.toNat % (placeEntries numBuckets entries).length = i := by
  intro i chain hi e he
  rw [placeEntries, List.getElem?_map, Option.map_eq_some_iff] at hi
  obtain ⟨j, hj, rfl⟩ := hi
  obtain ⟨hlt, rfl⟩ := List.getElem?_eq_some_iff.1 hj
  rw [List.getElem_range] at he
  rw [placeEntries, List.length_map, List.length_range]
  simpa using (List.mem_filter.1 he).2

theorem placeEntries_subset : (placeEntries numBuckets entries).flatten ⊆ entries := by
  intro e he
  obtain ⟨chain, hchain, he⟩ := List.mem_flatten.1 he
  obtain ⟨i, -, rfl⟩ := List.mem_map.1 hchain
  exact List.mem_of_mem_filter he

/-- Each entry is in one chain. -/
theorem sum_placeEntries (hpos : 0 < numBuckets) (g : HTKeyValue V → ℕ) :
    ((placeEntries numBuckets entries).flatten.map g).sum = (entries.map g).sum := by
  have hsum : ((placeEntries numBuckets entries).flatten.map g).sum =
      ∑ i ∈ Finset.range numBuckets,
        ((entries.filter fun e => e.key.toNat % numBuckets = i).map g).sum := by
    rw [placeEntries, List.map_flatten, List.sum_flatten, List.map_map, List.map_map]
    rfl
  rw [hsum]
  clear hsum
  induction entries with
  | nil => simp
  | cons e entries ih =>
    have hchain (i : ℕ) :
        (((e :: entries).filter fun e => e.key.toNat % numBuckets = i).map g).sum =
          (if e.key.toNat % numBuckets = i then g e else 0) +
            ((entries.filter fun e => e.key.toNat % numBuckets = i).map g).sum := by
      rw [List.filter_cons]
      by_cases hi : e.key.toNat % numBuckets = i
      · simp [hi]
      · simp [hi]
    simp only [hchain, Finset.sum_add_distrib, ih, List.map_cons, List.sum_cons, Finset.sum_ite_eq,
      Finset.mem_range, Nat.mod_lt _ hpos, if_true]

variable {entries}

theorem nodup_placeEntries (h : (entries.map HTKeyValue.key).Nodup) :
    ((placeEntries numBuckets entries).flatten.map HTKeyValue.key).Nodup := by
  rw [List.map_flatten, placeEntries, List.map_map, List.nodup_flatten]
  constructor
  · intro keys hkeys
    obtain ⟨i, -, rfl⟩ := List.mem_map.1 hkeys
    exact h.sublist (List.filter_sublist.map _)
  · rw [List.pairwise_map]
    refine List.nodup_range.imp fun {i j} hne key hi hj => hne ?_
    obtain ⟨e, he, rfl⟩ := List.mem_map.1 hi
    obtain ⟨e', he', heq⟩ := List.mem_map.1 hj
    have hi' := (List.mem_filter.1 he).2
    have hj' := (List.mem_filter.1 he').2
    rw [decide_eq_true_eq] at hi' hj'
    rw [← hi', ← hj', heq]

end Place

/-- A table of given entries. -/
def Table.ofEntries {V : Type} (numBuckets : ℕ) (hpos : 0 < numBuckets)
    (entries : List (HTKeyValue V)) (hnodup : (entries.map HTKeyValue.key).Nodup) : Table V where
  buckets := placeEntries numBuckets entries
  nonempty := by
    intro hnil
    have := congrArg List.length hnil
    rw [placeEntries, List.length_map, List.length_range, List.length_nil] at this
    omega
  placed := placed_placeEntries numBuckets entries
  nodup := nodup_placeEntries numBuckets hnodup

@[simp] theorem Table.ofEntries_buckets {V : Type} (numBuckets : ℕ) (hpos : 0 < numBuckets)
    (entries : List (HTKeyValue V)) (hnodup : (entries.map HTKeyValue.key).Nodup) :
    (Table.ofEntries numBuckets hpos entries hnodup).buckets = placeEntries numBuckets entries := rfl

theorem Table.mem_ofEntries {V : Type} {numBuckets : ℕ} {hpos : 0 < numBuckets}
    {entries : List (HTKeyValue V)} {hnodup : (entries.map HTKeyValue.key).Nodup} {e : HTKeyValue V}
    (h : e ∈ (Table.ofEntries numBuckets hpos entries hnodup).entries) : e ∈ entries :=
  placeEntries_subset _ _ h

@[simp] theorem placeEntries_length {V : Type} (numBuckets : ℕ) (entries : List (HTKeyValue V)) :
    (placeEntries numBuckets entries).length = numBuckets := by
  simp [placeEntries]

/-- `FNVHash64`, the FNV-1a hash of the first `len` bytes. -/
def fnvHash64 (buffer : List UInt8) (len : ℕ) : HTKey :=
  (buffer.take len).foldl (fun hval b => (hval ^^^ b.toUInt64) * 0x100000001b3) 0xcbf29ce484222325

/-- The documents that contain a word, each with the positions of the word in it. -/
structure WordDocSet where
  word : CString
  docIDs : Table (List UInt32)

/-- A table of word sets under the hashes of their words. -/
structure MemIndex extends Table WordDocSet where
  hashed : ∀ e ∈ buckets.flatten,
    e.key = fnvHash64 e.value.word.bytes (strlen e.value.word % 2 ^ 32)

/-- The half of a `DocTable` that `DTGetDocidTable` gives: the file name of each
document. -/
abbrev DocTable := Table CString

/-! ## Arithmetic -/

/-- A `uint32_t`. -/
def u32 (n : ℕ) : ℕ := n % 2 ^ 32

/-- A `uint16_t`. -/
def u16 (n : ℕ) : ℕ := n % 2 ^ 16

/-- Subtraction of 32-bit words. -/
def sub32 (a b : ℕ) : ℕ := (a + 2 ^ 32 - b) % 2 ^ 32

/-! ## Hash tables -/

section HashTable

variable {V : Type}

/-- A `write_element_fn`. -/
abbrev WriteElementFn (V : Type) := ℕ → HTKeyValue V → DiskM ℕ

def writeBucketRecord (li : List (HTKeyValue V)) (brOffset bOffset : ℕ) : DiskM ℕ := do
  if (← fseek brOffset) ≠ 0 then
    return 0
  else if (← fwrite 8 (beBytes 4 li.length ++ beBytes 4 bOffset)) ≠ 1 then
    return 0
  else
    return 8

/-- The loop over a chain. -/
def writeBucketLoop (fn : WriteElementFn V) :
    List (HTKeyValue V) → ℕ → ℕ → ℕ → DiskM ℕ
  | [], _, bucketlen, _ => return bucketlen
  | kv :: chain, offset, bucketlen, nextelpos => do
    if (← fseek offset) ≠ 0 then
      return 0
    else if (← fwrite 4 (beBytes 4 nextelpos)) ≠ 1 then
      return 0
    else
      let ellen ← fn nextelpos kv
      writeBucketLoop fn chain (u32 (offset + 4)) (u32 (bucketlen + ellen)) (u32 (nextelpos + ellen))

def writeBucket (fn : WriteElementFn V) (li : List (HTKeyValue V)) (offset : ℕ) : DiskM ℕ :=
  let bucketlen := u32 (4 * li.length)
  writeBucketLoop fn li offset bucketlen (u32 (offset + bucketlen))

/-- The loop over the buckets; the answer is where the next bucket would go. -/
def writeBuckets (fn : WriteElementFn V) :
    List (List (HTKeyValue V)) → ℕ → ℕ → DiskM ℕ
  | [], _, nextBucketOffset => return nextBucketOffset
  | li :: lis, nextBucketRecOffset, nextBucketOffset => do
    let res ← writeBucketRecord li nextBucketRecOffset nextBucketOffset
    let nextBucketRecOffset := u32 (nextBucketRecOffset + res)
    if li.length = 0 then
      writeBuckets fn lis nextBucketRecOffset nextBucketOffset
    else
      let res ← writeBucket fn li nextBucketOffset
      writeBuckets fn lis nextBucketRecOffset (u32 (nextBucketOffset + res))

def writeHashTable (t : Table V) (offset : ℕ) (fn : WriteElementFn V) : DiskM ℕ := do
  let nextBucketRecOffset := u32 (offset + 4)
  if (← fseek offset) ≠ 0 then
    return 0
  else if (← fwrite 4 (beBytes 4 t.buckets.length)) ≠ 1 then
    return 0
  else
    let nextBucketOffset := u32 (nextBucketRecOffset + t.buckets.length * 8)
    let nextBucketOffset ← writeBuckets fn t.buckets nextBucketRecOffset nextBucketOffset
    return sub32 nextBucketOffset offset

end HashTable

/-! ## Elements -/

def writeDocidDocnameFn : WriteElementFn CString := fun offset kv => do
  let slen := u16 (strlen kv.value)
  if (← fseek offset) ≠ 0 then
    return 0
  else if (← fwrite 10 (beBytes 8 kv.key.toNat ++ beBytes 2 slen)) ≠ 1 then
    return 0
  else if (← fwrite 1 (kv.value.bytes.take slen)) ≠ slen then
    return 0
  else
    return u32 (10 + slen)

/-- The loop over the positions: the bytes written so far, or `none` where a write
fails. -/
def writePositions : List UInt32 → ℕ → DiskM (Option ℕ)
  | [], total => return some total
  | position :: positions, total => do
    if (← fwrite 4 (beBytes 4 position.toNat)) ≠ 1 then
      return none
    else
      writePositions positions (u32 (total + 4))

def writeDocPositionListFn : WriteElementFn (List UInt32) := fun offset kv => do
  let numPos := kv.value.length
  if (← fseek offset) ≠ 0 then
    return 0
  else if (← fwrite 12 (beBytes 8 kv.key.toNat ++ beBytes 4 numPos)) ≠ 1 then
    return 0
  else
    -- an iterator over an empty list is NULL
    verify (numPos ≠ 0)
    match ← writePositions kv.value 12 with
    | none => return 0
    | some total =>
      verify (total = 12 + 4 * numPos)
      return total

def writeWordDocSetFn : WriteElementFn WordDocSet := fun offset kv => do
  let wordlen := u16 (strlen kv.value.word)
  let htlen ← writeHashTable kv.value.docIDs (u32 (offset + 6 + wordlen)) writeDocPositionListFn
  if (← fseek offset) ≠ 0 then
    return 0
  else if (← fwrite 6 (beBytes 2 wordlen ++ beBytes 4 htlen)) ≠ 1 then
    return 0
  else if (← fwrite wordlen (kv.value.word.bytes.take wordlen)) ≠ 1 then
    return 0
  else
    return u32 (6 + wordlen + htlen)

/-! ## The checksum of `fileindexutil.cc` -/

/-- The loop of `CRC32Reflect` over the positions left. -/
def reflectLoop (c : ℕ) : ℕ → UInt32 → UInt32 → UInt32
  | 0, _, val => val
  | left + 1, reflectme, val =>
    let val := if reflectme &&& 1 ≠ 0 then val ||| ((1 : UInt32) <<< UInt32.ofNat left) else val
    reflectLoop c left (reflectme >>> 1) val

def crc32Reflect (reflectme : UInt32) (c : ℕ) : UInt32 := reflectLoop c c reflectme 0

def POLYNOMIAL : UInt32 := 0x04C11DB7

/-- One round of `Initialize` on an entry. -/
def crcRound (entry : UInt32) : UInt32 :=
  (entry <<< 1) ^^^ (if entry &&& ((1 : UInt32) <<< 31) ≠ 0 then POLYNOMIAL else 0)

/-- The entry of the table for a byte. -/
def crcTable (code : UInt32) : UInt32 :=
  crc32Reflect (crcRound^[8] (crc32Reflect code 8 <<< 24)) 32

def crcInitial : UInt32 := 0xFFFFFFFF

def foldByteIntoCRC (crcState : UInt32) (nextbyte : UInt8) : UInt32 :=
  (crcState >>> 8) ^^^ crcTable ((crcState &&& 0xFF) ^^^ nextbyte.toUInt32)

def getFinalCRC (crcState : UInt32) : UInt32 := crcState ^^^ 0xFFFFFFFF

/-! ## The file -/

def MAGIC_NUMBER : ℕ := 0xCAFEF00D

/-- The size of an `IndexFileHeader`. -/
def HEADER_SIZE : ℕ := 16

def writeDocTable (dt : DocTable) (offset : ℕ) : DiskM ℕ :=
  writeHashTable dt offset writeDocidDocnameFn

def writeMemIndex (mi : MemIndex) (offset : ℕ) : DiskM ℕ :=
  writeHashTable mi.toTable offset writeWordDocSetFn

/-- The loop that reads the tables back, a byte at a time; `none` where a read fails. -/
def checksumLoop : ℕ → UInt32 → DiskM (Option UInt32)
  | 0, crc => return some crc
  | left + 1, crc => do
    match ← fread 1 with
    | [byte] => checksumLoop left (foldByteIntoCRC crc byte)
    | _ => return none

def writeHeader (doctSize memidxSize : ℕ) : DiskM ℕ := do
  let cslen := u32 (doctSize + memidxSize)
  if (← fseek HEADER_SIZE) ≠ 0 then
    return 0
  else
    match ← checksumLoop cslen crcInitial with
    | none => return 0
    | some crc =>
      let checksum := (getFinalCRC crc).toNat
      if (← fseek 0) ≠ 0 then
        return 0
      else if (← fwrite HEADER_SIZE (beBytes 4 MAGIC_NUMBER ++ beBytes 4 checksum ++
          beBytes 4 doctSize ++ beBytes 4 memidxSize)) ≠ 1 then
        return 0
      else
        verify (← fsync)
        return HEADER_SIZE

def writeIndex (mi : MemIndex) (dt : DocTable) : DiskM ℕ := do
  if ← create then
    let dtres ← writeDocTable dt HEADER_SIZE
    if dtres = 0 then
      unlink
      return 0
    else
      let mires ← writeMemIndex mi (u32 (HEADER_SIZE + dtres))
      if mires = 0 then
        unlink
        return 0
      else
        let headerres ← writeHeader dtres mires
        if headerres = 0 then
          unlink
          return 0
        else
          return u32 (u32 (dtres + mires) + headerres)
  else
    return 0

end Courses.SearchEngine
