import Courses.SearchEngine.FileIndexReader

/-!
# The bytes of an index file

A pure description of the file format: the bytes of a table that starts at a given
offset. The writer, which seeks back and forth between bucket records, position arrays
and elements, leaves exactly these bytes (`writeHashTable_completes`), with no gap
between them and nothing changed around them.
-/
namespace Courses.SearchEngine

open Courses.Lib Courses.Lib.DiskM

/-! ## Encoding a table -/

section Encode

variable {V : Type}

/-- The bytes of an element that starts at a given offset. -/
abbrev Encoder (V : Type) := ℕ → HTKeyValue V → List UInt8

variable (enc : Encoder V)

/-- The elements of a chain, from `off` on. -/
def elementBytes : ℕ → List (HTKeyValue V) → List UInt8
  | _, [] => []
  | off, kv :: chain => enc off kv ++ elementBytes (off + (enc off kv).length) chain

/-- Where each of them starts. -/
def elementOffsets : ℕ → List (HTKeyValue V) → List ℕ
  | _, [] => []
  | off, kv :: chain => off :: elementOffsets (off + (enc off kv).length) chain

/-- An array of element positions. -/
def positionBytes (es : List ℕ) : List UInt8 := es.flatMap (beBytes 4)

def encodeBucket (off : ℕ) (chain : List (HTKeyValue V)) : List UInt8 :=
  positionBytes (elementOffsets enc (off + 4 * chain.length) chain) ++
    elementBytes enc (off + 4 * chain.length) chain

/-- The buckets, from `off` on. -/
def bucketBytes : ℕ → List (List (HTKeyValue V)) → List UInt8
  | _, [] => []
  | off, chain :: chains =>
    encodeBucket enc off chain ++ bucketBytes (off + (encodeBucket enc off chain).length) chains

/-- The bucket records for buckets from `off` on. -/
def bucketRecords : ℕ → List (List (HTKeyValue V)) → List UInt8
  | _, [] => []
  | off, chain :: chains =>
    beBytes 4 chain.length ++ beBytes 4 off ++
      bucketRecords (off + (encodeBucket enc off chain).length) chains

/-- Where the first bucket goes. -/
def bucketStart (off : ℕ) (buckets : List (List (HTKeyValue V))) : ℕ := off + 4 + 8 * buckets.length

def encodeTable (off : ℕ) (buckets : List (List (HTKeyValue V))) : List UInt8 :=
  beBytes 4 buckets.length ++ bucketRecords enc (bucketStart off buckets) buckets ++
    bucketBytes enc (bucketStart off buckets) buckets

variable {enc}

@[simp] theorem elementOffsets_length (off : ℕ) (chain : List (HTKeyValue V)) :
    (elementOffsets enc off chain).length = chain.length := by
  induction chain generalizing off with
  | nil => rfl
  | cons kv chain ih => simp [elementOffsets, ih]

@[simp] theorem positionBytes_length (es : List ℕ) : (positionBytes es).length = 4 * es.length := by
  induction es with
  | nil => rfl
  | cons e es ih =>
    rw [positionBytes, List.flatMap_cons, List.length_append, beBytes_length, List.length_cons]
    change 4 + (positionBytes es).length = _
    omega

@[simp] theorem bucketRecords_length (off : ℕ) (chains : List (List (HTKeyValue V))) :
    (bucketRecords enc off chains).length = 8 * chains.length := by
  induction chains generalizing off with
  | nil => rfl
  | cons chain chains ih =>
    rw [bucketRecords, List.length_append, List.length_append, beBytes_length, beBytes_length, ih,
      List.length_cons]
    omega

@[simp] theorem encodeBucket_nil (off : ℕ) : encodeBucket enc off [] = [] := rfl

theorem encodeBucket_length (off : ℕ) (chain : List (HTKeyValue V)) :
    (encodeBucket enc off chain).length =
      4 * chain.length + (elementBytes enc (off + 4 * chain.length) chain).length := by
  rw [encodeBucket, List.length_append, positionBytes_length, elementOffsets_length]

theorem encodeTable_length (enc : Encoder V) (off : ℕ) (buckets : List (List (HTKeyValue V))) :
    (encodeTable enc off buckets).length =
      4 + 8 * buckets.length + (bucketBytes enc (bucketStart off buckets) buckets).length := by
  rw [encodeTable, List.length_append, List.length_append, beBytes_length, bucketRecords_length]

/-- The length of a table whose elements have lengths of their own. -/
theorem encodeTable_length_of {len : HTKeyValue V → ℕ} (h : ∀ off kv, (enc off kv).length = len kv)
    (off : ℕ) (buckets : List (List (HTKeyValue V))) :
    (encodeTable enc off buckets).length =
      4 + 8 * buckets.length + (buckets.flatten.map fun kv => 4 + len kv).sum := by
  have helements (next : ℕ) (chain : List (HTKeyValue V)) :
      4 * chain.length + (elementBytes enc next chain).length =
        (chain.map fun kv => 4 + len kv).sum := by
    induction chain generalizing next with
    | nil => rfl
    | cons kv chain ih =>
      have := ih (next + (enc next kv).length)
      rw [elementBytes, List.length_append, h, List.length_cons, List.map_cons, List.sum_cons]
      rw [h] at this
      omega
  have hbuckets (next : ℕ) : (bucketBytes enc next buckets).length =
      (buckets.flatten.map fun kv => 4 + len kv).sum := by
    induction buckets generalizing next with
    | nil => rfl
    | cons chain chains ih =>
      rw [bucketBytes, List.length_append, encodeBucket_length, helements, ih, List.flatten_cons,
        List.map_append, List.sum_append]
  rw [encodeTable_length, hbuckets]

theorem encodeTable_ofEntries_length {len : HTKeyValue V → ℕ}
    (h : ∀ off kv, (enc off kv).length = len kv) (off numBuckets : ℕ) (hpos : 0 < numBuckets)
    (entries : List (HTKeyValue V)) (hnodup : (entries.map HTKeyValue.key).Nodup) :
    (encodeTable enc off (Table.ofEntries numBuckets hpos entries hnodup).buckets).length =
      4 + 8 * numBuckets + (entries.map fun kv => 4 + len kv).sum := by
  rw [encodeTable_length_of h, Table.ofEntries_buckets, placeEntries_length,
    sum_placeEntries _ _ hpos]

end Encode

/-! ## The writer -/

/-- The disk after `bs` has been written at `off`, the position apart. -/
structure Put (d : Disk) (off : ℕ) (bs : List UInt8) (d' : Disk) : Prop where
  file : d'.file = d.file.put off bs
  linked : d'.linked = d.linked

theorem u32_eq {n : ℕ} (h : n < 2 ^ 32) : u32 n = n := Nat.mod_eq_of_lt h

section Write

variable {V : Type} {fn : WriteElementFn V} {enc : Encoder V} {ok : HTKeyValue V → Prop} {d : Disk}

/-- `fn` writes the encoding of every element that is `ok`, wherever it fits. -/
def Writes (fn : WriteElementFn V) (enc : Encoder V) (ok : HTKeyValue V → Prop) : Prop :=
  ∀ off kv d, ok kv → off + (enc off kv).length < 2 ^ 32 →
    Completes (fn off kv) d fun n d' => n = (enc off kv).length ∧ Put d off (enc off kv) d'

theorem writeBucketRecord_completes (chain : List (HTKeyValue V)) (brOffset bOffset : ℕ) :
    Completes (writeBucketRecord chain brOffset bOffset) d fun n d' =>
      n = 8 ∧ Put d brOffset (beBytes 4 chain.length ++ beBytes 4 bOffset) d' := by
  rw [writeBucketRecord]
  apply completes_fseek
  rw [if_neg (by decide)]
  apply completes_fwrite
  have hlen : (beBytes 4 chain.length ++ beBytes 4 bOffset).length / 8 = 1 := by simp
  rw [hlen, if_neg (by decide)]
  exact completes_pure ⟨rfl, rfl, rfl⟩

/-- The loop fills the position array and the elements side by side. -/
theorem writeBucketLoop_completes (hfn : Writes fn enc ok) (chain : List (HTKeyValue V))
    (hok : ∀ kv ∈ chain, ok kv) {off blen next : ℕ} (hoff : off + 4 * chain.length ≤ next)
    (hnext : next + (elementBytes enc next chain).length < 2 ^ 32)
    (hblen : blen + (elementBytes enc next chain).length < 2 ^ 32) (d : Disk) :
    Completes (writeBucketLoop fn chain off blen next) d fun n d' =>
      n = blen + (elementBytes enc next chain).length ∧
        d'.file = (d.file.put off (positionBytes (elementOffsets enc next chain))).put next
          (elementBytes enc next chain) ∧ d'.linked = d.linked := by
  induction chain generalizing off blen next d with
  | nil => exact completes_pure ⟨rfl, by simp [elementOffsets, elementBytes, positionBytes], rfl⟩
  | cons kv chain ih =>
    rw [elementBytes, List.length_append] at hnext hblen
    rw [List.length_cons] at hoff
    rw [writeBucketLoop]
    apply completes_fseek
    rw [if_neg (by decide)]
    apply completes_fwrite
    have hlen : (beBytes 4 next).length / 4 = 1 := by simp
    rw [hlen, if_neg (by decide)]
    refine (hfn next kv _ (hok kv List.mem_cons_self) (by omega)).bind ?_
    rintro _ d₁ ⟨rfl, hput⟩
    rw [u32_eq (by omega), u32_eq (by omega), u32_eq (by omega)]
    have hok' : ∀ kv ∈ chain, ok kv := fun kv hkv => hok kv (List.mem_cons_of_mem _ hkv)
    refine (ih hok' (by omega) (by omega) (by omega) d₁).mono ?_
    rintro n d₂ ⟨rfl, hfile, hlinked⟩
    refine ⟨?_, ?_, hlinked.trans hput.linked⟩
    · rw [elementBytes, List.length_append]
      omega
    · have hpos : positionBytes (elementOffsets enc next (kv :: chain)) =
          beBytes 4 next ++ positionBytes (elementOffsets enc (next + (enc next kv).length) chain) :=
        rfl
      rw [hfile, hput.file, hpos, elementBytes, ← File.put_append, ← File.put_append, beBytes_length]
      dsimp only
      congr 1
      apply File.put_comm
      rw [positionBytes_length, elementOffsets_length]
      omega

theorem writeBucket_completes (hfn : Writes fn enc ok) (chain : List (HTKeyValue V))
    (hok : ∀ kv ∈ chain, ok kv) {off : ℕ}
    (hsize : off + (encodeBucket enc off chain).length < 2 ^ 32) (d : Disk) :
    Completes (writeBucket fn chain off) d fun n d' =>
      n = (encodeBucket enc off chain).length ∧ Put d off (encodeBucket enc off chain) d' := by
  rw [encodeBucket_length] at hsize
  rw [writeBucket, u32_eq (by omega), u32_eq (by omega)]
  refine (writeBucketLoop_completes hfn chain hok le_rfl (by omega) (by omega) d).mono ?_
  rintro n d' ⟨rfl, hfile, hlinked⟩
  refine ⟨(encodeBucket_length off chain).symm, ?_, hlinked⟩
  rw [hfile, encodeBucket, ← File.put_append, positionBytes_length, elementOffsets_length]

/-- The loop fills the bucket records and the buckets side by side. -/
theorem writeBuckets_completes (hfn : Writes fn enc ok) (chains : List (List (HTKeyValue V)))
    (hok : ∀ chain ∈ chains, ∀ kv ∈ chain, ok kv) {recOff next : ℕ}
    (hoff : recOff + 8 * chains.length ≤ next)
    (hnext : next + (bucketBytes enc next chains).length < 2 ^ 32) (d : Disk) :
    Completes (writeBuckets fn chains recOff next) d fun n d' =>
      n = next + (bucketBytes enc next chains).length ∧
        d'.file = (d.file.put recOff (bucketRecords enc next chains)).put next
          (bucketBytes enc next chains) ∧ d'.linked = d.linked := by
  induction chains generalizing recOff next d with
  | nil => exact completes_pure ⟨rfl, by simp [bucketRecords, bucketBytes], rfl⟩
  | cons chain chains ih =>
    rw [bucketBytes, List.length_append] at hnext
    rw [List.length_cons] at hoff
    rw [writeBuckets]
    refine (writeBucketRecord_completes chain recOff next).bind ?_
    rintro _ d₁ ⟨rfl, hrec⟩
    have hok' : ∀ chain ∈ chains, ∀ kv ∈ chain, ok kv := fun c hc => hok c (List.mem_cons_of_mem _ hc)
    -- the rest of the loop, once this bucket is in place
    have hrest : ∀ d₂, Put d₁ next (encodeBucket enc next chain) d₂ →
        Completes (writeBuckets fn chains (recOff + 8) (next + (encodeBucket enc next chain).length))
          d₂ fun n d' => n = next + (bucketBytes enc next (chain :: chains)).length ∧
            d'.file = (d.file.put recOff (bucketRecords enc next (chain :: chains))).put next
              (bucketBytes enc next (chain :: chains)) ∧ d'.linked = d.linked := by
      intro d₂ hput
      refine (ih hok' (by omega) (by omega) d₂).mono ?_
      rintro n d' ⟨rfl, hfile, hlinked⟩
      refine ⟨?_, ?_, (hlinked.trans hput.linked).trans hrec.linked⟩
      · rw [bucketBytes, List.length_append]
        omega
      · have hlen : (beBytes 4 chain.length ++ beBytes 4 next).length = 8 := by simp
        rw [hfile, hput.file, hrec.file, bucketRecords, bucketBytes,
          ← File.put_append _ next (encodeBucket enc next chain),
          ← File.put_append _ recOff (beBytes 4 chain.length ++ beBytes 4 next), hlen]
        congr 1
        apply File.put_comm
        rw [bucketRecords_length]
        omega
    rw [u32_eq (by omega)]
    by_cases hempty : chain.length = 0
    · rw [if_pos hempty]
      have hnil : encodeBucket enc next chain = [] := by
        rw [List.length_eq_zero_iff.mp hempty, encodeBucket_nil]
      rw [hnil] at hrest
      exact hrest d₁ ⟨(File.put_nil _ _).symm, rfl⟩
    · rw [if_neg hempty]
      refine (writeBucket_completes hfn chain (hok chain List.mem_cons_self) (by omega) d₁).bind ?_
      rintro _ d₂ ⟨rfl, hput⟩
      rw [u32_eq (by omega)]
      exact hrest d₂ hput

/-- `WriteHashTable` leaves the encoding of the table at `off`, and nothing else. -/
theorem writeHashTable_completes (hfn : Writes fn enc ok) (t : Table V)
    (hok : ∀ kv ∈ t.entries, ok kv) {off : ℕ}
    (hsize : off + (encodeTable enc off t.buckets).length < 2 ^ 32) (d : Disk) :
    Completes (writeHashTable t off fn) d fun n d' =>
      n = (encodeTable enc off t.buckets).length ∧ Put d off (encodeTable enc off t.buckets) d' := by
  have hlen := encodeTable_length enc off t.buckets
  rw [hlen] at hsize
  rw [writeHashTable]
  apply completes_fseek
  rw [if_neg (by decide)]
  apply completes_fwrite
  have hone : (beBytes 4 t.buckets.length).length / 4 = 1 := by simp
  have hstart : u32 (u32 (off + 4) + t.buckets.length * 8) = bucketStart off t.buckets := by
    rw [u32_eq (n := off + 4) (by omega), u32_eq (by omega), bucketStart]
    omega
  rw [hone, if_neg (by decide), u32_eq (n := off + 4) (by omega)]
  rw [u32_eq (n := off + 4) (by omega)] at hstart
  dsimp only
  rw [hstart]
  have hok' : ∀ chain ∈ t.buckets, ∀ kv ∈ chain, ok kv := fun chain hc kv hkv =>
    hok kv (List.mem_flatten.mpr ⟨chain, hc, hkv⟩)
  refine (writeBuckets_completes hfn t.buckets hok' (by rw [bucketStart]) (by rw [bucketStart] at *; omega)
    _).bind ?_
  rintro _ d' ⟨rfl, hfile, hlinked⟩
  refine completes_pure ⟨?_, ?_, hlinked⟩
  · rw [sub32, bucketStart] at *
    omega
  · rw [hfile]
    dsimp only
    rw [encodeTable, ← File.put_append, ← File.put_append, beBytes_length, List.length_append,
      beBytes_length, bucketRecords_length, bucketStart, Nat.add_assoc]

end Write

/-! ## Encoding the elements -/

def encodeDocName : Encoder CString := fun _ kv =>
  beBytes 8 kv.key.toNat ++ beBytes 2 (strlen kv.value) ++ kv.value.bytes

def encodePositions : Encoder (List UInt32) := fun _ kv =>
  beBytes 8 kv.key.toNat ++ beBytes 4 kv.value.length ++
    kv.value.flatMap fun position => beBytes 4 position.toNat

/-- The table of documents of a word whose element starts at `off`. -/
def encodeDocIDs (off : ℕ) (wds : WordDocSet) : List UInt8 :=
  encodeTable encodePositions (off + 6 + strlen wds.word) wds.docIDs.buckets

def encodeWord : Encoder WordDocSet := fun off kv =>
  beBytes 2 (strlen kv.value.word) ++ beBytes 4 (encodeDocIDs off kv.value).length ++
    kv.value.word.bytes ++ encodeDocIDs off kv.value

/-- What `WriteDocidDocnameFn` needs of an element. -/
def DocNameOk (kv : HTKeyValue CString) : Prop := strlen kv.value < 2 ^ 16

def PositionsOk (kv : HTKeyValue (List UInt32)) : Prop := kv.value ≠ []

def WordOk (kv : HTKeyValue WordDocSet) : Prop :=
  kv.value.word.bytes ≠ [] ∧ strlen kv.value.word < 2 ^ 16 ∧
    ∀ e ∈ kv.value.docIDs.entries, PositionsOk e

theorem u16_eq {n : ℕ} (h : n < 2 ^ 16) : u16 n = n := Nat.mod_eq_of_lt h

theorem writeDocidDocnameFn_writes : Writes writeDocidDocnameFn encodeDocName DocNameOk := by
  intro off kv d hok hsize
  rw [DocNameOk] at hok
  have hlen : (beBytes 8 kv.key.toNat ++ beBytes 2 (strlen kv.value)).length = 10 := by simp
  have htake : kv.value.bytes.take (strlen kv.value) = kv.value.bytes := List.take_length
  have htotal : (encodeDocName off kv).length = 10 + strlen kv.value := by
    rw [encodeDocName, List.length_append, hlen, strlen]
  rw [writeDocidDocnameFn, u16_eq hok]
  apply completes_fseek
  rw [if_neg (by decide)]
  apply completes_fwrite
  rw [hlen, if_neg (by decide), htake]
  apply completes_fwrite
  rw [Nat.div_one, if_neg (by rw [strlen]; exact not_not.mpr rfl), u32_eq (by omega)]
  refine completes_pure ⟨htotal.symm, ?_, rfl⟩
  dsimp only
  rw [← hlen, File.put_append, encodeDocName]

theorem writePositions_completes (positions : List UInt32) {total : ℕ}
    (htotal : total + 4 * positions.length < 2 ^ 32) (d : Disk) :
    Completes (writePositions positions total) d fun n d' =>
      n = some (total + 4 * positions.length) ∧
        Put d d.pos (positions.flatMap fun position => beBytes 4 position.toNat) d' := by
  induction positions generalizing total d with
  | nil => exact completes_pure ⟨rfl, by simp, rfl⟩
  | cons position positions ih =>
    rw [List.length_cons] at htotal
    rw [writePositions]
    apply completes_fwrite
    have hlen : (beBytes 4 position.toNat).length / 4 = 1 := by simp
    rw [hlen, if_neg (by decide), u32_eq (by omega)]
    refine (ih (by omega) _).mono ?_
    rintro _ d' ⟨rfl, hfile, hlinked⟩
    refine ⟨?_, ?_, hlinked⟩
    · rw [List.length_cons, Option.some_inj]
      omega
    · rw [hfile, List.flatMap_cons]
      dsimp only
      rw [File.put_append]

theorem flatMap_positions_length (positions : List UInt32) :
    (positions.flatMap fun position => beBytes 4 position.toNat).length = 4 * positions.length := by
  induction positions with
  | nil => rfl
  | cons position positions ih =>
    rw [List.flatMap_cons, List.length_append, ih, beBytes_length, List.length_cons]
    omega

theorem writeDocPositionListFn_writes :
    Writes writeDocPositionListFn encodePositions PositionsOk := by
  intro off kv d hok hsize
  have hlen : (beBytes 8 kv.key.toNat ++ beBytes 4 kv.value.length).length = 12 := by simp
  have htotal : (encodePositions off kv).length = 12 + 4 * kv.value.length := by
    rw [encodePositions, List.length_append, hlen, flatMap_positions_length]
  have hne : kv.value.length ≠ 0 := fun h => hok (List.length_eq_zero_iff.mp h)
  rw [writeDocPositionListFn]
  apply completes_fseek
  rw [if_neg (by decide)]
  apply completes_fwrite
  rw [hlen, if_neg (by decide)]
  apply completes_verify (by simpa using hne)
  refine (writePositions_completes kv.value (by omega) _).bind ?_
  rintro _ d' ⟨rfl, hfile, hlinked⟩
  dsimp only
  apply completes_verify (by simp)
  refine completes_pure ⟨htotal.symm, ?_, hlinked⟩
  rw [hfile]
  dsimp only
  rw [← hlen, File.put_append, encodePositions]

theorem writeWordDocSetFn_writes : Writes writeWordDocSetFn encodeWord WordOk := by
  intro off kv d hok hsize
  obtain ⟨hword, hlen, hpos⟩ := hok
  have hhead : ∀ n, (beBytes 2 (strlen kv.value.word) ++ beBytes 4 n).length = 6 := by simp
  have htotal : (encodeWord off kv).length =
      6 + strlen kv.value.word + (encodeDocIDs off kv.value).length := by
    rw [encodeWord, List.length_append, List.length_append, hhead, strlen]
  have htake : kv.value.word.bytes.take (strlen kv.value.word) = kv.value.word.bytes :=
    List.take_length
  have hone : kv.value.word.bytes.length / strlen kv.value.word = 1 :=
    Nat.div_self (List.length_pos_iff.mpr hword)
  have hdocs : (encodeDocIDs off kv.value) =
    encodeTable encodePositions (off + 6 + strlen kv.value.word) kv.value.docIDs.buckets := rfl
  rw [writeWordDocSetFn, u16_eq hlen, u32_eq (by omega)]
  refine (writeHashTable_completes writeDocPositionListFn_writes kv.value.docIDs hpos
    (by rw [← hdocs]; omega) d).bind ?_
  rintro _ d₁ ⟨rfl, hfile, hlinked⟩
  rw [← hdocs] at hfile ⊢
  apply completes_fseek
  rw [if_neg (by decide)]
  apply completes_fwrite
  rw [hhead, if_neg (by decide), htake]
  apply completes_fwrite
  rw [hone, if_neg (by decide), u32_eq (by omega)]
  refine completes_pure ⟨htotal.symm, ?_, hlinked⟩
  dsimp only
  -- the header and the word go in front of the table that is already there
  rw [hfile, ← hhead (encodeDocIDs off kv.value).length, File.put_append, File.put_comm,
    encodeWord, ← File.put_append _ _ _ (encodeDocIDs off kv.value)]
  · congr 1
    simp only [List.length_append, beBytes_length, strlen]
    omega
  · simp only [List.length_append, beBytes_length, strlen]
    omega

/-! ## The whole file -/

def encodeDocTable (dt : DocTable) : List UInt8 := encodeTable encodeDocName HEADER_SIZE dt.buckets

def encodeMemIndex (mi : MemIndex) (dt : DocTable) : List UInt8 :=
  encodeTable encodeWord (HEADER_SIZE + (encodeDocTable dt).length) mi.buckets

/-- The checksum of a sequence of bytes. -/
def crc32 (bs : List UInt8) : UInt32 := getFinalCRC (bs.foldl foldByteIntoCRC crcInitial)

def encodeHeader (mi : MemIndex) (dt : DocTable) : List UInt8 :=
  beBytes 4 MAGIC_NUMBER ++ beBytes 4 (crc32 (encodeDocTable dt ++ encodeMemIndex mi dt)).toNat ++
    beBytes 4 (encodeDocTable dt).length ++ beBytes 4 (encodeMemIndex mi dt).length

def encodeIndex (mi : MemIndex) (dt : DocTable) : List UInt8 :=
  encodeHeader mi dt ++ (encodeDocTable dt ++ encodeMemIndex mi dt)

theorem encodeHeader_length (mi : MemIndex) (dt : DocTable) :
    (encodeHeader mi dt).length = HEADER_SIZE := by
  simp [encodeHeader, HEADER_SIZE]

/-- The loop folds the bytes the file holds. -/
theorem checksumLoop_completes (bs : List UInt8) (crc : UInt32) (d : Disk)
    (h : d.file.Holds d.pos bs) :
    Completes (checksumLoop bs.length crc) d fun r d' =>
      r = some (bs.foldl foldByteIntoCRC crc) ∧ d'.file = d.file ∧ d'.linked = d.linked ∧
        d'.writes = d.writes := by
  induction bs generalizing crc d with
  | nil => exact completes_pure ⟨rfl, rfl, rfl, rfl⟩
  | cons b bs ih =>
    have hsplit := (File.holds_append d.file d.pos [b] bs).mp h
    rw [List.length_cons, checksumLoop]
    apply completes_fread hsplit.1 rfl
    exact ih (foldByteIntoCRC crc b) _ hsplit.2

/-- Every element of the two tables can be written. -/
structure Encodable (mi : MemIndex) (dt : DocTable) : Prop where
  words : ∀ e ∈ mi.entries, WordOk e
  names : ∀ e ∈ dt.entries, DocNameOk e
  size : (encodeIndex mi dt).length < 2 ^ 32

theorem writeDocTable_completes {mi : MemIndex} {dt : DocTable} (h : Encodable mi dt) (d : Disk) :
    Completes (writeDocTable dt HEADER_SIZE) d fun n d' =>
      n = (encodeDocTable dt).length ∧ Put d HEADER_SIZE (encodeDocTable dt) d' := by
  have hsize := h.size
  rw [encodeIndex, List.length_append, encodeHeader_length, List.length_append] at hsize
  apply writeHashTable_completes writeDocidDocnameFn_writes dt h.names
  change HEADER_SIZE + (encodeDocTable dt).length < _
  omega

theorem writeMemIndex_completes {mi : MemIndex} {dt : DocTable} (h : Encodable mi dt) (d : Disk) :
    Completes (writeMemIndex mi (HEADER_SIZE + (encodeDocTable dt).length)) d fun n d' =>
      n = (encodeMemIndex mi dt).length ∧
        Put d (HEADER_SIZE + (encodeDocTable dt).length) (encodeMemIndex mi dt) d' := by
  have hsize := h.size
  rw [encodeIndex, List.length_append, encodeHeader_length, List.length_append] at hsize
  apply writeHashTable_completes writeWordDocSetFn_writes mi.toTable h.words
  change HEADER_SIZE + (encodeDocTable dt).length + (encodeMemIndex mi dt).length < _
  omega

theorem writeHeader_completes {mi : MemIndex} {dt : DocTable} (h : Encodable mi dt) (d : Disk)
    (hd : d.file = File.empty.put HEADER_SIZE (encodeDocTable dt ++ encodeMemIndex mi dt)) :
    Completes (writeHeader (encodeDocTable dt).length (encodeMemIndex mi dt).length) d fun n d' =>
      n = HEADER_SIZE ∧ d'.file = File.empty.put 0 (encodeIndex mi dt) ∧ d'.linked = d.linked := by
  have hsize := h.size
  have hlen := encodeTable_length encodeDocName HEADER_SIZE dt.buckets
  change (encodeDocTable dt).length = _ at hlen
  have hne : encodeDocTable dt ++ encodeMemIndex mi dt ≠ [] := by
    intro hnil
    have := congrArg List.length hnil
    rw [List.length_append, List.length_nil] at this
    omega
  have hholds : d.file.Holds HEADER_SIZE (encodeDocTable dt ++ encodeMemIndex mi dt) := by
    rw [hd]
    exact File.holds_put (Or.inr hne)
  rw [encodeIndex, List.length_append, encodeHeader_length, List.length_append] at hsize
  rw [writeHeader, u32_eq (by omega), ← List.length_append]
  apply completes_fseek
  rw [if_neg (by decide)]
  refine (checksumLoop_completes (encodeDocTable dt ++ encodeMemIndex mi dt) crcInitial
    { d with pos := HEADER_SIZE, calls := d.calls + 1 } hholds).bind ?_
  rintro _ d₁ ⟨rfl, hfile, hlinked, -⟩
  dsimp only at hfile ⊢
  apply completes_fseek
  rw [if_neg (by decide)]
  apply completes_fwrite
  have hhead : (beBytes 4 MAGIC_NUMBER ++ beBytes 4 (getFinalCRC
      ((encodeDocTable dt ++ encodeMemIndex mi dt).foldl foldByteIntoCRC crcInitial)).toNat ++
        beBytes 4 (encodeDocTable dt).length ++ beBytes 4 (encodeMemIndex mi dt).length) =
      encodeHeader mi dt := rfl
  rw [hhead, encodeHeader_length, if_neg (by decide)]
  refine Completes.bind (P := fun b d' => b = true ∧ d'.file = d₁.file.put 0 (encodeHeader mi dt) ∧
    d'.linked = d₁.linked) ⟨true, _, rfl, rfl, rfl, rfl⟩ ?_
  rintro _ d₂ ⟨rfl, hfile₂, hlinked₂⟩
  apply completes_verify rfl
  refine completes_pure ⟨rfl, ?_, hlinked₂.trans hlinked⟩
  rw [hfile₂, hfile, hd, File.put_comm (Or.inr (by rw [encodeHeader_length, Nat.zero_add])),
    encodeIndex, ← File.put_append _ 0 (encodeHeader mi dt), encodeHeader_length, Nat.zero_add]

/-- `WriteIndex` leaves the encoding, byte for byte. -/
theorem writeIndex_completes {mi : MemIndex} {dt : DocTable} (h : Encodable mi dt) (d : Disk) :
    Completes (writeIndex mi dt) d fun n d' => n = (encodeIndex mi dt).length ∧
      d'.file = File.empty.put 0 (encodeIndex mi dt) ∧ d'.linked = true := by
  have hsize := h.size
  have hdlen := encodeTable_length encodeDocName HEADER_SIZE dt.buckets
  have hmlen := encodeTable_length encodeWord (HEADER_SIZE + (encodeDocTable dt).length)
    mi.buckets
  change (encodeDocTable dt).length = _ at hdlen
  change (encodeMemIndex mi dt).length = _ at hmlen
  have htotal : (encodeIndex mi dt).length =
      HEADER_SIZE + ((encodeDocTable dt).length + (encodeMemIndex mi dt).length) := by
    rw [encodeIndex, List.length_append, encodeHeader_length, List.length_append]
  rw [htotal] at hsize ⊢
  rw [writeIndex]
  refine Completes.bind (P := fun b d' => b = true ∧ d'.file = File.empty ∧ d'.linked = true)
    ⟨true, _, rfl, rfl, rfl, rfl⟩ ?_
  rintro _ d₁ ⟨rfl, hempty, hlink⟩
  rw [if_pos rfl]
  refine (writeDocTable_completes h d₁).bind ?_
  rintro _ d₂ ⟨rfl, hfile₂, hlink₂⟩
  rw [if_neg (by omega), u32_eq (n := HEADER_SIZE + _) (by omega)]
  refine (writeMemIndex_completes h d₂).bind ?_
  rintro _ d₃ ⟨rfl, hfile₃, hlink₃⟩
  rw [hfile₂, hempty, File.put_append] at hfile₃
  rw [if_neg (by omega)]
  refine (writeHeader_completes h d₃ hfile₃).bind ?_
  rintro _ d₄ ⟨rfl, hfile₄, hlink₄⟩
  rw [if_neg (by decide), u32_eq (n := (encodeDocTable dt).length + _) (by omega),
    u32_eq (by omega)]
  exact completes_pure ⟨Nat.add_comm _ _, hfile₄, by rw [hlink₄, hlink₃, hlink₂, hlink]⟩

end Courses.SearchEngine
