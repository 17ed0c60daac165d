import Courses.SearchEngine.IndexChecker

/-!
# The writer and the checker

The checker accepts every index file that the crawler and `WriteIndex` can make within
its limits, but for one length: it compares offsets with the end of a table plus one, in 32
bits, and for a file of 2^32 - 1 bytes that sum is zero.
-/
namespace Courses.SearchEngine

open Courses.Lib Courses.Lib.DiskM

/-! ## What the crawler writes -/

theorem islower_tolower {c : UInt8} (h : isalpha c = true) : islower (tolower c) = true := by
  simp only [isalpha, Bool.or_eq_true, Bool.and_eq_true, decide_eq_true_eq] at h
  rw [tolower]
  split
  · rename_i hupper
    simp only [Bool.and_eq_true, decide_eq_true_eq, UInt8.le_iff_toNat_le] at hupper
    simp only [islower, Bool.and_eq_true, decide_eq_true_eq, UInt8.le_iff_toNat_le, UInt8.toNat_add]
    have h65 : (65 : UInt8).toNat = 65 := rfl
    have h90 : (90 : UInt8).toNat = 90 := rfl
    have h32 : (32 : UInt8).toNat = 32 := rfl
    have h97 : (97 : UInt8).toNat = 97 := rfl
    have h122 : (122 : UInt8).toNat = 122 := rfl
    omega
  · rename_i hupper
    simp only [Bool.and_eq_true, decide_eq_true_eq] at hupper
    simpa [islower] using h.resolve_left hupper

theorem cString_lower {word : List UInt8} (hlower : ∀ b ∈ word, islower b = true) :
    (cString word).bytes = word := by
  apply List.takeWhile_eq_self_iff.2
  intro b hb
  rw [decide_eq_true_eq]
  rintro rfl
  exact absurd (hlower 0 hb) (by decide)

theorem wordsFrom_lower (rest : List UInt8) {start : ℕ} {word : List UInt8}
    (hword : ∀ b ∈ word, islower b = true) :
    ∀ token ∈ wordsFrom start word rest,
      token.1.bytes ≠ [] ∧ ∀ b ∈ token.1.bytes, islower b = true := by
  induction rest generalizing start word with
  | nil => simp [wordsFrom]
  | cons c rest ih =>
    rw [wordsFrom]
    split
    · rename_i halpha
      apply ih
      intro b hb
      rcases List.mem_append.1 hb with hb | hb
      · exact hword b hb
      · rw [List.mem_singleton.1 hb]
        exact islower_tolower halpha
    · split
      · exact ih (by simp)
      · rename_i hne
        intro token htoken
        rcases List.mem_cons.1 htoken with rfl | htoken
        · dsimp only
          rw [cString_lower hword]
          exact ⟨hne, hword⟩
        · exact ih (by simp) token htoken

/-- The words of a file are of lower-case letters. -/
theorem fileWords_lower {contents : Option (List UInt8)} {word : CString}
    (h : word ∈ (fileWords contents).map Prod.fst) :
    word.bytes ≠ [] ∧ ∀ b ∈ word.bytes, islower b = true := by
  obtain ⟨token, htoken, rfl⟩ := List.mem_map.1 h
  cases contents with
  | none => cases htoken
  | some bytes =>
    rw [fileWords, textWords] at htoken
    split at htoken
    · cases htoken
    · exact wordsFrom_lower _ (by simp) token htoken

/-- What the crawler makes, within the limits of the checker. -/
structure Checkable (mi : MemIndex) (dt : DocTable) : Prop where
  words : ∀ e ∈ mi.entries, ∃ contents, e.value.word ∈ (fileWords contents).map Prod.fst
  wordLength : ∀ e ∈ mi.entries, strlen e.value.word < 8192
  names : ∀ e ∈ dt.entries, DocNameChecks e
  positions : ∀ e ∈ mi.entries, ∀ e' ∈ e.value.docIDs.entries,
    e'.value ≠ [] ∧ PositionsCheck e'
  size : (encodeIndex mi dt).length < 2 ^ 32

section Checkable

variable {mi : MemIndex} {dt : DocTable}

theorem Checkable.encodable (h : Checkable mi dt) : Encodable mi dt := by
  refine ⟨fun e he => ?_, fun e he => ?_, h.size⟩
  · obtain ⟨contents, hword⟩ := h.words e he
    have hlen := h.wordLength e he
    exact ⟨(fileWords_lower hword).1, by omega, fun e' he' => (h.positions e he e' he').1⟩
  · have hlen := (h.names e he).2.1
    exact hlen.trans (by decide)

theorem Checkable.wordChecks (h : Checkable mi dt) : ∀ e ∈ mi.entries, WordChecks e := by
  intro e he
  obtain ⟨contents, hword⟩ := h.words e he
  obtain ⟨hne, hlower⟩ := fileWords_lower hword
  exact ⟨hne, h.wordLength e he, hlower, fun e' he' => (h.positions e he e' he').2⟩

end Checkable

/-- `WriteIndex`, and then `hw3fsck` on the file. -/
def writeAndCheck (mi : MemIndex) (dt : DocTable) : DiskM (List Complaint) := do
  let _ ← writeIndex mi dt
  fileIndexChecker

theorem writeAndCheck_completes {mi : MemIndex} {dt : DocTable} (h : Checkable mi dt) (d : Disk) :
    Completes (writeAndCheck mi dt) d fun cs _ =>
      cs = [] ↔ (encodeIndex mi dt).length + 1 < 2 ^ 32 := by
  refine (writeIndex_completes h.encodable d).bind ?_
  rintro _ d' ⟨-, hfile, hlinked⟩
  exact fileIndexChecker_completes h.encodable h.wordChecks h.names d' hfile hlinked

theorem checkable_oneWord : Checkable oneWord oneName := by
  refine ⟨fun e he => ?_, fun e he => ?_, fun e he => ?_, fun e he e' he' => ?_, by decide +kernel⟩
  · cases List.mem_singleton.1 he
    exact ⟨some [97, 32], by decide +kernel⟩
  · cases List.mem_singleton.1 he
    decide
  · cases List.mem_singleton.1 he
    exact ⟨by decide, by decide, List.all_eq_true.1 (by decide)⟩
  · cases List.mem_singleton.1 he
    cases List.mem_singleton.1 he'
    exact ⟨by decide, by decide, by decide⟩

/-- Offsets four apart: those of a word of three letters, over and over. -/
def everyFour (n : ℕ) : List UInt32 := (List.range n).map fun j => UInt32.ofNat (4 * j)

theorem everyFour_check {n : ℕ} (h : n < 1000000) : (everyFour n).Pairwise (· < ·) := by
  rw [everyFour, List.pairwise_map]
  refine (List.pairwise_lt_range).imp_of_mem fun {i j} hi hj hlt => ?_
  rw [List.mem_range] at hi hj
  have hsize : UInt32.size = 4294967296 := rfl
  rw [UInt32.lt_iff_toNat_lt, UInt32.toNat_ofNat_of_lt' (by omega),
    UInt32.toNat_ofNat_of_lt' (by omega)]
  omega

/-- How often the word is in the `i`-th document. -/
def fullCount (i : ℕ) : ℕ := if i < 1073 then 999999 else 655117

theorem fullCount_lt (i : ℕ) : 0 < fullCount i ∧ fullCount i < 1000000 := by
  rw [fullCount]
  split <;> omega

def fullEntry (i : ℕ) : HTKeyValue (List UInt32) := ⟨UInt64.ofNat (i + 1), everyFour (fullCount i)⟩

theorem nodup_docids {V : Type} (value : ℕ → V) :
    (((List.range 1074).map fun i => (⟨UInt64.ofNat (i + 1), value i⟩ : HTKeyValue V)).map
      HTKeyValue.key).Nodup := by
  rw [List.map_map]
  refine List.nodup_range.map_on ?_
  intro i hi j hj heq
  rw [List.mem_range] at hi hj
  have hnat := congrArg UInt64.toNat heq
  have hsize : UInt64.size = 18446744073709551616 := rfl
  simp only [Function.comp_apply] at hnat
  rw [UInt64.toNat_ofNat_of_lt' (by omega), UInt64.toNat_ofNat_of_lt' (by omega)] at hnat
  omega

theorem nodup_fullEntry : (((List.range 1074).map fullEntry).map HTKeyValue.key).Nodup :=
  nodup_docids fun i => everyFour (fullCount i)

/-- The documents of the word, in a table of the size that 1074 inserts lead to. -/
def fullDocs : Table (List UInt32) :=
  .ofEntries 2592 (by decide) ((List.range 1074).map fullEntry) nodup_fullEntry

def wordAAA : CString := ⟨[97, 97, 97], by decide⟩

def fullIndex : MemIndex where
  toTable := .ofEntries 128 indexBuckets_pos [⟨fnvHash64 [97, 97, 97] 3, wordAAA, fullDocs⟩] (by simp)
  hashed := by
    intro e he
    cases List.mem_singleton.1 (placeEntries_subset _ _ he)
    rfl

/-- A name for each document. -/
def fullName (i : ℕ) : CString where
  bytes := List.replicate (i / 2 + 1) (if i % 2 = 0 then 97 else 98)
  nonul := by
    intro h
    have := List.eq_of_mem_replicate h
    split at this <;> cases this

def fullNameEntry (i : ℕ) : HTKeyValue CString := ⟨UInt64.ofNat (i + 1), fullName i⟩

theorem nodup_fullNameEntry : (((List.range 1074).map fullNameEntry).map HTKeyValue.key).Nodup :=
  nodup_docids fullName

def fullNames : DocTable :=
  .ofEntries 1024 (by decide) ((List.range 1074).map fullNameEntry) nodup_fullNameEntry

theorem sum_fullCount :
    ((List.range 1074).map fun i => 4 + (12 + 4 * fullCount i)).sum = 4294633360 := by
  decide +kernel

theorem sum_fullName : ((List.range 1074).map fun i => 4 + (10 + (i / 2 + 1))).sum = 303942 := by
  decide +kernel

theorem encodePositions_length (off : ℕ) (kv : HTKeyValue (List UInt32)) :
    (encodePositions off kv).length = 12 + 4 * kv.value.length := by
  rw [encodePositions, List.length_append, List.length_append, beBytes_length, beBytes_length,
    flatMap_positions_length]

theorem encodeDocName_length (off : ℕ) (kv : HTKeyValue CString) :
    (encodeDocName off kv).length = 10 + strlen kv.value := by
  rw [encodeDocName, List.length_append, List.length_append, beBytes_length, beBytes_length,
    strlen]

-- the lists of numbers are kept abstract here, so that nothing is tempted to unfold them
theorem fullEntries_length (off numBuckets : ℕ) (hpos : 0 < numBuckets) (is : List ℕ)
    (hnodup : ((is.map fullEntry).map HTKeyValue.key).Nodup) :
    (encodeTable encodePositions off
      (Table.ofEntries numBuckets hpos (is.map fullEntry) hnodup).buckets).length =
      4 + 8 * numBuckets + (is.map fun i => 4 + (12 + 4 * fullCount i)).sum := by
  rw [encodeTable_ofEntries_length encodePositions_length, List.map_map]
  congr 3
  funext i
  simp only [Function.comp_apply, fullEntry, everyFour, List.length_map, List.length_range]

theorem fullNameEntries_length (off numBuckets : ℕ) (hpos : 0 < numBuckets) (is : List ℕ)
    (hnodup : ((is.map fullNameEntry).map HTKeyValue.key).Nodup) :
    (encodeTable encodeDocName off
      (Table.ofEntries numBuckets hpos (is.map fullNameEntry) hnodup).buckets).length =
      4 + 8 * numBuckets + (is.map fun i => 4 + (10 + (i / 2 + 1))).sum := by
  rw [encodeTable_ofEntries_length encodeDocName_length, List.map_map]
  congr 3
  funext i
  simp only [Function.comp_apply, fullNameEntry, strlen, fullName, List.length_replicate]

theorem fullDocs_length (off : ℕ) : (encodeTable encodePositions off fullDocs.buckets).length =
    4 + 8 * 2592 + 4294633360 := by
  rw [← sum_fullCount]
  exact fullEntries_length off 2592 _ _ _

theorem fullNames_length : (encodeDocTable fullNames).length = 4 + 8 * 1024 + 303942 := by
  rw [← sum_fullName]
  exact fullNameEntries_length HEADER_SIZE 1024 _ _ _

theorem encodeWord_length (off : ℕ) (kv : HTKeyValue WordDocSet) :
    (encodeWord off kv).length = 6 + strlen kv.value.word +
      (encodeTable encodePositions 0 kv.value.docIDs.buckets).length := by
  have hdocs : (encodeDocIDs off kv.value).length =
      (encodeTable encodePositions 0 kv.value.docIDs.buckets).length := by
    rw [encodeDocIDs, encodeTable_length_of encodePositions_length,
      encodeTable_length_of encodePositions_length]
  rw [encodeWord, List.length_append, List.length_append, List.length_append, beBytes_length,
    beBytes_length, hdocs, strlen]

theorem wordEntry_length (off numBuckets : ℕ) (hpos : 0 < numBuckets) (key : HTKey)
    (docs : Table (List UInt32))
    (hnodup : ([(⟨key, wordAAA, docs⟩ : HTKeyValue WordDocSet)].map HTKeyValue.key).Nodup) :
    (encodeTable encodeWord off
      (Table.ofEntries numBuckets hpos [⟨key, wordAAA, docs⟩] hnodup).buckets).length =
      4 + 8 * numBuckets + (4 + (6 + 3 + (encodeTable encodePositions 0 docs.buckets).length)) := by
  rw [encodeTable_ofEntries_length encodeWord_length]
  rfl

theorem fullIndex_length : (encodeIndex fullIndex fullNames).length = 2 ^ 32 - 1 := by
  have hindex (off : ℕ) : (encodeTable encodeWord off fullIndex.buckets).length =
      4 + 8 * 128 + (4 + (6 + 3 + (4 + 8 * 2592 + 4294633360))) := by
    rw [← fullDocs_length 0]
    exact wordEntry_length off 128 (by decide) _ _ (List.nodup_singleton _)
  rw [encodeIndex_length, fullNames_length, encodeMemIndex, hindex]
  rfl

theorem checkable_fullIndex : Checkable fullIndex fullNames := by
  have hnat : (2 : ℕ) ^ 32 - 1 < 2 ^ 32 := by decide
  refine ⟨fun e he => ?_, fun e he => ?_, fun e he => ?_, fun e he e' he' => ?_,
    fullIndex_length.trans_lt hnat⟩
  · cases List.mem_singleton.1 (placeEntries_subset _ _ he)
    exact ⟨some [97, 97, 97, 32], by decide +kernel⟩
  · cases List.mem_singleton.1 (placeEntries_subset _ _ he)
    decide
  · rw [fullNames] at he
    obtain ⟨i, hi, rfl⟩ := List.mem_map.1 (Table.mem_ofEntries he)
    rw [List.mem_range] at hi
    refine ⟨List.replicate_succ_ne_nil, ?_, fun b hb => ?_⟩
    · change (List.replicate (i / 2 + 1) _).length < 1024
      rw [List.length_replicate]
      omega
    · rw [List.eq_of_mem_replicate hb]
      split <;> rfl
  · cases List.mem_singleton.1 (placeEntries_subset _ _ he)
    have he'' : e' ∈ fullDocs.entries := he'
    rw [fullDocs] at he''
    obtain ⟨i, -, rfl⟩ := List.mem_map.1 (Table.mem_ofEntries he'')
    obtain ⟨hpos, hlt⟩ := fullCount_lt i
    have hlen : (fullEntry i).value.length = fullCount i := by
      simp only [fullEntry, everyFour, List.length_map, List.length_range]
    refine ⟨fun hnil => ?_, ?_, everyFour_check hlt⟩
    · rw [hnil, List.length_nil] at hlen
      omega
    · rw [hlen]
      exact hlt

end Courses.SearchEngine
