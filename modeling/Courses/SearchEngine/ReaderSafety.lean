import Courses.Lib.Disk
import Courses.SearchEngine.IndexChecksum

/-!
# Readers on files that anyone may have written

A file with the right length and checksum may hold any bucket counts, chain lengths and
offsets. Every seek and read of a reader is asserted, so that whatever it is led to it
returns or stops there, except that a key is taken modulo the number of buckets: a count
of zero in the file is a division by zero.
-/
namespace Courses.SearchEngine

open Courses.Lib Courses.Lib.DiskM

/-! ### What a client does -/

/-- A lookup through the readers of a `FileIndexReader`. -/
inductive Lookup where
  /-- `GetDocTableReader().LookupDocID(docid)` -/
  | document (docid : HTKey)
  /-- `GetIndexTableReader().LookupWord(word)` -/
  | word (word : List UInt8)
  /-- and `LookupDocID(docid)` of the reader for the word -/
  | wordDocument (word : List UInt8) (docid : HTKey)
  /-- and `GetDocIDList()` of it -/
  | wordDocuments (word : List UInt8)

def perform (header : IndexFileHeader) : Lookup → DiskM Unit
  | .document docid => do
    let reader ← getDocTableReader
    let _ ← lookupDocName reader docid
  | .word word => do
    let reader ← getIndexTableReader header
    let _ ← lookupWord reader word
  | .wordDocument word docid => do
    let reader ← getIndexTableReader header
    match ← lookupWord reader word with
    | none => return ()
    | some table => do
      let _ ← lookupDocID table docid
  | .wordDocuments word => do
    let reader ← getIndexTableReader header
    match ← lookupWord reader word with
    | none => return ()
    | some table => do
      let _ ← getDocIDList table

/-- A `FileIndexReader` with validation, and one lookup. -/
def openAndPerform (lookup : Lookup) : DiskM Unit := do
  let header ← fileIndexReader true
  perform header lookup

/-! ### Where a lookup is led -/

/-- The bucket count of a table. -/
def bucketCount (f : File) (offset : ℕ) : ℕ := field32 (f.slice offset 4) 0

/-- The element positions in the bucket of a key, as far as the file holds them. -/
def chainOf (f : File) (offset : ℕ) (key : HTKey) : Option (List ℕ) :=
  let recordAt := u32 (offset + 4 + 8 * (key.toNat % bucketCount f offset))
  let record := f.slice recordAt 8
  let chainLen := field32 record 0
  let position := field32 record 4
  if ¬ Readable f recordAt 8 then none
  else if ¬ Readable f position (4 * chainLen) then none
  else some ((List.range chainLen).map fun i => field32 (f.slice (position + 4 * i) 4) 0)

/-- The offset of the documents of a word, if one of the elements is the word's. -/
def wordTable (f : File) (word : List UInt8) : List ℕ → Option ℕ
  | [] => none
  | offset :: elements =>
    let wordLen := ofBe ((f.slice offset 6).take 2)
    if ¬ Readable f offset 6 then none
    else if wordLen ≠ word.length then wordTable f word elements
    else if ¬ Readable f (offset + 6) wordLen then none
    else if f.slice (offset + 6) wordLen = word then some (u32 (offset + 6 + wordLen))
    else wordTable f word elements

/-- Where the table of words lies. -/
def indexOffset (f : File) : ℕ := u32 (HEADER_SIZE + (fileHeader f).doctableSize)

/-- Where the table of the documents of a word lies. -/
def documentsOffset (f : File) (word : List UInt8) : Option ℕ := do
  let elements ← chainOf f (indexOffset f) (fnvHash64 word (u32 word.length))
  wordTable f word elements

/-- The table at `offset` can be divided by: it lies beyond the end of the file, or its bucket
count is not zero. -/
def Divisible (f : File) (offset : ℕ) : Prop := Readable f offset 4 → bucketCount f offset ≠ 0

/-- No table in which the lookup looks for a key has a bucket count of zero. -/
def CountsNonzero (f : File) : Lookup → Prop
  | .document _ => Divisible f HEADER_SIZE
  | .word _ => Divisible f (indexOffset f)
  | .wordDocument word _ =>
    Divisible f (indexOffset f) ∧
      (Readable f (indexOffset f) 4 → ∀ offset ∈ documentsOffset f word, Divisible f offset)
  | .wordDocuments _ => Divisible f (indexOffset f)

/-! ### Reads that are asserted -/

section

variable {f : File} {p q n offset : ℕ} {r : HashTableReader}

theorem gives_seekTo (f : File) (p q : ℕ) : Gives (seekTo q) f p () q := by
  rw [seekTo]
  exact (gives_fseek f p q).bind (gives_verify (by simp) f q)

theorem gives_readExactly (h : Readable f p n) :
    Gives (readExactly n) f p (f.slice p n) (p + n) := by
  have hmin : f.slice p (min n (f.len - p)) = f.slice p n ∧ p + min n (f.len - p) = p + n := by
    obtain rfl | hfit := h
    · simp
    · rw [Nat.min_eq_left (by omega)]
      exact ⟨rfl, rfl⟩
  have hread := gives_fread f p n
  rw [hmin.1, hmin.2] at hread
  rw [readExactly]
  refine hread.bind ((gives_verify ?_ f _).bind (gives_pure f _ _))
  simp

theorem stops_readExactly (h : ¬ Readable f p n) : Stops (readExactly n) f p .verify := by
  obtain ⟨hn, hlen⟩ := not_or.1 h
  rw [readExactly]
  refine (gives_fread f p n).bind_stops ((stops_verify ?_ f _).bind _)
  rw [decide_eq_false_iff_not, File.slice_length]
  omega

theorem answers_readExactly (f : File) (p n : ℕ) : Answers (readExactly n) f p := by
  by_cases h : Readable f p n
  · exact (gives_readExactly h).answers
  · exact (stops_readExactly h).answers

theorem answers_seekTo_bind {α : Type} {g : Unit → DiskM α} (h : Answers (g ()) f q) :
    Answers (seekTo q >>= g) f p :=
  (gives_seekTo f p q).answers_bind h

theorem answers_pure {α : Type} (f : File) (p : ℕ) (a : α) : Answers (pure a : DiskM α) f p :=
  (gives_pure f p a).answers

/-! ### Tables -/

/-- The reader of a table that the file holds. -/
def tableReader (f : File) (offset : ℕ) : HashTableReader := ⟨offset, bucketCount f offset⟩

theorem gives_hashTableReader (h : Readable f offset 4) (p : ℕ) :
    Gives (hashTableReader offset) f p (tableReader f offset) (offset + 4) := by
  rw [hashTableReader]
  exact (gives_seekTo f p offset).bind ((gives_readExactly h).bind (gives_pure f _ _))

theorem stops_hashTableReader (h : ¬ Readable f offset 4) (p : ℕ) :
    Stops (hashTableReader offset) f p .verify := by
  rw [hashTableReader]
  exact (gives_seekTo f p offset).bind_stops ((stops_readExactly h).bind _)

theorem gives_readElementPositions (h : Readable f p (4 * n)) :
    Gives (readElementPositions n) f p
      ((List.range n).map fun i => field32 (f.slice (p + 4 * i) 4) 0) (p + 4 * n) := by
  induction n generalizing p with
  | zero => exact gives_pure f p []
  | succ n ih =>
    have hlen : p + 4 * (n + 1) ≤ f.len := h.resolve_left (by omega)
    have hlater := ih (p := p + 4) (.inr (by omega))
    have hlist : (List.range (n + 1)).map (fun i => field32 (f.slice (p + 4 * i) 4) 0) =
        field32 (f.slice p 4) 0 ::
          (List.range n).map fun i => field32 (f.slice (p + 4 + 4 * i) 4) 0 := by
      rw [List.range_succ_eq_map, List.map_cons, List.map_map]
      congr 1
      apply List.map_congr_left
      intro i _
      simp only [Function.comp_apply, Nat.succ_eq_add_one]
      rw [show p + 4 * (i + 1) = p + 4 + 4 * i by omega]
    rw [hlist, readElementPositions, show p + 4 * (n + 1) = p + 4 + 4 * n by omega]
    exact (gives_readExactly (.inr (by omega))).bind (hlater.bind (gives_pure f _ _))

theorem stops_readElementPositions (h : ¬ Readable f p (4 * n)) :
    Stops (readElementPositions n) f p .verify := by
  induction n generalizing p with
  | zero => exact absurd (.inl rfl) h
  | succ n ih =>
    obtain ⟨-, hlen⟩ := not_or.1 h
    rw [readElementPositions]
    by_cases hfirst : Readable f p 4
    · have hlater : ¬ Readable f (p + 4) (4 * n) := by
        have hfit : p + 4 ≤ f.len := hfirst.resolve_left (by omega)
        rintro (hzero | hrest) <;> omega
      exact (gives_readExactly hfirst).bind_stops ((ih hlater).bind _)
    · exact (stops_readExactly hfirst).bind _

/-- In a table with buckets the chain of a key is found, as far as the file holds it. -/
theorem lookupElementPositions_of_chain (hcount : bucketCount f offset ≠ 0) (key : HTKey) (p : ℕ) :
    match chainOf f offset key with
    | some elements => ∃ q, Gives (lookupElementPositions (tableReader f offset) key) f p elements q
    | none => Stops (lookupElementPositions (tableReader f offset) key) f p .verify := by
  have hnone : (tableReader f offset).numBuckets ≠ 0 := hcount
  rw [chainOf, lookupElementPositions, if_neg hnone]
  dsimp only [tableReader]
  generalize u32 (offset + 4 + 8 * (key.toNat % bucketCount f offset)) = recordAt
  by_cases hrecord : Readable f recordAt 8
  · have hread := gives_readExactly hrecord
    rw [if_neg (not_not.2 hrecord)]
    generalize f.slice recordAt 8 = record at hread ⊢
    by_cases hempty : field32 record 0 = 0
    · rw [hempty, if_neg (not_not.2 (.inl rfl))]
      refine ⟨recordAt + 8, (gives_seekTo f p _).bind (hread.bind ?_)⟩
      rw [if_pos hempty]
      exact gives_pure f _ _
    · by_cases hchain : Readable f (field32 record 4) (4 * field32 record 0)
      · rw [if_neg (not_not.2 hchain)]
        refine ⟨field32 record 4 + 4 * field32 record 0,
          (gives_seekTo f p _).bind (hread.bind ?_)⟩
        rw [if_neg hempty]
        exact (gives_seekTo f _ _).bind (gives_readElementPositions hchain)
      · rw [if_pos hchain]
        refine (gives_seekTo f p _).bind_stops (hread.bind_stops ?_)
        rw [if_neg hempty]
        exact (gives_seekTo f _ _).bind_stops (stops_readElementPositions hchain)
  · rw [if_pos hrecord]
    exact (gives_seekTo f p _).bind_stops ((stops_readExactly hrecord).bind _)

theorem answers_lookupElementPositions (hcount : bucketCount f offset ≠ 0) (key : HTKey) (p : ℕ) :
    Answers (lookupElementPositions (tableReader f offset) key) f p := by
  have h := lookupElementPositions_of_chain hcount key p
  cases hchain : chainOf f offset key with
  | none =>
    rw [hchain] at h
    exact h.answers
  | some elements =>
    rw [hchain] at h
    obtain ⟨q, h⟩ := h
    exact h.answers

theorem stops_lookupElementPositions (hcount : bucketCount f offset = 0) (key : HTKey) (p : ℕ) :
    Stops (lookupElementPositions (tableReader f offset) key) f p .fault := by
  have hnone : (tableReader f offset).numBuckets = 0 := hcount
  rw [lookupElementPositions, if_pos hnone]
  exact stops_halt f p .fault

/-! ### Loops over elements -/

theorem answers_docTableLoop (docid : HTKey) (elements : List ℕ) (p : ℕ) :
    Answers (docTableLoop docid elements) f p := by
  induction elements generalizing p with
  | nil => exact answers_pure f p none
  | cons offset elements ih =>
    rw [docTableLoop]
    refine answers_seekTo_bind ((answers_readExactly f offset 10).bind fun bs q => ?_)
    split
    · exact (answers_readExactly f q _).bind fun name q' => answers_pure f q' (some name)
    · exact ih q

theorem answers_readPositions (n p : ℕ) : Answers (readPositions n) f p := by
  induction n generalizing p with
  | zero => exact answers_pure f p []
  | succ n ih =>
    rw [readPositions]
    refine (answers_readExactly f p 4).bind fun bs q => ?_
    exact (ih q).bind fun later q' => answers_pure f q' _

theorem answers_docIDTableLoop (docid : HTKey) (elements : List ℕ) (p : ℕ) :
    Answers (docIDTableLoop docid elements) f p := by
  induction elements generalizing p with
  | nil => exact answers_pure f p none
  | cons offset elements ih =>
    rw [docIDTableLoop]
    refine answers_seekTo_bind ((answers_readExactly f offset 12).bind fun bs q => ?_)
    split
    · exact (answers_readPositions _ q).bind fun positions q' => answers_pure f q' (some positions)
    · exact ih q

theorem answers_docIDChain (bucketPosition left j p : ℕ) :
    Answers (docIDChain bucketPosition left j) f p := by
  induction left generalizing j p with
  | zero => exact answers_pure f p []
  | succ left ih =>
    rw [docIDChain]
    refine answers_seekTo_bind ((answers_readExactly f _ 4).bind fun ep q => ?_)
    refine answers_seekTo_bind ((answers_readExactly f _ 12).bind fun bs q' => ?_)
    exact (ih (j + 1) q').bind fun later q'' => answers_pure f q'' _

theorem answers_docIDBuckets (r : HashTableReader) (left i p : ℕ) :
    Answers (docIDBuckets r left i) f p := by
  induction left generalizing i p with
  | zero => exact answers_pure f p []
  | succ left ih =>
    rw [docIDBuckets]
    refine answers_seekTo_bind ((answers_readExactly f _ 8).bind fun bs q => ?_)
    refine (answers_docIDChain _ _ 0 q).bind fun chain q' => ?_
    exact (ih (i + 1) q').bind fun later q'' => answers_pure f q'' _

/-- Listing a table divides by nothing. -/
theorem answers_getDocIDList (r : HashTableReader) (p : ℕ) : Answers (getDocIDList r) f p :=
  answers_docIDBuckets r r.numBuckets 0 p

/-- A lookup of a word comes to the table at an offset and opens it if the file holds it; or it
finds no table, or stops before it would. -/
def ComesTo (x : DiskM (Option HashTableReader)) (f : File) (p : ℕ) : Option ℕ → Prop
  | some table =>
    (Readable f table 4 → ∃ q, Gives x f p (some (tableReader f table)) q) ∧
      (¬ Readable f table 4 → Stops x f p .verify)
  | none => (∃ q, Gives x f p none q) ∨ Stops x f p .verify

theorem ComesTo.bind {α : Type} {y : DiskM α} {g : α → DiskM (Option HashTableReader)} {a : α}
    {table : Option ℕ} (hy : Gives y f p a q) (h : ComesTo (g a) f q table) :
    ComesTo (y >>= g) f p table := by
  cases table with
  | some table =>
    refine ⟨fun hfits => ?_, fun hfits => hy.bind_stops (h.2 hfits)⟩
    obtain ⟨r, hgives⟩ := h.1 hfits
    exact ⟨r, hy.bind hgives⟩
  | none =>
    obtain ⟨r, h⟩ | h := h
    · exact .inl ⟨r, hy.bind h⟩
    · exact .inr (hy.bind_stops h)

theorem lookupWordLoop_comesTo (word : List UInt8) (elements : List ℕ) (p : ℕ) :
    ComesTo (lookupWordLoop word elements) f p (wordTable f word elements) := by
  induction elements generalizing p with
  | nil => exact .inl ⟨p, gives_pure f p none⟩
  | cons offset elements ih =>
    rw [lookupWordLoop, wordTable]
    dsimp only
    by_cases hheader : Readable f offset 6
    · rw [if_neg (not_not.2 hheader)]
      refine ComesTo.bind (gives_seekTo f p offset) (ComesTo.bind (gives_readExactly hheader) ?_)
      split_ifs with hlen hname hword
      · exact ih _
      · refine ComesTo.bind (gives_readExactly hname) ?_
        rw [if_pos hword]
        constructor
        · intro htable
          exact ⟨_, (gives_hashTableReader htable _).bind (gives_pure f _ _)⟩
        · intro htable
          exact (stops_hashTableReader htable _).bind _
      · refine ComesTo.bind (gives_readExactly hname) ?_
        rw [if_neg hword]
        exact ih _
      · exact .inr ((stops_readExactly hname).bind _)
    · rw [if_pos hheader]
      exact .inr ((gives_seekTo f p offset).bind_stops ((stops_readExactly hheader).bind _))

/-- Looking up a word in the index table of a file. -/
theorem lookupWord_comesTo (hcount : bucketCount f (indexOffset f) ≠ 0) (word : List UInt8)
    (p : ℕ) :
    ComesTo (lookupWord (tableReader f (indexOffset f)) word) f p (documentsOffset f word) := by
  have h := lookupElementPositions_of_chain hcount (fnvHash64 word (u32 word.length)) p
  rw [lookupWord, documentsOffset]
  cases hchain : chainOf f (indexOffset f) (fnvHash64 word (u32 word.length)) with
  | none =>
    rw [hchain] at h
    exact .inr (h.bind _)
  | some elements =>
    rw [hchain] at h
    obtain ⟨q, h⟩ := h
    exact ComesTo.bind h (lookupWordLoop_comesTo word elements q)

/-! ### One lookup -/

/-- Opening a table and going on with it. -/
theorem answersIf_table {g : HashTableReader → DiskM Unit} {C : Prop}
    (h : ∀ q, AnswersIf (g (tableReader f offset)) f q C) (p : ℕ) :
    AnswersIf (hashTableReader offset >>= g) f p (Readable f offset 4 → C) := by
  by_cases hfits : Readable f offset 4
  · refine ((gives_hashTableReader hfits p).answersIf_bind (h _)).congr ?_
    exact (imp_iff_right hfits).symm
  · exact ((stops_hashTableReader hfits p).bind g).answers.answersIf fun h => absurd h hfits

/-- Looking for a key in a table and going on with the elements of its bucket. -/
theorem answersIf_lookupElementPositions {α : Type} {g : List ℕ → DiskM α} (key : HTKey)
    (h : ∀ elements q, Answers (g elements) f q) (p : ℕ) :
    AnswersIf (lookupElementPositions (tableReader f offset) key >>= g) f p
      (bucketCount f offset ≠ 0) := by
  constructor
  · intro hcount
    exact (answers_lookupElementPositions hcount key p).bind h
  · intro hcount
    exact (stops_lookupElementPositions (not_not.1 hcount) key p).bind g

theorem answersIf_lookupDocName (docid : HTKey) (p : ℕ) :
    AnswersIf (lookupDocName (tableReader f offset) docid) f p (bucketCount f offset ≠ 0) :=
  answersIf_lookupElementPositions docid (fun elements q => answers_docTableLoop docid elements q) p

theorem answersIf_lookupDocID (docid : HTKey) (p : ℕ) :
    AnswersIf (lookupDocID (tableReader f offset) docid) f p (bucketCount f offset ≠ 0) :=
  answersIf_lookupElementPositions docid (fun elements q => answers_docIDTableLoop docid elements q) p

theorem stops_lookupWord (hcount : bucketCount f offset = 0) (word : List UInt8) (p : ℕ) :
    Stops (lookupWord (tableReader f offset) word) f p .fault :=
  (stops_lookupElementPositions hcount _ p).bind _

/-- Looking for a word and going on with the reader of its documents. -/
theorem answersIf_lookupWord {g : Option HashTableReader → DiskM Unit} {C : ℕ → Prop}
    (word : List UInt8) (hnone : ∀ q, Answers (g none) f q)
    (hsome : ∀ table q, AnswersIf (g (some (tableReader f table))) f q (C table)) (p : ℕ) :
    AnswersIf (lookupWord (tableReader f (indexOffset f)) word >>= g) f p
      (bucketCount f (indexOffset f) ≠ 0 ∧
        ∀ table ∈ documentsOffset f word, Readable f table 4 → C table) := by
  by_cases hcount : bucketCount f (indexOffset f) = 0
  · exact ⟨fun h => absurd hcount h.1, fun _ => (stops_lookupWord hcount word p).bind g⟩
  · have hcomes := lookupWord_comesTo hcount word p
    cases hdocs : documentsOffset f word with
    | none =>
      have hanswers : Answers (lookupWord (tableReader f (indexOffset f)) word >>= g) f p := by
        rw [hdocs] at hcomes
        obtain ⟨q, hgives⟩ | hstops := hcomes
        · exact hgives.answers_bind (hnone q)
        · exact (hstops.bind g).answers
      exact hanswers.answersIf ⟨hcount, nofun⟩
    | some table =>
      rw [hdocs] at hcomes
      by_cases hfits : Readable f table 4
      · obtain ⟨q, hgives⟩ := hcomes.1 hfits
        refine (hgives.answersIf_bind (hsome table q)).congr ?_
        simp [hcount, hfits]
      · refine ((hcomes.2 hfits).bind g).answers.answersIf ⟨hcount, ?_⟩
        rintro _ ⟨rfl⟩ h
        exact absurd h hfits

theorem answersIf_perform (lookup : Lookup) (p : ℕ) :
    AnswersIf (perform (fileHeader f) lookup) f p (CountsNonzero f lookup) := by
  cases lookup with
  | document docid =>
    exact answersIf_table (fun q => (answersIf_lookupDocName docid q).bind
      fun _ q' => answers_pure f q' ()) p
  | word word =>
    refine (answersIf_table (fun q => answersIf_lookupWord (C := fun _ => True) word
      (fun q' => answers_pure f q' ()) (fun _ q' => (answers_pure f q' ()).answersIf trivial) q)
      p).congr ?_
    simp only [implies_true, and_true]
    rfl
  | wordDocument word docid =>
    refine (answersIf_table (fun q => answersIf_lookupWord word
      (fun q' => answers_pure f q' ()) (fun _ q' => (answersIf_lookupDocID docid q').bind
        fun _ q'' => answers_pure f q'' ()) q) p).congr ?_
    rw [CountsNonzero, Divisible, ← imp_and]
    rfl
  | wordDocuments word =>
    refine (answersIf_table (fun q => answersIf_lookupWord (C := fun _ => True) word
      (fun q' => answers_pure f q' ()) (fun _ q' => ((answers_getDocIDList _ q').bind
        fun _ q'' => answers_pure f q'' ()).answersIf trivial) q) p).congr ?_
    simp only [implies_true, and_true]
    rfl

end

/-! ### The constructor and a lookup -/

theorem validFile_completes {f : File} (h : ValidFile f) :
    Completes (fileIndexReader true) (onDisk f) fun header d =>
      header = fileHeader f ∧ d.file = f := by
  have hlen := h.header
  have hread : Gives (readExactly HEADER_SIZE) f 0 (f.slice 0 HEADER_SIZE) (0 + HEADER_SIZE) :=
    gives_readExactly (.inr (by omega))
  rw [fileIndexReader]
  refine Completes.bind (P := fun b d => b = true ∧ At f 0 d) ⟨_, _, rfl, rfl, rfl, rfl⟩ ?_
  rintro _ d₁ ⟨rfl, hd₁⟩
  apply completes_verify rfl
  refine Completes.bind (P := fun bs d => bs = f.slice 0 HEADER_SIZE ∧ At f HEADER_SIZE d) ?_ ?_
  · obtain ⟨d₂, hrun, hd₂⟩ := hread d₁ hd₁
    exact ⟨_, d₂, hrun, rfl, by simpa using hd₂⟩
  rintro _ d₂ ⟨rfl, hd₂⟩
  apply completes_verify (decide_eq_true h.magic)
  refine Completes.bind (P := fun n d => n = f.len ∧ d = d₂) ⟨_, _, rfl, by rw [hd₂.file], rfl⟩ ?_
  rintro _ d₂ ⟨rfl, rfl⟩
  apply completes_verify (decide_eq_true h.size)
  rw [if_pos rfl]
  refine (validateLoop_file f hlen h.size d₂ hd₂.file hd₂.pos).bind ?_
  rintro _ d₃ ⟨rfl, hd₃⟩
  apply completes_verify (decide_eq_true h.checksum)
  exact completes_pure ⟨rfl, hd₃⟩

/-- A session with a file returns or stops at an assertion exactly when the constructor rejects
the file or the lookup meets no bucket count of zero. -/
theorem openAndPerform_answers_iff (f : File) (lookup : Lookup) :
    (Completes (openAndPerform lookup) (onDisk f) (fun _ _ => True) ∨
        Aborts (openAndPerform lookup) (onDisk f)) ↔
      (ValidFile f → CountsNonzero f lookup) := by
  have hbind : openAndPerform lookup (fun _ => none) (onDisk f) =
      (fileIndexReader true (fun _ => none) (onDisk f)).bind fun r =>
        perform r.1 lookup (fun _ => none) r.2 := rfl
  by_cases hvalid : ValidFile f
  · obtain ⟨header, d, hrun, rfl, hd⟩ := validFile_completes hvalid
    rw [hrun] at hbind
    have hsame : openAndPerform lookup (fun _ => none) (onDisk f) =
        perform (fileHeader f) lookup (fun _ => none) d := hbind
    have hperform := answersIf_perform lookup d.pos (f := f)
    have hat : At f d.pos d := ⟨hd, rfl⟩
    rw [imp_iff_right hvalid, Completes, Aborts, hsame]
    constructor
    · intro hends
      by_contra hzero
      rw [hperform.2 hzero d hat] at hends
      obtain ⟨_, _, hok, -⟩ | habort := hends
      · cases hok
      · cases habort
    · intro hcounts
      exact (hperform.1 hcounts).completes_or_aborts hat
  · have hreject : fileIndexReader true (fun _ => none) (onDisk f) = .error .verify :=
      (rejects_iff f).2 hvalid
    rw [hreject] at hbind
    exact iff_of_true (.inr hbind) fun h => absurd h hvalid

/-- Four zero bytes behind a header with the right length and checksum are a table of documents
without buckets: a lookup divides by zero. -/
theorem openAndPerform_fourZeros :
    ¬ (Completes (openAndPerform (.document 1)) (onDisk (fourZeros 0)) (fun _ _ => True) ∨
      Aborts (openAndPerform (.document 1)) (onDisk (fourZeros 0))) := by
  have hfault : (match openAndPerform (.document 1) (fun _ => none) (onDisk (fourZeros 0)) with
      | .ok _ => none
      | .error h => some h) = some Halt.fault := by
    decide +kernel
  rintro (⟨a, d, hrun, -⟩ | habort)
  · rw [hrun] at hfault
    cases hfault
  · rw [habort] at hfault
    cases hfault

end Courses.SearchEngine
