import Courses.SearchEngine.IndexDecoding

/-!
# The index file round trip

What the readers answer on a file that `WriteIndex` produced: exactly the two tables it
was given. The constructor accepts the file, with or without the checksum; each lookup
answers as the table in memory does, for present keys and for absent ones.
-/
namespace Courses.SearchEngine

open Courses.Lib Courses.Lib.DiskM

variable {f : File} {off : ℕ}

/-! ## File names -/

theorem reads_docTableLoop (docid : HTKey) {es : List ℕ} {chain : List (HTKeyValue CString)}
    (h : List.Forall₂ (fun e kv => f.Holds e (encodeDocName e kv)) es chain)
    (hok : ∀ kv ∈ chain, DocNameOk kv) :
    Reads f (docTableLoop docid es)
      ((chain.find? fun kv => kv.key = docid).map fun kv => kv.value.bytes) := by
  induction h with
  | nil => exact reads_pure _
  | @cons e kv es chain helem _ ih =>
    have hlen : (beBytes 8 kv.key.toNat ++ beBytes 2 (strlen kv.value)).length = 10 := by simp
    have hkv : strlen kv.value < 256 ^ 2 := hok kv List.mem_cons_self
    rw [encodeDocName, File.holds_append, hlen] at helem
    rw [docTableLoop]
    apply reads_record helem.1 hlen
    rw [fieldDocID_head, List.drop_left' (beBytes_length 8 _), ofBe_beBytes_of_lt hkv,
      List.find?_cons]
    by_cases hkey : kv.key = docid
    · rw [if_pos hkey, decide_eq_true hkey]
      exact readsFrom_readExactly helem.2 rfl ((reads_pure _).from _)
    · rw [if_neg hkey, decide_eq_false hkey]
      exact (ih fun kv' hkv' => hok kv' (List.mem_cons_of_mem _ hkv')).from _

theorem Table.bucket_subset {V : Type} (t : Table V) (key : HTKey) : t.bucket key ⊆ t.entries :=
  fun _ he => List.mem_flatten.mpr ⟨_, List.mem_of_getElem? (t.getElem?_bucket key), he⟩

theorem Table.lookup_eq {V : Type} (t : Table V) (key : HTKey) :
    t.lookup key = ((t.bucket key).find? fun e => e.key = key).map HTKeyValue.value := by
  rw [lookup, t.find?_entries fun e _ he => of_decide_eq_true he]

theorem reads_lookupDocName {t : Table CString} (h : TableAt encodeDocName f off t)
    (hok : ∀ e ∈ t.entries, DocNameOk e) (docid : HTKey) :
    Reads f (lookupDocName ⟨off, t.buckets.length⟩ docid)
      ((t.lookup docid).map CString.bytes) := by
  obtain ⟨es, hes, helems⟩ := h.reads_lookupElementPositions docid
  rw [t.lookup_eq, Option.map_map]
  exact hes.bind (reads_docTableLoop docid helems fun kv hkv => hok kv (t.bucket_subset docid hkv))

/-! ## Positions -/

theorem reads_positions (positions : List UInt32) {p : ℕ}
    (h : f.Holds p (positions.flatMap fun position => beBytes 4 position.toNat)) :
    ReadsFrom f p (readPositions positions.length) positions := by
  induction positions generalizing p with
  | nil => exact (reads_pure _).from _
  | cons position positions ih =>
    rw [List.flatMap_cons, File.holds_append] at h
    rw [List.length_cons, readPositions]
    apply readsFrom_readExactly h.1 (by simp)
    have hfield := field32_head position.toNat_lt []
    rw [List.append_nil] at hfield
    have htail := h.2
    rw [beBytes_length] at htail
    rw [hfield, UInt32.ofNat_toNat]
    exact (ih htail).bind (reads_pure _)

theorem reads_docIDTableLoop (docid : HTKey) {es : List ℕ}
    {chain : List (HTKeyValue (List UInt32))} (hf : f.len < 2 ^ 32)
    (h : List.Forall₂ (fun e kv => f.Holds e (encodePositions e kv)) es chain) :
    Reads f (docIDTableLoop docid es)
      ((chain.find? fun kv => kv.key = docid).map HTKeyValue.value) := by
  induction h with
  | nil => exact reads_pure _
  | @cons e kv es chain helem _ ih =>
    have hlen : (beBytes 8 kv.key.toNat ++ beBytes 4 kv.value.length).length = 12 := by simp
    rw [encodePositions, File.holds_append, hlen] at helem
    have hnum : kv.value.length < 2 ^ 32 := by
      have := helem.2.1
      rw [flatMap_positions_length] at this
      omega
    have hfield := field32_head hnum []
    rw [List.append_nil] at hfield
    rw [docIDTableLoop]
    apply reads_record helem.1 hlen
    rw [fieldDocID_head, field32_drop (beBytes_length 8 _), hfield, List.find?_cons]
    by_cases hkey : kv.key = docid
    · rw [if_pos hkey, decide_eq_true hkey]
      exact (reads_positions kv.value helem.2).bind (reads_pure _)
    · rw [if_neg hkey, decide_eq_false hkey]
      exact ih.from _

theorem reads_lookupDocID {t : Table (List UInt32)} (h : TableAt encodePositions f off t)
    (docid : HTKey) :
    Reads f (lookupDocID ⟨off, t.buckets.length⟩ docid) (t.lookup docid) := by
  obtain ⟨es, hes, helems⟩ := h.reads_lookupElementPositions docid
  rw [t.lookup_eq]
  exact hes.bind (reads_docIDTableLoop docid h.short helems)

/-! ## The documents of a word -/

/-- A document and its number of positions, as the list of a table gives them. -/
def docCount (e : HTKeyValue (List UInt32)) : HTKey × ℕ := (e.key, e.value.length)

theorem holds_position {xs ys : List ℕ} {q e : ℕ}
    (h : f.Holds q (positionBytes (xs ++ e :: ys))) : f.Holds (q + 4 * xs.length) (beBytes 4 e) := by
  rw [positionBytes, List.flatMap_append, List.flatMap_cons, File.holds_append,
    File.holds_append] at h
  have := h.2.1
  rwa [show (xs.flatMap (beBytes 4)).length = 4 * xs.length from positionBytes_length xs] at this

theorem reads_docIDChain {q : ℕ} (hf : f.len < 2 ^ 32) (xs : List ℕ) {ys : List ℕ}
    {chain : List (HTKeyValue (List UInt32))} (hq : f.Holds q (positionBytes (xs ++ ys)))
    (h : List.Forall₂ (fun e kv => f.Holds e (encodePositions e kv)) ys chain) :
    Reads f (docIDChain q chain.length xs.length) (chain.map docCount) := by
  induction h generalizing xs with
  | nil => exact reads_pure _
  | @cons e kv ys chain helem _ ih =>
    have hlen : (beBytes 8 kv.key.toNat ++ beBytes 4 kv.value.length).length = 12 := by simp
    rw [encodePositions, File.holds_append, hlen] at helem
    have hnum : kv.value.length < 2 ^ 32 := by
      have := helem.2.1
      rw [flatMap_positions_length] at this
      omega
    have he : e < 2 ^ 32 := by
      have := helem.1.1
      omega
    have hfield := field32_head hnum []
    have hfield' := field32_head he []
    rw [List.append_nil] at hfield hfield'
    rw [List.length_cons, docIDChain]
    apply reads_record (holds_position hq) (by simp)
    rw [hfield']
    apply Reads.from
    apply reads_record helem.1 hlen
    rw [fieldDocID_head, field32_drop (beBytes_length 8 _), hfield]
    have hnext := ih (xs ++ [e]) (by simpa using hq)
    rw [List.length_append, List.length_singleton] at hnext
    exact (hnext.bind (g := fun rest => pure (docCount kv :: rest)) (reads_pure _)).from _

theorem reads_docIDBuckets {t : Table (List UInt32)} (h : TableAt encodePositions f off t)
    (chains : List (List (HTKeyValue (List UInt32)))) (i : ℕ)
    (hi : t.buckets.drop i = chains) :
    Reads f (docIDBuckets ⟨off, t.buckets.length⟩ chains.length i)
      (chains.flatten.map docCount) := by
  induction chains generalizing i with
  | nil => exact reads_pure _
  | cons chain chains ih =>
    have hget : t.buckets[i]? = some chain := by
      have := congrArg List.head? hi
      rwa [List.head?_drop, List.head?_cons] at this
    have hdrop : t.buckets.drop (i + 1) = chains := by
      rw [← List.tail_drop, hi, List.tail_cons]
    obtain ⟨q, es, hb⟩ := h.bucketAt hget
    obtain ⟨hchain, hq⟩ := hb.bounds h.short
    have hfield := field32_head hq []
    rw [List.append_nil] at hfield
    rw [List.length_cons, docIDBuckets]
    dsimp only
    have haddr : 4 + 8 * i + off = off + 4 + 8 * i := by omega
    rw [haddr]
    apply reads_record hb.record (by simp)
    rw [field32_head hchain, field32_drop (beBytes_length 4 _), hfield, List.flatten_cons,
      List.map_append]
    have hread := reads_docIDChain h.short [] hb.positions hb.elements
    have hrest := (ih (i + 1) hdrop).bind
      (g := fun rest => pure (chain.map docCount ++ rest)) (reads_pure _)
    exact (hread.bind hrest).from _

theorem reads_getDocIDList {t : Table (List UInt32)} (h : TableAt encodePositions f off t) :
    Reads f (getDocIDList ⟨off, t.buckets.length⟩) (t.entries.map docCount) :=
  reads_docIDBuckets h t.buckets 0 rfl

/-! ## Words -/

/-- The entry of a word, found by the word itself. -/
def MemIndex.lookupWord (mi : MemIndex) (word : List UInt8) : Option WordDocSet :=
  (mi.entries.find? fun e => e.value.word.bytes = word).map HTKeyValue.value

/-- What `LookupWord` may answer for an entry: nothing where there is none, else a reader
for a table of its documents in the file. -/
def ReaderFor (f : File) : Option WordDocSet → Option HashTableReader → Prop
  | none, r => r = none
  | some wds, r => ∃ off, r = some ⟨off, wds.docIDs.buckets.length⟩ ∧
      TableAt encodePositions f off wds.docIDs

/-- The documents of a word follow its header and its bytes. -/
theorem tableAt_docIDs {e : ℕ} {kv : HTKeyValue WordDocSet} (hf : f.len < 2 ^ 32)
    (h : f.Holds e (encodeWord e kv)) :
    TableAt encodePositions f (e + 6 + strlen kv.value.word) kv.value.docIDs := by
  refine ⟨?_, hf⟩
  rw [encodeWord, File.holds_append] at h
  have hlen : (beBytes 2 (strlen kv.value.word) ++ beBytes 4 (encodeDocIDs e kv.value).length ++
      kv.value.word.bytes).length = 6 + strlen kv.value.word := by
    simp only [List.length_append, beBytes_length, strlen]
  rw [hlen, ← Nat.add_assoc] at h
  exact h.2

theorem reads_lookupWordLoop (word : List UInt8) {es : List ℕ}
    {chain : List (HTKeyValue WordDocSet)} (hf : f.len < 2 ^ 32)
    (h : List.Forall₂ (fun e kv => f.Holds e (encodeWord e kv)) es chain)
    (hok : ∀ kv ∈ chain, WordOk kv) :
    ∃ r, Reads f (lookupWordLoop word es) r ∧
      ReaderFor f ((chain.find? fun kv => kv.value.word.bytes = word).map HTKeyValue.value) r := by
  induction h with
  | nil => exact ⟨none, reads_pure _, rfl⟩
  | @cons e kv es chain helem _ ih =>
    obtain ⟨r, hr, hreader⟩ := ih fun kv' hkv' => hok kv' (List.mem_cons_of_mem _ hkv')
    have htable := tableAt_docIDs hf helem
    have hoff := htable.length_lt
    have hword : strlen kv.value.word < 256 ^ 2 := (hok kv List.mem_cons_self).2.1
    have hlen : (beBytes 2 (strlen kv.value.word) ++
        beBytes 4 (encodeDocIDs e kv.value).length).length = 6 := by simp
    rw [encodeWord, List.append_assoc, File.holds_append, hlen] at helem
    obtain ⟨hhead, htail⟩ := helem
    have hbytes := ((File.holds_append _ _ _ _).mp htail).1
    rw [List.find?_cons]
    by_cases hsame : kv.value.word.bytes = word
    · rw [decide_eq_true hsame]
      refine ⟨some ⟨e + 6 + strlen kv.value.word, kv.value.docIDs.buckets.length⟩, ?_,
        _, rfl, htable⟩
      rw [lookupWordLoop]
      apply reads_record hhead hlen
      rw [List.take_left' (beBytes_length 2 _), ofBe_beBytes_of_lt hword]
      rw [if_neg (by rw [strlen, hsame]; exact not_not.mpr rfl)]
      apply readsFrom_readExactly hbytes rfl
      rw [if_pos hsame, u32_eq (by omega)]
      exact (htable.reads_hashTableReader.bind (g := fun r => pure (some r)) (reads_pure _)).from _
    · rw [decide_eq_false hsame]
      refine ⟨r, ?_, hreader⟩
      rw [lookupWordLoop]
      apply reads_record hhead hlen
      rw [List.take_left' (beBytes_length 2 _), ofBe_beBytes_of_lt hword]
      by_cases hlength : strlen kv.value.word = word.length
      · rw [if_neg (not_not.mpr hlength)]
        apply readsFrom_readExactly hbytes rfl
        rw [if_neg hsame]
        exact hr.from _
      · rw [if_pos hlength]
        exact hr.from _

theorem MemIndex.lookupWord_eq (mi : MemIndex) (word : List UInt8) :
    mi.lookupWord word = ((mi.bucket (fnvHash64 word (u32 word.length))).find?
      fun e => e.value.word.bytes = word).map HTKeyValue.value := by
  rw [lookupWord, mi.toTable.find?_entries]
  intro e he hword
  rw [mi.hashed e he, ← of_decide_eq_true hword]
  rfl

theorem reads_lookupWord {mi : MemIndex} (h : TableAt encodeWord f off mi.toTable)
    (hok : ∀ e ∈ mi.entries, WordOk e) (word : List UInt8) :
    ∃ r, Reads f (SearchEngine.lookupWord ⟨off, mi.buckets.length⟩ word) r ∧
      ReaderFor f (mi.lookupWord word) r := by
  obtain ⟨es, hes, helems⟩ := h.reads_lookupElementPositions (fnvHash64 word (u32 word.length))
  obtain ⟨r, hr, hreader⟩ := reads_lookupWordLoop word h.short helems
    fun kv hkv => hok kv (mi.toTable.bucket_subset _ hkv)
  rw [mi.lookupWord_eq]
  exact ⟨r, hes.bind hr, hreader⟩

/-! ## The constructor -/

/-- When the counter of the checksum loop gets to zero after `n` bytes: at the end of a whole
number of reads, or at the end of the file. -/
def StopsAfter (n : ℕ) (atEnd : Prop) : Prop :=
  (n < 2 ^ 32 ∨ ¬ 512 ∣ n) ∧ (512 ∣ n ∨ atEnd)

/-- The loop folds the bytes `bs`, 512 at a time. -/
theorem validateLoop_completes (fuel : ℕ) (bs : List UInt8) (crc : UInt32) (d : Disk)
    (hbs : d.file.Holds d.pos bs) (hstop : StopsAfter bs.length (d.pos + bs.length = d.file.len))
    (hfuel : bs.length < fuel) :
    Completes (validateLoop fuel (u32 bs.length) crc) d fun r d' =>
      r = bs.foldl foldByteIntoCRC crc ∧ d'.file = d.file := by
  induction fuel generalizing bs crc d with
  | zero => omega
  | succ fuel ih =>
    rw [validateLoop]
    obtain ⟨hcount, hat⟩ := hstop
    by_cases hnil : bs = []
    · rw [hnil]
      exact completes_pure ⟨rfl, rfl⟩
    · have hlen := List.length_pos_iff.2 hnil
      have hpos : u32 bs.length > 0 := by
        rw [u32]
        omega
      rw [if_pos hpos]
      have hsplit := hbs
      rw [← List.take_append_drop 512 bs, File.holds_append] at hsplit
      have htake : (bs.take 512).length = min 512 bs.length := List.length_take
      have hdrop : (bs.drop 512).length = bs.length - 512 := List.length_drop
      have hleft : sub32 (u32 bs.length) (bs.take 512).length = u32 (bs.drop 512).length := by
        rw [sub32, u32, u32]
        omega
      have hnext : Completes (validateLoop fuel (sub32 (u32 bs.length) (bs.take 512).length)
          ((bs.take 512).foldl foldByteIntoCRC crc))
          { d with pos := d.pos + (bs.take 512).length, calls := d.calls + 1 } fun r d' =>
            r = bs.foldl foldByteIntoCRC crc ∧ d'.file = d.file := by
        rw [hleft]
        refine (ih (bs.drop 512) _ _ hsplit.2 ⟨by omega, ?_⟩ (by omega)).mono ?_
        · dsimp only
          omega
        · rintro _ d' ⟨rfl, hfile⟩
          exact ⟨by rw [← List.foldl_append, List.take_append_drop], hfile⟩
      by_cases hfull : 512 ≤ bs.length
      · have h512 : (bs.take 512).length = 512 := by omega
        apply completes_fread hsplit.1 h512
        rw [h512] at hnext ⊢
        exact hnext
      · exact completes_fread_rest hbs (by omega) hnext

/-- The header of the file for `mi` and `dt`. -/
def indexHeader (mi : MemIndex) (dt : DocTable) : IndexFileHeader where
  magicNumber := MAGIC_NUMBER
  checksum := (crc32 (encodeDocTable dt ++ encodeMemIndex mi dt)).toNat
  doctableSize := (encodeDocTable dt).length
  indexSize := (encodeMemIndex mi dt).length

/-- The file that `WriteIndex` leaves for `mi` and `dt`. -/
def indexFile (mi : MemIndex) (dt : DocTable) : File := File.empty.put 0 (encodeIndex mi dt)

theorem indexFile_holds (mi : MemIndex) (dt : DocTable) :
    (indexFile mi dt).Holds 0 (encodeIndex mi dt) := File.holds_put (Or.inl le_rfl)

theorem encodeIndex_length (mi : MemIndex) (dt : DocTable) : (encodeIndex mi dt).length =
    HEADER_SIZE + ((encodeDocTable dt).length + (encodeMemIndex mi dt).length) := by
  rw [encodeIndex, List.length_append, encodeHeader_length, List.length_append]

theorem indexFile_len (mi : MemIndex) (dt : DocTable) :
    (indexFile mi dt).len = (encodeIndex mi dt).length := by
  have hlen := encodeIndex_length mi dt
  have hne : encodeIndex mi dt ≠ [] := by
    intro hnil
    rw [hnil, List.length_nil, HEADER_SIZE] at hlen
    omega
  change (if encodeIndex mi dt = [] then 0 else max 0 (0 + (encodeIndex mi dt).length)) = _
  rw [if_neg hne]
  omega

theorem encodeHeader_fields {mi : MemIndex} {dt : DocTable} (h : Encodable mi dt) :
    (⟨field32 (encodeHeader mi dt) 0, field32 (encodeHeader mi dt) 4,
      field32 (encodeHeader mi dt) 8, field32 (encodeHeader mi dt) 12⟩ : IndexFileHeader) =
      indexHeader mi dt := by
  have hsize := h.size
  rw [encodeIndex_length] at hsize
  have hindex := field32_head (a := (encodeMemIndex mi dt).length) (by omega) []
  rw [List.append_nil] at hindex
  rw [encodeHeader, field32_drop (i := 12) (by simp), hindex, List.append_assoc,
    field32_drop (i := 8) (by simp), field32_head (by omega), List.append_assoc,
    field32_drop (i := 4) (beBytes_length 4 _), field32_head (UInt32.toNat_lt _),
    field32_head (by decide), indexHeader]

theorem fileIndexReader_completes {mi : MemIndex} {dt : DocTable} (h : Encodable mi dt)
    (validate : Bool) (d : Disk) (hd : d.file = indexFile mi dt) (hlinked : d.linked = true) :
    Completes (fileIndexReader validate) d fun header d' =>
      header = indexHeader mi dt ∧ d'.file = indexFile mi dt := by
  have hsize := h.size
  have hlen := indexFile_len mi dt
  have hlength := encodeIndex_length mi dt
  have hholds := indexFile_holds mi dt
  rw [encodeIndex, File.holds_append, encodeHeader_length, Nat.zero_add] at hholds
  rw [fileIndexReader]
  refine Completes.bind (P := fun b d' => b = true ∧ d'.file = indexFile mi dt ∧ d'.pos = 0)
    ⟨_, _, rfl, hlinked, hd, rfl⟩ ?_
  rintro _ d₁ ⟨rfl, hd₁, hpos⟩
  apply completes_verify rfl
  rw [readExactly, bind_assoc]
  have hhead : d₁.file.Holds d₁.pos (encodeHeader mi dt) := by
    rw [hd₁, hpos]
    exact hholds.1
  apply completes_fread hhead (encodeHeader_length mi dt)
  rw [bind_assoc]
  apply completes_verify (by simpa using encodeHeader_length mi dt)
  rw [pure_bind, encodeHeader_fields h]
  dsimp only
  apply completes_verify (by simp [indexHeader])
  refine Completes.bind (P := fun n d' => n = (indexFile mi dt).len ∧
    d'.file = indexFile mi dt ∧ d'.pos = HEADER_SIZE)
    ⟨_, _, rfl, by rw [hd₁], hd₁, by dsimp only; rw [hpos, Nat.zero_add]⟩ ?_
  rintro _ d₂ ⟨rfl, hd₂, hpos₂⟩
  have htotal : u32 (indexFile mi dt).len =
      u32 (HEADER_SIZE + (indexHeader mi dt).doctableSize + (indexHeader mi dt).indexSize) := by
    rw [hlen, hlength, indexHeader, Nat.add_assoc]
  apply completes_verify (by simpa using htotal)
  have hbody : d₂.file.Holds d₂.pos (encodeDocTable dt ++ encodeMemIndex mi dt) := by
    rw [hd₂, hpos₂]
    exact hholds.2
  cases validate with
  | false => exact completes_pure ⟨rfl, hd₂⟩
  | true =>
    rw [if_pos rfl]
    have hleft : (indexHeader mi dt).doctableSize + (indexHeader mi dt).indexSize =
        (encodeDocTable dt ++ encodeMemIndex mi dt).length := List.length_append.symm
    rw [hleft]
    refine (validateLoop_completes _ _ crcInitial d₂ hbody ⟨?_, ?_⟩ ?_).bind ?_
    · rw [List.length_append]
      omega
    · rw [hd₂, hpos₂, List.length_append]
      omega
    · rw [List.length_append]
      omega
    · rintro _ d₃ ⟨rfl, hd₃⟩
      apply completes_verify (by simp [indexHeader, crc32])
      exact completes_pure ⟨rfl, hd₃.trans hd₂⟩

/-! ## The round trip -/

/-- The readers made from the file answer as the two tables do. -/
structure Decodes (f : File) (header : IndexFileHeader) (mi : MemIndex) (dt : DocTable) :
    Prop where
  names : ∃ r, Reads f getDocTableReader r ∧
    ∀ docid, Reads f (lookupDocName r docid) ((dt.lookup docid).map CString.bytes)
  words : ∃ r, Reads f (getIndexTableReader header) r ∧ ∀ word,
    match mi.lookupWord word with
    | none => Reads f (lookupWord r word) none
    | some wds => ∃ docs, Reads f (lookupWord r word) (some docs) ∧
        Reads f (getDocIDList docs) (wds.docIDs.entries.map docCount) ∧
        ∀ docid, Reads f (lookupDocID docs docid) (wds.docIDs.lookup docid)

theorem indexFile_tableAt {mi : MemIndex} {dt : DocTable} (h : Encodable mi dt) :
    TableAt encodeDocName (indexFile mi dt) HEADER_SIZE dt ∧
      TableAt encodeWord (indexFile mi dt) (HEADER_SIZE + (encodeDocTable dt).length)
        mi.toTable := by
  have hshort : (indexFile mi dt).len < 2 ^ 32 := by
    rw [indexFile_len]
    exact h.size
  have hholds := indexFile_holds mi dt
  rw [encodeIndex, File.holds_append, encodeHeader_length, Nat.zero_add, File.holds_append] at hholds
  exact ⟨⟨hholds.2.1, hshort⟩, hholds.2.2, hshort⟩

theorem indexFile_decodes {mi : MemIndex} {dt : DocTable} (h : Encodable mi dt) :
    Decodes (indexFile mi dt) (indexHeader mi dt) mi dt := by
  obtain ⟨hnames, hwords⟩ := indexFile_tableAt h
  refine ⟨⟨_, hnames.reads_hashTableReader, reads_lookupDocName hnames h.names⟩, ?_⟩
  refine ⟨⟨HEADER_SIZE + (encodeDocTable dt).length, mi.buckets.length⟩, ?_, ?_⟩
  · rw [getIndexTableReader]
    have hlt := hwords.length_lt
    have hoff : u32 (HEADER_SIZE + (indexHeader mi dt).doctableSize) =
        HEADER_SIZE + (encodeDocTable dt).length := u32_eq (by dsimp only [indexHeader]; omega)
    rw [hoff]
    exact hwords.reads_hashTableReader
  · intro word
    obtain ⟨r, hr, hreader⟩ := reads_lookupWord hwords h.words word
    cases hlookup : mi.lookupWord word with
    | none =>
      rw [hlookup] at hreader
      cases hreader
      exact hr
    | some wds =>
      rw [hlookup] at hreader
      obtain ⟨off, rfl, htable⟩ := hreader
      exact ⟨_, hr, reads_getDocIDList htable, reads_lookupDocID htable⟩

/-- What `WriteIndex` writes, the readers give back: every document id, word and pair of
them, the absent ones included. -/
theorem index_round_trip (mi : MemIndex) (dt : DocTable)
    (hword : ∀ e ∈ mi.entries, e.value.word.bytes ≠ [] ∧ strlen e.value.word < 2 ^ 16)
    (hname : ∀ e ∈ dt.entries, strlen e.value < 2 ^ 16)
    (hpositions : ∀ e ∈ mi.entries, ∀ e' ∈ e.value.docIDs.entries, e'.value ≠ [])
    (hsize : (encodeIndex mi dt).length < 2 ^ 32) (d : Disk) :
    ∃ f, Completes (writeIndex mi dt) d
        (fun n d' => n = f.len ∧ n ≠ 0 ∧ d'.file = f ∧ d'.linked = true) ∧
      ∀ validate d', d'.file = f → d'.linked = true →
        Completes (fileIndexReader validate) d' fun header d'' =>
          d''.file = f ∧ Decodes f header mi dt := by
  have h : Encodable mi dt :=
    ⟨fun e he => ⟨(hword e he).1, (hword e he).2, hpositions e he⟩, hname, hsize⟩
  refine ⟨indexFile mi dt, (writeIndex_completes h d).mono ?_, ?_⟩
  · rintro _ d' ⟨rfl, hfile, hlinked⟩
    have hlength := encodeIndex_length mi dt
    refine ⟨(indexFile_len mi dt).symm, ?_, hfile, hlinked⟩
    rw [HEADER_SIZE] at hlength
    omega
  · intro validate d' hd' hlinked
    refine (fileIndexReader_completes h validate d' hd' hlinked).mono ?_
    rintro _ d'' ⟨rfl, hd''⟩
    exact ⟨hd'', indexFile_decodes h⟩

/-- The placement of the entries, checked chain by chain. -/
theorem placed_of_get {V : Type} {buckets : List (List (HTKeyValue V))}
    (h : ∀ i : Fin buckets.length, ∀ e ∈ buckets.get i, e.key.toNat % buckets.length = i) :
    ∀ i chain, buckets[i]? = some chain → ∀ e ∈ chain, e.key.toNat % buckets.length = i := by
  intro i chain hi e he
  obtain ⟨hlt, rfl⟩ := List.getElem?_eq_some_iff.mp hi
  exact h ⟨i, hlt⟩ e he

/-- One document, `f`, in a table of one chain. -/
def oneName : DocTable where
  buckets := [[⟨1, ⟨[102], CString.nonul_f⟩⟩]]
  nonempty := by decide
  placed := placed_of_get (by decide)
  nodup := by decide

/-- The documents of a word that stands in document 1 at offsets 0 and 5. -/
def twoPositions : Table (List UInt32) where
  buckets := [[], [⟨1, [0, 5]⟩]]
  nonempty := by decide
  placed := placed_of_get (by decide)
  nodup := by decide

/-- An index with the word `a` in a table of one chain. -/
def oneWord : MemIndex where
  buckets := [[⟨fnvHash64 [97] 1, ⟨⟨[97], CString.nonul_a⟩, twoPositions⟩⟩]]
  nonempty := by decide
  placed := placed_of_get (by decide)
  nodup := by simp
  hashed := by
    intro e he
    cases List.mem_singleton.mp he
    rfl

theorem index_round_trip_oneWord : ∃ f, Completes (writeIndex oneWord oneName) ⟨.empty, 0, false, 0, 0⟩
    (fun n d' => n = f.len ∧ n ≠ 0 ∧ d'.file = f ∧ d'.linked = true) ∧
      ∀ validate d', d'.file = f → d'.linked = true →
        Completes (fileIndexReader validate) d' fun header d'' =>
          d''.file = f ∧ Decodes f header oneWord oneName := by
  apply index_round_trip
  · intro e he
    cases List.mem_singleton.mp he
    exact ⟨by decide, by decide⟩
  · intro e he
    cases List.mem_singleton.mp he
    decide
  · intro e he e' he'
    cases List.mem_singleton.mp he
    cases List.mem_singleton.mp he'
    decide
  · decide +kernel

end Courses.SearchEngine
