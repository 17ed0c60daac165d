import Courses.SearchEngine.FileParser
import Courses.SearchEngine.IndexRoundTrip

/-!
# The consistency checker

`hw3/hw3fsck`. The checker walks every table of an index file by its own arithmetic on
offsets, and compares what it finds with what it expects. A comparison that fails is
printed and the walk goes on; a read or a seek that fails ends the program. The walk is
`fileIndexChecker`, and its value is what it prints.
-/
namespace Courses.SearchEngine

open Courses.Lib Courses.Lib.DiskM

/-- What a failed comparison prints: where the checker was, the field, and the two values. -/
structure Complaint where
  context : String
  fieldname : String
  expected : ℕ
  actual : ℕ
  deriving Repr, DecidableEq

/-- The comparison of two unsigned integers of `w` bits. -/
def checkEq (w : ℕ) (context fieldname : String) (expected actual : ℕ) : List Complaint :=
  if expected % 2 ^ w = actual % 2 ^ w then [] else [⟨context, fieldname, expected, actual⟩]

def check16 : String → String → ℕ → ℕ → List Complaint := checkEq 16

def check32 : String → String → ℕ → ℕ → List Complaint := checkEq 32

def check64 : String → String → ℕ → ℕ → List Complaint := checkEq 64

/-- The comparison by size. -/
def checkLT (w : ℕ) (context fieldname : String) (smaller bigger : ℕ) : List Complaint :=
  if smaller % 2 ^ w < bigger % 2 ^ w then [] else [⟨context, fieldname, smaller, bigger⟩]

def checkLT16 : String → String → ℕ → ℕ → List Complaint := checkLT 16

def checkLT32 : String → String → ℕ → ℕ → List Complaint := checkLT 32

/-- `assert(fread(..., n, 1, f) == 1)` for a length read from the file: no item of zero
bytes is ever read. -/
def readItem (n : ℕ) : DiskM (List UInt8) := do
  let bs ← fread n
  verify (bs.length / n = 1)
  return bs

/-! ## `HashTableChecker` -/

/-- The constructor and `Check` are always given the same offset and length. -/
structure HashTableChecker where
  offset : ℕ
  len : ℕ
  numBuckets : ℕ
  deriving Repr, DecidableEq

/-- Where the table must end. -/
def HashTableChecker.tableEnd (c : HashTableChecker) : ℕ := u32 (c.offset + c.len + 1)

/-- The virtual `CheckElement`, in the context its caller has set. -/
abbrev CheckElement := HashTableChecker → String → ℕ → ℕ → DiskM (List Complaint)

/-- The context of the `j`-th element in the `i`-th chain. -/
def elementContext (i j : ℕ) : String :=
  "[bucket_num,element_num]=" ++ ("[" ++ toString i ++ "," ++ toString j ++ "]")

/-- The context of the `i`-th record. -/
def recordContext (i : ℕ) : String := "bucket_rec[" ++ toString i ++ "]"

/-- The loop over a chain: `left` elements from the `j`-th on. -/
def checkChain (fn : CheckElement) (c : HashTableChecker) (i curbucket : ℕ) :
    ℕ → ℕ → DiskM (List Complaint)
  | 0, _ => return []
  | left + 1, j => do
    let context := elementContext i j
    seekTo (u32 (curbucket + j * 4))
    let bs ← readExactly 4
    let elementpos := field32 bs 0
    let bound := checkLT32 context "element position < table end+1" elementpos c.tableEnd
    let element ← fn c context elementpos i
    return bound ++ element ++ (← checkChain fn c i curbucket left (j + 1))

/-- What `Check` makes of the position of a bucket: `prev` is that of the last one that was
not empty, and at the first such bucket that of the first record. -/
def checkOrder (c : HashTableChecker) (context : String) (prev : Option ℕ)
    (curchainlen curbucket : ℕ) : DiskM (List Complaint × Option ℕ) :=
  if curchainlen > 0 then
    match prev with
    | some prevbucket =>
      return (checkLT32 context "bucket_rec[i].position < bucket_rec[i+1].position" prevbucket
        curbucket, some curbucket)
    | none => do
      seekTo (u32 (c.offset + 4))
      let _ ← readExactly 4
      let bs ← readExactly 4
      let prevbucket := field32 bs 0
      return (check32 context ("position of the first bucket (expected to be " ++
        "(table start) + (4) + (8*num_buckets))") (u32 (c.offset + 4 + 8 * c.numBuckets))
        prevbucket, some prevbucket)
  else
    return ([], prev)

/-- The loop over the bucket records: `left` of them from the `i`-th on. -/
def checkBuckets (fn : CheckElement) (c : HashTableChecker) :
    ℕ → ℕ → Option ℕ → DiskM (List Complaint)
  | 0, _, _ => return []
  | left + 1, i, prev => do
    let context := recordContext i
    seekTo (u32 (c.offset + 4 + 8 * i))
    let bs ← readExactly 4
    let curchainlen := field32 bs 0
    let bs ← readExactly 4
    let curbucket := field32 bs 0
    let (order, prev) ← checkOrder c context prev curchainlen curbucket
    let bound := checkLT32 context "bucket position < table end+1" curbucket c.tableEnd
    let chain ← checkChain fn c i curbucket curchainlen 0
    return order ++ bound ++ chain ++ (← checkBuckets fn c left (i + 1) prev)

/-- `HashTableChecker::Check`. -/
def hashTableCheck (fn : CheckElement) (offset len : ℕ) : DiskM (List Complaint) := do
  seekTo offset
  let bs ← readExactly 4
  let numBuckets := field32 bs 0
  let count := checkLT32 "num_buckets" "num_buckets < len(table)" (u32 (numBuckets * 8)) len
  return count ++ (← checkBuckets fn ⟨offset, len, numBuckets⟩ numBuckets 0 none)

/-! ## The elements -/

/-- `isascii` on a signed `char`. -/
def isascii (b : UInt8) : Bool := b < 128

def islower (b : UInt8) : Bool := 97 ≤ b && b ≤ 122

/-- `DocTableChecker::CheckElement`. -/
def docTableCheckElement : CheckElement := fun c context elementOffset bucketNumber => do
  seekTo elementOffset
  let bs ← readExactly 8
  let docID := fieldDocID bs
  let bucket := check32 context "[DocTable] DocID % num_buckets_ == bucket_number" bucketNumber
    (docID.toNat % c.numBuckets)
  let bs ← readExactly 2
  let fnlen := ofBe bs
  let length := checkLT16 context "[DocTable] filename length" fnlen 1024
  let filename ← readItem fnlen
  let ascii := filename.zipIdx.flatMap fun (b, i) =>
    check16 context ("[DocTable] isascii(filename)[" ++ toString i ++ "]") 1
      (if isascii b then 1 else 0)
  return bucket ++ length ++ ascii

/-- The check of a position against the one before, if there is one. -/
def checkRise (context : String) (prevposn : Option ℕ) (curposn : ℕ) : List Complaint :=
  match prevposn with
  | none => []
  | some prevposn => checkLT32 context "word position[i] < word position[i+1]" prevposn curposn

/-- The loop over the positions. -/
def checkPositions (context : String) : ℕ → Option ℕ → DiskM (List Complaint)
  | 0, _ => return []
  | left + 1, prevposn => do
    let bs ← readExactly 4
    let curposn := field32 bs 0
    return checkRise context prevposn curposn ++ (← checkPositions context left (some curposn))

/-- `DocIDTableChecker::CheckElement`. -/
def docIDTableCheckElement : CheckElement := fun c context elementOffset bucketNumber => do
  seekTo elementOffset
  let bs ← readExactly 8
  let docid := fieldDocID bs
  let bucket := check64 context "[DocID table] DocID % num_buckets == bucket_number" bucketNumber
    (u32 (docid.toNat % c.numBuckets))
  let bs ← readExactly 4
  let numposn := field32 bs 0
  let count := checkLT32 context "[DocID table] num_positions" numposn 1000000
  return bucket ++ count ++ (← checkPositions context numposn none)

/-- The checks on one character of a word. -/
def checkLetter (context : String) (b : UInt8) (i : ℕ) : List Complaint :=
  check16 context ("[IndexTable] isascii(word)[" ++ toString i ++ "]") 1
      (if isascii b then 1 else 0) ++
    if isalpha b then
      check16 context ("[IndexTable] islower(word)[" ++ toString i ++ "]") 1
        (if islower b then 1 else 0)
    else
      []

/-- `IndexTableChecker::CheckElement`. -/
def indexTableCheckElement : CheckElement := fun c _ elementOffset bucketNumber => do
  let context := recordContext bucketNumber
  seekTo elementOffset
  let bs ← readExactly 2
  let wordlen := ofBe bs
  let length := checkLT16 context "[IndexTable] word length" wordlen 8192
  let bs ← readExactly 4
  let docidlen := field32 bs 0
  let inside := checkLT32 context "[IndexTable] element end < indextable end"
    (u32 (elementOffset + 2 + 4 + wordlen)) (u32 (c.offset + c.len))
  let word ← readItem wordlen
  let letters := word.zipIdx.flatMap fun (b, i) => checkLetter context b i
  let docs ← hashTableCheck docIDTableCheckElement (u32 (elementOffset + 2 + 4 + wordlen)) docidlen
  return length ++ inside ++ letters ++ docs

/-! ## `FileIndexChecker` -/

/-- The loop that folds the rest of the file into a checksum, up to 512 bytes at a time. -/
def recalculateLoop : ℕ → ℕ → UInt32 → DiskM UInt32
  | 0, _, _ => halt .fuel
  | fuel + 1, leftToRead, crc => do
    if leftToRead > 0 then
      let buf ← fread 512
      verify (buf.length > 0)
      recalculateLoop fuel (sub32 leftToRead buf.length) (buf.foldl foldByteIntoCRC crc)
    else
      return crc

/-- The constructor, which does all the checking. Each turn of the checksum loop reads a
byte or ends the program, so there are no more of them than bytes in the file. -/
def fileIndexChecker : DiskM (List Complaint) := do
  verify (← openRead)
  seekTo 0
  let bs ← readExactly 4
  let magic := check32 "magic number" "magic number" MAGIC_NUMBER (field32 bs 0)
  let bs ← readExactly 4
  let checksum := field32 bs 0
  let bs ← readExactly 4
  let doctableSize := field32 bs 0
  let bs ← readExactly 4
  let indexSize := field32 bs 0
  let stSize ← size
  let sizes := check32 "magic number" "doctable_size + index_size"
    (sub32 (u32 stSize) HEADER_SIZE) (u32 (doctableSize + indexSize))
  let crc ← recalculateLoop (stSize + 1) (sub32 (u32 stSize) HEADER_SIZE) crcInitial
  let sum := check32 "magic number" "checksum" (getFinalCRC crc).toNat checksum
  let doctable ← hashTableCheck docTableCheckElement HEADER_SIZE doctableSize
  let index ← hashTableCheck indexTableCheckElement (u32 (HEADER_SIZE + doctableSize)) indexSize
  return magic ++ sizes ++ sum ++ doctable ++ index

/-! ## Comparisons that hold -/

theorem checkEq_eq_nil {w a b : ℕ} {context fieldname : String} (h : a % 2 ^ w = b % 2 ^ w) :
    checkEq w context fieldname a b = [] := if_pos h

theorem checkLT_eq_nil {w a b : ℕ} {context fieldname : String} (h : a < b) (hb : b < 2 ^ w) :
    checkLT w context fieldname a b = [] := by
  apply if_pos
  rwa [Nat.mod_eq_of_lt hb, Nat.mod_eq_of_lt (h.trans hb)]

theorem checkLT32_zero {a : ℕ} {context fieldname : String} :
    checkLT32 context fieldname a 0 ≠ [] := by
  rw [checkLT32, checkLT, if_neg (by simp)]
  exact List.cons_ne_nil _ _

theorem field32_beBytes {a : ℕ} (ha : a < 2 ^ 32) : field32 (beBytes 4 a) 0 = a := by
  have h := field32_head ha []
  rwa [List.append_nil] at h

theorem readsFrom_readItem {β : Type} {f : File} {p n : ℕ} {bs : List UInt8} {b : β}
    {g : List UInt8 → DiskM β} (hbs : f.Holds p bs) (hn : bs.length = n) (hne : bs ≠ [])
    (h : ReadsFrom f (p + n) (g bs) b) : ReadsFrom f p (readItem n >>= g) b := by
  intro d hd hp
  rw [readItem, bind_assoc]
  have hholds : d.file.Holds d.pos bs := by rwa [hd, hp]
  apply completes_fread hholds hn
  rw [bind_assoc]
  have hone : bs.length / n = 1 := by
    rw [hn]
    exact Nat.div_self (hn ▸ List.length_pos_iff.2 hne)
  apply completes_verify (decide_eq_true hone)
  exact h _ hd (by rw [← hp])

/-! ## A table -/

section Table

variable {V : Type} {fn : CheckElement} {enc : Encoder V} {ok : HTKeyValue V → Prop} {f : File}
  {c : HashTableChecker} {i : ℕ}

/-- An element of the table that `c` checks. -/
structure ElementAt (enc : Encoder V) (f : File) (c : HashTableChecker) (i e : ℕ)
    (kv : HTKeyValue V) : Prop where
  holds : f.Holds e (enc e kv)
  within : e + (enc e kv).length ≤ c.offset + c.len
  placed : kv.key.toNat % c.numBuckets = i
  index : i < 2 ^ 32

/-- `fn` has nothing to say about the elements that are `ok`, as long as the end of the
table can be counted. -/
def Passes (fn : CheckElement) (enc : Encoder V) (ok : HTKeyValue V → Prop) (f : File) : Prop :=
  ∀ c context i e kv, ok kv → c.offset + c.len ≤ f.len → ElementAt enc f c i e kv →
    ∃ cs, Reads f (fn c context e i) cs ∧ (c.offset + c.len + 1 < 2 ^ 32 → cs = [])

theorem elementsAt {chain : List (HTKeyValue V)} {next : ℕ}
    (h : f.Holds next (elementBytes enc next chain))
    (hwithin : next + (elementBytes enc next chain).length ≤ c.offset + c.len)
    (hplaced : ∀ kv ∈ chain, kv.key.toNat % c.numBuckets = i) (hi : i < 2 ^ 32) :
    List.Forall₂ (fun e kv => ElementAt enc f c i e kv) (elementOffsets enc next chain) chain := by
  induction chain generalizing next with
  | nil => exact .nil
  | cons kv chain ih =>
    rw [elementBytes, File.holds_append] at h
    rw [elementBytes, List.length_append] at hwithin
    refine .cons ⟨h.1, by omega, hplaced kv List.mem_cons_self, hi⟩ (ih h.2 (by omega) ?_)
    exact fun kv' hkv' => hplaced kv' (List.mem_cons_of_mem _ hkv')

theorem reads_checkChain (hfn : Passes fn enc ok f) (hf : f.len < 2 ^ 32)
    (hc : c.offset + c.len ≤ f.len) {q : ℕ} (xs : List ℕ) {ys : List ℕ}
    {chain : List (HTKeyValue V)} (hq : f.Holds q (positionBytes (xs ++ ys)))
    (h : List.Forall₂ (fun e kv => ElementAt enc f c i e kv) ys chain)
    (hok : ∀ kv ∈ chain, ok kv) :
    ∃ cs, Reads f (checkChain fn c i q chain.length xs.length) cs ∧
      (c.offset + c.len + 1 < 2 ^ 32 → cs = []) := by
  induction h generalizing xs with
  | nil => exact ⟨[], reads_pure _, fun _ => rfl⟩
  | @cons e kv ys chain helem _ ih =>
    have hposition := holds_position hq
    have haddr : u32 (q + xs.length * 4) = q + 4 * xs.length := by
      have := hposition.1
      rw [beBytes_length] at this
      rw [u32]
      omega
    have he : e < 2 ^ 32 := by
      have := helem.holds.1
      omega
    obtain ⟨rest, hrest, hrest_nil⟩ := ih (xs ++ [e]) (by simpa using hq)
      fun kv' hkv' => hok kv' (List.mem_cons_of_mem _ hkv')
    rw [List.length_append, List.length_singleton] at hrest
    obtain ⟨element, helement, helement_nil⟩ := hfn c (elementContext i xs.length) i e kv
      (hok kv List.mem_cons_self) hc helem
    refine ⟨checkLT32 (elementContext i xs.length) "element position < table end+1" e c.tableEnd ++
      element ++ rest, ?_, fun hend => ?_⟩
    · rw [List.length_cons, checkChain]
      dsimp only
      rw [haddr]
      apply reads_record hposition (beBytes_length 4 e)
      rw [field32_beBytes he]
      apply Reads.from
      refine helement.bind (hrest.bind ?_)
      exact reads_pure _
    · have hbound : e < c.tableEnd := by
        have := helem.within
        rw [HashTableChecker.tableEnd, u32_eq hend]
        omega
      have hlt : c.tableEnd < 2 ^ 32 := Nat.mod_lt _ (by decide)
      rw [checkLT32, checkLT_eq_nil hbound hlt, helement_nil hend, hrest_nil hend]
      rfl

/-- The positions that the order of the buckets is checked against: before the first bucket
that is not empty every bucket is where this one is. -/
def Ordered (start next : ℕ) : Option ℕ → Prop
  | none => next = start
  | some prevbucket => prevbucket < next

theorem reads_checkOrder (context : String) {prev : Option ℕ} {start next n m : ℕ}
    (hstart : start = c.offset + 4 + 8 * c.numBuckets) (hnext : next < 2 ^ 32)
    (hlt : start < 2 ^ 32)
    (hfirst : f.Holds (c.offset + 4) (beBytes 4 m ++ beBytes 4 start))
    (hprev : Ordered start next prev) :
    ∃ prev', Reads f (checkOrder c context prev n next) ([], prev') ∧
      (n > 0 → ∃ p, prev' = some p ∧ p ≤ next) ∧ (n = 0 → prev' = prev) := by
  by_cases hn : n > 0
  · unfold checkOrder
    rw [if_pos hn]
    cases prev with
    | some prevbucket =>
      refine ⟨some next, ?_, fun _ => ⟨next, rfl, le_rfl⟩, fun hzero => absurd hzero (by omega)⟩
      dsimp only
      rw [checkLT32, checkLT_eq_nil hprev hnext]
      exact reads_pure _
    | none =>
      refine ⟨some start, ?_, fun _ => ⟨start, rfl, hprev.ge⟩, fun hzero => absurd hzero (by omega)⟩
      rw [File.holds_append, beBytes_length] at hfirst
      dsimp only
      rw [u32_eq (by omega)]
      apply reads_record hfirst.1 (beBytes_length 4 _)
      apply readsFrom_readExactly hfirst.2 (beBytes_length 4 _)
      rw [field32_beBytes hlt, ← hstart, u32_eq hlt, check32, checkEq_eq_nil rfl]
      exact (reads_pure _).from _
  · unfold checkOrder
    rw [if_neg hn]
    exact ⟨prev, reads_pure _, fun hpos => absurd hpos hn, fun _ => rfl⟩

theorem reads_checkBuckets (hfn : Passes fn enc ok f) (hf : f.len < 2 ^ 32)
    (hc : c.offset + c.len ≤ f.len) {start m : ℕ}
    (hstart : start = c.offset + 4 + 8 * c.numBuckets) 
    (hfirst : f.Holds (c.offset + 4) (beBytes 4 m ++ beBytes 4 start))
    (chains : List (List (HTKeyValue V))) {prev : Option ℕ} {next : ℕ}
    (hrec : f.Holds (c.offset + 4 + 8 * i) (bucketRecords enc next chains))
    (hbytes : f.Holds next (bucketBytes enc next chains)) (hle : start ≤ next)
    (hend : next + (bucketBytes enc next chains).length = c.offset + c.len)
    (hprev : Ordered start next prev)
    (hok : ∀ chain ∈ chains, ∀ kv ∈ chain, ok kv)
    (hplaced : ∀ j chain, chains[j]? = some chain →
      ∀ kv ∈ chain, kv.key.toNat % c.numBuckets = i + j) :
    ∃ cs, Reads f (checkBuckets fn c chains.length i prev) cs ∧
      (c.offset + c.len + 1 < 2 ^ 32 → cs = []) ∧
      (c.offset + c.len + 1 = 2 ^ 32 → chains ≠ [] → cs ≠ []) := by
  induction chains generalizing i prev next with
  | nil => exact ⟨[], reads_pure _, fun _ => rfl, fun _ hne => absurd rfl hne⟩
  | cons chain chains ih =>
    rw [bucketRecords, File.holds_append, File.holds_append, List.length_append, beBytes_length,
      beBytes_length] at hrec
    rw [bucketBytes, File.holds_append] at hbytes
    rw [bucketBytes, List.length_append] at hend
    obtain ⟨⟨hlength, hposition⟩, hrec⟩ := hrec
    obtain ⟨hbucket, hbytes⟩ := hbytes
    have hbucket' := hbucket
    have hlen : (encodeBucket enc next chain).length = _ := encodeBucket_length next chain
    rw [encodeBucket, File.holds_append, positionBytes_length, elementOffsets_length] at hbucket'
    have hn : chain.length < 2 ^ 32 := by
      have := hbucket.1
      omega
    obtain ⟨prev', horder, hnonempty, hempty⟩ := reads_checkOrder (recordContext i) hstart
      (by omega : next < 2 ^ 32) (by omega) hfirst hprev (n := chain.length)
    have helements := elementsAt (c := c) (i := i) hbucket'.2 (by omega)
      (hplaced 0 chain rfl) (by have := hlength.1; omega)
    obtain ⟨elements, hchain, hchain_nil⟩ := reads_checkChain hfn hf hc [] hbucket'.1 helements
      (hok chain List.mem_cons_self)
    have hordered : Ordered start (next + (encodeBucket enc next chain).length) prev' := by
      rcases Nat.eq_zero_or_pos chain.length with hzero | hpos
      · rw [hempty hzero, List.length_eq_zero_iff.1 hzero, encodeBucket_nil, List.length_nil,
          Nat.add_zero]
        exact hprev
      · obtain ⟨p, rfl, hp⟩ := hnonempty hpos
        change p < _
        omega
    have hplaced' : ∀ j chain', chains[j]? = some chain' →
        ∀ kv ∈ chain', kv.key.toNat % c.numBuckets = i + 1 + j := by
      intro j chain' hj kv hkv
      rw [hplaced (j + 1) chain' hj kv hkv]
      omega
    have haddr : c.offset + 4 + 8 * i + (4 + 4) = c.offset + 4 + 8 * (i + 1) := by omega
    rw [haddr] at hrec
    obtain ⟨rest, hrest, hrest_nil, -⟩ := ih hrec hbytes (by omega) (by omega) hordered
      (fun chain' hchain' => hok chain' (List.mem_cons_of_mem _ hchain')) hplaced'
    have hread : Reads f (checkBuckets fn c (chain :: chains).length i prev)
        ([] ++ checkLT32 (recordContext i) "bucket position < table end+1" next c.tableEnd ++
          elements ++ rest) := by
      rw [List.length_cons, checkBuckets]
      dsimp only
      rw [u32_eq (by have := hlength.1; omega)]
      apply reads_record hlength (beBytes_length 4 _)
      apply readsFrom_readExactly hposition (beBytes_length 4 _)
      rw [field32_beBytes hn, field32_beBytes (by omega)]
      apply Reads.from
      refine horder.bind (hchain.bind (hrest.bind ?_))
      exact reads_pure _
    refine ⟨_, hread, fun hlt => ?_, fun hwrap _ hnil => ?_⟩
    · have hbound : next < c.tableEnd := by
        rw [HashTableChecker.tableEnd, u32_eq hlt]
        omega
      rw [checkLT32, checkLT_eq_nil hbound (Nat.mod_lt _ (by decide)), hchain_nil hlt,
        hrest_nil hlt]
      rfl
    · have hzero : c.tableEnd = 0 := by
        rw [HashTableChecker.tableEnd, hwrap]
        rfl
      rw [hzero, List.nil_append, List.append_assoc, List.append_eq_nil_iff] at hnil
      exact checkLT32_zero hnil.1

/-- The check of a table finds no fault, unless the table ends where the count of 32 bits
does. -/
theorem reads_hashTableCheck {off : ℕ} {t : Table V} (hfn : Passes fn enc ok f)
    (h : TableAt enc f off t) (hok : ∀ e ∈ t.entries, ok e) :
    ∃ cs, Reads f (hashTableCheck fn off (encodeTable enc off t.buckets).length) cs ∧
      (cs = [] ↔ off + (encodeTable enc off t.buckets).length + 1 < 2 ^ 32) := by
  have hf := h.short
  have hlt := h.length_lt
  have hlen := encodeTable_length enc off t.buckets
  have hholds := h.holds
  have hend := hholds.1
  obtain ⟨first, rest, hbuckets⟩ := List.exists_cons_of_ne_nil t.nonempty
  rw [encodeTable, List.append_assoc, File.holds_append, File.holds_append, beBytes_length,
    bucketRecords_length] at hholds
  obtain ⟨hcount, hrecords, hbytes⟩ := hholds
  have hfirst : f.Holds (off + 4)
      (beBytes 4 first.length ++ beBytes 4 (bucketStart off t.buckets)) := by
    have hrecords' := hrecords
    rw [hbuckets, bucketRecords, File.holds_append, ← hbuckets] at hrecords'
    exact hrecords'.1
  obtain ⟨cs, hcs, hnil, hwrap⟩ := reads_checkBuckets (i := 0)
    (c := ⟨off, (encodeTable enc off t.buckets).length, t.buckets.length⟩) hfn hf hend
    (show bucketStart off t.buckets = _ from rfl) hfirst t.buckets hrecords hbytes le_rfl
    (by rw [hlen, bucketStart]; dsimp only; omega) (show Ordered _ _ none from rfl)
    (fun chain hchain kv hkv => hok kv (List.mem_flatten.2 ⟨chain, hchain, hkv⟩))
    (fun j chain hj kv hkv => by rw [t.placed j chain hj kv hkv, Nat.zero_add])
  refine ⟨cs, ?_, ?_⟩
  · rw [hashTableCheck]
    apply reads_record hcount (beBytes_length 4 _)
    rw [field32_beBytes (by omega)]
    dsimp only
    rw [u32_eq (by omega), checkLT32, checkLT_eq_nil (by omega) (by omega)]
    apply Reads.from
    refine hcs.bind ?_
    exact reads_pure _
  · constructor
    · intro hcs_nil
      by_contra hge
      exact hwrap (by dsimp only; omega) t.nonempty hcs_nil
    · exact hnil

end Table

/-! ## The elements -/

/-- A document whose name the checker accepts. -/
def DocNameChecks (kv : HTKeyValue CString) : Prop :=
  kv.value.bytes ≠ [] ∧ strlen kv.value < 1024 ∧ ∀ b ∈ kv.value.bytes, isascii b = true

def PositionsCheck (kv : HTKeyValue (List UInt32)) : Prop :=
  kv.value.length < 1000000 ∧ kv.value.Pairwise (· < ·)

def WordChecks (kv : HTKeyValue WordDocSet) : Prop :=
  kv.value.word.bytes ≠ [] ∧ strlen kv.value.word < 8192 ∧
    (∀ b ∈ kv.value.word.bytes, islower b = true) ∧
    ∀ e ∈ kv.value.docIDs.entries, PositionsCheck e

section Elements

variable {f : File}

theorem fieldDocID_beBytes (key : HTKey) : fieldDocID (beBytes 8 key.toNat) = key := by
  have h := fieldDocID_head key []
  rwa [List.append_nil] at h

theorem docTableCheckElement_passes :
    Passes docTableCheckElement encodeDocName DocNameChecks f := by
  rintro c context i e kv ⟨hne, hlen, hascii⟩ hc ⟨hholds, -, hplaced, -⟩
  rw [encodeDocName, File.holds_append, File.holds_append, List.length_append, beBytes_length,
    beBytes_length] at hholds
  obtain ⟨⟨hkey, hlength⟩, hname⟩ := hholds
  have hletters : (kv.value.bytes.zipIdx.flatMap fun (b, i) =>
      check16 context ("[DocTable] isascii(filename)[" ++ toString i ++ "]") 1
        (if isascii b then 1 else 0)) = [] := by
    rw [List.flatMap_eq_nil_iff]
    rintro ⟨b, j⟩ hb
    dsimp only
    rw [hascii b (List.fst_mem_of_mem_zipIdx hb), if_pos rfl, check16, checkEq_eq_nil rfl]
  refine ⟨[], ?_, fun _ => rfl⟩
  rw [docTableCheckElement]
  dsimp only
  apply reads_record hkey (beBytes_length 8 _)
  rw [fieldDocID_beBytes, hplaced, check32, checkEq_eq_nil rfl]
  apply readsFrom_readExactly hlength (beBytes_length 2 _)
  rw [ofBe_beBytes_of_lt (by omega), checkLT16, checkLT_eq_nil hlen (by decide)]
  apply readsFrom_readItem hname rfl hne
  rw [hletters]
  exact (reads_pure _).from _

theorem reads_checkPositions (context : String) (positions : List UInt32) {prev : Option ℕ}
    {p : ℕ} (h : f.Holds p (positions.flatMap fun position => beBytes 4 position.toNat))
    (hsorted : positions.Pairwise (· < ·))
    (hprev : ∀ q ∈ prev, ∀ x ∈ positions, q < x.toNat) :
    ReadsFrom f p (checkPositions context positions.length prev) [] := by
  induction positions generalizing p prev with
  | nil => exact (reads_pure _).from _
  | cons position positions ih =>
    rw [List.flatMap_cons, File.holds_append, beBytes_length] at h
    rw [List.pairwise_cons] at hsorted
    have hrise : checkRise context prev position.toNat = [] := by
      cases prev with
      | none => rfl
      | some q => exact checkLT_eq_nil (hprev q rfl position List.mem_cons_self) position.toNat_lt
    have hnext : ∀ q ∈ some position.toNat, ∀ x ∈ positions, q < x.toNat := by
      rintro q ⟨⟩ x hx
      exact UInt32.lt_iff_toNat_lt.1 (hsorted.1 x hx)
    have hrest := ih h.2 hsorted.2 hnext
    rw [List.length_cons, checkPositions]
    apply readsFrom_readExactly h.1 (beBytes_length 4 _)
    rw [field32_beBytes position.toNat_lt]
    dsimp only
    rw [hrise]
    refine hrest.bind ?_
    exact reads_pure _

theorem docIDTableCheckElement_passes :
    Passes docIDTableCheckElement encodePositions PositionsCheck f := by
  rintro c context i e kv ⟨hlen, hsorted⟩ hc ⟨hholds, -, hplaced, hi⟩
  rw [encodePositions, File.holds_append, File.holds_append, List.length_append, beBytes_length,
    beBytes_length] at hholds
  obtain ⟨⟨hkey, hlength⟩, hpositions⟩ := hholds
  have hbucket : u32 (kv.key.toNat % c.numBuckets) = i := by rw [hplaced, u32_eq hi]
  refine ⟨[], ?_, fun _ => rfl⟩
  rw [docIDTableCheckElement]
  dsimp only
  apply reads_record hkey (beBytes_length 8 _)
  rw [fieldDocID_beBytes, hbucket, check64, checkEq_eq_nil rfl]
  apply readsFrom_readExactly hlength (beBytes_length 4 _)
  rw [field32_beBytes (by omega), checkLT32, checkLT_eq_nil hlen (by decide)]
  refine (reads_checkPositions context kv.value hpositions hsorted ?_).bind ?_
  · rintro q ⟨⟩
  · exact reads_pure _

theorem checkLetter_lower {b : UInt8} (h : islower b = true) (context : String) (i : ℕ) :
    checkLetter context b i = [] := by
  have hascii : isascii b = true := by
    rw [islower, Bool.and_eq_true, decide_eq_true_eq, decide_eq_true_eq] at h
    rw [isascii, decide_eq_true_eq]
    exact UInt8.lt_of_le_of_lt h.2 (by decide)
  rw [checkLetter, hascii, h, if_pos rfl, check16, checkEq_eq_nil rfl, checkEq_eq_nil rfl,
    List.nil_append, ite_self]

theorem indexTableCheckElement_passes (hf : f.len < 2 ^ 32) :
    Passes indexTableCheckElement encodeWord WordChecks f := by
  rintro c context i e kv ⟨hne, hlen, hlower, hdocs⟩ hc ⟨hholds, hwithin, -, -⟩
  have htable := tableAt_docIDs hf hholds
  have hlt := htable.length_lt
  obtain ⟨cs, hcs, hnil⟩ := reads_hashTableCheck docIDTableCheckElement_passes htable hdocs
  have hdocidlen := hholds.1
  have htotal : (encodeWord e kv).length =
      6 + strlen kv.value.word + (encodeDocIDs e kv.value).length := by
    simp only [encodeWord, List.length_append, beBytes_length, strlen]
  have hdocsLength : (encodeDocIDs e kv.value).length = _ :=
    encodeTable_length encodePositions (e + 6 + strlen kv.value.word) kv.value.docIDs.buckets
  rw [encodeWord, File.holds_append, File.holds_append, File.holds_append, List.length_append,
    beBytes_length, beBytes_length] at hholds
  obtain ⟨⟨⟨hwordlen, hlength⟩, hword⟩, -⟩ := hholds
  have hletters : (kv.value.word.bytes.zipIdx.flatMap fun (b, j) =>
      checkLetter (recordContext i) b j) = [] := by
    rw [List.flatMap_eq_nil_iff]
    rintro ⟨b, j⟩ hb
    exact checkLetter_lower (hlower b (List.fst_mem_of_mem_zipIdx hb)) _ _
  have haddr : e + 2 + 4 + strlen kv.value.word = e + 6 + strlen kv.value.word := by omega
  refine ⟨cs, ?_, fun hend => hnil.2 ?_⟩
  · rw [indexTableCheckElement]
    dsimp only
    apply reads_record hwordlen (beBytes_length 2 _)
    rw [ofBe_beBytes_of_lt (by omega), checkLT16, checkLT_eq_nil hlen (by decide)]
    apply readsFrom_readExactly hlength (beBytes_length 4 _)
    rw [field32_beBytes (by omega), haddr, u32_eq (by omega), u32_eq (by omega), checkLT32,
      checkLT_eq_nil (by omega) (by omega)]
    apply readsFrom_readItem hword rfl hne
    rw [hletters]
    apply Reads.from
    refine hcs.bind ?_
    exact reads_pure _
  · change e + 6 + strlen kv.value.word + (encodeDocIDs e kv.value).length + 1 < _
    omega

end Elements

/-! ## The file -/

section File

variable {f : File}

/-- The loop folds what is left of the file. -/
theorem readsFrom_recalculateLoop (fuel : ℕ) (bs : List UInt8) (crc : UInt32) {p : ℕ}
    (hbs : f.Holds p bs) (hend : p + bs.length = f.len) (hlt : bs.length < 2 ^ 32)
    (hfuel : bs.length < fuel) :
    ReadsFrom f p (recalculateLoop fuel bs.length crc) (bs.foldl foldByteIntoCRC crc) := by
  induction fuel generalizing bs crc p with
  | zero => omega
  | succ fuel ih =>
    rw [recalculateLoop]
    by_cases hnil : bs = []
    · rw [hnil]
      exact (reads_pure _).from _
    · have hpos := List.length_pos_iff.2 hnil
      have htake : (bs.take 512).length = min 512 bs.length := List.length_take
      have hdrop : (bs.drop 512).length = bs.length - 512 := List.length_drop
      have hsplit := hbs
      rw [← List.take_append_drop 512 bs, File.holds_append] at hsplit
      have hleft : sub32 bs.length (bs.take 512).length = (bs.drop 512).length := by
        rw [sub32]
        omega
      have hrest := ih (bs.drop 512) ((bs.take 512).foldl foldByteIntoCRC crc) hsplit.2 (by omega)
        (by omega) (by omega)
      rw [← List.foldl_append, List.take_append_drop] at hrest
      rw [if_pos hpos]
      intro d hd hp
      have hholds : d.file.Holds d.pos bs := by rwa [hd, hp]
      apply completes_fread_rest hholds (by rw [hd, hp, hend])
      apply completes_verify (decide_eq_true (by omega))
      rw [hleft]
      exact hrest _ hd (by rw [← hp])

theorem readsFrom_size {β : Type} {g : ℕ → DiskM β} {b : β} {p : ℕ}
    (h : ReadsFrom f p (g f.len) b) : ReadsFrom f p (size >>= g) b := by
  intro d hd hp
  subst hd
  exact h d rfl hp

/-- The checker accepts the file of an index, unless its length plus one is 2^32. -/
theorem fileIndexChecker_completes {mi : MemIndex} {dt : DocTable} (h : Encodable mi dt)
    (hwords : ∀ e ∈ mi.entries, WordChecks e) (hnames : ∀ e ∈ dt.entries, DocNameChecks e)
    (d : Disk) (hd : d.file = indexFile mi dt) (hlinked : d.linked = true) :
    Completes fileIndexChecker d fun cs _ =>
      cs = [] ↔ (encodeIndex mi dt).length + 1 < 2 ^ 32 := by
  obtain ⟨hdt, hmi⟩ := indexFile_tableAt h
  have hf := hdt.short
  have hlength := encodeIndex_length mi dt
  have hsize := h.size
  have hheader : HEADER_SIZE = 16 := rfl
  have hflen : (indexFile mi dt).len = _ := (indexFile_len mi dt).trans hlength
  obtain ⟨dtcs, hdtcs, hdtnil⟩ := reads_hashTableCheck docTableCheckElement_passes hdt hnames
  obtain ⟨mics, hmics, hminil⟩ := reads_hashTableCheck (indexTableCheckElement_passes hf) hmi hwords
  have hdtcs_nil : dtcs = [] := by
    apply hdtnil.2
    have := encodeTable_length encodeWord (HEADER_SIZE + (encodeDocTable dt).length) mi.buckets
    change HEADER_SIZE + (encodeDocTable dt).length + 1 < _
    change (encodeMemIndex mi dt).length = _ at this
    omega
  have hholds := indexFile_holds mi dt
  rw [encodeIndex, File.holds_append, encodeHeader_length] at hholds
  obtain ⟨hhead, hbody⟩ := hholds
  rw [encodeHeader, File.holds_append, File.holds_append, File.holds_append] at hhead
  simp only [List.length_append, beBytes_length] at hhead
  obtain ⟨⟨⟨hmagic, hchecksum⟩, hdoctable⟩, hindex⟩ := hhead
  have hleft : sub32 (u32 (indexFile mi dt).len) HEADER_SIZE =
      (encodeDocTable dt ++ encodeMemIndex mi dt).length := by
    rw [u32_eq hf, sub32, hflen, List.length_append]
    omega
  have hcrc := readsFrom_recalculateLoop ((indexFile mi dt).len + 1)
    (encodeDocTable dt ++ encodeMemIndex mi dt) crcInitial hbody
    (by rw [hflen, List.length_append]; omega) (by rw [List.length_append]; omega)
    (by rw [hflen, List.length_append]; omega)
  rw [fileIndexChecker]
  refine Completes.bind (P := fun b d' => b = true ∧ d'.file = indexFile mi dt)
    ⟨_, _, rfl, hlinked, hd⟩ ?_
  rintro _ d₁ ⟨rfl, hd₁⟩
  apply completes_verify rfl
  suffices hreads : Reads (indexFile mi dt) _ mics by
    refine (hreads d₁ hd₁).mono ?_
    rintro _ _ ⟨rfl, -⟩
    rw [hminil, hlength]
    change HEADER_SIZE + (encodeDocTable dt).length + (encodeMemIndex mi dt).length + 1 < _ ↔ _
    omega
  apply reads_record hmagic (beBytes_length 4 _)
  rw [field32_beBytes (by decide), check32, checkEq_eq_nil rfl]
  apply readsFrom_readExactly hchecksum (beBytes_length 4 _)
  apply readsFrom_readExactly hdoctable (beBytes_length 4 _)
  apply readsFrom_readExactly hindex (beBytes_length 4 _)
  apply readsFrom_size
  rw [hleft, field32_beBytes (UInt32.toNat_lt _), field32_beBytes (by omega),
    field32_beBytes (by omega), List.length_append, u32_eq (by omega), u32_eq (by omega),
    checkEq_eq_nil rfl]
  rw [List.length_append] at hcrc
  refine hcrc.bind ?_
  rw [crc32, checkEq_eq_nil rfl]
  refine hdtcs.bind ?_
  rw [hdtcs_nil]
  refine hmics.bind ?_
  exact reads_pure _

end File

end Courses.SearchEngine
