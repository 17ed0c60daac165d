import Courses.SearchEngine.FileParser
import Courses.SearchEngine.Postings

/-!
# Indexing files

`HandleFile` of `hw2/filecrawler.c`, with the document table of `hw2/doctable.c`. A file is
parsed into a table of its words, gets the next document number, and the table is drained
into the index through an iterator that deletes as it goes. Whatever the tables' layouts,
the index ends up with the words of each file under the file's number, and nothing else.
-/
namespace Courses.SearchEngine

open Courses.Lib Courses.Lib.AllocM

/-! ## `doctable.c` -/

/-- What a `DocTable` points to. -/
structure DocTableRecord where
  docidToDocname : HashTable CString
  docnameToDocid : HashTable HTKey
  maxId : HTKey

def allocateDocTable : AllocM DocTableRecord := do
  verify (← malloc)
  let docidToDocname ← allocateHashTable 1024
  let docnameToDocid ← allocateHashTable 1024
  return ⟨← verifySome docidToDocname, ← verifySome docnameToDocid, 0⟩

/-- The number of a document, or 0. -/
def dtLookupDocumentName (table : DocTableRecord) (docname : CString) : AllocM HTKey := do
  let res ← lookupHashTable table.docnameToDocid (wordKey docname)
  if res.ret = 1 then
    let kv ← demand res.keyvalue
    return kv.value
  else
    return 0

def dtRegisterDocumentName (table : DocTableRecord) (docname : CString) :
    AllocM (HTKey × DocTableRecord) := do
  let docid ← malloc
  let doccopy ← malloc
  verify doccopy
  verify docid
  let res ← dtLookupDocumentName table docname
  if res ≠ 0 then
    return (res, table)
  else
    let docid := table.maxId + 1
    let (ret, docidToDocname) ← insertInto table.docidToDocname ⟨docid, docname⟩
    verify (ret.ret = 1)
    let (ret, docnameToDocid) ← insertInto table.docnameToDocid ⟨wordKey docname, docid⟩
    verify (ret.ret = 1)
    return (docid, ⟨docidToDocname, docnameToDocid, docid⟩)

/-! ## `filecrawler.c` -/

/-- A path, and what there is to read. -/
structure SourceFile where
  path : CString
  contents : Option (List UInt8)

structure CrawlState where
  doctable : DocTableRecord
  index : InvertedIndex

/-- The loop of `HandleFile`; every turn takes an entry out of the table. -/
def drainLoop (docID : HTKey) :
    ℕ → WordTable → HTIter → InvertedIndex → AllocM (WordTable × InvertedIndex)
  | 0, _, _, _ => halt .fuel
  | fuel + 1, tab, it, index => do
    if numElementsInHashTable tab.table > 0 then
      let (res, table, it) ← htIteratorDelete tab.table it
      -- the result is not looked at: `kv` may have been left alone
      let kv ← demand res.keyvalue
      let wp ← demand (tab.boxes kv.value)
      let (res, index) ← miAddPostingList index wp.word docID wp.positions
      verify (res = 1)
      let tab := { tab with table := table, boxes := Function.update tab.boxes kv.value none }
      drainLoop docID fuel tab it index
    else
      return (tab, index)

def handleFile (st : CrawlState) (file : SourceFile) : AllocM CrawlState := do
  match ← buildWordHT file.contents with
  | none => return st
  | some tab =>
    let (docID, doctable) ← dtRegisterDocumentName st.doctable file.path
    verify (docID ≠ 0)
    -- `HTIteratorDelete` asserts that the iterator is not NULL
    let it ← verifySome (← hashTableMakeIterator tab.table)
    let (tab, index) ← drainLoop docID (tab.table.numElements.toNat + 1) tab it st.index
    freeWordHT tab
    return ⟨doctable, index⟩

/-- One call of `HandleFile` after another. -/
def handleFiles (st : CrawlState) : List SourceFile → AllocM CrawlState
  | [] => return st
  | file :: files => do
    let st ← handleFile st file
    handleFiles st files

/-- The allocations of `CrawlFileTree`, and the calls it makes on the files it finds. -/
def crawlFiles (files : List SourceFile) : AllocM CrawlState := do
  let doctable ← allocateDocTable
  let index ← verifySome (← allocateMemIndex)
  handleFiles ⟨doctable, index⟩ files

/-! ## The document table -/

/-- The number of the document at place `i`. -/
def docNumber (i : ℕ) : HTKey := UInt64.ofNat (i + 1)

theorem toNat_docNumber {i : ℕ} (hi : i < 2 ^ 32) : (docNumber i).toNat = i + 1 := by
  apply UInt64.toNat_ofNat_of_lt'
  change i + 1 < 2 ^ 64
  omega

theorem docNumber_inj {i j : ℕ} (hi : i < 2 ^ 32) (hj : j < 2 ^ 32)
    (h : docNumber i = docNumber j) : i = j := by
  have hsucc := congrArg UInt64.toNat h
  rw [toNat_docNumber hi, toNat_docNumber hj] at hsucc
  exact Nat.succ.inj hsucc

/-- The documents registered, in the order of their numbers. -/
structure DocTableRecord.Holds (table : DocTableRecord) (names : List CString) : Prop where
  docnames : ∃ m, SearchEngine.Holds table.docidToDocname m ∧
    Represents (names.mapIdx fun i name => (docNumber i, name)) m
  docids : ∃ m, SearchEngine.Holds table.docnameToDocid m ∧
    Represents (names.mapIdx fun i name => (wordKey name, docNumber i)) m
  maxId : table.maxId = UInt64.ofNat names.length

theorem returns_allocateDocTable :
    Returns allocateDocTable fun table => table.Holds [] := by
  apply returns_malloc_bind
  refine (returns_verify rfl).bind fun _ _ => ?_
  refine (returns_allocateHashTable (by decide)).bind ?_
  rintro _ ⟨docnames, rfl, hdocnames, -⟩
  refine (returns_allocateHashTable (by decide)).bind ?_
  rintro _ ⟨docids, rfl, hdocids, -⟩
  refine (returns_verifySome rfl).bind_eq ((returns_verifySome rfl).bind_eq (returns_pure ?_))
  exact ⟨⟨∅, hdocnames, represents_nil⟩, ⟨∅, hdocids, represents_nil⟩, rfl⟩

/-- A new name gets the next number. -/
theorem returns_dtRegisterDocumentName {table : DocTableRecord} {names : List CString}
    {name : CString} (h : table.Holds names) (hlen : names.length + 1 < 2 ^ 32)
    (hnew : wordKey name ∉ names.map wordKey) :
    Returns (dtRegisterDocumentName table name) fun r =>
      r.1 = docNumber names.length ∧ r.2.Holds (names ++ [name]) := by
  obtain ⟨⟨docnames, hdocnames, hrepr⟩, ⟨docids, hdocids, hrepr'⟩, hmax⟩ := h
  have hid : table.maxId + 1 = docNumber names.length := by
    rw [hmax, docNumber, UInt64.ofNat_add]
    rfl
  have hkey : docNumber names.length ∉
      (names.mapIdx fun i name => (docNumber i, name)).map Prod.fst := by
    rw [List.mem_map]
    rintro ⟨e, he, heq⟩
    obtain ⟨i, hi, rfl⟩ := List.mem_mapIdx.1 he
    have := docNumber_inj (by omega) (by omega) heq
    omega
  have hname : wordKey name ∉
      (names.mapIdx fun i name => (wordKey name, docNumber i)).map Prod.fst := by
    rw [List.mem_map]
    rintro ⟨e, he, heq⟩
    obtain ⟨i, hi, rfl⟩ := List.mem_mapIdx.1 he
    exact hnew (List.mem_map.2 ⟨names[i], List.getElem_mem hi, heq⟩)
  apply returns_malloc_bind
  apply returns_malloc_bind
  refine (returns_verify rfl).bind fun _ _ => (returns_verify rfl).bind fun _ _ => ?_
  have hunknown : Returns (dtLookupDocumentName table name) fun r => r = 0 := by
    refine (returns_lookupHashTable hdocids (wordKey name)).bind_eq ?_
    rw [lookupAnswer, hrepr'.lookup_eq_none hname, if_neg (by simp)]
    exact returns_pure rfl
  refine hunknown.bind_eq ?_
  rw [if_neg (by simp), hid]
  have hcard : docnames.keys.card + 1 < 2 ^ 32 := by
    rw [← hrepr.length_eq, List.length_mapIdx]
    exact hlen
  have hcard' : docids.keys.card + 1 < 2 ^ 32 := by
    rw [← hrepr'.length_eq, List.length_mapIdx]
    exact hlen
  refine (returns_insertInto hdocnames hcard ⟨docNumber names.length, name⟩).bind ?_
  rintro ⟨ret, docidToDocname⟩ ⟨hret, hdocnames'⟩
  dsimp only at hret hdocnames' ⊢
  rw [hret, insertAnswer_of_none (hrepr.lookup_eq_none hkey)]
  refine (returns_verify rfl).bind fun _ _ => ?_
  refine (returns_insertInto hdocids hcard' ⟨wordKey name, docNumber names.length⟩).bind ?_
  rintro ⟨ret', docnameToDocid⟩ ⟨hret', hdocids'⟩
  dsimp only at hret' hdocids' ⊢
  rw [hret', insertAnswer_of_none (hrepr'.lookup_eq_none hname)]
  refine (returns_verify rfl).bind fun _ _ => returns_pure ⟨rfl, ⟨_, hdocnames', ?_⟩,
    ⟨_, hdocids', ?_⟩, ?_⟩
  · rw [List.mapIdx_concat]
    exact Represents.insert (by rwa [List.append_nil]) (by rwa [List.append_nil]) _
  · rw [List.mapIdx_concat]
    exact Represents.insert (by rwa [List.append_nil]) (by rwa [List.append_nil]) _
  · rw [List.length_append]
    rfl

/-! ## Draining a table into the index -/

/-- The positions that an index has under a key, for a document. -/
def IndexMap.positions (index : IndexMap) (key docid : HTKey) : Option (List UInt32) :=
  (index.lookup key).bind fun entry => entry.2.lookup docid

section Index

variable {index index₀ : IndexMap} {word : CString} {key docid docid' : HTKey} {xs : List UInt32}
  {words : WordMap} {drained : List HTKey}

theorem IndexMap.positions_wordKey (index : IndexMap) (word : CString) (docid : HTKey) :
    index.positions (wordKey word) docid = (index.documents word).lookup docid := by
  rw [positions]
  cases h : index.lookup (wordKey word) with
  | none =>
    rw [documents_of_none h, Finmap.lookup_empty]
    rfl
  | some entry =>
    rw [documents_of_some h]
    rfl

theorem IndexMap.positions_add : (index.add word docid xs).positions key docid' =
    if key = wordKey word ∧ docid' = docid then some xs else index.positions key docid' := by
  by_cases hkey : key = wordKey word
  · rw [hkey, positions_wordKey, positions_wordKey, documents_add]
    by_cases hdoc : docid' = docid
    · rw [if_pos ⟨rfl, hdoc⟩, hdoc, Finmap.lookup_insert]
    · rw [if_neg (by simp [hdoc]), Finmap.lookup_insert_of_ne _ hdoc]
  · rw [if_neg (by simp [hkey]), positions, positions, lookup_add_of_ne hkey]

/-- The index when the words with the keys `drained` have been moved to it for `docid`. -/
structure Drained (index₀ index : IndexMap) (words : WordMap) (docid : HTKey)
    (drained : List HTKey) : Prop where
  positions : ∀ key docid', index.positions key docid' =
    if docid' = docid ∧ key ∈ drained then (words.lookup key).map Prod.snd
    else index₀.positions key docid'
  word : ∀ key entry, index.lookup key = some entry →
    (∃ docs, index₀.lookup key = some (entry.1, docs)) ∨
      ∃ xs, key ∈ drained ∧ words.lookup key = some (entry.1, xs)

theorem drained_nil (index : IndexMap) (words : WordMap) (docid : HTKey) :
    Drained index index words docid [] :=
  ⟨fun _ _ => by simp, fun _ entry h => .inl ⟨entry.2, h⟩⟩

theorem Drained.concat (h : Drained index₀ index words docid drained)
    (hword : words.lookup (wordKey word) = some (word, xs)) :
    Drained index₀ (index.add word docid xs) words docid (drained ++ [wordKey word]) := by
  constructor
  · intro key docid'
    rw [IndexMap.positions_add, h.positions]
    by_cases hkey : key = wordKey word
    · subst hkey
      by_cases hdoc : docid' = docid
      · simp [hdoc, hword]
      · simp [hdoc]
    · simp [hkey]
  · intro key entry hentry
    by_cases hkey : key = wordKey word
    · subst hkey
      rw [IndexMap.add] at hentry
      split at hentry
      · rw [Finmap.lookup_insert, Option.some.injEq] at hentry
        exact .inr ⟨xs, by simp, by rw [hword, ← hentry]⟩
      · rename_i old hold
        rw [Finmap.lookup_insert, Option.some.injEq] at hentry
        rcases h.word _ old hold with ⟨docs, hdocs⟩ | ⟨ys, hmem, hys⟩
        · exact .inl ⟨docs, by rw [hdocs, ← hentry]⟩
        · exact .inr ⟨ys, List.mem_append_left _ hmem, by rw [hys, ← hentry]⟩
    · rw [IndexMap.lookup_add_of_ne hkey] at hentry
      rcases h.word key entry hentry with hold | ⟨ys, hmem, hys⟩
      · exact .inl hold
      · exact .inr ⟨ys, List.mem_append_left _ hmem, hys⟩

/-- The number `docid` is new to the index, and 32 bits count the documents and the words. -/
structure Room (index₀ : IndexMap) (words : WordMap) (docid : HTKey) (n : ℕ) (keys : Finset HTKey) :
    Prop where
  lt : n + 1 < 2 ^ 32
  docid : docid = docNumber n
  numbers : ∀ key docid', (index₀.positions key docid').isSome → docid'.toNat ∈ Finset.Icc 1 n
  card : keys.card < 2 ^ 32
  old : index₀.keys ⊆ keys
  words : words.keys ⊆ keys

variable {n : ℕ} {keys : Finset HTKey}

theorem Room.positions_eq_none (hroom : Room index₀ words docid n keys)
    (h : Drained index₀ index words docid drained) (hkey : key ∉ drained) :
    index.positions key docid = none := by
  rw [h.positions, if_neg (by simp [hkey]), ← Option.not_isSome_iff_eq_none]
  intro hsome
  have hmem := hroom.numbers key docid hsome
  rw [hroom.docid, toNat_docNumber (by have := hroom.lt; omega), Finset.mem_Icc] at hmem
  omega

theorem Room.keys_card_lt (hroom : Room index₀ words docid n keys)
    (h : Drained index₀ index words docid drained) (hkey : key ∈ words)
    (hnone : index.lookup key = none) : index.keys.card + 1 < 2 ^ 32 := by
  have hsub : insert key index.keys ⊆ keys := by
    intro k hk
    rcases Finset.mem_insert.1 hk with rfl | hk
    · exact hroom.words (Finmap.mem_keys.2 hkey)
    · obtain ⟨entry, hentry⟩ := Finmap.mem_iff.1 (Finmap.mem_keys.1 hk)
      rcases h.word k entry hentry with ⟨docs, hdocs⟩ | ⟨ys, -, hys⟩
      · exact hroom.old (Finmap.mem_keys.2 (Finmap.mem_of_lookup_eq_some hdocs))
      · exact hroom.words (Finmap.mem_keys.2 (Finmap.mem_of_lookup_eq_some hys))
  have hnot : key ∉ index.keys := by rwa [Finmap.mem_keys, ← Finmap.lookup_eq_none]
  have hle := Finset.card_le_card hsub
  rw [Finset.card_insert_of_notMem hnot] at hle
  exact hle.trans_lt hroom.card

theorem Room.documents_card_lt (hroom : Room index₀ words docid n keys)
    (h : Drained index₀ index words docid drained) (hkey : wordKey word ∉ drained) :
    (index.documents word).keys.card + 1 < 2 ^ 32 := by
  have hmaps : Set.MapsTo UInt64.toNat (index.documents word).keys (Finset.Icc 1 n) := by
    intro d hd
    obtain ⟨xs, hxs⟩ := Finmap.mem_iff.1 (Finmap.mem_keys.1 hd)
    rw [← IndexMap.positions_wordKey, h.positions, if_neg (by simp [hkey])] at hxs
    exact hroom.numbers (wordKey word) d (by rw [hxs]; rfl)
  have hinj : Set.InjOn UInt64.toNat ((index.documents word).keys : Set HTKey) :=
    fun _ _ _ _ heq => UInt64.toNat_inj.1 heq
  have hcard := Finset.card_le_card_of_injOn UInt64.toNat hmaps hinj
  rw [Nat.card_Icc, Nat.add_sub_cancel] at hcard
  have := hroom.lt
  omega

end Index

/-- What the loop still has to move: each entry leads to a record of its own. -/
structure ToDrain (tab : WordTable) (words : WordMap) (drained : List HTKey) (rest : Chain Ptr) :
    Prop where
  records : ∀ e ∈ rest, ∃ word list xs, tab.boxes e.2.value = some ⟨word, list⟩ ∧
    e.2.key = wordKey word ∧ ListHolds list xs ∧ words.lookup e.2.key = some (word, xs)
  pointers : (rest.map fun e => e.2.value).Nodup
  fresh : ∀ e ∈ rest, e.2.key ∉ drained

/-- One entry moved, and its record freed. -/
theorem ToDrain.tail {tab : WordTable} {words : WordMap} {drained : List HTKey}
    {e : Ptr × HTKeyValue Ptr} {rest : Chain Ptr} (h : ToDrain tab words drained (e :: rest))
    (hkeys : ((e :: rest).map fun e => e.2.key).Nodup) (table : HashTable Ptr) :
    ToDrain { tab with table := table, boxes := Function.update tab.boxes e.2.value none }
      words (drained ++ [e.2.key]) rest := by
  have hpointers := h.pointers
  rw [List.map_cons, List.nodup_cons] at hkeys hpointers
  refine ⟨fun e' he' => ?_, hpointers.2, fun e' he' hmem => ?_⟩
  · obtain ⟨word, list, xs, hbox, hrest⟩ := h.records e' (List.mem_cons_of_mem _ he')
    have hne : e'.2.value ≠ e.2.value := fun heq => hpointers.1 (List.mem_map.2 ⟨e', he', heq⟩)
    exact ⟨word, list, xs, (Function.update_of_ne hne _ _).trans hbox, hrest⟩
  · rcases List.mem_append.1 hmem with hold | heq
    · exact h.fresh e' (List.mem_cons_of_mem _ he') hold
    · exact hkeys.1 (List.mem_map.2 ⟨e', he', List.mem_singleton.1 heq⟩)

theorem returns_drainLoop {docid : HTKey} {index₀ : IndexMap} {words : WordMap} {n : ℕ}
    {keys : Finset HTKey} (hroom : Room index₀ words docid n keys) (rest : Chain Ptr)
    {tab : WordTable} {it : HTIter} {s : InvertedIndex} {index : IndexMap} {drained : List HTKey}
    {cs : List (Chain Ptr)} {ptrs : FMap HTKey Ptr} {fuel : ℕ} (hfuel : rest.length < fuel)
    (hcs : Chains tab.table cs) (hptrs : Represents (pairs cs.flatten) ptrs)
    (hit : IterAt cs it rest) (hall : cs.flatten = rest)
    (htodo : ToDrain tab words drained rest) (hs : IndexHolds s index)
    (hdrained : Drained index₀ index words docid drained) :
    Returns (drainLoop docid fuel tab it s) fun r => (∃ cs', Chains r.1.table cs') ∧
      ∃ index', IndexHolds r.2 index' ∧
        Drained index₀ index' words docid (drained ++ rest.map fun e => e.2.key) := by
  induction rest generalizing tab it s index drained cs ptrs fuel with
  | nil =>
    obtain _ | fuel := fuel
    · exact absurd hfuel (Nat.not_lt_zero _)
    have hempty : ¬ numElementsInHashTable tab.table > 0 := by
      rw [gt_iff_lt, UInt32.lt_iff_toNat_lt, numElementsInHashTable, hcs.count, hall]
      exact lt_irrefl _
    rw [drainLoop, if_neg hempty]
    refine returns_pure ⟨⟨cs, hcs⟩, index, hs, ?_⟩
    rwa [List.map_nil, List.append_nil]
  | cons e rest ih =>
    obtain _ | fuel := fuel
    · exact absurd hfuel (Nat.not_lt_zero _)
    have hmore : numElementsInHashTable tab.table > 0 := by
      rw [gt_iff_lt, UInt32.lt_iff_toNat_lt, numElementsInHashTable, hcs.count, hall]
      exact Nat.succ_pos _
    obtain ⟨word, list, xs, hbox, hkey, hlist, hwords⟩ := htodo.records e List.mem_cons_self
    have hnew : e.2.key ∉ drained := htodo.fresh e List.mem_cons_self
    rw [hkey] at hwords hnew
    rw [drainLoop, if_pos hmore]
    refine (returns_htIteratorDelete hcs hptrs hit hall).bind ?_
    rintro ⟨res, table, it'⟩ ⟨hres, cs', hcs', hall', hit'⟩
    dsimp only at hres hcs' hit' ⊢
    refine (returns_demand hres).bind_eq ((returns_demand hbox).bind_eq ?_)
    have hnone : (index.documents word).lookup docid = none := by
      rw [← IndexMap.positions_wordKey]
      exact hroom.positions_eq_none hdrained hnew
    refine (returns_miAddPostingList hs hnone
      (hroom.keys_card_lt hdrained (Finmap.mem_of_lookup_eq_some hwords))
      (hroom.documents_card_lt hdrained hnew) hlist).bind ?_
    rintro ⟨_, s'⟩ ⟨rfl, hs'⟩
    refine (returns_verify rfl).bind fun _ _ => ?_
    have hptrs' : Represents (pairs cs'.flatten) (ptrs.erase e.2.key) := by
      rw [hall', pairs]
      rw [hall, pairs, List.map_cons] at hptrs
      exact @Represents.erase _ _ _ [] _ _ _ _ hptrs
    have hkeys := nodup_keys_of_represents hptrs
    rw [hall] at hkeys
    have hdrained' := hdrained.concat hwords
    rw [← hkey] at hdrained'
    refine (ih (Nat.lt_of_succ_lt_succ hfuel) hcs' hptrs' hit' hall' (htodo.tail hkeys table) hs'
      hdrained').mono ?_
    rintro r ⟨hfree, index', hindex', hdone⟩
    refine ⟨hfree, index', hindex', ?_⟩
    rwa [List.append_assoc] at hdone

/-- The table of a file, as the loop finds it. -/
theorem WordsHold.toDrain {tab : WordTable} {tokens : List (CString × UInt32)}
    {ptrs : FMap HTKey Ptr} {recs : FMap HTKey WordPositions} {cs : List (Chain Ptr)}
    (htab : tab.HoldsAt ptrs recs) (hrel : FMapRel WordPositions.Holds recs (wordMap tokens))
    (hptrs : Represents (pairs cs.flatten) ptrs) : ToDrain tab (wordMap tokens) [] cs.flatten := by
  have hlookup {e : Ptr × HTKeyValue Ptr} (he : e ∈ cs.flatten) :
      ptrs.lookup e.2.key = some e.2.value := (hptrs.mem_iff _ _).1 (List.mem_map_of_mem he)
  refine ⟨fun e he => ?_, ?_, fun e _ => List.not_mem_nil⟩
  · obtain ⟨wp, hwp, hbox⟩ := htab.boxes.of_left (hlookup he)
    obtain ⟨entry, hentry, hword, hlist⟩ := hrel.of_left hwp
    refine ⟨wp.word, wp.positions, entry.2, hbox, ?_, hlist, ?_⟩
    · have hfind := hentry
      rw [WordMap.lookup_wordMap, Option.map_eq_some_iff] at hfind
      obtain ⟨t, ht, rfl⟩ := hfind
      have hkey : wordKey t.1 = e.2.key := by simpa using List.find?_some ht
      rw [hword, hkey]
    · rw [hentry, hword]
  · have hkeys := nodup_keys_of_represents hptrs
    rw [List.Nodup, List.pairwise_map] at hkeys ⊢
    refine hkeys.imp_of_mem fun {e e'} he he' hne heq => hne ?_
    exact htab.injective _ _ _ (hlookup he) (heq ▸ hlookup he')

/-! ## A whole run -/

/-- The words of a file, as `BuildWordHT` records them. -/
def SourceFile.words (file : SourceFile) : WordMap := wordMap (fileWords file.contents)

/-- The document with a given number. -/
def document (docs : List SourceFile) (docid : HTKey) : Option SourceFile :=
  if docid = 0 then none else docs[docid.toNat - 1]?

/-- The index has the words of each document under its number, and no others. -/
structure Crawled (index : IndexMap) (docs : List SourceFile) : Prop where
  positions : ∀ key docid, index.positions key docid =
    (document docs docid).bind fun file => (file.words.lookup key).map Prod.snd
  word : ∀ key entry, index.lookup key = some entry →
    ∃ file ∈ docs, ∃ xs, file.words.lookup key = some (entry.1, xs)

structure CrawlState.Holds (st : CrawlState) (docs : List SourceFile) : Prop where
  doctable : st.doctable.Holds (docs.map SourceFile.path)
  index : ∃ index, IndexHolds st.index index ∧ Crawled index docs

theorem document_concat {docs : List SourceFile} (file : SourceFile) (hlen : docs.length < 2 ^ 32)
    (docid : HTKey) : document (docs ++ [file]) docid =
      if docid = docNumber docs.length then some file else document docs docid := by
  have hnum := toNat_docNumber hlen
  rw [document, document]
  by_cases hzero : docid = 0
  · have hne : (0 : HTKey) ≠ docNumber docs.length := by
      intro heq
      rw [← heq] at hnum
      cases hnum
    rw [hzero, if_pos rfl, if_pos rfl, if_neg hne]
  · rw [if_neg hzero, if_neg hzero]
    have hpos : docid.toNat ≠ 0 := fun h => hzero (UInt64.toNat_inj.1 h)
    by_cases hlast : docid = docNumber docs.length
    · rw [if_pos hlast, hlast, hnum]
      simp
    · rw [if_neg hlast]
      have hother : docid.toNat ≠ docs.length + 1 := by
        rw [← hnum]
        exact fun heq => hlast (UInt64.toNat_inj.1 heq)
      rw [List.getElem?_append]
      split
      · rfl
      · rw [List.getElem?_eq_none (by simp; omega), List.getElem?_eq_none (by omega)]

theorem document_isSome {docs : List SourceFile} {docid : HTKey}
    (h : (document docs docid).isSome) : docid.toNat ∈ Finset.Icc 1 docs.length := by
  rw [document] at h
  split at h
  · cases h
  · rename_i hzero
    have hpos : docid.toNat ≠ 0 := fun h => hzero (UInt64.toNat_inj.1 h)
    obtain ⟨file, hfile⟩ := Option.isSome_iff_exists.1 h
    obtain ⟨hlt, -⟩ := List.getElem?_eq_some_iff.1 hfile
    rw [Finset.mem_Icc]
    omega

/-- The keys of the words of the files. -/
def wordKeys (files : List SourceFile) : Finset HTKey :=
  (files.flatMap fun file => (fileWords file.contents).map fun t => wordKey t.1).toFinset

theorem mem_wordKeys {files : List SourceFile} {key : HTKey} :
    key ∈ wordKeys files ↔ ∃ file ∈ files, key ∈ file.words := by
  rw [wordKeys, List.mem_toFinset, List.mem_flatMap]
  refine exists_congr fun file => and_congr_right fun _ => ?_
  rw [← Finmap.mem_keys, SourceFile.words, WordMap.keys_wordMap, List.mem_toFinset]

/-- The room for one more file. -/
theorem Crawled.room {index : IndexMap} {docs files : List SourceFile} {file : SourceFile}
    (h : Crawled index docs) (hlen : docs.length + 1 < 2 ^ 32)
    (hcard : (wordKeys files).card < 2 ^ 32) (hdocs : docs ⊆ files) (hfile : file ∈ files) :
    Room index file.words (docNumber docs.length) docs.length (wordKeys files) := by
  refine ⟨hlen, rfl, fun key docid hsome => ?_, hcard, fun key hkey => ?_, fun key hkey => ?_⟩
  · rw [h.positions] at hsome
    obtain ⟨xs, hxs⟩ := Option.isSome_iff_exists.1 hsome
    obtain ⟨f, hf, -⟩ := Option.bind_eq_some_iff.1 hxs
    exact document_isSome (by rw [hf]; rfl)
  · obtain ⟨entry, hentry⟩ := Finmap.mem_iff.1 (Finmap.mem_keys.1 hkey)
    obtain ⟨f, hf, xs, hxs⟩ := h.word key entry hentry
    exact mem_wordKeys.2 ⟨f, hdocs hf, Finmap.mem_of_lookup_eq_some hxs⟩
  · exact mem_wordKeys.2 ⟨file, hfile, Finmap.mem_keys.1 hkey⟩

/-- A file drained into the index. -/
theorem Crawled.concat {index index' : IndexMap} {docs : List SourceFile} {file : SourceFile}
    {drained : List HTKey} (h : Crawled index docs) (hlen : docs.length < 2 ^ 32)
    (hdrained : Drained index index' file.words (docNumber docs.length) drained)
    (hkeys : ∀ key, key ∈ drained ↔ key ∈ file.words) : Crawled index' (docs ++ [file]) := by
  constructor
  · intro key docid
    rw [hdrained.positions, document_concat file hlen]
    by_cases hdoc : docid = docNumber docs.length
    · rw [if_pos hdoc]
      by_cases hkey : key ∈ drained
      · rw [if_pos ⟨hdoc, hkey⟩]
        rfl
      · -- neither the old documents nor the new one have the key
        have hnone : file.words.lookup key = none := by
          rw [Finmap.lookup_eq_none]
          exact mt (hkeys key).2 hkey
        have hold : document docs docid = none := by
          rw [← Option.not_isSome_iff_eq_none]
          intro hsome
          have hmem := document_isSome hsome
          rw [hdoc, toNat_docNumber hlen, Finset.mem_Icc] at hmem
          omega
        rw [if_neg (by simp [hkey]), h.positions, hold]
        simp [hnone]
    · rw [if_neg (by simp [hdoc]), if_neg hdoc]
      exact h.positions key docid
  · intro key entry hentry
    rcases hdrained.word key entry hentry with ⟨docs', hold⟩ | ⟨xs, -, hxs⟩
    · obtain ⟨f, hf, xs, hxs⟩ := h.word key _ hold
      exact ⟨f, List.mem_append_left _ hf, xs, hxs⟩
    · exact ⟨file, by simp, xs, hxs⟩

/-- The files that get a number: those with a word in them. -/
def indexed (files : List SourceFile) : List SourceFile :=
  files.filter fun file => fileWords file.contents ≠ []

theorem returns_handleFile {st : CrawlState} {docs files : List SourceFile} {file : SourceFile}
    (h : st.Holds docs) (hlen : (docs ++ indexed [file]).length < 2 ^ 32)
    (hcard : (wordKeys files).card < 2 ^ 32) (hdocs : docs ⊆ files) (hfile : file ∈ files)
    (hpath : wordKey file.path ∉ (docs.map SourceFile.path).map wordKey) :
    Returns (handleFile st file) fun st' => st'.Holds (docs ++ indexed [file]) := by
  refine (returns_buildWordHT file.contents).bind ?_
  intro tab htab
  cases tab with
  | none =>
    have hnil : fileWords file.contents = [] := htab
    have hnone : indexed [file] = [] := by simp [indexed, hnil]
    rw [hnone, List.append_nil]
    exact returns_pure h
  | some tab =>
    obtain ⟨hne, ptrs, recs, hholds, hrel⟩ := htab
    have hone : indexed [file] = [file] := by simp [indexed, hne]
    rw [hone, List.length_append, List.length_singleton] at hlen
    rw [hone]
    obtain ⟨hdoctable, index, hindex, hcrawled⟩ := h
    have hlen' : (docs.map SourceFile.path).length + 1 < 2 ^ 32 := by rwa [List.length_map]
    refine (returns_dtRegisterDocumentName hdoctable hlen' hpath).bind ?_
    rintro ⟨docID, doctable⟩ ⟨hdocID, hdoctable'⟩
    dsimp only at hdocID hdoctable' ⊢
    rw [List.length_map] at hdocID
    have hnonzero : docID ≠ 0 := by
      intro hzero
      have hnum := toNat_docNumber (i := docs.length) (by omega)
      rw [← hdocID, hzero] at hnum
      cases hnum
    refine (returns_verify (decide_eq_true hnonzero)).bind fun _ _ => ?_
    obtain ⟨cs, hcs, hptrs⟩ := hholds.table
    refine (returns_hashTableMakeIterator hcs).bind ?_
    rintro _ ⟨it, rfl, hit⟩
    refine (returns_verifySome rfl).bind_eq ?_
    have hroom := hcrawled.room hlen hcard hdocs hfile
    rw [← hdocID] at hroom
    have hfuel : cs.flatten.length < tab.table.numElements.toNat + 1 := by
      rw [hcs.count]
      exact Nat.lt_succ_self _
    refine (returns_drainLoop hroom cs.flatten hfuel hcs hptrs hit rfl
      (WordsHold.toDrain hholds hrel hptrs) hindex (drained_nil _ _ _)).bind ?_
    rintro ⟨tab', s'⟩ ⟨⟨cs', hcs'⟩, index', hindex', hdrained⟩
    refine (returns_freeHashTable hcs').bind fun _ _ => returns_pure ⟨?_, index', hindex', ?_⟩
    · rwa [List.map_append]
    · rw [hdocID] at hdrained
      refine hcrawled.concat (by omega) hdrained fun key => ?_
      rw [List.nil_append, List.mem_map, ← mem_keys_pairs, hptrs.mem_keys, ← Finmap.mem_keys,
        hholds.boxes.keys_eq, hrel.keys_eq, Finmap.mem_keys]
      rfl

/-- The next of the files is taken in. -/
theorem returns_handleFile_next {files done todo : List SourceFile} {file : SourceFile}
    {st : CrawlState} (hcard : (wordKeys files).card < 2 ^ 32)
    (hpaths : (files.map fun file => wordKey file.path).Nodup)
    (hlen : (indexed files).length < 2 ^ 32) (hfiles : files = done ++ file :: todo)
    (h : st.Holds (indexed done)) :
    Returns (handleFile st file) fun st' => st'.Holds (indexed (done ++ [file])) := by
  have hconcat : indexed (done ++ [file]) = indexed done ++ indexed [file] := List.filter_append ..
  have hlen' : (indexed done ++ indexed [file]).length < 2 ^ 32 := by
    rw [← hconcat]
    rw [hfiles, List.append_cons, indexed, List.filter_append, List.length_append] at hlen
    exact (Nat.le_add_right _ _).trans_lt hlen
  have hdocs : indexed done ⊆ files := by
    intro f hf
    rw [hfiles]
    exact List.mem_append_left _ (List.mem_of_mem_filter hf)
  have hpath : wordKey file.path ∉ ((indexed done).map SourceFile.path).map wordKey := by
    rw [List.map_map, List.mem_map]
    rintro ⟨f, hf, heq⟩
    rw [hfiles, List.map_append, List.map_cons, List.nodup_append] at hpaths
    exact hpaths.2.2 _ (List.mem_map_of_mem (List.mem_of_mem_filter hf)) _ List.mem_cons_self heq
  rw [hconcat]
  exact returns_handleFile h hlen' hcard hdocs (by rw [hfiles]; simp) hpath

theorem returns_handleFiles {files : List SourceFile} (hcard : (wordKeys files).card < 2 ^ 32)
    (hpaths : (files.map fun file => wordKey file.path).Nodup)
    (hlen : (indexed files).length < 2 ^ 32) {todo done : List SourceFile} {st : CrawlState}
    (hfiles : files = done ++ todo) (h : st.Holds (indexed done)) :
    Returns (handleFiles st todo) fun st' => st'.Holds (indexed files) := by
  induction todo generalizing done st with
  | nil =>
    rw [List.append_nil] at hfiles
    rw [hfiles]
    exact returns_pure h
  | cons file todo ih =>
    refine (returns_handleFile_next hcard hpaths hlen hfiles h).bind fun st' hst' => ?_
    exact ih (by rw [hfiles, List.append_cons]) hst'

/-- A crawl starts with nothing registered and nothing indexed. -/
theorem holds_start {doctable : DocTableRecord} {index : InvertedIndex} (h : doctable.Holds [])
    (hindex : IndexHolds index ∅) : CrawlState.Holds ⟨doctable, index⟩ (indexed []) := by
  refine ⟨h, ∅, hindex, fun key docid => ?_, fun key entry hentry => ?_⟩
  · rw [IndexMap.positions, Finmap.lookup_empty, document]
    simp [indexed]
  · rw [Finmap.lookup_empty] at hentry
    cases hentry

/-! ## Words instead of keys -/

/-- Where a word occurs in a file. -/
def SourceFile.occurrences (file : SourceFile) (word : CString) : List UInt32 :=
  ((fileWords file.contents).filter fun t => t.1 = word).map Prod.snd

/-- The words that occur in some file. -/
def allWords (files : List SourceFile) : List CString :=
  files.flatMap fun file => (fileWords file.contents).map Prod.fst

/-- A table has the positions of each word that has any. -/
def Produces (tab : Option WordTable) (positions : CString → List UInt32) : Prop :=
  match tab with
  | none => ∀ word, positions word = []
  | some tab => ∃ m : WordMap, WordsHold tab m ∧ ∀ word xs,
      m.lookup (wordKey word) = some (word, xs) ↔ xs = positions word ∧ xs ≠ []

/-- A word, the number of a file and the positions of the word in that file. -/
def Recorded (files : List SourceFile) (word : CString) (docid : HTKey) (xs : List UInt32) : Prop :=
  ∃ file, document (indexed files) docid = some file ∧ xs = file.occurrences word ∧ xs ≠ []

section Words

variable {files : List SourceFile} {file : SourceFile} {word : CString} {key : HTKey}
  {xs : List UInt32}

theorem mem_allWords_of_lookup (hfile : file ∈ files)
    (h : file.words.lookup key = some (word, xs)) : word ∈ allWords files ∧ wordKey word = key := by
  rw [SourceFile.words, WordMap.lookup_wordMap, Option.map_eq_some_iff] at h
  obtain ⟨t, ht, heq⟩ := h
  obtain ⟨rfl, -⟩ := Prod.mk.inj heq
  refine ⟨List.mem_flatMap.2 ⟨file, hfile, List.mem_map_of_mem (List.mem_of_find?_eq_some ht)⟩, ?_⟩
  simpa using List.find?_some ht

/-- Where hashes do not collide, the key of a word stands for the word. -/
theorem filter_key (hinj : Set.InjOn wordKey {w | w ∈ allWords files}) (hfile : file ∈ files)
    (hword : word ∈ allWords files) :
    ((fileWords file.contents).filter fun t => wordKey t.1 = wordKey word) =
      (fileWords file.contents).filter fun t => t.1 = word := by
  apply List.filter_congr
  intro t ht
  have hmem : t.1 ∈ allWords files := List.mem_flatMap.2 ⟨file, hfile, List.mem_map_of_mem ht⟩
  have hiff : wordKey t.1 = wordKey word ↔ t.1 = word := hinj.eq_iff hmem hword
  simp [hiff]

theorem lookup_words_iff (hinj : Set.InjOn wordKey {w | w ∈ allWords files})
    (hfile : file ∈ files) :
    file.words.lookup (wordKey word) = some (word, xs) ↔ xs = file.occurrences word ∧ xs ≠ [] := by
  constructor
  · intro h
    have hword := (mem_allWords_of_lookup hfile h).1
    rw [SourceFile.words, WordMap.lookup_wordMap, Option.map_eq_some_iff] at h
    obtain ⟨t, ht, heq⟩ := h
    obtain ⟨rfl, rfl⟩ := Prod.mk.inj heq
    rw [filter_key hinj hfile hword, SourceFile.occurrences]
    refine ⟨rfl, List.ne_nil_of_mem (List.mem_map_of_mem (a := t) ?_)⟩
    exact List.mem_filter.2 ⟨List.mem_of_find?_eq_some ht, by simp⟩
  · rintro ⟨rfl, hne⟩
    have hne' := hne
    rw [SourceFile.occurrences, Ne, List.map_eq_nil_iff, List.filter_eq_nil_iff] at hne'
    push Not at hne'
    obtain ⟨t, ht, hfst⟩ := hne'
    have htword : t.1 = word := by simpa using hfst
    have hword : word ∈ allWords files :=
      List.mem_flatMap.2 ⟨file, hfile, List.mem_map.2 ⟨t, ht, htword⟩⟩
    cases hlookup : file.words.lookup (wordKey word) with
    | none =>
      rw [SourceFile.words, WordMap.lookup_wordMap, Option.map_eq_none_iff, List.find?_eq_none]
        at hlookup
      exact absurd (by simp [htword]) (hlookup t ht)
    | some entry =>
      obtain ⟨word', ys⟩ := entry
      obtain ⟨hmem, hkey⟩ := mem_allWords_of_lookup hfile hlookup
      obtain rfl : word' = word := hinj hmem hword hkey
      rw [SourceFile.words, WordMap.lookup_wordMap, Option.map_eq_some_iff] at hlookup
      obtain ⟨t', -, heq⟩ := hlookup
      rw [← (Prod.mk.inj heq).2, SourceFile.occurrences, ← filter_key hinj hfile hmem]

theorem TableHolds.produces (hinj : Set.InjOn wordKey {w | w ∈ allWords files})
    (hfile : file ∈ files) {tab : Option WordTable} (h : TableHolds tab (fileWords file.contents)) :
    Produces tab file.occurrences := by
  cases tab with
  | none =>
    intro word
    have hnil : fileWords file.contents = [] := h
    rw [SourceFile.occurrences, hnil]
    rfl
  | some tab => exact ⟨_, h.2, fun word xs => lookup_words_iff hinj hfile⟩

theorem mem_of_document {docid : HTKey} (h : document (indexed files) docid = some file) :
    file ∈ files := by
  rw [document] at h
  split at h
  · cases h
  · exact List.mem_of_mem_filter (List.mem_of_getElem? h)

/-- The positions under a word's key are those of the word. -/
theorem Crawled.positions_iff {index : IndexMap}
    (hinj : Set.InjOn wordKey {w | w ∈ allWords files}) (h : Crawled index (indexed files))
    (hword : word ∈ allWords files) {docid : HTKey} :
    index.positions (wordKey word) docid = some xs ↔ Recorded files word docid xs := by
  rw [h.positions, Option.bind_eq_some_iff]
  refine exists_congr fun file => and_congr_right fun hdoc => ?_
  have hfile := mem_of_document hdoc
  rw [← lookup_words_iff hinj hfile, Option.map_eq_some_iff]
  constructor
  · rintro ⟨entry, hentry, rfl⟩
    obtain ⟨hmem, hkey⟩ := mem_allWords_of_lookup hfile hentry
    obtain rfl : entry.1 = word := hinj hmem hword hkey
    exact hentry
  · intro hlookup
    exact ⟨_, hlookup, rfl⟩

end Words

/-- Every sequence of `HandleFile` calls on files with distinct paths puts the words of each
file into the index, with the positions that `BuildWordHT` found, and nothing else. -/
theorem handleFiles_exact (files : List SourceFile) (hpaths : (files.map SourceFile.path).Nodup)
    (hinjPaths : Set.InjOn wordKey {path | path ∈ files.map SourceFile.path})
    (hinjWords : Set.InjOn wordKey {word | word ∈ allWords files})
    (hfiles : (indexed files).length < 2 ^ 32) (hwords : (allWords files).toFinset.card < 2 ^ 32) :
    (∀ file ∈ files, Returns (buildWordHT file.contents) fun tab =>
      Produces tab file.occurrences) ∧
    Returns (crawlFiles files) fun st => st.doctable.Holds ((indexed files).map SourceFile.path) ∧
      ∃ index, IndexHolds st.index index ∧
        (∀ key word docs, index.lookup key = some (word, docs) → key = wordKey word ∧
          ∀ docid xs, docs.lookup docid = some xs ↔ Recorded files word docid xs) ∧
        ∀ word docid xs, Recorded files word docid xs →
          ∃ docs, index.lookup (wordKey word) = some (word, docs) ∧ docs.lookup docid = some xs := by
  constructor
  · intro file hfile
    exact (returns_buildWordHT file.contents).mono fun tab htab => htab.produces hinjWords hfile
  have hcard : (wordKeys files).card < 2 ^ 32 := by
    have hmap : (files.flatMap fun file => (fileWords file.contents).map fun t => wordKey t.1) =
        (allWords files).map wordKey := by
      rw [allWords, List.map_flatMap]
      simp only [List.map_map]
      rfl
    have himage : ((allWords files).map wordKey).toFinset = (allWords files).toFinset.image wordKey := by
      ext key
      simp
    rw [wordKeys, hmap, himage]
    exact Finset.card_image_le.trans_lt hwords
  have hkeys : (files.map fun file => wordKey file.path).Nodup := by
    have := hpaths.map_on fun p hp q hq heq => hinjPaths hp hq heq
    rwa [List.map_map] at this
  refine returns_allocateDocTable.bind fun doctable hdoctable => ?_
  refine returns_allocateMemIndex.bind ?_
  rintro _ ⟨s, rfl, hs⟩
  refine (returns_verifySome rfl).bind_eq ?_
  have hstart := holds_start hdoctable hs
  refine (returns_handleFiles hcard hkeys hfiles (List.nil_append _).symm hstart).mono ?_
  rintro st ⟨htable, index, hindex, hcrawled⟩
  have hword {key : HTKey} {word : CString} {docs : Documents}
      (hlookup : index.lookup key = some (word, docs)) :
      word ∈ allWords files ∧ wordKey word = key := by
    obtain ⟨file, hfile, xs, hxs⟩ := hcrawled.word key _ hlookup
    exact mem_allWords_of_lookup (List.mem_of_mem_filter hfile) hxs
  refine ⟨htable, index, hindex, ?_, ?_⟩
  · intro key word docs hlookup
    obtain ⟨hmem, rfl⟩ := hword hlookup
    refine ⟨rfl, fun docid xs => ?_⟩
    rw [← hcrawled.positions_iff hinjWords hmem, IndexMap.positions, hlookup]
    rfl
  · intro word docid xs hrecorded
    have hmem : word ∈ allWords files := by
      obtain ⟨file, hdoc, hxs⟩ := hrecorded
      have hfile := mem_of_document hdoc
      exact (mem_allWords_of_lookup hfile ((lookup_words_iff hinjWords hfile).2 hxs)).1
    have hpos := (hcrawled.positions_iff hinjWords hmem).2 hrecorded
    obtain ⟨⟨word', docs⟩, hlookup, hdocs⟩ := Option.bind_eq_some_iff.1 hpos
    obtain ⟨hmem', hkey⟩ := hword hlookup
    obtain rfl : word' = word := hinjWords hmem' hmem hkey
    exact ⟨docs, hlookup, hdocs⟩

/-- Two files with a word in common; the last word of the second is at its very end. -/
def sampleFiles : List SourceFile :=
  [⟨⟨[47, 120], by decide⟩, some [97, 32, 66, 46, 97, 10]⟩,
   ⟨⟨[47, 121], by decide⟩, some [66, 32, 97]⟩]

theorem handleFiles_exact_sample :
    Returns (crawlFiles sampleFiles) fun st => ∃ index, IndexHolds st.index index ∧
      ∃ docs, index.lookup (wordKey ⟨[97], by decide⟩) = some (⟨[97], by decide⟩, docs) ∧
        docs.lookup 1 = some [0, 4] := by
  have hpaths : ∀ u ∈ sampleFiles.map SourceFile.path, ∀ v ∈ sampleFiles.map SourceFile.path,
      wordKey u = wordKey v → u = v := by
    decide +kernel
  have hwords : ∀ u ∈ allWords sampleFiles, ∀ v ∈ allWords sampleFiles,
      wordKey u = wordKey v → u = v := by
    decide +kernel
  have hrun := (handleFiles_exact sampleFiles (by decide) (fun u hu v hv => hpaths u hu v hv)
    (fun u hu v hv => hwords u hu v hv) (by decide) (by decide)).2
  refine hrun.mono ?_
  rintro st ⟨-, index, hindex, -, hexact⟩
  exact ⟨index, hindex, hexact _ 1 _ ⟨_, rfl, by decide, by decide⟩⟩

end Courses.SearchEngine
