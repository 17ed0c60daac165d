import Courses.SearchEngine.Postings

/-!
# Queries on the index in memory

`MIProcessQuery` of `hw2/memindex.c`. The documents of the first word make up a list of
results, which each further word filters in place through an iterator, adding to the
ranks of the documents that stay. Ranks are 32-bit, the number of turns of the filter is a
signed `int`, and the iterator over an empty list is NULL.
-/
namespace Courses.SearchEngine

open Courses.Lib Courses.Lib.AllocM

structure SearchResult where
  docid : HTKey
  rank : HWSize
  deriving Repr, DecidableEq

/-- `MISearchListComparator`. -/
def miSearchListComparator (sr1 sr2 : SearchResult) : ℤ :=
  if sr1.rank > sr2.rank then 1 else if sr1.rank < sr2.rank then -1 else 0

/-- The `do` loop over the documents of the first word. -/
def collectLoop (docIDs : HashTable (LinkedList UInt32)) :
    ℕ → HTIter → LinkedList SearchResult → AllocM (LinkedList SearchResult)
  | 0, _, _ => halt .fuel
  | fuel + 1, iter, retlist => do
    -- on a table without entries the source goes on with the record it has
    let kv ← demand (← htIteratorGet docIDs iter)
    if ← malloc then
      let (_, retlist) ← pushLinkedList retlist ⟨kv.key, numElementsInLinkedList kv.value⟩
      let (more, iter) ← htIteratorNext docIDs iter
      if more ≠ 0 then collectLoop docIDs fuel iter retlist else return retlist
    else
      halt .fault

/-- The loop over the results so far, for the `ne - j` turns that are left. -/
def filterLoop (docIDs : HashTable (LinkedList UInt32)) :
    ℕ → LinkedList SearchResult → Option LLIter → AllocM (LinkedList SearchResult × Option LLIter)
  | 0, retlist, llit => return (retlist, llit)
  | turns + 1, retlist, llit => do
    let iter ← verifySome llit
    let rs ← llIteratorGetPayload retlist iter
    let res ← lookupHashTable docIDs rs.docid
    if res.ret = 0 then
      let (_, _, retlist, iter) ← llIteratorDelete retlist iter
      filterLoop docIDs turns retlist (some iter)
    else
      let kv ← demand res.keyvalue
      let retlist ← retlist.modify iter.node fun n =>
        { n with payload := ⟨rs.docid, rs.rank + numElementsInLinkedList kv.value⟩ }
      let (_, iter) ← llIteratorNext retlist iter
      filterLoop docIDs turns retlist (some iter)

/-- `int ne = NumElementsInLinkedList(retlist)`: how often `j < ne` holds. -/
def filterTurns (n : HWSize) : ℕ := if n.toNat < 2 ^ 31 then n.toNat else 0

/-- The turn of the outer loop for `word`; `none` when the query ends there. -/
def filterByWord (s : InvertedIndex) (word : CString) (retlist : LinkedList SearchResult) :
    AllocM (Option (LinkedList SearchResult)) := do
  let res ← lookupHashTable s.table (wordKey word)
  if res.ret = 0 then
    return none
  else
    let kv ← demand res.keyvalue
    let wds ← demand (s.boxes kv.value)
    let llit ← llMakeIterator retlist 0
    let (retlist, llit) ←
      filterLoop wds.docIDs (filterTurns (numElementsInLinkedList retlist)) retlist llit
    -- `LLIteratorFree(llit)`
    let _ ← verifySome llit
    return some retlist

/-- The loop over the words after the first. -/
def wordsLoop (s : InvertedIndex) :
    List CString → LinkedList SearchResult → AllocM (Option (LinkedList SearchResult))
  | [], retlist => return some retlist
  | word :: words, retlist => do
    match ← filterByWord s word retlist with
    | none => return none
    | some retlist => wordsLoop s words retlist

/-- The part of `MIProcessQuery` for the first word; `none` when the query ends there. -/
def collectWord (s : InvertedIndex) (word : CString) :
    AllocM (Option (LinkedList SearchResult)) := do
  let retlist ← allocateLinkedList
  let res ← lookupHashTable s.table (wordKey word)
  -- every call on `retlist` asserts that it is not NULL
  let retlist ← verifySome retlist
  if res.ret = 0 then
    return none
  else
    let kv ← demand res.keyvalue
    let wds ← demand (s.boxes kv.value)
    let iter ← verifySome (← hashTableMakeIterator wds.docIDs)
    return some (← collectLoop wds.docIDs (wds.docIDs.numElements.toNat + 1) iter retlist)

/-- `MIProcessQuery`; `none` stands for NULL. -/
def miProcessQuery (s : InvertedIndex) :
    List CString → AllocM (Option (LinkedList SearchResult))
  | [] => return none
  | word :: words => do
    match ← collectWord s word with
    | none => return none
    | some retlist =>
      if words.isEmpty then
        return some (← sortLinkedList retlist false miSearchListComparator)
      else
        match ← wordsLoop s words retlist with
        | none => return none
        | some retlist =>
          if numElementsInLinkedList retlist = 0 then
            return none
          else
            return some (← sortLinkedList retlist false miSearchListComparator)

/-! ## The loops -/

theorem ListHolds.numElements {α : Type} {list : LinkedList α} {xs : List α}
    (h : ListHolds list xs) : numElementsInLinkedList list = UInt32.ofNat xs.length := by
  obtain ⟨nodes, hrepr, rfl⟩ := h
  rw [List.length_map, ← hrepr.numElements, UInt32.ofNat_toNat]
  rfl

/-- The result that an entry of the table of documents stands for. -/
def toResult (e : Ptr × HTKeyValue (LinkedList UInt32)) : SearchResult :=
  ⟨e.2.key, numElementsInLinkedList e.2.value⟩

theorem returns_collectLoop {docIDs : HashTable (LinkedList UInt32)}
    {cs : List (Chain (LinkedList UInt32))} (hcs : Chains docIDs cs)
    (rest : Chain (LinkedList UInt32)) {iter : HTIter} (hit : IterAt cs iter rest)
    (hne : rest ≠ []) {retlist : LinkedList SearchResult} {xs : List SearchResult}
    (hlist : ListHolds retlist xs) (hfits : xs.length + rest.length < 2 ^ 32) {fuel : ℕ}
    (hfuel : rest.length ≤ fuel) :
    Returns (collectLoop docIDs fuel iter retlist) fun r =>
      ListHolds r ((rest.map toResult).reverse ++ xs) := by
  induction rest generalizing iter retlist xs fuel with
  | nil => exact absurd rfl hne
  | cons e rest ih =>
    obtain _ | fuel := fuel
    · simp at hfuel
    obtain ⟨nodes, hrepr, rfl⟩ := hlist
    simp only [List.length_map, List.length_cons] at hfits hfuel
    refine (returns_htIteratorGet hcs hit).bind_eq ((returns_demand rfl).bind_eq ?_)
    apply returns_malloc_bind
    rw [if_pos rfl]
    refine (LinkedList.returns_pushLinkedList hrepr (by omega) _).bind ?_
    rintro ⟨_, retlist'⟩ ⟨-, hrepr'⟩
    refine (returns_htIteratorNext hcs hit).bind ?_
    rintro ⟨more, iter'⟩ ⟨hmore, hit'⟩
    have hlist' : ListHolds retlist' (toResult e :: nodes.map Prod.snd) := ⟨_, hrepr', rfl⟩
    dsimp only at hmore ⊢
    by_cases hend : rest = []
    · rw [if_neg (not_not.mpr (hmore.2 hend))]
      apply returns_pure
      rw [hend]
      exact hlist'
    · rw [if_pos (mt hmore.1 hend)]
      refine (ih hit' hend hlist' ?_ (by omega)).mono ?_
      · simp only [List.length_cons, List.length_map]
        omega
      · intro r hr
        simpa using hr

/-- What a further word makes of a result. -/
def rescore (docs : Documents) (r : SearchResult) : Option SearchResult :=
  (docs.lookup r.docid).map fun xs => ⟨r.docid, r.rank + UInt32.ofNat xs.length⟩

/-- The filter: `kept` has been seen, and the iterator is at the first of `rem`. -/
theorem returns_filterLoop {docIDs : HashTable (LinkedList UInt32)} {docs : Documents}
    (hdocs : DocsHold docIDs docs) (rem kept : List (Ptr × SearchResult))
    {retlist : LinkedList SearchResult} (hrepr : retlist.Repr (kept ++ rem)) {iter : LLIter}
    (hiter : rem ≠ [] → iter.node = firstPtr rem none) :
    Returns (filterLoop docIDs rem.length retlist (some iter)) fun r => r.2.isSome ∧
      ListHolds r.1 (kept.map Prod.snd ++ (rem.map Prod.snd).filterMap (rescore docs)) := by
  induction rem generalizing kept retlist iter with
  | nil =>
    refine returns_pure ⟨rfl, kept ++ [], hrepr, by simp⟩
  | cons x rem ih =>
    obtain ⟨p, rs⟩ := x
    obtain ⟨lists, hlists, hrel⟩ := hdocs
    obtain rfl : iter = ⟨some p⟩ := by
      have := hiter (by simp)
      cases iter
      exact congrArg LLIter.mk this
    rw [List.length_cons, filterLoop]
    refine (returns_verifySome rfl).bind_eq ?_
    refine (LinkedList.returns_llIteratorGetPayload hrepr).bind_eq ?_
    refine (returns_lookupHashTable hlists rs.docid).bind_eq ?_
    cases hlookup : docs.lookup rs.docid with
    | none =>
      rw [lookupAnswer, hrel.of_none hlookup, if_pos rfl]
      refine (LinkedList.returns_llIteratorDelete hrepr).bind ?_
      rintro ⟨_, _, retlist', iter'⟩ ⟨-, -, hrepr', hiter'⟩
      dsimp only at hrepr' hiter' ⊢
      refine (ih kept hrepr' ?_).mono ?_
      · intro hne
        obtain ⟨y, ys, rfl⟩ := List.exists_cons_of_ne_nil hne
        rw [hiter']
        rfl
      · intro r hr
        simpa [rescore, hlookup] using hr
    | some xs =>
      obtain ⟨list, hlist, hxs⟩ := hrel.of_some hlookup
      rw [lookupAnswer, hlist, if_neg (by simp)]
      refine (returns_demand rfl).bind_eq ?_
      refine (LinkedList.returns_setPayload hrepr _).bind fun retlist' hrepr' => ?_
      refine (LinkedList.returns_llIteratorNext hrepr').bind fun r hr => ?_
      have hassoc : retlist'.Repr
          ((kept ++ [(p, ⟨rs.docid, rs.rank + numElementsInLinkedList list⟩)]) ++ rem) := by
        simpa using hrepr'
      refine (ih _ hassoc ?_).mono ?_
      · intro hne
        obtain ⟨y, ys, rfl⟩ := List.exists_cons_of_ne_nil hne
        rw [hr]
        rfl
      · intro r hr
        simpa [rescore, hlookup, hxs.numElements] using hr

/-! ## What a query asks for -/

/-- A filter that keeps what `g` reads keeps the order of these readings. -/
theorem sublist_map_filterMap {α β γ : Type} {f : α → Option β} {g : α → γ} {g' : β → γ}
    (h : ∀ a b, f a = some b → g' b = g a) (l : List α) :
    ((l.filterMap f).map g').Sublist (l.map g) := by
  induction l with
  | nil => exact List.Sublist.refl _
  | cons a l ih =>
    cases hf : f a with
    | none =>
      rw [List.filterMap_cons_none hf]
      exact ih.cons _
    | some b =>
      rw [List.filterMap_cons_some hf, List.map_cons, List.map_cons, h a b hf]
      exact ih.cons_cons _

namespace Posted

variable {W : Type} (posted : Posted W)

/-- The document has all of the words. -/
def Matches (words : List W) (docid : HTKey) : Prop :=
  ∀ word ∈ words, (posted word docid).isSome

instance (words : List W) (docid : HTKey) : Decidable (posted.Matches words docid) :=
  inferInstanceAs (Decidable (∀ word ∈ words, (posted word docid).isSome))

/-- The occurrences of the words in the document, a repeated word counted each time. -/
def rank (words : List W) (docid : HTKey) : ℕ :=
  (words.map fun word => ((posted word docid).map List.length).getD 0).sum

/-- One result for each document that has all of the words, with the rank a 32-bit sum gives. -/
structure Selects (words : List W) (results : List SearchResult) : Prop where
  nodup : (results.map SearchResult.docid).Nodup
  mem_iff : ∀ r, r ∈ results ↔
    posted.Matches words r.docid ∧ r.rank = UInt32.ofNat (posted.rank words r.docid)

variable {posted} {words : List W} {word : W} {results : List SearchResult}

theorem matches_append_singleton {docid : HTKey} :
    posted.Matches (words ++ [word]) docid ↔
      posted.Matches words docid ∧ (posted word docid).isSome := by
  simp [Matches, or_imp, forall_and]

theorem rank_append_singleton {docid : HTKey} :
    posted.rank (words ++ [word]) docid =
      posted.rank words docid + ((posted word docid).map List.length).getD 0 := by
  simp [rank]

theorem Selects.eq_nil_iff (h : posted.Selects words results) :
    results = [] ↔ ∀ docid, ¬ posted.Matches words docid := by
  constructor
  · rintro rfl docid hmatch
    have hmem := (h.mem_iff ⟨docid, UInt32.ofNat (posted.rank words docid)⟩).2 ⟨hmatch, rfl⟩
    cases hmem
  · intro hno
    rw [List.eq_nil_iff_forall_not_mem]
    exact fun r hr => hno _ ((h.mem_iff r).1 hr).1

/-- Filtering by one more word. -/
theorem Selects.filterMap_rescore {docs : Documents} (h : posted.Selects words results)
    (hdocs : ∀ docid, posted word docid = docs.lookup docid) :
    posted.Selects (words ++ [word]) (results.filterMap (rescore docs)) := by
  constructor
  · refine h.nodup.sublist (sublist_map_filterMap ?_ results)
    intro r r' hr
    obtain ⟨xs, -, rfl⟩ := Option.map_eq_some_iff.1 hr
    rfl
  · rintro ⟨docid, rank⟩
    rw [matches_append_singleton, rank_append_singleton, hdocs, List.mem_filterMap]
    constructor
    · rintro ⟨r, hr, hrescore⟩
      obtain ⟨xs, hxs, heq⟩ := Option.map_eq_some_iff.1 hrescore
      cases heq
      obtain ⟨hmatch, hrank⟩ := (h.mem_iff r).1 hr
      rw [hxs, Option.map_some, Option.getD_some, UInt32.ofNat_add, ← hrank]
      exact ⟨⟨hmatch, rfl⟩, rfl⟩
    · rintro ⟨⟨hmatch, hsome⟩, hrank⟩
      obtain ⟨xs, hxs⟩ := Option.isSome_iff_exists.1 hsome
      rw [hxs, Option.map_some, Option.getD_some, UInt32.ofNat_add] at hrank
      dsimp only at hmatch hxs hrank
      refine ⟨⟨docid, UInt32.ofNat (posted.rank words docid)⟩, (h.mem_iff _).2 ⟨hmatch, rfl⟩, ?_⟩
      rw [rescore, hxs, Option.map_some, hrank]

/-- The results for the first word. -/
theorem selects_toResult {cs : List (Chain (LinkedList UInt32))}
    {lists : FMap HTKey (LinkedList UInt32)} {docs : Documents}
    (hm : Represents (pairs cs.flatten) lists) (hrel : FMapRel ListHolds lists docs)
    (hdocs : ∀ docid, posted word docid = docs.lookup docid) :
    posted.Selects [word] (cs.flatten.map toResult).reverse := by
  constructor
  · have hkeys : (cs.flatten.map toResult).map SearchResult.docid = (pairs cs.flatten).map Prod.fst := by
      rw [pairs, List.map_map, List.map_map]
      rfl
    rw [List.map_reverse, List.nodup_reverse, hkeys]
    exact hm.nodup
  · rintro ⟨docid, rank⟩
    have hrank : posted.rank [word] docid = ((docs.lookup docid).map List.length).getD 0 := by
      simp [Posted.rank, hdocs]
    have hmatch : posted.Matches [word] docid ↔ (docs.lookup docid).isSome := by
      simp [Matches, hdocs]
    rw [hrank, hmatch, List.mem_reverse, List.mem_map]
    constructor
    · rintro ⟨e, he, heq⟩
      cases heq
      have hlookup : lists.lookup e.2.key = some e.2.value :=
        (hm.mem_iff _ _).1 (List.mem_map_of_mem he)
      obtain ⟨xs, hxs, hholds⟩ := hrel.of_left hlookup
      rw [hxs]
      exact ⟨rfl, hholds.numElements⟩
    · rintro ⟨hsome, hrank⟩
      obtain ⟨xs, hxs⟩ := Option.isSome_iff_exists.1 hsome
      obtain ⟨list, hlist, hholds⟩ := hrel.of_some hxs
      obtain ⟨e, he, heq⟩ := List.mem_map.1 ((hm.mem_iff _ _).2 hlist)
      obtain ⟨hkey, hvalue⟩ := Prod.mk.inj heq
      rw [hxs, Option.map_some, Option.getD_some] at hrank
      refine ⟨e, he, ?_⟩
      rw [toResult, hkey, hvalue, hholds.numElements, ← hrank]

end Posted

/-! ## Answers to queries -/

variable {s : InvertedIndex} {index : IndexMap}

theorem IndexMap.lookup_eq_none_iff (hfull : index.Full) {word : CString} :
    index.lookup (wordKey word) = none ↔ ¬ index.posted.Indexed word := by
  constructor
  · rintro hnone ⟨docid, hsome⟩
    rw [posted, documents_of_none hnone, Finmap.lookup_empty] at hsome
    cases hsome
  · intro hno
    rw [Option.eq_none_iff_forall_not_mem]
    intro entry hentry
    obtain ⟨docid, hsome⟩ := hfull _ entry hentry
    apply hno
    exact ⟨docid, by rwa [posted, documents_of_some hentry]⟩

/-- A word of the index leads to its record. -/
theorem IndexHolds.indexed (h : IndexHolds s index) (hfull : index.Full) {word : CString}
    (hword : index.posted.Indexed word) :
    ∃ wds set, Returns (lookupHashTable s.table (wordKey word)) (fun r =>
        r = ⟨1, some ⟨wordKey word, wds⟩⟩) ∧
      s.boxes wds = some set ∧ DocsHold set.docIDs (index.documents word) := by
  obtain ⟨ptrs, sets, hs, hrel⟩ := h
  obtain ⟨entry, hentry⟩ := Option.ne_none_iff_exists'.1
    (mt (IndexMap.lookup_eq_none_iff hfull).1 (not_not.2 hword))
  obtain ⟨set, hset, -, hdocs⟩ := hrel.of_some hentry
  obtain ⟨wds, hwds, hbox⟩ := hs.box hset
  refine ⟨wds, set, ?_, hbox, ?_⟩
  · have hlookup := returns_lookupHashTable hs.table (wordKey word)
    rwa [lookupAnswer, hwds] at hlookup
  · rwa [IndexMap.documents_of_some hentry]

theorem IndexHolds.not_indexed (h : IndexHolds s index) (hfull : index.Full) {word : CString}
    (hword : ¬ index.posted.Indexed word) :
    Returns (lookupHashTable s.table (wordKey word)) fun r => r = ⟨0, none⟩ := by
  obtain ⟨ptrs, sets, hs, hrel⟩ := h
  have hnone := hs.boxes.of_none (hrel.of_none ((IndexMap.lookup_eq_none_iff hfull).2 hword))
  have hlookup := returns_lookupHashTable hs.table (wordKey word)
  rwa [lookupAnswer, hnone] at hlookup

variable {retlist : LinkedList SearchResult} {results : List SearchResult} {word : CString}

theorem returns_filterByWord_none (h : IndexHolds s index) (hfull : index.Full)
    (hword : ¬ index.posted.Indexed word) :
    Returns (filterByWord s word retlist) fun r => r = none := by
  refine (h.not_indexed hfull hword).bind_eq ?_
  rw [if_pos rfl]
  exact returns_pure rfl

/-- The iterator over an empty list is NULL, and freeing it fails the assertion. -/
theorem aborts_filterByWord (h : IndexHolds s index) (hfull : index.Full)
    (hword : index.posted.Indexed word) (hlist : ListHolds retlist []) :
    Aborts (filterByWord s word retlist) := by
  obtain ⟨wds, set, hlookup, hbox, -⟩ := h.indexed hfull hword
  obtain ⟨nodes, hrepr, hnil⟩ := hlist
  rw [List.map_eq_nil_iff] at hnil
  have hzero : numElementsInLinkedList retlist = 0 := hrepr.numElementsInLinkedList_eq_zero.2 hnil
  refine hlookup.aborts_bind_eq ?_
  rw [if_neg (by simp)]
  refine (returns_demand rfl).aborts_bind_eq ((returns_demand hbox).aborts_bind_eq ?_)
  have hiter : Returns (llMakeIterator retlist 0) fun r => r = none := by
    refine (returns_verify (by simp)).bind fun _ _ => ?_
    rw [if_pos hzero]
    exact returns_pure rfl
  refine hiter.aborts_bind_eq ?_
  rw [hzero]
  have hloop : Returns (filterLoop set.docIDs (filterTurns 0) retlist none) fun r =>
      r = (retlist, none) := returns_pure rfl
  exact hloop.aborts_bind_eq aborts_verifySome

/-- A turn on a list that an `int` can count. -/
theorem returns_filterByWord (h : IndexHolds s index) (hfull : index.Full)
    (hword : index.posted.Indexed word) (hlist : ListHolds retlist results) (hne : results ≠ [])
    (hsmall : results.length < 2 ^ 31) :
    Returns (filterByWord s word retlist) fun r => ∃ retlist', r = some retlist' ∧
      ListHolds retlist' (results.filterMap (rescore (index.documents word))) := by
  obtain ⟨wds, set, hlookup, hbox, hdocs⟩ := h.indexed hfull hword
  obtain ⟨nodes, hrepr, rfl⟩ := hlist
  rw [List.length_map] at hsmall
  have hnodes : nodes ≠ [] := by
    rintro rfl
    exact hne rfl
  have hturns : filterTurns (numElementsInLinkedList retlist) = nodes.length := by
    rw [filterTurns, numElementsInLinkedList, hrepr.numElements, if_pos hsmall]
  refine hlookup.bind_eq ?_
  rw [if_neg (by simp)]
  refine (returns_demand rfl).bind_eq ((returns_demand hbox).bind_eq ?_)
  refine (LinkedList.returns_llMakeIterator hrepr hnodes).bind_eq ?_
  rw [hturns]
  refine (returns_filterLoop hdocs nodes [] hrepr fun _ => rfl).bind ?_
  rintro ⟨retlist', llit⟩ ⟨hsome, hlist'⟩
  obtain ⟨iter, rfl⟩ := Option.isSome_iff_exists.1 hsome
  exact (returns_verifySome rfl).bind_eq (returns_pure ⟨retlist', rfl, hlist'⟩)

/-- With more results than an `int` counts the turn does nothing. -/
theorem returns_filterByWord_large (h : IndexHolds s index) (hfull : index.Full)
    (hword : index.posted.Indexed word) (hlist : ListHolds retlist results)
    (hlarge : 2 ^ 31 ≤ results.length) :
    Returns (filterByWord s word retlist) fun r => r = some retlist := by
  obtain ⟨wds, set, hlookup, hbox, -⟩ := h.indexed hfull hword
  obtain ⟨nodes, hrepr, rfl⟩ := hlist
  rw [List.length_map] at hlarge
  have hnodes : nodes ≠ [] := by
    rintro rfl
    simp at hlarge
  have hturns : filterTurns (numElementsInLinkedList retlist) = 0 := by
    rw [filterTurns, numElementsInLinkedList, hrepr.numElements, if_neg (by omega)]
  refine hlookup.bind_eq ?_
  rw [if_neg (by simp)]
  refine (returns_demand rfl).bind_eq ((returns_demand hbox).bind_eq ?_)
  refine (LinkedList.returns_llMakeIterator hrepr hnodes).bind_eq ?_
  rw [hturns]
  have hloop : Returns (filterLoop set.docIDs 0 retlist (some ⟨firstPtr nodes none⟩)) fun r =>
      r = (retlist, some ⟨firstPtr nodes none⟩) := returns_pure rfl
  exact hloop.bind_eq ((returns_verifySome rfl).bind_eq (returns_pure rfl))

/-- Whenever the next word is in the index, some document has all the words before it. -/
def Posted.Keeps {W : Type} (posted : Posted W) (done words : List W) : Prop :=
  ∀ pre word post, words = pre ++ word :: post → (∀ v ∈ pre ++ [word], posted.Indexed v) →
    ∃ docid, posted.Matches (done ++ pre) docid

theorem Posted.Keeps.exists_matches {W : Type} {posted : Posted W} {done words : List W} {word : W}
    (h : posted.Keeps done (word :: words)) (hword : posted.Indexed word) :
    ∃ docid, posted.Matches done docid := by
  have hpre := h [] word words rfl (by simpa using hword)
  rwa [List.append_nil] at hpre

theorem Posted.Keeps.tail {W : Type} {posted : Posted W} {done words : List W} {word : W}
    (h : posted.Keeps done (word :: words)) (hword : posted.Indexed word) :
    posted.Keeps (done ++ [word]) words := by
  rintro pre v post rfl hpre
  have hall : ∀ u ∈ (word :: pre) ++ [v], posted.Indexed u := by
    intro u hu
    rcases List.mem_cons.1 hu with rfl | hu
    · exact hword
    · exact hpre u hu
  rw [List.append_assoc]
  exact h (word :: pre) v post rfl hall

theorem Posted.Selects.ne_nil {W : Type} {posted : Posted W} {words : List W} {docid : HTKey}
    (h : posted.Selects words results) (hmatch : posted.Matches words docid) : results ≠ [] :=
  fun hnil => h.eq_nil_iff.1 hnil docid hmatch

theorem returns_wordsLoop (h : IndexHolds s index) (hfull : index.Full) (words : List CString)
    {done : List CString} {retlist : LinkedList SearchResult} {results : List SearchResult}
    (hlist : ListHolds retlist results) (hsel : index.posted.Selects done results)
    (hsmall : results.length < 2 ^ 31) (hkeep : index.posted.Keeps done words) :
    Returns (wordsLoop s words retlist) fun r =>
      ((∀ v ∈ words, index.posted.Indexed v) → ∃ retlist' results', r = some retlist' ∧
        ListHolds retlist' results' ∧ index.posted.Selects (done ++ words) results') ∧
      ((∃ v ∈ words, ¬ index.posted.Indexed v) → r = none) := by
  induction words generalizing done retlist results with
  | nil =>
    refine returns_pure ⟨fun _ => ⟨retlist, results, rfl, hlist, ?_⟩, ?_⟩
    · rwa [List.append_nil]
    · rintro ⟨v, hv, -⟩
      cases hv
  | cons word words ih =>
    by_cases hword : index.posted.Indexed word
    · obtain ⟨docid, hmatch⟩ := hkeep.exists_matches hword
      refine (returns_filterByWord h hfull hword hlist (hsel.ne_nil hmatch) hsmall).bind ?_
      rintro _ ⟨retlist', rfl, hlist'⟩
      have hlen := List.length_filterMap_le (rescore (index.documents word)) results
      refine (ih hlist' (hsel.filterMap_rescore fun _ => rfl) (hlen.trans_lt hsmall)
        (hkeep.tail hword)).mono ?_
      rintro r ⟨hall, hnone⟩
      constructor
      · intro hwords
        obtain ⟨l, rs, rfl, hl, hrs⟩ := hall fun v hv => hwords v (List.mem_cons_of_mem _ hv)
        exact ⟨l, rs, rfl, hl, by rwa [List.append_assoc] at hrs⟩
      · rintro ⟨v, hv, hno⟩
        rcases List.mem_cons.1 hv with rfl | hv
        · exact absurd hword hno
        · exact hnone ⟨v, hv, hno⟩
    · refine (returns_filterByWord_none h hfull hword).bind_eq (returns_pure ⟨?_, fun _ => rfl⟩)
      intro hall
      exact absurd (hall word List.mem_cons_self) hword

/-- The loop runs into a word of the index when no result is left. -/
theorem aborts_wordsLoop (h : IndexHolds s index) (hfull : index.Full) (pre : List CString)
    {word : CString} {post done : List CString} {retlist : LinkedList SearchResult}
    {results : List SearchResult} (hlist : ListHolds retlist results)
    (hsel : index.posted.Selects done results) (hsmall : results.length < 2 ^ 31)
    (hindexed : ∀ v ∈ pre ++ [word], index.posted.Indexed v)
    (hno : ∀ docid, ¬ index.posted.Matches (done ++ pre) docid) :
    Aborts (wordsLoop s (pre ++ word :: post) retlist) := by
  induction pre generalizing done retlist results with
  | nil =>
    rw [List.append_nil] at hno
    rw [hsel.eq_nil_iff.2 hno] at hlist
    exact (aborts_filterByWord h hfull (hindexed word (by simp)) hlist).bind _
  | cons v pre ih =>
    have hv : index.posted.Indexed v := hindexed v (by simp)
    by_cases hnil : results = []
    · rw [hnil] at hlist
      exact (aborts_filterByWord h hfull hv hlist).bind _
    · refine (returns_filterByWord h hfull hv hlist hnil hsmall).aborts_bind ?_
      rintro _ ⟨retlist', rfl, hlist'⟩
      have hlen := List.length_filterMap_le (rescore (index.documents v)) results
      refine ih hlist' (hsel.filterMap_rescore fun _ => rfl) (hlen.trans_lt hsmall) ?_ ?_
      · exact fun u hu => hindexed u (List.mem_cons_of_mem _ hu)
      · rwa [List.append_assoc]

theorem returns_wordsLoop_large (h : IndexHolds s index) (hfull : index.Full)
    (words : List CString) (hlist : ListHolds retlist results) (hlarge : 2 ^ 31 ≤ results.length) :
    Returns (wordsLoop s words retlist) fun r =>
      ((∀ v ∈ words, index.posted.Indexed v) → r = some retlist) ∧
      ((∃ v ∈ words, ¬ index.posted.Indexed v) → r = none) := by
  induction words with
  | nil =>
    refine returns_pure ⟨fun _ => rfl, ?_⟩
    rintro ⟨v, hv, -⟩
    cases hv
  | cons word words ih =>
    by_cases hword : index.posted.Indexed word
    · refine (returns_filterByWord_large h hfull hword hlist hlarge).bind_eq (ih.mono ?_)
      rintro r ⟨hall, hnone⟩
      refine ⟨fun hwords => hall fun v hv => hwords v (List.mem_cons_of_mem _ hv), ?_⟩
      rintro ⟨v, hv, hno⟩
      rcases List.mem_cons.1 hv with rfl | hv
      · exact absurd hword hno
      · exact hnone ⟨v, hv, hno⟩
    · refine (returns_filterByWord_none h hfull hword).bind_eq (returns_pure ⟨?_, fun _ => rfl⟩)
      intro hall
      exact absurd (hall word List.mem_cons_self) hword

end Courses.SearchEngine
