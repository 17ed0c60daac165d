import Courses.SearchEngine.InvertedIndex

/-!
# Indexes built from postings

A posting is one call of `MIAddPostingList`: the positions of a word in a document. The
calls build an index that has each posting under its word and document, and nothing else.
-/
namespace Courses.SearchEngine

open Courses.Lib Courses.Lib.AllocM

/-- For each word and document, the positions of the word, if it is there. -/
abbrev Posted (W : Type) := W → HTKey → Option (List UInt32)

def Posted.Indexed {W : Type} (posted : Posted W) (word : W) : Prop :=
  ∃ docid, (posted word docid).isSome

/-- Which words an index has, and where. -/
def IndexMap.posted (index : IndexMap) : Posted CString :=
  fun word docid => (index.documents word).lookup docid

/-- No word without a document. -/
def IndexMap.Full (index : IndexMap) : Prop :=
  ∀ key entry, index.lookup key = some entry → ∃ docid, (entry.2.lookup docid).isSome

/-- The arguments of a call; `memindex.h` asks for at least one position. -/
structure Posting where
  word : CString
  docid : HTKey
  list : LinkedList UInt32
  positions : List UInt32
  holds : ListHolds list positions
  nonempty : positions ≠ []

/-- What is posted for a word and a document. -/
def Posting.posted (postings : List Posting) : Posted CString := fun word docid =>
  (postings.find? fun p => p.word = word ∧ p.docid = docid).map Posting.positions

def addPostings (s : InvertedIndex) : List Posting → AllocM InvertedIndex
  | [] => return s
  | p :: postings => do
    let (_, s) ← miAddPostingList s p.word p.docid p.list
    addPostings s postings

/-- The index after the calls for `postings`. -/
def buildIndex (postings : List Posting) : AllocM InvertedIndex := do
  let s ← demand (← allocateMemIndex)
  addPostings s postings

/-! ## One more posting -/

namespace IndexMap

variable {index : IndexMap} {word word' : CString} {docid docid' : HTKey} {xs : List UInt32}

theorem documents_congr (h : wordKey word = wordKey word') :
    index.documents word = index.documents word' := by
  rw [documents, documents, h]

theorem lookup_add_of_ne {key : HTKey} (h : key ≠ wordKey word) :
    (index.add word docid xs).lookup key = index.lookup key := by
  rw [add]
  split <;> exact Finmap.lookup_insert_of_ne _ h

theorem documents_add : (index.add word docid xs).documents word =
    (index.documents word).insert docid xs := by
  rw [add]
  split
  · rename_i hnone
    rw [documents, documents, hnone, Finmap.lookup_insert]
    rfl
  · rename_i entry hsome
    rw [documents, documents, hsome, Finmap.lookup_insert]
    rfl

theorem documents_add_of_ne (h : wordKey word' ≠ wordKey word) :
    (index.add word docid xs).documents word' = index.documents word' := by
  rw [documents, documents, lookup_add_of_ne h]

theorem keys_add : (index.add word docid xs).keys = insert (wordKey word) index.keys := by
  rw [add]
  split <;> exact keys_insert _ _ _

/-- The word of an entry is the new one, or was there. -/
theorem word_add {key : HTKey} {entry : CString × Documents}
    (h : (index.add word docid xs).lookup key = some entry) :
    entry.1 = word ∨ ∃ entry', index.lookup key = some entry' ∧ entry.1 = entry'.1 := by
  by_cases hkey : key = wordKey word
  · subst hkey
    rw [add] at h
    split at h
    · rw [Finmap.lookup_insert] at h
      cases h
      exact .inl rfl
    · rename_i entry' hentry'
      rw [Finmap.lookup_insert] at h
      cases h
      exact .inr ⟨entry', hentry', rfl⟩
  · rw [lookup_add_of_ne hkey] at h
    exact .inr ⟨entry, h, rfl⟩

theorem Full.add (h : index.Full) : (index.add word docid xs).Full := by
  intro key entry hentry
  by_cases hkey : key = wordKey word
  · refine ⟨docid, ?_⟩
    have hdocs := documents_of_some (hkey ▸ hentry)
    rw [← hdocs, documents_add, Finmap.lookup_insert]
    rfl
  · rw [lookup_add_of_ne hkey] at hentry
    exact h key entry hentry

end IndexMap

/-- The index has the postings, as far as the keys of their words tell. -/
structure Indexes (index : IndexMap) (postings : List Posting) : Prop where
  posted : ∀ word docid, index.posted word docid =
    (postings.find? fun p => wordKey p.word = wordKey word ∧ p.docid = docid).map Posting.positions
  keys : index.keys = (postings.map fun p => wordKey p.word).toFinset
  card : ∀ word, (index.documents word).keys.card =
    (postings.filter fun p => wordKey p.word = wordKey word).length
  full : index.Full
  words : ∀ key entry, index.lookup key = some entry → entry.1 ∈ postings.map Posting.word

theorem indexes_nil : Indexes ∅ [] := by
  have hdocs (word : CString) : IndexMap.documents ∅ word = ∅ :=
    IndexMap.documents_of_none (Finmap.lookup_empty _)
  refine ⟨fun word docid => ?_, Finmap.keys_empty, fun word => ?_, fun key entry hentry => ?_,
    fun key entry hentry => ?_⟩
  · rw [IndexMap.posted, hdocs, Finmap.lookup_empty]
    rfl
  · rw [hdocs, Finmap.keys_empty]
    rfl
  · rw [Finmap.lookup_empty] at hentry
    cases hentry
  · rw [Finmap.lookup_empty] at hentry
    cases hentry

theorem Indexes.concat {index : IndexMap} {postings : List Posting} {p : Posting}
    (h : Indexes index postings) (hnew : index.posted p.word p.docid = none) :
    Indexes (index.add p.word p.docid p.positions) (postings ++ [p]) := by
  constructor
  · intro word docid
    rw [List.find?_append, Option.map_or, ← h.posted, List.find?_singleton]
    by_cases hkey : wordKey p.word = wordKey word
    · rw [IndexMap.posted, ← IndexMap.documents_congr hkey, IndexMap.documents_add]
      have hposted : index.posted word docid = (index.documents p.word).lookup docid := by
        rw [IndexMap.posted, IndexMap.documents_congr hkey]
      by_cases hdoc : p.docid = docid
      · rw [if_pos (by simp [hkey, hdoc]), hposted, ← hdoc, Finmap.lookup_insert]
        rw [show (index.documents p.word).lookup p.docid = none from hnew]
        rfl
      · rw [if_neg (by simp [hdoc]), Finmap.lookup_insert_of_ne _ (Ne.symm hdoc), hposted]
        simp
    · rw [if_neg (by simp [hkey]), IndexMap.posted, IndexMap.documents_add_of_ne (Ne.symm hkey)]
      simp [IndexMap.posted]
  · rw [IndexMap.keys_add, h.keys]
    ext key
    simp
  · intro word
    rw [List.filter_append, List.length_append, ← h.card, List.filter_singleton]
    by_cases hkey : wordKey p.word = wordKey word
    · rw [← IndexMap.documents_congr hkey, IndexMap.documents_add, ← IndexMap.documents_congr hkey,
        card_keys_insert hnew]
      simp [hkey]
    · rw [IndexMap.documents_add_of_ne (Ne.symm hkey)]
      simp [hkey]
  · exact h.full.add
  · intro key entry hentry
    rw [List.map_append, List.mem_append]
    rcases IndexMap.word_add hentry with hword | ⟨entry', hentry', hword⟩
    · exact .inr (by simp [hword])
    · exact .inl (hword ▸ h.words key entry' hentry')

/-! ## Every posting -/

/-- The calls return, and their counts fit: no word is posted for a document twice, and
32 bits count the words and the documents of each word. -/
structure Buildable (postings : List Posting) : Prop where
  distinct : (postings.map fun p => (p.word, p.docid)).Nodup
  words : (postings.map Posting.word).toFinset.card < 2 ^ 32
  documents : ∀ word, (postings.filter fun p => p.word = word).length < 2 ^ 32

section Calls

variable {done todo : List Posting} {p : Posting} {s : InvertedIndex} {index : IndexMap}

theorem Indexes.posted_eq_none (hindex : Indexes index done)
    (hbuild : Buildable (done ++ p :: todo))
    (hinj : Set.InjOn wordKey {word | word ∈ (done ++ p :: todo).map Posting.word}) :
    index.posted p.word p.docid = none := by
  rw [hindex.posted, Option.map_eq_none_iff, List.find?_eq_none]
  intro q hq hsame
  have hkey : wordKey q.word = wordKey p.word ∧ q.docid = p.docid := by simpa using hsame
  have hword : q.word = p.word := hinj (by simp; exact .inl ⟨q, hq, rfl⟩) (by simp) hkey.1
  have hnodup := hbuild.distinct
  rw [List.map_append, List.map_cons, List.nodup_append] at hnodup
  refine hnodup.2.2 (q.word, q.docid) (List.mem_map_of_mem hq) (p.word, p.docid) ?_ ?_
  · exact List.mem_cons_self
  · rw [hword, hkey.2]

theorem Indexes.keys_card_lt (hindex : Indexes index done)
    (hbuild : Buildable (done ++ p :: todo)) (hnone : index.lookup (wordKey p.word) = none) :
    index.keys.card + 1 < 2 ^ 32 := by
  have hsub : insert (wordKey p.word) index.keys ⊆
      (((done ++ p :: todo).map Posting.word).toFinset.image wordKey) := by
    rw [hindex.keys]
    intro key
    simp only [Finset.mem_insert, List.mem_toFinset, List.mem_map, Finset.mem_image,
      List.mem_append, List.mem_cons]
    rintro (rfl | ⟨q, hq, rfl⟩)
    · exact ⟨_, ⟨p, .inr (.inl rfl), rfl⟩, rfl⟩
    · exact ⟨_, ⟨q, .inl hq, rfl⟩, rfl⟩
  have hnot : wordKey p.word ∉ index.keys := by rwa [Finmap.mem_keys, ← Finmap.lookup_eq_none]
  calc index.keys.card + 1
      = (insert (wordKey p.word) index.keys).card := (Finset.card_insert_of_notMem hnot).symm
    _ ≤ _ := Finset.card_le_card hsub
    _ ≤ _ := Finset.card_image_le
    _ < 2 ^ 32 := hbuild.words

theorem filter_wordKey {postings : List Posting} {word : CString}
    (hinj : Set.InjOn wordKey {v | v = word ∨ v ∈ postings.map Posting.word}) :
    (postings.filter fun q => wordKey q.word = wordKey word) =
      postings.filter fun q => q.word = word := by
  apply List.filter_congr
  intro q hq
  have hiff : wordKey q.word = wordKey word ↔ q.word = word :=
    hinj.eq_iff (.inr (List.mem_map_of_mem hq)) (.inl rfl)
  simp [hiff]

theorem Indexes.documents_card_lt (hindex : Indexes index done)
    (hbuild : Buildable (done ++ p :: todo))
    (hinj : Set.InjOn wordKey {word | word ∈ (done ++ p :: todo).map Posting.word}) :
    (index.documents p.word).keys.card + 1 < 2 ^ 32 := by
  have hsame : Set.InjOn wordKey {v | v = p.word ∨ v ∈ (done ++ p :: todo).map Posting.word} := by
    refine hinj.mono ?_
    rintro v (rfl | hv)
    · simp
    · exact hv
  have hall := hbuild.documents p.word
  rw [← filter_wordKey hsame, List.filter_append, List.filter_cons_of_pos (by simp)] at hall
  rw [hindex.card]
  simp only [List.length_append, List.length_cons] at hall
  omega

end Calls

theorem returns_addPostings {todo done : List Posting} {s : InvertedIndex} {index : IndexMap}
    (hbuild : Buildable (done ++ todo))
    (hinj : Set.InjOn wordKey {word | word ∈ (done ++ todo).map Posting.word})
    (hs : IndexHolds s index) (hindex : Indexes index done) :
    Returns (addPostings s todo) fun r => ∃ index', IndexHolds r index' ∧
      Indexes index' (done ++ todo) := by
  induction todo generalizing done s index with
  | nil => exact returns_pure ⟨index, hs, by rwa [List.append_nil]⟩
  | cons p todo ih =>
    have hassoc : done ++ p :: todo = (done ++ [p]) ++ todo := by simp
    have hnew := hindex.posted_eq_none hbuild hinj
    have hdocs := hindex.documents_card_lt hbuild hinj
    refine (returns_miAddPostingList hs hnew (hindex.keys_card_lt hbuild) hdocs p.holds).bind ?_
    rintro ⟨_, s'⟩ ⟨-, hs'⟩
    rw [hassoc] at hbuild hinj ⊢
    exact ih hbuild hinj hs' (hindex.concat hnew)

/-- The calls build an index of exactly their postings. -/
theorem returns_buildIndex {postings : List Posting} (hbuild : Buildable postings)
    (hinj : Set.InjOn wordKey {word | word ∈ postings.map Posting.word}) :
    Returns (buildIndex postings) fun s => ∃ index, IndexHolds s index ∧ Indexes index postings := by
  refine returns_allocateMemIndex.bind ?_
  rintro _ ⟨s, rfl, hs⟩
  refine (returns_demand rfl).bind_eq ?_
  have hrun : Returns (addPostings s postings) fun r => ∃ index, IndexHolds r index ∧
      Indexes index ([] ++ postings) := returns_addPostings hbuild hinj hs indexes_nil
  exact hrun

end Courses.SearchEngine
