import Courses.SearchEngine.FileIndexWriter
import Courses.SearchEngine.HashTableDrain
import Courses.SearchEngine.LinkedListSort

/-!
# The inverted index in memory

`hw2/memindex.c`. The tables of the index and of a parsed file hold pointers to records
that are changed in place, so a `BoxTable` keeps the records beside the table of
pointers. `IndexHolds` reads an index as a finite map from word hashes to the documents
of the word; `MIAddPostingList` adds one document to it.
-/
namespace Courses.SearchEngine

open Courses.Lib Courses.Lib.AllocM

/-- The key of a word: `FNVHash64((unsigned char *) word, strlen(word))`. -/
def wordKey (word : CString) : HTKey := fnvHash64 word.bytes (u32 (strlen word))

/-! ## Tables of records -/

/-- A table of pointers, and the records they point to. -/
structure BoxTable (R : Type) where
  table : HashTable Ptr
  boxes : Ptr → Option R
  /-- The address the next record will get. -/
  fresh : Ptr

namespace BoxTable

variable {R : Type}

/-- Place a new record. -/
def place (s : BoxTable R) (r : R) : BoxTable R :=
  ⟨s.table, Function.update s.boxes s.fresh (some r), s.fresh + 1⟩

/-- Overwrite the record at `p`. -/
def store (s : BoxTable R) (p : Ptr) (r : R) : BoxTable R :=
  { s with boxes := Function.update s.boxes p (some r) }

/-- The table has the pointers `ptrs`, and these the records `m`, no two the same one. -/
structure HoldsAt (s : BoxTable R) (ptrs : FMap HTKey Ptr) (m : FMap HTKey R) : Prop where
  table : Holds s.table ptrs
  boxes : FMapRel (fun p r => s.boxes p = some r) ptrs m
  fresh : ∀ k p, ptrs.lookup k = some p → p < s.fresh
  injective : ∀ k k' p, ptrs.lookup k = some p → ptrs.lookup k' = some p → k = k'

variable {s : BoxTable R} {ptrs : FMap HTKey Ptr} {m : FMap HTKey R} {k : HTKey} {p : Ptr} {r : R}

/-- Writing to the record of a key. -/
theorem HoldsAt.store (h : s.HoldsAt ptrs m) (hp : ptrs.lookup k = some p) (r : R) :
    (s.store p r).HoldsAt ptrs (m.insert k r) := by
  refine ⟨h.table, fun k' => ?_, h.fresh, h.injective⟩
  by_cases hk : k' = k
  · rw [hk, hp, Finmap.lookup_insert]
    exact .some (Function.update_self _ _ _)
  · rw [Finmap.lookup_insert_of_ne _ hk]
    refine optionRel_imp (h.boxes k') fun p' r' hp' hbox => ?_
    have hne : p' ≠ p := fun heq => hk (h.injective k' k p (heq ▸ hp') hp)
    exact (Function.update_of_ne hne _ _).trans hbox

/-- A new record under a new key. -/
theorem HoldsAt.insert (h : s.HoldsAt ptrs m) (k : HTKey) (r : R) {table : HashTable Ptr}
    (ht : Holds table (ptrs.insert k s.fresh)) :
    BoxTable.HoldsAt { s.place r with table := table } (ptrs.insert k s.fresh) (m.insert k r) := by
  refine ⟨ht, fun k' => ?_, fun k' p hp => ?_, fun k₁ k₂ p h₁ h₂ => ?_⟩
  · by_cases hkk : k' = k
    · rw [hkk, Finmap.lookup_insert, Finmap.lookup_insert]
      exact .some (Function.update_self _ _ _)
    · rw [Finmap.lookup_insert_of_ne _ hkk, Finmap.lookup_insert_of_ne _ hkk]
      refine optionRel_imp (h.boxes k') fun p' r' hp' hbox => ?_
      exact (Function.update_of_ne (h.fresh k' p' hp').ne _ _).trans hbox
  · by_cases hkk : k' = k
    · rw [hkk, Finmap.lookup_insert] at hp
      cases hp
      exact Nat.lt_succ_self _
    · rw [Finmap.lookup_insert_of_ne _ hkk] at hp
      exact (h.fresh k' p hp).trans (Nat.lt_succ_self _)
  · -- the new address is above every other
    by_cases hk₁ : k₁ = k
    · by_cases hk₂ : k₂ = k
      · rw [hk₁, hk₂]
      · rw [hk₁, Finmap.lookup_insert] at h₁
        rw [Finmap.lookup_insert_of_ne _ hk₂] at h₂
        cases h₁
        exact absurd (h.fresh k₂ _ h₂) (lt_irrefl _)
    · rw [Finmap.lookup_insert_of_ne _ hk₁] at h₁
      by_cases hk₂ : k₂ = k
      · rw [hk₂, Finmap.lookup_insert] at h₂
        cases h₂
        exact absurd (h.fresh k₁ _ h₁) (lt_irrefl _)
      · rw [Finmap.lookup_insert_of_ne _ hk₂] at h₂
        exact h.injective k₁ k₂ p h₁ h₂

/-- The record a key leads to. -/
theorem HoldsAt.box (h : s.HoldsAt ptrs m) (hk : m.lookup k = some r) :
    ∃ p, ptrs.lookup k = some p ∧ s.boxes p = some r :=
  h.boxes.of_some hk

end BoxTable

/-! ## `memindex.c` -/

/-- What a `WordDocSet *` points to; the payloads of a list of positions are the positions
themselves. -/
structure DocSet where
  word : CString
  docIDs : HashTable (LinkedList UInt32)

abbrev InvertedIndex := BoxTable DocSet

def allocateMemIndex : AllocM (Option InvertedIndex) := do
  match ← allocateHashTable 128 with
  | none => return none
  | some table => return some ⟨table, fun _ => none, 1⟩

/-- The second half of `MIAddPostingList`: a new document for the word at `wds`. -/
def addDocument (s : InvertedIndex) (wds : Ptr) (docid : HTKey) (positions : LinkedList UInt32) :
    AllocM (ℤ × InvertedIndex) := do
  let set ← demand (s.boxes wds)
  let res ← lookupHashTable set.docIDs docid
  verify (res.ret = 0)
  let (res, docIDs) ← insertInto set.docIDs ⟨docid, positions⟩
  verify (res.ret = 1)
  return (1, s.store wds { set with docIDs := docIDs })

/-- `MIAddPostingList`: 1, or 0 when there is no memory for a new word. -/
def miAddPostingList (s : InvertedIndex) (word : CString) (docid : HTKey)
    (positions : LinkedList UInt32) : AllocM (ℤ × InvertedIndex) := do
  let res ← lookupHashTable s.table (wordKey word)
  if res.ret = 0 then
    if ← malloc then
      let docIDs ← verifySome (← allocateHashTable 32)
      let wds := s.fresh
      let (res, table) ← insertInto s.table ⟨wordKey word, wds⟩
      verify (res.ret = 1)
      addDocument { s.place ⟨word, docIDs⟩ with table := table } wds docid positions
    else
      return (0, s)
  else
    let kv ← demand res.keyvalue
    addDocument s kv.value docid positions

/-! ## What an index holds -/

/-- The documents of a word, each with the positions of the word in it. -/
abbrev Documents := FMap HTKey (List UInt32)

/-- An index: under the key of each word, the word and its documents. -/
abbrev IndexMap := FMap HTKey (CString × Documents)

def ListHolds {α : Type} (list : LinkedList α) (xs : List α) : Prop :=
  ∃ nodes, list.Repr nodes ∧ nodes.map Prod.snd = xs

theorem ListHolds.unique {α : Type} {list : LinkedList α} {xs ys : List α}
    (hx : ListHolds list xs) (hy : ListHolds list ys) : xs = ys := by
  obtain ⟨nodes, hnodes, rfl⟩ := hx
  obtain ⟨nodes', hnodes', rfl⟩ := hy
  have hfirst : firstPtr nodes none = firstPtr nodes' none := hnodes.head.symm.trans hnodes'.head
  rw [hnodes.linked.unique hnodes'.linked hfirst]

def DocsHold (docIDs : HashTable (LinkedList UInt32)) (docs : Documents) : Prop :=
  ∃ lists, Holds docIDs lists ∧ FMapRel ListHolds lists docs

def DocSet.Holds (set : DocSet) (entry : CString × Documents) : Prop :=
  set.word = entry.1 ∧ DocsHold set.docIDs entry.2

def IndexHolds (s : InvertedIndex) (index : IndexMap) : Prop :=
  ∃ ptrs sets, s.HoldsAt ptrs sets ∧ FMapRel DocSet.Holds sets index

/-- The documents of a word with one more. -/
def IndexMap.documents (index : IndexMap) (word : CString) : Documents :=
  ((index.lookup (wordKey word)).map Prod.snd).getD ∅

/-- One more document for a word; the first of them brings the word. -/
def IndexMap.add (index : IndexMap) (word : CString) (docid : HTKey) (positions : List UInt32) :
    IndexMap :=
  match index.lookup (wordKey word) with
  | none => index.insert (wordKey word) (word, (∅ : Documents).insert docid positions)
  | some entry => index.insert (wordKey word) (entry.1, entry.2.insert docid positions)

theorem returns_allocateMemIndex :
    Returns allocateMemIndex fun r => ∃ s, r = some s ∧ IndexHolds s ∅ := by
  refine (returns_allocateHashTable (by decide)).bind ?_
  rintro _ ⟨table, rfl, hholds, -⟩
  refine returns_pure ⟨_, rfl, ∅, ∅, ⟨hholds, .empty, ?_, ?_⟩, .empty⟩
  · intro k p hp
    rw [Finmap.lookup_empty] at hp
    cases hp
  · intro k k' p hp
    rw [Finmap.lookup_empty] at hp
    cases hp

theorem insertAnswer_of_none {V : Type} {m : FMap HTKey V} {kv : HTKeyValue V}
    (h : m.lookup kv.key = none) : insertAnswer m kv = ⟨1, none⟩ := by
  rw [insertAnswer, h]

/-- The record of a word gets one more document. -/
theorem returns_addDocument {s : InvertedIndex} {ptrs : FMap HTKey Ptr} {sets : FMap HTKey DocSet}
    {index : IndexMap} {key docid : HTKey} {wds : Ptr} {set : DocSet} {entry : CString × Documents}
    {positions : LinkedList UInt32} {xs : List UInt32} (h : s.HoldsAt ptrs sets)
    (hrel : FMapRel DocSet.Holds sets index) (hwds : ptrs.lookup key = some wds)
    (hset : s.boxes wds = some set) (hentry : set.Holds entry)
    (hnew : entry.2.lookup docid = none) (hfits : entry.2.keys.card + 1 < 2 ^ 32)
    (hxs : ListHolds positions xs) :
    Returns (addDocument s wds docid positions) fun r => r.1 = 1 ∧
      IndexHolds r.2 (index.insert key (entry.1, entry.2.insert docid xs)) := by
  obtain ⟨hword, lists, hlists, hdocs⟩ := hentry
  have hnone := hdocs.of_none hnew
  refine (returns_demand hset).bind_eq ?_
  refine (returns_lookupHashTable hlists docid).bind_eq ?_
  rw [lookupAnswer, hnone]
  refine (returns_verify rfl).bind fun _ _ => ?_
  have hcard : lists.keys.card + 1 < 2 ^ 32 := by
    rw [hdocs.card_keys]
    exact hfits
  refine (returns_insertInto hlists hcard ⟨docid, positions⟩).bind ?_
  rintro ⟨answer, docIDs⟩ ⟨hanswer, hdocIDs⟩
  dsimp only at hanswer hdocIDs ⊢
  rw [hanswer, insertAnswer_of_none hnone]
  refine (returns_verify rfl).bind fun _ _ => returns_pure ⟨rfl, ptrs, _, h.store hwds _, ?_⟩
  exact hrel.insert key ⟨hword, _, hdocIDs, hdocs.insert docid hxs⟩

theorem IndexMap.documents_of_some {index : IndexMap} {word : CString} {entry : CString × Documents}
    (h : index.lookup (wordKey word) = some entry) : index.documents word = entry.2 := by
  rw [documents, h]
  rfl

theorem IndexMap.documents_of_none {index : IndexMap} {word : CString}
    (h : index.lookup (wordKey word) = none) : index.documents word = ∅ := by
  rw [documents, h]
  rfl

/-- `MIAddPostingList` adds a document that the word does not have yet. -/
theorem returns_miAddPostingList {s : InvertedIndex} {index : IndexMap} {word : CString}
    {docid : HTKey} {positions : LinkedList UInt32} {xs : List UInt32} (h : IndexHolds s index)
    (hnew : (index.documents word).lookup docid = none)
    (hwords : index.lookup (wordKey word) = none → index.keys.card + 1 < 2 ^ 32)
    (hdocs : (index.documents word).keys.card + 1 < 2 ^ 32) (hxs : ListHolds positions xs) :
    Returns (miAddPostingList s word docid positions) fun r => r.1 = 1 ∧
      IndexHolds r.2 (index.add word docid xs) := by
  obtain ⟨ptrs, sets, hs, hrel⟩ := h
  refine (returns_lookupHashTable hs.table (wordKey word)).bind_eq ?_
  cases hlookup : index.lookup (wordKey word) with
  | none =>
    have hsets := hrel.of_none hlookup
    have hptrs := hs.boxes.of_none hsets
    rw [lookupAnswer, hptrs, if_pos rfl]
    apply returns_malloc_bind
    rw [if_pos rfl]
    refine (returns_allocateHashTable (by decide)).bind ?_
    rintro _ ⟨docIDs, rfl, hempty, -⟩
    refine (returns_verifySome rfl).bind_eq ?_
    have hcard : ptrs.keys.card + 1 < 2 ^ 32 := by
      rw [hs.boxes.card_keys, hrel.card_keys]
      exact hwords hlookup
    refine (returns_insertInto hs.table hcard ⟨wordKey word, s.fresh⟩).bind ?_
    rintro ⟨answer, table⟩ ⟨hanswer, htable⟩
    dsimp only at hanswer htable ⊢
    rw [hanswer, insertAnswer_of_none hptrs]
    refine (returns_verify rfl).bind fun _ _ => ?_
    have hset : DocSet.Holds ⟨word, docIDs⟩ (word, ∅) := ⟨rfl, ∅, hempty, .empty⟩
    have hplaced := hs.insert (wordKey word) ⟨word, docIDs⟩ htable
    have hempty : (∅ : Documents).lookup docid = none := Finmap.lookup_empty docid
    have hnone : (∅ : Documents).keys.card + 1 < 2 ^ 32 := by
      rw [Finmap.keys_empty]
      decide
    refine (returns_addDocument hplaced (hrel.insert (wordKey word) hset)
      (Finmap.lookup_insert _) (Function.update_self _ _ _) hset hempty hnone hxs).mono ?_
    rintro r hr
    rw [Finmap.insert_insert] at hr
    rw [IndexMap.add, hlookup]
    exact hr
  | some entry =>
    obtain ⟨set, hset, hentry⟩ := hrel.of_some hlookup
    obtain ⟨wds, hwds, hbox⟩ := hs.box hset
    rw [IndexMap.documents_of_some hlookup] at hnew hdocs
    rw [lookupAnswer, hwds, if_neg (by simp)]
    refine (returns_demand rfl).bind_eq ?_
    refine (returns_addDocument hs hrel hwds hbox hentry hnew hdocs hxs).mono ?_
    rintro r hr
    rw [IndexMap.add, hlookup]
    exact hr

end Courses.SearchEngine
