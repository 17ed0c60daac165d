import Courses.SearchEngine.QueryProcessor

/-!
# The two query processors

An index is in memory first and in a file later. `InMemory` ties the two: the file was
written from the chains of the tables in memory, as the iterators of the writer meet them.
`MIProcessQuery` on the one and `ProcessQuery` on the other then find the same documents
with the same ranks, as long as the one in memory returns at all.
-/
namespace Courses.SearchEngine

open Courses.Lib Courses.Lib.AllocM

/-! ## The index in memory, as the writer meets it -/

/-- The payloads from a node on. -/
def LinkedList.payloadsFrom {α : Type} (list : LinkedList α) : ℕ → Option Ptr → List α
  | 0, _ => []
  | _ + 1, none => []
  | fuel + 1, some p =>
    match list.nodes p with
    | none => []
    | some n => n.payload :: payloadsFrom list fuel n.next

def LinkedList.payloads {α : Type} (list : LinkedList α) : List α :=
  list.payloadsFrom list.numElements.toNat list.head

/-- The chains of a table, each value as `f` reads it. -/
def HashTable.chainsBy {V W : Type} (f : V → W) (table : HashTable V) :
    List (List (HTKeyValue W)) :=
  table.buckets.map fun chain => chain.payloads.map fun kv => ⟨kv.key, f kv.value⟩

/-- A word, and the chains of its documents. -/
structure WordChains where
  word : CString
  docIDs : List (List (HTKeyValue (List UInt32)))
  deriving DecidableEq

def DocSet.chains (set : DocSet) : WordChains :=
  ⟨set.word, set.docIDs.chainsBy LinkedList.payloads⟩

/-- The chains of the words; `none` stands for a dangling pointer. -/
def InvertedIndex.chains (s : InvertedIndex) : List (List (HTKeyValue (Option WordChains))) :=
  s.table.chainsBy fun wds => (s.boxes wds).map DocSet.chains

def WordDocSet.chains (wds : WordDocSet) : WordChains := ⟨wds.word, wds.docIDs.buckets⟩

def MemIndex.chains (mi : MemIndex) : List (List (HTKeyValue (Option WordChains))) :=
  mi.buckets.map fun chain => chain.map fun e => ⟨e.key, some e.value.chains⟩

/-- The memory an index was written from: the calls that built it, and what they left. -/
structure InMemory (src : IndexSource) where
  postings : List Posting
  buildable : Buildable postings
  index : InvertedIndex
  built : ∃ n n', buildIndex postings (fun _ => true) n = .ok (index, n')
  written : InvertedIndex.chains index = src.mi.chains

/-! ## Reading chains -/

section Read

variable {α : Type}

theorem payloadsFrom_linked {list : LinkedList α} (nodes : List (Ptr × α)) {b : Option Ptr}
    (h : Linked list.nodes b nodes none) :
    list.payloadsFrom nodes.length (firstPtr nodes none) = nodes.map Prod.snd := by
  induction nodes generalizing b with
  | nil => rfl
  | cons x nodes ih =>
    obtain ⟨hx, hrest⟩ := h
    rw [firstPtr_cons, List.length_cons, LinkedList.payloadsFrom, hx, List.map_cons]
    dsimp only
    rw [ih hrest]

theorem LinkedList.Repr.payloads_eq {list : LinkedList α} {nodes : List (Ptr × α)}
    (h : list.Repr nodes) : list.payloads = nodes.map Prod.snd := by
  rw [LinkedList.payloads, h.numElements, h.head, payloadsFrom_linked nodes h.linked]

theorem ListHolds.payloads_eq {list : LinkedList α} {xs : List α} (h : ListHolds list xs) :
    list.payloads = xs := by
  obtain ⟨nodes, hrepr, rfl⟩ := h
  exact hrepr.payloads_eq

variable {V W : Type} {table : HashTable V} {m : FMap HTKey V}

theorem Chains.chainsBy_eq {cs : List (Chain V)} (h : Chains table cs) (f : V → W) :
    table.chainsBy f = cs.map fun c => c.map fun e => ⟨e.2.key, f e.2.value⟩ := by
  have hbuckets := h.buckets
  rw [HashTable.chainsBy]
  generalize table.buckets = buckets at hbuckets
  clear h
  induction hbuckets with
  | nil => rfl
  | cons hrepr _ ih =>
    rw [List.map_cons, List.map_cons, ih, hrepr.payloads_eq, List.map_map]
    rfl

/-- The entries of the chains are those of the map. -/
theorem Holds.mem_chainsBy (h : Holds table m) (f : V → W) {key : HTKey} {w : W} :
    ⟨key, w⟩ ∈ (table.chainsBy f).flatten ↔ ∃ v, m.lookup key = some v ∧ f v = w := by
  obtain ⟨cs, hcs, hm⟩ := h
  rw [hcs.chainsBy_eq f, ← List.map_flatten, List.mem_map]
  constructor
  · rintro ⟨e, he, heq⟩
    rw [HTKeyValue.mk.injEq] at heq
    refine ⟨e.2.value, (hm.mem_iff _ _).1 ?_, heq.2⟩
    rw [← heq.1]
    exact List.mem_map_of_mem he
  · rintro ⟨v, hv, rfl⟩
    obtain ⟨e, he, heq⟩ := List.mem_map.1 ((hm.mem_iff _ _).2 hv)
    rw [Prod.mk.injEq] at heq
    exact ⟨e, he, by rw [heq.1, heq.2]⟩

end Read

/-! ## What the index and the file have in common -/

theorem CString.ext {s t : CString} (h : s.bytes = t.bytes) : s = t := by
  cases s
  cases t
  cases h
  rfl

theorem MemIndex.key_eq (mi : MemIndex) {e : HTKeyValue WordDocSet} (he : e ∈ mi.entries) :
    e.key = wordKey e.value.word :=
  mi.hashed e he

section Common

variable {s : InvertedIndex} {index : IndexMap} {mi : MemIndex}

theorem MemIndex.mem_chains {key : HTKey} {w : Option WordChains} :
    ⟨key, w⟩ ∈ mi.chains.flatten ↔
      ∃ wds, ⟨key, wds⟩ ∈ mi.entries ∧ some wds.chains = w := by
  rw [chains, ← List.map_flatten, List.mem_map]
  constructor
  · rintro ⟨e, he, heq⟩
    rw [HTKeyValue.mk.injEq] at heq
    obtain ⟨rfl, hw⟩ := heq
    exact ⟨e.value, he, hw⟩
  · rintro ⟨wds, hwds, rfl⟩
    exact ⟨_, hwds, rfl⟩

/-- A word of the index is one of the file, with the same documents. -/
theorem IndexHolds.exists_entry (h : IndexHolds s index)
    (hchains : InvertedIndex.chains s = mi.chains)
    {key : HTKey} {entry : CString × Documents} (hentry : index.lookup key = some entry) :
    ∃ wds, ⟨key, wds⟩ ∈ mi.entries ∧ wds.word = entry.1 ∧
      ∀ docid, entry.2.lookup docid = wds.docIDs.lookup docid := by
  obtain ⟨ptrs, sets, hs, hrel⟩ := h
  obtain ⟨set, hset, hword, lists, hlists, hdocs⟩ := hrel.of_some hentry
  obtain ⟨wds, hwds, hbox⟩ := hs.box hset
  have hmem : ⟨key, some set.chains⟩ ∈ (InvertedIndex.chains s).flatten := by
    rw [InvertedIndex.chains, hs.table.mem_chainsBy]
    exact ⟨wds, hwds, by rw [hbox]; rfl⟩
  rw [hchains, MemIndex.mem_chains] at hmem
  obtain ⟨wds', hwds', heq⟩ := hmem
  rw [Option.some.injEq, WordDocSet.chains, DocSet.chains, WordChains.mk.injEq] at heq
  refine ⟨wds', hwds', heq.1.trans hword, fun docid => ?_⟩
  ext xs
  rw [Table.lookup_eq_some_iff, Table.entries, heq.2, hlists.mem_chainsBy]
  constructor
  · intro hxs
    obtain ⟨list, hlist, hholds⟩ := hdocs.of_some hxs
    exact ⟨list, hlist, hholds.payloads_eq⟩
  · rintro ⟨list, hlist, rfl⟩
    obtain ⟨xs, hxs, hholds⟩ := hdocs.of_left hlist
    rw [hxs, hholds.payloads_eq]

/-- And the other way round. -/
theorem IndexHolds.lookup_isSome (h : IndexHolds s index)
    (hchains : InvertedIndex.chains s = mi.chains)
    {e : HTKeyValue WordDocSet} (he : e ∈ mi.entries) : (index.lookup e.key).isSome := by
  obtain ⟨ptrs, sets, hs, hrel⟩ := h
  have hmem : ⟨e.key, some e.value.chains⟩ ∈ mi.chains.flatten :=
    MemIndex.mem_chains.2 ⟨e.value, he, rfl⟩
  rw [← hchains, InvertedIndex.chains, hs.table.mem_chainsBy] at hmem
  obtain ⟨wds, hwds, -⟩ := hmem
  obtain ⟨set, hset, -⟩ := hs.boxes.of_left hwds
  obtain ⟨entry, hentry, -⟩ := hrel.of_left hset
  rw [hentry]
  rfl

/-- Where hashes do not collide, a word has the same documents in both. -/
theorem IndexHolds.posted_eq (h : IndexHolds s index) {src : IndexSource}
    (hchains : InvertedIndex.chains s = src.mi.chains) {v : CString}
    (hinj : ∀ e ∈ src.mi.entries, wordKey e.value.word = wordKey v → e.value.word = v) :
    index.posted v = src.posted v.bytes := by
  funext docid
  cases hentry : index.lookup (wordKey v) with
  | none =>
    have hnone : src.mi.lookupWord v.bytes = none := by
      rw [MemIndex.lookupWord, Option.map_eq_none_iff, List.find?_eq_none]
      intro e he hbytes
      have hword : e.value.word = v := CString.ext (by simpa using hbytes)
      have hsome := h.lookup_isSome hchains he
      rw [src.mi.key_eq he, hword, hentry] at hsome
      cases hsome
    rw [IndexMap.posted, IndexMap.documents_of_none hentry, Finmap.lookup_empty,
      src.posted_of_none hnone]
  | some entry =>
    obtain ⟨wds, hwds, -, hdocs⟩ := h.exists_entry hchains hentry
    have hword := hinj _ hwds (src.mi.key_eq hwds).symm
    have hlookup : src.mi.lookupWord v.bytes = some wds := by
      rw [MemIndex.lookupWord, Option.map_eq_some_iff]
      refine ⟨⟨wordKey v, wds⟩, ?_, rfl⟩
      rw [← find?_of_nodup src.mi.nodup hwds]
      apply List.find?_congr
      intro e he
      have hiff : e.value.word.bytes = v.bytes ↔ e.key = wordKey v := by
        rw [src.mi.key_eq he]
        constructor
        · exact fun hbytes => congrArg wordKey (CString.ext hbytes)
        · exact fun hkey => congrArg CString.bytes (hinj e he hkey)
      simp [hiff]
    rw [IndexMap.posted, IndexMap.documents_of_some hentry, src.posted_of_some hlookup, hdocs]

theorem IndexHolds.entries_length (h : IndexHolds s index)
    (hchains : InvertedIndex.chains s = mi.chains) (v : CString) :
    (index.documents v).keys.card = 0 ∨ ∃ e ∈ mi.entries,
      (index.documents v).keys.card = e.value.docIDs.entries.length := by
  cases hentry : index.lookup (wordKey v) with
  | none =>
    left
    rw [IndexMap.documents_of_none hentry, Finmap.keys_empty, Finset.card_empty]
  | some entry =>
    right
    obtain ⟨wds, hwds, -, hdocs⟩ := h.exists_entry hchains hentry
    refine ⟨_, hwds, ?_⟩
    have hrep : Represents (wds.docIDs.entries.map fun e => (e.key, e.value)) entry.2 := by
      constructor
      · rw [List.map_map]
        exact wds.docIDs.nodup
      · intro docid xs
        rw [hdocs, Table.lookup_eq_some_iff, List.mem_map]
        constructor
        · rintro ⟨e, he, heq⟩
          cases heq
          exact he
        · intro he
          exact ⟨_, he, rfl⟩
    rw [IndexMap.documents_of_some hentry, ← hrep.length_eq, List.length_map]

end Common

/-! ## A file has room for so many documents only -/

section Room

variable {V : Type} (enc : Encoder V)

theorem entries_le_bucketBytes (chains : List (List (HTKeyValue V))) (off : ℕ) :
    4 * chains.flatten.length ≤ (bucketBytes enc off chains).length := by
  induction chains generalizing off with
  | nil => exact le_rfl
  | cons chain chains ih =>
    rw [bucketBytes, List.flatten_cons, List.length_append, List.length_append,
      encodeBucket_length]
    have := ih (off + (encodeBucket enc off chain).length)
    rw [encodeBucket_length] at this
    omega

theorem element_le_elementBytes {chain : List (HTKeyValue V)} {e : HTKeyValue V} (he : e ∈ chain)
    (off : ℕ) : ∃ off', (enc off' e).length ≤ (elementBytes enc off chain).length := by
  induction chain generalizing off with
  | nil => cases he
  | cons kv chain ih =>
    rw [elementBytes, List.length_append]
    rcases List.mem_cons.1 he with rfl | he
    · exact ⟨off, Nat.le_add_right _ _⟩
    · obtain ⟨off', hle⟩ := ih he (off + (enc off kv).length)
      exact ⟨off', hle.trans (Nat.le_add_left _ _)⟩

theorem element_le_bucketBytes {chains : List (List (HTKeyValue V))} {e : HTKeyValue V}
    (he : e ∈ chains.flatten) (off : ℕ) :
    ∃ off', (enc off' e).length ≤ (bucketBytes enc off chains).length := by
  induction chains generalizing off with
  | nil => cases he
  | cons chain chains ih =>
    rw [bucketBytes, List.length_append]
    rw [List.flatten_cons, List.mem_append] at he
    rcases he with he | he
    · obtain ⟨off', hle⟩ := element_le_elementBytes enc he (off + 4 * chain.length)
      rw [encodeBucket_length]
      exact ⟨off', by omega⟩
    · obtain ⟨off', hle⟩ := ih he (off + (encodeBucket enc off chain).length)
      exact ⟨off', hle.trans (Nat.le_add_left _ _)⟩

theorem Encodable.docs_length_lt {mi : MemIndex} {dt : DocTable} (h : Encodable mi dt)
    {e : HTKeyValue WordDocSet} (he : e ∈ mi.entries) :
    4 * e.value.docIDs.entries.length < 2 ^ 32 := by
  have hsize := h.size
  rw [encodeIndex, List.length_append, List.length_append, encodeMemIndex,
    encodeTable_length] at hsize
  obtain ⟨off, hle⟩ := element_le_bucketBytes encodeWord he
    (bucketStart (HEADER_SIZE + (encodeDocTable dt).length) mi.buckets)
  rw [encodeWord, List.length_append, encodeDocIDs, encodeTable_length] at hle
  have := entries_le_bucketBytes encodePositions e.value.docIDs.buckets
    (bucketStart (off + 6 + strlen e.value.word) e.value.docIDs.buckets)
  change 4 * e.value.docIDs.buckets.flatten.length < _
  omega

end Room

/-! ## One query, twice -/

namespace Posted

variable {W W' : Type} (posted : Posted W')

/-- While the words are in the index, some document has all of those before. -/
def Lasts (query : List W') : Prop :=
  ∀ pre word post, query = pre ++ word :: post → pre ≠ [] →
    (∀ v ∈ pre ++ [word], posted.Indexed v) → ∃ docid, posted.Matches pre docid

/-- The same for words that are read through `f`. -/
def comap (f : W → W') : Posted W := fun word => posted (f word)

variable {posted} {f : W → W'}

theorem matches_comap {query : List W} {docid : HTKey} :
    (posted.comap f).Matches query docid ↔ posted.Matches (query.map f) docid := by
  simp [Matches, comap]

theorem rank_comap (query : List W) (docid : HTKey) :
    (posted.comap f).rank query docid = posted.rank (query.map f) docid := by
  simp [rank, comap, Function.comp_def]

theorem lasts_comap {query : List W} :
    (posted.comap f).Lasts query ↔ posted.Lasts (query.map f) := by
  constructor
  · rintro h pre word post heq hne hindexed
    obtain ⟨pre, rest, rfl, rfl, hrest⟩ := List.map_eq_append_iff.1 heq
    obtain ⟨word, post, rfl, rfl, rfl⟩ := List.map_eq_cons_iff.1 hrest
    have hindexed' : ∀ v ∈ pre ++ [word], (posted.comap f).Indexed v := by
      intro v hv
      apply hindexed
      rw [← List.map_singleton, ← List.map_append]
      exact List.mem_map_of_mem hv
    obtain ⟨docid, hmatch⟩ := h pre word post rfl (by simpa using hne) hindexed'
    exact ⟨docid, matches_comap.1 hmatch⟩
  · rintro h pre word post rfl hne hindexed
    have hindexed' : ∀ v ∈ pre.map f ++ [f word], posted.Indexed v := by
      rw [← List.map_singleton, ← List.map_append]
      intro v hv
      obtain ⟨u, hu, rfl⟩ := List.mem_map.1 hv
      exact hindexed u hu
    obtain ⟨docid, hmatch⟩ := h (pre.map f) (f word) (post.map f) (by simp) (by simpa using hne)
      hindexed'
    exact ⟨docid, matches_comap.2 hmatch⟩

theorem lasts_congr {posted' : Posted W'} {query : List W'}
    (hsame : ∀ v ∈ query, posted v = posted' v) (h : posted.Lasts query) : posted'.Lasts query := by
  rintro pre word post rfl hne hindexed
  have hpre : ∀ v ∈ pre, posted v = posted' v := fun v hv => hsame v (List.mem_append_left _ hv)
  obtain ⟨docid, hmatch⟩ := h pre word post rfl hne fun v hv => by
    rw [Indexed, hsame v (by simp only [List.mem_append, List.mem_cons] at hv ⊢; tauto)]
    exact hindexed v hv
  exact ⟨docid, (matches_congr hpre docid).1 hmatch⟩

end Posted

/-- The same documents and ranks, in whatever order. -/
def SamePairs (src : IndexSource) (results : List QueryResult) :
    Option (LinkedList SearchResult) → Prop
  | none => results = []
  | some list => ∃ found, ListHolds list found ∧
      (found.map fun r => (src.name r.docid, r.rank)).Perm
        (results.map fun r => (some r.documentName, r.rank))

theorem Forall₂.map_eq_results {src : IndexSource} {query : List (List UInt8)} {docids : List HTKey}
    {rs : List QueryResult} (h : List.Forall₂ (ResultFor src query) docids rs) :
    (rs.map fun r => (some r.documentName, r.rank)) =
      docids.map fun docid => (src.name docid, UInt32.ofNat (src.posted.rank query docid)) := by
  induction h with
  | nil => rfl
  | cons hres _ ih =>
    rw [List.map_cons, List.map_cons, ih, hres.1, ← hres.2, UInt32.ofNat_toNat]

theorem filesAnswer_singleton {src : IndexSource} {query : List (List UInt8)}
    {results : List QueryResult} (h : FilesAnswer [src] query results) :
    ∃ rs, IndexResults src query rs ∧ results.Perm rs := by
  obtain ⟨rss, hall, hperm, -⟩ := h
  cases hall with
  | cons hrs hnil =>
    cases hnil
    rw [List.flatten_cons, List.flatten_nil, List.append_nil] at hperm
    exact ⟨_, hrs, hperm⟩

/-- Two right answers have the same documents and ranks. -/
theorem FilesAnswer.samePairs {src : IndexSource} {query : List CString}
    {results : List QueryResult} (h : FilesAnswer [src] (query.map CString.bytes) results)
    {r : Option (LinkedList SearchResult)}
    (hr : (src.posted.comap CString.bytes).Answers query r) : SamePairs src results r := by
  obtain ⟨rs, ⟨docids, hnodup, hmem, hall⟩, hperm⟩ := filesAnswer_singleton h
  cases r with
  | none =>
    have hdocids : docids = [] := by
      refine List.eq_nil_iff_forall_not_mem.2 fun docid hdocid => hr docid ?_
      rw [Posted.matches_comap]
      exact (hmem docid).1 hdocid
    subst hdocids
    cases hall
    exact hperm.eq_nil
  | some list =>
    obtain ⟨-, found, hlist, hranked⟩ := hr
    have hdocids : (found.map SearchResult.docid).Perm docids := by
      rw [List.perm_ext_iff_of_nodup hranked.nodup hnodup]
      intro docid
      rw [hranked.mem_iff, Posted.matches_comap, hmem]
    refine ⟨found, hlist, ?_⟩
    have hfound : (found.map fun r => (src.name r.docid, r.rank)) =
        (found.map SearchResult.docid).map fun docid =>
          (src.name docid, UInt32.ofNat (src.posted.rank (query.map CString.bytes) docid)) := by
      rw [List.map_map]
      apply List.map_congr_left
      intro r hr
      rw [Function.comp_apply, ← Posted.rank_comap, ← hranked.rank r hr, UInt32.ofNat_toNat]
    rw [hfound]
    refine (hdocids.map _).trans ?_
    rw [← Forall₂.map_eq_results hall]
    exact (hperm.map _).symm

section InMemory

variable {src : IndexSource} (mem : InMemory src) {word : CString} {words : List CString}

theorem InMemory.exists_index
    (hinj : Set.InjOn wordKey {v | v ∈ mem.postings.map Posting.word}) :
    ∃ index, IndexHolds mem.index index ∧ Indexes index mem.postings := by
  obtain ⟨n, n', hbuilt⟩ := mem.built
  obtain ⟨s, n'', hrun, hs⟩ := returns_buildIndex mem.buildable hinj n
  rw [hbuilt] at hrun
  cases hrun
  exact hs

variable (hinj : Set.InjOn wordKey {v | v ∈ mem.postings.map Posting.word ∨ v ∈ word :: words})

include hinj

theorem InMemory.posted_eq {index : IndexMap} (hs : IndexHolds mem.index index)
    (hindex : Indexes index mem.postings) :
    ∀ v ∈ word :: words, index.posted v = src.posted.comap CString.bytes v := by
  intro v hv
  apply hs.posted_eq mem.written
  intro e he hkey
  obtain ⟨entry, hentry⟩ := Option.isSome_iff_exists.1 (hs.lookup_isSome mem.written he)
  obtain ⟨wds, hwds, hword, -⟩ := hs.exists_entry mem.written hentry
  have hsame : wds.word = e.value.word := by
    have := List.inj_on_of_nodup_map src.mi.nodup hwds he rfl
    rw [← this]
  rw [← hsame, hword] at hkey ⊢
  exact hinj (.inl (hindex.words _ _ hentry)) (.inr hv) hkey

/-- Where the results last, `MIProcessQuery` answers for the index in the file. -/
theorem InMemory.returns_miProcessQuery
    (hfits : ∀ docid, (src.posted.comap CString.bytes).Matches (word :: words) docid →
      (src.posted.comap CString.bytes).rank (word :: words) docid < 2 ^ 32)
    (hlasts : (src.posted.comap CString.bytes).Lasts (word :: words)) :
    Returns (miProcessQuery mem.index (word :: words))
      ((src.posted.comap CString.bytes).Answers (word :: words)) := by
  obtain ⟨index, hs, hindex⟩ := mem.exists_index (hinj.mono fun v hv => .inl hv)
  have hsame := mem.posted_eq hinj hs hindex
  have hans : (src.posted.comap CString.bytes).Answerable (word :: words)
      (index.documents word).keys.card := by
    refine ⟨fun _ => hlasts, fun _ _ => ?_, hfits⟩
    rcases hs.entries_length mem.written word with hzero | ⟨e, he, hlen⟩
    · omega
    · have := src.encodable.docs_length_lt he
      omega
  have hans' := hans.congr fun v hv => (hsame v hv).symm
  refine (SearchEngine.returns_miProcessQuery hs hindex.full hindex.posted_ne hans').mono ?_
  exact fun r hr => hr.congr hsame

/-- Where they do not, it does not return. -/
theorem InMemory.lasts_of_returns {P : Option (LinkedList SearchResult) → Prop}
    (hret : Returns (miProcessQuery mem.index (word :: words)) P) :
    (src.posted.comap CString.bytes).Lasts (word :: words) := by
  obtain ⟨index, hs, hindex⟩ := mem.exists_index (hinj.mono fun v hv => .inl hv)
  apply Posted.lasts_congr (mem.posted_eq hinj hs hindex)
  intro pre v post heq hne hindexed
  obtain ⟨u, pre, rfl⟩ := List.exists_cons_of_ne_nil hne
  obtain ⟨rfl, rfl⟩ := List.cons.inj heq
  have hword : index.posted.Indexed word := hindexed word (by simp)
  by_contra hno
  have hkeeps : ¬ index.posted.Keeps [word] (pre ++ v :: post) := by
    rw [Posted.keeps_iff hword]
    exact fun h => hno (h (word :: pre) v post rfl hne hindexed)
  have hcard : (index.documents word).keys.card < 2 ^ 31 := by
    rcases hs.entries_length mem.written word with hzero | ⟨e, he, hlen⟩
    · omega
    · have := src.encodable.docs_length_lt he
      omega
  exact (aborts_miProcessQuery hs hindex.full hword (by simp) hcard hkeeps).never.not_returns hret

end InMemory

/-- One document, with the word at its start. -/
def oneDocument (docid : HTKey) : Table (List UInt32) :=
  .ofEntries 32 (by decide) [⟨docid, [0]⟩] (List.nodup_singleton _)

/-- What `disjointPostings` leaves. -/
def disjointIndex : MemIndex where
  toTable := .ofEntries 128 indexBuckets_pos
    [⟨wordKey wordA, wordA, oneDocument 1⟩, ⟨wordKey wordB, wordB, oneDocument 2⟩]
    (by decide +kernel)
  hashed := by decide +kernel

def disjointNames : DocTable :=
  .ofEntries 2 (by decide) [⟨1, ⟨[102], CString.nonul_f⟩⟩, ⟨2, ⟨[103], by decide⟩⟩] (by decide)

theorem encodable_disjoint : Encodable disjointIndex disjointNames := by
  refine ⟨?_, ?_, ?_⟩
  · unfold WordOk PositionsOk
    decide +kernel
  · unfold DocNameOk
    decide +kernel
  · decide +kernel

def disjointSource : IndexSource where
  mi := disjointIndex
  dt := disjointNames
  encodable := encodable_disjoint
  registered := by decide +kernel
  distinct := by
    intro docid docid' name h h'
    rw [Table.lookup_eq_some_iff] at h h'
    have hinj : ∀ e ∈ disjointNames.entries, ∀ e' ∈ disjointNames.entries,
        e.value = e'.value → e.key = e'.key := by
      decide +kernel
    exact hinj _ h _ h' rfl

/-- The calls for `disjointPostings` leave what was written. -/
theorem exists_disjointMemory : ∃ mem : InMemory disjointSource, ∃ n,
    mem.postings = disjointPostings ∧
      buildIndex disjointPostings (fun _ => true) 0 = .ok (mem.index, n) := by
  have hchains : ((buildIndex disjointPostings (fun _ => true) 0).toOption.map fun r =>
      InvertedIndex.chains r.1) = some disjointIndex.chains := by
    decide +kernel
  obtain ⟨⟨index, n⟩, hrun, hindex⟩ := Option.map_eq_some_iff.1 hchains
  have hok : buildIndex disjointPostings (fun _ => true) 0 = .ok (index, n) := by
    cases hbuild : buildIndex disjointPostings (fun _ => true) 0 with
    | error _ =>
      rw [hbuild] at hrun
      cases hrun
    | ok r =>
      rw [hbuild] at hrun
      cases hrun
      rfl
  exact ⟨⟨disjointPostings, buildable_of_length (by decide) (by decide), index, ⟨0, n, hok⟩,
    hindex⟩, n, rfl, hok⟩

theorem exists_disjointFile : ∃ d, WrittenFrom d disjointSource := by
  obtain ⟨n, d, hrun, -⟩ := writeIndex_completes encodable_disjoint ⟨.empty, 0, false, 0, 0⟩
  exact ⟨d, _, n, hrun⟩

/-- Not after another result. -/
def QueryResult.notAfter (r r' : QueryResult) : Bool := !r'.lt r

theorem QueryResult.notAfter_iff {r r' : QueryResult} :
    r.notAfter r' = true ↔ r'.rank ≤ r.rank := by
  rw [notAfter, QueryResult.lt, Bool.not_eq_true', decide_eq_false_iff_not, gt_iff_lt,
    UInt32.not_lt]

/-- A stable sort. -/
def stableSort : StdSort QueryResult.lt where
  sort l := l.mergeSort QueryResult.notAfter
  perm l := List.mergeSort_perm l _
  sorted l := by
    have htrans (a b c : QueryResult) (hab : a.notAfter b = true) (hbc : b.notAfter c = true) :
        a.notAfter c = true := by
      rw [QueryResult.notAfter_iff] at *
      exact UInt32.le_trans hbc hab
    have htotal (a b : QueryResult) : (a.notAfter b || b.notAfter a) = true := by
      rw [Bool.or_eq_true, QueryResult.notAfter_iff, QueryResult.notAfter_iff]
      exact UInt32.le_total b.rank a.rank
    refine (List.pairwise_mergeSort htrans htotal l).imp fun {a b} h => ?_
    rwa [QueryResult.notAfter, Bool.not_eq_true'] at h

/-- The first word is in the first document only. -/
theorem disjoint_eq_one {docid : HTKey} (h : (disjointSource.posted [97] docid).isSome) :
    docid = 1 := by
  have hword : (disjointIndex.lookupWord [97]).map WordDocSet.chains =
      some ⟨wordA, (oneDocument 1).buckets⟩ := by
    decide +kernel
  obtain ⟨wds, hwds, hchains⟩ := Option.map_eq_some_iff.1 hword
  obtain ⟨xs, hxs⟩ := Option.isSome_iff_exists.1 h
  have hlookup : disjointSource.mi.lookupWord [97] = some wds := hwds
  rw [disjointSource.posted_of_some hlookup, Table.lookup_eq_some_iff, Table.entries,
    (WordChains.mk.inj hchains).2] at hxs
  have hall : ∀ e ∈ (oneDocument 1).buckets.flatten, e.key = 1 := by decide +kernel
  exact hall _ hxs

theorem indexAndQuery_of_built {postings : List Posting} {index : InvertedIndex} {n n' : ℕ}
    (h : buildIndex postings (fun _ => true) n = .ok (index, n')) (query : List CString) :
    indexAndQuery postings query (fun _ => true) n = miProcessQuery index query (fun _ => true) n' := by
  unfold indexAndQuery
  exact bind_ok h _

end Courses.SearchEngine
