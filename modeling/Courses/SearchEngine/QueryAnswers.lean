import Courses.SearchEngine.QueryRanking

/-!
# When a query in memory is answered

An index is built by `MIAddPostingList`, one call for each word of each document.
`Posted.Answers` says what a query should return, without hashes, tables or lists in
memory. `MIProcessQuery` does return it exactly when `Answerable` holds: a query may not go
on with a word of the index after its results have run out, and the 31 and 32 bits of its
counters must do.
-/
namespace Courses.SearchEngine

open Courses.Lib Courses.Lib.AllocM

namespace Posted

variable {W : Type} (posted : Posted W)

/-- The documents that have every word, once each, ranked by their occurrences. -/
structure Ranked (query : List W) (results : List SearchResult) : Prop where
  nodup : (results.map SearchResult.docid).Nodup
  mem_iff : ∀ docid, docid ∈ results.map SearchResult.docid ↔ posted.Matches query docid
  rank : ∀ r ∈ results, r.rank.toNat = posted.rank query r.docid
  sorted : results.Pairwise fun r r' => r'.rank ≤ r.rank

/-- What a query should return: NULL where no document has every word. -/
def Answers (query : List W) : Option (LinkedList SearchResult) → Prop
  | none => ∀ docid, ¬ posted.Matches query docid
  | some list => (∃ docid, posted.Matches query docid) ∧
      ∃ results, ListHolds list results ∧ posted.Ranked query results

/-- When the query is answered, if its first word has `documents` of them. -/
structure Answerable (query : List W) (documents : ℕ) : Prop where
  /-- While the words are in the index, some document has all of those before. -/
  keeps : documents < 2 ^ 31 → ∀ pre word post, query = pre ++ word :: post → pre ≠ [] →
    (∀ v ∈ pre ++ [word], posted.Indexed v) → ∃ docid, posted.Matches pre docid
  /-- An `int` counts the results. -/
  counted : 2 ≤ query.length → (∀ v ∈ query, posted.Indexed v) → documents < 2 ^ 31
  /-- The ranks are 32-bit. -/
  fits : ∀ docid, posted.Matches query docid → posted.rank query docid < 2 ^ 32

end Posted

/-! ## The order of the results -/

theorem outOfOrder_miSearchListComparator (r r' : SearchResult) :
    outOfOrder false miSearchListComparator r r' = true ↔ r.rank < r'.rank := by
  have hiff : outOfOrder false miSearchListComparator r r' = true ↔
      miSearchListComparator r r' < 0 := by
    simp [outOfOrder]
  rw [hiff, miSearchListComparator]
  split
  · rename_i hgt
    have hnot : ¬ r.rank < r'.rank := UInt32.lt_asymm hgt
    simp [hnot]
  · split <;> simp [*]

theorem pairwise_of_inOrder {l : List SearchResult}
    (h : LinkedList.InOrder false miSearchListComparator l) :
    l.Pairwise fun r r' => r'.rank ≤ r.rank := by
  have hchain : l.IsChain fun r r' => r'.rank ≤ r.rank := by
    refine h.imp fun r r' hr => ?_
    rw [← UInt32.not_lt, ← outOfOrder_miSearchListComparator, hr]
    exact Bool.false_ne_true
  have : IsTrans SearchResult fun r r' => r'.rank ≤ r.rank :=
    ⟨fun _ _ _ hab hbc => UInt32.le_trans hbc hab⟩
  exact List.isChain_iff_pairwise.1 hchain

/-- What `MIProcessQuery` makes of the results it has found. -/
def Outcome (results : List SearchResult) : Option (LinkedList SearchResult) → Prop
  | none => results = []
  | some list => results ≠ [] ∧ ∃ sorted, ListHolds list sorted ∧ sorted.Perm results ∧
      sorted.Pairwise fun r r' => r'.rank ≤ r.rank

theorem returns_sortResults {retlist : LinkedList SearchResult} {results : List SearchResult}
    (hlist : ListHolds retlist results) (hne : results ≠ []) :
    Returns (do return some (← sortLinkedList retlist false miSearchListComparator))
      (Outcome results) := by
  obtain ⟨nodes, hrepr, rfl⟩ := hlist
  have hasymm (r r' : SearchResult) (h : outOfOrder false miSearchListComparator r r' = true) :
      outOfOrder false miSearchListComparator r' r = false := by
    rw [outOfOrder_miSearchListComparator] at h
    rw [← Bool.not_eq_true, outOfOrder_miSearchListComparator]
    exact UInt32.lt_asymm h
  refine (LinkedList.returns_sortLinkedList hasymm hrepr).bind ?_
  rintro list ⟨ys, hys, hperm, horder⟩
  exact returns_pure ⟨hne, _, ⟨ys, hys, rfl⟩, hperm, pairwise_of_inOrder horder⟩

variable {s : InvertedIndex} {index : IndexMap} {word : CString} {words : List CString}

/-! ## The whole query -/

theorem returns_collectWord_none (h : IndexHolds s index) (hfull : index.Full)
    (hword : ¬ index.posted.Indexed word) : Returns (collectWord s word) fun r => r = none := by
  refine LinkedList.returns_allocateLinkedList.bind ?_
  rintro _ ⟨retlist, rfl, -⟩
  refine (h.not_indexed hfull hword).bind_eq ((returns_verifySome rfl).bind_eq ?_)
  rw [if_pos rfl]
  exact returns_pure rfl

theorem returns_collectWord (h : IndexHolds s index) (hfull : index.Full)
    (hword : index.posted.Indexed word) :
    Returns (collectWord s word) fun r => ∃ retlist results, r = some retlist ∧
      ListHolds retlist results ∧ index.posted.Selects [word] results ∧
      results.length = (index.documents word).keys.card := by
  obtain ⟨wds, set, hlookup, hbox, lists, ⟨cs, hcs, hm⟩, hrel⟩ := h.indexed hfull hword
  have hsel : index.posted.Selects [word] (cs.flatten.map toResult).reverse :=
    Posted.selects_toResult hm hrel fun _ => rfl
  have hne : cs.flatten ≠ [] := by
    obtain ⟨docid, hdocid⟩ := hword
    have hmatch : index.posted.Matches [word] docid := by simpa [Posted.Matches] using hdocid
    intro hnil
    apply hsel.ne_nil hmatch
    rw [hnil]
    rfl
  have hlen : cs.flatten.length = (index.documents word).keys.card := by
    rw [← hrel.card_keys, ← hm.length_eq, pairs, List.length_map]
  refine LinkedList.returns_allocateLinkedList.bind ?_
  rintro _ ⟨retlist, rfl, hempty⟩
  refine hlookup.bind_eq ((returns_verifySome rfl).bind_eq ?_)
  rw [if_neg (by simp)]
  refine (returns_demand rfl).bind_eq ((returns_demand hbox).bind_eq ?_)
  refine (returns_hashTableMakeIterator hcs).bind ?_
  rintro _ ⟨iter, rfl, hiter⟩
  refine (returns_verifySome rfl).bind_eq ?_
  have hcount := hcs.count
  have hlist : ListHolds retlist [] := ⟨[], hempty, rfl⟩
  have hfits : ([] : List SearchResult).length + cs.flatten.length < 2 ^ 32 := by
    rw [List.length_nil, Nat.zero_add, ← hcount]
    exact set.docIDs.numElements.toNat_lt
  refine (returns_collectLoop hcs cs.flatten hiter hne hlist hfits (by omega)).bind ?_
  intro retlist' hlist'
  rw [List.append_nil] at hlist'
  refine returns_pure ⟨retlist', _, rfl, hlist', hsel, ?_⟩
  rw [List.length_reverse, List.length_map, hlen]

/-- The end of `MIProcessQuery`. -/
theorem returns_finish {retlist : LinkedList SearchResult} {results : List SearchResult}
    (hlist : ListHolds retlist results) :
    Returns (if numElementsInLinkedList retlist = 0 then return none
      else return some (← sortLinkedList retlist false miSearchListComparator))
      (Outcome results) := by
  have hzero : numElementsInLinkedList retlist = 0 ↔ results = [] := by
    obtain ⟨nodes, hrepr, rfl⟩ := hlist
    rw [hrepr.numElementsInLinkedList_eq_zero, List.map_eq_nil_iff]
  by_cases hnil : results = []
  · rw [if_pos (hzero.2 hnil)]
    exact returns_pure hnil
  · rw [if_neg (mt hzero.1 hnil)]
    exact returns_sortResults hlist hnil

namespace Posted

variable {W : Type} {posted : Posted W} {query words : List W} {word : W}
  {results : List SearchResult}
  {r : Option (LinkedList SearchResult)}

theorem Answers.fits (h : posted.Answers query r) {docid : HTKey}
    (hmatch : posted.Matches query docid) : posted.rank query docid < 2 ^ 32 := by
  cases r with
  | none => exact absurd hmatch (h docid)
  | some list =>
    obtain ⟨-, results, -, hranked⟩ := h
    obtain ⟨sr, hsr, rfl⟩ := List.mem_map.1 ((hranked.mem_iff docid).2 hmatch)
    rw [← hranked.rank sr hsr]
    exact sr.rank.toNat_lt

/-- The results selected are the answer, if their ranks fit. -/
theorem Selects.answers (hsel : posted.Selects query results) (hout : Outcome results r)
    (hfits : ∀ docid, posted.Matches query docid → posted.rank query docid < 2 ^ 32) :
    posted.Answers query r := by
  cases r with
  | none => exact hsel.eq_nil_iff.1 hout
  | some list =>
    obtain ⟨hne, sorted, hlist, hperm, hsorted⟩ := hout
    refine ⟨?_, sorted, hlist, ?_, fun docid => ?_, fun sr hsr => ?_, hsorted⟩
    · by_contra hno
      exact hne (hsel.eq_nil_iff.2 (not_exists.1 hno))
    · exact ((hperm.map _).nodup_iff).2 hsel.nodup
    · rw [(hperm.map _).mem_iff, List.mem_map]
      constructor
      · rintro ⟨sr, hsr, rfl⟩
        exact ((hsel.mem_iff sr).1 hsr).1
      · intro hmatch
        have hmem := (hsel.mem_iff ⟨docid, UInt32.ofNat (posted.rank query docid)⟩).2 ⟨hmatch, rfl⟩
        exact ⟨_, hmem, rfl⟩
    · obtain ⟨hmatch, hrank⟩ := (hsel.mem_iff sr).1 (hperm.mem_iff.1 hsr)
      rw [hrank, UInt32.toNat_ofNat_of_lt' (hfits _ hmatch)]

theorem not_matches_of_not_indexed {v : W} (hv : v ∈ query) (hno : ¬ posted.Indexed v)
    (docid : HTKey) : ¬ posted.Matches query docid :=
  fun hmatch => hno ⟨docid, hmatch v hv⟩

theorem rank_cons (posted : Posted W) (word : W) (words : List W) (docid : HTKey) :
    posted.rank (word :: words) docid = posted.rank [word] docid + posted.rank words docid := by
  simp [rank]

/-- A word that is there occurs there. -/
theorem rank_pos (hpos : ∀ word docid, posted word docid ≠ some []) {docid : HTKey}
    (hmatch : posted.Matches query docid) (hne : query ≠ []) : 0 < posted.rank query docid := by
  obtain ⟨word, words, rfl⟩ := List.exists_cons_of_ne_nil hne
  obtain ⟨xs, hxs⟩ := Option.isSome_iff_exists.1 (hmatch word List.mem_cons_self)
  have hlen : 0 < xs.length := by
    apply List.length_pos_of_ne_nil
    rintro rfl
    exact hpos word docid hxs
  rw [posted.rank_cons]
  simp only [rank, List.map_cons, List.map_nil, List.sum_singleton, hxs, Option.map_some,
    Option.getD_some]
  omega

/-- The results of the first word alone are not those of the query. -/
theorem Selects.not_answers (hpos : ∀ word docid, posted word docid ≠ some [])
    (hsel : posted.Selects [word] results) (hne : results ≠ [])
    (hlen : ∀ docid, posted.rank [word] docid < 2 ^ 32) (hwords : words ≠ [])
    (hout : Outcome results r) : ¬ posted.Answers (word :: words) r := by
  intro hanswers
  cases r with
  | none => exact hne hout
  | some list =>
    obtain ⟨-, sorted, hlist, hperm, -⟩ := hout
    obtain ⟨-, results', hlist', hranked⟩ := hanswers
    obtain rfl := hlist.unique hlist'
    obtain ⟨sr, srs, rfl⟩ := List.exists_cons_of_ne_nil hne
    have hsr : sr ∈ sorted := hperm.mem_iff.2 List.mem_cons_self
    have hrank := ((hsel.mem_iff sr).1 List.mem_cons_self).2
    have hmatch := (hranked.mem_iff sr.docid).1 (List.mem_map_of_mem hsr)
    have hrest : posted.Matches words sr.docid := fun v hv => hmatch v (List.mem_cons_of_mem _ hv)
    have heq := hranked.rank sr hsr
    rw [hrank, UInt32.toNat_ofNat_of_lt' (hlen _)] at heq
    have hsplit := posted.rank_cons word words sr.docid
    have hone := rank_pos hpos hrest hwords
    omega

end Posted

theorem IndexHolds.length_lt (h : IndexHolds s index) {docid : HTKey} {xs : List UInt32}
    (hxs : index.posted word docid = some xs) : xs.length < 2 ^ 32 := by
  obtain ⟨ptrs, sets, hs, hrel⟩ := h
  cases hlookup : index.lookup (wordKey word) with
  | none =>
    rw [IndexMap.posted, IndexMap.documents_of_none hlookup, Finmap.lookup_empty] at hxs
    cases hxs
  | some entry =>
    obtain ⟨set, -, -, lists, -, hlists⟩ := hrel.of_some hlookup
    rw [IndexMap.posted, IndexMap.documents_of_some hlookup] at hxs
    obtain ⟨list, -, nodes, hrepr, rfl⟩ := hlists.of_some hxs
    rw [List.length_map, ← hrepr.numElements]
    exact list.numElements.toNat_lt

theorem IndexHolds.rank_lt (h : IndexHolds s index) (word : CString) (docid : HTKey) :
    index.posted.rank [word] docid < 2 ^ 32 := by
  have hrank : index.posted.rank [word] docid =
      ((index.posted word docid).map List.length).getD 0 := by
    simp [Posted.rank]
  rw [hrank]
  cases hxs : index.posted word docid with
  | none => exact Nat.two_pow_pos 32
  | some xs => exact h.length_lt hxs

/-- A query whose first word is not in the index. -/
theorem returns_miProcessQuery_not_indexed (h : IndexHolds s index) (hfull : index.Full)
    (hword : ¬ index.posted.Indexed word) (words : List CString) :
    Returns (miProcessQuery s (word :: words)) (index.posted.Answers (word :: words)) := by
  refine (returns_collectWord_none h hfull hword).bind_eq (returns_pure ?_)
  exact Posted.not_matches_of_not_indexed List.mem_cons_self hword

/-- A query of one word. -/
theorem returns_miProcessQuery_singleton (h : IndexHolds s index) (hfull : index.Full)
    (hword : index.posted.Indexed word) :
    Returns (miProcessQuery s [word]) (index.posted.Answers [word]) := by
  refine (returns_collectWord h hfull hword).bind ?_
  rintro _ ⟨retlist, results, rfl, hlist, hsel, -⟩
  obtain ⟨docid, hdocid⟩ := hword
  have hmatch : index.posted.Matches [word] docid := by simpa [Posted.Matches] using hdocid
  refine (returns_sortResults hlist (hsel.ne_nil hmatch)).mono fun r hr => ?_
  exact hsel.answers hr fun docid _ => h.rank_lt word docid

section FurtherWords

variable (h : IndexHolds s index) (hfull : index.Full) (hword : index.posted.Indexed word)
  (hwords : words ≠ [])

include h hfull hword hwords

/-- A query of several words, as long as there are results. -/
theorem returns_miProcessQuery_of_keeps (hcard : (index.documents word).keys.card < 2 ^ 31)
    (hkeep : index.posted.Keeps [word] words)
    (hfits : ∀ docid, index.posted.Matches (word :: words) docid →
      index.posted.rank (word :: words) docid < 2 ^ 32) :
    Returns (miProcessQuery s (word :: words)) (index.posted.Answers (word :: words)) := by
  refine (returns_collectWord h hfull hword).bind ?_
  rintro _ ⟨retlist, results, rfl, hlist, hsel, hlen⟩
  dsimp only
  rw [if_neg (by simpa using hwords)]
  refine (returns_wordsLoop h hfull words hlist hsel (hlen ▸ hcard) hkeep).bind ?_
  rintro r ⟨hall, hnone⟩
  by_cases hindexed : ∀ v ∈ words, index.posted.Indexed v
  · obtain ⟨retlist', results', rfl, hlist', hsel'⟩ := hall hindexed
    exact (returns_finish hlist').mono fun r hr => hsel'.answers hr hfits
  · push Not at hindexed
    obtain ⟨v, hv, hno⟩ := hindexed
    rw [hnone ⟨v, hv, hno⟩]
    exact returns_pure (Posted.not_matches_of_not_indexed (List.mem_cons_of_mem _ hv) hno)

/-- A query that goes on with a word of the index when no results are left. -/
theorem aborts_miProcessQuery (hcard : (index.documents word).keys.card < 2 ^ 31)
    (hkeep : ¬ index.posted.Keeps [word] words) : Aborts (miProcessQuery s (word :: words)) := by
  refine (returns_collectWord h hfull hword).aborts_bind ?_
  rintro _ ⟨retlist, results, rfl, hlist, hsel, hlen⟩
  dsimp only
  rw [if_neg (by simpa using hwords)]
  unfold Posted.Keeps at hkeep
  push Not at hkeep
  obtain ⟨pre, v, post, rfl, hindexed, hno⟩ := hkeep
  exact (aborts_wordsLoop h hfull pre hlist hsel (hlen ▸ hcard) hindexed hno).bind _

/-- With too many results to count, the words after the first are only looked up. -/
theorem returns_miProcessQuery_large (hcard : 2 ^ 31 ≤ (index.documents word).keys.card)
    (hpos : ∀ word docid, index.posted word docid ≠ some []) :
    Returns (miProcessQuery s (word :: words)) fun r =>
      index.posted.Answers (word :: words) r ↔ ∃ v ∈ words, ¬ index.posted.Indexed v := by
  refine (returns_collectWord h hfull hword).bind ?_
  rintro _ ⟨retlist, results, rfl, hlist, hsel, hlen⟩
  dsimp only
  rw [if_neg (by simpa using hwords)]
  have hlarge : 2 ^ 31 ≤ results.length := hlen ▸ hcard
  refine (returns_wordsLoop_large h hfull words hlist hlarge).bind ?_
  rintro r ⟨hall, hnone⟩
  by_cases hindexed : ∀ v ∈ words, index.posted.Indexed v
  · rw [hall hindexed]
    refine (returns_finish hlist).mono fun r hr => ?_
    have hne : results ≠ [] := by
      rintro rfl
      simp at hlarge
    have hnot := hsel.not_answers hpos hne (h.rank_lt word) hwords hr
    constructor
    · exact fun hanswers => absurd hanswers hnot
    · rintro ⟨v, hv, hno⟩
      exact absurd (hindexed v hv) hno
  · push Not at hindexed
    obtain ⟨v, hv, hno⟩ := hindexed
    rw [hnone ⟨v, hv, hno⟩]
    refine returns_pure ⟨fun _ => ⟨v, hv, hno⟩, fun _ => ?_⟩
    exact Posted.not_matches_of_not_indexed (List.mem_cons_of_mem _ hv) hno

end FurtherWords

/-- The two ways to say that the results last. -/
theorem Posted.keeps_iff {W : Type} {posted : Posted W} {word : W} {words : List W}
    (hword : posted.Indexed word) :
    posted.Keeps [word] words ↔ ∀ pre v post, word :: words = pre ++ v :: post → pre ≠ [] →
      (∀ u ∈ pre ++ [v], posted.Indexed u) → ∃ docid, posted.Matches pre docid := by
  constructor
  · intro h pre v post heq hne hindexed
    obtain ⟨u, pre, rfl⟩ := List.exists_cons_of_ne_nil hne
    obtain ⟨rfl, rfl⟩ := List.cons.inj heq
    exact h pre v post rfl fun u hu => hindexed u (List.mem_cons_of_mem _ hu)
  · rintro h pre v post rfl hindexed
    refine h (word :: pre) v post rfl (List.cons_ne_nil _ _) fun u hu => ?_
    rcases List.mem_cons.1 hu with rfl | hu
    · exact hword
    · exact hindexed u hu

/-- `MIProcessQuery` answers where it can. -/
theorem returns_miProcessQuery (h : IndexHolds s index) (hfull : index.Full)
    (hpos : ∀ word docid, index.posted word docid ≠ some [])
    (hans : index.posted.Answerable (word :: words) (index.documents word).keys.card) :
    Returns (miProcessQuery s (word :: words)) (index.posted.Answers (word :: words)) := by
  by_cases hword : index.posted.Indexed word
  · by_cases hwords : words = []
    · rw [hwords]
      exact returns_miProcessQuery_singleton h hfull hword
    · rcases lt_or_ge (index.documents word).keys.card (2 ^ 31) with hcard | hcard
      · have hkeep := (Posted.keeps_iff hword).2 (hans.keeps hcard)
        exact returns_miProcessQuery_of_keeps h hfull hword hwords hcard hkeep hans.fits
      · refine (returns_miProcessQuery_large h hfull hword hwords hcard hpos).mono ?_
        intro r hiff
        apply hiff.2
        by_contra hall
        push Not at hall
        refine absurd (hans.counted ?_ ?_) (not_lt.2 hcard)
        · have := List.length_pos_of_ne_nil hwords
          simp only [List.length_cons]
          omega
        · exact fun v hv => (List.mem_cons.1 hv).elim (fun heq => heq ▸ hword) (hall v)
  · exact returns_miProcessQuery_not_indexed h hfull hword words

/-- And nowhere else. -/
theorem never_miProcessQuery (h : IndexHolds s index) (hfull : index.Full)
    (hpos : ∀ word docid, index.posted word docid ≠ some [])
    (hnot : ¬ index.posted.Answerable (word :: words) (index.documents word).keys.card) :
    Never (miProcessQuery s (word :: words)) (index.posted.Answers (word :: words)) := by
  by_cases hfits : ∀ docid, index.posted.Matches (word :: words) docid →
      index.posted.rank (word :: words) docid < 2 ^ 32
  · by_cases hword : index.posted.Indexed word
    · by_cases hwords : words = []
      · -- a query of one word is always answerable
        subst hwords
        refine absurd ⟨fun _ pre v post heq hne => ?_, fun hlen => ?_, hfits⟩ hnot
        · obtain ⟨u, pre, rfl⟩ := List.exists_cons_of_ne_nil hne
          have := (List.cons.inj heq).2
          simp at this
        · simp at hlen
      · rcases lt_or_ge (index.documents word).keys.card (2 ^ 31) with hcard | hcard
        · by_cases hkeep : index.posted.Keeps [word] words
          · exact absurd ⟨fun _ => (Posted.keeps_iff hword).1 hkeep, fun _ _ => hcard, hfits⟩ hnot
          · exact (aborts_miProcessQuery h hfull hword hwords hcard hkeep).never
        · refine (returns_miProcessQuery_large h hfull hword hwords hcard hpos).mono ?_ |>.never
          rintro r hiff hanswers
          obtain ⟨v, hv, hno⟩ := hiff.1 hanswers
          refine hnot ⟨fun hlt => absurd hcard (not_le.2 hlt), fun _ hall => ?_, hfits⟩
          exact absurd (hall v (List.mem_cons_of_mem _ hv)) hno
    · -- so is one whose first word is not in the index
      refine absurd ⟨fun _ pre v post heq hne hindexed => ?_, fun _ hall => ?_, hfits⟩ hnot
      · obtain ⟨u, pre, rfl⟩ := List.exists_cons_of_ne_nil hne
        obtain ⟨rfl, -⟩ := List.cons.inj heq
        exact absurd (hindexed word (by simp)) hword
      · exact absurd (hall word List.mem_cons_self) hword
  · exact never_of_forall fun r hanswers => hfits fun docid hmatch => hanswers.fits hmatch

/-! ## Queries on what was posted -/

namespace Posted

variable {W : Type} {posted posted' : Posted W} {query : List W}

theorem matches_congr (hsame : ∀ v ∈ query, posted v = posted' v) (docid : HTKey) :
    posted.Matches query docid ↔ posted'.Matches query docid :=
  forall₂_congr fun v hv => by rw [hsame v hv]

theorem rank_congr (hsame : ∀ v ∈ query, posted v = posted' v) (docid : HTKey) :
    posted.rank query docid = posted'.rank query docid := by
  rw [rank, rank]
  congr 1
  exact List.map_congr_left fun v hv => by rw [hsame v hv]

theorem Answers.congr {r : Option (LinkedList SearchResult)}
    (hsame : ∀ v ∈ query, posted v = posted' v) (h : posted.Answers query r) :
    posted'.Answers query r := by
  cases r with
  | none => exact fun docid hmatch => h docid ((matches_congr hsame docid).2 hmatch)
  | some list =>
    obtain ⟨⟨docid, hmatch⟩, results, hlist, hranked⟩ := h
    refine ⟨⟨docid, (matches_congr hsame docid).1 hmatch⟩, results, hlist, hranked.nodup, ?_, ?_,
      hranked.sorted⟩
    · exact fun docid => (hranked.mem_iff docid).trans (matches_congr hsame docid)
    · exact fun r hr => (hranked.rank r hr).trans (rank_congr hsame r.docid)

theorem Answerable.congr {documents : ℕ} (hsame : ∀ v ∈ query, posted v = posted' v)
    (h : posted.Answerable query documents) : posted'.Answerable query documents := by
  have hindexed {words : List W} (hsub : words ⊆ query) (hall : ∀ v ∈ words, posted'.Indexed v) :
      ∀ v ∈ words, posted.Indexed v := by
    intro v hv
    rw [Indexed, hsame v (hsub hv)]
    exact hall v hv
  refine ⟨?_, fun hlen hall => h.counted hlen (hindexed (fun _ hv => hv) hall), ?_⟩
  · rintro hcard pre word post rfl hne hall
    obtain ⟨docid, hmatch⟩ := h.keeps hcard pre word post rfl hne (hindexed (by simp) hall)
    refine ⟨docid, (matches_congr (fun v hv => hsame v ?_) docid).1 hmatch⟩
    exact List.mem_append_left _ hv
  · intro docid hmatch
    rw [← rank_congr hsame]
    exact h.fits docid ((matches_congr hsame docid).2 hmatch)

end Posted

/-- The calls that build an index, and then a query. -/
def indexAndQuery (postings : List Posting) (query : List CString) :
    AllocM (Option (LinkedList SearchResult)) := do
  let s ← buildIndex postings
  miProcessQuery s query

/-- How many documents have the first word of the query. -/
def firstDocuments (postings : List Posting) (query : List CString) : ℕ :=
  (postings.filter fun p => query.head? = some p.word).length

section Postings

variable {postings : List Posting} {query : List CString}

/-- Where hashes do not collide, the index has what was posted. -/
theorem Indexes.posted_eq (h : Indexes index postings) {v : CString}
    (hinj : Set.InjOn wordKey {u | u = v ∨ u ∈ postings.map Posting.word}) :
    index.posted v = Posting.posted postings v := by
  funext docid
  rw [h.posted, Posting.posted]
  congr 1
  apply List.find?_congr
  intro p hp
  have hiff : wordKey p.word = wordKey v ↔ p.word = v :=
    hinj.eq_iff (.inr (List.mem_map_of_mem hp)) (.inl rfl)
  simp [hiff]

theorem Indexes.posted_ne (h : Indexes index postings) (v : CString) (docid : HTKey) :
    index.posted v docid ≠ some [] := by
  rw [h.posted]
  intro hnil
  obtain ⟨p, -, hp⟩ := Option.map_eq_some_iff.1 hnil
  exact p.nonempty hp

/-- `MIProcessQuery` on every index and query: the answer comes exactly when the query is
answerable. -/
theorem query_answered_iff (postings : List Posting) (query : List CString)
    (hbuild : Buildable postings) (hquery : query ≠ [])
    (hinj : Set.InjOn wordKey {word | word ∈ postings.map Posting.word ∨ word ∈ query}) :
    Returns (indexAndQuery postings query) ((Posting.posted postings).Answers query) ↔
      (Posting.posted postings).Answerable query (firstDocuments postings query) := by
  obtain ⟨word, words, rfl⟩ := List.exists_cons_of_ne_nil hquery
  have hinjAt {v : CString} (hv : v ∈ word :: words) :
      Set.InjOn wordKey {u | u = v ∨ u ∈ postings.map Posting.word} := by
    refine hinj.mono ?_
    rintro u (rfl | hu)
    · exact .inr hv
    · exact .inl hu
  have hrun := returns_buildIndex hbuild (hinj.mono fun v hv => .inl hv)
  have hsame {index : IndexMap} (hindex : Indexes index postings) :
      ∀ v ∈ word :: words, index.posted v = Posting.posted postings v :=
    fun v hv => hindex.posted_eq (hinjAt hv)
  have hcard {index : IndexMap} (hindex : Indexes index postings) :
      (index.documents word).keys.card = firstDocuments postings (word :: words) := by
    rw [hindex.card, filter_wordKey (hinjAt List.mem_cons_self), firstDocuments]
    congr 2
    funext p
    simp [eq_comm]
  constructor
  · intro hret
    by_contra hnot
    refine (hrun.never_bind ?_).not_returns hret
    rintro s ⟨index, hs, hindex⟩
    have hnot' : ¬ index.posted.Answerable (word :: words) (index.documents word).keys.card := by
      rw [hcard hindex]
      exact fun hans => hnot (hans.congr (hsame hindex))
    intro n r n' hr hanswers
    refine never_miProcessQuery hs hindex.full hindex.posted_ne hnot' n r n' hr ?_
    exact hanswers.congr fun v hv => (hsame hindex v hv).symm
  · intro hans
    refine hrun.bind ?_
    rintro s ⟨index, hs, hindex⟩
    have hans' : index.posted.Answerable (word :: words) (index.documents word).keys.card := by
      rw [hcard hindex]
      exact hans.congr fun v hv => (hsame hindex v hv).symm
    refine (returns_miProcessQuery hs hindex.full hindex.posted_ne hans').mono fun r hr => ?_
    exact hr.congr (hsame hindex)

end Postings

/-- The list of a single position. -/
def singletonList (position : UInt32) : LinkedList UInt32 :=
  ⟨1, some 1, some 1, Function.update (fun _ => none) 1 (some ⟨position, none, none⟩), 2⟩

theorem listHolds_singletonList (position : UInt32) :
    ListHolds (singletonList position) [position] := by
  refine ⟨[(1, position)], ⟨rfl, rfl, rfl, ⟨?_, trivial⟩, ?_, ?_⟩, rfl⟩
  · simp [singletonList]
  · simp
  · simp [singletonList]

/-- A posting of a single position. -/
def singlePosting (word : CString) (docid : HTKey) (position : UInt32) : Posting :=
  ⟨word, docid, singletonList position, [position], listHolds_singletonList position, by simp⟩

def wordA : CString := ⟨[97], CString.nonul_a⟩

def wordB : CString := ⟨[98], CString.nonul_b⟩

theorem injOn_wordA_wordB {postings : List Posting} {query : List CString}
    (h : ∀ w ∈ postings.map Posting.word ++ query, w ∈ [wordA, wordB]) :
    Set.InjOn wordKey {word | word ∈ postings.map Posting.word ∨ word ∈ query} := by
  have hinj : ∀ u ∈ [wordA, wordB], ∀ v ∈ [wordA, wordB], wordKey u = wordKey v → u = v := by
    decide +kernel
  exact fun u hu v hv => hinj u (h u (List.mem_append.2 hu)) v (h v (List.mem_append.2 hv))

theorem buildable_of_length {postings : List Posting} (hlen : postings.length < 2 ^ 32)
    (hdistinct : (postings.map fun p => (p.word, p.docid)).Nodup) : Buildable postings := by
  refine ⟨hdistinct, ?_, fun word => (List.length_filter_le _ _).trans_lt hlen⟩
  refine (List.toFinset_card_le _).trans_lt ?_
  rwa [List.length_map]

/-- Two words, and a document that has both. -/
def sharedPostings : List Posting :=
  [singlePosting wordA 1 0, singlePosting wordB 1 4, singlePosting wordA 2 0]

theorem query_answered_shared :
    Returns (indexAndQuery sharedPostings [wordA, wordB])
      ((Posting.posted sharedPostings).Answers [wordA, wordB]) := by
  refine (query_answered_iff sharedPostings [wordA, wordB]
    (buildable_of_length (by decide) (by decide)) (by simp)
    (injOn_wordA_wordB (by decide))).2 ⟨?_, fun _ _ => by decide, ?_⟩
  · have hboth : (Posting.posted sharedPostings).Matches [wordA, wordB] 1 := by decide
    intro _ pre word post heq _ _
    exact ⟨1, fun v hv => hboth v (heq ▸ List.mem_append_left _ hv)⟩
  · intro docid hmatch
    have hdocid : docid = 1 := by
      have hb := hmatch wordB (by simp)
      by_contra hne
      have hnone : Posting.posted sharedPostings wordB docid = none := by
        simp [Posting.posted, sharedPostings, singlePosting, wordA, wordB, Ne.symm hne]
      rw [hnone] at hb
      cases hb
    rw [hdocid]
    decide

/-- Two documents without a word in common. -/
def disjointPostings : List Posting := [singlePosting wordA 1 0, singlePosting wordB 2 0]

/-- The second word leaves no results, and the third one is in the index. -/
theorem query_unanswered_disjoint :
    Buildable disjointPostings ∧
    Set.InjOn wordKey {word | word ∈ disjointPostings.map Posting.word ∨ word ∈ [wordA, wordB, wordA]} ∧
    ¬ Returns (indexAndQuery disjointPostings [wordA, wordB, wordA])
      ((Posting.posted disjointPostings).Answers [wordA, wordB, wordA]) := by
  refine ⟨buildable_of_length (by decide) (by decide), injOn_wordA_wordB (by decide), fun h => ?_⟩
  obtain ⟨r, n, hr, -⟩ := h 0
  have hrun : (indexAndQuery disjointPostings [wordA, wordB, wordA] (fun _ => true) 0).isOk =
      false := by
    decide +kernel
  rw [hr] at hrun
  cases hrun

end Courses.SearchEngine
