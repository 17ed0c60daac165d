import Courses.SearchEngine.IndexRoundTrip
import Courses.SearchEngine.QueryAnswers

/-!
# Queries on index files

`hw3/QueryProcessor.cc`. Each index file is opened once; a query then goes through the
files one after the other, and in each through its words, keeping the ranks of the
documents that have had all of them so far in a map from file names. On the files of
`WriteIndex` the map ends up with the documents that have every word, whatever the layout
of the tables; the ranks are 32-bit sums.
-/
namespace Courses.SearchEngine

open Courses.Lib Courses.Lib.DiskM

/-! ## The standard library -/

/-- `std::map<string, HWSize_t>`, as its entries in the order of their keys. -/
abbrev Ranks := List (List UInt8 × HWSize)

namespace Ranks

/-- `operator==` of `std::string`. -/
local instance lawfulBEqName : LawfulBEq (List UInt8) := inferInstance

/-- `operator<` of `std::string`. -/
def before (s t : List UInt8) : Bool := s.map UInt8.toNat < t.map UInt8.toNat

def find (m : Ranks) (name : List UInt8) : Option HWSize :=
  (m.find? fun e => e.1 = name).map Prod.snd

/-- `m[name] = rank`. -/
def assign (m : Ranks) (name : List UInt8) (rank : HWSize) : Ranks :=
  if name ∈ m.map Prod.fst then
    m.map fun e => if e.1 = name then (name, rank) else e
  else
    m.takeWhile (fun e => before e.1 name) ++ (name, rank) ::
      m.dropWhile (fun e => before e.1 name)

end Ranks

/-- `std::sort` with a strict weak order: which order equal elements get is left open. -/
structure StdSort {α : Type} (lt : α → α → Bool) where
  sort : List α → List α
  perm : ∀ l, (sort l).Perm l
  sorted : ∀ l, (sort l).Pairwise fun a b => lt b a = false

/-! ## `QueryProcessor.cc` -/

structure QueryResult where
  documentName : List UInt8
  rank : HWSize
  deriving Repr, DecidableEq

/-- `QueryResult::operator<`. -/
def QueryResult.lt (r rhs : QueryResult) : Bool := r.rank > rhs.rank

/-- The readers for one index file. -/
structure IndexReaders where
  dtr : HashTableReader
  itr : HashTableReader

/-- The turn of the constructor for one file. -/
def openIndex (validate : Bool) : DiskM IndexReaders := do
  let fir ← fileIndexReader validate
  let dtr ← getDocTableReader
  let itr ← getIndexTableReader fir
  return ⟨dtr, itr⟩

/-- The loop over the documents of a word. The entry that `ranks[docname]` makes for the
first word is never asked for, and is gone after the swap. -/
def scoreDocs (dtr : HashTableReader) (first : Bool) (ranks : Ranks) :
    List (HTKey × ℕ) → Ranks → DiskM Ranks
  | [], tmpranks => return tmpranks
  | (docid, numPositions) :: dilist, tmpranks => do
    let docname ← lookupDocName dtr docid
    verify docname.isSome
    let docname := docname.getD []
    if first ∨ (numPositions > 0 ∧ (ranks.find docname).isSome) then
      scoreDocs dtr first ranks dilist
        (tmpranks.assign docname ((ranks.find docname).getD 0 + UInt32.ofNat numPositions))
    else
      scoreDocs dtr first ranks dilist tmpranks

/-- The loop over the words of a query; `first` is `j == 0`. -/
def scoreWords (readers : IndexReaders) : Bool → List (List UInt8) → Ranks → DiskM Ranks
  | _, [], ranks => return ranks
  | first, word :: words, ranks => do
    match ← lookupWord readers.itr word with
    | none => return []
    | some diReader =>
      let dilist ← getDocIDList diReader
      if dilist.isEmpty then
        return []
      else
        let tmpranks ← scoreDocs readers.dtr first ranks dilist []
        scoreWords readers false words tmpranks

/-- The constructor, on files that can be read; their number is kept in 32 bits. -/
def queryProcessor (validate : Bool) (disks : List Disk) :
    Except Halt (List (IndexReaders × Disk)) :=
  let arraylen := u32 disks.length
  if arraylen > 0 then
    (disks.take arraylen).mapM fun d => openIndex validate (fun _ => none) d
  else
    .error .verify

/-- `ProcessQuery`. -/
def processQuery (std : StdSort QueryResult.lt) (indices : List (IndexReaders × Disk))
    (query : List (List UInt8)) : Except Halt (List QueryResult) := do
  if query.length > 0 then
    let ranks ← indices.mapM fun i => scoreWords i.1 true query [] (fun _ => none) i.2
    return std.sort (ranks.flatMap fun r => r.1.map fun kv => ⟨kv.1, kv.2⟩)
  else
    .error .verify

/-- A processor made for the files, and a query on it. -/
def queryFiles (std : StdSort QueryResult.lt) (validate : Bool) (disks : List Disk)
    (query : List (List UInt8)) : Except Halt (List QueryResult) := do
  let indices ← queryProcessor validate disks
  processQuery std indices query

/-! ## Entries of a map -/

namespace Ranks

variable {m : Ranks} {name name' : List UInt8} {rank rank' : HWSize}

theorem find_of_mem (hnodup : (m.map Prod.fst).Nodup) (hmem : (name, rank) ∈ m) :
    m.find name = some rank := by
  rw [find, find?_of_nodup hnodup hmem]
  rfl

theorem mem_of_find (h : m.find name = some rank) : (name, rank) ∈ m := by
  obtain ⟨e, he, rfl⟩ := Option.map_eq_some_iff.1 h
  have hname : e.1 = name := by simpa using List.find?_some he
  rw [← hname]
  exact List.mem_of_find?_eq_some he

/-- A name that was not there. -/
theorem perm_assign (h : name ∉ m.map Prod.fst) (rank : HWSize) :
    (m.assign name rank).Perm ((name, rank) :: m) := by
  rw [assign, if_neg h]
  refine List.perm_middle.trans ?_
  rw [List.takeWhile_append_dropWhile]

end Ranks

/-! ## One index -/

/-- An index and its documents, as `CrawlFileTree` and `WriteIndex` leave them: what is
written fits the format, and every document of the index has a name of its own. -/
structure IndexSource where
  mi : MemIndex
  dt : DocTable
  encodable : Encodable mi dt
  registered : ∀ e ∈ mi.entries, ∀ e' ∈ e.value.docIDs.entries, (dt.lookup e'.key).isSome
  distinct : ∀ docid docid' name, dt.lookup docid = some name → dt.lookup docid' = some name →
    docid = docid'

namespace IndexSource

variable (src : IndexSource)

/-- The name of a document. -/
def name (docid : HTKey) : Option (List UInt8) := (src.dt.lookup docid).map CString.bytes

/-- Where the words are. -/
def posted : Posted (List UInt8) := fun word docid =>
  (src.mi.lookupWord word).bind fun wds => wds.docIDs.lookup docid

variable {src}

theorem name_inj {docid docid' : HTKey} {bs : List UInt8} (h : src.name docid = some bs)
    (h' : src.name docid' = some bs) : docid = docid' := by
  obtain ⟨⟨bytes, hbytes⟩, hlookup, rfl⟩ := Option.map_eq_some_iff.1 h
  obtain ⟨⟨bytes', hbytes'⟩, hlookup', heq⟩ := Option.map_eq_some_iff.1 h'
  dsimp only at heq
  subst heq
  exact src.distinct docid docid' _ hlookup hlookup'

end IndexSource

theorem Table.lookup_eq_some_iff {V : Type} (t : Table V) {key : HTKey} {v : V} :
    t.lookup key = some v ↔ ⟨key, v⟩ ∈ t.entries := by
  rw [lookup, Option.map_eq_some_iff]
  constructor
  · rintro ⟨e, he, rfl⟩
    have hkey : e.key = key := by simpa using List.find?_some he
    rw [← hkey]
    exact List.mem_of_find?_eq_some he
  · intro hmem
    exact ⟨_, find?_of_nodup t.nodup hmem, rfl⟩

namespace IndexSource

variable {src : IndexSource} {word : List UInt8} {docid : HTKey} {xs : List UInt32}

theorem posted_of_none (h : src.mi.lookupWord word = none) : src.posted word docid = none := by
  rw [posted, h]
  rfl

theorem posted_of_some {wds : WordDocSet} (h : src.mi.lookupWord word = some wds) :
    src.posted word docid = wds.docIDs.lookup docid := by
  rw [posted, h]
  rfl

theorem mem_of_lookupWord {wds : WordDocSet} (h : src.mi.lookupWord word = some wds) :
    ∃ e ∈ src.mi.entries, e.value = wds := by
  obtain ⟨e, he, heq⟩ := Option.map_eq_some_iff.1 h
  exact ⟨e, List.mem_of_find?_eq_some he, heq⟩

theorem name_isSome {wds : WordDocSet} (h : src.mi.lookupWord word = some wds)
    {e : HTKeyValue (List UInt32)} (he : e ∈ wds.docIDs.entries) : (src.name e.key).isSome := by
  obtain ⟨entry, hentry, rfl⟩ := mem_of_lookupWord h
  rw [name, Option.isSome_map]
  exact src.registered entry hentry e he

theorem positions_ne_nil {wds : WordDocSet} (h : src.mi.lookupWord word = some wds)
    {e : HTKeyValue (List UInt32)} (he : e ∈ wds.docIDs.entries) : e.value ≠ [] := by
  obtain ⟨entry, hentry, rfl⟩ := mem_of_lookupWord h
  exact (src.encodable.words entry hentry).2.2 e he

end IndexSource

/-- What the map has after the words `done`: the documents with all of them. -/
structure Scored (src : IndexSource) (done : List (List UInt8)) (ranks : Ranks) : Prop where
  nodup : (ranks.map Prod.fst).Nodup
  mem_iff : ∀ name rank, (name, rank) ∈ ranks ↔ ∃ docid, src.name docid = some name ∧
    src.posted.Matches done docid ∧ rank = UInt32.ofNat (src.posted.rank done docid)

/-- What the new map has after the documents `seen` of the next word. -/
structure Scoring (src : IndexSource) (first : Bool) (ranks : Ranks)
    (seen : List (HTKeyValue (List UInt32))) (tmpranks : Ranks) : Prop where
  nodup : (tmpranks.map Prod.fst).Nodup
  mem_iff : ∀ name rank, (name, rank) ∈ tmpranks ↔ ∃ e ∈ seen, src.name e.key = some name ∧
    (first = true ∨ (ranks.find name).isSome) ∧
    rank = (ranks.find name).getD 0 + UInt32.ofNat e.value.length

theorem Scoring.skip {src : IndexSource} {first : Bool} {ranks tmpranks : Ranks}
    {seen : List (HTKeyValue (List UInt32))} {e : HTKeyValue (List UInt32)} {name : List UInt8}
    (h : Scoring src first ranks seen tmpranks) (hname : src.name e.key = some name)
    (hno : ¬ (first = true ∨ (ranks.find name).isSome)) :
    Scoring src first ranks (seen ++ [e]) tmpranks := by
  refine ⟨h.nodup, fun name' rank => ?_⟩
  rw [h.mem_iff]
  constructor
  · rintro ⟨e', he', hrest⟩
    exact ⟨e', List.mem_append_left _ he', hrest⟩
  · rintro ⟨e', he', hname', hcond, hrank⟩
    rcases List.mem_append.1 he' with he' | he'
    · exact ⟨e', he', hname', hcond, hrank⟩
    · cases List.mem_singleton.1 he'
      rw [hname] at hname'
      cases hname'
      exact absurd hcond hno

theorem Scoring.assign {src : IndexSource} {first : Bool} {ranks tmpranks : Ranks}
    {seen : List (HTKeyValue (List UInt32))} {e : HTKeyValue (List UInt32)} {name : List UInt8}
    (h : Scoring src first ranks seen tmpranks) (hname : src.name e.key = some name)
    (hnew : e.key ∉ seen.map HTKeyValue.key) (hcond : first = true ∨ (ranks.find name).isSome) :
    Scoring src first ranks (seen ++ [e])
      (tmpranks.assign name ((ranks.find name).getD 0 + UInt32.ofNat e.value.length)) := by
  have hfresh : name ∉ tmpranks.map Prod.fst := by
    intro hmem
    obtain ⟨entry, hentry, rfl⟩ := List.mem_map.1 hmem
    obtain ⟨e', he', hname', -⟩ := (h.mem_iff entry.1 entry.2).1 hentry
    apply hnew
    rw [IndexSource.name_inj hname hname']
    exact List.mem_map_of_mem he'
  have hperm := Ranks.perm_assign hfresh ((ranks.find name).getD 0 + UInt32.ofNat e.value.length)
  constructor
  · rw [(hperm.map Prod.fst).nodup_iff, List.map_cons, List.nodup_cons]
    exact ⟨hfresh, h.nodup⟩
  · intro name' rank
    rw [hperm.mem_iff, List.mem_cons, h.mem_iff]
    constructor
    · rintro (heq | ⟨e', he', hrest⟩)
      · cases heq
        exact ⟨e, by simp, hname, hcond, rfl⟩
      · exact ⟨e', List.mem_append_left _ he', hrest⟩
    · rintro ⟨e', he', hname', hcond', hrank⟩
      rcases List.mem_append.1 he' with he' | he'
      · exact .inr ⟨e', he', hname', hcond', hrank⟩
      · cases List.mem_singleton.1 he'
        rw [hname] at hname'
        cases hname'
        exact .inl (by rw [hrank])

section Reads

variable {src : IndexSource} {f : File} {readers : IndexReaders}

theorem reads_scoreDocs {first : Bool} {ranks : Ranks}
    (hnames : ∀ docid, Reads f (lookupDocName readers.dtr docid) (src.name docid))
    (entries : List (HTKeyValue (List UInt32))) {seen : List (HTKeyValue (List UInt32))}
    {tmpranks : Ranks} (hkeys : ((seen ++ entries).map HTKeyValue.key).Nodup)
    (hname : ∀ e ∈ entries, (src.name e.key).isSome) (hpos : ∀ e ∈ entries, e.value ≠ [])
    (h : Scoring src first ranks seen tmpranks) :
    ∃ r, Reads f (scoreDocs readers.dtr first ranks (entries.map docCount) tmpranks) r ∧
      Scoring src first ranks (seen ++ entries) r := by
  induction entries generalizing seen tmpranks with
  | nil => exact ⟨tmpranks, reads_pure _, by rwa [List.append_nil]⟩
  | cons e entries ih =>
    obtain ⟨docname, hdocname⟩ := Option.isSome_iff_exists.1 (hname e List.mem_cons_self)
    have hassoc : seen ++ e :: entries = (seen ++ [e]) ++ entries := by simp
    have hnew : e.key ∉ seen.map HTKeyValue.key := by
      rw [List.map_append, List.map_cons, List.nodup_append] at hkeys
      exact fun hmem => hkeys.2.2 _ hmem _ List.mem_cons_self rfl
    have hcount : e.value.length > 0 :=
      List.length_pos_of_ne_nil (hpos e List.mem_cons_self)
    have hname' : ∀ e' ∈ entries, (src.name e'.key).isSome :=
      fun e' he' => hname e' (List.mem_cons_of_mem _ he')
    have hpos' : ∀ e' ∈ entries, e'.value ≠ [] := fun e' he' => hpos e' (List.mem_cons_of_mem _ he')
    rw [hassoc] at hkeys ⊢
    have hread := hnames e.key
    rw [hdocname] at hread
    by_cases hcond : first = true ∨ (ranks.find docname).isSome
    · obtain ⟨r, hr, hscored⟩ := ih hkeys hname' hpos' (h.assign hdocname hnew hcond)
      refine ⟨r, hread.bind ?_, hscored⟩
      intro d hd
      apply completes_verify rfl
      dsimp only [Option.getD_some]
      rw [if_pos (hcond.imp_right fun hfind => ⟨hcount, hfind⟩)]
      exact hr d hd
    · obtain ⟨r, hr, hscored⟩ := ih hkeys hname' hpos' (h.skip hdocname hcond)
      refine ⟨r, hread.bind ?_, hscored⟩
      intro d hd
      apply completes_verify rfl
      dsimp only [Option.getD_some]
      rw [if_neg fun hc => hcond (hc.imp_right And.right)]
      exact hr d hd

/-- How the map answers for the documents with the words so far. -/
def Answering (src : IndexSource) (done : List (List UInt8)) (first : Bool) (ranks : Ranks) : Prop :=
  ∀ docid name, src.name docid = some name →
    ((first = true ∨ (ranks.find name).isSome) ↔ src.posted.Matches done docid) ∧
    (src.posted.Matches done docid →
      (ranks.find name).getD 0 = UInt32.ofNat (src.posted.rank done docid))

theorem answering_nil (src : IndexSource) : Answering src [] true [] := by
  intro docid name _
  refine ⟨iff_of_true (.inl rfl) fun _ hv => absurd hv List.not_mem_nil, fun _ => rfl⟩

theorem Scored.answering {done : List (List UInt8)} {ranks : Ranks} (h : Scored src done ranks) :
    Answering src done false ranks := by
  intro docid name hname
  constructor
  · constructor
    · rintro (hfalse | hsome)
      · cases hfalse
      · obtain ⟨rank, hrank⟩ := Option.isSome_iff_exists.1 hsome
        obtain ⟨docid', hname', hmatch, -⟩ := (h.mem_iff _ _).1 (Ranks.mem_of_find hrank)
        rwa [src.name_inj hname hname']
    · intro hmatch
      right
      rw [Ranks.find_of_mem h.nodup ((h.mem_iff _ _).2 ⟨docid, hname, hmatch, rfl⟩)]
      rfl
  · intro hmatch
    rw [Ranks.find_of_mem h.nodup ((h.mem_iff _ _).2 ⟨docid, hname, hmatch, rfl⟩)]
    rfl

/-- One more word. -/
theorem Scoring.scored {done : List (List UInt8)} {word : List UInt8} {wds : WordDocSet}
    {first : Bool} {ranks r : Ranks} (hword : src.mi.lookupWord word = some wds)
    (hdone : Answering src done first ranks)
    (h : Scoring src first ranks wds.docIDs.entries r) : Scored src (done ++ [word]) r := by
  refine ⟨h.nodup, fun name rank => ?_⟩
  rw [h.mem_iff]
  constructor
  · rintro ⟨e, he, hname, hcond, rfl⟩
    obtain ⟨hiff, hfind⟩ := hdone e.key name hname
    have hmatch := hiff.1 hcond
    have hposted : src.posted word e.key = some e.value := by
      rw [src.posted_of_some hword, wds.docIDs.lookup_eq_some_iff]
      exact he
    refine ⟨e.key, hname, Posted.matches_append_singleton.2 ⟨hmatch, by rw [hposted]; rfl⟩, ?_⟩
    rw [Posted.rank_append_singleton, hposted, UInt32.ofNat_add, hfind hmatch]
    rfl
  · rintro ⟨docid, hname, hmatch, rfl⟩
    obtain ⟨hmatch, hsome⟩ := Posted.matches_append_singleton.1 hmatch
    obtain ⟨hiff, hfind⟩ := hdone docid name hname
    obtain ⟨xs, hxs⟩ := Option.isSome_iff_exists.1 hsome
    have hmem := hxs
    rw [src.posted_of_some hword, wds.docIDs.lookup_eq_some_iff] at hmem
    refine ⟨_, hmem, hname, hiff.2 hmatch, ?_⟩
    rw [Posted.rank_append_singleton, hxs, UInt32.ofNat_add, hfind hmatch]
    rfl

theorem scored_nil {words : List (List UInt8)} (h : ∀ docid, ¬ src.posted.Matches words docid) :
    Scored src words [] := by
  refine ⟨List.nodup_nil, fun name rank => iff_of_false List.not_mem_nil ?_⟩
  rintro ⟨docid, -, hmatch, -⟩
  exact h docid hmatch

/-- How the readers of a file answer, for the index it was written from. -/
structure Serves (src : IndexSource) (f : File) (readers : IndexReaders) : Prop where
  names : ∀ docid, Reads f (lookupDocName readers.dtr docid) (src.name docid)
  words : ∀ word, match src.mi.lookupWord word with
    | none => Reads f (lookupWord readers.itr word) none
    | some wds => ∃ docs, Reads f (lookupWord readers.itr word) (some docs) ∧
        Reads f (getDocIDList docs) (wds.docIDs.entries.map docCount)

theorem reads_scoreWords (hserves : Serves src f readers) (words : List (List UInt8))
    {done : List (List UInt8)} {first : Bool} {ranks : Ranks}
    (hdone : Answering src done first ranks) (hranks : first = false → Scored src done ranks)
    (hne : first = true → words ≠ []) :
    ∃ r, Reads f (scoreWords readers first words ranks) r ∧ Scored src (done ++ words) r := by
  induction words generalizing done first ranks with
  | nil =>
    have hfirst : first = false := Bool.eq_false_iff.2 fun h => hne h rfl
    exact ⟨ranks, reads_pure _, by rw [List.append_nil]; exact hranks hfirst⟩
  | cons word words ih =>
    have hanswer := hserves.words word
    cases hlookup : src.mi.lookupWord word with
    | none =>
      rw [hlookup] at hanswer
      refine ⟨[], hanswer.bind (reads_pure _), scored_nil fun docid hmatch => ?_⟩
      have hword := hmatch word (by simp)
      rw [src.posted_of_none hlookup] at hword
      cases hword
    | some wds =>
      rw [hlookup] at hanswer
      obtain ⟨docs, hdocs, hlist⟩ := hanswer
      by_cases hempty : wds.docIDs.entries = []
      · refine ⟨[], hdocs.bind (hlist.bind ?_), scored_nil fun docid hmatch => ?_⟩
        · rw [hempty]
          exact reads_pure _
        · have hword := hmatch word (by simp)
          rw [src.posted_of_some hlookup, Table.lookup, hempty] at hword
          cases hword
      · have hstart : Scoring src first ranks [] [] :=
          ⟨List.nodup_nil, fun name rank => by simp⟩
        obtain ⟨tmpranks, htmp, hscoring⟩ := reads_scoreDocs hserves.names wds.docIDs.entries
          wds.docIDs.nodup (fun e he => src.name_isSome hlookup he)
          (fun e he => src.positions_ne_nil hlookup he) hstart
        have hscored := Scoring.scored hlookup hdone hscoring
        obtain ⟨r, hr, hfinal⟩ := ih hscored.answering (fun _ => hscored) (fun h => by cases h)
        rw [List.append_assoc] at hfinal
        refine ⟨r, hdocs.bind (hlist.bind ?_), hfinal⟩
        have hmore : ¬ (wds.docIDs.entries.map docCount).isEmpty := by simpa using hempty
        rw [if_neg hmore]
        exact htmp.bind hr

end Reads

/-! ## All the files -/

/-- The disk holds the file that a run of `WriteIndex` leaves. -/
def WrittenFrom (d : Disk) (src : IndexSource) : Prop :=
  ∃ d₀ n, writeIndex src.mi src.dt (fun _ => none) d₀ = .ok (n, d)

theorem WrittenFrom.file {d : Disk} {src : IndexSource} (h : WrittenFrom d src) :
    d.file = indexFile src.mi src.dt ∧ d.linked = true := by
  obtain ⟨d₀, n, hrun⟩ := h
  obtain ⟨n', d', hrun', -, hfile, hlinked⟩ := writeIndex_completes src.encodable d₀
  rw [hrun] at hrun'
  cases hrun'
  exact ⟨hfile, hlinked⟩

/-- Opening a file gives readers that serve its index. -/
theorem openIndex_serves {d : Disk} {src : IndexSource} (h : WrittenFrom d src) (validate : Bool) :
    Completes (openIndex validate) d fun readers d' =>
      d'.file = indexFile src.mi src.dt ∧ Serves src d'.file readers := by
  obtain ⟨hfile, hlinked⟩ := h.file
  obtain ⟨⟨dtr, hdtr, hnames⟩, itr, hitr, hwords⟩ := indexFile_decodes src.encodable
  refine (fileIndexReader_completes src.encodable validate d hfile hlinked).bind ?_
  rintro _ d₁ ⟨rfl, hd₁⟩
  refine (hdtr d₁ hd₁).bind ?_
  rintro _ d₂ ⟨rfl, hd₂⟩
  refine (hitr d₂ hd₂).bind ?_
  rintro _ d₃ ⟨rfl, hd₃⟩
  refine completes_pure ⟨hd₃, ?_⟩
  rw [hd₃]
  refine ⟨hnames, fun word => ?_⟩
  have hword := hwords word
  cases hlookup : src.mi.lookupWord word with
  | none =>
    rw [hlookup] at hword
    exact hword
  | some wds =>
    rw [hlookup] at hword
    obtain ⟨docs, hdocs, hlist, -⟩ := hword
    exact ⟨docs, hdocs, hlist⟩

theorem mapM_openIndex {disks : List Disk} {srcs : List IndexSource}
    (h : List.Forall₂ WrittenFrom disks srcs) (validate : Bool) :
    ∃ opened, (disks.mapM fun d => openIndex validate (fun _ => none) d) = .ok opened ∧
      List.Forall₂ (fun i src => Serves src i.2.file i.1) opened srcs := by
  induction h with
  | nil => exact ⟨[], rfl, .nil⟩
  | cons hd _ ih =>
    obtain ⟨readers, d', hrun, -, hserves⟩ := openIndex_serves hd validate
    obtain ⟨opened, hopened, hall⟩ := ih
    refine ⟨(readers, d') :: opened, ?_, .cons hserves hall⟩
    rw [List.mapM_cons, hrun, hopened]
    rfl

theorem mapM_scoreWords {opened : List (IndexReaders × Disk)} {srcs : List IndexSource}
    (h : List.Forall₂ (fun i src => Serves src i.2.file i.1) opened srcs)
    {query : List (List UInt8)} (hquery : query ≠ []) :
    ∃ scored, (opened.mapM fun i => scoreWords i.1 true query [] (fun _ => none) i.2) = .ok scored ∧
      List.Forall₂ (fun src r => Scored src query r) srcs (scored.map Prod.fst) := by
  induction h with
  | nil => exact ⟨[], rfl, .nil⟩
  | @cons i src opened srcs hserves _ ih =>
    obtain ⟨ranks, hreads, hscored⟩ := reads_scoreWords hserves query (answering_nil src)
      (fun hfalse => by cases hfalse) (fun _ => hquery)
    obtain ⟨r, d', hrun, hr, -⟩ := hreads i.2 rfl
    obtain ⟨scored, hall, hrest⟩ := ih
    refine ⟨(r, d') :: scored, ?_, .cons (hr ▸ hscored) hrest⟩
    rw [List.mapM_cons, hrun, hall]
    rfl

/-! ## What a query should return -/

/-- The result for a document of an index. -/
def ResultFor (src : IndexSource) (query : List (List UInt8)) (docid : HTKey) (r : QueryResult) :
    Prop :=
  src.name docid = some r.documentName ∧ r.rank.toNat = src.posted.rank query docid

/-- One result for each document of an index that has every word. -/
def IndexResults (src : IndexSource) (query : List (List UInt8)) (rs : List QueryResult) : Prop :=
  ∃ docids : List HTKey, docids.Nodup ∧ (∀ docid, docid ∈ docids ↔ src.posted.Matches query docid) ∧
    List.Forall₂ (ResultFor src query) docids rs

/-- The results of all the indices, in the order of their ranks. -/
def FilesAnswer (srcs : List IndexSource) (query : List (List UInt8)) (results : List QueryResult) :
    Prop :=
  ∃ rss, List.Forall₂ (fun src rs => IndexResults src query rs) srcs rss ∧
    results.Perm rss.flatten ∧ results.Pairwise fun r r' => r'.rank ≤ r.rank

section Results

variable {src : IndexSource} {query : List (List UInt8)} {rs rs' : List QueryResult}

/-- A document with the words of a query is one of the table's. -/
theorem IndexSource.name_of_matches (hquery : query ≠ []) {docid : HTKey}
    (h : src.posted.Matches query docid) : ∃ name, src.name docid = some name := by
  obtain ⟨word, words, rfl⟩ := List.exists_cons_of_ne_nil hquery
  obtain ⟨xs, hxs⟩ := Option.isSome_iff_exists.1 (h word List.mem_cons_self)
  cases hlookup : src.mi.lookupWord word with
  | none =>
    rw [src.posted_of_none hlookup] at hxs
    cases hxs
  | some wds =>
    rw [src.posted_of_some hlookup, wds.docIDs.lookup_eq_some_iff] at hxs
    exact Option.isSome_iff_exists.1 (src.name_isSome hlookup hxs)

theorem IndexResults.length_eq (h : IndexResults src query rs) (h' : IndexResults src query rs') :
    rs.length = rs'.length := by
  obtain ⟨docids, hnodup, hmem, hall⟩ := h
  obtain ⟨docids', hnodup', hmem', hall'⟩ := h'
  have hperm : docids.Perm docids' := by
    rw [List.perm_ext_iff_of_nodup hnodup hnodup']
    intro docid
    rw [hmem, hmem']
  rw [← hall.length_eq, ← hall'.length_eq, hperm.length_eq]

theorem IndexResults.fits (h : IndexResults src query rs) {docid : HTKey}
    (hmatch : src.posted.Matches query docid) : src.posted.rank query docid < 2 ^ 32 := by
  obtain ⟨docids, -, hmem, hall⟩ := h
  obtain ⟨i, hi, rfl⟩ := List.getElem_of_mem ((hmem docid).2 hmatch)
  have hres := (List.forall₂_iff_get.1 hall).2 i hi (hall.length_eq ▸ hi)
  exact hres.2 ▸ UInt32.toNat_lt _

theorem IndexResults.not_matches (h : IndexResults src query []) (docid : HTKey) :
    ¬ src.posted.Matches query docid := by
  obtain ⟨docids, -, hmem, hall⟩ := h
  cases hall
  exact fun hmatch => absurd ((hmem docid).2 hmatch) List.not_mem_nil

theorem indexResults_nil (h : ∀ docid, ¬ src.posted.Matches query docid) :
    IndexResults src query [] :=
  ⟨[], List.nodup_nil, fun docid => iff_of_false List.not_mem_nil (h docid), .nil⟩

/-- The documents of the entries. -/
theorem Scored.exists_docids {ranks : Ranks} (h : Scored src query ranks) :
    ∃ docids : List HTKey, List.Forall₂ (fun docid kv => src.name docid = some kv.1 ∧
      src.posted.Matches query docid ∧ kv.2 = UInt32.ofNat (src.posted.rank query docid))
      docids ranks := by
  have hmem : ∀ kv ∈ ranks, ∃ docid, src.name docid = some kv.1 ∧
      src.posted.Matches query docid ∧ kv.2 = UInt32.ofNat (src.posted.rank query docid) :=
    fun kv hkv => (h.mem_iff kv.1 kv.2).1 hkv
  clear h
  induction ranks with
  | nil => exact ⟨[], .nil⟩
  | cons kv ranks ih =>
    obtain ⟨docid, hdocid⟩ := hmem kv List.mem_cons_self
    obtain ⟨docids, hall⟩ := ih fun kv' hkv' => hmem kv' (List.mem_cons_of_mem _ hkv')
    exact ⟨docid :: docids, .cons hdocid hall⟩

/-- The entries of the map are the results, if their ranks fit. -/
theorem Scored.indexResults {ranks : Ranks} (hquery : query ≠ []) (h : Scored src query ranks)
    (hfits : ∀ docid, src.posted.Matches query docid → src.posted.rank query docid < 2 ^ 32) :
    IndexResults src query (ranks.map fun kv => ⟨kv.1, kv.2⟩) := by
  obtain ⟨docids, hall⟩ := h.exists_docids
  have hnames : docids.map src.name = ranks.map fun kv => some kv.1 := by
    clear h hfits
    induction hall with
    | nil => rfl
    | cons hdocid _ ih => rw [List.map_cons, List.map_cons, hdocid.1, ih]
  have hnodup : (docids.map src.name).Nodup := by
    have hsome := h.nodup.map (Option.some_injective _)
    rw [List.map_map] at hsome
    rw [hnames]
    exact hsome
  refine ⟨docids, hnodup.of_map _, fun docid => ⟨fun hmem => ?_, fun hmatch => ?_⟩, ?_⟩
  · obtain ⟨i, hi, rfl⟩ := List.getElem_of_mem hmem
    exact ((List.forall₂_iff_get.1 hall).2 i hi (hall.length_eq ▸ hi)).2.1
  · obtain ⟨name, hname⟩ := src.name_of_matches hquery hmatch
    have hentry := (h.mem_iff name _).2 ⟨docid, hname, hmatch, rfl⟩
    have hname' : some name ∈ docids.map src.name := by
      rw [hnames]
      exact List.mem_map_of_mem hentry
    obtain ⟨docid', hdocid', heq⟩ := List.mem_map.1 hname'
    rwa [src.name_inj hname heq]
  · rw [List.forall₂_map_right_iff]
    refine hall.imp ?_
    rintro docid kv ⟨hname, hmatch, hrank⟩
    refine ⟨hname, ?_⟩
    rw [hrank, UInt32.toNat_ofNat_of_lt' (hfits docid hmatch)]

end Results

/-- When the results are right: a 32-bit counter must hold the number of files, or at
least none of those left out may have a document with every word; the ranks are 32-bit. -/
structure QueryFits (srcs : List IndexSource) (query : List (List UInt8)) : Prop where
  opened : u32 srcs.length ≠ 0
  rest : ∀ src ∈ srcs.drop (u32 srcs.length), ∀ docid, ¬ src.posted.Matches query docid
  fits : ∀ src ∈ srcs, ∀ docid, src.posted.Matches query docid →
    src.posted.rank query docid < 2 ^ 32

section Files

variable {std : StdSort QueryResult.lt} {disks : List Disk} {srcs : List IndexSource}
  {query : List (List UInt8)}

theorem queryFiles_error (validate : Bool) (h : u32 disks.length = 0) :
    queryFiles std validate disks query = .error .verify := by
  rw [queryFiles, queryProcessor, if_neg (by omega)]
  rfl

/-- What a query gives, file by file. -/
theorem queryFiles_ok (std : StdSort QueryResult.lt) (validate : Bool)
    (hwritten : List.Forall₂ WrittenFrom disks srcs) (hquery : query ≠ []) (h : u32 srcs.length ≠ 0) :
    ∃ rankss, List.Forall₂ (fun src ranks => Scored src query ranks)
        (srcs.take (u32 srcs.length)) rankss ∧
      queryFiles std validate disks query =
        .ok (std.sort (rankss.flatMap fun ranks => ranks.map fun kv => ⟨kv.1, kv.2⟩)) := by
  have hlen := hwritten.length_eq
  obtain ⟨opened, hopen, hserves⟩ :=
    mapM_openIndex (List.forall₂_take (u32 srcs.length) hwritten) validate
  obtain ⟨scored, hscore, hall⟩ := mapM_scoreWords hserves hquery
  refine ⟨scored.map Prod.fst, hall, ?_⟩
  rw [queryFiles, queryProcessor, hlen, if_pos (Nat.pos_of_ne_zero h), hopen]
  change processQuery std opened query = _
  rw [processQuery, if_pos (List.length_pos_of_ne_nil hquery), hscore, List.flatMap_map]
  rfl

theorem pairwise_sort (std : StdSort QueryResult.lt) (l : List QueryResult) :
    (std.sort l).Pairwise fun r r' => r'.rank ≤ r.rank := by
  refine (std.sorted l).imp fun {r r'} h => ?_
  rw [QueryResult.lt, decide_eq_false_iff_not, gt_iff_lt, UInt32.not_lt] at h
  exact h

theorem Scored.forall₂_indexResults {rankss : List Ranks} (hquery : query ≠ [])
    (h : List.Forall₂ (fun src ranks => Scored src query ranks) srcs rankss)
    (hfits : ∀ src ∈ srcs, ∀ docid, src.posted.Matches query docid →
      src.posted.rank query docid < 2 ^ 32) :
    List.Forall₂ (fun src rs => IndexResults src query rs) srcs
      (rankss.map fun ranks => ranks.map fun kv => ⟨kv.1, kv.2⟩) := by
  induction h with
  | nil => exact .nil
  | cons hscored _ ih =>
    refine .cons (hscored.indexResults hquery (hfits _ List.mem_cons_self)) (ih ?_)
    exact fun src hsrc => hfits src (List.mem_cons_of_mem _ hsrc)

theorem IndexResults.forall₂_length_eq {rss rss' : List (List QueryResult)}
    (h : List.Forall₂ (fun src rs => IndexResults src query rs) srcs rss)
    (h' : List.Forall₂ (fun src rs => IndexResults src query rs) srcs rss') :
    rss.flatten.length = rss'.flatten.length := by
  induction h generalizing rss' with
  | nil =>
    cases h'
    rfl
  | cons hrs _ ih =>
    cases h' with
    | cons hrs' hrest' =>
      rw [List.flatten_cons, List.flatten_cons, List.length_append, List.length_append, ih hrest',
        hrs.length_eq hrs']

theorem IndexResults.forall₂_fits {rss : List (List QueryResult)}
    (h : List.Forall₂ (fun src rs => IndexResults src query rs) srcs rss) :
    ∀ src ∈ srcs, ∀ docid, src.posted.Matches query docid →
      src.posted.rank query docid < 2 ^ 32 := by
  induction h with
  | nil => simp
  | cons hrs _ ih =>
    intro src hsrc docid hmatch
    rcases List.mem_cons.1 hsrc with rfl | hsrc
    · exact hrs.fits hmatch
    · exact ih src hsrc docid hmatch

theorem IndexResults.forall₂_not_matches {rss : List (List QueryResult)}
    (h : List.Forall₂ (fun src rs => IndexResults src query rs) srcs rss)
    (hnil : rss.flatten = []) : ∀ src ∈ srcs, ∀ docid, ¬ src.posted.Matches query docid := by
  induction h with
  | nil => simp
  | cons hrs _ ih =>
    rw [List.flatten_cons, List.append_eq_nil_iff] at hnil
    obtain ⟨rfl, hnil⟩ := hnil
    intro src hsrc
    rcases List.mem_cons.1 hsrc with rfl | hsrc
    · exact hrs.not_matches
    · exact ih hnil src hsrc

theorem forall₂_indexResults_nil (h : ∀ src ∈ srcs, ∀ docid, ¬ src.posted.Matches query docid) :
    List.Forall₂ (fun src rs => IndexResults src query rs) srcs (srcs.map fun _ => []) := by
  induction srcs with
  | nil => exact .nil
  | cons src srcs ih =>
    refine .cons (indexResults_nil (h src List.mem_cons_self)) (ih ?_)
    exact fun src' hsrc' => h src' (List.mem_cons_of_mem _ hsrc')

/-- The results are right where `QueryFits` says. -/
theorem QueryFits.filesAnswer (hfits : QueryFits srcs query) (validate : Bool)
    (hwritten : List.Forall₂ WrittenFrom disks srcs) (hquery : query ≠ []) :
    ∃ results, queryFiles std validate disks query = .ok results ∧
      FilesAnswer srcs query results := by
  obtain ⟨rankss, hscored, hrun⟩ := queryFiles_ok std validate hwritten hquery hfits.opened
  have htaken := Scored.forall₂_indexResults hquery hscored fun src hsrc =>
    hfits.fits src (List.mem_of_mem_take hsrc)
  have hall := List.rel_append htaken (forall₂_indexResults_nil hfits.rest)
  dsimp only at hall
  rw [List.take_append_drop] at hall
  refine ⟨_, hrun, _, hall, (std.perm _).trans ?_, pairwise_sort std _⟩
  rw [List.flatten_append, List.map_const', List.flatten_replicate_nil, List.append_nil,
    List.flatMap_def]

/-- And only there. -/
theorem QueryFits.of_filesAnswer {validate : Bool} (hwritten : List.Forall₂ WrittenFrom disks srcs)
    (hquery : query ≠ []) {results : List QueryResult}
    (hrun : queryFiles std validate disks query = .ok results)
    (hanswer : FilesAnswer srcs query results) : QueryFits srcs query := by
  obtain ⟨rss, hall, hperm, -⟩ := hanswer
  have hopened : u32 srcs.length ≠ 0 := by
    intro hzero
    rw [queryFiles_error validate (hwritten.length_eq ▸ hzero)] at hrun
    cases hrun
  have hfits := IndexResults.forall₂_fits hall
  obtain ⟨rankss, hscored, hrun'⟩ := queryFiles_ok std validate hwritten hquery hopened
  have htaken := Scored.forall₂_indexResults hquery hscored fun src hsrc =>
    hfits src (List.mem_of_mem_take hsrc)
  have hdropped := List.forall₂_drop (u32 srcs.length) hall
  refine ⟨hopened, IndexResults.forall₂_not_matches hdropped ?_, hfits⟩
  -- the files that are open give as many results as they should, which leaves none for the rest
  have hcount := IndexResults.forall₂_length_eq (List.forall₂_take (u32 srcs.length) hall) htaken
  rw [hrun'] at hrun
  cases hrun
  have htotal := hperm.symm.trans (std.perm _) |>.length_eq
  rw [List.flatMap_def, ← hcount, ← List.take_append_drop (u32 srcs.length) rss,
    List.flatten_append, List.length_append, List.take_append_drop] at htotal
  exact List.length_eq_zero_iff.1 (by omega)

end Files

end Courses.SearchEngine
