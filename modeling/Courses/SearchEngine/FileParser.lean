import Courses.SearchEngine.InvertedIndex
import Mathlib.Data.List.TakeWhile

/-!
# Parsing a file into its words

`hw2/fileparser.c`. `BuildWordHT` reads a file of ASCII text and builds a table of its
words, lower-cased, each with the offsets at which it starts. The loop cuts the words out of
the buffer in place; it records a word at the boundary after it, so the last word of a file
that ends in a letter is not recorded.
-/
namespace Courses.SearchEngine

open Courses.Lib Courses.Lib.AllocM

structure WordPositions where
  word : CString
  positions : LinkedList UInt32

/-- What `BuildWordHT` builds: a table of pointers to `WordPositions`. -/
abbrev WordTable := BoxTable WordPositions

/-- `isalpha` in the C locale. -/
def isalpha (c : UInt8) : Bool := (65 ≤ c && c ≤ 90) || (97 ≤ c && c ≤ 122)

/-- `tolower` in the C locale. -/
def tolower (c : UInt8) : UInt8 := if 65 ≤ c && c ≤ 90 then c + 32 else c

def ASCII_UPPER_BOUND : UInt8 := 0x7F

/-- The C string that starts the bytes. -/
def cString (bytes : List UInt8) : CString where
  bytes := bytes.takeWhile (· ≠ 0)
  nonul := by
    intro h
    simpa using List.mem_takeWhile_imp h

/-- `ReadFile`, on a file with the given bytes or one that cannot be read. The size it
returns is 32-bit, and the terminator is put there. -/
def readFile (file : Option (List UInt8)) : AllocM (Option (List UInt8)) := do
  match file with
  | none => return none
  | some bytes => if ← malloc then return some (bytes.take (u32 bytes.length)) else return none

def addToHashtable (tab : WordTable) (word : CString) (pos : UInt32) : AllocM WordTable := do
  let res ← lookupHashTable tab.table (wordKey word)
  if res.ret = 1 then
    let kv ← demand res.keyvalue
    let wp ← demand (tab.boxes kv.value)
    let (retval, positions) ← appendLinkedList wp.positions pos
    verify retval
    return tab.store kv.value { wp with positions := positions }
  else
    -- neither of the two results is looked at before it is written to
    let newstr ← malloc
    let wp ← malloc
    if newstr ∧ wp then
      let positions ← verifySome (← allocateLinkedList)
      let (retval, positions) ← appendLinkedList positions pos
      verify retval
      let (res, table) ← insertInto tab.table ⟨wordKey word, tab.fresh⟩
      verify (res.ret = 1)
      return { tab.place ⟨word, positions⟩ with table := table }
    else
      halt .fault

/-- The loop of `LoopAndInsert`; `curptr` and `wordstart` are offsets into the buffer, which
ends at its terminator. -/
def loopAndInsert : ℕ → WordTable → List UInt8 → ℕ → ℕ → AllocM WordTable
  | 0, _, _, _, _ => halt .fuel
  | fuel + 1, tab, content, curptr, wordstart => do
    let c := content.getD curptr 0
    if c = 0 then
      return tab
    else if isalpha c then
      loopAndInsert fuel tab (content.set curptr (tolower c)) (curptr + 1) wordstart
    else if isalpha (content.getD wordstart 0) then
      let content := content.set curptr 0
      let tab ← addToHashtable tab (cString (content.drop wordstart)) (UInt32.ofNat wordstart)
      loopAndInsert fuel tab content (curptr + 1) (curptr + 1)
    else
      loopAndInsert fuel tab content (curptr + 1) (curptr + 1)

/-- `BuildWordHT`; `none` stands for NULL. -/
def buildWordHT (file : Option (List UInt8)) : AllocM (Option WordTable) := do
  match ← readFile file with
  | none => return none
  | some filecontent =>
    if filecontent.length = 0 then
      return none
    else if filecontent.any fun c => c = 0 || c > ASCII_UPPER_BOUND then
      return none
    else
      -- every call on `tab` asserts that it is not NULL
      let table ← verifySome (← allocateHashTable 64)
      let tab ← loopAndInsert (filecontent.length + 1) ⟨table, fun _ => none, 1⟩ filecontent 0 0
      if numElementsInHashTable tab.table = 0 then
        freeHashTable tab.table
        return none
      else
        return some tab

/-- `FreeWordHT`. -/
def freeWordHT (tab : WordTable) : AllocM Unit := freeHashTable tab.table

/-! ## The words of a file -/

/-- The words recorded from here on, behind an unfinished word that began at `start`. -/
def wordsFrom (start : ℕ) (word : List UInt8) : List UInt8 → List (CString × UInt32)
  | [] => []
  | c :: rest =>
    if isalpha c then
      wordsFrom start (word ++ [tolower c]) rest
    else if word = [] then
      wordsFrom (start + 1) [] rest
    else
      (cString word, UInt32.ofNat start) :: wordsFrom (start + word.length + 1) [] rest

/-- A table of words: under the key of each, the word and where it occurs. -/
abbrev WordMap := FMap HTKey (CString × List UInt32)

/-- One more occurrence of a word. -/
def WordMap.record (m : WordMap) (token : CString × UInt32) : WordMap :=
  match m.lookup (wordKey token.1) with
  | none => m.insert (wordKey token.1) (token.1, [token.2])
  | some entry => m.insert (wordKey token.1) (entry.1, entry.2 ++ [token.2])

def WordPositions.Holds (wp : WordPositions) (entry : CString × List UInt32) : Prop :=
  wp.word = entry.1 ∧ ListHolds wp.positions entry.2

def WordsHold (tab : WordTable) (m : WordMap) : Prop :=
  ∃ ptrs recs, tab.HoldsAt ptrs recs ∧ FMapRel WordPositions.Holds recs m

theorem WordsHold.unique {tab : WordTable} {m m' : WordMap} (h : WordsHold tab m)
    (h' : WordsHold tab m') : m = m' := by
  obtain ⟨ptrs, recs, htab, hrel⟩ := h
  obtain ⟨ptrs', recs', htab', hrel'⟩ := h'
  obtain rfl := htab.table.unique htab'.table
  obtain rfl : recs = recs' := htab.boxes.unique
    (fun p r r' hr hr' => Option.some.inj (hr.symm.trans hr')) htab'.boxes
  refine hrel.unique (fun wp e e' he he' => ?_) hrel'
  exact Prod.ext (he.1.symm.trans he'.1) (he.2.unique he'.2)

/-- The words recorded for a text; there are none unless it is plain ASCII. -/
def textWords (text : List UInt8) : List (CString × UInt32) :=
  if text.any fun c => c = 0 || c > ASCII_UPPER_BOUND then [] else wordsFrom 0 [] text

/-- The words recorded for a file, with their offsets, in the order of the file. -/
def fileWords : Option (List UInt8) → List (CString × UInt32)
  | none => []
  | some bytes => textWords (bytes.take (u32 bytes.length))

def wordMap (tokens : List (CString × UInt32)) : WordMap := tokens.foldl WordMap.record ∅

theorem wordsFrom_length (start : ℕ) (word rest : List UInt8) :
    (wordsFrom start word rest).length ≤ rest.length := by
  induction rest generalizing start word with
  | nil => exact le_rfl
  | cons c rest ih =>
    rw [wordsFrom]
    split
    · exact (ih _ _).trans (Nat.le_succ _)
    · split
      · exact (ih _ _).trans (Nat.le_succ _)
      · exact Nat.succ_le_succ (ih _ _)

theorem textWords_length (text : List UInt8) : (textWords text).length ≤ text.length := by
  rw [textWords]
  split
  · exact Nat.zero_le _
  · exact wordsFrom_length 0 [] text

/-- The words of a file fit 32-bit counters, as its size does. -/
theorem fileWords_length (file : Option (List UInt8)) : (fileWords file).length < 2 ^ 32 := by
  cases file with
  | none => exact Nat.two_pow_pos 32
  | some bytes =>
    refine (textWords_length _).trans_lt ?_
    rw [List.length_take]
    exact (min_le_left _ _).trans_lt (Nat.mod_lt _ (Nat.two_pow_pos 32))

namespace WordMap

variable {m : WordMap} {key : HTKey} {token : CString × UInt32}

theorem lookup_record : (m.record token).lookup (wordKey token.1) =
    some (((m.lookup (wordKey token.1)).map fun entry => (entry.1, entry.2 ++ [token.2])).getD
      (token.1, [token.2])) := by
  rw [record]
  split <;> simp [*]

theorem lookup_record_of_ne (h : key ≠ wordKey token.1) :
    (m.record token).lookup key = m.lookup key := by
  rw [record]
  split <;> exact Finmap.lookup_insert_of_ne _ h

theorem record_wordMap (tokens : List (CString × UInt32)) :
    (wordMap tokens).record token = wordMap (tokens ++ [token]) := by
  rw [wordMap, wordMap, List.foldl_append]
  rfl

/-- Under a key the map has the first word with it, and where the words with it are. -/
theorem lookup_wordMap (tokens : List (CString × UInt32)) (key : HTKey) :
    (wordMap tokens).lookup key = (tokens.find? fun t => wordKey t.1 = key).map fun t =>
      (t.1, (tokens.filter fun t => wordKey t.1 = key).map Prod.snd) := by
  induction tokens using List.reverseRecOn with
  | nil => rfl
  | append_singleton tokens token ih =>
    rw [← record_wordMap, List.find?_append, List.filter_append, List.find?_singleton]
    by_cases hkey : wordKey token.1 = key
    · rw [← hkey, lookup_record, hkey, ih]
      cases hfind : tokens.find? fun t => wordKey t.1 = key with
      | none =>
        have hnone : (tokens.filter fun t => wordKey t.1 = key) = [] := by
          rw [List.filter_eq_nil_iff]
          exact List.find?_eq_none.1 hfind
        simp [hnone, hkey]
      | some t => simp [hkey]
    · rw [lookup_record_of_ne (Ne.symm hkey), ih]
      simp [hkey]

theorem keys_wordMap (tokens : List (CString × UInt32)) :
    (wordMap tokens).keys = (tokens.map fun t => wordKey t.1).toFinset := by
  ext key
  rw [Finmap.mem_keys, ← Finmap.lookup_isSome, lookup_wordMap, Option.isSome_map,
    List.find?_isSome, List.mem_toFinset, List.mem_map]
  simp

theorem card_keys_wordMap (tokens : List (CString × UInt32)) :
    (wordMap tokens).keys.card ≤ tokens.length := by
  rw [keys_wordMap]
  refine (List.toFinset_card_le _).trans ?_
  rw [List.length_map]

theorem length_of_lookup_wordMap {tokens : List (CString × UInt32)} {entry : CString × List UInt32}
    (h : (wordMap tokens).lookup key = some entry) : entry.2.length ≤ tokens.length := by
  rw [lookup_wordMap, Option.map_eq_some_iff] at h
  obtain ⟨t, -, rfl⟩ := h
  rw [List.length_map]
  exact List.length_filter_le _ _

end WordMap

/-! ## Building the table -/

theorem returns_addToHashtable {tab : WordTable} {m : WordMap} {word : CString}
    (h : WordsHold tab m) (pos : UInt32) (hwords : m.keys.card + 1 < 2 ^ 32)
    (hpositions : ∀ entry, m.lookup (wordKey word) = some entry → entry.2.length + 1 < 2 ^ 32) :
    Returns (addToHashtable tab word pos) fun r => WordsHold r (m.record (word, pos)) := by
  obtain ⟨ptrs, recs, htab, hrel⟩ := h
  refine (returns_lookupHashTable htab.table (wordKey word)).bind_eq ?_
  cases hlookup : m.lookup (wordKey word) with
  | none =>
    have hptrs := htab.boxes.of_none (hrel.of_none hlookup)
    rw [lookupAnswer, hptrs, if_neg (by simp)]
    apply returns_malloc_bind
    apply returns_malloc_bind
    rw [if_pos ⟨rfl, rfl⟩]
    refine LinkedList.returns_allocateLinkedList.bind ?_
    rintro _ ⟨list, rfl, hlist⟩
    refine (returns_verifySome rfl).bind_eq ?_
    refine (LinkedList.returns_appendLinkedList hlist (by decide) pos).bind ?_
    rintro ⟨_, positions⟩ ⟨rfl, hpos⟩
    refine (returns_verify rfl).bind fun _ _ => ?_
    have hcard : ptrs.keys.card + 1 < 2 ^ 32 := by
      rw [htab.boxes.card_keys, hrel.card_keys]
      exact hwords
    refine (returns_insertInto htab.table hcard ⟨wordKey word, tab.fresh⟩).bind ?_
    rintro ⟨answer, table⟩ ⟨hanswer, htable⟩
    dsimp only at hanswer htable ⊢
    rw [hanswer, insertAnswer_of_none hptrs]
    refine (returns_verify rfl).bind fun _ _ => returns_pure ?_
    rw [WordMap.record, hlookup]
    exact ⟨_, _, htab.insert (wordKey word) _ htable, hrel.insert _ ⟨rfl, _, hpos, rfl⟩⟩
  | some entry =>
    obtain ⟨wp, hwp, hword, nodes, hnodes, hpayloads⟩ := hrel.of_some hlookup
    obtain ⟨p, hp, hbox⟩ := htab.box hwp
    have hlen : nodes.length + 1 < 2 ^ 32 := by
      have := hpositions entry hlookup
      rwa [← hpayloads, List.length_map] at this
    rw [lookupAnswer, hp, if_pos rfl]
    refine (returns_demand rfl).bind_eq ((returns_demand hbox).bind_eq ?_)
    refine (LinkedList.returns_appendLinkedList hnodes hlen pos).bind ?_
    rintro ⟨_, positions⟩ ⟨rfl, hpos⟩
    refine (returns_verify rfl).bind fun _ _ => returns_pure ?_
    rw [WordMap.record, hlookup]
    refine ⟨_, _, htab.store hp _, hrel.insert _ ⟨hword, _, hpos, ?_⟩⟩
    rw [List.map_append, hpayloads]
    rfl

theorem isalpha_tolower {c : UInt8} (h : isalpha c = true) : isalpha (tolower c) = true := by
  rw [tolower]
  split
  · rename_i hupper
    simp only [isalpha, Bool.and_eq_true, Bool.or_eq_true, decide_eq_true_eq,
      UInt8.le_iff_toNat_le, UInt8.toNat_add, UInt8.reduceToNat] at hupper ⊢
    omega
  · exact h

theorem ne_zero_of_isalpha {c : UInt8} (h : isalpha c = true) : c ≠ 0 := by
  rintro rfl
  cases h

theorem cString_word {word : List UInt8} (hword : ∀ c ∈ word, isalpha c = true)
    (rest : List UInt8) : cString (word ++ 0 :: rest) = cString word := by
  have hne : ∀ c ∈ word, decide (c ≠ 0) = true := fun c hc =>
    decide_eq_true (ne_zero_of_isalpha (hword c hc))
  have hleft : (word ++ 0 :: rest).takeWhile (· ≠ 0) = word := by
    rw [List.takeWhile_append_of_pos hne]
    simp
  have hright : word.takeWhile (· ≠ 0) = word := List.takeWhile_eq_self_iff.2 hne
  simp only [cString, hleft, hright]

/-- The loop at the start of `rest`, behind the letters `word` of an unfinished word. -/
theorem returns_loopAndInsert {rest front word : List UInt8} {tab : WordTable}
    {tokens : List (CString × UInt32)} {fuel : ℕ} (hword : ∀ c ∈ word, isalpha c = true)
    (hrest : 0 ∉ rest) (hfuel : rest.length < fuel) (htab : WordsHold tab (wordMap tokens))
    (hfits : tokens.length + (wordsFrom front.length word rest).length < 2 ^ 32) :
    Returns (loopAndInsert fuel tab (front ++ word ++ rest) (front.length + word.length) front.length)
      fun r => WordsHold r (wordMap (tokens ++ wordsFrom front.length word rest)) := by
  obtain _ | fuel := fuel
  · exact absurd hfuel (Nat.not_lt_zero _)
  induction rest generalizing front word tab tokens fuel with
  | nil =>
    have hend : (front ++ word ++ []).getD (front.length + word.length) 0 = 0 := by simp
    rw [loopAndInsert, hend, if_pos rfl]
    apply returns_pure
    rw [wordsFrom, List.append_nil]
    exact htab
  | cons c rest ih =>
    have hc : (front ++ word ++ c :: rest).getD (front.length + word.length) 0 = c := by
      rw [← List.length_append, List.getD_eq_getElem?_getD, List.getElem?_append_right le_rfl]
      simp
    have hset (x : UInt8) : (front ++ word ++ c :: rest).set (front.length + word.length) x =
        front ++ word ++ x :: rest := by
      rw [← List.length_append, List.set_append_right _ _ le_rfl]
      simp
    have hzero : c ≠ 0 := fun h => hrest (h ▸ List.mem_cons_self)
    have hrest' : 0 ∉ rest := fun h => hrest (List.mem_cons_of_mem _ h)
    rw [List.length_cons] at hfuel
    obtain _ | fuel := fuel
    · omega
    have hfuel' : rest.length < fuel + 1 := by omega
    rw [loopAndInsert, hc, if_neg hzero]
    rw [wordsFrom] at hfits ⊢
    by_cases halpha : isalpha c = true
    · -- a letter goes to the word
      rw [if_pos halpha] at hfits ⊢
      rw [if_pos halpha, hset]
      have hword' : ∀ d ∈ word ++ [tolower c], isalpha d = true := by
        intro d hd
        rcases List.mem_append.1 hd with hd | hd
        · exact hword d hd
        · rw [List.mem_singleton.1 hd]
          exact isalpha_tolower halpha
      have hrun := ih hword' hrest' htab hfits _ hfuel'
      rw [List.length_append, List.length_singleton] at hrun
      simpa [Nat.add_assoc] using hrun
    · rw [if_neg halpha] at hfits ⊢
      rw [if_neg halpha]
      by_cases hnil : word = []
      · -- between words
        subst hnil
        rw [if_pos rfl] at hfits ⊢
        rw [List.append_nil, List.length_nil, Nat.add_zero] at hc
        rw [List.append_nil, List.length_nil, Nat.add_zero, hc, if_neg halpha]
        have hlen : (front ++ [c]).length = front.length + 1 := by simp
        rw [← hlen] at hfits ⊢
        have hrun := ih (by simp) hrest' htab hfits _ hfuel'
        simpa using hrun
      · -- the end of a word
        obtain ⟨a, as, rfl⟩ := List.exists_cons_of_ne_nil hnil
        have hstart : (front ++ a :: as ++ c :: rest).getD front.length 0 = a := by
          rw [List.append_assoc, List.getD_eq_getElem?_getD, List.getElem?_append_right le_rfl]
          simp
        rw [if_neg hnil] at hfits ⊢
        rw [hstart, if_pos (hword a List.mem_cons_self), hset]
        have hdrop : (front ++ a :: as ++ 0 :: rest).drop front.length = a :: as ++ 0 :: rest := by
          rw [List.append_assoc, List.drop_left]
        dsimp only
        rw [hdrop, cString_word hword]
        rw [List.length_cons] at hfits
        have hcard := WordMap.card_keys_wordMap tokens
        refine (returns_addToHashtable htab _ (by omega) fun entry hentry => ?_).bind ?_
        · have := WordMap.length_of_lookup_wordMap hentry
          omega
        · intro tab' htab'
          rw [WordMap.record_wordMap] at htab'
          have hlen : (front ++ a :: as ++ [0]).length = front.length + (a :: as).length + 1 := by
            simp [Nat.add_assoc]
          have hfits' : (tokens ++ [(cString (a :: as), UInt32.ofNat front.length)]).length +
              (wordsFrom (front ++ a :: as ++ [0]).length [] rest).length < 2 ^ 32 := by
            rw [hlen, List.length_append, List.length_singleton]
            omega
          have hrun := ih (by simp) hrest' htab' hfits' _ hfuel'
          rw [hlen] at hrun
          simpa [Nat.add_assoc] using hrun

/-- A word table holds at least one word. -/
def TableHolds (tab : Option WordTable) (tokens : List (CString × UInt32)) : Prop :=
  match tab with
  | none => tokens = []
  | some tab => tokens ≠ [] ∧ WordsHold tab (wordMap tokens)

theorem WordsHold.numElements_eq_zero {tab : WordTable} {tokens : List (CString × UInt32)}
    (h : WordsHold tab (wordMap tokens)) :
    numElementsInHashTable tab.table = 0 ↔ tokens = [] := by
  obtain ⟨ptrs, recs, htab, hrel⟩ := h
  have hcard : (numElementsInHashTable tab.table).toNat = (wordMap tokens).keys.card := by
    rw [numElementsInHashTable, htab.table.numElements, htab.boxes.card_keys, hrel.card_keys]
  rw [← UInt32.toNat_inj, hcard, WordMap.keys_wordMap, UInt32.toNat_zero, Finset.card_eq_zero]
  simp

/-- `BuildWordHT` records the words of the file, or returns NULL where there are none. -/
theorem returns_buildWordHT (file : Option (List UInt8)) :
    Returns (buildWordHT file) fun r => TableHolds r (fileWords file) := by
  cases file with
  | none =>
    have hread : Returns (readFile none) fun r => r = none := returns_pure rfl
    exact hread.bind_eq (returns_pure rfl)
  | some bytes =>
    have hfits := fileWords_length (some bytes)
    have hread : Returns (readFile (some bytes)) fun r =>
        r = some (bytes.take (u32 bytes.length)) := returns_malloc_bind (returns_pure rfl)
    refine hread.bind_eq ?_
    rw [fileWords] at hfits ⊢
    generalize bytes.take (u32 bytes.length) = text at hfits
    dsimp only
    by_cases hempty : text.length = 0
    · rw [if_pos hempty]
      apply returns_pure
      rw [List.length_eq_zero_iff.1 hempty]
      rfl
    rw [if_neg hempty]
    rw [textWords] at hfits ⊢
    by_cases hascii : text.any (fun c => c = 0 || c > ASCII_UPPER_BOUND) = true
    · rw [if_pos hascii, if_pos hascii]
      exact returns_pure rfl
    rw [if_neg hascii] at hfits ⊢
    rw [if_neg hascii]
    have hnonul : 0 ∉ text := fun hmem => hascii (List.any_eq_true.2 ⟨0, hmem, by simp⟩)
    refine (returns_allocateHashTable (by decide)).bind ?_
    rintro _ ⟨table, rfl, htable, -⟩
    refine (returns_verifySome rfl).bind_eq ?_
    have hstart : WordsHold ⟨table, fun _ => none, 1⟩ (wordMap []) := by
      refine ⟨∅, ∅, ⟨htable, .empty, ?_, ?_⟩, .empty⟩
      · intro k p hp
        rw [Finmap.lookup_empty] at hp
        cases hp
      · intro k k' p hp
        rw [Finmap.lookup_empty] at hp
        cases hp
    have hloop : Returns (loopAndInsert (text.length + 1) ⟨table, fun _ => none, 1⟩
        ([] ++ [] ++ text) 0 0) fun r => WordsHold r (wordMap ([] ++ wordsFrom 0 [] text)) :=
      returns_loopAndInsert (fun _ hc => absurd hc List.not_mem_nil) hnonul (Nat.lt_succ_self _)
        hstart (by simpa using hfits)
    refine hloop.bind fun tab htab => ?_
    by_cases hzero : numElementsInHashTable tab.table = 0
    · rw [if_pos hzero]
      have hnone := htab.numElements_eq_zero.1 hzero
      obtain ⟨_, _, hholds, -⟩ := htab
      obtain ⟨cs, hcs, -⟩ := hholds.table
      exact (returns_freeHashTable hcs).bind fun _ _ => returns_pure hnone
    · rw [if_neg hzero]
      exact returns_pure ⟨mt htab.numElements_eq_zero.2 hzero, htab⟩

end Courses.SearchEngine
