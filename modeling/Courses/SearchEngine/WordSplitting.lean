import Courses.Lib.Intervals
import Courses.SearchEngine.FileCrawler

/-!
# Which words of a file are recorded

The words of a text are its maximal runs of letters, lower-cased. `BuildWordHT` is compared
with them: its loop records a run when it meets the boundary behind it, so a run that reaches
the end of the text is left out, and of a file of 4 GiB or more it reads only a part.
-/
namespace Courses.SearchEngine

open Courses.Lib Courses.Lib.AllocM

/-- There is a letter at offset `i`. -/
def LetterAt (text : List UInt8) (i : ℕ) : Prop := isalpha (text.getD i 0) = true

/-- A part of a text, lower-cased. -/
def lowered (text : List UInt8) (start length : ℕ) : List UInt8 :=
  ((text.drop start).take length).map tolower

/-- `word` is a maximal run of letters, lower-cased, that begins at `start`. -/
def WordAt (text : List UInt8) (word : CString) (start : ℕ) : Prop :=
  ∃ length, MaximalRun (LetterAt text) start length ∧ word.bytes = lowered text start length

/-- What `BuildWordHT` should return for a file of plain ASCII. -/
structure SplitsWords (text : List UInt8) (tab : Option WordTable) : Prop where
  null : tab = none ↔ text = [] ∨ ∀ c ∈ text, isalpha c = false
  table : ∀ t, tab = some t → ∃ m : WordMap, WordsHold t m ∧
    (∀ word, (∃ i, WordAt text word i) ↔ ∃ xs, m.lookup (wordKey word) = some (word, xs)) ∧
    ∀ key word xs, m.lookup key = some (word, xs) → key = wordKey word ∧
      xs.Pairwise (· < ·) ∧ ∀ i : ℕ, i ∈ xs.map UInt32.toNat ↔ WordAt text word i

/-! ## Runs of letters -/

section Letters

variable {text : List UInt8} {i start length : ℕ} {word : CString}

theorem LetterAt.lt (h : LetterAt text i) : i < text.length := by
  by_contra hle
  rw [LetterAt, List.getD_eq_default _ _ (not_lt.1 hle)] at h
  cases h

theorem letterAt_iff : LetterAt text i ↔ ∃ c, text[i]? = some c ∧ isalpha c = true := by
  rw [LetterAt, List.getD_eq_getElem?_getD]
  cases text[i]? with
  | none => simp [isalpha]
  | some c => simp

theorem letterAt_take {k : ℕ} (hi : i < k) : LetterAt (text.take k) i ↔ LetterAt text i := by
  rw [letterAt_iff, letterAt_iff, List.getElem?_take_of_lt hi]

theorem forall_not_letterAt : (∀ i, ¬ LetterAt text i) ↔ ∀ c ∈ text, isalpha c = false := by
  constructor
  · intro h c hc
    obtain ⟨i, hi⟩ := List.getElem?_of_mem hc
    by_contra halpha
    exact h i (letterAt_iff.2 ⟨c, hi, by simpa using halpha⟩)
  · intro h i hi
    obtain ⟨c, hc, halpha⟩ := letterAt_iff.1 hi
    rw [h c (List.mem_of_getElem? hc)] at halpha
    cases halpha

theorem isalpha_of_mem_lowered (h : MaximalRun (LetterAt text) start length) :
    ∀ c ∈ lowered text start length, isalpha c = true := by
  intro c hc
  obtain ⟨d, hd, rfl⟩ := List.mem_map.1 hc
  obtain ⟨j, hj⟩ := List.getElem?_of_mem hd
  have hlt : j < length := by
    by_contra hle
    rw [List.getElem?_take_eq_none (not_lt.1 hle)] at hj
    cases hj
  rw [List.getElem?_take_of_lt hlt, List.getElem?_drop] at hj
  obtain ⟨c, hc, halpha⟩ := letterAt_iff.1 (h.inside (start + j) (by omega) (by omega))
  cases hj.symm.trans hc
  exact isalpha_tolower halpha

theorem bytes_cString {word : List UInt8} (h : ∀ c ∈ word, isalpha c = true) :
    (cString word).bytes = word :=
  List.takeWhile_eq_self_iff.2 fun c hc => decide_eq_true (ne_zero_of_isalpha (h c hc))

theorem eq_cString_iff (h : MaximalRun (LetterAt text) start length) :
    word = cString (lowered text start length) ↔ word.bytes = lowered text start length := by
  have hbytes := bytes_cString (isalpha_of_mem_lowered h)
  constructor
  · rintro rfl
    exact hbytes
  · intro heq
    cases word
    cases heq.trans hbytes.symm
    rfl

end Letters

/-! ## What the loop records -/

/-- `word` begins at `start`, and the boundary behind it is in the text. -/
def Bounded (text : List UInt8) (word : CString) (start : ℕ) : Prop :=
  ∃ length, MaximalRun (LetterAt text) start length ∧ start + length < text.length ∧
    word.bytes = lowered text start length

/-- The words recorded from here on are those that begin at or behind the unfinished one. -/
theorem mem_wordsFrom {text rest word : List UInt8} {start : ℕ} {token : CString × UInt32}
    (hrest : text.drop (start + word.length) = rest) (hword : word = lowered text start word.length)
    (hletters : ∀ j, start ≤ j → j < start + word.length → LetterAt text j)
    (hbefore : start = 0 ∨ ¬ LetterAt text (start - 1)) :
    token ∈ wordsFrom start word rest ↔
      ∃ i, start ≤ i ∧ Bounded text token.1 i ∧ token.2 = UInt32.ofNat i := by
  induction rest generalizing start word with
  | nil =>
    have hlen : text.length ≤ start + word.length := List.drop_eq_nil_iff.1 hrest
    constructor
    · intro hmem
      cases hmem
    · -- a boundary behind the run would be a letter
      rintro ⟨i, hi, ⟨n, hrun, hlt, -⟩, -⟩
      exact absurd (hletters _ (by omega) (by omega)) hrun.after
  | cons c rest ih =>
    have hc : text[start + word.length]? = some c := by
      rw [← List.head?_drop, hrest]
      rfl
    have hrest' : text.drop (start + word.length + 1) = rest := by
      rw [← List.tail_drop, hrest]
      rfl
    have hlt : start + word.length < text.length := (List.getElem?_eq_some_iff.1 hc).1
    rw [wordsFrom]
    by_cases halpha : isalpha c = true
    · rw [if_pos halpha]
      have hlen : (word ++ [tolower c]).length = word.length + 1 := by simp
      refine ih (by rwa [hlen]) ?_ ?_ hbefore
      · rw [hlen, lowered, List.take_add_one, List.map_append, List.getElem?_drop, hc]
        exact congrArg (· ++ [tolower c]) hword
      · intro j hj hjlt
        rw [hlen] at hjlt
        by_cases hlast : j = start + word.length
        · exact letterAt_iff.2 ⟨c, hlast ▸ hc, halpha⟩
        · exact hletters j hj (by omega)
    · rw [if_neg halpha]
      have hstop : ¬ LetterAt text (start + word.length) := by
        rw [letterAt_iff]
        rintro ⟨d, hd, hdalpha⟩
        cases hc.symm.trans hd
        exact halpha hdalpha
      have hnext : token ∈ wordsFrom (start + word.length + 1) [] rest ↔ _ :=
        ih hrest' rfl (fun j hj hjlt => absurd hjlt (not_lt.2 hj)) (.inr hstop)
      by_cases hnil : word = []
      · subst hnil
        rw [List.length_nil, Nat.add_zero] at hnext hstop
        rw [if_pos rfl, hnext]
        refine exists_congr fun i => and_congr_left ?_
        rintro ⟨⟨n, hrun, -⟩, -⟩
        -- no run begins at a boundary
        have hne : i ≠ start := by
          rintro rfl
          exact hstop (hrun.inside _ le_rfl (Nat.lt_add_of_pos_right hrun.pos))
        omega
      · have hpos : 0 < word.length := List.length_pos_iff.2 hnil
        have hrun : MaximalRun (LetterAt text) start word.length := ⟨hpos, hletters, hbefore, hstop⟩
        rw [if_neg hnil, List.mem_cons, hnext]
        constructor
        · rintro (rfl | ⟨i, hi, hrest⟩)
          · refine ⟨start, le_rfl, ⟨word.length, hrun, hlt, ?_⟩, rfl⟩
            rw [← eq_cString_iff hrun, ← hword]
          · exact ⟨i, by omega, hrest⟩
        · rintro ⟨i, hi, ⟨n, hrun', hin, hbytes⟩, htoken⟩
          rcases hrun'.le_of_before hletters hi with rfl | hbehind
          · -- the unfinished word itself
            left
            obtain rfl := hrun.length_unique hrun'
            rw [← eq_cString_iff hrun, ← hword] at hbytes
            exact Prod.ext hbytes htoken
          · exact .inr ⟨i, by omega, ⟨n, hrun', hin, hbytes⟩, htoken⟩

theorem le_of_mem_wordsFrom {rest word : List UInt8} {start : ℕ} {token : CString × UInt32}
    (hlen : start + word.length + rest.length ≤ 2 ^ 32) (h : token ∈ wordsFrom start word rest) :
    start ≤ token.2.toNat := by
  induction rest generalizing start word with
  | nil => cases h
  | cons c rest ih =>
    rw [List.length_cons] at hlen
    rw [wordsFrom] at h
    split at h
    · refine ih ?_ h
      rw [List.length_append, List.length_singleton]
      omega
    · split at h
      · have := ih (by rw [List.length_nil]; omega) h
        omega
      · rcases List.mem_cons.1 h with rfl | h
        · rw [UInt32.toNat_ofNat_of_lt' (by change start < 2 ^ 32; omega)]
        · have := ih (by rw [List.length_nil]; omega) h
          omega

/-- The words are recorded in the order in which they begin. -/
theorem pairwise_wordsFrom {rest word : List UInt8} {start : ℕ}
    (hlen : start + word.length + rest.length ≤ 2 ^ 32) :
    (wordsFrom start word rest).Pairwise fun t t' => t.2 < t'.2 := by
  induction rest generalizing start word with
  | nil => exact .nil
  | cons c rest ih =>
    rw [List.length_cons] at hlen
    rw [wordsFrom]
    split
    · refine ih ?_
      rw [List.length_append, List.length_singleton]
      omega
    · split
      · exact ih (by rw [List.length_nil]; omega)
      · have hlen' : start + word.length + 1 + ([] : List UInt8).length + rest.length ≤ 2 ^ 32 := by
          rw [List.length_nil]
          omega
        refine .cons (fun t ht => ?_) (ih hlen')
        have := le_of_mem_wordsFrom hlen' ht
        rw [UInt32.lt_iff_toNat_lt, UInt32.toNat_ofNat_of_lt' (by change start < 2 ^ 32; omega)]
        omega

/-! ## All words, or not -/

section Splits

variable {text : List UInt8} {word : CString} {i k : ℕ}

theorem lowered_take {start length : ℕ} (h : start + length ≤ k) :
    lowered (text.take k) start length = lowered text start length := by
  rw [lowered, lowered, List.drop_take, List.take_take, min_eq_left (by omega)]

/-- What is recorded from the first `k` bytes is a word of the whole text. -/
theorem Bounded.wordAt (h : Bounded (text.take k) word i) : WordAt text word i ∧ i < k := by
  obtain ⟨n, hrun, hlt, hbytes⟩ := h
  have hk := hlt.trans_le (List.length_take_le k text)
  refine ⟨⟨n, hrun.congr fun j hj => letterAt_take (by omega), ?_⟩, by omega⟩
  rw [hbytes, lowered_take hk.le]

/-- Without a letter at the end of the first `k` bytes or behind them, all words are recorded. -/
theorem WordAt.bounded (hk : k ≤ text.length) (hend : ∀ j, k - 1 ≤ j → ¬ LetterAt text j)
    (h : WordAt text word i) : Bounded (text.take k) word i := by
  obtain ⟨n, hrun, hbytes⟩ := h
  have hpos := hrun.pos
  have hlt : i + n < k := by
    by_contra hle
    exact hend (i + n - 1) (by omega) (hrun.inside _ (by omega) (by omega))
  refine ⟨n, hrun.congr fun j hj => (letterAt_take (by omega)).symm, ?_, ?_⟩
  · rwa [List.length_take, min_eq_left hk]
  · rw [hbytes, lowered_take hlt.le]

theorem exists_wordAt (h : LetterAt text i) :
    ∃ (word : CString) (start n : ℕ), MaximalRun (LetterAt text) start n ∧
      word.bytes = lowered text start n ∧ start ≤ i ∧ i < start + n := by
  obtain ⟨start, n, hrun, hle, hlt⟩ := exists_maximalRun h
    (fun j hj hletter => absurd hletter.lt (not_lt.2 hj) : ∀ j, text.length ≤ j → ¬ LetterAt text j)
  exact ⟨_, start, n, hrun, bytes_cString (isalpha_of_mem_lowered hrun), hle, hlt⟩

/-- The words recorded for a file of plain ASCII. -/
theorem mem_fileWords (hascii : ∀ c ∈ text, c ≠ 0 ∧ c ≤ ASCII_UPPER_BOUND)
    {token : CString × UInt32} : token ∈ fileWords (some text) ↔
      ∃ i, Bounded (text.take (u32 text.length)) token.1 i ∧ token.2 = UInt32.ofNat i := by
  have hplain : ¬ (text.take (u32 text.length)).any (fun c => c = 0 || c > ASCII_UPPER_BOUND) := by
    rw [List.any_eq_true]
    rintro ⟨c, hc, hbad⟩
    obtain ⟨hzero, hle⟩ := hascii c (List.mem_of_mem_take hc)
    simp only [hzero, decide_false, Bool.false_or, decide_eq_true_eq] at hbad
    exact absurd hbad (UInt8.not_lt.2 hle)
  rw [fileWords, textWords, if_neg hplain]
  have hmem : token ∈ wordsFrom 0 [] (text.take (u32 text.length)) ↔ _ :=
    mem_wordsFrom rfl rfl (fun j hj hlt => absurd hlt (not_lt.2 hj)) (.inl rfl)
  simpa using hmem

theorem pairwise_fileWords (text : List UInt8) :
    (fileWords (some text)).Pairwise fun t t' => t.2 < t'.2 := by
  rw [fileWords, textWords]
  split
  · exact .nil
  · apply pairwise_wordsFrom
    rw [List.length_nil, List.length_take, Nat.zero_add]
    exact (min_le_left _ _).trans (Nat.mod_lt _ (Nat.two_pow_pos 32)).le

end Splits

section Complete

variable {text : List UInt8} {file : SourceFile} {word : CString}
  (hascii : ∀ c ∈ text, c ≠ 0 ∧ c ≤ ASCII_UPPER_BOUND)
  (hend : ∀ i, u32 text.length - 1 ≤ i → ¬ LetterAt text i)
include hascii hend

theorem wordAt_iff_mem_fileWords {i : ℕ} :
    WordAt text word i ↔ ∃ pos, (word, pos) ∈ fileWords (some text) ∧ pos.toNat = i := by
  have hk : u32 text.length < 2 ^ 32 := Nat.mod_lt _ (Nat.two_pow_pos 32)
  constructor
  · intro h
    have hbounded := h.bounded (Nat.mod_le _ _) hend
    refine ⟨_, (mem_fileWords hascii).2 ⟨i, hbounded, rfl⟩, ?_⟩
    exact UInt32.toNat_ofNat_of_lt' (hbounded.wordAt.2.trans hk)
  · rintro ⟨pos, hmem, rfl⟩
    obtain ⟨j, hbounded, hpos⟩ := (mem_fileWords hascii).1 hmem
    dsimp only at hpos
    obtain ⟨hword, hj⟩ := hbounded.wordAt
    rwa [hpos, UInt32.toNat_ofNat_of_lt' (hj.trans hk)]

theorem mem_occurrences (hfile : file.contents = some text) (i : ℕ) :
    i ∈ (file.occurrences word).map UInt32.toNat ↔ WordAt text word i := by
  rw [wordAt_iff_mem_fileWords hascii hend, SourceFile.occurrences, hfile]
  simp

theorem splitsWords_of_tableHolds (hinj : Set.InjOn wordKey {word | ∃ i, WordAt text word i})
    {tab : Option WordTable} (h : TableHolds tab (fileWords (some text))) : SplitsWords text tab := by
  let file : SourceFile := ⟨cString [], some text⟩
  have hwords (word : CString) : word ∈ allWords [file] ↔ ∃ i, WordAt text word i := by
    simp [wordAt_iff_mem_fileWords hascii hend, allWords, file]
  have hinj' : Set.InjOn wordKey {w | w ∈ allWords [file]} := by
    intro w hw w' hw'
    exact hinj ((hwords w).1 hw) ((hwords w').1 hw')
  have hmem : file ∈ [file] := List.mem_singleton_self file
  constructor
  · have hnil : fileWords (some text) = [] ↔ ∀ c ∈ text, isalpha c = false := by
      rw [← forall_not_letterAt]
      constructor
      · intro hnil i hletter
        obtain ⟨word, start, n, hrun, hbytes, -⟩ := exists_wordAt hletter
        obtain ⟨pos, hpos, -⟩ := (wordAt_iff_mem_fileWords hascii hend).1 ⟨n, hrun, hbytes⟩
        rw [hnil] at hpos
        cases hpos
      · intro hnone
        by_contra hne
        obtain ⟨token, htoken⟩ := List.exists_mem_of_ne_nil _ hne
        obtain ⟨n, hrun, -⟩ := (wordAt_iff_mem_fileWords hascii hend).2 ⟨token.2, htoken, rfl⟩
        exact hnone _ (hrun.inside _ le_rfl (Nat.lt_add_of_pos_right hrun.pos))
    have hempty : text = [] → ∀ c ∈ text, isalpha c = false := by
      rintro rfl c hc
      cases hc
    cases tab with
    | none => exact ⟨fun _ => .inr (hnil.1 h), fun _ => rfl⟩
    | some tab =>
      exact ⟨fun hnull => absurd hnull (by simp), fun hnone => absurd (hnil.2 (hnone.elim hempty id)) h.1⟩
  · rintro tab rfl
    refine ⟨file.words, h.2, fun word => ?_, fun key word xs hlookup => ?_⟩
    · constructor
      · rintro ⟨i, hi⟩
        refine ⟨_, (lookup_words_iff hinj' hmem).2 ⟨rfl, fun hnil => ?_⟩⟩
        have hpos : i ∈ (file.occurrences word).map UInt32.toNat :=
          (mem_occurrences hascii hend rfl i).2 hi
        rw [hnil] at hpos
        cases hpos
      · rintro ⟨xs, hxs⟩
        obtain ⟨rfl, hne⟩ := (lookup_words_iff hinj' hmem).1 hxs
        obtain ⟨pos, hpos⟩ := List.exists_mem_of_ne_nil _ hne
        exact ⟨_, (mem_occurrences hascii hend rfl _).1 (List.mem_map_of_mem hpos)⟩
    · obtain ⟨hword, rfl⟩ := mem_allWords_of_lookup hmem hlookup
      obtain ⟨rfl, -⟩ := (lookup_words_iff hinj' hmem).1 hlookup
      refine ⟨rfl, ?_, mem_occurrences hascii hend rfl⟩
      exact ((pairwise_fileWords text).filter _).map _ fun _ _ hlt => hlt

end Complete

/-- `BuildWordHT` records all words of a file of plain ASCII exactly when, of its `n` bytes, none
from place `n % 2 ^ 32 - 1` on is a letter. -/
theorem buildWordHT_splits_iff (text : List UInt8)
    (hascii : ∀ c ∈ text, c ≠ 0 ∧ c ≤ ASCII_UPPER_BOUND)
    (hinj : Set.InjOn wordKey {word | ∃ i, WordAt text word i}) :
    Returns (buildWordHT (some text)) (SplitsWords text) ↔
      ∀ i, text.length % 2 ^ 32 - 1 ≤ i → ¬ LetterAt text i := by
  have hk : u32 text.length ≤ text.length := Nat.mod_le _ _
  have hk' : u32 text.length < 2 ^ 32 := Nat.mod_lt _ (Nat.two_pow_pos 32)
  constructor
  · intro hsplits i hi hletter
    obtain ⟨word, start, n, hrun, hbytes, hstart, hlt⟩ := exists_wordAt hletter
    obtain ⟨tab, htab, hholds⟩ := (hsplits.and (returns_buildWordHT (some text))).exists
    cases tab with
    | none =>
      have hnone := (htab.null.1 rfl).elim (fun hnil c hc => absurd hc (hnil ▸ List.not_mem_nil)) id
      exact forall_not_letterAt.2 hnone i hletter
    | some tab =>
      obtain ⟨m, hm, hwords, hentries⟩ := htab.table tab rfl
      obtain rfl := hm.unique hholds.2
      obtain ⟨xs, hxs⟩ := (hwords word).1 ⟨start, n, hrun, hbytes⟩
      have hmem := ((hentries _ _ _ hxs).2.2 start).2 ⟨n, hrun, hbytes⟩
      -- the position comes from a word that is recorded, and no two words begin at one place
      rw [WordMap.lookup_wordMap, Option.map_eq_some_iff] at hxs
      obtain ⟨t, -, heq⟩ := hxs
      rw [← (Prod.mk.inj heq).2, List.map_map, List.mem_map] at hmem
      obtain ⟨token, htoken, hpos⟩ := hmem
      obtain ⟨j, hbounded, hj⟩ := (mem_fileWords hascii).1 (List.mem_of_mem_filter htoken)
      have hjk := hbounded.wordAt.2
      have hjstart : j = start := by
        rw [← hpos, Function.comp_apply, hj, UInt32.toNat_ofNat_of_lt' (hjk.trans hk')]
      obtain ⟨n', hrun', hlt', -⟩ := hbounded
      have htake (i : ℕ) (hi : i ≤ j + n') :
          LetterAt (text.take (u32 text.length)) i ↔ LetterAt text i :=
        letterAt_take (hi.trans_lt (hlt'.trans_le (List.length_take_le _ _)))
      have hrun'' := hrun'.congr htake
      have hlen := hrun.length_unique (hjstart ▸ hrun'')
      have hle := List.length_take_le (u32 text.length) text
      change text.length % 2 ^ 32 - 1 ≤ i at hi
      unfold u32 at hlt' hle
      omega
  · intro hend
    exact (returns_buildWordHT (some text)).mono fun tab => splitsWords_of_tableHolds hascii hend hinj

/-- Where no two parts of a text collide, no two words do. -/
theorem injOn_words {text : List UInt8}
    (h : ∀ i < text.length, ∀ n ≤ text.length, ∀ j < text.length, ∀ m ≤ text.length,
      wordKey (cString (lowered text i n)) = wordKey (cString (lowered text j m)) →
        cString (lowered text i n) = cString (lowered text j m)) :
    Set.InjOn wordKey {word | ∃ i, WordAt text word i} := by
  have hpart {word : CString} {i : ℕ} (hword : WordAt text word i) :
      i < text.length ∧ ∃ n ≤ text.length, word = cString (lowered text i n) := by
    obtain ⟨n, hrun, hbytes⟩ := hword
    have hpos := hrun.pos
    have hlast := (hrun.inside (i + n - 1) (by omega) (by omega)).lt
    exact ⟨by omega, n, by omega, (eq_cString_iff hrun).2 hbytes⟩
  rintro word ⟨i, hword⟩ word' ⟨j, hword'⟩ hkey
  obtain ⟨hi, n, hn, rfl⟩ := hpart hword
  obtain ⟨hj, m, hm, rfl⟩ := hpart hword'
  exact h i hi n hn j hj m hm hkey

/-- `a`, `A` and a line end. -/
def boundedText : List UInt8 := [97, 32, 65, 10]

theorem buildWordHT_splits_boundedText :
    Returns (buildWordHT (some boundedText)) (SplitsWords boundedText) := by
  have hascii : ∀ c ∈ boundedText, c ≠ 0 ∧ c ≤ ASCII_UPPER_BOUND := by
    simp [boundedText, ASCII_UPPER_BOUND]
  refine (buildWordHT_splits_iff boundedText hascii (injOn_words (by decide +kernel))).2 ?_
  intro i hi hletter
  have hlt := hletter.lt
  change 4 % 2 ^ 32 - 1 ≤ i at hi
  change i < 4 at hlt
  obtain rfl : i = 3 := by omega
  cases hletter

/-- The word of the file `a` is not recorded. -/
theorem not_buildWordHT_splits_letter : (∀ c ∈ [(97 : UInt8)], c ≠ 0 ∧ c ≤ ASCII_UPPER_BOUND) ∧
    Set.InjOn wordKey {word | ∃ i, WordAt [97] word i} ∧
    ¬ Returns (buildWordHT (some [97])) (SplitsWords [97]) := by
  refine ⟨by simp [ASCII_UPPER_BOUND], injOn_words (by decide +kernel), fun hsplits => ?_⟩
  obtain ⟨tab, htab, hholds⟩ := (hsplits.and (returns_buildWordHT (some [97]))).exists
  have hnil : fileWords (some [97]) = [] := by decide
  rw [hnil] at hholds
  cases tab with
  | none =>
    rcases htab.null.1 rfl with hempty | hnone
    · cases hempty
    · cases hnone 97 (List.mem_singleton_self _)
  | some tab => exact hholds.1 rfl

end Courses.SearchEngine
