import Courses.T9.Dictionary
import Mathlib.Data.List.TakeWhile

/-!
# Looking words up

A key sequence followed by `n` times `#` leads to the `n`-th further word of its bucket. The
loop counter of `search_trie` has to be an `int` on the way there, and `read_data` has to read
each word together with the newline after it.
-/
namespace Courses.T9

open TrieNode

variable {t : TrieNode} {words ws : List Word} {p : List (Fin 8)} {i n : ℕ}

/-! ## Search -/

/-- The search ended at the node of this word, or at no end node. -/
def Found (r : Except SearchError TrieNode) : Option Word → Prop
  | some w => ∃ child, r = .ok (.node true (some w) child)
  | none => r = .ok .null ∨ ∃ w child, r = .ok (.node false w child)

@[simp] theorem searchLoop_null (i : ℕ) (nums : List Char) :
    searchLoop i nums .null = .ok .null := by
  cases nums <;> rfl

theorem searchLoop_keys (hlt : i + p.length < 2 ^ 31) (nums : List Char) (t : TrieNode) :
    searchLoop i (p.map digit ++ nums) t = searchLoop (i + p.length) nums (follow p t) := by
  induction p generalizing i t with
  | nil => rfl
  | cons d p ih =>
    cases t with
    | null => simp
    | node isEnd w child =>
      rw [List.length_cons] at hlt
      rw [List.map_cons, List.cons_append, searchLoop, index_digit]
      simp only [if_pos (show i + 1 < 2 ^ 31 by omega)]
      rw [ih (by omega), follow, List.length_cons, Nat.add_right_comm, Nat.add_assoc]

theorem searchLoop_hash (hlt : i + 1 < 2 ^ 31) (n : ℕ) (isEnd : Bool) (w : Option Word)
    (child : Fin 9 → TrieNode) :
    searchLoop i (List.replicate (n + 1) '#') (.node isEnd w child) =
      searchLoop (i + 1) (List.replicate n '#') (child 8) := by
  rw [List.replicate_succ, searchLoop, index_hash]
  simp only [if_pos hlt]

theorem searchLoop_same (h : Same t ws) (hlt : i + n < 2 ^ 31 ∨ i + ws.length < 2 ^ 31) :
    ∃ r, searchLoop i (List.replicate n '#') t = .ok r ∧ Same r (ws.drop n) := by
  induction h generalizing i n with
  | nil => exact ⟨.null, searchLoop_null i _, by simpa using .nil⟩
  | cons h ih =>
    cases n with
    | zero => exact ⟨_, rfl, .cons h⟩
    | succ n =>
      rw [List.length_cons] at hlt
      rw [searchLoop_hash (by omega), List.drop_succ_cons]
      exact ih (by omega)

theorem searchLoop_overflow (h : Same t ws) (hi : i < 2 ^ 31) (hws : 2 ^ 31 ≤ i + ws.length)
    (hn : 2 ^ 31 ≤ i + n) : searchLoop i (List.replicate n '#') t = .error .overflow := by
  induction h generalizing i n with
  | nil =>
    rw [List.length_nil] at hws
    omega
  | cons h ih =>
    cases n with
    | zero => omega
    | succ n =>
      rw [List.length_cons] at hws
      by_cases hlt : i + 1 < 2 ^ 31
      · rw [searchLoop_hash hlt]
        exact ih hlt (by omega) (by omega)
      · rw [List.replicate_succ, searchLoop, index_hash]
        simp only [if_neg hlt]

theorem found_same (h : Same t ws) (hlt : i + n < 2 ^ 31 ∨ i + ws.length < 2 ^ 31) :
    Found (searchLoop i (List.replicate n '#') t) ws[n]? := by
  obtain ⟨r, hr, hsame⟩ := searchLoop_same h hlt
  rw [hr]
  by_cases hn : n < ws.length
  · rw [List.getElem?_eq_getElem hn]
    rw [List.drop_eq_getElem_cons hn] at hsame
    cases hsame with
    | cons h => exact ⟨_, rfl⟩
  · rw [List.getElem?_eq_none (by omega)]
    rw [List.drop_eq_nil_of_le (by omega)] at hsame
    cases hsame
    exact .inl rfl

theorem found_holds (h : Holds t ws) (hi : i + 1 < 2 ^ 31)
    (hlt : i + n < 2 ^ 31 ∨ i + ws.length < 2 ^ 31) :
    Found (searchLoop i (List.replicate n '#') t) ws[n]? := by
  cases h with
  | same h => exact found_same h hlt
  | inner hnull =>
    cases n with
    | zero => exact .inr ⟨_, _, rfl⟩
    | succ n =>
      rw [searchLoop_hash hi, hnull, searchLoop_null]
      exact .inl rfl

theorem overflow_holds (h : Holds t ws) (hi : i < 2 ^ 31) (hws : 2 ^ 31 ≤ i + ws.length)
    (hn : 2 ^ 31 ≤ i + n) : searchLoop i (List.replicate n '#') t = .error .overflow := by
  cases h with
  | same h => exact searchLoop_overflow h hi hws hn
  | inner hnull =>
    rw [List.length_nil] at hws
    omega

theorem length_of_mem_withKeys {k : List Char} {w : Word} (h : w ∈ withKeys words k) :
    w ∈ words ∧ w.length = k.length := by
  obtain ⟨hmem, hkeys⟩ := List.mem_filter.1 h
  have hlength := congrArg List.length (of_decide_eq_true hkeys)
  rw [List.length_map] at hlength
  exact ⟨hmem, hlength⟩

theorem found_insertAll (hshort : ∀ w ∈ words, w.length < 500)
    (hlt : p.length < 500 → p.length + n < 2 ^ 31 ∨
      p.length + (withKeys words (p.map digit)).length < 2 ^ 31) :
    Found (search (insertAll empty words) (p.map digit ++ List.replicate n '#'))
      (withKeys words (p.map digit))[n]? := by
  rw [search]
  by_cases hp : p.length < 500
  · rw [searchLoop_keys (by omega), zero_add]
    exact found_holds (represents_insertAll words p) (by omega) (hlt hp)
  · have hbucket : withKeys words (p.map digit) = [] := by
      rw [List.eq_nil_iff_forall_not_mem]
      intro w hw
      obtain ⟨hmem, hlength⟩ := length_of_mem_withKeys hw
      rw [List.length_map] at hlength
      exact hp (hlength ▸ hshort w hmem)
    -- the first 500 keys lead out of the trie
    have htake : (p.take 500).length = 500 := by
      rw [List.length_take]
      omega
    have hnull : follow (p.take 500) (insertAll empty words) = .null := by
      refine follow_insertAll words ?_ fun w hw => ?_
      · rw [← List.length_pos_iff]
        omega
      · rw [htake]
        exact hshort w hw
    rw [hbucket, ← List.take_append_drop 500 p, List.map_append, List.append_assoc,
      searchLoop_keys (by omega), hnull, searchLoop_null]
    exact .inl rfl

theorem overflow_insertAll (hp : p.length < 500) (hn : 2 ^ 31 ≤ p.length + n)
    (hbucket : 2 ^ 31 ≤ p.length + (withKeys words (p.map digit)).length) :
    search (insertAll empty words) (p.map digit ++ List.replicate n '#') = .error .overflow := by
  rw [search, searchLoop_keys (by omega), zero_add]
  exact overflow_holds (represents_insertAll words p) (by omega) hbucket hn

theorem not_found_error (e : SearchError) (o : Option Word) : ¬ Found (.error e) o := by
  cases o <;> simp [Found]

/-- A search for a word that was inserted does not end at another node. -/
theorem not_found_none (hshort : ∀ w ∈ words, w.length < 500) (hp : p.length < 500)
    (hn : n < (withKeys words (p.map digit)).length) :
    ¬ Found (search (insertAll empty words) (p.map digit ++ List.replicate n '#')) none := by
  by_cases hlt : p.length + n < 2 ^ 31
  · have hfound := found_insertAll hshort fun _ => Or.inl hlt
    rw [List.getElem?_eq_getElem hn] at hfound
    obtain ⟨child, hr⟩ := hfound
    rw [hr]
    simp [Found]
  · rw [overflow_insertAll hp (by omega) (by omega)]
    exact not_found_error _ _

/-! ## Reading -/

/-- The words that `read_data` finds in the lines of these words: there is no room in the buffer
for the newline after a word of 499 letters, and it is taken for another line. -/
def linesRead (words : List Word) : List Word :=
  words.flatMap fun w => if w.length = 499 then [w, []] else [w]

theorem readLine_of_lt {w : Word} (hw : ∀ c ∈ w, c ≠ '\n') (hlt : w.length < n)
    (file : List Char) : readLine n (w ++ '\n' :: file) = (w ++ ['\n'], file) := by
  induction w generalizing n with
  | nil =>
    cases n with
    | zero => simp at hlt
    | succ n => rfl
  | cons c w ih =>
    obtain ⟨hc, hw⟩ := List.forall_mem_cons.1 hw
    cases n with
    | zero => simp at hlt
    | succ n =>
      have hrest := ih hw (Nat.lt_of_succ_lt_succ hlt)
      rw [List.cons_append, readLine, if_neg hc, hrest, List.cons_append]

theorem readLine_of_eq {w : Word} (hw : ∀ c ∈ w, c ≠ '\n') (file : List Char) :
    readLine w.length (w ++ file) = (w, file) := by
  induction w with
  | nil => rfl
  | cons c w ih =>
    obtain ⟨hc, hw⟩ := List.forall_mem_cons.1 hw
    rw [List.cons_append, List.length_cons, readLine, if_neg hc, ih hw]

theorem readLoop_of_readLine {file rest buffer : List Char} (hne : file ≠ [])
    (h : readLine 499 file = (buffer, rest)) (t : TrieNode) :
    (readLoop file t).1 =
      (readLoop rest (insertWord t ((chomp buffer).map convert) (chomp buffer)).1).1 := by
  cases file with
  | nil => exact absurd rfl hne
  | cons c file =>
    rw [readLoop]
    have hline : readLine (MAX_LINELEN - 1) (c :: file) = (buffer, rest) := h
    rw [hline]

/-- Letters are neither newlines nor zero characters. -/
theorem chomp_of_ne {w : Word} (hw : ∀ c ∈ w, c ≠ '\n' ∧ c ≠ Char.ofNat 0) (s : List Char) :
    chomp (w ++ '\n' :: s) = w ∧ chomp w = w := by
  have hzero : ∀ c ∈ w, decide (c ≠ Char.ofNat 0) = true := fun c hc => by simpa using (hw c hc).2
  have hnewline : ∀ c ∈ w, decide (c ≠ '\n') = true := fun c hc => by simpa using (hw c hc).1
  constructor
  · rw [chomp, List.takeWhile_append_of_pos hzero, List.takeWhile_cons_of_pos (by decide),
      List.takeWhile_append_of_pos hnewline, List.takeWhile_cons_of_neg (by decide),
      List.append_nil]
  · rw [chomp, List.takeWhile_eq_self_iff.2 hzero, List.takeWhile_eq_self_iff.2 hnewline]

theorem readLoop_text (hletters : ∀ w ∈ words, ∀ c ∈ w, c ≠ '\n' ∧ c ≠ Char.ofNat 0)
    (hshort : ∀ w ∈ words, w.length < 500) (t : TrieNode) :
    (readLoop (text words) t).1 = insertAll t (linesRead words) := by
  induction words generalizing t with
  | nil => rw [text, List.flatMap_nil, readLoop, linesRead, List.flatMap_nil, insertAll,
      List.foldl_nil]
  | cons w words ih =>
    obtain ⟨hw, hletters⟩ := List.forall_mem_cons.1 hletters
    obtain ⟨hlength, hshort⟩ := List.forall_mem_cons.1 hshort
    have hnewline : ∀ c ∈ w, c ≠ '\n' := fun c hc => (hw c hc).1
    have htext : text (w :: words) = w ++ '\n' :: text words := by simp [text]
    rw [htext]
    by_cases hlong : w.length = 499
    · have hline : readLine 499 (w ++ '\n' :: text words) = (w, '\n' :: text words) :=
        hlong ▸ readLine_of_eq hnewline _
      have hnext : readLine 499 ('\n' :: text words) = (['\n'], text words) := rfl
      rw [readLoop_of_readLine (by simp) hline, readLoop_of_readLine (by simp) hnext,
        (chomp_of_ne hw []).2, ih hletters hshort]
      simp [linesRead, insertAll, hlong, chomp]
    · have hline : readLine 499 (w ++ '\n' :: text words) = (w ++ ['\n'], text words) :=
        readLine_of_lt hnewline (by omega) _
      rw [readLoop_of_readLine (by simp) hline, (chomp_of_ne hw []).1, ih hletters hshort]
      simp [linesRead, insertAll, hlong]

/-! ## The dictionary -/

/-- The search finds the words with the same keys one after the other. -/
def Answers (trie : TrieNode) (words : List Word) : Prop :=
  ∀ k : List Char, (∀ c ∈ k, '2' ≤ c ∧ c ≤ '9') → ∀ n,
    Found (search trie (k ++ List.replicate n '#')) (withKeys words k)[n]?

/-- The trie after the words are read from a file that has one in each line. -/
def dictionary (words : List Word) : TrieNode := (readData "" (some (text words)) empty).trie

def LowerCase (w : Word) : Prop := ∀ c ∈ w, 'a' ≤ c ∧ c ≤ 'z'

theorem LowerCase.ne {w : Word} (h : LowerCase w) {c : Char} (hc : c ∈ w) :
    c ≠ '\n' ∧ c ≠ Char.ofNat 0 := by
  have hle := (h c hc).1
  constructor
  · rintro rfl
    exact absurd hle (by decide)
  · rintro rfl
    exact absurd hle (by decide)

theorem dictionary_eq (hlower : ∀ w ∈ words, LowerCase w) (hshort : ∀ w ∈ words, w.length < 500) :
    dictionary words = insertAll empty (linesRead words) :=
  readLoop_text (fun w hw _ hc => (hlower w hw).ne hc) hshort empty

theorem linesRead_eq (h : ∀ w ∈ words, w.length ≠ 499) : linesRead words = words := by
  induction words with
  | nil => rfl
  | cons w words ih =>
    obtain ⟨hw, hwords⟩ := List.forall_mem_cons.1 h
    have hrest := ih hwords
    rw [linesRead] at hrest ⊢
    rw [List.flatMap_cons, if_neg hw, hrest, List.singleton_append]

theorem linesRead_append (words words' : List Word) :
    linesRead (words ++ words') = linesRead words ++ linesRead words' := List.flatMap_append

theorem withKeys_append (words words' : List Word) (k : List Char) :
    withKeys (words ++ words') k = withKeys words k ++ withKeys words' k := List.filter_append _ _

theorem mem_linesRead {w : Word} (h : w ∈ linesRead words) : w ∈ words ∨ w = [] := by
  obtain ⟨v, hv, hw⟩ := List.mem_flatMap.1 h
  split at hw
  · obtain rfl | rfl : w = v ∨ w = [] := by simpa using hw
    · exact .inl hv
    · exact .inr rfl
  · obtain rfl : w = v := by simpa using hw
    exact .inl hv

theorem withKeys_linesRead_le (words : List Word) (k : List Char) :
    (withKeys words k).length ≤ (withKeys (linesRead words) k).length := by
  refine List.Sublist.length_le (List.Sublist.filter _ ?_)
  induction words with
  | nil => exact List.nil_sublist _
  | cons w words ih =>
    rw [linesRead, List.flatMap_cons, ← List.singleton_append (l := words)]
    refine List.Sublist.append ?_ ih
    split <;> simp

/-- What is left of the line of a long word is an empty word. -/
theorem withKeys_linesRead_lt {w : Word} (hmem : w ∈ words) (hw : w.length = 499) :
    (withKeys words []).length < (withKeys (linesRead words) []).length := by
  obtain ⟨before, after, rfl⟩ := List.append_of_mem hmem
  have hbefore := withKeys_linesRead_le before []
  have hafter := withKeys_linesRead_le after []
  have hline : linesRead [w] = [w, []] := by simp [linesRead, hw]
  have hne : w ≠ [] := by
    rintro rfl
    simp at hw
  rw [← List.singleton_append, linesRead_append, linesRead_append, hline]
  simp only [withKeys_append, List.length_append]
  have hword : withKeys [w] [] = [] := by simp [withKeys, hne]
  have hlines : withKeys [w, []] [] = [[]] := by simp [withKeys, hne]
  rw [hword, hlines]
  simp only [List.length_nil, List.length_singleton]
  omega

theorem length_of_mem_linesRead (hshort : ∀ w ∈ words, w.length < 500) :
    ∀ w ∈ linesRead words, w.length < 500 := by
  intro w hw
  obtain hw | rfl := mem_linesRead hw
  · exact hshort w hw
  · simp

/-- The search without keys goes on to a word that was not in the list. -/
theorem not_answers_of_long (hlower : ∀ w ∈ words, LowerCase w)
    (hshort : ∀ w ∈ words, w.length < 500) {w : Word} (hmem : w ∈ words) (hw : w.length = 499) :
    ¬ Answers (dictionary words) words := by
  intro h
  rw [dictionary_eq hlower hshort] at h
  have hlt := withKeys_linesRead_lt hmem hw
  have hfound := h [] (by simp) (withKeys words []).length
  rw [List.getElem?_eq_none le_rfl] at hfound
  exact not_found_none (p := []) (length_of_mem_linesRead hshort) (by simp) hlt hfound

/-- The trie answers as the list of words does if and only if there is room for the newline after
each word and the counter of a search among the words with its keys stays an `int`. -/
theorem answers_iff (hlower : ∀ w ∈ words, LowerCase w) (hshort : ∀ w ∈ words, w.length < 500) :
    Answers (dictionary words) words ↔
      ∀ w ∈ words, w.length ≠ 499 ∧
        w.length + (withKeys words (w.map convert)).length < 2 ^ 31 := by
  constructor
  · intro h w hmem
    have hne : ∀ w ∈ words, w.length ≠ 499 := fun w hmem hw =>
      not_answers_of_long hlower hshort hmem hw h
    refine ⟨hne w hmem, ?_⟩
    by_contra hlarge
    obtain ⟨p, hp⟩ := exists_word_keys w
    have hlength : p.length = w.length := by
      have hsame := congrArg List.length hp
      simpa using hsame
    have hw := hshort w hmem
    have hk : ∀ c ∈ p.map digit, '2' ≤ c ∧ c ≤ '9' := by
      intro c hc
      obtain ⟨d, -, rfl⟩ := List.mem_map.1 hc
      exact digit_range d
    have hfound := h (p.map digit) hk (2 ^ 31)
    rw [← hlength, ← hp] at hlarge
    rw [dictionary_eq hlower hshort, linesRead_eq hne,
      overflow_insertAll (by omega) (by omega) (by omega)] at hfound
    exact not_found_error _ _ hfound
  · intro h k hk n
    obtain ⟨p, rfl⟩ := exists_keys hk
    rw [dictionary_eq hlower hshort, linesRead_eq fun w hw => (h w hw).1]
    refine found_insertAll hshort fun hp => ?_
    cases hbucket : withKeys words (p.map digit) with
    | nil =>
      rw [List.length_nil]
      omega
    | cons w ws =>
      have hw : w ∈ withKeys words (p.map digit) := by rw [hbucket]; exact List.mem_cons_self
      obtain ⟨hmem, hlength⟩ := length_of_mem_withKeys hw
      have hkeys : w.map convert = p.map digit := of_decide_eq_true (List.mem_filter.1 hw).2
      have hfits := (h w hmem).2
      rw [hkeys, hbucket, hlength, List.length_map] at hfits
      exact .inr hfits

theorem answers_iff_bat :
    Answers (dictionary [['c', 'a', 't'], ['b', 'a', 't']]) [['c', 'a', 't'], ['b', 'a', 't']] := by
  have hlower : ∀ w ∈ [['c', 'a', 't'], ['b', 'a', 't']], LowerCase w := by
    simp [LowerCase]
  refine (answers_iff hlower (by simp)).2 ?_
  decide

theorem answers_long_word :
    ¬ ∀ words : List Word, (∀ w ∈ words, LowerCase w) → (∀ w ∈ words, w.length < 500) →
      Answers (dictionary words) words := by
  intro h
  have hlower : ∀ w ∈ [List.replicate 499 'a'], LowerCase w := by
    intro w hw c hc
    rw [List.mem_singleton.1 hw] at hc
    rw [List.eq_of_mem_replicate hc]
    decide
  have hshort : ∀ w ∈ [List.replicate 499 'a'], w.length < 500 := by
    intro w hw
    rw [List.mem_singleton.1 hw, List.length_replicate]
    decide
  exact not_answers_of_long hlower hshort List.mem_cons_self List.length_replicate
    (h _ hlower hshort)

end Courses.T9
