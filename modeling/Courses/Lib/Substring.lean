import Mathlib.Data.List.Infix

/-!
# Searching and splitting text

`find pat text` is the least position at which `pat` stands in `text`. What has been
found stays found, at the same place, when more text arrives; this is what lets a
reader look for a terminator in a buffer it keeps extending. `splitRuns sep text` cuts
the text at its maximal runs of separators.
-/
namespace Courses.Lib

variable {α : Type*} [BEq α] [LawfulBEq α] {pat text more : List α} {i : ℕ}

/-- The least position of `pat` in `text`. -/
@[grind]
def find (pat : List α) : List α → Option ℕ
  | [] => if pat.isPrefixOf [] then some 0 else none
  | a :: text => if pat.isPrefixOf (a :: text) then some 0 else (find pat text).map (· + 1)

theorem find_eq_some_drop (h : find pat text = some i) : pat <+: text.drop i := by
  induction text generalizing i with
  | nil =>
    simp only [find, Option.ite_none_right_eq_some, Option.some.injEq, List.isPrefixOf_iff_prefix] at h
    obtain ⟨hp, rfl⟩ := h
    exact hp
  | cons a text ih =>
    unfold find at h
    split at h
    · rename_i hp
      cases h
      exact List.isPrefixOf_iff_prefix.1 hp
    · obtain ⟨j, hj, rfl⟩ := Option.map_eq_some_iff.1 h
      exact ih hj

theorem find_add_length_le (h : find pat text = some i) : i + pat.length ≤ text.length := by
  have hle := (find_eq_some_drop h).length_le
  rw [List.length_drop] at hle
  cases pat with
  | cons a pat =>
    simp only [List.length_cons] at hle ⊢
    omega
  | nil =>
    -- the empty pattern is found at once
    cases text <;> simp [find] at h <;> subst h <;> simp

/-- An occurrence that fits in `text` is not moved by what comes after `text`. -/
theorem isPrefixOf_append (more : List α) (h : pat.length ≤ text.length) :
    pat.isPrefixOf (text ++ more) = pat.isPrefixOf text := by
  rw [Bool.eq_iff_iff, List.isPrefixOf_iff_prefix, List.isPrefixOf_iff_prefix]
  constructor
  · intro hp
    exact List.prefix_of_prefix_length_le hp (List.prefix_append text more) h
  · intro hp
    exact hp.trans (List.prefix_append text more)

theorem find_append (h : find pat text = some i) : find pat (text ++ more) = some i := by
  induction text generalizing i with
  | nil =>
    simp only [find, Option.ite_none_right_eq_some, Option.some.injEq, List.isPrefixOf_iff_prefix,
      List.prefix_nil] at h
    obtain ⟨rfl, rfl⟩ := h
    cases more <;> simp [find]
  | cons a text ih =>
    have hfit := find_add_length_le h
    have hsame := isPrefixOf_append more (show pat.length ≤ (a :: text).length by omega)
    unfold find at h ⊢
    rw [List.cons_append] at hsame
    rw [List.cons_append]
    simp only [hsame]
    split at h
    · rename_i hp
      rw [if_pos hp, h]
    · rename_i hp
      obtain ⟨j, hj, rfl⟩ := Option.map_eq_some_iff.1 h
      rw [if_neg hp, ih hj]
      rfl

/-- Text that ends before the pattern does not hold it. -/
theorem find_append_left_eq_none (h : find pat (text ++ more) = none) : find pat text = none := by
  cases ht : find pat text with
  | none => rfl
  | some i => rw [find_append ht] at h; cases h

/-- Text without the first character of the pattern is skipped. -/
theorem find_append_of_not_mem {c : α} {rest word : List α} (h : c ∉ word) (text : List α) :
    find (c :: rest) (word ++ text) = (find (c :: rest) text).map (· + word.length) := by
  induction word with
  | nil => simp
  | cons a word ih =>
    obtain ⟨hne, hword⟩ := not_or.1 (mt List.mem_cons.2 h)
    have hhead : (c :: rest).isPrefixOf (a :: (word ++ text)) = false := by
      simp [List.isPrefixOf, hne]
    rw [List.cons_append, find, hhead, ih hword]
    simp [Option.map_map, Function.comp_def, Nat.add_assoc]

/-! ### Splitting -/

section

variable {β : Type*} (sep : β → Bool)

@[grind]
def startsWithSep : List β → Bool
  | [] => false
  | a :: _ => sep a

/-- The pieces between the maximal runs of separators; a run at either end leaves an empty
piece there. -/
@[grind]
def splitRuns : List β → List (List β)
  | [] => [[]]
  | a :: text =>
    if sep a then
      if startsWithSep sep text then splitRuns text else [] :: splitRuns text
    else
      (splitRuns text).modifyHead (a :: ·)

variable {sep} {word rest : List β} {a : β}

theorem splitRuns_append (hword : ∀ b ∈ word, sep b = false) :
    splitRuns sep (word ++ rest) = (splitRuns sep rest).modifyHead (word ++ ·) := by
  induction word with
  | nil => cases h : splitRuns sep rest <;> simp [h]
  | cons b word ih =>
    have hb := hword b List.mem_cons_self
    rw [List.cons_append, splitRuns, hb, if_neg Bool.false_ne_true,
      ih fun c hc => hword c (List.mem_cons_of_mem b hc), List.modifyHead_modifyHead]
    rfl

theorem head?_splitRuns_sep (ha : sep a = true) : (splitRuns sep (a :: rest)).head? = some [] := by
  induction rest generalizing a with
  | nil => simp [splitRuns, ha, startsWithSep]
  | cons b rest ih =>
    rw [splitRuns, if_pos ha]
    split
    · rename_i hb
      exact ih hb
    · rfl

/-- What stands before the first separator is the first piece. -/
theorem head?_splitRuns_append (hword : ∀ b ∈ word, sep b = false) (ha : sep a = true) :
    (splitRuns sep (word ++ a :: rest)).head? = some word := by
  rw [splitRuns_append hword, List.head?_modifyHead, head?_splitRuns_sep ha]
  simp

theorem splitRuns_append_sep (hword : ∀ b ∈ word, sep b = false) (ha : sep a = true)
    (hrest : startsWithSep sep rest = false) :
    splitRuns sep (word ++ a :: rest) = word :: splitRuns sep rest := by
  rw [splitRuns_append hword, splitRuns, if_pos ha, hrest, if_neg Bool.false_ne_true]
  simp

/-- A whole run of separators ends the piece before it. -/
theorem splitRuns_append_run {run : List β} (hword : ∀ b ∈ word, sep b = false) (hne : run ≠ [])
    (hrun : ∀ b ∈ run, sep b = true) (hrest : startsWithSep sep rest = false) :
    splitRuns sep (word ++ (run ++ rest)) = word :: splitRuns sep rest := by
  induction run with
  | nil => exact absurd rfl hne
  | cons a run ih =>
    have ha := hrun a List.mem_cons_self
    cases run with
    | nil => exact splitRuns_append_sep hword ha hrest
    | cons b run =>
      have hrun' : ∀ c ∈ b :: run, sep c = true := fun c hc => hrun c (List.mem_cons_of_mem a hc)
      have hb : startsWithSep sep (b :: run ++ rest) = true := hrun' b List.mem_cons_self
      -- the second separator of a run is skipped
      have hskip : splitRuns sep (a :: b :: run ++ rest) = splitRuns sep (b :: run ++ rest) := by
        rw [List.cons_append, splitRuns, if_pos ha, if_pos hb]
      rw [splitRuns_append hword, hskip, ← splitRuns_append hword]
      exact ih (by simp) hrun'

theorem splitRuns_of_clean (hword : ∀ b ∈ word, sep b = false) : splitRuns sep word = [word] := by
  have h : splitRuns sep (word ++ []) = (splitRuns sep []).modifyHead (word ++ ·) :=
    splitRuns_append hword
  rw [List.append_nil] at h
  rw [h]
  simp [splitRuns]

theorem one_lt_length_splitRuns (ha : sep a = true) : 1 < (splitRuns sep (a :: rest)).length := by
  have hpos (text : List β) : 0 < (splitRuns sep text).length := by
    induction text with
    | nil => simp [splitRuns]
    | cons b text ih =>
      rw [splitRuns]
      split_ifs
      · exact ih
      · simp
      · simpa using ih
  induction rest generalizing a with
  | nil => simp [splitRuns, ha, startsWithSep]
  | cons b rest ih =>
    rw [splitRuns, if_pos ha]
    split
    · rename_i hb
      exact ih hb
    · have := hpos (b :: rest)
      rw [List.length_cons]
      omega

/-- There is a second piece exactly when there is a separator. -/
theorem one_lt_length_splitRuns_iff {text : List β} :
    1 < (splitRuns sep text).length ↔ ∃ b ∈ text, sep b = true := by
  induction text with
  | nil => simp [splitRuns]
  | cons b text ih =>
    by_cases hb : sep b = true
    · simp [one_lt_length_splitRuns hb, hb]
    · rw [splitRuns, if_neg hb, List.length_modifyHead, ih]
      simp [hb]

/-- What stands before the first separator is the first piece, if there is one or not. -/
theorem headD_splitRuns (text : List β) :
    (splitRuns sep text).headD [] = text.takeWhile fun b => !sep b := by
  have h : (splitRuns sep text).head? = some (text.takeWhile fun b => !sep b) := by
    induction text with
    | nil => rfl
    | cons b text ih =>
      by_cases hb : sep b = true
      · rw [head?_splitRuns_sep hb]
        simp [hb]
      · rw [splitRuns, if_neg hb, List.head?_modifyHead, ih]
        simp [hb]
  rw [List.headD_eq_head?_getD, h]
  rfl

/-- Without the empty ones, the pieces are those between single separators. -/
theorem filterMap_splitRuns {γ : Type*} {f : List β → Option γ} (hf : f [] = none) (text : List β) :
    (splitRuns sep text).filterMap f = (text.splitOnP sep).filterMap f := by
  -- the first pieces are the same, so a letter before them makes the same piece of both
  have h : ∃ first pieces pieces', splitRuns sep text = first :: pieces ∧
      text.splitOnP sep = first :: pieces' ∧ pieces.filterMap f = pieces'.filterMap f := by
    induction text with
    | nil => exact ⟨[], [], [], rfl, List.splitOnP_nil, rfl⟩
    | cons b text ih =>
      obtain ⟨first, pieces, pieces', hruns, hsplit, hsame⟩ := ih
      by_cases hb : sep b = true
      · rw [List.splitOnP_cons_eq_if_modifyHead, splitRuns, if_pos hb, if_pos hb, hsplit]
        split
        · rename_i hstart
          have hfirst : first = [] := by
            cases text with
            | nil => cases hstart
            | cons c text =>
              have hhead : (splitRuns sep (c :: text)).head? = some [] := head?_splitRuns_sep hstart
              rw [hruns] at hhead
              exact Option.some.inj hhead
          refine ⟨[], pieces, first :: pieces', by rw [hruns, hfirst], rfl, ?_⟩
          rw [hfirst, List.filterMap_cons_none hf, hsame]
        · rw [hruns]
          exact ⟨[], _, _, rfl, rfl, by simp only [List.filterMap_cons, hsame]⟩
      · rw [List.splitOnP_cons_eq_if_modifyHead, splitRuns, if_neg hb, if_neg hb, hruns, hsplit]
        exact ⟨b :: first, pieces, pieces', rfl, rfl, hsame⟩
  obtain ⟨first, pieces, pieces', hruns, hsplit, hsame⟩ := h
  rw [hruns, hsplit, List.filterMap_cons, List.filterMap_cons, hsame]

end

end Courses.Lib
