import Courses.Shell.Agreement

/-!
# The tokens of a line

A line is a list of symbols and words with white space between them. `peek` looks at the first
token and `gettoken` takes it off.
-/
namespace Courses.Shell

open Courses.Lib.ListParser

inductive Tok
  | sym (c : Char)
  | word (w : Text)
  deriving DecidableEq

/-- The characters of a word. -/
def inWord (c : Char) : Bool := !Sh.whitespace.contains c && !Sh.symbols.contains c

variable {s rest : Text} {w : Text} {c : Char} {ts : List Tok} {toks : List Char}

theorem length_sh_skip_le (s : Text) : (Sh.skip s).length ≤ s.length :=
  (List.dropWhile_suffix _).length_le

theorem skip_skip (s : Text) : Sh.skip (Sh.skip s) = Sh.skip s := List.dropWhile_idempotent _ s

theorem not_whitespace_of_skip (h : Sh.skip s = c :: rest) : Sh.whitespace.contains c = false := by
  have hhead := List.head?_dropWhile_not (Sh.whitespace.contains ·) s
  have hdrop : s.dropWhile (Sh.whitespace.contains ·) = c :: rest := h
  rw [hdrop] at hhead
  simpa using hhead

theorem inWord_of_skip (h : Sh.skip s = c :: rest) (hc : Sh.symbols.contains c = false) :
    inWord c = true := by
  rw [inWord, not_whitespace_of_skip h, hc]
  rfl

theorem length_dropWhile_inWord (h : inWord c = true) (rest : Text) :
    ((c :: rest).dropWhile inWord).length ≤ rest.length := by
  rw [List.dropWhile_cons_of_pos h]
  exact (List.dropWhile_suffix inWord).length_le

def tokens (s : Text) : List Tok :=
  match h : Sh.skip s with
  | [] => []
  | c :: rest =>
    if hc : Sh.symbols.contains c then .sym c :: tokens rest
    else .word ((c :: rest).takeWhile inWord) :: tokens ((c :: rest).dropWhile inWord)
termination_by s.length
decreasing_by
  all_goals
    have hle := length_sh_skip_le s
    rw [h, List.length_cons] at hle
  · omega
  · have hword := length_dropWhile_inWord (inWord_of_skip h (by simpa using hc)) rest
    omega

theorem tokens_of_nil (h : Sh.skip s = []) : tokens s = [] := by
  rw [tokens]
  split
  · rfl
  · rename_i heq
    rw [h] at heq
    cases heq

theorem tokens_of_symbol (h : Sh.skip s = c :: rest) (hc : Sh.symbols.contains c = true) :
    tokens s = .sym c :: tokens rest := by
  rw [tokens]
  split
  · rename_i heq
    rw [h] at heq
    cases heq
  · rename_i heq
    rw [h] at heq
    cases heq
    rw [dif_pos hc]

theorem tokens_of_word (h : Sh.skip s = c :: rest) (hc : Sh.symbols.contains c = false) :
    tokens s = .word ((c :: rest).takeWhile inWord) ::
      tokens ((c :: rest).dropWhile inWord) := by
  rw [tokens]
  split
  · rename_i heq
    rw [h] at heq
    cases heq
  · rename_i heq
    rw [h] at heq
    cases heq
    rw [dif_neg (by simpa using hc)]

theorem tokens_skip (s : Text) : tokens (Sh.skip s) = tokens s := by
  cases h : Sh.skip s with
  | nil =>
    rw [tokens_of_nil h]
    exact tokens_of_nil rfl
  | cons c rest =>
    have hidem : Sh.skip (c :: rest) = c :: rest := h ▸ skip_skip s
    cases hc : Sh.symbols.contains c with
    | true => rw [tokens_of_symbol h hc, tokens_of_symbol hidem hc]
    | false => rw [tokens_of_word h hc, tokens_of_word hidem hc]

/-! ## Looking at a token -/

/-- A symbol that is one of these. -/
def Tok.isSym (toks : List Char) : Tok → Bool
  | .sym c => toks.contains c
  | .word _ => false

theorem peek_tokens (htoks : ∀ c ∈ toks, Sh.symbols.contains c = true) (s : Text) :
    Sh.peek toks s = .ok ((tokens s).head?.any (Tok.isSym toks), Sh.skip s) := by
  have heq : (Sh.skip s).head?.any (toks.contains ·) = (tokens s).head?.any (Tok.isSym toks) := by
    cases h : Sh.skip s with
    | nil => rw [tokens_of_nil h]; rfl
    | cons c rest =>
      cases hc : Sh.symbols.contains c with
      | true => rw [tokens_of_symbol h hc]; rfl
      | false =>
        have hnot : toks.contains c = false := by
          rw [← Bool.not_eq_true, List.contains_iff_mem]
          intro hmem
          rw [htoks c hmem] at hc
          cases hc
        rw [tokens_of_word h hc]
        exact hnot
  rw [← heq]
  rfl

/-- Where a parser looks for a symbol, it goes on with the same tokens. -/
theorem run_peek {α : Type} (htoks : ∀ c ∈ toks, Sh.symbols.contains c = true)
    (f : Bool → ParseM α) (s : Text) :
    (Sh.peek toks >>= f) s = f ((tokens s).head?.any (Tok.isSym toks)) (Sh.skip s) :=
  run_bind (peek_tokens htoks s)

/-! ## Taking a token -/

theorem symbols_iff : Sh.symbols.contains c = true ↔ (c = '<' ∨ c = '|' ∨ c = ';') ∨ c = '>' := by
  simp [Sh.symbols]
  tauto

theorem gettoken_nil (h : tokens s = []) : Sh.gettoken s = .ok ((nul, []), []) := by
  cases hs : Sh.skip s with
  | nil => simp [Sh.gettoken, hs]
  | cons c rest =>
    cases hc : Sh.symbols.contains c with
    | true =>
      rw [tokens_of_symbol hs hc] at h
      cases h
    | false =>
      rw [tokens_of_word hs hc] at h
      cases h

theorem gettoken_sym (h : tokens s = .sym c :: ts) :
    ∃ rest, Sh.gettoken s = .ok ((c, [c]), rest) ∧ tokens rest = ts ∧
      rest.length < s.length ∧ Sh.symbols.contains c = true := by
  have hle := length_sh_skip_le s
  cases hs : Sh.skip s with
  | nil =>
    rw [tokens_of_nil hs] at h
    cases h
  | cons d rest =>
    rw [hs, List.length_cons] at hle
    cases hd : Sh.symbols.contains d with
    | true =>
      rw [tokens_of_symbol hs hd] at h
      cases h
      have hskip := length_sh_skip_le rest
      refine ⟨Sh.skip rest, ?_, tokens_skip rest, by omega, hd⟩
      simp only [Sh.gettoken, hs]
      obtain hc | hc := symbols_iff.1 hd
      · rw [if_pos hc]
      · rw [if_neg (by rw [hc]; decide), if_pos hc]
    | false =>
      rw [tokens_of_word hs hd] at h
      cases h

theorem gettoken_word (h : tokens s = .word w :: ts) :
    ∃ rest, Sh.gettoken s = .ok (('a', w), rest) ∧ tokens rest = ts ∧
      rest.length < s.length := by
  have hle := length_sh_skip_le s
  cases hs : Sh.skip s with
  | nil =>
    rw [tokens_of_nil hs] at h
    cases h
  | cons d rest =>
    rw [hs, List.length_cons] at hle
    cases hd : Sh.symbols.contains d with
    | true =>
      rw [tokens_of_symbol hs hd] at h
      cases h
    | false =>
      rw [tokens_of_word hs hd] at h
      cases h
      have hskip := length_sh_skip_le ((d :: rest).dropWhile inWord)
      have hword := length_dropWhile_inWord (inWord_of_skip hs hd) rest
      refine ⟨Sh.skip ((d :: rest).dropWhile inWord), ?_, tokens_skip _, by omega⟩
      have hnot : ¬ ((d = '<' ∨ d = '|' ∨ d = ';') ∨ d = '>') := by
        rw [← symbols_iff, hd]
        exact Bool.false_ne_true
      rw [not_or] at hnot
      simp only [Sh.gettoken, hs]
      rw [if_neg hnot.1, if_neg hnot.2]
      rfl

theorem gettoken_cases (s : Text) :
    (tokens s = [] ∧ Sh.gettoken s = .ok ((nul, []), [])) ∨
      (∃ c rest, tokens s = .sym c :: tokens rest ∧ Sh.gettoken s = .ok ((c, [c]), rest) ∧
        Sh.symbols.contains c = true) ∨
      ∃ w rest, tokens s = .word w :: tokens rest ∧ Sh.gettoken s = .ok (('a', w), rest) := by
  cases h : tokens s with
  | nil => exact .inl ⟨rfl, gettoken_nil h⟩
  | cons t ts =>
    cases t with
    | sym c =>
      obtain ⟨rest, hget, hrest, -, hc⟩ := gettoken_sym h
      exact .inr (.inl ⟨c, rest, by rw [hrest], hget, hc⟩)
    | word w =>
      obtain ⟨rest, hget, hrest, -⟩ := gettoken_word h
      exact .inr (.inr ⟨w, rest, by rw [hrest], hget⟩)

end Courses.Shell
