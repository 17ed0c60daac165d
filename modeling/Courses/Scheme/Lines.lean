import Courses.Scheme.Words

/-!
# Lines of tokens

What a line's text begins with decides its first token: a word goes on to where a token
ends, a literal or a parenthesis ends by itself, and blanks do not matter. The tokens of a
line are all ones that the reader knows.
-/
namespace Courses.Scheme

variable {P : Python}

/-! ## The next candidate -/

theorem tokenEnd_eq_false {c : Char} (hspace : whitespace c = false)
    (hsingle : singleCharToken c = false) (hcomma : c ≠ ',') (hquote : c ≠ doubleQuote) :
    tokenEnd c = false := by
  simp [tokenEnd, hspace, hsingle, hcomma, hquote]

/-- A candidate takes at least one character, and one that begins with a quote is a literal. -/
theorem nextCandidateToken_some : ∀ {line text rest : Text},
    nextCandidateToken line = .ok (some (text, rest)) →
      rest.length < line.length ∧ (text.head? = some doubleQuote → IsLiteral text)
  | [], _, _, h => by simp [nextCandidateToken] at h
  | c :: line, text, rest, h => by
    unfold nextCandidateToken at h
    split_ifs at h with hcomment hspace hsingle hclose hopen hhash hcomma hat hquote hempty
    · cases h
    · obtain ⟨hlt, hliteral⟩ := nextCandidateToken_some h
      exact ⟨Nat.lt_succ_of_lt hlt, hliteral⟩
    · cases h
      exact ⟨by simp, fun h => absurd h (by decide)⟩
    · cases h
      exact ⟨by simp, fun h => absurd h (by decide)⟩
    · cases h
      refine ⟨by simp, fun h => ?_⟩
      obtain rfl : c = doubleQuote := by simpa using h
      exact absurd hsingle (by decide)
    · cases h
      refine ⟨by simp, fun h => ?_⟩
      rw [hhash, List.head?_cons] at h
      exact absurd h (by decide)
    · cases h
      exact ⟨by simp, fun h => absurd h (by decide)⟩
    · cases h
      exact ⟨by simp, fun h => absurd h (by decide)⟩
    · cases h
      exact ⟨by simp, fun _ => ⟨[c], by rw [hquote], by rw [hquote]; rfl⟩⟩
    · split at h
      · rename_i s rest' hs
        cases h
        obtain ⟨happend, hagain⟩ := stringRest_append hs
        refine ⟨by rw [happend]; simp, fun _ => ⟨s, by rw [hquote], ?_⟩⟩
        simpa using hagain []
      · cases h
    · have hend : tokenEnd c = false := tokenEnd_eq_false (by simpa using hspace)
        (by simpa using hsingle) hcomma hquote
      cases h
      refine ⟨?_, fun h => ?_⟩
      · rw [List.dropWhile_cons_of_pos (by simp [hend])]
        exact Nat.lt_succ_of_le (List.dropWhile_sublist _).length_le
      · rw [List.takeWhile_cons_of_pos (by simp [hend])] at h
        exact absurd (by simpa using h) hquote

theorem nextCandidateToken_blank {c : Char} (h : whitespace c = true) (line : Text) :
    nextCandidateToken (c :: line) = nextCandidateToken line := by
  have hcomment : c ≠ ';' := by
    rintro rfl
    exact absurd h (by decide)
  rw [nextCandidateToken, if_neg hcomment, if_pos h]

/-- Where a word may end: at the end of the line or before a character that ends tokens. -/
def Ends (line : Text) : Prop := ∀ c ∈ line.head?, tokenEnd c = true

instance (line : Text) : Decidable (Ends line) :=
  inferInstanceAs (Decidable (∀ c ∈ line.head?, tokenEnd c = true))

theorem nextCandidateToken_word {word rest : Text} (hword : validSymbol word = true)
    (hrest : Ends rest) : nextCandidateToken (word ++ rest) = .ok (some (word, rest)) := by
  simp only [validSymbol, Bool.and_eq_true] at hword
  obtain ⟨hne, hall⟩ := hword
  have hend : ∀ c ∈ word, (!tokenEnd c) = true := fun c hc => by
    simp [tokenEnd_of_symbolChar (List.all_eq_true.1 hall c hc)]
  have htake : (word ++ rest).takeWhile (!tokenEnd ·) = word := by
    rw [List.takeWhile_append_of_pos hend]
    cases rest with
    | nil => simp
    | cons d rest => simp [hrest d rfl]
  have hdrop : (word ++ rest).dropWhile (!tokenEnd ·) = rest := by
    rw [List.dropWhile_append_of_pos hend]
    cases rest with
    | nil => simp
    | cons d rest => simp [hrest d rfl]
  cases word with
  | nil => simp at hne
  | cons c word =>
    have hsymbol : symbolChar c = true := List.all_eq_true.1 hall c (by simp)
    have hc := tokenEnd_of_symbolChar hsymbol
    simp only [tokenEnd, Bool.or_eq_false_iff, beq_eq_false_iff_ne] at hc
    have hcomment : c ≠ ';' := by
      rintro rfl
      exact absurd hsymbol (by decide)
    have hhash : c ≠ '#' := by
      rintro rfl
      exact absurd hsymbol (by decide)
    rw [List.cons_append] at htake hdrop ⊢
    rw [nextCandidateToken, htake, hdrop]
    simp [hc, hcomment, hhash]

theorem nextCandidateToken_literal {s : Text} (h : IsLiteral s) (rest : Text) :
    nextCandidateToken (s ++ rest) = .ok (some (s, rest)) := by
  obtain ⟨body, rfl, hbody⟩ := h
  have hrest := (stringRest_append hbody).2 rest
  have hchars : ¬doubleQuote = ';' ∧ whitespace doubleQuote = false ∧
      singleCharToken doubleQuote = false ∧ ¬doubleQuote = '#' ∧ ¬doubleQuote = ',' := by decide
  cases body with
  | nil => simp [stringRest] at hbody
  | cons d body =>
    simp only [List.cons_append] at hrest ⊢
    rw [nextCandidateToken]
    by_cases hd : d = doubleQuote
    · -- The empty string: two quotes in a row are a candidate of their own.
      have hnil : body = [] := by
        rw [stringRest.eq_def] at hbody
        simpa [hd] using hbody
      simp [hchars, hd, hnil]
    · simp [hchars, hd, hrest]

theorem nextCandidateToken_paren {c : Char} (h : c = '(' ∨ c = ')') (rest : Text) :
    nextCandidateToken (c :: rest) = .ok (some ([c], rest)) := by
  rcases h with rfl | rfl <;> simp [nextCandidateToken, whitespace, singleCharToken]

/-! ## The tokens of a line -/

theorem tokenizeFrom_congr : ∀ {fuel fuel' : ℕ} {line : Text}, line.length < fuel →
    line.length < fuel' → tokenizeFrom P fuel line = tokenizeFrom P fuel' line
  | fuel + 1, fuel' + 1, line, hfuel, hfuel' => by
    unfold tokenizeFrom
    cases hnext : nextCandidateToken line with
    | error e => rfl
    | ok candidate =>
      cases candidate with
      | none => rfl
      | some candidate =>
        obtain ⟨text, rest⟩ := candidate
        have hlt := (nextCandidateToken_some hnext).1
        have ih : tokenizeFrom P fuel rest = tokenizeFrom P fuel' rest :=
          tokenizeFrom_congr (by omega) (by omega)
        simp only [bind, Except.bind, ih]

/-- One turn of the loop of `tokenize_line`. -/
theorem tokenizeLine_some {line text rest : Text}
    (h : nextCandidateToken line = .ok (some (text, rest))) :
    tokenizeLine P line = do
      let t ← classify P text
      return t.toList ++ (← tokenizeLine P rest) := by
  have hlt := (nextCandidateToken_some h).1
  rw [tokenizeLine, tokenizeFrom, h]
  simp only [bind, Except.bind, tokenizeLine,
    tokenizeFrom_congr (P := P) hlt (Nat.lt_succ_self rest.length)]

theorem tokenizeLine_blank {c : Char} (h : whitespace c = true) (line : Text) :
    tokenizeLine P (c :: line) = tokenizeLine P line := by
  rw [tokenizeLine, tokenizeLine,
    tokenizeFrom_congr (P := P) (Nat.lt_succ_self (line.length)) (by simp : _ < line.length + 1 + 1)]
  simp only [List.length_cons, tokenizeFrom, nextCandidateToken_blank h]

theorem tokenizeFrom_readable : ∀ {fuel : ℕ} {line : Text} {ts : List Token},
    tokenizeFrom P fuel line = .ok ts → ∀ t ∈ ts, Readable P t
  | 0, _, _, h => by cases h
  | fuel + 1, line, ts, h => by
    unfold tokenizeFrom at h
    cases hnext : nextCandidateToken line with
    | error e =>
      rw [hnext] at h
      cases h
    | ok candidate =>
      rw [hnext] at h
      cases candidate with
      | none =>
        cases h
        simp
      | some candidate =>
        obtain ⟨text, rest⟩ := candidate
        cases hclass : classify P text with
        | error e => simp [bind, Except.bind, hclass] at h
        | ok t =>
          cases hrest : tokenizeFrom P fuel rest with
          | error e => simp [bind, Except.bind, hclass, hrest] at h
          | ok ts' =>
            obtain rfl : t.toList ++ ts' = ts := by
              simpa [bind, Except.bind, pure, Except.pure, hclass, hrest] using h
            intro u hu
            rcases List.mem_append.1 hu with hu | hu
            · obtain rfl := Option.mem_toList.1 hu
              exact classify_readable (nextCandidateToken_some hnext).2 hclass
            · exact tokenizeFrom_readable hrest u hu

theorem tokenizeLine_readable {line : Text} {ts : List Token} (h : tokenizeLine P line = .ok ts) :
    ∀ t ∈ ts, Readable P t :=
  tokenizeFrom_readable h

theorem tokenizeLine_blanks {line : Text} (h : line.all whitespace = true) :
    tokenizeLine P line = .ok [] := by
  induction line with
  | nil => rfl
  | cons c line ih =>
    rw [List.all_cons, Bool.and_eq_true] at h
    rw [tokenizeLine_blank h.1, ih h.2]

theorem ends_blanks {line : Text} (h : line.all whitespace = true) : Ends line := by
  intro c hc
  cases line with
  | nil => cases hc
  | cons d line =>
    obtain rfl : d = c := by simpa using hc
    rw [List.all_cons, Bool.and_eq_true] at h
    simp [tokenEnd, h.1]

end Courses.Scheme

/-!
# The pieces of a printed value

The text of a value is a list of pieces, its tokens and the blanks between them. Every
word among them is followed by the end of a token, so a line that begins with some of them
has their tokens before those of the rest of the line.
-/
namespace Courses.Scheme

variable {P : Python}

/-! ## Pieces of text -/

/-- A blank or a token in the text of a value. -/
inductive Piece
  | blank
  | token (t : Token)

namespace Piece

def text (P : Python) : Piece → Text
  | blank => [' ']
  | token t => t.print P

/-- The tokens among the pieces. -/
def tokens : List Piece → List Token
  | [] => []
  | blank :: ps => tokens ps
  | token t :: ps => t :: tokens ps

@[simp] theorem tokens_append (ps qs : List Piece) : tokens (ps ++ qs) = tokens ps ++ tokens qs := by
  induction ps with
  | nil => rfl
  | cons p ps ih => cases p <;> simp [tokens, ih]

/-- The text of several pieces. -/
def texts (P : Python) (ps : List Piece) : Text := ps.flatMap (text P)

@[simp] theorem texts_cons (p : Piece) (ps : List Piece) : texts P (p :: ps) = p.text P ++ texts P ps :=
  List.flatMap_cons

@[simp] theorem texts_append (ps qs : List Piece) :
    texts P (ps ++ qs) = texts P ps ++ texts P qs :=
  List.flatMap_append

/-- A piece of a printed value: a blank, or the text of a token that is a parenthesis, a word or
a literal. -/
def IsPrinted (P : Python) : Piece → Prop
  | blank => True
  | token t => classify P (t.print P) = .ok (some t) ∧
      (t.print P = ['('] ∨ t.print P = [')'] ∨ validSymbol (t.print P) = true ∨
        IsLiteral (t.print P))

/-- Every word is followed by an end, in the pieces and the rest of the line. -/
def Separated (P : Python) : List Piece → Text → Prop
  | [], _ => True
  | p :: ps, rest =>
    (validSymbol (p.text P) = true → Ends (texts P ps ++ rest)) ∧ Separated P ps rest

theorem separated_cons {p : Piece} (h : validSymbol (p.text P) = false) {ps : List Piece}
    {rest : Text} : Separated P (p :: ps) rest ↔ Separated P ps rest := by
  simp [Separated, h]

@[simp] theorem separated_blank {ps : List Piece} {rest : Text} :
    Separated P (blank :: ps) rest ↔ Separated P ps rest :=
  separated_cons rfl

@[simp] theorem separated_open {ps : List Piece} {rest : Text} :
    Separated P (token (.str ['(']) :: ps) rest ↔ Separated P ps rest :=
  separated_cons rfl

@[simp] theorem separated_close {ps : List Piece} {rest : Text} :
    Separated P (token (.str [')']) :: ps) rest ↔ Separated P ps rest :=
  separated_cons rfl

theorem separated_append {ps qs : List Piece} {rest : Text} :
    Separated P (ps ++ qs) rest ↔
      Separated P ps (texts P qs ++ rest) ∧ Separated P qs rest := by
  induction ps with
  | nil => simp [Separated]
  | cons p ps ih => simp [Separated, ih, and_assoc]

theorem Separated.of_ends {ps : List Piece} {rest rest' : Text} (h : Separated P ps rest)
    (hends : Ends rest') : Separated P ps rest' := by
  induction ps with
  | nil => trivial
  | cons p ps ih =>
    obtain ⟨hp, hps⟩ := h
    refine ⟨fun hvalid => ?_, ih hps⟩
    have hrest := hp hvalid
    -- What follows a word is in the pieces, or the pieces have no text.
    cases htexts : texts P ps with
    | nil => simpa using hends
    | cons c text =>
      rw [htexts] at hrest
      exact hrest

theorem nextCandidateToken_piece {t : Token} {rest : Text} (h : IsPrinted P (token t))
    (hends : validSymbol (t.print P) = true → Ends rest) :
    nextCandidateToken (t.print P ++ rest) = .ok (some (t.print P, rest)) := by
  obtain ⟨-, hopen | hclose | hvalid | hliteral⟩ := h
  · rw [hopen]
    exact nextCandidateToken_paren (Or.inl rfl) rest
  · rw [hclose]
    exact nextCandidateToken_paren (Or.inr rfl) rest
  · exact nextCandidateToken_word hvalid (hends hvalid)
  · exact nextCandidateToken_literal hliteral rest

/-- The tokens of a line that begins with separated pieces. -/
theorem tokenizeLine_texts {ps : List Piece} {rest : Text} {ts : List Token}
    (hprinted : ∀ p ∈ ps, IsPrinted P p) (hseparated : Separated P ps rest)
    (hrest : tokenizeLine P rest = .ok ts) :
    tokenizeLine P (texts P ps ++ rest) = .ok (tokens ps ++ ts) := by
  induction ps with
  | nil => exact hrest
  | cons p ps ih =>
    have ih := ih (fun q hq => hprinted q (by simp [hq])) hseparated.2
    cases p with
    | blank =>
      simp only [texts_cons, text, List.cons_append, List.nil_append]
      rw [tokenizeLine_blank (by decide), ih]
      rfl
    | token t =>
      have ht := hprinted (token t) (by simp)
      simp only [texts_cons, text, List.append_assoc]
      rw [tokenizeLine_some (nextCandidateToken_piece ht hseparated.1), ht.1, ih]
      rfl

end Piece

/-! ## The pieces of a value -/

mutual

/-- The pieces that `str` of a value puts together. -/
def Value.pieces : Value → List Piece
  | .atom t => [.token t]
  | .nil => [.token (.str ['(']), .token (.str [')'])]
  | .pair first second => .token (.str ['(']) :: (first.pieces ++ second.piecesRest)

def Value.piecesRest : Value → List Piece
  | .pair first second => .blank :: (first.pieces ++ second.piecesRest)
  | .nil => [.token (.str [')'])]
  | .atom t => [.blank, .token (.str ['.']), .blank, .token t, .token (.str [')'])]

end

namespace Value

mutual

theorem texts_pieces : ∀ v : Value, Piece.texts P v.pieces = v.print P
  | .atom t => by simp [pieces, print, Piece.texts, Piece.text]
  | .nil => by simp [pieces, print, Piece.texts, Piece.text, Token.print]
  | .pair first second => by
    simp [pieces, print, Piece.text, Token.print, texts_pieces first, texts_piecesRest second]

theorem texts_piecesRest : ∀ v : Value, Piece.texts P v.piecesRest = v.printRest P
  | .pair first second => by
    simp [piecesRest, printRest, Piece.text, texts_pieces first, texts_piecesRest second]
  | .nil => by simp [piecesRest, printRest, Piece.texts, Piece.text, Token.print]
  | .atom t => by simp [piecesRest, printRest, Piece.texts, Piece.text, Token.print]

end

/-- The atoms of a value, from left to right. -/
def atoms : Value → List Token
  | .atom t => [t]
  | .nil => []
  | .pair first second => first.atoms ++ second.atoms

/-- A value that ends in a word as it prints: a number, a boolean or a symbol. -/
def isWord : Value → Bool
  | .atom (.str s) => s.head? ≠ some doubleQuote
  | .atom _ => true
  | .nil => false
  | .pair _ _ => false

/-- A value that the reader can build and that has no floating-point number. -/
def IsPlain (P : Python) (v : Value) : Prop := ∀ t ∈ v.atoms, IsAtom P t ∧ t.isFloat = false

theorem IsPlain.first {first second : Value} (h : IsPlain P (.pair first second)) :
    IsPlain P first :=
  fun t ht => h t (List.mem_append_left _ ht)

theorem IsPlain.second {first second : Value} (h : IsPlain P (.pair first second)) :
    IsPlain P second :=
  fun t ht => h t (List.mem_append_right _ ht)

theorem isPrinted_atom {t : Token} (h : IsPlain P (.atom t)) : Piece.IsPrinted P (.token t) := by
  obtain ⟨hatom, hfloat⟩ := h t (by simp [atoms])
  exact ⟨classify_print hatom hfloat, Or.inr (Or.inr (print_cases hatom hfloat))⟩

theorem isPrinted_open : Piece.IsPrinted P (.token (.str ['('])) := ⟨rfl, Or.inl rfl⟩

theorem isPrinted_close : Piece.IsPrinted P (.token (.str [')'])) := ⟨rfl, Or.inr (Or.inl rfl)⟩

theorem isPrinted_dot : Piece.IsPrinted P (.token (.str ['.'])) :=
  ⟨rfl, Or.inr (Or.inr (Or.inl rfl))⟩

mutual

theorem isPrinted_pieces : ∀ {v : Value}, IsPlain P v → ∀ p ∈ v.pieces, Piece.IsPrinted P p
  | .atom t, h => by simpa [pieces] using isPrinted_atom h
  | .nil, _ => by simp [pieces, isPrinted_open, isPrinted_close]
  | .pair first second, h => by
    intro p hp
    simp only [pieces, List.mem_cons, List.mem_append] at hp
    rcases hp with rfl | hp | hp
    · exact isPrinted_open
    · exact isPrinted_pieces h.first p hp
    · exact isPrinted_piecesRest h.second p hp

theorem isPrinted_piecesRest : ∀ {v : Value}, IsPlain P v → ∀ p ∈ v.piecesRest, Piece.IsPrinted P p
  | .pair first second, h => by
    intro p hp
    simp only [piecesRest, List.mem_cons, List.mem_append] at hp
    rcases hp with rfl | hp | hp
    · trivial
    · exact isPrinted_pieces h.first p hp
    · exact isPrinted_piecesRest h.second p hp
  | .nil, _ => by simp [piecesRest, isPrinted_close]
  | .atom t, h => by
    have hblank : Piece.IsPrinted P .blank := trivial
    simp [piecesRest, isPrinted_close, isPrinted_dot, isPrinted_atom h, hblank]

end

/-- What follows the first of a pair begins with a blank or a parenthesis. -/
theorem ends_piecesRest (v : Value) (rest : Text) : Ends (Piece.texts P v.piecesRest ++ rest) := by
  intro c hc
  cases v with
  | atom t =>
    obtain rfl : ' ' = c := by simpa [piecesRest, Piece.text] using hc
    decide
  | nil =>
    obtain rfl : ')' = c := by simpa [piecesRest, Piece.text, Token.print] using hc
    decide
  | pair first second =>
    obtain rfl : ' ' = c := by simpa [piecesRest, Piece.text] using hc
    decide

mutual

theorem separated_pieces : ∀ {v : Value} {rest : Text}, IsPlain P v →
    (v.isWord = true → Ends rest) → Piece.Separated P v.pieces rest
  | .atom t, rest, h, hends => by
    refine ⟨fun hvalid => hends ?_, trivial⟩
    cases t with
    | str s =>
      have hhead := head_symbolChar hvalid
      simp only [isWord, decide_eq_true_eq]
      intro hquote
      rw [Piece.text, Token.print, hquote] at hhead
      exact absurd hhead (by decide)
    | int n => rfl
    | float text => rfl
    | bool b => rfl
  | .nil, rest, _, _ => by
    rw [pieces, Piece.separated_open, Piece.separated_close]
    trivial
  | .pair first second, rest, h, _ => by
    rw [pieces, Piece.separated_open, Piece.separated_append]
    exact ⟨separated_pieces h.first fun _ => ends_piecesRest second rest,
      separated_piecesRest h.second⟩

theorem separated_piecesRest : ∀ {v : Value} {rest : Text}, IsPlain P v →
    Piece.Separated P v.piecesRest rest
  | .pair first second, rest, h => by
    rw [piecesRest, Piece.separated_blank, Piece.separated_append]
    exact ⟨separated_pieces h.first fun _ => ends_piecesRest second rest,
      separated_piecesRest h.second⟩
  | .nil, rest, _ => by
    rw [piecesRest, Piece.separated_close]
    trivial
  | .atom t, rest, h => by
    have hdot : Ends (' ' :: (Piece.texts P [.token t, .token (.str [')'])] ++ rest)) := by
      simp [Ends, tokenEnd, whitespace]
    have hclose : Ends (')' :: rest) := by simp [Ends, tokenEnd, singleCharToken]
    rw [piecesRest, Piece.separated_blank]
    refine ⟨fun _ => hdot, ?_⟩
    rw [Piece.separated_blank]
    refine ⟨fun _ => hclose, ?_⟩
    rw [Piece.separated_close]
    trivial

end

end Value

end Courses.Scheme
