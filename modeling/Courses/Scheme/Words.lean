import Courses.Scheme.LowerCase
import Courses.Scheme.Reader

/-!
# Names and literals

Which strings the tokenizer makes into tokens that the reader returns as they are: the
symbols, which are in lower case, and the string literals. The printed text of such a
token is classified as the token itself.
-/
namespace Courses.Scheme

open Courses.Lib

variable (P : Python)

/-! ## Names and literals -/

/-- A string literal, with its quotes. -/
def IsLiteral (s : Text) : Prop :=
  ∃ body, s = doubleQuote :: body ∧ stringRest body = some (body, [])

/-- A symbol as the tokenizer writes it: in lower case, and neither a number nor another word. -/
structure IsSymbol (s : Text) : Prop where
  valid : validSymbol s = true
  lower_eq : lower s = s
  not_delimiter : isDelimiter s = false
  not_true : s ≠ ['t', 'r', 'u', 'e']
  not_false : s ≠ ['f', 'a', 'l', 's', 'e']
  not_nil : s ≠ nilText
  not_number : number P s = none

/-- What the reader returns as it is: a number, a boolean, a symbol or a string literal. -/
def IsAtom : Token → Prop
  | .str s => IsSymbol P s ∨ IsLiteral s
  | _ => True

/-- A literal ends at its closing quote, whatever follows. -/
theorem stringRest_append : ∀ {text s r : Text}, stringRest text = some (s, r) →
    text = s ++ r ∧ ∀ r', stringRest (s ++ r') = some (s, r')
  | [], _, _, h => by simp [stringRest] at h
  | c :: text, s, r, h => by
    rw [stringRest.eq_def] at h
    dsimp only at h
    split_ifs at h with hquote hnewline hslash
    · cases h
      refine ⟨rfl, fun r' => ?_⟩
      rw [List.singleton_append, stringRest.eq_def]
      exact if_pos hquote
    · cases text with
      | nil => simp at h
      | cons d text =>
        dsimp only at h
        split_ifs at h with hd
        obtain ⟨⟨s', r''⟩, hrest, heq⟩ := Option.map_eq_some_iff.1 h
        cases heq
        obtain ⟨ihtext, ihrest⟩ := stringRest_append hrest
        refine ⟨by simp [ihtext], fun r' => ?_⟩
        simp only [List.cons_append]
        rw [stringRest.eq_def]
        simp only [if_neg hquote, if_neg hnewline, if_pos hslash, if_neg hd, ihrest,
          Option.map_some]
    · obtain ⟨⟨s', r''⟩, hrest, heq⟩ := Option.map_eq_some_iff.1 h
      cases heq
      obtain ⟨ihtext, ihrest⟩ := stringRest_append hrest
      refine ⟨by simp [ihtext], fun r' => ?_⟩
      simp only [List.cons_append]
      rw [stringRest.eq_def]
      simp only [if_neg hquote, if_neg hnewline, if_neg hslash, ihrest, Option.map_some]

/-! ## The token of an atom's text -/

theorem symbolChar_doubleQuote : symbolChar doubleQuote = false := by decide

theorem IsLiteral.not_delimiter {s : Text} (h : IsLiteral s) : isDelimiter s = false := by
  obtain ⟨body, rfl, hbody⟩ := h
  cases body with
  | nil => simp [stringRest] at hbody
  | cons c body =>
    cases body with
    | nil => simp [isDelimiter, doubleQuote]
    | cons d body => rfl

theorem IsLiteral.head {s : Text} (h : IsLiteral s) : s.head? = some doubleQuote := by
  obtain ⟨body, rfl, -⟩ := h
  rfl

theorem IsLiteral.not_nil {s : Text} (h : IsLiteral s) : s ≠ nilText := by
  rintro rfl
  exact absurd h.head (by decide)

theorem classify_literal {s : Text} (h : IsLiteral s) : classify P s = .ok (some (.str s)) := by
  have hdelimiter := h.not_delimiter
  have hnil : s ≠ ['n', 'i', 'l'] := h.not_nil
  obtain ⟨body, rfl, -⟩ := h
  have hhash : ∀ c, doubleQuote :: body ≠ ['#', c] := by
    simp [doubleQuote]
  have htrue : lower (doubleQuote :: body) ≠ ['t', 'r', 'u', 'e'] := by
    simp [lower, lowerChar, doubleQuote]
  have hfalse : lower (doubleQuote :: body) ≠ ['f', 'a', 'l', 's', 'e'] := by
    simp [lower, lowerChar, doubleQuote]
  simp only [classify, hdelimiter, hhash, htrue, hfalse, hnil, or_self, if_false,
    Bool.false_eq_true, List.head?_cons, Option.any_some, symbolChar_doubleQuote, if_true]

theorem head_symbolChar {s : Text} (h : validSymbol s = true) :
    s.head?.any symbolChar = true := by
  cases s with
  | nil => simp [validSymbol] at h
  | cons c s => simp_all [validSymbol]

theorem classify_symbol {s : Text} (h : IsSymbol P s) : classify P s = .ok (some (.str s)) := by
  have hhash : ∀ c, s ≠ ['#', c] := by
    rintro c rfl
    simpa [validSymbol, symbolChar, numeralStart] using h.valid
  have hnil : s ≠ ['n', 'i', 'l'] := h.not_nil
  simp only [classify, h.not_delimiter, hhash, h.lower_eq, h.not_true, h.not_false, hnil,
    head_symbolChar h.valid, h.not_number, h.valid, or_self, if_true, if_false, Bool.false_eq_true]

/-! ### Integers and booleans -/

theorem digitPart_digits : ∀ {ds : List ℕ}, ds ≠ [] → (∀ d ∈ ds, d < 10) →
    P.digitPart (ds.map fun d => Char.ofNat (48 + d)) = some ds
  | [], hne, _ => absurd rfl hne
  | [d], _, h => by
    simp only [List.map_cons, List.map_nil, Python.digitPart]
    rw [P.decimal_digit d (h d (by simp))]
    rfl
  | d :: e :: ds, _, h => by
    have he : Char.ofNat (48 + e) ≠ '_' := by
      have hall : ∀ e < 10, Char.ofNat (48 + e) ≠ '_' := by decide
      exact hall e (h e (by simp))
    have ih := digitPart_digits (List.cons_ne_nil e ds) fun d' hd' => h d' (by simp_all)
    simp only [List.map_cons] at ih ⊢
    simp only [Python.digitPart, P.decimal_digit d (h d (by simp)), he, if_false, ih]
    rfl

theorem isDigit_digit {d : ℕ} (h : d < 10) : (Char.ofNat (48 + d)).isDigit = true := by
  have hall : ∀ d < 10, (Char.ofNat (48 + d)).isDigit = true := by decide
  exact hall d h

theorem symbolChar_of_isDigit {c : Char} (h : c.isDigit = true) : symbolChar c = true := by
  simp [symbolChar, numeralStart, h]

theorem intStr_all (n : ℤ) : (intStr n).all symbolChar = true := by
  have hdigits : ∀ d ∈ decimal n.natAbs, symbolChar (Char.ofNat (48 + d)) = true :=
    fun d hd => symbolChar_of_isDigit (isDigit_digit (lt_of_mem_decimal hd))
  have hminus : symbolChar '-' = true := by decide
  unfold intStr
  split_ifs <;> simpa [hminus] using hdigits

theorem int_intStr (n : ℤ) : P.int (intStr n) = some n := by
  have hdigits := digitPart_digits P (decimal_ne_nil n.natAbs) fun d => lt_of_mem_decimal
  rw [Python.int, P.strip_symbol (intStr_all n)]
  unfold intStr
  by_cases hn : n < 0
  · simp only [if_pos hn, List.singleton_append, Python.splitSign, if_true, hdigits, Option.map_some,
      ofDecimal_decimal]
    congr 1
    omega
  · simp only [if_neg hn, List.nil_append]
    have hsign : Python.splitSign ((decimal n.natAbs).map fun d => Char.ofNat (48 + d)) =
        (false, (decimal n.natAbs).map fun d => Char.ofNat (48 + d)) := by
      cases hd : decimal n.natAbs with
      | nil => rfl
      | cons d ds =>
        have hall : ∀ d < 10, Char.ofNat (48 + d) ≠ '-' ∧ Char.ofNat (48 + d) ≠ '+' := by decide
        have hne := hall d (lt_of_mem_decimal (n := n.natAbs) (by simp [hd]))
        simp [Python.splitSign, hne]
    simp only [hsign, hdigits, Option.map_some, ofDecimal_decimal, Bool.false_eq_true, if_false]
    congr 1
    omega

/-- An integer begins with its sign, which is not all of it, or with a digit. -/
theorem intStr_cons (n : ℤ) : ∃ c text, intStr n = c :: text ∧
    (c = '-' ∧ text ≠ [] ∨ c.isDigit = true) := by
  have hne := decimal_ne_nil n.natAbs
  obtain ⟨d, ds, hd⟩ := List.exists_cons_of_ne_nil hne
  have hdigit := isDigit_digit (lt_of_mem_decimal (n := n.natAbs) (d := d) (by simp [hd]))
  by_cases hn : n < 0
  · exact ⟨'-', _, by rw [intStr, if_pos hn]; rfl, Or.inl ⟨rfl, by simpa using hne⟩⟩
  · exact ⟨_, _, by rw [intStr, if_neg hn, hd]; rfl, Or.inr hdigit⟩

theorem classify_int (n : ℤ) : classify P (intStr n) = .ok (some (.int n)) := by
  have hint := int_intStr P n
  obtain ⟨c, text, heq, hc⟩ := intStr_cons n
  rw [heq] at hint ⊢
  have hstart : numeralStart c = true := by
    rcases hc with ⟨rfl, -⟩ | hdigit
    · decide
    · simp [numeralStart, hdigit]
  have hdelimiter : isDelimiter (c :: text) = false := by
    have hcomma : c ≠ ',' := by
      rintro rfl
      simp [numeralStart] at hstart
    cases text with
    | nil =>
      have hdigit : c.isDigit = true := by simpa using hc
      have hsingle : singleCharToken c = false := by
        by_contra hcontra
        simp only [singleCharToken, Bool.not_eq_false, List.contains_iff_mem, List.mem_cons,
          List.not_mem_nil, or_false] at hcontra
        rcases hcontra with rfl | rfl | rfl | rfl | rfl | rfl <;> exact absurd hdigit (by decide)
      have hdot : c ≠ '.' := by
        rintro rfl
        exact absurd hdigit (by decide)
      simp [isDelimiter, hsingle, hdot, hcomma]
    | cons d text =>
      cases text with
      | nil => simp [isDelimiter, hcomma]
      | cons e text => rfl
  have hhead : ∀ d, numeralStart d = false → c ≠ d := by
    rintro d hd rfl
    simp [hstart] at hd
  have hlower : ∀ d, numeralStart d = false → lowerChar c ≠ d := by
    rintro d hd rfl
    rw [numeralStart_lowerChar, hstart] at hd
    cases hd
  have hnumber : number P (c :: text) = some (.int n) := by
    simp [number, hstart, hint]
  have hsymbol : symbolChar c = true := by
    simp [symbolChar, hstart]
  simp only [classify, hdelimiter, lower, List.map_cons, List.cons_eq_cons,
    hhead '#' (by decide), hhead 'n' (by decide), hlower 't' (by decide), hlower 'f' (by decide),
    false_and, or_self, if_false, Bool.false_eq_true, List.head?_cons, Option.any_some, hsymbol,
    if_true, hnumber]

/-! ### All atoms -/

def Token.isFloat : Token → Bool
  | .float _ => true
  | _ => false

variable {P}

theorem classify_print {t : Token} (h : IsAtom P t) (hfloat : t.isFloat = false) :
    classify P (t.print P) = .ok (some t) := by
  cases t with
  | str s =>
    rcases h with hsymbol | hliteral
    · exact classify_symbol P hsymbol
    · exact classify_literal P hliteral
  | int n => exact classify_int P n
  | float text => cases hfloat
  | bool b => cases b <;> rfl

theorem validSymbol_intStr (n : ℤ) : validSymbol (intStr n) = true := by
  obtain ⟨c, text, heq, -⟩ := intStr_cons n
  rw [validSymbol, intStr_all, heq]
  rfl

theorem print_cases {t : Token} (h : IsAtom P t) (hfloat : t.isFloat = false) :
    validSymbol (t.print P) = true ∨ IsLiteral (t.print P) := by
  cases t with
  | str s => exact h.imp IsSymbol.valid id
  | int n => exact Or.inl (validSymbol_intStr n)
  | float text => cases hfloat
  | bool b => cases b <;> exact Or.inl rfl

/-! ## What the tokens of a line are -/

/-- The tokens that a line can have. -/
def Readable (P : Python) (t : Token) : Prop :=
  IsAtom P t ∨ ∃ s, t = .str s ∧ (isDelimiter s = true ∨ s = nilText)

theorem symbolChar_of_tokenEnd {c : Char} (h : tokenEnd c = true) : symbolChar c = false := by
  simp only [tokenEnd, whitespace, singleCharToken, Bool.or_eq_true, List.contains_iff_mem,
    List.mem_cons, List.not_mem_nil, or_false, beq_iff_eq] at h
  rcases h with (((rfl | rfl | rfl | rfl) | rfl | rfl | rfl | rfl | rfl | rfl) | rfl) | rfl <;> decide

theorem tokenEnd_of_symbolChar {c : Char} (h : symbolChar c = true) : tokenEnd c = false := by
  by_contra hcontra
  rw [Bool.not_eq_false] at hcontra
  rw [symbolChar_of_tokenEnd hcontra] at h
  cases h

/-- The point is the one delimiter that is made of the characters of symbols. -/
theorem isDelimiter_symbol {text : Text} (h : validSymbol text = true) :
    isDelimiter text = true ↔ text = ['.'] := by
  simp only [validSymbol, Bool.and_eq_true] at h
  have hend : ∀ c ∈ text, tokenEnd c = false :=
    fun c hc => tokenEnd_of_symbolChar (List.all_eq_true.1 h.2 c hc)
  rcases text with _ | ⟨c, _ | ⟨d, _ | ⟨e, text⟩⟩⟩
  · simp [isDelimiter]
  · have hc := hend c (by simp)
    simp only [tokenEnd, Bool.or_eq_false_iff] at hc
    simp [isDelimiter, hc]
  · have hc := hend c (by simp)
    simp only [tokenEnd, Bool.or_eq_false_iff] at hc
    simp [isDelimiter, hc]
  · simp [isDelimiter]

theorem isDelimiter_lower {text : Text} (h : validSymbol text = true)
    (hdelimiter : isDelimiter text = false) : isDelimiter (lower text) = false := by
  rw [← Bool.not_eq_true] at hdelimiter ⊢
  rw [isDelimiter_symbol h] at hdelimiter
  rw [isDelimiter_symbol (validSymbol_lower h)]
  intro heq
  obtain ⟨c, rfl, hc⟩ := List.map_eq_singleton_iff.1 heq
  rw [lowerChar_eq_iff (by decide)] at hc
  exact hdelimiter (by rw [hc])

theorem number_isAtom {text : Text} {t : Token} (h : number P text = some t) : IsAtom P t := by
  cases t with
  | str s =>
    unfold number at h
    split_ifs at h <;> split at h <;> cases h
  | int n => trivial
  | float text => trivial
  | bool b => trivial

/-- A text that is neither a number nor another word is a symbol once it is in lower case. -/
theorem isSymbol_lower {text : Text} (hvalid : validSymbol text = true)
    (hdelimiter : isDelimiter text = false) (htrue : lower text ≠ ['t', 'r', 'u', 'e'])
    (hfalse : lower text ≠ ['f', 'a', 'l', 's', 'e']) (hnil : lower text ≠ nilText)
    (hnumber : number P text = none) : IsSymbol P (lower text) := by
  have hall : text.all symbolChar = true := by
    simp only [validSymbol, Bool.and_eq_true] at hvalid
    exact hvalid.2
  exact
    { valid := validSymbol_lower hvalid
      lower_eq := lower_lower text
      not_delimiter := isDelimiter_lower hvalid hdelimiter
      not_true := htrue
      not_false := hfalse
      not_nil := hnil
      not_number := number_lower P hall hnumber }

theorem classify_readable {text : Text} {t : Token}
    (hliteral : text.head? = some doubleQuote → IsLiteral text)
    (h : classify P text = .ok (some t)) : Readable P t := by
  unfold classify at h
  by_cases hdelimiter : isDelimiter text = true
  · rw [if_pos hdelimiter] at h
    cases h
    exact Or.inr ⟨text, rfl, Or.inl hdelimiter⟩
  rw [if_neg hdelimiter] at h
  by_cases htrue : text = ['#', 't'] ∨ lower text = ['t', 'r', 'u', 'e']
  · rw [if_pos htrue] at h
    cases h
    exact Or.inl trivial
  rw [if_neg htrue] at h
  by_cases hfalse : text = ['#', 'f'] ∨ lower text = ['f', 'a', 'l', 's', 'e']
  · rw [if_pos hfalse] at h
    cases h
    exact Or.inl trivial
  rw [if_neg hfalse] at h
  by_cases hnil : text = ['n', 'i', 'l']
  · rw [if_pos hnil] at h
    cases h
    exact Or.inr ⟨text, rfl, Or.inr hnil⟩
  rw [if_neg hnil] at h
  by_cases hsymbol : text.head?.any symbolChar = true
  · rw [if_pos hsymbol] at h
    cases hnumber : number P text with
    | some t' =>
      rw [hnumber] at h
      cases h
      exact Or.inl (number_isAtom hnumber)
    | none =>
      rw [hnumber] at h
      dsimp only at h
      split_ifs at h with hvalid
      cases h
      by_cases hlower : lower text = nilText
      · exact Or.inr ⟨_, rfl, Or.inr hlower⟩
      · exact Or.inl (Or.inl (isSymbol_lower hvalid (by simpa using hdelimiter)
          (fun h => htrue (Or.inr h)) (fun h => hfalse (Or.inr h)) hlower hnumber))
  · rw [if_neg hsymbol] at h
    split_ifs at h with hquote
    · cases h
      exact Or.inl (Or.inr (hliteral hquote))
    · cases h

end Courses.Scheme
