import Courses.PyCombinator.Reader
import Mathlib

/-!
# Tokens of printed text

The tokens of an expression, and that its text has these tokens whatever follows, as
long as the next character does not belong to a name or a number.
-/
namespace Courses.PyCombinator

open Courses.Lib

variable {s s' rest : Text} {t : Token} {ts us : List Token} {c : Char} {floatStr : Text → Text}

/-! ## Tokenizing without a bound -/

/-- The tokens of a text, one after the other. -/
inductive Tokenizes : Text → List Token → Prop
  | done {s : Text} : nextToken s = .ok none → Tokenizes s []
  | next {s s' : Text} {t : Token} {ts : List Token} :
    nextToken s = .ok (some (t, s')) → Tokenizes s' ts → Tokenizes s (t :: ts)

theorem length_dropWhile_le (p : Char → Bool) (s : Text) : (s.dropWhile p).length ≤ s.length :=
  (List.dropWhile_suffix p).length_le

/-- A name as the tokenizer takes it. -/
def IsIdentifier (s : Text) : Prop :=
  ∃ c rest, s = c :: rest ∧ symbolStart c = true ∧ ∀ d ∈ rest, symbolInner d = true

/-- The strings among the tokens are names and delimiters. -/
def IsToken : Token → Prop
  | .number _ => True
  | .str s => IsIdentifier s ∨ ∃ c, s = [c] ∧ delimiter c = true

/-- A token takes at least one character, and what is no token is a `SyntaxError`. -/
theorem nextToken_spec (s : Text) :
    match nextToken s with
    | .ok none => True
    | .ok (some (t, s')) => s'.length < s.length ∧ IsToken t
    | .error e => e ≠ .outOfFuel := by
  have hspace := length_dropWhile_le whitespace s
  unfold nextToken take
  dsimp only
  cases hsrc : s.dropWhile whitespace with
  | nil => trivial
  | cons c rest =>
    rw [hsrc, List.length_cons] at hspace
    have hdrop : ∀ p : Char → Bool, p c = true →
        ((c :: rest).dropWhile p).length < s.length := by
      intro p hp
      rw [List.dropWhile_cons_of_pos hp]
      have := length_dropWhile_le p rest
      omega
    dsimp only
    by_cases hnumeral : numeral c = true
    · rw [if_pos hnumeral]
      cases hint : int ((c :: rest).takeWhile numeral) with
      | some n => exact ⟨hdrop numeral hnumeral, trivial⟩
      | none =>
        by_cases hfloat : isFloat ((c :: rest).takeWhile numeral) = true
        · simp only [if_pos hfloat]
          exact ⟨hdrop numeral hnumeral, trivial⟩
        · simp only [if_neg hfloat]
          exact ReadError.noConfusion
    rw [if_neg hnumeral]
    by_cases hsymbol : symbolStart c = true
    · have hinner : symbolInner c = true := by rw [symbolInner, hsymbol, Bool.true_or]
      rw [if_pos hsymbol]
      refine ⟨hdrop symbolInner hinner, Or.inl ⟨c, rest.takeWhile symbolInner, ?_, hsymbol, ?_⟩⟩
      · rw [List.takeWhile_cons_of_pos hinner]
      · exact fun d hd => List.all_eq_true.mp List.all_takeWhile d hd
    rw [if_neg hsymbol]
    by_cases hdelimiter : delimiter c = true
    · rw [if_pos hdelimiter]
      exact ⟨by omega, Or.inr ⟨c, rfl, hdelimiter⟩⟩
    · rw [if_neg hdelimiter]
      exact ReadError.noConfusion

theorem nextToken_shorter (h : nextToken s = .ok (some (t, s'))) : s'.length < s.length := by
  have hspec := nextToken_spec s
  rw [h] at hspec
  exact hspec.1

theorem Tokenizes.tokenizeFrom (h : Tokenizes s ts) {fuel : ℕ} (hfuel : s.length < fuel) :
    tokenizeFrom fuel s = .ok ts := by
  induction h generalizing fuel with
  | done hnone =>
    obtain _ | fuel := fuel
    · exact absurd hfuel (Nat.not_lt_zero _)
    · rw [PyCombinator.tokenizeFrom, hnone]
      rfl
  | next hsome hrest ih =>
    obtain _ | fuel := fuel
    · exact absurd hfuel (Nat.not_lt_zero _)
    · have hlt := nextToken_shorter hsome
      have hlater : PyCombinator.tokenizeFrom fuel _ = .ok _ := ih (by omega)
      rw [PyCombinator.tokenizeFrom, hsome]
      simp only [Bind.bind, Except.bind, hlater]
      rfl

theorem Tokenizes.tokenize (h : Tokenizes s ts) : tokenize s = .ok ts :=
  h.tokenizeFrom (Nat.lt_succ_self _)

theorem tokenizes_of_tokenizeFrom {fuel : ℕ} (h : tokenizeFrom fuel s = .ok ts) :
    Tokenizes s ts := by
  induction fuel generalizing s ts with
  | zero => cases h
  | succ fuel ih =>
    unfold tokenizeFrom at h
    cases hnext : nextToken s with
    | error e =>
      rw [hnext] at h
      cases h
    | ok r =>
      rw [hnext] at h
      cases r with
      | none =>
        cases h
        exact .done hnext
      | some r =>
        obtain ⟨t, s'⟩ := r
        simp only [Bind.bind, Except.bind] at h
        cases hrest : tokenizeFrom fuel s' with
        | error e =>
          rw [hrest] at h
          cases h
        | ok us =>
          rw [hrest] at h
          cases h
          exact .next hnext (ih hrest)

theorem tokenizeFrom_ne_outOfFuel {fuel : ℕ} (hfuel : s.length < fuel) :
    tokenizeFrom fuel s ≠ .error .outOfFuel := by
  induction fuel generalizing s with
  | zero => exact absurd hfuel (Nat.not_lt_zero _)
  | succ fuel ih =>
    unfold tokenizeFrom
    cases hnext : nextToken s with
    | error e =>
      have hspec := nextToken_spec s
      rw [hnext] at hspec
      simpa [Bind.bind, Except.bind] using hspec
    | ok r =>
      cases r with
      | none => simp [Bind.bind, Except.bind, pure, Except.pure]
      | some r =>
        have hlt := nextToken_shorter hnext
        have hne := ih (s := r.2) (by omega)
        cases hrest : tokenizeFrom fuel r.2 with
        | error e =>
          rw [hrest] at hne
          simpa [Bind.bind, Except.bind, hrest] using hne
        | ok us => simp [Bind.bind, Except.bind, hrest, pure, Except.pure]

/-! ## Single tokens -/

/-- What may follow a name or a number: no character that would belong to it. -/
def Boundary (rest : Text) : Prop :=
  ∀ c ∈ rest.head?, symbolInner c = false ∧ numeral c = false

theorem take_append {p : Char → Bool} (hs : ∀ c ∈ s, p c = true)
    (hrest : ∀ c ∈ rest.head?, p c = false) : take (s ++ rest) p = (s, rest) := by
  unfold take
  rw [List.takeWhile_append_of_pos hs, List.dropWhile_append_of_pos hs]
  cases rest with
  | nil => simp
  | cons c rest =>
    have hc := hrest c rfl
    rw [List.takeWhile_cons_of_neg (by simp [hc]), List.dropWhile_cons_of_neg (by simp [hc]),
      List.append_nil]

theorem nextToken_space (rest : Text) : nextToken (' ' :: rest) = nextToken rest := by
  have hspace : whitespace ' ' = true := by decide
  unfold nextToken take
  rw [List.dropWhile_cons_of_pos hspace]

theorem not_whitespace_of_numeral (h : numeral c = true) : whitespace c = false := by
  by_contra hcon
  rw [Bool.not_eq_false] at hcon
  simp only [whitespace, List.contains_iff_mem, List.mem_cons, List.not_mem_nil, or_false] at hcon
  rcases hcon with rfl | rfl | rfl | rfl <;> exact absurd h (by decide)

theorem not_whitespace_of_symbolStart (h : symbolStart c = true) : whitespace c = false := by
  by_contra hcon
  rw [Bool.not_eq_false] at hcon
  simp only [whitespace, List.contains_iff_mem, List.mem_cons, List.not_mem_nil, or_false] at hcon
  rcases hcon with rfl | rfl | rfl | rfl <;> exact absurd h (by decide)

theorem not_numeral_of_symbolStart (h : symbolStart c = true) : numeral c = false := by
  by_contra hcon
  rw [Bool.not_eq_false] at hcon
  unfold symbolStart at h
  simp only [numeral, Bool.or_eq_true, beq_iff_eq] at hcon
  rcases hcon with (hdigit | rfl) | rfl
  · simp only [Char.isDigit, Char.isAlpha, Char.isUpper, Char.isLower, Bool.or_eq_true,
      Bool.and_eq_true, decide_eq_true_eq, beq_iff_eq, ge_iff_le] at h hdigit
    rcases h with (h | h) | rfl
    · have := h.1
      have := hdigit.2
      simp only [UInt32.le_iff_toNat_le] at *
      simp at *
      omega
    · have := h.1
      have := hdigit.2
      simp only [UInt32.le_iff_toNat_le] at *
      simp at *
      omega
    · exact absurd hdigit (by decide)
  · exact absurd h (by decide)
  · exact absurd h (by decide)

theorem nextToken_name (hs : IsIdentifier s) (hrest : Boundary rest) :
    nextToken (s ++ rest) = .ok (some (.str s, rest)) := by
  obtain ⟨c, tail, rfl, hstart, hinner⟩ := hs
  have hspace : (take (c :: tail ++ rest) whitespace).2 = c :: (tail ++ rest) :=
    List.dropWhile_cons_of_neg (by simp [not_whitespace_of_symbolStart hstart])
  have hall : ∀ d ∈ c :: tail, symbolInner d = true := by
    intro d hd
    rcases List.mem_cons.mp hd with rfl | hd
    · rw [symbolInner, hstart, Bool.true_or]
    · exact hinner d hd
  have htake := take_append hall fun d hd => (hrest d hd).1
  rw [List.cons_append] at htake
  unfold nextToken
  rw [hspace]
  simp only [not_numeral_of_symbolStart hstart, hstart, Bool.false_eq_true, if_false, if_true, htake]

theorem nextToken_delimiter (hc : c = '(' ∨ c = ')' ∨ c = ',' ∨ c = ':') (rest : Text) :
    nextToken (c :: rest) = .ok (some (.str [c], rest)) := by
  have hspace : (take (c :: rest) whitespace).2 = c :: rest := by
    apply List.dropWhile_cons_of_neg
    rcases hc with rfl | rfl | rfl | rfl <;> decide
  unfold nextToken
  rw [hspace]
  rcases hc with rfl | rfl | rfl | rfl <;> rfl

/-! ### Integers -/

theorem digitChar_spec : ∀ d < 10,
    (Char.ofNat (48 + d)).isDigit = true ∧ (Char.ofNat (48 + d)).toNat - 48 = d := by
  decide

theorem natural_digits (n : ℕ) :
    natural ((decimal n).map fun d => Char.ofNat (48 + d)) = some n := by
  have hne : ((decimal n).map fun d => Char.ofNat (48 + d)).isEmpty = false := by
    simp [decimal_ne_nil n]
  have hall : ((decimal n).map fun d => Char.ofNat (48 + d)).all Char.isDigit = true := by
    rw [List.all_map, List.all_eq_true]
    exact fun d hd => (digitChar_spec d (lt_of_mem_decimal hd)).1
  have hback : ((decimal n).map fun d => Char.ofNat (48 + d)).map (fun c => c.toNat - 48) =
      decimal n := by
    rw [List.map_map]
    calc (decimal n).map ((fun c => c.toNat - 48) ∘ fun d => Char.ofNat (48 + d))
        = (decimal n).map id :=
          List.map_congr_left fun d hd => (digitChar_spec d (lt_of_mem_decimal hd)).2
      _ = decimal n := List.map_id _
  unfold natural
  rw [hne, hall, hback, ofDecimal_decimal]
  rfl

theorem numeral_intStr {n : ℤ} (hc : c ∈ intStr n) : numeral c = true := by
  unfold intStr at hc
  rcases List.mem_append.mp hc with hc | hc
  · split_ifs at hc
    · rw [List.mem_singleton.mp hc]
      decide
    · exact absurd hc List.not_mem_nil
  · obtain ⟨d, hd, rfl⟩ := List.mem_map.mp hc
    rw [numeral, (digitChar_spec d (lt_of_mem_decimal hd)).1]
    rfl

theorem int_intStr (n : ℤ) : int (intStr n) = some n := by
  have hdigits := natural_digits n.natAbs
  unfold int intStr
  by_cases hn : n < 0
  · simp only [if_pos hn, List.singleton_append, List.head?_cons, List.tail_cons, if_true, hdigits,
      Option.map_some]
    exact congrArg some (by omega)
  · have hhead : ((decimal n.natAbs).map fun d => Char.ofNat (48 + d)).head? ≠ some '-' := by
      intro hcon
      have hmem := List.mem_of_mem_head? hcon
      obtain ⟨d, hd, heq⟩ := List.mem_map.mp hmem
      have hdigit := (digitChar_spec d (lt_of_mem_decimal hd)).1
      rw [heq] at hdigit
      exact absurd hdigit (by decide)
    simp only [if_neg hn, List.nil_append, if_neg hhead, hdigits, Option.map_some]
    exact congrArg some (by omega)

theorem nextToken_int (n : ℤ) (hrest : Boundary rest) :
    nextToken (intStr n ++ rest) = .ok (some (.number (.int n), rest)) := by
  have hne : intStr n ≠ [] := by
    simp [intStr, decimal_ne_nil]
  obtain ⟨c, tail, heq⟩ := List.exists_cons_of_ne_nil hne
  have hc : numeral c = true := numeral_intStr (n := n) (by rw [heq]; exact List.mem_cons_self)
  have htake := take_append (p := numeral) (fun _ hd => numeral_intStr (n := n) hd)
    fun d hd => (hrest d hd).2
  have hint := int_intStr n
  rw [heq, List.cons_append] at htake
  rw [heq] at hint
  have hspace : (take (c :: (tail ++ rest)) whitespace).2 = c :: (tail ++ rest) :=
    List.dropWhile_cons_of_neg (by simp [not_whitespace_of_numeral hc])
  unfold nextToken
  rw [heq, List.cons_append, hspace]
  simp only [hc, if_true, htake, hint]

end Courses.PyCombinator

/-!
# The tokens of an expression

What an expression prints as, token by token. A text with commas between its parts has
the tokens of the parts with commas between them.
-/
namespace Courses.PyCombinator

variable {s rest : Text} {ts us : List Token} {c : Char} (floatStr : Text → Text)

/-- Lists of tokens with a comma between each two. -/
def commaTokens : List (List Token) → List Token
  | [] => []
  | [x] => x
  | x :: y :: xs => x ++ [.str [',']] ++ commaTokens (y :: xs)

mutual

def Expr.tokens : Expr → List Token
  | .literal value => [.number value]
  | .name string => [.str string]
  | .lambda parameters body =>
    [.str lambdaText] ++ commaTokens (parameters.map fun p => [.str p]) ++ [.str [':']] ++
      body.tokens
  | .call operator operands =>
    let args := [.str ['(']] ++ commaTokens (tokenLists operands) ++ [.str [')']]
    if operator.isLambda then [.str ['(']] ++ operator.tokens ++ [.str [')']] ++ args
    else operator.tokens ++ args

def tokenLists : List Expr → List (List Token)
  | [] => []
  | e :: es => e.tokens :: tokenLists es

end

/-- A name that is not the keyword. -/
def IsVariable (s : Text) : Prop := IsIdentifier s ∧ s ≠ lambdaText

mutual

/-- All names and parameters are identifiers other than `lambda`. -/
def Expr.Named : Expr → Prop
  | .literal _ => True
  | .name string => IsVariable string
  | .lambda parameters body => (∀ p ∈ parameters, IsVariable p) ∧ body.Named
  | .call operator operands => operator.Named ∧ AllNamed operands

def AllNamed : List Expr → Prop
  | [] => True
  | e :: es => e.Named ∧ AllNamed es

end

def Number.isFloat : Number → Bool
  | .int _ => false
  | .float _ => true

mutual

def Expr.hasFloat : Expr → Bool
  | .literal value => value.isFloat
  | .name _ => false
  | .lambda _ body => body.hasFloat
  | .call operator operands => operator.hasFloat || anyFloat operands

def anyFloat : List Expr → Bool
  | [] => false
  | e :: es => e.hasFloat || anyFloat es

end

/-! ## Texts with their tokens -/

/-- The text has these tokens, whatever stands after its boundary. -/
def Lexes (s : Text) (ts : List Token) : Prop :=
  ∀ rest us, Boundary rest → Tokenizes rest us → Tokenizes (s ++ rest) (ts ++ us)

theorem boundary_nil : Boundary [] := fun _ h => absurd h (by simp)

theorem boundary_cons (hc : c = '(' ∨ c = ')' ∨ c = ',' ∨ c = ':' ∨ c = ' ') (rest : Text) :
    Boundary (c :: rest) := by
  intro d hd
  cases hd
  rcases hc with rfl | rfl | rfl | rfl | rfl <;> decide

theorem Tokenizes.space (h : Tokenizes rest us) : Tokenizes (' ' :: rest) us := by
  cases h with
  | done hnone => exact .done ((nextToken_space rest).trans hnone)
  | next hsome hrest => exact .next ((nextToken_space rest).trans hsome) hrest

theorem Tokenizes.delimiter (h : Tokenizes rest us)
    (hc : c = '(' ∨ c = ')' ∨ c = ',' ∨ c = ':') : Tokenizes (c :: rest) (.str [c] :: us) :=
  .next (nextToken_delimiter hc rest) h

theorem lexes_name (h : IsIdentifier s) : Lexes s [.str s] :=
  fun _ _ hrest htail => .next (nextToken_name h hrest) htail

theorem lexes_int (n : ℤ) : Lexes (intStr n) [.number (.int n)] :=
  fun _ _ hrest htail => .next (nextToken_int n hrest) htail

theorem lexes_commaSeparated {xs : List Text} {tss : List (List Token)}
    (h : List.Forall₂ Lexes xs tss) : Lexes (commaSeparated xs) (commaTokens tss) := by
  induction h with
  | nil => exact fun _ _ _ htail => htail
  | @cons x ts xs tss hx hxs ih =>
    intro rest us hrest htail
    cases hxs with
    | nil => exact hx rest us hrest htail
    | @cons y us' ys uss hy hys =>
      have hlater := ih rest us hrest htail
      have hcomma := (hlater.space).delimiter (c := ',') (by simp)
      have hboundary := boundary_cons (c := ',') (by simp)
        (' ' :: (commaSeparated (y :: ys) ++ rest))
      simpa [commaSeparated, commaTokens] using hx _ _ hboundary hcomma

theorem isIdentifier_lambdaText : IsIdentifier lambdaText :=
  ⟨'l', ['a', 'm', 'b', 'd', 'a'], rfl, by decide, List.all_eq_true.1 (by decide)⟩

theorem lexes_parameters {parameters : List Text} (h : ∀ p ∈ parameters, IsVariable p) :
    List.Forall₂ Lexes parameters (parameters.map fun p => [.str p]) := by
  induction parameters with
  | nil => exact .nil
  | cons p ps ih =>
    have hp := lexes_name (h p List.mem_cons_self).1
    exact .cons hp (ih fun q hq => h q (List.mem_cons_of_mem _ hq))

mutual

/-- The text of an expression has its tokens. -/
theorem lexes_str : ∀ e : Expr, e.Named → e.hasFloat = false → Lexes (e.str floatStr) e.tokens
  | .literal (.int n), _, _ => lexes_int n
  | .literal (.float _), _, hfloat => Bool.noConfusion hfloat
  | .name s, hnamed, _ => lexes_name hnamed.1
  | .lambda parameters body, hnamed, hfloat => by
    intro rest us hrest htail
    have hbody := lexes_str body hnamed.2 hfloat rest us hrest htail
    have hcolon := hbody.space.delimiter (c := ':') (by simp)
    unfold Expr.str Expr.tokens
    cases parameters with
    | nil =>
      have hboundary := boundary_cons (c := ':') (by simp) (' ' :: (body.str floatStr ++ rest))
      simpa [commaTokens] using lexes_name isIdentifier_lambdaText _ _ hboundary hcolon
    | cons p ps =>
      have hparameters := lexes_commaSeparated (lexes_parameters hnamed.1) _ _
        (boundary_cons (c := ':') (by simp) _) hcolon
      have hboundary := boundary_cons (c := ' ') (by simp)
        (commaSeparated (p :: ps) ++ (':' :: ' ' :: (body.str floatStr ++ rest)))
      simpa using lexes_name isIdentifier_lambdaText _ _ hboundary hparameters.space
  | .call operator operands, hnamed, hfloat => by
    intro rest us hrest htail
    simp only [Expr.hasFloat, Bool.or_eq_false_iff] at hfloat
    have hclose := htail.delimiter (c := ')') (by simp)
    have hargs := lexes_commaSeparated (lexes_strs operands hnamed.2 hfloat.2) _ _
      (boundary_cons (c := ')') (by simp) rest) hclose
    have hopen := hargs.delimiter (c := '(') (by simp)
    have hoperator := lexes_str operator hnamed.1 hfloat.1
    unfold Expr.str Expr.tokens
    by_cases hlambda : operator.isLambda = true
    · have hinner := hoperator _ _ (boundary_cons (c := ')') (by simp) _)
        (hopen.delimiter (c := ')') (by simp))
      simpa [hlambda] using hinner.delimiter (c := '(') (by simp)
    · simpa [hlambda] using hoperator _ _ (boundary_cons (c := '(') (by simp) _) hopen

theorem lexes_strs : ∀ es : List Expr, AllNamed es → anyFloat es = false →
    List.Forall₂ Lexes (strs floatStr es) (tokenLists es)
  | [], _, _ => .nil
  | e :: es, hnamed, hfloat => by
    simp only [anyFloat, Bool.or_eq_false_iff] at hfloat
    exact .cons (lexes_str e hnamed.1 hfloat.1) (lexes_strs es hnamed.2 hfloat.2)

end

theorem tokenize_str {e : Expr} (hnamed : e.Named) (hfloat : e.hasFloat = false) :
    tokenize (e.str floatStr) = .ok e.tokens := by
  have hdone : Tokenizes [] [] := .done rfl
  have h := lexes_str floatStr e hnamed hfloat [] [] boundary_nil hdone
  rw [List.append_nil, List.append_nil] at h
  exact h.tokenize

end Courses.PyCombinator
