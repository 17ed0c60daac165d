import Courses.Lib.Numbers

/-!
# Scheme tokens

`scheme_tokens.py`: the next candidate token of a line, and what kind of token its text
is. A position in a line is the rest of the line. Text that is only put to lower case when
it is compared with ASCII words or is a symbol needs no more than ASCII's letters.
-/
namespace Courses.Scheme

open Courses.Lib

abbrev Text := List Char

/-- The double quote. -/
def doubleQuote : Char := Char.ofNat 34

/-- The single quote. -/
def singleQuote : Char := Char.ofNat 39

/-- The back quote. -/
def backQuote : Char := Char.ofNat 96

def backslash : Char := Char.ofNat 92

/-! ## Classes of characters -/

/-- `_NUMERAL_STARTS` -/
def numeralStart (c : Char) : Bool := c.isDigit || ['+', '-', '.'].contains c

/-- `_SYMBOL_CHARS` -/
def symbolChar (c : Char) : Bool :=
  ['!', '$', '%', '&', '*', '/', ':', '<', '=', '>', '?', '@', '^', '_', '~'].contains c ||
    c.isAlpha || numeralStart c

/-- `_WHITESPACE` -/
def whitespace (c : Char) : Bool := [' ', '\t', '\n', '\r'].contains c

/-- `_SINGLE_CHAR_TOKENS` -/
def singleCharToken (c : Char) : Bool := ['(', ')', '[', ']', singleQuote, backQuote].contains c

/-- `_TOKEN_END` -/
def tokenEnd (c : Char) : Bool :=
  whitespace c || singleCharToken c || c == doubleQuote || c == ','

/-- `text in DELIMITERS` -/
def isDelimiter (text : Text) : Bool :=
  match text with
  | [c] => singleCharToken c || c == '.' || c == ','
  | [c, d] => c == ',' && d == '@'
  | _ => false

def lowerChar (c : Char) : Char := if c.isUpper then Char.ofNat (c.toNat + 32) else c

def lower (text : Text) : Text := text.map lowerChar

/-! ## Numbers -/

/-- What Python knows of all characters beyond those of Scheme: the decimal digits and the white
space of `int` and `float`, and how it prints floating-point numbers. -/
structure Python where
  decimal : Char → Option ℕ
  space : Char → Bool
  floatStr : Text → Text
  decimal_digit : ∀ d < 10, decimal (Char.ofNat (48 + d)) = some d
  decimal_symbolChar : ∀ c, symbolChar c = true → c.isDigit = false → decimal c = none
  space_symbolChar : ∀ c, symbolChar c = true → space c = false

namespace Python

variable (P : Python)

/-- `text.strip()` -/
def strip (text : Text) : Text :=
  ((text.dropWhile P.space).reverse.dropWhile P.space).reverse

/-- Digits, with single underscores between them. -/
def digitPart : Text → Option (List ℕ)
  | [] => none
  | [c] => (P.decimal c).map ([·])
  | c :: d :: text => do
    let n ← P.decimal c
    if d = '_' then return n :: (← digitPart text) else return n :: (← digitPart (d :: text))

/-- A sign, and what follows it. -/
def splitSign : Text → Bool × Text
  | c :: text => if c = '-' then (true, text) else if c = '+' then (false, text)
    else (false, c :: text)
  | [] => (false, [])

/-- `int(text)`, `none` for a `ValueError`. -/
def int (text : Text) : Option ℤ :=
  let (negative, digits) := splitSign (P.strip text)
  (P.digitPart digits).map fun ds => if negative then -(ofDecimal ds : ℤ) else ofDecimal ds

/-- Digits before or after a point, of which there may be none. -/
def digitPartOpt (text : Text) : Bool := text.isEmpty || (P.digitPart text).isSome

/-- The part of a float before its exponent. -/
def mantissa (text : Text) : Bool :=
  match text.dropWhile (· ≠ '.') with
  | [] => (P.digitPart text).isSome
  | _ :: fraction =>
    let whole := text.takeWhile (· ≠ '.')
    P.digitPartOpt whole && P.digitPartOpt fraction && !(whole.isEmpty && fraction.isEmpty)

/-- Whether `float(text)` is a number. -/
def isFloat (text : Text) : Bool :=
  let body := (splitSign (P.strip text)).2
  if [['i', 'n', 'f'], ['i', 'n', 'f', 'i', 'n', 'i', 't', 'y'], ['n', 'a', 'n']].contains
    (lower body) then true
  else match body.dropWhile (lowerChar · ≠ 'e') with
    | [] => P.mantissa body
    | _ :: exponent => P.mantissa (body.takeWhile (lowerChar · ≠ 'e')) &&
        (P.digitPart (splitSign exponent).2).isSome

end Python

/-! ## Tokens -/

/-- What the reader raises. Running out of fuel is not an exception of the source. -/
inductive ReadError
  | endOfFile
  | unexpectedToken (val : Text)
  | unexpectedEndOfFile
  | expectedOneElement
  | invalidString
  | invalidNumeralOrSymbol (text : Text)
  | outOfFuel
  deriving DecidableEq

/-- A token is a Python string, number or boolean. A floating-point number is the text it was made
from. -/
inductive Token
  | str (s : Text)
  | int (n : ℤ)
  | float (text : Text)
  | bool (b : Bool)
  deriving DecidableEq

/-- The rest of a string literal, with its closing quote, and what follows it. -/
def stringRest : Text → Option (Text × Text)
  | [] => none
  | c :: text =>
    if c = doubleQuote then some ([c], text)
    else if c = '\n' then none
    else if c = backslash then
      match text with
      | [] => none
      | d :: text => if d = '\n' then none else (stringRest text).map fun r => (c :: d :: r.1, r.2)
    else (stringRest text).map fun r => (c :: r.1, r.2)

def nextCandidateToken : Text → Except ReadError (Option (Text × Text))
  | [] => .ok none
  | c :: text =>
    if c = ';' then .ok none
    else if whitespace c then nextCandidateToken text
    else if singleCharToken c then
      .ok (some ([if c = ']' then ')' else if c = '[' then '(' else c], text))
    else if c = '#' then .ok (some (c :: text.take 1, text.drop 1))
    else if c = ',' then
      if text.head? = some '@' then .ok (some ([',', '@'], text.drop 1)) else .ok (some ([','], text))
    else if c = doubleQuote then
      if text.head? = some doubleQuote then .ok (some ([c, c], text.drop 1))
      else match stringRest text with
        | some (s, text) => .ok (some (c :: s, text))
        | none => .error .invalidString
    else .ok (some ((c :: text).takeWhile (!tokenEnd ·), (c :: text).dropWhile (!tokenEnd ·)))

def validSymbol (text : Text) : Bool := !text.isEmpty && text.all symbolChar

/-- The number that a text is, if it begins as one. -/
def number (P : Python) (text : Text) : Option Token :=
  if text.head?.any numeralStart then
    match P.int text with
    | some n => some (.int n)
    | none => if P.isFloat text then some (.float text) else none
  else none

/-- The token of a text; a text that is none is reported and left out. -/
def classify (P : Python) (text : Text) : Except ReadError (Option Token) :=
  if isDelimiter text then .ok (some (.str text))
  else if text = ['#', 't'] ∨ lower text = ['t', 'r', 'u', 'e'] then .ok (some (.bool true))
  else if text = ['#', 'f'] ∨ lower text = ['f', 'a', 'l', 's', 'e'] then .ok (some (.bool false))
  else if text = ['n', 'i', 'l'] then .ok (some (.str text))
  else if text.head?.any symbolChar then
    match number P text with
    | some t => .ok (some t)
    | none => if validSymbol text then .ok (some (.str (lower text)))
      else .error (.invalidNumeralOrSymbol text)
  else if text.head? = some doubleQuote then .ok (some (.str text))
  else .ok none

/-- The loop of `tokenize_line`. -/
def tokenizeFrom (P : Python) : ℕ → Text → Except ReadError (List Token)
  | 0, _ => .error .outOfFuel
  | fuel + 1, line => do
    match ← nextCandidateToken line with
    | none => return []
    | some (text, line) =>
      let t ← classify P text
      return t.toList ++ (← tokenizeFrom P fuel line)

/-- `tokenize_line`; a token takes at least one character. -/
def tokenizeLine (P : Python) (line : Text) : Except ReadError (List Token) :=
  tokenizeFrom P (line.length + 1) line

end Courses.Scheme

/-!
# The Scheme reader

`buffer.py` and `scheme_reader.py`: the buffer that takes lines from its source when it
needs them, the two readers over it, and how values print. The buffer stays as it is when
a reader raises. Every call of a reader takes a token or is followed by one that does, so
the fuel of the two is no part of the source's behaviour.
-/
namespace Courses.Scheme

/-! ## Values -/

/-- A value is what a token is, the empty list, or a pair. -/
inductive Value
  | atom (t : Token)
  | nil
  | pair (first second : Value)
  deriving DecidableEq

variable (P : Python)

/-- `str` of an integer. -/
def intStr (n : ℤ) : Text :=
  (if n < 0 then ['-'] else []) ++
    (Courses.Lib.decimal n.natAbs).map fun d => Char.ofNat (48 + d)

/-- `str` of a Python value. -/
def Token.print : Token → Text
  | .str s => s
  | .int n => intStr n
  | .float text => P.floatStr text
  | .bool true => ['T', 'r', 'u', 'e']
  | .bool false => ['F', 'a', 'l', 's', 'e']

mutual

/-- `str` of a Scheme value. -/
def Value.print : Value → Text
  | .atom t => t.print P
  | .nil => ['(', ')']
  | .pair first second => '(' :: (first.print ++ second.printRest)

/-- The loop of `Pair.__str__` over the second of a pair. -/
def Value.printRest : Value → Text
  | .pair first second => ' ' :: (first.print ++ second.printRest)
  | .nil => [')']
  | .atom t => ' ' :: '.' :: ' ' :: (t.print P ++ [')'])

end

/-! ## The buffer -/

structure Buffer where
  index : ℕ
  lines : List (List Token)
  source : List Text
  currentLine : List Token

abbrev ReadM := EStateM ReadError Buffer

namespace Buffer

/-- The loop of `current`, over the lines still in the source. -/
def currentFrom : List Text → ReadM (Option Token)
  | [], b =>
    match b.currentLine[b.index]? with
    | some t => .ok (some t) b
    | none => .ok none { b with index := 0, currentLine := [] }
  | line :: source, b =>
    match b.currentLine[b.index]? with
    | some t => .ok (some t) b
    | none =>
      -- The line is taken from the source even when it has no tokens to give.
      match tokenizeLine P line with
      | .error e => .error e { b with index := 0, source := source }
      | .ok ts => currentFrom source ⟨0, b.lines ++ [ts], source, ts⟩

def current : ReadM (Option Token) := fun b => currentFrom P b.source b

def pop : ReadM (Option Token) := do
  let t ← current P
  modify fun b => { b with index := b.index + 1 }
  return t

/-- `Buffer(tokenize_lines(source))` -/
def new (source : List Text) : EStateM.Result ReadError Buffer (Option Token) :=
  current P ⟨0, [], source, []⟩

end Buffer

/-! ## The readers -/

def nilText : Text := ['n', 'i', 'l']

def quoteText : Text := ['q', 'u', 'o', 't', 'e']

/-- `except EOFError: raise SyntaxError` -/
def onEndOfFile {α : Type} (x : ReadM α) : ReadM α := fun b =>
  match x b with
  | .error .endOfFile b => .error .unexpectedEndOfFile b
  | r => r

mutual

def schemeRead : ℕ → ReadM Value
  | 0 => throw .outOfFuel
  | fuel + 1 => do
    let some _ ← Buffer.current P | throw .endOfFile
    -- What `current` has found is what `pop` returns.
    let some val ← Buffer.pop P | throw .endOfFile
    match val with
    | .str s =>
      if s = nilText then return .nil
      else if !isDelimiter s then return .atom val
      else if s = [singleQuote] then
        return .pair (.atom (.str quoteText)) (.pair (← schemeRead fuel) .nil)
      else if s = ['('] then readTail fuel
      else throw (.unexpectedToken s)
    | _ => return .atom val

def readTail : ℕ → ReadM Value
  | 0 => throw .outOfFuel
  | fuel + 1 => onEndOfFile do
    match ← Buffer.current P with
    | none => throw .unexpectedEndOfFile
    | some t =>
      if t = .str [')'] then
        let _ ← Buffer.pop P
        return .nil
      else if t = .str ['.'] then
        let _ ← Buffer.pop P
        let after ← schemeRead fuel
        if (← Buffer.current P) ≠ some (.str [')']) then throw .expectedOneElement
        else
          let _ ← Buffer.pop P
          return after
      else
        let first ← schemeRead fuel
        let rest ← readTail fuel
        return .pair first rest

end

end Courses.Scheme
