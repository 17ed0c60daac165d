import Courses.Lib.Numbers
import Courses.Lib.ListParser

/-!
# The reader of PyCombinator

`lab10`: `buffer.py`, `reader.py`, and the expressions of `expr.py` with the text they
print as. A buffer is the list of the elements it has not supplied yet. Every call and
every round of a loop takes an element, so a count of the elements bounds them.
-/
namespace Courses.PyCombinator

open Courses.Lib

abbrev Text := List Char

/-! ## Expressions -/

/-- A Python number. A floating-point number is the text it was made from. -/
inductive Number
  | int (n : ℤ)
  | float (literal : Text)
  deriving DecidableEq

inductive Expr
  | literal (value : Number)
  | name (string : Text)
  | lambda (parameters : List Text) (body : Expr)
  | call (operator : Expr) (operands : List Expr)

/-- `', '.join(xs)` -/
def commaSeparated : List Text → Text
  | [] => []
  | [x] => x
  | x :: y :: xs => x ++ [',', ' '] ++ commaSeparated (y :: xs)

/-- `str` of an integer. -/
def intStr (n : ℤ) : Text :=
  (if n < 0 then ['-'] else []) ++ (decimal n.natAbs).map fun d => Char.ofNat (48 + d)

def lambdaText : Text := ['l', 'a', 'm', 'b', 'd', 'a']

/-- `isinstance(self, LambdaExpr)` -/
def Expr.isLambda : Expr → Bool
  | .lambda _ _ => true
  | _ => false

section Printing

-- How Python prints the floating-point number made from a text.
variable (floatStr : Text → Text)

def Number.str : Number → Text
  | .int n => intStr n
  | .float literal => floatStr literal

mutual

def Expr.str : Expr → Text
  | .literal value => value.str floatStr
  | .name string => string
  | .lambda parameters body =>
    if parameters.isEmpty then lambdaText ++ [':', ' '] ++ body.str
    else lambdaText ++ [' '] ++ commaSeparated parameters ++ [':', ' '] ++ body.str
  | .call operator operands =>
    let args := ['('] ++ commaSeparated (strs operands) ++ [')']
    if operator.isLambda then ['('] ++ operator.str ++ [')'] ++ args else operator.str ++ args

/-- `[str(x) for x in xs]` -/
def strs : List Expr → List Text
  | [] => []
  | e :: es => e.str :: strs es

end

end Printing

/-! ## Tokens -/

/-- A token is a Python number or string. -/
inductive Token
  | number (value : Number)
  | str (s : Text)
  deriving DecidableEq

/-- A `SyntaxError`, with what its message names. Running out of fuel is not an exception of
the source. -/
inductive ReadError
  | notNumeral (literal : Text)
  | notToken (c : Char)
  | incomplete
  | notStart (token : Text)
  | notParameter (token : Option Token)
  | expected (expected : Text) (actual : Option Token)
  | outOfFuel
  deriving DecidableEq

/-- `SYMBOL_STARTS` -/
def symbolStart (c : Char) : Bool := c.isAlpha || c == '_'

/-- `SYMBOL_INNERS` -/
def symbolInner (c : Char) : Bool := symbolStart c || c.isDigit

/-- `NUMERAL` -/
def numeral (c : Char) : Bool := c.isDigit || c == '-' || c == '.'

/-- `WHITESPACE` -/
def whitespace (c : Char) : Bool := [' ', '\t', '\n', '\r'].contains c

/-- `DELIMITERS` -/
def delimiter (c : Char) : Bool := ['(', ')', ',', ':'].contains c

/-- The number that decimal digits say. -/
def natural (digits : Text) : Option ℕ :=
  if !digits.isEmpty && digits.all Char.isDigit then
    some (ofDecimal (digits.map fun c => c.toNat - 48))
  else none

/-- `int(literal)` for the characters of `NUMERAL`, `none` for a `ValueError`. -/
def int (literal : Text) : Option ℤ :=
  if literal.head? = some '-' then (natural literal.tail).map fun n : ℕ => -(n : ℤ)
  else (natural literal).map fun n : ℕ => (n : ℤ)

/-- Whether `float(literal)` is a number, for the characters of `NUMERAL`. -/
def isFloat (literal : Text) : Bool :=
  let body := if literal.head? = some '-' then literal.tail else literal
  !body.contains '-' && body.any Char.isDigit && body.count '.' ≤ 1

/-- The text that `take` returns, and what it leaves. -/
def take (src : Text) (allowed : Char → Bool) : Text × Text :=
  (src.takeWhile allowed, src.dropWhile allowed)

def nextToken (src : Text) : Except ReadError (Option (Token × Text)) :=
  let src := (take src whitespace).2
  match src with
  | [] => .ok none
  | c :: rest =>
    if numeral c then
      let (literal, rest) := take src numeral
      match int literal with
      | some n => .ok (some (.number (.int n), rest))
      | none =>
        if isFloat literal then .ok (some (.number (.float literal), rest))
        else .error (.notNumeral literal)
    else if symbolStart c then
      let (symbol, rest) := take src symbolInner
      .ok (some (.str symbol, rest))
    else if delimiter c then .ok (some (.str [c], rest))
    else .error (.notToken c)

/-- The loop of `tokenize`. -/
def tokenizeFrom : ℕ → Text → Except ReadError (List Token)
  | 0, _ => .error .outOfFuel
  | fuel + 1, src => do
    match ← nextToken src with
    | none => return []
    | some (token, src) => return token :: (← tokenizeFrom fuel src)

def tokenize (s : Text) : Except ReadError (List Token) := tokenizeFrom (s.length + 1) s

/-- `is_name`, of a string. -/
def isName (s : Text) : Bool :=
  match s with
  | [c] => !delimiter c
  | _ => s != lambdaText

/-! ## The reader -/

abbrev ReadM := ListParser Token ReadError

def current : ReadM (Option Token) := do return (← get).head?

def pop : ReadM (Option Token) := do
  let token ← current
  modify List.tail
  return token

def expect (expected : Text) : ReadM Unit := do
  let actual ← pop
  if actual ≠ some (.str expected) then throw (.expected expected actual)

section Loops

variable {α : Type} (reader : ReadM α)

/-- The loop of `read_comma_separated`. -/
def commaLoop : ℕ → ReadM (List α)
  | 0 => throw .outOfFuel
  | fuel + 1 => do
    if (← current) = some (.str [',']) then
      let _ ← pop
      let next ← reader
      return next :: (← commaLoop fuel)
    else return []

def readCommaSeparated (fuel : ℕ) : ReadM (List α) := do
  let token ← current
  if token = some (.str [':']) ∨ token = some (.str [')']) then return []
  else
    let first ← reader
    return first :: (← commaLoop reader fuel)

end Loops

/-- `read_call_expr` -/
def readCallExpr (reader : ReadM Expr) : ℕ → Expr → ReadM Expr
  | 0, _ => throw .outOfFuel
  | fuel + 1, operator => do
    if (← current) = some (.str ['(']) then
      let _ ← pop
      let operands ← readCommaSeparated reader fuel
      expect [')']
      readCallExpr reader fuel (.call operator operands)
    else return operator

def readParam : ReadM Text := do
  match ← pop with
  | some (.str s) => if isName s then return s else throw (.notParameter (some (.str s)))
  | token => throw (.notParameter token)

def readExpr : ℕ → ReadM Expr
  | 0 => throw .outOfFuel
  | fuel + 1 => do
    match ← pop with
    | none => throw .incomplete
    | some (.number value) => readCallExpr (readExpr fuel) fuel (.literal value)
    | some (.str s) =>
      if isName s then readCallExpr (readExpr fuel) fuel (.name s)
      else if s = lambdaText then
        let params ← readCommaSeparated readParam fuel
        expect [':']
        let body ← readExpr fuel
        return .lambda params body
      else if s = ['('] then
        let inner ← readExpr fuel
        expect [')']
        readCallExpr (readExpr fuel) fuel inner
      else throw (.notStart s)

/-- `read`; `none` where the string contains no expression. -/
def read (s : Text) : Except ReadError (Option Expr) := do
  let tokens ← tokenize s
  if tokens.isEmpty then return none
  else return some (← readExpr (tokens.length + 1) tokens).1

end Courses.PyCombinator
