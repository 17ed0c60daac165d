import Courses.Lib.Numbers

/-!
# Formatted printing

`printfmt.c`. `vprintfmt` never looks at what `putch` does, so its result is the characters that
`putch` is called with, in order. A pointer into the format is a position in it, and a read of
the format behind its NUL or before its first character is out of bounds. The arguments have the
sizes of the i386: `int`, `long` and pointers have 32 bits, `long long` has 64.
-/
namespace Courses.Jos.Printfmt

open Courses.Lib

abbrev Text := List Char

def nul : Char := Char.ofNat 0

/-- A string, without the NUL that ends it. -/
structure CString where
  chars : Text
  noNul : nul ∉ chars

/-- Why a call does not return. -/
inductive Stop
  | outOfBounds
  | vaArg
  | outOfFuel
  deriving DecidableEq

/-- `s[i]` -/
def CString.read (s : CString) (i : ℕ) : Except Stop Char :=
  match (s.chars ++ [nul])[i]? with
  | some c => .ok c
  | none => .error .outOfBounds

/-! ## Arguments -/

/-- What a caller passes: 32 bits, 64 bits, or a string, which may be `NULL`. -/
inductive Arg
  | word (n : BitVec 32)
  | longLong (n : BitVec 64)
  | string (p : Option CString)

/-- `va_arg` for the types of 32 bits. -/
def vaWord : List Arg → Except Stop (BitVec 32 × List Arg)
  | .word n :: ap => .ok (n, ap)
  | _ => .error .vaArg

def vaLongLong : List Arg → Except Stop (BitVec 64 × List Arg)
  | .longLong n :: ap => .ok (n, ap)
  | _ => .error .vaArg

def vaString : List Arg → Except Stop (Option CString × List Arg)
  | .string p :: ap => .ok (p, ap)
  | _ => .error .vaArg

def getuint (ap : List Arg) (lflag : ℤ) : Except Stop (BitVec 64 × List Arg) :=
  if lflag ≥ 2 then vaLongLong ap
  else do
    let (n, ap) ← vaWord ap
    return (n.zeroExtend 64, ap)

def getint (ap : List Arg) (lflag : ℤ) : Except Stop (BitVec 64 × List Arg) :=
  if lflag ≥ 2 then vaLongLong ap
  else do
    let (n, ap) ← vaWord ap
    return (n.signExtend 64, ap)

/-! ## What is printed -/

def hexDigits : Text :=
  ['0', '1', '2', '3', '4', '5', '6', '7', '8', '9', 'a', 'b', 'c', 'd', 'e', 'f']

def digitChar (d : ℕ) : Char := hexDigits.getD d nul

/-- `printnum`, where the pad characters come from `while (--width > 0)`. -/
def printnum (num base : ℕ) (hbase : 1 < base) (width : ℤ) (padc : Char) : Text :=
  if base ≤ num then
    printnum (num / base) base hbase (int32 (width - 1)) padc ++ [digitChar (num % base)]
  else List.replicate (int32 (width - 1)).toNat padc ++ [digitChar (num % base)]
termination_by num
decreasing_by exact Nat.div_lt_self (by omega) hbase

/-- The variables that an escape sequence sets. -/
structure Vars where
  padc : Char := ' '
  width : ℤ := -1
  precision : ℤ := -1
  lflag : ℤ := 0
  altflag : Bool := false

/-- `process_precision` -/
def Vars.processPrecision (v : Vars) (precision : ℤ) : Vars :=
  if v.width < 0 then { v with width := precision, precision := -1 }
  else { v with precision := precision }

/-- `strnlen` with a number as `size_t`. -/
def strnlen (p : CString) (size : ℤ) : ℤ := min p.chars.length (size % 2 ^ 32)

/-- The characters of a string up to the precision, and the width after them. -/
def putString (altflag : Bool) : Text → ℤ → ℤ → Text × ℤ
  | [], _, width => ([], width)
  | ch :: p, precision, width =>
    if precision < 0 ∨ precision - 1 ≥ 0 then
      let rest := putString altflag p (if precision < 0 then precision else precision - 1)
        (int32 (width - 1))
      ((if altflag ∧ (ch < ' ' ∨ ch > '~') then '?' else ch) :: rest.1, rest.2)
    else ([], width)

/-- `case 's'` -/
def formatString (v : Vars) (p : CString) : Text :=
  let padded := v.width > 0 ∧ v.padc ≠ '-'
  let width := if padded then int32 (v.width - strnlen p v.precision) else v.width
  let pad := if padded then List.replicate width.toNat v.padc else []
  let width := if padded then min width 0 else width
  let body := putString v.altflag p.chars v.precision width
  pad ++ body.1 ++ List.replicate body.2.toNat ' '

/-- `case 'd'` -/
def formatSigned (v : Vars) (num : BitVec 64) : Text :=
  if num.toInt < 0 then
    '-' :: printnum (-num).toNat 10 Nat.one_lt_ofNat v.width v.padc
  else printnum num.toNat 10 Nat.one_lt_ofNat v.width v.padc

/-- What `putch` makes of an `int`. -/
def charOf (n : BitVec 32) : Char := Char.ofNat (n.toNat % 256)

/-! ## Error messages -/

def errorText : ℕ → Option Text
  | 1 => some "unspecified error".toList
  | 2 => some "bad environment".toList
  | 3 => some "invalid parameter".toList
  | 4 => some "out of memory".toList
  | 5 => some "out of environments".toList
  | 6 => some "segmentation fault".toList
  | _ => none

def MAXERROR : ℕ := 8

theorem nul_notMem_errorText {n : ℕ} {s : Text} (h : errorText n = some s) : nul ∉ s := by
  revert h
  unfold errorText
  split <;> simp <;> rintro rfl <;> decide

/-- A message of the table. -/
def errorString (n : ℕ) : Option CString :=
  match h : errorText n with
  | some s => some ⟨s, nul_notMem_errorText h⟩
  | none => none

/-- `error_string[err]`. An entry has 4 bytes, and the offset is a number of 32 bits. -/
def errorAt (err : ℤ) : Except Stop (Option CString) :=
  let n := (err % 2 ^ 30).toNat
  if n < MAXERROR then .ok (errorString n) else .error .outOfBounds

theorem nul_notMem_errorFormat : nul ∉ "error %d".toList := by decide

theorem nul_notMem_stringFormat : nul ∉ "%s".toList := by decide

theorem nul_notMem_null : nul ∉ "(null)".toList := by decide

/-! ## The format -/

/-- The cases of the switch. -/
inductive Case
  | minus | zero | digit | star | dot | sharp | long
  | char | error | string | decimal | unsigned | octal | pointer | hex | percent
  | default
  deriving DecidableEq

def caseOf (ch : Char) : Case :=
  if ch = '-' then .minus
  else if ch = '0' then .zero
  else if '1' ≤ ch ∧ ch ≤ '9' then .digit
  else if ch = '*' then .star
  else if ch = '.' then .dot
  else if ch = '#' then .sharp
  else if ch = 'l' then .long
  else if ch = 'c' then .char
  else if ch = 'e' then .error
  else if ch = 's' then .string
  else if ch = 'd' then .decimal
  else if ch = 'u' then .unsigned
  else if ch = 'o' then .octal
  else if ch = 'p' then .pointer
  else if ch = 'x' then .hex
  else if ch = '%' then .percent
  else .default

variable (fmt : CString)

/-- `for (precision = 0; ; ++fmt)`, with `ch` read before `i`. -/
def digits : ℕ → ℕ → ℤ → Char → Except Stop (ℤ × ℕ)
  | 0, _, _, _ => .error .outOfFuel
  | fuel + 1, i, precision, ch => do
    let precision := int32 (precision * 10 + ch.toNat - '0'.toNat)
    let ch ← fmt.read i
    if ch < '0' ∨ ch > '9' then return (precision, i)
    else digits fuel (i + 1) precision ch

/-- `for (; fmt[-1] != '%'; fmt--)` -/
def scanBack : ℕ → Except Stop ℕ
  | 0 => .error .outOfBounds
  | i + 1 => do if (← fmt.read i) ≠ '%' then scanBack i else return i + 1

variable (printfmt : CString → List Arg → Except Stop Text)

/-- `case 'e'` -/
def formatError (err : ℤ) : Except Stop Text := do
  let err := if err < 0 then int32 (-err) else err
  let p ← if err ≥ MAXERROR then pure none else errorAt err
  match p with
  | none => printfmt ⟨"error %d".toList, nul_notMem_errorFormat⟩ [.word (.ofInt 32 err)]
  | some p => printfmt ⟨"%s".toList, nul_notMem_stringFormat⟩ [.string (some p)]

/-- The cases that leave the switch, with the format at `i` behind the character: the format and
the arguments after the case, and what is printed. -/
def convert (i : ℕ) (v : Vars) (ap : List Arg) : Case → Except Stop (ℕ × List Arg × Text)
  | .char => do
    let (n, ap) ← vaWord ap
    return (i, ap, [charOf n])
  | .error => do
    let (n, ap) ← vaWord ap
    return (i, ap, ← formatError printfmt n.toInt)
  | .string => do
    let (p, ap) ← vaString ap
    return (i, ap, formatString v (p.getD ⟨"(null)".toList, nul_notMem_null⟩))
  | .decimal => do
    let (num, ap) ← getint ap v.lflag
    return (i, ap, formatSigned v num)
  | .unsigned => do
    let (num, ap) ← getuint ap v.lflag
    return (i, ap, printnum num.toNat 10 Nat.one_lt_ofNat v.width v.padc)
  | .octal => return (i, ap, ['X', 'X', 'X'])
  | .pointer => do
    let (p, ap) ← vaWord ap
    return (i, ap, '0' :: 'x' :: printnum p.toNat 16 Nat.one_lt_ofNat v.width v.padc)
  | .hex => do
    let (num, ap) ← getuint ap v.lflag
    return (i, ap, printnum num.toNat 16 Nat.one_lt_ofNat v.width v.padc)
  | .percent => return (i, ap, ['%'])
  | _ => do
    return (← scanBack fmt (i - 1), ap, ['%'])

/-- The switch, entered again by `goto reswitch`. -/
def escape : ℕ → ℕ → Vars → List Arg → Except Stop (ℕ × List Arg × Text)
  | 0, _, _, _ => .error .outOfFuel
  | fuel + 1, i, v, ap => do
    let ch ← fmt.read i
    match caseOf ch with
    | .minus => escape fuel (i + 1) { v with padc := '-' } ap
    | .zero => escape fuel (i + 1) { v with padc := '0' } ap
    | .digit => do
      let (precision, i) ← digits fmt fuel (i + 1) 0 ch
      escape fuel i (v.processPrecision precision) ap
    | .star => do
      let (precision, ap) ← vaWord ap
      escape fuel (i + 1) (v.processPrecision precision.toInt) ap
    | .dot => escape fuel (i + 1) { v with width := if v.width < 0 then 0 else v.width } ap
    | .sharp => escape fuel (i + 1) { v with altflag := true } ap
    | .long => escape fuel (i + 1) { v with lflag := int32 (v.lflag + 1) } ap
    | leaves => convert fmt printfmt (i + 1) v ap leaves

/-- `while (1)` -/
def loop : ℕ → ℕ → List Arg → Except Stop Text
  | 0, _, _ => .error .outOfFuel
  | fuel + 1, i, ap => do
    let ch ← fmt.read i
    if ch ≠ '%' then
      if ch = nul then return []
      else return ch :: (← loop fuel (i + 1) ap)
    else
      let (i, ap, out) ← escape fmt printfmt (fmt.chars.length + 1) (i + 1) {} ap
      return out ++ (← loop fuel i ap)

/-- `vprintfmt` with so many calls inside one another. -/
def vprintfmtWithin : ℕ → CString → List Arg → Except Stop Text
  | 0, _, _ => .error .outOfFuel
  | depth + 1, fmt, ap => loop fmt (vprintfmtWithin depth) (fmt.chars.length + 1) 0 ap

/-- The call for an error message prints no error message. -/
def vprintfmt (fmt : CString) (ap : List Arg) : Except Stop Text := vprintfmtWithin 2 fmt ap

/-! ## Printing into a buffer -/

/-- `struct sprintbuf`, and the memory. -/
structure Sprintbuf where
  mem : ℕ → Char
  buf : ℕ
  ebuf : ℕ
  cnt : ℤ

def sprintputch (b : Sprintbuf) (ch : Char) : Sprintbuf :=
  let b := { b with cnt := int32 (b.cnt + 1) }
  if b.buf < b.ebuf then { b with mem := Function.update b.mem b.buf ch, buf := b.buf + 1 } else b

def E_INVAL : ℤ := 3

/-- The result of `vsnprintf`, and the memory after it. -/
def vsnprintf (mem : ℕ → Char) (buf : ℕ) (n : ℤ) (fmt : CString) (ap : List Arg) :
    Except Stop (ℤ × (ℕ → Char)) :=
  if buf = 0 ∨ n < 1 then return (-E_INVAL, mem)
  else do
    let out ← vprintfmt fmt ap
    let b := out.foldl sprintputch ⟨mem, buf, (buf + n - 1).toNat, 0⟩
    return (b.cnt, Function.update b.mem b.buf nul)

end Courses.Jos.Printfmt
