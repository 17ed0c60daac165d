import Courses.Lib.ListParser

/-!
# The parser of `sh.c`

A pointer into the line is the rest of the line. Every round of a loop and every recursive
call takes a character, so a count of the characters bounds them. A command that is an
argument of no other keeps being written to while it is wrapped in redirections, so the
writes go to the bottom of the wrapped command.
-/
namespace Courses.Shell

abbrev Text := List Char

/-- `exit`, with what was printed before it. Running out of fuel is not an exit of the source. -/
inductive Stop
  | missingFile
  | syntaxError
  | tooManyArgs
  | leftovers
  | outOfFuel
  deriving DecidableEq

/-- A parser moves the pointer into the line, or exits. -/
abbrev ParseM := Courses.Lib.ListParser Char Stop

def nul : Char := Char.ofNat 0

def verticalTab : Char := Char.ofNat 11

def O_RDONLY : ℕ := 0
def O_WRONLY : ℕ := 1
def O_CREAT : ℕ := 64
def O_TRUNC : ℕ := 512

namespace Sh

def MAXARGS : ℕ := 10

inductive Cmd
  | execcmd (argv : List (Option Text))
  | redircmd (type : Char) (cmd : Cmd) (file : Text) (mode fd : ℕ)
  | pipecmd (left right : Cmd)
  | commandcmd (left right : Cmd)

/-- The constructor `execcmd`: all arguments are NULL. -/
def execcmd : Cmd := .execcmd (List.replicate MAXARGS none)

/-- The constructor `redircmd`. -/
def redircmd (subcmd : Cmd) (file : Text) (type : Char) : Cmd :=
  .redircmd type subcmd file (if type = '<' then O_RDONLY else O_WRONLY ||| O_CREAT ||| O_TRUNC)
    (if type = '<' then 0 else 1)

/-- `cmd->argv[argc] = arg`, for the `execcmd` that `ret` wraps. -/
def Cmd.store (argc : ℕ) (arg : Option Text) : Cmd → Cmd
  | .execcmd argv => .execcmd (argv.set argc arg)
  | .redircmd type cmd file mode fd => .redircmd type (cmd.store argc arg) file mode fd
  | c => c

def whitespace : List Char := [' ', '\t', '\r', '\n', verticalTab]

def symbols : List Char := ['<', '|', '>', ';']

/-- `while(s < es && strchr(whitespace, *s)) s++` -/
def skip (s : Text) : Text := s.dropWhile (whitespace.contains ·)

/-- `gettoken`: the kind of token and the characters between `q` and `eq`. -/
def gettoken : ParseM (Char × Text) := fun s =>
  match skip s with
  | [] => .ok ((nul, []), [])
  | c :: s =>
    if c = '<' ∨ c = '|' ∨ c = ';' then .ok ((c, [c]), skip s)
    else if c = '>' then .ok ((c, [c]), skip s)
    else
      let inWord := fun c => !whitespace.contains c && !symbols.contains c
      .ok (('a', (c :: s).takeWhile inWord), skip ((c :: s).dropWhile inWord))

def peek (toks : List Char) : ParseM Bool := fun s =>
  .ok ((skip s).head?.any (toks.contains ·), skip s)

/-- The loop of `parseredirs`. -/
def parseredirs : ℕ → Cmd → ParseM Cmd
  | 0, _ => throw .outOfFuel
  | fuel + 1, cmd => do
    if ← peek ['<', '>'] then
      let (tok, _) ← gettoken
      let (kind, file) ← gettoken
      if kind ≠ 'a' then throw .missingFile
      else if tok = '<' then parseredirs fuel (redircmd cmd file '<')
      else if tok = '>' then parseredirs fuel (redircmd cmd file '>')
      else parseredirs fuel cmd
    else return cmd

/-- The loop of `parseexec`; it answers with `argc` and `ret`. -/
def execLoop : ℕ → ℕ → Cmd → ParseM (ℕ × Cmd)
  | 0, _, _ => throw .outOfFuel
  | fuel + 1, argc, ret => do
    if ← peek ['|', ';'] then return (argc, ret)
    else
      let (tok, arg) ← gettoken
      if tok = nul then return (argc, ret)
      else if tok ≠ 'a' then throw .syntaxError
      else
        let ret := ret.store argc (some arg)
        if argc + 1 ≥ MAXARGS then throw .tooManyArgs
        else
          let ret ← parseredirs fuel ret
          execLoop fuel (argc + 1) ret

def parseexec (fuel : ℕ) : ParseM Cmd := do
  let ret ← parseredirs fuel execcmd
  let (argc, ret) ← execLoop fuel 0 ret
  return ret.store argc none

def parsepipe : ℕ → ParseM Cmd
  | 0 => throw .outOfFuel
  | fuel + 1 => do
    let cmd ← parseexec (fuel + 1)
    if ← peek ['|'] then
      let _ ← gettoken
      return .pipecmd cmd (← parsepipe fuel)
    else return cmd

/-- The commands separated by semicolons. -/
def parsecomd : ℕ → ParseM Cmd
  | 0 => throw .outOfFuel
  | fuel + 1 => do
    let cmd ← parsepipe (fuel + 1)
    if ← peek [';'] then
      let _ ← gettoken
      return .commandcmd cmd (← parsecomd fuel)
    else return cmd

def parseline (fuel : ℕ) : ParseM Cmd := parsecomd fuel

/-- `parsecmd` of a buffer, which ends at its first NUL. -/
def parsecmd (buf : Text) : Except Stop Cmd := do
  let line := buf.takeWhile (· ≠ nul)
  let (cmd, rest) ← parseline (line.length + 1) line
  let (_, rest) ← peek [] rest
  if rest ≠ [] then throw .leftovers else return cmd

end Sh
end Courses.Shell

/-!
# The parser of `parse.cc`

The parser of the second shell, with its own tokens and its own commands, which get their
arguments once all of them are known.
-/
namespace Courses.Shell

inductive Command
  | execommand (args : List Text)
  | redircommand (type : Char) (cmd : Command) (file : Text) (mode fd : ℕ)
  | pipecommand (first second : Command)
  | coloncommand (first second : Command)
  deriving DecidableEq

namespace Command

/-- The constructor of `Redircommand`. -/
def redir (cmd : Command) (file : Text) (type : Char) : Command :=
  .redircommand type cmd file
    (if type = '<' then O_RDONLY else O_WRONLY ||| O_CREAT ||| O_TRUNC) (if type = '<' then 0 else 1)

/-- `set_args` -/
def setArgs (as : List Text) : Command → Command
  | .execommand _ => .execommand as
  | .redircommand type cmd file mode fd => .redircommand type (cmd.setArgs as) file mode fd
  | .pipecommand first second => .pipecommand first second
  | .coloncommand first second => .coloncommand first second

end Command

namespace Parse

def whitespace : List Char := [' ', '\r', '\n', '\t', verticalTab]

def symbols : List Char := ['<', '>', '|', ';']

/-- `while (s < es && whitespace.find(*s) != string::npos) s++` -/
def skip (s : Text) : Text := s.dropWhile (whitespace.contains ·)

/-- `get_token`: the kind of token and the characters between `q` and `eq`. -/
def getToken : ParseM (Char × Text) := fun s =>
  match skip s with
  | [] => .ok ((nul, []), [])
  | c :: s =>
    if c = '<' ∨ c = '>' ∨ c = '|' ∨ c = ';' then .ok ((c, [c]), skip s)
    else
      let inWord := fun c => !whitespace.contains c && !symbols.contains c
      .ok (('a', (c :: s).takeWhile inWord), skip ((c :: s).dropWhile inWord))

def peek (tokens : List Char) : ParseM Bool := fun s =>
  .ok ((skip s).head?.any (tokens.contains ·), skip s)

/-- The loop of `parse_redir`. -/
def parseRedir : ℕ → Command → ParseM Command
  | 0, _ => throw .outOfFuel
  | fuel + 1, cmd => do
    if ← peek ['<', '>'] then
      let (token, _) ← getToken
      let (kind, file) ← getToken
      if kind ≠ 'a' then throw .missingFile
      else if token = '<' then parseRedir fuel (cmd.redir file '<')
      else parseRedir fuel (cmd.redir file '>')
    else return cmd

/-- The loop of `parse_exec`; it answers with `args` and `redir`. -/
def execLoop : ℕ → List Text → Command → ParseM (List Text × Command)
  | 0, _, _ => throw .outOfFuel
  | fuel + 1, args, redir => do
    if ← peek [';', '|'] then return (args, redir)
    else
      let (status, arg) ← getToken
      if status = nul then return (args, redir)
      else if status ≠ 'a' then throw .syntaxError
      else
        let redir ← parseRedir fuel redir
        execLoop fuel (args ++ [arg]) redir

def parseExec (fuel : ℕ) : ParseM Command := do
  let redir ← parseRedir fuel (.execommand [])
  let (args, redir) ← execLoop fuel [] redir
  return redir.setArgs args

def parsePipe : ℕ → ParseM Command
  | 0 => throw .outOfFuel
  | fuel + 1 => do
    let cmd ← parseExec (fuel + 1)
    if ← peek ['|'] then
      let _ ← getToken
      return .pipecommand cmd (← parsePipe fuel)
    else return cmd

def parseColon : ℕ → ParseM Command
  | 0 => throw .outOfFuel
  | fuel + 1 => do
    let cmd ← parsePipe (fuel + 1)
    if ← peek [';'] then
      let _ ← getToken
      return .coloncommand cmd (← parseColon fuel)
    else return cmd

/-- `parse_command` of a buffer, which ends at its first NUL. -/
def parseCommand (buf : Text) : Except Stop Command := do
  let line := buf.takeWhile (· ≠ nul)
  let (cmd, cur) ← parseColon (line.length + 1) line
  let (_, cur) ← peek [] cur
  if cur ≠ [] then throw .leftovers else return cmd

end Parse
end Courses.Shell
