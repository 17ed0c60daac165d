import Courses.Scheme.Objects

/-!
# The evaluator

`scheme_eval`, `scheme_apply` and the special forms. Each function is written over the calls
that it makes to the two; the fuel of a run bounds how deep these calls nest and how often a
loop turns, and is no part of the source's behaviour.
-/
namespace Courses.Scheme

variable {W : Type}

/-- The calls that the functions of the evaluator make to each other. -/
structure Calls (W : Type) where
  fuel : ℕ
  eval : Obj → Env → EvalM W Obj
  apply : Obj → Obj → Env → EvalM W Obj

/-! ## Checks -/

/-- `check_form`, where no maximum is `none`. -/
def checkForm (expr : Obj) (min : ℕ) (max : Option ℕ) : Except PyError Unit := do
  if !schemeListp expr then throw (.schemeError (.badlyFormed expr))
  let length ← pyLen expr
  if length < min then throw (.schemeError .tooFewOperands)
  if ∃ m ∈ max, m < length then throw (.schemeError .tooManyOperands)

def checkFormalsHelper : Obj → List Obj → Except PyError Unit
  | .nil, _ => .ok ()
  | .pair first second, used =>
    match second with
    | .pair _ _ | .nil =>
      if !schemeSymbolp first then .error (.schemeError (.notAValidParameter first))
      else if first ∈ used then .error (.schemeError (.repeatedParameter first))
      else checkFormalsHelper second (first :: used)
    | _ => .error (.schemeError .notAWellFormedParameterList)
  | _, _ => .error .attributeError

def checkFormals (formals : Obj) : Except PyError Unit := checkFormalsHelper formals []

/-! ## Sequences of expressions -/

/-- `eval_all` -/
def evalAll (call : Calls W) : Obj → Env → EvalM W Obj
  | .nil, _ => return .okay
  | .pair first second, env => do
    let val ← call.eval first env
    if second = .nil then return val
    evalAll call second env
  | _, _ => throw .attributeError

/-- `rest.map(lambda operand: scheme_eval(operand, env))` -/
def mapEval (call : Calls W) : Obj → Env → EvalM W Obj
  | .nil, _ => return .nil
  | .pair first second, env => do
    let mapped ← call.eval first env
    match second with
    | .pair _ _ | .nil => return .pair mapped (← mapEval call second env)
    | _ => throw .typeError
  | _, _ => throw .attributeError

/-! ## Special forms -/

inductive SpecialForm
  | and
  | begin
  | cond
  | define
  | if
  | lambda
  | let
  | or
  | quote
  | mu
  deriving DecidableEq

/-- `SPECIAL_FORMS` -/
def specialForms : List (Text × SpecialForm) :=
  [(['a', 'n', 'd'], .and), (['b', 'e', 'g', 'i', 'n'], .begin), (['c', 'o', 'n', 'd'], .cond),
    (['d', 'e', 'f', 'i', 'n', 'e'], .define), (['i', 'f'], .if),
    (['l', 'a', 'm', 'b', 'd', 'a'], .lambda), (['l', 'e', 't'], .let), (['o', 'r'], .or),
    (quoteText, .quote), (['m', 'u'], .mu)]

/-- `SPECIAL_FORMS[first]`, if `first` is a symbol of one. -/
def specialForm : Obj → Option SpecialForm
  | .atom (.str s) => specialForms.lookup s
  | _ => none

def doDefineForm (call : Calls W) (expressions : Obj) (env : Env) : EvalM W Obj := do
  fromExcept (checkForm expressions 2 none)
  let target ← fromExcept expressions.getFirst
  let valueExpr ← fromExcept (do (← expressions.getSecond).getFirst)
  if schemeSymbolp target then
    fromExcept (checkForm expressions 2 (some 2))
    let id ← env.frameId
    let value ← call.eval valueExpr env
    modify (·.define id target value)
    return target
  else match target with
    | .pair first formals =>
      if schemeSymbolp first then
        let body ← fromExcept expressions.getSecond
        let id ← env.frameId
        modify (·.define id first (.lambda formals body env))
        return first
      else throw (.schemeError (.nonSymbol first))
    | _ => throw (.schemeError (.nonSymbol target))

def doQuoteForm (expressions : Obj) : EvalM W Obj := do
  fromExcept (checkForm expressions 1 (some 1))
  fromExcept expressions.getFirst

def doBeginForm (call : Calls W) (expressions : Obj) (env : Env) : EvalM W Obj := do
  fromExcept (checkForm expressions 1 none)
  evalAll call expressions env

def doLambdaForm (expressions : Obj) (env : Env) : EvalM W Obj := do
  fromExcept (checkForm expressions 2 none)
  let formals ← fromExcept expressions.getFirst
  fromExcept (checkFormals formals)
  let body ← fromExcept expressions.getSecond
  return .lambda formals body env

def doMuForm (expressions : Obj) : EvalM W Obj := do
  fromExcept (checkForm expressions 2 none)
  let formals ← fromExcept expressions.getFirst
  let body ← fromExcept expressions.getSecond
  fromExcept (checkFormals formals)
  return .mu formals body

def doIfForm (call : Calls W) (expressions : Obj) (env : Env) : EvalM W Obj := do
  fromExcept (checkForm expressions 2 (some 3))
  let predicate ← fromExcept expressions.getFirst
  let branches ← fromExcept expressions.getSecond
  let tbranch ← fromExcept branches.getFirst
  if schemeTrue (← call.eval predicate env) then call.eval tbranch env
  else
    let rest ← fromExcept branches.getSecond
    if rest = .nil then return .okay
    call.eval (← fromExcept rest.getFirst) env

def doAndForm (call : Calls W) : Obj → Env → EvalM W Obj
  | .nil, _ => return .true
  | .pair cur subexpr, env => do
    let evaluation ← call.eval cur env
    if schemeTrue evaluation then
      if subexpr = .nil then return evaluation else doAndForm call subexpr env
    else return .false
  | _, _ => throw .attributeError

def doOrForm (call : Calls W) : Obj → Env → EvalM W Obj
  | .nil, _ => return .false
  | .pair cur subexpr, env => do
    let evaluation ← call.eval cur env
    if schemeTrue evaluation then return evaluation else doOrForm call subexpr env
  | _, _ => throw .attributeError

/-- The test of the `i`-th clause of a `cond` form. -/
def clauseTest (call : Calls W) (numClauses i : ℕ) (first : Obj) (env : Env) : EvalM W Obj :=
  if first = .symbol ['e', 'l', 's', 'e'] then
    if i + 1 < numClauses then throw (.schemeError .elseMustBeLast) else return .true
  else call.eval first env

/-- The loop of `do_cond_form`, at its `i`-th clause. -/
def condLoop (call : Calls W) (numClauses : ℕ) (env : Env) : Obj → ℕ → EvalM W Obj
  | .nil, _ => return .okay
  | .pair clause expressions, i => do
    fromExcept (checkForm clause 1 none)
    let first ← fromExcept clause.getFirst
    let test ← clauseTest call numClauses i first env
    if schemeTrue test then
      let body ← fromExcept clause.getSecond
      if body = .nil then return test
      evalAll call body env
    else condLoop call numClauses env expressions (i + 1)
  | _, _ => throw .attributeError

def doCondForm (call : Calls W) (expressions : Obj) (env : Env) : EvalM W Obj := do
  let numClauses ← fromExcept (pyLen expressions)
  condLoop call numClauses env expressions 0

/-- The loop of `make_let_frame`: the symbols and the values of the clauses. -/
def letLoop (call : Calls W) (env : Env) : Obj → EvalM W (Obj × Obj)
  | .nil => return (.nil, .nil)
  | .pair clause bindings => do
    fromExcept (checkForm clause 2 (some 2))
    let first ← fromExcept clause.getFirst
    if !schemeSymbolp first then throw (.schemeError (.notASymbolForLet first))
    let value ← call.eval (← fromExcept (do (← clause.getSecond).getFirst)) env
    let (formals, args) ← letLoop call env bindings
    return (.pair first formals, .pair value args)
  | _ => throw .attributeError

def makeLetFrame (call : Calls W) (bindings : Obj) (env : Env) : EvalM W Env := do
  if !schemeListp bindings then throw (.schemeError .badBindingsList)
  let (formals, args) ← letLoop call env bindings
  makeChildFrame env formals args

def doLetForm (call : Calls W) (expressions : Obj) (env : Env) : EvalM W Obj := do
  fromExcept (checkForm expressions 2 none)
  let letEnv ← makeLetFrame call (← fromExcept expressions.getFirst) env
  evalAll call (← fromExcept expressions.getSecond) letEnv

def doForm (call : Calls W) (form : SpecialForm) (expressions : Obj) (env : Env) :
    EvalM W Obj :=
  match form with
  | .and => doAndForm call expressions env
  | .begin => doBeginForm call expressions env
  | .cond => doCondForm call expressions env
  | .define => doDefineForm call expressions env
  | .if => doIfForm call expressions env
  | .lambda => doLambdaForm expressions env
  | .let => doLetForm call expressions env
  | .or => doOrForm call expressions env
  | .quote => doQuoteForm expressions
  | .mu => doMuForm expressions

/-! ## Loading a file -/

/-- `while src.more_on_line` of the read-eval-print loop. -/
def evalLine (out : Outside W) (call : Calls W) (file : ℕ) (env : Env) : ℕ → EvalM W Unit
  | 0 => throw .outOfFuel
  | fuel + 1 => do
    if out.moreOnLine file (← get).world then
      let expression ← external (out.read file)
      let _ ← call.eval expression env
      evalLine out call file env fuel
    else return ()

/-- What the read-eval-print loop does about an exception: it goes on or returns, or leaves the
exception to its caller. -/
inductive Handling
  | goOn
  | return
  | raise
  deriving DecidableEq

def handling : PyError → Handling
  | .schemeError _ => .goOn
  | .syntaxError => .goOn
  | .valueError => .goOn
  | .runtimeError Bool.true => .goOn
  | .eofError => .return
  | _ => .raise

/-- `read_eval_print_loop`, as a file is loaded by it. -/
def readEvalPrintLoop (out : Outside W) (call : Calls W) (file : ℕ) (env : Env) :
    ℕ → EvalM W Unit
  | 0 => throw .outOfFuel
  | fuel + 1 => fun h =>
    match (do external (out.nextLine file); evalLine out call file env fuel) h with
    | .ok _ h => readEvalPrintLoop out call file env fuel h
    | .error e h =>
      match handling e with
      | .goOn => readEvalPrintLoop out call file env fuel h
      | .return => .ok () h
      | .raise => .error e h

/-- The name and the `quiet` of `scheme_load`, given all its arguments but the environment. -/
def loadArguments : List Obj → Except PyError (Obj × Obj)
  | [sym] => .ok (sym, .true)
  | [sym, quiet] => .ok (sym, quiet)
  | args => .error (.schemeError (.loadArguments args.length))

/-- What `scheme_load` makes of the name of a file: a literal is evaluated by Python. -/
def fileName (out : Outside W) (sym : Obj) : Except PyError Text :=
  let wrongType := PyError.schemeError (.wrongType 0 ['l', 'o', 'a', 'd'])
  match sym with
  | .atom (.str s) => do
    let name ← if schemeStringp sym then out.evalLiteral s else pure s
    if schemeSymbolp (.symbol name) then return name else throw wrongType
  | _ => throw wrongType

def schemeLoad (out : Outside W) (call : Calls W) (args : List Obj) (env : Env) :
    EvalM W Obj := do
  let (sym, quiet) ← fromExcept (loadArguments args)
  let name ← fromExcept (fileName out sym)
  let file ← external (out.openFile name)
  fromExcept (ifTest quiet)
  readEvalPrintLoop out call file env call.fuel
  return .okay

/-! ## Eval and apply -/

/-- `except TypeError: raise SchemeError` -/
def catchTypeError (x : EvalM W Obj) : EvalM W Obj := fun h =>
  match x h with
  | .error .typeError h => .error (.schemeError .noMessage) h
  | r => r

/-- `procedure.fn(*args)`: the environment is the last argument of `scheme_eval`, `scheme_apply`
and `scheme_load`, and with a second operand `scheme_eval` ignores it. -/
def callFn (out : Outside W) (call : Calls W) (procedure : Primitive) (args : List Obj)
    (env : Env) : EvalM W Obj :=
  match procedure, args with
  | .eval, [expr] => call.eval expr env
  | .eval, [expr, _] => call.eval expr .object
  | .apply, [procedure, args] => call.apply procedure args env
  | .load, args => schemeLoad out call args env
  | .builtin name, args => external (out.builtin name args)
  | _, _ => throw .typeError

def applyPrimitive (out : Outside W) (call : Calls W) (procedure : Primitive)
    (argsSchemeList : Obj) (env : Env) : EvalM W Obj := do
  let args ← fromExcept (elements argsSchemeList)
  catchTypeError (callFn out call procedure args env)

def makeCallFrame (procedure args : Obj) (env : Env) : EvalM W Env :=
  match procedure with
  | .mu formals _ => makeChildFrame env formals args
  | .lambda formals _ closure => makeChildFrame closure formals args
  | _ => throw .attributeError

/-- `procedure.body` -/
def Obj.getBody : Obj → Except PyError Obj
  | .lambda _ body _ => .ok body
  | .mu _ body => .ok body
  | _ => .error .attributeError

/-- The body of `scheme_apply`. -/
def applyBody (out : Outside W) (call : Calls W) (procedure args : Obj) (env : Env) :
    EvalM W Obj :=
  match procedure with
  | .primitive p => applyPrimitive out call p args env
  | _ =>
    if userDefinedProcedure procedure then do
      let newEnv ← makeCallFrame procedure args env
      evalAll call (← fromExcept procedure.getBody) newEnv
    else throw (.schemeError (.cannotCall procedure))

/-- The body of `scheme_eval`. -/
def evalBody (call : Calls W) (expr : Obj) (env : Env) : EvalM W Obj :=
  if expr = .pyNone then throw .assertionError
  else match expr with
    | .atom (.str s) =>
      if schemeSymbolp expr then lookup call.fuel env s else return expr
    | .pair first rest =>
      if !schemeListp expr then throw (.schemeError (.malformedList expr))
      else match specialForm first with
        | some form => doForm call form rest env
        | none => do
          let procedure ← call.eval first env
          let args ← mapEval call rest env
          call.apply procedure args env
    | _ =>
      if selfEvaluating expr then return expr
      else throw (.schemeError (.malformedList expr))

/-- The calls of a run whose calls nest no deeper than `fuel`. -/
def calls (out : Outside W) : ℕ → Calls W
  | 0 => ⟨0, fun _ _ => throw .outOfFuel, fun _ _ _ => throw .outOfFuel⟩
  | fuel + 1 =>
    { fuel := fuel
      eval := evalBody (calls out fuel)
      apply := applyBody out (calls out fuel) }

def schemeEval (out : Outside W) (fuel : ℕ) : Obj → Env → EvalM W Obj := (calls out fuel).eval

def schemeApply (out : Outside W) (fuel : ℕ) : Obj → Obj → Env → EvalM W Obj :=
  (calls out fuel).apply

end Courses.Scheme
