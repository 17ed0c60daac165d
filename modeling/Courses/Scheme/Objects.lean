import Courses.Lib.Effects
import Courses.Scheme.Reader

/-!
# Objects and frames of the interpreter

What `scheme.py` computes with: the Python objects that are Scheme values, the frames that
expressions are evaluated in, and the exceptions. Frames are told apart by their index in the
heap. Values have no identity: a list that is both the formals and the arguments of one call is
treated as two equal lists. What is printed is left out, as is the recursion limit.
-/
namespace Courses.Scheme

inductive Primitive
  | eval
  | apply
  | load
  | builtin (name : Text)
  deriving DecidableEq

/-- What stands where an environment is expected: a frame, or (for `eval` with a second operand)
some object that has none of a frame's methods. -/
inductive Env
  | frame (id : ℕ)
  | object
  deriving DecidableEq

/-- `other` is an object that the interpreter can only pass on, such as a complex number. -/
inductive Obj
  | atom (t : Token)
  | nil
  | pair (first second : Obj)
  | okay
  | pyNone
  | primitive (p : Primitive)
  | lambda (formals body : Obj) (env : Env)
  | mu (formals body : Obj)
  | other (text : Text)
  deriving DecidableEq

def Value.toObj : Value → Obj
  | .atom t => .atom t
  | .nil => .nil
  | .pair first second => .pair first.toObj second.toObj

namespace Obj

def true : Obj := .atom (.bool Bool.true)

def false : Obj := .atom (.bool Bool.false)

def symbol (s : Text) : Obj := .atom (.str s)

end Obj

/-- `isinstance(procedure, UserDefinedProcedure)` -/
def userDefinedProcedure : Obj → Bool
  | .lambda _ _ _ => true
  | .mu _ _ => true
  | _ => false

/-! ## Exceptions -/

/-- What a `SchemeError` says. -/
inductive SchemeMessage
  | malformedList (expr : Obj)
  | cannotCall (procedure : Obj)
  | unknownIdentifier (symbol : Text)
  | sizesDoNotMatch
  | nonSymbol (bad : Obj)
  | elseMustBeLast
  | badBindingsList
  | notASymbolForLet (x : Obj)
  | badlyFormed (expr : Obj)
  | tooFewOperands
  | tooManyOperands
  | notAWellFormedParameterList
  | notAValidParameter (x : Obj)
  | repeatedParameter (x : Obj)
  | wrongType (k : ℕ) (name : Text)
  | loadArguments (n : ℕ)
  | noMessage
  | builtin (text : Text)
  deriving DecidableEq

/-- A runtime error may be the one of the recursion limit. Running out of fuel is not an
exception of the source. -/
inductive PyError
  | schemeError (message : SchemeMessage)
  | typeError
  | attributeError
  | assertionError
  | syntaxError
  | valueError
  | runtimeError (recursionDepth : Bool)
  | eofError
  | other (name : Text)
  | outOfFuel
  deriving DecidableEq

/-! ## Predicates on objects -/

def schemeStringp : Obj → Bool
  | .atom (.str s) => s.head? = some doubleQuote
  | _ => false

def schemeSymbolp : Obj → Bool
  | .atom (.str s) => !(s.head? = some doubleQuote)
  | _ => false

def schemeListp : Obj → Bool
  | .nil => true
  | .pair _ second => schemeListp second
  | _ => false

def schemeAtomp : Obj → Bool
  | .atom (.str s) => schemeSymbolp (.atom (.str s))
  | .atom _ => true
  | .nil => true
  | _ => false

/-- All values in Scheme are true except False. -/
def schemeTrue (val : Obj) : Bool := val ≠ Obj.false

/-- Whether the object evaluates to itself. -/
def selfEvaluating (expr : Obj) : Bool :=
  schemeAtomp expr || schemeStringp expr || decide (expr = .okay)

/-! ## Python's view of objects as sequences -/

/-- The loop of `Pair.__len__` over the second of a pair. -/
def restLen : Obj → Except PyError ℕ
  | .nil => .ok 0
  | .pair _ second => (restLen second).map (· + 1)
  | _ => .error .typeError

/-- `len` -/
def pyLen : Obj → Except PyError ℕ
  | .nil => .ok 0
  | .pair _ second => (restLen second).map (· + 1)
  | .atom (.str s) => .ok s.length
  | _ => .error .typeError

/-- The attribute `first`, which only pairs have. -/
def Obj.getFirst : Obj → Except PyError Obj
  | .pair first _ => .ok first
  | _ => .error .attributeError

/-- The attribute `second`, which only pairs have. -/
def Obj.getSecond : Obj → Except PyError Obj
  | .pair _ second => .ok second
  | _ => .error .attributeError

/-- The objects that follow each other from `x` on, by `first` and `second` until `nil`. -/
def elements : Obj → Except PyError (List Obj)
  | .nil => .ok []
  | .pair first second => (elements second).map (first :: ·)
  | _ => .error .attributeError

/-- `iter`: the characters of a string, the elements of a pair; nothing else has items. -/
def items : Obj → Except PyError (List Obj)
  | .pair first second => elements (.pair first second)
  | .atom (.str s) => .ok (s.map fun c => .symbol [c])
  | _ => .error .typeError

/-- The test of an object by `if`, where the two branches differ in what is printed only: a pair
is asked for its length. -/
def ifTest : Obj → Except PyError Unit
  | .pair first second => (pyLen (.pair first second)).map fun _ => ()
  | _ => .ok ()

/-! ## Frames -/

/-- The bindings are kept as the assignments that made them, the latest first. -/
structure Frame where
  bindings : List (Obj × Obj)
  parent : Option ℕ

/-- All frames made so far, the frames that `define` was called on (the latest first), and what
the interpreter works on besides frames. -/
structure Heap (W : Type) where
  frames : List Frame
  defines : List ℕ
  world : W

abbrev EvalM (W : Type) := EStateM PyError (Heap W)

/-- What the evaluator calls outside `scheme.py`: the builtin procedures, `eval` of a string
literal for the name of a file, and the lines of files that are loaded, read one expression at a
time. None of these gets to see a frame. -/
structure Outside (W : Type) where
  builtin : Text → List Obj → W → Except PyError Obj × W
  evalLiteral : Text → Except PyError Text
  openFile : Text → W → Except PyError ℕ × W
  nextLine : ℕ → W → Except PyError Unit × W
  moreOnLine : ℕ → W → Bool
  read : ℕ → W → Except PyError Obj × W

variable {W α : Type}

/-- A call of something outside. -/
def external (f : W → Except PyError α × W) : EvalM W α := fun h =>
  match f h.world with
  | (.ok a, w) => .ok a { h with world := w }
  | (.error e, w) => .error e { h with world := w }

def fromExcept : Except PyError α → EvalM W α
  | .ok a => pure a
  | .error e => throw e

/-- Looking up a method of `Frame`. -/
def Env.frameId : Env → EvalM W ℕ
  | .frame id => pure id
  | .object => throw .attributeError

namespace Heap

def define (h : Heap W) (id : ℕ) (symbol value : Obj) : Heap W :=
  { h with
    frames := h.frames.modify id fun f => { f with bindings := (symbol, value) :: f.bindings }
    defines := id :: h.defines }

def push (h : Heap W) (f : Frame) : Heap W := { h with frames := h.frames ++ [f] }

/-- The loop of `lookup`. -/
def lookupLoop (frames : List Frame) (symbol : Text) : ℕ → Option ℕ → Except PyError Obj
  | 0, _ => .error .outOfFuel
  | _ + 1, none => .error (.schemeError (.unknownIdentifier symbol))
  | fuel + 1, some id =>
    let frame := frames.getD id ⟨[], none⟩
    match frame.bindings.find? (·.1 = .symbol symbol) with
    | some (_, value) => .ok value
    | none => lookupLoop frames symbol fuel frame.parent

end Heap

def lookup (fuel : ℕ) (env : Env) (symbol : Text) : EvalM W Obj := do
  let id ← env.frameId
  fromExcept (Heap.lookupLoop (← get).frames symbol fuel (some id))

/-- The loop over the formals and values: a pair is no key of a dictionary. -/
def bindAll : List (Obj × Obj) → List (Obj × Obj) → Except PyError (List (Obj × Obj))
  | [], bindings => .ok bindings
  | (.pair _ _, _) :: _, _ => .error .typeError
  | (para, argu) :: rest, bindings => bindAll rest ((para, argu) :: bindings)

/-- What a new frame binds when `formals` are bound to `vals`. -/
def childBindings (formals vals : Obj) : Except PyError (List (Obj × Obj)) := do
  if (← pyLen formals) ≠ (← pyLen vals) then throw (.schemeError .sizesDoNotMatch)
  if formals = .nil ∧ vals = .nil then return []
  bindAll ((← items formals).zip (← items vals)) []

def makeChildFrame (env : Env) (formals vals : Obj) : EvalM W Env := do
  let parent ← env.frameId
  let bindings ← fromExcept (childBindings formals vals)
  let child := (← get).frames.length
  modify (·.push ⟨bindings, some parent⟩)
  return .frame child

end Courses.Scheme
