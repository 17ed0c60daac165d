import Courses.Lib.PullIter
import Courses.Lib.Substring
import Courses.SimpleDb.HeapPage

/-!
# The operators of a query

`TupleIterator`, `Filter`, `Join`, `OrderBy` and `Project` of simpledb over
`AbstractDbIterator`, and the predicates they evaluate. The first three operators read
their children to the end when they are opened and go on from a list of their own;
`Project` reads its child as it goes.
-/
namespace Courses.SimpleDb

open Courses.Lib

/-- The run-time exceptions of the operators. -/
inductive IterError
  | illegalArgument
  | nullPointer
  | classCast
  | indexOutOfBounds
  | arithmetic
  deriving DecidableEq

abbrev IterOutcome (α : Type) := Except (Fault IterError) α

/-! ## Comparing fields -/

/-- `Predicate.Op`. -/
inductive Op
  | equals
  | greaterThan
  | lessThan
  | lessThanOrEq
  | greaterThanOrEq
  | like
  | notEquals
  deriving DecidableEq

/-- `String.compareTo`. -/
def compareTo : List UInt16 → List UInt16 → ℤ
  | a :: s, b :: t => if a = b then compareTo s t else (a.toNat : ℤ) - b.toNat
  | s, t => (s.length : ℤ) - t.length

/-- The value of an `int` from its bits. -/
def intValue (value : UInt32) : ℤ := value.toBitVec.toInt

theorem intValue_range (v : UInt32) : -2 ^ 31 ≤ intValue v ∧ intValue v < 2 ^ 31 := by
  have hle := BitVec.le_toInt v.toBitVec
  have hlt := BitVec.toInt_lt (x := v.toBitVec)
  simp only [intValue]
  omega

/-- `IntField.compare` on the values. -/
def compareInts (v : ℤ) (w : ℤ) : Op → Bool
  | .equals => v = w
  | .notEquals => v ≠ w
  | .greaterThan => w < v
  | .greaterThanOrEq => w ≤ v
  | .lessThan => v < w
  | .lessThanOrEq => v ≤ w
  | .like => v = w

/-- `StringField.compare` on the values. -/
def compareStrings (v : List UInt16) (w : List UInt16) : Op → Bool
  | .equals => compareTo v w = 0
  | .notEquals => compareTo v w ≠ 0
  | .greaterThan => 0 < compareTo v w
  | .greaterThanOrEq => 0 ≤ compareTo v w
  | .lessThan => compareTo v w < 0
  | .lessThanOrEq => compareTo v w ≤ 0
  | .like => (find w v).isSome

/-- `Field.compare`; the cast of the other field may fail. -/
def Field.compare : Field → Op → Field → IterOutcome Bool
  | .intField v, op, .intField w => .ok (compareInts (intValue v) (intValue w) op)
  | .stringField v, op, .stringField w => .ok (compareStrings v.value w.value op)
  | _, _, _ => .error (.thrown .classCast)

namespace Tuple

/-- `Tuple.getField`, which may give `null`. -/
def fieldAt (t : Tuple) (i : ℕ) : IterOutcome (Option Field) :=
  match t.fields[i]? with
  | some f => .ok f
  | none => .error (.thrown .illegalArgument)

/-- `Tuple.setField`. -/
def setFieldAt (t : Tuple) (i : ℕ) (f : Option Field) : IterOutcome Tuple :=
  if i < t.td.numFields then .ok (t.setField i f) else .error (.thrown .illegalArgument)

end Tuple

/-- `f1.compare(op, f2)` where either may be `null`. -/
def compareFields : Option Field → Op → Option Field → IterOutcome Bool
  | some f, op, some g => f.compare op g
  | _, _, _ => .error (.thrown .nullPointer)

structure Predicate where
  field : ℕ
  op : Op
  operand : Field

def Predicate.filter (p : Predicate) (t : Tuple) : IterOutcome Bool := do
  compareFields (← t.fieldAt p.field) p.op (some p.operand)

structure JoinPredicate where
  field1 : ℕ
  op : Op
  field2 : ℕ

def JoinPredicate.filter (p : JoinPredicate) (t1 t2 : Tuple) : IterOutcome Bool := do
  compareFields (← t1.fieldAt p.field1) p.op (← t2.fieldAt p.field2)

/-- `TupleComparator.compare`. -/
def compareTuples (field : ℕ) (asc : Bool) (o1 o2 : Tuple) : IterOutcome ℤ := do
  let t1 ← o1.fieldAt field
  let t2 ← o2.fieldAt field
  if ← compareFields t1 .equals t2 then
    return 0
  if ← compareFields t1 .greaterThan t2 then
    return if asc then 1 else -1
  else
    return if asc then -1 else 1

/-! ## Sorting -/

/-- The order of the sort: what the comparator says, and where it throws, by the kind of the
field, which no run gets to see. -/
def sortLe (field : ℕ) (asc : Bool) (o1 o2 : Tuple) : Bool :=
  let kind (t : Tuple) : ℕ :=
    match t.fieldAt field with
    | .ok (some (.intField _)) => 1
    | .ok (some (.stringField _)) => 2
    | _ => 0
  match compareTuples field asc o1 o2 with
  | .ok c => c ≤ 0
  | .error _ => if asc then kind o1 ≤ kind o2 else kind o2 ≤ kind o1

def comparable (field : ℕ) (asc : Bool) (o1 o2 : Tuple) : Bool :=
  match compareTuples field asc o1 o2 with
  | .ok _ => true
  | .error _ => false

/-- `Collections.sort` with a `TupleComparator`: a stable sort. Elements that are not
comparable with each other make it throw. -/
def collectionsSort (field : ℕ) (asc : Bool) (tuples : List Tuple) : IterOutcome (List Tuple) :=
  if tuples.Pairwise fun o1 o2 => comparable field asc o1 o2 then
    .ok (tuples.mergeSort (sortLe field asc))
  else
    .error (.thrown .classCast)

/-! ## The operators -/

/-- `TupleIterator`; its iterator `i` is `null` until it is opened. -/
def tupleIterator (tuples : List Tuple) : PullIter IterError Tuple where
  State := Option (List Tuple)
  start := none
  openIt _ := .ok (some tuples)
  hasNext s :=
    match s with
    | none => .error (.thrown .nullPointer)
    | some rest => .ok (!rest.isEmpty, some rest)
  next s :=
    match s with
    | none => .error (.thrown .nullPointer)
    | some [] => .ok (none, some [])
    | some (t :: rest) => .ok (some t, some rest)
  rewind _ := .ok (some tuples)
  close _ := none
  held _ := none
  left s := (s.getD []).length

section

variable (child child1 child2 : PullIter IterError Tuple)

/-- The loop body of `Filter.open`. -/
def filterBody (p : Predicate) (childTups : List Tuple) (t : Tuple) : IterOutcome (List Tuple) := do
  if ← p.filter t then return childTups ++ [t] else return childTups

/-- `Filter` -/
def filterIter (p : Predicate) : PullIter IterError Tuple :=
  (bufferedReader child.start fun c childTups => do
    let c ← child.openIt c
    child.forEach (filterBody p) childTups c).ahead

/-- `t.setField(offset + j, src.getField(j))` for each field of `src`. -/
def copyFields (t : Tuple) (offset : ℕ) (src : Tuple) : IterOutcome Tuple :=
  (List.range src.td.numFields).foldlM
    (fun t j => do t.setFieldAt (offset + j) (← src.fieldAt j)) t

/-- The new tuple of a `Join`. -/
def joinTuples (td : TupleDesc) (t1 t2 : Tuple) : IterOutcome Tuple := do
  let t ← copyFields (Tuple.new td) 0 t1
  copyFields t t1.td.numFields t2

/-- The inner loop body of `Join.open`. -/
def innerBody (td : TupleDesc) (p : JoinPredicate) (t1 : Tuple) (tups : List Tuple) (t2 : Tuple) :
    IterOutcome (List Tuple) := do
  if ← p.filter t1 t2 then return tups ++ [← joinTuples td t1 t2] else return tups

/-- The outer loop body of `Join.open`, with the state of the inner child. -/
def outerBody (td : TupleDesc) (p : JoinPredicate) (acc : List Tuple × child2.State) (t1 : Tuple) :
    IterOutcome (List Tuple × child2.State) := do
  let c2 ← child2.rewind acc.2
  child2.forEach (innerBody td p t1) acc.1 c2

/-- `Join` -/
def joinIter (td : TupleDesc) (p : JoinPredicate) : PullIter IterError Tuple :=
  (bufferedReader (child1.start, child2.start) fun c tups => do
    let c1 ← child1.openIt c.1
    let c2 ← child2.openIt c.2
    let (acc, c1) ← child1.forEach (outerBody child2 td p) (tups, c2) c1
    return (acc.1, (c1, acc.2))).ahead

/-- `OrderBy` -/
def orderByIter (field : ℕ) (asc : Bool) : PullIter IterError Tuple :=
  (bufferedReader child.start fun c childTups => do
    let c ← child.openIt c
    let (childTups, c) ← child.forEach PullIter.collect childTups c
    return (← collectionsSort field asc childTups, c)).ahead

/-- The new tuple of a `Project`. -/
def projectTuple (td : TupleDesc) (outFieldIds : List ℕ) (t : Tuple) : IterOutcome Tuple :=
  (List.range td.numFields).foldlM
    (fun newTuple i => do
      match outFieldIds[i]? with
      | some id => newTuple.setFieldAt (0 + i) (← t.fieldAt id)
      | none => throw (.thrown .indexOutOfBounds))
    { Tuple.new td with rid := t.rid }

/-- `Project.readNext`. -/
def projectReadNext (td : TupleDesc) (outFieldIds : List ℕ) (c : child.State) :
    IterOutcome (Option Tuple × child.State) := do
  let (more, c) ← child.hasNext c
  if more then
    match ← child.next c with
    | (some t, c) => return (some (← projectTuple td outFieldIds t), c)
    | (none, _) => throw .noSuchElement
  else
    return (none, c)

/-- `Project` -/
def projectIter (td : TupleDesc) (outFieldIds : List ℕ) : PullIter IterError Tuple :=
  Reader.ahead
    { State := child.State
      start := child.start
      openIt := child.openIt
      readNext := projectReadNext child td outFieldIds
      rewind := child.rewind
      close := child.close
      left := child.left }

end

/-! ## Operator trees -/

/-- `TupleDesc.combine`. -/
def TupleDesc.combine (td1 td2 : TupleDesc) : TupleDesc :=
  ⟨td1.types ++ td2.types, by simp [td1.ne_nil]⟩

/-- A tree of operators over leaves. The types of a `Project` are those of its `typesList`. -/
inductive Operator
  | tuples (td : TupleDesc) (ts : List Tuple)
  | filter (p : Predicate) (child : Operator)
  | join (p : JoinPredicate) (child1 child2 : Operator)
  | orderBy (field : ℕ) (asc : Bool) (child : Operator)
  | project (fieldList : List ℕ) (td : TupleDesc) (child : Operator)

namespace Operator

def getTupleDesc : Operator → TupleDesc
  | .tuples td _ => td
  | .filter _ child => child.getTupleDesc
  | .join _ child1 child2 => child1.getTupleDesc.combine child2.getTupleDesc
  | .orderBy _ _ child => child.getTupleDesc
  | .project _ td _ => td

def iterator : Operator → PullIter IterError Tuple
  | .tuples _ ts => tupleIterator ts
  | .filter p child => filterIter child.iterator p
  | .join p child1 child2 =>
    joinIter child1.iterator child2.iterator (child1.getTupleDesc.combine child2.getTupleDesc) p
  | .orderBy field asc child => orderByIter child.iterator field asc
  | .project fieldList td child => projectIter child.iterator td fieldList

end Operator

end Courses.SimpleDb
