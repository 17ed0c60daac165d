import Courses.SimpleDb.HeapFileEncoder
import Courses.SimpleDb.Relations
import Mathlib.Data.List.AList

/-!
# Logical plans

`LogicalPlan` as far as it joins tables: how scans, filters and joins are added to a plan,
how field names are resolved, and the part of `physicalPlan` that makes one tree of
operators of them, with `JoinOptimizer.instantiateJoin`. `orderJoins` returns the joins as
they are; the statistics that the code collects for it play no part. A hash map that is
only asked for its keys is a function, the other one an association list.
-/
namespace Courses.SimpleDb

/-- A string. -/
abbrev Name := List UInt16

def dot : UInt16 := 46

/-- `"null"` -/
def nullName : Name := [110, 117, 108, 108]

/-- `"*"` -/
def star : Name := [42]

/-- The exceptions on the way to a plan. -/
inductive PlanError
  | unknownTable (t : ℤ)
  | unknownTableInWhere (t : Name)
  | unknownFieldInFilter (f : Name)
  | unknownField (f : Name)
  | invalidReference (name : Name)
  | ambiguousField (name : Name)
  | noSuchField (name : Name)
  | sameTable
  | invalidSubquery
  | notAllJoined
  | numberFormat
  | noSuchElement
  | arrayIndexOutOfBounds
  deriving DecidableEq

/-! ## Names of fields -/

/-- The parts of a string between its dots. -/
def parts : Name → List Name
  | [] => [[]]
  | c :: s =>
    if c = dot then [] :: parts s
    else match parts s with
      | p :: ps => (c :: p) :: ps
      | [] => [[c]]

/-- `name.split("[.]")`, which leaves out empty parts at the end, unless there is no dot. -/
def splitName (name : Name) : List Name :=
  if dot ∈ name then ((parts name).reverse.dropWhile List.isEmpty).reverse else [name]

/-- `tableAlias + "." + name` -/
def qualify (tableAlias : Name) (name : Name) : Name := tableAlias ++ dot :: name

/-- `TupleDesc.nameToId`, `none` for a `NoSuchElementException`. -/
def nameToId (names : List (Option Name)) (name : Name) : Option ℕ :=
  names.findIdx? (· = some name)

/-- A table of the catalog: its schema with the names of its fields, and its tuples. -/
structure Table where
  td : TupleDesc
  names : List (Option Name)
  tuples : List Tuple
  length_names : names.length = td.numFields
  typed : ∀ t ∈ tuples, t.Typed td

/-- The tables by their identifiers. -/
abbrev Catalog := ℤ → Option Table

/-- An operator tree and the field names of its `getTupleDesc`. -/
structure DbIterator where
  op : Operator
  names : List (Option Name)

/-- `SeqScan`, whose fields have the names `tableAlias.fieldName`. -/
def seqScan (table : Table) (tableAlias : Name) : DbIterator where
  op := .tuples table.td table.tuples
  names := table.names.map fun name => some (qualify tableAlias (name.getD nullName))

/-! ## The plan and its nodes -/

structure ScanNode where
  t : ℤ
  tableAlias : Name

structure FilterNode where
  t : Name
  f : Name
  p : Op
  c : Name

/-- A `LogicalJoinNode`, or a `LogicalSubplanJoinNode`, which has no second table. -/
inductive JoinNode
  | join (t1 t2 f1 f2 : Name) (p : Op)
  | subplanJoin (t1 f1 : Name) (subPlan : Option DbIterator) (p : Op)

structure LogicalPlan where
  tables : List ScanNode
  filters : List FilterNode
  joins : List JoinNode

variable (db : Catalog)

/-- The loop of `disambiguateName` over the tables. -/
def findTable (name : Name) : List ScanNode → Option Name → Except PlanError (Option Name)
  | [], tableName => return tableName
  | table :: tables, tableName =>
    match (db table.t).bind fun file => nameToId file.names name with
    | none => findTable name tables tableName
    | some _ =>
      match tableName with
      | none => findTable name tables (some table.tableAlias)
      | some _ => throw (.ambiguousField name)

namespace LogicalPlan

def disambiguateName (lp : LogicalPlan) (name : Name) : Except PlanError Name := do
  let fields := splitName name
  if fields.length = 2 ∧ fields.head? ≠ some nullName then
    return name
  if fields.length > 2 then
    throw (.invalidReference name)
  let name := if fields.length = 2 then fields.getLastD name else name
  if name = star then
    return name
  match ← findTable db name lp.tables none with
  | some tableName => return qualify tableName name
  | none => throw (.noSuchField name)

/-- `new LogicalPlan()` -/
def new : LogicalPlan := ⟨[], [], []⟩

def addScan (lp : LogicalPlan) (table : ℤ) (name : Name) : LogicalPlan :=
  { lp with tables := lp.tables ++ [⟨table, name⟩] }

/-- The disambiguated name of a field and its first part, the table. -/
def fieldTable (lp : LogicalPlan) (field : Name) : Except PlanError (Name × Name) := do
  let field ← lp.disambiguateName db field
  match splitName field with
  | table :: _ => return (field, table)
  | [] => throw .arrayIndexOutOfBounds

def addFilter (lp : LogicalPlan) (field : Name) (p : Op) (constantValue : Name) :
    Except PlanError LogicalPlan := do
  let (field, table) ← lp.fieldTable db field
  return { lp with filters := lp.filters ++ [⟨table, field, p, constantValue⟩] }

def addJoin (lp : LogicalPlan) (joinField1 joinField2 : Name) (pred : Op) :
    Except PlanError LogicalPlan := do
  let (joinField1, table1) ← lp.fieldTable db joinField1
  let (joinField2, table2) ← lp.fieldTable db joinField2
  if table1 = table2 then
    throw .sameTable
  return { lp with joins := lp.joins ++ [.join table1 table2 joinField1 joinField2 pred] }

def addSubplanJoin (lp : LogicalPlan) (joinField1 : Name) (joinField2 : Option DbIterator)
    (pred : Op) : Except PlanError LogicalPlan := do
  let (joinField1, table1) ← lp.fieldTable db joinField1
  return { lp with joins := lp.joins ++ [.subplanJoin table1 joinField1 joinField2 pred] }

/-! ## The tree of operators -/

abbrev SubplanMap := AList fun _ : Name => DbIterator

/-- The loop over the tables. -/
def scanTable (subplanMap : SubplanMap) (table : ScanNode) : Except PlanError SubplanMap :=
  match db table.t with
  | none => throw (.unknownTable table.t)
  | some file => return subplanMap.insert table.tableAlias (seqScan file table.tableAlias)

/-- The constant of a filter as a field of the type of its column. -/
def filterOperand (ty : Option FieldType) (c : Name) : Except PlanError Field :=
  if ty = some .intType then
    match parseInt c with
    | some n => return .intField (.ofInt n)
    | none => throw .numberFormat
  else
    return .stringField (.new c stringLen)

/-- The loop over the filters. -/
def filterTable (lp : LogicalPlan) (subplanMap : SubplanMap) (lf : FilterNode) :
    Except PlanError SubplanMap := do
  match subplanMap.lookup lf.t with
  | none => throw (.unknownTableInWhere lf.t)
  | some subplan =>
    match nameToId subplan.names (← lp.disambiguateName db lf.f) with
    | none => throw (.unknownFieldInFilter lf.f)
    | some id =>
      let f ← filterOperand subplan.op.getTupleDesc.types[id]? lf.c
      return subplanMap.insert lf.t ⟨.filter ⟨id, lf.p, f⟩ subplan.op, subplan.names⟩

/-- `JoinOptimizer.instantiateJoin`. The join field of a subplan is its first. -/
def instantiateJoin (lp : LogicalPlan) (lj : JoinNode) (plan1 plan2 : DbIterator) :
    Except PlanError DbIterator := do
  let column (f : Name) (plan : DbIterator) : Except PlanError ℕ := do
    match nameToId plan.names (← lp.disambiguateName db f) with
    | none => throw (.unknownField f)
    | some id => return id
  let p ← match lj with
    | .join _ _ f1 f2 p => do
      let t1id ← column f1 plan1
      let t2id ← column f2 plan2
      pure (JoinPredicate.mk t1id p t2id)
    | .subplanJoin _ f1 _ p => do
      let t1id ← column f1 plan1
      pure (JoinPredicate.mk t1id p 0)
  return ⟨.join p plan1.op plan2.op, plan1.names ++ plan2.names⟩

structure JoinState where
  subplanMap : SubplanMap
  equivMap : Name → Option Name

namespace JoinState

/-- The name under which the sub-plan with the table is found. -/
def equivName (s : JoinState) (t : Name) : Name := (s.equivMap t).getD t

/-- `equivMap.put(t2name, t1name)`, and every value that was `t2name` becomes `t1name`. -/
def merge (equivMap : Name → Option Name) (t1name t2name : Name) : Name → Option Name :=
  fun t => (Function.update equivMap t2name (some t1name) t).map fun val =>
    if val = t2name then t1name else val

end JoinState

/-- The loop over the joins. -/
def joinStep (lp : LogicalPlan) (s : JoinState) (lj : JoinNode) : Except PlanError JoinState := do
  match lj with
  | .join t1 t2 _ _ _ =>
    let t1name := s.equivName t1
    let t2name := s.equivName t2
    match s.subplanMap.lookup t1name, s.subplanMap.lookup t2name with
    | some plan1, some plan2 =>
      let j ← lp.instantiateJoin db lj plan1 plan2
      return ⟨(s.subplanMap.insert t1name j).erase t2name,
        JoinState.merge s.equivMap t1name t2name⟩
    | none, _ => throw (.unknownTableInWhere t1)
    | _, none => throw (.unknownTableInWhere t2)
  | .subplanJoin t1 _ subPlan _ =>
    let t1name := s.equivName t1
    match subPlan, s.subplanMap.lookup t1name with
    | some plan2, some plan1 =>
      let j ← lp.instantiateJoin db lj plan1 plan2
      return { s with subplanMap := s.subplanMap.insert t1name j }
    | none, _ => throw .invalidSubquery
    | _, none => throw (.unknownTableInWhere t1)

/-- The one sub-plan that is left. -/
def lastSubplan (subplanMap : SubplanMap) : Except PlanError DbIterator :=
  if subplanMap.entries.length > 1 then throw .notAllJoined
  else match subplanMap.entries with
    | [] => throw .noSuchElement
    | e :: _ => return e.2

/-- `physicalPlan` up to the node that has all tables. -/
def joinedPlan (lp : LogicalPlan) : Except PlanError DbIterator := do
  let subplanMap ← lp.tables.foldlM (scanTable db) ∅
  let subplanMap ← lp.filters.foldlM (filterTable db lp) subplanMap
  let s ← lp.joins.foldlM (joinStep db lp) ⟨subplanMap, fun _ => none⟩
  lastSubplan s.subplanMap

end LogicalPlan

end Courses.SimpleDb

/-!
# Swapping the tables of a join

`swapInnerOuter` exchanges the two tables and the two fields of a join node and gives it a
new operator. The node it makes selects the transposed pairs if the new operator is the
converse of the old one. For an inequality the method takes the negation instead, and
`LIKE`, which it keeps, is not its own converse on strings.
-/
namespace Courses.SimpleDb

open Courses.Lib

/-! ## Containment -/

section

variable {α : Type*} [BEq α] [LawfulBEq α]

theorem find_isSome_iff (pat text : List α) : (find pat text).isSome = true ↔ pat <:+: text := by
  induction text with
  | nil => simp [find]
  | cons a text ih =>
    by_cases hp : pat.isPrefixOf (a :: text) = true
    · have hinfix : pat <:+: a :: text := (List.isPrefixOf_iff_prefix.1 hp).isInfix
      simp [find, hp, hinfix]
    · have hnot : ¬ pat <+: a :: text := fun h => hp (List.isPrefixOf_iff_prefix.2 h)
      simp [find, hp, List.infix_cons_iff, hnot, ih]

end

/-! ## The order of the fields -/

theorem compareTo_neg (s t : List UInt16) : compareTo t s = -compareTo s t := by
  induction s, t using compareTo.induct with
  | case1 a s t ih => simp [compareTo, ih]
  | case2 a s b t hne => simp [compareTo, hne, Ne.symm hne]
  | case3 s t hcons =>
    cases s with
    | nil => cases t <;> simp [compareTo]
    | cons a s =>
      cases t with
      | nil => simp [compareTo]
      | cons b t => exact absurd rfl (hcons a s b t rfl)

theorem compareTo_eq_zero_iff (s t : List UInt16) : compareTo s t = 0 ↔ s = t := by
  rw [compareTo_zero_iff]
  constructor
  · intro h
    exact List.map_injective_iff.2 (fun a b hab => UInt16.toNat_inj.1 hab) h
  · intro h
    rw [h]

/-! ## The node with its tables swapped -/

namespace Op

/-- `newp` of `swapInnerOuter`. -/
def newp (p : Op) : Op :=
  if p = .greaterThan then .lessThanOrEq
  else if p = .greaterThanOrEq then .lessThan
  else if p = .lessThan then .greaterThanOrEq
  else if p = .lessThanOrEq then .greaterThan
  else p

def IsInequality (p : Op) : Prop :=
  p = .greaterThan ∨ p = .greaterThanOrEq ∨ p = .lessThan ∨ p = .lessThanOrEq

theorem newp_newp (p : Op) : p.newp.newp = p := by cases p <;> rfl

/-- Two fields on which the operator of the swapped node says the same, the other way round. -/
def SwapsOn (p : Op) (f g : Option Field) : Prop :=
  (p.IsInequality → compareFields f .equals g ≠ .ok true) ∧
    (p = .like → ∀ v w, f = some (.stringField v) → g = some (.stringField w) →
      v.value <:+: w.value ∨ w.value <:+: v.value → v.value = w.value)

end Op

namespace JoinNode

/-- The predicate operator of a node. -/
def op : JoinNode → Op
  | .join _ _ _ _ p => p
  | .subplanJoin _ _ _ p => p

def swapInnerOuter : JoinNode → JoinNode
  | .join t1 t2 f1 f2 p => .join t2 t1 f2 f1 p.newp
  | .subplanJoin t1 f1 subPlan p => .subplanJoin t1 f1 subPlan p

theorem swapInnerOuter_swapInnerOuter (lj : JoinNode) :
    lj.swapInnerOuter.swapInnerOuter = lj := by
  cases lj <;> simp [swapInnerOuter, Op.newp_newp]

end JoinNode

/-- The pairs of two relations that the predicate selects. -/
def JoinPredicate.selects (p : JoinPredicate) (ts1 ts2 : List Tuple) : Set (Tuple × Tuple) :=
  {x | x.1 ∈ ts1 ∧ x.2 ∈ ts2 ∧ p.filter x.1 x.2 = .ok true}

/-- The pairs that a node selects, where `column` finds a field of a table, `rel` gives the
tuples of a table and `sub` those of a subplan. -/
def JoinNode.selects (column : Name → Name → ℕ) (rel : Name → List Tuple)
    (sub : Option DbIterator → List Tuple) : JoinNode → Set (Tuple × Tuple)
  | .join t1 t2 f1 f2 p =>
    JoinPredicate.selects ⟨column t1 f1, p, column t2 f2⟩ (rel t1) (rel t2)
  | .subplanJoin t1 f1 subPlan p =>
    JoinPredicate.selects ⟨column t1 f1, p, 0⟩ (rel t1) (sub subPlan)

/-- `instantiateJoin` takes the predicate of a swapped node from the same two columns. -/
theorem LogicalPlan.instantiateJoin_swapInnerOuter {db : Catalog} {lp : LogicalPlan}
    {t1 t2 f1 f2 : Name} {p : Op} {plan1 plan2 j : DbIterator}
    (h : lp.instantiateJoin db (.join t1 t2 f1 f2 p) plan1 plan2 = .ok j) :
    ∃ i1 i2, j.op = .join ⟨i1, p, i2⟩ plan1.op plan2.op ∧
      lp.instantiateJoin db (JoinNode.join t1 t2 f1 f2 p).swapInnerOuter plan2 plan1 =
        .ok ⟨.join ⟨i2, p.newp, i1⟩ plan2.op plan1.op, plan2.names ++ plan1.names⟩ := by
  simp only [instantiateJoin, JoinNode.swapInnerOuter] at h ⊢
  cases hname1 : lp.disambiguateName db f1 with
  | error e => simp [hname1, bind, Except.bind] at h
  | ok name1 =>
    cases hid1 : nameToId plan1.names name1 with
    | none => simp [hname1, hid1, bind, Except.bind] at h
    | some i1 =>
      cases hname2 : lp.disambiguateName db f2 with
      | error e => simp [hname1, hid1, hname2, bind, Except.bind, pure, Except.pure] at h
      | ok name2 =>
        cases hid2 : nameToId plan2.names name2 with
        | none => simp [hname1, hid1, hname2, hid2, bind, Except.bind, pure, Except.pure] at h
        | some i2 =>
          simp only [hname1, hid1, hname2, hid2, bind, Except.bind, pure, Except.pure,
            Except.ok.injEq] at h ⊢
          exact ⟨i1, i2, by rw [← h], rfl⟩

/-! ## Pairs of fields -/

theorem compareInts_newp_iff (p : Op) (v w : ℤ) :
    (compareInts w v p.newp = true ↔ compareInts v w p = true) ↔
      (p.IsInequality → v ≠ w) := by
  cases p <;> simp [compareInts, Op.newp, Op.IsInequality] <;> omega

theorem compareStrings_newp_iff (p : Op) (v w : List UInt16) :
    (compareStrings w v p.newp = true ↔ compareStrings v w p = true) ↔
      (p.IsInequality → v ≠ w) ∧ (p = .like → v <:+: w ∨ w <:+: v → v = w) := by
  have hzero := compareTo_eq_zero_iff v w
  cases p with
  | like =>
    simp only [compareStrings, Op.newp, find_isSome_iff, Op.IsInequality, reduceCtorEq, or_self,
      false_implies, true_and, forall_true_left, if_false]
    constructor
    · rintro h (hvw | hwv)
      · exact hvw.eq_of_length (hvw.length_le.antisymm (h.1 hvw).length_le)
      · exact (h.2 hwv).eq_of_length ((h.2 hwv).length_le.antisymm hwv.length_le)
    · intro h
      constructor
      · intro hvw
        rw [h (.inl hvw)]
      · intro hwv
        rw [h (.inr hwv)]
  | _ =>
    simp [compareStrings, Op.newp, Op.IsInequality, compareTo_neg v w, ← hzero]
    try omega

theorem compareFields_newp_iff (p : Op) (f g : Option Field) :
    (compareFields g p.newp f = .ok true ↔ compareFields f p g = .ok true) ↔ p.SwapsOn f g := by
  cases f with
  | none => cases g <;> simp [compareFields, Op.SwapsOn]
  | some f =>
    cases g with
    | none => simp [compareFields, Op.SwapsOn]
    | some g =>
      cases f with
      | intField v =>
        cases g with
        | stringField w => simp [compareFields, Field.compare, Op.SwapsOn]
        | intField w =>
          simp only [compareFields, Field.compare, Except.ok.injEq, compareInts_newp_iff,
            Op.SwapsOn]
          simp [compareInts]
      | stringField v =>
        cases g with
        | intField w => simp [compareFields, Field.compare, Op.SwapsOn]
        | stringField w =>
          simp only [compareFields, Field.compare, Except.ok.injEq, compareStrings_newp_iff,
            Op.SwapsOn]
          simp [compareStrings, compareTo_eq_zero_iff]

theorem JoinPredicate.filter_newp_iff (i1 i2 : ℕ) (p : Op) (t1 t2 : Tuple) :
    ((JoinPredicate.mk i2 p.newp i1).filter t2 t1 = .ok true ↔
        (JoinPredicate.mk i1 p i2).filter t1 t2 = .ok true) ↔
      ∀ f g, t1.fieldAt i1 = .ok f → t2.fieldAt i2 = .ok g → p.SwapsOn f g := by
  cases h1 : t1.fieldAt i1 with
  | error e => cases h2 : t2.fieldAt i2 <;> simp [filter, h1, h2, bind, Except.bind]
  | ok f =>
    cases h2 : t2.fieldAt i2 with
    | error e => simp [filter, h1, h2, bind, Except.bind]
    | ok g => simp [filter, h1, h2, bind, Except.bind, compareFields_newp_iff]

/-! ## The join -/

namespace JoinNode

variable (column : Name → Name → ℕ) (rel : Name → List Tuple)
  (sub : Option DbIterator → List Tuple)

/-- A node and the node with its tables swapped select the same pairs, transposed, exactly if
the new operator agrees with the old one on all pairs of the relations: no pair is tied under an
inequality, and under `LIKE` no string contains another one on the other side. -/
theorem swapInnerOuter_preserves_iff (t1 t2 f1 f2 : Name) (p : Op) :
    ((join t1 t2 f1 f2 p).swapInnerOuter.selects column rel sub =
        Prod.swap '' (join t1 t2 f1 f2 p).selects column rel sub ∧
      (join t1 t2 f1 f2 p).swapInnerOuter.swapInnerOuter.op = p) ↔
    ∀ x ∈ rel t1, ∀ y ∈ rel t2, ∀ f g, x.fieldAt (column t1 f1) = .ok f →
      y.fieldAt (column t2 f2) = .ok g → p.SwapsOn f g := by
  have hop : (join t1 t2 f1 f2 p).swapInnerOuter.swapInnerOuter.op = p := by
    rw [swapInnerOuter_swapInnerOuter, op]
  have hsets : (join t1 t2 f1 f2 p).swapInnerOuter.selects column rel sub =
        Prod.swap '' (join t1 t2 f1 f2 p).selects column rel sub ↔
      ∀ x ∈ rel t1, ∀ y ∈ rel t2,
        ((JoinPredicate.mk (column t2 f2) p.newp (column t1 f1)).filter y x = .ok true ↔
          (JoinPredicate.mk (column t1 f1) p (column t2 f2)).filter x y = .ok true) := by
    rw [Set.image_swap_eq_preimage_swap, Set.ext_iff, Prod.forall, forall_comm]
    simp only [swapInnerOuter, selects, JoinPredicate.selects, Set.mem_ofPred_eq,
      Set.mem_preimage, Prod.swap_prod_mk]
    constructor
    · intro h x hx y hy
      simpa [hx, hy] using h x y
    · intro h x y
      by_cases hx : x ∈ rel t1
      · by_cases hy : y ∈ rel t2
        · simpa [hx, hy] using h x hx y hy
        · simp [hy]
      · simp [hx]
  simp only [hop, and_true, hsets, JoinPredicate.filter_newp_iff]

/-- A row with the number five. -/
def rowOfFive : Tuple := ⟨⟨[.intType], by simp⟩, none, [some (.intField 5)], rfl⟩

/-- The greater numbers of two relations with the same number: there are none, but the swapped
node finds one. -/
theorem swapInnerOuter_tied : ¬ ∀ (column : Name → Name → ℕ) (rel : Name → List Tuple)
    (sub : Option DbIterator → List Tuple) (t1 t2 f1 f2 : Name) (p : Op),
    (join t1 t2 f1 f2 p).swapInnerOuter.selects column rel sub =
        Prod.swap '' (join t1 t2 f1 f2 p).selects column rel sub ∧
      (join t1 t2 f1 f2 p).swapInnerOuter.swapInnerOuter.op = p := by
  intro h
  have hsets := (h (fun _ _ => 0) (fun _ => [rowOfFive]) (fun _ => []) [97] [98] [97] [98]
    .greaterThan).1
  have hswapped : (rowOfFive, rowOfFive) ∈ (join [97] [98] [97] [98]
      .greaterThan).swapInnerOuter.selects (fun _ _ => 0) (fun _ => [rowOfFive]) fun _ => [] :=
    ⟨by simp, by simp, rfl⟩
  rw [hsets] at hswapped
  obtain ⟨_, ⟨hx, hy, hsel⟩, -⟩ := hswapped
  rw [List.mem_singleton.1 hx, List.mem_singleton.1 hy] at hsel
  cases hsel

end JoinNode

end Courses.SimpleDb
