import Courses.Lib.Components
import Courses.Lib.Rows
import Courses.SimpleDb.LogicalPlan
import Courses.SimpleDb.OperatorRuns

/-!
# What a query asks for

The meaning of a logical plan without the order of its joins: the rows over the filtered
tables, and over the subplans that are joined, that satisfy every join predicate. A plan
is valid if its names refer to columns of its tables and its predicates compare values of
one type; its joins must connect all its tables.
-/
namespace Courses.SimpleDb

open Courses.Lib

instance : Inhabited Tuple := ⟨Tuple.new Operator.intColumn⟩

/-- Where columns come from: a table by its alias, or the subplan of a join by the position of the
join in the plan. -/
abbrev Source := Name ⊕ ℕ

/-- The tuples that a tree gives when it is opened and read to its end. -/
def Operator.drained (t : Operator) : IterOutcome (List Tuple) :=
  (t.iterator.openIt t.iterator.start).bind t.iterator.drain

namespace JoinNode

/-- The first table. -/
def t1 : JoinNode → Name
  | .join t1 _ _ _ _ => t1
  | .subplanJoin t1 _ _ _ => t1

/-- The tables that the joins connect. -/
def edges (joins : List JoinNode) : List (Name × Name) :=
  joins.filterMap fun
    | .join t1 t2 _ _ _ => some (t1, t2)
    | .subplanJoin _ _ _ _ => none

/-- The names of the fields that the join compares. -/
def fields : JoinNode → List Name
  | .join _ _ f1 f2 _ => [f1, f2]
  | .subplanJoin _ f1 _ _ => [f1]

/-- The subplan that is joined. -/
def subPlan? : JoinNode → Option DbIterator
  | .join _ _ _ _ _ => none
  | .subplanJoin _ _ subPlan _ => subPlan

end JoinNode

namespace LogicalPlan

variable (db : Catalog) (lp : LogicalPlan)

def aliases : List Name := lp.tables.map ScanNode.tableAlias

/-- The table that an alias stands for. -/
def table (a : Name) : Option Table :=
  (lp.tables.find? fun s => s.tableAlias = a).bind fun s => db s.t

/-- The column of the alias that a field name refers to, and its type. -/
def column (a f : Name) : Option (ℕ × FieldType) := do
  let file ← lp.table db a
  let name ← (lp.disambiguateName db f).toOption
  let i ← nameToId (seqScan file a).names name
  let ty ← file.td.types[i]?
  return (i, ty)

/-! ## Rows -/

/-- The tuple satisfies the filter. -/
def filterHolds (lf : FilterNode) (t : Tuple) : Bool :=
  match lp.column db lf.t lf.f with
  | none => false
  | some (i, ty) =>
    match filterOperand (some ty) lf.c with
    | .ok f => Predicate.holds ⟨i, lf.p, f⟩ t
    | .error _ => false

/-- The tuples of the alias that satisfy the given filters. -/
def filteredBy (filters : List FilterNode) (a : Name) : List Tuple :=
  ((lp.table db a).elim [] Table.tuples).filter fun t =>
    filters.all fun lf => decide (lf.t ≠ a) || lp.filterHolds db lf t

/-- The subplan at a position of the joins. -/
def subplan (k : ℕ) : Option DbIterator := lp.joins[k]?.bind JoinNode.subPlan?

/-- The tuples of a source. -/
def relation : Source → List Tuple
  | .inl a => lp.filteredBy db lp.filters a
  | .inr k =>
    match lp.subplan k with
    | none => []
    | some plan =>
      match plan.op.drained with
      | .ok out => out
      | .error _ => []

/-- The names of the columns of a source. -/
def sourceNames : Source → List (Option Name)
  | .inl a => (lp.table db a).elim [] fun file => (seqScan file a).names
  | .inr k => (lp.subplan k).elim [] DbIterator.names

/-- The types of the columns of a source. -/
def sourceTypes : Source → List FieldType
  | .inl a => (lp.table db a).elim [] fun file => file.td.types
  | .inr k => (lp.subplan k).elim [] fun plan => plan.op.getTupleDesc.types

/-- The row satisfies the predicate of a join at a position of the plan. -/
def joinHolds (row : Source → Tuple) : JoinNode × ℕ → Bool
  | (.join t1 t2 f1 f2 p, _) =>
    match lp.column db t1 f1, lp.column db t2 f2 with
    | some (i1, _), some (i2, _) => JoinPredicate.holds ⟨i1, p, i2⟩ (row (.inl t1)) (row (.inl t2))
    | _, _ => false
  | (.subplanJoin t1 f1 _ p, k) =>
    match lp.column db t1 f1 with
    | some (i1, _) => JoinPredicate.holds ⟨i1, p, 0⟩ (row (.inl t1)) (row (.inr k))
    | none => false

/-- All tables and all joined subplans. -/
def sources : List Source :=
  lp.aliases.map .inl ++
    ((List.range lp.joins.length).filter fun k => (lp.subplan k).isSome).map .inr

/-- The rows of the cross product that satisfy every join predicate. -/
def answers : List (Source → Tuple) :=
  (rows (lp.relation db) lp.sources).filter fun row => lp.joins.zipIdx.all (lp.joinHolds db row)

/-- The fields of a row, source after source. -/
def rowFields (order : List Source) (row : Source → Tuple) : List (Option Field) :=
  order.flatMap fun s => (row s).fields

/-- The plan is built, and gives the answers of the query up to their order and that of the
columns. -/
def Preserved : Prop :=
  ∃ plan out order, lp.joinedPlan db = .ok plan ∧ plan.op.drained = .ok out ∧
    order.Perm lp.sources ∧ plan.names = order.flatMap (lp.sourceNames db) ∧
    (out.map Tuple.fields).Perm ((lp.answers db).map (rowFields order))

/-! ## Valid plans -/

/-- The plans that the methods of the class build. -/
inductive Built : LogicalPlan → Prop
  | new : Built new
  | addScan {lp : LogicalPlan} (h : Built lp) (table : ℤ) (name : Name) :
      Built (lp.addScan table name)
  | addFilter {lp lp' : LogicalPlan} (h : Built lp) {field constantValue : Name} {p : Op}
      (hadd : lp.addFilter db field p constantValue = .ok lp') : Built lp'
  | addJoin {lp lp' : LogicalPlan} (h : Built lp) {joinField1 joinField2 : Name} {pred : Op}
      (hadd : lp.addJoin db joinField1 joinField2 pred = .ok lp') : Built lp'
  | addSubplanJoin {lp lp' : LogicalPlan} (h : Built lp) {joinField1 : Name}
      {joinField2 : Option DbIterator} {pred : Op}
      (hadd : lp.addSubplanJoin db joinField1 joinField2 pred = .ok lp') : Built lp'

/-- The names of a join refer to columns of one type. A subplan is a tree of operators that fit
together, and its first column is compared. -/
def Resolves : JoinNode → Prop
  | .join t1 t2 f1 f2 _ => ∃ i1 i2 ty, lp.column db t1 f1 = some (i1, ty) ∧
      lp.column db t2 f2 = some (i2, ty)
  | .subplanJoin t1 f1 subPlan _ => ∃ plan i1 ty, subPlan = some plan ∧
      lp.column db t1 f1 = some (i1, ty) ∧ plan.op.WellTyped ∧
      plan.op.getTupleDesc.types.head? = some ty ∧
      plan.names.length = plan.op.getTupleDesc.numFields

/-- A query over tables that are there, each with an alias of its own, whose names refer to
columns, whose constants are values of the columns' types, and whose joins connect all tables. -/
structure Valid : Prop where
  built : Built db lp
  ne_nil : lp.tables ≠ []
  scans : ∀ s ∈ lp.tables, ∃ file, db s.t = some file
  nodup : lp.aliases.Nodup
  filters : ∀ lf ∈ lp.filters, ∃ i ty f, lp.column db lf.t lf.f = some (i, ty) ∧
    filterOperand (some ty) lf.c = .ok f
  joins : ∀ lj ∈ lp.joins, lp.Resolves db lj
  connected : ∀ a ∈ lp.aliases, ∀ b ∈ lp.aliases, Connected (JoinNode.edges lp.joins) a b

/-- No column of a subplan has the name of a field that a join compares. -/
def NoCapture : Prop :=
  ∀ k plan, lp.subplan k = some plan → ∀ lj ∈ lp.joins, ∀ f ∈ lj.fields, ∀ name,
    lp.disambiguateName db f = .ok name → some name ∉ plan.names

end LogicalPlan

end Courses.SimpleDb

/-!
# Names in a plan

The aliases that joins connect have no dots, so the qualified names of two aliases differ:
the name of a field is found in a sub-plan where its table's columns are, wherever the
sub-plan has put them.
-/
namespace Courses.SimpleDb

open Courses.Lib

/-! ## Dots -/

theorem dot_notMem_parts : ∀ (s : Name), ∀ p ∈ parts s, dot ∉ p
  | [], p, hp => by
    rw [parts, List.mem_singleton] at hp
    simp [hp]
  | c :: s, p, hp => by
    have ih := dot_notMem_parts s
    rw [parts] at hp
    split_ifs at hp with hc
    · rcases List.mem_cons.1 hp with rfl | hp
      · simp
      · exact ih p hp
    · cases hparts : parts s with
      | nil =>
        rw [hparts] at hp
        obtain rfl : p = [c] := by simpa using hp
        simpa using Ne.symm hc
      | cons q qs =>
        rw [hparts] at hp ih
        rcases List.mem_cons.1 hp with rfl | hp
        · have hq := ih q (by simp)
          simpa [hq] using Ne.symm hc
        · exact ih p (by simp [hp])

theorem dot_notMem_splitName {name p : Name} (h : p ∈ splitName name) : dot ∉ p := by
  rw [splitName] at h
  split_ifs at h with hdot
  · have hmem : p ∈ (parts name).reverse :=
      (List.dropWhile_sublist _).subset (List.mem_reverse.1 h)
    exact dot_notMem_parts name p (List.mem_reverse.1 hmem)
  · rw [List.mem_singleton] at h
    rwa [h]

/-- Before the first dot of a qualified name is the table. -/
theorem qualify_left {a b x y : Name} (ha : dot ∉ a) (hb : dot ∉ b)
    (h : qualify a x = qualify b y) : a = b := by
  have htake : ∀ {a x : Name}, dot ∉ a → (qualify a x).takeWhile (· ≠ dot) = a := by
    intro a x ha
    rw [qualify, List.takeWhile_append_of_pos]
    · simp
    · intro c hc
      have hne : c ≠ dot := fun heq => ha (heq ▸ hc)
      simpa using hne
  rw [← htake ha (x := x), h, htake hb]

/-! ## Built plans -/

namespace LogicalPlan

variable {db : Catalog} {lp : LogicalPlan}

theorem fieldTable_ok {field f t : Name} (h : lp.fieldTable db field = .ok (f, t)) : dot ∉ t := by
  simp only [fieldTable, bind, Except.bind] at h
  split at h
  · cases h
  · split at h
    · rename_i hsplit
      cases h
      exact dot_notMem_splitName (by rw [hsplit]; simp)
    · cases h

/-- The tables of a join have names without dots. -/
theorem Built.dot_notMem (h : Built db lp) : ∀ {t1 t2 f1 f2 : Name} {p : Op},
    .join t1 t2 f1 f2 p ∈ lp.joins → dot ∉ t1 ∧ dot ∉ t2 := by
  induction h with
  | new => simp [LogicalPlan.new]
  | addScan _ table name ih => exact ih
  | @addFilter lp lp' _ field constantValue p hadd ih =>
    simp only [LogicalPlan.addFilter, bind, Except.bind] at hadd
    split at hadd
    · cases hadd
    · cases hadd
      exact ih
  | @addJoin lp lp' _ joinField1 joinField2 pred hadd ih =>
    simp only [LogicalPlan.addJoin, bind, Except.bind] at hadd
    split at hadd
    · cases hadd
    · rename_i first hfirst
      split at hadd
      · cases hadd
      · rename_i second hsecond
        split_ifs at hadd
        cases hadd
        intro hmem
        rcases List.mem_append.1 hmem with hmem | hmem
        · exact ih hmem
        · obtain ⟨rfl, rfl, -⟩ := JoinNode.join.inj (List.mem_singleton.1 hmem)
          exact ⟨fieldTable_ok hfirst, fieldTable_ok hsecond⟩
  | @addSubplanJoin lp lp' _ joinField1 joinField2 pred hadd ih =>
    simp only [LogicalPlan.addSubplanJoin, bind, Except.bind] at hadd
    split at hadd
    · cases hadd
    · cases hadd
      intro _ _ _ _ _ hmem
      rcases List.mem_append.1 hmem with hmem | hmem
      · exact ih hmem
      · simp at hmem

theorem mem_edges {joins : List JoinNode} {a b : Name} :
    (a, b) ∈ JoinNode.edges joins ↔ ∃ f1 f2 p, .join a b f1 f2 p ∈ joins := by
  rw [JoinNode.edges, List.mem_filterMap]
  constructor
  · rintro ⟨lj, hmem, heq⟩
    cases lj with
    | join t1 t2 f1 f2 p =>
      cases heq
      exact ⟨f1, f2, p, hmem⟩
    | subplanJoin t1 f1 subPlan p => cases heq
  · rintro ⟨f1, f2, p, hmem⟩
    exact ⟨_, hmem, rfl⟩

/-- An alias that is not the only one has no dot. -/
theorem Valid.dot_notMem (h : lp.Valid db) {a b : Name} (ha : a ∈ lp.aliases)
    (hb : b ∈ lp.aliases) (hne : a ≠ b) : dot ∉ a := by
  obtain ⟨c, hedge | hedge⟩ := (h.connected a ha b hb).exists_edge hne
  · obtain ⟨f1, f2, p, hmem⟩ := mem_edges.1 hedge
    exact (h.built.dot_notMem hmem).1
  · obtain ⟨f1, f2, p, hmem⟩ := mem_edges.1 hedge
    exact (h.built.dot_notMem hmem).2

/-! ## Columns -/

theorem column_eq_some {a f : Name} {i : ℕ} {ty : FieldType}
    (h : lp.column db a f = some (i, ty)) :
    ∃ file name, lp.table db a = some file ∧ lp.disambiguateName db f = .ok name ∧
      nameToId (seqScan file a).names name = some i ∧ file.td.types[i]? = some ty := by
  simp only [column, bind, Option.bind_eq_some_iff] at h
  obtain ⟨file, hfile, name, hname, i', hi, ty', hty, heq⟩ := h
  cases heq
  refine ⟨file, name, hfile, ?_, hi, hty⟩
  cases hdisambiguate : lp.disambiguateName db f with
  | ok name' =>
    rw [hdisambiguate] at hname
    obtain rfl : name' = name := by simpa [Except.toOption] using hname
    rfl
  | error e =>
    rw [hdisambiguate] at hname
    cases hname

theorem mem_aliases_of_table {a : Name} {file : Table} (h : lp.table db a = some file) :
    a ∈ lp.aliases := by
  obtain ⟨s, hs, -⟩ := Option.bind_eq_some_iff.1 h
  have ha : s.tableAlias = a := by simpa using List.find?_some hs
  exact List.mem_map.2 ⟨s, List.mem_of_find?_eq_some hs, ha⟩

theorem column_mem_aliases {a f : Name} {c : ℕ × FieldType} (h : lp.column db a f = some c) :
    a ∈ lp.aliases := by
  obtain ⟨file, -, hfile, -⟩ := column_eq_some h
  exact mem_aliases_of_table hfile

theorem mem_names_seqScan {file : Table} {a name : Name} (h : some name ∈ (seqScan file a).names) :
    ∃ x, name = qualify a x := by
  obtain ⟨x, -, hx⟩ := List.mem_map.1 h
  exact ⟨_, (Option.some.inj hx).symm⟩

theorem mem_of_nameToId {names : List (Option Name)} {name : Name} {i : ℕ}
    (h : nameToId names name = some i) : some name ∈ names := by
  obtain ⟨hlt, hget, -⟩ := List.findIdx?_eq_some_iff_getElem.1 h
  have heq : names[i] = some name := by simpa using hget
  rw [← heq]
  exact List.getElem_mem hlt

/-- The name of a column of one alias is not the name of a column of another one. -/
theorem Valid.name_notMem (h : lp.Valid db) {a b name : Name} {file file' : Table} {i : ℕ}
    (ha : a ∈ lp.aliases) (hb : b ∈ lp.aliases) (hne : a ≠ b)
    (hname : nameToId (seqScan file a).names name = some i) :
    some name ∉ (seqScan file' b).names := by
  intro hmem
  obtain ⟨x, hx⟩ := mem_names_seqScan (mem_of_nameToId hname)
  obtain ⟨y, hy⟩ := mem_names_seqScan hmem
  exact hne (qualify_left (h.dot_notMem ha hb hne) (h.dot_notMem hb ha hne.symm) (hx.symm.trans hy))

/-! ## Columns of several sources -/

theorem nameToId_append {names names' : List (Option Name)} {name : Name} {i : ℕ}
    (hnone : some name ∉ names) (h : nameToId names' name = some i) (rest : List (Option Name)) :
    nameToId (names ++ (names' ++ rest)) name = some (names.length + i) := by
  have hleft : names.findIdx? (· = some name) = none := by
    rw [List.findIdx?_eq_none_iff]
    intro x hx
    have hne : x ≠ some name := fun heq => hnone (heq ▸ hx)
    simpa using hne
  rw [nameToId] at h ⊢
  rw [List.findIdx?_append, hleft, List.findIdx?_append, h]
  simp [Nat.add_comm]

/-- What is at a column of one of several sources, for any lists of the same lengths. -/
theorem getElem?_flatMap {α β γ : Type} {before after : List α} {s : α} {f : α → List β}
    {g : α → List γ} (hlength : ∀ x ∈ before, (f x).length = (g x).length) {i : ℕ}
    (hi : i < (f s).length) :
    ((before ++ s :: after).flatMap f)[(before.flatMap g).length + i]? = (f s)[i]? := by
  have hbefore : (before.flatMap f).length = (before.flatMap g).length := by
    simp only [List.length_flatMap]
    exact congrArg List.sum (List.map_congr_left hlength)
  rw [List.flatMap_append, List.flatMap_cons, ← hbefore,
    List.getElem?_append_right (Nat.le_add_right _ _), Nat.add_sub_cancel_left,
    List.getElem?_append_left hi]

end LogicalPlan

end Courses.SimpleDb
