import Courses.Lib.Fallible
import Courses.Lib.Grouping
import Courses.SimpleDb.Relations
import Mathlib.Algebra.BigOperators.Group.List.Basic
import Mathlib.Algebra.Order.BigOperators.Group.List

/-!
# The aggregators

`IntAggregator` and `StringAggregator` merge tuples into hash tables by their group, and
make a tuple of every group at the end. An integer aggregator keeps four tables and reports
one of them, or the quotient of two. A table is an association list, whose keys an iterator
may give in any order.
-/
namespace Courses.SimpleDb

open Courses.Lib Courses.Lib.Grouping

/-- `Aggregator.Op`. -/
inductive AggOp
  | min
  | max
  | sum
  | avg
  | count
  deriving DecidableEq

def noGrouping : ℤ := -1

/-- `"~NoAggregation~"` -/
def noAggregation : List UInt16 :=
  [126, 78, 111, 65, 103, 103, 114, 101, 103, 97, 116, 105, 111, 110, 126]

def nonaggField : Field := .stringField (.new noAggregation 20)

/-- What `equals` and `hashCode` of a field look at. The two classes cannot be compared, but
the keys of one table are all of one class. -/
def Field.ident : Field → UInt32 ⊕ List UInt16
  | .intField value => .inl value
  | .stringField f => .inr f.value

abbrev Hashtable := List (Field × ℤ)

/-- An order in which `keySet` gives the keys of a table. -/
abbrev KeyOrder := { order : List Field → List Field // ∀ keys, (order keys).Perm keys }

/-- `new IntField(n)` -/
def newIntField (n : ℤ) : Field := .intField (.ofInt n)

/-- `Tuple.getField` with any index. -/
def Tuple.fieldAtInt (t : Tuple) (i : ℤ) : IterOutcome (Option Field) :=
  if i < 0 then .error (.thrown .illegalArgument) else t.fieldAt i.toNat

/-- The value of an `Integer`. -/
def unbox : Option ℤ → IterOutcome ℤ
  | some n => .ok n
  | none => .error (.thrown .nullPointer)

/-- `gbf` in `merge`. -/
def groupField (gbfield : ℤ) (tup : Tuple) : IterOutcome (Option Field) :=
  if gbfield = noGrouping then .ok (some nonaggField) else tup.fieldAtInt gbfield

/-- `new TupleIterator(td, tup)`, by its schema and its tuples. -/
def newTupleIterator (td : TupleDesc) (tup : List Tuple) : IterOutcome (TupleDesc × List Tuple) :=
  if tup.all fun t => t.td.equals td then .ok (td, tup) else .error (.thrown .illegalArgument)

/-- The schema of a value without a group. -/
def valueDesc : TupleDesc := ⟨[.intType], List.cons_ne_nil _ _⟩

/-- The schema of a group and its value. -/
def groupDesc (gbfieldtype : FieldType) : TupleDesc :=
  ⟨[gbfieldtype, .intType], List.cons_ne_nil _ _⟩

/-- The loop body of `iterator`. -/
def keyTuple (setTupleField : Tuple → ℕ → Field → IterOutcome Tuple) (td : TupleDesc)
    (key : Field) : IterOutcome Tuple := do
  let t ← (Tuple.new td).setFieldAt 0 (some key)
  setTupleField t 1 key

/-- `iterator` of either aggregator, for the keys of its counts. -/
def iteratorOf (gbfield : ℤ) (gbfieldtype : FieldType)
    (setTupleField : Tuple → ℕ → Field → IterOutcome Tuple) (keys : List Field) :
    IterOutcome (TupleDesc × List Tuple) :=
  if gbfield = noGrouping then do
    let t ← setTupleField (Tuple.new valueDesc) 0 nonaggField
    newTupleIterator valueDesc [t]
  else do
    let tup ← keys.mapM (keyTuple setTupleField (groupDesc gbfieldtype))
    newTupleIterator (groupDesc gbfieldtype) tup

/-! ## Integers -/

/-- The type of the group field plays no part if there is none. -/
structure IntAggregator where
  gbfield : ℤ
  gbfieldtype : FieldType
  afield : ℤ
  what : AggOp
  min : Hashtable
  max : Hashtable
  sum : Hashtable
  count : Hashtable

namespace IntAggregator

def new (gbfield : ℤ) (gbfieldtype : FieldType) (afield : ℤ) (what : AggOp) : IntAggregator :=
  ⟨gbfield, gbfieldtype, afield, what, [], [], [], []⟩

def aggregate (agg : IntAggregator) (gbf : Field) (af : ℤ) : IntAggregator :=
  { agg with
    sum := match get Field.ident agg.sum gbf with
      | none => Grouping.put Field.ident gbf af agg.sum
      | some sum => Grouping.put Field.ident gbf (wrap32 (sum + af)) agg.sum
    count := match get Field.ident agg.count gbf with
      | none => Grouping.put Field.ident gbf 1 agg.count
      | some count => Grouping.put Field.ident gbf (wrap32 (count + 1)) agg.count
    max := match get Field.ident agg.max gbf with
      | none => Grouping.put Field.ident gbf af agg.max
      | some max => if af > max then Grouping.put Field.ident gbf af agg.max else agg.max
    min := match get Field.ident agg.min gbf with
      | none => Grouping.put Field.ident gbf af agg.min
      | some min => if af < min then Grouping.put Field.ident gbf af agg.min else agg.min }

def merge (agg : IntAggregator) (tup : Tuple) : IterOutcome IntAggregator := do
  let gbf ← groupField agg.gbfield tup
  let af ← tup.fieldAtInt agg.afield
  match af, gbf with
  | some (.stringField _), _ => throw (.thrown .classCast)
  | some (.intField af), some gbf => return agg.aggregate gbf (intValue af)
  | _, _ => throw (.thrown .nullPointer)

def setTupleField (agg : IntAggregator) (t : Tuple) (pos : ℕ) (key : Field) :
    IterOutcome Tuple :=
  match agg.what with
  | .min => do t.setFieldAt pos (some (newIntField (← unbox (get Field.ident agg.min key))))
  | .max => do t.setFieldAt pos (some (newIntField (← unbox (get Field.ident agg.max key))))
  | .count => do t.setFieldAt pos (some (newIntField (← unbox (get Field.ident agg.count key))))
  | .sum => do t.setFieldAt pos (some (newIntField (← unbox (get Field.ident agg.sum key))))
  | .avg => do
    if (get Field.ident agg.count key).isNone then
      t.setFieldAt pos (some (newIntField 0))
    else
      let sum ← unbox (get Field.ident agg.sum key)
      let count ← unbox (get Field.ident agg.count key)
      if count = 0 then throw (.thrown .arithmetic)
      t.setFieldAt pos (some (newIntField (sum.tdiv count)))

def iterator (agg : IntAggregator) (order : KeyOrder) : IterOutcome (TupleDesc × List Tuple) :=
  iteratorOf agg.gbfield agg.gbfieldtype agg.setTupleField (order.1 (agg.count.map Prod.fst))

end IntAggregator

/-! ## Strings -/

/-- `merge` of a `StringAggregator` only counts. -/
structure StringAggregator where
  gbfield : ℤ
  gbfieldtype : FieldType
  afield : ℤ
  count : Hashtable

namespace StringAggregator

def new (gbfield : ℤ) (gbfieldtype : FieldType) (afield : ℤ) (what : AggOp) :
    IterOutcome StringAggregator :=
  if what ≠ .count then .error (.thrown .illegalArgument)
  else .ok ⟨gbfield, gbfieldtype, afield, []⟩

def aggregate (agg : StringAggregator) (gbf : Field) : StringAggregator :=
  { agg with
    count := match get Field.ident agg.count gbf with
      | none => Grouping.put Field.ident gbf 1 agg.count
      | some count => Grouping.put Field.ident gbf (wrap32 (count + 1)) agg.count }

def merge (agg : StringAggregator) (tup : Tuple) : IterOutcome StringAggregator := do
  let gbf ← groupField agg.gbfield tup
  let sf ← tup.fieldAtInt agg.afield
  match sf, gbf with
  | some (.intField _), _ => throw (.thrown .classCast)
  | _, some gbf => return agg.aggregate gbf
  | _, none => throw (.thrown .nullPointer)

def setTupleField (agg : StringAggregator) (t : Tuple) (pos : ℕ) (key : Field) :
    IterOutcome Tuple := do
  t.setFieldAt pos (some (newIntField (← unbox (get Field.ident agg.count key))))

def iterator (agg : StringAggregator) (order : KeyOrder) :
    IterOutcome (TupleDesc × List Tuple) :=
  iteratorOf agg.gbfield agg.gbfieldtype agg.setTupleField (order.1 (agg.count.map Prod.fst))

end StringAggregator

end Courses.SimpleDb

/-!
# What an integer aggregator reports

After any tuples the four tables of an aggregator are the collected groups of the library,
each with an operation of its own (`foldlM_merge`). So what is reported for a group depends
on the values of that group only, and it is their minimum, maximum, sum, number or truncated
average as long as their sum and their number are `int`s.
-/
namespace Courses.SimpleDb

open Courses.Lib Courses.Lib.Grouping

/-! ## The values of a group -/

/-- The value of an operator over the values of a group. -/
def AggOp.IsValue : AggOp → List ℤ → ℤ → Prop
  | .min, vs, x => IsLeast {v | v ∈ vs} x
  | .max, vs, x => IsGreatest {v | v ∈ vs} x
  | .sum, vs, x => x = vs.sum
  | .avg, vs, x => x = vs.sum.tdiv vs.length
  | .count, vs, x => x = vs.length

/-- The group of a tuple. -/
def groupOf (gbfield : ℤ) (t : Tuple) : Field :=
  match groupField gbfield t with
  | .ok (some g) => g
  | _ => nonaggField

/-- The value of a tuple. -/
def numberOf (afield : ℤ) (t : Tuple) : ℤ :=
  match t.fieldAtInt afield with
  | .ok (some (.intField v)) => intValue v
  | _ => 0

/-- The values in the group of a field. -/
def groupValues (gbfield afield : ℤ) (ts : List Tuple) (g : Field) : List ℤ :=
  (ts.filter fun t => (groupOf gbfield t).ident = g.ident).map (numberOf afield)

/-- The tuple has a group, and an integer to aggregate. -/
structure Tuple.Aggregates (gbfield : ℤ) (gbfieldtype : FieldType) (afield : ℤ) (t : Tuple) :
    Prop where
  group : gbfield = noGrouping ∨
    ∃ g : Field, t.fieldAtInt gbfield = .ok (some g) ∧ g.type = gbfieldtype
  number : ∃ v, t.fieldAtInt afield = .ok (some (.intField v))

/-- The fields of a result. -/
def resultFields (gbfield : ℤ) (g : Field) (n : UInt32) : List (Option Field) :=
  (if gbfield = noGrouping then [] else [some g]) ++ [some (.intField n)]

/-- There is one result for each group that has a tuple, and no other, and it has the value of
the operator over the group. -/
def Reports (what : AggOp) (gbfield afield : ℤ) (ts results : List Tuple) : Prop :=
  ∃ groups : List Field, (groups.map Field.ident).Nodup ∧
    (∀ k : Field, k.ident ∈ groups.map Field.ident ↔
      ∃ t ∈ ts, (groupOf gbfield t).ident = k.ident) ∧
    List.Forall₂ (fun g r => ∃ n : UInt32, r.fields = resultFields gbfield g n ∧
      what.IsValue (groupValues gbfield afield ts g) (intValue n)) groups results

/-- The group's sum and its number of values are `int`s. -/
structure InIntRange (vs : List ℤ) : Prop where
  sum_ge : -2 ^ 31 ≤ vs.sum
  sum_lt : vs.sum < 2 ^ 31
  length_lt : vs.length < 2 ^ 31

/-! ## The tuples of the results -/

theorem newTupleIterator_ok {td : TupleDesc} {tup : List Tuple} (h : ∀ t ∈ tup, t.td = td) :
    newTupleIterator td tup = .ok (td, tup) := by
  rw [newTupleIterator, if_pos]
  simpa [TupleDesc.equals_iff] using h

/-- The schema of the results. -/
def resultDesc (gbfield : ℤ) (gbfieldtype : FieldType) : TupleDesc :=
  if gbfield = noGrouping then valueDesc else groupDesc gbfieldtype

/-- The groups of the results: one without grouping, whatever the keys are. -/
def resultGroups (gbfield : ℤ) (keys : List Field) : List Field :=
  if gbfield = noGrouping then [nonaggField] else keys

/-- `iterator`, if a value is set for every group. -/
theorem iteratorOf_ok {gbfield : ℤ} (gbfieldtype : FieldType) {P : Field → UInt32 → Prop}
    {setTupleField : Tuple → ℕ → Field → IterOutcome Tuple} {keys : List Field}
    (hset : ∀ g ∈ resultGroups gbfield keys, ∃ n, P g n ∧
      ∀ t pos, setTupleField t pos g = t.setFieldAt pos (some (.intField n))) :
    ∃ results, iteratorOf gbfield gbfieldtype setTupleField keys =
        .ok (resultDesc gbfield gbfieldtype, results) ∧
      (∀ r ∈ results, r.td = resultDesc gbfield gbfieldtype) ∧
      List.Forall₂ (fun g r => ∃ n, r.fields = resultFields gbfield g n ∧ P g n)
        (resultGroups gbfield keys) results := by
  by_cases hno : gbfield = noGrouping
  · simp only [resultGroups, hno, if_true, List.mem_singleton, forall_eq] at hset
    obtain ⟨n, hn, hset⟩ := hset
    have hfield : (Tuple.new valueDesc).setFieldAt 0 (some (.intField n)) =
        .ok ((Tuple.new valueDesc).setField 0 (some (.intField n))) := rfl
    simp only [iteratorOf, resultDesc, resultFields, resultGroups, hno, if_true, hset, hfield,
      bind, Except.bind]
    refine ⟨_, newTupleIterator_ok (by simp [Tuple.setField, Tuple.new]), ?_, ?_⟩
    · simp [Tuple.setField, Tuple.new]
    · exact .cons ⟨n, rfl, hn⟩ .nil
  · simp only [resultGroups, hno, if_false] at hset
    have htuple : ∀ g ∈ keys, ∃ r, keyTuple setTupleField (groupDesc gbfieldtype) g = .ok r ∧
        r.td = groupDesc gbfieldtype ∧ ∃ n, r.fields = resultFields gbfield g n ∧ P g n := by
      intro g hg
      obtain ⟨n, hn, hset⟩ := hset g hg
      refine ⟨((Tuple.new (groupDesc gbfieldtype)).setField 0 (some g)).setField 1
        (some (.intField n)), ?_, rfl, n, ?_, hn⟩
      · have hfirst : (Tuple.new (groupDesc gbfieldtype)).setFieldAt 0 (some g) =
            .ok ((Tuple.new (groupDesc gbfieldtype)).setField 0 (some g)) := rfl
        simp only [keyTuple, hfirst, bind, Except.bind, hset]
        rfl
      · simp [resultFields, hno, Tuple.setField, Tuple.new, groupDesc]
    obtain ⟨results, hmap, hresults⟩ := mapM_forall₂ htuple
    have htd : ∀ r ∈ results, r.td = groupDesc gbfieldtype :=
      ((List.forall₂_and_left results keys).1 hresults.flip).1
    simp only [iteratorOf, resultDesc, resultGroups, hno, if_false, hmap, bind, Except.bind]
    exact ⟨results, newTupleIterator_ok htd, htd, hresults.imp fun _ _ h => h.2⟩

/-! ## The tables -/

/-- Tuples as an aggregator sees them. -/
def items (gbfield afield : ℤ) (ts : List Tuple) : List (Field × ℤ) :=
  ts.map fun t => (groupOf gbfield t, numberOf afield t)

/-- The table of the counts. -/
def counts (items : List (Field × ℤ)) : Hashtable :=
  collect Field.ident (fun _ => 1) (fun count _ => wrap32 (count + 1)) items

section

variable {gbfield afield : ℤ} {gbfieldtype : FieldType} {ts : List Tuple} {t : Tuple}

/-- Putting a first value or changing the one that is there is one update. -/
theorem change_eq_enter (first : ℤ → ℤ) (next : ℤ → ℤ → ℤ) (table : Hashtable) (gbf : Field)
    (af : ℤ) :
    (match get Field.ident table gbf with
      | none => Grouping.put Field.ident gbf (first af) table
      | some value => Grouping.put Field.ident gbf (next value af) table) =
      enter Field.ident first next table gbf af := by
  rw [enter]
  cases get Field.ident table gbf with
  | none => rfl
  | some value => rfl

theorem counts_concat (xs : List (Field × ℤ)) (gbf : Field) (af : ℤ) :
    (match get Field.ident (counts xs) gbf with
      | none => Grouping.put Field.ident gbf 1 (counts xs)
      | some count => Grouping.put Field.ident gbf (wrap32 (count + 1)) (counts xs)) =
      counts (xs ++ [(gbf, af)]) := by
  rw [counts, counts, collect_concat]
  exact change_eq_enter (fun _ => 1) (fun count _ => wrap32 (count + 1)) _ gbf af

theorem groupField_eq (h : gbfield = noGrouping ∨
    ∃ g : Field, t.fieldAtInt gbfield = .ok (some g) ∧ g.type = gbfieldtype) :
    groupField gbfield t = .ok (some (groupOf gbfield t)) := by
  have hg : ∃ g, groupField gbfield t = .ok (some g) := by
    by_cases hno : gbfield = noGrouping
    · exact ⟨nonaggField, by rw [groupField, if_pos hno]⟩
    · obtain hno' | ⟨g, hg, -⟩ := h
      · exact absurd hno' hno
      · exact ⟨g, by rw [groupField, if_neg hno, hg]⟩
  obtain ⟨g, hg⟩ := hg
  rw [groupOf, hg]

theorem members_items (g : Field) :
    members Field.ident (items gbfield afield ts) g = groupValues gbfield afield ts g := by
  simp [members, items, groupValues, List.filter_map, Function.comp_def]

theorem groupValues_ne_nil_iff (gbfield afield : ℤ) (ts : List Tuple) (g : Field) :
    groupValues gbfield afield ts g ≠ [] ↔ ∃ t ∈ ts, (groupOf gbfield t).ident = g.ident := by
  rw [← members_items, members_ne_nil_iff]
  simp [items]

theorem foldl_wrap32_count (vs : List ℤ) (c : ℤ) :
    vs.foldl (fun count _ => wrap32 (count + 1)) (wrap32 c) = wrap32 (c + vs.length) := by
  induction vs generalizing c with
  | nil => simp
  | cons v vs ih =>
    rw [List.foldl_cons, wrap32_add, ih, List.length_cons, Nat.cast_add, Nat.cast_one,
      Int.add_assoc, Int.add_comm 1]

theorem get_counts {g : Field} (hne : groupValues gbfield afield ts g ≠ []) :
    get Field.ident (counts (items gbfield afield ts)) g =
      some (wrap32 (groupValues gbfield afield ts g).length) := by
  rw [counts, get_collect, members_items]
  generalize groupValues gbfield afield ts g = vs at *
  cases vs with
  | nil => exact absurd rfl hne
  | cons v vs =>
    have hfold := foldl_wrap32_count vs 1
    rw [wrap32_eq (by omega) (by omega)] at hfold
    rw [summary, hfold, List.length_cons, Nat.cast_add, Nat.cast_one, Int.add_comm]

/-- The groups are those of the tuples. -/
theorem groups_spec (gbfield afield : ℤ) (ts : List Tuple) (order : KeyOrder)
    (hsome : gbfield = noGrouping → ts ≠ []) :
    let groups := resultGroups gbfield
      (order.1 ((counts (items gbfield afield ts)).map Prod.fst))
    (groups.map Field.ident).Nodup ∧ ∀ k : Field, k.ident ∈ groups.map Field.ident ↔
      ∃ t ∈ ts, (groupOf gbfield t).ident = k.ident := by
  intro groups
  by_cases hno : gbfield = noGrouping
  · obtain ⟨t, ht⟩ := List.exists_mem_of_ne_nil ts (hsome hno)
    have hgroup (t : Tuple) : groupOf gbfield t = nonaggField := by
      rw [groupOf, groupField, if_pos hno]
    have hgroups : groups = [nonaggField] := if_pos hno
    simp only [hgroups, hgroup, List.map_singleton, List.nodup_singleton, List.mem_singleton,
      true_and]
    intro k
    constructor
    · intro hk
      exact ⟨t, ht, hk.symm⟩
    · rintro ⟨-, -, hk⟩
      exact hk.symm
  · have hperm : (groups.map Field.ident).Perm
        (idents Field.ident (counts (items gbfield afield ts))) := by
      have hkeys := (order.2 ((counts (items gbfield afield ts)).map Prod.fst)).map Field.ident
      have hgroups : groups = order.1 ((counts (items gbfield afield ts)).map Prod.fst) :=
        if_neg hno
      rw [List.map_map] at hkeys
      rw [hgroups]
      exact hkeys
    constructor
    · exact hperm.nodup_iff.2 (nodup_collect _)
    · intro k
      rw [hperm.mem_iff, counts, mem_idents_collect]
      simp [items]

end

namespace IntAggregator

/-- The aggregator with its tables filled. -/
def filled (gbfield : ℤ) (gbfieldtype : FieldType) (afield : ℤ) (what : AggOp)
    (items : List (Field × ℤ)) : IntAggregator where
  gbfield := gbfield
  gbfieldtype := gbfieldtype
  afield := afield
  what := what
  min := collect Field.ident id (fun min v => if v < min then v else min) items
  max := collect Field.ident id (fun max v => if v > max then v else max) items
  sum := collect Field.ident id (fun sum v => wrap32 (sum + v)) items
  count := counts items

variable {gbfield afield : ℤ} {gbfieldtype : FieldType} {what : AggOp} {ts : List Tuple}
  {t : Tuple}

/-- Keeping a value or putting a better one is one update. -/
theorem keep_eq_enter (better : ℤ → ℤ → Prop) [DecidableRel better] (table : Hashtable)
    (gbf : Field) (af : ℤ) :
    (match get Field.ident table gbf with
      | none => Grouping.put Field.ident gbf af table
      | some best => if better af best then Grouping.put Field.ident gbf af table else table) =
      enter Field.ident id (fun best v => if better v best then v else best) table gbf af := by
  rw [enter]
  cases h : get Field.ident table gbf with
  | none => rfl
  | some best =>
    by_cases hbetter : better af best
    · simp [hbetter]
    · simp [hbetter, put_eq_self h]

theorem aggregate_filled (xs : List (Field × ℤ)) (gbf : Field) (af : ℤ) :
    (filled gbfield gbfieldtype afield what xs).aggregate gbf af =
      filled gbfield gbfieldtype afield what (xs ++ [(gbf, af)]) := by
  have hmin := keep_eq_enter (· < ·) (filled gbfield gbfieldtype afield what xs).min gbf af
  have hmax := keep_eq_enter (· > ·) (filled gbfield gbfieldtype afield what xs).max gbf af
  have hsum := change_eq_enter id (fun sum v => wrap32 (sum + v))
    (filled gbfield gbfieldtype afield what xs).sum gbf af
  have hcount := counts_concat xs gbf af
  simp only [aggregate, filled, collect_concat, id] at hmin hmax hsum hcount ⊢
  congr 1

theorem merge_filled (h : t.Aggregates gbfield gbfieldtype afield) (xs : List (Field × ℤ)) :
    (filled gbfield gbfieldtype afield what xs).merge t =
      .ok (filled gbfield gbfieldtype afield what
        (xs ++ [(groupOf gbfield t, numberOf afield t)])) := by
  obtain ⟨v, hv⟩ := h.number
  have hnumber : numberOf afield t = intValue v := by rw [numberOf, hv]
  rw [hnumber, ← aggregate_filled]
  simp [merge, filled, groupField_eq h.group, hv, bind, Except.bind, pure, Except.pure]

/-- Merging fills the tables. -/
theorem foldlM_merge (hts : ∀ t ∈ ts, t.Aggregates gbfield gbfieldtype afield) :
    ts.foldlM merge (new gbfield gbfieldtype afield what) =
      .ok (filled gbfield gbfieldtype afield what (items gbfield afield ts)) := by
  induction ts using List.reverseRecOn with
  | nil => rfl
  | append_singleton ts t ih =>
    have hts' : ∀ t ∈ ts, t.Aggregates gbfield gbfieldtype afield :=
      fun t ht => hts t (List.mem_append_left _ ht)
    rw [List.foldlM_append, ih hts']
    simp [bind, Except.bind, pure, Except.pure, merge_filled (hts t (by simp)), items]

/-! ## The reported values -/

theorem foldl_wrap32_sum (vs : List ℤ) (s : ℤ) :
    vs.foldl (fun sum v => wrap32 (sum + v)) (wrap32 s) = wrap32 (s + vs.sum) := by
  induction vs generalizing s with
  | nil => simp
  | cons v vs ih => rw [List.foldl_cons, wrap32_add, ih, List.sum_cons, Int.add_assoc]

theorem foldl_min (vs : List ℤ) (v : ℤ) :
    AggOp.min.IsValue (v :: vs) (vs.foldl (fun min v => if v < min then v else min) v) := by
  have hmin : (fun min v : ℤ => if v < min then v else min) = Min.min := by
    funext min v
    rw [min_comm, min_def_lt]
  have hsome : (v :: vs).min? = some (vs.foldl Min.min v) := rfl
  rw [hmin]
  exact List.min?_eq_some_iff.1 hsome

theorem foldl_max (vs : List ℤ) (v : ℤ) :
    AggOp.max.IsValue (v :: vs) (vs.foldl (fun max v => if v > max then v else max) v) := by
  have hmax : (fun max v : ℤ => if v > max then v else max) = Max.max := by
    funext max v
    rw [max_def_lt]
  have hsome : (v :: vs).max? = some (vs.foldl Max.max v) := rfl
  rw [hmax]
  exact List.max?_eq_some_iff.1 hsome

theorem intValue_ofInt (x : ℤ) : intValue (.ofInt x) = wrap32 x := by
  have hnonneg : 0 ≤ x % 2 ^ 32 := Int.emod_nonneg x (by omega)
  have hbits : (UInt32.ofInt x).toBitVec = BitVec.ofNat 32 (x % 2 ^ 32).toNat := rfl
  rw [intValue, hbits, BitVec.toInt_ofNat', Int.toNat_of_nonneg hnonneg]
  exact Int.emod_bmod x (2 ^ 32)

theorem wrap32_of_range {x : ℤ} (hle : -2 ^ 31 ≤ x) (hlt : x < 2 ^ 31) : wrap32 x = x := by
  rw [wrap32, Int.bmod_eq_of_le] <;> omega

theorem tdiv_range {x : ℤ} (n : ℕ) (hle : -2 ^ 31 ≤ x) (hlt : x < 2 ^ 31) :
    -2 ^ 31 ≤ x.tdiv n ∧ x.tdiv n < 2 ^ 31 := by
  by_cases hx : 0 ≤ x
  · have hnonneg := Int.tdiv_nonneg hx (Int.natCast_nonneg n)
    have hself := Int.tdiv_le_self n hx
    omega
  · have hnonneg := Int.tdiv_nonneg (show 0 ≤ -x by omega) (Int.natCast_nonneg n)
    have hself := Int.tdiv_le_self n (show 0 ≤ -x by omega)
    rw [Int.neg_tdiv] at hnonneg hself
    omega

theorem numberOf_range (afield : ℤ) (t : Tuple) :
    -2 ^ 31 ≤ numberOf afield t ∧ numberOf afield t < 2 ^ 31 := by
  rw [numberOf]
  split
  · exact intValue_range _
  · omega

theorem summary_sum {vs : List ℤ} (hne : vs ≠ []) (hvs : ∀ v ∈ vs, wrap32 v = v) :
    ∃ s, summary id (fun sum v => wrap32 (sum + v)) vs = some s ∧
      (InIntRange vs → s = vs.sum) := by
  cases vs with
  | nil => exact absurd rfl hne
  | cons v vs =>
    refine ⟨_, rfl, fun hrange => ?_⟩
    have hfold := foldl_wrap32_sum vs v
    rwa [hvs v List.mem_cons_self, ← List.sum_cons,
      wrap32_of_range hrange.sum_ge hrange.sum_lt] at hfold

theorem summary_min {vs : List ℤ} (hne : vs ≠ []) :
    ∃ x, summary id (fun min v => if v < min then v else min) vs = some x ∧
      AggOp.min.IsValue vs x := by
  cases vs with
  | nil => exact absurd rfl hne
  | cons v vs => exact ⟨_, rfl, foldl_min vs v⟩

theorem summary_max {vs : List ℤ} (hne : vs ≠ []) :
    ∃ x, summary id (fun max v => if v > max then v else max) vs = some x ∧
      AggOp.max.IsValue vs x := by
  cases vs with
  | nil => exact absurd rfl hne
  | cons v vs => exact ⟨_, rfl, foldl_max vs v⟩

theorem setTupleField_avg {agg : IntAggregator} {g : Field} {sum count : ℤ}
    (hwhat : agg.what = .avg) (hsum : get Field.ident agg.sum g = some sum)
    (hcount : get Field.ident agg.count g = some count) (hne : count ≠ 0) (t : Tuple) (pos : ℕ) :
    agg.setTupleField t pos g = t.setFieldAt pos (some (newIntField (sum.tdiv count))) := by
  simp [setTupleField, hwhat, hsum, hcount, hne, unbox, bind, Except.bind]

/-- What is reported for a group that has a tuple, unless it divides by a number that has
wrapped to zero. -/
theorem setTupleField_filled (gbfieldtype : FieldType) (what : AggOp) {g : Field}
    (hne : groupValues gbfield afield ts g ≠ [])
    (hcount : what = .avg → wrap32 (groupValues gbfield afield ts g).length ≠ 0) :
    ∃ n : UInt32, (InIntRange (groupValues gbfield afield ts g) →
        what.IsValue (groupValues gbfield afield ts g) (intValue n)) ∧
      ∀ t pos, (filled gbfield gbfieldtype afield what (items gbfield afield ts)).setTupleField
        t pos g = t.setFieldAt pos (some (.intField n)) := by
  have hnumbers : ∀ v ∈ groupValues gbfield afield ts g, wrap32 v = v := by
    intro v hv
    obtain ⟨t, -, rfl⟩ := List.mem_map.1 hv
    have hrange := numberOf_range afield t
    exact wrap32_of_range hrange.1 hrange.2
  obtain ⟨m, hmin, hm⟩ := summary_min hne
  obtain ⟨M, hmax, hM⟩ := summary_max hne
  obtain ⟨s, hsum, hs⟩ := summary_sum hne hnumbers
  have hcounts := get_counts hne
  have hlength : InIntRange (groupValues gbfield afield ts g) →
      wrap32 (groupValues gbfield afield ts g).length = (groupValues gbfield afield ts g).length :=
    fun hrange => wrap32_eq (by omega) (by have := hrange.length_lt; omega)
  rw [← members_items, ← get_collect] at hmin hmax hsum
  cases what with
  | min =>
    refine ⟨.ofInt m, fun _ => ?_, fun t pos => ?_⟩
    · rwa [intValue_ofInt, hnumbers m hm.1]
    · simp [setTupleField, filled, hmin, unbox, newIntField, bind, Except.bind]
  | max =>
    refine ⟨.ofInt M, fun _ => ?_, fun t pos => ?_⟩
    · rwa [intValue_ofInt, hnumbers M hM.1]
    · simp [setTupleField, filled, hmax, unbox, newIntField, bind, Except.bind]
  | sum =>
    refine ⟨.ofInt s, fun hrange => ?_, fun t pos => ?_⟩
    · rw [intValue_ofInt, hs hrange, wrap32_of_range hrange.sum_ge hrange.sum_lt, AggOp.IsValue]
    · simp [setTupleField, filled, hsum, unbox, newIntField, bind, Except.bind]
  | count =>
    refine ⟨.ofInt (wrap32 (groupValues gbfield afield ts g).length), fun hrange => ?_,
      fun t pos => ?_⟩
    · rw [intValue_ofInt, hlength hrange, hlength hrange, AggOp.IsValue]
    · simp [setTupleField, filled, hcounts, unbox, newIntField, bind, Except.bind]
  | avg =>
    refine ⟨.ofInt (s.tdiv (wrap32 (groupValues gbfield afield ts g).length)), fun hrange => ?_,
      fun t pos => ?_⟩
    · have hquot := tdiv_range (groupValues gbfield afield ts g).length hrange.sum_ge
        hrange.sum_lt
      rw [intValue_ofInt, hs hrange, hlength hrange, wrap32_of_range hquot.1 hquot.2,
        AggOp.IsValue]
    · exact setTupleField_avg rfl hsum hcounts (hcount rfl) t pos

/-! ## The results -/

/-- A row of a group and a number. -/
def rowOf (g v : UInt32) : Tuple :=
  ⟨groupDesc .intType, none, [some (.intField g), some (.intField v)], rfl⟩

theorem rowOf_aggregates (g v : UInt32) : (rowOf g v).Aggregates 0 .intType 1 :=
  ⟨.inr ⟨.intField g, rfl, rfl⟩, v, rfl⟩

end IntAggregator

end Courses.SimpleDb
