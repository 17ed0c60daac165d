import Courses.SimpleDb.OperatorRuns
import Courses.SimpleDb.QueryMeaning

/-!
# Sub-plans and the rows they give

A sub-plan covers some sources if its columns are theirs, one source after the other, and
its tuples are the rows over them that satisfy some predicates. A join of two sub-plans
covers the sources of both, and asks for one predicate more.
-/
namespace Courses.SimpleDb

open Courses.Lib

/-! ## Predicates on fields -/

/-- Two fields that are there compare as the operator says. -/
def fieldsHold (op : Op) (f g : Option (Option Field)) : Bool :=
  match f, g with
  | some f, some g =>
    match compareFields f op g with
    | .ok b => b
    | .error _ => false
  | _, _ => false

theorem JoinPredicate.holds_eq (p : JoinPredicate) (t1 t2 : Tuple) :
    p.holds t1 t2 = fieldsHold p.op t1.fields[p.field1]? t2.fields[p.field2]? := by
  simp only [JoinPredicate.holds, JoinPredicate.filter, Tuple.fieldAt, fieldsHold]
  cases t1.fields[p.field1]? with
  | none => rfl
  | some f =>
    cases t2.fields[p.field2]? with
    | none => rfl
    | some g => rfl

/-- The join of two lists of rows. -/
def joinFields (p : JoinPredicate) (rows1 rows2 : List (List (Option Field))) :
    List (List (Option Field)) :=
  rows1.flatMap fun f => (rows2.filter fun g => fieldsHold p.op f[p.field1]? g[p.field2]?).map (f ++ ·)

theorem nestedLoop_fields (p : JoinPredicate) (ts1 ts2 : List Tuple) :
    (nestedLoop p ts1 ts2).map Tuple.fields =
      joinFields p (ts1.map Tuple.fields) (ts2.map Tuple.fields) := by
  have hholds : ∀ t1 : Tuple, p.holds t1 =
      fun t2 => fieldsHold p.op t1.fields[p.field1]? t2.fields[p.field2]? :=
    fun t1 => funext (p.holds_eq t1)
  simp only [nestedLoop, joinFields, List.map_flatMap, List.flatMap_map, List.map_map,
    List.filter_map, Function.comp_def, hholds, Tuple.concat]

theorem joinFields_perm (p : JoinPredicate) {rows1 rows1' rows2 rows2' : List (List (Option Field))}
    (h1 : rows1.Perm rows1') (h2 : rows2.Perm rows2') :
    (joinFields p rows1 rows2).Perm (joinFields p rows1' rows2') :=
  h1.flatMap fun _ _ => (h2.filter _).map _

namespace LogicalPlan

variable {db : Catalog} {lp : LogicalPlan}

/-- The names and the tuples of every source have the columns of its types. -/
def Widths (db : Catalog) (lp : LogicalPlan) : Prop :=
  ∀ s, (lp.sourceNames db s).length = (lp.sourceTypes db s).length ∧
    ∀ t ∈ lp.relation db s, t.fields.length = (lp.sourceTypes db s).length

/-- The sub-plan has the columns of the sources in this order, and gives the rows over them that
satisfy the predicate. -/
structure Covers (db : Catalog) (lp : LogicalPlan) (plan : DbIterator) (order : List Source)
    (holds : (Source → Tuple) → Bool) : Prop where
  names : plan.names = order.flatMap (lp.sourceNames db)
  types : plan.op.getTupleDesc.types = order.flatMap (lp.sourceTypes db)
  wellTyped : plan.op.WellTyped
  reads : ReadsOnly order holds
  means : ∃ ts, plan.op.Means ts ∧
    (ts.map Tuple.fields).Perm (((rows (lp.relation db) order).filter holds).map (rowFields order))

theorem readsOnly_rowFields (order : List Source) : ReadsOnly order (rowFields order) := by
  intro r r' heq
  simp only [rowFields]
  exact List.flatMap_congr fun s hs => by rw [heq s hs]

/-- The rows over one source are its tuples. -/
theorem rows_one (s : Source) :
    ((rows (lp.relation db) [s]).filter fun _ => true).map (rowFields [s]) =
      (lp.relation db s).map Tuple.fields := by
  simp [rows_singleton, rowFields, Function.comp_def]

theorem rowFields_append (is js : List Source) (r : Source → Tuple) :
    rowFields (is ++ js) r = rowFields is r ++ rowFields js r :=
  List.flatMap_append

theorem Widths.rowFields_getElem? (h : Widths db lp) {before after : List Source} {s : Source}
    {r : Source → Tuple} (hr : r ∈ rows (lp.relation db) (before ++ s :: after)) {i : ℕ}
    (hi : i < (lp.sourceTypes db s).length) :
    (rowFields (before ++ s :: after) r)[(before.flatMap (lp.sourceNames db)).length + i]? =
      (r s).fields[i]? := by
  have hlength : ∀ x ∈ before ++ s :: after, (r x).fields.length = (lp.sourceNames db x).length :=
    fun x hx => ((h x).2 _ (mem_rows hr hx)).trans (h x).1.symm
  refine getElem?_flatMap (fun x hx => hlength x (by simp [hx])) ?_
  rw [hlength s (by simp), (h s).1]
  exact hi

theorem Widths.types_getElem? (h : Widths db lp) {before after : List Source} {s : Source}
    {i : ℕ} {ty : FieldType} (hty : (lp.sourceTypes db s)[i]? = some ty) :
    ((before ++ s :: after).flatMap (lp.sourceTypes db))[
      (before.flatMap (lp.sourceNames db)).length + i]? = some ty := by
  rw [getElem?_flatMap (fun x _ => (h x).1.symm) (List.getElem?_eq_some_iff.1 hty).1, hty]

/-- The nested loop over two covered lists of rows. -/
theorem joinFields_rows (h : Widths db lp) {is js before1 after1 before2 after2 : List Source}
    {s1 s2 : Source} (his : is = before1 ++ s1 :: after1) (hjs : js = before2 ++ s2 :: after2)
    (hdisjoint : is.Disjoint js) {holds1 holds2 : (Source → Tuple) → Bool}
    (hreads1 : ReadsOnly is holds1) (hreads2 : ReadsOnly js holds2) {i1 i2 : ℕ} (op : Op)
    (hi1 : i1 < (lp.sourceTypes db s1).length) (hi2 : i2 < (lp.sourceTypes db s2).length) :
    joinFields ⟨(before1.flatMap (lp.sourceNames db)).length + i1, op,
        (before2.flatMap (lp.sourceNames db)).length + i2⟩
        (((rows (lp.relation db) is).filter holds1).map (rowFields is))
        (((rows (lp.relation db) js).filter holds2).map (rowFields js)) =
      ((rows (lp.relation db) (is ++ js)).filter fun r =>
        holds1 r && (holds2 r && JoinPredicate.holds ⟨i1, op, i2⟩ (r s1) (r s2))).map
          (rowFields (is ++ js)) := by
  rw [nestedRows hreads1 hreads2 hdisjoint, joinFields, List.flatMap_map]
  refine List.flatMap_congr fun r hr => ?_
  have hr := (List.mem_filter.1 hr).1
  rw [List.filter_map, List.map_map]
  have hmem1 : s1 ∈ is := by simp [his]
  have hmem2 : s2 ∈ js := by simp [hjs]
  have hfields : ∀ r', rowFields (is ++ js) (mergeRows is r r') =
      rowFields is r ++ rowFields js r' := fun r' => by
    rw [rowFields_append, (readsOnly_rowFields is).merge_left,
      (readsOnly_rowFields js).merge_right hdisjoint]
  have hs1 : ∀ r', mergeRows is r r' s1 = r s1 := fun r' => if_pos hmem1
  have hs2 : ∀ r', mergeRows is r r' s2 = r' s2 :=
    fun r' => if_neg fun hmem => hdisjoint hmem hmem2
  have hfilter : ((rows (lp.relation db) js).filter holds2).filter
        ((fun g => fieldsHold op (rowFields is r)[(before1.flatMap (lp.sourceNames db)).length + i1]?
          g[(before2.flatMap (lp.sourceNames db)).length + i2]?) ∘ rowFields js) =
      ((rows (lp.relation db) js).filter holds2).filter fun r' =>
        JoinPredicate.holds ⟨i1, op, i2⟩ (mergeRows is r r' s1) (mergeRows is r r' s2) := by
    refine List.filter_congr fun r' hr' => ?_
    have hr' := (List.mem_filter.1 hr').1
    rw [his] at hr
    rw [hjs] at hr'
    rw [hs1, hs2, JoinPredicate.holds_eq, Function.comp_apply, his, hjs,
      h.rowFields_getElem? hr hi1, h.rowFields_getElem? hr' hi2]
  rw [hfilter]
  exact List.map_congr_left fun r' _ => (hfields r').symm

/-- A join of two sub-plans covers the sources of both. -/
theorem Covers.join (h : Widths db lp) {plan1 plan2 : DbIterator}
    {is js before1 after1 before2 after2 : List Source} {s1 s2 : Source}
    {holds1 holds2 : (Source → Tuple) → Bool} (h1 : Covers db lp plan1 is holds1)
    (h2 : Covers db lp plan2 js holds2) (his : is = before1 ++ s1 :: after1)
    (hjs : js = before2 ++ s2 :: after2) (hdisjoint : is.Disjoint js) {i1 i2 : ℕ} (op : Op)
    {ty : FieldType} (hty1 : (lp.sourceTypes db s1)[i1]? = some ty)
    (hty2 : (lp.sourceTypes db s2)[i2]? = some ty) :
    Covers db lp
      ⟨.join ⟨(before1.flatMap (lp.sourceNames db)).length + i1, op,
        (before2.flatMap (lp.sourceNames db)).length + i2⟩ plan1.op plan2.op,
        plan1.names ++ plan2.names⟩
      (is ++ js)
      (fun r => holds1 r && (holds2 r && JoinPredicate.holds ⟨i1, op, i2⟩ (r s1) (r s2))) where
  names := by rw [h1.names, h2.names, List.flatMap_append]
  types := by
    simp only [Operator.getTupleDesc, TupleDesc.combine, h1.types, h2.types, List.flatMap_append]
  wellTyped := by
    refine ⟨h1.wellTyped, h2.wellTyped, ty, ?_, ?_⟩
    · rw [h1.types, his]
      exact h.types_getElem? hty1
    · rw [h2.types, hjs]
      exact h.types_getElem? hty2
  reads := by
    intro r r' heq
    have hs1 : r s1 = r' s1 := heq s1 (by simp [his])
    have hs2 : r s2 = r' s2 := heq s2 (by simp [hjs])
    dsimp only
    rw [h1.reads r r' fun s hs => heq s (by simp [hs]),
      h2.reads r r' fun s hs => heq s (by simp [hs]), hs1, hs2]
  means := by
    obtain ⟨ts1, hmeans1, hperm1⟩ := h1.means
    obtain ⟨ts2, hmeans2, hperm2⟩ := h2.means
    refine ⟨_, .join _ hmeans1 hmeans2, ?_⟩
    rw [nestedLoop_fields, ← joinFields_rows h his hjs hdisjoint h1.reads h2.reads op
      (List.getElem?_eq_some_iff.1 hty1).1 (List.getElem?_eq_some_iff.1 hty2).1]
    exact joinFields_perm _ hperm1 hperm2

theorem Covers.congr {plan : DbIterator} {order : List Source}
    {holds holds' : (Source → Tuple) → Bool} (h : Covers db lp plan order holds)
    (heq : ∀ r, holds r = holds' r) : Covers db lp plan order holds' :=
  funext heq ▸ h

/-- The list of sources may be taken apart at any of them. -/
theorem Covers.nameToId {plan : DbIterator} {order : List Source}
    {holds : (Source → Tuple) → Bool} (h : Covers db lp plan order holds) (hnodup : order.Nodup)
    {s : Source} (hs : s ∈ order) {name : Name} {i : ℕ}
    (hi : nameToId (lp.sourceNames db s) name = some i)
    (hother : ∀ s' ∈ order, s' ≠ s → some name ∉ lp.sourceNames db s') :
    ∃ before after, order = before ++ s :: after ∧
      SimpleDb.nameToId plan.names name =
        some ((before.flatMap (lp.sourceNames db)).length + i) := by
  obtain ⟨before, after, rfl⟩ := List.append_of_mem hs
  refine ⟨before, after, rfl, ?_⟩
  rw [h.names, List.flatMap_append, List.flatMap_cons]
  refine nameToId_append ?_ hi _
  intro hmem
  obtain ⟨s', hs', hmem⟩ := List.mem_flatMap.1 hmem
  refine hother s' (by simp [hs']) ?_ hmem
  rintro rfl
  exact (List.nodup_append.1 hnodup).2.2 _ hs' _ (by simp) rfl

end LogicalPlan

end Courses.SimpleDb

/-!
# The sub-plans before the joins

The first two loops of `physicalPlan` put one sub-plan for each alias into the map: a scan
of its table under the filters on it. It covers the alias, and gives the filtered tuples.
-/
namespace Courses.SimpleDb

open Courses.Lib

theorem Operator.drained_means {t : Operator} (h : t.WellTyped) :
    ∃ out, t.Means out ∧ t.drained = .ok out ∧ ∀ x ∈ out, x.Typed t.getTupleDesc := by
  obtain ⟨ts, hmeans, htyped, ⟨S⟩⟩ := t.serves h
  exact ⟨ts, hmeans, S.open_drain, htyped⟩

theorem Tuple.Typed.length_fields {td : TupleDesc} {t : Tuple} (h : t.Typed td) :
    t.fields.length = td.types.length :=
  h.fields.length_eq.symm

namespace LogicalPlan

variable {db : Catalog} {lp : LogicalPlan}

/-! ## Sources -/

theorem subplan_eq_some {k : ℕ} {plan : DbIterator} (h : lp.subplan k = some plan) :
    ∃ t1 f1 p, lp.joins[k]? = some (.subplanJoin t1 f1 (some plan) p) := by
  obtain ⟨lj, hlj, hplan⟩ := Option.bind_eq_some_iff.1 h
  cases lj with
  | join t1 t2 f1 f2 p => cases hplan
  | subplanJoin t1 f1 subPlan p =>
    cases hplan
    exact ⟨t1, f1, p, hlj⟩

theorem Valid.subplan_wellTyped (h : lp.Valid db) {k : ℕ} {plan : DbIterator}
    (hplan : lp.subplan k = some plan) :
    plan.op.WellTyped ∧ plan.names.length = plan.op.getTupleDesc.types.length := by
  obtain ⟨t1, f1, p, hjoin⟩ := subplan_eq_some hplan
  obtain ⟨plan', i1, ty, heq, -, htyped, -, hlength⟩ := h.joins _ (List.mem_of_getElem? hjoin)
  cases heq
  exact ⟨htyped, hlength⟩

theorem Valid.widths (h : lp.Valid db) : Widths db lp := by
  intro s
  cases s with
  | inl a =>
    simp only [sourceNames, sourceTypes, relation, filteredBy]
    cases lp.table db a with
    | none => simp
    | some file =>
      refine ⟨?_, fun t ht => (file.typed t (List.mem_filter.1 ht).1).length_fields⟩
      simp only [Option.elim_some, seqScan, List.length_map]
      exact file.length_names
  | inr k =>
    simp only [sourceNames, sourceTypes, relation]
    cases hplan : lp.subplan k with
    | none => simp
    | some plan =>
      obtain ⟨htyped, hlength⟩ := h.subplan_wellTyped hplan
      obtain ⟨out, -, hdrained, hout⟩ := Operator.drained_means htyped
      simp only [Option.elim_some, hdrained]
      exact ⟨hlength, fun t ht => (hout t ht).length_fields⟩

/-- A subplan covers itself. -/
theorem Valid.covers_subplan (h : lp.Valid db) {k : ℕ} {plan : DbIterator}
    (hplan : lp.subplan k = some plan) : Covers db lp plan [.inr k] fun _ => true := by
  obtain ⟨htyped, -⟩ := h.subplan_wellTyped hplan
  obtain ⟨out, hmeans, hdrained, -⟩ := Operator.drained_means htyped
  refine
    { names := by simp [sourceNames, hplan]
      types := by simp [sourceTypes, hplan]
      wellTyped := htyped
      reads := fun _ _ _ => rfl
      means := ⟨out, hmeans, ?_⟩ }
  rw [rows_one]
  simp [relation, hplan, hdrained]

/-! ## The scans -/

theorem scanTables_ok : ∀ {tables : List ScanNode}, (∀ s ∈ tables, ∃ file, db s.t = some file) →
    (tables.map ScanNode.tableAlias).Nodup → ∀ m : SubplanMap,
      ∃ m', tables.foldlM (scanTable db) m = .ok m' ∧ ∀ a, m'.lookup a =
        match tables.find? fun s => s.tableAlias = a with
        | some s => (db s.t).map fun file => seqScan file a
        | none => m.lookup a
  | [], _, _, m => ⟨m, rfl, fun _ => rfl⟩
  | s :: tables, hscans, hnodup, m => by
    obtain ⟨file, hfile⟩ := hscans s (by simp)
    obtain ⟨hnotin, hnodup⟩ := List.nodup_cons.1 hnodup
    obtain ⟨m', hrun, hlookup⟩ := scanTables_ok (fun s hs => hscans s (by simp [hs])) hnodup
      (m.insert s.tableAlias (seqScan file s.tableAlias))
    refine ⟨m', ?_, fun a => ?_⟩
    · rw [List.foldlM_cons, scanTable, hfile]
      exact hrun
    · rw [hlookup a, List.find?_cons]
      by_cases ha : s.tableAlias = a
      · subst ha
        have hnone : (tables.find? fun s' => s'.tableAlias = s.tableAlias) = none := by
          rw [List.find?_eq_none]
          intro s' hs'
          have hne : s'.tableAlias ≠ s.tableAlias :=
            fun heq => hnotin (heq ▸ List.mem_map_of_mem hs')
          simpa using hne
        simp [hnone, hfile, AList.lookup_insert]
      · have hlookup' : (m.insert s.tableAlias (seqScan file s.tableAlias)).lookup a = m.lookup a :=
          AList.lookup_insert_ne (Ne.symm ha)
        simp [ha, hlookup']

/-! ## The filters -/

/-- After some of the filters, each alias has its scan under the filters on it. -/
def Filtered (db : Catalog) (lp : LogicalPlan) (filters : List FilterNode) (m : SubplanMap) : Prop :=
  ∀ a, match lp.table db a with
    | none => m.lookup a = none
    | some file => ∃ op, m.lookup a = some ⟨op, (seqScan file a).names⟩ ∧
        op.getTupleDesc = file.td ∧ op.WellTyped ∧ op.Means (lp.filteredBy db filters a)

theorem Filtered.scan {filters : List FilterNode} {m : SubplanMap} (h : Filtered db lp filters m)
    {a : Name} {file : Table} (hfile : lp.table db a = some file) :
    ∃ op, m.lookup a = some ⟨op, (seqScan file a).names⟩ ∧ op.getTupleDesc = file.td ∧
      op.WellTyped ∧ op.Means (lp.filteredBy db filters a) := by
  have ha := h a
  rw [hfile] at ha
  exact ha

theorem filterOperand_type {ty : FieldType} {c : Name} {f : Field}
    (h : filterOperand (some ty) c = .ok f) : f.type = ty := by
  cases ty with
  | intType =>
    rw [filterOperand, if_pos rfl] at h
    cases hc : parseInt c with
    | none =>
      rw [hc] at h
      cases h
    | some n =>
      rw [hc] at h
      cases h
      rfl
  | stringType =>
    cases h
    rfl

theorem filteredBy_append (filters : List FilterNode) (lf : FilterNode) (a : Name) :
    lp.filteredBy db (filters ++ [lf]) a =
      if lf.t = a then (lp.filteredBy db filters a).filter (lp.filterHolds db lf)
      else lp.filteredBy db filters a := by
  simp only [filteredBy, List.all_append, List.all_cons, List.all_nil, Bool.and_true]
  split_ifs with ha
  · rw [List.filter_filter]
    exact List.filter_congr fun t _ => by simp [ha, Bool.and_comm]
  · exact List.filter_congr fun t _ => by simp [ha]

theorem filterTable_ok {filters : List FilterNode} {m : SubplanMap} (h : Filtered db lp filters m)
    {lf : FilterNode} {i : ℕ} {ty : FieldType} {f : Field}
    (hcolumn : lp.column db lf.t lf.f = some (i, ty)) (hf : filterOperand (some ty) lf.c = .ok f) :
    ∃ m', filterTable db lp m lf = .ok m' ∧ Filtered db lp (filters ++ [lf]) m' := by
  obtain ⟨file, name, hfile, hname, hi, hty⟩ := column_eq_some hcolumn
  obtain ⟨op, hlookup, htd, htyped, hmeans⟩ := h.scan hfile
  refine ⟨m.insert lf.t ⟨.filter ⟨i, lf.p, f⟩ op, (seqScan file lf.t).names⟩, ?_, fun a => ?_⟩
  · simp only [filterTable, hlookup, hname, bind, Except.bind, hi, htd, hty, hf]
    rfl
  · by_cases ha : lf.t = a
    · subst ha
      rw [hfile, filteredBy_append, if_pos rfl]
      have hholds : lp.filterHolds db lf = Predicate.holds ⟨i, lf.p, f⟩ := by
        funext t
        simp [filterHolds, hcolumn, hf]
      refine ⟨_, AList.lookup_insert _, htd, ⟨htyped, ?_⟩, ?_⟩
      · rw [htd, filterOperand_type hf]
        exact hty
      · rw [hholds]
        exact .filter _ hmeans
    · have ha' := h a
      rw [filteredBy_append, if_neg ha, AList.lookup_insert_ne (Ne.symm ha)]
      exact ha'

theorem filterTables_ok : ∀ {todo filters : List FilterNode} {m : SubplanMap},
    Filtered db lp filters m → (∀ lf ∈ todo, ∃ i ty f, lp.column db lf.t lf.f = some (i, ty) ∧
      filterOperand (some ty) lf.c = .ok f) →
    ∃ m', todo.foldlM (filterTable db lp) m = .ok m' ∧ Filtered db lp (filters ++ todo) m'
  | [], filters, m, h, _ => ⟨m, rfl, by rwa [List.append_nil]⟩
  | lf :: todo, filters, m, h, hok => by
    obtain ⟨i, ty, f, hcolumn, hf⟩ := hok lf (by simp)
    obtain ⟨m₁, hstep, h₁⟩ := filterTable_ok h hcolumn hf
    obtain ⟨m', hrun, h'⟩ := filterTables_ok h₁ fun lf' hlf' => hok lf' (List.mem_cons_of_mem _ hlf')
    refine ⟨m', ?_, by simpa using h'⟩
    rw [List.foldlM_cons, hstep]
    exact hrun

/-- Before the joins each alias has a sub-plan that covers it, and there are no others. -/
theorem Valid.filtered (h : lp.Valid db) : ∃ m m', lp.tables.foldlM (scanTable db) ∅ = .ok m ∧
    lp.filters.foldlM (filterTable db lp) m = .ok m' ∧ Filtered db lp lp.filters m' := by
  obtain ⟨m, hscan, hlookup⟩ := scanTables_ok h.scans h.nodup ∅
  have hstart : Filtered db lp [] m := by
    intro a
    have ha := hlookup a
    cases hfind : lp.tables.find? fun s => s.tableAlias = a with
    | none =>
      have htable : lp.table db a = none := by simp [table, hfind]
      rw [hfind] at ha
      rw [htable]
      exact ha
    | some s =>
      obtain ⟨file, hfile⟩ := h.scans s (List.mem_of_find?_eq_some hfind)
      have htable : lp.table db a = some file := by simp [table, hfind, hfile]
      simp only [hfind, hfile, Option.map_some] at ha
      rw [htable]
      refine ⟨_, ha, rfl, file.typed, ?_⟩
      have hall : lp.filteredBy db [] a = file.tuples := by simp [filteredBy, htable]
      rw [hall]
      exact .tuples _ _
  obtain ⟨m', hrun, h'⟩ := filterTables_ok hstart h.filters
  exact ⟨m, m', hscan, hrun, h'⟩

theorem Filtered.covers {m : SubplanMap} (h : Filtered db lp lp.filters m) {a : Name} {file : Table}
    (hfile : lp.table db a = some file) :
    ∃ plan, m.lookup a = some plan ∧ Covers db lp plan [.inl a] fun _ => true := by
  obtain ⟨op, hlookup, htd, htyped, hmeans⟩ := h.scan hfile
  refine ⟨_, hlookup,
    { names := by simp [sourceNames, hfile]
      types := by simp [sourceTypes, hfile, htd]
      wellTyped := htyped
      reads := fun _ _ _ => rfl
      means := ⟨_, hmeans, ?_⟩ }⟩
  rw [rows_one]
  exact List.Perm.refl _

end LogicalPlan

end Courses.SimpleDb
