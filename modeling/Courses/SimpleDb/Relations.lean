import Courses.SimpleDb.Operators
import Mathlib.Data.List.Lex
import Mathlib.Data.Sum.Order

/-!
# What the operators mean

The relational reading of an operator tree, as a relation between the tree and the list of
its tuples, and the facts about single tuples that connect it with the code: on tuples of
the right types the predicates do not throw, a join concatenates, a projection picks, and
the sort is stable.
-/
namespace Courses.SimpleDb

open Courses.Lib

/-! ## Tuples of a schema -/

def Field.type : Field → FieldType
  | .intField _ => .intType
  | .stringField _ => .stringType

/-- The tuple has the schema, and a field of the right type in each column. -/
structure Tuple.Typed (td : TupleDesc) (t : Tuple) : Prop where
  desc : t.td = td
  fields : List.Forall₂ (fun ty f => ∃ g : Field, f = some g ∧ g.type = ty) td.types t.fields

theorem Tuple.Typed.field {td : TupleDesc} {t : Tuple} {i : ℕ} {ty : FieldType}
    (h : t.Typed td) (hi : td.types[i]? = some ty) :
    ∃ g : Field, t.fields[i]? = some (some g) ∧ g.type = ty := by
  obtain ⟨hlt, hget⟩ := List.getElem?_eq_some_iff.1 hi
  have hlength := h.fields.length_eq
  obtain ⟨g, hg, hty⟩ := h.fields.get hlt (hlength ▸ hlt)
  refine ⟨g, ?_, hty.trans hget⟩
  rw [List.getElem?_eq_getElem (hlength ▸ hlt)]
  exact congrArg some hg

theorem Tuple.Typed.fieldAt {td : TupleDesc} {t : Tuple} {i : ℕ} {ty : FieldType}
    (h : t.Typed td) (hi : td.types[i]? = some ty) :
    ∃ g : Field, t.fieldAt i = .ok (some g) ∧ g.type = ty := by
  obtain ⟨g, hg, hty⟩ := h.field hi
  exact ⟨g, by simp [Tuple.fieldAt, hg], hty⟩

theorem Field.compare_ok {f g : Field} (h : f.type = g.type) (op : Op) :
    ∃ b, f.compare op g = .ok b := by
  cases f <;> cases g <;> first | exact ⟨_, rfl⟩ | cases h

/-! ### Predicates -/

/-- The tuple satisfies the predicate. -/
def Predicate.holds (p : Predicate) (t : Tuple) : Bool :=
  match p.filter t with
  | .ok b => b
  | .error _ => false

/-- The pair satisfies the predicate. -/
def JoinPredicate.holds (p : JoinPredicate) (t1 t2 : Tuple) : Bool :=
  match p.filter t1 t2 with
  | .ok b => b
  | .error _ => false

theorem Predicate.filter_ok {p : Predicate} {td : TupleDesc} {t : Tuple} (ht : t.Typed td)
    (hp : td.types[p.field]? = some p.operand.type) : p.filter t = .ok (p.holds t) := by
  obtain ⟨g, hg, hty⟩ := ht.fieldAt hp
  obtain ⟨b, hb⟩ := Field.compare_ok hty p.op
  have hfilter : p.filter t = .ok b := by
    simp [Predicate.filter, hg, compareFields, hb, bind, Except.bind]
  simp [Predicate.holds, hfilter]

theorem JoinPredicate.filter_ok {p : JoinPredicate} {td1 td2 : TupleDesc} {t1 t2 : Tuple}
    {ty : FieldType} (ht1 : t1.Typed td1) (ht2 : t2.Typed td2)
    (hp1 : td1.types[p.field1]? = some ty) (hp2 : td2.types[p.field2]? = some ty) :
    p.filter t1 t2 = .ok (p.holds t1 t2) := by
  obtain ⟨f, hf, hfty⟩ := ht1.fieldAt hp1
  obtain ⟨g, hg, hgty⟩ := ht2.fieldAt hp2
  obtain ⟨b, hb⟩ := Field.compare_ok (hfty.trans hgty.symm) p.op
  have hfilter : p.filter t1 t2 = .ok b := by
    simp [JoinPredicate.filter, hf, hg, compareFields, hb, bind, Except.bind]
  simp [JoinPredicate.holds, hfilter]

/-! ### Copying fields -/

theorem setFieldAt_ok {t : Tuple} {i : ℕ} (f : Option Field) (h : i < t.td.numFields) :
    t.setFieldAt i f = .ok (t.setField i f) := if_pos h

/-- A loop that sets the fields from `offset` on, one after the other. -/
theorem foldlM_setFieldAt {get : ℕ → IterOutcome (Option Field)} {vals : List (Option Field)}
    {offset : ℕ} (t : Tuple) (hget : ∀ j v, vals[j]? = some v → get j = .ok v)
    (hfit : offset + vals.length ≤ t.td.numFields) (k : ℕ) (hk : k ≤ vals.length) :
    ∃ t' : Tuple, (List.range k).foldlM
        (fun t j => do t.setFieldAt (offset + j) (← get j)) t = .ok t' ∧
      t'.td = t.td ∧ t'.rid = t.rid ∧
      t'.fields = t.fields.take offset ++ vals.take k ++ t.fields.drop (offset + k) := by
  induction k with
  | zero => exact ⟨t, rfl, rfl, rfl, by simp⟩
  | succ k ih =>
    obtain ⟨t₁, hfold, htd, hrid, hfields⟩ := ih (by omega)
    have hv : vals[k]? = some vals[k] := List.getElem?_eq_getElem (by omega)
    have hset : t₁.setFieldAt (offset + k) vals[k] = .ok (t₁.setField (offset + k) vals[k]) :=
      setFieldAt_ok _ (by rw [htd]; omega)
    refine ⟨t₁.setField (offset + k) vals[k], ?_, htd, hrid, ?_⟩
    · rw [List.range_succ, List.foldlM_append, hfold]
      simp [hget k _ hv, hset, bind, Except.bind, pure, Except.pure]
    · have hlen : t.fields.length = t.td.numFields := t.length_eq
      have hleft : (t.fields.take offset ++ vals.take k).length = offset + k := by
        simp only [List.length_append, List.length_take]
        omega
      obtain ⟨old, hdrop⟩ : ∃ old, t.fields.drop (offset + k) =
          old :: t.fields.drop (offset + (k + 1)) :=
        ⟨_, List.drop_eq_getElem_cons (by omega)⟩
      simp only [Tuple.setField, hfields, hdrop]
      rw [← hleft, List.set_append_right _ _ (Nat.le_refl _), Nat.sub_self, List.set_cons_zero,
        List.take_succ_eq_append_getElem (by omega)]
      simp only [List.append_assoc, List.cons_append, List.nil_append]

theorem copyFields_ok {t src : Tuple} {offset : ℕ}
    (hfit : offset + src.td.numFields ≤ t.td.numFields) :
    ∃ t' : Tuple, copyFields t offset src = .ok t' ∧ t'.td = t.td ∧ t'.rid = t.rid ∧
      t'.fields = t.fields.take offset ++ src.fields ++
        t.fields.drop (offset + src.td.numFields) := by
  have hget : ∀ j v, src.fields[j]? = some v → src.fieldAt j = .ok v := by
    intro j v hv
    simp [Tuple.fieldAt, hv]
  have hlength := src.length_eq
  rw [← hlength] at hfit
  obtain ⟨t', hfold, htd, hrid, hfields⟩ :=
    foldlM_setFieldAt t hget hfit src.fields.length (Nat.le_refl _)
  rw [List.take_length] at hfields
  unfold copyFields
  rw [← hlength]
  exact ⟨t', hfold, htd, hrid, hfields⟩

/-- The concatenation of two tuples. -/
def Tuple.concat (t1 t2 : Tuple) : Tuple :=
  ⟨t1.td.combine t2.td, none, t1.fields ++ t2.fields, by
    simp [TupleDesc.numFields, TupleDesc.combine, t1.length_eq, t2.length_eq]⟩

theorem joinTuples_ok (t1 t2 : Tuple) :
    joinTuples (t1.td.combine t2.td) t1 t2 = .ok (t1.concat t2) := by
  have hnum : (t1.td.combine t2.td).numFields = t1.td.numFields + t2.td.numFields := by
    simp [TupleDesc.combine, TupleDesc.numFields]
  have hnew : (Tuple.new (t1.td.combine t2.td)).td = t1.td.combine t2.td := rfl
  obtain ⟨t', hfirst, htd', hrid', hfields'⟩ :=
    @copyFields_ok (Tuple.new (t1.td.combine t2.td)) t1 0 (by rw [hnew, hnum]; omega)
  obtain ⟨t'', hsecond, htd'', hrid'', hfields''⟩ :=
    @copyFields_ok t' t2 t1.td.numFields (by rw [htd', hnew, hnum])
  have hfields : t''.fields = t1.fields ++ t2.fields := by
    have hlength : t'.fields.length = t1.td.numFields + t2.td.numFields := by
      rw [t'.length_eq, htd', hnew, hnum]
    rw [hfields'', List.drop_of_length_le (by omega), hfields', List.take_zero, List.nil_append,
      List.take_left' t1.length_eq, List.append_nil]
  simp only [joinTuples, hfirst, bind, Except.bind, hsecond]
  congr 1
  cases t''
  simp only [Tuple.concat, Tuple.mk.injEq]
  exact ⟨htd''.trans htd', hrid''.trans hrid', hfields⟩

theorem Tuple.Typed.concat {td1 td2 : TupleDesc} {t1 t2 : Tuple} (h1 : t1.Typed td1)
    (h2 : t2.Typed td2) : (t1.concat t2).Typed (td1.combine td2) := by
  refine ⟨?_, List.rel_append h1.fields h2.fields⟩
  simp [Tuple.concat, h1.desc, h2.desc]

/-- The tuple `t'` has the listed fields of `t`. -/
structure IsProjection (td : TupleDesc) (outFieldIds : List ℕ) (t t' : Tuple) : Prop where
  desc : t'.td = td
  rid : t'.rid = t.rid
  fields : t'.fields.map some = outFieldIds.map (t.fields[·]?)

theorem IsProjection.unique {td : TupleDesc} {outFieldIds : List ℕ} {t t₁ t₂ : Tuple}
    (h₁ : IsProjection td outFieldIds t t₁) (h₂ : IsProjection td outFieldIds t t₂) : t₁ = t₂ := by
  have hfields : t₁.fields = t₂.fields :=
    List.map_injective_iff.2 (Option.some_injective _) (h₁.fields.trans h₂.fields.symm)
  cases t₁
  cases t₂
  simp only [Tuple.mk.injEq]
  exact ⟨h₁.desc.trans h₂.desc.symm, h₁.rid.trans h₂.rid.symm, hfields⟩

/-- The listed fields are there, and have the listed types. -/
def Projects (childTd : TupleDesc) (outFieldIds : List ℕ) (td : TupleDesc) : Prop :=
  td.types.map some = outFieldIds.map (childTd.types[·]?)

/-- The values of the listed fields. -/
theorem listed_fields {childTd : TupleDesc} {t : Tuple} (ht : t.Typed childTd)
    (outFieldIds : List ℕ) {types : List FieldType}
    (h : types.map some = outFieldIds.map (childTd.types[·]?)) :
    ∃ vals : List (Option Field), vals.map some = outFieldIds.map (t.fields[·]?) ∧
      List.Forall₂ (fun ty f => ∃ g : Field, f = some g ∧ g.type = ty) types vals := by
  induction outFieldIds generalizing types with
  | nil =>
    obtain rfl : types = [] := by simpa using h
    exact ⟨[], rfl, .nil⟩
  | cons id ids ih =>
    cases types with
    | nil => cases h
    | cons ty types =>
      simp only [List.map_cons, List.cons.injEq] at h
      obtain ⟨g, hg, hty⟩ := ht.field h.1.symm
      obtain ⟨vals, hvals, htyped⟩ := ih h.2
      exact ⟨some g :: vals, by simp [hg, hvals], .cons ⟨g, rfl, hty⟩ htyped⟩

theorem projectTuple_ok {childTd td : TupleDesc} {outFieldIds : List ℕ} {t : Tuple}
    (ht : t.Typed childTd) (hproj : Projects childTd outFieldIds td) :
    ∃ t', projectTuple td outFieldIds t = .ok t' ∧ IsProjection td outFieldIds t t' ∧
      t'.Typed td := by
  obtain ⟨vals, hvals, htyped⟩ := listed_fields ht outFieldIds hproj
  have hlength : vals.length = td.numFields := htyped.length_eq.symm
  let start : Tuple := { Tuple.new td with rid := t.rid }
  have hget : ∀ (j : ℕ) (v : Option Field), vals[j]? = some v →
      outFieldIds[j]?.elim (.error (.thrown .indexOutOfBounds)) t.fieldAt = .ok v := by
    intro j v hv
    have hj := congrArg (·[j]?) hvals
    simp only [List.getElem?_map, hv, Option.map_some] at hj
    obtain ⟨id, hid, hfield⟩ := Option.map_eq_some_iff.1 hj.symm
    simp [hid, Tuple.fieldAt, hfield]
  obtain ⟨t', hfold, htd, hrid, hfields⟩ :=
    foldlM_setFieldAt start hget (by rw [hlength]; exact (Nat.zero_add _).le) vals.length (Nat.le_refl _)
  have hfields' : t'.fields = vals := by
    have hstart : start.fields.length = td.numFields := start.length_eq
    rw [hfields, List.take_zero, List.nil_append, List.take_length,
      List.drop_of_length_le (by omega), List.append_nil]
  refine ⟨t', ?_, ⟨htd, hrid, by rw [hfields', hvals]⟩, ⟨htd, hfields' ▸ htyped⟩⟩
  rw [← hfold, hlength]
  unfold projectTuple
  congr 1
  funext t i
  cases outFieldIds[i]? <;> rfl

/-! ### Sorting -/

/-- The value a tuple is sorted by. -/
def sortKey (field : ℕ) (t : Tuple) : WithBot (ℤ ⊕ₗ List ℕ) :=
  match t.fieldAt field with
  | .ok (some (.intField v)) => ↑(toLex (Sum.inl (intValue v)) : ℤ ⊕ₗ List ℕ)
  | .ok (some (.stringField v)) =>
    ↑(toLex (Sum.inr (v.value.map UInt16.toNat)) : ℤ ⊕ₗ List ℕ)
  | _ => ⊥

/-- `a` may come before `b`. -/
def InOrder (field : ℕ) (asc : Bool) (a b : Tuple) : Prop :=
  if asc then sortKey field a ≤ sortKey field b else sortKey field b ≤ sortKey field a

theorem compareTo_zero_iff (s t : List UInt16) :
    compareTo s t = 0 ↔ s.map UInt16.toNat = t.map UInt16.toNat := by
  induction s, t using compareTo.induct with
  | case1 a s t ih => simp [compareTo, ih]
  | case2 a s b t hne =>
    have hnat : a.toNat ≠ b.toNat := fun heq => hne (UInt16.toNat_inj.1 heq)
    simp only [compareTo, if_neg hne, List.map_cons, List.cons.injEq, hnat, false_and, iff_false]
    omega
  | case3 s t hcons =>
    cases s with
    | nil =>
      cases t with
      | nil => simp [compareTo]
      | cons b t =>
        simp only [compareTo, List.length_nil, List.length_cons, List.map_nil, List.map_cons,
          reduceCtorEq, iff_false]
        omega
    | cons a s =>
      cases t with
      | nil =>
        simp only [compareTo, List.length_nil, List.length_cons, List.map_nil, List.map_cons,
          reduceCtorEq, iff_false]
        omega
      | cons b t => exact absurd rfl (hcons a s b t rfl)

theorem compareTo_pos_iff (s t : List UInt16) :
    0 < compareTo s t ↔ t.map UInt16.toNat < s.map UInt16.toNat := by
  induction s, t using compareTo.induct with
  | case1 a s t ih => simp [compareTo, ih]
  | case2 a s b t hne =>
    have hnat : a.toNat ≠ b.toNat := fun heq => hne (UInt16.toNat_inj.1 heq)
    simp only [compareTo, if_neg hne, List.map_cons, List.cons_lt_cons_iff, hnat.symm, false_and,
      or_false]
    omega
  | case3 s t hcons =>
    cases s with
    | nil => cases t <;> simp [compareTo]
    | cons a s =>
      cases t with
      | nil => simp [compareTo]
      | cons b t => exact absurd rfl (hcons a s b t rfl)

/-- The comparator on two fields of one type. -/
theorem compareTuples_ok {field : ℕ} {a b : Tuple} {f g : Field} (asc : Bool)
    (ha : a.fieldAt field = .ok (some f)) (hb : b.fieldAt field = .ok (some g))
    (hty : f.type = g.type) :
    compareTuples field asc a b = .ok
      (if sortKey field a = sortKey field b then 0
      else if sortKey field b < sortKey field a then (if asc then 1 else -1)
      else (if asc then -1 else 1)) := by
  cases f with
  | intField v =>
    cases g with
    | stringField w => cases hty
    | intField w =>
      have heq : sortKey field a = sortKey field b ↔ intValue v = intValue w := by
        simp [sortKey, ha, hb]
      have hlt : sortKey field b < sortKey field a ↔ intValue w < intValue v := by
        simp [sortKey, ha, hb]
      simp only [compareTuples, ha, hb, compareFields, Field.compare, compareInts, bind,
        Except.bind, pure, Except.pure, decide_eq_true_eq, heq, hlt]
      split
      · rfl
      · split <;> rfl
  | stringField v =>
    cases g with
    | intField w => cases hty
    | stringField w =>
      have heq : sortKey field a = sortKey field b ↔ compareTo v.value w.value = 0 := by
        simp [sortKey, ha, hb, compareTo_zero_iff]
      have hlt : sortKey field b < sortKey field a ↔ 0 < compareTo v.value w.value := by
        simp [sortKey, ha, hb, compareTo_pos_iff]
      simp only [compareTuples, ha, hb, compareFields, Field.compare, compareStrings, bind,
        Except.bind, pure, Except.pure, decide_eq_true_eq, heq, hlt]
      split
      · rfl
      · split <;> rfl

theorem sortLe_iff_of_type {field : ℕ} {a b : Tuple} {f g : Field} (asc : Bool)
    (ha : a.fieldAt field = .ok (some f)) (hb : b.fieldAt field = .ok (some g))
    (hty : f.type = g.type) : sortLe field asc a b = true ↔ InOrder field asc a b := by
  simp only [sortLe, compareTuples_ok asc ha hb hty, InOrder, decide_eq_true_eq]
  obtain hlt | heq | hgt := lt_trichotomy (sortKey field a) (sortKey field b)
  · cases asc <;> simp [hlt.ne, hlt.not_gt, hlt.le, hlt.not_ge]
  · cases asc <;> simp [heq]
  · cases asc <;> simp [hgt.ne', hgt, hgt.le, hgt.not_ge]

/-- The order of the sort is the order of the keys. -/
theorem sortLe_iff (field : ℕ) (asc : Bool) (a b : Tuple) :
    sortLe field asc a b = true ↔ InOrder field asc a b := by
  rcases ha : a.fieldAt field with _ | _ | f <;> rcases hb : b.fieldAt field with _ | _ | g
  case ok.some.ok.some =>
    by_cases hty : f.type = g.type
    · exact sortLe_iff_of_type asc ha hb hty
    · cases f <;> cases g <;> first
        | exact absurd rfl hty
        | cases asc <;> simp [sortLe, compareTuples, ha, hb, compareFields, Field.compare, bind,
            Except.bind, InOrder, sortKey]
  -- a tuple without a field to compare comes first
  all_goals
    first | cases f | cases g | skip
    all_goals
      cases asc <;> simp [sortLe, compareTuples, ha, hb, compareFields, bind, Except.bind, InOrder,
        sortKey]

/-- `out` is `ts` in the requested order, with tuples of one key in their old order. -/
structure StableSort (field : ℕ) (asc : Bool) (ts out : List Tuple) : Prop where
  perm : out.Perm ts
  sorted : out.Pairwise (InOrder field asc)
  stable : ∀ k, out.filter (sortKey field · = k) = ts.filter (sortKey field · = k)

theorem inOrder_trans {field : ℕ} {asc : Bool} {a b c : Tuple} (hab : InOrder field asc a b)
    (hbc : InOrder field asc b c) : InOrder field asc a c := by
  cases asc
  · exact le_trans (α := WithBot (ℤ ⊕ₗ List ℕ)) hbc hab
  · exact le_trans (α := WithBot (ℤ ⊕ₗ List ℕ)) hab hbc

theorem inOrder_total (field : ℕ) (asc : Bool) (a b : Tuple) :
    InOrder field asc a b ∨ InOrder field asc b a := by
  cases asc
  · exact le_total (sortKey field b) (sortKey field a)
  · exact le_total (sortKey field a) (sortKey field b)

theorem stableSort_mergeSort (field : ℕ) (asc : Bool) (ts : List Tuple) :
    StableSort field asc ts (ts.mergeSort (sortLe field asc)) := by
  have htrans : ∀ a b c, sortLe field asc a b = true → sortLe field asc b c = true →
      sortLe field asc a c = true := by
    intro a b c hab hbc
    rw [sortLe_iff] at hab hbc ⊢
    exact inOrder_trans hab hbc
  have htotal : ∀ a b, (sortLe field asc a b || sortLe field asc b a) = true := by
    intro a b
    rw [Bool.or_eq_true, sortLe_iff, sortLe_iff]
    exact inOrder_total field asc a b
  have hperm := List.mergeSort_perm ts (sortLe field asc)
  refine ⟨hperm, ?_, fun k => ?_⟩
  · exact (List.pairwise_mergeSort htrans htotal ts).imp fun h => (sortLe_iff ..).1 h
  · -- the tuples of one key are in order already, so they stay a sublist
    have hordered : (ts.filter (sortKey field · = k)).Pairwise
        fun a b => sortLe field asc a b = true := by
      refine List.pairwise_of_forall_mem_list fun a ha b hb => ?_
      have hka : sortKey field a = k := by simpa using (List.mem_filter.1 ha).2
      have hkb : sortKey field b = k := by simpa using (List.mem_filter.1 hb).2
      rw [sortLe_iff, InOrder, hka, hkb]
      simp
    have hsub := List.sublist_mergeSort htrans htotal hordered List.filter_sublist
    have hfilter := hsub.filter (sortKey field · = k)
    rw [List.filter_filter] at hfilter
    simp only [Bool.and_self] at hfilter
    refine (hfilter.eq_of_length ?_).symm
    exact ((hperm.filter _).length_eq).symm

theorem collectionsSort_ok {field : ℕ} {td : TupleDesc} {ty : FieldType} {ts : List Tuple}
    (asc : Bool) (hty : td.types[field]? = some ty) (hts : ∀ t ∈ ts, t.Typed td) :
    collectionsSort field asc ts = .ok (ts.mergeSort (sortLe field asc)) := by
  have hcomparable : ts.Pairwise fun o1 o2 => comparable field asc o1 o2 = true := by
    refine List.pairwise_of_forall_mem_list fun a ha b hb => ?_
    obtain ⟨f, hf, hfty⟩ := (hts a ha).fieldAt hty
    obtain ⟨g, hg, hgty⟩ := (hts b hb).fieldAt hty
    simp [comparable, compareTuples_ok asc hf hg (hfty.trans hgty.symm)]
  exact if_pos hcomparable

/-! ## The meaning of a tree -/

/-- The pairs that satisfy the predicate, concatenated, the outer tuple major. -/
def nestedLoop (p : JoinPredicate) (ts1 ts2 : List Tuple) : List Tuple :=
  ts1.flatMap fun t1 => (ts2.filter (p.holds t1)).map t1.concat

theorem mem_nestedLoop {p : JoinPredicate} {ts1 ts2 : List Tuple} {t : Tuple} :
    t ∈ nestedLoop p ts1 ts2 ↔
      ∃ t1 ∈ ts1, ∃ t2 ∈ ts2, p.holds t1 t2 = true ∧ t1.concat t2 = t := by
  simp [nestedLoop, and_assoc]

theorem nestedLoop_perm {ts1 ts1' ts2 ts2' : List Tuple} (p : JoinPredicate)
    (h1 : ts1.Perm ts1') (h2 : ts2.Perm ts2') :
    (nestedLoop p ts1 ts2).Perm (nestedLoop p ts1' ts2') :=
  h1.flatMap fun t1 _ => (h2.filter (p.holds t1)).map t1.concat

namespace Operator

/-- The tuples of an operator tree, in relational algebra on lists. -/
inductive Means : Operator → List Tuple → Prop
  | tuples (td : TupleDesc) (ts : List Tuple) : Means (.tuples td ts) ts
  | filter {child : Operator} {ts : List Tuple} (p : Predicate) (h : Means child ts) :
      Means (.filter p child) (ts.filter p.holds)
  | join {child1 child2 : Operator} {ts1 ts2 : List Tuple} (p : JoinPredicate)
      (h1 : Means child1 ts1) (h2 : Means child2 ts2) :
      Means (.join p child1 child2) (nestedLoop p ts1 ts2)
  | orderBy {child : Operator} {ts out : List Tuple} (field : ℕ) (asc : Bool)
      (h : Means child ts) (hsort : StableSort field asc ts out) :
      Means (.orderBy field asc child) out
  | project {child : Operator} {ts out : List Tuple} (fieldList : List ℕ) (td : TupleDesc)
      (h : Means child ts) (hproj : List.Forall₂ (IsProjection td fieldList) ts out) :
      Means (.project fieldList td child) out

/-- A tree means one list, up to the order of its tuples. -/
theorem Means.perm {t : Operator} {ts ts' : List Tuple} (h : t.Means ts) (h' : t.Means ts') :
    ts.Perm ts' := by
  induction h generalizing ts' with
  | tuples td ts =>
    cases h'
    exact .refl _
  | filter p _ ih =>
    cases h' with
    | filter _ hchild => exact (ih hchild).filter _
  | join p _ _ ih1 ih2 =>
    cases h' with
    | join _ hchild1 hchild2 => exact nestedLoop_perm p (ih1 hchild1) (ih2 hchild2)
  | orderBy field asc _ hsort ih =>
    cases h' with
    | orderBy _ _ hchild hsort' => exact hsort.perm.trans ((ih hchild).trans hsort'.perm.symm)
  | project fieldList td _ hproj ih =>
    cases h' with
    | project _ _ hchild hproj' =>
      have hunique : Relator.RightUnique (IsProjection td fieldList) :=
        fun _ _ _ h₁ h₂ => h₁.unique h₂
      exact List.rel_perm_imp hunique hproj hproj' (ih hchild)

/-- The tuples of the leaves have the types of their columns, and the operators name columns
that are there, of the types they expect. -/
def WellTyped : Operator → Prop
  | .tuples td ts => ∀ t ∈ ts, t.Typed td
  | .filter p child =>
    child.WellTyped ∧ child.getTupleDesc.types[p.field]? = some p.operand.type
  | .join p child1 child2 => child1.WellTyped ∧ child2.WellTyped ∧
      ∃ ty, child1.getTupleDesc.types[p.field1]? = some ty ∧
        child2.getTupleDesc.types[p.field2]? = some ty
  | .orderBy field _ child =>
    child.WellTyped ∧ ∃ ty, child.getTupleDesc.types[field]? = some ty
  | .project fieldList td child => child.WellTyped ∧ Projects child.getTupleDesc fieldList td

end Operator

end Courses.SimpleDb
