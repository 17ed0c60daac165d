import Courses.SimpleDb.Aggregator
import Courses.SimpleDb.OperatorRuns

/-!
# The aggregate operator

`Aggregate` works out its schema from that of its child and leaves the merging to an
aggregator, which works out a schema of its own. The constructor asks for the type of the
grouping column before it looks whether there is one, and declares a count to have the type
of the column that is counted.
-/
namespace Courses.SimpleDb

open Courses.Lib Courses.Lib.Grouping

/-- `TupleDesc.getType`. -/
def TupleDesc.getType (td : TupleDesc) (i : ℤ) : IterOutcome FieldType :=
  if i < 0 then .error .noSuchElement
  else match td.types[i.toNat]? with
    | some ty => .ok ty
    | none => .error .noSuchElement

/-- An `Aggregator`. -/
inductive Aggregator
  | int (agg : IntAggregator)
  | string (agg : StringAggregator)

namespace Aggregator

def merge : Aggregator → Tuple → IterOutcome Aggregator
  | .int agg, tup => do return .int (← agg.merge tup)
  | .string agg, tup => do return .string (← agg.merge tup)

def iterator (order : KeyOrder) : Aggregator → IterOutcome (TupleDesc × List Tuple)
  | .int agg => agg.iterator order
  | .string agg => agg.iterator order

end Aggregator

/-- An `Aggregate` as it is constructed, without its child. -/
structure Aggregate where
  aggregator : Aggregator
  td : TupleDesc

/-- The constructor, for a child with the schema `td`. -/
def Aggregate.new (td : TupleDesc) (afield gfield : ℤ) (aop : AggOp) : IterOutcome Aggregate := do
  let atype ← td.getType afield
  let gtype ← td.getType gfield
  let aggregator ←
    if atype = .intType then .ok (.int (.new gfield gtype afield aop))
    else do pure (.string (← StringAggregator.new gfield gtype afield aop))
  return ⟨aggregator, if gfield = noGrouping then ⟨[atype], List.cons_ne_nil _ _⟩
    else ⟨[gtype, atype], List.cons_ne_nil _ _⟩⟩

/-- The state of an `Aggregate` over a child; `_iter` is an iterator over its tuples. -/
structure AggregateState (σ : Type) where
  child : σ
  aggregator : Aggregator
  iter : Option (List Tuple × Option (List Tuple))

section

variable (child : PullIter IterError Tuple) (order : KeyOrder)

/-- `_iter = _aggregator.iterator(); _iter.open();` -/
def openResults (s : AggregateState child.State) : IterOutcome (AggregateState child.State) := do
  let (_, tuples) ← s.aggregator.iterator order
  let it ← (tupleIterator tuples).openIt none
  return { s with iter := some (tuples, it) }

def aggregateOpen (s : AggregateState child.State) : IterOutcome (AggregateState child.State) := do
  let c ← child.openIt s.child
  let (aggregator, c) ← child.forEach Aggregator.merge s.aggregator c
  openResults child order { s with child := c, aggregator := aggregator }

def aggregateReadNext (s : AggregateState child.State) :
    IterOutcome (Option Tuple × AggregateState child.State) :=
  match s.iter with
  | none => .ok (none, s)
  | some (tuples, it) => do
    let (more, it) ← (tupleIterator tuples).hasNext it
    if more then
      match ← (tupleIterator tuples).next it with
      | (some t, it) => return (some t, { s with iter := some (tuples, it) })
      | (none, _) => throw .noSuchElement
    else
      return (none, { s with iter := some (tuples, it) })

/-- `Aggregate` -/
def aggregateIter (a : Aggregate) : PullIter IterError Tuple :=
  Reader.ahead
    { State := AggregateState child.State
      start := ⟨child.start, a.aggregator, none⟩
      openIt := aggregateOpen child order
      readNext := aggregateReadNext child
      rewind := openResults child order
      close := fun s => { s with iter := none }
      left := fun s => s.iter.elim 0 fun it => (it.2.getD []).length }

end

/-! ## One opening and draining -/

section

variable {child : PullIter IterError Tuple} {order : KeyOrder} {a : Aggregate}
  {ts : List Tuple}

/-- A child that can be opened and gives tuples of the schema. -/
structure Feeds (child : PullIter IterError Tuple) (td : TupleDesc) (ts : List Tuple) : Prop where
  gives : ∃ c, child.openIt child.start = .ok c ∧ child.Gives c ts (.ok ()) ∧
    ts.length ≤ child.left c
  typed : ∀ t ∈ ts, t.Typed td

theorem gives_rest (c : child.State) (agg : Aggregator) (tuples rest : List Tuple) :
    (aggregateIter child order a).Gives (⟨c, agg, some (tuples, some rest)⟩, none) rest
      (.ok ()) := by
  induction rest with
  | nil =>
    have hdone : (aggregateIter child order a).hasNext (⟨c, agg, some (tuples, some [])⟩, none) =
        .ok (false, (⟨c, agg, some (tuples, some [])⟩, none)) := rfl
    exact .done hdone
  | cons t rest ih =>
    have hmore : (aggregateIter child order a).hasNext
        (⟨c, agg, some (tuples, some (t :: rest))⟩, none) =
          .ok (true, (⟨c, agg, some (tuples, some rest)⟩, some t)) := rfl
    exact .more hmore rfl ih

/-- Opening the operator and reading it to the end. -/
def aggregateRun (child : PullIter IterError Tuple) (order : KeyOrder) (a : Aggregate) :
    IterOutcome (List Tuple) :=
  ((aggregateIter child order a).openIt (aggregateIter child order a).start).bind
    (aggregateIter child order a).drain

/-- That gives what the aggregator makes of the tuples of the child. -/
theorem aggregateRun_eq (order : KeyOrder) (a : Aggregate)
    (hgives : ∃ c, child.openIt child.start = .ok c ∧ child.Gives c ts (.ok ()) ∧
      ts.length ≤ child.left c) :
    aggregateRun child order a =
      ((ts.foldlM Aggregator.merge a.aggregator).bind (Aggregator.iterator order)).map
        Prod.snd := by
  obtain ⟨c, hopen, hc, hleft⟩ := hgives
  have hloop : (child.forEach Aggregator.merge a.aggregator c).map Prod.fst = _ :=
    PullIter.loop_of_gives hc (Nat.lt_succ_of_le hleft)
  have hstart : (aggregateIter child order a).openIt (aggregateIter child order a).start =
      (aggregateOpen child order ⟨child.start, a.aggregator, none⟩).map fun s => (s, none) := rfl
  rw [aggregateRun, hstart, aggregateOpen]
  simp only [hopen, bind, Except.bind, Except.map] at hloop ⊢
  cases hfor : child.forEach Aggregator.merge a.aggregator c with
  | error e =>
    rw [hfor] at hloop
    cases hfold : ts.foldlM Aggregator.merge a.aggregator with
    | error e' =>
      rw [hfold] at hloop
      simpa using hloop
    | ok agg => simp [hfold] at hloop
  | ok r =>
    obtain ⟨agg, c'⟩ := r
    rw [hfor] at hloop
    cases hfold : ts.foldlM Aggregator.merge a.aggregator with
    | error e' => simp [hfold] at hloop
    | ok agg' =>
      rw [hfold] at hloop
      obtain rfl : agg = agg' := by simpa using hloop
      cases hiter : agg.iterator order with
      | error e => simp [openResults, hiter, bind, Except.bind]
      | ok results =>
        obtain ⟨td, tuples⟩ := results
        simp only [openResults, hiter, bind, Except.bind]
        exact PullIter.drain_of_gives (gives_rest c' agg tuples tuples) (Nat.le_succ _)

/-! ## The results of the aggregators -/

/-- One tuple for each group that has a tuple, and no other. -/
def OnePerGroup (gbfield : ℤ) (ts results : List Tuple) : Prop :=
  ∃ groups : List Field, (groups.map Field.ident).Nodup ∧
    (∀ k : Field, k.ident ∈ groups.map Field.ident ↔
      ∃ t ∈ ts, (groupOf gbfield t).ident = k.ident) ∧
    List.Forall₂ (fun g r => ∃ f, r.fields = (if gbfield = noGrouping then [] else [some g]) ++ [f])
      groups results

/-- The fields of the tuple have the types of the schema. -/
def Tuple.HasTypes (td : TupleDesc) (t : Tuple) : Prop :=
  List.Forall₂ (fun ty f => ∃ g : Field, f = some g ∧ g.type = ty) td.types t.fields

theorem Tuple.HasTypes.types_eq {td td' : TupleDesc} {t : Tuple} (h : t.HasTypes td)
    (h' : t.HasTypes td') : td.types = td'.types := by
  refine List.left_unique_forall₂' ?_ h h'
  rintro ty ty' f ⟨g, rfl, rfl⟩ ⟨g', hg', rfl⟩
  rw [Option.some.inj hg']

theorem OnePerGroup.eq_nil_iff {gbfield : ℤ} {ts results : List Tuple}
    (h : OnePerGroup gbfield ts results) : results = [] ↔ ts = [] := by
  obtain ⟨groups, -, hmem, hresults⟩ := h
  have hgroups : groups = [] ↔ ts = [] := by
    constructor
    · rintro rfl
      refine List.eq_nil_iff_forall_not_mem.2 fun t ht => ?_
      simpa using (hmem (groupOf gbfield t)).2 ⟨t, ht, rfl⟩
    · rintro rfl
      refine List.eq_nil_iff_forall_not_mem.2 fun g hg => ?_
      simpa using (hmem g).1 (List.mem_map_of_mem hg)
  rw [← hgroups, ← List.length_eq_zero_iff, ← List.length_eq_zero_iff, hresults.length_eq]

theorem Field.type_eq_of_ident {f g : Field} (h : f.ident = g.ident) : f.type = g.type := by
  cases f <;> cases g <;> first | rfl | cases h

variable {td : TupleDesc} {gfield afield : ℤ} {gtype : FieldType}

theorem getType_noGrouping (td : TupleDesc) : td.getType noGrouping = .error .noSuchElement := rfl

theorem ne_noGrouping_of_getType (h : td.getType gfield = .ok gtype) : gfield ≠ noGrouping := by
  rintro rfl
  rw [getType_noGrouping] at h
  cases h

theorem Tuple.Typed.fieldAtInt {t : Tuple} {i : ℤ} {ty : FieldType} (h : t.Typed td)
    (hi : td.getType i = .ok ty) :
    ∃ g : Field, t.fieldAtInt i = .ok (some g) ∧ g.type = ty := by
  rw [TupleDesc.getType] at hi
  split at hi
  · cases hi
  · rename_i hneg
    cases hty : td.types[i.toNat]? with
    | none => simp [hty] at hi
    | some ty' =>
      obtain rfl : ty' = ty := by simpa [hty] using hi
      obtain ⟨g, hg, hgty⟩ := h.fieldAt hty
      exact ⟨g, by rw [Tuple.fieldAtInt, if_neg hneg, hg], hgty⟩

theorem type_groupOf {t : Tuple} (h : t.Typed td) (hg : td.getType gfield = .ok gtype) :
    (groupOf gfield t).type = gtype := by
  obtain ⟨g, hget, hty⟩ := h.fieldAtInt hg
  rwa [groupOf, groupField, if_neg (ne_noGrouping_of_getType hg), hget]

/-- The keys of the counts, in the order of the iterator, are the groups. -/
theorem mem_keys_iff (order : KeyOrder) (g : Field) :
    g.ident ∈ (order.1 ((counts (items gfield afield ts)).map Prod.fst)).map Field.ident ↔
      groupValues gfield afield ts g ≠ [] := by
  have hkeys := (order.2 ((counts (items gfield afield ts)).map Prod.fst)).map Field.ident
  rw [hkeys.mem_iff, List.map_map]
  change g.ident ∈ idents Field.ident (counts (items gfield afield ts)) ↔ _
  rw [counts, mem_idents_collect, ← members_ne_nil_iff, members_items]

/-- The results for the keys of the counts, if a value is set for every group. -/
theorem iteratorOf_counts (order : KeyOrder)
    {setTupleField : Tuple → ℕ → Field → IterOutcome Tuple} (htyped : ∀ t ∈ ts, t.Typed td)
    (hg : td.getType gfield = .ok gtype)
    (hset : ∀ g, groupValues gfield afield ts g ≠ [] →
      ∃ n, ∀ t pos, setTupleField t pos g = t.setFieldAt pos (some (.intField n))) :
    ∃ results, iteratorOf gfield gtype setTupleField
        (order.1 ((counts (items gfield afield ts)).map Prod.fst)) =
          .ok (groupDesc gtype, results) ∧
      OnePerGroup gfield ts results ∧ ∀ r ∈ results, r.HasTypes (groupDesc gtype) := by
  have hno := ne_noGrouping_of_getType hg
  obtain ⟨hnodup, hmem⟩ := groups_spec gfield afield ts order fun h => absurd h hno
  have hset' : ∀ g ∈ resultGroups gfield
      (order.1 ((counts (items gfield afield ts)).map Prod.fst)), ∃ n : UInt32, g.type = gtype ∧
        ∀ t pos, setTupleField t pos g = t.setFieldAt pos (some (.intField n)) := by
    intro g hgroup
    obtain ⟨t, ht, hident⟩ := (hmem g).1 (List.mem_map_of_mem hgroup)
    obtain ⟨n, hn⟩ := hset g ((groupValues_ne_nil_iff gfield afield ts g).2 ⟨t, ht, hident⟩)
    exact ⟨n, (Field.type_eq_of_ident hident).symm.trans (type_groupOf (htyped t ht) hg), hn⟩
  obtain ⟨results, hiter, -, hresults⟩ := iteratorOf_ok gtype (P := fun g _ => g.type = gtype) hset'
  have hdesc : resultDesc gfield gtype = groupDesc gtype := if_neg hno
  have htypes : List.Forall₂ (fun r _ => r.HasTypes (groupDesc gtype) ∧ True) results
      (resultGroups gfield (order.1 ((counts (items gfield afield ts)).map Prod.fst))) := by
    refine (hresults.flip).imp fun r g hr => ⟨?_, trivial⟩
    obtain ⟨n, hfields, hty⟩ := hr
    rw [Tuple.HasTypes, hfields, resultFields, if_neg hno]
    exact .cons ⟨g, rfl, hty⟩ (.cons ⟨_, rfl, rfl⟩ .nil)
  refine ⟨results, by rw [hiter, hdesc], ⟨_, hnodup, hmem, ?_⟩,
    ((List.forall₂_and_left results _).1 htypes).1⟩
  refine hresults.imp fun g r hr => ?_
  obtain ⟨n, hfields, -⟩ := hr
  exact ⟨_, hfields⟩

/-- If the results can be made, then a value is set for every group. -/
theorem exists_of_iteratorOf_ok {order : KeyOrder} {r : TupleDesc × List Tuple}
    {setTupleField : Tuple → ℕ → Field → IterOutcome Tuple} (hno : gfield ≠ noGrouping)
    (h : iteratorOf gfield gtype setTupleField
      (order.1 ((counts (items gfield afield ts)).map Prod.fst)) = .ok r)
    {k : Field} (hk : groupValues gfield afield ts k ≠ []) :
    ∃ g t t', g.ident = k.ident ∧ setTupleField t 1 g = .ok t' := by
  obtain ⟨g, hg, hident⟩ := List.mem_map.1 ((mem_keys_iff order k).2 hk)
  rw [iteratorOf, if_neg hno] at h
  cases hmap : (order.1 ((counts (items gfield afield ts)).map Prod.fst)).mapM
      (keyTuple setTupleField (groupDesc gtype)) with
  | error e => simp [hmap, bind, Except.bind] at h
  | ok tup =>
    obtain ⟨t', -, ht'⟩ := of_mapM_ok hmap g hg
    have hfirst : (Tuple.new (groupDesc gtype)).setFieldAt 0 (some g) =
        .ok ((Tuple.new (groupDesc gtype)).setField 0 (some g)) := rfl
    simp only [keyTuple, hfirst, bind, Except.bind] at ht'
    exact ⟨g, _, t', hident, ht'⟩

/-! ### Integers -/

namespace IntAggregator

variable {aop : AggOp}

theorem foldlM_int (agg : IntAggregator) (ts : List Tuple) :
    ts.foldlM Aggregator.merge (.int agg) = (ts.foldlM merge agg).map .int := by
  induction ts generalizing agg with
  | nil => rfl
  | cons t ts ih =>
    rw [List.foldlM_cons, List.foldlM_cons, Aggregator.merge]
    cases agg.merge t with
    | error e => rfl
    | ok agg => exact ih agg

theorem aggregates_of_typed {t : Tuple} (h : t.Typed td) (ha : td.getType afield = .ok .intType)
    (hg : td.getType gfield = .ok gtype) : t.Aggregates gfield gtype afield := by
  obtain ⟨f, hf, hty⟩ := h.fieldAtInt ha
  cases f with
  | intField v => exact ⟨.inr (h.fieldAtInt hg), v, hf⟩
  | stringField f => cases hty

/-- An average divides by a number of tuples that has wrapped to zero. -/
theorem setTupleField_avg_zero {agg : IntAggregator} {g : Field} {sum : ℤ}
    (hwhat : agg.what = .avg) (hsum : get Field.ident agg.sum g = some sum)
    (hcount : get Field.ident agg.count g = some 0) (t : Tuple) (pos : ℕ) :
    agg.setTupleField t pos g = .error (.thrown .arithmetic) := by
  simp [setTupleField, hwhat, hsum, hcount, unbox, bind, Except.bind]
  rfl

theorem wrap32_natCast_eq_zero_iff (n : ℕ) : wrap32 n = 0 ↔ 2 ^ 32 ∣ n := by
  rw [wrap32, ← Int.dvd_iff_bmod_eq_zero, Int.natCast_dvd_natCast]

theorem iterator_ok (order : KeyOrder) (htyped : ∀ t ∈ ts, t.Typed td)
    (hg : td.getType gfield = .ok gtype)
    (havg : aop = .avg → ∀ t ∈ ts,
      ¬ 2 ^ 32 ∣ (groupValues gfield afield ts (groupOf gfield t)).length) :
    ∃ results, (filled gfield gtype afield aop (items gfield afield ts)).iterator order =
        .ok (groupDesc gtype, results) ∧
      OnePerGroup gfield ts results ∧ ∀ r ∈ results, r.HasTypes (groupDesc gtype) := by
  refine iteratorOf_counts order htyped hg fun g hne => ?_
  obtain ⟨n, -, hset⟩ := setTupleField_filled gtype aop hne fun hop hzero => by
    obtain ⟨t, ht, hident⟩ := (groupValues_ne_nil_iff gfield afield ts g).1 hne
    have hvalues : groupValues gfield afield ts (groupOf gfield t) =
        groupValues gfield afield ts g := by
      simp only [groupValues, hident]
    exact havg hop t ht (hvalues ▸ (wrap32_natCast_eq_zero_iff _).1 hzero)
  exact ⟨n, hset⟩

theorem not_dvd_of_iterator_ok {order : KeyOrder} {r : TupleDesc × List Tuple}
    (hno : gfield ≠ noGrouping)
    (h : (filled gfield gtype afield .avg (items gfield afield ts)).iterator order = .ok r)
    {t : Tuple} (ht : t ∈ ts) :
    ¬ 2 ^ 32 ∣ (groupValues gfield afield ts (groupOf gfield t)).length := by
  intro hdvd
  have hne := (groupValues_ne_nil_iff gfield afield ts (groupOf gfield t)).2 ⟨t, ht, rfl⟩
  obtain ⟨g, t₁, t₂, hident, hset⟩ := exists_of_iteratorOf_ok hno h hne
  have hvalues : groupValues gfield afield ts g =
      groupValues gfield afield ts (groupOf gfield t) := by
    simp only [groupValues, hident]
  rw [← hvalues] at hdvd hne
  have hcount := get_counts hne
  rw [(wrap32_natCast_eq_zero_iff _).2 hdvd] at hcount
  obtain ⟨s, hsum⟩ : ∃ s, get Field.ident
      (filled gfield gtype afield .avg (items gfield afield ts)).sum g = some s := by
    rw [filled, get_collect, members_items]
    cases hvs : groupValues gfield afield ts g with
    | nil => exact absurd hvs hne
    | cons v vs => exact ⟨_, rfl⟩
  rw [setTupleField_avg_zero rfl hsum hcount] at hset
  cases hset

end IntAggregator

/-! ### Strings -/

namespace StringAggregator

/-- The aggregator with its table filled. -/
def filled (gbfield : ℤ) (gbfieldtype : FieldType) (afield : ℤ)
    (items : List (Field × ℤ)) : StringAggregator :=
  ⟨gbfield, gbfieldtype, afield, counts items⟩

theorem foldlM_string (htyped : ∀ t ∈ ts, t.Typed td) (ha : td.getType afield = .ok .stringType)
    (hg : td.getType gfield = .ok gtype) :
    ts.foldlM Aggregator.merge (.string (filled gfield gtype afield [])) =
      .ok (.string (filled gfield gtype afield (items gfield afield ts))) := by
  induction ts using List.reverseRecOn with
  | nil => rfl
  | append_singleton ts t ih =>
    have ht := htyped t (by simp)
    obtain ⟨f, hf, hty⟩ := ht.fieldAtInt ha
    have hgroup := groupField_eq (.inr (ht.fieldAtInt hg))
    rw [List.foldlM_append, ih fun t ht => htyped t (List.mem_append_left _ ht)]
    cases f with
    | intField v => cases hty
    | stringField f =>
      have haggregate : (filled gfield gtype afield (items gfield afield ts)).aggregate
          (groupOf gfield t) = filled gfield gtype afield (items gfield afield (ts ++ [t])) := by
        have hitems : items gfield afield (ts ++ [t]) =
            items gfield afield ts ++ [(groupOf gfield t, numberOf afield t)] := by
          simp [items]
        rw [hitems, filled, filled, ← counts_concat]
        rfl
      have hmerge : (filled gfield gtype afield (items gfield afield ts)).merge t =
          .ok (filled gfield gtype afield (items gfield afield (ts ++ [t]))) := by
        simp only [merge, filled, hgroup, hf, bind, Except.bind]
        exact congrArg Except.ok haggregate
      simp [Aggregator.merge, hmerge, bind, Except.bind, pure, Except.pure]

theorem iterator_ok (afield : ℤ) (order : KeyOrder) (htyped : ∀ t ∈ ts, t.Typed td)
    (hg : td.getType gfield = .ok gtype) :
    ∃ results, (filled gfield gtype afield (items gfield afield ts)).iterator order =
        .ok (groupDesc gtype, results) ∧
      OnePerGroup gfield ts results ∧ ∀ r ∈ results, r.HasTypes (groupDesc gtype) := by
  refine iteratorOf_counts order htyped hg fun g hne => ?_
  change groupValues gfield afield ts g ≠ [] at hne
  refine ⟨.ofInt (wrap32 (groupValues gfield afield ts g).length), fun t pos => ?_⟩
  simp [setTupleField, filled, get_counts hne, unbox, newIntField, bind, Except.bind]

end StringAggregator

/-! ## The operator -/

/-- The operator is constructed, and gives one tuple for each group with fields of the types that
it declares. -/
def IsDefined (child : PullIter IterError Tuple) (order : KeyOrder) (td : TupleDesc)
    (ts : List Tuple) (afield gfield : ℤ) (aop : AggOp) : Prop :=
  ∃ a results, Aggregate.new td afield gfield aop = .ok a ∧
    aggregateRun child order a = .ok results ∧
    OnePerGroup gfield ts results ∧ ∀ r ∈ results, r.HasTypes a.td

variable {aop : AggOp} {atype : FieldType}

theorem not_isDefined_noGrouping (child : PullIter IterError Tuple) (order : KeyOrder)
    (td : TupleDesc) (ts : List Tuple) (afield : ℤ) (aop : AggOp) :
    ¬ IsDefined child order td ts afield noGrouping aop := by
  rintro ⟨a, results, hnew, -⟩
  cases ha : td.getType afield with
  | error e => simp [Aggregate.new, ha, bind, Except.bind] at hnew
  | ok atype => simp [Aggregate.new, ha, getType_noGrouping, bind, Except.bind] at hnew

theorem isDefined_int_iff (order : KeyOrder) (hfeeds : Feeds child td ts)
    (ha : td.getType afield = .ok .intType) (hg : td.getType gfield = .ok gtype) :
    IsDefined child order td ts afield gfield aop ↔ (aop = .avg → ∀ t ∈ ts,
      ¬ 2 ^ 32 ∣ (groupValues gfield afield ts (groupOf gfield t)).length) := by
  have hno := ne_noGrouping_of_getType hg
  have hnew : Aggregate.new td afield gfield aop =
      .ok ⟨.int (.new gfield gtype afield aop), groupDesc gtype⟩ := by
    simp [Aggregate.new, ha, hg, hno, bind, Except.bind, pure, Except.pure, groupDesc]
  have hmerge : ts.foldlM Aggregator.merge (.int (.new gfield gtype afield aop)) =
      .ok (.int (.filled gfield gtype afield aop (items gfield afield ts))) := by
    rw [IntAggregator.foldlM_int, IntAggregator.foldlM_merge fun t ht =>
      IntAggregator.aggregates_of_typed (hfeeds.typed t ht) ha hg]
    rfl
  have hrun := aggregateRun_eq order
    ⟨.int (.new gfield gtype afield aop), groupDesc gtype⟩ hfeeds.gives
  rw [hmerge] at hrun
  constructor
  · rintro ⟨a, results, hnew', hrun', -⟩ rfl t ht
    obtain rfl := Except.ok.inj (hnew.symm.trans hnew')
    rw [hrun] at hrun'
    cases hiter : (IntAggregator.filled gfield gtype afield .avg
        (items gfield afield ts)).iterator order with
    | error e => simp [Except.bind, Aggregator.iterator, hiter, Except.map] at hrun'
    | ok r => exact IntAggregator.not_dvd_of_iterator_ok hno hiter ht
  · intro havg
    obtain ⟨results, hiter, hgroups, htypes⟩ :=
      IntAggregator.iterator_ok order hfeeds.typed hg havg
    refine ⟨_, results, hnew, ?_, hgroups, htypes⟩
    rw [hrun]
    simp [Except.bind, Aggregator.iterator, hiter, Except.map]

/-- A count of strings is declared as a string and given as a number. -/
theorem isDefined_string_iff (order : KeyOrder) (hfeeds : Feeds child td ts)
    (ha : td.getType afield = .ok .stringType) (hg : td.getType gfield = .ok gtype) :
    IsDefined child order td ts afield gfield .count ↔ ts = [] := by
  have hno := ne_noGrouping_of_getType hg
  have hnew : Aggregate.new td afield gfield .count = .ok
      ⟨.string (.filled gfield gtype afield []), ⟨[gtype, .stringType], List.cons_ne_nil _ _⟩⟩ := by
    simp [Aggregate.new, ha, hg, hno, bind, Except.bind, pure, Except.pure, StringAggregator.new]
    rfl
  obtain ⟨results, hiter, hgroups, htypes⟩ :=
    StringAggregator.iterator_ok afield order hfeeds.typed hg
  have hrun := aggregateRun_eq order
    ⟨.string (.filled gfield gtype afield []), ⟨[gtype, .stringType], List.cons_ne_nil _ _⟩⟩
    hfeeds.gives
  rw [StringAggregator.foldlM_string hfeeds.typed ha hg] at hrun
  simp only [Except.bind, Aggregator.iterator, hiter, Except.map] at hrun
  constructor
  · rintro ⟨a, results', hnew', hrun', -, htypes'⟩
    obtain rfl := Except.ok.inj (hnew.symm.trans hnew')
    obtain rfl := Except.ok.inj (hrun.symm.trans hrun')
    rw [← hgroups.eq_nil_iff]
    refine List.eq_nil_iff_forall_not_mem.2 fun r hr => ?_
    have hsame := (htypes r hr).types_eq (htypes' r hr)
    simp [groupDesc] at hsame
  · intro hnil
    have hnone := hgroups.eq_nil_iff.2 hnil
    exact ⟨_, results, hnew, hrun, hgroups, by simp [hnone]⟩

/-- Every admissible operator is defined exactly if it groups, counts no strings and takes no
average of a group whose number of tuples wraps to zero. -/
theorem isDefined_iff (order : KeyOrder) (hfeeds : Feeds child td ts)
    (ha : td.getType afield = .ok atype)
    (hg : gfield = noGrouping ∨ ∃ gtype, td.getType gfield = .ok gtype)
    (hop : atype = .stringType → aop = .count) :
    IsDefined child order td ts afield gfield aop ↔
      gfield ≠ noGrouping ∧ (atype = .stringType → ts = []) ∧ (aop = .avg → ∀ t ∈ ts,
        ¬ 2 ^ 32 ∣ (groupValues gfield afield ts (groupOf gfield t)).length) := by
  obtain rfl | ⟨gtype, hg⟩ := hg
  · simp [not_isDefined_noGrouping]
  · have hno := ne_noGrouping_of_getType hg
    cases atype with
    | intType => simp [isDefined_int_iff order hfeeds ha hg, hno]
    | stringType =>
      obtain rfl := hop rfl
      simp [isDefined_string_iff order hfeeds ha hg, hno]

theorem feeds_tupleIterator (h : ∀ t ∈ ts, t.Typed td) : Feeds (tupleIterator ts) td ts := by
  have hrest (all rest : List Tuple) :
      (tupleIterator all).Gives (some rest) rest (.ok ()) := by
    induction rest with
    | nil => exact .done rfl
    | cons t rest ih => exact .more rfl rfl ih
  exact ⟨⟨some ts, rfl, hrest ts ts, Nat.le_refl _⟩, h⟩

/-- The average of one row of a group. -/
theorem isDefined_row :
    IsDefined (tupleIterator [IntAggregator.rowOf 7 1]) ⟨id, List.Perm.refl⟩ (groupDesc .intType)
        [IntAggregator.rowOf 7 1] 1 0 .avg ↔
      (0 : ℤ) ≠ noGrouping ∧ (FieldType.intType = .stringType →
          [IntAggregator.rowOf 7 1] = []) ∧
        (AggOp.avg = .avg → ∀ t ∈ [IntAggregator.rowOf 7 1],
          ¬ 2 ^ 32 ∣ (groupValues 0 1 [IntAggregator.rowOf 7 1] (groupOf 0 t)).length) := by
  have hrow : (IntAggregator.rowOf 7 1).Typed (groupDesc .intType) :=
    ⟨rfl, .cons ⟨_, rfl, rfl⟩ (.cons ⟨_, rfl, rfl⟩ .nil)⟩
  have hafield : (groupDesc .intType).getType 1 = .ok .intType := rfl
  exact isDefined_iff _ (feeds_tupleIterator (by simpa using hrow)) hafield
    (.inr ⟨.intType, rfl⟩) (by simp)

/-- Without grouping the constructor looks for a column with the number -1. -/
theorem aggregate_noGrouping : ¬ ∀ (child : PullIter IterError Tuple) (order : KeyOrder)
    (td : TupleDesc) (ts : List Tuple) (afield gfield : ℤ) (aop : AggOp) (atype : FieldType),
    Feeds child td ts → td.getType afield = .ok atype →
    (gfield = noGrouping ∨ ∃ gtype, td.getType gfield = .ok gtype) →
    (atype = .stringType → aop = .count) → IsDefined child order td ts afield gfield aop := by
  intro h
  have hdef := h (tupleIterator []) ⟨id, List.Perm.refl⟩ valueDesc [] 0 noGrouping .min .intType
    (feeds_tupleIterator (by simp)) rfl (.inl rfl) (by simp)
  exact not_isDefined_noGrouping _ _ _ _ _ _ hdef

end

end Courses.SimpleDb
