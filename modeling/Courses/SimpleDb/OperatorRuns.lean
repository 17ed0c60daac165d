import Courses.SimpleDb.Relations

/-!
# Runs of an operator tree

Each operator serves what it means, given that its children do: `Filter`, `Join` and
`OrderBy` by the loops of their `open`, `Project` tuple by tuple. For a whole tree this gives
what a user gets who opens it once and drains it, and what happens when the tree is
restarted: the looked-ahead tuple of `AbstractDbIterator` is not cleared, and the lists of
the operators are filled again without being emptied.
-/
namespace Courses.SimpleDb

open Courses.Lib

section

variable {child child1 child2 : PullIter IterError Tuple} {ts ts1 ts2 : List Tuple}
  {plain plain1 plain2 : Prop}

def tupleIteratorServes (ts : List Tuple) : Serves (tupleIterator ts) ts True where
  At s h rest all := s = some rest ∧ h = none ∧ all = ts ∧ rest <:+ ts
  Closed _ h all := h = none ∧ all = ts
  held_eq hat := hat.2.1.symm
  left_ge := by
    rintro s h rest all ⟨rfl, rfl, rfl, -⟩
    exact Nat.le_refl _
  same hat x := by rw [hat.2.2.1]
  rest_mem := by
    rintro s h rest all ⟨rfl, rfl, rfl, hsuffix⟩ x hx
    exact hsuffix.subset hx
  hasNext_ok := by
    rintro s h rest all ⟨rfl, rfl, rfl, hsuffix⟩
    exact ⟨some rest, none, rest, rfl, ⟨rfl, rfl, rfl, hsuffix⟩, rfl⟩
  next_none := by
    rintro s h rest all ⟨rfl, rfl, rfl, hsuffix⟩ hnil
    obtain rfl : rest = [] := hnil
    exact ⟨some [], rfl, rfl, rfl, rfl, hsuffix⟩
  next_some := by
    rintro s h rest all a more ⟨rfl, rfl, rfl, hsuffix⟩ hcons
    obtain rfl : rest = a :: more := hcons
    exact ⟨some more, rfl, rfl, rfl, rfl, (List.suffix_cons a more).trans hsuffix⟩
  rewind_ok := by
    rintro s h rest all ⟨rfl, rfl, rfl, -⟩
    exact ⟨some all, rfl, rfl, rfl, rfl, List.suffix_rfl⟩
  start_ok := ⟨some ts, rfl, rfl, rfl, rfl, List.suffix_rfl⟩
  close_ok hat := ⟨hat.2.1, hat.2.2.1⟩
  reopen_ok := by
    rintro s h rest all ⟨rfl, rfl, rfl, -⟩
    exact ⟨some all, all, rfl, ⟨rfl, rfl, rfl, List.suffix_rfl⟩, fun _ => rfl,
      fun hplain => absurd trivial hplain⟩
  reopen_closed := by
    rintro s h all ⟨rfl, rfl⟩
    exact ⟨some all, all, rfl, ⟨rfl, rfl, rfl, List.suffix_rfl⟩, fun _ => rfl,
      fun hplain => absurd trivial hplain⟩

/-! ### `Filter` -/

theorem filterBody_ok {p : Predicate} {td : TupleDesc} (hts : ∀ t ∈ ts, t.Typed td)
    (hp : td.types[p.field]? = some p.operand.type) (start seen acc : List Tuple) (a : Tuple)
    (hacc : acc = start ++ seen.filter p.holds) (ha : a ∈ ts) :
    ∃ acc', filterBody p acc a = .ok acc' ∧ acc' = start ++ (seen ++ [a]).filter p.holds := by
  have hfilter := Predicate.filter_ok (hts a ha) hp
  cases hb : p.holds a with
  | true =>
    refine ⟨acc ++ [a], ?_, by simp [hacc, hb]⟩
    simp [filterBody, hfilter, hb, bind, Except.bind, pure, Except.pure]
  | false =>
    refine ⟨acc, ?_, by simp [hacc, hb]⟩
    simp [filterBody, hfilter, hb, bind, Except.bind, pure, Except.pure]

/-- The loop of `Filter.open` over a child that has just been opened. -/
theorem filter_fill {p : Predicate} {td : TupleDesc} (S : Serves child ts plain)
    (hts : ∀ t ∈ ts, t.Typed td) (hp : td.types[p.field]? = some p.operand.type)
    {c : child.State} {all : List Tuple} (hat : S.At c none all all) (childTups : List Tuple) :
    ∃ c', child.forEach (filterBody p) childTups c =
        .ok (childTups ++ all.filter p.holds, c') ∧ S.At c' none [] all := by
  obtain ⟨acc, c', hloop, rfl, hat'⟩ :=
    S.forEach_ok (J := fun seen acc => acc = childTups ++ seen.filter p.holds)
      (filterBody_ok hts hp childTups) hat (show childTups = childTups ++ [].filter p.holds by simp)
  exact ⟨c', hloop, hat'⟩

/-- A list that is filled a second time with elements it has. -/
theorem refilled {all extra ts : List Tuple} (hall : ∀ x, x ∈ all ↔ x ∈ ts)
    (hextra : ∀ x, x ∈ extra ↔ x ∈ ts) :
    (∀ x, x ∈ all ++ extra ↔ x ∈ ts) ∧ (all ≠ [] → all.length < (all ++ extra).length) := by
  refine ⟨fun x => by rw [List.mem_append, hall, hextra, or_self], fun hne => ?_⟩
  obtain ⟨x, hx⟩ := List.exists_mem_of_ne_nil all hne
  have hpos := List.length_pos_of_mem ((hextra x).2 ((hall x).1 hx))
  rw [List.length_append]
  omega

def filterServes {p : Predicate} {td : TupleDesc} (S : Serves child ts plain)
    (hts : ∀ t ∈ ts, t.Typed td) (hp : td.types[p.field]? = some p.operand.type) :
    Serves (filterIter child p) (ts.filter p.holds) False :=
  (bufferedReads (fun c all => (∃ ac, S.At c none [] ac) ∧ ∀ x, x ∈ all ↔ x ∈ ts.filter p.holds)
    (by
      obtain ⟨c, hopen, hat⟩ := S.start_ok
      obtain ⟨c', hloop, hat'⟩ := filter_fill S hts hp hat []
      exact ⟨c', by simpa [hopen, bind, Except.bind] using hloop, ⟨ts, hat'⟩, fun _ => Iff.rfl⟩)
    (fun _ _ hsrc => hsrc.2)
    (by
      rintro c all ⟨⟨ac, hat⟩, hmem⟩
      obtain ⟨c₁, ac', hopen, hat₁, -⟩ := S.reopen_ok hat
      obtain ⟨c', hloop, hat'⟩ := filter_fill S hts hp hat₁ all
      have hagain : ∀ x, x ∈ ac'.filter p.holds ↔ x ∈ ts.filter p.holds := by
        intro x
        rw [List.mem_filter, List.mem_filter, S.same hat₁ x]
      obtain ⟨hmem', hgrown⟩ := refilled hmem hagain
      exact ⟨_, c', by simpa [hopen, bind, Except.bind] using hloop, ⟨⟨ac', hat'⟩, hmem'⟩,
        hgrown⟩)).ahead

/-! ### `Join` -/

/-- The inner loop, for one outer tuple. -/
theorem innerBody_ok {p : JoinPredicate} {td1 td2 : TupleDesc} {ty : FieldType} {t1 : Tuple}
    (ht1 : t1.Typed td1) (hts2 : ∀ t ∈ ts2, t.Typed td2)
    (hp1 : td1.types[p.field1]? = some ty) (hp2 : td2.types[p.field2]? = some ty)
    (start seen acc : List Tuple) (t2 : Tuple)
    (hacc : acc = start ++ (seen.filter (p.holds t1)).map t1.concat) (ht2 : t2 ∈ ts2) :
    ∃ acc', innerBody (td1.combine td2) p t1 acc t2 = .ok acc' ∧
      acc' = start ++ ((seen ++ [t2]).filter (p.holds t1)).map t1.concat := by
  have hfilter := JoinPredicate.filter_ok ht1 (hts2 t2 ht2) hp1 hp2
  have hjoin : joinTuples (td1.combine td2) t1 t2 = .ok (t1.concat t2) := by
    rw [← ht1.desc, ← (hts2 t2 ht2).desc]
    exact joinTuples_ok t1 t2
  cases hb : p.holds t1 t2 with
  | true =>
    refine ⟨acc ++ [t1.concat t2], ?_, by simp [hacc, hb]⟩
    simp [innerBody, hfilter, hb, hjoin, bind, Except.bind, pure, Except.pure]
  | false =>
    refine ⟨acc, ?_, by simp [hacc, hb]⟩
    simp [innerBody, hfilter, hb, bind, Except.bind, pure, Except.pure]

/-- The loops of `Join.open` over children that have just been opened. -/
theorem join_fill {p : JoinPredicate} {td1 td2 : TupleDesc} {ty : FieldType}
    (S1 : Serves child1 ts1 plain1) (S2 : Serves child2 ts2 plain2)
    (hts1 : ∀ t ∈ ts1, t.Typed td1) (hts2 : ∀ t ∈ ts2, t.Typed td2)
    (hp1 : td1.types[p.field1]? = some ty) (hp2 : td2.types[p.field2]? = some ty)
    {c1 : child1.State} {c2 : child2.State} {all1 all2 : List Tuple}
    (hat1 : S1.At c1 none all1 all1) (hat2 : S2.At c2 none all2 all2) (tups : List Tuple) :
    ∃ c1' c2' rest2, child1.forEach (outerBody child2 (td1.combine td2) p) (tups, c2) c1 =
        .ok ((tups ++ nestedLoop p all1 all2, c2'), c1') ∧
      S1.At c1' none [] all1 ∧ S2.At c2' none rest2 all2 := by
  let J : List Tuple → List Tuple × child2.State → Prop := fun seen acc =>
    acc.1 = tups ++ nestedLoop p seen all2 ∧ ∃ rest2, S2.At acc.2 none rest2 all2
  have hbody : ∀ seen acc t1, J seen acc → t1 ∈ ts1 →
      ∃ acc', outerBody child2 (td1.combine td2) p acc t1 = .ok acc' ∧ J (seen ++ [t1]) acc' := by
    rintro seen ⟨acc, s2⟩ t1 ⟨hacc, rest2, hat⟩ ht1
    obtain ⟨s2', hrewind, hat'⟩ := S2.rewind_ok hat
    obtain ⟨acc', s2'', hloop, hacc', hat''⟩ :=
      S2.forEach_ok (J := fun seen2 acc2 => acc2 = acc ++ (seen2.filter (p.holds t1)).map t1.concat)
        (innerBody_ok (hts1 t1 ht1) hts2 hp1 hp2 acc) hat'
        (show acc = acc ++ ([].filter (p.holds t1)).map t1.concat by simp)
    refine ⟨(acc', s2''), ?_, ?_, [], hat''⟩
    · simp only [outerBody, hrewind, bind, Except.bind]
      exact hloop
    · change acc' = _
      rw [hacc']
      change acc = _ at hacc
      rw [hacc]
      simp [nestedLoop]
  obtain ⟨⟨acc, c2'⟩, c1', hloop, ⟨hacc, rest2, hat2'⟩, hat1'⟩ :=
    S1.forEach_ok (J := J) hbody hat1 (show J [] (tups, c2) from ⟨by simp [nestedLoop], all2, hat2⟩)
  refine ⟨c1', c2', rest2, ?_, hat1', hat2'⟩
  rw [hloop]
  change acc = _ at hacc
  rw [hacc]
  rfl

def joinServes {p : JoinPredicate} {td1 td2 : TupleDesc} (S1 : Serves child1 ts1 plain1)
    (S2 : Serves child2 ts2 plain2) (hts1 : ∀ t ∈ ts1, t.Typed td1)
    (hts2 : ∀ t ∈ ts2, t.Typed td2)
    (hp : ∃ ty, td1.types[p.field1]? = some ty ∧ td2.types[p.field2]? = some ty) :
    Serves (joinIter child1 child2 (td1.combine td2) p) (nestedLoop p ts1 ts2) False :=
  (bufferedReads
    (fun c all => (∃ a1, S1.At c.1 none [] a1) ∧ (∃ r2 a2, S2.At c.2 none r2 a2) ∧
      ∀ x, x ∈ all ↔ x ∈ nestedLoop p ts1 ts2)
    (by
      obtain ⟨ty, hp1, hp2⟩ := hp
      obtain ⟨c1, hopen1, hat1⟩ := S1.start_ok
      obtain ⟨c2, hopen2, hat2⟩ := S2.start_ok
      obtain ⟨c1', c2', r2, hloop, hat1', hat2'⟩ :=
        join_fill S1 S2 hts1 hts2 hp1 hp2 hat1 hat2 []
      refine ⟨(c1', c2'), ?_, ⟨ts1, hat1'⟩, ⟨r2, ts2, hat2'⟩, fun _ => Iff.rfl⟩
      simp [hopen1, hopen2, hloop, bind, Except.bind, pure, Except.pure])
    (fun _ _ hsrc => hsrc.2.2)
    (by
      obtain ⟨ty, hp1, hp2⟩ := hp
      rintro ⟨c1, c2⟩ all ⟨⟨a1, hat1⟩, ⟨r2, a2, hat2⟩, hmem⟩
      obtain ⟨d1, a1', hopen1, hat1', -⟩ := S1.reopen_ok hat1
      obtain ⟨d2, a2', hopen2, hat2', -⟩ := S2.reopen_ok hat2
      obtain ⟨c1', c2', r2', hloop, hend1, hend2⟩ :=
        join_fill S1 S2 hts1 hts2 hp1 hp2 hat1' hat2' all
      have hagain : ∀ x, x ∈ nestedLoop p a1' a2' ↔ x ∈ nestedLoop p ts1 ts2 := by
        intro x
        simp only [mem_nestedLoop, S1.same hat1', S2.same hat2']
      obtain ⟨hmem', hgrown⟩ := refilled hmem hagain
      refine ⟨_, (c1', c2'), ?_, ⟨⟨a1', hend1⟩, ⟨r2', a2', hend2⟩, hmem'⟩, hgrown⟩
      simp [hopen1, hopen2, hloop, bind, Except.bind, pure, Except.pure])).ahead

/-! ### `OrderBy` -/

theorem orderBy_fill (S : Serves child ts plain) {c : child.State} {all : List Tuple}
    (hat : S.At c none all all) (childTups : List Tuple) :
    ∃ c', child.forEach PullIter.collect childTups c = .ok (childTups ++ all, c') ∧
      S.At c' none [] all := by
  have hbody : ∀ (seen acc : List Tuple) (a : Tuple), acc = childTups ++ seen → a ∈ ts →
      ∃ acc', (PullIter.collect acc a : IterOutcome (List Tuple)) = .ok acc' ∧
        acc' = childTups ++ (seen ++ [a]) := by
    rintro seen acc a rfl -
    exact ⟨childTups ++ seen ++ [a], rfl, by simp⟩
  obtain ⟨acc, c', hloop, rfl, hat'⟩ := S.forEach_ok hbody hat (List.append_nil childTups).symm
  exact ⟨c', hloop, hat'⟩

def orderByServes {field : ℕ} {td : TupleDesc} (asc : Bool) (S : Serves child ts plain)
    (hts : ∀ t ∈ ts, t.Typed td) (hty : ∃ ty, td.types[field]? = some ty) :
    Serves (orderByIter child field asc) (ts.mergeSort (sortLe field asc)) False :=
  (bufferedReads (fun c all => (∃ ac, S.At c none [] ac) ∧
      ∀ x, x ∈ all ↔ x ∈ ts.mergeSort (sortLe field asc))
    (by
      obtain ⟨ty, hty⟩ := hty
      obtain ⟨c, hopen, hat⟩ := S.start_ok
      obtain ⟨c', hloop, hat'⟩ := orderBy_fill S hat []
      refine ⟨c', ?_, ⟨ts, hat'⟩, fun _ => Iff.rfl⟩
      simp [hopen, hloop, collectionsSort_ok asc hty hts, bind, Except.bind, pure, Except.pure])
    (fun _ _ hsrc => hsrc.2)
    (by
      obtain ⟨ty, hty⟩ := hty
      rintro c all ⟨⟨ac, hat⟩, hmem⟩
      obtain ⟨c₁, ac', hopen, hat₁, -⟩ := S.reopen_ok hat
      obtain ⟨c', hloop, hat'⟩ := orderBy_fill S hat₁ all
      have hagain : ∀ x, x ∈ ac' ↔ x ∈ ts.mergeSort (sortLe field asc) := by
        intro x
        rw [List.mem_mergeSort, S.same hat₁ x]
      obtain ⟨hmem', hgrown⟩ := refilled hmem hagain
      have htyped : ∀ t ∈ all ++ ac', t.Typed td := fun t ht =>
        hts t (List.mem_mergeSort.1 ((hmem' t).1 ht))
      refine ⟨(all ++ ac').mergeSort (sortLe field asc), c', ?_, ⟨⟨ac', hat'⟩, fun x => ?_⟩, ?_⟩
      · simp [hopen, hloop, collectionsSort_ok asc hty htyped, bind, Except.bind, pure, Except.pure]
      · rw [List.mem_mergeSort, hmem']
      · rw [List.length_mergeSort]
        exact hgrown)).ahead

/-! ### `Project` -/

/-- The tuple that `Project` makes of `t`. -/
def projected (td : TupleDesc) (outFieldIds : List ℕ) (t : Tuple) : Tuple :=
  match projectTuple td outFieldIds t with
  | .ok t' => t'
  | .error _ => t

theorem projected_ok {childTd td : TupleDesc} {outFieldIds : List ℕ} {t : Tuple}
    (ht : t.Typed childTd) (hproj : Projects childTd outFieldIds td) :
    projectTuple td outFieldIds t = .ok (projected td outFieldIds t) ∧
      IsProjection td outFieldIds t (projected td outFieldIds t) ∧
      (projected td outFieldIds t).Typed td := by
  obtain ⟨t', hok, hspec, htyped⟩ := projectTuple_ok ht hproj
  have heq : projected td outFieldIds t = t' := by simp [projected, hok]
  rw [heq]
  exact ⟨hok, hspec, htyped⟩

theorem regrown_map {all all' : List Tuple} (f : Tuple → Tuple) (h : Regrown plain all all') :
    Regrown plain (all.map f) (all'.map f) := by
  refine ⟨fun hplain => by rw [h.1 hplain], fun hplain hne => ?_⟩
  rw [List.length_map, List.length_map]
  exact h.2 hplain fun hnil => hne (by rw [hnil]; rfl)

def projectServes {childTd td : TupleDesc} {outFieldIds : List ℕ} (S : Serves child ts plain)
    (hts : ∀ t ∈ ts, t.Typed childTd) (hproj : Projects childTd outFieldIds td) :
    Serves (projectIter child td outFieldIds) (ts.map (projected td outFieldIds)) plain :=
  Reads.ahead
    { At := fun c rest all => ∃ restc allc, S.At c none restc allc ∧
        rest = restc.map (projected td outFieldIds) ∧ all = allc.map (projected td outFieldIds)
      Closed := fun c all => ∃ allc, S.Closed c none allc ∧
        all = allc.map (projected td outFieldIds)
      left_ge := by
        rintro c rest all ⟨restc, allc, hat, rfl, rfl⟩
        rw [List.length_map]
        exact S.left_ge hat
      same := by
        rintro c rest all ⟨restc, allc, hat, rfl, rfl⟩ x
        simp only [List.mem_map, S.same hat]
      rest_mem := by
        rintro c rest all ⟨restc, allc, hat, rfl, rfl⟩ x hx
        obtain ⟨t, ht, rfl⟩ := List.mem_map.1 hx
        exact List.mem_map_of_mem (S.rest_mem hat t ht)
      readNext_ok := by
        rintro c rest all ⟨restc, allc, hat, rfl, rfl⟩
        obtain ⟨c₁, h₁, rest₁, hhas, hat₁, hpending⟩ := S.hasNext_ok hat
        cases restc with
        | nil =>
          obtain ⟨hnone, rfl⟩ := List.append_eq_nil_iff.1 hpending
          obtain rfl : h₁ = none := Option.toList_eq_nil_iff.1 hnone
          refine ⟨c₁, ?_, [], allc, hat₁, rfl, rfl⟩
          simp [projectReadNext, hhas, bind, Except.bind, pure, Except.pure]
        | cons t more =>
          obtain ⟨c₂, hnext, hat₂⟩ := S.next_some hat₁ hpending
          have ht : t ∈ ts := (S.same hat t).1 (S.rest_mem hat t (by simp))
          have hok := (projected_ok (hts t ht) hproj).1
          refine ⟨c₂, ?_, more, allc, hat₂, rfl, rfl⟩
          simp [projectReadNext, hhas, hnext, hok, bind, Except.bind, pure, Except.pure]
      rewind_ok := by
        rintro c rest all ⟨restc, allc, hat, rfl, rfl⟩
        obtain ⟨c', hrewind, hat'⟩ := S.rewind_ok hat
        exact ⟨c', hrewind, allc, allc, hat', rfl, rfl⟩
      start_ok := by
        obtain ⟨c', hopen, hat'⟩ := S.start_ok
        exact ⟨c', hopen, ts, ts, hat', rfl, rfl⟩
      close_ok := by
        rintro c rest all ⟨restc, allc, hat, rfl, rfl⟩
        exact ⟨allc, S.close_ok hat, rfl⟩
      reopen_ok := by
        rintro c rest all ⟨restc, allc, hat, rfl, rfl⟩
        obtain ⟨c', allc', hopen, hat', hgrown⟩ := S.reopen_ok hat
        exact ⟨c', _, hopen, ⟨allc', allc', hat', rfl, rfl⟩, regrown_map _ hgrown⟩
      reopen_closed := by
        rintro c all ⟨allc, hclosed, rfl⟩
        obtain ⟨c', allc', hopen, hat', hgrown⟩ := S.reopen_closed hclosed
        exact ⟨c', _, hopen, ⟨allc', allc', hat', rfl, rfl⟩, regrown_map _ hgrown⟩ }

end

/-! ## Whole trees -/

namespace Operator

/-- The tree keeps no list of its own: projections over a leaf. -/
def Plain : Operator → Prop
  | .tuples _ _ => True
  | .project _ _ child => child.Plain
  | .filter _ _ | .join _ _ _ | .orderBy _ _ _ => False

/-- Every tree serves what it means. -/
theorem serves (t : Operator) (h : t.WellTyped) :
    ∃ ts, t.Means ts ∧ (∀ x ∈ ts, x.Typed t.getTupleDesc) ∧
      Nonempty (Serves t.iterator ts t.Plain) := by
  induction t with
  | tuples td ts => exact ⟨ts, .tuples td ts, h, ⟨tupleIteratorServes ts⟩⟩
  | filter p child ih =>
    obtain ⟨hchild, hp⟩ := h
    obtain ⟨ts, hmeans, htyped, ⟨S⟩⟩ := ih hchild
    exact ⟨ts.filter p.holds, .filter p hmeans, fun x hx => htyped x (List.mem_of_mem_filter hx),
      ⟨filterServes S htyped hp⟩⟩
  | join p child1 child2 ih1 ih2 =>
    obtain ⟨hchild1, hchild2, hp⟩ := h
    obtain ⟨ts1, hmeans1, htyped1, ⟨S1⟩⟩ := ih1 hchild1
    obtain ⟨ts2, hmeans2, htyped2, ⟨S2⟩⟩ := ih2 hchild2
    refine ⟨nestedLoop p ts1 ts2, .join p hmeans1 hmeans2, fun x hx => ?_,
      ⟨joinServes S1 S2 htyped1 htyped2 hp⟩⟩
    obtain ⟨t1, ht1, t2, ht2, -, rfl⟩ := mem_nestedLoop.1 hx
    exact (htyped1 t1 ht1).concat (htyped2 t2 ht2)
  | orderBy field asc child ih =>
    obtain ⟨hchild, hty⟩ := h
    obtain ⟨ts, hmeans, htyped, ⟨S⟩⟩ := ih hchild
    exact ⟨_, .orderBy field asc hmeans (stableSort_mergeSort field asc ts),
      fun x hx => htyped x (List.mem_mergeSort.1 hx), ⟨orderByServes asc S htyped hty⟩⟩
  | project fieldList td child ih =>
    obtain ⟨hchild, hproj⟩ := h
    obtain ⟨ts, hmeans, htyped, ⟨S⟩⟩ := ih hchild
    refine ⟨ts.map (projected td fieldList), .project fieldList td hmeans ?_, fun x hx => ?_,
      ⟨projectServes S htyped hproj⟩⟩
    · rw [List.forall₂_map_right_iff]
      exact List.forall₂_same.2 fun t ht => (projected_ok (htyped t ht) hproj).2.1
    · obtain ⟨t, ht, rfl⟩ := List.mem_map.1 hx
      exact (projected_ok (htyped t ht) hproj).2.2

/-- Opening a tree once and draining it yields what the tree means, and so do any other calls: they
walk along that list. -/
theorem drain_means (t : Operator) (h : t.WellTyped) :
    ∃ out, t.Means out ∧
      (t.iterator.openIt t.iterator.start).bind t.iterator.drain = .ok out ∧
      ∀ cs, ∃ s, (t.iterator.openIt t.iterator.start).bind (t.iterator.calls · cs) =
        .ok (PullIter.answers out cs, s) := by
  obtain ⟨ts, hmeans, -, ⟨S⟩⟩ := t.serves h
  obtain ⟨s₀, hopen, hat₀⟩ := S.start_ok
  refine ⟨ts, hmeans, S.open_drain, fun cs => ?_⟩
  obtain ⟨s, held, rest, hcalls, -⟩ := S.calls_ok cs hat₀
  rw [hopen]
  exact ⟨s, hcalls⟩

theorem intTypes_ne_nil : [FieldType.intType] ≠ [] := List.cons_ne_nil _ _

/-- One column of integers. -/
def intColumn : TupleDesc := ⟨[.intType], intTypes_ne_nil⟩

/-- The tuples with the integer 0, of a leaf that has one. -/
def zeros : Operator := .filter ⟨0, .equals, .intField 0⟩ (.tuples intColumn [Tuple.new intColumn])

theorem zeros_wellTyped : zeros.WellTyped := by
  refine ⟨fun t ht => ?_, rfl⟩
  obtain rfl : t = Tuple.new intColumn := by simpa using ht
  exact ⟨rfl, .cons ⟨.intField 0, rfl, rfl⟩ .nil⟩

theorem drain_means_zeros :
    ∃ out, zeros.Means out ∧
      (zeros.iterator.openIt zeros.iterator.start).bind zeros.iterator.drain = .ok out := by
  obtain ⟨out, hmeans, hdrain, -⟩ := zeros.drain_means zeros_wellTyped
  exact ⟨out, hmeans, hdrain⟩

/-- Restarting a tree after it has been opened and any calls were made. Rewinding gives the tuples
of the first drain exactly when no looked-ahead tuple is pending; closing and opening again
does so exactly when moreover the tree keeps no list, or means no tuples. -/
theorem restart_iff (t : Operator) (h : t.WellTyped) (cs : List PullIter.Call) :
    ∃ out as s, (t.iterator.openIt t.iterator.start).bind t.iterator.drain = .ok out ∧
      (t.iterator.openIt t.iterator.start).bind (t.iterator.calls · cs) = .ok (as, s) ∧
      ((t.iterator.rewind s).bind t.iterator.drain = .ok out ↔ t.iterator.held s = none) ∧
      ((t.iterator.openIt (t.iterator.close s)).bind t.iterator.drain = .ok out ↔
        t.iterator.held s = none ∧ (t.Plain ∨ t.Means [])) := by
  obtain ⟨ts, hmeans, -, ⟨S⟩⟩ := t.serves h
  obtain ⟨s₀, hopen, hat₀⟩ := S.start_ok
  obtain ⟨s, held, rest, hcalls, hat⟩ := S.calls_ok cs hat₀
  have hempty : t.Means [] ↔ ts = [] :=
    ⟨fun hnil => (hmeans.perm hnil).eq_nil, fun hnil => hnil ▸ hmeans⟩
  refine ⟨ts, PullIter.answers ts cs, s, S.open_drain, ?_, S.rewind_drain_iff hat, ?_⟩
  · rw [hopen]
    exact hcalls
  · rw [hempty]
    exact S.reopen_drain_iff hat

theorem restart_iff_zeros :
    ∃ out as s, (zeros.iterator.openIt zeros.iterator.start).bind zeros.iterator.drain = .ok out ∧
      (zeros.iterator.openIt zeros.iterator.start).bind (zeros.iterator.calls · [.next]) =
        .ok (as, s) ∧
      ((zeros.iterator.rewind s).bind zeros.iterator.drain = .ok out ↔
        zeros.iterator.held s = none) := by
  obtain ⟨out, as, s, hdrain, hcalls, hrewind, -⟩ := zeros.restart_iff zeros_wellTyped [.next]
  exact ⟨out, as, s, hdrain, hcalls, hrewind⟩

/-- What a drain gives after the tree has been opened, the calls were made and it was restarted. -/
def drainAfter (t : Operator) (cs : List PullIter.Call)
    (restart : t.iterator.State → IterOutcome t.iterator.State) : IterOutcome (List Tuple) :=
  (t.iterator.openIt t.iterator.start).bind fun s =>
    (t.iterator.calls s cs).bind fun r => (restart r.2).bind t.iterator.drain

/-- After a `hasNext` a rewound tree gives its first tuple twice; a tree that is closed and opened
again gives all of them twice. -/
theorem restart_differs :
    (¬ ∀ (t : Operator) (cs : List PullIter.Call), t.WellTyped →
      t.drainAfter cs t.iterator.rewind =
        (t.iterator.openIt t.iterator.start).bind t.iterator.drain) ∧
    ¬ ∀ (t : Operator) (cs : List PullIter.Call), t.WellTyped →
      t.drainAfter cs (fun s => t.iterator.openIt (t.iterator.close s)) =
        (t.iterator.openIt t.iterator.start).bind t.iterator.drain := by
  have hfirst : ((zeros.iterator.openIt zeros.iterator.start).bind zeros.iterator.drain).toOption =
      some [Tuple.new intColumn] := by decide +kernel
  have hrewind : (zeros.drainAfter [.hasNext] zeros.iterator.rewind).toOption =
      some [Tuple.new intColumn, Tuple.new intColumn] := by decide +kernel
  have hreopen : (zeros.drainAfter []
      (fun s => zeros.iterator.openIt (zeros.iterator.close s))).toOption =
      some [Tuple.new intColumn, Tuple.new intColumn] := by decide +kernel
  constructor
  · intro hall
    have heq := congrArg Except.toOption (hall zeros [.hasNext] zeros_wellTyped)
    rw [hrewind, hfirst] at heq
    exact absurd heq (by decide +kernel)
  · intro hall
    have heq := congrArg Except.toOption (hall zeros [] zeros_wellTyped)
    rw [hreopen, hfirst] at heq
    exact absurd heq (by decide +kernel)

end Operator

end Courses.SimpleDb
