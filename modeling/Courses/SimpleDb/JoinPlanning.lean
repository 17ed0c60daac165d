import Courses.SimpleDb.JoinedRows

/-!
# The loop over the joins

While the joins connect tables of different sub-plans, the map has one sub-plan for each
component of the tables, under the name that the table of equivalent names gives to all of
them. A join of two tables of one sub-plan takes that sub-plan out of the map, and then no
plan comes out of the loop.
-/
namespace Courses.SimpleDb

open Courses.Lib

namespace LogicalPlan

variable {db : Catalog} {lp : LogicalPlan}

/-! ## Names that stand for each other -/

open JoinState in
theorem equivName_merge {s : JoinState} {m : SubplanMap} {t1name t2name : Name}
    (h : s.equivName t2name = t2name) (a : Name) :
    (⟨m, JoinState.merge s.equivMap t1name t2name⟩ : JoinState).equivName a =
      if s.equivName a = t2name then t1name else s.equivName a := by
  by_cases ha : a = t2name
  · subst ha
    have hmerge : merge s.equivMap t1name a a = some t1name := by
      simp [merge]
    rw [if_pos h]
    exact congrArg (fun val => Option.getD val a) hmerge
  · have hmerge : merge s.equivMap t1name t2name a =
        (s.equivMap a).map fun val => if val = t2name then t1name else val := by
      rw [merge, Function.update_of_ne ha]
    have hleft : (⟨m, merge s.equivMap t1name t2name⟩ : JoinState).equivName a =
        ((s.equivMap a).map fun val => if val = t2name then t1name else val).getD a :=
      congrArg (fun val => Option.getD val a) hmerge
    rw [hleft]
    cases hval : s.equivMap a with
    | none =>
      have hname : s.equivName a = a := by simp [equivName, hval]
      rw [hname, if_neg ha]
      rfl
    | some val =>
      have hname : s.equivName a = val := by simp [equivName, hval]
      rw [hname]
      rfl

/-- The sources whose sub-plan is found under the name. -/
def Part (lp : LogicalPlan) (done : List (JoinNode × ℕ)) (s : JoinState) (r : Name) :
    Source → Prop
  | .inl a => a ∈ lp.aliases ∧ s.equivName a = r
  | .inr k => ∃ lj, (lj, k) ∈ done ∧ lj.subPlan?.isSome = true ∧ s.equivName lj.t1 = r

/-- The row satisfies the joins that went into the sub-plan under the name. -/
def partHolds (db : Catalog) (lp : LogicalPlan) (done : List (JoinNode × ℕ)) (s : JoinState)
    (r : Name) (row : Source → Tuple) : Bool :=
  done.all fun j => decide (s.equivName j.1.t1 ≠ r) || lp.joinHolds db row j

/-- After some joins there is one sub-plan for each component, which covers its sources. -/
structure Joined (db : Catalog) (lp : LogicalPlan) (done : List (JoinNode × ℕ)) (s : JoinState) :
    Prop where
  positions : ∀ j ∈ done, lp.joins[j.2]? = some j.1
  labels : Labels (JoinNode.edges (done.map Prod.fst)) s.equivName
  aliases : ∀ a ∈ lp.aliases, s.equivName a ∈ lp.aliases
  idem : ∀ a, s.equivName (s.equivName a) = s.equivName a
  keys : ∀ r, r ∈ s.subplanMap ↔ r ∈ lp.aliases ∧ s.equivName r = r
  covers : ∀ r plan, s.subplanMap.lookup r = some plan → ∃ order : List Source, order.Nodup ∧
    (∀ src, src ∈ order ↔ Part lp done s r src) ∧
      Covers db lp plan order (partHolds db lp done s r)

variable {done : List (JoinNode × ℕ)} {s : JoinState}

theorem edges_append (joins : List JoinNode) (lj : JoinNode) :
    JoinNode.edges (joins ++ [lj]) = JoinNode.edges joins ++ JoinNode.edges [lj] :=
  List.filterMap_append

/-- The sub-plan that an alias belongs to. -/
theorem Joined.subplan (h : Joined db lp done s) {a : Name} (ha : a ∈ lp.aliases) :
    ∃ plan order, s.subplanMap.lookup (s.equivName a) = some plan ∧ order.Nodup ∧
      Sum.inl a ∈ order ∧ (∀ src, src ∈ order ↔ Part lp done s (s.equivName a) src) ∧
      Covers db lp plan order (partHolds db lp done s (s.equivName a)) := by
  have hmem : s.equivName a ∈ s.subplanMap := (h.keys _).2 ⟨h.aliases a ha, h.idem a⟩
  obtain ⟨plan, hplan⟩ := Option.isSome_iff_exists.1 (AList.lookup_isSome.2 hmem)
  obtain ⟨order, hnodup, horder, hcovers⟩ := h.covers _ plan hplan
  exact ⟨plan, order, hplan, hnodup, (horder _).2 ⟨ha, rfl⟩, horder, hcovers⟩

/-- A name that a join compares is the name of no column of another source. -/
theorem Valid.notMem_sourceNames (h : lp.Valid db) (hcapture : lp.NoCapture db) {lj : JoinNode}
    (hlj : lj ∈ lp.joins) {a f name : Name} (hf : f ∈ lj.fields) {file : Table} {i : ℕ}
    (hfile : lp.table db a = some file) (hname : lp.disambiguateName db f = .ok name)
    (hi : nameToId (seqScan file a).names name = some i) {src : Source} (hsrc : src ≠ .inl a) :
    some name ∉ lp.sourceNames db src := by
  cases src with
  | inl b =>
    have hne : a ≠ b := fun heq => hsrc (by rw [heq])
    simp only [sourceNames]
    cases hfile' : lp.table db b with
    | none => simp
    | some file' =>
      exact h.name_notMem (mem_aliases_of_table hfile) (mem_aliases_of_table hfile') hne hi
  | inr k =>
    simp only [sourceNames]
    cases hplan : lp.subplan k with
    | none => simp
    | some plan => exact hcapture k plan hplan lj hlj f hf name hname

/-- A join field is found in the sub-plan of its table, at the place of the table's column. -/
theorem Valid.joinColumn (h : lp.Valid db) (hcapture : lp.NoCapture db) {lj : JoinNode}
    (hlj : lj ∈ lp.joins) {a f : Name} (hf : f ∈ lj.fields) {i : ℕ} {ty : FieldType}
    (hcolumn : lp.column db a f = some (i, ty)) {plan : DbIterator} {order : List Source}
    {holds : (Source → Tuple) → Bool} (hcovers : Covers db lp plan order holds)
    (hnodup : order.Nodup) (ha : .inl a ∈ order) :
    ∃ name before after, lp.disambiguateName db f = .ok name ∧
      order = before ++ .inl a :: after ∧
      nameToId plan.names name = some ((before.flatMap (lp.sourceNames db)).length + i) ∧
      (lp.sourceTypes db (.inl a))[i]? = some ty := by
  obtain ⟨file, name, hfile, hname, hi, hty⟩ := column_eq_some hcolumn
  have hnames : lp.sourceNames db (.inl a) = (seqScan file a).names := by
    simp [sourceNames, hfile]
  obtain ⟨before, after, horder, hid⟩ := hcovers.nameToId hnodup ha (hnames ▸ hi)
    fun src _ hne => h.notMem_sourceNames hcapture hlj hf hfile hname hi hne
  exact ⟨name, before, after, hname, horder, hid, by simpa [sourceTypes, hfile] using hty⟩

/-! ## A join of two sub-plans -/

section

variable {t1 t2 f1 f2 : Name} {op : Op} {k : ℕ} {j : DbIterator}

/-- The state after a join of two tables. -/
def mergedState (s : JoinState) (t1 t2 : Name) (j : DbIterator) : JoinState :=
  ⟨(s.subplanMap.insert (s.equivName t1) j).erase (s.equivName t2),
    JoinState.merge s.equivMap (s.equivName t1) (s.equivName t2)⟩

theorem Joined.equivName_mergedState (h : Joined db lp done s) (a : Name) :
    (mergedState s t1 t2 j).equivName a =
      if s.equivName a = s.equivName t2 then s.equivName t1 else s.equivName a :=
  equivName_merge (h.idem t2) a

theorem Joined.equivName_eq_iff (h : Joined db lp done s) {a r : Name} (hr : r ≠ s.equivName t2) :
    (mergedState s t1 t2 j).equivName a = r ↔
      s.equivName a = r ∨ (r = s.equivName t1 ∧ s.equivName a = s.equivName t2) := by
  rw [h.equivName_mergedState]
  split_ifs with ha
  · rw [ha]
    exact ⟨fun heq => Or.inr ⟨heq.symm, rfl⟩,
      fun hor => hor.elim (fun heq => absurd heq.symm hr) fun hand => hand.1.symm⟩
  · simp [ha]

theorem Joined.part_mergedState (h : Joined db lp done s) {r : Name} (hr : r ≠ s.equivName t2)
    (src : Source) :
    Part lp (done ++ [(.join t1 t2 f1 f2 op, k)]) (mergedState s t1 t2 j) r src ↔
      Part lp done s r src ∨ (r = s.equivName t1 ∧ Part lp done s (s.equivName t2) src) := by
  cases src with
  | inl a =>
    simp only [Part, h.equivName_eq_iff hr]
    tauto
  | inr n =>
    have hmem : ∀ lj : JoinNode, (lj, n) ∈ done ++ [(.join t1 t2 f1 f2 op, k)] ∧
        lj.subPlan?.isSome = true ↔ (lj, n) ∈ done ∧ lj.subPlan?.isSome = true := by
      intro lj
      constructor
      · rintro ⟨hlj, hsome⟩
        rcases List.mem_append.1 hlj with hlj | hlj
        · exact ⟨hlj, hsome⟩
        · obtain ⟨rfl, -⟩ := Prod.mk.inj (List.mem_singleton.1 hlj)
          cases hsome
      · rintro ⟨hlj, hsome⟩
        exact ⟨List.mem_append_left _ hlj, hsome⟩
    simp only [Part, ← and_assoc, hmem, h.equivName_eq_iff hr]
    constructor
    · rintro ⟨lj, hlj, heq | ⟨hr1, heq⟩⟩
      · exact Or.inl ⟨lj, hlj, heq⟩
      · exact Or.inr ⟨hr1, lj, hlj, heq⟩
    · rintro (⟨lj, hlj, heq⟩ | ⟨hr1, lj, hlj, heq⟩)
      · exact ⟨lj, hlj, Or.inl heq⟩
      · exact ⟨lj, hlj, Or.inr ⟨hr1, heq⟩⟩

theorem partHolds_iff {r : Name} {row : Source → Tuple} :
    partHolds db lp done s r row = true ↔
      ∀ j ∈ done, s.equivName j.1.t1 = r → lp.joinHolds db row j = true := by
  rw [partHolds, List.all_eq_true]
  refine forall₂_congr fun j _ => ?_
  by_cases hj : s.equivName j.1.t1 = r <;> simp [hj]

theorem Joined.partHolds_mergedState (h : Joined db lp done s) {r : Name} (hr : r ≠ s.equivName t2)
    (row : Source → Tuple) :
    partHolds db lp (done ++ [(.join t1 t2 f1 f2 op, k)]) (mergedState s t1 t2 j) r row = true ↔
      partHolds db lp done s r row = true ∧ (r = s.equivName t1 →
        partHolds db lp done s (s.equivName t2) row = true ∧
          lp.joinHolds db row (.join t1 t2 f1 f2 op, k) = true) := by
  have hself : s.equivName t1 = r ∨ (r = s.equivName t1 ∧ s.equivName t1 = s.equivName t2) ↔
      r = s.equivName t1 := by
    constructor
    · rintro (heq | ⟨heq, -⟩)
      · exact heq.symm
      · exact heq
    · exact fun heq => Or.inl heq.symm
  simp only [partHolds_iff, List.forall_mem_append, List.forall_mem_singleton,
    h.equivName_eq_iff hr, JoinNode.t1, hself]
  constructor
  · rintro ⟨hall, hlast⟩
    exact ⟨fun x hx heq => hall x hx (Or.inl heq),
      fun hr1 => ⟨fun x hx heq => hall x hx (Or.inr ⟨hr1, heq⟩), hlast hr1⟩⟩
  · rintro ⟨hall, hmerged⟩
    refine ⟨fun x hx hor => ?_, fun hr1 => (hmerged hr1).2⟩
    rcases hor with heq | ⟨hr1, heq⟩
    · exact hall x hx heq
    · exact (hmerged hr1).1 x hx heq

/-- The invariant after a join of different sub-plans. -/
theorem Joined.merged (h : Joined db lp done s) (ht1 : t1 ∈ lp.aliases)
    (hne : s.equivName t1 ≠ s.equivName t2)
    (hk : lp.joins[k]? = some (.join t1 t2 f1 f2 op)) {order1 order2 : List Source}
    (hnodup : (order1 ++ order2).Nodup)
    (horder1 : ∀ src, src ∈ order1 ↔ Part lp done s (s.equivName t1) src)
    (horder2 : ∀ src, src ∈ order2 ↔ Part lp done s (s.equivName t2) src)
    (hcovers : Covers db lp j (order1 ++ order2) fun row =>
      partHolds db lp done s (s.equivName t1) row && (partHolds db lp done s (s.equivName t2) row &&
        lp.joinHolds db row (.join t1 t2 f1 f2 op, k))) :
    Joined db lp (done ++ [(.join t1 t2 f1 f2 op, k)]) (mergedState s t1 t2 j) := by
  have hname : ∀ a, (mergedState s t1 t2 j).equivName a =
      if s.equivName a = s.equivName t2 then s.equivName t1 else s.equivName a :=
    h.equivName_mergedState
  refine
    { positions := List.forall_mem_append.2 ⟨h.positions, by simpa using hk⟩
      labels := ?_
      aliases := fun a ha => ?_
      idem := fun a => ?_
      keys := fun r => ?_
      covers := fun r plan hplan => ?_ }
  · have hlabels := h.labels.append t1 t2
    have hedges : JoinNode.edges [.join t1 t2 f1 f2 op] = [(t1, t2)] := rfl
    rw [List.map_append, List.map_singleton, edges_append, hedges]
    exact funext hname ▸ hlabels
  · rw [hname]
    split_ifs
    · exact h.aliases t1 ht1
    · exact h.aliases a ha
  · simp only [hname]
    by_cases ha : s.equivName a = s.equivName t2
    · simp [ha, h.idem t1]
    · simp [ha, h.idem a]
  · rw [mergedState, AList.mem_erase, AList.mem_insert, h.keys]
    change _ ↔ r ∈ lp.aliases ∧ (mergedState s t1 t2 j).equivName r = r
    by_cases hr : r = s.equivName t2
    · -- The name of the second sub-plan is no longer used.
      subst hr
      simp [hname, h.idem t2, hne]
    · rw [h.equivName_eq_iff hr]
      constructor
      · rintro ⟨-, rfl | ⟨ha, heq⟩⟩
        · exact ⟨h.aliases t1 ht1, Or.inl (h.idem t1)⟩
        · exact ⟨ha, Or.inl heq⟩
      · rintro ⟨ha, heq | ⟨heq, -⟩⟩
        · exact ⟨hr, Or.inr ⟨ha, heq⟩⟩
        · exact ⟨hr, Or.inl heq⟩
  · have hr : r ≠ s.equivName t2 := by
      rintro rfl
      rw [mergedState, AList.lookup_erase] at hplan
      cases hplan
    rw [mergedState, AList.lookup_erase_ne hr] at hplan
    by_cases hr1 : r = s.equivName t1
    · subst hr1
      rw [AList.lookup_insert] at hplan
      cases hplan
      refine ⟨order1 ++ order2, hnodup, fun src => ?_, hcovers.congr fun row => ?_⟩
      · rw [h.part_mergedState hr, List.mem_append, horder1, horder2]
        simp
      · rw [Bool.eq_iff_iff, h.partHolds_mergedState hr]
        simp
    · rw [AList.lookup_insert_ne hr1] at hplan
      obtain ⟨order, hnodup', horder, hcovers'⟩ := h.covers r plan hplan
      refine ⟨order, hnodup', fun src => ?_, hcovers'.congr fun row => ?_⟩
      · rw [h.part_mergedState hr, horder]
        simp [hr1]
      · rw [Bool.eq_iff_iff, h.partHolds_mergedState hr]
        simp [hr1]

/-- A join of tables of different sub-plans makes one sub-plan of the two. -/
theorem Joined.join (h : Joined db lp done s) (hvalid : lp.Valid db) (hcapture : lp.NoCapture db)
    (hk : lp.joins[k]? = some (.join t1 t2 f1 f2 op))
    (hconnected : ¬Connected (JoinNode.edges (done.map Prod.fst)) t1 t2) :
    ∃ s', joinStep db lp s (.join t1 t2 f1 f2 op) = .ok s' ∧
      Joined db lp (done ++ [(.join t1 t2 f1 f2 op, k)]) s' := by
  have hlj := List.mem_of_getElem? hk
  obtain ⟨i1, i2, ty, hcolumn1, hcolumn2⟩ := hvalid.joins _ hlj
  have ht1 := column_mem_aliases hcolumn1
  have ht2 := column_mem_aliases hcolumn2
  have hne : s.equivName t1 ≠ s.equivName t2 := fun heq => hconnected ((h.labels _ _).1 heq)
  obtain ⟨plan1, order1, hlookup1, hnodup1, hin1, horder1, hcovers1⟩ := h.subplan ht1
  obtain ⟨plan2, order2, hlookup2, hnodup2, hin2, horder2, hcovers2⟩ := h.subplan ht2
  obtain ⟨name1, before1, after1, hname1, hsplit1, hid1, hty1⟩ :=
    hvalid.joinColumn hcapture hlj (by simp [JoinNode.fields]) hcolumn1 hcovers1 hnodup1 hin1
  obtain ⟨name2, before2, after2, hname2, hsplit2, hid2, hty2⟩ :=
    hvalid.joinColumn hcapture hlj (by simp [JoinNode.fields]) hcolumn2 hcovers2 hnodup2 hin2
  -- No source is in both sub-plans.
  have hdisjoint : order1.Disjoint order2 := by
    intro src hsrc1 hsrc2
    rw [horder1] at hsrc1
    rw [horder2] at hsrc2
    cases src with
    | inl a => exact hne (hsrc1.2.symm.trans hsrc2.2)
    | inr n =>
      obtain ⟨lj, hlj, -, heq⟩ := hsrc1
      obtain ⟨lj', hlj', -, heq'⟩ := hsrc2
      have hsame : lj = lj' :=
        Option.some.inj ((h.positions _ hlj).symm.trans (h.positions _ hlj'))
      exact hne (heq.symm.trans (hsame ▸ heq'))
  have hcovers := Covers.join hvalid.widths hcovers1 hcovers2 hsplit1 hsplit2 hdisjoint op hty1 hty2
  have hholds : ∀ row, lp.joinHolds db row (.join t1 t2 f1 f2 op, k) =
      JoinPredicate.holds ⟨i1, op, i2⟩ (row (.inl t1)) (row (.inl t2)) := fun row => by
    simp only [joinHolds, hcolumn1, hcolumn2]
  refine ⟨mergedState s t1 t2 _, ?_, h.merged ht1 hne hk
    (hnodup1.append hnodup2 hdisjoint) horder1 horder2 (hcovers.congr fun row => by rw [hholds])⟩
  simp only [joinStep, hlookup1, hlookup2, instantiateJoin, hname1, hname2, hid1, hid2, bind,
    Except.bind]
  rfl

/-- The state after a join with a subplan. -/
def extendedState (s : JoinState) (t1 : Name) (j : DbIterator) : JoinState :=
  { s with subplanMap := s.subplanMap.insert (s.equivName t1) j }

/-- The invariant after a join with a subplan. -/
theorem Joined.extended {subPlan : Option DbIterator} (h : Joined db lp done s)
    (ht1 : t1 ∈ lp.aliases) (hsome : subPlan.isSome = true)
    (hk : lp.joins[k]? = some (.subplanJoin t1 f1 subPlan op)) {order : List Source}
    (hnodup : (order ++ [Sum.inr k]).Nodup)
    (horder : ∀ src, src ∈ order ↔ Part lp done s (s.equivName t1) src)
    (hcovers : Covers db lp j (order ++ [Sum.inr k]) fun row =>
      partHolds db lp done s (s.equivName t1) row &&
        lp.joinHolds db row (.subplanJoin t1 f1 subPlan op, k)) :
    Joined db lp (done ++ [(.subplanJoin t1 f1 subPlan op, k)]) (extendedState s t1 j) := by
  have hpart : ∀ r src, Part lp (done ++ [(.subplanJoin t1 f1 subPlan op, k)])
      (extendedState s t1 j) r src ↔
        Part lp done s r src ∨ (r = s.equivName t1 ∧ src = .inr k) := by
    intro r src
    cases src with
    | inl a =>
      change a ∈ lp.aliases ∧ s.equivName a = r ↔ _
      simp [Part]
    | inr n =>
      change (∃ lj, (lj, n) ∈ done ++ [(.subplanJoin t1 f1 subPlan op, k)] ∧
        lj.subPlan?.isSome = true ∧ s.equivName lj.t1 = r) ↔ _
      constructor
      · rintro ⟨lj, hlj, hsome', heq⟩
        rcases List.mem_append.1 hlj with hlj | hlj
        · exact Or.inl ⟨lj, hlj, hsome', heq⟩
        · obtain ⟨rfl, rfl⟩ := Prod.mk.inj (List.mem_singleton.1 hlj)
          exact Or.inr ⟨heq.symm, rfl⟩
      · rintro (⟨lj, hlj, hsome', heq⟩ | ⟨rfl, heq⟩)
        · exact ⟨lj, List.mem_append_left _ hlj, hsome', heq⟩
        · obtain rfl := Sum.inr.inj heq
          exact ⟨_, List.mem_append_right _ (List.mem_singleton.2 rfl), hsome, rfl⟩
  have hholds : ∀ r row, partHolds db lp (done ++ [(.subplanJoin t1 f1 subPlan op, k)])
      (extendedState s t1 j) r row = true ↔ partHolds db lp done s r row = true ∧
        (r = s.equivName t1 → lp.joinHolds db row (.subplanJoin t1 f1 subPlan op, k) = true) := by
    intro r row
    simp only [partHolds_iff, List.forall_mem_append, List.forall_mem_singleton, JoinNode.t1]
    exact and_congr Iff.rfl ⟨fun hlast heq => hlast heq.symm, fun hlast heq => hlast heq.symm⟩
  refine
    { positions := List.forall_mem_append.2 ⟨h.positions, by simpa using hk⟩
      labels := ?_
      aliases := h.aliases
      idem := h.idem
      keys := fun r => ?_
      covers := fun r plan hplan => ?_ }
  · have hedges : JoinNode.edges [.subplanJoin t1 f1 subPlan op] = [] := rfl
    rw [List.map_append, List.map_singleton, edges_append, hedges, List.append_nil]
    exact h.labels
  · change r ∈ s.subplanMap.insert _ _ ↔ r ∈ lp.aliases ∧ s.equivName r = r
    rw [AList.mem_insert, h.keys, or_iff_right_of_imp]
    rintro rfl
    exact ⟨h.aliases t1 ht1, h.idem t1⟩
  · rw [extendedState] at hplan
    by_cases hr : r = s.equivName t1
    · subst hr
      rw [AList.lookup_insert] at hplan
      cases hplan
      refine ⟨order ++ [.inr k], hnodup, fun src => ?_, hcovers.congr fun row => ?_⟩
      · rw [hpart, List.mem_append, horder, List.mem_singleton]
        simp
      · rw [Bool.eq_iff_iff, hholds]
        simp
    · rw [AList.lookup_insert_ne hr] at hplan
      obtain ⟨order', hnodup', horder', hcovers'⟩ := h.covers r plan hplan
      refine ⟨order', hnodup', fun src => ?_, hcovers'.congr fun row => ?_⟩
      · rw [hpart, horder']
        simp [hr]
      · rw [Bool.eq_iff_iff, hholds]
        simp [hr]

/-- A join with a subplan extends the sub-plan of its table. -/
theorem Joined.subplanJoin {subPlan : Option DbIterator} (h : Joined db lp done s)
    (hvalid : lp.Valid db) (hcapture : lp.NoCapture db)
    (hk : lp.joins[k]? = some (.subplanJoin t1 f1 subPlan op)) (hfresh : ∀ x ∈ done, x.2 ≠ k) :
    ∃ s', joinStep db lp s (.subplanJoin t1 f1 subPlan op) = .ok s' ∧
      Joined db lp (done ++ [(.subplanJoin t1 f1 subPlan op, k)]) s' := by
  have hlj := List.mem_of_getElem? hk
  obtain ⟨plan2, i1, ty, rfl, hcolumn1, -, hhead, -⟩ := hvalid.joins _ hlj
  have ht1 := column_mem_aliases hcolumn1
  have hplan2 : lp.subplan k = some plan2 := by simp [LogicalPlan.subplan, hk, JoinNode.subPlan?]
  obtain ⟨plan1, order1, hlookup1, hnodup1, hin1, horder1, hcovers1⟩ := h.subplan ht1
  obtain ⟨name1, before1, after1, hname1, hsplit1, hid1, hty1⟩ :=
    hvalid.joinColumn hcapture hlj (by simp [JoinNode.fields]) hcolumn1 hcovers1 hnodup1 hin1
  have hnotin : Sum.inr k ∉ order1 := by
    rw [horder1]
    rintro ⟨lj, hmem, -⟩
    exact hfresh _ hmem rfl
  have hty2 : (lp.sourceTypes db (.inr k))[0]? = some ty := by
    rw [← List.head?_eq_getElem?]
    simpa [sourceTypes, hplan2] using hhead
  have hdisjoint : order1.Disjoint [.inr k] := by simpa using hnotin
  have hsplit2 : [Sum.inr k] = ([] : List Source) ++ Sum.inr k :: [] := rfl
  have hcovers := Covers.join hvalid.widths hcovers1 (hvalid.covers_subplan hplan2) hsplit1 hsplit2
    hdisjoint op hty1 hty2
  have hholds : ∀ row, lp.joinHolds db row (.subplanJoin t1 f1 (some plan2) op, k) =
      JoinPredicate.holds ⟨i1, op, 0⟩ (row (.inl t1)) (row (.inr k)) := fun row => by
    simp only [joinHolds, hcolumn1]
  refine ⟨extendedState s t1 _, ?_, h.extended ht1 rfl hk
    (hnodup1.append (List.nodup_singleton _) hdisjoint) horder1
    (hcovers.congr fun row => by rw [hholds, Bool.true_and])⟩
  simp only [joinStep, hlookup1, instantiateJoin, hname1, hid1, bind, Except.bind]
  rfl

end

end LogicalPlan

end Courses.SimpleDb
