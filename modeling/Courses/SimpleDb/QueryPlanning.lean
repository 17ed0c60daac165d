import Courses.SimpleDb.JoinPlanning

/-!
# Join planning and the query

A run over all joins ends with the one sub-plan that answers the query if and only if the
joins are a forest. The first join that closes a cycle makes some tables' sub-plan
disappear: every later join with one of them fails, and without such a join nothing is left
at the end.
-/
namespace Courses.SimpleDb

open Courses.Lib

namespace LogicalPlan

variable {db : Catalog} {lp : LogicalPlan} {done : List (JoinNode × ℕ)} {s s' : JoinState}

/-! ## Lost tables -/

/-- The tables of some components have no sub-plan any more. -/
structure Lost (lp : LogicalPlan) (done : List (JoinNode × ℕ)) (s : JoinState) (K : Set Name) :
    Prop where
  nonempty : K.Nonempty
  subset : ∀ a ∈ K, a ∈ lp.aliases
  closed : ∀ a b, (a, b) ∈ JoinNode.edges (done.map Prod.fst) → (a ∈ K ↔ b ∈ K)
  lookup : ∀ a ∈ K, s.equivName a ∉ s.subplanMap
  keys : ∀ r ∈ s.subplanMap, r ∈ lp.aliases ∧ r ∉ K

/-- What the loop does with a join of two tables, if it does not fail. -/
theorem joinStep_join {t1 t2 f1 f2 : Name} {op : Op}
    (h : joinStep db lp s (.join t1 t2 f1 f2 op) = .ok s') :
    s.equivName t1 ∈ s.subplanMap ∧ s.equivName t2 ∈ s.subplanMap ∧
      ∃ j, s' = mergedState s t1 t2 j := by
  simp only [joinStep] at h
  cases hlookup1 : s.subplanMap.lookup (s.equivName t1) with
  | none => simp [hlookup1] at h
  | some plan1 =>
    cases hlookup2 : s.subplanMap.lookup (s.equivName t2) with
    | none => simp [hlookup1, hlookup2] at h
    | some plan2 =>
      rw [hlookup1, hlookup2] at h
      cases hj : lp.instantiateJoin db (.join t1 t2 f1 f2 op) plan1 plan2 with
      | error e => simp [hj, bind, Except.bind] at h
      | ok j =>
        simp only [hj, bind, Except.bind] at h
        cases h
        refine ⟨AList.lookup_isSome.1 ?_, AList.lookup_isSome.1 ?_, j, rfl⟩
        · rw [hlookup1]
          rfl
        · rw [hlookup2]
          rfl

theorem joinStep_subplanJoin {t1 f1 : Name} {subPlan : Option DbIterator} {op : Op}
    (h : joinStep db lp s (.subplanJoin t1 f1 subPlan op) = .ok s') :
    s.equivName t1 ∈ s.subplanMap ∧ ∃ j, s' = extendedState s t1 j := by
  simp only [joinStep] at h
  cases subPlan with
  | none => simp at h
  | some plan2 =>
    cases hlookup1 : s.subplanMap.lookup (s.equivName t1) with
    | none => simp [hlookup1] at h
    | some plan1 =>
      rw [hlookup1] at h
      cases hj : lp.instantiateJoin db (.subplanJoin t1 f1 (some plan2) op) plan1 plan2 with
      | error e => simp [hj, bind, Except.bind] at h
      | ok j =>
        simp only [hj, bind, Except.bind] at h
        cases h
        refine ⟨AList.lookup_isSome.1 ?_, j, rfl⟩
        rw [hlookup1]
        rfl

/-- A join of two tables that are joined already loses them. -/
theorem Joined.lost (h : Joined db lp done s) (hvalid : lp.Valid db)
    {t1 t2 f1 f2 : Name} {op : Op} {k : ℕ} (hk : lp.joins[k]? = some (.join t1 t2 f1 f2 op))
    (hconnected : Connected (JoinNode.edges (done.map Prod.fst)) t1 t2)
    (hstep : joinStep db lp s (.join t1 t2 f1 f2 op) = .ok s') :
    Lost lp (done ++ [(.join t1 t2 f1 f2 op, k)]) s' {a | a ∈ lp.aliases ∧
      s.equivName a = s.equivName t1} := by
  obtain ⟨-, -, j, rfl⟩ := joinStep_join hstep
  have heq : s.equivName t1 = s.equivName t2 := (h.labels _ _).2 hconnected
  have hends : ∀ {t1 t2 f1 f2 : Name} {op : Op}, .join t1 t2 f1 f2 op ∈ lp.joins →
      t1 ∈ lp.aliases ∧ t2 ∈ lp.aliases := by
    intro t1 t2 f1 f2 op hlj
    obtain ⟨i1, i2, ty, hcolumn1, hcolumn2⟩ := hvalid.joins _ hlj
    exact ⟨column_mem_aliases hcolumn1, column_mem_aliases hcolumn2⟩
  obtain ⟨ht1, ht2⟩ := hends (List.mem_of_getElem? hk)
  refine
    { nonempty := ⟨t1, ht1, rfl⟩
      subset := fun a ha => ha.1
      closed := fun a b hab => ?_
      lookup := fun a ha => ?_
      keys := fun r hr => ?_ }
  · rw [List.map_append, List.map_singleton, edges_append, List.mem_append] at hab
    rcases hab with hab | hab
    · obtain ⟨f1, f2, p, hlj⟩ := mem_edges.1 hab
      obtain ⟨x, hx, hxlj⟩ := List.mem_map.1 hlj
      have hpos := h.positions x hx
      rw [hxlj] at hpos
      obtain ⟨ha, hb⟩ := hends (List.mem_of_getElem? hpos)
      have hsame : s.equivName a = s.equivName b := (h.labels _ _).2 (Connected.of_mem hab)
      simp [ha, hb, hsame]
    · obtain ⟨rfl, rfl⟩ : a = t1 ∧ b = t2 := by simpa [JoinNode.edges] using hab
      simp [ht1, ht2, heq]
  · rw [h.equivName_mergedState, ha.2, if_pos heq, mergedState, AList.mem_erase, heq]
    exact fun hmem => hmem.1 rfl
  · rw [mergedState, AList.mem_erase, AList.mem_insert, heq] at hr
    obtain ⟨ha, hname⟩ := (h.keys r).1 (hr.2.resolve_left hr.1)
    refine ⟨ha, fun hmem => hr.1 ?_⟩
    rw [← hname, hmem.2, heq]

/-- What is lost stays lost. -/
theorem Lost.step {K : Set Name} (h : Lost lp done s K) {lj : JoinNode} {k : ℕ}
    (hstep : joinStep db lp s lj = .ok s') : Lost lp (done ++ [(lj, k)]) s' K := by
  have hnotin : ∀ {t : Name}, s.equivName t ∈ s.subplanMap → t ∉ K :=
    fun hmem ht => h.lookup _ ht hmem
  have hne : ∀ {t a : Name}, s.equivName t ∈ s.subplanMap → a ∈ K → s.equivName a ≠ s.equivName t :=
    fun hmem ha heq => h.lookup _ ha (heq ▸ hmem)
  cases lj with
  | join t1 t2 f1 f2 op =>
    obtain ⟨h1, h2, j, rfl⟩ := joinStep_join hstep
    -- The names of the lost tables are not those that the step changes.
    have hname : ∀ a ∈ K, (mergedState s t1 t2 j).equivName a = s.equivName a := by
      intro a ha
      have hat2 : a ≠ s.equivName t2 := fun heq => (h.keys _ h2).2 (heq ▸ ha)
      have hmerge : JoinState.merge s.equivMap (s.equivName t1) (s.equivName t2) a =
          s.equivMap a := by
        rw [JoinState.merge, Function.update_of_ne hat2]
        cases hval : s.equivMap a with
        | none => rfl
        | some val =>
          have hval' : s.equivName a = val := by simp [JoinState.equivName, hval]
          have hne' : val ≠ s.equivName t2 := hval' ▸ hne h2 ha
          simp [hne']
      exact congrArg (fun val => Option.getD val a) hmerge
    refine
      { nonempty := h.nonempty
        subset := h.subset
        closed := fun a b hab => ?_
        lookup := fun a ha => ?_
        keys := fun r hr => ?_ }
    · rw [List.map_append, List.map_singleton, edges_append, List.mem_append] at hab
      rcases hab with hab | hab
      · exact h.closed a b hab
      · obtain ⟨rfl, rfl⟩ : a = t1 ∧ b = t2 := by simpa [JoinNode.edges] using hab
        simp [hnotin h1, hnotin h2]
    · rw [hname a ha, mergedState, AList.mem_erase, AList.mem_insert]
      rintro ⟨-, heq | hmem⟩
      · exact hne h1 ha heq
      · exact h.lookup a ha hmem
    · rw [mergedState, AList.mem_erase, AList.mem_insert] at hr
      rcases hr.2 with rfl | hmem
      · exact h.keys _ h1
      · exact h.keys r hmem
  | subplanJoin t1 f1 subPlan op =>
    obtain ⟨h1, j, rfl⟩ := joinStep_subplanJoin hstep
    refine
      { nonempty := h.nonempty
        subset := h.subset
        closed := fun a b hab => ?_
        lookup := fun a ha => ?_
        keys := fun r hr => ?_ }
    · rw [List.map_append, List.map_singleton, edges_append, List.mem_append] at hab
      rcases hab with hab | hab
      · exact h.closed a b hab
      · simp [JoinNode.edges] at hab
    · change s.equivName a ∉ s.subplanMap.insert _ _
      rw [AList.mem_insert]
      rintro (heq | hmem)
      · exact hne h1 ha heq
      · exact h.lookup a ha hmem
    · rw [extendedState, AList.mem_insert] at hr
      rcases hr with rfl | hmem
      · exact h.keys _ h1
      · exact h.keys r hmem

theorem Lost.run {K : Set Name} : ∀ {todo done : List (JoinNode × ℕ)} {s : JoinState},
    Lost lp done s K → (todo.map Prod.fst).foldlM (joinStep db lp) s = .ok s' →
      Lost lp (done ++ todo) s' K
  | [], done, s, h, hrun => by
    cases hrun
    rwa [List.append_nil]
  | x :: todo, done, s, h, hrun => by
    rw [List.map_cons, List.foldlM_cons] at hrun
    cases hstep : joinStep db lp s x.1 with
    | error e =>
      rw [hstep] at hrun
      cases hrun
    | ok s₁ =>
      rw [hstep] at hrun
      have h' := Lost.run (h.step (k := x.2) hstep) hrun
      rwa [List.append_assoc] at h'

/-- Tables that are lost in a plan that connects all its tables are all tables, and no sub-plan is
left. -/
theorem Lost.lastSubplan {K : Set Name} (hvalid : lp.Valid db) (h : Lost lp lp.joins.zipIdx s K)
    (plan : DbIterator) : lastSubplan s.subplanMap ≠ .ok plan := by
  have hclosed := h.closed
  rw [List.zipIdx_map_fst] at hclosed
  have hnone : s.subplanMap.entries = [] := by
    rw [List.eq_nil_iff_forall_not_mem]
    intro e he
    obtain ⟨ha, hnotin⟩ := h.keys e.1 (List.mem_map_of_mem he)
    obtain ⟨b, hb⟩ := h.nonempty
    exact hnotin (((hvalid.connected _ ha b (h.subset b hb)).mem_iff hclosed).2 hb)
  intro hok
  simp [LogicalPlan.lastSubplan, hnone] at hok

/-! ## Runs -/

/-- The loop joins everything, or it meets a cycle and then loses tables or fails. -/
theorem Joined.run (hvalid : lp.Valid db) (hcapture : lp.NoCapture db) :
    ∀ {todo done : List (JoinNode × ℕ)} {s : JoinState}, done ++ todo = lp.joins.zipIdx →
      Joined db lp done s → IsForest (JoinNode.edges (done.map Prod.fst)) →
      (∃ s', (todo.map Prod.fst).foldlM (joinStep db lp) s = .ok s' ∧
        Joined db lp (done ++ todo) s' ∧
        IsForest (JoinNode.edges ((done ++ todo).map Prod.fst))) ∨
      (¬IsForest (JoinNode.edges ((done ++ todo).map Prod.fst)) ∧
        ∀ s', (todo.map Prod.fst).foldlM (joinStep db lp) s = .ok s' →
          ∃ K, Lost lp (done ++ todo) s' K)
  | [], done, s, _, h, hforest => by
    rw [List.append_nil]
    exact Or.inl ⟨s, rfl, h, hforest⟩
  | (lj, k) :: todo, done, s, hall, h, hforest => by
    have hk : lp.joins[k]? = some lj := by
      have hmem : (lj, k) ∈ lp.joins.zipIdx := by simp [← hall]
      exact List.mem_zipIdx_iff_getElem?.1 hmem
    have hall' : (done ++ [(lj, k)]) ++ todo = lp.joins.zipIdx := by simpa using hall
    have hsplit : done ++ (lj, k) :: todo = (done ++ [(lj, k)]) ++ todo := by simp
    have hfresh : ∀ x ∈ done, x.2 ≠ k := by
      have hnodup : ((done ++ (lj, k) :: todo).map Prod.snd).Nodup := by
        rw [hall, List.zipIdx_map_snd]
        exact List.nodup_range'
      rw [List.map_append, List.map_cons, List.nodup_append] at hnodup
      exact fun x hx => hnodup.2.2 _ (List.mem_map_of_mem hx) k (by simp)
    rw [List.map_cons, List.foldlM_cons, hsplit]
    cases lj with
    | join t1 t2 f1 f2 op =>
      have hedges : JoinNode.edges ((done ++ [(JoinNode.join t1 t2 f1 f2 op, k)]).map Prod.fst) =
          JoinNode.edges (done.map Prod.fst) ++ [(t1, t2)] := by
        rw [List.map_append, List.map_singleton, edges_append]
        rfl
      by_cases hconnected : Connected (JoinNode.edges (done.map Prod.fst)) t1 t2
      · -- The join closes a cycle.
        refine Or.inr ⟨fun hforest' => ?_, fun s' hrun => ?_⟩
        · refine hforest' (JoinNode.edges (done.map Prod.fst)) t1 t2
            (JoinNode.edges (todo.map Prod.fst)) ?_ hconnected
          rw [List.map_append]
          have happend : ∀ E F, JoinNode.edges (E ++ F) = JoinNode.edges E ++ JoinNode.edges F :=
            fun E F => List.filterMap_append
          rw [happend, hedges]
          simp
        · cases hstep : joinStep db lp s (.join t1 t2 f1 f2 op) with
          | error e =>
            rw [hstep] at hrun
            cases hrun
          | ok s₁ =>
            rw [hstep] at hrun
            exact ⟨_, (h.lost hvalid hk hconnected hstep).run hrun⟩
      · obtain ⟨s₁, hstep, h₁⟩ := h.join hvalid hcapture hk hconnected
        rw [hstep]
        refine Joined.run hvalid hcapture hall' h₁ ?_
        rw [hedges]
        exact hforest.append hconnected
    | subplanJoin t1 f1 subPlan op =>
      obtain ⟨s₁, hstep, h₁⟩ := h.subplanJoin hvalid hcapture hk hfresh
      rw [hstep]
      refine Joined.run hvalid hcapture hall' h₁ ?_
      rw [List.map_append, List.map_singleton, edges_append]
      simpa [JoinNode.edges] using hforest

theorem Valid.table_some (hvalid : lp.Valid db) {a : Name} (ha : a ∈ lp.aliases) :
    ∃ file, lp.table db a = some file := by
  obtain ⟨x, hx, rfl⟩ := List.mem_map.1 ha
  have hsome : (lp.tables.find? fun y => y.tableAlias = x.tableAlias).isSome = true :=
    List.find?_isSome.2 ⟨x, hx, by simp⟩
  obtain ⟨y, hy⟩ := Option.isSome_iff_exists.1 hsome
  obtain ⟨file, hfile⟩ := hvalid.scans y (List.mem_of_find?_eq_some hy)
  exact ⟨file, by simp [table, hy, hfile]⟩

/-- Before the joins every table is a sub-plan of its own. -/
theorem Filtered.joined {m : SubplanMap} (h : Filtered db lp lp.filters m) (hvalid : lp.Valid db) :
    Joined db lp [] ⟨m, fun _ => none⟩ where
  positions := by simp
  labels := labels_nil
  aliases a ha := ha
  idem a := rfl
  keys r := by
    change r ∈ m ↔ r ∈ lp.aliases ∧ r = r
    rw [and_iff_left rfl, ← AList.lookup_isSome]
    constructor
    · intro hsome
      cases hfile : lp.table db r with
      | none =>
        have hr := h r
        rw [hfile] at hr
        simp [hr] at hsome
      | some file => exact mem_aliases_of_table hfile
    · intro hr
      obtain ⟨file, hfile⟩ := hvalid.table_some hr
      obtain ⟨plan, hlookup, -⟩ := h.covers hfile
      rw [hlookup]
      rfl
  covers r plan hplan := by
    cases hfile : lp.table db r with
    | none =>
      have hr := h r
      rw [hfile] at hr
      exact absurd (hr.symm.trans hplan) (by simp)
    | some file =>
      obtain ⟨plan', hlookup, hcovers⟩ := h.covers hfile
      obtain rfl : plan' = plan := Option.some.inj (hlookup.symm.trans hplan)
      refine ⟨[.inl r], List.nodup_singleton _, fun src => ?_, hcovers⟩
      cases src with
      | inl a =>
        change _ ↔ a ∈ lp.aliases ∧ a = r
        have ha : a = r → a ∈ lp.aliases := fun heq => heq ▸ mem_aliases_of_table hfile
        simpa using ha
      | inr k => simp [Part]

/-! ## The last sub-plan -/

theorem lastSubplan_ok {m : SubplanMap} {r : Name} {plan : DbIterator}
    (hlookup : m.lookup r = some plan) (hkeys : ∀ r' ∈ m, r' = r) : lastSubplan m = .ok plan := by
  obtain ⟨entries, hnodup⟩ := m
  change entries.dlookup r = some plan at hlookup
  cases entries with
  | nil => cases hlookup
  | cons e entries =>
    have he : e.1 = r := hkeys e.1 (List.mem_map_of_mem (by simp))
    cases entries with
    | nil =>
      obtain ⟨k, plan'⟩ := e
      dsimp only at he
      subst he
      rw [List.dlookup_cons_eq] at hlookup
      cases hlookup
      rfl
    | cons e' entries =>
      have he' : e'.1 = r := hkeys e'.1 (List.mem_map_of_mem (by simp))
      have hne : e.1 ≠ e'.1 := by
        intro heq
        simp [List.NodupKeys, List.keys, heq] at hnodup
      exact absurd (he.trans he'.symm) hne

theorem nodup_sources (hvalid : lp.Valid db) : lp.sources.Nodup := by
  refine (hvalid.nodup.map Sum.inl_injective).append
    ((List.nodup_range.filter _).map Sum.inr_injective) ?_
  intro src hsrc hsrc'
  obtain ⟨a, -, rfl⟩ := List.mem_map.1 hsrc
  simp at hsrc'

theorem mem_sources (src : Source) : src ∈ lp.sources ↔
    match src with
    | .inl a => a ∈ lp.aliases
    | .inr k => (lp.subplan k).isSome = true := by
  cases src with
  | inl a => simp [sources]
  | inr k =>
    have hlt : (lp.subplan k).isSome = true → k < lp.joins.length := by
      intro hsome
      obtain ⟨plan, hplan⟩ := Option.isSome_iff_exists.1 hsome
      obtain ⟨t1, f1, p, hjoin⟩ := subplan_eq_some hplan
      exact (List.getElem?_eq_some_iff.1 hjoin).1
    simpa [sources] using hlt

/-- The sub-plan after all joins of a plan that connects its tables. -/
theorem Joined.preserved (h : Joined db lp lp.joins.zipIdx s) (hvalid : lp.Valid db)
    (hrun : ∀ plan, lastSubplan s.subplanMap = .ok plan → lp.joinedPlan db = .ok plan) :
    lp.Preserved db := by
  obtain ⟨x, hx⟩ := List.exists_mem_of_ne_nil _ hvalid.ne_nil
  have hx : x.tableAlias ∈ lp.aliases := List.mem_map_of_mem hx
  obtain ⟨plan, order, hlookup, hnodup, -, horder, hcovers⟩ := h.subplan hx
  have hlabels := h.labels
  rw [List.zipIdx_map_fst] at hlabels
  have hname : ∀ a ∈ lp.aliases, s.equivName a = s.equivName x.tableAlias :=
    fun a ha => (hlabels _ _).2 (hvalid.connected a ha _ hx)
  have ht1 : ∀ lj ∈ lp.joins, lj.t1 ∈ lp.aliases := by
    intro lj hlj
    have hresolves := hvalid.joins lj hlj
    cases lj with
    | join t1 t2 f1 f2 op =>
      obtain ⟨i1, i2, ty, hcolumn, -⟩ := hresolves
      exact column_mem_aliases hcolumn
    | subplanJoin t1 f1 subPlan op =>
      obtain ⟨plan, i1, ty, -, hcolumn, -⟩ := hresolves
      exact column_mem_aliases hcolumn
  have hzip : ∀ {j}, j ∈ lp.joins.zipIdx → j.1 ∈ lp.joins := fun hj =>
    List.mem_of_getElem? (h.positions _ hj)
  have hsources : order.Perm lp.sources := by
    rw [List.perm_ext_iff_of_nodup hnodup (nodup_sources hvalid)]
    intro src
    rw [horder, mem_sources]
    cases src with
    | inl a => exact ⟨fun ha => ha.1, fun ha => ⟨ha, hname a ha⟩⟩
    | inr k =>
      simp only [Part, LogicalPlan.subplan]
      constructor
      · rintro ⟨lj, hlj, hsome, -⟩
        rw [h.positions _ hlj]
        exact hsome
      · intro hsome
        obtain ⟨plan', hplan'⟩ := Option.isSome_iff_exists.1 hsome
        obtain ⟨lj, hlj, hsub⟩ := Option.bind_eq_some_iff.1 hplan'
        refine ⟨lj, List.mem_zipIdx_iff_getElem?.2 hlj, by rw [hsub]; rfl, ?_⟩
        exact hname _ (ht1 lj (List.mem_of_getElem? hlj))
  have hholds : partHolds db lp lp.joins.zipIdx s (s.equivName x.tableAlias) =
      fun row => lp.joins.zipIdx.all (lp.joinHolds db row) := by
    funext row
    rw [Bool.eq_iff_iff, partHolds_iff, List.all_eq_true]
    exact forall₂_congr fun j hj =>
      ⟨fun himp => himp (hname _ (ht1 _ (hzip hj))), fun hj' _ => hj'⟩
  have hlast : lastSubplan s.subplanMap = .ok plan := by
    refine lastSubplan_ok hlookup fun r hr => ?_
    obtain ⟨ha, hself⟩ := (h.keys r).1 hr
    rw [← hself, hname r ha]
  obtain ⟨ts, hmeans, hperm⟩ := hcovers.means
  obtain ⟨out, hout, hdrained, -⟩ := Operator.drained_means hcovers.wellTyped
  refine ⟨plan, out, order, hrun plan hlast, hdrained, hsources, hcovers.names, ?_⟩
  rw [hholds] at hperm
  exact ((hout.perm hmeans).map _).trans
    (hperm.trans (((rows_perm hsources hnodup).filter _).map _))

/-- A catalog with the table 1, which has one column `x` and one tuple. -/
def oneTable : Catalog := fun t =>
  if t = 1 then
    some
      { td := Operator.intColumn
        names := [some [120]]
        tuples := [Tuple.new Operator.intColumn]
        length_names := rfl
        typed := by
          intro t ht
          obtain rfl := List.mem_singleton.1 ht
          exact ⟨rfl, .cons ⟨.intField 0, rfl, rfl⟩ .nil⟩ }
  else none

/-- The table as `a` and as `b`, with joins on `a.x` and `b.x`. -/
def twoAliases (ops : List Op) : LogicalPlan where
  tables := [⟨1, [97]⟩, ⟨1, [98]⟩]
  filters := []
  joins := ops.map fun op => .join [97] [98] [97, 46, 120] [98, 46, 120] op

theorem built_twoAliases (ops : List Op) : Built oneTable (twoAliases ops) := by
  induction ops using List.reverseRecOn with
  | nil => exact .addScan (.addScan .new 1 [97]) 1 [98]
  | append_singleton ops op ih =>
    have hadd : (twoAliases ops).addJoin oneTable [97, 46, 120] [98, 46, 120] op =
        .ok (twoAliases (ops ++ [op])) := by
      have heq : (twoAliases ops).addJoin oneTable [97, 46, 120] [98, 46, 120] op =
          .ok { twoAliases ops with joins := (twoAliases ops).joins ++
            [.join [97] [98] [97, 46, 120] [98, 46, 120] op] } := rfl
      rw [heq, twoAliases, twoAliases, List.map_append, List.map_singleton]
    exact .addJoin ih hadd

theorem valid_twoAliases (op : Op) (ops : List Op) : (twoAliases (op :: ops)).Valid oneTable where
  built := built_twoAliases _
  ne_nil := by simp [twoAliases]
  scans := by
    intro x hx
    simp only [twoAliases, List.mem_cons, List.not_mem_nil, or_false] at hx
    rcases hx with rfl | rfl <;> exact ⟨_, rfl⟩
  nodup := by
    change [[97], [98]].Nodup
    decide
  filters := by simp [twoAliases]
  joins := by
    intro lj hlj
    obtain ⟨op', -, rfl⟩ := List.mem_map.1 hlj
    exact ⟨0, 0, .intType, rfl, rfl⟩
  connected := by
    have hedge : Connected (JoinNode.edges (twoAliases (op :: ops)).joins) [97] [98] :=
      Connected.of_mem (List.mem_filterMap.2 ⟨_, List.mem_cons_self, rfl⟩)
    intro a ha b hb
    simp only [aliases, twoAliases, List.map_cons, List.map_nil, List.mem_cons, List.not_mem_nil,
      or_false] at ha hb
    rcases ha with rfl | rfl <;> rcases hb with rfl | rfl
    · exact Connected.refl _
    · exact hedge
    · exact hedge.symm
    · exact Connected.refl _

theorem noCapture_twoAliases (ops : List Op) : (twoAliases ops).NoCapture oneTable := by
  intro k plan hplan
  obtain ⟨t1, f1, p, hjoin⟩ := subplan_eq_some hplan
  obtain ⟨op, -, heq⟩ := List.mem_map.1 (List.mem_of_getElem? hjoin)
  cases heq

end LogicalPlan

end Courses.SimpleDb
