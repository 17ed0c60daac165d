import Courses.SearchEngine.HashTableDrain

/-!
# Traversing a hash table

A traversal makes an iterator and, at each element until the end, moves on or deletes the
element. It visits every pair of the table once, as long as the table has never held
`2 ^ 32` pairs, which its count of elements cannot tell from none.
-/
namespace Courses.SearchEngine

open Courses.Lib Courses.Lib.AllocM

variable {V : Type}

/-! ## The client's loop -/

/-- An element as `HTIteratorGet` returned it, and what `HTIteratorDelete` answered if the
client chose to delete it. -/
structure Visit (V : Type) where
  element : HTKeyValue V
  deleted : Option (Answer V)

/-- The loop over an iterator. The client deletes the `i`th element if `delete i` says so,
and otherwise moves on. -/
def traverseFrom [DecidableEq V] (delete : ℕ → Bool) :
    ℕ → ℕ → HashTable V → HTIter → AllocM (List (Visit V) × HashTable V)
  | 0, _, _, _ => halt .fuel
  | fuel + 1, i, t, it => do
    if htIteratorPastEnd it then
      return ([], t)
    else
      let kv ← verifySome (← htIteratorGet t it)
      if delete i then
        let (answer, t, it) ← htIteratorDelete t it
        let (visits, t) ← traverseFrom delete fuel (i + 1) t it
        return (⟨kv, some answer⟩ :: visits, t)
      else
        let (_, it) ← htIteratorNext t it
        let (visits, t) ← traverseFrom delete fuel (i + 1) t it
        return (⟨kv, none⟩ :: visits, t)

/-- A traversal from a new iterator; each element is visited once, which bounds the loop. -/
def traverse [DecidableEq V] (delete : ℕ → Bool) (t : HashTable V) :
    AllocM (List (Visit V) × HashTable V) := do
  let it ← verifySome (← hashTableMakeIterator t)
  traverseFrom delete (t.numElements.toNat + 1) 0 t it

/-- The pair of a visit. -/
def Visit.pair (v : Visit V) : HTKey × V := (v.element.key, v.element.value)

/-- The elements that were left in the table. -/
def kept (visits : List (Visit V)) : List (Visit V) := visits.filter fun v => v.deleted.isNone

/-- What a traversal of a table with the pairs of `m` has done: every pair was visited once,
each deletion returned the element it deleted (and 2 if that was the last), and the table
has the other pairs. -/
structure Traversed (m : FMap HTKey V) (visits : List (Visit V)) (t : HashTable V) : Prop where
  once : Represents (visits.map Visit.pair) m
  returned : ∀ pre v post, visits = pre ++ v :: post → ∀ answer, v.deleted = some answer →
    answer = ⟨if post = [] then 2 else 1, some v.element⟩
  left : ∃ m', Represents ((kept visits).map Visit.pair) m' ∧ Holds t m'

section Loop

variable [DecidableEq V] {delete : ℕ → Bool} {t : HashTable V} {cs : List (Chain V)}
  {m : FMap HTKey V}

/-- What the loop does from an iterator that has passed `seen` and has `rest` left. -/
structure LoopDone (seen rest : Chain V) (visits : List (Visit V)) (t : HashTable V) : Prop where
  elements : visits.map Visit.element = rest.map Prod.snd
  returned : ∀ pre v post, visits = pre ++ v :: post → ∀ answer, v.deleted = some answer →
    answer = ⟨if post = [] then 2 else 1, some v.element⟩
  left : ∃ cs m', Chains t cs ∧ pairs cs.flatten = pairs seen ++ (kept visits).map Visit.pair ∧
    Represents (pairs cs.flatten) m'

omit [DecidableEq V] in
theorem LoopDone.cons {seen seen' rest : Chain V} {visits : List (Visit V)}
    {e : Ptr × HTKeyValue V} {deleted : Option (Answer V)} (h : LoopDone seen' rest visits t)
    (hret : ∀ answer, deleted = some answer → answer = ⟨if rest = [] then 2 else 1, some e.2⟩)
    (hseen : seen' = if deleted.isNone then seen ++ [e] else seen) :
    LoopDone seen (e :: rest) (⟨e.2, deleted⟩ :: visits) t := by
  have hend : visits = [] ↔ rest = [] := by
    rw [← List.map_eq_nil_iff (f := Visit.element), h.elements, List.map_eq_nil_iff]
  refine ⟨by simp [h.elements], ?_, ?_⟩
  · intro pre v post heq answer hv
    cases pre with
    | nil =>
      cases heq
      rw [hret answer hv, if_congr hend rfl rfl]
    | cons w pre =>
      cases heq
      exact h.returned pre v post rfl answer hv
  · obtain ⟨cs, m', hcs, hpairs, hm'⟩ := h.left
    refine ⟨cs, m', hcs, ?_, hm'⟩
    rw [hpairs, hseen]
    cases deleted with
    | none => simp [kept, pairs, Visit.pair]
    | some answer => simp [kept]

theorem returns_traverseFrom (rest seen : Chain V) {it : HTIter} {fuel i : ℕ}
    (hcs : Chains t cs) (hm : Represents (pairs cs.flatten) m) (hit : IterAt cs it rest)
    (hall : cs.flatten = seen ++ rest) (hfuel : rest.length < fuel) :
    Returns (traverseFrom delete fuel i t it) fun r => LoopDone seen rest r.1 r.2 := by
  induction rest generalizing seen cs t m it fuel i with
  | nil =>
    obtain _ | fuel := fuel
    · exact absurd hfuel (Nat.not_lt_zero _)
    rw [traverseFrom, htIteratorPastEnd_eq hit]
    refine returns_pure ⟨rfl, fun pre v post heq => ?_, cs, m, hcs, ?_, hm⟩
    · simp at heq
    · rw [hall]
      simp [kept, pairs]
  | cons e rest ih =>
    obtain _ | fuel := fuel
    · exact absurd hfuel (Nat.not_lt_zero _)
    have hfuel' : rest.length < fuel := Nat.lt_of_succ_lt_succ hfuel
    rw [traverseFrom, htIteratorPastEnd_eq hit]
    refine (returns_htIteratorGet hcs hit).bind_eq ((returns_verifySome rfl).bind_eq ?_)
    cases hdelete : delete i with
    | true =>
      refine (returns_htIteratorDelete_after hcs hm hit hall).bind ?_
      rintro ⟨answer, t', it'⟩ ⟨hanswer, cs', hcs', hall', hit'⟩
      dsimp only at hanswer hcs' hit' ⊢
      have hm' : Represents (pairs cs'.flatten) (m.erase e.2.key) := by
        rw [hall, pairs_append] at hm
        rw [hall', pairs_append]
        exact hm.erase
      refine (ih seen hcs' hm' hit' hall' hfuel').bind ?_
      rintro ⟨visits, t''⟩ hdone
      refine returns_pure (hdone.cons ?_ rfl)
      rintro _ ⟨⟩
      exact hanswer
    | false =>
      refine (returns_htIteratorNext hcs hit).bind ?_
      rintro ⟨res, it'⟩ ⟨-, hit'⟩
      have hall' : cs.flatten = (seen ++ [e]) ++ rest := by
        rw [hall]
        simp
      refine (ih (seen ++ [e]) hcs hm hit' hall' hfuel').bind ?_
      rintro ⟨visits, t'⟩ hdone
      exact returns_pure (hdone.cons (fun _ h => by cases h) rfl)

theorem returns_traverse (h : Holds t m) :
    Returns (traverse delete t) fun r => Traversed m r.1 r.2 := by
  obtain ⟨cs, hcs, hm⟩ := h
  refine (returns_hashTableMakeIterator hcs).bind ?_
  rintro _ ⟨it, rfl, hit⟩
  refine (returns_verifySome rfl).bind_eq ?_
  have hfuel : cs.flatten.length < t.numElements.toNat + 1 := by
    rw [hcs.count]
    exact Nat.lt_succ_self _
  refine (returns_traverseFrom cs.flatten [] hcs hm hit rfl hfuel).mono ?_
  rintro ⟨visits, t'⟩ hdone
  obtain ⟨cs', m', hcs', hpairs, hm'⟩ := hdone.left
  have hvisits : visits.map Visit.pair = pairs cs.flatten := by
    have := congrArg (List.map fun kv : HTKeyValue V => (kv.key, kv.value)) hdone.elements
    rw [List.map_map, List.map_map] at this
    exact this
  refine ⟨hvisits ▸ hm, hdone.returned, m', ?_, cs', hcs', hm'⟩
  rw [hpairs] at hm'
  exact hm'

end Loop

/-! ## Reachable tables -/

/-- A sequence of calls, each with as many nested resizes as the table has elements. -/
def tableSession (t : HashTable V) : List (Call V) → AllocM (HashTable V)
  | [] => return t
  | c :: cs => do
    let (_, t) ← call (t.numElements.toNat + 1) t c
    tableSession t cs

/-- The table that the calls make of a new one with `n` buckets. -/
def newTableSession (n : HWSize) (calls : List (Call V)) : AllocM (HashTable V) := do
  let t ← verifySome (← allocateHashTable n)
  tableSession t calls

/-- The map that the calls make of another. -/
def mapAfter (m : FMap HTKey V) (calls : List (Call V)) : FMap HTKey V :=
  calls.foldl (fun m c => (mapCall m c).2) m

/-- No prefix of the calls makes `2 ^ 32` pairs. -/
def PairsFit (m : FMap HTKey V) (calls : List (Call V)) : Prop :=
  ∀ cs, cs <+: calls → (mapAfter m cs).keys.card < 2 ^ 32

section Reachable

variable {t : HashTable V} {m : FMap HTKey V} {n : HWSize} {calls : List (Call V)}

theorem card_mapCall_insert {kv : HTKeyValue V} (hnew : m.lookup kv.key = none) :
    (mapCall m (.insert kv)).2.keys.card = m.keys.card + 1 :=
  card_keys_insert hnew

theorem returns_call_of_fits (h : Holds t m) {c : Call V}
    (hfits : (mapCall m c).2.keys.card < 2 ^ 32) :
    Returns (call (t.numElements.toNat + 1) t c) fun r => Holds r.2 (mapCall m c).2 := by
  cases c with
  | insert kv =>
    have hroom : m.lookup kv.key = none → m.keys.card + 1 < 2 ^ 32 := by
      intro hnew
      rwa [card_mapCall_insert hnew] at hfits
    exact (returns_insertInto_of_fits h kv hroom).mono fun r hr => hr.2
  | lookup key => exact (returns_lookupHashTable h key).bind fun _ _ => returns_pure h
  | remove key =>
    refine (returns_removeFromHashTable h key).mono ?_
    rintro r ⟨-, hholds, -⟩
    exact hholds
  | numElements => exact returns_pure h

theorem returns_tableSession (h : Holds t m) (hfits : PairsFit m calls) :
    Returns (tableSession t calls) fun r => Holds r (mapAfter m calls) := by
  induction calls generalizing t m with
  | nil => exact returns_pure h
  | cons c cs ih =>
    refine (returns_call_of_fits h (hfits [c] ⟨cs, rfl⟩)).bind ?_
    rintro ⟨_, t'⟩ h'
    exact ih h' fun ds hds => hfits (c :: ds) (List.cons_prefix_cons.mpr ⟨rfl, hds⟩)

theorem returns_newTableSession (hn : 1 ≤ n) (hfits : PairsFit (∅ : FMap HTKey V) calls) :
    Returns (newTableSession n calls) fun r => Holds r (mapAfter ∅ calls) := by
  refine (returns_allocateHashTable (UInt32.le_iff_toNat_le.mp hn)).bind ?_
  rintro _ ⟨t, rfl, hholds, -⟩
  exact (returns_verifySome rfl).bind_eq (returns_tableSession hholds hfits)

/-! ## The pair that does not fit -/

/-- The pair number `2 ^ 32` makes the count of elements zero. -/
theorem returns_insertInto_full (h : Holds t m) {kv : HTKeyValue V}
    (hnew : m.lookup kv.key = none) (hfull : m.keys.card + 1 = 2 ^ 32) :
    Returns (insertInto t kv) fun r => r.2.numElements = 0 := by
  refine (returns_resize_insertInto h).bind fun t' h' => ?_
  have hcount := h'.numElements
  obtain ⟨cs, hcs, hm⟩ := h'
  obtain ⟨l, r, c, chain, hf⟩ := hcs.focus kv.key
  refine hf.returns_hashKeyToBucketNum.bind fun i hi => (hf.returns_bucket hi).bind_eq ?_
  refine (returns_findKVInHashTable hf.repr kv.key).bind fun location hfind => ?_
  cases location with
  | none =>
    refine returns_malloc_bind ((returns_verify rfl).bind fun _ _ => ?_)
    refine (LinkedList.returns_appendLinkedList_any hf.repr kv).bind fun d _ => returns_pure ?_
    change t'.numElements + 1 = 0
    rw [← UInt32.toNat_inj, UInt32.toNat_add, hcount, UInt32.toNat_one, hfull]
    rfl
  | some it =>
    obtain ⟨xs, p, old, ys, rfl, hk, rfl⟩ := hfind
    rw [hf.lookup_middle hk hm] at hnew
    cases hnew

/-- A table whose count of elements is zero looks empty to a traversal. -/
theorem returns_traverse_empty [DecidableEq V] {delete : ℕ → Bool} (h : t.numElements = 0) :
    Returns (traverse delete t) fun r => r.1 = [] := by
  have hmake : Returns (hashTableMakeIterator t) fun r => r = some ⟨false, 0, none⟩ := by
    apply returns_malloc_bind
    rw [if_pos rfl, if_pos h]
    exact returns_pure rfl
  refine hmake.bind_eq ((returns_verifySome rfl).bind_eq ?_)
  exact returns_pure rfl

/-- The table that the calls have made is traversed as it should be, whatever the client
chooses to delete. -/
def TraversesAfter [DecidableEq V] (n : HWSize) (calls : List (Call V)) : Prop :=
  Returns (newTableSession n calls) fun t =>
    ∀ delete, Returns (traverse delete t) fun r => Traversed (mapAfter ∅ calls) r.1 r.2

theorem tableSession_append (cs ds : List (Call V)) :
    tableSession t (cs ++ ds) = tableSession t cs >>= fun t => tableSession t ds := by
  induction cs generalizing t with
  | nil => rfl
  | cons c cs ih =>
    simp only [List.cons_append, tableSession, bind_assoc]
    congr 1
    funext r
    exact ih

theorem mapAfter_concat (m : FMap HTKey V) (cs : List (Call V)) (c : Call V) :
    mapAfter m (cs ++ [c]) = (mapCall (mapAfter m cs) c).2 := by
  rw [mapAfter, List.foldl_append]
  rfl

/-- Only the insert of a new key makes a map larger. -/
theorem exists_insert_of_card_lt {c : Call V} (h : m.keys.card < (mapCall m c).2.keys.card) :
    ∃ kv, c = .insert kv ∧ m.lookup kv.key = none := by
  cases c with
  | insert kv =>
    refine ⟨kv, rfl, ?_⟩
    by_contra hold
    have hmem : kv.key ∈ m.keys := by
      rw [Finmap.mem_keys, ← Finmap.lookup_isSome]
      exact Option.isSome_iff_ne_none.mpr hold
    change _ < (m.insert kv.key kv.value).keys.card at h
    rw [keys_insert, Finset.card_insert_of_mem hmem] at h
    exact lt_irrefl _ h
  | lookup key => exact absurd h (lt_irrefl _)
  | remove key =>
    change _ < (m.erase key).keys.card at h
    rw [Finmap.keys_erase] at h
    exact absurd h (Finset.card_erase_le.not_gt)
  | numElements => exact absurd h (lt_irrefl _)

/-- After the pair number `2 ^ 32` a traversal visits none of them. -/
theorem not_traversesAfter_full [DecidableEq V] (hn : 1 ≤ n)
    (hfits : PairsFit (∅ : FMap HTKey V) calls) {kv : HTKeyValue V}
    (hnew : (mapAfter ∅ calls).lookup kv.key = none)
    (hfull : (mapAfter (∅ : FMap HTKey V) calls).keys.card + 1 = 2 ^ 32) :
    ¬ TraversesAfter n (calls ++ [.insert kv]) := by
  intro htraverses
  have hzero : Returns (newTableSession n (calls ++ [.insert kv])) fun t => t.numElements = 0 := by
    refine (returns_allocateHashTable (UInt32.le_iff_toNat_le.mp hn)).bind ?_
    rintro _ ⟨t, rfl, hholds, -⟩
    refine (returns_verifySome rfl).bind_eq ?_
    rw [tableSession_append]
    refine (returns_tableSession hholds hfits).bind fun t' ht' => ?_
    refine Returns.bind (returns_insertInto_full ht' hnew hfull) fun r hr => returns_pure hr
  obtain ⟨t, hall, hempty⟩ := (htraverses.and hzero).exists
  obtain ⟨⟨visits, t'⟩, hdone, hnil⟩ :=
    ((hall fun _ => false).and (returns_traverse_empty hempty)).exists
  have honce := hdone.once.length_eq
  dsimp only at hnil honce
  rw [hnil, mapAfter_concat, card_mapCall_insert hnew] at honce
  exact absurd honce (Nat.succ_ne_zero _).symm

theorem PairsFit.of_prefix {cs : List (Call V)} (hfits : PairsFit m calls) (hcs : cs <+: calls) :
    PairsFit m cs :=
  fun ds hds => hfits ds (hds.trans hcs)

/-- Every table that the calls make on the way is traversed as it should be, exactly if
none of them has `2 ^ 32` pairs. -/
theorem traversesAfter_iff [DecidableEq V] (hn : 1 ≤ n) :
    (∀ cs, cs <+: calls → TraversesAfter n cs) ↔ PairsFit (∅ : FMap HTKey V) calls := by
  constructor
  · intro htraverses
    suffices hall : ∀ cs, cs <+: calls → PairsFit (∅ : FMap HTKey V) cs from
      fun cs hcs => hall cs hcs cs (List.prefix_refl _)
    intro cs
    induction cs using List.reverseRecOn with
    | nil =>
      rintro - ds hds
      rw [List.prefix_nil.mp hds]
      exact Nat.two_pow_pos 32
    | append_singleton cs c ih =>
      intro hcs
      have hfits := ih ((List.prefix_append cs [c]).trans hcs)
      intro ds hds
      rcases List.prefix_concat_iff.mp hds with rfl | hds
      · by_contra hlarge
        have hbefore := hfits cs (List.prefix_refl _)
        rw [mapAfter_concat] at hlarge
        obtain ⟨kv, rfl, hnew⟩ :=
          exists_insert_of_card_lt (hbefore.trans_le (Nat.le_of_not_lt hlarge))
        rw [card_mapCall_insert hnew] at hlarge
        exact not_traversesAfter_full hn hfits hnew (by omega) (htraverses _ hcs)
      · exact hfits ds hds
  · intro hfits cs hcs
    refine (returns_newTableSession hn (hfits.of_prefix hcs)).mono ?_
    exact fun t ht delete => returns_traverse ht

end Reachable

theorem traversesAfter_someCalls : TraversesAfter (V := ℕ) 1
    [.insert ⟨1, 10⟩, .insert ⟨4, 40⟩, .insert ⟨2, 20⟩, .insert ⟨5, 50⟩, .remove 4] := by
  have hcards : ∀ cs ∈ List.inits [Call.insert ⟨1, 10⟩, .insert ⟨4, 40⟩, .insert ⟨2, 20⟩,
      .insert ⟨5, 50⟩, .remove 4], (mapAfter (∅ : FMap HTKey ℕ) cs).keys.card < 2 ^ 32 := by
    decide +kernel
  refine (traversesAfter_iff (by decide)).mpr (fun cs hcs => ?_) _ (List.prefix_refl _)
  exact hcards cs ((List.mem_inits _ _).mpr hcs)

/-- The inserts of the keys below `k`. -/
def insertsBelow (k : ℕ) : List (Call ℕ) :=
  (List.range k).map fun i => .insert ⟨UInt64.ofNat i, 0⟩

theorem insertsBelow_succ (k : ℕ) :
    insertsBelow (k + 1) = insertsBelow k ++ [.insert ⟨UInt64.ofNat k, 0⟩] := by
  rw [insertsBelow, List.range_succ, List.map_append]
  rfl

theorem keys_insertsBelow (k : ℕ) :
    (mapAfter ∅ (insertsBelow k)).keys = (Finset.range k).image UInt64.ofNat := by
  induction k with
  | zero => rfl
  | succ k ih =>
    rw [insertsBelow_succ, mapAfter_concat, Finset.range_add_one, Finset.image_insert, ← ih]
    exact keys_insert _ _ _

theorem card_insertsBelow {k : ℕ} (hk : k ≤ 2 ^ 64) :
    (mapAfter ∅ (insertsBelow k)).keys.card = k := by
  rw [keys_insertsBelow, Finset.card_image_of_injOn, Finset.card_range]
  intro i hi j hj heq
  have hi' : i < k := Finset.mem_range.mp hi
  have hj' : j < k := Finset.mem_range.mp hj
  have hnat := congrArg UInt64.toNat heq
  rwa [UInt64.toNat_ofNat_of_lt' (by exact lt_of_lt_of_le hi' hk),
    UInt64.toNat_ofNat_of_lt' (by exact lt_of_lt_of_le hj' hk)] at hnat

theorem prefix_insertsBelow {k : ℕ} {cs : List (Call ℕ)} (h : cs <+: insertsBelow k) :
    ∃ j ≤ k, cs = insertsBelow j := by
  refine ⟨cs.length, by simpa [insertsBelow] using h.length_le, ?_⟩
  rw [List.prefix_iff_eq_take.mp h, insertsBelow, ← List.map_take, List.take_range]
  simp [insertsBelow]

theorem not_traversesAfter_insertsBelow_succ {k : ℕ} (hk : k + 1 = 2 ^ 32) :
    ¬ TraversesAfter 1 (insertsBelow (k + 1)) := by
  rw [insertsBelow_succ]
  apply not_traversesAfter_full (by decide)
  · intro cs hcs
    obtain ⟨j, hj, rfl⟩ := prefix_insertsBelow hcs
    rw [card_insertsBelow (by omega)]
    omega
  · rw [Finmap.lookup_eq_none, ← Finmap.mem_keys, keys_insertsBelow, Finset.mem_image]
    rintro ⟨i, hi, heq⟩
    rw [Finset.mem_range] at hi
    have hnat := congrArg UInt64.toNat heq
    have hi' : i < 2 ^ 64 := by omega
    have hk' : k < 2 ^ 64 := by omega
    rw [UInt64.toNat_ofNat_of_lt' hi', UInt64.toNat_ofNat_of_lt' hk'] at hnat
    omega
  · rw [card_insertsBelow (by omega), hk]

/-- A new table with one bucket and `2 ^ 32` pairs. -/
theorem not_traversesAfter_insertsBelow : ¬ TraversesAfter 1 (insertsBelow (2 ^ 32)) :=
  not_traversesAfter_insertsBelow_succ (Nat.sub_add_cancel (Nat.one_le_two_pow (n := 32)))

end Courses.SearchEngine
