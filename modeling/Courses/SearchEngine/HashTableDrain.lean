import Courses.SearchEngine.HashTableMap

/-!
# Hash tables of any size, and draining one

Past `2 ^ 32 / 27` elements the bucket counts of a growing table wrap around, a resize may
shrink the table and the inserts it makes may resize again. The table still holds the
same map: each nested insert works on a table with fewer elements, so the nesting is
bounded by the number of elements and `insertInto` never runs out of it.

`HTIteratorDelete` moves the iterator on and then removes the entry it left. A table that
is drained this way hands out every entry once, in the order of the chains.
-/
namespace Courses.SearchEngine

open Courses.Lib Courses.Lib.AllocM

variable {V : Type}

/-! ## Insertion at any size -/

/-- `InsertHashTable`, with as many nested resizes as the table has elements. -/
def insertInto (table : HashTable V) (newkeyvalue : HTKeyValue V) :
    AllocM (Answer V × HashTable V) :=
  insertHashTable (table.numElements.toNat + 1) table newkeyvalue

/-- `insert` works on every table with fewer than `n` elements. -/
def InsertsBelow (n : ℕ)
    (insert : HashTable V → HTKeyValue V → AllocM (Answer V × HashTable V)) : Prop :=
  ∀ t m kv, Holds t m → m.keys.card < n → Returns (insert t kv) fun r =>
    r.1 = insertAnswer m kv ∧ Holds r.2 (m.insert kv.key kv.value)

section AnySize

variable {t : HashTable V} {m : FMap HTKey V}
  {insert : HashTable V → HTKeyValue V → AllocM (Answer V × HashTable V)}

/-- Copying what the iterator has left; `done` is in the new table already. -/
theorem returns_rehash_of_insertsBelow {cs : List (Chain V)} (hcs : Chains t cs) (rest : Chain V)
    {it : HTIter} (hit : IterAt cs it rest) {done : List (HTKey × V)} {newht : HashTable V}
    {m' : FMap HTKey V} (hnew : Holds newht m') (hdone : Represents done m')
    (hall : ((done ++ pairs rest).map Prod.fst).Nodup)
    (hinsert : InsertsBelow (done ++ pairs rest).length insert) {n : ℕ} (hn : rest.length < n) :
    Returns (rehash insert t n it newht) fun r => r.1 = true ∧
      ∃ m'', Holds r.2 m'' ∧ Represents (done ++ pairs rest) m'' := by
  refine (returns_rehash_keeping (J := fun _ => True) hcs ?_ rest hit hnew trivial hdone hall
    le_rfl hn).mono ?_
  · intro t m kv hholds _ hcard
    refine (hinsert t m kv hholds hcard).mono ?_
    rintro r ⟨hanswer, hheld⟩
    exact ⟨hanswer, hheld, trivial⟩
  · rintro r ⟨htrue, m'', hholds, hrep, -⟩
    exact ⟨htrue, m'', hholds, hrep⟩

/-- Whatever a resize does to the buckets, the table holds the same map. -/
theorem returns_resizeHashtable_of_insertsBelow (h : Holds t m)
    (hinsert : InsertsBelow m.keys.card insert) :
    Returns (resizeHashtable insert t) fun r => Holds r m := by
  obtain ⟨cs, hcs, hm⟩ := h
  have hlen : (pairs cs.flatten).length = m.keys.card := hm.length_eq
  rw [resizeHashtable]
  by_cases hroom : t.numElements < 3 * t.numBuckets
  · rw [if_pos hroom]
    exact returns_pure ⟨cs, hcs, hm⟩
  · rw [if_neg hroom]
    by_cases hzero : t.numBuckets * 9 = 0
    · -- nine times the buckets wrapped to zero: `AllocateHashTable` answers NULL
      rw [allocateHashTable, if_pos hzero]
      exact returns_pure ⟨cs, hcs, hm⟩
    · have hpos : 0 < (t.numBuckets * 9).toNat := by
        rw [Nat.pos_iff_ne_zero]
        intro hnat
        exact hzero (UInt32.toNat_inj.1 hnat)
      refine (returns_allocateHashTable hpos).bind ?_
      rintro _ ⟨newht, rfl, hnew, -⟩
      refine (returns_hashTableMakeIterator hcs).bind ?_
      rintro _ ⟨it, rfl, hit⟩
      have hall : (([] ++ pairs cs.flatten).map Prod.fst).Nodup := hm.nodup
      have hinsert' : InsertsBelow ([] ++ pairs cs.flatten).length insert := by
        rw [List.nil_append, hlen]
        exact hinsert
      have hn : cs.flatten.length < t.numElements.toNat + 1 := by
        rw [hcs.count]
        exact Nat.lt_succ_self _
      refine (returns_rehash_of_insertsBelow hcs _ hit hnew represents_nil hall hinsert' hn).bind ?_
      rintro ⟨_, newht'⟩ ⟨rfl, m'', hholds, hrep⟩
      refine (returns_freeHashTable hcs).bind fun _ _ => returns_pure ?_
      rw [hm.unique hrep]
      exact hholds

theorem insertsBelow_insertHashTable {fuel : ℕ} (hfuel : fuel < 2 ^ 32) :
    InsertsBelow fuel (insertHashTable (V := V) fuel) := by
  induction fuel with
  | zero => exact fun _ _ _ _ hlt => absurd hlt (Nat.not_lt_zero _)
  | succ fuel ih =>
    intro t m kv h hlt
    have hbelow : InsertsBelow m.keys.card (insertHashTable (V := V) fuel) := by
      intro t' m' kv' h' hlt'
      exact ih (by omega) t' m' kv' h' (by omega)
    refine (returns_resizeHashtable_of_insertsBelow h hbelow).bind fun t' h' => ?_
    refine (returns_insertEntry h' (by omega) kv).mono ?_
    rintro r ⟨hanswer, hholds, -⟩
    exact ⟨hanswer, hholds⟩

/-- The resize before an insert leaves the map as it is. -/
theorem returns_resize_insertInto (h : Holds t m) :
    Returns (resizeHashtable (insertHashTable t.numElements.toNat) t) fun r => Holds r m := by
  apply returns_resizeHashtable_of_insertsBelow h
  have hlt := UInt32.toNat_lt t.numElements
  rw [h.numElements] at hlt ⊢
  exact insertsBelow_insertHashTable hlt

theorem returns_insertInto_of_fits (h : Holds t m) (kv : HTKeyValue V)
    (hfits : m.lookup kv.key = none → m.keys.card + 1 < 2 ^ 32) :
    Returns (insertInto t kv) fun r =>
      r.1 = insertAnswer m kv ∧ Holds r.2 (m.insert kv.key kv.value) := by
  refine (returns_resize_insertInto h).bind fun t' h' => ?_
  refine (returns_insertEntry_of_fits h' kv hfits).mono ?_
  rintro r ⟨hanswer, hholds, -⟩
  exact ⟨hanswer, hholds⟩

theorem returns_insertInto (h : Holds t m) (hlt : m.keys.card + 1 < 2 ^ 32) (kv : HTKeyValue V) :
    Returns (insertInto t kv) fun r =>
      r.1 = insertAnswer m kv ∧ Holds r.2 (m.insert kv.key kv.value) :=
  returns_insertInto_of_fits h kv fun _ => hlt

end AnySize

/-! ## Removing the entry an iterator is at -/

/-- `HTIteratorDelete`; the values are pointers, and compared as such. -/
def htIteratorDelete [DecidableEq V] (ht : HashTable V) (iter : HTIter) :
    AllocM (Answer V × HashTable V × HTIter) := do
  match ← htIteratorGet ht iter with
  | none => return (⟨0, none⟩, ht, iter)
  | some kv =>
    let (res, iter) ← htIteratorNext ht iter
    let retval : ℤ := if res = 0 then 2 else 1
    let (answer, ht) ← removeFromHashTable ht kv.key
    verify (answer.ret = 1)
    let keyvalue ← demand answer.keyvalue
    verify (kv.key = keyvalue.key)
    verify (kv.value = keyvalue.value)
    return (⟨retval, some keyvalue⟩, ht, iter)

/-- A list is split in one way only at an element whose `f` no other element has. -/
theorem split_unique {α β : Type} {f : α → β} {xs ys xs' ys' : List α} {a b : α}
    (hnodup : ((xs ++ a :: ys).map f).Nodup) (heq : xs ++ a :: ys = xs' ++ b :: ys')
    (hf : f a = f b) : xs = xs' ∧ a = b ∧ ys = ys' := by
  induction xs generalizing xs' with
  | nil =>
    cases xs' with
    | nil =>
      cases heq
      exact ⟨rfl, rfl, rfl⟩
    | cons x xs' =>
      cases heq
      simp [hf] at hnodup
  | cons x xs ih =>
    cases xs' with
    | nil =>
      cases heq
      simp [← hf] at hnodup
    | cons x' xs' =>
      obtain ⟨rfl, htail⟩ := List.cons.inj heq
      rw [List.cons_append, List.map_cons, List.nodup_cons] at hnodup
      obtain ⟨rfl, hab, hys⟩ := ih hnodup.2 htail
      exact ⟨rfl, hab, hys⟩

section Drain

variable {t : HashTable V} {cs l r : List (Chain V)} {xs ys : Chain V} {p : Ptr}
  {kv : HTKeyValue V} {m : FMap HTKey V}

theorem nodup_keys_of_represents (hm : Represents (pairs cs.flatten) m) :
    (cs.flatten.map fun e => e.2.key).Nodup := by
  have := hm.nodup
  rwa [pairs, List.map_map] at this

/-- The removal of an entry leaves the other chains and the rest of its own. -/
theorem returns_removeFromHashTable_entry (hcs : Chains t cs)
    (hm : Represents (pairs cs.flatten) m) (heq : cs = l ++ (xs ++ (p, kv) :: ys) :: r) :
    Returns (removeFromHashTable t kv.key) fun res =>
      res.1 = ⟨1, some kv⟩ ∧ Chains res.2 (l ++ (xs ++ ys) :: r) := by
  obtain ⟨l', r', c, chain, hf⟩ := hcs.focus kv.key
  have hchain : cs[l.length]? = some (xs ++ (p, kv) :: ys) := by
    rw [heq]
    simp
  have hplace : kv.key.toNat % t.numBuckets.toNat = l.length :=
    hcs.placed l.length _ hchain (p, kv) (by simp)
  have hsplit := hf.eq.symm.trans heq
  obtain ⟨rfl, htail⟩ := List.append_inj hsplit (hf.index.trans hplace)
  obtain ⟨rfl, rfl⟩ := List.cons.inj htail
  have hnodup : ((xs ++ (p, kv) :: ys).map fun e => e.2.key).Nodup := by
    have hall := nodup_keys_of_represents hm
    rw [heq, List.flatten_append, List.flatten_cons, List.map_append, List.map_append] at hall
    exact (List.nodup_append.1 (List.nodup_append.1 hall).2.1).1
  refine hf.returns_hashKeyToBucketNum.bind fun i hi => (hf.returns_bucket hi).bind_eq ?_
  refine (returns_findKVInHashTable hf.repr kv.key).bind fun location hfind => ?_
  cases location with
  | none => exact absurd rfl (hfind (p, kv) (by simp))
  | some it =>
    obtain ⟨xs', p', kv', ys', hc, hk, rfl⟩ := hfind
    obtain ⟨rfl, hpkv, rfl⟩ := split_unique hnodup hc hk.symm
    cases hpkv
    refine (LinkedList.returns_llIteratorGetPayload hf.repr).bind_eq ?_
    refine (LinkedList.returns_llIteratorDelete hf.repr).bind fun d hd => returns_pure ?_
    exact ⟨rfl, hf.remove hd.2.2.1 hi⟩

/-- An iterator that has moved past an entry does not notice its removal. -/
theorem IterAt.erase {it : HTIter} {e : Ptr × HTKeyValue V}
    (hit : IterAt (l ++ (xs ++ e :: ys) :: r) it (ys ++ r.flatten)) :
    IterAt (l ++ (xs ++ ys) :: r) it (ys ++ r.flatten) := by
  generalize hcs : l ++ (xs ++ e :: ys) :: r = cs at hit
  generalize hrest : ys ++ r.flatten = rest at hit
  cases hit with
  | pastEnd => exact .pastEnd
  | @within l₂ r₂ xs₂ ys₂ p₂ kv₂ i heq hi =>
    rw [heq] at hcs
    have hsame (hchain : xs ++ e :: ys = xs₂ ++ (p₂, kv₂) :: ys₂) (hr : r = r₂) (hl : l = l₂) :
        IterAt (l ++ (xs ++ ys) :: r) ⟨true, i, some ⟨some p₂⟩⟩ ((p₂, kv₂) :: ys₂ ++ r₂.flatten) := by
      -- the iterator is in the chain of the removed entry, behind it
      subst hr hl
      have hys : ys = (p₂, kv₂) :: ys₂ := List.append_cancel_right hrest
      exact .within (by rw [hys]) hi
    rcases List.append_eq_append_iff.1 hcs with ⟨between, hl, hr⟩ | ⟨between, hl, hr⟩
    · cases between with
      | nil =>
        obtain ⟨hchain, hr⟩ := List.cons.inj hr
        exact hsame hchain hr (by simpa using hl.symm)
      | cons c between =>
        obtain ⟨rfl, rfl⟩ := List.cons.inj hr
        have hcs' : l ++ (xs ++ ys) :: (between ++ (xs₂ ++ (p₂, kv₂) :: ys₂) :: r₂) =
            (l ++ (xs ++ ys) :: between) ++ (xs₂ ++ (p₂, kv₂) :: ys₂) :: r₂ := by simp
        exact .within hcs' (by simpa [hl] using hi)
    · cases between with
      | nil =>
        obtain ⟨hchain, hr⟩ := List.cons.inj hr
        exact hsame hchain.symm hr.symm (by simpa using hl)
      | cons c between =>
        -- what the iterator has left does not reach back to the removed entry
        obtain ⟨rfl, rfl⟩ := List.cons.inj hr
        have hlen := congrArg List.length hrest
        simp at hlen
        omega

/-- Deletion at an iterator that has passed the entries `seen`. -/
theorem returns_htIteratorDelete_after [DecidableEq V] {it : HTIter} {e : Ptr × HTKeyValue V}
    {seen rest : Chain V} (hcs : Chains t cs) (hm : Represents (pairs cs.flatten) m)
    (hit : IterAt cs it (e :: rest)) (hall : cs.flatten = seen ++ e :: rest) :
    Returns (htIteratorDelete t it) fun res =>
      res.1 = ⟨if rest = [] then 2 else 1, some e.2⟩ ∧
        ∃ cs', Chains res.2.1 cs' ∧ cs'.flatten = seen ++ rest ∧ IterAt cs' res.2.2 rest := by
  refine (returns_htIteratorGet hcs hit).bind_eq ?_
  refine (returns_htIteratorNext hcs hit).bind ?_
  rintro ⟨res, it'⟩ ⟨hres, hit'⟩
  generalize hgiven : e :: rest = given at hit hall
  cases hit with
  | pastEnd => cases hgiven
  | @within l r xs ys p kv i heq hi =>
    obtain ⟨rfl, rfl⟩ := List.cons.inj hgiven
    have hfirst : l.flatten ++ xs = seen := by
      have hwhole : (l.flatten ++ xs) ++ ((p, kv) :: ys ++ r.flatten) = cs.flatten := by
        rw [heq]
        simp
      exact List.append_cancel_right (hwhole.trans hall)
    have hretval : (if res = 0 then (2 : ℤ) else 1) = if ys ++ r.flatten = [] then 2 else 1 :=
      if_congr hres rfl rfl
    refine (returns_removeFromHashTable_entry hcs hm heq).bind ?_
    rintro ⟨answer, t'⟩ ⟨hanswer, hcs'⟩
    dsimp only at hanswer hcs' hit' ⊢
    rw [hanswer, hretval]
    refine (returns_verify rfl).bind fun _ _ => (returns_demand rfl).bind_eq ?_
    refine (returns_verify (decide_eq_true rfl)).bind fun _ _ => ?_
    refine (returns_verify (decide_eq_true rfl)).bind fun _ _ => returns_pure ⟨rfl, _, hcs', ?_, ?_⟩
    · rw [List.flatten_append, List.flatten_cons, List.append_assoc, ← List.append_assoc, hfirst]
      rfl
    · rw [heq] at hit'
      exact hit'.erase

theorem returns_htIteratorDelete [DecidableEq V] {it : HTIter} {e : Ptr × HTKeyValue V}
    {rest : Chain V} (hcs : Chains t cs) (hm : Represents (pairs cs.flatten) m)
    (hit : IterAt cs it (e :: rest)) (hall : cs.flatten = e :: rest) :
    Returns (htIteratorDelete t it) fun res => res.1.keyvalue = some e.2 ∧
      ∃ cs', Chains res.2.1 cs' ∧ cs'.flatten = rest ∧ IterAt cs' res.2.2 rest := by
  have hnone : cs.flatten = [] ++ e :: rest := hall
  refine (returns_htIteratorDelete_after hcs hm hit hnone).mono ?_
  rintro r ⟨hanswer, hrest⟩
  exact ⟨congrArg Answer.keyvalue hanswer, hrest⟩

end Drain

end Courses.SearchEngine
