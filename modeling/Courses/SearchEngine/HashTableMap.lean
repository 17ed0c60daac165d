import Courses.Lib.Assoc
import Courses.SearchEngine.HashTableChains

/-!
# The hash table refines a finite map

`Holds t m` connects a table with the finite map it stands for. Every call keeps
it and answers as the map does; a resize changes the table under the same map.
The session at the end runs a whole sequence of calls beside the map.
-/
namespace Courses.SearchEngine

open Courses.Lib Courses.Lib.AllocM

variable {V : Type}

/-- The entries of a chain as pairs. -/
def pairs (c : Chain V) : List (HTKey × V) := c.map fun e => (e.2.key, e.2.value)

/-- The table's entries, over all chains, are those of the map. -/
def Holds (t : HashTable V) (m : FMap HTKey V) : Prop :=
  ∃ cs, Chains t cs ∧ Represents (pairs cs.flatten) m

/-! ## The answers of a finite map -/

/-- 1 for a new key, 2 and the old entry for a key that was there. -/
def insertAnswer (m : FMap HTKey V) (kv : HTKeyValue V) : Answer V :=
  match m.lookup kv.key with
  | none => ⟨1, none⟩
  | some v => ⟨2, some ⟨kv.key, v⟩⟩

/-- 1 and the entry, or 0; the answer of a lookup and of a removal. -/
def lookupAnswer (m : FMap HTKey V) (key : HTKey) : Answer V :=
  match m.lookup key with
  | none => ⟨0, none⟩
  | some v => ⟨1, some ⟨key, v⟩⟩

theorem pairs_append (c d : Chain V) : pairs (c ++ d) = pairs c ++ pairs d :=
  List.map_append

theorem mem_keys_pairs {c : Chain V} {key : HTKey} :
    key ∈ (pairs c).map Prod.fst ↔ ∃ e ∈ c, e.2.key = key := by
  simp [pairs]

/-! ## One chain of the table -/

namespace Focus

variable {t : HashTable V} {cs l r : List (Chain V)} {key : HTKey} {c xs ys : Chain V}
  {chain : LinkedList (HTKeyValue V)} {m : FMap HTKey V} {p : Ptr} {kv : HTKeyValue V}

theorem pairs_flatten (h : Focus t cs key l r c chain) :
    pairs cs.flatten = pairs l.flatten ++ (pairs c ++ pairs r.flatten) := by
  rw [h.eq, List.flatten_append, List.flatten_cons, pairs_append, pairs_append]

/-- A search that finds nothing: the key is not in the map. -/
theorem not_mem (h : Focus t cs key l r c chain) (hfind : Finds c key none) :
    key ∉ (pairs cs.flatten).map Prod.fst := by
  intro hmem
  obtain ⟨e, he, hk⟩ := mem_keys_pairs.mp hmem
  rw [h.eq, List.flatten_append, List.flatten_cons, List.mem_append, List.mem_append] at he
  rcases he with he | he | he
  · exact h.others e (List.mem_append_left _ he) hk
  · exact hfind e he hk
  · exact h.others e (List.mem_append_right _ he) hk

/-- The table's entries around one entry of the chain. -/
theorem pairs_middle (h : Focus t cs key l r (xs ++ (p, kv) :: ys) chain) (hk : kv.key = key) :
    pairs cs.flatten = (pairs l.flatten ++ pairs xs) ++
      (key, kv.value) :: (pairs ys ++ pairs r.flatten) := by
  rw [h.pairs_flatten, pairs_append, ← hk]
  simp [pairs]

theorem lookup_middle (h : Focus t cs key l r (xs ++ (p, kv) :: ys) chain) (hk : kv.key = key)
    (hm : Represents (pairs cs.flatten) m) : m.lookup key = some kv.value := by
  rw [← hm.mem_iff, h.pairs_middle hk]
  simp

theorem count (h : Focus t cs key l r c chain) :
    t.numElements.toNat = l.flatten.length + c.length + r.flatten.length := by
  rw [h.chains.count, h.eq, List.flatten_append, List.flatten_cons, List.length_append,
    List.length_append, Nat.add_assoc]

/-- An entry with a new key at the end of the chain is a new entry of the map. -/
theorem append (h : Focus t cs key l r c chain) (hm : Represents (pairs cs.flatten) m)
    (hfind : Finds c key none) {chain' : LinkedList (HTKeyValue V)}
    (hrepr : chain'.Repr (c ++ [(p, kv)])) (hk : kv.key = key) {i : HWSize}
    (hi : i.toNat = l.length) {n : HWSize} (hn : n.toNat = t.numElements.toNat + 1) :
    Chains { t.setBucket i chain' with numElements := n } (l ++ (c ++ [(p, kv)]) :: r) ∧
      Represents (pairs (l ++ (c ++ [(p, kv)]) :: r).flatten) (m.insert kv.key kv.value) := by
  subst hk
  constructor
  · refine h.update hrepr (fun e he => ?_) hi ?_
    · rcases List.mem_append.mp he with he | he
      · exact Or.inr he
      · rw [List.mem_singleton.mp he]
        exact Or.inl rfl
    · rw [hn, h.count, List.flatten_append, List.flatten_cons, List.length_append,
        List.length_append, List.length_append, List.length_singleton]
      omega
  · have hnot := h.not_mem hfind
    rw [h.pairs_flatten, ← List.append_assoc] at hm hnot
    have hins := hm.insert hnot kv.value
    rw [List.flatten_append, List.flatten_cons, pairs_append, pairs_append, pairs_append]
    simpa [pairs] using hins

/-- Writing over the entry for a key replaces it in the map. -/
theorem overwrite {old : HTKeyValue V} (h : Focus t cs key l r (xs ++ (p, old) :: ys) chain)
    (hm : Represents (pairs cs.flatten) m) (hold : old.key = key)
    {chain' : LinkedList (HTKeyValue V)} (hrepr : chain'.Repr (xs ++ (p, kv) :: ys))
    (hk : kv.key = key) {i : HWSize} (hi : i.toNat = l.length) :
    Chains (t.setBucket i chain') (l ++ (xs ++ (p, kv) :: ys) :: r) ∧
      Represents (pairs (l ++ (xs ++ (p, kv) :: ys) :: r).flatten)
        (m.insert kv.key kv.value) := by
  subst hk
  constructor
  · refine h.update hrepr (fun e he => ?_) hi ?_
    · rcases List.mem_append.mp he with he | he
      · exact Or.inr (List.mem_append_left _ he)
      · rcases List.mem_cons.mp he with rfl | he
        · exact Or.inl rfl
        · exact Or.inr (List.mem_append_right _ (List.mem_cons_of_mem _ he))
    · refine h.count.trans ?_
      rw [List.flatten_append, List.flatten_cons, List.length_append, List.length_append,
        List.length_append, List.length_append, List.length_cons, List.length_cons]
      omega
  · rw [h.pairs_middle hold] at hm
    have hrep := hm.replace kv.value
    rw [List.flatten_append, List.flatten_cons, pairs_append, pairs_append, pairs_append]
    simpa [pairs] using hrep

/-- A chain that has lost one of its entries. -/
theorem remove (h : Focus t cs key l r (xs ++ (p, kv) :: ys) chain)
    {chain' : LinkedList (HTKeyValue V)} (hrepr : chain'.Repr (xs ++ ys)) {i : HWSize}
    (hi : i.toNat = l.length) :
    Chains { t.setBucket i chain' with numElements := t.numElements - 1 }
      (l ++ (xs ++ ys) :: r) := by
  refine h.update hrepr (fun e he => Or.inr ?_) hi ?_
  · exact (List.Sublist.append_left (List.sublist_cons_self _ _) _).subset he
  · have hcount := h.count
    rw [List.length_append, List.length_cons] at hcount
    have hle : (1 : HWSize) ≤ t.numElements := by
      rw [UInt32.le_iff_toNat_le, hcount, UInt32.toNat_one]
      omega
    rw [UInt32.toNat_sub_of_le _ _ hle, hcount, UInt32.toNat_one, List.flatten_append,
      List.flatten_cons, List.length_append, List.length_append, List.length_append]
    omega

end Focus

/-! ## The calls -/

section Calls

variable {t : HashTable V} {m : FMap HTKey V}

theorem Holds.numElements (h : Holds t m) : t.numElements.toNat = m.keys.card := by
  obtain ⟨cs, hcs, hm⟩ := h
  rw [hcs.count, ← hm.length_eq, pairs, List.length_map]

theorem returns_lookupHashTable (h : Holds t m) (key : HTKey) :
    Returns (lookupHashTable t key) (fun r => r = lookupAnswer m key) := by
  obtain ⟨cs, hcs, hm⟩ := h
  obtain ⟨l, r, c, chain, hf⟩ := hcs.focus key
  refine hf.returns_hashKeyToBucketNum.bind fun i hi => (hf.returns_bucket hi).bind_eq ?_
  refine (returns_findKVInHashTable hf.repr key).bind fun location hfind => ?_
  cases location with
  | none =>
    apply returns_pure
    rw [lookupAnswer, hm.lookup_eq_none (hf.not_mem hfind)]
  | some it =>
    obtain ⟨xs, p, kv, ys, rfl, hk, rfl⟩ := hfind
    refine (LinkedList.returns_llIteratorGetPayload hf.repr).bind_eq (returns_pure ?_)
    rw [lookupAnswer, hf.lookup_middle hk hm, ← hk]

theorem lookup_eq_of_lookupAnswer {m m' : FMap HTKey V} {key : HTKey}
    (h : lookupAnswer m key = lookupAnswer m' key) : m.lookup key = m'.lookup key := by
  unfold lookupAnswer at h
  cases hm : m.lookup key <;> cases hm' : m'.lookup key <;> simp_all

/-- A table determines the map it holds: lookups read it off. -/
theorem Holds.unique {m' : FMap HTKey V} (h : Holds t m) (h' : Holds t m') : m = m' := by
  apply Finmap.ext_lookup
  intro key
  obtain ⟨r, hr, hr'⟩ :=
    ((returns_lookupHashTable h key).and (returns_lookupHashTable h' key)).exists
  exact lookup_eq_of_lookupAnswer (hr.symm.trans hr')

theorem returns_removeFromHashTable (h : Holds t m) (key : HTKey) :
    Returns (removeFromHashTable t key) (fun r => r.1 = lookupAnswer m key ∧
      Holds r.2 (m.erase key) ∧ r.2.numBuckets = t.numBuckets) := by
  obtain ⟨cs, hcs, hm⟩ := h
  obtain ⟨l, r, c, chain, hf⟩ := hcs.focus key
  refine hf.returns_hashKeyToBucketNum.bind fun i hi => (hf.returns_bucket hi).bind_eq ?_
  refine (returns_findKVInHashTable hf.repr key).bind fun location hfind => ?_
  cases location with
  | none =>
    have hnone := hm.lookup_eq_none (hf.not_mem hfind)
    apply returns_pure
    rw [lookupAnswer, hnone, erase_eq_self hnone]
    exact ⟨rfl, ⟨cs, hcs, hm⟩, rfl⟩
  | some it =>
    obtain ⟨xs, p, kv, ys, rfl, hk, rfl⟩ := hfind
    refine (LinkedList.returns_llIteratorGetPayload hf.repr).bind_eq ?_
    refine (LinkedList.returns_llIteratorDelete hf.repr).bind fun d hd => returns_pure ?_
    refine ⟨?_, ⟨l ++ (xs ++ ys) :: r, hf.remove hd.2.2.1 hi, ?_⟩, rfl⟩
    · rw [lookupAnswer, hf.lookup_middle hk hm, ← hk]
    · rw [hf.pairs_middle hk] at hm
      have := hm.erase
      rw [List.flatten_append, List.flatten_cons, pairs_append, pairs_append, pairs_append]
      simpa using this

/-- Only a new key needs room for one more. -/
theorem returns_insertEntry_of_fits (h : Holds t m) (kv : HTKeyValue V)
    (hfits : m.lookup kv.key = none → m.keys.card + 1 < 2 ^ 32) :
    Returns (insertEntry t kv) (fun r => r.1 = insertAnswer m kv ∧
      Holds r.2 (m.insert kv.key kv.value) ∧ r.2.numBuckets = t.numBuckets) := by
  rw [← h.numElements] at hfits
  obtain ⟨cs, hcs, hm⟩ := h
  obtain ⟨l, r, c, chain, hf⟩ := hcs.focus kv.key
  have hcount := hf.count
  refine hf.returns_hashKeyToBucketNum.bind fun i hi => (hf.returns_bucket hi).bind_eq ?_
  refine (returns_findKVInHashTable hf.repr kv.key).bind fun location hfind => ?_
  cases location with
  | none =>
    have hnone := hm.lookup_eq_none (hf.not_mem hfind)
    have hlt := hfits hnone
    refine returns_malloc_bind ((returns_verify rfl).bind fun _ _ => ?_)
    have hlen : c.length + 1 < 2 ^ 32 := by omega
    refine (LinkedList.returns_appendLinkedList hf.repr hlen kv).bind fun d hd => returns_pure ?_
    have hnum : (t.numElements + 1).toNat = t.numElements.toNat + 1 := by
      rw [UInt32.toNat_add, UInt32.toNat_one, Nat.mod_eq_of_lt hlt]
    refine ⟨?_, ⟨_, hf.append hm hfind hd.2 rfl hi hnum⟩, rfl⟩
    rw [insertAnswer, hnone]
  | some it =>
    obtain ⟨xs, p, old, ys, rfl, hk, rfl⟩ := hfind
    refine (LinkedList.returns_llIteratorGetPayload hf.repr).bind_eq ?_
    refine (LinkedList.returns_setPayload hf.repr kv).bind fun d hd => returns_pure ?_
    refine ⟨?_, ⟨_, hf.overwrite hm hk hd rfl hi⟩, rfl⟩
    rw [insertAnswer, hf.lookup_middle hk hm, ← hk]

theorem returns_insertEntry (h : Holds t m) (hlt : m.keys.card + 1 < 2 ^ 32)
    (kv : HTKeyValue V) :
    Returns (insertEntry t kv) (fun r => r.1 = insertAnswer m kv ∧
      Holds r.2 (m.insert kv.key kv.value) ∧ r.2.numBuckets = t.numBuckets) :=
  returns_insertEntry_of_fits h kv fun _ => hlt

end Calls

/-! ## Growth -/

/-- The number of buckets after `ResizeHashtable` saw `count` elements, over the
naturals. -/
def grow (count buckets : ℕ) : ℕ := if count < 3 * buckets then buckets else 9 * buckets

theorem le_grow (count buckets : ℕ) : buckets ≤ grow count buckets := by
  rw [grow]
  split_ifs <;> omega

theorem returns_allocateBuckets (n : ℕ) :
    Returns (allocateBuckets (V := V) n) (fun r =>
      ∃ bls, r = some bls ∧ List.Forall₂ LinkedList.Repr bls (List.replicate n [])) := by
  induction n with
  | zero => exact returns_pure ⟨[], rfl, .nil⟩
  | succ n ih =>
    refine LinkedList.returns_allocateLinkedList.bind ?_
    rintro _ ⟨list, rfl, hlist⟩
    refine ih.bind ?_
    rintro _ ⟨bls, rfl, hbls⟩
    exact returns_pure ⟨list :: bls, rfl, .cons hlist hbls⟩

/-- A table of `n` empty chains. -/
theorem chains_allocated {n : HWSize} {bls : List (LinkedList (HTKeyValue V))}
    (h : List.Forall₂ LinkedList.Repr bls (List.replicate n.toNat [])) (hn : 0 < n.toNat) :
    Chains { numBuckets := n, numElements := 0, buckets := bls }
      (List.replicate n.toNat []) := by
  refine ⟨h, List.length_replicate, hn, fun i c hc e he => ?_, ?_⟩
  · rw [List.eq_of_mem_replicate (List.mem_of_getElem? hc)] at he
    exact absurd he List.not_mem_nil
  · rw [List.flatten_replicate_nil]
    rfl

theorem returns_allocateHashTable {n : HWSize} (hn : 0 < n.toNat) :
    Returns (allocateHashTable (V := V) n) (fun r =>
      ∃ t, r = some t ∧ Holds t ∅ ∧ t.numBuckets = n) := by
  have hne : n ≠ 0 := by
    rintro rfl
    exact lt_irrefl _ hn
  rw [allocateHashTable, if_neg hne]
  apply returns_malloc_bind
  apply returns_malloc_bind
  refine (returns_allocateBuckets n.toNat).bind ?_
  rintro _ ⟨bls, rfl, hbls⟩
  refine returns_pure ⟨_, rfl, ⟨_, chains_allocated hbls hn, ?_⟩, rfl⟩
  rw [List.flatten_replicate_nil]
  exact represents_nil

section Resize

variable {t : HashTable V} {m : FMap HTKey V}

/-- A table with room to spare is left as it is. -/
theorem returns_resizeHashtable_self
    (insert : HashTable V → HTKeyValue V → AllocM (Answer V × HashTable V))
    (hroom : t.numElements.toNat < 3 * t.numBuckets.toNat)
    (hsmall : 3 * t.numBuckets.toNat < 2 ^ 32) :
    Returns (resizeHashtable insert t) (fun r => r = t) := by
  have hlt : t.numElements < 3 * t.numBuckets := by
    rw [UInt32.lt_iff_toNat_lt, UInt32.toNat_mul, UInt32.toNat_ofNat, Nat.mod_eq_of_lt]
    · exact hroom
    · exact hsmall
  rw [resizeHashtable, if_pos hlt]
  exact returns_pure rfl

/-- Copying what the iterator has left: `done` is in the new table already, and the insertions
keep `J`. -/
theorem returns_rehash_keeping {cs : List (Chain V)} (hcs : Chains t cs)
    {insert : HashTable V → HTKeyValue V → AllocM (Answer V × HashTable V)}
    {J : HashTable V → Prop} {size : ℕ}
    (hinsert : ∀ t m kv, Holds t m → J t → m.keys.card < size → Returns (insert t kv) fun r =>
      r.1 = insertAnswer m kv ∧ Holds r.2 (m.insert kv.key kv.value) ∧ J r.2)
    (rest : Chain V) {it : HTIter} (hit : IterAt cs it rest) {done : List (HTKey × V)}
    {newht : HashTable V} {m' : FMap HTKey V} (hnew : Holds newht m') (hJ : J newht)
    (hdone : Represents done m') (hall : ((done ++ pairs rest).map Prod.fst).Nodup)
    (hsize : (done ++ pairs rest).length ≤ size) {n : ℕ} (hn : rest.length < n) :
    Returns (rehash insert t n it newht) fun r => r.1 = true ∧
      ∃ m'', Holds r.2 m'' ∧ Represents (done ++ pairs rest) m'' ∧ J r.2 := by
  induction rest generalizing it done newht m' n with
  | nil =>
    obtain _ | n := n
    · exact absurd hn (Nat.not_lt_zero _)
    · rw [rehash, htIteratorPastEnd_eq hit]
      exact returns_pure ⟨rfl, m', hnew, by simpa [pairs] using hdone, hJ⟩
  | cons e rest ih =>
    obtain _ | n := n
    · exact absurd hn (Nat.not_lt_zero _)
    · have happend : (done ++ [(e.2.key, e.2.value)]) ++ pairs rest = done ++ pairs (e :: rest) := by
        simp [pairs]
      have hkey : e.2.key ∉ done.map Prod.fst := by
        rw [List.map_append] at hall
        intro hmem
        exact (List.disjoint_of_nodup_append hall) hmem (by simp [pairs])
      have hcard : m'.keys.card < size := by
        rw [← hdone.length_eq]
        rw [← happend, List.length_append, List.length_append, List.length_singleton] at hsize
        omega
      rw [rehash, htIteratorPastEnd_eq hit]
      refine (returns_htIteratorGet hcs hit).bind_eq ((returns_verifySome rfl).bind_eq ?_)
      refine (hinsert newht m' e.2 hnew hJ hcard).bind ?_
      rintro ⟨answer, newht'⟩ ⟨hanswer, hholds, hJ'⟩
      have hret : ¬ answer.ret ≠ 1 := by
        dsimp only at hanswer
        rw [hanswer, insertAnswer, hdone.lookup_eq_none hkey]
        exact not_not.mpr rfl
      dsimp only
      rw [if_neg hret]
      refine (returns_htIteratorNext hcs hit).bind fun it' hit' => ?_
      have hdone' : Represents (done ++ [(e.2.key, e.2.value)]) (m'.insert e.2.key e.2.value) := by
        apply Represents.insert
        · simpa using hdone
        · simpa using hkey
      rw [← happend] at hall hsize ⊢
      exact ih hit'.2 hholds hJ' hdone' hall hsize (Nat.lt_of_succ_lt_succ hn)

/-- With room for all, the new table is not resized again. -/
theorem returns_rehash {cs : List (Chain V)} (hcs : Chains t cs) {fuel : ℕ} (rest : Chain V)
    {it : HTIter} (hit : IterAt cs it rest) {done : List (HTKey × V)} {newht : HashTable V}
    {m' : FMap HTKey V} (hnew : Holds newht m') (hdone : Represents done m')
    (hall : ((done ++ pairs rest).map Prod.fst).Nodup)
    (hroom : (done ++ pairs rest).length < 3 * newht.numBuckets.toNat)
    (hsmall : 3 * newht.numBuckets.toNat < 2 ^ 32) {n : ℕ} (hn : rest.length < n) :
    Returns (rehash (insertHashTable (fuel + 1)) t n it newht) (fun r => r.1 = true ∧
      ∃ m'', Holds r.2 m'' ∧ Represents (done ++ pairs rest) m'' ∧
        r.2.numBuckets = newht.numBuckets) := by
  refine returns_rehash_keeping (J := fun t => t.numBuckets = newht.numBuckets) hcs ?_ rest hit
    hnew rfl hdone hall hroom.le hn
  intro t m kv hholds hbuckets hcard
  rw [← hbuckets] at hsmall hcard ⊢
  exact (returns_resizeHashtable_self _ (hholds.numElements ▸ hcard) hsmall).bind_eq
    (returns_insertEntry hholds (by omega) kv)

theorem returns_resizeHashtable (h : Holds t m) {fuel : ℕ}
    (hload : m.keys.card ≤ 3 * t.numBuckets.toNat)
    (hsmall : 9 * grow m.keys.card t.numBuckets.toNat < 2 ^ 32) :
    Returns (resizeHashtable (insertHashTable (fuel + 1)) t) (fun r => Holds r m ∧
      r.numBuckets.toNat = grow m.keys.card t.numBuckets.toNat) := by
  have hnum := h.numElements
  rw [grow] at hsmall ⊢
  by_cases hroom : m.keys.card < 3 * t.numBuckets.toNat
  · rw [if_pos hroom] at hsmall ⊢
    refine (returns_resizeHashtable_self _ (hnum ▸ hroom) (by omega)).mono ?_
    rintro _ rfl
    exact ⟨h, rfl⟩
  · rw [if_neg hroom] at hsmall ⊢
    obtain ⟨cs, hcs, hm⟩ := h
    have hpos := hcs.pos
    have hlen : (pairs cs.flatten).length = m.keys.card := hm.length_eq
    have hnine : (t.numBuckets * 9).toNat = 9 * t.numBuckets.toNat := by
      rw [UInt32.toNat_mul, UInt32.toNat_ofNat, Nat.mod_eq_of_lt, Nat.mul_comm]
      change t.numBuckets.toNat * 9 < 2 ^ 32
      omega
    have hfull : ¬ t.numElements < 3 * t.numBuckets := by
      rw [UInt32.lt_iff_toNat_lt, UInt32.toNat_mul, UInt32.toNat_ofNat, Nat.mod_eq_of_lt, hnum]
      · exact hroom
      · change 3 * t.numBuckets.toNat < 2 ^ 32
        omega
    rw [resizeHashtable, if_neg hfull]
    refine (returns_allocateHashTable (by omega)).bind ?_
    rintro _ ⟨newht, rfl, hnew, hbuckets⟩
    refine (returns_hashTableMakeIterator hcs).bind ?_
    rintro _ ⟨it, rfl, hit⟩
    have hall : (([] ++ pairs cs.flatten).map Prod.fst).Nodup := hm.nodup
    have hspace : ([] ++ pairs cs.flatten).length < 3 * newht.numBuckets.toNat := by
      rw [List.nil_append, hlen, hbuckets, hnine]
      omega
    have hthree : 3 * newht.numBuckets.toNat < 2 ^ 32 := by
      rw [hbuckets, hnine]
      omega
    have hn : cs.flatten.length < t.numElements.toNat + 1 := by
      rw [hcs.count]
      exact Nat.lt_succ_self _
    refine (returns_rehash hcs _ hit hnew represents_nil hall hspace hthree hn).bind ?_
    rintro ⟨_, newht'⟩ ⟨rfl, m'', hholds, hrep, hbuckets'⟩
    refine (returns_freeHashTable hcs).bind fun _ _ => returns_pure ⟨?_, ?_⟩
    · rw [hm.unique hrep]
      exact hholds
    · dsimp only at hbuckets'
      rw [hbuckets', hbuckets, hnine]

end Resize

/-! ## Sequences of calls -/

inductive Call (V : Type) where
  | insert (kv : HTKeyValue V)
  | lookup (key : HTKey)
  | remove (key : HTKey)
  | numElements

/-- One call on the table. -/
def call (fuel : ℕ) (t : HashTable V) : Call V → AllocM (Answer V × HashTable V)
  | .insert kv => insertHashTable fuel t kv
  | .lookup key => do return (← lookupHashTable t key, t)
  | .remove key => removeFromHashTable t key
  | .numElements => return (⟨numElementsInHashTable t |>.toNat, none⟩, t)

/-- The answers of a sequence of calls, and the table after it. -/
def session (fuel : ℕ) (t : HashTable V) : List (Call V) → AllocM (List (Answer V) × HashTable V)
  | [] => return ([], t)
  | c :: cs => do
    let (answer, t) ← call fuel t c
    let (answers, t) ← session fuel t cs
    return (answer :: answers, t)

/-- The same call on a finite map. -/
def mapCall (m : FMap HTKey V) : Call V → Answer V × FMap HTKey V
  | .insert kv => (insertAnswer m kv, m.insert kv.key kv.value)
  | .lookup key => (lookupAnswer m key, m)
  | .remove key => (lookupAnswer m key, m.erase key)
  | .numElements => (⟨m.keys.card, none⟩, m)

def mapSession (m : FMap HTKey V) : List (Call V) → List (Answer V)
  | [] => []
  | c :: cs => (mapCall m c).1 :: mapSession (mapCall m c).2 cs

/-- The bucket count after one call, over the naturals: only an insert grows it. -/
def bucketsAfterCall (buckets : ℕ) (m : FMap HTKey V) : Call V → ℕ
  | .insert _ => grow m.keys.card buckets
  | _ => buckets

/-- The bucket count the table has after a sequence of calls, over the naturals. -/
def bucketsAfter (buckets : ℕ) (m : FMap HTKey V) : List (Call V) → ℕ
  | [] => buckets
  | c :: cs => bucketsAfter (bucketsAfterCall buckets m c) (mapCall m c).2 cs

theorem le_bucketsAfterCall (buckets : ℕ) (m : FMap HTKey V) (c : Call V) :
    buckets ≤ bucketsAfterCall buckets m c := by
  cases c with
  | insert kv => exact le_grow _ _
  | lookup key => exact le_rfl
  | remove key => exact le_rfl
  | numElements => exact le_rfl

theorem le_bucketsAfter (cs : List (Call V)) (buckets : ℕ) (m : FMap HTKey V) :
    buckets ≤ bucketsAfter buckets m cs := by
  induction cs generalizing buckets m with
  | nil => exact le_rfl
  | cons c cs ih => exact (le_bucketsAfterCall buckets m c).trans (ih _ _)

/-- What every call keeps: the table holds the map, has the expected number of
buckets and no more than three elements for each. -/
structure Refines (t : HashTable V) (m : FMap HTKey V) (buckets : ℕ) : Prop where
  holds : Holds t m
  numBuckets : t.numBuckets.toNat = buckets
  load : m.keys.card ≤ 3 * buckets

theorem card_keys_insert_le (m : FMap HTKey V) (kv : HTKeyValue V) :
    (m.insert kv.key kv.value).keys.card ≤ m.keys.card + 1 := by
  rw [keys_insert]
  exact Finset.card_insert_le _ _

theorem Refines.returns_insert {t : HashTable V} {m : FMap HTKey V} {buckets fuel : ℕ}
    (h : Refines t m buckets) (kv : HTKeyValue V)
    (hsmall : 9 * grow m.keys.card buckets < 2 ^ 32) :
    Returns (insertHashTable (fuel + 2) t kv) (fun r => r.1 = insertAnswer m kv ∧
      Refines r.2 (m.insert kv.key kv.value) (grow m.keys.card buckets)) := by
  have hload := h.load
  have hgrow : m.keys.card + 1 ≤ 3 * grow m.keys.card buckets := by
    have hpos : 0 < buckets := by
      obtain ⟨cs, hcs, -⟩ := h.holds
      exact h.numBuckets ▸ hcs.pos
    rw [grow]
    split_ifs <;> omega
  rw [← h.numBuckets] at hload hsmall hgrow ⊢
  refine (returns_resizeHashtable h.holds hload hsmall).bind ?_
  rintro t' ⟨hholds, hbuckets⟩
  refine (returns_insertEntry hholds (by omega) kv).mono ?_
  rintro ⟨answer, t''⟩ ⟨hanswer, hholds', hnum⟩
  refine ⟨hanswer, hholds', (congrArg UInt32.toNat hnum).trans hbuckets, ?_⟩
  exact (card_keys_insert_le m kv).trans hgrow

/-- Each call keeps the refinement and answers as the map does. -/
theorem Refines.returns_call {t : HashTable V} {m : FMap HTKey V} {buckets fuel : ℕ}
    (h : Refines t m buckets) (c : Call V)
    (hsmall : 9 * bucketsAfterCall buckets m c < 2 ^ 32) :
    Returns (call (fuel + 2) t c) (fun r => r.1 = (mapCall m c).1 ∧
      Refines r.2 (mapCall m c).2 (bucketsAfterCall buckets m c)) := by
  cases c with
  | insert kv => exact h.returns_insert kv hsmall
  | lookup key =>
    exact (returns_lookupHashTable h.holds key).bind_eq (returns_pure ⟨rfl, h⟩)
  | remove key =>
    refine (returns_removeFromHashTable h.holds key).mono ?_
    rintro ⟨answer, t'⟩ ⟨hanswer, hholds, hnum⟩
    refine ⟨hanswer, hholds, (congrArg UInt32.toNat hnum).trans h.numBuckets, ?_⟩
    refine le_trans ?_ h.load
    change (m.erase key).keys.card ≤ _
    rw [Finmap.keys_erase]
    exact Finset.card_erase_le
  | numElements =>
    refine returns_pure ⟨?_, h⟩
    change Answer.mk _ _ = Answer.mk _ _
    rw [numElementsInHashTable, h.holds.numElements]

theorem Refines.returns_session {t : HashTable V} {m : FMap HTKey V} {buckets fuel : ℕ}
    (calls : List (Call V)) (h : Refines t m buckets)
    (hsmall : 9 * bucketsAfter buckets m calls < 2 ^ 32) :
    Returns (session (fuel + 2) t calls) (fun r => r.1 = mapSession m calls ∧
      r.2.numBuckets.toNat = bucketsAfter buckets m calls) := by
  induction calls generalizing t m buckets with
  | nil => exact returns_pure ⟨rfl, h.numBuckets⟩
  | cons c cs ih =>
    have hle := le_bucketsAfter cs (bucketsAfterCall buckets m c) (mapCall m c).2
    rw [bucketsAfter] at hsmall
    refine (h.returns_call c (by omega)).bind ?_
    rintro ⟨answer, t'⟩ ⟨hanswer, hrefines⟩
    refine (ih hrefines hsmall).bind ?_
    rintro ⟨answers, t''⟩ ⟨hanswers, hbuckets⟩
    refine returns_pure ⟨?_, hbuckets⟩
    dsimp only at hanswer hanswers ⊢
    rw [hanswer, hanswers, mapSession]

/-- A table from `AllocateHashTable` on which the calls are made. -/
def allocatedSession (fuel : ℕ) (n : HWSize) (calls : List (Call V)) :
    AllocM (List (Answer V) × HashTable V) := do
  let t ← verifySome (← allocateHashTable n)
  session fuel t calls

/-- With memory available and nine times the bucket count below `2 ^ 32`, every
sequence of calls on a new table returns, answers exactly as a finite map does,
and leaves the expected number of buckets: two levels of nesting are enough, for
an insert made by a resize never resizes. -/
theorem hashTable_refines_finmap (n : HWSize) (hn : 1 ≤ n) (calls : List (Call V)) (fuel : ℕ)
    (hfuel : 2 ≤ fuel) (hsmall : 9 * bucketsAfter n.toNat (∅ : FMap HTKey V) calls < 2 ^ 32) :
    Returns (allocatedSession fuel n calls) (fun r =>
      r.1 = mapSession ∅ calls ∧
        r.2.numBuckets.toNat = bucketsAfter n.toNat (∅ : FMap HTKey V) calls) := by
  obtain ⟨fuel, rfl⟩ := Nat.exists_eq_add_of_le' hfuel
  have hpos : 0 < n.toNat := UInt32.le_iff_toNat_le.mp hn
  refine (returns_allocateHashTable hpos).bind ?_
  rintro _ ⟨t, rfl, hholds, hbuckets⟩
  refine (returns_verifySome rfl).bind_eq (Refines.returns_session calls ?_ hsmall)
  exact ⟨hholds, congrArg UInt32.toNat hbuckets, Nat.zero_le _⟩

/-- Five inserts into a table of one bucket, the fourth of which makes it grow, and
then calls of each kind. -/
theorem hashTable_refines_finmap_growing :
    Returns (allocatedSession 2 1 [.insert ⟨1, 10⟩, .insert ⟨10, 11⟩, .insert ⟨19, 12⟩,
        .insert ⟨2, 13⟩, .insert ⟨10, 14⟩, .remove 1, .lookup 1, .lookup 10, .numElements])
      (fun r => r.1 = [⟨1, none⟩, ⟨1, none⟩, ⟨1, none⟩, ⟨1, none⟩, ⟨2, some ⟨10, 11⟩⟩,
          ⟨1, some ⟨1, 10⟩⟩, ⟨0, none⟩, ⟨1, some ⟨10, 14⟩⟩, ⟨3, none⟩] ∧
        r.2.numBuckets.toNat = 9) := by
  have h := hashTable_refines_finmap (V := ℕ) 1 (by decide) [.insert ⟨1, 10⟩, .insert ⟨10, 11⟩,
    .insert ⟨19, 12⟩, .insert ⟨2, 13⟩, .insert ⟨10, 14⟩, .remove 1, .lookup 1, .lookup 10,
    .numElements] 2 (by decide) (by decide +kernel)
  refine h.mono ?_
  rintro ⟨answers, t⟩ ⟨hanswers, hbuckets⟩
  exact ⟨hanswers.trans (by decide +kernel), hbuckets.trans (by decide +kernel)⟩

end Courses.SearchEngine
