import Mathlib.Data.List.Forall2
import Courses.SearchEngine.HashTable

/-!
# The chains of a hash table

`Chains t cs` reads a table as the list of its chains: each bucket holds its
chain, every entry sits in the bucket its key hashes to, and the counter is the
number of entries. Searching for a key and walking an iterator are specified
against the chains.
-/
namespace Courses.SearchEngine

open Courses.Lib Courses.Lib.AllocM

variable {V : Type}

/-- The nodes of one chain, with their addresses. -/
abbrev Chain (V : Type) := List (Ptr × HTKeyValue V)

structure Chains (t : HashTable V) (cs : List (Chain V)) : Prop where
  buckets : List.Forall₂ LinkedList.Repr t.buckets cs
  length : cs.length = t.numBuckets.toNat
  pos : 0 < t.numBuckets.toNat
  placed : ∀ i c, cs[i]? = some c → ∀ e ∈ c, e.2.key.toNat % t.numBuckets.toNat = i
  count : t.numElements.toNat = cs.flatten.length

/-- The bucket for `key` singled out: its chain, its list and what lies around them. -/
structure Focus (t : HashTable V) (cs : List (Chain V)) (key : HTKey) (l r : List (Chain V))
    (c : Chain V) (chain : LinkedList (HTKeyValue V)) : Prop where
  chains : Chains t cs
  eq : cs = l ++ c :: r
  index : l.length = key.toNat % t.numBuckets.toNat
  get : t.buckets[l.length]? = some chain
  repr : chain.Repr c
  /-- The key can only be in its own chain. -/
  others : ∀ e ∈ l.flatten ++ r.flatten, e.2.key ≠ key

/-- Two related lists split at the same place. -/
theorem forall₂_split {α β : Type} {R : α → β → Prop} {as : List α} {bs : List β}
    (h : List.Forall₂ R as bs) (l : List β) (b : β) (r : List β) (hb : bs = l ++ b :: r) :
    ∃ l' a r', as = l' ++ a :: r' ∧ l'.length = l.length ∧
      List.Forall₂ R l' l ∧ R a b ∧ List.Forall₂ R r' r := by
  induction h generalizing l with
  | nil => simp at hb
  | @cons x y xs ys hxy hrest ih =>
    cases l with
    | nil =>
      obtain ⟨rfl, rfl⟩ := List.cons.inj hb
      exact ⟨[], x, xs, rfl, rfl, .nil, hxy, hrest⟩
    | cons z zs =>
      obtain ⟨rfl, hys⟩ := List.cons.inj hb
      obtain ⟨l', a, r', rfl, hlen, hl, ha, hr⟩ := ih zs hys
      exact ⟨x :: l', a, r', rfl, by simp [hlen], .cons hxy hl, ha, hr⟩

namespace Chains

variable {t : HashTable V} {cs : List (Chain V)}

/-- Every entry to the left or right of a bucket hashes elsewhere. -/
theorem key_ne_of_others (h : Chains t cs) {l r : List (Chain V)} {c : Chain V}
    (hcs : cs = l ++ c :: r) {e : Ptr × HTKeyValue V} (he : e ∈ l.flatten ++ r.flatten) :
    e.2.key.toNat % t.numBuckets.toNat ≠ l.length := by
  rw [List.mem_append, List.mem_flatten, List.mem_flatten] at he
  rcases he with ⟨c', hc', hec⟩ | ⟨c', hc', hec⟩
  · obtain ⟨i, hi, hget⟩ := List.getElem_of_mem hc'
    have hcsi : cs[i]? = some c' := by
      rw [hcs, List.getElem?_append_left hi, List.getElem?_eq_getElem hi, hget]
    rw [h.placed i c' hcsi e hec]
    omega
  · obtain ⟨i, hi, hget⟩ := List.getElem_of_mem hc'
    have hcsi : cs[l.length + (i + 1)]? = some c' := by
      rw [hcs, List.getElem?_append_right (by omega), Nat.add_sub_cancel_left,
        List.getElem?_cons_succ, List.getElem?_eq_getElem hi, hget]
    rw [h.placed _ c' hcsi e hec]
    omega

/-- The list a chain is held in, by position. -/
theorem getElem?_buckets (h : Chains t cs) {l r : List (Chain V)} {c : Chain V}
    (hcs : cs = l ++ c :: r) :
    ∃ chain, t.buckets[l.length]? = some chain ∧ chain.Repr c := by
  obtain ⟨l', chain, r', hbuckets, hlen, -, hrepr, -⟩ := forall₂_split h.buckets l c r hcs
  refine ⟨chain, ?_, hrepr⟩
  rw [hbuckets, ← hlen, List.getElem?_append_right le_rfl, Nat.sub_self, List.getElem?_cons_zero]

theorem focus (h : Chains t cs) (key : HTKey) : ∃ l r c chain, Focus t cs key l r c chain := by
  have hi : key.toNat % t.numBuckets.toNat < cs.length := by
    rw [h.length]
    exact Nat.mod_lt _ h.pos
  set i := key.toNat % t.numBuckets.toNat with hidef
  have hcs : cs = cs.take i ++ cs[i] :: cs.drop (i + 1) := by
    rw [← List.drop_eq_getElem_cons hi, List.take_append_drop]
  have hlen : (cs.take i).length = i := List.length_take_of_le hi.le
  obtain ⟨chain, hget, hrepr⟩ := h.getElem?_buckets hcs
  refine ⟨_, _, _, chain, h, hcs, hlen, hget, hrepr, fun e he hkey => ?_⟩
  apply h.key_ne_of_others hcs he
  rw [hkey, hlen]

end Chains

namespace Focus

variable {t : HashTable V} {cs l r : List (Chain V)} {key : HTKey} {c c' : Chain V}
  {chain chain' : LinkedList (HTKeyValue V)}

theorem length_lt (h : Focus t cs key l r c chain) : l.length < t.numBuckets.toNat := by
  rw [h.index]
  exact Nat.mod_lt _ h.chains.pos

theorem returns_hashKeyToBucketNum (h : Focus t cs key l r c chain) :
    Returns (hashKeyToBucketNum t key) (fun i => i.toNat = l.length) := by
  have hpos := h.chains.pos
  have hlt := t.numBuckets.toNat_lt
  have hne : t.numBuckets ≠ 0 := by
    rw [Ne, ← UInt32.toNat_inj, UInt32.toNat_zero]
    omega
  rw [hashKeyToBucketNum, if_neg hne]
  apply returns_pure
  have hmod := Nat.mod_lt key.toNat hpos
  rw [UInt64.toNat_toUInt32, UInt64.toNat_mod, UInt32.toNat_toUInt64, h.index]
  exact Nat.mod_eq_of_lt (hmod.trans hlt)

theorem returns_bucket (h : Focus t cs key l r c chain) {i : HWSize} (hi : i.toNat = l.length) :
    Returns (t.bucket i) (fun b => b = chain) :=
  returns_demand (hi ▸ h.get)

/-- The table after one of its chains has changed. -/
theorem update (h : Focus t cs key l r c chain) (hrepr : chain'.Repr c')
    (hkeys : ∀ e ∈ c', e.2.key = key ∨ e ∈ c) {i : HWSize} (hi : i.toNat = l.length)
    {n : HWSize} (hn : n.toNat = (l ++ c' :: r).flatten.length) :
    Chains { t.setBucket i chain' with numElements := n } (l ++ c' :: r) := by
  have hcs := h.chains
  obtain ⟨l', a, r', hbuckets, hlen, hl, -, hr⟩ := forall₂_split hcs.buckets l c r h.eq
  refine ⟨?_, ?_, hcs.pos, ?_, hn⟩
  · change List.Forall₂ _ (t.buckets.set i.toNat chain') _
    rw [hbuckets, hi, ← hlen, List.set_append_right _ _ le_rfl, Nat.sub_self, List.set_cons_zero]
    exact List.rel_append hl (.cons hrepr hr)
  · refine Eq.trans ?_ hcs.length
    rw [h.eq]
    simp
  · intro j d hj e he
    change e.2.key.toNat % t.numBuckets.toNat = j
    have hold : (l ++ c :: r)[l.length]? = some c := by simp
    by_cases hjl : j = l.length
    · have hd : c' = d := by simpa [hjl] using hj
      subst hd hjl
      rcases hkeys e he with hk | hmem
      · rw [hk, h.index]
      · exact hcs.placed _ c (h.eq ▸ hold) e hmem
    · apply hcs.placed j d _ e he
      rw [h.eq]
      rcases Nat.lt_or_gt_of_ne hjl with hlt | hgt
      · rwa [List.getElem?_append_left hlt] at hj ⊢
      · obtain ⟨k, rfl⟩ := Nat.exists_eq_add_of_lt hgt
        rw [List.getElem?_append_right (by omega)] at hj ⊢
        rwa [show l.length + k + 1 - l.length = k + 1 by omega, List.getElem?_cons_succ] at hj ⊢

end Focus

/-! ## Searching a chain -/

section Find

variable {list : LinkedList (HTKeyValue V)} {c : Chain V} {key : HTKey}

/-- What a search answers: NULL when no entry has the key, else an iterator at the
first one that has. -/
def Finds (c : Chain V) (key : HTKey) : Option LLIter → Prop
  | none => ∀ e ∈ c, e.2.key ≠ key
  | some it => ∃ xs p kv ys, c = xs ++ (p, kv) :: ys ∧ kv.key = key ∧ it = ⟨some p⟩

theorem returns_findKVLoop (suf : Chain V) (pre : Chain V) {p : Ptr} {kv : HTKeyValue V}
    (h : list.Repr (pre ++ (p, kv) :: suf)) (hpre : ∀ e ∈ pre, e.2.key ≠ key) {fuel : ℕ}
    (hfuel : suf.length < fuel) :
    Returns (findKVLoop list key fuel ⟨some p⟩) (Finds (pre ++ (p, kv) :: suf) key) := by
  induction suf generalizing pre p kv fuel with
  | nil =>
    obtain _ | fuel := fuel
    · exact absurd hfuel (Nat.not_lt_zero _)
    refine (LinkedList.returns_llIteratorGetPayload h).bind_eq ?_
    by_cases hk : kv.key = key
    · rw [if_pos hk]
      exact returns_pure ⟨pre, p, kv, [], rfl, hk, rfl⟩
    · rw [if_neg hk]
      refine (LinkedList.returns_llIteratorNext h).bind_eq (returns_pure fun e he => ?_)
      rcases List.mem_append.mp he with he | he
      · exact hpre e he
      · rw [List.mem_singleton.mp he]
        exact hk
  | cons y suf ih =>
    obtain _ | fuel := fuel
    · exact absurd hfuel (Nat.not_lt_zero _)
    obtain ⟨q, kv'⟩ := y
    refine (LinkedList.returns_llIteratorGetPayload h).bind_eq ?_
    by_cases hk : kv.key = key
    · rw [if_pos hk]
      exact returns_pure ⟨pre, p, kv, _, rfl, hk, rfl⟩
    · rw [if_neg hk]
      refine (LinkedList.returns_llIteratorNext h).bind_eq ?_
      have hassoc : pre ++ (p, kv) :: (q, kv') :: suf = (pre ++ [(p, kv)]) ++ (q, kv') :: suf := by
        simp
      rw [hassoc] at h ⊢
      refine ih (pre ++ [(p, kv)]) h ?_ (Nat.lt_of_succ_lt_succ hfuel)
      intro e he
      rcases List.mem_append.mp he with he | he
      · exact hpre e he
      · rw [List.mem_singleton.mp he]
        exact hk

theorem returns_findKVInHashTable (h : list.Repr c) (key : HTKey) :
    Returns (findKVInHashTable list key) (Finds c key) := by
  by_cases hne : c = []
  · subst hne
    rw [findKVInHashTable, if_pos (h.numElementsInLinkedList_eq_zero.mpr rfl)]
    exact returns_pure fun e he => absurd he (List.not_mem_nil)
  · rw [findKVInHashTable, if_neg (mt h.numElementsInLinkedList_eq_zero.mp hne)]
    refine (LinkedList.returns_llMakeIterator h hne).bind_eq ((returns_verifySome rfl).bind_eq ?_)
    obtain ⟨⟨p, kv⟩, suf, rfl⟩ := List.exists_cons_of_ne_nil hne
    refine returns_findKVLoop suf [] h (fun e he => absurd he (List.not_mem_nil)) ?_
    rw [h.numElements, List.length_cons]
    exact Nat.lt_succ_self _

end Find

/-! ## Release -/

theorem returns_drainChain {list : LinkedList (HTKeyValue V)} {c : Chain V} (h : list.Repr c)
    {fuel : ℕ} (hfuel : c.length < fuel) : Returns (drainChain fuel list) (fun _ => True) := by
  induction c generalizing list fuel with
  | nil =>
    obtain _ | fuel := fuel
    · exact absurd hfuel (Nat.not_lt_zero _)
    have hnum : ¬ numElementsInLinkedList list > 0 := by
      rw [h.numElementsInLinkedList_eq_zero.mpr rfl]
      decide
    rw [drainChain, if_neg hnum]
    exact returns_pure trivial
  | cons e c ih =>
    obtain _ | fuel := fuel
    · exact absurd hfuel (Nat.not_lt_zero _)
    have hnum : numElementsInLinkedList list > 0 := by
      rw [gt_iff_lt, UInt32.lt_iff_toNat_lt, numElementsInLinkedList, h.numElements]
      exact Nat.succ_pos _
    rw [drainChain, if_pos hnum]
    refine (LinkedList.returns_popLinkedList h).bind ?_
    rintro ⟨_, list'⟩ ⟨rfl, h'⟩
    exact (returns_verifySome rfl).bind_eq (ih h' (Nat.lt_of_succ_lt_succ hfuel))

theorem returns_freeBuckets {bls : List (LinkedList (HTKeyValue V))} {cs : List (Chain V)}
    (h : List.Forall₂ LinkedList.Repr bls cs) : Returns (freeBuckets bls) (fun _ => True) := by
  induction h with
  | nil => exact returns_pure trivial
  | cons hrepr _ ih =>
    refine (returns_drainChain hrepr ?_).bind fun _ _ => ih
    rw [hrepr.numElements]
    exact Nat.lt_succ_self _

theorem returns_freeHashTable {t : HashTable V} {cs : List (Chain V)} (h : Chains t cs) :
    Returns (freeHashTable t) (fun _ => True) :=
  returns_freeBuckets h.buckets

/-! ## Iterators -/

/-- The iterator has exactly `rest` left to visit. -/
inductive IterAt (cs : List (Chain V)) : HTIter → Chain V → Prop
  | pastEnd {i : HWSize} {it : Option LLIter} : IterAt cs ⟨false, i, it⟩ []
  | within {l r : List (Chain V)} {xs ys : Chain V} {p : Ptr} {kv : HTKeyValue V} {i : HWSize} :
      cs = l ++ (xs ++ (p, kv) :: ys) :: r → i.toNat = l.length →
        IterAt cs ⟨true, i, some ⟨some p⟩⟩ ((p, kv) :: ys ++ r.flatten)

/-- Where a scan stops: at the end, or at a chain that is not empty. -/
inductive ScanStop (l : List (Chain V)) : List (Chain V) → HWSize → Prop
  | atEnd {r : List (Chain V)} {i : HWSize} :
      r.flatten = [] → i.toNat = (l ++ r).length → ScanStop l r i
  | atChain {e r : List (Chain V)} {c : Chain V} {i : HWSize} :
      e.flatten = [] → c ≠ [] → i.toNat = (l ++ e).length → ScanStop l (e ++ c :: r) i

section Iterators

variable {t : HashTable V} {cs : List (Chain V)}

theorem Chains.returns_bucket (h : Chains t cs) {l r : List (Chain V)} {c : Chain V}
    (hcs : cs = l ++ c :: r) {i : HWSize} (hi : i.toNat = l.length) :
    Returns (t.bucket i) (fun list => list.Repr c) := by
  obtain ⟨list, hget, hrepr⟩ := h.getElem?_buckets hcs
  refine (returns_demand (hi ▸ hget)).mono ?_
  rintro _ rfl
  exact hrepr

theorem Chains.lt_numBuckets (h : Chains t cs) (i : HWSize) :
    i < t.numBuckets ↔ i.toNat < cs.length := by
  rw [UInt32.lt_iff_toNat_lt, h.length]

theorem ScanStop.skip {l r : List (Chain V)} {i : HWSize} (h : ScanStop (l ++ [[]]) r i) :
    ScanStop l ([] :: r) i := by
  cases h with
  | atEnd hr hi => exact .atEnd (by simpa using hr) (by simpa using hi)
  | @atChain e r c _ he hc hi =>
    exact .atChain (e := [] :: e) (by simpa using he) hc (by simpa using hi)

theorem returns_scanBuckets (h : Chains t cs) (r l : List (Chain V)) (hcs : cs = l ++ r)
    {i : HWSize} (hi : i.toNat = l.length) {fuel : ℕ} (hfuel : r.length < fuel) :
    Returns (scanBuckets t fuel i) (ScanStop l r) := by
  induction r generalizing l i fuel with
  | nil =>
    obtain _ | fuel := fuel
    · exact absurd hfuel (Nat.not_lt_zero _)
    · have hend : ¬ i < t.numBuckets := by
        rw [h.lt_numBuckets, hcs]
        simp [hi]
      rw [scanBuckets, if_neg hend]
      exact returns_pure (.atEnd rfl (by simpa using hi))
  | cons c r ih =>
    obtain _ | fuel := fuel
    · exact absurd hfuel (Nat.not_lt_zero _)
    · have hlt : i < t.numBuckets := by
        rw [h.lt_numBuckets, hcs]
        simp [hi]
      rw [scanBuckets, if_pos hlt]
      refine (h.returns_bucket hcs hi).bind fun list hrepr => ?_
      by_cases hc : c = []
      · subst hc
        rw [if_neg (not_not.mpr (hrepr.numElementsInLinkedList_eq_zero.mpr rfl))]
        have hsucc : (i + 1).toNat = (l ++ [[]]).length := by
          have := t.numBuckets.toNat_lt
          have := UInt32.lt_iff_toNat_lt.mp hlt
          rw [UInt32.toNat_add, UInt32.toNat_one, Nat.mod_eq_of_lt (by omega), hi]
          simp
        have hcs' : cs = (l ++ [[]]) ++ r := by simpa using hcs
        exact (ih _ hcs' hsucc (Nat.lt_of_succ_lt_succ hfuel)).mono fun _ hs => hs.skip
      · rw [if_pos (mt hrepr.numElementsInLinkedList_eq_zero.mp hc)]
        exact returns_pure (.atChain (e := []) rfl hc (by simpa using hi))

/-- The scan that goes on from the bucket after bucket `i`. -/
theorem Chains.returns_scanNext (h : Chains t cs) {l r : List (Chain V)} {c : Chain V}
    (hcs : cs = l ++ c :: r) {i : HWSize} (hi : i.toNat = l.length) :
    Returns (scanBuckets t (t.numBuckets.toNat + 1) (i + 1)) (ScanStop (l ++ [c]) r) := by
  have hlen : cs.length = l.length + 1 + r.length := by
    rw [hcs, List.length_append, List.length_cons]
    omega
  have hnum := h.length
  have hsucc : (i + 1).toNat = (l ++ [c]).length := by
    have := t.numBuckets.toNat_lt
    rw [List.length_append, List.length_singleton, UInt32.toNat_add, UInt32.toNat_one,
      Nat.mod_eq_of_lt (by omega), hi]
  have hcs' : cs = (l ++ [c]) ++ r := by simpa using hcs
  exact returns_scanBuckets h r _ hcs' hsucc (by omega)

/-- An iterator made at the head of a chain has the chain and what follows it left. -/
theorem returns_enterChain {l r : List (Chain V)} {c : Chain V}
    (hcs : cs = l ++ c :: r) (hne : c ≠ []) {i : HWSize} (hi : i.toNat = l.length)
    {list : LinkedList (HTKeyValue V)} (hrepr : list.Repr c) :
    Returns (llMakeIterator list 0) (fun it => it ≠ none ∧
      IterAt cs ⟨true, i, it⟩ (c ++ r.flatten)) := by
  refine (LinkedList.returns_llMakeIterator hrepr hne).mono ?_
  rintro _ rfl
  obtain ⟨⟨p, kv⟩, ys, rfl⟩ := List.exists_cons_of_ne_nil hne
  exact ⟨Option.some_ne_none _, @IterAt.within _ _ _ _ [] _ _ _ _ hcs hi⟩

theorem returns_hashTableMakeIterator (h : Chains t cs) :
    Returns (hashTableMakeIterator t) (fun r => ∃ it, r = some it ∧ IterAt cs it cs.flatten) := by
  apply returns_malloc_bind
  rw [if_pos rfl]
  by_cases hn : t.numElements = 0
  · rw [if_pos hn]
    have hnil : cs.flatten = [] := by
      apply List.length_eq_zero_iff.mp
      rw [← h.count, hn, UInt32.toNat_zero]
    exact returns_pure ⟨_, rfl, hnil ▸ .pastEnd⟩
  · rw [if_neg hn]
    have hne : cs.flatten ≠ [] := by
      intro hnil
      apply hn
      rw [← UInt32.toNat_inj, h.count, hnil]
      rfl
    have hfuel : cs.length < t.numBuckets.toNat + 1 := by
      rw [h.length]
      exact Nat.lt_succ_self _
    refine (returns_scanBuckets h cs [] rfl rfl hfuel).bind fun i hi => ?_
    cases hi with
    | atEnd hend _ => exact absurd hend hne
    | @atChain e r c _ he hc hi =>
      have hlt : i < t.numBuckets := by
        rw [h.lt_numBuckets, hi]
        simp
      refine (returns_verify (decide_eq_true hlt)).bind fun _ _ => ?_
      refine (h.returns_bucket rfl hi).bind fun list hrepr => ?_
      have hcs : e ++ c :: r = e ++ c :: r := rfl
      refine (returns_enterChain hcs hc hi hrepr).bind fun it hit => ?_
      obtain ⟨hsome, hat⟩ := hit
      obtain ⟨it, rfl⟩ := Option.ne_none_iff_exists'.mp hsome
      refine returns_pure ⟨_, rfl, ?_⟩
      rw [List.flatten_append, List.flatten_cons, he, List.nil_append]
      exact hat

theorem returns_htIteratorNext (h : Chains t cs) {it : HTIter} {e : Ptr × HTKeyValue V}
    {rest : Chain V} (hit : IterAt cs it (e :: rest)) :
    Returns (htIteratorNext t it) (fun r => (r.1 = 0 ↔ rest = []) ∧ IterAt cs r.2 rest) := by
  generalize hall : e :: rest = all at hit
  cases hit with
  | pastEnd => cases hall
  | @within l r xs ys p kv i hcs hi =>
    obtain ⟨rfl, rfl⟩ := List.cons.inj hall
    refine (returns_verifySome rfl).bind_eq ?_
    refine (h.returns_bucket hcs hi).bind fun list hrepr => ?_
    refine (LinkedList.returns_llIteratorHasNext hrepr).bind_eq ?_
    cases ys with
    | cons y ys =>
      obtain ⟨q, kv'⟩ := y
      refine (LinkedList.returns_llIteratorNext hrepr).bind_eq (returns_pure ⟨by simp, ?_⟩)
      exact @IterAt.within _ _ _ _ (xs ++ [(p, kv)]) _ _ _ _ (by simpa using hcs) hi
    | nil =>
      have hcs' : cs = (l ++ [xs ++ [(p, kv)]]) ++ r := by simpa using hcs
      refine (h.returns_scanNext hcs hi).bind fun b hb => ?_
      cases hb with
      | atEnd hend hb =>
        have hpast : ¬ b < t.numBuckets := by
          rw [h.lt_numBuckets, hcs', hb]
          exact lt_irrefl _
        rw [if_neg hpast]
        apply returns_pure
        change (_ ↔ r.flatten = []) ∧ IterAt cs _ r.flatten
        rw [hend]
        exact ⟨by simp, .pastEnd⟩
      | @atChain em r c _ hem hc hb =>
        rw [← List.append_assoc] at hcs'
        have hlt : b < t.numBuckets := by
          rw [h.lt_numBuckets, hcs', hb]
          simp
        rw [if_pos hlt]
        refine (h.returns_bucket hcs' hb).bind fun list' hrepr' => ?_
        refine (returns_enterChain hcs' hc hb hrepr').bind fun it hit => ?_
        apply returns_pure
        change (_ ↔ (em ++ c :: r).flatten = []) ∧ IterAt cs _ (em ++ c :: r).flatten
        rw [List.flatten_append, List.flatten_cons, hem, List.nil_append]
        exact ⟨by simp [hc], hit.2⟩

theorem returns_htIteratorGet (h : Chains t cs) {it : HTIter} {e : Ptr × HTKeyValue V}
    {rest : Chain V} (hit : IterAt cs it (e :: rest)) :
    Returns (htIteratorGet t it) (fun r => r = some e.2) := by
  generalize hall : e :: rest = all at hit
  cases hit with
  | pastEnd => cases hall
  | @within l r xs ys p kv i hcs hi =>
    obtain ⟨rfl, rfl⟩ := List.cons.inj hall
    refine (returns_verifySome rfl).bind_eq ?_
    refine (h.returns_bucket hcs hi).bind fun list hrepr => ?_
    exact (LinkedList.returns_llIteratorGetPayload hrepr).bind_eq (returns_pure rfl)

theorem htIteratorPastEnd_eq {it : HTIter} {rest : Chain V} (hit : IterAt cs it rest) :
    htIteratorPastEnd it = rest.isEmpty := by
  cases hit <;> rfl

end Iterators
end Courses.SearchEngine
