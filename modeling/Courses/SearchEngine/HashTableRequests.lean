import Courses.Lib.Requests
import Courses.SearchEngine.HashTableMap

/-!
# The requests of an insert

What the list and the table do when memory is refused. A plan works on the keys of the
table alone, chain by chain, and says which requests an insert makes: those whose refusal is
noticed are asked for, and those of `AppendLinkedList` and of `HTIteratorNext`, whose result
nobody looks at, are needed.

`Stores t m s` leaves out the counter: a table whose counter is wrong still stores a map.
-/
namespace Courses.SearchEngine

open Courses.Lib Courses.Lib.AllocM

variable {V : Type}

/-! ## Calls that make no request -/

section Silent

variable {α : Type} (list : LinkedList α)

theorem LinkedList.silent_deref (p : Option Ptr) : Silent (list.deref p) :=
  (silent_demand p).bind fun _ => (silent_demand _).bind fun _ => silent_pure _

theorem LinkedList.silent_modify (p : Option Ptr) (f : Node α → Node α) :
    Silent (list.modify p f) :=
  (LinkedList.silent_deref list p).bind fun _ => silent_pure _

theorem silent_llIteratorHasNext (iter : LLIter) : Silent (llIteratorHasNext list iter) :=
  (silent_verify _).bind fun _ => (LinkedList.silent_deref _ _).bind fun _ => silent_pure _

theorem silent_llIteratorNext (iter : LLIter) : Silent (llIteratorNext list iter) := by
  refine (silent_verify _).bind fun _ => (silent_llIteratorHasNext _ _).bind fun b => ?_
  refine silent_ite ?_ (silent_pure _)
  exact (LinkedList.silent_deref _ _).bind fun _ => silent_pure _

theorem silent_llIteratorGetPayload (iter : LLIter) : Silent (llIteratorGetPayload list iter) :=
  (silent_verify _).bind fun _ => (LinkedList.silent_deref _ _).bind fun _ => silent_pure _

theorem silent_popLinkedList : Silent (popLinkedList list) := by
  refine silent_ite (silent_pure _) ((LinkedList.silent_deref _ _).bind fun _ => ?_)
  refine silent_ite ?_ ?_
  · exact (silent_pure _).bind fun _ => silent_pure _
  · exact (LinkedList.silent_modify _ _ _).bind fun _ => silent_pure _

end Silent

section Silent

variable (t : HashTable V)

theorem HashTable.silent_bucket (i : HWSize) : Silent (t.bucket i) := silent_demand _

theorem silent_hashKeyToBucketNum (key : HTKey) : Silent (hashKeyToBucketNum t key) :=
  silent_ite (silent_halt _) (silent_pure _)

theorem silent_findKVLoop (list : LinkedList (HTKeyValue V)) (key : HTKey) (fuel : ℕ)
    (iter : LLIter) : Silent (findKVLoop list key fuel iter) := by
  induction fuel generalizing iter with
  | zero => exact silent_halt _
  | succ fuel ih =>
    refine (silent_llIteratorGetPayload _ _).bind fun _ => silent_ite (silent_pure _) ?_
    exact (silent_llIteratorNext _ _).bind fun _ => silent_ite (ih _) (silent_pure _)

theorem silent_drainChain (fuel : ℕ) (list : LinkedList (HTKeyValue V)) :
    Silent (drainChain fuel list) := by
  induction fuel generalizing list with
  | zero => exact silent_halt _
  | succ fuel ih =>
    refine silent_ite ((silent_popLinkedList _).bind fun _ => ?_) (silent_pure _)
    exact (silent_verifySome _).bind fun _ => ih _

theorem silent_freeHashTable : Silent (freeHashTable t) := by
  rw [freeHashTable]
  induction t.buckets with
  | nil => exact silent_pure _
  | cons list lists ih => exact (silent_drainChain _ _).bind fun _ => ih

theorem silent_scanBuckets (fuel : ℕ) (i : HWSize) : Silent (scanBuckets t fuel i) := by
  induction fuel generalizing i with
  | zero => exact silent_halt _
  | succ fuel ih =>
    refine silent_ite ((HashTable.silent_bucket _ _).bind fun _ => ?_) (silent_pure _)
    exact silent_ite (silent_pure _) (ih _)

theorem silent_htIteratorGet (it : HTIter) : Silent (htIteratorGet t it) := by
  refine silent_ite (silent_pure _) ((silent_verifySome _).bind fun _ => ?_)
  refine (HashTable.silent_bucket _ _).bind fun _ => ?_
  exact (silent_llIteratorGetPayload _ _).bind fun _ => silent_pure _

end Silent

/-! ## The calls of the list that ask -/

section Lists

variable {α : Type} {list : LinkedList α} {xs : List (Ptr × α)}

/-- An iterator at the head of a list that is not empty, or NULL. -/
theorem follows_llMakeIterator (h : list.Repr xs) (hne : xs ≠ []) :
    Follows (llMakeIterator list 0) Plan.ask (GivesIf fun it => it = ⟨firstPtr xs none⟩)
      fun _ => False := by
  have hnum : numElementsInLinkedList list ≠ 0 := mt h.numElementsInLinkedList_eq_zero.mp hne
  have hmake : Returns (llMakeIterator list 0)
      fun o => ∃ it, o = some it ∧ it = ⟨firstPtr xs none⟩ :=
    (LinkedList.returns_llMakeIterator h hne).mono fun o ho => ⟨_, ho, rfl⟩
  rw [llMakeIterator] at hmake ⊢
  refine follows_verify_bind fun _ => ?_
  rw [if_neg hnum] at hmake ⊢
  exact hmake.follows_ask (silent_pure _) rfl

/-- The same request where the code relies on the iterator. -/
theorem follows_llMakeIterator_need (h : list.Repr xs) (hne : xs ≠ []) :
    Follows (llMakeIterator list 0) Plan.need (fun o _ => o = some ⟨firstPtr xs none⟩)
      fun o => o = none := by
  have hmake := LinkedList.returns_llMakeIterator h hne
  have hnum : numElementsInLinkedList list ≠ 0 := mt h.numElementsInLinkedList_eq_zero.mp hne
  rw [llMakeIterator] at hmake ⊢
  refine follows_verify_bind fun _ => ?_
  rw [if_neg hnum] at hmake ⊢
  exact hmake.follows_need (silent_pure _) (leaves_pure rfl)

/-- An append whose request is refused leaves the list as it is. -/
theorem follows_appendLinkedList (h : list.Repr xs) (hlt : xs.length + 1 < 2 ^ 32) (a : α) :
    Follows (appendLinkedList list a) Plan.need
      (fun r _ => r.2.Repr (xs ++ [(list.fresh, a)])) fun r => r.2 = list := by
  have happend := (LinkedList.returns_appendLinkedList h hlt a).mono fun _ hr => hr.2
  refine Returns.follows_need happend ?_ (leaves_pure rfl)
  refine silent_ite (silent_ite ?_ ?_) (silent_pure _)
  · exact (silent_verify _).bind fun _ => (silent_verify _).bind fun _ => silent_pure _
  · exact (LinkedList.silent_modify _ _ _).bind fun _ => silent_pure _

end Lists

/-! ## The plan of an insert -/

/-- The keys of a table, chain by chain. -/
abbrev Shape := List (List HTKey)

def keysOf (c : Chain V) : List HTKey := c.map fun e => e.2.key

def shape (cs : List (Chain V)) : Shape := cs.map keysOf

/-- `FindKVInHashTable`: an iterator, if there is anything to search. -/
def searchPlan (chain : List HTKey) : Plan Unit :=
  if chain = [] then pure () else do let _ ← Plan.ask

/-- The end of an insert: for a new key the payload is asserted, the list node is not. -/
def entryPlan (s : Shape) (key : HTKey) : Plan Shape := do
  let i := key.toNat % s.length
  let chain := s.getD i []
  searchPlan chain
  if key ∈ chain then
    return s
  else
    let _ ← Plan.ask
    Plan.need
    return s.set i (chain ++ [key])

/-- The entries an iterator visits: with each key whether the step after it needs an
iterator for the next chain. -/
def visitsChain (more : Bool) : List HTKey → List (HTKey × Bool)
  | [] => []
  | [key] => [(key, more)]
  | key :: key' :: keys => (key, false) :: visitsChain more (key' :: keys)

def visits : Shape → List (HTKey × Bool)
  | [] => []
  | chain :: chains => visitsChain (!chains.flatten.isEmpty) chain ++ visits chains

/-- `HTIteratorNext`: the iterator for the next chain is not looked at. -/
def nextPlan (more : Bool) : Plan Unit := if more then Plan.need else pure ()

/-- The copying of a resize, with the plan of the inserts it makes. -/
def rehashPlan (insert : Shape → HTKey → Plan Shape) : List (HTKey × Bool) → Shape → Plan Shape
  | [], s => return s
  | (key, more) :: rest, s => do
    let s ← insert s key
    nextPlan more
    rehashPlan insert rest s

/-- A resize asks for the record, the array and the chains of the new table, then for the two
parts of the iterator; refused any of them, it leaves the table as it is. -/
def resizePlan (insert : Shape → HTKey → Plan Shape) (s : Shape) : Plan Shape := do
  if s.flatten.length < 3 * s.length % 2 ^ 32 then
    return s
  else
    let n := 9 * s.length % 2 ^ 32
    if ← Plan.askAll (n + 2) then
      if ← Plan.askAll 2 then rehashPlan insert (visits s) (List.replicate n []) else return s
    else
      return s

def insertPlan : ℕ → Shape → HTKey → Plan Shape
  | 0, s, _ => return s
  | fuel + 1, s, key => do
    let s ← resizePlan (insertPlan fuel) s
    entryPlan s key

/-! ## The end of an insert -/

section Entry

variable {t : HashTable V} {cs l r : List (Chain V)} {m : FMap HTKey V} {c : Chain V}

theorem mem_keysOf {key : HTKey} : key ∈ keysOf c ↔ ∃ e ∈ c, e.2.key = key := by
  simp [keysOf]

theorem keysOf_eq_nil : keysOf c = [] ↔ c = [] := by simp [keysOf]

theorem shape_middle : shape (l ++ c :: r) = shape l ++ keysOf c :: shape r := by simp [shape]

theorem getD_shape : (shape (l ++ c :: r)).getD l.length [] = keysOf c := by
  have hlen : l.length = (shape l).length := by simp [shape]
  rw [shape_middle, hlen]
  simp

theorem set_shape (c' : Chain V) :
    (shape (l ++ c :: r)).set l.length (keysOf c') = shape (l ++ c' :: r) := by
  rw [shape_middle, shape_middle, List.set_append_right _ _ (by simp [shape])]
  simp [shape]

/-- The table stores the map `m`, with the keys in the shape `s`, whatever it counts. -/
def Stores (t : HashTable V) (m : FMap HTKey V) (s : Shape) : Prop :=
  ∃ n cs, Chains { t with numElements := n } cs ∧ Represents (pairs cs.flatten) m ∧ shape cs = s

/-- What an insert into a table storing `m` gives when nothing it needs is refused. -/
def Inserted (t : HashTable V) (m : FMap HTKey V) (kv : HTKeyValue V)
    (r : Answer V × HashTable V) (s : Shape) : Prop :=
  r.1 = insertAnswer m kv ∧ Stores r.2 (m.insert kv.key kv.value) s ∧
    r.2.numElements = if kv.key ∈ m then t.numElements else t.numElements + 1

theorem follows_searchChain {list : LinkedList (HTKeyValue V)} (h : list.Repr c) (key : HTKey)
    {L : Option LLIter → Prop} :
    Follows (findKVInHashTable list key) (searchPlan (keysOf c)) (fun o _ => Finds c key o) L := by
  have hfind := returns_findKVInHashTable h key
  by_cases hc : c = []
  · rw [findKVInHashTable, if_pos (h.numElementsInLinkedList_eq_zero.mpr hc)] at hfind ⊢
    rw [searchPlan, if_pos (keysOf_eq_nil.mpr hc)]
    exact hfind.follows (silent_pure _) fun _ ho => ho
  · rw [findKVInHashTable, if_neg (mt h.numElementsInLinkedList_eq_zero.mp hc), searchPlan,
      if_neg (mt keysOf_eq_nil.mp hc)]
    refine (follows_llMakeIterator h hc).bind_gives ?_ ?_
    · rintro it rfl
      refine follows_verifySome_bind fun it hit => ?_
      cases hit
      obtain ⟨⟨p, kv⟩, suf, rfl⟩ := List.exists_cons_of_ne_nil hc
      have hfuel : suf.length < list.numElements.toNat := by
        rw [h.numElements, List.length_cons]
        exact Nat.lt_succ_self _
      have hpre : ∀ e ∈ ([] : Chain V), e.2.key ≠ key := fun e he => absurd he List.not_mem_nil
      have hloop := returns_findKVLoop suf [] h hpre hfuel
      exact hloop.follows (silent_findKVLoop _ _ _ _) fun _ ho => ho
    · refine follows_verifySome_bind fun _ hit => ?_
      cases hit

theorem setBucket_self {i : HWSize} {chain : LinkedList (HTKeyValue V)}
    (h : t.buckets[i.toNat]? = some chain) : t.setBucket i chain = t := by
  obtain ⟨hlt, rfl⟩ := List.getElem?_eq_some_iff.mp h
  rw [HashTable.setBucket, List.set_getElem_self]

theorem entryPlan_eq {s : Shape} {key : HTKey} {i : ℕ} {chain : List HTKey}
    (hi : key.toNat % s.length = i) (hchain : s.getD i [] = chain) :
    entryPlan s key = do
      searchPlan chain
      if key ∈ chain then
        return s
      else
        let _ ← Plan.ask
        Plan.need
        return s.set i (chain ++ [key]) := by
  subst hi hchain
  rfl

/-- The entry goes in as planned; when the list node is refused, the call answers as if it
had, and the table still stores what it did. -/
theorem follows_insertEntry {s : Shape} (h : Stores t m s) (kv : HTKeyValue V)
    (hfits : kv.key ∉ m → m.keys.card + 1 < 2 ^ 32) :
    Follows (insertEntry t kv) (entryPlan s kv.key) (Inserted t m kv)
      fun r => r.1 = ⟨1, none⟩ ∧ kv.key ∉ m ∧ Stores r.2 m s := by
  obtain ⟨n, cs, hcs, hm, rfl⟩ := h
  obtain ⟨l, r, c, chain, hf⟩ := hcs.focus kv.key
  have hnum : Returns (hashKeyToBucketNum t kv.key) fun i => i.toNat = l.length :=
    hf.returns_hashKeyToBucketNum
  have hindex : kv.key.toNat % (shape cs).length = l.length := by
    rw [shape, List.length_map, hcs.length]
    exact hf.index.symm
  have hchain : (shape cs).getD l.length [] = keysOf c := by
    rw [hf.eq]
    exact getD_shape
  rw [entryPlan_eq hindex hchain]
  refine hnum.follows_bind (silent_hashKeyToBucketNum _ _) fun i hi => ?_
  have hbucket : Returns (t.bucket i) fun b => b = chain := hf.returns_bucket hi
  refine hbucket.follows_bind_eq (HashTable.silent_bucket _ _) ?_
  refine (follows_searchChain (L := fun _ => False) hf.repr kv.key).bind
    (fun location _ hfind => ?_) fun _ ho => ho.elim
  have hcount := hf.count
  have hcard : n.toNat = m.keys.card := by
    rw [← hm.length_eq, pairs, List.length_map]
    exact hcs.count
  cases location with
  | none =>
    have hnone := hm.lookup_eq_none (hf.not_mem hfind)
    have hnew : kv.key ∉ m := Finmap.lookup_eq_none.mp hnone
    have hlt := hfits hnew
    have hmem : kv.key ∉ keysOf c := by
      rw [mem_keysOf]
      rintro ⟨e, he, hk⟩
      exact hfind e he hk
    rw [if_neg hmem]
    refine follows_ask_bind fun b => follows_verify_bind fun _ => ?_
    have hlen : c.length + 1 < 2 ^ 32 := by
      change n.toNat = _ at hcount
      omega
    refine (follows_appendLinkedList hf.repr hlen kv).bind (fun d _ hd => ?_) fun d hd => ?_
    · have hsucc : (n + 1).toNat = n.toNat + 1 := by
        rw [UInt32.toNat_add, UInt32.toNat_one, Nat.mod_eq_of_lt]
        omega
      obtain ⟨hcs', hm'⟩ := hf.append hm hfind hd rfl hi hsucc
      refine follows_pure ⟨?_, ⟨n + 1, _, hcs', hm', ?_⟩, ?_⟩
      · rw [insertAnswer, hnone]
      · rw [hf.eq, ← set_shape (c := c)]
        simp [keysOf]
      · rw [if_neg hnew]
    · refine leaves_pure ⟨rfl, hnew, n, cs, ?_, hm, rfl⟩
      subst hd
      have hself : t.setBucket i d.2 = t := setBucket_self (hi ▸ hf.get)
      rw [hself]
      exact hcs
  | some it =>
    obtain ⟨xs, p, old, ys, rfl, hk, rfl⟩ := hfind
    have hmem : kv.key ∈ keysOf (xs ++ (p, old) :: ys) := by
      rw [mem_keysOf]
      exact ⟨(p, old), by simp, hk⟩
    have hlookup := hf.lookup_middle hk hm
    have hold : kv.key ∈ m := Finmap.mem_of_lookup_eq_some hlookup
    rw [if_pos hmem]
    refine (LinkedList.returns_llIteratorGetPayload hf.repr).follows_bind_eq
      (silent_llIteratorGetPayload _ _) ?_
    refine (LinkedList.returns_setPayload hf.repr kv).follows_bind
      (LinkedList.silent_modify _ _ _) fun d hd => ?_
    obtain ⟨hcs', hm'⟩ := hf.overwrite hm hk hd rfl hi
    refine follows_pure ⟨?_, ⟨n, _, hcs', hm', ?_⟩, ?_⟩
    · rw [insertAnswer, hlookup, ← hk]
    · rw [hf.eq, shape_middle, shape_middle]
      simp [keysOf, hk]
    · rw [if_pos hold]
      rfl

end Entry

/-! ## A new table -/

theorem follows_allocateLinkedList {α : Type} :
    Follows (allocateLinkedList (α := α)) Plan.ask (GivesIf fun list => list.Repr [])
      fun _ => False :=
  LinkedList.returns_allocateLinkedList.follows_ask (silent_pure _) rfl

theorem follows_allocateBuckets (n : ℕ) :
    Follows (allocateBuckets (V := V) n) (Plan.askAll n)
      (GivesIf fun bls => List.Forall₂ LinkedList.Repr bls (List.replicate n []))
      fun _ => False := by
  induction n with
  | zero => exact follows_pure ⟨[], rfl, .nil⟩
  | succ n ih =>
    refine follows_allocateLinkedList.bind_gives (fun list hlist => ?_) (follows_pure rfl)
    rw [if_pos rfl]
    refine ih.bind_last (fun bls hbls => ?_) (follows_pure rfl)
    exact follows_pure ⟨_, rfl, .cons hlist hbls⟩

theorem follows_allocateHashTable {n : HWSize} (hn : 0 < n.toNat) :
    Follows (allocateHashTable (V := V) n) (Plan.askAll (n.toNat + 2))
      (GivesIf fun t => Chains t (List.replicate n.toNat [])) fun _ => False := by
  have hne : n ≠ 0 := by
    rintro rfl
    exact lt_irrefl _ hn
  rw [allocateHashTable, if_neg hne]
  refine follows_ask_bind fun b => ?_
  cases b with
  | false => exact follows_pure rfl
  | true =>
    refine follows_ask_bind fun b => ?_
    cases b with
    | false => exact follows_pure rfl
    | true =>
      refine (follows_allocateBuckets n.toNat).bind_last (fun bls hbls => ?_) (follows_pure rfl)
      exact follows_pure ⟨_, rfl, chains_allocated hbls hn⟩

/-! ## Iterators -/

section Iterators

variable {t : HashTable V} {cs : List (Chain V)}

theorem flatten_shape (cs : List (Chain V)) : (shape cs).flatten = keysOf cs.flatten := by
  induction cs with
  | nil => rfl
  | cons c cs ih =>
    change keysOf c ++ (shape cs).flatten = _
    rw [ih, List.flatten_cons, keysOf, keysOf, keysOf, List.map_append]

/-- The iterator has the entries `rest` left, and its steps ask as `vs` says. -/
inductive Upcoming (cs : List (Chain V)) : HTIter → Chain V → List (HTKey × Bool) → Prop
  | pastEnd {i : HWSize} {it : Option LLIter} : Upcoming cs ⟨false, i, it⟩ [] []
  | within {l r : List (Chain V)} {xs ys : Chain V} {p : Ptr} {kv : HTKeyValue V} {i : HWSize} :
      cs = l ++ (xs ++ (p, kv) :: ys) :: r → i.toNat = l.length →
        Upcoming cs ⟨true, i, some ⟨some p⟩⟩ ((p, kv) :: ys ++ r.flatten)
          (visitsChain (!(shape r).flatten.isEmpty) (keysOf ((p, kv) :: ys)) ++ visits (shape r))

theorem Upcoming.iterAt {it : HTIter} {rest : Chain V} {vs : List (HTKey × Bool)}
    (h : Upcoming cs it rest vs) : IterAt cs it rest := by
  cases h with
  | pastEnd => exact .pastEnd
  | within hcs hi => exact .within hcs hi

theorem Upcoming.exists_cons {it : HTIter} {e : Ptr × HTKeyValue V} {rest : Chain V}
    {vs : List (HTKey × Bool)} (h : Upcoming cs it (e :: rest) vs) :
    ∃ more vs', vs = (e.2.key, more) :: vs' := by
  generalize hall : e :: rest = all at h
  cases h with
  | pastEnd => cases hall
  | @within l r xs ys p kv i hcs hi =>
    obtain ⟨rfl, -⟩ := List.cons.inj hall
    cases ys with
    | nil => exact ⟨_, _, rfl⟩
    | cons y ys => exact ⟨_, _, rfl⟩

theorem Upcoming.eq_nil {it : HTIter} {vs : List (HTKey × Bool)} (h : Upcoming cs it [] vs) :
    vs = [] := by
  generalize hall : ([] : Chain V) = all at h
  cases h with
  | pastEnd => rfl
  | within => cases hall

theorem IterAt.upcoming {it : HTIter} {rest : Chain V} (h : IterAt cs it rest) :
    ∃ vs, Upcoming cs it rest vs := by
  cases h with
  | pastEnd => exact ⟨_, .pastEnd⟩
  | within hcs hi => exact ⟨_, .within hcs hi⟩

/-- Chains without entries are passed over. -/
theorem visits_skip {e r : List (Chain V)} (he : e.flatten = []) :
    visits (shape (e ++ r)) = visits (shape r) := by
  induction e with
  | nil => rfl
  | cons c e ih =>
    obtain ⟨rfl, he⟩ := List.append_eq_nil_iff.mp he
    exact ih he

/-- An iterator made at the head of the first chain that is not empty. -/
theorem upcoming_head {l e r : List (Chain V)} {c : Chain V} (hcs : cs = l ++ (e ++ c :: r))
    (he : e.flatten = []) (hne : c ≠ []) {i : HWSize} (hi : i.toNat = (l ++ e).length) :
    Upcoming cs ⟨true, i, some ⟨firstPtr c none⟩⟩ (e ++ c :: r).flatten
      (visits (shape (e ++ c :: r))) := by
  obtain ⟨⟨p, kv⟩, ys, rfl⟩ := List.exists_cons_of_ne_nil hne
  rw [visits_skip he, List.flatten_append, he]
  rw [← List.append_assoc] at hcs
  exact @Upcoming.within _ _ _ _ [] _ _ _ _ hcs hi

/-- A scan does not read the counter of the table. -/
theorem scanBuckets_recount (n : HWSize) (fuel : ℕ) (i : HWSize) :
    scanBuckets { t with numElements := n } fuel i = scanBuckets t fuel i := by
  induction fuel generalizing i with
  | zero => rfl
  | succ fuel ih =>
    rw [scanBuckets, scanBuckets]
    simp only [ih]
    rfl

theorem follows_hashTableMakeIterator {n : HWSize} (h : Chains { t with numElements := n } cs)
    (hne : t.numElements ≠ 0) :
    Follows (hashTableMakeIterator t) (Plan.askAll 2)
      (GivesIf fun it => Upcoming cs it cs.flatten (visits (shape cs))) fun _ => False := by
  refine follows_ask_bind fun b => ?_
  cases b with
  | false => exact follows_pure rfl
  | true =>
    rw [if_pos rfl, if_pos rfl, if_neg hne]
    have hfuel : cs.length < t.numBuckets.toNat + 1 := by
      rw [h.length]
      exact Nat.lt_succ_self _
    have hscan : Returns (scanBuckets t (t.numBuckets.toNat + 1) 0) (ScanStop [] cs) := by
      rw [← scanBuckets_recount n]
      exact returns_scanBuckets h cs [] rfl rfl hfuel
    refine hscan.follows_bind (silent_scanBuckets _ _ _) fun i hi => ?_
    refine follows_verify_bind fun hlt => ?_
    cases hi with
    | atEnd _ hi =>
      have hpast : i.toNat < cs.length := (h.lt_numBuckets i).mp (of_decide_eq_true hlt)
      rw [hi, List.nil_append] at hpast
      exact absurd hpast (lt_irrefl _)
    | @atChain e r c _ he hc hi =>
      have hbucket : Returns (t.bucket i) fun list => list.Repr c := h.returns_bucket rfl hi
      refine hbucket.follows_bind (HashTable.silent_bucket _ _) fun list hrepr => ?_
      refine (follows_llMakeIterator hrepr hc).bind_gives ?_ (follows_pure rfl)
      rintro _ rfl
      exact follows_pure ⟨_, rfl, upcoming_head rfl he hc hi⟩

/-- A step of the iterator; refused the iterator for the next chain, it has none. -/
theorem follows_htIteratorNext (h : Chains t cs) {it : HTIter} {e : Ptr × HTKeyValue V}
    {rest : Chain V} {key : HTKey} {more : Bool} {vs : List (HTKey × Bool)}
    (hit : Upcoming cs it (e :: rest) ((key, more) :: vs)) :
    Follows (htIteratorNext t it) (nextPlan more) (fun r _ => Upcoming cs r.2 rest vs)
      fun r => r.2.bucketIt = none ∧ rest ≠ [] := by
  generalize hall : e :: rest = all at hit
  generalize hvs : (key, more) :: vs = steps at hit
  cases hit with
  | pastEnd => cases hall
  | @within l r xs ys p kv i hcs hi =>
    obtain ⟨rfl, rfl⟩ := List.cons.inj hall
    refine (returns_verifySome rfl).follows_bind_eq (silent_verifySome _) ?_
    refine (h.returns_bucket hcs hi).follows_bind (HashTable.silent_bucket _ _)
      fun list hrepr => ?_
    refine (LinkedList.returns_llIteratorHasNext hrepr).follows_bind_eq
      (silent_llIteratorHasNext _ _) ?_
    cases ys with
    | cons y ys =>
      obtain ⟨q, kv'⟩ := y
      obtain ⟨hkey, rfl⟩ := List.cons.inj hvs
      obtain ⟨rfl, rfl⟩ := Prod.mk.inj hkey
      refine (LinkedList.returns_llIteratorNext hrepr).follows_bind_eq
        (silent_llIteratorNext _ _) (follows_pure ?_)
      exact @Upcoming.within _ _ _ _ (xs ++ [(p, kv)]) _ _ _ _ (by simpa using hcs) hi
    | nil =>
      obtain ⟨hkey, rfl⟩ := List.cons.inj hvs
      obtain ⟨rfl, rfl⟩ := Prod.mk.inj hkey
      have hcs' : cs = (l ++ [xs ++ [(p, kv)]]) ++ r := by simpa using hcs
      refine (h.returns_scanNext hcs hi).follows_bind (silent_scanBuckets _ _ _) fun b hb => ?_
      cases hb with
      | atEnd hend hb =>
        have hpast : ¬ b < t.numBuckets := by
          rw [h.lt_numBuckets, hcs', hb]
          exact lt_irrefl _
        have hquiet : nextPlan (!(shape r).flatten.isEmpty) = pure () := by
          rw [flatten_shape, hend]
          rfl
        rw [if_neg hpast, hquiet]
        apply follows_pure
        change Upcoming cs _ r.flatten (visits (shape r))
        have hvisits := visits_skip (r := []) hend
        rw [List.append_nil] at hvisits
        rw [hend, hvisits]
        exact .pastEnd
      | @atChain em r c _ hem hc hb =>
        have hlt : b < t.numBuckets := by
          rw [h.lt_numBuckets, hcs', hb]
          simp
        have hnext : nextPlan (!(shape (em ++ c :: r)).flatten.isEmpty) = Plan.need := by
          obtain ⟨y, ys, rfl⟩ := List.exists_cons_of_ne_nil hc
          rw [flatten_shape, List.flatten_append, hem]
          rfl
        have hat := hcs'.trans (List.append_assoc _ em (c :: r)).symm
        rw [if_pos hlt, hnext]
        refine (h.returns_bucket hat hb).follows_bind (HashTable.silent_bucket _ _)
          fun list hrepr => ?_
        rw [← bind_pure Plan.need]
        refine (follows_llMakeIterator_need hrepr hc).bind ?_ ?_
        · rintro _ _ rfl
          exact follows_pure (upcoming_head hcs' hem hc hb)
        · rintro _ rfl
          exact leaves_pure ⟨rfl, by simp [hc]⟩

end Iterators

end Courses.SearchEngine
