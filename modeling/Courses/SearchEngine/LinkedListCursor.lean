import Courses.SearchEngine.LinkedListSort

/-!
# A linked list and its iterator

The calls of `hw1/LinkedList.h` made one after another: on the list itself while there
is no iterator, and through the iterator while there is one. They do what the same calls
do to a mathematical list with a cursor, until the list has `2 ^ 32` elements.
-/
namespace Courses.SearchEngine

open Courses.Lib Courses.Lib.AllocM

variable {α : Type}

def llIteratorHasPrev (list : LinkedList α) (iter : LLIter) : AllocM Bool := do
  verify iter.node.isSome
  let (_, n) ← list.deref iter.node
  return n.prev.isSome

/-- Move to the previous node, if there is one. -/
def llIteratorPrev (list : LinkedList α) (iter : LLIter) : AllocM (Bool × LLIter) := do
  verify iter.node.isSome
  if ← llIteratorHasPrev list iter then
    let (_, n) ← list.deref iter.node
    return (true, ⟨n.prev⟩)
  else
    return (false, iter)

/-- Put a payload before the node the iterator is at. -/
def llIteratorInsertBefore (list : LinkedList α) (iter : LLIter) (payload : α) :
    AllocM (Bool × LinkedList α) := do
  verify iter.node.isSome
  if iter.node = list.head then
    pushLinkedList list payload
  else if ← malloc then
    let newnode := list.fresh
    let (_, n) ← list.deref iter.node
    let list ← list.modify n.prev fun m => { m with next := some newnode }
    let list ← list.modify iter.node fun m => { m with prev := some newnode }
    return (true, { list.place ⟨payload, iter.node, n.prev⟩ with
      numElements := list.numElements + 1 })
  else
    return (false, list)

def llIteratorFree (iter : Option LLIter) : AllocM Unit := do
  let _ ← verifySome iter
  return ()

namespace LinkedList

variable {list : LinkedList α} {xs ys : List (Ptr × α)} {p : Ptr} {a : α}

/-- An iterator at either end. -/
theorem returns_llMakeIterator_end (h : list.Repr xs) {pos : ℕ} (hpos : pos = 0 ∨ pos = 1) :
    Returns (llMakeIterator list pos) fun r => r = if xs = [] then none
      else some ⟨if pos = 0 then firstPtr xs none else lastPtr none xs⟩ := by
  refine (returns_verify (by simpa using hpos)).bind fun _ _ => ?_
  by_cases hne : xs = []
  · rw [if_pos hne, if_pos (h.numElementsInLinkedList_eq_zero.mpr hne)]
    exact returns_pure rfl
  · rw [if_neg hne, if_neg (mt h.numElementsInLinkedList_eq_zero.mp hne)]
    apply returns_malloc_bind
    apply returns_pure
    rw [h.head, h.tail]

theorem returns_llIteratorPrev (h : list.Repr (xs ++ (p, a) :: ys)) :
    Returns (llIteratorPrev list ⟨some p⟩) fun r =>
      r = (xs.getLast?.isSome, ⟨xs.getLast?.elim (some p) fun x => some x.1⟩) := by
  have hhas : Returns (llIteratorHasPrev list ⟨some p⟩) fun r => r = (lastPtr none xs).isSome := by
    refine (returns_verify rfl).bind fun _ _ => ?_
    exact (returns_deref rfl h.node).bind_eq (returns_pure rfl)
  refine (returns_verify rfl).bind fun _ _ => hhas.bind_eq ?_
  rcases List.eq_nil_or_concat' xs with rfl | ⟨zs, z, rfl⟩
  · exact returns_pure rfl
  · rw [lastPtr_concat, List.getLast?_concat]
    exact (returns_deref rfl h.node).bind_eq (returns_pure (by rw [lastPtr_concat]; rfl))

theorem returns_llIteratorInsertBefore (h : list.Repr (xs ++ (p, a) :: ys))
    (hlt : (xs ++ (p, a) :: ys).length + 1 < 2 ^ 32) (b : α) :
    Returns (llIteratorInsertBefore list ⟨some p⟩ b) fun r =>
      r.1 = true ∧ r.2.Repr (xs ++ (list.fresh, b) :: (p, a) :: ys) := by
  refine (returns_verify rfl).bind fun _ _ => ?_
  dsimp only
  rcases List.eq_nil_or_concat' xs with rfl | ⟨zs, ⟨q, c⟩, rfl⟩
  · have hhead : list.head = some p := h.head
    rw [if_pos hhead.symm]
    exact returns_pushLinkedList h hlt b
  · have hq : list.Repr (zs ++ (q, c) :: (p, a) :: ys) := by simpa using h
    have hprev : lastPtr none (zs ++ [(q, c)]) = some q := lastPtr_concat _ _ _
    have hpq : p ≠ q := fun heq => hq.not_mem_right (by simp [heq])
    have hfresh : ∀ r ∈ (zs ++ [(q, c)] ++ (p, a) :: ys).map Prod.fst, list.fresh ≠ r :=
      fun r hr heq => lt_irrefl _ (heq ▸ h.fresh r hr)
    have hnotleft : list.fresh ∉ (zs ++ [(q, c)]).map Prod.fst := fun hm =>
      hfresh _ (by rw [List.map_append]; exact List.mem_append_left _ hm) rfl
    have hnotright : list.fresh ∉ ((p, a) :: ys).map Prod.fst := fun hm =>
      hfresh _ (by rw [List.map_append]; exact List.mem_append_right _ hm) rfl
    have hhead : list.head = firstPtr (zs ++ [(q, c)]) none := by
      refine h.head.trans ?_
      rw [firstPtr_append, firstPtr_append, firstPtr_append]
      rfl
    have hne : some p ≠ list.head := by
      rw [hhead, firstPtr, Option.or_none, ← List.head?_map]
      exact fun heq => h.not_mem_left (List.mem_of_head? heq.symm)
    rw [if_neg hne]
    apply returns_malloc_bind
    rw [if_pos rfl]
    refine (returns_deref rfl h.node).bind_eq ?_
    refine (returns_modify hprev hq.node _).bind_eq ?_
    refine (returns_modify rfl ((Function.update_of_ne hpq _ _).trans h.node) _).bind_eq ?_
    refine returns_pure ⟨rfl, ?_⟩
    obtain ⟨hleft, hright⟩ := (linked_append _ _ _ _).mp h.linked
    refine ⟨?_, ?_, ?_, ?_, ?_, ?_⟩
    · have hn := h.numElements
      change (list.numElements + 1).toNat = _
      rw [UInt32.toNat_add, hn, UInt32.toNat_one, Nat.mod_eq_of_lt hlt]
      simp only [List.length_append, List.length_cons]
      omega
    · refine hhead.trans ?_
      rw [firstPtr_append, firstPtr_append, firstPtr_append]
      rfl
    · refine h.tail.trans ?_
      simp only [lastPtr_append, lastPtr_cons]
    · rw [linked_middle]
      have hqright : q ∉ ((p, a) :: ys).map Prod.fst := hq.not_mem_right
      refine ⟨((hleft.setNext hq.not_mem_left _).update h.not_mem_left _).update hnotleft _, ?_, ?_⟩
      · exact (Function.update_self _ _ _).trans (by rw [hprev]; rfl)
      · exact ((hright.update hqright _).setPrev h.not_mem_right _).update hnotright _
    · rw [List.map_append, List.map_cons, List.nodup_middle, ← List.map_append, List.nodup_cons]
      exact ⟨fun hm => hfresh _ hm rfl, h.nodup⟩
    · intro r hr
      rw [List.map_append, List.map_cons, List.mem_append, List.mem_cons] at hr
      change r < list.fresh + 1
      have hold : ∀ r ∈ (zs ++ [(q, c)] ++ (p, a) :: ys).map Prod.fst, r < list.fresh + 1 :=
        fun r hr => (h.fresh r hr).trans (Nat.lt_succ_self _)
      rw [List.map_append] at hold
      rcases hr with hr | rfl | hr
      · exact hold r (List.mem_append_left _ hr)
      · exact Nat.lt_succ_self _
      · exact hold r (List.mem_append_right _ hr)

end LinkedList

/-! ## Calls one after another -/

/-- A list and the iterator that is in use, if there is one. -/
structure Handle (α : Type) where
  list : LinkedList α
  iter : Option LLIter

inductive ListCall (α : Type) where
  | push (a : α)
  | pop
  | append (a : α)
  | slice
  | numElements
  | makeIterator (pos : ℕ)
  | next
  | prev
  | getPayload
  | delete
  | insertBefore (a : α)
  | freeIterator

/-- What a call answers. -/
inductive Reply (α : Type) where
  | done
  | flag (b : Bool)
  /-- The payload, or `false` where there is none. -/
  | payload (a : Option α)
  | count (n : ℕ)
  /-- What `LLIteratorDelete` returns, and the payload it frees. -/
  | deleted (more : Bool) (a : α)
  deriving DecidableEq

def listCall (s : Handle α) : ListCall α → AllocM (Reply α × Handle α)
  | .push a => do
    let (b, list) ← pushLinkedList s.list a
    return (.flag b, ⟨list, s.iter⟩)
  | .pop => do
    let (a, list) ← popLinkedList s.list
    return (.payload a, ⟨list, s.iter⟩)
  | .append a => do
    let (b, list) ← appendLinkedList s.list a
    return (.flag b, ⟨list, s.iter⟩)
  | .slice => do
    let (a, list) ← sliceLinkedList s.list
    return (.payload a, ⟨list, s.iter⟩)
  | .numElements => return (.count (numElementsInLinkedList s.list).toNat, s)
  | .makeIterator pos => do
    let iter ← llMakeIterator s.list pos
    return (.flag iter.isSome, ⟨s.list, iter⟩)
  | .next => do
    let (b, iter) ← llIteratorNext s.list (← verifySome s.iter)
    return (.flag b, ⟨s.list, some iter⟩)
  | .prev => do
    let (b, iter) ← llIteratorPrev s.list (← verifySome s.iter)
    return (.flag b, ⟨s.list, some iter⟩)
  | .getPayload => do
    let a ← llIteratorGetPayload s.list (← verifySome s.iter)
    return (.payload (some a), s)
  | .delete => do
    let (more, a, list, iter) ← llIteratorDelete s.list (← verifySome s.iter)
    return (.deleted more a, ⟨list, some iter⟩)
  | .insertBefore a => do
    let (b, list) ← llIteratorInsertBefore s.list (← verifySome s.iter) a
    return (.flag b, ⟨list, s.iter⟩)
  | .freeIterator => do
    llIteratorFree s.iter
    return (.done, ⟨s.list, none⟩)

def listSession (s : Handle α) : List (ListCall α) → AllocM (List (Reply α) × Handle α)
  | [] => return ([], s)
  | c :: cs => do
    let (reply, s) ← listCall s c
    let (replies, s) ← listSession s cs
    return (reply :: replies, s)

/-- The calls on a new list. -/
def newListSession (calls : List (ListCall α)) : AllocM (List (Reply α) × Handle α) := do
  let list ← verifySome (← allocateLinkedList)
  listSession ⟨list, none⟩ calls

/-! ## A mathematical list with a cursor -/

/-- The cursor is the index of an item; it has none to be at once the list is empty. -/
structure Cursored (α : Type) where
  items : List α
  cursor : Option ℕ

namespace Cursored

/-- The calls that may be made: on the list while there is no iterator, through the
iterator while there is one and it is at an item. -/
def Allowed (m : Cursored α) : ListCall α → Prop
  | .numElements => True
  | .freeIterator => m.cursor ≠ none
  | .push _ | .pop | .append _ | .slice => m.cursor = none
  | .makeIterator pos => m.cursor = none ∧ (pos = 0 ∨ pos = 1)
  | .next | .prev | .getPayload | .delete | .insertBefore _ =>
    ∃ i < m.items.length, m.cursor = some i

instance (m : Cursored α) : (c : ListCall α) → Decidable (m.Allowed c)
  | .numElements => inferInstanceAs (Decidable True)
  | .freeIterator => inferInstanceAs (Decidable (m.cursor ≠ none))
  | .push _ | .pop | .append _ | .slice => inferInstanceAs (Decidable (m.cursor = none))
  | .makeIterator _ => inferInstanceAs (Decidable (_ ∧ _))
  | .next | .prev | .getPayload | .delete | .insertBefore _ =>
    inferInstanceAs (Decidable (∃ i < m.items.length, m.cursor = some i))

/-- Where the cursor is once the item at `i` is gone: at its successor, or at its
predecessor if it was the last. -/
def afterErase (i length : ℕ) : ℕ := if i < length then i else i - 1

def call (m : Cursored α) : ListCall α → Reply α × Cursored α
  | .push a => (.flag true, { m with items := a :: m.items })
  | .pop => (.payload m.items.head?, { m with items := m.items.tail })
  | .append a => (.flag true, { m with items := m.items ++ [a] })
  | .slice => (.payload m.items.getLast?, { m with items := m.items.dropLast })
  | .numElements => (.count m.items.length, m)
  | .makeIterator pos =>
    if m.items = [] then (.flag false, { m with cursor := none })
    else (.flag true, { m with cursor := some (if pos = 0 then 0 else m.items.length - 1) })
  | .next => match m.cursor with
    | none => (.done, m)
    | some i =>
      if i + 1 < m.items.length then (.flag true, { m with cursor := some (i + 1) })
      else (.flag false, m)
  | .prev => match m.cursor with
    | none => (.done, m)
    | some i => if i = 0 then (.flag false, m) else (.flag true, { m with cursor := some (i - 1) })
  | .getPayload => (.payload (m.cursor.bind fun i => m.items[i]?), m)
  | .delete => match m.cursor.bind fun i => m.items[i]?.map fun a => (i, a) with
    | none => (.done, m)
    | some (i, a) =>
      let items := m.items.eraseIdx i
      (.deleted (!items.isEmpty) a, ⟨items, some (afterErase i items.length)⟩)
  | .insertBefore a => match m.cursor with
    | none => (.done, m)
    | some i => (.flag true, ⟨m.items.insertIdx i a, some (i + 1)⟩)
  | .freeIterator => (.done, { m with cursor := none })

/-- The replies to a sequence of calls, and the list after it. -/
def session (m : Cursored α) : List (ListCall α) → List (Reply α) × Cursored α
  | [] => ([], m)
  | c :: cs => ((m.call c).1 :: ((m.call c).2.session cs).1, ((m.call c).2.session cs).2)

/-- Each call of a sequence may be made when its turn comes. -/
def Legal (m : Cursored α) : List (ListCall α) → Prop
  | [] => True
  | c :: cs => m.Allowed c ∧ (m.call c).2.Legal cs

def decidableLegal (m : Cursored α) : (calls : List (ListCall α)) → Decidable (m.Legal calls)
  | [] => inferInstanceAs (Decidable True)
  | c :: cs =>
    have := decidableLegal (m.call c).2 cs
    inferInstanceAs (Decidable (m.Allowed c ∧ (m.call c).2.Legal cs))

instance (m : Cursored α) (calls : List (ListCall α)) : Decidable (m.Legal calls) :=
  m.decidableLegal calls

end Cursored

/-- The links between the nodes, the ends and the count are right: the node of each item
points to the nodes of the items beside it. -/
structure WellFormed (list : LinkedList α) (ps : List Ptr) (items : List α) : Prop where
  length : ps.length = items.length
  nodup : ps.Nodup
  head : list.head = ps.head?
  tail : list.tail = ps.getLast?
  node : ∀ i p, ps[i]? = some p → ∃ n, list.nodes p = some n ∧ items[i]? = some n.payload ∧
    n.next = ps[i + 1]? ∧ n.prev = if i = 0 then none else ps[i - 1]?
  numElements : list.numElements.toNat = items.length

theorem LinkedList.Repr.wellFormed {list : LinkedList α} {xs : List (Ptr × α)}
    (h : list.Repr xs) : WellFormed list (xs.map Prod.fst) (xs.map Prod.snd) := by
  refine ⟨by simp, h.nodup, ?_, ?_, fun i p hp => ?_, by simpa using h.numElements⟩
  · rw [h.head, firstPtr, Option.or_none, List.head?_map]
  · rw [h.tail, lastPtr, Option.or_none, List.getLast?_map]
  · rw [List.getElem?_map, Option.map_eq_some_iff] at hp
    obtain ⟨⟨p, a⟩, hi, rfl⟩ := hp
    obtain ⟨hlt, hget⟩ := List.getElem?_eq_some_iff.mp hi
    have hsplit : xs = xs.take i ++ (p, a) :: xs.drop (i + 1) := by
      rw [← hget, List.getElem_cons_drop, List.take_append_drop]
    rw [hsplit] at h
    refine ⟨_, h.node, ?_, ?_, ?_⟩
    · rw [List.getElem?_map, hi]
      rfl
    · rw [firstPtr, Option.or_none, ← List.head?_map, List.map_drop, List.head?_drop]
    · rw [lastPtr, Option.or_none, ← List.getLast?_map, List.map_take]
      split
      · next hzero =>
        rw [hzero]
        rfl
      · next hne =>
        rw [List.getLast?_take, if_neg hne, List.getElem?_eq_getElem (by simp; omega)]
        rfl

/-! ## One call -/

/-- The list holds the items, and the iterator is where the cursor is. -/
structure Matches (s : Handle α) (m : Cursored α) (xs : List (Ptr × α)) : Prop where
  repr : s.list.Repr xs
  items : xs.map Prod.snd = m.items
  iter : s.iter = m.cursor.map fun i => ⟨xs[i]?.map Prod.fst⟩

section Calls

variable {s : Handle α} {m : Cursored α} {xs : List (Ptr × α)} {i : ℕ} {a : α}

/-- The node at the cursor, and what lies before and behind it. -/
theorem Matches.split (h : Matches s m xs) (hi : i < m.items.length)
    (hcursor : m.cursor = some i) : ∃ l p a r, xs = l ++ (p, a) :: r ∧ l.length = i ∧
      s.iter = some ⟨some p⟩ ∧ m.items = l.map Prod.snd ++ a :: r.map Prod.snd := by
  have hlt : i < xs.length := by
    rw [← h.items, List.length_map] at hi
    exact hi
  obtain ⟨l, y, r, hxs, hl⟩ : ∃ l y r, xs = l ++ y :: r ∧ l.length = i := by
    refine ⟨xs.take i, xs[i], xs.drop (i + 1), ?_, ?_⟩
    · rw [List.getElem_cons_drop, List.take_append_drop]
    · rw [List.length_take, min_eq_left hlt.le]
  refine ⟨l, y.1, y.2, r, hxs, hl, ?_, ?_⟩
  · rw [h.iter, hcursor, hxs, ← hl]
    simp
  · rw [← h.items, hxs]
    simp

theorem Matches.iter_eq_none (h : Matches s m xs) (hcursor : m.cursor = none) : s.iter = none := by
  rw [h.iter, hcursor]
  rfl

theorem Matches.returns_push (h : Matches s m xs) (hcursor : m.cursor = none)
    (hlt : m.items.length + 1 < 2 ^ 32) : Returns (listCall s (.push a)) fun r =>
      r.1 = .flag true ∧ ∃ xs', Matches r.2 { m with items := a :: m.items } xs' := by
  rw [← h.items, List.length_map] at hlt
  refine (LinkedList.returns_pushLinkedList h.repr hlt a).bind ?_
  rintro ⟨b, list⟩ ⟨rfl, hlist⟩
  refine returns_pure ⟨rfl, _, hlist, congrArg (a :: ·) h.items, ?_⟩
  rw [h.iter, hcursor]
  rfl

theorem Matches.returns_append (h : Matches s m xs) (hcursor : m.cursor = none)
    (hlt : m.items.length + 1 < 2 ^ 32) : Returns (listCall s (.append a)) fun r =>
      r.1 = .flag true ∧ ∃ xs', Matches r.2 { m with items := m.items ++ [a] } xs' := by
  rw [← h.items, List.length_map] at hlt
  refine (LinkedList.returns_appendLinkedList h.repr hlt a).bind ?_
  rintro ⟨b, list⟩ ⟨rfl, hlist⟩
  refine returns_pure ⟨rfl, _, hlist, by simp [← h.items], ?_⟩
  rw [h.iter, hcursor]
  rfl

theorem Matches.returns_pop (h : Matches s m xs) (hcursor : m.cursor = none) :
    Returns (listCall s .pop) fun r => r.1 = .payload m.items.head? ∧
      ∃ xs', Matches r.2 { m with items := m.items.tail } xs' := by
  have hiter := h.iter_eq_none hcursor
  cases xs with
  | nil =>
    have hpop : Returns (popLinkedList s.list) fun r => r = (none, s.list) := by
      rw [popLinkedList, if_pos (h.repr.numElements_eq_zero.mpr rfl)]
      exact returns_pure rfl
    refine hpop.bind_eq (returns_pure ?_)
    rw [← h.items]
    exact ⟨rfl, [], h.repr, rfl, by rw [hiter, hcursor]; rfl⟩
  | cons x xs =>
    refine (LinkedList.returns_popLinkedList h.repr).bind ?_
    rintro ⟨b, list⟩ ⟨rfl, hlist⟩
    apply returns_pure
    rw [← h.items]
    exact ⟨rfl, xs, hlist, rfl, by rw [hiter, hcursor]; rfl⟩

theorem Matches.returns_slice (h : Matches s m xs) (hcursor : m.cursor = none) :
    Returns (listCall s .slice) fun r => r.1 = .payload m.items.getLast? ∧
      ∃ xs', Matches r.2 { m with items := m.items.dropLast } xs' := by
  have hiter := h.iter_eq_none hcursor
  rcases List.eq_nil_or_concat' xs with rfl | ⟨xs, ⟨p, a⟩, rfl⟩
  · have hslice : Returns (sliceLinkedList s.list) fun r => r = (none, s.list) := by
      rw [sliceLinkedList, if_pos (h.repr.numElements_eq_zero.mpr rfl)]
      exact returns_pure rfl
    refine hslice.bind_eq (returns_pure ?_)
    rw [← h.items]
    exact ⟨rfl, [], h.repr, rfl, by rw [hiter, hcursor]; rfl⟩
  · refine (LinkedList.returns_sliceLinkedList h.repr).bind ?_
    rintro ⟨b, list⟩ ⟨rfl, hlist⟩
    apply returns_pure
    rw [← h.items]
    exact ⟨by simp, xs, hlist, by simp, by rw [hiter, hcursor]; rfl⟩

theorem Matches.returns_makeIterator (h : Matches s m xs) {pos : ℕ} (hpos : pos = 0 ∨ pos = 1) :
    Returns (listCall s (.makeIterator pos)) fun r => r.1 = (m.call (.makeIterator pos)).1 ∧
      ∃ xs', Matches r.2 (m.call (.makeIterator pos)).2 xs' := by
  refine (LinkedList.returns_llMakeIterator_end h.repr hpos).bind_eq (returns_pure ?_)
  have hitems : m.items = [] ↔ xs = [] := by rw [← h.items, List.map_eq_nil_iff]
  simp only [Cursored.call]
  by_cases hxs : xs = []
  · rw [if_pos hxs, if_pos (hitems.mpr hxs)]
    exact ⟨rfl, xs, h.repr, h.items, rfl⟩
  · rw [if_neg hxs, if_neg (mt hitems.mp hxs)]
    refine ⟨rfl, xs, h.repr, h.items, ?_⟩
    rcases hpos with rfl | rfl
    · rw [if_pos rfl, if_pos rfl, firstPtr, Option.or_none, List.head?_eq_getElem?]
      rfl
    · rw [if_neg one_ne_zero, if_neg one_ne_zero, lastPtr, Option.or_none,
        List.getLast?_eq_getElem?, ← h.items, List.length_map]
      rfl

/-- At an item, the node of the iterator is the one the cursor's index says. -/
theorem Matches.of_split {list : LinkedList α} {l r : List (Ptr × α)} {p : Ptr} {items : List α}
    (hlist : list.Repr (l ++ (p, a) :: r)) (hitems : (l ++ (p, a) :: r).map Prod.snd = items)
    (hl : l.length = i) : Matches ⟨list, some ⟨some p⟩⟩ ⟨items, some i⟩ (l ++ (p, a) :: r) := by
  refine ⟨hlist, hitems, ?_⟩
  rw [← hl]
  simp

theorem Matches.returns_next (h : Matches s m xs) (hi : i < m.items.length)
    (hcursor : m.cursor = some i) : Returns (listCall s .next) fun r =>
      r.1 = (m.call .next).1 ∧ ∃ xs', Matches r.2 (m.call .next).2 xs' := by
  obtain ⟨l, p, a, r, rfl, hl, hiter, hitems⟩ := h.split hi hcursor
  have hlen : m.items.length = i + 1 + r.length := by
    rw [hitems, List.length_append, List.length_cons, List.length_map, List.length_map]
    omega
  refine (returns_verifySome hiter).bind_eq ?_
  refine (LinkedList.returns_llIteratorNext h.repr).bind ?_
  simp only [Cursored.call, hcursor, hlen]
  cases r with
  | nil =>
    rintro _ rfl
    rw [if_neg (by simp)]
    obtain ⟨items, cursor⟩ := m
    cases hcursor
    exact returns_pure ⟨rfl, _, .of_split h.repr h.items hl⟩
  | cons y r =>
    obtain ⟨q, b⟩ := y
    rintro _ rfl
    rw [if_pos (by simp)]
    have hnext : l ++ (p, a) :: (q, b) :: r = (l ++ [(p, a)]) ++ (q, b) :: r := by simp
    refine returns_pure ⟨rfl, l ++ [(p, a)] ++ (q, b) :: r, ?_⟩
    exact .of_split (hnext ▸ h.repr) (hnext ▸ h.items) (by simp [hl])

theorem Matches.returns_prev (h : Matches s m xs) (hi : i < m.items.length)
    (hcursor : m.cursor = some i) : Returns (listCall s .prev) fun r =>
      r.1 = (m.call .prev).1 ∧ ∃ xs', Matches r.2 (m.call .prev).2 xs' := by
  obtain ⟨l, p, a, r, rfl, hl, hiter, hitems⟩ := h.split hi hcursor
  refine (returns_verifySome hiter).bind_eq ?_
  refine (LinkedList.returns_llIteratorPrev h.repr).bind_eq (returns_pure ?_)
  simp only [Cursored.call, hcursor]
  rcases List.eq_nil_or_concat' l with rfl | ⟨zs, ⟨q, b⟩, rfl⟩
  · have hzero : i = 0 := hl.symm
    rw [if_pos hzero]
    obtain ⟨items, cursor⟩ := m
    cases hcursor
    exact ⟨rfl, _, .of_split h.repr h.items hl⟩
  · rw [List.length_append, List.length_singleton] at hl
    rw [if_neg (by omega), List.getLast?_concat]
    have hprev : zs ++ [(q, b)] ++ (p, a) :: r = zs ++ (q, b) :: (p, a) :: r := by simp
    exact ⟨rfl, _, .of_split (hprev ▸ h.repr) (hprev ▸ h.items) (by omega)⟩

theorem Matches.returns_getPayload (h : Matches s m xs) (hi : i < m.items.length)
    (hcursor : m.cursor = some i) : Returns (listCall s .getPayload) fun r =>
      r.1 = (m.call .getPayload).1 ∧ ∃ xs', Matches r.2 (m.call .getPayload).2 xs' := by
  obtain ⟨l, p, a, r, rfl, hl, hiter, hitems⟩ := h.split hi hcursor
  refine (returns_verifySome hiter).bind_eq ?_
  refine (LinkedList.returns_llIteratorGetPayload h.repr).bind_eq (returns_pure ⟨?_, _, h⟩)
  simp only [Cursored.call, hcursor, hitems, Option.bind_some]
  rw [List.getElem?_append_right (by simp [hl])]
  simp [hl]

theorem Matches.returns_delete (h : Matches s m xs) (hi : i < m.items.length)
    (hcursor : m.cursor = some i) : Returns (listCall s .delete) fun r =>
      r.1 = (m.call .delete).1 ∧ ∃ xs', Matches r.2 (m.call .delete).2 xs' := by
  obtain ⟨l, p, a, r, rfl, hl, hiter, hitems⟩ := h.split hi hcursor
  refine (returns_verifySome hiter).bind_eq ?_
  refine (LinkedList.returns_llIteratorDelete h.repr).bind ?_
  rintro ⟨more, payload, list, iter⟩ ⟨rfl, rfl, hlist, rfl⟩
  have hget : m.items[i]? = some payload := by
    rw [hitems, List.getElem?_append_right (by simp [hl])]
    simp [hl]
  have herase : m.items.eraseIdx i = (l ++ r).map Prod.snd := by
    rw [hitems, List.eraseIdx_append_of_length_le (by simp [hl])]
    simp [hl]
  simp only [Cursored.call, hcursor, hget, herase, Option.bind_some, Option.map_some]
  refine returns_pure ⟨by rw [List.isEmpty_map], _, hlist, rfl, ?_⟩
  rw [Option.map_some, Cursored.afterErase, List.length_map, List.length_append, ← hl]
  dsimp only
  rw [LinkedList.afterDelete]
  cases r with
  | nil =>
    rw [if_neg (by simp), List.append_nil, firstPtr_nil, lastPtr, Option.or_none,
      List.getLast?_eq_getElem?]
  | cons y r => simp

theorem insertIdx_length_append {β : Type} (l r : List β) (b : β) :
    (l ++ r).insertIdx l.length b = l ++ b :: r := by
  induction l with
  | nil => rfl
  | cons c l ih =>
    rw [List.cons_append, List.length_cons, List.insertIdx_succ_cons, ih]
    rfl

theorem Matches.returns_insertBefore (h : Matches s m xs) (hi : i < m.items.length)
    (hcursor : m.cursor = some i) (hlt : m.items.length + 1 < 2 ^ 32) :
    Returns (listCall s (.insertBefore a)) fun r => r.1 = (m.call (.insertBefore a)).1 ∧
      ∃ xs', Matches r.2 (m.call (.insertBefore a)).2 xs' := by
  obtain ⟨l, p, b, r, rfl, hl, hiter, hitems⟩ := h.split hi hcursor
  rw [← h.items, List.length_map] at hlt
  refine (returns_verifySome hiter).bind_eq ?_
  refine (LinkedList.returns_llIteratorInsertBefore h.repr hlt a).bind ?_
  rintro ⟨b', list⟩ ⟨rfl, hlist⟩
  simp only [Cursored.call, hcursor]
  rw [hiter]
  have hassoc : l ++ (s.list.fresh, a) :: (p, b) :: r =
      (l ++ [(s.list.fresh, a)]) ++ (p, b) :: r := by simp
  dsimp only at hlist
  rw [hassoc] at hlist
  refine returns_pure ⟨rfl, _, .of_split hlist ?_ (by simp [hl])⟩
  have hinsert := insertIdx_length_append (l.map Prod.snd) (b :: r.map Prod.snd) a
  rw [List.length_map, hl] at hinsert
  rw [hitems, hinsert]
  simp

/-- A call that may be made does what it does to the mathematical list, if there is room
for what it adds. -/
theorem Matches.returns_listCall (h : Matches s m xs) {c : ListCall α} (hc : m.Allowed c)
    (hroom : (m.call c).2.items.length < 2 ^ 32) : Returns (listCall s c) fun r =>
      r.1 = (m.call c).1 ∧ ∃ xs', Matches r.2 (m.call c).2 xs' := by
  cases c with
  | push a => exact h.returns_push hc hroom
  | pop => exact h.returns_pop hc
  | append a => exact h.returns_append hc (by simpa [Cursored.call] using hroom)
  | slice => exact h.returns_slice hc
  | numElements =>
    refine returns_pure ⟨?_, xs, h⟩
    simp only [Cursored.call, numElementsInLinkedList]
    rw [h.repr.numElements, ← h.items, List.length_map]
  | makeIterator pos => exact h.returns_makeIterator hc.2
  | next =>
    obtain ⟨i, hi, hcursor⟩ := hc
    exact h.returns_next hi hcursor
  | prev =>
    obtain ⟨i, hi, hcursor⟩ := hc
    exact h.returns_prev hi hcursor
  | getPayload =>
    obtain ⟨i, hi, hcursor⟩ := hc
    exact h.returns_getPayload hi hcursor
  | delete =>
    obtain ⟨i, hi, hcursor⟩ := hc
    exact h.returns_delete hi hcursor
  | insertBefore a =>
    obtain ⟨i, hi, hcursor⟩ := hc
    refine h.returns_insertBefore hi hcursor ?_
    simpa [Cursored.call, hcursor, List.length_insertIdx, hi.le] using hroom
  | freeIterator =>
    obtain ⟨i, hcursor⟩ := Option.ne_none_iff_exists'.mp hc
    have hiter : s.iter = some ⟨xs[i]?.map Prod.fst⟩ := by
      rw [h.iter, hcursor]
      rfl
    have hfree : Returns (llIteratorFree s.iter) fun _ => True :=
      (returns_verifySome hiter).bind_eq (returns_pure trivial)
    exact hfree.bind fun _ _ => returns_pure ⟨rfl, xs, h.repr, h.items, rfl⟩

end Calls

/-! ## Every sequence of calls -/

section Sessions

variable {s : Handle α} {m : Cursored α} {xs : List (Ptr × α)} {calls : List (ListCall α)}

theorem Cursored.Legal.of_append {cs ds : List (ListCall α)} (h : m.Legal (cs ++ ds)) :
    m.Legal cs := by
  induction cs generalizing m with
  | nil => trivial
  | cons c cs ih => exact ⟨h.1, ih h.2⟩

/-- The list never gets `2 ^ 32` items. -/
def Cursored.Fits (m : Cursored α) (calls : List (ListCall α)) : Prop :=
  ∀ cs, cs <+: calls → (m.session cs).2.items.length < 2 ^ 32

theorem Matches.returns_listSession (h : Matches s m xs) (hlegal : m.Legal calls)
    (hfits : m.Fits calls) : Returns (listSession s calls) fun r =>
      r.1 = (m.session calls).1 ∧ ∃ ys, Matches r.2 (m.session calls).2 ys := by
  induction calls generalizing s m xs with
  | nil => exact returns_pure ⟨rfl, xs, h⟩
  | cons c cs ih =>
    have hroom : (m.call c).2.items.length < 2 ^ 32 := hfits [c] ⟨cs, rfl⟩
    have hrest : (m.call c).2.Fits cs := fun ds hds =>
      hfits (c :: ds) (List.cons_prefix_cons.mpr ⟨rfl, hds⟩)
    refine (h.returns_listCall hlegal.1 hroom).bind ?_
    rintro ⟨reply, s'⟩ ⟨rfl, ys, hs'⟩
    refine (ih hs' hlegal.2 hrest).bind ?_
    rintro ⟨replies, s''⟩ ⟨rfl, zs, hs''⟩
    exact returns_pure ⟨rfl, zs, hs''⟩

/-- After the calls the list is well formed and holds the items of `m`, the iterator is at
the cursor, and the replies were those of the mathematical list. -/
def AgreesAfter (calls : List (ListCall α)) : Prop :=
  Returns (newListSession calls) fun r =>
    r.1 = (Cursored.session ⟨[], none⟩ calls).1 ∧
      ∃ ps, WellFormed r.2.list ps (Cursored.session ⟨[], none⟩ calls).2.items ∧
        r.2.iter = (Cursored.session ⟨[], none⟩ calls).2.cursor.map fun i => ⟨ps[i]?⟩

theorem agreesAfter_of_fits (hlegal : Cursored.Legal ⟨[], none⟩ calls)
    (hfits : Cursored.Fits ⟨[], none⟩ calls) : AgreesAfter calls := by
  refine LinkedList.returns_allocateLinkedList.bind ?_
  rintro _ ⟨list, rfl, hlist⟩
  refine (returns_verifySome rfl).bind_eq ?_
  have hstart : Matches ⟨list, none⟩ ⟨[], none⟩ [] := ⟨hlist, rfl, rfl⟩
  refine (hstart.returns_listSession hlegal hfits).mono ?_
  rintro ⟨replies, s⟩ ⟨hreplies, ys, hs⟩
  refine ⟨hreplies, ys.map Prod.fst, hs.items ▸ hs.repr.wellFormed, ?_⟩
  refine hs.iter.trans ?_
  simp only [List.getElem?_map]

/-- A sequence of calls does at every moment what it does to a mathematical list with a
cursor, exactly if the list never gets `2 ^ 32` items. -/
theorem listSession_agrees_iff (hlegal : Cursored.Legal ⟨[], none⟩ calls) :
    (∀ cs, cs <+: calls → AgreesAfter cs) ↔ Cursored.Fits ⟨[], none⟩ calls := by
  constructor
  · intro hagrees cs hcs
    obtain ⟨r, -, ps, hwell, -⟩ := (hagrees cs hcs).exists
    rw [← hwell.numElements]
    exact UInt32.toNat_lt _
  · rintro hfits cs ⟨ds, rfl⟩
    refine agreesAfter_of_fits hlegal.of_append fun cs' hcs' => ?_
    exact hfits cs' (hcs'.trans (List.prefix_append cs ds))

end Sessions

/-- Items come in at both ends and before the cursor, and go at the cursor until the list
is empty. -/
def cursorCalls : List (ListCall ℕ) :=
  [.push 2, .append 3, .push 1, .makeIterator 0, .next, .insertBefore 7, .delete, .delete, .prev,
    .getPayload, .delete, .delete, .freeIterator, .pop, .numElements]

theorem listSession_agrees_cursorCalls :
    (Cursored.session ⟨[], none⟩ cursorCalls).1 = [.flag true, .flag true, .flag true, .flag true,
      .flag true, .flag true, .deleted true 2, .deleted true 3, .flag true, .payload (some 1),
      .deleted true 1, .deleted false 7, .done, .payload none, .count 0] ∧
    AgreesAfter cursorCalls := by
  have hlengths : ∀ cs ∈ cursorCalls.inits,
      (Cursored.session ⟨[], none⟩ cs).2.items.length < 2 ^ 32 := by decide
  refine ⟨by decide, (listSession_agrees_iff (by decide)).mpr ?_ _ (List.prefix_refl _)⟩
  exact fun cs hcs => hlengths cs ((List.mem_inits _ _).mpr hcs)

/-- As many payloads as `HWSize_t` has values. -/
def fullCalls : List (ListCall ℕ) := List.replicate (2 ^ 32) (.push 0)

theorem session_replicate_push (n : ℕ) (items : List ℕ) :
    Cursored.session ⟨items, none⟩ (List.replicate n (.push 0)) =
      (List.replicate n (.flag true), ⟨List.replicate n 0 ++ items, none⟩) := by
  induction n generalizing items with
  | zero => rfl
  | succ n ih =>
    rw [List.replicate_succ, List.replicate_succ, Cursored.session]
    simp only [Cursored.call, ih]
    rw [List.replicate_succ', List.append_assoc]
    rfl

theorem legal_replicate_push (n : ℕ) (items : List ℕ) :
    Cursored.Legal ⟨items, none⟩ (List.replicate n (.push 0)) := by
  induction n generalizing items with
  | zero => trivial
  | succ n ih => exact ⟨rfl, ih (0 :: items)⟩

/-- After `2 ^ 32` pushes the count is not the length. -/
theorem not_agreesAfter_fullCalls :
    Cursored.Legal ⟨[], none⟩ fullCalls ∧ ¬ AgreesAfter fullCalls := by
  refine ⟨legal_replicate_push _ _, fun hagrees => ?_⟩
  obtain ⟨r, -, ps, hwell, -⟩ := hagrees.exists
  have hlt := UInt32.toNat_lt r.2.list.numElements
  rw [hwell.numElements, fullCalls, session_replicate_push, List.append_nil,
    List.length_replicate] at hlt
  exact lt_irrefl _ hlt

end Courses.SearchEngine
