import Courses.Lib.Alloc
import Courses.Lib.Linked

/-!
# The doubly linked list

`hw1/LinkedList.c`, with its nodes, their `next` and `prev` pointers and the
iterators over them. No node is ever shared between two lists, so each list
carries the part of the heap that holds its own nodes; a payload is a record that
only its node points to, and is kept by value. Freed nodes leave the store, so a
dangling pointer faults when it is followed.

`Repr list xs` says which sequence of nodes a list holds; the operations used by
the hash table are specified against it.
-/
namespace Courses.SearchEngine

open Courses.Lib Courses.Lib.AllocM

/-- `HWSize_t`. -/
abbrev HWSize := UInt32

structure LinkedList (α : Type) where
  numElements : HWSize
  head : Option Ptr
  tail : Option Ptr
  /-- The nodes of this list, by address. -/
  nodes : Ptr → Option (Node α)
  /-- The address the next node will get. -/
  fresh : Ptr

/-- An iterator; its node is NULL once the list it walks has become empty. -/
structure LLIter where
  node : Option Ptr
  deriving Repr, DecidableEq

variable {α : Type}

namespace LinkedList

/-- Follow a pointer. -/
def deref (list : LinkedList α) (p : Option Ptr) : AllocM (Ptr × Node α) := do
  let q ← demand p
  let n ← demand (list.nodes q)
  return (q, n)

/-- Overwrite the node at `q`. -/
def store (list : LinkedList α) (q : Ptr) (n : Node α) : LinkedList α :=
  { list with nodes := Function.update list.nodes q (some n) }

/-- Write to the node behind a pointer. -/
def modify (list : LinkedList α) (p : Option Ptr) (f : Node α → Node α) :
    AllocM (LinkedList α) := do
  let (q, n) ← list.deref p
  pure (list.store q (f n))

/-- Give the node's memory back. -/
def free (list : LinkedList α) (q : Ptr) : LinkedList α :=
  { list with nodes := Function.update list.nodes q none }

/-- Place a new node at the fresh address. -/
def place (list : LinkedList α) (n : Node α) : LinkedList α :=
  { list.store list.fresh n with fresh := list.fresh + 1 }

end LinkedList

def allocateLinkedList : AllocM (Option (LinkedList α)) := do
  if ← malloc then
    return some { numElements := 0, head := none, tail := none, nodes := fun _ => none, fresh := 1 }
  else
    return none

def numElementsInLinkedList (list : LinkedList α) : HWSize := list.numElements

/-- Take the first payload off, or answer that the list is empty. -/
def popLinkedList (list : LinkedList α) : AllocM (Option α × LinkedList α) := do
  if list.numElements = 0 then
    return (none, list)
  else
    let (tmp, n) ← list.deref list.head
    let list ←
      if list.numElements = 1 then
        pure { list with head := none, tail := none }
      else
        LinkedList.modify { list with head := n.next } n.next fun m => { m with prev := none }
    return (some n.payload, { list.free tmp with numElements := list.numElements - 1 })

/-- Put a payload at the end; `false` when there is no memory for its node. -/
def appendLinkedList (list : LinkedList α) (payload : α) : AllocM (Bool × LinkedList α) := do
  if ← malloc then
    let ln := list.fresh
    if list.numElements = 0 then
      verify list.head.isNone
      verify list.tail.isNone
      return (true, { list.place ⟨payload, none, none⟩ with
        head := some ln, tail := some ln, numElements := 1 })
    else
      let list' ← list.modify list.tail fun m => { m with next := some ln }
      return (true, { list'.place ⟨payload, none, list.tail⟩ with
        tail := some ln, numElements := list.numElements + 1 })
  else
    return (false, list)

/-- Take the last payload off, or answer that the list is empty. -/
def sliceLinkedList (list : LinkedList α) : AllocM (Option α × LinkedList α) := do
  if list.numElements = 0 then
    return (none, list)
  else
    let (tmp, n) ← list.deref list.tail
    let list ←
      if list.numElements = 1 then
        pure { list with head := none, tail := none }
      else
        LinkedList.modify { list with tail := n.prev } n.prev fun m => { m with next := none }
    return (some n.payload, { list.free tmp with numElements := list.numElements - 1 })

/-- An iterator at the head (`pos = 0`) or at the tail; NULL for an empty list. -/
def llMakeIterator (list : LinkedList α) (pos : ℕ) : AllocM (Option LLIter) := do
  verify (pos = 0 ∨ pos = 1)
  if numElementsInLinkedList list = 0 then
    return none
  else if ← malloc then
    return some ⟨if pos = 0 then list.head else list.tail⟩
  else
    return none

def llIteratorHasNext (list : LinkedList α) (iter : LLIter) : AllocM Bool := do
  verify iter.node.isSome
  let (_, n) ← list.deref iter.node
  return n.next.isSome

/-- Move to the next node, if there is one. -/
def llIteratorNext (list : LinkedList α) (iter : LLIter) : AllocM (Bool × LLIter) := do
  verify iter.node.isSome
  if ← llIteratorHasNext list iter then
    let (_, n) ← list.deref iter.node
    return (true, ⟨n.next⟩)
  else
    return (false, iter)

def llIteratorGetPayload (list : LinkedList α) (iter : LLIter) : AllocM α := do
  verify iter.node.isSome
  let (_, n) ← list.deref iter.node
  return n.payload

/-- Delete the node the iterator is at. The answer carries the value returned, the
payload handed to `payload_free_function`, and the new list and iterator. -/
def llIteratorDelete (list : LinkedList α) (iter : LLIter) :
    AllocM (Bool × α × LinkedList α × LLIter) := do
  verify iter.node.isSome
  let (q, n) ← list.deref iter.node
  if n.prev.isNone ∧ n.next.isNone then
    let (payload, list) ← popLinkedList list
    -- `payload` stays uninitialised in the source if the pop answers false.
    let payload ← demand payload
    return (false, payload, list, ⟨none⟩)
  else if n.prev.isNone then
    let (payload, list) ← popLinkedList list
    let payload ← demand payload
    return (true, payload, list, ⟨list.head⟩)
  else if n.next.isNone then
    let (payload, list) ← sliceLinkedList list
    let payload ← demand payload
    return (true, payload, list, ⟨list.tail⟩)
  else
    let list ← list.modify n.prev fun m => { m with next := n.next }
    let list ← list.modify n.next fun m => { m with prev := n.prev }
    return (true, n.payload, { list.free q with numElements := list.numElements - 1 }, ⟨n.next⟩)

/-! ## What a list holds -/

/-- The list holds the nodes `xs`: its links, its ends and its count all say so. -/
structure LinkedList.Repr (list : LinkedList α) (xs : List (Ptr × α)) : Prop where
  numElements : list.numElements.toNat = xs.length
  head : list.head = firstPtr xs none
  tail : list.tail = lastPtr none xs
  linked : Linked list.nodes none xs none
  nodup : (xs.map Prod.fst).Nodup
  fresh : ∀ p ∈ xs.map Prod.fst, p < list.fresh

namespace LinkedList

variable {list : LinkedList α} {xs ys : List (Ptr × α)} {p : Ptr} {a : α}

theorem returns_deref {n : Node α} {ptr : Option Ptr} (hp : ptr = some p)
    (h : list.nodes p = some n) : Returns (list.deref ptr) (fun r => r = (p, n)) :=
  (returns_demand hp).bind_eq ((returns_demand h).bind_eq (returns_pure rfl))

theorem returns_modify {n : Node α} {ptr : Option Ptr} (hp : ptr = some p)
    (h : list.nodes p = some n) (f : Node α → Node α) :
    Returns (list.modify ptr f) (fun r => r = list.store p (f n)) :=
  (returns_deref hp h).bind_eq (returns_pure rfl)

namespace Repr

theorem numElements_eq_zero (h : list.Repr xs) : list.numElements = 0 ↔ xs = [] := by
  rw [← UInt32.toNat_inj, h.numElements]
  exact List.length_eq_zero_iff

theorem numElementsInLinkedList_eq_zero (h : list.Repr xs) :
    numElementsInLinkedList list = 0 ↔ xs = [] :=
  h.numElements_eq_zero

theorem numElements_eq_one (h : list.Repr xs) : list.numElements = 1 ↔ xs.length = 1 := by
  rw [← UInt32.toNat_inj, h.numElements]
  rfl

/-- What the store has at a node of the list. -/
theorem node (h : list.Repr (xs ++ (p, a) :: ys)) :
    list.nodes p = some ⟨a, firstPtr ys none, lastPtr none xs⟩ :=
  ((linked_middle _ _ _ _ _ _).mp h.linked).2.1

theorem not_mem_left (h : list.Repr (xs ++ (p, a) :: ys)) : p ∉ xs.map Prod.fst := by
  have := h.nodup
  simp only [List.map_append, List.map_cons, List.nodup_append] at this
  exact fun hp => this.2.2 p hp p (by simp) rfl

theorem not_mem_right (h : list.Repr (xs ++ (p, a) :: ys)) : p ∉ ys.map Prod.fst := by
  have := h.nodup
  simp only [List.map_append, List.map_cons, List.nodup_append, List.nodup_cons] at this
  exact this.2.1.1

/-- Dropping a node from the sequence keeps the bookkeeping facts. -/
theorem addresses_erase (h : list.Repr (xs ++ (p, a) :: ys)) :
    ((xs ++ ys).map Prod.fst).Nodup ∧ ∀ q ∈ (xs ++ ys).map Prod.fst, q < list.fresh := by
  have hsub : ((xs ++ ys).map Prod.fst).Sublist ((xs ++ (p, a) :: ys).map Prod.fst) := by
    apply List.Sublist.map
    apply List.Sublist.append_left
    apply List.sublist_cons_self
  exact ⟨h.nodup.sublist hsub, fun q hq => h.fresh q (hsub.subset hq)⟩

theorem numElements_pred (h : list.Repr (xs ++ (p, a) :: ys)) :
    (list.numElements - 1).toNat = (xs ++ ys).length := by
  have hn := h.numElements
  have hle : (1 : HWSize) ≤ list.numElements := by
    rw [UInt32.le_iff_toNat_le, hn, List.length_append, List.length_cons, UInt32.toNat_one]
    omega
  rw [UInt32.toNat_sub_of_le _ _ hle, hn]
  simp

end Repr

/-! ## The operations -/

theorem returns_allocateLinkedList :
    Returns (allocateLinkedList (α := α)) (fun r => ∃ list, r = some list ∧ list.Repr []) := by
  apply returns_malloc_bind
  apply returns_pure
  refine ⟨_, rfl, rfl, rfl, rfl, trivial, List.nodup_nil, ?_⟩
  simp

theorem returns_popLinkedList (h : list.Repr ((p, a) :: xs)) :
    Returns (popLinkedList list) (fun r => r.1 = some a ∧ r.2.Repr xs) := by
  have hne : list.numElements ≠ 0 := by
    rw [Ne, h.numElements_eq_zero]
    simp
  have h' : list.Repr ([] ++ (p, a) :: xs) := h
  rw [popLinkedList, if_neg hne]
  refine (returns_deref h.head h'.node).bind_eq ?_
  cases xs with
  | nil =>
    dsimp only
    rw [if_pos (h.numElements_eq_one.mpr rfl)]
    refine Returns.bind_eq (returns_pure rfl) (returns_pure ⟨rfl, ?_⟩)
    exact ⟨h'.numElements_pred, rfl, rfl, trivial, List.nodup_nil, by simp⟩
  | cons y ys =>
    obtain ⟨q, b⟩ := y
    have hone : list.numElements ≠ 1 := by
      rw [Ne, h.numElements_eq_one]
      simp
    dsimp only
    rw [if_neg hone]
    have hq : list.Repr ([(p, a)] ++ (q, b) :: ys) := h
    refine Returns.bind_eq (returns_modify rfl (by exact hq.node) _) (returns_pure ⟨rfl, ?_⟩)
    refine ⟨h'.numElements_pred, rfl, ?_, ?_, h'.addresses_erase.1, h'.addresses_erase.2⟩
    · exact h.tail.trans (lastPtr_cons _ _ _)
    · exact (h.linked.2.setPrev hq.not_mem_right none).update h'.not_mem_right none

theorem returns_sliceLinkedList (h : list.Repr (xs ++ [(p, a)])) :
    Returns (sliceLinkedList list) (fun r => r.1 = some a ∧ r.2.Repr xs) := by
  have hne : list.numElements ≠ 0 := by
    rw [Ne, h.numElements_eq_zero]
    simp
  have hxs : xs ++ [] = xs := List.append_nil xs
  have htail : list.tail = some p := h.tail.trans (lastPtr_concat _ _ _)
  rw [sliceLinkedList, if_neg hne]
  refine (returns_deref htail h.node).bind_eq ?_
  dsimp only
  rcases List.eq_nil_or_concat' xs with rfl | ⟨ys, ⟨q, b⟩, rfl⟩
  · rw [if_pos (h.numElements_eq_one.mpr rfl)]
    refine Returns.bind_eq (returns_pure rfl) (returns_pure ⟨rfl, ?_⟩)
    exact ⟨h.numElements_pred, rfl, rfl, trivial, List.nodup_nil, by simp⟩
  · have hone : list.numElements ≠ 1 := by
      rw [Ne, h.numElements_eq_one]
      simp
    rw [if_neg hone]
    have hq : list.Repr (ys ++ (q, b) :: [(p, a)]) := by simpa using h
    have hprev : lastPtr none (ys ++ [(q, b)]) = some q := lastPtr_concat _ _ _
    refine Returns.bind_eq (returns_modify hprev (by exact hq.node) _) (returns_pure ⟨rfl, ?_⟩)
    have herase := h.addresses_erase
    have hlen := h.numElements_pred
    rw [hxs] at herase hlen
    refine ⟨hlen, ?_, rfl, ?_, herase.1, herase.2⟩
    · exact h.head.trans (by rw [firstPtr_append, firstPtr_append, firstPtr_append]; rfl)
    · have hlinked := ((linked_append _ _ _ _).mp h.linked).1
      exact (hlinked.setNext hq.not_mem_left none).update h.not_mem_left none

theorem returns_appendLinkedList (h : list.Repr xs) (hlt : xs.length + 1 < 2 ^ 32) (a : α) :
    Returns (appendLinkedList list a)
      (fun r => r.1 = true ∧ r.2.Repr (xs ++ [(list.fresh, a)])) := by
  have hfresh : list.fresh ∉ xs.map Prod.fst := fun hp => lt_irrefl _ (h.fresh _ hp)
  have hnodup : ((xs ++ [(list.fresh, a)]).map Prod.fst).Nodup := by
    rw [List.map_append, List.map_singleton]
    exact h.nodup.append (List.nodup_singleton _) (by simpa using hfresh)
  have hbound : ∀ q ∈ (xs ++ [(list.fresh, a)]).map Prod.fst, q < list.fresh + 1 := by
    intro q hq
    rw [List.map_append, List.mem_append] at hq
    rcases hq with hq | hq
    · exact (h.fresh q hq).trans (Nat.lt_succ_self _)
    · rw [List.map_singleton, List.mem_singleton] at hq
      exact hq ▸ Nat.lt_succ_self _
  have hlast : lastPtr none (xs ++ [(list.fresh, a)]) = some list.fresh := lastPtr_concat _ _ _
  apply returns_malloc_bind
  rcases List.eq_nil_or_concat' xs with rfl | ⟨ys, ⟨q, b⟩, rfl⟩
  · rw [if_pos rfl, if_pos (h.numElements_eq_zero.mpr rfl)]
    refine (returns_verify (by rw [h.head]; rfl)).bind fun _ _ => ?_
    refine (returns_verify (by rw [h.tail]; rfl)).bind fun _ _ => returns_pure ⟨rfl, ?_⟩
    exact ⟨rfl, rfl, rfl, ⟨Function.update_self _ _ _, trivial⟩, hnodup, hbound⟩
  · have hne : list.numElements ≠ 0 := by
      rw [Ne, h.numElements_eq_zero]
      simp
    have htail : list.tail = some q := h.tail.trans (lastPtr_concat _ _ _)
    rw [if_pos rfl, if_neg hne]
    refine (returns_modify htail h.node _).bind_eq (returns_pure ⟨rfl, ?_⟩)
    refine ⟨?_, ?_, hlast.symm, ?_, hnodup, hbound⟩
    · have hn := h.numElements
      change (list.numElements + 1).toNat = _
      rw [UInt32.toNat_add, hn, UInt32.toNat_one, Nat.mod_eq_of_lt hlt]
      simp
    · exact h.head.trans (by rw [firstPtr_append, firstPtr_append, firstPtr_append]; rfl)
    · rw [linked_append]
      refine ⟨(h.linked.setNext h.not_mem_left _).update hfresh _, ?_, trivial⟩
      exact (Function.update_self _ _ _).trans (by rw [htail, lastPtr_concat]; rfl)

/-- An append returns even where the count of elements wraps. -/
theorem returns_appendLinkedList_any (h : list.Repr xs) (a : α) :
    Returns (appendLinkedList list a) fun _ => True := by
  apply returns_malloc_bind
  rw [if_pos rfl]
  rcases List.eq_nil_or_concat' xs with rfl | ⟨ys, ⟨q, b⟩, rfl⟩
  · rw [if_pos (h.numElements_eq_zero.mpr rfl)]
    refine (returns_verify (by rw [h.head]; rfl)).bind fun _ _ => ?_
    exact (returns_verify (by rw [h.tail]; rfl)).bind fun _ _ => returns_pure trivial
  · have hne : list.numElements ≠ 0 := by
      rw [Ne, h.numElements_eq_zero]
      simp
    have htail : list.tail = some q := h.tail.trans (lastPtr_concat _ _ _)
    rw [if_neg hne]
    exact (returns_modify htail h.node _).bind_eq (returns_pure trivial)

/-- Writing through the payload pointer of a node. -/
theorem returns_setPayload (h : list.Repr (xs ++ (p, a) :: ys)) (b : α) :
    Returns (list.modify (some p) fun n => { n with payload := b })
      (fun r => r.Repr (xs ++ (p, b) :: ys)) := by
  refine (returns_modify rfl h.node _).mono ?_
  rintro _ rfl
  obtain ⟨hleft, -, hright⟩ := (linked_middle _ _ _ _ _ _).mp h.linked
  have haddr : (xs ++ (p, b) :: ys).map Prod.fst = (xs ++ (p, a) :: ys).map Prod.fst := by simp
  refine ⟨?_, ?_, ?_, ?_, haddr ▸ h.nodup, haddr ▸ h.fresh⟩
  · refine h.numElements.trans ?_
    simp
  · refine h.head.trans ?_
    rw [firstPtr_append, firstPtr_append]
    rfl
  · refine h.tail.trans ?_
    rw [lastPtr_append, lastPtr_append, lastPtr_cons, lastPtr_cons]
  · rw [linked_middle]
    exact ⟨hleft.update h.not_mem_left _, Function.update_self _ _ _,
      hright.update h.not_mem_right _⟩

/-! ## Iterators -/

theorem returns_llMakeIterator (h : list.Repr xs) (hne : xs ≠ []) :
    Returns (llMakeIterator list 0) (fun r => r = some ⟨firstPtr xs none⟩) := by
  have hne : numElementsInLinkedList list ≠ 0 := mt h.numElementsInLinkedList_eq_zero.mp hne
  refine (returns_verify (by simp)).bind fun _ _ => ?_
  rw [if_neg hne]
  apply returns_malloc_bind
  apply returns_pure
  rw [if_pos rfl, h.head]

theorem returns_llIteratorHasNext (h : list.Repr (xs ++ (p, a) :: ys)) :
    Returns (llIteratorHasNext list ⟨some p⟩) (fun r => r = (firstPtr ys none).isSome) := by
  refine (returns_verify rfl).bind fun _ _ => ?_
  exact (returns_deref rfl h.node).bind_eq (returns_pure rfl)

theorem returns_llIteratorNext (h : list.Repr (xs ++ (p, a) :: ys)) :
    Returns (llIteratorNext list ⟨some p⟩) (fun r => match ys with
      | [] => r = (false, ⟨some p⟩)
      | y :: _ => r = (true, ⟨some y.1⟩)) := by
  refine (returns_verify rfl).bind fun _ _ => (returns_llIteratorHasNext h).bind_eq ?_
  cases ys with
  | nil => exact returns_pure rfl
  | cons y ys => exact (returns_deref rfl h.node).bind_eq (returns_pure rfl)

theorem returns_llIteratorGetPayload (h : list.Repr (xs ++ (p, a) :: ys)) :
    Returns (llIteratorGetPayload list ⟨some p⟩) (fun r => r = a) := by
  refine (returns_verify rfl).bind fun _ _ => ?_
  exact (returns_deref rfl h.node).bind_eq (returns_pure rfl)

/-- Where the iterator stands after a deletion: at the successor, at the new tail
when the last node went, nowhere when the list became empty. -/
def afterDelete (xs ys : List (Ptr × α)) : Option Ptr :=
  firstPtr ys (lastPtr none xs)

theorem returns_llIteratorDelete (h : list.Repr (xs ++ (p, a) :: ys)) :
    Returns (llIteratorDelete list ⟨some p⟩) (fun r =>
      r.1 = !(xs ++ ys).isEmpty ∧ r.2.1 = a ∧ r.2.2.1.Repr (xs ++ ys) ∧
        r.2.2.2 = ⟨afterDelete xs ys⟩) := by
  refine (returns_verify rfl).bind fun _ _ => (returns_deref rfl h.node).bind_eq ?_
  -- the four cases of the source: alone, at the head, at the tail, in the middle
  rcases List.eq_nil_or_concat' xs with rfl | ⟨zs, ⟨q, b⟩, rfl⟩
  · cases ys with
    | nil =>
      refine (returns_popLinkedList h).bind ?_
      rintro ⟨_, l⟩ ⟨rfl, hl⟩
      exact (returns_demand rfl).bind_eq (returns_pure ⟨rfl, rfl, hl, rfl⟩)
    | cons y ys =>
      refine (returns_popLinkedList h).bind ?_
      rintro ⟨_, l⟩ ⟨rfl, hl⟩
      refine (returns_demand rfl).bind_eq (returns_pure ⟨rfl, rfl, hl, ?_⟩)
      exact congrArg LLIter.mk hl.head
  · have hprev : lastPtr none (zs ++ [(q, b)]) = some q := lastPtr_concat _ _ _
    dsimp only
    rw [hprev]
    cases ys with
    | nil =>
      refine (returns_sliceLinkedList h).bind ?_
      rintro ⟨_, l⟩ ⟨rfl, hl⟩
      refine (returns_demand rfl).bind_eq (returns_pure ⟨by simp, rfl, by simpa using hl, ?_⟩)
      exact congrArg LLIter.mk (hl.tail.trans rfl)
    | cons y ys =>
      obtain ⟨r, c⟩ := y
      have hq : list.Repr (zs ++ (q, b) :: (p, a) :: (r, c) :: ys) := by simpa using h
      have hr : list.Repr ((zs ++ [(q, b)] ++ [(p, a)]) ++ (r, c) :: ys) := by simpa using h
      have hqr : q ∉ ((r, c) :: ys).map Prod.fst := fun hm =>
        hq.not_mem_right (List.mem_cons_of_mem _ hm)
      have hrq : r ∉ (zs ++ [(q, b)]).map Prod.fst := fun hm =>
        hr.not_mem_left (by rw [List.map_append]; exact List.mem_append_left _ hm)
      have hne : r ≠ q := fun e => hqr (by simp [e])
      refine (returns_modify rfl hq.node _).bind_eq ?_
      refine (returns_modify rfl ((Function.update_of_ne hne _ _).trans hr.node) _).bind_eq ?_
      refine returns_pure ⟨by simp, rfl, ?_, rfl⟩
      obtain ⟨hleft, -, hright⟩ := (linked_middle _ _ _ _ _ _).mp h.linked
      refine ⟨h.numElements_pred, ?_, ?_, ?_, h.addresses_erase.1, h.addresses_erase.2⟩
      · refine h.head.trans ?_
        rw [firstPtr_append, firstPtr_append, firstPtr_append, firstPtr_append]
        rfl
      · refine h.tail.trans ?_
        rw [lastPtr_append, lastPtr_cons, lastPtr_cons]
        exact ((lastPtr_append _ _ _).trans (lastPtr_cons _ _ _)).symm
      · rw [linked_append]
        constructor
        · exact ((hleft.setNext hq.not_mem_left (some r)).update hrq _).update h.not_mem_left none
        · rw [hprev]
          exact ((hright.update hqr _).setPrev hr.not_mem_right (some q)).update
            h.not_mem_right none

end LinkedList

end Courses.SearchEngine
