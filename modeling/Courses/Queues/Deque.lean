import Courses.Lib.Linked
import Courses.Lib.Numbers
import Courses.Lib.Sessions

/-!
# The deque

`Deque` is a chain of nodes with a reference to either end. The nodes of a deque are its
own, so the deque carries the part of the heap that holds them; an item that is `null` is
nothing. What a method has written stays written when it throws.
-/
namespace Courses.Queues

open Courses.Lib

inductive DequeError
  | illegalArgument
  | noSuchElement
  | nullPointer
  deriving DecidableEq

structure Deque (α : Type) where
  heap : Ptr → Option (Node α)
  /-- the next node gets this address -/
  fresh : Ptr
  first : Option Ptr
  last : Option Ptr
  size : ℤ

abbrev DequeM (α : Type) := EStateM DequeError (Deque α)

namespace Deque

variable {α : Type}

/-- `new Deque()` -/
def new : Deque α := ⟨fun _ => none, 0, none, none, 0⟩

/-! ## Nodes -/

/-- Follow a reference. -/
def node (p : Option Ptr) : DequeM α (Ptr × Node α) := do
  match p with
  | none => throw .nullPointer
  | some q =>
    match (← get).heap q with
    | none => throw .nullPointer
    | some n => return (q, n)

def store (q : Ptr) (n : Node α) (d : Deque α) : Deque α :=
  { d with heap := Function.update d.heap q (some n) }

/-- `p.next = q` -/
def setNext (p q : Option Ptr) : DequeM α Unit := do
  let (a, n) ← node p
  modify (store a { n with next := q })

/-- `p.prev = q` -/
def setPrev (p q : Option Ptr) : DequeM α Unit := do
  let (a, n) ← node p
  modify (store a { n with prev := q })

/-- `new Node()` with its item. -/
def newNode (item : α) : DequeM α (Option Ptr) := do
  let d ← get
  set { store d.fresh ⟨item, none, none⟩ d with fresh := d.fresh + 1 }
  return some d.fresh

def setFirst (p : Option Ptr) : DequeM α Unit := modify fun d => { d with first := p }

def setLast (p : Option Ptr) : DequeM α Unit := modify fun d => { d with last := p }

def addSize (n : ℤ) : DequeM α Unit := modify fun d => { d with size := int32 (d.size + n) }

/-! ## The methods -/

/-- The new node becomes the first one. -/
def linkFirst (node : Option Ptr) : DequeM α Unit := do
  if (← get).size = 0 then
    setFirst node
    setLast node
  else
    setNext node (← get).first
    setPrev (← get).first node
    setPrev node none
    setFirst node

def addFirst (item : Option α) : DequeM α Unit :=
  match item with
  | none => throw .illegalArgument
  | some item => do
    linkFirst (← newNode item)
    addSize 1

/-- The new node becomes the last one. -/
def linkLast (node : Option Ptr) : DequeM α Unit := do
  if (← get).size = 0 then
    setFirst node
    setLast node
  else
    setNext (← get).last node
    setPrev node (← get).last
    setLast node
    setNext node none

def addLast (item : Option α) : DequeM α Unit :=
  match item with
  | none => throw .illegalArgument
  | some item => do
    linkLast (← newNode item)
    addSize 1

/-- The end that is left when the first node is taken off. -/
def unlinkFirst : DequeM α Unit := do
  if (← get).size = 1 then setLast none else setPrev (← get).first none

def removeFirst : DequeM α α := do
  if (← get).size = 0 then
    throw .noSuchElement
  else
    let orig := (← get).first
    setFirst (← node orig).2.next
    unlinkFirst
    addSize (-1)
    return (← node orig).2.payload

/-- The end that is left when the last node is taken off. -/
def unlinkLast : DequeM α Unit := do
  if (← get).size = 1 then setFirst none else setNext (← get).last none

def removeLast : DequeM α α := do
  if (← get).size = 0 then
    throw .noSuchElement
  else
    let orig := (← get).last
    setLast (← node orig).2.prev
    unlinkLast
    addSize (-1)
    return (← node orig).2.payload

/-! ## Iteration -/

/-- `hasNext` of an iterator at `current`. -/
def hasNext (current : Option Ptr) : Bool := current.isSome

/-- `next` of an iterator at `current`, with its new position. -/
def next (d : Deque α) (current : Option Ptr) : Except DequeError (α × Option Ptr) :=
  if !hasNext current then .error .noSuchElement
  else match current.bind d.heap with
    | none => .error .nullPointer
    | some n => .ok (n.payload, n.next)

/-- Asked for the next item as long as there is one, an iterator at `current` gives the items. -/
inductive Yields (d : Deque α) : Option Ptr → List α → Prop
  | done {current : Option Ptr} : hasNext current = false → Yields d current []
  | more {current after : Option Ptr} {item : α} {items : List α} : hasNext current = true →
      d.next current = .ok (item, after) → Yields d after items → Yields d current (item :: items)

/-! ## Calls -/

inductive Call (α : Type)
  | addFirst (item : Option α)
  | addLast (item : Option α)
  | removeFirst
  | removeLast

/-- What a call answers: an item, nothing, or an exception. -/
abbrev Reply (α : Type) := Except DequeError (Option α)

def method : Call α → DequeM α (Option α)
  | .addFirst item => do addFirst item; return none
  | .addLast item => do addLast item; return none
  | .removeFirst => do return some (← removeFirst)
  | .removeLast => do return some (← removeLast)

def step (d : Deque α) (c : Call α) : Reply α × Deque α := answer (method c) d

/-- A call on a double-ended list. -/
def listStep (xs : List α) : Call α → Reply α × List α
  | .addFirst none => (.error .illegalArgument, xs)
  | .addFirst (some a) => (.ok none, a :: xs)
  | .addLast none => (.error .illegalArgument, xs)
  | .addLast (some a) => (.ok none, xs ++ [a])
  | .removeFirst =>
    match xs with
    | [] => (.error .noSuchElement, [])
    | a :: xs => (.ok (some a), xs)
  | .removeLast =>
    match xs.getLast? with
    | none => (.error .noSuchElement, xs)
    | some a => (.ok (some a), xs.dropLast)

end Deque

end Courses.Queues

/-!
# A deque is a double-ended list

A deque is well formed if its nodes are linked from `first` to `last` and counted by `size`.
Each method keeps this and answers like the list, as long as the number of nodes is an `int`.
-/
namespace Courses.Queues.Deque

open Courses.Lib

variable {α β γ : Type} {d d' : Deque α} {xs : List (Ptr × α)} {p q : Ptr} {n : Node α} {item : α}

/-- The nodes between the ends of the deque are these. -/
structure Chain (d : Deque α) (xs : List (Ptr × α)) : Prop where
  linked : Linked d.heap none xs none
  first : d.first = firstPtr xs none
  last : d.last = lastPtr none xs
  nodup : (xs.map Prod.fst).Nodup
  lt_fresh : ∀ p ∈ xs.map Prod.fst, p < d.fresh

structure WellFormed (d : Deque α) (xs : List (Ptr × α)) : Prop extends Chain d xs where
  size : d.size = xs.length

/-! ## Single steps -/

theorem node_some (h : d.heap q = some n) : node (some q) d = .ok (q, n) d := by
  rw [node, get_bind, h]
  rfl

theorem setNext_some (h : d.heap q = some n) (p : Option Ptr) :
    setNext (some q) p d = .ok () (store q { n with next := p } d) :=
  bind_of_ok (node_some h)

theorem setPrev_some (h : d.heap q = some n) (p : Option Ptr) :
    setPrev (some q) p d = .ok () (store q { n with prev := p } d) :=
  bind_of_ok (node_some h)

@[simp] theorem store_heap (q : Ptr) (n : Node α) (d : Deque α) :
    (store q n d).heap = Function.update d.heap q (some n) := rfl

@[simp] theorem store_fresh (q : Ptr) (n : Node α) (d : Deque α) :
    (store q n d).fresh = d.fresh := rfl

@[simp] theorem store_first (q : Ptr) (n : Node α) (d : Deque α) :
    (store q n d).first = d.first := rfl

@[simp] theorem store_last (q : Ptr) (n : Node α) (d : Deque α) :
    (store q n d).last = d.last := rfl

@[simp] theorem store_size (q : Ptr) (n : Node α) (d : Deque α) :
    (store q n d).size = d.size := rfl

theorem new_wellFormed : WellFormed (new : Deque α) [] :=
  ⟨⟨trivial, rfl, rfl, List.nodup_nil, by simp⟩, rfl⟩

theorem WellFormed.size_eq_zero_iff (h : WellFormed d xs) : d.size = 0 ↔ xs = [] := by
  rw [h.size, Int.natCast_eq_zero, List.length_eq_zero_iff]

/-! ## Adding -/

/-- A node of the heap that is not in the chain yet. -/
structure Loose (d : Deque α) (xs : List (Ptr × α)) (p : Ptr) (item : α) : Prop where
  node : d.heap p = some ⟨item, none, none⟩
  not_mem : p ∉ xs.map Prod.fst
  lt_fresh : p < d.fresh

theorem newNode_ok (h : WellFormed d xs) (item : α) :
    ∃ d' p, newNode item d = .ok (some p) d' ∧ WellFormed d' xs ∧ Loose d' xs p item := by
  have hfresh : d.fresh ∉ xs.map Prod.fst := fun hmem => (h.lt_fresh _ hmem).ne rfl
  refine ⟨_, d.fresh, rfl, ⟨⟨h.linked.update hfresh _, h.first, h.last, h.nodup, ?_⟩, h.size⟩,
    ⟨by simp, hfresh, Nat.lt_succ_self _⟩⟩
  intro p hp
  exact Nat.lt_succ_of_lt (h.lt_fresh p hp)

theorem linkFirst_ok (h : WellFormed d xs) (hp : Loose d xs p item) :
    ∃ d', linkFirst (some p) d = .ok () d' ∧ Chain d' ((p, item) :: xs) ∧ d'.size = d.size := by
  have hnodup : (((p, item) :: xs).map Prod.fst).Nodup := List.nodup_cons.2 ⟨hp.not_mem, h.nodup⟩
  have hlt : ∀ q ∈ ((p, item) :: xs).map Prod.fst, q < d.fresh := by
    simpa using ⟨hp.lt_fresh, by simpa using h.lt_fresh⟩
  cases xs with
  | nil =>
    have hzero := h.size_eq_zero_iff.2 rfl
    refine ⟨{ d with first := some p, last := some p }, ?_, ⟨?_, rfl, rfl, hnodup, hlt⟩, rfl⟩
    · rw [linkFirst, get_bind, if_pos hzero]
      rfl
    · simp [Linked, hp.node]
  | cons x xs =>
    obtain ⟨q, a⟩ := x
    have hsize : d.size ≠ 0 := fun hzero => by simpa using h.size_eq_zero_iff.1 hzero
    have hpq : p ≠ q := fun heq => hp.not_mem (by simp [heq])
    have hq : d.heap q = some ⟨a, firstPtr xs none, none⟩ := h.linked.1
    have hqxs : q ∉ xs.map Prod.fst := (List.nodup_cons.1 h.nodup).1
    have hfirst : d.first = some q := h.first
    -- the states after `node.next = first`, `first.prev = node` and `node.prev = null`
    obtain ⟨d₁, hd₁⟩ : ∃ d₁, d₁ = store p ⟨item, some q, none⟩ d := ⟨_, rfl⟩
    obtain ⟨d₂, hd₂⟩ : ∃ d₂, d₂ = store q ⟨a, firstPtr xs none, some p⟩ d₁ := ⟨_, rfl⟩
    obtain ⟨d₃, hd₃⟩ : ∃ d₃, d₃ = store p ⟨item, some q, none⟩ d₂ := ⟨_, rfl⟩
    have hq₁ : d₁.heap q = some ⟨a, firstPtr xs none, none⟩ := by simp [hd₁, hpq.symm, hq]
    have hp₂ : d₂.heap p = some ⟨item, some q, none⟩ := by simp [hd₂, hd₁, hpq]
    have hstep₁ : setNext (some p) d.first d = .ok () d₁ := by
      rw [setNext_some hp.node, hd₁, hfirst]
    have hstep₂ : setPrev d₁.first (some p) d₁ = .ok () d₂ := by
      rw [show d₁.first = some q by simp [hd₁, hfirst], setPrev_some hq₁, hd₂]
    have hstep₃ : setPrev (some p) none d₂ = .ok () d₃ := by
      rw [setPrev_some hp₂, hd₃]
    refine ⟨{ d₃ with first := some p }, ?_, ⟨?_, rfl, ?_, hnodup, ?_⟩, ?_⟩
    · rw [linkFirst, get_bind, if_neg hsize, get_bind, bind_of_ok hstep₁, get_bind,
        bind_of_ok hstep₂, bind_of_ok hstep₃]
      rfl
    · have hlinked := (h.linked.update hp.not_mem (some ⟨item, some q, none⟩)).setPrev hqxs
        (some p)
      refine ⟨by simp [hd₃, firstPtr], ?_⟩
      have hlast := hlinked.update hp.not_mem (some ⟨item, some q, none⟩)
      simpa [hd₃, hd₂, hd₁] using hlast
    · simp [hd₃, hd₂, hd₁, h.last, lastPtr_cons]
    · simpa [hd₃, hd₂, hd₁] using hlt
    · simp [hd₃, hd₂, hd₁]

theorem linkLast_ok (h : WellFormed d xs) (hp : Loose d xs p item) :
    ∃ d', linkLast (some p) d = .ok () d' ∧ Chain d' (xs ++ [(p, item)]) ∧ d'.size = d.size := by
  have hnodup : ((xs ++ [(p, item)]).map Prod.fst).Nodup := by
    rw [List.map_append, List.nodup_append]
    exact ⟨h.nodup, List.nodup_singleton _, by
      intro a ha b hb
      obtain rfl : b = p := by simpa using hb
      rintro rfl
      exact hp.not_mem ha⟩
  have hlt : ∀ q ∈ (xs ++ [(p, item)]).map Prod.fst, q < d.fresh := by
    intro q hq
    rw [List.map_append, List.mem_append] at hq
    obtain hq | hq := hq
    · exact h.lt_fresh q hq
    · obtain rfl : q = p := by simpa using hq
      exact hp.lt_fresh
  obtain rfl | ⟨xs, x, rfl⟩ := List.eq_nil_or_concat' xs
  · have hzero := h.size_eq_zero_iff.2 rfl
    refine ⟨{ d with first := some p, last := some p }, ?_, ⟨?_, rfl, rfl, hnodup, hlt⟩, rfl⟩
    · rw [linkLast, get_bind, if_pos hzero]
      rfl
    · simp [Linked, hp.node]
  · obtain ⟨q, a⟩ := x
    have hsize : d.size ≠ 0 := fun hzero => by simpa using h.size_eq_zero_iff.1 hzero
    have hpq : p ≠ q := fun heq => hp.not_mem (by simp [heq])
    have hq : d.heap q = some ⟨a, none, lastPtr none xs⟩ :=
      ((linked_middle _ _ _ _ _ _).1 h.linked).2.1
    have hqxs : q ∉ xs.map Prod.fst := by
      have hnodup := h.nodup
      rw [List.map_append, List.nodup_append] at hnodup
      exact fun hmem => hnodup.2.2 q hmem q (by simp) rfl
    have hlast : d.last = some q := by rw [h.last, lastPtr_concat]
    -- the states after `last.next = node`, `node.prev = last`, `last = node` and
    -- `node.next = null`
    obtain ⟨d₁, hd₁⟩ : ∃ d₁, d₁ = store q ⟨a, some p, lastPtr none xs⟩ d := ⟨_, rfl⟩
    obtain ⟨d₂, hd₂⟩ : ∃ d₂, d₂ = store p ⟨item, none, some q⟩ d₁ := ⟨_, rfl⟩
    obtain ⟨d₃, hd₃⟩ : ∃ d₃ : Deque α, d₃ = { d₂ with last := some p } := ⟨_, rfl⟩
    obtain ⟨d₄, hd₄⟩ : ∃ d₄, d₄ = store p ⟨item, none, some q⟩ d₃ := ⟨_, rfl⟩
    have hp₁ : d₁.heap p = some ⟨item, none, none⟩ := by simp [hd₁, hpq, hp.node]
    have hp₃ : d₃.heap p = some ⟨item, none, some q⟩ := by simp [hd₃, hd₂]
    have hstep₁ : setNext d.last (some p) d = .ok () d₁ := by
      rw [hlast, setNext_some hq, hd₁]
    have hstep₂ : setPrev (some p) d₁.last d₁ = .ok () d₂ := by
      rw [setPrev_some hp₁, hd₂, show d₁.last = some q by simp [hd₁, hlast]]
    have hstep₃ : setLast (some p) d₂ = .ok () d₃ := by
      rw [hd₃]
      rfl
    have hstep₄ : setNext (some p) none d₃ = .ok () d₄ := by
      rw [setNext_some hp₃, hd₄]
    refine ⟨d₄, ?_, ⟨?_, ?_, ?_, hnodup, ?_⟩, ?_⟩
    · rw [linkLast, get_bind, if_neg hsize, get_bind, bind_of_ok hstep₁, get_bind,
        bind_of_ok hstep₂, bind_of_ok hstep₃, hstep₄]
    · have hlinked := (h.linked.setNext hqxs (some p)).update hp.not_mem
        (some ⟨item, none, some q⟩)
      rw [linked_append]
      refine ⟨?_, by simp [hd₄, lastPtr_concat, Linked]⟩
      simpa [hd₄, hd₃, hd₂, hd₁] using hlinked
    · simp [hd₄, hd₃, hd₂, hd₁, h.first, firstPtr_append]
    · rw [lastPtr_concat]
      simp [hd₄, hd₃]
    · simpa [hd₄, hd₃, hd₂, hd₁] using hlt
    · simp [hd₄, hd₃, hd₂, hd₁]

theorem addSize_ok (h : Chain d xs) {k : ℤ} (hsize : d.size + k = xs.length)
    (hlt : xs.length < 2 ^ 31) :
    ∃ d', addSize k d = .ok () d' ∧ WellFormed d' xs ∧ d'.heap = d.heap := by
  have hvalue : int32 (d.size + k) = xs.length := by
    rw [hsize, int32_eq (by omega) (by omega)]
  exact ⟨{ d with size := int32 (d.size + k) }, rfl, ⟨⟨h.linked, h.first, h.last, h.nodup,
    h.lt_fresh⟩, hvalue⟩, rfl⟩

theorem addFirst_ok (h : WellFormed d xs) (hlt : xs.length + 1 < 2 ^ 31) (item : α) :
    ∃ d' p, addFirst (some item) d = .ok () d' ∧ WellFormed d' ((p, item) :: xs) := by
  obtain ⟨d₁, p, hnew, h₁, hp⟩ := newNode_ok h item
  obtain ⟨d₂, hlink, h₂, hsize⟩ := linkFirst_ok h₁ hp
  obtain ⟨d₃, hadd, h₃, -⟩ := addSize_ok (k := 1) h₂ (by simp [hsize, h₁.size]) hlt
  refine ⟨d₃, p, ?_, h₃⟩
  change (newNode item >>= fun node => linkFirst node >>= fun _ => addSize 1) d = _
  rw [bind_of_ok hnew, bind_of_ok hlink, hadd]

theorem addLast_ok (h : WellFormed d xs) (hlt : xs.length + 1 < 2 ^ 31) (item : α) :
    ∃ d' p, addLast (some item) d = .ok () d' ∧ WellFormed d' (xs ++ [(p, item)]) := by
  obtain ⟨d₁, p, hnew, h₁, hp⟩ := newNode_ok h item
  obtain ⟨d₂, hlink, h₂, hsize⟩ := linkLast_ok h₁ hp
  obtain ⟨d₃, hadd, h₃, -⟩ := addSize_ok (k := 1) h₂ (by simp [hsize, h₁.size]) (by simpa using hlt)
  refine ⟨d₃, p, ?_, h₃⟩
  change (newNode item >>= fun node => linkLast node >>= fun _ => addSize 1) d = _
  rw [bind_of_ok hnew, bind_of_ok hlink, hadd]

/-! ## Removing -/

theorem WellFormed.size_ne_zero (h : WellFormed d xs) (hne : xs ≠ []) : d.size ≠ 0 :=
  fun hzero => hne (h.size_eq_zero_iff.1 hzero)

theorem unlinkFirst_ok {x : Ptr × α} (h : WellFormed d (x :: xs)) :
    ∃ d', unlinkFirst { d with first := firstPtr xs none } = .ok () d' ∧ Chain d' xs ∧
      d'.size = d.size ∧ d'.heap x.1 = d.heap x.1 := by
  have hsize := h.size
  have hnodup := List.nodup_cons.1 h.nodup
  have hlt : ∀ q ∈ xs.map Prod.fst, q < d.fresh :=
    fun q hq => h.lt_fresh q (List.mem_cons_of_mem _ hq)
  cases xs with
  | nil =>
    refine ⟨{ d with first := none, last := none }, ?_, ⟨trivial, rfl, rfl, hnodup.2, hlt⟩, rfl,
      rfl⟩
    rw [unlinkFirst, get_bind, if_pos (by simpa using hsize)]
    rfl
  | cons y ys =>
    obtain ⟨q, b⟩ := y
    have hne : ¬ d.size = 1 := by
      simp only [List.length_cons] at hsize
      omega
    have hq : d.heap q = some ⟨b, firstPtr ys none, some x.1⟩ := h.linked.2.1
    have hxq : x.1 ≠ q := fun heq => hnodup.1 (by simp [heq])
    have hqys : q ∉ ys.map Prod.fst := (List.nodup_cons.1 hnodup.2).1
    refine ⟨store q ⟨b, firstPtr ys none, none⟩ { d with first := some q }, ?_,
      ⟨h.linked.2.setPrev hqys none, rfl, ?_, hnodup.2, hlt⟩, rfl, by simp [hxq]⟩
    · rw [unlinkFirst, get_bind, if_neg hne, get_bind]
      exact setPrev_some (d := { d with first := some q }) hq none
    · have hlast := h.last
      rw [lastPtr_cons, lastPtr_cons] at hlast
      rw [store_last, lastPtr_cons]
      exact hlast

theorem removeFirst_nil (h : WellFormed d []) : removeFirst d = .error .noSuchElement d := by
  rw [removeFirst, get_bind, if_pos (h.size_eq_zero_iff.2 rfl)]
  rfl

theorem removeFirst_ok {x : Ptr × α} (h : WellFormed d (x :: xs)) (hlt : xs.length < 2 ^ 31) :
    ∃ d', removeFirst d = .ok x.2 d' ∧ WellFormed d' xs := by
  have hp : d.heap x.1 = some ⟨x.2, firstPtr xs none, none⟩ := h.linked.1
  have hfirst : d.first = some x.1 := h.first
  obtain ⟨d₁, hunlink, h₁, hsize, hheap⟩ := unlinkFirst_ok h
  obtain ⟨d₂, hadd, h₂, hheap'⟩ := addSize_ok (k := -1) h₁ (by simp [hsize, h.size]) hlt
  have hp₂ : d₂.heap x.1 = some ⟨x.2, firstPtr xs none, none⟩ := by rw [hheap', hheap, hp]
  refine ⟨d₂, ?_, h₂⟩
  rw [removeFirst, get_bind, if_neg (h.size_ne_zero (List.cons_ne_nil _ _)), get_bind, hfirst,
    bind_of_ok (node_some hp)]
  have hset : setFirst (firstPtr xs none) d = .ok () { d with first := firstPtr xs none } := rfl
  rw [bind_of_ok hset, bind_of_ok hunlink, bind_of_ok hadd, bind_of_ok (node_some hp₂)]
  rfl

theorem unlinkLast_ok {x : Ptr × α} (h : WellFormed d (xs ++ [x])) :
    ∃ d', unlinkLast { d with last := lastPtr none xs } = .ok () d' ∧ Chain d' xs ∧
      d'.size = d.size ∧ d'.heap x.1 = d.heap x.1 := by
  have hsize := h.size
  have hnodup := h.nodup
  rw [List.map_append, List.nodup_append] at hnodup
  have hlt : ∀ q ∈ xs.map Prod.fst, q < d.fresh := by
    intro q hq
    exact h.lt_fresh q (by simpa using .inl (by simpa using hq))
  have hlinked := ((linked_append none xs [x] none).1 h.linked).1
  obtain rfl | ⟨ys, y, rfl⟩ := List.eq_nil_or_concat' xs
  · refine ⟨{ d with first := none, last := none }, ?_, ⟨trivial, rfl, rfl, hnodup.1, hlt⟩, rfl,
      rfl⟩
    rw [unlinkLast, get_bind, if_pos (by simpa using hsize)]
    rfl
  · obtain ⟨q, b⟩ := y
    have hne : ¬ d.size = 1 := by
      simp only [List.length_append, List.length_singleton] at hsize
      omega
    have hq : d.heap q = some ⟨b, some x.1, lastPtr none ys⟩ :=
      ((linked_middle _ _ _ _ _ _).1 hlinked).2.1
    have hxq : x.1 ≠ q := fun heq => hnodup.2.2 q (by simp) x.1 (by simp) heq.symm
    have hqys : q ∉ ys.map Prod.fst := by
      have hleft := hnodup.1
      rw [List.map_append, List.nodup_append] at hleft
      exact fun hmem => hleft.2.2 q hmem q (by simp) rfl
    refine ⟨store q ⟨b, none, lastPtr none ys⟩ { d with last := some q }, ?_,
      ⟨hlinked.setNext hqys none, ?_, by simp, hnodup.1, hlt⟩, rfl, by simp [hxq]⟩
    · rw [unlinkLast, get_bind, if_neg hne, get_bind, lastPtr_concat]
      exact setNext_some (d := { d with last := some q }) hq none
    · have hfirst := h.first
      rw [List.append_assoc, firstPtr_append] at hfirst
      rw [store_first, firstPtr_append]
      exact hfirst

theorem removeLast_nil (h : WellFormed d []) : removeLast d = .error .noSuchElement d := by
  rw [removeLast, get_bind, if_pos (h.size_eq_zero_iff.2 rfl)]
  rfl

theorem removeLast_ok {x : Ptr × α} (h : WellFormed d (xs ++ [x])) (hlt : xs.length < 2 ^ 31) :
    ∃ d', removeLast d = .ok x.2 d' ∧ WellFormed d' xs := by
  have hp : d.heap x.1 = some ⟨x.2, none, lastPtr none xs⟩ :=
    ((linked_middle _ _ _ _ _ _).1 h.linked).2.1
  have hlast : d.last = some x.1 := by rw [h.last, lastPtr_concat]
  obtain ⟨d₁, hunlink, h₁, hsize, hheap⟩ := unlinkLast_ok h
  obtain ⟨d₂, hadd, h₂, hheap'⟩ := addSize_ok (k := -1) h₁ (by simp [hsize, h.size]) hlt
  have hp₂ : d₂.heap x.1 = some ⟨x.2, none, lastPtr none xs⟩ := by rw [hheap', hheap, hp]
  refine ⟨d₂, ?_, h₂⟩
  rw [removeLast, get_bind, if_neg (h.size_ne_zero (by simp)), get_bind, hlast,
    bind_of_ok (node_some hp)]
  have hset : setLast (lastPtr none xs) d = .ok () { d with last := lastPtr none xs } := rfl
  rw [bind_of_ok hset, bind_of_ok hunlink, bind_of_ok hadd, bind_of_ok (node_some hp₂)]
  rfl

/-! ## Runs -/

/-- The list grows to a length that is an `int`. -/
def Fits (xs : List α) : Call α → Prop
  | .addFirst (some _) => xs.length + 1 < 2 ^ 31
  | .addLast (some _) => xs.length + 1 < 2 ^ 31
  | _ => True

/-- The deque holds the items of a list whose length is an `int`. -/
def Holds (d : Deque α) (items : List α) : Prop :=
  items.length < 2 ^ 31 ∧ ∃ xs, WellFormed d xs ∧ xs.map Prod.snd = items

theorem step_addLast (h : WellFormed d xs) (item : α) :
    ∃ d', step d (.addLast (some item)) = (.ok none, d') ∧ d'.size = int32 (d.size + 1) := by
  obtain ⟨d₁, p, hnew, h₁, hp⟩ := newNode_ok h item
  obtain ⟨d₂, hlink, -, hsize⟩ := linkLast_ok h₁ hp
  refine ⟨{ d₂ with size := int32 (d₂.size + 1) }, ?_, by rw [hsize, h₁.size, h.size]⟩
  have hadd : addLast (some item) d = .ok () { d₂ with size := int32 (d₂.size + 1) } := by
    change (newNode item >>= fun node => linkLast node >>= fun _ => addSize 1) d = _
    rw [bind_of_ok hnew, bind_of_ok hlink]
    rfl
  have hmethod : method (.addLast (some item)) d =
      .ok none { d₂ with size := int32 (d₂.size + 1) } := bind_of_ok hadd
  exact answer_of_ok hmethod

/-- A method that throws has not written anything. -/
theorem step_refines (d : Deque α) (items : List α) (c : Call α) (h : Holds d items)
    (hfits : Fits items c) :
    (step d c).1 = (listStep items c).1 ∧ Holds (step d c).2 (listStep items c).2 ∧
      ∀ e, (step d c).1 = .error e → (step d c).2 = d := by
  obtain ⟨hlt, xs, hd, rfl⟩ := h
  rw [List.length_map] at hlt
  have hsame : Holds d (xs.map Prod.snd) := ⟨by simpa using hlt, xs, hd, rfl⟩
  cases c with
  | addFirst item =>
    cases item with
    | none => exact ⟨rfl, hsame, fun e he => rfl⟩
    | some item =>
      have hlt' : xs.length + 1 < 2 ^ 31 := by simpa [Fits] using hfits
      obtain ⟨d', p, hadd, hd'⟩ := addFirst_ok hd hlt' item
      have hmethod : method (.addFirst (some item)) d = .ok none d' := bind_of_ok hadd
      have hstep : step d (.addFirst (some item)) = (.ok none, d') := answer_of_ok hmethod
      rw [hstep]
      exact ⟨rfl, ⟨by simpa [listStep] using hlt', _, hd', rfl⟩, by simp⟩
  | addLast item =>
    cases item with
    | none => exact ⟨rfl, hsame, fun e he => rfl⟩
    | some item =>
      have hlt' : xs.length + 1 < 2 ^ 31 := by simpa [Fits] using hfits
      obtain ⟨d', p, hadd, hd'⟩ := addLast_ok hd hlt' item
      have hmethod : method (.addLast (some item)) d = .ok none d' := bind_of_ok hadd
      have hstep : step d (.addLast (some item)) = (.ok none, d') := answer_of_ok hmethod
      rw [hstep]
      exact ⟨rfl, ⟨by simpa [listStep] using hlt', _, hd', by simp [listStep]⟩, by simp⟩
  | removeFirst =>
    cases xs with
    | nil =>
      have hmethod : method .removeFirst d = .error .noSuchElement d :=
        bind_of_error (removeFirst_nil hd)
      have hstep : step d .removeFirst = (.error .noSuchElement, d) := answer_of_error hmethod
      rw [hstep]
      exact ⟨rfl, hsame, fun e he => rfl⟩
    | cons x xs =>
      rw [List.length_cons] at hlt
      obtain ⟨d', hremove, hd'⟩ := removeFirst_ok hd (by omega)
      have hmethod : method .removeFirst d = .ok (some x.2) d' := bind_of_ok hremove
      have hstep : step d .removeFirst = (.ok (some x.2), d') := answer_of_ok hmethod
      have hlt' : xs.length < 2 ^ 31 := by omega
      rw [hstep]
      exact ⟨rfl, ⟨by simpa [listStep] using hlt', _, hd', rfl⟩, by simp⟩
  | removeLast =>
    obtain rfl | ⟨xs, x, rfl⟩ := List.eq_nil_or_concat' xs
    · have hmethod : method .removeLast d = .error .noSuchElement d :=
        bind_of_error (removeLast_nil hd)
      have hstep : step d .removeLast = (.error .noSuchElement, d) := answer_of_error hmethod
      rw [hstep]
      exact ⟨rfl, hsame, fun e he => rfl⟩
    · rw [List.length_append, List.length_singleton] at hlt
      obtain ⟨d', hremove, hd'⟩ := removeLast_ok hd (by omega)
      have hmethod : method .removeLast d = .ok (some x.2) d' := bind_of_ok hremove
      have hstep : step d .removeLast = (.ok (some x.2), d') := answer_of_ok hmethod
      have hlist : listStep ((xs ++ [x]).map Prod.snd) .removeLast =
          (.ok (some x.2), xs.map Prod.snd) := by simp [listStep]
      have hlt' : xs.length < 2 ^ 31 := by omega
      rw [hstep, hlist]
      exact ⟨rfl, ⟨by simpa using hlt', _, hd', rfl⟩, by simp⟩

/-- Iterating follows the links. -/
theorem yields_of_linked {b : Option Ptr} (h : Linked d.heap b xs none) :
    Yields d (firstPtr xs none) (xs.map Prod.snd) := by
  induction xs generalizing b with
  | nil => exact .done rfl
  | cons x xs ih =>
    have hnext : d.next (some x.1) = .ok (x.2, firstPtr xs none) := by
      simp [next, hasNext, h.1]
    exact .more rfl hnext (ih h.2)

/-- As long as the deque holds no more items than an `int` can count, its replies are those of
the list; its nodes are linked between its ends, counted by its size and hold the items of the
list, which an iterator yields; and an exception leaves it as it was. -/
theorem deque_correct {calls : List (Call α)} (h : Meets listStep Fits [] calls) :
    let d := (session step new calls).2
    let items := (session listStep [] calls).2
    (session step new calls).1 = (session listStep [] calls).1 ∧
      (∃ xs, WellFormed d xs ∧ xs.map Prod.snd = items) ∧ Yields d d.first items ∧
      ∀ c, Fits items c → ∀ e, (step d c).1 = .error e → (step d c).2 = d := by
  have hstart : Holds (new : Deque α) [] := ⟨by simp, [], new_wellFormed, rfl⟩
  obtain ⟨hreplies, hend⟩ := session_refines (R := Holds) (fun d items c hd hfits =>
    have hstep := step_refines d items c hd hfits
    ⟨hstep.1, hstep.2.1⟩) hstart h
  obtain ⟨-, xs, hd, hitems⟩ := id hend
  have hyields := yields_of_linked hd.linked
  rw [← hd.first, hitems] at hyields
  exact ⟨hreplies, ⟨xs, hd, hitems⟩, hyields,
    fun c hfits e he => (step_refines _ _ c hend hfits).2.2 e he⟩

theorem deque_correct_four_calls :
    let calls : List (Call ℕ) :=
      [.addFirst (some 1), .addLast (some 2), .addFirst none, .removeLast]
    Meets listStep Fits [] calls ∧
      (session step new calls).1 = [.ok none, .ok none, .error .illegalArgument, .ok (some 2)] := by
  intro calls
  have h : Meets listStep Fits [] calls := by simp [calls, Meets, Fits, listStep]
  exact ⟨h, (deque_correct h).1.trans rfl⟩

/-! ## Too many items -/

theorem session_addLast (n : ℕ) (items : List α) (item : α) :
    (session listStep items (List.replicate n (.addLast (some item)))).2 =
      items ++ List.replicate n item := by
  induction n generalizing items with
  | zero => simp [session]
  | succ n ih =>
    have hrest := ih (items ++ [item])
    simpa [List.replicate_succ, session, listStep] using hrest

/-- A size that is right before and after an item is added is an `int`. -/
theorem length_of_addLast {calls : List (Call α)} {items items' : List α}
    (hbefore : ∃ xs, WellFormed (session step new calls).2 xs ∧ xs.map Prod.snd = items)
    (hafter : ∃ xs, WellFormed (session step new (calls ++ [Call.addLast (some item)])).2 xs ∧
      xs.map Prod.snd = items') : items'.length < 2 ^ 31 := by
  obtain ⟨xs, hd, -⟩ := hbefore
  obtain ⟨ys, hd', rfl⟩ := hafter
  obtain ⟨d, hstep, hsize⟩ := step_addLast hd item
  rw [session_concat, hstep] at hd'
  have hrange := int32_range ((session step new calls).2.size + 1)
  rw [← hsize, hd'.size] at hrange
  rw [List.length_map]
  omega

theorem deque_overflows :
    ¬ ∀ calls : List (Call Unit),
      let d := (session step new calls).2
      let items := (session listStep [] calls).2
      (session step new calls).1 = (session listStep [] calls).1 ∧
        (∃ xs, WellFormed d xs ∧ xs.map Prod.snd = items) ∧ Yields d d.first items ∧
        ∀ c e, (step d c).1 = .error e → (step d c).2 = d := by
  intro h
  obtain ⟨n, hn⟩ : ∃ n, n + 1 = 2 ^ 31 := ⟨2 ^ 31 - 1, by omega⟩
  obtain ⟨-, hbefore, -⟩ := h (List.replicate n (Call.addLast (some ())))
  obtain ⟨-, hafter, -⟩ := h (List.replicate n (Call.addLast (some ())) ++ [Call.addLast (some ())])
  have hlt := length_of_addLast hbefore hafter
  rw [session_concat, session_addLast] at hlt
  simp only [listStep, List.length_append, List.length_replicate, List.length_singleton,
    List.length_nil] at hlt
  omega

end Courses.Queues.Deque
