import Mathlib.Data.List.Basic
import Mathlib.Data.List.Nodup
import Mathlib.Logic.Function.Basic
import Mathlib.Tactic

/-!
# Doubly linked nodes

A store maps addresses to nodes. `Linked m b xs e` reads a segment of the store:
its addresses and payloads are `xs` in order, the first node points back to `b`
and the last one on to `e`. Segments split along `++`, and a store outside the
addresses of a segment does not touch it.
-/
namespace Courses.Lib

/-- An address handed out by the allocator. -/
abbrev Ptr := ℕ

structure Node (α : Type) where
  payload : α
  next : Option Ptr
  prev : Option Ptr
  deriving Repr, DecidableEq

variable {α : Type}

/-- The address of the first node, or `e` where there is none. -/
def firstPtr (xs : List (Ptr × α)) (e : Option Ptr) : Option Ptr :=
  (xs.head?.map Prod.fst).or e

/-- The address of the last node, or `b` where there is none. -/
def lastPtr (b : Option Ptr) (xs : List (Ptr × α)) : Option Ptr :=
  (xs.getLast?.map Prod.fst).or b

@[simp] theorem firstPtr_nil (e : Option Ptr) : firstPtr ([] : List (Ptr × α)) e = e := rfl

@[simp] theorem firstPtr_cons (x : Ptr × α) (xs : List (Ptr × α)) (e : Option Ptr) :
    firstPtr (x :: xs) e = some x.1 := rfl

@[simp] theorem lastPtr_nil (b : Option Ptr) : lastPtr b ([] : List (Ptr × α)) = b := rfl

@[simp] theorem lastPtr_concat (b : Option Ptr) (xs : List (Ptr × α)) (x : Ptr × α) :
    lastPtr b (xs ++ [x]) = some x.1 := by
  simp [lastPtr]

theorem firstPtr_append (xs ys : List (Ptr × α)) (e : Option Ptr) :
    firstPtr (xs ++ ys) e = firstPtr xs (firstPtr ys e) := by
  cases xs <;> rfl

theorem lastPtr_cons (b : Option Ptr) (x : Ptr × α) (xs : List (Ptr × α)) :
    lastPtr b (x :: xs) = lastPtr (some x.1) xs := by
  rcases List.eq_nil_or_concat' xs with rfl | ⟨ys, y, rfl⟩
  · rfl
  · rw [← List.cons_append, lastPtr_concat, lastPtr_concat]

theorem lastPtr_append (b : Option Ptr) (xs ys : List (Ptr × α)) :
    lastPtr b (xs ++ ys) = lastPtr (lastPtr b xs) ys := by
  induction xs generalizing b with
  | nil => rfl
  | cons x xs ih => rw [List.cons_append, lastPtr_cons, lastPtr_cons, ih]

/-- The nodes `xs` lie in the store `m`, linked in order between `b` and `e`. -/
def Linked (m : Ptr → Option (Node α)) : Option Ptr → List (Ptr × α) → Option Ptr → Prop
  | _, [], _ => True
  | b, x :: xs, e => m x.1 = some ⟨x.2, firstPtr xs e, b⟩ ∧ Linked m (some x.1) xs e

variable {m : Ptr → Option (Node α)}

theorem linked_append (b : Option Ptr) (xs ys : List (Ptr × α)) (e : Option Ptr) :
    Linked m b (xs ++ ys) e ↔
      Linked m b xs (firstPtr ys e) ∧ Linked m (lastPtr b xs) ys e := by
  induction xs generalizing b with
  | nil => simp [Linked]
  | cons x xs ih =>
    rw [List.cons_append, Linked, Linked, ih, firstPtr_append, lastPtr_cons, and_assoc]

/-- A segment with one node singled out: the part before it, the node, the part after it. -/
theorem linked_middle (b : Option Ptr) (xs ys : List (Ptr × α)) (p : Ptr) (a : α)
    (e : Option Ptr) :
    Linked m b (xs ++ (p, a) :: ys) e ↔
      Linked m b xs (some p) ∧ m p = some ⟨a, firstPtr ys e, lastPtr b xs⟩ ∧
        Linked m (some p) ys e := by
  rw [linked_append]
  rfl

/-- Segments depend only on the store at their own addresses. -/
theorem Linked.congr {m' : Ptr → Option (Node α)} {b e : Option Ptr} {xs : List (Ptr × α)}
    (h : Linked m b xs e) (hm : ∀ p ∈ xs.map Prod.fst, m' p = m p) : Linked m' b xs e := by
  induction xs generalizing b with
  | nil => trivial
  | cons x xs ih =>
    obtain ⟨hx, hxs⟩ := h
    refine ⟨?_, ih hxs fun p hp => hm p (by simp_all)⟩
    rw [hm x.1 (by simp)]
    exact hx

/-- The frame rule: a store elsewhere leaves a segment alone. -/
theorem Linked.update {b e : Option Ptr} {xs : List (Ptr × α)} (h : Linked m b xs e) {p : Ptr}
    (hp : p ∉ xs.map Prod.fst) (n : Option (Node α)) :
    Linked (Function.update m p n) b xs e := by
  refine h.congr fun q hq => Function.update_of_ne ?_ _ _
  rintro rfl
  exact hp hq

/-- Relinking the end of a segment: the last node gets a new successor. -/
theorem Linked.setNext {b e : Option Ptr} {xs : List (Ptr × α)} {p : Ptr} {a : α}
    (h : Linked m b (xs ++ [(p, a)]) e) (hp : p ∉ xs.map Prod.fst) (e' : Option Ptr) :
    Linked (Function.update m p (some ⟨a, e', lastPtr b xs⟩)) b (xs ++ [(p, a)]) e' := by
  rw [linked_middle] at h ⊢
  exact ⟨h.1.update hp _, by simp, trivial⟩

/-- Relinking the start of a segment: the first node gets a new predecessor. -/
theorem Linked.setPrev {b e : Option Ptr} {xs : List (Ptr × α)} {p : Ptr} {a : α}
    (h : Linked m b ((p, a) :: xs) e) (hp : p ∉ xs.map Prod.fst) (b' : Option Ptr) :
    Linked (Function.update m p (some ⟨a, firstPtr xs e, b'⟩)) b' ((p, a) :: xs) e :=
  ⟨by simp, h.2.update hp _⟩

/-- A store has one segment from an address to the end. -/
theorem Linked.unique {b : Option Ptr} {xs ys : List (Ptr × α)} (hx : Linked m b xs none)
    (hy : Linked m b ys none) (hfirst : firstPtr xs none = firstPtr ys none) : xs = ys := by
  induction xs generalizing b ys with
  | nil =>
    cases ys with
    | nil => rfl
    | cons y ys => cases hfirst
  | cons x xs ih =>
    cases ys with
    | nil => cases hfirst
    | cons y ys =>
      obtain ⟨p, a⟩ := x
      obtain ⟨q, c⟩ := y
      cases hfirst
      obtain ⟨hnode, hxs⟩ := hx
      obtain ⟨hnode', hys⟩ := hy
      rw [hnode, Option.some.injEq, Node.mk.injEq] at hnode'
      obtain ⟨hac, hnext, -⟩ := hnode'
      rw [ih hxs hys hnext, show a = c from hac]

end Courses.Lib
