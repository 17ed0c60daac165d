import Courses.Lib.BubbleSort
import Courses.SearchEngine.LinkedList

/-!
# Pushing onto a linked list, and sorting one

`PushLinkedList` and `SortLinkedList` of `hw1/LinkedList.c`. The sort exchanges payloads
and leaves the nodes where they are; each pass is `Lib.bubble` on the payloads.
-/
namespace Courses.SearchEngine

open Courses.Lib Courses.Lib.AllocM

variable {α : Type}

/-- Put a payload in front; `false` when there is no memory for its node. -/
def pushLinkedList (list : LinkedList α) (payload : α) : AllocM (Bool × LinkedList α) := do
  if ← malloc then
    let ln := list.fresh
    if list.numElements = 0 then
      verify list.head.isNone
      verify list.tail.isNone
      return (true, { list.place ⟨payload, none, none⟩ with
        head := some ln, tail := some ln, numElements := 1 })
    else
      verify list.head.isSome
      verify list.tail.isSome
      let list' ← list.modify list.head fun m => { m with prev := some ln }
      return (true, { list'.place ⟨payload, list.head, none⟩ with
        head := some ln, numElements := list.numElements + 1 })
  else
    return (false, list)

/-- Whether the sort exchanges two neighbours. -/
def outOfOrder (ascending : Bool) (comparator : α → α → ℤ) (a b : α) : Bool :=
  (if ascending then -comparator a b else comparator a b) < 0

/-- The inner loop, from the node at `curnode` on; a list has no more nodes than elements. -/
def bubbleLoop (ascending : Bool) (comparator : α → α → ℤ) :
    ℕ → LinkedList α → Ptr → Bool → AllocM (Bool × LinkedList α)
  | 0, _, _, _ => halt .fuel
  | fuel + 1, list, curnode, swapped => do
    let (_, n) ← list.deref (some curnode)
    match n.next with
    | none => return (swapped, list)
    | some next =>
      let (_, m) ← list.deref (some next)
      if outOfOrder ascending comparator n.payload m.payload then
        let list ← list.modify (some curnode) fun n => { n with payload := m.payload }
        let list ← list.modify (some next) fun m => { m with payload := n.payload }
        bubbleLoop ascending comparator fuel list next true
      else
        bubbleLoop ascending comparator fuel list next swapped

/-- The outer loop: passes until one of them exchanges nothing. -/
def sortLoop (ascending : Bool) (comparator : α → α → ℤ) : ℕ → LinkedList α → AllocM (LinkedList α)
  | 0, _ => halt .fuel
  | fuel + 1, list => do
    let head ← demand list.head
    let (swapped, list) ← bubbleLoop ascending comparator list.numElements.toNat list head false
    if swapped then
      sortLoop ascending comparator fuel list
    else
      return list

/-- `SortLinkedList`: every pass but the last undoes an inversion, which bounds their number. -/
def sortLinkedList (list : LinkedList α) (ascending : Bool) (comparator : α → α → ℤ) :
    AllocM (LinkedList α) :=
  if list.numElements < 2 then
    return list
  else
    sortLoop ascending comparator (list.numElements.toNat * list.numElements.toNat + 1) list

namespace LinkedList

variable {list : LinkedList α} {xs ys : List (Ptr × α)} {p : Ptr} {a : α}

theorem returns_pushLinkedList (h : list.Repr xs) (hlt : xs.length + 1 < 2 ^ 32) (a : α) :
    Returns (pushLinkedList list a) fun r => r.1 = true ∧ r.2.Repr ((list.fresh, a) :: xs) := by
  have hfresh : list.fresh ∉ xs.map Prod.fst := fun hp => lt_irrefl _ (h.fresh _ hp)
  have hnodup : (((list.fresh, a) :: xs).map Prod.fst).Nodup := List.nodup_cons.2 ⟨hfresh, h.nodup⟩
  have hbound : ∀ q ∈ ((list.fresh, a) :: xs).map Prod.fst, q < list.fresh + 1 := by
    intro q hq
    rcases List.mem_cons.1 hq with rfl | hq
    · exact Nat.lt_succ_self _
    · exact (h.fresh q hq).trans (Nat.lt_succ_self _)
  apply returns_malloc_bind
  cases xs with
  | nil =>
    rw [if_pos rfl, if_pos (h.numElements_eq_zero.mpr rfl)]
    refine (returns_verify (by rw [h.head]; rfl)).bind fun _ _ => ?_
    refine (returns_verify (by rw [h.tail]; rfl)).bind fun _ _ => returns_pure ⟨rfl, ?_⟩
    exact ⟨rfl, rfl, rfl, ⟨Function.update_self _ _ _, trivial⟩, hnodup, hbound⟩
  | cons x xs =>
    obtain ⟨q, b⟩ := x
    have hne : list.numElements ≠ 0 := by
      rw [Ne, h.numElements_eq_zero]
      simp
    have htail : list.tail.isSome := by
      rw [h.tail, lastPtr_cons]
      simp [lastPtr]
    rw [if_pos rfl, if_neg hne]
    refine (returns_verify (by rw [h.head]; rfl)).bind fun _ _ => ?_
    refine (returns_verify htail).bind fun _ _ => ?_
    have hq : list.Repr ([] ++ (q, b) :: xs) := h
    refine (returns_modify h.head hq.node _).bind_eq (returns_pure ⟨rfl, ?_⟩)
    refine ⟨?_, rfl, ?_, ⟨?_, ?_⟩, hnodup, hbound⟩
    · have hn := h.numElements
      change (list.numElements + 1).toNat = _
      rw [UInt32.toNat_add, hn, UInt32.toNat_one, Nat.mod_eq_of_lt hlt]
      rfl
    · refine h.tail.trans ?_
      rw [lastPtr_cons, lastPtr_cons, lastPtr_cons]
    · exact (Function.update_self _ _ _).trans (by rw [h.head])
    · exact (h.linked.setPrev hq.not_mem_right _).update hfresh _

section Sorting

variable {ascending : Bool} {comparator : α → α → ℤ}

/-- The inner loop does to the payloads what a pass of bubble sort does. -/
theorem returns_bubbleLoop (suf pre : List (Ptr × α)) {list : LinkedList α} {p : Ptr} {a : α}
    (h : list.Repr (pre ++ (p, a) :: suf)) {fuel : ℕ} (hfuel : suf.length < fuel) (swapped : Bool) :
    Returns (bubbleLoop ascending comparator fuel list p swapped) fun r =>
      r.1 = (swapped || (bubble (outOfOrder ascending comparator) a (suf.map Prod.snd)).2) ∧
        ∃ ys, r.2.Repr (pre ++ ys) ∧ ys.map Prod.fst = p :: suf.map Prod.fst ∧
          ys.map Prod.snd = (bubble (outOfOrder ascending comparator) a (suf.map Prod.snd)).1 := by
  induction suf generalizing pre list p a fuel swapped with
  | nil =>
    obtain _ | fuel := fuel
    · exact absurd hfuel (Nat.not_lt_zero _)
    refine (returns_deref rfl h.node).bind_eq (returns_pure ⟨by simp [bubble], [(p, a)], h, rfl, rfl⟩)
  | cons y suf ih =>
    obtain _ | fuel := fuel
    · exact absurd hfuel (Nat.not_lt_zero _)
    obtain ⟨q, b⟩ := y
    have hassoc (c d : α) : pre ++ (p, c) :: (q, d) :: suf = (pre ++ [(p, c)]) ++ (q, d) :: suf := by
      simp
    have hq : list.Repr ((pre ++ [(p, a)]) ++ (q, b) :: suf) := hassoc a b ▸ h
    have hfuel' : suf.length < fuel := Nat.lt_of_succ_lt_succ hfuel
    refine (returns_deref rfl h.node).bind_eq ?_
    refine (returns_deref rfl hq.node).bind_eq ?_
    dsimp only
    rw [List.map_cons]
    unfold bubble
    by_cases hswap : outOfOrder ascending comparator a b = true
    · rw [if_pos hswap, if_pos hswap]
      refine (returns_setPayload h b).bind fun l₁ h₁ => ?_
      rw [hassoc] at h₁
      refine (returns_setPayload h₁ a).bind fun l₂ h₂ => ?_
      refine (ih (pre ++ [(p, b)]) h₂ hfuel' true).mono ?_
      rintro r ⟨hr, ys, hys, hadr, hpay⟩
      exact ⟨by simpa using hr, (p, b) :: ys, by simpa using hys, by simp [hadr], by simp [hpay]⟩
    · rw [if_neg hswap, if_neg hswap]
      refine (ih (pre ++ [(p, a)]) hq hfuel' swapped).mono ?_
      rintro r ⟨hr, ys, hys, hadr, hpay⟩
      exact ⟨hr, (p, a) :: ys, by simpa using hys, by simp [hadr], by simp [hpay]⟩

/-- No element stands before one that it may not stand before. -/
def InOrder (ascending : Bool) (comparator : α → α → ℤ) (l : List α) : Prop :=
  l.IsChain fun a b => outOfOrder ascending comparator a b = false

/-- What a sort makes of the nodes `xs`: the same addresses, with the payloads in order.
Payloads that are not out of order with each other stay as they were. -/
structure Sorted (ascending : Bool) (comparator : α → α → ℤ) (xs ys : List (Ptr × α)) : Prop where
  addresses : ys.map Prod.fst = xs.map Prod.fst
  perm : (ys.map Prod.snd).Perm (xs.map Prod.snd)
  order : InOrder ascending comparator (ys.map Prod.snd)
  stable : ∀ p : α → Bool,
    (∀ a b, outOfOrder ascending comparator a b = true → p a = true → p b = false) →
      (ys.map Prod.snd).filter p = (xs.map Prod.snd).filter p

theorem returns_sortLoop
    (hasymm : ∀ a b : α, outOfOrder ascending comparator a b = true →
      outOfOrder ascending comparator b a = false) {fuel : ℕ} {list : LinkedList α}
    {xs : List (Ptr × α)} (h : list.Repr xs) (hne : xs ≠ [])
    (hfuel : inversions (outOfOrder ascending comparator) (xs.map Prod.snd) < fuel) :
    Returns (sortLoop ascending comparator fuel list) fun r => ∃ ys, r.Repr ys ∧
      Sorted ascending comparator xs ys := by
  induction fuel generalizing list xs with
  | zero => exact absurd hfuel (Nat.not_lt_zero _)
  | succ fuel ih =>
    obtain ⟨⟨p, a⟩, suf, rfl⟩ := List.exists_cons_of_ne_nil hne
    rw [sortLoop]
    refine (returns_demand h.head).bind_eq ?_
    have hlen : suf.length < list.numElements.toNat := by
      rw [h.numElements, List.length_cons]
      exact Nat.lt_succ_self _
    refine (returns_bubbleLoop suf [] h hlen false).bind ?_
    rintro ⟨swapped, list'⟩ ⟨hswapped, ys, hys, hadr, hpay⟩
    rw [Bool.false_or] at hswapped
    rw [List.nil_append] at hys
    have hinv := inversions_bubble _ hasymm a (suf.map Prod.snd)
    have hperm : (ys.map Prod.snd).Perm (((p, a) :: suf).map Prod.snd) := by
      rw [hpay]
      exact bubble_perm _ a _
    have hstable : ∀ q : α → Bool,
        (∀ a b, outOfOrder ascending comparator a b = true → q a = true → q b = false) →
          (ys.map Prod.snd).filter q = (((p, a) :: suf).map Prod.snd).filter q := by
      intro q hq
      rw [hpay]
      exact filter_bubble _ hq a _
    dsimp only at hswapped ⊢
    rw [← hpay, ← hswapped] at hinv
    cases swapped with
    | true =>
      rw [if_pos rfl]
      have hys' : ys ≠ [] := by
        rintro rfl
        simpa using hperm.length_eq
      refine (ih hys hys' ?_).mono ?_
      · simp only [List.map_cons, Bool.toNat_true] at hfuel hinv
        omega
      · rintro r ⟨zs, hzs, hz⟩
        refine ⟨zs, hzs, hz.addresses.trans hadr, hz.perm.trans hperm, hz.order, fun q hq => ?_⟩
        exact (hz.stable q hq).trans (hstable q hq)
    | false =>
      rw [if_neg Bool.false_ne_true]
      obtain ⟨hsame, hchain⟩ := bubble_of_not_swapped _ hswapped.symm
      refine returns_pure ⟨ys, hys, hadr, hperm, ?_, hstable⟩
      rw [InOrder, hpay, hsame]
      exact hchain

theorem returns_sortLinkedList_sorted
    (hasymm : ∀ a b : α, outOfOrder ascending comparator a b = true →
      outOfOrder ascending comparator b a = false) (h : list.Repr xs) :
    Returns (sortLinkedList list ascending comparator) fun r => ∃ ys, r.Repr ys ∧
      Sorted ascending comparator xs ys := by
  unfold sortLinkedList
  by_cases hsmall : list.numElements < 2
  · rw [if_pos hsmall]
    refine returns_pure ⟨xs, h, rfl, .refl _, ?_, fun _ _ => rfl⟩
    rw [UInt32.lt_iff_toNat_lt, h.numElements] at hsmall
    match xs, hsmall with
    | [], _ => exact List.isChain_nil
    | [x], _ => exact List.isChain_singleton _
    | x :: y :: zs, hsmall => simp at hsmall
  · rw [if_neg hsmall]
    have hne : xs ≠ [] := by
      rintro rfl
      apply hsmall
      rw [UInt32.lt_iff_toNat_lt, h.numElements]
      exact Nat.zero_lt_two
    apply returns_sortLoop hasymm h hne
    rw [h.numElements, ← List.length_map (f := Prod.snd)]
    exact Nat.lt_succ_of_le (inversions_le _ _)

/-- `SortLinkedList` puts the payloads in order and keeps them all. -/
theorem returns_sortLinkedList
    (hasymm : ∀ a b : α, outOfOrder ascending comparator a b = true →
      outOfOrder ascending comparator b a = false) (h : list.Repr xs) :
    Returns (sortLinkedList list ascending comparator) fun r => ∃ ys, r.Repr ys ∧
      (ys.map Prod.snd).Perm (xs.map Prod.snd) ∧ InOrder ascending comparator (ys.map Prod.snd) := by
  refine (returns_sortLinkedList_sorted hasymm h).mono ?_
  rintro r ⟨ys, hys, hsorted⟩
  exact ⟨ys, hys, hsorted.perm, hsorted.order⟩

end Sorting

end LinkedList

/-! ## Comparators -/

/-- The comparator answers -1, 0 or 1, and orders the payloads: any two are comparable,
and the order is transitive. Payloads that compare equal may differ. -/
structure Comparator (comparator : α → α → ℤ) : Prop where
  answer : ∀ a b, comparator a b = -1 ∨ comparator a b = 0 ∨ comparator a b = 1
  swap : ∀ a b, comparator b a = -comparator a b
  trans : ∀ a b c, comparator a b ≤ 0 → comparator b c ≤ 0 → comparator a c ≤ 0

/-- `b` may stand behind `a`. -/
def Follows (ascending : Bool) (comparator : α → α → ℤ) (a b : α) : Prop :=
  if ascending then comparator a b ≤ 0 else 0 ≤ comparator a b

section Comparators

variable {ascending : Bool} {comparator : α → α → ℤ} {list r : LinkedList α}
  {xs ys : List (Ptr × α)}

theorem outOfOrder_eq_false_iff {a b : α} :
    outOfOrder ascending comparator a b = false ↔ Follows ascending comparator a b := by
  unfold outOfOrder Follows
  cases ascending <;> simp

namespace Comparator

theorem asymm (h : Comparator comparator) (a b : α)
    (hab : outOfOrder ascending comparator a b = true) :
    outOfOrder ascending comparator b a = false := by
  have hswap := h.swap a b
  rw [outOfOrder_eq_false_iff, Follows]
  unfold outOfOrder at hab
  cases ascending
  · simp only [Bool.false_eq_true, if_false, decide_eq_true_eq] at hab ⊢
    omega
  · simp only [if_true, decide_eq_true_eq] at hab ⊢
    omega

theorem follows_trans (h : Comparator comparator) {a b c : α}
    (hab : Follows ascending comparator a b) (hbc : Follows ascending comparator b c) :
    Follows ascending comparator a c := by
  unfold Follows at hab hbc ⊢
  cases ascending
  · have hca := h.trans c b a
    have hswap := h.swap a b
    have hswap' := h.swap b c
    have hswap'' := h.swap a c
    simp only [Bool.false_eq_true, if_false] at hab hbc ⊢
    omega
  · exact h.trans a b c hab hbc

/-- Payloads that compare equal to one another are never exchanged. -/
theorem equal_of_equal (h : Comparator comparator) {a b c : α} (hb : comparator a b = 0)
    (hc : comparator a c = 0) : comparator b c = 0 := by
  have hba := h.swap a b
  have hca := h.swap a c
  have hbc := h.trans b a c
  have hcb := h.trans c a b
  have hswap := h.swap b c
  omega

end Comparator

/-- The addresses of the nodes determine the links between them. -/
theorem LinkedList.Repr.links_eq (h : list.Repr xs) (h' : r.Repr ys)
    (hadr : ys.map Prod.fst = xs.map Prod.fst) {p : Ptr} (hp : p ∈ xs.map Prod.fst) :
    (r.nodes p).map (fun n => (n.next, n.prev)) = (list.nodes p).map fun n => (n.next, n.prev) := by
  obtain ⟨⟨q, a⟩, hmem, rfl⟩ := List.mem_map.mp hp
  obtain ⟨xs₁, xs₂, rfl⟩ := List.append_of_mem hmem
  rw [List.map_append, List.map_cons] at hadr
  obtain ⟨ys₁, zs, rfl, hys₁, hzs⟩ := List.map_eq_append_iff.mp hadr
  obtain ⟨⟨q', b⟩, ys₂, rfl, hq, hys₂⟩ := List.map_eq_cons_iff.mp hzs
  cases hq
  rw [h.node, h'.node]
  have hfirst : firstPtr ys₂ none = firstPtr xs₂ none := by
    rw [firstPtr, firstPtr, ← List.head?_map, ← List.head?_map, hys₂]
  have hlast : lastPtr none ys₁ = lastPtr none xs₁ := by
    rw [lastPtr, lastPtr, ← List.getLast?_map, ← List.getLast?_map, hys₁]
  rw [hfirst, hlast]
  rfl

/-- What is promised of a sort of the list with the nodes `xs`. -/
structure StablySorted (ascending : Bool) (comparator : α → α → ℤ) (list r : LinkedList α)
    (xs ys : List (Ptr × α)) : Prop where
  holds : r.Repr ys
  perm : (ys.map Prod.snd).Perm (xs.map Prod.snd)
  order : (ys.map Prod.snd).Pairwise (Follows ascending comparator)
  stable : ∀ a, (ys.map Prod.snd).filter (fun b => comparator a b = 0) =
    (xs.map Prod.snd).filter fun b => comparator a b = 0
  numElements : r.numElements = list.numElements
  head : r.head = list.head
  tail : r.tail = list.tail
  links : ∀ p ∈ xs.map Prod.fst,
    (r.nodes p).map (fun n => (n.next, n.prev)) = (list.nodes p).map fun n => (n.next, n.prev)

theorem LinkedList.Sorted.stablySorted (hs : LinkedList.Sorted ascending comparator xs ys)
    (hc : Comparator comparator) (h : list.Repr xs) (h' : r.Repr ys) :
    StablySorted ascending comparator list r xs ys := by
  have hlen : ys.length = xs.length := by simpa using congrArg List.length hs.addresses
  refine ⟨h', hs.perm, ?_, fun a => hs.stable _ fun b c hbc hb => ?_, ?_, ?_, ?_,
    fun p hp => h.links_eq h' hs.addresses hp⟩
  · have htrans : IsTrans α (Follows ascending comparator) := ⟨fun _ _ _ => hc.follows_trans⟩
    exact (hs.order.imp fun _ _ => outOfOrder_eq_false_iff.mp).pairwise
  · by_contra hne
    have hequal := hc.equal_of_equal (of_decide_eq_true hb)
      (of_decide_eq_true (Bool.not_eq_false _ ▸ hne))
    unfold outOfOrder at hbc
    rw [hequal] at hbc
    cases ascending <;> simp at hbc
  · rw [← UInt32.toNat_inj, h'.numElements, h.numElements, hlen]
  · rw [h'.head, h.head, firstPtr, firstPtr, ← List.head?_map, ← List.head?_map, hs.addresses]
  · rw [h'.tail, h.tail, lastPtr, lastPtr, ← List.getLast?_map, ← List.getLast?_map, hs.addresses]

/-- `SortLinkedList` returns, and sorts stably in place. -/
theorem sortLinkedList_stablySorted (hc : Comparator comparator) (h : list.Repr xs) :
    Returns (sortLinkedList list ascending comparator) fun r =>
      ∃ ys, StablySorted ascending comparator list r xs ys := by
  refine (LinkedList.returns_sortLinkedList_sorted hc.asymm h).mono ?_
  rintro r ⟨ys, hys, hsorted⟩
  exact ⟨ys, hsorted.stablySorted hc h hys⟩

end Comparators

/-- Pairs, compared by their first components. -/
def compareKeys (a b : ℕ × ℕ) : ℤ := if a.1 < b.1 then -1 else if b.1 < a.1 then 1 else 0

theorem comparator_compareKeys : Comparator compareKeys := by
  refine ⟨fun a b => ?_, fun a b => ?_, fun a b c => ?_⟩ <;>
    unfold compareKeys <;> split_ifs <;> omega

theorem sortLinkedList_stablySorted_ties : ∃ (list : LinkedList (ℕ × ℕ)) (xs : List (Ptr × ℕ × ℕ)),
    xs.map Prod.snd = [(1, 10), (0, 11), (1, 12)] ∧
      Returns (sortLinkedList list true compareKeys) fun r =>
        ∃ ys, StablySorted true compareKeys list r xs ys := by
  obtain ⟨_, l₀, rfl, h₀⟩ := (LinkedList.returns_allocateLinkedList (α := ℕ × ℕ)).exists
  obtain ⟨⟨_, l₁⟩, -, h₁⟩ := (LinkedList.returns_pushLinkedList h₀ (by simp) (1, 12)).exists
  obtain ⟨⟨_, l₂⟩, -, h₂⟩ := (LinkedList.returns_pushLinkedList h₁ (by simp) (0, 11)).exists
  obtain ⟨⟨_, l₃⟩, -, h₃⟩ := (LinkedList.returns_pushLinkedList h₂ (by simp) (1, 10)).exists
  exact ⟨l₃, _, rfl, sortLinkedList_stablySorted comparator_compareKeys h₃⟩

end Courses.SearchEngine
