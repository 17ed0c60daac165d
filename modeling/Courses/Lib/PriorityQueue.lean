import Mathlib.Data.Multiset.AddSub

/-!
# Priority queues

What a client may rely on in a queue that removes a minimum under a
comparator. Which of several minima is removed is left open.
-/

namespace Courses

/-- A minimum-oriented priority queue. `items` is what a queue holds. -/
structure MinPQ (Key : Type) (compare : Key → Key → Ordering) where
  Queue : Type
  items : Queue → Multiset Key
  new : Queue
  isEmpty : Queue → Bool
  insert : Queue → Key → Queue
  delMin : Queue → Option (Key × Queue)
  items_new : items new = 0
  items_insert : ∀ q k, items (insert q k) = k ::ₘ items q
  isEmpty_iff : ∀ q, isEmpty q = true ↔ items q = 0
  delMin_minimum : ∀ q, items q ≠ 0 → ∃ k q', delMin q = some (k, q') ∧
    items q = k ::ₘ items q' ∧ ∀ x ∈ items q, compare k x ≠ .gt

namespace MinPQ

variable {Key : Type} {compare : Key → Key → Ordering} (pq : MinPQ Key compare)

theorem items_foldl_insert (q : pq.Queue) (ks : List Key) :
    pq.items (ks.foldl pq.insert q) = pq.items q + ks := by
  induction ks generalizing q with
  | nil => simp
  | cons k ks ih =>
    rw [List.foldl_cons, ih, pq.items_insert, ← Multiset.cons_coe, Multiset.cons_add,
      Multiset.add_cons]

/-- A minimum of a list and the rest of it. -/
def popMin (compare : Key → Key → Ordering) : List Key → Option (Key × List Key)
  | [] => none
  | x :: xs =>
      match popMin compare xs with
      | none => some (x, [])
      | some (y, ys) => if compare x y = .gt then some (y, x :: ys) else some (x, y :: ys)

theorem exists_popMin [Std.TransCmp compare] {xs : List Key} (hxs : xs ≠ []) :
    ∃ k ys, popMin compare xs = some (k, ys) ∧ xs.Perm (k :: ys) ∧
      ∀ x ∈ xs, compare k x ≠ .gt := by
  induction xs with
  | nil => exact absurd rfl hxs
  | cons x xs ih =>
    have hself : compare x x ≠ .gt := by simp [Std.ReflCmp.compare_self]
    by_cases hnil : xs = []
    · subst hnil
      exact ⟨x, [], rfl, .refl _, by simpa using hself⟩
    obtain ⟨y, ys, hpop, hperm, hmin⟩ := ih hnil
    by_cases hxy : compare x y = .gt
    · have hyx : compare y x ≠ .gt := by
        rw [Std.OrientedCmp.gt_iff_lt] at hxy
        simp [hxy]
      refine ⟨y, x :: ys, by simp [popMin, hpop, hxy], (hperm.cons x).trans (.swap y x ys), ?_⟩
      exact fun z hz => (List.mem_cons.mp hz).elim (fun hz => hz ▸ hyx) (hmin z)
    · refine ⟨x, y :: ys, by simp [popMin, hpop, hxy], hperm.cons x, fun z hz => ?_⟩
      rcases List.mem_cons.mp hz with rfl | hz
      · exact hself
      · exact Ordering.ne_gt_iff_isLE.mpr (Std.TransCmp.isLE_trans
          (Ordering.ne_gt_iff_isLE.mp hxy) (Ordering.ne_gt_iff_isLE.mp (hmin z hz)))

/-- The queue that keeps its keys in a list and looks for the minimum. -/
def ofList (compare : Key → Key → Ordering) [Std.TransCmp compare] : MinPQ Key compare where
  Queue := List Key
  items q := q
  new := []
  isEmpty q := q.isEmpty
  insert q k := k :: q
  delMin := popMin compare
  items_new := rfl
  items_insert _ _ := rfl
  isEmpty_iff q := by simp
  delMin_minimum q hq := by
    have hne : q ≠ [] := by simpa using hq
    have hleast : ∃ k ys, popMin compare q = some (k, ys) ∧ q.Perm (k :: ys) ∧
        ∀ x ∈ q, compare k x ≠ .gt := exists_popMin hne
    obtain ⟨k, ys, hpop, hperm, hmin⟩ := hleast
    exact ⟨k, ys, hpop, Multiset.coe_eq_coe.mpr hperm, hmin⟩

end MinPQ

end Courses
