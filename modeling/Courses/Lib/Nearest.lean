import Mathlib.Order.Defs.LinearOrder
import Mathlib.Data.Set.Insert

/-!
# Searching for the nearest candidate

A search keeps the best candidate it has seen together with its distance, and
a candidate replaces it only when it is strictly nearer. A search may stop
early in a part of the candidates whose distances are all beyond the best one.
The results of two searches over the same candidates can differ, but only
among candidates at the same distance.
-/

namespace Courses.Nearest

variable {α K : Type*} [LinearOrder K] (d : α → K)

/-- Take the newcomer when it is strictly nearer than the best one so far. -/
def improve (best : Option α × K) : Option α → Option α × K
  | none => best
  | some x => if d x < best.2 then (some x, d x) else best

/-- What a search of `S` below `bound` finds: a nearest candidate, or nothing
when no candidate is below the bound. -/
def Finds (S : Set α) (bound : K) : Option α → Prop
  | none => ∀ x ∈ S, bound ≤ d x
  | some x => x ∈ S ∧ d x < bound ∧ ∀ y ∈ S, d x ≤ d y

/-- The state of a search below `bound` that has seen all of `S`. -/
structure Best (S : Set α) (bound : K) (best : Option α × K) : Prop where
  finds : Finds d S bound best.1
  dist : best.2 = (best.1.map d).getD bound

variable {d} {S T : Set α} {bound : K} {best : Option α × K}

theorem improve_of_lt {x : α} (h : d x < best.2) :
    improve d best (some x) = (some x, d x) :=
  if_pos h

theorem improve_of_le {x : α} (h : best.2 ≤ d x) : improve d best (some x) = best :=
  if_neg h.not_gt

theorem best_start : Best d ∅ bound (none, bound) :=
  ⟨fun _ hx => absurd hx (Set.notMem_empty _), rfl⟩

theorem Best.le_bound (h : Best d S bound best) : best.2 ≤ bound := by
  obtain ⟨_ | x, dist⟩ := best
  · exact le_of_eq h.dist
  · exact h.dist.trans_le h.finds.2.1.le

theorem Best.le_dist (h : Best d S bound best) {x : α} (hx : x ∈ S) : best.2 ≤ d x := by
  obtain ⟨_ | y, dist⟩ := best
  · exact h.dist.trans_le (h.finds x hx)
  · exact h.dist.trans_le (h.finds.2.2 x hx)

theorem Best.congr (h : Best d S bound best) (hST : S = T) : Best d T bound best :=
  hST ▸ h

/-- A strictly nearer candidate that is nearest in what was seen since. -/
theorem Best.replace (h : Best d S bound best) {x : α} (hx : x ∈ T)
    (hlt : d x < best.2) (hmin : ∀ y ∈ T, d x ≤ d y) :
    Best d (S ∪ T) bound (some x, d x) := by
  have hS : ∀ y ∈ S, d x ≤ d y := fun y hy => hlt.le.trans (h.le_dist hy)
  exact ⟨⟨Or.inr hx, hlt.trans_le h.le_bound, fun y hy => hy.elim (hS y) (hmin y)⟩, rfl⟩

/-- Nothing among the new candidates is nearer. -/
theorem Best.keep (h : Best d S bound best) (hT : ∀ y ∈ T, best.2 ≤ d y) :
    Best d (S ∪ T) bound best := by
  obtain ⟨_ | x, dist⟩ := best
  · have hdist : dist = bound := h.dist
    subst hdist
    exact ⟨fun y hy => hy.elim (h.finds y) (hT y), rfl⟩
  · have hdist : dist = d x := h.dist
    subst hdist
    exact ⟨⟨Or.inl h.finds.1, h.finds.2.1,
      fun y hy => hy.elim (h.finds.2.2 y) (hT y)⟩, rfl⟩

/-- One more candidate is looked at. -/
theorem Best.see (h : Best d S bound best) (x : α) :
    Best d (S ∪ {x}) bound (improve d best (some x)) := by
  obtain hx | hx := lt_or_ge (d x) best.2
  · rw [improve_of_lt hx]
    exact h.replace rfl hx fun y hy => le_of_eq (congrArg d hy.symm)
  · rw [improve_of_le hx]
    exact h.keep fun y hy => hx.trans_eq (congrArg d hy.symm)

/-- The result of a further search below the best distance is taken over. -/
theorem Best.take (h : Best d S bound best) {r : Option α}
    (hr : Finds d T best.2 r) : Best d (S ∪ T) bound (improve d best r) := by
  cases r with
  | none => exact h.keep hr
  | some x =>
    rw [improve_of_lt hr.2.1]
    exact h.replace hr.1 hr.2.1 hr.2.2

/-- A scan of a list leaves the best of its elements. -/
theorem Best.foldl (h : Best d S bound best) (xs : List α) :
    Best d (S ∪ {x | x ∈ xs}) bound
      (xs.foldl (fun best x => improve d best (some x)) best) := by
  induction xs generalizing S best with
  | nil => exact h.congr (by simp)
  | cons x xs ih =>
    refine (ih (h.see x)).congr ?_
    ext y
    simp [or_left_comm, or_assoc]

theorem best_foldl (xs : List α) (bound : K) :
    Best d {x | x ∈ xs} bound
      (xs.foldl (fun best x => improve d best (some x)) (none, bound)) :=
  (best_start.foldl xs).congr (Set.empty_union _)

variable {r r' : Option α}

/-- A search that finds nothing has no candidate below its bound. -/
theorem Finds.eq_none (h : Finds d S bound r) (hS : S = ∅) : r = none := by
  cases r with
  | none => rfl
  | some x => exact absurd h.1 (hS ▸ Set.notMem_empty x)

/-- Where a candidate lies below the bound, a nearest one is found. -/
theorem Finds.exists_nearest (h : Finds d S bound r) {x : α} (hx : x ∈ S)
    (hlt : d x < bound) : ∃ y, r = some y ∧ y ∈ S ∧ ∀ z ∈ S, d y ≤ d z := by
  cases r with
  | none => exact absurd hlt (h x hx).not_gt
  | some y => exact ⟨y, rfl, h.1, h.2.2⟩

end Courses.Nearest
