import Mathlib.Algebra.BigOperators.Group.List.Lemmas
import Mathlib.Algebra.Order.BigOperators.Group.List
import Mathlib.Data.List.MinMax
import Mathlib.Tactic

/-!
# Classes of a list and their means

The elements of a list with the same key are a class. The classes together are the list again,
so a sum over the list can be taken class by class. The mean of numbers is where the sum of their
squared distances is least.
-/
namespace Courses.Lib

/-- All elements before the first minimum are greater. -/
theorem argmin_first {α β : Type} [DecidableEq α] [LinearOrder β] {f : α → β} {l : List α} {m : α}
    (h : l.argmin f = some m) :
    ∃ before after, l = before ++ m :: after ∧ ∀ d ∈ before, f m < f d := by
  obtain ⟨hmem, -, hfirst⟩ := List.argmin_eq_some_iff.1 h
  obtain ⟨before, after, rfl, hnot⟩ := List.eq_append_cons_of_mem hmem
  refine ⟨before, after, rfl, fun d hd => ?_⟩
  by_contra hlt
  have hidx := hfirst d (List.mem_append_left _ hd) (not_lt.1 hlt)
  have hd' := List.idxOf_lt_length_of_mem hd
  rw [List.idxOf_append_of_mem hd, List.idxOf_append_of_notMem hnot] at hidx
  omega

section Classes

variable {α κ : Type} [DecidableEq κ] {key : α → κ} {keys : List κ} {xs : List α}

def classOf (key : α → κ) (xs : List α) (k : κ) : List α := xs.filter fun x => key x = k

theorem mem_classOf {x : α} {k : κ} : x ∈ classOf key xs k ↔ x ∈ xs ∧ key x = k := by
  simp [classOf]

/-- The classes of different keys make up the list. -/
theorem flatMap_classOf_perm (hkeys : keys.Nodup) (hcover : ∀ x ∈ xs, key x ∈ keys) :
    (keys.flatMap (classOf key xs)).Perm xs := by
  induction keys generalizing xs with
  | nil =>
    cases xs with
    | nil => exact .refl _
    | cons x xs => exact absurd (hcover x List.mem_cons_self) List.not_mem_nil
  | cons k keys ih =>
    obtain ⟨hk, hnodup⟩ := List.nodup_cons.1 hkeys
    have hrest : ∀ x ∈ xs.filter fun x => !decide (key x = k), key x ∈ keys := by
      intro x hx
      rw [List.mem_filter] at hx
      have hne : key x ≠ k := by simpa using hx.2
      exact (List.mem_cons.1 (hcover x hx.1)).resolve_left hne
    have hsame : ∀ k' ∈ keys, classOf key xs k' =
        classOf key (xs.filter fun x => !decide (key x = k)) k' := by
      intro k' hk'
      have hne : k' ≠ k := fun h => hk (h ▸ hk')
      rw [classOf, classOf, List.filter_filter]
      apply List.filter_congr
      intro x _
      by_cases hx : key x = k'
      · simp [hx, hne]
      · simp [hx]
    have hmap : keys.flatMap (classOf key xs) =
        keys.flatMap (classOf key (xs.filter fun x => !decide (key x = k))) := by
      rw [List.flatMap_def, List.flatMap_def, List.map_congr_left hsame]
    rw [List.flatMap_cons, hmap]
    exact ((ih hnodup hrest).append_left _).trans (List.filter_append_perm _ _)

/-- A sum over the list is the sum of the sums over the classes. -/
theorem sum_map_classOf {M : Type} [AddCommMonoid M] (hkeys : keys.Nodup)
    (hcover : ∀ x ∈ xs, key x ∈ keys) (f : α → M) :
    (xs.map f).sum = (keys.map fun k => ((classOf key xs k).map f).sum).sum := by
  rw [← ((flatMap_classOf_perm hkeys hcover).map f).sum_eq, List.map_flatMap,
    List.flatMap_def, List.sum_flatten, List.map_map]
  rfl

end Classes

section Mean

variable {K : Type} [Field K] [LinearOrder K] [IsStrictOrderedRing K]

theorem sum_sub_sq (xs : List K) (a : K) :
    (xs.map fun x => (x - a) ^ 2).sum =
      (xs.map fun x => x ^ 2).sum - 2 * a * xs.sum + xs.length * a ^ 2 := by
  induction xs with
  | nil => simp
  | cons x xs ih =>
    rw [List.map_cons, List.sum_cons, ih, List.map_cons, List.sum_cons, List.sum_cons,
      List.length_cons]
    push_cast
    ring

/-- No number is closer to all of them than the mean. -/
theorem sum_sub_mean_sq_le {xs : List K} (hxs : xs ≠ []) (a : K) :
    (xs.map fun x => (x - xs.sum / xs.length) ^ 2).sum ≤ (xs.map fun x => (x - a) ^ 2).sum := by
  have hlength : (xs.length : K) ≠ 0 := by
    simpa using hxs
  have hsum : xs.sum = xs.length * (xs.sum / xs.length) := by
    rw [mul_div_cancel₀ _ hlength]
  have hgap : 0 ≤ (xs.length : K) * (xs.sum / xs.length - a) ^ 2 :=
    mul_nonneg (Nat.cast_nonneg _) (sq_nonneg _)
  rw [sum_sub_sq, sum_sub_sq]
  generalize xs.sum / xs.length = m at *
  rw [hsum]
  nlinarith only [hgap]

end Mean

end Courses.Lib
