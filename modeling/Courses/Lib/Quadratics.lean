import Mathlib.Algebra.Order.Field.Basic
import Mathlib.Order.Bounds.Image
import Mathlib.Tactic

/-!
# Ranges of quadratics

A quadratic is a monotone or antitone function of the squared distance from its pivot. So its
range over an interval comes from the range of that distance, which has its maximum at an end of
the interval and its minimum at the pivot, or at an end where the pivot is not inside.
-/
namespace Courses.Lib

section Ranges

variable {α β γ : Type} [Preorder β] [Preorder γ] {f : α → β} {g : β → γ} {s : Set α} {lo hi : β}

/-- The least and the greatest value that `f` has on `s`. -/
structure RangeOn (f : α → β) (s : Set α) (lo hi : β) : Prop where
  least : IsLeast (f '' s) lo
  greatest : IsGreatest (f '' s) hi

theorem RangeOn.monotone_comp (h : RangeOn f s lo hi) (hg : Monotone g) :
    RangeOn (g ∘ f) s (g lo) (g hi) := by
  constructor
  · rw [Set.image_comp]
    exact hg.map_isLeast h.least
  · rw [Set.image_comp]
    exact hg.map_isGreatest h.greatest

theorem RangeOn.antitone_comp (h : RangeOn f s lo hi) (hg : Antitone g) :
    RangeOn (g ∘ f) s (g hi) (g lo) := by
  constructor
  · rw [Set.image_comp]
    exact hg.map_isGreatest h.greatest
  · rw [Set.image_comp]
    exact hg.map_isLeast h.least

end Ranges

section Quadratics

variable {K : Type} [Field K] [LinearOrder K] [IsStrictOrderedRing K] {a b c l u p v : K}

/-- The square of the distance between two points. -/
def sqDist (p v : K) : K := (v - p) ^ 2

theorem sqDist_self (p : K) : sqDist p p = 0 := by
  simp [sqDist]

theorem sqDist_le_of_le (hp : p ≤ l) (hv : l ≤ v) : sqDist p l ≤ sqDist p v :=
  pow_le_pow_left₀ (sub_nonneg.2 hp) (sub_le_sub_right hv p) 2

theorem sqDist_le_of_ge (hp : u ≤ p) (hv : v ≤ u) : sqDist p u ≤ sqDist p v := by
  have h : (p - u) ^ 2 ≤ (p - v) ^ 2 :=
    pow_le_pow_left₀ (sub_nonneg.2 hp) (sub_le_sub_left hv p) 2
  rwa [sub_sq_comm p u, sub_sq_comm p v] at h

theorem left_mem_image {f : K → K} (h : l ≤ u) : f l ∈ f '' Set.Icc l u :=
  Set.mem_image_of_mem f (Set.left_mem_Icc.2 h)

theorem right_mem_image {f : K → K} (h : l ≤ u) : f u ∈ f '' Set.Icc l u :=
  Set.mem_image_of_mem f (Set.right_mem_Icc.2 h)

theorem isGreatest_sqDist (h : l ≤ u) (p : K) :
    IsGreatest (sqDist p '' Set.Icc l u) (max (sqDist p l) (sqDist p u)) := by
  constructor
  · cases max_choice (sqDist p l) (sqDist p u) with
    | inl hl =>
      rw [hl]
      exact left_mem_image h
    | inr hr =>
      rw [hr]
      exact right_mem_image h
  · intro d hd
    obtain ⟨v, ⟨hl, hu⟩, rfl⟩ := hd
    cases le_total p v with
    | inl hp => exact le_max_of_le_right (sqDist_le_of_le hp hu)
    | inr hp => exact le_max_of_le_left (sqDist_le_of_ge hp hl)

/-- The pivot lies inside the interval. -/
theorem rangeOn_sqDist_inside (hl : l < p) (hu : p < u) :
    RangeOn (sqDist p) (Set.Icc l u) (sqDist p p) (max (sqDist p l) (sqDist p u)) := by
  constructor
  · constructor
    · exact Set.mem_image_of_mem _ ⟨hl.le, hu.le⟩
    · intro d hd
      obtain ⟨v, -, rfl⟩ := hd
      rw [sqDist_self]
      exact sq_nonneg (v - p)
  · exact isGreatest_sqDist (hl.trans hu).le p

/-- The pivot does not lie inside the interval. -/
theorem rangeOn_sqDist_outside (h : l ≤ u) (hp : p ≤ l ∨ u ≤ p) :
    RangeOn (sqDist p) (Set.Icc l u) (min (sqDist p l) (sqDist p u))
      (max (sqDist p l) (sqDist p u)) := by
  constructor
  · constructor
    · cases min_choice (sqDist p l) (sqDist p u) with
      | inl hl =>
        rw [hl]
        exact left_mem_image h
      | inr hr =>
        rw [hr]
        exact right_mem_image h
    · intro d hd
      obtain ⟨v, ⟨hl, hu⟩, rfl⟩ := hd
      cases hp with
      | inl hp => exact min_le_of_left_le (sqDist_le_of_le hp hl)
      | inr hp => exact min_le_of_right_le (sqDist_le_of_ge hp hu)
  · exact isGreatest_sqDist h p

/-- What the quadratic makes of the squared distance from its pivot. -/
def ofSqDist (a top d : K) : K := a * d + top

theorem monotone_ofSqDist (ha : 0 < a) (top : K) : Monotone (ofSqDist a top) := by
  intro d d' hd
  exact add_le_add_left (mul_le_mul_of_nonneg_left hd ha.le) top

theorem antitone_ofSqDist (ha : a < 0) (top : K) : Antitone (ofSqDist a top) := by
  intro d d' hd
  exact add_le_add_left (mul_le_mul_of_nonpos_left hd ha.le) top

/-- The square is completed. -/
theorem quadratic_eq_ofSqDist (ha : a ≠ 0) (hp : p = -b / (2 * a)) (v : K) :
    a * v * v + b * v + c = ofSqDist a (a * p * p + b * p + c) (sqDist p v) := by
  have hb : b = -(2 * a * p) := by
    rw [hp]
    field_simp
  unfold ofSqDist sqDist
  rw [hb]
  ring

end Quadratics

end Courses.Lib
