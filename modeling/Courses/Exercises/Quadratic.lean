import Courses.Lib.Quadratics
import Mathlib.Data.Rat.Lemmas

/-!
# Ranges of quadratics over intervals

`quadratic` of homework 4, on intervals of exact rationals. The pivot is computed before the code
looks whether the leading coefficient is zero.
-/
namespace Courses.Exercises.Quadratic

open Courses.Lib

inductive Exn
  | indexError
  | zeroDivision
  deriving DecidableEq

/-- An interval is the list of its bounds. -/
def interval (a b : ℚ) : List ℚ := [a, b]

/-- `x[i]` -/
def item (x : List ℚ) (i : ℕ) : Except Exn ℚ :=
  match x[i]? with
  | none => .error .indexError
  | some a => .ok a

def lowerBound (x : List ℚ) : Except Exn ℚ := item x 0

def upperBound (x : List ℚ) : Except Exn ℚ := item x 1

/-- `a / b` -/
def divide (a b : ℚ) : Except Exn ℚ := if b = 0 then .error .zeroDivision else .ok (a / b)

/-- The quadratic with the coefficients `a`, `b` and `c` at the point `v`. -/
def value (a b c v : ℚ) : ℚ := a * v * v + b * v + c

def quadratic (x : List ℚ) (a b c : ℚ) : Except Exn (List ℚ) := do
  let pivot ← divide (-b) (2 * a)
  let lX ← lowerBound x
  let uX ← upperBound x
  if a ≠ 0 ∧ pivot > lX ∧ pivot < uX then
    if a < 0 then
      let lo := min (value a b c lX) (value a b c uX)
      return interval lo (value a b c pivot)
    else
      let hi := max (value a b c lX) (value a b c uX)
      return interval (value a b c pivot) hi
  else
    let end1 := value a b c lX
    let end2 := value a b c uX
    return interval (min end1 end2) (max end1 end2)

variable {l u a b c : ℚ}

theorem quadratic_zero (x : List ℚ) (b c : ℚ) : quadratic x 0 b c = .error .zeroDivision := by
  simp [quadratic, divide, bind, Except.bind]

theorem quadratic_of_ne_zero (ha : a ≠ 0) :
    quadratic (interval l u) a b c = .ok
      (if l < -b / (2 * a) ∧ -b / (2 * a) < u then
        if a < 0 then
          interval (min (value a b c l) (value a b c u)) (value a b c (-b / (2 * a)))
        else interval (value a b c (-b / (2 * a))) (max (value a b c l) (value a b c u))
      else
        interval (min (value a b c l) (value a b c u)) (max (value a b c l) (value a b c u))) := by
  have hdivide : divide (-b) (2 * a) = .ok (-b / (2 * a)) :=
    if_neg (mul_ne_zero two_ne_zero ha)
  unfold quadratic
  rw [hdivide]
  simp only [bind, Except.bind, pure, Except.pure, lowerBound, upperBound, item, interval,
    List.getElem?_cons_zero, List.getElem?_cons_succ, gt_iff_lt, ha, ne_eq, not_false_eq_true,
    true_and]
  split_ifs
  · rfl
  · rfl
  · rfl

/-- With the square completed, the value is a function of the distance from the pivot. -/
theorem value_eq (ha : a ≠ 0) :
    value a b c = ofSqDist a (value a b c (-b / (2 * a))) ∘ sqDist (-b / (2 * a)) :=
  funext fun v => quadratic_eq_ofSqDist ha rfl v

/-- The pivot is not inside: the bounds are the values at the ends. -/
theorem rangeOn_value_outside (h : l ≤ u) (ha : a ≠ 0)
    (hp : -b / (2 * a) ≤ l ∨ u ≤ -b / (2 * a)) :
    RangeOn (value a b c) (Set.Icc l u) (min (value a b c l) (value a b c u))
      (max (value a b c l) (value a b c u)) := by
  have hrange := rangeOn_sqDist_outside h hp
  rw [value_eq ha]
  cases lt_or_gt_of_ne ha with
  | inl hneg =>
    have hanti := antitone_ofSqDist hneg (value a b c (-b / (2 * a)))
    have hrange := hrange.antitone_comp hanti
    rwa [hanti.map_max, hanti.map_min] at hrange
  | inr hpos =>
    have hmono := monotone_ofSqDist hpos (value a b c (-b / (2 * a)))
    have hrange := hrange.monotone_comp hmono
    rwa [hmono.map_max, hmono.map_min] at hrange

/-- The pivot is inside, and the value there is the greatest. -/
theorem rangeOn_value_neg (ha : a < 0) (hl : l < -b / (2 * a)) (hu : -b / (2 * a) < u) :
    RangeOn (value a b c) (Set.Icc l u) (min (value a b c l) (value a b c u))
      (value a b c (-b / (2 * a))) := by
  have hanti := antitone_ofSqDist ha (value a b c (-b / (2 * a)))
  have hrange := (rangeOn_sqDist_inside hl hu).antitone_comp hanti
  rw [hanti.map_max] at hrange
  rw [value_eq ha.ne]
  exact hrange

/-- The pivot is inside, and the value there is the least. -/
theorem rangeOn_value_pos (ha : 0 < a) (hl : l < -b / (2 * a)) (hu : -b / (2 * a) < u) :
    RangeOn (value a b c) (Set.Icc l u) (value a b c (-b / (2 * a)))
      (max (value a b c l) (value a b c u)) := by
  have hmono := monotone_ofSqDist ha (value a b c (-b / (2 * a)))
  have hrange := (rangeOn_sqDist_inside hl hu).monotone_comp hmono
  rw [hmono.map_max] at hrange
  rw [value_eq ha.ne']
  exact hrange

/-- The result is the interval between the least and the greatest value, if and only if the
leading coefficient is not zero: else the pivot is a division by zero. -/
theorem quadratic_iff (a b c : ℚ) {l u : ℚ} (h : l ≤ u) :
    (∃ lo hi, quadratic (interval l u) a b c = .ok (interval lo hi) ∧
      IsLeast (value a b c '' Set.Icc l u) lo ∧ IsGreatest (value a b c '' Set.Icc l u) hi) ↔
    a ≠ 0 := by
  constructor
  · intro hresult ha
    obtain ⟨lo, hi, hrun, -⟩ := hresult
    rw [ha, quadratic_zero] at hrun
    cases hrun
  · intro ha
    rw [quadratic_of_ne_zero ha]
    split_ifs with hpivot hneg
    · have hrange := rangeOn_value_neg (c := c) hneg hpivot.1 hpivot.2
      exact ⟨_, _, rfl, hrange.least, hrange.greatest⟩
    · have hpos := lt_of_le_of_ne (not_lt.1 hneg) ha.symm
      have hrange := rangeOn_value_pos (c := c) hpos hpivot.1 hpivot.2
      exact ⟨_, _, rfl, hrange.least, hrange.greatest⟩
    · have hout : -b / (2 * a) ≤ l ∨ u ≤ -b / (2 * a) := by
        by_contra hin
        push Not at hin
        exact hpivot hin
      have hrange := rangeOn_value_outside (c := c) h ha hout
      exact ⟨_, _, rfl, hrange.least, hrange.greatest⟩

/-- From 1 to 3, of `2 * v * v - 3 * v + 1`. -/
theorem quadratic_iff_oneThree :
    (1 : ℚ) ≤ 3 ∧ ∃ lo hi, quadratic (interval 1 3) 2 (-3) 1 = .ok (interval lo hi) ∧
      IsLeast (value 2 (-3) 1 '' Set.Icc 1 3) lo ∧
      IsGreatest (value 2 (-3) 1 '' Set.Icc 1 3) hi :=
  ⟨by norm_num, (quadratic_iff 2 (-3) 1 (by norm_num)).2 two_ne_zero⟩

/-- From 0 to 1, of `v`. -/
theorem quadratic_linear_fails :
    (0 : ℚ) ≤ 1 ∧ ¬∃ lo hi, quadratic (interval 0 1) 0 1 0 = .ok (interval lo hi) ∧
      IsLeast (value 0 1 0 '' Set.Icc 0 1) lo ∧ IsGreatest (value 0 1 0 '' Set.Icc 0 1) hi := by
  refine ⟨zero_le_one, fun hresult => ?_⟩
  obtain ⟨lo, hi, hrun, -⟩ := hresult
  rw [quadratic_zero] at hrun
  cases hrun

end Courses.Exercises.Quadratic
