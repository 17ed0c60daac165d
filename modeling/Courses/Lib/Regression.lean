import Mathlib.Algebra.Order.Field.Basic
import Mathlib.Algebra.Order.BigOperators.Group.List
import Mathlib.Tactic

/-!
# Linear regression

The elements of a list are described by numbers `f` and `g`. Of all linear functions of `f`, that
with slope `dev f g / dev f f` through the two means has the least sum of squared errors from `g`.
-/
namespace Courses.Lib.Regression

variable {α K : Type} [Field K] [LinearOrder K] [IsStrictOrderedRing K] {l : List α} {f g : α → K}

def avg (l : List α) (f : α → K) : K := (l.map f).sum / l.length

/-- The sum of the products of the deviations from the means. -/
def dev (l : List α) (f g : α → K) : K :=
  (l.map fun r => (f r - avg l f) * (g r - avg l g)).sum

/-- The sum of the squared errors of `h` from `g`. -/
def sqError (l : List α) (g h : α → K) : K := (l.map fun r => (g r - h r) ^ 2).sum

def line (f : α → K) (b a : K) : α → K := fun r => b * f r + a

theorem sum_mul_sub (l : List α) (f g : α → K) (c d : K) :
    (l.map fun r => (f r - c) * (g r - d)).sum = (l.map fun r => f r * g r).sum -
      d * (l.map f).sum - c * (l.map g).sum + l.length * (c * d) := by
  induction l with
  | nil => simp
  | cons r l ih =>
    simp only [List.map_cons, List.sum_cons, List.length_cons, ih]
    push_cast
    ring

theorem dev_eq (hl : l ≠ []) (f g : α → K) :
    dev l f g = (l.map fun r => f r * g r).sum - l.length * (avg l f * avg l g) := by
  have hlength : (l.length : K) ≠ 0 := by simpa using hl
  have hf : (l.map f).sum = l.length * avg l f := by rw [avg, mul_div_cancel₀ _ hlength]
  have hg : (l.map g).sum = l.length * avg l g := by rw [avg, mul_div_cancel₀ _ hlength]
  rw [dev, sum_mul_sub, hf, hg]
  ring

theorem dev_self_nonneg (l : List α) (f : α → K) : 0 ≤ dev l f f := by
  apply List.sum_nonneg
  intro x hx
  obtain ⟨r, _, rfl⟩ := List.mem_map.mp hx
  exact mul_self_nonneg _

/-- The deviations vanish if and only if there are no two different values. -/
theorem dev_self_eq_zero : dev l f f = 0 ↔ ∀ r ∈ l, ∀ r' ∈ l, f r = f r' := by
  constructor
  · intro h r hr r' hr'
    have hzero : ∀ r ∈ l, f r = avg l f := by
      intro r hr
      have hmem := List.mem_map_of_mem (f := fun r => (f r - avg l f) * (f r - avg l f)) hr
      have hle := List.single_le_sum (by
        intro x hx
        obtain ⟨r, _, rfl⟩ := List.mem_map.mp hx
        exact mul_self_nonneg _) _ hmem
      rw [← dev, h] at hle
      have hsq := le_antisymm hle (mul_self_nonneg _)
      exact sub_eq_zero.mp (mul_self_eq_zero.mp hsq)
    rw [hzero r hr, hzero r' hr']
  · intro h
    cases l with
    | nil => rfl
    | cons r l =>
      have havg : avg (r :: l) f = f r := by
        have hconst : (r :: l).map f = List.replicate (r :: l).length (f r) := by
          rw [List.eq_replicate_iff]
          refine ⟨List.length_map f, ?_⟩
          intro x hx
          obtain ⟨r', hr', rfl⟩ := List.mem_map.mp hx
          exact h r' hr' r List.mem_cons_self
        have hlength : ((r :: l).length : K) ≠ 0 := Nat.cast_ne_zero.mpr (by simp)
        rw [avg, hconst, List.sum_replicate, nsmul_eq_mul, mul_div_cancel_left₀ _ hlength]
      apply List.sum_eq_zero
      intro x hx
      obtain ⟨r', hr', rfl⟩ := List.mem_map.mp hx
      rw [havg, h r' hr' r List.mem_cons_self, sub_self, mul_zero]

theorem dev_self_ne_zero : dev l f f ≠ 0 ↔ ∃ r ∈ l, ∃ r' ∈ l, f r ≠ f r' := by
  rw [Ne, dev_self_eq_zero]
  push Not
  rfl

theorem sqError_line (l : List α) (f g : α → K) (b a : K) :
    sqError l g (line f b a) = (l.map fun r => g r * g r).sum -
      2 * b * (l.map fun r => f r * g r).sum - 2 * a * (l.map g).sum +
      b ^ 2 * (l.map fun r => f r * f r).sum + 2 * a * b * (l.map f).sum + l.length * a ^ 2 := by
  induction l with
  | nil => simp [sqError]
  | cons r l ih =>
    rw [sqError, List.map_cons, List.sum_cons, ← sqError, ih]
    simp only [line, List.map_cons, List.sum_cons, List.length_cons]
    push_cast
    ring

/-- The error of a line, as a sum of squares and the least error. -/
theorem sqError_line_eq (hl : l ≠ []) (hf : dev l f f ≠ 0) (b a : K) :
    sqError l g (line f b a) = l.length * (avg l g - b * avg l f - a) ^ 2 +
      dev l f f * (b - dev l f g / dev l f f) ^ 2 +
      (dev l g g - dev l f g * dev l f g / dev l f f) := by
  have hlength : (l.length : K) ≠ 0 := by simpa using hl
  have hsumf : (l.map f).sum = l.length * avg l f := by rw [avg, mul_div_cancel₀ _ hlength]
  have hsumg : (l.map g).sum = l.length * avg l g := by rw [avg, mul_div_cancel₀ _ hlength]
  have hslope : dev l f f * (b - dev l f g / dev l f f) ^ 2 =
      b ^ 2 * dev l f f - 2 * b * dev l f g + dev l f g * dev l f g / dev l f f := by
    field_simp
    ring
  rw [hslope, sqError_line, hsumf, hsumg]
  rw [dev_eq hl f f, dev_eq hl f g, dev_eq hl g g]
  ring

/-- The line with the least error, and its error. -/
theorem sqError_regression (hl : l ≠ []) (hf : dev l f f ≠ 0) :
    sqError l g (line f (dev l f g / dev l f f) (avg l g - dev l f g / dev l f f * avg l f)) =
      dev l g g - dev l f g * dev l f g / dev l f f := by
  rw [sqError_line_eq hl hf]
  ring

theorem le_sqError_line (hl : l ≠ []) (hf : dev l f f ≠ 0) (b a : K) :
    dev l g g - dev l f g * dev l f g / dev l f f ≤ sqError l g (line f b a) := by
  rw [sqError_line_eq hl hf]
  have hsquare : 0 ≤ (l.length : K) * (avg l g - b * avg l f - a) ^ 2 :=
    mul_nonneg (Nat.cast_nonneg _) (sq_nonneg _)
  have hslope : 0 ≤ dev l f f * (b - dev l f g / dev l f f) ^ 2 :=
    mul_nonneg (dev_self_nonneg l f) (sq_nonneg _)
  linarith

end Courses.Lib.Regression
