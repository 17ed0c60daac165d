import Mathlib

/-!
# Mobiles

The binary mobiles of homework 5. What `mobile`, `side` and `weight` build is an inductive type
with the lengths of the two sides at each mobile; the assertion of `weight` is a field.
-/
namespace Courses.Exercises

inductive Mobile
  | weight (size : ℚ) (pos : 0 < size)
  | mobile (leftLength : ℕ) (leftEnd : Mobile) (rightLength : ℕ) (rightEnd : Mobile)

namespace Mobile

def totalWeight : Mobile → ℚ
  | weight size _ => size
  | mobile _ leftEnd _ rightEnd => leftEnd.totalWeight + rightEnd.totalWeight

/-- Whether the mobile counts as balanced, and its weight if it does. The test of the two
answers reads the left one twice. -/
def weightBalance : Mobile → Bool × ℚ
  | weight size _ => (true, size)
  | mobile leftLength leftEnd rightLength rightEnd =>
    let (baL, wtL) := leftEnd.weightBalance
    let (_, wtR) := rightEnd.weightBalance
    if !baL || !baL then (false, 0)
    else if wtL * leftLength ≠ wtR * rightLength then (false, 0)
    else (true, wtL + wtR)

def balanced (m : Mobile) : Bool := m.weightBalance.1

/-! ## Level mobiles -/

/-- `x` is `m` or hangs anywhere below it. -/
inductive Hangs (x : Mobile) : Mobile → Prop
  | self : Hangs x x
  | left {leftLength rightLength : ℕ} {leftEnd rightEnd : Mobile} (h : Hangs x leftEnd) :
      Hangs x (mobile leftLength leftEnd rightLength rightEnd)
  | right {leftLength rightLength : ℕ} {leftEnd rightEnd : Mobile} (h : Hangs x rightEnd) :
      Hangs x (mobile leftLength leftEnd rightLength rightEnd)

/-- The products are equal at every mobile of `m`. -/
def Level (m : Mobile) : Prop :=
  ∀ leftLength leftEnd rightLength rightEnd,
    Hangs (mobile leftLength leftEnd rightLength rightEnd) m →
      leftLength * leftEnd.totalWeight = rightLength * rightEnd.totalWeight

def isLevel : Mobile → Bool
  | weight _ _ => true
  | mobile leftLength leftEnd rightLength rightEnd =>
    leftLength * leftEnd.totalWeight == rightLength * rightEnd.totalWeight &&
      leftEnd.isLevel && rightEnd.isLevel

theorem totalWeight_pos (m : Mobile) : 0 < m.totalWeight := by
  induction m with
  | weight size pos => exact pos
  | mobile _ _ _ _ ihl ihr => exact add_pos ihl ihr

theorem level_weight (size : ℚ) (pos : 0 < size) : Level (weight size pos) := by
  intro _ _ _ _ h
  cases h

theorem level_mobile (leftLength rightLength : ℕ) (leftEnd rightEnd : Mobile) :
    Level (mobile leftLength leftEnd rightLength rightEnd) ↔
      leftLength * leftEnd.totalWeight = rightLength * rightEnd.totalWeight ∧
        Level leftEnd ∧ Level rightEnd := by
  constructor
  · intro h
    exact ⟨h _ _ _ _ .self, fun _ _ _ _ hx => h _ _ _ _ hx.left,
      fun _ _ _ _ hx => h _ _ _ _ hx.right⟩
  · intro h _ _ _ _ hx
    cases hx with
    | self => exact h.1
    | left hx => exact h.2.1 _ _ _ _ hx
    | right hx => exact h.2.2 _ _ _ _ hx

theorem isLevel_iff (m : Mobile) : m.isLevel = true ↔ Level m := by
  induction m with
  | weight size pos => simp [isLevel, level_weight]
  | mobile leftLength leftEnd rightLength rightEnd ihl ihr =>
    simp only [isLevel, Bool.and_eq_true, beq_iff_eq, ihl, ihr, level_mobile, and_assoc]

/-! ## What `balanced` sees -/

/-- The mobile without the ends that `balanced` overlooks: where the left side has length 0 and
the right end, once it is cut itself, is not level, only the left end is left. -/
def cut : Mobile → Mobile
  | weight size pos => weight size pos
  | mobile leftLength leftEnd rightLength rightEnd =>
    if leftLength = 0 ∧ rightEnd.cut.isLevel = false then leftEnd.cut
    else mobile leftLength leftEnd.cut rightLength rightEnd.cut

theorem cut_of_level (m : Mobile) (h : Level m) : m.cut = m := by
  induction m with
  | weight size pos => rfl
  | mobile leftLength leftEnd rightLength rightEnd ihl ihr =>
    obtain ⟨-, hl, hr⟩ := (level_mobile _ _ _ _).mp h
    have hright : ¬ (leftLength = 0 ∧ rightEnd.cut.isLevel = false) := by
      rw [ihr hr, (isLevel_iff rightEnd).mpr hr]
      simp
    rw [cut, if_neg hright, ihl hl, ihr hr]

/-- The answer and the weight are those of the cut mobile. -/
theorem weightBalance_eq (m : Mobile) :
    m.weightBalance = if m.cut.isLevel then (true, m.cut.totalWeight) else (false, 0) := by
  induction m with
  | weight size pos => rfl
  | mobile leftLength leftEnd rightLength rightEnd ihl ihr =>
    rw [weightBalance, ihl, ihr]
    cases hl : leftEnd.cut.isLevel with
    | false =>
      have hcut : (mobile leftLength leftEnd rightLength rightEnd).cut.isLevel = false := by
        rw [cut]
        split
        · exact hl
        · simp [isLevel, hl]
      simp [hcut]
    | true =>
      have hpos := leftEnd.cut.totalWeight_pos
      cases hr : rightEnd.cut.isLevel with
      | false =>
        by_cases hzero : leftLength = 0
        · simp [cut, hzero, hr, hl]
        · simp [cut, hzero, hr, isLevel, hpos.ne']
      | true =>
        have hcut : (mobile leftLength leftEnd rightLength rightEnd).cut =
            mobile leftLength leftEnd.cut rightLength rightEnd.cut := by
          simp [cut, hr]
        rw [hcut]
        by_cases heq : leftLength * leftEnd.cut.totalWeight =
            rightLength * rightEnd.cut.totalWeight
        · simp [isLevel, hl, hr, totalWeight, mul_comm, heq]
        · simp [isLevel, hl, hr, mul_comm, heq]

end Mobile

end Courses.Exercises
