import Mathlib.Data.List.Chain
import Mathlib.Tactic

/-!
# Bubble sort

One pass carries an element along the list and exchanges neighbours that are out of
order. `swap a b` says that `a` may not stand before `b`; it only has to be asymmetric. A
pass that exchanges something lowers the number of inversions, so the passes come to an
end, and one that exchanges nothing has seen a list in order. Elements that are never
exchanged with each other keep their order.
-/
namespace Courses.Lib

variable {α : Type} (swap : α → α → Bool)

/-- A pass over `a :: l`, and whether it exchanged anything. -/
def bubble : α → List α → List α × Bool
  | a, [] => ([a], false)
  | a, b :: l =>
    if swap a b then (b :: (bubble a l).1, true) else (a :: (bubble b l).1, (bubble b l).2)

/-- The number of pairs that are out of order. -/
def inversions : List α → ℕ
  | [] => 0
  | a :: l => l.countP (swap a) + inversions l

theorem inversions_le (l : List α) : inversions swap l ≤ l.length * l.length := by
  induction l with
  | nil => exact le_rfl
  | cons a l ih =>
    have hcount : l.countP (swap a) ≤ l.length := List.countP_le_length
    simp only [inversions, List.length_cons]
    nlinarith

theorem bubble_perm (a : α) (l : List α) : (bubble swap a l).1.Perm (a :: l) := by
  induction l generalizing a with
  | nil => exact .refl _
  | cons b l ih =>
    unfold bubble
    split
    · exact ((ih a).cons b).trans (.swap a b l)
    · exact (ih b).cons a

/-- A pass keeps the order of elements that it never exchanges with each other. -/
theorem filter_bubble {p : α → Bool} (hp : ∀ a b, swap a b = true → p a = true → p b = false)
    (a : α) (l : List α) : (bubble swap a l).1.filter p = (a :: l).filter p := by
  induction l generalizing a with
  | nil => rfl
  | cons b l ih =>
    unfold bubble
    by_cases hab : swap a b = true
    · rw [if_pos hab, List.filter_cons, ih a]
      by_cases ha : p a = true
      · have hb := hp a b hab ha
        simp [ha, hb]
      · simp [List.filter_cons, ha]
    · rw [if_neg hab, List.filter_cons, ih b]
      exact List.filter_cons.symm

/-- A pass that exchanged something leaves fewer inversions. -/
theorem inversions_bubble (hasymm : ∀ a b, swap a b = true → swap b a = false) (a : α) (l : List α) :
    inversions swap (bubble swap a l).1 + (bubble swap a l).2.toNat ≤ inversions swap (a :: l) := by
  induction l generalizing a with
  | nil => exact le_rfl
  | cons b l ih =>
    unfold bubble
    split
    · rename_i hab
      have hperm := (bubble_perm swap a l).countP_eq (swap b)
      have hba : swap b a = false := hasymm a b hab
      have hrest := ih a
      simp only [inversions, List.countP_cons, hab, hba, if_true, Bool.toNat_true] at hperm hrest ⊢
      simp only [Bool.false_eq_true, if_false, Nat.add_zero] at hperm
      omega
    · have hperm := (bubble_perm swap b l).countP_eq (swap a)
      have hrest := ih b
      simp only [inversions] at hrest ⊢
      omega

/-- A pass that exchanged nothing saw no neighbours out of order. -/
theorem bubble_of_not_swapped {a : α} {l : List α} (h : (bubble swap a l).2 = false) :
    (bubble swap a l).1 = a :: l ∧ List.IsChain (fun x y => swap x y = false) (a :: l) := by
  induction l generalizing a with
  | nil => exact ⟨rfl, List.isChain_singleton _⟩
  | cons b l ih =>
    unfold bubble at h ⊢
    split
    · rename_i hab
      rw [if_pos hab] at h
      cases h
    · rename_i hab
      rw [if_neg hab] at h
      obtain ⟨heq, hchain⟩ := ih h
      exact ⟨by rw [heq], List.isChain_cons_cons.2 ⟨by simpa using hab, hchain⟩⟩

end Courses.Lib
