import Mathlib.Data.List.Forall2

/-!
# Lists of computations that may fail

`List.mapM` over computations in `Except`.
-/
namespace Courses.Lib

variable {α β ε : Type} {f : α → Except ε β} {xs : List α}

theorem mapM_forall₂ {R : α → β → Prop} (h : ∀ x ∈ xs, ∃ y, f x = .ok y ∧ R x y) :
    ∃ ys, xs.mapM f = .ok ys ∧ List.Forall₂ R xs ys := by
  induction xs with
  | nil => exact ⟨[], rfl, .nil⟩
  | cons x xs ih =>
    obtain ⟨y, hy, hR⟩ := h x List.mem_cons_self
    obtain ⟨ys, hys, hRs⟩ := ih fun x hx => h x (List.mem_cons_of_mem _ hx)
    exact ⟨y :: ys, by rw [List.mapM_cons, hy, hys]; rfl, .cons hR hRs⟩

theorem mapM_ok {g : α → β} (h : ∀ x ∈ xs, f x = .ok (g x)) : xs.mapM f = .ok (xs.map g) := by
  induction xs with
  | nil => rfl
  | cons x xs ih =>
    rw [List.mapM_cons, h x List.mem_cons_self, ih fun y hy => h y (List.mem_cons_of_mem _ hy)]
    rfl

theorem of_mapM_ok {ys : List β} (h : xs.mapM f = .ok ys) : ∀ x ∈ xs, ∃ y ∈ ys, f x = .ok y := by
  induction xs generalizing ys with
  | nil =>
    intro x hx
    cases hx
  | cons x xs ih =>
    rw [List.mapM_cons] at h
    cases hx : f x with
    | error e =>
      rw [hx] at h
      cases h
    | ok y =>
      cases hxs : xs.mapM f with
      | error e =>
        rw [hx, hxs] at h
        cases h
      | ok ys' =>
        rw [hx, hxs] at h
        cases h
        intro z hz
        cases List.mem_cons.mp hz with
        | inl heq =>
          rw [heq]
          exact ⟨y, List.mem_cons_self, hx⟩
        | inr hmem =>
          obtain ⟨w, hw, hfz⟩ := ih hxs z hmem
          exact ⟨w, List.mem_cons_of_mem y hw, hfz⟩

end Courses.Lib
