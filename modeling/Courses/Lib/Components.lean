import Mathlib.Logic.Relation
import Mathlib.Tactic

/-!
# Connected components

A graph is a list of edges, read in the order of the list. The edges join vertices in
either direction; a labelling tells the components apart, and joining two components is
giving one the label of the other. In a forest no edge joins what the edges before it join.
-/
namespace Courses.Lib

open Relation

variable {α β : Type}

/-- The vertices are joined by edges. -/
def Connected (E : List (α × α)) : α → α → Prop := EqvGen fun a b => (a, b) ∈ E

/-- No edge joins two vertices that the edges before it join. -/
def IsForest (E : List (α × α)) : Prop :=
  ∀ before a b after, E = before ++ (a, b) :: after → ¬Connected before a b

namespace Connected

variable {E F : List (α × α)} {x y z : α}

theorem refl (x : α) : Connected E x x := EqvGen.refl x

theorem symm (h : Connected E x y) : Connected E y x := EqvGen.symm _ _ h

theorem trans (h : Connected E x y) (h' : Connected E y z) : Connected E x z :=
  EqvGen.trans _ _ _ h h'

theorem of_mem (h : (x, y) ∈ E) : Connected E x y := EqvGen.rel _ _ h

theorem mono (hsub : E ⊆ F) (h : Connected E x y) : Connected F x y := by
  induction h with
  | rel a b hab => exact of_mem (hsub hab)
  | refl a => exact refl a
  | symm a b _ ih => exact ih.symm
  | trans a b c _ _ ih ih' => exact ih.trans ih'

/-- A set that no edge leaves is a union of components. -/
theorem mem_iff {S : Set α} (hS : ∀ a b, (a, b) ∈ E → (a ∈ S ↔ b ∈ S)) (h : Connected E x y) :
    x ∈ S ↔ y ∈ S := by
  induction h with
  | rel a b hab => exact hS a b hab
  | refl a => exact Iff.rfl
  | symm a b _ ih => exact ih.symm
  | trans a b c _ _ ih ih' => exact ih.trans ih'

/-- A vertex that is joined to another one is on an edge. -/
theorem exists_edge (h : Connected E x y) (hne : x ≠ y) : ∃ z, (x, z) ∈ E ∨ (z, x) ∈ E := by
  by_contra hnone
  have hS : ∀ a b, (a, b) ∈ E → (a ∈ ({x} : Set α) ↔ b ∈ ({x} : Set α)) := by
    intro a b hab
    have ha : a ≠ x := fun heq => hnone ⟨b, Or.inl (heq ▸ hab)⟩
    have hb : b ≠ x := fun heq => hnone ⟨a, Or.inr (heq ▸ hab)⟩
    simp [ha, hb]
  exact hne ((h.mem_iff hS).1 rfl).symm

end Connected

namespace IsForest

variable {E F : List (α × α)} {a b : α}

theorem nil : IsForest ([] : List (α × α)) := by
  intro before a b after heq
  simp at heq

/-- The last edge joins two components. -/
theorem append (h : IsForest E) (hab : ¬Connected E a b) : IsForest (E ++ [(a, b)]) := by
  intro before c d after heq
  rcases List.eq_nil_or_concat after with rfl | ⟨after, e, rfl⟩
  · obtain ⟨rfl, hlast⟩ := List.append_inj' heq rfl
    obtain ⟨rfl, rfl⟩ : a = c ∧ b = d := by simpa using hlast
    exact hab
  · rw [List.concat_eq_append, ← List.cons_append, ← List.append_assoc] at heq
    exact h before c d after (List.append_inj' heq rfl).1

end IsForest

/-- The labels are equal on a component and differ between components. -/
def Labels (E : List (α × α)) (label : α → β) : Prop :=
  ∀ x y, label x = label y ↔ Connected E x y

theorem labels_nil : Labels ([] : List (α × α)) (id : α → α) := by
  intro x y
  constructor
  · intro heq
    rw [id, id] at heq
    rw [heq]
    exact Connected.refl y
  · intro h
    have hS : ∀ a b, (a, b) ∈ ([] : List (α × α)) → (a ∈ ({x} : Set α) ↔ b ∈ ({x} : Set α)) := by
      simp
    exact ((h.mem_iff hS).1 rfl).symm

/-- A new edge gives one component the label of the other. -/
theorem Labels.append [DecidableEq β] {E : List (α × α)} {label : α → β} (h : Labels E label)
    (a b : α) :
    Labels (E ++ [(a, b)]) fun x => if label x = label b then label a else label x := by
  have hsub : E ⊆ E ++ [(a, b)] := List.subset_append_left _ _
  have hedge : Connected (E ++ [(a, b)]) a b := Connected.of_mem (by simp)
  have hto : ∀ {x y}, label x = label y → Connected (E ++ [(a, b)]) x y :=
    fun heq => ((h _ _).1 heq).mono hsub
  intro x y
  dsimp only
  constructor
  · intro heq
    split_ifs at heq with hx hy hy
    · exact hto (hx.trans hy.symm)
    · exact (hto hx).trans (hedge.symm.trans (hto heq))
    · exact (hto heq).trans (hedge.trans (hto hy).symm)
    · exact hto heq
  · intro hconnected
    induction hconnected with
    | rel u v huv =>
      rcases List.mem_append.1 huv with huv | huv
      · rw [(h u v).2 (Connected.of_mem huv)]
      · obtain ⟨rfl, rfl⟩ : u = a ∧ v = b := by simpa using huv
        simp
    | refl u => rfl
    | symm u v _ ih => exact ih.symm
    | trans u v w _ _ ih ih' => exact ih.trans ih'

end Courses.Lib
