import Mathlib.Data.Finset.Card
import Mathlib.Tactic

/-!
# Enumerating subsets

`JoinOptimizer.enumerateSubsets`, on sets that are equal when they have the same elements. What
order an iterator goes through a set in is not known, and it may differ from level to level.
-/
namespace Courses.SimpleDb

/-- What the iterators of the sets return, each element once. -/
structure Iteration (α : Type) where
  elements : Finset α → List α
  nodup : ∀ s, (elements s).Nodup
  mem_elements : ∀ s a, a ∈ elements s ↔ a ∈ s

section EnumerateSubsets

variable {T : Type} [DecidableEq T]

/-- A copy of the set `s` with `t` goes to the next level, if `t` was not in it. -/
def addCopy (s : Finset T) (newels : Finset (Finset T)) (t : T) : Finset (Finset T) :=
  if t ∉ s then insert (insert t s) newels else newels

/-- A pass of the loop over the sizes, where `els` are the sets of the level. -/
def nextLevel (v : List T) (els : List (Finset T)) : Finset (Finset T) :=
  els.foldl (fun newels s => v.foldl (addCopy s) newels) ∅

def enumerateSubsets (iteration : ℕ → Iteration (Finset T)) (v : List T) (size : ℕ) :
    Finset (Finset T) :=
  (List.range size).foldl (fun els i => nextLevel v ((iteration i).elements els)) {∅}

variable {v : List T} {s u : Finset T}

theorem mem_foldl_addCopy (newels : Finset (Finset T)) :
    u ∈ v.foldl (addCopy s) newels ↔ u ∈ newels ∨ ∃ t ∈ v, t ∉ s ∧ u = insert t s := by
  induction v generalizing newels with
  | nil => simp
  | cons t v ih =>
    have hadd : u ∈ addCopy s newels t ↔ u ∈ newels ∨ t ∉ s ∧ u = insert t s := by
      unfold addCopy
      split
      · rename_i ht
        simp [ht, or_comm]
      · rename_i ht
        simp [ht]
    rw [List.foldl_cons, ih, hadd, or_assoc]
    simp

theorem mem_foldl_level (els : List (Finset T)) (newels : Finset (Finset T)) :
    u ∈ els.foldl (fun newels s => v.foldl (addCopy s) newels) newels ↔
      u ∈ newels ∨ ∃ s ∈ els, ∃ t ∈ v, t ∉ s ∧ u = insert t s := by
  induction els generalizing newels with
  | nil => simp
  | cons s els ih =>
    rw [List.foldl_cons, ih, mem_foldl_addCopy, or_assoc]
    simp

/-- The sets of the next level: each set of the level with an element of the vector more. -/
theorem mem_nextLevel (els : List (Finset T)) :
    u ∈ nextLevel v els ↔ ∃ s ∈ els, ∃ t ∈ v, t ∉ s ∧ u = insert t s := by
  unfold nextLevel
  rw [mem_foldl_level]
  simp

/-- The level of size `i`: the subsets of the vector that have `i` elements. -/
def IsLevel (v : List T) (i : ℕ) (els : Finset (Finset T)) : Prop :=
  ∀ u, u ∈ els ↔ (∀ t ∈ u, t ∈ v) ∧ u.card = i

theorem isLevel_zero (v : List T) : IsLevel v 0 {∅} := by
  intro u
  constructor
  · intro hu
    rw [Finset.mem_singleton.1 hu]
    simp
  · intro hu
    rw [Finset.card_eq_zero.1 hu.2]
    exact Finset.mem_singleton_self ∅

theorem IsLevel.next {i : ℕ} {els : Finset (Finset T)} (h : IsLevel v i els)
    (iteration : Iteration (Finset T)) :
    IsLevel v (i + 1) (nextLevel v (iteration.elements els)) := by
  intro u
  rw [mem_nextLevel]
  constructor
  · intro hu
    obtain ⟨s, hs, t, ht, hnew, rfl⟩ := hu
    obtain ⟨hsub, hcard⟩ := (h s).1 ((iteration.mem_elements els s).1 hs)
    constructor
    · intro x hx
      cases Finset.mem_insert.1 hx with
      | inl hx => exact hx ▸ ht
      | inr hx => exact hsub x hx
    · rw [Finset.card_insert_of_notMem hnew, hcard]
  · intro hu
    obtain ⟨hsub, hcard⟩ := hu
    -- the set without any one of its elements is on the level before
    obtain ⟨t, ht⟩ : u.Nonempty := Finset.card_pos.1 (by omega)
    refine ⟨u.erase t, ?_, t, hsub t ht, Finset.notMem_erase t u, (Finset.insert_erase ht).symm⟩
    refine (iteration.mem_elements els _).2 ((h _).2 ⟨?_, ?_⟩)
    · intro x hx
      exact hsub x (Finset.mem_of_mem_erase hx)
    · rw [Finset.card_erase_of_mem ht, hcard, Nat.add_sub_cancel]

theorem isLevel_enumerateSubsets (iteration : ℕ → Iteration (Finset T)) (v : List T) (size : ℕ) :
    IsLevel v size (enumerateSubsets iteration v size) := by
  induction size with
  | zero => exact isLevel_zero v
  | succ size ih =>
    unfold enumerateSubsets
    rw [List.range_succ, List.foldl_append]
    exact ih.next (iteration size)

/-- All subsets of the given size and nothing else: none if the vector is shorter. -/
theorem enumerateSubsets_eq {T : Type} [DecidableEq T] (iteration : ℕ → Iteration (Finset T))
    (v : List T) (size : ℕ) :
    (∀ s, s ∈ enumerateSubsets iteration v size ↔ (∀ t ∈ s, t ∈ v) ∧ s.card = size) ∧
      (v.length < size → enumerateSubsets iteration v size = ∅) := by
  have hlevel := isLevel_enumerateSubsets iteration v size
  refine ⟨hlevel, fun hlt => Finset.eq_empty_of_forall_notMem fun s hs => ?_⟩
  obtain ⟨hsub, hcard⟩ := (hlevel s).1 hs
  have hle : s.card ≤ v.toFinset.card :=
    Finset.card_le_card fun t ht => List.mem_toFinset.2 (hsub t ht)
  have hlength := v.toFinset_card_le
  omega

end EnumerateSubsets

end Courses.SimpleDb
