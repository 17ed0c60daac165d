import Mathlib.Data.Multiset.Bind
import Mathlib.Tactic

/-!
# Cross products

A row chooses an element of each of some relations, which are lists; the rows over a list
of relations are their cross product. The rows over two lists of relations, one after the
other, are the pairs of rows over each, so a nested loop over two filtered products is a
filtered product again.
-/
namespace Courses.Lib

variable {ι T β : Type}

section

variable [DecidableEq ι] [Inhabited T]

/-- All rows over the relations of a list. -/
def rows (rel : ι → List T) : List ι → List (ι → T)
  | [] => [fun _ => default]
  | i :: is => (rel i).flatMap fun t => (rows rel is).map fun r => Function.update r i t

end

/-- The first row where it has a choice, the second elsewhere. -/
def mergeRows [DecidableEq ι] (is : List ι) (r r' : ι → T) : ι → T :=
  fun i => if i ∈ is then r i else r' i

/-- The value depends on the choices in the listed relations only. -/
def ReadsOnly (is : List ι) (f : (ι → T) → β) : Prop :=
  ∀ r r', (∀ i ∈ is, r i = r' i) → f r = f r'

namespace ReadsOnly

variable {is js : List ι} {f : (ι → T) → β}

theorem mono (h : ReadsOnly is f) (hsub : is ⊆ js) : ReadsOnly js f :=
  fun r r' heq => h r r' fun i hi => heq i (hsub hi)

theorem merge_left [DecidableEq ι] (h : ReadsOnly is f) (r r' : ι → T) :
    f (mergeRows is r r') = f r :=
  h _ _ fun _ hi => if_pos hi

theorem merge_right [DecidableEq ι] (h : ReadsOnly js f) (hdisjoint : is.Disjoint js)
    (r r' : ι → T) : f (mergeRows is r r') = f r' :=
  h _ _ fun _ hi => if_neg fun hmem => hdisjoint hmem hi

end ReadsOnly

variable [DecidableEq ι] [Inhabited T] {rel : ι → List T}

theorem mem_rows {is : List ι} {r : ι → T} (h : r ∈ rows rel is) {i : ι} (hi : i ∈ is) :
    r i ∈ rel i := by
  induction is generalizing r with
  | nil => cases hi
  | cons j is ih =>
    simp only [rows, List.mem_flatMap, List.mem_map] at h
    obtain ⟨t, ht, r', hr', rfl⟩ := h
    by_cases hij : i = j
    · subst hij
      simpa using ht
    · rw [Function.update_of_ne hij]
      exact ih hr' ((List.mem_cons.1 hi).resolve_left hij)

theorem rows_singleton (i : ι) :
    rows rel [i] = (rel i).map fun t => Function.update (fun _ => default) i t := by
  simp only [rows, List.map_cons, List.map_nil]
  exact List.map_eq_flatMap.symm

theorem rows_append (is js : List ι) :
    rows rel (is ++ js) =
      (rows rel is).flatMap fun r => (rows rel js).map fun r' => mergeRows is r r' := by
  induction is with
  | nil =>
    have hmerge : (fun r' : ι → T => mergeRows [] (fun _ => default) r') = id := by
      funext r' i
      simp [mergeRows]
    simp [rows, hmerge]
  | cons i is ih =>
    have hupdate : ∀ (t : T) (r r' : ι → T), Function.update (mergeRows is r r') i t =
        mergeRows (i :: is) (Function.update r i t) r' := by
      intro t r r'
      funext j
      by_cases hj : j = i
      · subst hj
        simp [mergeRows]
      · simp [mergeRows, hj]
    simp only [List.cons_append, rows, ih, List.map_flatMap, List.flatMap_assoc, List.map_map,
      List.flatMap_map, Function.comp_def, hupdate]

/-- The order of the relations does not matter. -/
theorem rows_perm {is js : List ι} (h : is.Perm js) (hnodup : is.Nodup) :
    (rows rel is).Perm (rows rel js) := by
  induction h with
  | nil => exact List.Perm.refl _
  | @cons i is js h ih =>
    have ih := ih (List.nodup_cons.1 hnodup).2
    exact List.Perm.flatMap_left _ fun t _ => ih.map _
  | swap i j is =>
    have hne : j ≠ i := by
      intro heq
      simp [heq] at hnodup
    have hcomm : ∀ (t u : T) (r : ι → T), Function.update (Function.update r i u) j t =
        Function.update (Function.update r j t) i u := fun t u r => Function.update_comm hne.symm ..
    rw [← Multiset.coe_eq_coe]
    simp only [rows, List.map_flatMap, List.map_map, Function.comp_def, ← Multiset.coe_bind,
      ← Multiset.map_coe]
    rw [Multiset.bind_bind]
    simp only [hcomm]
  | trans h _ ih ih' => exact (ih hnodup).trans (ih' (h.nodup_iff.1 hnodup))

/-- A nested loop over two filtered products. -/
theorem nestedRows {is js : List ι} {p q : (ι → T) → Bool} (hp : ReadsOnly is p)
    (hq : ReadsOnly js q) (hdisjoint : is.Disjoint js) (s : (ι → T) → Bool) (f : (ι → T) → β) :
    ((rows rel (is ++ js)).filter fun r => p r && (q r && s r)).map f =
      ((rows rel is).filter p).flatMap fun r =>
        (((rows rel js).filter q).filter fun r' => s (mergeRows is r r')).map fun r' =>
          f (mergeRows is r r') := by
  rw [rows_append, List.filter_flatMap, List.map_flatMap]
  generalize rows rel is = left
  induction left with
  | nil => rfl
  | cons r left ih =>
    rw [List.flatMap_cons, ih, List.filter_cons]
    simp only [List.filter_map, List.map_map, List.filter_filter, Function.comp_def,
      hp.merge_left, hq.merge_right hdisjoint]
    cases p r with
    | true => simp [Bool.and_comm]
    | false => simp

end Courses.Lib
