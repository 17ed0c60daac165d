import Mathlib.Data.Finmap
import Mathlib.Data.List.Perm.Basic
import Mathlib.Tactic

/-!
# Association lists that represent finite maps

`Represents es m` says that the entries `es`, in any order and with no key twice,
are those of the finite map `m`. The lemmas follow one entry through an update of
the list. `FMapRel R` relates two finite maps key by key.
-/
namespace Courses.Lib

variable {K V : Type} [DecidableEq K]

/-- In a list without two elements of one key, the search for a key finds its element. -/
theorem find?_of_nodup {α : Type} {f : α → K} {l : List α} {a : α} (hnodup : (l.map f).Nodup)
    (hmem : a ∈ l) : (l.find? fun x => f x = f a) = some a := by
  induction l with
  | nil => cases hmem
  | cons x l ih =>
    rw [List.map_cons, List.nodup_cons] at hnodup
    rw [List.find?_cons]
    rcases List.mem_cons.1 hmem with rfl | hmem
    · simp
    · have hne : f x ≠ f a := fun heq => hnodup.1 (heq ▸ List.mem_map_of_mem hmem)
      rw [decide_eq_false hne]
      exact ih hnodup.2 hmem

/-- A finite map from `K` to `V`. -/
abbrev FMap (K V : Type) := Finmap fun _ : K => V

structure Represents (es : List (K × V)) (m : FMap K V) : Prop where
  nodup : (es.map Prod.fst).Nodup
  mem_iff : ∀ k v, (k, v) ∈ es ↔ m.lookup k = some v

variable {es es' l r : List (K × V)} {m : FMap K V} {k : K} {v v' : V}

theorem erase_eq_self (h : m.lookup k = none) : m.erase k = m := by
  apply Finmap.ext_lookup
  intro k'
  by_cases hk : k' = k
  · rw [hk, Finmap.lookup_erase, h]
  · exact Finmap.lookup_erase_ne hk

theorem keys_insert (m : FMap K V) (k : K) (v : V) : (m.insert k v).keys = insert k m.keys := by
  ext k'
  rw [Finmap.mem_keys, Finmap.mem_insert, Finset.mem_insert, Finmap.mem_keys]

theorem card_keys_insert (h : m.lookup k = none) :
    (m.insert k v).keys.card = m.keys.card + 1 := by
  rw [keys_insert, Finset.card_insert_of_notMem]
  rwa [Finmap.mem_keys, ← Finmap.lookup_eq_none]

theorem represents_nil : Represents ([] : List (K × V)) ∅ := by
  refine ⟨List.nodup_nil, fun k v => ?_⟩
  simp

namespace Represents

theorem perm (h : Represents es m) (hp : es.Perm es') : Represents es' m := by
  refine ⟨((hp.map Prod.fst).nodup_iff).mp h.nodup, fun k v => ?_⟩
  rw [← h.mem_iff, hp.mem_iff]

theorem unique {m' : FMap K V} (h : Represents es m) (h' : Represents es m') : m = m' := by
  apply Finmap.ext_lookup
  intro k
  ext v
  rw [← h.mem_iff, ← h'.mem_iff]

theorem mem_keys (h : Represents es m) : k ∈ es.map Prod.fst ↔ k ∈ m := by
  rw [Finmap.mem_iff, List.mem_map]
  constructor
  · rintro ⟨⟨k', v⟩, hmem, rfl⟩
    exact ⟨v, (h.mem_iff _ _).mp hmem⟩
  · rintro ⟨v, hv⟩
    exact ⟨(k, v), (h.mem_iff _ _).mpr hv, rfl⟩

theorem lookup_eq_none (h : Represents es m) (hk : k ∉ es.map Prod.fst) : m.lookup k = none :=
  Finmap.lookup_eq_none.mpr (mt h.mem_keys.mpr hk)

/-- The list has one entry for each key of the map. -/
theorem length_eq (h : Represents es m) : es.length = m.keys.card := by
  have hkeys : m.keys = (es.map Prod.fst).toFinset := by
    ext k
    rw [Finmap.mem_keys, List.mem_toFinset, h.mem_keys]
  rw [hkeys, List.toFinset_card_of_nodup h.nodup, List.length_map]

theorem not_mem_sides (h : Represents (l ++ (k, v) :: r) m) : k ∉ (l ++ r).map Prod.fst := by
  have hperm : (l ++ (k, v) :: r).Perm ((k, v) :: (l ++ r)) := List.perm_middle
  have := (h.perm hperm).nodup
  rw [List.map_cons, List.nodup_cons] at this
  exact this.1

/-- A key that was not there. -/
theorem insert (h : Represents (l ++ r) m) (hk : k ∉ (l ++ r).map Prod.fst) (v : V) :
    Represents (l ++ (k, v) :: r) (m.insert k v) := by
  suffices hcons : Represents ((k, v) :: (l ++ r)) (m.insert k v) from
    hcons.perm List.perm_middle.symm
  refine ⟨List.nodup_cons.mpr ⟨hk, h.nodup⟩, fun k' w => ?_⟩
  rw [List.mem_cons, Prod.mk.injEq]
  by_cases hkk : k' = k
  · subst hkk
    rw [Finmap.lookup_insert, Option.some.injEq]
    have hno : (k', w) ∉ l ++ r := fun hm => hk (List.mem_map_of_mem hm)
    tauto
  · rw [Finmap.lookup_insert_of_ne _ hkk, ← h.mem_iff]
    tauto

/-- A key that was there, with the entry itself changed. -/
theorem replace (h : Represents (l ++ (k, v) :: r) m) (v' : V) :
    Represents (l ++ (k, v') :: r) (m.insert k v') := by
  have hk := h.not_mem_sides
  have hnodup := h.nodup
  rw [List.map_append, List.map_cons] at hnodup
  refine ⟨by rwa [List.map_append, List.map_cons], fun k' w => ?_⟩
  by_cases hkk : k' = k
  · subst hkk
    rw [Finmap.lookup_insert, Option.some.injEq, List.mem_append, List.mem_cons, Prod.mk.injEq]
    have hl : (k', w) ∉ l := fun hm => hk (List.mem_map_of_mem (List.mem_append_left _ hm))
    have hr : (k', w) ∉ r := fun hm => hk (List.mem_map_of_mem (List.mem_append_right _ hm))
    tauto
  · rw [Finmap.lookup_insert_of_ne _ hkk, ← h.mem_iff]
    simp [hkk]

/-- An entry taken out. -/
theorem erase (h : Represents (l ++ (k, v) :: r) m) : Represents (l ++ r) (m.erase k) := by
  have hk := h.not_mem_sides
  have hsub : ((l ++ r).map Prod.fst).Sublist ((l ++ (k, v) :: r).map Prod.fst) := by
    apply List.Sublist.map
    apply List.Sublist.append_left
    apply List.sublist_cons_self
  refine ⟨h.nodup.sublist hsub, fun k' w => ?_⟩
  by_cases hkk : k' = k
  · subst hkk
    rw [Finmap.lookup_erase]
    have hno : (k', w) ∉ l ++ r := fun hm => hk (List.mem_map_of_mem hm)
    simp [hno]
  · rw [Finmap.lookup_erase_ne hkk, ← h.mem_iff]
    simp [hkk]

end Represents

/-! ## Related maps -/

variable {A B : Type}

/-- The two maps have the same keys, and related values under each. -/
def FMapRel (R : A → B → Prop) (m : FMap K A) (m' : FMap K B) : Prop :=
  ∀ k, Option.Rel R (m.lookup k) (m'.lookup k)

theorem optionRel_imp {R R' : A → B → Prop} {x : Option A} {y : Option B} (h : Option.Rel R x y)
    (himp : ∀ a b, x = some a → R a b → R' a b) : Option.Rel R' x y := by
  cases h with
  | none => exact .none
  | some hab => exact .some (himp _ _ rfl hab)

namespace FMapRel

variable {R : A → B → Prop} {m : FMap K A} {m' : FMap K B} {k : K} {a : A} {b : B}

/-- A functional relation leaves no choice of the second map. -/
theorem unique {m₁ m₂ : FMap K B} (hR : ∀ a b b', R a b → R a b' → b = b') (h₁ : FMapRel R m m₁)
    (h₂ : FMapRel R m m₂) : m₁ = m₂ := by
  apply Finmap.ext_lookup
  intro k
  have hk₁ := h₁ k
  have hk₂ := h₂ k
  revert hk₁ hk₂
  generalize m.lookup k = x, m₁.lookup k = y, m₂.lookup k = z
  intro hy hz
  cases hy with
  | none =>
    cases hz
    rfl
  | some hab =>
    cases hz with
    | some hab' => rw [hR _ _ _ hab hab']

theorem empty : FMapRel (K := K) R ∅ ∅ := by
  intro k
  rw [Finmap.lookup_empty, Finmap.lookup_empty]
  exact .none

theorem insert (h : FMapRel R m m') (k : K) (hab : R a b) :
    FMapRel R (m.insert k a) (m'.insert k b) := by
  intro k'
  by_cases hk : k' = k
  · rw [hk, Finmap.lookup_insert, Finmap.lookup_insert]
    exact .some hab
  · rw [Finmap.lookup_insert_of_ne _ hk, Finmap.lookup_insert_of_ne _ hk]
    exact h k'

theorem of_some (h : FMapRel R m m') (hk : m'.lookup k = some b) : ∃ a, m.lookup k = some a ∧ R a b := by
  have hrel := h k
  rw [hk] at hrel
  cases hrel' : m.lookup k with
  | none =>
    rw [hrel'] at hrel
    cases hrel
  | some a =>
    rw [hrel'] at hrel
    cases hrel with
    | some hab => exact ⟨a, rfl, hab⟩

theorem of_left (h : FMapRel R m m') (hk : m.lookup k = some a) : ∃ b, m'.lookup k = some b ∧ R a b := by
  have hrel := h k
  rw [hk] at hrel
  cases hrel' : m'.lookup k with
  | none =>
    rw [hrel'] at hrel
    cases hrel
  | some b =>
    rw [hrel'] at hrel
    cases hrel with
    | some hab => exact ⟨b, rfl, hab⟩

theorem of_none (h : FMapRel R m m') (hk : m'.lookup k = none) : m.lookup k = none := by
  have hrel := h k
  rw [hk] at hrel
  cases hrel' : m.lookup k with
  | none => rfl
  | some a =>
    rw [hrel'] at hrel
    cases hrel

theorem keys_eq (h : FMapRel R m m') : m.keys = m'.keys := by
  ext k
  rw [Finmap.mem_keys, Finmap.mem_keys, Finmap.mem_iff, Finmap.mem_iff]
  cases hrel : m'.lookup k with
  | none => simp [h.of_none hrel]
  | some b =>
    obtain ⟨a, ha, -⟩ := h.of_some hrel
    simp [ha]

theorem card_keys (h : FMapRel R m m') : m.keys.card = m'.keys.card := by
  rw [h.keys_eq]

end FMapRel
end Courses.Lib
