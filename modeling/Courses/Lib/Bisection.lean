import Mathlib.Logic.Relation
import Mathlib.Order.Bounds.Basic
import Mathlib.Tactic

/-!
# Bisection of a sparse table

Only some indices of a table hold an entry, and the values of the entries do not decrease. A step
of a bisection looks at the last entry up to the middle of the interval, and goes on with the part
of the interval that may have the value that is looked for.
-/
namespace Courses.Lib

open Relation

section Bisection

variable {α : Type} [LinearOrder α] {Entry : ℤ → Prop} {value : ℤ → α} {a : α}
variable {l r l₀ r₀ t m m' r' : ℤ} {p q q' : ℤ × ℤ}

/-- The last entry from `l` to `t`. -/
structure LastEntry (Entry : ℤ → Prop) (l t m : ℤ) : Prop where
  lower : l ≤ m
  upper : m ≤ t
  entry : Entry m
  noneAfter : ∀ i, m < i → i ≤ t → ¬ Entry i

theorem LastEntry.unique (h : LastEntry Entry l t m) (h' : LastEntry Entry l t m') : m = m' := by
  apply le_antisymm
  · exact not_lt.1 fun hlt => h'.noneAfter m hlt h.upper h.entry
  · exact not_lt.1 fun hlt => h.noneAfter m' hlt h'.upper h'.entry

/-- One step, from an interval to a part of it. -/
inductive Bisect (Entry : ℤ → Prop) (value : ℤ → α) (a : α) : ℤ × ℤ → ℤ × ℤ → Prop
  | up {l r : ℤ} : l ≤ r → (∀ i, l ≤ i → i ≤ (l + r) / 2 → Entry i → value i < a) →
    Bisect Entry value a (l, r) ((l + r) / 2 + 1, r)
  | down {l r m : ℤ} : l ≤ r → LastEntry Entry l ((l + r) / 2) m → a < value m →
    Bisect Entry value a (l, r) (l, m - 1)

/-- The bisection comes to an entry `m` with the value, when the interval ends at `r`. -/
def Finds (Entry : ℤ → Prop) (value : ℤ → α) (a : α) (l₀ r₀ m r : ℤ) : Prop :=
  ∃ l, ReflTransGen (Bisect Entry value a) (l₀, r₀) (l, r) ∧ l ≤ r ∧
    LastEntry Entry l ((l + r) / 2) m ∧ value m = a

/-! ## There is one way to go -/

theorem bisect_rightUnique : Relator.RightUnique (Bisect Entry value a) := by
  intro p q q' h h'
  cases h with
  | up hle hless =>
    cases h' with
    | up => rfl
    | down _ hm hgt => exact absurd (hless _ hm.lower hm.upper hm.entry) hgt.not_gt
  | down hle hm hgt =>
    cases h' with
    | up _ hless => exact absurd (hless _ hm.lower hm.upper hm.entry) hgt.not_gt
    | down _ hm' _ => rw [hm.unique hm']

theorem eq_of_final (h : ReflTransGen (Bisect Entry value a) p q)
    (h' : ReflTransGen (Bisect Entry value a) p q') (hq : ∀ x, ¬ Bisect Entry value a q x)
    (hq' : ∀ x, ¬ Bisect Entry value a q' x) : q = q' := by
  obtain hto | hto := ReflTransGen.total_of_right_unique bisect_rightUnique h h'
  · obtain heq | ⟨x, hx, -⟩ := ReflTransGen.cases_head hto
    · exact heq
    · exact absurd hx (hq x)
  · obtain heq | ⟨x, hx, -⟩ := ReflTransGen.cases_head hto
    · exact heq.symm
    · exact absurd hx (hq' x)

theorem final_of_lt (h : r < l) (x : ℤ × ℤ) : ¬ Bisect Entry value a (l, r) x := by
  intro hx
  cases hx with
  | up hle => omega
  | down hle => omega

theorem final_of_found (h : LastEntry Entry l ((l + r) / 2) m) (ha : value m = a) (x : ℤ × ℤ) :
    ¬ Bisect Entry value a (l, r) x := by
  intro hx
  cases hx with
  | up _ hless => exact absurd ha (hless m h.lower h.upper h.entry).ne
  | down _ hm hgt => exact absurd ha (h.unique hm ▸ hgt.ne')

theorem Finds.unique (h : Finds Entry value a l₀ r₀ m r) (h' : Finds Entry value a l₀ r₀ m' r') :
    m = m' ∧ r = r' := by
  obtain ⟨l, hto, -, hm, ha⟩ := h
  obtain ⟨l', hto', -, hm', ha'⟩ := h'
  obtain ⟨rfl, rfl⟩ := Prod.mk.inj
    (eq_of_final hto hto' (final_of_found hm ha) (final_of_found hm' ha'))
  exact ⟨hm.unique hm', rfl⟩

/-- A bisection that comes to an empty interval finds nothing. -/
theorem not_finds_of_lt (h : ReflTransGen (Bisect Entry value a) (l₀, r₀) (l, r)) (hlt : r < l) :
    ¬ Finds Entry value a l₀ r₀ m r' := by
  rintro ⟨l', hto, hle, hm, ha⟩
  obtain ⟨rfl, rfl⟩ := Prod.mk.inj (eq_of_final h hto (final_of_lt hlt) (final_of_found hm ha))
  omega

/-! ## What has been left behind -/

/-- The entries before and behind the interval that is left have other values. -/
structure Narrowed (Entry : ℤ → Prop) (value : ℤ → α) (a : α) (p q : ℤ × ℤ) : Prop where
  lower : p.1 ≤ q.1
  upper : q.2 ≤ p.2
  nearly : p.1 ≤ p.2 + 1 → q.1 ≤ q.2 + 1
  below : ∀ i, p.1 ≤ i → i < q.1 → Entry i → value i < a
  above : ∀ i, q.2 < i → i ≤ p.2 → Entry i → a < value i
  stop : q.2 = p.2 ∨ p.1 ≤ q.2 + 1 ∧ Entry (q.2 + 1)

variable (hsorted : ∀ i j, Entry i → Entry j → i ≤ j → value i ≤ value j)

include hsorted

theorem narrowed (h : ReflTransGen (Bisect Entry value a) p q) : Narrowed Entry value a p q := by
  induction h with
  | refl => exact ⟨le_rfl, le_rfl, id, fun i hle hlt => by omega, fun i hlt hle => by omega,
      .inl rfl⟩
  | tail _ hstep ih =>
    cases hstep with
    | @up l r hle hless =>
      have hlower : p.1 ≤ l := ih.lower
      refine ⟨?_, ih.upper, ?_, ?_, ih.above, ih.stop⟩
      · show p.1 ≤ (l + r) / 2 + 1
        omega
      · intro _
        show (l + r) / 2 + 1 ≤ r + 1
        omega
      · intro i hi hlt
        have hlt : i < (l + r) / 2 + 1 := hlt
        by_cases hil : i < l
        · exact ih.below i hi hil
        · exact hless i (by omega) (by omega)
    | @down l r m hle hm hgt =>
      have hlower : p.1 ≤ l := ih.lower
      have hupper : r ≤ p.2 := ih.upper
      have hml := hm.lower
      have hmr := hm.upper
      refine ⟨ih.lower, ?_, ?_, ih.below, ?_, .inr ⟨?_, ?_⟩⟩
      · show m - 1 ≤ p.2
        omega
      · intro _
        show l ≤ m - 1 + 1
        omega
      · intro i hlt hi hentry
        have hlt : m - 1 < i := hlt
        exact hgt.trans_le (hsorted m i hm.entry hentry (by omega))
      · show p.1 ≤ m - 1 + 1
        omega
      · show Entry (m - 1 + 1)
        rw [sub_add_cancel]
        exact hm.entry

/-- If nothing is found there is no entry with the value. -/
theorem ne_of_exhausted (h : ReflTransGen (Bisect Entry value a) (l₀, r₀) (l, r)) (hlt : r < l)
    {i : ℤ} (hl : l₀ ≤ i) (hr : i ≤ r₀) (hentry : Entry i) : value i ≠ a := by
  have hnarrowed := narrowed hsorted h
  by_cases hi : i < l
  · exact (hnarrowed.below i hl hi hentry).ne
  · exact (hnarrowed.above i (by show r < i; omega) hr hentry).ne'

end Bisection

end Courses.Lib
