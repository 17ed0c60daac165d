import Mathlib.Algebra.BigOperators.Group.Multiset.Basic
import Mathlib.Algebra.BigOperators.Intervals
import Mathlib.Tactic

/-!
# Maximal runs

The maximal intervals of indices on which a property holds. Two that start at the same
place are the same, none starts inside another, and every index with the property lies in
one if only finitely many have it.
-/
namespace Courses.Lib

/-- The property holds from `start` on for `length` indices, and neither before nor after them. -/
structure MaximalRun (p : ℕ → Prop) (start length : ℕ) : Prop where
  pos : 0 < length
  inside : ∀ j, start ≤ j → j < start + length → p j
  before : start = 0 ∨ ¬ p (start - 1)
  after : ¬ p (start + length)

namespace MaximalRun

variable {p q : ℕ → Prop} {start length : ℕ}

theorem length_le (h : MaximalRun p start length) {n : ℕ} (hn : ¬ p (start + n)) : length ≤ n := by
  by_contra hlt
  exact hn (h.inside _ (Nat.le_add_right _ _) (by omega))

theorem length_unique {n : ℕ} (h : MaximalRun p start length) (h' : MaximalRun p start n) :
    length = n :=
  le_antisymm (h.length_le h'.after) (h'.length_le h.after)

/-- What lies before a run inside an interval with the property is before the interval. -/
theorem le_of_before (h : MaximalRun p start length) {lo hi : ℕ}
    (hinside : ∀ j, lo ≤ j → j < hi → p j) (hlo : lo ≤ start) : start = lo ∨ hi < start := by
  by_contra hnot
  rcases h.before with hzero | hbefore
  · omega
  · exact hbefore (hinside _ (by omega) (by omega))

theorem congr (h : MaximalRun p start length) (hpq : ∀ j, j ≤ start + length → (p j ↔ q j)) :
    MaximalRun q start length where
  pos := h.pos
  inside j hj hlt := (hpq j hlt.le).1 (h.inside j hj hlt)
  before := h.before.imp_right fun hbefore hq => hbefore ((hpq _ (by omega)).2 hq)
  after hq := h.after ((hpq _ le_rfl).2 hq)

end MaximalRun

/-- The first index of the run that an index lies in. -/
theorem exists_run_start {p : ℕ → Prop} {j : ℕ} (hj : p j) :
    ∃ start ≤ j, (∀ i, start ≤ i → i ≤ j → p i) ∧ (start = 0 ∨ ¬ p (start - 1)) := by
  induction j with
  | zero => exact ⟨0, le_rfl, fun i _ hi => by rwa [Nat.le_zero.1 hi], .inl rfl⟩
  | succ j ih =>
    by_cases hp : p j
    · obtain ⟨start, hle, hinside, hbefore⟩ := ih hp
      refine ⟨start, hle.trans (Nat.le_succ j), fun i hi hij => ?_, hbefore⟩
      rcases Nat.le_succ_iff.1 hij with hij | rfl
      · exact hinside i hi hij
      · exact hj
    · exact ⟨j + 1, le_rfl, fun i hi hij => by rwa [le_antisymm hij hi], .inr hp⟩

theorem exists_maximalRun {p : ℕ → Prop} {j bound : ℕ} (hj : p j) (hbound : ∀ i, bound ≤ i → ¬ p i) :
    ∃ start length, MaximalRun p start length ∧ start ≤ j ∧ j < start + length := by
  classical
  obtain ⟨start, hle, hinside, hbefore⟩ := exists_run_start hj
  have hstop : ∃ n, ¬ p (j + n) := ⟨bound, hbound _ (Nat.le_add_left _ _)⟩
  have hpos : 0 < Nat.find hstop := by
    rw [Nat.find_pos]
    exact fun h => h hj
  refine ⟨start, j - start + Nat.find hstop, ⟨by omega, ?_, hbefore, ?_⟩, hle, by omega⟩
  · intro i hi hlt
    by_cases hij : i ≤ j
    · exact hinside i hi hij
    · have hmin := Nat.find_min hstop (m := i - j) (by omega)
      rw [not_not, Nat.add_sub_cancel' (by omega)] at hmin
      exact hmin
  · have hspec := Nat.find_spec hstop
    rwa [← Nat.add_assoc, Nat.add_sub_cancel' hle]

end Courses.Lib

/-!
# Ranges that fill an interval

A range is an offset and a length. How many of a collection of ranges an index lies in is
additive, so the order in which ranges are collected does not matter: ranges tile an interval
if each index of it lies in exactly one of them and no other index in any.
-/
namespace Courses.Lib

/-- An offset and a length. -/
abbrev Range := ℕ × ℕ

/-- The index lies in the range. -/
def Range.Has (r : Range) (x : ℕ) : Prop := r.1 ≤ x ∧ x < r.1 + r.2

instance (r : Range) (x : ℕ) : Decidable (r.Has x) := inferInstanceAs (Decidable (_ ∧ _))

/-- In how many of the ranges the index lies. -/
def covers (rs : Multiset Range) (x : ℕ) : ℕ := (rs.map fun r => if r.Has x then 1 else 0).sum

/-- The lengths of the ranges together. -/
def total (rs : Multiset Range) : ℕ := (rs.map Prod.snd).sum

/-- Each index of the interval lies in one range at least, and no other index in any. -/
def Fills (rs : Multiset Range) (lo hi : ℕ) : Prop := ∀ x, 0 < covers rs x ↔ lo ≤ x ∧ x < hi

/-- Each index of the interval lies in exactly one range, and no other index in any. -/
def Tiles (rs : Multiset Range) (lo hi : ℕ) : Prop :=
  ∀ x, covers rs x = if lo ≤ x ∧ x < hi then 1 else 0

/-- Where the last of the ranges ends that have an index at all. -/
def reach (rs : Multiset Range) : ℕ := (rs.map fun r => if r.2 = 0 then 0 else r.1 + r.2).sup

variable {rs ss : Multiset Range} {lo mid hi x : ℕ}

@[simp] theorem covers_zero (x : ℕ) : covers 0 x = 0 := rfl

@[simp] theorem covers_add (rs ss : Multiset Range) (x : ℕ) :
    covers (rs + ss) x = covers rs x + covers ss x := by simp [covers]

@[simp] theorem covers_singleton (r : Range) (x : ℕ) :
    covers {r} x = if r.Has x then 1 else 0 := by simp [covers]

@[simp] theorem total_zero : total 0 = 0 := rfl

@[simp] theorem total_add (rs ss : Multiset Range) : total (rs + ss) = total rs + total ss := by
  simp [total]

@[simp] theorem total_singleton (r : Range) : total {r} = r.2 := by simp [total]

@[simp] theorem reach_zero : reach 0 = 0 := rfl

@[simp] theorem reach_add (rs ss : Multiset Range) : reach (rs + ss) = max (reach rs) (reach ss) := by
  simp [reach]

@[simp] theorem reach_singleton (r : Range) : reach {r} = if r.2 = 0 then 0 else r.1 + r.2 := by
  simp [reach]

theorem covers_pos : 0 < covers rs x ↔ ∃ r ∈ rs, r.Has x := by
  induction rs using Multiset.induction with
  | empty => simp
  | cons r rs ih =>
    rw [← Multiset.singleton_add, covers_add, covers_singleton]
    by_cases hr : r.Has x
    · simp [hr]
    · simp [hr, ih]

theorem reach_le_iff : reach rs ≤ x ↔ ∀ y, 0 < covers rs y → y < x := by
  rw [reach, Multiset.sup_le]
  constructor
  · intro h y hy
    obtain ⟨r, hr, hle, hlt⟩ := covers_pos.1 hy
    have hr' := h _ (Multiset.mem_map_of_mem _ hr)
    rw [if_neg (by omega)] at hr'
    omega
  · intro h n hn
    obtain ⟨r, hr, rfl⟩ := Multiset.mem_map.1 hn
    split_ifs with hzero
    · exact Nat.zero_le x
    · have := h (r.1 + r.2 - 1) (covers_pos.2 ⟨r, hr, by omega, by omega⟩)
      omega

theorem Fills.reach_eq (h : Fills rs lo hi) (hlt : lo < hi) : reach rs = hi := by
  apply le_antisymm
  · exact reach_le_iff.2 fun y hy => ((h y).1 hy).2
  · have hlast := reach_le_iff.1 le_rfl (hi - 1) ((h _).2 (by omega))
    omega

theorem Tiles.fills (h : Tiles rs lo hi) : Fills rs lo hi := by
  intro x
  rw [h x]
  split_ifs with hx
  · exact iff_of_true Nat.one_pos hx
  · exact iff_of_false (Nat.lt_irrefl 0) hx

theorem tiles_zero (lo : ℕ) : Tiles 0 lo lo := by
  intro x
  rw [covers_zero, if_neg (by omega)]

theorem tiles_singleton (lo n : ℕ) : Tiles {(lo, n)} lo (lo + n) := by
  intro x
  rw [covers_singleton]
  rfl

/-- Adjacent intervals. -/
theorem Tiles.add (h : Tiles rs lo mid) (h' : Tiles ss mid hi) (hle : lo ≤ mid) (hle' : mid ≤ hi) :
    Tiles (rs + ss) lo hi := by
  intro x
  rw [covers_add, h x, h' x]
  split_ifs <;> omega

/-- No two of the ranges that tile an interval have an index in common. -/
theorem Tiles.pairwise {rs : List Range} (h : Tiles rs lo hi) :
    rs.Pairwise fun r s => ∀ x, ¬ (r.Has x ∧ s.Has x) := by
  have hone (x : ℕ) : covers rs x ≤ 1 := by
    rw [h x]
    split_ifs <;> omega
  clear h
  induction rs with
  | nil => exact .nil
  | cons r rs ih =>
    have hsplit (x : ℕ) : covers (r :: rs : List Range) x = (if r.Has x then 1 else 0) + covers rs x := by
      rw [← Multiset.cons_coe, ← Multiset.singleton_add, covers_add, covers_singleton]
    refine .cons (fun s hs x hx => ?_) (ih fun x => ?_)
    · have hpos : 0 < covers rs x := covers_pos.2 ⟨s, hs, hx.2⟩
      have := hone x
      rw [hsplit, if_pos hx.1] at this
      omega
    · have := hone x
      rw [hsplit] at this
      omega

/-- The lengths add up to what the ranges cover, up to a bound behind all of them. -/
theorem exists_sum_covers (rs : Multiset Range) :
    ∃ bound, ∀ n, bound ≤ n → ∑ x ∈ Finset.range n, covers rs x = total rs := by
  induction rs using Multiset.induction with
  | empty => exact ⟨0, fun n _ => by simp⟩
  | cons r rs ih =>
    obtain ⟨bound, hbound⟩ := ih
    refine ⟨max bound (r.1 + r.2), fun n hn => ?_⟩
    have hone : ∑ x ∈ Finset.range n, (if r.Has x then 1 else 0) = r.2 := by
      rw [← Finset.card_filter]
      have hfilter : (Finset.range n).filter r.Has = Finset.Ico r.1 (r.1 + r.2) := by
        ext x
        simp only [Finset.mem_filter, Finset.mem_range, Finset.mem_Ico, Range.Has]
        omega
      rw [hfilter, Nat.card_Ico, Nat.add_sub_cancel_left]
    simp only [← Multiset.singleton_add, covers_add, covers_singleton, total_add, total_singleton]
    rw [Finset.sum_add_distrib, hone, hbound n (by omega)]

theorem total_eq_of_covers_eq (h : ∀ x, covers rs x = covers ss x) : total rs = total ss := by
  obtain ⟨a, ha⟩ := exists_sum_covers rs
  obtain ⟨b, hb⟩ := exists_sum_covers ss
  rw [← ha (max a b) (le_max_left a b), ← hb (max a b) (le_max_right a b)]
  exact Finset.sum_congr rfl fun x _ => h x

/-- Ranges that tile an interval are together as long as it. -/
theorem Tiles.total_eq (h : Tiles rs lo hi) (hle : lo ≤ hi) : total rs = hi - lo := by
  have hsame : total rs = total {(lo, hi - lo)} := by
    apply total_eq_of_covers_eq
    intro x
    rw [h x, tiles_singleton lo (hi - lo) x, Nat.add_sub_cancel' hle]
  rw [hsame, total_singleton]

end Courses.Lib
