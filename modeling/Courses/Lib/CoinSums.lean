import Mathlib.Algebra.Order.BigOperators.Group.Multiset
import Mathlib.Data.Set.Card
import Mathlib.Tactic

/-!
# Ways to make change

The multisets of coins that have a given sum, counted by how many copies of one coin they have.
-/
namespace Courses.Lib

variable {coins : Set ℕ} {c cnt total : ℕ} {m : Multiset ℕ}

/-- The multisets of coins with the given sum. -/
def CoinSums (coins : Set ℕ) (total : ℕ) : Set (Multiset ℕ) :=
  {m | (∀ c ∈ m, c ∈ coins) ∧ m.sum = total}

/-- The coins are `coins` and `c`, and there are `cnt` copies of `c` or more. -/
def CoinSumsFrom (coins : Set ℕ) (c cnt total : ℕ) : Set (Multiset ℕ) :=
  {m ∈ CoinSums (insert c coins) total | cnt ≤ m.count c}

theorem coinSumsFrom_zero (coins : Set ℕ) (c total : ℕ) :
    CoinSumsFrom coins c 0 total = CoinSums (insert c coins) total := by
  simp [CoinSumsFrom]

theorem le_of_mem_coinSums (h : m ∈ CoinSums coins total) (hc : c ∈ m) : c ≤ total :=
  (Multiset.single_le_sum (fun _ _ => Nat.zero_le _) c hc).trans_eq h.2

theorem coinSums_congr {coins' : Set ℕ} (h : ∀ c ≤ total, c ∈ coins ↔ c ∈ coins') :
    CoinSums coins total = CoinSums coins' total := by
  ext m
  constructor
  · intro hm
    exact ⟨fun c hc => (h c (le_of_mem_coinSums hm hc)).1 (hm.1 c hc), hm.2⟩
  · intro hm
    exact ⟨fun c hc => (h c (le_of_mem_coinSums hm hc)).2 (hm.1 c hc), hm.2⟩

theorem coinSums_empty (htotal : total ≠ 0) : CoinSums ∅ total = ∅ := by
  refine Set.eq_empty_of_forall_notMem fun m hm => htotal ?_
  have hm0 : m = 0 := Multiset.eq_zero_of_forall_notMem hm.1
  rw [← hm.2, hm0, Multiset.sum_zero]

/-- No coin is worth nothing, so there is one way to make no change. -/
theorem coinSums_zero (hpos : ∀ c ∈ coins, 0 < c) : CoinSums coins 0 = {0} := by
  ext m
  constructor
  · intro hm
    refine Multiset.eq_zero_of_forall_notMem fun c hc => ?_
    have hle := le_of_mem_coinSums hm hc
    have hlt := hpos c (hm.1 c hc)
    omega
  · intro hm
    rw [Set.mem_singleton_iff.1 hm]
    exact ⟨fun c hc => absurd hc (Multiset.notMem_zero c), Multiset.sum_zero⟩

/-- The copies of one coin and the other coins. -/
theorem replicate_add_filter (m : Multiset ℕ) (c : ℕ) :
    Multiset.replicate (m.count c) c + m.filter (· ≠ c) = m := by
  rw [← Multiset.filter_eq', Multiset.filter_add_not]

theorem coinSumsFrom_of_lt (h : total < cnt * c) : CoinSumsFrom coins c cnt total = ∅ := by
  refine Set.eq_empty_of_forall_notMem fun m hm => ?_
  obtain ⟨⟨-, hsum⟩, hcnt⟩ := hm
  have hparts := congrArg Multiset.sum (replicate_add_filter m c)
  rw [Multiset.sum_add, Multiset.sum_replicate, smul_eq_mul, hsum] at hparts
  have hle := Nat.mul_le_mul_right c hcnt
  omega

/-- The multisets with exactly `cnt` copies of the coin `c`. -/
theorem coinSumsFrom_eq (hc : c ∉ coins) (h : cnt * c ≤ total) :
    CoinSumsFrom coins c cnt total =
      (Multiset.replicate cnt c + ·) '' CoinSums coins (total - cnt * c) ∪
        CoinSumsFrom coins c (cnt + 1) total := by
  ext m
  constructor
  · intro hm
    obtain ⟨⟨hcoins, hsum⟩, hcnt⟩ := hm
    have hparts := replicate_add_filter m c
    rcases Nat.eq_or_lt_of_le hcnt with heq | hlt
    · left
      refine ⟨m.filter (· ≠ c), ⟨?_, ?_⟩, heq ▸ hparts⟩
      · intro d hd
        have hd' := Multiset.mem_filter.1 hd
        exact (hcoins d hd'.1).resolve_left hd'.2
      · have hparts := congrArg Multiset.sum hparts
        rw [Multiset.sum_add, Multiset.sum_replicate, smul_eq_mul, hsum, ← heq] at hparts
        omega
    · right
      exact ⟨⟨hcoins, hsum⟩, hlt⟩
  · intro hm
    cases hm with
    | inl hm =>
      obtain ⟨rest, ⟨hcoins, hsum⟩, rfl⟩ := hm
      refine ⟨⟨?_, ?_⟩, ?_⟩
      · intro d hd
        cases Multiset.mem_add.1 hd with
        | inl hd => exact .inl (Multiset.eq_of_mem_replicate hd)
        | inr hd => exact .inr (hcoins d hd)
      · rw [Multiset.sum_add, Multiset.sum_replicate, smul_eq_mul, hsum]
        omega
      · rw [Multiset.count_add, Multiset.count_replicate_self]
        exact Nat.le_add_right _ _
    | inr hm => exact ⟨hm.1, (Nat.le_succ cnt).trans hm.2⟩

theorem encard_coinSumsFrom (hc : c ∉ coins) (h : cnt * c ≤ total) :
    (CoinSumsFrom coins c cnt total).encard =
      (CoinSums coins (total - cnt * c)).encard +
        (CoinSumsFrom coins c (cnt + 1) total).encard := by
  rw [coinSumsFrom_eq hc h, Set.encard_union_eq, (add_right_injective _).encard_image]
  rw [Set.disjoint_left]
  intro m hm hmore
  obtain ⟨rest, ⟨hcoins, -⟩, rfl⟩ := hm
  have hrest : rest.count c = 0 := Multiset.count_eq_zero.2 fun hmem => hc (hcoins c hmem)
  have hcnt := hmore.2
  simp only [Multiset.count_add, Multiset.count_replicate_self, hrest] at hcnt
  omega

end Courses.Lib
