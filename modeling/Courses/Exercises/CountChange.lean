import Courses.Lib.CoinSums

/-!
# Counting change

`count_change` of homework 3. The coins are the powers of two.
-/
namespace Courses.Exercises.CountChange

open Courses.Lib

/-- The loop of `change_with_maxcoin`, with `change` for the calls with half the coin. -/
def changeLoop (change : ℕ → ℕ) (total maxcoin : ℕ) (hcoin : 0 < maxcoin)
    (cnt numChange : ℕ) : ℕ :=
  if cnt * maxcoin ≤ total then
    changeLoop change total maxcoin hcoin (cnt + 1) (numChange + change (total - cnt * maxcoin))
  else numChange
termination_by total + 1 - cnt * maxcoin
decreasing_by
  rw [Nat.succ_mul]
  omega

def changeWithMaxcoin (total maxcoin : ℕ) : ℕ :=
  if total = 0 then 1
  else if hcoin : maxcoin = 0 then 0
  else
    changeLoop (fun rest => changeWithMaxcoin rest (maxcoin / 2)) total maxcoin
      (Nat.pos_of_ne_zero hcoin) 0 0
termination_by maxcoin
decreasing_by exact Nat.div_lt_self (Nat.pos_of_ne_zero hcoin) Nat.one_lt_two

/-- The loop that doubles the largest coin. -/
def doubleLoop (amount maxcoin : ℕ) (hcoin : 0 < maxcoin) : ℕ :=
  if maxcoin < amount then doubleLoop amount (maxcoin * 2) (Nat.mul_pos hcoin Nat.two_pos)
  else maxcoin
termination_by amount - maxcoin

def largestCoin (amount : ℕ) : ℕ :=
  let maxcoin := doubleLoop amount 1 Nat.one_pos
  if maxcoin > amount then maxcoin / 2 else maxcoin

def countChange (amount : ℕ) : ℕ := changeWithMaxcoin amount (largestCoin amount)

/-- The powers of two up to a bound. -/
def coinsUpTo (bound : ℕ) : Set ℕ := {c | (∃ k, c = 2 ^ k) ∧ c ≤ bound}

variable {total maxcoin amount : ℕ}

theorem pos_of_mem_coinsUpTo {c bound : ℕ} (h : c ∈ coinsUpTo bound) : 0 < c := by
  obtain ⟨⟨k, rfl⟩, -⟩ := h
  exact Nat.two_pow_pos k

theorem coinsUpTo_zero : coinsUpTo 0 = ∅ := by
  refine Set.eq_empty_of_forall_notMem fun c hc => ?_
  have hpos := pos_of_mem_coinsUpTo hc
  have hle := hc.2
  omega

/-- Half a power of two is the next smaller one, or 0 below 1. -/
theorem coinsUpTo_pow (k : ℕ) : coinsUpTo (2 ^ k) = insert (2 ^ k) (coinsUpTo (2 ^ k / 2)) := by
  ext c
  constructor
  · intro hc
    obtain ⟨⟨i, rfl⟩, hle⟩ := hc
    rcases Nat.eq_or_lt_of_le ((Nat.pow_le_pow_iff_right Nat.one_lt_two).1 hle) with heq | hlt
    · left
      rw [heq]
    · right
      refine ⟨⟨i, rfl⟩, ?_⟩
      rw [Nat.le_div_iff_mul_le Nat.two_pos, ← Nat.pow_succ]
      exact Nat.pow_le_pow_right Nat.two_pos hlt
  · intro hc
    cases hc with
    | inl hc => exact ⟨⟨k, hc⟩, hc.le⟩
    | inr hc => exact ⟨hc.1, hc.2.trans (Nat.div_le_self _ 2)⟩

theorem notMem_coinsUpTo_half (hcoin : 0 < maxcoin) : maxcoin ∉ coinsUpTo (maxcoin / 2) :=
  fun h => absurd h.2 (not_le.2 (Nat.div_lt_self hcoin Nat.one_lt_two))

/-- The loop counts the multisets with `cnt` copies of the largest coin or more. -/
theorem changeLoop_eq {change : ℕ → ℕ} {coins : Set ℕ} (hcoin : 0 < maxcoin)
    (hnotMem : maxcoin ∉ coins)
    (hchange : ∀ rest, (CoinSums coins rest).encard = change rest) (cnt numChange : ℕ) :
    numChange + (CoinSumsFrom coins maxcoin cnt total).encard =
      changeLoop change total maxcoin hcoin cnt numChange := by
  induction cnt, numChange using changeLoop.induct change total maxcoin hcoin with
  | case1 cnt numChange hle ih =>
    rw [changeLoop, if_pos hle, ← ih, encard_coinSumsFrom hnotMem hle, hchange, Nat.cast_add,
      add_assoc]
  | case2 cnt numChange hlt =>
    rw [changeLoop, if_neg hlt, coinSumsFrom_of_lt (not_le.1 hlt), Set.encard_empty, add_zero]

/-- The values of the largest coin: a power of two, or 0 when there are no coins left. -/
def IsCoin (maxcoin : ℕ) : Prop := maxcoin = 0 ∨ ∃ k, maxcoin = 2 ^ k

theorem IsCoin.half (h : IsCoin maxcoin) : IsCoin (maxcoin / 2) := by
  obtain rfl | ⟨k, rfl⟩ := h
  · exact .inl rfl
  · cases k with
    | zero => exact .inl rfl
    | succ k => exact .inr ⟨k, Nat.mul_div_cancel _ Nat.two_pos⟩

theorem changeWithMaxcoin_eq (total maxcoin : ℕ) (hcoin : IsCoin maxcoin) :
    (CoinSums (coinsUpTo maxcoin) total).encard = changeWithMaxcoin total maxcoin := by
  induction total, maxcoin using changeWithMaxcoin.induct with
  | case1 maxcoin =>
    rw [changeWithMaxcoin, if_pos rfl, coinSums_zero fun c => pos_of_mem_coinsUpTo,
      Set.encard_singleton, Nat.cast_one]
  | case2 total htotal =>
    rw [changeWithMaxcoin, if_neg htotal, dif_pos rfl, coinsUpTo_zero, coinSums_empty htotal,
      Set.encard_empty, Nat.cast_zero]
  | case3 total maxcoin htotal hne ih =>
    have hpos := Nat.pos_of_ne_zero hne
    have hloop := @changeLoop_eq total _ _ _ hpos (notMem_coinsUpTo_half hpos)
      (fun rest => ih rest hcoin.half) 0 0
    obtain ⟨k, hk⟩ := hcoin.resolve_left hne
    rw [changeWithMaxcoin, if_neg htotal, dif_neg hne, ← hloop, coinSumsFrom_zero, hk,
      ← coinsUpTo_pow, Nat.cast_zero, zero_add]

/-! ## The largest coin -/

theorem doubleLoop_eq (hcoin : 0 < maxcoin) (hpow : ∃ k, maxcoin = 2 ^ k) :
    (∃ k, doubleLoop amount maxcoin hcoin = 2 ^ k) ∧
      amount ≤ doubleLoop amount maxcoin hcoin := by
  induction maxcoin, hcoin using doubleLoop.induct amount with
  | case1 maxcoin hcoin hlt ih =>
    rw [doubleLoop, if_pos hlt]
    obtain ⟨k, rfl⟩ := hpow
    exact ih ⟨k + 1, rfl⟩
  | case2 maxcoin hcoin hle =>
    rw [doubleLoop, if_neg hle]
    exact ⟨hpow, not_lt.1 hle⟩

/-- The powers of two up to the amount are those up to the largest coin. -/
theorem largestCoin_eq (amount : ℕ) :
    IsCoin (largestCoin amount) ∧
      ∀ c ≤ amount, c ∈ coinsUpTo (largestCoin amount) ↔ ∃ k, c = 2 ^ k := by
  obtain ⟨⟨j, hj⟩, hle⟩ := @doubleLoop_eq 1 amount Nat.one_pos ⟨0, rfl⟩
  unfold largestCoin
  dsimp only
  split
  · rename_i hover
    rw [hj] at hover ⊢
    refine ⟨IsCoin.half (.inr ⟨j, rfl⟩), fun c hc => ⟨fun h => h.1, fun h => ?_⟩⟩
    have hmem : c ∈ coinsUpTo (2 ^ j) := ⟨h, hc.trans hover.le⟩
    rw [coinsUpTo_pow] at hmem
    exact hmem.resolve_left (hc.trans_lt hover).ne
  · exact ⟨.inr ⟨j, hj⟩, fun c hc => ⟨fun h => h.1, fun h => ⟨h, hc.trans hle⟩⟩⟩

/-- The number of multisets of powers of two that have the sum `amount`. -/
theorem countChange_eq (amount : ℕ) :
    {m : Multiset ℕ | (∀ c ∈ m, ∃ k, c = 2 ^ k) ∧ m.sum = amount}.encard = countChange amount := by
  obtain ⟨hcoin, hcoins⟩ := largestCoin_eq amount
  have hsums : CoinSums {c | ∃ k, c = 2 ^ k} amount =
      CoinSums (coinsUpTo (largestCoin amount)) amount :=
    coinSums_congr fun c hc => (hcoins c hc).symm
  unfold countChange
  rw [← changeWithMaxcoin_eq amount _ hcoin, ← hsums]
  rfl

example : countChange 7 = 6 := by decide +kernel

end Courses.Exercises.CountChange
