import Mathlib.Data.Int.Init
import Mathlib.Data.Nat.Digits.Lemmas
import Mathlib.Tactic
import Mathlib.Tactic.NormNum

/-!
# Signed numbers of 32 bits

`int32 n` is the value of an expression whose exact value is `n` in a language that wraps
around to the numbers from `-2 ^ 31` to `2 ^ 31 - 1`.
-/
namespace Courses.Lib

def int32 (n : ℤ) : ℤ := n.bmod (2 ^ 32)

variable {n : ℤ}

theorem int32_eq (hle : -2 ^ 31 ≤ n) (hlt : n < 2 ^ 31) : int32 n = n := by
  rw [int32, Int.bmod_eq_of_le] <;> omega

theorem int32_range (n : ℤ) : -2 ^ 31 ≤ int32 n ∧ int32 n < 2 ^ 31 := by
  have hle := Int.le_bmod (x := n) (m := 2 ^ 32) (by norm_num)
  have hlt := Int.bmod_lt (x := n) (m := 2 ^ 32) (by norm_num)
  rw [int32]
  omega

theorem int32_eq_sub (hle : 2 ^ 31 ≤ n) (hlt : n < 2 ^ 31 + 2 ^ 32) : int32 n = n - 2 ^ 32 := by
  rw [int32, Int.bmod_def]
  split <;> omega

end Courses.Lib

/-!
# Positional notation

The digits of a number, the most significant first, as printers write and
parsers fold them.
-/
namespace Courses.Lib

/-- The digits of a number in a base; zero has one. -/
def numeral (b n : ℕ) : List ℕ := if n = 0 then [0] else (Nat.digits b n).reverse

theorem numeral_of_lt {b n : ℕ} (h : n < b) : numeral b n = [n] := by
  unfold numeral
  split_ifs with hn
  · rw [hn]
  · rw [Nat.digits_of_lt b n hn h, List.reverse_singleton]

theorem numeral_of_le {b n : ℕ} (hb : 1 < b) (h : b ≤ n) :
    numeral b n = numeral b (n / b) ++ [n % b] := by
  have hquot : n / b ≠ 0 := (Nat.div_pos h (by omega)).ne'
  rw [numeral, numeral, if_neg (by omega), if_neg hquot, Nat.digits_def' hb (by omega),
    List.reverse_cons]

theorem length_numeral_pos (b n : ℕ) : 0 < (numeral b n).length := by
  unfold numeral
  split_ifs with h
  · exact Nat.one_pos
  · rw [List.length_reverse]
    exact List.length_pos_iff.2 (Nat.digits_ne_nil_iff_ne_zero.2 h)

theorem length_numeral_le {b n k : ℕ} (hb : 1 < b) (hk : 0 < k) (h : n < b ^ k) :
    (numeral b n).length ≤ k := by
  unfold numeral
  split_ifs
  · exact hk
  · rw [List.length_reverse]
    exact (Nat.digits_length_le_iff hb n).2 h

theorem lt_of_mem_numeral {b n d : ℕ} (hb : 1 < b) (h : d ∈ numeral b n) : d < b := by
  unfold numeral at h
  split_ifs at h
  · rw [List.mem_singleton.1 h]
    exact Nat.zero_lt_of_lt hb
  · exact Nat.digits_lt_base hb (List.mem_reverse.1 h)

/-- Folding the digits gives the number back. -/
theorem foldl_numeral {b n : ℕ} (hb : 1 < b) :
    (numeral b n).foldl (fun k d => k * b + d) 0 = n := by
  induction n using Nat.strong_induction_on with
  | h n ih =>
    by_cases hn : n < b
    · rw [numeral_of_lt hn]
      simp
    · rw [numeral_of_le hb (by omega), List.foldl_append,
        ih _ (Nat.div_lt_self (by omega) hb), List.foldl_cons, List.foldl_nil]
      exact Nat.div_add_mod' n b

/-- The digits of a number; zero has one. -/
def decimal (n : ℕ) : List ℕ := if n = 0 then [0] else (Nat.digits 10 n).reverse

/-- The number that the digits say. -/
def ofDecimal (ds : List ℕ) : ℕ := ds.foldl (fun n d => n * 10 + d) 0

theorem decimal_ne_nil (n : ℕ) : decimal n ≠ [] := by
  unfold decimal
  split_ifs with h
  · simp
  · rw [List.reverse_ne_nil_iff]
    exact Nat.digits_ne_nil_iff_ne_zero.2 h

theorem lt_of_mem_decimal {n d : ℕ} (h : d ∈ decimal n) : d < 10 := by
  unfold decimal at h
  split_ifs at h
  · rw [List.mem_singleton.1 h]
    decide
  · exact Nat.digits_lt_base (by decide) (List.mem_reverse.1 h)

theorem ofDecimal_reverse (ds : List ℕ) : ofDecimal ds.reverse = Nat.ofDigits 10 ds := by
  rw [ofDecimal, List.foldl_reverse]
  induction ds with
  | nil => rfl
  | cons d ds ih =>
    rw [List.foldr_cons, ih, Nat.ofDigits_cons]
    ring

theorem ofDecimal_decimal (n : ℕ) : ofDecimal (decimal n) = n := by
  unfold decimal
  split_ifs with h
  · rw [h]
    rfl
  · rw [ofDecimal_reverse, Nat.ofDigits_digits]

theorem length_decimal_le {n k : ℕ} (hk : 0 < k) (h : n < 10 ^ k) : (decimal n).length ≤ k :=
  length_numeral_le (by decide) hk h

end Courses.Lib
