import Mathlib.Algebra.BigOperators.Group.List.Basic
import Mathlib.Tactic

/-!
# Trading equal prefixes

`trade` of lab 8 advances one of two pointers at a time until the prefixes before them have the
same sum, or one of the lists ends.
-/
namespace Courses.Exercises

/-- The loop, from the sums of the first `m` elements of `first` and the first `n` of `second`. -/
def tradeLoop (first second : List ℤ) (suma sumb : ℤ) (m n : ℕ) : ℤ × ℤ × ℕ × ℕ :=
  if h : suma ≠ sumb ∧ m < first.length ∧ n < second.length then
    if suma < sumb then tradeLoop first second (suma + first[m]) sumb (m + 1) n
    else tradeLoop first second suma (sumb + second[n]) m (n + 1)
  else (suma, sumb, m, n)
termination_by (first.length - m) + (second.length - n)

/-- What `trade` returns, and the two lists after it. -/
def trade (first second : List ℤ) : String × List ℤ × List ℤ :=
  match first, second with
  | a :: _, b :: _ =>
    let (suma, sumb, m, n) := tradeLoop first second a b 1 1
    if suma = sumb then
      ("Deal!", second.take n ++ first.drop m, first.take m ++ second.drop n)
    else ("No deal!", first, second)
  | _, _ => ("No deal!", first, second)

section Prefixes

variable (first second : List ℤ)

/-- Non-empty prefixes of the two lists with the same sum. -/
structure EqualPrefixes (m n : ℕ) : Prop where
  pos : 0 < m ∧ 0 < n
  le : m ≤ first.length ∧ n ≤ second.length
  sum : (first.take m).sum = (second.take n).sum

/-- The shortest ones: no others are shorter on either side. -/
def ShortestPrefixes (m n : ℕ) : Prop :=
  EqualPrefixes first second m n ∧
    ∀ m' n', EqualPrefixes first second m' n' → m ≤ m' ∧ n ≤ n'

/-- What is asked of `trade`. -/
def Trades (result : String × List ℤ × List ℤ) : Prop :=
  ((∃ m n, EqualPrefixes first second m n) → ∃ m n, ShortestPrefixes first second m n ∧
    result = ("Deal!", second.take n ++ first.drop m, first.take m ++ second.drop n)) ∧
  ((¬ ∃ m n, EqualPrefixes first second m n) → result = ("No deal!", first, second))

/-- One of the prefixes is a whole list, and it is reached before the other prefix is: without
their last elements it has the smaller sum. -/
def EndsEarly (m n : ℕ) : Prop :=
  (m = first.length ∧ (first.take (m - 1)).sum < (second.take (n - 1)).sum) ∨
    (n = second.length ∧ (second.take (n - 1)).sum < (first.take (m - 1)).sum)

end Prefixes

section Loop

variable {first second : List ℤ}

theorem sum_take_le {xs : List ℤ} (hpos : ∀ x ∈ xs, 0 < x) {i j : ℕ} (hij : i ≤ j) :
    (xs.take i).sum ≤ (xs.take j).sum := by
  induction j, hij using Nat.le_induction with
  | base => exact le_rfl
  | succ j _ ih =>
    by_cases hj : j < xs.length
    · have hx := hpos xs[j] (List.getElem_mem hj)
      rw [List.sum_take_succ _ _ hj]
      omega
    · rw [List.take_of_length_le (show xs.length ≤ j by omega)] at ih
      rw [List.take_of_length_le (show xs.length ≤ j + 1 by omega)]
      exact ih

theorem sum_take_lt {xs : List ℤ} (hpos : ∀ x ∈ xs, 0 < x) {i j : ℕ} (hij : i < j)
    (hi : i < xs.length) : (xs.take i).sum < (xs.take j).sum := by
  have hx := hpos xs[i] (List.getElem_mem hi)
  have hnext := List.sum_take_succ xs i hi
  have hle := sum_take_le hpos (show i + 1 ≤ j from hij)
  omega

/-- What holds of the pointers: they are at or before all equal prefixes, neither of them could
be one element further back, and no list has ended too early. -/
structure Reached (first second : List ℤ) (m n : ℕ) : Prop where
  pos : 0 < m ∧ 0 < n
  le : m ≤ first.length ∧ n ≤ second.length
  before : ∀ m' n', EqualPrefixes first second m' n' → m ≤ m' ∧ n ≤ n'
  left : (first.take (m - 1)).sum < (second.take n).sum
  right : (second.take (n - 1)).sum < (first.take m).sum
  notEarly : ¬ EndsEarly first second m n

section Positive

variable (hfirst : ∀ x ∈ first, 0 < x) (hsecond : ∀ x ∈ second, 0 < x)
include hfirst hsecond

theorem reached_start (hf : first ≠ []) (hs : second ≠ []) : Reached first second 1 1 := by
  have hlf := List.length_pos_iff.mpr hf
  have hls := List.length_pos_iff.mpr hs
  constructor
  · simp
  · exact ⟨hlf, hls⟩
  · intro m' n' h
    exact h.pos
  · exact sum_take_lt hsecond Nat.one_pos hls
  · exact sum_take_lt hfirst Nat.one_pos hlf
  · simp [EndsEarly]

/-- The first pointer moves on. -/
theorem Reached.stepFirst {m n : ℕ} (h : Reached first second m n) (hm : m < first.length)
    (hn : n < second.length) (hlt : (first.take m).sum < (second.take n).sum) :
    Reached first second (m + 1) n := by
  have hgrow := sum_take_lt hfirst (Nat.lt_succ_self m) hm
  constructor
  · exact ⟨Nat.succ_pos m, h.pos.2⟩
  · exact ⟨hm, h.le.2⟩
  · intro m' n' heq
    obtain ⟨hm', hn'⟩ := h.before m' n' heq
    have hne : m' ≠ m := by
      rintro rfl
      have hle := sum_take_le hsecond hn'
      have hsum := heq.sum
      omega
    omega
  · simpa using hlt
  · exact h.right.trans hgrow
  · intro hearly
    have hright := h.right
    cases hearly with
    | inl hend => simp at hend; omega
    | inr hend => omega

/-- The second pointer moves on. -/
theorem Reached.stepSecond {m n : ℕ} (h : Reached first second m n) (hm : m < first.length)
    (hn : n < second.length) (hlt : (second.take n).sum < (first.take m).sum) :
    Reached first second m (n + 1) := by
  have hgrow := sum_take_lt hsecond (Nat.lt_succ_self n) hn
  constructor
  · exact ⟨h.pos.1, Nat.succ_pos n⟩
  · exact ⟨h.le.1, hn⟩
  · intro m' n' heq
    obtain ⟨hm', hn'⟩ := h.before m' n' heq
    have hne : n' ≠ n := by
      rintro rfl
      have hle := sum_take_le hfirst hm'
      have hsum := heq.sum
      omega
    omega
  · exact h.left.trans hgrow
  · simpa using hlt
  · intro hearly
    have hleft := h.left
    cases hearly with
    | inl hend => omega
    | inr hend => simp at hend; omega

/-- The loop ends where the sums are equal or one of the lists does. -/
theorem tradeLoop_reached {m n : ℕ} (h : Reached first second m n) :
    ∃ m' n', tradeLoop first second (first.take m).sum (second.take n).sum m n =
        ((first.take m').sum, (second.take n').sum, m', n') ∧
      Reached first second m' n' ∧
      ((first.take m').sum = (second.take n').sum ∨ m' = first.length ∨ n' = second.length) := by
  induction hk : (first.length - m) + (second.length - n) using Nat.strong_induction_on
    generalizing m n with
  | _ k ih =>
    rw [tradeLoop]
    split
    · rename_i hloop
      obtain ⟨hne, hm, hn⟩ := hloop
      split
      · rename_i hlt
        rw [← List.sum_take_succ _ _ hm]
        exact ih _ (by omega) (h.stepFirst hfirst hsecond hm hn hlt) rfl
      · rename_i hlt
        rw [← List.sum_take_succ _ _ hn]
        exact ih _ (by omega) (h.stepSecond hfirst hsecond hm hn (by omega)) rfl
    · rename_i hstop
      refine ⟨m, n, rfl, h, ?_⟩
      have hle := h.le
      by_cases heq : (first.take m).sum = (second.take n).sum
      · exact .inl heq
      · right
        by_contra hin
        exact hstop ⟨heq, by omega, by omega⟩

/-- Where the loop has ended with different sums, equal prefixes are missed. -/
theorem Reached.endsEarly {m n m' n' : ℕ} (h : Reached first second m n)
    (hend : m = first.length ∨ n = second.length)
    (hne : (first.take m).sum ≠ (second.take n).sum)
    (heq : EqualPrefixes first second m' n') : EndsEarly first second m' n' := by
  obtain ⟨hm, hn⟩ := h.before m' n' heq
  have hle := heq.le
  have hsum := heq.sum
  cases hend with
  | inl hlast =>
    obtain rfl : m' = m := by omega
    have hn' : n ≠ n' := by
      rintro rfl
      exact hne hsum
    left
    exact ⟨hlast, h.left.trans_le (sum_take_le hsecond (by omega))⟩
  | inr hlast =>
    obtain rfl : n' = n := by omega
    have hm' : m ≠ m' := by
      rintro rfl
      exact hne hsum
    right
    exact ⟨hlast, h.right.trans_le (sum_take_le hfirst (by omega))⟩

theorem EqualPrefixes.exists_shortest {m n : ℕ} (h : EqualPrefixes first second m n) :
    ∃ m' n', ShortestPrefixes first second m' n' := by
  classical
  have hex : ∃ m, ∃ n, EqualPrefixes first second m n := ⟨m, n, h⟩
  obtain ⟨n', hfound⟩ := Nat.find_spec hex
  refine ⟨Nat.find hex, n', hfound, ?_⟩
  intro i j hij
  have hi : Nat.find hex ≤ i := Nat.find_min' hex ⟨j, hij⟩
  have hj : n' ≤ j := by
    by_contra hlt
    have hsmall := sum_take_lt hsecond (Nat.lt_of_not_le hlt) (by have := hfound.le; omega)
    have hle := sum_take_le hfirst hi
    rw [hfound.sum, hij.sum] at hle
    omega
  exact ⟨hi, hj⟩

end Positive

theorem shortestPrefixes_unique {m n m' n' : ℕ} (h : ShortestPrefixes first second m n)
    (h' : ShortestPrefixes first second m' n') : m = m' ∧ n = n' := by
  obtain ⟨hm, hn⟩ := h.2 m' n' h'.1
  obtain ⟨hm', hn'⟩ := h'.2 m n h.1
  omega

end Loop

/-- Equal prefixes are missed exactly when one of the lists ends before both are reached. -/
theorem trades_iff (first second : List ℤ) (hfirst : ∀ x ∈ first, 0 < x)
    (hsecond : ∀ x ∈ second, 0 < x) :
    Trades first second (trade first second) ↔
      ¬ ∃ m n, ShortestPrefixes first second m n ∧ EndsEarly first second m n := by
  by_cases hempty : first = [] ∨ second = []
  · have hno : trade first second = ("No deal!", first, second) := by
      cases hempty with
      | inl hf => simp [trade, hf]
      | inr hs => cases first <;> simp [trade, hs]
    have hnone : ∀ m n, ¬ EqualPrefixes first second m n := by
      intro m n h
      have hpos := h.pos
      have hle := h.le
      cases hempty with
      | inl hf => simp [hf] at hle; omega
      | inr hs => simp [hs] at hle; omega
    constructor
    · intro _ hearly
      obtain ⟨m, n, hshort, -⟩ := hearly
      exact hnone m n hshort.1
    · intro _
      constructor
      · intro hex
        obtain ⟨m, n, h⟩ := hex
        exact absurd h (hnone m n)
      · intro _
        exact hno
  · obtain ⟨hf, hs⟩ := not_or.mp hempty
    obtain ⟨m, n, hloop, hreached, hend⟩ :=
      tradeLoop_reached hfirst hsecond (reached_start hfirst hsecond hf hs)
    have htrade : trade first second =
        if (first.take m).sum = (second.take n).sum then
          ("Deal!", second.take n ++ first.drop m, first.take m ++ second.drop n)
        else ("No deal!", first, second) := by
      cases first with
      | nil => exact absurd rfl hf
      | cons a as =>
        cases second with
        | nil => exact absurd rfl hs
        | cons b bs =>
          simp only [List.take_succ_cons, List.take_zero, List.sum_cons, List.sum_nil,
            add_zero] at hloop
          simp only [trade, hloop]
    by_cases heq : (first.take m).sum = (second.take n).sum
    · have hshort : ShortestPrefixes first second m n :=
        ⟨⟨hreached.pos, hreached.le, heq⟩, hreached.before⟩
      rw [if_pos heq] at htrade
      constructor
      · intro _ hearly
        obtain ⟨m', n', hshort', hearly⟩ := hearly
        obtain ⟨rfl, rfl⟩ := shortestPrefixes_unique hshort hshort'
        exact hreached.notEarly hearly
      · intro _
        constructor
        · intro _
          exact ⟨m, n, hshort, htrade⟩
        · intro hnone
          exact absurd ⟨m, n, hshort.1⟩ hnone
    · rw [if_neg heq] at htrade
      have hlast := hend.resolve_left heq
      constructor
      · intro h hearly
        obtain ⟨m', n', hshort, -⟩ := hearly
        obtain ⟨i, j, -, hdeal⟩ := h.1 ⟨m', n', hshort.1⟩
        rw [htrade] at hdeal
        simp at hdeal
      · intro hno
        have hnone : ¬ ∃ m n, EqualPrefixes first second m n := by
          intro hex
          obtain ⟨i, j, hij⟩ := hex
          obtain ⟨m', n', hshort⟩ := hij.exists_shortest hfirst hsecond
          exact hno ⟨m', n', hshort, hreached.endsEarly hfirst hsecond hlast heq hshort.1⟩
        constructor
        · intro hex
          exact absurd hex hnone
        · intro _
          exact htrade

/-- Both prefixes are reached before the lists end. -/
theorem trades_iff_within :
    Trades [1, 1, 3, 2, 1, 1, 4] [4, 3, 2, 7] (trade [1, 1, 3, 2, 1, 1, 4] [4, 3, 2, 7]) ↔
      ¬ ∃ m n, ShortestPrefixes [1, 1, 3, 2, 1, 1, 4] [4, 3, 2, 7] m n ∧
        EndsEarly [1, 1, 3, 2, 1, 1, 4] [4, 3, 2, 7] m n :=
  trades_iff _ _ (by decide) (by decide)

/-- The first list has a single element, and the second one adds up to it. -/
theorem trade_misses : ¬ Trades [3] [1, 2] (trade [3] [1, 2]) := by
  have hequal : EqualPrefixes [3] [1, 2] 1 2 := ⟨by decide, by decide, by decide⟩
  intro h
  obtain ⟨m, n, -, hdeal⟩ := h.1 ⟨1, 2, hequal⟩
  simp [trade, tradeLoop] at hdeal

end Courses.Exercises
