import Mathlib.NumberTheory.Bertrand
import Mathlib.Tactic

/-!
# The game of Hog

The simulator and the strategies of the project. Dice are a source of outcomes with a state, and a
strategy is a function of the two scores. A loop that looks for a prime has fuel; the others count.
-/
namespace Courses.Exercises.Hog

/-! ## Primes -/

/-- The loop of `is_prime`. -/
def isPrimeLoop (val div : ℕ) : Bool :=
  if div * div ≤ val then
    if val % div = 0 then false else isPrimeLoop val (div + 1)
  else true
termination_by val + 1 - div
decreasing_by
  have hle : div ≤ div * div := Nat.le_mul_self div
  omega

def isPrime (val : ℕ) : Bool := if val ≤ 1 then false else isPrimeLoop val 2

/-- The loop of `next_prime`. -/
def nextPrimeLoop : ℕ → ℕ → Option ℕ
  | 0, _ => none
  | fuel + 1, val => if isPrime val then some val else nextPrimeLoop fuel (val + 2)

def nextPrime (val : ℕ) : Option ℕ :=
  nextPrimeLoop (val + 1) (if val = 2 then val + 1 else val + 2)

theorem isPrimeLoop_iff (val div : ℕ) (hdiv : 2 ≤ div) (hval : 2 ≤ val)
    (h : ∀ d, 2 ≤ d → d < div → ¬ d ∣ val) : isPrimeLoop val div = true ↔ val.Prime := by
  induction hn : val + 1 - div using Nat.strong_induction_on generalizing div with
  | h n ih =>
    rw [isPrimeLoop]
    split
    · rename_i hle
      have hlow : div ≤ div * div := Nat.le_mul_self div
      have hlt : div < div * div := by nlinarith
      split
      · rename_i hmod
        refine iff_of_false Bool.false_ne_true fun hprime => ?_
        have hdvd := Nat.dvd_of_mod_eq_zero hmod
        obtain hone | hself := (Nat.dvd_prime hprime).1 hdvd <;> omega
      · rename_i hmod
        apply ih _ (by omega) _ (by omega) _ rfl
        intro d hd hlt' hdvd
        obtain hd' | rfl : d < div ∨ d = div := by omega
        · exact h d hd hd' hdvd
        · exact hmod (Nat.mod_eq_zero_of_dvd hdvd)
    · rename_i hgt
      refine iff_of_true rfl (Nat.prime_def_le_sqrt.2 ⟨hval, fun d hd hsqrt hdvd => ?_⟩)
      refine h d hd ?_ hdvd
      have hsq := Nat.le_sqrt.1 hsqrt
      nlinarith

theorem isPrime_iff (val : ℕ) : isPrime val = true ↔ val.Prime := by
  unfold isPrime
  split
  · rename_i hle
    refine iff_of_false Bool.false_ne_true fun hprime => ?_
    have htwo := hprime.two_le
    omega
  · exact isPrimeLoop_iff val 2 le_rfl (by omega) fun d hd hlt => by omega

theorem nextPrimeLoop_eq {fuel val q k : ℕ} (hq : q.Prime) (hk : val + 2 * k = q)
    (hnone : ∀ j < k, ¬ (val + 2 * j).Prime) (hfuel : k < fuel) :
    nextPrimeLoop fuel val = some q := by
  induction k generalizing fuel val with
  | zero =>
    obtain ⟨fuel, rfl⟩ : ∃ n, fuel = n + 1 := Nat.exists_eq_succ_of_ne_zero (by omega)
    rw [Nat.mul_zero, Nat.add_zero] at hk
    rw [nextPrimeLoop, hk, if_pos ((isPrime_iff q).2 hq)]
  | succ k ih =>
    obtain ⟨fuel, rfl⟩ : ∃ n, fuel = n + 1 := Nat.exists_eq_succ_of_ne_zero (by omega)
    have hval : ¬ isPrime val = true := fun h => hnone 0 (by omega) ((isPrime_iff val).1 h)
    rw [nextPrimeLoop, if_neg hval]
    refine ih (by omega) (fun j hj => ?_) (by omega)
    have hnext : val + 2 + 2 * j = val + 2 * (j + 1) := by ring
    rw [hnext]
    exact hnone (j + 1) (by omega)

/-- The least prime behind a prime; odd numbers alone are looked at. -/
theorem nextPrime_eq {p : ℕ} (hp : p.Prime) :
    ∃ q, nextPrime p = some q ∧ q.Prime ∧ p < q ∧ ∀ r, r.Prime → p < r → q ≤ r := by
  have hexists : ∃ q, q.Prime ∧ p < q := by
    obtain ⟨q, hle, hq⟩ := Nat.exists_infinite_primes (p + 1)
    exact ⟨q, hq, hle⟩
  obtain ⟨hq, hlt⟩ := Nat.find_spec hexists
  have hmin : ∀ r, r.Prime → p < r → Nat.find hexists ≤ r :=
    fun r hr hpr => Nat.find_min' hexists ⟨hr, hpr⟩
  generalize Nat.find hexists = q at hq hlt hmin
  refine ⟨q, ?_, hq, hlt, hmin⟩
  -- there is a prime up to twice the number, so the loop ends
  obtain ⟨r, hr, hpr, hle⟩ := Nat.exists_prime_lt_and_le_two_mul p hp.ne_zero
  have hqle := (hmin r hr hpr).trans hle
  unfold nextPrime
  obtain rfl | hodd := hp.eq_two_or_odd
  · have hthree : q = 3 := le_antisymm (hmin 3 Nat.prime_three (by omega)) hlt
    rw [if_pos rfl]
    exact nextPrimeLoop_eq hq (k := 0) hthree.symm (fun j hj => absurd hj (Nat.not_lt_zero j))
      (by omega)
  · have htwo := hp.two_le
    have hqodd : q % 2 = 1 := hq.eq_two_or_odd.resolve_left (by omega)
    have hne : p ≠ 2 := by omega
    rw [if_neg hne]
    refine nextPrimeLoop_eq hq (k := (q - p - 2) / 2) (by omega) (fun j hj hprime => ?_) (by omega)
    have hleast := hmin _ hprime (by omega)
    omega

/-! ## Turns -/

/-- Why a game does not go on. -/
inductive Stop
  | assertion (text : String)
  | outOfFuel

inductive Die
  | fourSided
  | sixSided
  deriving DecidableEq

section Game

variable {σ : Type} (roll : Die → σ → ℕ × σ)

/-- The loop of `roll_dice`, with the sum so far and whether a one has come. -/
@[grind]
def rollLoop (dice : Die) : ℕ → ℕ → Bool → σ → ℕ × Bool × σ
  | 0, score, rolledOne, s => (score, rolledOne, s)
  | n + 1, score, rolledOne, s =>
    let (diceVal, s) := roll dice s
    rollLoop dice n (score + diceVal) (rolledOne || diceVal = 1) s

def rollDice (numRolls : ℤ) (dice : Die) (s : σ) : Except Stop (ℕ × σ) :=
  if numRolls > 0 then
    let (score, rolledOne, s) := rollLoop roll dice numRolls.toNat 0 false s
    .ok (if rolledOne then 0 else score, s)
  else .error (.assertion "Must roll at least once.")

/-- The loop over the digits of the opponent's score. -/
def baconLoop (diceScore opponentScore : ℕ) : ℕ :=
  if opponentScore ≠ 0 then
    let digit := opponentScore % 10
    baconLoop (if digit + 1 > diceScore then digit + 1 else diceScore) (opponentScore / 10)
  else diceScore
termination_by opponentScore
decreasing_by exact Nat.div_lt_self (by omega) (by decide)

/-- Hogtimus Prime -/
def boost (diceScore : ℕ) : Except Stop ℕ :=
  if isPrime diceScore then
    match nextPrime diceScore with
    | some q => .ok q
    | none => .error .outOfFuel
  else .ok diceScore

def takeTurn (numRolls : ℤ) (opponentScore : ℕ) (dice : Die) (s : σ) : Except Stop (ℕ × σ) :=
  if ¬ numRolls ≥ 0 then .error (.assertion "Cannot roll a negative number of dice.")
  else if ¬ numRolls ≤ 10 then .error (.assertion "Cannot roll more than 10 dice.")
  else if ¬ opponentScore < 100 then .error (.assertion "The game should be over.")
  else do
    let (diceScore, s) ←
      if numRolls = 0 then pure (baconLoop 1 opponentScore, s) else rollDice roll numRolls dice s
    let diceScore ← boost diceScore
    return (diceScore, s)

def selectDice (score opponentScore : ℕ) : Die :=
  if (score + opponentScore) % 7 = 0 then .fourSided else .sixSided

/-- The loop that reverses the digits. -/
def reverseLoop (rev last : ℕ) : ℕ :=
  if last ≠ 0 then reverseLoop (rev * 10 + last % 10) (last / 10) else rev
termination_by last
decreasing_by exact Nat.div_lt_self (by omega) (by decide)

/-- `is_swap`, which calls itself at most once, with the last digits in order. -/
def isSwap (score0 score1 : ℕ) : Bool :=
  let last0 := score0 % 100
  let last1 := score1 % 100
  if last0 < last1 then reverseLoop 0 (last1 % 100) = last0 % 100
  else reverseLoop 0 last0 = last1

structure Game (σ : Type) where
  score0 : ℕ
  score1 : ℕ
  /-- Player 1 takes the next turn. -/
  who : Bool
  dice : σ

abbrev Strategy := ℕ → ℕ → Except Stop ℤ

variable (strategy0 strategy1 : Strategy)

/-- The scores of the player and the opponent after a turn: piggyback, and perhaps a swap. -/
def settle (curscore opposcore scoreAdd : ℕ) (numRoll : ℤ) : ℕ × ℕ :=
  let opposcore := if scoreAdd = 0 then opposcore + numRoll.toNat else opposcore
  let curscore := curscore + scoreAdd
  if isSwap curscore opposcore then (opposcore, curscore) else (curscore, opposcore)

/-- The body of the loop of `play`. -/
def turn (g : Game σ) : Except Stop (Game σ) := do
  let (strategy, curscore, opposcore) :=
    if g.who then (strategy1, g.score1, g.score0) else (strategy0, g.score0, g.score1)
  let numRoll ← strategy curscore opposcore
  let (scoreAdd, s) ← takeTurn roll numRoll opposcore (selectDice curscore opposcore) g.dice
  let (curscore, opposcore) := settle curscore opposcore scoreAdd numRoll
  if g.who then return ⟨opposcore, curscore, false, s⟩
  else return ⟨curscore, opposcore, true, s⟩

@[grind]
def play (goal : ℕ) : ℕ → Game σ → Except Stop (ℕ × ℕ)
  | 0, _ => .error .outOfFuel
  | fuel + 1, g =>
    if g.score0 < goal ∧ g.score1 < goal then do
      let g ← turn roll strategy0 strategy1 g
      play goal fuel g
    else .ok (g.score0, g.score1)

end Game

/-! ## A turn adds points -/

theorem baconLoop_ge (diceScore opponentScore : ℕ) :
    diceScore ≤ baconLoop diceScore opponentScore := by
  induction opponentScore using Nat.strong_induction_on generalizing diceScore with
  | h n ih =>
    rw [baconLoop]
    split
    · rename_i hn
      have hlater := ih (n / 10) (Nat.div_lt_self (by omega) (by decide))
        (if n % 10 + 1 > diceScore then n % 10 + 1 else diceScore)
      refine le_trans ?_ hlater
      split <;> omega
    · exact le_rfl

theorem boost_eq (d : ℕ) : ∃ b, boost d = .ok b ∧ d ≤ b ∧ (¬ d.Prime → b = d) ∧
    (d.Prime → b.Prime ∧ d < b ∧ ∀ r, r.Prime → d < r → b ≤ r) := by
  unfold boost
  by_cases hd : d.Prime
  · obtain ⟨q, hq, hprime, hlt, hmin⟩ := nextPrime_eq hd
    rw [if_pos ((isPrime_iff d).2 hd), hq]
    exact ⟨q, rfl, hlt.le, fun h => absurd hd h, fun _ => ⟨hprime, hlt, hmin⟩⟩
  · rw [if_neg fun h => hd ((isPrime_iff d).1 h)]
    exact ⟨d, rfl, le_rfl, fun _ => rfl, fun h => absurd h hd⟩

section Turns

variable {σ : Type} {roll : Die → σ → ℕ × σ} {strategy0 strategy1 : Strategy}

/-- A turn that is allowed ends, and without dice it brings points. -/
theorem takeTurn_ok {numRolls : ℤ} {opponentScore : ℕ} (dice : Die) (s : σ)
    (hlow : 0 ≤ numRolls) (hhigh : numRolls ≤ 10) (hopponent : opponentScore < 100) :
    ∃ n s', takeTurn roll numRolls opponentScore dice s = .ok (n, s') ∧
      (n = 0 → 0 < numRolls) := by
  unfold takeTurn
  rw [if_neg (not_not.2 hlow), if_neg (not_not.2 hhigh), if_neg (not_not.2 hopponent)]
  by_cases hzero : numRolls = 0
  · obtain ⟨b, hboost, hle, -⟩ := boost_eq (baconLoop 1 opponentScore)
    have hone := baconLoop_ge 1 opponentScore
    rw [if_pos hzero]
    refine ⟨b, s, ?_, fun hb => by omega⟩
    simp only [pure_bind, hboost]
    rfl
  · have hpos : 0 < numRolls := by omega
    rw [if_neg hzero, rollDice, if_pos hpos]
    obtain ⟨score, rolledOne, s'⟩ := rollLoop roll dice numRolls.toNat 0 false s
    obtain ⟨b, hboost, -⟩ := boost_eq (if rolledOne then 0 else score)
    refine ⟨b, s', ?_, fun _ => hpos⟩
    simp only [Except.bind, bind, hboost]
    rfl

/-- Together the players gain points, and the goal is not reached by both. -/
theorem settle_spec {cur opp n goal : ℕ} {numRoll : ℤ} (hcur : cur < goal) (hopp : opp < goal)
    (hzero : n = 0 → 0 < numRoll) :
    cur + opp < (settle cur opp n numRoll).1 + (settle cur opp n numRoll).2 ∧
      ((settle cur opp n numRoll).1 < goal ∨ (settle cur opp n numRoll).2 < goal) := by
  unfold settle
  dsimp only
  by_cases hn : n = 0
  · have hroll := hzero hn
    rw [if_pos hn]
    split <;> dsimp only <;> omega
  · rw [if_neg hn]
    split <;> dsimp only <;> omega

/-- The strategy always says a number of dice that may be rolled. -/
def Allowed (strategy : Strategy) : Prop :=
  ∀ score opponentScore, ∃ n, strategy score opponentScore = .ok n ∧ 0 ≤ n ∧ n ≤ 10

/-- A turn in the game: what the player whose turn it is has said, and what has come of it. -/
theorem turn_eq {g : Game σ} {n : ℤ} {add : ℕ} {s : σ}
    (hstrategy : (if g.who then strategy1 g.score1 g.score0
      else strategy0 g.score0 g.score1) = .ok n)
    (htake : (if g.who then takeTurn roll n g.score0 (selectDice g.score1 g.score0) g.dice
      else takeTurn roll n g.score1 (selectDice g.score0 g.score1) g.dice) = .ok (add, s)) :
    turn roll strategy0 strategy1 g = .ok (if g.who then
      ⟨(settle g.score1 g.score0 add n).2, (settle g.score1 g.score0 add n).1, false, s⟩
    else ⟨(settle g.score0 g.score1 add n).1, (settle g.score0 g.score1 add n).2, true, s⟩) := by
  obtain ⟨score0, score1, who, dice⟩ := g
  unfold turn
  cases who with
  | true =>
    simp only [if_true] at hstrategy htake ⊢
    rw [hstrategy]
    simp only [bind, Except.bind, htake]
    rfl
  | false =>
    simp only [Bool.false_eq_true, if_false] at hstrategy htake ⊢
    rw [hstrategy]
    simp only [bind, Except.bind, htake]
    rfl

/-- A turn that is allowed adds points. -/
theorem turn_ok {g : Game σ} (hallowed : Allowed strategy0) (hallowed' : Allowed strategy1)
    {goal : ℕ} (hgoal : goal ≤ 100) (h0 : g.score0 < goal) (h1 : g.score1 < goal) :
    ∃ g', turn roll strategy0 strategy1 g = .ok g' ∧
      g.score0 + g.score1 < g'.score0 + g'.score1 ∧
      (g'.score0 < goal ∨ g'.score1 < goal) := by
  obtain ⟨score0, score1, who, s⟩ := g
  dsimp only at h0 h1 ⊢
  cases who with
  | true =>
    obtain ⟨m, hsay, hlow, hhigh⟩ := hallowed' score1 score0
    obtain ⟨n, s', htake, hzero⟩ := @takeTurn_ok σ roll m score0 (selectDice score1 score0) s
      hlow hhigh (h0.trans_le hgoal)
    obtain ⟨hmore, hnot⟩ := settle_spec h1 h0 hzero
    refine ⟨_, turn_eq (n := m) hsay htake, ?_, hnot.symm⟩
    simp only [if_true]
    omega
  | false =>
    obtain ⟨m, hsay, hlow, hhigh⟩ := hallowed score0 score1
    obtain ⟨n, s', htake, hzero⟩ := @takeTurn_ok σ roll m score1 (selectDice score0 score1) s
      hlow hhigh (h1.trans_le hgoal)
    obtain ⟨hmore, hnot⟩ := settle_spec h0 h1 hzero
    exact ⟨_, turn_eq (n := m) hsay htake, hmore, hnot⟩

/-- A game between strategies that say what is allowed ends, whatever the dice show, and exactly
one of the players has reached the goal. -/
theorem play_ends {goal fuel : ℕ} {g : Game σ} (hallowed : Allowed strategy0)
    (hallowed' : Allowed strategy1) (hgoal : goal ≤ 100)
    (hstart : g.score0 < goal ∨ g.score1 < goal)
    (hfuel : 2 * goal - (g.score0 + g.score1) < fuel) :
    ∃ score0 score1, play roll strategy0 strategy1 goal fuel g = .ok (score0, score1) ∧
      (goal ≤ score0 ∧ score1 < goal ∨ score0 < goal ∧ goal ≤ score1) := by
  induction fuel generalizing g with
  | zero => exact absurd hfuel (Nat.not_lt_zero _)
  | succ fuel ih =>
    rw [play]
    by_cases hboth : g.score0 < goal ∧ g.score1 < goal
    · obtain ⟨g', hturn, hmore, hnot⟩ :=
        @turn_ok σ roll strategy0 strategy1 g hallowed hallowed' goal hgoal hboth.1 hboth.2
      obtain ⟨score0, score1, hplay, hone⟩ := ih (g := g') hnot (by omega)
      refine ⟨score0, score1, ?_, hone⟩
      rw [if_pos hboth, hturn]
      exact hplay
    · rw [if_neg hboth]
      exact ⟨g.score0, g.score1, rfl, by omega⟩

end Turns

/-! ## What a turn scores -/

section Scores

variable {σ : Type} (roll : Die → σ → ℕ × σ)

/-- The outcomes of a number of rolls, and the dice after them. -/
def outcomes (dice : Die) : ℕ → σ → List ℕ × σ
  | 0, s => ([], s)
  | n + 1, s =>
    let rest := outcomes dice n (roll dice s).2
    ((roll dice s).1 :: rest.1, rest.2)

variable {roll}

theorem rollLoop_eq (dice : Die) (n score : ℕ) (rolledOne : Bool) (s : σ) :
    rollLoop roll dice n score rolledOne s =
      (score + (outcomes roll dice n s).1.sum,
        rolledOne || decide (1 ∈ (outcomes roll dice n s).1), (outcomes roll dice n s).2) := by
  induction n generalizing score rolledOne s with
  | zero => simp [rollLoop, outcomes]
  | succ n ih =>
    simp only [rollLoop, ih, outcomes, List.sum_cons, List.mem_cons, Bool.decide_or,
      Bool.or_assoc, Nat.add_assoc, eq_comm (a := 1)]

/-- The largest digit. -/
def maxDigit (n : ℕ) : ℕ := (Nat.digits 10 n).foldr max 0

theorem baconLoop_eq (diceScore opponentScore : ℕ) (hpos : 0 < diceScore) :
    baconLoop diceScore opponentScore = max diceScore (maxDigit opponentScore + 1) := by
  induction opponentScore using Nat.strong_induction_on generalizing diceScore with
  | h n ih =>
    rw [baconLoop]
    split
    · rename_i hn
      have hdigits : maxDigit n = max (n % 10) (maxDigit (n / 10)) := by
        rw [maxDigit, Nat.digits_def' (by decide) (by omega)]
        rfl
      rw [ih _ (Nat.div_lt_self (by omega) (by decide)) _ (by split <;> omega), hdigits]
      split <;> omega
    · rename_i hn
      rw [not_not.1 hn]
      have hzero : maxDigit 0 = 0 := by simp [maxDigit]
      omega

/-- The points of a turn before they are boosted. -/
def points (n : ℕ) (opponentScore : ℕ) (rolled : List ℕ) : ℕ :=
  if n = 0 then maxDigit opponentScore + 1 else if 1 ∈ rolled then 0 else rolled.sum

/-- A turn scores one more than the largest digit of the opponent, or the sum of the dice, or
nothing if there is a one; and a prime is raised to the next one. -/
theorem takeTurn_spec (n opponentScore : ℕ) (dice : Die) (s : σ) (hn : n ≤ 10)
    (hopponent : opponentScore < 100) :
    ∃ b, takeTurn roll n opponentScore dice s = .ok (b, (outcomes roll dice n s).2) ∧
      let base := points n opponentScore (outcomes roll dice n s).1
      (¬ base.Prime → b = base) ∧
        (base.Prime → b.Prime ∧ base < b ∧ ∀ r, r.Prime → base < r → b ≤ r) := by
  obtain ⟨b, hboost, -, hsame, hnext⟩ :=
    boost_eq (points n opponentScore (outcomes roll dice n s).1)
  refine ⟨b, ?_, hsame, hnext⟩
  unfold takeTurn
  rw [if_neg (by omega), if_neg (by omega), if_neg (by omega)]
  by_cases hzero : n = 0
  · subst hzero
    have hbacon : points 0 opponentScore (outcomes roll dice 0 s).1 =
        baconLoop 1 opponentScore := by
      rw [baconLoop_eq 1 _ Nat.one_pos, points, if_pos rfl]
      omega
    rw [hbacon] at hboost
    simp only [Nat.cast_zero, if_true, pure_bind, hboost]
    rfl
  · have hpos : (n : ℤ) > 0 := by omega
    rw [if_neg (by omega), rollDice, if_pos hpos, Int.toNat_natCast, rollLoop_eq]
    rw [points, if_neg hzero] at hboost
    simp only [Except.bind, bind, Bool.false_or, decide_eq_true_eq, Nat.zero_add, hboost]
    rfl

end Scores

theorem takeTurn_spec_two :
    ∃ b, takeTurn (fun _ s => (3, s)) (2 : ℕ) 35 .sixSided () =
        .ok (b, (outcomes (fun _ s => (3, s)) .sixSided 2 ()).2) ∧
      let base := points 2 35 (outcomes (fun _ s => (3, s)) .sixSided 2 ()).1
      (¬ base.Prime → b = base) ∧
        (base.Prime → b.Prime ∧ base < b ∧ ∀ r, r.Prime → base < r → b ≤ r) :=
  takeTurn_spec 2 35 .sixSided () (by decide) (by decide)

/-! ## Swaps -/

/-- The two digits the other way round. -/
def reversed (n : ℕ) : ℕ := n % 10 * 10 + n / 10

theorem reverseLoop_eq {n : ℕ} (hn : n < 100) :
    reverseLoop 0 n = if n < 10 then n else reversed n := by
  have hzero : ∀ rev, reverseLoop rev 0 = rev := by
    intro rev
    rw [reverseLoop]
    rfl
  have hone : ∀ rev d, 0 < d → d < 10 → reverseLoop rev d = rev * 10 + d := by
    intro rev d hpos hlt
    rw [reverseLoop, if_pos (by omega), Nat.div_eq_of_lt hlt, hzero, Nat.mod_eq_of_lt hlt]
  by_cases hlow : n < 10
  · rw [if_pos hlow]
    obtain rfl | hpos := Nat.eq_zero_or_pos n
    · exact hzero 0
    · rw [hone 0 n hpos hlow]
      omega
  · rw [if_neg hlow, reverseLoop, if_pos (by omega), hone _ _ (by omega) (by omega), reversed]
    omega

theorem exists_digits {n : ℕ} (hn : n < 100) : ∃ a b, a < 10 ∧ b < 10 ∧ n = a * 10 + b :=
  ⟨n / 10, n % 10, by omega, by omega, by omega⟩

theorem reversed_digits {a b : ℕ} (hb : b < 10) : reversed (a * 10 + b) = b * 10 + a := by
  unfold reversed
  omega

/-- Scores are swapped if the last two digits of one are those of the other the other way round,
and also if both end in the same digit behind a zero. -/
theorem isSwap_iff (score0 score1 : ℕ) :
    isSwap score0 score1 = true ↔
      score1 % 100 = reversed (score0 % 100) ∨
        score0 % 100 = score1 % 100 ∧ score0 % 100 < 10 := by
  have h0 := Nat.mod_lt score0 (show 100 > 0 by decide)
  have h1 := Nat.mod_lt score1 (show 100 > 0 by decide)
  unfold isSwap
  dsimp only
  rw [Nat.mod_mod, Nat.mod_mod, reverseLoop_eq h0, reverseLoop_eq h1]
  obtain ⟨a, b, ha, hb, hab⟩ := exists_digits h0
  obtain ⟨c, d, hc, hd, hcd⟩ := exists_digits h1
  rw [hab, hcd, reversed_digits hb, reversed_digits hd]
  split
  · split <;> rw [decide_eq_true_iff] <;> omega
  · split <;> rw [decide_eq_true_iff] <;> omega

/-! ## Strategies -/

def alwaysRoll (n : ℤ) : Strategy := fun _ _ => .ok n

/-- `zero_roll_gain`; the loop is that of `take_turn`. -/
def zeroRollGain (opponentScore : ℕ) : Except Stop ℕ := boost (baconLoop 1 opponentScore)

def baconStrategy (margin : ℕ) (numRolls : ℤ) : Strategy := fun _ opponentScore => do
  let scoreGain ← zeroRollGain opponentScore
  if scoreGain ≥ margin then return 0 else return numRolls

def swapStrategy (numRolls : ℤ) : Strategy := fun score opponentScore => do
  let addScore ← zeroRollGain opponentScore
  let score := score + addScore
  if isSwap score opponentScore ∧ score < opponentScore then return 0 else return numRolls

def finalStrategy : Strategy := fun score opponentScore => do
  let norollGain ← zeroRollGain opponentScore
  let (margin, numRoll) :=
    if score > 75 then (7, 5) else if score > 84 then (6, 3) else if score > 93 then (4, 2)
    else (8, 6)
  let (margin, numRoll) :=
    if (score + opponentScore) % 7 = 0 then (4, 3) else (margin, numRoll)
  if score + norollGain ≥ 100 then return 0
  else if (score + norollGain + opponentScore) % 7 = 0 ∧ (opponentScore : ℤ) - score ≥ 10 then
    return 0
  else if isSwap (score + norollGain) opponentScore ∧ score < opponentScore then return 0
  else if norollGain ≥ margin then return 0
  else return numRoll

theorem zeroRollGain_eq (opponentScore : ℕ) :
    ∃ gain, zeroRollGain opponentScore = .ok gain ∧ 0 < gain := by
  obtain ⟨gain, hboost, hle, -⟩ := boost_eq (baconLoop 1 opponentScore)
  exact ⟨gain, hboost, (baconLoop_ge 1 opponentScore).trans hle⟩

theorem allowed_alwaysRoll {n : ℤ} (hlow : 0 ≤ n) (hhigh : n ≤ 10) : Allowed (alwaysRoll n) :=
  fun _ _ => ⟨n, rfl, hlow, hhigh⟩

theorem allowed_swapStrategy {n : ℤ} (hlow : 0 ≤ n) (hhigh : n ≤ 10) :
    Allowed (swapStrategy n) := by
  intro score opponentScore
  obtain ⟨gain, hgain, -⟩ := zeroRollGain_eq opponentScore
  unfold swapStrategy
  rw [hgain]
  by_cases hswap : isSwap (score + gain) opponentScore ∧ score + gain < opponentScore
  · exact ⟨0, if_pos hswap, le_rfl, by decide⟩
  · exact ⟨n, if_neg hswap, hlow, hhigh⟩

theorem allowed_finalStrategy : Allowed finalStrategy := by
  intro score opponentScore
  obtain ⟨gain, hgain, -⟩ := zeroRollGain_eq opponentScore
  unfold finalStrategy
  rw [hgain]
  simp only [bind, Except.bind]
  split_ifs <;> exact ⟨_, rfl, by decide, by decide⟩

section Strategies

variable {σ : Type} {roll : Die → σ → ℕ × σ} {strategy0 strategy1 : Strategy}

/-- A turn without dice. -/
theorem turn_zero {score0 score1 gain : ℕ} {s : σ} (hzero : strategy0 score0 score1 = .ok 0)
    (hscore : score1 < 100) (hgain : zeroRollGain score1 = .ok gain) (hpos : 0 < gain) :
    turn roll strategy0 strategy1 ⟨score0, score1, false, s⟩ = .ok
      (if isSwap (score0 + gain) score1 then ⟨score1, score0 + gain, true, s⟩
      else ⟨score0 + gain, score1, true, s⟩) := by
  have htake : takeTurn roll 0 score1 (selectDice score0 score1) s = .ok (gain, s) := by
    unfold takeTurn
    rw [if_neg (by decide), if_neg (by decide), if_neg (not_not.2 hscore)]
    simp only [if_true, pure_bind]
    rw [← zeroRollGain, hgain]
    rfl
  have hturn : turn roll strategy0 strategy1 ⟨score0, score1, false, s⟩ = _ := turn_eq hzero htake
  rw [hturn]
  simp only [Bool.false_eq_true, if_false, settle, if_neg hpos.ne']
  split <;> rfl

end Strategies

theorem play_ends_final :
    ∃ score0 score1,
      play (fun _ s => (3, s)) finalStrategy (alwaysRoll 5) 100 201 ⟨0, 0, false, ()⟩ =
        .ok (score0, score1) ∧
      (100 ≤ score0 ∧ score1 < 100 ∨ score0 < 100 ∧ 100 ≤ score1) :=
  play_ends allowed_finalStrategy (allowed_alwaysRoll (by decide) (by decide)) le_rfl
    (.inl (by decide)) (by decide)

theorem zeroRollGain_ten : zeroRollGain 10 = .ok 3 := by
  have htwo : isPrime 2 = true := (isPrime_iff 2).2 Nat.prime_two
  have hthree : isPrime 3 = true := (isPrime_iff 3).2 Nat.prime_three
  have hbacon : baconLoop 1 10 = 2 := by
    rw [baconLoop_eq 1 10 Nat.one_pos]
    simp [maxDigit]
  rw [zeroRollGain, hbacon, boost, if_pos htwo]
  simp [nextPrime, nextPrimeLoop, hthree]

theorem zeroRollGain_sixtyOne : zeroRollGain 61 = .ok 11 := by
  have hseven : isPrime 7 = true := (isPrime_iff 7).2 (by norm_num)
  have hnine : ¬ isPrime 9 = true := fun h => absurd ((isPrime_iff 9).1 h) (by norm_num)
  have heleven : isPrime 11 = true := (isPrime_iff 11).2 (by norm_num)
  have hbacon : baconLoop 1 61 = 7 := by
    rw [baconLoop_eq 1 61 Nat.one_pos]
    simp [maxDigit]
  rw [zeroRollGain, hbacon, boost, if_pos hseven]
  simp [nextPrime, nextPrimeLoop, hnine, heleven]

theorem swapStrategy_sixtyOne : swapStrategy 5 5 61 = .ok 0 := by
  have hswap : isSwap (5 + 11) 61 = true := by
    simp [isSwap, reverseLoop_eq, reversed]
  rw [swapStrategy, zeroRollGain_sixtyOne]
  exact if_pos ⟨hswap, by decide⟩

end Courses.Exercises.Hog
