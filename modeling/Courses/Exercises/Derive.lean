import Mathlib.Algebra.MvPolynomial.Funext
import Mathlib.Algebra.MvPolynomial.PDeriv
import Mathlib.Tactic

/-!
# Symbolic derivatives

`derive` of homework 8, with the expressions as Scheme data. An error, such as the `car` of the
empty list, has no result. The expressions mean polynomials in their symbols.
-/
namespace Courses.Exercises.Derive

open MvPolynomial

inductive Datum
  | number (n : ℤ)
  | symbol (s : String)
  | nil
  | pair (car cdr : Datum)
  deriving DecidableEq

namespace Datum

def car : Datum → Option Datum
  | pair a _ => some a
  | _ => none

def cdr : Datum → Option Datum
  | pair _ d => some d
  | _ => none

def isNumber : Datum → Bool
  | number _ => true
  | _ => false

def isSymbol : Datum → Bool
  | symbol _ => true
  | _ => false

def isList : Datum → Bool
  | nil => true
  | pair _ d => d.isList
  | _ => false

/-- `(list op a b)` -/
def list3 (op : String) (a b : Datum) : Datum := pair (symbol op) (pair a (pair b nil))

end Datum

open Datum

def cadr (s : Datum) : Option Datum := do (← s.cdr).car

def caddr (s : Datum) : Option Datum := do (← (← s.cdr).cdr).car

def isVariable (x : Datum) : Bool := x.isSymbol

def sameVariable (v1 v2 : Datum) : Bool := isVariable v1 && isVariable v2 && decide (v1 = v2)

/-- `=number?` -/
def isNumberEq (expr : Datum) (num : ℤ) : Bool := decide (expr = number num)

/-- `(and (list? x) (eq? (car x) op))` -/
def isTagged (op : String) (x : Datum) : Option Bool :=
  if x.isList then do return decide ((← x.car) = symbol op) else some false

def makeSum (a1 a2 : Datum) : Datum :=
  if isNumberEq a1 0 then a2
  else if isNumberEq a2 0 then a1
  else
    match a1, a2 with
    | number m, number n => number (m + n)
    | _, _ => list3 "+" a1 a2

def isSum (x : Datum) : Option Bool := isTagged "+" x

def addend (s : Datum) : Option Datum := cadr s

def augend (s : Datum) : Option Datum := caddr s

def makeProduct (m1 m2 : Datum) : Datum :=
  if isNumberEq m1 0 || isNumberEq m2 0 then number 0
  else if isNumberEq m1 1 then m2
  else if isNumberEq m2 1 then m1
  else
    match m1, m2 with
    | number m, number n => number (m * n)
    | _, _ => list3 "*" m1 m2

def isProduct (x : Datum) : Option Bool := isTagged "*" x

def multiplier (p : Datum) : Option Datum := cadr p

def multiplicand (p : Datum) : Option Datum := caddr p

/-- `expt` of integers, if the power is one. -/
def expt (b : ℤ) : Datum → Option Datum
  | number n => if 0 ≤ n then some (number (b ^ n.toNat)) else none
  | _ => none

def makeExp (base exponent : Datum) : Option Datum :=
  match base with
  | number b => expt b exponent
  | _ =>
    some (if exponent = number 0 then number 1
      else if exponent = number 1 then base
      else list3 "^" base exponent)

def base (exp : Datum) : Option Datum := cadr exp

def exponent (exp : Datum) : Option Datum := caddr exp

def isExp (exp : Datum) : Option Bool := isTagged "^" exp

/-- `(- x 1)` -/
def subOne : Datum → Option Datum
  | number n => some (number (n - 1))
  | _ => none

section Rules

variable (derive : Datum → Option Datum)

def deriveSum (expr : Datum) : Option Datum := do
  return makeSum (← derive (← addend expr)) (← derive (← augend expr))

def deriveProduct (expr : Datum) : Option Datum := do
  return makeSum
    (makeProduct (← derive (← multiplier expr)) (← multiplicand expr))
    (makeProduct (← derive (← multiplicand expr)) (← multiplier expr))

def deriveExp (exp : Datum) : Option Datum := do
  return makeProduct (← exponent exp) (← makeExp (← base exp) (← subOne (← exponent exp)))

end Rules

/-- `derive`, with at most `fuel` calls inside one another. -/
def derive (var : Datum) : ℕ → Datum → Option Datum
  | 0, _ => none
  | fuel + 1, expr =>
    if expr.isNumber then some (number 0)
    else if isVariable expr then some (if sameVariable expr var then number 1 else number 0)
    else do
      if ← isSum expr then deriveSum (derive var fuel) expr
      else if ← isProduct expr then deriveProduct (derive var fuel) expr
      else if ← isExp expr then deriveExp expr
      else return symbol "error"

/-! ## The meaning of expressions -/

/-- The expressions that are differentiated. -/
inductive Expr
  | number (n : ℤ)
  | symbol (s : String)
  | sum (a b : Expr)
  | product (a b : Expr)
  | power (b : Expr) (n : ℕ+)

namespace Expr

def datum : Expr → Datum
  | number n => .number n
  | symbol s => .symbol s
  | sum a b => list3 "+" a.datum b.datum
  | product a b => list3 "*" a.datum b.datum
  | power b n => list3 "^" b.datum (.number (n : ℕ))

noncomputable def poly : Expr → MvPolynomial String ℚ
  | number n => C (n : ℚ)
  | symbol s => X s
  | sum a b => a.poly + b.poly
  | product a b => a.poly * b.poly
  | power b n => b.poly ^ (n : ℕ)

/-- How many expressions lie inside one another. -/
def depth : Expr → ℕ
  | number _ => 1
  | symbol _ => 1
  | sum a b => max a.depth b.depth + 1
  | product a b => max a.depth b.depth + 1
  | power _ _ => 1

end Expr

def powerValue (x : Option ℚ) : Datum → Option ℚ
  | .number n => if 0 ≤ n then x.map (· ^ n.toNat) else none
  | _ => none

/-- The value of an expression, if the datum is one. -/
def value (env : String → ℚ) : Datum → Option ℚ
  | .number n => some n
  | .symbol s => some (env s)
  | .pair (.symbol op) (.pair a (.pair b .nil)) =>
    if op = "+" then do return (← value env a) + (← value env b)
    else if op = "*" then do return (← value env a) * (← value env b)
    else if op = "^" then powerValue (value env a) b
    else none
  | _ => none

section Values

variable {env : String → ℚ} {a b : Datum} {x y : ℚ}

theorem value_number (env : String → ℚ) (n : ℤ) : value env (.number n) = some (n : ℚ) := rfl

theorem value_list3 (env : String → ℚ) (op : String) (a b : Datum) :
    value env (list3 op a b) =
      if op = "+" then do return (← value env a) + (← value env b)
      else if op = "*" then do return (← value env a) * (← value env b)
      else if op = "^" then powerValue (value env a) b
      else none := rfl

theorem value_sum (ha : value env a = some x) (hb : value env b = some y) :
    value env (list3 "+" a b) = some (x + y) := by
  rw [value_list3, if_pos rfl, ha, hb]
  rfl

theorem value_product (ha : value env a = some x) (hb : value env b = some y) :
    value env (list3 "*" a b) = some (x * y) := by
  rw [value_list3, if_neg (by decide), if_pos rfl, ha, hb]
  rfl

theorem value_power (ha : value env a = some x) (n : ℕ) :
    value env (list3 "^" a (.number n)) = some (x ^ n) := by
  rw [value_list3, if_neg (by decide), if_neg (by decide), if_pos rfl]
  rw [powerValue, if_pos (Int.natCast_nonneg n), ha, Int.toNat_natCast]
  rfl

theorem value_of_isNumberEq {n : ℤ} (h : isNumberEq a n = true) (ha : value env a = some x) :
    x = n := by
  rw [of_decide_eq_true h, value_number] at ha
  exact (Option.some.inj ha).symm

theorem value_makeSum (ha : value env a = some x) (hb : value env b = some y) :
    value env (makeSum a b) = some (x + y) := by
  unfold makeSum
  split
  case isTrue hzero =>
    rw [value_of_isNumberEq hzero ha, hb, Int.cast_zero, zero_add]
  case isFalse =>
    split
    case isTrue hzero =>
      rw [value_of_isNumberEq hzero hb, ha, Int.cast_zero, add_zero]
    case isFalse =>
      split
      · rw [value_number] at ha hb
        rw [value_number, Int.cast_add, Option.some.inj ha, Option.some.inj hb]
      · exact value_sum ha hb

theorem value_makeProduct (ha : value env a = some x) (hb : value env b = some y) :
    value env (makeProduct a b) = some (x * y) := by
  unfold makeProduct
  split
  case isTrue hzero =>
    rw [value_number, Int.cast_zero]
    rw [Bool.or_eq_true] at hzero
    cases hzero with
    | inl hzero => rw [value_of_isNumberEq hzero ha, Int.cast_zero, zero_mul]
    | inr hzero => rw [value_of_isNumberEq hzero hb, Int.cast_zero, mul_zero]
  case isFalse =>
    split
    case isTrue hone =>
      rw [value_of_isNumberEq hone ha, hb, Int.cast_one, one_mul]
    case isFalse =>
      split
      case isTrue hone =>
        rw [value_of_isNumberEq hone hb, ha, Int.cast_one, mul_one]
      case isFalse =>
        split
        · rw [value_number] at ha hb
          rw [value_number, Int.cast_mul, Option.some.inj ha, Option.some.inj hb]
        · exact value_product ha hb

theorem value_simplified (ha : value env a = some x) (n : ℕ) :
    value env (if Datum.number n = .number 0 then .number 1
      else if Datum.number n = .number 1 then a else list3 "^" a (.number n)) = some (x ^ n) := by
  split
  case isTrue hzero =>
    rw [Datum.number.injEq, Int.natCast_eq_zero] at hzero
    rw [value_number, hzero, Int.cast_one, pow_zero]
  case isFalse =>
    split
    case isTrue hone =>
      rw [Datum.number.injEq, Nat.cast_eq_one] at hone
      rw [ha, hone, pow_one]
    case isFalse => exact value_power ha n

/-- A power with a natural exponent is always made, and it has its value in every environment. -/
theorem value_makeExp (b : Datum) (n : ℕ) : ∃ d, makeExp b (.number n) = some d ∧
    ∀ env x, value env b = some x → value env d = some (x ^ n) := by
  cases b with
  | number m =>
    refine ⟨.number (m ^ n), ?_, ?_⟩
    · rw [makeExp, expt, if_pos (Int.natCast_nonneg n), Int.toNat_natCast]
    · intro env x hx
      rw [value_number] at hx
      rw [value_number, Int.cast_pow, Option.some.inj hx]
  | symbol s => exact ⟨_, rfl, fun env x hx => value_simplified hx n⟩
  | nil => exact ⟨_, rfl, fun env x hx => value_simplified hx n⟩
  | pair car cdr => exact ⟨_, rfl, fun env x hx => value_simplified hx n⟩

end Values

theorem value_datum (env : String → ℚ) (e : Expr) :
    value env e.datum = some (eval env e.poly) := by
  induction e with
  | number n => simp [Expr.datum, Expr.poly, value_number]
  | symbol s => simp [Expr.datum, Expr.poly, value]
  | sum a b iha ihb =>
    rw [Expr.datum, Expr.poly, eval_add]
    exact value_sum iha ihb
  | product a b iha ihb =>
    rw [Expr.datum, Expr.poly, eval_mul]
    exact value_product iha ihb
  | power b n ih =>
    rw [Expr.datum, Expr.poly, eval_pow]
    exact value_power ih n

/-! ## What the rules compute -/

/-- The derivative by the rules of `derive`, of which that for powers has no inner derivative. -/
noncomputable def byRules (var : String) : Expr → MvPolynomial String ℚ
  | .number _ => 0
  | .symbol s => if s = var then 1 else 0
  | .sum a b => byRules var a + byRules var b
  | .product a b => byRules var a * b.poly + byRules var b * a.poly
  | .power b n => C ((n : ℕ) : ℚ) * b.poly ^ ((n : ℕ) - 1)

/-- What the inner derivatives would change: each power contributes with the factors that the
product rule puts beside it. -/
noncomputable def innerGap (var : String) : Expr → MvPolynomial String ℚ
  | .number _ => 0
  | .symbol _ => 0
  | .sum a b => innerGap var a + innerGap var b
  | .product a b => innerGap var a * b.poly + innerGap var b * a.poly
  | .power b n => C ((n : ℕ) : ℚ) * b.poly ^ ((n : ℕ) - 1) * (1 - pderiv var b.poly)

theorem byRules_eq (var : String) (e : Expr) :
    byRules var e = pderiv var e.poly + innerGap var e := by
  induction e with
  | number n => simp [byRules, innerGap, Expr.poly]
  | symbol s =>
    rw [byRules, innerGap, Expr.poly, add_zero]
    by_cases h : s = var
    · rw [if_pos h, h, pderiv_X_self]
    · rw [if_neg h, pderiv_X_of_ne h]
  | sum a b iha ihb =>
    rw [byRules, innerGap, Expr.poly, iha, ihb, map_add]
    ring
  | product a b iha ihb =>
    rw [byRules, innerGap, Expr.poly, iha, ihb, pderiv_mul]
    ring
  | power b n ih =>
    rw [byRules, innerGap, Expr.poly, pderiv_pow, map_natCast]
    ring

theorem derive_list3 (var : Datum) (fuel : ℕ) (op : String) (a b : Datum) :
    derive var (fuel + 1) (list3 op a b) =
      (if op = "+" then deriveSum (derive var fuel) (list3 op a b)
      else if op = "*" then deriveProduct (derive var fuel) (list3 op a b)
      else if op = "^" then deriveExp (list3 op a b)
      else some (.symbol "error")) := by
  simp [derive, list3, isNumber, isVariable, isSymbol, isSum, isProduct, isExp, isTagged, isList,
    car]

theorem derive_ok (var : String) (e : Expr) : ∀ fuel, e.depth ≤ fuel →
    ∃ d, derive (.symbol var) fuel e.datum = some d ∧
      ∀ env, value env d = some (eval env (byRules var e)) := by
  induction e with
  | number n =>
    intro fuel hfuel
    obtain ⟨fuel, rfl⟩ := Nat.exists_eq_succ_of_ne_zero (Nat.ne_zero_of_lt hfuel)
    refine ⟨.number 0, rfl, ?_⟩
    intro env
    simp [value_number, byRules]
  | symbol s =>
    intro fuel hfuel
    obtain ⟨fuel, rfl⟩ := Nat.exists_eq_succ_of_ne_zero (Nat.ne_zero_of_lt hfuel)
    refine ⟨if s = var then .number 1 else .number 0, ?_, ?_⟩
    · simp [derive, Expr.datum, isNumber, isVariable, isSymbol, sameVariable]
    · intro env
      by_cases h : s = var
      · simp [h, value_number, byRules]
      · simp [h, value_number, byRules]
  | sum a b iha ihb =>
    intro fuel hfuel
    obtain ⟨fuel, rfl⟩ := Nat.exists_eq_succ_of_ne_zero (Nat.ne_zero_of_lt hfuel)
    rw [Expr.depth] at hfuel
    obtain ⟨da, hda, hva⟩ := iha fuel (by omega)
    obtain ⟨db, hdb, hvb⟩ := ihb fuel (by omega)
    refine ⟨makeSum da db, ?_, ?_⟩
    · rw [Expr.datum, derive_list3, if_pos rfl, deriveSum]
      simp [addend, augend, cadr, caddr, list3, car, cdr, hda, hdb]
    · intro env
      rw [byRules, eval_add]
      exact value_makeSum (hva env) (hvb env)
  | product a b iha ihb =>
    intro fuel hfuel
    obtain ⟨fuel, rfl⟩ := Nat.exists_eq_succ_of_ne_zero (Nat.ne_zero_of_lt hfuel)
    rw [Expr.depth] at hfuel
    obtain ⟨da, hda, hva⟩ := iha fuel (by omega)
    obtain ⟨db, hdb, hvb⟩ := ihb fuel (by omega)
    refine ⟨makeSum (makeProduct da b.datum) (makeProduct db a.datum), ?_, ?_⟩
    · rw [Expr.datum, derive_list3, if_neg (by decide), if_pos rfl, deriveProduct]
      simp [multiplier, multiplicand, cadr, caddr, list3, car, cdr, hda, hdb]
    · intro env
      rw [byRules, eval_add, eval_mul, eval_mul]
      exact value_makeSum (value_makeProduct (hva env) (value_datum env b))
        (value_makeProduct (hvb env) (value_datum env a))
  | power b n ih =>
    intro fuel hfuel
    obtain ⟨fuel, rfl⟩ := Nat.exists_eq_succ_of_ne_zero (Nat.ne_zero_of_lt hfuel)
    obtain ⟨d, hd, hv⟩ := value_makeExp b.datum ((n : ℕ) - 1)
    have hsub : ((n : ℕ) : ℤ) - 1 = (((n : ℕ) - 1 : ℕ) : ℤ) := by
      have hpos := n.pos
      omega
    refine ⟨makeProduct (.number (n : ℕ)) d, ?_, ?_⟩
    · rw [Expr.datum, derive_list3, if_neg (by decide), if_neg (by decide), if_pos rfl, deriveExp]
      simp only [exponent, base, cadr, caddr, list3, car, cdr, Option.bind_eq_bind,
        Option.bind_some, subOne, hsub, hd]
      rfl
    · intro env
      rw [byRules, eval_mul, eval_C, eval_pow]
      apply value_makeProduct
      · rw [value_number, Int.cast_natCast]
      · exact hv env _ (value_datum env b)

/-- The derivative exists and has the value of the formal derivative, in every environment. -/
def DerivesRight (var : String) (e : Expr) : Prop :=
  ∃ rounds, ∀ fuel ≥ rounds, ∃ d, derive (.symbol var) fuel e.datum = some d ∧
    ∀ env, value env d = some (eval env (pderiv var e.poly))

/-- The simplifications change no value. -/
structure Simplifies : Prop where
  sum : ∀ env a b x y, value env a = some x → value env b = some y →
    value env (makeSum a b) = some (x + y)
  product : ∀ env a b x y, value env a = some x → value env b = some y →
    value env (makeProduct a b) = some (x * y)
  exp : ∀ b (n : ℕ), ∃ d, makeExp b (.number n) = some d ∧
    ∀ env x, value env b = some x → value env d = some (x ^ n)

theorem simplifies : Simplifies where
  sum := fun _ _ _ _ _ ha hb => value_makeSum ha hb
  product := fun _ _ _ _ _ ha hb => value_makeProduct ha hb
  exp := value_makeExp

/-- The simplifications change no value, and the derivative is right if and only if the inner
derivatives that are missing cancel. -/
theorem derive_iff (var : String) (e : Expr) :
    (DerivesRight var e ∧ Simplifies) ↔ innerGap var e = 0 := by
  constructor
  · intro h
    obtain ⟨rounds, hrounds⟩ := h.1
    obtain ⟨d, hd, hright⟩ := hrounds (max rounds e.depth) (le_max_left _ _)
    obtain ⟨d', hd', hrules⟩ := derive_ok var e (max rounds e.depth) (le_max_right _ _)
    rw [hd, Option.some.injEq] at hd'
    subst hd'
    apply MvPolynomial.funext
    intro env
    have heval := Option.some.inj ((hright env).symm.trans (hrules env))
    rw [byRules_eq, eval_add] at heval
    rw [map_zero]
    linarith
  · intro hgap
    refine ⟨⟨e.depth, ?_⟩, simplifies⟩
    intro fuel hfuel
    obtain ⟨d, hd, hrules⟩ := derive_ok var e fuel hfuel
    rw [byRules_eq, hgap, add_zero] at hrules
    exact ⟨d, hd, hrules⟩

/-- The derivative of `(^ y 2)` with respect to `x` is `(* 2 y)`. -/
theorem derive_other_variable :
    ¬(DerivesRight "x" (.power (.symbol "y") 2) ∧ Simplifies) := by
  intro h
  obtain ⟨rounds, hrounds⟩ := h.1
  obtain ⟨d, hd, hright⟩ := hrounds (rounds + 1) (Nat.le_succ rounds)
  have hderive : derive (.symbol "x") (rounds + 1) (Expr.power (.symbol "y") 2).datum =
      some (list3 "*" (.number 2) (.symbol "y")) := rfl
  rw [hderive, Option.some.injEq] at hd
  subst hd
  have hvalue : value (fun _ => 1) (list3 "*" (.number 2) (.symbol "y")) = some 2 := by
    have hproduct := @value_product (fun _ => 1) (.number 2) (.symbol "y") 2 1 rfl rfl
    rw [hproduct, mul_one]
  have hformal : pderiv "x" (Expr.power (.symbol "y") 2).poly = 0 := by
    rw [Expr.poly, pderiv_pow, Expr.poly, pderiv_X_of_ne (by decide), mul_zero]
  have hzero := hright fun _ => 1
  rw [hvalue, hformal, map_zero] at hzero
  exact absurd (Option.some.inj hzero) (by norm_num)

end Courses.Exercises.Derive
