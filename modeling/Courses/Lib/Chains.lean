import Mathlib.Data.Fintype.Pigeonhole
import Mathlib.Dynamics.PeriodicPts.Defs
import Mathlib.Tactic

/-!
# Chains of a partial function

A partial function is followed step by step until it is not defined. On finitely many points a
chain ends or it runs into a cycle, and on a cycle a walker that is twice as fast as another one
meets it again within as many steps as there are points.
-/
namespace Courses.Lib

variable {α : Type} (next : α → Option α) {x : Option α} {a : α} {m n p : ℕ}

/-- The point after `n` steps, unless the chain ends before. -/
def chain (x : Option α) (n : ℕ) : Option α := (fun x => x.bind next)^[n] x

@[simp] theorem chain_zero (x : Option α) : chain next x 0 = x := rfl

theorem chain_succ (x : Option α) (n : ℕ) :
    chain next x (n + 1) = (chain next x n).bind next :=
  Function.iterate_succ_apply' _ n x

theorem chain_add (x : Option α) (m n : ℕ) :
    chain next x (m + n) = chain next (chain next x n) m :=
  Function.iterate_add_apply _ m n x

/-- The chain comes to a point that is on a cycle. -/
def RunsIntoCycle (x : Option α) : Prop :=
  ∃ n a p, chain next x n = some a ∧ 0 < p ∧ chain next (some a) p = some a

variable {next}

theorem chain_eq_none_of_le (hend : chain next x m = none) (hmn : m ≤ n) :
    chain next x n = none := by
  induction n, hmn using Nat.le_induction with
  | base => exact hend
  | succ n hmn ih =>
    rw [chain_succ, ih]
    rfl

/-- A chain that comes back to a point comes back to it again and again. -/
theorem chain_mul (hcycle : chain next (some a) p = some a) (k : ℕ) :
    chain next (some a) (k * p) = some a :=
  Function.IsPeriodicPt.const_mul hcycle k

theorem RunsIntoCycle.ne_none (h : RunsIntoCycle next x) (n : ℕ) : chain next x n ≠ none := by
  obtain ⟨m, a, p, hm, hp, hcycle⟩ := h
  intro hend
  have hle : n ≤ n * p + m := (Nat.le_mul_of_pos_right n hp).trans (Nat.le_add_right _ _)
  have hlater := chain_eq_none_of_le hend hle
  rw [chain_add, hm, chain_mul hcycle] at hlater
  cases hlater

theorem runsIntoCycle_of_eq (hp : 0 < p) (hm : chain next x m ≠ none)
    (heq : chain next x (p + m) = chain next x m) : RunsIntoCycle next x := by
  obtain ⟨a, ha⟩ := Option.ne_none_iff_exists'.1 hm
  rw [chain_add, ha] at heq
  exact ⟨m, a, p, ha, hp, heq⟩

/-- On a cycle of `p` points, entered after `m` steps, the walkers meet. -/
theorem chain_double_eq (hp : 0 < p) (hm : chain next x m = some a)
    (hcycle : chain next (some a) p = some a) :
    ∃ k, 0 < k ∧ k ≤ p + m ∧ chain next x (2 * k) = chain next x k := by
  -- the first multiple of `p` beyond `m`
  have hmod := Nat.div_add_mod' m p
  have hlt := Nat.mod_lt m hp
  have hk : (m / p + 1) * p = m / p * p + p := Nat.succ_mul _ _
  have hrest : (m / p + 1) * p = (m / p + 1) * p - m + m := by omega
  refine ⟨(m / p + 1) * p, by omega, by omega, ?_⟩
  calc chain next x (2 * ((m / p + 1) * p))
      = chain next x ((m / p + 1) * p - m + ((m / p + 1) * p + m)) := by congr 1; omega
    _ = chain next (some a) ((m / p + 1) * p - m) := by
      rw [chain_add, chain_add _ _ _ m, hm, chain_mul hcycle]
    _ = chain next x ((m / p + 1) * p) := by
      rw [hrest, Nat.add_sub_cancel, chain_add, hm]

section Finite

variable [Fintype α]

/-- Among the first points of a chain that does not end there is one that comes twice. -/
theorem exists_chain_eq (h : chain next x (Fintype.card α) ≠ none) :
    ∃ m p, 0 < p ∧ p + m ≤ Fintype.card α ∧ chain next x (p + m) = chain next x m := by
  have hdefined : ∀ i : Fin (Fintype.card α + 1), ∃ a, chain next x i = some a := fun i =>
    Option.ne_none_iff_exists'.1 fun hend =>
      h (chain_eq_none_of_le hend (Nat.lt_succ_iff.1 i.isLt))
  choose f hf using hdefined
  obtain ⟨i, j, hij, heq⟩ := Fintype.exists_ne_map_eq_of_card_lt f (by simp)
  wlog hlt : i < j generalizing i j with H
  · exact H j i hij.symm heq.symm (lt_of_le_of_ne (not_lt.1 hlt) hij.symm)
  · have hle : i.val < j.val := hlt
    have hadd : j.val - i.val + i.val = j.val := by omega
    refine ⟨i, j - i, by omega, by omega, ?_⟩
    rw [hadd, hf, hf, heq]

theorem runsIntoCycle_iff_ne_none :
    RunsIntoCycle next x ↔ chain next x (Fintype.card α) ≠ none := by
  constructor
  · intro h
    exact h.ne_none _
  · intro h
    obtain ⟨m, p, hp, hle, heq⟩ := exists_chain_eq h
    exact runsIntoCycle_of_eq hp (fun hend => h (chain_eq_none_of_le hend (by omega))) heq

theorem RunsIntoCycle.meets (h : RunsIntoCycle next x) :
    ∃ k, 0 < k ∧ k ≤ Fintype.card α ∧ chain next x (2 * k) = chain next x k := by
  obtain ⟨m, p, hp, hle, heq⟩ := exists_chain_eq (h.ne_none _)
  obtain ⟨a, hm⟩ := Option.ne_none_iff_exists'.1 (h.ne_none m)
  rw [chain_add, hm] at heq
  obtain ⟨k, hk, hkle, hmeet⟩ := chain_double_eq hp hm heq
  exact ⟨k, hk, hkle.trans hle, hmeet⟩

end Finite

end Courses.Lib
